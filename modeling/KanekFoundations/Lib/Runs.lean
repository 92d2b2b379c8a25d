/-
  KanekFoundations.Lib.Runs — runs of one value in a sequence `f : Nat → α`, and the
  search for the first run of a given length.

  A scan from the left carries a candidate start. What it knows of the starts it has
  passed is `Blocked`: each meets another value before the candidate, so none of them
  is the start of a run, whatever lies beyond. Blocked stretches compose
  (`Blocked.append`), a stale candidate is given up by `Blocked.past`, and the first
  run is a run at a candidate with everything before it blocked (`FirstRun`).
-/

import Mathlib

namespace KanekFoundations.Lib

variable {α : Type} {f g : Nat → α} {v : α} {a b c m n lo mid hi j : Nat}

/-- `f` is `v` on the `n` indices from `a`. -/
def Run (f : Nat → α) (v : α) (a n : Nat) : Prop := ∀ i, a ≤ i → i < a + n → f i = v

theorem Run.zero : Run f v a 0 := fun _ h1 h2 => by omega

theorem Run.append (h1 : Run f v a m) (h2 : Run f v (a + m) n) : Run f v a (m + n) := fun i hi hlt => by
  by_cases h : i < a + m
  · exact h1 i hi h
  · exact h2 i (by omega) (by omega)

theorem Run.sub (h : Run f v a n) (h1 : a ≤ b) (h2 : b + m ≤ a + n) : Run f v b m :=
  fun i hi hlt => h i (by omega) (by omega)

/-- A run of `f` seen from a sequence that holds `f` from `c` on. -/
theorem Run.shift (h : Run f v a n) (hfg : ∀ i, i < a + n → g (c + i) = f i) : Run g v (c + a) n := by
  intro i h1 h2
  have hi : i = c + (i - c) := by omega
  rw [hi, hfg _ (by omega)]
  exact h _ (by omega) (by omega)

/-- Every start in `[lo, hi)` meets a value other than `v` before `hi`, and within `n`. -/
def Blocked (f : Nat → α) (v : α) (n lo hi : Nat) : Prop :=
  ∀ b, lo ≤ b → b < hi → ∃ j, b ≤ j ∧ j < hi ∧ j < b + n ∧ f j ≠ v

theorem Blocked.nil : Blocked f v n lo lo := fun _ h1 h2 => by omega

theorem Blocked.not_run (h : Blocked f v n lo hi) (h1 : lo ≤ b) (h2 : b < hi) : ¬ Run f v b n := by
  intro hr
  obtain ⟨j, hj1, _, hj2, hne⟩ := h b h1 h2
  exact hne (hr j hj1 hj2)

theorem Blocked.append (h1 : Blocked f v n lo mid) (h2 : Blocked f v n mid hi) (hm : mid ≤ hi) :
    Blocked f v n lo hi := by
  intro b hb hlt
  by_cases h : b < mid
  · obtain ⟨j, hj1, hj2, hj3, hne⟩ := h1 b hb h
    exact ⟨j, hj1, by omega, hj3, hne⟩
  · exact h2 b (by omega) hlt

theorem Blocked.from (h : Blocked f v n lo hi) (h1 : lo ≤ mid) : Blocked f v n mid hi :=
  fun b hb hlt => h b (by omega) hlt

theorem Blocked.mono (h : Blocked f v m lo hi) (hmn : m ≤ n) : Blocked f v n lo hi := by
  intro b hb hlt
  obtain ⟨j, hj1, hj2, hj3, hne⟩ := h b hb hlt
  exact ⟨j, hj1, hj2, by omega, hne⟩

/-- A value other than `v` at `j`, within `n` of `a`, blocks every start from `a` on past it. -/
theorem Blocked.past (h : Blocked f v n lo a) (h1 : a ≤ j) (h2 : j < a + n) (hne : f j ≠ v) :
    Blocked f v n lo (j + 1) :=
  h.append (fun _ hb hlt => ⟨j, by omega, by omega, by omega, hne⟩) (by omega)

theorem Blocked.shift (h : Blocked f v n lo hi) (hfg : ∀ i, i < hi → g (c + i) = f i) :
    Blocked g v n (c + lo) (c + hi) := by
  intro b hb hlt
  obtain ⟨j, hj1, hj2, hj3, hne⟩ := h (b - c) (by omega) (by omega)
  exact ⟨c + j, by omega, by omega, by omega, by rwa [hfg j hj2]⟩

/-- `a` is the first start of a run of `n` from `lo` on, with every start before it blocked. -/
structure FirstFrom (f : Nat → α) (v : α) (n lo a : Nat) : Prop where
  ge : lo ≤ a
  run : Run f v a n
  blocked : Blocked f v n lo a

theorem FirstFrom.unique (h : FirstFrom f v n lo a) (h' : FirstFrom f v n lo b) : a = b := by
  rcases Nat.lt_trichotomy a b with hlt | heq | hlt
  · exact absurd h.run (h'.blocked.not_run h.ge hlt)
  · exact heq
  · exact absurd h'.run (h.blocked.not_run h'.ge hlt)

/-- The first run does not start in a blocked stretch. -/
theorem FirstFrom.after (h : FirstFrom f v n lo a) (hb : Blocked f v n lo c) : c ≤ a := by
  by_contra hlt
  exact hb.not_run h.ge (Nat.lt_of_not_le hlt) h.run

/-- `a` is the first start in `[lo, hi)` of a run of `n` that ends by `hi`. -/
structure FirstRun (f : Nat → α) (v : α) (n lo hi a : Nat) : Prop where
  ge : lo ≤ a
  le : a + n ≤ hi
  run : Run f v a n
  first : ∀ b, lo ≤ b → b < a → ¬ Run f v b n

theorem FirstFrom.firstRun (h : FirstFrom f v n lo a) (hle : a + n ≤ hi) : FirstRun f v n lo hi a :=
  ⟨h.ge, hle, h.run, fun _ h1 h2 => h.blocked.not_run h1 h2⟩

def NoRun (f : Nat → α) (v : α) (n lo hi : Nat) : Prop := ∀ b, lo ≤ b → b + n ≤ hi → ¬ Run f v b n

/-- Everything up to the last possible start is blocked. -/
theorem Blocked.noRun (h : Blocked f v n lo a) (hend : hi < a + n) : NoRun f v n lo hi :=
  fun _ h1 h2 => h.not_run h1 (by omega)

/-! ## The longest run from a start -/

/-- `k` is the length of the run of `v` from `a`, cut off at `n`. -/
structure MaxRun (f : Nat → α) (v : α) (a n k : Nat) : Prop where
  le : k ≤ n
  run : Run f v a k
  stop : k < n → f (a + k) ≠ v

theorem MaxRun.append (h1 : Run f v a m) (h2 : MaxRun f v (a + m) n k) : MaxRun f v a (m + n) (m + k) := by
  refine ⟨by have := h2.le; omega, h1.append h2.run, fun h => ?_⟩
  rw [← Nat.add_assoc]
  exact h2.stop (by omega)

theorem MaxRun.unique {l : Nat} (h : MaxRun f v a n k) (h' : MaxRun f v a n l) : l = k := by
  rcases Nat.lt_trichotomy l k with hlt | heq | hlt
  · exact absurd (h.run (a + l) (by omega) (by omega)) (h'.stop (Nat.lt_of_lt_of_le hlt h.le))
  · exact heq
  · exact absurd (h'.run (a + k) (by omega) (by omega)) (h.stop (Nat.lt_of_lt_of_le hlt h'.le))

/-- The run with a lower limit. -/
theorem MaxRun.cut (h : MaxRun f v a n k) (hm : m ≤ n) : MaxRun f v a m (min k m) := by
  refine ⟨Nat.min_le_right _ _, h.run.sub (Nat.le_refl _) (by omega), fun hlt => ?_⟩
  have hk : min k m = k := by omega
  rw [hk] at hlt ⊢
  exact h.stop (Nat.lt_of_lt_of_le hlt hm)

theorem Run.max (h : Run f v a n) : MaxRun f v a n n := ⟨Nat.le_refl n, h, fun hlt => absurd hlt (Nat.lt_irrefl n)⟩

theorem MaxRun.isGreatest (h : MaxRun f v a n k) : IsGreatest {k | k ≤ n ∧ Run f v a k} k := by
  refine ⟨⟨h.le, h.run⟩, fun l hl => ?_⟩
  by_contra hlt
  exact h.stop (by have := hl.1; omega) (hl.2 (a + k) (by omega) (by omega))

/-- How many of the `n` indices from `a` on pass before the first value other than `v`. -/
def runLength [DecidableEq α] (f : Nat → α) (v : α) (a : Nat) : Nat → Nat
  | 0 => 0
  | n + 1 => if f a = v then runLength f v (a + 1) n + 1 else 0

theorem runLength_max [DecidableEq α] (f : Nat → α) (v : α) (a n : Nat) : MaxRun f v a n (runLength f v a n) := by
  induction n generalizing a with
  | zero => exact ⟨Nat.le_refl 0, Run.zero, fun h => absurd h (Nat.lt_irrefl 0)⟩
  | succ n ih =>
    unfold runLength
    by_cases ha : f a = v
    · rw [if_pos ha, Nat.add_comm n 1, Nat.add_comm _ 1]
      refine MaxRun.append ?_ (ih (a + 1))
      intro i h1 h2
      rw [show i = a by omega]
      exact ha
    · rw [if_neg ha]
      exact ⟨Nat.zero_le _, Run.zero, fun _ => ha⟩

/-! ## Counting -/

theorem count_congr {p q : Nat → Bool} (n : Nat) (h : ∀ i < n, p i = q i) :
    (List.range n).countP p = (List.range n).countP q :=
  List.countP_congr fun i hi => by rw [h i (List.mem_range.mp hi)]

theorem count_succ (p : Nat → Bool) (n : Nat) :
    (List.range (n + 1)).countP p = (List.range n).countP p + if p n then 1 else 0 := by
  rw [List.range_succ, List.countP_append, List.countP_singleton]

theorem count_add (p : Nat → Bool) (m n : Nat) :
    (List.range (m + n)).countP p = (List.range m).countP p + (List.range n).countP fun i => p (m + i) := by
  rw [List.range_add, List.countP_append, List.countP_map]
  rfl

theorem count_below (p : Nat → Bool) (h : m ≤ n) :
    (List.range n).countP (fun i => p i && decide (i < m)) = (List.range m).countP p := by
  obtain ⟨k, rfl⟩ := Nat.exists_eq_add_of_le h
  have hlow : ∀ i < m, (p i && decide (i < m)) = p i := fun i hi => by simp [hi]
  have hhigh : (List.range k).countP (fun i => p (m + i) && decide (m + i < m)) = 0 :=
    List.countP_eq_zero.mpr fun i _ => by simp
  rw [count_add, count_congr m hlow, hhigh, Nat.add_zero]

theorem count_or {p q : Nat → Bool} (n : Nat) (h : ∀ i < n, p i = true → q i = false) :
    (List.range n).countP (fun i => p i || q i) = (List.range n).countP p + (List.range n).countP q := by
  induction n with
  | zero => rfl
  | succ n ih =>
    rw [count_succ, count_succ, count_succ, ih fun i hi => h i (Nat.lt_succ_of_lt hi)]
    cases hp : p n with
    | false => simp only [Bool.false_or, Bool.false_eq_true, if_false]; omega
    | true => simp only [h n (Nat.lt_succ_self n) hp, Bool.true_or, Bool.false_eq_true, if_true, if_false]; omega

theorem count_interval (n : Nat) (h : a + m ≤ n) : (List.range n).countP (fun i => decide (a ≤ i ∧ i < a + m)) = m := by
  have hgen : ∀ n, (List.range n).countP (fun i => decide (a ≤ i ∧ i < a + m)) = min n (a + m) - min n a := by
    intro n
    induction n with
    | zero => simp
    | succ n ih =>
      rw [count_succ, ih]
      simp only [decide_eq_true_eq]
      split <;> omega
  rw [hgen]
  omega

end KanekFoundations.Lib

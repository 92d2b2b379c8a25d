/-
  KanekFoundations.Lib.Numeral — numerals in a base `b`, most significant digit first, and
  sequences cut or padded to a length.

  Proved:
  - `numeral_lt_iff`: numerals of one length compare as their digits do, in lexicographic
    order.
  - `padTo_lt_iff`: coding the letters of a word in order, above the padding, keeps the
    lexicographic order of the words that fit.
-/

import Mathlib

namespace KanekFoundations.Lib

/-! ## Numerals -/

def numeral (b : Int) (ds : List Int) : Int := ds.foldl (fun h d => h * b + d) 0

def Digits (b : Int) (ds : List Int) : Prop := ∀ d ∈ ds, 0 ≤ d ∧ d < b

section
variable {b d : Int} {ds es : List Int}

theorem numeral_append (b : Int) (ds : List Int) (d : Int) : numeral b (ds ++ [d]) = numeral b ds * b + d := by
  unfold numeral
  rw [List.foldl_append]
  rfl

theorem foldl_numeral (b h : Int) (ds : List Int) :
    ds.foldl (fun h d => h * b + d) h = h * b ^ ds.length + numeral b ds := by
  induction ds using List.reverseRecOn with
  | nil => simp [numeral]
  | append_singleton ds d ih =>
    rw [List.foldl_append, ih, numeral_append, List.length_append, List.length_singleton, pow_succ]
    show (h * b ^ ds.length + numeral b ds) * b + d = _
    ring

theorem numeral_cons (b d : Int) (ds : List Int) : numeral b (d :: ds) = d * b ^ ds.length + numeral b ds := by
  show ds.foldl (fun h d => h * b + d) (0 * b + d) = _
  rw [foldl_numeral]
  ring

theorem numeral_nonneg (hb : 0 < b) (hds : Digits b ds) : 0 ≤ numeral b ds := by
  induction ds with
  | nil => exact Int.le_refl 0
  | cons d ds ih =>
    obtain ⟨hd, hds⟩ := List.forall_mem_cons.mp hds
    rw [numeral_cons]
    have hpow : 0 < b ^ ds.length := pow_pos hb _
    have := ih hds
    have := mul_nonneg hd.1 hpow.le
    omega

theorem numeral_lt_pow (hb : 0 < b) (hds : Digits b ds) : numeral b ds < b ^ ds.length := by
  induction ds with
  | nil => simp [numeral]
  | cons d ds ih =>
    obtain ⟨hd, hds⟩ := List.forall_mem_cons.mp hds
    have hpow : 0 < b ^ ds.length := pow_pos hb _
    calc numeral b (d :: ds) = d * b ^ ds.length + numeral b ds := numeral_cons b d ds
      _ < d * b ^ ds.length + b ^ ds.length := Int.add_lt_add_left (ih hds) _
      _ = (d + 1) * b ^ ds.length := by ring
      _ ≤ b * b ^ ds.length := mul_le_mul_of_nonneg_right (by omega) hpow.le
      _ = b ^ (d :: ds).length := by rw [List.length_cons, pow_succ, mul_comm]

/-- A smaller leading digit outweighs the rest. -/
theorem numeral_lt_of_head (hb : 0 < b) {e : Int} (hlen : ds.length = es.length) (hds : Digits b ds) (hes : Digits b es)
    (hde : d < e) : numeral b (d :: ds) < numeral b (e :: es) := by
  have hpow : 0 < b ^ es.length := pow_pos hb _
  have hmul : (d + 1) * b ^ es.length ≤ e * b ^ es.length := mul_le_mul_of_nonneg_right hde hpow.le
  have hlow := numeral_lt_pow hb hds
  have hhigh := numeral_nonneg hb hes
  rw [numeral_cons, numeral_cons, hlen]
  rw [hlen] at hlow
  rw [add_mul, one_mul] at hmul
  omega

theorem numeral_lt_iff (hb : 0 < b) (hlen : ds.length = es.length) (hds : Digits b ds) (hes : Digits b es) :
    numeral b ds < numeral b es ↔ ds < es := by
  induction ds generalizing es with
  | nil =>
    obtain rfl := List.length_eq_zero_iff.mp hlen.symm
    simp
  | cons d ds ih =>
    cases es with
    | nil => cases hlen
    | cons e es =>
      have hlen' : ds.length = es.length := Nat.succ.inj hlen
      obtain ⟨hd, hds⟩ := List.forall_mem_cons.mp hds
      obtain ⟨he, hes⟩ := List.forall_mem_cons.mp hes
      rw [List.cons_lt_cons_iff, ← ih hlen' hds hes]
      rcases lt_trichotomy d e with hlt | rfl | hgt
      · exact iff_of_true (numeral_lt_of_head hb hlen' hds hes hlt) (.inl hlt)
      · rw [numeral_cons, numeral_cons, hlen']
        simp
      · refine iff_of_false (not_lt_of_ge (numeral_lt_of_head hb hlen'.symm hes hds hgt).le) fun hor => ?_
        rcases hor with hlt | ⟨heq, -⟩ <;> omega

theorem numeral_inj (hb : 0 < b) (hlen : ds.length = es.length) (hds : Digits b ds) (hes : Digits b es) :
    numeral b ds = numeral b es ↔ ds = es := by
  constructor
  · intro heq
    have h1 : ¬ ds < es := fun h => absurd ((numeral_lt_iff hb hlen hds hes).mpr h) (by omega)
    have h2 : ¬ es < ds := fun h => absurd ((numeral_lt_iff hb hlen.symm hes hds).mpr h) (by omega)
    exact le_antisymm (not_lt.mp h2) (not_lt.mp h1)
  · exact fun heq => by rw [heq]

end

/-! ## Words of a fixed length -/

section
variable {α β : Type} {f : α → β} {z : β} {s t : List α} {n : Nat}

/-- The codes of the first `n` letters, `z` where there is none. -/
def padTo (f : α → β) (z : β) : Nat → List α → List β
  | 0, _ => []
  | n + 1, [] => z :: padTo f z n []
  | n + 1, a :: s => f a :: padTo f z n s

@[simp] theorem padTo_length (f : α → β) (z : β) (n : Nat) (s : List α) : (padTo f z n s).length = n := by
  induction n generalizing s with
  | zero => rfl
  | succ n ih => cases s <;> simp [padTo, ih]

theorem padTo_eq_range (f : α → β) (z : β) (n : Nat) (s : List α) :
    padTo f z n s = (List.range n).map fun i => s[i]?.elim z f := by
  induction n generalizing s with
  | zero => rfl
  | succ n ih =>
    rw [List.range_succ_eq_map, List.map_cons, List.map_map]
    cases s with
    | nil => exact congrArg (z :: ·) (ih [])
    | cons a s => exact congrArg (f a :: ·) (ih s)

/-- One place more. -/
theorem padTo_succ (f : α → β) (z : β) (n : Nat) (s : List α) :
    padTo f z (n + 1) s = padTo f z n s ++ [s[n]?.elim z f] := by
  rw [padTo_eq_range, padTo_eq_range, List.range_succ, List.map_append]
  rfl

theorem padTo_mem {b : β} (h : b ∈ padTo f z n s) : b = z ∨ ∃ a ∈ s, b = f a := by
  induction n generalizing s with
  | zero => cases h
  | succ n ih =>
    cases s with
    | nil =>
      rcases List.mem_cons.mp h with rfl | h
      · exact .inl rfl
      · exact ih h
    | cons a s =>
      rcases List.mem_cons.mp h with rfl | h
      · exact .inr ⟨a, List.mem_cons_self .., rfl⟩
      · exact (ih h).imp_right fun ⟨a', ha', hb⟩ => ⟨a', List.mem_cons_of_mem _ ha', hb⟩

theorem padTo_map {γ : Type} (g : γ → α) (s : List γ) : padTo f z n (s.map g) = padTo (fun c => f (g c)) z n s := by
  induction n generalizing s with
  | zero => rfl
  | succ n ih =>
    cases s with
    | nil => exact congrArg (z :: ·) (ih [])
    | cons c s => exact congrArg (f (g c) :: ·) (ih s)

theorem padTo_congr {g : α → β} (h : ∀ a ∈ s, f a = g a) : padTo f z n s = padTo g z n s := by
  induction n generalizing s with
  | zero => rfl
  | succ n ih =>
    cases s with
    | nil => exact congrArg (z :: ·) (ih h)
    | cons a s =>
      obtain ⟨ha, hs⟩ := List.forall_mem_cons.mp h
      simp only [padTo, ha, ih hs]

/-- On the letters of `P` the code keeps the order and stays above the padding. -/
structure Coding [LT α] [LinearOrder β] (P : α → Prop) (f : α → β) (z : β) : Prop where
  lt_iff : ∀ a b, P a → P b → (f a < f b ↔ a < b)
  inj : ∀ a b, P a → P b → f a = f b → a = b
  above : ∀ a, P a → z < f a

theorem padTo_lt_iff [LT α] [LinearOrder β] {P : α → Prop} (hf : Coding P f z) (hs : ∀ a ∈ s, P a) (ht : ∀ a ∈ t, P a)
    (hslen : s.length ≤ n) (htlen : t.length ≤ n) : padTo f z n s < padTo f z n t ↔ s < t := by
  induction n generalizing s t with
  | zero =>
    obtain rfl := List.length_eq_zero_iff.mp (Nat.le_zero.mp hslen)
    obtain rfl := List.length_eq_zero_iff.mp (Nat.le_zero.mp htlen)
    simp [padTo]
  | succ n ih =>
    cases s with
    | nil =>
      cases t with
      | nil => exact iff_of_false (lt_irrefl _) (List.not_lt_nil _)
      | cons b t =>
        have hb := hf.above b (ht b (List.mem_cons_self ..))
        simp [padTo, List.cons_lt_cons_iff, hb]
    | cons a s =>
      obtain ⟨ha, hs⟩ := List.forall_mem_cons.mp hs
      cases t with
      | nil =>
        have hgt := hf.above a ha
        simp [padTo, List.cons_lt_cons_iff, hgt.not_gt, hgt.ne']
      | cons b t =>
        obtain ⟨hb, ht⟩ := List.forall_mem_cons.mp ht
        have heq : f a = f b ↔ a = b := ⟨hf.inj a b ha hb, congrArg f⟩
        rw [padTo, padTo, List.cons_lt_cons_iff, List.cons_lt_cons_iff, hf.lt_iff a b ha hb, heq,
          ih hs ht (Nat.le_of_succ_le_succ hslen) (Nat.le_of_succ_le_succ htlen)]

theorem padTo_inj [LT α] [LinearOrder β] {P : α → Prop} (hf : Coding P f z) (hs : ∀ a ∈ s, P a) (ht : ∀ a ∈ t, P a)
    (hslen : s.length ≤ n) (htlen : t.length ≤ n) (heq : padTo f z n s = padTo f z n t) : s = t := by
  induction n generalizing s t with
  | zero =>
    rw [List.length_eq_zero_iff.mp (Nat.le_zero.mp hslen), List.length_eq_zero_iff.mp (Nat.le_zero.mp htlen)]
  | succ n ih =>
    cases s with
    | nil =>
      cases t with
      | nil => rfl
      | cons b t => exact absurd (List.cons.inj heq).1 (hf.above b (ht b (List.mem_cons_self ..))).ne
    | cons a s =>
      obtain ⟨ha, hs⟩ := List.forall_mem_cons.mp hs
      cases t with
      | nil => exact absurd (List.cons.inj heq).1 (hf.above a ha).ne'
      | cons b t =>
        obtain ⟨hb, ht⟩ := List.forall_mem_cons.mp ht
        obtain ⟨hab, hst⟩ := List.cons.inj heq
        rw [hf.inj a b ha hb hab, ih hs ht (Nat.le_of_succ_le_succ hslen) (Nat.le_of_succ_le_succ htlen) hst]

end

end KanekFoundations.Lib

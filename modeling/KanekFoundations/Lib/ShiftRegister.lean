/-
  KanekFoundations.Lib.ShiftRegister — a reflected linear feedback shift register of
  any width `w`, with feedback word `poly`.

  A bit enters at the low end: its sum with the bit that falls out decides whether
  `poly` is added to the shifted register (`shiftIn`). Feeding a word is adding it to
  the register and shifting with no input (`steps_xor`), in this register or in a
  wider one (`feedBits_setWidth`), so words of any size and the bits they are made of
  are interchangeable.

  Proved:
  - `steps_xor`: the shifts are linear, which is what a table of one-symbol
    remainders rests on (`steps_table`).
  - `bits_leWord`: a little-endian word has the bits of its symbols in order.
  - `tableFeed_eq`: a table with errors in some entries computes the register and the
    drift of the errors it looks up; no prefix of the input goes wrong exactly when no
    lookup meets one (`tableFeed_prefixes`).
  - `tableFeed_inj_top`: whatever the errors, as long as the top symbols of the entries
    are distinct, the last symbols fed are read back from as many bits at the top.
-/

import Mathlib

namespace KanekFoundations.Lib.ShiftRegister

variable {w v : Nat} (poly : BitVec w)

def shiftIn (c : BitVec w) (b : Bool) : BitVec w :=
  if c.getLsbD 0 ^^ b then (c >>> 1) ^^^ poly else c >>> 1

def step (c : BitVec w) : BitVec w := shiftIn poly c false

def steps : Nat → BitVec w → BitVec w
  | 0, c => c
  | n + 1, c => steps n (step poly c)

def feedBits (c : BitVec w) (bs : List Bool) : BitVec w := bs.foldl (shiftIn poly) c

/-- A symbol's bits, least significant first. -/
def bitsOf (x : BitVec v) : List Bool := (List.range v).map x.getLsbD

/-- Add a symbol at the low end and shift it out. -/
def absorb (c : BitVec w) (x : BitVec v) : BitVec w := steps poly v (c ^^^ x.setWidth w)

def feed (c : BitVec w) (xs : List (BitVec v)) : BitVec w := xs.foldl (absorb poly) c

/-- The word whose low symbol is the head of the list. -/
def leWord (n : Nat) : List (BitVec v) → BitVec n
  | [] => 0
  | x :: xs => x.setWidth n ||| (leWord n xs <<< v)

/-! ## Linearity -/

theorem xor_step (c x : BitVec w) : step poly (c ^^^ x) = shiftIn poly c (x.getLsbD 0) ^^^ (x >>> 1) := by
  simp only [step, shiftIn, BitVec.getLsbD_xor, Bool.xor_false, BitVec.ushiftRight_xor_distrib]
  split
  · ac_rfl
  · rfl

theorem shiftIn_eq (c : BitVec w) (b : Bool) : shiftIn poly c b = step poly c ^^^ (if b then poly else 0) := by
  simp only [step, shiftIn, Bool.xor_false]
  cases c.getLsbD 0 <;> cases b <;> simp

theorem step_xor (a b : BitVec w) : step poly (a ^^^ b) = step poly a ^^^ step poly b := by
  have hb : step poly b = (b >>> 1) ^^^ (if b.getLsbD 0 then poly else 0) := by
    simp only [step, shiftIn, Bool.xor_false]
    split <;> simp
  rw [xor_step, shiftIn_eq, hb]
  ac_rfl

theorem steps_xor (n : Nat) (a b : BitVec w) : steps poly n (a ^^^ b) = steps poly n a ^^^ steps poly n b := by
  induction n generalizing a b with
  | zero => rfl
  | succ n ih => simp only [steps, step_xor, ih]

/-- A register whose low `n` bits are clear only moves down. -/
theorem steps_clear (n : Nat) (y : BitVec w) (h : ∀ i < n, y.getLsbD i = false) : steps poly n y = y >>> n := by
  induction n generalizing y with
  | zero => simp [steps]
  | succ n ih =>
    have hs : step poly y = y >>> 1 := by simp [step, shiftIn, h 0 (by omega)]
    rw [steps, hs, ih _ (fun i hi => by rw [BitVec.getLsbD_ushiftRight]; exact h _ (by omega)),
      ← BitVec.shiftRight_add, Nat.add_comm]

/-- One symbol's worth of shifts, from the remainder of the low symbol alone. -/
theorem steps_table (x : BitVec w) : steps poly v x = steps poly v ((x.setWidth v).setWidth w) ^^^ (x >>> v) := by
  have hsplit : x = (x.setWidth v).setWidth w ^^^ (x ^^^ (x.setWidth v).setWidth w) := by
    rw [BitVec.xor_comm x, ← BitVec.xor_assoc, BitVec.xor_self, BitVec.zero_xor]
  have hlow : ∀ i < v, (x ^^^ (x.setWidth v).setWidth w).getLsbD i = false := by
    intro i hi
    by_cases hw : i < w
    · simp [hi, hw]
    · simp [hi, hw, BitVec.getLsbD_of_ge x i (by omega)]
  have hhigh : (x ^^^ (x.setWidth v).setWidth w) >>> v = x >>> v := by
    apply BitVec.eq_of_getLsbD_eq
    intro i _
    simp [BitVec.getLsbD_setWidth]
  conv => lhs; rw [hsplit]
  rw [steps_xor, steps_clear poly v _ hlow, hhigh]

/-! ## Bits and symbols -/

theorem feedBits_append (c : BitVec w) (as bs : List Bool) :
    feedBits poly c (as ++ bs) = feedBits poly (feedBits poly c as) bs := List.foldl_append

theorem feed_append (c : BitVec w) (xs ys : List (BitVec v)) :
    feed poly c (xs ++ ys) = feed poly (feed poly c xs) ys := List.foldl_append

/-- Shifting out a register with `n` more bits added is feeding it these bits. -/
theorem steps_feed (n : Nat) (c x : BitVec w) (h : ∀ i, n ≤ i → x.getLsbD i = false) :
    steps poly n (c ^^^ x) = feedBits poly c ((List.range n).map x.getLsbD) := by
  induction n generalizing c x with
  | zero =>
    have : x = 0 := BitVec.eq_of_getLsbD_eq fun i _ => by simpa using h i (Nat.zero_le _)
    subst this
    simp [steps, feedBits]
  | succ n ih =>
    have hx : ∀ i, n ≤ i → (x >>> 1).getLsbD i = false := fun i hi => by
      rw [BitVec.getLsbD_ushiftRight]; exact h _ (by omega)
    have htail : (List.range n).map (x >>> 1).getLsbD = (List.range n).map (fun i => x.getLsbD (i + 1)) := by
      simp [BitVec.getLsbD_ushiftRight, Nat.add_comm]
    rw [steps, xor_step, ih _ _ hx, htail, List.range_succ_eq_map, List.map_cons, List.map_map]
    rfl

theorem absorb_bits (hv : v ≤ w) (c : BitVec w) (x : BitVec v) : absorb poly c x = feedBits poly c (bitsOf x) := by
  have hx : ∀ i, v ≤ i → (x.setWidth w).getLsbD i = false := fun i hi => by
    simp [BitVec.getLsbD_of_ge x i hi]
  rw [absorb, steps_feed poly v c _ hx]
  congr 1
  apply List.map_congr_left
  intro i hi
  have : i < w := Nat.lt_of_lt_of_le (List.mem_range.mp hi) hv
  simp [this]

theorem feed_bits (hv : v ≤ w) (c : BitVec w) (xs : List (BitVec v)) :
    feed poly c xs = feedBits poly c (xs.flatMap bitsOf) := by
  induction xs generalizing c with
  | nil => rfl
  | cons x xs ih =>
    rw [List.flatMap_cons, feedBits_append, ← absorb_bits poly hv, ← ih]
    rfl

theorem getLsbD_leWord (hv : 0 < v) (n : Nat) (xs : List (BitVec v)) (i : Nat) (hi : i < n) :
    (leWord n xs).getLsbD i = (xs.getD (i / v) 0).getLsbD (i % v) := by
  induction xs generalizing i with
  | nil => simp [leWord]
  | cons x xs ih =>
    simp only [leWord, BitVec.getLsbD_or, BitVec.getLsbD_setWidth, BitVec.getLsbD_shiftLeft, hi, decide_true,
      Bool.true_and]
    by_cases h : i < v
    · simp [h, Nat.div_eq_of_lt h, Nat.mod_eq_of_lt h]
    · have hdiv : i / v = (i - v) / v + 1 := by rw [Nat.div_eq_sub_div hv (by omega)]
      have hmod : i % v = (i - v) % v := Nat.mod_eq_sub_mod (by omega)
      rw [ih (i - v) (by omega), hdiv, hmod, BitVec.getLsbD_of_ge x i (by omega)]
      simp [h]

theorem leWord_high (n : Nat) (xs : List (BitVec v)) (i : Nat) (hi : v * xs.length ≤ i) :
    (leWord n xs).getLsbD i = false := by
  induction xs generalizing i with
  | nil => simp [leWord]
  | cons x xs ih =>
    simp only [List.length_cons, Nat.mul_succ] at hi
    simp only [leWord, BitVec.getLsbD_or, BitVec.getLsbD_setWidth, BitVec.getLsbD_shiftLeft,
      BitVec.getLsbD_of_ge x i (by omega), ih (i - v) (by omega), Bool.and_false, Bool.or_false]

theorem bits_leWord (hv : 0 < v) (n : Nat) (xs : List (BitVec v)) (h : v * xs.length ≤ n) :
    (List.range (v * xs.length)).map (leWord n xs).getLsbD = xs.flatMap bitsOf := by
  induction xs with
  | nil => simp
  | cons x xs ih =>
    simp only [List.length_cons, Nat.mul_succ] at h ⊢
    rw [Nat.add_comm, List.range_add, List.map_append, List.flatMap_cons, ← ih (by omega), List.map_map]
    congr 1
    · apply List.map_congr_left
      intro i hi
      have hi := List.mem_range.mp hi
      rw [getLsbD_leWord hv _ _ _ (by omega), Nat.div_eq_of_lt hi, Nat.mod_eq_of_lt hi]
      rfl
    · apply List.map_congr_left
      intro i hi
      have hi := List.mem_range.mp hi
      rw [Function.comp_apply, getLsbD_leWord hv _ _ _ (by omega), getLsbD_leWord hv _ _ _ (by omega),
        Nat.add_div_left i hv, Nat.add_mod_left]
      rfl

/-- The `n` low symbols of a word, least significant first. -/
def symbolsOf (n : Nat) (c : BitVec w) : List (BitVec v) := (List.range n).map fun j => (c >>> (v * j)).setWidth v

theorem leWord_symbolsOf (hv : 0 < v) (n : Nat) (hn : v * n = w) (c : BitVec w) :
    leWord w (symbolsOf n c : List (BitVec v)) = c := by
  apply BitVec.eq_of_getLsbD_eq
  intro i hi
  have hq : i / v < n := Nat.div_lt_of_lt_mul (by omega)
  have hr : i % v < v := Nat.mod_lt _ hv
  rw [getLsbD_leWord hv _ _ _ hi, symbolsOf, List.getD_eq_getElem?_getD, List.getElem?_map, List.getElem?_range hq]
  simp only [Option.map_some, Option.getD_some, BitVec.getLsbD_setWidth, hr, decide_true, Bool.true_and,
    BitVec.getLsbD_ushiftRight, Nat.div_add_mod]

theorem leWord_inj (hv : 0 < v) {xs ys : List (BitVec v)} (hlen : xs.length = ys.length) (hw : v * xs.length ≤ w)
    (h : leWord w xs = leWord w ys) : xs = ys := by
  apply List.ext_getElem hlen
  intro j h1 h2
  apply BitVec.eq_of_getLsbD_eq
  intro r hr
  have hlt : v * j + r < w := by
    have := Nat.mul_le_mul_left v (Nat.succ_le_of_lt h1)
    rw [Nat.mul_succ] at this
    omega
  have hb := congrArg (·.getLsbD (v * j + r)) h
  simp only [getLsbD_leWord hv _ _ _ hlt, Nat.mul_add_div hv, Nat.div_eq_of_lt hr, Nat.add_zero, Nat.mul_add_mod,
    Nat.mod_eq_of_lt hr, List.getD_eq_getElem?_getD, List.getElem?_eq_getElem h1, List.getElem?_eq_getElem h2,
    Option.getD_some] at hb
  exact hb

/-- Words with a common tail of symbols agree on their top bits. -/
theorem leWord_congr_top (hv : 0 < v) (k : Nat) {xs ys : List (BitVec v)} (h : ∀ j, k ≤ j → xs.getD j 0 = ys.getD j 0)
    (i : Nat) (hi : v * k ≤ i) : (leWord w xs).getLsbD i = (leWord w ys).getLsbD i := by
  by_cases hw : i < w
  · have hq : k ≤ i / v := (Nat.le_div_iff_mul_le hv).mpr (by rwa [Nat.mul_comm])
    rw [getLsbD_leWord hv _ _ _ hw, getLsbD_leWord hv _ _ _ hw, h _ hq]
  · rw [BitVec.getLsbD_of_ge _ _ (by omega), BitVec.getLsbD_of_ge _ _ (by omega)]

/-- A little-endian word absorbed in one go is its symbols fed in order. -/
theorem steps_leWord (c : BitVec w) (xs : List (BitVec v)) (h0 : 0 < v) (hv : v ≤ w) (h : v * xs.length ≤ w) :
    steps poly (v * xs.length) (c ^^^ leWord w xs) = feed poly c xs := by
  rw [steps_feed poly _ _ _ (leWord_high w xs), bits_leWord h0 w xs h, feed_bits poly hv]

/-! ## A wider register -/

theorem shiftIn_setWidth {m : Nat} (hw : 0 < w) (hm : w ≤ m) (c : BitVec w) (b : Bool) :
    shiftIn (poly.setWidth m) (c.setWidth m) b = (shiftIn poly c b).setWidth m := by
  have h0 : (c.setWidth m).getLsbD 0 = c.getLsbD 0 := by
    simp [Nat.lt_of_lt_of_le hw hm]
  have hs : (c.setWidth m) >>> 1 = (c >>> 1).setWidth m := by
    apply BitVec.eq_of_getLsbD_eq
    intro i hi
    by_cases h1 : 1 + i < m
    · simp [hi, h1]
    · simp [hi, h1, BitVec.getLsbD_of_ge c (1 + i) (by omega)]
  simp only [shiftIn, h0, hs]
  split
  · rw [BitVec.setWidth_xor]
  · rfl

theorem feedBits_setWidth {m : Nat} (hw : 0 < w) (hm : w ≤ m) (c : BitVec w) (bs : List Bool) :
    feedBits (poly.setWidth m) (c.setWidth m) bs = (feedBits poly c bs).setWidth m := by
  induction bs generalizing c with
  | nil => rfl
  | cons b bs ih =>
    simp only [feedBits, List.foldl_cons, shiftIn_setWidth poly hw hm]
    exact ih _

/-! ## A table of remainders -/

theorem steps_add (m n : Nat) (c : BitVec w) : steps poly (m + n) c = steps poly n (steps poly m c) := by
  induction m generalizing c with
  | zero => simp [steps]
  | succ m ih => rw [Nat.succ_add, steps, ih, steps]

theorem feed_xor (c e : BitVec w) (xs : List (BitVec v)) :
    feed poly (c ^^^ e) xs = feed poly c xs ^^^ steps poly (v * xs.length) e := by
  induction xs generalizing c e with
  | nil => rfl
  | cons x xs ih =>
    have habs : absorb poly (c ^^^ e) x = absorb poly c x ^^^ steps poly v e := by
      rw [absorb, absorb, ← steps_xor]
      congr 1
      ac_rfl
    show feed poly (absorb poly (c ^^^ e) x) xs = feed poly (absorb poly c x) xs ^^^ _
    rw [habs, ih, ← steps_add, List.length_cons, Nat.mul_succ, Nat.add_comm]

section Table

variable (T : BitVec v → BitVec w)

/-- One symbol by table: the entry of the low symbol and the rest moved down. -/
def tableStep (c : BitVec w) (x : BitVec v) : BitVec w := T (c.setWidth v ^^^ x) ^^^ (c >>> v)

def tableFeed (c : BitVec w) (xs : List (BitVec v)) : BitVec w := xs.foldl (tableStep T) c

theorem tableFeed_append (c : BitVec w) (xs ys : List (BitVec v)) :
    tableFeed T c (xs ++ ys) = tableFeed T (tableFeed T c xs) ys := List.foldl_append

variable (E : BitVec v → BitVec w)

/-- What the errors `E` of the entries looked up along `xs` leave at its end: each one
    is shifted by the symbols that follow it. -/
def drift : BitVec w → List (BitVec v) → BitVec w
  | _, [] => 0
  | c, x :: xs =>
    let e := E (c.setWidth v ^^^ x)
    steps poly (v * xs.length) e ^^^ drift (absorb poly c x ^^^ e) xs

variable {T E}

theorem tableStep_eq (hvw : v ≤ w) (hT : ∀ i, T i = steps poly v (i.setWidth w) ^^^ E i) (c : BitVec w) (x : BitVec v) :
    tableStep T c x = absorb poly c x ^^^ E (c.setWidth v ^^^ x) := by
  have hlow : (c ^^^ x.setWidth w).setWidth v = c.setWidth v ^^^ x := by
    rw [BitVec.setWidth_xor, BitVec.setWidth_setWidth_of_le x hvw, BitVec.setWidth_eq]
  have hhigh : (c ^^^ x.setWidth w) >>> v = c >>> v := by
    apply BitVec.eq_of_getLsbD_eq
    intro i _
    simp
  rw [absorb, steps_table, hlow, hhigh, tableStep, hT]
  ac_rfl

/-- A table with errors is the register fed directly, and the drift of its errors. -/
theorem tableFeed_eq (hvw : v ≤ w) (hT : ∀ i, T i = steps poly v (i.setWidth w) ^^^ E i) (c : BitVec w)
    (xs : List (BitVec v)) : tableFeed T c xs = feed poly c xs ^^^ drift poly E c xs := by
  induction xs generalizing c with
  | nil => simp [tableFeed, feed, drift]
  | cons x xs ih =>
    have hs := tableStep_eq poly hvw hT c x
    calc tableFeed T c (x :: xs) = tableFeed T (tableStep T c x) xs := rfl
      _ = feed poly (absorb poly c x ^^^ E (c.setWidth v ^^^ x)) xs ^^^
            drift poly E (absorb poly c x ^^^ E (c.setWidth v ^^^ x)) xs := by rw [hs, ih]
      _ = feed poly c (x :: xs) ^^^ drift poly E c (x :: xs) := by
        rw [feed_xor, BitVec.xor_assoc]
        rfl

/-- No prefix goes wrong exactly when no lookup along `xs` meets an entry in error. -/
theorem tableFeed_prefixes (hvw : v ≤ w) (hT : ∀ i, T i = steps poly v (i.setWidth w) ^^^ E i) (c : BitVec w)
    (xs : List (BitVec v)) :
    (∀ p, p <+: xs → tableFeed T c p = feed poly c p) ↔
      ∀ p x, p ++ [x] <+: xs → E ((feed poly c p).setWidth v ^^^ x) = 0 := by
  have hstep : ∀ p x, tableFeed T c p = feed poly c p →
      (tableFeed T c (p ++ [x]) = feed poly c (p ++ [x]) ↔ E ((feed poly c p).setWidth v ^^^ x) = 0) := by
    intro p x hp
    rw [tableFeed_append, feed_append, hp]
    show tableStep T (feed poly c p) x = absorb poly (feed poly c p) x ↔ _
    rw [tableStep_eq poly hvw hT]
    constructor
    · intro h
      exact (BitVec.xor_right_inj _).mp (h.trans (BitVec.xor_zero).symm)
    · intro h
      rw [h]
      exact BitVec.xor_zero
  constructor
  · intro h p x hpx
    exact (hstep p x (h p ((List.prefix_append p [x]).trans hpx))).mp (h _ hpx)
  · intro h p hp
    induction p using List.reverseRecOn with
    | nil => rfl
    | append_singleton p x ih =>
      exact (hstep p x (ih ((List.prefix_append p [x]).trans hp))).mpr (h p x hp)

/-! ## Reading a table register back -/

/-- The top symbol of an entry names its index. -/
def TopInjective (T : BitVec v → BitVec w) : Prop :=
  ∀ i j, (∀ n, w - v ≤ n → n < w → (T i).getLsbD n = (T j).getLsbD n) → i = j

/-- Two registers agree on their top `n` bits. -/
def AgreeTop (n : Nat) (c d : BitVec w) : Prop := ∀ i, w - n ≤ i → i < w → c.getLsbD i = d.getLsbD i

theorem AgreeTop.eq {c d : BitVec w} (h : AgreeTop w c d) : c = d :=
  BitVec.eq_of_getLsbD_eq fun i hi => h i (by omega) hi

/-- A step's top bits give its index, and the register before it but for the low
    symbol. -/
theorem tableStep_back (hT : TopInjective T) (n : Nat) (hn : n + v ≤ w) {c d : BitVec w} {x y : BitVec v}
    (h : AgreeTop (n + v) (tableStep T c x) (tableStep T d y)) :
    c.setWidth v ^^^ x = d.setWidth v ^^^ y ∧ AgreeTop n c d := by
  have hbit : ∀ i, w - (n + v) ≤ i → i < w →
      ((T (c.setWidth v ^^^ x)).getLsbD i ^^ c.getLsbD (v + i)) =
        ((T (d.setWidth v ^^^ y)).getLsbD i ^^ d.getLsbD (v + i)) := by
    intro i h1 h2
    have := h i h1 h2
    simpa [tableStep] using this
  have hidx : c.setWidth v ^^^ x = d.setWidth v ^^^ y := by
    apply hT
    intro i h1 h2
    have := hbit i (by omega) h2
    rwa [BitVec.getLsbD_of_ge c _ (by omega), BitVec.getLsbD_of_ge d _ (by omega), Bool.xor_false,
      Bool.xor_false] at this
  refine ⟨hidx, fun i h1 h2 => ?_⟩
  have := hbit (i - v) (by omega) (by omega)
  rw [hidx, show v + (i - v) = i by omega] at this
  exact Bool.xor_right_inj.mp this

theorem tableFeed_injective (hT : TopInjective T) (hvw : v ≤ w) (xs : List (BitVec v)) :
    Function.Injective (fun c => tableFeed T c xs) := by
  induction xs with
  | nil => exact fun _ _ h => h
  | cons x xs ih =>
    intro c d h
    have hs : tableStep T c x = tableStep T d x := ih h
    obtain ⟨hidx, hhigh⟩ := tableStep_back hT (w - v) (by omega) (c := c) (d := d) (x := x) (y := x)
      (by rw [hs]; exact fun _ _ _ => rfl)
    have hlow : c.setWidth v = d.setWidth v := (BitVec.xor_left_inj x).mp hidx
    apply BitVec.eq_of_getLsbD_eq
    intro i hi
    by_cases h1 : i < v
    · have := congrArg (·.getLsbD i) hlow
      simpa [h1] using this
    · exact hhigh i (by omega) hi

/-- Symbols fed to one register are read back from as many bits at its top. -/
theorem tableFeed_inj_top (hT : TopInjective T) (c : BitVec w) {xs ys : List (BitVec v)} (hlen : xs.length = ys.length)
    (hw : v * xs.length ≤ w) (h : AgreeTop (v * xs.length) (tableFeed T c xs) (tableFeed T c ys)) : xs = ys := by
  induction xs using List.reverseRecOn generalizing ys with
  | nil => exact (List.length_eq_zero_iff.mp hlen.symm).symm
  | append_singleton xs x ih =>
    obtain ⟨ys, y, rfl⟩ : ∃ ys' y, ys = ys' ++ [y] := by
      rcases List.eq_nil_or_concat ys with rfl | ⟨ys', y, rfl⟩
      · simp at hlen
      · exact ⟨ys', y, by simp⟩
    simp only [List.length_append, List.length_singleton, Nat.mul_succ, Nat.add_right_cancel_iff] at hlen hw h
    rw [tableFeed_append, tableFeed_append] at h
    obtain ⟨hidx, hrest⟩ := tableStep_back hT _ hw h
    obtain rfl := ih hlen (by omega) hrest
    rw [(BitVec.xor_right_inj _).mp hidx]

end Table

end KanekFoundations.Lib.ShiftRegister

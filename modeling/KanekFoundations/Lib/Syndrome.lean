/-
  KanekFoundations.Lib.Syndrome — what a shift register tells of an error pattern.

  The register is linear in what it holds and in what it is fed, so two inputs of one
  length leave it the same exactly when their difference, fed to an empty register, leaves
  it empty: the syndrome of the difference.

  Proved, for a register whose feedback word has its top bit:
  - `syndrome_burst`: no pattern within `w` consecutive bits leaves the register empty;
  - `syndrome_two`: two bits do exactly when their distance is a period of the feedback word.

  One whose feedback word has an odd number of bits counts what it is fed modulo two
  (`parity_feed`), in whatever order it comes.

  A period is found by squaring the columns of a step (`squares_columns`): `2 ^ n` steps in
  `n` squarings.
-/

import KanekFoundations.Lib.ShiftRegister
import Mathlib

namespace KanekFoundations.Lib.ShiftRegister

variable {w : Nat} (poly : BitVec w)

/-! ## Linearity -/

theorem shiftIn_xor (c d : BitVec w) (x y : Bool) :
    shiftIn poly (c ^^^ d) (x ^^ y) = shiftIn poly c x ^^^ shiftIn poly d y := by
  rw [shiftIn_eq, shiftIn_eq poly c, shiftIn_eq poly d, step_xor]
  cases x <;> cases y <;> simp
  · ac_rfl
  · ac_rfl
  · rw [show step poly c ^^^ poly ^^^ (step poly d ^^^ poly) = step poly c ^^^ step poly d ^^^
      (poly ^^^ poly) by ac_rfl]
    simp

theorem feedBits_xor (c d : BitVec w) {xs ys : List Bool} (hlen : xs.length = ys.length) :
    feedBits poly (c ^^^ d) (List.zipWith (· ^^ ·) xs ys) = feedBits poly c xs ^^^ feedBits poly d ys := by
  induction xs generalizing c d ys with
  | nil =>
    cases ys with
    | nil => rfl
    | cons y ys => cases hlen
  | cons x xs ih =>
    cases ys with
    | nil => cases hlen
    | cons y ys =>
      show feedBits poly (shiftIn poly (c ^^^ d) (x ^^ y)) (List.zipWith (· ^^ ·) xs ys) = _
      rw [shiftIn_xor, ih _ _ (Nat.succ.inj hlen)]
      rfl

theorem feedBits_false (c : BitVec w) (n : Nat) : feedBits poly c (List.replicate n false) = steps poly n c := by
  induction n generalizing c with
  | zero => rfl
  | succ n ih => exact ih _

theorem steps_zero (n : Nat) : steps poly n 0 = 0 := by
  have h := steps_xor poly n 0 0
  rwa [BitVec.xor_self, BitVec.xor_self] at h

theorem steps_eq_iterate (n : Nat) (c : BitVec w) : steps poly n c = (step poly)^[n] c := by
  induction n generalizing c with
  | zero => rfl
  | succ n ih => exact ih _

section Injective
variable {poly} (htop : poly.getLsbD (w - 1) = true)
include htop

theorem step_eq_zero {c : BitVec w} (h : step poly c = 0) : c = 0 := by
  have hw : 0 < w := by
    by_contra h0
    rw [BitVec.getLsbD_of_ge _ _ (by omega)] at htop
    cases htop
  have hbits : ∀ i, (step poly c).getLsbD i = false := by simp [h]
  have hlow : c.getLsbD 0 = false := by
    -- Otherwise the top bit of the feedback word is left.
    by_contra hc
    have htop' := hbits (w - 1)
    rw [step, shiftIn, if_pos (by simpa using hc), BitVec.getLsbD_xor, htop, BitVec.getLsbD_ushiftRight,
      BitVec.getLsbD_of_ge _ _ (by omega)] at htop'
    cases htop'
  refine BitVec.eq_of_getLsbD_eq fun i hi => ?_
  cases i with
  | zero => simpa using hlow
  | succ i =>
    have hi := hbits i
    rw [step, shiftIn, if_neg (by simp [hlow]), BitVec.getLsbD_ushiftRight, Nat.add_comm] at hi
    simpa using hi

theorem step_injective : Function.Injective (step poly) := by
  intro c d h
  have hzero : step poly (c ^^^ d) = 0 := by
    rw [step_xor, h]
    exact BitVec.xor_self
  exact BitVec.xor_eq_zero_iff.mp (step_eq_zero htop hzero)

theorem steps_injective (n : Nat) : Function.Injective (steps poly n) := by
  have h := (step_injective htop).iterate n
  intro c d heq
  rw [steps_eq_iterate, steps_eq_iterate] at heq
  exact h heq

theorem steps_ne_zero (n : Nat) {c : BitVec w} (h : c ≠ 0) : steps poly n c ≠ 0 := by
  intro heq
  rw [← steps_zero poly n] at heq
  exact h (steps_injective htop n heq)

/-! ## Bursts -/

theorem syndrome_burst (m n : Nat) {es : List Bool} (hlen : es.length ≤ w) (he : true ∈ es) :
    feedBits poly 0 (List.replicate m false ++ (es ++ List.replicate n false)) ≠ 0 := by
  rw [feedBits_append, feedBits_append, feedBits_false, feedBits_false, steps_zero]
  refine steps_ne_zero htop n ?_
  -- The pattern is a word, added to the register and shifted out.
  have hget : ∀ i, ((BitVec.ofBoolListLE es).setWidth w).getLsbD i = es.getD i false := by
    intro i
    by_cases hi : i < w
    · simp [hi, BitVec.getLsbD_ofBoolListLE]
    · rw [BitVec.getLsbD_of_ge _ _ (by omega), List.getD_eq_default _ _ (by omega)]
  have hfeed : feedBits poly 0 es = steps poly es.length ((BitVec.ofBoolListLE es).setWidth w) := by
    have h := steps_feed poly es.length 0 ((BitVec.ofBoolListLE es).setWidth w) fun i hi => by
      rw [hget, List.getD_eq_default _ _ hi]
    rw [show 0 ^^^ (BitVec.ofBoolListLE es).setWidth w = (BitVec.ofBoolListLE es).setWidth w from BitVec.zero_xor] at h
    rw [h]
    congr 1
    refine List.ext_getElem (by simp) fun i h1 h2 => ?_
    rw [List.getElem_map, List.getElem_range, hget, List.getD_eq_getElem _ _ h1]
  rw [hfeed]
  refine steps_ne_zero htop _ fun hzero => ?_
  obtain ⟨i, hi, htrue⟩ := List.getElem_of_mem he
  have hbit := hget i
  rw [hzero, List.getD_eq_getElem _ _ hi, htrue] at hbit
  simp at hbit

end Injective

/-! ## Parity -/

def parityOf (bs : List Bool) : Bool := bs.foldr (· ^^ ·) false

def parity (c : BitVec w) : Bool := parityOf (bitsOf c)

theorem parityOf_zipWith {xs ys : List Bool} (hlen : xs.length = ys.length) :
    parityOf (List.zipWith (· ^^ ·) xs ys) = (parityOf xs ^^ parityOf ys) := by
  induction xs generalizing ys with
  | nil =>
    cases ys with
    | nil => rfl
    | cons y ys => cases hlen
  | cons x xs ih =>
    cases ys with
    | nil => cases hlen
    | cons y ys =>
      show ((x ^^ y) ^^ parityOf (List.zipWith (· ^^ ·) xs ys)) = ((x ^^ parityOf xs) ^^ (y ^^ parityOf ys))
      rw [ih (Nat.succ.inj hlen)]
      cases x <;> cases y <;> simp

theorem parityOf_count (bs : List Bool) : parityOf bs = decide (bs.count true % 2 = 1) := by
  induction bs with
  | nil => rfl
  | cons b bs ih =>
    show (b ^^ parityOf bs) = _
    rw [ih]
    cases b with
    | false => simp
    | true =>
      rw [List.count_cons_self, Bool.true_xor, ← decide_not]
      exact decide_eq_decide.mpr (by omega)

theorem parityOf_append (xs ys : List Bool) : parityOf (xs ++ ys) = (parityOf xs ^^ parityOf ys) := by
  induction xs with
  | nil => exact (Bool.false_xor _).symm
  | cons x xs ih =>
    show (x ^^ parityOf (xs ++ ys)) = ((x ^^ parityOf xs) ^^ parityOf ys)
    rw [ih, Bool.xor_assoc]

theorem parityOf_perm {xs ys : List Bool} (h : xs.Perm ys) : parityOf xs = parityOf ys := by
  rw [parityOf_count, parityOf_count, h.count_eq]

theorem parity_xor (c d : BitVec w) : parity (c ^^^ d) = (parity c ^^ parity d) := by
  have hbits : bitsOf (c ^^^ d) = List.zipWith (· ^^ ·) (bitsOf c) (bitsOf d) := by
    simp [bitsOf, List.zipWith_map, List.zipWith_self]
  rw [parity, hbits, parityOf_zipWith (by simp [bitsOf])]
  rfl

/-- Moving the register down drops its low bit. -/
theorem parity_ushiftRight (c : BitVec w) : parity (c >>> 1) = (parity c ^^ c.getLsbD 0) := by
  cases w with
  | zero => simp [parity, bitsOf, parityOf]
  | succ w =>
    have hlow : parity c = (c.getLsbD 0 ^^ parityOf ((List.range w).map fun i => c.getLsbD (i + 1))) := by
      rw [parity, bitsOf, List.range_succ_eq_map, List.map_cons, List.map_map]
      rfl
    have hshift : parity (c >>> 1) = parityOf (((List.range w).map fun i => c.getLsbD (i + 1)) ++ [false]) := by
      have htop : (c >>> 1).getLsbD w = false := by
        rw [BitVec.getLsbD_ushiftRight, BitVec.getLsbD_of_ge _ _ (by omega)]
      have hmove : (List.range w).map (c >>> 1).getLsbD = (List.range w).map fun i => c.getLsbD (i + 1) :=
        List.map_congr_left fun i _ => (BitVec.getLsbD_ushiftRight ..).trans (congrArg c.getLsbD (Nat.add_comm 1 i))
      rw [parity, bitsOf, List.range_succ, List.map_append, List.map_singleton, htop, hmove]
    have hend : ∀ bs : List Bool, parityOf (bs ++ [false]) = parityOf bs := fun bs => by simp [parityOf]
    rw [hshift, hend, hlow]
    cases c.getLsbD 0 <;> simp

section Odd
variable {poly} (hodd : parity poly = true)
include hodd

/-- Such a register counts the bits it is fed, modulo two. -/
theorem parity_shiftIn (c : BitVec w) (b : Bool) : parity (shiftIn poly c b) = (parity c ^^ b) := by
  unfold shiftIn
  split <;> rename_i h
  · rw [parity_xor, hodd, parity_ushiftRight]
    cases hc : c.getLsbD 0 <;> simp_all
  · rw [parity_ushiftRight]
    cases hc : c.getLsbD 0 <;> simp_all

theorem parity_feedBits (c : BitVec w) (bs : List Bool) : parity (feedBits poly c bs) = (parity c ^^ parityOf bs) := by
  induction bs generalizing c with
  | nil => simp [feedBits, parityOf]
  | cons b bs ih =>
    show parity (feedBits poly (shiftIn poly c b) bs) = (parity c ^^ (b ^^ parityOf bs))
    rw [ih, parity_shiftIn hodd, Bool.xor_assoc]

theorem parity_feed {v : Nat} (hv : v ≤ w) (c : BitVec w) (xs : List (BitVec v)) :
    parity (feed poly c xs) = (parity c ^^ parityOf (xs.flatMap bitsOf)) := by
  rw [feed_bits poly hv, parity_feedBits hodd]

end Odd

/-! ## Two bits -/

theorem syndrome_two (htop : poly.getLsbD (w - 1) = true) (m d n : Nat) :
    feedBits poly 0 (List.replicate m false ++ true :: (List.replicate d false ++ true :: List.replicate n false)) = 0 ↔
      steps poly (d + 1) poly = poly := by
  have hone : shiftIn poly 0 true = poly := by simp [shiftIn]
  have hrun :
    feedBits poly 0 (List.replicate m false ++ true :: (List.replicate d false ++ true :: List.replicate n false)) =
      steps poly n (steps poly (d + 1) poly ^^^ poly) := by
    rw [feedBits_append, feedBits_false, steps_zero]
    show feedBits poly (shiftIn poly 0 true) (List.replicate d false ++ true :: List.replicate n false) = _
    rw [hone, feedBits_append, feedBits_false]
    show feedBits poly (shiftIn poly (steps poly d poly) true) (List.replicate n false) = _
    rw [feedBits_false, shiftIn_eq, if_pos rfl, steps_add]
    rfl
  rw [hrun]
  refine ⟨fun h => ?_, fun h => ?_⟩
  · by_contra hne
    exact steps_ne_zero htop n (fun hxor => hne (BitVec.xor_eq_zero_iff.mp hxor)) h
  · rw [h, BitVec.xor_self]
    exact steps_zero poly n

/-- A prime period is the shortest one. -/
theorem steps_period {p : Nat} (hp : p.Prime) {c : BitVec w} (hper : steps poly p c = c)
    (hne : step poly c ≠ c) (n : Nat) :
    steps poly n c = c ↔ p ∣ n := by
  have : Fact p.Prime := ⟨hp⟩
  rw [steps_eq_iterate] at hper ⊢
  rw [← Function.minimalPeriod_eq_prime hper hne]
  exact Function.isPeriodicPt_iff_minimalPeriod_dvd

/-! ## Squaring -/

/-- A linear map by its values at single bits, from bit `i` on. -/
def applyColumns : List (BitVec w) → Nat → BitVec w → BitVec w
  | [], _, _ => 0
  | m :: ms, i, x => (if x.getLsbD i then m else 0) ^^^ applyColumns ms (i + 1) x

def columns (f : BitVec w → BitVec w) : List (BitVec w) := (List.range w).map fun i => f (BitVec.twoPow w i)

def squares : Nat → List (BitVec w) → List (BitVec w)
  | 0, ms => ms
  | n + 1, ms => squares n (ms.map (applyColumns ms 0))

theorem getLsbD_clearLow (x : BitVec w) (i k : Nat) :
    ((x >>> i) <<< i).getLsbD k = (decide (i ≤ k) && x.getLsbD k) := by
  rw [BitVec.getLsbD_shiftLeft, BitVec.getLsbD_ushiftRight]
  by_cases hik : i ≤ k
  · rw [Nat.add_sub_cancel' hik]
    by_cases hk : k < w
    · simp [hk, hik]
    · simp [BitVec.getLsbD_of_ge x k (by omega)]
  · simp [hik, show k < i by omega]

section Linear
variable {f : BitVec w → BitVec w} (hf : ∀ a b, f (a ^^^ b) = f a ^^^ f b)
include hf

/-- The columns from bit `i` on see the bits from `i` on. -/
theorem applyColumns_range (n i : Nat) (hn : i + n = w) (x : BitVec w) :
    applyColumns ((List.range' i n).map fun i => f (BitVec.twoPow w i)) i x = f ((x >>> i) <<< i) := by
  have hzero : f 0 = 0 := by
    have h := hf 0 0
    rwa [BitVec.xor_self, BitVec.xor_self] at h
  induction n generalizing i with
  | zero =>
    have hx : (x >>> i) <<< i = 0 := BitVec.eq_of_getLsbD_eq fun k hk => by simp [show k < i by omega]
    rw [hx, hzero]
    rfl
  | succ n ih =>
    have hsplit : (x >>> i) <<< i = (if x.getLsbD i then BitVec.twoPow w i else 0) ^^^ (x >>> (i + 1)) <<< (i + 1) := by
      refine BitVec.eq_of_getLsbD_eq fun k hk => ?_
      have hbit : (if x.getLsbD i then BitVec.twoPow w i else 0).getLsbD k = (x.getLsbD i && decide (i = k)) := by
        cases x.getLsbD i <;> simp [BitVec.getLsbD_twoPow, show i < w by omega]
      rw [BitVec.getLsbD_xor, getLsbD_clearLow, getLsbD_clearLow, hbit]
      rcases Nat.lt_trichotomy k i with hlt | rfl | hgt
      · simp [show ¬ i ≤ k by omega, show ¬ i + 1 ≤ k by omega, show i ≠ k by omega]
      · simp
      · simp [show i ≤ k by omega, show i + 1 ≤ k by omega, show i ≠ k by omega]
    rw [List.range'_succ, List.map_cons, hsplit, hf, ← ih (i + 1) (by omega)]
    show (if x.getLsbD i then f (BitVec.twoPow w i) else 0) ^^^ _ = _
    cases x.getLsbD i with
    | false => rw [if_neg (by decide), if_neg (by decide), hzero]
    | true => rw [if_pos rfl, if_pos rfl]

theorem applyColumns_columns (x : BitVec w) : applyColumns (columns f) 0 x = f x := by
  have h := applyColumns_range hf w 0 (by omega) x
  rw [← List.range_eq_range'] at h
  simpa [columns] using h

theorem squares_columns (n : Nat) : squares n (columns f) = columns f^[2 ^ n] := by
  induction n generalizing f with
  | zero => rfl
  | succ n ih =>
    have hsquare : (columns f).map (applyColumns (columns f) 0) = columns (f ∘ f) := by
      simp only [columns, List.map_map]
      refine List.map_congr_left fun i _ => ?_
      exact applyColumns_columns hf _
    have hlin : ∀ a b, (f ∘ f) (a ^^^ b) = (f ∘ f) a ^^^ (f ∘ f) b := fun a b => by simp [hf]
    show squares n ((columns f).map (applyColumns (columns f) 0)) = _
    rw [hsquare, ih hlin, Nat.pow_succ, Nat.mul_comm, Function.iterate_mul]
    rfl

end Linear

theorem steps_squares (n : Nat) (c : BitVec w) :
    steps poly (2 ^ n) c = applyColumns (squares n (columns (step poly))) 0 c := by
  have hlin : ∀ a b, (step poly)^[2 ^ n] (a ^^^ b) = (step poly)^[2 ^ n] a ^^^ (step poly)^[2 ^ n] b := fun a b => by
    rw [← steps_eq_iterate, ← steps_eq_iterate, ← steps_eq_iterate, steps_xor]
  rw [squares_columns (step_xor poly), applyColumns_columns hlin, steps_eq_iterate]

end KanekFoundations.Lib.ShiftRegister

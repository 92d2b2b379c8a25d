/-
  KanekFoundations.Map.SetProofs — `bm_set_extent` against `bm_set_bit` and `bm_get_bit`.

  Proved: a call on an extent inside the map sets the bits of the extent, one after the other
  in any order, and one on any other extent is refused, exactly when the address is past the
  end or the sum of address and length does not wrap (`set_extent_iff`).
-/

import KanekFoundations.Map.RangeProofs

namespace KanekFoundations.Map

open KanekFoundations.Lib

/-- Memories with the same bits are the same. -/
theorem mem_ext {bm bm' : Mem} (h : ∀ i, bitAt bm' i = bitAt bm i) : bm' = bm := by
  funext loc
  refine BitVec.eq_of_getLsbD_eq fun j hj => ?_
  rw [← bitAt_byte bm' loc hj, ← bitAt_byte bm loc hj]
  exact h _

/-- The calls of `bm_set_bit`, in this order. -/
def setBits (bm : Mem) (totalBits : Nat) (clearOrSet : Int) (order : List Nat) : Mem :=
  order.foldl (fun bm i => (bmSetBit bm totalBits i clearOrSet).bm) bm

theorem bmSetBit_written (bm : Mem) {totalBits i : Nat} (clearOrSet : Int) (hi : i < totalBits) :
    Written bm (bmSetBit bm totalBits i clearOrSet).bm i 1 (flagBit clearOrSet) := by
  have hpos : i / 8 * 8 + i % 8 = i := by omega
  have hstore := store_written bm (i / 8) (i % 8) 1 clearOrSet (by decide) (by omega)
  rw [hpos] at hstore
  rw [bmSetBit, if_neg (Nat.not_le_of_lt hi)]
  exact hstore

theorem setBits_bit (bm : Mem) {totalBits : Nat} (clearOrSet : Int) (order : List Nat) (h : ∀ i ∈ order, i < totalBits)
    (i : Nat) :
    bitAt (setBits bm totalBits clearOrSet order) i = if i ∈ order then flagBit clearOrSet else bitAt bm i := by
  induction order generalizing bm with
  | nil => simp [setBits]
  | cons j order ih =>
    have hj := bmSetBit_written bm clearOrSet (h j (List.mem_cons_self ..)) i
    have hrest := ih (bmSetBit bm totalBits j clearOrSet).bm fun k hk => h k (List.mem_cons_of_mem _ hk)
    have hunfold : setBits bm totalBits clearOrSet (j :: order) =
        setBits (bmSetBit bm totalBits j clearOrSet).bm totalBits clearOrSet order :=
      rfl
    rw [hunfold, hrest, hj]
    by_cases hij : i = j
    · subst hij
      simp
    · have hout : ¬ (j ≤ i ∧ i < j + 1) := by omega
      rw [if_neg hout]
      simp [hij]

/-- A byte with no bit of the extent is as it was. -/
theorem Written.byte {bm bm' : Mem} {a n : Nat} {b : Bool} (h : Written bm bm' a n b) {loc : Nat}
    (hloc : loc < a / 8 ∨ a + n ≤ loc * 8) : bm' loc = bm loc := by
  refine BitVec.eq_of_getLsbD_eq fun j hj => ?_
  rw [← bitAt_byte bm' loc hj, ← bitAt_byte bm loc hj, h, if_neg]
  omega

/-- What the call does, for an extent inside the map and for any other. -/
structure SetsExtent (bm : Mem) (totalBits a n : Nat) (clearOrSet : Int) : Prop where
  code : a < totalBits → a + n ≤ totalBits → (bmSetExtent bm totalBits a n clearOrSet).rc = 0
  bits : a < totalBits → a + n ≤ totalBits → ∀ i, a ≤ i → i < a + n →
    bmGetBit (bmSetExtent bm totalBits a n clearOrSet).bm totalBits i = clearOrSet
  others : a < totalBits → a + n ≤ totalBits → ∀ i, i < a ∨ a + n ≤ i →
    bitAt (bmSetExtent bm totalBits a n clearOrSet).bm i = bitAt bm i
  bytes : a < totalBits → a + n ≤ totalBits → ∀ loc, loc < a / 8 ∨ a + n ≤ loc * 8 →
    (bmSetExtent bm totalBits a n clearOrSet).bm loc = bm loc
  oneByOne : a < totalBits → a + n ≤ totalBits → ∀ order : List Nat, order.Perm (List.range' a n) →
    (bmSetExtent bm totalBits a n clearOrSet).bm = setBits bm totalBits clearOrSet order
  refused : totalBits ≤ a ∨ totalBits < a + n →
    (bmSetExtent bm totalBits a n clearOrSet).rc = -1 ∧ (bmSetExtent bm totalBits a n clearOrSet).bm = bm

section
variable (bm : Mem) {totalBits a n : Nat} {clearOrSet : Int}

/-- The flag is what `bm_get_bit` answers for its bit. -/
theorem flagBit_code (hf : clearOrSet = CLEARBIT ∨ clearOrSet = SETBIT) :
    (if flagBit clearOrSet then 1 else 0) = clearOrSet := by
  rcases hf with rfl | rfl <;> rfl

theorem sets_extent (ht : totalBits < 2 ^ 64) (hf : clearOrSet = CLEARBIT ∨ clearOrSet = SETBIT)
    (h : totalBits ≤ a ∨ a + n < 2 ^ 64) : SetsExtent bm totalBits a n clearOrSet := by
  have hwritten : a < totalBits → a + n ≤ totalBits →
      Written bm (bmSetExtent bm totalBits a n clearOrSet).bm a n (flagBit clearOrSet) :=
    fun h1 h2 => bmSetExtent_written bm clearOrSet h1 h2 ht hf
  refine ⟨fun h1 h2 => ?_, fun h1 h2 i hi hin => ?_, fun h1 h2 i hi => ?_, fun h1 h2 loc hloc => ?_,
    fun h1 h2 order horder => ?_,
    fun hout => ?_⟩
  · refine bmSetExtent_accepted bm clearOrSet ?_
    rw [u64_of_lt (by omega)]
    omega
  · have hbit := hwritten h1 h2 i
    rw [if_pos ⟨hi, hin⟩] at hbit
    rw [bmGetBit_eq _ (by omega), hbit]
    exact flagBit_code hf
  · rw [hwritten h1 h2 i, if_neg (by omega)]
  · exact (hwritten h1 h2).byte hloc
  · have hmem : ∀ i, i ∈ order ↔ a ≤ i ∧ i < a + n := fun i => by rw [horder.mem_iff, List.mem_range'_1]
    refine mem_ext fun i => ?_
    rw [hwritten h1 h2 i, setBits_bit bm clearOrSet order (fun i hi => by have := (hmem i).mp hi; omega) i]
    simp only [hmem i]
  · rw [bmSetExtent_refused bm clearOrSet]
    · exact ⟨rfl, rfl⟩
    · by_cases ha : totalBits ≤ a
      · exact .inl ha
      · rw [u64_of_lt (by omega)]
        omega

/-- The call does so exactly when the address is past the end or the sum does not wrap. -/
theorem set_extent_iff (ht : totalBits < 2 ^ 64) (ha : a < 2 ^ 64) (hn : n < 2 ^ 64)
    (hf : clearOrSet = CLEARBIT ∨ clearOrSet = SETBIT) :
    SetsExtent bm totalBits a n clearOrSet ↔ totalBits ≤ a ∨ a + n < 2 ^ 64 := by
  constructor
  · intro h
    by_contra hno
    -- The wrapped sum is below the address, so the call is accepted.
    have hwrap : u64 (a + n) = a + n - 2 ^ 64 := u64_wrap (by omega) (by omega)
    have hacc : (bmSetExtent bm totalBits a n clearOrSet).rc = 0 :=
      bmSetExtent_accepted bm clearOrSet (by rw [hwrap]; omega)
    rw [(h.refused (by omega)).1] at hacc
    exact absurd hacc (by decide)
  · exact sets_extent bm ht hf

end

/-- Eleven bits across three bytes. -/
theorem set_extent_iff_three : SetsExtent (fun _ => 0x5a) 24 6 11 SETBIT ↔ 24 ≤ 6 ∨ 6 + 11 < 2 ^ 64 :=
  set_extent_iff (fun _ => 0x5a) (by decide) (by decide) (by decide) (.inr rfl)

/-- A length of 2^64 - 9 from bit 9 of a map of two bytes is out of range, and is answered with 0. -/
theorem set_extent_out_of_range :
    (16 < 9 + (2 ^ 64 - 9)) ∧ (bmSetExtent (fun _ => 0) 16 9 (2 ^ 64 - 9) SETBIT).rc = 0 ∧
      ¬ SetsExtent (fun _ => 0) 16 9 (2 ^ 64 - 9) SETBIT := by
  have hrc : (bmSetExtent (fun _ => 0) 16 9 (2 ^ 64 - 9) SETBIT).rc = 0 := by decide
  refine ⟨by decide, hrc, fun h => ?_⟩
  rw [(h.refused (.inr (by decide))).1] at hrc
  exact absurd hrc (by decide)

end KanekFoundations.Map

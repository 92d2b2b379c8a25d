/-
  KanekFoundations.Map.RangeProofs — the range checks of the extent functions over the
  whole of `uint64_t`.

  `bit_address + length` is computed modulo 2^64, so a sum that wraps passes the check.
  Proved: on a given input the functions refuse what is out of range and keep to the
  bytes of the map exactly when the address is past the end or the sum does not wrap
  (`range_checked_iff`). A `bm_set_extent` whose sum wraps answers 0.
-/

import KanekFoundations.Map.FindProofs

namespace KanekFoundations.Map

open KanekFoundations.Lib

/-- The bytes of a map of `totalBits` bits. -/
def mapBytes (totalBits : Nat) : Nat := (totalBits + 7) / 8

/-- The calls on one range: each ends; what is out of range is answered with -1; and no
    byte past the map is accessed. -/
structure RangeChecked (bm : Mem) (totalBits bitAddress len gapSize : Nat) (clearOrSet : Int) : Prop where
  set_refuses : totalBits < bitAddress + len → (bmSetExtent bm totalBits bitAddress len clearOrSet).rc = -1
  set_inside : ∀ s ∈ (bmSetExtent bm totalBits bitAddress len clearOrSet).touched, s.off + s.len ≤ mapBytes totalBits
  count : ∃ out, bmCount bm totalBits bitAddress len clearOrSet = some out ∧
    (totalBits < bitAddress + len → out.rc = -1) ∧ ∀ i ∈ out.reads, i < mapBytes totalBits
  grow : ∃ out, bmExtentCanGrow bm totalBits bitAddress len = some out ∧
    (totalBits < bitAddress + len → out.1 = -1) ∧ ∀ i ∈ out.2, i < mapBytes totalBits
  find : ∃ out, bmFind bm totalBits bitAddress len gapSize = some out ∧ ∀ i ∈ out.reads, i < mapBytes totalBits

section
variable (bm : Mem) {totalBits bitAddress len : Nat} (gapSize : Nat) (clearOrSet : Int)

theorem rangeChecked_of_refused (h : totalBits ≤ bitAddress ∨ totalBits < u64 (bitAddress + len))
    (hfind : ∃ out, bmFind bm totalBits bitAddress len gapSize = some out ∧ ∀ i ∈ out.reads, i < mapBytes totalBits) :
    RangeChecked bm totalBits bitAddress len gapSize clearOrSet := by
  refine ⟨fun _ => ?_, ?_, ?_, ?_, hfind⟩
  · rw [bmSetExtent_refused bm clearOrSet h]
  · rw [bmSetExtent_refused bm clearOrSet h]; exact List.forall_mem_nil _
  · exact ⟨_, bmCount_refused bm clearOrSet h, fun _ => rfl, List.forall_mem_nil _⟩
  · exact ⟨_, bmExtentCanGrow_refused bm h, fun _ => rfl, List.forall_mem_nil _⟩

theorem rangeChecked_of_inside (ht : totalBits < 2 ^ 64) (ha : bitAddress < totalBits)
    (hn : bitAddress + len ≤ totalBits) :
    RangeChecked bm totalBits bitAddress len gapSize clearOrSet := by
  refine ⟨fun h => absurd h (Nat.not_lt.mpr hn), fun s hs => ?_, ?_, ?_, bmFind_safe bm ht (.inr (by omega))⟩
  · have := (bmSetExtent_touched bm clearOrSet (by omega) s hs).2
    unfold mapBytes
    omega
  · obtain ⟨out, hout, -, hr, -⟩ := bmCount_spec bm clearOrSet ht ha hn
    exact ⟨out, hout, fun h => absurd h (Nat.not_lt.mpr hn), hr⟩
  · by_cases h0 : len = 0
    · refine ⟨(-1, []), ?_, fun _ => rfl, List.forall_mem_nil _⟩
      rw [bmExtentCanGrow, if_pos (.inr (.inr h0))]
    · obtain ⟨out, hout, hr, -⟩ := bmExtentCanGrow_spec bm ht ha hn (Nat.pos_of_ne_zero h0)
      exact ⟨out, hout, fun h => absurd h (Nat.not_lt.mpr hn), hr⟩

/-- The checks hold exactly when the address is past the end or the sum does not wrap. -/
theorem range_checked_iff (ht : totalBits < 2 ^ 64) (ha : bitAddress < 2 ^ 64) (hl : len < 2 ^ 64) :
    RangeChecked bm totalBits bitAddress len gapSize clearOrSet ↔
      totalBits ≤ bitAddress ∨ bitAddress + len < 2 ^ 64 := by
  constructor
  · intro h
    refine Classical.byContradiction fun hno => ?_
    -- The wrapped sum is below the address, so the call is accepted.
    have hwrap : u64 (bitAddress + len) = bitAddress + len - 2 ^ 64 := u64_wrap (by omega) (by omega)
    have hacc : (bmSetExtent bm totalBits bitAddress len clearOrSet).rc = 0 :=
      bmSetExtent_accepted bm clearOrSet (by rw [hwrap]; omega)
    rw [h.set_refuses (by omega)] at hacc
    exact absurd hacc (by decide)
  · intro h
    have hfind : ∃ out, bmFind bm totalBits bitAddress len gapSize = some out ∧ ∀ i ∈ out.reads,
        i < mapBytes totalBits :=
      bmFind_safe bm ht h
    by_cases hin : bitAddress < totalBits ∧ bitAddress + len ≤ totalBits
    · exact rangeChecked_of_inside bm gapSize clearOrSet ht hin.1 hin.2
    · refine rangeChecked_of_refused bm gapSize clearOrSet ?_ hfind
      rcases h with h | h
      · exact .inl h
      · rw [u64_of_lt h]; omega

/-- The iff at an extent inside its map. -/
theorem range_checked_iff_inside :
    RangeChecked (fun _ => 0) 16 3 9 2 SETBIT ↔ 16 ≤ 3 ∨ 3 + 9 < 2 ^ 64 :=
  range_checked_iff (fun _ => 0) 2 SETBIT (by decide) (by decide) (by decide)

end

/-- Nine bits into a map of two bytes, a length of 2^64 - 9 is accepted, and `memset`
    writes all of the address space from the third byte on. -/
theorem set_extent_wraps :
    ¬ ∀ (bm : Mem) (totalBits bitAddress len gapSize : Nat) (clearOrSet : Int), totalBits < 2 ^ 64 →
      bitAddress < 2 ^ 64 →
      len < 2 ^ 64 → RangeChecked bm totalBits bitAddress len gapSize clearOrSet := by
  intro h
  have hin := (h (fun _ => 0) 16 9 (2 ^ 64 - 9) 1 SETBIT (by decide) (by decide) (by decide)).set_inside ⟨2, 2 ^ 61 - 2⟩
    (by decide)
  exact absurd hin (by decide)

end KanekFoundations.Map

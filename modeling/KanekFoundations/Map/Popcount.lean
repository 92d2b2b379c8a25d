/-
  KanekFoundations.Map.Popcount — `bm_popcount`, and what the writers of a map do to it.

  The counter goes byte by byte with a masked tail, the writers work on extents at any bit;
  both are read as bits of the map. A written extent splits the bits below `total_bits` in
  three, and only the middle part counts differently afterwards (`Written.count`).

  Proved:
  - `popcount_iff`: the count is that of the set bits, setting and clearing an extent change it
    by the bits that change, and `bm_fill` and `bm_zero` leave all and none of them set, exactly
    when the number of bytes of `bm_zero` does not wrap or no bit was set before.
-/

import KanekFoundations.Map.SetExtent

namespace KanekFoundations.Map

open KanekFoundations.Lib

/-! ## The count -/

theorem popcount_le (byte : Byte) : popcount byte ≤ 8 := by
  have := List.countP_le_length (p := byte.getLsbD) (l := List.range 8)
  rwa [List.length_range] at this

/-- The bytes counted so far hold the bits counted so far. -/
theorem foldl_popcount (bm : Mem) {bytes : Nat} (h : bytes < 2 ^ 61) :
    (List.range bytes).foldl (fun count i => u64 (count + popcount (bm i))) 0 = (List.range (bytes * 8)).countP
    (bitAt bm) := by
  induction bytes with
  | zero => rfl
  | succ bytes ih =>
    have hle := List.countP_le_length (p := bitAt bm) (l := List.range (bytes * 8))
    rw [List.length_range] at hle
    have hbyte : popcount (bm bytes) = (List.range 8).countP fun i => bitAt bm (bytes * 8 + i) :=
      count_congr 8 fun i hi => (bitAt_byte bm bytes hi).symm
    have h8 := popcount_le (bm bytes)
    rw [List.range_succ, List.foldl_append, List.foldl_cons, List.foldl_nil, ih (by omega), u64_of_lt (by omega), hbyte,
      Nat.add_one_mul, count_add]

/-- The tail mask keeps the low bits of the last byte. -/
theorem popcount_masked (byte : Byte) {tailBits : Nat} (h : tailBits < 8) :
    popcount (byte &&& BitVec.ofNat 8 (1 <<< tailBits - 1)) = (List.range tailBits).countP byte.getLsbD := by
  have hbit : ∀ i < 8, (byte &&& BitVec.ofNat 8 (1 <<< tailBits - 1)).getLsbD i =
      (byte.getLsbD i && decide (i < tailBits)) := by
    intro i hi
    rw [BitVec.getLsbD_and, BitVec.getLsbD_ofNat, Nat.one_shiftLeft, Nat.testBit_two_pow_sub_one]
    simp [hi]
  rw [popcount, count_congr 8 hbit, count_below _ (Nat.le_of_lt h)]

theorem bmPopcount_eq (bm : Mem) {totalBits : Nat} (ht : totalBits < 2 ^ 64) :
    bmPopcount bm totalBits = (List.range totalBits).countP (bitAt bm) := by
  have hle := List.countP_le_length (p := bitAt bm) (l := List.range (totalBits / 8 * 8))
  rw [List.length_range] at hle
  simp only [bmPopcount, foldl_popcount bm (show totalBits / 8 < 2 ^ 61 by omega)]
  split
  · rename_i htail
    have htailLe := List.countP_le_length (p := (bm (totalBits / 8)).getLsbD) (l := List.range (totalBits % 8))
    rw [List.length_range] at htailLe
    have hbits : ∀ i < totalBits % 8, (bm (totalBits / 8)).getLsbD i = bitAt bm (totalBits / 8 * 8 + i) :=
      fun i hi => (bitAt_byte bm _ (by omega)).symm
    rw [popcount_masked _ (Nat.mod_lt _ (by decide)), u64_of_lt (by omega), count_congr _ hbits, ← count_add]
    congr 2
    omega
  · congr 2
    omega

/-- The set bits among the `n` from `a`. -/
def setBitsIn (bm : Mem) (a n : Nat) : Nat := (List.range n).countP fun i => bitAt bm (a + i)

section
variable (bm : Mem) {bm' : Mem} {totalBits a n : Nat} {b : Bool}

theorem setBitsIn_le : setBitsIn bm a n ≤ n := by
  have hle := List.countP_le_length (p := fun i => bitAt bm (a + i)) (l := List.range n)
  rwa [List.length_range] at hle

/-- The bits below the end of an extent: those before it and those of it. -/
theorem count_extent (r : Nat) : (List.range (a + n + r)).countP (bitAt bm) =
    (List.range a).countP (bitAt bm) + setBitsIn bm a n + setBitsIn bm (a + n) r := by
  rw [count_add, count_add]
  rfl

theorem count_const (n : Nat) (b : Bool) : (List.range n).countP (fun _ => b) = if b then n else 0 := by
  cases b <;> simp

/-- A written extent counts for all of its bits, or for none. -/
theorem Written.count (h : Written bm bm' a n b) (hn : a + n ≤ totalBits) :
    (List.range totalBits).countP (bitAt bm') + setBitsIn bm a n =
      (List.range totalBits).countP (bitAt bm) + if b then n else 0 := by
  obtain ⟨r, rfl⟩ := Nat.exists_eq_add_of_le hn
  have hbefore : (List.range a).countP (bitAt bm') = (List.range a).countP (bitAt bm) :=
    count_congr a fun i hi => by rw [h i, if_neg (by omega)]
  have hinside : setBitsIn bm' a n = if b then n else 0 := by
    rw [← count_const n b]
    exact count_congr n fun i hi => by rw [h (a + i), if_pos (by omega)]
  have hbehind : setBitsIn bm' (a + n) r = setBitsIn bm (a + n) r :=
    count_congr r fun i hi => by rw [h (a + n + i), if_neg (by omega)]
  rw [count_extent, count_extent, hbefore, hinside, hbehind]
  omega

/-! ## `bm_fill` and `bm_zero` -/

theorem bmFill_bit {i : Nat} (hi : i < totalBits) : bitAt (bmFill bm totalBits) i = true := by
  have hfull : ∀ j < 8, (0xff : Byte).getLsbD j = true := by decide
  have hwhole := memset_written bm 0 (totalBits / 8) 0xff true hfull i
  unfold bmFill
  dsimp only
  by_cases htail : 0 < totalBits % 8
  · rw [if_pos htail]
    by_cases hlast : i / 8 = totalBits / 8
    · rw [bitAt, store, if_pos hlast, BitVec.getLsbD_ofNat, Nat.one_shiftLeft, Nat.testBit_two_pow_sub_one,
        decide_eq_true (show i % 8 < 8 by omega), decide_eq_true (show i % 8 < totalBits % 8 by omega)]
      rfl
    · rw [bitAt, store, if_neg hlast]
      rw [if_pos (by omega)] at hwhole
      exact hwhole
  · rw [if_neg htail, hwhole, if_pos (by omega)]

/-- `bm_zero` clears whole bytes, as many as hold the map unless their number wraps. -/
theorem bmZero_bit {i : Nat} (hi : i < totalBits) (h : totalBits + 7 < 2 ^ 64) :
    bitAt (bmZero bm totalBits) i = false := by
  have hclear : ∀ j < 8, (0x00 : Byte).getLsbD j = false := by decide
  have hwritten := memset_written bm 0 (u64 (totalBits + 7) / 8) 0x00 false hclear i
  rw [u64_of_lt h, if_pos (by omega)] at hwritten
  rw [bmZero, u64_of_lt h]
  exact hwritten

/-- When the number of bytes wraps, nothing is cleared. -/
theorem bmZero_wraps (ht : totalBits < 2 ^ 64) (h : 2 ^ 64 ≤ totalBits + 7) : bmZero bm totalBits = bm := by
  have hnone : u64 (totalBits + 7) / 8 = 0 := by
    rw [u64_wrap h (by omega)]
    omega
  funext i
  rw [bmZero, hnone, memset, if_neg (by omega)]

/-- What `bm_popcount` counts, and what the writers do to it. -/
structure PopcountRight (bm : Mem) (totalBits : Nat) : Prop where
  count : bmPopcount bm totalBits = (List.range totalBits).countP fun i => bmGetBit bm totalBits i = 1
  set : ∀ a n, a < totalBits → a + n ≤ totalBits →
    bmPopcount (bmSetExtent bm totalBits a n SETBIT).bm totalBits =
      bmPopcount bm totalBits + (n - (List.range n).countP fun i => bmGetBit bm totalBits (a + i) = 1)
  clear : ∀ a n, a < totalBits → a + n ≤ totalBits →
    bmPopcount (bmSetExtent bm totalBits a n CLEARBIT).bm totalBits +
      ((List.range n).countP fun i => bmGetBit bm totalBits (a + i) = 1) = bmPopcount bm totalBits
  fill : bmPopcount (bmFill bm totalBits) totalBits = totalBits
  zero : bmPopcount (bmZero bm totalBits) totalBits = 0
  fillBits : ∀ i < totalBits, bmGetBit (bmFill bm totalBits) totalBits i =
    bmGetBit (bmSetExtent bm totalBits 0 totalBits SETBIT).bm totalBits i
  zeroBits : ∀ i < totalBits, bmGetBit (bmZero bm totalBits) totalBits i =
    bmGetBit (bmSetExtent bm totalBits 0 totalBits CLEARBIT).bm totalBits i

/-- `bm_get_bit` as the bit it reads. -/
theorem getBit_one {i : Nat} (hi : i < totalBits) : decide (bmGetBit bm totalBits i = 1) = bitAt bm i := by
  rw [bmGetBit_eq bm hi]
  cases bitAt bm i <;> rfl

theorem count_getBit (hn : a + n ≤ totalBits) :
    ((List.range n).countP fun i => bmGetBit bm totalBits (a + i) = 1) = setBitsIn bm a n :=
  count_congr n fun i hi => getBit_one bm (by omega)

/-- No bit is counted exactly when none is set. -/
theorem popcount_zero_iff (ht : totalBits < 2 ^ 64) : bmPopcount bm totalBits = 0 ↔
    ∀ i < totalBits, bitAt bm i = false := by
  rw [bmPopcount_eq bm ht, List.countP_eq_zero]
  simp only [List.mem_range, Bool.not_eq_true]

/-- All of it holds exactly when the number of bytes of `bm_zero` does not wrap, or there is nothing to clear. -/
theorem popcount_iff (ht : totalBits < 2 ^ 64) :
    PopcountRight bm totalBits ↔ totalBits + 7 < 2 ^ 64 ∨ ∀ i < totalBits, bitAt bm i = false := by
  have hzero : PopcountRight bm totalBits ↔ ∀ i < totalBits, bitAt (bmZero bm totalBits) i = false := by
    constructor
    · exact fun h => (popcount_zero_iff _ ht).mp h.zero
    · intro hclear
      have hwhole : ∀ flag, flag = CLEARBIT ∨ flag = SETBIT → ∀ i < totalBits,
          bitAt (bmSetExtent bm totalBits 0 totalBits flag).bm i = flagBit flag := by
        intro flag hf i hi
        rw [bmSetExtent_written bm flag (by omega) (by omega) ht hf i, if_pos (by omega)]
      have hcount : ((List.range totalBits).countP fun i => bmGetBit bm totalBits i = 1) =
          (List.range totalBits).countP (bitAt bm) := count_congr totalBits fun i hi => getBit_one bm hi
      refine ⟨?_, fun a n ha hn => ?_, fun a n ha hn => ?_, ?_, ?_, fun i hi => ?_, fun i hi => ?_⟩
      · rw [hcount, bmPopcount_eq bm ht]
      · have hset := (bmSetExtent_written bm SETBIT ha hn ht (.inr rfl)).count bm hn
        have hle := setBitsIn_le bm (a := a) (n := n)
        rw [count_getBit bm hn, bmPopcount_eq _ ht, bmPopcount_eq _ ht]
        rw [if_pos (show flagBit SETBIT = true from rfl)] at hset
        omega
      · have hset := (bmSetExtent_written bm CLEARBIT ha hn ht (.inl rfl)).count bm hn
        rw [if_neg (show ¬ flagBit CLEARBIT = true by decide), Nat.add_zero] at hset
        rw [count_getBit bm hn, bmPopcount_eq _ ht, bmPopcount_eq _ ht]
        exact hset
      · have hall : (List.range totalBits).countP (bitAt (bmFill bm totalBits)) = (List.range totalBits).countP
            fun _ => true :=
          count_congr totalBits fun i hi => bmFill_bit bm hi
        rw [bmPopcount_eq _ ht, hall, count_const, if_pos rfl]
      · exact (popcount_zero_iff _ ht).mpr hclear
      · rw [bmGetBit_eq _ hi, bmGetBit_eq _ hi, bmFill_bit bm hi, hwhole SETBIT (.inr rfl) i hi]
        rfl
      · rw [bmGetBit_eq _ hi, bmGetBit_eq _ hi, hclear i hi, hwhole CLEARBIT (.inl rfl) i hi]
        rfl
  rw [hzero]
  by_cases hwrap : totalBits + 7 < 2 ^ 64
  · exact iff_of_true (fun i hi => bmZero_bit bm hi hwrap) (.inl hwrap)
  · rw [bmZero_wraps bm ht (by omega), or_iff_right hwrap]

end

/-- Three bytes, the last with padding. -/
theorem popcount_iff_padded : PopcountRight (fun _ => 0x5a) 21 ↔ 21 + 7 < 2 ^ 64 ∨ ∀ i < 21,
    bitAt (fun _ => 0x5a) i = false :=
  popcount_iff (fun _ => 0x5a) (by decide)

/-- In a map of 2^64 - 1 bits `bm_zero` clears no byte. -/
theorem zero_clears_nothing : bmZero (fun _ => 0xff) (2 ^ 64 - 1) = (fun _ => 0xff) ∧
    ¬ PopcountRight (fun _ => 0xff) (2 ^ 64 - 1) := by
  refine ⟨bmZero_wraps _ (by decide) (by decide), fun h => ?_⟩
  have hset : bitAt (fun _ => 0xff) 0 = true := by decide
  have hclear := (popcount_zero_iff _ (by decide)).mp h.zero
  rw [bmZero_wraps _ (by decide) (by decide)] at hclear
  rw [hclear 0 (by decide)] at hset
  cases hset

end KanekFoundations.Map

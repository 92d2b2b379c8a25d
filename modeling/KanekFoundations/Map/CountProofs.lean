/-
  KanekFoundations.Map.CountProofs — what `bm_count` counts, and the bytes it reads.

  The byte loop keeps `pending_bits` equal to the bits of the extent not yet counted,
  as an `int64_t`; below 2^63 that is the number itself, and the count is a run. Handed
  to `byte_count_bits` it becomes an `int`, so only below 2^31 is the count known to
  stop at a bit of the other value.
-/

import KanekFoundations.Map.SetExtent

namespace KanekFoundations.Map

open KanekFoundations.Lib

theorem Run.byte {bm : Mem} {loc start n : Nat} {b : Bool} (h : Run (bm loc).getLsbD b start n) (h8 : start + n ≤ 8) :
    Run (bitAt bm) b (loc * 8 + start) n :=
  h.shift fun _ hi => bitAt_byte bm loc (by omega)

theorem full_byte {byte : Byte} {clearOrSet : Int}
    (h : (clearOrSet = 1 ∧ byte = 0xff) ∨ (clearOrSet = 0 ∧ byte = 0x00)) :
      Run byte.getLsbD (flagBit clearOrSet) 0 8 := by
  intro i _ hi
  rcases h with ⟨rfl, rfl⟩ | ⟨rfl, rfl⟩
  · exact fill_bits 1 (Or.inr rfl) i (by omega)
  · exact fill_bits 0 (Or.inl rfl) i (by omega)

theorem other_byte {byte : Byte} {clearOrSet : Int} (hf : clearOrSet = CLEARBIT ∨ clearOrSet = SETBIT)
    (hb : ¬ (byte ≠ 0xff ∧ byte ≠ 0x00)) (h : ¬ ((clearOrSet = 1 ∧ byte = 0xff) ∨ (clearOrSet = 0 ∧ byte = 0x00))) :
    byte.getLsbD 0 ≠ flagBit clearOrSet := by
  rcases hf with rfl | rfl <;> simp only [CLEARBIT, SETBIT, flagBit] at * <;>
    rcases Classical.em (byte = 0xff) with rfl | h1 <;> simp_all

/-- A byte of one value is 0xff or 0x00. -/
theorem byte_of_run {byte : Byte} {b : Bool} (h : Run byte.getLsbD b 0 8) : byte = if b then 0xff else 0x00 := by
  refine BitVec.eq_of_getLsbD_eq fun i hi => ?_
  rw [h i (Nat.zero_le _) (by omega)]
  cases b with
  | false => simp
  | true =>
    have hall : ∀ j < 8, (0xff : Byte).getLsbD j = true := by decide
    exact (hall i hi).symm

/-- A mixed byte is no run. -/
theorem mixed_not_run {byte : Byte} {b : Bool} (hmix : byte ≠ 0xff ∧ byte ≠ 0x00) : ¬ Run byte.getLsbD b 0 8 := by
  intro h
  have hbyte := byte_of_run h
  cases b with
  | false => exact hmix.2 hbyte
  | true => exact hmix.1 hbyte

/-- `k` of the `n` bits from `a` are counted. -/
structure Counted (bm : Mem) (a n : Nat) (clearOrSet : Int) (k : Nat) : Prop where
  le : k ≤ n
  run : n < 2 ^ 63 → Run (bitAt bm) (flagBit clearOrSet) a k
  stop : n < 2 ^ 31 → (clearOrSet = CLEARBIT ∨ clearOrSet = SETBIT) → k < n → bitAt bm (a + k) ≠ flagBit clearOrSet

/-- The answer of a counting call that does not read past the map. -/
def CountsIn (bm : Mem) (totalBits a n : Nat) (clearOrSet : Int) (out : CountOut) : Prop :=
  out.rc = 0 ∧ (∀ i ∈ out.reads, i < (totalBits + 7) / 8) ∧ Counted bm a n clearOrSet out.countResult

theorem reads_snoc {reads : List Nat} {loc bound : Nat} (hr : ∀ i ∈ reads, i < bound) (h : loc < bound) :
    ∀ i ∈ reads ++ [loc], i < bound := by
  intro i hi
  rcases List.mem_append.mp hi with hi | hi
  · exact hr i hi
  · rwa [List.mem_singleton.mp hi]

section
variable (bm : Mem) {totalBits a n : Nat} (clearOrSet : Int)

/-- A byte that ends the count: what is counted of it, after a run of `bitsCount`. -/
theorem countLast_counted {loc bitsCount : Nat} (hpos : loc * 8 = a + bitsCount) (hlt : bitsCount < n) (hn : n < 2 ^ 64)
    (hmix : bm loc ≠ 0xff ∧ bm loc ≠ 0x00) (hrun : Run (bitAt bm) (flagBit clearOrSet) a bitsCount) :
    Counted bm a n clearOrSet
      (u64 (bitsCount + byteCountBits 0 (i32 (i64 (n - bitsCount))) (bm loc) clearOrSet)) := by
  obtain ⟨k, hk⟩ : ∃ k, byteCountBits 0 (i32 (i64 (n - bitsCount))) (bm loc) clearOrSet = k := ⟨_, rfl⟩
  obtain ⟨hbyte, h8, hle⟩ := byteCountBits_sound 0 (i32 (i64 (n - bitsCount))) (bm loc) clearOrSet (by decide)
  rw [hk] at hbyte h8 hle
  have hkn : bitsCount + k ≤ n := by
    by_cases hsmall : n - bitsCount < 8
    · rw [i64_of_lt (by omega) (by omega), i32_of_lt (by omega) (by omega)] at hle
      omega
    · omega
  rw [hk, u64_of_lt (by omega)]
  refine ⟨hkn, fun _ => hrun.append ?_, fun h31 hf hklt => ?_⟩
  · rw [← hpos]
    exact Run.byte hbyte (by omega)
  · have hcast : i32 (i64 (n - bitsCount)) = ((n - bitsCount : Nat) : Int) := by
      rw [i64_of_lt (by omega) (by omega), i32_of_lt (by omega) (by omega)]; omega
    have hmax := byteCountBits_run 0 (n - bitsCount) (bm loc) clearOrSet (by omega) (by decide)
    rw [← hcast, hk] at hmax
    by_cases hk8 : k < min (n - bitsCount) (8 - 0)
    · have := hmax.stop hk8
      rw [← Nat.add_assoc, ← hpos, bitAt_byte bm loc (by omega)]
      rwa [Nat.zero_add] at this
    · have h8 : k = 8 := by omega
      rw [h8] at hbyte
      exact absurd hbyte (mixed_not_run hmix)

theorem countBytes_spec (ht : totalBits < 2 ^ 64) (hn : a + n ≤ totalBits) (fuel : Nat) {loc bitsCount : Nat}
    {reads : List Nat}
    (hpos : loc * 8 = a + bitsCount) (hlt : bitsCount < n) (hfuel : n ≤ bitsCount + 8 * fuel)
    (hr : ∀ i ∈ reads, i < (totalBits + 7) / 8) (hrun : Run (bitAt bm) (flagBit clearOrSet) a bitsCount) :
    ∃ out, countBytes bm n clearOrSet fuel loc bitsCount (i64 (n - bitsCount)) reads = some out ∧
      CountsIn bm totalBits a n clearOrSet out := by
  induction fuel generalizing loc bitsCount reads with
  | zero => omega
  | succ fuel ih =>
    have hr' := reads_snoc hr (show loc < (totalBits + 7) / 8 by omega)
    simp only [countBytes, hlt, if_true]
    split
    · rename_i hmix
      exact ⟨_, rfl, rfl, hr', countLast_counted bm clearOrSet hpos hlt (by omega) hmix hrun⟩
    rename_i hmix
    split
    · rename_i hfull
      have hbyte : Run (bitAt bm) (flagBit clearOrSet) (a + bitsCount) 8 := by
        rw [← hpos]; exact Run.byte (full_byte hfull) (by decide)
      split
      · rename_i h8
        refine ⟨_, rfl, rfl, hr', Nat.le_refl _, fun h63 => ?_, fun _ _ h => absurd h (Nat.lt_irrefl _)⟩
        have : n = bitsCount + (n - bitsCount) := by omega
        show Run _ _ a n
        rw [this]
        rw [i64_of_lt (by omega) (by omega)] at h8
        exact hrun.append (hbyte.sub (Nat.le_refl _) (by omega))
      · rename_i h8
        have hle := i64_le (show (0 : Int) ≤ n - bitsCount by omega)
        have hstep : i64 (i64 (n - bitsCount) - 8) = i64 (n - (bitsCount + 8 : Nat)) := by
          rw [i64_sub]; congr 1; omega
        rw [hstep, u64_of_lt (by omega)]
        exact ih (by omega) (by omega) (by omega) hr' (hrun.append hbyte)
    · rename_i hother
      refine ⟨_, rfl, rfl, hr', Nat.le_of_lt hlt, fun _ => hrun, fun _ hf _ => ?_⟩
      have := other_byte hf hmix hother
      rwa [← hpos, ← Nat.add_zero (loc * 8), bitAt_byte bm loc (by decide)]

/-- Every accepted call ends, stays in the map, and counts a run. -/
theorem bmCount_spec (ht : totalBits < 2 ^ 64) (ha : a < totalBits) (hn : a + n ≤ totalBits) :
    ∃ out, bmCount bm totalBits a n clearOrSet = some out ∧ CountsIn bm totalBits a n clearOrSet out := by
  have hok : ¬ (totalBits ≤ a ∨ totalBits < u64 (a + n)) := by rw [u64_of_lt (by omega)]; omega
  have hsum : u64 (a % 8 + n) = a % 8 + n := u64_of_lt (by omega)
  rw [bmCount, if_neg hok]
  split
  · rename_i h0
    have hnone : Counted bm a n clearOrSet 0 := ⟨Nat.zero_le _, fun _ => Run.zero, fun _ _ h => by omega⟩
    exact ⟨_, rfl, rfl, List.forall_mem_nil _, hnone⟩
  simp only [hsum]
  split
  · -- The first byte is asked for `m` bits.
    obtain ⟨m, hm⟩ : ∃ m : Nat, (if 8 ≤ a % 8 + n then (8 : Int) - (a % 8 : Nat) else i32 n) = m := by
      split
      · exact ⟨8 - a % 8, by omega⟩
      · exact ⟨n, i32_of_lt (by omega) (by omega)⟩
    have hm0 : 0 < m ∧ m ≤ 8 - a % 8 ∧ m ≤ n ∧ (m < n → m = 8 - a % 8) := by
      split at hm
      · omega
      · rw [i32_of_lt (by omega) (by omega)] at hm; omega
    have hr : ∀ i ∈ [a / 8], i < (totalBits + 7) / 8 := by
      intro i hi
      rw [List.mem_singleton.mp hi]; omega
    obtain ⟨k, hk⟩ : ∃ k, byteCountBits (a % 8) m (bm (a / 8)) clearOrSet = k := ⟨_, rfl⟩
    have hmax := byteCountBits_run (a % 8) m (bm (a / 8)) clearOrSet hm0.1 (Nat.mod_lt _ (by decide))
    rw [hk, Nat.min_eq_left hm0.2.1] at hmax
    have hpos : a / 8 * 8 + a % 8 = a := by omega
    have hle := hmax.le
    have hrun := Run.byte hmax.run (by omega)
    rw [hpos] at hrun
    rw [hm, hk, i64_sub, u64OfInt_of_nat (by omega) (by omega), Int.toNat_natCast]
    split
    · rename_i hstop
      refine ⟨_, rfl, rfl, hr, (show k ≤ n by omega), fun _ => hrun, fun h31 _ (hlt : k < n) => ?_⟩
      have hkm : k < m := by
        rw [i64_of_lt (by omega) (by omega)] at hstop
        omega
      have := hmax.stop hkm
      show bitAt bm (a + k) ≠ _
      rwa [show a + k = a / 8 * 8 + (a % 8 + k) by omega, bitAt_byte bm _ (by omega)]
    · rename_i hstop
      have hkm : k = m := by omega
      have hlt : m < n := by
        rcases Nat.lt_or_ge m n with h | h
        · exact h
        · exact absurd (Or.inl (by rw [i64_of_lt (by omega) (by omega)]; omega)) hstop
      rw [hkm] at hrun ⊢
      exact countBytes_spec bm clearOrSet ht hn (n / 8 + 2) (by omega) hlt (by omega) hr hrun
  · have hstart : i64 n = i64 (n - ((0 : Nat) : Int)) := by rw [Int.natCast_zero, Int.sub_zero]
    rw [hstart]
    exact countBytes_spec bm clearOrSet ht hn (n / 8 + 2) (by omega) (by omega) (by omega)
      (List.forall_mem_nil _) Run.zero

/-! ## `bm_extent_can_grow` -/

/-- What an answer of 0 says of the region: leading ones, then only zeros. -/
def OnesThenZeros (bm : Mem) (a n : Nat) : Prop :=
  ∃ k ≤ n, Run (bitAt bm) true a k ∧ Run (bitAt bm) false (a + k) (n - k)

theorem of_rc_zero {c : Prop} [Decidable c] {e : Int} (he : e ≠ 0) (h : (if c then 0 else e) = 0) : c := by
  split at h
  · assumption
  · exact absurd h he

/-- Every accepted call ends, stays in the map, and answers 0 only for ones then zeros. -/
theorem bmExtentCanGrow_spec (ht : totalBits < 2 ^ 64) (ha : a < totalBits) (hn : a + n ≤ totalBits) (h0 : 0 < n) :
    ∃ out, bmExtentCanGrow bm totalBits a n = some out ∧ (∀ i ∈ out.2, i < (totalBits + 7) / 8) ∧
      (n < 2 ^ 63 → out.1 = 0 → OnesThenZeros bm a n) := by
  have hok : ¬ (totalBits ≤ a ∨ totalBits < u64 (a + n) ∨ n = 0) := by rw [u64_of_lt (by omega)]; omega
  obtain ⟨zeros, hz, hzrc, hzr, hzc⟩ := bmCount_spec bm 0 ht ha hn
  obtain ⟨ones, ho, horc, hor, hoc⟩ := bmCount_spec bm 1 ht ha hn
  have hreads : ∀ i ∈ zeros.reads ++ ones.reads, i < (totalBits + 7) / 8 :=
    fun i hi => (List.mem_append.mp hi).elim (hzr i) (hor i)
  have hlo := hoc.le
  rw [bmExtentCanGrow, if_neg hok, hz]
  simp only [Option.bind_eq_bind, Option.bind_some, hzrc, ho, horc, ne_eq, not_true_eq_false, if_false]
  split
  · refine ⟨_, rfl, hzr, fun h63 hrc => ⟨0, Nat.zero_le _, Run.zero, ?_⟩⟩
    have hall : zeros.countResult = n := of_rc_zero (by decide) hrc
    have := hzc.run h63
    rwa [hall] at this
  split
  · exact ⟨_, rfl, hreads, fun _ (h : (-3 : Int) = 0) => absurd h (by decide)⟩
  split
  · exact ⟨_, rfl, hreads, fun _ (h : (-4 : Int) = 0) => absurd h (by decide)⟩
  have hnext : u64 (a + ones.countResult) = a + ones.countResult := u64_of_lt (by omega)
  obtain ⟨rest, hr, hrrc, hrr, hrc⟩ :=
    bmCount_spec bm (a := a + ones.countResult) (n := n - ones.countResult) 0 ht (by omega)
    (by omega)
  rw [hnext, hr]
  simp only [Option.bind_some, hrrc, not_true_eq_false, if_false]
  refine ⟨_, rfl, fun i hi => (List.mem_append.mp hi).elim (hreads i) (hrr i), fun h63 hzero => ?_⟩
  refine ⟨ones.countResult, hlo, hoc.run h63, ?_⟩
  have hall : n - ones.countResult = rest.countResult := of_rc_zero (by decide) hzero
  rw [hall]
  exact hrc.run (by omega)

theorem bmExtentCanGrow_refused (h : totalBits ≤ a ∨ totalBits < u64 (a + n)) :
    bmExtentCanGrow bm totalBits a n = some (-1, []) := by
  rw [bmExtentCanGrow, if_pos (by omega)]

theorem bmCount_refused (h : totalBits ≤ a ∨ totalBits < u64 (a + n)) :
    bmCount bm totalBits a n clearOrSet = some ⟨-1, 0, []⟩ := by
  rw [bmCount, if_pos h]

end

end KanekFoundations.Map

/-
  KanekFoundations.Map.CountExact — what `bm_count` stores for a request of any size.

  `pending_bits` is an `int64_t` and becomes an `int` at the byte that ends the run. Both stay
  as they are below 2^31 bits. `countValue` is what is stored for a run of `L` bits, and
  `CountExact` when that is `L`.

  Proved:
  - `bm_count_longest`: below 2^31 bits the count is the longest run, and every byte that is
    read holds a bit of the request.
  - `bm_extent_can_grow_code`: below 2^31 bits `bm_extent_can_grow` answers what the bits call for.
  - `large_requests_iff`: for a request of any size, when the count is the longest run for both
    flags and `bm_extent_can_grow` answers what the bits call for.
-/

import KanekFoundations.Map.CountProofs

namespace KanekFoundations.Map

open KanekFoundations.Lib

/-- Byte `i` holds one of the `n` bits from `a`. -/
def HoldsBit (a n i : Nat) : Prop := ∃ b, a ≤ b ∧ b < a + n ∧ b / 8 = i

theorem holdsBit_of_bounds {a n i : Nat} (h0 : 0 < n) (hlo : a / 8 ≤ i) (hhi : i * 8 < a + n) : HoldsBit a n i :=
  ⟨max a (i * 8), by omega, by omega, by omega⟩

section
variable (bm : Mem) {totalBits a n L : Nat} {clearOrSet : Int}

/-! ## The bytes it reads -/

theorem countBytes_reads {numBits : Nat} (fuel : Nat) {loc bitsCount : Nat} {pendingBits : Int}
    {reads : List Nat} {lo : Nat}
    (hlo : lo ≤ loc) (hr : ∀ i ∈ reads, lo ≤ i) {out : CountOut}
    (h : countBytes bm numBits clearOrSet fuel loc bitsCount pendingBits reads = some out) :
      ∀ i ∈ out.reads, lo ≤ i := by
  have hsnoc : ∀ {loc : Nat} {reads : List Nat}, lo ≤ loc → (∀ i ∈ reads, lo ≤ i) → ∀ i ∈ reads ++ [loc], lo ≤ i := by
    intro loc reads hlo hr i hi
    rcases List.mem_append.mp hi with hi | hi
    · exact hr i hi
    · exact List.mem_singleton.mp hi ▸ hlo
  induction fuel generalizing loc bitsCount pendingBits reads with
  | zero => cases h
  | succ fuel ih =>
    have hr' := hsnoc hlo hr
    unfold countBytes at h
    dsimp only at h
    by_cases hmore : bitsCount < numBits
    swap
    · rw [if_neg hmore] at h
      rw [← Option.some.inj h]
      exact hr
    rw [if_pos hmore] at h
    by_cases hmix : bm loc ≠ 0xff ∧ bm loc ≠ 0x00
    · rw [if_pos hmix] at h
      rw [← Option.some.inj h]
      exact hr'
    rw [if_neg hmix] at h
    by_cases hfull : (clearOrSet = 1 ∧ bm loc = 0xff) ∨ (clearOrSet = 0 ∧ bm loc = 0x00)
    · rw [if_pos hfull] at h
      by_cases h8 : pendingBits ≤ 8
      · rw [if_pos h8] at h
        rw [← Option.some.inj h]
        exact hr'
      · rw [if_neg h8] at h
        exact ih (Nat.le_succ_of_le hlo) hr' h
    · rw [if_neg hfull] at h
      rw [← Option.some.inj h]
      exact hr'

theorem bmCount_reads {out : CountOut} (h : bmCount bm totalBits a n clearOrSet = some out) :
    ∀ i ∈ out.reads, a / 8 ≤ i := by
  have hone : ∀ i ∈ [a / 8], a / 8 ≤ i := fun i hi => Nat.le_of_eq (List.mem_singleton.mp hi).symm
  revert h
  rw [bmCount]
  split
  · intro h
    rw [← Option.some.inj h]
    exact List.forall_mem_nil _
  split
  · intro h
    rw [← Option.some.inj h]
    exact List.forall_mem_nil _
  dsimp only
  generalize (if 8 ≤ u64 (a % 8 + n) then (8 : Int) - (a % 8 : Nat) else i32 n) = expectedBits
  split
  · split
    · intro h
      rw [← Option.some.inj h]
      exact hone
    · exact countBytes_reads bm _ (Nat.le_succ _) hone
  · exact countBytes_reads bm _ (Nat.le_refl _) (List.forall_mem_nil _)

/-- Within the map, its size does not matter. -/
theorem bmCount_total (ht : totalBits < 2 ^ 64) (hn : a + n ≤ totalBits) (h0 : 0 < n) :
    bmCount bm totalBits a n clearOrSet = bmCount bm (a + n) a n clearOrSet := by
  have hsum : u64 (a + n) = a + n := u64_of_lt (by omega)
  have hok : ¬ (totalBits ≤ a ∨ totalBits < a + n) := by omega
  have hok' : ¬ (a + n ≤ a ∨ a + n < a + n) := by omega
  rw [bmCount, bmCount, hsum, if_neg hok, if_neg hok']

/-- Below 2^31 bits, `bm_count` stores the longest run. -/
theorem bm_count_longest (ht : totalBits < 2 ^ 64) (ha : a < totalBits) (h31 : n < 2 ^ 31) (hn : a + n ≤ totalBits)
    (hf : clearOrSet = CLEARBIT ∨ clearOrSet = SETBIT) :
    ∃ out, bmCount bm totalBits a n clearOrSet = some out ∧ out.rc = 0 ∧ (∀ i ∈ out.reads, HoldsBit a n i) ∧
      IsGreatest {k | k ≤ n ∧ Run (bitAt bm) (flagBit clearOrSet) a k} out.countResult := by
  by_cases h0 : n = 0
  · subst h0
    have hsum : u64 (a + 0) = a := u64_of_lt (by omega)
    refine ⟨⟨0, 0, []⟩, ?_, rfl, List.forall_mem_nil _, ⟨Nat.le_refl 0, Run.zero⟩, fun k hk => hk.1⟩
    rw [bmCount, hsum, if_neg (by omega), if_pos rfl]
  obtain ⟨out, hout, hrc, hreads, hcount⟩ : ∃ out, bmCount bm (a + n) a n clearOrSet = some out ∧
      CountsIn bm (a + n) a n clearOrSet out := bmCount_spec bm clearOrSet (by omega) (by omega) (Nat.le_refl _)
  have hlow := bmCount_reads bm hout
  refine ⟨out, (bmCount_total bm ht hn (by omega)).trans hout, hrc, fun i hi => ?_, ?_⟩
  · have hhigh := hreads i hi
    exact holdsBit_of_bounds (by omega) (hlow i hi) (by omega)
  · exact (MaxRun.mk hcount.le (hcount.run (by omega)) fun hlt => hcount.stop h31 hf hlt).isGreatest

end

/-- Twelve ones from the third bit of two bytes and a half. -/
theorem bm_count_longest_twelve :
    ∃ out, bmCount (fun _ => 0xff) 20 2 12 SETBIT = some out ∧ out.rc = 0 ∧ (∀ i ∈ out.reads, HoldsBit 2 12 i) ∧
      IsGreatest {k | k ≤ 12 ∧ Run (bitAt fun _ => 0xff) (flagBit SETBIT) 2 k} out.countResult :=
  bm_count_longest (fun _ => 0xff) (by decide) (by decide) (by decide) (by decide) (.inr rfl)

/-! ## The value that is stored -/

/-- The bits up to the first byte boundary. -/
def headBits (a : Nat) : Nat := (8 - a % 8) % 8

/-- What the byte loop stores for a run of `L` bits: the byte where the run ends gives no more
    than the `int` of the bits that are pending there. -/
def tailCount (a n L : Nat) : Nat :=
  if L = n then n else (a + L) / 8 * 8 - a + min ((a + L) % 8) (i32 (n - ((a + L) / 8 * 8 - a : Nat))).toNat

/-- What is stored for a run of `L` bits. From 2^63 bits on `pending_bits` is negative: only the
    first byte is looked at. -/
def countValue (a n L : Nat) : Nat :=
  if n < 2 ^ 63 + headBits a then if L < headBits a then L else tailCount a n L
  else if headBits a = 0 then if 8 ≤ L then n else min L (i32 n).toNat
  else min L (headBits a)

section
variable (bm : Mem) {totalBits a n L : Nat} {clearOrSet : Int}

theorem byteCountBits_min {byte : Byte} {t : Nat} (ht : MaxRun byte.getLsbD (flagBit clearOrSet) 0 8 t) (bits : Int) :
    byteCountBits 0 bits byte clearOrSet = min t bits.toNat := by
  have ht8 := ht.le
  by_cases h : bits ≤ 0
  · rw [byteCountBits_nonpos 0 byte clearOrSet h]
    omega
  · obtain ⟨k, rfl⟩ : ∃ k : Nat, bits = k := ⟨bits.toNat, by omega⟩
    have hcount := byteCountBits_run 0 k byte clearOrSet (by omega) (by decide)
    have hcut := ht.cut (m := min k (8 - 0)) (by omega)
    rw [hcut.unique hcount]
    omega

/-- The run of a byte, behind a run up to the byte. -/
theorem run_of_byte {loc c t : Nat} {b : Bool} (hpos : loc * 8 = a + c) (hrun : Run (bitAt bm) b a c)
    (ht : MaxRun (bm loc).getLsbD b 0 8 t) :
    MaxRun (bitAt bm) b a (c + 8) (c + t) := by
  refine MaxRun.append hrun ⟨ht.le, ?_, fun hlt => ?_⟩
  · rw [← hpos]
    exact Run.byte ht.run (by have := ht.le; omega)
  · have hstop := ht.stop hlt
    rw [Nat.zero_add] at hstop
    rwa [← hpos, bitAt_byte bm loc hlt]

/-- The run that ends in a byte. -/
theorem length_of_byte {c t : Nat} {b : Bool} (hL : MaxRun (bitAt bm) b a n L)
    (ht : MaxRun (bitAt bm) b a (c + 8) (c + t))
    (h8 : t < 8) :
    L = min (c + t) n := by
  by_cases hn : n ≤ c + 8
  · exact (ht.cut hn).unique hL
  · have hcut := hL.cut (m := c + 8) (by omega)
    have heq := hcut.unique ht
    have hle := hL.le
    omega

theorem countBytes_exact (hf : clearOrSet = CLEARBIT ∨ clearOrSet = SETBIT) (hn : a + n < 2 ^ 64)
    (fuel : Nat) {loc c : Nat}
    {reads : List Nat} (hpos : loc * 8 = a + c) (hlt : c < n) (h63 : n < 2 ^ 63 + c) (hfuel : n ≤ c + 8 * fuel)
    (hrun : Run (bitAt bm) (flagBit clearOrSet) a c) (hL : MaxRun (bitAt bm) (flagBit clearOrSet) a n L) :
    ∃ reads', countBytes bm n clearOrSet fuel loc c (i64 (n - c)) reads = some ⟨0, tailCount a n L, reads'⟩ := by
  induction fuel generalizing loc c reads with
  | zero => omega
  | succ fuel ih =>
    have hpend : i64 (n - c) = n - c := i64_of_lt (by omega) (by omega)
    unfold countBytes
    rw [if_pos hlt]
    dsimp only
    by_cases hmix : bm loc ≠ 0xff ∧ bm loc ≠ 0x00
    · rw [if_pos hmix, hpend]
      have ht := runLength_max (bm loc).getLsbD (flagBit clearOrSet) 0 8
      generalize runLength (bm loc).getLsbD (flagBit clearOrSet) 0 8 = t at ht
      have ht8 : t < 8 := Nat.lt_of_le_of_ne ht.le fun h => mixed_not_run hmix (h ▸ ht.run)
      have hlen := length_of_byte bm hL (run_of_byte bm hpos hrun ht) ht8
      refine ⟨reads ++ [loc], ?_⟩
      rw [byteCountBits_min ht]
      unfold tailCount
      by_cases hall : L = n
      · -- Fewer than eight bits are pending.
        have hint : i32 ((n : Int) - c) = n - c := i32_of_lt (by omega) (by omega)
        rw [if_pos hall, hint, u64_of_lt (by omega)]
        congr 2
        omega
      · have hend : L = c + t := by omega
        have hdiv : (a + L) / 8 * 8 - a = c := by omega
        have hmod : (a + L) % 8 = t := by omega
        rw [if_neg hall, hdiv, hmod, u64_of_lt (by omega)]
    rw [if_neg hmix]
    by_cases hfull : (clearOrSet = 1 ∧ bm loc = 0xff) ∨ (clearOrSet = 0 ∧ bm loc = 0x00)
    · have hrun' := (run_of_byte bm hpos hrun (Run.max (full_byte hfull))).run
      rw [if_pos hfull]
      by_cases h8 : i64 (n - c) ≤ 8
      · have hall : L = n := (hrun'.sub (Nat.le_refl a) (by omega)).max.unique hL
        rw [if_pos h8, tailCount, if_pos hall]
        exact ⟨_, rfl⟩
      · have hstep : i64 (i64 (n - c) - 8) = i64 (n - (c + 8 : Nat)) := by
          rw [i64_sub]
          congr 1
          omega
        rw [if_neg h8, hstep, u64_of_lt (by omega)]
        exact ih (by omega) (by omega) (by omega) (by omega) hrun'
    · rw [if_neg hfull]
      have hstop : MaxRun (bitAt bm) (flagBit clearOrSet) a n c := by
        refine ⟨Nat.le_of_lt hlt, hrun, fun _ => ?_⟩
        have hbit := other_byte hf hmix hfull
        rwa [← hpos, ← Nat.add_zero (loc * 8), bitAt_byte bm loc (by decide)]
      have hend := hL.unique hstop
      subst hend
      have hdiv : (a + c) / 8 * 8 - a = c := by omega
      have hmod : (a + c) % 8 = 0 := by omega
      rw [tailCount, if_neg (by omega), hdiv, hmod, Nat.zero_min]
      exact ⟨_, rfl⟩

/-- The count of the first byte of an extent. -/
theorem run_of_head {m : Nat} (h0 : 0 < m) (h8 : a % 8 + m ≤ 8) :
    MaxRun (bitAt bm) (flagBit clearOrSet) a m (byteCountBits (a % 8) m (bm (a / 8)) clearOrSet) := by
  have hpos : a / 8 * 8 + a % 8 = a := by omega
  have hmax := byteCountBits_run (a % 8) m (bm (a / 8)) clearOrSet h0 (Nat.mod_lt _ (by decide))
  rw [Nat.min_eq_left (by omega)] at hmax
  have hle := hmax.le
  have hrun := Run.byte hmax.run (by omega)
  rw [hpos] at hrun
  refine ⟨hle, hrun, fun hlt => ?_⟩
  have hstop := hmax.stop hlt
  generalize byteCountBits (a % 8) m (bm (a / 8)) clearOrSet = k at hle hstop hlt ⊢
  have hk : a + k = a / 8 * 8 + (a % 8 + k) := by omega
  rwa [hk, bitAt_byte bm _ (by omega)]

/-- From 2^63 bits on, an extent that starts on a byte boundary is counted by its first byte. -/
theorem countBytes_huge (hf : clearOrSet = CLEARBIT ∨ clearOrSet = SETBIT) (ha : a % 8 = 0) (hn : a + n < 2 ^ 64)
    (h63 : 2 ^ 63 ≤ n) (fuel : Nat) (hL : MaxRun (bitAt bm) (flagBit clearOrSet) a n L) :
    ∃ reads', countBytes bm n clearOrSet (fuel + 1) (a / 8) 0 (i64 n) [] =
      some ⟨0, if 8 ≤ L then n else min L (i32 n).toNat, reads'⟩ := by
  have hpos : a / 8 * 8 = a + 0 := by omega
  have hneg : i64 (n : Int) ≤ 8 := by unfold i64; omega
  unfold countBytes
  rw [if_pos (by omega)]
  dsimp only
  have ht := runLength_max (bm (a / 8)).getLsbD (flagBit clearOrSet) 0 8
  generalize runLength (bm (a / 8)).getLsbD (flagBit clearOrSet) 0 8 = t at ht
  have ht8 := ht.le
  have hbyte := run_of_byte bm hpos Run.zero ht
  rw [Nat.zero_add, Nat.zero_add] at hbyte
  have hlen : t = min L 8 := (hL.cut (by omega)).unique hbyte
  by_cases hmix : bm (a / 8) ≠ 0xff ∧ bm (a / 8) ≠ 0x00
  · rw [if_pos hmix, byteCountBits_min ht, i32_i64]
    have hne : t ≠ 8 := fun h => mixed_not_run hmix (h ▸ ht.run)
    rw [if_neg (by omega), u64_of_lt (by omega)]
    have hLt : L = t := by omega
    exact ⟨_, by rw [Nat.zero_add, hLt]⟩
  rw [if_neg hmix]
  by_cases hfull : (clearOrSet = 1 ∧ bm (a / 8) = 0xff) ∨ (clearOrSet = 0 ∧ bm (a / 8) = 0x00)
  · have h8 : t = 8 := (Run.max (full_byte hfull)).unique ht
    rw [if_pos hfull, if_pos hneg, if_pos (by omega)]
    exact ⟨_, rfl⟩
  · have hstop : MaxRun (bm (a / 8)).getLsbD (flagBit clearOrSet) 0 8 0 :=
      ⟨Nat.zero_le _, Run.zero, fun _ => other_byte hf hmix hfull⟩
    have h0 := hstop.unique ht
    have hL0 : L = 0 := by omega
    rw [if_neg hfull, if_neg (by omega), hL0, Nat.zero_min]
    exact ⟨_, rfl⟩

/-- What every accepted call stores. -/
theorem bmCount_exact (ht : totalBits < 2 ^ 64) (ha : a < totalBits) (hn : a + n ≤ totalBits)
    (hf : clearOrSet = CLEARBIT ∨ clearOrSet = SETBIT) (hL : MaxRun (bitAt bm) (flagBit clearOrSet) a n L) :
    ∃ reads, bmCount bm totalBits a n clearOrSet = some ⟨0, countValue a n L, reads⟩ := by
  have hle := hL.le
  have hok : ¬ (totalBits ≤ a ∨ totalBits < u64 (a + n)) := by rw [u64_of_lt (by omega)]; omega
  have hsum : u64 (a % 8 + n) = a % 8 + n := u64_of_lt (by omega)
  rw [bmCount, if_neg hok]
  by_cases h0 : n = 0
  · subst h0
    have hL0 : L = 0 := by omega
    rw [if_pos rfl, hL0]
    unfold countValue tailCount
    rw [if_pos (by omega), if_pos rfl, ite_self]
    exact ⟨_, rfl⟩
  rw [if_neg h0]
  dsimp only
  rw [hsum]
  by_cases hal : a % 8 ≠ 0
  · have hhead : headBits a = 8 - a % 8 := by unfold headBits; omega
    obtain ⟨m, hm⟩ : ∃ m : Nat, (if 8 ≤ a % 8 + n then (8 : Int) - (a % 8 : Nat) else i32 n) = m ∧
        m = min n (headBits a) := by
      by_cases h8 : 8 ≤ a % 8 + n
      · rw [if_pos h8]
        exact ⟨8 - a % 8, by omega, by omega⟩
      · rw [if_neg h8]
        exact ⟨n, i32_of_lt (by omega) (by omega), by omega⟩
    obtain ⟨hm, hmin⟩ := hm
    rw [if_pos hal, hm, i64_sub]
    clear hm hok
    have hrun : MaxRun (bitAt bm) (flagBit clearOrSet) a m (byteCountBits (a % 8) m (bm (a / 8)) clearOrSet) :=
      run_of_head bm (by omega) (by omega)
    have hk := (hL.cut (m := m) (by omega)).unique hrun
    rw [hk, u64OfInt_of_nat (by omega) (by omega), Int.toNat_natCast]
    unfold countValue
    by_cases hsmall : n ≤ headBits a
    · -- The first byte holds all of the extent.
      have hzero : i64 ((n : Int) - m) ≤ 0 := by rw [i64_of_lt (by omega) (by omega)]; omega
      rw [if_pos (.inl hzero), if_pos (by omega)]
      refine ⟨[a / 8], ?_⟩
      by_cases hlt : L < headBits a
      · rw [if_pos hlt, Nat.min_eq_left (by omega)]
      · rw [if_neg hlt, tailCount, if_pos (by omega), Nat.min_eq_left (by omega)]
        congr 2
        omega
    have hmh : m = headBits a := by omega
    subst hmh
    by_cases h63 : n < 2 ^ 63 + headBits a
    · rw [if_pos h63]
      by_cases hlt : L < headBits a
      · rw [if_pos (.inr (by omega)), if_pos hlt, Nat.min_eq_left (by omega)]
        exact ⟨_, rfl⟩
      · have hpos : ¬ (i64 ((n : Int) - (headBits a : Nat)) ≤ 0 ∨ min L (headBits a) < headBits a) := by
          rw [i64_of_lt (by omega) (by omega)]
          omega
        rw [if_neg hpos, if_neg hlt, Nat.min_eq_right (by omega)]
        exact countBytes_exact bm hf (by omega) (n / 8 + 2) (by omega) (by omega) h63 (by omega)
          (hL.run.sub (Nat.le_refl a) (by omega)) hL
    · have hneg : i64 ((n : Int) - (headBits a : Nat)) ≤ 0 := by unfold i64; omega
      rw [if_pos (.inl hneg), if_neg h63, if_neg (by omega)]
      exact ⟨_, rfl⟩
  · have hhead : headBits a = 0 := by unfold headBits; omega
    rw [if_neg hal]
    unfold countValue
    rw [hhead, if_neg (Nat.not_lt_zero L), if_pos rfl]
    by_cases h63 : n < 2 ^ 63 + 0
    · have hstart : i64 (n : Int) = i64 (n - ((0 : Nat) : Int)) := by rw [Int.natCast_zero, Int.sub_zero]
      rw [if_pos h63, hstart]
      exact countBytes_exact bm hf (by omega) (n / 8 + 2) (by omega) (by omega) h63 (by omega) Run.zero hL
    · rw [if_neg h63]
      exact countBytes_huge bm hf (by omega) (by omega) (by omega) (n / 8 + 1) hL

end

/-! ## Where the value is the run -/

/-- The run ends in the first byte, or is all of the extent, or the byte where it ends has no more
    bits of it than the `int` of what is pending there. -/
def CountExact (a n L : Nat) : Prop :=
  L < headBits a ∨
  n < 2 ^ 63 + headBits a ∧ (L = n ∨ (a + L) % 8 ≤ (i32 (n - ((a + L) / 8 * 8 - a : Nat))).toNat) ∨
  2 ^ 63 + headBits a ≤ n ∧ (L = headBits a ∨ headBits a = 0 ∧ (L = n ∨ L < 8 ∧ L ≤ (i32 n).toNat))

/-- The run `r` of the zeros is not taken for all of the extent, or the other way round. -/
def GrowExact (a n r : Nat) : Prop := n < 2 ^ 63 + headBits a ∨ if headBits a = 0 then r = n ∨ r < 8 else r ≠ n

section
variable {a n L r : Nat}

theorem headBits_le (a : Nat) : headBits a < 8 ∧ (a + headBits a) % 8 = 0 := by
  unfold headBits
  omega

theorem countValue_eq_iff (hL : L ≤ n) : countValue a n L = L ↔ CountExact a n L := by
  obtain ⟨hhead, hmod⟩ := headBits_le a
  unfold countValue CountExact tailCount
  generalize headBits a = s at hhead hmod
  generalize (i32 (n - ((a + L) / 8 * 8 - a : Nat))).toNat = k
  generalize (i32 n).toNat = k'
  by_cases h63 : n < 2 ^ 63 + s
  · rw [if_pos h63]
    by_cases hs : L < s
    · rw [if_pos hs]
      exact iff_of_true rfl (.inl hs)
    · rw [if_neg hs]
      by_cases hall : L = n
      · rw [if_pos hall]
        exact iff_of_true hall.symm (.inr (.inl ⟨h63, .inl hall⟩))
      · rw [if_neg hall]
        omega
  · rw [if_neg h63]
    by_cases hs : s = 0
    · rw [if_pos hs]
      by_cases h8 : 8 ≤ L
      · rw [if_pos h8]
        omega
      · rw [if_neg h8]
        omega
    · rw [if_neg hs]
      omega

theorem countExact_zero (a n : Nat) : CountExact a n 0 := by
  obtain ⟨hhead, hmod⟩ := headBits_le a
  unfold CountExact
  by_cases hs : 0 < headBits a
  · exact .inl hs
  · by_cases h63 : n < 2 ^ 63 + headBits a
    · refine .inr (.inl ⟨h63, .inr ?_⟩)
      have h0 : (a + 0) % 8 = 0 := by omega
      rw [h0]
      exact Nat.zero_le _
    · exact .inr (.inr ⟨by omega, .inl (by omega)⟩)

theorem growExact_iff (h0 : 0 < n) (hr : r ≤ n) : (countValue a n r = n ↔ r = n) ↔ GrowExact a n r := by
  obtain ⟨hhead, hmod⟩ := headBits_le a
  unfold countValue GrowExact tailCount
  generalize headBits a = s at hhead hmod
  generalize (i32 (n - ((a + r) / 8 * 8 - a : Nat))).toNat = k
  generalize (i32 n).toNat = k'
  by_cases h63 : n < 2 ^ 63 + s
  · rw [if_pos h63]
    refine iff_of_true ?_ (.inl h63)
    by_cases hs : r < s
    · rw [if_pos hs]
    · rw [if_neg hs]
      by_cases hall : r = n
      · rw [if_pos hall]
        exact iff_of_true rfl hall
      · rw [if_neg hall]
        omega
  · rw [if_neg h63, or_iff_right h63]
    by_cases hs : s = 0
    · rw [if_pos hs, if_pos hs]
      by_cases h8 : 8 ≤ r
      · rw [if_pos h8]
        omega
      · rw [if_neg h8]
        omega
    · rw [if_neg hs, if_neg hs]
      omega

end

/-! ## The answer of `bm_extent_can_grow` -/

/-- The code that the `n` bits from `a` call for. -/
inductive GrowCode (f : Nat → Bool) (a n : Nat) : Int → Prop
  | grows (k : Nat) : k < n → Run f true a k → Run f false (a + k) (n - k) → GrowCode f a n 0
  | full : Run f true a n → GrowCode f a n (-3)
  | taken (j : Nat) : f a = false → j < n → f (a + j) = true → GrowCode f a n (-2)
  | broken (i j : Nat) : f a = true → i < j → j < n → f (a + i) = false → f (a + j) = true → GrowCode f a n (-5)

/-- The same code by the run of the first bit and the zeros behind it. -/
def patternCode (f : Nat → Bool) (a n : Nat) : Int :=
  let L := runLength f (f a) a n
  if f a then if L = n then -3 else if runLength f false (a + L) (n - L) = n - L then 0 else -5
  else if L = n then 0 else -2

section
variable {f : Nat → Bool} {a n : Nat} {rc rc' : Int}

theorem GrowCode.unique (h0 : 0 < n) (h : GrowCode f a n rc) (h' : GrowCode f a n rc') : rc' = rc := by
  cases h with
  | grows k hk hones hzeros =>
    have hz : ∀ j, k ≤ j → j < n → f (a + j) = false := fun j h1 h2 => hzeros (a + j) (by omega) (by omega)
    have ho : ∀ j, j < k → f (a + j) = true := fun j h => hones (a + j) (by omega) (by omega)
    cases h' with
    | grows => rfl
    | full hall => exact absurd ((hz k (Nat.le_refl k) hk).symm.trans (hall (a + k) (by omega) (by omega))) (by decide)
    | taken j ha hj hset =>
      rcases Nat.lt_or_ge j k with hlt | hge
      · exact absurd (ha.symm.trans (ho 0 (by omega))) (by decide)
      · exact absurd ((hz j hge hj).symm.trans hset) (by decide)
    | broken i j _ hij hj hi hset =>
      rcases Nat.lt_or_ge j k with hlt | hge
      · exact absurd (hi.symm.trans (ho i (by omega))) (by decide)
      · exact absurd ((hz j hge hj).symm.trans hset) (by decide)
  | full hall =>
    have ho : ∀ j, j < n → f (a + j) = true := fun j h => hall (a + j) (by omega) (by omega)
    cases h' with
    | grows k hk _ hzeros => exact absurd ((hzeros (a + k) (by omega) (by omega)).symm.trans (ho k hk)) (by decide)
    | full => rfl
    | taken j ha => exact absurd (ha.symm.trans (ho 0 h0)) (by decide)
    | broken i j _ hij hj hi => exact absurd (hi.symm.trans (ho i (by omega))) (by decide)
  | taken j ha hj hset =>
    cases h' with
    | grows k hk hones hzeros =>
      rcases Nat.lt_or_ge j k with hlt | hge
      · exact absurd (ha.symm.trans (hones a (Nat.le_refl a) (by omega))) (by decide)
      · exact absurd ((hzeros (a + j) (by omega) (by omega)).symm.trans hset) (by decide)
    | full hall => exact absurd (ha.symm.trans (hall a (Nat.le_refl a) (by omega))) (by decide)
    | taken => rfl
    | broken _ _ ha' => exact absurd (ha.symm.trans ha') (by decide)
  | broken i j ha hij hj hi hset =>
    cases h' with
    | grows k hk hones hzeros =>
      rcases Nat.lt_or_ge j k with hlt | hge
      · exact absurd (hi.symm.trans (hones (a + i) (by omega) (by omega))) (by decide)
      · exact absurd ((hzeros (a + j) (by omega) (by omega)).symm.trans hset) (by decide)
    | full hall => exact absurd (hi.symm.trans (hall (a + i) (by omega) (by omega))) (by decide)
    | taken _ ha' => exact absurd (ha'.symm.trans ha) (by decide)
    | broken => rfl

theorem patternCode_calls (f : Nat → Bool) (a : Nat) (h0 : 0 < n) : GrowCode f a n (patternCode f a n) := by
  have hL := runLength_max f (f a) a n
  unfold patternCode
  dsimp only
  generalize runLength f (f a) a n = L at hL
  have hle := hL.le
  -- The bit that ends the run has the other value.
  have hpos : 0 < L := by
    by_contra hno
    have h := hL.stop (by omega)
    rw [show L = 0 by omega] at h
    exact h rfl
  cases hb : f a with
  | true =>
    rw [hb] at hL
    rw [if_pos rfl]
    by_cases hall : L = n
    · rw [if_pos hall]
      exact .full (hall ▸ hL.run)
    rw [if_neg hall]
    have hstop : f (a + L) = false := by simpa using hL.stop (by omega)
    have hr := runLength_max f false (a + L) (n - L)
    generalize runLength f false (a + L) (n - L) = r at hr
    by_cases hrest : r = n - L
    · rw [if_pos hrest]
      exact .grows L (by omega) hL.run (hrest ▸ hr.run)
    · rw [if_neg hrest]
      have hset : f (a + L + r) = true := by simpa using hr.stop (by have := hr.le; omega)
      have hr0 : 0 < r := by
        by_contra hno
        rw [show r = 0 by omega, Nat.add_zero, hstop] at hset
        cases hset
      exact .broken L (L + r) hb (by omega) (by have := hr.le; omega) hstop (by rw [← Nat.add_assoc]; exact hset)
  | false =>
    rw [hb] at hL
    rw [if_neg (by decide)]
    by_cases hall : L = n
    · rw [if_pos hall]
      exact .grows 0 h0 Run.zero (by rw [Nat.add_zero, Nat.sub_zero]; exact hall ▸ hL.run)
    · rw [if_neg hall]
      exact .taken L hb (by omega) (by simpa using hL.stop (by omega))

theorem growCode_iff (h0 : 0 < n) : GrowCode f a n rc ↔ rc = patternCode f a n := by
  constructor
  · exact fun h => (patternCode_calls f a h0).unique h0 h
  · intro h
    rw [h]
    exact patternCode_calls f a h0

end

section
variable (bm : Mem) {totalBits a n : Nat}

/-- What every accepted call answers. -/
theorem bmExtentCanGrow_exact (ht : totalBits < 2 ^ 64) (ha : a < totalBits) (hn : a + n ≤ totalBits) (h0 : 0 < n)
    {L0 L1 : Nat} (hL0 : MaxRun (bitAt bm) false a n L0) (hL1 : MaxRun (bitAt bm) true a n L1) :
    ∃ reads, bmExtentCanGrow bm totalBits a n = some
      (if 0 < countValue a n L0 then if countValue a n L0 = n then 0 else -2
        else if countValue a n L1 = n then -3
        else if countValue a n L1 = 0 then -4
        else if n - countValue a n L1 = countValue (a + countValue a n L1) (n - countValue a n L1)
            (runLength (bitAt bm) false (a + countValue a n L1) (n - countValue a n L1)) then 0
        else -5, reads) := by
  have hok : ¬ (totalBits ≤ a ∨ totalBits < u64 (a + n) ∨ n = 0) := by rw [u64_of_lt (by omega)]; omega
  obtain ⟨zreads, hz⟩ := bmCount_exact bm ht ha hn (.inl rfl) hL0
  obtain ⟨oreads, ho⟩ := bmCount_exact bm ht ha hn (.inr rfl) hL1
  have hz' : bmCount bm totalBits a n 0 = some ⟨0, countValue a n L0, zreads⟩ := hz
  have ho' : bmCount bm totalBits a n 1 = some ⟨0, countValue a n L1, oreads⟩ := ho
  have hle : countValue a n L1 ≤ n := by
    obtain ⟨out, hout, -, -, hcount⟩ := bmCount_spec bm 1 ht ha hn
    rw [ho'] at hout
    rw [← Option.some.inj hout] at hcount
    exact hcount.le
  rw [bmExtentCanGrow, if_neg hok, hz']
  dsimp only [Option.bind_eq_bind, Option.bind_some]
  rw [if_neg (not_not.mpr rfl)]
  by_cases hzero : 0 < countValue a n L0
  · rw [if_pos hzero, if_pos hzero]
    exact ⟨_, rfl⟩
  rw [if_neg hzero, if_neg hzero, ho']
  dsimp only [Option.bind_some]
  rw [if_neg (not_not.mpr rfl)]
  generalize countValue a n L1 = ones at hle
  by_cases hall : ones = n
  · rw [if_pos hall, if_pos hall]
    exact ⟨_, rfl⟩
  rw [if_neg hall, if_neg hall]
  by_cases hnone : ones = 0
  · rw [if_pos hnone, if_pos hnone]
    exact ⟨_, rfl⟩
  rw [if_neg hnone, if_neg hnone]
  obtain ⟨rreads, hr⟩ : ∃ reads, bmCount bm totalBits (u64 (a + ones)) (n - ones) 0 =
      some ⟨0, countValue (a + ones) (n - ones) (runLength (bitAt bm) false (a + ones) (n - ones)), reads⟩ := by
    rw [u64_of_lt (by omega)]
    exact bmCount_exact bm ht (by omega) (by omega) (.inl rfl) (runLength_max (bitAt bm) false (a + ones) (n - ones))
  rw [hr]
  dsimp only [Option.bind_some]
  rw [if_neg (not_not.mpr rfl)]
  exact ⟨_, rfl⟩

/-- Both counts are the longest run, and the answer is the one that the bits call for. -/
structure LargeRight (totalBits a n : Nat) : Prop where
  count : ∀ clearOrSet, clearOrSet = CLEARBIT ∨ clearOrSet = SETBIT →
    ∃ out, bmCount bm totalBits a n clearOrSet = some out ∧
    out.rc = 0 ∧ IsGreatest {k | k ≤ n ∧ Run (bitAt bm) (flagBit clearOrSet) a k} out.countResult
  grow : ∃ out, bmExtentCanGrow bm totalBits a n = some out ∧ GrowCode (bitAt bm) a n out.1 ∧ out.1 ≠ -4

/-- The run of the other value is empty. -/
theorem maxRun_other {f : Nat → Bool} {v : Bool} (h : f a ≠ v) : MaxRun f v a n 0 :=
    ⟨Nat.zero_le n, Run.zero, fun _ => h⟩

/-- The counts are the longest runs when the one of the first bit's value is. -/
theorem counts_right_iff (ht : totalBits < 2 ^ 64) (ha : a < totalBits) (hn : a + n ≤ totalBits) :
    (∀ clearOrSet, clearOrSet = CLEARBIT ∨ clearOrSet = SETBIT → ∃ out, bmCount bm totalBits a n clearOrSet = some out ∧
      out.rc = 0 ∧ IsGreatest {k | k ≤ n ∧ Run (bitAt bm) (flagBit clearOrSet) a k} out.countResult) ↔
      CountExact a n (runLength (bitAt bm) (bitAt bm a) a n) := by
  have hL := runLength_max (bitAt bm) (bitAt bm a) a n
  rw [← countValue_eq_iff hL.le]
  constructor
  · intro h
    obtain ⟨flag, hflag, hbit⟩ : ∃ flag, (flag = CLEARBIT ∨ flag = SETBIT) ∧ flagBit flag = bitAt bm a := by
      cases hb : bitAt bm a with
      | false => exact ⟨CLEARBIT, .inl rfl, rfl⟩
      | true => exact ⟨SETBIT, .inr rfl, rfl⟩
    obtain ⟨out, hout, -, hgreat⟩ := h flag hflag
    obtain ⟨reads, hexact⟩ := bmCount_exact bm ht ha hn hflag (hbit.symm ▸ hL)
    rw [hexact] at hout
    rw [← Option.some.inj hout, hbit] at hgreat
    exact hgreat.unique hL.isGreatest
  · intro h clearOrSet hf
    by_cases hsame : flagBit clearOrSet = bitAt bm a
    · obtain ⟨reads, hexact⟩ := bmCount_exact bm ht ha hn hf (hsame.symm ▸ hL)
      refine ⟨_, hexact, rfl, ?_⟩
      rw [hsame]
      exact h.symm ▸ hL.isGreatest
    · have hother : MaxRun (bitAt bm) (flagBit clearOrSet) a n 0 := maxRun_other fun he => hsame he.symm
      have hzero := (countValue_eq_iff (Nat.zero_le n)).mpr (countExact_zero a n)
      obtain ⟨reads, hexact⟩ := bmCount_exact bm ht ha hn hf hother
      refine ⟨_, hexact, rfl, ?_⟩
      rw [hzero]
      exact hother.isGreatest

theorem maxRun_pos {f : Nat → Bool} {L : Nat} (h0 : 0 < n) (h : MaxRun f (f a) a n L) : 0 < L := by
  by_contra hno
  have hstop := h.stop (by omega)
  rw [show L = 0 by omega] at hstop
  exact hstop rfl

/-- A region that starts with a 0 is answered by the first count. -/
theorem grow_right_zero (ht : totalBits < 2 ^ 64) (ha : a < totalBits) (hn : a + n ≤ totalBits) (h0 : 0 < n)
    (hb : bitAt bm a = false) (hright : CountExact a n (runLength (bitAt bm) (bitAt bm a) a n)) :
    ∃ out, bmExtentCanGrow bm totalBits a n = some out ∧ GrowCode (bitAt bm) a n out.1 ∧ out.1 ≠ -4 := by
  have hL := runLength_max (bitAt bm) (bitAt bm a) a n
  have hpos := maxRun_pos h0 hL
  have hvalue := (countValue_eq_iff hL.le).mpr hright
  have hpattern : patternCode (bitAt bm) a n = if runLength (bitAt bm) (bitAt bm a) a n = n then 0 else -2 := by
    unfold patternCode
    simp [hb]
  obtain ⟨reads, hout⟩ := bmExtentCanGrow_exact bm ht ha hn h0 (hb ▸ hL) (maxRun_other (by rw [hb]; decide))
  rw [← hb, hvalue, if_pos hpos] at hout
  refine ⟨_, hout, (growCode_iff h0).mpr hpattern.symm, ?_⟩
  dsimp only
  split <;> decide

/-- A region that starts with a 1 is answered by the count of the zeros behind the ones. -/
theorem grow_right_one (ht : totalBits < 2 ^ 64) (ha : a < totalBits) (hn : a + n ≤ totalBits) (h0 : 0 < n)
    (hb : bitAt bm a = true) (hright : CountExact a n (runLength (bitAt bm) (bitAt bm a) a n)) :
    (∃ out, bmExtentCanGrow bm totalBits a n = some out ∧ GrowCode (bitAt bm) a n out.1 ∧ out.1 ≠ -4) ↔
      (runLength (bitAt bm) true a n < n → GrowExact (a + runLength (bitAt bm) true a n)
        (n - runLength (bitAt bm) true a n)
        (runLength (bitAt bm) false (a + runLength (bitAt bm) true a n) (n - runLength (bitAt bm) true a n))) := by
  have hL := runLength_max (bitAt bm) (bitAt bm a) a n
  have hpos := maxRun_pos h0 hL
  have hle := hL.le
  have hvalue := (countValue_eq_iff hle).mpr hright
  have hzero := (countValue_eq_iff (Nat.zero_le n)).mpr (countExact_zero a n)
  have hcode : ∀ rc, GrowCode (bitAt bm) a n rc ↔ rc = patternCode (bitAt bm) a n := fun rc => growCode_iff h0
  obtain ⟨reads, hout⟩ := bmExtentCanGrow_exact bm ht ha hn h0 (maxRun_other (by rw [hb]; decide)) (hb ▸ hL)
  unfold patternCode at hcode
  rw [hb] at hpos hle hvalue hcode
  dsimp only at hcode
  rw [hzero, if_neg (Nat.lt_irrefl 0), hvalue, if_neg (Nat.ne_of_gt hpos)] at hout
  rw [if_pos rfl] at hcode
  generalize runLength (bitAt bm) true a n = L at hout hcode hpos hle
  by_cases hall : L = n
  · rw [if_pos hall] at hout hcode
    exact iff_of_true ⟨_, hout, (hcode _).mpr rfl, (by decide : (-3 : Int) ≠ -4)⟩ fun hlt =>
      absurd hall (Nat.ne_of_lt hlt)
  rw [if_neg hall] at hout hcode
  have hlt : L < n := Nat.lt_of_le_of_ne hle hall
  have hr := (runLength_max (bitAt bm) false (a + L) (n - L)).le
  generalize runLength (bitAt bm) false (a + L) (n - L) = r at hout hcode hr
  have hiff := growExact_iff (a := a + L) (Nat.sub_pos_of_lt hlt) hr
  rw [hout]
  constructor
  · intro h _
    obtain ⟨out, heq, hcalls, -⟩ := h
    rw [← Option.some.inj heq] at hcalls
    have hsame := (hcode _).mp hcalls
    refine hiff.mp ?_
    by_cases hv : n - L = countValue (a + L) (n - L) r
    · refine iff_of_true hv.symm ?_
      by_contra hz
      rw [if_pos hv, if_neg hz] at hsame
      exact absurd hsame (by decide : (0 : Int) ≠ -5)
    · refine iff_of_false (fun h => hv h.symm) fun hz => ?_
      rw [if_neg hv, if_pos hz] at hsame
      exact absurd hsame (by decide : (-5 : Int) ≠ 0)
  · intro h
    have hsame := hiff.mpr (h hlt)
    refine ⟨_, rfl, (hcode _).mpr ?_, ?_⟩
    · by_cases hz : r = n - L
      · rw [if_pos (hsame.mpr hz).symm, if_pos hz]
      · rw [if_neg fun hv => hz (hsame.mp hv.symm), if_neg hz]
    · dsimp only
      split <;> decide

/-- Below 2^31 bits no count is cut off. -/
theorem countExact_small {L : Nat} (h31 : n < 2 ^ 31) (hL : L ≤ n) : CountExact a n L := by
  by_cases hs : L < headBits a
  · exact .inl hs
  refine .inr (.inl ⟨by omega, ?_⟩)
  obtain ⟨hhead, hmod⟩ := headBits_le a
  -- The byte where the run ends starts at or behind `a`.
  have hstart : a ≤ (a + L) / 8 * 8 := by omega
  rw [i32_of_lt (by omega) (by omega)]
  omega

/-- Below 2^31 bits the code is the one that the bits call for. -/
theorem bm_extent_can_grow_code (ht : totalBits < 2 ^ 64) (ha : a < totalBits) (h0 : 0 < n) (h31 : n < 2 ^ 31)
    (hn : a + n ≤ totalBits) :
    ∃ rc reads, bmExtentCanGrow bm totalBits a n = some (rc, reads) ∧
      (∀ code, GrowCode (bitAt bm) a n code ↔ code = rc) ∧
      (rc = 0 ∨ rc = -2 ∨ rc = -3 ∨ rc = -5) := by
  have hright : CountExact a n (runLength (bitAt bm) (bitAt bm a) a n) :=
    countExact_small h31 (runLength_max (bitAt bm) (bitAt bm a) a n).le
  obtain ⟨⟨rc, reads⟩, hout, hcalls, -⟩ : ∃ out, bmExtentCanGrow bm totalBits a n = some out ∧
      GrowCode (bitAt bm) a n out.1 ∧ out.1 ≠ -4 := by
    cases hb : bitAt bm a with
    | false => exact grow_right_zero bm ht ha hn h0 hb hright
    | true => exact (grow_right_one bm ht ha hn h0 hb hright).mpr fun _ => .inl (by omega)
  refine ⟨rc, reads, hout, fun code => ?_, ?_⟩
  · have hcode : rc = patternCode (bitAt bm) a n := (growCode_iff h0).mp hcalls
    rw [growCode_iff h0, hcode]
  · cases hcalls with
    | grows => exact .inl rfl
    | taken => exact .inr (.inl rfl)
    | full => exact .inr (.inr (.inl rfl))
    | broken => exact .inr (.inr (.inr rfl))

/-- A request of any size is answered right exactly when the `int` of the pending bits does not
    cut off the run of its first bit, and that of the zeros behind a run of ones is not mistaken. -/
theorem large_requests_iff (ht : totalBits < 2 ^ 64) (ha : a < totalBits) (hn : a + n ≤ totalBits) (h0 : 0 < n) :
    LargeRight bm totalBits a n ↔
      CountExact a n (runLength (bitAt bm) (bitAt bm a) a n) ∧
        (bitAt bm a = true → runLength (bitAt bm) true a n < n →
          GrowExact (a + runLength (bitAt bm) true a n) (n - runLength (bitAt bm) true a n)
            (runLength (bitAt bm) false (a + runLength (bitAt bm) true a n) (n - runLength (bitAt bm) true a n))) := by
  constructor
  · intro h
    have hright := (counts_right_iff bm ht ha hn).mp h.count
    exact ⟨hright, fun hb => (grow_right_one bm ht ha hn h0 hb hright).mp h.grow⟩
  · intro h
    obtain ⟨hright, hrest⟩ := h
    refine ⟨(counts_right_iff bm ht ha hn).mpr hright, ?_⟩
    cases hb : bitAt bm a with
    | false => exact grow_right_zero bm ht ha hn h0 hb hright
    | true => exact (grow_right_one bm ht ha hn h0 hb hright).mpr (hrest hb)

end

/-- The twelve bits from the third of two bytes: ten ones and two zeros. -/
theorem bm_extent_can_grow_code_ten :
    ∃ rc reads, bmExtentCanGrow (fun i => if i = 0 then 0xff else 0x0f) 16 2 12 = some (rc, reads) ∧
      (∀ code, GrowCode (bitAt fun i => if i = 0 then 0xff else 0x0f) 2 12 code ↔ code = rc) ∧
      (rc = 0 ∨ rc = -2 ∨ rc = -3 ∨ rc = -5) :=
  bm_extent_can_grow_code _ (by decide) (by decide) (by decide) (by decide) (by decide)

/-- Of 2^32 + 16 bits the first ten are ones, then there are four zeros: the `int` 16 shows both runs. -/
theorem large_requests_iff_shown : LargeRight (fun i => if i = 0 then 0xff else 0x0f) (2 ^ 33) 2 (2 ^ 32 + 16) := by
  have hones : runLength (bitAt fun i => if i = 0 then 0xff else 0x0f) true 2 (2 ^ 32 + 16) = 10 := by
    refine MaxRun.unique ⟨by decide, fun i h1 h2 => ?_, fun _ => by decide⟩ (runLength_max ..)
    interval_cases i <;> decide
  refine (large_requests_iff _ (by decide) (by decide) (by decide) (by decide)).mpr ⟨?_, fun _ _ => ?_⟩
  · rw [show bitAt (fun i => if i = 0 then 0xff else 0x0f) 2 = true by decide, hones]
    exact .inr (.inl ⟨by decide, .inr (by decide)⟩)
  · exact .inl (Nat.lt_of_le_of_lt (Nat.sub_le _ _) (by decide))

/-- Of 2^31 bits that start with a single one, none is counted, and of the region nothing is said. -/
theorem large_requests_mixed :
    (bmCount (fun _ => 0x01) (2 ^ 31 + 8) 0 (2 ^ 31) SETBIT).map CountOut.countResult = some 0 ∧
      bitAt (fun _ => 0x01) 0 = flagBit SETBIT ∧
      (bmExtentCanGrow (fun _ => 0x01) (2 ^ 31 + 8) 0 (2 ^ 31)).map Prod.fst = some (-4) ∧
      ¬ LargeRight (fun _ => 0x01) (2 ^ 31 + 8) 0 (2 ^ 31) := by
  have hcode : (bmExtentCanGrow (fun _ => 0x01) (2 ^ 31 + 8) 0 (2 ^ 31)).map Prod.fst = some (-4) := by decide +kernel
  refine ⟨by decide +kernel, by decide, hcode, fun h => ?_⟩
  obtain ⟨out, hout, -, hne⟩ := h.grow
  rw [hout] at hcode
  exact hne (Option.some.inj hcode)

end KanekFoundations.Map

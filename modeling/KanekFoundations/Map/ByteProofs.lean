/-
  KanekFoundations.Map.ByteProofs — one lemma for each byte-level primitive of
  `KanekFoundations.Map.Bitmap`, in terms of the byte's bits.
-/

import KanekFoundations.Lib.Runs
import KanekFoundations.Map.Bitmap

namespace KanekFoundations.Map

open KanekFoundations.Lib

/-- The value a `clear_or_set` flag stands for. -/
def flagBit (clearOrSet : Int) : Bool := clearOrSet = SETBIT

theorem one_shift_and (byte : Byte) (s : Nat) :
    (1#8 <<< s) &&& byte = if byte.getLsbD s then BitVec.twoPow 8 s else 0 := by
  have h : (1#8 <<< s) = BitVec.twoPow 8 s := rfl
  rw [h, BitVec.and_comm, BitVec.and_twoPow]
  rfl

theorem bit_test (byte : Byte) {s : Nat} (hs : s < 8) : (1#8 <<< s) &&& byte ≠ 0 ↔ byte.getLsbD s = true := by
  rw [one_shift_and]
  cases byte.getLsbD s with
  | false => simp
  | true =>
    have : BitVec.twoPow 8 s ≠ 0 := by
      intro h
      have := congrArg (·.getLsbD s) h
      simp [hs] at this
    simpa using this

theorem byteGetBit_eq (byte : Byte) {bit : Nat} (h : bit < 8) :
    byteGetBit byte bit = if byte.getLsbD bit then 1 else 0 := by
  unfold byteGetBit
  have := bit_test byte h
  rw [BitVec.and_comm] at this
  cases hb : byte.getLsbD bit with
  | false => simp [hb] at this; simp [this]
  | true => simp [hb] at this; simp [this]

/-! ## `byte_set_bits` -/

theorem setMask_bit (n start toBit : Nat) (mask : Byte) (i : Nat) (hi : i < 8) (hn : toBit ≤ start + n) (h0 : 0 < n)
    (hst : start < toBit) :
    (setMask n start toBit mask).getLsbD i = (mask.getLsbD i || decide (start ≤ i ∧ i < toBit)) := by
  induction n generalizing start mask with
  | zero => omega
  | succ n ih =>
    have hone : (mask ||| (1#8 <<< start)).getLsbD i = (mask.getLsbD i || decide (i = start)) := by
      have : (1#8 <<< start) = BitVec.twoPow 8 start := rfl
      rw [this, BitVec.getLsbD_or, BitVec.getLsbD_twoPow]
      by_cases he : i = start
      · subst he; simp [hi]
      · simp [he, Ne.symm he]
    simp only [setMask]
    split
    · rename_i h
      rw [ih _ _ (by omega) (by omega) h, hone, Bool.or_assoc]
      congr 1
      rw [← Bool.decide_or]
      exact decide_eq_decide.mpr (by omega)
    · rw [hone]
      congr 1
      exact decide_eq_decide.mpr (by omega)

theorem byteSetBits_bit (start n : Nat) (byte : Byte) (clearOrSet : Int) (h0 : 0 < n) (h8 : start + n ≤ 8) (i : Nat)
    (hi : i < 8) :
    (byteSetBits start n byte clearOrSet).getLsbD i =
      if start ≤ i ∧ i < start + n then flagBit clearOrSet else byte.getLsbD i := by
  have hn : ¬ ((n : Int) ≤ 0) := by omega
  have hto : ¬ ((8 : Int) < start + n) := by omega
  have hnat : ((start : Int) + n).toNat = start + n := by omega
  simp only [byteSetBits, hn, hto, if_false, hnat]
  have hmask := setMask_bit 8 start (start + n) 0 i hi (by omega) (by decide) (by omega)
  simp only [BitVec.ofNat_eq_ofNat, BitVec.getLsbD_zero, Bool.false_or] at hmask
  by_cases hf : clearOrSet = SETBIT
  · simp only [hf, if_true, BitVec.ofNat_eq_ofNat, BitVec.getLsbD_or, hmask, flagBit, decide_true]
    split <;> rename_i h <;> simp [h]
  · simp only [hf, if_false, BitVec.ofNat_eq_ofNat, BitVec.getLsbD_and, BitVec.getLsbD_not, hmask, hi,
      flagBit, decide_false,
      decide_true, Bool.true_and]
    split <;> rename_i h <;> simp [h]

/-! ## `byte_count_bits` -/

theorem countLoop_run (byte : Byte) (clearOrSet : Int) (n start toBit count : Nat) (hn : toBit ≤ start + n)
    (h8 : toBit ≤ 8)
    (hst : start < toBit) :
    ∃ k, countLoop byte clearOrSet n start toBit count = count + k ∧
      MaxRun byte.getLsbD (flagBit clearOrSet) start (toBit - start) k := by
  induction n generalizing start count with
  | zero => omega
  | succ n ih =>
    have htest : (if (1#8 <<< start) &&& byte ≠ 0 then clearOrSet = SETBIT else clearOrSet ≠ SETBIT) ↔
        byte.getLsbD start = flagBit clearOrSet := by
      simp only [bit_test byte (by omega : start < 8)]
      cases byte.getLsbD start <;> simp [flagBit]
    simp only [countLoop, htest]
    split
    · rename_i hbit
      have hone : Run byte.getLsbD (flagBit clearOrSet) start 1 := fun i h1 h2 => by
        rwa [show i = start by omega]
      split
      · rename_i hlt
        obtain ⟨k, hk, hmax⟩ := ih (start + 1) (count + 1) (by omega) hlt
        refine ⟨1 + k, by rw [hk]; omega, ?_⟩
        have := hone.append hmax.run
        refine ⟨by have := hmax.le; omega, this, fun h => ?_⟩
        have := hmax.stop (by omega)
        rwa [show start + (1 + k) = start + 1 + k by omega]
      · exact ⟨1, rfl, by omega, hone, by omega⟩
    · rename_i hbit
      exact ⟨0, rfl, by omega, Run.zero, fun _ => hbit⟩

theorem byteCountBits_run (start n : Nat) (byte : Byte) (clearOrSet : Int) (h0 : 0 < n) (hs : start < 8) :
    MaxRun byte.getLsbD (flagBit clearOrSet) start (min n (8 - start)) (byteCountBits start n byte clearOrSet) := by
  have hn : ¬ ((n : Int) ≤ 0) := by omega
  have hto : (if (8 : Int) < start + n then 8 else (start + n : Int)).toNat = min (start + n) 8 := by
    split <;> omega
  simp only [byteCountBits, hn, if_false, hto]
  obtain ⟨k, hk, hmax⟩ := countLoop_run byte clearOrSet 8 start (min (start + n) 8) 0 (by omega) (by omega) (by omega)
  rw [hk, Nat.zero_add]
  rwa [show min n (8 - start) = min (start + n) 8 - start by omega]

theorem byteCountBits_nonpos (start : Nat) {n : Int} (byte : Byte) (clearOrSet : Int) (h : n ≤ 0) :
    byteCountBits start n byte clearOrSet = 0 := by
  simp [byteCountBits, h]

/-- Counting never claims more than a run of at most eight bits, whatever the `int`. -/
theorem byteCountBits_sound (start : Nat) (n : Int) (byte : Byte) (clearOrSet : Int) (hs : start < 8) :
    Run byte.getLsbD (flagBit clearOrSet) start (byteCountBits start n byte clearOrSet) ∧
      byteCountBits start n byte clearOrSet ≤ 8 - start ∧ (byteCountBits start n byte clearOrSet : Int) ≤ max n 0 := by
  by_cases h : n ≤ 0
  · rw [byteCountBits_nonpos start byte clearOrSet h]
    exact ⟨Run.zero, by omega, by omega⟩
  · obtain ⟨k, rfl⟩ : ∃ k : Nat, n = k := ⟨n.toNat, by omega⟩
    have := byteCountBits_run start k byte clearOrSet (by omega) hs
    exact ⟨this.run, by have := this.le; omega, by have := this.le; omega⟩

/-! ## `byte_find_gap` -/

/-- What `byte_find_gap` says of the bits from `lo` on: where the first gap of `n` zeros
    is, or how many zeros the byte ends with. -/
inductive GapScan (f : Nat → Bool) (n lo : Nat) : Int × Nat → Prop
  | fits (a : Nat) : lo ≤ a → a + n ≤ 8 → Run f false a n → Blocked f false n lo a → GapScan f n lo (a, n)
  | none : Blocked f false n lo 8 → GapScan f n lo (-1, 0)
  | partial_ (k : Nat) : 0 < k → k < n → lo + k ≤ 8 → Run f false (8 - k) k → Blocked f false n lo (8 - k) →
      GapScan f n lo (-2, k)

theorem gapLoop_scan (byte : Byte) (n lo rem : Nat) (foundGap : Bool) (gapIndex count : Nat) (hr : rem ≤ 8)
    (hidx : gapIndex + count + rem = 8) (hlo : lo ≤ gapIndex) (hn : count < n) (hf : foundGap = decide (0 < count))
    (hrun : Run byte.getLsbD false gapIndex count) (hb : Blocked byte.getLsbD false n lo gapIndex) :
    GapScan byte.getLsbD n lo (gapLoop n byte rem foundGap gapIndex count) := by
  induction rem generalizing foundGap gapIndex count with
  | zero =>
    simp only [gapLoop, hf, decide_eq_true_eq]
    split
    · have h8 : 8 - count = gapIndex := by omega
      exact .partial_ count (by omega) hn (by omega) (h8 ▸ hrun) (h8 ▸ hb)
    · have h0 : count = 0 := by omega
      subst h0
      exact .none (by rwa [show gapIndex = 8 by omega] at hb)
  | succ rem ih =>
    have hs : 8 - (rem + 1) = gapIndex + count := by omega
    simp only [gapLoop, hs, bit_test byte (show gapIndex + count < 8 by omega)]
    split
    · rename_i hbit
      refine ih false _ 0 (by omega) (by omega) (by omega) (by omega) (by simp) Run.zero ?_
      exact hb.past (by omega) (by omega) (by simp [hbit])
    · rename_i hbit
      have hrun' : Run byte.getLsbD false gapIndex (count + 1) := hrun.append fun i h1 h2 => by
        rw [show i = gapIndex + count by omega]
        simpa using hbit
      split
      · rename_i heq
        have heq : count + 1 = n := by omega
        rw [heq] at hrun' ⊢
        exact .fits gapIndex hlo (by omega) hrun' hb
      · exact ih true gapIndex (count + 1) (by omega) (by omega) hlo (by omega) (by simp) hrun' hb

theorem byteFindGap_scan (byte : Byte) {n lo : Nat} (h0 : 0 < n) (hlo : lo < 8) :
    GapScan byte.getLsbD n lo (byteFindGap lo n byte) := by
  have hn : ¬ ((n : Int) ≤ 0) := by omega
  simp only [byteFindGap, hn, if_false]
  exact gapLoop_scan byte n lo (8 - lo) false lo 0 (by omega) (by omega) (Nat.le_refl _) h0
    (by simp) Run.zero Blocked.nil

theorem byteFindGap_nonpos (byte : Byte) {n : Int} (lo : Nat) (h : n ≤ 0) : byteFindGap lo n byte = (-1, 0) := by
  simp [byteFindGap, h]

end KanekFoundations.Map

/-
  KanekFoundations.Map.SetExtent — `bm_set_extent` writes the bits of its extent and
  nothing else (see `KanekFoundations.Map.Bitmap`).

  The partial first byte, the `memset` and the partial last byte are each a `Written`
  stretch, and adjacent stretches compose (`Written.append`).
-/

import KanekFoundations.Map.ByteProofs

namespace KanekFoundations.Map

open KanekFoundations.Lib

/-- Bit `i` of the map. -/
def bitAt (bm : Mem) (i : Nat) : Bool := (bm (i / 8)).getLsbD (i % 8)

theorem bitAt_byte (bm : Mem) (loc : Nat) {j : Nat} (hj : j < 8) : bitAt bm (loc * 8 + j) = (bm loc).getLsbD j := by
  have hdiv : (loc * 8 + j) / 8 = loc := by omega
  have hmod : (loc * 8 + j) % 8 = j := by omega
  rw [bitAt, hdiv, hmod]

theorem bmGetBit_eq (bm : Mem) {totalBits i : Nat} (h : i < totalBits) :
    bmGetBit bm totalBits i = if bitAt bm i then 1 else 0 := by
  have : ¬ totalBits ≤ i := by omega
  rw [bmGetBit, if_neg this, byteGetBit_eq _ (Nat.mod_lt _ (by decide))]
  rfl

/-- `bm'` is `bm` with the `n` bits from `a` set to `b`. -/
def Written (bm bm' : Mem) (a n : Nat) (b : Bool) : Prop :=
  ∀ i, bitAt bm' i = if a ≤ i ∧ i < a + n then b else bitAt bm i

theorem Written.zero {bm : Mem} {a : Nat} {b : Bool} : Written bm bm a 0 b := by
  intro i
  rw [if_neg (by omega)]

theorem Written.append {bm bm1 bm2 : Mem} {a m n : Nat} {b : Bool} (h1 : Written bm bm1 a m b)
    (h2 : Written bm1 bm2 (a + m) n b) : Written bm bm2 a (m + n) b := by
  intro i
  rw [h2 i, h1 i]
  split
  · rw [if_pos (by omega)]
  · split
    · rw [if_pos (by omega)]
    · rw [if_neg (by omega)]

theorem store_written (bm : Mem) (loc start n : Nat) (clearOrSet : Int) (h0 : 0 < n) (h8 : start + n ≤ 8) :
    Written bm (store bm loc (byteSetBits start n (bm loc) clearOrSet)) (loc * 8 + start) n (flagBit clearOrSet) := by
  intro i
  have hi : i % 8 < 8 := Nat.mod_lt _ (by decide)
  by_cases hloc : i / 8 = loc
  · simp only [bitAt, store, hloc, if_true, byteSetBits_bit start n _ _ h0 h8 _ hi]
    exact ite_congr (propext ⟨fun h => by omega, fun h => by omega⟩) (fun _ => rfl) fun _ => rfl
  · simp only [bitAt, store, hloc, if_false]
    rw [if_neg (by omega)]

theorem memset_written (bm : Mem) (loc n : Nat) (byte : Byte) (b : Bool) (hb : ∀ j < 8, byte.getLsbD j = b) :
    Written bm (memset bm loc n byte) (loc * 8) (n * 8) b := by
  intro i
  have hi : i % 8 < 8 := Nat.mod_lt _ (by decide)
  simp only [bitAt, memset]
  split
  · rw [hb _ hi, if_pos (by omega)]
  · rw [if_neg (by omega)]

/-- Every span lies in the bytes `[lo, hi)`. -/
def Within (touched : List Span) (lo hi : Nat) : Prop := ∀ s ∈ touched, lo ≤ s.off ∧ s.off + s.len ≤ hi

theorem Within.nil {lo hi : Nat} : Within [] lo hi := fun _ h => by cases h

theorem Within.snoc {touched : List Span} {s : Span} {lo hi : Nat} (h : Within touched lo hi) (h1 : lo ≤ s.off)
    (h2 : s.off + s.len ≤ hi) : Within (touched ++ [s]) lo hi := by
  intro t ht
  rcases List.mem_append.mp ht with ht | ht
  · exact h t ht
  · obtain rfl := List.mem_singleton.mp ht
    exact ⟨h1, h2⟩

theorem Within.mono {touched : List Span} {lo hi lo' hi' : Nat} (h : Within touched lo hi) (h1 : lo' ≤ lo)
    (h2 : hi ≤ hi') :
    Within touched lo' hi' := fun s hs => by have := h s hs; omega

/-! ## The three phases -/

theorem setLast_spec (bm : Mem) (loc n : Nat) (clearOrSet : Int) (touched : List Span) (h0 : 0 < n) (h8 : n < 8) :
    (setLast bm loc n clearOrSet touched).rc = 0 ∧
      Written bm (setLast bm loc n clearOrSet touched).bm (loc * 8) n (flagBit clearOrSet) ∧
      (setLast bm loc n clearOrSet touched).touched = touched ++ [⟨loc, 1⟩] := by
  have hmod : n % 8 = n := Nat.mod_eq_of_lt h8
  have h1 : 1 ≤ n := h0
  simp only [setLast, hmod, h1, if_true, Nat.sub_self]
  exact ⟨trivial, store_written bm loc 0 n clearOrSet h0 (by omega), trivial⟩

theorem fill_bits (clearOrSet : Int) (hf : clearOrSet = CLEARBIT ∨ clearOrSet = SETBIT) (j : Nat) (hj : j < 8) :
    (if clearOrSet = 0 then 0x00 else 0xff : Byte).getLsbD j = flagBit clearOrSet := by
  rcases hf with rfl | rfl
  · simp [CLEARBIT, flagBit, SETBIT]
  · have h : ∀ j < 8, (0xff : Byte).getLsbD j = true := by decide
    exact h j hj

theorem setWhole_touched (bm : Mem) (loc n : Nat) (clearOrSet : Int) {touched : List Span} {lo : Nat} (h0 : 0 < n)
    (hlo : lo ≤ loc) (ht : Within touched lo loc) :
    (setWhole bm loc n clearOrSet touched).rc = 0 ∧
      Within (setWhole bm loc n clearOrSet touched).touched lo (loc + (n + 7) / 8) := by
  simp only [setWhole]
  split
  · have ht1 : Within (touched ++ [⟨loc, n / 8⟩]) lo (loc + n / 8) :=
      (ht.mono (Nat.le_refl _) (by omega)).snoc hlo (Nat.le_refl _)
    split
    · exact ⟨rfl, ht1.mono (Nat.le_refl _) (by omega)⟩
    · obtain ⟨hrc, -, hl⟩ := setLast_spec (memset bm loc (n / 8) (if clearOrSet = 0 then 0x00 else 0xff)) (loc + n / 8)
        (n - n / 8 * 8) clearOrSet (touched ++ [⟨loc, n / 8⟩]) (by omega) (by omega)
      refine ⟨hrc, ?_⟩
      rw [hl]
      exact (ht1.mono (Nat.le_refl _) (by omega)).snoc (by show lo ≤ loc + n / 8; omega)
        (by show loc + n / 8 + 1 ≤ _; omega)
  · obtain ⟨hrc, -, hl⟩ := setLast_spec bm loc n clearOrSet touched h0 (by omega)
    refine ⟨hrc, ?_⟩
    rw [hl]
    exact (ht.mono (Nat.le_refl _) (by omega)).snoc hlo (by show loc + 1 ≤ _; omega)

theorem setWhole_written (bm : Mem) (loc n : Nat) (clearOrSet : Int) (touched : List Span) (h0 : 0 < n)
    (hf : clearOrSet = CLEARBIT ∨ clearOrSet = SETBIT) :
    Written bm (setWhole bm loc n clearOrSet touched).bm (loc * 8) n (flagBit clearOrSet) := by
  simp only [setWhole]
  split
  · have hfill := memset_written bm loc (n / 8) _ (flagBit clearOrSet) (fill_bits clearOrSet hf)
    split
    · rwa [show n / 8 * 8 = n by omega] at hfill
    · obtain ⟨-, hw, -⟩ := setLast_spec (memset bm loc (n / 8) (if clearOrSet = 0 then 0x00 else 0xff)) (loc + n / 8)
        (n - n / 8 * 8) clearOrSet (touched ++ [⟨loc, n / 8⟩]) (by omega) (by omega)
      rw [Nat.add_mul] at hw
      have := hfill.append hw
      rwa [show n / 8 * 8 + (n - n / 8 * 8) = n by omega] at this
  · exact (setLast_spec bm loc n clearOrSet touched h0 (by omega)).2.1

/-! ## The whole call -/

section
variable (bm : Mem) {totalBits bitAddress n : Nat} (clearOrSet : Int)

theorem bmSetExtent_refused (h : totalBits ≤ bitAddress ∨ totalBits < u64 (bitAddress + n)) :
    bmSetExtent bm totalBits bitAddress n clearOrSet = ⟨-1, bm, []⟩ := by
  rw [bmSetExtent, if_pos h]

/-- A range check that passes is followed by an answer other than -1. -/
theorem bmSetExtent_accepted (h : ¬ (totalBits ≤ bitAddress ∨ totalBits < u64 (bitAddress + n))) :
    (bmSetExtent bm totalBits bitAddress n clearOrSet).rc = 0 := by
  rw [bmSetExtent, if_neg h]
  split
  · rfl
  split
  · rw [bmSetBit, if_neg (by omega)]
  simp only []
  split
  · obtain ⟨m, hm⟩ : ∃ m, (if u64 (bitAddress % 8 + n) < 8 then n else 8 - bitAddress % 8) = m := ⟨_, rfl⟩
    rw [hm]
    split
    · rfl
    · have hfirst : Within [⟨bitAddress / 8, 1⟩] 0 (bitAddress / 8 + 1) :=
        Within.nil.snoc (Nat.zero_le _) (Nat.le_refl _)
      exact (setWhole_touched _ _ _ _ (by omega) (Nat.zero_le _) hfirst).1
  · exact (setWhole_touched _ _ _ _ (by omega) (Nat.zero_le _) Within.nil).1

/-- The bytes accessed are those with a bit of the extent. -/
theorem bmSetExtent_touched (ht : bitAddress + n < 2 ^ 64) :
    Within (bmSetExtent bm totalBits bitAddress n clearOrSet).touched (bitAddress / 8) ((bitAddress + n + 7) / 8) := by
  unfold bmSetExtent
  split
  · exact Within.nil
  split
  · exact Within.nil
  split
  · unfold bmSetBit
    split
    · exact Within.nil
    · exact Within.nil.snoc (Nat.le_refl _) (by show bitAddress / 8 + 1 ≤ _; omega)
  have hsum : u64 (bitAddress % 8 + n) = bitAddress % 8 + n := u64_of_lt (by omega)
  simp only [hsum]
  split
  · have h1 : Within [⟨bitAddress / 8, 1⟩] (bitAddress / 8) (bitAddress / 8 + 1) :=
      Within.nil.snoc (Nat.le_refl _) (Nat.le_refl _)
    obtain ⟨m, hm⟩ : ∃ m, (if bitAddress % 8 + n < 8 then n else 8 - bitAddress % 8) = m := ⟨_, rfl⟩
    have hm0 : m < n → bitAddress % 8 + m = 8 := by rw [← hm]; split <;> omega
    rw [hm]
    split
    · exact h1.mono (Nat.le_refl _) (by omega)
    · exact ((setWhole_touched _ (bitAddress / 8 + 1) _ clearOrSet (by omega) (by omega) h1).2).mono (Nat.le_refl _)
        (by omega)
  · exact ((setWhole_touched _ (bitAddress / 8) _ clearOrSet (by omega) (Nat.le_refl _) Within.nil).2).mono
      (Nat.le_refl _) (by omega)

theorem bmSetExtent_written (h1 : bitAddress < totalBits) (h2 : bitAddress + n ≤ totalBits) (ht : totalBits < 2 ^ 64)
    (hf : clearOrSet = CLEARBIT ∨ clearOrSet = SETBIT) :
    Written bm (bmSetExtent bm totalBits bitAddress n clearOrSet).bm bitAddress n (flagBit clearOrSet) := by
  have hok : ¬ (totalBits ≤ bitAddress ∨ totalBits < u64 (bitAddress + n)) := by
    rw [u64_of_lt (by omega)]; omega
  have hsum : u64 (bitAddress % 8 + n) = bitAddress % 8 + n := u64_of_lt (by omega)
  have hpos : bitAddress / 8 * 8 + bitAddress % 8 = bitAddress := by omega
  rw [bmSetExtent, if_neg hok]
  split
  · rename_i h0
    rw [h0]
    exact Written.zero
  split
  · rename_i h1'
    rw [bmSetBit, if_neg (by omega), h1']
    have := store_written bm (bitAddress / 8) (bitAddress % 8) 1 clearOrSet (by decide) (by omega)
    rwa [hpos] at this
  simp only [hsum]
  split
  · -- The first byte takes `m` bits.
    obtain ⟨m, hm⟩ : ∃ m, (if bitAddress % 8 + n < 8 then n else 8 - bitAddress % 8) = m := ⟨_, rfl⟩
    have hm0 : 0 < m ∧ bitAddress % 8 + m ≤ 8 ∧ m ≤ n ∧ (m < n → bitAddress % 8 + m = 8) := by
      rw [← hm]; split <;> omega
    rw [hm, i32_of_lt (by omega) (by omega)]
    have hfirst := store_written bm (bitAddress / 8) (bitAddress % 8) m clearOrSet hm0.1 hm0.2.1
    rw [hpos] at hfirst
    split
    · have hmn : m = n := by omega
      rw [hmn] at hfirst ⊢
      exact hfirst
    · have hrest :=
        setWhole_written (store bm (bitAddress / 8) (byteSetBits (bitAddress % 8) m (bm (bitAddress / 8)) clearOrSet))
        (bitAddress / 8 + 1) (n - m) clearOrSet [⟨bitAddress / 8, 1⟩] (by omega) hf
      rw [show (bitAddress / 8 + 1) * 8 = bitAddress + m by omega] at hrest
      have := hfirst.append hrest
      rwa [show m + (n - m) = n by omega] at this
  · have := setWhole_written bm (bitAddress / 8) n clearOrSet [] (by omega) hf
    rwa [show bitAddress / 8 * 8 = bitAddress by omega] at this

end

end KanekFoundations.Map

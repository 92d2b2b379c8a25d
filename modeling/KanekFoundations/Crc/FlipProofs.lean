/-
  KanekFoundations.Crc.FlipProofs — which flipped bits `kfl_crc32c_verify` finds on the
  hardware paths (see `KanekFoundations.Crc.Crc32c`).

  A struct that verifies leaves a fixed word in the register once its own checksum is fed
  too, so one of the same length verifies exactly when their difference has syndrome zero
  (`verify_syndrome`).

  Proved, for structs of every length and every intrinsic that does what it is documented to,
  on a build that loads little-endian words (`verify_odd` on any):
  - `verify_burst`: bits flipped within 32 consecutive ones are found, at any alignment;
  - `verify_odd`: an odd number of flipped bits is found, wherever they are;
  - `verify_two`: two flipped bits are missed exactly when their distance is a multiple of
    `2 ^ 31 - 1`, so never in a struct below 256 MiB.
-/

import KanekFoundations.Crc.Crc32cProofs
import KanekFoundations.Lib.Syndrome

namespace KanekFoundations.Crc

open KanekFoundations.Lib KanekFoundations.Lib.ShiftRegister

/-- The bits of a buffer in the order the register takes them. -/
def bits (buf : List Byte) : List Bool := buf.flatMap bitsOf

/-- Where two buffers of one length differ. -/
def flips (s s' : List Byte) : List Bool := List.zipWith (· ^^ ·) (bits s) (bits s')

variable {path : Path} {s s' : List Byte}

theorem bits_length (s : List Byte) : (bits s).length = 8 * s.length := by
  induction s with
  | nil => rfl
  | cons x s ih =>
    show (bitsOf x ++ bits s).length = _
    rw [List.length_append, ih, List.length_cons]
    simp [bitsOf]
    omega

theorem flips_cons (x y : Byte) (s s' : List Byte) :
    flips (x :: s) (y :: s') = List.zipWith (· ^^ ·) (bitsOf x) (bitsOf y) ++ flips s s' :=
  List.zipWith_append (by simp [bitsOf])

theorem eq_of_no_flip (hlen : s'.length = s.length) (h : true ∉ flips s s') : s' = s := by
  induction s generalizing s' with
  | nil => exact List.eq_nil_of_length_eq_zero hlen
  | cons x s ih =>
    cases s' with
    | nil => cases hlen
    | cons y s' =>
      rw [flips_cons, List.mem_append, not_or] at h
      have hbyte : y = x := by
        refine BitVec.eq_of_getLsbD_eq fun i hi => ?_
        by_contra hne
        refine h.1 (List.mem_iff_getElem.mpr ⟨i, by simp [bitsOf, hi], ?_⟩)
        simp only [bitsOf, List.getElem_zipWith, List.getElem_map, List.getElem_range]
        cases hx : x.getLsbD i <;> cases hy : y.getLsbD i <;> simp_all
      rw [hbyte, ih (Nat.succ.inj hlen) h.2]

/-! ## The syndrome -/

theorem poly_top : poly.getLsbD (32 - 1) = true := by decide

/-- A struct verifies when its last four bytes are the checksum of those before them. -/
theorem verify_split : kflCrc32cVerify path (some s) = 1 ↔
    ∃ q t : List Byte, s = q ++ t ∧ t.length = 4 ∧ kflCrc32c path 0 q = leWord 32 t := by
  have haccept : ∀ q t : List Byte, t.length = 4 →
      (kflCrc32cVerify path (some (q ++ t)) = 1 ↔ kflCrc32c path 0 q = leWord 32 t) := by
    intro q t ht
    rw [verify_eq path q t ht, (show (1 : Int) ≠ 0 by decide).ite_eq_left_iff]
  constructor
  · intro h
    have hlen : 4 ≤ s.length := by
      by_contra hshort
      have hreject : kflCrc32cVerify path (some s) = 0 := if_pos (by omega)
      rw [hreject] at h
      cases h
    refine ⟨s.take (s.length - 4), s.drop (s.length - 4), (List.take_append_drop _ _).symm, by simp; omega, ?_⟩
    rwa [← haccept _ _ (by simp; omega), List.take_append_drop]
  · rintro ⟨q, t, rfl, ht, hsum⟩
    exact (haccept q t ht).mpr hsum

theorem verify_residue (hp : path.BitSerial) (hl : path.LittleLoads) (hw : path.hardware = true) :
    kflCrc32cVerify path (some s) = 1 ↔ 4 ≤ s.length ∧ feed poly 0xFFFFFFFF s = steps poly 32 0xFFFFFFFF := by
  have hfield : ∀ q t : List Byte, t.length = 4 →
      (feed poly 0xFFFFFFFF (q ++ t) = steps poly 32 0xFFFFFFFF ↔ kflCrc32c path 0 q = leWord 32 t) := by
    intro q t ht
    have hsum : kflCrc32c path 0 q = feed poly 0xFFFFFFFF q ^^^ 0xFFFFFFFF := by
      rw [hw_bit_serial hp hl hw]
      rfl
    rw [feed_append, ← word_feed _ t ht, (steps_injective poly_top 32).eq_iff, hsum]
    generalize feed poly 0xFFFFFFFF q = c, leWord 32 t = d
    refine ⟨fun h => ?_, fun h => ?_⟩
    · rw [← h, ← BitVec.xor_assoc, BitVec.xor_self, BitVec.zero_xor]
    · rw [← h, ← BitVec.xor_assoc, BitVec.xor_self, BitVec.zero_xor]
  rw [verify_split]
  constructor
  · rintro ⟨q, t, rfl, ht, hsum⟩
    exact ⟨by simp [ht], (hfield q t ht).mpr hsum⟩
  · rintro ⟨hlen, hword⟩
    have ht : (s.drop (s.length - 4)).length = 4 := by
      rw [List.length_drop]
      omega
    refine ⟨s.take (s.length - 4), s.drop (s.length - 4), (List.take_append_drop _ _).symm, ht, ?_⟩
    rwa [← hfield _ _ ht, List.take_append_drop]

theorem verify_syndrome (hp : path.BitSerial) (hl : path.LittleLoads) (hw : path.hardware = true)
    (hs : kflCrc32cVerify path (some s) = 1) (hlen : s'.length = s.length) :
    kflCrc32cVerify path (some s') = 1 ↔ feedBits poly 0 (flips s s') = 0 := by
  obtain ⟨hfour, hword⟩ := (verify_residue hp hl hw).mp hs
  have hxor : feedBits poly 0 (flips s s') = feed poly 0xFFFFFFFF s ^^^ feed poly 0xFFFFFFFF s' := by
    rw [feed_bits poly (by decide), feed_bits poly (by decide)]
    exact feedBits_xor poly 0xFFFFFFFF 0xFFFFFFFF ((bits_length s).trans (hlen ▸ (bits_length s').symm))
  rw [verify_residue hp hl hw, hxor, hword, hlen]
  refine ⟨fun h => ?_, fun h => ⟨hfour, ?_⟩⟩
  · rw [h.2]
    exact BitVec.xor_self
  · exact (BitVec.xor_eq_zero_iff.mp h).symm

theorem verify_rejects (h : kflCrc32cVerify path (some s) ≠ 1) : kflCrc32cVerify path (some s) = 0 := by
  unfold kflCrc32cVerify at h ⊢
  dsimp only at h ⊢
  split <;> simp_all

/-! ## Bursts -/

theorem clear_replicate {bs : List Bool} (h : true ∉ bs) : bs = List.replicate bs.length false := by
  refine List.eq_replicate_iff.mpr ⟨rfl, fun b hb => ?_⟩
  cases b with
  | false => rfl
  | true => exact absurd hb h

theorem clear_take {bs : List Bool} {n : Nat} (h : ∀ i < n, bs[i]? ≠ some true) : true ∉ bs.take n := by
  intro hmem
  obtain ⟨i, hi⟩ := List.mem_iff_getElem?.mp hmem
  by_cases hin : i < n
  · rw [List.getElem?_take_of_lt hin] at hi
    exact h i hin hi
  · rw [List.getElem?_take_eq_none (by omega)] at hi
    cases hi

theorem clear_drop {bs : List Bool} {n : Nat} (h : ∀ i, n ≤ i → bs[i]? ≠ some true) : true ∉ bs.drop n := by
  intro hmem
  obtain ⟨i, hi⟩ := List.mem_iff_getElem?.mp hmem
  rw [List.getElem?_drop] at hi
  exact h (n + i) (Nat.le_add_right n i) hi

/-- Bits flipped within 32 consecutive ones are found. -/
theorem verify_burst (hp : path.BitSerial) (hl : path.LittleLoads) (hw : path.hardware = true)
    (hs : kflCrc32cVerify path (some s) = 1) (hlen : s'.length = s.length) (hne : s' ≠ s) {k : Nat}
    (hwin : ∀ i, (flips s s')[i]? = some true → k ≤ i ∧ i < k + 32) : kflCrc32cVerify path (some s') = 0 := by
  refine verify_rejects fun h => ?_
  have hzero := (verify_syndrome hp hl hw hs hlen).mp h
  generalize hflips : flips s s' = es at hwin hzero
  have hcut : es = es.take k ++ ((es.drop k).take 32 ++ (es.drop k).drop 32) := by simp
  have hbefore : true ∉ es.take k := clear_take fun i hi h => by
    have := hwin i h
    omega
  have hafter : true ∉ (es.drop k).drop 32 := by
    rw [List.drop_drop]
    refine clear_drop fun i hi h => ?_
    have := hwin i h
    omega
  have hin : true ∈ (es.drop k).take 32 := by
    by_contra hout
    refine hne (eq_of_no_flip hlen ?_)
    rw [hflips, hcut]
    simp only [List.mem_append, not_or]
    exact ⟨hbefore, hout, hafter⟩
  rw [hcut, clear_replicate hbefore, clear_replicate hafter] at hzero
  exact syndrome_burst poly_top _ _ (by simp) hin hzero

/-- Twenty-six bits over five bytes, from the top of the first to the low end of the last. -/
theorem verify_burst_straddling :
    kflCrc32cVerify (.x86 serialX86 true) (some [0x81, 0, 0, 0, 1, 6, 7, 8, 9, 132, 208, 200, 26]) = 0 := by
  have hs : kflCrc32cVerify (.x86 serialX86 true) (some [1, 0, 0, 0, 0, 6, 7, 8, 9, 132, 208, 200, 26]) = 1 := by
    decide +kernel
  have hwin : ∀ i < 104, (flips [1, 0, 0, 0, 0, 6, 7, 8, 9, 132, 208, 200, 26]
      [0x81, 0, 0, 0, 1, 6, 7, 8, 9, 132, 208, 200, 26])[i]? = some true → 7 ≤ i ∧ i < 39 := by
    decide +kernel
  exact verify_burst serialX86_bitSerial trivial rfl hs rfl (by decide) (k := 7) fun i hi =>
    hwin i (List.getElem?_eq_some_iff.mp hi).1 hi

/-! ## Odd numbers of bits -/

theorem poly_odd : parity poly = true := by decide

theorem bits_perm (h : s.Perm s') : (bits s).Perm (bits s') := h.flatMap_right bitsOf

/-- The bits of a struct that verifies are even in number, whatever the order of the loads. -/
theorem verify_even (hp : path.BitSerial) (hw : path.hardware = true) (hs : kflCrc32cVerify path (some s) = 1) :
    parityOf (bits s) = false := by
  obtain ⟨q, t, rfl, ht, hsum⟩ := verify_split.mp hs
  have hq : parity (kflCrc32c path 0 q) = parityOf (bits q) := by
    have hones : parity (0xFFFFFFFF : BitVec 32) = false := by decide
    calc parity (kflCrc32c path 0 q)
        = parity (feed poly 0xFFFFFFFF (path.fed q) ^^^ 0xFFFFFFFF) := congrArg parity (hw_fed hp hw 0 q)
      _ = parityOf (bits (path.fed q)) := by
        rw [parity_xor, parity_feed poly_odd (by decide), hones, Bool.false_xor, Bool.xor_false]
        rfl
      _ = parityOf (bits q) := parityOf_perm (bits_perm (path.fed_perm q))
  have hword : parity (leWord 32 t) = parityOf (bits t) := by
    have hbits := bits_leWord (by decide) 32 t (by omega)
    rw [ht] at hbits
    exact congrArg parityOf hbits
  rw [bits, List.flatMap_append, parityOf_append]
  show (parityOf (bits q) ^^ parityOf (bits t)) = false
  rw [← hq, ← hword, hsum, Bool.xor_self]

/-- An odd number of flipped bits is found, on a big-endian build too. -/
theorem verify_odd (hp : path.BitSerial) (hw : path.hardware = true) (hs : kflCrc32cVerify path (some s) = 1)
    (hlen : s'.length = s.length) (hodd : (flips s s').count true % 2 = 1) :
    kflCrc32cVerify path (some s') = 0 := by
  refine verify_rejects fun h => ?_
  have hflips : parityOf (flips s s') = (parityOf (bits s) ^^ parityOf (bits s')) :=
    parityOf_zipWith (by rw [bits_length, bits_length, hlen])
  rw [verify_even hp hw hs, verify_even hp hw h, parityOf_count, decide_eq_true hodd] at hflips
  cases hflips

/-- Three bits far apart in a payload of eight bytes, on either byte order. -/
theorem verify_odd_three :
    kflCrc32cVerify (.arm serialArm true .little) (some [0, 2, 3, 4, 4, 6, 7, 8, 129, 31, 137, 198]) = 0 ∧
      kflCrc32cVerify (.arm serialArm true .big) (some [0, 2, 3, 4, 4, 6, 7, 8, 28, 2, 249, 166]) = 0 := by
  have hlittle : kflCrc32cVerify (.arm serialArm true .little)
      (some [1, 2, 3, 4, 5, 6, 7, 8, 129, 31, 137, 70]) = 1 := by decide +kernel
  have hbig : kflCrc32cVerify (.arm serialArm true .big)
      (some [1, 2, 3, 4, 5, 6, 7, 8, 28, 2, 249, 38]) = 1 := by decide +kernel
  constructor
  · exact verify_odd serialArm_bitSerial rfl hlittle rfl (by decide)
  · exact verify_odd serialArm_bitSerial rfl hbig rfl (by decide)

/-! ## Two bits -/

theorem poly_period (n : Nat) : steps poly n poly = poly ↔ 2147483647 ∣ n := by
  have hprime : (mersenne 31).Prime := lucas_lehmer_sufficiency _ (by norm_num) (by norm_num)
  have hsquares : applyColumns (squares 31 (columns (step poly))) 0 poly = step poly poly := by decide +kernel
  have hper : steps poly 2147483647 poly = poly := by
    have hone := steps_squares poly 31 poly
    rw [hsquares, show (2 : Nat) ^ 31 = 2147483647 + 1 by decide, steps_add] at hone
    exact step_injective poly_top hone
  exact steps_period poly hprime hper (by decide) n

theorem two_flips {es : List Bool} {i j : Nat} (hij : i < j) (h : ∀ k, es[k]? = some true ↔ k = i ∨ k = j) :
    ∃ n, es = List.replicate i false ++ true ::
      (List.replicate (j - i - 1) false ++ true :: List.replicate n false) := by
  obtain ⟨hi, hei⟩ := List.getElem?_eq_some_iff.mp ((h i).mpr (.inl rfl))
  obtain ⟨hj, hej⟩ := List.getElem?_eq_some_iff.mp ((h j).mpr (.inr rfl))
  have hcut : es = es.take i ++ true :: ((es.drop (i + 1)).take (j - i - 1) ++ true :: es.drop (j + 1)) := by
    rw [← hej, ← List.drop_eq_getElem_cons hj, show es.drop j = (es.drop (i + 1)).drop (j - i - 1) by
      rw [List.drop_drop]
      congr 1
      omega]
    rw [List.take_append_drop, hej, ← hei, ← List.drop_eq_getElem_cons hi, List.take_append_drop]
  have hfirst : true ∉ es.take i := clear_take fun k hk hes => by
    have := (h k).mp hes
    omega
  have hmid : true ∉ (es.drop (i + 1)).take (j - i - 1) := clear_take fun k hk hes => by
    rw [List.getElem?_drop] at hes
    have := (h _).mp hes
    omega
  have hlast : true ∉ es.drop (j + 1) := clear_drop fun k hk hes => by
    have := (h k).mp hes
    omega
  have hi' : (es.take i).length = i := by
    rw [List.length_take]
    omega
  have hmid' : ((es.drop (i + 1)).take (j - i - 1)).length = j - i - 1 := by
    rw [List.length_take, List.length_drop]
    omega
  refine ⟨(es.drop (j + 1)).length, ?_⟩
  rw [clear_replicate hfirst, clear_replicate hmid, clear_replicate hlast, hi', hmid'] at hcut
  exact hcut

/-- Two flipped bits are missed when their distance is a multiple of `2 ^ 31 - 1`, and found otherwise. -/
theorem verify_two (hp : path.BitSerial) (hl : path.LittleLoads) (hw : path.hardware = true)
    (hs : kflCrc32cVerify path (some s) = 1) (hlen : s'.length = s.length) {i j : Nat} (hij : i < j)
    (hflip : ∀ k, (flips s s')[k]? = some true ↔ k = i ∨ k = j) :
    kflCrc32cVerify path (some s') = 1 ↔ 2147483647 ∣ j - i := by
  obtain ⟨n, hflips⟩ := two_flips hij hflip
  rw [verify_syndrome hp hl hw hs hlen, hflips, syndrome_two poly poly_top,
    show j - i - 1 + 1 = j - i by omega, poly_period]

/-- The first bit of a payload of eight bytes and its thirty-third. -/
theorem verify_two_first :
    kflCrc32cVerify (.arm serialArm true .little) (some [0, 2, 3, 4, 4, 6, 7, 8, 129, 31, 137, 70]) ≠ 1 := by
  have hs : kflCrc32cVerify (.arm serialArm true .little) (some [1, 2, 3, 4, 5, 6, 7, 8, 129, 31, 137, 70]) = 1 := by
    decide +kernel
  have hflip : ∀ k < 96, (flips [1, 2, 3, 4, 5, 6, 7, 8, 129, 31, 137, 70]
      [0, 2, 3, 4, 4, 6, 7, 8, 129, 31, 137, 70])[k]? = some true ↔ k = 0 ∨ k = 32 := by decide +kernel
  have hout : ∀ k, (flips [1, 2, 3, 4, 5, 6, 7, 8, 129, 31, 137, 70]
      [0, 2, 3, 4, 4, 6, 7, 8, 129, 31, 137, 70])[k]? = some true ↔ k = 0 ∨ k = 32 := by
    intro k
    by_cases hk : k < 96
    · exact hflip k hk
    · rw [List.getElem?_eq_none (by show 96 ≤ k; omega)]
      exact ⟨(nomatch ·), fun h => by omega⟩
  have hp : (Path.arm serialArm true .little).BitSerial := serialArm_bitSerial
  have hlen : ([0, 2, 3, 4, 4, 6, 7, 8, 129, 31, 137, 70] : List Byte).length =
      [1, 2, 3, 4, 5, 6, 7, 8, 129, 31, 137, (70 : Byte)].length := rfl
  have hiff := verify_two hp rfl rfl hs hlen (by decide) hout
  exact fun h => absurd (hiff.mp h) (by decide)

end KanekFoundations.Crc

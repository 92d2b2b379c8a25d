/-
  KanekFoundations.Crc.Crc32cProofs — what `kfl_crc32c` computes by each of its paths
  (see `KanekFoundations.Crc.Crc32c`).

  The hardware paths are the bit-serial checksum (`hw_update_bit_serial`, `hw_bit_serial`). The software path is
  not: entries 190 and 191 of `crc32c_table` differ from the remainders of their indices
  in bit 2 (`table_eq`), so it is the bit-serial checksum plus the drift of the lookups
  that meet them.

  Proved:
  - `sw_bit_serial_iff`: the software path agrees with the others exactly when that drift
    is zero, and along every prefix exactly when no lookup meets either entry.
  - `chain_append`: on every path, chaining over a partition of a buffer is the one-shot
    checksum. A big-endian ARM build is left out: it feeds each word's bytes last first
    (`hw_fed`), and where the words lie depends on the partition.
  - `verify_window`: a struct sealed by the software path verifies on it, and no struct
    that differs from it only inside four consecutive bytes does. This needs of the
    table only that its top bytes are distinct, which the two entries keep.
-/

import KanekFoundations.Crc.Crc32c

namespace KanekFoundations.Crc

open KanekFoundations.Lib KanekFoundations.Lib.ShiftRegister

/-! ## The software path -/

/-- The distance of an entry of `crc32c_table` from the remainder of its index. -/
def tableError (i : Byte) : BitVec 32 := if i = 190 ∨ i = 191 then 0x00000004 else 0

def tableEntry (i : Byte) : BitVec 32 := crc32cTable.getD i.toNat 0

theorem table_eq : crc32cTable =
    (List.range 256).map fun i => steps poly 8 (BitVec.ofNat 32 i) ^^^ tableError (BitVec.ofNat 8 i) := by
  decide +kernel

theorem tableEntry_eq (i : Byte) : tableEntry i = steps poly 8 (i.setWidth 32) ^^^ tableError i := by
  have hi : i.toNat < 256 := i.isLt
  have hw : BitVec.ofNat 32 i.toNat = i.setWidth 32 := by
    apply BitVec.eq_of_toNat_eq
    simp
  rw [tableEntry, table_eq, List.getD_eq_getElem?_getD, List.getElem?_map, List.getElem?_range hi]
  simp only [Option.map_some, Option.getD_some, hw, BitVec.ofNat_toNat, BitVec.setWidth_eq]

/-- No number of the list is in the bit set `seen`, and none comes twice. -/
def distinctFrom : Nat → List Nat → Bool
  | _, [] => true
  | seen, x :: l => !seen.testBit x && distinctFrom (seen ||| 2 ^ x) l

theorem distinctFrom_nodup : ∀ (l : List Nat) (seen : Nat), distinctFrom seen l = true →
    l.Nodup ∧ ∀ x ∈ l, seen.testBit x = false := by
  intro l
  induction l with
  | nil => intro _ _; simp
  | cons x l ih =>
    intro seen h
    simp only [distinctFrom, Bool.and_eq_true, Bool.not_eq_true'] at h
    obtain ⟨hx, hl⟩ := h
    obtain ⟨hnd, hseen⟩ := ih _ hl
    simp only [Nat.testBit_or, Bool.or_eq_false_iff] at hseen
    refine ⟨List.nodup_cons.mpr ⟨fun hmem => ?_, hnd⟩, fun y hy => ?_⟩
    · simpa [Nat.testBit_two_pow_self] using (hseen x hmem).2
    · rcases List.mem_cons.mp hy with rfl | hy
      · exact hx
      · exact (hseen y hy).1

theorem top_bytes_nodup : (crc32cTable.map fun e : BitVec 32 => e.toNat >>> 24).Nodup :=
  (distinctFrom_nodup _ 0 (by decide +kernel)).1

theorem tableEntry_top : TopInjective tableEntry := by
  intro i j h
  have hlen : crc32cTable.length = 256 := by rw [table_eq]; simp
  have hi : i.toNat < crc32cTable.length := hlen ▸ i.isLt
  have hj : j.toNat < crc32cTable.length := hlen ▸ j.isLt
  have htop : (tableEntry i).toNat >>> 24 = (tableEntry j).toNat >>> 24 := by
    rw [← BitVec.toNat_ushiftRight, ← BitVec.toNat_ushiftRight]
    congr 1
    apply BitVec.eq_of_getLsbD_eq
    intro n hn
    rw [BitVec.getLsbD_ushiftRight, BitVec.getLsbD_ushiftRight]
    by_cases h8 : n < 8
    · exact h _ (by omega) (by omega)
    · rw [BitVec.getLsbD_of_ge _ _ (by omega), BitVec.getLsbD_of_ge _ _ (by omega)]
  simp only [tableEntry, List.getD_eq_getElem _ _ hi, List.getD_eq_getElem _ _ hj] at htop
  apply BitVec.eq_of_toNat_eq
  have hi' : i.toNat < (crc32cTable.map fun e => e.toNat >>> 24).length := by simpa using hi
  have hj' : j.toNat < (crc32cTable.map fun e => e.toNat >>> 24).length := by simpa using hj
  have htop' : (crc32cTable.map fun e => e.toNat >>> 24)[i.toNat] =
      (crc32cTable.map fun e => e.toNat >>> 24)[j.toNat] := by
    simpa using htop
  exact (List.Nodup.getElem_inj_iff top_bytes_nodup).mp htop'

/-! ## The hardware paths -/

/-- A 64-bit operand in a 64-bit register is its eight bytes in a 32-bit one. -/
theorem wide_feed (crc : BitVec 32) (bs : List Byte) (hlen : bs.length = 8) :
    (steps (poly.setWidth 64) 64 (crc.setWidth 64 ^^^ leWord 64 bs)).setWidth 32 = feed poly crc bs := by
  have h64 : 8 * bs.length = 64 := by omega
  have hb := bits_leWord (by decide) 64 bs (by omega)
  rw [h64] at hb
  rw [steps_feed (poly.setWidth 64) 64 _ _ (fun i hi => BitVec.getLsbD_of_ge _ _ hi), hb,
    feedBits_setWidth poly (by decide) (by decide), BitVec.setWidth_setWidth_of_le _ (by decide), BitVec.setWidth_eq,
    feed_bits poly (by decide)]

theorem word_feed (crc : BitVec 32) (bs : List Byte) (hlen : bs.length = 4) :
    steps poly 32 (crc ^^^ leWord 32 bs) = feed poly crc bs := by
  have h := steps_leWord poly crc bs (by decide) (by decide) (by omega)
  rwa [show 8 * bs.length = 32 by omega] at h

/-- The bytes of a buffer in the order that the four-byte loop and its tail feed them. -/
def fed4 (host : Endian) : List Byte → List Byte
  | b0 :: b1 :: b2 :: b3 :: buf => host.order [b0, b1, b2, b3] ++ fed4 host buf
  | buf => buf

/-- The same with the eight-byte loop before them. -/
def fed8 (host : Endian) : List Byte → List Byte
  | b0 :: b1 :: b2 :: b3 :: b4 :: b5 :: b6 :: b7 :: buf =>
    host.order [b0, b1, b2, b3, b4, b5, b6, b7] ++ fed8 host buf
  | buf => fed4 host buf

def fed (host : Endian) (is64 : Bool) (buf : List Byte) : List Byte :=
  if is64 then fed8 host buf else fed4 host buf

theorem Endian.order_perm (host : Endian) (bs : List Byte) : (host.order bs).Perm bs := by
  cases host with
  | little => exact List.Perm.refl bs
  | big => exact List.reverse_perm bs

@[simp] theorem Endian.order_length (host : Endian) (bs : List Byte) : (host.order bs).length = bs.length :=
  (host.order_perm bs).length_eq

theorem fed4_perm (host : Endian) (buf : List Byte) : (fed4 host buf).Perm buf := by
  fun_induction fed4 host buf with
  | case1 b0 b1 b2 b3 buf ih => exact (host.order_perm [b0, b1, b2, b3]).append ih
  | case2 buf => exact List.Perm.refl buf

theorem fed8_perm (host : Endian) (buf : List Byte) : (fed8 host buf).Perm buf := by
  fun_induction fed8 host buf with
  | case1 b0 b1 b2 b3 b4 b5 b6 b7 buf ih =>
    exact (host.order_perm [b0, b1, b2, b3, b4, b5, b6, b7]).append ih
  | case2 buf => exact fed4_perm host buf

theorem fed_perm (host : Endian) (is64 : Bool) (buf : List Byte) : (fed host is64 buf).Perm buf := by
  cases is64 with
  | false => exact fed4_perm host buf
  | true => exact fed8_perm host buf

theorem fed4_little (buf : List Byte) : fed4 .little buf = buf := by
  generalize hhost : Endian.little = host
  fun_induction fed4 host buf with
  | case1 b0 b1 b2 b3 buf ih =>
    rw [ih, ← hhost]
    rfl
  | case2 => rfl

theorem fed8_little (buf : List Byte) : fed8 .little buf = buf := by
  generalize hhost : Endian.little = host
  fun_induction fed8 host buf with
  | case1 b0 b1 b2 b3 b4 b5 b6 b7 buf ih =>
    rw [ih, ← hhost]
    rfl
  | case2 buf => rw [← hhost, fed4_little]

@[simp] theorem fed_little (is64 : Bool) (buf : List Byte) : fed .little is64 buf = buf := by
  cases is64 with
  | false => exact fed4_little buf
  | true => exact fed8_little buf

theorem loop8_feed {host : Endian} {op : BitVec 32 → BitVec 64 → BitVec 32}
    (hop : ∀ crc (bs : List Byte), bs.length = 8 → op crc (leWord 64 bs) = feed poly crc bs)
    (crc : BitVec 32) (buf : List Byte) :
    feed poly (loop8 host op crc buf).1 (fed4 host (loop8 host op crc buf).2) = feed poly crc (fed8 host buf) := by
  fun_induction loop8 host op crc buf with
  | case1 crc b0 b1 b2 b3 b4 b5 b6 b7 buf ih => rw [ih, hostWord, hop _ _ (by simp), ← feed_append, fed8]
  | case2 crc buf hshort => rw [fed8.eq_2 host buf hshort]

theorem loop4_feed {host : Endian} {op : BitVec 32 → BitVec 32 → BitVec 32}
    (hop : ∀ crc (bs : List Byte), bs.length = 4 → op crc (leWord 32 bs) = feed poly crc bs)
    (crc : BitVec 32) (buf : List Byte) :
    feed poly (loop4 host op crc buf).1 (loop4 host op crc buf).2 = feed poly crc (fed4 host buf) := by
  fun_induction loop4 host op crc buf with
  | case1 crc b0 b1 b2 b3 buf ih => rw [ih, hostWord, hop _ _ (by simp), ← feed_append, fed4]
  | case2 crc buf hshort => rw [fed4.eq_2 host buf hshort]

/-- Whatever the chunking, the bytes are fed in order, up to the order within a word. -/
theorem hw_feed {u8 : BitVec 32 → BitVec 8 → BitVec 32} {u32 : BitVec 32 → BitVec 32 → BitVec 32}
    {u64 : BitVec 32 → BitVec 64 → BitVec 32} (h8 : ∀ crc b, u8 crc b = absorb poly crc b)
    (h32 : ∀ crc (bs : List Byte), bs.length = 4 → u32 crc (leWord 32 bs) = feed poly crc bs)
    (h64 : ∀ crc (bs : List Byte), bs.length = 8 → u64 crc (leWord 64 bs) = feed poly crc bs)
    (host : Endian) (is64 : Bool) (crc : BitVec 32) (buf : List Byte) :
    hwCrc32c host is64 u8 u32 u64 crc buf = feed poly crc (fed host is64 buf) := by
  have hu8 : u8 = absorb poly := funext fun c => funext fun b => h8 c b
  have htail : ∀ r : BitVec 32 × List Byte,
      (loop4 host u32 r.1 r.2).2.foldl u8 (loop4 host u32 r.1 r.2).1 = feed poly r.1 (fed4 host r.2) := by
    intro r
    rw [hu8]
    exact loop4_feed h32 r.1 r.2
  unfold hwCrc32c fed
  cases is64
  · exact htail (crc, buf)
  · exact (htail _).trans (loop8_feed h64 crc buf)

theorem x86_feed {I : X86} (hI : I.BitSerial) (is64 : Bool) (crc : BitVec 32) (buf : List Byte) :
    hwCrc32cX86 I is64 crc buf = feed poly crc buf := by
  rw [hwCrc32cX86, hw_feed hI.u8 (fun c bs h => ?_) (fun c bs h => ?_), fed_little]
  · rw [hI.u32, word_feed c bs h]
  · rw [hI.u64, BitVec.setWidth_setWidth_of_le c (by decide), BitVec.setWidth_eq, wide_feed c bs h]

theorem arm_feed {A : Arm} (hA : A.BitSerial) (is64 : Bool) (host : Endian) (crc : BitVec 32) (buf : List Byte) :
    hwCrc32cArm A is64 host crc buf = feed poly crc (fed host is64 buf) := by
  refine hw_feed hA.cb (fun c bs h => ?_) (fun c bs h => ?_) host is64 crc buf
  · rw [hA.cw, word_feed c bs h]
  · rw [hA.cd, wide_feed c bs h]

/-- Each build of either hardware update is the bit-serial update: the bits of the buffer
    enter the register one at a time, byte by byte in order, low bit first. -/
theorem hw_update_bit_serial {I : X86} {A : Arm} (hI : I.BitSerial) (hA : A.BitSerial) (is64 : Bool)
    (crc : BitVec 32) (buf : List Byte) :
    hwCrc32cX86 I is64 crc buf = feedBits poly crc (buf.flatMap bitsOf) ∧
      hwCrc32cArm A is64 .little crc buf = feedBits poly crc (buf.flatMap bitsOf) := by
  have hbits := feed_bits poly (show 8 ≤ 32 by decide) crc buf
  constructor
  · rw [x86_feed hI, hbits]
  · rw [arm_feed hA, fed_little, hbits]

/-- Intrinsics that do exactly what their manuals say. -/
def serialX86 : X86 where
  u8 crc b := steps poly 8 (crc ^^^ b.setWidth 32)
  u32 crc v := steps poly 32 (crc ^^^ v)
  u64 crc v := steps (poly.setWidth 64) 64 ((crc.setWidth 32).setWidth 64 ^^^ v)

def serialArm : Arm where
  cb crc b := steps poly 8 (crc ^^^ b.setWidth 32)
  cw crc v := steps poly 32 (crc ^^^ v)
  cd crc v := (steps (poly.setWidth 64) 64 (crc.setWidth 64 ^^^ v)).setWidth 32

theorem serialX86_bitSerial : serialX86.BitSerial := ⟨fun _ _ => rfl, fun _ _ => rfl, fun _ _ => rfl⟩

theorem serialArm_bitSerial : serialArm.BitSerial := ⟨fun _ _ => rfl, fun _ _ => rfl, fun _ _ => rfl⟩

/-- Thirteen bytes take a step of each width on a 64-bit build. -/
theorem hw_update_bit_serial_thirteen :
    hwCrc32cX86 serialX86 true 0 [1, 2, 3, 4, 5, 6, 7, 8, 9, 10, 11, 12, 13] =
      hwCrc32cArm serialArm true .little 0 [1, 2, 3, 4, 5, 6, 7, 8, 9, 10, 11, 12, 13] := by
  have h := hw_update_bit_serial serialX86_bitSerial serialArm_bitSerial true 0
    [1, 2, 3, 4, 5, 6, 7, 8, 9, 10, 11, 12, 13]
  exact h.1.trans h.2.symm

/-- A big-endian ARM build feeds a word's bytes last first. -/
example : hwCrc32cArm serialArm false .big 0 [1, 2, 3, 4, 5] = hwCrc32cX86 serialX86 false 0 [4, 3, 2, 1, 5] := by
  decide +kernel

/-! ## Every path is a fold over the bytes -/

/-- The bytes of a buffer in the order a path takes them. -/
def Path.fed : Path → List Byte → List Byte
  | .sw _, buf => buf
  | .x86 _ is64, buf => Crc.fed .little is64 buf
  | .arm _ is64 host, buf => Crc.fed host is64 buf

theorem Path.fed_perm (path : Path) (buf : List Byte) : (path.fed buf).Perm buf := by
  cases path with
  | sw host => exact List.Perm.refl buf
  | x86 I is64 => exact Crc.fed_perm .little is64 buf
  | arm A is64 host => exact Crc.fed_perm host is64 buf

theorem Path.LittleLoads.fed {path : Path} (hl : path.LittleLoads) (buf : List Byte) : path.fed buf = buf := by
  cases path with
  | sw host => rfl
  | x86 I is64 => exact fed_little is64 buf
  | arm A is64 host =>
    cases hl
    exact fed_little is64 buf

/-- What a path does to the register for one byte. -/
def byteStep : Path → BitVec 32 → Byte → BitVec 32
  | .sw _ => tableStep tableEntry
  | .x86 _ _ | .arm _ _ _ => absorb poly

theorem kfl_fed {path : Path} (hp : path.BitSerial) (crc : BitVec 32) (buf : List Byte) :
    kflCrc32c path crc buf = (path.fed buf).foldl (byteStep path) (crc ^^^ 0xFFFFFFFF) ^^^ 0xFFFFFFFF := by
  cases path with
  | sw host => rfl
  | x86 I is64 =>
    show hwCrc32cX86 I is64 _ buf ^^^ _ = (Crc.fed .little is64 buf).foldl _ _ ^^^ _
    rw [x86_feed hp, fed_little]
    rfl
  | arm A is64 host =>
    show hwCrc32cArm A is64 host _ buf ^^^ _ = _
    rw [arm_feed hp]
    rfl

theorem kfl_fold {path : Path} (hp : path.BitSerial) (hl : path.LittleLoads) (crc : BitVec 32) (buf : List Byte) :
    kflCrc32c path crc buf = buf.foldl (byteStep path) (crc ^^^ 0xFFFFFFFF) ^^^ 0xFFFFFFFF := by
  rw [kfl_fed hp, hl.fed]

theorem xor_out (c : BitVec 32) : c ^^^ 0xFFFFFFFF ^^^ 0xFFFFFFFF = c := by
  rw [BitVec.xor_assoc, BitVec.xor_self, BitVec.xor_zero]

/-- A hardware path computes the bit-serial checksum of the bytes in its own order. -/
theorem hw_fed {path : Path} (hp : path.BitSerial) (hw : path.hardware = true) (crc : BitVec 32)
    (buf : List Byte) : kflCrc32c path crc buf = crc32cBitSerial crc (path.fed buf) := by
  rw [kfl_fed hp]
  cases path with
  | sw host => cases hw
  | x86 I is64 => rfl
  | arm A is64 host => rfl

theorem hw_bit_serial {path : Path} (hp : path.BitSerial) (hl : path.LittleLoads) (hw : path.hardware = true)
    (crc : BitVec 32) (buf : List Byte) : kflCrc32c path crc buf = crc32cBitSerial crc buf := by
  rw [hw_fed hp hw, hl.fed]

theorem kfl_append {path : Path} (hp : path.BitSerial) (hl : path.LittleLoads) (crc : BitVec 32)
    (a b : List Byte) : kflCrc32c path (kflCrc32c path crc a) b = kflCrc32c path crc (a ++ b) := by
  rw [kfl_fold hp hl, kfl_fold hp hl, kfl_fold hp hl, xor_out, List.foldl_append]

/-- Chaining over any partition of a buffer gives the one-shot checksum, on every path
    that loads little-endian words or none. -/
theorem chain_append {path : Path} (hp : path.BitSerial) (hl : path.LittleLoads) (crc : BitVec 32) :
    (∀ a b, kflCrc32c path (kflCrc32c path crc a) b = kflCrc32c path crc (a ++ b)) ∧
      ∀ parts : List (List Byte), parts.foldl (kflCrc32c path) crc = kflCrc32c path crc parts.flatten := by
  refine ⟨kfl_append hp hl crc, fun parts => ?_⟩
  induction parts generalizing crc with
  | nil => rw [kfl_fold hp hl]; exact (xor_out crc).symm
  | cons a parts ih => rw [List.foldl_cons, ih, kfl_append hp hl, List.flatten_cons]

/-- Nine bytes at once take an eight-byte step; cut after the fifth they take none. -/
theorem chain_append_halves :
    kflCrc32c (.x86 serialX86 true) (kflCrc32c (.x86 serialX86 true) 0 [1, 2, 3, 4, 5]) [6, 7, 8, 9] =
      kflCrc32c (.x86 serialX86 true) 0 [1, 2, 3, 4, 5, 6, 7, 8, 9] :=
  (chain_append (show (Path.x86 serialX86 true).BitSerial from serialX86_bitSerial) trivial 0).1 _ _

/-! ## Verifying a sealed struct -/

theorem sealed_eq (path : Path) (payload : List Byte) :
    sealed path payload = payload ++ symbolsOf 4 (kflCrc32c path 0 payload) := by
  simp [sealed, symbolsOf, List.range_succ]

theorem byte_of_word (b0 b1 b2 b3 : Byte) (j : Nat) (hj : j < 4) :
    (leWord 32 [b0, b1, b2, b3] >>> (8 * j)).setWidth 8 = [b0, b1, b2, b3].getD j 0 := by
  apply BitVec.eq_of_getLsbD_eq
  intro r hr
  rw [BitVec.getLsbD_setWidth, BitVec.getLsbD_ushiftRight, getLsbD_leWord (by decide) _ _ _ (by omega),
    Nat.mul_add_div (by decide), Nat.div_eq_of_lt hr, Nat.mul_add_mod, Nat.mod_eq_of_lt hr]
  simp [hr]

theorem mask_byte (x : BitVec 32) : x &&& 0xFF = (x.setWidth 8).setWidth 32 := by
  have h := BitVec.and_setWidth_allOnes 24 8 x
  simpa [BitVec.setWidth_eq_append] using h

/-- The stored field is read as the little-endian word it is, on either host. -/
theorem stored_word (host : Endian) (bs : List Byte) (hlen : bs.length = 4) :
    fromLittle host (hostWord 32 host bs) = leWord 32 bs := by
  obtain ⟨b0, b1, b2, b3, rfl⟩ : ∃ b0 b1 b2 b3, bs = [b0, b1, b2, b3] := by
    match bs, hlen with
    | [b0, b1, b2, b3], _ => exact ⟨b0, b1, b2, b3, rfl⟩
  cases host with
  | little => rfl
  | big =>
    have h0 : (leWord 32 [b3, b2, b1, b0]).setWidth 8 = b3 := by simpa using byte_of_word b3 b2 b1 b0 0 (by decide)
    have h1 : (leWord 32 [b3, b2, b1, b0] >>> 8).setWidth 8 = b2 := byte_of_word b3 b2 b1 b0 1 (by decide)
    have h2 : (leWord 32 [b3, b2, b1, b0] >>> 16).setWidth 8 = b1 := byte_of_word b3 b2 b1 b0 2 (by decide)
    have h3 : (leWord 32 [b3, b2, b1, b0] >>> 24).setWidth 8 = b0 := byte_of_word b3 b2 b1 b0 3 (by decide)
    show fromLittle .big (leWord 32 [b3, b2, b1, b0]) = _
    simp only [fromLittle, mask_byte, h0, h1, h2, h3]
    simp only [leWord, BitVec.ofNat_eq_ofNat, BitVec.zero_shiftLeft, BitVec.or_zero, BitVec.shiftLeft_or_distrib,
      ← BitVec.shiftLeft_add, Nat.reduceAdd]
    generalize b0.setWidth 32 = w0, b1.setWidth 32 <<< 8 = w1, b2.setWidth 32 <<< 16 = w2, b3.setWidth 32 <<< 24 = w3
    ac_rfl

theorem verify_eq (path : Path) (q t : List Byte) (ht : t.length = 4) :
    kflCrc32cVerify path (some (q ++ t)) = if kflCrc32c path 0 q = leWord 32 t then 1 else 0 := by
  have hlen : (q ++ t).length = q.length + 4 := by rw [List.length_append, ht]
  have hn : ¬ q.length + 4 < 4 := by omega
  simp only [kflCrc32cVerify, hlen, if_neg hn, Nat.add_sub_cancel, List.drop_left, List.take_left,
    stored_word path.host t ht]

@[simp] theorem symbolsOf_length (c : BitVec 32) : (symbolsOf 4 c : List Byte).length = 4 := by simp [symbolsOf]

theorem verify_sealed (path path' : Path) (p : List Byte) :
    kflCrc32cVerify path (some (sealed path' p)) = if kflCrc32c path 0 p = kflCrc32c path' 0 p then 1 else 0 := by
  rw [sealed_eq, verify_eq path p _ (symbolsOf_length _), leWord_symbolsOf (by decide) 4 (by decide)]

/-- Payloads that differ only within `k .. k + 4` and lead to checksums with the same
    top bytes, one for each byte of theirs in the window, are equal. -/
theorem payload_window {host : Endian} (k : Nat) {p q : List Byte} (hlen : p.length = q.length)
    (hwin : ∀ i, p[i]? ≠ q[i]? → k ≤ i ∧ i < k + 4)
    (htop : AgreeTop (8 * ((p.drop k).take 4).length) (kflCrc32c (.sw host) 0 p) (kflCrc32c (.sw host) 0 q))
    (htail : k + 4 < p.length → kflCrc32c (.sw host) 0 p = kflCrc32c (.sw host) 0 q) : p = q := by
  have agree : ∀ i, ¬ (k ≤ i ∧ i < k + 4) → p[i]? = q[i]? :=
    fun i hi => Classical.byContradiction fun h => hi (hwin i h)
  have hpre : p.take k = q.take k := by
    apply List.ext_getElem?
    intro i
    simp only [List.getElem?_take]
    split
    · exact agree i (by omega)
    · rfl
  have hpost : p.drop (k + 4) = q.drop (k + 4) := by
    apply List.ext_getElem?
    intro i
    simp only [List.getElem?_drop]
    exact agree _ (by omega)
  have split4 : ∀ l : List Byte, l = l.take k ++ ((l.drop k).take 4 ++ l.drop (k + 4)) := by
    intro l
    rw [← List.drop_drop, List.take_append_drop, List.take_append_drop]
  have hxlen : ((p.drop k).take 4).length = ((q.drop k).take 4).length := by simp [hlen]
  -- The registers right after the window, and what follows it.
  let c := tableFeed tableEntry 0xFFFFFFFF (p.take k)
  have kfl_split : ∀ l : List Byte, l.take k = p.take k → l.drop (k + 4) = p.drop (k + 4) →
      kflCrc32c (.sw host) 0 l = tableFeed tableEntry (tableFeed tableEntry c ((l.drop k).take 4))
          (p.drop (k + 4)) ^^^ 0xFFFFFFFF := by
    intro l h1 h2
    show tableFeed tableEntry 0xFFFFFFFF l ^^^ _ = _
    conv => lhs; rw [split4 l]
    rw [tableFeed_append, tableFeed_append, h1, h2]
  rw [kfl_split p rfl rfl, kfl_split q hpre.symm hpost.symm] at htop htail
  have hmid : (p.drop k).take 4 = (q.drop k).take 4 := by
    refine tableFeed_inj_top tableEntry_top c hxlen (by simp; omega) fun i h1 h2 => ?_
    by_cases hend : k + 4 < p.length
    · have := tableFeed_injective tableEntry_top (by decide) _ ((BitVec.xor_left_inj _).mp (htail hend))
      rw [this]
    · have hnil : p.drop (k + 4) = [] := List.drop_eq_nil_of_le (by omega)
      have := htop i h1 h2
      simpa [hnil, tableFeed] using this
  rw [split4 p, split4 q, hpre, hmid, hpost]

/-- A struct sealed by the software path verifies; one that differs from it, and only
    inside four consecutive bytes, does not. -/
theorem verify_window (host : Endian) (p : List Byte) :
    kflCrc32cVerify (.sw host) (some (sealed (.sw host) p)) = 1 ∧
      ∀ s' : List Byte, s'.length = (sealed (.sw host) p).length → s' ≠ sealed (.sw host) p →
        (∃ k, ∀ i, s'[i]? ≠ (sealed (.sw host) p)[i]? → k ≤ i ∧ i < k + 4) →
        kflCrc32cVerify (.sw host) (some s') = 0 := by
  refine ⟨by simp [verify_sealed], fun s' hlen hne ⟨k, hwin⟩ => ?_⟩
  rw [sealed_eq] at hlen hne hwin
  obtain ⟨q, t, rfl, hq, ht⟩ : ∃ q t, s' = q ++ t ∧ q.length = p.length ∧ t.length = 4 := by
    refine ⟨s'.take p.length, s'.drop p.length, (List.take_append_drop _ _).symm, ?_, ?_⟩
    · simp at hlen ⊢; omega
    · simp at hlen ⊢; omega
  rw [verify_eq (.sw host) q t ht]
  refine if_neg fun hq' => hne ?_
  -- `q` and `t` pass: then `q` is `p`, and `t` the bytes of its checksum.
  have hpq : p = q := by
    have hfield : ∀ j, k + 4 ≤ p.length + j → t.getD j 0 = (symbolsOf 4 (kflCrc32c (.sw host) 0 p)).getD j 0 := by
      intro j hj
      have h := Classical.byContradiction fun h => absurd (hwin (p.length + j) h).2 (by omega)
      rw [List.getElem?_append_right (by omega), List.getElem?_append_right (by omega), hq,
        Nat.add_sub_cancel_left] at h
      rw [List.getD_eq_getElem?_getD, List.getD_eq_getElem?_getD, h]
    refine @payload_window host k p q hq.symm (fun i hi => ?_) (fun i h1 h2 => ?_) fun hend => ?_
    · by_cases hlt : i < p.length
      · refine hwin i ?_
        rw [List.getElem?_append_left (by omega), List.getElem?_append_left hlt]
        exact Ne.symm hi
      · rw [List.getElem?_eq_none (by omega), List.getElem?_eq_none (by omega)] at hi
        exact absurd rfl hi
    · have hlen4 : ((p.drop k).take 4).length = min 4 (p.length - k) := by simp
      rw [hq', ← leWord_symbolsOf (v := 8) (by decide) 4 (by decide) (kflCrc32c (.sw host) 0 p)]
      exact (leWord_congr_top (by decide) (k + 4 - p.length) (fun j hj => hfield j (by omega)) i (by omega)).symm
    · rw [hq', ← leWord_symbolsOf (v := 8) (by decide) 4 (by decide) (kflCrc32c (.sw host) 0 p)]
      exact AgreeTop.eq fun i _ _ => (leWord_congr_top (by decide) 0 (fun j _ => hfield j (by omega)) i (by omega)).symm
  subst hpq
  rw [leWord_inj (by decide) (w := 32) (show t.length =
    (symbolsOf 4 (kflCrc32c (.sw host) 0 p)).length by simpa using ht) (by omega)
    (by rw [← hq', leWord_symbolsOf (by decide) 4 (by decide)])]

theorem verify_window_flipped : kflCrc32cVerify (.sw .big) (some ((sealed (.sw .big) [1, 2]).set 1 3)) = 0 := by
  refine (verify_window .big [1, 2]).2 _ (by simp) (by decide) ⟨1, fun i hi => ?_⟩
  by_cases h : 1 = i
  · omega
  · exact absurd (List.getElem?_set_ne h) hi

/-! ## The software path against the others -/

/-- The software path agrees with the bit-serial checksum exactly when the errors it
    looks up leave no drift, and at every prefix exactly when no lookup is of entry 190
    or 191. A struct that either build seals verifies on the other exactly then. -/
theorem sw_bit_serial_iff {path : Path} (hp : path.BitSerial) (hl : path.LittleLoads) (hw : path.hardware = true)
    (host : Endian) (crc : BitVec 32) (buf : List Byte) :
    (kflCrc32c (.sw host) crc buf = crc32cBitSerial crc buf ↔ drift poly tableError (crc ^^^ 0xFFFFFFFF) buf = 0) ∧
      ((∀ p, p <+: buf → kflCrc32c (.sw host) crc p = crc32cBitSerial crc p) ↔
        ∀ p b, p ++ [b] <+: buf → (feed poly (crc ^^^ 0xFFFFFFFF) p).setWidth 8 ^^^ b ∉ [190, 191]) ∧
      (kflCrc32cVerify path (some (sealed (.sw host) buf)) = 1 ↔ drift poly tableError 0xFFFFFFFF buf = 0) ∧
      (kflCrc32cVerify (.sw host) (some (sealed path buf)) = 1 ↔ drift poly tableError 0xFFFFFFFF buf = 0) := by
  have exact_drift : ∀ c b, kflCrc32c (.sw host) c b = crc32cBitSerial c b ↔
      drift poly tableError (c ^^^ 0xFFFFFFFF) b = 0 := by
    intro c b
    show tableFeed tableEntry _ b ^^^ _ = feed poly _ b ^^^ _ ↔ _
    rw [BitVec.xor_left_inj, tableFeed_eq poly (by decide) tableEntry_eq]
    constructor
    · intro h
      exact (BitVec.xor_right_inj _).mp (h.trans BitVec.xor_zero.symm)
    · intro h
      rw [h]
      exact BitVec.xor_zero
  have hprefix := tableFeed_prefixes poly (by decide) tableEntry_eq (crc ^^^ 0xFFFFFFFF) buf
  have herr : ∀ i : Byte, tableError i = 0 ↔ i ∉ [190, 191] := by decide
  simp only [herr] at hprefix
  have hzero : kflCrc32c (.sw host) 0 buf = kflCrc32c path 0 buf ↔ drift poly tableError 0xFFFFFFFF buf = 0 := by
    rw [hw_bit_serial hp hl hw]
    exact exact_drift 0 buf
  refine ⟨exact_drift crc buf, Iff.trans ?_ hprefix, ?_, ?_⟩
  · exact forall_congr' fun p => imp_congr_right fun _ => BitVec.xor_left_inj _
  · rw [verify_sealed, (show (1 : Int) ≠ 0 by decide).ite_eq_left_iff, ← hzero]
    exact eq_comm
  · rw [verify_sealed, (show (1 : Int) ≠ 0 by decide).ite_eq_left_iff, hzero]

theorem sw_bit_serial_iff_b :
    kflCrc32cVerify (.x86 serialX86 true) (some (sealed (.sw .little) [0x42])) = 1 ∧
      kflCrc32cVerify (.sw .big) (some (sealed (.arm serialArm true .little) [0x42])) = 1 := by
  have hx86 : (Path.x86 serialX86 true).BitSerial := serialX86_bitSerial
  have harm : (Path.arm serialArm true .little).BitSerial := serialArm_bitSerial
  constructor
  · exact (sw_bit_serial_iff hx86 trivial rfl .little 0 [0x42]).2.2.1.mpr (by decide)
  · exact (sw_bit_serial_iff harm rfl rfl .big 0 [0x42]).2.2.2.mpr (by decide)

/-- The one-byte buffer "A" looks up entry 190: the software path is off by bit 2, and
    a struct that either build seals is corrupted to the other. -/
theorem sw_not_bit_serial : kflCrc32c (.sw .little) 0 [0x41] ≠ crc32cBitSerial 0 [0x41] ∧
    kflCrc32cVerify (.x86 serialX86 true) (some (sealed (.sw .little) [0x41])) = 0 ∧
    kflCrc32cVerify (.sw .little) (some (sealed (.x86 serialX86 true) [0x41])) = 0 := by
  decide

end KanekFoundations.Crc

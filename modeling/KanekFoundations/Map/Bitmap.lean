/-
  KanekFoundations.Map.Bitmap — the bitmaps of `map.c`.

  `bm` points at the bytes of a memory, and a call is modelled with what it reads and
  writes of them: `touched` lists the spans of bytes a writer accesses, `reads` the
  bytes a reader does, whether or not they belong to the map. Every `uint64_t` sum is
  taken modulo 2^64 and every narrowing to `int` is made where the code makes it.

  A loop that the code bounds only by its data runs on fuel, and answers `none` when
  the fuel runs out.
-/

import KanekFoundations.Lib.CInt

namespace KanekFoundations.Map

open KanekFoundations.Lib

def CLEARBIT : Int := 0
def SETBIT : Int := 1

abbrev Mem := Nat → Byte

def store (bm : Mem) (loc : Nat) (byte : Byte) : Mem := fun i => if i = loc then byte else bm i

def memset (bm : Mem) (loc n : Nat) (byte : Byte) : Mem := fun i => if loc ≤ i ∧ i < loc + n then byte else bm i

/-- `len` bytes from offset `off`. -/
structure Span where
  off : Nat
  len : Nat
  deriving DecidableEq, Repr

/-! ## Byte-level primitives -/

/-- `do mask |= 1 << start++ while ( start < to)`; `to` is at most 8, so eight rounds do. -/
def setMask : Nat → Nat → Nat → Byte → Byte
  | 0, _, _, mask => mask
  | n + 1, start, toBit, mask =>
    let mask := mask ||| (1#8 <<< start)
    if start + 1 < toBit then setMask n (start + 1) toBit mask else mask

def byteSetBits (start : Nat) (numbits : Int) (byte : Byte) (clearOrSet : Int) : Byte :=
  let toBit := start + numbits
  if numbits ≤ 0 then byte
  else
    let toBit := if 8 < toBit then 8 else toBit
    let mask := setMask 8 start toBit.toNat 0
    if clearOrSet = SETBIT then byte ||| mask else byte &&& ~~~mask

def byteGetBit (byte : Byte) (bit : Nat) : Int := if byte &&& (1#8 <<< bit) = 0 then 0 else 1

def countLoop (byte : Byte) (clearOrSet : Int) : Nat → Nat → Nat → Nat → Nat
  | 0, _, _, count => count
  | n + 1, start, toBit, count =>
    if (if (1#8 <<< start) &&& byte ≠ 0 then clearOrSet = SETBIT else clearOrSet ≠ SETBIT) then
      if start + 1 < toBit then countLoop byte clearOrSet n (start + 1) toBit (count + 1) else count + 1
    else count

def byteCountBits (start : Nat) (numbits : Int) (byte : Byte) (clearOrSet : Int) : Nat :=
  let toBit := start + numbits
  if numbits ≤ 0 then 0
  else
    let toBit := if 8 < toBit then 8 else toBit
    countLoop byte clearOrSet 8 start toBit.toNat 0

/-- The scan of `byte_find_gap` with `n` bits of the byte left. -/
def gapLoop (numbits : Int) (byte : Byte) : Nat → Bool → Nat → Nat → Int × Nat
  | 0, foundGap, _, count => if foundGap then (-2, count) else (-1, count)
  | n + 1, _, gapIndex, count =>
    let start := 8 - (n + 1)
    if (1#8 <<< start) &&& byte ≠ 0 then gapLoop numbits byte n false (start + 1) 0
    else if (count : Int) + 1 = numbits then (gapIndex, count + 1)
    else gapLoop numbits byte n true gapIndex (count + 1)

/-- The return value and `*count`. -/
def byteFindGap (start : Nat) (numbits : Int) (byte : Byte) : Int × Nat :=
  if numbits ≤ 0 then (-1, 0) else gapLoop numbits byte (8 - start) false start 0

/-! ## Writing -/

structure SetOut where
  rc : Int
  bm : Mem
  touched : List Span

def bmSetBit (bm : Mem) (totalBits bitAddress : Nat) (clearOrSet : Int) : SetOut :=
  if totalBits ≤ bitAddress then ⟨-1, bm, []⟩
  else
    let loc := bitAddress / 8
    ⟨0, store bm loc (byteSetBits (bitAddress % 8) 1 (bm loc) clearOrSet), [⟨loc, 1⟩]⟩

def bmGetBit (bm : Mem) (totalBits bitAddress : Nat) : Int :=
  if totalBits ≤ bitAddress then -1 else byteGetBit (bm (bitAddress / 8)) (bitAddress % 8)

/-- The last byte of an extent: fewer than eight bits are pending. -/
def setLast (bm : Mem) (loc pendingBits : Nat) (clearOrSet : Int) (touched : List Span) : SetOut :=
  let extra := pendingBits % 8
  if 1 ≤ extra then
    let bm := store bm loc (byteSetBits 0 extra (bm loc) clearOrSet)
    if pendingBits - extra = 0 then ⟨0, bm, touched ++ [⟨loc, 1⟩]⟩ else ⟨-2, bm, touched ++ [⟨loc, 1⟩]⟩
  else ⟨-2, bm, touched⟩

/-- The whole bytes of an extent, by `memset`, and its last byte. -/
def setWhole (bm : Mem) (loc pendingBits : Nat) (clearOrSet : Int) (touched : List Span) : SetOut :=
  let bytes := pendingBits / 8
  if 1 ≤ bytes then
    let bm := memset bm loc bytes (if clearOrSet = 0 then 0x00 else 0xff)
    let touched := touched ++ [⟨loc, bytes⟩]
    if pendingBits - bytes * 8 = 0 then ⟨0, bm, touched⟩
    else setLast bm (loc + bytes) (pendingBits - bytes * 8) clearOrSet touched
  else setLast bm loc pendingBits clearOrSet touched

def bmSetExtent (bm : Mem) (totalBits bitAddress numBitsToSet : Nat) (clearOrSet : Int) : SetOut :=
  if totalBits ≤ bitAddress ∨ totalBits < u64 (bitAddress + numBitsToSet) then ⟨-1, bm, []⟩
  else if numBitsToSet = 0 then ⟨0, bm, []⟩
  else if numBitsToSet = 1 then bmSetBit bm totalBits bitAddress clearOrSet
  else
    let loc := bitAddress / 8
    let aligned := bitAddress % 8
    if aligned ≠ 0 then
      let atStart := if u64 (aligned + numBitsToSet) < 8 then numBitsToSet else 8 - aligned
      let bm := store bm loc (byteSetBits aligned (i32 atStart) (bm loc) clearOrSet)
      let pendingBits := numBitsToSet - atStart
      if pendingBits = 0 then ⟨0, bm, [⟨loc, 1⟩]⟩
      else setWhole bm (loc + 1) pendingBits clearOrSet [⟨loc, 1⟩]
    else setWhole bm loc numBitsToSet clearOrSet []

/-! ## Counting -/

structure CountOut where
  rc : Int
  countResult : Nat
  reads : List Nat
  deriving DecidableEq, Repr

/-- `while ( bits_count < num_bits_to_count)`: each round that goes on counts a byte. -/
def countBytes (bm : Mem) (numBitsToCount : Nat) (clearOrSet : Int) : Nat → Nat → Nat → Int → List Nat → Option CountOut
  | 0, _, _, _, _ => none
  | n + 1, loc, bitsCount, pendingBits, reads =>
    if bitsCount < numBitsToCount then
      let byte := bm loc
      let reads := reads ++ [loc]
      if byte ≠ 0xff ∧ byte ≠ 0x00 then
        some ⟨0, u64 (bitsCount + byteCountBits 0 (i32 pendingBits) byte clearOrSet), reads⟩
      else if (clearOrSet = 1 ∧ byte = 0xff) ∨ (clearOrSet = 0 ∧ byte = 0x00) then
        if pendingBits ≤ 8 then some ⟨0, numBitsToCount, reads⟩
        else countBytes bm numBitsToCount clearOrSet n (loc + 1) (u64 (bitsCount + 8)) (i64 (pendingBits - 8)) reads
      else some ⟨0, bitsCount, reads⟩
    else some ⟨-2, 0, reads⟩

def bmCount (bm : Mem) (totalBits bitAddress numBitsToCount : Nat) (clearOrSet : Int) : Option CountOut :=
  if totalBits ≤ bitAddress ∨ totalBits < u64 (bitAddress + numBitsToCount) then some ⟨-1, 0, []⟩
  else if numBitsToCount = 0 then some ⟨0, 0, []⟩
  else
    let loc := bitAddress / 8
    let aligned := bitAddress % 8
    let fuel := numBitsToCount / 8 + 2
    if aligned ≠ 0 then
      let expectedBits : Int := if 8 ≤ u64 (aligned + numBitsToCount) then 8 - aligned else i32 numBitsToCount
      let bitsCount := byteCountBits aligned expectedBits (bm loc) clearOrSet
      let pendingBits := i64 (i64 numBitsToCount - expectedBits)
      if pendingBits ≤ 0 ∨ bitsCount < u64OfInt expectedBits then some ⟨0, bitsCount, [loc]⟩
      else countBytes bm numBitsToCount clearOrSet fuel (loc + 1) bitsCount pendingBits [loc]
    else countBytes bm numBitsToCount clearOrSet fuel loc 0 (i64 numBitsToCount) []

/-! ## Searching -/

structure FindOut where
  rc : Int
  foundAddress : Nat
  reads : List Nat
  deriving DecidableEq, Repr

structure FindSt where
  loc : Nat
  aligned : Nat
  /-- `updated_gap_size`: the zeros still missing. -/
  gapLeft : Nat
  /-- `may_have_a_large_gap`. -/
  pending : Bool
  foundAddress : Nat
  count : Nat
  reads : List Nat

/-- The scan of one byte, with a stale continuation abandoned: the return value and
    count of `byte_find_gap`, and the `updated_gap_size` and `may_have_a_large_gap` to
    go on with. -/
def findScan (byte : Byte) (gapSize aligned gapLeft : Nat) (pending : Bool) : Int × Nat × Nat × Bool :=
  let r := byteFindGap aligned (i32 gapLeft) byte
  if pending = true ∧ r.1 ≠ -1 ∧ ¬ (r.1 = 0 ∨ r.1 = -2 ∧ (r.2 : Int) = 8 - aligned) then
    let r := byteFindGap aligned (i32 gapSize) byte
    (r.1, r.2, gapSize, false)
  else (r.1, r.2, gapLeft, pending)

/-- One round of the `do … while ( 1)`: the answer, or the state of the next round. -/
def findStep (bm : Mem) (gapSize windowEnd : Nat) (s : FindSt) : FindOut ⊕ FindSt :=
  let reads := s.reads ++ [s.loc]
  let (rc, bitCount, gapLeft, pending) := findScan (bm s.loc) gapSize s.aligned s.gapLeft s.pending
  let count := if s.count < 8 - s.aligned then 0 else s.count - (8 - s.aligned)
  if 0 ≤ rc then
    if pending = false then
      let found := u64 (u64 (s.loc * 8) + rc.toNat)
      if windowEnd < u64 (found + gapSize) then .inl ⟨-1, 0, reads⟩ else .inl ⟨0, found, reads⟩
    else if gapLeft - bitCount = 0 then
      if windowEnd < u64 (s.foundAddress + gapSize) then .inl ⟨-1, 0, reads⟩ else .inl ⟨0, s.foundAddress, reads⟩
    else .inr ⟨s.loc + 1, 0, gapLeft - bitCount, pending, s.foundAddress, count, reads⟩
  else if rc = -1 then
    if count < gapSize ∨ count = 0 then .inl ⟨-1, 0, reads⟩
    else .inr ⟨s.loc + 1, 0, gapSize, false, s.foundAddress, count, reads⟩
  else
    let found := if pending = false then u64 ((s.loc + 1) * 8 - bitCount) else s.foundAddress
    if count = 0 ∨ count < gapLeft - bitCount then .inl ⟨-1, 0, reads⟩
    else .inr ⟨s.loc + 1, 0, gapLeft - bitCount, true, found, count, reads⟩

def findLoop (bm : Mem) (gapSize windowEnd : Nat) : Nat → FindSt → Option FindOut
  | 0, _ => none
  | n + 1, s =>
    match findStep bm gapSize windowEnd s with
    | .inl out => some out
    | .inr s' => findLoop bm gapSize windowEnd n s'

def bmFind (bm : Mem) (totalBits bitAddress count gapSize : Nat) : Option FindOut :=
  if totalBits ≤ bitAddress ∨ gapSize = 0 ∨ count = 0 ∨ count < gapSize then some ⟨-1, 0, []⟩
  else
    let count := if totalBits < u64 (bitAddress + count) then totalBits - bitAddress else count
    let windowEnd := u64 (bitAddress + count)
    findLoop bm gapSize windowEnd (count / 8 + 4) ⟨bitAddress / 8, bitAddress % 8, gapSize, false, 0, count, []⟩

/-! ## Growing in place -/

/-- The return value and the bytes read. -/
def bmExtentCanGrow (bm : Mem) (totalBits bitAddress count : Nat) : Option (Int × List Nat) :=
  if totalBits ≤ bitAddress ∨ totalBits < u64 (bitAddress + count) ∨ count = 0 then some (-1, [])
  else do
    let zeros ← bmCount bm totalBits bitAddress count 0
    if zeros.rc ≠ 0 then some (-100, zeros.reads)
    else if 0 < zeros.countResult then some (if zeros.countResult = count then 0 else -2, zeros.reads)
    else
      let ones ← bmCount bm totalBits bitAddress count 1
      let reads := zeros.reads ++ ones.reads
      if ones.rc ≠ 0 then some (-101, reads)
      else if ones.countResult = count then some (-3, reads)
      else if ones.countResult = 0 then some (-4, reads)
      else
        let expectedZeroes := count - ones.countResult
        let rest ← bmCount bm totalBits (u64 (bitAddress + ones.countResult)) expectedZeroes 0
        let reads := reads ++ rest.reads
        if rest.rc ≠ 0 then some (-102, reads)
        else some (if expectedZeroes = rest.countResult then 0 else -5, reads)

/-! ## Whole-bitmap utilities -/

def bmZero (bm : Mem) (totalBits : Nat) : Mem := memset bm 0 (u64 (totalBits + 7) / 8) 0x00

def bmFill (bm : Mem) (totalBits : Nat) : Mem :=
  let bytes := totalBits / 8
  let tailBits := totalBits % 8
  let bm := memset bm 0 bytes 0xff
  if 0 < tailBits then store bm bytes (BitVec.ofNat 8 (1 <<< tailBits - 1)) else bm

/-- `__builtin_popcount` of a byte. -/
def popcount (byte : Byte) : Nat := (List.range 8).countP byte.getLsbD

def bmPopcount (bm : Mem) (totalBits : Nat) : Nat :=
  let bytes := totalBits / 8
  let tailBits := totalBits % 8
  let count := (List.range bytes).foldl (fun count i => u64 (count + popcount (bm i))) 0
  if 0 < tailBits then u64 (count + popcount (bm bytes &&& BitVec.ofNat 8 (1 <<< tailBits - 1))) else count

end KanekFoundations.Map

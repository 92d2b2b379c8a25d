/-
  KanekFoundations.Hash.Xxh — `xxh32` and `xxh64` of `hash.c`: loops over a buffer by
  pointers, and the digests they compute.

  `mem` is memory; a program that reads an address without a byte is stuck. The state of a
  program is the list of the addresses it has read. `memcpy` into a word is little-endian.
  The two functions have the same loops over words of other widths: a `do` loop over stripes
  of four words, and `while` loops over what is left.

  A digest is a function of the bytes `b` of the buffer, by their offset, and its length.
-/

import KanekFoundations.Lib.CInt
import KanekFoundations.Lib.Log
import KanekFoundations.Lib.Mixing

namespace KanekFoundations.Hash

open KanekFoundations.Lib

abbrev Reads (α : Type) := StateT (List Nat) Option α

def PRIME32_1 : BitVec 32 := 2654435761
def PRIME32_2 : BitVec 32 := 2246822519
def PRIME32_3 : BitVec 32 := 3266489917
def PRIME32_4 : BitVec 32 := 668265263
def PRIME32_5 : BitVec 32 := 374761393

def PRIME64_1 : BitVec 64 := 11400714785074694791
def PRIME64_2 : BitVec 64 := 14029467366897019727
def PRIME64_3 : BitVec 64 := 1609587929392839161
def PRIME64_4 : BitVec 64 := 9650029242287828579
def PRIME64_5 : BitVec 64 := 2870177450012600261

/-! ## Reading -/

def load (mem : Nat → Option Byte) (p : Nat) : Reads Byte := fun log => (mem p).map fun b => (b, log ++ [p])

/-- A word of `w` bits: `get_unaligned_le32`, `get_unaligned_le64`, and `*p` for 8. -/
def getUnalignedLe (w : Nat) (mem : Nat → Option Byte) (p : Nat) : Reads (BitVec w) := do
  let bs ← (List.range (w / 8)).mapM fun i => load mem (p + i)
  pure (BitVec.ofNat w (Nat.ofDigits 256 (bs.map BitVec.toNat)))

/-- `do { .. } while ( p <= limit)`: each of the four accumulators takes a word. -/
def stripeLoop {w : Nat} (round : BitVec w → BitVec w → BitVec w) (mem : Nat → Option Byte) (limit : Nat) :
    Nat → Nat → (Fin 4 → BitVec w) → Reads (Nat × (Fin 4 → BitVec w))
  | 0, _, _ => fun _ => none
  | k + 1, p, v => do
    let k1 ← getUnalignedLe w mem p
    let p := p + w / 8
    let k2 ← getUnalignedLe w mem p
    let p := p + w / 8
    let k3 ← getUnalignedLe w mem p
    let p := p + w / 8
    let k4 ← getUnalignedLe w mem p
    let p := p + w / 8
    let v := ![round (v 0) k1, round (v 1) k2, round (v 2) k3, round (v 3) k4]
    if p ≤ limit then stripeLoop round mem limit k p v else pure (p, v)

/-- `while ( p + n <= b_end)` over words of `w'` bits, `n` their bytes. -/
def wordLoop {w w' : Nat} (step : BitVec w → BitVec w' → BitVec w) (mem : Nat → Option Byte) (bEnd : Nat) :
    Nat → Nat → BitVec w → Reads (Nat × BitVec w)
  | 0, _, _ => fun _ => none
  | k + 1, p, h =>
    if p + w' / 8 ≤ bEnd then do
      let x ← getUnalignedLe w' mem p
      wordLoop step mem bEnd k (p + w' / 8) (step h x)
    else pure (p, h)

/-! ## `xxh32` -/

def xxh32Round (seed input : BitVec 32) : BitVec 32 := rotl (seed + input * PRIME32_2) 13 * PRIME32_1

def xxh32Start (seed : BitVec 32) : Fin 4 → BitVec 32 :=
    ![seed + PRIME32_1 + PRIME32_2, seed + PRIME32_2, seed + 0, seed - PRIME32_1]

def xxh32Join (v : Fin 4 → BitVec 32) : BitVec 32 := rotl (v 0) 1 + rotl (v 1) 7 + rotl (v 2) 12 + rotl (v 3) 18

def xxh32Word (h k : BitVec 32) : BitVec 32 := rotl (h + k * PRIME32_3) 17 * PRIME32_4

def xxh32Byte (h : BitVec 32) (k : Byte) : BitVec 32 := rotl (h + k.setWidth 32 * PRIME32_5) 11 * PRIME32_1

def xxh32Final (h : BitVec 32) : BitVec 32 :=
  let h := h ^^^ (h >>> 15)
  let h := h * PRIME32_2
  let h := h ^^^ (h >>> 13)
  let h := h * PRIME32_3
  h ^^^ (h >>> 16)

/-- No loop goes round more often than the buffer has bytes. -/
def xxh32 (mem : Nat → Option Byte) (input len : Nat) (seed : BitVec 32) : Reads (BitVec 32) := do
  let bEnd := input + len
  let r ← (if 16 ≤ len then do
      let limit := bEnd - 16
      let r ← stripeLoop xxh32Round mem limit (len + 1) input (xxh32Start seed)
      pure (r.1, xxh32Join r.2)
    else pure (input, seed + PRIME32_5))
  let r ← wordLoop xxh32Word mem bEnd (len + 1) r.1 (r.2 + BitVec.ofNat 32 len)
  let r ← wordLoop xxh32Byte mem bEnd (len + 1) r.1 r.2
  pure (xxh32Final r.2)

/-! ## `xxh64` -/

def xxh64Round (acc input : BitVec 64) : BitVec 64 := rotl (acc + input * PRIME64_2) 31 * PRIME64_1

def xxh64MergeRound (acc val : BitVec 64) : BitVec 64 := (acc ^^^ xxh64Round 0 val) * PRIME64_1 + PRIME64_4

def xxh64Start (seed : BitVec 64) : Fin 4 → BitVec 64 :=
    ![seed + PRIME64_1 + PRIME64_2, seed + PRIME64_2, seed + 0, seed - PRIME64_1]

def xxh64Join (v : Fin 4 → BitVec 64) : BitVec 64 :=
  let h := rotl (v 0) 1 + rotl (v 1) 7 + rotl (v 2) 12 + rotl (v 3) 18
  xxh64MergeRound (xxh64MergeRound (xxh64MergeRound (xxh64MergeRound h (v 0)) (v 1)) (v 2)) (v 3)

def xxh64Word (h k : BitVec 64) : BitVec 64 := rotl (h ^^^ xxh64Round 0 k) 27 * PRIME64_1 + PRIME64_4

def xxh64Half (h : BitVec 64) (k : BitVec 32) : BitVec 64 :=
    rotl (h ^^^ k.setWidth 64 * PRIME64_1) 23 * PRIME64_2 + PRIME64_3

def xxh64Byte (h : BitVec 64) (k : Byte) : BitVec 64 := rotl (h ^^^ k.setWidth 64 * PRIME64_5) 11 * PRIME64_1

def xxh64Final (h : BitVec 64) : BitVec 64 :=
  let h := h ^^^ (h >>> 33)
  let h := h * PRIME64_2
  let h := h ^^^ (h >>> 29)
  let h := h * PRIME64_3
  h ^^^ (h >>> 32)

def xxh64 (mem : Nat → Option Byte) (input len : Nat) (seed : BitVec 64) : Reads (BitVec 64) := do
  let bEnd := input + len
  let r ← (if 32 ≤ len then do
      let limit := bEnd - 32
      let r ← stripeLoop xxh64Round mem limit (len + 1) input (xxh64Start seed)
      pure (r.1, xxh64Join r.2)
    else pure (input, seed + PRIME64_5))
  let r ← wordLoop xxh64Word mem bEnd (len + 1) r.1 (r.2 + BitVec.ofNat 64 len)
  let r ← (if r.1 + 4 ≤ bEnd then do
      let k ← getUnalignedLe 32 mem r.1
      pure (r.1 + 4, xxh64Half r.2 k)
    else pure r)
  let r ← wordLoop xxh64Byte mem bEnd (len + 1) r.1 r.2
  pure (xxh64Final r.2)

/-! ## Digests -/

/-- The word of `w` bits at offset `o`. -/
def wordAt (w : Nat) (b : Nat → Byte) (o : Nat) : BitVec w :=
  BitVec.ofNat w (Nat.ofDigits 256 ((List.range (w / 8)).map fun i => (b (o + i)).toNat))

/-- The accumulators after `n` stripes from offset `o` on. -/
def lanesOn {w : Nat} (round : BitVec w → BitVec w → BitVec w) (b : Nat → Byte) : Nat → Nat → (Fin 4 → BitVec w) →
    Fin 4 → BitVec w
  | 0, _, v => v
  | n + 1, o, v => lanesOn round b n (o + w / 8 * 4) fun j => round (v j) (wordAt w b (o + w / 8 * j))

/-- `n` words from offset `o` on, one after the other. -/
def wordsOn {w w' : Nat} (step : BitVec w → BitVec w' → BitVec w) (b : Nat → Byte) : Nat → Nat → BitVec w → BitVec w
  | 0, _, h => h
  | n + 1, o, h => wordsOn step b n (o + w' / 8) (step h (wordAt w' b o))

def digest32 (b : Nat → Byte) (len : Nat) (seed : BitVec 32) : BitVec 32 :=
  let h := if 16 ≤ len then xxh32Join (lanesOn xxh32Round b (len / 16) 0 (xxh32Start seed)) else seed + PRIME32_5
  let h := wordsOn xxh32Word b (len % 16 / 4) (16 * (len / 16)) (h + BitVec.ofNat 32 len)
  xxh32Final (wordsOn xxh32Byte b (len % 4) (4 * (len / 4)) h)

def digest64 (b : Nat → Byte) (len : Nat) (seed : BitVec 64) : BitVec 64 :=
  let h := if 32 ≤ len then xxh64Join (lanesOn xxh64Round b (len / 32) 0 (xxh64Start seed)) else seed + PRIME64_5
  let h := wordsOn xxh64Word b (len % 32 / 8) (32 * (len / 32)) (h + BitVec.ofNat 64 len)
  let h := wordsOn xxh64Half b (len % 8 / 4) (8 * (len / 8)) h
  xxh64Final (wordsOn xxh64Byte b (len % 4) (4 * (len / 4)) h)

-- No bytes at all.
example : digest32 (fun _ => 0) 0 0 = 0x02CC5D05 := by decide

example : digest64 (fun _ => 0) 0 0 = 0xEF46DB3751D8E999 := by decide

-- "abc", which has no whole word.
example : digest32 (fun i => [0x61, 0x62, 0x63].getD i 0) 3 0 = 0x32D153FF := by decide

example : digest64 (fun i => [0x61, 0x62, 0x63].getD i 0) 3 0 = 0x44BC2CF5AD770999 := by decide

/-- "Nobody inspects the spammish repetition": a stripe or two, words and bytes. -/
def spammish : List Byte :=
  [ 0x4e, 0x6f, 0x62, 0x6f, 0x64, 0x79, 0x20, 0x69, 0x6e, 0x73, 0x70, 0x65, 0x63,
    0x74, 0x73, 0x20, 0x74, 0x68, 0x65, 0x20, 0x73, 0x70, 0x61, 0x6d, 0x6d, 0x69,
    0x73, 0x68, 0x20, 0x72, 0x65, 0x70, 0x65, 0x74, 0x69, 0x74, 0x69, 0x6f, 0x6e ]

example : digest32 (fun i => spammish.getD i 0) 39 0 = 0xE2293B2F := by decide +kernel

example : digest64 (fun i => spammish.getD i 0) 39 0 = 0xFBCEA83C8A378BF1 := by decide +kernel

end KanekFoundations.Hash

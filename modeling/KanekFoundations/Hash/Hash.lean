/-
  KanekFoundations.Hash.Hash — the word hash of `hash.c`: `ascii_2_mx79` and `hash_b79`.

  A C string is its bytes up to the terminator; `none` is NULL. An `int` is an integer,
  a `uint64_t` a natural number below `2^64`.
-/

import KanekFoundations.Lib.CInt

namespace KanekFoundations.Hash

open KanekFoundations.Lib

abbrev CStr := { s : List Byte // (0 : Byte) ∉ s }

structure Hb79R where
  lim : Int
  val : Int
  flag : Int

def hb79R : List Hb79R :=
  [
    ⟨1, 0, 0⟩,
    ⟨0x20, 1, 0⟩,
    ⟨0x22, 2, 1⟩,
    ⟨0x28, 4, 0⟩,
    ⟨0x2a, 5, 1⟩,
    ⟨0x2d, 7, 0⟩,
    ⟨0x3a, 8, 1⟩,
    ⟨0x41, 21, 0⟩,
    ⟨0x5b, 22, 1⟩,
    ⟨0x5e, 48, 0⟩,
    ⟨0x61, 49, 0⟩,
    ⟨0x7b, 50, 1⟩,
    ⟨0x7d, 76, 0⟩,
    ⟨0x7f, 77, 0⟩,
    ⟨256, 78, 0⟩,
    ⟨0, 0, 0⟩
  ]

/-- The loop over the table, up to its entry without a limit. -/
def scanRanges (c : Int) : Int → List Hb79R → Int
  | _, [] => -1
  | limsup, r :: rs =>
    if r.lim = 0 then -1
    else
      let liminf := limsup
      let limsup := r.lim
      if c ≥ liminf ∧ c < limsup then
        if r.flag = 0 then r.val else c - liminf + r.val
      else scanRanges c limsup rs

def ascii2Mx79 (c : Int) : Int := scanRanges c 0 hb79R

/-- One round of `hash_b79`, for `i`; `l` is the length of `s`. -/
def roundB79 (s : CStr) (l : Int) (h : Nat) (i : Nat) : Nat :=
  let cc := if (i : Int) < l then ascii2Mx79 (s.val.getD i 0).toNat else 0
  u64 (u64 (h * 79) + u64OfInt cc)

def hashB79 : Option CStr → Nat
  | none => 0
  | some s => (List.range 10).foldl (roundB79 s (i32 s.val.length)) 0

end KanekFoundations.Hash

/-
  KanekFoundations.Dump.Dumphex — the memory dumps of `dumphex.c`.

  A dump reads bytes at offsets from its pointer and prints texts; both are events. Reading a
  byte that cannot be read is stuck. The counters are an `unsigned int`, the size is a `size_t`.
  A loop is given the number of rounds it may run; it is stuck when it wants another one.

  Words are little-endian, `isprint` is that of the C locale.
-/

import KanekFoundations.Lib.CInt

namespace KanekFoundations.Dump

open KanekFoundations.Lib

inductive Event
  | read (off : Nat)
  | print (text : String)
  deriving DecidableEq

/-- The bytes that can be read, by offset. -/
abbrev Memory := Nat → Option Byte

abbrev M (α : Type) := StateT (List Event) Option α

variable (mem : Memory)

def stuck {α : Type} : M α := fun _ => none

def readByte (off : Nat) : M Byte := fun log => (mem off).map fun b => (b, log ++ [.read off])

def printf (text : String) : M Unit := fun log => some ((), log ++ [.print text])

/-! ## Texts -/

/-- `%0wx` -/
def hex (w n : Nat) : String := String.ofList ((Nat.toDigits 16 n).leftpad w '0')

def isprint (b : Byte) : Bool := 0x20 ≤ b.toNat && b.toNat ≤ 0x7e

/-- `%c` -/
def charText (b : Byte) : String := String.singleton (Char.ofNat b.toNat)

/-- A byte that is printable is read again to print it. -/
def printChar (off : Nat) : M Unit := do
  if isprint (← readByte mem off) then
    let b ← readByte mem off
    printf (charText b)
  else printf "."

/-! ## dump_uint32, dump_uint64 -/

/-- The word of the `w` bytes from `off` on. -/
def readWord (w off : Nat) : M Nat := do
  let bytes ← (List.range w).mapM fun j => readByte mem (off + j)
  pure (Nat.ofDigits 256 (bytes.map BitVec.toNat))

def wordRow (w i : Nat) : M Unit := do
  let word ← readWord mem w (w * i)
  printf ("[0x" ++ hex 8 i ++ "]  [0x" ++ hex (2 * w) word ++ "]  ")
  (List.range w).reverse.forM fun j => printChar mem (w * i + j)
  printf "\n"

/-- `for (; i < n; i++)` -/
def wordRows (w n : Nat) : Nat → Nat → M Unit
  | 0, i => if i < n then stuck else pure ()
  | fuel + 1, i =>
    if i < n then do
      wordRow mem w i
      wordRows w n fuel (u32 (i + 1))
    else pure ()

def dumpWords (w : Nat) (title : String) (size fuel : Nat) : M Unit := do
  printf title
  wordRows mem w (size / w) fuel 0

def TITLE_UINT32 : String := "------------  ------------  ----\n"

def TITLE_UINT64 : String := "--------------------  --------------------  --------\n"

def dumpUint32 (size fuel : Nat) : M Unit := dumpWords mem 4 TITLE_UINT32 size fuel

def dumpUint64 (size fuel : Nat) : M Unit := dumpWords mem 8 TITLE_UINT64 size fuel

/-! ## dumphex -/

/-- `for (i = lo; i < hi; i++, c++)`, and the counter after it. -/
def forCells (cell : Nat → Nat → M Unit) (lo hi c : Nat) : M Nat :=
  (List.range' lo (hi - lo)).foldlM (fun c i => do
    cell i c
    pure (u32 (c + 1))) c

def hexCell (size p i l : Nat) : M Unit := do
  if l < size then
    let b ← readByte mem (p + i)
    printf (hex 2 b.toNat ++ " ")
  else printf "   "

def charCell (size p i m : Nat) : M Unit := if m < size then printChar mem (p + i) else printf " "

def hexPart (size p l : Nat) : M Nat := do
  printf ("0x" ++ hex 8 l ++ "  ")
  let l ← forCells (hexCell mem size p) 0 8 l
  printf " "
  forCells (hexCell mem size p) 8 16 l

def charPart (size p m : Nat) : M Nat := do
  let m ← forCells (charCell mem size p) 0 8 m
  printf " "
  forCells (charCell mem size p) 8 16 m

/-- The variables of the loop: the data pointer, and the counters of the two parts of a row. -/
structure Cursor where
  p : Nat
  l : Nat
  m : Nat

def dumpRow (size : Nat) (s : Cursor) : M Cursor := do
  let l ← hexPart mem size s.p s.l
  printf "   "
  let m ← charPart mem size s.p s.m
  printf "\n"
  pure ⟨s.p + 16, l, m⟩

/-- `do … while (l < size)` -/
def dumpRows (size : Nat) : Nat → Cursor → M Unit
  | 0, _ => stuck
  | fuel + 1, s => do
    let s ← dumpRow mem size s
    if s.l < size then dumpRows size fuel s else pure ()

def TITLE_COLUMNS : String :=
  "            _0 _1 _2 _3 _4 _5 _6 _7  _8 _9 _A _B _C _D _E _F    01234567 89ABCDEF\n"

def TITLE_LINE : String :=
  "            -----------------------  -----------------------    -------- --------\n"

def dumphex (size fuel : Nat) : M Int := do
  printf TITLE_COLUMNS
  printf TITLE_LINE
  dumpRows mem size fuel ⟨0, 0, 0⟩
  printf "\n"
  pure 0

end KanekFoundations.Dump

/-
  KanekFoundations.Cfg.Var — the values of `var.c` in memory.

  Memory is a heap of blocks: a `var_t`, a C string, the items of an array. A pointer is an
  address, NULL is `none`. An access to a block that is freed, or of another sort than the
  code takes it for, is stuck. The n-th allocation succeeds when `mallocOk n` says so; a
  `realloc` always moves.

  Lengths are natural numbers: two strings that are in memory at once have a combined length
  that a `size_t` holds. A `dict_t` in a value is held in the block of its `var_t`.
-/

import KanekFoundations.Lib.Heap
import KanekFoundations.Lib.Exec
import KanekFoundations.Cfg.Lexer
import KanekFoundations.Dict.Dict

namespace KanekFoundations.Cfg

open KanekFoundations.Lib

inductive Block (F : Type)
  | null
  | int (i : Int)
  | float (f : F)
  | bool (b : Bool)
  | str (s : Option Addr)
  | array (items : Addr) (len cap : Nat)
  | dict (d : Dict (List Byte) Addr)
  /-- Memory nothing was written to yet. -/
  | raw (size : Nat)
  /-- A C string in a buffer of `cap` bytes. -/
  | chars (cap : Nat) (text : List Byte)
  /-- Room for `cap` items, those written so far. -/
  | ptrs (cap : Nat) (cells : List (Option Addr))

/-- What is done with files. A line is one that `parse_line` was given, with its answer. -/
inductive FileEvent
  | opened (path : List Byte)
  | line (text : List Byte) (rc : Int)
  | closed (path : List Byte)
  deriving DecidableEq

structure Mem (F : Type) where
  heap : Heap (Block F)
  /-- The calls of the allocator so far. -/
  mallocs : Nat
  vars : Dict (List Byte) Addr
  /-- What was printed to stdout, and the reports. -/
  out : List Byte
  trace : List Report
  files : List FileEvent

abbrev M (F : Type) := StateT (Mem F) Option

variable {F : Type} {α : Type}

/-! ## Memory -/

def stuck : M F α := fun _ => none

def load (a : Addr) : M F (Block F) := fun m => (m.heap.get a).map fun b => (b, m)

def store (a : Addr) (b : Block F) : M F Unit := fun m =>
  (m.heap.get a).map fun _ => ((), { m with heap := m.heap.put a (some b) })

def taMalloc (sys : Sys F) (b : Block F) : M F (Option Addr) := fun m =>
  if sys.mallocOk m.mallocs = true then
    some (some m.heap.length, { m with heap := m.heap.alloc b, mallocs := m.mallocs + 1 })
  else some (none, { m with mallocs := m.mallocs + 1 })

def taFree (p : Option Addr) : M F Unit :=
  match p with
  | none => pure ()
  | some a => fun m => (m.heap.get a).map fun _ => ((), { m with heap := m.heap.put a none })

/-- `ta_realloc` of the block at `a`; `b` is what it holds then. -/
def taRealloc (sys : Sys F) (a : Addr) (b : Block F) : M F (Option Addr) := do
  match ← taMalloc sys b with
  | none => pure none
  | some a' => do
    taFree (some a)
    pure (some a')

def taStrdup (sys : Sys F) (s : List Byte) : M F (Option Addr) := taMalloc sys (.chars (s.length + 1) s)

/-- The text of the C string at `a`. -/
def cstr (a : Addr) : M F (List Byte) := do
  match ← load a with
  | .chars _ text => pure text
  | _ => stuck

/-- `memcpy(buf + off, s, strlen(s) + 1)`, within the buffer. -/
def memcpy (buf : Addr) (off : Nat) (s : List Byte) : M F Unit := do
  match ← load buf with
  | .raw cap => if off = 0 ∧ s.length + 1 ≤ cap then store buf (.chars cap s) else stuck
  | .chars cap text =>
    if off ≤ text.length ∧ off + s.length + 1 ≤ cap then store buf (.chars cap (text.take off ++ s)) else stuck
  | _ => stuck

def printf (s : List Byte) : M F Unit := fun m => some ((), { m with out := m.out ++ s })

/-! ## Constructors -/

def ARRAY_INIT_CAP : Nat := 8

/-- `sizeof(var_t)` -/
def varSize : Nat := 32

def varInt (sys : Sys F) (v : Int) : M F (Option Addr) := taMalloc sys (.int v)

def varFloat (sys : Sys F) (v : F) : M F (Option Addr) := taMalloc sys (.float v)

def varBool (sys : Sys F) (v : Int) : M F (Option Addr) := taMalloc sys (.bool (v ≠ 0))

def varNull (sys : Sys F) : M F (Option Addr) := taMalloc sys .null

def varStr (sys : Sys F) (s : Option (List Byte)) : M F (Option Addr) := do
  match ← taMalloc sys (.str none) with
  | none => pure none
  | some var =>
    match s with
    | none => pure (some var)
    | some s => do
      let dup ← taStrdup sys s
      store var (.str dup)
      pure (some var)

def varArray (sys : Sys F) : M F (Option Addr) := do
  match ← taMalloc sys (.raw varSize) with
  | none => pure none
  | some var => do
    match ← taMalloc sys (.ptrs ARRAY_INIT_CAP []) with
    | none => do
      taFree (some var)
      pure none
    | some items => do
      store var (.array items 0 ARRAY_INIT_CAP)
      pure (some var)

/-! ## Array operations -/

/-- The items written so far. -/
def cells (items : Addr) : M F (List (Option Addr)) := do
  match ← load items with
  | .ptrs _ cells => pure cells
  | _ => stuck

/-- `arr->arr.items[arr->arr.len++] = item` -/
def putItem (arr items : Addr) (len cap : Nat) (item : Option Addr) : M F Unit := do
  let written ← cells items
  if len = written.length ∧ len < cap then do
    store items (.ptrs cap (written ++ [item]))
    store arr (.array items (len + 1) cap)
  else stuck

def varPush (sys : Sys F) (arr : Option Addr) (item : Option Addr) : M F Int := do
  match arr with
  | none => pure (-1)
  | some a =>
    match ← load a with
    | .array items len cap =>
      if len = cap then do
        let written ← cells items
        match ← taRealloc sys items (.ptrs (cap * 2) written) with
        | none => pure (-1)
        | some grown => do
          putItem a grown len (cap * 2) item
          pure 0
      else do
        putItem a items len cap item
        pure 0
    | _ => pure (-1)

def varGet (arr : Option Addr) (idx : Nat) : M F (Option Addr) := do
  match arr with
  | none => pure none
  | some a =>
    match ← load a with
    | .array items len _ =>
      if len ≤ idx then pure none
      else do
        match (← cells items)[idx]? with
        | some item => pure item
        | none => stuck
    | _ => pure none

def varLen (arr : Option Addr) : M F Nat := do
  match arr with
  | none => pure 0
  | some a =>
    match ← load a with
    | .array _ len _ => pure len
    | _ => pure 0

/-! ## Text of a value -/

def nullText : List Byte := ascii ['n', 'u', 'l', 'l']

def boolText (b : Bool) : List Byte :=
  if b then ascii ['t', 'r', 'u', 'e'] else ascii ['f', 'a', 'l', 's', 'e']

def varToStr (sys : Sys F) (v : Option Addr) : M F (Option Addr) := do
  match v with
  | none => taStrdup sys nullText
  | some a =>
    match ← load a with
    | .int i => taStrdup sys (decimal i)
    | .float f => taStrdup sys (sys.fmtG f)
    | .bool b => taStrdup sys (boolText b)
    | .str none => taStrdup sys nullText
    | .str (some s) => do taStrdup sys (← cstr s)
    | .null => taStrdup sys nullText
    | .array _ _ _ => taStrdup sys (ascii ['[', 'a', 'r', 'r', 'a', 'y', ']'])
    | .dict _ => taStrdup sys (ascii ['{', 'd', 'i', 'c', 't', '}'])
    | _ => stuck

/-! ## Display -/

def PRINT_MAX_DEPTH : Nat := 32

/-- Print the elements of a list with commas between them. -/
def printSep (print : α → M F Unit) : List α → M F Unit
  | [] => pure ()
  | [x] => print x
  | x :: y :: xs => do
    print x
    printf (ascii [',', ' '])
    printSep print (y :: xs)

/-- `var_print_depth` with `n` levels left, and in it `dict_print_depth`. -/
def varPrintDepth (sys : Sys F) : Nat → Option Addr → M F Unit
  | 0, _ => printf (ascii ['.', '.', '.'])
  | _ + 1, none => printf nullText
  | n + 1, some a => do
    match ← load a with
    | .null => printf nullText
    | .int i => printf (decimal i)
    | .float f => printf (sys.fmtG f)
    | .bool b => printf (boolText b)
    | .str s => do
      let text ← match s with
        | none => pure nullText
        | some s => cstr s
      printf (chr '"' :: text ++ [chr '"'])
    | .array items len _ => do
      printf [chr '[']
      let written ← cells items
      if len ≤ written.length then printSep (varPrintDepth sys n) (written.take len) else stuck
      printf [chr ']']
    | .dict d =>
      match n with
      | 0 => printf (ascii ['.', '.', '.'])
      | n + 1 => do
        printf [chr '\x7b']
        printSep (fun e : Dict.Entry (List Byte) Addr => do
          printf (chr '"' :: e.key ++ ascii ['"', ':', ' '])
          varPrintDepth sys n e.val) d.visited
        printf [chr '\x7d']
    | _ => stuck

def varPrint (sys : Sys F) (v : Option Addr) : M F Unit := varPrintDepth sys (PRINT_MAX_DEPTH + 1) v

end KanekFoundations.Cfg

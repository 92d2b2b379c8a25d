/-
  KanekFoundations.Dict.Nodes — the dictionary in memory, and the functions that walk its
  chains: `dict_del`, `dict_each`, and `dict_print_depth` of `var.c`.

  Memory holds the entries, each at the address of its node, and the heads of the chains:
  `buckets` is the address of the array. A freed entry is gone: a program that follows a
  link of it is stuck. A callback is a program on the same memory, with what its
  `userdata` points to; it keeps to `dict_del` and does not rehash.
-/

import KanekFoundations.Cfg.Var
import KanekFoundations.Links.Links

namespace KanekFoundations.Dict.Nodes

open KanekFoundations.Lib KanekFoundations.Links

variable {K V U : Type}

/-- What is handed to `printf`, and to `var_print_depth` with its depth. -/
inductive Piece (K V : Type)
  | text (s : String)
  | key (k : K)
  | val (v : Option V) (depth : Int)
  deriving DecidableEq

/-- The node of an entry has the entry, the head of a chain nothing. -/
structure Mem (K V : Type) where
  nodes : Links.Entries (Option (Entry K V))
  buckets : Addr
  nbuckets : BitVec 32
  count : Nat
  printed : List (Piece K V)

abbrev M (K V α : Type) := StateT (Mem K V) Option α

/-- `sizeof( list_t)` -/
def LIST_T : Nat := 16

/-- `&d->buckets[i]` -/
def Mem.head (m : Mem K V) (i : Nat) : Addr := m.buckets + LIST_T * i

/-! ## Memory -/

def links {α : Type} (x : Links.M (Option (Entry K V)) α) : M K V α := fun m =>
  (x m.nodes).map fun r => (r.1, { m with nodes := r.2 })

/-- `container_of( pos, dict_entry_t, node)`: the node comes first in the entry. -/
def getEntry (pos : Addr) : M K V (Entry K V) := fun m => (m.nodes.rest pos).join.map fun e => (e, m)

def taFree (pos : Addr) : M K V Unit := fun m =>
  (m.nodes.rest pos).join.map fun _ => ((), { m with nodes := m.nodes.put pos none })

def printf (p : Piece K V) : M K V Unit := fun m => some ((), { m with printed := m.printed ++ [p] })

def nextOf (a : Addr) : M K V Addr := links (getNext a)

/-- `for ( i = 0; i < (int)d->nbuckets; i++)` from `i` on. -/
def forBucketsFrom (body : U → Nat → M K V U) : Nat → Nat → U → M K V U
  | 0, _, _ => fun _ => none
  | k + 1, i, u => do
    let m ← get
    if (i : Int) < i32 m.nbuckets.toNat then do
      let u ← body u i
      forBucketsFrom body k (i + 1) u
    else pure u

/-- The loop ends at `INT_MAX` at the latest. -/
def forBuckets (body : U → Nat → M K V U) (u : U) : M K V U := forBucketsFrom body (2 ^ 31) 0 u

/-! ## The functions -/

/-- No chain has more nodes than the dictionary has entries. -/
def dictDel [DecidableEq K] (hash : K → BitVec 32) (key : Option K) : M K V Int :=
  match key with
  | none => pure (-1)
  | some key => do
    let m ← get
    let b := bucketForN hash key m.nbuckets
    let r ← forEachUntil nextOf (fun pos => do
      let e ← getEntry pos
      if e.key = key then do
        links (listDel pos)
        taFree pos
        modify fun m => { m with count := m.count - 1 }
        pure (some 0)
      else pure none) (m.head b) (m.count + 1)
    pure (r.getD (-1))

def dictEach (fn : K → Option V → U → M K V U) (userdata : U) : M K V U :=
  forBuckets (fun u i => do
    let m ← get
    forEachSafe nextOf (fun u pos => do
      let e ← getEntry pos
      fn e.key e.val u) (m.head i) (m.count + 1) u) userdata

/-- The loop body of `dict_print_depth`: a separator, then `"key": ` and the value. -/
def printItem (depth : Int) (first : Bool) (e : Entry K V) : M K V Bool := do
  if first = false then printf (.text ", ") else pure ()
  printf (.text "\"")
  printf (.key e.key)
  printf (.text "\": ")
  printf (.val e.val (depth + 1))
  pure false

def dictPrintDepth (depth : Int) : M K V Unit := do
  if depth > Cfg.PRINT_MAX_DEPTH then printf (.text "...")
  else do
    printf (.text "\x7b")
    -- `first` starts as 1.
    let _ ← forBuckets (fun first i => do
      let m ← get
      forEach nextOf (fun first pos => do
        let e ← getEntry pos
        printItem depth first e) (m.head i) (m.count + 1) first) true
    printf (.text "\x7d")

/-! ## What is in memory -/

/-- The memory holds the table `d`: the chain of bucket `b` is linked through the nodes
    `addrs b`, in order. -/
structure Holds (m : Mem K V) (d : Dict K V) (addrs : Nat → List Addr) : Prop where
  nbuckets : m.nbuckets = d.nbuckets
  count : m.count = d.count
  ring : ∀ b < d.buckets.length, m.nodes.IsRing (m.head b) (addrs b)
  entries : ∀ b < d.buckets.length, (addrs b).map m.nodes.rest = (chainAt d.buckets b).map fun e => some (some e)
  heads : ∀ b < d.buckets.length, m.nodes.rest (m.head b) = some none

end KanekFoundations.Dict.Nodes

/-
  KanekFoundations.Dict.Dict — the dictionary of `dict.c`.

  A dictionary is a table of chains of entries. Keys are compared by `strcmp` and hashed
  by `xxh32`; here they are of any type with decidable equality and the hash is any
  function. A value is a pointer: `none` is NULL. Every allocation may fail: the flags
  `entryOk`, `tableOk` say whether it succeeds. What a call frees is listed, blocks of
  the dictionary's own and values alike. `d` itself is not NULL.

  `count` is a `size_t`; an entry takes more than four bytes, so `count * 4` does not wrap.
-/

import KanekFoundations.Lib.CInt
import KanekFoundations.Lib.Chains

namespace KanekFoundations

open KanekFoundations.Lib

structure Dict.Entry (K V : Type) where
  key : K
  val : Option V
  deriving DecidableEq

structure Dict (K V : Type) where
  buckets : List (List (Dict.Entry K V))
  nbuckets : BitVec 32
  count : Nat
  deriving DecidableEq

namespace Dict

variable {K V : Type} [DecidableEq K] [DecidableEq V]

/-- A block handed to `ta_free`; `table` is a bucket array. -/
inductive Freed (K V : Type)
  | val (v : V)
  | entry (e : Entry K V)
  | table
  deriving DecidableEq

def DICT_NBUCKETS : BitVec 32 := 64

def bucketForN (hash : K → BitVec 32) (key : K) (n : BitVec 32) : Nat := (hash key &&& (n - 1)).toNat

def isPowerOfTwo (n : BitVec 32) : Bool := decide (0 < n) && n &&& (n - 1) == 0

/-! ## Lifecycle -/

def dictNewSized (bucketCount : BitVec 32) (dictOk tableOk : Bool) : Option (Dict K V) :=
  if bucketCount < 4 ∨ isPowerOfTwo bucketCount = false then none
  else if dictOk = false then none
  else if tableOk = false then none
  else some ⟨List.replicate bucketCount.toNat [], bucketCount, 0⟩

def dictNew (dictOk tableOk : Bool) : Option (Dict K V) := dictNewSized DICT_NBUCKETS dictOk tableOk

structure Out (K V : Type) where
  rc : Int
  d : Dict K V
  freed : List (Freed K V)

def dictRehash (hash : K → BitVec 32) (d : Dict K V) (newNbuckets : BitVec 32) (tableOk : Bool) : Out K V :=
  if newNbuckets < 4 ∨ isPowerOfTwo newNbuckets = false then ⟨-1, d, []⟩
  else if tableOk = false then ⟨-1, d, []⟩
  else
    let empty := List.replicate newNbuckets.toNat []
    let newBuckets := (List.range d.nbuckets.toNat).foldl (fun new i =>
      (chainAt d.buckets i).foldl (fun new e => addTail new (bucketForN hash e.key newNbuckets) e) new) empty
    ⟨0, ⟨newBuckets, newNbuckets, d.count⟩, [.table]⟩

/-! ## CRUD -/

/-- Update the first entry with the key: the new chain and the value it had. -/
def updateChain (key : K) (val : Option V) : List (Entry K V) → Option (List (Entry K V) × Option V)
  | [] => none
  | e :: es =>
    if e.key = key then some (⟨e.key, val⟩ :: es, e.val)
    else (updateChain key val es).map fun r => (e :: r.1, r.2)

/-- Unlink the first entry with the key: the new chain and the entry. -/
def unlinkChain (key : K) : List (Entry K V) → Option (List (Entry K V) × Entry K V)
  | [] => none
  | e :: es => if e.key = key then some (es, e) else (unlinkChain key es).map fun r => (e :: r.1, r.2)

def dictSetImpl (hash : K → BitVec 32) (d : Dict K V) (key : Option K) (val : Option V)
    (freeOld entryOk tableOk : Bool) :
    Out K V :=
  match key with
  | none => ⟨-1, d, []⟩
  | some key =>
    let b := bucketForN hash key d.nbuckets
    match updateChain key val (chainAt d.buckets b) with
    | some (chain, old) =>
      -- `ta_free` of NULL does nothing.
      ⟨0, { d with buckets := d.buckets.set b chain }, if freeOld = true ∧ old ≠ val then old.toList.map .val else []⟩
    | none =>
      if entryOk = false then ⟨-1, d, []⟩
      else
        let d : Dict K V := { d with buckets := addTail d.buckets b ⟨key, val⟩, count := d.count + 1 }
        if d.nbuckets.toNat * 3 ≤ d.count * 4 ∧ d.nbuckets.toNat ≤ (2 ^ 32 - 1) / 2 then
          let r := dictRehash hash d (d.nbuckets * 2) tableOk
          ⟨0, r.d, r.freed⟩
        else ⟨0, d, []⟩

def dictSet (hash : K → BitVec 32) (d : Dict K V) (key : Option K) (val : Option V)
    (entryOk tableOk : Bool) : Out K V :=
  dictSetImpl hash d key val false entryOk tableOk

def dictSetOwned (hash : K → BitVec 32) (d : Dict K V) (key : Option K) (val : Option V)
    (entryOk tableOk : Bool) : Out K V :=
  dictSetImpl hash d key val true entryOk tableOk

def dictFind (hash : K → BitVec 32) (d : Dict K V) (key : K) : Option (Entry K V) :=
  (chainAt d.buckets (bucketForN hash key d.nbuckets)).find? fun e => e.key = key

def dictGet (hash : K → BitVec 32) (d : Dict K V) (key : Option K) : Option V :=
  match key with
  | none => none
  | some key => (dictFind hash d key).bind Entry.val

def dictDel (hash : K → BitVec 32) (d : Dict K V) (key : Option K) : Out K V :=
  match key with
  | none => ⟨-1, d, []⟩
  | some key =>
    let b := bucketForN hash key d.nbuckets
    match unlinkChain key (chainAt d.buckets b) with
    | some (chain, e) => ⟨0, { d with buckets := d.buckets.set b chain, count := d.count - 1 }, [.entry e]⟩
    | none => ⟨-1, d, []⟩

def dictHas (hash : K → BitVec 32) (d : Dict K V) (key : Option K) : Int :=
  match key with
  | none => 0
  | some key => if (dictFind hash d key).isSome then 1 else 0

def dictCount (d : Dict K V) : Nat := d.count

/-- The entries behind the loops `for ( i = 0; i < (int)d->nbuckets; i++)` over the chains. -/
def visited (d : Dict K V) : List (Entry K V) := (List.range (i32 d.nbuckets.toNat).toNat).flatMap (chainAt d.buckets)

end Dict

end KanekFoundations

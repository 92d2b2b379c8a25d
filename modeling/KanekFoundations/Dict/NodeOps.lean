/-
  KanekFoundations.Dict.NodeOps — the functions of `dict.c` that build the dictionary in
  memory, look keys up and rehash (`dict_del` and the walks: `KanekFoundations.Dict.Nodes`).

  What an allocation answers is given with the call: NULL, or where the block is. The
  links of a block of `ta_malloc` hold whatever was there, those of `ta_calloc` zero.
  `ta_free` of a value is outside of this memory; a call lists the values it frees.

  `Runs`: calls one after the other. The allocator hands out memory that is not in use
  (`Op.Fresh`); that is all that is asked of it.
-/

import KanekFoundations.Dict.Nodes

namespace KanekFoundations.Dict.Nodes

open KanekFoundations.Lib KanekFoundations.Links

variable {K V U σ β : Type}

/-! ## Blocks -/

structure Block where
  addr : Addr
  next : Addr
  prev : Addr
  deriving DecidableEq

/-- `&buckets[i]` for each of `n` buckets -/
def cells (buckets : Addr) (n : Nat) : List Addr := (List.range n).map fun i => buckets + LIST_T * i

def taCalloc (table : Option Addr) (n : Nat) : Links.M (Option (Entry K V)) (Option Addr) := fun e =>
  match table with
  | none => some (none, e)
  | some t => some (some t, fun c => if c ∈ cells t n then some ⟨0, 0, none⟩ else e c)

/-- `ta_free( old_buckets)` -/
def taFreeTable (buckets : Addr) (n : Nat) : Links.M (Option (Entry K V)) Unit := fun e =>
  if (cells buckets n).all fun c =>
    (e.rest c).any Option.isNone then some ((), fun c => if c ∈ cells buckets n then none else e c)
  else none

/-- `ta_malloc` of an entry, with its key and value filled in. -/
def newEntry (entry : Option Block) (key : K) (val : Option V) : M K V (Option Addr) := fun m =>
  match entry with
  | none => some (none, m)
  | some b => some (some b.addr, { m with nodes := m.nodes.put b.addr (some ⟨b.next, b.prev, some ⟨key, val⟩⟩) })

/-- `e->val = val` -/
def setVal (pos : Addr) (val : Option V) : M K V Unit := fun m =>
  (m.nodes.rest pos).join.map fun e => ((), { m with nodes := m.nodes.withRest pos (some ⟨e.key, val⟩) })

/-! ## Lifecycle -/

def initHeads (buckets : Addr) (n : Nat) : Links.M (Option (Entry K V)) Unit :=
  (List.range n).forM fun i => initListHead (buckets + LIST_T * i)

def dictNewSized (bucketCount : BitVec 32) (dictOk : Bool) (table : Option Addr) :
    Links.M (Option (Entry K V)) (Option (Mem K V)) :=
  if bucketCount < 4 ∨ isPowerOfTwo bucketCount = false then pure none
  else if dictOk = false then pure none
  else do
    match ← taCalloc table bucketCount.toNat with
    | none => pure none
    | some buckets => do
      initHeads buckets bucketCount.toNat
      let nodes ← get
      pure (some ⟨nodes, buckets, bucketCount, 0, []⟩)

/-- The body of the loop in `dict_rehash`. -/
def moveEntry (hash : K → BitVec 32) (newBuckets : Addr) (newNbuckets : BitVec 32) (_ : Unit) (pos : Addr) :
    M K V Unit := do
  let e ← getEntry pos
  let newB := bucketForN hash e.key newNbuckets
  links (listDel pos)
  links (listAddTail pos (newBuckets + LIST_T * newB))

def dictRehash (hash : K → BitVec 32) (newNbuckets : BitVec 32) (table : Option Addr) : M K V Int :=
  if newNbuckets < 4 ∨ isPowerOfTwo newNbuckets = false then pure (-1)
  else do
    match ← links (taCalloc table newNbuckets.toNat) with
    | none => pure (-1)
    | some newBuckets => do
      links (initHeads newBuckets newNbuckets.toNat)
      let m ← get
      (List.range m.nbuckets.toNat).forM fun i =>
        forEachSafe nextOf (moveEntry hash newBuckets newNbuckets) (m.head i) (m.count + 1) ()
      modify fun m => { m with buckets := newBuckets, nbuckets := newNbuckets }
      links (taFreeTable m.buckets m.nbuckets.toNat)
      pure 0

/-! ## CRUD -/

/-- `list_for_each` around a body that may return from the function, with a value. -/
def forEachReturnFrom (link : Addr → StateT σ Option Addr) (body : Addr → StateT σ Option (Option β)) (head : Addr) :
    Nat → Addr → StateT σ Option (Option β)
  | 0, _ => fun _ => none
  | k + 1, pos =>
    if pos = head then pure none
    else do
      match ← body pos with
      | some r => pure (some r)
      | none => do
        let pos ← link pos
        forEachReturnFrom link body head k pos

def forEachReturn (link : Addr → StateT σ Option Addr) (body : Addr → StateT σ Option (Option β))
    (head : Addr) (k : Nat) :
    StateT σ Option (Option β) := do
  let pos ← link head
  forEachReturnFrom link body head k pos

section
variable [DecidableEq K]

/-- The loop over the chain of a key: `found` is what the function does with its entry before it returns. -/
def findIn (hash : K → BitVec 32) (key : K) (found : Addr → Entry K V → M K V β) : M K V (Option β) := do
  let m ← get
  let b := bucketForN hash key m.nbuckets
  forEachReturn nextOf (fun pos => do
    let e ← getEntry pos
    if e.key = key then do
      let r ← found pos e
      pure (some r)
    else pure none) (m.head b) (m.count + 1)

def dictGet (hash : K → BitVec 32) (key : Option K) : M K V (Option V) :=
  match key with
  | none => pure none
  | some key => do
    let r ← findIn hash key fun _ e => pure e.val
    pure r.join

def dictHas (hash : K → BitVec 32) (key : Option K) : M K V Int :=
  match key with
  | none => pure 0
  | some key => do
    let r ← findIn hash key fun _ _ => pure 1
    pure (r.getD 0)

def dictCount : M K V Nat := do
  let m ← get
  pure m.count

/-- The answer, and the values that were freed. -/
def dictSetImpl [DecidableEq V] (hash : K → BitVec 32) (key : Option K) (val : Option V) (freeOld : Bool)
    (entry : Option Block)
    (table : Option Addr) : M K V (Int × List V) :=
  match key with
  | none => pure (-1, [])
  | some key => do
    let r ← findIn hash key fun pos e => do
      setVal pos val
      -- `ta_free` of NULL does nothing.
      pure (if freeOld = true ∧ e.val ≠ val then e.val.toList else [])
    match r with
    | some freed => pure (0, freed)
    | none => do
      match ← newEntry entry key val with
      | none => pure (-1, [])
      | some e => do
        let m ← get
        links (listAddTail e (m.head (bucketForN hash key m.nbuckets)))
        modify fun m => { m with count := m.count + 1 }
        let m ← get
        if m.nbuckets.toNat * 3 ≤ m.count * 4 ∧ m.nbuckets.toNat ≤ (2 ^ 32 - 1) / 2 then do
          -- A rehash without memory is not a failed insert.
          let _ ← dictRehash hash (m.nbuckets * 2) table
          pure (0, [])
        else pure (0, [])

def dictSet [DecidableEq V] (hash : K → BitVec 32) (key : Option K) (val : Option V) (entry : Option Block)
    (table : Option Addr) :
    M K V (Int × List V) := dictSetImpl hash key val false entry table

def dictSetOwned [DecidableEq V] (hash : K → BitVec 32) (key : Option K) (val : Option V) (entry : Option Block)
    (table : Option Addr) : M K V (Int × List V) := dictSetImpl hash key val true entry table

/-! ## Runs -/

inductive Op (K V : Type)
  | set (key : Option K) (val : Option V) (freeOld : Bool) (entry : Option Block) (table : Option Addr)
  | del (key : Option K)
  | rehash (newNbuckets : BitVec 32) (table : Option Addr)
  | get (key : Option K)
  | has (key : Option K)
  | count
  deriving DecidableEq

/-- What a call answers, and for a set what it freed. -/
inductive Answer (V : Type)
  | rc (rc : Int) (freed : List V)
  | val (v : Option V)
  | size (n : Nat)
  deriving DecidableEq

def call [DecidableEq V] (hash : K → BitVec 32) : Op K V → M K V (Answer V)
  | .set key val freeOld entry table => do
    let r ← if freeOld then dictSetOwned hash key val entry table else dictSet hash key val entry table
    pure (.rc r.1 r.2)
  | .del key => do
    let rc ← dictDel hash key
    pure (.rc rc [])
  | .rehash newNbuckets table => do
    let rc ← dictRehash hash newNbuckets table
    pure (.rc rc [])
  | .get key => do
    let v ← dictGet hash key
    pure (.val v)
  | .has key => do
    let rc ← dictHas hash key
    pure (.rc rc [])
  | .count => do
    let n ← dictCount
    pure (.size n)

end

/-- The memory for a table of `n` buckets is not in use. -/
def FreshTable (nodes : Links.Entries (Option (Entry K V))) (table : Option Addr) (n : Nat) : Prop :=
  ∀ t ∈ table, ∀ c ∈ cells t n, nodes c = none

/-- What the allocator hands out to a call is not in use. -/
def Op.Fresh (m : Mem K V) : Op K V → Prop
  | .set _ _ _ entry table =>
    (∀ b ∈ entry, m.nodes b.addr = none) ∧ FreshTable m.nodes table (m.nbuckets * 2).toNat ∧
      ∀ b ∈ entry, ∀ t ∈ table, b.addr ∉ cells t (m.nbuckets * 2).toNat
  | .rehash newNbuckets table => FreshTable m.nodes table newNbuckets.toNat
  | _ => True

instance (nodes : Links.Entries (Option (Entry K V))) (table : Option Addr) (n : Nat)
    [DecidableEq K] [DecidableEq V] : Decidable (FreshTable nodes table n) :=
  inferInstanceAs (Decidable (∀ t ∈ table, ∀ c ∈ cells t n, nodes c = none))

instance [DecidableEq K] [DecidableEq V] (m : Mem K V) : (op : Op K V) → Decidable (op.Fresh m)
  | .set _ _ _ entry table =>
    inferInstanceAs (Decidable ((∀ b ∈ entry, m.nodes b.addr = none) ∧
      FreshTable m.nodes table (m.nbuckets * 2).toNat ∧
      ∀ b ∈ entry, ∀ t ∈ table, b.addr ∉ cells t (m.nbuckets * 2).toNat))
  | .rehash newNbuckets table => inferInstanceAs (Decidable (FreshTable m.nodes table newNbuckets.toNat))
  | .del _ | .get _ | .has _ | .count => inferInstanceAs (Decidable True)

inductive Runs [DecidableEq K] [DecidableEq V] (hash : K → BitVec 32) : Mem K V → List (Op K V × Answer V) →
    Mem K V → Prop
  | nil (m : Mem K V) : Runs hash m [] m
  | cons {m m₁ m' : Mem K V} {op : Op K V} {a : Answer V} {tr : List (Op K V × Answer V)} (hfresh : op.Fresh m)
      (hcall : call hash op m = some (a, m₁)) (hrest : Runs hash m₁ tr m') : Runs hash m ((op, a) :: tr) m'

/-- The run of these calls, if memory is free where they need it. -/
def runCalls [DecidableEq K] [DecidableEq V] (hash : K → BitVec 32) :
    Mem K V → List (Op K V) → Option (List (Op K V × Answer V) × Mem K V)
  | m, [] => some ([], m)
  | m, op :: ops =>
    if op.Fresh m then
      (call hash op m).bind fun r => (runCalls hash r.2 ops).map fun rest => ((op, r.1) :: rest.1, rest.2)
    else none

theorem runs_of_runCalls [DecidableEq K] [DecidableEq V] {hash : K → BitVec 32} {ops : List (Op K V)}
    {m m' : Mem K V} {tr : List (Op K V × Answer V)} (h : runCalls hash m ops = some (tr, m')) :
    Runs hash m tr m' := by
  induction ops generalizing m tr with
  | nil =>
    cases h
    exact .nil _
  | cons op ops ih =>
    rw [runCalls] at h
    split at h
    · rename_i hfresh
      obtain ⟨r, hcall, hmap⟩ := Option.bind_eq_some_iff.mp h
      obtain ⟨rest, hrest, heq⟩ := Option.map_eq_some_iff.mp hmap
      obtain ⟨rfl, rfl⟩ := Prod.mk.inj heq
      exact .cons hfresh hcall (ih hrest)
    · cases h

end KanekFoundations.Dict.Nodes

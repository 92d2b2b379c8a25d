/-
  KanekFoundations.Ta.Ta — the tracked allocator of `ta.c`.

  Memory holds the nodes, each at the address of its header. What `malloc` and `realloc` answer
  is up to the caller of the model; every address they gave out and every address that was
  freed is on record. A program is stuck where it touches a node that is not there, frees what
  was not given out, or writes past the end of a block.
-/

import KanekFoundations.Lib.CInt
import KanekFoundations.Links.Links

namespace KanekFoundations.Ta

open KanekFoundations.Lib KanekFoundations.Links

/-- A `ta_node_t` without its links, in a block of `total` bytes: of `dStr` and `data` there
    is what the block has room for. A byte that was never written is `none`. -/
structure Info where
  total : Nat
  size : Nat
  mark : Nat
  dStr : List (Option Byte)
  data : List (Option Byte)
  deriving DecidableEq

structure Mem where
  nodes : Entries Info
  mallocs : List Addr
  frees : List Addr
  trace : List (String × Nat)

abbrev M (α : Type) := StateT Mem Option α

/-- `sizeof( ta_node_t)` -/
def HEADER : Nat := 72

/-- `offsetof( ta_node_t, mark)`, where `size` ends. -/
def MARK : Nat := 20

/-- `offsetof( ta_node_t, d_str)`, where `mark` ends. -/
def D_STR : Nat := 24

def MAX_DBG_STR_LEN : Nat := 48

def dataPtr (node : Addr) : Addr := node + HEADER

def containerOf (p : Addr) : Addr := p - HEADER

/-! ## Memory -/

def links {α : Type} (x : Links.M Info α) : M α := fun m =>
  (x m.nodes).map fun r => (r.1, { m with nodes := r.2 })

def getInfo (a : Addr) : M Info := fun m => (m.nodes.rest a).map fun i => (i, m)

def setInfo (a : Addr) (i : Info) : M Unit := fun m =>
  (m.nodes a).map fun _ => ((), { m with nodes := m.nodes.withRest a i })

def traceErr (fmt : String) (n : Nat) : M Unit := fun m =>
  some ((), { m with trace := m.trace ++ [(fmt, n)] })

/-- A store to a field that ends at the byte `last` of its node. -/
def store (a : Addr) (last : Nat) (f : Info → Info) : M Unit := do
  let i ← getInfo a
  if i.total < last then fun _ => none else setInfo a (f i)

/-- The node in a block of `total` bytes that are all `c`, up to what `size` and `mark` then say. -/
def Info.filled (total : Nat) (c : Option Byte) : Info :=
  ⟨total, 0, 0, List.replicate (min MAX_DBG_STR_LEN (total - D_STR)) c, List.replicate (total - HEADER) c⟩

def malloc (total : Nat) (answer : Option Addr) : M (Option Addr) := fun m =>
  match answer with
  | none => some (none, m)
  | some a => some (some a, { m with
      nodes := m.nodes.put a (some ⟨0, 0, .filled total none⟩), mallocs := m.mallocs ++ [a] })

def free (a : Addr) : M Unit := fun m =>
  if (m.nodes a).isSome ∧ a ∈ m.mallocs then
    some ((), { m with nodes := m.nodes.put a none, frees := m.frees ++ [a] })
  else none

/-- The first `n` bytes, or all and new ones. -/
def resize (n : Nat) (data : List (Option Byte)) : List (Option Byte) :=
  data.take n ++ List.replicate (n - data.length) none

def Info.resized (total : Nat) (i : Info) : Info :=
  { i with total := total, dStr := resize (min MAX_DBG_STR_LEN (total - D_STR)) i.dStr,
           data := resize (total - HEADER) i.data }

/-- The old block is given back and a new one, maybe at the same place, has its contents.
    With NULL the old one stays. -/
def realloc (a : Addr) (total : Nat) (answer : Option Addr) : M (Option Addr) := fun m =>
  if a ∉ m.mallocs then none
  else
    (m.nodes a).map fun e =>
      match answer with
      | none => (none, m)
      | some b => (some b, { m with
          nodes := (m.nodes.put a none).put b (some { e with rest := e.rest.resized total }),
          mallocs := m.mallocs ++ [b], frees := m.frees ++ [a] })

def memset (p : Addr) (c : Byte) (n : Nat) : M Unit := do
  let i ← getInfo (containerOf p)
  if i.data.length < n then fun _ => none
  else setInfo (containerOf p) { i with data := List.replicate n (some c) ++ i.data.drop n }

/-- `list_for_each_safe`. No list has more nodes than were ever given out. -/
def forEach {α : Type} (ll : Addr) (body : α → Addr → M α) (acc : α) : M α := fun m =>
  forEachSafe (fun a => links (getNext a)) body ll (m.mallocs.length + 1) acc m

/-! ## The functions -/

def X : Byte := 0x58

/-- "-------", with its NUL. -/
def dashes : List (Option Byte) := List.replicate 7 (some 0x2D) ++ [some 0]

/-- What `ta_malloc` writes to a new node before it is linked: the `memset` and the fields. The
    last byte that a field needs is the NUL of the label. -/
def fillNode (node : Addr) (total size : Nat) : M Unit := do
  setInfo node (.filled total (some X))
  store node MARK fun i => { i with size := size % 2 ^ 32 }
  store node D_STR fun i => { i with mark := 0 }
  store node (D_STR + dashes.length) fun i => { i with dStr := dashes ++ i.dStr.drop dashes.length }

def taMalloc (ll : Addr) (size : Nat) (answer : Option Addr) : M Addr := do
  let total := u64 (size + HEADER)
  match ← malloc total answer with
  | none => do
    traceErr "malloc failed for %zu bytes" total
    pure 0
  | some node => do
    fillNode node total size
    links (listAdd node ll)
    pure (dataPtr node)

def taFree (p : Addr) : M Unit := do
  if p = 0 then pure ()
  else do
    let node := containerOf p
    links (listDel node)
    free node

def taListInit (ll : Addr) : M Int := do
  links (initListHead ll)
  pure 0

def taListDestroy (ll : Addr) : M Unit := do
  forEach ll (fun _ i => free i) ()
  let _ ← taListInit ll
  pure ()

def taListReset (ll : Addr) : M Unit := do
  taListDestroy ll
  let _ ← taListInit ll
  pure ()

def taRealloc (ll ptr : Addr) (size : Nat) (answer : Option Addr) : M Addr := do
  let node := containerOf ptr
  links (listDel node)
  match ← realloc node (u64 (size + HEADER)) answer with
  | none => do
    traceErr "realloc failed for %zu bytes" size
    links (listAdd node ll)
    pure 0
  | some mem => do
    store mem MARK fun i => { i with size := size % 2 ^ 32 }
    store mem D_STR fun i => { i with mark := 0 }
    links (listAdd mem ll)
    pure (dataPtr mem)

def taListTotalMem (ll : Addr) : M Nat :=
  forEach ll (fun size i => do
    let node ← getInfo i
    pure (u64 (size + node.size))) 0

def taCalloc (ll : Addr) (nelements elementSize : Nat) (answer : Option Addr) : M Addr := do
  let total := u64 (nelements * elementSize)
  let p ← taMalloc ll total answer
  if p ≠ 0 then do
    memset p 0 total
    pure p
  else pure p

def taMark (p : Addr) : M Unit :=
  store (containerOf p) D_STR fun i => { i with mark := 1 }

def taSweep (ll : Addr) : M Unit :=
  forEach ll (fun _ i => do
    let n ← getInfo i
    if n.mark = 1 then taFree (dataPtr i) else pure ()) ()

/-! ## A program that uses one context -/

/-- A call on blocks, each named by the address of its header, with the answer of the system. The
    program may also fill a block with bytes of its own. -/
inductive Op where
  | malloc (size : Nat) (answer : Option Addr)
  | calloc (nelements elementSize : Nat) (answer : Option Addr)
  | realloc (block : Addr) (size : Nat) (answer : Option Addr)
  | free (block : Addr)
  | freeNull
  | mark (block : Addr)
  | fill (block : Addr) (data : List (Option Byte))
  | sweep
  | destroy
  | reset

def fill (p : Addr) (data : List (Option Byte)) : M Unit := do
  let i ← getInfo (containerOf p)
  if i.data.length ≠ data.length then fun _ => none
  else setInfo (containerOf p) { i with data := data }

def run (ll : Addr) : Op → M Unit
  | .malloc size answer => do
    let _ ← taMalloc ll size answer
    pure ()
  | .calloc n e answer => do
    let _ ← taCalloc ll n e answer
    pure ()
  | .realloc a size answer => do
    let _ ← taRealloc ll (dataPtr a) size answer
    pure ()
  | .free a => taFree (dataPtr a)
  | .freeNull => taFree 0
  | .mark a => taMark (dataPtr a)
  | .fill a data => fill (dataPtr a) data
  | .sweep => taSweep ll
  | .destroy => taListDestroy ll
  | .reset => taListReset ll

end KanekFoundations.Ta

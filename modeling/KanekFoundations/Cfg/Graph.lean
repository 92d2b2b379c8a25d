/-
  KanekFoundations.Cfg.Graph — the values in memory.

  The values a program can reach are a part of the heap that nothing writes to: a value is
  complete before anything points to it. Buffers, and an array that is being filled, are
  blocks of the heap outside that part. A run of the evaluator adds new blocks to the part
  and leaves every block it found as it was (`Extends`).

  Proved, under any outcome of the allocations:
  - each function of `var.c` keeps to that, so it is never stuck on such a memory;
  - what `var_print` does is print.
-/

import KanekFoundations.Cfg.Var
import KanekFoundations.Dict.DictProofs

namespace KanekFoundations.Cfg

open KanekFoundations.Lib

variable {F : Type} {α : Type} {sys : Sys F} {m m' : Mem F} {a : Addr} {b : Block F}

def Sys.NoFail (sys : Sys F) : Prop := ∀ n, sys.mallocOk n = true

/-! ## Rules of the memory operations -/

/-- The memory after an allocation that succeeds, after one that fails, after a write. -/
def Mem.allocd (m : Mem F) (b : Block F) : Mem F := { m with heap := m.heap.alloc b, mallocs := m.mallocs + 1 }

def Mem.failed (m : Mem F) : Mem F := { m with mallocs := m.mallocs + 1 }

def Mem.put (m : Mem F) (a : Addr) (x : Option (Block F)) : Mem F := { m with heap := m.heap.put a x }

theorem Mem.get_allocd_self (m : Mem F) (b : Block F) : (m.allocd b).heap.get m.heap.length = some b :=
    Heap.get_alloc_self _ b

theorem Mem.get_allocd_of_lt (b : Block F) (hlt : a < m.heap.length) : (m.allocd b).heap.get a = m.heap.get a :=
  Heap.get_alloc_of_lt b hlt

theorem Mem.get_put_self (x : Option (Block F)) (h : m.heap.get a = some b) : (m.put a x).heap.get a = x :=
  Heap.get_put_self x (Heap.get_lt h)

theorem Mem.get_put_of_ne {c : Addr} (x : Option (Block F)) (hne : c ≠ a) : (m.put a x).heap.get c = m.heap.get c :=
  Heap.get_put_of_ne x hne

theorem wp_malloc_at {Q : Option Addr → Mem F → Prop} (hfail : sys.mallocOk m.mallocs = false → Q none m.failed)
    (hok : sys.mallocOk m.mallocs = true → Q (some m.heap.length) (m.allocd b)) : wp (taMalloc sys b) Q m := by
  unfold wp taMalloc
  cases h : sys.mallocOk m.mallocs with
  | true => exact ⟨_, if_pos rfl, hok h⟩
  | false => exact ⟨_, if_neg Bool.false_ne_true, hfail h⟩

theorem wp_malloc {Q : Option Addr → Mem F → Prop} (hfail : ¬ sys.NoFail → Q none m.failed)
    (hok : Q (some m.heap.length) (m.allocd b)) : wp (taMalloc sys b) Q m :=
  wp_malloc_at (fun h => hfail fun hno => Bool.false_ne_true (h.symm.trans (hno _))) fun _ => hok

theorem load_run (h : m.heap.get a = some b) : load a m = some (b, m) := by
  unfold load
  rw [h]
  rfl

theorem wp_load {Q : Block F → Mem F → Prop} (h : m.heap.get a = some b) : wp (load a) Q m ↔ Q b m :=
    wp_run (load_run h)

theorem wp_store {Q : Unit → Mem F → Prop} {b' : Block F} (h : m.heap.get a = some b) :
    wp (store a b') Q m ↔ Q () (m.put a (some b')) := by
  refine wp_run ?_
  unfold store
  rw [h]
  rfl

theorem wp_free {Q : Unit → Mem F → Prop} (h : m.heap.get a = some b) : wp (taFree (some a)) Q m ↔
    Q () (m.put a none) := by
  refine wp_run ?_
  show Option.map _ (m.heap.get a) = _
  rw [h]
  rfl

/-- After a `realloc` that succeeds the other blocks are where they were. -/
theorem moved_other {c : Addr} (hlt : c < m.heap.length) (hne : c ≠ a) :
    ((m.allocd b).put a none).heap.get c = m.heap.get c := by
  rw [Mem.get_put_of_ne _ hne, Mem.get_allocd_of_lt _ hlt]

theorem moved_new {b' : Block F} (h : m.heap.get a = some b') :
    ((m.allocd b).put a none).heap.get m.heap.length = some b := by
  rw [Mem.get_put_of_ne _ (Nat.ne_of_gt (Heap.get_lt h)), Mem.get_allocd_self]

theorem wp_realloc_at {Q : Option Addr → Mem F → Prop} {b' : Block F} (h : m.heap.get a = some b')
    (hfail : sys.mallocOk m.mallocs = false → Q none m.failed)
    (hok : sys.mallocOk m.mallocs = true → Q (some m.heap.length) ((m.allocd b).put a none)) :
    wp (taRealloc sys a b) Q m := by
  refine wp_bind.mpr (wp_malloc_at (fun hm => wp_pure.mpr (hfail hm)) fun hm => ?_)
  have hold : (m.allocd b).heap.get a = some b' := (Mem.get_allocd_of_lt b (Heap.get_lt h)).trans h
  exact wp_bind.mpr ((wp_free hold).mpr (wp_pure.mpr (hok hm)))

theorem wp_cstr {Q : List Byte → Mem F → Prop} {cap : Nat} {text : List Byte}
    (h : m.heap.get a = some (.chars cap text)) :
    wp (cstr a) Q m ↔ Q text m := by
  unfold cstr
  rw [wp_bind, wp_load h, wp_pure]

theorem wp_cells {Q : List (Option Addr) → Mem F → Prop} {cap : Nat} {written : List (Option Addr)}
    (h : m.heap.get a = some (.ptrs cap written)) : wp (cells a) Q m ↔ Q written m := by
  unfold cells
  rw [wp_bind, wp_load h, wp_pure]

theorem wp_printf {Q : Unit → Mem F → Prop} {s : List Byte} : wp (printf s) Q m ↔ Q () { m with out := m.out ++ s } :=
  wp_run rfl

/-- A copy to the start of a fresh buffer. -/
theorem wp_memcpy_raw {Q : Unit → Mem F → Prop} {cap : Nat} {s : List Byte} (h : m.heap.get a = some (.raw cap))
    (hs : s.length + 1 ≤ cap) : wp (memcpy a 0 s) Q m ↔ Q () (m.put a (some (.chars cap s))) := by
  unfold memcpy
  rw [wp_bind, wp_load h]
  show wp (if 0 = 0 ∧ s.length + 1 ≤ cap then _ else _) Q m ↔ _
  rw [if_pos ⟨rfl, hs⟩, wp_store h]

/-- A copy to the end of the text in a buffer. -/
theorem wp_memcpy_chars {Q : Unit → Mem F → Prop} {cap : Nat} {text s : List Byte}
    (h : m.heap.get a = some (.chars cap text)) (hs : text.length + s.length + 1 ≤ cap) :
    wp (memcpy a text.length s) Q m ↔ Q () (m.put a (some (.chars cap (text ++ s)))) := by
  unfold memcpy
  rw [wp_bind, wp_load h]
  show wp (if text.length ≤ text.length ∧ text.length + s.length + 1 ≤ cap then _ else _) Q m ↔ _
  rw [if_pos ⟨Nat.le_refl _, hs⟩, wp_store h, List.take_length]

/-! ## Values -/

def Block.isVar : Block F → Bool
  | .raw _ | .chars _ _ | .ptrs _ _ => false
  | _ => true

def IsVar (g : SubHeap (Block F)) (a : Addr) : Prop := ∃ b, g a = some b ∧ b.isVar = true

/-- The pointers of a block of the part lead to blocks of the part, of the right sort. -/
def Block.Sound (g : SubHeap (Block F)) : Block F → Prop
  | .str (some s) => ∃ cap text, g s = some (.chars cap text)
  | .array items len cap =>
    ∃ written, g items = some (.ptrs cap written) ∧ written.length = len ∧ ∀ v, some v ∈ written → IsVar g v
  | .dict d => ∀ e ∈ d.buckets.flatten, ∀ v, e.val = some v → IsVar g v
  | _ => True

def Closed (g : SubHeap (Block F)) : Prop := ∀ a b, g a = some b → b.Sound g

variable {g g' g'' : SubHeap (Block F)}

theorem IsVar.mono {g g' : SubHeap (Block F)} (hs : Sub g g') (h : IsVar g a) : IsVar g' a := by
  obtain ⟨b, hb, hvar⟩ := h
  exact ⟨b, hs a b hb, hvar⟩

theorem Block.Sound.mono (hs : Sub g g') (h : b.Sound g) : b.Sound g' := by
  cases b with
  | str s =>
    cases s with
    | none => trivial
    | some s =>
      obtain ⟨cap, text, hget⟩ := h
      exact ⟨cap, text, hs _ _ hget⟩
  | array items len cap =>
    obtain ⟨written, hget, hlen, hvars⟩ := h
    exact ⟨written, hs _ _ hget, hlen, fun v hv => (hvars v hv).mono hs⟩
  | dict d => exact fun e he v hv => (h e he v hv).mono hs
  | null | int | float | bool | raw | chars | ptrs => trivial

theorem Closed.add (h : Closed g) (hout : g a = none) (hb : b.Sound (g.add a b)) : Closed (g.add a b) := by
  intro a' b' hget
  by_cases hne : a' = a
  · subst hne
    rw [SubHeap.add_self] at hget
    cases hget
    exact hb
  · rw [SubHeap.add_of_ne g b hne] at hget
    exact (h a' b' hget).mono (.add hout)

/-- The memory holds the part `g`, and the variables are values of it. -/
structure Safe (sys : Sys F) (g : SubHeap (Block F)) (m : Mem F) : Prop where
  within : Sub g m.heap.get
  closed : Closed g
  inv : m.vars.Inv sys.xxh32
  vars : ∀ e ∈ m.vars.entries, ∀ v, e.val = some v → IsVar g v

/-- A block as the evaluator makes it: its pointers lead into `g`, and no item is NULL. -/
def Block.Made (g : SubHeap (Block F)) : Block F → Prop
  | .str (some s) => ∃ cap text, g s = some (.chars cap text)
  | .array items len cap =>
    ∃ addrs : List Addr, g items = some (.ptrs cap (addrs.map some)) ∧ addrs.length = len ∧ ∀ v ∈ addrs, IsVar g v
  | .dict _ => False
  | _ => True

/-- `g'` is `g` with blocks added one by one, each with its pointers into what was there before. -/
inductive Built : SubHeap (Block F) → SubHeap (Block F) → Prop
  | refl (g : SubHeap (Block F)) : Built g g
  | add {g g' : SubHeap (Block F)} {a : Addr} {b : Block F} : Built g g' → g' a = none → b.Made g' →
    Built g (g'.add a b)

theorem Built.trans (h : Built g g') (h' : Built g' g'') : Built g g'' := by
  induction h' with
  | refl => exact h
  | add _ hout hmade ih => exact ih.add hout hmade

theorem Built.sub (h : Built g g') : Sub g g' := by
  induction h with
  | refl => exact .refl _
  | add _ hout _ ih => exact ih.trans (.add hout)

theorem Block.Made.sound (h : b.Made g) : b.Sound g := by
  cases b with
  | str s =>
    cases s with
    | none => trivial
    | some s => exact h
  | array items len cap =>
    obtain ⟨addrs, hget, hlen, hvars⟩ := h
    refine ⟨addrs.map some, hget, by rw [List.length_map, hlen], fun v hv => ?_⟩
    obtain ⟨a, ha, hav⟩ := List.mem_map.mp hv
    cases hav
    exact hvars v ha
  | dict d => exact h.elim
  | null | int | float | bool | raw | chars | ptrs => trivial

structure Extends (g : SubHeap (Block F)) (m : Mem F) (g' : SubHeap (Block F)) (m' : Mem F) : Prop where
  grows : Grows g m.heap g' m'.heap
  closed : Closed g'
  built : Built g g'
  vars : m'.vars = m.vars
  out : m'.out = m.out
  trace : m'.trace = m.trace
  files : m'.files = m.files

theorem Extends.refl (hsub : Sub g m.heap.get) (hclosed : Closed g) : Extends g m g m :=
  ⟨.refl hsub, hclosed, .refl g, rfl, rfl, rfl, rfl⟩

theorem Extends.trans {m m' m'' : Mem F} (h : Extends g m g' m') (h' : Extends g' m' g'' m'') : Extends g m g'' m'' :=
  ⟨h.grows.trans h'.grows, h'.closed, h.built.trans h'.built, h'.vars.trans h.vars, h'.out.trans h.out,
    h'.trace.trans h.trace, h'.files.trans h.files⟩

theorem Safe.refl (h : Safe sys g m) : Extends g m g m := .refl h.within h.closed

theorem Safe.extend (h : Safe sys g m) (hext : Extends g m g' m') : Safe sys g' m' := by
  refine ⟨hext.grows.within, hext.closed, ?_, ?_⟩
  · rw [hext.vars]
    exact h.inv
  · intro e he v hv
    rw [hext.vars] at he
    exact (h.vars e he v hv).mono hext.grows.sub

/-- The value of a variable is among the values. -/
theorem Safe.getVar (h : Safe sys g m) (key : List Byte) {v : Addr}
    (hv : m.vars.dictGet sys.xxh32 (some key) = some v) :
    IsVar g v := by
  obtain ⟨e, hfind, hval⟩ := Option.bind_eq_some_iff.mp hv
  exact h.vars e ((Dict.dictFind_some h.inv key e).mp hfind).1 v hval

theorem Extends.failed (h : Extends g m g' m') : Extends g m g' m'.failed :=
  ⟨h.grows, h.closed, h.built, h.vars, h.out, h.trace, h.files⟩

/-- A block outside the part. -/
theorem Extends.allocd (h : Extends g m g' m') (b : Block F) : Extends g m g' (m'.allocd b) :=
  ⟨h.grows.trans (.alloc h.grows.within b), h.closed, h.built, h.vars, h.out, h.trace, h.files⟩

theorem Extends.put (h : Extends g m g' m') (ha : m.heap.length ≤ a) (hout : g' a = none) (x : Option (Block F)) :
    Extends g m g' (m'.put a x) :=
  ⟨h.grows.put ha hout x, h.closed, h.built, h.vars, h.out, h.trace, h.files⟩

theorem Extends.add (h : Extends g m g' m') (ha : m.heap.length ≤ a) (hout : g' a = none) (hb : m'.heap.get a = some b)
    (hmade : b.Made g') : Extends g m (g'.add a b) m' :=
  ⟨h.grows.add ha hout hb, h.closed.add hout (hmade.sound.mono (.add hout)), h.built.add hout hmade, h.vars, h.out,
    h.trace, h.files⟩

theorem Extends.size (h : Extends g m g' m') : m.heap.length ≤ m'.heap.length := h.grows.size

/-- The next address is in no part of the heap. -/
theorem Extends.fresh (h : Extends g m g' m') : g' m'.heap.length = none := h.grows.within.fresh (Nat.le_refl _)

/-- A new block that joins the part at once. -/
theorem Extends.leaf (h : Extends g m g' m') (hmade : b.Made g') :
    Extends g m (g'.add m'.heap.length b) (m'.allocd b) :=
  (h.allocd b).add h.size h.fresh (Heap.get_alloc_self _ _) hmade

/-! ## Constructors -/

/-- A pointer to the block `b`, or NULL when an allocation failed. -/
def Points (sys : Sys F) (g : SubHeap (Block F)) (b : Block F) (r : Option Addr) : Prop :=
  (∀ v, r = some v → g v = some b) ∧ (sys.NoFail → r ≠ none)

/-- A pointer to a value, or NULL when an allocation failed. -/
def IsVal (sys : Sys F) (g : SubHeap (Block F)) (r : Option Addr) : Prop :=
  (∀ v, r = some v → IsVar g v) ∧ (sys.NoFail → r ≠ none)

/-- The program extends the values and ends with a pointer of which `P` is so. -/
def Yields (g : SubHeap (Block F)) (m : Mem F) (P : SubHeap (Block F) → Option Addr → Prop)
    (r : Option Addr) (m' : Mem F) : Prop :=
  ∃ g', Extends g m g' m' ∧ P g' r

theorem Points.isVal {r : Option Addr} (h : Points sys g b r) (hb : b.isVar = true) : IsVal sys g r :=
  ⟨fun v hv => ⟨b, h.1 v hv, hb⟩, h.2⟩

theorem isVal_some (h : IsVar g a) : IsVal sys g (some a) :=
  ⟨fun v hv => by cases hv; exact h, fun _ hv => by cases hv⟩

theorem malloc_leaf (h : Safe sys g m) (hb : b.Made g) :
    wp (taMalloc sys b) (Yields g m fun g' r => Points sys g' b r) m := by
  refine wp_malloc (fun hno => ?_) ?_
  · exact ⟨g, h.refl.failed, fun v hv => (by cases hv), fun hok => absurd hok hno⟩
  · refine ⟨_, h.refl.leaf hb, fun v hv => ?_, fun _ hv => (by cases hv)⟩
    cases hv
    exact SubHeap.add_self _ _ _

theorem varNull_spec (h : Safe sys g m) : wp (varNull sys) (Yields g m fun g' r => Points sys g' .null r) m :=
  malloc_leaf h trivial

theorem varInt_spec (h : Safe sys g m) (i : Int) :
    wp (varInt sys i) (Yields g m fun g' r => Points sys g' (.int i) r) m :=
  malloc_leaf h trivial

theorem varFloat_spec (h : Safe sys g m) (f : F) :
    wp (varFloat sys f) (Yields g m fun g' r => Points sys g' (.float f) r) m :=
  malloc_leaf h trivial

theorem varBool_spec (h : Safe sys g m) (v : Int) :
    wp (varBool sys v) (Yields g m fun g' r => Points sys g' (.bool (v ≠ 0)) r) m :=
  malloc_leaf h trivial

/-- A string value with this text, or with NULL when the copy failed. -/
def PointsStr (sys : Sys F) (g : SubHeap (Block F)) (text : List Byte) (r : Option Addr) : Prop :=
  (∀ v, r = some v → ∃ s, g v = some (.str s) ∧ (∀ c, s = some c → ∃ cap, g c = some (.chars cap text)) ∧
    (sys.NoFail → s ≠ none)) ∧ (sys.NoFail → r ≠ none)

theorem PointsStr.isVal {text : List Byte} {r : Option Addr} (h : PointsStr sys g text r) : IsVal sys g r := by
  refine ⟨fun v hv => ?_, h.2⟩
  obtain ⟨s, hget, -⟩ := h.1 v hv
  exact ⟨_, hget, rfl⟩

theorem PointsStr.mono {text : List Byte} {r : Option Addr} (hs : Sub g g') (h : PointsStr sys g text r) :
    PointsStr sys g' text r := by
  refine ⟨fun v hv => ?_, h.2⟩
  obtain ⟨s, hget, htext, hok⟩ := h.1 v hv
  refine ⟨s, hs _ _ hget, fun c hc => ?_, hok⟩
  obtain ⟨cap, hc'⟩ := htext c hc
  exact ⟨cap, hs _ _ hc'⟩

theorem varStr_spec (h : Safe sys g m) (text : List Byte) :
    wp (varStr sys (some text)) (Yields g m fun g' r => PointsStr sys g' text r) m := by
  unfold varStr
  refine wp_bind.mpr (wp_malloc (fun hno => ?_) ?_)
  · exact wp_pure.mpr ⟨g, h.refl.failed, fun v hv => (by cases hv), fun hok => absurd hok hno⟩
  have hext := h.refl.allocd (Block.str (F := F) none)
  have hvar : (m.allocd (.str none)).heap.get m.heap.length = some (.str none) := Heap.get_alloc_self _ _
  have hout := h.refl.fresh
  show wp (taStrdup sys text >>= _) _ (m.allocd (.str none))
  refine wp_bind.mpr (wp_malloc (fun hno => ?_) ?_)
  · -- The copy failed: the string is NULL.
    refine wp_bind.mpr ((wp_store (m := (m.allocd (.str none)).failed) hvar).mpr (wp_pure.mpr ?_))
    have hput := hext.failed.put (Nat.le_refl _) hout (some (Block.str none))
    have hadd := hput.add (Nat.le_refl _) hout (Heap.get_put_self _ (Heap.get_lt hvar)) trivial
    refine ⟨_, hadd, fun v hv => ?_, fun _ hv => (by cases hv)⟩
    cases hv
    exact ⟨none, SubHeap.add_self _ _ _, fun c hc => (by cases hc), fun hok => absurd hok hno⟩
  · have hchars := hext.leaf (b := Block.chars (text.length + 1) text) trivial
    have hne : m.heap.length ≠ (m.allocd (.str none)).heap.length := Nat.ne_of_lt (Heap.get_lt hvar)
    have hvar' : ((m.allocd (.str none)).allocd (.chars (text.length + 1) text)).heap.get m.heap.length =
        some (.str none) := by
      show ((m.allocd (.str none)).heap.alloc _).get _ = _
      rw [Heap.get_alloc_of_lt _ (Heap.get_lt hvar), hvar]
    have hout' : g.add (m.allocd (.str none)).heap.length (.chars (text.length + 1) text) m.heap.length = none := by
      rw [SubHeap.add_of_ne _ _ hne, hout]
    refine wp_bind.mpr ((wp_store hvar').mpr (wp_pure.mpr ?_))
    have hput := hchars.put (Nat.le_refl _) hout' (some (Block.str (some (m.allocd (.str none)).heap.length)))
    have hget : g.add (m.allocd (.str none)).heap.length (.chars (text.length + 1) text)
        (m.allocd (.str none)).heap.length = some (.chars (text.length + 1) text) := SubHeap.add_self _ _ _
    have hadd := hput.add (Nat.le_refl _) hout' (Heap.get_put_self _ (Heap.get_lt hvar')) ⟨_, _, hget⟩
    refine ⟨_, hadd, fun v hv => ?_, fun _ hv => (by cases hv)⟩
    cases hv
    refine ⟨_, SubHeap.add_self _ _ _, fun c hc => ?_, fun _ hs => (by cases hs)⟩
    cases hc
    exact ⟨_, Sub.add hout' _ _ hget⟩

/-! ## Arrays -/

/-- The array at `arr` is being filled; it has these items so far. -/
structure Filling (g : SubHeap (Block F)) (h : Heap (Block F)) (base : Nat) (arr : Addr)
    (written : List (Option Addr)) :
    Prop where
  ex : ∃ items cap, h.get arr = some (.array items written.length cap) ∧ h.get items = some (.ptrs cap written) ∧
    g arr = none ∧ g items = none ∧ arr ≠ items ∧ base ≤ arr ∧ base ≤ items ∧ written.length ≤ cap ∧ 0 < cap
  vars : ∀ v, some v ∈ written → IsVar g v
  full : none ∉ written

theorem Filling.extend {base : Nat} {arr : Addr} {written : List (Option Addr)} (h : Filling g m.heap base arr written)
    (hext : Extends g m g' m') : Filling g' m'.heap base arr written := by
  obtain ⟨items, cap, harr, hitems, houtA, houtI, hne, hbaseA, hbaseI, hlen, hcap⟩ := h.ex
  have hltA := Heap.get_lt harr
  have hltI := Heap.get_lt hitems
  refine ⟨⟨items, cap, ?_, ?_, ?_, ?_, hne, hbaseA, hbaseI, hlen, hcap⟩,
    fun v hv => (h.vars v hv).mono hext.grows.sub, h.full⟩
  · rw [hext.grows.heap arr hltA, harr]
  · rw [hext.grows.heap items hltI, hitems]
  · rw [hext.grows.part arr hltA, houtA]
  · rw [hext.grows.part items hltI, houtI]

/-- The rule of `var_array`: no memory for the value, none for its items, or a new array. -/
theorem wp_varArray {Q : Option Addr → Mem F → Prop} (hvar : sys.mallocOk m.mallocs = false → Q none m.failed)
    (hitems : sys.mallocOk (m.mallocs + 1) = false → Q none ((m.allocd (.raw varSize)).failed.put m.heap.length none))
    (hok : ∀ items x m', m' = ((m.allocd (.raw varSize)).allocd (.ptrs ARRAY_INIT_CAP [])).put m.heap.length x →
      items = (m.allocd (Block.raw varSize)).heap.length →
      m'.heap.get m.heap.length = some (.array items 0 ARRAY_INIT_CAP) →
      m'.heap.get items = some (.ptrs ARRAY_INIT_CAP []) → Q (some m.heap.length) m') :
    wp (varArray sys) Q m := by
  unfold varArray
  refine wp_bind.mpr (wp_malloc_at (fun hfail => wp_pure.mpr (hvar hfail)) fun _ => ?_)
  have hraw : (m.allocd (.raw varSize)).heap.get m.heap.length = some (.raw varSize) := m.get_allocd_self _
  have hlt := Heap.get_lt hraw
  refine wp_bind.mpr (wp_malloc_at (fun hfail => ?_) fun _ => ?_)
  · exact wp_bind.mpr ((wp_free (m := (m.allocd (.raw varSize)).failed) hraw).mpr (wp_pure.mpr (hitems hfail)))
  · have hraw' : ((m.allocd (.raw varSize)).allocd (.ptrs ARRAY_INIT_CAP [])).heap.get m.heap.length =
        some (.raw varSize) :=
      (Mem.get_allocd_of_lt _ hlt).trans hraw
    refine wp_bind.mpr ((wp_store hraw').mpr (wp_pure.mpr (hok _ _ _ rfl rfl (Mem.get_put_self _ hraw') ?_)))
    rw [Mem.get_put_of_ne _ (Nat.ne_of_gt hlt), Mem.get_allocd_self]

theorem varArray_spec (h : Safe sys g m) :
    wp (varArray sys) (fun r m' => Extends g m g m' ∧ (∀ arr, r = some arr → Filling g m'.heap m.heap.length arr []) ∧
      (sys.NoFail → r ≠ none)) m := by
  have hext := h.refl.allocd (Block.raw (F := F) varSize)
  have hout := h.refl.fresh
  refine wp_varArray (fun hfail => ?_) (fun hfail => ?_) fun items x m' hm' hitems harr hstore => ?_
  · exact ⟨h.refl.failed, fun arr hv => (by cases hv), fun hno => absurd (hfail.symm.trans (hno _)) Bool.false_ne_true⟩
  · exact ⟨hext.failed.put (Nat.le_refl _) hout none, fun arr hv => (by cases hv),
      fun hno => absurd (hfail.symm.trans (hno _)) Bool.false_ne_true⟩
  · subst hm' hitems
    refine ⟨(hext.allocd _).put (Nat.le_refl _) hout _, fun arr hv => ?_, fun _ hv => (by cases hv)⟩
    cases hv
    exact ⟨⟨_, ARRAY_INIT_CAP, harr, hstore, hout, hext.fresh, Nat.ne_of_lt (Heap.get_lt (m.get_allocd_self _)),
      Nat.le_refl _, hext.size, Nat.zero_le _, by decide⟩, fun v hv => (by cases hv), fun hv => (by cases hv)⟩

theorem all_some {written : List (Option Addr)} (h : none ∉ written) : ∃ addrs :
    List Addr, written = addrs.map some := by
  induction written with
  | nil => exact ⟨[], rfl⟩
  | cons x written ih =>
    obtain ⟨addrs, rfl⟩ := ih fun hx => h (List.mem_cons_of_mem _ hx)
    cases x with
    | none => exact absurd (List.mem_cons_self ..) h
    | some a => exact ⟨a :: addrs, rfl⟩

/-- The rule of a store into an array that has room. -/
theorem wp_putItem {Q : Unit → Mem F → Prop} {arr items : Addr} {c cap : Nat} {written : List (Option Addr)}
    {item : Option Addr} (harr : m.heap.get arr = some b) (hitems : m.heap.get items = some (.ptrs c written))
    (hne : arr ≠ items) (hlen : written.length < cap)
    (hq : ∀ x y m', m' = (m.put items x).put arr y → m'.heap.get arr =
      some (.array items (written ++ [item]).length cap) →
      m'.heap.get items = some (.ptrs cap (written ++ [item])) → Q () m') :
    wp (putItem arr items written.length cap item) Q m := by
  unfold putItem
  rw [wp_bind, wp_cells hitems, if_pos ⟨rfl, hlen⟩, wp_bind, wp_store hitems]
  have harr' : (m.put items (some (.ptrs cap (written ++ [item])))).heap.get arr = some b :=
    (Mem.get_put_of_ne _ hne).trans harr
  rw [wp_store harr']
  refine hq _ _ _ rfl ?_ ?_
  · rw [List.length_append, List.length_singleton]
    exact Mem.get_put_self _ harr'
  · rw [Mem.get_put_of_ne _ hne.symm, Mem.get_put_self _ hitems]

theorem putItem_spec {g₀ : SubHeap (Block F)} {m₀ : Mem F} (hext : Extends g₀ m₀ g m) {arr items : Addr} {c cap : Nat}
    {written : List (Option Addr)} {item : Addr} (harr : m.heap.get arr = some b)
    (hitems : m.heap.get items = some (.ptrs c written)) (houtA : g arr = none) (houtI : g items = none)
    (hne : arr ≠ items)
    (hbaseA : m₀.heap.length ≤ arr) (hbaseI : m₀.heap.length ≤ items) (hlen : written.length < cap)
    (hvars : ∀ v, some v ∈ written → IsVar g v) (hfull : none ∉ written) (hitem : IsVar g item) :
    wp (putItem arr items written.length cap (some item))
      (fun _ m' => Extends g₀ m₀ g m' ∧ Filling g m'.heap m₀.heap.length arr (written ++ [some item])) m := by
  refine wp_putItem harr hitems hne hlen fun x y m' hm' harr' hitems' => ?_
  subst hm'
  refine ⟨(hext.put hbaseI houtI _).put hbaseA houtA _,
    ⟨items, cap, harr', hitems', houtA, houtI, hne, hbaseA, hbaseI, ?_,
    Nat.zero_lt_of_lt hlen⟩, ?_, ?_⟩
  · rw [List.length_append, List.length_singleton]
    exact hlen
  · intro v hv
    rcases List.mem_append.mp hv with hv | hv
    · exact hvars v hv
    · cases List.mem_singleton.mp hv
      exact hitem
  · intro hv
    rcases List.mem_append.mp hv with hv | hv
    · exact hfull hv
    · cases List.mem_singleton.mp hv

theorem varPush_spec {g₀ : SubHeap (Block F)} {m₀ : Mem F} (hext : Extends g₀ m₀ g m) {arr : Addr}
    {written : List (Option Addr)} (hfill : Filling g m.heap m₀.heap.length arr written) {item : Addr}
    (hitem : IsVar g item) :
    wp (varPush sys (some arr) (some item)) (fun _ m' => Extends g₀ m₀ g m' ∧
      ∃ written', Filling g m'.heap m₀.heap.length arr written' ∧
        (written' = written ++ [some item] ∨ ¬ sys.NoFail ∧ written' = written)) m := by
  obtain ⟨items, cap, harr, hitems, houtA, houtI, hne, hbaseA, hbaseI, hlen, hcap⟩ := hfill.ex
  unfold varPush
  rw [wp_bind, wp_load harr]
  by_cases hfull : written.length = cap
  · show wp (if written.length = cap then _ else _) _ m
    rw [if_pos hfull, wp_bind, wp_cells hitems]
    refine wp_bind.mpr (wp_realloc_at hitems (fun hm => ?_) fun _ => ?_)
    · have hno : ¬ sys.NoFail := fun hno => Bool.false_ne_true (hm.symm.trans (hno _))
      refine wp_pure.mpr ⟨hext.failed, written, ?_, .inr ⟨hno, rfl⟩⟩
      exact hfill.extend (.failed (.refl hext.grows.within hext.closed))
    -- The items move to a larger block, and the old one is freed.
    have hmoved := (hext.allocd (.ptrs (cap * 2) written)).put hbaseI houtI none
    have harr' := (moved_other (b := .ptrs (cap * 2) written) (Heap.get_lt harr) hne).trans harr
    have hgrown := moved_new (b := .ptrs (cap * 2) written) hitems
    have hroom : written.length < cap * 2 := by omega
    have hput := putItem_spec hmoved harr' hgrown houtA hext.fresh (Nat.ne_of_lt (Heap.get_lt harr)) hbaseA
      hext.size hroom hfill.vars hfill.full hitem
    exact wp_bind.mpr (hput.mono fun _ m' hm' => wp_pure.mpr ⟨hm'.1, _, hm'.2, .inl rfl⟩)
  · show wp (if written.length = cap then _ else _) _ m
    rw [if_neg hfull, wp_bind]
    have hput := putItem_spec hext harr hitems houtA houtI hne hbaseA hbaseI (Nat.lt_of_le_of_ne hlen hfull) hfill.vars
      hfill.full hitem
    exact hput.mono fun _ m' hm' => wp_pure.mpr ⟨hm'.1, _, hm'.2, .inl rfl⟩

/-- An array that is filled joins the values. -/
theorem Filling.freeze {g₀ : SubHeap (Block F)} {m₀ : Mem F} (hext : Extends g₀ m₀ g m) {arr : Addr}
    {written : List (Option Addr)} (h : Filling g m.heap m₀.heap.length arr written) :
    ∃ g', Extends g₀ m₀ g' m ∧ Sub g g' ∧
      ∃ items cap, g' arr = some (.array items written.length cap) ∧ g' items = some (.ptrs cap written) := by
  obtain ⟨items, cap, harr, hitems, houtA, houtI, hne, hbaseA, hbaseI, -⟩ := h.ex
  have hext' := hext.add hbaseI houtI hitems trivial
  obtain ⟨addrs, rfl⟩ := all_some h.full
  have houtA' : g.add items (.ptrs cap (addrs.map some)) arr = none := by rw [SubHeap.add_of_ne _ _ hne, houtA]
  have hptrs : g.add items (.ptrs cap (addrs.map some)) items = some (.ptrs cap (addrs.map some)) :=
    SubHeap.add_self _ _ _
  have hvars : ∀ v ∈ addrs, IsVar (g.add items (.ptrs cap (addrs.map some))) v :=
    fun v hv => (h.vars v (List.mem_map_of_mem hv)).mono (.add houtI)
  refine ⟨_, hext'.add hbaseA houtA' harr ⟨addrs, hptrs, (List.length_map _).symm, hvars⟩,
    (Sub.add houtI).trans (.add houtA'),
    items, cap, SubHeap.add_self _ _ _, Sub.add houtA' _ _ hptrs⟩

/-- What `var_get` reads from a value. -/
def Block.item (g : SubHeap (Block F)) (idx : Nat) : Block F → Option Addr
  | .array items _ _ =>
    match g items with
    | some (.ptrs _ written) => written[idx]?.join
    | _ => none
  | _ => none

theorem Block.item_array {items cap : Nat} {written : List (Option Addr)} (hget : g items = some (.ptrs cap written))
    (len idx : Nat) : (Block.array items len cap).item g idx = written[idx]?.join := by
  simp only [Block.item, hget]

theorem Block.item_isVar (hb : b.Sound g) {idx : Nat} {v : Addr} (h : b.item g idx = some v) : IsVar g v := by
  cases b with
  | array items len cap =>
    obtain ⟨written, hget, -, hvars⟩ := hb
    rw [item_array hget] at h
    exact hvars v (List.mem_of_getElem? (Option.join_eq_some_iff.mp h))
  | _ => cases h

theorem varGet_spec (hsub : Sub g m.heap.get) (hclosed : Closed g) (hb : g a = some b) (idx : Nat) :
    wp (varGet (some a) idx) (fun r m' => m' = m ∧ r = b.item g idx) m := by
  unfold varGet
  rw [wp_bind, wp_load (hsub a b hb)]
  cases b with
  | array items len cap =>
    obtain ⟨written, hget, hlen, -⟩ := hclosed a _ hb
    rw [Block.item_array hget]
    show wp (if len ≤ idx then _ else _) _ m
    by_cases hidx : len ≤ idx
    · rw [if_pos hidx, wp_pure, List.getElem?_eq_none (hlen ▸ hidx)]
      exact ⟨rfl, rfl⟩
    · rw [if_neg hidx, wp_bind, wp_cells (hsub _ _ hget)]
      have hlt : idx < written.length := hlen ▸ Nat.lt_of_not_le hidx
      rw [List.getElem?_eq_getElem hlt]
      exact wp_pure.mpr ⟨rfl, rfl⟩
  | _ => exact wp_pure.mpr ⟨rfl, rfl⟩

/-! ## Text -/

def Block.text (sys : Sys F) (g : SubHeap (Block F)) : Block F → List Byte
  | .int i => decimal i
  | .float f => sys.fmtG f
  | .bool b => boolText b
  | .str (some s) =>
    match g s with
    | some (.chars _ text) => text
    | _ => nullText
  | .array _ _ _ => ascii ['[', 'a', 'r', 'r', 'a', 'y', ']']
  | .dict _ => ascii ['{', 'd', 'i', 'c', 't', '}']
  | _ => nullText

/-- The text of the value at a pointer, as `var_to_str` gives it. -/
def valText (sys : Sys F) (g : SubHeap (Block F)) (r : Option Addr) : List Byte :=
  match r.bind g with
  | some b => b.text sys g
  | none => nullText

/-- A new buffer outside the values that holds `text`, or NULL when an allocation failed. -/
def Buffer (sys : Sys F) (g : SubHeap (Block F)) (m : Mem F) (text : List Byte) (r : Option Addr) (m' : Mem F) : Prop :=
  Extends g m g m' ∧ (sys.NoFail → r ≠ none) ∧
    ∀ c, r = some c → m.heap.length ≤ c ∧ ∃ cap, m'.heap.get c = some (.chars cap text)

theorem taStrdup_spec (hsub : Sub g m.heap.get) (hclosed : Closed g) (text : List Byte) :
    wp (taStrdup sys text) (Buffer sys g m text) m := by
  have hrefl : Extends g m g m := .refl hsub hclosed
  refine wp_malloc (fun hno => ?_) ?_
  · exact ⟨hrefl.failed, fun hok => absurd hok hno, fun c hc => (by cases hc)⟩
  · refine ⟨hrefl.allocd _, fun _ hc => (by cases hc), fun c hc => ?_⟩
    cases hc
    exact ⟨Nat.le_refl _, _, Heap.get_alloc_self _ _⟩

theorem varToStr_spec (hsub : Sub g m.heap.get) (hclosed : Closed g) {r : Option Addr}
    (hr : ∀ v, r = some v → IsVar g v) :
    wp (varToStr sys r) (Buffer sys g m (valText sys g r)) m := by
  unfold varToStr
  cases r with
  | none => exact taStrdup_spec hsub hclosed _
  | some a =>
    obtain ⟨b, hb, hvar⟩ := hr a rfl
    have htext : valText sys g (some a) = b.text sys g := by
      unfold valText
      rw [Option.bind_some, hb]
    show wp (load a >>= _) _ m
    rw [htext, wp_bind, wp_load (hsub a b hb)]
    cases b with
    | str s =>
      cases s with
      | none => exact taStrdup_spec hsub hclosed _
      | some s =>
        obtain ⟨cap, text, hget⟩ := hclosed a _ hb
        show wp (cstr s >>= _) _ m
        rw [wp_bind, wp_cstr (hsub s _ hget)]
        have htext : (Block.str (some s)).text sys g = text := by simp only [Block.text, hget]
        rw [htext]
        exact taStrdup_spec hsub hclosed _
    | raw | chars | ptrs => cases hvar
    | _ => exact taStrdup_spec hsub hclosed _

/-! ## Display -/

/-- Only the output grew. -/
def Prints (m m' : Mem F) : Prop := ∃ text, m' = { m with out := m.out ++ text }

theorem Prints.refl (m : Mem F) : Prints m m := ⟨[], by rw [List.append_nil]⟩

theorem Prints.trans {m'' : Mem F} (h : Prints m m') (h' : Prints m' m'') : Prints m m'' := by
  obtain ⟨s, rfl⟩ := h
  obtain ⟨t, rfl⟩ := h'
  exact ⟨s ++ t, by rw [List.append_assoc]⟩

theorem Prints.sub (h : Prints m m') (hsub : Sub g m.heap.get) : Sub g m'.heap.get := by
  obtain ⟨s, rfl⟩ := h
  exact hsub

theorem Safe.report (h : Safe sys g m) (trace : List Report) : Safe sys g { m with trace := trace } :=
  ⟨h.within, h.closed, h.inv, h.vars⟩

theorem Safe.log (h : Safe sys g m) (files : List FileEvent) : Safe sys g { m with files := files } :=
  ⟨h.within, h.closed, h.inv, h.vars⟩

theorem Safe.print (h : Safe sys g m) (hp : Prints m m') : Safe sys g m' := by
  obtain ⟨s, rfl⟩ := hp
  exact ⟨h.within, h.closed, h.inv, h.vars⟩

theorem printf_spec (s : List Byte) : wp (printf s) (fun _ m' => Prints m m') m := wp_printf.mpr ⟨s, rfl⟩

theorem Prints.andThen {β : Type} {p : M F α} {f : α → M F β} (hp : wp p (fun _ m' => Prints m m') m)
    (hf : ∀ x m', Prints m m' → wp (f x) (fun _ m'' => Prints m' m'') m') : wp (p >>= f) (fun _ m' => Prints m m') m :=
  hp.bind fun x m' hm' => (hf x m' hm').mono fun _ _ h => hm'.trans h

theorem printSep_spec {print : α → M F Unit} {xs : List α} (hsub : Sub g m.heap.get)
    (h : ∀ x ∈ xs, ∀ m, Sub g m.heap.get → wp (print x) (fun _ m' => Prints m m') m) :
    wp (printSep print xs) (fun _ m' => Prints m m') m := by
  induction xs generalizing m with
  | nil => exact wp_pure.mpr (.refl m)
  | cons x xs ih =>
    have hx := h x (List.mem_cons_self ..)
    cases xs with
    | nil => exact hx m hsub
    | cons y ys =>
      refine Prints.andThen (hx m hsub) fun _ m' hm' => Prints.andThen (printf_spec _) fun _ m'' hm'' => ?_
      exact ih ((hm'.trans hm'').sub hsub) fun z hz => h z (List.mem_cons_of_mem _ hz)

theorem varPrintDepth_spec (hclosed : Closed g) (n : Nat) {r : Option Addr} (hsub : Sub g m.heap.get)
    (hr : ∀ v, r = some v → IsVar g v) : wp (varPrintDepth sys n r) (fun _ m' => Prints m m') m := by
  induction n using Nat.strong_induction_on generalizing r m with
  | _ n ih =>
    cases n with
    | zero => exact printf_spec _
    | succ n =>
      cases r with
      | none => exact printf_spec _
      | some a =>
        obtain ⟨b, hb, hvar⟩ := hr a rfl
        unfold varPrintDepth
        rw [wp_bind, wp_load (hsub a b hb)]
        cases b with
        | raw | chars | ptrs => cases hvar
        | str s =>
          cases s with
          | none => exact printf_spec _
          | some s =>
            obtain ⟨cap, text, hget⟩ := hclosed a _ hb
            show wp (cstr s >>= _) _ m
            rw [wp_bind, wp_cstr (hsub s _ hget)]
            exact printf_spec _
        | array items len cap =>
          obtain ⟨written, hget, hlen, hvars⟩ := hclosed a _ hb
          refine Prints.andThen (printf_spec _) fun _ m' hm' => ?_
          have hsub' := hm'.sub hsub
          show wp (cells items >>= _) _ m'
          rw [wp_bind, wp_cells (hsub' _ _ hget), if_pos (Nat.le_of_eq hlen.symm)]
          refine Prints.andThen (printSep_spec hsub' fun x hx m'' hm'' => ?_) fun _ _ _ => printf_spec _
          exact ih n (Nat.lt_succ_self n) hm'' fun v hv => hvars v (hv ▸ List.mem_of_mem_take hx)
        | dict d =>
          cases n with
          | zero => exact printf_spec _
          | succ n =>
            refine Prints.andThen (printf_spec _) fun _ m' hm' => ?_
            refine Prints.andThen (printSep_spec (hm'.sub hsub) fun e he m'' hm'' => ?_) fun _ _ _ => printf_spec _
            refine Prints.andThen (printf_spec _) fun _ m₃ hm₃ => ?_
            exact ih n (by omega) (hm₃.sub hm'') fun v hv => hclosed a _ hb e (Dict.mem_of_visited he) v hv
        | _ => exact printf_spec _

end KanekFoundations.Cfg

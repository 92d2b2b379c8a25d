/-
  KanekFoundations.Lib.Heap — a heap of blocks, and a part of it that nothing writes to.

  A heap lists the blocks in the order of their allocation; the slot of a freed block is
  empty. A part of a heap is a partial map of addresses to blocks. `Grows g h g' h'`: the
  heap `h` became `h'`, every block that `h` had is as it was, and the part `g` became `g'`
  by blocks that are new in `h'`.
-/

import Mathlib

namespace KanekFoundations.Lib

abbrev Addr := Nat

abbrev Heap (B : Type) := List (Option B)

abbrev SubHeap (B : Type) := Addr → Option B

namespace Heap

variable {B : Type} {h h' h'' : Heap B} {g g' g'' : SubHeap B} {a a' : Addr} {b b' : B}

def get (h : Heap B) (a : Addr) : Option B := h[a]?.join

def alloc (h : Heap B) (b : B) : Heap B := h ++ [some b]

/-- Overwrite a slot: with a block, or with nothing when the block is freed. -/
def put (h : Heap B) (a : Addr) (x : Option B) : Heap B := h.set a x

theorem length_alloc (h : Heap B) (b : B) : (h.alloc b).length = h.length + 1 := List.length_append

theorem length_put (h : Heap B) (a : Addr) (x : Option B) : (h.put a x).length = h.length := List.length_set

theorem get_alloc_self (h : Heap B) (b : B) : (h.alloc b).get h.length = some b := by
  unfold get alloc
  rw [List.getElem?_append_right (Nat.le_refl _), Nat.sub_self]
  rfl

theorem get_alloc_of_lt (b : B) (ha : a < h.length) : (h.alloc b).get a = h.get a := by
  unfold get alloc
  rw [List.getElem?_append_left ha]

theorem get_lt (ha : h.get a = some b) : a < h.length := by
  unfold get at ha
  by_contra hlt
  rw [List.getElem?_eq_none (Nat.le_of_not_lt hlt)] at ha
  cases ha

theorem get_put_self (x : Option B) (ha : a < h.length) : (h.put a x).get a = x := by
  unfold get put
  rw [List.getElem?_set_self ha]
  rfl

theorem get_put_of_ne (x : Option B) (hne : a' ≠ a) : (h.put a x).get a' = h.get a' := by
  unfold get put
  rw [List.getElem?_set_ne (Ne.symm hne)]

end Heap

/-! ## Parts -/

section
variable {B : Type} {h h' h'' : Heap B} {g g' g'' : SubHeap B} {a a' : Addr} {b b' : B}

def Sub (g g' : SubHeap B) : Prop := ∀ a b, g a = some b → g' a = some b

theorem Sub.refl (g : SubHeap B) : Sub g g := fun _ _ h => h

theorem Sub.trans (h : Sub g g') (h' : Sub g' g'') : Sub g g'' := fun a b hab => h' a b (h a b hab)

def SubHeap.add (g : SubHeap B) (a : Addr) (b : B) : SubHeap B := fun a' => if a' = a then some b else g a'

theorem SubHeap.add_self (g : SubHeap B) (a : Addr) (b : B) : g.add a b a = some b := if_pos rfl

theorem SubHeap.add_of_ne (g : SubHeap B) (b : B) (hne : a' ≠ a) : g.add a b a' = g a' := if_neg hne

theorem Sub.add (ha : g a = Option.none) : Sub g (g.add a b) := by
  intro a' b' hab
  by_cases hne : a' = a
  · rw [hne, ha] at hab
    cases hab
  · rw [SubHeap.add_of_ne g b hne]
    exact hab

theorem Sub.add_left (h : Sub g g') (ha : g' a = some b) : Sub (g.add a b) g' := by
  intro a' b' hab
  by_cases hne : a' = a
  · subst hne
    rw [SubHeap.add_self] at hab
    cases hab
    exact ha
  · rw [SubHeap.add_of_ne g b hne] at hab
    exact h a' b' hab

structure Grows (g : SubHeap B) (h : Heap B) (g' : SubHeap B) (h' : Heap B) : Prop where
  sub : Sub g g'
  within : Sub g' h'.get
  size : h.length ≤ h'.length
  heap : ∀ a < h.length, h'.get a = h.get a
  part : ∀ a < h.length, g' a = g a

theorem Grows.refl (hg : Sub g h.get) : Grows g h g h :=
  ⟨.refl g, hg, Nat.le_refl _, fun _ _ => rfl, fun _ _ => rfl⟩

theorem Grows.trans (hg : Grows g h g' h') (hg' : Grows g' h' g'' h'') : Grows g h g'' h'' := by
  refine ⟨hg.sub.trans hg'.sub, hg'.within, Nat.le_trans hg.size hg'.size, ?_, ?_⟩
  · intro a ha
    rw [hg'.heap a (Nat.lt_of_lt_of_le ha hg.size), hg.heap a ha]
  · intro a ha
    rw [hg'.part a (Nat.lt_of_lt_of_le ha hg.size), hg.part a ha]

/-- A slot past the heap is in no part of it. -/
theorem Sub.fresh (hg : Sub g h.get) (ha : h.length ≤ a) : g a = Option.none := by
  cases hga : g a with
  | none => rfl
  | some b => exact absurd (Heap.get_lt (hg a b hga)) (Nat.not_lt_of_le ha)

theorem Grows.alloc (hg : Sub g h.get) (b : B) : Grows g h g (h.alloc b) := by
  refine ⟨.refl g, ?_, by rw [Heap.length_alloc]; exact Nat.le_succ _, ?_, fun _ _ => rfl⟩
  · intro a b' hab
    have hget := hg a b' hab
    rw [Heap.get_alloc_of_lt b (Heap.get_lt hget)]
    exact hget
  · exact fun a ha => Heap.get_alloc_of_lt b ha

/-- A new block outside the part may be written and freed. -/
theorem Grows.put (hg : Grows g h g' h') (ha : h.length ≤ a) (hout : g' a = Option.none) (x : Option B) :
    Grows g h g' (h'.put a x) := by
  refine ⟨hg.sub, ?_, by rw [Heap.length_put]; exact hg.size, ?_, hg.part⟩
  · intro a' b' hab
    have hne : a' ≠ a := by
      intro heq
      subst heq
      rw [hout] at hab
      cases hab
    rw [Heap.get_put_of_ne x hne]
    exact hg.within a' b' hab
  · intro a' ha'
    have hne : a' ≠ a := Nat.ne_of_lt (Nat.lt_of_lt_of_le ha' ha)
    rw [Heap.get_put_of_ne x hne]
    exact hg.heap a' ha'

/-- A new block may join the part. -/
theorem Grows.add (hg : Grows g h g' h') (ha : h.length ≤ a) (hout : g' a = Option.none) (hb : h'.get a = some b) :
    Grows g h (g'.add a b) h' := by
  refine ⟨hg.sub.trans (.add hout), hg.within.add_left hb, hg.size, hg.heap, ?_⟩
  intro a' ha'
  rw [SubHeap.add_of_ne g' b (Nat.ne_of_lt (Nat.lt_of_lt_of_le ha' ha))]
  exact hg.part a' ha'

end

end KanekFoundations.Lib

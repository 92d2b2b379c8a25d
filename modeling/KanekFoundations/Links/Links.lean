/-
  KanekFoundations.Links.Links — the linked lists of `list.h`.

  A list runs through structures that start with a `list_t`; what else is in such a structure
  is `P`. Memory maps addresses to these structures. A program that touches an address
  without one is stuck.
-/

import KanekFoundations.Lib.Exec
import KanekFoundations.Lib.Heap
import KanekFoundations.Lib.Ring

namespace KanekFoundations.Links

open KanekFoundations.Lib

variable {P : Type}

structure Entry (P : Type) where
  next : Addr
  prev : Addr
  rest : P

abbrev Entries (P : Type) := Addr → Option (Entry P)

abbrev M (P α : Type) := StateT (Entries P) Option α

/-! ## Links -/

namespace Entries

def next (e : Entries P) (a : Addr) : Option Addr := (e a).map Entry.next

def prev (e : Entries P) (a : Addr) : Option Addr := (e a).map Entry.prev

def rest (e : Entries P) (a : Addr) : Option P := (e a).map Entry.rest

def put (e : Entries P) (a : Addr) (x : Option (Entry P)) : Entries P := fun c => if c = a then x else e c

def withNext (e : Entries P) (a b : Addr) : Entries P := e.put a ((e a).map fun x => { x with next := b })

def withPrev (e : Entries P) (a b : Addr) : Entries P := e.put a ((e a).map fun x => { x with prev := b })

def withRest (e : Entries P) (a : Addr) (r : P) : Entries P := e.put a ((e a).map fun x => { x with rest := r })

end Entries

def getNext (a : Addr) : M P Addr := fun e => (e.next a).map fun b => (b, e)

def getPrev (a : Addr) : M P Addr := fun e => (e.prev a).map fun b => (b, e)

def setNext (a b : Addr) : M P Unit := fun e => (e a).map fun _ => ((), e.withNext a b)

def setPrev (a b : Addr) : M P Unit := fun e => (e a).map fun _ => ((), e.withPrev a b)

/-! ## The functions of the header -/

def initListHead (ptr : Addr) : M P Unit := do
  setNext ptr ptr
  setPrev ptr ptr

def listEmpty (list : Addr) : M P Bool := do
  let n ← getNext list
  pure (n = list)

def listAdd (newEntry head : Addr) : M P Unit := do
  let n ← getNext head
  setNext newEntry n
  setPrev newEntry head
  let n ← getNext head
  setPrev n newEntry
  setNext head newEntry

def listAddTail (newEntry head : Addr) : M P Unit := do
  setNext newEntry head
  let p ← getPrev head
  setPrev newEntry p
  let p ← getPrev head
  setNext p newEntry
  setPrev head newEntry

def listDel (entry : Addr) : M P Unit := do
  let n ← getNext entry
  let p ← getPrev entry
  setPrev n p
  let p ← getPrev entry
  let n ← getNext entry
  setNext p n

def listReparent (list newEntry : Addr) : M P Unit := do
  if ← listEmpty list then pure ()
  else do
    let n ← getNext list
    setNext newEntry n
    let p ← getPrev list
    setPrev newEntry p
    let p ← getPrev newEntry
    setNext p newEntry
    let n ← getNext newEntry
    setPrev n newEntry

/-- `list_for_each_safe` in a program over `σ` that reads the links with `link`: at most `k`
    times round, with `acc` what the body carries along. -/
def forEachFrom {σ α : Type} (link : Addr → StateT σ Option Addr) (body : α → Addr → StateT σ Option α) (head : Addr) :
    Nat → Addr → Addr → α → StateT σ Option α
  | 0, _, _, _ => fun _ => none
  | k + 1, pos, n, acc =>
    if pos = head then pure acc
    else do
      let acc ← body acc pos
      let n' ← link n
      forEachFrom link body head k n n' acc

def forEachSafe {σ α : Type} (link : Addr → StateT σ Option Addr) (body : α → Addr → StateT σ Option α)
    (head : Addr) (k : Nat)
    (acc : α) : StateT σ Option α := do
  let pos ← link head
  let n ← link pos
  forEachFrom link body head k pos n acc

/-- `list_for_each`: the link is read after the body. -/
def forEachLoop {σ α : Type} (link : Addr → StateT σ Option Addr) (body : α → Addr → StateT σ Option α) (head : Addr) :
    Nat → Addr → α → StateT σ Option α
  | 0, _, _ => fun _ => none
  | k + 1, pos, acc =>
    if pos = head then pure acc
    else do
      let acc ← body acc pos
      let pos ← link pos
      forEachLoop link body head k pos acc

def forEach {σ α : Type} (link : Addr → StateT σ Option Addr) (body : α → Addr → StateT σ Option α)
    (head : Addr) (k : Nat)
    (acc : α) : StateT σ Option α := do
  let pos ← link head
  forEachLoop link body head k pos acc

/-- `list_for_each_safe` around a body that may return from the function, with a value. -/
def forEachUntilFrom {σ β : Type} (link : Addr → StateT σ Option Addr) (body : Addr → StateT σ Option (Option β))
    (head : Addr) :
    Nat → Addr → Addr → StateT σ Option (Option β)
  | 0, _, _ => fun _ => none
  | k + 1, pos, n =>
    if pos = head then pure none
    else do
      match ← body pos with
      | some r => pure (some r)
      | none => do
        let n' ← link n
        forEachUntilFrom link body head k n n'

def forEachUntil {σ β : Type} (link : Addr → StateT σ Option Addr)
    (body : Addr → StateT σ Option (Option β)) (head : Addr)
    (k : Nat) : StateT σ Option (Option β) := do
  let pos ← link head
  let n ← link pos
  forEachUntilFrom link body head k pos n

/-! ## What changes -/

namespace Entries

variable {e e' : Entries P} {a b c : Addr}

theorem put_self (e : Entries P) (a : Addr) (x : Option (Entry P)) : e.put a x a = x := if_pos rfl

theorem put_of_ne (e : Entries P) {a c : Addr} (x : Option (Entry P)) (hne : c ≠ a) : e.put a x c = e c := if_neg hne

@[simp] theorem withNext_isSome (e : Entries P) (a b c : Addr) : (e.withNext a b c).isSome = (e c).isSome := by
  unfold withNext put
  split
  · simp_all
  · rfl

@[simp] theorem withPrev_isSome (e : Entries P) (a b c : Addr) : (e.withPrev a b c).isSome = (e c).isSome := by
  unfold withPrev put
  split
  · simp_all
  · rfl

@[simp] theorem withNext_prev (e : Entries P) (a b : Addr) : (e.withNext a b).prev = e.prev := by
  funext c
  unfold prev withNext put
  by_cases hc : c = a
  · subst hc
    simp [Function.comp_def]
  · simp [hc]

@[simp] theorem withPrev_next (e : Entries P) (a b : Addr) : (e.withPrev a b).next = e.next := by
  funext c
  unfold next withPrev put
  by_cases hc : c = a
  · subst hc
    simp [Function.comp_def]
  · simp [hc]

@[simp] theorem withNext_rest (e : Entries P) (a b : Addr) : (e.withNext a b).rest = e.rest := by
  funext c
  unfold rest withNext put
  by_cases hc : c = a
  · subst hc
    simp [Function.comp_def]
  · simp [hc]

@[simp] theorem withPrev_rest (e : Entries P) (a b : Addr) : (e.withPrev a b).rest = e.rest := by
  funext c
  unfold rest withPrev put
  by_cases hc : c = a
  · subst hc
    simp [Function.comp_def]
  · simp [hc]

theorem withNext_next (ha : (e a).isSome) (b c : Addr) :
    (e.withNext a b).next c = if c = a then some b else e.next c := by
  obtain ⟨x, hx⟩ := Option.isSome_iff_exists.mp ha
  unfold next withNext put
  by_cases hc : c = a
  · simp [hc, hx]
  · simp [hc]

theorem withPrev_prev (ha : (e a).isSome) (b c : Addr) :
    (e.withPrev a b).prev c = if c = a then some b else e.prev c := by
  obtain ⟨x, hx⟩ := Option.isSome_iff_exists.mp ha
  unfold prev withPrev put
  by_cases hc : c = a
  · simp [hc, hx]
  · simp [hc]

@[simp] theorem withRest_next (e : Entries P) (a : Addr) (r : P) : (e.withRest a r).next = e.next := by
  funext c
  unfold next withRest put
  by_cases hc : c = a
  · subst hc
    simp [Function.comp_def]
  · simp [hc]

@[simp] theorem withRest_prev (e : Entries P) (a : Addr) (r : P) : (e.withRest a r).prev = e.prev := by
  funext c
  unfold prev withRest put
  by_cases hc : c = a
  · subst hc
    simp [Function.comp_def]
  · simp [hc]

@[simp] theorem withRest_isSome (e : Entries P) (a c : Addr) (r : P) : (e.withRest a r c).isSome = (e c).isSome := by
  unfold withRest put
  by_cases hc : c = a
  · simp [hc]
  · simp [hc]

theorem withRest_withRest (e : Entries P) (a : Addr) (r r' : P) : (e.withRest a r).withRest a r' = e.withRest a r' := by
  funext c
  unfold withRest put
  by_cases hc : c = a
  · simp [hc, Function.comp_def]
  · simp [hc]

theorem withRest_rest (ha : (e a).isSome) (r : P) : (e.withRest a r).rest = Function.update e.rest a (some r) := by
  obtain ⟨x, hx⟩ := Option.isSome_iff_exists.mp ha
  funext c
  unfold rest withRest put
  by_cases hc : c = a
  · subst hc
    simp [hx]
  · simp [hc]

theorem put_rest (e : Entries P) (a : Addr) (x : Option (Entry P)) :
    (e.put a x).rest = Function.update e.rest a (x.map Entry.rest) := by
  funext c
  unfold rest put
  by_cases hc : c = a
  · subst hc
    simp
  · simp [hc]

theorem isSome_rest (e : Entries P) (a : Addr) : (e.rest a).isSome = (e a).isSome := Option.isSome_map

theorem isSome_of_next (h : e.next a = some b) : (e a).isSome := by
  cases ha : e a with
  | none => simp [next, ha] at h
  | some _ => rfl

theorem isSome_of_prev (h : e.prev a = some b) : (e a).isSome := by
  cases ha : e a with
  | none => simp [prev, ha] at h
  | some _ => rfl

/-- An entry is its two links and the rest. -/
theorem ext_at (hn : e'.next a = e.next a) (hp : e'.prev a = e.prev a) (hr : e'.rest a = e.rest a) : e' a = e a := by
  unfold next at hn
  unfold prev at hp
  unfold rest at hr
  cases h : e a with
  | none => simpa [h] using hn
  | some y =>
    cases h' : e' a with
    | none => simp [h, h'] at hn
    | some x =>
      rw [h, h'] at hn hp hr
      cases x
      cases y
      simp_all

theorem isSome_of_rest (h : e'.rest = e.rest) (a : Addr) : (e' a).isSome = (e a).isSome := by
  rw [← isSome_rest, h, isSome_rest]

end Entries

section
variable {e : Entries P} {a b : Addr} {Q : Addr → Entries P → Prop} {R : Unit → Entries P → Prop}

theorem wp_getNext (h : e.next a = some b) : wp (getNext a) Q e ↔ Q b e := wp_run (by simp [getNext, h])

theorem wp_getPrev (h : e.prev a = some b) : wp (getPrev a) Q e ↔ Q b e := wp_run (by simp [getPrev, h])

theorem wp_setNext (h : (e a).isSome) (b : Addr) : wp (setNext a b) R e ↔ R () (e.withNext a b) := by
  obtain ⟨x, hx⟩ := Option.isSome_iff_exists.mp h
  exact wp_run (by simp [setNext, hx])

theorem wp_setPrev (h : (e a).isSome) (b : Addr) : wp (setPrev a b) R e ↔ R () (e.withPrev a b) := by
  obtain ⟨x, hx⟩ := Option.isSome_iff_exists.mp h
  exact wp_run (by simp [setPrev, hx])

end

/-! ## The operations on a ring -/

variable {e : Entries P} {h a x b : Addr} {xs ys zs : List Addr}

abbrev Entries.IsRing (e : Entries P) (h : Addr) (xs : List Addr) : Prop := Ring e.next e.prev h xs

/-- A list does not see what is at other addresses. -/
theorem ring_put (hr : e.IsRing h xs) (hx : x ∉ h :: xs) (y : Option (Entry P)) : (e.put x y).IsRing h xs := by
  have hsame : ∀ c ∈ h :: xs, e.put x y c = e c := fun c hc => e.put_of_ne y fun heq => hx (heq ▸ hc)
  refine hr.congr (fun c hc => ?_) (fun c hc => ?_)
  · unfold Entries.next
    rw [hsame c hc]
  · unfold Entries.prev
    rw [hsame c hc]

/-- From a node of a list one gets to what stands behind it. -/
theorem link_of_ring (hr : e.IsRing h (ys ++ zs)) {y : Addr} {post : List Addr} (hy : zs ++ [h] = y :: post) :
    ∃ z, e.next y = some z ∧ ∀ y' post', post = y' :: post' → z = y' := by
  cases zs with
  | nil =>
    cases hy
    obtain ⟨y, post, hy⟩ := exists_behind ys h
    rw [List.append_nil] at hr
    have hjoin := Ring.front hr hy
    exact ⟨y, hjoin.1, fun y' post' h => (by cases h)⟩
  | cons x zs =>
    obtain ⟨rfl, rfl⟩ := List.cons.inj hy
    obtain ⟨pre, a, ha⟩ := exists_before h ys
    obtain ⟨b, post, hb⟩ := exists_behind zs h
    refine ⟨b, (hr.around ha hb).2.1, fun y' post' h => ?_⟩
    exact (List.cons.inj (hb.symm.trans h)).1

theorem initListHead_spec (hh : (e h).isSome) :
    wp (initListHead h) (fun _ e' => e'.IsRing h [] ∧ e'.rest = e.rest) e := by
  unfold initListHead
  rw [wp_bind, wp_setNext hh, wp_setPrev (by simpa using hh)]
  refine ⟨.nil ?_ ?_, by simp⟩
  · simp [Entries.withNext_next hh]
  · rw [Entries.withPrev_prev (by simpa using hh), if_pos rfl]

/-- The first node of a list is where its head points. -/
theorem first_of_ring (hr : e.IsRing h xs) :
    ∃ y post, xs ++ [h] = y :: post ∧ e.next h = some y ∧ e.prev y = some h ∧ y ∈ h :: xs := by
  obtain ⟨y, post, hy⟩ := exists_behind xs h
  have hjoin := Ring.front hr hy
  have hmem : y ∈ xs ++ [h] := hy ▸ List.mem_cons_self ..
  exact ⟨y, post, hy, hjoin.1, hjoin.2, (List.perm_append_singleton h xs).mem_iff.mp hmem⟩

/-- The last node of a list is where its head points back. -/
theorem last_of_ring (hr : e.IsRing h xs) :
    ∃ pre y, h :: xs = pre ++ [y] ∧ e.next y = some h ∧ e.prev h = some y ∧ y ∈ h :: xs := by
  obtain ⟨pre, y, hy⟩ := exists_before h xs
  have hjoin :=
    Ring.between (show e.IsRing h (xs ++ []) by rwa [List.append_nil]) hy (show [] ++ [h] = h :: [] from rfl)
  exact ⟨pre, y, hy, hjoin.1, hjoin.2, hy ▸ List.mem_append_right _ (List.mem_singleton_self y)⟩

/-- The links of `e'` are those of `e` with `x` between `a` and `b`. -/
structure Inserted (e e' : Entries P) (a x b : Addr) : Prop where
  next : ∀ c, e'.next c = if c = a then some x else if c = x then some b else e.next c
  prev : ∀ c, e'.prev c = if c = b then some x else if c = x then some a else e.prev c
  rest : e'.rest = e.rest

/-- The links of `e'` are those of `e` with nothing between `a` and `b`. -/
structure Removed (e e' : Entries P) (a b : Addr) : Prop where
  next : ∀ c, e'.next c = if c = a then some b else e.next c
  prev : ∀ c, e'.prev c = if c = b then some a else e.prev c
  rest : e'.rest = e.rest

theorem listAdd_inserted (hnext : e.next h = some a) (hea : (e a).isSome) (hxh : x ≠ h) (hex : (e x).isSome) :
    wp (listAdd x h) (fun _ e' => Inserted e e' h x a) e := by
  have hh := Entries.isSome_of_next hnext
  unfold listAdd
  rw [wp_bind, wp_getNext hnext, wp_bind, wp_setNext hex, wp_bind, wp_setPrev (by simpa using hex), wp_bind,
    wp_getNext (b := a) (by simp [Entries.withNext_next hex, Ne.symm hxh, hnext]), wp_bind,
    wp_setPrev (by simpa using hea),
    wp_setNext (by simpa using hh)]
  refine ⟨fun c => ?_, fun c => ?_, by simp⟩
  · rw [Entries.withNext_next (by simpa using hh), Entries.withPrev_next, Entries.withPrev_next,
      Entries.withNext_next hex]
  · rw [Entries.withNext_prev, Entries.withPrev_prev (by simpa using hea), Entries.withPrev_prev (by simpa using hex),
      Entries.withNext_prev]

theorem listAddTail_inserted (hea : (e a).isSome) (hprev : e.prev h = some a) (hxh : x ≠ h) (hex : (e x).isSome) :
    wp (listAddTail x h) (fun _ e' => Inserted e e' a x h) e := by
  have hh := Entries.isSome_of_prev hprev
  unfold listAddTail
  have hprev' : ((e.withNext x h).withPrev x a).prev h = some a := by
    rw [Entries.withPrev_prev (by simpa using hex), if_neg (Ne.symm hxh)]
    simpa using hprev
  rw [wp_bind, wp_setNext hex, wp_bind, wp_getPrev (b := a) (by simpa using hprev), wp_bind,
    wp_setPrev (by simpa using hex), wp_bind, wp_getPrev hprev', wp_bind, wp_setNext (by simpa using hea),
    wp_setPrev (by simpa using hh)]
  refine ⟨fun c => ?_, fun c => ?_, by simp⟩
  · rw [Entries.withPrev_next, Entries.withNext_next (by simpa using hea), Entries.withPrev_next,
      Entries.withNext_next hex]
  · rw [Entries.withPrev_prev (by simpa using hh), Entries.withNext_prev, Entries.withPrev_prev (by simpa using hex),
      Entries.withNext_prev]

theorem listDel_removed (hax : Joined e.next e.prev a x) (hxb : Joined e.next e.prev x b) (hne : x ≠ b) :
    wp (listDel x) (fun _ e' => Removed e e' a b) e := by
  have hea := Entries.isSome_of_next hax.1
  have heb := Entries.isSome_of_prev hxb.2
  unfold listDel
  rw [wp_bind, wp_getNext hxb.1, wp_bind, wp_getPrev hax.2, wp_bind, wp_setPrev heb, wp_bind,
    wp_getPrev (b := a) (by rw [Entries.withPrev_prev heb, if_neg hne, hax.2]), wp_bind,
    wp_getNext (b := b) (by simpa using hxb.1), wp_setNext (by simpa using hea)]
  refine ⟨fun c => ?_, fun c => ?_, by simp⟩
  · rw [Entries.withNext_next (by simpa using hea), Entries.withPrev_next]
  · rw [Entries.withNext_prev, Entries.withPrev_prev heb]

/-- The new node has a place of its own in the list. -/
theorem Inserted.ring {e' : Entries P} (hi : Inserted e e' a x b) (hr : e.IsRing h (ys ++ zs)) {pre post : List Addr}
    (ha : h :: ys = pre ++ [a]) (hb : zs ++ [h] = b :: post) (hx : x ∉ h :: (ys ++ zs)) :
      e'.IsRing h (ys ++ x :: zs) := by
  have hmema : a ∈ h :: ys := ha ▸ List.mem_append_right _ (List.mem_singleton_self a)
  have hmemb : b ∈ zs ++ [h] := hb ▸ List.mem_cons_self ..
  have hxa : x ≠ a := fun heq => hx (by simp at hmema ⊢; subst heq; tauto)
  have hxb : x ≠ b := fun heq => hx (by simp at hmemb ⊢; subst heq; tauto)
  refine hr.insert ha hb hx ⟨?_, ?_⟩ ⟨?_, ?_⟩ (fun c hc hc' => ?_) fun c hc hc' => ?_
  · rw [hi.next, if_pos rfl]
  · rw [hi.prev, if_neg hxb, if_pos rfl]
  · rw [hi.next, if_neg hxa, if_pos rfl]
  · rw [hi.prev, if_pos rfl]
  · rw [hi.next, if_neg hc, if_neg hc']
  · rw [hi.prev, if_neg hc, if_neg hc']

theorem Removed.ring {e' : Entries P} (hd : Removed e e' a b) (hr : e.IsRing h (ys ++ x :: zs)) {pre post : List Addr}
    (ha : h :: ys = pre ++ [a]) (hb : zs ++ [h] = b :: post) : e'.IsRing h (ys ++ zs) := by
  refine hr.remove ha hb ⟨?_, ?_⟩ (fun c hc => ?_) fun c hc => ?_
  · rw [hd.next, if_pos rfl]
  · rw [hd.prev, if_pos rfl]
  · rw [hd.next, if_neg hc]
  · rw [hd.prev, if_neg hc]

/-- The node behind `x` is not `x`. -/
theorem ne_behind (hr : e.IsRing h (ys ++ x :: zs)) {post : List Addr} (hb : zs ++ [h] = b :: post) : x ≠ b := by
  intro heq
  have hmem : x ∈ zs ++ [h] := by rw [hb, heq]; exact List.mem_cons_self ..
  have hnd := hr.tail_nodup
  rw [List.append_assoc, List.cons_append] at hnd
  exact (List.nodup_cons.mp (List.nodup_append.mp hnd).2.1).1 hmem

theorem listAdd_spec (hr : e.IsRing h xs) (hx : x ∉ h :: xs) (hex : (e x).isSome) :
    wp (listAdd x h) (fun _ e' => e'.IsRing h (x :: xs) ∧ e'.rest = e.rest) e := by
  obtain ⟨y, post, hy, hnext, hprev, -⟩ := first_of_ring hr
  have hxh : x ≠ h := fun heq => hx (heq ▸ List.mem_cons_self ..)
  refine (listAdd_inserted hnext (Entries.isSome_of_prev hprev) hxh hex).mono fun _ e' hi => ⟨?_, hi.rest⟩
  exact hi.ring (show e.IsRing h ([] ++ xs) from hr) (show [h] = [] ++ [h] from rfl) hy hx

theorem listDel_spec (hr : e.IsRing h (ys ++ x :: zs)) :
    wp (listDel x) (fun _ e' => e'.IsRing h (ys ++ zs) ∧ e'.rest = e.rest ∧ ∀ c ∉ h :: (ys ++ zs), e' c = e c) e := by
  obtain ⟨pre, a, ha⟩ := exists_before h ys
  obtain ⟨b, post, hb⟩ := exists_behind zs h
  obtain ⟨hax, hxb⟩ := hr.around ha hb
  refine (listDel_removed hax hxb (ne_behind hr hb)).mono fun _ e' hd => ⟨hd.ring hr ha hb, hd.rest, fun c hc => ?_⟩
  have hamem : a ∈ h :: ys := ha ▸ List.mem_append_right _ (List.mem_singleton_self a)
  have hbmem : b ∈ zs ++ [h] := hb ▸ List.mem_cons_self ..
  have hca : c ≠ a := by
    intro heq
    subst heq
    exact hc (by simp at hamem ⊢; tauto)
  have hcb : c ≠ b := by
    intro heq
    subst heq
    exact hc (by simp at hbmem ⊢; tauto)
  refine Entries.ext_at ?_ ?_ (congrFun hd.rest c)
  · rw [hd.next, if_neg hca]
  · rw [hd.prev, if_neg hcb]

/-- The rule for the loop: `I acc left s` is what holds before the nodes `left`. -/
theorem forEachFrom_rule {σ α : Type} {link : Addr → StateT σ Option Addr}
    {body : α → Addr → StateT σ Option α} {head : Addr}
    (I : α → List Addr → σ → Prop) (hlink : ∀ acc left s y post, I acc left s → left ++ [head] = y :: post →
      ∃ z, link y s = some (z, s) ∧ ∀ y' post', post = y' :: post' → z = y')
    (hbody : ∀ acc y left s, I acc (y :: left) s → y ≠ head ∧ wp (body acc y) (fun acc' s' => I acc' left s') s)
    {k : Nat} {left : List Addr} (hk : left.length < k) {acc : α} {s : σ} (h : I acc left s) {y : Addr}
    {post : List Addr}
    (hy : left ++ [head] = y :: post) {n : Addr} (hn : ∀ y' post', post = y' :: post' → n = y') :
    wp (forEachFrom link body head k y n acc) (fun acc' s' => I acc' [] s') s := by
  induction k generalizing left acc s y post n with
  | zero => exact absurd hk (Nat.not_lt_zero _)
  | succ k ih =>
    cases left with
    | nil =>
      cases hy
      unfold forEachFrom
      rw [if_pos rfl]
      exact wp_pure.mpr h
    | cons x left =>
      obtain ⟨rfl, rfl⟩ : x = y ∧ left ++ [head] = post := List.cons.inj hy
      obtain ⟨hne, hrun⟩ := hbody _ _ _ _ h
      obtain ⟨y', post', hy'⟩ := exists_behind left head
      have hy₁ := hn y' post' hy'
      subst hy₁
      unfold forEachFrom
      rw [if_neg hne]
      refine wp.bind hrun fun acc' s' hs' => ?_
      obtain ⟨z, hz, hnext⟩ := hlink _ _ _ _ _ hs' hy'
      rw [wp_bind, wp_run hz]
      exact ih (Nat.lt_of_succ_lt_succ hk) hs' hy' hnext

theorem forEachSafe_rule {σ α : Type} {link : Addr → StateT σ Option Addr}
    {body : α → Addr → StateT σ Option α} {head : Addr}
    (I : α → List Addr → σ → Prop) (hlink : ∀ acc left s y post, I acc left s → left ++ [head] = y :: post →
      ∃ z, link y s = some (z, s) ∧ ∀ y' post', post = y' :: post' → z = y')
    (hbody : ∀ acc y left s, I acc (y :: left) s → y ≠ head ∧ wp (body acc y) (fun acc' s' => I acc' left s') s)
    {k : Nat} {xs : List Addr} (hk : xs.length < k) {acc : α} {s : σ} (h : I acc xs s)
    (hfirst : ∀ y post, xs ++ [head] = y :: post → link head s = some (y, s)) :
    wp (forEachSafe link body head k acc) (fun acc' s' => I acc' [] s') s := by
  obtain ⟨y, post, hy⟩ := exists_behind xs head
  obtain ⟨z, hz, hnext⟩ := hlink _ _ _ _ _ h hy
  unfold forEachSafe
  rw [wp_bind, wp_run (hfirst y post hy), wp_bind, wp_run hz]
  exact forEachFrom_rule I hlink hbody hk h hy hnext

theorem forEachLoop_rule {σ α : Type} {link : Addr → StateT σ Option Addr}
    {body : α → Addr → StateT σ Option α} {head : Addr}
    (I : α → List Addr → σ → Prop) (hbody : ∀ acc y left s, I acc (y :: left) s → y ≠ head ∧
      wp (body acc y) (fun acc' s' => I acc' left s' ∧
        ∃ z, link y s' = some (z, s') ∧ ∀ y' post', left ++ [head] = y' :: post' → z = y') s)
    {k : Nat} {left : List Addr} (hk : left.length < k) {acc : α} {s : σ} (h : I acc left s) {y : Addr}
    {post : List Addr}
    (hy : left ++ [head] = y :: post) : wp (forEachLoop link body head k y acc) (fun acc' s' => I acc' [] s') s := by
  induction k generalizing left acc s y post with
  | zero => exact absurd hk (Nat.not_lt_zero _)
  | succ k ih =>
    cases left with
    | nil =>
      cases hy
      unfold forEachLoop
      rw [if_pos rfl]
      exact wp_pure.mpr h
    | cons x left =>
      obtain ⟨rfl, rfl⟩ : x = y ∧ left ++ [head] = post := List.cons.inj hy
      obtain ⟨hne, hrun⟩ := hbody _ _ _ _ h
      unfold forEachLoop
      rw [if_neg hne]
      refine wp.bind hrun fun acc' s' hs' => ?_
      obtain ⟨hs', z, hz, hnext⟩ := hs'
      obtain ⟨y', post', hy'⟩ := exists_behind left head
      rw [wp_bind, wp_run hz, hnext y' post' hy']
      exact ih (Nat.lt_of_succ_lt_succ hk) hs' hy'

theorem forEach_rule {σ α : Type} {link : Addr → StateT σ Option Addr}
    {body : α → Addr → StateT σ Option α} {head : Addr}
    (I : α → List Addr → σ → Prop) (hbody : ∀ acc y left s, I acc (y :: left) s → y ≠ head ∧
      wp (body acc y) (fun acc' s' => I acc' left s' ∧
        ∃ z, link y s' = some (z, s') ∧ ∀ y' post', left ++ [head] = y' :: post' → z = y') s)
    {k : Nat} {xs : List Addr} (hk : xs.length < k) {acc : α} {s : σ} (h : I acc xs s)
    (hfirst : ∀ y post, xs ++ [head] = y :: post → link head s = some (y, s)) :
    wp (forEach link body head k acc) (fun acc' s' => I acc' [] s') s := by
  obtain ⟨y, post, hy⟩ := exists_behind xs head
  unfold forEach
  rw [wp_bind, wp_run (hfirst y post hy)]
  exact forEachLoop_rule I hbody hk h hy

/-- The rule for a loop that may return: `I left s` before the nodes `left`, `Q` at the end. -/
theorem forEachUntilFrom_rule {σ β : Type} {link : Addr → StateT σ Option Addr}
    {body : Addr → StateT σ Option (Option β)}
    {head : Addr} (I : List Addr → σ → Prop) (Q : Option β → σ → Prop)
    (hlink : ∀ left s y post, I left s → left ++ [head] = y :: post →
      ∃ z, link y s = some (z, s) ∧ ∀ y' post', post = y' :: post' → z = y')
    (hbody : ∀ y left s, I (y :: left) s → y ≠ head ∧
      wp (body y) (fun r s' => r.elim (I left s') fun b => Q (some b) s') s)
    (hend : ∀ s, I [] s → Q none s) {k : Nat} {left : List Addr} (hk : left.length < k) {s : σ} (h : I left s)
    {y : Addr} {post : List Addr} (hy : left ++ [head] = y :: post) {n : Addr}
    (hn : ∀ y' post', post = y' :: post' → n = y') :
    wp (forEachUntilFrom link body head k y n) Q s := by
  induction k generalizing left s y post n with
  | zero => exact absurd hk (Nat.not_lt_zero _)
  | succ k ih =>
    cases left with
    | nil =>
      cases hy
      unfold forEachUntilFrom
      rw [if_pos rfl]
      exact wp_pure.mpr (hend s h)
    | cons x left =>
      obtain ⟨rfl, rfl⟩ : x = y ∧ left ++ [head] = post := List.cons.inj hy
      obtain ⟨hne, hrun⟩ := hbody _ _ _ h
      obtain ⟨y', post', hy'⟩ := exists_behind left head
      have hy₁ := hn y' post' hy'
      subst hy₁
      unfold forEachUntilFrom
      rw [if_neg hne]
      refine wp.bind hrun fun r s' hs' => ?_
      cases r with
      | some b => exact wp_pure.mpr hs'
      | none =>
        obtain ⟨z, hz, hnext⟩ := hlink _ _ _ _ hs' hy'
        show wp (link n >>= _) Q s'
        rw [wp_bind, wp_run hz]
        exact ih (Nat.lt_of_succ_lt_succ hk) hs' hy' hnext

theorem forEachUntil_rule {σ β : Type} {link : Addr → StateT σ Option Addr} {body : Addr → StateT σ Option (Option β)}
    {head : Addr} (I : List Addr → σ → Prop) (Q : Option β → σ → Prop)
    (hlink : ∀ left s y post, I left s → left ++ [head] = y :: post →
      ∃ z, link y s = some (z, s) ∧ ∀ y' post', post = y' :: post' → z = y')
    (hbody : ∀ y left s, I (y :: left) s → y ≠ head ∧
      wp (body y) (fun r s' => r.elim (I left s') fun b => Q (some b) s') s)
    (hend : ∀ s, I [] s → Q none s) {k : Nat} {xs : List Addr} (hk : xs.length < k) {s : σ} (h : I xs s)
    (hfirst : ∀ y post, xs ++ [head] = y :: post → link head s = some (y, s)) :
    wp (forEachUntil link body head k) Q s := by
  obtain ⟨y, post, hy⟩ := exists_behind xs head
  obtain ⟨z, hz, hnext⟩ := hlink _ _ _ _ h hy
  unfold forEachUntil
  rw [wp_bind, wp_run (hfirst y post hy), wp_bind, wp_run hz]
  exact forEachUntilFrom_rule I Q hlink hbody hend hk h hy hnext

end KanekFoundations.Links

/-
  KanekFoundations.Links.Reparent — the nodes of a list under another head.

  `list_reparent` links the new head in between the last node and the first one, and is done:
  the old head still points to both. A later call on the old list then goes through these
  links into the new one.

  `Call` is a later call of `list_add`, `list_add_tail` or `list_del`, of a node that is free
  or on the list that is named.

  Proved, in a family of lists of any lengths:
  - `calls_spec`: in lists that share no node, any calls keep them apart;
  - `listReparent_spec`: the new head has the nodes, in their order;
  - `stale_head`: a node that is put on the old list breaks the new one;
  - `list_reparent_iff`: the old list is left empty and apart only where it was empty before.
-/

import KanekFoundations.Links.Family

namespace KanekFoundations.Links

open KanekFoundations.Lib

variable {P ι : Type} {e e' : Entries P} {head : ι → Addr} {seq : ι → List Addr} {a b h n x : Addr}
    {xs : List Addr} {i j : ι}

/-! ## Later calls -/

inductive Call (ι : Type)
  | add (i : ι) (x : Addr)
  | addTail (i : ι) (x : Addr)
  | del (i : ι) (x : Addr)

def Call.run (head : ι → Addr) : Call ι → M P Unit
  | add i x => listAdd x (head i)
  | addTail i x => listAddTail x (head i)
  | del _ x => listDel x

/-- What the call makes of the lists. -/
def Call.apply [DecidableEq ι] (seq : ι → List Addr) : Call ι → ι → List Addr
  | add i x => Function.update seq i (x :: seq i)
  | addTail i x => Function.update seq i (seq i ++ [x])
  | del i x => Function.update seq i ((seq i).erase x)

/-- A node that is added is in memory and on no list, one that is taken off is on its list. -/
def Call.Fits (e : Entries P) (head : ι → Addr) (seq : ι → List Addr) : Call ι → Prop
  | add _ x | addTail _ x => (∀ j, x ∉ head j :: seq j) ∧ (e x).isSome
  | del i x => x ∈ seq i

def runCalls (head : ι → Addr) : List (Call ι) → M P Unit
  | [] => pure ()
  | c :: cs => do
    c.run head
    runCalls head cs

/-- What the calls make of the lists. -/
def applyCalls [DecidableEq ι] (seq : ι → List Addr) (cs : List (Call ι)) : ι → List Addr := cs.foldl Call.apply seq

def CallsFit [DecidableEq ι] (e : Entries P) (head : ι → Addr) : (ι → List Addr) → List (Call ι) → Prop
  | _, [] => True
  | seq, c :: cs => c.Fits e head seq ∧ CallsFit e head (c.apply seq) cs

theorem Call.run_spec [DecidableEq ι] (hf : Family e head seq) {c : Call ι} (hc : c.Fits e head seq) :
    wp (c.run head) (fun _ e' => Family e' head (c.apply seq) ∧ e'.rest = e.rest) e := by
  cases c with
  | add i x => exact listAdd_family hf i hc.1 hc.2
  | addTail i x => exact listAddTail_family hf i hc.1 hc.2
  | del i x => exact listDel_erase hf hc

theorem Call.Fits.rest {c : Call ι} (hrest : e'.rest = e.rest) (hc : c.Fits e head seq) : c.Fits e' head seq := by
  cases c with
  | add i x | addTail i x => exact ⟨hc.1, (Entries.isSome_of_rest hrest x).trans hc.2⟩
  | del i x => exact hc

theorem CallsFit.rest [DecidableEq ι] {cs : List (Call ι)} (hrest : e'.rest = e.rest) (hcs : CallsFit e head seq cs) :
    CallsFit e' head seq cs := by
  induction cs generalizing seq with
  | nil => trivial
  | cons c cs ih => exact ⟨hcs.1.rest hrest, ih hcs.2⟩

/-- Lists that share no node stay apart. -/
theorem calls_spec [DecidableEq ι] (hf : Family e head seq) {cs : List (Call ι)} (hcs : CallsFit e head seq cs) :
    wp (runCalls head cs) (fun _ e' => Family e' head (applyCalls seq cs) ∧ e'.rest = e.rest) e := by
  induction cs generalizing e seq with
  | nil => exact wp_pure.mpr ⟨hf, rfl⟩
  | cons c cs ih =>
    refine wp.bind (c.run_spec hf hcs.1) fun _ e₁ hpost => ?_
    obtain ⟨hf₁, hrest₁⟩ := hpost
    exact (ih hf₁ (hcs.2.rest hrest₁)).mono fun _ e₂ hpost => ⟨hpost.1, hpost.2.trans hrest₁⟩

/-! ## The links -/

theorem wp_listEmpty {Q : Bool → Entries P → Prop} (hnext : e.next h = some b) : wp (listEmpty h) Q e ↔
    Q (b = h) e := by
  unfold listEmpty
  rw [wp_bind, wp_getNext hnext, wp_pure]

/-- An empty list is left as it is. -/
theorem listReparent_nil {Q : Unit → Entries P → Prop} (hr : e.IsRing h []) : wp (listReparent h n) Q e ↔ Q () e := by
  have hnext : e.next h = some h := (Ring.front hr (show [] ++ [h] = h :: [] from rfl)).1
  unfold listReparent
  rw [wp_bind, wp_listEmpty hnext]
  simp [wp_pure]

/-- The new head comes in between the last node and the first. -/
theorem listReparent_inserted (hnext : e.next h = some b) (hprev : e.prev h = some a) (hbh : b ≠ h) (hna : n ≠ a)
    (hea : (e a).isSome) (heb : (e b).isSome) (hen : (e n).isSome) :
    wp (listReparent h n) (fun _ e' => Inserted e e' a n b) e := by
  have hen₁ : ((e.withNext n b) n).isSome := by simpa using hen
  unfold listReparent
  rw [wp_bind, wp_listEmpty hnext, if_neg (by simpa using hbh), wp_bind, wp_getNext hnext, wp_bind,
    wp_setNext hen, wp_bind,
    wp_getPrev (b := a) (by simpa using hprev), wp_bind, wp_setPrev hen₁, wp_bind,
    wp_getPrev (b := a) (by rw [Entries.withPrev_prev hen₁, if_pos rfl]), wp_bind,
    wp_setNext (by simpa using hea), wp_bind,
    wp_getNext (b := b) ?_, wp_setPrev (by simpa using heb)]
  · refine ⟨fun c => ?_, fun c => ?_, by simp⟩
    · rw [Entries.withPrev_next, Entries.withNext_next (by simpa using hea), Entries.withPrev_next,
        Entries.withNext_next hen]
    · rw [Entries.withPrev_prev (by simpa using heb), Entries.withNext_prev, Entries.withPrev_prev hen₁,
        Entries.withNext_prev]
  · rw [Entries.withNext_next (by simpa using hea), if_neg hna, Entries.withPrev_next,
      Entries.withNext_next hen, if_pos rfl]

/-- The ends of a list that is not empty, which its head points to. -/
theorem ends_of_ring (hr : e.IsRing h xs) (hne : xs ≠ []) :
    ∃ pre a b post, xs = pre ++ [a] ∧ xs = b :: post ∧ e.next h = some b ∧ e.prev h = some a ∧ e.next a = some h ∧
      e.prev b = some h := by
  obtain ⟨b, post, hb⟩ := List.exists_cons_of_ne_nil hne
  obtain ⟨pre, a, ha⟩ : ∃ pre a, xs = pre ++ [a] := ⟨_, _, (List.dropLast_append_getLast hne).symm⟩
  have hfirst := Ring.front hr (show xs ++ [h] = b :: (post ++ [h]) by rw [hb]; rfl)
  have hlast :=
    Ring.between (show e.IsRing h (xs ++ []) by rwa [List.append_nil]) (show h :: xs = h :: pre ++ [a] by rw [ha]; rfl)
    (show [] ++ [h] = h :: [] from rfl)
  exact ⟨pre, a, b, post, ha, hb, hfirst.1, hlast.2, hlast.1, hfirst.2⟩

/-- What `list_reparent` does to lists that share no node, when there is something to move. -/
theorem listReparent_run (hf : Family e head seq) (hij : i ≠ j) (hempty : seq j = []) (hne : seq i ≠ []) :
    ∃ pre a b post, seq i = pre ++ [a] ∧ seq i = b :: post ∧ e.next (head i) = some b ∧ e.prev (head i) = some a ∧
      wp (listReparent (head i) (head j)) (fun _ e' => Inserted e e' a (head j) b) e := by
  obtain ⟨pre, a, b, post, ha, hb, hnext, hprev, hnexta, hprevb⟩ := ends_of_ring (hf.ring i) hne
  have hamem : a ∈ seq i := ha ▸ List.mem_append_right _ (List.mem_singleton_self a)
  have hbmem : b ∈ seq i := hb ▸ List.mem_cons_self ..
  have hbh : b ≠ head i := fun heq => (List.nodup_cons.mp (hf.ring i).nodup).1 (heq ▸ hbmem)
  have hna : head j ≠ a := fun heq => hf.apart i j hij (List.mem_cons_of_mem _ hamem) (heq ▸ List.mem_cons_self ..)
  have hn : e.next (head j) = some (head j) :=
    (Ring.front (hempty ▸ hf.ring j) (show [] ++ [head j] = head j :: [] from rfl)).1
  exact ⟨pre, a, b, post, ha, hb, hnext, hprev, listReparent_inserted hnext hprev hbh hna
    (Entries.isSome_of_next hnexta)
    (Entries.isSome_of_prev hprevb) (Entries.isSome_of_next hn)⟩

/-- The new head has all nodes, in their order; no list besides the two is touched. -/
theorem listReparent_spec (hf : Family e head seq) (hij : i ≠ j) (hempty : seq j = []) :
    wp (listReparent (head i) (head j)) (fun _ e' => e'.IsRing (head j) (seq i) ∧ e'.rest = e.rest ∧
      ∀ k, k ≠ i → k ≠ j → e'.IsRing (head k) (seq k)) e := by
  by_cases hne : seq i = []
  · have hr := hf.ring i
    rw [hne] at hr ⊢
    exact (listReparent_nil hr).mpr ⟨hempty ▸ hf.ring j, rfl, fun k _ _ => hf.ring k⟩
  obtain ⟨pre, a, b, post, ha, hb, -, -, hrun⟩ := listReparent_run hf hij hempty hne
  have hamem : a ∈ seq i := ha ▸ List.mem_append_right _ (List.mem_singleton_self a)
  have hbmem : b ∈ seq i := hb ▸ List.mem_cons_self ..
  have hout : head j ∉ seq i := fun hmem => hf.apart i j hij (List.mem_cons_of_mem _ hmem) (List.mem_cons_self ..)
  have hja : head j ≠ a := fun heq => hout (heq ▸ hamem)
  have hjb : head j ≠ b := fun heq => hout (heq ▸ hbmem)
  refine hrun.mono fun _ e' hi => ⟨?_, hi.rest, fun k hki hkj => ?_⟩
  · refine (hf.ring i).rehead ha hb hout ⟨?_, ?_⟩ ⟨?_, ?_⟩ (fun c hc hca => ?_) fun c hc hcb => ?_
    · rw [hi.next, if_neg hja, if_pos rfl]
    · rw [hi.prev, if_pos rfl]
    · rw [hi.next, if_pos rfl]
    · rw [hi.prev, if_neg hjb, if_pos rfl]
    · rw [hi.next, if_neg hca, if_neg fun heq : c = head j => hout (heq ▸ hc)]
    · rw [hi.prev, if_neg hcb, if_neg fun heq : c = head j => hout (heq ▸ hc)]
  · have hki' := hf.apart i k (Ne.symm hki)
    have hkj' := hf.apart j k (Ne.symm hkj)
    have hca : ∀ c ∈ head k :: seq k, c ≠ a := fun c hc heq => hki' (List.mem_cons_of_mem _ hamem) (heq ▸ hc)
    have hcb : ∀ c ∈ head k :: seq k, c ≠ b := fun c hc heq => hki' (List.mem_cons_of_mem _ hbmem) (heq ▸ hc)
    have hcj : ∀ c ∈ head k :: seq k, c ≠ head j := fun c hc heq => hkj' (List.mem_cons_self ..) (heq ▸ hc)
    refine (hf.ring k).congr (fun c hc => ?_) fun c hc => ?_
    · rw [hi.next, if_neg (hca c hc), if_neg (hcj c hc)]
    · rw [hi.prev, if_neg (hcb c hc), if_neg (hcj c hc)]

/-- The old head still points to the nodes: a node that is put on the old list, at either end,
    is linked to a node of the new one. -/
theorem stale_head (hf : Family e head seq) (hij : i ≠ j) (hempty : seq j = []) (hne : seq i ≠ [])
    (hx : ∀ k, x ∉ head k :: seq k)
    (hex : (e x).isSome) :
    wp (listReparent (head i) (head j) >>= fun _ => listAdd x (head i)) (fun _ e' => ¬ e'.IsRing (head j) (seq i)) e ∧
      wp (listReparent (head i) (head j) >>= fun _ => listAddTail x (head i))
        (fun _ e' => ¬ e'.IsRing (head j) (seq i)) e := by
  obtain ⟨pre, a, b, post, ha, hb, hnext, hprev, hrun⟩ := listReparent_run hf hij hempty hne
  have hamem : a ∈ seq i := ha ▸ List.mem_append_right _ (List.mem_singleton_self a)
  have hbmem : b ∈ seq i := hb ▸ List.mem_cons_self ..
  have hown : head i ∉ seq i := (List.nodup_cons.mp (hf.ring i).nodup).1
  have hia : head i ≠ a := fun heq => hown (heq ▸ hamem)
  have hib : head i ≠ b := fun heq => hown (heq ▸ hbmem)
  have hheads : head i ≠ head j := fun heq => hf.apart i j hij (List.mem_cons_self ..) (heq ▸ List.mem_cons_self ..)
  have hxi : x ≠ head i := fun heq => hx i (heq ▸ List.mem_cons_self ..)
  have hxj : x ≠ head j := fun heq => hx j (heq ▸ List.mem_cons_self ..)
  have hpres : ∀ {e₁ : Entries P} {c : Addr}, e₁.rest = e.rest → c ∈ seq i → (e₁ c).isSome := fun hrest hc =>
    (Entries.isSome_of_rest hrest _).trans (hf.present hc)
  constructor
  · refine wp.bind hrun fun _ e₁ hi => ?_
    have hnext₁ : e₁.next (head i) = some b := by rw [hi.next, if_neg hia, if_neg hheads, hnext]
    refine (listAdd_inserted hnext₁ (hpres hi.rest hbmem) hxi ((Entries.isSome_of_rest hi.rest x).trans hex)).mono
      fun _ e₂ hi₂ hring => ?_
    have hfirst := Ring.front hring (show seq i ++ [head j] = b :: (post ++ [head j]) by rw [hb]; rfl)
    have hback : e₂.prev b = some x := by rw [hi₂.prev, if_pos rfl]
    exact hxj (Option.some.inj (hback.symm.trans hfirst.2))
  · refine wp.bind hrun fun _ e₁ hi => ?_
    have hprev₁ : e₁.prev (head i) = some a := by rw [hi.prev, if_neg hib, if_neg hheads, hprev]
    refine (listAddTail_inserted (hpres hi.rest hamem) hprev₁ hxi ((Entries.isSome_of_rest hi.rest x).trans hex)).mono
      fun _ e₂ hi₂ hring => ?_
    have hlast := Ring.between (show e₂.IsRing (head j) (seq i ++ []) by rwa [List.append_nil])
      (show head j :: seq i = head j :: pre ++ [a] by rw [ha]; rfl) (show [] ++ [head j] = head j :: [] from rfl)
    have hforth : e₂.next a = some x := by rw [hi₂.next, if_pos rfl]
    exact hxj (Option.some.inj (hforth.symm.trans hlast.1))

/-! ## The move -/

/-- The lists when the nodes of list `i` are on list `j`. -/
def moved [DecidableEq ι] (seq : ι → List Addr) (i j : ι) : ι → List Addr :=
    Function.update (Function.update seq i []) j (seq i)

/-- The nodes of list `i` are on list `j`, list `i` is empty, and later calls on the lists do
    not disturb each other. -/
structure Moves [DecidableEq ι] (head : ι → Addr) (seq : ι → List Addr) (i j : ι) (e : Entries P) : Prop where
  nodes : e.IsRing (head j) (seq i)
  rest : e.IsRing (head i) []
  empty : wp (listEmpty (head i)) (fun b _ => b = true) e
  later : ∀ cs, CallsFit e head (moved seq i j) cs →
    wp (runCalls head cs) (fun _ e' => Family e' head (applyCalls (moved seq i j) cs)) e

/-- The new head has the nodes in every case; the old list is empty, and the two are apart, exactly
    where there was nothing to move. -/
theorem list_reparent_iff [DecidableEq ι] (hf : Family e head seq) (hij : i ≠ j) (hempty : seq j = []) :
    (wp (listReparent (head i) (head j)) (fun _ e' => Moves head seq i j e') e ↔ seq i = []) ∧
      wp (listReparent (head i) (head j)) (fun _ e' => e'.IsRing (head j) (seq i)) e := by
  refine ⟨⟨fun hmoves => ?_, fun hnil => ?_⟩, (listReparent_spec hf hij hempty).mono fun _ _ hpost => hpost.1⟩
  · by_contra hne
    obtain ⟨pre, a, b, post, ha, hb, hnext, -, hrun⟩ := listReparent_run hf hij hempty hne
    obtain ⟨⟨_, e'⟩, hres, hm⟩ := hmoves
    have hi := hrun.liberal _ _ hres
    have hown : head i ∉ seq i := (List.nodup_cons.mp (hf.ring i).nodup).1
    have hia : head i ≠ a := fun heq => hown (heq ▸ ha ▸ List.mem_append_right _ (List.mem_singleton_self a))
    have hheads : head i ≠ head j := fun heq => hf.apart i j hij (List.mem_cons_self ..) (heq ▸ List.mem_cons_self ..)
    have hstale : e'.next (head i) = some b := by rw [hi.next, if_neg hia, if_neg hheads, hnext]
    have hown' : e'.next (head i) = some (head i) :=
      (Ring.front hm.rest (show [] ++ [head i] = head i :: [] from rfl)).1
    exact hown (Option.some.inj (hown'.symm.trans hstale) ▸ hb ▸ List.mem_cons_self ..)
  · have hr := hnil ▸ hf.ring i
    have hsame : moved seq i j = seq := by
      have hi : Function.update seq i [] = seq :=
        (congrArg (Function.update seq i) hnil.symm).trans (Function.update_eq_self i seq)
      have hj : Function.update seq j [] = seq :=
        (congrArg (Function.update seq j) hempty.symm).trans (Function.update_eq_self j seq)
      unfold moved
      rw [hi, hnil, hj]
    refine (listReparent_nil hr).mpr ⟨?_, hr, ?_, fun cs hcs => ?_⟩
    · rw [hnil, ← hempty]
      exact hf.ring j
    · exact (wp_listEmpty (Ring.front hr (show [] ++ [head i] = head i :: [] from rfl)).1).mpr (by simp)
    · rw [hsame] at hcs ⊢
      exact (calls_spec hf hcs).mono fun _ _ hpost => hpost.1

/-- Two heads, at 1 and 2, without nodes. -/
def twoHeads : Entries Unit := fun a => if a = 1 ∨ a = 2 then some ⟨a, a, ()⟩ else none

theorem twoHeads_family : Family twoHeads (fun j : Bool => if j then 2 else 1) fun _ => [] := by
  refine ⟨fun j => ?_, fun i j hij => ?_⟩
  · cases j with
    | false => exact ⟨by decide, by simp [Lib.Joined, Entries.next, Entries.prev, twoHeads]⟩
    | true => exact ⟨by decide, by simp [Lib.Joined, Entries.next, Entries.prev, twoHeads]⟩
  · cases i <;> cases j <;> simp_all

/-- What was empty is moved; of a list of two nodes the new head has the nodes, and the old one is not given up. -/
theorem list_reparent_iff_twoLists :
    wp (listReparent 1 2) (fun _ e' => Moves (fun j : Bool => if j then 2 else 1)
      (fun _ => []) false true e') twoHeads ∧
      ¬ wp (listReparent 1 2) (fun _ e' =>
        Moves (fun j : Bool => if j then 2 else 1) (fun j => if j then [] else [3, 4]) false true e') twoLists ∧
      wp (listReparent 1 2) (fun _ e' => e'.IsRing 2 [3, 4]) twoLists := by
  obtain ⟨hiff, hnew⟩ := list_reparent_iff twoLists_family Bool.false_ne_true rfl
  have hmoved := list_reparent_iff twoHeads_family Bool.false_ne_true rfl
  exact ⟨hmoved.1.mpr rfl, fun h => absurd (hiff.mp h) (List.cons_ne_nil 3 [4]), hnew⟩

/-- Behind the call the old list, at 1, is not empty. A free node 5 that is put on it comes between
    the head at 2 and its first node. -/
theorem reparent_leaves_links :
    Family twoLists (fun j : Bool => if j then 2 else 1) (fun j => if j then [] else [3, 4]) ∧
    ((listReparent 1 2 >>= fun _ => listEmpty 1) twoLists).map Prod.fst = some false ∧
    ((listReparent 1 2 >>= fun _ => listAdd 5 1 >>= fun _ => getPrev 3)
      (twoLists.put 5 (some ⟨5, 5, ()⟩))).map Prod.fst = some 5 :=
  ⟨twoLists_family, rfl, rfl⟩

end KanekFoundations.Links

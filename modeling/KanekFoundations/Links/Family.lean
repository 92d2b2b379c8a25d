/-
  KanekFoundations.Links.Family — several lists in one memory.

  `Family e head seq`: for every index `i` the list at `head i` runs through the nodes `seq i`,
  and no node or head is in two lists. The index type is any type, so a finite number of
  lists is a case.

  Proved, for every family:
  - `lists_apart`: `list_add`, `list_add_tail` and `list_del` keep the family and change the
    one sequence they are applied to; the loop that moves the nodes of one list to the ends of
    others visits each of them once, in order, and leaves the list empty.
-/

import KanekFoundations.Links.Links

namespace KanekFoundations.Links

open KanekFoundations.Lib

variable {P ι : Type} {e e' : Entries P} {head : ι → Addr} {seq : ι → List Addr} {a x b : Addr}
    {ys zs : List Addr} {i : ι}

structure Family (e : Entries P) (head : ι → Addr) (seq : ι → List Addr) : Prop where
  ring : ∀ i, e.IsRing (head i) (seq i)
  apart : ∀ i j, i ≠ j → (head i :: seq i).Disjoint (head j :: seq j)

/-- The body of the loop in `dict_rehash`: off its list, and to the end of the list that `dst`
    names. It also notes what it moved. -/
def moveTo (head : ι → Addr) (dst : List (Addr × ι) → Addr → Entries P → ι) (visited : List (Addr × ι)) (pos : Addr) :
    M P (List (Addr × ι)) := do
  let e ← get
  let j := dst visited pos e
  listDel pos
  listAddTail pos (head j)
  pure (visited ++ [(pos, j)])

/-- What was moved to list `j`, in order. -/
def movedTo [DecidableEq ι] (visited : List (Addr × ι)) (j : ι) : List Addr :=
    (visited.filter fun v => v.2 = j).map Prod.fst

/-! ## One list changes -/

/-- A change of the links around one list leaves the others as they are. -/
theorem Family.update [DecidableEq ι] (hf : Family e head seq) {xs : List Addr} (hr : e'.IsRing (head i) xs)
    (hsame : ∀ j, j ≠ i → ∀ c ∈ head j :: seq j, e'.next c = e.next c ∧ e'.prev c = e.prev c)
    (hmem : ∀ c ∈ xs, c ∈ seq i ∨ ∀ j, c ∉ head j :: seq j) : Family e' head (Function.update seq i xs) := by
  have hout : ∀ j, j ≠ i → (head i :: xs).Disjoint (head j :: seq j) := by
    intro j hj c hc hc'
    rcases List.mem_cons.mp hc with rfl | hc
    · exact hf.apart i j (Ne.symm hj) (List.mem_cons_self ..) hc'
    · rcases hmem c hc with hc | hc
      · exact hf.apart i j (Ne.symm hj) (List.mem_cons_of_mem _ hc) hc'
      · exact hc j hc'
  refine ⟨fun j => ?_, fun j k hjk => ?_⟩
  · by_cases hj : j = i
    · subst hj
      rw [Function.update_self]
      exact hr
    · rw [Function.update_of_ne hj]
      exact (hf.ring j).congr (fun c hc => (hsame j hj c hc).1) fun c hc => (hsame j hj c hc).2
  · by_cases hj : j = i
    · subst hj
      rw [Function.update_self, Function.update_of_ne (Ne.symm hjk)]
      exact hout k (Ne.symm hjk)
    · rw [Function.update_of_ne hj]
      by_cases hk : k = i
      · subst hk
        rw [Function.update_self]
        exact (hout j hj).symm
      · rw [Function.update_of_ne hk]
        exact hf.apart j k hjk

/-- Where a list is cut in two, the neighbours are its own. -/
theorem Family.neighbours (hf : Family e head seq) {h : Addr} {pre post : List Addr} (hh : h = head i)
    (hys : ∀ c ∈ ys, c ∈ seq i) (hzs : ∀ c ∈ zs, c ∈ seq i) (ha : h :: ys = pre ++ [a]) (hb : zs ++ [h] = b :: post) :
    ∀ j, j ≠ i → a ∉ head j :: seq j ∧ b ∉ head j :: seq j := by
  subst hh
  have hmema : a ∈ head i :: ys := ha ▸ List.mem_append_right _ (List.mem_singleton_self a)
  have hmemb : b ∈ zs ++ [head i] := hb ▸ List.mem_cons_self ..
  have hina : a ∈ head i :: seq i := by
    rcases List.mem_cons.mp hmema with rfl | hmem
    · exact List.mem_cons_self ..
    · exact List.mem_cons_of_mem _ (hys a hmem)
  have hinb : b ∈ head i :: seq i := by
    rcases List.mem_append.mp hmemb with hmem | hmem
    · exact List.mem_cons_of_mem _ (hzs b hmem)
    · exact List.mem_singleton.mp hmem ▸ List.mem_cons_self ..
  intro j hj
  have hdisj := hf.apart i j (Ne.symm hj)
  exact ⟨fun hmem => hdisj hina hmem, fun hmem => hdisj hinb hmem⟩

theorem Family.insert [DecidableEq ι] (hf : Family e head seq) (hseq : seq i = ys ++ zs) {pre post : List Addr}
    (ha : head i :: ys = pre ++ [a]) (hb : zs ++ [head i] = b :: post) (hx : ∀ j, x ∉ head j :: seq j)
    (hi : Inserted e e' a x b) : Family e' head (Function.update seq i (ys ++ x :: zs)) := by
  have hnear := hf.neighbours rfl (fun c hc => hseq ▸ List.mem_append_left zs hc)
    (fun c hc => hseq ▸ List.mem_append_right ys hc) ha hb
  refine hf.update (hi.ring (hseq ▸ hf.ring i) ha hb (hseq ▸ hx i)) (fun j hj c hc => ?_) fun c hc => ?_
  · have hca : c ≠ a := fun heq => (hnear j hj).1 (heq ▸ hc)
    have hcb : c ≠ b := fun heq => (hnear j hj).2 (heq ▸ hc)
    have hcx : c ≠ x := fun heq => hx j (heq ▸ hc)
    exact ⟨by rw [hi.next, if_neg hca, if_neg hcx], by rw [hi.prev, if_neg hcb, if_neg hcx]⟩
  · rw [List.mem_append, List.mem_cons] at hc
    rcases hc with hc | rfl | hc
    · exact .inl (hseq ▸ List.mem_append_left zs hc)
    · exact .inr hx
    · exact .inl (hseq ▸ List.mem_append_right ys hc)

theorem Family.remove [DecidableEq ι] (hf : Family e head seq) (hseq : seq i = ys ++ x :: zs) {pre post : List Addr}
    (ha : head i :: ys = pre ++ [a]) (hb : zs ++ [head i] = b :: post) (hd : Removed e e' a b) :
    Family e' head (Function.update seq i (ys ++ zs)) := by
  have hnear := hf.neighbours rfl (fun c hc => hseq ▸ List.mem_append_left (x :: zs) hc)
    (fun c hc => hseq ▸ List.mem_append_right ys (List.mem_cons_of_mem x hc)) ha hb
  refine hf.update (hd.ring (hseq ▸ hf.ring i) ha hb) (fun j hj c hc => ?_) fun c hc => .inl ?_
  · have hca : c ≠ a := fun heq => (hnear j hj).1 (heq ▸ hc)
    have hcb : c ≠ b := fun heq => (hnear j hj).2 (heq ▸ hc)
    exact ⟨by rw [hd.next, if_neg hca], by rw [hd.prev, if_neg hcb]⟩
  · rw [hseq]
    exact (List.Sublist.append_left (List.sublist_cons_self x zs) ys).subset hc

/-! ## The functions -/

theorem listAdd_family [DecidableEq ι] (hf : Family e head seq) (i : ι) (hx : ∀ j, x ∉ head j :: seq j)
    (hex : (e x).isSome) :
    wp (listAdd x (head i)) (fun _ e' => Family e' head (Function.update seq i (x :: seq i)) ∧ e'.rest = e.rest) e := by
  obtain ⟨y, post, hy, hnext, hprev, -⟩ := first_of_ring (hf.ring i)
  have hxh : x ≠ head i := fun heq => hx i (heq ▸ List.mem_cons_self ..)
  refine (listAdd_inserted hnext (Entries.isSome_of_prev hprev) hxh hex).mono fun _ e' hi => ⟨?_, hi.rest⟩
  exact hf.insert (show seq i = [] ++ seq i from rfl) (show [head i] = [] ++ [head i] from rfl) hy hx hi

theorem listAddTail_family [DecidableEq ι] (hf : Family e head seq) (i : ι) (hx : ∀ j, x ∉ head j :: seq j)
    (hex : (e x).isSome) :
    wp (listAddTail x (head i)) (fun _ e' => Family e' head (Function.update seq i (seq i ++ [x])) ∧
      e'.rest = e.rest) e := by
  obtain ⟨pre, y, hy, hnext, hprev, -⟩ := last_of_ring (hf.ring i)
  have hxh : x ≠ head i := fun heq => hx i (heq ▸ List.mem_cons_self ..)
  refine (listAddTail_inserted (Entries.isSome_of_next hnext) hprev hxh hex).mono fun _ e' hi => ⟨?_, hi.rest⟩
  exact hf.insert (show seq i = seq i ++ [] from (List.append_nil _).symm) hy
    (show [] ++ [head i] = head i :: [] from rfl) hx hi

theorem listDel_family [DecidableEq ι] (hf : Family e head seq) (hseq : seq i = ys ++ x :: zs) :
    wp (listDel x) (fun _ e' => Family e' head (Function.update seq i (ys ++ zs)) ∧ e'.rest = e.rest) e := by
  have hr := hseq ▸ hf.ring i
  obtain ⟨pre, a, ha⟩ := exists_before (head i) ys
  obtain ⟨b, post, hb⟩ := exists_behind zs (head i)
  obtain ⟨hax, hxb⟩ := hr.around ha hb
  refine (listDel_removed hax hxb (ne_behind hr hb)).mono fun _ e' hd => ⟨?_, hd.rest⟩
  exact hf.remove hseq ha hb hd

theorem listDel_erase [DecidableEq ι] (hf : Family e head seq) (hx : x ∈ seq i) :
    wp (listDel x) (fun _ e' => Family e' head (Function.update seq i ((seq i).erase x)) ∧ e'.rest = e.rest) e := by
  obtain ⟨ys, zs, hseq⟩ := List.append_of_mem hx
  have hfresh : x ∉ ys := by
    have hnodup := (List.nodup_cons.mp (hseq ▸ (hf.ring i).nodup)).2
    exact fun hmem => (List.nodup_append.mp hnodup).2.2 x hmem x (List.mem_cons_self ..) rfl
  have herase : (seq i).erase x = ys ++ zs := by
    rw [hseq, List.erase_append_right _ hfresh, List.erase_cons_head]
  rw [herase]
  exact listDel_family hf hseq

/-! ## The moving loop -/

theorem Family.present (hf : Family e head seq) (hx : x ∈ seq i) : (e x).isSome := by
  obtain ⟨ys, zs, hseq⟩ := List.append_of_mem hx
  obtain ⟨pre, a, ha⟩ := exists_before (head i) ys
  obtain ⟨b, post, hb⟩ := exists_behind zs (head i)
  exact Entries.isSome_of_prev ((hseq ▸ hf.ring i).around ha hb).1.2

@[simp] theorem movedTo_append [DecidableEq ι] (visited : List (Addr × ι)) (pos : Addr) (i j : ι) :
    movedTo (visited ++ [(pos, i)]) j = movedTo visited j ++ if i = j then [pos] else [] := by
  unfold movedTo
  by_cases hij : i = j
  · simp [hij]
  · simp [hij]

/-- One round: the first node of list `i` goes to the end of another. -/
theorem moveTo_spec [DecidableEq ι] (hf : Family e head seq) {pos : Addr} {left : List Addr}
    (hseq : seq i = pos :: left)
    {dst : List (Addr × ι) → Addr → Entries P → ι} {visited : List (Addr × ι)} (hdst : dst visited pos e ≠ i) :
    wp (moveTo head dst visited pos) (fun visited' e' => ∃ j, j ≠ i ∧ visited' = visited ++ [(pos, j)] ∧
      Family e' head (Function.update (Function.update seq i left) j (seq j ++ [pos])) ∧ e'.rest = e.rest) e := by
  unfold moveTo
  rw [wp_bind, wp_run (show (get : M P (Entries P)) e = some (e, e) from rfl)]
  have hpos : pos ∈ seq i := hseq ▸ List.mem_cons_self ..
  refine wp.bind (listDel_family hf (show seq i = [] ++ pos :: left from hseq)) fun _ e₁ h₁ => ?_
  obtain ⟨hf₁, hrest₁⟩ := h₁
  have hpres : (e₁ pos).isSome := (Entries.isSome_of_rest hrest₁ pos).trans (hf.present hpos)
  have hout : ∀ j, pos ∉ head j :: Function.update seq i left j := by
    intro j hmem
    by_cases hj : j = i
    · subst hj
      rw [Function.update_self] at hmem
      have hnodup := hseq ▸ (hf.ring j).nodup
      simp only [List.nodup_cons, List.mem_cons, not_or] at hnodup hmem
      tauto
    · rw [Function.update_of_ne hj] at hmem
      exact hf.apart i j (Ne.symm hj) (List.mem_cons_of_mem _ hpos) hmem
  refine wp.bind (listAddTail_family hf₁ (dst visited pos e) hout hpres) fun _ e₂ h₂ => wp_pure.mpr ?_
  obtain ⟨hf₂, hrest₂⟩ := h₂
  rw [List.nil_append, Function.update_of_ne hdst] at hf₂
  exact ⟨_, hdst, rfl, hf₂, hrest₂.trans hrest₁⟩

/-- The lists while the nodes `left` of list `i` are still to be moved. -/
def spread [DecidableEq ι] (seq : ι → List Addr) (i : ι) (left : List Addr) (visited : List (Addr × ι))
    (j : ι) : List Addr :=
  if j = i then left else seq j ++ movedTo visited j

theorem spread_move [DecidableEq ι] {pos : Addr} {left : List Addr} {visited : List (Addr × ι)} {j : ι} (hj : j ≠ i) :
    Function.update (Function.update (spread seq i (pos :: left) visited) i left) j
      (spread seq i (pos :: left) visited j ++ [pos]) =
      spread seq i left (visited ++ [(pos, j)]) := by
  funext k
  by_cases hk : k = j
  · subst hk
    simp [spread, hj]
  · by_cases hki : k = i
    · subst hki
      simp [spread, hk]
    · simp [spread, hk, hki, Ne.symm hk]

theorem moveLoop_spec [DecidableEq ι] (hf : Family e head seq) (i : ι) {dst : List (Addr × ι) → Addr → Entries P → ι}
    (hdst : ∀ visited pos e, dst visited pos e ≠ i) {k : Nat} (hk : (seq i).length < k) :
    wp (forEachSafe getNext (moveTo head dst) (head i) k []) (fun visited e' => visited.map Prod.fst = seq i ∧
      Family e' head (spread seq i [] visited) ∧ e'.rest = e.rest) e := by
  have hlink : ∀ {e' : Entries P} {y z : Addr}, e'.next y = some z → getNext y e' = some (z, e') := by
    intro e' y z hz
    simp [getNext, hz]
  have hstart : spread seq i (seq i) [] = seq := by
    funext j
    by_cases hj : j = i
    · subst hj
      simp [spread]
    · simp [spread, hj, movedTo]
  refine (forEachSafe_rule (fun visited left e' => visited.map Prod.fst ++ left = seq i ∧
    Family e' head (spread seq i left visited) ∧ e'.rest = e.rest) ?_ ?_ hk ⟨rfl, hstart.symm ▸ hf, rfl⟩ ?_).mono
    fun visited e' h => ⟨by simpa using h.1, h.2⟩
  · intro visited left e' y post hI hy
    have hr : e'.IsRing (head i) ([] ++ left) := by
      have hr := hI.2.1.ring i
      rwa [spread, if_pos rfl] at hr
    obtain ⟨z, hz, hnext⟩ := link_of_ring hr hy
    exact ⟨z, hlink hz, hnext⟩
  · intro visited pos left e' hI
    obtain ⟨hvisited, hf', hrest⟩ := hI
    have hseq : spread seq i (pos :: left) visited i = pos :: left := if_pos rfl
    refine ⟨fun heq => ?_, (moveTo_spec hf' hseq (hdst visited pos e')).mono fun visited' e'' h => ?_⟩
    · exact (List.nodup_cons.mp (hf'.ring i).nodup).1 (by rw [hseq, heq]; exact List.mem_cons_self ..)
    · obtain ⟨j, hj, rfl, hf'', hrest'⟩ := h
      rw [spread_move hj] at hf''
      exact ⟨by simpa using hvisited, hf'', hrest'.trans hrest⟩
  · intro y post hy
    obtain ⟨y', post', hy', hnext, -⟩ := first_of_ring (hf.ring i)
    obtain ⟨rfl, rfl⟩ := List.cons.inj (hy.symm.trans hy')
    exact hlink hnext

/-- Lists that share no node, in one memory: a node put at the front or the back of one of them
    or taken off it, and the loop that moves the nodes of one list to others, change the
    sequences that they name and no other. -/
theorem lists_apart [DecidableEq ι] (hf : Family e head seq) (i : ι) :
    (∀ x, (∀ j, x ∉ head j :: seq j) → (e x).isSome →
      wp (listAdd x (head i)) (fun _ e' => Family e' head (Function.update seq i (x :: seq i)) ∧ e'.rest = e.rest) e ∧
      wp (listAddTail x (head i)) (fun _ e' => Family e' head (Function.update seq i (seq i ++ [x])) ∧
        e'.rest = e.rest) e) ∧
    (∀ x ∈ seq i, wp (listDel x) (fun _ e' => Family e' head (Function.update seq i ((seq i).erase x)) ∧
      e'.rest = e.rest) e) ∧
    ∀ dst : List (Addr × ι) → Addr → Entries P → ι, (∀ visited pos e, dst visited pos e ≠ i) → ∀ k, (seq i).length < k →
      wp (forEachSafe getNext (moveTo head dst) (head i) k []) (fun visited e' => visited.map Prod.fst = seq i ∧
        Family e' head (fun j => if j = i then [] else seq j ++ movedTo visited j) ∧ e'.rest = e.rest) e := by
  refine ⟨fun x hx hex => ?_, fun x hx => listDel_erase hf hx, fun dst hdst k hk => moveLoop_spec hf i hdst hk⟩
  exact ⟨listAdd_family hf i hx hex, listAddTail_family hf i hx hex⟩

/-- Two heads at 1 and 2, and the nodes 3 and 4 on the list of the first. -/
def twoLists : Entries Unit
  | 1 => some ⟨3, 4, ()⟩
  | 2 => some ⟨2, 2, ()⟩
  | 3 => some ⟨4, 1, ()⟩
  | 4 => some ⟨1, 3, ()⟩
  | _ => none

theorem twoLists_family : Family twoLists (fun j : Bool => if j then 2 else 1) fun j => if j then [] else [3, 4] := by
  refine ⟨fun j => ?_, fun j k hjk => ?_⟩
  · cases j with
    | false => exact ⟨by decide, by simp [Lib.Joined, Entries.next, Entries.prev, twoLists]⟩
    | true => exact ⟨by decide, by simp [Lib.Joined, Entries.next, Entries.prev, twoLists]⟩
  · cases j with
    | false =>
      cases k with
      | false => exact absurd rfl hjk
      | true => simp
    | true =>
      cases k with
      | false => simp
      | true => exact absurd rfl hjk

theorem lists_apart_twoLists :
    ∃ visited e', forEachSafe getNext (moveTo (fun j : Bool => if j then 2 else 1) fun _ _ _ => true) 1 3 [] twoLists =
      some (visited, e') ∧ visited.map Prod.fst = [3, 4] ∧ e'.IsRing 1 [] ∧ e'.IsRing 2 [3, 4] := by
  obtain ⟨⟨visited, e'⟩, hrun, hvisited, hf', -⟩ :=
    (lists_apart twoLists_family false).2.2 (fun _ _ _ => true) (by simp) 3 (by decide)
  refine ⟨visited, e', hrun, hvisited, hf'.ring false, ?_⟩
  have hmoved : movedTo visited true = [3, 4] := by
    cases hrun
    decide
  simpa [hmoved] using hf'.ring true

end KanekFoundations.Links

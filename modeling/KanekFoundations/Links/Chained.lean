/-
  KanekFoundations.Links.Chained — lists whose nodes hold the entries of sequences.

  `Chained n head seq chain`: the lists of a family in memory `n`, where list `i` runs
  through the nodes `seq i` and these hold the entries `chain i`, in order; a head holds
  nothing. `Occupied` is every address of the family. What a change of one list leaves is
  said at every address: an address that is not the family's is as it was.
-/

import KanekFoundations.Links.Family

namespace KanekFoundations.Links

open KanekFoundations.Lib

section
variable {P : Type} {e e' : Entries P} {a b c x : Addr}

/-- An entry is untouched where neither of its links is. -/
theorem Inserted.same (hi : Inserted e e' a x b) (ha : c ≠ a) (hx : c ≠ x) (hb : c ≠ b) : e' c = e c := by
  refine Entries.ext_at ?_ ?_ (congrFun hi.rest c)
  · rw [hi.next, if_neg ha, if_neg hx]
  · rw [hi.prev, if_neg hb, if_neg hx]

theorem Removed.same (hd : Removed e e' a b) (ha : c ≠ a) (hb : c ≠ b) : e' c = e c := by
  refine Entries.ext_at ?_ ?_ (congrFun hd.rest c)
  · rw [hd.next, if_neg ha]
  · rw [hd.prev, if_neg hb]

end

variable {E ι κ : Type} {n n' : Entries (Option E)} {head : ι → Addr} {seq seq' : ι → List Addr}
    {chain chain' : ι → List E}
  {head₂ : κ → Addr} {seq₂ : κ → List Addr} {chain₂ : κ → List E} {i : ι} {x y c : Addr} {ys zs : List Addr} {en : E}
  {cs ds : List E}

structure Chained (n : Entries (Option E)) (head : ι → Addr) (seq : ι → List Addr) (chain : ι → List E) : Prop where
  family : Family n head seq
  entries : ∀ i, (seq i).map n.rest = (chain i).map fun e => some (some e)
  heads : ∀ i, n.rest (head i) = some none

def Occupied (head : ι → Addr) (seq : ι → List Addr) (c : Addr) : Prop := ∃ i, c ∈ head i :: seq i

/-! ## Addresses -/

theorem occupied_iff : Occupied head seq c ↔ (∃ i, c = head i) ∨ ∃ i, c ∈ seq i := by
  unfold Occupied
  simp only [List.mem_cons, exists_or]

theorem occupied_node (hc : c ∈ seq i) : Occupied head seq c := ⟨i, List.mem_cons_of_mem _ hc⟩

/-- One list gets one more node. -/
theorem occupied_more [DecidableEq ι] (hseq : seq i = ys ++ zs) :
    Occupied head (Function.update seq i (ys ++ x :: zs)) c ↔ Occupied head seq c ∨ c = x := by
  rw [occupied_iff, occupied_iff, or_assoc]
  refine or_congr_right ⟨fun hmem => ?_, fun hmem => ?_⟩
  · obtain ⟨j, hj⟩ := hmem
    by_cases hji : j = i
    · subst hji
      rw [Function.update_self, List.mem_append, List.mem_cons] at hj
      rcases hj with hj | rfl | hj
      · exact .inl ⟨j, hseq ▸ List.mem_append_left _ hj⟩
      · exact .inr rfl
      · exact .inl ⟨j, hseq ▸ List.mem_append_right _ hj⟩
    · rw [Function.update_of_ne hji] at hj
      exact .inl ⟨j, hj⟩
  · rcases hmem with hmem | rfl
    · obtain ⟨j, hj⟩ := hmem
      refine ⟨j, ?_⟩
      by_cases hji : j = i
      · subst hji
        rw [Function.update_self, List.mem_append, List.mem_cons]
        rw [hseq, List.mem_append] at hj
        tauto
      · rwa [Function.update_of_ne hji]
    · exact ⟨i, by rw [Function.update_self]; simp⟩

/-- One list loses a node. -/
theorem occupied_less [DecidableEq ι] (hseq : seq i = ys ++ y :: zs) :
    Occupied head seq c ↔ Occupied head (Function.update seq i (ys ++ zs)) c ∨ c = y := by
  have hback : seq = Function.update (Function.update seq i (ys ++ zs)) i (ys ++ y :: zs) := by
    rw [Function.update_idem, ← hseq, Function.update_eq_self]
  conv_lhs => rw [hback]
  exact occupied_more (Function.update_self ..)

/-! ## What is in the nodes -/

theorem Chained.not_head (hc : Chained n head seq chain) (hy : y ∈ seq i) (j : ι) : y ≠ head j := by
  intro heq
  subst heq
  by_cases hij : i = j
  · subst hij
    exact (List.nodup_cons.mp (hc.family.ring i).nodup).1 hy
  · exact hc.family.apart i j hij (List.mem_cons_of_mem _ hy) (List.mem_cons_self ..)

theorem Chained.length (hc : Chained n head seq chain) (i : ι) : (seq i).length = (chain i).length := by
  simpa using congrArg List.length (hc.entries i)

/-- A node of a list, and its entry. -/
theorem Chained.entry (hc : Chained n head seq chain) (hseq : seq i = ys ++ y :: zs) :
    ∃ cs e ds, chain i = cs ++ e :: ds ∧ ys.length = cs.length ∧ n.rest y = some (some e) := by
  have hmap := hc.entries i
  rw [hseq, List.map_append, List.map_cons] at hmap
  obtain ⟨cs, rest, hchain, hcs, hrest⟩ := List.map_eq_append_iff.mp hmap.symm
  obtain ⟨e, ds, rfl, he, -⟩ := List.map_eq_cons_iff.mp hrest
  exact ⟨cs, e, ds, hchain, by simpa using (congrArg List.length hcs).symm, he.symm⟩

theorem Chained.entry_at (hc : Chained n head seq chain) (hseq : seq i = ys ++ y :: zs)
    (hchain : chain i = cs ++ en :: ds)
    (hlen : ys.length = cs.length) : ys.map n.rest = cs.map (fun e => some (some e)) ∧ n.rest y = some (some en) ∧
      zs.map n.rest = ds.map fun e => some (some e) := by
  have hmap := hc.entries i
  rw [hseq, hchain, List.map_append, List.map_append, List.map_cons, List.map_cons] at hmap
  obtain ⟨hcs, hrest⟩ := List.append_inj hmap (by simpa using hlen)
  obtain ⟨he, hds⟩ := List.cons.inj hrest
  exact ⟨hcs, he, hds⟩

theorem Chained.present (hc : Chained n head seq chain) (ho : Occupied head seq c) : (n c).isSome := by
  rcases occupied_iff.mp ho with ⟨i, rfl⟩ | ⟨i, hi⟩
  · rw [← Entries.isSome_rest, hc.heads i]
    rfl
  · exact hc.family.present hi

/-- The lists where the links have changed and what is behind them has not. -/
theorem Chained.of_family (hc : Chained n head seq chain) (hf : Family n' head seq') (hrest : n'.rest = n.rest)
    (hentries : ∀ i, (seq' i).map n.rest = (chain' i).map fun e => some (some e)) : Chained n' head seq' chain' :=
  ⟨hf, fun i => by rw [hrest]; exact hentries i, fun i => by rw [hrest]; exact hc.heads i⟩

/-! ## One list changes -/

/-- A node of its own, at the end of list `i`. -/
theorem Chained.addTail [DecidableEq ι] (hc : Chained n head seq chain) (i : ι) (hx : ¬ Occupied head seq x)
    (he : n.rest x = some (some en)) :
    wp (listAddTail x (head i)) (fun _ n' => Chained n' head (Function.update seq i (seq i ++ [x]))
      (Function.update chain i (chain i ++ [en])) ∧ n'.rest = n.rest ∧ ∀ c, ¬ Occupied head seq c → c ≠ x →
      n' c = n c) n := by
  have hout : ∀ j, x ∉ head j :: seq j := fun j hmem => hx ⟨j, hmem⟩
  have hex : (n x).isSome := by
    rw [← Entries.isSome_rest, he]
    rfl
  obtain ⟨pre, y, hy, hnext, hprev, hmem⟩ := last_of_ring (hc.family.ring i)
  have hxh : x ≠ head i := fun heq => hout i (heq ▸ List.mem_cons_self ..)
  refine (listAddTail_inserted (Entries.isSome_of_next hnext) hprev hxh hex).mono fun _ n' hi =>
    ⟨?_, hi.rest, fun c ho hcx => ?_⟩
  · refine hc.of_family (hc.family.insert (List.append_nil _).symm hy rfl hout hi) hi.rest fun j => ?_
    by_cases hj : j = i
    · subst hj
      rw [Function.update_self, Function.update_self, List.map_append, List.map_append, hc.entries j]
      simp [he]
    · rw [Function.update_of_ne hj, Function.update_of_ne hj]
      exact hc.entries j
  · exact hi.same (fun heq => ho ⟨i, heq ▸ hmem⟩) hcx fun heq => ho ⟨i, heq ▸ List.mem_cons_self ..⟩

/-- A node taken out of list `i`. -/
theorem Chained.unlink [DecidableEq ι] (hc : Chained n head seq chain) (hseq : seq i = ys ++ y :: zs)
    (hchain : chain i = cs ++ en :: ds) (hlen : ys.length = cs.length) :
    wp (listDel y) (fun _ n' => Chained n' head (Function.update seq i (ys ++ zs))
      (Function.update chain i (cs ++ ds)) ∧
      n'.rest = n.rest ∧ ∀ c, ¬ Occupied head seq c → n' c = n c) n := by
  obtain ⟨pre, a, ha⟩ := exists_before (head i) ys
  obtain ⟨b, post, hb⟩ := exists_behind zs (head i)
  have hring := hseq ▸ hc.family.ring i
  obtain ⟨hax, hxb⟩ := hring.around ha hb
  refine (listDel_removed hax hxb (ne_behind hring hb)).mono fun _ n' hd => ⟨?_, hd.rest, fun c ho => ?_⟩
  · refine hc.of_family (hc.family.remove hseq ha hb hd) hd.rest fun j => ?_
    by_cases hj : j = i
    · subst hj
      obtain ⟨hcs, -, hds⟩ := hc.entry_at hseq hchain hlen
      rw [Function.update_self, Function.update_self, List.map_append, List.map_append, hcs, hds]
    · rw [Function.update_of_ne hj, Function.update_of_ne hj]
      exact hc.entries j
  · have hamem : a ∈ head i :: ys := ha ▸ List.mem_append_right _ (List.mem_singleton_self a)
    have hbmem : b ∈ zs ++ [head i] := hb ▸ List.mem_cons_self ..
    have hown : ∀ d, d ∈ head i :: ys ∨ d ∈ zs ++ [head i] → Occupied head seq d := by
      intro d hd
      refine ⟨i, ?_⟩
      rw [hseq]
      simp at hd ⊢
      tauto
    exact hd.same (fun heq => ho (heq ▸ hown a (.inl hamem))) fun heq => ho (heq ▸ hown b (.inr hbmem))

/-- Lists see what is at their own addresses only. -/
theorem Chained.congr (hc : Chained n head seq chain) (hsame : ∀ c, Occupied head seq c → n' c = n c) :
    Chained n' head seq chain := by
  refine ⟨⟨fun j => (hc.family.ring j).congr (fun c hmem => ?_) fun c hmem => ?_, hc.family.apart⟩,
    fun j => ?_, fun j => ?_⟩
  · exact congrArg (Option.map Entry.next) (hsame c ⟨j, hmem⟩)
  · exact congrArg (Option.map Entry.prev) (hsame c ⟨j, hmem⟩)
  · rw [← hc.entries j]
    exact List.map_congr_left fun c hmem => congrArg (Option.map Entry.rest) (hsame c (occupied_node hmem))
  · rw [← hc.heads j]
    exact congrArg (Option.map Entry.rest) (hsame _ ⟨j, List.mem_cons_self ..⟩)

theorem Chained.put (hc : Chained n head seq chain) (hx : ¬ Occupied head seq x) (v : Option (Entry (Option E))) :
    Chained (n.put x v) head seq chain :=
  hc.congr fun _ ho => n.put_of_ne v fun heq => hx (heq ▸ ho)

/-- A node is in one place of one list. -/
theorem Chained.once (hc : Chained n head seq chain) (hseq : seq i = ys ++ y :: zs) :
    y ∉ ys ∧ y ∉ zs ∧ ∀ j, j ≠ i → y ∉ seq j := by
  have hnodup := (List.nodup_cons.mp (hseq ▸ hc.family.ring i).nodup).2
  obtain ⟨-, hyzs, hdisj⟩ := List.nodup_append.mp hnodup
  refine ⟨fun hy => hdisj y hy y (List.mem_cons_self ..) rfl, (List.nodup_cons.mp hyzs).1, fun j hj hy => ?_⟩
  have hmem : y ∈ head i :: seq i := by rw [hseq]; simp
  exact hc.family.apart i j (Ne.symm hj) hmem (List.mem_cons_of_mem _ hy)

/-- The entry of a node replaced by another. -/
theorem Chained.setRest [DecidableEq ι] (hc : Chained n head seq chain) (hseq : seq i = ys ++ y :: zs)
    (hchain : chain i = cs ++ en :: ds) (hlen : ys.length = cs.length) (en' : E) :
    Chained (n.withRest y (some en')) head seq (Function.update chain i (cs ++ en' :: ds)) := by
  have hy : y ∈ seq i := by rw [hseq]; simp
  have hrest : (n.withRest y (some en')).rest = Function.update n.rest y (some (some en')) :=
    Entries.withRest_rest (hc.present (occupied_node hy)) _
  have hkeep : ∀ l : List Addr, y ∉ l → l.map (n.withRest y (some en')).rest = l.map n.rest := by
    intro l hl
    rw [hrest]
    exact List.map_congr_left fun c hmem => Function.update_of_ne (fun heq : c = y => hl (heq ▸ hmem)) _ _
  obtain ⟨hys, hzs, hothers⟩ := hc.once hseq
  refine ⟨⟨fun j => ?_, hc.family.apart⟩, fun j => ?_, fun j => ?_⟩
  · have hring := hc.family.ring j
    unfold Entries.IsRing at hring ⊢
    rwa [Entries.withRest_next, Entries.withRest_prev]
  · by_cases hj : j = i
    · subst hj
      obtain ⟨hcs, -, hds⟩ := hc.entry_at hseq hchain hlen
      rw [Function.update_self, hseq, List.map_append, List.map_cons, hkeep ys hys, hkeep zs hzs, hcs, hds, hrest,
        Function.update_self, List.map_append, List.map_cons]
    · rw [Function.update_of_ne hj, hkeep _ (hothers j hj)]
      exact hc.entries j
  · rw [hrest, Function.update_of_ne (Ne.symm (hc.not_head hy j))]
    exact hc.heads j

/-! ## Families of families -/

/-- Some of the lists. -/
theorem Chained.comp (hc : Chained n head seq chain) {f : κ → ι} (hf : Function.Injective f) :
    Chained n (head ∘ f) (seq ∘ f) (chain ∘ f) := by
  refine ⟨⟨fun j => hc.family.ring (f j), fun j k hjk => ?_⟩, fun j => hc.entries (f j), fun j => hc.heads (f j)⟩
  exact hc.family.apart (f j) (f k) fun heq => hjk (hf heq)

/-- Lists of two families that share no address. -/
theorem Chained.sum (hc : Chained n head seq chain) (hc₂ : Chained n head₂ seq₂ chain₂)
    (hdisj : ∀ c, Occupied head seq c → ¬ Occupied head₂ seq₂ c) :
    Chained n (Sum.elim head head₂) (Sum.elim seq seq₂) (Sum.elim chain chain₂) := by
  refine ⟨⟨fun j => ?_, fun j k hjk => ?_⟩, fun j => ?_, fun j => ?_⟩
  · cases j with
    | inl j => exact hc.family.ring j
    | inr j => exact hc₂.family.ring j
  · cases j with
    | inl j =>
      cases k with
      | inl k => exact hc.family.apart j k fun heq => hjk (congrArg Sum.inl heq)
      | inr k => exact fun c hmem hmem' => hdisj c ⟨j, hmem⟩ ⟨k, hmem'⟩
    | inr j =>
      cases k with
      | inl k => exact fun c hmem hmem' => hdisj c ⟨k, hmem'⟩ ⟨j, hmem⟩
      | inr k => exact hc₂.family.apart j k fun heq => hjk (congrArg Sum.inr heq)
  · cases j with
    | inl j => exact hc.entries j
    | inr j => exact hc₂.entries j
  · cases j with
    | inl j => exact hc.heads j
    | inr j => exact hc₂.heads j

theorem occupied_sum {heads : ι ⊕ κ → Addr} {seqs : ι ⊕ κ → List Addr} :
    Occupied heads seqs c ↔ Occupied (heads ∘ Sum.inl) (seqs ∘ Sum.inl) c ∨ Occupied (heads ∘ Sum.inr)
      (seqs ∘ Sum.inr) c := by
  unfold Occupied
  exact Sum.exists

/-- Heads that point to themselves, and nothing else. -/
theorem chained_nil (hinj : Function.Injective head) (hnext : ∀ i, n.next (head i) = some (head i))
    (hprev : ∀ i, n.prev (head i) = some (head i)) (hrest : ∀ i, n.rest (head i) = some none) :
    Chained n head (fun _ => []) fun _ => [] := by
  refine ⟨⟨fun i => .nil (hnext i) (hprev i), fun i j hij => ?_⟩, fun _ => rfl, hrest⟩
  rw [List.disjoint_singleton, List.mem_singleton]
  exact fun heq => hij (hinj heq).symm

end KanekFoundations.Links

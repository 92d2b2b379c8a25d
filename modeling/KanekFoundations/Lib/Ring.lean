/-
  KanekFoundations.Lib.Ring — circular doubly linked lists.

  `next` and `prev` say where the links of a node point, where there is a node. `Ring next prev
  h xs`: the links run from `h` through `xs` and back to `h`, and the other way round. The
  lists of a ring are given by what stands around a place in it: `pre ++ [a]` before it and
  `b :: post` behind it.
-/

import Mathlib

namespace KanekFoundations.Lib

variable {α : Type} {next prev next' prev' : α → Option α} {h a b x : α} {xs ys zs pre post : List α}

def Joined (next prev : α → Option α) (a b : α) : Prop := next a = some b ∧ prev b = some a

structure Ring (next prev : α → Option α) (h : α) (xs : List α) : Prop where
  nodup : (h :: xs).Nodup
  chain : List.IsChain (Joined next prev) (h :: xs ++ [h])

/-! ## Chains -/

/-- A chain reads `next` of all nodes but the last, and `prev` of all but the first. -/
theorem chain_congr (hl : xs.IsChain (Joined next prev)) (hn : ∀ c ∈ xs.dropLast, next' c = next c)
    (hp : ∀ c ∈ xs.tail, prev' c = prev c) : xs.IsChain (Joined next' prev') := by
  rw [List.isChain_iff_forall_rel_of_append_cons_cons]
  intro c d ys zs heq
  obtain ⟨hcd, hdc⟩ := List.isChain_iff_forall_rel_of_append_cons_cons.mp hl heq
  have hc : c ∈ xs.dropLast := by simp [heq, List.dropLast_append_of_ne_nil]
  have hd : d ∈ xs.tail := by
    cases ys with
    | nil => simp [heq]
    | cons _ _ => simp [heq]
  exact ⟨(hn c hc).trans hcd, (hp d hd).trans hdc⟩

/-- The links around `x` are joined, and `x` is out. -/
theorem chain_unlink (hl : (pre ++ a :: x :: b :: post).IsChain (Joined next prev))
    (hdrop : (pre ++ a :: x :: b :: post).dropLast.Nodup) (htail : (pre ++ a :: x :: b :: post).tail.Nodup)
    (hab : Joined next' prev' a b) (hn : ∀ c, c ≠ a → next' c = next c) (hp : ∀ c, c ≠ b → prev' c = prev c) :
    (pre ++ a :: b :: post).IsChain (Joined next' prev') := by
  rw [List.isChain_append_cons_cons] at hl ⊢
  obtain ⟨hpre, -, hpost⟩ := hl
  rw [List.isChain_cons_cons] at hpost
  have hdrop' : (pre ++ a :: x :: (b :: post).dropLast).Nodup := by simpa [List.dropLast_append_of_ne_nil] using hdrop
  have htail' : ((pre ++ [a]).tail ++ x :: b :: post).Nodup := by
    cases pre with
    | nil => simpa using htail
    | cons _ _ => simpa using htail
  refine ⟨chain_congr hpre (fun c hc => hn c ?_) (fun c hc => hp c ?_), hab,
    chain_congr hpost.2 (fun c hc => hn c ?_) (fun c hc => hp c ?_)⟩
  · rw [List.dropLast_concat] at hc
    exact (List.nodup_append.mp hdrop').2.2 c hc a (List.mem_cons_self ..)
  · exact (List.nodup_append.mp htail').2.2 c hc b (by simp)
  · intro heq
    subst heq
    exact (List.nodup_cons.mp (List.nodup_append.mp hdrop').2.1).1 (List.mem_cons_of_mem _ hc)
  · intro heq
    subst heq
    exact (List.nodup_cons.mp (List.nodup_cons.mp (List.nodup_append.mp htail').2.1).2).1 hc

/-- A new `x` between two neighbours. -/
theorem chain_link (hl : (pre ++ a :: b :: post).IsChain (Joined next prev))
    (hdrop : (pre ++ a :: b :: post).dropLast.Nodup)
    (htail : (pre ++ a :: b :: post).tail.Nodup) (hx : x ∉ pre ++ a :: b :: post) (hax : Joined next' prev' a x)
    (hxb : Joined next' prev' x b) (hn : ∀ c, c ≠ a → c ≠ x → next' c = next c)
    (hp : ∀ c, c ≠ b → c ≠ x → prev' c = prev c) :
    (pre ++ a :: x :: b :: post).IsChain (Joined next' prev') := by
  rw [List.isChain_append_cons_cons] at hl ⊢
  obtain ⟨hpre, -, hpost⟩ := hl
  rw [List.isChain_cons_cons]
  have hdrop' : (pre ++ a :: (b :: post).dropLast).Nodup := by simpa [List.dropLast_append_of_ne_nil] using hdrop
  have htail' : ((pre ++ [a]).tail ++ b :: post).Nodup := by
    cases pre with
    | nil => simpa using htail
    | cons _ _ => simpa using htail
  have hne : ∀ c, c ∈ pre ++ a :: b :: post → c ≠ x := fun c hc h => hx (h ▸ hc)
  refine ⟨chain_congr hpre (fun c hc => hn c ?_ ?_) (fun c hc => hp c ?_ ?_), hax, hxb,
    chain_congr hpost (fun c hc => hn c ?_ ?_) (fun c hc => hp c ?_ ?_)⟩
  · rw [List.dropLast_concat] at hc
    exact (List.nodup_append.mp hdrop').2.2 c hc a (List.mem_cons_self ..)
  · rw [List.dropLast_concat] at hc
    exact hne c (List.mem_append_left _ hc)
  · exact (List.nodup_append.mp htail').2.2 c hc b (List.mem_cons_self ..)
  · have hmem := List.mem_of_mem_tail hc
    exact hne c (by simp at hmem ⊢; tauto)
  · intro heq
    subst heq
    exact (List.nodup_cons.mp (List.nodup_append.mp hdrop').2.1).1 hc
  · have hmem := List.mem_of_mem_dropLast hc
    exact hne c (List.mem_append_right _ (List.mem_cons_of_mem _ hmem))
  · intro heq
    subst heq
    exact (List.nodup_cons.mp (List.nodup_append.mp htail').2.1).1 hc
  · exact hne c (by simp at hc ⊢; tauto)

/-! ## Rings -/

theorem exists_before (h : α) (ys : List α) : ∃ pre a, h :: ys = pre ++ [a] :=
  ⟨_, _, (List.dropLast_append_getLast (List.cons_ne_nil h ys)).symm⟩

theorem exists_behind (zs : List α) (h : α) : ∃ b post, zs ++ [h] = b :: post :=
  List.exists_cons_of_ne_nil (by simp)

theorem Ring.nil (hn : next h = some h) (hp : prev h = some h) : Ring next prev h [] :=
  ⟨List.nodup_singleton h, by simp [Joined, hn, hp]⟩

theorem Ring.tail_nodup (hr : Ring next prev h xs) : (xs ++ [h]).Nodup :=
  (List.perm_append_singleton h xs).nodup_iff.mpr hr.nodup

/-- The neighbours of a node. -/
theorem Ring.around (hr : Ring next prev h (ys ++ x :: zs)) (ha : h :: ys = pre ++ [a]) (hb : zs ++ [h] = b :: post) :
    Joined next prev a x ∧ Joined next prev x b := by
  have hwhole : h :: (ys ++ x :: zs) ++ [h] = pre ++ a :: x :: b :: post := by
    rw [← List.cons_append, ha, List.append_assoc, List.cons_append, hb]
    simp
  have hchain := hwhole ▸ hr.chain
  rw [List.isChain_append_cons_cons, List.isChain_cons_cons] at hchain
  exact ⟨hchain.2.1, hchain.2.2.1⟩

/-- Where two neighbours are joined. -/
theorem Ring.between (hr : Ring next prev h (ys ++ zs)) (ha : h :: ys = pre ++ [a]) (hb : zs ++ [h] = b :: post) :
    Joined next prev a b := by
  have hwhole : h :: (ys ++ zs) ++ [h] = pre ++ a :: b :: post := by
    rw [← List.cons_append, ha, List.append_assoc, hb]
    simp
  have hchain := hwhole ▸ hr.chain
  rw [List.isChain_append_cons_cons] at hchain
  exact hchain.2.1

theorem Ring.front (hr : Ring next prev h xs) (hb : xs ++ [h] = b :: post) : Joined next prev h b :=
  Ring.between (show Ring next prev h ([] ++ xs) from hr) (show [h] = [] ++ [h] from rfl) hb

/-- A ring reads the links of its own nodes. -/
theorem Ring.congr (hr : Ring next prev h xs) (hn : ∀ c ∈ h :: xs, next' c = next c)
    (hp : ∀ c ∈ h :: xs, prev' c = prev c) :
    Ring next' prev' h xs := by
  refine ⟨hr.nodup, chain_congr hr.chain (fun c hc => hn c ?_) (fun c hc => hp c ?_)⟩
  · rw [List.dropLast_concat] at hc
    exact hc
  · rw [List.cons_append, List.tail_cons] at hc
    exact (List.perm_append_singleton h xs).mem_iff.mp hc

theorem Ring.insert (hr : Ring next prev h (ys ++ zs)) (ha : h :: ys = pre ++ [a]) (hb : zs ++ [h] = b :: post)
    (hx : x ∉ h :: (ys ++ zs)) (hax : Joined next' prev' a x) (hxb : Joined next' prev' x b)
    (hn : ∀ c, c ≠ a → c ≠ x → next' c = next c) (hp : ∀ c, c ≠ b → c ≠ x → prev' c = prev c) :
    Ring next' prev' h (ys ++ x :: zs) := by
  have hwhole : h :: (ys ++ zs) ++ [h] = pre ++ a :: b :: post := by
    rw [← List.cons_append, ha, List.append_assoc, hb]
    simp
  have hwhole' : h :: (ys ++ x :: zs) ++ [h] = pre ++ a :: x :: b :: post := by
    rw [← List.cons_append, ha, List.append_assoc, List.cons_append, hb]
    simp
  refine ⟨?_, hwhole' ▸ chain_link (hwhole ▸ hr.chain) ?_ ?_ ?_ hax hxb hn hp⟩
  · have hperm : (h :: (ys ++ x :: zs)).Perm (x :: h :: (ys ++ zs)) :=
      (List.perm_middle.cons h).trans (List.Perm.swap ..)
    exact hperm.nodup_iff.mpr (List.nodup_cons.mpr ⟨hx, hr.nodup⟩)
  · rw [← hwhole, List.dropLast_concat]
    exact hr.nodup
  · rw [← hwhole]
    exact hr.tail_nodup
  · rw [← hwhole]
    intro hmem
    rcases List.mem_append.mp hmem with hmem | hmem
    · exact hx hmem
    · exact hx (List.mem_singleton.mp hmem ▸ List.mem_cons_self ..)

theorem Ring.remove (hr : Ring next prev h (ys ++ x :: zs)) (ha : h :: ys = pre ++ [a]) (hb : zs ++ [h] = b :: post)
    (hab : Joined next' prev' a b) (hn : ∀ c, c ≠ a → next' c = next c) (hp : ∀ c, c ≠ b → prev' c = prev c) :
    Ring next' prev' h (ys ++ zs) := by
  have hwhole : h :: (ys ++ x :: zs) ++ [h] = pre ++ a :: x :: b :: post := by
    rw [← List.cons_append, ha, List.append_assoc, List.cons_append, hb]
    simp
  have hwhole' : h :: (ys ++ zs) ++ [h] = pre ++ a :: b :: post := by
    rw [← List.cons_append, ha, List.append_assoc, hb]
    simp
  refine ⟨?_, hwhole' ▸ chain_unlink (hwhole ▸ hr.chain) ?_ ?_ hab hn hp⟩
  · exact hr.nodup.sublist (List.Sublist.cons_cons _ (List.Sublist.append_left (List.sublist_cons_self ..) ys))
  · rw [← hwhole, List.dropLast_concat]
    exact hr.nodup
  · rw [← hwhole]
    exact hr.tail_nodup

/-- Another head for the nodes of a ring: its two neighbours are joined to it. -/
theorem Ring.rehead {n : α} (hr : Ring next prev h xs) (ha : xs = pre ++ [a]) (hb : xs = b :: post) (hn : n ∉ xs)
    (hnb : Joined next' prev' n b) (han : Joined next' prev' a n) (hnext : ∀ c ∈ xs, c ≠ a → next' c = next c)
    (hprev : ∀ c ∈ xs, c ≠ b → prev' c = prev c) : Ring next' prev' n xs := by
  have hnodup := (List.nodup_cons.mp hr.nodup).2
  have hold : xs.IsChain (Joined next prev) := (List.isChain_append.mp hr.chain.tail).1
  have hchain : xs.IsChain (Joined next' prev') := by
    refine chain_congr hold (fun c hc => hnext c (List.mem_of_mem_dropLast hc) ?_) fun c hc =>
      hprev c (List.mem_of_mem_tail hc) ?_
    · rw [ha, List.dropLast_concat] at hc
      exact (List.nodup_append.mp (ha ▸ hnodup)).2.2 c hc a (List.mem_singleton_self a)
    · rw [hb, List.tail_cons] at hc
      intro heq
      subst heq
      exact (List.nodup_cons.mp (hb ▸ hnodup)).1 hc
  refine ⟨List.nodup_cons.mpr ⟨hn, hnodup⟩, ?_⟩
  have hwhole : n :: xs ++ [n] = n :: pre ++ a :: [n] := by rw [ha]; simp
  rw [hwhole, List.isChain_append_cons_cons]
  refine ⟨?_, han, List.isChain_singleton n⟩
  rw [List.cons_append, ← ha, hb, List.isChain_cons_cons]
  exact ⟨hnb, hb ▸ hchain⟩

end KanekFoundations.Lib

/-
  KanekFoundations.Lib.Chains — elements kept in a table of chains, each in the chain its
  index `idx` names.

  A change of one chain leaves what is before and behind it (`flatten_set`), so that what
  a table holds is changed as that chain is, up to order. Moving every element of a table
  into a new one of any size (`moveAll`) keeps all of them and places each by its new
  index.
-/

import Mathlib

namespace KanekFoundations.Lib

variable {α : Type} {idx : α → Nat} {chains : List (List α)} {b : Nat} {c : List α} {e : α}

def chainAt (chains : List (List α)) (b : Nat) : List α := chains.getD b []

/-- Link an element at the end of chain `b`. -/
def addTail (chains : List (List α)) (b : Nat) (e : α) : List (List α) := chains.set b (chainAt chains b ++ [e])

def Placed (idx : α → Nat) (chains : List (List α)) : Prop := ∀ b < chains.length, ∀ e ∈ chainAt chains b, idx e = b

/-- One chain in its table: the rest stays as it is when the chain is replaced. -/
theorem flatten_set (hb : b < chains.length) :
    ∃ pre post, chains.flatten = pre ++ chainAt chains b ++ post ∧ ∀ c,
      (chains.set b c).flatten = pre ++ c ++ post := by
  refine ⟨(chains.take b).flatten, (chains.drop (b + 1)).flatten, ?_, fun c => ?_⟩
  · have hsplit : chains = chains.take b ++ chains[b] :: chains.drop (b + 1) := by
      rw [List.getElem_cons_drop, List.take_append_drop]
    have hat : chainAt chains b = chains[b] := List.getD_eq_getElem _ _ hb
    rw [hat]
    conv_lhs => rw [hsplit, List.flatten_append, List.flatten_cons]
    rw [List.append_assoc]
  · rw [List.set_eq_take_append_cons_drop, if_pos hb]
    simp

theorem chainAt_set (hb : b < chains.length) (b' : Nat) :
    chainAt (chains.set b c) b' = if b' = b then c else chainAt chains b' := by
  unfold chainAt
  rw [List.getD_eq_getElem?_getD, List.getD_eq_getElem?_getD, List.getElem?_set]
  by_cases h : b = b'
  · subst h
    simp [hb]
  · rw [if_neg h, if_neg (Ne.symm h)]

theorem Placed.set (h : Placed idx chains) (hc : ∀ e ∈ c, idx e = b) : Placed idx (chains.set b c) := by
  intro b' hb' e he
  rw [List.length_set] at hb'
  by_cases hb : b < chains.length
  · rw [chainAt_set hb] at he
    split at he
    · rename_i heq
      rw [heq]
      exact hc e he
    · exact h b' hb' e he
  · rw [List.set_eq_of_length_le (by omega)] at he
    exact h b' hb' e he

theorem mem_chainAt_flatten (hb : b < chains.length) (he : e ∈ chainAt chains b) : e ∈ chains.flatten := by
  obtain ⟨pre, post, h, -⟩ := flatten_set hb
  rw [h]
  simp [he]

/-- An element is in the table exactly when it is in the chain of its index. -/
theorem Placed.mem_iff (h : Placed idx chains) (hb : idx e < chains.length) :
    e ∈ chains.flatten ↔ e ∈ chainAt chains (idx e) := by
  constructor
  · intro he
    obtain ⟨chain, hchain, hmem⟩ := List.mem_flatten.mp he
    obtain ⟨b, hlt, rfl⟩ := List.getElem_of_mem hchain
    have hat : chainAt chains b = chains[b] := List.getD_eq_getElem _ _ hlt
    have hidx := h b hlt e (hat ▸ hmem)
    rw [hidx, hat]
    exact hmem
  · exact mem_chainAt_flatten hb

theorem addTail_perm (hb : b < chains.length) : (addTail chains b e).flatten.Perm (e :: chains.flatten) := by
  obtain ⟨pre, post, h, hset⟩ := flatten_set hb
  rw [addTail, hset, h]
  have : pre ++ (chainAt chains b ++ [e]) ++ post = pre ++ chainAt chains b ++ e :: post := by simp
  rw [this]
  exact List.perm_middle

theorem Placed.addTail (h : Placed idx chains) (hb : idx e < chains.length) :
    Placed idx (addTail chains (idx e) e) := by
  refine h.set fun e' he' => ?_
  rcases List.mem_append.mp he' with he' | he'
  · exact h _ hb e' he'
  · rw [List.mem_singleton.mp he']

/-! ## Moving a table's elements -/

/-- Move `es`, in order, to the ends of the chains their indices name. -/
def moveAll (idx : α → Nat) (chains : List (List α)) (es : List α) : List (List α) :=
  es.foldl (fun chains e => addTail chains (idx e) e) chains

theorem moveAll_length (es : List α) : (moveAll idx chains es).length = chains.length := by
  induction es generalizing chains with
  | nil => rfl
  | cons e es ih =>
    show (moveAll idx (Lib.addTail chains (idx e) e) es).length = _
    rw [ih, Lib.addTail, List.length_set]

theorem moveAll_spec {es : List α} (h : Placed idx chains) (hes : ∀ e ∈ es, idx e < chains.length) :
    Placed idx (moveAll idx chains es) ∧ (moveAll idx chains es).flatten.Perm (chains.flatten ++ es) := by
  induction es generalizing chains with
  | nil => exact ⟨h, by simp [moveAll]⟩
  | cons e es ih =>
    have hb := hes e List.mem_cons_self
    have hlen : (Lib.addTail chains (idx e) e).length = chains.length := List.length_set
    obtain ⟨hp, hperm⟩ := ih (h.addTail hb) fun e' he' => hlen ▸ hes e' (List.mem_cons_of_mem _ he')
    have hcons : ((Lib.addTail chains (idx e) e).flatten ++ es).Perm (e :: chains.flatten ++ es) :=
      (addTail_perm hb).append_right es
    exact ⟨hp, hperm.trans (hcons.trans List.perm_middle.symm)⟩

/-- A chain after the move has at its end the elements with its index, in the order they came. -/
theorem chainAt_moveAll (es : List α) (hb : b < chains.length) :
    chainAt (moveAll idx chains es) b = chainAt chains b ++ es.filter fun e => idx e = b := by
  induction es generalizing chains with
  | nil => simp [moveAll]
  | cons e es ih =>
    show chainAt (moveAll idx (Lib.addTail chains (idx e) e) es) b = _
    rw [ih (by rwa [Lib.addTail, List.length_set])]
    by_cases he : idx e = b
    · subst he
      rw [Lib.addTail, chainAt_set hb, if_pos rfl, List.filter_cons_of_pos (by simp)]
      simp
    · have hsame : chainAt (Lib.addTail chains (idx e) e) b = chainAt chains b := by
        unfold Lib.addTail chainAt
        simp only [List.getD_eq_getElem?_getD, List.getElem?_set_ne he]
      rw [hsame, List.filter_cons_of_neg (by simpa using he)]

/-- The elements of a table, chain by chain. -/
theorem flatten_eq_flatMap (chains : List (List α)) :
    chains.flatten = (List.range chains.length).flatMap (chainAt chains) := by
  have hmap : chains = (List.range chains.length).map (chainAt chains) := by
    refine List.ext_getElem (by simp) fun i h1 h2 => ?_
    rw [List.getElem_map, List.getElem_range]
    exact (List.getD_eq_getElem _ _ h1).symm
  conv_lhs => rw [hmap]
  rfl

theorem placed_replicate (n : Nat) : Placed idx (List.replicate n []) := by
  intro b hb e he
  rw [chainAt, List.getD_eq_getElem _ _ hb, List.getElem_replicate] at he
  cases he

end KanekFoundations.Lib

/-
  KanekFoundations.Ta.Ledger — what the blocks of a context are to the program that uses them.

  A ledger has the live blocks: the size that was asked for last, whether the block was marked
  since, and its contents. `Keeps ll r g xs`: the nodes in memory, seen without their links,
  are the head and the blocks `xs` of the ledger.
-/

import KanekFoundations.Ta.Ta

namespace KanekFoundations.Ta

open KanekFoundations.Lib KanekFoundations.Links

structure Block where
  size : Nat
  marked : Bool
  data : List (Option Byte)

abbrev Ledger := Addr → Option Block

/-- The sweep takes the marked blocks. -/
def Ledger.swept (g : Ledger) : Ledger := fun a => (g a).filter fun k => !k.marked

/-- What a call does to the live blocks. -/
def Op.apply (g : Ledger) : Op → Ledger
  | .malloc size (some a) => Function.update g a (some ⟨size, false, List.replicate size (some X)⟩)
  | .calloc n e (some a) => Function.update g a (some ⟨u64 (n * e), false, List.replicate (u64 (n * e)) (some 0)⟩)
  | .realloc a size (some b) =>
    Function.update (Function.update g a none) b ((g a).map fun k => ⟨size, false, resize size k.data⟩)
  | .malloc _ none | .calloc _ _ none | .realloc _ _ none | .freeNull => g
  | .free a => Function.update g a none
  | .mark a => Function.update g a ((g a).map fun k => { k with marked := true })
  | .fill a data => Function.update g a ((g a).map fun k => { k with data := data })
  | .sweep => g.swept
  | .destroy | .reset => fun _ => none

/-- The place that the system gives is in the address space and apart from what is there. -/
structure Fits (r : Addr → Option Info) (a total : Nat) : Prop where
  pos : 0 < a
  room : a + total ≤ 2 ^ 64
  apart : ∀ (b : Nat) i, r b = some i → a + total ≤ b ∨ b + HEADER + i.data.length ≤ a

/-- The calls that a program may make, with the answers it may get, when blocks are smaller than `limit`. -/
def Op.Legal (limit : Nat) (r : Addr → Option Info) (g : Ledger) : Op → Prop
  | .malloc size answer => size < limit ∧ ∀ a, answer = some a → Fits r a (HEADER + size)
  | .calloc n e answer => u64 (n * e) < limit ∧ ∀ a, answer = some a → Fits r a (HEADER + u64 (n * e))
  | .realloc a size answer =>
    (g a).isSome ∧ size < limit ∧ ∀ b, answer = some b → Fits (Function.update r a none) b (HEADER + size)
  | .free a | .mark a => (g a).isSome
  | .fill a data => ∃ k, g a = some k ∧ data.length = k.size
  | .freeNull | .sweep | .destroy | .reset => True

/-! ## Nodes and blocks -/

structure Info.Describes (i : Info) (k : Block) : Prop where
  size : i.size = k.size % 2 ^ 32
  mark : i.mark = 1 ↔ k.marked = true
  data : i.data = k.data
  length : k.data.length = k.size
  total : i.total = HEADER + k.size

structure Keeps (ll : Addr) (r : Addr → Option Info) (g : Ledger) (xs : List Addr) : Prop where
  live : ∀ a, a ∈ xs ↔ (g a).isSome
  block : ∀ a k, g a = some k → ∃ i, r a = some i ∧ i.Describes k
  only : ∀ a, (r a).isSome → a = ll ∨ a ∈ xs
  room : ∀ (a : Nat) i, r a = some i → a + HEADER + i.data.length ≤ 2 ^ 64
  apart : ∀ (a b : Nat) i j, r a = some i → r b = some j → a ≠ b →
    a + HEADER + i.data.length ≤ b ∨ b + HEADER + j.data.length ≤ a

variable {ll a b : Nat} {r : Addr → Option Info} {g : Ledger} {xs ys zs : List Addr} {i j : Info} {k : Block}

theorem Keeps.perm (h : Keeps ll r g xs) (hp : xs.Perm ys) : Keeps ll r g ys :=
  ⟨fun a => hp.mem_iff.symm.trans (h.live a), h.block, fun a ha => (h.only a ha).imp_right hp.mem_iff.mp,
    h.room, h.apart⟩

theorem Keeps.find (h : Keeps ll r g xs) (ha : a ∈ xs) : ∃ k i, g a = some k ∧ r a = some i ∧ i.Describes k := by
  obtain ⟨k, hk⟩ := Option.isSome_iff_exists.mp ((h.live a).mp ha)
  obtain ⟨i, hi, hd⟩ := h.block a k hk
  exact ⟨k, i, hk, hi, hd⟩

theorem Fits.absent {total : Nat} (hf : Fits r a total) (hpos : 0 < total) : r a = none := by
  cases hr : r a with
  | none => rfl
  | some i =>
    have h := hf.apart a i hr
    have hheader : 0 < HEADER := by decide
    omega

theorem Keeps.add (h : Keeps ll r g xs) (hf : Fits r a (HEADER + i.data.length)) (hd : i.Describes k) :
    Keeps ll (Function.update r a (some i)) (Function.update g a (some k)) (a :: xs) := by
  have hsome : ∀ {b : Nat} {j}, Function.update r a (some i) b = some j → b = a ∧ j = i ∨ b ≠ a ∧ r b = some j := by
    intro b j hb
    by_cases hba : b = a
    · subst hba
      rw [Function.update_self] at hb
      exact .inl ⟨rfl, (Option.some.inj hb).symm⟩
    · rw [Function.update_of_ne hba] at hb
      exact .inr ⟨hba, hb⟩
  refine ⟨fun b => ?_, fun b k' hb => ?_, fun b hb => ?_, fun b j hb => ?_, fun b c j j' hb hc hne => ?_⟩
  · by_cases hba : b = a
    · simp [hba]
    · simp [hba, h.live b]
  · by_cases hba : b = a
    · subst hba
      rw [Function.update_self] at hb ⊢
      cases hb
      exact ⟨i, rfl, hd⟩
    · rw [Function.update_of_ne hba] at hb ⊢
      exact h.block b k' hb
  · obtain ⟨j, hj⟩ := Option.isSome_iff_exists.mp hb
    rcases hsome hj with ⟨rfl, -⟩ | ⟨-, hj⟩
    · exact .inr (List.mem_cons_self ..)
    · exact (h.only b (by rw [hj]; rfl)).imp_right (List.mem_cons_of_mem a)
  · rcases hsome hb with ⟨rfl, rfl⟩ | ⟨-, hb⟩
    · have hroom := hf.room
      omega
    · exact h.room b j hb
  · rcases hsome hb with ⟨rfl, rfl⟩ | ⟨-, hb'⟩
    · rcases hsome hc with ⟨rfl, -⟩ | ⟨-, hc⟩
      · exact absurd rfl hne
      · have hapart := hf.apart c j' hc
        omega
    · rcases hsome hc with ⟨rfl, rfl⟩ | ⟨-, hc'⟩
      · have hapart := hf.apart b j hb'
        omega
      · exact h.apart b c j j' hb' hc' hne

theorem update_none_some {β : Type} {f : Addr → Option β} {y : β} (h : Function.update f a none b = some y) :
    b ≠ a ∧ f b = some y := by
  by_cases hba : b = a
  · subst hba
    rw [Function.update_self] at h
    cases h
  · rw [Function.update_of_ne hba] at h
    exact ⟨hba, h⟩

theorem Keeps.remove (h : Keeps ll r g (ys ++ a :: zs)) (hnodup : (ys ++ a :: zs).Nodup) :
    Keeps ll (Function.update r a none) (Function.update g a none) (ys ++ zs) := by
  have hperm : (ys ++ a :: zs).Perm (a :: (ys ++ zs)) := List.perm_middle
  have hout : a ∉ ys ++ zs := (List.nodup_cons.mp (hperm.nodup_iff.mp hnodup)).1
  have hmem : ∀ b, b ≠ a → (b ∈ ys ++ zs ↔ b ∈ ys ++ a :: zs) := by
    intro b hba
    rw [hperm.mem_iff, List.mem_cons]
    exact (or_iff_right hba).symm
  refine ⟨fun b => ?_, fun b k' hb => ?_, fun b hb => ?_, fun b j hb => h.room b j (update_none_some hb).2,
    fun b c j j' hb hc hne => h.apart b c j j' (update_none_some hb).2 (update_none_some hc).2 hne⟩
  · by_cases hba : b = a
    · subst hba
      rw [Function.update_self]
      exact iff_of_false hout (by simp)
    · rw [Function.update_of_ne hba, hmem b hba]
      exact h.live b
  · obtain ⟨hba, hb⟩ := update_none_some hb
    rw [Function.update_of_ne hba]
    exact h.block b k' hb
  · obtain ⟨j, hj⟩ := Option.isSome_iff_exists.mp hb
    obtain ⟨hba, hj⟩ := update_none_some hj
    exact (h.only b (by rw [hj]; rfl)).imp_right (hmem b hba).mpr

/-- A block that stays where it is, with as many bytes. -/
theorem Keeps.change (h : Keeps ll r g xs) (ha : a ∈ xs) (hi : r a = some i) {i' : Info} (hd : i'.Describes k)
    (hlen : i'.data.length = i.data.length) :
    Keeps ll (Function.update r a (some i')) (Function.update g a (some k)) xs := by
  have hsome : ∀ {b : Nat} {j}, Function.update r a (some i') b = some j → ∃ j', r b = some j' ∧
    j.data.length = j'.data.length := by
    intro b j hb
    by_cases hba : b = a
    · subst hba
      rw [Function.update_self] at hb
      cases hb
      exact ⟨i, hi, hlen⟩
    · rw [Function.update_of_ne hba] at hb
      exact ⟨j, hb, rfl⟩
  refine ⟨fun b => ?_, fun b k' hb => ?_, fun b hb => ?_, fun b j hb => ?_, fun b c j j' hb hc hne => ?_⟩
  · by_cases hba : b = a
    · simp [hba, ha]
    · simp [hba, h.live b]
  · by_cases hba : b = a
    · subst hba
      rw [Function.update_self] at hb ⊢
      cases hb
      exact ⟨i', rfl, hd⟩
    · rw [Function.update_of_ne hba] at hb ⊢
      exact h.block b k' hb
  · obtain ⟨j, hj⟩ := Option.isSome_iff_exists.mp hb
    obtain ⟨j', hj', -⟩ := hsome hj
    exact h.only b (by rw [hj']; rfl)
  · obtain ⟨j', hj', hlen'⟩ := hsome hb
    rw [hlen']
    exact h.room b j' hj'
  · obtain ⟨i₁, hi₁, hlen₁⟩ := hsome hb
    obtain ⟨i₂, hi₂, hlen₂⟩ := hsome hc
    rw [hlen₁, hlen₂]
    exact h.apart b c i₁ i₂ hi₁ hi₂ hne

/-! ## Sizes -/

def Ledger.size (g : Ledger) (a : Addr) : Nat := (g a).elim 0 Block.size

/-- Blocks that are apart share the address space. -/
theorem Keeps.sum_le (h : Keeps ll r g xs) (hnodup : xs.Nodup) : (xs.map fun a => HEADER + g.size a).sum ≤ 2 ^ 64 := by
  have hextent : ∀ a ∈ xs, ∃ i, r a = some i ∧ g.size a = i.data.length := by
    intro a ha
    obtain ⟨k, i, hk, hi, hd⟩ := h.find ha
    refine ⟨i, hi, ?_⟩
    rw [Ledger.size, hk, hd.data, hd.length]
    rfl
  have hcard : ∀ a ∈ xs.toFinset, HEADER + g.size a = (Finset.Ico a (a + (HEADER + g.size a))).card := by
    intro a _
    rw [Nat.card_Ico, Nat.add_sub_cancel_left]
  have hdisj : Set.PairwiseDisjoint (↑xs.toFinset : Set Nat) fun a => Finset.Ico a (a + (HEADER + g.size a)) := by
    intro a ha b hb hne
    obtain ⟨i, hi, hai⟩ := hextent a (List.mem_toFinset.mp ha)
    obtain ⟨j, hj, hbj⟩ := hextent b (List.mem_toFinset.mp hb)
    have hapart := h.apart a b i j hi hj hne
    refine Finset.disjoint_left.mpr fun c hc hc' => ?_
    rw [Finset.mem_Ico] at hc hc'
    omega
  have hsub : (xs.toFinset.biUnion fun a : Nat => Finset.Ico a (a + (HEADER + g.size a))) ⊆ Finset.range (2 ^ 64) := by
    intro (c : Nat) hc
    obtain ⟨a, ha, hc⟩ := Finset.mem_biUnion.mp hc
    obtain ⟨i, hi, hai⟩ := hextent a (List.mem_toFinset.mp ha)
    have hroom := h.room a i hi
    rw [Finset.mem_Ico] at hc
    rw [Finset.mem_range]
    omega
  calc (xs.map fun a => HEADER + g.size a).sum
      = ∑ a ∈ xs.toFinset, (HEADER + g.size a) := (List.sum_toFinset _ hnodup).symm
    _ = ∑ a ∈ xs.toFinset, (Finset.Ico a (a + (HEADER + g.size a))).card := Finset.sum_congr rfl hcard
    _ = (xs.toFinset.biUnion fun a => Finset.Ico a (a + (HEADER + g.size a))).card := (Finset.card_biUnion hdisj).symm
    _ ≤ (Finset.range (2 ^ 64)).card := Finset.card_le_card hsub
    _ = 2 ^ 64 := Finset.card_range _

end KanekFoundations.Ta

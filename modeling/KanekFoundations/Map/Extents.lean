/-
  KanekFoundations.Map.Extents — a bitmap as the record of a family of extents.

  `Allocated bm totalBits live`: the extents of `live` are apart, lie in the map, and its
  set bits are the bits they cover. Claiming a clear run, releasing an extent and growing
  one into clear bits keep it, and `bm_popcount` is then the sum of the lengths.

  Last, `bm_extent_can_grow`: it sees bits and not extents, so an adjacent neighbour's
  ones pass for the extent's own (`grow_takes_neighbour`). With no neighbour at its end,
  an extent that can grow grows over nobody (`grow_in_place`).
-/

import KanekFoundations.Map.CountProofs
import KanekFoundations.Map.Popcount

namespace KanekFoundations.Map

open KanekFoundations.Lib

structure Extent where
  start : Nat
  len : Nat
  deriving DecidableEq, Repr

def Extent.Covers (e : Extent) (i : Nat) : Prop := e.start ≤ i ∧ i < e.start + e.len

instance (e : Extent) (i : Nat) : Decidable (e.Covers i) := inferInstanceAs (Decidable (_ ∧ _))

def Extent.Apart (e e' : Extent) : Prop := ∀ i, e.Covers i → ¬ e'.Covers i

theorem Extent.Apart.symm {e e' : Extent} (h : e.Apart e') : e'.Apart e := fun i h' h'' => h i h'' h'

structure Allocated (bm : Mem) (totalBits : Nat) (live : List Extent) : Prop where
  apart : live.Pairwise Extent.Apart
  inside : ∀ e ∈ live, e.start + e.len ≤ totalBits
  bits : ∀ i < totalBits, bitAt bm i = true ↔ ∃ e ∈ live, e.Covers i

section
variable {bm bm' : Mem} {totalBits a n : Nat} {live : List Extent}

theorem Allocated.perm {live' : List Extent} (h : Allocated bm totalBits live) (hp : live.Perm live') :
    Allocated bm totalBits live' := by
  refine ⟨h.apart.perm hp Extent.Apart.symm, fun e he => h.inside e (hp.mem_iff.mpr he), fun i hi => ?_⟩
  rw [h.bits i hi]
  exact ⟨fun ⟨e, he, hie⟩ => ⟨e, hp.mem_iff.mp he, hie⟩, fun ⟨e, he, hie⟩ => ⟨e, hp.mem_iff.mpr he, hie⟩⟩

/-- Any extent of the family can be seen as its first. -/
theorem Allocated.first (h : Allocated bm totalBits live) {e : Extent} (he : e ∈ live) :
    Allocated bm totalBits (e :: live.erase e) := h.perm (List.perm_cons_erase he)

/-- A clear run becomes a new extent. -/
theorem Allocated.claim (h : Allocated bm totalBits live) (hend : a + n ≤ totalBits) (hfree : Run (bitAt bm) false a n)
    (hw : Written bm bm' a n true) : Allocated bm' totalBits (⟨a, n⟩ :: live) := by
  refine ⟨List.pairwise_cons.mpr ⟨fun e he i hi hie => ?_, h.apart⟩, ?_, fun i hi => ?_⟩
  · have hset := (h.bits i (by have := hi.2; show i < totalBits; simp only at this; omega)).mpr ⟨e, he, hie⟩
    rw [hfree i hi.1 hi.2] at hset
    cases hset
  · intro e he
    rcases List.mem_cons.mp he with rfl | he
    · exact hend
    · exact h.inside e he
  · rw [hw i]
    split
    · rename_i hin
      exact ⟨fun _ => ⟨⟨a, n⟩, List.mem_cons_self, hin⟩, fun _ => rfl⟩
    · rename_i hout
      rw [h.bits i hi]
      constructor
      · intro howned
        obtain ⟨e, he, hie⟩ := howned
        exact ⟨e, List.mem_cons_of_mem _ he, hie⟩
      · intro howned
        obtain ⟨e, he, hie⟩ := howned
        rcases List.mem_cons.mp he with rfl | he
        · exact absurd hie hout
        · exact ⟨e, he, hie⟩

theorem Allocated.release {e : Extent} (h : Allocated bm totalBits (e :: live))
    (hw : Written bm bm' e.start e.len false) :
    Allocated bm' totalBits live := by
  obtain ⟨hap, hrest⟩ := List.pairwise_cons.mp h.apart
  refine ⟨hrest, fun e' he' => h.inside e' (List.mem_cons_of_mem _ he'), fun i hi => ?_⟩
  rw [hw i]
  split
  · rename_i hin
    refine ⟨fun h => by (cases h), ?_⟩
    intro howned
    obtain ⟨e', he', hie⟩ := howned
    exact absurd hie (hap e' he' i hin)
  · rename_i hout
    rw [h.bits i hi]
    constructor
    · intro howned
      obtain ⟨e', he', hie⟩ := howned
      rcases List.mem_cons.mp he' with rfl | he'
      · exact absurd hie hout
      · exact ⟨e', he', hie⟩
    · intro howned
      obtain ⟨e', he', hie⟩ := howned
      exact ⟨e', List.mem_cons_of_mem _ he', hie⟩

/-- An extent grows over clear bits. -/
theorem Allocated.grow {e : Extent} (h : Allocated bm totalBits (e :: live)) (hn : e.len ≤ n)
    (hend : e.start + n ≤ totalBits)
    (hfree : Run (bitAt bm) false (e.start + e.len) (n - e.len)) (hw : Written bm bm' e.start n true) :
    Allocated bm' totalBits (⟨e.start, n⟩ :: live) := by
  obtain ⟨hap, hrest⟩ := List.pairwise_cons.mp h.apart
  have hcover : ∀ i, (⟨e.start, n⟩ : Extent).Covers i → e.Covers i ∨ bitAt bm i = false := by
    intro i hi
    by_cases hie : i < e.start + e.len
    · exact .inl ⟨hi.1, hie⟩
    · have hlt : i < e.start + n := hi.2
      exact .inr (hfree i (by omega) (by omega))
  refine ⟨List.pairwise_cons.mpr ⟨fun e' he' i hi hie => ?_, hrest⟩, fun e' he' => ?_, fun i hi => ?_⟩
  · rcases hcover i hi with h1 | h1
    · exact hap e' he' i h1 hie
    · have hlt : i < e.start + n := hi.2
      have hset := (h.bits i (by omega)).mpr ⟨e', List.mem_cons_of_mem _ he', hie⟩
      rw [h1] at hset
      cases hset
  · rcases List.mem_cons.mp he' with rfl | he'
    · exact hend
    · exact h.inside e' (List.mem_cons_of_mem _ he')
  · rw [hw i]
    split
    · rename_i hin
      exact ⟨fun _ => ⟨_, List.mem_cons_self, hin⟩, fun _ => rfl⟩
    · rename_i hout
      rw [h.bits i hi]
      constructor
      · intro howned
        obtain ⟨e', he', hie⟩ := howned
        rcases List.mem_cons.mp he' with rfl | he'
        · exact absurd ⟨hie.1, by have := hie.2; omega⟩ hout
        · exact ⟨e', List.mem_cons_of_mem _ he', hie⟩
      · intro howned
        obtain ⟨e', he', hie⟩ := howned
        rcases List.mem_cons.mp he' with rfl | he'
        · exact absurd hie hout
        · exact ⟨e', List.mem_cons_of_mem _ he', hie⟩

end

/-! ## `bm_zero` and `bm_popcount` -/

theorem bmZero_allocated (bm : Mem) {totalBits : Nat} (ht : totalBits < 2 ^ 63) :
    Allocated (bmZero bm totalBits) totalBits [] := by
  refine ⟨.nil, List.forall_mem_nil _, fun i hi => ?_⟩
  have hbyte : bmZero bm totalBits (i / 8) = 0x00 := by
    unfold bmZero memset
    rw [u64_of_lt (by omega), if_pos (by omega)]
  rw [bitAt, hbyte]
  constructor
  · intro h
    simp at h
  · intro howned
    obtain ⟨e, he, -⟩ := howned
    cases he

/-- The set bits are as many as the extents are long. -/
theorem Allocated.popcount {bm : Mem} {totalBits : Nat} {live : List Extent} (h : Allocated bm totalBits live)
    (ht : totalBits < 2 ^ 63) : bmPopcount bm totalBits = (live.map Extent.len).sum := by
  have hsum : ∀ live : List Extent, live.Pairwise Extent.Apart → (∀ e ∈ live, e.start + e.len ≤ totalBits) →
      (List.range totalBits).countP (fun i => decide (∃ e ∈ live, e.Covers i)) = (live.map Extent.len).sum := by
    intro live
    induction live with
    | nil => intro _ _; simp
    | cons e live ih =>
      intro hap hin
      obtain ⟨hfirst, hrest⟩ := List.pairwise_cons.mp hap
      have hor : ∀ i < totalBits, decide (∃ e' ∈ e :: live, e'.Covers i) =
          (decide (e.start ≤ i ∧ i < e.start + e.len) || decide (∃ e' ∈ live, e'.Covers i)) := by
        intro i _
        rw [← Bool.decide_or]
        exact decide_eq_decide.mpr (by simp only [List.mem_cons, exists_eq_or_imp]; rfl)
      have hne : ∀ i < totalBits, decide (e.start ≤ i ∧ i < e.start + e.len) = true →
          decide (∃ e' ∈ live, e'.Covers i) = false := by
        intro i _ hi
        refine decide_eq_false ?_
        intro howned
        obtain ⟨e', he', hie⟩ := howned
        exact hfirst e' he' i (of_decide_eq_true hi) hie
      rw [count_congr _ hor, count_or _ hne, count_interval _ (hin e List.mem_cons_self),
        ih hrest fun e' he' => hin e' (List.mem_cons_of_mem _ he'), List.map_cons, List.sum_cons]
  rw [bmPopcount_eq bm (by omega), ← hsum live h.apart h.inside]
  refine count_congr _ fun i hi => ?_
  rw [Bool.eq_iff_iff, decide_eq_true_eq]
  exact h.bits i hi

/-! ## Growing in place -/

/-- With no neighbour at its end, an extent that can grow has only clear bits before it,
    and `bm_set_extent` grows it over no other extent. -/
theorem grow_in_place {bm : Mem} {totalBits count : Nat} {live : List Extent} {e : Extent} {reads : List Nat}
    (h : Allocated bm totalBits live) (ht : totalBits < 2 ^ 64) (he : e ∈ live) (hlen : e.len < count)
    (hend : e.start + count ≤ totalBits) (h63 : count < 2 ^ 63) (hnext : ∀ e' ∈ live, ¬ e'.Covers (e.start + e.len))
    (hok : bmExtentCanGrow bm totalBits e.start count = some (0, reads)) :
    Run (bitAt bm) false (e.start + e.len) (count - e.len) ∧
      (∀ e' ∈ live.erase e, Extent.Apart ⟨e.start, count⟩ e') ∧
      Allocated (bmSetExtent bm totalBits e.start count SETBIT).bm totalBits (⟨e.start, count⟩ :: live.erase e) := by
  obtain ⟨out, hout, -, hones⟩ := bmExtentCanGrow_spec bm ht (by omega) hend (by omega)
  obtain rfl : out = (0, reads) := Option.some.inj (hout.symm.trans hok)
  obtain ⟨k, hk, hrun, hzeros⟩ := hones h63 rfl
  have hclear : ¬ bitAt bm (e.start + e.len) = true := by
    rw [h.bits _ (by omega)]
    intro howned
    obtain ⟨e', he', hc⟩ := howned
    exact hnext e' he' hc
  -- The leading ones stop at the extent's own end.
  have hkl : k ≤ e.len := by
    refine Nat.le_of_not_lt fun hlt => hclear (hrun _ (by omega) (by omega))
  have hfree : Run (bitAt bm) false (e.start + e.len) (count - e.len) := hzeros.sub (by omega) (by omega)
  have hgrown := (h.first he).grow (Nat.le_of_lt hlen) hend hfree
    (bmSetExtent_written bm SETBIT (by omega) hend ht (Or.inr rfl))
  exact ⟨hfree, (List.pairwise_cons.mp hgrown.apart).1, hgrown⟩

/-- A byte 0xc3 as the extents [0, 2) and [6, 8): the first grows up to the second. -/
theorem grow_in_place_byte :
    Run (bitAt fun _ => 0xc3) false 2 4 ∧ Extent.Apart ⟨0, 6⟩ ⟨6, 2⟩ ∧
      Allocated (bmSetExtent (fun _ => 0xc3) 8 0 6 SETBIT).bm 8 [⟨0, 6⟩, ⟨6, 2⟩] := by
  have hapart : [⟨0, 2⟩, ⟨6, 2⟩].Pairwise Extent.Apart := by
    simp only [List.pairwise_pair, Extent.Apart, Extent.Covers]
    omega
  have h : Allocated (fun _ => 0xc3) 8 [⟨0, 2⟩, ⟨6, 2⟩] := ⟨hapart, by decide, by decide⟩
  have hok : bmExtentCanGrow (fun _ => 0xc3) 8 0 6 = some (0, [0, 0, 0]) := by decide
  obtain ⟨hrun, hothers, hgrown⟩ :=
    grow_in_place (e := ⟨0, 2⟩) h (by decide) List.mem_cons_self (by decide) (by decide) (by decide) (by decide) hok
  exact ⟨hrun, hothers ⟨6, 2⟩ List.mem_cons_self, hgrown⟩

/-- A byte 0x0f as the extents [0, 2) and [2, 4): the first is told it can grow to eight
    bits. And where a count of 2^63 or more makes `pending_bits` negative, the third byte
    is never looked at, though no neighbour is adjacent. -/
theorem grow_takes_neighbour :
    (¬ ∀ (bm : Mem) (totalBits count : Nat) (live : List Extent) (e : Extent) (reads : List Nat),
      Allocated bm totalBits live → totalBits < 2 ^ 64 → e ∈ live → e.len < count → e.start + count ≤ totalBits →
      bmExtentCanGrow bm totalBits e.start count = some (0, reads) →
      Run (bitAt bm) false (e.start + e.len) (count - e.len)) ∧
    ¬ ∀ (bm : Mem) (totalBits count : Nat) (live : List Extent) (e : Extent) (reads : List Nat),
      Allocated bm totalBits live → totalBits < 2 ^ 64 → e ∈ live → e.len < count → e.start + count ≤ totalBits →
      (∀ e' ∈ live, ¬ e'.Covers (e.start + e.len)) →
      bmExtentCanGrow bm totalBits e.start count = some (0, reads) →
      Run (bitAt bm) false (e.start + e.len) (count - e.len) := by
  constructor
  · intro h
    have hfam : Allocated (fun _ => 0x0f) 8 [⟨0, 2⟩, ⟨2, 2⟩] := by
      refine ⟨?_, by decide, by decide⟩
      simp only [List.pairwise_pair, Extent.Apart, Extent.Covers]
      omega
    have := h _ 8 8 _ ⟨0, 2⟩ [0, 0, 0] hfam (by decide) List.mem_cons_self (by decide) (by decide) (by decide) 2
    exact absurd (this (by decide) (by decide)) (by decide)
  · intro h
    have hfam : Allocated (fun i => if i = 0 then 0xf0 else if i = 2 then 0x01 else 0x00) (2 ^ 63 + 64)
        [⟨4, 4⟩, ⟨16, 1⟩] := by
      have hlow : ∀ i < 24, bitAt (fun i => if i = 0 then 0xf0 else if i = 2 then 0x01 else 0x00) i = true ↔
          ∃ e ∈ [(⟨4, 4⟩ : Extent), ⟨16, 1⟩], e.Covers i := by decide
      refine ⟨?_, by decide, fun i _ => ?_⟩
      · simp only [List.pairwise_pair, Extent.Apart, Extent.Covers]
        omega
      · by_cases hi : i < 24
        · exact hlow i hi
        · have h0 : i / 8 ≠ 0 := by omega
          have h2 : i / 8 ≠ 2 := by omega
          simp only [bitAt, h0, h2, if_false, List.mem_cons, List.not_mem_nil, or_false, exists_eq_or_imp,
            exists_eq_left,
            Extent.Covers]
          simp
          omega
    have := h _ (2 ^ 63 + 64) (2 ^ 63 + 4) _ ⟨4, 4⟩ [0, 0, 1] hfam (by decide) List.mem_cons_self
      (by decide) (by decide)
      (by decide) (by decide) 16
    exact absurd (this (by decide) (by decide)) (by decide)

end KanekFoundations.Map

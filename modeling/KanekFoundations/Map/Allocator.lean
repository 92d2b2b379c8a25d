/-
  KanekFoundations.Map.Allocator — the claim pair of `map.h`: `bm_find`, then
  `bm_set_extent` of what it found, and a release by `bm_set_extent` with CLEARBIT,
  serialized by the caller.

  Proved, for every state reachable from `bm_zero` in a map of fewer than 2^31 bits: the
  live extents are apart and in the map, its set bits are theirs and as many, no
  `bm_set_extent` of a step fails, and an allocation that is refused had no room in its
  window (`allocator_safe`).
-/

import KanekFoundations.Map.Extents
import KanekFoundations.Map.FindProofs

namespace KanekFoundations.Map

open KanekFoundations.Lib

structure AllocSt where
  bm : Mem
  live : List Extent

structure AllocOut where
  findRc : Int
  /-- The answer of `bm_set_extent`, when it is called. -/
  setRc : Option Int
  st : AllocSt

def allocate (totalBits : Nat) (st : AllocSt) (bitAddress count gapSize : Nat) : Option AllocOut := do
  let found ← bmFind st.bm totalBits bitAddress count gapSize
  if found.rc = 0 then
    let out := bmSetExtent st.bm totalBits found.foundAddress gapSize SETBIT
    some ⟨found.rc, some out.rc, ⟨out.bm, ⟨found.foundAddress, gapSize⟩ :: st.live⟩⟩
  else some ⟨found.rc, none, st⟩

def free (totalBits : Nat) (st : AllocSt) (e : Extent) : Int × AllocSt :=
  let out := bmSetExtent st.bm totalBits e.start e.len CLEARBIT
  (out.rc, ⟨out.bm, st.live.erase e⟩)

inductive Reach (totalBits : Nat) : AllocSt → Prop
  | zero (bm : Mem) : Reach totalBits ⟨bmZero bm totalBits, []⟩
  | allocate {st : AllocSt} {out : AllocOut} (bitAddress count gapSize : Nat) : Reach totalBits st →
      bitAddress + count < 2 ^ 64 → allocate totalBits st bitAddress count gapSize = some out → Reach totalBits out.st
  | free {st : AllocSt} (e : Extent) : Reach totalBits st → e ∈ st.live → Reach totalBits (free totalBits st e).2

structure AllocInv (totalBits : Nat) (st : AllocSt) : Prop where
  allocated : Allocated st.bm totalBits st.live
  nonempty : ∀ e ∈ st.live, 0 < e.len

section
variable {totalBits : Nat} {st : AllocSt}

theorem bmSetExtent_rc {bm : Mem} {a n : Nat} (clearOrSet : Int) (ht : totalBits < 2 ^ 64) (ha : a < totalBits)
    (hn : a + n ≤ totalBits) : (bmSetExtent bm totalBits a n clearOrSet).rc = 0 :=
  bmSetExtent_accepted bm clearOrSet (by rw [u64_of_lt (by omega)]; omega)

/-- One allocation: refused for want of room, or for its arguments, or an extent claimed. -/
theorem allocate_step (ht : totalBits < 2 ^ 31) (hi : AllocInv totalBits st) (bitAddress count gapSize : Nat)
    (hac : bitAddress + count < 2 ^ 64) :
    ∃ out, allocate totalBits st bitAddress count gapSize = some out ∧ AllocInv totalBits out.st ∧
      (∀ rc ∈ out.setRc, rc = 0) ∧
      (out.findRc ≠ 0 → bitAddress < totalBits → 0 < gapSize → gapSize ≤ count →
        NoRun (bitAt st.bm) false gapSize bitAddress (windowEnd totalBits bitAddress count)) := by
  by_cases hargs : totalBits ≤ bitAddress ∨ gapSize = 0 ∨ count = 0 ∨ count < gapSize
  · refine ⟨⟨-1, none, st⟩, ?_, hi, fun rc h => (by cases h), fun _ h1 h2 h3 => by omega⟩
    rw [allocate, bmFind_refused st.bm hargs]
    rfl
  obtain ⟨out, hout, hans⟩ := bmFind_spec st.bm ht hac (by omega) (show 0 < gapSize by omega) (by omega)
  have hwin : windowEnd totalBits bitAddress count ≤ totalBits := Nat.min_le_right _ _
  rcases hans with ⟨hrc, hfirst⟩ | ⟨hrc, -, hno⟩
  · have hend : out.foundAddress + gapSize ≤ totalBits := Nat.le_trans hfirst.le hwin
    have hset : (bmSetExtent st.bm totalBits out.foundAddress gapSize SETBIT).rc = 0 :=
      bmSetExtent_rc SETBIT (by omega) (by omega) hend
    have hclaim := hi.allocated.claim hend hfirst.run
      (bmSetExtent_written st.bm SETBIT (by omega) hend (by omega) (Or.inr rfl))
    refine ⟨⟨out.rc, some (bmSetExtent st.bm totalBits out.foundAddress gapSize SETBIT).rc, ⟨_, _⟩⟩, ?_,
      ⟨hclaim, ?_⟩, ?_,
      fun h => absurd hrc h⟩
    · simp only [allocate, hout, Option.bind_eq_bind, Option.bind_some, hrc, if_true]
    · intro e he
      rcases List.mem_cons.mp he with rfl | he
      · show 0 < gapSize
        omega
      · exact hi.nonempty e he
    · intro rc r
      cases r
      exact hset
  · refine ⟨⟨out.rc, none, st⟩, ?_, hi, fun rc h => (by cases h), fun _ _ _ _ => hno⟩
    have hne : ¬ out.rc = 0 := by omega
    simp only [allocate, hout, Option.bind_eq_bind, Option.bind_some, hne, if_false]

theorem free_step (ht : totalBits < 2 ^ 31) (hi : AllocInv totalBits st) {e : Extent} (he : e ∈ st.live) :
    (free totalBits st e).1 = 0 ∧ AllocInv totalBits (free totalBits st e).2 := by
  have hend := hi.allocated.inside e he
  have hlen := hi.nonempty e he
  refine ⟨bmSetExtent_rc CLEARBIT (by omega) (by omega) hend, ?_,
    fun e' he' => hi.nonempty e' (List.mem_of_mem_erase he')⟩
  exact (hi.allocated.first he).release (bmSetExtent_written st.bm CLEARBIT (by omega) hend (by omega) (Or.inl rfl))

theorem reach_inv (ht : totalBits < 2 ^ 31) (h : Reach totalBits st) : AllocInv totalBits st := by
  induction h with
  | zero bm => exact ⟨bmZero_allocated bm (by omega), List.forall_mem_nil _⟩
  | allocate bitAddress count gapSize _ hac hout ih =>
    obtain ⟨out', hout', hinv, -⟩ := allocate_step ht ih _ _ gapSize hac
    rw [hout] at hout'
    cases hout'
    exact hinv
  | free e _ he ih => exact (free_step ht ih he).2

/-- The bookkeeping of a serialized user of the map, in every reachable state. -/
theorem allocator_safe (ht : totalBits < 2 ^ 31) (h : Reach totalBits st) :
    st.live.Pairwise Extent.Apart ∧
    (∀ e ∈ st.live, e.start + e.len ≤ totalBits) ∧
    (∀ i < totalBits, bmGetBit st.bm totalBits i = 1 ↔ ∃ e ∈ st.live, e.Covers i) ∧
    bmPopcount st.bm totalBits = (st.live.map Extent.len).sum ∧
    (∀ bitAddress count gapSize, bitAddress + count < 2 ^ 64 →
      ∃ out, allocate totalBits st bitAddress count gapSize = some out ∧ (∀ rc ∈ out.setRc, rc = 0) ∧
        (out.findRc ≠ 0 → bitAddress < totalBits → 0 < gapSize → gapSize ≤ count →
          NoRun (bitAt st.bm) false gapSize bitAddress (windowEnd totalBits bitAddress count))) ∧
    ∀ e ∈ st.live, (free totalBits st e).1 = 0 := by
  have hi := reach_inv ht h
  refine ⟨hi.allocated.apart, hi.allocated.inside, fun i hlt => ?_, hi.allocated.popcount (by omega), ?_, ?_⟩
  · rw [bmGetBit_eq st.bm hlt, ← hi.allocated.bits i hlt]
    cases bitAt st.bm i <;> decide
  · intro bitAddress count gapSize hac
    obtain ⟨out, hout, -, hset, hroom⟩ := allocate_step ht hi bitAddress count gapSize hac
    exact ⟨out, hout, hset, hroom⟩
  · exact fun e he => (free_step ht hi he).1

/-- Three extents are claimed in a map of ten and the middle one is freed: five bits in two extents are left. -/
theorem allocator_safe_ten :
    ∃ st, Reach 10 st ∧ st.live = [⟨7, 2⟩, ⟨0, 3⟩] ∧ st.live.Pairwise Extent.Apart ∧ bmPopcount st.bm 10 = 5 := by
  obtain ⟨first, second, third, h1, h2, h3, hlive⟩ : ∃ first second third,
      allocate 10 ⟨bmZero (fun _ => 0xff) 10, []⟩ 0 10 3 = some first ∧ allocate 10 first.st 0 10 4 = some second ∧
        allocate 10 second.st 0 10 2 = some third ∧ third.st.live = [⟨7, 2⟩, ⟨3, 4⟩, ⟨0, 3⟩] :=
    ⟨_, _, _, rfl, rfl, rfl, rfl⟩
  have hthree : Reach 10 third.st :=
    .allocate 0 10 2 (.allocate 0 10 4 (.allocate 0 10 3 (.zero _) (by decide) h1) (by decide) h2) (by decide) h3
  have hr : Reach 10 (free 10 third.st ⟨3, 4⟩).2 := .free ⟨3, 4⟩ hthree (by rw [hlive]; decide)
  have hleft : (free 10 third.st ⟨3, 4⟩).2.live = [⟨7, 2⟩, ⟨0, 3⟩] := by
    show third.st.live.erase ⟨3, 4⟩ = _
    rw [hlive]
    decide
  obtain ⟨hapart, -, -, hpopcount, -⟩ := allocator_safe (by decide) hr
  refine ⟨_, hr, hleft, hapart, ?_⟩
  rw [hpopcount, hleft]
  rfl

end

end KanekFoundations.Map

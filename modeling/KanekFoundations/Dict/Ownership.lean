/-
  KanekFoundations.Dict.Ownership — the values of a dictionary and `ta_free`.

  A value is a block, told apart from every other ever allocated. The contract of
  `dict.h`: a value passed to a set is fresh, or is the one already stored under that
  key. Proved, for every run that keeps it: no stored value has been freed, no value is
  freed twice, `dict_set_owned` frees just the value it replaces by another one, and
  `dict_set` and `dict_del` free none (`ownership_safe`).
-/

import KanekFoundations.Dict.DictProofs

namespace KanekFoundations.Dict

open KanekFoundations.Lib

variable {K V : Type}

/-! ## Stored, seen and freed values -/

structure Owned (stored seen freed : List V) : Prop where
  stored_nodup : stored.Nodup
  stored_seen : ∀ v ∈ stored, v ∈ seen
  live : ∀ v ∈ stored, v ∉ freed
  freed_nodup : freed.Nodup
  freed_seen : ∀ v ∈ freed, v ∈ seen

section
variable {stored rest seen freed : List V} {old val : Option V}

theorem Owned.perm {stored' : List V} (h : Owned stored seen freed) (hp : stored'.Perm stored) :
    Owned stored' seen freed :=
  ⟨hp.nodup_iff.mpr h.stored_nodup, fun v hv => h.stored_seen v (hp.mem_iff.mp hv),
    fun v hv => h.live v (hp.mem_iff.mp hv),
    h.freed_nodup, h.freed_seen⟩

/-- A value that is passed in is seen, whatever becomes of it. -/
theorem Owned.pass (h : Owned stored seen freed) : Owned stored (val.toList ++ seen) freed :=
  ⟨h.stored_nodup, fun v hv => List.mem_append_right _ (h.stored_seen v hv), h.live, h.freed_nodup,
    fun v hv => List.mem_append_right _ (h.freed_seen v hv)⟩

theorem Owned.drop (h : Owned (old.toList ++ rest) seen freed) : Owned rest seen freed :=
  ⟨(List.nodup_append.mp h.stored_nodup).2.1, fun v hv => h.stored_seen v (List.mem_append_right _ hv),
    fun v hv => h.live v (List.mem_append_right _ hv), h.freed_nodup, h.freed_seen⟩

/-- A fresh value, or the old one again, takes the old one's place. -/
theorem Owned.replace (h : Owned (old.toList ++ rest) seen freed) (hval : ∀ v, val = some v → v ∉ seen ∨ old = some v) :
    Owned (val.toList ++ rest) (val.toList ++ seen) freed := by
  cases val with
  | none => exact h.drop
  | some v =>
    rcases hval v rfl with hv | rfl
    · have hd := h.drop
      refine ⟨List.nodup_cons.mpr ⟨fun hm => hv (hd.stored_seen v hm), hd.stored_nodup⟩, ?_, ?_, hd.freed_nodup, ?_⟩
      · intro w hw
        rcases List.mem_cons.mp hw with rfl | hw
        · exact List.mem_cons_self
        · exact List.mem_cons_of_mem _ (hd.stored_seen w hw)
      · intro w hw
        rcases List.mem_cons.mp hw with rfl | hw
        · exact fun hf => hv (hd.freed_seen w hf)
        · exact hd.live w hw
      · exact fun w hw => List.mem_cons_of_mem _ (hd.freed_seen w hw)
    · exact h.pass

/-- The old value can be freed when it is another one that is stored. -/
theorem Owned.free (h : Owned (old.toList ++ rest) seen freed) (hval : ∀ v, val = some v → v ∉ seen ∨ old = some v)
    (hne : old ≠ val) : Owned (val.toList ++ rest) (val.toList ++ seen) (freed ++ old.toList) := by
  have hr := h.replace hval
  cases old with
  | none =>
    rw [Option.toList_none, List.append_nil]
    exact hr
  | some o =>
    have ho : o ∉ freed := h.live o List.mem_cons_self
    have hseen : o ∈ seen := h.stored_seen o List.mem_cons_self
    have hnot : o ∉ val.toList ++ rest := by
      intro hm
      rcases List.mem_append.mp hm with hm | hm
      · have hv : val = some o := Option.mem_toList.mp hm
        exact hne hv.symm
      · exact (List.nodup_cons.mp h.stored_nodup).1 hm
    refine ⟨hr.stored_nodup, hr.stored_seen, fun w hw hf => ?_, ?_, fun w hw => ?_⟩
    · rcases List.mem_append.mp hf with hf | hf
      · exact hr.live w hw hf
      · rw [List.mem_singleton.mp hf] at hw
        exact hnot hw
    · refine List.nodup_append.mpr ⟨h.freed_nodup, List.nodup_singleton o, fun w hw w' hw' => ?_⟩
      rw [List.mem_singleton.mp hw']
      intro heq
      subst heq
      exact ho hw
    · rcases List.mem_append.mp hw with hw | hw
      · exact hr.freed_seen w hw
      · rw [List.mem_singleton.mp hw]
        exact List.mem_append_right _ hseen

end

/-! ## Runs -/

/-- The values stored in the table. -/
def stored (d : Dict K V) : List V := d.entries.filterMap Entry.val

/-- The values among the blocks a call frees. -/
def freedVals (freed : List (Freed K V)) : List V :=
  freed.filterMap fun block => match block with | .val v => some v | _ => none

theorem freedVals_nil {freed : List (Freed K V)} (h : ∀ v, Freed.val v ∉ freed) : freedVals freed = [] := by
  refine List.filterMap_eq_nil_iff.mpr fun block hb => ?_
  cases block with
  | val v => exact absurd hb (h v)
  | entry | table => rfl

theorem freedVals_map (vs : List V) : freedVals (vs.map (Freed.val (K := K))) = vs := by
  simp [freedVals, List.filterMap_map]

theorem stored_perm {d : Dict K V} {key : K} {old : Option V} {rest : List (Entry K V)}
    (h : d.entries.Perm (⟨key, old⟩ :: rest)) : (stored d).Perm (old.toList ++ rest.filterMap Entry.val) := by
  have := h.filterMap Entry.val
  cases old <;> simpa [stored] using this

section
variable [DecidableEq K] {hash : K → BitVec 32}

theorem dictGet_of_perm {d : Dict K V} (h : Inv hash d) {key : K} {old : Option V} {rest : List (Entry K V)}
    (hp : d.entries.Perm (⟨key, old⟩ :: rest)) : dictGet hash d (some key) = old := by
  have hf := (dictFind_some h key ⟨key, old⟩).mpr ⟨hp.mem_iff.mpr List.mem_cons_self, rfl⟩
  show (dictFind hash d key).bind Entry.val = old
  rw [hf]
  rfl

theorem dictGet_absent {d : Dict K V} (h : Inv hash d) {key : K} (hno : ∀ e ∈ d.entries, e.key ≠ key) :
    dictGet hash d (some key) = none := by
  show (dictFind hash d key).bind Entry.val = none
  rw [(dictFind_none h key).mpr hno]
  rfl

end

structure Hist (K V : Type) where
  d : Dict K V
  seen : List V
  freed : List V

section
variable [DecidableEq K] {hash : K → BitVec 32} {s : Hist K V}

/-- The ownership contract of a set. -/
def Allowed (hash : K → BitVec 32) (s : Hist K V) (key : Option K) (val : Option V) : Prop :=
  ∀ v, val = some v → v ∉ s.seen ∨ dictGet hash s.d key = some v

def Hist.after (s : Hist K V) (r : Out K V) (val : Option V) : Hist K V :=
  ⟨r.d, val.toList ++ s.seen, s.freed ++ freedVals r.freed⟩

structure OwnInv (hash : K → BitVec 32) (s : Hist K V) : Prop where
  table : Inv hash s.d
  owned : Owned (stored s.d) s.seen s.freed

theorem del_inv (h : OwnInv hash s) (key : Option K) :
    OwnInv hash (s.after (dictDel hash s.d key) none) ∧ freedVals (dictDel hash s.d key).freed = [] := by
  cases key with
  | none =>
    refine ⟨⟨h.table, ?_⟩, rfl⟩
    show Owned _ _ (s.freed ++ [])
    rw [List.append_nil]
    exact h.owned
  | some key =>
    obtain ⟨hinv, hcases⟩ := dictDel_cases h.table key
    rcases hcases with ⟨old, hperm, -, hfreed⟩ | ⟨-, hr⟩
    · have hnil : freedVals (dictDel hash s.d (some key)).freed = [] := by rw [hfreed]; rfl
      refine ⟨⟨hinv, ?_⟩, hnil⟩
      rw [Hist.after, hnil, List.append_nil]
      exact (h.owned.perm (stored_perm hperm).symm).drop
    · rw [hr]
      refine ⟨⟨h.table, ?_⟩, rfl⟩
      show Owned _ _ (s.freed ++ [])
      rw [List.append_nil]
      exact h.owned

variable [DecidableEq V]

/-- `dict_get` changes nothing and has no step. -/
inductive Reach (hash : K → BitVec 32) : Hist K V → Prop
  | new {bucketCount : BitVec 32} {dictOk tableOk : Bool} {d : Dict K V} :
      dictNewSized bucketCount dictOk tableOk = some d → Reach hash ⟨d, [], []⟩
  | set {s : Hist K V} (key : Option K) (val : Option V) (entryOk tableOk : Bool) : Reach hash s →
    Allowed hash s key val →
      Reach hash (s.after (dictSet hash s.d key val entryOk tableOk) val)
  | setOwned {s : Hist K V} (key : Option K) (val : Option V) (entryOk tableOk : Bool) : Reach hash s →
    Allowed hash s key val →
      Reach hash (s.after (dictSetOwned hash s.d key val entryOk tableOk) val)
  | del {s : Hist K V} (key : Option K) : Reach hash s → Reach hash (s.after (dictDel hash s.d key) none)

/-- What a set frees: the value it replaces by a different one, if it owns it. -/
theorem set_freed {d : Dict K V} (h : Inv hash d) (key : Option K) (val : Option V) (freeOld entryOk tableOk : Bool) :
    freedVals (dictSetImpl hash d key val freeOld entryOk tableOk).freed =
      if freeOld = true ∧ dictGet hash d key ≠ val then (dictGet hash d key).toList else [] := by
  cases key with
  | none =>
    show freedVals [] = if _ then [] else []
    rw [ite_self]
    rfl
  | some key =>
    obtain ⟨-, hcases⟩ := dictSetImpl_cases h key val freeOld entryOk tableOk
    rcases hcases with ⟨old, rest, hold, -, -, hfreed⟩ | ⟨hno, -, -, hfreed⟩ | ⟨hno, -, hr⟩
    · rw [hfreed, dictGet_of_perm h hold]
      split
      · exact freedVals_map _
      · rfl
    · rw [freedVals_nil hfreed, dictGet_absent h hno, Option.toList_none, ite_self]
    · rw [hr, dictGet_absent h hno, Option.toList_none, ite_self]
      rfl

theorem set_inv (h : OwnInv hash s) {key : Option K} {val : Option V} (hval : Allowed hash s key val)
    (freeOld entryOk tableOk : Bool) :
      OwnInv hash (s.after (dictSetImpl hash s.d key val freeOld entryOk tableOk) val) := by
  have hfreed := set_freed h.table key val freeOld entryOk tableOk
  cases key with
  | none =>
    refine ⟨h.table, ?_⟩
    rw [Hist.after, hfreed]
    show Owned (stored s.d) (val.toList ++ s.seen) (s.freed ++ if _ then [] else [])
    rw [ite_self, List.append_nil]
    exact h.owned.pass
  | some key =>
    obtain ⟨hinv, hcases⟩ := dictSetImpl_cases h.table key val freeOld entryOk tableOk
    refine ⟨hinv, ?_⟩
    rw [Hist.after, hfreed]
    rcases hcases with ⟨old, rest, hold, hnew, -, -⟩ | ⟨hno, hnew, -, -⟩ | ⟨hno, -, hr⟩
    · have hget := dictGet_of_perm h.table hold
      have howned := h.owned.perm (stored_perm hold).symm
      have hval' : ∀ v, val = some v → v ∉ s.seen ∨ old = some v := fun v hv => hget ▸ hval v hv
      refine Owned.perm ?_ (stored_perm hnew)
      rw [hget]
      split
      · rename_i hne
        exact howned.free hval' hne.2
      · rw [List.append_nil]
        exact howned.replace hval'
    · have hget := dictGet_absent h.table hno
      have hval' : ∀ v, val = some v → v ∉ s.seen ∨ none = some v := fun v hv => hget ▸ hval v hv
      have howned : Owned ((none : Option V).toList ++ stored s.d) s.seen s.freed := h.owned
      refine Owned.perm ?_ (stored_perm hnew)
      rw [hget, Option.toList_none, ite_self, List.append_nil]
      exact howned.replace hval'
    · rw [dictGet_absent h.table hno, Option.toList_none, ite_self, List.append_nil, hr]
      exact h.owned.pass

theorem reach_inv (h : Reach hash s) : OwnInv hash s := by
  induction h with
  | new hnew =>
    obtain ⟨hinv, hempty⟩ : Inv hash _ ∧ _ := dictNewSized_inv hnew
    refine ⟨hinv, ?_⟩
    rw [stored, hempty]
    exact ⟨List.nodup_nil, List.forall_mem_nil _, List.forall_mem_nil _, List.nodup_nil, List.forall_mem_nil _⟩
  | set key val entryOk tableOk _ hval ih => exact set_inv ih hval false entryOk tableOk
  | setOwned key val entryOk tableOk _ hval ih => exact set_inv ih hval true entryOk tableOk
  | del key _ ih => exact (del_inv ih key).1

/-- In every run that keeps the contract: what `dict_get` answers was never freed, nothing
    is freed twice, and only `dict_set_owned` frees a value, the one it replaces. -/
theorem ownership_safe (h : Reach hash s) :
    (∀ key v, dictGet hash s.d key = some v → v ∉ s.freed) ∧
    s.freed.Nodup ∧
    (∀ key val entryOk tableOk, freedVals (dictSetOwned hash s.d key val entryOk tableOk).freed =
      if dictGet hash s.d key ≠ val then (dictGet hash s.d key).toList else []) ∧
    (∀ key val entryOk tableOk, freedVals (dictSet hash s.d key val entryOk tableOk).freed = []) ∧
    ∀ key, freedVals (dictDel hash s.d key).freed = [] := by
  have hinv := reach_inv h
  refine ⟨fun key v hget => hinv.owned.live v ?_, hinv.owned.freed_nodup, ?_, ?_, fun key => (del_inv hinv key).2⟩
  · cases key with
    | none => cases hget
    | some key =>
      obtain ⟨e, hf, hval⟩ := Option.bind_eq_some_iff.mp hget
      exact List.mem_filterMap.mpr ⟨e, ((dictFind_some hinv.table key e).mp hf).1, hval⟩
  · intro key val entryOk tableOk
    have := set_freed hinv.table key val true entryOk tableOk
    simpa only [dictSetOwned, true_and] using this
  · intro key val entryOk tableOk
    have := set_freed hinv.table key val false entryOk tableOk
    simpa only [dictSet, Bool.false_eq_true, false_and, if_false] using this

/-- A value stored, refreshed by itself, replaced by another and the key deleted: the
    first value is freed, once. -/
theorem ownership_safe_refreshed :
    ∃ s : Hist Nat Nat, Reach (fun _ => 0) s ∧ s.freed = [7] ∧ dictGet (fun _ => 0) s.d (some 1) = none ∧
      s.freed.Nodup := by
  have hnew : dictNewSized 4 true true = some (⟨List.replicate 4 [], 4, 0⟩ : Dict Nat Nat) := rfl
  have h0 : Reach (fun _ => 0) _ := .new hnew
  have h1 := Reach.setOwned (some 1) (some 7) true true h0 fun v _ => .inl List.not_mem_nil
  have h2 := Reach.setOwned (some 1) (some 7) true true h1 fun v hv => .inr (by cases hv; decide)
  have h3 := Reach.setOwned (some 1) (some 8) true true h2 fun v hv => .inl (by cases hv; decide)
  have h4 := Reach.del (some 1) h3
  exact ⟨_, h4, by decide, by decide, (ownership_safe h4).2.1⟩

end

end KanekFoundations.Dict

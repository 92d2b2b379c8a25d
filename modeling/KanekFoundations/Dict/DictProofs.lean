/-
  KanekFoundations.Dict.DictProofs — the table invariant of the dictionary, and that the
  dictionary refines a finite map.

  Each operation is described once, by what it does to the entries up to their order
  (`dictRehash_spec`, `dictSetImpl_cases`, `dictDel_cases`), and keeps the invariant.
  Over any sequence of operations, with any allocations failing, the lookups then answer
  as the finite map that the operations answered with 0 build (`dict_refines_map`).
-/

import KanekFoundations.Dict.Dict

namespace KanekFoundations.Dict

open KanekFoundations.Lib

variable {K V : Type} {hash : K → BitVec 32} {d : Dict K V}

def entries (d : Dict K V) : List (Entry K V) := d.buckets.flatten

structure Inv (hash : K → BitVec 32) (d : Dict K V) : Prop where
  pow2 : d.nbuckets.toNat.isPowerOfTwo
  four : 4 ≤ d.nbuckets.toNat
  size : d.buckets.length = d.nbuckets.toNat
  placed : Placed (fun e => bucketForN hash e.key d.nbuckets) d.buckets
  nodup : (d.entries.map Entry.key).Nodup
  counted : d.count = d.entries.length

/-! ## Bucket counts -/

theorem pred_toNat {n : BitVec 32} (h : 0 < n.toNat) : (n - 1).toNat = n.toNat - 1 := by
  have := n.isLt
  rw [BitVec.toNat_sub]
  show (2 ^ 32 - 1 + n.toNat) % 2 ^ 32 = _
  omega

theorem isPowerOfTwo_iff (n : BitVec 32) : isPowerOfTwo n = true ↔ n.toNat.isPowerOfTwo := by
  rw [← Nat.ne_zero_and_sub_one_eq_zero_iff_isPowerOfTwo]
  unfold isPowerOfTwo
  rw [Bool.and_eq_true, decide_eq_true_eq, beq_iff_eq, BitVec.lt_def]
  have hpos : (0#32).toNat < n.toNat ↔ n.toNat ≠ 0 := Nat.pos_iff_ne_zero
  refine and_congr_right_iff.mpr ?_ |>.trans (and_congr_left' hpos)
  intro h0
  rw [← BitVec.toNat_inj, BitVec.toNat_and, pred_toNat h0]
  rfl

theorem bucketForN_lt (hash : K → BitVec 32) (key : K) {n : BitVec 32} (h : 4 ≤ n.toNat) :
    bucketForN hash key n < n.toNat := by
  have hle : bucketForN hash key n ≤ (n - 1).toNat := by
    unfold bucketForN
    rw [BitVec.toNat_and]
    exact Nat.and_le_right
  have hsub := pred_toNat (n := n) (by omega)
  omega

theorem valid_bucket_count {n : BitVec 32} (h : ¬ (n < 4 ∨ isPowerOfTwo n = false)) :
    n.toNat.isPowerOfTwo ∧ 4 ≤ n.toNat := by
  rw [not_or, Bool.not_eq_false, isPowerOfTwo_iff, BitVec.not_lt, BitVec.le_def] at h
  exact ⟨h.2, h.1⟩

theorem dictNewSized_inv {bucketCount : BitVec 32} {dictOk tableOk : Bool}
    (h : dictNewSized bucketCount dictOk tableOk = some d) : Inv hash d ∧ d.entries = [] := by
  unfold dictNewSized at h
  split at h
  · cases h
  · rename_i hvalid
    split at h
    · cases h
    split at h
    · cases h
    obtain rfl := Option.some.inj h
    obtain ⟨hp, h4⟩ := valid_bucket_count hvalid
    have hempty : (⟨List.replicate bucketCount.toNat [], bucketCount, 0⟩ : Dict K V).entries = [] := by
      simp [entries]
    refine ⟨⟨hp, h4, List.length_replicate, placed_replicate _, ?_, ?_⟩, hempty⟩
    · rw [hempty]; exact List.nodup_nil
    · rw [hempty]; rfl

/-- The loops come to entries of the table only. -/
theorem mem_of_visited {e : Entry K V} (he : e ∈ d.visited) : e ∈ d.entries := by
  obtain ⟨b, -, hmem⟩ := List.mem_flatMap.mp he
  by_cases hb : b < d.buckets.length
  · exact mem_chainAt_flatten hb hmem
  · rw [chainAt, List.getD_eq_getElem?_getD, List.getElem?_eq_none (Nat.le_of_not_lt hb)] at hmem
    cases hmem

/-! ## Looking up -/

section
variable (h : Inv hash d)
include h

theorem Inv.bucket_lt (key : K) : bucketForN hash key d.nbuckets < d.buckets.length :=
  h.size ▸ bucketForN_lt hash key h.four

theorem Inv.mem_iff (e : Entry K V) : e ∈ d.entries ↔ e ∈ chainAt d.buckets (bucketForN hash e.key d.nbuckets) :=
  h.placed.mem_iff (h.bucket_lt e.key)

/-- Two entries with one key are one entry. -/
theorem Inv.key_inj {e e' : Entry K V} (he : e ∈ d.entries) (he' : e' ∈ d.entries) (hk : e.key = e'.key) : e = e' :=
  List.inj_on_of_nodup_map h.nodup he he' hk

variable [DecidableEq K]

theorem dictFind_some (key : K) (e : Entry K V) : dictFind hash d key = some e ↔ e ∈ d.entries ∧ e.key = key := by
  constructor
  · intro hf
    have hkey : e.key = key := by simpa using List.find?_some hf
    have hmem := List.mem_of_find?_eq_some hf
    rw [← hkey] at hmem
    exact ⟨(h.mem_iff e).mpr hmem, hkey⟩
  · intro hfound
    obtain ⟨he, rfl⟩ := hfound
    have hmem := (h.mem_iff e).mp he
    obtain ⟨e', hf⟩ : ∃ e', dictFind hash d e.key = some e' := by
      rw [← Option.isSome_iff_exists]
      exact List.find?_isSome.mpr ⟨e, hmem, by simp⟩
    have hkey : e'.key = e.key := by simpa using List.find?_some hf
    have hmem' := List.mem_of_find?_eq_some hf
    rw [← hkey] at hmem'
    rw [hf, h.key_inj ((h.mem_iff e').mpr hmem') he hkey]

theorem dictFind_none (key : K) : dictFind hash d key = none ↔ ∀ e ∈ d.entries, e.key ≠ key := by
  constructor
  · intro hf e he hkey
    rw [(dictFind_some h key e).mpr ⟨he, hkey⟩] at hf
    cases hf
  · intro hno
    cases hf : dictFind hash d key with
    | none => rfl
    | some e =>
      obtain ⟨he, hkey⟩ := (dictFind_some h key e).mp hf
      exact absurd hkey (hno e he)

end

/-! ## Rehashing -/

/-- The nested loops move the entries of the table, chain by chain. -/
theorem rehash_moveAll (h : d.buckets.length = d.nbuckets.toNat) (idx : Entry K V → Nat)
    (new : List (List (Entry K V))) :
    (List.range d.nbuckets.toNat).foldl
    (fun new i => (chainAt d.buckets i).foldl (fun new e => addTail new (idx e) e) new) new =
      moveAll idx new d.entries := by
  have hmap : d.buckets = (List.range d.nbuckets.toNat).map (chainAt d.buckets) := by
    refine List.ext_getElem (by simp [h]) fun i h1 h2 => ?_
    rw [List.getElem_map, List.getElem_range]
    exact (List.getD_eq_getElem _ _ h1).symm
  unfold moveAll entries
  conv_rhs => rw [hmap]
  rw [List.foldl_flatten, List.foldl_map]

/-- A rehash keeps the entries, up to order, and frees no value; refused, it changes nothing. -/
theorem dictRehash_spec (h : Inv hash d) (n : BitVec 32) (tableOk : Bool) :
    Inv hash (dictRehash hash d n tableOk).d ∧ (dictRehash hash d n tableOk).d.entries.Perm d.entries ∧
      (∀ v, Freed.val v ∉ (dictRehash hash d n tableOk).freed) := by
  unfold dictRehash
  split
  · exact ⟨h, .refl _, fun _ => List.not_mem_nil⟩
  rename_i hvalid
  split
  · exact ⟨h, .refl _, fun _ => List.not_mem_nil⟩
  obtain ⟨hp, h4⟩ := valid_bucket_count hvalid
  have hlt : ∀ e ∈ d.entries, bucketForN hash e.key n < (List.replicate n.toNat ([] : List (Entry K V))).length := by
    intro e _
    rw [List.length_replicate]
    exact bucketForN_lt hash e.key h4
  obtain ⟨hplaced, hperm⟩ := moveAll_spec (placed_replicate n.toNat) hlt
  rw [List.flatten_replicate_nil, List.nil_append] at hperm
  simp only [rehash_moveAll h.size fun e => bucketForN hash e.key n]
  refine ⟨⟨hp, h4, ?_, hplaced, ?_, ?_⟩, hperm, by simp⟩
  · rw [moveAll_length, List.length_replicate]
  · exact (hperm.map Entry.key).nodup_iff.mpr h.nodup
  · show d.count = _
    rw [h.counted]
    exact hperm.length_eq.symm

/-! ## Setting and deleting -/

/-- A key that its chain does not hold is nowhere in the table. -/
theorem Inv.absent (h : Inv hash d) {key : K}
    (hno : ∀ e ∈ chainAt d.buckets (bucketForN hash key d.nbuckets), e.key ≠ key) : ∀ e ∈ d.entries, e.key ≠ key := by
  intro e he heq
  subst heq
  exact hno e ((h.mem_iff e).mp he) rfl

/-- One chain replaced, by one that holds keys of its bucket, no key twice. -/
theorem Inv.withChain (h : Inv hash d) {key : K} {chain : List (Entry K V)} {count : Nat}
    (hkeys : ∀ e ∈ chain, bucketForN hash e.key d.nbuckets = bucketForN hash key d.nbuckets) {es : List (Entry K V)}
    (hperm : (d.buckets.set (bucketForN hash key d.nbuckets) chain).flatten.Perm es) (hnodup : (es.map Entry.key).Nodup)
    (hcount : count = es.length) :
    Inv hash ⟨d.buckets.set (bucketForN hash key d.nbuckets) chain, d.nbuckets, count⟩ := by
  refine ⟨h.pow2, h.four, ?_, h.placed.set hkeys, ?_, ?_⟩
  · show (d.buckets.set _ chain).length = d.nbuckets.toNat
    rw [List.length_set, h.size]
  · exact (hperm.map Entry.key).nodup_iff.mpr hnodup
  · show count = _
    rw [hcount]
    exact hperm.length_eq.symm

section
variable [DecidableEq K]

theorem updateChain_some {key : K} {val old : Option V} {chain chain' : List (Entry K V)}
    (h : updateChain key val chain = some (chain', old)) :
    ∃ pre post, chain = pre ++ ⟨key, old⟩ :: post ∧ chain' = pre ++ ⟨key, val⟩ :: post := by
  induction chain generalizing chain' with
  | nil => cases h
  | cons e es ih =>
    unfold updateChain at h
    split at h
    · rename_i hkey
      obtain ⟨rfl, rfl⟩ := Prod.mk.inj (Option.some.inj h)
      exact ⟨[], es, by rw [← hkey]; rfl, by rw [← hkey]; rfl⟩
    · obtain ⟨⟨es', old'⟩, hr, heq⟩ := Option.map_eq_some_iff.mp h
      obtain ⟨rfl, rfl⟩ := Prod.mk.inj heq
      obtain ⟨pre, post, rfl, rfl⟩ := ih hr
      exact ⟨e :: pre, post, rfl, rfl⟩

theorem updateChain_none {key : K} {val : Option V} {chain : List (Entry K V)} :
    updateChain key val chain = none ↔ ∀ e ∈ chain, e.key ≠ key := by
  induction chain with
  | nil => exact ⟨fun _ => List.forall_mem_nil _, fun _ => rfl⟩
  | cons e es ih =>
    unfold updateChain
    rw [List.forall_mem_cons]
    split
    · rename_i hkey
      exact ⟨fun h => by (cases h), fun h => absurd hkey h.1⟩
    · rename_i hkey
      rw [Option.map_eq_none_iff, ih]
      exact ⟨fun h => ⟨hkey, h⟩, fun h => h.2⟩

theorem unlinkChain_some {key : K} {e : Entry K V} {chain chain' : List (Entry K V)}
    (h : unlinkChain key chain = some (chain', e)) :
    ∃ pre post, chain = pre ++ e :: post ∧ chain' = pre ++ post ∧ e.key = key := by
  induction chain generalizing chain' with
  | nil => cases h
  | cons e' es ih =>
    unfold unlinkChain at h
    split at h
    · rename_i hkey
      obtain ⟨rfl, rfl⟩ := Prod.mk.inj (Option.some.inj h)
      exact ⟨[], _, rfl, rfl, hkey⟩
    · obtain ⟨⟨es', e''⟩, hr, heq⟩ := Option.map_eq_some_iff.mp h
      obtain ⟨rfl, rfl⟩ := Prod.mk.inj heq
      obtain ⟨pre, post, rfl, rfl, hkey⟩ := ih hr
      exact ⟨e' :: pre, post, rfl, rfl, hkey⟩

theorem unlinkChain_none {key : K} {chain : List (Entry K V)} :
    unlinkChain key chain = none ↔ ∀ e ∈ chain, e.key ≠ key := by
  induction chain with
  | nil => exact ⟨fun _ => List.forall_mem_nil _, fun _ => rfl⟩
  | cons e es ih =>
    unfold unlinkChain
    rw [List.forall_mem_cons]
    split
    · rename_i hkey
      exact ⟨fun h => by (cases h), fun h => absurd hkey h.1⟩
    · rename_i hkey
      rw [Option.map_eq_none_iff, ih]
      exact ⟨fun h => ⟨hkey, h⟩, fun h => h.2⟩

/-- A set with a key: the value of its entry is replaced, or an entry is added, or there
    is no memory for one and nothing changes. -/
theorem dictSetImpl_cases [DecidableEq V] (h : Inv hash d) (key : K) (val : Option V) (freeOld entryOk tableOk : Bool) :
    let r := dictSetImpl hash d (some key) val freeOld entryOk tableOk
    Inv hash r.d ∧
      ((∃ old rest, d.entries.Perm (⟨key, old⟩ :: rest) ∧ r.d.entries.Perm (⟨key, val⟩ :: rest) ∧ r.rc = 0 ∧
          r.freed = if freeOld = true ∧ old ≠ val then old.toList.map .val else []) ∨
        ((∀ e ∈ d.entries, e.key ≠ key) ∧ r.d.entries.Perm (⟨key, val⟩ :: d.entries) ∧ r.rc = 0 ∧
          ∀ v, Freed.val v ∉ r.freed) ∨
        (∀ e ∈ d.entries, e.key ≠ key) ∧ entryOk = false ∧ r = ⟨-1, d, []⟩) := by
  have hb := h.bucket_lt key
  obtain ⟨pre, post, hflat, hset⟩ := flatten_set hb
  intro r
  have hr : r = dictSetImpl hash d (some key) val freeOld entryOk tableOk := rfl
  unfold dictSetImpl at hr
  simp only at hr
  split at hr
  · rename_i chain old hup
    obtain ⟨cpre, cpost, hchain, hchain'⟩ := updateChain_some hup
    have hold : d.entries.Perm (⟨key, old⟩ :: (pre ++ cpre ++ (cpost ++ post))) := by
      rw [entries, hflat, hchain]
      have : pre ++ (cpre ++ ⟨key, old⟩ :: cpost) ++ post = pre ++ cpre ++ ⟨key, old⟩ :: (cpost ++ post) := by simp
      rw [this]
      exact List.perm_middle
    have hnew : (d.buckets.set (bucketForN hash key d.nbuckets) chain).flatten.Perm
        (⟨key, val⟩ :: (pre ++ cpre ++ (cpost ++ post))) := by
      rw [hset, hchain']
      have : pre ++ (cpre ++ ⟨key, val⟩ :: cpost) ++ post = pre ++ cpre ++ ⟨key, val⟩ :: (cpost ++ post) := by simp
      rw [this]
      exact List.perm_middle
    rw [hr]
    refine ⟨h.withChain ?_ hnew ?_ ?_, .inl ⟨old, _, hold, hnew, rfl, rfl⟩⟩
    · intro e he
      have hplaced := h.placed _ hb
      rw [hchain] at hplaced
      rw [hchain'] at he
      rcases List.mem_append.mp he with he | he
      · exact hplaced e (List.mem_append_left _ he)
      · rcases List.mem_cons.mp he with rfl | he
        · rfl
        · exact hplaced e (List.mem_append_right _ (List.mem_cons_of_mem _ he))
    · exact (hold.map Entry.key).nodup_iff.mp h.nodup
    · rw [h.counted]
      exact hold.length_eq
  · rename_i hup
    have hno := h.absent (updateChain_none.mp hup)
    split at hr
    · rename_i hok
      rw [hr]
      exact ⟨h, .inr (.inr ⟨hno, hok, rfl⟩)⟩
    · have hperm : (addTail d.buckets (bucketForN hash key d.nbuckets) ⟨key, val⟩).flatten.Perm
          (⟨key, val⟩ :: d.entries) :=
        addTail_perm hb
      have hadd :
          Inv hash ⟨addTail d.buckets (bucketForN hash key d.nbuckets) ⟨key, val⟩, d.nbuckets, d.count + 1⟩ := by
        refine h.withChain ?_ hperm ?_ ?_
        · intro e he
          rcases List.mem_append.mp he with he | he
          · exact h.placed _ hb e he
          · rw [List.mem_singleton.mp he]
        · rw [List.map_cons, List.nodup_cons]
          refine ⟨fun hmem => ?_, h.nodup⟩
          obtain ⟨e, he, hkey⟩ := List.mem_map.mp hmem
          exact hno e he hkey
        · rw [h.counted]
          rfl
      split at hr
      · obtain ⟨hinv, hre, hval⟩ := dictRehash_spec hadd (d.nbuckets * 2) tableOk
        rw [hr]
        exact ⟨hinv, .inr (.inl ⟨hno, hre.trans hperm, rfl, hval⟩)⟩
      · rw [hr]
        exact ⟨hadd, .inr (.inl ⟨hno, hperm, rfl, fun _ => List.not_mem_nil⟩)⟩

omit [DecidableEq K] in
/-- No other entry has the key of an entry. -/
theorem Inv.rest_ne {key : K} {old : Option V} {rest : List (Entry K V)} (h : Inv hash d)
    (hperm : d.entries.Perm (⟨key, old⟩ :: rest)) : ∀ e ∈ rest, e.key ≠ key := by
  intro e he heq
  subst heq
  have hkeys := (hperm.map Entry.key).nodup_iff.mp h.nodup
  have hmem : e.key ∈ rest.map Entry.key := List.mem_map_of_mem he
  exact (List.nodup_cons.mp hkeys).1 hmem

theorem dictGet_some (h : Inv hash d) (key : K) (v : V) :
    dictGet hash d (some key) = some v ↔ (⟨key, some v⟩ : Entry K V) ∈ d.entries := by
  unfold dictGet
  constructor
  · intro hv
    obtain ⟨e, hfind, hval⟩ := Option.bind_eq_some_iff.mp hv
    obtain ⟨he, rfl⟩ := (dictFind_some h key e).mp hfind
    rw [← hval]
    exact he
  · intro he
    have hfind := (dictFind_some h key ⟨key, some v⟩).mpr ⟨he, rfl⟩
    show (dictFind hash d key).bind Entry.val = some v
    rw [hfind]
    rfl

/-- The entries of the other keys stay where a key is set, and all entries where there is no memory for it. -/
theorem dictSet_others [DecidableEq V] (h : Inv hash d) (key : K) (val : Option V) (entryOk tableOk : Bool) :
    let r := dictSet hash d (some key) val entryOk tableOk
    (∀ e, e.key ≠ key → (e ∈ r.d.entries ↔ e ∈ d.entries)) ∧ (r.rc < 0 → r.d = d) := by
  obtain ⟨-, hcases⟩ := dictSetImpl_cases h key val false entryOk tableOk
  intro r
  have hset : ∀ rest : List (Entry K V), r.d.entries.Perm (⟨key, val⟩ :: rest) →
      ∀ e, e.key ≠ key → (e ∈ r.d.entries ↔ e ∈ rest) := by
    intro rest hperm e he
    rw [hperm.mem_iff, List.mem_cons]
    exact ⟨fun h => h.resolve_left fun heq => he (congrArg Entry.key heq), .inr⟩
  rcases hcases with ⟨old, rest, hold, hnew, hrc, -⟩ | ⟨-, hnew, hrc, -⟩ | ⟨-, -, hr⟩
  · refine ⟨fun e he => (hset rest hnew e he).trans ?_, fun hfail => ?_⟩
    · rw [hold.mem_iff, List.mem_cons]
      exact ⟨.inr, fun h => h.resolve_left fun heq => he (congrArg Entry.key heq)⟩
    · rw [show r.rc = 0 from hrc] at hfail
      exact absurd hfail (Int.lt_irrefl 0)
  · refine ⟨hset d.entries hnew, fun hfail => ?_⟩
    rw [show r.rc = 0 from hrc] at hfail
    exact absurd hfail (Int.lt_irrefl 0)
  · rw [show r = ⟨-1, d, []⟩ from hr]
    exact ⟨fun _ _ => Iff.rfl, fun _ => rfl⟩

/-- What a lookup finds after a set. -/
theorem dictSet_get [DecidableEq V] (h : Inv hash d) (key : K) (val : Option V) (entryOk tableOk : Bool) :
    let r := dictSet hash d (some key) val entryOk tableOk
    Inv hash r.d ∧
      ((r.rc = 0 ∧ (∀ e ∈ r.d.entries, e.val = val ∨ e ∈ d.entries) ∧
          ∀ k, dictGet hash r.d (some k) = if k = key then val else dictGet hash d (some k)) ∨
        r.rc = -1 ∧ entryOk = false ∧ r.d = d) := by
  obtain ⟨hinv, hcases⟩ := dictSetImpl_cases h key val false entryOk tableOk
  obtain ⟨hothers, -⟩ := dictSet_others h key val entryOk tableOk
  intro r
  have hinv' : Inv hash r.d := hinv
  refine ⟨hinv', ?_⟩
  have hset : (⟨key, val⟩ : Entry K V) ∈ r.d.entries → (∀ e ∈ r.d.entries, e.val = val ∨ e ∈ d.entries) ∧
      ∀ k, dictGet hash r.d (some k) = if k = key then val else dictGet hash d (some k) := by
    intro hmem
    have hkey : ∀ e ∈ r.d.entries, e.key = key → e = ⟨key, val⟩ := fun e he hk => hinv'.key_inj he hmem hk
    refine ⟨fun e he => ?_, fun k => Option.ext fun v => ?_⟩
    · by_cases hk : e.key = key
      · rw [hkey e he hk]
        exact .inl rfl
      · exact .inr ((hothers e hk).mp he)
    · rw [dictGet_some hinv']
      by_cases hk : k = key
      · subst hk
        rw [if_pos rfl]
        constructor
        · exact fun he => (congrArg Entry.val (hkey _ he rfl)).symm
        · intro hv
          rw [← hv]
          exact hmem
      · rw [if_neg hk, dictGet_some h]
        exact hothers _ hk
  rcases hcases with ⟨old, rest, -, hnew, hrc, -⟩ | ⟨-, hnew, hrc, -⟩ | ⟨-, hok, hr⟩
  · exact .inl ⟨hrc, hset (hnew.mem_iff.mpr (List.mem_cons_self ..))⟩
  · exact .inl ⟨hrc, hset (hnew.mem_iff.mpr (List.mem_cons_self ..))⟩
  · refine .inr ⟨?_, hok, ?_⟩
    · rw [show r = ⟨-1, d, []⟩ from hr]
    · rw [show r = ⟨-1, d, []⟩ from hr]

/-- A deletion with a key: its entry goes and is freed, or there is none. -/
theorem dictDel_cases (h : Inv hash d) (key : K) :
    let r := dictDel hash d (some key)
    Inv hash r.d ∧
      ((∃ old, d.entries.Perm (⟨key, old⟩ :: r.d.entries) ∧ r.rc = 0 ∧ r.freed = [.entry ⟨key, old⟩]) ∨
        (∀ e ∈ d.entries, e.key ≠ key) ∧ r = ⟨-1, d, []⟩) := by
  have hb := h.bucket_lt key
  obtain ⟨pre, post, hflat, hset⟩ := flatten_set hb
  intro r
  have hr : r = dictDel hash d (some key) := rfl
  unfold dictDel at hr
  simp only at hr
  split at hr
  · rename_i chain e hun
    obtain ⟨cpre, cpost, hchain, hchain', rfl⟩ := unlinkChain_some hun
    have hnew : (d.buckets.set (bucketForN hash e.key d.nbuckets) chain).flatten = pre ++ cpre ++ (cpost ++ post) := by
      rw [hset, hchain']
      simp
    have hold : d.entries.Perm (e :: (pre ++ cpre ++ (cpost ++ post))) := by
      rw [entries, hflat, hchain]
      have : pre ++ (cpre ++ e :: cpost) ++ post = pre ++ cpre ++ e :: (cpost ++ post) := by simp
      rw [this]
      exact List.perm_middle
    have hkeys := (hold.map Entry.key).nodup_iff.mp h.nodup
    rw [hr]
    refine ⟨h.withChain ?_ (.of_eq hnew) (List.nodup_cons.mp hkeys).2 ?_, .inl ⟨e.val, ?_, rfl, rfl⟩⟩
    · intro e' he'
      have hplaced := h.placed _ hb
      rw [hchain] at hplaced
      rw [hchain'] at he'
      rcases List.mem_append.mp he' with he' | he'
      · exact hplaced e' (List.mem_append_left _ he')
      · exact hplaced e' (List.mem_append_right _ (List.mem_cons_of_mem _ he'))
    · rw [h.counted, hold.length_eq]
      rfl
    · show d.entries.Perm (e :: (d.buckets.set _ chain).flatten)
      rw [hnew]
      exact hold
  · rename_i hun
    rw [hr]
    exact ⟨h, .inr ⟨h.absent (unlinkChain_none.mp hun), rfl⟩⟩

end

/-! ## Runs -/

inductive Op (K V : Type)
  | set (key : Option K) (val : Option V) (entryOk tableOk : Bool)
  | setOwned (key : Option K) (val : Option V) (entryOk tableOk : Bool)
  | del (key : Option K)
  | rehash (newNbuckets : BitVec 32) (tableOk : Bool)

section
variable [DecidableEq K]

/-- What an operation that succeeds does to the finite map. -/
def Op.apply : Op K V → Finmap (fun _ : K => Option V) → Finmap (fun _ : K => Option V)
  | .set (some key) val _ _, m => m.insert key val
  | .setOwned (some key) val _ _, m => m.insert key val
  | .del (some key), m => m.erase key
  | _, m => m

/-- The map holds exactly the entries of the table. -/
def Refines (d : Dict K V) (m : Finmap (fun _ : K => Option V)) : Prop :=
  ∀ key val, m.lookup key = some val ↔ ⟨key, val⟩ ∈ d.entries

theorem refines_empty (h : d.entries = []) : Refines d ∅ := by
  intro key val
  rw [h, Finmap.lookup_empty]
  exact ⟨fun h => by (cases h), fun h => by (cases h)⟩

theorem Refines.insert {d' : Dict K V} {m : Finmap (fun _ : K => Option V)} {key : K} {val : Option V}
    {rest : List (Entry K V)} (h : ∀ k v, k ≠ key → (m.lookup k = some v ↔ ⟨k, v⟩ ∈ rest))
    (hrest : ∀ e ∈ rest, e.key ≠ key) (hperm : d'.entries.Perm (⟨key, val⟩ :: rest)) :
      Refines d' (m.insert key val) := by
  intro k v
  rw [hperm.mem_iff, List.mem_cons]
  by_cases hk : k = key
  · subst hk
    rw [Finmap.lookup_insert]
    constructor
    · intro heq
      rw [Option.some.inj heq]
      exact .inl rfl
    · intro hor
      rcases hor with heq | hmem
      · rw [(Entry.mk.inj heq).2]
      · exact absurd rfl (hrest _ hmem)
  · rw [Finmap.lookup_insert_of_ne m hk, h k v hk]
    exact ⟨.inr, fun h => h.resolve_left fun heq => hk (Entry.mk.inj heq).1⟩

theorem Refines.erase {d' : Dict K V} {m : Finmap (fun _ : K => Option V)} {key : K} {old : Option V} (h : Refines d m)
    (hnodup : (d.entries.map Entry.key).Nodup) (hperm : d.entries.Perm (⟨key, old⟩ :: d'.entries)) :
    Refines d' (m.erase key) := by
  have hkeys := (hperm.map Entry.key).nodup_iff.mp hnodup
  have hrest := (List.nodup_cons.mp hkeys).1
  intro k v
  by_cases hk : k = key
  · subst hk
    rw [Finmap.lookup_erase]
    exact ⟨fun h => by (cases h), fun hmem => absurd (List.mem_map_of_mem hmem) hrest⟩
  · rw [Finmap.lookup_erase_ne hk, h k v, hperm.mem_iff, List.mem_cons]
    exact ⟨fun h => h.resolve_left fun heq => hk (Entry.mk.inj heq).1, .inr⟩

/-- The keys of the map are those of the entries, so there are as many. -/
theorem Refines.card {m : Finmap (fun _ : K => Option V)} (h : Inv hash d) (hm : Refines d m) :
    m.keys.card = d.entries.length := by
  have hkeys : m.keys = (d.entries.map Entry.key).toFinset := by
    ext key
    rw [Finmap.mem_keys, Finmap.mem_iff, List.mem_toFinset, List.mem_map]
    constructor
    · intro hfound
      obtain ⟨val, hval⟩ := hfound
      exact ⟨_, (hm key val).mp hval, rfl⟩
    · intro hfound
      obtain ⟨e, he, rfl⟩ := hfound
      exact ⟨e.val, (hm e.key e.val).mpr he⟩
  rw [hkeys, List.toFinset_card_of_nodup h.nodup, List.length_map]

/-- Looking a key up in the table is looking it up in the map. -/
theorem Refines.find {m : Finmap (fun _ : K => Option V)} (h : Inv hash d) (hm : Refines d m) (key : K) :
    (dictFind hash d key).map Entry.val = m.lookup key := by
  cases hf : dictFind hash d key with
  | some e =>
    obtain ⟨he, rfl⟩ := (dictFind_some h key e).mp hf
    exact ((hm e.key e.val).mpr he).symm
  | none =>
    cases hl : m.lookup key with
    | none => rfl
    | some val => exact absurd rfl ((dictFind_none h key).mp hf _ ((hm key val).mp hl))

variable [DecidableEq V]

def step (hash : K → BitVec 32) (d : Dict K V) : Op K V → Out K V
  | .set key val entryOk tableOk => dictSet hash d key val entryOk tableOk
  | .setOwned key val entryOk tableOk => dictSetOwned hash d key val entryOk tableOk
  | .del key => dictDel hash d key
  | .rehash newNbuckets tableOk => dictRehash hash d newNbuckets tableOk

/-- The dictionary and the map after a sequence of operations: those answered with 0 apply. -/
def run (hash : K → BitVec 32) : Dict K V → Finmap (fun _ : K => Option V) → List (Op K V) →
    Dict K V × Finmap (fun _ : K => Option V)
  | d, m, [] => (d, m)
  | d, m, op :: ops => run hash (step hash d op).d (if (step hash d op).rc = 0 then op.apply m else m) ops

theorem set_refines (h : Inv hash d) {m : Finmap (fun _ : K => Option V)} (hm : Refines d m) (key : Option K)
    (val : Option V) (freeOld entryOk tableOk : Bool) :
    let r := dictSetImpl hash d key val freeOld entryOk tableOk
    Inv hash r.d ∧
      Refines r.d (if r.rc = 0 then (match key with | some key => m.insert key val | none => m) else m) := by
  cases key with
  | none => exact ⟨h, hm⟩
  | some key =>
    obtain ⟨hinv, hcases⟩ := dictSetImpl_cases h key val freeOld entryOk tableOk
    intro r
    refine ⟨hinv, ?_⟩
    rcases hcases with ⟨old, rest, hold, hnew, hrc, -⟩ | ⟨hno, hnew, hrc, -⟩ | ⟨-, -, hr⟩
    · rw [if_pos hrc]
      refine Refines.insert (fun k v hk => ?_) (h.rest_ne hold) hnew
      rw [hm k v, hold.mem_iff, List.mem_cons]
      exact ⟨fun h => h.resolve_left fun heq => hk (Entry.mk.inj heq).1, .inr⟩
    · rw [if_pos hrc]
      exact Refines.insert (fun k v _ => hm k v) hno hnew
    · show Refines r.d (if r.rc = 0 then _ else _)
      rw [show r = ⟨-1, d, []⟩ from hr, if_neg (show ¬ (-1 : Int) = 0 by decide)]
      exact hm

theorem step_refines (h : Inv hash d) {m : Finmap (fun _ : K => Option V)} (hm : Refines d m) (op : Op K V) :
    Inv hash (step hash d op).d ∧ Refines (step hash d op).d (if (step hash d op).rc = 0 then op.apply m else m) := by
  cases op with
  | set key val entryOk tableOk =>
    have hset := set_refines h hm key val false entryOk tableOk
    cases key <;> exact hset
  | setOwned key val entryOk tableOk =>
    have hset := set_refines h hm key val true entryOk tableOk
    cases key <;> exact hset
  | rehash n tableOk =>
    obtain ⟨hinv, hperm, -⟩ := dictRehash_spec h n tableOk
    refine ⟨hinv, fun k v => ?_⟩
    show (if _ then m else m).lookup k = some v ↔ _
    rw [ite_self, hm k v]
    exact hperm.mem_iff.symm
  | del key =>
    cases key with
    | none => exact ⟨h, hm⟩
    | some key =>
      obtain ⟨hinv, hcases⟩ := dictDel_cases h key
      refine ⟨hinv, ?_⟩
      rcases hcases with ⟨old, hperm, hrc, -⟩ | ⟨-, hr⟩
      · rw [if_pos (show (step hash d (.del (some key))).rc = 0 from hrc)]
        exact hm.erase h.nodup hperm
      · rw [show step hash d (.del (some key)) = ⟨-1, d, []⟩ from hr, if_neg (show ¬ (-1 : Int) = 0 by decide)]
        exact hm

theorem run_refines (h : Inv hash d) {m : Finmap (fun _ : K => Option V)} (hm : Refines d m) (ops : List (Op K V)) :
    Inv hash (run hash d m ops).1 ∧ Refines (run hash d m ops).1 (run hash d m ops).2 := by
  induction ops generalizing d m with
  | nil => exact ⟨h, hm⟩
  | cons op ops ih =>
    obtain ⟨hinv, href⟩ := step_refines h hm op
    exact ih hinv href

/-- After any operations on a new dictionary, whatever allocations fail, the table is in
    order and answers as the map of the operations that succeeded. -/
theorem dict_refines_map {bucketCount : BitVec 32} {dictOk tableOk : Bool}
    (hnew : dictNewSized bucketCount dictOk tableOk = some d) (ops : List (Op K V)) :
    let r := run hash d ∅ ops
    (∀ b < r.1.nbuckets.toNat, ∀ e ∈ chainAt r.1.buckets b, bucketForN hash e.key r.1.nbuckets = b) ∧
      r.1.buckets.length = r.1.nbuckets.toNat ∧
      (r.1.entries.map Entry.key).Nodup ∧
      r.1.count = r.1.entries.length ∧
      r.1.nbuckets.toNat.isPowerOfTwo ∧ 4 ≤ r.1.nbuckets.toNat ∧
      (∀ key, dictGet hash r.1 (some key) = (r.2.lookup key).join) ∧
      (∀ key, dictHas hash r.1 (some key) = if key ∈ r.2 then 1 else 0) ∧
      dictCount r.1 = r.2.keys.card := by
  obtain ⟨hinv0, hempty⟩ : Inv hash d ∧ d.entries = [] := dictNewSized_inv hnew
  intro r
  obtain ⟨hinv, href⟩ := run_refines hinv0 (refines_empty hempty) ops
  refine ⟨hinv.size ▸ hinv.placed, hinv.size, hinv.nodup, hinv.counted, hinv.pow2, hinv.four, fun key => ?_,
    fun key => ?_, ?_⟩
  · rw [← href.find hinv key]
    show (dictFind hash r.1 key).bind Entry.val = _
    cases dictFind hash r.1 key <;> rfl
  · have hmem : key ∈ r.2 ↔ (dictFind hash r.1 key).isSome = true := by
      rw [← Finmap.lookup_isSome, ← href.find hinv key, Option.isSome_map]
    simp only [dictHas, hmem]
  · rw [href.card hinv]
    exact hinv.counted

/-- Three keys in one bucket, one of them deleted, and the table grown: the rest answer. -/
theorem dict_refines_map_colliding :
    let hash : Nat → BitVec 32 := fun _ => 5
    let r := run hash ⟨List.replicate 4 [], 4, 0⟩ ∅
      [.set (some 1) (some 10) true true, .set (some 2) none true true, .del (some 1),
        .set (some 3) (some 30) true false,
        .setOwned (some 2) (some 20) true true, .rehash 16 true]
    dictGet hash r.1 (some 2) = some 20 ∧ dictCount r.1 = r.2.keys.card := by
  intro hash r
  have hnew : dictNewSized 4 true true = some (⟨List.replicate 4 [], 4, 0⟩ : Dict Nat Nat) := rfl
  obtain ⟨-, -, -, -, -, -, -, -, hcount⟩ := dict_refines_map hnew
    [.set (some 1) (some 10) true true, .set (some 2) none true true, .del (some 1), .set (some 3) (some 30) true false,
      .setOwned (some 2) (some 20) true true, .rehash 16 true]
  exact ⟨by decide, hcount⟩

end

end KanekFoundations.Dict

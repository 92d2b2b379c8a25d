/-
  KanekFoundations.Dict.NodeRuns — runs of calls on a dictionary in memory, each with whatever
  the allocator answers (see `KanekFoundations.Dict.NodeOps`).

  A finite map says what the calls are for: `Op.onMap` is a call on it, with the answer.
  Allocations decide only whether a new key gets in and whether a rehash goes through.

  Proved, over every run from a new dictionary:
  - `memory_refines_map`: the calls answer as the map does, and none of them is ever stuck:
    no freed node is read, no link leaves the memory of the dictionary, every loop ends.
  - `memory_exact`: the memory is what it was before the dictionary was created and, apart
    from that, one head for each bucket and one node for each entry, in memory that was free.
-/

import KanekFoundations.Dict.NodeOpProofs

namespace KanekFoundations.Dict.Nodes

open KanekFoundations.Lib KanekFoundations.Links

variable {K V : Type} [DecidableEq K] [DecidableEq V] {hash : K → BitVec 32} {base : Links.Entries (Option (Entry K V))}
  {m m' : Mem K V} {d : Dict K V} {N : Nat} {seq : Fin N → List Addr} {map : Finmap fun _ : K => Option V}

/-! ## The map -/

def Op.onMap (map : Finmap fun _ : K => Option V) : Op K V → Finmap (fun _ : K => Option V) × Answer V
  | .set none _ _ _ _ => (map, .rc (-1) [])
  | .set (some key) val freeOld entry _ =>
    match map.lookup key with
    | some old => (map.insert key val, .rc 0 (if freeOld = true ∧ old ≠ val then old.toList else []))
    | none => if entry.isSome then (map.insert key val, .rc 0 []) else (map, .rc (-1) [])
  | .del none => (map, .rc (-1) [])
  | .del (some key) => if key ∈ map then (map.erase key, .rc 0 []) else (map, .rc (-1) [])
  | .rehash n table => (map, .rc (if n < 4 ∨ isPowerOfTwo n = false ∨ table.isSome = false then -1 else 0) [])
  | .get key => (map, .val (key.bind fun k => (map.lookup k).join))
  | .has none => (map, .rc 0 [])
  | .has (some key) => (map, .rc (if key ∈ map then 1 else 0) [])
  | .count => (map, .size map.keys.card)

/-- The map after a list of calls, and their answers. -/
def runMap : Finmap (fun _ : K => Option V) → List (Op K V) → Finmap (fun _ : K => Option V) × List (Answer V)
  | map, [] => (map, [])
  | map, op :: ops =>
    let r := runMap (op.onMap map).1 ops
    (r.1, (op.onMap map).2 :: r.2)

/-! ## The table -/

omit [DecidableEq V] in
theorem lookup_of_perm (hm : Refines d map) {key : K} {old : Option V} {rest : List (Entry K V)}
    (hperm : d.entries.Perm (⟨key, old⟩ :: rest)) : map.lookup key = some old :=
  (hm key old).mpr (hperm.mem_iff.mpr (List.mem_cons_self ..))

omit [DecidableEq V] in
theorem lookup_of_absent (hm : Refines d map) {key : K} (hno : ∀ e ∈ d.entries, e.key ≠ key) :
    map.lookup key = none := by
  cases hl : map.lookup key with
  | none => rfl
  | some val => exact absurd rfl (hno _ ((hm key val).mp hl))

/-- The table's set, seen on the map. -/
theorem set_onMap (hi : Inv hash d) (hm : Refines d map) (key : Option K) (val : Option V) (freeOld : Bool)
    (entry : Option Block)
    (table : Option Addr) :
    let r := Dict.dictSetImpl hash d key val freeOld entry.isSome table.isSome
    Inv hash r.d ∧ Refines r.d ((Op.set key val freeOld entry table).onMap map).1 ∧
      ((Op.set key val freeOld entry table).onMap map).2 = .rc r.rc (freedVals r.freed) := by
  intro r
  obtain ⟨hinv, href⟩ := set_refines hi hm key val freeOld entry.isSome table.isSome
  cases key with
  | none => exact ⟨hi, hm, rfl⟩
  | some key =>
    refine ⟨hinv, ?_⟩
    obtain ⟨-, hcases⟩ := dictSetImpl_cases hi key val freeOld entry.isSome table.isSome
    rcases hcases with ⟨old, rest, hold, -, hrc, hfreed⟩ | ⟨hno, -, hrc, hval⟩ | ⟨hno, hok, hr⟩
    · rw [show (Dict.dictSetImpl hash d (some key) val freeOld entry.isSome table.isSome).rc = 0 from hrc,
        if_pos rfl] at href
      have hlookup := lookup_of_perm hm hold
      have hvals : freedVals r.freed = if freeOld = true ∧ old ≠ val then old.toList else [] := by
        rw [show r.freed = _ from hfreed]
        split
        · cases old <;> rfl
        · rfl
      simp only [Op.onMap, hlookup]
      exact ⟨href, by rw [hvals, show r.rc = 0 from hrc]⟩
    · rw [show (Dict.dictSetImpl hash d (some key) val freeOld entry.isSome table.isSome).rc = 0 from hrc,
        if_pos rfl] at href
      have hlookup := lookup_of_absent hm hno
      have hsome : entry.isSome = true := by
        cases entry with
        | some _ => rfl
        | none =>
          have hchain : updateChain key val (chainAt d.buckets (bucketForN hash key d.nbuckets)) = none :=
            updateChain_none.mpr fun e he => hno e (mem_chainAt_flatten (hi.bucket_lt key) he)
          have hrefused : r.rc = -1 := by
            simp only [r, Dict.dictSetImpl, hchain]
            rfl
          rw [show r.rc = 0 from hrc] at hrefused
          cases hrefused
      have hvals : freedVals r.freed = [] := freedVals_nil hval
      simp only [Op.onMap, hlookup, hsome, if_true]
      exact ⟨href, by rw [hvals, show r.rc = 0 from hrc]⟩
    · have hlookup := lookup_of_absent hm hno
      rw [show Dict.dictSetImpl hash d (some key) val freeOld entry.isSome table.isSome = ⟨-1, d, []⟩ from hr] at href
      simp only [Op.onMap, hlookup, hok, Bool.false_eq_true, if_false]
      rw [show r = ⟨-1, d, []⟩ from hr]
      exact ⟨hm, rfl⟩

/-- The table's delete, seen on the map. -/
theorem del_onMap (hi : Inv hash d) (hm : Refines d map) (key : Option K) :
    let r := Dict.dictDel hash d key
    Inv hash r.d ∧ Refines r.d ((Op.del key : Op K V).onMap map).1 ∧
        ((Op.del key : Op K V).onMap map).2 = .rc r.rc [] := by
  intro r
  cases key with
  | none => exact ⟨hi, hm, rfl⟩
  | some key =>
    obtain ⟨hinv, hcases⟩ := dictDel_cases hi key
    refine ⟨hinv, ?_⟩
    rcases hcases with ⟨old, hperm, hrc, -⟩ | ⟨hno, hr⟩
    · have hmem : key ∈ map := Finmap.mem_of_lookup_eq_some (lookup_of_perm hm hperm)
      simp only [Op.onMap, hmem, if_true]
      exact ⟨hm.erase hi.nodup hperm, by rw [show r.rc = 0 from hrc]⟩
    · have hmem : key ∉ map := Finmap.lookup_eq_none.mp (lookup_of_absent hm hno)
      simp only [Op.onMap, hmem, if_false]
      rw [show r = ⟨-1, d, []⟩ from hr]
      exact ⟨hm, rfl⟩

/-- The table's rehash, seen on the map. -/
theorem rehash_onMap (hi : Inv hash d) (hm : Refines d map) (n : BitVec 32) (table : Option Addr) :
    let r := Dict.dictRehash hash d n table.isSome
    Inv hash r.d ∧ Refines r.d map ∧ ((Op.rehash n table : Op K V).onMap map).2 = .rc r.rc [] := by
  intro r
  obtain ⟨hinv, hperm, -⟩ := Dict.dictRehash_spec hi n table.isSome
  refine ⟨hinv, fun k v => (hm k v).trans hperm.mem_iff.symm, ?_⟩
  have hrc : r.rc = if n < 4 ∨ isPowerOfTwo n = false ∨ table.isSome = false then -1 else 0 := by
    simp only [r, Dict.dictRehash]
    split
    · rename_i hbad
      rw [if_pos (by tauto)]
    · rename_i hvalid
      split
      · rename_i hnone
        rw [if_pos (.inr (.inr hnone))]
      · rename_i hsome
        rw [if_neg (by tauto)]
  rw [hrc]
  rfl

/-! ## Steps -/

/-- What holds of memory after a call: the dictionary holds what the map holds. -/
def Good (hash : K → BitVec 32) (base : Links.Entries (Option (Entry K V))) (m : Mem K V)
    (map : Finmap fun _ : K => Option V) : Prop :=
  ∃ (d : Dict K V) (N : Nat) (seq : Fin N → List Addr), Inv hash d ∧ Stores base m d seq ∧ Refines d map

theorem call_set (key : Option K) (val : Option V) (freeOld : Bool) (entry : Option Block) (table : Option Addr) :
    call hash (.set key val freeOld entry table) = (do
      let r ← dictSetImpl hash key val freeOld entry table
      pure (.rc r.1 r.2)) := by
  cases freeOld with
  | false => rfl
  | true => rfl

/-- One call: it ends, answers as the map does and keeps memory in order. -/
theorem call_spec {op : Op K V} (hgood : Good hash base m map) (hfresh : op.Fresh m) :
    wp (call hash op) (fun a m' => a = (op.onMap map).2 ∧ Good hash base m' (op.onMap map).1) m := by
  obtain ⟨d, N, seq, hi, hs, hm⟩ := hgood
  cases op with
  | set key val freeOld entry table =>
    obtain ⟨hinv, href, hanswer⟩ := set_onMap hi hm key val freeOld entry table
    rw [call_set]
    refine wp.bind (dictSetImpl_stores hi hs hfresh) fun r m' hr => wp_pure.mpr ?_
    obtain ⟨rfl, N', seq', hs'⟩ := hr
    exact ⟨hanswer.symm, _, N', seq', hinv, hs', href⟩
  | del key =>
    obtain ⟨hinv, href, hanswer⟩ := del_onMap hi hm key
    refine wp.bind (dictDel_stores hi hs key) fun rc m' hr => wp_pure.mpr ?_
    obtain ⟨rfl, N', seq', hs'⟩ := hr
    exact ⟨hanswer.symm, _, N', seq', hinv, hs', href⟩
  | rehash n table =>
    obtain ⟨hinv, href, hanswer⟩ := rehash_onMap hi hm n table
    refine wp.bind (dictRehash_refines hi hs hfresh) fun rc m' hr => wp_pure.mpr ?_
    obtain ⟨rfl, N', seq', hs'⟩ := hr
    exact ⟨hanswer.symm, _, N', seq', hinv, hs', href⟩
  | get key =>
    refine wp.bind (dictGet_spec hs hi key) fun v m' hr => wp_pure.mpr ?_
    obtain ⟨rfl, rfl⟩ := hr
    refine ⟨?_, d, N, seq, hi, hs, hm⟩
    cases key with
    | none => rfl
    | some key =>
      show Answer.val ((dictFind hash d key).bind Entry.val) = .val (map.lookup key).join
      rw [← hm.find hi key]
      cases dictFind hash d key <;> rfl
  | has key =>
    refine wp.bind (dictHas_spec hs hi key) fun rc m' hr => wp_pure.mpr ?_
    obtain ⟨rfl, rfl⟩ := hr
    cases key with
    | none => exact ⟨rfl, d, N, seq, hi, hs, hm⟩
    | some key =>
      refine ⟨?_, d, N, seq, hi, hs, hm⟩
      have hmem : key ∈ map ↔ (dictFind hash d key).isSome = true := by
        rw [← Finmap.lookup_isSome, ← hm.find hi key, Option.isSome_map]
      simp only [Op.onMap, Dict.dictHas, hmem]
  | count =>
    refine wp.bind (Q := fun n m' => n = m.count ∧ m' = m) (wp_bind.mpr (wp_get.mpr (wp_pure.mpr ⟨rfl, rfl⟩)))
      fun n m' hr => wp_pure.mpr ?_
    obtain ⟨rfl, rfl⟩ := hr
    refine ⟨?_, d, N, seq, hi, hs, hm⟩
    rw [hs.count, hi.counted]
    exact congrArg Answer.size (hm.card hi).symm

theorem runs_spec {tr : List (Op K V × Answer V)} (hrun : Runs hash m tr m') (hgood : Good hash base m map) :
    tr.map Prod.snd = (runMap map (tr.map Prod.fst)).2 ∧ Good hash base m' (runMap map (tr.map Prod.fst)).1 := by
  induction hrun generalizing map with
  | nil m => exact ⟨rfl, hgood⟩
  | cons hfresh hcall hrest ih =>
    obtain ⟨r, hr, ha, hgood'⟩ := call_spec hgood hfresh
    obtain rfl := Option.some.inj (hcall.symm.trans hr)
    obtain ⟨hanswers, hlast⟩ := ih hgood'
    exact ⟨congrArg₂ List.cons ha hanswers, hlast⟩

/-! ## A new dictionary -/

omit [DecidableEq K] [DecidableEq V] in
/-- `dict_new_sized` makes a dictionary in free memory exactly when that of the table does. -/
theorem dictNewSized_stores {bucketCount : BitVec 32} {dictOk : Bool} {table : Option Addr}
    (hfresh : FreshTable base table bucketCount.toNat) :
    wp (dictNewSized bucketCount dictOk table) (fun r _ =>
      r.isSome = (Dict.dictNewSized (K := K) (V := V) bucketCount dictOk table.isSome).isSome ∧
      ∀ m ∈ r, ∃ d : Dict K V, Dict.dictNewSized bucketCount dictOk table.isSome = some d ∧
        Stores base m d fun _ : Fin bucketCount.toNat => []) base := by
  by_cases hvalid : bucketCount < 4 ∨ isPowerOfTwo bucketCount = false
  · unfold dictNewSized Dict.dictNewSized
    rw [if_pos hvalid, if_pos hvalid]
    exact wp_pure.mpr ⟨rfl, fun _ h => by (cases h)⟩
  by_cases hok : dictOk = false
  · unfold dictNewSized Dict.dictNewSized
    rw [if_neg hvalid, if_neg hvalid, if_pos hok, if_pos hok]
    exact wp_pure.mpr ⟨rfl, fun _ h => by (cases h)⟩
  cases table with
  | none =>
    unfold dictNewSized Dict.dictNewSized
    rw [if_neg hvalid, if_neg hvalid, if_neg hok, if_neg hok]
    exact wp_pure.mpr ⟨rfl, fun _ h => by (cases h)⟩
  | some t =>
    have hfree : ∀ c ∈ cells t bucketCount.toNat, base c = none := hfresh t rfl
    let n₁ : Links.Entries (Option (Entry K V)) :=
      fun c => if c ∈ cells t bucketCount.toNat then some ⟨0, 0, none⟩ else base c
    have hd : Dict.dictNewSized (K := K) (V := V) bucketCount dictOk (some t).isSome =
        some ⟨List.replicate bucketCount.toNat [], bucketCount, 0⟩ := by
      unfold Dict.dictNewSized
      rw [if_neg hvalid, if_neg hok, if_neg (by simp)]
    rw [hd]
    unfold dictNewSized
    rw [if_neg hvalid, if_neg hok, wp_bind,
      wp_run (show taCalloc (some t) bucketCount.toNat base = some (some t, n₁) from rfl)]
    show wp (initHeads t bucketCount.toNat >>= _) _ n₁
    rw [wp_bind]
    refine (initHeads_spec (n := n₁) fun c hc => by simp [n₁, Entries.rest, hc]).mono fun _ n₂ h₂ => ?_
    obtain ⟨hheads, hout⟩ := h₂
    refine wp_bind.mpr ((wp_run rfl).mpr (wp_pure.mpr ⟨rfl, fun m hm => ⟨_, rfl, ?_⟩⟩))
    obtain rfl := Option.some.inj hm
    have hocc : ∀ c, Occupied (fun b : Fin bucketCount.toNat => t + LIST_T * (b : Nat)) (fun _ => []) c ↔
        c ∈ cells t bucketCount.toNat := by
      intro c
      rw [occupied_iff, mem_cells]
      simp
    refine ⟨List.length_replicate, rfl, rfl, ?_, fun c ho => hfree c ((hocc c).mp ho), fun c ho => ?_⟩
    · have hnil :
        (fun b : Fin bucketCount.toNat => chainAt (List.replicate bucketCount.toNat ([] : List (Entry K V))) b) =
          fun _ => [] := by
        funext b
        simp [chainAt]
      show Chained _ _ _ fun b : Fin bucketCount.toNat => chainAt (List.replicate bucketCount.toNat []) b
      rw [hnil]
      exact hheads
    · have hc := mt (hocc c).mpr ho
      show n₂ c = base c
      rw [hout c hc]
      exact if_neg hc

omit [DecidableEq V] in
/-- The same, with the empty map for the table. -/
theorem dictNewSized_good (hash : K → BitVec 32) {bucketCount : BitVec 32} {dictOk : Bool} {table : Option Addr}
    (hfresh : FreshTable base table bucketCount.toNat) :
    wp (dictNewSized bucketCount dictOk table) (fun r _ =>
      (r.isSome ↔ 4 ≤ bucketCount.toNat ∧ bucketCount.toNat.isPowerOfTwo ∧ dictOk = true ∧ table.isSome = true) ∧
      ∀ m ∈ r, Good hash base m (∅ : Finmap fun _ : K => Option V)) base := by
  refine (dictNewSized_stores hfresh).mono fun r _ hr => ?_
  obtain ⟨hsome, hstores⟩ := hr
  refine ⟨?_, fun m hm => ?_⟩
  · rw [hsome, ← isPowerOfTwo_iff]
    have h4 : ¬ bucketCount < 4 ↔ 4 ≤ bucketCount.toNat := by
      rw [BitVec.not_lt, BitVec.le_def]
      rfl
    unfold Dict.dictNewSized
    rw [← h4]
    split_ifs with hbad hdict htable
    · simp only [Option.isSome_none, Bool.false_eq_true, false_iff]
      grind
    · simp [hdict]
    · simp [htable]
    · simp only [Option.isSome_some, true_iff]
      grind
  · obtain ⟨d, hd, hs⟩ := hstores m hm
    obtain ⟨hi, hempty⟩ : Inv hash d ∧ d.entries = [] := dictNewSized_inv hd
    exact ⟨d, _, _, hi, hs, refines_empty hempty⟩

/-- A dictionary is made where its size is a power of two from 4 on and there is memory for it. Every
    run on it answers as the map, and the next call ends, whatever it is. -/
theorem memory_refines_map {bucketCount : BitVec 32} {dictOk : Bool} {table : Option Addr}
    (hfresh : FreshTable base table bucketCount.toNat) :
    wp (dictNewSized bucketCount dictOk table) (fun r _ =>
      (r.isSome ↔ 4 ≤ bucketCount.toNat ∧ bucketCount.toNat.isPowerOfTwo ∧ dictOk = true ∧ table.isSome = true) ∧
      ∀ m ∈ r, ∀ (tr : List (Op K V × Answer V)) m', Runs hash m tr m' →
        tr.map Prod.snd = (runMap ∅ (tr.map Prod.fst)).2 ∧
          ∀ op : Op K V, op.Fresh m' → ∃ a m'', call hash op m' = some (a, m'')) base := by
  refine (dictNewSized_good hash hfresh).mono fun r _ hr => ⟨hr.1, fun m hm tr m' hrun => ?_⟩
  obtain ⟨hanswers, hgood⟩ := runs_spec hrun (hr.2 m hm)
  refine ⟨hanswers, fun op hop => ?_⟩
  obtain ⟨r, hr, -⟩ := call_spec hgood hop
  exact ⟨r.1, r.2, hr⟩

/-- Keys 1 and 5 share a bucket of four; key 2 takes the table to eight buckets; key 5 goes. -/
def grownCalls : List (Op Nat Nat) :=
  [.set (some 1) (some 10) false (some ⟨2000, 0, 0⟩) none, .set (some 5) (some 50) false (some ⟨2100, 0, 0⟩) none,
    .set (some 2) (some 20) false (some ⟨2200, 0, 0⟩) (some 3000), .set (some 1) (some 11) true none none,
    .del (some 5), .get (some 1), .count]

/-- They can be made on a new dictionary of four buckets at 1000. -/
theorem grown_run :
    ∃ (m : Mem Nat Nat) (n : _) (tr : List (Op Nat Nat × Answer Nat)) (m' : Mem Nat Nat),
      dictNewSized 4 true (some 1000) (fun _ => none) = some (some m, n) ∧ Runs (BitVec.ofNat 32) m tr m' ∧
      tr.map Prod.fst = grownCalls ∧
      tr.map Prod.snd = [.rc 0 [], .rc 0 [], .rc 0 [], .rc 0 [10], .rc 0 [], .val (some 11), .size 2] ∧
      m'.nbuckets = 8 ∧ m'.count = 2 := by
  have hrun : ((dictNewSized 4 true (some 1000) fun _ => none).bind fun r => r.1.bind fun m : Mem Nat Nat =>
      (runCalls (BitVec.ofNat 32) m grownCalls).map fun r => (r.1, r.2.nbuckets, r.2.count)) =
      some (grownCalls.zip [.rc 0 [], .rc 0 [], .rc 0 [], .rc 0 [10], .rc 0 [], .val (some 11), .size 2], 8, 2) := by
    decide +kernel
  obtain ⟨⟨_, n⟩, hnew, hrest⟩ := Option.bind_eq_some_iff.mp hrun
  obtain ⟨m, rfl, hrest⟩ := Option.bind_eq_some_iff.mp hrest
  obtain ⟨⟨tr, m'⟩, hcalls, heq⟩ := Option.map_eq_some_iff.mp hrest
  simp only [Prod.mk.injEq] at heq
  obtain ⟨rfl, hn, hc⟩ := heq
  exact ⟨m, n, _, m', hnew, runs_of_runCalls hcalls, rfl, rfl, hn, hc⟩

theorem memory_refines_map_grown :
    ∃ (m : Mem Nat Nat) (n : _) (tr : List (Op Nat Nat × Answer Nat)) (m' : Mem Nat Nat),
      dictNewSized 4 true (some 1000) (fun _ => none) = some (some m, n) ∧ Runs (BitVec.ofNat 32) m tr m' ∧
      tr.map Prod.fst = grownCalls ∧ m'.nbuckets = 8 ∧ tr.map Prod.snd = (runMap ∅ grownCalls).2 ∧
      ∃ a m'', call (BitVec.ofNat 32) (.has (some 5)) m' = some (a, m'') := by
  obtain ⟨m, n, tr, m', hnew, hrun, hcalls, -, hn, -⟩ := grown_run
  obtain ⟨r, hr, -, hruns⟩ := @memory_refines_map Nat Nat _ _ (BitVec.ofNat 32) (fun _ => none) 4 true (some 1000)
    fun _ _ _ _ => rfl
  cases hnew.symm.trans hr
  obtain ⟨hanswers, hnext⟩ := hruns m rfl tr m' hrun
  exact ⟨m, n, tr, m', hnew, hrun, hcalls, hn, hcalls ▸ hanswers, hnext (.has (some 5)) trivial⟩

/-! ## What is in memory -/

omit [DecidableEq K] [DecidableEq V] in
/-- The addresses of a table: its heads and its nodes. -/
theorem Stores.occupied_ncard (hi : Inv hash d) (hs : Stores base m d seq) :
    {c | Occupied (fun b : Fin N => m.head b) seq c}.ncard = m.nbuckets.toNat + m.count := by
  have hset : {c | Occupied (fun b : Fin N => m.head b) seq c} =
      ↑(Finset.univ.biUnion fun b : Fin N => (m.head b :: seq b).toFinset) := by
    ext c
    simp [Occupied]
  have hdisj : ∀ b ∈ Finset.univ, ∀ b' ∈ Finset.univ, b ≠ b' →
      Disjoint (m.head (b : Fin N) :: seq b).toFinset (m.head (b' : Fin N) :: seq b').toFinset := by
    intro b _ b' _ hne
    rw [List.disjoint_toFinset_iff_disjoint]
    exact hs.lists.family.apart b b' hne
  have hsum : ∑ b : Fin N, (chainAt d.buckets b).length = d.entries.length := by
    rw [Dict.entries, flatten_eq_flatMap, List.length_flatMap, hs.size]
    exact Fin.sum_univ_eq_sum_range (fun b => (chainAt d.buckets b).length) N
  rw [hset, Set.ncard_coe_finset, Finset.card_biUnion hdisj]
  have hcard : ∀ b : Fin N, (m.head b :: seq b).toFinset.card = 1 + (chainAt d.buckets b).length := by
    intro b
    rw [List.toFinset_card_of_nodup (hs.lists.family.ring b).nodup, List.length_cons, hs.lists.length b, Nat.add_comm]
  rw [Finset.sum_congr rfl fun b _ => hcard b, Finset.sum_add_distrib, hsum, hs.count, hi.counted, hs.nbuckets,
    ← hi.size, hs.size]
  simp

/-- After any run the memory is the one the dictionary was created in, apart from one head for each bucket and
    one node for each entry, in memory that was free. -/
theorem memory_exact {bucketCount : BitVec 32} {dictOk : Bool} {table : Option Addr}
    (hfresh : FreshTable base table bucketCount.toNat) :
    wp (dictNewSized bucketCount dictOk table) (fun r _ =>
      ∀ m ∈ r, ∀ (tr : List (Op K V × Answer V)) m', Runs hash m tr m' →
        (∀ c, m'.nodes c ≠ base c → base c = none ∧ (m'.nodes c).isSome) ∧
        {c | m'.nodes c ≠ base c}.ncard = m'.nbuckets.toNat + m'.count) base := by
  refine (dictNewSized_good hash hfresh).mono fun r _ hr m hm tr m' hrun => ?_
  obtain ⟨-, d, N, seq, hi, hs, -⟩ := runs_spec hrun (hr.2 m hm)
  have hocc : ∀ c, m'.nodes c ≠ base c ↔ Occupied (fun b : Fin N => m'.head b) seq c := by
    intro c
    constructor
    · intro hne
      by_contra ho
      exact hne (hs.rest c ho)
    · intro ho heq
      have hp := hs.lists.present ho
      rw [heq, hs.own c ho] at hp
      cases hp
  refine ⟨fun c hne => ⟨hs.own c ((hocc c).mp hne), hs.lists.present ((hocc c).mp hne)⟩, ?_⟩
  simp only [hocc]
  exact hs.occupied_ncard hi

/-- Eight heads and two entries are what the run of `grownCalls` leaves: the table of four and key 5
    are back with the allocator. -/
theorem memory_exact_grown :
    ∃ (m : Mem Nat Nat) (n : _) (tr : List (Op Nat Nat × Answer Nat)) (m' : Mem Nat Nat),
      dictNewSized 4 true (some 1000) (fun _ => none) = some (some m, n) ∧ Runs (BitVec.ofNat 32) m tr m' ∧
      tr.map Prod.fst = grownCalls ∧ {c | m'.nodes c ≠ none}.ncard = 10 := by
  obtain ⟨m, n, tr, m', hnew, hrun, hcalls, -, hn, hc⟩ := grown_run
  obtain ⟨r, hr, hruns⟩ := @memory_exact Nat Nat _ _ (BitVec.ofNat 32) (fun _ => none) 4 true (some 1000)
    fun _ _ _ _ => rfl
  cases hnew.symm.trans hr
  have hcard := (hruns m rfl tr m' hrun).2
  rw [hn, hc] at hcard
  exact ⟨m, n, tr, m', hnew, hrun, hcalls, hcard⟩

end KanekFoundations.Dict.Nodes

/-
  KanekFoundations.Dict.Growth — the table's growth on insert, with memory for it and
  without.

  An insert allocates twice: the entry, then a table twice as large once the load is
  three quarters. No memory for the first refuses the insert; no memory for the second
  is absorbed.

  Proved:
  - `alloc_failures`: a call that answers -1 changes nothing and frees nothing; an insert
    whose rehash has no memory is an insert all the same.
  - `load_bounded`: as long as allocations succeed, one doubling for each insert keeps
    the load below three quarters, up to the largest table there is.
-/

import KanekFoundations.Dict.DictProofs

namespace KanekFoundations.Dict

open KanekFoundations.Lib

variable {K V : Type} {hash : K → BitVec 32} {d : Dict K V}

/-! ## Allocations that fail -/

theorem dictRehash_refused (hash : K → BitVec 32) (d : Dict K V) (n : BitVec 32) (tableOk : Bool) :
    let r := dictRehash hash d n tableOk
    (r.rc = -1 ↔ n < 4 ∨ isPowerOfTwo n = false ∨ tableOk = false) ∧ (r.rc = -1 → r = ⟨-1, d, []⟩) := by
  intro r
  have hr : r = dictRehash hash d n tableOk := rfl
  unfold dictRehash at hr
  by_cases hvalid : n < 4 ∨ isPowerOfTwo n = false
  · rw [if_pos hvalid] at hr
    rw [hr, ← or_assoc]
    exact ⟨⟨fun _ => .inl hvalid, fun _ => rfl⟩, fun _ => rfl⟩
  rw [if_neg hvalid] at hr
  by_cases hok : tableOk = false
  · rw [if_pos hok] at hr
    rw [hr, ← or_assoc]
    exact ⟨⟨fun _ => .inr hok, fun _ => rfl⟩, fun _ => rfl⟩
  rw [if_neg hok] at hr
  have hne : (0 : Int) ≠ -1 := by decide
  rw [hr, ← or_assoc]
  exact ⟨⟨fun h0 => absurd h0 hne, fun hor => absurd hor (not_or.mpr ⟨hvalid, hok⟩)⟩, fun h0 => absurd h0 hne⟩

section
variable [DecidableEq K]

theorem dictHas_eq (h : Inv hash d) (key : K) :
    dictHas hash d (some key) = if key ∈ d.entries.map Entry.key then 1 else 0 := by
  have hfind : (dictFind hash d key).isSome = true ↔ key ∈ d.entries.map Entry.key := by
    rw [Option.isSome_iff_exists, List.mem_map]
    exact exists_congr fun e => dictFind_some h key e
  simp only [dictHas, hfind]

variable [DecidableEq V]

/-- Freeing the old value is all that `dict_set_owned` does besides `dict_set`. -/
theorem dictSetImpl_freeOld (hash : K → BitVec 32) (d : Dict K V) (key : Option K) (val : Option V)
    (freeOld entryOk tableOk : Bool) :
    (dictSetImpl hash d key val freeOld entryOk tableOk).rc = (dictSet hash d key val entryOk tableOk).rc ∧
      (dictSetImpl hash d key val freeOld entryOk tableOk).d = (dictSet hash d key val entryOk tableOk).d := by
  unfold dictSet dictSetImpl
  cases key with
  | none => exact ⟨rfl, rfl⟩
  | some key =>
    simp only
    split
    · exact ⟨rfl, rfl⟩
    · exact ⟨rfl, rfl⟩

theorem dictSetImpl_refused (h : Inv hash d) (key : Option K) (val : Option V) (freeOld entryOk tableOk : Bool)
    (hrc : (dictSetImpl hash d key val freeOld entryOk tableOk).rc = -1) :
    dictSetImpl hash d key val freeOld entryOk tableOk = ⟨-1, d, []⟩ := by
  cases key with
  | none => rfl
  | some key =>
    obtain ⟨-, hcases⟩ := dictSetImpl_cases h key val freeOld entryOk tableOk
    rcases hcases with ⟨_, _, _, _, h0, _⟩ | ⟨_, _, h0, _⟩ | ⟨_, _, hr⟩
    · rw [h0] at hrc
      cases hrc
    · rw [h0] at hrc
      cases hrc
    · exact hr

/-- The key is in, with its value; every other key is as it was, in a table of the same
    size that is still in order. -/
structure Inserted (hash : K → BitVec 32) (d : Dict K V) (key : K) (val : Option V) (r : Out K V) : Prop where
  rc : r.rc = 0
  inv : Inv hash r.d
  has : dictHas hash r.d (some key) = 1
  get : dictGet hash r.d (some key) = val
  others : ∀ k, k ≠ key → dictHas hash r.d (some k) = dictHas hash d (some k) ∧
    dictGet hash r.d (some k) = dictGet hash d (some k)
  size : r.d.nbuckets = d.nbuckets
  count : r.d.count = d.count + 1
  freed : r.freed = []

theorem insert_without_table (h : Inv hash d) {key : K} (habsent : ∀ e ∈ d.entries, e.key ≠ key) (val : Option V)
    (freeOld : Bool) : Inserted hash d key val (dictSetImpl hash d (some key) val freeOld true false) := by
  obtain ⟨hinv, hcases⟩ := dictSetImpl_cases h key val freeOld true false
  have hperm : (dictSetImpl hash d (some key) val freeOld true false).d.entries.Perm (⟨key, val⟩ :: d.entries) := by
    rcases hcases with ⟨old, rest, hold, -⟩ | ⟨-, hperm, -⟩ | ⟨-, hok, -⟩
    · exact absurd rfl (habsent _ (hold.mem_iff.mpr List.mem_cons_self))
    · exact hperm
    · cases hok
  have hkeys : ∀ k, k ∈ (dictSetImpl hash d (some key) val freeOld true false).d.entries.map Entry.key ↔
      k = key ∨ k ∈ d.entries.map Entry.key := by
    intro k
    rw [(hperm.map Entry.key).mem_iff, List.map_cons, List.mem_cons]
  -- With no memory for the table a rehash gives back what it was given.
  have hr : dictSetImpl hash d (some key) val freeOld true false =
      ⟨0, { d with buckets := addTail d.buckets (bucketForN hash key d.nbuckets) ⟨key, val⟩, count := d.count + 1 },
          []⟩ := by
    have hchain : updateChain key val (chainAt d.buckets (bucketForN hash key d.nbuckets)) = none := by
      refine updateChain_none.mpr fun e he => habsent e ?_
      exact mem_chainAt_flatten (h.bucket_lt key) he
    have hrehash : ∀ d' : Dict K V, dictRehash hash d' (d.nbuckets * 2) false = ⟨-1, d', []⟩ := fun d' =>
      (dictRehash_refused hash d' (d.nbuckets * 2) false).2
        ((dictRehash_refused hash d' (d.nbuckets * 2) false).1.mpr (.inr (.inr rfl)))
    simp only [dictSetImpl, hchain, hrehash, ite_self, Bool.true_eq_false, if_false]
  obtain ⟨-, hset⟩ := dictSet_get h key val true false
  rcases hset with ⟨-, -, hget⟩ | ⟨-, hok, -⟩
  · rw [← (dictSetImpl_freeOld hash d (some key) val freeOld true false).2] at hget
    refine ⟨by rw [hr], hinv, ?_, ?_, fun k hk => ⟨?_, ?_⟩, by rw [hr], by rw [hr], by rw [hr]⟩
    · rw [dictHas_eq hinv, if_pos ((hkeys key).mpr (.inl rfl))]
    · rw [hget, if_pos rfl]
    · simp only [dictHas_eq hinv, dictHas_eq h, hkeys, hk, false_or]
    · rw [hget, if_neg hk]
  · cases hok

/-- From any table in order: a call that answers -1 leaves it exactly as it was and frees
    nothing, and a new key goes in whether or not there is memory to grow. -/
theorem alloc_failures (h : Inv hash d) :
    (∀ n tableOk, let r := dictRehash hash d n tableOk
      (r.rc = -1 ↔ n < 4 ∨ isPowerOfTwo n = false ∨ tableOk = false) ∧ (r.rc = -1 → r.d = d ∧ r.freed = [])) ∧
    (∀ key val entryOk tableOk, (dictSet hash d key val entryOk tableOk).rc = -1 →
      (dictSet hash d key val entryOk tableOk).d = d ∧ (dictSet hash d key val entryOk tableOk).freed = []) ∧
    (∀ key val entryOk tableOk, (dictSetOwned hash d key val entryOk tableOk).rc = -1 →
      (dictSetOwned hash d key val entryOk tableOk).d = d ∧ (dictSetOwned hash d key val entryOk tableOk).freed = []) ∧
    ∀ key, (∀ e ∈ d.entries, e.key ≠ key) → ∀ val,
      Inserted hash d key val (dictSet hash d (some key) val true false) ∧
        Inserted hash d key val (dictSetOwned hash d (some key) val true false) := by
  refine ⟨fun n tableOk => ?_, fun key val entryOk tableOk hrc => ?_, fun key val entryOk tableOk hrc => ?_,
    fun key habsent val => ?_⟩
  · obtain ⟨hiff, hsame⟩ := dictRehash_refused hash d n tableOk
    refine ⟨hiff, fun hrc => ?_⟩
    rw [hsame hrc]
    exact ⟨rfl, rfl⟩
  · have hr : dictSet hash d key val entryOk tableOk = ⟨-1, d, []⟩ :=
      dictSetImpl_refused h key val false entryOk tableOk hrc
    rw [hr]
    exact ⟨rfl, rfl⟩
  · have hr : dictSetOwned hash d key val entryOk tableOk = ⟨-1, d, []⟩ :=
      dictSetImpl_refused h key val true entryOk tableOk hrc
    rw [hr]
    exact ⟨rfl, rfl⟩
  · exact ⟨insert_without_table h habsent val false, insert_without_table h habsent val true⟩

/-- The third key of a table of four brings the load to three quarters; there is no
    memory to grow, and the key is found. -/
theorem alloc_failures_third :
    let hash : Nat → BitVec 32 := fun key => BitVec.ofNat 32 key
    dictGet hash (dictSet hash (⟨[[], [⟨1, some 10⟩], [⟨2, some 20⟩], []], 4, 2⟩ : Dict Nat Nat) (some 5)
      (some 50) true false).d
      (some 5) = some 50 := by
  intro hash
  have hinv : Inv hash (⟨[[], [⟨1, some 10⟩], [⟨2, some 20⟩], []], 4, 2⟩ : Dict Nat Nat) :=
    ⟨⟨2, rfl⟩, by decide, rfl, by unfold Placed; decide, by decide, rfl⟩
  exact ((alloc_failures hinv).2.2.2 5 (by decide) (some 50)).1.get

/-! ## Growth -/

/-- No `ta_malloc` or `ta_calloc` of the call fails, and it is not `dict_rehash`. -/
def Op.Granted : Op K V → Prop
  | .set _ _ entryOk tableOk | .setOwned _ _ entryOk tableOk => entryOk = true ∧ tableOk = true
  | .del _ => True
  | .rehash _ _ => False

/-- The load is below three quarters, or the table is the largest there is. -/
def Loaded (d : Dict K V) : Prop := d.count * 4 < d.nbuckets.toNat * 3 ∨ d.nbuckets.toNat = 2 ^ 31

omit [DecidableEq K] [DecidableEq V] in
/-- The guard of the doubling fails at the last power of two. -/
theorem pow2_top {n : BitVec 32} (hp : n.toNat.isPowerOfTwo) (h : ¬ n.toNat ≤ (2 ^ 32 - 1) / 2) : n.toNat = 2 ^ 31 := by
  obtain ⟨k, hk⟩ := hp
  have hlt := n.isLt
  rw [hk] at h hlt ⊢
  have hk32 : k < 32 := (Nat.pow_lt_pow_iff_right (by decide)).mp hlt
  have hk31 : 31 ≤ k := by
    by_contra hsmall
    have hpow : 2 ^ k ≤ 2 ^ 30 := Nat.pow_le_pow_right (by decide) (by omega)
    omega
  rw [show k = 31 by omega]

omit [DecidableEq K] [DecidableEq V] in
theorem dictRehash_granted (hash : K → BitVec 32) {n : BitVec 32} (hp : n.toNat.isPowerOfTwo) (h4 : 4 ≤ n.toNat)
    (d : Dict K V) :
    (dictRehash hash d n true).d.nbuckets = n ∧ (dictRehash hash d n true).d.count = d.count := by
  have hvalid : ¬ (n < 4 ∨ isPowerOfTwo n = false) := by
    rw [not_or, Bool.not_eq_false, isPowerOfTwo_iff, BitVec.not_lt, BitVec.le_def]
    exact ⟨h4, hp⟩
  unfold dictRehash
  rw [if_neg hvalid, if_neg (by decide)]
  exact ⟨rfl, rfl⟩

/-- The test before the doubling, at the count the table then has. -/
def Full (d : Dict K V) (count : Nat) : Prop := d.nbuckets.toNat * 3 ≤ count * 4 ∧ d.nbuckets.toNat ≤ (2 ^ 32 - 1) / 2

/-- The size after a call: nothing but an insert that fills the table changes it, and
    that one doubles it exactly. -/
def Sized (d d' : Dict K V) : Prop :=
  (d'.count ≤ d.count ∧ d'.nbuckets = d.nbuckets) ∨
    (d'.count = d.count + 1 ∧ ¬ Full d d'.count ∧ d'.nbuckets = d.nbuckets) ∨
    d'.count = d.count + 1 ∧ Full d d'.count ∧ d'.nbuckets.toNat = 2 * d.nbuckets.toNat

theorem dictSetImpl_sized (h : Inv hash d) (key : Option K) (val : Option V) (freeOld : Bool) :
    Sized d (dictSetImpl hash d key val freeOld true true).d := by
  unfold dictSetImpl
  cases key with
  | none => exact .inl ⟨Nat.le_refl _, rfl⟩
  | some key =>
    simp only [Bool.true_eq_false, if_false]
    split
    · exact .inl ⟨Nat.le_refl _, rfl⟩
    · right
      split
      · rename_i hgrow
        have hdouble : (d.nbuckets * 2).toNat = 2 * d.nbuckets.toNat := by
          have hguard := hgrow.2
          rw [BitVec.toNat_mul, Nat.mul_comm]
          exact Nat.mod_eq_of_lt (show 2 * d.nbuckets.toNat < 2 ^ 32 by omega)
        have hp : (d.nbuckets * 2).toNat.isPowerOfTwo := by
          rw [hdouble, Nat.mul_comm]
          exact Nat.isPowerOfTwo_mul_two_of_isPowerOfTwo h.pow2
        have h4 := h.four
        obtain ⟨hsize, hcount⟩ := dictRehash_granted hash hp (by omega)
          { d with buckets := addTail d.buckets (bucketForN hash key d.nbuckets) ⟨key, val⟩, count := d.count + 1 }
        right
        refine ⟨hcount, ?_, ?_⟩
        · rw [hcount]
          exact hgrow
        · rw [hsize, hdouble]
      · rename_i hgrow
        exact .inl ⟨rfl, hgrow, rfl⟩

theorem step_sized (h : Inv hash d) {op : Op K V} (hop : op.Granted) : Sized d (step hash d op).d := by
  cases op with
  | set key val entryOk tableOk =>
    obtain ⟨rfl, rfl⟩ := hop
    exact dictSetImpl_sized h key val false
  | setOwned key val entryOk tableOk =>
    obtain ⟨rfl, rfl⟩ := hop
    exact dictSetImpl_sized h key val true
  | rehash n tableOk => exact hop.elim
  | del key =>
    left
    cases key with
    | none => exact ⟨Nat.le_refl _, rfl⟩
    | some key =>
      unfold step dictDel
      simp only
      split
      · exact ⟨Nat.sub_le _ _, rfl⟩
      · exact ⟨Nat.le_refl _, rfl⟩

omit [DecidableEq K] [DecidableEq V] in
/-- One doubling is enough: the load was below three quarters before the insert. -/
theorem Loaded.sized {d' : Dict K V} (h : Inv hash d) (hl : Loaded d) (hs : Sized d d') : Loaded d' := by
  have h4 := h.four
  unfold Loaded at hl ⊢
  rcases hs with ⟨hcount, hsize⟩ | ⟨hcount, hroom, hsize⟩ | ⟨hcount, -, hsize⟩
  · rw [hsize]
    omega
  · by_cases hguard : d.nbuckets.toNat ≤ (2 ^ 32 - 1) / 2
    · have hlt : ¬ d.nbuckets.toNat * 3 ≤ d'.count * 4 := fun hle => hroom ⟨hle, hguard⟩
      rw [hsize]
      omega
    · right
      rw [hsize]
      exact pow2_top h.pow2 hguard
  · rcases hl with hlt | htop
    · left
      omega
    · have hlt := d'.nbuckets.isLt
      omega

theorem run_loaded (h : Inv hash d) {m : Finmap (fun _ : K => Option V)} (hm : Refines d m) (hl : Loaded d)
    (ops : List (Op K V)) (hops : ∀ op ∈ ops, op.Granted) :
    Inv hash (run hash d m ops).1 ∧ Loaded (run hash d m ops).1 := by
  induction ops generalizing d m with
  | nil => exact ⟨h, hl⟩
  | cons op ops ih =>
    rw [List.forall_mem_cons] at hops
    obtain ⟨hop, hops⟩ := hops
    obtain ⟨hinv, href⟩ := step_refines h hm op
    exact ih hinv href (hl.sized h (step_sized h hop)) hops

/-- After any operations on a new dictionary whose allocations succeed, the load is below
    three quarters or the table has `2^31` buckets. No operation shrinks the table, and
    no doubling wraps. -/
theorem load_bounded {bucketCount : BitVec 32} {dictOk tableOk : Bool}
    (hnew : dictNewSized bucketCount dictOk tableOk = some d) (ops : List (Op K V)) (hops : ∀ op ∈ ops, op.Granted) :
    let r := (run hash d ∅ ops).1
    (4 * r.count < 3 * r.nbuckets.toNat ∨ r.nbuckets.toNat = 2 ^ 31) ∧
      r.nbuckets.toNat.isPowerOfTwo ∧ 4 ≤ r.nbuckets.toNat ∧
      ∀ op : Op K V, op.Granted → Sized r (step hash r op).d ∧
          r.nbuckets.toNat ≤ (step hash r op).d.nbuckets.toNat := by
  obtain ⟨hinv0, hempty⟩ : Inv hash d ∧ d.entries = [] := dictNewSized_inv hnew
  have hload0 : Loaded d := by
    have h4 := hinv0.four
    left
    rw [hinv0.counted, hempty]
    show 0 * 4 < _
    omega
  intro r
  obtain ⟨hinv, hload⟩ : Inv hash r ∧ Loaded r := run_loaded hinv0 (refines_empty hempty) hload0 ops hops
  refine ⟨?_, hinv.pow2, hinv.four, fun op hop => ?_⟩
  · rcases hload with hlt | htop
    · left
      omega
    · exact .inr htop
  · have hsized : Sized r (step hash r op).d := step_sized hinv hop
    refine ⟨hsized, ?_⟩
    rcases hsized with ⟨-, hsize⟩ | ⟨-, -, hsize⟩ | ⟨-, -, hsize⟩
    · exact (congrArg BitVec.toNat hsize).ge
    · exact (congrArg BitVec.toNat hsize).ge
    · omega

/-- Three keys double a table of four. -/
theorem load_bounded_four :
    let hash : Nat → BitVec 32 := fun _ => 5
    let r := (run hash (⟨List.replicate 4 [], 4, 0⟩ : Dict Nat Nat) ∅
      [.set (some 1) none true true, .set (some 2) none true true, .setOwned (some 3) none true true]).1
    r.nbuckets = 8 ∧ 4 ≤ r.nbuckets.toNat := by
  intro hash r
  have hnew : dictNewSized 4 true true = some (⟨List.replicate 4 [], 4, 0⟩ : Dict Nat Nat) := rfl
  have h := @load_bounded _ _ hash _ _ _ _ _ _ hnew
    [.set (some 1) none true true, .set (some 2) none true true, .setOwned (some 3) none true true]
      (by simp [Op.Granted])
  exact ⟨by decide, h.2.2.1⟩

end

end KanekFoundations.Dict

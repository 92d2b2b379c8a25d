/-
  KanekFoundations.Dict.NodeProofs — the nodes of a table in memory, and `dict_del` (see
  `KanekFoundations.Dict.Nodes`).

  No two chains of a table share a node, since a node holds its entry and a table in order
  has each entry once: what a call does to one chain leaves the others as they are
  (`Holds.unlink`). `dict_del` in memory refines that of the table (`dictDel_refines`).
-/

import KanekFoundations.Dict.DictProofs
import KanekFoundations.Dict.Nodes

namespace KanekFoundations.Dict.Nodes

open KanekFoundations.Lib KanekFoundations.Links

variable {K V U : Type} {hash : K → BitVec 32} {m m' : Mem K V} {d : Dict K V} {addrs : Nat → List Addr}
  {b b' : Nat} {y : Addr} {ys zs : List Addr} {e : Entry K V} {cs ds : List (Entry K V)}

/-! ## Programs -/

theorem wp_links {α : Type} {x : Links.M (Option (Entry K V)) α} {Q : α → Mem K V → Prop} :
    wp (links x) Q m ↔ wp x (fun r e => Q r { m with nodes := e }) m.nodes := by
  unfold wp links
  cases x m.nodes with
  | none => simp
  | some _ => simp

theorem wp_get {Q : Mem K V → Mem K V → Prop} : wp get Q m ↔ Q m m := wp_run rfl

theorem wp_getEntry {Q : Entry K V → Mem K V → Prop} (h : m.nodes.rest y = some (some e)) :
    wp (getEntry y) Q m ↔ Q e m :=
  wp_run (by simp [getEntry, h])

theorem wp_taFree {Q : Unit → Mem K V → Prop} (h : m.nodes.rest y = some (some e)) :
    wp (taFree y) Q m ↔ Q () { m with nodes := m.nodes.put y none } :=
  wp_run (by simp [taFree, h])

theorem nextOf_run {z : Addr} (h : m.nodes.next y = some z) : nextOf y m = some (z, m) := by
  simp [nextOf, links, getNext, h]

/-! ## The nodes of a table -/

theorem head_inj : m.head b = m.head b' ↔ b = b' := by
  simp [Mem.head, LIST_T]

section
variable (hh : Holds m d addrs)
include hh

/-- A node of a chain, and its entry. -/
theorem Holds.entry (hb : b < d.buckets.length) (haddr : addrs b = ys ++ y :: zs) :
    ∃ cs e ds, chainAt d.buckets b = cs ++ e :: ds ∧ ys.map m.nodes.rest = cs.map (fun e => some (some e)) ∧
      m.nodes.rest y = some (some e) ∧ zs.map m.nodes.rest = ds.map fun e => some (some e) := by
  have hmap := hh.entries b hb
  rw [haddr, List.map_append, List.map_cons] at hmap
  obtain ⟨cs, rest, hchain, hcs, hrest⟩ := List.map_eq_append_iff.mp hmap.symm
  obtain ⟨e, ds, rfl, he, hds⟩ := List.map_eq_cons_iff.mp hrest
  exact ⟨cs, e, ds, hchain, hcs.symm, he.symm, hds.symm⟩

theorem Holds.entry_at (hb : b < d.buckets.length) (haddr : addrs b = ys ++ y :: zs)
    (hchain : chainAt d.buckets b = cs ++ e :: ds)
    (hlen : ys.length = cs.length) :
    ys.map m.nodes.rest = cs.map (fun e => some (some e)) ∧ m.nodes.rest y = some (some e) ∧
      zs.map m.nodes.rest = ds.map fun e => some (some e) := by
  obtain ⟨cs', e', ds', hchain', hcs, hentry, hds⟩ := hh.entry hb haddr
  have hlen' : cs.length = cs'.length := by
    rw [← hlen]
    simpa using congrArg List.length hcs
  obtain ⟨rfl, htail⟩ := List.append_inj (hchain.symm.trans hchain') hlen'
  obtain ⟨rfl, rfl⟩ := List.cons.inj htail
  exact ⟨hcs, hentry, hds⟩

theorem Holds.length (hb : b < d.buckets.length) : (addrs b).length = (chainAt d.buckets b).length := by
  simpa using congrArg List.length (hh.entries b hb)

theorem Holds.not_head (hb : b < d.buckets.length) (hb' : b' < d.buckets.length) (hy : y ∈ addrs b) :
    y ≠ m.head b' := by
  intro heq
  obtain ⟨ys, zs, haddr⟩ := List.append_of_mem hy
  obtain ⟨_, _, _, _, _, hentry, _⟩ := hh.entry hb haddr
  rw [heq, hh.heads b' hb'] at hentry
  cases hentry

theorem Holds.apart (hi : Inv hash d) (hb : b < d.buckets.length) (hb' : b' < d.buckets.length) (hy : y ∈ addrs b)
    (hy' : y ∈ addrs b') : b = b' := by
  obtain ⟨ys, zs, haddr⟩ := List.append_of_mem hy
  obtain ⟨ys', zs', haddr'⟩ := List.append_of_mem hy'
  obtain ⟨cs, e, ds, hchain, _, hentry, _⟩ := hh.entry hb haddr
  obtain ⟨cs', e', ds', hchain', _, hentry', _⟩ := hh.entry hb' haddr'
  have he : e = e' := by
    rw [hentry] at hentry'
    exact Option.some.inj (Option.some.inj hentry')
  rw [← hi.placed b hb e (by rw [hchain]; simp), ← hi.placed b' hb' e' (by rw [hchain']; simp), he]

/-- The chain of another bucket has none of a bucket's nodes, nor its head. -/
theorem Holds.outside (hi : Inv hash d) (hb : b < d.buckets.length) (hb' : b' < d.buckets.length) (hne : b' ≠ b) :
    ∀ c ∈ m.head b' :: addrs b', c ∉ m.head b :: addrs b := by
  intro c hc hmem
  rcases List.mem_cons.mp hc with rfl | hc
  · rcases List.mem_cons.mp hmem with heq | hmem
    · exact hne (head_inj.mp heq)
    · exact hh.not_head hb hb' hmem rfl
  · rcases List.mem_cons.mp hmem with rfl | hmem
    · exact hh.not_head hb' hb hc rfl
    · exact hne (hh.apart hi hb' hb hc hmem)

theorem Holds.fuel (hi : Inv hash d) (hb : b < d.buckets.length) : (addrs b).length < m.count + 1 := by
  obtain ⟨pre, post, hflat, -⟩ := flatten_set hb
  have hlen := congrArg List.length hflat
  rw [hh.length hb, hh.count, hi.counted, Dict.entries]
  simp only [List.length_append] at hlen
  omega

/-- From a node of a chain, or its head, one gets to what stands behind it. -/
theorem Holds.link (hb : b < d.buckets.length) (haddr : addrs b = ys ++ zs) {post : List Addr}
    (hy : zs ++ [m.head b] = y :: post) : ∃ z, nextOf y m = some (z, m) ∧ ∀ y' post', post = y' :: post' → z = y' := by
  have hring := hh.ring b hb
  rw [haddr] at hring
  obtain ⟨z, hz, hnext⟩ := link_of_ring hring hy
  exact ⟨z, nextOf_run hz, hnext⟩

theorem Holds.first (hb : b < d.buckets.length) {post : List Addr} (hy : addrs b ++ [m.head b] = y :: post) :
    nextOf (m.head b) m = some (y, m) :=
  nextOf_run (Ring.front (hh.ring b hb) hy).1

/-- A node unlinked and freed: its entry is out, every other chain is as it was. -/
theorem Holds.unlink (hi : Inv hash d) (hb : b < d.buckets.length) (haddr : addrs b = ys ++ y :: zs)
    (hchain : chainAt d.buckets b = cs ++ e :: ds) (hlen : ys.length = cs.length) {Q : Option Int → Mem K V → Prop}
    (hQ : ∀ m' : Mem K V, m'.buckets = m.buckets →
      Holds m' { d with buckets := d.buckets.set b (cs ++ ds), count := d.count - 1 }
      (Function.update addrs b (ys ++ zs)) → Q (some 0) m') :
    wp (do
      links (listDel y)
      taFree y
      modify fun m => { m with count := m.count - 1 }
      pure (some 0)) Q m := by
  obtain ⟨hcs, hentry, hds⟩ := hh.entry_at hb haddr hchain hlen
  have hring := hh.ring b hb
  rw [haddr] at hring
  have hout : y ∉ m.head b :: (ys ++ zs) := by
    have hperm : (m.head b :: (ys ++ y :: zs)).Perm (y :: m.head b :: (ys ++ zs)) :=
      (List.perm_middle.cons _).trans (List.Perm.swap ..)
    exact (List.nodup_cons.mp (hperm.nodup_iff.mp hring.nodup)).1
  have hmem : y ∈ addrs b := haddr ▸ List.mem_append_right _ (List.mem_cons_self ..)
  rw [wp_bind, wp_links]
  refine (listDel_spec hring).mono fun _ n hn => ?_
  obtain ⟨hn, hrest, hframe⟩ := hn
  rw [wp_bind, wp_taFree (m := { m with nodes := n }) (e := e) (show n.rest y = _ by rw [hrest]; exact hentry)]
  refine (wp_bind.mpr ((wp_run rfl).mpr (wp_pure.mpr ?_)))
  refine hQ _ rfl ⟨hh.nbuckets, congrArg (· - 1) hh.count, fun b' hb' => ?_, fun b' hb' => ?_, fun b' hb' => ?_⟩
  · replace hb' : b' < d.buckets.length := by simpa using hb'
    by_cases hbb : b' = b
    · subst hbb
      rw [Function.update_self]
      exact ring_put hn hout none
    · have hsep := hh.outside hi hb hb' hbb
      rw [Function.update_of_ne hbb]
      have hkeep : ∀ c ∈ m.head b' :: addrs b', n c = m.nodes c := by
        intro c hc
        refine hframe c fun hmem' => hsep c hc ?_
        rw [haddr]
        simp at hmem' ⊢
        tauto
      refine ring_put ((hh.ring b' hb').congr (fun c hc => ?_) fun c hc => ?_) (fun hy => ?_) none
      · exact congrArg (Option.map Links.Entry.next) (hkeep c hc)
      · exact congrArg (Option.map Links.Entry.prev) (hkeep c hc)
      · exact hsep y hy (List.mem_cons_of_mem _ hmem)
  · replace hb' : b' < d.buckets.length := by simpa using hb'
    have hsame : ∀ l : List Addr, y ∉ l → l.map (n.put y none).rest = l.map m.nodes.rest := by
      intro l hl
      rw [Entries.put_rest, hrest]
      refine List.map_congr_left fun c hc => Function.update_of_ne (fun heq => ?_) _ _
      subst heq
      exact hl hc
    by_cases hbb : b' = b
    · subst hbb
      rw [Function.update_self, chainAt_set hb', if_pos rfl]
      show (ys ++ zs).map (n.put y none).rest = _
      rw [hsame _ fun hy => hout (List.mem_cons_of_mem _ hy), List.map_append, List.map_append, hcs, hds]
    · rw [Function.update_of_ne hbb, chainAt_set hb, if_neg hbb]
      show (addrs b').map (n.put y none).rest = _
      rw [hsame _ fun hy => hbb (hh.apart hi hb' hb hy hmem)]
      exact hh.entries b' hb'
  · replace hb' : b' < d.buckets.length := by simpa using hb'
    show (n.put y none).rest (m.head b') = _
    rw [Entries.put_rest, hrest, Function.update_of_ne (Ne.symm (hh.not_head hb hb' hmem))]
    exact hh.heads b' hb'

end

/-! ## `dict_del` -/

theorem chain_keys_nodup (hi : Inv hash d) (hb : b < d.buckets.length) :
    ((chainAt d.buckets b).map Entry.key).Nodup := by
  obtain ⟨pre, post, hflat, -⟩ := flatten_set hb
  have hnodup := hi.nodup
  rw [Dict.entries, hflat, List.map_append, List.map_append] at hnodup
  exact (List.nodup_append.mp (List.nodup_append.mp hnodup).1).2.1

/-- The entry of a chain with a key is the only one, and the one that is unlinked. -/
theorem unlinkChain_at [DecidableEq K] (hno : ∀ e' ∈ cs, e'.key ≠ e.key) :
    unlinkChain e.key (cs ++ e :: ds) = some (cs ++ ds, e) := by
  induction cs with
  | nil =>
    rw [List.nil_append, unlinkChain, if_pos rfl]
    rfl
  | cons c cs ih =>
    rw [List.forall_mem_cons] at hno
    rw [List.cons_append, unlinkChain, if_neg hno.1, ih hno.2]
    rfl

/-- In a chain every entry before another has another key. -/
theorem keys_before (hi : Inv hash d) (hb : b < d.buckets.length) (hchain : chainAt d.buckets b = cs ++ e :: ds) :
    ∀ e' ∈ cs, e'.key ≠ e.key := by
  intro e' he'
  have hkeys := chain_keys_nodup hi hb
  rw [hchain, List.map_append, List.map_cons] at hkeys
  exact (List.nodup_append.mp hkeys).2.2 _ (List.mem_map_of_mem he') _ (List.mem_cons_self ..)

theorem dictDel_chain [DecidableEq K] (hi : Inv hash d) (hb : b < d.buckets.length)
    (hchain : chainAt d.buckets b = cs ++ e :: ds) :
    Dict.dictDel hash d (some e.key) =
      ⟨0, { d with buckets := d.buckets.set b (cs ++ ds), count := d.count - 1 }, [.entry e]⟩ := by
  have hbucket : bucketForN hash e.key d.nbuckets = b := hi.placed b hb e (by rw [hchain]; simp)
  simp only [Dict.dictDel, hbucket, hchain, unlinkChain_at (keys_before hi hb hchain)]

section
variable [DecidableEq K] (hi : Inv hash d) (hh : Holds m d addrs)
include hi hh

/-- `dict_del` of the key of an entry takes just its node out of its chain. -/
theorem dictDel_at (hb : b < d.buckets.length) (haddr : addrs b = ys ++ y :: zs)
    (hchain : chainAt d.buckets b = cs ++ e :: ds)
    (hlen : ys.length = cs.length) :
    wp (dictDel hash (some e.key)) (fun rc m' => rc = 0 ∧ m'.buckets = m.buckets ∧
      Inv hash { d with buckets := d.buckets.set b (cs ++ ds), count := d.count - 1 } ∧
      Holds m' { d with buckets := d.buckets.set b (cs ++ ds), count := d.count - 1 }
        (Function.update addrs b (ys ++ zs))) m := by
  have hbucket : bucketForN hash e.key d.nbuckets = b := hi.placed b hb e (by rw [hchain]; simp)
  have hno := keys_before hi hb hchain
  have hinv := (dictDel_cases hi e.key).1
  rw [dictDel_chain hi hb hchain] at hinv
  unfold dictDel
  rw [wp_bind, wp_get, wp_bind, hh.nbuckets, hbucket]
  -- Every node before `y` has another key; `y` ends the loop.
  refine (forEachUntil_rule (fun left s => s = m ∧ ∃ pre left', left = left' ++ y :: zs ∧ ys = pre ++ left')
    (fun r m' => r = some 0 ∧ m'.buckets = m.buckets ∧
      Holds m' { d with buckets := d.buckets.set b (cs ++ ds), count := d.count - 1 }
        (Function.update addrs b (ys ++ zs)))
    ?_ ?_ ?_ (hh.fuel hi hb) ⟨rfl, [], ys, haddr, rfl⟩ fun _ _ hy => hh.first hb hy).mono fun r m' hr => ?_
  · intro left s z post hI hz
    obtain ⟨rfl, pre, left', rfl, rfl⟩ := hI
    exact hh.link hb (show addrs b = pre ++ (left' ++ y :: zs) by rw [haddr, List.append_assoc]) hz
  · intro z left s hI
    obtain ⟨rfl, pre, left', hleft, rfl⟩ := hI
    cases left' with
    | nil =>
      obtain ⟨rfl, rfl⟩ := List.cons.inj hleft
      obtain ⟨-, hentry, -⟩ := hh.entry_at hb haddr hchain hlen
      refine ⟨hh.not_head hb hb (haddr ▸ List.mem_append_right _ (List.mem_cons_self ..)), ?_⟩
      rw [wp_bind, wp_getEntry hentry, if_pos rfl]
      exact hh.unlink hi hb haddr hchain hlen fun m' hbuckets hm' => ⟨rfl, hbuckets, hm'⟩
    | cons z' left' =>
      obtain ⟨rfl, rfl⟩ := List.cons.inj hleft
      have haddr' : addrs b = pre ++ z :: (left' ++ y :: zs) := by rw [haddr, List.append_assoc, List.cons_append]
      obtain ⟨cs', e', ds', hchain', hcs, hentry, hds⟩ := hh.entry hb haddr'
      have hne : e'.key ≠ e.key := by
        have hlen' : cs'.length < cs.length := by
          have hpre : pre.length = cs'.length := by simpa using congrArg List.length hcs
          rw [← hlen, ← hpre, List.length_append, List.length_cons]
          omega
        refine hno e' ?_
        have hget : (cs ++ e :: ds)[cs'.length]? = some e' := by rw [← hchain, hchain']; simp
        rw [List.getElem?_append_left hlen'] at hget
        exact List.mem_of_getElem? hget
      refine ⟨hh.not_head hb hb (by rw [haddr']; simp), ?_⟩
      rw [wp_bind, wp_getEntry hentry, if_neg hne]
      exact wp_pure.mpr ⟨rfl, pre ++ [z], left', rfl, by simp⟩
  · intro s hI
    obtain ⟨-, pre, left', hleft, -⟩ := hI
    simp at hleft
  · obtain ⟨rfl, hbuckets, hm'⟩ := hr
    exact wp_pure.mpr ⟨rfl, hbuckets, hinv, hm'⟩

/-- `dict_del` of a key that is not there changes nothing. -/
theorem dictDel_absent {key : K} (hno : ∀ e ∈ d.entries, e.key ≠ key) :
    wp (dictDel hash (some key)) (fun rc m' => rc = -1 ∧ m' = m) m := by
  have hb := hi.bucket_lt key
  unfold dictDel
  rw [wp_bind, wp_get, wp_bind, hh.nbuckets]
  refine (forEachUntil_rule (fun left s => s = m ∧ ∃ pre, addrs (bucketForN hash key d.nbuckets) = pre ++ left)
    (fun r m' => r = none ∧ m' = m) ?_ ?_ ?_ (hh.fuel hi hb) ⟨rfl, [], rfl⟩ fun _ _ hy => hh.first hb hy).mono
      fun r m' hr => ?_
  · intro left s z post hI hz
    obtain ⟨rfl, pre, haddr⟩ := hI
    exact hh.link hb haddr hz
  · intro z left s hI
    obtain ⟨rfl, pre, haddr⟩ := hI
    obtain ⟨cs, e, ds, hchain, -, hentry, -⟩ := hh.entry hb haddr
    have hne : e.key ≠ key := hno e (mem_chainAt_flatten hb (by rw [hchain]; simp))
    refine ⟨hh.not_head hb hb (haddr ▸ List.mem_append_right _ (List.mem_cons_self ..)), ?_⟩
    rw [wp_bind, wp_getEntry hentry, if_neg hne]
    exact wp_pure.mpr ⟨rfl, pre ++ [z], by rw [haddr, List.append_assoc]; rfl⟩
  · exact fun s hI => ⟨rfl, hI.1⟩
  · obtain ⟨rfl, rfl⟩ := hr
    exact wp_pure.mpr ⟨rfl, rfl⟩

/-- `dict_del` in memory is `dict_del` of the table. -/
theorem dictDel_refines (key : Option K) :
    wp (dictDel hash key) (fun rc m' => rc = (Dict.dictDel hash d key).rc ∧ ∃ addrs',
      Holds m' (Dict.dictDel hash d key).d addrs') m := by
  cases key with
  | none => exact wp_pure.mpr ⟨rfl, addrs, hh⟩
  | some key =>
    have hb := hi.bucket_lt key
    by_cases hmem : ∃ e ∈ d.entries, e.key = key
    · obtain ⟨e, he, rfl⟩ := hmem
      obtain ⟨cs, ds, hchain⟩ := List.append_of_mem ((hi.mem_iff e).mp he)
      obtain ⟨ys, zs', haddr, hys, hzs'⟩ := List.map_eq_append_iff.mp
        ((hh.entries _ hb).trans (by rw [hchain, List.map_append]))
      obtain ⟨y, zs, rfl, -, -⟩ := List.map_eq_cons_iff.mp (hzs'.trans (List.map_cons ..))
      have hlen : ys.length = cs.length := by simpa using congrArg List.length hys
      rw [dictDel_chain hi hb hchain]
      exact (dictDel_at hi hh hb haddr hchain hlen).mono fun rc m' h => ⟨h.1, _, h.2.2.2⟩
    · rw [not_exists] at hmem
      have hno : ∀ e ∈ d.entries, e.key ≠ key := fun e he hk => hmem e ⟨he, hk⟩
      obtain ⟨-, hcases⟩ := dictDel_cases hi key
      rcases hcases with ⟨old, hperm, -⟩ | ⟨-, hr⟩
      · exact absurd rfl (hno _ (hperm.mem_iff.mpr (List.mem_cons_self ..)))
      · rw [hr]
        exact (dictDel_absent hi hh hno).mono fun rc m' h => ⟨h.1, addrs, h.2 ▸ hh⟩

end

end KanekFoundations.Dict.Nodes

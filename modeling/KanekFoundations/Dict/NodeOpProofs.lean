/-
  KanekFoundations.Dict.NodeOpProofs — each call on the dictionary in memory does what it
  does to the table (see `KanekFoundations.Dict.NodeOps`).

  `Stores base m d seq`: memory `m` is `base` and, apart from it, the table `d`: the heads of
  its chains and the nodes `seq`, and nothing else.
-/

import KanekFoundations.Dict.NodeOps
import KanekFoundations.Dict.NodeProofs
import KanekFoundations.Dict.Ownership
import KanekFoundations.Links.Chained

namespace KanekFoundations.Dict.Nodes

open KanekFoundations.Lib KanekFoundations.Links

variable {K V σ β : Type} {hash : K → BitVec 32} {base : Links.Entries (Option (Entry K V))} {m m' : Mem K V}
    {d : Dict K V}
  {N : Nat} {seq : Fin N → List Addr} {y : Addr} {ys zs : List Addr} {e : Entry K V} {cs ds : List (Entry K V)}

structure Stores (base : Links.Entries (Option (Entry K V))) (m : Mem K V) (d : Dict K V)
    (seq : Fin N → List Addr) : Prop where
  size : d.buckets.length = N
  nbuckets : m.nbuckets = d.nbuckets
  count : m.count = d.count
  lists : Chained m.nodes (fun b : Fin N => m.head b) seq fun b => chainAt d.buckets b
  own : ∀ c, Occupied (fun b : Fin N => m.head b) seq c → base c = none
  rest : ∀ c, ¬ Occupied (fun b : Fin N => m.head b) seq c → m.nodes c = base c

/-! ## Searching a list -/

section
variable {link : Addr → StateT σ Option Addr} {body : Addr → StateT σ Option (Option β)} {head : Addr}
    {xs : List Addr} {s : σ}
  {P : Addr → Prop} {Q : Option β → σ → Prop}

/-- From each node of `xs`, and from the head, one gets to what stands behind it. -/
def Linked (link : Addr → StateT σ Option Addr) (head : Addr) (xs : List Addr) (s : σ) : Prop :=
  ∀ ys y zs b post, head :: xs = ys ++ y :: zs → zs ++ [head] = b :: post → link y s = some (b, s)

variable (hlink : Linked link head xs s) (hhead : head ∉ xs) (hskip : ∀ y ∈ xs, ¬ P y → body y s = some (none, s))
  (hhit : ∀ ys y zs, xs = ys ++ y :: zs → (∀ c ∈ ys, ¬ P c) → P y →
    wp (body y) (fun r s' => ∃ b, r = some b ∧ Q (some b) s') s)
  (hmiss : (∀ y ∈ xs, ¬ P y) → Q none s)
include hlink hhead hskip hhit hmiss

/-- The loop ends at the first node with `P`, and before it changes nothing. -/
theorem forEachReturnFrom_search {k : Nat} {left post : List Addr} (hk : left.length < k) (hxs : xs = ys ++ left)
    (hys : ∀ c ∈ ys, ¬ P c) (hy : left ++ [head] = y :: post) : wp (forEachReturnFrom link body head k y) Q s := by
  induction k generalizing ys left y post with
  | zero => exact absurd hk (Nat.not_lt_zero _)
  | succ k ih =>
    unfold forEachReturnFrom
    cases left with
    | nil =>
      cases hy
      rw [if_pos rfl]
      refine wp_pure.mpr (hmiss fun c hc => hys c ?_)
      rwa [hxs, List.append_nil] at hc
    | cons x left =>
      obtain ⟨rfl, -⟩ : x = y ∧ left ++ [head] = post := List.cons.inj hy
      have hx : x ∈ xs := by rw [hxs]; simp
      rw [if_neg fun heq : x = head => hhead (heq ▸ hx)]
      by_cases hp : P x
      · refine wp.bind (hhit ys x left hxs hys hp) fun r s' hr => ?_
        obtain ⟨b, rfl, hq⟩ := hr
        exact wp_pure.mpr hq
      · obtain ⟨b, post, hb⟩ := exists_behind left head
        rw [wp_bind, wp_run (hskip x hx hp)]
        show wp (link x >>= _) Q s
        rw [wp_bind, wp_run (hlink (head :: ys) x left b post (by rw [hxs]; rfl) hb)]
        refine ih (Nat.lt_of_succ_lt_succ hk) (show xs = (ys ++ [x]) ++ left by rw [hxs]; simp) (fun c hc => ?_) hb
        rcases List.mem_append.mp hc with hc | hc
        · exact hys c hc
        · exact List.mem_singleton.mp hc ▸ hp

theorem forEachReturn_search {k : Nat} (hk : xs.length < k) : wp (forEachReturn link body head k) Q s := by
  obtain ⟨b, post, hb⟩ := exists_behind xs head
  unfold forEachReturn
  rw [wp_bind, wp_run (hlink [] head xs b post rfl hb)]
  exact forEachReturnFrom_search hlink hhead hskip hhit hmiss hk rfl (List.forall_mem_nil _) hb

/-- The same of the loop that reads the link before the body. -/
theorem forEachUntil_search {k : Nat} (hk : xs.length < k) : wp (forEachUntil link body head k) Q s := by
  refine forEachUntil_rule (fun left s' => s' = s ∧ ∃ ys, xs = ys ++ left ∧ ∀ c ∈ ys, ¬ P c) Q ?_ ?_ ?_ hk
    ⟨rfl, [], rfl, List.forall_mem_nil _⟩ fun y post hy => hlink [] head xs y post rfl hy
  · intro left s' y post hI hy
    obtain ⟨rfl, ys, hxs, -⟩ := hI
    cases left with
    | nil =>
      cases hy
      obtain ⟨b, post, hb⟩ := exists_behind xs head
      exact ⟨b, hlink [] head xs b post rfl hb, fun _ _ h => by (cases h)⟩
    | cons x left =>
      obtain ⟨rfl, hpost⟩ := List.cons.inj hy
      obtain ⟨b, post', hb⟩ := exists_behind left head
      refine ⟨b, hlink (head :: ys) x left b post' (by rw [hxs]; rfl) hb, fun y' post'' h => ?_⟩
      exact (List.cons.inj (hb.symm.trans (hpost.trans h))).1
  · intro x left s' hI
    obtain ⟨rfl, ys, hxs, hys⟩ := hI
    have hx : x ∈ xs := by rw [hxs]; simp
    refine ⟨fun heq => hhead (heq ▸ hx), ?_⟩
    by_cases hp : P x
    · refine (hhit ys x left hxs hys hp).mono fun r s' hr => ?_
      obtain ⟨b, rfl, hq⟩ := hr
      exact hq
    · refine (wp_run (hskip x hx hp)).mpr ⟨rfl, ys ++ [x], by rw [hxs]; simp, fun c hc => ?_⟩
      rcases List.mem_append.mp hc with hc | hc
      · exact hys c hc
      · exact List.mem_singleton.mp hc ▸ hp
  · intro s' hI
    obtain ⟨rfl, ys, hxs, hys⟩ := hI
    refine hmiss fun c hc => hys c ?_
    rwa [hxs, List.append_nil] at hc

end

/-! ## Looking a key up -/

/-- The node holds an entry with the key. -/
def HasKey (m : Mem K V) (key : K) (y : Addr) : Prop := ∃ e : Entry K V, m.nodes.rest y = some (some e) ∧ e.key = key

theorem find_chain [DecidableEq K] {key : K}
    (hchain : chainAt d.buckets (bucketForN hash key d.nbuckets) = cs ++ e :: ds)
    (hno : ∀ e' ∈ cs, e'.key ≠ key) (hkey : e.key = key) : dictFind hash d key = some e := by
  unfold dictFind
  rw [hchain, List.find?_append, List.find?_cons_of_pos (by simpa using hkey)]
  have hcs : cs.find? (fun e => decide (e.key = key)) = none := by
    rw [List.find?_eq_none]
    exact fun e' he' => by simpa using hno e' he'
  rw [hcs]
  rfl

theorem find_none [DecidableEq K] {key : K} (hno : ∀ e ∈ chainAt d.buckets (bucketForN hash key d.nbuckets),
    e.key ≠ key) :
    dictFind hash d key = none := by
  unfold dictFind
  rw [List.find?_eq_none]
  exact fun e he => by simpa using hno e he

section
variable (hs : Stores base m d seq)
include hs

theorem Stores.linked (i : Fin N) : Linked nextOf (m.head i) (seq i) m := by
  intro ys y zs b post hxs hb
  have hring := hs.lists.family.ring i
  cases ys with
  | nil =>
    obtain ⟨rfl, rfl⟩ := List.cons.inj hxs
    exact nextOf_run (Ring.front hring hb).1
  | cons x ys =>
    obtain ⟨-, hseq⟩ := List.cons.inj hxs
    rw [hseq] at hring
    obtain ⟨pre, a, ha⟩ := exists_before (m.head i) ys
    exact nextOf_run (hring.around ha hb).2.1

theorem Stores.fuel (hi : Inv hash d) (i : Fin N) : (seq i).length < m.count + 1 := by
  obtain ⟨pre, post, hflat, -⟩ := flatten_set (show (i : Nat) < d.buckets.length from hs.size ▸ i.isLt)
  have hlen := congrArg List.length hflat
  rw [hs.lists.length i, hs.count, hi.counted, Dict.entries]
  simp only [List.length_append] at hlen
  omega

/-- Where nodes do not have the key, neither have the entries. -/
theorem Stores.before {key : K} {i : Fin N} (hseq : seq i = ys ++ zs) (hchain : chainAt d.buckets i = cs ++ ds)
    (hlen : ys.length = cs.length) (hys : ∀ c ∈ ys, ¬ HasKey m key c) : ∀ e ∈ cs, e.key ≠ key := by
  intro e he hkey
  have hmap := hs.lists.entries i
  rw [hseq, hchain, List.map_append, List.map_append] at hmap
  obtain ⟨hcs, -⟩ := List.append_inj hmap (by simpa using hlen)
  have hmem : some (some e) ∈ ys.map m.nodes.rest := by
    rw [hcs]
    exact List.mem_map_of_mem he
  obtain ⟨c, hc, hrest⟩ := List.mem_map.mp hmem
  exact hys c hc ⟨e, hrest, hkey⟩

variable [DecidableEq K] (hi : Inv hash d)
include hi

/-- What the loops over the chain of a key come to: its entry in the chain, or the end of it. -/
theorem findIn_rule {key : K} {found : Addr → Entry K V → M K V β} {Q : Option β → Mem K V → Prop}
    (hhit : ∀ (i : Fin N) ys y zs cs e ds, (i : Nat) = bucketForN hash key d.nbuckets → seq i = ys ++ y :: zs →
      chainAt d.buckets i = cs ++ e :: ds → ys.length = cs.length → (∀ e' ∈ cs, e'.key ≠ key) → e.key = key →
      m.nodes.rest y = some (some e) → wp (found y e) (fun r m' => Q (some r) m') m)
    (hmiss : (∀ e ∈ chainAt d.buckets (bucketForN hash key d.nbuckets), e.key ≠ key) → Q none m) :
    wp (findIn hash key found) Q m := by
  have hb : bucketForN hash key d.nbuckets < N := hs.size ▸ hi.bucket_lt key
  unfold findIn
  rw [wp_bind, wp_get, hs.nbuckets]
  refine forEachReturn_search (P := HasKey m key) (hs.linked ⟨_, hb⟩) (fun hmem => hs.lists.not_head hmem ⟨_, hb⟩ rfl)
    (fun y hy hno => ?_) (fun ys y zs hseq hys hp => ?_) (fun hno => hmiss ?_) (hs.fuel hi ⟨_, hb⟩)
  · obtain ⟨ys, zs, hseq⟩ := List.append_of_mem hy
    obtain ⟨cs, e, ds, -, -, hentry⟩ := hs.lists.entry hseq
    have hne : e.key ≠ key := fun hkey => hno ⟨e, hentry, hkey⟩
    rw [bind_apply, show getEntry y m = some (e, m) by simp [getEntry, hentry]]
    show (if e.key = key then _ else pure none : M K V (Option β)) m = _
    rw [if_neg hne]
    rfl
  · obtain ⟨cs, e, ds, hchain, hlen, hentry⟩ := hs.lists.entry hseq
    obtain ⟨e', hentry', hkey⟩ := hp
    obtain rfl : e = e' := Option.some.inj (Option.some.inj (hentry.symm.trans hentry'))
    rw [wp_bind, wp_getEntry hentry, if_pos hkey, wp_bind]
    refine (hhit ⟨_, hb⟩ ys y zs cs e ds rfl hseq hchain hlen (hs.before hseq hchain hlen hys) hkey hentry).mono
      fun r m' hq => ?_
    exact wp_pure.mpr ⟨r, rfl, hq⟩
  · have hchain := (List.append_nil (chainAt d.buckets (bucketForN hash key d.nbuckets))).symm
    exact hs.before (List.append_nil _).symm hchain (hs.lists.length ⟨_, hb⟩) hno

theorem dictGet_spec (key : Option K) : wp (dictGet hash key) (fun v m' => v = Dict.dictGet hash d key ∧ m' = m) m := by
  cases key with
  | none => exact wp_pure.mpr ⟨rfl, rfl⟩
  | some key =>
    refine wp.bind (findIn_rule hs hi (Q := fun r m' => r = (dictFind hash d key).map Entry.val ∧ m' = m) ?_ ?_)
      fun r m' hr => ?_
    · intro i ys y zs cs e ds hi' _ hchain _ hno hkey _
      rw [hi'] at hchain
      exact wp_pure.mpr ⟨by rw [find_chain hchain hno hkey]; rfl, rfl⟩
    · exact fun hno => ⟨by rw [find_none hno]; rfl, rfl⟩
    · obtain ⟨rfl, rfl⟩ := hr
      refine wp_pure.mpr ⟨?_, rfl⟩
      show _ = (dictFind hash d key).bind Entry.val
      cases dictFind hash d key <;> rfl

theorem dictHas_spec (key : Option K) :
    wp (dictHas hash key) (fun rc m' => rc = Dict.dictHas hash d key ∧ m' = m) m := by
  cases key with
  | none => exact wp_pure.mpr ⟨rfl, rfl⟩
  | some key =>
    refine wp.bind (findIn_rule hs hi (Q := fun r m' => r = (dictFind hash d key).map (fun _ => 1) ∧ m' = m) ?_ ?_)
      fun r m' hr => ?_
    · intro i ys y zs cs e ds hi' _ hchain _ hno hkey _
      rw [hi'] at hchain
      exact wp_pure.mpr ⟨by rw [find_chain hchain hno hkey]; rfl, rfl⟩
    · exact fun hno => ⟨by rw [find_none hno]; rfl, rfl⟩
    · obtain ⟨rfl, rfl⟩ := hr
      refine wp_pure.mpr ⟨?_, rfl⟩
      show _ = if (dictFind hash d key).isSome then 1 else 0
      cases dictFind hash d key <;> rfl

end

/-! ## A set -/

theorem chains_set {chains : List (List (Entry K V))} (hlen : chains.length = N) (i : Fin N) (c : List (Entry K V)) :
    Function.update (fun b : Fin N => chainAt chains b) i c = fun b : Fin N => chainAt (chains.set i c) b := by
  funext b
  rw [chainAt_set (show (i : Nat) < chains.length from hlen ▸ i.isLt)]
  by_cases hb : b = i
  · subst hb
    rw [Function.update_self, if_pos rfl]
  · rw [Function.update_of_ne hb, if_neg fun heq => hb (Fin.ext heq)]

/-- The value of an entry in its chain is the one that is replaced. -/
theorem updateChain_at [DecidableEq K] (hno : ∀ e' ∈ cs, e'.key ≠ e.key) (val : Option V) :
    updateChain e.key val (cs ++ e :: ds) = some (cs ++ ⟨e.key, val⟩ :: ds, e.val) := by
  induction cs with
  | nil =>
    rw [List.nil_append, updateChain, if_pos rfl]
    rfl
  | cons c cs ih =>
    rw [List.forall_mem_cons] at hno
    rw [List.cons_append, updateChain, if_neg hno.1, ih hno.2]
    rfl

theorem wp_setVal {val : Option V} {Q : Unit → Mem K V → Prop} (h : m.nodes.rest y = some (some e)) :
    wp (setVal y val) Q m ↔ Q () { m with nodes := m.nodes.withRest y (some ⟨e.key, val⟩) } :=
  wp_run (by simp [setVal, h])

theorem not_occupied_of_free {ι : Type} {n : Links.Entries (Option (Entry K V))} {head : ι → Addr} {seq : ι → List Addr}
    {chain : ι → List (Entry K V)} {x : Addr} (hc : Chained n head seq chain) (hx : n x = none) :
      ¬ Occupied head seq x := by
  intro ho
  have hp := hc.present ho
  rw [hx] at hp
  cases hp

section
variable (hs : Stores base m d seq) {i : Fin N}
include hs

/-- A value replaced. -/
theorem Stores.replace (hseq : seq i = ys ++ y :: zs) (hchain : chainAt d.buckets i = cs ++ e :: ds)
    (hlen : ys.length = cs.length) (val : Option V) :
    Stores base { m with nodes := m.nodes.withRest y (some ⟨e.key, val⟩) }
      { d with buckets := d.buckets.set i (cs ++ ⟨e.key, val⟩ :: ds) } seq := by
  refine ⟨(List.length_set).trans hs.size, hs.nbuckets, hs.count, ?_, hs.own, fun c ho => ?_⟩
  · have hc := hs.lists.setRest hseq hchain hlen ⟨e.key, val⟩
    rwa [chains_set hs.size] at hc
  · have hcy : c ≠ y := by
      intro heq
      subst heq
      exact ho (occupied_node (i := i) (by rw [hseq]; simp))
    exact (m.nodes.put_of_ne _ hcy).trans (hs.rest c ho)

/-- An entry in a block of its own, linked at the end of a chain. -/
theorem Stores.link {x nx px : Addr} (hx : m.nodes x = none) (e : Entry K V) :
    wp (listAddTail x (m.head i)) (fun _ n => Stores base { m with nodes := n, count := m.count + 1 }
      { d with buckets := Lib.addTail d.buckets i e, count := d.count + 1 } (Function.update seq i (seq i ++ [x])))
      (m.nodes.put x (some ⟨nx, px, some e⟩)) := by
  have hout := not_occupied_of_free hs.lists hx
  have hput := hs.lists.put hout (some ⟨nx, px, some e⟩)
  have hrest : (m.nodes.put x (some ⟨nx, px, some e⟩)).rest x = some (some e) := by
    rw [Entries.put_rest, Function.update_self]
    rfl
  have hocc : ∀ c, Occupied (fun b : Fin N => m.head b) (Function.update seq i (seq i ++ [x])) c ↔
      Occupied (fun b : Fin N => m.head b) seq c ∨ c = x := fun c => occupied_more (List.append_nil _).symm
  refine (hput.addTail i hout hrest).mono fun _ n hn => ?_
  obtain ⟨hn, -, hframe⟩ := hn
  refine ⟨(List.length_set).trans hs.size, hs.nbuckets, congrArg (· + 1) hs.count, ?_, fun c ho => ?_, fun c ho => ?_⟩
  · rw [chains_set hs.size] at hn
    exact hn
  · rcases (hocc c).mp ho with ho | rfl
    · exact hs.own c ho
    · rw [← hs.rest c hout]
      exact hx
  · obtain ⟨ho, hcx⟩ := not_or.mp (mt (hocc c).mpr ho)
    show n c = _
    rw [hframe c ho hcx, Entries.put_of_ne _ _ hcx]
    exact hs.rest c ho

/-- A node unlinked and freed, and its entry out of the table. -/
theorem Stores.unlink (hseq : seq i = ys ++ y :: zs) (hchain : chainAt d.buckets i = cs ++ e :: ds)
    (hlen : ys.length = cs.length) :
    wp (listDel y) (fun _ n => n.rest y = some (some e) ∧
      Stores base { m with nodes := n.put y none, count := m.count - 1 }
      { d with buckets := d.buckets.set i (cs ++ ds), count := d.count - 1 }
      (Function.update seq i (ys ++ zs))) m.nodes := by
  have hless : ∀ c, Occupied (fun b : Fin N => m.head b) seq c ↔
      Occupied (fun b : Fin N => m.head b) (Function.update seq i (ys ++ zs)) c ∨ c = y := fun c => occupied_less hseq
  have hy : Occupied (fun b : Fin N => m.head b) seq y := occupied_node (i := i) (by rw [hseq]; simp)
  refine (hs.lists.unlink hseq hchain hlen).mono fun _ n hn => ?_
  obtain ⟨hn, hrest, hframe⟩ := hn
  have hout : ¬ Occupied (fun b : Fin N => m.head b) (Function.update seq i (ys ++ zs)) y := by
    obtain ⟨hys, hzs, hothers⟩ := hs.lists.once hseq
    intro ho
    rcases occupied_iff.mp ho with ⟨j, hj⟩ | ⟨j, hj⟩
    · exact hs.lists.not_head (i := i) (by rw [hseq]; simp) j hj
    · by_cases hji : j = i
      · subst hji
        rw [Function.update_self] at hj
        exact (List.mem_append.mp hj).elim hys hzs
      · rw [Function.update_of_ne hji] at hj
        exact hothers j hji hj
  refine ⟨hrest ▸ (hs.lists.entry_at hseq hchain hlen).2.1, (List.length_set).trans hs.size, hs.nbuckets,
    congrArg (· - 1) hs.count, ?_, fun c ho => hs.own c ((hless c).mpr (.inl ho)), fun c ho => ?_⟩
  · rw [chains_set hs.size] at hn
    exact hn.put hout none
  · show n.put y none c = base c
    by_cases hcy : c = y
    · subst hcy
      rw [Entries.put_self]
      exact (hs.own _ hy).symm
    · rw [Entries.put_of_ne _ _ hcy]
      have hno := mt (hless c).mp fun hor => hor.elim ho hcy
      rw [hframe c hno]
      exact hs.rest c hno

end

/-! ## A rehash -/

theorem mem_cells {t c : Addr} {n : Nat} : c ∈ cells t n ↔ ∃ i : Fin n, c = t + LIST_T * i := by
  unfold cells
  rw [List.mem_map]
  constructor
  · intro h
    obtain ⟨i, hi, rfl⟩ := h
    exact ⟨⟨i, List.mem_range.mp hi⟩, rfl⟩
  · intro h
    obtain ⟨i, rfl⟩ := h
    exact ⟨i, List.mem_range.mpr i.isLt, rfl⟩

theorem cell_inj (t : Addr) (n : Nat) : Function.Injective fun i : Fin n => t + LIST_T * (i : Nat) := by
  intro i j h
  simpa [LIST_T, Fin.ext_iff] using h

/-- The heads of a table that `ta_calloc` gave point to themselves after the loop, and nothing else has changed. -/
theorem initHeads_spec {n : Links.Entries (Option (Entry K V))} {t : Addr} {k : Nat}
    (hzero : ∀ c ∈ cells t k, n.rest c = some none) :
    wp (initHeads t k) (fun _ n' => Chained n' (fun i : Fin k => t + LIST_T * i) (fun _ => []) (fun _ => []) ∧
      ∀ c, c ∉ cells t k → n' c = n c) n := by
  have hsome : ∀ {n' : Links.Entries (Option (Entry K V))} {i : Nat}, n'.rest = n.rest → i < k →
      (n' (t + LIST_T * i)).isSome := by
    intro n' i hrest hi
    rw [← Entries.isSome_rest, hrest, hzero _ (mem_cells.mpr ⟨⟨i, hi⟩, rfl⟩)]
    rfl
  refine (wp_forM_range (fun i n' => (∀ j < i, n'.next (t + LIST_T * j) = some (t + LIST_T * j) ∧
    n'.prev (t + LIST_T * j) = some (t + LIST_T * j)) ∧ n'.rest = n.rest ∧ ∀ c, c ∉ cells t k → n' c = n c)
    ⟨fun _ h => absurd h (Nat.not_lt_zero _), rfl, fun _ _ => rfl⟩ fun i hi n₁ hn₁ => ?_).mono fun _ n' hn' => ?_
  · obtain ⟨hself, hrest, hout⟩ := hn₁
    have h₁ := hsome hrest hi
    unfold initListHead
    rw [wp_bind, wp_setNext h₁, wp_setPrev (by simpa using h₁)]
    refine ⟨fun j hj => ?_, by simpa using hrest, fun c hc => ?_⟩
    · rw [Entries.withPrev_next, Entries.withNext_next h₁, Entries.withPrev_prev (by simpa using h₁),
        Entries.withNext_prev]
      by_cases hji : t + LIST_T * j = t + LIST_T * i
      · rw [if_pos hji, if_pos hji, hji]
        exact ⟨rfl, rfl⟩
      · rw [if_neg hji, if_neg hji]
        refine hself j (lt_of_le_of_ne (Nat.le_of_lt_succ hj) fun heq => hji ?_)
        rw [heq]
    · have hne : c ≠ t + LIST_T * i := fun heq => hc (mem_cells.mpr ⟨⟨i, hi⟩, heq⟩)
      rw [Entries.withPrev, Entries.put_of_ne _ _ hne, Entries.withNext, Entries.put_of_ne _ _ hne]
      exact hout c hc
  · obtain ⟨hself, hrest, hout⟩ := hn'
    refine ⟨chained_nil (cell_inj t k) (fun i => (hself i i.isLt).1) (fun i => (hself i i.isLt).2) fun i => ?_, hout⟩
    rw [hrest]
    exact hzero _ (mem_cells.mpr ⟨i, rfl⟩)

section
variable {ι : Type} [DecidableEq ι] {head : ι → Addr} {nodes : ι → List Addr} {chain : ι → List (Entry K V)}
    {i j : ι} {t : Addr}
  {n : BitVec 32}

/-- One round: the first node of list `i` goes to the end of the list of its key. -/
theorem moveEntry_spec (hc : Chained m.nodes head nodes chain) (hnodes : nodes i = y :: zs) (hchain : chain i = e :: ds)
    (hij : j ≠ i) (hj : head j = t + LIST_T * bucketForN hash e.key n) (u : Unit) :
    wp (moveEntry hash t n u y) (fun _ m' => ∃ n', m' = { m with nodes := n' } ∧
      Chained n' head (Function.update (Function.update nodes i zs) j (nodes j ++ [y]))
        (Function.update (Function.update chain i ds) j (chain j ++ [e])) ∧
      (∀ c, Occupied head (Function.update (Function.update nodes i zs) j (nodes j ++ [y])) c ↔ Occupied head nodes c) ∧
      ∀ c, ¬ Occupied head nodes c → n' c = m.nodes c) m := by
  have hseq : nodes i = [] ++ y :: zs := hnodes
  have hcs : chain i = [] ++ e :: ds := hchain
  obtain ⟨-, hentry, -⟩ := hc.entry_at hseq hcs rfl
  have hless : ∀ c, Occupied head nodes c ↔ Occupied head (Function.update nodes i zs) c ∨ c = y :=
    fun c => occupied_less hseq
  unfold moveEntry
  rw [wp_bind, wp_getEntry hentry, wp_bind, wp_links]
  refine (hc.unlink hseq hcs rfl).mono fun _ n₁ h₁ => ?_
  obtain ⟨hc₁, hrest₁, hframe₁⟩ := h₁
  rw [List.nil_append, List.nil_append] at hc₁
  have hy : ¬ Occupied head (Function.update nodes i zs) y := by
    have hyi : y ∈ nodes i := by rw [hnodes]; simp
    obtain ⟨-, hyzs, hothers⟩ := hc.once hseq
    rw [occupied_iff]
    rintro (⟨k, hk⟩ | ⟨k, hk⟩)
    · exact hc.not_head hyi k hk
    · by_cases hki : k = i
      · subst hki
        rw [Function.update_self] at hk
        exact hyzs hk
      · rw [Function.update_of_ne hki] at hk
        exact hothers k hki hk
  have hmore : ∀ c, Occupied head (Function.update (Function.update nodes i zs) j (nodes j ++ [y])) c ↔
      Occupied head (Function.update nodes i zs) c ∨ c = y := by
    have hsplit : Function.update nodes i zs j = nodes j ++ [] := by rw [Function.update_of_ne hij, List.append_nil]
    exact fun c => occupied_more hsplit
  have hlink := hc₁.addTail j hy (show n₁.rest y = some (some e) by rw [hrest₁]; exact hentry)
  rw [Function.update_of_ne hij, Function.update_of_ne hij, hj] at hlink
  rw [wp_links]
  refine hlink.mono fun _ n₂ h₂ => ?_
  obtain ⟨hc₂, -, hframe₂⟩ := h₂
  refine ⟨n₂, rfl, hc₂, fun c => (hmore c).trans (hless c).symm, fun c ho => ?_⟩
  obtain ⟨ho₁, hcy⟩ := not_or.mp (mt (hless c).mpr ho)
  exact (hframe₂ c ho₁ hcy).trans (hframe₁ c ho)

/-- The loop over one chain: each entry ends up behind those of the list that `dst` names, in order. -/
theorem moveChain_spec (hc : Chained m.nodes head nodes chain) (i : ι) {dst : Entry K V → ι} (hdst : ∀ e, dst e ≠ i)
    (hhead : ∀ e, head (dst e) = t + LIST_T * bucketForN hash e.key n) {k : Nat} (hk : (nodes i).length < k) :
    wp (forEachSafe nextOf (moveEntry hash t n) (head i) k ()) (fun _ m' => ∃ n' nodes', m' = { m with nodes := n' } ∧
      Chained n' head nodes' (fun j => if j = i then [] else chain j ++ (chain i).filter fun e => dst e = j) ∧
      (∀ c, Occupied head nodes' c ↔ Occupied head nodes c) ∧ ∀ c, ¬ Occupied head nodes c → n' c = m.nodes c) m := by
  let after (left done : List (Entry K V)) (j : ι) := if j = i then left else chain j ++ done.filter fun e => dst e = j
  have hstep : ∀ e left done, Function.update (Function.update (after (e :: left) done) i left) (dst e)
      (after (e :: left) done (dst e) ++ [e]) = after left (done ++ [e]) := by
    intro e left done
    funext j
    by_cases hje : j = dst e
    · subst hje
      rw [Function.update_self]
      simp [after, hdst e]
    · rw [Function.update_of_ne hje]
      by_cases hji : j = i
      · subst hji
        simp [after]
      · rw [Function.update_of_ne hji]
        simp [after, hji, Ne.symm hje]
  have hstart : after (chain i) [] = chain := by
    funext j
    by_cases hj : j = i
    · subst hj
      simp [after]
    · simp [after, hj]
  refine (forEachSafe_rule (fun _ left s => ∃ n' nodes' done es, s = { m with nodes := n' } ∧ chain i = done ++ es ∧
    nodes' i = left ∧ Chained n' head nodes' (after es done) ∧ (∀ c, Occupied head nodes' c ↔ Occupied head nodes c) ∧
    ∀ c, ¬ Occupied head nodes c → n' c = m.nodes c) ?_ ?_ hk
    ⟨m.nodes, nodes, [], chain i, rfl, rfl, rfl, by rw [hstart]; exact hc, fun _ => Iff.rfl, fun _ _ => rfl⟩ ?_).mono
      fun _ m' hI => ?_
  · intro _ left s y post hI hy
    obtain ⟨n', nodes', done, es, rfl, -, hleft, hc', -⟩ := hI
    obtain ⟨z, hz, hnext⟩ := link_of_ring (show n'.IsRing (head i) ([] ++ left) from hleft ▸ hc'.family.ring i) hy
    exact ⟨z, nextOf_run hz, hnext⟩
  · intro u y left s hI
    obtain ⟨n', nodes', done, es, rfl, hdone, hleft, hc', hocc, hframe⟩ := hI
    have hyi : y ∈ nodes' i := by rw [hleft]; exact List.mem_cons_self ..
    refine ⟨hc'.not_head hyi i, ?_⟩
    obtain ⟨cs, e, ds, hchain, hlen, -⟩ := hc'.entry (show nodes' i = [] ++ y :: left from hleft)
    obtain rfl := List.eq_nil_of_length_eq_zero hlen.symm
    have hes : es = e :: ds := by simpa [after] using hchain
    subst hes
    refine (moveEntry_spec (m := { m with nodes := n' }) hc' hleft hchain (hdst e) (hhead e) u).mono fun _ m'' h => ?_
    obtain ⟨n'', rfl, hc'', hocc', hframe'⟩ := h
    rw [hstep] at hc''
    refine ⟨n'', _, done ++ [e], ds, rfl, by rw [hdone]; simp, ?_, hc'', fun c => (hocc' c).trans (hocc c),
      fun c ho => ?_⟩
    · rw [Function.update_of_ne (Ne.symm (hdst e)), Function.update_self]
    · exact (hframe' c (mt (hocc c).mp ho)).trans (hframe c ho)
  · intro y post hy
    obtain ⟨y', post', hy', hnext, -⟩ := first_of_ring (hc.family.ring i)
    obtain ⟨rfl, rfl⟩ := List.cons.inj (hy.symm.trans hy')
    exact nextOf_run hnext
  · obtain ⟨n', nodes', done, es, rfl, hdone, hleft, hc', hocc, hframe⟩ := hI
    have hes : es = [] := by
      have hlen := hc'.length i
      rw [hleft] at hlen
      simpa [after] using hlen.symm
    subst hes
    rw [List.append_nil] at hdone
    exact ⟨n', nodes', rfl, hdone ▸ hc', hocc, hframe⟩

end

/-- The nested loops: every entry of the table goes to a new chain, those of a chain in the order of the table. -/
theorem moveTable_spec {t : Addr} {n : BitVec 32} {heads : Fin N ⊕ Fin n.toNat → Addr}
    {nodes : Fin N ⊕ Fin n.toNat → List Addr}
    {chain : Fin N ⊕ Fin n.toNat → List (Entry K V)} (hn : 4 ≤ n.toNat) (hold : ∀ b, heads (.inl b) = m.head b)
    (hnew : ∀ b, heads (.inr b) = t + LIST_T * (b : Nat)) (hc : Chained m.nodes heads nodes chain)
    (hchain : ∀ b, chain (.inl b) = chainAt d.buckets b) (hempty : ∀ b, chain (.inr b) = []) (hN : d.buckets.length = N)
    (hfuel : ∀ b < N, (chainAt d.buckets b).length < m.count + 1) :
    wp ((List.range N).forM fun i => forEachSafe nextOf (moveEntry hash t n) (m.head i) (m.count + 1) ()) (fun _ m' =>
      ∃ n' nodes', m' = { m with nodes := n' } ∧ Chained n' heads nodes' (Sum.elim (fun _ => []) fun b : Fin n.toNat =>
        d.entries.filter fun e => bucketForN hash e.key n = b) ∧
        (∀ c, Occupied heads nodes' c ↔ Occupied heads nodes c) ∧ ∀ c, ¬ Occupied heads nodes c →
        n' c = m.nodes c) m := by
  let dst (e : Entry K V) : Fin N ⊕ Fin n.toNat := .inr ⟨bucketForN hash e.key n, bucketForN_lt hash e.key hn⟩
  let after (k : Nat) : Fin N ⊕ Fin n.toNat → List (Entry K V) :=
    Sum.elim (fun b => if (b : Nat) < k then [] else chainAt d.buckets b)
    fun b => ((List.range k).flatMap (chainAt d.buckets)).filter fun e => bucketForN hash e.key n = b
  have hstart : after 0 = chain := by
    funext j
    cases j with
    | inl b => exact (hchain b).symm
    | inr b => exact (hempty b).symm
  have hend : after N = Sum.elim (fun _ => []) fun b : Fin n.toNat => d.entries.filter fun e =>
      bucketForN hash e.key n = b := by
    funext j
    cases j with
    | inl b => exact if_pos b.isLt
    | inr b =>
      show List.filter _ _ = List.filter _ d.entries
      rw [Dict.entries, flatten_eq_flatMap, hN]
  have hround : ∀ (k : Nat) (hk : k < N), (fun j => if j = .inl ⟨k, hk⟩ then [] else
      after k j ++ (after k (.inl ⟨k, hk⟩)).filter fun e => dst e = j) = after (k + 1) := by
    intro k hk
    funext j
    cases j with
    | inl b =>
      by_cases hb : b = ⟨k, hk⟩
      · subst hb
        simp [after]
      · have hne : (b : Nat) ≠ k := fun heq => hb (Fin.ext heq)
        have hlt : (b : Nat) < k ↔ (b : Nat) < k + 1 := by omega
        rw [if_neg fun heq => hb (Sum.inl.inj heq)]
        simp [after, dst, hlt]
    | inr b =>
      rw [if_neg (by simp)]
      have hdst : ∀ e, decide (dst e = .inr b) = decide (bucketForN hash e.key n = b) := by
        intro e
        simp [dst, Fin.ext_iff]
      simp only [after, Sum.elim_inl, Sum.elim_inr, Nat.lt_irrefl, if_false, hdst, List.range_succ, List.flatMap_append,
        List.flatMap_singleton, List.filter_append]
  refine (wp_forM_range (fun k s => ∃ n' nodes', s = { m with nodes := n' } ∧ Chained n' heads nodes' (after k) ∧
    (∀ c, Occupied heads nodes' c ↔ Occupied heads nodes c) ∧ ∀ c, ¬ Occupied heads nodes c → n' c = m.nodes c)
    ⟨m.nodes, nodes, rfl, by rw [hstart]; exact hc, fun _ => Iff.rfl, fun _ _ => rfl⟩ fun k hk s hI => ?_).mono
      fun _ m' hI => ?_
  · obtain ⟨n', nodes', rfl, hc', hocc, hframe⟩ := hI
    have hlen : (nodes' (.inl ⟨k, hk⟩)).length < m.count + 1 := by
      rw [hc'.length]
      show (if k < k then [] else chainAt d.buckets k).length < _
      rw [if_neg (Nat.lt_irrefl k)]
      exact hfuel k hk
    have hloop := moveChain_spec (m := { m with nodes := n' }) hc' (.inl ⟨k, hk⟩)
      (show ∀ e, dst e ≠ .inl ⟨k, hk⟩ by simp [dst]) (fun e => hnew _) hlen
    rw [hold] at hloop
    refine hloop.mono fun _ m'' h => ?_
    obtain ⟨n'', nodes'', rfl, hc'', hocc', hframe'⟩ := h
    rw [hround k hk] at hc''
    exact ⟨n'', nodes'', rfl, hc'', fun c => (hocc' c).trans (hocc c),
      fun c ho => (hframe' c (mt (hocc c).mp ho)).trans (hframe c ho)⟩
  · obtain ⟨n', nodes', rfl, hc', hocc, hframe⟩ := hI
    exact ⟨n', nodes', rfl, hend ▸ hc', hocc, hframe⟩

/-- A rehash that goes through moves every entry of the table. -/
theorem dictRehash_table (hi : Inv hash d) {n : BitVec 32} (hvalid : ¬ (n < 4 ∨ isPowerOfTwo n = false)) :
    Dict.dictRehash hash d n true =
      ⟨0, ⟨moveAll (fun e => bucketForN hash e.key n) (List.replicate n.toNat []) d.entries, n, d.count⟩,
        [.table]⟩ := by
  unfold Dict.dictRehash
  rw [if_neg hvalid, if_neg (by simp), ← rehash_moveAll hi.size fun e => bucketForN hash e.key n]

theorem dictRehash_freedVals (n : BitVec 32) (tableOk : Bool) :
    freedVals (Dict.dictRehash hash d n tableOk).freed = [] := by
  unfold Dict.dictRehash
  split
  · rfl
  split
  · rfl
  · rfl

section
variable (hi : Inv hash d) (hs : Stores base m d seq)
include hi hs

/-- `dict_rehash` in memory is that of the table. -/
theorem dictRehash_refines {n : BitVec 32} {table : Option Addr} (hfresh : FreshTable m.nodes table n.toNat) :
    wp (dictRehash hash n table) (fun rc m' => rc = (Dict.dictRehash hash d n table.isSome).rc ∧
      ∃ (N' : Nat) (seq' : Fin N' → List Addr), Stores base m' (Dict.dictRehash hash d n table.isSome).d seq') m := by
  by_cases hvalid : n < 4 ∨ isPowerOfTwo n = false
  · unfold dictRehash Dict.dictRehash
    rw [if_pos hvalid, if_pos hvalid]
    exact wp_pure.mpr ⟨rfl, N, seq, hs⟩
  obtain ⟨-, h4⟩ := valid_bucket_count hvalid
  cases table with
  | none =>
    unfold dictRehash Dict.dictRehash
    rw [if_neg hvalid, if_neg hvalid]
    exact wp_pure.mpr ⟨rfl, N, seq, hs⟩
  | some t =>
    rw [Option.isSome_some, dictRehash_table hi hvalid]
    unfold dictRehash
    rw [if_neg hvalid]
    have hfree : ∀ c ∈ cells t n.toNat, m.nodes c = none := hfresh t rfl
    let n₁ : Links.Entries (Option (Entry K V)) := fun c => if c ∈ cells t n.toNat then some ⟨0, 0, none⟩ else m.nodes c
    rw [wp_bind, wp_links, wp_run (show taCalloc (some t) n.toNat m.nodes = some (some t, n₁) from rfl)]
    show wp (links (initHeads t n.toNat) >>= _) _ { m with nodes := n₁ }
    rw [wp_bind, wp_links]
    refine (initHeads_spec (n := n₁) fun c hc => by simp [n₁, Entries.rest, hc]).mono fun _ n₂ h₂ => ?_
    obtain ⟨hnew, hout₂⟩ := h₂
    have hnot : ∀ c, Occupied (fun b : Fin N => m.head b) seq c → c ∉ cells t n.toNat :=
      fun c ho hc => not_occupied_of_free hs.lists (hfree c hc) ho
    have hold : Chained n₂ (fun b : Fin N => m.head b) seq fun b => chainAt d.buckets b := by
      refine hs.lists.congr fun c ho => ?_
      rw [hout₂ c (hnot c ho)]
      exact if_neg (hnot c ho)
    have hcells : ∀ c, Occupied (fun b : Fin n.toNat => t + LIST_T * (b : Nat)) (fun _ => []) c ↔
        c ∈ cells t n.toNat := by
      intro c
      rw [occupied_iff, mem_cells]
      simp
    have hboth := hold.sum hnew fun c ho ho' => hnot c ho ((hcells c).mp ho')
    rw [wp_bind, wp_get, wp_bind]
    have hN : m.nbuckets.toNat = N := by rw [hs.nbuckets, ← hi.size, hs.size]
    show wp ((List.range m.nbuckets.toNat).forM _) _ _
    rw [hN]
    refine (moveTable_spec (m := { m with nodes := n₂ }) h4 (fun _ => rfl) (fun _ => rfl) hboth (fun _ => rfl)
      (fun _ => rfl) hs.size
      fun b hb => (hs.lists.length ⟨b, hb⟩) ▸ hs.fuel hi ⟨b, hb⟩).mono fun _ m₃ h₃ => ?_
    obtain ⟨n₃, nodes₃, rfl, hc₃, hocc, hframe⟩ := h₃
    -- The old table is empty: what is left of it are its heads.
    have hempty : ∀ b : Fin N, nodes₃ (.inl b) = [] := fun b => List.eq_nil_of_length_eq_zero (hc₃.length (.inl b))
    have hheads :
      ∀ c, Occupied ((Sum.elim (fun b : Fin N => m.head b) fun b : Fin n.toNat => t + LIST_T * (b : Nat)) ∘ Sum.inl)
        (nodes₃ ∘ Sum.inl) c ↔ c ∈ cells m.buckets N := by
      intro c
      rw [occupied_iff, mem_cells]
      simp [hempty, Mem.head]
    have hapart :
      ∀ c, Occupied ((Sum.elim (fun b : Fin N => m.head b) fun b : Fin n.toNat => t + LIST_T * (b : Nat)) ∘ Sum.inr)
        (nodes₃ ∘ Sum.inr) c → c ∉ cells m.buckets N := by
      intro c ho hmem
      obtain ⟨b, rfl⟩ := mem_cells.mp hmem
      obtain ⟨b', hb'⟩ := ho
      exact hc₃.family.apart (.inl b) (.inr b') (by simp) (List.mem_cons_self ..) hb'
    have hfreeable : (cells m.buckets N).all fun c => (n₃.rest c).any Option.isNone := by
      rw [List.all_eq_true]
      intro c hmem
      obtain ⟨b, rfl⟩ := mem_cells.mp hmem
      have hhead : n₃.rest (m.buckets + LIST_T * (b : Nat)) = some none := hc₃.heads (.inl b)
      rw [hhead]
      rfl
    rw [wp_bind, wp_run (show (modify fun m : Mem K V => { m with buckets := t, nbuckets := n } : M K V Unit) _ =
      some ((), _) from rfl),
      wp_bind, wp_links]
    show wp (taFreeTable m.buckets N) _ n₃
    rw [wp_run (show taFreeTable m.buckets N n₃ = some ((), fun c => if c ∈ cells m.buckets N then none else n₃ c) from
      if_pos hfreeable)]
    refine wp_pure.mpr ⟨rfl, n.toNat, nodes₃ ∘ Sum.inr, ?_, rfl, hs.count, ?_, fun c ho => ?_, fun c ho => ?_⟩
    · rw [moveAll_length, List.length_replicate]
    · have hlast :
        (fun b : Fin n.toNat => chainAt (moveAll (fun e => bucketForN hash e.key n) (List.replicate n.toNat [])
          d.entries) b) = fun b : Fin n.toNat => d.entries.filter fun e => bucketForN hash e.key n = b := by
        funext b
        rw [chainAt_moveAll _ (by rw [List.length_replicate]; exact b.isLt)]
        simp [chainAt]
      show Chained _ _ _ fun b : Fin n.toNat => chainAt (moveAll _ _ _) b
      rw [hlast]
      exact (hc₃.comp Sum.inr_injective).congr fun c ho => if_neg (hapart c ho)
    · rcases occupied_sum.mp ((hocc c).mp (occupied_sum.mpr (.inr ho))) with ho | ho
      · exact hs.own c ho
      · have hmem := (hcells c).mp ho
        rw [← hs.rest c fun ho' => hnot c ho' hmem]
        exact hfree c hmem
    · show (if c ∈ cells m.buckets N then none else n₃ c) = base c
      split
      · rename_i hmem
        obtain ⟨b, rfl⟩ := mem_cells.mp hmem
        exact (hs.own _ ⟨b, List.mem_cons_self ..⟩).symm
      · rename_i hmem
        have hnone := mt (hocc c).mpr fun ho' => (occupied_sum.mp ho').elim (fun h => hmem ((hheads c).mp h)) ho
        have hnew' : c ∉ cells t n.toNat := fun hin => hnone (occupied_sum.mpr (.inr ((hcells c).mpr hin)))
        rw [hframe c hnone]
        show n₂ c = base c
        rw [hout₂ c hnew', show n₁ c = m.nodes c from if_neg hnew']
        exact hs.rest c fun ho' => hnone (occupied_sum.mpr (.inl ho'))

/-! ## The calls -/

variable [DecidableEq K]

theorem dictDel_stores (key : Option K) :
    wp (dictDel hash key) (fun rc m' => rc = (Dict.dictDel hash d key).rc ∧
      ∃ (N' : Nat) (seq' : Fin N' → List Addr), Stores base m' (Dict.dictDel hash d key).d seq') m := by
  cases key with
  | none => exact wp_pure.mpr ⟨rfl, N, seq, hs⟩
  | some key =>
    have hb : bucketForN hash key d.nbuckets < N := hs.size ▸ hi.bucket_lt key
    unfold dictDel
    rw [wp_bind, wp_get, wp_bind, hs.nbuckets]
    refine forEachUntil_search (P := HasKey m key) (hs.linked ⟨_, hb⟩) (fun hmem => hs.lists.not_head hmem ⟨_, hb⟩ rfl)
      (fun y hy hno => ?_) (fun ys y zs hseq hys hp => ?_) (fun hno => ?_) (hs.fuel hi ⟨_, hb⟩)
    · obtain ⟨ys, zs, hseq⟩ := List.append_of_mem hy
      obtain ⟨cs, e, ds, -, -, hentry⟩ := hs.lists.entry hseq
      have hne : e.key ≠ key := fun hkey => hno ⟨e, hentry, hkey⟩
      rw [bind_apply, show getEntry y m = some (e, m) by simp [getEntry, hentry]]
      show (if e.key = key then _ else pure none : M K V (Option Int)) m = _
      rw [if_neg hne]
      rfl
    · obtain ⟨cs, e, ds, hchain, hlen, hentry⟩ := hs.lists.entry hseq
      obtain ⟨e', hentry', rfl⟩ := hp
      obtain rfl : e = e' := Option.some.inj (Option.some.inj (hentry.symm.trans hentry'))
      rw [wp_bind, wp_getEntry hentry, if_pos rfl, wp_bind, wp_links, dictDel_chain hi (hs.size ▸ hb) hchain]
      refine (hs.unlink hseq hchain hlen).mono fun _ n hn => ?_
      rw [wp_bind, wp_taFree (m := { m with nodes := n }) hn.1, wp_bind]
      exact (wp_run rfl).mpr (wp_pure.mpr ⟨0, rfl, wp_pure.mpr ⟨rfl, N, _, hn.2⟩⟩)
    · have hchain := (List.append_nil (chainAt d.buckets (bucketForN hash key d.nbuckets))).symm
      have habsent := hs.before (i := ⟨_, hb⟩) (List.append_nil _).symm hchain (hs.lists.length ⟨_, hb⟩) hno
      have hdel : Dict.dictDel hash d (some key) = ⟨-1, d, []⟩ := by
        simp only [Dict.dictDel, unlinkChain_none.mpr habsent]
      rw [hdel]
      exact wp_pure.mpr ⟨rfl, N, seq, hs⟩

omit hi hs in
/-- An insert whose table is not grown. -/
theorem dictSetImpl_miss [DecidableEq V] {key : K} {val : Option V} {freeOld : Bool}
    (hmiss : updateChain key val (chainAt d.buckets (bucketForN hash key d.nbuckets)) = none) :
    (Dict.dictSetImpl hash d (some key) val freeOld true false).d =
      { d with
        buckets := Lib.addTail d.buckets (bucketForN hash key d.nbuckets) ⟨key, val⟩, count := d.count + 1 } := by
  have hrehash : ∀ d' : Dict K V, (Dict.dictRehash hash d' (d.nbuckets * 2) false).d = d' := by
    intro d'
    unfold Dict.dictRehash
    split
    · rfl
    · rfl
  simp only [Dict.dictSetImpl, hmiss]
  rw [if_neg (by simp)]
  split
  · exact hrehash _
  · rfl

theorem dictSetImpl_stores [DecidableEq V] {key : Option K} {val : Option V} {freeOld : Bool} {entry : Option Block}
    {table : Option Addr} (hfresh : (Op.set key val freeOld entry table).Fresh m) :
    wp (dictSetImpl hash key val freeOld entry table) (fun r m' =>
      r = ((Dict.dictSetImpl hash d key val freeOld entry.isSome table.isSome).rc,
        freedVals (Dict.dictSetImpl hash d key val freeOld entry.isSome table.isSome).freed) ∧
      ∃ (N' : Nat) (seq' : Fin N' → List Addr),
        Stores base m' (Dict.dictSetImpl hash d key val freeOld entry.isSome table.isSome).d seq') m := by
  cases key with
  | none => exact wp_pure.mpr ⟨rfl, N, seq, hs⟩
  | some key =>
    obtain ⟨hentry, htable, hapart⟩ := hfresh
    have hb : bucketForN hash key d.nbuckets < N := hs.size ▸ hi.bucket_lt key
    let out := Dict.dictSetImpl hash d (some key) val freeOld entry.isSome table.isSome
    unfold dictSetImpl
    refine wp.bind (findIn_rule hs hi (Q := fun r m₁ =>
      (∃ freed, r = some freed ∧ (0, freed) = (out.rc, freedVals out.freed) ∧
      Stores base m₁ out.d seq) ∨ r = none ∧ m₁ = m ∧ ∀ e ∈ chainAt d.buckets (bucketForN hash key d.nbuckets),
        e.key ≠ key)
      ?_ fun hno => .inr ⟨rfl, rfl, hno⟩) fun r m₁ hr => ?_
    · intro i ys y zs cs e ds hib hseq hchain hlen hno hkey hrest
      subst hkey
      obtain rfl : i = ⟨_, hb⟩ := Fin.ext hib
      have hout :
        out = ⟨0, { d with buckets := d.buckets.set (bucketForN hash e.key d.nbuckets) (cs ++ ⟨e.key, val⟩ :: ds) },
          if freeOld = true ∧ e.val ≠ val then e.val.toList.map .val else []⟩ := by
        simp only [out, Dict.dictSetImpl, hchain, updateChain_at hno]
      rw [wp_bind, wp_setVal hrest]
      refine wp_pure.mpr (.inl ⟨_, rfl, ?_, ?_⟩)
      · rw [hout]
        refine Prod.ext rfl ?_
        show (if _ then _ else _) = freedVals (if _ then _ else _)
        split
        · cases e.val <;> rfl
        · rfl
      · rw [hout]
        exact hs.replace hseq hchain hlen val
    rcases hr with ⟨freed, rfl, hfreed, hm₁⟩ | ⟨rfl, hm, hno⟩
    · exact wp_pure.mpr ⟨hfreed, N, seq, hm₁⟩
    subst hm
    have hmiss : updateChain key val _ = none := updateChain_none.mpr hno
    cases entry with
    | none =>
      have hout : out = ⟨-1, d, []⟩ := by
        simp only [out, Dict.dictSetImpl, hmiss]
        rfl
      refine wp_pure.mpr ?_
      rw [show Dict.dictSetImpl hash d (some key) val freeOld (none : Option Block).isSome table.isSome = _ from hout]
      exact ⟨rfl, N, seq, hs⟩
    | some x =>
      have hx : m₁.nodes x.addr = none := hentry x rfl
      have hxout := not_occupied_of_free hs.lists hx
      let d₁ : Dict K V :=
        { d with buckets := Lib.addTail d.buckets (bucketForN hash key d.nbuckets) ⟨key, val⟩, count := d.count + 1 }
      have hi₁ : Inv hash d₁ := by
        have hinv := (dictSetImpl_cases hi key val freeOld true false).1
        rwa [dictSetImpl_miss hmiss] at hinv
      show wp (newEntry (some x) key val >>= _) _ m₁
      rw [wp_bind, wp_run (show newEntry (some x) key val m₁ = some (some x.addr, _) from rfl)]
      show wp (get >>= _) _ _
      rw [wp_bind, wp_get, wp_bind, wp_links]
      have hbucket : m₁.head (bucketForN hash key m₁.nbuckets) = m₁.head (bucketForN hash key d.nbuckets) := by
        rw [hs.nbuckets]
      show wp (listAddTail x.addr (m₁.head (bucketForN hash key m₁.nbuckets))) _ _
      rw [hbucket]
      refine (hs.link (i := ⟨_, hb⟩) hx ⟨key, val⟩).mono fun _ n hn => ?_
      have hs₁ : Stores base { m₁ with nodes := n, count := m₁.count + 1 } d₁ _ := hn
      rw [wp_bind]
      refine (wp_run rfl).mpr ?_
      rw [wp_bind, wp_get]
      have hout : Dict.dictSetImpl hash d (some key) val freeOld true table.isSome =
          if d.nbuckets.toNat * 3 ≤ (d.count + 1) * 4 ∧ d.nbuckets.toNat ≤ (2 ^ 32 - 1) / 2 then
            ⟨0, (Dict.dictRehash hash d₁ (d.nbuckets * 2) table.isSome).d,
              (Dict.dictRehash hash d₁ (d.nbuckets * 2) table.isSome).freed⟩
          else ⟨0, d₁, []⟩ := by
        simp only [Dict.dictSetImpl, hmiss]
        rfl
      show wp _ (fun r m' => r = ((Dict.dictSetImpl hash d (some key) val freeOld true table.isSome).rc,
        freedVals (Dict.dictSetImpl hash d (some key) val freeOld true table.isSome).freed) ∧
          ∃ (N' : Nat) (seq' : Fin N' → List Addr),
          Stores base m' (Dict.dictSetImpl hash d (some key) val freeOld true table.isSome).d seq') _
      rw [hout]
      split
      · rename_i hgrow
        have hgrow' : d.nbuckets.toNat * 3 ≤ (d.count + 1) * 4 ∧ d.nbuckets.toNat ≤ (2 ^ 32 - 1) / 2 := by
          rw [← hs.nbuckets, ← hs.count]
          exact hgrow
        rw [if_pos hgrow']
        have hfree : FreshTable n table (d.nbuckets * 2).toNat := by
          intro t ht c hc
          have hold : m₁.nodes c = none := htable t ht c (by rwa [hs.nbuckets])
          have hcout := not_occupied_of_free hs.lists hold
          have hcx : c ≠ x.addr := fun heq => hapart x rfl t ht (by rwa [← heq, hs.nbuckets])
          have hnew : n c = base c :=
            hs₁.rest c fun ho => ((occupied_more (List.append_nil _).symm).mp ho).elim hcout hcx
          rw [hnew, ← hs.rest c hcout, hold]
        rw [wp_bind]
        refine (dictRehash_refines hi₁ hs₁ (n := m₁.nbuckets * 2) (hs.nbuckets ▸ hfree)).mono fun _ m₂ h₂ => ?_
        rw [hs.nbuckets] at h₂
        exact wp_pure.mpr ⟨by rw [dictRehash_freedVals], h₂.2⟩
      · rename_i hgrow
        have hgrow' : ¬ (d.nbuckets.toNat * 3 ≤ (d.count + 1) * 4 ∧ d.nbuckets.toNat ≤ (2 ^ 32 - 1) / 2) := by
          rw [← hs.nbuckets, ← hs.count]
          exact hgrow
        rw [if_neg hgrow']
        exact wp_pure.mpr ⟨rfl, N, _, hs₁⟩

end

end KanekFoundations.Dict.Nodes

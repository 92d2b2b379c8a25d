/-
  KanekFoundations.Ta.TaProofs — the list of a context is its live blocks.

  `Tracks ll m g xs`: the list at `ll` runs through `xs`, which are the blocks of the ledger `g`,
  and every block that was ever given out is on the list or was freed, once. Every function
  keeps it, and does to the ledger what the ledger says.

  Proved, for every sequence of calls on live blocks and all answers of the system:
  - `ta_runs`: no call is stuck, the list is the live blocks, a sweep frees the marked ones, a
    destroy all of them, a failed realloc changes no block, and the total is the sum of the sizes.
-/

import KanekFoundations.Ta.Ledger

namespace KanekFoundations.Ta

open KanekFoundations.Lib KanekFoundations.Links

variable {ll a b : Nat} {m m' : Mem} {g : Ledger} {xs ys zs : List Addr} {i : Info} {k : Block}

/-! ## Programs -/

theorem wp_links {α : Type} {x : Links.M Info α} {Q : α → Mem → Prop} :
    wp (links x) Q m ↔ wp x (fun r e => Q r { m with nodes := e }) m.nodes := by
  unfold wp links
  cases x m.nodes with
  | none => simp
  | some _ => simp

theorem wp_getInfo {Q : Info → Mem → Prop} (h : m.nodes.rest a = some i) : wp (getInfo a) Q m ↔ Q i m :=
  wp_run (by simp [getInfo, h])

theorem wp_setInfo {Q : Unit → Mem → Prop} (h : (m.nodes a).isSome) (i : Info) :
    wp (setInfo a i) Q m ↔ Q () { m with nodes := m.nodes.withRest a i } := by
  obtain ⟨e, he⟩ := Option.isSome_iff_exists.mp h
  exact wp_run (by simp [setInfo, he])

theorem wp_traceErr {Q : Unit → Mem → Prop} {fmt : String} {n : Nat} :
    wp (traceErr fmt n) Q m ↔ Q () { m with trace := m.trace ++ [(fmt, n)] } := wp_run rfl

theorem wp_store {Q : Unit → Mem → Prop} (h : m.nodes.rest a = some i) {last : Nat} (hlast : last ≤ i.total)
    (f : Info → Info) : wp (store a last f) Q m ↔ Q () { m with nodes := m.nodes.withRest a (f i) } := by
  have hpres : (m.nodes a).isSome := by rw [← Entries.isSome_rest, h]; rfl
  rw [store, wp_bind, wp_getInfo h, if_neg (Nat.not_lt_of_le hlast), wp_setInfo hpres]

theorem store_stuck (h : m.nodes.rest a = some i) {last : Nat} (hlast : i.total < last) (f : Info → Info) :
    store a last f m = none := by
  have hget : getInfo a m = some (i, m) := by
    rw [getInfo, h]
    rfl
  rw [store, bind_apply, hget, Option.bind_some, if_pos hlast]

theorem wp_malloc {Q : Option Addr → Mem → Prop} {total : Nat} (a : Addr) :
    wp (malloc total (some a)) Q m ↔ Q (some a) { m with
      nodes := m.nodes.put a (some ⟨0, 0, .filled total none⟩), mallocs := m.mallocs ++ [a] } :=
  wp_run rfl

theorem wp_realloc_fails {Q : Option Addr → Mem → Prop} {e : Entry Info} {total : Nat} (h : m.nodes a = some e)
    (hmem : a ∈ m.mallocs) : wp (realloc a total none) Q m ↔ Q none m :=
  wp_run (by rw [realloc, if_neg (not_not.mpr hmem), h]; rfl)

theorem wp_realloc {Q : Option Addr → Mem → Prop} {e : Entry Info} {total : Nat} (h : m.nodes a = some e)
    (hmem : a ∈ m.mallocs) : wp (realloc a total (some b)) Q m ↔ Q (some b) { m with
      nodes := (m.nodes.put a none).put b (some { e with rest := e.rest.resized total }),
      mallocs := m.mallocs ++ [b], frees := m.frees ++ [a] } :=
  wp_run (by rw [realloc, if_neg (not_not.mpr hmem), h]; rfl)

theorem resize_length (n : Nat) (data : List (Option Byte)) : (resize n data).length = n := by
  unfold resize
  rw [List.length_append, List.length_take, List.length_replicate]
  omega

theorem wp_free {Q : Unit → Mem → Prop} (h : (m.nodes a).isSome) (hmem : a ∈ m.mallocs) :
    wp (free a) Q m ↔ Q () { m with nodes := m.nodes.put a none, frees := m.frees ++ [a] } :=
  wp_run (by rw [free, if_pos ⟨h, hmem⟩])

@[simp] theorem containerOf_dataPtr (a : Addr) : containerOf (dataPtr a) = a := Nat.add_sub_cancel ..

theorem dataPtr_ne (a : Addr) : dataPtr a ≠ 0 := Nat.succ_ne_zero _

/-! ## New nodes -/

/-- What `ta_malloc` makes of a block of `total` bytes. -/
def Info.fresh (total size : Nat) : Info :=
  { Info.filled total (some X) with
    size := size % 2 ^ 32, dStr := dashes ++ (Info.filled total (some X)).dStr.drop dashes.length }

theorem wp_fillNode {Q : Unit → Mem → Prop} (h : (m.nodes a).isSome) {total : Nat}
    (htotal : D_STR + dashes.length ≤ total) (size : Nat) :
    wp (fillNode a total size) Q m ↔ Q () { m with nodes := m.nodes.withRest a (.fresh total size) } := by
  have hmark : MARK ≤ D_STR + dashes.length := by decide
  have hdStr : D_STR ≤ D_STR + dashes.length := Nat.le_add_right ..
  have hrest : ∀ (e : Entries Info) (i : Info), (e a).isSome → (e.withRest a i).rest a = some i := by
    intro e i he
    rw [Entries.withRest_rest he, Function.update_self]
  unfold fillNode
  rw [wp_bind, wp_setInfo h, wp_bind, wp_store (hrest _ _ h) (hmark.trans htotal), wp_bind,
    wp_store (hrest _ _ (by simpa using h)) (hdStr.trans htotal),
    wp_store (hrest _ _ (by simpa using h)) htotal]
  simp only [Entries.withRest_withRest]
  exact Iff.rfl

/-- A block that the label does not fit in is written past its end. -/
theorem fillNode_stuck {Q : Unit → Mem → Prop} (h : (m.nodes a).isSome) {total : Nat}
    (htotal : total < D_STR + dashes.length) (size : Nat) : ¬ wp (fillNode a total size) Q m := by
  have hrest : ∀ (e : Entries Info) (i : Info), (e a).isSome → (e.withRest a i).rest a = some i := by
    intro e i he
    rw [Entries.withRest_rest he, Function.update_self]
  unfold fillNode
  rw [wp_bind, wp_setInfo h, wp_bind]
  by_cases hsize : total < MARK
  · exact not_wp (store_stuck (hrest _ _ h) hsize _)
  rw [wp_store (hrest _ _ h) (Nat.le_of_not_lt hsize), wp_bind]
  by_cases hmark : total < D_STR
  · exact not_wp (store_stuck (hrest _ _ (by simpa using h)) hmark _)
  rw [wp_store (hrest _ _ (by simpa using h)) (Nat.le_of_not_lt hmark)]
  exact not_wp (store_stuck (hrest _ _ (by simpa using h)) htotal _)

/-! ## The list and the ledger -/

structure Tracks (ll : Addr) (m : Mem) (g : Ledger) (xs : List Addr) : Prop where
  ring : m.nodes.IsRing ll xs
  keeps : Keeps ll m.nodes.rest g xs
  log : m.mallocs.Perm (m.frees ++ xs)

theorem Tracks.note (h : Tracks ll m g xs) (trace : List (String × Nat)) : Tracks ll { m with trace := trace } g xs :=
  ⟨h.ring, h.keeps, h.log⟩

theorem Tracks.nodup (h : Tracks ll m g xs) : xs.Nodup := (List.nodup_cons.mp h.ring.nodup).2

theorem Tracks.given (h : Tracks ll m g xs) (ha : a ∈ xs) : a ∈ m.mallocs :=
  h.log.mem_iff.mpr (List.mem_append_right _ ha)

theorem Tracks.bound (h : Tracks ll m g xs) : xs.length < m.mallocs.length + 1 := by
  have hlen := h.log.length_eq
  rw [List.length_append] at hlen
  omega

theorem Tracks.live (h : Tracks ll m g xs) (ha : (g a).isSome) : a ∈ xs := (h.keeps.live a).mpr ha

/-- What is not in memory is not on the list. -/
theorem Tracks.outside (h : Tracks ll m g xs) (ha : m.nodes.rest a = none) : a ∉ ll :: xs := by
  intro hmem
  rcases List.mem_cons.mp hmem with rfl | hmem
  · obtain ⟨_, _, _, hnext, -⟩ := first_of_ring h.ring
    have hsome := Entries.isSome_of_next hnext
    rw [← Entries.isSome_rest, ha] at hsome
    cases hsome
  · obtain ⟨_, i, -, hi, -⟩ := h.keeps.find hmem
    rw [ha] at hi
    cases hi

theorem Keeps.present (h : Keeps ll m.nodes.rest g xs) (ha : a ∈ xs) : (m.nodes a).isSome := by
  obtain ⟨_, i, -, hi, -⟩ := h.find ha
  rw [← Entries.isSome_rest, hi]
  rfl

/-- The loop over the list: `I acc left m` is what holds before the nodes `left`. -/
theorem forEach_rule {α : Type} {body : α → Addr → M α} (I : α → List Addr → Mem → Prop)
    (hring : ∀ acc left m', I acc left m' → ∀ y post, left ++ [ll] = y :: post →
      ∃ z, m'.nodes.next y = some z ∧ ∀ y' post', post = y' :: post' → z = y')
    (hbody : ∀ acc y left m', I acc (y :: left) m' → y ≠ ll ∧ wp (body acc y) (fun acc' m'' => I acc' left m'') m')
    (hr : m.nodes.IsRing ll xs) (hk : xs.length < m.mallocs.length + 1) {acc : α} (h : I acc xs m) :
    wp (forEach ll body acc) (fun acc' m' => I acc' [] m') m := by
  have hlink : ∀ {m' : Mem} {y z : Addr}, m'.nodes.next y = some z → links (getNext y) m' = some (z, m') := by
    intro m' y z hz
    simp [links, getNext, hz]
  refine forEachSafe_rule I (fun acc left m' y post hI hy => ?_) hbody hk h fun y post hy => ?_
  · obtain ⟨z, hz, hnext⟩ := hring acc left m' hI y post hy
    exact ⟨z, hlink hz, hnext⟩
  · obtain ⟨y', post', hy', hnext, -⟩ := first_of_ring hr
    obtain ⟨rfl, rfl⟩ := List.cons.inj (hy.symm.trans hy')
    exact hlink hnext

/-! ## Allocation -/

theorem u64_total {a size : Nat} {r : Addr → Option Info} (hf : Fits r a (HEADER + size)) :
    u64 (size + HEADER) = size + HEADER := by
  have hpos := hf.pos
  have hroom := hf.room
  exact u64_of_lt (by omega)

theorem list_add_tracks {g' : Ledger} (hr : m.nodes.IsRing ll xs) (hk : Keeps ll m.nodes.rest g' (a :: xs))
    (ha : a ∉ ll :: xs)
    (hlog : m.mallocs.Perm (m.frees ++ a :: xs)) :
      wp (links (listAdd a ll)) (fun _ m' => Tracks ll m' g' (a :: xs)) m := by
  rw [wp_links]
  refine (listAdd_spec hr ha (hk.present (List.mem_cons_self ..))).mono fun _ e' h => ?_
  exact ⟨h.1, h.2 ▸ hk, hlog⟩

theorem taMalloc_fails (h : Tracks ll m g xs) (size : Nat) :
    wp (taMalloc ll size none) (fun p m' => p = 0 ∧ Tracks ll m' g xs) m := by
  unfold taMalloc
  rw [wp_bind, wp_run rfl, wp_bind, wp_traceErr, wp_pure]
  exact ⟨rfl, h.note _⟩

theorem taMalloc_spec (h : Tracks ll m g xs) {size : Nat} (hf : Fits m.nodes.rest a (HEADER + size)) :
    wp (taMalloc ll size (some a)) (fun p m' => p = dataPtr a ∧
      Tracks ll m' (Function.update g a (some ⟨size, false, List.replicate size (some X)⟩)) (a :: xs)) m := by
  have htotal := u64_total hf
  have hout := h.outside (hf.absent (Nat.add_pos_left (by decide) size))
  unfold taMalloc
  rw [htotal, wp_bind, wp_malloc]
  dsimp only
  rw [wp_bind, wp_fillNode (by simp [Entries.put_self]) (le_trans (by decide) (Nat.le_add_left HEADER size)), wp_bind]
  refine (list_add_tracks ?_ ?_ hout ?_).mono fun _ m' hm' => wp_pure.mpr ⟨rfl, hm'⟩
  · show Ring _ _ ll xs
    rw [Entries.withRest_next, Entries.withRest_prev]
    exact ring_put h.ring hout _
  · rw [Entries.withRest_rest (by simp [Entries.put_self]), Entries.put_rest, Function.update_idem]
    refine h.keeps.add (by simpa [Info.fresh, Info.filled] using hf)
      ⟨rfl, by simp [Info.fresh, Info.filled], ?_, by simp, ?_⟩
    · simp [Info.fresh, Info.filled]
    · exact Nat.add_comm size HEADER
  · show (m.mallocs ++ [a]).Perm (m.frees ++ a :: xs)
    exact (h.log.append_right [a]).trans (by simpa using (List.perm_append_singleton a xs).append_left m.frees)

theorem taCalloc_fails (h : Tracks ll m g xs) (n e : Nat) :
    wp (taCalloc ll n e none) (fun p m' => p = 0 ∧ Tracks ll m' g xs) m := by
  unfold taCalloc
  refine wp.bind (taMalloc_fails h _) fun p m' hm' => ?_
  obtain ⟨rfl, hm'⟩ := hm'
  exact wp_pure.mpr ⟨rfl, hm'⟩

/-- A store to the bytes or the mark of a block. -/
theorem setInfo_spec (h : Tracks ll m g xs) (ha : a ∈ xs) (hi : m.nodes.rest a = some i) {i' : Info}
    (hd : i'.Describes k)
    (hlen : i'.data.length = i.data.length) :
    wp (setInfo a i') (fun _ m' => Tracks ll m' (Function.update g a (some k)) xs) m := by
  have hpres := h.keeps.present ha
  rw [wp_setInfo hpres]
  refine ⟨?_, ?_, h.log⟩
  · show Ring _ _ ll xs
    rw [Entries.withRest_next, Entries.withRest_prev]
    exact h.ring
  · rw [Entries.withRest_rest hpres]
    exact h.keeps.change ha hi hd hlen

theorem taCalloc_spec (h : Tracks ll m g xs) {n e : Nat} (hf : Fits m.nodes.rest a (HEADER + u64 (n * e))) :
    wp (taCalloc ll n e (some a)) (fun p m' => p = dataPtr a ∧
      Tracks ll m' (Function.update g a (some ⟨u64 (n * e), false, List.replicate (u64 (n * e)) (some 0)⟩))
        (a :: xs)) m := by
  unfold taCalloc
  refine wp.bind (taMalloc_spec h hf) fun p m' hm' => ?_
  obtain ⟨rfl, hm'⟩ := hm'
  rw [if_pos (dataPtr_ne a)]
  unfold memset
  obtain ⟨i, hi, hd⟩ := hm'.keeps.block a _ (Function.update_self ..)
  have hdata : i.data = List.replicate (u64 (n * e)) (some X) := hd.data
  have hlen : ¬ i.data.length < u64 (n * e) := by simp [hdata]
  rw [containerOf_dataPtr, wp_bind, wp_bind, wp_getInfo hi, if_neg hlen]
  refine (setInfo_spec hm' (List.mem_cons_self ..) hi
    (k := ⟨u64 (n * e), false, List.replicate (u64 (n * e)) (some 0)⟩) ?_ ?_).mono fun _ m'' hm'' => ?_
  · exact ⟨hd.size, hd.mark, by simp [hdata], by simp, hd.total⟩
  · simp [hdata]
  · rw [Function.update_idem] at hm''
    exact wp_pure.mpr ⟨rfl, hm''⟩

/-! ## Release -/

/-- Off the list a node is still in memory, with what it held. -/
theorem unlink_tracks (h : Tracks ll m g (ys ++ a :: zs)) {Q : Unit → Mem → Prop}
    (hQ : ∀ e' : Entries Info, e'.IsRing ll (ys ++ zs) → e'.rest = m.nodes.rest → (e' a).isSome →
      Q () { m with nodes := e' }) :
    wp (links (listDel a)) Q m := by
  rw [wp_links]
  refine (listDel_spec h.ring).mono fun _ e' he' => ?_
  obtain ⟨hring, hrest, -⟩ := he'
  refine hQ e' hring hrest ?_
  rw [Entries.isSome_of_rest hrest]
  exact h.keeps.present (List.mem_append_right _ (List.mem_cons_self ..))

theorem Tracks.off (h : Tracks ll m g (ys ++ a :: zs)) : a ∉ ll :: (ys ++ zs) := by
  have hperm : (ll :: (ys ++ a :: zs)).Perm (a :: ll :: (ys ++ zs)) :=
    (List.perm_middle.cons ll).trans (List.Perm.swap ..)
  exact (List.nodup_cons.mp (hperm.nodup_iff.mp h.ring.nodup)).1

theorem taFree_spec (h : Tracks ll m g (ys ++ a :: zs)) :
    wp (taFree (dataPtr a)) (fun _ m' => m'.frees = m.frees ++ [a] ∧
      Tracks ll m' (Function.update g a none) (ys ++ zs)) m := by
  have hmem : a ∈ ys ++ a :: zs := List.mem_append_right _ (List.mem_cons_self ..)
  unfold taFree
  rw [if_neg (dataPtr_ne a), containerOf_dataPtr, wp_bind]
  refine unlink_tracks h fun e' hring hrest hpres => ?_
  refine (wp_free (m := { m with nodes := e' }) hpres (h.given hmem)).mpr ⟨rfl, ring_put hring h.off _, ?_, ?_⟩
  · show Keeps ll (e'.put a none).rest _ _
    rw [Entries.put_rest, hrest]
    exact h.keeps.remove h.nodup
  · show m.mallocs.Perm (m.frees ++ [a] ++ (ys ++ zs))
    exact h.log.trans (by simpa using List.perm_middle.append_left m.frees)

/-! ## Reallocation -/

theorem taRealloc_fails (h : Tracks ll m g (ys ++ a :: zs)) (size : Nat) :
    wp (taRealloc ll (dataPtr a) size none) (fun p m' => p = 0 ∧ m'.nodes.rest = m.nodes.rest ∧
      m'.mallocs = m.mallocs ∧ m'.frees = m.frees ∧ Tracks ll m' g (a :: (ys ++ zs))) m := by
  have hmem : a ∈ ys ++ a :: zs := List.mem_append_right _ (List.mem_cons_self ..)
  have hperm : (ys ++ a :: zs).Perm (a :: (ys ++ zs)) := List.perm_middle
  unfold taRealloc
  rw [containerOf_dataPtr, wp_bind]
  refine unlink_tracks h fun e' hring hrest hpres => ?_
  obtain ⟨e, he⟩ := Option.isSome_iff_exists.mp hpres
  rw [wp_bind, wp_realloc_fails (m := { m with nodes := e' }) he (h.given hmem)]
  dsimp only
  rw [wp_bind, wp_traceErr, wp_bind, wp_links]
  refine (listAdd_spec hring h.off hpres).mono fun _ e'' he'' => wp_pure.mpr ?_
  have hrest' : e''.rest = m.nodes.rest := he''.2.trans hrest
  exact ⟨rfl, hrest', rfl, rfl, he''.1, by simpa [hrest'] using h.keeps.perm hperm,
    h.log.trans (hperm.append_left m.frees)⟩

theorem taRealloc_spec (h : Tracks ll m g (ys ++ a :: zs)) {size : Nat} (ha : g a = some k)
    (hf : Fits (Function.update m.nodes.rest a none) b (HEADER + size)) :
    wp (taRealloc ll (dataPtr a) size (some b)) (fun p m' => p = dataPtr b ∧
      Tracks ll m' (Function.update (Function.update g a none) b (some ⟨size, false, resize size k.data⟩))
        (b :: (ys ++ zs))) m := by
  have hmem : a ∈ ys ++ a :: zs := List.mem_append_right _ (List.mem_cons_self ..)
  have hperm : (ys ++ a :: zs).Perm (a :: (ys ++ zs)) := List.perm_middle
  have htotal := u64_total hf
  unfold taRealloc
  rw [containerOf_dataPtr, wp_bind]
  refine unlink_tracks h fun e' hring hrest hpres => ?_
  obtain ⟨i, hi, hd⟩ := h.keeps.block a k ha
  obtain ⟨e, he⟩ := Option.isSome_iff_exists.mp hpres
  have hi' : e.rest = i := by
    have hboth := (congrFun hrest a).trans hi
    simpa [Entries.rest, he] using hboth
  -- The list without the old block, in a memory without it.
  have hring' : (e'.put a none).IsRing ll (ys ++ zs) := ring_put hring h.off none
  have hkeeps : Keeps ll (e'.put a none).rest (Function.update g a none) (ys ++ zs) := by
    rw [Entries.put_rest, hrest]
    exact h.keeps.remove h.nodup
  have hgone : Tracks ll { m with nodes := e'.put a none, frees := m.frees ++ [a] }
      (Function.update g a none) (ys ++ zs) :=
    ⟨hring', hkeeps, h.log.trans (by simpa using hperm.append_left m.frees)⟩
  have hf' : Fits (e'.put a none).rest b (HEADER + size) := by
    rw [Entries.put_rest, hrest]
    exact hf
  have hout' := hgone.outside (hf'.absent (Nat.add_pos_left (by decide) size))
  rw [wp_bind, wp_realloc (m := { m with nodes := e' }) he (h.given hmem), htotal]
  dsimp only
  rw [wp_bind, wp_store (i := e.rest.resized (size + HEADER)) (by simp [Entries.rest, Entries.put_self])
    (le_trans (by decide) (Nat.le_add_left HEADER size)), wp_bind,
    wp_store (i := { e.rest.resized (size + HEADER) with size := size % 2 ^ 32 })
      (by rw [Entries.withRest_rest (by simp [Entries.put_self]), Function.update_self])
      (le_trans (by decide) (Nat.le_add_left HEADER size)), Entries.withRest_withRest, wp_bind]
  refine (list_add_tracks ?_ ?_ hout' ?_).mono fun _ m' hm' => wp_pure.mpr ⟨rfl, hm'⟩
  · show Ring _ _ ll (ys ++ zs)
    rw [Entries.withRest_next, Entries.withRest_prev]
    exact ring_put hring' hout' _
  · rw [Entries.withRest_rest (by simp [Entries.put_self]), Entries.put_rest, Function.update_idem]
    refine hkeeps.add ?_ ⟨rfl, by simp, ?_, ?_, ?_⟩
    · simpa [Info.resized, resize_length] using hf'
    · simp [Info.resized, hi', hd.data]
    · simp [resize_length]
    · exact Nat.add_comm size HEADER
  · show (m.mallocs ++ [b]).Perm (m.frees ++ [a] ++ b :: (ys ++ zs))
    refine (hgone.log.append_right [b]).trans ?_
    simpa using (List.perm_append_singleton b (ys ++ zs)).append_left (m.frees ++ [a])

/-! ## Loops over the list -/

def Ledger.marked (g : Ledger) (a : Addr) : Bool := (g a).any Block.marked

/-- The sweep got past the blocks `done`. -/
def Ledger.sweptOn (g : Ledger) (done : List Addr) : Ledger := fun a =>
  if a ∈ done then (g a).filter fun k => !k.marked else g a

theorem sweptOn_next (done : List Addr) (hk : g a = some k) :
    g.sweptOn (done ++ [a]) =
      if k.marked then Function.update (g.sweptOn done) a none else Function.update (g.sweptOn done) a (some k) := by
  funext b
  unfold Ledger.sweptOn
  by_cases hba : b = a
  · subst hba
    by_cases hm : k.marked = true
    · simp [hk, hm]
    · simp [hk, hm]
  · by_cases hm : k.marked = true
    · simp [hm, hba]
    · simp [hm, hba]

theorem taSweep_spec (h : Tracks ll m g xs) :
    wp (taSweep ll) (fun _ m' => m'.frees = m.frees ++ xs.filter g.marked ∧
      Tracks ll m' g.swept (xs.filter fun a => !g.marked a)) m := by
  have hstart : Tracks ll m (g.sweptOn []) xs := by
    have hnone : g.sweptOn [] = g := by
      funext a
      simp [Ledger.sweptOn]
    rw [hnone]
    exact h
  refine (forEach_rule (fun _ left m' => ∃ done, xs = done ++ left ∧ m'.frees = m.frees ++ done.filter g.marked ∧
    Tracks ll m' (g.sweptOn done) (done.filter (fun a => !g.marked a) ++ left)) ?_ ?_ h.ring h.bound
    ⟨[], rfl, by simp, hstart⟩).mono fun _ m' hm' => ?_
  · intro _ left m' hI y post hy
    obtain ⟨done, -, -, ht⟩ := hI
    exact link_of_ring ht.ring hy
  · intro _ y left m' hI
    obtain ⟨done, hxs, hfrees, ht⟩ := hI
    have hmem : y ∈ done.filter (fun a => !g.marked a) ++ y :: left := List.mem_append_right _ (List.mem_cons_self ..)
    have hfresh : y ∉ done := fun hdone =>
      List.disjoint_of_nodup_append (hxs ▸ h.nodup) hdone (List.mem_cons_self ..)
    obtain ⟨k, i, hk, hi, hd⟩ := ht.keeps.find hmem
    have hgk : g y = some k := by simpa [Ledger.sweptOn, hfresh] using hk
    have hmarked : g.marked y = k.marked := by simp [Ledger.marked, hgk]
    refine ⟨fun heq => (List.nodup_cons.mp ht.ring.nodup).1 (heq ▸ hmem), ?_⟩
    rw [wp_bind, wp_getInfo hi]
    have hnext := sweptOn_next done hgk
    by_cases hm : k.marked = true
    · rw [if_pos (hd.mark.mpr hm)]
      rw [if_pos hm] at hnext
      refine (taFree_spec ht).mono fun _ m'' hm'' => ⟨done ++ [y], by simp [hxs], ?_, ?_⟩
      · rw [hm''.1, hfrees]
        simp [hmarked, hm]
      · rw [hnext]
        simpa [hmarked, hm] using hm''.2
    · rw [if_neg fun h1 => hm (hd.mark.mp h1), wp_pure]
      rw [if_neg hm, ← hk, Function.update_eq_self] at hnext
      refine ⟨done ++ [y], by simp [hxs], ?_, ?_⟩
      · simp [hfrees, hmarked, hm]
      · rw [hnext]
        simpa [hmarked, hm] using ht
  · obtain ⟨done, hxs, hfrees, ht⟩ := hm'
    rw [List.append_nil] at hxs ht
    have hall : g.sweptOn done = g.swept := by
      funext a
      unfold Ledger.sweptOn Ledger.swept
      by_cases ha : a ∈ done
      · rw [if_pos ha]
      · rw [if_neg ha]
        have hnone : g a = none := by simpa [hxs, ha] using h.keeps.live a
        rw [hnone]
        rfl
    rw [hall, ← hxs] at ht
    exact ⟨hxs ▸ hfrees, ht⟩

theorem taListInit_spec (hll : (m.nodes ll).isSome) (hk : Keeps ll m.nodes.rest g []) (hlog : m.mallocs.Perm m.frees) :
    wp (taListInit ll) (fun rc m' => rc = 0 ∧ m'.frees = m.frees ∧ Tracks ll m' g []) m := by
  unfold taListInit
  rw [wp_bind, wp_links]
  refine (initListHead_spec hll).mono fun _ e' he' => wp_pure.mpr ⟨rfl, rfl, he'.1, he'.2 ▸ hk, ?_⟩
  rw [List.append_nil]
  exact hlog

theorem Tracks.head (h : Tracks ll m g xs) : (m.nodes ll).isSome := by
  obtain ⟨_, _, _, hnext, -⟩ := first_of_ring h.ring
  exact Entries.isSome_of_next hnext

/-- Nothing is left but the head. -/
theorem Keeps.clear (h : Keeps ll m.nodes.rest g xs) {e : Entries Info}
    (he : ∀ c, e c = if c ∈ xs then none else m.nodes c) :
    Keeps ll e.rest (fun _ => none) [] := by
  have hsome : ∀ c i, e.rest c = some i → c ∉ xs ∧ m.nodes.rest c = some i := by
    intro c i hc
    unfold Entries.rest at hc ⊢
    rw [he c] at hc
    by_cases hmem : c ∈ xs
    · rw [if_pos hmem] at hc
      cases hc
    · rw [if_neg hmem] at hc
      exact ⟨hmem, hc⟩
  refine ⟨fun _ => by simp, fun _ _ hnone => (by cases hnone), fun c hc => ?_,
    fun c i hc => h.room c i (hsome c i hc).2,
    fun c d i j hc hd => h.apart c d i j (hsome c i hc).2 (hsome d j hd).2⟩
  obtain ⟨i, hi⟩ := Option.isSome_iff_exists.mp hc
  obtain ⟨hmem, hi⟩ := hsome c i hi
  rcases h.only c (by rw [hi]; rfl) with hll | hxs
  · exact .inl hll
  · exact absurd hxs hmem

theorem taListDestroy_spec (h : Tracks ll m g xs) :
    wp (taListDestroy ll) (fun _ m' => m'.frees = m.frees ++ xs ∧ Tracks ll m' (fun _ => none) []) m := by
  have hll : ll ∉ xs := (List.nodup_cons.mp h.ring.nodup).1
  unfold taListDestroy
  refine wp.bind (forEach_rule (fun _ left m' => ∃ done, xs = done ++ left ∧ m'.frees = m.frees ++ done ∧
    m'.mallocs = m.mallocs ∧
    ∀ c, m'.nodes c = if c ∈ done then none else m.nodes c) ?_ ?_ h.ring h.bound ⟨[], rfl, by simp, rfl, by simp⟩) ?_
  · intro _ left m' hI y post hy
    obtain ⟨done, hxs, -, -, hnodes⟩ := hI
    obtain ⟨z, hz, hnext⟩ := link_of_ring (hxs ▸ h.ring) hy
    refine ⟨z, ?_, hnext⟩
    -- A node that is still to come has not been freed.
    have hleft : y ∉ done := by
      intro hdone
      have hmem : y ∈ left ++ [ll] := hy ▸ List.mem_cons_self ..
      rcases List.mem_append.mp hmem with hmem | hmem
      · exact List.disjoint_of_nodup_append (hxs ▸ h.nodup) hdone hmem
      · exact hll (List.mem_singleton.mp hmem ▸ hxs ▸ List.mem_append_left _ hdone)
    unfold Entries.next
    rw [hnodes y, if_neg hleft]
    exact hz
  · intro _ y left m' hI
    obtain ⟨done, hxs, hfrees, hmallocs, hnodes⟩ := hI
    have hmem : y ∈ xs := hxs ▸ List.mem_append_right _ (List.mem_cons_self ..)
    have hfresh : y ∉ done := fun hdone =>
      List.disjoint_of_nodup_append (hxs ▸ h.nodup) hdone (List.mem_cons_self ..)
    have hpres : (m'.nodes y).isSome := by
      rw [hnodes y, if_neg hfresh]
      exact h.keeps.present hmem
    refine ⟨fun heq => hll (heq ▸ hmem), ?_⟩
    rw [wp_free hpres (hmallocs ▸ h.given hmem)]
    refine ⟨done ++ [y], by simp [hxs], by simp [hfrees], hmallocs, fun c => ?_⟩
    by_cases hc : c = y
    · subst hc
      simp [Entries.put_self]
    · refine (m'.nodes.put_of_ne none hc).trans ?_
      rw [hnodes c]
      simp [hc]
  · intro _ m' hm'
    obtain ⟨done, hxs, hfrees, hmallocs, hnodes⟩ := hm'
    rw [List.append_nil] at hxs
    subst hxs
    have hll' : (m'.nodes ll).isSome := by
      rw [hnodes ll, if_neg hll]
      exact h.head
    rw [wp_bind]
    refine (taListInit_spec hll' (h.keeps.clear hnodes) ?_).mono fun _ m'' hm'' =>
      wp_pure.mpr ⟨hm''.2.1.trans hfrees, hm''.2.2⟩
    rw [hmallocs, hfrees]
    exact h.log

theorem taListReset_spec (h : Tracks ll m g xs) :
    wp (taListReset ll) (fun _ m' => m'.frees = m.frees ++ xs ∧ Tracks ll m' (fun _ => none) []) m := by
  unfold taListReset
  refine wp.bind (taListDestroy_spec h) fun _ m' hm' => ?_
  obtain ⟨hfrees, ht⟩ := hm'
  rw [wp_bind]
  refine (taListInit_spec ht.head ht.keeps ?_).mono fun _ m'' hm'' => wp_pure.mpr ⟨hm''.2.1.trans hfrees, hm''.2.2⟩
  simpa using ht.log

theorem taListTotalMem_spec (h : Tracks ll m g xs) :
    wp (taListTotalMem ll) (fun total m' => m' = m ∧ total = u64 (xs.map fun a => g.size a % 2 ^ 32).sum) m := by
  refine (forEach_rule (fun total left m' => m' = m ∧ ∃ done, xs = done ++ left ∧
    total = u64 (done.map fun a => g.size a % 2 ^ 32).sum) ?_ ?_ h.ring h.bound ⟨rfl, [], rfl, rfl⟩).mono
      fun total m' hm' => ?_
  · intro _ left m' hI y post hy
    obtain ⟨rfl, done, hxs, -⟩ := hI
    exact link_of_ring (hxs ▸ h.ring) hy
  · intro total y left m' hI
    obtain ⟨rfl, done, hxs, rfl⟩ := hI
    have hmem : y ∈ xs := hxs ▸ List.mem_append_right _ (List.mem_cons_self ..)
    obtain ⟨k, i, hk, hi, hd⟩ := h.keeps.find hmem
    refine ⟨fun heq => (List.nodup_cons.mp h.ring.nodup).1 (heq ▸ hmem), ?_⟩
    rw [wp_bind, wp_getInfo hi, wp_pure]
    refine ⟨rfl, done ++ [y], by simp [hxs], ?_⟩
    have hsize : g.size y % 2 ^ 32 = i.size := by rw [hd.size, Ledger.size, hk]; rfl
    rw [List.map_append, List.sum_append, List.map_singleton, List.sum_singleton, hsize]
    exact Nat.mod_add_mod _ _ _
  · obtain ⟨rfl, done, hxs, htotal⟩ := hm'
    rw [List.append_nil] at hxs
    exact ⟨rfl, hxs ▸ htotal⟩

/-! ## Runs -/

theorem taMark_spec (h : Tracks ll m g xs) (ha : g a = some k) :
    wp (taMark (dataPtr a)) (fun _ m' => Tracks ll m' (Function.update g a (some { k with marked := true })) xs) m := by
  have hmem := h.live (a := a) (by rw [ha]; rfl)
  obtain ⟨i, hi, hd⟩ := h.keeps.block a k ha
  unfold taMark
  have hroom : D_STR ≤ i.total := by
    rw [hd.total]
    exact le_trans (by decide) (Nat.le_add_right HEADER k.size)
  rw [containerOf_dataPtr, wp_store hi hroom]
  refine (wp_setInfo (h.keeps.present hmem) { i with mark := 1 }).mp (setInfo_spec h hmem hi ?_ rfl)
  exact ⟨hd.size, by simp, hd.data, hd.length, hd.total⟩

theorem fill_spec (h : Tracks ll m g xs) (ha : g a = some k) {data : List (Option Byte)} (hlen : data.length = k.size) :
    wp (fill (dataPtr a) data)
      (fun _ m' => Tracks ll m' (Function.update g a (some { k with data := data })) xs) m := by
  have hmem := h.live (a := a) (by rw [ha]; rfl)
  obtain ⟨i, hi, hd⟩ := h.keeps.block a k ha
  have hsame : i.data.length = data.length := by rw [hd.data, hd.length, hlen]
  unfold fill
  rw [containerOf_dataPtr, wp_bind, wp_getInfo hi, if_neg (not_not.mpr hsame)]
  exact setInfo_spec h hmem hi ⟨hd.size, hd.mark, rfl, hlen, hd.total⟩ hsame.symm

theorem run_spec (h : Tracks ll m g xs) {limit : Nat} {op : Op} (hl : op.Legal limit m.nodes.rest g) :
    wp (run ll op) (fun _ m' => ∃ xs', Tracks ll m' (op.apply g) xs') m := by
  have hsplit : ∀ {a : Nat}, (g a).isSome → ∃ ys zs, xs = ys ++ a :: zs := fun ha => List.append_of_mem (h.live ha)
  cases op with
  | malloc size answer =>
    cases answer with
    | none => exact wp.bind (taMalloc_fails h size) fun _ m' hm' => wp_pure.mpr ⟨xs, hm'.2⟩
    | some a => exact wp.bind (taMalloc_spec h (hl.2 a rfl)) fun _ m' hm' => wp_pure.mpr ⟨_, hm'.2⟩
  | calloc n e answer =>
    cases answer with
    | none => exact wp.bind (taCalloc_fails h n e) fun _ m' hm' => wp_pure.mpr ⟨xs, hm'.2⟩
    | some a => exact wp.bind (taCalloc_spec h (hl.2 a rfl)) fun _ m' hm' => wp_pure.mpr ⟨_, hm'.2⟩
  | realloc a size answer =>
    obtain ⟨ys, zs, rfl⟩ := hsplit hl.1
    cases answer with
    | none => exact wp.bind (taRealloc_fails h size) fun _ m' hm' => wp_pure.mpr ⟨_, hm'.2.2.2.2⟩
    | some b =>
      obtain ⟨k, hk⟩ := Option.isSome_iff_exists.mp hl.1
      refine wp.bind (taRealloc_spec h hk (hl.2.2 b rfl)) fun _ m' hm' => wp_pure.mpr ⟨b :: (ys ++ zs), ?_⟩
      simpa [Op.apply, hk] using hm'.2
  | free a =>
    obtain ⟨ys, zs, rfl⟩ := hsplit hl
    exact (taFree_spec h).mono fun _ m' hm' => ⟨_, hm'.2⟩
  | freeNull => exact wp_pure.mpr ⟨xs, h⟩
  | mark a =>
    obtain ⟨k, hk⟩ := Option.isSome_iff_exists.mp hl
    refine (taMark_spec h hk).mono fun _ m' hm' => ⟨xs, ?_⟩
    simpa [Op.apply, hk] using hm'
  | fill a data =>
    obtain ⟨k, hk, hlen⟩ := hl
    refine (fill_spec h hk hlen).mono fun _ m' hm' => ⟨xs, ?_⟩
    simpa [Op.apply, hk] using hm'
  | sweep => exact (taSweep_spec h).mono fun _ m' hm' => ⟨_, hm'.2⟩
  | destroy => exact (taListDestroy_spec h).mono fun _ m' hm' => ⟨_, hm'.2⟩
  | reset => exact (taListReset_spec h).mono fun _ m' hm' => ⟨_, hm'.2⟩

/-- Memory with nothing in it but the head of a context. -/
def headOnly (ll : Addr) (head : Entry Info) : Mem := ⟨fun a => if a = ll then some head else none, [], [], []⟩

/-- The memories and ledgers of a program that makes a context and calls the functions on it, with
    blocks smaller than `limit`. -/
inductive Reach (limit : Nat) (ll : Addr) : Mem → Ledger → Prop
  | init {head : Entry Info} {m : Mem} (hhead : head.rest.data = []) (hll : ll + HEADER ≤ 2 ^ 64)
      (hrun : taListInit ll (headOnly ll head) = some (0, m)) : Reach limit ll m fun _ => none
  | call {m m' : Mem} {g : Ledger} {op : Op} (hr : Reach limit ll m g) (hl : op.Legal limit m.nodes.rest g)
      (hrun : run ll op m = some ((), m')) : Reach limit ll m' (op.apply g)

theorem headOnly_keeps {head : Entry Info} (hhead : head.rest.data = []) (hll : ll + HEADER ≤ 2 ^ 64) :
    Keeps ll (headOnly ll head).nodes.rest (fun _ => none) [] := by
  have hsome : ∀ (c : Nat) i, (headOnly ll head).nodes.rest c = some i → c = ll ∧ i = head.rest := by
    intro c i hc
    by_cases hcl : c = ll
    · subst hcl
      simp [Entries.rest, headOnly] at hc
      exact ⟨rfl, hc.symm⟩
    · simp [Entries.rest, headOnly, hcl] at hc
  refine ⟨fun _ => by simp, fun _ _ hnone => (by cases hnone), fun c hc => ?_, fun c i hc => ?_,
    fun c d i j hc hd hne => ?_⟩
  · obtain ⟨i, hi⟩ := Option.isSome_iff_exists.mp hc
    exact .inl (hsome c i hi).1
  · obtain ⟨rfl, rfl⟩ := hsome c i hc
    rw [hhead]
    exact hll
  · exact absurd ((hsome c i hc).1.trans (hsome d j hd).1.symm) hne

theorem Reach.tracks {limit : Nat} (hr : Reach limit ll m g) : ∃ xs, Tracks ll m g xs := by
  induction hr with
  | @init head m hhead hll hrun =>
    have hpres : ((headOnly ll head).nodes ll).isSome := by simp [headOnly]
    obtain ⟨r, hr, -, -, ht⟩ := taListInit_spec hpres (headOnly_keeps hhead hll) (List.Perm.refl [])
    cases hrun.symm.trans hr
    exact ⟨[], ht⟩
  | call _ hl hrun ih =>
    obtain ⟨xs, ht⟩ := ih
    obtain ⟨r, hr, xs', ht'⟩ := run_spec ht hl
    cases hrun.symm.trans hr
    exact ⟨xs', ht'⟩

/-- No live block is larger than what was asked for. -/
theorem apply_size {limit : Nat} {r : Addr → Option Info} {op : Op} (hl : op.Legal limit r g)
    (hg : ∀ a k, g a = some k → k.size < limit) : ∀ a k, op.apply g a = some k → k.size < limit := by
  have hupd : ∀ {g' : Ledger} {b : Nat} {k' : Option Block}, (∀ a k, g' a = some k → k.size < limit) →
      (∀ k, k' = some k → k.size < limit) → ∀ a k, Function.update g' b k' a = some k → k.size < limit := by
    intro g' b k' hg' hk' a k hk
    by_cases hab : a = b
    · subst hab
      rw [Function.update_self] at hk
      exact hk' k hk
    · rw [Function.update_of_ne hab] at hk
      exact hg' a k hk
  cases op with
  | malloc size answer | calloc n e answer =>
    cases answer with
    | none => exact hg
    | some b =>
      refine hupd hg fun k hk => ?_
      cases hk
      exact hl.1
  | realloc a size answer =>
    cases answer with
    | none => exact hg
    | some b =>
      refine hupd (hupd hg fun k hk => (by cases hk)) fun k hk => ?_
      obtain ⟨k', -, rfl⟩ := Option.map_eq_some_iff.mp hk
      exact hl.2.1
  | free a => exact hupd hg fun k hk => (by cases hk)
  | freeNull => exact hg
  | mark a | fill a data =>
    refine hupd hg fun k hk => ?_
    obtain ⟨k', hk', rfl⟩ := Option.map_eq_some_iff.mp hk
    exact hg a k' hk'
  | sweep =>
    intro a k hk
    exact hg a k (Option.filter_eq_some_iff.mp hk).1
  | destroy | reset =>
    intro a k hk
    cases hk

theorem Reach.size {limit : Nat} (hr : Reach limit ll m g) : ∀ a k, g a = some k → k.size < limit := by
  induction hr with
  | init => exact fun _ _ hk => (by cases hk)
  | call _ hl _ ih => exact apply_size hl ih

/-- With small blocks, the total is what was asked for. -/
theorem Tracks.total (h : Tracks ll m g xs) (hg : ∀ a k, g a = some k → k.size < 2 ^ 32) :
    u64 (xs.map fun a => g.size a % 2 ^ 32).sum = (xs.map g.size).sum := by
  have hmap : xs.map (fun a => g.size a % 2 ^ 32) = xs.map g.size := by
    refine List.map_congr_left fun a ha => Nat.mod_eq_of_lt ?_
    obtain ⟨k, -, hk, -⟩ := h.keeps.find ha
    rw [Ledger.size, hk]
    exact hg a k hk
  rw [hmap]
  refine u64_of_lt ?_
  cases xs with
  | nil => exact Nat.two_pow_pos 64
  | cons a xs =>
    have hsum := h.keeps.sum_le h.nodup
    rw [List.sum_map_add, List.map_const', List.sum_replicate, List.length_cons] at hsum
    have hpos : 0 < HEADER := by decide
    have hheaders : 0 < (xs.length + 1) • HEADER := Nat.mul_pos (Nat.succ_pos _) hpos
    omega

theorem Reach.next {limit : Nat} (hr : Reach limit ll m g) (op : Op) (hl : op.Legal limit m.nodes.rest g) :
    ∃ m', run ll op m = some ((), m') ∧ Reach limit ll m' (op.apply g) := by
  obtain ⟨xs, h⟩ := hr.tracks
  obtain ⟨⟨_, m'⟩, hrun, -⟩ := run_spec h hl
  exact ⟨m', hrun, hr.call hl hrun⟩

/-- A context over a whole run: the calls that may be made are never stuck, whatever the system
    answers; the list is the live blocks, and all others were freed, each once; and what the
    sweep, the destroy, a failed realloc and the total do. -/
theorem ta_runs (hr : Reach (2 ^ 32) ll m g) :
    ∃ xs, Tracks ll m g xs ∧
      (∀ op, op.Legal (2 ^ 32) m.nodes.rest g → ∃ m', run ll op m = some ((), m') ∧ Reach (2 ^ 32) ll m' (op.apply g)) ∧
      wp (taSweep ll) (fun _ m' => m'.frees = m.frees ++ xs.filter g.marked ∧
        Tracks ll m' g.swept (xs.filter fun a => !g.marked a)) m ∧
      wp (taListDestroy ll) (fun _ m' => m'.frees = m.frees ++ xs ∧ Tracks ll m' (fun _ => none) []) m ∧
      wp (taListReset ll) (fun _ m' => m'.frees = m.frees ++ xs ∧ Tracks ll m' (fun _ => none) []) m ∧
      (∀ a size, (g a).isSome → wp (taRealloc ll (dataPtr a) size none)
        (fun p m' => p = 0 ∧ m'.nodes.rest = m.nodes.rest ∧
        m'.mallocs = m.mallocs ∧ m'.frees = m.frees ∧ ∃ ys, ys.Perm xs ∧ Tracks ll m' g ys) m) ∧
      taListTotalMem ll m = some ((xs.map g.size).sum, m) := by
  obtain ⟨xs, h⟩ := hr.tracks
  refine ⟨xs, h, hr.next, taSweep_spec h, taListDestroy_spec h, taListReset_spec h,
    fun a size ha => ?_, ?_⟩
  · obtain ⟨ys, zs, rfl⟩ := List.append_of_mem (h.live ha)
    refine (taRealloc_fails h size).mono fun p m' hm' => ?_
    obtain ⟨hp, hrest, hmallocs, hfrees, ht⟩ := hm'
    exact ⟨hp, hrest, hmallocs, hfrees, _, List.perm_middle.symm, ht⟩
  · obtain ⟨⟨total, m'⟩, hrun, rfl, htotal⟩ := taListTotalMem_spec h
    have hsum : total = (xs.map g.size).sum := Eq.trans htotal (h.total hr.size)
    rw [hrun, hsum]

/-- A context at 1000 with nothing on its list: what lies from 2000 on may be given out. -/
theorem first_context :
    ∃ m, taListInit 1000 (headOnly 1000 ⟨0, 0, .filled HEADER none⟩) = some
      (0, m) ∧ (∀ limit, Reach limit 1000 m fun _ => none) ∧
      ∀ size, 2000 + (HEADER + size) ≤ 2 ^ 64 → Fits m.nodes.rest 2000 (HEADER + size) := by
  obtain ⟨m, hinit⟩ : ∃ m, taListInit 1000 (headOnly 1000 ⟨0, 0, .filled HEADER none⟩) = some (0, m) := ⟨_, rfl⟩
  have hr : ∀ limit, Reach limit 1000 m fun _ => none := fun _ => .init rfl (by decide) hinit
  obtain ⟨xs, ht⟩ := (hr 0).tracks
  refine ⟨m, hinit, hr, fun size hroom => ⟨by decide, hroom, fun b i hb => .inr ?_⟩⟩
  have hb' : b = 1000 := by
    rcases ht.keeps.only b (by rw [hb]; rfl) with hb' | hb'
    · exact hb'
    · simp [ht.keeps.live] at hb'
  obtain ⟨j, hj, hdata⟩ : ∃ j, m.nodes.rest 1000 = some j ∧ j.data = [] := by
    cases hinit
    exact ⟨_, rfl, rfl⟩
  subst hb'
  cases hj.symm.trans hb
  rw [hdata]
  decide

/-- Its first call. -/
theorem first_malloc {limit size : Nat} (hsize : size < limit) (hroom : 2000 + (HEADER + size) ≤ 2 ^ 64) :
    ∃ m m', taListInit 1000 (headOnly 1000 ⟨0, 0, .filled HEADER none⟩) = some (0, m) ∧
      run 1000 (.malloc size (some 2000)) m = some ((), m') ∧
      Reach limit 1000 m' (Function.update (fun _ => none) 2000
        (some ⟨size, false, List.replicate size (some X)⟩)) := by
  obtain ⟨m, hinit, hr, hfits⟩ := first_context
  obtain ⟨xs, ht⟩ := (hr limit).tracks
  have hl : Op.Legal limit m.nodes.rest (fun _ => none) (.malloc size (some 2000)) :=
    ⟨hsize, fun a ha => (by cases ha; exact hfits size hroom)⟩
  obtain ⟨⟨_, m'⟩, hrun, -⟩ := run_spec ht hl
  exact ⟨m, m', hinit, hrun, (hr limit).call hl hrun⟩

theorem Tracks.perm_of_live (h : Tracks ll m g xs) (hys : ys.Nodup) (hlive : ∀ b, b ∈ ys ↔ (g b).isSome) : xs.Perm ys :=
  (List.perm_ext_iff_of_nodup h.nodup hys).mpr fun b => (h.keeps.live b).trans (hlive b).symm

/-- The list of a context with one block. -/
theorem one_block (h : Tracks ll m (Function.update (fun _ => none) a (some k)) xs) : xs = [a] := by
  refine List.perm_singleton.mp (h.perm_of_live (List.nodup_singleton a) fun b => ?_)
  by_cases hb : b = a
  · simp [hb]
  · simp [hb]

/-- Below the head, a place apart from the live blocks may be given out. -/
theorem Tracks.fits (h : Tracks ll m g xs) {size : Nat} (hpos : 0 < a) (hhead : a + (HEADER + size) ≤ ll)
    (hblocks : ∀ b k, g b = some k → a + (HEADER + size) ≤ b ∨ b + (HEADER + k.size) ≤ a) :
    Fits m.nodes.rest a (HEADER + size) := by
  refine ⟨hpos, ?_, fun b i hb => ?_⟩
  · obtain ⟨i, hi⟩ := Option.isSome_iff_exists.mp ((Entries.isSome_rest m.nodes ll).trans h.head)
    have hroom := h.keeps.room ll i hi
    omega
  · rcases h.keeps.only b (by rw [hb]; rfl) with rfl | hmem
    · exact .inl hhead
    · obtain ⟨k, j, hk, hj, hd⟩ := h.keeps.find hmem
      cases hb.symm.trans hj
      rw [hd.data, hd.length, Nat.add_assoc]
      exact hblocks b k hk

theorem Fits.erase {r : Addr → Option Info} {total : Nat} (hf : Fits r a total) :
    Fits (Function.update r b none) a total :=
  ⟨hf.pos, hf.room, fun c i hc => hf.apart c i (update_none_some hc).2⟩

theorem forM_cons_run {op : Op} {ops : List Op} {m'' : Mem} (h : run ll op m = some ((), m'))
    (hs : ops.forM (run ll) m' = some ((), m'')) : (op :: ops).forM (run ll) m = some ((), m'') := by
  show (run ll op >>= fun _ => ops.forM (run ll)) m = _
  rw [bind_apply, h]
  exact hs

/-- Two blocks: the first moves to 4000, the second is marked and swept, and at the end the first
    is freed too. -/
theorem ta_runs_moved :
    ∃ m m₁ m₂, taListInit 9000 (headOnly 9000 ⟨0, 0, .filled HEADER none⟩) = some (0, m) ∧
      [.malloc 4 (some 2000), .calloc 2 8 (some 3000), .realloc 2000 8 (some 4000), .mark 3000].forM (run 9000) m =
        some ((), m₁) ∧
      taListTotalMem 9000 m₁ = some (24, m₁) ∧
      [.sweep, .free 4000].forM (run 9000) m₁ = some ((), m₂) ∧
      taListTotalMem 9000 m₂ = some (0, m₂) ∧ m₂.mallocs.Perm m₂.frees := by
  obtain ⟨m, hinit⟩ : ∃ m, taListInit 9000 (headOnly 9000 ⟨0, 0, .filled HEADER none⟩) = some (0, m) := ⟨_, rfl⟩
  have hr₀ : Reach (2 ^ 32) 9000 m fun _ => none := .init rfl (by decide) hinit
  have apart : ∀ {m g a size}, Reach (2 ^ 32) 9000 m g → 0 < a → a + (HEADER + size) ≤ 9000 →
      (∀ b k, g b = some k → a + (HEADER + size) ≤ b ∨ b + (HEADER + k.size) ≤ a) →
      Fits m.nodes.rest a (HEADER + size) := by
    intro m g a size hr
    obtain ⟨xs, ht⟩ := hr.tracks
    exact ht.fits
  obtain ⟨n₁, run₁, hr₁⟩ := hr₀.next (.malloc 4 (some 2000)) ⟨by decide, fun a ha => by
    cases ha
    exact apart hr₀ (by decide) (by decide) fun b k hk => by cases hk⟩
  obtain ⟨n₂, run₂, hr₂⟩ := hr₁.next (.calloc 2 8 (some 3000)) ⟨by decide, fun a ha => by
    cases ha
    refine apart hr₁ (by decide) (by decide) fun b k hk => ?_
    simp only [Op.apply, Function.update_apply] at hk
    split at hk <;> cases hk
    subst b
    decide⟩
  obtain ⟨n₃, run₃, hr₃⟩ := hr₂.next (.realloc 2000 8 (some 4000)) ⟨by simp [Op.apply], by decide, fun a ha => by
    cases ha
    refine (apart hr₂ (by decide) (by decide) fun b k hk => ?_).erase
    simp only [Op.apply, Function.update_apply] at hk
    split at hk
    · cases hk
      subst b
      decide
    · split at hk <;> cases hk
      subst b
      decide⟩
  obtain ⟨m₁, run₄, hr₄⟩ := hr₃.next (.mark 3000) (by simp [Op.Legal, Op.apply])
  obtain ⟨xs, ht, hcalls, -, -, -, -, htotal⟩ := ta_runs hr₄
  have hlive : xs.Perm [3000, 4000] := by
    refine ht.perm_of_live (by decide) fun b => ?_
    by_cases h3 : b = 3000
    · simp [Op.apply, h3]
    · by_cases h4 : b = 4000
      · simp [Op.apply, h4]
      · by_cases h2 : b = 2000
        · simp [Op.apply, h2]
        · simp [Op.apply, h2, h3, h4]
  rw [(hlive.map _).sum_eq] at htotal
  obtain ⟨n₄, run₅, hr₅⟩ := hcalls .sweep trivial
  obtain ⟨m₂, run₆, hr₆⟩ := hr₅.next (.free 4000) (by simp [Op.Legal, Op.apply, Ledger.swept])
  obtain ⟨ys, ht', -, -, -, -, -, htotal'⟩ := ta_runs hr₆
  have hnone : ys = [] := by
    refine List.perm_nil.mp (ht'.perm_of_live List.nodup_nil fun b => ?_)
    by_cases h4 : b = 4000
    · simp [Op.apply, h4]
    · by_cases h3 : b = 3000
      · simp [Op.apply, Ledger.swept, h3]
      · by_cases h2 : b = 2000
        · simp [Op.apply, Ledger.swept, h2]
        · simp [Op.apply, Ledger.swept, h2, h3, h4]
  subst hnone
  refine ⟨m, m₁, m₂, hinit, ?_, htotal, ?_, htotal', by simpa using ht'.log⟩
  · exact forM_cons_run run₁ (forM_cons_run run₂ (forM_cons_run run₃ (forM_cons_run run₄ rfl)))
  · exact forM_cons_run run₅ (forM_cons_run run₆ rfl)

end KanekFoundations.Ta

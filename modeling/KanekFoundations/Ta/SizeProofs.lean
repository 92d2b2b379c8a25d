/-
  KanekFoundations.Ta.SizeProofs — sizes that do not fit where `ta.c` puts them.

  `ta_malloc` and `ta_realloc` add the header to the size, and `ta_calloc` multiplies, in
  `size_t` and unchecked; the header has 32 bits for the size.

  Proved, for a context in any state:
  - `alloc_sizes_iff`: a call that is answered hands out as many bytes as were asked for
    exactly when size and header together are less than 2^64. Past that the block is
    shorter than the header: the call writes past its end, or hands out no byte at all
    (`taMalloc_short`, `taRealloc_short`).
  - `total_mem_short`: with a live block of 2^32 bytes or more the total is too small.
-/

import KanekFoundations.Ta.TaProofs

namespace KanekFoundations.Ta

open KanekFoundations.Lib KanekFoundations.Links

variable {ll a b : Nat} {m m' : Mem} {g : Ledger} {xs ys zs : List Addr} {k : Block} {size : Nat}
  {answer : Option Addr}

/-- Behind `p` there are `n` bytes for the program. -/
def UserBytes (m : Mem) (p : Addr) (n : Nat) : Prop := ∃ i, m.nodes.rest (containerOf p) = some i ∧ n ≤ i.data.length

/-- And they are zero. -/
def ZeroBytes (m : Mem) (p : Addr) (n : Nat) : Prop :=
  ∃ i, m.nodes.rest (containerOf p) = some i ∧ n ≤ i.data.length ∧ ∀ c ∈ i.data.take n, c = some 0

/-- What `malloc` may answer when it is asked for the header and `size` bytes: nothing, or a
    place for as many bytes as it was asked for. -/
def Answers (r : Addr → Option Info) (size : Nat) (answer : Option Addr) : Prop :=
  ∀ a, answer = some a → Fits r a (u64 (size + HEADER))

/-! ## Requests that wrap -/

/-- Past the largest size, what is left does not hold the header. -/
theorem total_wraps (hsize : size < 2 ^ 64) (hwrap : ¬ size + HEADER < 2 ^ 64) : u64 (size + HEADER) < HEADER := by
  have hheader : HEADER < 2 ^ 64 := by decide
  rw [u64_wrap (Nat.le_of_not_lt hwrap) (by omega)]
  omega

theorem Answers.fits {r : Addr → Option Info} (h : Answers r size (some a)) (hfit : size + HEADER < 2 ^ 64) :
    Fits r a (HEADER + size) := by
  have hf := h a rfl
  rwa [u64_of_lt hfit, Nat.add_comm] at hf

/-- What is linked keeps its bytes. -/
theorem linked_bytes (hr : m.nodes.IsRing ll xs) (ha : a ∉ ll :: xs) {i : Info} (hi : m.nodes.rest a = some i) :
    wp (links (listAdd a ll)) (fun _ m' => m'.nodes.rest a = some i) m := by
  have hpres : (m.nodes a).isSome := by rw [← Entries.isSome_rest, hi]; rfl
  rw [wp_links]
  exact (listAdd_spec hr ha hpres).mono fun _ e' h => (congrFun h.2 a).trans hi

/-- Behind a node whose block ends before its data there is nothing. -/
theorem no_bytes {i : Info} (hi : m.nodes.rest a = some i) (hdata : i.data.length = 0) {n : Nat} :
    UserBytes m (dataPtr a) n → n = 0 := by
  rintro ⟨j, hj, hlen⟩
  rw [containerOf_dataPtr] at hj
  cases hi.symm.trans hj
  omega

/-- `ta_malloc` writes to the first 32 bytes of the block. In one of 32 to 71 bytes it succeeds:
    there is room for what it writes, and for none of the user's bytes. -/
theorem taMalloc_short (h : Tracks ll m g xs) (hf : Fits m.nodes.rest a (u64 (size + HEADER)))
    (hshort : u64 (size + HEADER) < HEADER) (hroom : D_STR + dashes.length ≤ u64 (size + HEADER)) :
    wp (taMalloc ll size (some a)) (fun p m' => p = dataPtr a ∧ ∀ n, UserBytes m' p n → n = 0) m := by
  have hout := h.outside (hf.absent (Nat.lt_of_lt_of_le (by decide) hroom))
  unfold taMalloc
  rw [wp_bind, wp_malloc]
  dsimp only
  rw [wp_bind, wp_fillNode (by simp [Entries.put_self]) hroom, wp_bind]
  refine (linked_bytes (i := .fresh (u64 (size + HEADER)) size) ?_ hout ?_).mono fun _ m' hm' =>
    wp_pure.mpr ⟨rfl, fun n => ?_⟩
  · show Ring _ _ ll xs
    rw [Entries.withRest_next, Entries.withRest_prev]
    exact ring_put h.ring hout _
  · rw [Entries.withRest_rest (by simp [Entries.put_self]), Function.update_self]
  · refine no_bytes hm' ?_
    simp only [Info.fresh, Info.filled, List.length_replicate]
    omega

/-- In a smaller one it writes past the end. -/
theorem taMalloc_overflows (hroom : u64 (size + HEADER) < D_STR + dashes.length) {Q : Addr → Mem → Prop} :
    ¬ wp (taMalloc ll size (some a)) Q m := by
  unfold taMalloc
  rw [wp_bind, wp_malloc]
  dsimp only
  rw [wp_bind]
  exact fillNode_stuck (by simp [Entries.put_self]) hroom size

theorem unlink_run (h : Tracks ll m g (ys ++ a :: zs)) :
    ∃ e' : Entries Info, links (listDel a) m = some ((), { m with nodes := e' }) ∧ e'.IsRing ll (ys ++ zs) ∧
      e'.rest = m.nodes.rest ∧ ∃ e, e' a = some e := by
  obtain ⟨⟨_, m'⟩, hrun, e', hm', hring, hrest, hpres⟩ := unlink_tracks h (Q := fun _ m' => ∃ e' : Entries Info,
    m' = { m with nodes := e' } ∧ e'.IsRing ll (ys ++ zs) ∧ e'.rest = m.nodes.rest ∧ ∃ e, e' a = some e)
    fun e' hring hrest hpres => ⟨e', rfl, hring, hrest, Option.isSome_iff_exists.mp hpres⟩
  exact ⟨e', hm' ▸ hrun, hring, hrest, hpres⟩

/-- `ta_realloc` writes to the first 24 bytes. -/
theorem taRealloc_short (h : Tracks ll m g (ys ++ a :: zs))
    (hf : Fits (Function.update m.nodes.rest a none) b (u64 (size + HEADER)))
    (hshort : u64 (size + HEADER) < HEADER) (hroom : D_STR ≤ u64 (size + HEADER)) :
    wp (taRealloc ll (dataPtr a) size (some b)) (fun p m' => p = dataPtr b ∧ ∀ n, UserBytes m' p n → n = 0) m := by
  have hmem : a ∈ ys ++ a :: zs := List.mem_append_right _ (List.mem_cons_self ..)
  obtain ⟨e', hdel, hring, hrest, e, he⟩ := unlink_run h
  have hmark : MARK ≤ u64 (size + HEADER) := le_trans (by decide) hroom
  have hout : b ∉ ll :: (ys ++ zs) := by
    intro hb
    have hgone : Function.update m.nodes.rest a none b = none := hf.absent (Nat.lt_of_lt_of_le (by decide) hroom)
    by_cases hba : b = a
    · exact h.off (hba ▸ hb)
    · rw [Function.update_of_ne hba] at hgone
      refine h.outside hgone ?_
      rcases List.mem_cons.mp hb with rfl | hb
      · exact List.mem_cons_self ..
      · refine List.mem_cons_of_mem _ (List.mem_append.mpr ((List.mem_append.mp hb).imp_right (List.mem_cons_of_mem a)))
  unfold taRealloc
  rw [containerOf_dataPtr, wp_bind, wp_run hdel, wp_bind,
    wp_realloc (m := { m with nodes := e' }) he (h.given hmem)]
  dsimp only
  rw [wp_bind, wp_store (i := e.rest.resized (u64 (size + HEADER))) (by simp [Entries.rest, Entries.put_self]) hmark,
    wp_bind, wp_store (i := { e.rest.resized (u64 (size + HEADER)) with size := size % 2 ^ 32 })
      (by rw [Entries.withRest_rest (by simp [Entries.put_self]), Function.update_self]) hroom,
    Entries.withRest_withRest, wp_bind]
  refine (linked_bytes (i := { e.rest.resized (u64 (size + HEADER)) with size := size % 2 ^ 32, mark := 0 })
    ?_ hout ?_).mono fun _ m' hm' => wp_pure.mpr ⟨rfl, fun n => no_bytes hm' ?_⟩
  · show Ring _ _ ll (ys ++ zs)
    rw [Entries.withRest_next, Entries.withRest_prev]
    exact ring_put (ring_put hring h.off none) hout _
  · rw [Entries.withRest_rest (by simp [Entries.put_self]), Function.update_self]
  · simp only [Info.resized, resize_length]
    omega

theorem taRealloc_overflows (h : Tracks ll m g (ys ++ a :: zs)) (hroom : u64 (size + HEADER) < D_STR)
    {Q : Addr → Mem → Prop} : ¬ wp (taRealloc ll (dataPtr a) size (some b)) Q m := by
  have hmem : a ∈ ys ++ a :: zs := List.mem_append_right _ (List.mem_cons_self ..)
  obtain ⟨e', hdel, -, -, e, he⟩ := unlink_run h
  unfold taRealloc
  rw [containerOf_dataPtr, wp_bind, wp_run hdel, wp_bind,
    wp_realloc (m := { m with nodes := e' }) he (h.given hmem)]
  dsimp only
  rw [wp_bind]
  by_cases hmark : u64 (size + HEADER) < MARK
  · exact not_wp (store_stuck (i := e.rest.resized (u64 (size + HEADER)))
      (by simp [Entries.rest, Entries.put_self]) hmark _)
  rw [wp_store (i := e.rest.resized (u64 (size + HEADER))) (by simp [Entries.rest, Entries.put_self])
    (Nat.le_of_not_lt hmark), wp_bind]
  exact not_wp (store_stuck (i := { e.rest.resized (u64 (size + HEADER)) with size := size % 2 ^ 32 })
    (by rw [Entries.withRest_rest (by simp [Entries.put_self]), Function.update_self]) hroom _)

/-- `memset` needs the bytes that it fills. -/
theorem memset_bytes {p : Addr} {c : Byte} {n : Nat} {Q : Unit → Mem → Prop} (h : wp (memset p c n) Q m) :
    UserBytes m p n := by
  obtain ⟨⟨i, m'⟩, hget, hset⟩ := wp_bind.mp h
  obtain ⟨j, hj, heq⟩ := Option.map_eq_some_iff.mp hget
  cases heq
  by_cases hlen : i.data.length < n
  · rw [if_pos hlen] at hset
    exact absurd hset (not_wp rfl)
  · exact ⟨i, hj, Nat.le_of_not_lt hlen⟩

/-- Nothing of what was asked for is there. -/
theorem not_answered {x : M Addr} {p : Addr} {n : Nat} (hp : p ≠ 0) (hn : 0 < n)
    (h : wp x (fun p' m' => p' = p ∧ ∀ n, UserBytes m' p' n → n = 0) m) :
    ¬ wp x (fun p' m' => p' = 0 ∨ UserBytes m' p' n) m := by
  intro hruns
  obtain ⟨⟨p', m'⟩, -, hclaim, hp', hnone⟩ := hruns.and h.liberal
  rcases hclaim with hzero | hbytes
  · exact hp (hp'.symm.trans hzero)
  · exact absurd (hnone n hbytes) (Nat.pos_iff_ne_zero.mp hn)

/-! ## The entry points -/

theorem Tracks.bytes (h : Tracks ll m g xs) (ha : g a = some k) :
    ∃ i, m.nodes.rest (containerOf (dataPtr a)) = some i ∧ i.data = k.data ∧ k.data.length = k.size := by
  obtain ⟨i, hi, hd⟩ := h.keeps.block a k ha
  exact ⟨i, by rw [containerOf_dataPtr]; exact hi, hd.data, hd.length⟩

theorem Tracks.user_bytes (h : Tracks ll m g xs) (ha : g a = some k) : UserBytes m (dataPtr a) k.size := by
  obtain ⟨i, hi, hdata, hlen⟩ := h.bytes ha
  exact ⟨i, hi, by rw [hdata, hlen]⟩

theorem taMalloc_bytes_iff (h : Tracks ll m g xs) (hsize : size < 2 ^ 64) (hans : Answers m.nodes.rest size answer) :
    wp (taMalloc ll size answer) (fun p m' => p = 0 ∨ UserBytes m' p size) m ↔
      answer = none ∨ size + HEADER < 2 ^ 64 := by
  cases answer with
  | none => exact iff_of_true ((taMalloc_fails h size).mono fun p m' hm' => .inl hm'.1) (.inl rfl)
  | some a =>
    by_cases hfit : size + HEADER < 2 ^ 64
    · refine iff_of_true ((taMalloc_spec h (hans.fits hfit)).mono fun p m' hm' => .inr ?_) (.inr hfit)
      obtain ⟨rfl, ht⟩ := hm'
      exact ht.user_bytes (Function.update_self ..)
    · have hpos : 0 < size := by
        have hheader : HEADER < 2 ^ 64 := by decide
        omega
      refine iff_of_false ?_ (not_or.mpr ⟨Option.some_ne_none a, hfit⟩)
      by_cases hroom : D_STR + dashes.length ≤ u64 (size + HEADER)
      · exact not_answered (dataPtr_ne a) hpos (taMalloc_short h (hans a rfl) (total_wraps hsize hfit) hroom)
      · exact taMalloc_overflows (Nat.lt_of_not_le hroom)

theorem taRealloc_bytes_iff (h : Tracks ll m g xs) (ha : (g a).isSome) (hsize : size < 2 ^ 64)
    (hans : Answers (Function.update m.nodes.rest a none) size answer) :
    wp (taRealloc ll (dataPtr a) size answer) (fun p m' => p = 0 ∨ UserBytes m' p size) m ↔
      answer = none ∨ size + HEADER < 2 ^ 64 := by
  obtain ⟨ys, zs, rfl⟩ := List.append_of_mem (h.live ha)
  obtain ⟨k, hk⟩ := Option.isSome_iff_exists.mp ha
  cases answer with
  | none => exact iff_of_true ((taRealloc_fails h size).mono fun p m' hm' => .inl hm'.1) (.inl rfl)
  | some b =>
    by_cases hfit : size + HEADER < 2 ^ 64
    · refine iff_of_true ((taRealloc_spec h hk (hans.fits hfit)).mono fun p m' hm' => .inr ?_) (.inr hfit)
      obtain ⟨rfl, ht⟩ := hm'
      exact ht.user_bytes (Function.update_self ..)
    · have hpos : 0 < size := by
        have hheader : HEADER < 2 ^ 64 := by decide
        omega
      refine iff_of_false ?_ (not_or.mpr ⟨Option.some_ne_none b, hfit⟩)
      by_cases hroom : D_STR ≤ u64 (size + HEADER)
      · exact not_answered (dataPtr_ne b) hpos (taRealloc_short h (hans b rfl) (total_wraps hsize hfit) hroom)
      · exact taRealloc_overflows h (Nat.lt_of_not_le hroom)

theorem taCalloc_bytes_iff (h : Tracks ll m g xs) (n e : Nat) (hans : Answers m.nodes.rest (u64 (n * e)) answer) :
    wp (taCalloc ll n e answer) (fun p m' => p = 0 ∨ ZeroBytes m' p (n * e)) m ↔
      answer = none ∨ n * e + HEADER < 2 ^ 64 := by
  have hu64 : u64 (n * e) < 2 ^ 64 := Nat.mod_lt _ (Nat.two_pow_pos 64)
  cases answer with
  | none => exact iff_of_true ((taCalloc_fails h n e).mono fun p m' hm' => .inl hm'.1) (.inl rfl)
  | some a =>
    by_cases hfit : u64 (n * e) + HEADER < 2 ^ 64
    · have hspec := taCalloc_spec h (hans.fits hfit)
      by_cases hmul : n * e < 2 ^ 64
      · rw [u64_of_lt hmul] at hfit hspec
        refine iff_of_true (hspec.mono fun p m' hm' => .inr ?_) (.inr hfit)
        obtain ⟨rfl, ht⟩ := hm'
        obtain ⟨i, hi, hdata, -⟩ := ht.bytes (Function.update_self ..)
        refine ⟨i, hi, by simp [hdata], fun c hc => ?_⟩
        rw [hdata] at hc
        exact List.eq_of_mem_replicate (List.mem_of_mem_take hc)
      · -- The block is there, with the bytes of the product that wrapped.
        refine iff_of_false (fun hruns => ?_) (not_or.mpr ⟨Option.some_ne_none a, by omega⟩)
        obtain ⟨⟨p, m'⟩, -, hclaim, rfl, ht⟩ := hruns.and hspec.liberal
        obtain ⟨i, hi, hdata, -⟩ := ht.bytes (Function.update_self ..)
        rcases hclaim with hzero | ⟨j, hj, hlen, -⟩
        · exact dataPtr_ne a hzero
        · cases hi.symm.trans hj
          rw [hdata, List.length_replicate] at hlen
          omega
    · have hle : u64 (n * e) ≤ n * e := Nat.mod_le _ _
      refine iff_of_false (fun hruns => ?_) (not_or.mpr ⟨Option.some_ne_none a, by omega⟩)
      -- Either `ta_malloc` writes past the end, or the `memset` of `ta_calloc` does.
      have hinner := wp_bind.mp hruns
      by_cases hroom : D_STR + dashes.length ≤ u64 (u64 (n * e) + HEADER)
      · obtain ⟨⟨p, m'⟩, -, hmemset, rfl, hnone⟩ :=
          hinner.and (taMalloc_short h (hans a rfl) (total_wraps hu64 hfit) hroom).liberal
        rw [if_pos (dataPtr_ne a), wp_bind] at hmemset
        have hzero := hnone _ (memset_bytes hmemset)
        have hheader : HEADER < 2 ^ 64 := by decide
        omega
      · exact taMalloc_overflows (Nat.lt_of_not_le hroom) hinner

/-- A call that is answered hands out the bytes it was asked for, and `ta_calloc` zeros, exactly
    when the size, the product taken as it is, and the header together are less than 2^64. -/
theorem alloc_sizes_iff (h : Tracks ll m g xs) :
    (∀ size answer, size < 2 ^ 64 → Answers m.nodes.rest size answer →
      (wp (taMalloc ll size answer) (fun p m' => p = 0 ∨ UserBytes m' p size) m ↔
        answer = none ∨ size + HEADER < 2 ^ 64)) ∧
    (∀ a size answer, (g a).isSome → size < 2 ^ 64 → Answers (Function.update m.nodes.rest a none) size answer →
      (wp (taRealloc ll (dataPtr a) size answer) (fun p m' => p = 0 ∨ UserBytes m' p size) m ↔
        answer = none ∨ size + HEADER < 2 ^ 64)) ∧
    ∀ n e answer, Answers m.nodes.rest (u64 (n * e)) answer →
      (wp (taCalloc ll n e answer) (fun p m' => p = 0 ∨ ZeroBytes m' p (n * e)) m ↔
        answer = none ∨ n * e + HEADER < 2 ^ 64) :=
  ⟨fun _ _ => taMalloc_bytes_iff h, fun _ _ _ => taRealloc_bytes_iff h, fun n e _ => taCalloc_bytes_iff h n e⟩

/-- Eight bytes are handed out; 2^64 bytes, asked for as 2^32 times 2^32, are not. -/
theorem alloc_sizes_iff_calloc :
    ∃ m, taListInit 1000 (headOnly 1000 ⟨0, 0, .filled HEADER none⟩) = some (0, m) ∧
      wp (taCalloc 1000 2 4 (some 2000)) (fun p m' => p = 0 ∨ ZeroBytes m' p (2 * 4)) m ∧
      ¬ wp (taCalloc 1000 (2 ^ 32) (2 ^ 32) (some 2000)) (fun p m' => p = 0 ∨ ZeroBytes m' p (2 ^ 32 * 2 ^ 32)) m := by
  obtain ⟨m, hinit, hr, hfits⟩ := first_context
  obtain ⟨xs, ht⟩ := (hr 0).tracks
  have hans : ∀ size, size < 2 ^ 63 → Answers m.nodes.rest size (some 2000) := by
    intro size hsize a ha
    cases ha
    have hheader : HEADER = 72 := rfl
    rw [u64_of_lt (by omega), Nat.add_comm]
    exact hfits size (by omega)
  have hiff := (alloc_sizes_iff ht).2.2
  refine ⟨m, hinit, (hiff 2 4 (some 2000) (hans _ (by decide))).mpr (.inr (by decide)), fun hruns => ?_⟩
  rcases (hiff (2 ^ 32) (2 ^ 32) (some 2000) (hans _ (by decide))).mp hruns with hnone | hlt
  · cases hnone
  · exact absurd hlt (by decide)

/-- The product of 2^32 and 2^32 is 0, and SIZE_MAX bytes with a header are 71: both are handed
    out without a byte. -/
theorem calloc_hands_out_nothing :
    ∃ m, taListInit 1000 (headOnly 1000 ⟨0, 0, .filled HEADER none⟩) = some (0, m) ∧
      (Answers m.nodes.rest (u64 (2 ^ 32 * 2 ^ 32)) (some 2000) ∧
        wp (taCalloc 1000 (2 ^ 32) (2 ^ 32) (some 2000)) (fun p m' => p ≠ 0 ∧ ¬ UserBytes m' p 1) m) ∧
      Answers m.nodes.rest (2 ^ 64 - 1) (some 2000) ∧
        wp (taMalloc 1000 (2 ^ 64 - 1) (some 2000)) (fun p m' => p ≠ 0 ∧ ¬ UserBytes m' p 1) m := by
  obtain ⟨m, hinit, hr, hfits⟩ := first_context
  obtain ⟨xs, ht⟩ := (hr 0).tracks
  have hzero : u64 (2 ^ 32 * 2 ^ 32) = 0 := by decide
  have hfit : Fits m.nodes.rest 2000 (HEADER + u64 (2 ^ 32 * 2 ^ 32)) := hzero ▸ hfits 0 (by decide)
  have hshort : Fits m.nodes.rest 2000 (u64 (2 ^ 64 - 1 + HEADER)) := by
    have h := hfits 0 (by decide)
    have hle : u64 (2 ^ 64 - 1 + HEADER) ≤ HEADER + 0 := by decide
    exact ⟨h.pos, (Nat.add_le_add_left hle 2000).trans h.room, fun b i hb =>
      (h.apart b i hb).imp_left (Nat.add_le_add_left hle 2000).trans⟩
  refine ⟨m, hinit, ⟨fun a ha => ?_, (taCalloc_spec ht hfit).mono fun p m' hm' => ?_⟩, fun a ha => ?_,
    (taMalloc_short ht hshort (by decide) (by decide)).mono fun p m' hm' => ?_⟩
  · cases ha
    rw [hzero]
    exact hfits 0 (by decide)
  · obtain ⟨rfl, ht'⟩ := hm'
    refine ⟨dataPtr_ne 2000, fun hbytes => ?_⟩
    obtain ⟨i, hi, hdata, -⟩ := ht'.bytes (Function.update_self ..)
    obtain ⟨j, hj, hlen⟩ := hbytes
    cases hi.symm.trans hj
    rw [hdata, hzero] at hlen
    exact absurd hlen (by decide)
  · cases ha
    exact hshort
  · obtain ⟨rfl, hnone⟩ := hm'
    exact ⟨dataPtr_ne 2000, fun hbytes => absurd (hnone 1 hbytes) (by decide)⟩

/-! ## The total -/

/-- A block of 2^32 bytes or more is counted with fewer: the total misses some of it. -/
theorem total_mem_short {limit : Nat} (hr : Reach limit ll m g) (hbig : ∃ a k, g a = some k ∧ 2 ^ 32 ≤ k.size) :
    ∃ xs total, Tracks ll m g xs ∧ taListTotalMem ll m = some (total, m) ∧ total < (xs.map g.size).sum := by
  obtain ⟨xs, h⟩ := hr.tracks
  obtain ⟨a, k, hk, hlarge⟩ := hbig
  obtain ⟨⟨total, m'⟩, hrun, rfl, htotal⟩ := taListTotalMem_spec h
  have hsize : g.size a = k.size := by rw [Ledger.size, hk]; rfl
  have hcut : (xs.map fun a => g.size a % 2 ^ 32).sum < (xs.map g.size).sum := by
    refine List.sum_lt_sum _ _ (fun b _ => Nat.mod_le _ _) ⟨a, h.live (by rw [hk]; rfl), ?_⟩
    have hmod : k.size % 2 ^ 32 < 2 ^ 32 := Nat.mod_lt _ (Nat.two_pow_pos 32)
    rw [hsize]
    omega
  have hle : total ≤ (xs.map fun a => g.size a % 2 ^ 32).sum := htotal.trans_le (Nat.mod_le _ _)
  exact ⟨xs, total, h, hrun, hle.trans_lt hcut⟩

theorem one_block_size (a : Addr) (k : Block) :
    Ledger.size (Function.update (fun _ => none) a (some k)) a = k.size := by
  rw [Ledger.size, Function.update_self]
  rfl

/-- A block of 2^32 bytes. -/
theorem total_mem_short_malloc :
    ∃ m m' total, taListInit 1000 (headOnly 1000 ⟨0, 0, .filled HEADER none⟩) = some (0, m) ∧
      run 1000 (.malloc (2 ^ 32) (some 2000)) m = some ((), m') ∧ taListTotalMem 1000 m' = some
        (total, m') ∧ total < 2 ^ 32 := by
  obtain ⟨m, m', hinit, hrun, hr⟩ := first_malloc (show 2 ^ 32 < 2 ^ 64 by decide) (by decide)
  obtain ⟨xs, total, ht, htotal, hlt⟩ := total_mem_short hr ⟨2000, _, Function.update_self .., Nat.le_refl _⟩
  obtain rfl := one_block ht
  rw [List.map_singleton, List.sum_singleton, one_block_size] at hlt
  exact ⟨m, m', total, hinit, hrun, htotal, hlt⟩

/-- It is the only live block, and the total is 0. -/
theorem total_mem_zero :
    ∃ m m', taListInit 1000 (headOnly 1000 ⟨0, 0, .filled HEADER none⟩) = some (0, m) ∧
      run 1000 (.malloc (2 ^ 32) (some 2000)) m = some ((), m') ∧
      Tracks 1000 m' (Function.update (fun _ => none) 2000 (some ⟨2 ^ 32, false, List.replicate (2 ^ 32) (some X)⟩))
        [2000] ∧
      taListTotalMem 1000 m' = some (0, m') := by
  obtain ⟨m, m', hinit, hrun, hr⟩ := first_malloc (show 2 ^ 32 < 2 ^ 64 by decide) (by decide)
  obtain ⟨xs, ht⟩ := hr.tracks
  obtain rfl := one_block ht
  obtain ⟨⟨total, m''⟩, hrun', rfl, htotal⟩ := taListTotalMem_spec ht
  dsimp only at htotal
  rw [List.map_singleton, List.sum_singleton, one_block_size] at htotal
  have hzero : total = 0 := htotal
  exact ⟨m, m'', hinit, hrun, ht, hzero ▸ hrun'⟩

end KanekFoundations.Ta

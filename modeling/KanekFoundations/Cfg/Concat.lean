/-
  KanekFoundations.Cfg.Concat — the buffer of a concatenation.

  The buffer is a block outside the values; it holds the text so far, and its capacity has
  room for the terminator. Growing it moves it; an operand is copied to its end.

  Proved, under any outcome of the allocations:
  - `append_spec`: a round of the loop copies within the buffer, and leaves the text of the
    operand at its end;
  - `start_spec`: so does the start with the first operand.
-/

import KanekFoundations.Cfg.Graph
import KanekFoundations.Cfg.Parser

namespace KanekFoundations.Cfg

open KanekFoundations.Lib

variable {F : Type} {α : Type} {sys : Sys F} {g g' g₀ : SubHeap (Block F)} {m m' m₀ : Mem F}

/-! ## Capacities -/

theorem doubleCap_of_le {need cap : Nat} (n : Nat) (h : need ≤ cap) : doubleCap need n cap = cap := by
  cases n with
  | zero => rfl
  | succ n => exact if_neg (Nat.not_lt_of_le h)

theorem doubleCap_ge {need : Nat} (n cap : Nat) (h : need ≤ cap * 2 ^ n) : need ≤ doubleCap need n cap := by
  induction n generalizing cap with
  | zero => simpa [doubleCap] using h
  | succ n ih =>
    unfold doubleCap
    split
    · refine ih (cap * 2) ?_
      rw [Nat.pow_succ, Nat.mul_comm (2 ^ n) 2, ← Nat.mul_assoc] at h
      exact h
    · omega

/-- The doubling ends with room. -/
theorem doubleCap_room {need cap : Nat} (hcap : 0 < cap) : need ≤ doubleCap need need cap := by
  refine doubleCap_ge need cap (Nat.le_trans (Nat.le_of_lt Nat.lt_two_pow_self) ?_)
  exact Nat.le_mul_of_pos_left _ hcap

/-! ## The buffer -/

/-- `buf` is new since `base`, outside the values, and holds `text`. -/
structure Holds (g : SubHeap (Block F)) (m : Mem F) (base : Nat) (buf : Addr) (cap : Nat)
    (text : List Byte) : Prop where
  new : base ≤ buf
  out : g buf = none
  get : m.heap.get buf = some (.chars cap text)
  room : text.length + 1 ≤ cap

theorem Holds.extend {base buf cap : Nat} {text : List Byte} (h : Holds g m base buf cap text)
    (hext : Extends g m g' m') :
    Holds g' m' base buf cap text := by
  have hlt := Heap.get_lt h.get
  refine ⟨h.new, ?_, ?_, h.room⟩
  · rw [hext.grows.part buf hlt, h.out]
  · rw [hext.grows.heap buf hlt, h.get]

/-- A block moves to a new one with `b'` in it, unless there is no memory for it. -/
theorem taRealloc_spec (hext : Extends g₀ m₀ g m) {a : Addr} {b b' : Block F} (ha : m.heap.get a = some b)
    (hnew : m₀.heap.length ≤ a) (hout : g a = none) :
    wp (taRealloc sys a b') (fun r m' => Extends g₀ m₀ g m' ∧
      (∀ c < m.heap.length, c ≠ a → m'.heap.get c = m.heap.get c) ∧
      ((¬ sys.NoFail ∧ r = none ∧ m'.heap = m.heap) ∨
        ∃ a', r = some a' ∧ m.heap.length ≤ a' ∧ g a' = none ∧ m'.heap.get a' = some b')) m := by
  refine wp_realloc_at ha (fun hfail => ?_) fun _ => ?_
  · have hno : ¬ sys.NoFail := fun hno => Bool.false_ne_true (hfail.symm.trans (hno _))
    exact ⟨hext.failed, fun _ _ _ => rfl, .inl ⟨hno, rfl, rfl⟩⟩
  · exact ⟨(hext.allocd b').put hnew hout none, fun c hc hne => moved_other hc hne,
      .inr ⟨_, rfl, Nat.le_refl _, hext.fresh, moved_new ha⟩⟩

theorem wp_textOf {Q : List Byte → Mem F → Prop} {s : Option Addr} {text : List Byte}
    (h : ∀ c, s = some c → ∃ cap, m.heap.get c = some (.chars cap text)) :
    wp (textOf s) Q m ↔ Q (s.elim [] fun _ => text) m := by
  cases s with
  | none => exact wp_pure
  | some c =>
    obtain ⟨cap, hget⟩ := h c rfl
    exact wp_cstr hget

/-- The string of an operand is freed. -/
theorem taFree_spec (hext : Extends g₀ m₀ g m) {s : Option Addr}
    (h : ∀ c, s = some c → m₀.heap.length ≤ c ∧ g c = none ∧ ∃ b, m.heap.get c = some b) :
    wp (taFree s) (fun _ m' => Extends g₀ m₀ g m' ∧ ∀ c, s ≠ some c → m'.heap.get c = m.heap.get c) m := by
  cases s with
  | none => exact wp_pure.mpr ⟨hext, fun _ _ => rfl⟩
  | some c =>
    obtain ⟨hnew, hout, b, hget⟩ := h c rfl
    refine (wp_free hget).mpr ⟨hext.put hnew hout none, fun c' hc' => ?_⟩
    exact Heap.get_put_of_ne _ fun h => hc' (h ▸ rfl)

/-- The string of an operand, if there is memory for it: a block of its own, outside the values. -/
theorem operand_spec (hext : Extends g₀ m₀ g m) {v : Option Addr} (hv : ∀ a, v = some a → IsVar g a)
    {K : Option Addr → List Byte → M F α} {Q : α → Mem F → Prop}
    (hcont : ∀ rs t m', Extends g m g m' → (sys.NoFail → t = valText sys g v) → (rs = none → t = []) →
      (∀ c, rs = some c → m.heap.length ≤ c ∧ m₀.heap.length ≤ c ∧ g c = none ∧ ∃ b, m'.heap.get c = some b) →
      wp (K rs t) Q m') :
    wp (do
      let rs ← varToStr sys v
      let t ← textOf rs
      K rs t) Q m := by
  refine wp.bind (varToStr_spec hext.grows.within hext.closed hv) fun rs m' hpost => ?_
  obtain ⟨hext', hok, hrs⟩ := hpost
  refine wp_bind.mpr ((wp_textOf fun c hc => (hrs c hc).2).mpr (hcont _ _ m' hext' ?_ ?_ ?_))
  · intro hyes
    cases rs with
    | none => exact absurd rfl (hok hyes)
    | some _ => rfl
  · intro hnone
    rw [hnone]
    rfl
  · intro c hc
    obtain ⟨hge, cap, hget⟩ := hrs c hc
    exact ⟨hge, Nat.le_trans hext.size hge, hext.grows.within.fresh hge, _, hget⟩

/-- The copy of an operand to the end of the buffer, and the release of its string. -/
theorem copy_spec (hext : Extends g₀ m₀ g m) {buf cap : Nat} {text t : List Byte} {rs : Option Addr}
    (hbuf : Holds g m m₀.heap.length buf cap text) (hroom : text.length + t.length + 1 ≤ cap) (ht : rs = none → t = [])
    (hrs : ∀ c, rs = some c → m₀.heap.length ≤ c ∧ g c = none ∧ ∃ b, m.heap.get c = some b) (hne : rs ≠ some buf)
    {K : M F α} {Q : α → Mem F → Prop}
    (hcont : ∀ m', Extends g₀ m₀ g m' → Holds g m' m₀.heap.length buf cap (text ++ t) → wp K Q m') :
    wp (do
      match rs with
      | some _ => memcpy buf text.length t
      | none => pure ()
      taFree rs
      K) Q m := by
  cases rs with
  | none =>
    refine wp_bind.mpr (wp_pure.mpr (hcont m hext ?_))
    rw [ht rfl, List.append_nil]
    exact hbuf
  | some c =>
    obtain ⟨hnew, hout, b, hget⟩ := hrs c rfl
    have hcb : c ≠ buf := fun h => hne (h ▸ rfl)
    show wp (memcpy buf text.length t >>= fun _ => taFree (some c) >>= fun _ => K) Q m
    refine wp_bind.mpr ((wp_memcpy_chars hbuf.get hroom).mpr ?_)
    have hget' : (m.put buf (some (.chars cap (text ++ t)))).heap.get c = some b := (Mem.get_put_of_ne _ hcb).trans hget
    refine wp_bind.mpr ((wp_free hget').mpr (hcont _ ((hext.put hbuf.new hbuf.out _).put hnew hout none) ?_))
    refine ⟨hbuf.new, hbuf.out, ?_, by rw [List.length_append]; exact hroom⟩
    rw [Mem.get_put_of_ne _ hcb.symm, Mem.get_put_self _ hbuf.get]

/-- A round of the loop, from the value of the operand on: it ends with `f` of the buffer when there
    is no memory for a larger one, and otherwise goes on with `K`. -/
theorem append_spec {β : Type} {f : Addr × Lex → β} (hext : Extends g₀ m₀ g m) {buf cap : Nat} {text : List Byte}
    (hbuf : Holds g m m₀.heap.length buf cap text) {rhs : Option Addr} (hrhs : ∀ v, rhs = some v → IsVar g v) {l : Lex}
    {K : Addr → Nat → Nat → M F β} {Q : β → Mem F → Prop}
    (hfail : ∀ args m', ¬ sys.NoFail → Extends g₀ m₀ g m' → Holds g m' m₀.heap.length buf cap text →
      Q (f (buf, l.report "ta_realloc failed for %zu bytes" args)) m')
    (hcont : ∀ buf' cap' t m', (sys.NoFail → t = valText sys g rhs) → Extends g₀ m₀ g m' →
      Holds g m' m₀.heap.length buf' cap' (text ++ t) → wp (K buf' (text.length + t.length) cap') Q m') :
    wp (do
      let rs ← varToStr sys rhs
      let t ← textOf rs
      let need := text.length + t.length + 1
      let newCap := doubleCap need need cap
      let newbuf ← if cap < need then reallocBuf sys buf newCap else pure (some buf)
      match newbuf with
      | none => do
        taFree rs
        pure (f (buf, l.report "ta_realloc failed for %zu bytes" [decimalNat newCap]))
      | some buf => do
        match rs with
        | some _ => memcpy buf text.length t
        | none => pure ()
        taFree rs
        K buf (text.length + t.length) newCap) Q m := by
  have hlt := Heap.get_lt hbuf.get
  have hcap : 0 < cap := Nat.zero_lt_of_lt hbuf.room
  refine operand_spec hext hrhs fun rs t m₁ hext₁ htext hnone hrs => ?_
  have hbuf₁ := hbuf.extend hext₁
  have hne : rs ≠ some buf := fun h => absurd (hrs buf h).1 (Nat.not_le_of_lt hlt)
  dsimp only
  generalize hneed : text.length + t.length + 1 = need
  by_cases hgrow : cap < need
  · rw [if_pos hgrow]
    refine wp_bind.mpr ?_
    unfold reallocBuf
    rw [wp_bind, wp_load hbuf₁.get]
    refine (taRealloc_spec (hext.trans hext₁) hbuf₁.get hbuf₁.new hbuf₁.out).mono fun newbuf m₂ hpost => ?_
    obtain ⟨hext₂, hframe, ⟨hno, rfl, hheap⟩ | ⟨buf', rfl, hnew', hout', hget'⟩⟩ := hpost
    · refine wp.bind (taFree_spec hext₂ fun c hc => ?_) fun _ m₃ hfree => ?_
      · rw [hheap]
        exact (hrs c hc).2
      · obtain ⟨hext₃, hkeep⟩ := hfree
        refine wp_pure.mpr (hfail _ _ hno hext₃ ⟨hbuf.new, hbuf.out, ?_, hbuf.room⟩)
        rw [hkeep buf hne, hheap]
        exact hbuf₁.get
    · have hlen : need ≤ doubleCap need need cap := doubleCap_room hcap
      have hstr : ∀ c, rs = some c → m₀.heap.length ≤ c ∧ g c = none ∧ ∃ b, m₂.heap.get c = some b := by
        intro c hc
        obtain ⟨-, hnew, hout, b, hget⟩ := hrs c hc
        exact ⟨hnew, hout, b, (hframe c (Heap.get_lt hget) fun h => hne (h ▸ hc)).trans hget⟩
      have hne' : rs ≠ some buf' := by
        intro h
        obtain ⟨-, -, -, _, hget⟩ := hrs buf' h
        exact absurd (Heap.get_lt hget) (Nat.not_lt_of_le hnew')
      have hbuf' : Holds g m₂ m₀.heap.length buf' (doubleCap need need cap) text :=
        ⟨Nat.le_trans (hext.trans hext₁).size hnew', hout', hget', by omega⟩
      exact copy_spec hext₂ hbuf' (hneed ▸ hlen) hnone hstr hne' fun m₃ hext₃ hbuf₃ => hcont _ _ _ _ htext hext₃ hbuf₃
  · rw [if_neg hgrow, doubleCap_of_le _ (Nat.le_of_not_lt hgrow)]
    refine wp_bind.mpr (wp_pure.mpr ?_)
    exact copy_spec (hext.trans hext₁) hbuf₁ (by omega) hnone (fun c hc => (hrs c hc).2) hne
      fun m₃ hext₃ hbuf₃ => hcont _ _ _ _ htext hext₃ hbuf₃

/-! ## Start and end -/

theorem orNull_spec (h : Safe sys g m) {r : Option Addr} (hr : ∀ v, r = some v → IsVar g v) :
    wp (orNull sys r) (Yields g m fun g' r' => IsVal sys g' r' ∧ (r ≠ none → r' = r)) m := by
  cases r with
  | none =>
    refine (varNull_spec h).mono fun r' m' ⟨g', hext, hp⟩ => ⟨g', hext, hp.isVal rfl, fun h => absurd rfl h⟩
  | some v => exact wp_pure.mpr ⟨g, h.refl, isVal_some (hr v rfl), fun _ => rfl⟩

/-- The start of a concatenation: a buffer with the text of the first value. -/
theorem start_spec {β : Type} {f : Option Addr × Lex → β} (hext : Extends g₀ m₀ g m) {result : Option Addr}
    (hres : ∀ v, result = some v → IsVar g v) {l : Lex}
    {K : Addr → Nat → Nat → M F β} {Q : β → Mem F → Prop}
    (hfail : ∀ l' m', ¬ sys.NoFail → l' = l ∨ (∃ args, l' = l.report "ta_malloc failed for %zu bytes" args) →
      Extends g₀ m₀ g m' →
      wp (do return f (← orNull sys result, l')) Q m')
    (hcont : ∀ buf cap t m', (sys.NoFail → t = valText sys g result) → Extends g₀ m₀ g m' →
      Holds g m' m₀.heap.length buf cap t → wp (K buf t.length cap) Q m') :
    wp (do
      match ← taMalloc sys (.raw CFG_CONCAT_INIT_CAP) with
      | none => do
        return f (← orNull sys result, l.report "ta_malloc failed for %zu bytes" [decimalNat CFG_CONCAT_INIT_CAP])
      | some buf => do
        let rs0 ← varToStr sys result
        let text ← textOf rs0
        let cap := max CFG_CONCAT_INIT_CAP (text.length + 1)
        let newbuf ← if CFG_CONCAT_INIT_CAP < text.length + 1 then reallocBuf sys buf cap else pure (some buf)
        match newbuf with
        | none => do
          taFree rs0
          return f (← orNull sys result, l)
        | some buf => do
          memcpy buf 0 text
          taFree rs0
          K buf text.length cap) Q m := by
  refine wp_bind.mpr (wp_malloc (fun hno => ?_) ?_)
  · exact hfail _ _ hno (.inr ⟨_, rfl⟩) hext.failed
  have hext₁ := hext.allocd (Block.raw (F := F) CFG_CONCAT_INIT_CAP)
  have hraw : (m.allocd (.raw CFG_CONCAT_INIT_CAP)).heap.get m.heap.length = some (.raw CFG_CONCAT_INIT_CAP) :=
    Heap.get_alloc_self _ _
  generalize hm₁ : m.allocd (.raw CFG_CONCAT_INIT_CAP) = m₁ at hext₁ hraw
  generalize hbuf : m.heap.length = buf at hraw
  have hnew : m₀.heap.length ≤ buf := hbuf ▸ hext.size
  have hout : g buf = none := hbuf ▸ hext.fresh
  have hlt := Heap.get_lt hraw
  refine operand_spec hext₁ hres fun rs text m₂ hext₂ htext hnone hrs => ?_
  have hraw₂ : m₂.heap.get buf = some (.raw CFG_CONCAT_INIT_CAP) := (hext₂.grows.heap buf hlt).trans hraw
  have hne : rs ≠ some buf := fun h => absurd (hrs buf h).1 (Nat.not_le_of_lt hlt)
  dsimp only
  -- The copy into a buffer that has room, whichever it is.
  have hcopy : ∀ buf cap m₃, Extends g₀ m₀ g m₃ → m₀.heap.length ≤ buf → g buf = none →
    m₃.heap.get buf = some (.raw cap) →
      text.length + 1 ≤ cap → rs ≠ some buf → (∀ c, rs = some c → ∃ b, m₃.heap.get c = some b) →
      wp (do
        memcpy buf 0 text
        taFree rs
        K buf text.length cap) Q m₃ := by
    intro buf cap m₃ hext₃ hnew hout hget hroom hne hkeep
    refine wp_bind.mpr ((wp_memcpy_raw hget hroom).mpr ?_)
    refine wp.bind (taFree_spec (hext₃.put hnew hout _) fun c hc => ?_) fun _ m₄ hfree => ?_
    · obtain ⟨-, hnew', hout', -⟩ := hrs c hc
      obtain ⟨b, hb⟩ := hkeep c hc
      have hcb : c ≠ buf := fun h => hne (h ▸ hc)
      exact ⟨hnew', hout', b, (Mem.get_put_of_ne _ hcb).trans hb⟩
    · obtain ⟨hext₄, hkeep₄⟩ := hfree
      refine hcont buf cap text m₄ htext hext₄ ⟨hnew, hout, ?_, hroom⟩
      rw [hkeep₄ buf hne]
      exact Mem.get_put_self _ hget
  by_cases hgrow : CFG_CONCAT_INIT_CAP < text.length + 1
  · rw [if_pos hgrow]
    refine wp_bind.mpr ?_
    unfold reallocBuf
    rw [wp_bind, wp_load hraw₂]
    refine (taRealloc_spec (hext₁.trans hext₂) hraw₂ hnew hout).mono fun newbuf m₃ hpost => ?_
    obtain ⟨hext₃, hframe, ⟨hno, rfl, hheap⟩ | ⟨buf', rfl, hnew', hout', hget'⟩⟩ := hpost
    · refine wp.bind (taFree_spec hext₃ fun c hc => ?_) fun _ m₄ hfree => hfail l m₄ hno (.inl rfl) hfree.1
      rw [hheap]
      exact (hrs c hc).2
    · have hne' : rs ≠ some buf' := by
        intro h
        obtain ⟨-, -, -, _, hget⟩ := hrs buf' h
        exact absurd (Heap.get_lt hget) (Nat.not_lt_of_le hnew')
      refine hcopy buf' _ m₃ hext₃ (Nat.le_trans (hext₁.trans hext₂).size hnew') hout' hget'
        (Nat.le_max_right _ _) hne' ?_
      intro c hc
      obtain ⟨-, -, -, b, hget⟩ := hrs c hc
      exact ⟨b, (hframe c (Heap.get_lt hget) fun h => hne (h ▸ hc)).trans hget⟩
  · rw [if_neg hgrow]
    refine wp_bind.mpr (wp_pure.mpr ?_)
    have hcap : max CFG_CONCAT_INIT_CAP (text.length + 1) = CFG_CONCAT_INIT_CAP :=
      Nat.max_eq_left (Nat.le_of_not_lt hgrow)
    rw [hcap]
    exact hcopy buf _ m₂ (hext₁.trans hext₂) hnew hout hraw₂ (Nat.le_of_not_lt hgrow) hne fun c hc => (hrs c hc).2.2.2

/-- The end of a concatenation: the text of the buffer as a value, and the buffer freed. -/
theorem finish_spec (h₀ : Safe sys g₀ m₀) (hext : Extends g₀ m₀ g m) {buf cap : Nat} {text : List Byte}
    (hbuf : Holds g m m₀.heap.length buf cap text) {l : Lex} {Q : Option Addr × Lex → Mem F → Prop}
    (hcont : ∀ g' r m', Extends g₀ m₀ g' m' → IsVal sys g' r → (sys.NoFail → PointsStr sys g' text r) → Q (r, l) m') :
    wp (do
      let result ← varStr sys (some (← cstr buf))
      taFree (some buf)
      return (← orNull sys result, l)) Q m := by
  refine wp_bind.mpr ((wp_cstr hbuf.get).mpr ?_)
  refine wp.bind (varStr_spec (h₀.extend hext) text) ?_
  intro r m₁ hpost
  obtain ⟨g₁, hext₁, hstr⟩ := hpost
  have hbuf₁ := hbuf.extend hext₁
  refine wp_bind.mpr ((wp_free hbuf₁.get).mpr ?_)
  have hput := (hext.trans hext₁).put hbuf₁.new hbuf₁.out none
  refine wp.bind (orNull_spec (h₀.extend hput) hstr.isVal.1) ?_
  intro r' m₂ hpost
  obtain ⟨g₂, hext₂, hval, hsame⟩ := hpost
  refine wp_pure.mpr (hcont g₂ r' m₂ (hput.trans hext₂) hval fun hyes => ?_)
  rw [hsame (hstr.2 hyes)]
  exact hstr.mono hext₂.grows.sub

end KanekFoundations.Cfg

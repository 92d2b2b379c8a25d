/-
  KanekFoundations.Cfg.Buffer — the growing buffer of a concatenation.

  The loop of `eval_rhs` is cut at its head: `rhsHead` is what comes before it, `concatRound`
  one iteration. The buffer has `CFG_CONCAT_INIT_CAP` bytes, or as many as a longer first
  operand needs, and is doubled from there on.

  Proved, with allocations succeeding:
  - `concat_reads`: from a position on, the operands that are joined have a text, an end and
    a flag, whatever the buffer holds and however large it is;
  - `concat_texts`: two or more operands are evaluated to a string of their texts; whenever the
    loop is at its head, the buffer holds the texts so far with their terminator.
-/

import KanekFoundations.Cfg.Texts

namespace KanekFoundations.Cfg

open KanekFoundations.Lib

variable {F : Type} {α : Type} {sys : Sys F} {g g' g₀ : SubHeap (Block F)} {m m' m₀ : Mem F} {l l' : Lex}
  {p q q' : List Byte} {tok : Tok F} {e e' : Bool}

/-! ## The loop by its rounds -/

/-- The variables of the loop, at its head. -/
structure Head where
  buf : Addr
  len : Nat
  cap : Nat
  l : Lex

/-- What an iteration does with the value of its operand. -/
def appendOperand (sys : Sys F) (h : Head) (r : Option Addr × Lex) : M F ((Addr × Lex) ⊕ Head) := do
  let rs ← varToStr sys r.1
  let text ← textOf rs
  let need := h.len + text.length + 1
  let newCap := doubleCap need need h.cap
  let newbuf ← if h.cap < need then reallocBuf sys h.buf newCap else pure (some h.buf)
  match newbuf with
  | none => do
    taFree rs
    pure (.inl (h.buf, r.2.report "ta_realloc failed for %zu bytes" [decimalNat newCap]))
  | some buf => do
    match rs with
    | some _ => memcpy buf h.len text
    | none => pure ()
    taFree rs
    pure (.inr ⟨buf, h.len + text.length, newCap, r.2⟩)

/-- One iteration: the loop is left, or at its head again. -/
def concatRound (sys : Sys F) (h : Head) : M F ((Addr × Lex) ⊕ Head) :=
  let (pk, l) := peekTok sys h.l
  if pk.type ≠ .plus then pure (.inl (h.buf, l))
  else
    let (_, l) := nextTok sys l
    let (rtok, l) := nextTok sys l
    if rtok.type = .eof ∨ rtok.type = .hash then pure (.inl (h.buf, l))
    else evalAtom sys (l.p.length + 1) rtok l >>= appendOperand sys h

/-- At most `n` iterations. -/
def concatRounds (sys : Sys F) : Nat → Head → M F ((Addr × Lex) ⊕ Head)
  | 0, h => pure (.inr h)
  | n + 1, h => do
    match ← concatRound sys h with
    | .inl r => pure (.inl r)
    | .inr h => concatRounds sys n h

theorem operandTail_append (k : Nat) (h : Head) (r : Option Addr × Lex) :
    operandTail sys k h.buf h.len h.cap r = appendOperand sys h r >>= fun x =>
      match x with
      | .inl r => pure r
      | .inr h => concatLoop sys k h.buf h.len h.cap h.l := by
  unfold operandTail appendOperand
  rw [bind_assoc]
  refine congrArg (varToStr sys r.1 >>= ·) (funext fun rs => ?_)
  rw [bind_assoc]
  refine congrArg (textOf rs >>= ·) (funext fun text => ?_)
  dsimp only
  -- The buffer is made larger, or has room.
  split_ifs
  all_goals
    rw [bind_assoc]
    refine congrArg (_ >>= ·) (funext fun newbuf => ?_)
    cases newbuf with
    | none =>
      dsimp only
      rw [bind_assoc]
      rfl
    | some buf =>
      cases rs with
      | none =>
        dsimp only
        rw [bind_assoc]
        rfl
      | some c =>
        dsimp only
        rw [bind_assoc]
        refine congrArg (_ >>= ·) (funext fun _ => ?_)
        rw [bind_assoc]
        rfl

/-- The loop is an iteration, and the loop again from where it is then. -/
theorem concatLoop_round (k : Nat) (h : Head) :
    concatLoop sys (k + 1) h.buf h.len h.cap h.l = concatRound sys h >>= fun x =>
      match x with
      | .inl r => pure r
      | .inr h => concatLoop sys k h.buf h.len h.cap h.l := by
  rw [concatLoop_eq]
  unfold concatRound
  dsimp only
  split
  · rfl
  split
  · rfl
  · rw [bind_assoc]
    exact congrArg (evalAtom sys _ _ _ >>= ·) (funext fun r => operandTail_append k h r)

/-- What `eval_rhs` does with its first value, up to the head of its loop. -/
def startConcat (sys : Sys F) (r : Option Addr × Lex) : M F ((Option Addr × Lex) ⊕ Head) := do
  let (pk, l) := peekTok sys r.2
  if pk.type ≠ .plus then do return .inl (← orNull sys r.1, l)
  else do
    match ← taMalloc sys (.raw CFG_CONCAT_INIT_CAP) with
    | none => do
      return .inl (← orNull sys r.1, l.report "ta_malloc failed for %zu bytes" [decimalNat CFG_CONCAT_INIT_CAP])
    | some buf => do
      let rs0 ← varToStr sys r.1
      let text ← textOf rs0
      let cap := max CFG_CONCAT_INIT_CAP (text.length + 1)
      let newbuf ← if CFG_CONCAT_INIT_CAP < text.length + 1 then reallocBuf sys buf cap else pure (some buf)
      match newbuf with
      | none => do
        taFree rs0
        return .inl (← orNull sys r.1, l)
      | some buf => do
        memcpy buf 0 text
        taFree rs0
        return .inr ⟨buf, text.length, cap, l⟩

/-- `eval_rhs` up to the head of its loop; without a `+` it is done before. -/
def rhsHead (sys : Sys F) (l : Lex) : M F ((Option Addr × Lex) ⊕ Head) :=
  let (tok, l) := nextTok sys l
  if tok.type = .eof ∨ tok.type = .hash then do return .inl (← varNull sys, l)
  else evalAtom sys (l.p.length + 1) tok l >>= startConcat sys

/-- What `eval_rhs` does behind its loop. -/
def endConcat (sys : Sys F) (r : Addr × Lex) : M F (Option Addr × Lex) := do
  let result ← varStr sys (some (← cstr r.1))
  taFree (some r.1)
  return (← orNull sys result, r.2)

theorem rhsTail_start (r : Option Addr × Lex) :
    rhsTail sys r = startConcat sys r >>= fun x =>
      match x with
      | .inl r => pure r
      | .inr h => concatLoop sys (h.l.p.length + 1) h.buf h.len h.cap h.l >>= endConcat sys := by
  unfold rhsTail startConcat
  dsimp only
  split
  · rw [bind_assoc]
    rfl
  rw [bind_assoc]
  refine congrArg (taMalloc sys _ >>= ·) (funext fun buf => ?_)
  cases buf with
  | none =>
    dsimp only
    rw [bind_assoc]
    rfl
  | some buf =>
    dsimp only
    rw [bind_assoc]
    refine congrArg (varToStr sys r.1 >>= ·) (funext fun rs0 => ?_)
    rw [bind_assoc]
    refine congrArg (textOf rs0 >>= ·) (funext fun text => ?_)
    -- A longer first operand, or one that fits.
    split_ifs
    all_goals
      rw [bind_assoc]
      refine congrArg (_ >>= ·) (funext fun newbuf => ?_)
      cases newbuf with
      | none =>
        dsimp only
        rw [bind_assoc]
        refine congrArg (_ >>= ·) (funext fun _ => ?_)
        rw [bind_assoc]
        rfl
      | some buf =>
        dsimp only
        rw [bind_assoc]
        refine congrArg (_ >>= ·) (funext fun _ => ?_)
        rw [bind_assoc]
        rfl

theorem evalRhs_head (l : Lex) :
    evalRhs sys l = rhsHead sys l >>= fun x =>
      match x with
      | .inl r => pure r
      | .inr h => concatLoop sys (h.l.p.length + 1) h.buf h.len h.cap h.l >>= endConcat sys := by
  rw [evalRhs_eq]
  unfold rhsHead
  dsimp only
  split
  · rw [bind_assoc]
    rfl
  · rw [bind_assoc]
    exact congrArg (evalAtom sys _ _ _ >>= ·) (funext fun r => rhsTail_start r)

/-! ## What the buffer holds -/

/-- At its head the loop has `text` in its buffer. -/
structure Head.Has (h : Head) (g : SubHeap (Block F)) (m : Mem F) (base : Nat) (text : List Byte) : Prop where
  len : h.len = text.length
  holds : Holds g m base h.buf h.cap text

/-- An iteration that meets an operand: the copy ends within the buffer, and its text is behind
    what was there. -/
theorem concatRound_plus (hyes : sys.NoFail) {h : Head} {old text q₁ q₂ : List Byte} {errs errs₂ : List Report}
    (hplus : scanTok sys h.l.p = ⟨.plus, q₁, errs⟩) (hscan : scanTok sys q₁ = ⟨tok, q₂, errs₂⟩) (hend : ¬ tok.Ends)
    (hatom : AtomReads sys g₀ m₀ tok q₂ text q e) (hext : Extends g₀ m₀ g m) (hhas : h.Has g m m₀.heap.length old) :
    wp (concatRound sys h) (fun x m' => ∃ h', x = .inr h' ∧
      Lex.Went h.l h'.l q (((!errs.isEmpty || !errs.isEmpty) || !errs₂.isEmpty) || e) ∧
      ∃ g', Extends g₀ m₀ g' m' ∧ h'.Has g' m' m₀.heap.length (old ++ text)) m := by
  have hvalue : ¬ (tok.type = .eof ∨ tok.type = .hash) := hend
  have hplustype : ¬ (Tok.plus : Tok F).type ≠ .plus := not_not.mpr rfl
  obtain ⟨buf, len, cap, l⟩ := h
  obtain ⟨rfl, hbuf⟩ := hhas
  dsimp only at hplus hbuf ⊢
  unfold concatRound
  dsimp only
  rw [peek_of_scan hplus]
  dsimp only
  rw [if_neg hplustype, next_of_scan (l := l.after l.p errs) hplus]
  dsimp only
  rw [next_of_scan (l := (l.after l.p errs).after q₁ errs) hscan]
  dsimp only
  rw [if_neg hvalue]
  refine wp.bind (hatom.run rfl (Nat.lt_succ_self _) hext) ?_
  intro r m₁ hpost
  obtain ⟨⟨g₁, hext₁, hval, htext⟩, hwent⟩ := hpost
  have hall := (((Lex.Went.after l l.p errs).trans (.after _ q₁ errs)).trans (.after _ q₂ errs₂)).trans hwent
  refine append_spec (f := Sum.inl) (K := fun buf len cap => pure (Sum.inr (Head.mk buf len cap r.2)))
    (hext.trans hext₁)
    (hbuf.extend hext₁) hval.1 (fun _ _ hno => absurd hyes hno) ?_
  intro buf' cap' t m₂ ht hext₂ hbuf'
  rw [ht hyes, htext] at hbuf' ⊢
  exact wp_pure.mpr ⟨_, rfl, hall, g₁, hext₂, by rw [List.length_append], hbuf'⟩

/-- From `p` on the operands that are joined have the text `more`, whatever the buffer holds. -/
structure ConcatReads (sys : Sys F) (g₀ : SubHeap (Block F)) (m₀ : Mem F) (p more q : List Byte) (e : Bool) : Prop where
  run : ∀ k (h : Head) g m old, h.l.p = p → p.length < k → Extends g₀ m₀ g m → h.Has g m m₀.heap.length old →
    wp (concatLoop sys k h.buf h.len h.cap h.l) (fun r m' => Lex.Went h.l r.2 q e ∧
      ∃ g' cap, Extends g₀ m₀ g' m' ∧ Holds g' m' m₀.heap.length r.1 cap (old ++ more)) m
  stop : (scanTok sys p).tok.type ≠ .plus → more = [] ∧ q = p ∧ e = !(scanTok sys p).errs.isEmpty

theorem ConcatReads.plus (hyes : sys.NoFail) {text more r q₁ q₂ : List Byte} {errs errs₂ : List Report}
    (hplus : scanTok sys p = ⟨.plus, q₁, errs⟩) (hscan : scanTok sys q₁ = ⟨tok, q₂, errs₂⟩) (hend : ¬ tok.Ends)
    (hatom : AtomReads sys g₀ m₀ tok q₂ text q e) (hrest : ConcatReads sys g₀ m₀ q more r e') :
    ConcatReads sys g₀ m₀ p (text ++ more) r ((((!errs.isEmpty || !errs.isEmpty) || !errs₂.isEmpty) || e) || e') := by
  refine ⟨fun k h g m old hl hk hext hhas => ?_, fun hne => absurd (by rw [hplus]; rfl) hne⟩
  subst hl
  have hlt : q₁.length < h.l.p.length := (scan_length hplus).2 fun heof => by cases heof
  have hle : q.length ≤ q₁.length := Nat.le_trans hatom.length (scan_length hscan).1
  cases k with
  | zero => exact absurd hk (Nat.not_lt_zero _)
  | succ k =>
    rw [concatLoop_round]
    refine wp.bind (concatRound_plus hyes hplus hscan hend hatom hext hhas) ?_
    intro x m₁ hpost
    obtain ⟨h', rfl, hwent, g', hext', hhas'⟩ := hpost
    refine (hrest.run k h' g' m₁ (old ++ text) hwent.place (by omega) hext' hhas').mono fun res m₂ hdone => ?_
    rw [List.append_assoc] at hdone
    exact ⟨hwent.trans hdone.1, hdone.2⟩

/-- The loop is left without another operand. -/
theorem concatLoop_leave {q : List Byte} (h : ∀ k (h : Head) (m : Mem F), h.l.p = p →
    ∃ l, concatLoop sys (k + 1) h.buf h.len h.cap h.l m = some ((h.buf, l), m) ∧ Lex.Went h.l l q e) :
    ∀ k (h : Head) g m old, h.l.p = p → p.length < k → Extends g₀ m₀ g m → h.Has g m m₀.heap.length old →
      wp (concatLoop sys k h.buf h.len h.cap h.l) (fun r m' => Lex.Went h.l r.2 q e ∧
        ∃ g' cap, Extends g₀ m₀ g' m' ∧ Holds g' m' m₀.heap.length r.1 cap (old ++ [])) m := by
  intro k hd g m old hl hk hext hhas
  cases k with
  | zero => exact absurd hk (Nat.not_lt_zero _)
  | succ k =>
    obtain ⟨l, hrun, hwent⟩ := h k hd m hl
    rw [List.append_nil]
    exact ⟨_, hrun, hwent, g, hd.cap, hext, hhas.holds⟩

theorem ConcatReads.stopped {q : List Byte} {t : Tok F} {errs : List Report} (hscan : scanTok sys p = ⟨t, q, errs⟩)
    (ht : t.type ≠ .plus) : ConcatReads sys g₀ m₀ p [] p (!errs.isEmpty) := by
  refine ⟨concatLoop_leave fun k h m hl => ⟨h.l.after p errs, ?_, .after _ _ _⟩, fun _ => ?_⟩
  · subst hl
    rw [concatLoop_eq, peek_of_scan hscan]
    dsimp only
    rw [if_pos ht]
    rfl
  · rw [hscan]
    exact ⟨rfl, rfl, rfl⟩

/-- Nothing follows the last `+`. -/
theorem ConcatReads.dangling {q₁ q₂ : List Byte} {t : Tok F} {errs errs₂ : List Report}
    (hplus : scanTok sys p = ⟨.plus, q₁, errs⟩)
    (hscan : scanTok sys q₁ = ⟨t, q₂, errs₂⟩) (hend : t.Ends) :
    ConcatReads sys g₀ m₀ p [] q₂ ((!errs.isEmpty || !errs.isEmpty) || !errs₂.isEmpty) := by
  refine ⟨concatLoop_leave fun k h m hl => ⟨((h.l.after p errs).after q₁ errs).after q₂ errs₂, ?_,
    ((Lex.Went.after _ _ _).trans (.after _ _ _)).trans (.after _ _ _)⟩, fun hne => absurd (by rw [hplus]; rfl) hne⟩
  subst hl
  have hstop : t.type = .eof ∨ t.type = .hash := hend
  have hplustype : ¬ (Tok.plus : Tok F).type ≠ .plus := not_not.mpr rfl
  rw [concatLoop_eq, peek_of_scan hplus]
  dsimp only
  rw [if_neg hplustype, next_of_scan (l := h.l.after h.l.p errs) hplus]
  dsimp only
  rw [next_of_scan (l := (h.l.after h.l.p errs).after q₁ errs) hscan]
  dsimp only
  rw [if_pos hstop]
  rfl

theorem plus_scan {q : List Byte} {t : Tok F} {errs : List Report} (hscan : scanTok sys p = ⟨t, q, errs⟩)
    (ht : t.type = .plus) :
    scanTok sys p = ⟨.plus, q, errs⟩ := by
  cases t with
  | plus => exact hscan
  | _ => cases ht

/-- The operands that are joined have one text, whatever has been made before the loop. -/
theorem concat_reads (h₀ : Safe sys g₀ m₀) (hyes : sys.NoFail) (p : List Byte) :
    ∃ more q e, ∀ g m, Extends g₀ m₀ g m → ConcatReads sys g m p more q e := by
  induction hn : p.length using Nat.strong_induction_on generalizing p with
  | h n ih =>
  subst hn
  obtain ⟨t, q₁, errs, hscan, -, -⟩ := scan_cases sys ⟨p, false, []⟩
  by_cases ht : t.type ≠ .plus
  · exact ⟨[], p, _, fun _ _ _ => .stopped hscan ht⟩
  have hplus := plus_scan hscan (not_not.mp ht)
  obtain ⟨t₂, q₂, errs₂, hscan₂, -, -⟩ := scan_cases sys ⟨q₁, false, []⟩
  have hlt : q₁.length < p.length := (scan_length hplus).2 fun heof => by cases heof
  have hle : q₂.length ≤ q₁.length := (scan_length hscan₂).1
  by_cases hend : t₂.Ends
  · exact ⟨[], q₂, _, fun _ _ _ => .dangling hplus hscan₂ hend⟩
  · obtain ⟨text, q, e, hatom⟩ := atom_reads h₀ hyes t₂ q₂
    have hle₂ := hatom.length
    obtain ⟨more, r, e', hrest⟩ := ih q.length (by omega) q rfl
    exact ⟨text ++ more, r, _, fun g m hext => .plus hyes hplus hscan₂ hend (hatom.extend hext) (hrest g m hext)⟩

/-! ## Right-hand sides -/

/-- The first operand is copied into a buffer that has room for it. -/
theorem startConcat_plus (hyes : sys.NoFail) {r : Option Addr × Lex} {text : List Byte}
    (hplus : (scanTok sys r.2.p).tok.type = .plus)
    (hext : Extends g₀ m₀ g m) (hval : ∀ v, r.1 = some v → IsVar g v) (htext : valText sys g r.1 = text) :
    wp (startConcat sys r) (fun x m' => ∃ h, x = .inr h ∧ Lex.Went r.2 h.l r.2.p (!(scanTok sys r.2.p).errs.isEmpty) ∧
      ∃ g', Extends g₀ m₀ g' m' ∧ h.Has g' m' m₀.heap.length text) m := by
  obtain ⟨result, l⟩ := r
  obtain ⟨t, q, errs, hscan, -, hpeek⟩ := scan_cases sys l
  dsimp only at hplus ⊢
  rw [hscan] at hplus ⊢
  unfold startConcat
  dsimp only
  rw [hpeek]
  dsimp only
  rw [if_neg (not_not.mpr hplus)]
  refine start_spec (f := Sum.inl) (K := fun buf len cap =>
    pure (Sum.inr (Head.mk buf len cap (l.after l.p errs)))) hext hval
    (fun _ _ hno => absurd hyes hno) ?_
  intro buf cap t' m' ht hext' hbuf
  rw [ht hyes, htext] at hbuf ⊢
  exact wp_pure.mpr ⟨_, rfl, .after _ _ _, g, hext', rfl, hbuf⟩

/-- Up to the head of the loop: the first operand is in the buffer. -/
theorem rhsHead_plus (h₀ : Safe sys g₀ m₀) (hyes : sys.NoFail) {text q₀ : List Byte} {errs : List Report}
    (hscan : scanTok sys l.p = ⟨tok, q₀, errs⟩) (hend : ¬ tok.Ends) (hatom : AtomReads sys g₀ m₀ tok q₀ text q e)
    (hplus : (scanTok sys q).tok.type = .plus) :
    wp (rhsHead sys l) (fun x m' => ∃ h, x = .inr h ∧ h.l.p = q ∧
      ∃ g', Extends g₀ m₀ g' m' ∧ h.Has g' m' m₀.heap.length text) m₀ := by
  have hvalue : ¬ (tok.type = .eof ∨ tok.type = .hash) := hend
  unfold rhsHead
  rw [next_of_scan hscan]
  dsimp only
  rw [if_neg hvalue]
  refine wp.bind (hatom.run rfl (Nat.lt_succ_self _) h₀.refl) ?_
  intro res m₁ hpost
  obtain ⟨⟨g₁, hext₁, hval, htext⟩, hwent⟩ := hpost
  refine (startConcat_plus hyes (by rw [hwent.place]; exact hplus) hext₁ hval.1 htext).mono fun x m₂ hpost => ?_
  obtain ⟨h, hx, hwent₂, hhas⟩ := hpost
  exact ⟨h, hx, hwent₂.place.trans hwent.place, hhas⟩

/-- A right-hand side comes to the texts of its operands. -/
theorem evalRhs_reads (h₀ : Safe sys g₀ m₀) (hyes : sys.NoFail) {text more q₀ r : List Byte} {errs : List Report}
    (hscan : scanTok sys p = ⟨tok, q₀, errs⟩) (hend : ¬ tok.Ends) (hatom : AtomReads sys g₀ m₀ tok q₀ text q e)
    (hmore : ConcatReads sys g₀ m₀ q more r e') (hl : l.p = p) (hext : Extends g₀ m₀ g m) :
    wp (evalRhs sys l) (fun res m' => Lex.Went l res.2 r ((!errs.isEmpty || e) || e') ∧
      ∃ g', Extends g₀ m₀ g' m' ∧ IsVal sys g' res.1 ∧ valText sys g' res.1 = text ++ more ∧
        ((scanTok sys q).tok.type = .plus → PointsStr sys g' (text ++ more) res.1)) m := by
  have hvalue : ¬ (tok.type = .eof ∨ tok.type = .hash) := hend
  subst hl
  rw [evalRhs_eq, next_of_scan hscan]
  dsimp only
  rw [if_neg hvalue]
  refine wp.bind (hatom.run rfl (Nat.lt_succ_self _) hext) ?_
  intro res m₁ hpost
  obtain ⟨⟨g₁, hext₁, hval, htext⟩, hwent⟩ := hpost
  have hread := (Lex.Went.after l q₀ errs).trans hwent
  have hplace := hwent.place
  subst hplace
  obtain ⟨t₂, q₂, errs₂, hscan₂, -, hpeek⟩ := scan_cases sys res.2
  have hstop := hmore.stop
  rw [hscan₂] at hstop ⊢
  dsimp only at hstop ⊢
  by_cases hplus : t₂.type = .plus
  · rw [rhsTail_start]
    refine wp.bind (startConcat_plus hyes (by rw [hscan₂]; exact hplus) (hext.trans hext₁) hval.1 htext) ?_
    intro x m₂ hpost
    obtain ⟨h, rfl, hwent₂, g₂, hext₂, hhas⟩ := hpost
    have herrs : errs₂ = [] := errs_of_type hscan₂ (by rw [hplus]; decide)
    rw [hscan₂, herrs] at hwent₂
    dsimp only
    refine wp.bind (hmore.run _ h g₂ m₂ text hwent₂.place
      (by rw [hwent₂.place]; exact Nat.lt_succ_self _) hext₂ hhas) ?_
    intro res₂ m₃ hpost
    obtain ⟨hwent₃, g₃, cap, hext₃, hbuf⟩ := hpost
    have hall := (hread.trans hwent₂).trans hwent₃
    have hflag : ((!errs.isEmpty || e) || !([] : List Report).isEmpty) = (!errs.isEmpty || e) := Bool.or_false _
    rw [hflag] at hall
    unfold endConcat
    refine finish_spec h₀ hext₃ hbuf fun g₄ v m₄ hext₄ hval₄ hstr => ?_
    exact ⟨hall, g₄, hext₄, hval₄, (hstr hyes).text hyes, fun _ => hstr hyes⟩
  · obtain ⟨rfl, rfl, rfl⟩ := hstop hplus
    unfold rhsTail
    rw [hpeek]
    dsimp only
    rw [if_pos hplus, List.append_nil]
    refine wp.bind (orNull_spec (h₀.extend (hext.trans hext₁)) hval.1) fun v m₂ hpost => ?_
    obtain ⟨g₂, hext₂, hval₂, hsame⟩ := hpost
    have hres := hsame (hval.2 hyes)
    refine wp_pure.mpr ⟨hread.trans (.after _ _ _), g₂, (hext.trans hext₁).trans hext₂, hval₂, ?_,
      fun h => absurd h hplus⟩
    rw [hres, ← htext]
    cases hv : res.1 with
    | none => exact absurd hv (hval.2 hyes)
    | some v => exact valText_mono hext₁.closed hext₂.grows.sub (hval.1 v hv)

/-! ## Joined operands -/

/-- An operand by itself: the text that `var_to_str` gives of its value, and where it ends. -/
def operandText (sys : Sys F) (p : List Byte) : M F (List Byte × List Byte) := do
  let (tok, l) := nextTok sys ⟨p, false, []⟩
  let (v, l) ← evalAtom sys (l.p.length + 1) tok l
  let s ← varToStr sys v
  return (← textOf s, l.p)

/-- At `p` stands an operand with this text, and it ends at `q`. -/
structure Operand (sys : Sys F) (m : Mem F) (p text q : List Byte) : Prop where
  value : ¬ (scanTok sys p).tok.Ends
  text : (operandText sys p m).map Prod.fst = some (text, q)

/-- The operands that are joined by `+` behind one that ends at a position, by their texts. -/
inductive JoinedMore (sys : Sys F) (m : Mem F) : List Byte → List (List Byte) → Prop
  | stop {q : List Byte} : (scanTok sys q).tok.type ≠ .plus → JoinedMore sys m q []
  | dangling {q : List Byte} :
    (scanTok sys q).tok.type = .plus → (scanTok sys (scanTok sys q).rest).tok.Ends → JoinedMore sys m q []
  | plus {q q' text : List Byte} {texts : List (List Byte)} :
    (scanTok sys q).tok.type = .plus → Operand sys m (scanTok sys q).rest text q' → JoinedMore sys m q' texts →
      JoinedMore sys m q (text :: texts)

/-- One or more operands with `+` between them. -/
inductive Joined (sys : Sys F) (m : Mem F) : List Byte → List (List Byte) → Prop
  | mk {p q text : List Byte} {texts : List (List Byte)} :
    Operand sys m p text q → JoinedMore sys m q texts → Joined sys m p (text :: texts)

theorem Operand.reads (hm : Safe sys g m) (hyes : sys.NoFail) {text : List Byte} (h : Operand sys m p text q) :
    ∃ e, AtomReads sys g m (scanTok sys p).tok (scanTok sys p).rest text q e := by
  obtain ⟨text', q', e, hatom⟩ := atom_reads hm hyes (scanTok sys p).tok (scanTok sys p).rest
  have hrun : wp (operandText sys p) (fun r _ => r = (text', q')) m := by
    unfold operandText
    rw [next_of_scan (l := ⟨p, false, []⟩) rfl]
    refine wp.bind (hatom.run rfl (Nat.lt_succ_self _) hm.refl) ?_
    intro r m₁ hpost
    obtain ⟨⟨g₁, hext, hval, htext⟩, hwent⟩ := hpost
    refine wp.bind (varToStr_spec hext.grows.within hext.closed hval.1) ?_
    intro s m₂ hpost
    obtain ⟨-, hok, hs⟩ := hpost
    refine wp_bind.mpr ((wp_textOf fun c hc => (hs c hc).2).mpr (wp_pure.mpr ?_))
    rw [elim_some _ (hok hyes), htext, hwent.place]
  obtain ⟨⟨r, m'⟩, hr, hsame⟩ := hrun
  have htext := h.text
  rw [hr] at htext
  dsimp only at hsame
  cases hsame.symm.trans (Option.some.inj htext)
  exact ⟨e, hatom⟩

theorem JoinedMore.reads (hm : Safe sys g m) (hyes : sys.NoFail) {texts : List (List Byte)}
    (h : JoinedMore sys m p texts) :
    ∃ q e, ConcatReads sys g m p texts.flatten q e := by
  induction h with
  | stop hne => exact ⟨_, _, .stopped rfl hne⟩
  | dangling hplus hend => exact ⟨_, _, .dangling (plus_scan rfl hplus) rfl hend⟩
  | plus hplus hoperand _ ih =>
    obtain ⟨q, e, hrest⟩ := ih
    obtain ⟨e', hatom⟩ := hoperand.reads hm hyes
    exact ⟨q, _, .plus hyes (plus_scan rfl hplus) rfl hoperand.value hatom hrest⟩

/-- The head of the loop after `k` iterations. -/
def concatHead (sys : Sys F) (k : Nat) (l : Lex) : M F ((Addr × Lex) ⊕ Head) := do
  match ← rhsHead sys l with
  | .inl _ => stuck
  | .inr h => concatRounds sys k h

theorem concatLoop_rounds (k n : Nat) (h : Head) :
    concatLoop sys (k + n) h.buf h.len h.cap h.l = concatRounds sys k h >>= fun x =>
      match x with
      | .inl r => pure r
      | .inr h => concatLoop sys n h.buf h.len h.cap h.l := by
  induction k generalizing h with
  | zero =>
    rw [Nat.zero_add]
    rfl
  | succ k ih =>
    rw [Nat.add_right_comm, concatLoop_round]
    unfold concatRounds
    rw [bind_assoc]
    refine congrArg (concatRound sys h >>= ·) (funext fun x => ?_)
    cases x with
    | inl r => rfl
    | inr h' => exact ih h'

theorem JoinedMore.rounds (hm : Safe sys g₀ m₀) (hyes : sys.NoFail) {texts : List (List Byte)}
    (hjoined : JoinedMore sys m₀ p texts)
    {k : Nat} (hk : k ≤ texts.length) {h : Head} (hl : h.l.p = p) (hext : Extends g₀ m₀ g m) {old : List Byte}
    (hhas : h.Has g m m₀.heap.length old) :
    wp (concatRounds sys k h) (fun x m' => ∃ h', x = .inr h' ∧ h'.l.p.length + k ≤ p.length ∧
      ∃ g', Extends g₀ m₀ g' m' ∧ h'.Has g' m' m₀.heap.length (old ++ (texts.take k).flatten)) m := by
  induction hjoined generalizing k h g m old with
  | stop | dangling =>
    cases Nat.le_zero.mp hk
    subst hl
    exact wp_pure.mpr ⟨h, rfl, Nat.le_refl _, g, hext, by simpa using hhas⟩
  | plus hplus hoperand _ ih =>
    cases k with
    | zero =>
      subst hl
      exact wp_pure.mpr ⟨h, rfl, Nat.le_refl _, g, hext, by simpa using hhas⟩
    | succ k =>
      obtain ⟨e, hatom⟩ := hoperand.reads hm hyes
      subst hl
      have hlt : (scanTok sys h.l.p).rest.length < h.l.p.length := (scanTok_length sys h.l.p).2 (by rw [hplus]; decide)
      have hle : (scanTok sys (scanTok sys h.l.p).rest).rest.length ≤ (scanTok sys h.l.p).rest.length :=
        (scanTok_length sys _).1
      have hle₂ : _ ≤ (scanTok sys (scanTok sys h.l.p).rest).rest.length := hatom.length
      unfold concatRounds
      refine wp.bind (concatRound_plus hyes (plus_scan rfl hplus) rfl hoperand.value hatom hext hhas) ?_
      intro x m₁ hpost
      obtain ⟨h', rfl, hwent, g', hext', hhas'⟩ := hpost
      refine (ih (Nat.le_of_succ_le_succ hk) hwent.place hext' hhas').mono fun x m₂ hdone => ?_
      obtain ⟨h'', hx, hplace, g'', hext'', hhas''⟩ := hdone
      rw [List.append_assoc] at hhas''
      exact ⟨h'', hx, by omega, g'', hext'', hhas''⟩

/-- Two or more joined operands come to a string of their texts. Whenever the loop is at its head,
    the buffer holds the texts of the operands so far, and has room for them and the terminator:
    each copy ends where the next head says. -/
theorem concat_texts (hm : Safe sys g m) (hyes : sys.NoFail) {texts : List (List Byte)} (hjoined : Joined sys m p texts)
    (htwo : 2 ≤ texts.length) (error : Bool) (trace : List Report) :
    (∃ v s cap l m', evalRhs sys ⟨p, error, trace⟩ m = some ((some v, l), m') ∧
      m'.heap.get v = some (.str (some s)) ∧ m'.heap.get s = some (.chars cap texts.flatten)) ∧
    ∀ k < texts.length, ∃ h m' n, concatHead sys k ⟨p, error, trace⟩ m = some (.inr h, m') ∧
      evalRhs sys ⟨p, error, trace⟩ m = (concatLoop sys n h.buf h.len h.cap h.l >>= endConcat sys) m' ∧
      m'.heap.get h.buf = some (.chars h.cap (texts.take (k + 1)).flatten) ∧
      h.len = (texts.take (k + 1)).flatten.length ∧ h.len + 1 ≤ h.cap := by
  obtain ⟨hoperand, hmore⟩ := hjoined
  rename_i q text texts
  obtain ⟨e, hatom⟩ := hoperand.reads hm hyes
  obtain ⟨r, e', hrest⟩ := hmore.reads hm hyes
  have hplus : (scanTok sys q).tok.type = .plus := by
    cases hmore with
    | plus hplus => exact hplus
    | _ => exact absurd htwo (Nat.not_succ_le_self 1)
  refine ⟨?_, fun k hk => ?_⟩
  · obtain ⟨⟨⟨v, l⟩, m'⟩, hrun, -, g', hext, -, -, hstr⟩ :=
      evalRhs_reads hm hyes (l := ⟨p, error, trace⟩) rfl hoperand.value hatom hrest rfl hm.refl
    obtain ⟨hstr, hsome⟩ := hstr hplus
    obtain ⟨v, rfl⟩ := Option.ne_none_iff_exists'.mp (hsome hyes)
    obtain ⟨s, hv, htext, hok⟩ := hstr v rfl
    obtain ⟨s, rfl⟩ := Option.ne_none_iff_exists'.mp (hok hyes)
    obtain ⟨cap, hs⟩ := htext s rfl
    exact ⟨v, s, cap, l, m', hrun, hext.grows.within v _ hv, hext.grows.within s _ hs⟩
  · -- Up to the head of the loop, and from there `k` iterations.
    have hhead := rhsHead_plus (l := ⟨p, error, trace⟩) hm hyes rfl hoperand.value hatom hplus
    obtain ⟨⟨x, m₁⟩, hrun, h, hx, hplace, g₁, hext, hhas⟩ := hhead
    dsimp only at hx hext hhas
    subst hx
    obtain ⟨⟨x, m₂⟩, hrounds, h', hx, hleft, g₂, hext₂, hhas'⟩ :=
      hmore.rounds hm hyes (Nat.le_of_lt_succ hk) hplace hext hhas
    dsimp only at hx hext₂ hhas'
    subst hx
    have hlen : k ≤ h.l.p.length + 1 := by
      rw [hplace]
      omega
    obtain ⟨n, hn⟩ := Nat.exists_eq_add_of_le hlen
    refine ⟨h', m₂, n, ?_, ?_, hhas'.holds.get, hhas'.len, hhas'.len ▸ hhas'.holds.room⟩
    · unfold concatHead
      rw [bind_apply, hrun]
      exact hrounds
    · rw [evalRhs_head, bind_apply, hrun]
      show (concatLoop sys (h.l.p.length + 1) h.buf h.len h.cap h.l >>= endConcat sys) m₁ = _
      rw [hn, concatLoop_rounds, bind_assoc, bind_apply, hrounds]
      rfl

def longText : List Byte := List.replicate 511 (chr 'x')

/-- The memory after `B="xx…x"`, with as many bytes as a string can have. -/
def longMem : Mem Unit :=
  ((parseLine plainSys (cfgLoadDepth plainSys 16) (ascii ['B', '=', '"'] ++ longText ++ ascii ['"']) [] plainMem).getD
    (0, plainMem)).2

theorem longMem_safe : ∃ g, Safe plainSys g longMem := by
  obtain ⟨⟨rc, m'⟩, hrun, hpost⟩ := parseLine_spec (cfgLoadDepth_spec 16) (kflCfgNew_safe plainMem_new).1
    (ascii ['B', '=', '"'] ++ longText ++ ascii ['"']) []
  obtain ⟨g, -, hm⟩ := hpost.grown
  refine ⟨g, ?_⟩
  unfold longMem
  rw [hrun]
  exact hm

/-- `B+B+B` has more than the 1024 bytes that the buffer starts with: at the last loop head it has grown. -/
theorem concat_texts_grown :
    (∃ v s cap l m', evalRhs plainSys ⟨ascii ['B', '+', 'B', '+', 'B'], false, []⟩ longMem = some ((some v, l), m') ∧
      m'.heap.get v = some (.str (some s)) ∧ m'.heap.get s = some (.chars cap [longText, longText, longText].flatten)) ∧
    ∃ h m', concatHead plainSys 2 ⟨ascii ['B', '+', 'B', '+', 'B'], false, []⟩ longMem = some (.inr h, m') ∧
      CFG_CONCAT_INIT_CAP < h.cap := by
  obtain ⟨g, hm⟩ := longMem_safe
  have hend : JoinedMore plainSys longMem [] [] := .stop (by decide +kernel)
  have hlast : Operand plainSys longMem (ascii ['B']) longText [] :=
    ⟨fun h => h.elim (by decide +kernel) (by decide +kernel), by decide +kernel⟩
  have hmid : Operand plainSys longMem (ascii ['B', '+', 'B']) longText (ascii ['+', 'B']) :=
    ⟨fun h => h.elim (by decide +kernel) (by decide +kernel), by decide +kernel⟩
  have hfirst : Operand plainSys longMem (ascii ['B', '+', 'B', '+', 'B']) longText (ascii ['+', 'B', '+', 'B']) :=
    ⟨fun h => h.elim (by decide +kernel) (by decide +kernel), by decide +kernel⟩
  have hjoined : Joined plainSys longMem (ascii ['B', '+', 'B', '+', 'B']) [longText, longText, longText] :=
    .mk hfirst (.plus (by decide +kernel) hmid (.plus (by decide +kernel) hlast hend))
  obtain ⟨hresult, hheads⟩ := concat_texts hm (fun _ => rfl) hjoined (by decide) false []
  obtain ⟨h, m', -, hhead, -, -, hlen, hroom⟩ := hheads 2 (by decide)
  refine ⟨hresult, h, m', hhead, ?_⟩
  have hlong : longText.length = 511 := List.length_replicate ..
  have hcount : (longText ++ (longText ++ (longText ++ []))).length = 1533 := by
    simp only [List.length_append, hlong, List.length_nil]
  have hroom' : 1533 + 1 ≤ h.cap := hcount ▸ hlen ▸ hroom
  exact Nat.lt_of_lt_of_le (by decide) hroom'

end KanekFoundations.Cfg

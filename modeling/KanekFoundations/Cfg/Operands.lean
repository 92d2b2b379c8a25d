/-
  KanekFoundations.Cfg.Operands — the first operand of a value, and what it reports.

  `SingleOperand`: the value of a line is one literal or defined variable, or it is malformed
  where the evaluator looks at it whatever the allocator does.

  Proved, for every memory:
  - `rhs_single`: such a value is evaluated with an error or without a report, whichever
    allocations succeed;
  - `rhs_cut`: any other value, with an allocator that has no memory for the first operand and
    for the buffer behind it, is evaluated with a report and without an error.
-/

import KanekFoundations.Cfg.Reports

namespace KanekFoundations.Cfg

open KanekFoundations.Lib

variable {F : Type} {α : Type} {sys : Sys F} {g g' : SubHeap (Block F)} {m m' : Mem F} {l l' : Lex}
  {p q : List Byte} {tok : Tok F} {errs : List Report} {rc : Int}

/-! ## Values of a single operand -/

/-- The value from `p` on is empty, or malformed up to the token behind its first operand, or
    this operand alone: no array, no undefined variable, and no `+` behind it. -/
def SingleOperand (sys : Sys F) (m : Mem F) (p : List Byte) : Prop :=
  let lead := nextTok sys ⟨p, false, []⟩
  let pk := peekTok sys (operandEnd sys lead.1 lead.2)
  lead.1.Ends ∨ pk.2.error = true ∨ (lead.1.type ≠ .lbracket ∧ pk.1.type ≠ .plus ∧ Knows (Defined sys m) [lead.1])

/-! ## Operands -/

theorem Safe.withAllocs (h : Safe sys g m) (allocs : Nat → Bool) : Safe (sys.withAllocs allocs) g m :=
  ⟨h.within, h.closed, h.inv, h.vars⟩

theorem taMalloc_fails {allocs : Nat → Bool} (b : Block F) (h : allocs m.mallocs = false) :
    taMalloc (sys.withAllocs allocs) b m = some (none, m.failed) := by
  unfold taMalloc
  exact if_neg (Bool.eq_false_iff.mp h)

theorem taMalloc_succeeds (sys : Sys F) (b : Block F) (h : sys.mallocOk m.mallocs = true) :
    taMalloc sys b m = some (some m.heap.length, m.allocd b) := by
  unfold taMalloc
  exact if_pos h

/-- The lexer with more reports. -/
def Lex.add (l : Lex) (rep : List Report) : Lex := { l with trace := l.trace ++ rep }

theorem Lex.add_nil (l : Lex) : l.add [] = l := by
  unfold Lex.add
  rw [List.append_nil]

theorem operandEnd_word (sys : Sys F) {s : List Byte} (hword : IsWord s) (l : Lex) :
    operandEnd sys (.ident s) l = l := if_pos hword

theorem operandEnd_quiet (tok : Tok F) (l : Lex) : Quiet l (operandEnd sys tok l) := by
  cases tok with
  | ident s =>
    by_cases hword : IsWord s
    · rw [operandEnd_word sys hword]
      exact fun herr => ⟨herr, rfl⟩
    · obtain ⟨_, -, hquiet, -, -⟩ := evalIdent_eq sys hword l
      exact hquiet
  | _ => exact fun herr => ⟨herr, rfl⟩

/-- The program makes a new value, first of all. -/
def Fresh (m : Mem F) (x : (Nat → Bool) → M F (Option Addr)) : Prop :=
  ∀ allocs, allocs m.mallocs = false → x allocs m = some (none, m.failed)

theorem malloc_fresh (b : Block F) : Fresh m fun allocs => taMalloc (sys.withAllocs allocs) b :=
    fun _ h => taMalloc_fails b h

theorem varStr_fresh (s : List Byte) : Fresh m fun allocs => varStr (sys.withAllocs allocs) (some s) := by
  intro allocs h
  show varStr (sys.withAllocs allocs) (some s) m = _
  unfold varStr
  rw [bind_apply, taMalloc_fails _ h]
  rfl

/-- An operand makes a new value, or is one that is there, and the lexer is then `l'`. -/
def OperandTo (sys : Sys F) (g : SubHeap (Block F)) (m : Mem F) (tok : Tok F) (l l' : Lex) : Prop :=
  (∃ x, Fresh m x ∧ ∀ allocs n, evalAtom (sys.withAllocs allocs) (n + 1) tok l m =
    (x allocs >>= fun v => pure (v, l')) m) ∨
    ∃ e, IsVar g e ∧ ∀ allocs n, evalAtom (sys.withAllocs allocs) (n + 1) tok l m = some ((some e, l'), m)

/-- A variable, by what follows it and by its value. -/
theorem ident_cases (hm : Safe sys g m) {s : List Byte} (hword : ¬ IsWord s) (l : Lex) :
    ∃ rep, ((operandEnd sys (.ident s) l).error = false → (rep = [] ↔ Knows (Defined sys m) [(.ident s : Tok F)])) ∧
      OperandTo sys g m (.ident s) l ((operandEnd sys (.ident s) l).add rep) := by
  obtain ⟨idx, hbad, -, -, hrun⟩ := evalIdent_eq sys hword l
  generalize operandEnd sys (.ident s) l = e at hbad hrun
  have hvar := fun v => hm.getVar s (v := v)
  have hget : getVar sys s m = some (m.vars.dictGet sys.xxh32 (some s), m) := rfl
  rw [knows_ident hword]
  unfold Defined
  generalize m.vars.dictGet sys.xxh32 (some s) = v at hvar hget
  have hnull : ∀ l', (∀ allocs n, evalAtom (sys.withAllocs allocs) (n + 1) (.ident s) l m =
      (varNull (sys.withAllocs allocs) >>= fun v => pure (v, l')) m) → OperandTo sys g m (.ident s) l l' := fun l' h =>
    .inl ⟨_, malloc_fresh .null, h⟩
  have hundef : v = none → (∀ allocs n, evalAtom (sys.withAllocs allocs) (n + 1) (.ident s) l m =
      (varNull (sys.withAllocs allocs) >>= fun v => pure (v, e.report "undefined variable '%s'" [s])) m) →
        ∃ rep, (e.error = false → (rep = [] ↔ v ≠ none)) ∧ OperandTo sys g m (.ident s) l (e.add rep) := fun hnone h =>
    ⟨[⟨"undefined variable '%s'", [s]⟩], fun _ => ⟨fun hnil => absurd hnil (List.cons_ne_nil _ _),
      fun hdef => absurd hnone hdef⟩,
      hnull _ h⟩
  have hdefined : ∀ {a}, v = some a → (e.error = false → (([] : List Report) = [] ↔ v ≠ none)) := by
    intro a hsome _
    rw [hsome]
    exact ⟨fun _ h => (by cases h), fun _ => rfl⟩
  cases idx with
  | bad =>
    refine ⟨[], fun herr => ?_, hnull _ fun allocs n => ?_⟩
    · rw [hbad rfl] at herr
      cases herr
    · rw [hrun, bind_apply, hget, Lex.add_nil]
      rfl
  | absent =>
    cases v with
    | none =>
      refine hundef rfl fun allocs n => ?_
      rw [hrun, bind_apply, hget]
      rfl
    | some v =>
      refine ⟨[], hdefined rfl, .inr ⟨v, hvar v rfl, fun allocs n => ?_⟩⟩
      rw [hrun, bind_apply, hget, Lex.add_nil]
      rfl
  | item i =>
    cases v with
    | none =>
      refine hundef rfl fun allocs n => ?_
      rw [hrun, bind_apply, hget]
      rfl
    | some v =>
      obtain ⟨b, hb, hbvar⟩ := hvar v rfl
      obtain ⟨⟨elem, m'⟩, helem, hsame, hitem⟩ := varGet_spec hm.within hm.closed hb i
      dsimp only at hsame hitem
      subst hsame
      refine ⟨[], hdefined rfl, ?_⟩
      cases elem with
      | none =>
        refine hnull _ fun allocs n => ?_
        rw [hrun, bind_apply, hget, Option.bind_some]
        dsimp only
        rw [bind_apply, helem, Lex.add_nil]
        rfl
      | some elem =>
        refine .inr ⟨elem, Block.item_isVar (hm.closed v b hb) hitem.symm, fun allocs n => ?_⟩
        rw [hrun, bind_apply, hget, Option.bind_some]
        dsimp only
        rw [bind_apply, helem, Lex.add_nil]
        rfl

/-- An operand that is no array. Without an error it reports something exactly when it is an
    undefined variable. -/
theorem operand_cases (hm : Safe sys g m) (ht : tok.type ≠ .lbracket) (l : Lex) :
    ∃ rep, ((operandEnd sys tok l).error = false → (rep = [] ↔ Knows (Defined sys m) [tok])) ∧
      OperandTo sys g m tok l ((operandEnd sys tok l).add rep) := by
  have hnew : ∀ x, Fresh m x → (∀ s, tok = .ident s → IsWord s) →
    (∀ allocs n, evalAtom (sys.withAllocs allocs) (n + 1) tok l m =
      (x allocs >>= fun v => pure (v, operandEnd sys tok l)) m) → ∃ rep, ((operandEnd sys tok l).error = false →
        (rep = [] ↔ Knows (Defined sys m) [tok])) ∧ OperandTo sys g m tok l ((operandEnd sys tok l).add rep) := by
    intro x hx hword hrun
    refine ⟨[], fun _ => ⟨fun _ => knows_other hword, fun _ => rfl⟩, .inl ⟨x, hx, fun allocs n => ?_⟩⟩
    rw [Lex.add_nil, hrun]
  cases tok with
  | lbracket => exact absurd rfl ht
  | string s => exact hnew _ (varStr_fresh s) (fun _ h => by cases h) fun _ _ => rfl
  | int i => exact hnew _ (malloc_fresh (.int i)) (fun _ h => by cases h) fun _ _ => rfl
  | float f => exact hnew _ (malloc_fresh (.float f)) (fun _ h => by cases h) fun _ _ => rfl
  | ident s =>
    by_cases hword : IsWord s
    · have hs : ∀ s', (Tok.ident s : Tok F) = .ident s' → IsWord s' := fun s' h => Tok.ident.inj h ▸ hword
      have hend := operandEnd_word sys hword l
      rcases hword with rfl | rfl | rfl
      · exact hnew _ (malloc_fresh (.bool true)) hs fun _ _ => by rw [hend]; rfl
      · exact hnew _ (malloc_fresh (.bool false)) hs fun _ _ => by rw [hend]; rfl
      · exact hnew _ (malloc_fresh .null) hs fun _ _ => by rw [hend]; rfl
    · exact ident_cases hm hword l
  | _ => exact hnew _ (malloc_fresh .null) (fun _ h => by cases h) fun _ _ => rfl

/-! ## An allocator that lets a report through -/

/-- The memory after `c` allocations that failed. -/
def Mem.starved (m : Mem F) (c : Nat) : Mem F := { m with mallocs := m.mallocs + c }

theorem Extends.starved (h : Extends g m g' m') (c : Nat) : Extends g m g' (m'.starved c) :=
  ⟨h.grows, h.closed, h.built, h.vars, h.out, h.trace, h.files⟩

theorem array_fails {allocs : Nat → Bool} (hfirst : allocs m.mallocs = false)
    (hnext : allocs (m.mallocs + 1) = false) (n : Nat)
    (l : Lex) : evalAtom (sys.withAllocs allocs) (n + 1) .lbracket l m =
      some ((none, l.report "var_array failed" []), m.starved 2) := by
  have harr : varArray (sys.withAllocs allocs) m = some (none, m.failed) := by
    unfold varArray
    rw [bind_apply, taMalloc_fails _ hfirst]
    rfl
  have hnull : varNull (sys.withAllocs allocs) m.failed = some (none, m.failed.failed) :=
    taMalloc_fails (m := m.failed) _ hnext
  unfold evalAtom
  dsimp only
  rw [bind_apply, harr, Option.bind_some]
  dsimp only
  rw [bind_apply, hnull]
  rfl

/-- When there is no memory for the first operand, an array is reported, as an undefined variable
    is anyway, and the flag stays down. -/
theorem operand_cut (hm : Safe sys g m) (tok : Tok F) (l : Lex) :
    ∃ c r rep, (∀ e, r = some e → IsVar g e) ∧
      ((operandEnd sys tok l).error = false → tok.type = .lbracket ∨ ¬ Knows (Defined sys m) [tok] → rep ≠ []) ∧
      ∀ allocs n, (∀ i, m.mallocs ≤ i → i < m.mallocs + c → allocs i = false) →
        evalAtom (sys.withAllocs allocs) (n + 1) tok l m = some ((r, (operandEnd sys tok l).add rep), m.starved c) := by
  by_cases ht : tok.type = .lbracket
  · cases tok with
    | lbracket =>
      refine ⟨2, none, [⟨"var_array failed", []⟩], fun e h => (by cases h), fun _ _ => List.cons_ne_nil _ _,
        fun allocs n hfail => ?_⟩
      exact array_fails (hfail _ (Nat.le_refl _) (by omega)) (hfail _ (by omega) (by omega)) n l
    | _ => cases ht
  · obtain ⟨rep, hrep, hto⟩ := operand_cases hm ht l
    have hloud : (operandEnd sys tok l).error = false → tok.type = .lbracket ∨
        ¬ Knows (Defined sys m) [tok] → rep ≠ [] :=
      fun herr hor hnil => hor.elim ht fun hno => hno ((hrep herr).mp hnil)
    rcases hto with ⟨x, hx, hrun⟩ | ⟨e, he, hrun⟩
    · refine ⟨1, none, rep, fun e h => (by cases h), hloud, fun allocs n hfail => ?_⟩
      rw [hrun, bind_apply, hx allocs (hfail _ (Nat.le_refl _) (Nat.lt_succ_self _))]
      rfl
    · refine ⟨0, some e, rep, fun e' h => ?_, hloud, fun allocs n _ => hrun allocs n⟩
      cases h
      exact he

/-- With this allocator the value from `p` on is evaluated with a report, and without an error;
    there is memory for whatever comes next. -/
def Unflagged (sys : Sys F) (g : SubHeap (Block F)) (p : List Byte) (m : Mem F) (allocs : Nat → Bool) : Prop :=
  ∃ v l' m' g', evalRhs (sys.withAllocs allocs) ⟨p, false, []⟩ m = some ((v, l'), m') ∧ l'.error = false ∧
    l'.trace ≠ [] ∧
    (∀ i, m'.mallocs ≤ i → allocs i = true) ∧ Extends g m g' m' ∧ ∀ e, v = some e → IsVar g' e

theorem orNull_run (hm : Safe sys g m) {r : Option Addr} (hr : ∀ e, r = some e → IsVar g e) (allocs : Nat → Bool) :
    ∃ v m' g', orNull (sys.withAllocs allocs) r m = some (v, m') ∧ m.mallocs ≤ m'.mallocs ∧ Extends g m g' m' ∧
      ∀ e, v = some e → IsVar g' e := by
  obtain ⟨⟨v, m'⟩, hrun, ⟨g', hext, hval, -⟩, hkept⟩ := (orNull_spec (hm.withAllocs allocs) hr).and (orNull_keeps r m)
  exact ⟨v, m', g', hrun, hkept.mallocs, hext, hval.1⟩

/-- A value that is no single operand: there is an allocator that lets a report through. It fails
    for the first operand and for the buffer of a concatenation. -/
theorem rhs_cut (hm : Safe sys g m) (hno : ¬ SingleOperand sys m p) :
    ∃ allocs : Nat → Bool, (∀ i < m.mallocs, allocs i = true) ∧ Unflagged sys g p m allocs := by
  unfold SingleOperand at hno
  obtain ⟨t, q, errs, -, hnext, -⟩ := scan_cases sys ⟨p, false, []⟩
  rw [hnext] at hno
  dsimp only at hno
  generalize (⟨p, false, []⟩ : Lex).after q errs = l at hnext hno
  obtain ⟨c, r, rep, hr, hrep, hrun⟩ := operand_cut hm t l
  obtain ⟨t₂, q₂, errs₂, hscan, -, hpeek⟩ := scan_cases sys (operandEnd sys t l)
  rw [hpeek, not_or, not_or] at hno
  obtain ⟨hend, hflag, hrest⟩ := hno
  generalize operandEnd sys t l = e at hrun hrep hscan hflag
  obtain ⟨herr, rfl⟩ := after_error.mp (Bool.eq_false_iff.mpr hflag)
  have hpeek' : peekTok sys (e.add rep) = (t₂, e.add rep) := by
    rw [peek_of_scan (l := e.add rep) hscan, after_self]
  have hsafe : Extends g m g (m.starved c) := hm.refl.starved c
  -- The first operand finds no memory, if it asks for any.
  have hfirst : ∀ allocs : Nat → Bool, (∀ i, m.mallocs ≤ i → i < m.mallocs + c → allocs i = false) →
      evalRhs (sys.withAllocs allocs) ⟨p, false, []⟩ m = rhsTail (sys.withAllocs allocs) (r, e.add rep)
          (m.starved c) := by
    intro allocs hfail
    have hvalue : ¬ (t.type = .eof ∨ t.type = .hash) := hend
    rw [evalRhs_eq, nextTok_withAllocs, hnext]
    dsimp only
    rw [if_neg hvalue, bind_apply, hrun allocs _ hfail]
    rfl
  by_cases hplus : t₂.type = .plus
  · -- The buffer is asked for next.
    let allocs : Nat → Bool := fun i => decide (i < m.mallocs ∨ m.mallocs + c < i)
    have hfails : ∀ i, m.mallocs ≤ i → i ≤ m.mallocs + c → allocs i = false := fun i h h' => decide_eq_false (by omega)
    have hbuf : taMalloc (sys.withAllocs allocs) (.raw CFG_CONCAT_INIT_CAP) (m.starved c) =
        some (none, (m.starved c).failed) :=
      taMalloc_fails (m := m.starved c) _ (hfails _ (Nat.le_add_right _ _) (Nat.le_refl _))
    obtain ⟨v, m', g', hnull, hle, hext, hv⟩ :=
      orNull_run ((hm.extend hsafe).extend (hm.extend hsafe).refl.failed) hr allocs
    refine ⟨allocs, fun i hi => decide_eq_true (.inl hi), v,
      (e.add rep).report "ta_malloc failed for %zu bytes" [decimalNat CFG_CONCAT_INIT_CAP], m', g', ?_, herr, ?_,
      fun i hi => ?_,
      hsafe.failed.trans hext, hv⟩
    · rw [hfirst allocs fun i h h' => hfails i h (Nat.le_of_lt h')]
      unfold rhsTail
      dsimp only
      rw [peekTok_withAllocs, hpeek']
      dsimp only
      rw [if_neg (not_not.mpr hplus), bind_apply, hbuf, Option.bind_some]
      dsimp only
      rw [bind_apply, hnull]
      rfl
    · exact List.append_ne_nil_of_right_ne_nil _ (List.cons_ne_nil _ _)
    · exact decide_eq_true (.inr (Nat.lt_of_lt_of_le (Nat.lt_succ_self _) (Nat.le_trans hle hi)))
  · have hloud : rep ≠ [] := by
      refine hrep herr ?_
      by_contra hnone
      rw [not_or, not_not] at hnone
      exact hrest ⟨hnone.1, hplus, hnone.2⟩
    let allocs : Nat → Bool := fun i => decide (i < m.mallocs ∨ m.mallocs + c ≤ i)
    obtain ⟨v, m', g', hnull, hle, hext, hv⟩ := orNull_run (hm.extend hsafe) hr allocs
    refine ⟨allocs, fun i hi => decide_eq_true (.inl hi), v, e.add rep, m', g', ?_, herr, ?_, fun i hi => ?_,
      hsafe.trans hext, hv⟩
    · rw [hfirst allocs fun i h h' => decide_eq_false (by omega)]
      unfold rhsTail
      dsimp only
      rw [peekTok_withAllocs, hpeek']
      dsimp only
      rw [if_pos hplus, bind_apply, hnull]
      rfl
    · exact List.append_ne_nil_of_right_ne_nil _ hloud
    · exact decide_eq_true (.inr (Nat.le_trans hle hi))

/-! ## Single operands -/

theorem Quiet.start (h : Quiet ⟨p, false, []⟩ l) : l.error = true ∨ l.trace = [] := by
  cases herr : l.error with
  | true => exact .inl rfl
  | false => exact .inr (h herr).2

/-- The lexer after an operand that is no array, whichever allocations succeed. -/
theorem operand_lex (hm : Safe sys g m) (ht : tok.type ≠ .lbracket) (l : Lex) (n : Nat) :
    ∃ rep, ((operandEnd sys tok l).error = false → (rep = [] ↔ Knows (Defined sys m) [tok])) ∧
      wlp (evalAtom sys (n + 1) tok l) (fun r _ => r.2 = (operandEnd sys tok l).add rep) m := by
  obtain ⟨rep, hrep, hto⟩ := operand_cases hm ht l
  refine ⟨rep, hrep, fun r m' hr => ?_⟩
  rcases hto with ⟨x, -, hrun⟩ | ⟨e, -, hrun⟩
  · obtain ⟨v, -, hv⟩ := Option.bind_eq_some_iff.mp ((hrun sys.mallocOk n).symm.trans hr)
    cases hv
    rfl
  · cases (hrun sys.mallocOk n).symm.trans hr
    rfl

/-- A malformed token, up to the one behind the operand, is seen. -/
theorem operand_flag (hm : Safe sys g m) (hflag : (peekTok sys (operandEnd sys tok l)).2.error = true) (n : Nat) :
    wlp (evalAtom sys (n + 1) tok l) (fun r _ => (peekTok sys r.2).2.error = true) m := by
  by_cases ht : tok.type = .lbracket
  · cases tok with
    | lbracket =>
      have hflag' : (peekTok sys l).2.error = true := hflag
      unfold evalAtom
      refine (varArray_keeps m).bind fun arr m₁ _ => ?_
      cases arr with
      | none => exact (varNull_keeps m₁).bind fun _ _ _ => wlp_pure hflag'
      | some arr =>
        refine (evalItems_reports (evalAtom_reports n) arr _ l m₁).bind fun l₁ m₂ hitems => ?_
        obtain ⟨t₁, q₁, errs₁, -, -, hpeek₁⟩ := scan_cases sys l₁
        have herr : (l₁.after l₁.p errs₁).error = true := after_keeps (hitems.2.error hflag')
        rw [hpeek₁]
        dsimp only
        split
        · exact wlp_pure (next_keeps (next_keeps herr))
        · exact wlp_pure (next_keeps herr)
    | _ => cases ht
  · obtain ⟨rep, -, hlex⟩ := operand_lex hm ht l n
    refine hlex.mono fun r _ hr => ?_
    rw [hr]
    exact hflag

/-- A value that is a single operand is evaluated with an error or without a report. -/
theorem rhs_single (hm : Safe sys g m) (h : SingleOperand sys m p) :
    wlp (evalRhs sys ⟨p, false, []⟩) (fun r _ => r.2.error = true ∨ r.2.trace = []) m := by
  unfold SingleOperand at h
  obtain ⟨t, q, errs, -, hnext, -⟩ := scan_cases sys ⟨p, false, []⟩
  have hquiet : Quiet ⟨p, false, []⟩ ((⟨p, false, []⟩ : Lex).after q errs) := .after _ _ _
  generalize (⟨p, false, []⟩ : Lex).after q errs = l at hnext hquiet
  rw [evalRhs_eq, hnext]
  rw [hnext] at h
  dsimp only at h ⊢
  by_cases hend : t.type = .eof ∨ t.type = .hash
  · rw [if_pos hend]
    exact (varNull_keeps m).bind fun _ _ _ => wlp_pure hquiet.start
  rw [if_neg hend]
  have hrest := h.resolve_left hend
  by_cases hflag : (peekTok sys (operandEnd sys t l)).2.error = true
  · refine (operand_flag hm hflag l.p.length).bind fun v m₁ hv => ?_
    exact (rhsTail_reports v m₁).mono fun r m' hpost => .inl (hpost.2.error hv)
  · obtain ⟨ht, hplus, hknows⟩ := hrest.resolve_left hflag
    obtain ⟨rep, hrep, hlex⟩ := operand_lex hm ht l l.p.length
    obtain ⟨t₂, q₂, errs₂, -, -, hpeek⟩ := scan_cases sys (operandEnd sys t l)
    rw [hpeek] at hflag hplus
    have herr := (after_error.mp (Bool.eq_false_iff.mpr hflag)).1
    have hall : Quiet ⟨p, false, []⟩ ((operandEnd sys t l).after (operandEnd sys t l).p errs₂) :=
      (hquiet.trans (operandEnd_quiet t l)).trans (.after _ _ _)
    rw [(hrep herr).mpr hknows, Lex.add_nil] at hlex
    refine hlex.bind fun v m₁ hv => ?_
    unfold rhsTail
    rw [hv, hpeek]
    dsimp only
    rw [if_pos hplus]
    exact (orNull_keeps _ m₁).bind fun _ _ _ => wlp_pure hall.start

end KanekFoundations.Cfg

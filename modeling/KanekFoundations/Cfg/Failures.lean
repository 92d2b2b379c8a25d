/-
  KanekFoundations.Cfg.Failures — assignments that are answered with -1.

  The evaluator goes on behind a malformed token, with null or without the item, and the
  variable is set to what the right-hand side came to before the flag decides the answer.

  `Tail sys d p`: the rest of a right-hand side of the grammar, from a position inside `d`
  of its arrays. An array that finds no memory leaves the evaluator there.

  Proved, for every memory and every outcome of the allocations:
  - `accepted_unflagged`: along the grammar the flag is not raised;
  - `failed_assignment`: an assignment that is answered with -1 leaves all other variables as
    they were, and all variables when its line is of the grammar.
-/

import KanekFoundations.Cfg.Texts

namespace KanekFoundations.Cfg

open KanekFoundations.Lib

variable {F : Type} {sys : Sys F} {g g' g₀ : SubHeap (Block F)} {m m' m₀ : Mem F} {l l' : Lex}
  {p q q' r : List Byte} {tok : Tok F} {d n k : Nat} {arr : Addr}

/-! ## Behind an array that could not be made -/

/-- What is left of an accepted right-hand side, with `d` of its arrays open. -/
inductive Tail (sys : Sys F) : Nat → List Byte → Prop
  | more {p r : List Byte} : AcceptsMore sys False p r → Tail sys 0 p
  | items {d : Nat} {p q r : List Byte} :
    AcceptsItems sys False p q → Reads sys q .rbracket r → Tail sys d r → Tail sys (d + 1) p
  | last {d : Nat} {p q r : List Byte} {t : Tok F} :
    AcceptsItems sys False p q → Reads sys q t r → t.Ends → Tail sys (d + 1) p

/-- The items that are left of the innermost array; what they are does not matter for the rest. -/
theorem Tail.left (h : Tail sys (d + 1) p) :
    ∃ q, AcceptsItems sys False p q ∧ ∀ p', AcceptsItems sys False p' q → Tail sys (d + 1) p' := by
  cases h with
  | items hitems hr htail => exact ⟨_, hitems, fun _ h => .items h hr htail⟩
  | last hitems hr hend => exact ⟨_, hitems, fun _ h => .last h hr hend⟩

theorem rbracket_stops (hr : Reads sys p .rbracket r) (h : AcceptsItems sys False p q) : q = p := by
  cases h with
  | stop => rfl
  | comma hr' => cases (hr.unique hr').1
  | item hr' hstart =>
    cases (hr.unique hr').1
    exact absurd hstart (by simp [Tok.StartsItem, Tok.type])

/-- A bracket closes the innermost array. -/
theorem Tail.close (h : Tail sys (d + 1) p) (hr : Reads sys p .rbracket r) : Tail sys d r := by
  cases h with
  | items hitems hr' htail =>
    obtain rfl := rbracket_stops hr hitems
    cases (hr.unique hr').2
    exact htail
  | last hitems hr' hend =>
    obtain rfl := rbracket_stops hr hitems
    cases (hr.unique hr').1
    exact absurd hend (by simp [Tok.Ends, Tok.type])

/-- The evaluator is at least as deep in the derivation, and the flag is as before. -/
def Deeper (sys : Sys F) (d : Nat) (l l' : Lex) : Prop := l'.error = l.error ∧ ∃ d', d ≤ d' ∧ Tail sys d' l'.p

/-- An operand that is no array raises no flag. -/
theorem accepted_end (h : AcceptsAtom sys False tok l.p q) (ht : tok.type ≠ .lbracket) :
    Lex.Went l (operandEnd sys tok l) q false := by
  cases h with
  | string | int | float => exact .refl l
  | word _ hword =>
    rw [operandEnd_word sys hword]
    exact .refl l
  | @var s _ _ t hword hr hne =>
    have hpeek : peekTok sys l = (t, l.after l.p []) := peek_of_scan hr
    unfold operandEnd
    dsimp only
    rw [if_neg hword, hpeek]
    dsimp only
    rw [if_neg hne]
    exact .after l l.p []
  | @index s _ q₁ q₂ _ i hword hr hi hclose =>
    have hpeek : peekTok sys l = (.lbracket, l.after l.p []) := peek_of_scan hr
    have hopen : nextTok sys (l.after l.p []) = (.lbracket, (l.after l.p []).after q₁ []) := next_of_scan hr
    have hidx : nextTok sys ((l.after l.p []).after q₁ []) = (.int i, ((l.after l.p []).after q₁ []).after q₂ []) :=
      next_of_scan hi
    have hlast : nextTok sys (((l.after l.p []).after q₁ []).after q₂ []) =
        (.rbracket, (((l.after l.p []).after q₁ []).after q₂ []).after q []) := next_of_scan hclose
    unfold operandEnd
    dsimp only
    rw [if_neg hword, hpeek]
    dsimp only
    rw [hopen]
    dsimp only
    rw [hidx]
    dsimp only
    rw [hlast]
    exact (((Lex.Went.after l l.p []).trans (.after _ q₁ [])).trans (.after _ q₂ [])).trans (.after _ q [])
  | array | openArray => exact absurd rfl ht
  | noArray _ hno => exact hno.elim
  | other _ hstart =>
    cases tok with
    | ident s => exact absurd (ident_startsItem s) hstart
    | _ => exact .refl l

/-- The evaluator on an operand of a derivation, whether or not its arrays are made. -/
def AtomDeeper (sys : Sys F) (n : Nat) : Prop :=
  ∀ {tok : Tok F} {q : List Byte} {d : Nat} (l : Lex) (m : Mem F), AcceptsAtom sys False tok l.p q → Tail sys d q →
    wlp (evalAtom sys n tok l) (fun r _ => Deeper sys d l r.2) m

/-- The loop of an array, from a position in a derivation: it ends in front of a token that ends an
    array of the derivation, its own or one that it is deeper in. -/
theorem evalItems_deeper (hatom : AtomDeeper sys n) {d₁ : Nat} (hd : d + 1 ≤ d₁) (htail : Tail sys d₁ l.p) (m : Mem F) :
    wlp (evalItems sys (evalAtom sys n) arr k l) (fun l' _ => Deeper sys (d + 1) l l' ∧
      ∃ (t : Tok F) (r : List Byte), Reads sys l'.p t r ∧ (t.type = .rbracket ∨ t.Ends)) m := by
  induction k generalizing d₁ l m with
  | zero => exact fun _ _ h => by cases h
  | succ k ih =>
    obtain ⟨d₂, rfl⟩ := Nat.exists_eq_add_of_le' (Nat.le_trans (Nat.le_add_left 1 d) hd)
    obtain ⟨q, hitems, hback⟩ := htail.left
    cases hitems with
    | @stop _ q₁ t hr hend =>
      have hpeek : peekTok sys l = (t, l.after l.p []) := peek_of_scan hr
      have hdone : Deeper sys (d + 1) l (l.after l.p []) := ⟨Bool.or_false _, d₂ + 1, hd, htail⟩
      rw [evalItems_end hpeek hend]
      exact wlp_pure ⟨hdone, _, _, hr, hend⟩
    | @comma _ q₁ _ hr hrest =>
      have hpeek : peekTok sys l = (.comma, l.after l.p []) := peek_of_scan hr
      have hnext : nextTok sys (l.after l.p []) = (.comma, (l.after l.p []).after q₁ []) := next_of_scan hr
      rw [evalItems_comma hpeek, hnext]
      refine (ih (l := (l.after l.p []).after q₁ []) hd (hback q₁ hrest) m).mono fun l' _ hpost => ?_
      obtain ⟨⟨herr, hdeep⟩, hend⟩ := hpost
      exact ⟨⟨herr.trans (by simp [Lex.after]), hdeep⟩, hend⟩
    | @item _ q₁ q₂ _ t hr hstart hacc hrest =>
      have hpeek : peekTok sys l = (t, l.after l.p []) := peek_of_scan hr
      have hnext : nextTok sys (l.after l.p []) = (t, (l.after l.p []).after q₁ []) := next_of_scan hr
      rw [evalItems_item hpeek hstart, hnext]
      refine (hatom ((l.after l.p []).after q₁ []) m hacc (hback q₂ hrest)).bind fun res m₁ hpost => ?_
      obtain ⟨item, l₁⟩ := res
      obtain ⟨herr, d', hd', htail'⟩ := hpost
      have hflag : l₁.error = l.error := herr.trans (by simp [Lex.after])
      have hgo : ∀ m₂, wlp (evalItems sys (evalAtom sys n) arr k l₁) (fun l' _ => Deeper sys (d + 1) l l' ∧
          ∃ (t : Tok F) (r : List Byte), Reads sys l'.p t r ∧ (t.type = .rbracket ∨ t.Ends)) m₂ := by
        refine fun m₂ => (ih (Nat.le_trans hd hd') htail' m₂).mono fun l' _ hpost => ?_
        obtain ⟨⟨herr', hdeep⟩, hend⟩ := hpost
        exact ⟨⟨herr'.trans hflag, hdeep⟩, hend⟩
      cases item with
      | none => exact hgo m₁
      | some item => exact (varPush_keeps _ _ m₁).bind fun _ m₂ _ => hgo m₂

/-- What an array literal opens. -/
theorem Tail.opened (h : AcceptsAtom sys False .lbracket p q) (htail : Tail sys d q) : Tail sys (d + 1) p := by
  cases h with
  | array hitems hr => exact .items hitems hr htail
  | openArray hitems hr hend => exact .last hitems hr hend
  | noArray _ hno => exact hno.elim
  | other _ hstart => exact absurd (by simp [Tok.StartsItem, Tok.type]) hstart

theorem evalAtom_deeper (n : Nat) : AtomDeeper sys n := by
  induction n with
  | zero => exact fun _ _ _ _ _ _ h => by cases h
  | succ n ih =>
    intro tok q d l m hacc htail
    by_cases ht : tok.type = .lbracket
    · cases tok with
      | lbracket =>
        have hopen := htail.opened hacc
        unfold evalAtom
        refine (varArray_keeps m).bind fun arr m₁ _ => ?_
        cases arr with
        | none => exact (varNull_keeps m₁).bind fun _ _ _ => wlp_pure ⟨rfl, d + 1, Nat.le_succ d, hopen⟩
        | some arr =>
          refine (evalItems_deeper ih (Nat.le_refl (d + 1)) hopen m₁).bind fun l₁ m₂ hpost => ?_
          obtain ⟨⟨herr, d', hd', htail'⟩, t, r, hr, hend⟩ := hpost
          obtain ⟨d'', rfl⟩ := Nat.exists_eq_add_of_le' (Nat.le_trans (Nat.le_add_left 1 d) hd')
          have hpeek : peekTok sys l₁ = (t, l₁.after l₁.p []) := peek_of_scan hr
          have hnext : nextTok sys (l₁.after l₁.p []) = (t, (l₁.after l₁.p []).after r []) := next_of_scan hr
          have hflag : (l₁.after l₁.p []).error = l.error := (Bool.or_false _).trans herr
          rw [hpeek]
          dsimp only
          by_cases hb : t.type = .rbracket
          · rw [if_pos hb, hnext]
            cases t with
            | rbracket => exact wlp_pure ⟨(Bool.or_false _).trans hflag, d'', Nat.le_of_succ_le_succ hd',
                htail'.close hr⟩
            | _ => cases hb
          · rw [if_neg hb]
            exact wlp_pure ⟨hflag, d'' + 1, Nat.le_of_succ_le hd', htail'⟩
      | _ => cases ht
    · refine (atom_end ht (accepted_end hacc ht) (n + 1) m).mono fun res _ hwent => ?_
      have hplace := hwent.place
      subst hplace
      exact ⟨hwent.error.trans (Bool.or_false _), d, Nat.le_refl d, htail⟩

/-! ## Right-hand sides -/

theorem not_startsPlus {t : Tok F} (h : t.type = .plus) : ¬ t.StartsItem := by
  rintro (hs | hs | hs | hs | hs) <;> rw [h] at hs <;> cases hs

theorem items_reads (h : AcceptsItems sys False p q) : ∃ (t : Tok F) (r : List Byte), Reads sys p t r ∧
    t.type ≠ .plus := by
  cases h with
  | stop hr hend => exact ⟨_, _, hr, fun hplus => by rcases hend with h | h | h <;> rw [hplus] at h <;> cases h⟩
  | comma hr => exact ⟨_, _, hr, fun h => by cases h⟩
  | item hr hstart => exact ⟨_, _, hr, fun h => absurd hstart (not_startsPlus h)⟩

/-- The next token is well formed, and a `+` only behind a whole operand. -/
theorem Tail.reads (h : Tail sys d p) : ∃ (t : Tok F) (r : List Byte), Reads sys p t r ∧ (t.type = .plus → d = 0) := by
  cases h with
  | more hmore =>
    cases hmore with
    | stop hr | dangling hr | plus hr => exact ⟨_, _, hr, fun _ => rfl⟩
    | cut _ hno => exact hno.elim
  | items hitems | last hitems =>
    obtain ⟨t, r, hr, hne⟩ := items_reads hitems
    exact ⟨t, r, hr, fun h => absurd h hne⟩

theorem Tail.whole (h : Tail sys 0 p) : ∃ r, AcceptsMore sys False p r := by
  cases h with
  | more hmore => exact ⟨_, hmore⟩

/-- What the loop does with the value of an operand: the lexer goes on from where it is. -/
theorem operandTail_unraised {v : Option Addr × Lex}
    (hrest : ∀ buf len cap m, wlp (concatLoop sys k buf len cap v.2) (fun r _ => r.2.error = v.2.error) m) (buf : Addr)
    (len cap : Nat) (m : Mem F) : wlp (operandTail sys k buf len cap v) (fun r _ => r.2.error = v.2.error) m := by
  unfold operandTail
  refine (varToStr_keeps _ m).bind fun rs m₁ _ => (textOf_keeps _ m₁).bind fun text m₂ _ => ?_
  dsimp only
  refine wlp.ite_bind (reallocBuf_keeps _ _ m₂) (pure_keeps buf m₂) fun newbuf m₃ _ => ?_
  cases newbuf with
  | none => exact (taFree_keeps _ m₃).bind fun _ _ _ => wlp_pure rfl
  | some buf =>
    cases rs with
    | none => exact (taFree_keeps _ m₃).bind fun _ m₄ _ => hrest _ _ _ m₄
    | some c => exact (memcpy_keeps _ _ _ m₃).bind fun _ m₄ _ => (taFree_keeps _ m₄).bind fun _ m₅ _ => hrest _ _ _ m₅

theorem concatLoop_unraised (htail : Tail sys d l.p) (k : Nat) (buf : Addr) (len cap : Nat) (m : Mem F) :
    wlp (concatLoop sys k buf len cap l) (fun r _ => r.2.error = l.error) m := by
  induction k generalizing d l buf len cap m with
  | zero => exact fun _ _ h => by cases h
  | succ k ih =>
    obtain ⟨t, q, hr, hinner⟩ := htail.reads
    have hpeek : peekTok sys l = (t, l.after l.p []) := peek_of_scan hr
    have hnext : nextTok sys (l.after l.p []) = (t, (l.after l.p []).after q []) := next_of_scan hr
    have hsame : ((l.after l.p []).after q []).error = l.error := (Bool.or_false _).trans (Bool.or_false _)
    rw [concatLoop_eq, hpeek]
    dsimp only
    by_cases ht : t.type ≠ .plus
    · rw [if_pos ht]
      exact wlp_pure (Bool.or_false _)
    rw [if_neg ht, hnext]
    dsimp only
    rw [not_not] at ht
    obtain rfl := hinner ht
    obtain ⟨s, hmore⟩ := htail.whole
    cases hmore with
    | stop hr' hne =>
      cases (hr.unique hr').1
      exact absurd ht hne
    | cut _ hno => exact hno.elim
    | @dangling _ q₁ _ t₂ hr' hr₂ hend =>
      obtain ⟨-, rfl⟩ := hr.unique hr'
      have hlast : nextTok sys ((l.after l.p []).after q₁ []) = (t₂, ((l.after l.p []).after q₁ []).after s []) :=
        next_of_scan hr₂
      have hstop : t₂.type = .eof ∨ t₂.type = .hash := hend
      rw [hlast]
      dsimp only
      rw [if_pos hstop]
      exact wlp_pure ((Bool.or_false _).trans hsame)
    | @plus _ q₁ q₂ q₃ _ t₂ hr' hr₂ hend hacc hrest =>
      obtain ⟨-, rfl⟩ := hr.unique hr'
      have hlead : nextTok sys ((l.after l.p []).after q₁ []) = (t₂, ((l.after l.p []).after q₁ []).after q₂ []) :=
        next_of_scan hr₂
      have hvalue : ¬ (t₂.type = .eof ∨ t₂.type = .hash) := hend
      rw [hlead]
      dsimp only
      rw [if_neg hvalue]
      refine (evalAtom_deeper _ (((l.after l.p []).after q₁ []).after q₂ []) m hacc (.more hrest)).bind
        fun v m₁ hdeep => ?_
      obtain ⟨herr, d', -, htail'⟩ := hdeep
      have hflag : v.2.error = l.error := herr.trans ((Bool.or_false _).trans hsame)
      refine (operandTail_unraised (fun buf len cap m => ih htail' buf len cap m) buf len cap m₁).mono
        fun _ _ h => h.trans hflag

theorem rhsTail_unraised {v : Option Addr × Lex} (htail : Tail sys d v.2.p) (m : Mem F) :
    wlp (rhsTail sys v) (fun r _ => r.2.error = v.2.error) m := by
  obtain ⟨t, q, hr, -⟩ := htail.reads
  have hpeek : peekTok sys v.2 = (t, v.2.after v.2.p []) := peek_of_scan hr
  have hsame : (v.2.after v.2.p []).error = v.2.error := Bool.or_false _
  have hvalue : ∀ (l' : Lex) m₁, l'.error = v.2.error →
      wlp (do return (← orNull sys v.1, l')) (fun r _ => r.2.error = v.2.error) m₁ := fun l' m₁ hl' =>
    (orNull_keeps v.1 m₁).bind fun _ _ _ => wlp_pure hl'
  unfold rhsTail
  rw [hpeek]
  dsimp only
  by_cases ht : t.type ≠ .plus
  · rw [if_pos ht]
    exact hvalue _ m hsame
  rw [if_neg ht]
  refine (taMalloc_keeps _ m).bind fun buf m₁ _ => ?_
  cases buf with
  | none => exact hvalue _ m₁ hsame
  | some buf =>
    refine (varToStr_keeps _ m₁).bind fun rs0 m₂ _ => (textOf_keeps _ m₂).bind fun text m₃ _ => ?_
    refine wlp.ite_bind (reallocBuf_keeps _ _ m₃) (pure_keeps buf m₃) fun newbuf m₄ _ => ?_
    cases newbuf with
    | none => exact (taFree_keeps _ m₄).bind fun _ m₅ _ => hvalue _ m₅ hsame
    | some buf =>
      refine (memcpy_keeps _ _ _ m₄).bind fun _ m₅ _ => (taFree_keeps _ m₅).bind fun _ m₆ _ => ?_
      refine (concatLoop_unraised (l := v.2.after v.2.p []) htail _ buf _ _ m₆).bind fun r m₇ herr => ?_
      refine (cstr_keeps _ m₇).bind fun result m₈ _ => (varStr_keeps _ m₈).bind fun res m₉ _ => ?_
      refine (taFree_keeps _ m₉).bind fun _ m₁₀ _ => ?_
      exact (orNull_keeps res m₁₀).bind fun _ _ _ => wlp_pure (herr.trans hsame)

/-- Without a malformed token the flag is not raised, whichever allocations succeed. -/
theorem accepted_unflagged (h : AcceptsRhs sys False l.p r) (m : Mem F) :
    wlp (evalRhs sys l) (fun r _ => r.2.error = l.error) m := by
  rw [evalRhs_eq]
  cases h with
  | @empty _ t hr hend =>
    have hnext : nextTok sys l = (t, l.after r []) := next_of_scan hr
    have hstop : t.type = .eof ∨ t.type = .hash := hend
    rw [hnext]
    dsimp only
    rw [if_pos hstop]
    exact (varNull_keeps m).bind fun _ _ _ => wlp_pure (Bool.or_false _)
  | @value q q' _ t hr hend hacc hmore =>
    have hnext : nextTok sys l = (t, l.after q []) := next_of_scan hr
    have hvalue : ¬ (t.type = .eof ∨ t.type = .hash) := hend
    rw [hnext]
    dsimp only
    rw [if_neg hvalue]
    refine (evalAtom_deeper _ (l.after q []) m hacc (.more hmore)).bind fun v m₁ hdeep => ?_
    obtain ⟨herr, d, -, htail⟩ := hdeep
    exact (rhsTail_unraised htail m₁).mono fun _ _ h => h.trans (herr.trans (Bool.or_false _))

/-! ## The store -/

/-- The entries of the other keys are as before. -/
def OthersKept (key : List Byte) (m m' : Mem F) : Prop :=
  ∀ e : Dict.Entry (List Byte) Addr, e.key ≠ key → (e ∈ m'.vars.entries ↔ e ∈ m.vars.entries)

/-- What the end of an assignment leaves of the variables; `e` is its flag. -/
structure Leaves (key : List Byte) (e : Bool) (m : Mem F) (rc : Int) (m' : Mem F) : Prop where
  others : OthersKept key m m'
  same : rc = -1 → e = false → m'.vars = m.vars

theorem Leaves.of_vars {key : List Byte} {e : Bool} {rc : Int} (hvars : m₀.vars = m.vars) (h : Leaves key e m₀ rc m') :
    Leaves key e m rc m' := by
  obtain ⟨hothers, hsame⟩ := h
  unfold OthersKept at hothers
  rw [hvars] at hothers hsame
  exact ⟨hothers, hsame⟩

theorem setTail_leaves (hinv : Dict.Inv sys.xxh32 m.vars) (key : List Byte) (val : Option Addr) :
    wlp (setTail sys key (val, l)) (Leaves key l.error m) m := by
  obtain ⟨hothers, hsame⟩ := Dict.dictSet_others hinv key val (sys.mallocOk m.mallocs) (sys.mallocOk (m.mallocs + 1))
  have hset : wlp (setVar sys key val) (fun rc m₁ => OthersKept key m m₁ ∧ (rc < 0 → m₁.vars = m.vars)) m := by
    intro rc m₁ h
    cases h
    exact ⟨hothers, hsame⟩
  unfold setTail
  refine hset.bind fun rc m₁ hpost => ?_
  obtain ⟨hothers₁, hsame₁⟩ := hpost
  intro rc' m' h
  cases h
  refine ⟨hothers₁, fun hfail herr => ?_⟩
  dsimp only at hfail
  rw [herr] at hfail
  by_cases hrc : rc < 0
  · exact hsame₁ hrc
  · rw [if_neg (by simp [hrc])] at hfail
    cases hfail

/-- `+=` builds its string before the variable is touched. -/
theorem appendTail_leaves (hinv : Dict.Inv sys.xxh32 m.vars) (key : List Byte) (es val : Option Addr) :
    wlp (appendTail sys key es (val, l)) (Leaves key l.error m) m := by
  refine appendTail_cases key es (val, l) m (fun _ _ hkept => ?_) fun res m₁ hkept => ?_
  · exact .of_vars hkept.vars ⟨fun _ _ => Iff.rfl, fun _ _ => rfl⟩
  · exact (setTail_leaves (hkept.vars ▸ hinv) key res).mono fun _ _ hleaves => hleaves.of_vars hkept.vars

/-! ## Lines -/

/-- The run of an assignment: it keeps the other variables, and all of them when it answers -1 to
    a right-hand side without a malformed token. -/
structure Assigned (sys : Sys F) (key p : List Byte) (m : Mem F) (rc : Int) (m' : Mem F) : Prop where
  others : OthersKept key m m'
  same : rc = -1 → (∃ r, AcceptsRhs sys False p r) → m'.vars = m.vars
  defined : sys.NoFail → Defined sys m' key

theorem Assigned.of_vars {key : List Byte} {rc : Int} (hvars : m₀.vars = m.vars) (h : Assigned sys key p m₀ rc m') :
    Assigned sys key p m rc m' := by
  obtain ⟨hothers, hsame, hdefined⟩ := h
  unfold OthersKept at hothers
  rw [hvars] at hothers hsame
  exact ⟨hothers, hsame, hdefined⟩

/-- The evaluation in front of the store; `store` is the end of either form. -/
theorem rhs_assigned (hm : Safe sys g m) (key p : List Byte) {store : Option Addr × Lex → M F Int}
    (hleaves : ∀ val (l : Lex) (m₁ : Mem F), Dict.Inv sys.xxh32 m₁.vars →
      wlp (store (val, l)) (Leaves key l.error m₁) m₁)
    (hstored : ∀ g₁ m₁ val (l : Lex), Extends g m g₁ m₁ → IsVal sys g₁ val →
      wp (store (val, l)) (fun _ m' => sys.NoFail → Defined sys m' key) m₁) :
    wp (evalRhs sys ⟨p, false, []⟩ >>= store) (Assigned sys key p m) m := by
  have hflag : wlp (evalRhs sys ⟨p, false, []⟩) (fun res _ => (∃ r, AcceptsRhs sys False p r) →
      res.2.error = false) m := by
    intro res m₁ hrun hacc
    obtain ⟨r, hacc⟩ := hacc
    exact accepted_unflagged (l := ⟨p, false, []⟩) hacc m _ _ hrun
  refine wp.bind (((evalRhs_spec hm).and hflag)) ?_
  intro res m₁ hpost
  obtain ⟨val, l'⟩ := res
  obtain ⟨⟨-, g₁, hext, hval⟩, hdown⟩ := hpost
  refine ((hstored g₁ m₁ val l' hext hval).and (hleaves val l' m₁ (hm.extend hext).inv)).mono fun rc m' hpost => ?_
  obtain ⟨hdefined, hpost⟩ := hpost
  exact .of_vars hext.vars ⟨hpost.others, fun hrc hacc => hpost.same hrc (hdown hacc), hdefined⟩

/-- In a store with memory for everything a value gets to its key. -/
theorem Stored.defined (hyes : sys.NoFail) {key : List Byte} {rc : Int}
    (h : Stored sys g m l key (fun _ val => sys.NoFail → val ≠ none) rc m') : Defined sys m' key := by
  obtain ⟨-, -, -, g', val, -, -, hval, hok⟩ := h
  unfold Defined
  rw [(hok hyes).2 key, if_pos rfl]
  exact hval hyes

theorem assign_assigned (hm : Safe sys g m) (key p : List Byte) :
    wp (evalRhs sys ⟨p, false, []⟩ >>= setTail sys key) (Assigned sys key p m) m := by
  refine rhs_assigned hm key p (fun val l m₁ hinv => setTail_leaves hinv key val) fun g₁ m₁ val l hext hval => ?_
  exact (store_spec (hm.extend hext) key hval (P := fun _ val => sys.NoFail → val ≠ none) hval.2).mono
      fun _ _ hst hyes =>
    hst.defined hyes

theorem append_assigned (hm : Safe sys g m) (key p : List Byte) :
    wp (oldText sys key >>= fun es => evalRhs sys ⟨p, false, []⟩ >>= appendTail sys key es)
      (Assigned sys key p m) m := by
  refine wp.bind (oldText_spec hm key) ?_
  intro es m₀ hpost
  obtain ⟨text, hext₀, hok, hbuf⟩ := hpost
  have hm₀ := hm.extend hext₀
  refine (rhs_assigned hm₀ key p (fun val l m₁ hinv => appendTail_leaves hinv key es val) ?_).mono fun _ _ h =>
    h.of_vars hext₀.vars
  intro g₁ m₁ val l hext hval
  have hes : ∀ c, es = some c → ∃ cap, m₁.heap.get c = some (.chars cap text) := by
    intro c hc
    obtain ⟨-, cap, hget⟩ := hbuf c hc
    exact ⟨cap, (hext.grows.heap c (Heap.get_lt hget)).trans hget⟩
  refine (appendTail_spec (hm₀.extend hext) key ⟨hok, hes⟩ hval.1).mono fun rc m' hst hyes => ?_
  exact (hst.imp fun _ _ hstr hyes => (hstr hyes).2 hyes).defined hyes

/-- An assignment that is answered with -1. The other variables are as they were. For a line of the grammar
    there was no memory, and the variable is as it was too; with memory for everything it is set. -/
theorem failed_assignment (hm : Safe sys g m) (loadFile : List Byte → M F Int) (dir : List Byte) {line key : List Byte}
    (hassign : Assigns sys (lineText line) key) :
    ∃ rc m', parseLine sys loadFile line dir m = some (rc, m') ∧ (rc = -1 →
      (∀ e, e.key ≠ key → (e ∈ m'.vars.entries ↔ e ∈ m.vars.entries)) ∧
      (AcceptsLine sys False (Loads loadFile m) dir (lineText line) → m'.vars = m.vars) ∧
      (sys.NoFail → Defined sys m' key)) := by
  obtain ⟨k, q, q', t, hfirst, hincl, hdisp, hop, ht, rfl⟩ := hassign
  have hrhs : AcceptsLine sys False (Loads loadFile m) dir (lineText line) → ∃ r, AcceptsRhs sys False q' r := by
    intro hacc
    rcases line_ident hfirst hacc with ⟨h, -⟩ | ⟨h, -⟩ | ⟨-, -, t', q'', r, hop', -, hr⟩
    · exact absurd h hincl
    · exact absurd h hdisp
    · obtain ⟨-, rfl⟩ := hop.unique hop'
      exact ⟨r, hr⟩
  have hrun : wp (parseLine sys loadFile line dir) (Assigned sys (k.take (CFG_MAX_TOK - 1)) q' m) m := by
    rcases ht with ht | ht
    · cases t with
      | eq =>
        rw [parseLine_assign loadFile dir hfirst hincl hdisp hop]
        exact assign_assigned hm _ q'
      | _ => cases ht
    · cases t with
      | pluseq =>
        rw [parseLine_append loadFile dir hfirst hincl hdisp hop]
        exact append_assigned hm _ q'
      | _ => cases ht
  obtain ⟨⟨rc, m'⟩, hrun, hpost⟩ := hrun
  exact ⟨rc, m', hrun, fun hrc => ⟨hpost.others, fun hacc => hpost.same hrc (hrhs hacc), hpost.defined⟩⟩

/-- `A = "x`, a string that is not closed. -/
def openLine : List Byte := ascii ['A', ' ', '=', ' ', '"', 'x']

theorem openLine_assigns : Assigns plainSys (lineText openLine) (ascii ['A']) :=
  ⟨ascii ['A'], ascii [' ', '=', ' ', '"', 'x'], ascii [' ', '"', 'x'], .eq, by decide +kernel, by decide, by decide,
    by decide +kernel, .inl rfl, by decide⟩

theorem failed_assignment_open : ∃ m', parseLine plainSys (cfgLoadDepth plainSys 16) openLine [] plainMem =
    some (-1, m') ∧
    (∀ e, e.key ≠ ascii ['A'] → (e ∈ m'.vars.entries ↔ e ∈ plainMem.vars.entries)) ∧ Defined plainSys m'
    (ascii ['A']) := by
  obtain ⟨rc, m', hrun, hleft⟩ :=
    failed_assignment (kflCfgNew_safe plainMem_new).1 (cfgLoadDepth plainSys 16) [] openLine_assigns
  have hcode : (parseLine plainSys (cfgLoadDepth plainSys 16) openLine [] plainMem).map Prod.fst = some (-1) := by
    decide +kernel
  rw [hrun] at hcode
  obtain rfl : rc = -1 := Option.some.inj hcode
  obtain ⟨hothers, -, hdefined⟩ := hleft rfl
  exact ⟨m', hrun, hothers, hdefined fun _ => rfl⟩

/-- The code of a line, and the keys that are bound after it. -/
def keysAfter (line : List Byte) : Option (Int × List (List Byte)) :=
  (parseLine plainSys (cfgLoadDepth plainSys 16) line [] plainMem).map fun r =>
    (r.1, r.2.vars.entries.map Dict.Entry.key)

/-- Either form binds `A` and answers -1, where nothing was bound before. -/
theorem failed_assignment_binds : plainMem.vars.entries = [] ∧
    Assigns plainSys (lineText openLine) (ascii ['A']) ∧ keysAfter openLine = some (-1, [ascii ['A']]) ∧
    Assigns plainSys (lineText (ascii ['A', ' ', '+', '=', ' ', '"', 'x'])) (ascii ['A']) ∧
    keysAfter (ascii ['A', ' ', '+', '=', ' ', '"', 'x']) = some (-1, [ascii ['A']]) := by
  refine ⟨by decide +kernel, openLine_assigns, by decide +kernel, ?_, by decide +kernel⟩
  exact ⟨ascii ['A'], ascii [' ', '+', '=', ' ', '"', 'x'], ascii [' ', '"', 'x'], .pluseq,
    by decide +kernel, by decide,
    by decide, by decide +kernel, .inr rfl, by decide⟩

end KanekFoundations.Cfg

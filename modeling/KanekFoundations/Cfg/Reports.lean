/-
  KanekFoundations.Cfg.Reports — the reports of the evaluator and its error flag.

  Most reports raise the flag of the lexer, a few do not: a variable that is undefined, an
  array or a buffer there is no memory for. `Reported` says what a part of the evaluator
  leaves when the flag is down: the tokens it read, and, with memory for everything, a report
  exactly when one of the variables among them is undefined.

  Proved, for every line and every outcome of the allocations:
  - the evaluator touches neither the variables nor the reports that are out;
  - `evalRhs_reports`: a right-hand side leaves what `Reported` says.
-/

import KanekFoundations.Cfg.CommentProofs

namespace KanekFoundations.Cfg

open KanekFoundations.Lib

variable {F : Type} {α β : Type} {sys : Sys F} {m m' m'' : Mem F} {l l' l'' : Lex} {known : List Byte → Prop}
  {p q r : List Byte} {t : Tok F} {toks toks' lead : List (Tok F)} {errs : List Report}

/-! ## What the values keep -/

/-- The variables and the reports are the same, and the allocator was only asked on. -/
structure Mem.Kept (m m' : Mem F) : Prop where
  vars : m'.vars = m.vars
  trace : m'.trace = m.trace
  mallocs : m.mallocs ≤ m'.mallocs

theorem Mem.Kept.refl (m : Mem F) : m.Kept m := ⟨rfl, rfl, Nat.le_refl _⟩

theorem Mem.Kept.trans (h : m.Kept m') (h' : m'.Kept m'') : m.Kept m'' :=
  ⟨h'.vars.trans h.vars, h'.trace.trans h.trace, Nat.le_trans h.mallocs h'.mallocs⟩

def Keeps (x : M F α) : Prop := ∀ m, wlp x (fun _ m' => m.Kept m') m

theorem Keeps.pure (a : α) : Keeps (F := F) (pure a) := fun m => wlp_pure (.refl m)

theorem Keeps.bind {x : M F α} {f : α → M F β} (h : Keeps x) (hf : ∀ a, Keeps (f a)) : Keeps (x >>= f) := fun m =>
  (h m).bind fun a m' hkept => (hf a m').mono fun _ _ hkept' => hkept.trans hkept'

theorem Keeps.stuck : Keeps (F := F) (α := α) stuck := by
  intro m a s' h
  cases h

/-- No pointer is an allocation that failed. -/
def KeepsOr (sys : Sys F) (x : M F (Option Addr)) : Prop :=
    ∀ m, wlp x (fun r m' => m.Kept m' ∧ (r = none → ¬ sys.NoFail)) m

theorem KeepsOr.keeps {x : M F (Option Addr)} (h : KeepsOr sys x) : Keeps x :=
    fun m => (h m).mono fun _ _ hpost => hpost.1

theorem taMalloc_keeps (b : Block F) : KeepsOr sys (taMalloc sys b) := by
  intro m r m' hr
  unfold taMalloc at hr
  by_cases h : sys.mallocOk m.mallocs = true
  · rw [if_pos h] at hr
    cases hr
    exact ⟨⟨rfl, rfl, Nat.le_succ _⟩, fun hnone => by cases hnone⟩
  · rw [if_neg h] at hr
    cases hr
    exact ⟨⟨rfl, rfl, Nat.le_succ _⟩, fun _ hyes => h (hyes _)⟩

theorem load_keeps (a : Addr) : Keeps (F := F) (load a) := by
  intro m b m' hr
  obtain ⟨_, -, h⟩ := Option.map_eq_some_iff.mp hr
  cases h
  exact .refl m

theorem store_keeps (a : Addr) (b : Block F) : Keeps (store a b) := by
  intro m _ m' hr
  obtain ⟨_, -, h⟩ := Option.map_eq_some_iff.mp hr
  cases h
  exact ⟨rfl, rfl, Nat.le_refl _⟩

theorem taFree_keeps (s : Option Addr) : Keeps (F := F) (taFree s) := by
  cases s with
  | none => exact .pure _
  | some a =>
    intro m _ m' hr
    obtain ⟨_, -, h⟩ := Option.map_eq_some_iff.mp hr
    cases h
    exact ⟨rfl, rfl, Nat.le_refl _⟩

theorem taRealloc_keeps (a : Addr) (b : Block F) : KeepsOr sys (taRealloc sys a b) := by
  intro m
  refine (taMalloc_keeps b m).bind fun r m₁ hpost => ?_
  cases r with
  | none => exact wlp_pure hpost
  | some a' =>
    exact (taFree_keeps (some a) m₁).bind fun _ m₂ hkept => wlp_pure ⟨hpost.1.trans hkept, fun hnone => by cases hnone⟩

theorem cstr_keeps (a : Addr) : Keeps (F := F) (cstr a) := by
  refine (load_keeps a).bind fun b => ?_
  cases b with
  | chars _ text => exact .pure text
  | _ => exact .stuck

theorem memcpy_keeps (buf : Addr) (off : Nat) (s : List Byte) : Keeps (F := F) (memcpy buf off s) := by
  refine (load_keeps buf).bind fun b => ?_
  cases b with
  | raw cap =>
    dsimp only
    split
    · exact store_keeps _ _
    · exact .stuck
  | chars cap text =>
    dsimp only
    split
    · exact store_keeps _ _
    · exact .stuck
  | _ => exact .stuck

theorem textOf_keeps (s : Option Addr) : Keeps (F := F) (textOf s) := by
  cases s with
  | none => exact .pure _
  | some c => exact cstr_keeps c

theorem varStr_keeps (s : Option (List Byte)) : Keeps (varStr sys s) := by
  refine (taMalloc_keeps _).keeps.bind fun var => ?_
  cases var with
  | none => exact .pure _
  | some var =>
    cases s with
    | none => exact .pure _
    | some s => exact (taMalloc_keeps _).keeps.bind fun dup => (store_keeps _ _).bind fun _ => .pure _

theorem varArray_keeps : KeepsOr sys (varArray sys) := by
  intro m
  refine (taMalloc_keeps _ m).bind fun var m₁ hpost => ?_
  cases var with
  | none => exact wlp_pure hpost
  | some var =>
    refine (taMalloc_keeps _ m₁).bind fun items m₂ hpost₂ => ?_
    have hkept := hpost.1.trans hpost₂.1
    cases items with
    | none => exact (taFree_keeps _ m₂).bind fun _ _ hfree => wlp_pure ⟨hkept.trans hfree, hpost₂.2⟩
    | some items =>
      exact (store_keeps _ _ m₂).bind fun _ _ hstore => wlp_pure ⟨hkept.trans hstore, fun hnone => by cases hnone⟩

theorem cells_keeps (items : Addr) : Keeps (F := F) (cells items) := by
  refine (load_keeps items).bind fun b => ?_
  cases b with
  | ptrs _ written => exact .pure written
  | _ => exact .stuck

theorem putItem_keeps (arr items : Addr) (len cap : Nat) (item : Option Addr) :
    Keeps (F := F) (putItem arr items len cap item) := by
  refine (cells_keeps items).bind fun written => ?_
  split
  · exact (store_keeps _ _).bind fun _ => store_keeps _ _
  · exact .stuck

theorem varPush_keeps (arr item : Option Addr) : Keeps (varPush sys arr item) := by
  cases arr with
  | none => exact .pure _
  | some a =>
    refine (load_keeps a).bind fun b => ?_
    cases b with
    | array items len cap =>
      dsimp only
      split
      · refine (cells_keeps items).bind fun written => (taRealloc_keeps _ _).keeps.bind fun grown => ?_
        cases grown with
        | none => exact .pure _
        | some grown => exact (putItem_keeps _ _ _ _ _).bind fun _ => .pure _
      · exact (putItem_keeps _ _ _ _ _).bind fun _ => .pure _
    | _ => exact .pure _

theorem varGet_keeps (arr : Option Addr) (idx : Nat) : Keeps (F := F) (varGet arr idx) := by
  cases arr with
  | none => exact .pure _
  | some a =>
    refine (load_keeps a).bind fun b => ?_
    cases b with
    | array items len _ =>
      dsimp only
      split
      · exact .pure _
      · refine (cells_keeps items).bind fun written => ?_
        cases written[idx]? with
        | none => exact .stuck
        | some item => exact .pure item
    | _ => exact .pure _

theorem varToStr_keeps (v : Option Addr) : Keeps (varToStr sys v) := by
  cases v with
  | none => exact (taMalloc_keeps _).keeps
  | some a =>
    refine (load_keeps a).bind fun b => ?_
    cases b with
    | str s =>
      cases s with
      | none => exact (taMalloc_keeps _).keeps
      | some s => exact (cstr_keeps s).bind fun _ => (taMalloc_keeps _).keeps
    | raw | chars | ptrs => exact .stuck
    | _ => exact (taMalloc_keeps _).keeps

theorem reallocBuf_keeps (buf : Addr) (cap : Nat) : KeepsOr sys (reallocBuf sys buf cap) := by
  intro m
  refine (load_keeps buf m).bind fun b m₁ hkept => ?_
  cases b with
  | raw | chars =>
    exact (taRealloc_keeps _ _ m₁).mono fun _ _ hpost => ⟨hkept.trans hpost.1, hpost.2⟩
  | _ =>
    intro _ _ hr
    cases hr

theorem pure_keeps (a : Addr) : KeepsOr sys (pure (some a)) := fun m => wlp_pure ⟨.refl m, fun hnone => by cases hnone⟩

theorem orNull_keeps (v : Option Addr) : Keeps (orNull sys v) := by
  cases v with
  | none => exact (taMalloc_keeps _).keeps
  | some v => exact .pure _

theorem varNull_keeps : Keeps (varNull sys) := (taMalloc_keeps _).keeps

/-- The end of `+=` is a store of what was built before, or there was no memory to build it in. -/
theorem appendTail_cases (key : List Byte) (es : Option Addr) (r : Option Addr × Lex) (m : Mem F)
    {Q : Int → Mem F → Prop}
    (hfail : ∀ (l : Lex) m₁, m.Kept m₁ → Q (-1) { m₁ with trace := m₁.trace ++ l.trace })
    (hset : ∀ val m₁, m.Kept m₁ → wlp (setTail sys key (val, r.2)) Q m₁) : wlp (appendTail sys key es r) Q m := by
  unfold appendTail
  refine (varToStr_keeps _ m).bind fun rs m₁ hkept₁ => (textOf_keeps _ m₁).bind fun etext m₂ hkept₂ => ?_
  refine (textOf_keeps _ m₂).bind fun rtext m₃ hkept₃ => (taMalloc_keeps _ m₃).bind fun buf m₄ hbuf => ?_
  have hkept := ((hkept₁.trans hkept₂).trans hkept₃).trans hbuf.1
  cases buf with
  | none =>
    intro rc m' h
    cases h
    exact hfail _ m₄ hkept
  | some buf =>
    refine (memcpy_keeps _ _ _ m₄).bind fun _ m₅ hkept₅ => (cstr_keeps _ m₅).bind fun text m₆ hkept₆ => ?_
    exact (varStr_keeps _ m₆).bind fun val m₇ hkept₇ =>
      hset val m₇ (((hkept.trans hkept₅).trans hkept₆).trans hkept₇)

/-! ## The tokens of a part of a line -/

/-- The tokens from one position to another, none of them malformed. -/
inductive Tokens (sys : Sys F) : List Byte → List (Tok F) → List Byte → Prop
  | nil (p : List Byte) : Tokens sys p [] p
  | cons {p q r : List Byte} {t : Tok F} {toks : List (Tok F)} :
    Reads sys p t q → Tokens sys q toks r → Tokens sys p (t :: toks) r

theorem Tokens.append (h : Tokens sys p toks q) (h' : Tokens sys q toks' r) : Tokens sys p (toks ++ toks') r := by
  induction h with
  | nil => exact h'
  | cons hr _ ih => exact .cons hr (ih h')

theorem Tokens.length (h : Tokens sys p toks q) : q.length ≤ p.length := by
  induction h with
  | nil => exact Nat.le_refl _
  | cons hr _ ih => exact Nat.le_trans ih (scan_length hr).1

theorem Tokens.ident_lt {s : List Byte} (h : Tokens sys p toks q) (hs : .ident s ∈ toks) : q.length < p.length := by
  induction h with
  | nil => cases hs
  | cons hr h ih =>
    rcases List.mem_cons.mp hs with rfl | hs
    · exact Nat.lt_of_le_of_lt h.length ((scan_length hr).2 fun heof => by cases heof)
    · exact Nat.lt_of_lt_of_le (ih hs) (scan_length hr).1

/-- The identifiers between two positions are fixed by the positions. -/
theorem Tokens.ident_mem {s : List Byte} (h : Tokens sys p toks q) (h' : Tokens sys p toks' q) (hs : .ident s ∈ toks) :
    .ident s ∈ toks' := by
  induction h generalizing toks' with
  | nil => cases hs
  | cons hr h ih =>
    cases h' with
    | nil => exact absurd (ident_lt (.cons hr h) hs) (Nat.lt_irrefl _)
    | cons hr' h' =>
      obtain ⟨rfl, rfl⟩ := hr.unique hr'
      rcases List.mem_cons.mp hs with rfl | hs
      · exact List.mem_cons_self ..
      · exact List.mem_cons_of_mem _ (ih h' hs)

/-- Every variable among the tokens is known. -/
def Knows (known : List Byte → Prop) (toks : List (Tok F)) : Prop := ∀ s, .ident s ∈ toks → ¬ IsWord s → known s

theorem knows_append (toks toks' : List (Tok F)) : Knows known (toks ++ toks') ↔
    Knows known toks ∧ Knows known toks' := by
  constructor
  · intro h
    exact ⟨fun s hs => h s (List.mem_append_left _ hs), fun s hs => h s (List.mem_append_right _ hs)⟩
  · intro h s hs
    rcases List.mem_append.mp hs with hs | hs
    · exact h.1 s hs
    · exact h.2 s hs

theorem knows_nil : Knows (F := F) known [] := fun _ hs => by cases hs

theorem knows_ident {s : List Byte} (hword : ¬ IsWord s) : Knows (F := F) known [.ident s] ↔ known s := by
  constructor
  · exact fun h => h s (List.mem_singleton.mpr rfl) hword
  · intro h s' hs' _
    cases List.mem_singleton.mp hs'
    exact h

/-- A token that is no variable. -/
theorem knows_other (ht : ∀ s, t = .ident s → IsWord s) : Knows known [t] := by
  intro s hs hword
  exact absurd (ht s (List.mem_singleton.mp hs).symm) hword

/-! ## What a part of the evaluator reports -/

/-- From `l` to `l'` the evaluator has read the tokens between them, if there is no error; with
    memory for everything it has reported something exactly when a variable among `lead`, which
    it was given, and these tokens is not known. -/
def Reported (sys : Sys F) (known : List Byte → Prop) (lead : List (Tok F)) (l l' : Lex) : Prop :=
  l'.error = false → l.error = false ∧ ∃ toks new, Tokens sys l.p toks l'.p ∧ l'.trace = l.trace ++ new ∧
    (sys.NoFail → (new = [] ↔ Knows known (lead ++ toks)))

/-- Nothing is read or reported. -/
theorem Reported.refl (hlead : Knows known lead) (l : Lex) : Reported sys known lead l l := by
  intro herr
  refine ⟨herr, [], [], .nil _, (List.append_nil _).symm, fun _ => ?_⟩
  rw [List.append_nil]
  exact ⟨fun _ => hlead, fun _ => rfl⟩

theorem Reported.error (h : Reported sys known lead l l') (herr : l.error = true) : l'.error = true := by
  cases herr' : l'.error with
  | true => rfl
  | false =>
    rw [(h herr').1] at herr
    cases herr

theorem Reported.failed (herr : l'.error = true) : Reported sys known lead l l' := by
  intro herr'
  rw [herr] at herr'
  cases herr'

theorem Reported.trans (h : Reported sys known lead l l') (h' : Reported sys known [] l' l'') :
    Reported sys known lead l l'' := by
  intro herr
  obtain ⟨herr', toks', new', htoks', hnew', hknown'⟩ := h' herr
  obtain ⟨herr'', toks, new, htoks, hnew, hknown⟩ := h herr'
  refine ⟨herr'', toks ++ toks', new ++ new', htoks.append htoks', ?_, fun hyes => ?_⟩
  · rw [hnew', hnew, List.append_assoc]
  · rw [List.append_eq_nil_iff, hknown hyes, hknown' hyes, ← List.append_assoc, knows_append (lead ++ toks)]
    rfl

/-- A report that the flag says nothing about, of an undefined variable. -/
theorem Reported.undefined {s : List Byte} (hword : ¬ IsWord s) (hno : ¬ known s) {fmt : String}
    {args : List (List Byte)}
    (h : Reported sys known [] l l') : Reported sys known [.ident s] l (l'.report fmt args) := by
  intro herr
  obtain ⟨herr', toks, new, htoks, hnew, -⟩ := h herr
  refine ⟨herr', toks, new ++ [⟨fmt, args⟩], htoks, ?_, fun _ => ?_⟩
  · show l'.trace ++ _ = _
    rw [hnew, List.append_assoc]
  · rw [knows_append, knows_ident hword]
    constructor
    · exact fun hnil => absurd hnil (List.append_ne_nil_of_right_ne_nil _ (List.cons_ne_nil _ _))
    · exact fun hknows => absurd hknows.1 hno

/-- A report that the flag says nothing about, of memory that there was not. -/
theorem Reported.cut (hno : ¬ sys.NoFail) {fmt : String} {args : List (List Byte)} (h : Reported sys known lead l l') :
    Reported sys known lead l (l'.report fmt args) := by
  intro herr
  obtain ⟨herr', toks, new, htoks, hnew, -⟩ := h herr
  refine ⟨herr', toks, new ++ [⟨fmt, args⟩], htoks, ?_, fun hyes => absurd hyes hno⟩
  show l'.trace ++ _ = _
  rw [hnew, List.append_assoc]

/-- A look at the next token. -/
theorem Reported.peek (h : Reported sys known lead (l.after l.p errs) l') : Reported sys known lead l l' := by
  intro herr
  obtain ⟨herr', toks, new, htoks, hnew, hknown⟩ := h herr
  obtain ⟨herr'', rfl⟩ := after_error.mp herr'
  refine ⟨herr'', toks, new, htoks, ?_, hknown⟩
  rw [hnew, after_self]

/-- The next token, which is given to what goes on. -/
theorem Reported.next (hscan : scanTok sys l.p = ⟨t, q, errs⟩) (h : Reported sys known [t] (l.after q errs) l') :
    Reported sys known [] l l' := by
  intro herr
  obtain ⟨herr', toks, new, htoks, hnew, hknown⟩ := h herr
  obtain ⟨herr'', rfl⟩ := after_error.mp herr'
  refine ⟨herr'', t :: toks, new, .cons hscan htoks, ?_, hknown⟩
  rw [hnew]
  show l.trace ++ [] ++ new = _
  rw [List.append_nil]

/-- What is given is no variable. -/
theorem Reported.given (hlead : Knows known lead) (h : Reported sys known [] l l') : Reported sys known lead l l' := by
  intro herr
  obtain ⟨herr', toks, new, htoks, hnew, hknown⟩ := h herr
  refine ⟨herr', toks, new, htoks, hnew, fun hyes => ?_⟩
  rw [hknown hyes, List.nil_append, knows_append lead]
  exact ⟨fun hknows => ⟨hlead, hknows⟩, fun hknows => hknows.2⟩

/-- The next token, which is no variable. -/
theorem Reported.skip (hscan : scanTok sys l.p = ⟨t, q, errs⟩) (ht : ∀ s, t ≠ .ident s)
    (h : Reported sys known [] (l.after q errs) l') : Reported sys known [] l l' :=
  .next hscan (.given (knows_other fun s hs => absurd hs (ht s)) h)

/-! ## Variables -/

/-- The same system with another allocator. -/
def Sys.withAllocs (sys : Sys F) (allocs : Nat → Bool) : Sys F := { sys with mallocOk := allocs }

instance (s : List Byte) : Decidable (IsWord s) :=
  inferInstanceAs (Decidable (s = boolText true ∨ s = boolText false ∨ s = nullText))

/-- The lexer after an operand with the lead token `tok`, unless it is an array. -/
def operandEnd (sys : Sys F) (tok : Tok F) (l : Lex) : Lex :=
  match tok with
  | .ident sval =>
    if IsWord sval then l
    else
      let (pk, l) := peekTok sys l
      if pk.type = .lbracket then
        let (_, l) := nextTok sys l
        let (idx, l) := nextTok sys l
        let (rb, l) := nextTok sys l
        if rb.type ≠ .rbracket then l.fail "expected ']' after array index"
        else
          match idx with
          | .int _ => l
          | _ => l.fail "array index must be an integer"
      else l
  | _ => l

theorem nextTok_withAllocs (allocs : Nat → Bool) (l : Lex) : nextTok (sys.withAllocs allocs) l = nextTok sys l := rfl

theorem peekTok_withAllocs (allocs : Nat → Bool) (l : Lex) : peekTok (sys.withAllocs allocs) l = peekTok sys l := rfl

/-- Without an error nothing was reported. -/
def Quiet (l l' : Lex) : Prop := l'.error = false → l.error = false ∧ l'.trace = l.trace

theorem Quiet.after (l : Lex) (q : List Byte) (errs : List Report) : Quiet l (l.after q errs) := by
  intro herr
  obtain ⟨herr', rfl⟩ := after_error.mp herr
  exact ⟨herr', List.append_nil _⟩

theorem Quiet.trans {l'' : Lex} (h : Quiet l l') (h' : Quiet l' l'') : Quiet l l'' := by
  intro herr
  obtain ⟨herr', htrace'⟩ := h' herr
  obtain ⟨herr'', htrace⟩ := h herr'
  exact ⟨herr'', htrace'.trans htrace⟩

theorem Quiet.failed (herr : l'.error = true) : Quiet l l' := by
  intro herr'
  rw [herr] at herr'
  cases herr'

/-- What follows a variable: no bracket, an index in brackets, or a bracket with anything else behind it. -/
inductive Index
  | absent
  | item (i : Nat)
  | bad

/-- The evaluation of a variable, by what follows it. -/
theorem evalIdent_eq (sys : Sys F) {s : List Byte} (hword : ¬ IsWord s) (l : Lex) :
    ∃ idx : Index, (idx = .bad → (operandEnd sys (.ident s) l).error = true) ∧ Quiet l (operandEnd sys (.ident s) l) ∧
      (∀ known, Reported sys known [] l (operandEnd sys (.ident s) l)) ∧
      ∀ allocs n, evalAtom (sys.withAllocs allocs) (n + 1) (.ident s) l = (do
        let v ← getVar sys s
        match idx, v with
        | .bad, _ => do return (← varNull (sys.withAllocs allocs), operandEnd sys (.ident s) l)
        | _, none => do
          return (← varNull (sys.withAllocs allocs), (operandEnd sys (.ident s) l).report "undefined variable '%s'" [s])
        | .absent, some v => pure (some v, operandEnd sys (.ident s) l)
        | .item i, some v => do
          match ← varGet (some v) i with
          | some elem => pure (some elem, operandEnd sys (.ident s) l)
          | none => do return (← varNull (sys.withAllocs allocs), operandEnd sys (.ident s) l)) := by
  obtain ⟨t, q, errs, hscan, -, hpeek⟩ := scan_cases sys l
  have hnext : nextTok sys (l.after l.p errs) = (t, (l.after l.p errs).after q errs) := next_of_scan hscan
  obtain ⟨t₂, q₂, errs₂, hscan₂, hnext₂, -⟩ := scan_cases sys ((l.after l.p errs).after q errs)
  obtain ⟨t₃, q₃, errs₃, hscan₃, hnext₃, -⟩ := scan_cases sys (((l.after l.p errs).after q errs).after q₂ errs₂)
  have hquiet : Quiet l ((((l.after l.p errs).after q errs).after q₂ errs₂).after q₃ errs₃) :=
    (((Quiet.after l _ _).trans (.after _ _ _)).trans (.after _ _ _)).trans (.after _ _ _)
  have hread : ∀ known, (∀ s, t ≠ .ident s) → (∀ s, t₂ ≠ .ident s) → (∀ s, t₃ ≠ .ident s) →
      Reported sys known [] l ((((l.after l.p errs).after q errs).after q₂ errs₂).after q₃ errs₃) :=
          fun known h h₂ h₃ =>
    .peek (.skip hscan h (.skip hscan₂ h₂ (.skip hscan₃ h₃ (.refl knows_nil _))))
  generalize (((l.after l.p errs).after q errs).after q₂ errs₂).after q₃ errs₃ = l₃ at hnext₃ hquiet hread
  unfold operandEnd
  dsimp only
  rw [if_neg hword, hpeek]
  dsimp only
  by_cases ht : t.type = .lbracket
  · have hrun := fun allocs n =>
      evalIdent_bracket hword n (show peekTok (sys.withAllocs allocs) l = _ from hpeek) ht hnext hnext₂ hnext₃
    rw [if_pos ht, hnext]
    dsimp only
    rw [hnext₂]
    dsimp only
    rw [hnext₃]
    dsimp only
    by_cases hrb : t₃.type ≠ .rbracket
    · rw [if_pos hrb]
      refine ⟨.bad, fun _ => rfl, .failed rfl, fun _ => .failed rfl, fun allocs n => ?_⟩
      rw [hrun]
      refine congrArg (getVar sys s >>= ·) (funext fun v => ?_)
      rw [if_pos hrb]
    rw [if_neg hrb]
    cases t₂ with
    | int i =>
      refine ⟨.item (u64OfInt i), fun h => (by cases h), hquiet, fun known => ?_, fun allocs n => ?_⟩
      · refine hread known (fun s hs => ?_) (fun s hs => by cases hs) fun s hs => ?_
        · rw [hs] at ht
          cases ht
        · rw [hs] at hrb
          exact hrb fun h => by cases h
      rw [hrun]
      refine congrArg (getVar sys s >>= ·) (funext fun v => ?_)
      rw [if_neg hrb]
      cases v with
      | none => rfl
      | some v => rfl
    | _ =>
      refine ⟨.bad, fun _ => rfl, .failed rfl, fun _ => .failed rfl, fun allocs n => ?_⟩
      rw [hrun]
      refine congrArg (getVar sys s >>= ·) (funext fun v => ?_)
      rw [if_neg hrb]
  · have hrun := fun allocs n => evalIdent_plain hword n (show peekTok (sys.withAllocs allocs) l = _ from hpeek) ht
    rw [if_neg ht]
    refine ⟨.absent, fun h => (by cases h), .after _ _ _, fun _ => .peek (.refl knows_nil _), fun allocs n => ?_⟩
    rw [hrun]
    refine congrArg (getVar sys s >>= ·) (funext fun v => ?_)
    cases v with
    | none => rfl
    | some v => rfl

/-! ## Atoms -/

def Defined (sys : Sys F) (m : Mem F) (s : List Byte) : Prop := m.vars.dictGet sys.xxh32 (some s) ≠ none

theorem Mem.Kept.defined (h : m.Kept m') : Defined sys m' = Defined sys m := by
  unfold Defined
  rw [h.vars]

/-- A run of a part of the evaluator, from the memory `m` and the lexer `l`. -/
def Evaluates (sys : Sys F) (lead : List (Tok F)) (l : Lex) (m : Mem F) (l' : Lex) (m' : Mem F) : Prop :=
  m.Kept m' ∧ Reported sys (Defined sys m) lead l l'

theorem Evaluates.after {l₁ : Lex} {m₁ : Mem F} (h : Evaluates sys [] l₁ m₁ l' m') (hkept : m.Kept m₁)
    (hl : Reported sys (Defined sys m) [] l₁ l' → Reported sys (Defined sys m) lead l l') :
      Evaluates sys lead l m l' m' := by
  obtain ⟨hkept', hrep⟩ := h
  rw [hkept.defined] at hrep
  exact ⟨hkept.trans hkept', hl hrep⟩

/-- A value is made, and nothing more is read. -/
theorem value_reports {x : M F α} (hx : Keeps x) (h : Reported sys (Defined sys m) lead l l') :
    wlp (do return (← x, l')) (fun r m' => Evaluates sys lead l m r.2 m') m :=
  (hx m).bind fun _ _ hkept => wlp_pure ⟨hkept, h⟩

/-- The loop of an array literal, from its first look at a token on. -/
theorem evalItems_reports {atom : Tok F → Lex → M F (Option Addr × Lex)}
    (hatom : ∀ tok l m, wlp (atom tok l) (fun r m' => Evaluates sys [tok] l m r.2 m') m) (arr : Addr)
    (k : Nat) (l : Lex)
    (m : Mem F) : wlp (evalItems sys atom arr k l) (fun l' m' => Evaluates sys [] (peekTok sys l).2 m l' m') m := by
  induction k generalizing l m with
  | zero => exact fun _ _ h => by cases h
  | succ k ih =>
    obtain ⟨t, q, errs, hscan, -, hpeek⟩ := scan_cases sys l
    have hnext : nextTok sys (l.after l.p errs) = (t, (l.after l.p errs).after q errs) := next_of_scan hscan
    -- The loop goes on from `l₁`, and so does what it reports.
    have hrest : ∀ l₁ m₁, m.Kept m₁ → (∀ l', Reported sys (Defined sys m) [] l₁ l' →
        Reported sys (Defined sys m) [] (l.after l.p errs) l') →
          wlp (evalItems sys atom arr k l₁) (fun l' m' => Evaluates sys [] (l.after l.p errs) m l' m') m₁ := by
      intro l₁ m₁ hkept hl
      obtain ⟨t₁, q₁, errs₁, -, -, hpeek₁⟩ := scan_cases sys l₁
      refine (ih l₁ m₁).mono fun l' m' hpost => hpost.after hkept fun hrep => hl l' ?_
      rw [hpeek₁] at hrep
      exact hrep.peek
    have hitem : t.StartsItem →
        wlp (evalItems sys atom arr (k + 1) l) (fun l' m' => Evaluates sys [] (l.after l.p errs) m l' m') m := by
      intro ht
      rw [evalItems_item hpeek ht, hnext]
      refine (hatom t _ m).bind fun r m₁ hpost => ?_
      obtain ⟨item, l₁⟩ := r
      obtain ⟨hkept, hrep⟩ := hpost
      have hl : ∀ l', Reported sys (Defined sys m) [] l₁ l' → Reported sys (Defined sys m) [] (l.after l.p errs) l' :=
        fun l' h => .next hscan (hrep.trans h)
      cases item with
      | none => exact hrest l₁ m₁ hkept hl
      | some item => exact (varPush_keeps _ _ m₁).bind fun _ m₂ hpush => hrest l₁ m₂ (hkept.trans hpush) hl
    rw [hpeek]
    rcases item_cases t with hstart | hstop | rfl | hskip
    · exact hitem hstart
    · rw [evalItems_end hpeek hstop]
      exact wlp_pure ⟨.refl m, .refl knows_nil _⟩
    · rw [evalItems_comma hpeek, hnext]
      exact hrest _ m (.refl m) fun l' h => .skip hscan (fun s hs => by cases hs) h
    · rw [evalItems_skip hpeek hskip]
      exact hrest _ m (.refl m) fun l' h => .failed (h.error rfl)

theorem evalIdent_reports {s : List Byte} (hword : ¬ IsWord s) (n : Nat) (l : Lex) (m : Mem F) :
    wlp (evalAtom sys (n + 1) (.ident s) l) (fun r m' => Evaluates sys [.ident s] l m r.2 m') m := by
  obtain ⟨idx, hbad, -, hread, hrun⟩ := evalIdent_eq sys hword l
  have hread := hread (Defined sys m)
  generalize operandEnd sys (.ident s) l = e at hbad hread hrun
  rw [show evalAtom sys (n + 1) (.ident s) l = _ from hrun sys.mallocOk n]
  have hvar : wlp (getVar sys s) (fun v m' => m' = m ∧ v = m.vars.dictGet sys.xxh32 (some s)) m := by
    intro v m' hr
    cases hr
    exact ⟨rfl, rfl⟩
  refine hvar.bind fun v m' hpost => ?_
  obtain ⟨rfl, hv⟩ := hpost
  have hnull : ∀ l', Reported sys (Defined sys m') [.ident s] l l' →
      wlp (do return (← varNull sys, l')) (fun r m'' => Evaluates sys [.ident s] l m' r.2 m'') m' := fun l' hrep =>
    value_reports (taMalloc_keeps _).keeps hrep
  -- What a variable reports: that it is undefined, or nothing.
  have hundef : v = none → Reported sys (Defined sys m') [.ident s] l (e.report "undefined variable '%s'" [s]) :=
    fun hnone => .undefined hword (fun hdef => hdef (hv.symm.trans hnone)) hread
  have hname : v ≠ none → Reported sys (Defined sys m') [.ident s] l e := by
    intro hsome
    refine hread.given ((knows_ident hword).mpr ?_)
    unfold Defined
    rw [← hv]
    exact hsome
  cases idx with
  | bad => exact hnull e (.failed (hbad rfl))
  | absent =>
    cases v with
    | none => exact hnull _ (hundef rfl)
    | some v => exact wlp_pure ⟨.refl m', hname fun h => by cases h⟩
  | item i =>
    cases v with
    | none => exact hnull _ (hundef rfl)
    | some v =>
      have hrep := hname fun h => by cases h
      refine (varGet_keeps _ _ m').bind fun elem m₁ hkept => ?_
      cases elem with
      | none => exact (varNull_keeps m₁).bind fun _ _ hkept' => wlp_pure ⟨hkept.trans hkept', hrep⟩
      | some elem => exact wlp_pure ⟨hkept, hrep⟩

theorem evalAtom_reports (n : Nat) (tok : Tok F) (l : Lex) (m : Mem F) :
    wlp (evalAtom sys n tok l) (fun r m' => Evaluates sys [tok] l m r.2 m') m := by
  induction n generalizing tok l m with
  | zero => exact fun _ _ h => by cases h
  | succ n ih =>
    have hother : (∀ s, tok = .ident s → IsWord s) → Reported sys (Defined sys m) [tok] l l := fun h =>
      .refl (knows_other h) l
    cases tok with
    | string s => exact value_reports (varStr_keeps _) (hother fun _ h => by cases h)
    | int i => exact value_reports (taMalloc_keeps _).keeps (hother fun _ h => by cases h)
    | float f => exact value_reports (taMalloc_keeps _).keeps (hother fun _ h => by cases h)
    | ident s =>
      by_cases hword : IsWord s
      · have hrep : Reported sys (Defined sys m) [.ident s] l l := hother fun s' hs' => Tok.ident.inj hs' ▸ hword
        rcases hword with rfl | rfl | rfl
        · exact value_reports (taMalloc_keeps _).keeps hrep
        · exact value_reports (taMalloc_keeps _).keeps hrep
        · exact value_reports (taMalloc_keeps _).keeps hrep
      · exact evalIdent_reports hword n l m
    | lbracket =>
      have hopen : Knows (Defined sys m) [(.lbracket : Tok F)] := knows_other fun _ h => by cases h
      unfold evalAtom
      refine (varArray_keeps m).bind fun arr m₁ hpost => ?_
      obtain ⟨hkept, hno⟩ := hpost
      cases arr with
      | none =>
        exact (varNull_keeps m₁).bind fun _ _ hkept' => wlp_pure ⟨hkept.trans hkept', .cut (hno rfl) (.refl hopen l)⟩
      | some arr =>
        refine (evalItems_reports ih arr _ l m₁).bind fun l₁ m₂ hitems => ?_
        obtain ⟨t, q, errs, -, -, hpeek⟩ := scan_cases sys l
        obtain ⟨t₁, q₁, errs₁, hscan₁, -, hpeek₁⟩ := scan_cases sys l₁
        have hnext : nextTok sys (l₁.after l₁.p errs₁) = (t₁, (l₁.after l₁.p errs₁).after q₁ errs₁) :=
          next_of_scan hscan₁
        obtain ⟨hkept₂, hrep⟩ := hitems
        rw [hpeek, hkept.defined] at hrep
        have hclose : ∀ l', Reported sys (Defined sys m) [] l₁ l' → Evaluates sys [.lbracket] l m l' m₂ := fun l' h =>
          ⟨hkept.trans hkept₂, .given hopen (hrep.peek.trans h)⟩
        rw [hpeek₁]
        dsimp only
        by_cases ht : t₁.type = .rbracket
        · rw [if_pos ht, hnext]
          refine wlp_pure (hclose _ (.peek (.skip hscan₁ (fun s hs => ?_) (.refl knows_nil _))))
          rw [hs] at ht
          cases ht
        · rw [if_neg ht]
          exact wlp_pure (hclose _ (.peek (.refl knows_nil _)))
    | eof | eq | pluseq | plus | rbracket | comma | hash =>
      exact value_reports (taMalloc_keeps _).keeps (hother fun _ h => by cases h)

/-! ## Concatenations -/

theorem ends_not_ident (ht : t.Ends) (s : List Byte) : t ≠ .ident s := by
  intro hs
  rw [hs] at ht
  rcases ht with ht | ht <;> cases ht

/-- What the loop of a concatenation does with the value of an operand. -/
theorem operandTail_reports {k : Nat}
    (hrest : ∀ buf len cap l m, wlp (concatLoop sys k buf len cap l) (fun r m' => Evaluates sys [] l m r.2 m') m)
    (buf : Addr) (len cap : Nat) (v : Option Addr × Lex) (m : Mem F) :
    wlp (operandTail sys k buf len cap v) (fun r m' => Evaluates sys [] v.2 m r.2 m') m := by
  have hgo : ∀ buf len cap m₁, m.Kept m₁ →
      wlp (concatLoop sys k buf len cap v.2) (fun r m' => Evaluates sys [] v.2 m r.2 m') m₁ :=
          fun buf len cap m₁ hkept =>
    (hrest buf len cap v.2 m₁).mono fun _ _ hpost => hpost.after hkept id
  unfold operandTail
  refine (varToStr_keeps _ m).bind fun rs m₁ hkept₁ => (textOf_keeps _ m₁).bind fun text m₂ hkept₂ => ?_
  have hkept := hkept₁.trans hkept₂
  dsimp only
  refine wlp.ite_bind (reallocBuf_keeps _ _ m₂) (pure_keeps buf m₂) fun newbuf m₃ hpost => ?_
  have hkept₃ := hkept.trans hpost.1
  cases newbuf with
  | none =>
    refine (taFree_keeps _ m₃).bind fun _ m₄ hfree => wlp_pure ⟨hkept₃.trans hfree, ?_⟩
    exact .cut (hpost.2 rfl) (.refl knows_nil _)
  | some buf =>
    cases rs with
    | none => exact (taFree_keeps _ m₃).bind fun _ m₄ hfree => hgo _ _ _ m₄ (hkept₃.trans hfree)
    | some c =>
      refine (memcpy_keeps _ _ _ m₃).bind fun _ m₄ hcopy => (taFree_keeps _ m₄).bind fun _ m₅ hfree => ?_
      exact hgo _ _ _ m₅ ((hkept₃.trans hcopy).trans hfree)

/-- The loop of a concatenation, from its first look at a token on. -/
theorem concatLoop_reports (k : Nat) (buf : Addr) (len cap : Nat) (l : Lex) (m : Mem F) :
    wlp (concatLoop sys k buf len cap l) (fun r m' => Evaluates sys [] (peekTok sys l).2 m r.2 m') m := by
  induction k generalizing buf len cap l m with
  | zero => exact fun _ _ h => by cases h
  | succ k ih =>
    obtain ⟨t, q, errs, hscan, -, hpeek⟩ := scan_cases sys l
    have hnext : nextTok sys (l.after l.p errs) = (t, (l.after l.p errs).after q errs) := next_of_scan hscan
    obtain ⟨t₂, q₂, errs₂, hscan₂, hnext₂, -⟩ := scan_cases sys ((l.after l.p errs).after q errs)
    rw [concatLoop_eq, hpeek]
    dsimp only
    by_cases ht : t.type ≠ .plus
    · rw [if_pos ht]
      exact wlp_pure ⟨.refl m, .refl knows_nil _⟩
    have hplus : ∀ s, t ≠ .ident s := by
      intro s hs
      rw [hs] at ht
      exact ht fun h => by cases h
    rw [if_neg ht, hnext, hnext₂]
    dsimp only
    by_cases hend : t₂.type = .eof ∨ t₂.type = .hash
    · rw [if_pos hend]
      exact wlp_pure ⟨.refl m, .skip hscan hplus (.skip hscan₂ (ends_not_ident hend) (.refl knows_nil _))⟩
    rw [if_neg hend]
    refine (evalAtom_reports _ t₂ _ m).bind fun v m₁ hatom => ?_
    obtain ⟨hkept, hrep⟩ := hatom
    refine (operandTail_reports (fun buf len cap l m => ?_) buf len cap v m₁).mono fun r m' hpost =>
      hpost.after hkept fun h => .skip hscan hplus (.next hscan₂ (hrep.trans h))
    obtain ⟨t₃, q₃, errs₃, -, -, hpeek₃⟩ := scan_cases sys l
    refine (ih buf len cap l m).mono fun r m' hpost => hpost.after (.refl m) fun h => ?_
    rw [hpeek₃] at h
    exact h.peek

/-- What `eval_rhs` does with its first value, from its look at the next token on. -/
theorem rhsTail_reports (v : Option Addr × Lex) (m : Mem F) :
    wlp (rhsTail sys v) (fun r m' => Evaluates sys [] (peekTok sys v.2).2 m r.2 m') m := by
  unfold rhsTail
  generalize hpk : peekTok sys v.2 = pk
  obtain ⟨pk, l⟩ := pk
  dsimp only
  have hvalue : ∀ {m₁ l'} (r : Option Addr), m.Kept m₁ → Reported sys (Defined sys m) [] l l' →
      wlp (do return (← orNull sys r, l')) (fun r m' => Evaluates sys [] l m r.2 m') m₁ := by
    intro m₁ l' r hkept hrep
    rw [← hkept.defined] at hrep
    exact (value_reports (orNull_keeps r) hrep).mono fun _ _ hpost => hpost.after hkept id
  have hsame : Reported sys (Defined sys m) [] l l := .refl knows_nil l
  by_cases ht : pk.type ≠ .plus
  · rw [if_pos ht]
    exact hvalue _ (.refl m) hsame
  rw [if_neg ht]
  refine (taMalloc_keeps _ m).bind fun buf m₁ hbuf => ?_
  cases buf with
  | none => exact hvalue _ hbuf.1 (.cut (hbuf.2 rfl) hsame)
  | some buf =>
    refine (varToStr_keeps _ m₁).bind fun rs0 m₂ hkept₂ => (textOf_keeps _ m₂).bind fun text m₃ hkept₃ => ?_
    have hkept := (hbuf.1.trans hkept₂).trans hkept₃
    refine wlp.ite_bind (reallocBuf_keeps _ _ m₃) (pure_keeps buf m₃) fun newbuf m₄ hpost => ?_
    have hkept₄ := hkept.trans hpost.1
    cases newbuf with
    | none => exact (taFree_keeps _ m₄).bind fun _ m₅ hfree => hvalue _ (hkept₄.trans hfree) hsame
    | some buf =>
      refine (memcpy_keeps _ _ _ m₄).bind fun _ m₅ hcopy => (taFree_keeps _ m₅).bind fun _ m₆ hfree => ?_
      have hkept₆ := (hkept₄.trans hcopy).trans hfree
      refine (concatLoop_reports _ buf _ _ l m₆).bind fun r m₇ hloop => ?_
      obtain ⟨hkept₇, hrep⟩ := hloop
      obtain ⟨t, q, errs, -, -, hpeek⟩ := scan_cases sys l
      rw [hpeek, hkept₆.defined] at hrep
      refine (cstr_keeps _ m₇).bind fun result m₈ hstr => (varStr_keeps _ m₈).bind fun res m₉ hnew => ?_
      refine (taFree_keeps _ m₉).bind fun _ m₁₀ hfree' => ?_
      exact hvalue _ ((((hkept₆.trans hkept₇).trans hstr).trans hnew).trans hfree') hrep.peek

theorem evalRhs_reports (l : Lex) (m : Mem F) : wlp (evalRhs sys l) (fun r m' => Evaluates sys [] l m r.2 m') m := by
  rw [evalRhs_eq]
  obtain ⟨t, q, errs, hscan, hnext, -⟩ := scan_cases sys l
  rw [hnext]
  dsimp only
  by_cases hend : t.type = .eof ∨ t.type = .hash
  · rw [if_pos hend]
    exact value_reports varNull_keeps (.skip hscan (ends_not_ident hend) (.refl knows_nil _))
  rw [if_neg hend]
  refine (evalAtom_reports _ t _ m).bind fun v m₁ hatom => ?_
  obtain ⟨hkept, hrep⟩ := hatom
  obtain ⟨t₂, q₂, errs₂, -, -, hpeek⟩ := scan_cases sys v.2
  refine (rhsTail_reports v m₁).mono fun r m' hpost => hpost.after hkept fun h => ?_
  rw [hpeek] at h
  exact .next hscan (hrep.trans h.peek)

end KanekFoundations.Cfg

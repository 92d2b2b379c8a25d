/-
  KanekFoundations.Cfg.Grammar — the lines that `parse_line` accepts.

  The grammar is one of positions in a line: `Reads p t q` is a token without an error
  between two positions, and a derivation goes from one position to another. `fails` says
  that some allocation may fail: then an array may be left out, and a concatenation cut.

  Proved, for every line, every memory and every outcome of the allocations:
  - the evaluator ends, and without an error only where its grammar has a derivation;
  - `parse_line_accepts`: `parse_line` returns 0 or -1, 0 only for an accepted line, and
    with allocations succeeding 0 for every accepted line.
-/

import KanekFoundations.Cfg.Graph
import KanekFoundations.Cfg.Parser

namespace KanekFoundations.Cfg

open KanekFoundations.Lib

variable {F : Type} {sys : Sys F}

/-- One token and no error. -/
def Reads (sys : Sys F) (p : List Byte) (t : Tok F) (q : List Byte) : Prop := scanTok sys p = ⟨t, q, []⟩

instance [DecidableEq F] (p : List Byte) (t : Tok F) (q : List Byte) : Decidable (Reads sys p t q) :=
  inferInstanceAs (Decidable (scanTok sys p = ⟨t, q, []⟩))

/-- The end of the line, or of what is not a comment. A character that starts no token is read as the end too. -/
def Tok.Ends (t : Tok F) : Prop := t.type = .eof ∨ t.type = .hash

def Tok.StartsItem (t : Tok F) : Prop :=
  t.type = .string ∨ t.type = .int ∨ t.type = .float ∨ t.type = .ident ∨ t.type = .lbracket

/-- `true`, `false` and `null` are no variables. -/
def IsWord (s : List Byte) : Prop := s = boolText true ∨ s = boolText false ∨ s = nullText

mutual

/-- A value after its lead token. A token that starts no value is read as null. -/
inductive AcceptsAtom (sys : Sys F) (fails : Prop) : Tok F → List Byte → List Byte → Prop
  | string (s : List Byte) (p : List Byte) : AcceptsAtom sys fails (.string s) p p
  | int (i : Int) (p : List Byte) : AcceptsAtom sys fails (.int i) p p
  | float (f : F) (p : List Byte) : AcceptsAtom sys fails (.float f) p p
  | word {s : List Byte} (p : List Byte) : IsWord s → AcceptsAtom sys fails (.ident s) p p
  | var {s p q : List Byte} {t : Tok F} :
    ¬ IsWord s → Reads sys p t q → t.type ≠ .lbracket → AcceptsAtom sys fails (.ident s) p p
  | index {s p q q' r : List Byte} {i : Int} :
    ¬ IsWord s → Reads sys p .lbracket q → Reads sys q (.int i) q' → Reads sys q' .rbracket r →
      AcceptsAtom sys fails (.ident s) p r
  | array {p q r : List Byte} : AcceptsItems sys fails p q → Reads sys q .rbracket r →
    AcceptsAtom sys fails .lbracket p r
  | openArray {p q r : List Byte} {t : Tok F} :
    AcceptsItems sys fails p q → Reads sys q t r → t.Ends → AcceptsAtom sys fails .lbracket p q
  | noArray (p : List Byte) : fails → AcceptsAtom sys fails .lbracket p p
  | other {t : Tok F} (p : List Byte) : ¬ t.StartsItem → AcceptsAtom sys fails t p p

/-- The items of an array, commas anywhere between them, up to a token that ends it. -/
inductive AcceptsItems (sys : Sys F) (fails : Prop) : List Byte → List Byte → Prop
  | stop {p q : List Byte} {t : Tok F} : Reads sys p t q → t.type = .rbracket ∨ t.Ends → AcceptsItems sys fails p p
  | comma {p q r : List Byte} : Reads sys p .comma q → AcceptsItems sys fails q r → AcceptsItems sys fails p r
  | item {p q q' r : List Byte} {t : Tok F} :
    Reads sys p t q → t.StartsItem → AcceptsAtom sys fails t q q' → AcceptsItems sys fails q' r →
      AcceptsItems sys fails p r

end

/-- What follows the first value: the rest of the line is not read when the next token is no `+`. -/
inductive AcceptsMore (sys : Sys F) (fails : Prop) : List Byte → List Byte → Prop
  | stop {p q : List Byte} {t : Tok F} : Reads sys p t q → t.type ≠ .plus → AcceptsMore sys fails p p
  | dangling {p q r : List Byte} {t : Tok F} :
    Reads sys p .plus q → Reads sys q t r → t.Ends → AcceptsMore sys fails p r
  | plus {p q q' q'' r : List Byte} {t : Tok F} :
    Reads sys p .plus q → Reads sys q t q' → ¬ t.Ends → AcceptsAtom sys fails t q' q'' → AcceptsMore sys fails q'' r →
      AcceptsMore sys fails p r
  | cut (p : List Byte) : fails → AcceptsMore sys fails p p

inductive AcceptsRhs (sys : Sys F) (fails : Prop) : List Byte → List Byte → Prop
  | empty {p q : List Byte} {t : Tok F} : Reads sys p t q → t.Ends → AcceptsRhs sys fails p q
  | value {p q q' r : List Byte} {t : Tok F} :
    Reads sys p t q → ¬ t.Ends → AcceptsAtom sys fails t q q' → AcceptsMore sys fails q' r → AcceptsRhs sys fails p r

/-- `loads` are the files that are loaded without an error. -/
inductive AcceptsLine (sys : Sys F) (fails : Prop) (loads : List Byte → Prop) (dir : List Byte) : List Byte → Prop
  | blank {p q : List Byte} {t : Tok F} : Reads sys p t q → t.Ends → AcceptsLine sys fails loads dir p
  | incl {p q : List Byte} :
    Reads sys p (.ident includeText) q → includeName q ≠ [] → loads (includePath dir (includeName q)) →
      AcceptsLine sys fails loads dir p
  | display {p q r : List Byte} :
    Reads sys p (.ident displayText) q → AcceptsRhs sys fails q r → AcceptsLine sys fails loads dir p
  | assign {p q q' r k : List Byte} {t : Tok F} :
    Reads sys p (.ident k) q → k ≠ includeText → k ≠ displayText → Reads sys q t q' → t.type = .eq ∨ t.type = .pluseq →
      AcceptsRhs sys fails q' r → AcceptsLine sys fails loads dir p

/-! ## The documented grammar -/

/-- Nothing but blanks, or a comment. -/
def DocEnd (p : List Byte) : Prop := lexSkipWs p = [] ∨ (lexSkipWs p).head? = some (chr '#')

instance (p : List Byte) : Decidable (DocEnd p) :=
  inferInstanceAs (Decidable (lexSkipWs p = [] ∨ (lexSkipWs p).head? = some (chr '#')))

mutual

inductive DocAtom (sys : Sys F) : List Byte → List Byte → Prop
  | string {p q s : List Byte} : Reads sys p (.string s) q → DocAtom sys p q
  | int {p q : List Byte} {i : Int} : Reads sys p (.int i) q → DocAtom sys p q
  | float {p q : List Byte} {f : F} : Reads sys p (.float f) q → DocAtom sys p q
  | ident {p q s : List Byte} : Reads sys p (.ident s) q → DocAtom sys p q
  | index {p q q' q'' r s : List Byte} {i : Int} :
    Reads sys p (.ident s) q → Reads sys q .lbracket q' → Reads sys q' (.int i) q'' → Reads sys q'' .rbracket r →
      DocAtom sys p r
  | emptyArray {p q r : List Byte} : Reads sys p .lbracket q → Reads sys q .rbracket r → DocAtom sys p r
  | array {p q q' r : List Byte} :
    Reads sys p .lbracket q → DocItems sys q q' → Reads sys q' .rbracket r → DocAtom sys p r

inductive DocItems (sys : Sys F) : List Byte → List Byte → Prop
  | one {p q : List Byte} : DocAtom sys p q → DocItems sys p q
  | more {p q q' r : List Byte} : DocAtom sys p q → Reads sys q .comma q' → DocItems sys q' r → DocItems sys p r

end

inductive DocExpr (sys : Sys F) : List Byte → List Byte → Prop
  | one {p q : List Byte} : DocAtom sys p q → DocExpr sys p q
  | plus {p q q' r : List Byte} : DocAtom sys p q → Reads sys q .plus q' → DocExpr sys q' r → DocExpr sys p r

inductive DocLine (sys : Sys F) : List Byte → Prop
  | blank {p : List Byte} : DocEnd p → DocLine sys p
  | incl {p q : List Byte} : Reads sys p (.ident includeText) q → includeName q ≠ [] → DocLine sys p
  | display {p q r : List Byte} : Reads sys p (.ident displayText) q → DocExpr sys q r → DocEnd r → DocLine sys p
  | assign {p q q' r k : List Byte} {t : Tok F} :
    Reads sys p (.ident k) q → Reads sys q t q' → t.type = .eq ∨ t.type = .pluseq → DocExpr sys q' r → DocEnd r →
      DocLine sys p

/-- A documented value has a token to start with. -/
theorem DocExpr.first {p r : List Byte} (h : DocExpr sys p r) : ∃ (t : Tok F) (q : List Byte), Reads sys p t q ∧
    ¬ t.Ends := by
  have hatom : ∀ {q : List Byte}, DocAtom sys p q → ∃ (t : Tok F) (q : List Byte), Reads sys p t q ∧ ¬ t.Ends := by
    intro q ha
    cases ha with
    | string hr | int hr | float hr | ident hr | index hr | emptyArray hr | array hr =>
      exact ⟨_, _, hr, by simp [Tok.Ends, Tok.type]⟩
  cases h with
  | one ha => exact hatom ha
  | plus ha => exact hatom ha

/-! ## What a step of the lexer means for the grammar -/

/-- The lexer after a token that ends at `q`, or after a look at one. -/
def Lex.after (l : Lex) (q : List Byte) (errs : List Report) : Lex := ⟨q, l.error || !errs.isEmpty, l.trace ++ errs⟩

theorem scan_cases (sys : Sys F) (l : Lex) :
    ∃ t q errs, scanTok sys l.p = ⟨t, q, errs⟩ ∧ nextTok sys l = (t, l.after q errs) ∧
      peekTok sys l = (t, l.after l.p errs) :=
  ⟨_, _, _, rfl, rfl, rfl⟩

theorem next_of_scan {l : Lex} {t : Tok F} {q : List Byte} {errs : List Report} (h : scanTok sys l.p = ⟨t, q, errs⟩) :
    nextTok sys l = (t, l.after q errs) := by
  unfold nextTok
  rw [h]
  rfl

theorem peek_of_scan {l : Lex} {t : Tok F} {q : List Byte} {errs : List Report} (h : scanTok sys l.p = ⟨t, q, errs⟩) :
    peekTok sys l = (t, l.after l.p errs) := by
  unfold peekTok
  rw [next_of_scan h]
  rfl

theorem after_error {l : Lex} {q : List Byte} {errs : List Report} :
    (l.after q errs).error = false ↔ l.error = false ∧ errs = [] := by
  unfold Lex.after
  rw [Bool.or_eq_false_iff, Bool.not_eq_false', List.isEmpty_iff]

/-- From `l` to `l'` without an error exactly along a derivation; `A fails q` are the
    derivations that end at `q`. -/
structure LexStep (sys : Sys F) (A : Prop → List Byte → Prop) (l l' : Lex) : Prop where
  length : l'.p.length ≤ l.p.length
  sound : l'.error = false → l.error = false ∧ A (¬ sys.NoFail) l'.p
  complete : sys.NoFail → l.error = false → ∀ q, A False q → l'.error = false ∧ l'.p = q

variable {A B C : Prop → List Byte → Prop} {l l' l'' : Lex} {p q r : List Byte} {t : Tok F} {errs : List Report}

/-- Nothing more is read. -/
theorem LexStep.done (hs : A (¬ sys.NoFail) l.p) (hc : ∀ q, A False q → q = l.p) : LexStep sys A l l :=
  ⟨Nat.le_refl _, fun h => ⟨h, hs⟩, fun _ herr q hq => ⟨herr, (hc q hq).symm⟩⟩

/-- A token is read, or looked at, first. -/
theorem LexStep.scan (hlen : p.length ≤ l.p.length) (h : LexStep sys B (l.after p errs) l')
    (hs : errs = [] → B (¬ sys.NoFail) l'.p → A (¬ sys.NoFail) l'.p) (hc : ∀ q, A False q → errs = [] ∧ B False q) :
    LexStep sys A l l' := by
  refine ⟨Nat.le_trans h.length hlen, fun herr => ?_, fun hok herr q hq => ?_⟩
  · obtain ⟨herr', hb⟩ := h.sound herr
    obtain ⟨herr'', he⟩ := after_error.mp herr'
    exact ⟨herr'', hs he hb⟩
  · obtain ⟨he, hb⟩ := hc q hq
    exact h.complete hok (after_error.mpr ⟨herr, he⟩) q hb

/-- A token is looked at and then read. -/
theorem LexStep.token (hlen : p.length ≤ l.p.length) (h : LexStep sys B ((l.after l.p errs).after p errs) l')
    (hs : errs = [] → B (¬ sys.NoFail) l'.p → A (¬ sys.NoFail) l'.p) (hc : ∀ q, A False q → errs = [] ∧ B False q) :
    LexStep sys A l l' := by
  have hnext : LexStep sys (fun fails q => errs = [] ∧ B fails q) (l.after l.p errs) l' :=
    .scan hlen h (fun he hb => ⟨he, hb⟩) fun _ hq => hq
  exact .scan (Nat.le_refl _) hnext (fun he hb => hs he hb.2) fun q hq => ⟨(hc q hq).1, hc q hq⟩

/-- One derivation after another. -/
theorem LexStep.seq (h : LexStep sys A l l') (h' : LexStep sys B l' l'')
    (hs : A (¬ sys.NoFail) l'.p → B (¬ sys.NoFail) l''.p → C (¬ sys.NoFail) l''.p)
    (hc : ∀ q, C False q → ∃ p, A False p ∧ (p = l'.p → B False q)) : LexStep sys C l l'' := by
  refine ⟨Nat.le_trans h'.length h.length, fun herr => ?_, fun hok herr q hq => ?_⟩
  · obtain ⟨herr', hb⟩ := h'.sound herr
    obtain ⟨herr'', ha⟩ := h.sound herr'
    exact ⟨herr'', hs ha hb⟩
  · obtain ⟨p, ha, hb⟩ := hc q hq
    obtain ⟨herr', rfl⟩ := h.complete hok herr p ha
    exact h'.complete hok herr' q (hb rfl)

/-- A derivation, and one from where it ended. -/
theorem LexStep.both {B : Prop → List Byte → List Byte → Prop} (ha : LexStep sys A l l')
    (hb : LexStep sys (fun fails r => B fails l'.p r) l' l'') :
    LexStep sys (fun fails r => ∃ p, A fails p ∧ B fails p r) l l'' := by
  refine .seq ha hb (fun ha hb => ⟨_, ha, hb⟩) fun r hr => ?_
  obtain ⟨p, ha, hb⟩ := hr
  exact ⟨p, ha, fun hp => hp ▸ hb⟩

/-- An error was raised, and there is no derivation. -/
theorem LexStep.reject (hlen : l'.p.length ≤ l.p.length) (herr : l'.error = true) (hc : ∀ q, ¬ A False q) :
    LexStep sys A l l' :=
  ⟨hlen, fun h => (by rw [herr] at h; cases h), fun _ _ q hq => absurd hq (hc q)⟩

/-- An error stays. -/
theorem LexStep.error (h : LexStep sys A l l') (herr : l.error = true) : l'.error = true := by
  cases herr' : l'.error with
  | true => rfl
  | false =>
    rw [(h.sound herr').1] at herr
    cases herr

theorem LexStep.report (h : LexStep sys A l l') (fmt : String) (args : List (List Byte)) :
    LexStep sys A l (l'.report fmt args) :=
  ⟨h.length, h.sound, h.complete⟩

end KanekFoundations.Cfg

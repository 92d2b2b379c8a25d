/-
  KanekFoundations.Cfg.Texts — what an operand comes to depends on where it stands and on the
  variables.

  The evaluator carries a position and an error flag along. From a given position it ends at
  one place, raises the flag or not, and gives a value of one text, whatever was read before
  and whatever is in memory besides the variables. So a right-hand side read behind `+=` and
  the same text read behind `K +` come to the same.

  Proved, with allocations succeeding:
  - `items_went`: the loop of an array ends at one place, round by round;
  - `atom_reads`: an operand has a text, an end and a flag of its own.
-/

import KanekFoundations.Cfg.Operands

namespace KanekFoundations.Cfg

open KanekFoundations.Lib

variable {F : Type} {α : Type} {sys : Sys F} {g g' g₀ : SubHeap (Block F)} {m m' m₀ : Mem F} {l l' l'' : Lex}
  {p q q' : List Byte} {tok : Tok F} {e e' : Bool}

/-! ## From one position to another -/

/-- The lexer got from `l` to the position `q`; `e` says whether the flag was raised on the way. -/
structure Lex.Went (l l' : Lex) (q : List Byte) (e : Bool) : Prop where
  place : l'.p = q
  error : l'.error = (l.error || e)

theorem Lex.Went.refl (l : Lex) : Lex.Went l l l.p false := ⟨rfl, (Bool.or_false _).symm⟩

theorem Lex.Went.trans (h : Lex.Went l l' q e) (h' : Lex.Went l' l'' q' e') : Lex.Went l l'' q' (e || e') :=
  ⟨h'.place, by rw [h'.error, h.error, Bool.or_assoc]⟩

theorem Lex.Went.after (l : Lex) (q : List Byte) (errs : List Report) : Lex.Went l (l.after q errs) q (!errs.isEmpty) :=
    ⟨rfl, rfl⟩

theorem Lex.Went.failed (h : Lex.Went l l' q e) (fmt : String) : Lex.Went l (l'.fail fmt) q true :=
  ⟨h.place, (Bool.or_true _).symm⟩

theorem Lex.Went.report (h : Lex.Went l l' q e) (fmt : String) (args : List (List Byte)) :
    Lex.Went l (l'.report fmt args) q e := ⟨h.place, h.error⟩

/-- The lexer `l` with the flag and the reports of `b` before its own. -/
def Lex.onto (b l : Lex) : Lex := ⟨l.p, b.error || l.error, b.trace ++ l.trace⟩

theorem onto_start (l : Lex) : l.onto ⟨l.p, false, []⟩ = l := by
  unfold Lex.onto
  rw [Bool.or_false, List.append_nil]

theorem nextTok_onto (sys : Sys F) (b l : Lex) :
    nextTok sys (b.onto l) = ((nextTok sys l).1, b.onto (nextTok sys l).2) := by
  unfold nextTok Lex.onto
  dsimp only
  rw [Bool.or_assoc, List.append_assoc]

theorem peekTok_onto (sys : Sys F) (b l : Lex) :
    peekTok sys (b.onto l) = ((peekTok sys l).1, b.onto (peekTok sys l).2) := by
  unfold peekTok
  rw [nextTok_onto]
  rfl

theorem fail_onto (b l : Lex) (fmt : String) : (b.onto l).fail fmt = b.onto (l.fail fmt) := by
  unfold Lex.onto Lex.fail
  rw [Bool.or_true, List.append_assoc]

theorem operandEnd_onto (sys : Sys F) (tok : Tok F) (b l : Lex) :
    operandEnd sys tok (b.onto l) = b.onto (operandEnd sys tok l) := by
  cases tok with
  | ident s =>
    unfold operandEnd
    simp only [nextTok_onto, peekTok_onto, fail_onto]
    split
    · rfl
    split
    · split
      · rfl
      split <;> rfl
    · rfl
  | _ => rfl

theorem nextTok_length (sys : Sys F) (l : Lex) : (nextTok sys l).2.p.length ≤ l.p.length := (scanTok_length sys l.p).1

theorem operandEnd_length (sys : Sys F) (tok : Tok F) (l : Lex) : (operandEnd sys tok l).p.length ≤ l.p.length := by
  cases tok with
  | ident s =>
    have hthree : ∀ l : Lex, (nextTok sys (nextTok sys (nextTok sys l).2).2).2.p.length ≤ l.p.length := fun l =>
      Nat.le_trans (nextTok_length sys _) (Nat.le_trans (nextTok_length sys _) (nextTok_length sys l))
    unfold operandEnd
    dsimp only
    split
    · exact Nat.le_refl _
    split
    · split
      · exact hthree (peekTok sys l).2
      split <;> exact hthree (peekTok sys l).2
    · exact Nat.le_refl _
  | _ => exact Nat.le_refl _

/-- From `p` the operand with this lead token ends at one place, with the flag raised or not. -/
theorem operandEnd_went (sys : Sys F) (tok : Tok F) (p : List Byte) :
    ∃ q e, q.length ≤ p.length ∧ ∀ l, l.p = p → Lex.Went l (operandEnd sys tok l) q e := by
  refine ⟨_, (operandEnd sys tok ⟨p, false, []⟩).error, operandEnd_length sys tok ⟨p, false, []⟩, fun l hl => ?_⟩
  subst hl
  have hend := operandEnd_onto sys tok l ⟨l.p, false, []⟩
  rw [onto_start] at hend
  rw [hend]
  exact ⟨rfl, rfl⟩

/-! ## Operands -/

/-- With allocations succeeding, the operand behind `tok` at `p` ends at `q`, in any memory. -/
def AtomWent (sys : Sys F) (tok : Tok F) (p q : List Byte) (e : Bool) : Prop :=
  ∀ n l m, l.p = p → wlp (evalAtom sys n tok l) (fun r _ => Lex.Went l r.2 q e) m

def ItemsWent (sys : Sys F) (p q : List Byte) (e : Bool) : Prop :=
  ∀ n k arr l m, l.p = p → wlp (evalItems sys (evalAtom sys n) arr k l) (fun l' _ => Lex.Went l l' q e) m

theorem wlp_value {x : M F (Option Addr)} (h : Lex.Went l l' q e) :
    wlp (x >>= fun v => pure (v, l')) (fun r _ => Lex.Went l r.2 q e) m := by
  have hx : wlp x (fun _ _ => True) m := fun _ _ _ => trivial
  exact hx.bind fun _ _ _ => wlp_pure h

/-- An operand that is no array ends where its tokens do, whichever allocations succeed. -/
theorem atom_end (ht : tok.type ≠ .lbracket) (hwent : Lex.Went l (operandEnd sys tok l) q e) (n : Nat) (m : Mem F) :
    wlp (evalAtom sys n tok l) (fun r _ => Lex.Went l r.2 q e) m := by
  cases n with
  | zero => exact fun _ _ h => by cases h
  | succ n =>
    cases tok with
    | lbracket => exact absurd rfl ht
    | ident s =>
      by_cases hword : IsWord s
      · rw [operandEnd_word sys hword] at hwent
        rcases hword with rfl | rfl | rfl
        · exact wlp_value hwent
        · exact wlp_value hwent
        · exact wlp_value hwent
      obtain ⟨idx, -, -, -, hrun⟩ := evalIdent_eq sys hword l
      rw [show evalAtom sys (n + 1) (.ident s) l = _ from hrun sys.mallocOk n]
      have hvar : wlp (getVar sys s) (fun _ _ => True) m := fun _ _ _ => trivial
      refine hvar.bind fun v m₁ _ => ?_
      cases idx with
      | bad => exact wlp_value hwent
      | absent =>
        cases v with
        | none => exact wlp_value (hwent.report _ _)
        | some v => exact wlp_pure hwent
      | item i =>
        cases v with
        | none => exact wlp_value (hwent.report _ _)
        | some v =>
          have hget : wlp (varGet (some v) i) (fun _ _ => True) m₁ := fun _ _ _ => trivial
          refine hget.bind fun elem m₂ _ => ?_
          cases elem with
          | none => exact wlp_value hwent
          | some elem => exact wlp_pure hwent
    | _ => exact wlp_value hwent

theorem atom_went (sys : Sys F) (ht : tok.type ≠ .lbracket) (p : List Byte) :
    ∃ q e, q.length ≤ p.length ∧ AtomWent sys tok p q e := by
  obtain ⟨q, e, hlen, hend⟩ := operandEnd_went sys tok p
  exact ⟨q, e, hlen, fun n l m hl => atom_end ht (hend l hl) n m⟩

/-- An array ends behind its items, and behind the bracket if it is there. -/
theorem array_went (hyes : sys.NoFail) (hitems : ItemsWent sys p q e) (hlen : q.length ≤ p.length) :
    ∃ q' e', q'.length ≤ p.length ∧ AtomWent sys .lbracket p q' e' := by
  obtain ⟨t, r, errs, hscan, -, -⟩ := scan_cases sys ⟨q, false, []⟩
  have hr : r.length ≤ p.length := Nat.le_trans (scan_length hscan).1 hlen
  have hclosed : (if t.type = .rbracket then r else q).length ≤ p.length := by
    split
    · exact hr
    · exact hlen
  refine ⟨if t.type = .rbracket then r else q, (e || !errs.isEmpty) ||
    (if t.type = .rbracket then !errs.isEmpty else false),
    hclosed, fun n l m hl => ?_⟩
  cases n with
  | zero => exact fun _ _ h => by cases h
  | succ n =>
    unfold evalAtom
    refine (varArray_keeps m).bind fun arr m₁ hpost => ?_
    cases arr with
    | none => exact absurd hyes (hpost.2 rfl)
    | some arr =>
      refine (hitems n _ arr l m₁ hl).bind fun l₁ m₂ hwent => ?_
      have hplace := hwent.place
      subst hplace
      have hpeeked := hwent.trans (.after l₁ l₁.p errs)
      rw [show peekTok sys l₁ = _ from peek_of_scan hscan]
      dsimp only
      by_cases ht : t.type = .rbracket
      · rw [if_pos ht, next_of_scan (l := l₁.after l₁.p errs) hscan, if_pos ht, if_pos ht]
        exact wlp_pure (hpeeked.trans (.after _ _ _))
      · rw [if_neg ht, if_neg ht, if_neg ht, Bool.or_false]
        exact wlp_pure hpeeked

section
variable {t : Tok F} {errs : List Report} {q₁ q₂ : List Byte} {e₁ e₂ : Bool}

/-- The loop of an array in front of a token that ends it. -/
theorem items_stop (hscan : scanTok sys p = ⟨t, q, errs⟩) (ht : t.type = .rbracket ∨ t.Ends) :
    ItemsWent sys p p (!errs.isEmpty) := by
  intro n k arr l m hl
  subst hl
  cases k with
  | zero => exact fun _ _ h => by cases h
  | succ k =>
    rw [evalItems_end (peek_of_scan hscan) ht]
    exact wlp_pure (.after l l.p errs)

theorem items_comma (hscan : scanTok sys p = ⟨.comma, q, errs⟩) (hrest : ItemsWent sys q q₁ e₁) :
    ItemsWent sys p q₁ ((!errs.isEmpty || !errs.isEmpty) || e₁) := by
  intro n k arr l m hl
  subst hl
  cases k with
  | zero => exact fun _ _ h => by cases h
  | succ k =>
    rw [evalItems_comma (peek_of_scan hscan), next_of_scan (l := l.after l.p errs) hscan]
    exact (hrest n k arr _ m rfl).mono fun l' _ h => ((Lex.Went.after l l.p errs).trans (.after _ q errs)).trans h

/-- A token that belongs in no array: the flag is raised, and the token skipped. -/
theorem items_skip (hscan : scanTok sys p = ⟨t, q, errs⟩) (ht : t.type = .eq ∨ t.type = .pluseq ∨ t.type = .plus)
    (hrest : ItemsWent sys q q₁ e₁) : ItemsWent sys p q₁ ((true || !errs.isEmpty) || e₁) := by
  intro n k arr l m hl
  subst hl
  cases k with
  | zero => exact fun _ _ h => by cases h
  | succ k =>
    rw [evalItems_skip (peek_of_scan hscan) ht,
      next_of_scan (l := (l.after l.p errs).fail "unexpected token in array literal") hscan]
    refine (hrest n k arr _ m rfl).mono fun l' _ h => ?_
    exact (((Lex.Went.after l l.p errs).failed "unexpected token in array literal").trans (.after _ q errs)).trans h

theorem items_item (hscan : scanTok sys p = ⟨t, q, errs⟩) (hstart : t.StartsItem) (hatom : AtomWent sys t q q₁ e₁)
    (hrest : ItemsWent sys q₁ q₂ e₂) : ItemsWent sys p q₂ (((!errs.isEmpty || !errs.isEmpty) || e₁) || e₂) := by
  intro n k arr l m hl
  subst hl
  cases k with
  | zero => exact fun _ _ h => by cases h
  | succ k =>
    rw [evalItems_item (peek_of_scan hscan) hstart, next_of_scan (l := l.after l.p errs) hscan]
    refine (hatom n ((l.after l.p errs).after q errs) m rfl).bind fun r m₁ hr => ?_
    have hgo : ∀ m', wlp (evalItems sys (evalAtom sys n) arr k r.2)
        (fun l' _ => Lex.Went l l' q₂ (((!errs.isEmpty || !errs.isEmpty) || e₁) || e₂)) m' := fun m' =>
      (hrest n k arr r.2 m' hr.place).mono fun l' _ h =>
        (((Lex.Went.after l l.p errs).trans (.after _ q errs)).trans hr).trans h
    obtain ⟨item, l₁⟩ := r
    cases item with
    | none => exact hgo m₁
    | some item => exact (varPush_keeps _ _ m₁).bind fun _ m₂ _ => hgo m₂

end

/-- The loop of an array ends at one place: by what is left of the line. -/
theorem items_went (hyes : sys.NoFail) (p : List Byte) : ∃ q e, q.length ≤ p.length ∧ ItemsWent sys p q e := by
  induction hn : p.length using Nat.strong_induction_on generalizing p with
  | h n ih =>
  subst hn
  obtain ⟨t, q, errs, hscan, -, -⟩ := scan_cases sys ⟨p, false, []⟩
  have hlt : t.type ≠ .eof → q.length < p.length := (scan_length hscan).2
  rcases item_cases t with hstart | hstop | rfl | hskip
  · have hlt := hlt (startsItem_not_eof hstart)
    have hatom : ∃ q₁ e₁, q₁.length ≤ q.length ∧ AtomWent sys t q q₁ e₁ := by
      by_cases ht : t.type = .lbracket
      · obtain ⟨q', e', hle, hitems⟩ := ih q.length hlt q rfl
        cases t with
        | lbracket => exact array_went hyes hitems hle
        | _ => cases ht
      · exact atom_went sys ht q
    obtain ⟨q₁, e₁, hle₁, hwent₁⟩ := hatom
    obtain ⟨q₂, e₂, hle₂, hwent₂⟩ := ih q₁.length (Nat.lt_of_le_of_lt hle₁ hlt) q₁ rfl
    exact ⟨q₂, _, by omega, items_item hscan hstart hwent₁ hwent₂⟩
  · exact ⟨p, _, Nat.le_refl _, items_stop hscan hstop⟩
  · have hlt := hlt fun heof => by cases heof
    obtain ⟨q₁, e₁, hle₁, hwent₁⟩ := ih q.length hlt q rfl
    exact ⟨q₁, _, Nat.le_trans hle₁ (Nat.le_of_lt hlt), items_comma hscan hwent₁⟩
  · have hlt := hlt fun heof => by rcases hskip with h | h | h <;> rw [heof] at h <;> cases h
    obtain ⟨q₁, e₁, hle₁, hwent₁⟩ := ih q.length hlt q rfl
    exact ⟨q₁, _, Nat.le_trans hle₁ (Nat.le_of_lt hlt), items_skip hscan hskip hwent₁⟩

theorem evalAtom_went (hyes : sys.NoFail) (tok : Tok F) (p : List Byte) :
    ∃ q e, q.length ≤ p.length ∧ AtomWent sys tok p q e := by
  by_cases ht : tok.type = .lbracket
  · obtain ⟨q, e, hlen, hitems⟩ := items_went hyes p
    cases tok with
    | lbracket => exact array_went hyes hitems hlen
    | _ => cases ht
  · exact atom_went sys ht p

/-! ## Their texts -/

theorem valText_some {v : Addr} {b : Block F} (hv : g v = some b) : valText sys g (some v) = b.text sys g := by
  unfold valText
  rw [Option.bind_some, hv]

/-- The text of a value stays when there are more values. -/
theorem valText_mono (hclosed : Closed g) (hs : Sub g g') {v : Addr} (hv : IsVar g v) :
    valText sys g' (some v) = valText sys g (some v) := by
  obtain ⟨b, hb, -⟩ := hv
  rw [valText_some hb, valText_some (hs v b hb)]
  cases b with
  | str s =>
    cases s with
    | none => rfl
    | some c =>
      obtain ⟨cap, text, hget⟩ := hclosed v _ hb
      simp only [Block.text, hget, hs c _ hget]
  | _ => rfl

theorem item_mono (hclosed : Closed g) (hs : Sub g g') {v : Addr} {b : Block F} (hb : g v = some b) (i : Nat) :
    b.item g' i = b.item g i := by
  cases b with
  | array items len cap =>
    obtain ⟨written, hget, -⟩ := hclosed v _ hb
    rw [Block.item_array hget, Block.item_array (hs items _ hget)]
  | _ => rfl

theorem Points.text (hyes : sys.NoFail) {b : Block F} {r : Option Addr} (h : Points sys g b r) :
    valText sys g r = b.text sys g := by
  cases r with
  | none => exact absurd rfl (h.2 hyes)
  | some v => exact valText_some (h.1 v rfl)

theorem PointsStr.text (hyes : sys.NoFail) {text : List Byte} {r : Option Addr} (h : PointsStr sys g text r) :
    valText sys g r = text := by
  cases r with
  | none => exact absurd rfl (h.2 hyes)
  | some v =>
    obtain ⟨s, hget, htext, hok⟩ := h.1 v rfl
    cases s with
    | none => exact absurd rfl (hok hyes)
    | some c =>
      obtain ⟨cap, hc⟩ := htext c rfl
      rw [valText_some hget]
      simp only [Block.text, hc]

/-- The run ends with a value of this text. -/
def WithText (sys : Sys F) (g : SubHeap (Block F)) (m : Mem F) (text : List Byte) (r : Option Addr)
    (m' : Mem F) : Prop :=
  Yields g m (fun g' r => IsVal sys g' r ∧ valText sys g' r = text) r m'

/-- The operand behind `tok` at `p` has this text in every memory that extends `m`. -/
def AtomText (sys : Sys F) (g : SubHeap (Block F)) (m : Mem F) (tok : Tok F) (p text : List Byte) : Prop :=
  ∀ n l g' m', l.p = p → p.length < n → Extends g m g' m' →
    wp (evalAtom sys n tok l) (fun r m'' => WithText sys g' m' text r.1 m'') m'

/-- A value is made, and nothing more is read. -/
theorem text_value {x : M F (Option Addr)} {text : List Byte} (hx : wp x (WithText sys g m text) m) (l : Lex) :
    wp (x >>= fun v => pure (v, l)) (fun r m' => WithText sys g m text r.1 m') m :=
  hx.bind fun _ _ h => wp_pure.mpr h

theorem Points.withText (hyes : sys.NoFail) {b : Block F} (hb : b.isVar = true) {x : M F (Option Addr)}
    (hx : wp x (Yields g m fun g' r => Points sys g' b r) m) (htext : ∀ g', b.text sys g' = b.text sys g) :
    wp x (WithText sys g m (b.text sys g)) m := by
  refine hx.mono fun r m' hpost => ?_
  obtain ⟨g', hext, hp⟩ := hpost
  exact ⟨g', hext, hp.isVal hb, (hp.text hyes).trans (htext g')⟩

theorem null_text (hyes : sys.NoFail) (h : Safe sys g m) (l : Lex) :
    wp (varNull sys >>= fun v => pure (v, l)) (fun r m' => WithText sys g m nullText r.1 m') m :=
  text_value (Points.withText hyes rfl (varNull_spec h) fun _ => rfl) l

theorem report_onto (b l : Lex) (fmt : String) (args : List (List Byte)) :
    (b.onto l).report fmt args = b.onto (l.report fmt args) := by
  unfold Lex.onto Lex.report
  rw [List.append_assoc]

/-- The flag and the reports are only written. -/
theorem evalIdent_onto {s : List Byte} (hword : ¬ IsWord s) (n : Nat) (b l : Lex) :
    evalAtom sys (n + 1) (.ident s) (b.onto l) = evalAtom sys (n + 1) (.ident s) l >>= fun r => pure
      (r.1, b.onto r.2) := by
  rw [evalAtom_ident hword, evalAtom_ident hword, bind_assoc]
  refine congrArg (getVar sys s >>= ·) (funext fun v => ?_)
  simp only [nextTok_onto, peekTok_onto, fail_onto, report_onto]
  split
  · split
    · rw [bind_assoc]
      rfl
    split
    · cases v with
      | none =>
        dsimp only
        rw [bind_assoc]
        rfl
      | some v =>
        dsimp only
        rw [bind_assoc]
        refine congrArg (varGet _ _ >>= ·) (funext fun elem => ?_)
        cases elem with
        | none =>
          dsimp only
          rw [bind_assoc]
          rfl
        | some elem => rfl
    · rw [bind_assoc]
      rfl
  · cases v with
    | none =>
      dsimp only
      rw [bind_assoc]
      rfl
    | some v => rfl

/-- A value from before keeps its text. -/
theorem Extends.withText (hext : Extends g m g' m') (h : Safe sys g m) {v : Addr} (hv : IsVar g v) :
    WithText sys g' m' (valText sys g (some v)) (some v) m' :=
  ⟨g', (h.extend hext).refl, isVal_some (hv.mono hext.grows.sub), valText_mono h.closed hext.grows.sub hv⟩

/-- The text of a variable, or of an item of it, is fixed by the variables. -/
theorem ident_text (h : Safe sys g m) (hyes : sys.NoFail) {s : List Byte} (hword : ¬ IsWord s) (p : List Byte) :
    ∃ text, AtomText sys g m (.ident s) p text := by
  obtain ⟨idx, -, -, -, hrun⟩ := evalIdent_eq sys hword ⟨p, false, []⟩
  generalize operandEnd sys (.ident s) ⟨p, false, []⟩ = e at hrun
  have hvar := fun v => h.getVar s (v := v)
  -- From the start of a line, in a memory that extends this one.
  suffices hstart : ∃ text, ∀ n g' m', Extends g m g' m' →
      wp (evalAtom sys (n + 1) (.ident s) ⟨p, false, []⟩) (fun r m'' => WithText sys g' m' text r.1 m'') m' by
    obtain ⟨text, hstart⟩ := hstart
    refine ⟨text, fun n l g' m' hl hn hext => ?_⟩
    subst hl
    obtain ⟨n, rfl⟩ := Nat.exists_eq_succ_of_ne_zero (Nat.ne_of_gt (Nat.zero_lt_of_lt hn))
    rw [← onto_start l, evalIdent_onto hword]
    exact (hstart n g' m' hext).bind fun r m'' hr => wp_pure.mpr hr
  have hget : ∀ {g' m'}, Extends g m g' m' → ∀ {Q : Option Addr → Mem F → Prop},
      wp (getVar sys s) Q m' ↔ Q (m.vars.dictGet sys.xxh32 (some s)) m' := by
    intro g' m' hext Q
    rw [wp_getVar, hext.vars]
  have heq : ∀ n, evalAtom sys (n + 1) (.ident s) ⟨p, false, []⟩ = _ := fun n => hrun sys.mallocOk n
  generalize m.vars.dictGet sys.xxh32 (some s) = v at hvar hget
  cases idx with
  | bad =>
    refine ⟨nullText, fun n g' m' hext => ?_⟩
    rw [heq, wp_bind, hget hext]
    exact null_text hyes (h.extend hext) e
  | absent =>
    cases v with
    | none =>
      refine ⟨nullText, fun n g' m' hext => ?_⟩
      rw [heq, wp_bind, hget hext]
      exact null_text hyes (h.extend hext) _
    | some v =>
      refine ⟨valText sys g (some v), fun n g' m' hext => ?_⟩
      rw [heq, wp_bind, hget hext]
      exact wp_pure.mpr (hext.withText h (hvar v rfl))
  | item i =>
    cases v with
    | none =>
      refine ⟨nullText, fun n g' m' hext => ?_⟩
      rw [heq, wp_bind, hget hext]
      exact null_text hyes (h.extend hext) _
    | some v =>
      obtain ⟨b, hb, -⟩ := hvar v rfl
      have hitem : ∀ {g' m'}, Extends g m g' m' → wp (varGet (some v) i)
          (fun r m'' => m'' = m' ∧ r = b.item g i) m' := by
        intro g' m' hext
        rw [← item_mono h.closed hext.grows.sub hb i]
        exact varGet_spec hext.grows.within hext.closed (hext.grows.sub v b hb) i
      have helem : ∀ elem, b.item g i = some elem → IsVar g elem := fun _ => Block.item_isVar (h.closed v b hb)
      generalize b.item g i = elem at hitem helem
      cases elem with
      | none =>
        refine ⟨nullText, fun n g' m' hext => ?_⟩
        rw [heq, wp_bind, hget hext]
        refine (hitem hext).bind fun r m'' hr => ?_
        obtain ⟨rfl, rfl⟩ := hr
        exact null_text hyes (h.extend hext) e
      | some elem =>
        refine ⟨valText sys g (some elem), fun n g' m' hext => ?_⟩
        rw [heq, wp_bind, hget hext]
        refine (hitem hext).bind fun r m'' hr => ?_
        obtain ⟨rfl, rfl⟩ := hr
        exact wp_pure.mpr (hext.withText h (helem elem rfl))

theorem array_text (h : Safe sys g m) (hyes : sys.NoFail) (p : List Byte) :
    AtomText sys g m .lbracket p (ascii ['[', 'a', 'r', 'r', 'a', 'y', ']']) := by
  intro n l g' m' hl hn hext
  subst hl
  have h' := h.extend hext
  cases n with
  | zero => exact absurd hn (Nat.not_lt_zero _)
  | succ n =>
    unfold evalAtom
    refine wp.bind (varArray_spec h') ?_
    intro arr m₁ hpost
    obtain ⟨hext₁, hfill, hok⟩ := hpost
    cases arr with
    | none => exact absurd rfl (hok hyes)
    | some arr =>
      refine wp.bind (evalItems_spec (fun tok l g m => evalAtom_spec n tok l g m) h' (l.p.length + 1)
        (Nat.lt_succ_self _)
        (Nat.le_of_lt_succ hn) hext₁ (hfill arr rfl)) ?_
      intro l₂ m₂ hpost
      obtain ⟨-, g₂, written, hext₂, hfill₂⟩ := hpost
      obtain ⟨g₃, hext₃, -, items, cap, harr, -⟩ := hfill₂.freeze hext₂
      have hval : WithText sys g' m' (ascii ['[', 'a', 'r', 'r', 'a', 'y', ']']) (some arr) m₂ :=
        ⟨g₃, hext₃, isVal_some ⟨_, harr, rfl⟩, valText_some harr⟩
      dsimp only
      split
      · exact wp_pure.mpr hval
      · exact wp_pure.mpr hval

theorem atom_text (h : Safe sys g m) (hyes : sys.NoFail) (tok : Tok F) (p : List Byte) :
    ∃ text, AtomText sys g m tok p text := by
  -- A value that the operand makes by itself.
  have hmade : ∀ (text : List Byte) (x : M F (Option Addr)),
    (∀ g' m', Safe sys g' m' → wp x (WithText sys g' m' text) m') →
      (∀ n l, evalAtom sys (n + 1) tok l = x >>= fun v => pure (v, l)) → ∃ text, AtomText sys g m tok p text := by
    refine fun text x hx hrun => ⟨text, fun n l g' m' hl hn hext => ?_⟩
    obtain ⟨n, rfl⟩ := Nat.exists_eq_succ_of_ne_zero (Nat.ne_of_gt (Nat.zero_lt_of_lt hn))
    rw [hrun]
    exact text_value (hx g' m' (h.extend hext)) l
  cases tok with
  | string s =>
    refine hmade s (varStr sys (some s)) (fun g' m' hm' => ?_) fun _ _ => rfl
    refine (varStr_spec hm' s).mono fun r m'' hpost => ?_
    obtain ⟨g'', hext, hstr⟩ := hpost
    exact ⟨g'', hext, hstr.isVal, hstr.text hyes⟩
  | int i =>
    exact hmade _ _ (fun _ _ hm' => Points.withText hyes rfl (varInt_spec hm' i) fun _ => rfl) fun _ _ => rfl
  | float f =>
    exact hmade _ _ (fun _ _ hm' => Points.withText hyes rfl (varFloat_spec hm' f) fun _ => rfl) fun _ _ => rfl
  | ident s =>
    by_cases hword : IsWord s
    · rcases hword with rfl | rfl | rfl
      · exact hmade _ _ (fun _ _ hm' => Points.withText hyes rfl (varBool_spec hm' 1) fun _ => rfl) fun _ _ => rfl
      · exact hmade _ _ (fun _ _ hm' => Points.withText hyes rfl (varBool_spec hm' 0) fun _ => rfl) fun _ _ => rfl
      · exact hmade _ _ (fun _ _ hm' => Points.withText hyes rfl (varNull_spec hm') fun _ => rfl) fun _ _ => rfl
    · exact ident_text h hyes hword p
  | lbracket => exact ⟨_, array_text h hyes p⟩
  | eof | eq | pluseq | plus | rbracket | comma | hash =>
    exact hmade _ _ (fun _ _ hm' => Points.withText hyes rfl (varNull_spec hm') fun _ => rfl) fun _ _ => rfl

/-- The operand behind `tok` at `p`: its text, where it ends, and whether it raises the flag. -/
structure AtomReads (sys : Sys F) (g : SubHeap (Block F)) (m : Mem F) (tok : Tok F) (p text q : List Byte)
    (e : Bool) : Prop where
  length : q.length ≤ p.length
  text : AtomText sys g m tok p text
  went : AtomWent sys tok p q e

theorem atom_reads (h : Safe sys g m) (hyes : sys.NoFail) (tok : Tok F) (p : List Byte) :
    ∃ text q e, AtomReads sys g m tok p text q e := by
  obtain ⟨q, e, hlen, hwent⟩ := evalAtom_went hyes tok p
  obtain ⟨text, htext⟩ := atom_text h hyes tok p
  exact ⟨text, q, e, hlen, htext, hwent⟩

theorem AtomReads.extend {text : List Byte} (hext : Extends g m g' m') (h : AtomReads sys g m tok p text q e) :
    AtomReads sys g' m' tok p text q e :=
  ⟨h.length, fun n l g'' m'' hl hn hext' => h.text n l g'' m'' hl hn (hext.trans hext'), h.went⟩

theorem AtomReads.run {text : List Byte} (h : AtomReads sys g m tok p text q e) {n : Nat} (hl : l.p = p)
    (hn : p.length < n)
    (hext : Extends g m g' m') :
    wp (evalAtom sys n tok l) (fun r m'' => WithText sys g' m' text r.1 m'' ∧ Lex.Went l r.2 q e) m' :=
  (h.text n l g' m' hl hn hext).and (h.went n l m' hl)

end KanekFoundations.Cfg

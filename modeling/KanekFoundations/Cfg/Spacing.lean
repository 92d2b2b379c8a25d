/-
  KanekFoundations.Cfg.Spacing — a line is its tokens.

  `SameToks sys p q`: the same tokens, with the same reports, are read from `p` as from `q`.
  Blanks between tokens, zeros in front of a number and the way a byte of a string is escaped
  are what may differ. The loops of the evaluator are bounded by what is left of the line, so
  the two runs have different bounds; what they do within them is the same.

  Proved, for every memory and every outcome of the allocations:
  - `parseLine_tokens`: two lines with the same tokens that are no includes do the same, and
    to the same memory.
-/

import KanekFoundations.Cfg.CommentProofs

namespace KanekFoundations.Cfg

open KanekFoundations.Lib

variable {F : Type} {α β : Type} {sys : Sys F} {l l' l₂ : Lex} {p q r : List Byte} {m m' : Mem F}

/-! ## Tokens -/

/-- The first `n` tokens from a position on, with what reading them reports. -/
def toks (sys : Sys F) : Nat → List Byte → List (Tok F × List Report)
  | 0, _ => []
  | n + 1, p => ((scanTok sys p).tok, (scanTok sys p).errs) :: toks sys n (scanTok sys p).rest

def SameToks (sys : Sys F) (p q : List Byte) : Prop := ∀ n, toks sys n p = toks sys n q

/-- The token at both positions, and the same tokens behind it. -/
theorem SameToks.scan (h : SameToks sys p q) :
    ∃ t errs p' q', scanTok sys p = ⟨t, p', errs⟩ ∧ scanTok sys q = ⟨t, q', errs⟩ ∧ SameToks sys p' q' := by
  have hone := List.cons.inj (h 1)
  obtain ⟨htok, herrs⟩ := Prod.mk.inj hone.1
  refine ⟨(scanTok sys p).tok, (scanTok sys p).errs, (scanTok sys p).rest, (scanTok sys q).rest, rfl, ?_, fun n => ?_⟩
  · rw [htok, herrs]
  · exact (List.cons.inj (h (n + 1))).2

theorem SameToks.cons {t : Tok F} {errs : List Report} {p' q' : List Byte} (hp : scanTok sys p = ⟨t, p', errs⟩)
    (hq : scanTok sys q = ⟨t, q', errs⟩) (h : SameToks sys p' q') : SameToks sys p q := by
  intro n
  cases n with
  | zero => rfl
  | succ n =>
    unfold toks
    rw [hp, hq, h n]

theorem Reads.sameToks {t : Tok F} {p' q' : List Byte} (hp : Reads sys p t p') (hq : Reads sys q t q')
    (h : SameToks sys p' q') :
    SameToks sys p q := .cons hp hq h

/-! ## Two runs -/

/-- Lexers with the same tokens in front of them and the same reports behind. -/
structure Lex.Alike (sys : Sys F) (l l₂ : Lex) : Prop where
  toks : SameToks sys l.p l₂.p
  error : l₂.error = l.error
  trace : l₂.trace = l.trace

theorem Lex.Alike.after (h : Lex.Alike sys l l₂) {p q : List Byte} (hpq : SameToks sys p q) (errs : List Report) :
    Lex.Alike sys (l.after p errs) (l₂.after q errs) := by
  refine ⟨hpq, ?_, ?_⟩
  · unfold Lex.after
    rw [h.error]
  · unfold Lex.after
    rw [h.trace]

theorem Lex.Alike.next (h : Lex.Alike sys l l₂) :
    ∃ t l' l₂', nextTok sys l = (t, l') ∧ nextTok sys l₂ = (t, l₂') ∧ Lex.Alike sys l' l₂' := by
  obtain ⟨t, errs, p', q', hp, hq, hrest⟩ := h.toks.scan
  exact ⟨t, _, _, next_of_scan hp, next_of_scan hq, h.after hrest errs⟩

theorem Lex.Alike.peek (h : Lex.Alike sys l l₂) :
    ∃ t l' l₂', peekTok sys l = (t, l') ∧ peekTok sys l₂ = (t, l₂') ∧ Lex.Alike sys l' l₂' := by
  obtain ⟨t, errs, p', q', hp, hq, -⟩ := h.toks.scan
  exact ⟨t, _, _, peek_of_scan hp, peek_of_scan hq, h.after h.toks errs⟩

theorem Lex.Alike.fail (h : Lex.Alike sys l l₂) (fmt : String) : Lex.Alike sys (l.fail fmt) (l₂.fail fmt) := by
  refine ⟨h.toks, rfl, ?_⟩
  unfold Lex.fail
  rw [h.trace]

theorem Lex.Alike.report (h : Lex.Alike sys l l₂) (fmt : String) (args : List (List Byte)) :
    Lex.Alike sys (l.report fmt args) (l₂.report fmt args) := by
  refine ⟨h.toks, h.error, ?_⟩
  unfold Lex.report
  rw [h.trace]

/-- Where neither program is stuck they do the same, to results as `R` says. -/
def Agrees (R : α → α → Prop) (x y : M F α) : Prop :=
  ∀ m r m' r₂ m₂, x m = some (r, m') → y m = some (r₂, m₂) → m₂ = m' ∧ R r r₂

section
variable {R : α → α → Prop} {S : β → β → Prop}

theorem Agrees.out {y : M F α} : Agrees R stuck y := fun _ _ _ _ _ h => by cases h

theorem Agrees.out_right {x : M F α} : Agrees R x stuck := fun _ _ _ _ _ _ h => by cases h

theorem Agrees.pure {a a₂ : α} (h : R a a₂) : Agrees (F := F) R (pure a) (pure a₂) := by
  intro m r m' r₂ m₂ hx hy
  cases hx
  cases hy
  exact ⟨rfl, h⟩

theorem Agrees.seq {x y : M F β} {f f₂ : β → M F α} (hx : Agrees S x y) (h : ∀ b b₂, S b b₂ → Agrees R (f b) (f₂ b₂)) :
    Agrees R (x >>= f) (y >>= f₂) := by
  intro m r m' r₂ m₂ hrun hrun₂
  obtain ⟨⟨b, m₁⟩, hb, hf⟩ := Option.bind_eq_some_iff.mp hrun
  obtain ⟨⟨b₂, m₁'⟩, hb₂, hf₂⟩ := Option.bind_eq_some_iff.mp hrun₂
  obtain ⟨rfl, hS⟩ := hx _ _ _ _ _ hb hb₂
  exact h b b₂ hS _ _ _ _ _ hf hf₂

/-- The same memory operation in both. -/
theorem Agrees.bind {x : M F β} {f f₂ : β → M F α} (h : ∀ b, Agrees R (f b) (f₂ b)) :
    Agrees R (x >>= f) (x >>= f₂) := by
  refine Agrees.seq (S := Eq) (fun m r m' r₂ m₂ hx hy => ?_) fun b b₂ hb => hb ▸ h b
  cases hx.symm.trans hy
  exact ⟨rfl, rfl⟩

end

theorem Agrees.andThen {R : α → α → Prop} {S : Lex → Lex → Prop} {x y : M F (β × Lex)} {f f₂ : β × Lex → M F α}
    (hx : Agrees (Values S) x y) (h : ∀ b l' l₂, S l' l₂ → Agrees R (f (b, l')) (f₂ (b, l₂))) :
    Agrees R (x >>= f) (y >>= f₂) := by
  refine hx.seq fun b b₂ hb => ?_
  obtain ⟨heq, hl⟩ := hb
  have hsame : b₂ = (b.1, b₂.2) := by rw [← heq]
  rw [hsame]
  exact h b.1 b.2 b₂.2 hl

/-! ## The evaluator -/

theorem evalItems_agrees {atom atom₂ : Tok F → Lex → M F (Option Addr × Lex)}
    (hatom : ∀ tok l l₂, Lex.Alike sys l l₂ → Agrees (Values (Lex.Alike sys)) (atom tok l) (atom₂ tok l₂))
    (arr : Addr) (k k₂ : Nat)
    (h : Lex.Alike sys l l₂) : Agrees (Lex.Alike sys) (evalItems sys atom arr k l) (evalItems sys atom₂ arr k₂ l₂) := by
  induction k generalizing k₂ l l₂ with
  | zero => exact .out
  | succ k ih =>
    cases k₂ with
    | zero => exact .out_right
    | succ k₂ =>
      obtain ⟨t, l', l₂', hpeek, hpeek₂, h'⟩ := h.peek
      rcases item_cases t with hitem | hstop | rfl | hskip
      · obtain ⟨t₁, l₁, l₁₂, hnext, hnext₂, h₁⟩ := h'.next
        rw [evalItems_item hpeek hitem, evalItems_item hpeek₂ hitem, hnext, hnext₂]
        refine (hatom t₁ l₁ l₁₂ h₁).andThen fun item l₃ l₄ h₃ => ?_
        cases item with
        | none => exact ih k₂ h₃
        | some item => exact .bind fun _ => ih k₂ h₃
      · rw [evalItems_end hpeek hstop, evalItems_end hpeek₂ hstop]
        exact .pure h'
      · obtain ⟨t₁, l₁, l₁₂, hnext, hnext₂, h₁⟩ := h'.next
        rw [evalItems_comma hpeek, evalItems_comma hpeek₂, hnext, hnext₂]
        exact ih k₂ h₁
      · obtain ⟨t₁, l₁, l₁₂, hnext, hnext₂, h₁⟩ := (h'.fail "unexpected token in array literal").next
        rw [evalItems_skip hpeek hskip, evalItems_skip hpeek₂ hskip, hnext, hnext₂]
        exact ih k₂ h₁

theorem value_agrees (x : M F (Option Addr)) (h : Lex.Alike sys l l₂) :
    Agrees (Values (Lex.Alike sys)) (x >>= fun v => pure (v, l)) (x >>= fun v => pure (v, l₂)) :=
  .bind fun _ => .pure ⟨rfl, h⟩

theorem evalIdent_agrees {text : List Byte} (hword : ¬ IsWord text) (n n₂ : Nat) (h : Lex.Alike sys l l₂) :
    Agrees (Values (Lex.Alike sys)) (evalAtom sys (n + 1) (.ident text) l)
      (evalAtom sys (n₂ + 1) (.ident text) l₂) := by
  obtain ⟨t, l', l₂', hpeek, hpeek₂, h'⟩ := h.peek
  by_cases ht : t.type = .lbracket
  swap
  · rw [evalIdent_plain hword n hpeek ht, evalIdent_plain hword n₂ hpeek₂ ht]
    refine .bind fun v => ?_
    cases v with
    | none => exact value_agrees _ (h'.report _ _)
    | some v => exact .pure ⟨rfl, h'⟩
  obtain ⟨t₁, l₁, m₁, hnext₁, hnext₁', h₁⟩ := h'.next
  obtain ⟨t₂, l₂, m₂, hnext₂, hnext₂', h₂⟩ := h₁.next
  obtain ⟨t₃, l₃, m₃, hnext₃, hnext₃', h₃⟩ := h₂.next
  rw [evalIdent_bracket hword n hpeek ht hnext₁ hnext₂ hnext₃,
    evalIdent_bracket hword n₂ hpeek₂ ht hnext₁' hnext₂' hnext₃']
  refine .bind fun v => ?_
  by_cases hrb : t₃.type = .rbracket
  swap
  · rw [if_pos hrb, if_pos hrb]
    exact value_agrees _ (h₃.fail _)
  rw [if_neg (not_not.mpr hrb), if_neg (not_not.mpr hrb)]
  cases t₂ with
  | int i =>
    cases v with
    | none => exact value_agrees _ (h₃.report _ _)
    | some v =>
      refine .bind fun elem => ?_
      cases elem with
      | none => exact value_agrees _ h₃
      | some elem => exact .pure ⟨rfl, h₃⟩
  | _ => exact value_agrees _ (h₃.fail _)

theorem evalAtom_agrees (n n₂ : Nat) (tok : Tok F) (h : Lex.Alike sys l l₂) :
    Agrees (Values (Lex.Alike sys)) (evalAtom sys n tok l) (evalAtom sys n₂ tok l₂) := by
  induction n generalizing n₂ tok l l₂ with
  | zero => exact .out
  | succ n ih =>
    cases n₂ with
    | zero => exact .out_right
    | succ n₂ =>
      cases tok with
      | string | int | float | eof | eq | pluseq | plus | rbracket | comma | hash => exact value_agrees _ h
      | ident text =>
        by_cases hword : IsWord text
        · rcases hword with rfl | rfl | rfl <;> exact value_agrees _ h
        · exact evalIdent_agrees hword n n₂ h
      | lbracket =>
        unfold evalAtom
        refine .bind fun arr => ?_
        cases arr with
        | none => exact value_agrees _ (h.report _ _)
        | some arr =>
          refine (evalItems_agrees (fun tok l l₂ h => ih n₂ tok h) arr _ _ h).seq fun l₁ l₁₂ h₁ => ?_
          obtain ⟨t, l', l₂', hpeek, hpeek₂, h'⟩ := h₁.peek
          rw [hpeek, hpeek₂]
          dsimp only
          by_cases ht : t.type = .rbracket
          · obtain ⟨t₃, l₃, l₃₂, hnext, hnext₂, h₃⟩ := h'.next
            rw [if_pos ht, if_pos ht, hnext, hnext₂]
            exact .pure ⟨rfl, h₃⟩
          · rw [if_neg ht, if_neg ht]
            exact .pure ⟨rfl, h'⟩

theorem concatLoop_agrees (k k₂ : Nat) (buf : Addr) (len cap : Nat) (h : Lex.Alike sys l l₂) :
    Agrees (Values (Lex.Alike sys)) (concatLoop sys k buf len cap l) (concatLoop sys k₂ buf len cap l₂) := by
  induction k generalizing k₂ buf len cap l l₂ with
  | zero => exact .out
  | succ k ih =>
    cases k₂ with
    | zero => exact .out_right
    | succ k₂ =>
      obtain ⟨t, l', l₂', hpeek, hpeek₂, h'⟩ := h.peek
      rw [concatLoop_eq, concatLoop_eq, hpeek, hpeek₂]
      dsimp only
      by_cases ht : t.type = .plus
      swap
      · rw [if_pos ht, if_pos ht]
        exact .pure ⟨rfl, h'⟩
      obtain ⟨t₁, l₁, m₁, hnext₁, hnext₁', h₁⟩ := h'.next
      obtain ⟨t₂, l₂, m₂, hnext₂, hnext₂', h₂⟩ := h₁.next
      rw [if_neg (not_not.mpr ht), if_neg (not_not.mpr ht), hnext₁, hnext₁', hnext₂, hnext₂']
      dsimp only
      by_cases hend : t₂.type = .eof ∨ t₂.type = .hash
      · rw [if_pos hend, if_pos hend]
        exact .pure ⟨rfl, h₂⟩
      rw [if_neg hend, if_neg hend]
      refine (evalAtom_agrees _ _ t₂ h₂).andThen fun rhs l₃ l₄ h₃ => ?_
      unfold operandTail
      refine .bind fun rs => .bind fun text => ?_
      dsimp only
      -- The buffer is made larger, or has room.
      split_ifs
      all_goals
        refine .bind fun newbuf => ?_
        cases newbuf with
        | none => exact .bind fun _ => .pure ⟨rfl, h₃.report _ _⟩
        | some buf =>
          cases rs with
          | none => exact .bind fun _ => ih k₂ buf _ _ h₃
          | some _ => exact .bind fun _ => .bind fun _ => ih k₂ buf _ _ h₃

theorem rhsTail_agrees (result : Option Addr) (h : Lex.Alike sys l l₂) :
    Agrees (Values (Lex.Alike sys)) (rhsTail sys (result, l)) (rhsTail sys (result, l₂)) := by
  obtain ⟨t, l', l₂', hpeek, hpeek₂, h'⟩ := h.peek
  unfold rhsTail
  dsimp only
  rw [hpeek, hpeek₂]
  dsimp only
  by_cases ht : t.type = .plus
  swap
  · rw [if_pos ht, if_pos ht]
    exact value_agrees _ h'
  rw [if_neg (not_not.mpr ht), if_neg (not_not.mpr ht)]
  refine .bind fun buf => ?_
  cases buf with
  | none => exact value_agrees _ (h'.report _ _)
  | some buf =>
    refine .bind fun rs0 => .bind fun text => ?_
    split_ifs
    all_goals
      refine .bind fun newbuf => ?_
      cases newbuf with
      | none => exact .bind fun _ => value_agrees _ h'
      | some buf =>
        refine .bind fun _ => .bind fun _ => ?_
        refine (concatLoop_agrees _ _ buf _ _ h').andThen fun buf l₃ l₄ h₃ => ?_
        exact .bind fun _ => .bind fun _ => .bind fun _ => .bind fun _ => .pure ⟨rfl, h₃⟩

theorem evalRhs_agrees (h : Lex.Alike sys l l₂) : Agrees (Values (Lex.Alike sys)) (evalRhs sys l) (evalRhs sys l₂) := by
  obtain ⟨t, l', l₂', hnext, hnext₂, h'⟩ := h.next
  rw [evalRhs_eq, evalRhs_eq, hnext, hnext₂]
  dsimp only
  by_cases hend : t.type = .eof ∨ t.type = .hash
  · rw [if_pos hend, if_pos hend]
    exact value_agrees _ h'
  · rw [if_neg hend, if_neg hend]
    exact (evalAtom_agrees _ _ t h').andThen fun v l₁ l₁₂ h₁ => rhsTail_agrees v h₁

/-! ## The line -/

theorem finish_agrees (h : Lex.Alike sys l l₂) (rc : Int) : Agrees (F := F) Eq (finish l rc) (finish l₂ rc) := by
  intro m r m' r₂ m₂ hx hy
  unfold finish at hx hy
  rw [h.trace] at hy
  cases hx.symm.trans hy
  exact ⟨rfl, rfl⟩

theorem setTail_agrees (key : List Byte) (v : Option Addr) (h : Lex.Alike sys l l₂) :
    Agrees Eq (setTail sys key (v, l)) (setTail sys key (v, l₂)) := by
  refine .bind fun rc => ?_
  rw [h.error]
  exact finish_agrees h _

theorem appendTail_agrees (key : List Byte) (es v : Option Addr) (h : Lex.Alike sys l l₂) :
    Agrees Eq (appendTail sys key es (v, l)) (appendTail sys key es (v, l₂)) := by
  refine .bind fun rs => .bind fun etext => .bind fun rtext => .bind fun buf => ?_
  cases buf with
  | none => exact finish_agrees (h.report _ _) (-1)
  | some buf => exact .bind fun _ => .bind fun _ => .bind fun _ => setTail_agrees key _ h

theorem alike_start (h : SameToks sys p q) : Lex.Alike sys ⟨p, false, []⟩ ⟨q, false, []⟩ := ⟨h, rfl, rfl⟩

/-- A line that starts with an identifier is looked at up to its second token. -/
theorem parseLine_ident (loadFile : List Byte → M F Int) {rawLine : List Byte} (dir : List Byte) {k : List Byte}
    (hfirst : Reads sys (lineText rawLine) (.ident k) q) (hincl : k ≠ includeText) (hdisp : k ≠ displayText) :
    parseLine sys loadFile rawLine dir =
      match nextTok sys ⟨q, false, []⟩ with
      | (.eq, l) => evalRhs sys l >>= setTail sys (k.take (CFG_MAX_TOK - 1))
      | (.pluseq, l) => oldText sys (k.take (CFG_MAX_TOK - 1)) >>= fun es =>
        evalRhs sys l >>= appendTail sys (k.take (CFG_MAX_TOK - 1)) es
      | (_, l) => finish (l.report "expected '=' or '+=' after key '%s'" [k.take (CFG_MAX_TOK - 1)]) (-1) := by
  obtain ⟨t, q', errs, hscan, hnext, -⟩ := scan_cases sys ⟨q, false, []⟩
  rw [hnext]
  cases t with
  | eq =>
    have hop := reads_of_type hscan (by decide : TokType.eq ≠ .string ∧ TokType.eq ≠ .float)
    cases hscan.symm.trans hop
    exact parseLine_assign loadFile dir hfirst hincl hdisp hop
  | pluseq =>
    have hop := reads_of_type hscan (by decide : TokType.pluseq ≠ .string ∧ TokType.pluseq ≠ .float)
    cases hscan.symm.trans hop
    exact parseLine_append loadFile dir hfirst hincl hdisp hop
  | _ =>
    unfold parseLine
    rw [← lineText]
    dsimp only
    rw [hfirst.next]
    dsimp only
    rw [if_neg hincl, if_neg hdisp, hnext]

/-- The first token starts a statement, other than an include, or there is none. -/
def Plain (sys : Sys F) (line : List Byte) : Prop :=
  (scanTok sys line).tok.Ends ∨ ∃ k, (scanTok sys line).tok = .ident k ∧ k ≠ includeText

theorem parseLine_agrees (loadFile : List Byte → M F Int) (dir : List Byte) {line line₂ : List Byte}
    (hsame : SameToks sys (lineText line) (lineText line₂)) (hplain : Plain sys (lineText line)) :
    Agrees Eq (parseLine sys loadFile line dir) (parseLine sys loadFile line₂ dir) := by
  obtain ⟨t, errs, p, q, hscan, hscan₂, hrest⟩ := hsame.scan
  rcases hplain with hend | ⟨k, hk, hincl⟩
  · rw [hscan] at hend
    have htype : t.type ≠ .string ∧ t.type ≠ .float := by rcases hend with h | h <;> rw [h] <;> decide
    rw [parseLine_blank loadFile dir (reads_of_type hscan htype) hend,
      parseLine_blank loadFile dir (reads_of_type hscan₂ htype) hend]
    exact finish_agrees (alike_start hrest) 0
  rw [hscan] at hk
  cases hk
  have hfirst := reads_of_type hscan (by decide : TokType.ident ≠ .string ∧ TokType.ident ≠ .float)
  have hfirst₂ := reads_of_type hscan₂ (by decide : TokType.ident ≠ .string ∧ TokType.ident ≠ .float)
  by_cases hdisp : k = displayText
  · subst hdisp
    rw [parseLine_display loadFile dir hfirst, parseLine_display loadFile dir hfirst₂]
    refine (evalRhs_agrees (alike_start hrest)).andThen fun v l₁ l₂ h₁ => .bind fun _ => ?_
    rw [h₁.error]
    exact finish_agrees h₁ _
  rw [parseLine_ident loadFile dir hfirst hincl hdisp, parseLine_ident loadFile dir hfirst₂ hincl hdisp]
  obtain ⟨t, l₁, l₂, hnext, hnext₂, h₁⟩ := (alike_start hrest).next
  rw [hnext, hnext₂]
  cases t with
  | eq => exact (evalRhs_agrees h₁).andThen fun v l₃ l₄ h₃ => setTail_agrees _ v h₃
  | pluseq => exact .bind fun es => (evalRhs_agrees h₁).andThen fun v l₃ l₄ h₃ => appendTail_agrees _ es v h₃
  | _ => exact finish_agrees (h₁.report _ _) (-1)

theorem parseLine_same {loadFile : List Byte → M F Int} (hload : LoadsSafely sys loadFile) {g : SubHeap (Block F)}
    (hm : Safe sys g m)
    (dir : List Byte) {line line₂ : List Byte} (hsame : SameToks sys (lineText line) (lineText line₂))
    (hplain : Plain sys (lineText line)) : parseLine sys loadFile line₂ dir m = parseLine sys loadFile line dir m := by
  obtain ⟨⟨rc, m₁⟩, hrun, -⟩ := parseLine_spec hload hm line dir
  obtain ⟨⟨rc₂, m₂⟩, hrun₂, -⟩ := parseLine_spec hload hm line₂ dir
  obtain ⟨rfl, rfl⟩ := parseLine_agrees loadFile dir hsame hplain _ _ _ _ _ hrun hrun₂
  rw [hrun, hrun₂]

/-- Lines with the same tokens do the same. -/
theorem parseLine_tokens {g : SubHeap (Block F)} (hm : Safe sys g m) (depth : Nat) (dir : List Byte)
    {line line₂ : List Byte}
    (hsame : SameToks sys (lineText line) (lineText line₂)) (hplain : Plain sys (lineText line)) :
    parseLine sys (cfgLoadDepth sys depth) line₂ dir m = parseLine sys (cfgLoadDepth sys depth) line dir m :=
  parseLine_same (cfgLoadDepth_spec depth) hm dir hsame hplain

/-- `A=007` and ` A  = 7`. -/
theorem parseLine_tokens_seven :
    parseLine plainSys (cfgLoadDepth plainSys 16) (ascii [' ', 'A', ' ', ' ', '=', ' ', '7']) [] plainMem =
      parseLine plainSys (cfgLoadDepth plainSys 16) (ascii ['A', '=', '0', '0', '7']) [] plainMem := by
  have hkey : Reads plainSys (lineText (ascii ['A', '=', '0', '0', '7'])) (.ident (ascii ['A']))
      (ascii ['=', '0', '0', '7']) := by
    decide +kernel
  have hkey₂ : Reads plainSys (lineText (ascii [' ', 'A', ' ', ' ', '=', ' ', '7'])) (.ident (ascii ['A']))
      (ascii [' ', ' ', '=', ' ', '7']) := by decide +kernel
  have heq : Reads plainSys (ascii ['=', '0', '0', '7']) .eq (ascii ['0', '0', '7']) := by decide +kernel
  have heq₂ : Reads plainSys (ascii [' ', ' ', '=', ' ', '7']) .eq (ascii [' ', '7']) := by decide +kernel
  have hseven : Reads plainSys (ascii ['0', '0', '7']) (.int 7) [] := by decide +kernel
  have hseven₂ : Reads plainSys (ascii [' ', '7']) (.int 7) [] := by decide +kernel
  have hsame := hkey.sameToks hkey₂ (heq.sameToks heq₂ (hseven.sameToks hseven₂ fun _ => rfl))
  exact parseLine_tokens (kflCfgNew_safe plainMem_new).1 16 [] hsame
    (.inr ⟨ascii ['A'], congrArg Scan.tok hkey, by decide⟩)

end KanekFoundations.Cfg

/-
  KanekFoundations.Cfg.CommentProofs — a comment after a line.

  `Trails sys s`: what follows an accepted line, blanks and a comment. The evaluator of a line
  runs the same with `s` behind it, as long as there is no error: it reads the same tokens,
  and the comment where the line ended.

  Proved, for every memory and every outcome of the allocations:
  - `comment_ignored_iff`: an accepted line is accepted with a comment behind it, and to the
    same effect, exactly when it is no include, or one whose path is cut before the comment.
-/

import KanekFoundations.Cfg.Content

namespace KanekFoundations.Cfg

open KanekFoundations.Lib

variable {F : Type} {α β : Type} {sys : Sys F} {l l' l₂ : Lex} {p q s : List Byte} {m m' : Mem F}

/-! ## The token where the line ends -/

/-- Blanks and a comment. -/
structure Trails (sys : Sys F) (s : List Byte) : Prop where
  blank : ∃ c r, s = c :: r ∧ isspace c = true
  ends : ∃ (t : Tok F) (q : List Byte), t.Ends ∧ scanTok sys s = ⟨t, q, []⟩

theorem isspace_cases {c : Byte} (h : isspace c = true) :
    isLexWs c = true ∨ c = chr '\n' ∨ c = BitVec.ofNat 8 11 ∨ c = BitVec.ofNat 8 12 := by
  revert h
  revert c
  decide

theorem isspace_not {c : Byte} (h : isspace c = true) :
    isNumByte c = false ∧ isIdentByte c = false ∧ c ≠ chr '=' ∧ isdigit c = false := by
  revert h
  revert c
  decide

theorem lexRun_cons (ok : Byte → Bool) (n : Nat) (c : Byte) (p : List Byte) :
    lexRun ok (n + 1) (c :: p) = if ok c then (c :: (lexRun ok n p).1, (lexRun ok n p).2) else ([], c :: p) := rfl

theorem lexRun_append {ok : Byte → Bool} {c : Byte} (hc : ok c = false) (r : List Byte) (n : Nat) (p : List Byte) :
    lexRun ok n (p ++ c :: r) = ((lexRun ok n p).1, (lexRun ok n p).2 ++ c :: r) := by
  induction n generalizing p with
  | zero => rfl
  | succ n ih =>
    cases p with
    | nil =>
      rw [List.nil_append, lexRun_cons, hc]
      rfl
    | cons d p =>
      rw [List.cons_append, lexRun_cons, lexRun_cons]
      by_cases hd : ok d = true
      · rw [if_pos hd, if_pos hd, ih]
      · rw [if_neg hd, if_neg hd]
        rfl

/-- A string literal that is closed is read the same with more behind it. -/
theorem lexString_append (s : List Byte) (n : Nat) (p : List Byte) (h : (lexString n p).2 ≠ []) :
    lexString n (p ++ s) = ((lexString n p).1, (lexString n p).2 ++ s) := by
  induction n generalizing p with
  | zero => rfl
  | succ n ih =>
    cases p with
    | nil => exact absurd rfl h
    | cons c p =>
      rw [List.cons_append]
      unfold lexString at h ⊢
      by_cases hq : c = chr '"'
      · rw [if_pos hq, if_pos hq]
        rfl
      rw [if_neg hq] at h
      rw [if_neg hq, if_neg hq]
      by_cases hb : c = chr '\\'
      · rw [if_pos hb] at h
        rw [if_pos hb, if_pos hb]
        cases p with
        | nil => exact absurd rfl h
        | cons d p =>
          have hrest := ih p h
          rw [List.cons_append]
          dsimp only
          rw [hrest]
      · rw [if_neg hb] at h
        rw [if_neg hb, if_neg hb, ih p h]

theorem lexNumber_append {d : Byte} (hd : isNumByte d = false) (s : List Byte) (c : Byte) (r : List Byte) :
    lexNumber sys (c :: r ++ d :: s) =
      ⟨(lexNumber sys (c :: r)).tok, (lexNumber sys (c :: r)).rest ++ d :: s, (lexNumber sys (c :: r)).errs⟩ := by
  unfold lexNumber
  rw [List.cons_append, List.head?_cons, List.head?_cons]
  dsimp only
  by_cases hsign : some c = some (chr '-')
  · rw [if_pos hsign, List.drop_succ_cons, List.drop_zero, List.drop_succ_cons, List.drop_zero, lexRun_append hd]
    rfl
  · rw [if_neg hsign, List.drop_zero, List.drop_zero, ← List.cons_append, lexRun_append hd]
    rfl

theorem of_ite {P : Prop} [Decidable P] {x y x' y' z z' : α} (h : (if P then x else y) = z) (hx : P → x = z → x' = z')
    (hy : y = z → y' = z') : (if P then x' else y') = z' := by
  by_cases hP : P
  · rw [if_pos hP] at h ⊢
    exact hx hP h
  · rw [if_neg hP] at h ⊢
    exact hy h

/-- More behind a token changes nothing, when the token is well formed. -/
theorem scanChar_append (hs : Trails sys s) {c : Byte} {r : List Byte} {t : Tok F} (h : scanChar sys c r = ⟨t, q, []⟩) :
    scanChar sys c (r ++ s) = ⟨t, q ++ s, []⟩ := by
  obtain ⟨d, s, rfl, hd⟩ := hs.blank
  obtain ⟨hnum, hident, heq, hdigit⟩ := isspace_not hd
  -- The first byte behind the token starts nothing that goes on.
  have hplus : (r ++ d :: s).head? = some (chr '=') ↔ r.head? = some (chr '=') := by
    cases r with
    | nil => simpa using heq
    | cons _ _ => exact Iff.rfl
  have hminus : (r ++ d :: s).head?.any isdigit = r.head?.any isdigit := by
    cases r with
    | nil => simpa using hdigit
    | cons _ _ => rfl
  have hdone : ∀ {r' : List Byte} {tok : Tok F}, Scan.mk tok r' [] = ⟨t, q, []⟩ →
      Scan.mk tok (r' ++ d :: s) [] = ⟨t, q ++ d :: s, []⟩ := by
    intro r' tok h
    cases h
    rfl
  unfold scanChar at h ⊢
  rw [hminus]
  simp only [hplus]
  -- The newline and the hash.
  refine of_ite h (fun _ => hdone) fun h => of_ite h (fun _ => hdone) fun h => of_ite h (fun _ h => ?_) fun h => ?_
  · dsimp only at h ⊢
    by_cases hclose : (lexString (CFG_MAX_TOK - 1) r).2.head? = some (chr '"')
    · rw [if_pos hclose] at h
      have hne : (lexString (CFG_MAX_TOK - 1) r).2 ≠ [] := by
        intro hnil
        rw [hnil] at hclose
        cases hclose
      rw [lexString_append _ _ _ hne]
      obtain ⟨x, rest, hrest⟩ := List.exists_cons_of_ne_nil hne
      rw [hrest] at hclose h ⊢
      exact (if_pos hclose).trans (hdone h)
    · rw [if_neg hclose] at h
      cases h
  -- The operators.
  refine of_ite h (fun _ h => of_ite h (fun hnext h => ?_) hdone) fun h => of_ite h (fun _ => hdone) fun h =>
    of_ite h (fun _ => hdone) fun h => of_ite h (fun _ => hdone) fun h => of_ite h (fun _ => hdone) fun h => ?_
  · cases r with
    | nil => cases hnext
    | cons _ _ => exact hdone h
  refine of_ite h (fun _ h => ?_) fun h => of_ite h (fun _ h => ?_) hdone
  · rw [← List.cons_append, lexNumber_append hnum, h]
  · rw [← List.cons_append, lexRun_append hident]
    exact hdone h

/-- With blanks and a comment behind it, a position reads the same token; or there is no token
    left, and the comment ends the line instead. -/
theorem scan_append (hs : Trails sys s) {t : Tok F} (h : scanTok sys p = ⟨t, q, []⟩) :
    scanTok sys (p ++ s) = ⟨t, q ++ s, []⟩ ∨
      t = .eof ∧ ∃ (t' : Tok F) (q' : List Byte), t'.Ends ∧ scanTok sys (p ++ s) = ⟨t', q', []⟩ := by
  unfold scanTok at h ⊢
  have hws : lexSkipWs (p ++ s) = if (lexSkipWs p).isEmpty then lexSkipWs s else lexSkipWs p ++ s :=
    List.dropWhile_append
  rw [hws]
  cases hp : lexSkipWs p with
  | nil =>
    rw [hp] at h
    cases h
    obtain ⟨t', q', hend, hscan⟩ := hs.ends
    exact .inr ⟨rfl, t', q', hend, hscan⟩
  | cons c r =>
    rw [hp] at h
    exact .inl (scanChar_append hs h)

/-! ## Two runs -/

/-- The lexer with `s` behind what is left of its line. -/
def Lex.before (l : Lex) (s : List Byte) : Lex := { l with p := l.p ++ s }

/-- The lexers stand anywhere, and have had the same errors. -/
def Lex.Agree (l l₂ : Lex) : Prop := l₂.error = l.error ∧ l₂.trace = l.trace

theorem before_length (l : Lex) (s : List Byte) : l.p.length + 1 ≤ (l.before s).p.length + 1 := by
  unfold Lex.before
  rw [List.length_append]
  omega

/-- `y` does what `x` does, from `l`, if `x` ends without an error; `lex` is the lexer in a result,
    and the results are related by `R`. An error that is there at the start stays. -/
structure Sim (lex : α → Lex) (R : α → α → Prop) (l : Lex) (x y : M F α) : Prop where
  keeps : ∀ m r m', x m = some (r, m') → l.error = true → (lex r).error = true
  runs : ∀ m r m', x m = some (r, m') → (lex r).error = false → ∃ r₂, y m = some (r₂, m') ∧ R r r₂

section
variable {lex : α → Lex} {R R' : α → α → Prop}

theorem Sim.stuck {y : M F α} : Sim lex R l stuck y :=
  ⟨fun _ _ _ h => (by cases h), fun _ _ _ h => (by cases h)⟩

theorem Sim.pure {a a₂ : α} (herr : l.error = true → (lex a).error = true) (hR : R a a₂) :
    Sim (F := F) lex R l (pure a) (pure a₂) := by
  refine ⟨fun m r m' h he => ?_, fun m r m' h _ => ?_⟩
  · cases h
    exact herr he
  · cases h
    exact ⟨a₂, rfl, hR⟩

/-- The same memory operation in both. -/
theorem Sim.bind {x : M F β} {f f₂ : β → M F α} (h : ∀ b, Sim lex R l (f b) (f₂ b)) :
    Sim lex R l (x >>= f) (x >>= f₂) := by
  refine ⟨fun m r m' hrun he => ?_, fun m r m' hrun he => ?_⟩
  · obtain ⟨b, hx, hf⟩ := Option.bind_eq_some_iff.mp hrun
    exact (h b.1).keeps _ _ _ hf he
  · obtain ⟨b, hx, hf⟩ := Option.bind_eq_some_iff.mp hrun
    obtain ⟨r₂, hrun₂, hR⟩ := (h b.1).runs _ _ _ hf he
    exact ⟨r₂, by rw [bind_apply, hx]; exact hrun₂, hR⟩

/-- One reading of the line after another. -/
theorem Sim.seq {lexB : β → Lex} {S : β → β → Prop} {x y : M F β} {f f₂ : β → M F α} (hx : Sim lexB S l x y)
    (hS : ∀ b, ∃ b₂, S b b₂) (h : ∀ b b₂, S b b₂ → Sim lex R (lexB b) (f b) (f₂ b₂)) :
      Sim lex R l (x >>= f) (y >>= f₂) := by
  have hkeeps : ∀ b m r m', f b m = some (r, m') → (lexB b).error = true → (lex r).error = true := by
    intro b
    obtain ⟨b₂, hb₂⟩ := hS b
    exact (h b b₂ hb₂).keeps
  refine ⟨fun m r m' hrun he => ?_, fun m r m' hrun he => ?_⟩
  · obtain ⟨b, hx', hf⟩ := Option.bind_eq_some_iff.mp hrun
    exact hkeeps _ _ _ _ hf (hx.keeps _ _ _ hx' he)
  · obtain ⟨b, hx', hf⟩ := Option.bind_eq_some_iff.mp hrun
    have herr : (lexB b.1).error = false := by
      by_contra hne
      rw [hkeeps _ _ _ _ hf (by simpa using hne)] at he
      cases he
    obtain ⟨b₂, hy, hb₂⟩ := hx.runs _ _ _ hx' herr
    obtain ⟨r₂, hrun₂, hR⟩ := (h _ _ hb₂).runs _ _ _ hf he
    exact ⟨r₂, by rw [bind_apply, hy]; exact hrun₂, hR⟩

/-- A step of the lexer before. -/
theorem Sim.after {x y : M F α} (herr : l.error = true → l'.error = true) (h : Sim lex R l' x y) : Sim lex R l x y :=
  ⟨fun m r m' hrun he => h.keeps m r m' hrun (herr he), h.runs⟩

/-- After an error it does not matter what the other one does. -/
theorem Sim.failed {x y y' : M F α} (h : Sim lex R l' x y') (herr : l'.error = true) : Sim lex R' l x y := by
  refine ⟨fun m r m' hrun _ => h.keeps m r m' hrun herr, fun m r m' hrun he => ?_⟩
  rw [h.keeps m r m' hrun herr] at he
  cases he

theorem Sim.error {a : α} {y : M F α} (herr : (lex a).error = true) : Sim lex R l (Pure.pure a) y := by
  refine ⟨fun m r m' h _ => ?_, fun m r m' h he => ?_⟩
  · cases h
    exact herr
  · cases h
    rw [herr] at he
    cases he

theorem Sim.imp {x y : M F α} (h : Sim lex R l x y) (hR : ∀ r r₂, R r r₂ → R' r r₂) : Sim lex R' l x y := by
  refine ⟨h.keeps, fun m r m' hrun he => ?_⟩
  obtain ⟨r₂, hrun₂, hr⟩ := h.runs m r m' hrun he
  exact ⟨r₂, hrun₂, hR _ _ hr⟩

end

/-- The lexer of the line, and the one of the line with `s` behind it. -/
def Behind (s : List Byte) (l l₂ : Lex) : Prop := l₂ = l.before s

/-- The same value, and the lexers as `R` says. -/
def Values (R : Lex → Lex → Prop) (r r₂ : α × Lex) : Prop := r₂.1 = r.1 ∧ R r.2 r₂.2

theorem Sim.andThen {lex : α → Lex} {R : α → α → Prop} {S : Lex → Lex → Prop} {x y : M F (β × Lex)}
    {f f₂ : β × Lex → M F α}
    (hx : Sim Prod.snd (Values S) l x y) (hS : ∀ l, ∃ l₂, S l l₂)
    (h : ∀ b l' l₂, S l' l₂ → Sim lex R l' (f (b, l')) (f₂ (b, l₂))) : Sim lex R l (x >>= f) (y >>= f₂) := by
  refine hx.seq (fun b => ?_) fun b b₂ hb => ?_
  · obtain ⟨l₂, hl₂⟩ := hS b.2
    exact ⟨(b.1, l₂), rfl, hl₂⟩
  · obtain ⟨heq, hl⟩ := hb
    have hsame : b₂ = (b.1, b₂.2) := by rw [← heq]
    rw [hsame]
    exact h b.1 b.2 b₂.2 hl

theorem behind_total (s : List Byte) (l : Lex) : ∃ l₂, Behind s l l₂ := ⟨l.before s, rfl⟩

theorem agree_total (l : Lex) : ∃ l₂, l.Agree l₂ := ⟨l, rfl, rfl⟩

theorem Behind.agree (h : Behind s l l₂) : l.Agree l₂ := by
  subst h
  exact ⟨rfl, rfl⟩

theorem after_keeps {q : List Byte} {errs : List Report} (h : l.error = true) : (l.after q errs).error = true := by
  unfold Lex.after
  rw [h]
  rfl

theorem after_errs {q : List Byte} {errs : List Report} (h : errs ≠ []) : (l.after q errs).error = true := by
  cases errs with
  | nil => exact absurd rfl h
  | cons _ _ => exact Bool.or_true _

theorem next_keeps (h : l.error = true) : (nextTok sys l).2.error = true := by
  unfold nextTok
  dsimp only
  rw [h]
  rfl

theorem after_self (l : Lex) : l.after l.p [] = l := by
  cases l
  simp [Lex.after]

/-- The next token of both lines, when it is well formed. -/
theorem next_before (hs : Trails sys s) {t : Tok F} (h : scanTok sys l.p = ⟨t, q, []⟩) :
    (nextTok sys (l.before s) = (t, (l.after q []).before s) ∧ peekTok sys (l.before s) = (t, l.before s)) ∨
      t = .eof ∧ ∃ (t' : Tok F) (l₂ : Lex), t'.Ends ∧ (l.after q []).Agree l₂ ∧ nextTok sys (l.before s) = (t', l₂) ∧
        peekTok sys (l.before s) = (t', l.before s) := by
  have hself := after_self (l.before s)
  rcases scan_append hs h with hscan | ⟨ht, t', q', hend, hscan⟩
  · have hscan' : scanTok sys (l.before s).p = ⟨t, q ++ s, []⟩ := hscan
    exact .inl ⟨next_of_scan hscan', by rw [peek_of_scan hscan', hself]⟩
  · have hscan' : scanTok sys (l.before s).p = ⟨t', q', []⟩ := hscan
    exact .inr ⟨ht, t', (l.before s).after q' [], hend, ⟨rfl, rfl⟩, next_of_scan hscan',
      by rw [peek_of_scan hscan', hself]⟩

theorem errs_of_type {t : Tok F} {errs : List Report} (h : scanTok sys p = ⟨t, q, errs⟩)
    (ht : t.type ≠ .string ∧ t.type ≠ .float) :
    errs = [] :=
  (reads_scan h (reads_of_type h ht)).2.2

/-- A look for a token that neither ends a line nor may be malformed. -/
theorem peek_before (hs : Trails sys s) (l : Lex) {ty : TokType} (hty : ty = .lbracket ∨ ty = .rbracket ∨ ty = .plus) :
    (∃ (t : Tok F) (l₁ : Lex), peekTok sys l = (t, l₁) ∧ t.type ≠ ty ∧ l₁.error = true) ∨
      ∃ t t₂ : Tok F, peekTok sys l = (t, l) ∧ peekTok sys (l.before s) = (t₂, l.before s) ∧
        (t.type ≠ ty ∧ t₂.type ≠ ty ∨ t.type = ty ∧ t₂ = t ∧ ∃ l₁, nextTok sys l = (t, l₁) ∧
          nextTok sys (l.before s) = (t, l₁.before s) ∧ (l.error = true → l₁.error = true)) := by
  have hty : ty ≠ .eof ∧ ty ≠ .hash ∧ ty ≠ .string ∧ ty ≠ .float := by rcases hty with rfl | rfl | rfl <;> decide
  obtain ⟨t, q, errs, hscan, hnext, hpeek⟩ := scan_cases sys l
  by_cases he : errs = []
  · subst he
    rw [after_self] at hpeek
    rcases next_before hs hscan with ⟨hnext₂, hpeek₂⟩ | ⟨rfl, t', l₂, hend, -, -, hpeek₂⟩
    · refine .inr ⟨t, t, hpeek, hpeek₂, ?_⟩
      by_cases ht : t.type = ty
      · exact .inr ⟨ht, rfl, _, hnext, hnext₂, after_keeps⟩
      · exact .inl ⟨ht, ht⟩
    · refine .inr ⟨_, t', hpeek, hpeek₂, .inl ⟨fun h => hty.1 h.symm, fun h => ?_⟩⟩
      rcases hend with hend | hend
      · exact hty.1 (h.symm.trans hend)
      · exact hty.2.1 (h.symm.trans hend)
  · refine .inl ⟨t, _, hpeek, fun h => he (errs_of_type hscan ?_), after_errs he⟩
    rw [h]
    exact hty.2.2

/-! ## The evaluator -/

theorem not_eof_starts {t : Tok F} (h : t.StartsItem) : t ≠ .eof := fun he => startsItem_not_eof h (he ▸ rfl)

/-- A round of the loop over an item, after its first token. -/
theorem round_sim {atom atom₂ : Tok F → Lex → M F (Option Addr × Lex)} {arr : Addr} {k k₂ : Nat}
    (hatom : ∀ tok l, Sim Prod.snd (Values (Behind s)) l (atom tok l) (atom₂ tok (l.before s)))
    (hrest : ∀ l, Sim id (Behind s) l (evalItems sys atom arr k l) (evalItems sys atom₂ arr k₂ (l.before s)))
    (t : Tok F) (l : Lex) :
    Sim id (Behind s) l
      (do
        let (item, l) ← atom t l
        match item with
        | some item => do
          let _ ← varPush sys (some arr) (some item)
          evalItems sys atom arr k l
        | none => evalItems sys atom arr k l)
      (do
        let (item, l) ← atom₂ t (l.before s)
        match item with
        | some item => do
          let _ ← varPush sys (some arr) (some item)
          evalItems sys atom₂ arr k₂ l
        | none => evalItems sys atom₂ arr k₂ l) := by
  refine (hatom t l).andThen (behind_total s) fun item l' l₂ hl => ?_
  subst hl
  cases item with
  | none => exact hrest l'
  | some item => exact .bind fun _ => hrest l'

theorem evalItems_sim (hs : Trails sys s) {atom atom₂ : Tok F → Lex → M F (Option Addr × Lex)}
    (hatom : ∀ tok l, Sim Prod.snd (Values (Behind s)) l (atom tok l) (atom₂ tok (l.before s)))
    (arr : Addr) (k k₂ : Nat)
    (hk : k ≤ k₂) (l : Lex) :
      Sim id (Behind s) l (evalItems sys atom arr k l) (evalItems sys atom₂ arr k₂ (l.before s)) := by
  induction k generalizing k₂ l with
  | zero => exact .stuck
  | succ k ih =>
    obtain ⟨k₂, rfl⟩ := Nat.exists_eq_add_of_le' (Nat.le_trans (Nat.le_add_left 1 k) hk)
    have hrest := fun l => ih k₂ (Nat.le_of_succ_le_succ hk) l
    obtain ⟨t, q, errs, hscan, hnext, hpeek⟩ := scan_cases sys l
    by_cases hstart : t.StartsItem
    · have hround := fun l => round_sim hatom hrest t l
      rw [evalItems_item hpeek hstart, next_of_scan (l := l.after l.p errs) hscan]
      by_cases he : errs = []
      · subst he
        rcases next_before hs hscan with ⟨hnext₂, hpeek₂⟩ | ⟨ht, -⟩
        · rw [evalItems_item hpeek₂ hstart, hnext₂, after_self]
          exact .after after_keeps (hround _)
        · exact absurd ht (not_eof_starts hstart)
      · exact .failed (hround _) (after_keeps (after_errs he))
    -- Any other token is well formed.
    have he : errs = [] := by
      have herrs := scanTok_errs sys l.p
      rw [hscan] at herrs
      rcases herrs with he | hstr | hfloat
      · exact he
      · exact absurd (.inl hstr) hstart
      · exact absurd (.inr (.inr (.inl hfloat))) hstart
    subst he
    rw [after_self] at hpeek
    rcases next_before hs hscan with ⟨hnext₂, hpeek₂⟩ | ⟨rfl, t', l₂, hend, -, hnext₂, hpeek₂⟩
    · rcases item_cases t with hitem | hstop | rfl | hskip
      · exact absurd hitem hstart
      · rw [evalItems_end hpeek hstop, evalItems_end hpeek₂ hstop]
        exact .pure id rfl
      · rw [evalItems_comma hpeek, evalItems_comma hpeek₂, hnext, hnext₂]
        exact .after after_keeps (hrest _)
      · rw [evalItems_skip hpeek hskip, evalItems_skip hpeek₂ hskip]
        exact .failed (hrest _) (next_keeps rfl)
    · rw [evalItems_end hpeek (.inr (.inl rfl)), evalItems_end hpeek₂ (.inr hend)]
      exact .pure id rfl

/-- A new value, and nothing more is read. -/
theorem value_sim (x : M F (Option Addr)) (l' : Lex) (herr : l.error = true → l'.error = true) :
    Sim Prod.snd (Values (Behind s)) l (x >>= fun v => pure (v, l')) (x >>= fun v => pure (v, l'.before s)) :=
  .bind fun _ => .pure herr ⟨rfl, rfl⟩

theorem value_failed (x : M F (Option Addr)) (l' : Lex) {R : Option Addr × Lex → Option Addr × Lex → Prop}
    {y : M F (Option Addr × Lex)} (herr : l'.error = true) : Sim Prod.snd R l (x >>= fun v => pure (v, l')) y :=
  .failed (value_sim (s := []) x l' id) herr

/-- The value that an identifier stands for. -/
theorem evalIdent_sim (hs : Trails sys s) {text : List Byte} (hword : ¬ IsWord text) (n n₂ : Nat) (l : Lex) :
    Sim Prod.snd (Values (Behind s)) l (evalAtom sys (n + 1) (.ident text) l)
      (evalAtom sys (n₂ + 1) (.ident text) (l.before s)) := by
  rcases peek_before hs l (.inl rfl) with ⟨t, l₁, hpeek, hne, herr⟩ | ⟨t, t', hpeek, hpeek', hcases⟩
  · rw [evalIdent_plain hword n hpeek hne, evalAtom_ident hword]
    refine .bind fun v => ?_
    cases v with
    | none => exact value_failed _ (l₁.report _ _) herr
    | some v => exact .error herr
  rcases hcases with ⟨hne, hne'⟩ | ⟨ht, rfl, l₁, hnext, hnext', hkeep⟩
  · rw [evalIdent_plain hword n hpeek hne, evalIdent_plain hword n₂ hpeek' hne']
    refine .bind fun v => ?_
    cases v with
    | none => exact value_sim _ (l.report _ _) id
    | some v => exact .pure id ⟨rfl, rfl⟩
  obtain ⟨t₂, q₂, errs₂, hscan₂, hnext₂, -⟩ := scan_cases sys l₁
  obtain ⟨t₃, q₃, errs₃, hscan₃, hnext₃, -⟩ := scan_cases sys (l₁.after q₂ errs₂)
  rw [evalIdent_bracket hword n hpeek ht hnext hnext₂ hnext₃]
  by_cases hrb : t₃.type = .rbracket
  swap
  · rw [evalAtom_ident hword]
    refine .bind fun v => ?_
    rw [if_pos hrb]
    exact value_failed _ (Lex.fail _ _) rfl
  have hnot : ¬ t₃.type ≠ .rbracket := not_not.mpr hrb
  cases t₂ with
  | int i =>
    have he₂ : errs₂ = [] := errs_of_type hscan₂ (by decide : TokType.int ≠ .string ∧ TokType.int ≠ .float)
    subst he₂
    have he₃ : errs₃ = [] := errs_of_type hscan₃ (by rw [hrb]; decide)
    subst he₃
    rcases next_before hs hscan₂ with ⟨hnext₂', -⟩ | ⟨heof, -⟩
    swap
    · cases heof
    rcases next_before (l := l₁.after q₂ []) hs hscan₃ with ⟨hnext₃', -⟩ | ⟨rfl, -⟩
    swap
    · cases hrb
    rw [evalIdent_bracket hword n₂ hpeek' ht hnext' hnext₂' hnext₃']
    refine .bind fun v => ?_
    rw [if_neg hnot, if_neg hnot]
    have hkeep' : l.error = true → ((l₁.after q₂ []).after q₃ []).error = true :=
      fun h => after_keeps (after_keeps (hkeep h))
    cases v with
    | none => exact value_sim _ (Lex.report _ _ _) hkeep'
    | some v =>
      refine .bind fun elem => ?_
      cases elem with
      | none => exact value_sim _ _ hkeep'
      | some elem => exact .pure hkeep' ⟨rfl, rfl⟩
  | _ =>
    rw [evalAtom_ident hword]
    refine .bind fun v => ?_
    rw [if_neg hnot]
    exact value_failed _ (Lex.fail _ _) rfl

theorem evalAtom_sim (hs : Trails sys s) (n n₂ : Nat) (hn : n ≤ n₂) (tok : Tok F) (l : Lex) :
    Sim Prod.snd (Values (Behind s)) l (evalAtom sys n tok l) (evalAtom sys n₂ tok (l.before s)) := by
  induction n generalizing n₂ tok l with
  | zero => exact .stuck
  | succ n ih =>
    obtain ⟨n₂, rfl⟩ := Nat.exists_eq_add_of_le' (Nat.le_trans (Nat.le_add_left 1 n) hn)
    have hatom := fun tok l => ih n₂ (Nat.le_of_succ_le_succ hn) tok l
    cases tok with
    | string | int | float | eof | eq | pluseq | plus | rbracket | comma | hash => exact value_sim _ l id
    | ident text =>
      by_cases hword : IsWord text
      · rcases hword with rfl | rfl | rfl <;> exact value_sim _ l id
      · exact evalIdent_sim hs hword n n₂ l
    | lbracket =>
      unfold evalAtom
      refine .bind fun arr => ?_
      cases arr with
      | none => exact value_sim _ (l.report _ _) id
      | some arr =>
        refine (evalItems_sim hs hatom arr _ _ (before_length l s) l).seq (behind_total s) fun l₁ l₂ hl => ?_
        subst hl
        rcases peek_before hs l₁ (.inr (.inl rfl)) with ⟨t, l₃, hpeek, hne, herr⟩ | ⟨t, t', hpeek, hpeek', hcases⟩
        · rw [hpeek]
          dsimp only
          rw [if_neg hne]
          exact .error herr
        rw [hpeek, hpeek']
        dsimp only
        rcases hcases with ⟨hne, hne'⟩ | ⟨ht, rfl, l₃, hnext, hnext', hkeep⟩
        · rw [if_neg hne, if_neg hne']
          exact .pure id ⟨rfl, rfl⟩
        · rw [if_pos ht, if_pos ht, hnext, hnext']
          exact .pure hkeep ⟨rfl, rfl⟩

/-- What the loop of a concatenation does with the value of an operand. -/
def operandTail (sys : Sys F) (k : Nat) (buf : Addr) (len cap : Nat) (r : Option Addr × Lex) : M F (Addr × Lex) := do
  let rs ← varToStr sys r.1
  let text ← textOf rs
  let need := len + text.length + 1
  let newCap := doubleCap need need cap
  let newbuf ← if cap < need then reallocBuf sys buf newCap else pure (some buf)
  match newbuf with
  | none => do
    taFree rs
    pure (buf, r.2.report "ta_realloc failed for %zu bytes" [decimalNat newCap])
  | some buf => do
    match rs with
    | some _ => memcpy buf len text
    | none => pure ()
    taFree rs
    concatLoop sys k buf (len + text.length) newCap r.2

/-- What `eval_rhs` does with its first value. -/
def rhsTail (sys : Sys F) (r : Option Addr × Lex) : M F (Option Addr × Lex) := do
  let (pk, l) := peekTok sys r.2
  if pk.type ≠ .plus then do return (← orNull sys r.1, l)
  else do
    match ← taMalloc sys (.raw CFG_CONCAT_INIT_CAP) with
    | none => do
      return (← orNull sys r.1, l.report "ta_malloc failed for %zu bytes" [decimalNat CFG_CONCAT_INIT_CAP])
    | some buf => do
      let rs0 ← varToStr sys r.1
      let text ← textOf rs0
      let cap := max CFG_CONCAT_INIT_CAP (text.length + 1)
      let newbuf ← if CFG_CONCAT_INIT_CAP < text.length + 1 then reallocBuf sys buf cap else pure (some buf)
      match newbuf with
      | none => do
        taFree rs0
        return (← orNull sys r.1, l)
      | some buf => do
        memcpy buf 0 text
        taFree rs0
        let (buf, l) ← concatLoop sys (l.p.length + 1) buf text.length cap l
        let result ← varStr sys (some (← cstr buf))
        taFree (some buf)
        return (← orNull sys result, l)

theorem concatLoop_eq (k : Nat) (buf : Addr) (len cap : Nat) (l : Lex) :
    concatLoop sys (k + 1) buf len cap l =
      if (peekTok sys l).1.type ≠ .plus then pure (buf, (peekTok sys l).2)
      else
        let r := nextTok sys (nextTok sys (peekTok sys l).2).2
        if r.1.type = .eof ∨ r.1.type = .hash then pure (buf, r.2)
        else evalAtom sys (r.2.p.length + 1) r.1 r.2 >>= operandTail sys k buf len cap := rfl

theorem evalRhs_eq (l : Lex) :
    evalRhs sys l =
      if (nextTok sys l).1.type = .eof ∨ (nextTok sys l).1.type = .hash then
        varNull sys >>= fun v => pure (v, (nextTok sys l).2)
      else evalAtom sys ((nextTok sys l).2.p.length + 1) (nextTok sys l).1 (nextTok sys l).2 >>= rhsTail sys := rfl

/-- An operand of a concatenation, after its first token. -/
theorem operand_sim (hs : Trails sys s) {k k₂ : Nat}
    (hrest : ∀ buf len cap l, Sim Prod.snd (Values Lex.Agree) l (concatLoop sys k buf len cap l)
      (concatLoop sys k₂ buf len cap (l.before s)))
    (n n₂ : Nat) (hn : n ≤ n₂) (t : Tok F) (buf : Addr) (len cap : Nat) (l : Lex) :
    Sim Prod.snd (Values Lex.Agree) l (evalAtom sys n t l >>= operandTail sys k buf len cap)
      (evalAtom sys n₂ t (l.before s) >>= operandTail sys k₂ buf len cap) := by
  refine (evalAtom_sim hs n n₂ hn t l).andThen (behind_total s) fun rhs l' l₂ hl => ?_
  subst hl
  unfold operandTail
  refine .bind fun rs => .bind fun text => ?_
  dsimp only
  -- The buffer is made larger, or has room.
  split_ifs
  all_goals
    refine .bind fun newbuf => ?_
    cases newbuf with
    | none => exact .bind fun _ => .pure id ⟨rfl, rfl, rfl⟩
    | some buf =>
      cases rs with
      | none => exact .bind fun _ => hrest ..
      | some _ => exact .bind fun _ => .bind fun _ => hrest ..

/-- The loop of a concatenation. A comment after a last `+` is read as the end of the line is. -/
theorem concatLoop_sim (hs : Trails sys s) (k k₂ : Nat) (hk : k ≤ k₂) (buf : Addr) (len cap : Nat) (l : Lex) :
    Sim Prod.snd (Values Lex.Agree) l (concatLoop sys k buf len cap l)
      (concatLoop sys k₂ buf len cap (l.before s)) := by
  induction k generalizing k₂ buf len cap l with
  | zero => exact .stuck
  | succ k ih =>
    obtain ⟨k₂, rfl⟩ := Nat.exists_eq_add_of_le' (Nat.le_trans (Nat.le_add_left 1 k) hk)
    have hrest := fun buf len cap l => ih k₂ (Nat.le_of_succ_le_succ hk) buf len cap l
    rw [concatLoop_eq, concatLoop_eq]
    rcases peek_before hs l (.inr (.inr rfl)) with ⟨t, l₁, hpeek, hne, herr⟩ | ⟨t, t', hpeek, hpeek', hcases⟩
    · rw [hpeek]
      dsimp only
      rw [if_pos hne]
      exact .error herr
    rw [hpeek, hpeek']
    dsimp only
    rcases hcases with ⟨hne, hne'⟩ | ⟨ht, rfl, l₁, hnext, hnext', hkeep⟩
    · rw [if_pos hne, if_pos hne']
      exact .pure id ⟨rfl, rfl, rfl⟩
    obtain ⟨t₂, q₂, errs₂, hscan₂, hnext₂, -⟩ := scan_cases sys l₁
    rw [if_neg (not_not.mpr ht), if_neg (not_not.mpr ht), hnext, hnext', hnext₂]
    dsimp only
    by_cases hend : t₂.type = .eof ∨ t₂.type = .hash
    · have he₂ : errs₂ = [] := errs_of_type hscan₂ (by rcases hend with h | h <;> rw [h] <;> decide)
      subst he₂
      rw [if_pos hend]
      rcases next_before hs hscan₂ with ⟨hnext₂', -⟩ | ⟨-, t', l₂, hend', hagree, hnext₂', -⟩
      · rw [hnext₂', if_pos hend]
        exact .pure (fun h => after_keeps (hkeep h)) ⟨rfl, rfl, rfl⟩
      · have hstop : t'.type = .eof ∨ t'.type = .hash := hend'
        rw [hnext₂']
        dsimp only
        rw [if_pos hstop]
        exact .pure (fun h => after_keeps (hkeep h)) ⟨rfl, hagree⟩
    · rw [if_neg hend]
      by_cases he₂ : errs₂ = []
      · subst he₂
        rcases next_before hs hscan₂ with ⟨hnext₂', -⟩ | ⟨heof, -⟩
        · rw [hnext₂']
          dsimp only
          rw [if_neg hend]
          exact .after (fun h => after_keeps (hkeep h)) (operand_sim hs hrest _ _ (before_length _ s) t₂ buf len cap _)
        · exact absurd (.inl (by rw [heof]; rfl)) hend
      · exact .failed (operand_sim hs hrest _ _ (Nat.le_refl _) t₂ buf len cap _) (after_errs he₂)

theorem rhsTail_sim (hs : Trails sys s) (result : Option Addr) (l : Lex) :
    Sim Prod.snd (Values Lex.Agree) l (rhsTail sys (result, l)) (rhsTail sys (result, l.before s)) := by
  unfold rhsTail
  dsimp only
  rcases peek_before hs l (.inr (.inr rfl)) with ⟨t, l₁, hpeek, hne, herr⟩ | ⟨t, t', hpeek, hpeek', hcases⟩
  · rw [hpeek]
    dsimp only
    rw [if_pos hne]
    exact value_failed _ l₁ herr
  have hvalue : ∀ (x : M F (Option Addr)) l', (l.error = true → l'.error = true) → Sim Prod.snd (Values Lex.Agree) l
      (x >>= fun v => pure (v, l')) (x >>= fun v => pure (v, l'.before s)) :=
    fun x l' herr => (value_sim x l' herr).imp fun _ _ h => ⟨h.1, h.2.agree⟩
  rw [hpeek, hpeek']
  dsimp only
  rcases hcases with ⟨hne, hne'⟩ | ⟨ht, rfl, -⟩
  · rw [if_pos hne, if_pos hne']
    exact hvalue _ l id
  rw [if_neg (not_not.mpr ht), if_neg (not_not.mpr ht)]
  refine .bind fun buf => ?_
  cases buf with
  | none => exact hvalue _ (l.report _ _) id
  | some buf =>
    refine .bind fun rs0 => .bind fun text => ?_
    split_ifs
    all_goals
      refine .bind fun newbuf => ?_
      cases newbuf with
      | none => exact .bind fun _ => hvalue _ l id
      | some buf =>
        refine .bind fun _ => .bind fun _ => ?_
        refine (concatLoop_sim hs _ _ (before_length l s) buf _ _ l).andThen agree_total fun buf l' l₂ hl => ?_
        exact .bind fun _ => .bind fun _ => .bind fun _ => .bind fun _ => .pure id ⟨rfl, hl⟩

theorem evalRhs_sim (hs : Trails sys s) (l : Lex) :
    Sim Prod.snd (Values Lex.Agree) l (evalRhs sys l) (evalRhs sys (l.before s)) := by
  rw [evalRhs_eq, evalRhs_eq]
  obtain ⟨t, q, errs, hscan, hnext, -⟩ := scan_cases sys l
  rw [hnext]
  dsimp only
  have hvalue : ∀ l', Sim Prod.snd (Values Lex.Agree) l' (evalAtom sys (l'.p.length + 1) t l' >>= rhsTail sys)
      (evalAtom sys ((l'.before s).p.length + 1) t (l'.before s) >>= rhsTail sys) := by
    intro l'
    refine (evalAtom_sim hs _ _ (before_length l' s) t l').andThen (behind_total s) fun v l₁ l₂ hl => ?_
    subst hl
    exact rhsTail_sim hs v l₁
  by_cases hend : t.type = .eof ∨ t.type = .hash
  · have he : errs = [] := errs_of_type hscan (by rcases hend with h | h <;> rw [h] <;> decide)
    subst he
    rw [if_pos hend]
    rcases next_before hs hscan with ⟨hnext', -⟩ | ⟨-, t', l₂, hend', hagree, hnext', -⟩
    · rw [hnext', if_pos hend]
      exact .bind fun _ => .pure after_keeps ⟨rfl, rfl, rfl⟩
    · have hstop : t'.type = .eof ∨ t'.type = .hash := hend'
      rw [hnext']
      dsimp only
      rw [if_pos hstop]
      exact .bind fun _ => .pure after_keeps ⟨rfl, hagree⟩
  rw [if_neg hend]
  by_cases he : errs = []
  · subst he
    rcases next_before hs hscan with ⟨hnext', -⟩ | ⟨heof, -⟩
    · rw [hnext']
      dsimp only
      rw [if_neg hend]
      exact .after after_keeps (hvalue _)
    · exact absurd (.inl (by rw [heof]; rfl)) hend
  · exact .failed (hvalue _) (after_errs he)

/-! ## The line -/

/-- Where `x` answers 0, `y` does, and does the same. -/
def Follows (x y : M F Int) : Prop := ∀ m m', x m = some (0, m') → y m = some (0, m')

/-- The program never answers 0. -/
def Fails (x : M F Int) : Prop := ∀ m m', x m ≠ some (0, m')

theorem Follows.refl (x : M F Int) : Follows x x := fun _ _ h => h

theorem Fails.follows {x y : M F Int} (h : Fails x) : Follows x y := fun m m' hrun => absurd hrun (h m m')

theorem Follows.bind {x : M F β} {f f₂ : β → M F Int} (h : ∀ b, Follows (f b) (f₂ b)) :
    Follows (x >>= f) (x >>= f₂) := by
  intro m m' hrun
  obtain ⟨b, hx, hf⟩ := Option.bind_eq_some_iff.mp hrun
  rw [bind_apply, hx]
  exact h b.1 _ _ hf

theorem Fails.bind {x : M F β} {f : β → M F Int} (h : ∀ b, Fails (f b)) : Fails (x >>= f) := by
  intro m m' hrun
  obtain ⟨b, -, hf⟩ := Option.bind_eq_some_iff.mp hrun
  exact h b.1 _ _ hf

theorem finish_fails (l : Lex) : Fails (finish (F := F) l (-1)) := by
  intro m m' hrun
  have hcode : (-1 : Int) = 0 := congrArg Prod.fst (Option.some.inj hrun)
  exact absurd hcode (by decide)

/-- A program that goes on with the value of a right-hand side: it fails after an error, and what
    is left of the line does not matter to it. -/
theorem rhs_follows (hs : Trails sys s) {K : Option Addr × Lex → M F Int}
    (hfail : ∀ v l, l.error = true → Fails (K (v, l)))
    (hagree : ∀ v l l₂, l.Agree l₂ → K (v, l) = K (v, l₂)) (l : Lex) :
    Follows (evalRhs sys l >>= K) (evalRhs sys (l.before s) >>= K) := by
  intro m m' hrun
  obtain ⟨⟨⟨v, l'⟩, m₁⟩, hx, hK⟩ := Option.bind_eq_some_iff.mp hrun
  have herr : l'.error = false := by
    by_contra hne
    exact hfail v l' (by simpa using hne) _ _ hK
  obtain ⟨⟨v₂, l₂⟩, hy, hv, hl⟩ := (evalRhs_sim hs l).runs _ _ _ hx herr
  dsimp only at hv hl
  subst hv
  rw [bind_apply, hy, Option.bind_some, ← hagree v₂ l' l₂ hl]
  exact hK

theorem setTail_fails (key : List Byte) {l : Lex} (v : Option Addr) (herr : l.error = true) :
    Fails (setTail sys key (v, l)) := by
  refine .bind fun rc => ?_
  rw [if_pos (.inl herr)]
  exact finish_fails l

theorem appendTail_fails (key : List Byte) (es : Option Addr) {l : Lex} (v : Option Addr) (herr : l.error = true) :
    Fails (appendTail sys key es (v, l)) := by
  refine .bind fun rs => .bind fun etext => .bind fun rtext => .bind fun buf => ?_
  cases buf with
  | none => exact finish_fails _
  | some buf => exact .bind fun _ => .bind fun _ => .bind fun _ => setTail_fails key _ herr

/-- A line that is no include does the same with blanks and a comment behind it. -/
theorem parseLine_follows (hs : Trails sys s) (loadFile : List Byte → M F Int) (dir : List Byte)
    {line line₂ : List Byte}
    (hline : lineText line₂ = lineText line ++ s) (hno : ∀ path, ¬ Includes sys dir (lineText line) path) :
    Follows (parseLine sys loadFile line dir) (parseLine sys loadFile line₂ dir) := by
  -- What is read of the line is read with the comment behind it.
  have hbehind : ∀ {p q : List Byte} {t : Tok F}, Reads sys p t q → t ≠ .eof → Reads sys (p ++ s) t (q ++ s) := by
    intro p q t hr ht
    rcases scan_append hs hr with hscan | ⟨heof, -⟩
    · exact hscan
    · exact absurd heof ht
  by_cases hform : LineForm sys (lineText line)
  swap
  · obtain ⟨l, hrun⟩ := parseLine_unformed loadFile dir hform
    rw [hrun]
    exact (finish_fails l).follows
  cases hform with
  | blank hfirst hend =>
    obtain ⟨t₂, q₂, hend₂, hfirst₂⟩ : ∃ (t₂ : Tok F) (q₂ : List Byte), t₂.Ends ∧
        Reads sys (lineText line ++ s) t₂ q₂ := by
      rcases scan_append hs hfirst with hscan | ⟨-, t', q', hend', hscan⟩
      · exact ⟨_, _, hend, hscan⟩
      · exact ⟨t', q', hend', hscan⟩
    rw [parseLine_blank loadFile dir hfirst hend, parseLine_blank loadFile dir (hline ▸ hfirst₂) hend₂]
    exact .refl _
  | @incl q hfirst =>
    rw [parseLine_incl loadFile dir hfirst]
    by_cases hname : includeName q = []
    · rw [if_pos hname]
      exact (finish_fails _).follows
    · exact absurd ⟨q, hfirst, hname, rfl⟩ (hno _)
  | display hfirst =>
    have hfirst₂ := hline ▸ hbehind hfirst fun h => by cases h
    rw [parseLine_display loadFile dir hfirst, parseLine_display loadFile dir hfirst₂]
    refine rhs_follows hs (fun v l herr => .bind fun _ => ?_) (fun v l l₂ h => ?_) _
    · rw [if_pos herr]
      exact finish_fails l
    · obtain ⟨p₂, e₂, trace₂⟩ := l₂
      obtain ⟨rfl, rfl⟩ := h
      rfl
  | assign hfirst hincl hdisp hop =>
    have hfirst₂ := hline ▸ hbehind hfirst fun h => by cases h
    have hop₂ := hbehind hop fun h => by cases h
    rw [parseLine_assign loadFile dir hfirst hincl hdisp hop, parseLine_assign loadFile dir hfirst₂ hincl hdisp hop₂]
    refine rhs_follows hs (fun v l herr => setTail_fails _ v herr) (fun v l l₂ h => ?_) _
    obtain ⟨p₂, e₂, trace₂⟩ := l₂
    obtain ⟨rfl, rfl⟩ := h
    rfl
  | append hfirst hincl hdisp hop =>
    have hfirst₂ := hline ▸ hbehind hfirst fun h => by cases h
    have hop₂ := hbehind hop fun h => by cases h
    rw [parseLine_append loadFile dir hfirst hincl hdisp hop, parseLine_append loadFile dir hfirst₂ hincl hdisp hop₂]
    refine .bind fun es => rhs_follows hs (fun v l herr => appendTail_fails _ es v herr) (fun v l l₂ h => ?_) _
    obtain ⟨p₂, e₂, trace₂⟩ := l₂
    obtain ⟨rfl, rfl⟩ := h
    rfl

/-! ## Comments -/

/-- Blanks of any kind, a space and a hash. -/
theorem comment_trails (sys : Sys F) {ws : List Byte} (hws : ∀ c ∈ ws, isspace c = true) (r : List Byte) :
    Trails sys (ws ++ chr ' ' :: chr '#' :: r) := by
  refine ⟨?_, ?_⟩
  · cases ws with
    | nil => exact ⟨_, _, rfl, by decide⟩
    | cons c ws => exact ⟨c, _, rfl, hws c (List.mem_cons_self ..)⟩
  · induction ws with
    | nil => exact ⟨.hash, r, .inr rfl, rfl⟩
    | cons c ws ih =>
      have hrest := ih fun d hd => hws d (List.mem_cons_of_mem _ hd)
      rcases isspace_cases (hws c (List.mem_cons_self ..)) with hc | rfl | rfl | rfl
      · obtain ⟨t, q, hend, hscan⟩ := hrest
        refine ⟨t, q, hend, ?_⟩
        have hskip : lexSkipWs (c :: ws ++ chr ' ' :: chr '#' :: r) = lexSkipWs (ws ++ chr ' ' :: chr '#' :: r) := by
          unfold lexSkipWs
          rw [List.cons_append, List.dropWhile_cons_of_pos hc]
        unfold scanTok at hscan ⊢
        rw [hskip]
        exact hscan
      · exact ⟨.eof, _, .inl rfl, rfl⟩
      · exact ⟨.eof, _, .inl rfl, rfl⟩
      · exact ⟨.eof, _, .inl rfl, rfl⟩

/-- A line is its blanks, its text and blanks again. -/
theorem trim_right (line : List Byte) :
    ∃ ws, (∀ c ∈ ws, isspace c = true) ∧ line.dropWhile isspace = if trim line = [] then [] else trim line ++ ws := by
  have hsplit : line = (line.reverse.dropWhile isspace).reverse ++ (line.reverse.takeWhile isspace).reverse := by
    rw [← List.reverse_append, List.takeWhile_append_dropWhile, List.reverse_reverse]
  have hws : ∀ c ∈ (line.reverse.takeWhile isspace).reverse, isspace c = true := by
    intro c hc
    exact List.mem_takeWhile_imp (List.mem_reverse.mp hc)
  refine ⟨_, hws, ?_⟩
  have htrim : trim line = ((line.reverse.dropWhile isspace).reverse).dropWhile isspace := rfl
  rw [htrim]
  conv => lhs; rw [hsplit]
  rw [List.dropWhile_append, List.dropWhile_eq_nil_iff.mpr hws]
  cases ((line.reverse.dropWhile isspace).reverse).dropWhile isspace with
  | nil => rfl
  | cons _ _ => rfl

/-- The text of a line with a comment behind it. -/
theorem trim_comment (line c : List Byte) :
    (trim line = [] ∧ ∃ r, trim (line ++ chr ' ' :: chr '#' :: c) = chr '#' :: r) ∨
      ∃ ws r, (∀ c ∈ ws, isspace c = true) ∧
        trim (line ++ chr ' ' :: chr '#' :: c) = trim line ++ (ws ++ chr ' ' :: chr '#' :: r) := by
  have hright : ((line ++ chr ' ' :: chr '#' :: c).reverse.dropWhile isspace).reverse =
      line ++ chr ' ' :: chr '#' :: (c.reverse.dropWhile isspace).reverse := by
    have hrev : (line ++ chr ' ' :: chr '#' :: c).reverse = c.reverse ++ chr '#' :: chr ' ' :: line.reverse := by simp
    have hhash : (chr '#' :: chr ' ' :: line.reverse).dropWhile isspace = chr '#' :: chr ' ' :: line.reverse :=
      List.dropWhile_cons_of_neg (by decide)
    rw [hrev, List.dropWhile_append, hhash]
    cases c.reverse.dropWhile isspace with
    | nil => simp
    | cons _ _ => simp
  have htrim : trim (line ++ chr ' ' :: chr '#' :: c) =
      (line ++ chr ' ' :: chr '#' :: (c.reverse.dropWhile isspace).reverse).dropWhile isspace :=
    congrArg (List.dropWhile isspace) hright
  obtain ⟨ws, hws, hline⟩ := trim_right line
  rw [htrim, List.dropWhile_append, hline]
  by_cases hempty : trim line = []
  · refine .inl ⟨hempty, (c.reverse.dropWhile isspace).reverse, ?_⟩
    rw [if_pos hempty]
    rfl
  · refine .inr ⟨ws, (c.reverse.dropWhile isspace).reverse, hws, ?_⟩
    rw [if_neg hempty, if_neg, List.append_assoc]
    simp [hempty]

/-- What can be seen of a memory: the variables, the files that were used, and the text that was displayed. -/
structure SameEffect (sys : Sys F) (m m' : Mem F) : Prop where
  binds : ∀ k c, Binds sys m' k c ↔ Binds sys m k c
  files : m'.files = m.files
  out : m'.out = m.out

theorem SameEffect.refl (m : Mem F) : SameEffect sys m m := ⟨fun _ _ => Iff.rfl, rfl, rfl⟩

theorem Includes.unique {dir line path path' : List Byte} (h : Includes sys dir line path)
    (h' : Includes sys dir line path') :
    path' = path := by
  obtain ⟨q, hr, -, rfl⟩ := h
  obtain ⟨q', hr', -, rfl⟩ := h'
  rw [(hr.unique hr').2]

/-- The run of an include is the loading of its file. -/
theorem parseLine_include {g : SubHeap (Block F)} (hm : Safe sys g m) (n : Nat) {dir line path : List Byte}
    (h : Includes sys dir (lineText line) path) :
      parseLine sys (cfgLoadDepth sys n) line dir m = cfgLoadDepth sys n path m := by
  obtain ⟨⟨rc, m'⟩, hrun, hpost⟩ := parseLine_spec (cfgLoadDepth_spec n) hm line dir
  rw [hrun]
  cases hpost.effect with
  | plain hno => exact absurd h (hno path)
  | incl hincl hload =>
    rw [h.unique hincl] at hload
    exact hload.symm

/-- A line that starts with `include` and is accepted names a file. -/
theorem include_accepted {g : SubHeap (Block F)} (hm : Safe sys g m) {n : Nat} {dir line q : List Byte}
    (hfirst : Reads sys (lineText line) (.ident includeText) q)
    (hrun : parseLine sys (cfgLoadDepth sys n) line dir m = some (0, m')) :
      ∃ path, Includes sys dir (lineText line) path := by
  obtain ⟨⟨rc, m₁⟩, hrun', hpost⟩ := parseLine_spec (cfgLoadDepth_spec n) hm line dir
  cases hrun.symm.trans hrun'
  rcases line_ident hfirst (hpost.sound rfl) with ⟨-, hname, -⟩ | ⟨hk, -⟩ | ⟨hk, -⟩
  · exact ⟨_, q, hfirst, hname, rfl⟩
  · exact absurd hk (by decide)
  · exact absurd rfl hk

/-- A load that answers 0 opened its file first. -/
theorem FileRun.opens {n : Nat} {path : List Byte} {events : List FileEvent} (h : FileRun sys n path events 0) :
    events.head? = some (.opened path) := by
  cases n with
  | zero => exact absurd h.2 (by decide)
  | succ n =>
    unfold FileRun at h
    split at h
    · exact absurd h.2 (by decide)
    · obtain ⟨inner, -, rfl⟩ := h
      rfl

/-- Two loads that answer 0 and use the same files are loads of one file. -/
theorem load_path {g : SubHeap (Block F)} (hm : Safe sys g m) {n : Nat} {path path' : List Byte} {m₁ m₂ : Mem F}
    (h₁ : cfgLoadDepth sys n path m = some (0, m₁))
    (h₂ : cfgLoadDepth sys n path' m = some (0, m₂)) (hfiles : m₂.files = m₁.files) :
    path' = path := by
  obtain ⟨⟨rc₁, m₁'⟩, hrun₁, -, events₁, hfiles₁, hev₁⟩ := cfgLoadDepth_runs n path g m hm
  obtain ⟨⟨rc₂, m₂'⟩, hrun₂, -, events₂, hfiles₂, hev₂⟩ := cfgLoadDepth_runs n path' g m hm
  cases h₁.symm.trans hrun₁
  cases h₂.symm.trans hrun₂
  have hevents : events₂ = events₁ := by
    dsimp only at hfiles₁ hfiles₂
    rw [hfiles₁, hfiles₂] at hfiles
    exact List.append_cancel_left hfiles
  have hopen₁ := hev₁.opens
  have hopen₂ := hev₂.opens
  rw [hevents, hopen₁] at hopen₂
  exact (FileEvent.opened.inj (Option.some.inj hopen₂)).symm

/-- An accepted line may have a comment behind it, unless it is an include whose path takes the
    comment in. -/
theorem comment_ignored_iff {g : SubHeap (Block F)} (hm : Safe sys g m) (depth : Nat) (dir : List Byte)
    {line c : List Byte}
    (hnul : (0 : Byte) ∉ line) (hnulc : (0 : Byte) ∉ c) (hlen : (line ++ chr ' ' :: chr '#' :: c).length ≤ 1022)
    (hrun : parseLine sys (cfgLoadDepth sys depth) line dir m = some (0, m')) :
    (∃ m'', parseLine sys (cfgLoadDepth sys depth) (line ++ chr ' ' :: chr '#' :: c) dir m = some (0, m'') ∧
        SameEffect sys m' m'') ↔
      ∀ path, Includes sys dir (trim line) path → Includes sys dir (trim (line ++ chr ' ' :: chr '#' :: c)) path := by
  have hlen' : line.length ≤ 1022 := by
    rw [List.length_append] at hlen
    omega
  have hnul' : (0 : Byte) ∉ line ++ chr ' ' :: chr '#' :: c := by
    intro h
    rcases List.mem_append.mp h with h | h
    · exact hnul h
    · rcases List.mem_cons.mp h with h | h
      · exact absurd h (by decide)
      rcases List.mem_cons.mp h with h | h
      · exact absurd h (by decide)
      · exact hnulc h
  have hwhole := lineText_whole hlen' hnul
  have hwhole' := lineText_whole hlen hnul'
  rw [← hwhole, ← hwhole']
  rcases trim_comment line c with ⟨hempty, r, htext⟩ | ⟨ws, r, hws, htext⟩
  · -- A blank line, and a comment.
    have hfirst : Reads sys (lineText line) .eof [] := by rw [hwhole, hempty]; rfl
    refine iff_of_true ⟨m', ?_, .refl m'⟩ fun path hincl => ?_
    swap
    · obtain ⟨q, hr, -⟩ := hincl
      cases (hfirst.unique hr).1
    rw [← hrun]
    have hfirst' : Reads sys (lineText (line ++ chr ' ' :: chr '#' :: c)) .hash r := by rw [hwhole', htext]; rfl
    rw [parseLine_blank _ dir hfirst (.inl rfl), parseLine_blank _ dir hfirst' (.inr rfl)]
    rfl
  have hs := comment_trails sys hws r
  have hbehind : lineText (line ++ chr ' ' :: chr '#' :: c) = lineText line ++ (ws ++ chr ' ' :: chr '#' :: r) := by
    rw [hwhole', htext, hwhole]
  constructor
  · -- Both lines are includes, and they open the same file.
    intro h path hincl
    obtain ⟨m'', hrun', heffect⟩ := h
    obtain ⟨q, hr, -⟩ := id hincl
    have hr' : Reads sys (lineText (line ++ chr ' ' :: chr '#' :: c)) (.ident includeText)
        (q ++ (ws ++ chr ' ' :: chr '#' :: r)) := by
      rw [hbehind]
      rcases scan_append hs hr with hscan | ⟨heof, -⟩
      · exact hscan
      · cases heof
    obtain ⟨path', hincl'⟩ := include_accepted hm hr' hrun'
    rw [parseLine_include hm depth hincl] at hrun
    rw [parseLine_include hm depth hincl'] at hrun'
    exact load_path hm hrun hrun' heffect.files ▸ hincl'
  · intro hsame
    refine ⟨m', ?_, .refl m'⟩
    by_cases hincl : ∃ path, Includes sys dir (lineText line) path
    · obtain ⟨path, hincl⟩ := hincl
      rw [parseLine_include hm depth (hsame path hincl), ← parseLine_include hm depth hincl]
      exact hrun
    · exact parseLine_follows hs _ dir hbehind (fun path h => hincl ⟨path, h⟩) _ _ hrun

/-- `A = 1` and a comment. -/
theorem comment_ignored_assign :
    ∃ m' m'', parseLine plainSys (cfgLoadDepth plainSys 16) (ascii ['A', '=', '1']) [] plainMem = some (0, m') ∧
      parseLine plainSys (cfgLoadDepth plainSys 16) (ascii ['A', '=', '1'] ++ chr ' ' :: chr '#' :: ascii ['c'])
        [] plainMem =
        some (0, m'') ∧
      SameEffect plainSys m' m'' := by
  have hfirst : Reads plainSys (trim (ascii ['A', '=', '1'])) (.ident (ascii ['A'])) (ascii ['=', '1']) := by
    decide +kernel
  have hcode :
      (parseLine plainSys (cfgLoadDepth plainSys 16) (ascii ['A', '=', '1']) [] plainMem).map Prod.fst = some 0 := by
    decide +kernel
  obtain ⟨⟨rc, m'⟩, hrun, rfl⟩ := Option.map_eq_some_iff.mp hcode
  have hplain : ∀ path, ¬ Includes plainSys [] (trim (ascii ['A', '=', '1'])) path := by
    intro path hincl
    obtain ⟨q, hr, -⟩ := hincl
    exact absurd (Tok.ident.inj (hfirst.unique hr).1) (by decide +kernel)
  obtain ⟨m'', hrun', heffect⟩ := (comment_ignored_iff (c := ascii ['c'])
    (kflCfgNew_safe plainMem_new).1 16 [] (by decide) (by decide)
    (by decide) hrun).mpr fun path hincl => absurd hincl (hplain path)
  exact ⟨m', m'', hrun, hrun', heffect⟩

/-- The only file is `./f`, and it is empty. -/
def oneFileSys : Sys Unit :=
    { plainSys with fopen := fun path => if path = ascii ['.', '/', 'f'] then some [] else none }

/-- The comment behind an include is taken for a part of the name. -/
theorem comment_in_include :
    (parseLine oneFileSys (cfgLoadDepth oneFileSys 16)
      (includeText ++ ascii [' ', 'f']) [chr '.'] plainMem).map Prod.fst = some 0 ∧
      (parseLine oneFileSys (cfgLoadDepth oneFileSys 16)
        (includeText ++ ascii [' ', 'f'] ++ chr ' ' :: chr '#' :: ascii ['c'])
        [chr '.'] plainMem).map Prod.fst = some (-1) := by
  decide +kernel

end KanekFoundations.Cfg

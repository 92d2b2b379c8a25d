/-
  KanekFoundations.Cfg.Append — `K += R` and `K = K + R`.

  The first line makes a string of the old value, evaluates `R` by itself and appends; the
  second takes the old value and the operands of `R` through the buffer of `eval_rhs`. The
  operands of `R` stand at the same position of what is left of either line, so they have the
  same texts, and raise the flag in both lines or in none.

  Proved, with allocations succeeding:
  - `append_concat`: for a variable of any type, and whatever follows the first token of `R`,
    both lines end with the same code and bind `K` to strings with the same text.
-/

import KanekFoundations.Cfg.Buffer
import KanekFoundations.Cfg.ProgramProofs

namespace KanekFoundations.Cfg

open KanekFoundations.Lib

variable {F : Type} {sys : Sys F} {g g' g₀ : SubHeap (Block F)} {m m' m₀ : Mem F} {l l' : Lex}
  {p q q' : List Byte} {tok : Tok F} {e e' : Bool}

/-! ## The two lines -/

/-- `K += R` -/
def appendLine (key r : List Byte) : List Byte := key ++ (ascii [' ', '+', '=', ' '] ++ r)

/-- `K = K + R` -/
def concatLine (key r : List Byte) : List Byte :=
    key ++ (ascii [' ', '=', ' '] ++ (key ++ (ascii [' ', '+', ' '] ++ r)))

/-- A text without the blanks at its end. -/
def trimEnd (s : List Byte) : List Byte := (s.reverse.dropWhile isspace).reverse

theorem trimEnd_split (s : List Byte) : ∃ ws, (∀ c ∈ ws, isspace c = true) ∧ s = trimEnd s ++ ws := by
  refine ⟨(s.reverse.takeWhile isspace).reverse, fun c hc => List.mem_takeWhile_imp (List.mem_reverse.mp hc), ?_⟩
  unfold trimEnd
  rw [← List.reverse_append, List.takeWhile_append_dropWhile, List.reverse_reverse]

/-- Before a text that is not blank nothing is cut but at the start. -/
theorem trim_append {c : Byte} (hc : isspace c = false) (s : List Byte) {t : List Byte} (ht : trimEnd t ≠ []) :
    trim (c :: s ++ t) = c :: s ++ trimEnd t := by
  have hne : t.reverse.dropWhile isspace ≠ [] := fun hnil => ht (by rw [trimEnd, hnil]; rfl)
  have hempty : ¬ (t.reverse.dropWhile isspace).isEmpty = true := fun h => hne (List.isEmpty_iff.mp h)
  unfold trim trimEnd
  rw [List.reverse_append, List.dropWhile_append, if_neg hempty, List.reverse_append, List.reverse_reverse,
    List.cons_append]
  exact List.dropWhile_cons_of_neg (by rw [hc]; decide)

/-! ## The first token of `R` -/

theorem scanChar_space {c : Byte} (hc : isspace c = true) (r : List Byte) : (scanChar sys c r).tok = .eof := by
  rcases isspace_cases hc with hws | rfl | rfl | rfl
  · have hblank : c = chr ' ' ∨ c = chr '\t' ∨ c = chr '\r' := by
      unfold isLexWs at hws
      simpa [or_assoc] using hws
    rcases hblank with rfl | rfl | rfl <;> rfl
  · rfl
  · rfl
  · rfl

theorem not_starts {t : Tok F} (h : t.type = .eof ∨ t.type = .hash ∨ t.type = .plus ∨ t.type = .pluseq ∨ t.type = .eq ∨
    t.type = .rbracket ∨ t.type = .comma) : ¬ t.StartsItem := by
  unfold Tok.StartsItem
  rcases h with h | h | h | h | h | h | h <;> simp [h]

/-- A value is known by its first byte, or by the digit behind a minus. -/
def StartsValue (c : Byte) (r : List Byte) : Prop :=
  c = chr '"' ∨ c = chr '[' ∨ (isdigit c = true ∨ c = chr '-' ∧ r.head?.any isdigit = true) ∨
    (isalpha c = true ∨ c = chr '_')

theorem scanChar_starts (c : Byte) (r : List Byte) : (scanChar sys c r).tok.StartsItem ↔ StartsValue c r := by
  -- A byte that starts no value.
  have hno : ∀ k :
    Byte, (k ≠ chr '"' ∧ k ≠ chr '[' ∧ isdigit k = false ∧ k ≠ chr '-' ∧ isalpha k = false ∧ k ≠ chr '_') →
      ¬ StartsValue k r := by
    intro k hk hor
    obtain ⟨hquote, hopen, hdigit, hminus, halpha, hunder⟩ := hk
    rcases hor with h | h | (h | ⟨h, -⟩) | h | h
    · exact hquote h
    · exact hopen h
    · exact absurd (hdigit.symm.trans h) (by decide)
    · exact hminus h
    · exact absurd (halpha.symm.trans h) (by decide)
    · exact hunder h
  unfold scanChar
  by_cases hnewline : c = chr '\n'
  · subst hnewline
    exact iff_of_false (not_starts (.inl rfl)) (hno _ (by decide))
  rw [if_neg hnewline]
  by_cases hhash : c = chr '#'
  · subst hhash
    exact iff_of_false (not_starts (.inr (.inl rfl))) (hno _ (by decide))
  rw [if_neg hhash]
  by_cases hquote : c = chr '"'
  · rw [if_pos hquote]
    refine iff_of_true ?_ (.inl hquote)
    dsimp only
    split
    · exact .inl rfl
    · exact .inl rfl
  rw [if_neg hquote]
  by_cases hplus : c = chr '+'
  · subst hplus
    refine iff_of_false ?_ (hno _ (by decide))
    rw [if_pos rfl]
    split
    · exact not_starts (by simp [Tok.type])
    · exact not_starts (by simp [Tok.type])
  rw [if_neg hplus]
  by_cases heq : c = chr '='
  · subst heq
    exact iff_of_false (not_starts (by simp [Tok.type])) (hno _ (by decide))
  rw [if_neg heq]
  by_cases hopen : c = chr '['
  · rw [if_pos hopen]
    exact iff_of_true (by simp [Tok.StartsItem, Tok.type]) (.inr (.inl hopen))
  rw [if_neg hopen]
  by_cases hclose : c = chr ']'
  · subst hclose
    exact iff_of_false (not_starts (by simp [Tok.type])) (hno _ (by decide))
  rw [if_neg hclose]
  by_cases hcomma : c = chr ','
  · subst hcomma
    exact iff_of_false (not_starts (by simp [Tok.type])) (hno _ (by decide))
  rw [if_neg hcomma]
  by_cases hnum : isdigit c ∨ c = chr '-' ∧ r.head?.any isdigit
  · rw [if_pos hnum]
    have htype : ∀ (P : Prop) [Decidable P] (f : F) (i : Int), (if P then Tok.float f else .int i).StartsItem := by
      intro P _ f i
      split
      · exact .inr (.inr (.inl rfl))
      · exact .inr (.inl rfl)
    exact iff_of_true (htype _ _ _) (.inr (.inr (.inl hnum)))
  rw [if_neg hnum]
  by_cases hident : isalpha c ∨ c = chr '_'
  · rw [if_pos hident]
    exact iff_of_true (by simp [Tok.StartsItem, Tok.type]) (.inr (.inr (.inr hident)))
  rw [if_neg hident]
  refine iff_of_false (not_starts (.inl rfl)) ?_
  rintro (h | h | h | h)
  · exact hquote h
  · exact hopen h
  · exact hnum h
  · exact hident h

/-- The blanks at the end of a text do not decide how it starts. -/
theorem trimEnd_starts {r : List Byte} (h : (scanTok sys r).tok.StartsItem) :
    trimEnd r ≠ [] ∧ (scanTok sys (trimEnd r)).tok.StartsItem := by
  obtain ⟨ws, hws, hr⟩ := trimEnd_split r
  generalize trimEnd r = s at hr ⊢
  subst hr
  unfold scanTok lexSkipWs at h ⊢
  rw [List.dropWhile_append] at h
  cases hs : s.dropWhile isLexWs with
  | nil =>
    rw [hs] at h
    -- Nothing but blanks is no value.
    have hblank : ∀ c ∈ ws.dropWhile isLexWs, isspace c = true :=
      fun c hc => hws c (List.dropWhile_sublist _ |>.subset hc)
    dsimp only [List.isEmpty_nil] at h
    rw [if_pos rfl] at h
    cases hrest : ws.dropWhile isLexWs with
    | nil =>
      rw [hrest] at h
      exact absurd h (not_starts (.inl rfl))
    | cons c r =>
      rw [hrest] at h hblank
      dsimp only at h
      rw [scanChar_space (hblank c (List.mem_cons_self ..))] at h
      exact absurd h (not_starts (.inl rfl))
  | cons c r =>
    rw [hs] at h
    have hsame : (scanChar sys c (r ++ ws)).tok.StartsItem := h
    rw [scanChar_starts] at hsame
    have hne : s ≠ [] := by
      intro hnil
      rw [hnil] at hs
      cases hs
    refine ⟨hne, (scanChar_starts c r).mpr ?_⟩
    refine hsame.imp_right (Or.imp_right (Or.imp_left (Or.imp_right (And.imp_right fun hdigit => ?_))))
    cases r with
    | nil =>
      cases ws with
      | nil => exact hdigit
      | cons d ws =>
        rw [List.nil_append, List.head?_cons, Option.any_some,
          (isspace_not (hws d (List.mem_cons_self ..))).2.2.2] at hdigit
        cases hdigit
    | cons d r => exact hdigit

/-! ## Reading both lines -/

theorem key_scan (key : Ident) {p : List Byte} (hp : Break p) : scanTok sys (key.1 ++ p) = ⟨.ident key.1, p, []⟩ :=
  scan_ident key.2.1 hp

theorem key_no_nul (key : Ident) : (0 : Byte) ∉ key.1 :=
  fun h => absurd ((isIdentText_spec key.2.1).2.1 0 h) (by decide)

/-- What `parse_line` reads from a line that starts with a key. -/
theorem lineText_key (key : Ident) {sep r : List Byte} (hstart : (scanTok sys r).tok.StartsItem)
    (hsep : (0 : Byte) ∉ sep)
    (hnul : (0 : Byte) ∉ r) (hlen : (key.1 ++ (sep ++ r)).length ≤ 1022) :
    lineText (key.1 ++ (sep ++ r)) = key.1 ++ (sep ++ trimEnd r) := by
  obtain ⟨⟨c, k, hkey, hfirst⟩, -, -⟩ := isIdentText_spec key.2.1
  have hspace : isspace c = false := isspace_identByte (identByte_first hfirst)
  have hno : (0 : Byte) ∉ key.1 ++ (sep ++ r) := by
    rw [List.mem_append, List.mem_append]
    rintro (h | h | h)
    · exact key_no_nul key h
    · exact hsep h
    · exact hnul h
  rw [lineText_whole hlen hno, ← List.append_assoc, ← List.append_assoc, hkey, List.cons_append,
    trim_append hspace _ (trimEnd_starts hstart).1]

theorem concatLine_split (key r : List Byte) :
    concatLine key r = key ++ ((ascii [' ', '=', ' '] ++ (key ++ ascii [' ', '+', ' '])) ++ r) := by
  unfold concatLine
  rw [List.append_assoc, List.append_assoc]

theorem appendLine_text (key : Ident) {r : List Byte} (hstart : (scanTok sys r).tok.StartsItem) (hnul : (0 : Byte) ∉ r)
    (hlen : (appendLine key.1 r).length ≤ 1022) : lineText (appendLine key.1 r) = appendLine key.1 (trimEnd r) :=
  lineText_key key hstart (by decide) hnul hlen

theorem concatLine_text (key : Ident) {r : List Byte} (hstart : (scanTok sys r).tok.StartsItem) (hnul : (0 : Byte) ∉ r)
    (hlen : (concatLine key.1 r).length ≤ 1022) : lineText (concatLine key.1 r) = concatLine key.1 (trimEnd r) := by
  rw [concatLine_split] at hlen ⊢
  rw [concatLine_split]
  refine lineText_key key hstart ?_ hnul hlen
  rw [List.mem_append, List.mem_append]
  rintro (h | h | h)
  · exact absurd h (by decide)
  · exact key_no_nul key h
  · exact absurd h (by decide)

/-- The variable is bound to a string with this text. -/
def BoundText (sys : Sys F) (m : Mem F) (key text : List Byte) : Prop :=
  ∃ v s cap, m.vars.dictGet sys.xxh32 (some key) = some v ∧ m.heap.get v = some (.str (some s)) ∧
    m.heap.get s = some (.chars cap text)

/-- A line with NoFail: the code says whether the flag was raised, and the string is bound. -/
theorem Stored.bound (hyes : sys.NoFail) {key text : List Byte} {rc : Int}
    (h : Stored sys g m l key (fun g' val => sys.NoFail → PointsStr sys g' text val) rc m') :
    rc = (if l.error then -1 else 0) ∧ BoundText sys m' key text := by
  obtain ⟨hcode, hzero, -, g', val, -, hsafe, hval, hok⟩ := h
  obtain ⟨hrc, hget⟩ := hok hyes
  obtain ⟨hstr, hsome⟩ := hval hyes
  refine ⟨?_, ?_⟩
  · cases herr : l.error with
    | false => exact hrc herr
    | true =>
      rcases hcode with h | h
      · exact absurd (herr.symm.trans (hzero h)) (by decide)
      · exact h
  · obtain ⟨v, rfl⟩ := Option.ne_none_iff_exists'.mp (hsome hyes)
    obtain ⟨s, hv, htext, hok⟩ := hstr v rfl
    obtain ⟨s, rfl⟩ := Option.ne_none_iff_exists'.mp (hok hyes)
    obtain ⟨cap, hs⟩ := htext s rfl
    have hkey := hget key
    rw [if_pos rfl] at hkey
    exact ⟨v, s, cap, hkey, hsafe.within v _ hv, hsafe.within s _ hs⟩

/-- A variable by its name is an operand with the text of its value. -/
theorem name_reads (h : Safe sys g m) (key : Ident) {v : Addr} (hbound : m.vars.dictGet sys.xxh32 (some key.1) = some v)
    {p q : List Byte} {t : Tok F} (hscan : scanTok sys p = ⟨t, q, []⟩) (ht : ¬ t.type = .lbracket) :
    AtomReads sys g m (.ident key.1) p (valText sys g (some v)) p false := by
  have hvar : IsVar g v := h.getVar key.1 hbound
  refine ⟨Nat.le_refl _, fun n l g' m' hl hn hext => ?_, fun n l m hl => ?_⟩
  · subst hl
    cases n with
    | zero => exact absurd hn (Nat.not_lt_zero _)
    | succ n =>
      rw [evalIdent_plain (ident_not_word key) n (peek_of_scan hscan) ht, wp_bind, wp_getVar, hext.vars, hbound]
      exact wp_pure.mpr (hext.withText h hvar)
  · subst hl
    have hwent : Lex.Went l (l.after l.p []) l.p false := .after l l.p []
    cases n with
    | zero => exact fun _ _ h => by cases h
    | succ n =>
      rw [evalIdent_plain (ident_not_word key) n (peek_of_scan hscan) ht]
      have hvar : wlp (getVar sys key.1) (fun _ _ => True) m := fun _ _ _ => trivial
      refine hvar.bind fun v m₁ _ => ?_
      cases v with
      | none => exact wlp_value (hwent.report _ _)
      | some v => exact wlp_pure hwent

/-- `R` behind `K +=`: the texts of its operands. -/
theorem appendLine_run (hm : Safe sys g m) (hyes : sys.NoFail) (key : Ident) {text more r : List Byte}
    (hend : ¬ (scanTok sys p).tok.Ends) (hatom : AtomReads sys g m (scanTok sys p).tok (scanTok sys p).rest text q e)
    (hmore : ∀ g₁ m₁, Extends g m g₁ m₁ → ConcatReads sys g₁ m₁ q more r e') {v : Addr}
    (hbound : m.vars.dictGet sys.xxh32 (some key.1) = some v) :
    wp (oldText sys key.1 >>= fun es => evalRhs sys ⟨p, false, []⟩ >>= appendTail sys key.1 es)
      (fun rc m' => rc = (if (!(scanTok sys p).errs.isEmpty || e) || e' then -1 else 0) ∧
        BoundText sys m' key.1 (valText sys g (some v) ++ (text ++ more))) m := by
  have hvar : IsVar g v := hm.getVar key.1 hbound
  have hold : wp (oldText sys key.1) (Buffer sys g m (valText sys g (some v))) m := by
    unfold oldText
    rw [wp_bind, wp_getVar, hbound]
    exact varToStr_spec hm.within hm.closed fun _ h => (by cases h; exact hvar)
  refine wp.bind hold ?_
  intro es m₁ hpost
  obtain ⟨hext, hok, hbuf⟩ := hpost
  have hm₁ := hm.extend hext
  refine wp.bind (evalRhs_reads hm₁ hyes rfl hend (hatom.extend hext) (hmore _ _ hext) rfl hm₁.refl) ?_
  intro res m₂ hpost
  obtain ⟨hwent, g₂, hext₂, hval, htext, -⟩ := hpost
  have hes : ∀ c, es = some c → ∃ cap, m₂.heap.get c = some (.chars cap (valText sys g (some v))) := by
    intro c hc
    obtain ⟨-, cap, hget⟩ := hbuf c hc
    exact ⟨cap, (hext₂.grows.heap c (Heap.get_lt hget)).trans hget⟩
  refine (appendTail_spec (hm₁.extend hext₂) key.1 ⟨hok, hes⟩ hval.1).mono fun rc m' hst => ?_
  have hbound := hst.bound hyes
  rw [htext, hwent.error, Bool.false_or] at hbound
  exact hbound

/-- `R` behind `K = K +`. -/
theorem concatLine_run (hm : Safe sys g m) (hyes : sys.NoFail) (key : Ident) {text more r p₀ : List Byte}
    (hplus : scanTok sys p₀ = ⟨.plus, p, []⟩)
    (hend : ¬ (scanTok sys p).tok.Ends) (hatom : AtomReads sys g m (scanTok sys p).tok (scanTok sys p).rest text q e)
    (hmore : ConcatReads sys g m q more r e') {v : Addr} (hbound : m.vars.dictGet sys.xxh32 (some key.1) = some v)
    {p₁ : List Byte} (hkey : scanTok sys p₁ = ⟨.ident key.1, p₀, []⟩) :
    wp (evalRhs sys ⟨p₁, false, []⟩ >>= setTail sys key.1)
      (fun rc m' => rc = (if (!(scanTok sys p).errs.isEmpty || e) || e' then -1 else 0) ∧
        BoundText sys m' key.1 (valText sys g (some v) ++ (text ++ more))) m := by
  have hname := name_reads hm key hbound hplus fun h => by cases h
  have hrest := ConcatReads.plus hyes hplus rfl hend hatom hmore
  have hvalue : ¬ (Tok.ident (F := F) key.1).Ends := by simp [Tok.Ends, Tok.type]
  refine wp.bind (evalRhs_reads hm hyes hkey hvalue hname hrest rfl hm.refl) ?_
  intro res m₂ hpost
  obtain ⟨hwent, g₂, hext₂, hval, -, hstr⟩ := hpost
  have hstr := hstr (by rw [hplus]; rfl)
  obtain ⟨val, l₂⟩ := res
  refine (store_spec (P := fun g' val => sys.NoFail → PointsStr sys g' _ val) (hm.extend hext₂) key.1 hval
    fun _ => hstr).mono
    fun rc m' hst => ?_
  have hbound := hst.bound hyes
  rw [hwent.error] at hbound
  exact hbound

/-- `K += R` and `K = K + R` are the same: for a variable of any type, any chain of operands in
    `R` and any text behind them, the code is the same, and so is the string that is bound. -/
theorem append_concat (hm : Safe sys g m) (hyes : sys.NoFail) (loadFile : List Byte → M F Int)
    (dir : List Byte) (key : Ident)
    (hbound : Defined sys m key.1) {r : List Byte} (hstart : (scanTok sys r).tok.StartsItem) (hnul : (0 : Byte) ∉ r)
    (hlen : (appendLine key.1 r).length ≤ 1022) (hlen' : (concatLine key.1 r).length ≤ 1022) :
    ∃ rc m₁ m₂ text, parseLine sys loadFile (appendLine key.1 r) dir m = some (rc, m₁) ∧
      parseLine sys loadFile (concatLine key.1 r) dir m = some (rc, m₂) ∧
      BoundText sys m₁ key.1 text ∧ BoundText sys m₂ key.1 text := by
  obtain ⟨v, hbound⟩ := Option.ne_none_iff_exists'.mp hbound
  obtain ⟨hincl, hdisp⟩ := key_ne key
  -- What both lines leave for the operands of `R`.
  have hvalue : ¬ (scanTok sys (chr ' ' :: trimEnd r)).tok.Ends := startsItem_not_ends (trimEnd_starts hstart).2
  obtain ⟨text, q, e, hatom⟩ :=
    atom_reads hm hyes (scanTok sys (chr ' ' :: trimEnd r)).tok (scanTok sys (chr ' ' :: trimEnd r)).rest
  obtain ⟨more, r', e', hmore⟩ := concat_reads hm hyes q
  obtain ⟨⟨rc₁, m₁⟩, hrun₁, hcode₁, htext₁⟩ := appendLine_run hm hyes key hvalue hatom hmore hbound
  have hfirst₁ : Reads sys (lineText (appendLine key.1 r)) (.ident key.1)
      (ascii [' ', '+', '=', ' '] ++ trimEnd r) := by
    rw [appendLine_text key hstart hnul hlen]
    exact key_scan key (.inr ⟨_, rfl⟩)
  have hop₁ : Reads sys (ascii [' ', '+', '=', ' '] ++ trimEnd r) .pluseq (chr ' ' :: trimEnd r) := rfl
  have hfirst₂ : Reads sys (lineText (concatLine key.1 r)) (.ident key.1)
      (ascii [' ', '=', ' '] ++ (key.1 ++ (ascii [' ', '+', ' '] ++ trimEnd r))) := by
    rw [concatLine_text key hstart hnul hlen']
    exact key_scan key (.inr ⟨_, rfl⟩)
  have hop₂ : Reads sys (ascii [' ', '=', ' '] ++ (key.1 ++ (ascii [' ', '+', ' '] ++ trimEnd r))) .eq
      (chr ' ' :: (key.1 ++ (ascii [' ', '+', ' '] ++ trimEnd r))) := rfl
  have hkey : scanTok sys (chr ' ' :: (key.1 ++ (ascii [' ', '+', ' '] ++ trimEnd r))) =
      ⟨.ident key.1, ascii [' ', '+', ' '] ++ trimEnd r, []⟩ := scan_ident key.2.1 (.inr ⟨_, rfl⟩)
  have hplus : scanTok sys (ascii [' ', '+', ' '] ++ trimEnd r) = ⟨.plus, chr ' ' :: trimEnd r, []⟩ := rfl
  obtain ⟨⟨rc₁, m₁⟩, hrun₁, hcode₁, htext₁⟩ := appendLine_run hm hyes key hvalue hatom hmore hbound
  obtain ⟨⟨rc₂, m₂⟩, hrun₂, hcode₂, htext₂⟩ :=
    concatLine_run hm hyes key hplus hvalue hatom (hmore g m hm.refl) hbound hkey
  have hrc : rc₂ = rc₁ := hcode₂.trans hcode₁.symm
  rw [parseLine_append loadFile dir hfirst₁ hincl hdisp hop₁,
    parseLine_assign loadFile dir hfirst₂ hincl hdisp hop₂, key_take]
  exact ⟨rc₁, m₁, m₂, _, hrun₁, hrc ▸ hrun₂, htext₁, htext₂⟩

def appended : List Byte := ascii ['1', ' ', '+', ' ', '"', 'x', '"', ' ', '9']

/-- `A += 1 + "x" 9` and `A = A + 1 + "x" 9`, behind `A=7`. -/
theorem append_concat_number : ∃ m rc m₁ m₂ text,
    parseLine plainSys (cfgLoadDepth plainSys 16) (ascii ['A', '=', '7']) [] plainMem = some (0, m) ∧
      parseLine plainSys (cfgLoadDepth plainSys 16) (appendLine keyA.1 appended) [] m = some (rc, m₁) ∧
      parseLine plainSys (cfgLoadDepth plainSys 16) (concatLine keyA.1 appended) [] m = some (rc, m₂) ∧
      BoundText plainSys m₁ keyA.1 text ∧ BoundText plainSys m₂ keyA.1 text := by
  have hset : (parseLine plainSys (cfgLoadDepth plainSys 16) (ascii ['A', '=', '7']) [] plainMem).map
      (fun r => (r.1, (r.2.vars.dictGet plainSys.xxh32 (some keyA.1)).isSome)) = some (0, true) := by decide +kernel
  obtain ⟨⟨rc, m⟩, hrun, hpost⟩ := parseLine_spec (cfgLoadDepth_spec 16) (kflCfgNew_safe plainMem_new).1
    (ascii ['A', '=', '7']) []
  obtain ⟨g, -, hm⟩ := hpost.grown
  rw [hrun] at hset
  obtain ⟨rfl, hsome⟩ := Prod.mk.inj (Option.some.inj hset)
  have hbound : Defined plainSys m keyA.1 := Option.isSome_iff_ne_none.mp hsome
  have hstart : (scanTok plainSys appended).tok.StartsItem := .inr (.inl (by decide +kernel))
  obtain ⟨rc, m₁, m₂, text, hboth⟩ := append_concat hm (fun _ => rfl) (cfgLoadDepth plainSys 16) [] keyA hbound hstart
    (by decide) (by decide) (by decide)
  exact ⟨m, rc, m₁, m₂, text, hrun, hboth⟩

end KanekFoundations.Cfg

/-
  KanekFoundations.Cfg.ProgramProofs — `parse_line` on printed programs, when every allocation
  succeeds.

  Proved:
  - `evalRhs_run`: a right-hand side ends with the value of its expression;
  - `parseLine_run`: a printed statement ends with 0, and the variables are those after it;
  - `program_correct`: so does a printed program on a fresh context, line by line.
-/

import KanekFoundations.Cfg.AtomProofs
import KanekFoundations.Cfg.LineProofs

namespace KanekFoundations.Cfg

open KanekFoundations.Lib

variable {F : Type} {sys : Sys F} {g g' g₀ : SubHeap (Block F)} {m m' m₀ : Mem F} {l l' : Lex} {env : Env} {v : Val}

/-! ## Expressions -/

theorem startsItem_not_ends {t : Tok F} (h : t.StartsItem) : ¬ (t.type = .eof ∨ t.type = .hash) :=
  fun hend => not_startsItem (.inr hend) h

/-- What follows an operand is no bracket. -/
theorem more_head (as : List Atom) : (moreWords as).head? ≠ some .lbracket := by
  cases as with
  | nil => exact fun h => by cases h
  | cons a as => exact fun h => by cases h

/-- A text, and the texts of more values after it. -/
def catText (env : Env) (text : List Byte) (as : List Atom) : List Byte := text ++ as.flatMap fun a => (a.eval env).text

theorem concatLoop_run (hyes : sys.NoFail) (h₀ : Represents sys g₀ m₀ env) (as : List Atom) (k : Nat) {buf cap : Nat}
    {text : List Byte} (hk : l.p.length < k) (hl : l.At (moreWords as)) (hext : Extends g₀ m₀ g m)
    (hbuf : Holds g m m₀.heap.length buf cap text) :
    wp (concatLoop sys k buf text.length cap l) (fun r m' => r.2.error = false ∧
      ∃ g' cap', Extends g₀ m₀ g' m' ∧ Holds g' m' m₀.heap.length r.1 cap' (catText env text as)) m := by
  induction as generalizing k l buf cap text g m with
  | nil =>
    cases k with
    | zero => exact absurd hk (Nat.not_lt_zero _)
    | succ k =>
      have hpeek : peekTok sys l = (.eof, l) := hl.peek
      have hno : (Tok.eof : Tok F).type ≠ .plus := fun h => by cases h
      unfold concatLoop
      rw [hpeek]
      dsimp only
      rw [if_pos hno]
      refine wp_pure.mpr ⟨hl.ok, g, cap, hext, ?_⟩
      rw [catText, List.flatMap_nil, List.append_nil]
      exact hbuf
  | cons a as ih =>
    cases k with
    | zero => exact absurd hk (Nat.not_lt_zero _)
    | succ k =>
      obtain ⟨w, ws, hw, hstart⟩ := a.words_cons (F := F)
      have hwords : moreWords (a :: as) = .plus :: w :: (ws ++ moreWords as) := by
        show (.plus :: a.words) ++ moreWords as = _
        rw [hw]
        rfl
      rw [hwords] at hl
      have hpeek : peekTok sys l = (.plus, l) := hl.peek
      have hplus : (Tok.plus : Tok F).type = .plus := rfl
      obtain ⟨l₁, hnext₁, hl₁, hlt₁⟩ := hl.next sys
      obtain ⟨l₂, hnext₂, hl₂, hlt₂⟩ := hl₁.next sys
      unfold concatLoop
      rw [hpeek]
      dsimp only
      rw [if_neg (not_not_intro hplus), hnext₁]
      dsimp only
      rw [hnext₂]
      dsimp only
      rw [if_neg (startsItem_not_ends hstart)]
      refine wp.bind (evalAtom_run hyes env a _ hw (more_head as) hl₂ (Nat.lt_succ_self _) (h₀.extend hext)) ?_
      intro res m₃ hpost
      obtain ⟨rhs, l₃⟩ := res
      obtain ⟨hl₃, g₃, hext₃, hval⟩ := hpost
      dsimp only at hl₃ hval
      have hle := hl₂.length hl₃
      refine append_spec (f := id) (K := fun buf len cap => concatLoop sys k buf len cap l₃) (hext.trans hext₃)
        (hbuf.extend hext₃)
        (fun _ ha => hval.isVar ha) ?_ ?_
      · exact fun _ _ hno => absurd hyes hno
      · intro buf' cap' t m' ht hext' hbuf'
        have hrest := ih k (by omega) hl₃ hext' hbuf'
        rw [List.length_append] at hrest
        have htext : catText env (text ++ t) as = catText env text (a :: as) := by
          rw [ht hyes, hval.text, catText, catText, List.flatMap_cons, List.append_assoc]
        rw [htext] at hrest
        exact hrest

theorem evalRhs_run (hyes : sys.NoFail) (e : Expr) (hl : l.At e.words) (hm : Represents sys g m env) :
    wp (evalRhs sys l) (fun r m' => r.2.error = false ∧ ∃ g', Extends g m g' m' ∧ PointsTo g' (e.eval env) r.1) m := by
  obtain ⟨a, as⟩ := e
  obtain ⟨w, ws, hw, hstart⟩ := a.words_cons (F := F)
  have hwords : (Expr.mk a as).words = w :: (ws ++ moreWords as) := by
    show a.words ++ moreWords as = _
    rw [hw]
    rfl
  rw [hwords] at hl
  obtain ⟨l₁, hnext₁, hl₁, -⟩ := hl.next sys
  unfold evalRhs
  rw [hnext₁]
  dsimp only
  rw [if_neg (startsItem_not_ends hstart)]
  refine wp.bind (evalAtom_run hyes env a _ hw (more_head as) hl₁ (Nat.lt_succ_self _) hm) ?_
  intro res m₂ hpost
  obtain ⟨result, l₂⟩ := res
  obtain ⟨hl₂, g₂, hext₂, hval⟩ := hpost
  dsimp only at hl₂ hval ⊢
  cases as with
  | nil =>
    have hpeek : peekTok sys l₂ = (.eof, l₂) := hl₂.peek
    have hno : (Tok.eof : Tok F).type ≠ .plus := fun h => by cases h
    rw [hpeek]
    dsimp only
    rw [if_pos hno]
    obtain ⟨v, rfl, hden⟩ := hval
    exact wp_bind.mpr (wp_pure.mpr (wp_pure.mpr ⟨hl₂.ok, g₂, hext₂, v, rfl, hden⟩))
  | cons b bs =>
    have hpeek : peekTok sys l₂ = (.plus, l₂) := hl₂.peek
    have hplus : (Tok.plus : Tok F).type = .plus := rfl
    rw [hpeek]
    dsimp only
    rw [if_neg (not_not_intro hplus)]
    refine start_spec (f := id) (K := fun buf len cap => do
      let r ← concatLoop sys (l₂.p.length + 1) buf len cap l₂
      let result ← varStr sys (some (← cstr r.1))
      taFree (some r.1)
      return (← orNull sys result, r.2)) hext₂ (fun _ ha => hval.isVar ha) ?_ ?_
    · exact fun _ _ hno => absurd hyes hno
    · intro buf cap t m' ht hext' hbuf
      refine wp.bind (concatLoop_run hyes hm (b :: bs) _ (Nat.lt_succ_self _) hl₂ hext' hbuf) ?_
      intro res m₃ hpost
      obtain ⟨buf₂, l₃⟩ := res
      obtain ⟨herr, g₃, cap₃, hext₃, hbuf₃⟩ := hpost
      refine finish_spec hm.safe hext₃ hbuf₃ ?_
      intro g₄ r m₄ hext₄ _ hstr
      rw [ht hyes, hval.text] at hstr
      exact ⟨herr, g₄, hext₄, (hstr hyes).denotes hyes⟩

/-! ## Statements -/

/-- A printed statement is parsed as it is, from its first word on. -/
theorem print_first (sys : Sys F) {s : Stmt} {w : Word} {ws : List Word} (hw : s.words = w :: ws) (hfits : s.fits)
    (hlen : s.print.length ≤ 1022) :
    Reads sys (lineText s.print) w.tok (spaced ws) ∧ (⟨spaced ws, false, []⟩ : Lex).At ws := by
  have hfits := Stmt.words_fit hfits
  unfold Stmt.print at hlen ⊢
  rw [hw] at hfits hlen ⊢
  have hline : lineText (printWords (w :: ws)) = printWords (w :: ws) := trim_print hlen
  have hscan : Reads sys (printWords (w :: ws)) w.tok (spaced ws) := scan_print (hfits w (List.mem_cons_self ..)) ws
  rw [hline]
  refine ⟨hscan, rfl, rfl, ?_, fun w' hw' => hfits w' (List.mem_cons_of_mem _ hw')⟩
  exact Nat.le_trans (scan_length hscan).1 hlen

/-- The statement is done: its line ends with 0, and `env` is what there is then. -/
def Ran (sys : Sys F) (env : Env) (rc : Int) (m' : Mem F) : Prop := rc = 0 ∧ ∃ g', Represents sys g' m' env

theorem Stored.ran (hyes : sys.NoFail) (hm : Represents sys g m env) (hl : l.error = false) {key : List Byte} {rc : Int}
    (h : Stored sys g m l key (fun g' val => PointsTo g' v val) rc m') : Ran sys (env.set key v) rc m' := by
  obtain ⟨-, -, -, g', val, hbuilt, hsafe, hval, hok⟩ := h
  obtain ⟨hrc, hget⟩ := hok hyes
  exact ⟨hrc hl, g', hm.set hbuilt.sub hsafe hval hget⟩

theorem key_take (key : Ident) : key.1.take (CFG_MAX_TOK - 1) = key.1 :=
  List.take_of_length_le (isIdentText_spec key.2.1).2.2

/-- A key is none of the words that start another statement. -/
theorem key_ne (key : Ident) : key.1 ≠ includeText ∧ key.1 ≠ displayText :=
  ⟨fun h => key.2.2 (h ▸ by decide), fun h => key.2.2 (h ▸ by decide)⟩

theorem oldText_value (hm : Represents sys g m env) (key : Ident) :
    wp (oldText sys key.1) (Buffer sys g m (((env key.1).map Val.text).getD [])) m := by
  unfold oldText
  rw [wp_bind, wp_getVar]
  rcases hm.lookup key.1 with ⟨a, v, hget, hv, hden⟩ | ⟨hget, hv⟩
  · have htext : valText sys g (some a) = v.text := hden.text
    rw [hget, hv, Option.map_some, Option.getD_some, ← htext]
    exact varToStr_spec hm.safe.within hm.safe.closed fun v' hv' => (by cases hv'; exact hden.isVar)
  · rw [hget, hv]
    exact taStrdup_spec hm.safe.within hm.safe.closed []

theorem append_run (hyes : sys.NoFail) (hm : Represents sys g m env) (key : Ident) (e : Expr) (hl : l.At e.words)
    {es : Option Addr} {m₁ : Mem F} {text : List Byte} (hes : Buffer sys g m text es m₁) :
    wp (evalRhs sys l >>= appendTail sys key.1 es)
      (Ran sys (env.set key.1 (.str (text ++ (e.eval env).text)))) m₁ := by
  obtain ⟨hext, hok, hbuf⟩ := hes
  refine wp.bind (evalRhs_run hyes e hl (hm.extend hext)) ?_
  intro r m₂ hpost
  obtain ⟨rhs, l'⟩ := r
  obtain ⟨herr, g₂, hext₂, hval⟩ := hpost
  have hm₂ := (hm.extend hext).extend hext₂
  have hes₂ : ∀ c, es = some c → ∃ cap, m₂.heap.get c = some (.chars cap text) := by
    intro c hc
    obtain ⟨-, cap, hget⟩ := hbuf c hc
    exact ⟨cap, (hext₂.grows.heap c (Heap.get_lt hget)).trans hget⟩
  refine (appendTail_spec hm₂.safe key.1 ⟨hok, hes₂⟩ fun _ ha => hval.isVar ha).mono fun rc m' hst => ?_
  refine (hst.imp fun g' val hstr => ?_).ran hyes hm₂ herr
  rw [hval.text] at hstr
  exact (hstr hyes).denotes hyes

/-- A printed statement does what it means. -/
theorem parseLine_run (hyes : sys.NoFail) (loadFile : List Byte → M F Int) (dir : List Byte) (s : Stmt) (hfits : s.fits)
    (hlen : s.print.length ≤ 1022) (hm : Represents sys g m env) :
    wp (parseLine sys loadFile s.print dir) (Ran sys (s.exec env)) m := by
  cases s with
  | display e =>
    obtain ⟨hfirst, hl⟩ := print_first sys (s := .display e) rfl hfits hlen
    rw [parseLine_display loadFile dir hfirst]
    refine wp.bind (evalRhs_run hyes e hl hm) ?_
    intro r m₂ hpost
    obtain ⟨v, l₂⟩ := r
    obtain ⟨herr, g₂, hext, hval⟩ := hpost
    have hm₂ := hm.extend hext
    refine wp.bind (displayVar_spec hm₂.safe fun _ ha => hval.isVar ha) ?_
    intro _ m₃ hprint
    dsimp only at herr
    rw [herr]
    exact wp_finish.mpr ⟨rfl, g₂, (hm₂.print hprint).report _⟩
  | assign key e =>
    obtain ⟨hfirst, hl⟩ := print_first sys (s := .assign key e) rfl hfits hlen
    obtain ⟨hincl, hdisp⟩ := key_ne key
    rw [parseLine_assign loadFile dir hfirst hincl hdisp (hl.reads sys), key_take]
    refine wp.bind (evalRhs_run hyes e hl.after hm) ?_
    intro r m₃ hpost
    obtain ⟨val, l₃⟩ := r
    obtain ⟨herr, g₃, hext, hval⟩ := hpost
    have hm₃ := hm.extend hext
    refine (store_spec (P := fun g' val => PointsTo g' (e.eval env) val) hm₃.safe key.1 hval.isVal hval).mono ?_
    exact fun rc m' hst => hst.ran hyes hm₃ herr
  | append key e =>
    obtain ⟨hfirst, hl⟩ := print_first sys (s := .append key e) rfl hfits hlen
    obtain ⟨hincl, hdisp⟩ := key_ne key
    rw [parseLine_append loadFile dir hfirst hincl hdisp (hl.reads sys), key_take]
    have hexec : (Stmt.append key e).exec env =
        env.set key.1 (.str (((env key.1).map Val.text).getD [] ++ (e.eval env).text)) := rfl
    rw [hexec]
    refine wp.bind (oldText_value hm key) ?_
    intro es m₁ hes
    exact append_run hyes hm key e hl.after hes

/-! ## Programs -/

/-- The lines of a program in order, with what `parse_line` answers to each. -/
def runLines (sys : Sys F) (loadFile : List Byte → M F Int) (dir : List Byte) : List (List Byte) → M F (List Int)
  | [] => pure []
  | line :: lines => do
    let rc ← parseLine sys loadFile line dir
    let rcs ← runLines sys loadFile dir lines
    pure (rc :: rcs)

theorem runLines_run (hyes : sys.NoFail) (loadFile : List Byte → M F Int) (dir : List Byte) (prog : List Stmt)
    (hfits : ∀ s ∈ prog, s.fits) (hlen : ∀ s ∈ prog, s.print.length ≤ 1022) (hm : Represents sys g m env) :
    wp (runLines sys loadFile dir (prog.map Stmt.print))
      (fun rcs m' => rcs = prog.map (fun _ => 0) ∧ ∃ g', Represents sys g' m' (execAll env prog)) m := by
  induction prog generalizing g m env with
  | nil => exact wp_pure.mpr ⟨rfl, g, hm⟩
  | cons s prog ih =>
    refine wp.bind (parseLine_run hyes loadFile dir s (hfits s (List.mem_cons_self ..))
      (hlen s (List.mem_cons_self ..)) hm) ?_
    intro rc m₁ hpost
    obtain ⟨rfl, g₁, hm₁⟩ := hpost
    refine wp.bind (ih (fun t ht => hfits t (List.mem_cons_of_mem _ ht))
      (fun t ht => hlen t (List.mem_cons_of_mem _ ht)) hm₁) ?_
    intro rcs m₂ hpost
    obtain ⟨rfl, g₂, hm₂⟩ := hpost
    exact wp_pure.mpr ⟨rfl, g₂, hm₂⟩

theorem kflCfgNew_represents {gc : Heap (Block F)} {mallocs : Nat} (h : kflCfgNew sys gc mallocs = some m) :
    Represents sys (fun _ => none) m fun _ => none := by
  obtain ⟨hsafe, hempty, -⟩ := kflCfgNew_safe h
  refine ⟨hsafe, fun k => ?_⟩
  have hnone : m.vars.dictGet sys.xxh32 (some k) = none := by
    refine Option.eq_none_iff_forall_ne_some.mpr fun v hv => ?_
    have hmem := (Dict.dictGet_some hsafe.inv k v).mp hv
    rw [hempty] at hmem
    cases hmem
  rw [hnone]
  exact .none

/-- A printed program runs as it means: every line ends with 0, and the variables of a context
    that was new are those of the environment. -/
theorem program_correct (hyes : sys.NoFail) {gc : Heap (Block F)} {mallocs : Nat}
    (hnew : kflCfgNew sys gc mallocs = some m)
    (loadFile : List Byte → M F Int) (dir : List Byte) (prog : List Stmt) (hfits : ∀ s ∈ prog, s.fits)
    (hlen : ∀ s ∈ prog, s.print.length ≤ 1022) :
    ∃ m' g', runLines sys loadFile dir (prog.map Stmt.print) m = some (prog.map fun _ => 0, m') ∧
      Represents sys g' m' (execAll (fun _ => none) prog) := by
  obtain ⟨⟨rcs, m'⟩, hrun, rfl, g', hm'⟩ := runLines_run hyes loadFile dir prog hfits hlen (kflCfgNew_represents hnew)
  exact ⟨m', g', hrun, hm'⟩

def keyA : Ident := ⟨ascii ['A'], by decide⟩

def keyB : Ident := ⟨ascii ['B'], by decide⟩

/-- `A = [ -7 , [ ] , null ]`, `B += A [ 0 ] + "\"\n" + true`, `display B`. -/
def sampleProgram : List Stmt :=
  [.assign keyA ⟨.array [.int ⟨-7, by decide⟩, .array [], .null], []⟩,
    .append keyB ⟨.index keyA 0, [.str ⟨ascii ['"', '\n'], by decide⟩, .bool true]⟩,
    .display ⟨.name keyB, []⟩]

theorem program_correct_sample :
    ∃ m' g', runLines plainSys (cfgLoadDepth plainSys 16) [] (sampleProgram.map Stmt.print) plainMem = some
      ([0, 0, 0], m') ∧
      Represents plainSys g' m' (execAll (fun _ => none) sampleProgram) := by
  have hfits : ∀ s ∈ sampleProgram, s.fits := by
    simp [sampleProgram, Stmt.fits, Stmt.indexes, Expr.indexes, Atom.indexes, allIndexes]
  exact program_correct (fun _ => rfl) plainMem_new (cfgLoadDepth plainSys 16) [] sampleProgram hfits
    (by decide +kernel)

/-- An index of 64 digits, `A = B [ 1000… ]`, is read as two numbers. -/
theorem program_long_index :
    (Stmt.assign keyA ⟨.index keyB (10 ^ 63), []⟩).print.length ≤ 1022 ∧
      (runLines plainSys (cfgLoadDepth plainSys 16) []
        [(Stmt.assign keyA ⟨.index keyB (10 ^ 63), []⟩).print] plainMem).map Prod.fst =
        some [-1] := by
  refine ⟨by decide +kernel, by decide +kernel⟩

end KanekFoundations.Cfg

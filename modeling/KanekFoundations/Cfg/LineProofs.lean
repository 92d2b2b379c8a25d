/-
  KanekFoundations.Cfg.LineProofs — `parse_line` and `cfg_load_depth` against the grammar.

  A line has one of five forms (`LineForm`), and for each of them one equation says what
  `parse_line` does; a line without a form is answered with -1 at once.

  Proved, for every line, every memory and every outcome of the allocations:
  - `parse_line_accepts`: `parse_line` returns 0 or -1, 0 only for an accepted line, and
    with allocations succeeding 0 for every accepted line;
  - the loading of files ends, at any depth and whatever the files hold.
-/

import KanekFoundations.Cfg.GrammarProofs

namespace KanekFoundations.Cfg

open KanekFoundations.Lib

variable {F : Type} {sys : Sys F} {g g' : SubHeap (Block F)} {m m' : Mem F} {l : Lex} {rc : Int}

/-! ## The forms of a line -/

/-- The line that `parse_line` reads from the one it is given. -/
def lineText (rawLine : List Byte) : List Byte := trim ((rawLine.takeWhile (· ≠ 0)).take (CFG_MAX_LINE - 1))

theorem reads_of_type {p q : List Byte} {t : Tok F} {errs : List Report} (h : scanTok sys p = ⟨t, q, errs⟩)
    (ht : t.type ≠ .string ∧ t.type ≠ .float) : Reads sys p t q := by
  have herrs := scanTok_errs sys p
  rw [h] at herrs
  rcases herrs with he | hstr | hfloat
  · exact scan_reads h he
  · exact absurd hstr ht.1
  · exact absurd hfloat ht.2

theorem Reads.unique {p q q' : List Byte} {t t' : Tok F} (h : Reads sys p t q) (h' : Reads sys p t' q') :
    t' = t ∧ q' = q := by
  cases h.symm.trans h'
  exact ⟨rfl, rfl⟩

theorem Reads.next {p q : List Byte} {t : Tok F} (h : Reads sys p t q) :
    nextTok sys ⟨p, false, []⟩ = (t, ⟨q, false, []⟩) := by
  unfold nextTok
  rw [show scanTok sys p = _ from h]
  rfl

/-- A line up to the token that decides what it does. -/
inductive LineForm (sys : Sys F) (line : List Byte) : Prop
  | blank {t : Tok F} {q : List Byte} : Reads sys line t q → t.Ends → LineForm sys line
  | incl {q : List Byte} : Reads sys line (.ident includeText) q → LineForm sys line
  | display {q : List Byte} : Reads sys line (.ident displayText) q → LineForm sys line
  | assign {k q q' : List Byte} : Reads sys line (.ident k) q → k ≠ includeText → k ≠ displayText → Reads sys q .eq q' →
    LineForm sys line
  | append {k q q' : List Byte} : Reads sys line (.ident k) q → k ≠ includeText → k ≠ displayText →
    Reads sys q .pluseq q' →
    LineForm sys line

def displayTail (sys : Sys F) (r : Option Addr × Lex) : M F Int := do
  displayVar sys r.1
  finish r.2 (if r.2.error then -1 else 0)

def setTail (sys : Sys F) (key : List Byte) (r : Option Addr × Lex) : M F Int := do
  let rc ← setVar sys key r.1
  finish r.2 (if r.2.error ∨ rc < 0 then -1 else 0)

/-- The string of the old value, for `+=`. -/
def oldText (sys : Sys F) (key : List Byte) : M F (Option Addr) := do
  match ← getVar sys key with
  | some v => varToStr sys (some v)
  | none => taStrdup sys []

def appendTail (sys : Sys F) (key : List Byte) (es : Option Addr) (r : Option Addr × Lex) : M F Int := do
  let rs ← varToStr sys r.1
  let etext ← textOf es
  let rtext ← textOf rs
  let size := etext.length + rtext.length + 1
  match ← taMalloc sys (.raw size) with
  | none => finish (r.2.report "ta_malloc failed for %zu bytes" [decimalNat size]) (-1)
  | some buf => do
    memcpy buf 0 (etext ++ rtext)
    let val ← varStr sys (some (← cstr buf))
    setTail sys key (val, r.2)

section
variable (loadFile : List Byte → M F Int) {rawLine : List Byte} (dir : List Byte) {k q q' : List Byte}

theorem parseLine_blank {t : Tok F} (hfirst : Reads sys (lineText rawLine) t q) (hend : t.Ends) :
    parseLine sys loadFile rawLine dir = finish ⟨q, false, []⟩ 0 := by
  unfold parseLine
  rw [← lineText]
  dsimp only
  rw [hfirst.next]
  cases t with
  | eof | hash => rfl
  | _ => rcases hend with h | h <;> cases h

theorem parseLine_incl (hfirst : Reads sys (lineText rawLine) (.ident includeText) q) :
    parseLine sys loadFile rawLine dir =
      if includeName q = [] then finish ((⟨q, false, []⟩ : Lex).report "include: missing filename" []) (-1)
      else finish ⟨q, false, []⟩ 0 >>= fun _ => loadFile (includePath dir (includeName q)) := by
  unfold parseLine
  rw [← lineText]
  dsimp only
  rw [hfirst.next]
  exact if_pos rfl

theorem parseLine_display (hfirst : Reads sys (lineText rawLine) (.ident displayText) q) :
    parseLine sys loadFile rawLine dir = evalRhs sys ⟨q, false, []⟩ >>= displayTail sys := by
  have hincl : displayText ≠ includeText := by decide
  unfold parseLine
  rw [← lineText]
  dsimp only
  rw [hfirst.next]
  dsimp only
  rw [if_neg hincl]
  exact if_pos rfl

theorem parseLine_assign (hfirst : Reads sys (lineText rawLine) (.ident k) q) (hincl : k ≠ includeText)
    (hdisp : k ≠ displayText)
    (hop : Reads sys q .eq q') :
    parseLine sys loadFile rawLine dir = evalRhs sys ⟨q', false, []⟩ >>= setTail sys (k.take (CFG_MAX_TOK - 1)) := by
  unfold parseLine
  rw [← lineText]
  dsimp only
  rw [hfirst.next]
  dsimp only
  rw [if_neg hincl, if_neg hdisp, hop.next]
  rfl

theorem parseLine_append (hfirst : Reads sys (lineText rawLine) (.ident k) q) (hincl : k ≠ includeText)
    (hdisp : k ≠ displayText)
    (hop : Reads sys q .pluseq q') :
    parseLine sys loadFile rawLine dir = oldText sys (k.take (CFG_MAX_TOK - 1)) >>= fun es =>
      evalRhs sys ⟨q', false, []⟩ >>= appendTail sys (k.take (CFG_MAX_TOK - 1)) es := by
  unfold parseLine oldText
  rw [← lineText]
  dsimp only
  rw [hfirst.next]
  dsimp only
  rw [if_neg hincl, if_neg hdisp, hop.next, bind_assoc]
  refine congrArg (getVar sys (k.take (CFG_MAX_TOK - 1)) >>= ·) (funext fun v => ?_)
  cases v with
  | none => rfl
  | some v => rfl

/-- Any other line is answered with -1 at once. -/
theorem parseLine_unformed (hno : ¬ LineForm sys (lineText rawLine)) :
    ∃ l, parseLine sys loadFile rawLine dir = finish l (-1) := by
  obtain ⟨t, q, errs, hscan, hnext, -⟩ := scan_cases sys ⟨lineText rawLine, false, []⟩
  have hblank : t.Ends → False := fun hend =>
    hno (.blank (reads_of_type hscan (by rcases hend with h | h <;> rw [h] <;> decide)) hend)
  unfold parseLine
  rw [← lineText]
  dsimp only
  rw [hnext]
  cases t with
  | eof => exact absurd (.inl rfl) hblank
  | hash => exact absurd (.inr rfl) hblank
  | ident k =>
    have hfirst := reads_of_type hscan (by decide : TokType.ident ≠ .string ∧ TokType.ident ≠ .float)
    have hincl : k ≠ includeText := fun h => hno (.incl (h ▸ hfirst))
    have hdisp : k ≠ displayText := fun h => hno (.display (h ▸ hfirst))
    obtain ⟨t₂, q₂, errs₂, hscan₂, hnext₂, -⟩ := scan_cases sys ((⟨lineText rawLine, false, []⟩ : Lex).after q errs)
    dsimp only
    rw [if_neg hincl, if_neg hdisp, hnext₂]
    cases t₂ with
    | eq =>
      have hop := reads_of_type hscan₂ (by decide : TokType.eq ≠ .string ∧ TokType.eq ≠ .float)
      exact absurd (.assign hfirst hincl hdisp hop) hno
    | pluseq =>
      have hop := reads_of_type hscan₂ (by decide : TokType.pluseq ≠ .string ∧ TokType.pluseq ≠ .float)
      exact absurd (.append hfirst hincl hdisp hop) hno
    | _ => exact ⟨_, rfl⟩
  | _ => exact ⟨_, rfl⟩

end

/-! ## The end of a line -/

theorem wp_finish {Q : Int → Mem F → Prop} : wp (finish l rc) Q m ↔ Q rc { m with trace := m.trace ++ l.trace } :=
    wp_run rfl

theorem displayVar_spec (h : Safe sys g m) {r : Option Addr} (hr : ∀ v, r = some v → IsVar g v) :
    wp (displayVar sys r) (fun _ m' => Prints m m') m := by
  unfold displayVar
  have hprint : ∀ v, (∀ a, v = some a → IsVar g a) → wp (varPrint sys v) (fun _ m' => Prints m m') m :=
    fun v hv => varPrintDepth_spec h.closed _ h.within hv
  cases r with
  | none => exact Prints.andThen (hprint none fun _ h => by cases h) fun _ _ _ => printf_spec _
  | some a =>
    obtain ⟨b, hb, -⟩ := hr a rfl
    show wp (load a >>= _) _ m
    rw [wp_bind, wp_load (h.within a b hb)]
    cases b with
    | str s =>
      refine wp_bind.mpr ?_
      cases s with
      | none => exact wp_pure.mpr (printf_spec _)
      | some c =>
        obtain ⟨cap, text, hget⟩ := h.closed a _ hb
        exact (wp_cstr (h.within c _ hget)).mpr (printf_spec _)
    | _ => exact Prints.andThen (hprint _ hr) fun _ _ _ => printf_spec _

/-- No file is touched, and no variable but those of `keys`. -/
structure Frame (sys : Sys F) (m : Mem F) (keys : List Byte → Prop) (m' : Mem F) : Prop where
  files : m'.files = m.files
  vars : ∀ k, ¬ keys k → m'.vars.dictGet sys.xxh32 (some k) = m.vars.dictGet sys.xxh32 (some k)

theorem Frame.extend {keys : List Byte → Prop} {m₁ : Mem F} (hext : Extends g m g' m₁) (h : Frame sys m₁ keys m') :
    Frame sys m keys m' := by
  refine ⟨h.files.trans hext.files, fun k hk => ?_⟩
  rw [h.vars k hk, hext.vars]

theorem setVar_spec (h : Safe sys g m) (key : List Byte) {val : Option Addr} (hval : ∀ v, val = some v → IsVar g v) :
    wp (setVar sys key val) (fun rc m' => Safe sys g m' ∧ Frame sys m (· = key) m' ∧ ((rc = 0 ∧
        ∀ k, m'.vars.dictGet sys.xxh32 (some k) = if k = key then val else m.vars.dictGet sys.xxh32 (some k)) ∨
      (rc = -1 ∧ ¬ sys.NoFail))) m := by
  obtain ⟨hinv, hcases⟩ := Dict.dictSet_get h.inv key val (sys.mallocOk m.mallocs) (sys.mallocOk (m.mallocs + 1))
  refine ⟨_, rfl, ⟨h.within, h.closed, hinv, ?_⟩, ⟨rfl, fun k hk => ?_⟩, ?_⟩
  · intro e he v hv
    rcases hcases with ⟨-, hent, -⟩ | ⟨-, -, hd⟩
    · rcases hent e he with hnew | hold
      · exact hval v (hnew.symm.trans hv)
      · exact h.vars e hold v hv
    · dsimp only at he
      rw [hd] at he
      exact h.vars e he v hv
  · dsimp only
    rcases hcases with ⟨-, -, hget⟩ | ⟨-, -, hd⟩
    · rw [hget, if_neg hk]
    · rw [hd]
  · rcases hcases with ⟨hrc, -, hget⟩ | ⟨hrc, hok, -⟩
    · exact .inl ⟨hrc, hget⟩
    · refine .inr ⟨hrc, fun hyes => ?_⟩
      rw [hyes] at hok
      cases hok

/-- An assignment's store: the variable is set whether or not there was an error. -/
def Stored (sys : Sys F) (g : SubHeap (Block F)) (m : Mem F) (l : Lex) (key : List Byte)
    (P : SubHeap (Block F) → Option Addr → Prop) (rc : Int) (m' : Mem F) : Prop :=
  (rc = 0 ∨ rc = -1) ∧ (rc = 0 → l.error = false) ∧ Frame sys m (· = key) m' ∧
    ∃ g' val, Built g g' ∧ Safe sys g' m' ∧ P g' val ∧ (sys.NoFail → (l.error = false → rc = 0) ∧
      ∀ k, m'.vars.dictGet sys.xxh32 (some k) = if k = key then val else m.vars.dictGet sys.xxh32 (some k))

theorem store_spec (h : Safe sys g m) (key : List Byte) {val : Option Addr} (hval : IsVal sys g val)
    {P : SubHeap (Block F) → Option Addr → Prop} (hP : P g val) :
    wp (setTail sys key (val, l)) (Stored sys g m l key P) m := by
  refine wp.bind (setVar_spec h key hval.1) ?_
  intro rc m' hpost
  obtain ⟨hsafe, hframe, hcases⟩ := hpost
  refine wp_finish.mpr ⟨?_, ?_, ⟨hframe.files, hframe.vars⟩, g, val, .refl g, hsafe.report _, hP, fun hyes => ?_⟩
  · split
    · exact .inr rfl
    · exact .inl rfl
  · intro hrc
    split at hrc
    · cases hrc
    · rename_i hno
      exact Bool.eq_false_iff.mpr fun herr => hno (.inl herr)
  · rcases hcases with ⟨rfl, hget⟩ | ⟨-, hno⟩
    · refine ⟨fun herr => ?_, hget⟩
      rw [if_neg]
      intro hor
      rcases hor with herr' | hlt
      · rw [herr] at herr'
        cases herr'
      · exact absurd hlt (Int.lt_irrefl 0)
    · exact absurd hyes hno

theorem Stored.extend {key : List Byte} {P : SubHeap (Block F) → Option Addr → Prop} {m₁ : Mem F}
    (hext : Extends g m g' m₁) (h : Stored sys g' m₁ l key P rc m') : Stored sys g m l key P rc m' := by
  obtain ⟨hrc, herr, hframe, g₂, val, hbuilt, hsafe, hP, hget⟩ := h
  rw [hext.vars] at hget
  exact ⟨hrc, herr, hframe.extend hext, g₂, val, hext.built.trans hbuilt, hsafe, hP, hget⟩

/-- The end of `+=`: the two texts in a new buffer, as a new value. -/
theorem appendEnd_spec (h : Safe sys g m) (key etext rtext : List Byte) :
    wp (do
      match ← taMalloc sys (.raw (etext.length + rtext.length + 1)) with
      | none =>
        finish (l.report "ta_malloc failed for %zu bytes" [decimalNat (etext.length + rtext.length + 1)]) (-1)
      | some buf => do
        memcpy buf 0 (etext ++ rtext)
        let val ← varStr sys (some (← cstr buf))
        setTail sys key (val, l))
      (Stored sys g m l key fun g' val => sys.NoFail → PointsStr sys g' (etext ++ rtext) val) m := by
  refine wp_bind.mpr (wp_malloc (fun hno => ?_) ?_)
  · refine wp_finish.mpr ⟨.inr rfl, fun h => (by cases h), ⟨rfl, fun _ _ => rfl⟩, g, none, .refl g,
      (h.extend h.refl.failed).report _, ?_, ?_⟩
    · exact fun hyes => absurd hyes hno
    · exact fun hyes => absurd hyes hno
  have hext := h.refl.allocd (Block.raw (F := F) (etext.length + rtext.length + 1))
  have hraw : (m.allocd (.raw (etext.length + rtext.length + 1))).heap.get m.heap.length =
      some (.raw (etext.length + rtext.length + 1)) := m.get_allocd_self _
  have hroom : (etext ++ rtext).length + 1 ≤ etext.length + rtext.length + 1 := by rw [List.length_append]
  refine wp_bind.mpr ((wp_memcpy_raw hraw hroom).mpr ?_)
  have hput := hext.put (Nat.le_refl _) h.refl.fresh (some (.chars (etext.length + rtext.length + 1) (etext ++ rtext)))
  refine wp_bind.mpr ((wp_cstr (Mem.get_put_self _ hraw)).mpr ?_)
  refine wp.bind (varStr_spec (h.extend hput) (etext ++ rtext)) ?_
  intro val m₁ hpost
  obtain ⟨g₁, hext₁, hstr⟩ := hpost
  have hstore := store_spec (P := fun g' val => sys.NoFail → PointsStr sys g' (etext ++ rtext) val) (l := l)
    (h.extend (hput.trans hext₁)) key hstr.isVal fun _ => hstr
  exact hstore.mono fun rc m' hstored => hstored.extend (hput.trans hext₁)

theorem Stored.imp {key : List Byte} {P P' : SubHeap (Block F) → Option Addr → Prop} (h : Stored sys g m l key P rc m')
    (himp : ∀ g' val, P g' val → P' g' val) : Stored sys g m l key P' rc m' := by
  obtain ⟨hrc, herr, hframe, g₂, val, hbuilt, hsafe, hP, hget⟩ := h
  exact ⟨hrc, herr, hframe, g₂, val, hbuilt, hsafe, himp g₂ val hP, hget⟩

theorem elim_some {s : Option Addr} (text : List Byte) (h : s ≠ none) : (s.elim [] fun _ => text) = text := by
  cases s with
  | none => exact absurd rfl h
  | some _ => rfl

/-- `+=` once its right-hand side has a value: `es` is the string of the old value. -/
theorem appendTail_spec (h : Safe sys g m) (key : List Byte) {es : Option Addr} {text : List Byte}
    (hes : (sys.NoFail → es ≠ none) ∧ ∀ c, es = some c → ∃ cap, m.heap.get c = some (.chars cap text))
    {rhs : Option Addr}
    (hrhs : ∀ v, rhs = some v → IsVar g v) :
    wp (appendTail sys key es (rhs, l))
      (Stored sys g m l key fun g' val => sys.NoFail → PointsStr sys g' (text ++ valText sys g rhs) val) m := by
  refine wp.bind (varToStr_spec h.within h.closed hrhs) ?_
  intro rs m₁ hpost
  obtain ⟨hext, hok, hrs⟩ := hpost
  have hes₁ : ∀ c, es = some c → ∃ cap, m₁.heap.get c = some (.chars cap text) := by
    intro c hc
    obtain ⟨cap, hget⟩ := hes.2 c hc
    exact ⟨cap, (hext.grows.heap c (Heap.get_lt hget)).trans hget⟩
  refine wp_bind.mpr ((wp_textOf hes₁).mpr (wp_bind.mpr ((wp_textOf fun c hc => (hrs c hc).2).mpr ?_)))
  refine (appendEnd_spec (h.extend hext) key _ _).mono fun rc m' hstored => ?_
  refine (hstored.extend hext).imp fun g' val hstr hyes => ?_
  rw [← elim_some text (hes.1 hyes), ← elim_some (valText sys g rhs) (hok hyes)]
  exact hstr hyes

/-! ## Lines -/

/-- The files that are loaded without an error. -/
def Loads (loadFile : List Byte → M F Int) (m : Mem F) (path : List Byte) : Prop := ∃ m', loadFile path m = some (0, m')

/-- The line asks for the file at `path`. -/
def Includes (sys : Sys F) (dir line path : List Byte) : Prop :=
  ∃ q, Reads sys line (.ident includeText) q ∧ includeName q ≠ [] ∧ path = includePath dir (includeName q)

/-- The line sets the variable `key`, the identifier that it starts with as it is copied. -/
def Assigns (sys : Sys F) (line key : List Byte) : Prop :=
  ∃ k q q', ∃ t : Tok F, Reads sys line (.ident k) q ∧ k ≠ includeText ∧ k ≠ displayText ∧ Reads sys q t q' ∧
    (t.type = .eq ∨ t.type = .pluseq) ∧ key = k.take (CFG_MAX_TOK - 1)

/-- What a line does: an include is the loading of its file; any other line keeps the variables
    that it does not set. -/
inductive LineEffect (sys : Sys F) (loadFile : List Byte → M F Int) (dir line : List Byte) (m : Mem F) :
    Int → Mem F → Prop
  | incl {path : List Byte} {rc : Int} {m' : Mem F} :
    Includes sys dir line path → loadFile path m = some (rc, m') → LineEffect sys loadFile dir line m rc m'
  | plain {rc : Int} {m' : Mem F} :
    (∀ path, ¬ Includes sys dir line path) → Frame sys m (Assigns sys line) m' →
      LineEffect sys loadFile dir line m rc m'

/-- Values were added, in a memory that is safe. -/
def Grown (sys : Sys F) (g : SubHeap (Block F)) (m' : Mem F) : Prop := ∃ g', Built g g' ∧ Safe sys g' m'

theorem Grown.report (h : Grown sys g m') (trace : List Report) : Grown sys g { m' with trace := trace } := by
  obtain ⟨g', hbuilt, hsafe⟩ := h
  exact ⟨g', hbuilt, hsafe.report trace⟩

theorem Grown.log (h : Grown sys g m') (files : List FileEvent) : Grown sys g { m' with files := files } := by
  obtain ⟨g', hbuilt, hsafe⟩ := h
  exact ⟨g', hbuilt, hsafe.log files⟩

theorem Safe.grown (h : Safe sys g m) : Grown sys g m := ⟨g, .refl g, h⟩

theorem Grown.trans (h : Grown sys g' m') (hbuilt : Built g g') : Grown sys g m' := by
  obtain ⟨g₂, hbuilt', hsafe⟩ := h
  exact ⟨g₂, hbuilt.trans hbuilt', hsafe⟩

/-- The run of a line: it answers 0 or -1, in a safe memory, and by the grammar. -/
structure LinePost (sys : Sys F) (loadFile : List Byte → M F Int) (dir line : List Byte)
    (g : SubHeap (Block F)) (m : Mem F)
    (rc : Int) (m' : Mem F) : Prop where
  code : rc = 0 ∨ rc = -1
  grown : Grown sys g m'
  sound : rc = 0 → AcceptsLine sys (¬ sys.NoFail) (Loads loadFile m) dir line
  complete : sys.NoFail → AcceptsLine sys False (Loads loadFile m) dir line → rc = 0
  effect : LineEffect sys loadFile dir line m rc m'

/-- The derivations of a line that starts with an identifier. -/
theorem line_ident {fails : Prop} {loads : List Byte → Prop} {dir line k q : List Byte}
    (hfirst : Reads sys line (.ident k) q)
    (h : AcceptsLine sys fails loads dir line) :
    (k = includeText ∧ includeName q ≠ [] ∧ loads (includePath dir (includeName q))) ∨
      (k = displayText ∧ ∃ r, AcceptsRhs sys fails q r) ∨
      (k ≠ includeText ∧ k ≠ displayText ∧ ∃ (t : Tok F) (q' r : List Byte),
        Reads sys q t q' ∧ (t.type = .eq ∨ t.type = .pluseq) ∧ AcceptsRhs sys fails q' r) := by
  cases h with
  | blank hr hend =>
    obtain ⟨rfl, -⟩ := hfirst.unique hr
    rcases hend with hend | hend <;> cases hend
  | incl hr hname hloads =>
    obtain ⟨hk, rfl⟩ := hfirst.unique hr
    exact .inl ⟨(Tok.ident.inj hk).symm, hname, hloads⟩
  | display hr ha =>
    obtain ⟨hk, rfl⟩ := hfirst.unique hr
    exact .inr (.inl ⟨(Tok.ident.inj hk).symm, _, ha⟩)
  | assign hr hincl hdisp hop ht ha =>
    obtain ⟨hk, rfl⟩ := hfirst.unique hr
    cases hk
    exact .inr (.inr ⟨hincl, hdisp, _, _, _, hop, ht, ha⟩)

theorem not_includes {dir line k q : List Byte} (hfirst : Reads sys line (.ident k) q) (hk : k ≠ includeText)
    (path : List Byte) :
    ¬ Includes sys dir line path := by
  intro hincl
  obtain ⟨q', hr, -, -⟩ := hincl
  exact hk (Tok.ident.inj (hfirst.unique hr).1).symm

/-- What the right-hand side says about a line that stores: the return code follows the error flag. -/
theorem assign_post {loadFile : List Byte → M F Int} {dir line k q q' : List Byte} {t : Tok F}
    {P : SubHeap (Block F) → Option Addr → Prop} {l l' : Lex} (hfirst : Reads sys line (.ident k) q)
    (hincl : k ≠ includeText) (hdisp : k ≠ displayText) (hop : Reads sys q t q') (ht : t.type = .eq ∨ t.type = .pluseq)
    (hl : l.error = false ∧ l.p = q') (hstep : LexStep sys (fun fails r => AcceptsRhs sys fails l.p r) l l')
    (hst : Stored sys g m l' (k.take (CFG_MAX_TOK - 1)) P rc m') : LinePost sys loadFile dir line g m rc m' := by
  obtain ⟨hrc, herr, hframe, g₂, val, hbuilt, hsafe, -, hok⟩ := hst
  have hassigns : Assigns sys line (k.take (CFG_MAX_TOK - 1)) := ⟨k, q, q', t, hfirst, hincl, hdisp, hop, ht, rfl⟩
  have hkeep : Frame sys m (Assigns sys line) m' :=
    ⟨hframe.files, fun key hkey => hframe.vars key fun h => hkey (h ▸ hassigns)⟩
  refine ⟨hrc, ⟨g₂, hbuilt, hsafe⟩, fun h0 => ?_, fun hyes hacc => ?_, .plain (not_includes hfirst hincl) hkeep⟩
  · exact .assign hfirst hincl hdisp hop ht (hl.2 ▸ (hstep.sound (herr h0)).2)
  · rcases line_ident hfirst hacc with ⟨hk, -⟩ | ⟨hk, -⟩ | ⟨-, -, t', q'', r, hop', -, hr⟩
    · exact absurd hk hincl
    · exact absurd hk hdisp
    obtain ⟨-, rfl⟩ := hop.unique hop'
    rw [← hl.2] at hr
    exact (hok hyes).1 (hstep.complete hyes hl.1 r hr).1

theorem wp_reject {loadFile : List Byte → M F Int} {dir line : List Byte} (h : Safe sys g m)
    (hno : ¬ AcceptsLine sys False (Loads loadFile m) dir line) (hincl : ∀ path, ¬ Includes sys dir line path) :
    wp (finish l (-1)) (LinePost sys loadFile dir line g m) m :=
  wp_finish.mpr ⟨.inr rfl, h.grown.report _, fun h => (by cases h), fun _ hacc => absurd hacc hno,
    .plain hincl ⟨rfl, fun _ _ => rfl⟩⟩

/-- What an include needs of the loading of files: it ends, and leaves a safe memory. -/
def LoadsSafely (sys : Sys F) (loadFile : List Byte → M F Int) : Prop :=
  ∀ path g m, Safe sys g m → wp (loadFile path) (fun rc m' => (rc = 0 ∨ rc = -1) ∧ Grown sys g m') m

theorem include_spec {loadFile : List Byte → M F Int} (hload : LoadsSafely sys loadFile) (h : Safe sys g m)
    {line q dir : List Byte} (hfirst : Reads sys line (.ident includeText) q) (hl : l.trace = []) :
    wp (if includeName q = [] then finish (l.report "include: missing filename" []) (-1)
      else finish l 0 >>= fun _ => loadFile (includePath dir (includeName q)))
      (LinePost sys loadFile dir line g m) m := by
  -- The only derivations of a line that starts with `include`.
  have honly : ∀ fails loads, AcceptsLine sys fails loads dir line →
      includeName q ≠ [] ∧ loads (includePath dir (includeName q)) := by
    intro fails loads hacc
    rcases line_ident hfirst hacc with ⟨-, hincl⟩ | ⟨hk, -⟩ | ⟨hk, -⟩
    · exact hincl
    · exact absurd hk (by decide)
    · exact absurd rfl hk
  by_cases hname : includeName q = []
  · rw [if_pos hname]
    refine wp_reject h (fun hacc => (honly _ _ hacc).1 hname) fun path hpath => ?_
    obtain ⟨q', hr, hname', -⟩ := hpath
    obtain ⟨-, rfl⟩ := hfirst.unique hr
    exact hname' hname
  · rw [if_neg hname, wp_bind, wp_finish, hl, List.append_nil]
    obtain ⟨⟨rc, m'⟩, hrun, hrc, hsafe⟩ := hload (includePath dir (includeName q)) g m h
    refine ⟨(rc, m'), hrun, hrc, hsafe, fun h0 => ?_, fun _ hacc => ?_, .incl ⟨q, hfirst, hname, rfl⟩ hrun⟩
    · dsimp only at h0
      subst h0
      exact .incl hfirst hname ⟨m', hrun⟩
    · obtain ⟨m'', hrun'⟩ := (honly _ _ hacc).2
      cases hrun.symm.trans hrun'
      rfl

theorem display_spec {loadFile : List Byte → M F Int} (h : Safe sys g m) {line dir : List Byte}
    (hfirst : Reads sys line (.ident displayText) l.p) (hl : l.error = false) :
    wp (evalRhs sys l >>= displayTail sys) (LinePost sys loadFile dir line g m) m := by
  refine wp.bind (evalRhs_spec h) ?_
  intro res m₁ hpost
  obtain ⟨v, l'⟩ := res
  obtain ⟨hstep, g₁, hext, hval⟩ := hpost
  have hsafe := h.extend hext
  refine wp.bind (displayVar_spec hsafe hval.1) ?_
  intro _ m₂ hprint
  have hsafe₂ := (hsafe.print hprint).report (m₂.trace ++ l'.trace)
  have hkeep : Frame sys m (Assigns sys line) { m₂ with trace := m₂.trace ++ l'.trace } := by
    obtain ⟨s, rfl⟩ := hprint
    exact .extend hext ⟨rfl, fun _ _ => rfl⟩
  refine wp_finish.mpr ⟨?_, ⟨g₁, hext.built, hsafe₂⟩, fun h0 => ?_, fun hyes hacc => ?_,
    .plain (not_includes hfirst (by decide)) hkeep⟩
  · split
    · exact .inr rfl
    · exact .inl rfl
  · have herr : l'.error = false := by
      split at h0
      · cases h0
      · rename_i herr
        exact Bool.eq_false_iff.mpr herr
    exact .display hfirst (hstep.sound herr).2
  · rcases line_ident hfirst hacc with ⟨hk, -⟩ | ⟨-, r, hr⟩ | ⟨-, hk, -⟩
    · exact absurd hk (by decide)
    · rw [if_neg (Bool.eq_false_iff.mp (hstep.complete hyes hl r hr).1)]
    · exact absurd rfl hk

theorem oldText_spec (h : Safe sys g m) (key : List Byte) :
    wp (oldText sys key) (fun es m₁ => ∃ text, Buffer sys g m text es m₁) m := by
  have hvar := fun v => h.getVar key (v := v)
  unfold oldText
  rw [wp_bind, wp_getVar]
  generalize m.vars.dictGet sys.xxh32 (some key) = r at hvar
  cases r with
  | none => exact (taStrdup_spec h.within h.closed []).mono fun es m₁ hes => ⟨_, hes⟩
  | some v => exact (varToStr_spec h.within h.closed hvar).mono fun es m₁ hes => ⟨_, hes⟩

/-- The code of `+=` once the old value has its string `es`. -/
theorem appendLine_spec {loadFile : List Byte → M F Int} (h : Safe sys g m) {line dir k q q' : List Byte}
    {es : Option Addr}
    {text : List Byte} (hfirst : Reads sys line (.ident k) q) (hincl : k ≠ includeText) (hdisp : k ≠ displayText)
    (hop : Reads sys q .pluseq q') (hl : l.error = false ∧ l.p = q') {m₁ : Mem F} (hes : Buffer sys g m text es m₁) :
    wp (evalRhs sys l >>= appendTail sys (k.take (CFG_MAX_TOK - 1)) es) (LinePost sys loadFile dir line g m) m₁ := by
  obtain ⟨hext, hok, hbuf⟩ := hes
  refine wp.bind (evalRhs_spec (h.extend hext)) ?_
  intro r m₂ hpost
  obtain ⟨rhs, l'⟩ := r
  obtain ⟨hstep, g₂, hext₂, hval⟩ := hpost
  have hes₂ : ∀ c, es = some c → ∃ cap, m₂.heap.get c = some (.chars cap text) := by
    intro c hc
    obtain ⟨-, cap, hget⟩ := hbuf c hc
    exact ⟨cap, (hext₂.grows.heap c (Heap.get_lt hget)).trans hget⟩
  refine (appendTail_spec ((h.extend hext).extend hext₂) _ ⟨hok, hes₂⟩ hval.1).mono fun rc m' hst => ?_
  exact assign_post hfirst hincl hdisp hop (.inr rfl) hl hstep ((hst.extend hext₂).extend hext)

theorem LineForm.of_accepts {fails : Prop} {loads : List Byte → Prop} {dir line : List Byte}
    (h : AcceptsLine sys fails loads dir line) : LineForm sys line := by
  cases h with
  | blank hr hend => exact .blank hr hend
  | incl hr => exact .incl hr
  | display hr => exact .display hr
  | @assign k q q' r t hr hincl hdisp hop ht =>
    cases t with
    | eq => exact .assign hr hincl hdisp hop
    | pluseq => exact .append hr hincl hdisp hop
    | _ => rcases ht with h | h <;> cases h

theorem LineForm.of_includes {dir line path : List Byte} (h : Includes sys dir line path) : LineForm sys line := by
  obtain ⟨q, hr, -⟩ := h
  exact .incl hr

theorem parseLine_spec {loadFile : List Byte → M F Int} (hload : LoadsSafely sys loadFile) (h : Safe sys g m)
    (rawLine dir : List Byte) :
    wp (parseLine sys loadFile rawLine dir) (LinePost sys loadFile dir (lineText rawLine) g m) m := by
  by_cases hform : LineForm sys (lineText rawLine)
  swap
  · obtain ⟨l, hrun⟩ := parseLine_unformed loadFile dir hform
    rw [hrun]
    exact wp_reject h (fun hacc => hform (.of_accepts hacc)) fun path hincl => hform (.of_includes hincl)
  cases hform with
  | blank hfirst hend =>
    rw [parseLine_blank loadFile dir hfirst hend]
    refine wp_finish.mpr ⟨.inl rfl, h.grown.report _, fun _ => .blank hfirst hend, fun _ _ => rfl,
      .plain ?_ ⟨rfl, fun _ _ => rfl⟩⟩
    intro path hincl
    obtain ⟨q', hr, -⟩ := hincl
    obtain ⟨rfl, -⟩ := hfirst.unique hr
    rcases hend with hend | hend <;> cases hend
  | incl hfirst =>
    rw [parseLine_incl loadFile dir hfirst]
    exact include_spec hload h hfirst rfl
  | display hfirst =>
    rw [parseLine_display loadFile dir hfirst]
    exact display_spec h hfirst rfl
  | assign hfirst hincl hdisp hop =>
    rw [parseLine_assign loadFile dir hfirst hincl hdisp hop]
    refine wp.bind (evalRhs_spec h) ?_
    intro res m₁ hpost
    obtain ⟨val, l'⟩ := res
    obtain ⟨hstep, g₁, hext, hval⟩ := hpost
    refine (store_spec (P := fun _ _ => True) (h.extend hext) _ hval trivial).mono fun rc m' hst => ?_
    exact assign_post hfirst hincl hdisp hop (.inl rfl) ⟨rfl, rfl⟩ hstep (hst.extend hext)
  | @append k _ _ hfirst hincl hdisp hop =>
    rw [parseLine_append loadFile dir hfirst hincl hdisp hop]
    refine wp.bind (oldText_spec h (k.take (CFG_MAX_TOK - 1))) ?_
    intro es m₁ hpost
    obtain ⟨text, hes⟩ := hpost
    exact appendLine_spec h hfirst hincl hdisp hop ⟨rfl, rfl⟩ hes

/-! ## Files -/

theorem fgets_append (n : Nat) (p : List Byte) : (fgets n p).1 ++ (fgets n p).2.1 = p := by
  induction n generalizing p with
  | zero => rfl
  | succ n ih =>
    cases p with
    | nil => rfl
    | cons c r =>
      unfold fgets
      split
      · rfl
      · exact congrArg (c :: ·) (ih r)

/-- What a call reads, it takes off the file. -/
theorem fgets_rest {n : Nat} {p : List Byte} (h : (fgets n p).1 ≠ []) : (fgets n p).2.1.length < p.length := by
  have happ := congrArg List.length (fgets_append n p)
  rw [List.length_append] at happ
  have hpos := List.length_pos_of_ne_nil h
  omega

theorem wp_traceErr {Q : Unit → Mem F → Prop} {fmt : String} {args : List (List Byte)} :
    wp (traceErr fmt args) Q m ↔ Q () { m with trace := m.trace ++ [⟨fmt, args⟩] } := wp_run rfl

theorem wp_logFile {Q : Unit → Mem F → Prop} {e : FileEvent} : wp (logFile e) Q m ↔
    Q () { m with files := m.files ++ [e] } :=
  wp_run rfl

/-- The lines of a file as the loop reads them, in at most `n` calls of `fgets`: what `parse_line`
    is given, or nothing for a line that does not fit. -/
def cutLines : Nat → List Byte → List (Option (List Byte))
  | 0, _ => []
  | n + 1, content =>
    let r := fgets (CFG_MAX_LINE - 1) content
    if r.1 = [] then []
    else
      let text := r.1.takeWhile (· ≠ 0)
      if chr '\n' ∉ text ∧ r.2.2 = false then none :: cutLines n ((r.2.1.dropWhile (· ≠ chr '\n')).drop 1)
      else some (text.takeWhile (· ≠ chr '\n')) :: cutLines n r.2.1

theorem cutLines_succ (n : Nat) (content : List Byte) : cutLines (n + 1) content =
    if (fgets (CFG_MAX_LINE - 1) content).1 = [] then []
    else if chr '\n' ∉ (fgets (CFG_MAX_LINE - 1) content).1.takeWhile (· ≠ 0) ∧
      (fgets (CFG_MAX_LINE - 1) content).2.2 = false then
      none :: cutLines n (((fgets (CFG_MAX_LINE - 1) content).2.1.dropWhile (· ≠ chr '\n')).drop 1)
    else some (((fgets (CFG_MAX_LINE - 1) content).1.takeWhile (· ≠ 0)).takeWhile (· ≠ chr '\n')) ::
      cutLines n (fgets (CFG_MAX_LINE - 1) content).2.1 := rfl

def fileLines (content : List Byte) : List (Option (List Byte)) := cutLines (content.length + 1) content

/-- The loop over the lines of a file: `I` is what holds before the lines that are left. The loop
    reports the lines that are answered with -1. -/
theorem loadLines_rule {loadFile : List Byte → M F Int} (filename dir : List Byte)
    (I : List (Option (List Byte)) → Int → Mem F → Prop)
    (hlong : ∀ lines rc m trace, I (none :: lines) rc m → I lines (-1) { m with trace := trace })
    (hline : ∀ line lines rc m, I (some line :: lines) rc m → wp (parseLine sys loadFile line dir)
      (fun r m' => ∀ trace, (¬ r < 0 → trace = m'.trace) → I lines (if r < 0 then -1 else rc)
        { m' with trace := trace, files := m'.files ++ [.line line r] }) m)
    (k : Nat) {content : List Byte} (hk : content.length < k) (lineno : Nat) (h : I (cutLines k content) rc m) :
    wp (loadLines sys loadFile filename dir k content lineno rc) (I []) m := by
  induction k generalizing content lineno rc m with
  | zero => exact absurd hk (Nat.not_lt_zero _)
  | succ k ih =>
    unfold loadLines
    rw [cutLines_succ] at h
    have hrest := fgets_rest (n := CFG_MAX_LINE - 1) (p := content)
    generalize fgets (CFG_MAX_LINE - 1) content = r at hrest h
    obtain ⟨line, rest, eof⟩ := r
    dsimp only at hrest h ⊢
    by_cases hempty : line = []
    · rw [if_pos hempty] at h ⊢
      exact wp_pure.mpr h
    rw [if_neg hempty] at h ⊢
    have hlt : rest.length < k := Nat.lt_of_lt_of_le (hrest hempty) (Nat.le_of_lt_succ hk)
    by_cases hfits : chr '\n' ∉ line.takeWhile (· ≠ 0) ∧ eof = false
    · rw [if_pos hfits] at h ⊢
      rw [wp_bind, wp_traceErr]
      have hdrain : ((rest.dropWhile (· ≠ chr '\n')).drop 1).length ≤ rest.length := by
        rw [List.length_drop]
        exact Nat.le_trans (Nat.sub_le _ _) (List.length_dropWhile_le _ _)
      exact ih (Nat.lt_of_le_of_lt hdrain hlt) _ (hlong _ _ _ _ h)
    · rw [if_neg hfits] at h ⊢
      refine wp.bind (hline _ _ _ _ h) ?_
      intro r m₁ hm₁
      rw [wp_bind, wp_logFile]
      by_cases hr : r < 0
      · rw [if_pos hr, wp_bind, wp_traceErr]
        have hnext :=
          hm₁ (m₁.trace ++ [⟨"%s:%d: parse error", [filename, decimalNat (lineno + 1)]⟩]) fun h => absurd hr h
        rw [if_pos hr] at hnext
        exact ih hlt _ hnext
      · rw [if_neg hr]
        have hnext := hm₁ m₁.trace fun _ => rfl
        rw [if_neg hr] at hnext
        exact ih hlt _ hnext

/-- The loading of a file ends, with any number of levels left. -/
theorem cfgLoadDepth_spec (n : Nat) : LoadsSafely sys (cfgLoadDepth sys n) := by
  induction n with
  | zero =>
    intro path g m h
    unfold cfgLoadDepth
    rw [wp_bind, wp_traceErr]
    exact wp_pure.mpr ⟨.inr rfl, h.grown.report _⟩
  | succ n ih =>
    intro path g m h
    unfold cfgLoadDepth
    cases sys.fopen path with
    | none =>
      show wp (traceErr _ _ >>= _) _ m
      rw [wp_bind, wp_traceErr]
      exact wp_pure.mpr ⟨.inr rfl, h.grown.report _⟩
    | some content =>
      show wp (logFile _ >>= _) _ m
      rw [wp_bind, wp_logFile]
      refine wp.bind (loadLines_rule _ _ (fun _ rc m' => (rc = 0 ∨ rc = -1) ∧ Grown sys g m') ?_ ?_ _
        (Nat.lt_succ_self _) 0 ⟨.inl rfl, h.grown.log _⟩) ?_
      · exact fun _ _ m' trace hm' => ⟨.inr rfl, hm'.2.report _⟩
      · intro line _ rc m' hm'
        obtain ⟨hrc, g', hbuilt, hsafe⟩ := hm'
        refine (parseLine_spec ih hsafe line _).mono fun r m₁ hpost trace _ =>
          ⟨?_, ((hpost.grown.trans hbuilt).report trace).log _⟩
        split
        · exact .inr rfl
        · exact hrc
      intro rc m₁ hr
      obtain ⟨hrc, hgrown⟩ := hr
      rw [wp_bind, wp_logFile]
      exact wp_pure.mpr ⟨hrc, hgrown.log _⟩

/-! ## What a line that is accepted looks like -/

/-- A line without a NUL that fits is read as a whole. -/
theorem line_whole {line : List Byte} (hlen : line.length ≤ 1022) (hnul : (0 : Byte) ∉ line) :
    (line.takeWhile (· ≠ 0)).take (CFG_MAX_LINE - 1) = line := by
  have hall : line.takeWhile (· ≠ 0) = line := by
    rw [List.takeWhile_eq_self_iff]
    intro c hc
    have hne : c ≠ 0 := fun h => hnul (h ▸ hc)
    simpa using hne
  rw [hall, List.take_of_length_le (Nat.le_trans hlen (by decide))]

theorem lineText_whole {line : List Byte} (hlen : line.length ≤ 1022) (hnul : (0 : Byte) ∉ line) :
    lineText line = trim line :=
  congrArg trim (line_whole hlen hnul)

theorem kflCfgNew_safe {gc : Heap (Block F)} {mallocs : Nat} (h : kflCfgNew sys gc mallocs = some m) :
    Safe sys (fun _ => none) m ∧ m.vars.entries = [] ∧ m.heap = gc := by
  unfold kflCfgNew at h
  split at h
  · cases h
  · obtain ⟨vars, hnew, rfl⟩ := Option.map_eq_some_iff.mp h
    obtain ⟨hinv, hempty⟩ : vars.Inv sys.xxh32 ∧ vars.entries = [] := Dict.dictNewSized_inv hnew
    refine ⟨⟨fun _ _ h => (by cases h), fun _ _ h => (by cases h), hinv, fun e he => ?_⟩, hempty, rfl⟩
    rw [hempty] at he
    cases he

/-- A system without floats or files, where every allocation succeeds. -/
def plainSys : Sys Unit := ⟨fun _ => (), fun _ => [], fun _ => 0, fun _ => true, fun _ => none⟩

def plainMem : Mem Unit := ⟨[], 3, ⟨List.replicate 64 [], 64, 0⟩, [], [], []⟩

theorem plainMem_new : kflCfgNew plainSys [] 0 = some plainMem := rfl

end KanekFoundations.Cfg

/-
  KanekFoundations.Cfg.ReportProofs — where a reported error is answered with -1.

  An undefined variable is reported and read as null, and the line goes on: so does an array,
  or a concatenation, that there is no memory for. The reports that raise the flag of the
  lexer, and those of `parse_line` itself, are answered with -1.

  Proved, from every memory of a run:
  - `single_iff`: the lines that answer their reports whatever the allocator does are those
    whose value is nothing or a single operand;
  - `names_iff`: with memory for everything, those whose value is not accepted or reads
    defined variables only;
  - `load_answers`: a load of such lines, at any depth, answers -1 if anything was reported.
-/

import KanekFoundations.Cfg.Operands

namespace KanekFoundations.Cfg

open KanekFoundations.Lib

variable {F : Type} {sys : Sys F} {g g' : SubHeap (Block F)} {m m' : Mem F} {l : Lex} {line p : List Byte} {rc : Int}

/-! ## Around the value of a line -/

/-- A string, or NULL. -/
def IsText (m : Mem F) (s : Option Addr) : Prop := ∀ c, s = some c → ∃ cap text, m.heap.get c = some (.chars cap text)

/-- The answer of a line whose value left `r`: -1 after an error, and whatever else is answered
    comes with just the reports of the lexer. -/
def Answer (m : Mem F) (r : Option Addr × Lex) (rc : Int) (m' : Mem F) : Prop :=
  (r.2.error = true → rc = -1) ∧ (rc = -1 ∨ m'.trace = m.trace ++ r.2.trace)

/-- What a line does before its value, `pre`, and after it, `tail`. -/
structure Around (sys : Sys F) (pre : (Nat → Bool) → M F (Option Addr))
    (tail : (Nat → Bool) → Option Addr → Option Addr × Lex → M F Int) : Prop where
  start : ∀ allocs g m, Safe sys g m → wlp (pre allocs) (fun _ m' => Extends g m g m') m
  runs : ∀ g m, Safe sys g m → ∃ es m₀, Extends g m g m₀ ∧ IsText m₀ es ∧
    ∀ allocs, (∀ i < m₀.mallocs, allocs i = true) → pre allocs m = some (es, m₀)
  answers : ∀ allocs es r g m, Safe sys g m → (∀ e, r.1 = some e → IsVar g e) → wlp (tail allocs es r) (Answer m r) m
  zero : ∀ allocs es r g m, Safe sys g m → (∀ e, r.1 = some e → IsVar g e) → IsText m es → r.2.error = false →
    (∀ i, m.mallocs ≤ i → allocs i = true) → wp (tail allocs es r)
      (fun rc m' => rc = 0 ∧ m'.trace = m.trace ++ r.2.trace) m

theorem wlp_finish (l : Lex) (rc : Int) (m : Mem F) :
    wlp (finish l rc) (fun rc' m' => rc' = rc ∧ m'.trace = m.trace ++ l.trace) m := by
  intro rc' m' h
  cases h
  exact ⟨rfl, rfl⟩

theorem setTail_answers (key : List Byte) (r : Option Addr × Lex) (m : Mem F) :
    wlp (setTail sys key r) (Answer m r) m := by
  have hset : wlp (setVar sys key r.1) (fun _ m' => m'.trace = m.trace) m := by
    intro _ m' h
    cases h
    rfl
  refine hset.bind fun rc m₁ htrace => (wlp_finish _ _ m₁).mono fun rc' m' hpost => ?_
  obtain ⟨rfl, htrace'⟩ := hpost
  rw [htrace] at htrace'
  exact ⟨fun herr => if_pos (.inl herr), .inr htrace'⟩

theorem setTail_zero (hm : Safe sys g m) (key : List Byte) (r : Option Addr × Lex) (herr : r.2.error = false)
    (hok : sys.mallocOk m.mallocs = true) :
    wp (setTail sys key r) (fun rc m' => rc = 0 ∧ m'.trace = m.trace ++ r.2.trace) m := by
  have hset : wp (setVar sys key r.1) (fun rc m' => rc = 0 ∧ m'.trace = m.trace) m := by
    refine ⟨_, rfl, ?_, rfl⟩
    rcases (Dict.dictSet_get hm.inv key r.1 (sys.mallocOk m.mallocs) (sys.mallocOk (m.mallocs + 1))).2 with
      ⟨hrc, -⟩ | ⟨-, hfail, -⟩
    · exact hrc
    · rw [hok] at hfail
      cases hfail
  refine hset.bind fun rc m₁ hpost => wp_finish.mpr ?_
  obtain ⟨rfl, htrace⟩ := hpost
  refine ⟨if_neg fun hor => ?_, by rw [htrace]⟩
  rcases hor with h | h
  · rw [herr] at h
    cases h
  · exact absurd h (Int.lt_irrefl 0)

theorem display_around : Around sys (fun _ => pure none) fun allocs _ => displayTail (sys.withAllocs allocs) := by
  have hprint : ∀ allocs (r : Option Addr × Lex) (g : SubHeap (Block F)) (m : Mem F), Safe sys g m →
      (∀ e, r.1 = some e → IsVar g e) → wp (displayTail (sys.withAllocs allocs) r) (fun rc m' =>
        rc = (if r.2.error then -1 else 0) ∧ m'.trace = m.trace ++ r.2.trace) m := by
    intro allocs r g m hm hr
    refine (displayVar_spec (hm.withAllocs allocs) hr).bind fun _ m₁ hprints => wp_finish.mpr ⟨rfl, ?_⟩
    obtain ⟨s, rfl⟩ := hprints
    rfl
  refine ⟨fun allocs g m hm => wlp_pure hm.refl, fun g m hm =>
    ⟨none, m, hm.refl, fun c h => (by cases h), fun _ _ => rfl⟩, ?_, ?_⟩
  · intro allocs es r g m hm hr
    exact (hprint allocs r g m hm hr).liberal.mono fun rc m' hpost =>
      ⟨fun herr => hpost.1.trans (if_pos herr), .inr hpost.2⟩
  · intro allocs es r g m hm hr _ herr _
    refine (hprint allocs r g m hm hr).mono fun rc m' hpost => ⟨hpost.1.trans (if_neg ?_), hpost.2⟩
    rw [herr]
    exact Bool.false_ne_true

theorem set_around (key : List Byte) : Around sys (fun _ => pure none) fun allocs _ =>
    setTail (sys.withAllocs allocs) key := by
  refine ⟨fun allocs g m hm => wlp_pure hm.refl, fun g m hm =>
    ⟨none, m, hm.refl, fun c h => (by cases h), fun _ _ => rfl⟩,
    fun allocs es r g m _ _ => setTail_answers key r m, fun allocs es r g m hm _ _ herr hok => ?_⟩
  exact setTail_zero (hm.withAllocs allocs) key r herr (hok _ (Nat.le_refl _))

/-- The string of a value, if there is memory for it. -/
theorem varToStr_run (hm : Safe sys g m) {v : Addr} (hv : IsVar g v) :
    ∃ text, ∀ allocs : Nat → Bool, allocs m.mallocs = true → varToStr (sys.withAllocs allocs) (some v) m =
      some (some m.heap.length, m.allocd (.chars (text.length + 1) text)) := by
  obtain ⟨b, hb, hbvar⟩ := hv
  have hload : load v m = some (b, m) := load_run (hm.within v b hb)
  have hdup : ∀ (allocs : Nat → Bool) (text : List Byte), allocs m.mallocs = true →
    taStrdup (sys.withAllocs allocs) text m =
      some (some m.heap.length, m.allocd (.chars (text.length + 1) text)) := fun allocs text h =>
    taMalloc_succeeds (sys.withAllocs allocs) _ h
  have hstart : ∀ allocs : Nat → Bool, varToStr (sys.withAllocs allocs) (some v) m = (load v >>= _) m := fun _ => rfl
  refine ⟨b.text sys g, fun allocs h => ?_⟩
  rw [hstart, bind_apply, hload, Option.bind_some]
  cases b with
  | str s =>
    cases s with
    | none => exact hdup allocs _ h
    | some c =>
      obtain ⟨cap, text, hc⟩ := hm.closed v _ hb
      have hcstr : cstr c m = some (text, m) := by
        unfold cstr load
        rw [bind_apply, hm.within c _ hc]
        rfl
      have htext : (Block.str (some c)).text sys g = text := by
        unfold Block.text
        dsimp only
        rw [hc]
      rw [htext]
      dsimp only
      rw [bind_apply, hcstr]
      exact hdup allocs _ h
  | null | int | float | bool | array | dict => exact hdup allocs _ h
  | raw | chars | ptrs => cases hbvar

theorem oldText_run (hm : Safe sys g m) (key : List Byte) :
    ∃ text, ∀ allocs : Nat → Bool, allocs m.mallocs = true → oldText (sys.withAllocs allocs) key m =
      some (some m.heap.length, m.allocd (.chars (text.length + 1) text)) := by
  have hget : ∀ allocs : Nat → Bool, getVar (sys.withAllocs allocs) key m =
      some (m.vars.dictGet sys.xxh32 (some key), m) :=
    fun _ => rfl
  have hvar := fun v => hm.getVar key (v := v)
  generalize m.vars.dictGet sys.xxh32 (some key) = v at hget hvar
  cases v with
  | none =>
    refine ⟨[], fun allocs h => ?_⟩
    unfold oldText
    rw [bind_apply, hget]
    exact taMalloc_succeeds (sys.withAllocs allocs) _ h
  | some v =>
    obtain ⟨text, hrun⟩ := varToStr_run hm (hvar v rfl)
    refine ⟨text, fun allocs h => ?_⟩
    unfold oldText
    rw [bind_apply, hget]
    exact hrun allocs h

theorem oldText_start (hm : Safe sys g m) (key : List Byte) :
    wlp (oldText sys key) (fun _ m' => Extends g m g m') m := by
  have hvar := fun v => hm.getVar key (v := v)
  have hget : wlp (getVar sys key) (fun v m' => m' = m ∧ v = m.vars.dictGet sys.xxh32 (some key)) m := by
    intro v m' h
    cases h
    exact ⟨rfl, rfl⟩
  refine hget.bind fun v m' hpost => ?_
  obtain ⟨rfl, hv⟩ := hpost
  rw [← hv] at hvar
  cases v with
  | none => exact (taStrdup_spec hm.within hm.closed []).liberal.mono fun _ _ hbuf => hbuf.1
  | some v => exact (varToStr_spec hm.within hm.closed hvar).liberal.mono fun _ _ hbuf => hbuf.1

theorem appendTail_answers (key : List Byte) (es : Option Addr) (r : Option Addr × Lex) (m : Mem F) :
    wlp (appendTail sys key es r) (Answer m r) m := by
  refine appendTail_cases key es r m (fun _ _ _ => ⟨fun _ => rfl, .inl rfl⟩) fun val m₁ hkept => ?_
  refine (setTail_answers key (val, r.2) m₁).mono fun rc m' hpost => ?_
  unfold Answer at hpost
  rw [hkept.trace] at hpost
  exact hpost

/-- With memory for whatever comes next, `+=` sets its variable. -/
theorem appendTail_zero (hm : Safe sys g m) (key : List Byte) {es : Option Addr} (hes : IsText m es)
    (r : Option Addr × Lex)
    (hr : ∀ e, r.1 = some e → IsVar g e) (herr : r.2.error = false) (hok : ∀ i, m.mallocs ≤ i → sys.mallocOk i = true) :
    wp (appendTail sys key es r) (fun rc m' => rc = 0 ∧ m'.trace = m.trace ++ r.2.trace) m := by
  unfold appendTail
  refine ((varToStr_spec hm.within hm.closed hr).and (varToStr_keeps _ m)).bind fun rs m₁ hpost => ?_
  obtain ⟨⟨hext₁, -, hrs⟩, hkept₁⟩ := hpost
  obtain ⟨text, hes₁⟩ : ∃ text, ∀ c, es = some c → ∃ cap, m₁.heap.get c = some (.chars cap text) := by
    cases es with
    | none => exact ⟨[], fun c h => by cases h⟩
    | some c =>
      obtain ⟨cap, text, hget⟩ := hes c rfl
      refine ⟨text, fun c' h => ?_⟩
      cases h
      exact ⟨cap, (hext₁.grows.heap c (Heap.get_lt hget)).trans hget⟩
  refine wp_bind.mpr ((wp_textOf hes₁).mpr (wp_bind.mpr ((wp_textOf fun c hc => (hrs c hc).2).mpr ?_)))
  generalize (es.elim [] fun _ => text) = etext
  generalize (rs.elim [] fun _ => valText sys g r.1) = rtext
  dsimp only
  generalize hsize : etext.length + rtext.length + 1 = size
  have hext₂ := hext₁.allocd (Block.raw (F := F) size)
  have hraw : (m₁.allocd (.raw size)).heap.get m₁.heap.length = some (.raw size) := m₁.get_allocd_self _
  have hmalloc :
      wp (taMalloc sys (.raw size)) (fun buf m' => buf = some m₁.heap.length ∧ m' = m₁.allocd (.raw size)) m₁ :=
    ⟨_, taMalloc_succeeds _ _ (hok _ hkept₁.mallocs), rfl, rfl⟩
  refine hmalloc.bind fun buf m₂ hpost => ?_
  obtain ⟨rfl, rfl⟩ := hpost
  have hroom : (etext ++ rtext).length + 1 ≤ size := by
    rw [List.length_append]
    omega
  have hput := hext₂.put hext₁.size hext₁.fresh (some (.chars size (etext ++ rtext)))
  refine wp_bind.mpr ((wp_memcpy_raw hraw hroom).mpr ?_)
  refine wp_bind.mpr ((wp_cstr (Mem.get_put_self _ hraw)).mpr ?_)
  have hkept₂ : m.Kept ((m₁.allocd (.raw size)).put m₁.heap.length (some (.chars size (etext ++ rtext)))) :=
    ⟨hkept₁.vars, hkept₁.trace, Nat.le_succ_of_le hkept₁.mallocs⟩
  refine ((varStr_spec (hm.extend hput) (etext ++ rtext)).and (varStr_keeps _ _)).bind fun val m₃ hpost => ?_
  obtain ⟨⟨g₃, hext₃, -⟩, hkept₃⟩ := hpost
  have hkept := hkept₂.trans hkept₃
  have hset := setTail_zero ((hm.extend hput).extend hext₃) key (val, r.2) herr (hok _ hkept.mallocs)
  rw [hkept.trace] at hset
  exact hset

theorem append_around (key : List Byte) :
    Around sys (fun allocs => oldText (sys.withAllocs allocs) key) fun allocs => appendTail
      (sys.withAllocs allocs) key := by
  refine ⟨fun allocs g m hm => oldText_start (hm.withAllocs allocs) key, fun g m hm => ?_,
    fun allocs es r g m _ _ => appendTail_answers key es r m, fun allocs es r g m hm hr hes herr hok => ?_⟩
  · obtain ⟨text, hrun⟩ := oldText_run hm key
    refine ⟨some m.heap.length, m.allocd (.chars (text.length + 1) text), hm.refl.allocd _, fun c hc => ?_,
      fun allocs hok => ?_⟩
    · cases hc
      exact ⟨_, _, Heap.get_alloc_self _ _⟩
    · exact hrun allocs (hok m.mallocs (Nat.lt_succ_self _))
  · exact appendTail_zero (hm.withAllocs allocs) key hes r hr herr hok

/-! ## Lines -/

/-- The line has a value, from `p` on. -/
inductive ValueAt (sys : Sys F) (line : List Byte) : List Byte → Prop
  | display {p : List Byte} : Reads sys line (.ident displayText) p → ValueAt sys line p
  | assign {k q p : List Byte} {t : Tok F} :
    Reads sys line (.ident k) q → k ≠ includeText → k ≠ displayText → Reads sys q t p →
      t.type = .eq ∨ t.type = .pluseq →
      ValueAt sys line p

/-- A line with a value starts with an identifier; the value is behind `display`, or behind an
    operator. -/
theorem ValueAt.first (h : ValueAt sys line p) {t : Tok F} {q : List Byte} {errs : List Report}
    (hscan : scanTok sys line = ⟨t, q, errs⟩) :
    (t = .ident displayText ∧ p = q) ∨ ∃ k t' errs', t = .ident k ∧ k ≠ includeText ∧ k ≠ displayText ∧
      scanTok sys q = ⟨t', p, errs'⟩ ∧ (t'.type = .eq ∨ t'.type = .pluseq) := by
  cases h with
  | display hr =>
    obtain ⟨rfl, rfl, -⟩ := reads_scan hscan hr
    exact .inl ⟨rfl, rfl⟩
  | assign hr hincl hdisp hop ht =>
    obtain ⟨rfl, rfl, -⟩ := reads_scan hscan hr
    exact .inr ⟨_, _, _, rfl, hincl, hdisp, hop, ht⟩

theorem ValueAt.unique {p' : List Byte} (h : ValueAt sys line p) (h' : ValueAt sys line p') : p' = p := by
  cases h with
  | display hr =>
    rcases h'.first hr with ⟨-, rfl⟩ | ⟨k, _, _, hk, -, hdisp, -⟩
    · rfl
    · exact absurd (Tok.ident.inj hk).symm hdisp
  | assign hr _ hdisp hop _ =>
    rcases h'.first hr with ⟨hk, -⟩ | ⟨k, _, _, -, -, -, hop', -⟩
    · exact absurd (Tok.ident.inj hk) hdisp
    · exact congrArg Scan.rest (hop'.symm.trans hop)

theorem ValueAt.form (h : ValueAt sys line p) : LineForm sys line := by
  cases h with
  | display hr => exact .display hr
  | @assign k q _ t hr hincl hdisp hop ht =>
    cases t with
    | eq => exact .assign hr hincl hdisp hop
    | pluseq => exact .append hr hincl hdisp hop
    | _ => rcases ht with h | h <;> cases h

theorem LineForm.of_allocs {allocs : Nat → Bool} (h : LineForm (sys.withAllocs allocs) line) : LineForm sys line := by
  cases h with
  | blank hr hend => exact .blank hr hend
  | incl hr => exact .incl hr
  | display hr => exact .display hr
  | assign hr hincl hdisp hop => exact .assign hr hincl hdisp hop
  | append hr hincl hdisp hop => exact .append hr hincl hdisp hop

/-- A line that is no include: it is done at once, with a report only if the answer is -1, or it
    has a value. -/
theorem parseLine_plain (rawLine dir : List Byte) (hplain : ∀ path, ¬ Includes sys dir (lineText rawLine) path) :
    ((∀ p, ¬ ValueAt sys (lineText rawLine) p) ∧ ∀ allocs load, ∃ l rc, (rc = -1 ∨ l.trace = []) ∧
        parseLine (sys.withAllocs allocs) load rawLine dir = finish l rc) ∨
      ∃ p pre tail, ValueAt sys (lineText rawLine) p ∧ Around sys pre tail ∧
        ∀ allocs load, parseLine (sys.withAllocs allocs) load rawLine dir =
          pre allocs >>= fun es => evalRhs (sys.withAllocs allocs) ⟨p, false, []⟩ >>= tail allocs es := by
  by_cases hform : LineForm sys (lineText rawLine)
  swap
  · refine .inl ⟨fun p hvalue => hform hvalue.form, fun allocs load => ?_⟩
    obtain ⟨l, hrun⟩ : ∃ l, parseLine (sys.withAllocs allocs) load rawLine dir = finish l (-1) :=
      parseLine_unformed load dir fun h => hform h.of_allocs
    exact ⟨l, -1, .inl rfl, hrun⟩
  cases hform with
  | blank hfirst hend =>
    refine .inl ⟨fun p hvalue => ?_, fun allocs load => ⟨_, 0, .inr rfl, parseLine_blank load dir hfirst hend⟩⟩
    rcases hvalue.first hfirst with ⟨rfl, -⟩ | ⟨k, _, _, rfl, -⟩ <;> rcases hend with h | h <;> cases h
  | @incl q hfirst =>
    have hname : includeName q = [] := by
      by_contra hname
      exact hplain _ ⟨q, hfirst, hname, rfl⟩
    have hfirst' : ∀ allocs, Reads (sys.withAllocs allocs) (lineText rawLine) (.ident includeText) q := fun _ => hfirst
    refine .inl ⟨fun p hvalue => ?_, fun allocs load =>
      ⟨_, -1, .inl rfl, (parseLine_incl load dir (hfirst' allocs)).trans (if_pos hname)⟩⟩
    rcases hvalue.first hfirst with ⟨ht, -⟩ | ⟨k', _, _, ht, hincl', -⟩
    · exact absurd (Tok.ident.inj ht) (by decide)
    · exact hincl' (Tok.ident.inj ht).symm
  | @display q hfirst =>
    exact .inr ⟨q, _, _, .display hfirst, display_around, fun allocs load => parseLine_display load dir hfirst⟩
  | @assign k q q' hfirst hincl hdisp hop =>
    exact .inr ⟨q', _, _, .assign hfirst hincl hdisp hop (.inl rfl), set_around (k.take (CFG_MAX_TOK - 1)),
      fun allocs load => parseLine_assign load dir hfirst hincl hdisp hop⟩
  | @append k q q' hfirst hincl hdisp hop =>
    exact .inr ⟨q', _, _, .assign hfirst hincl hdisp hop (.inr rfl), append_around (k.take (CFG_MAX_TOK - 1)),
      fun allocs load => parseLine_append load dir hfirst hincl hdisp hop⟩

/-- The line ends, and with -1 if anything was reported. -/
def Answers (sys : Sys F) (depth : Nat) (line dir : List Byte) (m : Mem F) : Prop :=
  ∃ rc m', parseLine sys (cfgLoadDepth sys depth) line dir m = some (rc, m') ∧ (m'.trace ≠ m.trace → rc = -1)

theorem Around.answers_line {pre : (Nat → Bool) → M F (Option Addr)}
    {tail : (Nat → Bool) → Option Addr → Option Addr × Lex → M F Int} (h : Around sys pre tail) (hm : Safe sys g m)
    (allocs : Nat → Bool) (hrhs : ∀ m₀, Extends g m g m₀ →
      wlp (evalRhs (sys.withAllocs allocs) ⟨p, false, []⟩) (fun r _ => r.2.error = true ∨ r.2.trace = []) m₀) :
    wlp (pre allocs >>= fun es => evalRhs (sys.withAllocs allocs) ⟨p, false, []⟩ >>= tail allocs es)
      (fun rc m' => m'.trace ≠ m.trace → rc = -1) m := by
  refine (h.start allocs g m hm).bind fun es m₁ hext => ?_
  have hsafe := hm.extend hext
  refine ((evalRhs_spec (hsafe.withAllocs allocs)).and (hrhs m₁ hext)).liberal.bind fun r m₂ hpost => ?_
  obtain ⟨⟨-, g₂, hext₂, hval⟩, hor⟩ := hpost
  refine (h.answers allocs es r g₂ m₂ (hsafe.extend hext₂) hval.1).mono fun rc m' hans htrace => ?_
  rcases hor with herr | hnone
  · exact hans.1 herr
  · refine hans.2.resolve_right fun hsame => htrace ?_
    rw [hsame, hnone, List.append_nil, hext₂.trace, hext.trace]

/-- A line answers its reports if its value does. -/
theorem line_answers (hm : Safe sys g m) (depth : Nat) {line dir : List Byte}
    (hplain : ∀ path, ¬ Includes sys dir (lineText line) path) (allocs : Nat → Bool)
    (hrhs : ∀ p, ValueAt sys (lineText line) p → ∀ m₀, Extends g m g m₀ →
      wlp (evalRhs (sys.withAllocs allocs) ⟨p, false, []⟩) (fun r _ => r.2.error = true ∨ r.2.trace = []) m₀) :
    Answers (sys.withAllocs allocs) depth line dir m := by
  have hans : wlp (parseLine (sys.withAllocs allocs) (cfgLoadDepth (sys.withAllocs allocs) depth) line dir)
      (fun rc m' => m'.trace ≠ m.trace → rc = -1) m := by
    rcases parseLine_plain line dir hplain with ⟨-, hrun⟩ | ⟨p, pre, tail, hvalue, haround, hrun⟩
    · obtain ⟨l, rc, hor, hrun⟩ := hrun allocs (cfgLoadDepth (sys.withAllocs allocs) depth)
      rw [hrun]
      refine (wlp_finish l rc m).mono fun rc' m' hpost htrace => ?_
      obtain ⟨rfl, hsame⟩ := hpost
      refine hor.resolve_right fun hnone => htrace ?_
      rw [hsame, hnone, List.append_nil]
    · rw [hrun]
      exact haround.answers_line hm allocs (hrhs p hvalue)
  obtain ⟨⟨rc, m'⟩, hrun, -, htrace⟩ :=
    (parseLine_spec (cfgLoadDepth_spec depth) (hm.withAllocs allocs) line dir).and hans
  exact ⟨rc, m', hrun, htrace⟩

/-- A report that the value of a line lets through is answered with 0. -/
theorem line_zero (hm : Safe sys g m) (depth : Nat) {line dir : List Byte}
    (hplain : ∀ path, ¬ Includes sys dir (lineText line) path) (hvalue : ValueAt sys (lineText line) p)
    {P : (Nat → Bool) → Prop} (hrhs : ∀ m₀, Extends g m g m₀ →
      ∃ allocs, P allocs ∧ (∀ i < m₀.mallocs, allocs i = true) ∧ Unflagged sys g p m₀ allocs) :
    ∃ allocs, P allocs ∧ ¬ Answers (sys.withAllocs allocs) depth line dir m := by
  rcases parseLine_plain line dir hplain with ⟨hno, -⟩ | ⟨p', pre, tail, hvalue', haround, hrun⟩
  · exact absurd hvalue (hno p)
  obtain rfl := hvalue.unique hvalue'
  obtain ⟨es, m₀, hext, hes, hpre⟩ := haround.runs g m hm
  obtain ⟨allocs, hP, hstart, v, l', m₁, g₁, hrhs, herr, htrace, hok, hext₁, hv⟩ := hrhs m₀ hext
  have hes₁ : IsText m₁ es := by
    intro c hc
    obtain ⟨cap, text, hget⟩ := hes c hc
    exact ⟨cap, text, (hext₁.grows.heap c (Heap.get_lt hget)).trans hget⟩
  obtain ⟨⟨rc, m₂⟩, htail, hrc, htrace₂⟩ :=
    haround.zero allocs es (v, l') g₁ m₁ ((hm.extend hext).extend hext₁) hv hes₁ herr hok
  refine ⟨allocs, hP, fun hans => ?_⟩
  obtain ⟨rc', m', hline, hans⟩ := hans
  have hzero : parseLine (sys.withAllocs allocs) (cfgLoadDepth (sys.withAllocs allocs) depth) line dir m =
      some (rc, m₂) := by
    rw [hrun, bind_apply, hpre allocs hstart, Option.bind_some, bind_apply, hrhs]
    exact htail
  cases hline.symm.trans hzero
  have hgrown : m₂.trace ≠ m.trace := by
    rw [htrace₂, hext₁.trace, hext.trace]
    exact fun hsame => htrace (List.append_right_eq_self.mp hsame)
  have hcode := (hans hgrown).symm.trans hrc
  exact absurd hcode (by decide)

/-! ## The lines that answer their reports -/

/-- Every value of the line is a single operand. -/
def SingleValue (sys : Sys F) (m : Mem F) (line : List Byte) : Prop := ∀ p, ValueAt sys line p → SingleOperand sys m p

/-- The value of the line is not accepted, or the variables it reads are defined. -/
def NamesDefined (sys : Sys F) (m : Mem F) (line : List Byte) : Prop :=
  ∀ p q toks, ValueAt sys line p → AcceptsRhs sys False p q → Tokens sys p toks q → Knows (Defined sys m) toks

theorem Extends.defined (h : Extends g m g' m') : Defined sys m' = Defined sys m := by
  unfold Defined
  rw [h.vars]

theorem Extends.single (h : Extends g m g' m') : SingleOperand sys m' p = SingleOperand sys m p := by
  unfold SingleOperand
  rw [h.defined]

/-- Whatever the allocator does, a line answers its reports: this is so exactly of the lines with
    nothing or a single operand for a value. -/
theorem single_iff (hm : Safe sys g m) (depth : Nat) {line dir : List Byte}
    (hplain : ∀ path, ¬ Includes sys dir (lineText line) path) :
    (∀ allocs, Answers (sys.withAllocs allocs) depth line dir m) ↔ SingleValue sys m (lineText line) := by
  constructor
  · intro hall p hvalue
    by_contra hno
    obtain ⟨allocs, -, hans⟩ := line_zero (P := fun _ => True) hm depth hplain hvalue fun m₀ hext => by
      obtain ⟨allocs, hstart, hrhs⟩ := rhs_cut (hm.extend hext) (hext.single.symm ▸ hno)
      exact ⟨allocs, trivial, hstart, hrhs⟩
    exact hans (hall allocs)
  · intro hsingle allocs
    refine line_answers hm depth hplain allocs fun p hvalue m₀ hext =>
      rhs_single ((hm.extend hext).withAllocs allocs) ?_
    have hone := hsingle p hvalue
    rw [← hext.single] at hone
    exact hone

/-- With memory for everything: this is so exactly of the lines whose value is not accepted, or
    reads defined variables only. -/
theorem names_iff (hyes : sys.NoFail) (hm : Safe sys g m) (depth : Nat) {line dir : List Byte}
    (hplain : ∀ path, ¬ Includes sys dir (lineText line) path) :
    Answers sys depth line dir m ↔ NamesDefined sys m (lineText line) := by
  have hfails : (¬ sys.NoFail) = False := by simp [hyes]
  constructor
  · intro hans p q toks hvalue haccepts htoks
    by_contra hno
    obtain ⟨allocs, rfl, hzero⟩ := line_zero (P := (· = sys.mallocOk)) hm depth hplain hvalue fun m₀ hext => by
      obtain ⟨⟨⟨v, l'⟩, m'⟩, hrun, ⟨hstep, g', hext', hval⟩, -, hrep⟩ :=
        (evalRhs_spec (l := ⟨p, false, []⟩) (hm.extend hext)).and (evalRhs_reports ⟨p, false, []⟩ m₀)
      dsimp only at hstep hrep hval
      obtain ⟨herr, rfl⟩ := hstep.complete hyes rfl q haccepts
      obtain ⟨-, toks', new, htoks', hnew, hknown⟩ := hrep herr
      refine ⟨sys.mallocOk, rfl, fun i _ => hyes i, v, l', m', g', hrun, herr, fun hnone => hno ?_, fun i _ => hyes i,
        hext', hval.1⟩
      have hnil : new = [] := by
        rw [hnone] at hnew
        exact hnew.symm
      have hknows := (hknown hyes).mp hnil
      rw [hext.defined, List.nil_append] at hknows
      exact fun s hs => hknows s (htoks.ident_mem htoks' hs)
    exact hzero hans
  · intro hnames
    refine line_answers hm depth hplain sys.mallocOk fun p hvalue m₀ hext => ?_
    refine ((evalRhs_spec (hm.extend hext)).and (evalRhs_reports ⟨p, false, []⟩ m₀)).liberal.mono fun r m' hpost => ?_
    obtain ⟨⟨hstep, -⟩, -, hrep⟩ := hpost
    cases herr : r.2.error with
    | true => exact .inl rfl
    | false =>
      obtain ⟨-, toks, new, htoks, hnew, hknown⟩ := hrep herr
      have haccepts := (hstep.sound herr).2
      rw [hfails] at haccepts
      have hnil : new = [] := by
        rw [hknown hyes, hext.defined]
        exact hnames p r.2.p toks hvalue haccepts htoks
      rw [hnil] at hnew
      exact .inr hnew

/-! ## Loads -/

/-- `P` is so of each line that is no include, among `lines` and in the files that they include,
    in the memory in which `parse_line` is given it. The reports and the log do not matter. -/
def EachLine (sys : Sys F) (load : List Byte → M F Int) (inside P : List Byte → Mem F → Prop) (dir : List Byte) :
    List (Option (List Byte)) → Mem F → Prop
  | [], _ => True
  | none :: lines, m => ∀ trace, EachLine sys load inside P dir lines { m with trace := trace }
  | some line :: lines, m =>
    ((∀ path, ¬ Includes sys dir (lineText line) path) → P line m) ∧
      (∀ path, Includes sys dir (lineText line) path → inside path m) ∧
      ∀ rc m', parseLine sys load line dir m = some (rc, m') → ∀ trace files,
        EachLine sys load inside P dir lines { m' with trace := trace, files := files }

/-- The same of the loading of a file with `n` levels left. -/
def EachLoaded (sys : Sys F) (P : List Byte → Mem F → Prop) : Nat → List Byte → Mem F → Prop
  | 0, _, _ => True
  | n + 1, path, m =>
    match sys.fopen path with
    | none => True
    | some content => EachLine sys (cfgLoadDepth sys n) (EachLoaded sys P n) P (dirOf path) (fileLines content)
        { m with files := m.files ++ [.opened path] }

/-- What is known between two lines: without a report so far the answer is still 0. -/
structure LinesAnswered (sys : Sys F) (g : SubHeap (Block F)) (before : List Report)
    (left : List (Option (List Byte)) → Mem F → Prop) (lines : List (Option (List Byte))) (rc : Int)
    (m : Mem F) : Prop where
  code : rc = 0 ∨ rc = -1
  grown : Grown sys g m
  silent : rc = 0 → m.trace = before
  left : left lines m

/-- The loading of a file answers its reports if its lines do. -/
theorem load_answers {P : List Byte → Mem F → Prop} (hP : ∀ n line dir g m, Safe sys g m →
    (∀ path, ¬ Includes sys dir (lineText line) path) → P line m → Answers sys n line dir m)
    (n : Nat) (path : List Byte)
    (hm : Safe sys g m) (heach : EachLoaded sys P n path m) :
    wp (cfgLoadDepth sys n path) (fun rc m' => m'.trace ≠ m.trace → rc = -1) m := by
  induction n generalizing path g m with
  | zero =>
    unfold cfgLoadDepth
    rw [wp_bind, wp_traceErr]
    exact wp_pure.mpr fun _ => rfl
  | succ n ih =>
    unfold cfgLoadDepth
    unfold EachLoaded at heach
    cases hopen : sys.fopen path with
    | none =>
      show wp (traceErr _ _ >>= _) _ m
      rw [wp_bind, wp_traceErr]
      exact wp_pure.mpr fun _ => rfl
    | some content =>
      rw [hopen] at heach
      show wp (logFile _ >>= _) _ m
      rw [wp_bind, wp_logFile]
      refine wp.bind (loadLines_rule _ _ (LinesAnswered sys g m.trace
        (EachLine sys (cfgLoadDepth sys n) (EachLoaded sys P n) P (dirOf path))) ?_ ?_ _ (Nat.lt_succ_self _) 0
        ⟨.inl rfl, hm.grown.log _, fun _ => rfl, heach⟩) ?_
      · intro lines rc m' trace h
        exact ⟨.inr rfl, h.grown.report trace, fun h0 => (by cases h0), h.left trace⟩
      · intro line lines rc m' h
        obtain ⟨g', hbuilt, hsafe⟩ := h.grown
        obtain ⟨hplain, hincl, hnext⟩ := h.left
        -- The line answers its reports, also when it is an include.
        have hans : Answers sys n line (dirOf path) m' := by
          by_cases hor : ∃ path', Includes sys (dirOf path) (lineText line) path'
          · obtain ⟨path', hpath⟩ := hor
            obtain ⟨⟨rc', m''⟩, hrun, htrace⟩ := ih path' hsafe (hincl path' hpath)
            exact ⟨rc', m'', (parseLine_include hsafe n hpath).trans hrun, htrace⟩
          · exact hP n line _ g' m' hsafe (fun path' hpath => hor ⟨path', hpath⟩)
              (hplain fun path' hpath => hor ⟨path', hpath⟩)
        obtain ⟨r, m₁, hrun, htrace⟩ := hans
        obtain ⟨⟨r', m₂⟩, hrun', hpost⟩ := parseLine_spec (cfgLoadDepth_spec n) hsafe line (dirOf path)
        cases hrun.symm.trans hrun'
        refine ⟨(r, m₁), hrun, fun trace hsame => ⟨?_, ((hpost.grown.trans hbuilt).report trace).log _, fun h0 => ?_,
          hnext r m₁ hrun trace _⟩⟩
        · split
          · exact .inr rfl
          · exact h.code
        · by_cases hr : r < 0
          · rw [if_pos hr] at h0
            cases h0
          · rw [if_neg hr] at h0
            have hquiet : m₁.trace = m'.trace := by
              by_contra hne
              exact hr (htrace hne ▸ by decide)
            exact (hsame hr).trans (hquiet.trans (h.silent h0))
      · intro rc m₁ hdone
        rw [wp_bind, wp_logFile]
        exact wp_pure.mpr fun htrace => hdone.code.resolve_left fun h0 => htrace (hdone.silent h0)

/-- A reported error is answered with -1, whatever the allocator does, exactly by the lines whose
    value is nothing or a single operand; with memory for everything, exactly by those whose value
    is not accepted or reads defined variables only. A load whose lines are such answers -1 if
    anything was reported. -/
theorem reports_answered_iff (hm : Safe sys g m) :
    (∀ depth line dir, (∀ path, ¬ Includes sys dir (lineText line) path) →
      ((∀ allocs, Answers (sys.withAllocs allocs) depth line dir m) ↔ SingleValue sys m (lineText line)) ∧
      (sys.NoFail → (Answers sys depth line dir m ↔ NamesDefined sys m (lineText line)))) ∧
    ∀ path, EachLoaded sys (fun line m => SingleValue sys m (lineText line) ∨ sys.NoFail ∧
      NamesDefined sys m (lineText line))
        (CFG_MAX_DEPTH + 1) path m →
      ∃ rc m', kflCfgLoad sys path m = some (rc, m') ∧ (m'.trace ≠ m.trace → rc = -1) := by
  refine ⟨fun depth line dir hplain => ⟨single_iff hm depth hplain, fun hyes => names_iff hyes hm depth hplain⟩,
    fun path heach => ?_⟩
  have hline : ∀ n line dir (g : SubHeap (Block F)) (m : Mem F), Safe sys g m →
    (∀ path, ¬ Includes sys dir (lineText line) path) →
      (SingleValue sys m (lineText line) ∨ sys.NoFail ∧ NamesDefined sys m (lineText line)) →
          Answers sys n line dir m := by
    intro n line dir g m hm hplain hor
    rcases hor with hsingle | ⟨hyes, hnames⟩
    · exact (single_iff hm n hplain).mpr hsingle sys.mallocOk
    · exact (names_iff hyes hm n hplain).mpr hnames
  obtain ⟨⟨rc, m'⟩, hrun, htrace⟩ := load_answers hline (CFG_MAX_DEPTH + 1) path hm heach
  exact ⟨rc, m', hrun, htrace⟩

/-- `A = 1` on a fresh context, with any outcome of the allocations. -/
theorem reports_answered_iff_literal :
    SingleValue plainSys plainMem (lineText (ascii ['A', ' ', '=', ' ', '1'])) ∧
      ∀ allocs, Answers (plainSys.withAllocs allocs) 16 (ascii ['A', ' ', '=', ' ', '1']) [] plainMem := by
  have hfirst : scanTok plainSys (lineText (ascii ['A', ' ', '=', ' ', '1'])) =
      ⟨.ident (ascii ['A']), ascii [' ', '=', ' ', '1'], []⟩ := by decide +kernel
  have hop : scanTok plainSys (ascii [' ', '=', ' ', '1']) = ⟨.eq, ascii [' ', '1'], []⟩ := by decide +kernel
  have hlead : nextTok plainSys ⟨ascii [' ', '1'], false, []⟩ = (.int 1, ⟨[], false, []⟩) := by decide +kernel
  have hplain : ∀ path, ¬ Includes plainSys [] (lineText (ascii ['A', ' ', '=', ' ', '1'])) path := by
    rintro path ⟨q, hr, -⟩
    exact absurd (Tok.ident.inj (reads_scan hfirst hr).1) (by decide)
  have hsingle : SingleValue plainSys plainMem (lineText (ascii ['A', ' ', '=', ' ', '1'])) := by
    intro p hvalue
    rcases hvalue.first hfirst with ⟨ht, -⟩ | ⟨k, t, errs, -, -, -, hscan, -⟩
    · exact absurd (Tok.ident.inj ht) (by decide)
    · obtain rfl : p = ascii [' ', '1'] := congrArg Scan.rest (hscan.symm.trans hop)
      unfold SingleOperand
      rw [hlead]
      exact .inr (.inr ⟨by simp [Tok.type], by decide +kernel, knows_other fun s h => by cases h⟩)
  exact ⟨hsingle, (((reports_answered_iff (kflCfgNew_safe plainMem_new).1).1 16 _ [] hplain).1).mpr hsingle⟩

/-- Every path leads to a file with the line `A = B`. -/
def undefinedSys : Sys Unit := { plainSys with fopen := fun _ => some (ascii ['A', ' ', '=', ' ', 'B', '\n']) }

/-- The undefined variable is reported, and the line and the file are answered with 0. -/
theorem undefined_answered_zero :
    ¬ Answers plainSys 16 (ascii ['A', ' ', '=', ' ', 'B']) [] plainMem ∧
      (kflCfgLoad undefinedSys (ascii ['f']) plainMem).map (fun r => (r.1, r.2.trace)) =
        some (0, [⟨"undefined variable '%s'", [ascii ['B']]⟩]) := by
  have hline : (parseLine plainSys (cfgLoadDepth plainSys 16) (ascii ['A', ' ', '=', ' ', 'B']) [] plainMem).map
      (fun r => (r.1, r.2.trace)) = some (0, [⟨"undefined variable '%s'", [ascii ['B']]⟩]) := by decide +kernel
  refine ⟨fun hans => ?_, by decide +kernel⟩
  obtain ⟨rc, m', hrun, htrace⟩ := hans
  rw [hrun] at hline
  obtain ⟨rfl, hreport⟩ := Prod.mk.inj (Option.some.inj hline)
  exact absurd (htrace (by rw [hreport]; exact List.cons_ne_nil _ _)) (by decide)

end KanekFoundations.Cfg

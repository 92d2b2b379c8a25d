/-
  KanekFoundations.Cfg.FileProofs — what `kfl_cfg_load` does with files.

  `FileRun sys n path events rc`: with `n` levels left, the loading of `path` may open, parse
  and close as in `events`, and answer `rc`. The answers to the lines that are no includes are
  left open; everything else is fixed by the files.

  Proved, for any files, whatever includes what, and any outcome of the allocations:
  - `kfl_cfg_load_files`: the loading ends, by a run with 17 levels; at most 17 files are open
    at any time, and none when it is done;
  - an include on the last level answers -1 and touches no file.
-/

import KanekFoundations.Cfg.LineProofs

namespace KanekFoundations.Cfg

open KanekFoundations.Lib

variable {F : Type} {sys : Sys F} {g : SubHeap (Block F)} {m m' : Mem F} {rc : Int}

/-! ## Runs -/

/-- The lines of one file, each after the other; `run` are the runs of the files they include.
    The answer is -1 when a line does not fit or is answered with -1. -/
inductive LinesRun (sys : Sys F) (run : List Byte → List FileEvent → Int → Prop) (dir : List Byte) :
    List (Option (List Byte)) → List FileEvent → Int → Prop
  | nil : LinesRun sys run dir [] [] 0
  | tooLong {lines : List (Option (List Byte))} {events : List FileEvent} {rc : Int} :
    LinesRun sys run dir lines events rc → LinesRun sys run dir (none :: lines) events (-1)
  | plain {line : List Byte} {lines : List (Option (List Byte))} {events : List FileEvent} {r rc : Int} :
    (∀ path, ¬ Includes sys dir (lineText line) path) → (r = 0 ∨ r = -1) → LinesRun sys run dir lines events rc →
      LinesRun sys run dir (some line :: lines) (.line line r :: events) (min r rc)
  | incl {line path : List Byte} {lines : List (Option (List Byte))} {inner events : List FileEvent} {r rc : Int} :
    Includes sys dir (lineText line) path → run path inner r → LinesRun sys run dir lines events rc →
      LinesRun sys run dir (some line :: lines) (inner ++ .line line r :: events) (min r rc)

def dirOf (path : List Byte) : List Byte := (dirname (path.take (CFG_MAX_LINE - 1))).take (CFG_MAX_LINE - 1)

def FileRun (sys : Sys F) : Nat → List Byte → List FileEvent → Int → Prop
  | 0, _, events, rc => events = [] ∧ rc = -1
  | n + 1, path, events, rc =>
    match sys.fopen path with
    | none => events = [] ∧ rc = -1
    | some content => ∃ inner, LinesRun sys (FileRun sys n) (dirOf path) (fileLines content) inner rc ∧
        events = .opened path :: inner ++ [.closed path]

theorem LinesRun.code {run : List Byte → List FileEvent → Int → Prop} {dir : List Byte}
    {lines : List (Option (List Byte))}
    {events : List FileEvent} (hrun : ∀ path events r, run path events r → r = 0 ∨ r = -1)
    (h : LinesRun sys run dir lines events rc) : rc = 0 ∨ rc = -1 := by
  induction h with
  | nil => exact .inl rfl
  | tooLong => exact .inr rfl
  | plain _ hr _ ih => omega
  | incl _ hinner _ ih =>
    have hr := hrun _ _ _ hinner
    omega

theorem FileRun.code {n : Nat} {path : List Byte} {events : List FileEvent} (h : FileRun sys n path events rc) :
    rc = 0 ∨ rc = -1 := by
  induction n generalizing path events rc with
  | zero => exact .inr h.2
  | succ n ih =>
    unfold FileRun at h
    split at h
    · exact .inr h.2
    · obtain ⟨inner, hlines, -⟩ := h
      exact hlines.code fun _ _ _ => ih

/-! ## Open files -/

def FileEvent.opens : FileEvent → Int
  | .opened _ => 1
  | .line _ _ => 0
  | .closed _ => -1

/-- The files that are open after `events`. -/
def openFiles (events : List FileEvent) : Int := (events.map FileEvent.opens).sum

/-- As many files are closed as are opened, with at most `n` open at any time. -/
structure Within (n : Nat) (events : List FileEvent) : Prop where
  closed : openFiles events = 0
  most : ∀ pre, pre <+: events → openFiles pre ≤ n

@[simp] theorem openFiles_nil : openFiles [] = 0 := rfl

@[simp] theorem openFiles_append (a b : List FileEvent) : openFiles (a ++ b) = openFiles a + openFiles b := by
  unfold openFiles
  rw [List.map_append, List.sum_append]

@[simp] theorem openFiles_cons (e : FileEvent) (events : List FileEvent) :
    openFiles (e :: events) = e.opens + openFiles events := by
  unfold openFiles
  rw [List.map_cons, List.sum_cons]

theorem Within.nil (n : Nat) : Within n [] := by
  refine ⟨rfl, fun pre hpre => ?_⟩
  rw [List.prefix_nil.mp hpre]
  exact Int.natCast_nonneg n

theorem Within.append {n : Nat} {a b : List FileEvent} (ha : Within n a) (hb : Within n b) : Within n (a ++ b) := by
  refine ⟨by simp [ha.closed, hb.closed], fun pre hpre => ?_⟩
  rcases List.prefix_or_prefix_of_prefix hpre (List.prefix_append a b) with hp | ⟨t, rfl⟩
  · exact ha.most pre hp
  · rw [openFiles_append, ha.closed, Int.zero_add]
    exact hb.most t ((List.prefix_append_right_inj a).mp hpre)

theorem Within.line {n : Nat} (line : List Byte) (r : Int) : Within n [.line line r] := by
  refine ⟨rfl, fun pre hpre => ?_⟩
  rcases List.prefix_cons_iff.mp hpre with rfl | ⟨t, rfl, ht⟩
  · exact Int.natCast_nonneg n
  · rw [List.prefix_nil.mp ht]
    exact Int.natCast_nonneg n

theorem Within.file {n : Nat} (path : List Byte) {inner : List FileEvent} (h : Within n inner) :
    Within (n + 1) (.opened path :: inner ++ [.closed path]) := by
  have hopen : openFiles (.opened path :: inner) = 1 := by simp [FileEvent.opens, h.closed]
  refine ⟨by simp [FileEvent.opens, h.closed], fun pre hpre => ?_⟩
  rcases List.prefix_or_prefix_of_prefix hpre (List.prefix_append _ _) with hp | ⟨t, rfl⟩
  · rcases List.prefix_cons_iff.mp hp with rfl | ⟨t, rfl, ht⟩
    · exact Int.natCast_nonneg _
    · have hle := h.most t ht
      simp only [openFiles_cons, FileEvent.opens]
      omega
  · rw [openFiles_append, hopen]
    rcases List.prefix_cons_iff.mp ((List.prefix_append_right_inj _).mp hpre) with rfl | ⟨t, rfl, ht⟩
    · simp
    · rw [List.prefix_nil.mp ht]
      simp only [openFiles_cons, openFiles_nil, FileEvent.opens]
      omega

theorem LinesRun.within {n : Nat} {run : List Byte → List FileEvent → Int → Prop} {dir : List Byte}
    {lines : List (Option (List Byte))} {events : List FileEvent}
    (hrun : ∀ path events r, run path events r → Within n events)
    (h : LinesRun sys run dir lines events rc) : Within n events := by
  induction h with
  | nil => exact .nil n
  | tooLong _ ih => exact ih
  | plain _ _ _ ih => exact (Within.line _ _).append ih
  | incl _ hinner _ ih => exact (hrun _ _ _ hinner).append ((Within.line _ _).append ih)

theorem FileRun.within {n : Nat} {path : List Byte} {events : List FileEvent} (h : FileRun sys n path events rc) :
    Within n events := by
  induction n generalizing path events rc with
  | zero =>
    obtain ⟨rfl, -⟩ := h
    exact .nil 0
  | succ n ih =>
    unfold FileRun at h
    split at h
    · obtain ⟨rfl, -⟩ := h
      exact .nil _
    · obtain ⟨inner, hlines, rfl⟩ := h
      exact .file path (hlines.within fun _ _ _ => ih)

/-! ## The loading of a file is a run -/

/-- A program that loads files by the runs in `run`. -/
def LoadsBy (sys : Sys F) (run : List Byte → List FileEvent → Int → Prop) (loadFile : List Byte → M F Int) : Prop :=
  ∀ path g m, Safe sys g m → wp (loadFile path)
    (fun rc m' => Grown sys g m' ∧ ∃ events, m'.files = m.files ++ events ∧ run path events rc) m

theorem LoadsBy.safely {run : List Byte → List FileEvent → Int → Prop} {loadFile : List Byte → M F Int}
    (hrun : ∀ path events r, run path events r → r = 0 ∨ r = -1) (h : LoadsBy sys run loadFile) :
      LoadsSafely sys loadFile := by
  intro path g m hm
  refine (h path g m hm).mono fun rc m' hpost => ?_
  obtain ⟨hgrown, events, -, hev⟩ := hpost
  exact ⟨hrun path events rc hev, hgrown⟩

/-- The run so far, for any way in which the lines that are left may be done. -/
structure LinesDone (sys : Sys F) (run : List Byte → List FileEvent → Int → Prop) (dir : List Byte)
    (lines : List (Option (List Byte))) (g : SubHeap (Block F)) (before : List FileEvent)
    (left : List (Option (List Byte)))
    (rc : Int) (m : Mem F) : Prop where
  grown : Grown sys g m
  code : rc = 0 ∨ rc = -1
  events : ∃ events, m.files = before ++ events ∧
    ∀ more r, LinesRun sys run dir left more r → LinesRun sys run dir lines (events ++ more) (min rc r)

theorem LinesDone.line {run : List Byte → List FileEvent → Int → Prop} {loadFile : List Byte → M F Int}
    (hrun : ∀ path events r, run path events r → r = 0 ∨ r = -1) (hload : LoadsBy sys run loadFile)
    {dir line : List Byte} {lines left : List (Option (List Byte))} {before : List FileEvent}
    (h : LinesDone sys run dir lines g before (some line :: left) rc m) :
    wp (parseLine sys loadFile line dir) (fun r m' => ∀ trace,
      LinesDone sys run dir lines g before left (if r < 0 then -1 else rc)
      { m' with trace := trace, files := m'.files ++ [.line line r] }) m := by
  obtain ⟨g₁, hbuilt, hsafe⟩ := h.grown
  obtain ⟨events, hfiles, hmore⟩ := h.events
  refine (parseLine_spec (hload.safely hrun) hsafe line dir).mono fun r m₁ hpost trace => ?_
  have hcode := hpost.code
  have hrc := h.code
  refine ⟨((hpost.grown.trans hbuilt).report trace).log _, by split <;> omega, ?_⟩
  cases hpost.effect with
  | plain hno hframe =>
    refine ⟨events ++ [.line line r], ?_, fun more r' hleft => ?_⟩
    · show m₁.files ++ _ = _
      rw [hframe.files, hfiles, List.append_assoc]
    · have hrest := hmore _ _ (.plain hno hcode hleft)
      have hmin : min rc (min r r') = min (if r < 0 then -1 else rc) r' := by
        have hr' := hleft.code hrun
        split <;> omega
      rw [hmin] at hrest
      rw [List.append_assoc]
      exact hrest
  | @incl path _ _ hincl hrunFile =>
    obtain ⟨⟨r₂, m₂⟩, hrunFile', -, inner, hinner, hev⟩ := hload path g₁ m hsafe
    cases hrunFile.symm.trans hrunFile'
    refine ⟨events ++ (inner ++ [.line line r]), ?_, fun more r' hleft => ?_⟩
    · show m₁.files ++ _ = _
      rw [hinner, hfiles, List.append_assoc, List.append_assoc]
    · have hrest := hmore _ _ (.incl hincl hev hleft)
      have hmin : min rc (min r r') = min (if r < 0 then -1 else rc) r' := by
        have hr' := hleft.code hrun
        split <;> omega
      rw [hmin] at hrest
      rw [List.append_assoc, List.append_assoc]
      exact hrest

theorem cfgLoadDepth_runs (n : Nat) : LoadsBy sys (FileRun sys n) (cfgLoadDepth sys n) := by
  induction n with
  | zero =>
    intro path g m h
    unfold cfgLoadDepth
    rw [wp_bind, wp_traceErr]
    exact wp_pure.mpr ⟨h.grown.report _, [], (List.append_nil _).symm, rfl, rfl⟩
  | succ n ih =>
    intro path g m h
    unfold cfgLoadDepth FileRun
    cases sys.fopen path with
    | none =>
      show wp (traceErr _ _ >>= _) _ m
      rw [wp_bind, wp_traceErr]
      exact wp_pure.mpr ⟨h.grown.report _, [], (List.append_nil _).symm, rfl, rfl⟩
    | some content =>
      show wp (logFile _ >>= _) _ m
      rw [wp_bind, wp_logFile]
      have hcode : ∀ path events r, FileRun sys n path events r → r = 0 ∨ r = -1 := fun _ _ _ hr => hr.code
      refine wp.bind (loadLines_rule _ _ (LinesDone sys (FileRun sys n) (dirOf path) (fileLines content) g
        (m.files ++ [.opened path])) ?_ ?_ _ (Nat.lt_succ_self _) 0
          ⟨h.grown.log _, .inl rfl, [], ?_, fun more r hmore => ?_⟩) ?_
      · intro left rc m' trace hm'
        obtain ⟨events, hfiles, hmore⟩ := hm'.events
        refine ⟨hm'.grown.report _, .inr rfl, events, hfiles, fun more r hleft => ?_⟩
        have hmin : min rc (-1) = min (-1) r := by
          have hrc := hm'.code
          have hr := hleft.code hcode
          omega
        exact hmin ▸ hmore _ _ (.tooLong hleft)
      · exact fun line left rc m' hm' => (hm'.line hcode ih).mono fun _ _ hdone trace _ => hdone trace
      · exact (List.append_nil _).symm
      · have hmin : min 0 r = r := by
          have hr := hmore.code hcode
          omega
        exact hmin.symm ▸ hmore
      · intro rc m₁ hdone
        obtain ⟨events, hfiles, hmore⟩ := hdone.events
        rw [wp_bind, wp_logFile]
        refine wp_pure.mpr ⟨hdone.grown.log _, .opened path :: events ++ [.closed path], ?_, events, ?_, rfl⟩
        · show m₁.files ++ _ = _
          rw [hfiles, List.append_assoc, List.append_assoc]
          rfl
        · have hall := hmore [] 0 .nil
          have hmin : min rc 0 = rc := by
            have hrc := hdone.code
            omega
          rw [List.append_nil, hmin] at hall
          exact hall

/-- An include on the last level answers -1, and no file is opened for it. -/
theorem parseLine_too_deep (hm : Safe sys g m) {dir line path : List Byte}
    (hincl : Includes sys dir (lineText line) path) :
    ∃ m', parseLine sys (cfgLoadDepth sys 0) line dir m = some (-1, m') ∧ m'.files = m.files := by
  obtain ⟨⟨rc, m'⟩, hrun, hpost⟩ := parseLine_spec (cfgLoadDepth_spec 0) hm line dir
  cases hpost.effect with
  | plain hno => exact absurd hincl (hno path)
  | incl _ hload =>
    cases hload
    exact ⟨_, hrun, rfl⟩

/-- The loading of a file ends, whatever it includes: by a run that does every line of every
    file it opens, with never more than 17 files open. -/
theorem kfl_cfg_load_files (hm : Safe sys g m) (path : List Byte) :
    (∃ rc m' events, kflCfgLoad sys path m = some (rc, m') ∧ (rc = 0 ∨ rc = -1) ∧ m'.files = m.files ++ events ∧
      FileRun sys 17 path events rc ∧ openFiles events = 0 ∧ ∀ pre, pre <+: events → openFiles pre ≤ 17) ∧
    ∀ dir line incl, Includes sys dir (lineText line) incl →
      ∃ m', parseLine sys (cfgLoadDepth sys 0) line dir m = some (-1, m') ∧ m'.files = m.files := by
  refine ⟨?_, fun dir line incl => parseLine_too_deep hm⟩
  obtain ⟨⟨rc, m'⟩, hrun, -, events, hfiles, hev⟩ := cfgLoadDepth_runs 17 path g m hm
  exact ⟨rc, m', events, hrun, hev.code, hfiles, hev, hev.within.closed, hev.within.most⟩

/-- `include a` -/
def loopText : List Byte := includeText ++ ascii [' ', 'a', '\n']

/-- Every path leads to a file that includes itself twice. -/
def loopSys : Sys Unit := { plainSys with fopen := fun _ => some (loopText ++ loopText) }

theorem loopSys_new : kflCfgNew loopSys [] 0 = some plainMem := rfl

theorem kfl_cfg_load_files_loop :
    ∃ rc m' events, kflCfgLoad loopSys (ascii ['a']) plainMem = some (rc, m') ∧ FileRun loopSys 17
      (ascii ['a']) events rc ∧
      ∀ pre, pre <+: events → openFiles pre ≤ 17 := by
  obtain ⟨⟨rc, m', events, hrun, -, -, hev, -, hmost⟩, -⟩ :=
    kfl_cfg_load_files (kflCfgNew_safe loopSys_new).1 (ascii ['a'])
  exact ⟨rc, m', events, hrun, hev, hmost⟩

end KanekFoundations.Cfg

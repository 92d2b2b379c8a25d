/-
  KanekFoundations.Cfg.Inlining — a file with includes means its statements in one piece.

  `FileMeans sys n path prog`: with `n` levels left, the file at `path` is written in lines that
  are blank or a comment, that have the tokens of a statement, or that include such a file;
  `prog` are the statements in the order in which the files are gone through.

  Proved, when every allocation succeeds:
  - `include_inlines`: `kfl_cfg_load` answers 0, and the variables are then those that the
    statements of all the files make, one after the other.
-/

import KanekFoundations.Cfg.Spacing
import KanekFoundations.Cfg.Spelled

namespace KanekFoundations.Cfg

open KanekFoundations.Lib

variable {F : Type} {sys : Sys F} {g : SubHeap (Block F)} {m : Mem F} {env : Env} {dir : List Byte}
  {prog : List Stmt}

/-! ## Files that mean a program -/

/-- The line has the tokens of the statement, in any spacing. -/
structure LineMeans (sys : Sys F) (line : List Byte) (s : Stmt) : Prop where
  fits : s.fits
  length : s.print.length ≤ 1022
  toks : SameToks sys (lineText s.print) (lineText line)

/-- The lines of a file, with the statements of the files they include in their place. -/
inductive LinesMean (sys : Sys F) (run : List Byte → List Stmt → Prop) (dir : List Byte) : List (Option (List Byte)) →
    List Stmt → Prop
  | nil : LinesMean sys run dir [] []
  | blank {line : List Byte} {lines : List (Option (List Byte))} {prog : List Stmt} {t : Tok F} {q : List Byte} :
    Reads sys (lineText line) t q → t.Ends → LinesMean sys run dir lines prog →
      LinesMean sys run dir (some line :: lines) prog
  | stmt {line : List Byte} {lines : List (Option (List Byte))} {s : Stmt} {prog : List Stmt} :
    LineMeans sys line s → LinesMean sys run dir lines prog → LinesMean sys run dir (some line :: lines) (s :: prog)
  | incl {line path : List Byte} {lines : List (Option (List Byte))} {inner prog : List Stmt} :
    Includes sys dir (lineText line) path → run path inner → LinesMean sys run dir lines prog →
      LinesMean sys run dir (some line :: lines) (inner ++ prog)

def FileMeans (sys : Sys F) : Nat → List Byte → List Stmt → Prop
  | 0, _, _ => False
  | n + 1, path, prog => ∃ content, sys.fopen path = some content ∧
    LinesMean sys (FileMeans sys n) (dirOf path) (fileLines content) prog

/-! ## Lines -/

theorem execAll_append (env : Env) (a b : List Stmt) : execAll env (a ++ b) = execAll (execAll env a) b :=
    List.foldl_append

/-- The first word of a statement is no include. -/
theorem Stmt.plain (sys : Sys F) {s : Stmt} (hfits : s.fits) (hlen : s.print.length ≤ 1022) :
    Plain sys (lineText s.print) := by
  cases s with
  | assign key e => exact .inr ⟨key.1, congrArg Scan.tok (print_first sys (s := .assign key e) rfl hfits hlen).1,
      (key_ne key).1⟩
  | append key e => exact .inr ⟨key.1, congrArg Scan.tok (print_first sys (s := .append key e) rfl hfits hlen).1,
      (key_ne key).1⟩
  | display e =>
      exact .inr ⟨displayText, congrArg Scan.tok (print_first sys (s := .display e) rfl hfits hlen).1, by decide⟩

/-- The files that `loadFile` loads leave the variables that `run` says. -/
def LoadsTo (sys : Sys F) (run : List Byte → List Stmt → Prop) (loadFile : List Byte → M F Int) : Prop :=
  ∀ path prog, run path prog → ∀ g m env, Represents sys g m env → wp (loadFile path) (Ran sys (execAll env prog)) m

theorem LineMeans.run (hyes : sys.NoFail) {line : List Byte} {loadFile : List Byte → M F Int}
    (hload : LoadsSafely sys loadFile) {s : Stmt}
    (h : LineMeans sys line s) (hm : Represents sys g m env) :
      wp (parseLine sys loadFile line dir) (Ran sys (s.exec env)) m := by
  have hsame := parseLine_same hload hm.safe dir h.toks (s.plain sys h.fits h.length)
  obtain ⟨r, hrun, hpost⟩ := parseLine_run hyes loadFile dir s h.fits h.length hm
  exact ⟨r, hsame.trans hrun, hpost⟩

theorem blank_run {line : List Byte} {loadFile : List Byte → M F Int} {t : Tok F} {q : List Byte}
    (hfirst : Reads sys (lineText line) t q) (hend : t.Ends)
    (hm : Represents sys g m env) : wp (parseLine sys loadFile line dir) (Ran sys env) m := by
  rw [parseLine_blank loadFile dir hfirst hend]
  exact wp_finish.mpr ⟨rfl, g, hm.report _⟩

theorem incl_run {run : List Byte → List Stmt → Prop} {line : List Byte} {loadFile : List Byte → M F Int}
    (hload : LoadsTo sys run loadFile) {path : List Byte} {inner : List Stmt}
    (hincl : Includes sys dir (lineText line) path) (hrun : run path inner) (hm : Represents sys g m env) :
    wp (parseLine sys loadFile line dir) (Ran sys (execAll env inner)) m := by
  obtain ⟨q, hfirst, hname, rfl⟩ := hincl
  rw [parseLine_incl loadFile dir hfirst, if_neg hname, wp_bind]
  exact wp_finish.mpr (hload _ _ hrun g _ env (hm.report _))

/-- A line is the start of what the lines mean. -/
theorem LinesMean.line (hyes : sys.NoFail) {run : List Byte → List Stmt → Prop} {line : List Byte}
    {loadFile : List Byte → M F Int} (hsafe : LoadsSafely sys loadFile)
    (hload : LoadsTo sys run loadFile) {lines : List (Option (List Byte))}
    (h : LinesMean sys run dir (some line :: lines) prog)
    (hm : Represents sys g m env) :
    ∃ first rest, prog = first ++ rest ∧ LinesMean sys run dir lines rest ∧
      wp (parseLine sys loadFile line dir) (Ran sys (execAll env first)) m := by
  cases h with
  | blank hfirst hend hrest => exact ⟨[], _, rfl, hrest, blank_run hfirst hend hm⟩
  | stmt hs hrest => exact ⟨[_], _, rfl, hrest, hs.run hyes hsafe hm⟩
  | incl hincl hrun hrest => exact ⟨_, _, rfl, hrest, incl_run hload hincl hrun hm⟩

/-! ## Files -/

/-- The lines that are left lead to what the whole file means. -/
def OnTheWay (sys : Sys F) (run : List Byte → List Stmt → Prop) (dir : List Byte) (goal : Env)
    (lines : List (Option (List Byte)))
    (rc : Int) (m : Mem F) : Prop :=
  rc = 0 ∧ ∃ prog g env, LinesMean sys run dir lines prog ∧ Represents sys g m env ∧ execAll env prog = goal

theorem cfgLoadDepth_means (hyes : sys.NoFail) (n : Nat) : LoadsTo sys (FileMeans sys n) (cfgLoadDepth sys n) := by
  induction n with
  | zero => exact fun _ _ h => h.elim
  | succ n ih =>
    intro path prog h g m env hm
    obtain ⟨content, hopen, hlines⟩ := h
    unfold cfgLoadDepth
    rw [hopen]
    show wp (logFile _ >>= _) _ m
    rw [wp_bind, wp_logFile]
    refine wp.bind (loadLines_rule path (dirOf path)
      (OnTheWay sys (FileMeans sys n) (dirOf path) (execAll env prog)) ?_ ?_ _
      (Nat.lt_succ_self _) 0 ⟨rfl, prog, g, env, hlines, hm.log _, rfl⟩) ?_
    · intro lines rc m trace hway
      obtain ⟨-, prog, g, env, hmeans, -⟩ := hway
      cases hmeans
    · intro line lines rc m hway
      obtain ⟨rfl, prog, g, env, hmeans, hm, hgoal⟩ := hway
      obtain ⟨first, rest, rfl, hrest, hrun⟩ := hmeans.line hyes (cfgLoadDepth_spec n) ih hm
      refine hrun.mono fun r m₁ hpost trace _ => ?_
      obtain ⟨rfl, g₁, hm₁⟩ := hpost
      exact ⟨if_neg (by decide), rest, g₁, _, hrest, (hm₁.report trace).log _,
        (execAll_append env first rest).symm.trans hgoal⟩
    · intro rc m₁ hway
      obtain ⟨rfl, prog, g₁, env₁, hmeans, hm₁, hgoal⟩ := hway
      cases hmeans
      rw [wp_bind, wp_logFile]
      exact wp_pure.mpr ⟨rfl, g₁, hgoal ▸ hm₁.log _⟩

/-- A file that means a program is loaded as if the program stood there in one piece. -/
theorem include_inlines (hyes : sys.NoFail) {path : List Byte} (h : FileMeans sys 17 path prog)
    (hm : Represents sys g m env) :
    ∃ m' g', kflCfgLoad sys path m = some (0, m') ∧ Represents sys g' m' (execAll env prog) := by
  obtain ⟨⟨rc, m'⟩, hrun, rfl, g', hm'⟩ := cfgLoadDepth_means hyes 17 path prog h g m env hm
  exact ⟨m', g', hrun, hm'⟩

/-- `include g` and `B=A`, where `g` says `A = 5`. -/
def twoFilesSys : Sys Unit := { plainSys with
  fopen := fun path =>
    if path = ascii ['f'] then some (includeText ++ ascii [' ', 'g', '\n', 'B', '=', 'A', '\n'])
    else if path = ascii ['.', '/', 'g'] then some (ascii ['A', ' ', '=', ' ', '5', '\n'])
    else none }

def inlined : List Stmt := [.assign keyA ⟨.int ⟨5, by decide⟩, []⟩, .assign keyB ⟨.name keyA, []⟩]

theorem twoFiles_mean : FileMeans twoFilesSys 17 (ascii ['f']) inlined := by
  have hg : FileMeans twoFilesSys 16 (ascii ['.', '/', 'g']) [.assign keyA ⟨.int ⟨5, by decide⟩, []⟩] := by
    refine ⟨ascii ['A', ' ', '=', ' ', '5', '\n'], by decide +kernel, ?_⟩
    have hlines : fileLines (ascii ['A', ' ', '=', ' ', '5', '\n']) = [some (ascii ['A', ' ', '=', ' ', '5'])] := by
      decide +kernel
    rw [hlines]
    refine .stmt ⟨?_, by decide +kernel, fun _ => ?_⟩ .nil
    · exact fun n hn => by cases hn
    · rw [show (Stmt.assign keyA ⟨.int ⟨5, by decide⟩, []⟩).print = ascii ['A', ' ', '=', ' ', '5'] by decide +kernel]
  have hsame : SameToks twoFilesSys (lineText (Stmt.assign keyB ⟨.name keyA, []⟩).print)
      (lineText (ascii ['B', '=', 'A'])) := by
    have hkey : Reads twoFilesSys (lineText (Stmt.assign keyB ⟨.name keyA, []⟩).print) (.ident (ascii ['B']))
        (ascii [' ', '=', ' ', 'A']) := by decide +kernel
    have hkey₂ : Reads twoFilesSys (lineText (ascii ['B', '=', 'A'])) (.ident (ascii ['B'])) (ascii ['=', 'A']) := by
      decide +kernel
    have heq : Reads twoFilesSys (ascii [' ', '=', ' ', 'A']) .eq (ascii [' ', 'A']) := by decide +kernel
    have heq₂ : Reads twoFilesSys (ascii ['=', 'A']) .eq (ascii ['A']) := by decide +kernel
    have hname : Reads twoFilesSys (ascii [' ', 'A']) (.ident (ascii ['A'])) [] := by decide +kernel
    have hname₂ : Reads twoFilesSys (ascii ['A']) (.ident (ascii ['A'])) [] := by decide +kernel
    exact hkey.sameToks hkey₂ (heq.sameToks heq₂ (hname.sameToks hname₂ fun _ => rfl))
  refine ⟨includeText ++ ascii [' ', 'g', '\n', 'B', '=', 'A', '\n'], by decide +kernel, ?_⟩
  have hlines : fileLines (includeText ++ ascii [' ', 'g', '\n', 'B', '=', 'A', '\n']) =
      [some (includeText ++ ascii [' ', 'g']), some (ascii ['B', '=', 'A'])] := by decide +kernel
  rw [hlines]
  have hincl : Includes twoFilesSys (dirOf (ascii ['f'])) (lineText (includeText ++ ascii [' ', 'g']))
      (ascii ['.', '/', 'g']) :=
    ⟨ascii [' ', 'g'], by decide +kernel, by decide +kernel, by decide +kernel⟩
  have hrest : LinesMean twoFilesSys (FileMeans twoFilesSys 16) (dirOf (ascii ['f'])) [some (ascii ['B', '=', 'A'])]
      [.assign keyB ⟨.name keyA, []⟩] := .stmt ⟨fun n hn => (by cases hn), by decide +kernel, hsame⟩ .nil
  exact LinesMean.incl hincl hg hrest

theorem include_inlines_two : ∃ (m' : Mem Unit) (g' : SubHeap (Block Unit)),
    kflCfgLoad twoFilesSys (ascii ['f']) plainMem = some (0, m') ∧
      Represents twoFilesSys g' m' (execAll (fun _ => none) inlined) :=
  have hnew : kflCfgNew twoFilesSys [] 0 = some plainMem := rfl
  include_inlines (fun _ => rfl) twoFiles_mean (kflCfgNew_represents hnew)

end KanekFoundations.Cfg

/-
  KanekFoundations.Cfg.Physical — the lines of a file, and those that `cfg_load_depth` reads.

  A physical line is what stands between two newlines, or behind the last one. The loop reads
  with `fgets`, looks for a newline with `strchr`, and reads on to the next newline when there
  is none. Both searches disagree on a line with a NUL: `strchr` stops in front of the newline
  that `fgets` has read, and the line behind it is read away.

  Proved:
  - `cfg_load_physical`: without a NUL, the lines of at most 1022 bytes are handed to
    `parse_line` in order, and each longer one is reported once; the answer is 0 when there is
    no longer one and every line is answered with 0;
  - `readsAt_first`: a line that is not read away is handed on exactly when it is `Due`;
  - `nul_lines_iff`: with NULs, no line that would be handed on is lost exactly when none stands
    behind a line that reads it away.
-/

import KanekFoundations.Cfg.FileProofs

namespace KanekFoundations.Cfg

open KanekFoundations.Lib

variable {F : Type} {sys : Sys F} {g : SubHeap (Block F)} {m : Mem F}

/-! ## Physical lines -/

def physicalLines (content : List Byte) : List (List Byte) :=
  let pieces := content.splitOn (chr '\n')
  -- Nothing behind the last newline is no line.
  if pieces.getLast? = some [] then pieces.dropLast else pieces

theorem physicalLines_line {line : List Byte} (hline : chr '\n' ∉ line) (rest : List Byte) :
    physicalLines (line ++ chr '\n' :: rest) = line :: physicalLines rest := by
  obtain ⟨piece, pieces, hpieces⟩ := List.exists_cons_of_ne_nil (List.splitOn_ne_nil (chr '\n') rest)
  unfold physicalLines
  dsimp only
  rw [List.splitOn_append_cons_self_of_not_mem hline, hpieces, List.getLast?_cons_cons, List.dropLast_cons_cons]
  split <;> rfl

theorem physicalLines_last {line : List Byte} (hline : chr '\n' ∉ line) :
    physicalLines line = if line = [] then [] else [line] := by
  unfold physicalLines
  dsimp only
  rw [List.splitOn_eq_singleton hline]
  by_cases hempty : line = []
  · simp [hempty]
  · simp [hempty]

/-- A file starts with a line and its newline, or is a line without one. -/
theorem content_cases (content : List Byte) :
    (∃ line rest, chr '\n' ∉ line ∧ content = line ++ chr '\n' :: rest) ∨ chr '\n' ∉ content := by
  by_cases hmem : chr '\n' ∈ content
  · obtain ⟨line, rest, hcontent, hline⟩ := List.eq_append_cons_of_mem hmem
    exact .inl ⟨line, rest, hline, hcontent⟩
  · exact .inr hmem

/-! ## What `fgets` reads -/

theorem fgets_line {n : Nat} {line : List Byte} (hline : chr '\n' ∉ line) (hlen : line.length < n) (rest : List Byte) :
    fgets n (line ++ chr '\n' :: rest) = (line ++ [chr '\n'], rest, false) := by
  induction line generalizing n with
  | nil =>
    cases n with
    | zero => exact absurd hlen (Nat.not_lt_zero _)
    | succ n => rfl
  | cons c line ih =>
    cases n with
    | zero => exact absurd hlen (Nat.not_lt_zero _)
    | succ n =>
      have hc : c ≠ chr '\n' := fun h => hline (h ▸ List.mem_cons_self)
      have hrest : chr '\n' ∉ line := fun h => hline (List.mem_cons_of_mem c h)
      rw [List.cons_append, fgets, if_neg hc, ih hrest (Nat.lt_of_succ_lt_succ hlen)]
      rfl

theorem fgets_last {n : Nat} {line : List Byte} (hline : chr '\n' ∉ line) (hlen : line.length < n) :
    fgets n line = (line, [], true) := by
  induction line generalizing n with
  | nil =>
    cases n with
    | zero => exact absurd hlen (Nat.not_lt_zero _)
    | succ n => rfl
  | cons c line ih =>
    cases n with
    | zero => exact absurd hlen (Nat.not_lt_zero _)
    | succ n =>
      have hc : c ≠ chr '\n' := fun h => hline (h ▸ List.mem_cons_self)
      have hrest : chr '\n' ∉ line := fun h => hline (List.mem_cons_of_mem c h)
      rw [fgets, if_neg hc, ih hrest (Nat.lt_of_succ_lt_succ hlen)]

/-- The buffer is full before the newline or the end of the file is met. -/
theorem fgets_full {n : Nat} {line : List Byte} (hline : chr '\n' ∉ line) (hlen : n ≤ line.length) (rest : List Byte) :
    fgets n (line ++ rest) = (line.take n, line.drop n ++ rest, false) := by
  induction n generalizing line with
  | zero => rfl
  | succ n ih =>
    cases line with
    | nil => exact absurd hlen (Nat.not_succ_le_zero n)
    | cons c line =>
      have hc : c ≠ chr '\n' := fun h => hline (h ▸ List.mem_cons_self)
      have hrest : chr '\n' ∉ line := fun h => hline (List.mem_cons_of_mem c h)
      rw [List.cons_append, fgets, if_neg hc, ih hrest (Nat.le_of_succ_le_succ hlen)]
      rfl

/-! ## The rounds of the loop -/

/-- What is left of a file behind the next newline. -/
def afterLine (rest : List Byte) : List Byte := (rest.dropWhile (· ≠ chr '\n')).drop 1

/-- The lines as `cutLines` reads them, each with what is left of the file where it starts. -/
def readsAt : Nat → List Byte → List (List Byte × Option (List Byte))
  | 0, _ => []
  | n + 1, content =>
    let (line, rest, eof) := fgets (CFG_MAX_LINE - 1) content
    if line = [] then []
    else
      let text := line.takeWhile (· ≠ 0)
      if chr '\n' ∉ text ∧ eof = false then (content, none) :: readsAt n (afterLine rest)
      else (content, some (text.takeWhile (· ≠ chr '\n'))) :: readsAt n rest

theorem readsAt_succ (n : Nat) (content : List Byte) : readsAt (n + 1) content =
    if (fgets (CFG_MAX_LINE - 1) content).1 = [] then []
    else if chr '\n' ∉ (fgets (CFG_MAX_LINE - 1) content).1.takeWhile (· ≠ 0) ∧
      (fgets (CFG_MAX_LINE - 1) content).2.2 = false then
      (content, none) :: readsAt n (afterLine (fgets (CFG_MAX_LINE - 1) content).2.1)
    else (content, some (((fgets (CFG_MAX_LINE - 1) content).1.takeWhile (· ≠ 0)).takeWhile (· ≠ chr '\n'))) ::
      readsAt n (fgets (CFG_MAX_LINE - 1) content).2.1 := rfl

theorem readsAt_cut (n : Nat) (content : List Byte) : (readsAt n content).map Prod.snd = cutLines n content := by
  induction n generalizing content with
  | zero => rfl
  | succ n ih =>
    rw [readsAt_succ, cutLines_succ]
    split
    · rfl
    split
    · exact congrArg (none :: ·) (ih _)
    · exact congrArg (some _ :: ·) (ih _)

theorem readsAt_nil (n : Nat) : readsAt n [] = [] := by
  cases n with
  | zero => rfl
  | succ n => rfl

theorem takeWhile_nul {line : List Byte} (hnul : (0 : Byte) ∉ line) (rest : List Byte) :
    (line ++ rest).takeWhile (· ≠ 0) = line ++ rest.takeWhile (· ≠ 0) := by
  refine List.takeWhile_append_of_pos fun c hc => ?_
  have hne : c ≠ 0 := fun h => hnul (h ▸ hc)
  simpa using hne

theorem takeWhile_line {line : List Byte} (hline : chr '\n' ∉ line) (rest : List Byte) :
    (line ++ chr '\n' :: rest).takeWhile (· ≠ chr '\n') = line := by
  rw [List.takeWhile_append_of_pos]
  · simp
  · intro c hc
    have hne : c ≠ chr '\n' := fun h => hline (h ▸ hc)
    simpa using hne

theorem afterLine_line {line : List Byte} (hline : chr '\n' ∉ line) (rest : List Byte) :
    afterLine (line ++ chr '\n' :: rest) = rest := by
  unfold afterLine
  rw [List.dropWhile_append_of_pos]
  · simp
  · intro c hc
    have hne : c ≠ chr '\n' := fun h => hline (h ▸ hc)
    simpa using hne

theorem afterLine_last {line : List Byte} (hline : chr '\n' ∉ line) : afterLine line = [] := by
  unfold afterLine
  rw [List.dropWhile_eq_nil_iff.mpr]
  · rfl
  · intro c hc
    have hne : c ≠ chr '\n' := fun h => hline (h ▸ hc)
    simpa using hne

section
variable {n : Nat} {line : List Byte}

/-- A line that fits, without a NUL, is handed on. -/
theorem readsAt_fits (hline : chr '\n' ∉ line) (hnul : (0 : Byte) ∉ line) (hlen : line.length ≤ 1022)
    (rest : List Byte) :
    readsAt (n + 1) (line ++ chr '\n' :: rest) = (line ++ chr '\n' :: rest, some line) :: readsAt n rest := by
  have hroom : line.length < CFG_MAX_LINE - 1 := Nat.lt_succ_of_le hlen
  have htext : (line ++ [chr '\n']).takeWhile (· ≠ 0) = line ++ [chr '\n'] := takeWhile_nul hnul _
  have hmem : chr '\n' ∈ line ++ [chr '\n'] := by simp
  rw [readsAt_succ, fgets_line hline hroom]
  dsimp only
  rw [if_neg (List.append_ne_nil_of_right_ne_nil _ (List.cons_ne_nil _ _)), htext, if_neg fun h => h.1 hmem,
    takeWhile_line hline]

/-- With a NUL its newline is not found: the next line is read away. -/
theorem readsAt_nul (hline : chr '\n' ∉ line) (hnul : (0 : Byte) ∈ line) (hlen : line.length ≤ 1022)
    (rest : List Byte) :
    readsAt (n + 1) (line ++ chr '\n' :: rest) = (line ++ chr '\n' :: rest, none) :: readsAt n (afterLine rest) := by
  have hroom : line.length < CFG_MAX_LINE - 1 := Nat.lt_succ_of_le hlen
  have hmem : chr '\n' ∉ (line ++ [chr '\n']).takeWhile (· ≠ 0) := by
    obtain ⟨before, behind, rfl, hbefore⟩ := List.eq_append_cons_of_mem hnul
    rw [List.append_assoc, takeWhile_nul hbefore]
    simpa using fun h => hline (List.mem_append_left _ h)
  rw [readsAt_succ, fgets_line hline hroom]
  dsimp only
  rw [if_neg (List.append_ne_nil_of_right_ne_nil _ (List.cons_ne_nil _ _)), if_pos ⟨hmem, rfl⟩]

/-- A line that does not fit is read to its end. -/
theorem readsAt_long (hline : chr '\n' ∉ line) (hlen : 1022 < line.length) (rest : List Byte) :
    readsAt (n + 1) (line ++ rest) = (line ++ rest, none) :: readsAt n (afterLine (line.drop 1023 ++ rest)) := by
  have hsome : line.take 1023 ≠ [] := List.ne_nil_of_length_pos (by rw [List.length_take]; omega)
  have hmem : chr '\n' ∉ (line.take 1023).takeWhile (· ≠ 0) := fun h =>
    hline (List.mem_of_mem_take ((List.takeWhile_sublist _).subset h))
  have hfull : fgets (CFG_MAX_LINE - 1) (line ++ rest) = (line.take 1023, line.drop 1023 ++ rest, false) :=
    fgets_full hline hlen rest
  rw [readsAt_succ, hfull]
  dsimp only
  rw [if_neg hsome, if_pos ⟨hmem, rfl⟩]

/-- The last line is handed on up to its first NUL. -/
theorem readsAt_last (hline : chr '\n' ∉ line) (hempty : line ≠ []) (hlen : line.length ≤ 1022) :
    readsAt (n + 1) line = [(line, some (line.takeWhile (· ≠ 0)))] := by
  have hroom : line.length < CFG_MAX_LINE - 1 := Nat.lt_succ_of_le hlen
  have hall : (line.takeWhile (· ≠ 0)).takeWhile (· ≠ chr '\n') = line.takeWhile (· ≠ 0) := by
    rw [List.takeWhile_eq_self_iff]
    intro c hc
    have hne : c ≠ chr '\n' := fun h => hline (h ▸ (List.takeWhile_sublist _).subset hc)
    simpa using hne
  rw [readsAt_succ, fgets_last hline hroom]
  dsimp only
  rw [if_neg hempty, if_neg fun h => Bool.noConfusion h.2, hall, readsAt_nil]

end

/-- What the loop makes of a physical line of a file without a NUL. -/
def fitLine (line : List Byte) : Option (List Byte) := if line.length ≤ 1022 then some line else none

/-- Without a NUL the loop reads the physical lines. -/
theorem cutLines_physical {n : Nat} {content : List Byte} (hn : content.length < n) (hnul : (0 : Byte) ∉ content) :
    cutLines n content = (physicalLines content).map fitLine := by
  induction n generalizing content with
  | zero => exact absurd hn (Nat.not_lt_zero _)
  | succ n ih =>
    rcases content_cases content with ⟨line, rest, hline, rfl⟩ | hlast
    · have hlen : rest.length < n := by
        rw [List.length_append, List.length_cons] at hn
        omega
      have hrest : (0 : Byte) ∉ rest := fun h => hnul (List.mem_append_right _ (List.mem_cons_of_mem _ h))
      rw [physicalLines_line hline, List.map_cons, ← ih hlen hrest, ← readsAt_cut, ← readsAt_cut, fitLine]
      by_cases hfits : line.length ≤ 1022
      · rw [readsAt_fits hline (fun h => hnul (List.mem_append_left _ h)) hfits, if_pos hfits]
        rfl
      · have hdrop : chr '\n' ∉ line.drop 1023 := fun h => hline (List.mem_of_mem_drop h)
        rw [readsAt_long hline (Nat.lt_of_not_le hfits), afterLine_line hdrop, if_neg hfits]
        rfl
    · rw [physicalLines_last hlast, ← readsAt_cut]
      by_cases hempty : content = []
      · rw [hempty, readsAt_nil]
        rfl
      rw [if_neg hempty, List.map_singleton, fitLine]
      by_cases hfits : content.length ≤ 1022
      · have hall : content.takeWhile (· ≠ 0) = content := by simpa using takeWhile_nul hnul []
        rw [readsAt_last hlast hempty hfits, hall, if_pos hfits]
        rfl
      · have hdrop : chr '\n' ∉ content.drop 1023 := fun h => hlast (List.mem_of_mem_drop h)
        have hlong := readsAt_long (n := n) hlast (Nat.lt_of_not_le hfits) []
        rw [List.append_nil, List.append_nil, afterLine_last hdrop, readsAt_nil] at hlong
        rw [hlong, if_neg hfits]
        rfl

/-! ## Handing the lines to `parse_line` -/

/-- The lines of a file one after the other, each handed to `parse_line` or reported as too long.
    The result is what was handed, with the answers. -/
def handLines (sys : Sys F) (loadFile : List Byte → M F Int) (filename dir : List Byte) :
    Nat → List (Option (List Byte)) → M F (List (List Byte × Int))
  | _, [] => pure []
  | lineno, none :: lines => do
    traceErr "%s:%d: line exceeds max length (%d bytes)"
      [filename, decimalNat (lineno + 1), decimalNat (CFG_MAX_LINE - 1)]
    handLines sys loadFile filename dir (lineno + 1) lines
  | lineno, some line :: lines => do
    let r ← parseLine sys loadFile line dir
    logFile (.line line r)
    if r < 0 then traceErr "%s:%d: parse error" [filename, decimalNat (lineno + 1)]
    let calls ← handLines sys loadFile filename dir (lineno + 1) lines
    return (line, r) :: calls

/-- Some line was too long, or answered with -1. -/
def Failed (lines : List (Option (List Byte))) (calls : List (List Byte × Int)) : Prop :=
  none ∈ lines ∨ ∃ c ∈ calls, c.2 < 0

instance (lines : List (Option (List Byte))) (calls : List (List Byte × Int)) : Decidable (Failed lines calls) :=
  inferInstanceAs (Decidable (_ ∨ _))

theorem Failed.long (lines : List (Option (List Byte))) (calls : List (List Byte × Int)) :
    Failed (none :: lines) calls :=
  .inl List.mem_cons_self

theorem Failed.call {line line' : List Byte} {lines : List (Option (List Byte))}
    {calls : List (List Byte × Int)} {r : Int} :
    Failed (some line :: lines) ((line', r) :: calls) ↔ r < 0 ∨ Failed lines calls := by
  simp only [Failed, List.mem_cons, reduceCtorEq, false_or, exists_eq_or_imp]
  exact or_left_comm

/-- The loop hands on the lines that it reads. -/
theorem loadLines_hands (loadFile : List Byte → M F Int) (filename dir : List Byte) {n : Nat} {content : List Byte}
    (hn : content.length < n) (lineno : Nat) (rc : Int) :
    loadLines sys loadFile filename dir n content lineno rc =
      handLines sys loadFile filename dir lineno (cutLines n content) >>= fun calls =>
        pure (if Failed (cutLines n content) calls then -1 else rc) := by
  induction n generalizing content lineno rc with
  | zero => exact absurd hn (Nat.not_lt_zero _)
  | succ n ih =>
    unfold loadLines
    rw [cutLines_succ]
    have hrest := fgets_rest (n := CFG_MAX_LINE - 1) (p := content)
    generalize fgets (CFG_MAX_LINE - 1) content = r at hrest
    obtain ⟨line, rest, eof⟩ := r
    dsimp only at hrest ⊢
    by_cases hempty : line = []
    · rw [if_pos hempty, if_pos hempty]
      simp [handLines, Failed]
    rw [if_neg hempty, if_neg hempty]
    have hlt : rest.length < n := Nat.lt_of_lt_of_le (hrest hempty) (Nat.le_of_lt_succ hn)
    by_cases hfits : chr '\n' ∉ line.takeWhile (· ≠ 0) ∧ eof = false
    · have hdrain : ((rest.dropWhile (· ≠ chr '\n')).drop 1).length ≤ rest.length := by
        rw [List.length_drop]
        exact Nat.le_trans (Nat.sub_le _ _) (List.length_dropWhile_le _ _)
      rw [if_pos hfits, if_pos hfits, ih (Nat.lt_of_le_of_lt hdrain hlt)]
      simp only [handLines, bind_assoc, Failed.long, if_true, ite_self]
    · rw [if_neg hfits, if_neg hfits, handLines, bind_assoc]
      refine congrArg (parseLine sys loadFile _ dir >>= ·) (funext fun r => ?_)
      rw [bind_assoc]
      refine congrArg (logFile _ >>= ·) (funext fun _ => ?_)
      by_cases hr : r < 0
      · rw [if_pos hr, if_pos hr, ih hlt]
        simp only [bind_assoc, pure_bind, Failed.call, hr, true_or, if_true, ite_self]
      · rw [if_neg hr, if_neg hr, ih hlt]
        simp only [bind_assoc, pure_bind, Failed.call, hr, false_or]

/-- Every line gets its turn and an answer, whatever the answers before it. -/
theorem handLines_spec {loadFile : List Byte → M F Int} (hload : LoadsSafely sys loadFile) (hm : Grown sys g m)
    (filename dir : List Byte) (lineno : Nat) (lines : List (Option (List Byte))) :
    wp (handLines sys loadFile filename dir lineno lines) (fun calls m' => Grown sys g m' ∧
      calls.map Prod.fst = lines.reduceOption ∧ ∀ c ∈ calls, c.2 = 0 ∨ c.2 = -1) m := by
  induction lines generalizing lineno m with
  | nil => exact wp_pure.mpr ⟨hm, rfl, by simp⟩
  | cons line lines ih =>
    cases line with
    | none =>
      rw [handLines, wp_bind, wp_traceErr]
      exact (ih (hm.report _) _).mono fun calls m' hpost => hpost
    | some line =>
      obtain ⟨g₁, hbuilt, hsafe⟩ := hm
      rw [handLines]
      refine wp.bind (parseLine_spec hload hsafe line dir) ?_
      intro r m₁ hpost
      have hm₁ : Grown sys g { m₁ with files := m₁.files ++ [.line line r] } := (hpost.grown.trans hbuilt).log _
      rw [wp_bind, wp_logFile]
      have hrest : ∀ m₂, Grown sys g m₂ →
          wp (handLines sys loadFile filename dir (lineno + 1) lines >>= fun calls => pure ((line, r) :: calls))
            (fun calls m' => Grown sys g m' ∧ calls.map Prod.fst = (some line :: lines).reduceOption ∧
              ∀ c ∈ calls, c.2 = 0 ∨ c.2 = -1) m₂ := by
        intro m₂ hm₂
        refine wp.bind (ih hm₂ (lineno + 1)) ?_
        intro calls m₃ hcalls
        obtain ⟨hgrown, hfst, hcode⟩ := hcalls
        refine wp_pure.mpr ⟨hgrown, congrArg (line :: ·) hfst, fun c hc => ?_⟩
        rcases List.mem_cons.mp hc with rfl | hc
        · exact hpost.code
        · exact hcode c hc
      by_cases hr : r < 0
      · simp only [if_pos hr]
        rw [wp_bind, wp_traceErr]
        exact hrest _ (hm₁.report _)
      · simp only [if_neg hr]
        exact hrest _ hm₁

theorem fitLine_fits (lines : List (List Byte)) :
    (lines.map fitLine).reduceOption = lines.filter fun line => decide (line.length ≤ 1022) := by
  induction lines with
  | nil => rfl
  | cons line lines ih =>
    by_cases hfits : line.length ≤ 1022
    · simp [fitLine, hfits, ih, List.reduceOption_cons_of_some]
    · simp [fitLine, hfits, ih, List.reduceOption_cons_of_none]

theorem fitLine_long (lines : List (List Byte)) : none ∈ lines.map fitLine ↔ ∃ line ∈ lines, 1022 < line.length := by
  simp [fitLine]

/-- What an open file is answered with. -/
theorem cfgLoadDepth_hands {path content : List Byte} (hopen : sys.fopen path = some content) (n : Nat) :
    cfgLoadDepth sys (n + 1) path = logFile (.opened path) >>= fun _ =>
      handLines sys (cfgLoadDepth sys n) path (dirOf path) 0 (fileLines content) >>= fun calls =>
        logFile (.closed path) >>= fun _ => pure (if Failed (fileLines content) calls then -1 else 0) := by
  rw [cfgLoadDepth, hopen]
  dsimp only
  rw [loadLines_hands _ _ _ (Nat.lt_succ_self _)]
  simp only [bind_assoc, pure_bind]
  rfl

/-- The run of an open file: its lines are handed on, and the answer is 0 when none is too long and
    each is answered with 0. -/
theorem cfgLoadDepth_calls (hm : Safe sys g m) {path content : List Byte}
    (hopen : sys.fopen path = some content) (n : Nat) :
    ∃ calls rc m', handLines sys (cfgLoadDepth sys n) path (dirOf path) 0 (fileLines content)
        { m with files := m.files ++ [.opened path] } = some (calls, m') ∧
      cfgLoadDepth sys (n + 1) path m = some (rc, { m' with files := m'.files ++ [.closed path] }) ∧
      calls.map Prod.fst = (fileLines content).reduceOption ∧ (rc = 0 ∨ rc = -1) ∧
      (rc = 0 ↔ none ∉ fileLines content ∧ ∀ c ∈ calls, c.2 = 0) := by
  obtain ⟨⟨calls, m'⟩, hrun, -, hfst, hcode⟩ :=
    handLines_spec (cfgLoadDepth_spec n) (hm.grown.log (m.files ++ [.opened path]))
    path (dirOf path) 0 (fileLines content)
  dsimp only at hfst hcode
  refine ⟨calls, if Failed (fileLines content) calls then -1 else 0, m', hrun, ?_, hfst, ?_, ?_⟩
  · rw [cfgLoadDepth_hands hopen]
    show (handLines sys (cfgLoadDepth sys n) path (dirOf path) 0 (fileLines content)
      { m with files := m.files ++ [.opened path] }).bind _ = _
    rw [hrun]
    rfl
  · split <;> simp
  · have hzero : (∀ c ∈ calls, c.2 = 0) ↔ ¬ ∃ c ∈ calls, c.2 < 0 := by
      constructor
      · intro hall hneg
        obtain ⟨c, hc, hlt⟩ := hneg
        rw [hall c hc] at hlt
        exact absurd hlt (Int.lt_irrefl 0)
      · intro hnone c hc
        rcases hcode c hc with h0 | h1
        · exact h0
        · exact absurd ⟨c, hc, h1 ▸ by decide⟩ hnone
    rw [hzero, ← not_or]
    show (if Failed _ _ then (-1 : Int) else 0) = 0 ↔ ¬ Failed _ _
    split <;> simp_all

/-- A file without a NUL: its lines of at most 1022 bytes are handed to `parse_line`, in order, and
    every longer one is reported; the answer is 0 when there is no longer one and each line is
    answered with 0. -/
theorem cfg_load_physical (hm : Safe sys g m) {path content : List Byte} (hopen : sys.fopen path = some content)
    (hnul : (0 : Byte) ∉ content) (n : Nat) :
    ∃ calls rc m', handLines sys (cfgLoadDepth sys n) path (dirOf path) 0 ((physicalLines content).map fitLine)
        { m with files := m.files ++ [.opened path] } = some (calls, m') ∧
      cfgLoadDepth sys (n + 1) path m = some (rc, { m' with files := m'.files ++ [.closed path] }) ∧
      calls.map Prod.fst = (physicalLines content).filter (fun line => decide (line.length ≤ 1022)) ∧
      (rc = 0 ∨ rc = -1) ∧
      (rc = 0 ↔ (∀ line ∈ physicalLines content, line.length ≤ 1022) ∧ ∀ c ∈ calls, c.2 = 0) := by
  have hlines : fileLines content = (physicalLines content).map fitLine := cutLines_physical (Nat.lt_succ_self _) hnul
  have hcalls := cfgLoadDepth_calls hm hopen n
  rw [hlines, fitLine_fits, fitLine_long] at hcalls
  simpa using hcalls

/-- A system with one file, found under every path. -/
def fileSys (content : List Byte) : Sys Unit := { plainSys with fopen := fun _ => some content }

theorem fileSys_new (content : List Byte) : kflCfgNew (fileSys content) [] 0 = some plainMem := rfl

/-- `A = 1` and `B` behind it, without a newline. -/
theorem cfg_load_physical_two : ∃ (calls : List (List Byte × Int)) (rc : Int) (m' : Mem Unit),
    cfgLoadDepth (fileSys (ascii ['A', ' ', '=', ' ', '1', '\n', 'B'])) 17 (ascii ['f']) plainMem = some (rc, m') ∧
      calls.map Prod.fst = [ascii ['A', ' ', '=', ' ', '1'], ascii ['B']] ∧ (rc = 0 ↔ ∀ c ∈ calls, c.2 = 0) := by
  obtain ⟨calls, rc, m', -, hload, hfst, -, hrc⟩ := cfg_load_physical
    (kflCfgNew_safe (fileSys_new (ascii ['A', ' ', '=', ' ', '1', '\n', 'B']))).1 rfl (by decide +kernel) 16
  have hfit : ∀ line ∈ physicalLines (ascii ['A', ' ', '=', ' ', '1', '\n', 'B']), line.length ≤ 1022 := by
    decide +kernel
  have hlines : (physicalLines (ascii ['A', ' ', '=', ' ', '1', '\n', 'B'])).filter
    (fun line => decide (line.length ≤ 1022)) =
    [ascii ['A', ' ', '=', ' ', '1'], ascii ['B']] := by decide +kernel
  exact ⟨calls, rc, _, hload, hfst.trans hlines, hrc.trans (and_iff_right hfit)⟩

/-! ## Lines with a NUL -/

/-- Lines, each with what is left of the file where it starts. -/
def linesFrom : List Byte → List (List Byte) → List (List Byte × List Byte)
  | _, [] => []
  | content, line :: lines => (content, line) :: linesFrom (content.drop (line.length + 1)) lines

def linesAt (content : List Byte) : List (List Byte × List Byte) := linesFrom content (physicalLines content)

-- What decides membership in the two definitions below.
local instance : LawfulBEq Byte := inferInstance

/-- The line is handed on unless it is read away: it fits, and has no NUL or no newline behind it. -/
def Due (l : List Byte × List Byte) : Prop := l.2.length ≤ 1022 ∧ ((0 : Byte) ∉ l.2 ∨ l.1 = l.2)

instance (l : List Byte × List Byte) : Decidable (Due l) :=
  inferInstanceAs (Decidable (l.2.length ≤ 1022 ∧ ((0 : Byte) ∉ l.2 ∨ l.1 = l.2)))

/-- The lines that must be handed on, with their places, each as the C string that it is. -/
def dueAt (content : List Byte) : List (List Byte × List Byte) :=
  ((linesAt content).filter fun l => decide (Due l)).map fun l => (l.1, l.2.takeWhile (· ≠ 0))

def handed (reads : List (List Byte × Option (List Byte))) : List (List Byte × List Byte) :=
  reads.filterMap fun r => r.2.map fun line => (r.1, line)

/-- The lines that are handed to `parse_line`, with their places. -/
def handedAt (content : List Byte) : List (List Byte × List Byte) := handed (readsAt (content.length + 1) content)

/-- Nothing that must be handed on is read away: a line with a NUL that fits reads away the line
    behind it, which then reads nothing away itself. -/
def NothingLost : List (List Byte × List Byte) → Prop
  | [] | [_] => True
  | l :: next :: lines =>
    if (0 : Byte) ∈ l.2 ∧ l.2.length ≤ 1022 then ¬ Due next ∧ NothingLost lines
    else NothingLost (next :: lines)

theorem NothingLost.skip {l : List Byte × List Byte} (h : ¬ ((0 : Byte) ∈ l.2 ∧ l.2.length ≤ 1022))
    (lines : List (List Byte × List Byte)) : NothingLost (l :: lines) ↔ NothingLost lines := by
  cases lines with
  | nil => exact Iff.rfl
  | cons next lines =>
    rw [NothingLost, if_neg h]

theorem linesAt_line {line : List Byte} (hline : chr '\n' ∉ line) (rest : List Byte) :
    linesAt (line ++ chr '\n' :: rest) = (line ++ chr '\n' :: rest, line) :: linesAt rest := by
  have hdrop : (line ++ chr '\n' :: rest).drop (line.length + 1) = rest := by simp
  rw [linesAt, physicalLines_line hline, linesFrom, hdrop]
  rfl

theorem linesAt_last {line : List Byte} (hline : chr '\n' ∉ line) (hempty : line ≠ []) :
    linesAt line = [(line, line)] := by
  rw [linesAt, physicalLines_last hline, if_neg hempty]
  rfl

/-- The next line, whether it ends with a newline or with the file. -/
theorem next_line {content : List Byte} (hempty : content ≠ []) :
    ∃ line, linesAt content = (content, line) :: linesAt (afterLine content) ∧
      (afterLine content).length < content.length := by
  rcases content_cases content with ⟨line, rest, hline, rfl⟩ | hlast
  · rw [afterLine_line hline]
    refine ⟨line, linesAt_line hline rest, ?_⟩
    rw [List.length_append, List.length_cons]
    omega
  · rw [afterLine_last hlast]
    exact ⟨content, linesAt_last hlast hempty, List.length_pos_of_ne_nil hempty⟩

theorem not_due_nul {line rest : List Byte} (hnul : (0 : Byte) ∈ line) : ¬ Due (line ++ chr '\n' :: rest, line) := by
  rintro ⟨-, h | h⟩
  · exact h hnul
  · cases List.append_right_eq_self.mp h

/-- The first read is handed on as its line is due, by whatever stands behind the line. -/
theorem readsAt_first {n : Nat} {content : List Byte} (hempty : content ≠ []) :
    ∃ line, linesAt content = (content, line) :: linesAt (afterLine content) ∧ (readsAt (n + 1) content).head? =
      some (content, if Due (content, line) then some (line.takeWhile (· ≠ 0)) else none) := by
  obtain ⟨line, hat, -⟩ := next_line hempty
  refine ⟨line, hat, ?_⟩
  rcases content_cases content with ⟨line', rest, hline, rfl⟩ | hlast
  · obtain rfl : line' = line := (Prod.mk.inj (List.cons.inj ((linesAt_line hline rest).symm.trans hat)).1).2
    by_cases hfits : line'.length ≤ 1022
    · by_cases hnul : (0 : Byte) ∈ line'
      · rw [readsAt_nul hline hnul hfits, if_neg (not_due_nul hnul)]
        rfl
      · have hall : line'.takeWhile (· ≠ 0) = line' := by simpa using takeWhile_nul hnul []
        rw [readsAt_fits hline hnul hfits, if_pos ⟨hfits, .inl hnul⟩, hall]
        rfl
    · rw [readsAt_long hline (Nat.lt_of_not_le hfits), if_neg fun h => hfits h.1]
      rfl
  · obtain rfl : content = line := (Prod.mk.inj (List.cons.inj ((linesAt_last hlast hempty).symm.trans hat)).1).2
    by_cases hfits : content.length ≤ 1022
    · rw [readsAt_last hlast hempty hfits, if_pos ⟨hfits, .inr rfl⟩]
      rfl
    · have hlong := readsAt_long (n := n) hlast (Nat.lt_of_not_le hfits) []
      rw [List.append_nil] at hlong
      rw [hlong, if_neg fun h => hfits h.1]
      rfl

theorem readsAt_place {n : Nat} {content : List Byte} {r : List Byte × Option (List Byte)} (h : r ∈ readsAt n content) :
    r.1.length ≤ content.length := by
  induction n generalizing content with
  | zero => cases h
  | succ n ih =>
    rw [readsAt_succ] at h
    have hrest := fgets_rest (n := CFG_MAX_LINE - 1) (p := content)
    generalize fgets (CFG_MAX_LINE - 1) content = line at hrest h
    split at h
    · cases h
    rename_i hempty
    have hlt := hrest hempty
    split at h
    · rcases List.mem_cons.mp h with rfl | h
      · exact Nat.le_refl _
      · have hafter : (afterLine line.2.1).length ≤ line.2.1.length := by
          rw [afterLine, List.length_drop]
          exact Nat.le_trans (Nat.sub_le _ _) (List.length_dropWhile_le _ _)
        exact Nat.le_trans (ih h) (Nat.le_trans hafter (Nat.le_of_lt hlt))
    · rcases List.mem_cons.mp h with rfl | h
      · exact Nat.le_refl _
      · exact Nat.le_trans (ih h) (Nat.le_of_lt hlt)

theorem dueAt_cons {content line rest : List Byte} (hlines : linesAt content = (content, line) :: linesAt rest) :
    dueAt content = (if Due (content, line) then [(content, line.takeWhile (· ≠ 0))] else []) ++ dueAt rest := by
  rw [dueAt, hlines, List.filter_cons]
  by_cases hdue : Due (content, line)
  · rw [if_pos hdue, if_pos (decide_eq_true hdue)]
    rfl
  · rw [if_neg hdue, if_neg (by simpa using hdue)]
    rfl

/-- Behind a line that reads it away: the next line is lost if it must be handed on. -/
theorem handed_behind {n : Nat} {rest : List Byte}
    (ih : (dueAt (afterLine rest)).Sublist (handed (readsAt n (afterLine rest))) ↔
      NothingLost (linesAt (afterLine rest)))
    {l : List Byte × List Byte} (hnul : (0 : Byte) ∈ l.2) (hfits : l.2.length ≤ 1022) :
    (dueAt rest).Sublist (handed (readsAt n (afterLine rest))) ↔ NothingLost (l :: linesAt rest) := by
  by_cases hempty : rest = []
  · subst hempty
    exact iff_of_true (List.nil_sublist _) trivial
  obtain ⟨next, hat, hlt⟩ := next_line hempty
  rw [hat, NothingLost, if_pos ⟨hnul, hfits⟩, ← ih, dueAt_cons hat]
  by_cases hdue : Due (rest, next)
  · rw [if_pos hdue]
    refine iff_of_false (fun hsub => ?_) fun h => h.1 hdue
    -- Every place behind is closer to the end of the file.
    obtain ⟨r, hr, hplace⟩ := List.mem_filterMap.mp (hsub.subset List.mem_cons_self)
    obtain ⟨text, -, htext⟩ := Option.map_eq_some_iff.mp hplace
    have hle := readsAt_place hr
    rw [(Prod.mk.inj htext).1] at hle
    omega
  · rw [if_neg hdue]
    exact ⟨fun h => ⟨hdue, h⟩, fun h => h.2⟩

theorem handed_iff {n : Nat} {content : List Byte} (hn : content.length < n) :
    (dueAt content).Sublist (handed (readsAt n content)) ↔ NothingLost (linesAt content) := by
  induction n using Nat.strong_induction_on generalizing content with
  | h n ih =>
  obtain ⟨n, rfl⟩ := Nat.exists_eq_succ_of_ne_zero (Nat.ne_of_gt (Nat.lt_of_le_of_lt (Nat.zero_le _) hn))
  rcases content_cases content with ⟨line, rest, hline, rfl⟩ | hlast
  · have hlen : rest.length < n := by
      rw [List.length_append, List.length_cons] at hn
      omega
    have hrest := ih n (Nat.lt_succ_self n) hlen
    rw [dueAt_cons (linesAt_line hline rest), linesAt_line hline]
    by_cases hfits : line.length ≤ 1022
    swap
    · have hdrop : chr '\n' ∉ line.drop 1023 := fun h => hline (List.mem_of_mem_drop h)
      rw [readsAt_long hline (Nat.lt_of_not_le hfits), afterLine_line hdrop, if_neg fun h => hfits h.1,
        NothingLost.skip fun h => hfits h.2, ← hrest]
      rfl
    by_cases hnul : (0 : Byte) ∈ line
    · have hafter : (afterLine rest).length ≤ rest.length := by
        rw [afterLine, List.length_drop]
        exact Nat.le_trans (Nat.sub_le _ _) (List.length_dropWhile_le _ _)
      rw [readsAt_nul hline hnul hfits, if_neg (not_due_nul hnul),
        ← handed_behind (ih n (Nat.lt_succ_self n) (Nat.lt_of_le_of_lt hafter hlen)) hnul hfits]
      rfl
    · have hall : line.takeWhile (· ≠ 0) = line := by simpa using takeWhile_nul hnul []
      rw [readsAt_fits hline hnul hfits, if_pos ⟨hfits, .inl hnul⟩, hall, NothingLost.skip fun h => hnul h.1, ← hrest]
      exact List.cons_sublist_cons
  · -- Nothing stands behind the last line.
    by_cases hempty : content = []
    · subst hempty
      exact iff_of_true (List.nil_sublist _) trivial
    have hat : linesAt content = (content, content) :: linesAt [] := linesAt_last hlast hempty
    rw [hat]
    refine iff_of_true ?_ trivial
    rw [dueAt_cons hat]
    by_cases hfits : content.length ≤ 1022
    · rw [if_pos ⟨hfits, .inr rfl⟩, readsAt_last hlast hempty hfits]
      exact List.Sublist.refl _
    · rw [if_neg fun h => hfits h.1]
      exact List.nil_sublist _

theorem handedAt_lines (content : List Byte) : (handedAt content).map Prod.snd = (fileLines content).reduceOption := by
  rw [fileLines, ← readsAt_cut, List.reduceOption, List.filterMap_map, handedAt, handed, List.map_filterMap]
  congr 1
  funext r
  obtain ⟨place, text⟩ := r
  cases text <;> rfl

/-- The lines of a file that `parse_line` is given are those in `handedAt`; each line that fits, and has no NUL
    or is the last without a newline, is among them, in order, exactly when nothing is lost behind a line with
    a NUL. -/
theorem nul_lines_iff (hm : Safe sys g m) {path content : List Byte} (hopen : sys.fopen path = some content) (n : Nat) :
    (∃ calls rc m', handLines sys (cfgLoadDepth sys n) path (dirOf path) 0 (fileLines content)
        { m with files := m.files ++ [.opened path] } = some (calls, m') ∧
      cfgLoadDepth sys (n + 1) path m = some (rc, { m' with files := m'.files ++ [.closed path] }) ∧
      calls.map Prod.fst = (handedAt content).map Prod.snd) ∧
    ((dueAt content).Sublist (handedAt content) ↔ NothingLost (linesAt content)) := by
  obtain ⟨calls, rc, m', hrun, hload, hfst, -⟩ := cfgLoadDepth_calls hm hopen n
  exact ⟨⟨calls, rc, m', hrun, hload, hfst.trans (handedAt_lines content).symm⟩, handed_iff (Nat.lt_succ_self _)⟩

/-- `B=1`, two lines with a NUL, and at the end of the file `B=1` and a NUL. -/
def keptText : List Byte :=
  [chr 'B', chr '=', chr '1', chr '\n', chr 'A', 0, chr '\n', chr 'C', 0, chr '\n', chr 'B', chr '=', chr '1', 0]

/-- The second line with a NUL is read away, and so reads nothing away. -/
theorem nul_lines_iff_kept : (dueAt keptText).Sublist (handedAt keptText) ∧
    (dueAt keptText).map Prod.snd = [[chr 'B', chr '=', chr '1'], [chr 'B', chr '=', chr '1']] := by
  have hopen : (fileSys keptText).fopen (ascii ['f']) = some keptText := rfl
  refine ⟨(nul_lines_iff (kflCfgNew_safe (fileSys_new keptText)).1 hopen 16).2.mpr ?_, by decide +kernel⟩
  have hat : linesAt keptText = [(keptText, [chr 'B', chr '=', chr '1']), (keptText.drop 4, [chr 'A', 0]),
    (keptText.drop 7, [chr 'C', 0]), (keptText.drop 10, [chr 'B', chr '=', chr '1', 0])] := by decide +kernel
  rw [hat, NothingLost.skip (by decide), NothingLost, if_pos (by decide)]
  exact ⟨by decide, trivial⟩

/-- `A`, a NUL, and `B=1` on the next line. -/
def nulText : List Byte := [chr 'A', 0, chr '\n', chr 'B', chr '=', chr '1', chr '\n']

/-- `B=1` is not handed on, and the file is answered with -1. -/
theorem line_read_away : ¬ (dueAt nulText).Sublist (handedAt nulText) ∧
    (kflCfgLoad (fileSys nulText) (ascii ['f']) plainMem).map (fun r => (r.1, r.2.files)) =
      some (-1, [.opened (ascii ['f']), .closed (ascii ['f'])]) := by
  refine ⟨fun hsub => ?_, by decide +kernel⟩
  have hdue : dueAt nulText = [([chr 'B', chr '=', chr '1', chr '\n'], [chr 'B', chr '=', chr '1'])] := by
    decide +kernel
  have hhanded : handedAt nulText = [] := by decide +kernel
  rw [hdue, hhanded] at hsub
  cases hsub

end KanekFoundations.Cfg

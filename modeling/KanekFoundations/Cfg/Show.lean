/-
  KanekFoundations.Cfg.Show — what `var_print` and `kfl_cfg_print` write.

  `Val.shown n v` is the text of a value with `n` levels left. A string stands between its
  quotes as it is, without escapes; below the last level there are three dots.

  Proved:
  - `varPrintDepth_writes`: that text, to the byte, is what is printed for a value in memory;
  - `kflCfgPrint_writes`: one line with the number of variables, and one for each variable.
-/

import KanekFoundations.Cfg.Content
import KanekFoundations.Cfg.Denote

namespace KanekFoundations.Cfg

open KanekFoundations.Lib

variable {F : Type} {sys : Sys F} {g h : SubHeap (Block F)} {m m' : Mem F} {a : Addr} {v : Val}
    {vals : List Val} {env : Env}

/-! ## The printing of a context -/

/-- `%-24s` -/
def padded (key : List Byte) : List Byte := key ++ List.replicate (24 - key.length) (chr ' ')

def entryStart (key : List Byte) : List Byte := ascii [' ', ' '] ++ padded key ++ ascii [' ', '=', ' ']

def printEntry (sys : Sys F) (key : List Byte) (val : Option Addr) : M F Unit := do
  printf (entryStart key)
  varPrint sys val
  printf [chr '\n']

/-- `dict_each( cfg->vars, fn)`, for a function that leaves the table as it is. -/
def dictEach (fn : List Byte → Option Addr → M F Unit) : List (Dict.Entry (List Byte) Addr) → M F Unit
  | [] => pure ()
  | e :: entries => do
    fn e.key e.val
    dictEach fn entries

/-- `config (%zu vars):` -/
def headerText (count : Nat) : List Byte :=
  ascii ['c', 'o', 'n', 'f', 'i', 'g', ' ', '('] ++ decimalNat count ++ ascii [' ', 'v', 'a', 'r', 's', ')', ':']

def kflCfgPrint (sys : Sys F) : M F Unit := fun m =>
  (do
    printf (headerText m.vars.dictCount ++ [chr '\n'])
    dictEach (printEntry sys) m.vars.visited) m

/-! ## The text of a value -/

def Val.shown : Nat → Val → List Byte
  | 0, _ => ascii ['.', '.', '.']
  | _ + 1, .null => nullText
  | _ + 1, .int i => decimal i
  | _ + 1, .bool b => boolText b
  | _ + 1, .str s => chr '"' :: s ++ [chr '"']
  | n + 1, .array vals => chr '[' :: (ascii [',', ' ']).intercalate (vals.map (Val.shown n)) ++ [chr ']']

theorem printSep_each {α : Type} {print : α → M F Unit} {xs : List α} {texts : List (List Byte)}
    (hx : List.Forall₂ (fun x text => Writes (print x) h text) xs texts) :
    Writes (printSep print xs) h ((ascii [',', ' ']).intercalate texts) := by
  induction hx with
  | nil => exact fun m _ => wp_pure.mpr (by simp [List.intercalate])
  | @cons x text xs texts hfirst hrest ih =>
    cases hrest with
    | nil => simpa [List.intercalate, printSep] using hfirst
    | @cons y text' ys texts' hy hys =>
      have hall := hfirst.bind (q := fun _ => _) ((printf_writes (ascii [',', ' '])).bind (q := fun _ => _) ih)
      simpa [List.intercalate, printSep] using hall

theorem DenotesAll.forall₂ {P : Option Addr → List Byte → Prop} {text : Val → List Byte} {written : List (Option Addr)}
    (hall : DenotesAll g written vals) (hP : ∀ a v, Denotes g a v → v ∈ vals → P (some a) (text v)) :
    List.Forall₂ P written (vals.map text) := by
  induction written generalizing vals with
  | nil =>
    cases hall
    exact .nil
  | cons _ _ ih =>
    cases hall with
    | cons ha hrest =>
      exact .cons (hP _ _ ha (List.mem_cons_self ..)) (ih hrest fun a v hv hmem =>
        hP a v hv (List.mem_cons_of_mem _ hmem))

/-- The print of a value, with any number of levels left. -/
theorem varPrintDepth_writes (hsub : Sub g h) (hden : Denotes g a v) (n : Nat) :
    Writes (varPrintDepth sys n (some a)) h (v.shown n) := by
  induction n generalizing a v with
  | zero => exact printf_writes _
  | succ n ih =>
    intro m hm
    unfold varPrintDepth
    cases hden with
    | null ha | int ha | bool ha =>
      rw [wp_bind, wp_load (hm ▸ hsub _ _ ha)]
      exact printf_writes _ m hm
    | str ha hc =>
      rw [wp_bind, wp_load (hm ▸ hsub _ _ ha)]
      show wp (cstr _ >>= _) _ m
      rw [wp_bind, wp_cstr (hm ▸ hsub _ _ hc)]
      exact printf_writes _ m hm
    | @array _ items cap written vals ha hi hlen hall =>
      rw [wp_bind, wp_load (hm ▸ hsub _ _ ha)]
      refine wp.bind (printf_writes _ m hm) fun _ m₁ hm₁ => ?_
      subst hm₁
      show wp (cells items >>= _) _ _
      rw [wp_bind, wp_cells (hm ▸ hsub _ _ hi), if_pos (Nat.le_refl _), List.take_length]
      have hitems :=
        printSep_each (hall.forall₂ (P := fun x text => Writes (varPrintDepth sys n x) h text) fun a v hv _ => ih hv)
      refine wp.bind (hitems _ hm) fun _ m₂ hm₂ => ?_
      subst hm₂
      refine wp_printf.mpr ?_
      simp [Val.shown]

/-! ## The text of a context -/

/-- `PRINT_MAX_DEPTH` and the value itself. -/
def entryLine (key : List Byte) (v : Val) : List Byte := entryStart key ++ v.shown (PRINT_MAX_DEPTH + 1)

def unlines (lines : List (List Byte)) : List Byte := lines.flatMap fun line => line ++ [chr '\n']

theorem unlines_cons (line : List Byte) (lines : List (List Byte)) :
    unlines (line :: lines) = line ++ chr '\n' :: unlines lines := by
  simp [unlines]

def entryLines (env : Env) (entries : List (Dict.Entry (List Byte) Addr)) : List (List Byte) :=
  entries.map fun e => entryLine e.key ((env e.key).getD .null)

/-- An entry of the table is the variable of its key. -/
theorem Represents.entry (hm : Represents sys g m env) {e : Dict.Entry (List Byte) Addr} (he : e ∈ m.vars.entries) :
    Option.Rel (Denotes g) e.val (env e.key) := by
  have hfind : m.vars.dictFind sys.xxh32 e.key = some e := (Dict.dictFind_some hm.safe.inv e.key e).mpr ⟨he, rfl⟩
  have hget : m.vars.dictGet sys.xxh32 (some e.key) = e.val := by
    show (m.vars.dictFind sys.xxh32 e.key).bind Dict.Entry.val = e.val
    rw [hfind]
    rfl
  exact hget ▸ hm.vars e.key

/-- An entry without a value is printed as null. -/
theorem varPrint_writes (hsub : Sub g h) {val : Option Addr} {x : Option Val} (hrel : Option.Rel (Denotes g) val x) :
    Writes (varPrint sys val) h ((x.getD .null).shown (PRINT_MAX_DEPTH + 1)) := by
  cases hrel with
  | some hden => exact varPrintDepth_writes hsub hden _
  | none => exact printf_writes _

theorem dictEach_writes (hsub : Sub g h) {entries : List (Dict.Entry (List Byte) Addr)}
    (he : ∀ e ∈ entries, Option.Rel (Denotes g) e.val (env e.key)) :
    Writes (dictEach (printEntry sys) entries) h (unlines (entryLines env entries)) := by
  induction entries with
  | nil => exact fun m _ => wp_pure.mpr (by simp [unlines, entryLines])
  | cons e entries ih =>
    have hline : Writes (printEntry sys e.key e.val) h (entryLine e.key ((env e.key).getD .null) ++ [chr '\n']) := by
      rw [entryLine, List.append_assoc]
      exact (printf_writes _).bind (q := fun _ => _)
        ((varPrint_writes hsub (he e (List.mem_cons_self ..))).bind (q := fun _ => _) (printf_writes _))
    have hall := hline.bind (q := fun _ => _) (ih fun e he' => he e (List.mem_cons_of_mem _ he'))
    rw [List.append_assoc, List.singleton_append] at hall
    rw [entryLines, List.map_cons, unlines_cons]
    exact hall

/-- The whole of what `kfl_cfg_print` writes. -/
def contextText (m : Mem F) (env : Env) : List Byte :=
  unlines (headerText m.vars.dictCount :: entryLines env m.vars.visited)

theorem kflCfgPrint_writes (hm : Represents sys g m env) :
    kflCfgPrint sys m = some ((), { m with out := m.out ++ contextText m env }) := by
  have hlines : Writes (dictEach (printEntry sys) m.vars.visited) m.heap.get
      (unlines (entryLines env m.vars.visited)) :=
    dictEach_writes hm.safe.within fun e he => hm.entry (Dict.mem_of_visited he)
  have hheader : Writes (F := F) (printf (headerText m.vars.dictCount ++ [chr '\n'])) m.heap.get _ := printf_writes _
  have hall := hheader.bind (q := fun _ => dictEach (printEntry sys) m.vars.visited) hlines
  have htext : headerText m.vars.dictCount ++ [chr '\n'] ++ unlines (entryLines env m.vars.visited) =
      contextText m env := by
    rw [contextText, unlines_cons, List.append_assoc, List.singleton_append]
  rw [htext] at hall
  unfold kflCfgPrint
  exact wp.run ((hall m rfl).mono fun _ m' hm' => ⟨rfl, hm'⟩)

end KanekFoundations.Cfg

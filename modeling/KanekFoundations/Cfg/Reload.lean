/-
  KanekFoundations.Cfg.Reload — what `kfl_cfg_print` writes, `kfl_cfg_load` reads back.

  A value is plain when its text says it all: integers that an `int64_t` holds, strings of at
  most 511 bytes without a quote, a backslash or a newline, arrays of at most 32 levels. The
  file starts with a line that is no statement.
-/

import KanekFoundations.Cfg.Literals
import KanekFoundations.Cfg.Physical
import KanekFoundations.Cfg.Show
import KanekFoundations.Cfg.Spacing
import KanekFoundations.Cfg.Spelled
import KanekFoundations.Dict.EachProofs

namespace KanekFoundations.Cfg

open KanekFoundations.Lib

variable {F : Type} {sys : Sys F} {g : SubHeap (Block F)} {m m' : Mem F} {p q r s : List Byte} {n : Nat} {v : Val}
    {vals : List Val}
  {t : Tok F} {env : Env}

/-! ## Plain values -/

def Val.Plain : Nat → Val → Prop
  | 0, _ => False
  | _ + 1, .null => True
  | _ + 1, .int i => -2 ^ 63 ≤ i ∧ i ≤ 2 ^ 63 - 1
  | _ + 1, .bool _ => True
  | _ + 1, .str s => s.length ≤ CFG_MAX_TOK - 1 ∧ ∀ c ∈ s, c ≠ chr '"' ∧ c ≠ chr '\\' ∧ c ≠ chr '\n' ∧ c ≠ 0
  | n + 1, .array vals => ∀ v ∈ vals, v.Plain n

/-- No word goes on here. -/
def Stops (p : List Byte) : Prop := p.head?.any (fun c => isIdentByte c || c == chr '.') = false

theorem Stops.head {ok : Byte → Bool} (hp : Stops p) (hok : ∀ c, ok c = true → (isIdentByte c || c == chr '.') = true) :
    p.head?.any ok = false := by
  cases p with
  | nil => rfl
  | cons c p => exact Bool.eq_false_iff.mpr fun h => Bool.eq_false_iff.mp hp (hok c h)

theorem Stops.num (hp : Stops p) : p.head?.any isNumByte = false := by
  refine hp.head fun c hc => ?_
  unfold isNumByte at hc
  unfold isIdentByte isalnum
  rcases Bool.or_eq_true _ _ ▸ hc with h | h
  · rw [h]
    simp
  · rw [h]
    simp

theorem Stops.ident (hp : Stops p) : p.head?.any isIdentByte = false := hp.head fun c hc => by rw [hc]; rfl

/-! ## Blanks -/

theorem Reads.blank (h : Reads sys p t q) : Reads sys (chr ' ' :: p) t q := by
  have hskip : lexSkipWs (chr ' ' :: p) = lexSkipWs p := List.dropWhile_cons_of_pos (by decide)
  unfold Reads scanTok at h ⊢
  rw [hskip]
  exact h

theorem Reads.blanks (h : Reads sys p t q) (n : Nat) : Reads sys (List.replicate n (chr ' ') ++ p) t q := by
  induction n with
  | zero => exact h
  | succ n ih => exact ih.blank

theorem Spells.blank (h : Spells sys p v q) : Spells sys (chr ' ' :: p) v q := by
  cases h with
  | null hr => exact .null hr.blank
  | bool b hr => exact .bool b hr.blank
  | int hr => exact .int hr.blank
  | str hr => exact .str hr.blank
  | array hr hitems => exact .array hr.blank hitems

theorem SpellsItems.blank (h : SpellsItems sys p vals q) : SpellsItems sys (chr ' ' :: p) vals q := by
  cases h with
  | close hr => exact .close hr.blank
  | comma hr hitems => exact .comma hr.blank hitems
  | item hv hitems => exact .item hv.blank hitems

/-! ## The words of a text -/

theorem skip_none {c : Byte} (h : isspace c = false) (r : List Byte) : lexSkipWs (c :: r) = c :: r :=
  List.dropWhile_cons_of_neg (by rw [isLexWs_isspace h]; decide)

theorem reads_ident (h : isIdentText s = true) (hp : Stops p) : Reads sys (s ++ p) (.ident s) p := by
  obtain ⟨⟨c, r, rfl, hfirst⟩, hall, hlen⟩ := isIdentText_spec h
  have hrun : lexRun isIdentByte (CFG_MAX_TOK - 1) (c :: r ++ p) = (c :: r, p) := lexRun_word hall hlen hp.ident
  rw [List.cons_append] at hrun ⊢
  unfold Reads scanTok
  rw [skip_none (isspace_identByte (identByte_first hfirst))]
  dsimp only
  rw [scanChar_ident hfirst, hrun]

/-- An integer as a literal of the lexer. -/
def intText (i : Int) : IntText :=
  ⟨decide (i < 0), decimalNat i.natAbs, decimalNat_ne_nil _, fun _ hc => decimalNat_isdigit hc⟩

theorem intText_text (i : Int) : (intText i).text = decimal i := by
  unfold intText IntText.text decimal
  dsimp only
  by_cases hi : i < 0
  · simp [hi]
  · simp [hi]

theorem intText_fits {i : Int} (hi : -2 ^ 63 ≤ i ∧ i ≤ 2 ^ 63 - 1) : (intText i).value = i ∧ (intText i).Fits := by
  have hvalue : (intText i).value = i := by
    unfold intText IntText.value
    dsimp only
    rw [digitsVal_decimalNat]
    by_cases hneg : i < 0
    · simp only [hneg, decide_true, if_true]
      omega
    · simp only [hneg, decide_false, Bool.false_eq_true, if_false]
      omega
  refine ⟨hvalue, ?_, hvalue.symm ▸ hi⟩
  have hdigits : (decimalNat i.natAbs).length ≤ 62 := decimalNat_length (by decide) (by omega)
  rw [intText_text, decimal]
  split
  · exact Nat.succ_le_succ hdigits
  · exact Nat.le_succ_of_le hdigits

theorem reads_decimal {i : Int} (hi : -2 ^ 63 ≤ i ∧ i ≤ 2 ^ 63 - 1) (hp : Stops p) :
    Reads sys (decimal i ++ p) (.int i) p := by
  obtain ⟨hvalue, hfits⟩ := intText_fits hi
  obtain ⟨c, r, htext, hfirst⟩ := (intText i).starts p
  have hspace : isspace c = false := by
    rcases hfirst with hdigit | ⟨rfl, -⟩
    · exact isspace_digit hdigit
    · decide
  have hlit : LiteralAt (decimal i ++ p) (intText i) p := by
    refine ⟨?_, hp.num⟩
    rw [← intText_text, htext]
    exact skip_none hspace r
  rw [Reads, scan_literal hlit hfits, hvalue]

/-- A string without quotes and backslashes stands for itself. -/
theorem lexString_plain {room : Nat} (hs : ∀ c ∈ s, c ≠ chr '"' ∧ c ≠ chr '\\') (hlen : s.length ≤ room)
    (p : List Byte) :
    lexString room (s ++ chr '"' :: p) = (s, chr '"' :: p) := by
  induction s generalizing room with
  | nil =>
    cases room with
    | zero => rfl
    | succ room => rfl
  | cons c s ih =>
    obtain ⟨room, rfl⟩ := Nat.exists_eq_add_one.mpr (Nat.lt_of_lt_of_le (Nat.zero_lt_succ _) hlen)
    obtain ⟨hquote, hslash⟩ := hs c (List.mem_cons_self ..)
    rw [List.cons_append]
    unfold lexString
    rw [if_neg hquote, if_neg hslash, ih (fun c hc => hs c (List.mem_cons_of_mem _ hc)) (Nat.le_of_succ_le_succ hlen)]

theorem reads_quoted (hs : ∀ c ∈ s, c ≠ chr '"' ∧ c ≠ chr '\\') (hlen : s.length ≤ CFG_MAX_TOK - 1) (p : List Byte) :
    Reads sys (chr '"' :: s ++ [chr '"'] ++ p) (.string s) p := by
  rw [List.append_assoc, List.cons_append, List.singleton_append]
  unfold Reads scanTok
  rw [skip_none (by decide)]
  dsimp only
  rw [scanChar_quote, lexString_plain hs hlen]
  rfl

/-! ## The text of a value spells it -/

theorem items_spelled {text : Val → List Byte} (hv : ∀ v ∈ vals, ∀ rest, Stops rest →
    Spells sys (text v ++ rest) v rest)
    (p : List Byte) : SpellsItems sys ((ascii [',', ' ']).intercalate (vals.map text) ++ chr ']' :: p) vals p := by
  induction vals with
  | nil => exact .close rfl
  | cons v vals ih =>
    have hfirst := hv v (List.mem_cons_self ..)
    cases vals with
    | nil =>
      have hitem := hfirst (chr ']' :: p) rfl
      simpa [List.intercalate] using SpellsItems.item hitem (.close rfl)
    | cons w vals =>
      have hrest := (ih fun v hmem => hv v (List.mem_cons_of_mem _ hmem)).blank
      have hitem :=
        hfirst (chr ',' :: chr ' ' :: ((ascii [',', ' ']).intercalate ((w :: vals).map text) ++ chr ']' :: p)) rfl
      have hall := SpellsItems.item hitem (.comma rfl hrest)
      simpa [List.intercalate, ascii] using hall

theorem shown_spells (hv : v.Plain n) (hp : Stops p) : Spells sys (v.shown n ++ p) v p := by
  induction n generalizing v p with
  | zero => exact hv.elim
  | succ n ih =>
    cases v with
    | null => exact .null (reads_ident (s := nullText) (by decide) hp)
    | bool b =>
      cases b with
      | true => exact .bool true (reads_ident (s := boolText true) (by decide) hp)
      | false => exact .bool false (reads_ident (s := boolText false) (by decide) hp)
    | int i => exact .int (reads_decimal hv hp)
    | str s => exact .str (reads_quoted (fun c hc => ⟨(hv.2 c hc).1, (hv.2 c hc).2.1⟩) hv.1 p)
    | array vals =>
      have hitems : SpellsItems sys ((ascii [',', ' ']).intercalate (vals.map (Val.shown n)) ++ chr ']' :: p) vals p :=
        items_spelled (fun v hmem rest hrest => ih (hv v hmem) hrest) p
      refine .array (q := (ascii [',', ' ']).intercalate (vals.map (Val.shown n)) ++ chr ']' :: p) ?_ hitems
      rw [Val.shown, List.cons_append, List.cons_append, List.append_assoc]
      rfl

/-! ## The bytes of a text -/

theorem mem_intercalate {sep : List Byte} {texts : List (List Byte)} {c : Byte} (hc : c ∈ sep.intercalate texts) :
    c ∈ sep ∨ ∃ text ∈ texts, c ∈ text := by
  induction texts with
  | nil => cases hc
  | cons text texts ih =>
    cases texts with
    | nil =>
      rw [List.intercalate_singleton] at hc
      exact .inr ⟨text, List.mem_cons_self, hc⟩
    | cons text' texts =>
      rw [List.intercalate_cons_cons, List.mem_append, List.mem_append] at hc
      rcases hc with (hc | hc) | hc
      · exact .inr ⟨text, List.mem_cons_self, hc⟩
      · exact .inl hc
      · rcases ih hc with hsep | ⟨t, ht, hct⟩
        · exact .inl hsep
        · exact .inr ⟨t, List.mem_cons_of_mem _ ht, hct⟩

/-- No end of a line and no end of a string. -/
def Clean (s : List Byte) : Prop := ∀ c ∈ s, c ≠ chr '\n' ∧ c ≠ 0

instance (s : List Byte) : Decidable (Clean s) := inferInstanceAs (Decidable (∀ c ∈ s, c ≠ chr '\n' ∧ c ≠ 0))

theorem Clean.append (hp : Clean p) (hq : Clean q) : Clean (p ++ q) := by
  intro c hc
  rcases List.mem_append.mp hc with hc | hc
  · exact hp c hc
  · exact hq c hc

theorem digits_clean (hs : ∀ c ∈ s, isdigit c = true) : Clean s := by
  refine fun c hc => ⟨fun heq => ?_, digit_ne_zero (hs c hc)⟩
  have hdigit := hs c hc
  rw [heq] at hdigit
  exact absurd hdigit (by decide)

theorem decimalNat_clean (n : Nat) : Clean (decimalNat n) := digits_clean fun _ hc => decimalNat_isdigit hc

theorem decimal_clean (i : Int) : Clean (decimal i) := by
  unfold decimal
  split
  · exact Clean.append (p := [chr '-']) (by decide) (decimalNat_clean _)
  · exact decimalNat_clean _

theorem ident_clean (hk : isIdentText s = true) : Clean s := by
  intro c hc
  have hbyte := (isIdentText_spec hk).2.1 c hc
  refine ⟨fun heq => ?_, fun heq => ?_⟩
  · rw [heq] at hbyte
    exact absurd hbyte (by decide)
  · rw [heq] at hbyte
    exact absurd hbyte (by decide)

theorem shown_clean (hv : v.Plain n) : Clean (v.shown n) := by
  induction n generalizing v with
  | zero => exact hv.elim
  | succ n ih =>
    cases v with
    | null => exact (by decide : Clean nullText)
    | bool b =>
      cases b with
      | true => exact (by decide : Clean (boolText true))
      | false => exact (by decide : Clean (boolText false))
    | int i => exact decimal_clean i
    | str s =>
      have htext : Clean s := fun c hc => (hv.2 c hc).2.2
      exact (Clean.append (p := [chr '"']) (by decide) htext).append (q := [chr '"']) (by decide)
    | array vals =>
      have hitems : Clean ((ascii [',', ' ']).intercalate (vals.map (Val.shown n))) := by
        intro c hc
        rcases mem_intercalate hc with hsep | ⟨text, htext, hct⟩
        · exact (by decide : Clean (ascii [',', ' '])) c hsep
        · obtain ⟨v, hmem, rfl⟩ := List.mem_map.mp htext
          exact ih (hv v hmem) c hct
      exact (Clean.append (p := [chr '[']) (by decide) hitems).append (q := [chr ']']) (by decide)

/-- The last byte of a text is no blank. -/
theorem shown_last (v : Val) (n : Nat) : ∃ r c, v.shown n = r ++ [c] ∧ isspace c = false := by
  have hdigits : ∀ i : Nat, ∃ r c, decimalNat i = r ++ [c] ∧ isspace c = false := by
    intro i
    have hne := decimalNat_ne_nil i
    exact ⟨_, _, (List.dropLast_append_getLast hne).symm, isspace_digit (decimalNat_isdigit (List.getLast_mem hne))⟩
  cases n with
  | zero => exact ⟨ascii ['.', '.'], chr '.', rfl, by decide⟩
  | succ n =>
    cases v with
    | null => exact ⟨ascii ['n', 'u', 'l'], chr 'l', rfl, by decide⟩
    | bool b =>
      cases b with
      | true => exact ⟨ascii ['t', 'r', 'u'], chr 'e', rfl, by decide⟩
      | false => exact ⟨ascii ['f', 'a', 'l', 's'], chr 'e', rfl, by decide⟩
    | int i =>
      obtain ⟨r, c, hr, hc⟩ := hdigits i.natAbs
      rw [Val.shown, decimal, hr]
      split
      · exact ⟨chr '-' :: r, c, rfl, hc⟩
      · exact ⟨r, c, rfl, hc⟩
    | str s => exact ⟨chr '"' :: s, chr '"', rfl, by decide⟩
    | array vals => exact ⟨chr '[' :: (ascii [',', ' ']).intercalate (vals.map (Val.shown n)), chr ']', rfl, by decide⟩

/-! ## Lines -/

/-- A name that is no word of its own at the start of a line. -/
structure IsKey (k : List Byte) : Prop where
  ident : isIdentText k = true
  incl : k ≠ includeText
  disp : k ≠ displayText

/-- What a line is without the blanks in front of it. -/
theorem trim_blanks {ws : List Byte} {c d : Byte} (hws : ∀ x ∈ ws, isspace x = true) (hfirst : s = c :: r)
    (hc : isspace c = false)
    (hlast : s = p ++ [d]) (hd : isspace d = false) : trim (ws ++ s) = s := by
  have hrev : (ws ++ s).reverse.dropWhile isspace = (ws ++ s).reverse := by
    rw [hlast, ← List.append_assoc, List.reverse_append, List.reverse_singleton, List.singleton_append]
    exact List.dropWhile_cons_of_neg (by rw [hd]; decide)
  unfold trim
  rw [hrev, List.reverse_reverse, List.dropWhile_append_of_pos hws, hfirst]
  exact List.dropWhile_cons_of_neg (by rw [hc]; decide)

/-- The text behind the key of an entry. -/
def entryRest (key : List Byte) (v : Val) : List Byte :=
  List.replicate (24 - key.length) (chr ' ') ++ chr ' ' :: chr '=' :: chr ' ' :: v.shown (PRINT_MAX_DEPTH + 1)

theorem entryLine_eq (key : List Byte) (v : Val) : entryLine key v = ascii [' ', ' '] ++ (key ++ entryRest key v) := by
  simp [entryLine, entryStart, padded, entryRest, ascii]

theorem entryLine_clean {k : List Byte} (hk : IsKey k) (hv : v.Plain (PRINT_MAX_DEPTH + 1)) :
    Clean (entryLine k v) := by
  have hpad : Clean (List.replicate (24 - k.length) (chr ' ')) := by
    intro c hc
    rw [(List.mem_replicate.mp hc).2]
    decide
  rw [entryLine_eq]
  refine Clean.append (by decide) ((ident_clean hk.ident).append (hpad.append ?_))
  exact Clean.append (p := [chr ' ', chr '=', chr ' ']) (by decide) (shown_clean hv)

theorem entry_lineText {k : List Byte} (hk : IsKey k) (hv : v.Plain (PRINT_MAX_DEPTH + 1))
    (hlen : (entryLine k v).length ≤ 1022) :
    lineText (entryLine k v) = k ++ entryRest k v := by
  obtain ⟨⟨c, r, hfirst, hc⟩, -⟩ := isIdentText_spec hk.ident
  obtain ⟨r', d, hlast, hd⟩ := shown_last v (PRINT_MAX_DEPTH + 1)
  rw [lineText_whole hlen fun h => (entryLine_clean hk hv 0 h).2 rfl, entryLine_eq]
  refine trim_blanks (r := r ++ entryRest k v) (c := c) (d := d) (by decide) ?_ (isspace_identByte (identByte_first hc))
    (p := k ++ (List.replicate (24 - k.length) (chr ' ') ++ chr ' ' :: chr '=' :: chr ' ' :: r')) ?_ hd
  · rw [hfirst]
    rfl
  · rw [entryRest, hlast]
    simp

/-- A line that was printed sets its variable again. -/
theorem entry_reload (hyes : sys.NoFail) (loadFile : List Byte → M F Int) (dir : List Byte) {k : List Byte}
    (hk : IsKey k)
    (hv : v.Plain (PRINT_MAX_DEPTH + 1)) (hlen : (entryLine k v).length ≤ 1022) (hm : Represents sys g m env) :
    wp (parseLine sys loadFile (entryLine k v) dir) (SetsTo sys (env.set k v) m) m := by
  have htext := entry_lineText hk hv hlen
  have hstop : Stops (entryRest k v) := by
    unfold entryRest
    cases 24 - k.length with
    | zero => rfl
    | succ n => rfl
  have hop : Reads sys (entryRest k v) .eq (chr ' ' :: v.shown (PRINT_MAX_DEPTH + 1)) :=
    Reads.blanks (p := chr ' ' :: chr '=' :: chr ' ' :: v.shown (PRINT_MAX_DEPTH + 1)) rfl _
  have hval : Spells sys (chr ' ' :: v.shown (PRINT_MAX_DEPTH + 1)) v [] := by
    have hshown : Spells sys (v.shown (PRINT_MAX_DEPTH + 1) ++ []) v [] := shown_spells hv rfl
    rw [List.append_nil] at hshown
    exact hshown.blank
  have hend : Reads sys [] .eof [] := rfl
  exact assign_spelled hyes loadFile dir (htext ▸ reads_ident hk.ident hstop) hk.incl hk.disp
    (isIdentText_spec hk.ident).2.2 hop hval
    hend nofun hm

/-! ## Files -/

theorem physicalLines_unlines {lines : List (List Byte)} (hlines : ∀ line ∈ lines, chr '\n' ∉ line) :
    physicalLines (unlines lines) = lines := by
  induction lines with
  | nil => exact physicalLines_last (by decide : chr '\n' ∉ [])
  | cons line lines ih =>
    rw [unlines_cons, physicalLines_line (hlines line List.mem_cons_self),
      ih fun l hl => hlines l (List.mem_cons_of_mem _ hl)]

/-- The lines of a file that was written line by line. -/
theorem fileLines_unlines {lines : List (List Byte)} (hclean : ∀ line ∈ lines, Clean line)
    (hlen : ∀ line ∈ lines, line.length ≤ 1022) : fileLines (unlines lines) = lines.map some := by
  have hnul : (0 : Byte) ∉ unlines lines := by
    intro h
    obtain ⟨line, hmem, hc⟩ := List.mem_flatMap.mp h
    rcases List.mem_append.mp hc with hc | hc
    · exact (hclean line hmem 0 hc).2 rfl
    · exact absurd (List.mem_singleton.mp hc) (by decide)
  rw [fileLines, cutLines_physical (Nat.lt_succ_self _) hnul,
    physicalLines_unlines fun line hmem h => (hclean line hmem _ h).1 rfl]
  exact List.map_congr_left fun line hmem => if_pos (hlen line hmem)

def configText : List Byte := ascii ['c', 'o', 'n', 'f', 'i', 'g']

theorem headerText_clean (n : Nat) : Clean (headerText n) :=
  ((by decide : Clean (ascii ['c', 'o', 'n', 'f', 'i', 'g', ' ', '('])).append (decimalNat_clean n)).append
    (by decide : Clean (ascii [' ', 'v', 'a', 'r', 's', ')', ':']))

theorem headerText_length (hn : n < 2 ^ 64) : (headerText n).length ≤ 1022 := by
  have hdigits : (decimalNat n).length ≤ 20 := decimalNat_length (by decide) (Nat.lt_trans hn (by decide))
  simp only [headerText, ascii, List.length_append, List.length_map, List.length_cons, List.length_nil]
  omega

/-- The first line that is printed is no statement. -/
theorem header_rejected (loadFile : List Byte → M F Int) (dir : List Byte) (hn : n < 2 ^ 64) (m : Mem F) :
    parseLine sys loadFile (headerText n) dir m =
      some (-1, { m with trace := m.trace ++ [⟨"expected '=' or '+=' after key '%s'", [configText]⟩] }) := by
  have htext : headerText n = configText ++ chr ' ' :: chr '(' ::
      (decimalNat n ++ ascii [' ', 'v', 'a', 'r', 's', ')', ':']) := by
    simp [headerText, configText, ascii]
  have hline : lineText (headerText n) = headerText n := by
    rw [lineText_whole (headerText_length hn) fun h => (headerText_clean n 0 h).2 rfl]
    refine trim_id (c := chr 'c') (by rw [htext]; rfl) (by decide) (d := chr ':')
      (t := ascii ['c', 'o', 'n', 'f', 'i', 'g', ' ', '('] ++ (decimalNat n ++ ascii [' ', 'v', 'a', 'r', 's', ')'])) ?_
        (by decide)
    simp [headerText, ascii]
  have hfirst : Reads sys (lineText (headerText n)) (.ident configText)
      (chr ' ' :: chr '(' :: (decimalNat n ++ ascii [' ', 'v', 'a', 'r', 's', ')', ':'])) := by
    rw [hline, htext]
    exact reads_ident (by decide) rfl
  rw [parseLine_ident loadFile dir hfirst (by decide) (by decide)]
  rfl

/-! ## The whole context -/

/-- The variables after the entries are read back over those of `env`. -/
def restored (env₁ : Env) (entries : List (Dict.Entry (List Byte) Addr)) (env : Env) : Env :=
  entries.foldl (fun env e => env.set e.key ((env₁ e.key).getD .null)) env

theorem restored_apply (env₁ : Env) (entries : List (Dict.Entry (List Byte) Addr)) (env : Env) (k : List Byte) :
    restored env₁ entries env k = if k ∈ entries.map Dict.Entry.key then some ((env₁ k).getD .null) else env k := by
  induction entries generalizing env with
  | nil => rfl
  | cons e entries ih =>
    unfold restored at ih ⊢
    rw [List.foldl_cons, ih, List.map_cons]
    by_cases hk : k ∈ entries.map Dict.Entry.key
    · rw [if_pos hk, if_pos (List.mem_cons_of_mem _ hk)]
    rw [if_neg hk]
    unfold Env.set
    by_cases heq : k = e.key
    · subst heq
      rw [if_pos rfl, if_pos List.mem_cons_self]
    · rw [if_neg heq, if_neg fun h => (List.mem_cons.mp h).elim heq hk]

/-- What a context must be for its print to say it all. -/
def Printable (env₁ : Env) (e : Dict.Entry (List Byte) Addr) : Prop :=
  IsKey e.key ∧ ((env₁ e.key).getD .null).Plain (PRINT_MAX_DEPTH + 1) ∧
    (entryLine e.key ((env₁ e.key).getD .null)).length ≤ 1022

/-- The memory after a line and its answer are on record. -/
def answered (path line : List Byte) (lineno : Nat) (r : Int) (m : Mem F) : Mem F :=
  { m with
    files := m.files ++ [.line line r]
    trace := if r < 0 then m.trace ++ [⟨"%s:%d: parse error", [path, decimalNat (lineno + 1)]⟩] else m.trace }

theorem Represents.answered (hm : Represents sys g m env) (path line : List Byte) (lineno : Nat) (r : Int) :
    Represents sys g (answered path line lineno r m) env :=
  ⟨⟨hm.safe.within, hm.safe.closed, hm.safe.inv, hm.safe.vars⟩, hm.vars⟩

/-- The rule of a line that is handed on. -/
theorem wp_handLine {loadFile : List Byte → M F Int} {path dir line : List Byte} {lineno : Nat}
    {lines : List (Option (List Byte))}
    {Q : List (List Byte × Int) → Mem F → Prop} (h : wp (parseLine sys loadFile line dir) (fun r m₁ =>
      wp (handLines sys loadFile path dir (lineno + 1) lines) (fun calls => Q ((line, r) :: calls))
        (answered path line lineno r m₁)) m) :
    wp (handLines sys loadFile path dir lineno (some line :: lines)) Q m := by
  refine wp.bind h fun r m₁ hpost => ?_
  rw [wp_bind, wp_logFile]
  unfold answered at hpost
  by_cases hr : r < 0
  · simp only [if_pos hr] at hpost ⊢
    rw [wp_bind, wp_traceErr]
    exact wp.bind hpost fun _ _ hq => wp_pure.mpr hq
  · simp only [if_neg hr] at hpost ⊢
    exact wp.bind hpost fun _ _ hq => wp_pure.mpr hq

theorem entries_reload (hyes : sys.NoFail) (loadFile : List Byte → M F Int) (path dir : List Byte) {env₁ : Env}
    {entries : List (Dict.Entry (List Byte) Addr)} (he : ∀ e ∈ entries, Printable env₁ e) (lineno : Nat)
    (hm : Represents sys g m env) :
    wp (handLines sys loadFile path dir lineno ((entryLines env₁ entries).map some))
      (fun _ m' => m'.trace = m.trace ∧ ∃ g', Represents sys g' m' (restored env₁ entries env)) m := by
  induction entries generalizing lineno g m env with
  | nil => exact wp_pure.mpr ⟨rfl, g, hm⟩
  | cons e entries ih =>
    obtain ⟨hk, hv, hlen⟩ := he e List.mem_cons_self
    refine wp_handLine ((entry_reload hyes loadFile dir hk hv hlen hm).mono fun rc m₁ hpost => ?_)
    obtain ⟨htrace, rfl, g₁, hm₁⟩ := hpost
    have hrest := ih (fun e he' => he e (List.mem_cons_of_mem _ he')) (lineno + 1)
      (hm₁.answered path (entryLine e.key ((env₁ e.key).getD .null)) lineno 0)
    exact hrest.mono fun _ m₂ hpost => ⟨hpost.1.trans htrace, hpost.2⟩

/-- What the first line is complained about with. -/
def headerReports (path : List Byte) : List Report :=
  [⟨"expected '=' or '+=' after key '%s'", [configText]⟩, ⟨"%s:%d: parse error", [path, decimalNat 1]⟩]

theorem context_reload (hyes : sys.NoFail) (loadFile : List Byte → M F Int) (path dir : List Byte)
    (hn : n < 2 ^ 64) {env₁ : Env}
    {entries : List (Dict.Entry (List Byte) Addr)} (he : ∀ e ∈ entries, Printable env₁ e)
    (hm : Represents sys g m env) :
    wp (handLines sys loadFile path dir 0 (some (headerText n) :: (entryLines env₁ entries).map some))
      (fun calls m' => (∃ c ∈ calls, c.2 < 0) ∧ m'.trace = m.trace ++ headerReports path ∧
        ∃ g', Represents sys g' m' (restored env₁ entries env)) m := by
  refine wp_handLine ((wp_run (header_rejected loadFile dir hn m)).mpr ?_)
  have hm₁ :=
    (hm.report (m.trace ++ [⟨"expected '=' or '+=' after key '%s'", [configText]⟩])).answered path (headerText n) 0 (-1)
  refine (entries_reload hyes loadFile path dir he 1 hm₁).mono fun calls m' hpost => ?_
  refine ⟨⟨_, List.mem_cons_self, (by decide : (-1 : Int) < 0)⟩, hpost.1.trans ?_, hpost.2⟩
  show m.trace ++ _ ++ _ = _
  rw [List.append_assoc]
  rfl

/-- `A = [1, "x"]` -/
def listVal : Val := .array [.int 1, .str (ascii ['x'])]

def listEnv : Env := Env.set (fun _ => none) (ascii ['A']) listVal

def listText : List Byte := unlines [headerText 1, entryLine (ascii ['A']) listVal]

def listMem : Mem Unit :=
  ((parseLine (fileSys listText) (cfgLoadDepth (fileSys listText) 0) (entryLine (ascii ['A']) listVal) [] plainMem).getD
    (0, plainMem)).2

theorem listVal_printable : IsKey (ascii ['A']) ∧ listVal.Plain (PRINT_MAX_DEPTH + 1) ∧
    (entryLine (ascii ['A']) listVal).length ≤ 1022 := by
  refine ⟨⟨by decide, by decide, by decide⟩, ?_, by decide +kernel⟩
  intro v hv
  rcases List.mem_cons.mp hv with rfl | hv
  · exact ⟨by decide, by decide⟩
  · rw [List.mem_singleton.mp hv]
    exact ⟨by decide, by decide⟩

theorem listMem_represents : ∃ g, Represents (fileSys listText) g listMem listEnv := by
  obtain ⟨hk, hv, hlen⟩ := listVal_printable
  obtain ⟨⟨rc, m'⟩, hrun, -, -, g', hm'⟩ :=
    entry_reload (fun _ => rfl) (cfgLoadDepth (fileSys listText) 0) [] hk hv hlen
    (kflCfgNew_represents (fileSys_new listText))
  refine ⟨g', ?_⟩
  unfold listMem
  rw [hrun]
  exact hm'

end KanekFoundations.Cfg

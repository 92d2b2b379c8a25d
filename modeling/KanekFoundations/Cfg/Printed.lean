/-
  KanekFoundations.Cfg.Printed — the tokeniser on printed words.

  Proved:
  - `strtoll_decimal`: a printed integer is read back, or the nearest one in range;
  - `scan_spaced`: a printed word is read as its token, up to the next word;
  - `trim_print`: a printed line has no blanks at its ends, and no NUL.
-/

import KanekFoundations.Cfg.Syntax

namespace KanekFoundations.Cfg

open KanekFoundations.Lib

variable {F : Type} {sys : Sys F}

/-! ## Digits -/

theorem decimalNat_digits {n : Nat} {c : Byte} (h : c ∈ decimalNat n) : ∃ d < 10, c = BitVec.ofNat 8 (48 + d) := by
  unfold decimalNat at h
  split at h
  · exact ⟨0, by decide, List.mem_singleton.mp h⟩
  · obtain ⟨d, hd, rfl⟩ := List.mem_map.mp h
    exact ⟨d, Nat.digits_lt_base (by decide) (List.mem_reverse.mp hd), rfl⟩

theorem digit_toNat {d : Nat} (h : d < 10) : (BitVec.ofNat 8 (48 + d)).toNat = 48 + d := by
  rw [BitVec.toNat_ofNat]
  omega

theorem decimalNat_isdigit {n : Nat} {c : Byte} (h : c ∈ decimalNat n) : isdigit c = true := by
  obtain ⟨d, hd, rfl⟩ := decimalNat_digits h
  unfold isdigit
  rw [digit_toNat hd]
  simp
  omega

theorem decimalNat_ne_nil (n : Nat) : decimalNat n ≠ [] := by
  unfold decimalNat
  split
  · exact List.cons_ne_nil _ _
  · rename_i hn
    rw [Ne, List.map_eq_nil_iff, List.reverse_eq_nil_iff]
    exact Nat.digits_ne_nil_iff_ne_zero.mpr hn

theorem decimalNat_length {n k : Nat} (hk : 0 < k) (h : n < 10 ^ k) : (decimalNat n).length ≤ k := by
  unfold decimalNat
  split
  · exact hk
  · rw [List.length_map, List.length_reverse]
    exact (Nat.digits_length_le_iff (by decide) n).mpr h

theorem digitsVal_decimalNat (n : Nat) : digitsVal (decimalNat n) = n := by
  unfold decimalNat
  split
  · rename_i hn
    rw [hn]
    decide
  · unfold digitsVal
    rw [List.foldl_map, List.foldl_reverse]
    have hdigits : ∀ d ∈ Nat.digits 10 n, d < 10 := fun d hd => Nat.digits_lt_base (by decide) hd
    have hval := Nat.ofDigits_digits 10 n
    rw [Nat.ofDigits_eq_foldr] at hval
    refine Eq.trans (List.foldr_ext _ _ _ fun d hd acc => ?_) hval
    rw [digit_toNat (hdigits d hd), Nat.add_sub_cancel_left, Nat.add_comm, Nat.mul_comm]
    rfl

theorem isspace_digit {c : Byte} (h : isdigit c = true) : isspace c = false := by
  unfold isdigit at h
  unfold isspace
  rw [Bool.and_eq_true, decide_eq_true_eq, decide_eq_true_eq] at h
  rw [Bool.or_eq_false_iff]
  refine ⟨?_, by simp; omega⟩
  refine beq_eq_false_iff_ne.mpr ?_
  intro heq
  subst heq
  exact absurd h.1 (by decide)

theorem isLexWs_isspace {c : Byte} (h : isspace c = false) : isLexWs c = false := by
  have hne : ∀ k : Byte, isspace k = true → c ≠ k := by
    intro k hk heq
    subst heq
    rw [hk] at h
    cases h
  unfold isLexWs
  rw [beq_eq_false_iff_ne.mpr (hne _ (by decide)), beq_eq_false_iff_ne.mpr (hne _ (by decide)),
    beq_eq_false_iff_ne.mpr (hne _ (by decide))]
  rfl

theorem takeWhile_digits {s : List Byte} (h : ∀ c ∈ s, isdigit c = true) : s.takeWhile isdigit = s :=
  List.takeWhile_eq_self_iff.mpr h

/-- The digits behind a sign, or without one. -/
theorem strtoll_digits (sign : Bool) {digits : List Byte} (hdig : ∀ c ∈ digits, isdigit c = true) (hne : digits ≠ []) :
    strtoll ((if sign then [chr '-'] else []) ++ digits) =
      clampI64 (if sign then -(digitsVal digits : Int) else digitsVal digits) := by
  cases sign with
  | true =>
    have hsign : (chr '-' :: digits).dropWhile isspace = chr '-' :: digits := List.dropWhile_cons_of_neg (by decide)
    show strtoll (chr '-' :: digits) = _
    unfold strtoll
    rw [hsign]
    show (if chr '-' = chr '-' then _ else _) = _
    rw [if_pos rfl, takeWhile_digits hdig]
    rfl
  | false =>
    cases digits with
    | nil => exact absurd rfl hne
    | cons c r =>
      have hc := hdig c (List.mem_cons_self ..)
      show strtoll (c :: r) = _
      unfold strtoll
      rw [List.dropWhile_cons_of_neg (by rw [isspace_digit hc]; decide)]
      show (if c = chr '-' then _ else if c = chr '+' then _ else _) = _
      rw [if_neg, if_neg, takeWhile_digits hdig]
      · rfl
      · intro heq
        subst heq
        exact absurd hc (by decide)
      · intro heq
        subst heq
        exact absurd hc (by decide)

theorem strtoll_decimal (i : Int) : strtoll (decimal i) = clampI64 i := by
  have hread := fun sign => strtoll_digits sign (fun _ hc => decimalNat_isdigit hc) (decimalNat_ne_nil i.natAbs)
  rw [digitsVal_decimalNat] at hread
  unfold decimal
  by_cases hi : i < 0
  · have hneg : -(i.natAbs : Int) = i := by omega
    rw [if_pos hi]
    exact (hread true).trans (congrArg clampI64 hneg)
  · have hpos : (i.natAbs : Int) = i := by omega
    rw [if_neg hi]
    exact (hread false).trans (congrArg clampI64 hpos)

/-! ## Runs of the lexer over what is printed -/

/-- Where a word ends: at the end of the line or at a blank. -/
def Break (p : List Byte) : Prop := p = [] ∨ ∃ r, p = chr ' ' :: r

theorem spaced_break (ws : List Word) : Break (spaced ws) := by
  cases ws with
  | nil => exact .inl rfl
  | cons w ws => exact .inr ⟨_, rfl⟩

theorem Break.head {ok : Byte → Bool} {p : List Byte} (hp : Break p) (hblank : ok (chr ' ') = false) :
    p.head?.any ok = false := by
  rcases hp with rfl | ⟨r, rfl⟩
  · rfl
  · exact hblank

/-- A run ends where its bytes do. -/
theorem lexRun_word {ok : Byte → Bool} {s p : List Byte} {room : Nat} (hs : ∀ c ∈ s, ok c = true)
    (hlen : s.length ≤ room)
    (hp : p.head?.any ok = false) : lexRun ok room (s ++ p) = (s, p) := by
  induction s generalizing room with
  | nil =>
    cases room with
    | zero => rfl
    | succ room =>
      cases p with
      | nil => rfl
      | cons c p =>
        have hc : ok c = false := hp
        show (if ok c = true then _ else _) = _
        rw [if_neg (by rw [hc]; decide)]
  | cons c s ih =>
    cases room with
    | zero => exact absurd hlen (Nat.not_succ_le_zero _)
    | succ room =>
      rw [List.cons_append]
      unfold lexRun
      rw [if_pos (hs c (List.mem_cons_self ..)), ih (fun c hc => hs c (List.mem_cons_of_mem _ hc))
        (Nat.le_of_succ_le_succ hlen)]

/-- An escaped byte is stored as itself, whether it takes one byte of the line or two. -/
theorem lexString_byte (room : Nat) (c : Byte) (p : List Byte) :
    lexString (room + 1) (escape c ++ p) = (c :: (lexString room p).1, (lexString room p).2) := by
  have hesc : ∀ d, unescape d = c → lexString (room + 1) (chr '\\' :: d :: p) =
      (c :: (lexString room p).1, (lexString room p).2) := by
    intro d hd
    show (unescape d :: (lexString room p).1, (lexString room p).2) = _
    rw [hd]
  by_cases hq : c = chr '"'
  · subst hq
    exact hesc (chr '"') (by decide)
  by_cases hb : c = chr '\\'
  · subst hb
    exact hesc (chr '\\') (by decide)
  by_cases hn : c = chr '\n'
  · subst hn
    exact hesc (chr 'n') (by decide)
  by_cases ht : c = chr '\t'
  · subst ht
    exact hesc (chr 't') (by decide)
  have hplain : escape c = [c] := by
    unfold escape
    rw [if_neg hq, if_neg hb, if_neg hn, if_neg ht]
  rw [hplain, List.singleton_append]
  conv => lhs; unfold lexString
  rw [if_neg hq, if_neg hb]

theorem lexString_escape {s : List Byte} {room : Nat} (hlen : s.length ≤ room) (p : List Byte) :
    lexString room (s.flatMap escape ++ chr '"' :: p) = (s, chr '"' :: p) := by
  induction s generalizing room with
  | nil =>
    cases room with
    | zero => rfl
    | succ room => rfl
  | cons c s ih =>
    cases room with
    | zero => exact absurd hlen (Nat.not_succ_le_zero _)
    | succ room => rw [List.flatMap_cons, List.append_assoc, lexString_byte, ih (Nat.le_of_succ_le_succ hlen)]

/-! ## Words -/

/-- A token after a blank. -/
theorem scan_char {c : Byte} (h : isspace c = false) (r : List Byte) :
    scanTok sys (chr ' ' :: c :: r) = scanChar sys c r := by
  have hws : (chr ' ' :: c :: r).dropWhile isLexWs = c :: r := by
    rw [List.dropWhile_cons_of_pos (by decide)]
    exact List.dropWhile_cons_of_neg (by rw [isLexWs_isspace h]; decide)
  unfold scanTok lexSkipWs
  rw [hws]

/-- A character of an identifier, or of a number, is none of the others. -/
theorem scanChar_ident {c : Byte} (h : (isalpha c || c == chr '_') = true) (r : List Byte) :
    scanChar sys c r = ⟨.ident (lexRun isIdentByte (CFG_MAX_TOK - 1) (c :: r)).1,
      (lexRun isIdentByte (CFG_MAX_TOK - 1) (c :: r)).2, []⟩ := by
  have hne : ∀ k : Byte, (isalpha k || k == chr '_') = false → c ≠ k := by
    intro k hk heq
    subst heq
    rw [hk] at h
    cases h
  have hdigit : ¬ (isdigit c = true ∨ c = chr '-' ∧ r.head?.any isdigit = true) := by
    intro hor
    rcases hor with hd | ⟨hd, -⟩
    · unfold isdigit at hd
      unfold isalpha at h
      simp at h hd
      rcases h with h | h
      · omega
      · rw [h] at hd
        exact absurd hd.2 (by decide)
    · exact hne _ (by decide) hd
  have hident : isalpha c = true ∨ c = chr '_' := by
    rw [Bool.or_eq_true, beq_iff_eq] at h
    exact h
  unfold scanChar
  rw [if_neg (hne _ (by decide)), if_neg (hne _ (by decide)), if_neg (hne _ (by decide)), if_neg (hne _ (by decide)),
    if_neg (hne _ (by decide)), if_neg (hne _ (by decide)), if_neg (hne _ (by decide)), if_neg (hne _ (by decide)),
    if_neg hdigit, if_pos hident]

theorem scanChar_number {c : Byte} {r : List Byte} (h : isdigit c = true ∨ c = chr '-' ∧ r.head?.any isdigit = true) :
    scanChar sys c r = lexNumber sys (c :: r) := by
  have hne : ∀ k : Byte, isdigit k = false → k ≠ chr '-' → c ≠ k := by
    intro k hk hk' heq
    subst heq
    rcases h with h | ⟨h, -⟩
    · rw [hk] at h
      cases h
    · exact hk' h
  unfold scanChar
  rw [if_neg (hne _ (by decide) (by decide)), if_neg (hne _ (by decide) (by decide)),
    if_neg (hne _ (by decide) (by decide)),
    if_neg (hne _ (by decide) (by decide)), if_neg (hne _ (by decide) (by decide)),
    if_neg (hne _ (by decide) (by decide)),
    if_neg (hne _ (by decide) (by decide)), if_neg (hne _ (by decide) (by decide)), if_pos h]

theorem no_dots {s : List Byte} (h : ∀ c ∈ s, isdigit c = true) : s.count (chr '.') = 0 := by
  refine List.count_eq_zero.mpr fun hmem => ?_
  exact absurd (h _ hmem) (by decide)

/-- The digits of a number, after its sign. -/
theorem lexNumber_digits {digits p : List Byte} (sign : Bool) (hdig : ∀ c ∈ digits, isdigit c = true)
    (hne : digits ≠ [])
    (hlen : (if sign then 1 else 0) + digits.length ≤ 63) (hp : p.head?.any isNumByte = false) :
    lexNumber sys ((if sign then [chr '-'] else []) ++ digits ++ p) =
      ⟨.int (strtoll ((if sign then [chr '-'] else []) ++ digits)), p, []⟩ := by
  have hrun : ∀ room, digits.length ≤ room → lexRun isNumByte room (digits ++ p) = (digits, p) := by
    refine fun room hroom => lexRun_word (fun c hc => ?_) hroom hp
    rw [isNumByte, hdig c hc]
    rfl
  -- What is left once the sign is off.
  have hbody : ∀ (pre : List Byte) (room : Nat), digits.length ≤ room →
      (⟨if 0 < (lexRun isNumByte room (digits ++ p)).1.count (chr '.') then
          .float (sys.strtod (pre ++ (lexRun isNumByte room (digits ++ p)).1))
        else .int (strtoll (pre ++ (lexRun isNumByte room (digits ++ p)).1)), (lexRun isNumByte room (digits ++ p)).2,
        if 1 < (lexRun isNumByte room (digits ++ p)).1.count (chr '.') then
          [⟨"malformed numeric literal '%s'", [pre ++ (lexRun isNumByte room (digits ++ p)).1]⟩] else []⟩ : Scan F) =
        ⟨.int (strtoll (pre ++ digits)), p, []⟩ := by
    intro pre room hroom
    rw [hrun room hroom, no_dots hdig]
    rfl
  cases sign with
  | true => exact hbody [chr '-'] (63 - 1) (by simp only [if_true] at hlen; omega)
  | false =>
    have hhead : ¬ (digits ++ p).head? = some (chr '-') := by
      cases digits with
      | nil => exact absurd rfl hne
      | cons c r =>
        intro hc
        have hd := hdig c (List.mem_cons_self ..)
        rw [Option.some.inj hc] at hd
        exact absurd hd (by decide)
    have hroom : digits.length ≤ 63 := by simpa using hlen
    show lexNumber sys (digits ++ p) = ⟨.int (strtoll ([] ++ digits)), p, []⟩
    unfold lexNumber
    rw [if_neg hhead]
    exact hbody [] 63 hroom

theorem scan_num {i : Int} (hfit : -10 ^ 62 < i ∧ i < 10 ^ 63) {p : List Byte} (hp : Break p) :
    scanTok sys (chr ' ' :: (decimal i ++ p)) = ⟨.int (clampI64 i), p, []⟩ := by
  have hdig : ∀ c ∈ decimalNat i.natAbs, isdigit c = true := fun c hc => decimalNat_isdigit hc
  have hne := decimalNat_ne_nil i.natAbs
  have hblank : p.head?.any isNumByte = false := hp.head (by decide)
  rw [← strtoll_decimal i]
  unfold decimal
  by_cases hi : i < 0
  · have hlen : (decimalNat i.natAbs).length ≤ 62 := decimalNat_length (by decide) (by omega)
    rw [if_pos hi]
    have hfirst : (decimalNat i.natAbs ++ p).head?.any isdigit = true := by
      cases hd : decimalNat i.natAbs with
      | nil => exact absurd hd hne
      | cons c r => exact hdig c (hd ▸ List.mem_cons_self ..)
    show scanChar sys (chr '-') (decimalNat i.natAbs ++ p) = _
    rw [scanChar_number (.inr ⟨rfl, hfirst⟩)]
    have hroom : (if true then 1 else 0) + (decimalNat i.natAbs).length ≤ 63 := by
      rw [if_pos rfl]
      omega
    exact lexNumber_digits true hdig hne hroom hblank
  · have hlen : (decimalNat i.natAbs).length ≤ 63 := decimalNat_length (by decide) (by omega)
    rw [if_neg hi]
    have hroom : (if false then 1 else 0) + (decimalNat i.natAbs).length ≤ 63 := by
      rw [if_neg (by decide)]
      omega
    have hnum : lexNumber sys (decimalNat i.natAbs ++ p) = ⟨.int (strtoll (decimalNat i.natAbs)), p, []⟩ :=
      lexNumber_digits false hdig hne hroom hblank
    cases hd : decimalNat i.natAbs with
    | nil => exact absurd hd hne
    | cons c r =>
      rw [hd] at hnum hdig
      have hc := hdig c (List.mem_cons_self ..)
      rw [List.cons_append, scan_char (isspace_digit hc)]
      exact (scanChar_number (.inl hc)).trans hnum

def Word.tok : Word → Tok F
  | .ident x => .ident x.1
  | .str s => .string s.1
  | .num i => .int (clampI64 i)
  | .eq => .eq
  | .pluseq => .pluseq
  | .plus => .plus
  | .lbracket => .lbracket
  | .rbracket => .rbracket
  | .comma => .comma

theorem isIdentText_spec {s : List Byte} (h : isIdentText s = true) :
    (∃ c r, s = c :: r ∧ (isalpha c || c == chr '_') = true) ∧ (∀ c ∈ s, isIdentByte c = true) ∧
    s.length ≤ CFG_MAX_TOK - 1 := by
  unfold isIdentText at h
  rw [Bool.and_eq_true, Bool.and_eq_true, decide_eq_true_eq, List.all_eq_true] at h
  obtain ⟨⟨hhead, hall⟩, hlen⟩ := h
  refine ⟨?_, hall, hlen⟩
  cases s with
  | nil => cases hhead
  | cons c r => exact ⟨c, r, rfl, hhead⟩

theorem isspace_identByte {c : Byte} (h : isIdentByte c = true) : isspace c = false := by
  have hne : c ≠ chr ' ' := by
    intro heq
    subst heq
    exact absurd h (by decide)
  unfold isIdentByte isalnum isalpha isdigit at h
  unfold isspace
  rw [beq_eq_false_iff_ne.mpr hne, Bool.false_or, Bool.and_eq_false_iff]
  refine .inr (decide_eq_false fun hle => ?_)
  simp at h
  rcases h with (h | h) | h
  · omega
  · omega
  · rw [h] at hle
    exact absurd hle (by decide)

theorem identByte_first {c : Byte} (h : (isalpha c || c == chr '_') = true) : isIdentByte c = true := by
  unfold isIdentByte isalnum
  rw [Bool.or_eq_true] at h ⊢
  rcases h with h | h
  · exact .inl (by rw [h]; rfl)
  · exact .inr h

theorem scan_ident {s p : List Byte} (h : isIdentText s = true) (hp : Break p) :
    scanTok sys (chr ' ' :: (s ++ p)) = ⟨.ident s, p, []⟩ := by
  obtain ⟨⟨c, r, rfl, hfirst⟩, hall, hlen⟩ := isIdentText_spec h
  have hrun : lexRun isIdentByte (CFG_MAX_TOK - 1) (c :: r ++ p) = (c :: r, p) :=
    lexRun_word hall hlen (hp.head (by decide))
  rw [List.cons_append, scan_char (isspace_identByte (identByte_first hfirst)), scanChar_ident hfirst]
  rw [List.cons_append] at hrun
  rw [hrun]

theorem scan_str {s : List Byte} (h : s.length ≤ CFG_MAX_TOK - 1) (p : List Byte) :
    scanTok sys (chr ' ' :: (chr '"' :: s.flatMap escape ++ [chr '"'] ++ p)) = ⟨.string s, p, []⟩ := by
  have hbody : lexString (CFG_MAX_TOK - 1) (s.flatMap escape ++ [chr '"'] ++ p) = (s, chr '"' :: p) := by
    rw [List.append_assoc]
    exact lexString_escape h p
  rw [List.cons_append, List.cons_append, scan_char (by decide)]
  show (if (lexString (CFG_MAX_TOK - 1) (s.flatMap escape ++ [chr '"'] ++ p)).2.head? = some (chr '"') then
      (⟨.string (lexString (CFG_MAX_TOK - 1) (s.flatMap escape ++ [chr '"'] ++ p)).1,
        (lexString (CFG_MAX_TOK - 1) (s.flatMap escape ++ [chr '"'] ++ p)).2.drop 1, []⟩ : Scan F) else _) = _
  rw [hbody]
  rfl

theorem spaced_cons (w : Word) (ws : List Word) : spaced (w :: ws) = chr ' ' :: (w.text ++ spaced ws) := rfl

theorem spaced_append (ws ws' : List Word) : spaced (ws ++ ws') = spaced ws ++ spaced ws' := List.flatMap_append

/-- A printed word is read as its token, up to the next word. -/
theorem scan_spaced {w : Word} (hfit : w.fits) (ws : List Word) :
    scanTok sys (spaced (w :: ws)) = ⟨w.tok, spaced ws, []⟩ := by
  have hp := spaced_break ws
  rw [spaced_cons]
  cases w with
  | ident x => exact scan_ident x.2 hp
  | str s => exact scan_str s.2.1 _
  | num i => exact scan_num hfit hp
  | plus =>
    have hhead : (spaced ws).head? ≠ some (chr '=') := by
      rcases hp with hnil | ⟨r, hr⟩
      · rw [hnil]
        exact fun h => by cases h
      · rw [hr]
        exact fun h => absurd (Option.some.inj h) (by decide)
    show (if (spaced ws).head? = some (chr '=') then _ else (⟨.plus, spaced ws, []⟩ : Scan F)) = _
    rw [if_neg hhead]
    rfl
  | eq | pluseq | lbracket | rbracket | comma => rfl

/-! ## Lines -/

theorem digit_ne_zero {c : Byte} (h : isdigit c = true) : c ≠ 0 := by
  intro heq
  subst heq
  exact absurd h (by decide)

/-- A word starts and ends with a byte that is no blank, and has no NUL. -/
theorem word_text (w : Word) :
    (∃ c r, w.text = c :: r ∧ isspace c = false) ∧ (∃ r c, w.text = r ++ [c] ∧ isspace c = false) ∧
    (0 : Byte) ∉ w.text := by
  have hall : ∀ s : List Byte, s ≠ [] → (∀ c ∈ s, isspace c = false ∧ c ≠ 0) →
      (∃ c r, s = c :: r ∧ isspace c = false) ∧ (∃ r c, s = r ++ [c] ∧ isspace c = false) ∧ (0 : Byte) ∉ s := by
    intro s hne hs
    refine ⟨?_, ?_, fun h => (hs 0 h).2 rfl⟩
    · cases s with
      | nil => exact absurd rfl hne
      | cons c r => exact ⟨c, r, rfl, (hs c (List.mem_cons_self ..)).1⟩
    · exact ⟨s.dropLast, s.getLast hne, (List.dropLast_append_getLast hne).symm, (hs _ (List.getLast_mem hne)).1⟩
  cases w with
  | ident x =>
    obtain ⟨⟨c, r, hx, -⟩, hbytes, -⟩ := isIdentText_spec x.2
    refine hall x.1 (by rw [hx]; exact List.cons_ne_nil _ _) fun c hc => ⟨isspace_identByte (hbytes c hc), ?_⟩
    intro heq
    subst heq
    exact absurd (hbytes 0 hc) (by decide)
  | str s =>
    refine ⟨⟨chr '"', _, rfl, by decide⟩, ⟨chr '"' :: s.1.flatMap escape, chr '"', rfl, by decide⟩, fun h => ?_⟩
    have hmem : (0 : Byte) ∈ s.1.flatMap escape := by
      rcases List.mem_append.mp h with h | h
      · rcases List.mem_cons.mp h with h | h
        · exact absurd h (by decide)
        · exact h
      · exact absurd (List.mem_singleton.mp h) (by decide)
    obtain ⟨c, hc, hesc⟩ := List.mem_flatMap.mp hmem
    have hzero : ∀ c : Byte, (0 : Byte) ∈ escape c → c = 0 := by
      intro c hc
      unfold escape at hc
      repeat' split at hc
      all_goals simp at hc
      all_goals first | exact hc.symm | exact absurd hc (by decide)
    exact s.2.2 (hzero c hesc ▸ hc)
  | num i =>
    have hdig : ∀ c ∈ decimalNat i.natAbs, isspace c = false ∧ c ≠ 0 := fun c hc =>
      ⟨isspace_digit (decimalNat_isdigit hc), digit_ne_zero (decimalNat_isdigit hc)⟩
    unfold Word.text decimal
    dsimp only
    split
    · refine hall _ (List.cons_ne_nil _ _) fun c hc => ?_
      rcases List.mem_cons.mp hc with rfl | hc
      · decide
      · exact hdig c hc
    · exact hall _ (decimalNat_ne_nil _) hdig
  | eq | pluseq | plus | lbracket | rbracket | comma =>
    exact hall _ (List.cons_ne_nil _ _) (by decide)

theorem spaced_last {ws : List Word} (h : ws ≠ []) : ∃ r c, spaced ws = r ++ [c] ∧ isspace c = false := by
  induction ws with
  | nil => exact absurd rfl h
  | cons w ws ih =>
    rw [spaced_cons]
    cases ws with
    | nil =>
      obtain ⟨r, c, hr, hc⟩ := (word_text w).2.1
      exact ⟨chr ' ' :: r, c, by rw [hr]; simp [spaced], hc⟩
    | cons w' ws =>
      obtain ⟨r, c, hr, hc⟩ := ih (List.cons_ne_nil _ _)
      exact ⟨chr ' ' :: (w.text ++ r), c, by rw [hr]; simp, hc⟩

theorem spaced_no_nul (ws : List Word) : (0 : Byte) ∉ spaced ws := by
  intro h
  obtain ⟨w, -, hw⟩ := List.mem_flatMap.mp h
  rcases List.mem_cons.mp hw with hw | hw
  · exact absurd hw (by decide)
  · exact (word_text w).2.2 hw

theorem trim_id {s r t : List Byte} {c d : Byte} (hfirst : s = c :: r) (hc : isspace c = false) (hlast : s = t ++ [d])
    (hd : isspace d = false) : trim s = s := by
  unfold trim
  have hrev : s.reverse.dropWhile isspace = s.reverse := by
    rw [hlast, List.reverse_append, List.reverse_singleton, List.singleton_append]
    exact List.dropWhile_cons_of_neg (by rw [hd]; decide)
  rw [hrev, List.reverse_reverse, hfirst]
  exact List.dropWhile_cons_of_neg (by rw [hc]; decide)

/-- `parse_line` works on a printed line as it is. -/
theorem trim_print {w : Word} {ws : List Word} (hlen : (printWords (w :: ws)).length ≤ 1022) :
    trim (((printWords (w :: ws)).takeWhile (· ≠ 0)).take (CFG_MAX_LINE - 1)) = printWords (w :: ws) := by
  have hprint : printWords (w :: ws) = w.text ++ spaced ws := rfl
  have hall : (printWords (w :: ws)).takeWhile (· ≠ 0) = printWords (w :: ws) := by
    refine List.takeWhile_eq_self_iff.mpr fun c hc => ?_
    have hne : c ≠ 0 := by
      intro heq
      subst heq
      rw [hprint] at hc
      rcases List.mem_append.mp hc with hc | hc
      · exact (word_text w).2.2 hc
      · exact spaced_no_nul ws hc
    simpa using hne
  rw [hall, List.take_of_length_le (Nat.le_trans hlen (by decide)), hprint]
  obtain ⟨⟨c, r, hw, hc⟩, ⟨r', d, hw', hd⟩, -⟩ := word_text w
  cases ws with
  | nil =>
    have hnil : w.text ++ spaced [] = w.text := List.append_nil _
    rw [hnil]
    exact trim_id hw hc hw' hd
  | cons w' ws =>
    obtain ⟨r'', d', hlast, hd'⟩ := spaced_last (List.cons_ne_nil w' ws)
    refine trim_id (r := r ++ spaced (w' :: ws)) (by rw [hw]; rfl) hc (t := w.text ++ r'') ?_ hd'
    rw [hlast, List.append_assoc]

theorem scan_print {w : Word} (hfit : w.fits) (ws : List Word) :
    scanTok sys (printWords (w :: ws)) = ⟨w.tok, spaced ws, []⟩ :=
  scan_spaced hfit ws

end KanekFoundations.Cfg

/-
  KanekFoundations.Cfg.Literals — the literals of a line: quoted strings and integers.

  A string has room for 511 bytes, a number for 63; what does not fit ends the loop of the
  lexer in the middle of the literal.

  Proved:
  - `next_tok_quoted`: a string of at most 511 bytes is read back as it is, up to what stands
    behind its closing quote; a longer one is an error;
  - `scan_literal`: an integer of at most 63 bytes whose value is in range is read as its value.
-/

import KanekFoundations.Cfg.Printed

namespace KanekFoundations.Cfg

open KanekFoundations.Lib

variable {F : Type} {sys : Sys F}

/-! ## Strings -/

/-- Without room for all of it, the loop stops at the first byte that is left. -/
theorem lexString_long {s : List Byte} {room : Nat} (hlen : room ≤ s.length) (p : List Byte) :
    lexString room (s.flatMap escape ++ p) = (s.take room, (s.drop room).flatMap escape ++ p) := by
  induction s generalizing room with
  | nil =>
    cases Nat.le_zero.mp hlen
    rfl
  | cons c s ih =>
    cases room with
    | zero => rfl
    | succ room => rw [List.flatMap_cons, List.append_assoc, lexString_byte, ih (Nat.le_of_succ_le_succ hlen)]; rfl

/-- An escaped byte does not start with a quote. -/
theorem escape_head (c : Byte) (p : List Byte) : (escape c ++ p).head? ≠ some (chr '"') := by
  by_cases hq : c = chr '"'
  · subst hq
    exact fun h => absurd (Option.some.inj h) (by decide)
  unfold escape
  rw [if_neg hq]
  split
  · exact fun h => absurd (Option.some.inj h) (by decide)
  split
  · exact fun h => absurd (Option.some.inj h) (by decide)
  split
  · exact fun h => absurd (Option.some.inj h) (by decide)
  · exact fun h => hq (Option.some.inj h)

/-- The text of a string literal. -/
def quoted (s : List Byte) : List Byte := chr '"' :: s.flatMap escape ++ [chr '"']

theorem scanChar_quote (sys : Sys F) (r : List Byte) : scanChar sys (chr '"') r =
    if (lexString (CFG_MAX_TOK - 1) r).2.head? = some (chr '"') then
      ⟨.string (lexString (CFG_MAX_TOK - 1) r).1, (lexString (CFG_MAX_TOK - 1) r).2.drop 1, []⟩
    else ⟨.string (lexString (CFG_MAX_TOK - 1) r).1, (lexString (CFG_MAX_TOK - 1) r).2,
      [⟨"unterminated string literal", []⟩]⟩ := rfl

theorem scanTok_quoted (sys : Sys F) (s r : List Byte) :
    scanTok sys (quoted s ++ r) = scanChar sys (chr '"') (s.flatMap escape ++ chr '"' :: r) := by
  have htext : quoted s ++ r = chr '"' :: (s.flatMap escape ++ chr '"' :: r) := by simp [quoted]
  rw [htext]
  rfl

/-- A quoted string is read as its bytes when there are at most 511, and as an error when there
    are more. -/
theorem next_tok_quoted (sys : Sys F) (s r : List Byte) (error : Bool) (trace : List Report) :
    (s.length ≤ 511 → nextTok sys ⟨quoted s ++ r, error, trace⟩ = (.string s, ⟨r, error, trace⟩)) ∧
    (511 < s.length → (nextTok sys ⟨quoted s ++ r, error, trace⟩).2.error = true) := by
  unfold nextTok
  dsimp only
  rw [scanTok_quoted, scanChar_quote]
  refine ⟨fun hlen => ?_, fun hlen => ?_⟩
  · have hroom : s.length ≤ CFG_MAX_TOK - 1 := hlen
    rw [lexString_escape hroom]
    simp
  · -- The 512th byte is what the loop stops at.
    have hroom : CFG_MAX_TOK - 1 ≤ s.length := Nat.le_of_lt hlen
    have hpos : 0 < (s.drop 511).length := by
      rw [List.length_drop]
      omega
    obtain ⟨c, rest, hdrop⟩ := List.exists_cons_of_ne_nil (List.ne_nil_of_length_pos hpos)
    have hlong := lexString_long hroom (chr '"' :: r)
    have hhead : ((s.drop (CFG_MAX_TOK - 1)).flatMap escape ++ chr '"' :: r).head? ≠ some (chr '"') := by
      show ((s.drop 511).flatMap escape ++ _).head? ≠ _
      rw [hdrop, List.flatMap_cons, List.append_assoc]
      exact escape_head c _
    rw [hlong, if_neg hhead]
    simp

/-! ## Integers -/

/-- An integer literal: a minus or none, and one or more digits. -/
structure IntText where
  minus : Bool
  digits : List Byte
  nonempty : digits ≠ []
  isdigit : ∀ c ∈ digits, isdigit c = true

def IntText.text (s : IntText) : List Byte := (if s.minus then [chr '-'] else []) ++ s.digits

/-- What the literal stands for. -/
def IntText.value (s : IntText) : Int := if s.minus then -(digitsVal s.digits : Int) else digitsVal s.digits

/-- The literal fits in the lexer's buffer, and its value in an `int64_t`. -/
structure IntText.Fits (s : IntText) : Prop where
  length : s.text.length ≤ 63
  range : -2 ^ 63 ≤ s.value ∧ s.value ≤ 2 ^ 63 - 1

/-- At `p`, behind blanks, stands this literal; no digit and no point goes on with it. -/
structure LiteralAt (p : List Byte) (s : IntText) (rest : List Byte) : Prop where
  text : lexSkipWs p = s.text ++ rest
  ends : rest.head?.any isNumByte = false

theorem clampI64_id {x : Int} (h : -2 ^ 63 ≤ x ∧ x ≤ 2 ^ 63 - 1) : clampI64 x = x := by
  unfold clampI64
  rw [min_eq_right h.2, max_eq_right h.1]

/-- The first byte of a literal is a digit, or a minus with a digit behind it. -/
theorem IntText.starts (s : IntText) (rest : List Byte) :
    ∃ c r, s.text ++ rest = c :: r ∧ (Cfg.isdigit c = true ∨ c = chr '-' ∧ r.head?.any Cfg.isdigit = true) := by
  obtain ⟨minus, digits, hne, hdig⟩ := s
  obtain ⟨d, ds, rfl⟩ := List.exists_cons_of_ne_nil hne
  have hd : Cfg.isdigit d = true := hdig d (List.mem_cons_self ..)
  cases minus with
  | true => exact ⟨chr '-', d :: ds ++ rest, rfl, .inr ⟨rfl, hd⟩⟩
  | false => exact ⟨d, ds ++ rest, rfl, .inl hd⟩

/-- A literal that fits is read as its value. -/
theorem scan_literal {p rest : List Byte} {s : IntText} (h : LiteralAt p s rest) (hfit : s.Fits) :
    scanTok sys p = ⟨.int s.value, rest, []⟩ := by
  obtain ⟨c, r, htext, hfirst⟩ := s.starts rest
  have hlen : (if s.minus then 1 else 0) + s.digits.length ≤ 63 := by
    have hlen := hfit.length
    unfold IntText.text at hlen
    rw [List.length_append, apply_ite List.length] at hlen
    exact hlen
  have hnum : lexNumber sys (s.text ++ rest) = ⟨.int (strtoll s.text), rest, []⟩ :=
    lexNumber_digits s.minus s.isdigit s.nonempty hlen h.ends
  have hvalue : strtoll s.text = s.value := (strtoll_digits s.minus s.isdigit s.nonempty).trans (clampI64_id hfit.range)
  unfold scanTok
  rw [h.text, htext]
  show scanChar sys c r = _
  rw [scanChar_number hfirst, ← htext, hnum, hvalue]

end KanekFoundations.Cfg

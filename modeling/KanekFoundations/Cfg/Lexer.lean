/-
  KanekFoundations.Cfg.Lexer — the tokeniser of `cfg_parser.c`.

  A position `p` in a line is the list of the bytes from there to the end of the C string.
  `scanTok` is what `next_tok` does at a position: the token, the position after it and what
  it reports; `nextTok` does it to a `lex_t`. The line's reports are kept in the order in
  which they are printed.

  Proved: a scan that is not at the end of the line moves on.
-/

import KanekFoundations.Lib.CInt

namespace KanekFoundations.Cfg

open KanekFoundations.Lib

/-- What the parser takes from outside: floats and their conversions, the hash of the
    dictionary, which allocation succeeds, and the files. -/
structure Sys (F : Type) where
  strtod : List Byte → F
  fmtG : F → List Byte
  xxh32 : List Byte → BitVec 32
  mallocOk : Nat → Bool
  fopen : List Byte → Option (List Byte)

/-- A `TRACE_ERR`: its format and the arguments it prints. -/
structure Report where
  fmt : String
  args : List (List Byte)
  deriving DecidableEq

variable {F : Type}

/-! ## Characters -/

def chr (c : Char) : Byte := BitVec.ofNat 8 c.toNat

def ascii (s : List Char) : List Byte := s.map chr

def isdigit (c : Byte) : Bool := decide (48 ≤ c.toNat) && decide (c.toNat ≤ 57)

def isalpha (c : Byte) : Bool :=
  (decide (65 ≤ c.toNat) && decide (c.toNat ≤ 90)) || (decide (97 ≤ c.toNat) && decide (c.toNat ≤ 122))

def isalnum (c : Byte) : Bool := isalpha c || isdigit c

/-- Blank, and the control characters from tab to carriage return. -/
def isspace (c : Byte) : Bool := c == chr ' ' || (decide (9 ≤ c.toNat) && decide (c.toNat ≤ 13))

/-! ## Numbers as text -/

def clampI64 (x : Int) : Int := max (-2 ^ 63) (min (2 ^ 63 - 1) x)

def digitsVal (s : List Byte) : Nat := s.foldl (fun n c => n * 10 + (c.toNat - 48)) 0

/-- `strtoll(s, NULL, 10)`: a value out of range is the nearest one in range. -/
def strtoll (s : List Byte) : Int :=
  match s.dropWhile isspace with
  | [] => 0
  | c :: r =>
    if c = chr '-' then clampI64 (-(digitsVal (r.takeWhile isdigit) : Int))
    else if c = chr '+' then clampI64 (digitsVal (r.takeWhile isdigit))
    else clampI64 (digitsVal ((c :: r).takeWhile isdigit))

def decimalNat (n : Nat) : List Byte :=
  if n = 0 then [chr '0'] else (Nat.digits 10 n).reverse.map fun d => BitVec.ofNat 8 (48 + d)

/-- `%PRId64` -/
def decimal (i : Int) : List Byte := if i < 0 then chr '-' :: decimalNat i.natAbs else decimalNat i.natAbs

/-! ## Tokens -/

def CFG_MAX_TOK : Nat := 512

inductive TokType
  | eof | ident | string | int | float | eq | pluseq | plus | lbracket | rbracket | comma | hash
  deriving DecidableEq

/-- `tok_t`: the type, with the one value that a token of this type carries. -/
inductive Tok (F : Type)
  | eof
  | ident (sval : List Byte)
  | string (sval : List Byte)
  | int (ival : Int)
  | float (fval : F)
  | eq
  | pluseq
  | plus
  | lbracket
  | rbracket
  | comma
  | hash
  deriving DecidableEq

def Tok.type : Tok F → TokType
  | .eof => .eof
  | .ident _ => .ident
  | .string _ => .string
  | .int _ => .int
  | .float _ => .float
  | .eq => .eq
  | .pluseq => .pluseq
  | .plus => .plus
  | .lbracket => .lbracket
  | .rbracket => .rbracket
  | .comma => .comma
  | .hash => .hash

structure Scan (F : Type) where
  tok : Tok F
  rest : List Byte
  errs : List Report
  deriving DecidableEq

def isLexWs (c : Byte) : Bool := c == chr ' ' || c == chr '\t' || c == chr '\r'

def lexSkipWs (p : List Byte) : List Byte := p.dropWhile isLexWs

def unescape (c : Byte) : Byte := if c = chr 'n' then chr '\n' else if c = chr 't' then chr '\t' else c

/-- The loop of a string literal: at most `room` bytes are stored. A backslash that ends the
    line stands for itself. -/
def lexString : Nat → List Byte → List Byte × List Byte
  | 0, p => ([], p)
  | _ + 1, [] => ([], [])
  | room + 1, c :: r =>
    if c = chr '"' then ([], c :: r)
    else if c = chr '\\' then
      match r with
      | [] => ([c], [])
      | d :: r' => ((unescape d) :: (lexString room r').1, (lexString room r').2)
    else (c :: (lexString room r).1, (lexString room r).2)

/-- The loops of numbers and identifiers: the longest run of at most `room` bytes. -/
def lexRun (ok : Byte → Bool) : Nat → List Byte → List Byte × List Byte
  | 0, p => ([], p)
  | _ + 1, [] => ([], [])
  | room + 1, c :: r => if ok c then (c :: (lexRun ok room r).1, (lexRun ok room r).2) else ([], c :: r)

def isNumByte (c : Byte) : Bool := isdigit c || c == chr '.'

def isIdentByte (c : Byte) : Bool := isalnum c || c == chr '_'

/-- `nbuf` has 64 bytes. -/
def lexNumber (sys : Sys F) (p : List Byte) : Scan F :=
  let sign := if p.head? = some (chr '-') then 1 else 0
  let run := lexRun isNumByte (63 - sign) (p.drop sign)
  let nbuf := p.take sign ++ run.1
  let dotCount := run.1.count (chr '.')
  ⟨if 0 < dotCount then .float (sys.strtod nbuf) else .int (strtoll nbuf), run.2,
    if 1 < dotCount then [⟨"malformed numeric literal '%s'", [nbuf]⟩] else []⟩

/-- A token whose first byte is `c`. -/
def scanChar (sys : Sys F) (c : Byte) (r : List Byte) : Scan F :=
  if c = chr '\n' then ⟨.eof, c :: r, []⟩
  else if c = chr '#' then ⟨.hash, r, []⟩
  else if c = chr '"' then
    let body := lexString (CFG_MAX_TOK - 1) r
    if body.2.head? = some (chr '"') then ⟨.string body.1, body.2.drop 1, []⟩
    else ⟨.string body.1, body.2, [⟨"unterminated string literal", []⟩]⟩
  else if c = chr '+' then if r.head? = some (chr '=') then ⟨.pluseq, r.drop 1, []⟩ else ⟨.plus, r, []⟩
  else if c = chr '=' then ⟨.eq, r, []⟩
  else if c = chr '[' then ⟨.lbracket, r, []⟩
  else if c = chr ']' then ⟨.rbracket, r, []⟩
  else if c = chr ',' then ⟨.comma, r, []⟩
  else if isdigit c ∨ c = chr '-' ∧ r.head?.any isdigit then lexNumber sys (c :: r)
  else if isalpha c ∨ c = chr '_' then
    let run := lexRun isIdentByte (CFG_MAX_TOK - 1) (c :: r)
    ⟨.ident run.1, run.2, []⟩
  else
    -- Unknown character: skipped, and read as the end of the line.
    ⟨.eof, r, []⟩

def scanTok (sys : Sys F) (p : List Byte) : Scan F :=
  match lexSkipWs p with
  | [] => ⟨.eof, [], []⟩
  | c :: r => scanChar sys c r

/-! ## The lexer's state -/

structure Lex where
  p : List Byte
  error : Bool
  trace : List Report
  deriving DecidableEq

/-- `TRACE_ERR` and `l->error = 1`. -/
def Lex.fail (l : Lex) (fmt : String) : Lex := { l with error := true, trace := l.trace ++ [⟨fmt, []⟩] }

/-- `TRACE_ERR` alone. -/
def Lex.report (l : Lex) (fmt : String) (args : List (List Byte)) : Lex := { l with trace := l.trace ++ [⟨fmt, args⟩] }

def nextTok (sys : Sys F) (l : Lex) : Tok F × Lex :=
  let s := scanTok sys l.p
  (s.tok, ⟨s.rest, l.error || !s.errs.isEmpty, l.trace ++ s.errs⟩)

/-- The position is restored; the error flag stays. -/
def peekTok (sys : Sys F) (l : Lex) : Tok F × Lex :=
  let (t, l') := nextTok sys l
  (t, { l' with p := l.p })

/-! ## A scan moves on -/

theorem lexString_length (room : Nat) (p : List Byte) : (lexString room p).2.length ≤ p.length := by
  induction room generalizing p with
  | zero => exact Nat.le_refl _
  | succ room ih =>
    cases p with
    | nil => exact Nat.le_refl _
    | cons c r =>
      unfold lexString
      split
      · exact Nat.le_refl _
      split
      · cases r with
        | nil => exact Nat.zero_le _
        | cons d r' => exact Nat.le_trans (ih r') (Nat.le_add_right _ 2)
      · exact Nat.le_succ_of_le (ih r)

theorem lexRun_length (ok : Byte → Bool) (room : Nat) (p : List Byte) : (lexRun ok room p).2.length ≤ p.length := by
  induction room generalizing p with
  | zero => exact Nat.le_refl _
  | succ room ih =>
    cases p with
    | nil => exact Nat.le_refl _
    | cons c r =>
      unfold lexRun
      split
      · exact Nat.le_succ_of_le (ih r)
      · exact Nat.le_refl _

theorem lexRun_first {ok : Byte → Bool} {room : Nat} {c : Byte} (r : List Byte) (hok : ok c = true) (hroom : 0 < room) :
    (lexRun ok room (c :: r)).2.length ≤ r.length := by
  cases room with
  | zero => exact absurd hroom (Nat.lt_irrefl 0)
  | succ room =>
    unfold lexRun
    rw [if_pos hok]
    exact lexRun_length ok room r

theorem lexNumber_length (sys : Sys F) {c : Byte} {r : List Byte} (h : isdigit c ∨ c = chr '-' ∧ r.head?.any isdigit) :
    (lexNumber sys (c :: r)).rest.length ≤ r.length := by
  unfold lexNumber
  by_cases hc : c = chr '-'
  · subst hc
    exact lexRun_length isNumByte _ r
  · have hdigit : isdigit c = true := by
      rcases h with h | ⟨h, -⟩
      · exact h
      · exact absurd h hc
    have hsign : ¬ (c :: r).head? = some (chr '-') := fun h => hc (Option.some.inj h)
    rw [if_neg hsign]
    have hok : isNumByte c = true := by rw [isNumByte, hdigit]; rfl
    exact lexRun_first r hok (by decide)

/-- A token is read in one of six ways. -/
theorem scanChar_cases {P : Scan F → Prop} (sys : Sys F) (c : Byte) (r : List Byte)
    (newline : c = chr '\n' → P ⟨.eof, c :: r, []⟩)
    (closed : P ⟨.string (lexString (CFG_MAX_TOK - 1) r).1, (lexString (CFG_MAX_TOK - 1) r).2.drop 1, []⟩)
    (unclosed : P ⟨.string (lexString (CFG_MAX_TOK - 1) r).1, (lexString (CFG_MAX_TOK - 1) r).2,
      [⟨"unterminated string literal", []⟩]⟩)
    (sign : ∀ t, P ⟨t, r, []⟩ ∧ P ⟨t, r.drop 1, []⟩)
    (number : isdigit c ∨ c = chr '-' ∧ r.head?.any isdigit → P (lexNumber sys (c :: r)))
    (ident : isalpha c ∨ c = chr '_' → P ⟨.ident (lexRun isIdentByte (CFG_MAX_TOK - 1) (c :: r)).1,
      (lexRun isIdentByte (CFG_MAX_TOK - 1) (c :: r)).2, []⟩) : P (scanChar sys c r) := by
  unfold scanChar
  by_cases hnewline : c = chr '\n'
  · rw [if_pos hnewline]
    exact newline hnewline
  rw [if_neg hnewline]
  by_cases hhash : c = chr '#'
  · rw [if_pos hhash]
    exact (sign _).1
  rw [if_neg hhash]
  by_cases hquote : c = chr '"'
  · rw [if_pos hquote]
    by_cases hend : (lexString (CFG_MAX_TOK - 1) r).2.head? = some (chr '"')
    · exact (if_pos hend).symm ▸ closed
    · exact (if_neg hend).symm ▸ unclosed
  rw [if_neg hquote]
  by_cases hplus : c = chr '+'
  · rw [if_pos hplus]
    by_cases heq : r.head? = some (chr '=')
    · rw [if_pos heq]
      exact (sign _).2
    · rw [if_neg heq]
      exact (sign _).1
  rw [if_neg hplus]
  by_cases heq : c = chr '='
  · rw [if_pos heq]
    exact (sign _).1
  rw [if_neg heq]
  by_cases hopen : c = chr '['
  · rw [if_pos hopen]
    exact (sign _).1
  rw [if_neg hopen]
  by_cases hclose : c = chr ']'
  · rw [if_pos hclose]
    exact (sign _).1
  rw [if_neg hclose]
  by_cases hcomma : c = chr ','
  · rw [if_pos hcomma]
    exact (sign _).1
  rw [if_neg hcomma]
  by_cases hnum : isdigit c ∨ c = chr '-' ∧ r.head?.any isdigit
  · rw [if_pos hnum]
    exact number hnum
  rw [if_neg hnum]
  by_cases hident : isalpha c ∨ c = chr '_'
  · rw [if_pos hident]
    exact ident hident
  rw [if_neg hident]
  exact (sign _).1

theorem scanChar_length (sys : Sys F) {c : Byte} (r : List Byte) (hc : c ≠ chr '\n') :
    (scanChar sys c r).rest.length ≤ r.length := by
  have hdrop : ∀ l : List Byte, (l.drop 1).length ≤ l.length := fun l => by rw [List.length_drop]; exact Nat.sub_le _ _
  have hbody := lexString_length (CFG_MAX_TOK - 1) r
  refine scanChar_cases (P := fun s => s.rest.length ≤ r.length) sys c r (fun h => absurd h hc) ?closed hbody
    (fun _ => ⟨Nat.le_refl _, hdrop r⟩) (fun hnum => lexNumber_length sys hnum) fun hident => ?ident
  case closed => exact Nat.le_trans (hdrop _) hbody
  case ident =>
    refine lexRun_first r ?_ (by decide)
    rw [isIdentByte, isalnum]
    rcases hident with h | h
    · rw [h]; rfl
    · rw [h]; decide

theorem lexSkipWs_length (p : List Byte) : (lexSkipWs p).length ≤ p.length := List.length_dropWhile_le _ _

theorem scanTok_length (sys : Sys F) (p : List Byte) :
    (scanTok sys p).rest.length ≤ p.length ∧
      ((scanTok sys p).tok.type ≠ .eof → (scanTok sys p).rest.length < p.length) := by
  have hws := lexSkipWs_length p
  unfold scanTok
  cases hp : lexSkipWs p with
  | nil => exact ⟨Nat.zero_le _, fun h => absurd rfl h⟩
  | cons c r =>
    rw [hp] at hws
    show (scanChar sys c r).rest.length ≤ _ ∧ ((scanChar sys c r).tok.type ≠ .eof → (scanChar sys c r).rest.length < _)
    by_cases hc : c = chr '\n'
    · unfold scanChar
      rw [if_pos hc]
      exact ⟨hws, fun h => absurd rfl h⟩
    · have hr := Nat.lt_of_le_of_lt (scanChar_length sys r hc) hws
      exact ⟨Nat.le_of_lt hr, fun _ => hr⟩

theorem lexNumber_errs (sys : Sys F) (p : List Byte) :
    (lexNumber sys p).errs = [] ∨ (lexNumber sys p).tok.type = .float := by
  unfold lexNumber
  dsimp only
  generalize List.count (chr '.') _ = dotCount
  by_cases h : 1 < dotCount
  · rw [if_pos (Nat.zero_lt_of_lt h)]
    exact .inr rfl
  · exact .inl (if_neg h)

/-- Only a string or a float is ever malformed. -/
theorem scanTok_errs (sys : Sys F) (p : List Byte) :
    (scanTok sys p).errs = [] ∨ (scanTok sys p).tok.type = .string ∨ (scanTok sys p).tok.type = .float := by
  unfold scanTok
  cases lexSkipWs p with
  | nil => exact .inl rfl
  | cons c r =>
    exact scanChar_cases (P := fun s => s.errs = [] ∨ s.tok.type = .string ∨ s.tok.type = .float) sys c r
      (fun _ => .inl rfl) (.inl rfl) (.inr (.inl rfl)) (fun _ => ⟨.inl rfl, .inl rfl⟩)
      (fun _ => (lexNumber_errs sys _).imp_right .inr) fun _ => .inl rfl

end KanekFoundations.Cfg

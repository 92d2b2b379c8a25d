/-
  KanekFoundations.Cfg.Parser — the evaluator and the line parser of `cfg_parser.c`, and the
  loading of files.

  The loops take a bound on their rounds and the evaluator one on its depth, both from the
  length of what is left of the line; running out is stuck. `cfg_load_depth` takes the levels
  that are left. A line's reports go to the trace when the line is done.
-/

import KanekFoundations.Cfg.Var

namespace KanekFoundations.Cfg

open KanekFoundations.Lib

variable {F : Type}

def CFG_MAX_LINE : Nat := 1024

def CFG_MAX_DEPTH : Nat := 16

def CFG_CONCAT_INIT_CAP : Nat := 1024

/-! ## Evaluator -/

/-- The loop of an array literal. -/
def evalItems (sys : Sys F) (atom : Tok F → Lex → M F (Option Addr × Lex)) (arr : Addr) : Nat → Lex → M F Lex
  | 0, _ => stuck
  | n + 1, l => do
    let (pk, l) := peekTok sys l
    match pk.type with
    | .rbracket | .eof | .hash => pure l
    | .comma => evalItems sys atom arr n (nextTok sys l).2
    | .string | .int | .float | .ident | .lbracket => do
      let (itemTok, l) := nextTok sys l
      let (item, l) ← atom itemTok l
      match item with
      | some item => do
        let _ ← varPush sys (some arr) (some item)
        evalItems sys atom arr n l
      | none => evalItems sys atom arr n l
    | .eq | .pluseq | .plus =>
      evalItems sys atom arr n (nextTok sys (l.fail "unexpected token in array literal")).2

def getVar (sys : Sys F) (key : List Byte) : M F (Option Addr) := fun m =>
  some (m.vars.dictGet sys.xxh32 (some key), m)

/-- `tok` is the lead token, already consumed. -/
def evalAtom (sys : Sys F) : Nat → Tok F → Lex → M F (Option Addr × Lex)
  | 0, _, _ => stuck
  | n + 1, tok, l =>
    match tok with
    | .string sval => do return (← varStr sys (some sval), l)
    | .int ival => do return (← varInt sys ival, l)
    | .float fval => do return (← varFloat sys fval, l)
    | .ident sval =>
      if sval = boolText true then do return (← varBool sys 1, l)
      else if sval = boolText false then do return (← varBool sys 0, l)
      else if sval = nullText then do return (← varNull sys, l)
      else do
        let v ← getVar sys sval
        let (pk, l) := peekTok sys l
        if pk.type = .lbracket then do
          let (_, l) := nextTok sys l
          let (idx, l) := nextTok sys l
          let (rb, l) := nextTok sys l
          if rb.type ≠ .rbracket then do return (← varNull sys, l.fail "expected ']' after array index")
          else
            match idx with
            | .int ival =>
              match v with
              | none => do return (← varNull sys, l.report "undefined variable '%s'" [sval])
              | some v => do
                match ← varGet (some v) (u64OfInt ival) with
                | some elem => pure (some elem, l)
                | none => do return (← varNull sys, l)
            | _ => do return (← varNull sys, l.fail "array index must be an integer")
        else
          match v with
          | none => do return (← varNull sys, l.report "undefined variable '%s'" [sval])
          | some v => pure (some v, l)
    | .lbracket => do
      match ← varArray sys with
      | none => do return (← varNull sys, l.report "var_array failed" [])
      | some arr => do
        let l ← evalItems sys (evalAtom sys n) arr (l.p.length + 1) l
        let (pk, l) := peekTok sys l
        if pk.type = .rbracket then pure (some arr, (nextTok sys l).2) else pure (some arr, l)
    | _ => do return (← varNull sys, l)

/-- `(result != NULL) ? result : var_null( gc)` -/
def orNull (sys : Sys F) (result : Option Addr) : M F (Option Addr) :=
  match result with
  | some v => pure (some v)
  | none => varNull sys

/-- What `strlen` and `memcpy` see of a string that may be NULL. -/
def textOf (s : Option Addr) : M F (List Byte) :=
  match s with
  | none => pure []
  | some s => cstr s

/-- `while ( cap < need) cap *= 2;` in at most `n` rounds. -/
def doubleCap (need : Nat) : Nat → Nat → Nat
  | 0, cap => cap
  | n + 1, cap => if cap < need then doubleCap need n (cap * 2) else cap

def reallocBuf (sys : Sys F) (buf : Addr) (cap : Nat) : M F (Option Addr) := do
  match ← load buf with
  | .raw _ => taRealloc sys buf (.raw cap)
  | .chars _ text => taRealloc sys buf (.chars cap text)
  | _ => stuck

/-- The loop of a concatenation: the buffer holds the text so far. -/
def concatLoop (sys : Sys F) : Nat → Addr → Nat → Nat → Lex → M F (Addr × Lex)
  | 0, _, _, _, _ => stuck
  | n + 1, buf, len, cap, l => do
    let (pk, l) := peekTok sys l
    if pk.type ≠ .plus then pure (buf, l)
    else do
      let (_, l) := nextTok sys l
      let (rtok, l) := nextTok sys l
      if rtok.type = .eof ∨ rtok.type = .hash then pure (buf, l)
      else do
        let (rhs, l) ← evalAtom sys (l.p.length + 1) rtok l
        let rs ← varToStr sys rhs
        let text ← textOf rs
        let need := len + text.length + 1
        let newCap := doubleCap need need cap
        let newbuf ← if cap < need then reallocBuf sys buf newCap else pure (some buf)
        match newbuf with
        | none => do
          taFree rs
          pure (buf, l.report "ta_realloc failed for %zu bytes" [decimalNat newCap])
        | some buf => do
          match rs with
          | some _ => memcpy buf len text
          | none => pure ()
          taFree rs
          concatLoop sys n buf (len + text.length) newCap l

def evalRhs (sys : Sys F) (l : Lex) : M F (Option Addr × Lex) := do
  let (tok, l) := nextTok sys l
  if tok.type = .eof ∨ tok.type = .hash then do return (← varNull sys, l)
  else do
    let (result, l) ← evalAtom sys (l.p.length + 1) tok l
    let (pk, l) := peekTok sys l
    if pk.type ≠ .plus then do return (← orNull sys result, l)
    else do
      match ← taMalloc sys (.raw CFG_CONCAT_INIT_CAP) with
      | none => do
        return (← orNull sys result, l.report "ta_malloc failed for %zu bytes" [decimalNat CFG_CONCAT_INIT_CAP])
      | some buf => do
        let rs0 ← varToStr sys result
        let text ← textOf rs0
        let cap := max CFG_CONCAT_INIT_CAP (text.length + 1)
        let newbuf ← if CFG_CONCAT_INIT_CAP < text.length + 1 then reallocBuf sys buf cap else pure (some buf)
        match newbuf with
        | none => do
          taFree rs0
          return (← orNull sys result, l)
        | some buf => do
          -- Without a string, `buf[0] = '\0'`.
          memcpy buf 0 text
          taFree rs0
          let (buf, l) ← concatLoop sys (l.p.length + 1) buf text.length cap l
          let result ← varStr sys (some (← cstr buf))
          taFree (some buf)
          return (← orNull sys result, l)

/-! ## Line parser -/

/-- `trim` of `utils.c`. -/
def trim (s : List Byte) : List Byte := (s.reverse.dropWhile isspace).reverse.dropWhile isspace

def includeText : List Byte := ascii ['i', 'n', 'c', 'l', 'u', 'd', 'e']

def displayText : List Byte := ascii ['d', 'i', 's', 'p', 'l', 'a', 'y']

/-- The file name of an include: the rest of the line, without quotes. -/
def includeName (p : List Byte) : List Byte :=
  let fname := trim ((lexSkipWs p).take (CFG_MAX_TOK - 1))
  if 2 ≤ fname.length ∧ fname.head? = some (chr '"') ∧ fname.getLast? = some (chr '"') then
    (fname.drop 1).take (fname.length - 2)
  else fname

def includePath (dir fname : List Byte) : List Byte :=
  if fname.head? = some (chr '/') then fname else (dir ++ chr '/' :: fname).take (CFG_MAX_LINE - 1)

/-- The line is done: its reports are out. -/
def finish (l : Lex) (rc : Int) : M F Int := fun m => some (rc, { m with trace := m.trace ++ l.trace })

/-- `dict_set( cfg->vars, key, val)`: one allocation for an entry, one for a larger table. -/
def setVar (sys : Sys F) (key : List Byte) (val : Option Addr) : M F Int := fun m =>
  let r := m.vars.dictSet sys.xxh32 (some key) val (sys.mallocOk m.mallocs) (sys.mallocOk (m.mallocs + 1))
  some (r.rc, { m with vars := r.d, mallocs := m.mallocs + 2 })

/-- The value as `display` prints it. -/
def displayVar (sys : Sys F) (v : Option Addr) : M F Unit := do
  match v with
  | none => do
    varPrint sys none
    printf [chr '\n']
  | some a =>
    match ← load a with
    | .str s => do
      let text ← textOf s
      printf (text ++ [chr '\n'])
    | _ => do
      varPrint sys (some a)
      printf [chr '\n']

/-- `loadFile` is `cfg_load_depth` one level deeper. -/
def parseLine (sys : Sys F) (loadFile : List Byte → M F Int) (rawLine dir : List Byte) : M F Int := do
  let line := trim ((rawLine.takeWhile (· ≠ 0)).take (CFG_MAX_LINE - 1))
  let (first, l) := nextTok sys ⟨line, false, []⟩
  match first with
  | .eof | .hash => finish l 0
  | .ident sval =>
    if sval = includeText then
      let fname := includeName l.p
      if fname = [] then finish (l.report "include: missing filename" []) (-1)
      else do
        let _ ← finish l 0
        loadFile (includePath dir fname)
    else if sval = displayText then do
      let (v, l) ← evalRhs sys l
      displayVar sys v
      finish l (if l.error then -1 else 0)
    else do
      let key := sval.take (CFG_MAX_TOK - 1)
      let (op, l) := nextTok sys l
      match op with
      | .eq => do
        let (val, l) ← evalRhs sys l
        let rc ← setVar sys key val
        finish l (if l.error ∨ rc < 0 then -1 else 0)
      | .pluseq => do
        let existing ← getVar sys key
        let es ← match existing with
          | some _ => varToStr sys existing
          | none => taStrdup sys []
        let (rhs, l) ← evalRhs sys l
        let rs ← varToStr sys rhs
        let etext ← textOf es
        let rtext ← textOf rs
        let size := etext.length + rtext.length + 1
        match ← taMalloc sys (.raw size) with
        | none => finish (l.report "ta_malloc failed for %zu bytes" [decimalNat size]) (-1)
        | some buf => do
          memcpy buf 0 (etext ++ rtext)
          let val ← varStr sys (some (← cstr buf))
          let rc ← setVar sys key val
          finish l (if l.error ∨ rc < 0 then -1 else 0)
      | _ => finish (l.report "expected '=' or '+=' after key '%s'" [key]) (-1)
  | _ => finish (l.report "expected identifier at start of line: '%s'" [line]) (-1)

/-! ## Files -/

def kflCfgNew (sys : Sys F) (gc : Heap (Block F)) (mallocs : Nat) : Option (Mem F) :=
  if sys.mallocOk mallocs = false then none
  else (Dict.dictNew (sys.mallocOk (mallocs + 1)) (sys.mallocOk (mallocs + 2))).map fun vars =>
    ⟨gc, mallocs + 3, vars, [], [], []⟩

def traceErr (fmt : String) (args : List (List Byte)) : M F Unit := fun m =>
  some ((), { m with trace := m.trace ++ [⟨fmt, args⟩] })

def logFile (e : FileEvent) : M F Unit := fun m => some ((), { m with files := m.files ++ [e] })

/-- `fgets` into a buffer with room for `n` bytes and the terminator: the bytes, the rest of
    the file, and whether the read met the end of the file. -/
def fgets : Nat → List Byte → List Byte × List Byte × Bool
  | 0, p => ([], p, false)
  | _ + 1, [] => ([], [], true)
  | n + 1, c :: r => if c = chr '\n' then ([c], r, false) else (c :: (fgets n r).1, (fgets n r).2)

/-- What is in front of the last component. Of slashes alone one is left, or both where there are two,
    as the GNU C library has it. -/
def dirname (path : List Byte) : List Byte :=
  let stem := path.reverse.dropWhile (· = chr '/')
  let dir := (stem.dropWhile (· ≠ chr '/')).dropWhile (· = chr '/')
  let root := path.takeWhile (· = chr '/')
  if dir ≠ [] then dir.reverse
  else if root = [] then [chr '.']
  else if root.length = 2 then root
  else [chr '/']

/-- The loop over the lines of an open file. -/
def loadLines (sys : Sys F) (loadFile : List Byte → M F Int) (filename dir : List Byte) :
    Nat → List Byte → Nat → Int → M F Int
  | 0, _, _, _ => stuck
  | n + 1, content, lineno, rc => do
    let (line, rest, eof) := fgets (CFG_MAX_LINE - 1) content
    if line = [] then pure rc
    else
      -- What the string functions see of the buffer.
      let text := line.takeWhile (· ≠ 0)
      if chr '\n' ∉ text ∧ eof = false then do
        traceErr "%s:%d: line exceeds max length (%d bytes)"
          [filename, decimalNat (lineno + 1), decimalNat (CFG_MAX_LINE - 1)]
        loadLines sys loadFile filename dir n ((rest.dropWhile (· ≠ chr '\n')).drop 1) (lineno + 1) (-1)
      else do
        let r ← parseLine sys loadFile (text.takeWhile (· ≠ chr '\n')) dir
        logFile (.line (text.takeWhile (· ≠ chr '\n')) r)
        if r < 0 then do
          traceErr "%s:%d: parse error" [filename, decimalNat (lineno + 1)]
          loadLines sys loadFile filename dir n rest (lineno + 1) (-1)
        else loadLines sys loadFile filename dir n rest (lineno + 1) rc

/-- `cfg_load_depth` with `n` levels left, this one included. -/
def cfgLoadDepth (sys : Sys F) : Nat → List Byte → M F Int
  | 0, _ => do
    traceErr "include depth limit (%d) exceeded" [decimalNat CFG_MAX_DEPTH]
    pure (-1)
  | n + 1, filename => do
    match sys.fopen filename with
    | none => do
      traceErr "cannot open '%s'" [filename]
      pure (-1)
    | some content => do
      logFile (.opened filename)
      let dir := (dirname (filename.take (CFG_MAX_LINE - 1))).take (CFG_MAX_LINE - 1)
      let rc ← loadLines sys (cfgLoadDepth sys n) filename dir (content.length + 1) content 0 0
      logFile (.closed filename)
      pure rc

def kflCfgLoad (sys : Sys F) (filename : List Byte) : M F Int := cfgLoadDepth sys (CFG_MAX_DEPTH + 1) filename

end KanekFoundations.Cfg

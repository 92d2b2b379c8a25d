/-
  KanekFoundations.Cfg.Syntax — config programs, how they are printed, and what they mean.

  A program is a list of statements over atoms. Identifiers, strings and integers carry their
  bounds. A statement is printed as words with single spaces between them. Its meaning is an
  environment of values; nothing here knows of memory or of the parser's loops.
-/

import KanekFoundations.Cfg.Parser

namespace KanekFoundations.Cfg

open KanekFoundations.Lib

/-! ## Programs -/

def isIdentText (s : List Byte) : Bool :=
  s.head?.any (fun c => isalpha c || c == chr '_') && s.all isIdentByte && decide (s.length ≤ CFG_MAX_TOK - 1)

def reserved : List (List Byte) := [includeText, displayText, boolText true, boolText false, nullText]

abbrev Ident := { s : List Byte // isIdentText s = true ∧ s ∉ reserved }

abbrev Text := { s : List Byte // s.length ≤ CFG_MAX_TOK - 1 ∧ 0 ∉ s }

abbrev I64 := { i : Int // -2 ^ 63 ≤ i ∧ i < 2 ^ 63 }

inductive Atom
  | str (s : Text)
  | int (i : I64)
  | bool (b : Bool)
  | null
  | name (x : Ident)
  | index (x : Ident) (n : Nat)
  | array (items : List Atom)

/-- One or more atoms with `+` between them. -/
structure Expr where
  first : Atom
  rest : List Atom

inductive Stmt
  | assign (key : Ident) (e : Expr)
  | append (key : Ident) (e : Expr)
  | display (e : Expr)

/-! ## Printing -/

inductive Word
  | ident (x : { s : List Byte // isIdentText s = true })
  | str (s : Text)
  | num (i : Int)
  | eq
  | pluseq
  | plus
  | lbracket
  | rbracket
  | comma

def escape (c : Byte) : List Byte :=
  if c = chr '"' then [chr '\\', chr '"']
  else if c = chr '\\' then [chr '\\', chr '\\']
  else if c = chr '\n' then [chr '\\', chr 'n']
  else if c = chr '\t' then [chr '\\', chr 't']
  else [c]

def Word.text : Word → List Byte
  | .ident x => x.1
  | .str s => chr '"' :: s.1.flatMap escape ++ [chr '"']
  | .num i => decimal i
  | .eq => [chr '=']
  | .pluseq => [chr '+', chr '=']
  | .plus => [chr '+']
  | .lbracket => [chr '[']
  | .rbracket => [chr ']']
  | .comma => [chr ',']

/-- Words with a space in front of each. -/
def spaced (ws : List Word) : List Byte := ws.flatMap fun w => chr ' ' :: w.text

/-- Words with a space between them. -/
def printWords (ws : List Word) : List Byte := (spaced ws).drop 1

mutual

def Atom.words : Atom → List Word
  | .str s => [.str s]
  | .int i => [.num i.1]
  | .bool true => [.ident ⟨boolText true, by decide⟩]
  | .bool false => [.ident ⟨boolText false, by decide⟩]
  | .null => [.ident ⟨nullText, by decide⟩]
  | .name x => [.ident ⟨x.1, x.2.1⟩]
  | .index x n => [.ident ⟨x.1, x.2.1⟩, .lbracket, .num n, .rbracket]
  | .array items => .lbracket :: itemWords true items ++ [.rbracket]

/-- The items with commas between them; `first` is the start of the list. -/
def itemWords (first : Bool) : List Atom → List Word
  | [] => []
  | a :: as => (if first then [] else [.comma]) ++ a.words ++ itemWords false as

end

/-- The atoms after the first one of an expression. -/
def moreWords (as : List Atom) : List Word := as.flatMap fun a => .plus :: a.words

def Expr.words (e : Expr) : List Word := e.first.words ++ moreWords e.rest

def Stmt.words : Stmt → List Word
  | .assign key e => .ident ⟨key.1, key.2.1⟩ :: .eq :: e.words
  | .append key e => .ident ⟨key.1, key.2.1⟩ :: .pluseq :: e.words
  | .display e => .ident ⟨displayText, by decide⟩ :: e.words

def Stmt.print (s : Stmt) : List Byte := printWords s.words

/-! ## Meaning -/

inductive Val
  | null
  | int (i : Int)
  | bool (b : Bool)
  | str (s : List Byte)
  | array (items : List Val)

/-- The string form of a value. -/
def Val.text : Val → List Byte
  | .null => nullText
  | .int i => decimal i
  | .bool b => boolText b
  | .str s => s
  | .array _ => ascii ['[', 'a', 'r', 'r', 'a', 'y', ']']

def Val.item (v : Val) (n : Nat) : Val :=
  match v with
  | .array items => items[n]?.getD .null
  | _ => .null

abbrev Env := List Byte → Option Val

mutual

def Atom.eval (env : Env) : Atom → Val
  | .str s => .str s.1
  | .int i => .int i.1
  | .bool b => .bool b
  | .null => .null
  | .name x => (env x.1).getD .null
  | .index x n => ((env x.1).getD .null).item n
  | .array items => .array (evalAll env items)

def evalAll (env : Env) : List Atom → List Val
  | [] => []
  | a :: as => a.eval env :: evalAll env as

end

/-- A single atom keeps its type; more are concatenated as strings. -/
def Expr.eval (env : Env) (e : Expr) : Val :=
  match e.rest with
  | [] => e.first.eval env
  | _ => .str ((e.first.eval env).text ++ e.rest.flatMap fun a => (a.eval env).text)

def Env.set (env : Env) (key : List Byte) (v : Val) : Env := fun k => if k = key then some v else env k

def Stmt.exec (env : Env) : Stmt → Env
  | .assign key e => env.set key.1 (e.eval env)
  | .append key e => env.set key.1 (.str (((env key.1).map Val.text).getD [] ++ (e.eval env).text))
  | .display _ => env

def execAll (env : Env) (prog : List Stmt) : Env := prog.foldl Stmt.exec env

/-! ## Indexes that fit -/

mutual

def Atom.indexes : Atom → List Nat
  | .str _ | .int _ | .bool _ | .null | .name _ => []
  | .index _ n => [n]
  | .array items => allIndexes items

def allIndexes : List Atom → List Nat
  | [] => []
  | a :: as => a.indexes ++ allIndexes as

end

def Expr.indexes (e : Expr) : List Nat := e.first.indexes ++ allIndexes e.rest

def Stmt.indexes : Stmt → List Nat
  | .assign _ e | .append _ e | .display e => e.indexes

/-- The indexes have at most 63 digits, as many bytes of a number as the lexer reads. -/
def Stmt.fits (s : Stmt) : Prop := ∀ n ∈ s.indexes, n < 10 ^ 63

def Word.fits : Word → Prop
  | .num i => -10 ^ 62 < i ∧ i < 10 ^ 63
  | _ => True

/-- By cases, arrays by their items. -/
theorem Atom.ind {P : Atom → Prop} (hstr : ∀ s, P (.str s)) (hint : ∀ i, P (.int i)) (hbool : ∀ b, P (.bool b))
    (hnull : P .null) (hname : ∀ x, P (.name x)) (hindex : ∀ x n, P (.index x n))
    (harray : ∀ items, (∀ a ∈ items, P a) → P (.array items)) : ∀ a, P a
  | .str s => hstr s
  | .int i => hint i
  | .bool b => hbool b
  | .null => hnull
  | .name x => hname x
  | .index x n => hindex x n
  | .array items => harray items fun a _ => Atom.ind hstr hint hbool hnull hname hindex harray a

theorem itemWords_fit {items : List Atom} (hitems : ∀ a ∈ items, (∀ n ∈ a.indexes, n < 10 ^ 63) → ∀ w ∈ a.words, w.fits)
    (h : ∀ n ∈ allIndexes items, n < 10 ^ 63) (first : Bool) : ∀ w ∈ itemWords first items, w.fits := by
  induction items generalizing first with
  | nil =>
    intro w hw
    rw [itemWords] at hw
    cases hw
  | cons a as ih =>
    intro w hw
    rw [allIndexes] at h
    rw [itemWords] at hw
    rcases List.mem_append.mp hw with hw | hw
    · rcases List.mem_append.mp hw with hw | hw
      · cases first with
        | true => cases hw
        | false =>
          rw [List.mem_singleton.mp hw]
          trivial
      · exact hitems a (List.mem_cons_self ..) (fun n hn => h n (List.mem_append_left _ hn)) w hw
    · exact ih (fun b hb => hitems b (List.mem_cons_of_mem _ hb))
        (fun n hn => h n (List.mem_append_right _ hn)) false w hw

theorem Atom.words_fit (a : Atom) : (∀ n ∈ a.indexes, n < 10 ^ 63) → ∀ w ∈ a.words, w.fits := by
  induction a using Atom.ind with
  | hstr s =>
    intro _ w hw
    rw [List.mem_singleton.mp hw]
    trivial
  | hint i =>
    intro _ w hw
    have hlo := i.2.1
    have hhi := i.2.2
    rw [List.mem_singleton.mp hw]
    refine ⟨?_, ?_⟩ <;> omega
  | hbool b =>
    intro _ w hw
    cases b with
    | true =>
      rw [List.mem_singleton.mp hw]
      trivial
    | false =>
      rw [List.mem_singleton.mp hw]
      trivial
  | hnull =>
    intro _ w hw
    rw [List.mem_singleton.mp hw]
    trivial
  | hname x =>
    intro _ w hw
    rw [List.mem_singleton.mp hw]
    trivial
  | hindex x n =>
    intro h w hw
    have hn := h n (List.mem_singleton.mpr rfl)
    rw [Atom.words] at hw
    simp only [List.mem_cons, List.not_mem_nil, or_false] at hw
    rcases hw with rfl | rfl | rfl | rfl
    · trivial
    · trivial
    · exact ⟨by omega, by omega⟩
    · trivial
  | harray items ih =>
    intro h w hw
    rw [Atom.indexes] at h
    rw [Atom.words, List.cons_append, List.mem_cons, List.mem_append, List.mem_singleton] at hw
    rcases hw with rfl | hw | rfl
    · trivial
    · exact itemWords_fit ih h true w hw
    · trivial

theorem Expr.words_fit {e : Expr} (h : ∀ n ∈ e.indexes, n < 10 ^ 63) : ∀ w ∈ e.words, w.fits := by
  intro w hw
  rcases List.mem_append.mp hw with hw | hw
  · exact e.first.words_fit (fun n hn => h n (List.mem_append_left _ hn)) w hw
  · obtain ⟨a, ha, hw⟩ := List.mem_flatMap.mp hw
    have hrest : ∀ as : List Atom, a ∈ as → ∀ n ∈ a.indexes, n ∈ allIndexes as := by
      intro as ha n hn
      induction as with
      | nil => cases ha
      | cons b bs ih =>
        rw [allIndexes]
        rcases List.mem_cons.mp ha with rfl | ha
        · exact List.mem_append_left _ hn
        · exact List.mem_append_right _ (ih ha)
    rcases List.mem_cons.mp hw with rfl | hw
    · trivial
    · exact a.words_fit (fun n hn => h n (List.mem_append_right _ (hrest e.rest ha n hn))) w hw

/-- Every word of a statement whose indexes fit can be read back. -/
theorem Stmt.words_fit {s : Stmt} (h : s.fits) : ∀ w ∈ s.words, w.fits := by
  intro w hw
  cases s with
  | assign key e | append key e =>
    rcases List.mem_cons.mp hw with rfl | hw
    · trivial
    rcases List.mem_cons.mp hw with rfl | hw
    · trivial
    exact Expr.words_fit h w hw
  | display e =>
    rcases List.mem_cons.mp hw with rfl | hw
    · trivial
    exact Expr.words_fit h w hw

end KanekFoundations.Cfg

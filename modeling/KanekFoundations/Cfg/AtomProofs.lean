/-
  KanekFoundations.Cfg.AtomProofs — the evaluator on printed atoms, when every allocation
  succeeds.

  Proved: `evalAtom_run`, the evaluator reads the words of an atom and no more, and ends with
  a pointer to the value that the atom has in the environment.
-/

import KanekFoundations.Cfg.Denote
import KanekFoundations.Cfg.Printed
import KanekFoundations.Cfg.GrammarProofs

namespace KanekFoundations.Cfg

open KanekFoundations.Lib

variable {F : Type} {sys : Sys F} {g g' g₀ : SubHeap (Block F)} {m m' m₀ : Mem F} {l l' : Lex} {env : Env} {v : Val}

/-! ## The lexer in front of words -/

/-- No error so far, and words that fit ahead. -/
structure Lex.At (l : Lex) (ws : List Word) : Prop where
  pos : l.p = spaced ws
  ok : l.error = false
  short : l.p.length ≤ 1022
  fits : ∀ w ∈ ws, w.fits

theorem Lex.At.reads (sys : Sys F) {w : Word} {ws : List Word} (h : l.At (w :: ws)) :
    Reads sys l.p w.tok (spaced ws) := by
  rw [h.pos]
  exact scan_spaced (h.fits w (List.mem_cons_self ..)) ws

theorem Lex.At.shorter {w : Word} {ws : List Word} (h : l.At (w :: ws)) : (spaced ws).length < l.p.length := by
  rw [h.pos, spaced_cons, List.length_cons, List.length_append]
  omega

theorem Lex.At.after {w : Word} {ws : List Word} (h : l.At (w :: ws)) : (l.after (spaced ws) []).At ws := by
  refine ⟨rfl, ?_, Nat.le_trans (Nat.le_of_lt h.shorter) h.short, ?_⟩
  · exact after_error.mpr ⟨h.ok, rfl⟩
  · exact fun w' hw' => h.fits w' (List.mem_cons_of_mem _ hw')

theorem Lex.At.next (sys : Sys F) {w : Word} {ws : List Word} (h : l.At (w :: ws)) :
    ∃ l', nextTok sys l = (w.tok, l') ∧ l'.At ws ∧ l'.p.length < l.p.length :=
  ⟨_, next_of_scan (h.reads sys), h.after, h.shorter⟩

/-- A look at the next token changes nothing. -/
theorem Lex.At.peek {ws : List Word} (h : l.At ws) : peekTok sys l = (ws.head?.elim .eof Word.tok, l) := by
  have hsame : l.after l.p [] = l := by
    unfold Lex.after
    rw [List.isEmpty_nil, Bool.not_true, Bool.or_false, List.append_nil]
  cases ws with
  | nil =>
    have hscan : scanTok sys l.p = ⟨.eof, [], []⟩ := by
      rw [h.pos]
      rfl
    rw [peek_of_scan hscan, hsame]
    rfl
  | cons w ws =>
    have hscan : scanTok sys l.p = ⟨w.tok, spaced ws, []⟩ := by
      rw [h.pos]
      exact scan_spaced (h.fits w (List.mem_cons_self ..)) ws
    rw [peek_of_scan hscan, hsame]
    rfl

theorem Lex.At.length {ws ws' : List Word} (h : l.At (ws ++ ws')) (h' : l'.At ws') : l'.p.length ≤ l.p.length := by
  rw [h.pos, h'.pos, spaced_append, List.length_append]
  exact Nat.le_add_left _ _

theorem Lex.At.report {ws : List Word} (h : l.At ws) (fmt : String) (args : List (List Byte)) :
    (l.report fmt args).At ws :=
  ⟨h.pos, h.ok, h.short, h.fits⟩

/-! ## Words of atoms -/

theorem Atom.words_cons (a : Atom) : ∃ w ws, a.words = w :: ws ∧ (w.tok : Tok F).StartsItem := by
  cases a with
  | str s => exact ⟨_, _, rfl, .inl rfl⟩
  | int i => exact ⟨_, _, rfl, .inr (.inl rfl)⟩
  | bool b =>
    cases b with
    | true => exact ⟨_, _, rfl, ident_startsItem _⟩
    | false => exact ⟨_, _, rfl, ident_startsItem _⟩
  | null => exact ⟨_, _, rfl, ident_startsItem _⟩
  | name x => exact ⟨_, _, rfl, ident_startsItem _⟩
  | index x n => exact ⟨_, _, rfl, ident_startsItem _⟩
  | array items => exact ⟨_, _, rfl, .inr (.inr (.inr (.inr rfl)))⟩

theorem itemWords_cons (first : Bool) (a : Atom) (as : List Atom) :
    itemWords first (a :: as) = (if first then [] else [.comma]) ++ a.words ++ itemWords false as := by
  rw [itemWords]

theorem itemWords_length (first : Bool) (as : List Atom) : as.length ≤ (itemWords first as).length := by
  induction as generalizing first with
  | nil => exact Nat.zero_le _
  | cons a as ih =>
    obtain ⟨w, ws, hw, -⟩ := a.words_cons (F := Unit)
    have hrest := ih false
    rw [itemWords_cons, hw, List.length_append, List.length_append, List.length_cons, List.length_cons]
    omega

theorem spaced_length (ws : List Word) : ws.length ≤ (spaced ws).length := by
  induction ws with
  | nil => exact Nat.zero_le _
  | cons w ws ih =>
    rw [spaced_cons, List.length_cons, List.length_cons, List.length_append]
    omega

/-- What follows an item is no bracket that opens. -/
theorem items_head (as : List Atom) (rest : List Word) :
    (itemWords false as ++ .rbracket :: rest).head? ≠ some .lbracket := by
  cases as with
  | nil =>
    rw [itemWords]
    exact fun h => by cases h
  | cons a as =>
    rw [itemWords_cons]
    exact fun h => by cases h

theorem evalAll_length (env : Env) (as : List Atom) : (evalAll env as).length = as.length := by
  induction as with
  | nil => rw [evalAll]; rfl
  | cons a as ih => rw [evalAll, List.length_cons, List.length_cons, ih]

/-! ## Values -/

def PointsTo (g : SubHeap (Block F)) (v : Val) (r : Option Addr) : Prop := ∃ a, r = some a ∧ Denotes g a v

theorem PointsTo.isVar {r : Option Addr} (h : PointsTo g v r) {a : Addr} (ha : r = some a) : IsVar g a := by
  obtain ⟨a', rfl, hden⟩ := h
  cases ha
  exact hden.isVar

theorem PointsTo.isVal {r : Option Addr} (h : PointsTo g v r) : IsVal sys g r := by
  obtain ⟨a, rfl, hden⟩ := h
  exact isVal_some hden.isVar

theorem PointsTo.text {r : Option Addr} (h : PointsTo g v r) : valText sys g r = v.text := by
  obtain ⟨a, rfl, hden⟩ := h
  exact hden.text

theorem Points.denotes (hyes : sys.NoFail) {b : Block F} {r : Option Addr} (h : Points sys g b r)
    (hden : ∀ a, g a = some b → Denotes g a v) : PointsTo g v r := by
  obtain ⟨a, rfl⟩ := Option.ne_none_iff_exists'.mp (h.2 hyes)
  exact ⟨a, rfl, hden a (h.1 a rfl)⟩

theorem PointsStr.denotes (hyes : sys.NoFail) {text : List Byte} {r : Option Addr} (h : PointsStr sys g text r) :
    PointsTo g (.str text) r := by
  obtain ⟨a, rfl⟩ := Option.ne_none_iff_exists'.mp (h.2 hyes)
  obtain ⟨s, hget, htext, hok⟩ := h.1 a rfl
  obtain ⟨c, rfl⟩ := Option.ne_none_iff_exists'.mp (hok hyes)
  obtain ⟨cap, hc⟩ := htext c rfl
  exact ⟨a, rfl, .str hget hc⟩

/-! ## Atoms -/

/-- The evaluator reads the words up to `rest`, and ends with a pointer to `v`. -/
def RunsTo (g : SubHeap (Block F)) (m : Mem F) (rest : List Word) (v : Val) (r : Option Addr × Lex)
    (m' : Mem F) : Prop :=
  r.2.At rest ∧ ∃ g', Extends g m g' m' ∧ PointsTo g' v r.1

/-- An atom's run, from after its first word. -/
def AtomRuns (sys : Sys F) (env : Env) (n : Nat) (a : Atom) : Prop :=
  ∀ {w : Word} {ws rest : List Word} {l : Lex} {g : SubHeap (Block F)} {m : Mem F}, a.words = w :: ws →
    rest.head? ≠ some .lbracket → l.At (ws ++ rest) → l.p.length < n → Represents sys g m env →
      wp (evalAtom sys n w.tok l) (RunsTo g m rest (a.eval env)) m

/-- A value of a block of its own. -/
theorem leaf_run (hyes : sys.NoFail) {b : Block F} {rest : List Word} {x : M F (Option Addr)} {g₁ : SubHeap (Block F)}
    {m₁ : Mem F} (hext : Extends g m g₁ m₁) (hx : wp x (Yields g₁ m₁ fun g' r => Points sys g' b r) m₁)
    (hden : ∀ g' a, g' a = some b → Denotes g' a v) (hl : l.At rest) :
    wp (do return (← x, l)) (RunsTo g m rest v) m₁ := by
  refine wp.bind hx ?_
  intro r m' hpost
  obtain ⟨g', hext', hp⟩ := hpost
  exact wp_pure.mpr ⟨hl, g', hext.trans hext', hp.denotes hyes fun a => hden g' a⟩

theorem null_run (hyes : sys.NoFail) {rest : List Word} (h : Safe sys g m) (hl : l.At rest) :
    wp (do return (← varNull sys, l)) (RunsTo g m rest .null) m :=
  leaf_run hyes h.refl (varNull_spec h) (fun _ _ => .null) hl

/-- An identifier of a program is no literal. -/
theorem ident_not_word (x : Ident) : ¬ IsWord x.1 := by
  intro hor
  rcases hor with h | h | h
  · exact x.2.2 (h ▸ by decide)
  · exact x.2.2 (h ▸ by decide)
  · exact x.2.2 (h ▸ by decide)

theorem name_run (hyes : sys.NoFail) {n : Nat} (x : Ident) {rest : List Word} (hrest : rest.head? ≠ some .lbracket)
    (hl : l.At rest) (hm : Represents sys g m env) :
    wp (evalAtom sys (n + 1) (.ident x.1) l) (RunsTo g m rest ((Atom.name x).eval env)) m := by
  have hword := ident_not_word x
  have heval : (Atom.name x).eval env = (env x.1).getD .null := by rw [Atom.eval]
  have hno : ¬ (rest.head?.elim .eof Word.tok : Tok F).type = .lbracket := by
    cases rest with
    | nil => exact fun h => by cases h
    | cons w rest =>
      cases w with
      | lbracket => exact absurd rfl hrest
      | _ => exact fun h => by cases h
  rw [evalIdent_plain hword n hl.peek hno, wp_bind, wp_getVar, heval]
  rcases hm.lookup x.1 with ⟨a, v, hget, hv, hden⟩ | ⟨hget, hv⟩
  · rw [hget, hv]
    exact wp_pure.mpr ⟨hl, g, hm.safe.refl, a, rfl, hden⟩
  · rw [hget, hv]
    exact null_run hyes hm.safe (hl.report _ _)

theorem index_run (hyes : sys.NoFail) {n : Nat} (x : Ident) (idx : Nat) {rest : List Word}
    (hl : l.At (.lbracket :: .num idx :: .rbracket :: rest)) (hm : Represents sys g m env) :
    wp (evalAtom sys (n + 1) (.ident x.1) l) (RunsTo g m rest ((Atom.index x idx).eval env)) m := by
  have hword := ident_not_word x
  have heval : (Atom.index x idx).eval env = ((env x.1).getD .null).item idx := by rw [Atom.eval]
  obtain ⟨l₁, hnext₁, hl₁, -⟩ := hl.next sys
  obtain ⟨l₂, hnext₂, hl₂, -⟩ := hl₁.next sys
  obtain ⟨l₃, hnext₃, hl₃, -⟩ := hl₂.next sys
  have hpeek : peekTok sys l = (.lbracket, l) := hl.peek
  have hint : nextTok sys l₁ = (.int (clampI64 idx), l₂) := hnext₂
  have hclose : nextTok sys l₂ = (.rbracket, l₃) := hnext₃
  have hopen : (Tok.lbracket : Tok F).type = .lbracket := rfl
  have hend : (Tok.rbracket : Tok F).type = .rbracket := rfl
  rw [evalIdent_bracket hword n hpeek hopen hnext₁ hint hclose, wp_bind, wp_getVar, heval]
  rw [if_neg (not_not_intro hend)]
  rcases hm.lookup x.1 with ⟨a, v, hget, hv, hden⟩ | ⟨hget, hv⟩
  · rw [hget, hv]
    obtain ⟨b, hb, -⟩ := hden.isVar
    refine wp.bind (varGet_spec hm.safe.within hm.safe.closed hb _) ?_
    intro elem m' hpost
    obtain ⟨rfl, rfl⟩ := hpost
    rcases hden.item idx hb with ⟨a', hitem, hden'⟩ | ⟨hitem, hnull⟩
    · rw [hitem]
      exact wp_pure.mpr ⟨hl₃, g, hm.safe.refl, a', rfl, hden'⟩
    · rw [hitem, Option.getD_some, hnull]
      exact null_run hyes hm.safe hl₃
  · rw [hget, hv]
    exact null_run hyes hm.safe (hl₃.report _ _)

/-! ## Arrays -/

/-- The loop of an array literal, up to the bracket that closes it. -/
theorem evalItems_run {n : Nat} {arr : Addr} {rest : List Word} (h₀ : Represents sys g₀ m₀ env) (hyes : sys.NoFail)
    (items : List Atom) (hitems : ∀ a ∈ items, AtomRuns sys env n a) (first : Bool) (k : Nat) (hk : l.p.length < k)
    (hn : l.p.length ≤ n) (hl : l.At (itemWords first items ++ .rbracket :: rest)) (hext : Extends g₀ m₀ g m)
    {written : List (Option Addr)} {vals : List Val} (hfill : Filling g m.heap m₀.heap.length arr written)
    (hden : DenotesAll g written vals) :
    wp (evalItems sys (evalAtom sys n) arr k l) (fun l' m' => l'.At (.rbracket :: rest) ∧
      ∃ g' written', Extends g₀ m₀ g' m' ∧ Filling g' m'.heap m₀.heap.length arr written' ∧
        DenotesAll g' written' (vals ++ evalAll env items)) m := by
  induction items generalizing first k l g m written vals with
  | nil =>
    cases k with
    | zero => exact absurd hk (Nat.not_lt_zero _)
    | succ k =>
      rw [itemWords, List.nil_append] at hl
      have hpeek : peekTok sys l = (.rbracket, l) := hl.peek
      rw [evalItems_end hpeek (.inl rfl)]
      refine wp_pure.mpr ⟨hl, g, written, hext, hfill, ?_⟩
      rw [evalAll, List.append_nil]
      exact hden
  | cons a as ih =>
    rw [itemWords_cons] at hl
    -- The item itself, and then the rest of the loop.
    have hitem : ∀ (k : Nat) (l : Lex), l.p.length < k → l.p.length ≤ n →
        l.At (a.words ++ (itemWords false as ++ .rbracket :: rest)) →
          wp (evalItems sys (evalAtom sys n) arr k l) (fun l' m' => l'.At (.rbracket :: rest) ∧
            ∃ g' written', Extends g₀ m₀ g' m' ∧ Filling g' m'.heap m₀.heap.length arr written' ∧
              DenotesAll g' written' (vals ++ evalAll env (a :: as))) m := by
      intro k l hk hn hl
      cases k with
      | zero => exact absurd hk (Nat.not_lt_zero _)
      | succ k =>
        obtain ⟨w, ws, hw, hstart⟩ := a.words_cons (F := F)
        rw [hw] at hl
        have hpeek : peekTok sys l = (w.tok, l) := hl.peek
        obtain ⟨l₁, hnext, hl₁, hlt⟩ := hl.next sys
        rw [evalItems_item hpeek hstart, hnext]
        refine wp.bind (hitems a (List.mem_cons_self ..) hw (items_head as rest) hl₁ (by omega) (h₀.extend hext)) ?_
        intro res m₂ hpost
        obtain ⟨r, l₂⟩ := res
        obtain ⟨hl₂, g₂, hext₂, v, hr, hv⟩ := hpost
        dsimp only at hr hl₂
        subst hr
        have hle : l₂.p.length ≤ l₁.p.length := hl₁.length hl₂
        refine wp.bind (varPush_spec (hext.trans hext₂) (hfill.extend hext₂) hv.isVar) ?_
        intro _ m₃ hpost
        obtain ⟨hext₃, written₃, hfill₃, rfl | ⟨hno, -⟩⟩ := hpost
        · have hden₃ := (hden.mono hext₂.grows.sub).snoc hv
          have hrest :=
            ih (fun b hb => hitems b (List.mem_cons_of_mem _ hb)) false k (by omega) (by omega) hl₂ hext₃ hfill₃ hden₃
          rw [List.append_assoc, List.singleton_append] at hrest
          rw [evalAll]
          exact hrest
        · exact absurd hyes hno
    cases first with
    | true =>
      rw [if_pos rfl, List.nil_append, List.append_assoc] at hl
      exact hitem k l hk hn hl
    | false =>
      cases k with
      | zero => exact absurd hk (Nat.not_lt_zero _)
      | succ k =>
        rw [if_neg Bool.false_ne_true, List.append_assoc, List.append_assoc, List.singleton_append] at hl
        have hpeek : peekTok sys l = (.comma, l) := hl.peek
        obtain ⟨l₁, hnext, hl₁, hlt⟩ := hl.next sys
        rw [evalItems_comma hpeek, hnext]
        exact hitem k l₁ (by omega) (by omega) hl₁

theorem array_run (hyes : sys.NoFail) {n : Nat} (items : List Atom) (hitems : ∀ a ∈ items, AtomRuns sys env n a)
    {rest : List Word} (hl : l.At (itemWords true items ++ .rbracket :: rest)) (hn : l.p.length ≤ n)
    (hm : Represents sys g m env) :
    wp (evalAtom sys (n + 1) .lbracket l) (RunsTo g m rest ((Atom.array items).eval env)) m := by
  unfold evalAtom
  refine wp.bind (varArray_spec hm.safe) ?_
  intro arr m₁ hpost
  obtain ⟨hext, hfill, hok⟩ := hpost
  obtain ⟨arr, rfl⟩ := Option.ne_none_iff_exists'.mp (hok hyes)
  refine wp.bind (evalItems_run hm hyes items hitems true _ (Nat.lt_succ_self _) hn hl hext (hfill arr rfl) .nil) ?_
  intro l₂ m₂ hpost
  obtain ⟨hl₂, g₂, written, hext₂, hfill₂, hden⟩ := hpost
  have hpeek : peekTok sys l₂ = (.rbracket, l₂) := hl₂.peek
  obtain ⟨l₃, hnext, hl₃, -⟩ := hl₂.next sys
  have hclose : (Tok.rbracket : Tok F).type = .rbracket := rfl
  rw [hpeek]
  dsimp only
  rw [if_pos hclose, hnext]
  obtain ⟨g₃, hext₃, hsub, block, cap, harr, hptrs⟩ := hfill₂.freeze hext₂
  rw [List.nil_append] at hden
  -- An array has at most as many items as its line has bytes.
  have hsize : written.length < 2 ^ 63 := by
    have hshort := hl.short
    have hwords := itemWords_length true items
    have hbytes := spaced_length (itemWords true items)
    rw [hl.pos, spaced_append, List.length_append] at hshort
    rw [hden.length, evalAll_length]
    omega
  refine wp_pure.mpr ⟨hl₃, g₃, hext₃, arr, rfl, ?_⟩
  rw [Atom.eval]
  exact .array harr hptrs hsize (hden.mono hsub)

/-- With a bound that is large enough, the evaluator makes at least one step. -/
theorem AtomRuns.step {a : Atom}
    (hstep : ∀ (n : Nat) {w : Word} {ws rest : List Word} {l : Lex} {g : SubHeap (Block F)} {m : Mem F},
    a.words = w :: ws → rest.head? ≠ some .lbracket → l.At (ws ++ rest) → l.p.length ≤ n → Represents sys g m env →
      wp (evalAtom sys (n + 1) w.tok l) (RunsTo g m rest (a.eval env)) m) : ∀ n, AtomRuns sys env n a := by
  intro n w ws rest l g m hw hrest hl hn hm
  cases n with
  | zero => exact absurd hn (Nat.not_lt_zero _)
  | succ n => exact hstep n hw hrest hl (Nat.le_of_lt_succ hn) hm

/-- The evaluator reads an atom, and ends with its value. -/
theorem evalAtom_run (hyes : sys.NoFail) (env : Env) (a : Atom) : ∀ n, AtomRuns sys env n a := by
  induction a using Atom.ind with
  | hstr s =>
    refine AtomRuns.step fun n w ws rest l g m hw hrest hl hn hm => ?_
    cases hw
    refine wp.bind (varStr_spec hm.safe s.1) ?_
    intro r m' hpost
    obtain ⟨g', hext, hstr⟩ := hpost
    refine wp_pure.mpr ⟨hl, g', hext, ?_⟩
    rw [Atom.eval]
    exact hstr.denotes hyes
  | hint i =>
    refine AtomRuns.step fun n w ws rest l g m hw hrest hl hn hm => ?_
    cases hw
    have hclamp : clampI64 i.1 = i.1 := by
      have hlo := i.2.1
      have hhi := i.2.2
      unfold clampI64
      omega
    have hrun := leaf_run (l := l) hyes hm.safe.refl (varInt_spec hm.safe (clampI64 i.1)) (fun _ _ => .int) hl
    rw [hclamp] at hrun
    rw [Atom.eval]
    show wp (evalAtom sys (n + 1) (.int (clampI64 i.1)) l) _ m
    rw [hclamp]
    exact hrun
  | hbool b =>
    refine AtomRuns.step fun n w ws rest l g m hw hrest hl hn hm => ?_
    rw [Atom.eval]
    cases b with
    | true =>
      cases hw
      exact leaf_run hyes hm.safe.refl (varBool_spec hm.safe 1) (fun _ _ => .bool) hl
    | false =>
      cases hw
      exact leaf_run hyes hm.safe.refl (varBool_spec hm.safe 0) (fun _ _ => .bool) hl
  | hnull =>
    refine AtomRuns.step fun n w ws rest l g m hw hrest hl hn hm => ?_
    cases hw
    rw [Atom.eval]
    exact null_run hyes hm.safe hl
  | hname x =>
    refine AtomRuns.step fun n w ws rest l g m hw hrest hl hn hm => ?_
    cases hw
    exact name_run hyes x hrest hl hm
  | hindex x idx =>
    refine AtomRuns.step fun n w ws rest l g m hw hrest hl hn hm => ?_
    cases hw
    exact index_run hyes x idx hl hm
  | harray items ih =>
    refine AtomRuns.step fun n w ws rest l g m hw hrest hl hn hm => ?_
    rw [Atom.words, List.cons_append] at hw
    obtain ⟨rfl, rfl⟩ := List.cons.inj hw
    rw [List.append_assoc, List.singleton_append] at hl
    exact array_run hyes items (fun a ha => ih a ha n) hl hn hm

end KanekFoundations.Cfg

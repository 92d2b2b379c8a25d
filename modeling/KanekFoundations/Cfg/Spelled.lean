/-
  KanekFoundations.Cfg.Spelled — values that are written out in a line.

  `Spells sys p v q`: from one position to another the text is the value `v`, without a
  variable in it, in any spacing and with any commas between the items. The relation follows
  the dispatch of `eval_atom`.

  Proved, when every allocation succeeds:
  - `Spells.run`: the evaluator reads that text and no more, reports nothing, and ends with a
    pointer to the value.
-/

import KanekFoundations.Cfg.CommentProofs
import KanekFoundations.Cfg.ProgramProofs

namespace KanekFoundations.Cfg

open KanekFoundations.Lib

variable {F : Type} {sys : Sys F} {g g₀ : SubHeap (Block F)} {m m₀ : Mem F} {l : Lex} {p q r : List Byte} {v : Val}
    {vals : List Val}

mutual

inductive Spells (sys : Sys F) : List Byte → Val → List Byte → Prop
  | null {p q : List Byte} : Reads sys p (.ident nullText) q → Spells sys p .null q
  | bool {p q : List Byte} (b : Bool) : Reads sys p (.ident (boolText b)) q → Spells sys p (.bool b) q
  | int {p q : List Byte} {i : Int} : Reads sys p (.int i) q → Spells sys p (.int i) q
  | str {p q s : List Byte} : Reads sys p (.string s) q → Spells sys p (.str s) q
  | array {p q r : List Byte} {vals : List Val} : Reads sys p .lbracket q → SpellsItems sys q vals r →
    Spells sys p (.array vals) r

/-- The items of an array, up to and with the bracket that closes it. -/
inductive SpellsItems (sys : Sys F) : List Byte → List Val → List Byte → Prop
  | close {p q : List Byte} : Reads sys p .rbracket q → SpellsItems sys p [] q
  | comma {p q r : List Byte} {vals : List Val} : Reads sys p .comma q → SpellsItems sys q vals r →
    SpellsItems sys p vals r
  | item {p q r : List Byte} {v : Val} {vals : List Val} :
    Spells sys p v q → SpellsItems sys q vals r → SpellsItems sys p (v :: vals) r

end

/-- The token a value starts with. -/
theorem Spells.lead (h : Spells sys p v q) : ∃ t p', Reads sys p t p' ∧ t.StartsItem := by
  cases h with
  | null hr => exact ⟨_, _, hr, ident_startsItem _⟩
  | bool b hr => exact ⟨_, _, hr, ident_startsItem _⟩
  | int hr => exact ⟨_, _, hr, .inr (.inl rfl)⟩
  | str hr => exact ⟨_, _, hr, .inl rfl⟩
  | array hr _ => exact ⟨_, _, hr, .inr (.inr (.inr (.inr rfl)))⟩

theorem Reads.shorter {t : Tok F} (h : Reads sys p t q) (ht : t.type ≠ .eof) : q.length < p.length :=
    (scan_length h).2 ht

mutual

theorem Spells.length : ∀ {p v q}, Spells sys p v q → q.length < p.length
  | _, _, _, .null hr => hr.shorter nofun
  | _, _, _, .bool _ hr => hr.shorter nofun
  | _, _, _, .int hr => hr.shorter nofun
  | _, _, _, .str hr => hr.shorter nofun
  | _, _, _, .array hr hitems => Nat.lt_of_le_of_lt (Nat.le_trans (Nat.le_add_left _ _) hitems.length)
      (hr.shorter nofun)

/-- Every item takes a byte. -/
theorem SpellsItems.length : ∀ {p vals q}, SpellsItems sys p vals q → vals.length + q.length ≤ p.length
  | _, _, _, .close hr => by
    rw [List.length_nil, Nat.zero_add]
    exact Nat.le_of_lt (hr.shorter nofun)
  | _, _, _, .comma hr hitems => Nat.le_trans hitems.length (Nat.le_of_lt (hr.shorter nofun))
  | _, _, _, .item hv hitems => by
    have hfirst := hv.length
    have hrest := hitems.length
    rw [List.length_cons]
    omega

end

/-! ## The evaluator -/

theorem after_after (l : Lex) (q r : List Byte) : (l.after q []).after r [] = l.after r [] := by
  simp [Lex.after]

/-- The evaluator stands at `q`, with a pointer to `v`. -/
def EvalsTo (g : SubHeap (Block F)) (m : Mem F) (l : Lex) (v : Val) (q : List Byte) (r : Option Addr × Lex)
    (m' : Mem F) : Prop :=
  r.2 = l.after q [] ∧ ∃ g', Extends g m g' m' ∧ PointsTo g' v r.1

/-- A value of a block of its own, that is one token. -/
theorem leaf_evals (hyes : sys.NoFail) {b : Block F} {x : M F (Option Addr)}
    (hx : wp x (Yields g m fun g' r => Points sys g' b r) m) (hden : ∀ g' a, g' a = some b → Denotes g' a v) :
    wp (do return (← x, l.after q [])) (EvalsTo g m l v q) m := by
  refine wp.bind hx fun a m' hpost => ?_
  obtain ⟨g', hext, hp⟩ := hpost
  exact wp_pure.mpr ⟨rfl, g', hext, hp.denotes hyes fun a => hden g' a⟩

/-- The evaluator is right before the bracket that closes the array at `q`, and `vals` are its items. -/
def ItemsTo (sys : Sys F) (g₀ : SubHeap (Block F)) (m₀ : Mem F) (l : Lex) (arr : Addr) (vals : List Val)
    (q : List Byte) (l' : Lex)
    (m' : Mem F) : Prop :=
  ∃ e g' written, Reads sys e .rbracket q ∧ l' = l.after e [] ∧ Extends g₀ m₀ g' m' ∧
    Filling g' m'.heap m₀.heap.length arr written ∧ DenotesAll g' written vals

/-- A look at the next token, and then the token. -/
theorem look_and_take {t : Tok F} (h : Reads sys p t q) (l : Lex) :
    peekTok sys (l.after p []) = (t, l.after p []) ∧ nextTok sys (l.after p []) = (t, l.after q []) := by
  have hpeek : peekTok sys (l.after p []) = (t, (l.after p []).after p []) := peek_of_scan h
  have hnext : nextTok sys (l.after p []) = (t, (l.after p []).after q []) := next_of_scan h
  rw [after_after] at hpeek hnext
  exact ⟨hpeek, hnext⟩

mutual

/-- A value that is written out is read to its end. -/
theorem Spells.run (hyes : sys.NoFail) : ∀ {p v q}, Spells sys p v q →
    ∀ {t : Tok F} {p' : List Byte} {n : Nat} {l : Lex}
    {g : SubHeap (Block F)} {m : Mem F}, Reads sys p t p' → p'.length < n → p.length < 2 ^ 63 → Safe sys g m →
      wp (evalAtom sys n t (l.after p' [])) (EvalsTo g m l v q) m
  | _, _, _, .null hr, t, p', n, l, g, m, ht, hn, _, hm => by
    obtain ⟨rfl, rfl⟩ := Reads.unique hr ht
    obtain ⟨n, rfl⟩ := Nat.exists_eq_add_one.mpr (Nat.zero_lt_of_lt hn)
    exact leaf_evals hyes (varNull_spec hm) fun _ _ => .null
  | _, _, _, .bool b hr, t, p', n, l, g, m, ht, hn, _, hm => by
    obtain ⟨rfl, rfl⟩ := Reads.unique hr ht
    obtain ⟨n, rfl⟩ := Nat.exists_eq_add_one.mpr (Nat.zero_lt_of_lt hn)
    cases b with
    | true => exact leaf_evals hyes (varBool_spec hm 1) fun _ _ => .bool
    | false => exact leaf_evals hyes (varBool_spec hm 0) fun _ _ => .bool
  | _, _, _, .int hr, t, p', n, l, g, m, ht, hn, _, hm => by
    obtain ⟨rfl, rfl⟩ := Reads.unique hr ht
    obtain ⟨n, rfl⟩ := Nat.exists_eq_add_one.mpr (Nat.zero_lt_of_lt hn)
    exact leaf_evals hyes (varInt_spec hm _) fun _ _ => .int
  | _, _, _, .str hr, t, p', n, l, g, m, ht, hn, _, hm => by
    obtain ⟨rfl, rfl⟩ := Reads.unique hr ht
    obtain ⟨n, rfl⟩ := Nat.exists_eq_add_one.mpr (Nat.zero_lt_of_lt hn)
    refine wp.bind (varStr_spec hm _) fun a m' hpost => ?_
    obtain ⟨g', hext, hstr⟩ := hpost
    exact wp_pure.mpr ⟨rfl, g', hext, hstr.denotes hyes⟩
  | p, _, q, .array hr hitems, t, p', n, l, g, m, ht, hn, hshort, hm => by
    obtain ⟨rfl, rfl⟩ := Reads.unique hr ht
    obtain ⟨n, rfl⟩ := Nat.exists_eq_add_one.mpr (Nat.zero_lt_of_lt hn)
    have hbytes := hitems.length
    have hlt := hr.shorter nofun
    unfold evalAtom
    refine wp.bind (varArray_spec hm) fun arr m₁ hpost => ?_
    obtain ⟨hext, hfill, hok⟩ := hpost
    obtain ⟨arr, rfl⟩ := Option.ne_none_iff_exists'.mp (hok hyes)
    refine wp.bind (hitems.run hyes (Nat.lt_succ_self _) (by omega) (by omega) hm hext (hfill arr rfl) DenotesAll.nil)
      fun l₂ m₂ hpost => ?_
    obtain ⟨e, g₂, written, hclose, rfl, hext₂, hfill₂, hden⟩ := hpost
    obtain ⟨hpeek, hnext⟩ := look_and_take hclose l
    have htype : (Tok.rbracket : Tok F).type = .rbracket := rfl
    rw [hpeek]
    dsimp only
    rw [if_pos htype, hnext]
    obtain ⟨g₃, hext₃, hsub, block, cap, harr, hptrs⟩ := hfill₂.freeze hext₂
    have hsize : written.length < 2 ^ 63 := by
      rw [hden.length, List.nil_append]
      omega
    exact wp_pure.mpr ⟨rfl, g₃, hext₃, arr, rfl, .array harr hptrs hsize (hden.mono hsub)⟩

theorem SpellsItems.run (hyes : sys.NoFail) : ∀ {p vals q}, SpellsItems sys p vals q →
    ∀ {n k : Nat} {l : Lex} {arr : Addr}
    {g₀ g : SubHeap (Block F)} {m₀ m : Mem F} {written : List (Option Addr)} {before : List Val}, p.length < k →
    p.length ≤ n →
      p.length < 2 ^ 63 → Safe sys g₀ m₀ → Extends g₀ m₀ g m → Filling g m.heap m₀.heap.length arr written →
        DenotesAll g written before →
          wp (evalItems sys (evalAtom sys n) arr k (l.after p [])) (ItemsTo sys g₀ m₀ l arr (before ++ vals) q) m
  | p, _, _, .close hr, n, k, l, arr, g₀, g, m₀, m, written, before, hk, _, _, _, hext, hfill, hden => by
    obtain ⟨k, rfl⟩ := Nat.exists_eq_add_one.mpr (Nat.zero_lt_of_lt hk)
    rw [evalItems_end (look_and_take hr l).1 (.inl rfl)]
    rw [List.append_nil]
    exact wp_pure.mpr ⟨p, g, written, hr, rfl, hext, hfill, hden⟩
  | p, _, _, .comma hr hitems, n, k, l, arr, g₀, g, m₀, m, written, before, hk, hn, hshort, h₀, hext, hfill, hden => by
    obtain ⟨k, rfl⟩ := Nat.exists_eq_add_one.mpr (Nat.zero_lt_of_lt hk)
    have hlt := hr.shorter nofun
    obtain ⟨hpeek, hnext⟩ := look_and_take hr l
    rw [evalItems_comma hpeek, hnext]
    exact SpellsItems.run hyes hitems (by omega) (by omega) (by omega) h₀ hext hfill hden
  | p, _, _, .item hv hitems, n, k, l, arr, g₀, g, m₀, m, written, before, hk, hn, hshort, h₀, hext, hfill, hden => by
    obtain ⟨k, rfl⟩ := Nat.exists_eq_add_one.mpr (Nat.zero_lt_of_lt hk)
    have hlt := hv.length
    obtain ⟨t, p', hr, hstart⟩ := hv.lead
    have hlead := hr.shorter (startsItem_not_eof hstart)
    obtain ⟨hpeek, hnext⟩ := look_and_take hr l
    rw [evalItems_item hpeek hstart, hnext]
    refine wp.bind (Spells.run hyes hv hr (by omega) hshort (h₀.extend hext)) fun res m₂ hpost => ?_
    obtain ⟨r, l₂⟩ := res
    obtain ⟨hl₂, g₂, hext₂, a, hr₂, hval⟩ := hpost
    dsimp only at hl₂ hr₂
    subst hl₂ hr₂
    refine wp.bind (varPush_spec (hext.trans hext₂) (hfill.extend hext₂) hval.isVar) fun _ m₃ hpost => ?_
    obtain ⟨hext₃, written₃, hfill₃, rfl | ⟨hno, -⟩⟩ := hpost
    · have hden₃ := (hden.mono hext₂.grows.sub).snoc hval
      have hrest :=
        SpellsItems.run (k := k) (l := l) hyes hitems (by omega) (by omega : _ ≤ n) (by omega) h₀ hext₃ hfill₃ hden₃
      rw [List.append_assoc, List.singleton_append] at hrest
      exact hrest
    · exact absurd hyes hno

end

/-! ## Assignments -/

/-- A value and nothing behind it that goes on with it. -/
theorem rhs_spelled (hyes : sys.NoFail) (h : Spells sys p v q) {t : Tok F} (hend : Reads sys q t r)
    (ht : t.type ≠ .plus)
    (hshort : p.length < 2 ^ 63) (hm : Safe sys g m) : wp (evalRhs sys (l.after p [])) (EvalsTo g m l v q) m := by
  obtain ⟨t₀, p', hlead, hstart⟩ := h.lead
  rw [evalRhs_eq, (look_and_take hlead l).2]
  dsimp only
  rw [if_neg (startsItem_not_ends hstart)]
  refine wp.bind (h.run hyes hlead (Nat.lt_succ_self _) hshort hm) fun res m₁ hpost => ?_
  obtain ⟨a, l₁⟩ := res
  obtain ⟨hl₁, g₁, hext, a, ha, hval⟩ := hpost
  dsimp only at hl₁ ha
  subst hl₁ ha
  unfold rhsTail
  rw [(look_and_take hend l).1]
  dsimp only
  rw [if_pos ht]
  exact wp_pure.mpr ⟨rfl, g₁, hext, a, rfl, hval⟩

theorem lineText_length (rawLine : List Byte) : (lineText rawLine).length ≤ 1023 := by
  have hcut :
      (((rawLine.takeWhile (· ≠ 0)).take (CFG_MAX_LINE - 1)).reverse.dropWhile isspace).reverse.length ≤ 1023 := by
    rw [List.length_reverse]
    refine Nat.le_trans (List.length_dropWhile_le _ _) ?_
    rw [List.length_reverse, List.length_take]
    exact Nat.min_le_left _ _
  exact Nat.le_trans (List.length_dropWhile_le _ _) hcut

theorem setTail_trace (sys : Sys F) (key : List Byte) (res : Option Addr × Lex) (m : Mem F) :
    wlp (setTail sys key res) (fun _ m' => m'.trace = m.trace ++ res.2.trace) m := by
  intro rc m' hrun
  cases hrun
  rfl

theorem Represents.log (hm : Represents sys g m env) (files : List FileEvent) :
    Represents sys g { m with files := files } env :=
  ⟨⟨hm.safe.within, hm.safe.closed, hm.safe.inv, hm.safe.vars⟩, hm.vars⟩

/-- The line is done without a complaint, and `env` is what there is then. -/
def SetsTo (sys : Sys F) (env : Env) (m : Mem F) (rc : Int) (m' : Mem F) : Prop :=
  m'.trace = m.trace ∧ Ran sys env rc m'

/-- A line that sets a variable to a value that is written out. -/
theorem assign_spelled (hyes : sys.NoFail) (loadFile : List Byte → M F Int) {rawLine : List Byte} (dir : List Byte)
    {env : Env} {k p₁ : List Byte} {t : Tok F} (hkey : Reads sys (lineText rawLine) (.ident k) p₁)
    (hincl : k ≠ includeText)
    (hdisp : k ≠ displayText) (hlen : k.length ≤ CFG_MAX_TOK - 1) (heq : Reads sys p₁ .eq p) (h : Spells sys p v q)
    (hend : Reads sys q t r) (ht : t.type ≠ .plus) (hm : Represents sys g m env) :
    wp (parseLine sys loadFile rawLine dir) (SetsTo sys (env.set k v) m) m := by
  have hshort : p.length < 2 ^ 63 := by
    have hline := lineText_length rawLine
    have hfirst := hkey.shorter nofun
    have hop := heq.shorter nofun
    omega
  rw [parseLine_assign loadFile dir hkey hincl hdisp heq, List.take_of_length_le hlen]
  refine wp.bind (rhs_spelled (l := ⟨p, false, []⟩) hyes h hend ht hshort hm.safe) fun res m₁ hpost => ?_
  obtain ⟨a, l₁⟩ := res
  obtain ⟨hl₁, g₁, hext, hval⟩ := hpost
  dsimp only at hl₁ hval
  subst hl₁
  have hm₁ := hm.extend hext
  refine ((store_spec hm₁.safe k hval.isVal (P := fun g' r => PointsTo g' v r) hval).and
    (setTail_trace sys k _ m₁)).mono
    fun rc m' hpost => ⟨hpost.2.trans ?_, hpost.1.ran hyes hm₁ rfl⟩
  rw [hext.trace]
  exact List.append_nil _

end KanekFoundations.Cfg

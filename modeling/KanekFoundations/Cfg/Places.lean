/-
  KanekFoundations.Cfg.Places — where the values of a line stand, and the integers there.

  `RhsPlace sys p r`: along the grammar, an operand of the right-hand side at `p`, or an item of
  an array in it, starts at `r`. `RhsCalls` are the calls of `eval_atom` in a run, each with
  the memory it is made in.

  Proved:
  - `place_called`: with allocations succeeding, `eval_atom` is called at every place;
  - `int_literals_iff`: an integer literal that fits makes a `VAR_INT` of its value, and nothing
    else under any outcome of the allocations; a line keeps to the values of its literals, or is
    answered with -1, exactly when they all fit or the line is not accepted for another reason.
-/

import KanekFoundations.Cfg.Buffer
import KanekFoundations.Cfg.Literals

namespace KanekFoundations.Cfg

open KanekFoundations.Lib

variable {F : Type} {sys : Sys F} {g g' g₀ : SubHeap (Block F)} {m m' m₀ : Mem F} {l l' : Lex}
  {p q q' r : List Byte} {tok : Tok F} {e e' : Bool}

/-! ## Places -/

/-- Where the items of an array stand, and those of the arrays in it. -/
inductive ItemPlace (sys : Sys F) : List Byte → List Byte → Prop
  | here {p q : List Byte} {t : Tok F} : Reads sys p t q → t.StartsItem → ItemPlace sys p p
  | inside {p q r : List Byte} : Reads sys p .lbracket q → ItemPlace sys q r → ItemPlace sys p r
  | comma {p q r : List Byte} : Reads sys p .comma q → ItemPlace sys q r → ItemPlace sys p r
  | next {p q q' r : List Byte} {t : Tok F} :
    Reads sys p t q → t.StartsItem → AcceptsAtom sys False t q q' → ItemPlace sys q' r → ItemPlace sys p r

/-- The operand at `p`, or an item in it. -/
def AtomPlace (sys : Sys F) (p r : List Byte) : Prop := r = p ∨ ∃ q, Reads sys p .lbracket q ∧ ItemPlace sys q r

/-- Behind an operand that ends at a position. -/
inductive MorePlace (sys : Sys F) : List Byte → List Byte → Prop
  | here {p q q' r : List Byte} {t : Tok F} :
    Reads sys p .plus q → Reads sys q t q' → ¬ t.Ends → AtomPlace sys q r → MorePlace sys p r
  | next {p q q' q'' r : List Byte} {t : Tok F} :
    Reads sys p .plus q → Reads sys q t q' → ¬ t.Ends → AcceptsAtom sys False t q' q'' → MorePlace sys q'' r →
      MorePlace sys p r

inductive RhsPlace (sys : Sys F) : List Byte → List Byte → Prop
  | first {p q r : List Byte} {t : Tok F} : Reads sys p t q → ¬ t.Ends → AtomPlace sys p r → RhsPlace sys p r
  | next {p q q' r : List Byte} {t : Tok F} :
    Reads sys p t q → ¬ t.Ends → AcceptsAtom sys False t q q' → MorePlace sys q' r → RhsPlace sys p r

/-- Where the values of a line stand. -/
inductive LinePlace (sys : Sys F) : List Byte → List Byte → Prop
  | display {p q r : List Byte} : Reads sys p (.ident displayText) q → RhsPlace sys q r → LinePlace sys p r
  | assign {p q q' r k : List Byte} : Reads sys p (.ident k) q → k ≠ includeText → k ≠ displayText →
    Reads sys q .eq q' →
    RhsPlace sys q' r → LinePlace sys p r
  | append {p q q' r k : List Byte} : Reads sys p (.ident k) q → k ≠ includeText → k ≠ displayText →
    Reads sys q .pluseq q' →
    RhsPlace sys q' r → LinePlace sys p r

/-! ## Calls -/

/-- A call of `eval_atom`: the lexer is in front of the lead token. -/
structure Call (F : Type) where
  depth : Nat
  l : Lex
  m : Mem F

def Call.run (sys : Sys F) (c : Call F) : Option ((Option Addr × Lex) × Mem F) :=
  evalAtom sys c.depth (nextTok sys c.l).1 (nextTok sys c.l).2 c.m

/-- The calls in the loop of an array literal. -/
inductive ItemCalls (sys : Sys F) (n : Nat) (arr : Addr) : Lex → Mem F → Call F → Prop
  | here {l : Lex} {m : Mem F} : (peekTok sys l).1.StartsItem → ItemCalls sys n arr l m ⟨n, (peekTok sys l).2, m⟩
  | comma {l : Lex} {m : Mem F} {c : Call F} : (peekTok sys l).1.type = .comma →
    ItemCalls sys n arr (nextTok sys (peekTok sys l).2).2 m c → ItemCalls sys n arr l m c
  | skip {l : Lex} {m : Mem F} {c : Call F} :
    (peekTok sys l).1.type = .eq ∨ (peekTok sys l).1.type = .pluseq ∨ (peekTok sys l).1.type = .plus →
      ItemCalls sys n arr (nextTok sys ((peekTok sys l).2.fail "unexpected token in array literal")).2 m c →
      ItemCalls sys n arr l m c
  | push {l l' : Lex} {m m₁ m₂ : Mem F} {item : Addr} {rc : Int} {c : Call F} : (peekTok sys l).1.StartsItem →
    (Call.mk n (peekTok sys l).2 m).run sys = some ((some item, l'), m₁) →
      varPush sys (some arr) (some item) m₁ = some (rc, m₂) → ItemCalls sys n arr l' m₂ c → ItemCalls sys n arr l m c
  | noItem {l l' : Lex} {m m₁ : Mem F} {c : Call F} : (peekTok sys l).1.StartsItem →
    (Call.mk n (peekTok sys l).2 m).run sys = some ((none, l'), m₁) → ItemCalls sys n arr l' m₁ c →
      ItemCalls sys n arr l m c

/-- The loop of a concatenation is at its head. -/
inductive AtHead (sys : Sys F) (l : Lex) (m : Mem F) : Head → Mem F → Prop
  | start {h : Head} {m₁ : Mem F} : rhsHead sys l m = some (.inr h, m₁) → AtHead sys l m h m₁
  | round {h h' : Head} {m₁ m₂ : Mem F} :
    AtHead sys l m h m₁ → concatRound sys h m₁ = some (.inr h', m₂) → AtHead sys l m h' m₂

/-- The calls in the run of a right-hand side. -/
inductive RhsCalls (sys : Sys F) (l : Lex) (m : Mem F) : Call F → Prop
  | first : ¬ (nextTok sys l).1.Ends → RhsCalls sys l m ⟨(nextTok sys l).2.p.length + 1, l, m⟩
  | operand {h : Head} {l₁ : Lex} {m₁ : Mem F} : AtHead sys l m h m₁ → (peekTok sys h.l).1.type = .plus →
    (nextTok sys (peekTok sys h.l).2).2 = l₁ → ¬ (nextTok sys l₁).1.Ends →
      RhsCalls sys l m ⟨(nextTok sys l₁).2.p.length + 1, l₁, m₁⟩
  | item {n : Nat} {l₁ : Lex} {m₁ m₂ : Mem F} {arr : Addr} {c : Call F} :
    RhsCalls sys l m ⟨n + 1, l₁, m₁⟩ → (nextTok sys l₁).1.type = .lbracket → varArray sys m₁ = some (some arr, m₂) →
      ItemCalls sys n arr (nextTok sys l₁).2 m₂ c → RhsCalls sys l m c

/-- The calls in the run of a line. -/
inductive LineCalls (sys : Sys F) (m : Mem F) : List Byte → Call F → Prop
  | display {p q : List Byte} {c : Call F} :
    Reads sys p (.ident displayText) q → RhsCalls sys ⟨q, false, []⟩ m c → LineCalls sys m p c
  | assign {p q q' k : List Byte} {c : Call F} : Reads sys p (.ident k) q → k ≠ includeText → k ≠ displayText →
    Reads sys q .eq q' → RhsCalls sys ⟨q', false, []⟩ m c → LineCalls sys m p c
  | append {p q q' k : List Byte} {es : Option Addr} {m₁ : Mem F} {c : Call F} : Reads sys p (.ident k) q →
    k ≠ includeText →
    k ≠ displayText → Reads sys q .pluseq q' → oldText sys (k.take (CFG_MAX_TOK - 1)) m = some (es, m₁) →
      RhsCalls sys ⟨q', false, []⟩ m₁ c → LineCalls sys m p c

/-! ## Every place is read -/

/-- The call has the depth it needs, in a memory where the values are sound. -/
structure Ready (sys : Sys F) (c : Call F) : Prop where
  depth : (nextTok sys c.l).2.p.length < c.depth
  safe : ∃ g, Safe sys g c.m

/-- The array is being filled. -/
def Fills (sys : Sys F) (arr : Addr) (m : Mem F) : Prop :=
  ∃ g₀ m₀ g written, Safe sys g₀ m₀ ∧ Extends g₀ m₀ g m ∧ Filling g m.heap m₀.heap.length arr written

/-- An operand ends where its derivation does. -/
theorem AtomReads.accepted (h : Safe sys g m) (hyes : sys.NoFail) {text : List Byte}
    (hatom : AtomReads sys g m tok p text q e)
    (hacc : AcceptsAtom sys False tok p q') : q' = q := by
  obtain ⟨⟨r, m'⟩, hrun, hstep, -⟩ := evalAtom_spec (p.length + 1) tok ⟨p, false, []⟩ g m (Nat.lt_succ_self _) h
  have hwent : Lex.Went ⟨p, false, []⟩ r.2 q e := hatom.went _ _ m rfl r m' hrun
  exact (hstep.complete hyes rfl q' hacc).2.symm.trans hwent.place

/-- A call with an array literal goes into its loop. -/
theorem array_opened (hyes : sys.NoFail) {c : Call F} (hc : Ready sys c) (hr : Reads sys c.l.p .lbracket q) :
    ∃ n arr m₂, c.depth = n + 1 ∧ q.length ≤ n ∧ nextTok sys c.l = (.lbracket, c.l.after q []) ∧
      varArray sys c.m = some (some arr, m₂) ∧ Fills sys arr m₂ := by
  obtain ⟨g, hm⟩ := hc.safe
  have hnext : nextTok sys c.l = (.lbracket, c.l.after q []) := next_of_scan hr
  have hdepth := hc.depth
  rw [hnext] at hdepth
  obtain ⟨n, hn⟩ := Nat.exists_eq_succ_of_ne_zero (Nat.ne_of_gt (Nat.zero_lt_of_lt hdepth))
  obtain ⟨⟨arr, m₂⟩, hrun, hext, hfill, hok⟩ := varArray_spec hm
  obtain ⟨arr, rfl⟩ := Option.ne_none_iff_exists'.mp (hok hyes)
  rw [hn] at hdepth
  exact ⟨n, arr, m₂, hn, Nat.le_of_lt_succ hdepth, hnext, hrun, g, c.m, g, [], hm, hext, hfill arr rfl⟩

/-- The loop of an array calls for the item that it is at. -/
theorem item_here {t : Tok F} {arr : Addr} {n : Nat} (hr : Reads sys l.p t q) (hstart : t.StartsItem)
    (hn : l.p.length ≤ n)
    (hfills : Fills sys arr m) :
    ItemCalls sys n arr l m ⟨n, l.after l.p [], m⟩ ∧ Ready sys ⟨n, l.after l.p [], m⟩ := by
  obtain ⟨g₀, m₀, g, written, h₀, hext, -⟩ := hfills
  have hpeek : peekTok sys l = (t, l.after l.p []) := peek_of_scan hr
  have hnext : nextTok sys (l.after l.p []) = (t, (l.after l.p []).after q []) := next_of_scan hr
  have hcall : ItemCalls sys n arr l m ⟨n, (peekTok sys l).2, m⟩ := .here (by rw [hpeek]; exact hstart)
  rw [hpeek] at hcall
  refine ⟨hcall, ?_, g, h₀.extend hext⟩
  show (nextTok sys (l.after l.p [])).2.p.length < n
  rw [hnext]
  exact Nat.lt_of_lt_of_le ((scan_length hr).2 (startsItem_not_eof hstart)) hn

/-- The loop of an array gets to each of its places. `R` holds of the calls that are made. -/
theorem items_called (hyes : sys.NoFail) {R : Call F → Prop}
    (hdeep : ∀ n l₁ m₁ arr m₂ c, R ⟨n + 1, l₁, m₁⟩ → (nextTok sys l₁).1.type = .lbracket →
      varArray sys m₁ = some (some arr, m₂) → ItemCalls sys n arr (nextTok sys l₁).2 m₂ c → R c)
    (hplace : ItemPlace sys p r) :
    ∀ {n arr l m}, l.p = p → p.length ≤ n → Fills sys arr m → (∀ c, ItemCalls sys n arr l m c → R c) →
      ∃ c, R c ∧ c.l.p = r ∧ Ready sys c := by
  induction hplace with
  | here hr hstart =>
    intro n arr l m hl hn hfills hcalls
    subst hl
    obtain ⟨hcall, hready⟩ := item_here hr hstart hn hfills
    exact ⟨_, hcalls _ hcall, rfl, hready⟩
  | @inside p q r hr _ ih =>
    intro n arr l m hl hn hfills hcalls
    subst hl
    obtain ⟨hcall, hready⟩ := item_here hr (.inr (.inr (.inr (.inr rfl)))) hn hfills
    obtain ⟨k, arr', m₂, hk, hq, hnext, hrun, hfills'⟩ := array_opened hyes hready hr
    dsimp only at hk hnext hrun
    subst hk
    refine ih (l := (l.after l.p []).after q []) rfl hq hfills' fun c' hc' => ?_
    refine hdeep k _ m arr' m₂ c' (hcalls _ hcall) (by rw [hnext]; rfl) hrun ?_
    rw [hnext]
    exact hc'
  | @comma p q r hr _ ih =>
    intro n arr l m hl hn hfills hcalls
    subst hl
    have hpeek : peekTok sys l = (.comma, l.after l.p []) := peek_of_scan hr
    have hnext : nextTok sys (l.after l.p []) = (.comma, (l.after l.p []).after q []) := next_of_scan hr
    refine ih (l := (l.after l.p []).after q []) rfl (Nat.le_trans (scan_length hr).1 hn) hfills fun c hc => hcalls c ?_
    refine .comma (by rw [hpeek]; rfl) ?_
    rw [hpeek, hnext]
    exact hc
  | @next p q q' r t hr hstart hacc _ ih =>
    intro n arr l m hl hn hfills hcalls
    obtain ⟨g₀, m₀, g, written, h₀, hext, hfill⟩ := hfills
    subst hl
    have hm := h₀.extend hext
    have hpeek : peekTok sys l = (t, l.after l.p []) := peek_of_scan hr
    have hnext : nextTok sys (l.after l.p []) = (t, (l.after l.p []).after q []) := next_of_scan hr
    have hlt : q.length < l.p.length := (scan_length hr).2 (startsItem_not_eof hstart)
    obtain ⟨text, q₁, e, hatom⟩ := atom_reads hm hyes t q
    obtain rfl := hatom.accepted hm hyes hacc
    have hle := hatom.length
    obtain ⟨⟨⟨item, l₁⟩, m₁⟩, hrun, ⟨g₁, hext₁, hval, -⟩, hwent⟩ :=
      hatom.run (l := (l.after l.p []).after q []) rfl (Nat.lt_of_lt_of_le hlt hn) hm.refl
    obtain ⟨item, rfl⟩ := Option.ne_none_iff_exists'.mp (hval.2 hyes)
    obtain ⟨⟨rc, m₂⟩, hpush, hext₂, written', hfill', -⟩ :=
      varPush_spec (hext.trans hext₁) (hfill.extend hext₁) (hval.1 item rfl)
    refine ih (n := n) hwent.place (by omega) ⟨g₀, m₀, g₁, written', h₀, hext₂, hfill'⟩ fun c hc => hcalls c ?_
    have hmade : (Call.mk n (peekTok sys l).2 m).run sys = some ((some item, l₁), m₁) := by
      rw [hpeek]
      unfold Call.run
      rw [hnext]
      exact hrun
    exact .push (by rw [hpeek]; exact hstart) hmade hpush hc

/-- A call gets to the places of its operand. -/
theorem atom_called (hyes : sys.NoFail) {R : Call F → Prop}
    (hdeep : ∀ n l₁ m₁ arr m₂ c, R ⟨n + 1, l₁, m₁⟩ → (nextTok sys l₁).1.type = .lbracket →
      varArray sys m₁ = some (some arr, m₂) → ItemCalls sys n arr (nextTok sys l₁).2 m₂ c → R c)
    {c : Call F} (hc : R c) (hready : Ready sys c) (hplace : AtomPlace sys c.l.p r) :
      ∃ c, R c ∧ c.l.p = r ∧ Ready sys c := by
  rcases hplace with rfl | ⟨q, hr, hitems⟩
  · exact ⟨c, hc, rfl, hready⟩
  · obtain ⟨n, arr, m₂, hn, hq, hnext, hrun, hfills⟩ := array_opened hyes hready hr
    obtain ⟨depth, l, m⟩ := c
    dsimp only at hn hnext hrun
    subst hn
    refine items_called hyes hdeep hitems (l := l.after q []) rfl hq hfills fun c' hc' => ?_
    refine hdeep n l m arr m₂ c' hc (by rw [hnext]; rfl) hrun ?_
    rw [hnext]
    exact hc'

/-- The loop of a concatenation gets to the places behind its head. -/
theorem more_called (h₀ : Safe sys g₀ m₀) (hyes : sys.NoFail) (hplace : MorePlace sys p r) {h : Head} {old : List Byte}
    (hhead : AtHead sys l m₀ h m) (hl : h.l.p = p) (hext : Extends g₀ m₀ g m) (hhas : h.Has g m m₀.heap.length old) :
    ∃ c, RhsCalls sys l m₀ c ∧ c.l.p = r ∧ Ready sys c := by
  induction hplace generalizing h m g old with
  | @here p q q' r t hplus hr hend hatom =>
    subst hl
    have hpeek : peekTok sys h.l = (.plus, h.l.after h.l.p []) := peek_of_scan hplus
    have hnext : nextTok sys (h.l.after h.l.p []) = (.plus, (h.l.after h.l.p []).after q []) := next_of_scan hplus
    have hvalue : nextTok sys ((h.l.after h.l.p []).after q []) = (t, _) := next_of_scan hr
    have hcall : RhsCalls sys l m₀ ⟨_, (h.l.after h.l.p []).after q [], m⟩ :=
      .operand hhead (by rw [hpeek]; rfl) (by rw [hpeek, hnext]) (by rw [hvalue]; exact hend)
    exact atom_called hyes (fun _ _ _ _ _ _ hc hb ha hi => .item hc hb ha hi) hcall
      ⟨Nat.lt_succ_self _, g, h₀.extend hext⟩ hatom
  | @next p q q' q'' r t hplus hr hend hacc _ ih =>
    subst hl
    obtain ⟨text, q₁, e, hatom⟩ := atom_reads h₀ hyes t q'
    obtain rfl := hatom.accepted h₀ hyes hacc
    obtain ⟨⟨x, m₁⟩, hrun, h', hx, hwent, g', hext', hhas'⟩ := concatRound_plus hyes hplus hr hend hatom hext hhas
    dsimp only at hx
    subst hx
    exact ih (.round hhead hrun) hwent.place hext' hhas'

/-- The evaluation of a right-hand side gets to each of its places. -/
theorem rhs_called (hm : Safe sys g m) (hyes : sys.NoFail) (hplace : RhsPlace sys p r) (hl : l.p = p) :
    ∃ c, RhsCalls sys l m c ∧ c.l.p = r ∧ Ready sys c := by
  subst hl
  cases hplace with
  | @first q _ t hr hend hatom =>
    have hnext : nextTok sys l = (t, l.after q []) := next_of_scan hr
    have hcall : RhsCalls sys l m ⟨(nextTok sys l).2.p.length + 1, l, m⟩ := .first (by rw [hnext]; exact hend)
    exact atom_called hyes (fun _ _ _ _ _ _ hc hb ha hi => .item hc hb ha hi) hcall ⟨Nat.lt_succ_self _, g, hm⟩ hatom
  | @next q q' _ t hr hend hacc hmore =>
    obtain ⟨text, q₁, e, hatom⟩ := atom_reads hm hyes t q
    obtain rfl := hatom.accepted hm hyes hacc
    have hplus : (scanTok sys q').tok.type = .plus := by
      cases hmore with
      | here hplus => rw [hplus]; rfl
      | next hplus => rw [hplus]; rfl
    obtain ⟨⟨x, m₁⟩, hrun, h, hx, hplace, g', hext, hhas⟩ := rhsHead_plus (l := l) hm hyes hr hend hatom hplus
    dsimp only at hx
    subst hx
    exact more_called hm hyes hmore (.start hrun) hplace hext hhas

/-- A line has its values evaluated at each of its places. -/
theorem place_called (hm : Safe sys g m) (hyes : sys.NoFail) {line : List Byte} (hplace : LinePlace sys line r) :
    ∃ c, LineCalls sys m line c ∧ c.l.p = r ∧ Ready sys c := by
  cases hplace with
  | display hfirst hrhs =>
    obtain ⟨c, hc, hp⟩ := rhs_called hm hyes hrhs (l := ⟨_, false, []⟩) rfl
    exact ⟨c, .display hfirst hc, hp⟩
  | assign hfirst hincl hdisp hop hrhs =>
    obtain ⟨c, hc, hp⟩ := rhs_called hm hyes hrhs (l := ⟨_, false, []⟩) rfl
    exact ⟨c, .assign hfirst hincl hdisp hop hc, hp⟩
  | @append q q' _ k hfirst hincl hdisp hop hrhs =>
    obtain ⟨⟨es, m₁⟩, hold, text, hext, -⟩ := oldText_spec hm (k.take (CFG_MAX_TOK - 1))
    obtain ⟨c, hc, hp⟩ := rhs_called (hm.extend hext) hyes hrhs (l := ⟨_, false, []⟩) rfl
    exact ⟨c, .append hfirst hincl hdisp hop hold hc, hp⟩

/-! ## Integers -/

/-- What a call makes of a literal that fits: its value, or nothing without memory for it. -/
theorem Call.int {c : Call F} {s : IntText} {rest : List Byte} (hlit : LiteralAt c.l.p s rest) (hfit : s.Fits)
    {x : (Option Addr × Lex) × Mem F} (hrun : c.run sys = some x) :
    x.1.2.p = rest ∧ (x.1.1 = none ∨ ∃ v, x.1.1 = some v ∧ x.2.heap.get v = some (.int s.value)) := by
  have hnext : nextTok sys c.l = (.int s.value, c.l.after rest []) := next_of_scan (scan_literal hlit hfit)
  unfold Call.run at hrun
  rw [hnext] at hrun
  generalize c.depth = n at hrun
  cases n with
  | zero => cases hrun
  | succ n =>
    obtain ⟨⟨v, m'⟩, hmake, hret⟩ := Option.bind_eq_some_iff.mp hrun
    cases hret
    refine ⟨rfl, ?_⟩
    unfold varInt taMalloc at hmake
    by_cases hok : sys.mallocOk c.m.mallocs = true
    · rw [if_pos hok] at hmake
      cases hmake
      exact .inr ⟨_, rfl, Heap.get_alloc_self _ _⟩
    · rw [if_neg hok] at hmake
      cases hmake
      exact .inl rfl

/-- With memory for it, the value is made. -/
theorem Call.int_made (hyes : sys.NoFail) {c : Call F} (hready : Ready sys c) {s : IntText} {rest : List Byte}
    (hlit : LiteralAt c.l.p s rest) (hfit : s.Fits) :
    ∃ v l' m', c.run sys = some ((some v, l'), m') ∧ l'.p = rest ∧ m'.heap.get v = some (.int s.value) := by
  obtain ⟨g, hm⟩ := hready.safe
  obtain ⟨⟨⟨r, l'⟩, m'⟩, hrun, -, g', -, hval⟩ :=
    evalAtom_spec c.depth (nextTok sys c.l).1 (nextTok sys c.l).2 g c.m hready.depth hm
  obtain ⟨hp, hnone | ⟨v, hv, hget⟩⟩ := Call.int hlit hfit hrun
  · exact absurd hnone (hval.2 hyes)
  · dsimp only at hv
    subst hv
    exact ⟨v, l', m', hrun, hp, hget⟩

/-- What a line has to do with the integer literals that stand where its values do: each makes a
    `VAR_INT` of its value, or the line is answered with -1; and one that does not fit is always
    answered with -1. -/
def KeepsIntegers (sys : Sys F) (loadFile : List Byte → M F Int) (line dir : List Byte) (m : Mem F) : Prop :=
  ∀ rc m', parseLine sys loadFile line dir m = some (rc, m') → ∀ r s rest, LinePlace sys (lineText line) r →
    LiteralAt r s rest →
    (rc = 0 → ∃ c v l' m₁, LineCalls sys m (lineText line) c ∧ c.l.p = r ∧
      c.run sys = some ((some v, l'), m₁) ∧ l'.p = rest ∧
      m₁.heap.get v = some (.int s.value)) ∧ (¬ s.Fits → rc = -1)

/-- Under any outcome of the allocations, a literal that fits makes a `VAR_INT` of its value or
    nothing. With memory for everything, a line keeps to its integers exactly when all of them
    fit, or it is not accepted whatever they are. -/
theorem int_literals_iff (hm : Safe sys g m) (depth : Nat) (line dir : List Byte) :
    (∀ allocs c s rest x, LineCalls (sys.withAllocs allocs) m (lineText line) c → LiteralAt c.l.p s rest → s.Fits →
      c.run (sys.withAllocs allocs) = some x →
      x.1.2.p = rest ∧ (x.1.1 = none ∨ ∃ v, x.1.1 = some v ∧ x.2.heap.get v = some (.int s.value))) ∧
    (sys.NoFail → (KeepsIntegers sys (cfgLoadDepth sys depth) line dir m ↔
      (AcceptsLine sys False (Loads (cfgLoadDepth sys depth) m) dir (lineText line) →
        ∀ r s rest, LinePlace sys (lineText line) r → LiteralAt r s rest → s.Fits))) := by
  refine ⟨fun allocs c s rest x _ hlit hfit hrun => Call.int hlit hfit hrun, fun hyes => ?_⟩
  obtain ⟨⟨rc, m'⟩, hrun, hpost⟩ := parseLine_spec (cfgLoadDepth_spec depth) hm line dir
  have hcode := hpost.code
  have hsound := hpost.sound
  have hcomplete := hpost.complete hyes
  have hno : (¬ sys.NoFail) = False := eq_false (not_not.mpr hyes)
  rw [hno] at hsound
  dsimp only at hcode hsound hcomplete
  constructor
  · intro hkeeps hacc r s rest hplace hlit
    by_contra hfit
    have hbad := (hkeeps rc m' hrun r s rest hplace hlit).2 hfit
    rw [hcomplete hacc] at hbad
    cases hbad
  · intro hfits rc' m'' hrun' r s rest hplace hlit
    cases hrun.symm.trans hrun'
    refine ⟨fun hzero => ?_, fun hfit => ?_⟩
    · obtain ⟨c, hcall, rfl, hready⟩ := place_called hm hyes hplace
      obtain ⟨v, l', m₁, hmade⟩ := Call.int_made hyes hready hlit (hfits (hsound hzero) _ s rest hplace hlit)
      exact ⟨c, v, l', m₁, hcall, rfl, hmade⟩
    · exact hcode.resolve_left fun hzero => hfit (hfits (hsound hzero) r s rest hplace hlit)

/-- `A = 9223372036854775807`, the greatest `int64_t`. -/
def topText : IntText :=
    ⟨false, ascii ['9', '2', '2', '3', '3', '7', '2', '0', '3', '6', '8', '5', '4', '7', '7', '5', '8', '0', '7'],
  by decide, by decide⟩

def topLine : List Byte := ascii ['A', ' ', '=', ' '] ++ topText.text

/-- The whole text is digits, and so is the literal in it. -/
theorem topText_only {s : IntText} {rest : List Byte} (h : LiteralAt (chr ' ' :: topText.text) s rest) : s.Fits := by
  have htext : topText.text = s.text ++ rest :=
    (show lexSkipWs (chr ' ' :: topText.text) = topText.text by decide).symm.trans h.text
  have hdigits : ∀ c ∈ s.text ++ rest, isdigit c = true := htext ▸ topText.isdigit
  have hrest : rest = [] := by
    cases rest with
    | nil => rfl
    | cons c rest =>
      have hc : isdigit c = true := hdigits c (by simp)
      have hends := h.ends
      simp [isNumByte, hc] at hends
  rw [hrest, List.append_nil] at htext
  have hminus : s.minus = false := by
    cases hm : s.minus with
    | false => rfl
    | true => exact absurd (hdigits (chr '-') (by simp [IntText.text, hm])) (by decide)
  have hsame : s.digits = topText.digits := by
    have : s.text = s.digits := by simp [IntText.text, hminus]
    exact this.symm.trans htext.symm
  refine ⟨htext ▸ by decide, ?_⟩
  rw [IntText.value, hminus, hsame]
  decide +kernel

/-- The one value of the line fits. -/
theorem int_literals_iff_top : KeepsIntegers plainSys (cfgLoadDepth plainSys 16) topLine [] plainMem := by
  refine ((int_literals_iff (kflCfgNew_safe plainMem_new).1 16 topLine []).2 fun _ => rfl).mpr
    fun _ r s rest hplace hlit => ?_
  have hkey : Reads plainSys (lineText topLine) (.ident (ascii ['A'])) (ascii [' ', '=', ' '] ++ topText.text) := by
    decide +kernel
  have hop : Reads plainSys (ascii [' ', '=', ' '] ++ topText.text) .eq (chr ' ' :: topText.text) := by decide +kernel
  have hvalue : Reads plainSys (chr ' ' :: topText.text) (.int (2 ^ 63 - 1)) [] := by decide +kernel
  have hend : Reads plainSys [] .eof [] := by decide +kernel
  have hrhs : RhsPlace plainSys (chr ' ' :: topText.text) r := by
    cases hplace with
    | display hr => exact absurd (Tok.ident.inj (hkey.unique hr).1) (by decide +kernel)
    | assign hr _ _ hr' hrhs =>
      obtain ⟨-, rfl⟩ := hkey.unique hr
      obtain ⟨-, rfl⟩ := hop.unique hr'
      exact hrhs
    | append hr _ _ hr' =>
      obtain ⟨-, rfl⟩ := hkey.unique hr
      cases (hop.unique hr').1
  cases hrhs with
  | first _ _ hplace =>
    rcases hplace with rfl | ⟨q, hr, -⟩
    · exact topText_only hlit
    · cases (hvalue.unique hr).1
  | next hr _ hatom hmore =>
    -- Behind the number nothing stands.
    obtain ⟨rfl, rfl⟩ := hvalue.unique hr
    cases hatom with
    | int =>
      cases hmore with
      | here hplus | next hplus => cases (hend.unique hplus).1
    | other _ hother => exact absurd (.inr (.inl rfl)) hother

/-- `A = 9223372036854775808`, one above the range. -/
def bigText : IntText :=
    ⟨false, ascii ['9', '2', '2', '3', '3', '7', '2', '0', '3', '6', '8', '5', '4', '7', '7', '5', '8', '0', '8'],
  by decide, by decide⟩

def bigLine : List Byte := ascii ['A', ' ', '=', ' '] ++ bigText.text

/-- `A = 00…01`, with 64 digits. -/
def paddedLine : List Byte := ascii ['A', ' ', '=', ' '] ++ List.replicate 63 (chr '0') ++ [chr '1']

/-- The code of a line, and the integer that `A` has after it. -/
def runsTo (line : List Byte) : Option (Int × Option Int) :=
  (parseLine plainSys (cfgLoadDepth plainSys 16) line [] plainMem).map fun r =>
    (r.1, match (r.2.vars.dictGet plainSys.xxh32 (some (ascii ['A']))).bind r.2.heap.get with
      | some (.int i) => some i
      | _ => none)

/-- The literal above the range is stored as the greatest `int64_t`, and the padded one as 0, with the code 0. -/
theorem big_literal_saturates : ¬ KeepsIntegers plainSys (cfgLoadDepth plainSys 16) bigLine [] plainMem ∧
    runsTo bigLine = some (0, some (2 ^ 63 - 1)) ∧ runsTo paddedLine = some (0, some 0) := by
  have hbig : runsTo bigLine = some (0, some (2 ^ 63 - 1)) := by decide +kernel
  refine ⟨fun hkeeps => ?_, hbig, by decide +kernel⟩
  obtain ⟨⟨rc, m'⟩, hrun, hres⟩ := Option.map_eq_some_iff.mp hbig
  have hplace : LinePlace plainSys (lineText bigLine) (chr ' ' :: bigText.text) := by
    refine .assign (k := ascii ['A']) (q := ascii [' ', '=', ' '] ++ bigText.text) (by decide +kernel)
      (by decide) (by decide)
      (by decide +kernel) (.first (q := []) (t := .int (2 ^ 63 - 1)) (by decide +kernel) ?_ (.inl rfl))
    exact fun hend => hend.elim (fun h => by cases h) fun h => by cases h
  have hlit : LiteralAt (chr ' ' :: bigText.text) bigText [] := ⟨by decide +kernel, rfl⟩
  have hbad := (hkeeps rc m' hrun _ bigText [] hplace hlit).2 fun hfit => absurd hfit.range.2 (by decide +kernel)
  have hzero : rc = 0 := congrArg Prod.fst hres
  rw [hbad] at hzero
  cases hzero

end KanekFoundations.Cfg

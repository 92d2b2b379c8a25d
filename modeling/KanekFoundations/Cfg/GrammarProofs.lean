/-
  KanekFoundations.Cfg.GrammarProofs — the evaluator and the line parser against the grammar
  (see `KanekFoundations.Cfg.Grammar`).
-/

import KanekFoundations.Cfg.Grammar
import KanekFoundations.Cfg.Concat

namespace KanekFoundations.Cfg

open KanekFoundations.Lib

variable {F : Type} {sys : Sys F} {g g₀ : SubHeap (Block F)} {m m₀ : Mem F} {l l' : Lex}

/-! ## Derivations by their first token -/

theorem reads_scan {p q q' : List Byte} {t t' : Tok F} {errs : List Report} (h : scanTok sys p = ⟨t, q, errs⟩)
    (hr : Reads sys p t' q') : t' = t ∧ q' = q ∧ errs = [] := by
  cases h.symm.trans hr
  exact ⟨rfl, rfl, rfl⟩

theorem scan_reads {p q : List Byte} {t : Tok F} {errs : List Report} (h : scanTok sys p = ⟨t, q, errs⟩)
    (he : errs = []) :
    Reads sys p t q := by
  rw [Reads, h, he]

theorem scan_length {p q : List Byte} {t : Tok F} {errs : List Report} (h : scanTok sys p = ⟨t, q, errs⟩) :
    q.length ≤ p.length ∧ (t.type ≠ .eof → q.length < p.length) := by
  have hlen := scanTok_length sys p
  rw [h] at hlen
  exact hlen

/-! ## Atoms and arrays -/

/-- The evaluator's run on an atom: along the grammar, and to a value. -/
def AtomPost (sys : Sys F) (tok : Tok F) (l : Lex) (g : SubHeap (Block F)) (m : Mem F) (r : Option Addr × Lex)
    (m' : Mem F) :
    Prop :=
  LexStep sys (fun fails q => AcceptsAtom sys fails tok l.p q) l r.2 ∧ Yields g m (IsVal sys) r.1 m'

/-- The run of an array's loop: along the grammar, and the array is still being filled. -/
def ItemsPost (sys : Sys F) (g₀ : SubHeap (Block F)) (m₀ : Mem F) (arr : Addr) (l l' : Lex) (m' : Mem F) : Prop :=
  LexStep sys (fun fails q => AcceptsItems sys fails l.p q) l l' ∧
    ∃ g' written', Extends g₀ m₀ g' m' ∧ Filling g' m'.heap m₀.heap.length arr written'

theorem not_startsItem {t : Tok F} (h : t.type = .rbracket ∨ t.Ends) : ¬ t.StartsItem := by
  rintro (hs | hs | hs | hs | hs) <;> rcases h with h | h | h <;> rw [hs] at h <;> cases h

theorem startsItem_not_eof {t : Tok F} (h : t.StartsItem) : t.type ≠ .eof := by
  rcases h with h | h | h | h | h <;> rw [h] <;> decide

theorem comma_reads {p q : List Byte} {t : Tok F} {errs : List Report} (h : scanTok sys p = ⟨t, q, errs⟩)
    (ht : t.type = .comma) (he : errs = []) : Reads sys p .comma q := by
  cases t with
  | comma => exact scan_reads h he
  | _ => cases ht

/-- A round of the loop that meets an item. -/
theorem evalItems_item {atom : Tok F → Lex → M F (Option Addr × Lex)} {arr : Addr} {k : Nat} {t : Tok F}
    (hpeek : peekTok sys l = (t, l')) (ht : t.StartsItem) :
    evalItems sys atom arr (k + 1) l = (do
      let (itemTok, l) := nextTok sys l'
      let (item, l) ← atom itemTok l
      match item with
      | some item => do
        let _ ← varPush sys (some arr) (some item)
        evalItems sys atom arr k l
      | none => evalItems sys atom arr k l) := by
  conv => lhs; unfold evalItems
  rw [hpeek]
  cases t with
  | string | int | float | ident | lbracket => rfl
  | eof | eq | pluseq | plus | rbracket | comma | hash => exact absurd ht (by simp [Tok.StartsItem, Tok.type])

section
variable {atom : Tok F → Lex → M F (Option Addr × Lex)} {arr : Addr} {k : Nat} {t : Tok F}

theorem evalItems_end (hpeek : peekTok sys l = (t, l')) (ht : t.type = .rbracket ∨ t.Ends) :
    evalItems sys atom arr (k + 1) l = pure l' := by
  unfold evalItems
  rw [hpeek]
  cases t with
  | rbracket | eof | hash => rfl
  | _ => rcases ht with h | h | h <;> cases h

theorem evalItems_comma (hpeek : peekTok sys l = (.comma, l')) :
    evalItems sys atom arr (k + 1) l = evalItems sys atom arr k (nextTok sys l').2 := by
  conv => lhs; unfold evalItems
  rw [hpeek]
  rfl

theorem evalItems_skip (hpeek : peekTok sys l = (t, l')) (ht : t.type = .eq ∨ t.type = .pluseq ∨ t.type = .plus) :
    evalItems sys atom arr (k + 1) l =
      evalItems sys atom arr k (nextTok sys (l'.fail "unexpected token in array literal")).2 := by
  conv => lhs; unfold evalItems
  rw [hpeek]
  cases t with
  | eq | pluseq | plus => rfl
  | _ => rcases ht with h | h | h <;> cases h

end

/-- What a token is to the loop of an array. -/
theorem item_cases (t : Tok F) : t.StartsItem ∨ (t.type = .rbracket ∨ t.Ends) ∨ t = .comma ∨
    (t.type = .eq ∨ t.type = .pluseq ∨ t.type = .plus) := by
  cases t <;> simp [Tok.StartsItem, Tok.Ends, Tok.type]

/-- No item follows: a look at the token that ends the array. -/
theorem end_step {q : List Byte} {t : Tok F} {errs : List Report} (hscan : scanTok sys l.p = ⟨t, q, errs⟩)
    (ht : t.type = .rbracket ∨ t.Ends) :
      LexStep sys (fun fails q => AcceptsItems sys fails l.p q) l (l.after l.p errs) := by
  refine .scan (Nat.le_refl _) (.done (A := fun _ r => r = l.p) rfl fun _ h => h) ?_ ?_
  · exact fun he _ => .stop (scan_reads hscan he) ht
  · intro r hr
    cases hr with
    | stop hr _ => exact ⟨(reads_scan hscan hr).2.2, rfl⟩
    | comma hr _ =>
      obtain ⟨rfl, -, -⟩ := reads_scan hscan hr
      rcases ht with ht | ht | ht <;> cases ht
    | item hr hstart _ _ =>
      obtain ⟨rfl, -, -⟩ := reads_scan hscan hr
      exact absurd hstart (not_startsItem ht)

/-- An item, and then the rest of the array. -/
theorem item_step {q : List Byte} {t : Tok F} {errs : List Report} {l₂ : Lex} (hscan : scanTok sys l.p = ⟨t, q, errs⟩)
    (ht : t.StartsItem)
    (ha : LexStep sys (fun fails r => AcceptsAtom sys fails t q r) ((l.after l.p errs).after q errs) l₂)
    (hb : LexStep sys (fun fails r => AcceptsItems sys fails l₂.p r) l₂ l') :
    LexStep sys (fun fails q => AcceptsItems sys fails l.p q) l l' := by
  refine .token (scan_length hscan).1 (ha.both (B := fun fails p r => AcceptsItems sys fails p r) hb) ?_ ?_
  · intro he hr
    obtain ⟨p', ha, hb⟩ := hr
    exact .item (scan_reads hscan he) ht ha hb
  · intro r hr
    cases hr with
    | stop hr hend =>
      obtain ⟨rfl, -, -⟩ := reads_scan hscan hr
      exact absurd ht (not_startsItem hend)
    | comma hr _ =>
      obtain ⟨rfl, -, -⟩ := reads_scan hscan hr
      exact absurd ht (by simp [Tok.StartsItem, Tok.type])
    | item hr _ ha' hb' =>
      obtain ⟨rfl, rfl, he⟩ := reads_scan hscan hr
      exact ⟨he, _, ha', hb'⟩

/-- A comma, and then the rest of the array. -/
theorem comma_step {q : List Byte} {t : Tok F} {errs : List Report} (hscan : scanTok sys l.p = ⟨t, q, errs⟩)
    (ht : t.type = .comma)
    (h : LexStep sys (fun fails r => AcceptsItems sys fails q r) ((l.after l.p errs).after q errs) l') :
    LexStep sys (fun fails q => AcceptsItems sys fails l.p q) l l' := by
  refine .token (scan_length hscan).1 h (fun he hb => .comma (comma_reads hscan ht he) hb) ?_
  intro r hr
  cases hr with
  | stop hr hend =>
    obtain ⟨rfl, -, -⟩ := reads_scan hscan hr
    rcases hend with hend | hend | hend <;> rw [ht] at hend <;> cases hend
  | comma hr hb =>
    obtain ⟨-, rfl, he⟩ := reads_scan hscan hr
    exact ⟨he, hb⟩
  | item hr hstart _ _ =>
    obtain ⟨rfl, -, -⟩ := reads_scan hscan hr
    rcases hstart with hs | hs | hs | hs | hs <;> rw [ht] at hs <;> cases hs

/-- No array goes on with any other token. -/
theorem not_items {q r : List Byte} {t : Tok F} {errs : List Report} {fails : Prop}
    (hscan : scanTok sys l.p = ⟨t, q, errs⟩)
    (hstart : ¬ t.StartsItem) (hend : ¬ (t.type = .rbracket ∨ t.Ends)) (hcomma : t.type ≠ .comma) :
    ¬ AcceptsItems sys fails l.p r := by
  intro hr
  cases hr with
  | stop hr h =>
    obtain ⟨rfl, -, -⟩ := reads_scan hscan hr
    exact hend h
  | comma hr _ =>
    obtain ⟨rfl, -, -⟩ := reads_scan hscan hr
    exact hcomma rfl
  | item hr h _ _ =>
    obtain ⟨rfl, -, -⟩ := reads_scan hscan hr
    exact hstart h

theorem evalItems_spec {atom : Tok F → Lex → M F (Option Addr × Lex)} {n : Nat}
    (hatom : ∀ tok l g m, l.p.length < n → Safe sys g m → wp (atom tok l) (AtomPost sys tok l g m) m)
    (h₀ : Safe sys g₀ m₀)
    {arr : Addr} (k : Nat) (hk : l.p.length < k) (hn : l.p.length ≤ n) (hext : Extends g₀ m₀ g m)
    {written : List (Option Addr)} (hfill : Filling g m.heap m₀.heap.length arr written) :
    wp (evalItems sys atom arr k l) (ItemsPost sys g₀ m₀ arr l) m := by
  induction k generalizing l g m written with
  | zero => exact absurd hk (Nat.not_lt_zero _)
  | succ k ih =>
    obtain ⟨t, q, errs, hscan, -, hpeek⟩ := scan_cases sys l
    have hlen := scan_length hscan
    have hnext : nextTok sys (l.after l.p errs) = (t, (l.after l.p errs).after q errs) := next_of_scan hscan
    have hstop : t.type = .rbracket ∨ t.Ends → wp (pure (l.after l.p errs)) (ItemsPost sys g₀ m₀ arr l) m := fun ht =>
      wp_pure.mpr ⟨end_step hscan ht, g, written, hext, hfill⟩
    have hitem : t.StartsItem → wp (evalItems sys atom arr (k + 1) l) (ItemsPost sys g₀ m₀ arr l) m := by
      intro ht
      have hlt := hlen.2 (startsItem_not_eof ht)
      rw [evalItems_item hpeek ht, hnext]
      refine wp.bind (hatom t ((l.after l.p errs).after q errs) g m (Nat.lt_of_lt_of_le hlt hn) (h₀.extend hext)) ?_
      intro r m₂ hr
      obtain ⟨item, l₂⟩ := r
      obtain ⟨hstep, g₂, hext₂, hval⟩ := hr
      have hle : l₂.p.length ≤ q.length := hstep.length
      have hk₂ : l₂.p.length < k := by omega
      have hn₂ : l₂.p.length ≤ n := by omega
      -- The rest of the loop, whatever the array holds by then.
      have hrest : ∀ m₃ written₃, Extends g₀ m₀ g₂ m₃ → Filling g₂ m₃.heap m₀.heap.length arr written₃ →
          wp (evalItems sys atom arr k l₂) (ItemsPost sys g₀ m₀ arr l) m₃ := fun m₃ written₃ hext₃ hfill₃ =>
        (ih hk₂ hn₂ hext₃ hfill₃).mono fun l' m' hpost => ⟨item_step hscan ht hstep hpost.1, hpost.2⟩
      have hfill₂ := hfill.extend hext₂
      cases item with
      | none => exact hrest m₂ written (hext.trans hext₂) hfill₂
      | some item =>
        refine wp.bind (varPush_spec (hext.trans hext₂) hfill₂ (hval.1 _ rfl)) fun _ m₃ hpush => ?_
        obtain ⟨hext₃, written₃, hfill₃, -⟩ := hpush
        exact hrest m₃ written₃ hext₃ hfill₃
    have hcomma : t.type = .comma → wp (evalItems sys atom arr k (nextTok sys (l.after l.p errs)).2)
        (ItemsPost sys g₀ m₀ arr l) m := by
      intro ht
      have hlt := hlen.2 (by rw [ht]; decide)
      rw [hnext]
      have hk' : ((l.after l.p errs).after q errs).p.length < k := Nat.lt_of_lt_of_le hlt (Nat.le_of_lt_succ hk)
      have hn' : ((l.after l.p errs).after q errs).p.length ≤ n := Nat.le_trans hlen.1 hn
      exact (ih hk' hn' hext hfill).mono fun l' m' hpost => ⟨comma_step hscan ht hpost.1, hpost.2⟩
    have hbad : ¬ t.StartsItem → ¬ (t.type = .rbracket ∨ t.Ends) → t.type ≠ .comma → t.type ≠ .eof →
        wp (evalItems sys atom arr k (nextTok sys ((l.after l.p errs).fail "unexpected token in array literal")).2)
          (ItemsPost sys g₀ m₀ arr l) m := by
      intro hstart hend hcom heof
      have hlt := hlen.2 heof
      have hskip : nextTok sys ((l.after l.p errs).fail "unexpected token in array literal") = (t, _) :=
        next_of_scan hscan
      rw [hskip]
      refine (ih (Nat.lt_of_lt_of_le hlt (Nat.le_of_lt_succ hk)) (Nat.le_trans hlen.1 hn) hext hfill).mono ?_
      exact fun l' m' hpost => ⟨.reject (Nat.le_trans hpost.1.length hlen.1) (hpost.1.error rfl)
        fun r => not_items hscan hstart hend hcom, hpost.2⟩
    rcases item_cases t with hstart | hend | rfl | hskip
    · exact hitem hstart
    · rw [evalItems_end hpeek hend]
      exact hstop hend
    · rw [evalItems_comma hpeek]
      exact hcomma rfl
    · rw [evalItems_skip hpeek hskip]
      refine hbad ?_ ?_ ?_ ?_
      all_goals rcases hskip with h | h | h <;> simp [Tok.StartsItem, Tok.Ends, h]

/-- An array's loop stops in front of a token that ends the array. -/
theorem items_end {fails : Prop} {p q : List Byte} : AcceptsItems sys fails p q →
    ∃ (t : Tok F) (r : List Byte), Reads sys q t r ∧ (t.type = .rbracket ∨ t.Ends)
  | .stop hr h => ⟨_, _, hr, h⟩
  | .comma _ h => items_end h
  | .item _ _ _ h => items_end h

theorem wp_getVar {Q : Option Addr → Mem F → Prop} {key : List Byte} :
    wp (getVar sys key) Q m ↔ Q (m.vars.dictGet sys.xxh32 (some key)) m := wp_run rfl

/-- A value is made, and nothing more is read. -/
theorem atom_value {tok : Tok F} {x : M F (Option Addr)} {P : SubHeap (Block F) → Option Addr → Prop}
    {g₁ : SubHeap (Block F)} {m₁ : Mem F} (hext : Extends g m g₁ m₁) (hx : wp x (Yields g₁ m₁ P) m₁)
    (hP : ∀ g' r, P g' r → IsVal sys g' r)
    (hstep : LexStep sys (fun fails q => AcceptsAtom sys fails tok l.p q) l l') :
    wp (do return (← x, l')) (AtomPost sys tok l g m) m₁ := by
  refine wp.bind hx fun r m' ⟨g', hext', hp⟩ => wp_pure.mpr ⟨hstep, g', hext.trans hext', hP g' r hp⟩

theorem ident_startsItem (s : List Byte) : (Tok.ident s : Tok F).StartsItem := .inr (.inr (.inr (.inl rfl)))

/-- A word is a value of its own. -/
theorem word_step {s : List Byte} (hword : IsWord s) :
    LexStep sys (fun fails q => AcceptsAtom sys fails (.ident s) l.p q) l l := by
  refine .done (.word _ hword) fun q hq => ?_
  cases hq with
  | word => rfl
  | var hno => exact absurd hword hno
  | index hno => exact absurd hword hno
  | other _ ht => exact absurd (ident_startsItem s) ht

/-- A variable: a look at the next token, which is no bracket. -/
theorem var_step {s q : List Byte} {t : Tok F} {errs : List Report} (hword : ¬ IsWord s)
    (hscan : scanTok sys l.p = ⟨t, q, errs⟩)
    (ht : t.type ≠ .lbracket) :
    LexStep sys (fun fails q => AcceptsAtom sys fails (.ident s) l.p q) l (l.after l.p errs) := by
  refine .scan (Nat.le_refl _) (.done (A := fun _ r => r = l.p) rfl fun _ h => h) ?_ ?_
  · intro he _
    exact .var hword (scan_reads hscan he) ht
  · intro r hr
    cases hr with
    | word _ hyes => exact absurd hyes hword
    | var _ hr _ => exact ⟨(reads_scan hscan hr).2.2, rfl⟩
    | index _ hr _ _ =>
      obtain ⟨rfl, -, -⟩ := reads_scan hscan hr
      exact absurd rfl ht
    | other _ ht => exact absurd (ident_startsItem s) ht

/-- The only derivations where a bracket follows. -/
theorem index_reads {fails : Prop} {s p q r : List Byte} {errs : List Report} (hword : ¬ IsWord s)
    (hscan : scanTok sys p = ⟨.lbracket, q, errs⟩) (h : AcceptsAtom sys fails (.ident s) p r) :
    errs = [] ∧ ∃ (i : Int) (q' : List Byte), Reads sys q (.int i) q' ∧ Reads sys q' .rbracket r := by
  cases h with
  | word _ hyes => exact absurd hyes hword
  | var _ hr ht =>
    obtain ⟨rfl, -, -⟩ := reads_scan hscan hr
    exact absurd rfl ht
  | index _ hr hi hb =>
    obtain ⟨-, rfl, he⟩ := reads_scan hscan hr
    exact ⟨he, _, _, hi, hb⟩
  | other _ ht => exact absurd (ident_startsItem s) ht

/-- An index: the tokens of `[N]`. -/
theorem index_step {s q q₂ q₃ : List Byte} {i : Int} {errs errs₂ errs₃ : List Report} (hword : ¬ IsWord s)
    (hscan : scanTok sys l.p = ⟨.lbracket, q, errs⟩) (hscan₂ : scanTok sys q = ⟨.int i, q₂, errs₂⟩)
    (hscan₃ : scanTok sys q₂ = ⟨.rbracket, q₃, errs₃⟩) :
    LexStep sys (fun fails q => AcceptsAtom sys fails (.ident s) l.p q) l
      ((((l.after l.p errs).after q errs).after q₂ errs₂).after q₃ errs₃) := by
  have hclose : LexStep sys (fun _ r => Reads sys q₂ .rbracket r) (((l.after l.p errs).after q errs).after q₂ errs₂)
      ((((l.after l.p errs).after q errs).after q₂ errs₂).after q₃ errs₃) := by
    refine .scan (scan_length hscan₃).1 (.done (A := fun _ r => r = q₃) rfl fun _ h => h) ?_ ?_
    · exact fun he _ => scan_reads hscan₃ he
    · intro r hr
      obtain ⟨-, rfl, he⟩ := reads_scan hscan₃ hr
      exact ⟨he, rfl⟩
  refine .token (B := fun _ r => ∃ (i : Int) (q' : List Byte), Reads sys q (.int i) q' ∧ Reads sys q' .rbracket r)
    (scan_length hscan).1 (.scan (scan_length hscan₂).1 hclose ?_ ?_) ?_ ?_
  · exact fun he hr => ⟨i, q₂, scan_reads hscan₂ he, hr⟩
  · intro r hindex
    obtain ⟨i', q', hi, hr⟩ := hindex
    obtain ⟨-, rfl, he⟩ := reads_scan hscan₂ hi
    exact ⟨he, hr⟩
  · intro he hindex
    obtain ⟨i', q', hi, hr⟩ := hindex
    exact .index hword (scan_reads hscan he) hi hr
  · exact fun r hr => index_reads hword hscan hr

theorem evalAtom_ident {s : List Byte} (hword : ¬ IsWord s) (n : Nat) (l : Lex) :
    evalAtom sys (n + 1) (.ident s) l = (do
      let v ← getVar sys s
      let (pk, l) := peekTok sys l
      if pk.type = .lbracket then do
        let (_, l) := nextTok sys l
        let (idx, l) := nextTok sys l
        let (rb, l) := nextTok sys l
        if rb.type ≠ .rbracket then do return (← varNull sys, l.fail "expected ']' after array index")
        else
          match idx with
          | .int ival =>
            match v with
            | none => do return (← varNull sys, l.report "undefined variable '%s'" [s])
            | some v => do
              match ← varGet (some v) (u64OfInt ival) with
              | some elem => pure (some elem, l)
              | none => do return (← varNull sys, l)
          | _ => do return (← varNull sys, l.fail "array index must be an integer")
      else
        match v with
        | none => do return (← varNull sys, l.report "undefined variable '%s'" [s])
        | some v => pure (some v, l)) := by
  conv => lhs; unfold evalAtom
  dsimp only
  refine (if_neg fun h => hword (.inl h)).trans ?_
  refine (if_neg fun h => hword (.inr (.inl h))).trans ?_
  exact if_neg fun h => hword (.inr (.inr h))

/-- A variable with no bracket behind it. -/
theorem evalIdent_plain {s : List Byte} (hword : ¬ IsWord s) (n : Nat) {l l₀ : Lex} {t : Tok F}
    (hpeek : peekTok sys l = (t, l₀))
    (ht : ¬ t.type = .lbracket) :
    evalAtom sys (n + 1) (.ident s) l = (do
      let v ← getVar sys s
      match v with
      | none => do return (← varNull sys, l₀.report "undefined variable '%s'" [s])
      | some v => pure (some v, l₀)) := by
  rw [evalAtom_ident hword]
  refine congrArg (getVar sys s >>= ·) (funext fun v => ?_)
  rw [hpeek]
  exact if_neg ht

/-- A variable with a bracket behind it: three tokens are read, whatever they are. -/
theorem evalIdent_bracket {s : List Byte} (hword : ¬ IsWord s) (n : Nat) {l l₀ l₁ l₂ l₃ : Lex} {t t₁ t₂ t₃ : Tok F}
    (hpeek : peekTok sys l = (t, l₀)) (ht : t.type = .lbracket) (hopen : nextTok sys l₀ = (t₁, l₁))
    (hidx : nextTok sys l₁ = (t₂, l₂)) (hclose : nextTok sys l₂ = (t₃, l₃)) :
    evalAtom sys (n + 1) (.ident s) l = (do
      let v ← getVar sys s
      if t₃.type ≠ .rbracket then do return (← varNull sys, l₃.fail "expected ']' after array index")
      else
        match t₂ with
        | .int ival =>
          match v with
          | none => do return (← varNull sys, l₃.report "undefined variable '%s'" [s])
          | some v => do
            match ← varGet (some v) (u64OfInt ival) with
            | some elem => pure (some elem, l₃)
            | none => do return (← varNull sys, l₃)
        | _ => do return (← varNull sys, l₃.fail "array index must be an integer")) := by
  rw [evalAtom_ident hword]
  refine congrArg (getVar sys s >>= ·) (funext fun v => ?_)
  rw [hpeek]
  dsimp only
  rw [if_pos ht, hopen]
  dsimp only
  rw [hidx]
  dsimp only
  rw [hclose]

theorem evalIdent_spec (h : Safe sys g m) {s : List Byte} (hword : ¬ IsWord s) (n : Nat) :
    wp (evalAtom sys (n + 1) (.ident s) l) (AtomPost sys (.ident s) l g m) m := by
  have hvar := fun v => h.getVar s (v := v)
  obtain ⟨t, q, errs, hscan, -, hpeek⟩ := scan_cases sys l
  have hlen := scan_length hscan
  have hnull : ∀ l', LexStep sys (fun fails q => AcceptsAtom sys fails (.ident s) l.p q) l l' →
      wp (do return (← varNull sys, l')) (AtomPost sys (.ident s) l g m) m :=
    fun l' hstep => atom_value h.refl (varNull_spec h) (fun _ _ hp => hp.isVal rfl) hstep
  by_cases ht : t.type = .lbracket
  · have hnext : nextTok sys (l.after l.p errs) = (t, (l.after l.p errs).after q errs) := next_of_scan hscan
    have hbracket : scanTok sys l.p = ⟨.lbracket, q, errs⟩ := by
      cases t with
      | lbracket => exact hscan
      | _ => cases ht
    obtain ⟨t₂, q₂, errs₂, hscan₂, hnext₂, -⟩ := scan_cases sys ((l.after l.p errs).after q errs)
    obtain ⟨t₃, q₃, errs₃, hscan₃, hnext₃, -⟩ := scan_cases sys (((l.after l.p errs).after q errs).after q₂ errs₂)
    have hle : q₃.length ≤ l.p.length :=
      Nat.le_trans (scan_length hscan₃).1 (Nat.le_trans (scan_length hscan₂).1 hlen.1)
    rw [evalIdent_bracket hword n hpeek ht hnext hnext₂ hnext₃, wp_bind, wp_getVar]
    generalize m.vars.dictGet sys.xxh32 (some s) = r at hvar
    by_cases hrb : t₃.type ≠ .rbracket
    · rw [if_pos hrb]
      refine hnull _ (.reject hle rfl fun r hr => ?_)
      obtain ⟨-, i, q', hi, hb⟩ := index_reads hword hbracket hr
      obtain ⟨-, rfl, -⟩ := reads_scan hscan₂ hi
      obtain ⟨rfl, -, -⟩ := reads_scan hscan₃ hb
      exact hrb rfl
    rw [if_neg hrb]
    have hclose : scanTok sys q₂ = ⟨.rbracket, q₃, errs₃⟩ := by
      cases t₃ with
      | rbracket => exact hscan₃
      | _ => exact absurd (fun h => by cases h) hrb
    have hbad : (∀ i, t₂ ≠ .int i) → LexStep sys (fun fails q => AcceptsAtom sys fails (.ident s) l.p q) l
        (((((l.after l.p errs).after q errs).after q₂ errs₂).after q₃ errs₃).fail
            "array index must be an integer") := by
      refine fun hint => .reject hle rfl fun r hr => ?_
      obtain ⟨-, i, q', hi, hb⟩ := index_reads hword hbracket hr
      obtain ⟨rfl, -, -⟩ := reads_scan hscan₂ hi
      exact hint i rfl
    cases t₂ with
    | int i =>
      have hstep := index_step hword hbracket hscan₂ hclose
      cases r with
      | none => exact hnull _ (hstep.report _ _)
      | some v =>
        obtain ⟨b, hb, hbvar⟩ := hvar v rfl
        refine wp.bind (varGet_spec h.within h.closed hb _) ?_
        intro elem m' hpost
        obtain ⟨rfl, helem⟩ := hpost
        cases elem with
        | none => exact hnull _ hstep
        | some elem =>
          exact wp_pure.mpr ⟨hstep, g, h.refl, isVal_some (Block.item_isVar (h.closed v b hb) helem.symm)⟩
    | _ => exact hnull _ (hbad fun i h => by cases h)
  · rw [evalIdent_plain hword n hpeek ht, wp_bind, wp_getVar]
    generalize m.vars.dictGet sys.xxh32 (some s) = r at hvar
    have hstep := var_step hword hscan ht
    cases r with
    | none => exact hnull _ (hstep.report _ _)
    | some v => exact wp_pure.mpr ⟨hstep, g, h.refl, isVal_some (hvar v rfl)⟩

/-- The end of an array's loop: the bracket is read if it is there. -/
theorem array_step {q : List Byte} {t : Tok F} {errs : List Report}
    (h : LexStep sys (fun fails q => AcceptsItems sys fails l.p q) l l') (hscan : scanTok sys l'.p = ⟨t, q, errs⟩) :
    LexStep sys (fun fails q => AcceptsAtom sys fails .lbracket l.p q) l
      (if t.type = .rbracket then (l'.after l'.p errs).after q errs else l'.after l'.p errs) := by
  by_cases ht : t.type = .rbracket
  · rw [if_pos ht]
    have hclose : LexStep sys (fun _ r => Reads sys l'.p .rbracket r) l' ((l'.after l'.p errs).after q errs) := by
      refine .token (scan_length hscan).1 (.done (A := fun _ r => r = q) rfl fun _ h => h) ?_ ?_
      · intro he _
        cases t with
        | rbracket => exact scan_reads hscan he
        | _ => cases ht
      · intro r hr
        obtain ⟨-, rfl, he⟩ := reads_scan hscan hr
        exact ⟨he, rfl⟩
    refine .seq h hclose (fun ha hb => .array ha hb) fun r hr => ?_
    cases hr with
    | array ha hb => exact ⟨_, ha, fun hp => hp ▸ hb⟩
    | openArray ha hb hend =>
      refine ⟨_, ha, fun hp => ?_⟩
      subst hp
      obtain ⟨rfl, -, -⟩ := reads_scan hscan hb
      rcases hend with hend | hend <;> rw [ht] at hend <;> cases hend
    | noArray _ hfalse => exact absurd hfalse id
    | other _ hno => exact absurd (.inr (.inr (.inr (.inr rfl)))) hno
  · rw [if_neg ht]
    have hopen :
      LexStep sys (fun _ r => r = l'.p ∧ ∃ (t : Tok F) (q : List Byte), Reads sys l'.p t q ∧ t.type ≠ .rbracket) l'
        (l'.after l'.p errs) := by
      refine .scan (Nat.le_refl _) (.done (A := fun _ r => r = l'.p) rfl fun _ h => h) ?_ ?_
      · exact fun he _ => ⟨rfl, t, q, scan_reads hscan he, ht⟩
      · intro r hclosed
        obtain ⟨hr, t', q', hr', -⟩ := hclosed
        exact ⟨(reads_scan hscan hr').2.2, hr⟩
    refine .seq h hopen ?_ fun r hr => ?_
    · intro ha hclosed
      obtain ⟨-, t', q', hr, ht'⟩ := hclosed
      obtain ⟨t'', r, hr', hend⟩ := items_end ha
      cases hr.symm.trans hr'
      exact .openArray ha hr (hend.resolve_left ht')
    · cases hr with
      | array ha hb =>
        refine ⟨_, ha, fun hp => ?_⟩
        subst hp
        obtain ⟨rfl, -, -⟩ := reads_scan hscan hb
        exact absurd rfl ht
      | openArray ha hb hend =>
        refine ⟨_, ha, fun hp => ?_⟩
        subst hp
        refine ⟨rfl, _, _, hb, fun h => ?_⟩
        rcases hend with hend | hend <;> rw [h] at hend <;> cases hend
      | noArray _ hfalse => exact absurd hfalse id
      | other _ hno => exact absurd (.inr (.inr (.inr (.inr rfl)))) hno

theorem evalAtom_spec (n : Nat) (tok : Tok F) (l : Lex) (g : SubHeap (Block F)) (m : Mem F) (hn : l.p.length < n)
    (h : Safe sys g m) : wp (evalAtom sys n tok l) (AtomPost sys tok l g m) m := by
  induction n generalizing tok l g m with
  | zero => exact absurd hn (Nat.not_lt_zero _)
  | succ n ih =>
    cases tok with
    | string s =>
      refine atom_value h.refl (varStr_spec h s) (fun _ _ hp => hp.isVal) (.done (.string s _) fun q hq => ?_)
      cases hq with
      | string => rfl
      | other _ ht => exact absurd (.inl rfl) ht
    | int i =>
      refine atom_value h.refl (varInt_spec h i) (fun _ _ hp => hp.isVal rfl) (.done (.int i _) fun q hq => ?_)
      cases hq with
      | int => rfl
      | other _ ht => exact absurd (.inr (.inl rfl)) ht
    | float f =>
      refine atom_value h.refl (varFloat_spec h f) (fun _ _ hp => hp.isVal rfl) (.done (.float f _) fun q hq => ?_)
      cases hq with
      | float => rfl
      | other _ ht => exact absurd (.inr (.inr (.inl rfl))) ht
    | ident s =>
      by_cases hword : IsWord s
      · rcases hword with rfl | rfl | rfl
        · exact atom_value h.refl (varBool_spec h 1) (fun _ _ hp => hp.isVal rfl) (word_step (.inl rfl))
        · exact atom_value h.refl (varBool_spec h 0) (fun _ _ hp => hp.isVal rfl) (word_step (.inr (.inl rfl)))
        · exact atom_value h.refl (varNull_spec h) (fun _ _ hp => hp.isVal rfl) (word_step (.inr (.inr rfl)))
      · exact evalIdent_spec h hword n
    | lbracket =>
      unfold evalAtom
      refine wp.bind (varArray_spec h) ?_
      intro arr m₁ hpost
      obtain ⟨hext, hfill, hok⟩ := hpost
      cases arr with
      | none =>
        have hno : ¬ sys.NoFail := fun hyes => hok hyes rfl
        refine atom_value hext (varNull_spec (h.extend hext)) (fun _ _ hp => hp.isVal rfl) ?_
        exact ⟨Nat.le_refl _, fun herr => ⟨herr, .noArray _ hno⟩, fun hyes => absurd hyes hno⟩
      | some arr =>
        have hitems := evalItems_spec (fun tok l g m => ih tok l g m) h (l.p.length + 1) (Nat.lt_succ_self _)
          (Nat.le_of_lt_succ hn) hext (hfill arr rfl)
        refine wp.bind hitems ?_
        intro l₂ m₂ hpost
        obtain ⟨hstep, g₂, written, hext₂, hfill₂⟩ := hpost
        obtain ⟨t, q, errs, hscan, -, hpeek⟩ := scan_cases sys l₂
        have hnext : nextTok sys (l₂.after l₂.p errs) = (t, (l₂.after l₂.p errs).after q errs) := next_of_scan hscan
        have harray := array_step hstep hscan
        obtain ⟨g₃, hext₃, -, items, cap, harr, -⟩ := hfill₂.freeze hext₂
        rw [hpeek]
        dsimp only
        rw [hnext]
        by_cases ht : t.type = .rbracket
        · rw [if_pos ht] at harray ⊢
          exact wp_pure.mpr ⟨harray, g₃, hext₃, isVal_some ⟨_, harr, rfl⟩⟩
        · rw [if_neg ht] at harray ⊢
          exact wp_pure.mpr ⟨harray, g₃, hext₃, isVal_some ⟨_, harr, rfl⟩⟩
    | eof | eq | pluseq | plus | rbracket | comma | hash =>
      refine atom_value h.refl (varNull_spec h) (fun _ _ hp => hp.isVal rfl) (.done (.other _ ?_) fun q hq => ?_)
      · simp [Tok.StartsItem, Tok.type]
      · cases hq with
        | other => rfl

/-! ## Concatenations -/

/-- No `+` follows: a look at the next token. -/
theorem stop_step {q : List Byte} {t : Tok F} {errs : List Report} (hscan : scanTok sys l.p = ⟨t, q, errs⟩)
    (ht : t.type ≠ .plus) : LexStep sys (fun fails q => AcceptsMore sys fails l.p q) l (l.after l.p errs) := by
  refine .scan (Nat.le_refl _) (.done (A := fun _ r => r = l.p) rfl fun _ h => h) ?_ ?_
  · exact fun he _ => .stop (scan_reads hscan he) ht
  · intro r hr
    cases hr with
    | stop hr _ => exact ⟨(reads_scan hscan hr).2.2, rfl⟩
    | dangling hr _ _ =>
      obtain ⟨rfl, -, -⟩ := reads_scan hscan hr
      exact absurd rfl ht
    | plus hr _ _ _ _ =>
      obtain ⟨rfl, -, -⟩ := reads_scan hscan hr
      exact absurd rfl ht
    | cut _ hfalse => exact absurd hfalse id

/-- What may follow a `+`: nothing, or a value and more. -/
def AfterPlus (sys : Sys F) (q : List Byte) (fails : Prop) (r : List Byte) : Prop :=
  (∃ t : Tok F, Reads sys q t r ∧ t.Ends) ∨
    ∃ (t : Tok F) (q' q'' : List Byte),
      Reads sys q t q' ∧ ¬ t.Ends ∧ AcceptsAtom sys fails t q' q'' ∧ AcceptsMore sys fails q'' r

theorem plus_step {q : List Byte} {errs : List Report} (hscan : scanTok sys l.p = ⟨.plus, q, errs⟩)
    (h : LexStep sys (AfterPlus sys q) ((l.after l.p errs).after q errs) l') :
    LexStep sys (fun fails q => AcceptsMore sys fails l.p q) l l' := by
  refine .token (scan_length hscan).1 h ?_ fun r hr => ?_
  · intro he hor
    rcases hor with ⟨t, hr, hend⟩ | ⟨t, q', q'', hr, hend, ha, hb⟩
    · exact .dangling (scan_reads hscan he) hr hend
    · exact .plus (scan_reads hscan he) hr hend ha hb
  · cases hr with
    | stop hr ht =>
      obtain ⟨rfl, -, -⟩ := reads_scan hscan hr
      exact absurd rfl ht
    | dangling hr hr' hend =>
      obtain ⟨-, rfl, he⟩ := reads_scan hscan hr
      exact ⟨he, .inl ⟨_, hr', hend⟩⟩
    | plus hr hr' hend ha hb =>
      obtain ⟨-, rfl, he⟩ := reads_scan hscan hr
      exact ⟨he, .inr ⟨_, _, _, hr', hend, ha, hb⟩⟩
    | cut _ hfalse => exact absurd hfalse id

theorem dangling_step {q : List Byte} {t : Tok F} {errs : List Report} (hscan : scanTok sys l.p = ⟨t, q, errs⟩)
    (ht : t.Ends) :
    LexStep sys (AfterPlus sys l.p) l (l.after q errs) := by
  refine .scan (scan_length hscan).1 (.done (A := fun _ r => r = q) rfl fun _ h => h) ?_ ?_
  · exact fun he _ => .inl ⟨t, scan_reads hscan he, ht⟩
  · intro r hor
    rcases hor with ⟨t', hr, hend⟩ | ⟨t', q', q'', hr, hend, -, -⟩
    · obtain ⟨-, rfl, he⟩ := reads_scan hscan hr
      exact ⟨he, rfl⟩
    · obtain ⟨rfl, -, -⟩ := reads_scan hscan hr
      exact absurd ht hend

theorem operand_step {q : List Byte} {t : Tok F} {errs : List Report} {l₂ : Lex}
    (hscan : scanTok sys l.p = ⟨t, q, errs⟩)
    (ht : ¬ t.Ends) (hatom : LexStep sys (fun fails r => AcceptsAtom sys fails t q r) (l.after q errs) l₂)
    (hmore : LexStep sys (fun fails r => AcceptsMore sys fails l₂.p r) l₂ l') :
      LexStep sys (AfterPlus sys l.p) l l' := by
  refine .scan (scan_length hscan).1 (hatom.both (B := fun fails p r => AcceptsMore sys fails p r) hmore) ?_ ?_
  · intro he hboth
    obtain ⟨p, ha, hb⟩ := hboth
    exact .inr ⟨t, q, p, scan_reads hscan he, ht, ha, hb⟩
  · intro r hor
    rcases hor with ⟨t', hr, hend⟩ | ⟨t', q', q'', hr, hend, ha, hb⟩
    · obtain ⟨rfl, -, -⟩ := reads_scan hscan hr
      exact absurd hend ht
    · obtain ⟨rfl, rfl, he⟩ := reads_scan hscan hr
      exact ⟨he, q'', ha, hb⟩

/-- A concatenation that is cut because an allocation failed. -/
theorem cut_step (hno : ¬ sys.NoFail) : LexStep sys (fun fails r => AcceptsMore sys fails l.p r) l l :=
  ⟨Nat.le_refl _, fun herr => ⟨herr, .cut _ hno⟩, fun hyes => absurd hyes hno⟩

/-- A second look at the token that follows a value. -/
theorem peeked_step {q : List Byte} {t : Tok F} {errs : List Report} (hscan : scanTok sys l.p = ⟨t, q, errs⟩)
    (h : LexStep sys (fun fails r => AcceptsMore sys fails l.p r) (l.after l.p errs) l') :
    LexStep sys (fun fails r => AcceptsMore sys fails l.p r) l l' := by
  refine .scan (Nat.le_refl _) h (fun _ h => h) fun r hr => ⟨?_, hr⟩
  cases hr with
  | stop hr _ => exact (reads_scan hscan hr).2.2
  | dangling hr _ _ => exact (reads_scan hscan hr).2.2
  | plus hr _ _ _ _ => exact (reads_scan hscan hr).2.2
  | cut _ hfalse => exact absurd hfalse id

theorem concatLoop_spec (h₀ : Safe sys g₀ m₀) (k : Nat) {buf cap : Nat} {text : List Byte} (hk : l.p.length < k)
    (hext : Extends g₀ m₀ g m) (hbuf : Holds g m m₀.heap.length buf cap text) :
    wp (concatLoop sys k buf text.length cap l)
      (fun r m' => LexStep sys (fun fails q => AcceptsMore sys fails l.p q) l r.2 ∧
      ∃ g' cap' text', Extends g₀ m₀ g' m' ∧ Holds g' m' m₀.heap.length r.1 cap' text') m := by
  induction k generalizing l buf cap text g m with
  | zero => exact absurd hk (Nat.not_lt_zero _)
  | succ k ih =>
    obtain ⟨t, q, errs, hscan, -, hpeek⟩ := scan_cases sys l
    unfold concatLoop
    rw [hpeek]
    dsimp only
    by_cases ht : t.type ≠ .plus
    · rw [if_pos ht]
      exact wp_pure.mpr ⟨stop_step hscan ht, g, cap, text, hext, hbuf⟩
    rw [if_neg ht]
    have hplus : scanTok sys l.p = ⟨.plus, q, errs⟩ := by
      cases t with
      | plus => exact hscan
      | _ => exact absurd (fun h => by cases h) ht
    have hnext : nextTok sys (l.after l.p errs) = (t, (l.after l.p errs).after q errs) := next_of_scan hscan
    obtain ⟨t₂, q₂, errs₂, hscan₂, hnext₂, -⟩ := scan_cases sys ((l.after l.p errs).after q errs)
    have hlt : q.length < l.p.length := (scan_length hplus).2 fun h => by cases h
    have hle : q₂.length ≤ q.length := (scan_length hscan₂).1
    rw [hnext]
    dsimp only
    rw [hnext₂]
    dsimp only
    by_cases hend : t₂.type = .eof ∨ t₂.type = .hash
    · rw [if_pos hend]
      exact wp_pure.mpr ⟨plus_step hplus (dangling_step hscan₂ hend), g, cap, text, hext, hbuf⟩
    rw [if_neg hend]
    refine wp.bind (evalAtom_spec _ t₂ _ g m (Nat.lt_succ_self _) (h₀.extend hext)) ?_
    intro res m₃ hpost
    obtain ⟨rhs, l₃⟩ := res
    obtain ⟨hstep, g₃, hext₃, hval⟩ := hpost
    have hle₃ : l₃.p.length ≤ q₂.length := hstep.length
    refine append_spec (f := id) (K := fun buf len cap => concatLoop sys k buf len cap l₃) (hext.trans hext₃)
      (hbuf.extend hext₃)
      hval.1 ?_ ?_
    · intro args m' hno hext' hbuf'
      exact ⟨(plus_step hplus (operand_step hscan₂ hend hstep (cut_step hno))).report _ _, g₃, cap, text, hext', hbuf'⟩
    · intro buf' cap' t' m' _ hext' hbuf'
      rw [← List.length_append]
      refine (ih (by omega) hext' hbuf').mono ?_
      intro r m'' hpost
      obtain ⟨hmore, hmem⟩ := hpost
      exact ⟨plus_step hplus (operand_step hscan₂ hend hstep hmore), hmem⟩

/-- The run of a right-hand side: along the grammar, and to a value. -/
def RhsPost (sys : Sys F) (l : Lex) (g : SubHeap (Block F)) (m : Mem F) (r : Option Addr × Lex) (m' : Mem F) : Prop :=
  LexStep sys (fun fails q => AcceptsRhs sys fails l.p q) l r.2 ∧ Yields g m (IsVal sys) r.1 m'

theorem value_step {q : List Byte} {t : Tok F} {errs : List Report} {l₂ : Lex} (hscan : scanTok sys l.p = ⟨t, q, errs⟩)
    (ht : ¬ t.Ends) (hatom : LexStep sys (fun fails r => AcceptsAtom sys fails t q r) (l.after q errs) l₂)
    (hmore : LexStep sys (fun fails r => AcceptsMore sys fails l₂.p r) l₂ l') :
    LexStep sys (fun fails q => AcceptsRhs sys fails l.p q) l l' := by
  refine .scan (scan_length hscan).1 (hatom.both (B := fun fails p r => AcceptsMore sys fails p r) hmore) ?_ ?_
  · intro he hboth
    obtain ⟨p, ha, hb⟩ := hboth
    exact .value (scan_reads hscan he) ht ha hb
  · intro r hr
    cases hr with
    | empty hr hend =>
      obtain ⟨rfl, -, -⟩ := reads_scan hscan hr
      exact absurd hend ht
    | value hr hend ha hb =>
      obtain ⟨rfl, rfl, he⟩ := reads_scan hscan hr
      exact ⟨he, _, ha, hb⟩

theorem empty_step {q : List Byte} {t : Tok F} {errs : List Report} (hscan : scanTok sys l.p = ⟨t, q, errs⟩)
    (ht : t.Ends) :
    LexStep sys (fun fails q => AcceptsRhs sys fails l.p q) l (l.after q errs) := by
  refine .scan (scan_length hscan).1 (.done (A := fun _ r => r = q) rfl fun _ h => h) ?_ ?_
  · exact fun he _ => .empty (scan_reads hscan he) ht
  · intro r hr
    cases hr with
    | empty hr _ =>
      obtain ⟨-, rfl, he⟩ := reads_scan hscan hr
      exact ⟨he, rfl⟩
    | value hr hend _ _ =>
      obtain ⟨rfl, -, -⟩ := reads_scan hscan hr
      exact absurd ht hend

theorem evalRhs_spec (h : Safe sys g m) : wp (evalRhs sys l) (RhsPost sys l g m) m := by
  obtain ⟨t, q, errs, hscan, hnext, -⟩ := scan_cases sys l
  unfold evalRhs
  rw [hnext]
  dsimp only
  by_cases hend : t.type = .eof ∨ t.type = .hash
  · rw [if_pos hend]
    refine wp.bind (varNull_spec h) ?_
    intro r m' hpost
    obtain ⟨g', hext, hp⟩ := hpost
    exact wp_pure.mpr ⟨empty_step hscan hend, g', hext, hp.isVal rfl⟩
  rw [if_neg hend]
  refine wp.bind (evalAtom_spec _ t _ g m (Nat.lt_succ_self _) h) ?_
  intro res m₁ hpost
  obtain ⟨result, l₁⟩ := res
  obtain ⟨hstep, g₁, hext₁, hval⟩ := hpost
  obtain ⟨t₁, q₁, errs₁, hscan₁, -, hpeek⟩ := scan_cases sys l₁
  -- A value as it is, or null for a value that could not be allocated.
  have hret : ∀ l' m', LexStep sys (fun fails q => AcceptsRhs sys fails l.p q) l l' → Extends g m g₁ m' →
      wp (do return (← orNull sys result, l')) (RhsPost sys l g m) m' := by
    intro l' m' hstep' hext'
    refine wp.bind (orNull_spec (h.extend hext') hval.1) ?_
    intro r m'' hpost
    obtain ⟨g', hext'', hval', -⟩ := hpost
    exact wp_pure.mpr ⟨hstep', g', hext'.trans hext'', hval'⟩
  dsimp only
  rw [hpeek]
  dsimp only
  by_cases ht : t₁.type ≠ .plus
  · rw [if_pos ht]
    exact hret _ m₁ (value_step hscan hend hstep (stop_step hscan₁ ht)) hext₁
  rw [if_neg ht]
  refine start_spec (f := id) (K := fun buf len cap => do
    let r ← concatLoop sys ((l₁.after l₁.p errs₁).p.length + 1) buf len cap (l₁.after l₁.p errs₁)
    let result ← varStr sys (some (← cstr r.1))
    taFree (some r.1)
    return (← orNull sys result, r.2)) hext₁ hval.1 ?_ ?_
  · intro l' m' hno hl' hext'
    have hcut : LexStep sys (fun fails r => AcceptsMore sys fails l₁.p r) (l₁.after l₁.p errs₁) (l₁.after l₁.p errs₁) :=
      cut_step (l := l₁.after l₁.p errs₁) hno
    have hpeeked := value_step hscan hend hstep (peeked_step hscan₁ hcut)
    rcases hl' with rfl | ⟨args, rfl⟩
    · exact hret _ m' hpeeked hext'
    · exact hret _ m' (hpeeked.report _ _) hext'
  · intro buf cap t' m' _ hext' hbuf
    refine wp.bind (concatLoop_spec h _ (Nat.lt_succ_self _) hext' hbuf) ?_
    intro res m₂ hpost
    obtain ⟨buf₂, l₂⟩ := res
    obtain ⟨hmore, g₂, cap₂, text₂, hext₂, hbuf₂⟩ := hpost
    refine finish_spec h hext₂ hbuf₂ ?_
    intro g₃ r m₃ hext₃ hval₃ _
    exact ⟨value_step hscan hend hstep (peeked_step hscan₁ hmore), g₃, hext₃, hval₃⟩

end KanekFoundations.Cfg

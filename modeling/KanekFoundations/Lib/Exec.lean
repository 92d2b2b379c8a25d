/-
  KanekFoundations.Lib.Exec — programs that pass a state and may get stuck.

  A program is a `StateT σ Option α`; `none` is an access the program must not make, or a
  loop that ran out of its bound. `wp m Q s`: from `s` the program ends, and in `Q`;
  `wlp m Q s`: it ends in `Q` if it ends. One rule for each way a program is built.
-/

import Mathlib

namespace KanekFoundations.Lib

variable {σ α β : Type}

def wp (m : StateT σ Option α) (Q : α → σ → Prop) (s : σ) : Prop := ∃ r, m s = some r ∧ Q r.1 r.2

theorem bind_apply (m : StateT σ Option α) (f : α → StateT σ Option β) (s : σ) :
    (m >>= f) s = (m s).bind fun r => f r.1 r.2 := rfl

/-- A program that is stuck is stuck whatever follows. -/
theorem bind_stuck {m : StateT σ Option α} {s : σ} (f : α → StateT σ Option β) (h : m s = none) :
    (m >>= f) s = none := by
  rw [bind_apply, h]
  rfl

theorem wp_pure {a : α} {Q : α → σ → Prop} {s : σ} : wp (pure a) Q s ↔ Q a s := by
  constructor
  · intro hruns
    obtain ⟨r, hr, hq⟩ := hruns
    cases hr
    exact hq
  · exact fun hq => ⟨(a, s), rfl, hq⟩

theorem wp_bind {m : StateT σ Option α} {f : α → StateT σ Option β} {Q : β → σ → Prop} {s : σ} :
    wp (m >>= f) Q s ↔ wp m (fun a s' => wp (f a) Q s') s := by
  unfold wp
  rw [bind_apply]
  cases m s with
  | none => simp
  | some r => simp

theorem wp.mono {m : StateT σ Option α} {Q R : α → σ → Prop} {s : σ} (h : wp m Q s) (hqr : ∀ a s', Q a s' → R a s') :
    wp m R s := by
  obtain ⟨r, hr, hq⟩ := h
  exact ⟨r, hr, hqr _ _ hq⟩

/-- The rule for a sequence: what the first program leaves is enough for the second. -/
theorem wp.bind {m : StateT σ Option α} {f : α → StateT σ Option β} {Q : α → σ → Prop} {R : β → σ → Prop} {s : σ}
    (h : wp m Q s) (hf : ∀ a s', Q a s' → wp (f a) R s') : wp (m >>= f) R s :=
  wp_bind.mpr (h.mono hf)

theorem wp_run {m : StateT σ Option α} {Q : α → σ → Prop} {s s' : σ} {a : α} (h : m s = some (a, s')) :
    wp m Q s ↔ Q a s' := by
  constructor
  · intro hruns
    obtain ⟨r, hr, hq⟩ := hruns
    cases h.symm.trans hr
    exact hq
  · exact fun hq => ⟨(a, s'), h, hq⟩

theorem not_wp {m : StateT σ Option α} {Q : α → σ → Prop} {s : σ} (h : m s = none) : ¬ wp m Q s := by
  rintro ⟨r, hr, -⟩
  rw [h] at hr
  cases hr

theorem wp.run {m : StateT σ Option α} {s s' : σ} {a : α} (h : wp m (fun a' t => a' = a ∧ t = s') s) :
    m s = some (a, s') := by
  obtain ⟨r, hr, rfl, rfl⟩ := h
  exact hr

/-- The rule for a loop `for ( i = 0; i < n; i++)`: `I i` before round `i`. -/
theorem wp_forM_range {body : Nat → StateT σ Option PUnit} {n : Nat} (I : Nat → σ → Prop) {s : σ} (h : I 0 s)
    (hstep : ∀ i < n, ∀ s, I i s → wp (body i) (fun _ s' => I (i + 1) s') s) :
    wp ((List.range n).forM body) (fun _ s' => I n s') s := by
  induction n with
  | zero => exact wp_pure.mpr h
  | succ n ih =>
    show wp (forM (List.range (n + 1)) body) _ s
    rw [List.range_succ, List.forM_append, wp_bind]
    refine (ih fun i hi => hstep i (Nat.lt_succ_of_lt hi)).mono fun _ s' hs' => ?_
    rw [List.forM_cons, List.forM_nil, wp_bind]
    exact (hstep n (Nat.lt_succ_self n) s' hs').mono fun _ s'' hs'' => wp_pure.mpr hs''

/-! ## Programs that may get stuck -/

def wlp (m : StateT σ Option α) (Q : α → σ → Prop) (s : σ) : Prop := ∀ a s', m s = some (a, s') → Q a s'

theorem wlp_pure {a : α} {Q : α → σ → Prop} {s : σ} (h : Q a s) : wlp (pure a) Q s := by
  intro a' s' hr
  cases hr
  exact h

theorem wlp.mono {m : StateT σ Option α} {Q R : α → σ → Prop} {s : σ} (h : wlp m Q s) (hqr : ∀ a s', Q a s' → R a s') :
    wlp m R s := fun a s' hr => hqr a s' (h a s' hr)

theorem wlp.bind {m : StateT σ Option α} {f : α → StateT σ Option β} {Q : α → σ → Prop} {R : β → σ → Prop} {s : σ}
    (h : wlp m Q s) (hf : ∀ a s', Q a s' → wlp (f a) R s') : wlp (m >>= f) R s := by
  intro b s'' hr
  obtain ⟨r, hm, hfr⟩ := Option.bind_eq_some_iff.mp hr
  exact hf r.1 r.2 (h _ _ hm) b s'' hfr

/-- The rule for a sequence of which only the rest matters. -/
theorem wlp.skip {m : StateT σ Option α} {f : α → StateT σ Option β} {R : β → σ → Prop} {s : σ}
    (hf : ∀ a s', wlp (f a) R s') : wlp (m >>= f) R s :=
  wlp.bind (Q := fun _ _ => True) (fun _ _ _ => trivial) fun a s' _ => hf a s'

/-- The rule for a choice in front of the rest of a program. -/
theorem wlp.ite_bind {c : Prop} [Decidable c] {m m' : StateT σ Option α} {f : α → StateT σ Option β} {Q : α → σ → Prop}
    {R : β → σ → Prop} {s : σ} (h : wlp m Q s) (h' : wlp m' Q s) (hf : ∀ a s', Q a s' → wlp (f a) R s') :
    wlp (if c then m >>= f else m' >>= f) R s := by
  split
  · exact h.bind hf
  · exact h'.bind hf

/-- What is stuck after anything that the first program can leave is stuck. -/
theorem wlp.bind_none {m : StateT σ Option α} {f : α → StateT σ Option β} {Q : α → σ → Prop} {s : σ} (h : wlp m Q s)
    (hf : ∀ a s', Q a s' → f a s' = none) : (m >>= f) s = none := by
  rw [bind_apply]
  cases hr : m s with
  | none => rfl
  | some r => exact hf r.1 r.2 (h _ _ hr)

theorem wp.liberal {m : StateT σ Option α} {Q : α → σ → Prop} {s : σ} (h : wp m Q s) : wlp m Q s := by
  intro a s' hr
  obtain ⟨r, hr', hq⟩ := h
  cases hr.symm.trans hr'
  exact hq

/-- A program that ends does so in whatever it ends in if it ends. -/
theorem wp.and {m : StateT σ Option α} {Q R : α → σ → Prop} {s : σ} (h : wp m Q s) (h' : wlp m R s) :
    wp m (fun a s' => Q a s' ∧ R a s') s := by
  obtain ⟨r, hr, hq⟩ := h
  exact ⟨r, hr, hq, h' _ _ hr⟩

end KanekFoundations.Lib

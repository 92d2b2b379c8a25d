/-
  KanekFoundations.Lib.Critical — calls of several steps on shared state, made by any number
  of threads, with or without a lock around them.

  A `Code` says how a call starts and what its next step does to the thread's own state and
  the shared one; its last step gives the result. A thread that calls waits, enters, takes
  its steps, leaves and then returns; with `locked` it enters only while no other thread is
  inside. `left` lists the calls in the order they leave, `done` in the order they return:
  between the two a thread may be overtaken. One thread's steps fall anywhere between those
  of others.

  Proved, with the lock:
  - `Reach.serial`: what has left is what the same calls give one after the other, in that
    order.
  - `Reach.next`: as long as a call has not returned, some thread can go on.

  With or without it, a thread returns its calls in the order it left (`Reach.returned`).
-/

import Mathlib

namespace KanekFoundations.Lib.Critical

variable {S C L R T : Type}

structure Code (S C L R : Type) where
  start : C → L
  step : L → S → (L × S) ⊕ R

inductive Phase (C L R : Type)
  | idle
  | waiting (c : C)
  | inside (c : C) (l : L)
  | outside (c : C) (r : R)

/-- What a thread has left with and not returned. -/
def Phase.pending (t : T) : Phase C L R → List (T × C × R)
  | .outside c r => [(t, c, r)]
  | .idle | .waiting _ | .inside _ _ => []

structure State (S C L R T : Type) where
  shared : S
  lock : Option T
  phase : T → Phase C L R
  left : List (T × C × R)
  done : List (T × C × R)

variable [DecidableEq T] (code : Code S C L R) (locked : Bool)

inductive Step : State S C L R T → State S C L R T → Prop
  | call (s : State S C L R T) (t : T) (c : C) (h : s.phase t = .idle) :
      Step s { s with phase := Function.update s.phase t (.waiting c) }
  | enter (s : State S C L R T) (t : T) (c : C) (h : s.phase t = .waiting c) (hlock : locked = true → s.lock = none) :
      Step s { s with lock := some t, phase := Function.update s.phase t (.inside c (code.start c)) }
  | micro (s : State S C L R T) (t : T) (c : C) (l l' : L) (x : S) (h : s.phase t = .inside c l)
      (hstep : code.step l s.shared = .inl (l', x)) :
      Step s { s with shared := x, phase := Function.update s.phase t (.inside c l') }
  | leave (s : State S C L R T) (t : T) (c : C) (l : L) (r : R) (h : s.phase t = .inside c l)
      (hstep : code.step l s.shared = .inr r) :
      Step s { s with
        lock := none, phase := Function.update s.phase t (.outside c r), left := s.left ++ [(t, c, r)] }
  | ret (s : State S C L R T) (t : T) (c : C) (r : R) (h : s.phase t = .outside c r) :
      Step s { s with phase := Function.update s.phase t .idle, done := s.done ++ [(t, c, r)] }

def init (x : S) : State S C L R T := ⟨x, none, fun _ => .idle, [], []⟩

inductive Reach (x : S) : State S C L R T → Prop
  | init : Reach x (init x)
  | step {s s' : State S C L R T} (h : Reach x s) (hs : Step code locked s s') : Reach x s'

/-! ## One call after the other -/

inductive Steps (code : Code S C L R) (l : L) (x : S) : L → S → Prop
  | refl : Steps code l x l x
  | tail {l' l'' : L} {x' x'' : S} (h : Steps code l x l' x') (hs : code.step l' x' = .inl (l'', x'')) :
      Steps code l x l'' x''

/-- A call alone: its steps, and its result. -/
def Exec (c : C) (x : S) (r : R) (x' : S) : Prop := ∃ l, Steps code (code.start c) x l x' ∧ code.step l x' = .inr r

inductive Serial (x : S) : List (C × R) → S → Prop
  | nil : Serial x [] x
  | snoc {calls : List (C × R)} {x' x'' : S} {c : C} {r : R} (h : Serial x calls x') (he : Exec code c x' r x'') :
      Serial x (calls ++ [(c, r)]) x''

/-! ## The order of a thread's calls -/

def calledBy (t : T) (calls : List (T × C × R)) : List (T × C × R) := calls.filter fun d => d.1 = t

theorem calledBy_snoc (t : T) (calls : List (T × C × R)) (c : C) (r : R) :
    calledBy t (calls ++ [(t, c, r)]) = calledBy t calls ++ [(t, c, r)] := by
  simp [calledBy]

theorem calledBy_snoc_of_ne {t u : T} (hut : u ≠ t) (calls : List (T × C × R)) (c : C) (r : R) :
    calledBy u (calls ++ [(t, c, r)]) = calledBy u calls := by
  simp [calledBy, Ne.symm hut]

/-- Each thread has returned what it left with, but for the last call. -/
def Returned (s : State S C L R T) : Prop := ∀ t, calledBy t s.left = calledBy t s.done ++ (s.phase t).pending t

variable {code} {locked} {x : S} {s s' : State S C L R T}

theorem Returned.step (hret : Returned s) (hs : Step code locked s s') : Returned s' := by
  intro u
  have hu := hret u
  cases hs with
  | call t c h | enter t c h _ | micro t c l l' x' h _ =>
    by_cases hut : u = t
    · subst hut
      rw [h] at hu
      simpa [Phase.pending] using hu
    · simpa [hut] using hu
  | leave t c l r h hstep =>
    by_cases hut : u = t
    · subst hut
      rw [h] at hu
      simpa [Phase.pending, calledBy_snoc] using hu
    · simpa [hut, calledBy_snoc_of_ne hut] using hu
  | ret t c r h =>
    by_cases hut : u = t
    · subst hut
      rw [h] at hu
      simpa [Phase.pending, calledBy_snoc] using hu
    · simpa [hut, calledBy_snoc_of_ne hut] using hu

theorem Reach.returned (h : Reach code locked x s) : Returned s := by
  induction h with
  | init => exact fun _ => rfl
  | step _ hs ih => exact ih.step hs

theorem Reach.left_of_done (h : Reach code locked x s) {d : T × C × R} (hd : d ∈ s.done) : d ∈ s.left := by
  have hmem : d ∈ calledBy d.1 s.left := by
    rw [h.returned d.1]
    exact List.mem_append_left _ (List.mem_filter.mpr ⟨hd, decide_eq_true rfl⟩)
  exact (List.mem_filter.mp hmem).1

/-! ## The lock -/

/-- The lock is held by the one thread that is inside, and the shared state is what the calls that
    left and its steps make of it one after the other. -/
inductive Inv (code : Code S C L R) (x : S) (s : State S C L R T) : Prop
  | free (hlock : s.lock = none) (hout : ∀ t c l, s.phase t ≠ .inside c l)
      (hserial : Serial code x (s.left.map Prod.snd) s.shared)
  | held (t : T) (c : C) (l : L) (x' : S) (hlock : s.lock = some t) (hin : s.phase t = .inside c l)
      (hout : ∀ u, u ≠ t → ∀ c l, s.phase u ≠ .inside c l) (hserial : Serial code x (s.left.map Prod.snd) x')
      (hsteps : Steps code (code.start c) x' l s.shared)

theorem Inv.inside_iff (hi : Inv code x s) {t : T} {c : C} {l : L} (h : s.phase t = .inside c l) :
    s.lock = some t ∧ (∀ u, u ≠ t → ∀ c l, s.phase u ≠ .inside c l) ∧ ∃ x', Serial code x (s.left.map Prod.snd) x' ∧
      Steps code (code.start c) x' l s.shared := by
  cases hi with
  | free hlock hout hserial => exact absurd h (hout t c l)
  | held t' c' l' x' hlock hin hout hserial hsteps =>
    by_cases htt : t = t'
    · subst htt
      obtain ⟨rfl, rfl⟩ := Phase.inside.inj (h.symm.trans hin)
      exact ⟨hlock, hout, x', hserial, hsteps⟩
    · exact absurd h (hout t htt c l)

/-- A thread that is not inside before or after a step may change its phase, and return. -/
theorem Inv.outside (hi : Inv code x s) {t : T} {p : Phase C L R} (h : ∀ c l, s.phase t ≠ .inside c l)
    (hp : ∀ c l, p ≠ .inside c l) (done : List (T × C × R)) :
    Inv code x { s with phase := Function.update s.phase t p, done := done } := by
  have hphase : ∀ u c l, Function.update s.phase t p u = .inside c l → s.phase u = .inside c l := by
    intro u c l hu
    by_cases hut : u = t
    · subst hut
      rw [Function.update_self] at hu
      exact absurd hu (hp c l)
    · rwa [Function.update_of_ne hut] at hu
  cases hi with
  | free hlock hout hserial => exact .free hlock (fun u c l hu => hout u c l (hphase u c l hu)) hserial
  | held t' c' l' x' hlock hin hout hserial hsteps =>
    have hne : t' ≠ t := fun heq => h c' l' (heq ▸ hin)
    refine .held t' c' l' x' hlock ?_ (fun u hu c l hin' => hout u hu c l (hphase u c l hin')) hserial hsteps
    show Function.update s.phase t p t' = _
    rw [Function.update_of_ne hne, hin]

theorem Inv.step (hi : Inv code x s) (hs : Step code true s s') : Inv code x s' := by
  cases hs with
  | call t c h => exact hi.outside (fun c l => by rw [h]; simp) (fun c l => by simp) s.done
  | enter t c h hlock =>
    cases hi with
    | held t' c' l' x' hlock' => exact absurd ((hlock rfl).symm.trans hlock') (by simp)
    | free _ hout hserial =>
      refine .held t c (code.start c) s.shared rfl (Function.update_self ..) (fun u hu c' l' => ?_) hserial .refl
      show Function.update s.phase t _ u ≠ _
      rw [Function.update_of_ne hu]
      exact hout u c' l'
  | micro t c l l' x' h hstep =>
    obtain ⟨hlock, hout, y, hserial, hsteps⟩ := hi.inside_iff h
    refine .held t c l' y hlock (Function.update_self ..) (fun u hu c' l'' => ?_) hserial (hsteps.tail hstep)
    show Function.update s.phase t _ u ≠ _
    rw [Function.update_of_ne hu]
    exact hout u hu c' l''
  | leave t c l r h hstep =>
    obtain ⟨hlock, hout, y, hserial, hsteps⟩ := hi.inside_iff h
    refine .free rfl (fun u c' l' => ?_) ?_
    · show Function.update s.phase t _ u ≠ _
      by_cases hut : u = t
      · subst hut
        rw [Function.update_self]
        simp
      · rw [Function.update_of_ne hut]
        exact hout u hut c' l'
    · show Serial code x ((s.left ++ [(t, c, r)]).map Prod.snd) s.shared
      rw [List.map_append]
      exact hserial.snoc ⟨l, hsteps, hstep⟩
  | ret t c r h => exact hi.outside (fun c l => by rw [h]; simp) (fun c l => by simp) _

theorem Reach.inv (h : Reach code true x s) : Inv code x s := by
  induction h with
  | init => exact .free rfl (fun _ _ _ h => by (cases h)) .nil
  | step _ hs ih => exact ih.step hs

/-- The calls that have left are as if made one after the other. -/
theorem Reach.serial (h : Reach code true x s) :
    ∃ x', Serial code x (s.left.map Prod.snd) x' ∧ (s.lock = none → x' = s.shared) := by
  cases h.inv with
  | free hlock hout hserial => exact ⟨_, hserial, fun _ => rfl⟩
  | held t c l x' hlock hin hout hserial hsteps =>
    exact ⟨x', hserial, fun hnone => by rw [hlock] at hnone; cases hnone⟩

/-- While some thread is in a call, a thread that is in one can go on. -/
theorem Reach.next (h : Reach code true x s) {t : T} (ht : s.phase t ≠ .idle) :
    ∃ u s', Step code true s s' ∧ s.phase u ≠ .idle ∧ ∀ v, v ≠ u → s'.phase v = s.phase v := by
  cases h.inv with
  | free hlock hout hserial =>
    cases hphase : s.phase t with
    | idle => exact absurd hphase ht
    | inside c l => exact absurd hphase (hout t c l)
    | waiting c =>
      exact ⟨t, _, .enter s t c hphase fun _ => hlock, ht, fun v hv => Function.update_of_ne hv _ _⟩
    | outside c r => exact ⟨t, _, .ret s t c r hphase, ht, fun v hv => Function.update_of_ne hv _ _⟩
  | held u c l x' hlock hin hout hserial hsteps =>
    have hu : s.phase u ≠ .idle := by
      rw [hin]
      simp
    cases hstep : code.step l s.shared with
    | inl r =>
      exact ⟨u, _, .micro s u c l r.1 r.2 hin hstep, hu, fun v hv => Function.update_of_ne hv _ _⟩
    | inr r => exact ⟨u, _, .leave s u c l r hin hstep, hu, fun v hv => Function.update_of_ne hv _ _⟩

end KanekFoundations.Lib.Critical

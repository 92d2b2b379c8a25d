/-
  KanekFoundations.Lib.Log — programs that append to a log.

  The state of such a program is the list of its events. `Logs p a es`: whatever the log is,
  `p` ends with the value `a` and has appended `es`. A loop appends what its rounds do.
-/

import KanekFoundations.Lib.Exec

namespace KanekFoundations.Lib

variable {ε ι α β : Type} {p : StateT (List ε) Option α} {f : α → StateT (List ε) Option β} {a : α} {b : β}
  {es es' : List ε}

def Logs (p : StateT (List ε) Option α) (a : α) (es : List ε) : Prop := ∀ log, p log = some (a, log ++ es)

theorem Logs.pure (a : α) : Logs (pure a : StateT (List ε) Option α) a [] := by
  intro log
  rw [List.append_nil]
  rfl

theorem Logs.bind (hp : Logs p a es) (hf : Logs (f a) b es') : Logs (p >>= f) b (es ++ es') := by
  intro log
  rw [bind_apply, hp log, Option.bind_some, hf, List.append_assoc]

theorem Logs.wlp (hp : Logs p a es) (log : List ε) : wlp p (fun a' _ => a' = a) log := by
  intro a' log' hr
  cases (hp log).symm.trans hr
  rfl

/-- A program that gets stuck does so after any events. -/
theorem Logs.bind_none (hp : Logs p a es) (hf : ∀ log, f a log = none) (log : List ε) : (p >>= f) log = none :=
  (hp.wlp log).bind_none fun _ log' ha => ha ▸ hf log'

theorem Logs.forM {f : ι → StateT (List ε) Option PUnit} {g : ι → List ε} {xs : List ι}
    (h : ∀ x ∈ xs, Logs (f x) ⟨⟩ (g x)) : Logs (xs.forM f) ⟨⟩ (xs.flatMap g) := by
  induction xs with
  | nil => exact .pure _
  | cons x xs ih =>
    rw [List.flatMap_cons]
    exact (h x (List.mem_cons_self ..)).bind (ih fun y hy => h y (List.mem_cons_of_mem _ hy))

theorem Logs.mapM {f : ι → StateT (List ε) Option α} {v : ι → α} {g : ι → List ε} {xs : List ι}
    (h : ∀ x ∈ xs, Logs (f x) (v x) (g x)) : Logs (xs.mapM f) (xs.map v) (xs.flatMap g) := by
  induction xs with
  | nil => exact .pure _
  | cons x xs ih =>
    rw [List.mapM_cons, List.map_cons, List.flatMap_cons]
    have hrest : Logs (do let ys ← xs.mapM f; Pure.pure (v x :: ys)) (v x :: xs.map v) (xs.flatMap g ++ []) :=
      (ih fun y hy => h y (List.mem_cons_of_mem _ hy)).bind (.pure _)
    rw [List.append_nil] at hrest
    exact (h x (List.mem_cons_self ..)).bind hrest

end KanekFoundations.Lib

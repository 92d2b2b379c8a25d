/-
  KanekFoundations.Krand.Krand64 — the generators of `krand64.c`.

  `krand64_r` steps the state its caller gives it. `krand64` and `set_kseed64` work on one
  global seed, each behind the mutex of the file in a user-space build; a build without
  `USER_SPACE` has no mutex. A call is its accesses to the seed, one after the other
  (`code`): other threads' accesses fall anywhere between them.

  Proved:
  - `krand64_one_stream`: with the mutex, whatever the threads and their order, the calls
    that have left it got what `krand64_r` gives one caller who makes the same calls in the
    order they left: no step of the seed is lost, none is used twice. A thread returns its
    own calls in that order; two threads may be past the mutex and return the other way
    round.
  - `kernel_loses_an_update`: without it, from every seed two calls can get the same number
    and move the seed on by one.
-/

import KanekFoundations.Lib.Critical

namespace KanekFoundations.Krand

open KanekFoundations.Lib

/-- The body that `krand64` and `krand64_r` share. -/
def scramble (seed max : BitVec 64) : BitVec 64 :=
  let a : BitVec 64 := 0xbadbabe
  let b : BitVec 64 := 0xc007c0ffee
  let c : BitVec 64 := 0xdeadbeef
  let ac : BitVec 64 := 0xb00
  let seed0 := seed - 0xbadd0d0
  let seed1 := seed
  let seed2 := seed + 0xc007dad
  let seed0 := ((seed1 * c) >>> 32) + ((seed2 * b) >>> 32) + seed0 * c + seed1 * b + seed2 * a
  let seed1 := ((seed2 * c) >>> 32) + seed1 * c + seed2 * b
  let seed2 := seed2 * c + ac
  let seed1 := seed1 + (seed2 >>> 32)
  let seed0 := seed0 + (seed1 >>> 32)
  let seed0 := seed0 &&& 0xffffffff
  let seed1 := seed1 &&& 0xffffffff
  let rc := (seed0 <<< 32) ||| seed1
  if max > 0 then rc % max else rc

/-- The number, and the state after it. -/
def krand64R (state max : BitVec 64) : BitVec 64 × BitVec 64 := (scramble state max, state + 1)

inductive Call
  | setKseed64 (seed : BitVec 64)
  | krand64 (max : BitVec 64)
  deriving DecidableEq

/-- Where a thread is in a call; `_kseed64++` reads the seed and writes it back. -/
inductive Point
  | assign (seed : BitVec 64)
  | assigned
  | load (max : BitVec 64)
  | store (max seed : BitVec 64)
  | compute (max seed : BitVec 64)
  deriving DecidableEq

/-- `set_kseed64` returns nothing. -/
def code : Critical.Code (BitVec 64) Call Point (Option (BitVec 64)) where
  start
    | .setKseed64 seed => .assign seed
    | .krand64 max => .load max
  step
    | .assign seed, _ => .inl (.assigned, seed)
    | .assigned, _ => .inr none
    | .load max, kseed => .inl (.store max kseed, kseed)
    | .store max seed, _ => .inl (.compute max seed, seed + 1)
    | .compute max seed, _ => .inr (some (scramble seed max))

/-- `static uint64_t _kseed64 = 1` -/
def KSEED64 : BitVec 64 := 1

/-! ## One caller -/

/-- What a caller of `krand64_r` gets who keeps the state, and the state after. -/
def alone (state : BitVec 64) : List Call → List (Option (BitVec 64)) × BitVec 64
  | [] => ([], state)
  | .setKseed64 seed :: calls =>
    let r := alone seed calls
    (none :: r.1, r.2)
  | .krand64 max :: calls =>
    let r := alone (krand64R state max).2 calls
    (some (krand64R state max).1 :: r.1, r.2)

theorem alone_append (state : BitVec 64) (calls calls' : List Call) :
    alone state (calls ++ calls') = ((alone state calls).1 ++ (alone (alone state calls).2 calls').1,
      (alone (alone state calls).2 calls').2) := by
  induction calls generalizing state with
  | nil => rfl
  | cons c calls ih =>
    cases c with
    | setKseed64 seed => simp only [List.cons_append, alone, ih]
    | krand64 max => simp only [List.cons_append, alone, ih]

/-- Where a call that nothing comes between can be, from seed `x`, and the seed there. -/
def Within (x : BitVec 64) : Call → Point → BitVec 64 → Prop
  | .setKseed64 seed, .assign s, y => s = seed ∧ y = x
  | .setKseed64 seed, .assigned, y => y = seed
  | .krand64 max, .load m, y => m = max ∧ y = x
  | .krand64 max, .store m s, y => m = max ∧ s = x ∧ y = x
  | .krand64 max, .compute m s, y => m = max ∧ s = x ∧ y = x + 1
  | _, _, _ => False

theorem within_of_steps {c : Call} {l : Point} {x y : BitVec 64} (h : Critical.Steps code (code.start c) x l y) :
    Within x c l y := by
  induction h with
  | refl =>
    cases c with
    | setKseed64 seed => exact ⟨rfl, rfl⟩
    | krand64 max => exact ⟨rfl, rfl⟩
  | @tail l' l'' y' y'' _ hs ih =>
    cases c with
    | setKseed64 seed =>
      cases l' with
      | assign s =>
        obtain ⟨rfl, rfl⟩ := ih
        cases hs
        rfl
      | assigned => cases hs
      | load m => exact ih.elim
      | store m s => exact ih.elim
      | compute m s => exact ih.elim
    | krand64 max =>
      cases l' with
      | assign s => exact ih.elim
      | assigned => exact ih.elim
      | load m =>
        obtain ⟨rfl, rfl⟩ := ih
        cases hs
        exact ⟨rfl, rfl, rfl⟩
      | store m s =>
        obtain ⟨rfl, rfl, rfl⟩ := ih
        cases hs
        exact ⟨rfl, rfl, rfl⟩
      | compute m s => cases hs

theorem alone_of_exec {c : Call} {x y : BitVec 64} {r : Option (BitVec 64)} (h : Critical.Exec code c x r y) :
    alone x [c] = ([r], y) := by
  obtain ⟨l, hsteps, hlast⟩ := h
  have hin := within_of_steps hsteps
  cases l with
  | assign s => cases hlast
  | load m => cases hlast
  | store m s => cases hlast
  | assigned =>
    cases c with
    | setKseed64 seed =>
      obtain rfl : y = seed := hin
      cases hlast
      rfl
    | krand64 max => exact hin.elim
  | compute m s =>
    cases c with
    | setKseed64 seed => exact hin.elim
    | krand64 max =>
      obtain ⟨rfl, rfl, rfl⟩ := hin
      cases hlast
      rfl

theorem alone_of_serial {calls : List (Call × Option (BitVec 64))} {x y : BitVec 64}
    (h : Critical.Serial code x calls y) :
    alone x (calls.map Prod.fst) = (calls.map Prod.snd, y) := by
  induction h with
  | nil => rfl
  | snoc _ he ih => rw [List.map_append, alone_append, ih, List.map_cons, List.map_nil, alone_of_exec he,
      List.map_append]; rfl

/-- Without a seeding, call `i` gets the number of seed `state + i`. -/
theorem alone_krand64 (state : BitVec 64) (maxs : List (BitVec 64)) :
    alone state (maxs.map .krand64) =
      (maxs.mapIdx fun i max => some (scramble (state + BitVec.ofNat 64 i) max),
        state + BitVec.ofNat 64 maxs.length) := by
  induction maxs generalizing state with
  | nil => simp [alone]
  | cons max maxs ih =>
    have hnext : ∀ i : Nat, state + 1 + BitVec.ofNat 64 i = state + BitVec.ofNat 64 (i + 1) := by
      intro i
      rw [Nat.add_comm i 1, BitVec.ofNat_add, ← BitVec.add_assoc]
      rfl
    have hfirst : state + BitVec.ofNat 64 0 = state := BitVec.add_zero state
    rw [List.map_cons, alone, List.mapIdx_cons, hfirst]
    show (_ :: (alone (state + 1) (maxs.map .krand64)).1, (alone (state + 1) (maxs.map .krand64)).2) = _
    rw [ih]
    simp only [hnext, List.length_cons]
    rfl

theorem scramble_lt (seed : BitVec 64) {max : BitVec 64} (h : 0 < max) : scramble seed max < max := by
  simp only [scramble]
  rw [if_pos h]
  exact BitVec.umod_lt _ h

/-! ## Threads -/

section
variable {T : Type} [DecidableEq T]

abbrev Threads (T : Type) := Critical.State (BitVec 64) Call Point (Option (BitVec 64)) T

/-- A call that returned a number got that of some seed. -/
theorem number_of_serial {calls : List (Call × Option (BitVec 64))} {x y : BitVec 64}
    (h : Critical.Serial code x calls y)
    {max v : BitVec 64} (hmem : (Call.krand64 max, some v) ∈ calls) : ∃ seed, v = scramble seed max := by
  induction h with
  | nil => cases hmem
  | @snoc calls x' x'' c r _ he ih =>
    rcases List.mem_append.mp hmem with hmem | hmem
    · exact ih hmem
    · obtain ⟨rfl, rfl⟩ := Prod.mk.inj (List.mem_singleton.mp hmem)
      exact ⟨x', (Option.some.inj (List.cons.inj (congrArg Prod.fst (alone_of_exec he))).1).symm⟩

/-- However the threads run: the calls that have left the mutex got the numbers of one stream, in the
    order they left; each thread returns what it left with, in that order; each number keeps to its bound;
    and a thread that is in a call never waits for ever on a lock that nobody can give back. -/
theorem krand64_one_stream {s : Threads T} (h : Critical.Reach code true KSEED64 s) :
    s.left.map (fun d => d.2.2) = (alone KSEED64 (s.left.map fun d => d.2.1)).1 ∧
      (s.lock = none → s.shared = (alone KSEED64 (s.left.map fun d => d.2.1)).2) ∧
      (∀ maxs : List (BitVec 64), s.left.map (fun d => d.2.1) = maxs.map .krand64 →
        s.left.map (fun d => d.2.2) = maxs.mapIdx fun i max => some (scramble (KSEED64 + BitVec.ofNat 64 i) max)) ∧
      (∀ t, s.left.filter (fun d => d.1 = t) = s.done.filter (fun d => d.1 = t) ++ (s.phase t).pending t) ∧
      (∀ t max v, (t, Call.krand64 max, some v) ∈ s.done → 0 < max → v < max) ∧
      ∀ t, s.phase t ≠ .idle →
        ∃ u s', Critical.Step code true s s' ∧ s.phase u ≠ .idle ∧ ∀ v, v ≠ u → s'.phase v = s.phase v := by
  obtain ⟨y, hserial, hfree⟩ := h.serial
  have halone := alone_of_serial hserial
  rw [List.map_map, List.map_map] at halone
  have hresults : s.left.map (fun d => d.2.2) = (alone KSEED64 (s.left.map fun d => d.2.1)).1 :=
    (congrArg Prod.fst halone).symm
  refine ⟨hresults, fun hlock => ?_, fun maxs hmaxs => ?_, h.returned, fun t max v hmem hmax => ?_, fun t => h.next⟩
  · rw [← hfree hlock]
    exact (congrArg Prod.snd halone).symm
  · rw [hresults, hmaxs, alone_krand64]
  · obtain ⟨seed, rfl⟩ := number_of_serial hserial (List.mem_map_of_mem (h.left_of_done hmem))
    exact scramble_lt seed hmax

/-- Thread `true` leaves first, and `false` returns before it. -/
theorem krand64_one_stream_two :
    ∃ s : Threads Bool, s.left.map (fun d => (d.1, d.2.1)) = [(true, .krand64 10), (false, .krand64 5)] ∧
      s.done.map (fun d => (d.1, d.2.1)) = [(false, .krand64 5)] ∧
      s.left.map (fun d => d.2.2) = [some (scramble 1 10), some (scramble 2 5)] := by
  have h₁ : Critical.Reach (T := Bool) code true KSEED64 _ := .step .init (.call _ false (.krand64 5) rfl)
  have h₂ := h₁.step (.call _ true (.krand64 10) (by simp [Critical.init]))
  have h₃ := h₂.step (.enter _ true (.krand64 10) (by simp) fun _ => rfl)
  have h₄ := h₃.step (.micro _ true (.krand64 10) (.load 10) _ _ (by simp [code]) rfl)
  have h₅ := h₄.step (.micro _ true (.krand64 10) (.store 10 KSEED64) _ _ (by simp [Critical.init]) rfl)
  have h₆ := h₅.step (.leave _ true (.krand64 10) (.compute 10 KSEED64) _ (by simp) rfl)
  have h₇ := h₆.step (.enter _ false (.krand64 5) (by simp) fun _ => rfl)
  have h₈ := h₇.step (.micro _ false (.krand64 5) (.load 5) _ _ (by simp [code]) rfl)
  have h₉ := h₈.step (.micro _ false (.krand64 5) (.store 5 (KSEED64 + 1)) _ _ (by simp) rfl)
  have h₁₀ := h₉.step (.leave _ false (.krand64 5) (.compute 5 (KSEED64 + 1)) _ (by simp) rfl)
  have h₁₁ := h₁₀.step (.ret _ false (.krand64 5) (some (scramble (KSEED64 + 1) 5)) (by simp))
  exact ⟨_, rfl, rfl, (krand64_one_stream h₁₁).1⟩

/-- Without the mutex: from every seed two calls can both return the number of that seed, and no order of the
    two calls explains it. -/
theorem kernel_loses_an_update {t u : T} (htu : t ≠ u) (x max : BitVec 64) :
    ∃ s : Threads T, Critical.Reach code false x s ∧
      s.done = [(t, .krand64 max, some (scramble x max)), (u, .krand64 max, some (scramble x max))] ∧ s.shared = x + 1 ∧
      ¬ Critical.Serial code x (s.done.map Prod.snd) s.shared := by
  have h₁ : Critical.Reach (T := T) code false x _ := .step .init (.call _ t (.krand64 max) rfl)
  have h₂ := h₁.step (.call _ u (.krand64 max) (by simp [Critical.init, Ne.symm htu]))
  have h₃ := h₂.step (.enter _ t (.krand64 max) (by simp [htu]) fun h => by (cases h))
  have h₄ := h₃.step (.enter _ u (.krand64 max) (by simp [Ne.symm htu]) fun h => by (cases h))
  -- Both read the seed before either writes it.
  have h₅ := h₄.step (.micro _ t (.krand64 max) (.load max) _ _ (by simp [code, htu]) rfl)
  have h₆ := h₅.step (.micro _ u (.krand64 max) (.load max) _ _ (by simp [code, Ne.symm htu]) rfl)
  have h₇ := h₆.step (.micro _ t (.krand64 max) (.store max x) _ _ (by simp [Critical.init, htu]) rfl)
  have h₈ := h₇.step (.micro _ u (.krand64 max) (.store max x) _ _ (by simp [Critical.init, Ne.symm htu]) rfl)
  have h₉ := h₈.step (.leave _ t (.krand64 max) (.compute max x) _ (by simp [htu]) rfl)
  have h₁₀ := h₉.step (.leave _ u (.krand64 max) (.compute max x) _ (by simp [Ne.symm htu]) rfl)
  have h₁₁ := h₁₀.step (.ret _ t (.krand64 max) (some (scramble x max)) (by simp [htu]))
  have h₁₂ := h₁₁.step (.ret _ u (.krand64 max) (some (scramble x max)) (by simp [Ne.symm htu]))
  refine ⟨_, h₁₂, rfl, rfl, fun hserial => ?_⟩
  have hseed : x + 1 + 1 = x + 1 := congrArg Prod.snd (alone_of_serial hserial)
  simp at hseed

theorem kernel_loses_an_update_first :
    ∃ s : Threads Bool, s.done.length = 2 ∧ s.shared = 2 ∧ ¬ Critical.Serial code 1 (s.done.map Prod.snd) s.shared := by
  obtain ⟨s, -, hdone, hshared, hserial⟩ := kernel_loses_an_update (show true ≠ false by decide) 1 0
  exact ⟨s, by rw [hdone]; rfl, hshared, hserial⟩

end

end KanekFoundations.Krand

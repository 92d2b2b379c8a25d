/-
  KanekFoundations.Cfg.Arrays — a growing array over a run of `var_push`.

  The store of an array doubles when it is full; the realloc moves it and may fail. Sizes
  are those of a `size_t` here (`varPush64`), so the count of bytes would wrap at a
  capacity of 2^61. Between the pushes the program does anything that leaves the array
  alone, other allocations included (`Pushes`).

  Proved:
  - `varPush64_eq`: below 2^60 it is `varPush`.
  - `array_pushes`: after any run, with any realloc failing, the array holds the items whose
    push succeeded; the length is at most the capacity, which is 8 times a power of two; the
    next push fails exactly when the store is full and the realloc fails, and then nothing
    in memory changed.
-/

import KanekFoundations.Cfg.Graph
import KanekFoundations.Ta.Ta

namespace KanekFoundations.Cfg

open KanekFoundations.Lib

variable {F : Type} {sys : Sys F} {m m' : Mem F} {arr items : Addr} {cap : Nat} {pushed : List (Option Addr)}

/-! ## `var_push` with sizes in a `size_t` -/

/-- `sizeof(var_t *)` -/
def ptrSize : Nat := 8

/-- How many items fit in the data that `ta_realloc` returns for `n` of them. -/
def roomFor (n : Nat) : Nat := (u64 (u64 (n * ptrSize) + Ta.HEADER) - Ta.HEADER) / ptrSize

/-- `arr->arr.items[arr->arr.len++] = item`, in a store of the size that was allocated. -/
def storeItem (arr items : Addr) (len cap : Nat) (item : Option Addr) : M F Unit := do
  match ← load items with
  | .ptrs room written =>
    if len = written.length ∧ len < room then do
      store items (.ptrs room (written ++ [item]))
      store arr (.array items (u64 (len + 1)) cap)
    else stuck
  | _ => stuck

def varPush64 (sys : Sys F) (arr : Option Addr) (item : Option Addr) : M F Int := do
  match arr with
  | none => pure (-1)
  | some a =>
    match ← load a with
    | .array items len cap =>
      if len = cap then do
        let newCap := u64 (cap * 2)
        let written ← cells items
        match ← taRealloc sys items (.ptrs (roomFor newCap) (written.take (roomFor newCap))) with
        | none => pure (-1)
        | some grown => do
          storeItem a grown len newCap item
          pure 0
      else do
        storeItem a items len cap item
        pure 0
    | _ => pure (-1)

theorem roomFor_small {n : Nat} (h : n ≤ 2 ^ 60) : roomFor n = n := by
  unfold roomFor u64 ptrSize Ta.HEADER
  omega

/-! ## An array and what it holds -/

/-- The array at `arr` holds `pushed` in a store of `cap` items. -/
structure ArrayAt (m : Mem F) (arr items : Addr) (cap : Nat) (pushed : List (Option Addr)) : Prop where
  array : m.heap.get arr = some (.array items pushed.length cap)
  store : m.heap.get items = some (.ptrs cap pushed)
  within : pushed.length ≤ cap
  doubled : ∃ k, cap = ARRAY_INIT_CAP * 2 ^ k

theorem ArrayAt.apart (h : ArrayAt m arr items cap pushed) : arr ≠ items := by
  rintro rfl
  cases h.array.symm.trans h.store

/-- A power of two below 2^60 is at most 2^59, so its double is still counted in bytes. -/
theorem ArrayAt.bytes (h : ArrayAt m arr items cap pushed) (hcap : cap < 2 ^ 60) : cap * 2 ≤ 2 ^ 60 := by
  obtain ⟨k, rfl⟩ := h.doubled
  have height : ARRAY_INIT_CAP * 2 ^ k = 2 ^ (k + 3) := by rw [pow_add, mul_comm]; rfl
  rw [height] at hcap ⊢
  have hk : k + 3 < 60 := (Nat.pow_lt_pow_iff_right (by omega)).mp hcap
  calc 2 ^ (k + 3) * 2 = 2 ^ (k + 4) := (pow_succ 2 (k + 3)).symm
    _ ≤ 2 ^ 60 := Nat.pow_le_pow_right (by omega) (by omega)

theorem varArray_arrayAt (hnew : varArray sys m = some (some arr, m')) :
    ∃ items, ArrayAt m' arr items ARRAY_INIT_CAP [] := by
  have hspec : wp (varArray sys) (fun r m' => ∀ a, r = some a → ∃ items, ArrayAt m' a items ARRAY_INIT_CAP []) m := by
    refine wp_varArray (fun _ a ha => (by cases ha)) (fun _ a ha => (by cases ha))
      fun items x m' _ _ harr hstore a ha => ?_
    cases ha
    exact ⟨items, harr, hstore, Nat.zero_le _, 0, rfl⟩
  exact ((wp_run hnew).mp hspec) arr rfl

/-- In a store as large as the capacity says, it is the store of `varPush`. -/
theorem storeItem_eq (hstore : m.heap.get items = some (.ptrs cap pushed)) (hlen : pushed.length + 1 < 2 ^ 64)
    (item : Option Addr) :
    storeItem arr items pushed.length cap item m = putItem arr items pushed.length cap item m := by
  unfold storeItem putItem cells
  rw [bind_apply, bind_apply, bind_apply, load_run hstore, u64_of_lt hlen]
  rfl

theorem storeItem_spec {b : Block F} (harr : m.heap.get arr = some b)
    (hitems : m.heap.get items = some (.ptrs cap pushed))
    (hne : arr ≠ items) (hroom : pushed.length < cap) (hcap : cap ≤ 2 ^ 60) (hdbl : ∃ k, cap = ARRAY_INIT_CAP * 2 ^ k)
    (item : Option Addr) :
    wp (storeItem arr items pushed.length cap item) (fun _ m' => ArrayAt m' arr items cap (pushed ++ [item])) m := by
  have hput :
      wp (putItem arr items pushed.length cap item) (fun _ m' => ArrayAt m' arr items cap (pushed ++ [item])) m := by
    refine wp_putItem harr hitems hne hroom fun x y m' _ harr' hitems' => ⟨harr', hitems', ?_, hdbl⟩
    rw [List.length_append, List.length_singleton]
    exact hroom
  obtain ⟨r, hr, harray⟩ := hput
  exact ⟨r, (storeItem_eq hitems (by omega) item).trans hr, harray⟩

/-- A push appends, or it finds the store full and the realloc fails; then nothing but the count of the
    allocator's calls changed. -/
def Pushed (sys : Sys F) (m : Mem F) (arr : Addr) (cap : Nat) (pushed : List (Option Addr))
    (item : Option Addr) (rc : Int) (m' : Mem F) : Prop :=
  (rc = -1 ∧ pushed.length = cap ∧ sys.mallocOk m.mallocs = false ∧ m' = m.failed) ∨
    (rc = 0 ∧ (pushed.length = cap → sys.mallocOk m.mallocs = true) ∧
      ∃ items' cap', ArrayAt m' arr items' cap' (pushed ++ [item]))

theorem varPush64_spec (h : ArrayAt m arr items cap pushed) (hcap : cap < 2 ^ 60) (item : Option Addr) :
    wp (varPush64 sys (some arr) item) (Pushed sys m arr cap pushed item) m := by
  unfold varPush64
  rw [wp_bind, wp_load h.array]
  show wp (if pushed.length = cap then _ else _) _ m
  have hbytes := h.bytes hcap
  by_cases hfull : pushed.length = cap
  · rw [if_pos hfull, u64_of_lt (by omega), wp_bind, wp_cells h.store, roomFor_small hbytes,
      List.take_of_length_le (by omega)]
    refine wp_bind.mpr (wp_realloc_at h.store (fun hm => ?_) fun hm => ?_)
    · exact wp_pure.mpr (.inl ⟨rfl, hfull, hm, rfl⟩)
    obtain ⟨k, hk⟩ := h.doubled
    have hdbl : ∃ k, cap * 2 = ARRAY_INIT_CAP * 2 ^ k := ⟨k + 1, by rw [hk, pow_succ, mul_assoc]⟩
    have hpos : 0 < cap := hk ▸ Nat.mul_pos (by decide) (Nat.two_pow_pos k)
    have hroom : pushed.length < cap * 2 := by omega
    have hlt := Heap.get_lt h.array
    have hput :=
      storeItem_spec ((moved_other hlt h.apart).trans h.array) (moved_new h.store) (Nat.ne_of_lt hlt) hroom hbytes
      hdbl item
    exact wp_bind.mpr (hput.mono fun _ m' hm' => wp_pure.mpr (.inr ⟨rfl, fun _ => hm, _, _, hm'⟩))
  · rw [if_neg hfull]
    have hput := storeItem_spec h.array h.store h.apart (Nat.lt_of_le_of_ne h.within hfull) (by omega) h.doubled item
    exact wp_bind.mpr (hput.mono fun _ m' hm' => wp_pure.mpr (.inr ⟨rfl, fun hc => absurd hc hfull, _, _, hm'⟩))

/-! ## Against `varPush` -/

theorem varPush64_eq (h : ArrayAt m arr items cap pushed) (hcap : cap < 2 ^ 60) (item : Option Addr) :
    varPush64 sys (some arr) item m = varPush sys (some arr) item m := by
  have hcells : cells items m = some (pushed, m) := ((wp_cells h.store).mpr ⟨rfl, rfl⟩).run
  have hbytes := h.bytes hcap
  have hwithin := h.within
  have hdouble : u64 (cap * 2) = cap * 2 := u64_of_lt (by omega)
  have hroom : roomFor (cap * 2) = cap * 2 := roomFor_small hbytes
  have hall : pushed.take (cap * 2) = pushed := List.take_of_length_le (by omega)
  show (load arr >>= _) m = (load arr >>= _) m
  rw [bind_apply, bind_apply, load_run h.array]
  show (if pushed.length = cap then _ else _ : M F Int) m = (if pushed.length = cap then _ else _ : M F Int) m
  by_cases hfull : pushed.length = cap
  · rw [if_pos hfull, if_pos hfull, hdouble, hroom, bind_apply, bind_apply, hcells, Option.bind_some,
      Option.bind_some, hall]
    have hrealloc : wp (taRealloc sys items (.ptrs (cap * 2) pushed))
        (fun r m' => ∀ grown, r = some grown → m'.heap.get grown = some (.ptrs (cap * 2) pushed)) m := by
      refine wp_realloc_at h.store (fun _ grown hgrown => (by cases hgrown)) fun _ grown hgrown => ?_
      cases hgrown
      exact moved_new h.store
    obtain ⟨⟨r, m'⟩, hr, hmoved⟩ := hrealloc
    rw [bind_apply, bind_apply, hr, Option.bind_some, Option.bind_some]
    cases r with
    | none => rfl
    | some grown =>
      show (storeItem arr grown pushed.length (cap * 2) item >>= _) m' =
        (putItem arr grown pushed.length (cap * 2) item >>= _) m'
      rw [bind_apply, bind_apply, storeItem_eq (hmoved grown rfl) (by omega)]
  · rw [if_neg hfull, if_neg hfull, bind_apply, bind_apply, storeItem_eq h.store (by omega)]

/-! ## Reading -/

theorem varLen_arrayAt (h : ArrayAt m arr items cap pushed) : varLen (some arr) m = some (pushed.length, m) := by
  refine wp.run ?_
  unfold varLen
  rw [wp_bind, wp_load h.array]
  exact wp_pure.mpr ⟨rfl, rfl⟩

theorem varGet_arrayAt (h : ArrayAt m arr items cap pushed) (idx : Nat) :
    varGet (some arr) idx m = some (pushed[idx]?.join, m) := by
  refine wp.run ?_
  unfold varGet
  rw [wp_bind, wp_load h.array]
  show wp (if pushed.length ≤ idx then _ else _) _ m
  by_cases hidx : pushed.length ≤ idx
  · rw [if_pos hidx, List.getElem?_eq_none hidx]
    exact wp_pure.mpr ⟨rfl, rfl⟩
  · rw [if_neg hidx, wp_bind, wp_cells h.store, List.getElem?_eq_getElem (Nat.lt_of_not_le hidx)]
    exact wp_pure.mpr ⟨rfl, rfl⟩

/-! ## Runs -/

/-- `m'` differs from `m` elsewhere than in the array at `arr` and its store. -/
def Elsewhere (arr : Addr) (m m' : Mem F) : Prop :=
  ∀ items len cap, m.heap.get arr = some (.array items len cap) →
    m'.heap.get arr = m.heap.get arr ∧ m'.heap.get items = m.heap.get items

def CapBelow (n : Nat) (m : Mem F) (arr : Addr) : Prop :=
  ∀ items len cap, m.heap.get arr = some (.array items len cap) → cap < n

/-- The calls of `var_push` on the array that `var_array` returned, each item with the answer to it, and the memory
    then. -/
inductive Pushes (sys : Sys F) (arr : Addr) : List (Option Addr × Int) → Mem F → Prop
  | create {m m' : Mem F} : varArray sys m = some (some arr, m') → Pushes sys arr [] m'
  | push {calls : List (Option Addr × Int)} {m m' : Mem F} {item : Option Addr} {rc : Int} : Pushes sys arr calls m →
      varPush64 sys (some arr) item m = some (rc, m') → CapBelow (2 ^ 60) m' arr →
        Pushes sys arr (calls ++ [(item, rc)]) m'
  | elsewhere {calls : List (Option Addr × Int)} {m m' : Mem F} : Pushes sys arr calls m → Elsewhere arr m m' →
      Pushes sys arr calls m'

/-- The items whose push succeeded. -/
def stored (calls : List (Option Addr × Int)) : List (Option Addr) := (calls.filter fun c => c.2 = 0).map Prod.fst

theorem stored_snoc (calls : List (Option Addr × Int)) (item : Option Addr) (rc : Int) :
    stored (calls ++ [(item, rc)]) = if rc = 0 then stored calls ++ [item] else stored calls := by
  by_cases h : rc = 0 <;> simp [stored, h]

/-- The invariant of a run. -/
theorem Pushes.arrayAt {calls : List (Option Addr × Int)} (h : Pushes sys arr calls m) :
    ∃ items cap, ArrayAt m arr items cap (stored calls) ∧ cap < 2 ^ 60 := by
  induction h with
  | create hnew =>
    obtain ⟨items, hholds⟩ := varArray_arrayAt hnew
    exact ⟨items, _, hholds, by decide⟩
  | push _ hpush hbelow ih =>
    obtain ⟨items, cap, hholds, hcap⟩ := ih
    rw [stored_snoc]
    rcases (wp_run hpush).mp (varPush64_spec hholds hcap _) with ⟨rfl, -, -, rfl⟩ | ⟨rfl, -, items', cap', hholds'⟩
    · exact ⟨items, cap, ⟨hholds.array, hholds.store, hholds.within, hholds.doubled⟩, hcap⟩
    · exact ⟨items', cap', hholds', hbelow _ _ _ hholds'.array⟩
  | elsewhere _ helse ih =>
    obtain ⟨items, cap, hholds, hcap⟩ := ih
    obtain ⟨harr, hstore⟩ := helse _ _ _ hholds.array
    exact ⟨items, cap, ⟨harr.trans hholds.array, hstore.trans hholds.store, hholds.within, hholds.doubled⟩, hcap⟩

/-- A negative `int64_t` is past every index. -/
theorem u64OfInt_neg {i : Int} (h : -2 ^ 63 ≤ i) (h' : i < 0) : 2 ^ 63 ≤ u64OfInt i := by
  unfold u64OfInt
  omega

/-- An array refines the list of the items whose push succeeded, over any run of pushes. -/
theorem array_pushes {calls : List (Option Addr × Int)} (h : Pushes sys arr calls m) :
    (∃ items cap, m.heap.get arr = some (.array items (stored calls).length cap) ∧ (stored calls).length ≤ cap ∧
      (∃ k, cap = 8 * 2 ^ k) ∧
      ∀ item, ∃ rc m', varPush64 sys (some arr) item m = some (rc, m') ∧ (rc = 0 ∨ rc = -1) ∧
        (rc = -1 ↔ (stored calls).length = cap ∧ sys.mallocOk m.mallocs = false) ∧ (rc = -1 → m'.heap = m.heap)) ∧
    varLen (some arr) m = some ((stored calls).length, m) ∧
    (∀ i (hi : i < (stored calls).length), varGet (some arr) i m = some ((stored calls)[i], m)) ∧
    (∀ i, (stored calls).length ≤ i → varGet (some arr) i m = some (none, m)) ∧
    ∀ i : Int, -2 ^ 63 ≤ i → i < 0 → varGet (some arr) (u64OfInt i) m = some (none, m) := by
  obtain ⟨items, cap, hholds, hcap⟩ := h.arrayAt
  have hpast : ∀ i, (stored calls).length ≤ i → varGet (some arr) i m = some (none, m) := by
    intro i hi
    rw [varGet_arrayAt hholds, List.getElem?_eq_none hi]
    rfl
  refine ⟨⟨items, cap, hholds.array, hholds.within, hholds.doubled, fun item => ?_⟩, varLen_arrayAt hholds,
    fun i hi => ?_, hpast,
    fun i hlow hneg => hpast _ ?_⟩
  · obtain ⟨⟨rc, m'⟩, hrun, hpushed⟩ := varPush64_spec hholds hcap item
    rcases hpushed with ⟨rfl, hfull, hfail, rfl⟩ | ⟨rfl, hok, -⟩
    · exact ⟨-1, _, hrun, .inr rfl, ⟨fun _ => ⟨hfull, hfail⟩, fun _ => rfl⟩, fun _ => rfl⟩
    · refine ⟨0, m', hrun, .inl rfl, ⟨fun hrc => absurd hrc (by decide), fun hfull => ?_⟩,
        fun hrc => absurd hrc (by decide)⟩
      cases (hok hfull.1).symm.trans hfull.2
  · rw [varGet_arrayAt hholds, List.getElem?_eq_getElem hi]
    rfl
  · have hneg' := u64OfInt_neg hlow hneg
    have hwithin := hholds.within
    omega

/-- A program whose third allocation fails, and its memory with an array of `k` NULLs. -/
def twoAllocs : Sys Unit := ⟨fun _ => (), fun _ => [], fun _ => 0, fun n => n < 2, fun _ => none⟩

def nullsMem (k : Nat) : Mem Unit :=
  ⟨[some (.array 1 k 8), some (.ptrs 8 (List.replicate k none))], 2, ⟨[], 0, 0⟩, [], [], []⟩

theorem nullsMem_pushes {k : Nat} (hk : k ≤ 8) : Pushes twoAllocs 0 (List.replicate k (none, 0)) (nullsMem k) := by
  induction k with
  | zero => exact .create (m := ⟨[], 0, ⟨[], 0, 0⟩, [], [], []⟩) rfl
  | succ k ih =>
    have hpush : varPush64 twoAllocs (some 0) none (nullsMem k) = some (0, nullsMem (k + 1)) := by
      have hlt : k < 8 := hk
      interval_cases k <;> rfl
    have hbelow : CapBelow (2 ^ 60) (nullsMem (k + 1)) 0 := by
      intro items len cap harr
      cases harr
      decide
    rw [List.replicate_succ']
    exact .push (ih (Nat.le_of_succ_le hk)) hpush hbelow

theorem array_pushes_full : ∃ m, Pushes twoAllocs 0 (List.replicate 8 (none, 0) ++ [(some 1, -1)]) m ∧
    varLen (some 0) m = some (8, m) ∧ varGet (some 0) 7 m = some (none, m) ∧
    ∃ rc m', varPush64 twoAllocs (some 0) (some 1) m = some (rc, m') ∧ (rc = -1 → m'.heap = m.heap) := by
  have hrun : Pushes twoAllocs 0 (List.replicate 8 (none, 0) ++ [(some 1, -1)]) (nullsMem 8).failed := by
    refine .push (nullsMem_pushes (Nat.le_refl 8)) rfl fun items len cap harr => ?_
    cases harr
    decide
  obtain ⟨⟨items, cap, -, -, -, hnext⟩, hlen, hget, -, -⟩ := array_pushes hrun
  obtain ⟨rc, m', hpush, -, -, hsame⟩ := hnext (some 1)
  exact ⟨_, hrun, hlen, hget 7 (by decide), rc, m', hpush, hsame⟩

end KanekFoundations.Cfg

/-
  KanekFoundations.Cfg.Denote — the values in memory as the values they stand for.

  `Denotes g a v`: the block at `a` holds `v`, with its string or its items. `Represents`
  relates the variables of a memory to an environment.

  Proved:
  - values stay what they are when the part of the heap grows;
  - the texts and the items of a block are those of its value.
-/

import KanekFoundations.Cfg.Graph
import KanekFoundations.Cfg.Syntax

namespace KanekFoundations.Cfg

open KanekFoundations.Lib

variable {F : Type} {sys : Sys F} {g g' : SubHeap (Block F)} {m m' : Mem F} {a : Addr} {v : Val} {env : Env}

mutual

/-- An index is an `int64_t`, so arrays are shorter than that. -/
inductive Denotes (g : SubHeap (Block F)) : Addr → Val → Prop
  | null {a : Addr} : g a = some .null → Denotes g a .null
  | int {a : Addr} {i : Int} : g a = some (.int i) → Denotes g a (.int i)
  | bool {a : Addr} {b : Bool} : g a = some (.bool b) → Denotes g a (.bool b)
  | str {a c : Addr} {cap : Nat} {text : List Byte} :
    g a = some (.str (some c)) → g c = some (.chars cap text) → Denotes g a (.str text)
  | array {a items : Addr} {cap : Nat} {written : List (Option Addr)} {vals : List Val} :
    g a = some (.array items written.length cap) → g items = some (.ptrs cap written) → written.length < 2 ^ 63 →
      DenotesAll g written vals → Denotes g a (.array vals)

inductive DenotesAll (g : SubHeap (Block F)) : List (Option Addr) → List Val → Prop
  | nil : DenotesAll g [] []
  | cons {a : Addr} {v : Val} {written : List (Option Addr)} {vals : List Val} :
    Denotes g a v → DenotesAll g written vals → DenotesAll g (some a :: written) (v :: vals)

end

mutual

theorem Denotes.mono (hs : Sub g g') : ∀ {a v}, Denotes g a v → Denotes g' a v
  | _, _, .null h => .null (hs _ _ h)
  | _, _, .int h => .int (hs _ _ h)
  | _, _, .bool h => .bool (hs _ _ h)
  | _, _, .str h hc => .str (hs _ _ h) (hs _ _ hc)
  | _, _, .array h hi hlen hall => .array (hs _ _ h) (hs _ _ hi) hlen (DenotesAll.mono hs hall)

theorem DenotesAll.mono (hs : Sub g g') : ∀ {written vals}, DenotesAll g written vals → DenotesAll g' written vals
  | _, _, .nil => .nil
  | _, _, .cons h hall => .cons (Denotes.mono hs h) (DenotesAll.mono hs hall)

end

theorem Denotes.isVar (h : Denotes g a v) : IsVar g a := by
  cases h with
  | null h | int h | bool h | str h | array h => exact ⟨_, h, rfl⟩

/-- `var_to_str` gives the text of the value. -/
theorem Denotes.text (h : Denotes g a v) : valText sys g (some a) = v.text := by
  unfold valText
  rw [Option.bind_some]
  cases h with
  | null h | int h | bool h | array h => rw [h]; rfl
  | str h hc =>
    rw [h]
    simp only [Block.text, hc]
    rfl

theorem DenotesAll.snoc {written : List (Option Addr)} {vals : List Val} (h : DenotesAll g written vals)
    (hv : Denotes g a v) :
    DenotesAll g (written ++ [some a]) (vals ++ [v]) := by
  induction written generalizing vals with
  | nil =>
    cases h with
    | nil => exact .cons hv .nil
  | cons _ _ ih =>
    cases h with
    | cons h hall => exact .cons h (ih hall)

theorem DenotesAll.length {written : List (Option Addr)} {vals : List Val} (h : DenotesAll g written vals) :
    written.length = vals.length := by
  induction written generalizing vals with
  | nil =>
    cases h with
    | nil => rfl
  | cons _ _ ih =>
    cases h with
    | cons _ hall => rw [List.length_cons, List.length_cons, ih hall]

theorem DenotesAll.get {written : List (Option Addr)} {vals : List Val} (h : DenotesAll g written vals) {n : Nat}
    (hv : vals[n]? = some v) : ∃ a, written[n]? = some (some a) ∧ Denotes g a v := by
  induction written generalizing vals n with
  | nil =>
    cases h with
    | nil => cases hv
  | cons _ _ ih =>
    cases h with
    | cons h hall =>
      cases n with
      | zero =>
        cases hv
        exact ⟨_, rfl, h⟩
      | succ n => exact ih hall hv

theorem clampI64_index (n : Nat) : u64OfInt (clampI64 n) = min n (2 ^ 63 - 1) := by
  unfold clampI64 u64OfInt
  omega

/-- An index too large for an `int64_t` is out of range all the same. -/
theorem Denotes.item (h : Denotes g a v) (n : Nat) {b : Block F} (hb : g a = some b) :
    (∃ a', b.item g (u64OfInt (clampI64 n)) = some a' ∧ Denotes g a' (v.item n)) ∨
      (b.item g (u64OfInt (clampI64 n)) = none ∧ v.item n = .null) := by
  cases h with
  | null h | int h | bool h | str h =>
    rw [h] at hb
    cases hb
    exact .inr ⟨rfl, rfl⟩
  | @array _ items cap written vals h hi hlen hall =>
    rw [h] at hb
    cases hb
    rw [Block.item_array hi, clampI64_index]
    have hsize := hall.length
    have hval : (Val.array vals).item n = vals[n]?.getD .null := rfl
    cases hv : vals[n]? with
    | some v =>
      obtain ⟨a', hget, hden⟩ := hall.get hv
      have hn := (List.getElem?_eq_some_iff.mp hget).1
      rw [Nat.min_eq_left (by omega), hget, hval, hv]
      exact .inl ⟨a', rfl, hden⟩
    | none =>
      have hn := List.getElem?_eq_none_iff.mp hv
      rw [List.getElem?_eq_none (by omega), hval, hv]
      exact .inr ⟨rfl, rfl⟩

/-! ## Environments -/

/-- The variables are those of the environment, and no others. -/
structure Represents (sys : Sys F) (g : SubHeap (Block F)) (m : Mem F) (env : Env) : Prop where
  safe : Safe sys g m
  vars : ∀ k, Option.Rel (Denotes g) (m.vars.dictGet sys.xxh32 (some k)) (env k)

theorem Represents.extend (h : Represents sys g m env) (hext : Extends g m g' m') : Represents sys g' m' env := by
  refine ⟨h.safe.extend hext, fun k => ?_⟩
  have hk := h.vars k
  rw [hext.vars]
  generalize m.vars.dictGet sys.xxh32 (some k) = r, env k = x at hk
  cases hk with
  | some hv => exact .some (hv.mono hext.grows.sub)
  | none => exact .none

theorem Represents.report (h : Represents sys g m env) (trace : List Report) :
    Represents sys g { m with trace := trace } env :=
  ⟨h.safe.report trace, h.vars⟩

theorem Represents.print (h : Represents sys g m env) (hp : Prints m m') : Represents sys g m' env := by
  obtain ⟨s, rfl⟩ := hp
  exact ⟨h.safe.print ⟨s, rfl⟩, h.vars⟩

/-- A variable of the program, or none of either. -/
theorem Represents.lookup (h : Represents sys g m env) (k : List Byte) :
    (∃ a v, m.vars.dictGet sys.xxh32 (some k) = some a ∧ env k = some v ∧ Denotes g a v) ∨
      (m.vars.dictGet sys.xxh32 (some k) = none ∧ env k = none) := by
  have hk := h.vars k
  generalize m.vars.dictGet sys.xxh32 (some k) = r, env k = x at hk
  cases hk with
  | some hv => exact .inl ⟨_, _, rfl, rfl, hv⟩
  | none => exact .inr ⟨rfl, rfl⟩

/-- A variable is bound to a value. -/
theorem Represents.set (h : Represents sys g m env) (hs : Sub g g') (hsafe : Safe sys g' m') {key : List Byte}
    {val : Option Addr}
    (hval : ∃ a, val = some a ∧ Denotes g' a v)
    (hget : ∀ k, m'.vars.dictGet sys.xxh32 (some k) = if k = key then val else m.vars.dictGet sys.xxh32 (some k)) :
    Represents sys g' m' (env.set key v) := by
  refine ⟨hsafe, fun k => ?_⟩
  obtain ⟨a, rfl, hden⟩ := hval
  rw [hget]
  unfold Env.set
  by_cases hk : k = key
  · rw [if_pos hk, if_pos hk]
    exact .some hden
  · rw [if_neg hk, if_neg hk]
    have hold := h.vars k
    generalize m.vars.dictGet sys.xxh32 (some k) = r, env k = x at hold
    cases hold with
    | some hv => exact .some (hv.mono hs)
    | none => exact .none

end KanekFoundations.Cfg

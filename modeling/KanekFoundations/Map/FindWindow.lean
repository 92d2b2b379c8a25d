/-
  KanekFoundations.Map.FindWindow — `bm_find` on a gap that is an `int`, for a window anywhere
  below 2^64.

  Proved: the call answers the first gap of the window (`FindExact`), except where the gap it
  comes to is the last one below 2^64. The end of that gap wraps to 0, which is not past the
  window (`bm_find_window_iff`).
-/

import KanekFoundations.Map.CountExact
import KanekFoundations.Map.FindProofs

namespace KanekFoundations.Map

open KanekFoundations.Lib

/-- The addresses of the gaps of `gap` zeros in `[lo, hi)`. -/
def gaps (bm : Mem) (gap lo hi : Nat) : Set Nat := {x | lo ≤ x ∧ x + gap ≤ hi ∧ Run (bitAt bm) false x gap}

/-- The call ends, reads bytes of the window only, and answers its first gap if there is one. -/
def FindExact (bm : Mem) (totalBits a count gap : Nat) : Prop :=
  ∃ out, bmFind bm totalBits a count gap = some out ∧
    (∀ i ∈ out.reads, HoldsBit a (windowEnd totalBits a count - a) i) ∧ out.rc ≠ -2 ∧
    (out.rc = 0 ↔ (gaps bm gap a (windowEnd totalBits a count)).Nonempty) ∧
    (out.rc = 0 → IsLeast (gaps bm gap a (windowEnd totalBits a count)) out.foundAddress) ∧
    (out.rc ≠ 0 → out.rc = -1 ∧ out.foundAddress = 0)

/-- The first gap from `lo` on ends at 2^64, in the last byte, and the search gets to that byte. -/
def WrapsAtTop (bm : Mem) (gap lo windowEnd : Nat) : Prop :=
  gap ≤ 8 ∧ FirstFrom (bitAt bm) false gap lo (2 ^ 64 - gap) ∧ Reaches bm gap lo windowEnd lo (2 ^ 64 - 8)

section
variable {bm : Mem} {n gap lo start windowEnd : Nat}

/-- Where everything up to `c` is blocked and no gap from `c` fits the window, no byte behind `c` is reached. -/
theorem not_reaches {c b : Nat} (hb : Blocked (bitAt bm) false n start c) (hout : windowEnd < c + gap) (hc : c ≤ b)
    (hlo : lo < b) :
    ¬ Reaches bm gap lo windowEnd start b := by
  intro h
  rcases h with h | ⟨hfit, hrun⟩
  · omega
  · -- The zeros before the byte would start before `c`, where a bit is set.
    obtain ⟨j, hj1, hj2, _, hset⟩ := hb (windowEnd - gap) (by omega) (by omega)
    exact hset (hrun j hj1 (by omega))

/-- An answer outside the window is the one that wraps. -/
theorem FindEnd.wrapsAtTop_iff {out : FindOut} (h : FindEnd bm gap gap lo windowEnd lo out) (h0 : 0 < gap)
    (hw : windowEnd < 2 ^ 64) :
    WrapsAtTop bm gap lo windowEnd ↔ out.rc = 0 ∧ windowEnd < out.foundAddress + gap := by
  cases h with
  | inByte a reads hfirst h8 hbyte hreach hin =>
    constructor
    · intro htop
      have heq := hfirst.unique htop.2.1
      exact ⟨rfl, by show windowEnd < a + gap; omega⟩
    · intro hout
      have hout' : windowEnd < a + gap := hout.2
      -- The end did not stay below 2^64, and it is in the byte of `a`.
      have hend : a + gap = 2 ^ 64 := by
        by_contra hne
        rw [u64_of_lt (by omega)] at hin
        omega
      have ha : 2 ^ 64 - gap = a := by omega
      have hlast : a / 8 * 8 = 2 ^ 64 - 8 := by omega
      rw [hlast] at hreach
      exact ⟨by omega, ha ▸ hfirst, hreach⟩
  | across a reads _ hfirst hle =>
    refine iff_of_false (fun htop => ?_) fun h => Nat.not_lt.mpr hle h.2
    have heq := hfirst.unique htop.2.1
    have h8 := htop.1
    omega
  | spills a reads hfirst h8 _ hout =>
    refine iff_of_false (fun htop => ?_) fun h => absurd h.1 (by simp)
    have heq := hfirst.unique htop.2.1
    have hle := htop.1
    have hend : a + gap = 2 ^ 64 := by omega
    rw [hend] at hout
    exact Nat.not_lt_zero _ hout
  | stops a reads _ hb hout hbehind =>
    refine iff_of_false (fun htop => ?_) fun h => absurd h.1 (by simp)
    obtain ⟨h8, hfirst, hreach⟩ := htop
    obtain ⟨hge, hlo⟩ := hbehind _ (hfirst.after hb) (by omega)
    have hlast : (2 ^ 64 - gap) / 8 * 8 = 2 ^ 64 - 8 := by omega
    rw [hlast] at hge hlo
    exact not_reaches hb hout hge hlo hreach

theorem Answers.first {out : FindOut} (h : Answers bm gap lo windowEnd out) :
    (out.rc = 0 ↔ (gaps bm gap lo windowEnd).Nonempty) ∧
    (out.rc = 0 → IsLeast (gaps bm gap lo windowEnd) out.foundAddress) ∧
      (out.rc ≠ 0 → out.rc = -1 ∧ out.foundAddress = 0) := by
  rcases h with ⟨hrc, hfirst⟩ | ⟨hrc, hfound, hno⟩
  · have hmem : out.foundAddress ∈ gaps bm gap lo windowEnd := ⟨hfirst.ge, hfirst.le, hfirst.run⟩
    refine ⟨iff_of_true hrc ⟨_, hmem⟩, fun _ => ⟨hmem, ?_⟩, fun hne => absurd hrc hne⟩
    intro x hx
    by_contra hlt
    exact hfirst.first x hx.1 (by omega) hx.2.2
  · have hne : out.rc ≠ 0 := by rw [hrc]; decide
    refine ⟨iff_of_false hne ?_, fun h => absurd h hne, fun _ => ⟨hrc, hfound⟩⟩
    intro hsome
    obtain ⟨x, h1, h2, hrun⟩ := hsome
    exact hno x h1 h2 hrun

end

/-- `bm_find` answers the first gap of the window unless it comes to the last gap below 2^64. -/
theorem bm_find_window_iff (bm : Mem) {totalBits a count gap : Nat} (ht : totalBits < 2 ^ 64) (ha : a < totalBits)
    (hac : a + count < 2 ^ 64) (h0 : 0 < gap) (hc : gap ≤ count) (hgap : gap < 2 ^ 31) :
    FindExact bm totalBits a count gap ↔ ¬ WrapsAtTop bm gap a (windowEnd totalBits a count) := by
  have hw : windowEnd totalBits a count < 2 ^ 64 := by unfold windowEnd; omega
  have hmore : a < windowEnd totalBits a count := by unfold windowEnd; omega
  obtain ⟨out, start, hout, hreads, hover, hend⟩ :=
    bmFind_end bm hgap h0 (Nat.zero_mod _) (Nat.add_zero gap) ht hac ha hc
  obtain rfl : start = a := startsOver_none rfl hover
  rw [hend.wrapsAtTop_iff h0 hw]
  constructor
  · intro hexact hoff
    obtain ⟨out', hout', -, -, -, hleast, -⟩ := hexact
    rw [hout] at hout'
    rw [← Option.some.inj hout'] at hleast
    have hle := (hleast hoff.1).1.2.1
    exact Nat.not_lt.mpr hle hoff.2
  · intro hin
    have hans := hend.inside hin
    refine ⟨out, hout, fun i hi => ?_, ?_, hans.first⟩
    · obtain ⟨h1, h2⟩ := hreads i hi
      exact holdsBit_of_bounds (by omega) h1 (by omega)
    · rcases hans with ⟨hrc, -⟩ | ⟨hrc, -, -⟩ <;> rw [hrc] <;> decide

/-- Five zeros are looked for in ten bits of a map of twenty. -/
theorem bm_find_window_iff_ten : FindExact (fun _ => 0xf1) 20 3 10 5 ↔
    ¬ WrapsAtTop (fun _ => 0xf1) 5 3 (windowEnd 20 3 10) :=
  bm_find_window_iff (fun _ => 0xf1) (by decide) (by decide) (by decide) (by decide) (by decide) (by decide)

/-- Of the seven bits from 2^64 - 8 all are set, and the eighth, past the end of the map, is found. -/
theorem bm_find_past_end :
    bmFind (fun _ => 0x7f) (2 ^ 64 - 1) (2 ^ 64 - 8) 7 1 = some ⟨0, 2 ^ 64 - 1, [2 ^ 61 - 1]⟩ ∧
      windowEnd (2 ^ 64 - 1) (2 ^ 64 - 8) 7 = 2 ^ 64 - 1 ∧ ¬ FindExact (fun _ => 0x7f) (2 ^ 64 - 1)
        (2 ^ 64 - 8) 7 1 := by
  have hfind : bmFind (fun _ => 0x7f) (2 ^ 64 - 1) (2 ^ 64 - 8) 7 1 = some ⟨0, 2 ^ 64 - 1, [2 ^ 61 - 1]⟩ := by decide
  refine ⟨hfind, by decide, fun h => ?_⟩
  obtain ⟨out, hout, -, -, -, hleast, -⟩ := h
  rw [hfind] at hout
  rw [← Option.some.inj hout] at hleast
  exact absurd (hleast rfl).1.2.1 (by decide)

end KanekFoundations.Map

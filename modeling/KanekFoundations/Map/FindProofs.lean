/-
  KanekFoundations.Map.FindProofs — the search loop of `bm_find`.

  `byte_find_gap` takes an `int`: of a gap of `n + q` zeros, with `q` a multiple of 2^32, it sees `n`.
  The search for the gap is the search for `n` zeros with `q` more on its account (`FindSt.raise`), up to
  where the `n` zeros are found. For `q = 0` they are the gap. Otherwise they are reported as the gap
  when they lie in one byte, and when they do not the search starts over behind them (`StartsOver`).

  A round that carries a candidate knows that everything before the candidate is blocked and that
  the zeros from it reach the scan (`FindCand`). What the scan of a byte can say then is `Scanned`: a
  stale candidate is blocked by the set bit that interrupts it, and the second scan of the byte
  resumes from there.

  Proved: how the loop ends (`findLoop_end`), which bytes it reads (`bmFind_reads`), and that in a map
  below 2^31 bits it answers the first gap of the window, or that there is none (`bmFind_spec`).
-/

import KanekFoundations.Map.CountProofs

namespace KanekFoundations.Map

open KanekFoundations.Lib

def FindSt.pos (s : FindSt) : Nat := s.loc * 8 + s.aligned

/-- Byte `i` lies in the window. -/
def InWindow (lo windowEnd i : Nat) : Prop := lo / 8 ≤ i ∧ i * 8 < windowEnd

/-- The scan stands inside a window that ends at `windowEnd`. -/
structure FindPos (lo windowEnd : Nat) (s : FindSt) : Prop where
  aligned : s.aligned < 8
  ge : lo ≤ s.pos
  left : s.pos + s.count = windowEnd
  more : 0 < s.count
  reads : ∀ i ∈ s.reads, InWindow lo windowEnd i

theorem FindPos.read {lo windowEnd : Nat} {s : FindSt} (h : FindPos lo windowEnd s) :
    ∀ i ∈ s.reads ++ [s.loc], InWindow lo windowEnd i := by
  have hal := h.aligned
  have hge := h.ge
  have hleft := h.left
  have hmore := h.more
  unfold FindSt.pos at hge hleft
  intro i hi
  rcases List.mem_append.mp hi with hi | hi
  · exact h.reads i hi
  · rw [List.mem_singleton.mp hi]
    exact ⟨by omega, by omega⟩

/-- The next byte, while some of the window is left. -/
theorem FindPos.next {lo windowEnd : Nat} {s : FindSt} (h : FindPos lo windowEnd s) {gapLeft found count : Nat}
    {pending : Bool} (hc : count = if s.count < 8 - s.aligned then 0 else s.count - (8 - s.aligned)) (h0 : count ≠ 0) :
    FindPos lo windowEnd ⟨s.loc + 1, 0, gapLeft, pending, found, count, s.reads ++ [s.loc]⟩ := by
  have hge := h.ge
  have hleft := h.left
  have hal := h.aligned
  unfold FindSt.pos at hge hleft
  split at hc
  · exact absurd hc h0
  · refine ⟨Nat.zero_lt_succ 7, ?_, ?_, Nat.pos_of_ne_zero h0, h.read⟩
    · show lo ≤ (s.loc + 1) * 8 + 0
      omega
    · show (s.loc + 1) * 8 + 0 + count = windowEnd
      omega

theorem findScan_fresh (byte : Byte) (gapSize aligned gapLeft : Nat) :
    findScan byte gapSize aligned gapLeft false =
      ((byteFindGap aligned (i32 gapLeft) byte).1, (byteFindGap aligned (i32 gapLeft) byte).2, gapLeft, false) := by
  unfold findScan
  generalize i32 (gapLeft : Int) = bits
  generalize i32 (gapSize : Int) = whole
  simp only [Bool.false_eq_true, false_and, if_false]

/-! ## The first gap -/

section
variable {bm : Mem} {n gap lo start windowEnd q : Nat}

/-- What a round of the search for `n` zeros from `start` knows. -/
inductive FindCand (bm : Mem) (n start : Nat) (s : FindSt) : Prop
  | fresh : s.pending = false → s.gapLeft = n → start ≤ s.pos → Blocked (bitAt bm) false n start s.pos →
    FindCand bm n start s
  | pending (m : Nat) : s.pending = true → s.aligned = 0 → s.foundAddress + m = s.loc * 8 → 0 < m → m + s.gapLeft = n →
      0 < s.gapLeft → start ≤ s.foundAddress → Run (bitAt bm) false s.foundAddress m →
      Blocked (bitAt bm) false n start s.foundAddress → FindCand bm n start s
  -- The `n` zeros were found across bytes and were not the gap: this byte is given up.
  | spent : s.pending = true → s.gapLeft = 0 → start = (s.loc + 1) * 8 → FindCand bm n start s

/-- What scanning the byte of a round can find. -/
inductive Scanned (bm : Mem) (n start : Nat) (s : FindSt) : Int × Nat × Nat × Bool → Prop
  | gap (j : Nat) : FirstFrom (bitAt bm) false n start (s.loc * 8 + j) → j + n ≤ 8 →
    Scanned bm n start s (j, n, n, false)
  | tail (j k : Nat) : start ≤ s.loc * 8 + j → j + k = 8 → 0 < k → k < n → Run (bitAt bm) false (s.loc * 8 + j) k →
      Blocked (bitAt bm) false n start (s.loc * 8 + j) → Scanned bm n start s (-2, k, n, false)
  | nothing (gapLeft : Nat) (pending : Bool) : start ≤ (s.loc + 1) * 8 →
    Blocked (bitAt bm) false n start ((s.loc + 1) * 8) →
      Scanned bm n start s (-1, 0, gapLeft, pending)
  | closes (m : Nat) : s.pending = true → s.foundAddress + m = s.loc * 8 → 0 < m → m + s.gapLeft = n → 0 < s.gapLeft →
      s.gapLeft ≤ 8 → FirstFrom (bitAt bm) false n start s.foundAddress →
        Scanned bm n start s (0, s.gapLeft, s.gapLeft, true)
  | goesOn (m : Nat) : s.pending = true → s.foundAddress + m = s.loc * 8 → m + s.gapLeft = n → 8 < s.gapLeft →
      start ≤ s.foundAddress → Run (bitAt bm) false s.foundAddress (m + 8) →
      Blocked (bitAt bm) false n start s.foundAddress → Scanned bm n start s (-2, 8, s.gapLeft, true)

theorem Blocked.byte {bm : Mem} {loc n j k : Nat} (h : Blocked (bm loc).getLsbD false n j k) (h8 : k ≤ 8) :
    Blocked (bitAt bm) false n (loc * 8 + j) (loc * 8 + k) :=
  h.shift fun _ hi => bitAt_byte bm loc (by omega)

/-- A search that starts at bit `aligned` of the byte, with `[start, ·)` blocked as soon as
    the part from there on is. -/
theorem scanned_of_scan {s : FindSt} {r : Int × Nat} (h : GapScan (bm s.loc).getLsbD n s.aligned r)
    (hal : s.aligned < 8) (hge : start ≤ s.pos)
    (hres : ∀ j, s.aligned ≤ j → j ≤ 8 → Run (bitAt bm) false (s.loc * 8 + j) (min n (8 - j)) →
      Blocked (bitAt bm) false n s.pos (s.loc * 8 + j) → Blocked (bitAt bm) false n start (s.loc * 8 + j)) :
    Scanned bm n start s (r.1, r.2, n, false) := by
  unfold FindSt.pos at hge
  cases h with
  | fits j hj h8 hrun hb =>
    have hrun := Run.byte hrun h8
    exact .gap j ⟨by omega, hrun, hres j hj (by omega) (by rwa [Nat.min_eq_left (by omega)])
      (Blocked.byte hb (by omega))⟩ h8
  | none hb =>
    have hblk := hres 8 (by omega) (Nat.le_refl _) (by rw [Nat.sub_self, Nat.min_zero]; exact Run.zero)
      (Blocked.byte hb (Nat.le_refl _))
    refine .nothing n false (by omega) ?_
    rwa [Nat.add_one_mul]
  | partial_ k h0 hk h8 hrun hb =>
    have hrun := Run.byte hrun (by omega)
    refine .tail (8 - k) k (by omega) (by omega) h0 hk hrun
      (hres (8 - k) (by omega) (by omega) ?_ (Blocked.byte hb (by omega)))
    rwa [show min n (8 - (8 - k)) = k by omega]

/-- A set bit at `q` interrupts a candidate before it is long enough: no start up to `q`
    is the start of a gap, and the second scan resumes after it. -/
theorem scanned_of_rescan {s : FindSt} {a q : Nat} {r : Int × Nat} (h : GapScan (bm s.loc).getLsbD n 0 r)
    (hal : s.aligned = 0) (hge : start ≤ a) (hb : Blocked (bitAt bm) false n start a) (ha : a ≤ s.loc * 8) (hq : q < 8)
    (hset : (bm s.loc).getLsbD q ≠ false) (hqa : s.loc * 8 + q < a + n) :
      Scanned bm n start s (r.1, r.2, n, false) := by
  have hset' : bitAt bm (s.loc * 8 + q) ≠ false := by rwa [bitAt_byte bm s.loc hq]
  have hpast := hb.past (j := s.loc * 8 + q) (by omega) hqa hset'
  refine scanned_of_scan (hal ▸ h) (by omega) (by unfold FindSt.pos; omega) fun j _ hj hrun hblk => ?_
  have hqj : q < j := by
    rcases Nat.lt_or_ge q j with h | h
    · exact h
    · exact absurd (hrun (s.loc * 8 + q) (by omega) (by omega)) hset'
  refine hpast.append (hblk.from ?_) (by omega)
  unfold FindSt.pos
  omega

theorem findScan_scanned {s : FindSt} (hn : n < 2 ^ 31) (h0 : 0 < n) (hal : s.aligned < 8) (h : FindCand bm n start s) :
    Scanned bm n start s (findScan (bm s.loc) n s.aligned s.gapLeft s.pending) := by
  have hbits : i32 n = n := i32_of_lt (by omega) (by omega)
  cases h with
  | fresh hp hg hge hb =>
    have hscan := byteFindGap_scan (bm s.loc) h0 hal
    rw [hp, hg, findScan_fresh, hbits]
    exact scanned_of_scan hscan hal hge fun j hj _ _ hblk => hb.append hblk (by unfold FindSt.pos; omega)
  | pending m hp hal0 hm hm0 hg hpos hge hrun hb =>
    have hleft : i32 s.gapLeft = s.gapLeft := i32_of_lt (by omega) (by omega)
    have hscan := byteFindGap_scan (bm s.loc) hpos (show 0 < 8 by decide)
    have hrescan := byteFindGap_scan (bm s.loc) h0 (show 0 < 8 by decide)
    rw [hp, findScan, hbits, hleft, hal0]
    generalize byteFindGap 0 n (bm s.loc) = r2 at hrescan
    -- A set bit before the first scan's answer makes the candidate stale.
    have hstale : ∀ j, 0 < j → Blocked (bm s.loc).getLsbD false s.gapLeft 0 j → j ≤ 8 →
        Scanned bm n start s (r2.1, r2.2, n, false) := by
      intro j hj hblk h8
      obtain ⟨q, _, hqj, hqg, hset⟩ := hblk 0 (Nat.le_refl _) hj
      exact scanned_of_rescan hrescan hal0 hge hb (by omega) (by omega) hset (by omega)
    generalize byteFindGap 0 s.gapLeft (bm s.loc) = r1 at hscan
    cases hscan with
    | fits j _ h8 hj hblk =>
      by_cases hj0 : j = 0
      · have hbyte := Run.byte hj (by omega)
        rw [hj0, Nat.add_zero, ← hm] at hbyte
        have hwhole := hrun.append hbyte
        rw [hg] at hwhole
        simp only [hj0, Int.natCast_zero, true_or, not_true_eq_false, and_false, if_false]
        exact .closes m hp hm hm0 hg hpos (by omega) ⟨hge, hwhole, hb⟩
      · have hstop : (j : Int) ≠ -1 ∧ ¬ ((j : Int) = 0 ∨ (j : Int) = -2 ∧ (s.gapLeft : Int) = 8 - (0 : Nat)) := by omega
        simp only [hstop, true_and, not_false_eq_true]
        exact hstale j (by omega) hblk (by omega)
    | none hblk =>
      obtain ⟨q, _, hq8, hqg, hset⟩ := hblk 0 (Nat.le_refl _) (by decide)
      have hset' : bitAt bm (s.loc * 8 + q) ≠ false := by rwa [bitAt_byte bm s.loc hq8]
      have hpast := hb.past (j := s.loc * 8 + q) (by omega) (by omega) hset'
      have hbyte := (Blocked.byte hblk (Nat.le_refl _)).mono (show s.gapLeft ≤ n by omega)
      simp only [ne_eq, not_true_eq_false, false_and, and_false, if_false]
      refine .nothing s.gapLeft true (by omega) ?_
      rw [Nat.add_one_mul]
      exact hpast.append (hbyte.from (by omega)) (by omega)
    | partial_ k hk hkn h8 hj hblk =>
      by_cases hk8 : k = 8
      · have hbyte := Run.byte hj (by omega)
        rw [hk8, Nat.sub_self, Nat.add_zero, ← hm] at hbyte
        have hstop : ((8 : Nat) : Int) = 8 - (0 : Nat) := rfl
        simp only [hk8, hstop, and_self, or_true, not_true_eq_false, and_false, if_false]
        exact .goesOn m hp hm hg (by omega) hge (hrun.append hbyte) hb
      · have hstop : ¬ ((k : Nat) : Int) = 8 - (0 : Nat) := by omega
        have hrc : (-2 : Int) ≠ -1 ∧ ¬ (-2 : Int) = 0 := by decide
        simp only [hstop, hrc, and_false, or_self, not_false_eq_true]
        exact hstale (8 - k) (by omega) hblk (by omega)
  | spent hp hg hst =>
    have hnone : byteFindGap s.aligned (i32 ((0 : Nat) : Int)) (bm s.loc) = (-1, 0) :=
      byteFindGap_nonpos _ _ (by decide)
    rw [hp, hg, findScan, hnone]
    simp only [ne_eq, not_true_eq_false, false_and, and_false, if_false]
    refine .nothing 0 true (Nat.le_of_eq hst) ?_
    rw [hst]
    exact Blocked.nil

/-! ## A round -/

/-- The same round of a search for `q` zeros more. -/
def FindSt.raise (s : FindSt) (q : Nat) : FindSt := { s with gapLeft := s.gapLeft + q }

/-- An `int` does not show a multiple of 2^32 on top. -/
theorem findScan_raise (byte : Byte) (n aligned gapLeft : Nat) (pending : Bool) (hq : q % 2 ^ 32 = 0) :
    ∃ rc bitCount left p, findScan byte n aligned gapLeft pending = (rc, bitCount, left, p) ∧
      findScan byte (n + q) aligned (gapLeft + q) pending = (rc, bitCount, left + q, p) := by
  have hwhole := i32_high n hq
  have hbits := i32_high gapLeft hq
  unfold findScan
  rw [hwhole, hbits]
  generalize byteFindGap aligned (i32 gapLeft) byte = r
  generalize byteFindGap aligned (i32 n) byte = r'
  by_cases hstop : pending = true ∧ r.1 ≠ -1 ∧ ¬ (r.1 = 0 ∨ r.1 = -2 ∧ (r.2 : Int) = 8 - aligned)
  · exact ⟨_, _, _, _, if_pos hstop, if_pos hstop⟩
  · exact ⟨_, _, _, _, if_neg hstop, if_neg hstop⟩

/-- Where the search starts over when the `n` zeros from `y` were found across bytes and were not
    the gap: the byte they end in and the one after it are passed. -/
def nextStart (n y : Nat) : Nat := ((y + n - 1) / 8 + 2) * 8

/-- The search for `n` zeros and `q` more starts over. -/
def StartsOver (bm : Mem) (n q start start' : Nat) : Prop :=
  q ≠ 0 ∧ ∃ y, FirstFrom (bitAt bm) false n start y ∧ 8 < y % 8 + n ∧ start' = nextStart n y

theorem startsOver_none {start' : Nat} (hq : q = 0) (h : Relation.ReflTransGen (StartsOver bm n q) start start') :
    start' = start := by
  induction h with
  | refl => rfl
  | tail _ h _ => exact absurd hq h.1

/-- The guards let the scan go on only while a gap that starts at it, or at the candidate, fits the window. -/
inductive FindRoom (gap lo windowEnd : Nat) (s : FindSt) : Prop
  | first : s.pending = false → s.loc * 8 ≤ lo → FindRoom gap lo windowEnd s
  | fresh : s.pending = false → s.aligned = 0 → s.pos + gap ≤ windowEnd → FindRoom gap lo windowEnd s
  | pending : s.pending = true → s.foundAddress + gap ≤ windowEnd → FindRoom gap lo windowEnd s

theorem FindRoom.found {s : FindSt} (h : FindRoom gap lo windowEnd s) (hp : s.pending = true) :
    s.foundAddress + gap ≤ windowEnd := by
  cases h with
  | first hp' => rw [hp] at hp'; cases hp'
  | fresh hp' => rw [hp] at hp'; cases hp'
  | pending _ h => exact h

/-- A search that starts over at `start` gets to the byte at bit `b`: it is the first byte of the call, or
    the zeros before it reach back to where a gap still fits the window. -/
def Reaches (bm : Mem) (gap lo windowEnd start b : Nat) : Prop :=
  b ≤ lo ∨ start + gap ≤ windowEnd ∧ Run (bitAt bm) false (windowEnd - gap) (b - (windowEnd - gap))

theorem FindCand.reaches {s : FindSt} (h : FindCand bm n start s) (hroom : FindRoom gap lo windowEnd s)
    (hlt : start < (s.loc + 1) * 8) : Reaches bm gap lo windowEnd start (s.loc * 8) := by
  cases h with
  | fresh hp _ hge _ =>
    unfold FindSt.pos at hge
    cases hroom with
    | first _ hlo => exact .inl hlo
    | fresh _ hal hfit =>
      unfold FindSt.pos at hfit
      exact .inr ⟨by omega, fun i h1 h2 => by omega⟩
    | pending hp' _ => rw [hp] at hp'; cases hp'
  | pending m hp _ hm _ _ _ hge hrun _ =>
    have hfit := hroom.found hp
    exact .inr ⟨by omega, fun i h1 h2 => hrun i (by omega) (by omega)⟩
  | spent _ _ hst => omega

/-- How a search for `gap` zeros ends that sees `n` of them. -/
inductive FindEnd (bm : Mem) (n gap lo windowEnd start : Nat) : FindOut → Prop
  | inByte (a : Nat) (reads : List Nat) : FirstFrom (bitAt bm) false n start a → a % 8 + n ≤ 8 → a / 8 * 8 < windowEnd →
      Reaches bm gap lo windowEnd start (a / 8 * 8) → u64 (a + gap) ≤ windowEnd →
        FindEnd bm n gap lo windowEnd start ⟨0, a, reads⟩
  | across (a : Nat) (reads : List Nat) : n = gap → FirstFrom (bitAt bm) false n start a → a + gap ≤ windowEnd →
      FindEnd bm n gap lo windowEnd start ⟨0, a, reads⟩
  | spills (a : Nat) (reads : List Nat) : FirstFrom (bitAt bm) false n start a → a % 8 + n ≤ 8 → a / 8 * 8 < windowEnd →
      windowEnd < u64 (a + gap) → FindEnd bm n gap lo windowEnd start ⟨-1, 0, reads⟩
  | stops (a : Nat) (reads : List Nat) : start ≤ a → Blocked (bitAt bm) false n start a → windowEnd < a + gap →
      (∀ x, a ≤ x → x % 8 + n ≤ 8 → a ≤ x / 8 * 8 ∧ lo < x / 8 * 8) → FindEnd bm n gap lo windowEnd start ⟨-1, 0, reads⟩

/-- What holds before a round of the search for `gap` zeros that sees `n` of them. -/
structure FindInv (bm : Mem) (n gap lo windowEnd start : Nat) (s : FindSt) : Prop where
  pos : FindPos lo windowEnd s
  cand : FindCand bm n start s
  room : FindRoom gap lo windowEnd s

/-- One round: the answer, or a state that knows as much of a shorter rest. -/
inductive Round (bm : Mem) (n q lo windowEnd start : Nat) (s : FindSt) : FindOut ⊕ FindSt → Prop
  | ends (out : FindOut) : out.reads = s.reads ++ [s.loc] → FindEnd bm n (n + q) lo windowEnd start out →
      Round bm n q lo windowEnd start s (.inl out)
  | goesOn (s' : FindSt) (start' : Nat) : FindInv bm n (n + q) lo windowEnd start' s' →
      (start' = start ∨ StartsOver bm n q start start') → s'.count + s'.aligned + 8 ≤ s.count + s.aligned →
      Round bm n q lo windowEnd start s (.inr (s'.raise q))

theorem findStep_round {s : FindSt} (hn : n < 2 ^ 31) (h0 : 0 < n) (hq : q % 2 ^ 32 = 0) (hw : windowEnd < 2 ^ 64)
    (h : FindInv bm n (n + q) lo windowEnd start s) :
    Round bm n q lo windowEnd start s (findStep bm (n + q) windowEnd (s.raise q)) := by
  obtain ⟨hp, hcand, hroom⟩ := h
  have hal := hp.aligned
  have hleft := hp.left
  have hge := hp.ge
  have hmore := hp.more
  have hreach := hcand.reaches hroom
  unfold FindSt.pos at hleft hge
  have hscan := findScan_scanned hn h0 hal hcand
  obtain ⟨rc, bitCount, left, p, hsmall, hlarge⟩ := findScan_raise (bm s.loc) n s.aligned s.gapLeft s.pending hq
  rw [hsmall] at hscan
  unfold findStep FindSt.raise
  rw [hlarge]
  obtain ⟨count, hcount⟩ : ∃ c, c = if s.count < 8 - s.aligned then 0 else s.count - (8 - s.aligned) := ⟨_, rfl⟩
  have hless : count ≠ 0 → count + 0 + 8 ≤ s.count + s.aligned := by
    intro h0; split at hcount <;> omega
  have hend : windowEnd ≤ (s.loc + 1) * 8 + count := by split at hcount <;> omega
  have hnext : count ≠ 0 → (s.loc + 1) * 8 + count = windowEnd := by
    intro h0; split at hcount <;> omega
  simp only [← hcount]
  cases hscan with
  | gap j hfirst h8 =>
    have hge' := hfirst.ge
    have hfound : u64 (u64 (s.loc * 8) + (j : Int).toNat) = s.loc * 8 + j := by
      rw [Int.toNat_natCast, u64_of_lt (show s.loc * 8 < 2 ^ 64 by omega), u64_of_lt (by omega)]
    have hbyte : (s.loc * 8 + j) / 8 * 8 = s.loc * 8 := by omega
    simp only [Int.natCast_nonneg, if_true, hfound]
    by_cases hout : windowEnd < u64 (s.loc * 8 + j + (n + q))
    · rw [if_pos hout]
      exact .ends _ rfl (.spills _ _ hfirst (by omega) (by omega) hout)
    · rw [if_neg hout]
      refine .ends _ rfl (.inByte _ _ hfirst (by omega) (by omega) ?_ (Nat.le_of_not_lt hout))
      rw [hbyte]
      exact hreach (by omega)
  | closes m hpend hm hm0 hmn hleft0 hleft8 hfirst =>
    have hfit := hroom.found hpend
    have hin : ¬ windowEnd < u64 (s.foundAddress + (n + q)) := by
      rw [u64_of_lt (by omega)]; omega
    simp only [Int.le_refl, if_true, Nat.add_sub_cancel_left, Bool.true_eq_false, hin, if_false]
    by_cases hq0 : q = 0
    · rw [if_pos hq0]
      exact .ends _ rfl (.across _ _ (by omega) hfirst hfit)
    · rw [if_neg hq0]
      have hc0 : count ≠ 0 := by omega
      have hover : nextStart n s.foundAddress = (s.loc + 1 + 1) * 8 := by unfold nextStart; omega
      have hgoes : Round bm n q lo windowEnd start s (.inr _) :=
        .goesOn ⟨s.loc + 1, 0, 0, true, s.foundAddress, count, s.reads ++ [s.loc]⟩ _
          ⟨hp.next hcount hc0, .spent rfl rfl hover, .pending rfl hfit⟩
            (.inr ⟨hq0, _, hfirst, by omega, rfl⟩) (hless hc0)
      unfold FindSt.raise at hgoes
      rwa [Nat.zero_add] at hgoes
  | nothing gapLeft pending hst hb =>
    simp only [show ¬ (0 : Int) ≤ -1 by decide, if_false, if_true]
    split
    · exact .ends _ rfl (.stops _ _ hst hb (by omega) fun x h1 h2 => by omega)
    · have hc0 : count ≠ 0 := by omega
      have hfit : (s.loc + 1) * 8 + 0 + (n + q) ≤ windowEnd := by have := hnext hc0; omega
      exact .goesOn ⟨s.loc + 1, 0, n, false, s.foundAddress, count, s.reads ++ [s.loc]⟩ start
        ⟨hp.next hcount hc0, .fresh rfl rfl hst hb, .fresh rfl rfl hfit⟩ (.inl rfl) (hless hc0)
  | tail j _ hst hjk hk0 hk hrun hb =>
    have hfound : u64 ((s.loc + 1) * 8 - bitCount) = s.loc * 8 + j := by rw [u64_of_lt (by omega)]; omega
    have hrest : n + q - bitCount = n - bitCount + q := Nat.sub_add_comm (Nat.le_of_lt hk)
    simp only [show ¬ (0 : Int) ≤ -2 by decide, show ¬ (-2 : Int) = -1 by decide, if_false, if_true, hfound, hrest]
    split
    · exact .ends _ rfl (.stops _ _ hst hb (by omega) fun x h1 h2 => by omega)
    · have hc0 : count ≠ 0 := by omega
      have hfit : s.loc * 8 + j + (n + q) ≤ windowEnd := by have := hnext hc0; omega
      have hcand' : FindCand bm n start ⟨s.loc + 1, 0, n - bitCount, true, s.loc * 8 + j, count, s.reads ++ [s.loc]⟩ :=
        .pending bitCount rfl rfl (by show s.loc * 8 + j + bitCount = (s.loc + 1) * 8; omega) hk0
          (by show bitCount + (n - bitCount) = n; omega) (by show 0 < n - bitCount; omega) hst hrun hb
      exact .goesOn _ start ⟨hp.next hcount hc0, hcand', .pending rfl hfit⟩ (.inl rfl) (hless hc0)
  | goesOn m hpend hm hmn h8 hst hrun hb =>
    have hfit := hroom.found hpend
    have hrest : s.gapLeft + q - 8 = s.gapLeft - 8 + q := Nat.sub_add_comm (Nat.le_of_lt h8)
    have hon : ¬ (count = 0 ∨ count < s.gapLeft - 8 + q) := by omega
    have hc0 : count ≠ 0 := fun h => hon (.inl h)
    simp only [show ¬ (0 : Int) ≤ -2 by decide, show ¬ (-2 : Int) = -1 by decide, if_false,
      Bool.true_eq_false, hrest, hon]
    have hcand' : FindCand bm n start ⟨s.loc + 1, 0, s.gapLeft - 8, true, s.foundAddress, count, s.reads ++ [s.loc]⟩ :=
      .pending (m + 8) rfl rfl (by show s.foundAddress + (m + 8) = (s.loc + 1) * 8; omega) (Nat.succ_pos _)
        (by show m + 8 + (s.gapLeft - 8) = n; omega) (by show 0 < s.gapLeft - 8; omega) hst hrun hb
    exact .goesOn _ start ⟨hp.next hcount hc0, hcand', .pending rfl hfit⟩ (.inl rfl) (hless hc0)

theorem findLoop_end (hn : n < 2 ^ 31) (h0 : 0 < n) (hq : q % 2 ^ 32 = 0) (hw : windowEnd < 2 ^ 64)
    (fuel : Nat) {s : FindSt}
    (h : FindInv bm n (n + q) lo windowEnd start s) (hfuel : s.count + s.aligned ≤ 8 * fuel) :
    ∃ out start', findLoop bm (n + q) windowEnd fuel (s.raise q) = some out ∧
      (∀ i ∈ out.reads, InWindow lo windowEnd i) ∧
      Relation.ReflTransGen (StartsOver bm n q) start start' ∧ FindEnd bm n (n + q) lo windowEnd start' out := by
  induction fuel generalizing s start with
  | zero => have := h.pos.more; omega
  | succ fuel ih =>
    have hround := findStep_round hn h0 hq hw h
    rw [findLoop]
    generalize findStep bm (n + q) windowEnd (s.raise q) = r at hround
    cases hround with
    | ends out hr hend => exact ⟨out, start, rfl, hr ▸ h.pos.read, .refl, hend⟩
    | goesOn s' start' h' hover hless =>
      obtain ⟨out, start'', hout, hr, htrans, hend⟩ := ih h' (by omega)
      rcases hover with rfl | hover
      · exact ⟨out, start'', hout, hr, htrans, hend⟩
      · exact ⟨out, start'', hout, hr, .head hover htrans, hend⟩

/-- The answer of a search that has looked at the whole window. -/
def Answers (bm : Mem) (gap lo windowEnd : Nat) (out : FindOut) : Prop :=
  (out.rc = 0 ∧ FirstRun (bitAt bm) false gap lo windowEnd out.foundAddress) ∨
    (out.rc = -1 ∧ out.foundAddress = 0 ∧ NoRun (bitAt bm) false gap lo windowEnd)

theorem FindEnd.rc {out : FindOut} (h : FindEnd bm n gap lo windowEnd start out) :
    out.rc = 0 ∨ out.rc = -1 ∧ out.foundAddress = 0 := by
  cases h with
  | inByte | across => exact .inl rfl
  | spills | stops => exact .inr ⟨rfl, rfl⟩

/-- An answer inside the window, of a search for all the zeros of the gap, is the first gap. -/
theorem FindEnd.inside {out : FindOut} (h : FindEnd bm gap gap lo windowEnd lo out)
    (hin : ¬ (out.rc = 0 ∧ windowEnd < out.foundAddress + gap)) : Answers bm gap lo windowEnd out := by
  cases h with
  | inByte a reads hfirst =>
    have hle : ¬ windowEnd < a + gap := fun h => hin ⟨rfl, h⟩
    exact .inl ⟨rfl, hfirst.firstRun (Nat.le_of_not_lt hle)⟩
  | across a reads _ hfirst hle => exact .inl ⟨rfl, hfirst.firstRun hle⟩
  | spills a reads hfirst _ _ hout =>
    have hle : u64 (a + gap) ≤ a + gap := Nat.mod_le _ _
    exact .inr ⟨rfl, rfl, hfirst.blocked.noRun (Nat.lt_of_lt_of_le hout hle)⟩
  | stops a reads _ hb hout => exact .inr ⟨rfl, rfl, hb.noRun hout⟩

/-- No end wraps in a window below 2^31. -/
theorem FindEnd.below {out : FindOut} (h : FindEnd bm n gap lo windowEnd start out) (hw : windowEnd < 2 ^ 31)
    (hq : q % 2 ^ 32 = 0) (hn : n < 2 ^ 31) (hgap : n + q = gap) (hlt : gap < 2 ^ 64) (hrc : out.rc = 0) :
    out.foundAddress + gap ≤ windowEnd := by
  cases h with
  | inByte a reads _ h8 hbyte _ hin =>
    have hend : u64 (a + gap) = a + gap := u64_of_lt (by omega)
    rwa [hend] at hin
  | across a reads _ _ hle => exact hle
  | spills | stops => exact absurd hrc (by simp)

/-- A gap whose `int` is not positive is found nowhere. -/
theorem findLoop_nonpos (h : i32 gap ≤ 0) (fuel : Nat) {s : FindSt} (hp : FindPos lo windowEnd s)
    (hpend : s.pending = false)
    (hg : s.gapLeft = gap) (hfuel : s.count + s.aligned ≤ 8 * fuel) :
    ∃ reads, findLoop bm gap windowEnd fuel s = some ⟨-1, 0, reads⟩ ∧ ∀ i ∈ reads, InWindow lo windowEnd i := by
  induction fuel generalizing s with
  | zero => have := hp.more; omega
  | succ fuel ih =>
    have hal := hp.aligned
    obtain ⟨count, hcount⟩ : ∃ c, c = if s.count < 8 - s.aligned then 0 else s.count - (8 - s.aligned) := ⟨_, rfl⟩
    rw [findLoop, findStep, hpend, hg, findScan_fresh, byteFindGap_nonpos _ _ h]
    simp only [← hcount, show ¬ (0 : Int) ≤ -1 by decide, if_false, if_true]
    by_cases hout : count < gap ∨ count = 0
    · rw [if_pos hout]
      exact ⟨_, rfl, hp.read⟩
    · rw [if_neg hout]
      have hc0 : count ≠ 0 := fun h => hout (.inr h)
      refine ih (hp.next hcount hc0) rfl rfl ?_
      show count + 0 ≤ 8 * fuel
      split at hcount <;> omega

end

/-! ## The call -/

/-- The end of the search window: `count` bits from `a`, cut off at the end of the map. -/
def windowEnd (totalBits a count : Nat) : Nat := min (a + count) totalBits

section
variable (bm : Mem) {totalBits a count gap : Nat}

theorem bmFind_refused (h : totalBits ≤ a ∨ gap = 0 ∨ count = 0 ∨ count < gap) :
    bmFind bm totalBits a count gap = some ⟨-1, 0, []⟩ := by
  rw [bmFind, if_pos h]

/-- The loop starts at the first bit of the window, with the window as its budget. -/
theorem bmFind_loop (ht : totalBits < 2 ^ 64) (hac : a + count < 2 ^ 64)
    (h : ¬ (totalBits ≤ a ∨ gap = 0 ∨ count = 0 ∨ count < gap)) :
    ∃ s fuel, bmFind bm totalBits a count gap = findLoop bm gap (windowEnd totalBits a count) fuel s ∧
      FindPos a (windowEnd totalBits a count) s ∧ s.pos = a ∧ s.pending = false ∧ s.gapLeft = gap ∧
      s.count + s.aligned ≤ 8 * fuel := by
  obtain ⟨n, hn⟩ : ∃ n, (if totalBits < u64 (a + count) then totalBits - a else count) = n := ⟨_, rfl⟩
  have hwin : a + n = windowEnd totalBits a count := by
    rw [u64_of_lt hac] at hn
    unfold windowEnd
    split at hn <;> omega
  have hsum : u64 (a + n) = windowEnd totalBits a count := by
    rw [hwin, u64_of_lt]
    unfold windowEnd; omega
  have hpos : a / 8 * 8 + a % 8 = a := by omega
  refine ⟨⟨a / 8, a % 8, gap, false, 0, n, []⟩, n / 8 + 4, ?_,
    ⟨Nat.mod_lt _ (by decide), ?_, ?_, ?_, List.forall_mem_nil _⟩,
    hpos, rfl, rfl, ?_⟩
  · rw [bmFind, if_neg h]
    simp only [hn, hsum]
  · exact Nat.le_of_eq hpos.symm
  · show a / 8 * 8 + a % 8 + n = _
    omega
  · show 0 < n
    unfold windowEnd at hwin
    omega
  · show n + a % 8 ≤ 8 * (n / 8 + 4)
    omega

/-- How `bm_find` ends on a gap of which the `int` shows `n` zeros. -/
theorem bmFind_end {n q : Nat} (hn : n < 2 ^ 31) (hn0 : 0 < n) (hq : q % 2 ^ 32 = 0) (hgap : n + q = gap)
    (ht : totalBits < 2 ^ 64) (hac : a + count < 2 ^ 64) (ha : a < totalBits) (hc : gap ≤ count) :
    ∃ out start, bmFind bm totalBits a count gap = some out ∧
      (∀ i ∈ out.reads, InWindow a (windowEnd totalBits a count) i) ∧
      Relation.ReflTransGen (StartsOver bm n q) a start ∧ FindEnd bm n gap a
        (windowEnd totalBits a count) start out := by
  subst hgap
  have hw : windowEnd totalBits a count < 2 ^ 64 := by unfold windowEnd; omega
  obtain ⟨s, fuel, hloop, hpos, hs, hp, hg, hfuel⟩ :=
    bmFind_loop bm ht hac (show ¬ (totalBits ≤ a ∨ n + q = 0 ∨ count = 0 ∨ count < n + q) by omega)
  have hraise : s = ({ s with gapLeft := n } : FindSt).raise q := by
    unfold FindSt.raise
    rw [← hg]
  rw [hloop, hraise]
  refine findLoop_end hn hn0 hq hw fuel ⟨⟨hpos.aligned, hpos.ge, hpos.left, hpos.more, hpos.reads⟩,
    .fresh hp rfl (Nat.le_of_eq hs.symm) ?_, .first hp ?_⟩ hfuel
  · have hnil : Blocked (bitAt bm) false n a s.pos := by rw [hs]; exact Blocked.nil
    exact hnil
  · unfold FindSt.pos at hs
    show s.loc * 8 ≤ a
    omega

theorem bmFind_nonpos (h : i32 gap ≤ 0) (h0 : 0 < gap) (ht : totalBits < 2 ^ 64) (hac : a + count < 2 ^ 64)
    (ha : a < totalBits)
    (hc : gap ≤ count) :
    ∃ reads, bmFind bm totalBits a count gap = some ⟨-1, 0, reads⟩ ∧ ∀ i ∈ reads, InWindow a
      (windowEnd totalBits a count) i := by
  obtain ⟨s, fuel, hloop, hpos, -, hp, hg, hfuel⟩ :=
    bmFind_loop bm ht hac (show ¬ (totalBits ≤ a ∨ gap = 0 ∨ count = 0 ∨ count < gap) by omega)
  rw [hloop]
  exact findLoop_nonpos h fuel hpos hp hg hfuel

/-- A search whose window does not wrap ends, and reads only bytes of the window. -/
theorem bmFind_reads (ht : totalBits < 2 ^ 64) (hac : totalBits ≤ a ∨ a + count < 2 ^ 64) :
    ∃ out, bmFind bm totalBits a count gap = some out ∧ ∀ i ∈ out.reads, InWindow a
      (windowEnd totalBits a count) i := by
  by_cases h : totalBits ≤ a ∨ gap = 0 ∨ count = 0 ∨ count < gap
  · exact ⟨_, bmFind_refused bm h, List.forall_mem_nil _⟩
  by_cases hint : i32 gap ≤ 0
  · obtain ⟨reads, hout, hreads⟩ := bmFind_nonpos bm hint (show 0 < gap by omega) ht
      (show a + count < 2 ^ 64 by omega) (by omega) (by omega)
    exact ⟨_, hout, hreads⟩
  · obtain ⟨n, q, hgap, hn0, hn, hq, -⟩ := i32_split (Int.lt_of_not_ge hint)
    obtain ⟨out, -, hout, hreads, -, -⟩ := bmFind_end bm hn hn0 hq hgap ht
      (show a + count < 2 ^ 64 by omega) (by omega) (by omega)
    exact ⟨out, hout, hreads⟩

theorem bmFind_safe (ht : totalBits < 2 ^ 64) (hac : totalBits ≤ a ∨ a + count < 2 ^ 64) :
    ∃ out, bmFind bm totalBits a count gap = some out ∧ ∀ i ∈ out.reads, i < (totalBits + 7) / 8 := by
  obtain ⟨out, hout, hr⟩ := @bmFind_reads bm totalBits a count gap ht hac
  refine ⟨out, hout, fun i hi => ?_⟩
  have hbound := (hr i hi).2
  unfold windowEnd at hbound
  omega

/-- `bm_find` answers the first gap of the window, or that it holds none. -/
theorem bmFind_spec (ht : totalBits < 2 ^ 31) (hac : a + count < 2 ^ 64) (ha : a < totalBits) (h0 : 0 < gap)
    (hc : gap ≤ count) :
    ∃ out, bmFind bm totalBits a count gap = some out ∧ Answers bm gap a (windowEnd totalBits a count) out := by
  have hw : windowEnd totalBits a count < 2 ^ 31 := by unfold windowEnd; omega
  by_cases hint : i32 gap ≤ 0
  · obtain ⟨reads, hout, -⟩ := bmFind_nonpos bm hint h0 (by omega) hac ha hc
    have hlarge : 2 ^ 31 ≤ gap := by
      by_contra hlt
      rw [i32_of_lt (by omega) (by omega)] at hint
      omega
    exact ⟨_, hout, .inr ⟨rfl, rfl, fun b h1 h2 => by omega⟩⟩
  · obtain ⟨n, q, hgap, hn0, hn, hq, -⟩ := i32_split (Int.lt_of_not_ge hint)
    obtain ⟨out, start, hout, -, hover, hend⟩ :=
      bmFind_end bm hn hn0 hq hgap (show totalBits < 2 ^ 64 by omega) hac ha hc
    have hin := hend.below hw hq hn hgap (by omega)
    refine ⟨out, hout, ?_⟩
    by_cases hq0 : q = 0
    · obtain rfl : start = a := startsOver_none hq0 hover
      obtain rfl : n = gap := by omega
      exact hend.inside fun h => by have := hin h.1; omega
    · rcases hend.rc with hrc | hrc
      · have := hin hrc; omega
      · exact .inr ⟨hrc.1, hrc.2, fun b h1 h2 => by omega⟩

end

end KanekFoundations.Map

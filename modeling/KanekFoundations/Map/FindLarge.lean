/-
  KanekFoundations.Map.FindLarge — `bm_find` on a gap of 2^31 bits and more.

  Of such a gap `byte_find_gap` sees an `int`. One that is not positive is found nowhere. A
  positive one is less than the gap, and what is reported is the first run of that many zeros
  that lies in one byte (`ComesTo`), whether or not the gap's other zeros follow it. A run
  across bytes makes the search start over, past the next byte.

  Proved: when the answer is right all the same (`find_large_iff`), by the bits of the window.
-/

import KanekFoundations.Map.FindWindow

namespace KanekFoundations.Map

open KanekFoundations.Lib

/-- The search for `n` zeros from `start` comes to `x`, having started over at `last`: `x` is the first
    run from there, and it lies in one byte. A run across bytes starts it over. -/
inductive ComesTo (f : Nat → Bool) (n : Nat) : Nat → Nat → Nat → Prop
  | here {start x : Nat} : FirstFrom f false n start x → x % 8 + n ≤ 8 → ComesTo f n start start x
  | again {start last x y : Nat} : FirstFrom f false n start y → 8 < y % 8 + n → ComesTo f n (nextStart n y) last x →
      ComesTo f n start last x

section
variable {f : Nat → Bool} {n start last x y : Nat}

theorem lt_nextStart (n y : Nat) : y < nextStart n y := by
  unfold nextStart
  omega

theorem ComesTo.ge (h : ComesTo f n start last x) : start ≤ last ∧ last ≤ x := by
  induction h with
  | here hfirst _ => exact ⟨Nat.le_refl _, hfirst.ge⟩
  | @again _ _ _ y hfirst _ _ ih =>
    have hge := hfirst.ge
    have hlt := lt_nextStart n y
    exact ⟨by omega, ih.2⟩

theorem ComesTo.inByte (h : ComesTo f n start last x) : x % 8 + n ≤ 8 := by
  induction h with
  | here _ h8 => exact h8
  | again _ _ _ ih => exact ih

theorem ComesTo.run (h : ComesTo f n start last x) : Run f false x n := by
  induction h with
  | here hfirst _ => exact hfirst.run
  | again _ _ _ ih => exact ih

/-- It comes to nothing in a blocked stretch, and does not start over there. -/
theorem ComesTo.after {c : Nat} (h : ComesTo f n start last x) (hb : Blocked f false n start c) :
    c ≤ x ∧ (last = start ∨ c < last) := by
  cases h with
  | here hfirst _ => exact ⟨hfirst.after hb, .inl rfl⟩
  | @again _ _ _ y hfirst _ hrest =>
    have hc := hfirst.after hb
    have hlt := lt_nextStart n y
    obtain ⟨h1, h2⟩ := hrest.ge
    exact ⟨by omega, .inr (by omega)⟩

theorem ComesTo.unique {last' x' : Nat} (h : ComesTo f n start last x) (h' : ComesTo f n start last' x') :
    last' = last ∧ x' = x := by
  induction h with
  | here hfirst h8 =>
    cases h' with
    | here hfirst' _ => exact ⟨rfl, hfirst'.unique hfirst⟩
    | again hfirst' hacross _ =>
      rw [hfirst'.unique hfirst] at hacross
      omega
  | again hfirst hacross _ ih =>
    cases h' with
    | here hfirst' h8 =>
      rw [hfirst'.unique hfirst] at h8
      omega
    | again hfirst' _ hrest =>
      rw [hfirst'.unique hfirst] at hrest
      exact ih hrest

/-- Starting over changes nothing of what a search comes to. -/
theorem comesTo_over {bm : Mem} {q start' : Nat} (h : Relation.ReflTransGen (StartsOver bm n q) start start') :
    ComesTo (bitAt bm) n start last x ↔ ComesTo (bitAt bm) n start' last x := by
  induction h with
  | refl => exact Iff.rfl
  | tail _ hover ih =>
    obtain ⟨-, y, hfirst, hacross, rfl⟩ := hover
    rw [ih]
    constructor
    · intro h
      cases h with
      | here hfirst' h8 =>
        rw [hfirst'.unique hfirst] at h8
        omega
      | again hfirst' _ hrest => rwa [hfirst'.unique hfirst] at hrest
    · exact .again hfirst hacross

end

/-- The search for `gap` zeros looks for as many as an `int` shows of them, and comes to `x`. -/
def Shown (bm : Mem) (gap lo last x : Nat) : Prop := 0 < i32 gap ∧ ComesTo (bitAt bm) (i32 gap).toNat lo last x

/-- What the search comes to is reported: a gap there would end in the window, or its end wraps and
    the search gets to the byte. -/
def Reported (bm : Mem) (gap lo windowEnd last x : Nat) : Prop :=
  x + gap ≤ windowEnd ∨ 2 ^ 64 ≤ x + gap ∧ Reaches bm gap lo windowEnd last (x / 8 * 8)

/-- The answer is an address in the window from which the whole gap is clear, and there is one whenever
    the window holds a gap. -/
def FindsLarge (bm : Mem) (totalBits a count gap : Nat) : Prop :=
  ∃ out, bmFind bm totalBits a count gap = some out ∧
    (out.rc = 0 → out.foundAddress ∈ gaps bm gap a (windowEnd totalBits a count)) ∧
    ((gaps bm gap a (windowEnd totalBits a count)).Nonempty → out.rc = 0)

section
variable {bm : Mem} {n q gap lo start windowEnd : Nat}

/-- Of a gap that is larger than its `int`, the search answers what it comes to, or that it comes to
    nothing it reports. -/
theorem FindEnd.reported {out : FindOut} (h : FindEnd bm n gap lo windowEnd start out)
    (hgap : n + q = gap) (hq0 : q ≠ 0)
    (hq : q % 2 ^ 32 = 0) (hlt : gap < 2 ^ 64) (hw : windowEnd < 2 ^ 64)
    (hover : Relation.ReflTransGen (StartsOver bm n q) lo start) :
    (out.rc = 0 ∧ ∃ last, ComesTo (bitAt bm) n lo last out.foundAddress ∧
      Reported bm gap lo windowEnd last out.foundAddress) ∨
      (out.rc = -1 ∧ ∀ last x, ComesTo (bitAt bm) n lo last x → ¬ Reported bm gap lo windowEnd last x) := by
  cases h with
  | inByte a reads hfirst h8 _ hreach hin =>
    refine .inl ⟨rfl, start, (comesTo_over hover).mpr (.here hfirst h8), ?_⟩
    show Reported bm gap lo windowEnd start a
    by_cases hend : a + gap < 2 ^ 64
    · rw [u64_of_lt hend] at hin
      exact .inl hin
    · exact .inr ⟨by omega, hreach⟩
  | across a reads hn => omega
  | spills a reads hfirst h8 hbyte hout =>
    refine .inr ⟨rfl, fun last x hx hrep => ?_⟩
    obtain ⟨-, rfl⟩ := (ComesTo.here hfirst h8).unique ((comesTo_over hover).mp hx)
    rcases hrep with hin | ⟨hend, -⟩
    · rw [u64_of_lt (by omega)] at hout
      omega
    · rw [u64_wrap hend (by omega)] at hout
      omega
  | stops a reads hge hb hout hbehind =>
    refine .inr ⟨rfl, fun last x hx hrep => ?_⟩
    have hx' := (comesTo_over hover).mp hx
    obtain ⟨hax, hlast⟩ := hx'.after hb
    obtain ⟨hbyte, hlo⟩ := hbehind x hax hx'.inByte
    rcases hrep with hin | ⟨-, hreach⟩
    · omega
    · rcases hlast with rfl | hlast
      · exact not_reaches hb hout hbyte hlo hreach
      · rcases hreach with h | ⟨hfit, -⟩ <;> omega

end

/-- How the call ends on a large gap. -/
theorem bmFind_large (bm : Mem) {totalBits a count gap : Nat} (ht : totalBits < 2 ^ 64) (hac : a + count < 2 ^ 64)
    (ha : a < totalBits) (hgap : 2 ^ 31 ≤ gap) (hc : gap ≤ count) :
    ∃ out, bmFind bm totalBits a count gap = some out ∧
      ((out.rc = 0 ∧ ∃ last, Shown bm gap a last out.foundAddress ∧
          Reported bm gap a (windowEnd totalBits a count) last out.foundAddress) ∨
        (out.rc = -1 ∧ ∀ last x, Shown bm gap a last x →
          ¬ Reported bm gap a (windowEnd totalBits a count) last x)) := by
  have hw : windowEnd totalBits a count < 2 ^ 64 := by unfold windowEnd; omega
  by_cases hint : i32 gap ≤ 0
  · obtain ⟨reads, hout, -⟩ := bmFind_nonpos bm hint (by omega) ht hac ha hc
    exact ⟨_, hout, .inr ⟨rfl, fun last x h => absurd h.1 (Int.not_lt.mpr hint)⟩⟩
  · have hpos := Int.lt_of_not_ge hint
    obtain ⟨n, q, hsum, hn0, hn, hq, hshown⟩ := i32_split hpos
    obtain ⟨out, start, hout, -, hover, hend⟩ := bmFind_end bm hn hn0 hq hsum ht hac ha hc
    have hcomes : ∀ last x, Shown bm gap a last x ↔ ComesTo (bitAt bm) n a last x := by
      intro last x
      unfold Shown
      rw [hshown, Int.toNat_natCast]
      exact and_iff_right (by omega)
    simp only [hcomes]
    exact ⟨out, hout, hend.reported hsum (by omega) hq (by omega) hw hover⟩

/-- The answer by what the search comes to. -/
theorem findsLarge_comesTo (bm : Mem) {totalBits a count gap : Nat} (ht : totalBits < 2 ^ 64)
    (hac : a + count < 2 ^ 64) (hgap : 2 ^ 31 ≤ gap) (hc : gap ≤ count) :
    FindsLarge bm totalBits a count gap ↔
      (∃ last x, Shown bm gap a last x ∧ x ∈ gaps bm gap a (windowEnd totalBits a count)) ∨
        (¬ (gaps bm gap a (windowEnd totalBits a count)).Nonempty ∧
          (totalBits ≤ a ∨ ∀ last x, Shown bm gap a last x →
            ¬ Reported bm gap a (windowEnd totalBits a count) last x)) := by
  by_cases ha : totalBits ≤ a
  · have hempty : ¬ (gaps bm gap a (windowEnd totalBits a count)).Nonempty := by
      intro hsome
      obtain ⟨x, h1, h2, -⟩ := hsome
      unfold windowEnd at h2
      omega
    refine iff_of_true ⟨_, bmFind_refused bm (.inl ha), fun h => absurd h (by decide), fun h => absurd h hempty⟩ ?_
    exact .inr ⟨hempty, .inl ha⟩
  obtain ⟨out, hout, hans⟩ := bmFind_large bm ht hac (Nat.lt_of_not_le ha) hgap hc
  have hright : FindsLarge bm totalBits a count gap ↔
      (out.rc = 0 → out.foundAddress ∈ gaps bm gap a (windowEnd totalBits a count)) ∧
        ((gaps bm gap a (windowEnd totalBits a count)).Nonempty → out.rc = 0) := by
    unfold FindsLarge
    simp only [hout, Option.some.injEq, exists_eq_left']
  rw [hright]
  rcases hans with ⟨hrc, last, hshown, hrep⟩ | ⟨hrc, hnone⟩
  · constructor
    · intro h
      exact .inl ⟨last, _, hshown, h.1 hrc⟩
    · intro h
      rcases h with ⟨last', x, hshown', hx⟩ | ⟨-, h⟩
      · obtain ⟨-, rfl⟩ := hshown.2.unique hshown'.2
        exact ⟨fun _ => hx, fun _ => hrc⟩
      · rcases h with h | h
        · exact absurd h ha
        · exact absurd hrep (h _ _ hshown)
  · have hne : out.rc ≠ 0 := by rw [hrc]; decide
    constructor
    · intro h
      exact .inr ⟨fun hsome => hne (h.2 hsome), .inr hnone⟩
    · intro h
      refine ⟨fun h0 => absurd h0 hne, fun hsome => ?_⟩
      rcases h with ⟨last, x, hshown, hx⟩ | ⟨hempty, -⟩
      · exact absurd (.inl hx.2.1) (hnone last x hshown)
      · exact absurd hsome hempty

/-! ## By the bits -/

/-- No run of `n` zeros that lies in one byte would be reported. -/
def NothingSeen (bm : Mem) (gap n lo windowEnd : Nat) : Prop :=
  ∀ x, lo ≤ x → x % 8 + n ≤ 8 → Run (bitAt bm) false x n → windowEnd < x + gap ∧ x + gap < 2 ^ 64

/-- From `y` on the window is clear for a gap and 23 bits, which is as far as a search that starts over can
    overshoot; before `y` no byte holds `n` zeros in a row. -/
def RunsOn (bm : Mem) (gap n lo windowEnd : Nat) : Prop :=
  ∃ y, lo ≤ y ∧ (∀ x, lo ≤ x → x < y → x % 8 + n ≤ 8 → ¬ Run (bitAt bm) false x n) ∧
    y + (gap + 23) ≤ windowEnd ∧ Run (bitAt bm) false y (gap + 23)

section
variable {f : Nat → Bool} {n start y : Nat}

/-- The zeros that are looked for are found from any start before them. -/
theorem firstFrom_exists (hy : start ≤ y) (hrun : Run f false y n) : ∃ x, FirstFrom f false n start x ∧ x ≤ y := by
  classical
  have hex : ∃ x, start ≤ x ∧ Run f false x n := ⟨y, hy, hrun⟩
  obtain ⟨hge, hx⟩ := Nat.find_spec hex
  refine ⟨Nat.find hex, ⟨hge, hx, fun b hb hlt => ?_⟩, Nat.find_min' hex ⟨hy, hrun⟩⟩
  -- A start before the first run meets a set bit, and not inside the run.
  have hno : ¬ Run f false b n := fun h => Nat.find_min hex hlt ⟨hb, h⟩
  unfold Run at hno
  push Not at hno
  obtain ⟨j, hj1, hj2, hset⟩ := hno
  refine ⟨j, hj1, ?_, hj2, hset⟩
  by_contra hin
  exact hset (hx j (Nat.le_of_not_lt hin) (by omega))

theorem nextStart_le (_ : 8 < y % 8 + n) (hn : n ≤ 8) : nextStart n y ≤ y + 23 := by
  unfold nextStart
  omega

/-- A search that finds zeros in no byte before `y`, where 32 zeros follow, comes to one of the first 24. -/
theorem comesTo_of_run (hn : n ≤ 8) (hrun : Run f false y 32) {start : Nat}
    (hstart : start ≤ y ∨ start % 8 = 0 ∧ start ≤ y + 23)
    (hbytes : ∀ x, start ≤ x → x < y → x % 8 + n ≤ 8 → ¬ Run f false x n) :
    ∃ last x, ComesTo f n start last x ∧ y ≤ x ∧ x ≤ y + 23 := by
  by_cases hbehind : y ≤ start ∧ start % 8 + n ≤ 8
  · have hhere : FirstFrom f false n start start :=
      ⟨Nat.le_refl _, hrun.sub hbehind.1 (by omega), Blocked.nil⟩
    exact ⟨start, start, .here hhere hbehind.2, hbehind.1, by omega⟩
  have hle : start ≤ y := by omega
  obtain ⟨x, hfirst, hxy⟩ := firstFrom_exists hle (hrun.sub (Nat.le_refl y) (by omega) : Run f false y n)
  have hge := hfirst.ge
  by_cases hin : x % 8 + n ≤ 8
  · have hxy' : x = y := by
      by_contra hne
      exact hbytes x hge (by omega) hin hfirst.run
    exact ⟨start, x, .here hfirst hin, by omega, by omega⟩
  · -- Across bytes: the rest of the search starts behind.
    have hlt := lt_nextStart n x
    have hover := nextStart_le (Nat.lt_of_not_le hin) hn
    have haligned : nextStart n x % 8 = 0 := Nat.mul_mod_left ..
    have hstart' : nextStart n x ≤ y ∨ nextStart n x % 8 = 0 ∧ nextStart n x ≤ y + 23 := .inr ⟨haligned, by omega⟩
    obtain ⟨last, z, hz, hyz, hzy⟩ := comesTo_of_run hn hrun hstart' fun x' h1 h2 => hbytes x' (by omega) h2
    exact ⟨last, z, .again hfirst (Nat.lt_of_not_le hin) hz, hyz, hzy⟩
  termination_by y + 24 - start
  decreasing_by omega

end

/-- With `g` the `int` of the gap, the answer is right
    - always in an empty window;
    - for `g` not positive or more than 8: exactly when the window holds no gap;
    - where the first `g` zeros in a row lie in one byte: exactly when a gap starts there, or the window holds
      none and one that starts there would end behind it; if its end wraps, its byte must be behind the first
      one and a bit that is set must stop the search before it;
    - and else when no byte holds `g` zeros in a row where they would be reported and the window holds no
      gap, or when the first byte that does is in a gap with 23 more zeros. -/
theorem find_large_iff (bm : Mem) {totalBits a count gap : Nat} (ht : totalBits < 2 ^ 64) (hac : a + count < 2 ^ 64)
    (hgap : 2 ^ 31 ≤ gap) (hc : gap ≤ count) :
    let windowEnd := windowEnd totalBits a count
    let n := (i32 gap).toNat
    (totalBits ≤ a → FindsLarge bm totalBits a count gap) ∧
      (i32 gap ≤ 0 ∨ 8 < i32 gap → (FindsLarge bm totalBits a count gap ↔ ¬ (gaps bm gap a windowEnd).Nonempty)) ∧
      (0 < i32 gap → a < totalBits → ∀ x, FirstFrom (bitAt bm) false n a x → x % 8 + n ≤ 8 →
        (FindsLarge bm totalBits a count gap ↔ x ∈ gaps bm gap a windowEnd ∨
          ¬ (gaps bm gap a windowEnd).Nonempty ∧ windowEnd < x + gap ∧
            (2 ^ 64 ≤ x + gap → a < x / 8 * 8 ∧ (a + gap ≤ windowEnd →
              ¬ Run (bitAt bm) false (windowEnd - gap) (x / 8 * 8 - (windowEnd - gap)))))) ∧
      (0 < i32 gap → i32 gap ≤ 8 →
        (NothingSeen bm gap n a windowEnd ∧ ¬ (gaps bm gap a windowEnd).Nonempty) ∨ RunsOn bm gap n a windowEnd →
        FindsLarge bm totalBits a count gap) := by
  intro windowEnd n
  have hiff := findsLarge_comesTo bm ht hac hgap hc
  refine ⟨fun ha => hiff.mpr (.inr ⟨fun ⟨x, hx, hend, _⟩ => ?_, .inl ha⟩), fun hg => ?_,
    fun hpos ha x hfirst hin => ?_, fun hpos h8 hright => ?_⟩
  · simp only [Map.windowEnd] at hend
    omega
  · have hnone : ∀ last x, ¬ Shown bm gap a last x := by
      rintro last x ⟨hpos, hx⟩
      have := hx.inByte
      omega
    rw [hiff]
    constructor
    · rintro (⟨last, x, hshown, -⟩ | ⟨hempty, -⟩)
      · exact absurd hshown (hnone last x)
      · exact hempty
    · exact fun hempty => .inr ⟨hempty, .inr fun last x hshown => absurd hshown (hnone last x)⟩
  · have hshown : Shown bm gap a a x := ⟨hpos, .here hfirst hin⟩
    have honly : ∀ last y, Shown bm gap a last y → last = a ∧ y = x := fun last y h => hshown.2.unique h.2
    rw [hiff]
    constructor
    · rintro (⟨last, y, h, hy⟩ | ⟨hempty, htotal | hrep⟩)
      · obtain ⟨-, rfl⟩ := honly last y h
        exact .inl hy
      · omega
      · have hout : windowEnd < x + gap := by
          by_contra hle
          exact hrep a x hshown (.inl (Nat.le_of_not_lt hle))
        refine .inr ⟨hempty, hout, fun hwrap => ?_⟩
        have hnot : ¬ Reaches bm gap a windowEnd a (x / 8 * 8) := fun h => hrep a x hshown (.inr ⟨hwrap, h⟩)
        exact ⟨Nat.lt_of_not_le fun h => hnot (.inl h), fun hfit hrun => hnot (.inr ⟨hfit, hrun⟩)⟩
    · rintro (hx | ⟨hempty, hout, hwrap⟩)
      · exact .inl ⟨a, x, hshown, hx⟩
      · refine .inr ⟨hempty, .inr fun last y h hrep => ?_⟩
        obtain ⟨rfl, rfl⟩ := honly last y h
        rcases hrep with hin | ⟨hend, hreach⟩
        · exact absurd hin (Nat.not_le_of_lt hout)
        · obtain ⟨hbehind, hset⟩ := hwrap hend
          rcases hreach with hle | ⟨hfit, hrun⟩
          · omega
          · exact hset hfit hrun
  · rw [hiff]
    rcases hright with ⟨hseen, hempty⟩ | ⟨y, hy, hbytes, hend, hrun⟩
    · refine .inr ⟨hempty, .inr fun last x h hrep => ?_⟩
      obtain ⟨hlast, hx⟩ := h.2.ge
      obtain ⟨hout, hwrap⟩ := hseen x (by omega) h.2.inByte h.2.run
      rcases hrep with hle | ⟨hend, -⟩
      · exact absurd hle (Nat.not_le_of_lt hout)
      · omega
    · obtain ⟨last, x, hx, hyx, hxy⟩ := comesTo_of_run (n := n) (by omega) (hrun.sub (Nat.le_refl y) (by omega))
        (.inl hy) hbytes
      exact .inl ⟨last, x, ⟨hpos, hx⟩, hy.trans hyx, by omega, hrun.sub hyx (by omega)⟩

/-- In a map of zeros the first zero starts a gap. Where each byte has its first and last bit clear, no byte
    holds 2 zeros in a row and there is no gap. -/
theorem find_large_iff_clear : FindsLarge (fun _ => 0) (2 ^ 33) 0 (2 ^ 33) (2 ^ 32 + 1) ∧
    FindsLarge (fun _ => 0x7e) (2 ^ 33) 0 (2 ^ 33) (2 ^ 32 + 2) := by
  have hroom : 2 ^ 33 < 2 ^ 64 := by decide
  have hac : 0 + 2 ^ 33 < 2 ^ 64 := by decide
  constructor
  · obtain ⟨-, -, hfirst, -⟩ := find_large_iff (fun _ => 0) hroom hac (show 2 ^ 31 ≤ 2 ^ 32 + 1 by decide) (by decide)
    have hn : (i32 ((2 ^ 32 + 1 : Nat) : Int)).toNat = 1 := by decide
    rw [hn] at hfirst
    have hclear : ∀ i, bitAt (fun _ => 0) i = false := fun i => by simp [bitAt]
    refine (hfirst (by decide) (by decide) 0 ⟨Nat.le_refl 0, fun i _ _ => hclear i, Blocked.nil⟩ (by decide)).mpr ?_
    exact .inl ⟨Nat.le_refl 0, by decide, fun i _ _ => hclear i⟩
  · obtain ⟨-, -, -, henough⟩ := find_large_iff (fun _ => 0x7e) hroom hac (show 2 ^ 31 ≤ 2 ^ 32 + 2 by decide) (by decide)
    have hn : (i32 ((2 ^ 32 + 2 : Nat) : Int)).toNat = 2 := by decide
    rw [hn] at henough
    refine henough (by decide) (by decide) (.inl ⟨fun x _ hin hrun => ?_, fun hsome => ?_⟩)
    · -- Two bits of one byte, of which one is not at its end.
      have h0 : (0x7e#8).getLsbD (x % 8) = false := hrun x (Nat.le_refl x) (by omega)
      have h1 : (0x7e#8).getLsbD ((x + 1) % 8) = false := hrun (x + 1) (by omega) (by omega)
      have hends : ∀ j < 8, (0x7e#8).getLsbD j = false → j = 0 ∨ j = 7 := by decide
      have hx := hends _ (Nat.mod_lt x (by decide)) h0
      have hx' := hends _ (Nat.mod_lt (x + 1) (by decide)) h1
      omega
    · obtain ⟨y, -, -, hrun⟩ := hsome
      have hset := hrun (8 * (y / 8 + 1) + 1) (by omega) (by omega)
      simp [bitAt] at hset

/-- One clear bit is taken for 2^32 + 1 of them, and 2^31 clear bits are not found. -/
theorem find_large_misled :
    bmFind (fun _ => 0xfe) (2 ^ 33) 0 (2 ^ 33) (2 ^ 32 + 1) = some ⟨0, 0, [0]⟩ ∧
      bmFind (fun _ => 0) (2 ^ 33) 0 (2 ^ 31) (2 ^ 31) = some ⟨-1, 0, [0]⟩ ∧
      ¬ FindsLarge (fun _ => 0xfe) (2 ^ 33) 0 (2 ^ 33) (2 ^ 32 + 1) ∧
      ¬ FindsLarge (fun _ => 0) (2 ^ 33) 0 (2 ^ 31) (2 ^ 31) := by
  have hfalse : bmFind (fun _ => 0xfe) (2 ^ 33) 0 (2 ^ 33) (2 ^ 32 + 1) = some ⟨0, 0, [0]⟩ := by decide +kernel
  have hmissed : bmFind (fun _ => 0) (2 ^ 33) 0 (2 ^ 31) (2 ^ 31) = some ⟨-1, 0, [0]⟩ := by decide +kernel
  refine ⟨hfalse, hmissed, fun h => ?_, fun h => ?_⟩
  · obtain ⟨out, hout, hin, -⟩ := h
    rw [hfalse] at hout
    rw [← Option.some.inj hout] at hin
    exact absurd ((hin rfl).2.2 1 (by decide) (by decide)) (by decide)
  · obtain ⟨out, hout, -, hall⟩ := h
    rw [hmissed] at hout
    rw [← Option.some.inj hout] at hall
    have hgap : 0 ∈ gaps (fun _ => 0) (2 ^ 31) 0 (windowEnd (2 ^ 33) 0 (2 ^ 31)) :=
      ⟨Nat.le_refl 0, by decide, fun i _ _ => by simp [bitAt]⟩
    exact absurd (hall ⟨0, hgap⟩) (by decide)

end KanekFoundations.Map

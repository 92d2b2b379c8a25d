/-
  KanekFoundations.Hash.XxhProofs — what `xxh32` and `xxh64` read, and what they tell apart
  (see `KanekFoundations.Hash.Xxh`).

  Proved, for buffers of every length:
  - `xxh_reads`: both functions read the bytes of the buffer once each, in order, nothing
    else, and end with the digest, wherever the buffer is.
-/

import KanekFoundations.Hash.Xxh

namespace KanekFoundations.Hash

open KanekFoundations.Lib

variable {w w' : Nat} {mem : Nat → Option Byte} {b b' : Nat → Byte} {input len o : Nat}

/-! ## Reading -/

/-- The buffer is in memory. -/
def Buffer (mem : Nat → Option Byte) (input len : Nat) (b : Nat → Byte) : Prop :=
    ∀ i < len, mem (input + i) = some (b i)

theorem load_logs {p : Nat} {x : Byte} (h : mem p = some x) : Logs (load mem p) x [p] := by
  intro log
  simp [load, h]

theorem getUnalignedLe_logs (hb : Buffer mem input len b) (ho : o + w / 8 ≤ len) :
    Logs (getUnalignedLe w mem (input + o)) (wordAt w b o) (List.range' (input + o) (w / 8)) := by
  have hbytes : Logs ((List.range (w / 8)).mapM fun i => load mem (input + o + i))
    ((List.range (w / 8)).map fun i => b (o + i))
      ((List.range (w / 8)).flatMap fun i => [input + o + i]) := by
    refine .mapM fun i hi => load_logs ?_
    have hlt := List.mem_range.mp hi
    rw [Nat.add_assoc]
    exact hb (o + i) (by omega)
  have hread : (List.range (w / 8)).flatMap (fun i => [input + o + i]) ++ [] = List.range' (input + o) (w / 8) := by
    rw [List.append_nil, ← List.map_eq_flatMap, List.range'_eq_map_range]
  have hword : BitVec.ofNat w (Nat.ofDigits 256 (((List.range (w / 8)).map fun i => b (o + i)).map BitVec.toNat)) =
      wordAt w b o := by
    rw [List.map_map]
    rfl
  rw [← hread, ← hword]
  exact hbytes.bind (.pure _)

/-- One round of the loop over stripes. -/
theorem stripe_logs {α : Type} (hb : Buffer mem input len b) (round : BitVec w → BitVec w → BitVec w)
    (hle : o + w / 8 * 4 ≤ len)
    (v : Fin 4 → BitVec w) {f : Nat → (Fin 4 → BitVec w) → Reads α} {a : α} {es : List Nat}
    (hf : Logs (f (input + (o + w / 8 * 4)) fun j => round (v j) (wordAt w b (o + w / 8 * j))) a es) :
    Logs (do
      let k1 ← getUnalignedLe w mem (input + o)
      let k2 ← getUnalignedLe w mem (input + o + w / 8)
      let k3 ← getUnalignedLe w mem (input + o + w / 8 + w / 8)
      let k4 ← getUnalignedLe w mem (input + o + w / 8 + w / 8 + w / 8)
      f (input + o + w / 8 + w / 8 + w / 8 + w / 8) ![round (v 0) k1, round (v 1) k2, round (v 2) k3, round (v 3) k4])
      a (List.range' (input + o) (w / 8 * 4) ++ es) := by
  have hword : ∀ i < 4, Logs (getUnalignedLe w mem (input + o + w / 8 * i)) (wordAt w b (o + w / 8 * i))
      (List.range' (input + o + w / 8 * i) (w / 8)) := by
    intro i hi
    have hfit : w / 8 * i + w / 8 ≤ w / 8 * 4 := by
      rw [← Nat.mul_succ]
      exact Nat.mul_le_mul_left _ hi
    rw [Nat.add_assoc]
    exact getUnalignedLe_logs hb (by omega)
  have hlanes : (fun j : Fin 4 => round (v j) (wordAt w b (o + w / 8 * j))) =
      ![round (v 0) (wordAt w b (o + w / 8 * 0)), round (v 1) (wordAt w b (o + w / 8 * 1)),
        round (v 2) (wordAt w b (o + w / 8 * 2)),
        round (v 3) (wordAt w b (o + w / 8 * 3))] := by
    funext j
    fin_cases j <;> rfl
  have hreads : List.range' (input + o) (w / 8 * 4) ++ es = List.range' (input + o + w / 8 * 0) (w / 8) ++
      (List.range' (input + o + w / 8 * 1) (w / 8) ++ (List.range' (input + o + w / 8 * 2) (w / 8) ++
        (List.range' (input + o + w / 8 * 3) (w / 8) ++ es))) := by
    have hcut : ∀ i, List.range' (input + o) (w / 8 * i) ++ List.range' (input + o + w / 8 * i) (w / 8) =
        List.range' (input + o) (w / 8 * (i + 1)) := by
      intro i
      rw [List.range'_append_1, Nat.mul_succ]
    simp only [← List.append_assoc]
    rw [← hcut 3, ← hcut 2, ← hcut 1, ← hcut 0, Nat.mul_zero, List.range'_zero, List.nil_append]
  rw [hlanes, show input + (o + w / 8 * 4) = input + o + w / 8 + w / 8 + w / 8 + w / 8 by omega] at hf
  rw [hreads]
  refine (hword 0 (by decide)).bind ?_
  rw [show input + o + w / 8 = input + o + w / 8 * 1 by omega]
  refine (hword 1 (by decide)).bind ?_
  rw [show input + o + w / 8 * 1 + w / 8 = input + o + w / 8 * 2 by omega]
  refine (hword 2 (by decide)).bind ?_
  rw [show input + o + w / 8 * 2 + w / 8 = input + o + w / 8 * 3 by omega]
  refine (hword 3 (by decide)).bind ?_
  rw [show input + o + w / 8 * 3 + w / 8 = input + o + w / 8 + w / 8 + w / 8 + w / 8 by omega]
  exact hf

theorem stripeLoop_logs (hb : Buffer mem input len b) (round : BitVec w → BitVec w → BitVec w) (n : Nat)
    {k : Nat} (hk : n < k)
    (hle : o + w / 8 * 4 * (n + 1) ≤ len) (hlt : len < o + w / 8 * 4 * (n + 2)) (v : Fin 4 → BitVec w) :
    Logs (stripeLoop round mem (input + len - w / 8 * 4) k (input + o) v)
      (input + o + w / 8 * 4 * (n + 1), lanesOn round b (n + 1) o v)
      (List.range' (input + o) (w / 8 * 4 * (n + 1))) := by
  induction n generalizing o k v with
  | zero =>
    cases k with
    | zero => exact absurd hk (Nat.lt_irrefl 0)
    | succ k =>
      rw [Nat.zero_add, Nat.mul_one] at hle ⊢
      have hstop : ¬ input + (o + w / 8 * 4) ≤ input + len - w / 8 * 4 := by omega
      have hone := stripe_logs hb round hle v (f := fun p v => if p ≤ input + len - w / 8 * 4 then
        stripeLoop round mem (input + len - w / 8 * 4) k p v else pure (p, v)) (by rw [if_neg hstop]; exact .pure _)
      rw [List.append_nil, ← Nat.add_assoc] at hone
      exact hone
  | succ n ih =>
    cases k with
    | zero => exact absurd hk (Nat.not_lt_zero _)
    | succ k =>
      have hmul : w / 8 * 4 * (n + 1 + 1) = w / 8 * 4 + w / 8 * 4 * (n + 1) := by rw [Nat.mul_succ, Nat.add_comm]
      have hnext : w / 8 * 4 * (n + 1 + 2) = w / 8 * 4 + w / 8 * 4 * (n + 2) := by
        rw [Nat.mul_succ _ (n + 2), Nat.add_comm]
      have hfirst : w / 8 * 4 ≤ w / 8 * 4 * (n + 1) := Nat.le_mul_of_pos_right _ (Nat.succ_pos n)
      have hgo : input + (o + w / 8 * 4) ≤ input + len - w / 8 * 4 := by omega
      have hrest := ih (o := o + w / 8 * 4) (Nat.lt_of_succ_lt_succ hk) (by omega) (by omega)
        fun j => round (v j) (wordAt w b (o + w / 8 * j))
      have hfit : o + w / 8 * 4 ≤ len := by omega
      have hone := stripe_logs hb round hfit v (f := fun p v => if p ≤ input + len - w / 8 * 4 then
        stripeLoop round mem (input + len - w / 8 * 4) k p v else pure (p, v)) (by rw [if_pos hgo]; exact hrest)
      rw [← Nat.add_assoc input o, List.range'_append_1, ← hmul,
        show input + o + w / 8 * 4 + w / 8 * 4 * (n + 1) = input + o + w / 8 * 4 * (n + 1 + 1) by omega] at hone
      exact hone

theorem wordLoop_logs (hb : Buffer mem input len b) (step : BitVec w → BitVec w' → BitVec w) (n : Nat)
    {k : Nat} (hk : n < k)
    (hle : o + w' / 8 * n ≤ len) (hlt : len < o + w' / 8 * (n + 1)) (h : BitVec w) :
    Logs (wordLoop step mem (input + len) k (input + o) h) (input + o + w' / 8 * n, wordsOn step b n o h)
      (List.range' (input + o) (w' / 8 * n)) := by
  induction n generalizing o k h with
  | zero =>
    cases k with
    | zero => exact absurd hk (Nat.lt_irrefl 0)
    | succ k =>
      unfold wordLoop
      rw [if_neg (by omega), Nat.mul_zero]
      exact .pure _
  | succ n ih =>
    cases k with
    | zero => exact absurd hk (Nat.not_lt_zero _)
    | succ k =>
      have hmul : w' / 8 * (n + 1) = w' / 8 + w' / 8 * n := by rw [Nat.mul_succ, Nat.add_comm]
      have hnext : w' / 8 * (n + 1 + 1) = w' / 8 + w' / 8 * (n + 1) := by rw [Nat.mul_succ, Nat.add_comm]
      unfold wordLoop
      rw [if_pos (by omega), hmul, ← List.range'_append_1, ← Nat.add_assoc (input + o), Nat.add_assoc input o]
      refine (getUnalignedLe_logs hb (by omega)).bind (ih (Nat.lt_of_succ_lt_succ hk) ?_ ?_ _)
      · omega
      · omega

/-! ## The functions -/

theorem xxh32_logs (hb : Buffer mem input len b) (seed : BitVec 32) :
    Logs (xxh32 mem input len seed) (digest32 b len seed) (List.range' input len) := by
  have hhead : Logs (if 16 ≤ len then do
        let r ← stripeLoop xxh32Round mem (input + len - 16) (len + 1) input (xxh32Start seed)
        pure (r.1, xxh32Join r.2)
      else pure (input, seed + PRIME32_5))
      (input + 16 * (len / 16), if 16 ≤ len then xxh32Join (lanesOn xxh32Round b (len / 16) 0 (xxh32Start seed))
        else seed + PRIME32_5)
      (List.range' input (16 * (len / 16))) := by
    by_cases hlen : 16 ≤ len
    · rw [if_pos hlen, if_pos hlen]
      obtain ⟨n, hn⟩ : ∃ n, len / 16 = n + 1 := ⟨len / 16 - 1, by omega⟩
      have hloop :=
        stripeLoop_logs (o := 0) (k := len + 1) hb xxh32Round n (by omega) (by omega) (by omega) (xxh32Start seed)
      rw [hn, ← List.append_nil (List.range' input (16 * (n + 1)))]
      exact hloop.bind (.pure _)
    · rw [if_neg hlen, if_neg hlen, show len / 16 = 0 by omega]
      exact .pure _
  have hwords : ∀ h, Logs (wordLoop xxh32Word mem (input + len) (len + 1) (input + 16 * (len / 16)) h)
      (input + 4 * (len / 4), wordsOn xxh32Word b (len % 16 / 4) (16 * (len / 16)) h)
      (List.range' (input + 16 * (len / 16)) (4 * (len % 16 / 4))) := by
    intro h
    rw [show input + 4 * (len / 4) = input + 16 * (len / 16) + 4 * (len % 16 / 4) by omega]
    exact wordLoop_logs hb xxh32Word (len % 16 / 4) (by omega) (by omega) (by omega) h
  have hbytes : ∀ h, Logs (wordLoop xxh32Byte mem (input + len) (len + 1) (input + 4 * (len / 4)) h)
      (input + 4 * (len / 4) + 1 * (len % 4), wordsOn xxh32Byte b (len % 4) (4 * (len / 4)) h)
      (List.range' (input + 4 * (len / 4)) (1 * (len % 4))) :=
    wordLoop_logs hb xxh32Byte (len % 4) (by omega) (by omega) (by omega)
  have hcut : List.range' input len = List.range' input (16 * (len / 16)) ++
    (List.range' (input + 16 * (len / 16)) (4 * (len % 16 / 4)) ++
      (List.range' (input + 4 * (len / 4)) (1 * (len % 4)) ++ [])) := by
    rw [List.append_nil, show input + 4 * (len / 4) = input + 16 * (len / 16) + 4 * (len % 16 / 4) by omega,
      List.range'_append_1,
      List.range'_append_1]
    congr 1
    omega
  unfold xxh32
  rw [hcut]
  refine hhead.bind ?_
  refine (hwords _).bind ?_
  exact (hbytes _).bind (.pure _)

theorem xxh64_logs (hb : Buffer mem input len b) (seed : BitVec 64) :
    Logs (xxh64 mem input len seed) (digest64 b len seed) (List.range' input len) := by
  have hhead : Logs (if 32 ≤ len then do
        let r ← stripeLoop xxh64Round mem (input + len - 32) (len + 1) input (xxh64Start seed)
        pure (r.1, xxh64Join r.2)
      else pure (input, seed + PRIME64_5))
      (input + 32 * (len / 32), if 32 ≤ len then xxh64Join (lanesOn xxh64Round b (len / 32) 0 (xxh64Start seed))
        else seed + PRIME64_5)
      (List.range' input (32 * (len / 32))) := by
    by_cases hlen : 32 ≤ len
    · rw [if_pos hlen, if_pos hlen]
      obtain ⟨n, hn⟩ : ∃ n, len / 32 = n + 1 := ⟨len / 32 - 1, by omega⟩
      have hloop :=
        stripeLoop_logs (o := 0) (k := len + 1) hb xxh64Round n (by omega) (by omega) (by omega) (xxh64Start seed)
      rw [hn, ← List.append_nil (List.range' input (32 * (n + 1)))]
      exact hloop.bind (.pure _)
    · rw [if_neg hlen, if_neg hlen, show len / 32 = 0 by omega]
      exact .pure _
  have hwords : ∀ h, Logs (wordLoop xxh64Word mem (input + len) (len + 1) (input + 32 * (len / 32)) h)
      (input + 8 * (len / 8), wordsOn xxh64Word b (len % 32 / 8) (32 * (len / 32)) h)
      (List.range' (input + 32 * (len / 32)) (8 * (len % 32 / 8))) := by
    intro h
    rw [show input + 8 * (len / 8) = input + 32 * (len / 32) + 8 * (len % 32 / 8) by omega]
    exact wordLoop_logs hb xxh64Word (len % 32 / 8) (by omega) (by omega) (by omega) h
  have hhalf : ∀ h, Logs (if input + 8 * (len / 8) + 4 ≤ input + len then do
        let k ← getUnalignedLe 32 mem (input + 8 * (len / 8))
        pure (input + 8 * (len / 8) + 4, xxh64Half h k)
      else pure (input + 8 * (len / 8), h))
      (input + 4 * (len / 4), wordsOn xxh64Half b (len % 8 / 4) (8 * (len / 8)) h)
      (List.range' (input + 8 * (len / 8)) (4 * (len % 8 / 4))) := by
    intro h
    by_cases hfour : len % 8 < 4
    · rw [if_neg (by omega), show len % 8 / 4 = 0 by omega, show 4 * (len / 4) = 8 * (len / 8) by omega]
      exact .pure _
    · rw [if_pos (by omega), show len % 8 / 4 = 1 by omega,
        show input + 4 * (len / 4) = input + 8 * (len / 8) + 4 by omega,
        ← List.append_nil (List.range' (input + 8 * (len / 8)) (4 * 1))]
      exact (getUnalignedLe_logs hb (by omega)).bind (.pure _)
  have hbytes : ∀ h, Logs (wordLoop xxh64Byte mem (input + len) (len + 1) (input + 4 * (len / 4)) h)
      (input + 4 * (len / 4) + 1 * (len % 4), wordsOn xxh64Byte b (len % 4) (4 * (len / 4)) h)
      (List.range' (input + 4 * (len / 4)) (1 * (len % 4))) :=
    wordLoop_logs hb xxh64Byte (len % 4) (by omega) (by omega) (by omega)
  have hcut : List.range' input len = List.range' input (32 * (len / 32)) ++
    (List.range' (input + 32 * (len / 32)) (8 * (len % 32 / 8)) ++
      (List.range' (input + 8 * (len / 8)) (4 * (len % 8 / 4)) ++
          (List.range' (input + 4 * (len / 4)) (1 * (len % 4)) ++ []))) := by
    rw [List.append_nil, show input + 4 * (len / 4) = input + 8 * (len / 8) + 4 * (len % 8 / 4) by omega,
      List.range'_append_1,
      show input + 8 * (len / 8) = input + 32 * (len / 32) + 8 * (len % 32 / 8) by omega, List.range'_append_1,
        List.range'_append_1]
    congr 1
    omega
  unfold xxh64
  rw [hcut]
  refine hhead.bind ?_
  refine (hwords _).bind ?_
  refine (hhalf _).bind ?_
  exact (hbytes _).bind (.pure _)

theorem wordAt_congr (h : ∀ i, o ≤ i → i < o + w / 8 → b i = b' i) : wordAt w b o = wordAt w b' o := by
  unfold wordAt
  congr 2
  refine List.map_congr_left fun i hi => ?_
  have hlt := List.mem_range.mp hi
  rw [h (o + i) (by omega) (by omega)]

theorem wordAt_ne (hw : 8 ∣ w) {i : Nat} (hi : o ≤ i) (hi' : i < o + w / 8) (hne : b i ≠ b' i) :
    wordAt w b o ≠ wordAt w b' o := by
  have hsmall : ∀ b : Nat → Byte, ∀ l ∈ (List.range (w / 8)).map fun j => (b (o + j)).toNat, l < 256 := by
    intro b l hl
    obtain ⟨j, -, rfl⟩ := List.mem_map.mp hl
    exact (b (o + j)).isLt
  have hlt : ∀ b : Nat → Byte, Nat.ofDigits 256 ((List.range (w / 8)).map fun j => (b (o + j)).toNat) < 2 ^ w := by
    intro b
    have hpow : 256 ^ (w / 8) = 2 ^ w := by
      rw [show (256 : Nat) = 2 ^ 8 from rfl, ← Nat.pow_mul, Nat.mul_div_cancel' hw]
    have hdigits := Nat.ofDigits_lt_base_pow_length (by decide) (hsmall b)
    rwa [List.length_map, List.length_range, hpow] at hdigits
  intro heq
  have hnat := congrArg BitVec.toNat heq
  unfold wordAt at hnat
  rw [BitVec.toNat_ofNat, BitVec.toNat_ofNat, Nat.mod_eq_of_lt (hlt b), Nat.mod_eq_of_lt (hlt b')] at hnat
  have hlist := Nat.ofDigits_inj_of_len_eq (by decide) (by simp) (hsmall b) (hsmall b') hnat
  have hat := List.map_inj_left.mp hlist (i - o) (List.mem_range.mpr (by omega))
  rw [show o + (i - o) = i by omega] at hat
  exact hne (BitVec.eq_of_toNat_eq hat)

/-! ## What the loops tell apart -/

section
variable {step : BitVec w → BitVec w' → BitVec w} {n : Nat}

theorem wordsOn_congr (hsame : ∀ i, o ≤ i → i < o + w' / 8 * n → b i = b' i) (h : BitVec w) :
    wordsOn step b n o h = wordsOn step b' n o h := by
  induction n generalizing o h with
  | zero => rfl
  | succ n ih =>
    rw [Nat.mul_succ] at hsame
    unfold wordsOn
    rw [wordAt_congr fun i h1 h2 => hsame i h1 (by omega), ih fun i h1 h2 => hsame i (by omega) (by omega)]

/-- Accumulators that differ still differ after the same words. -/
theorem wordsOn_apart (hacc : ∀ k, Function.Injective fun h => step h k)
    (hsame : ∀ i, o ≤ i → i < o + w' / 8 * n → b i = b' i)
    {h h' : BitVec w} (hne : h ≠ h') : wordsOn step b n o h ≠ wordsOn step b' n o h' := by
  induction n generalizing o h h' with
  | zero => exact hne
  | succ n ih =>
    rw [Nat.mul_succ] at hsame
    unfold wordsOn
    rw [wordAt_congr fun i h1 h2 => hsame i h1 (by omega)]
    exact ih (fun i h1 h2 => hsame i (by omega) (by omega)) fun heq => hne (hacc _ heq)

/-- One word that differs. -/
theorem wordsOn_differ (hw : 8 ∣ w') (hacc : ∀ k, Function.Injective fun h => step h k)
    (hin : ∀ h, Function.Injective (step h))
    {q : Nat} (hq : q < n) (hsame : ∀ i, o ≤ i → i < o + w' / 8 * n →
      ¬ (o + w' / 8 * q ≤ i ∧ i < o + w' / 8 * (q + 1)) → b i = b' i)
    {i : Nat} (hi : o + w' / 8 * q ≤ i) (hi' : i < o + w' / 8 * (q + 1)) (hne : b i ≠ b' i) (h : BitVec w) :
    wordsOn step b n o h ≠ wordsOn step b' n o h := by
  induction n generalizing o q h with
  | zero => exact absurd hq (Nat.not_lt_zero q)
  | succ n ih =>
    have hn := Nat.mul_add_one (w' / 8) n
    have hq1 := Nat.mul_add_one (w' / 8) q
    unfold wordsOn
    cases q with
    | zero =>
      rw [Nat.mul_zero] at hq1 hi hsame
      exact wordsOn_apart hacc (fun j h1 h2 => hsame j (by omega) (by omega) (by omega)) fun heq =>
        wordAt_ne hw (by omega) (by omega) hne (hin _ heq)
    | succ q =>
      have hq2 := Nat.mul_add_one (w' / 8) q
      have hle := Nat.mul_le_mul_left (w' / 8) (Nat.le_of_lt_succ hq)
      rw [wordAt_congr fun j h1 h2 => hsame j h1 (by omega) (by omega)]
      exact ih (Nat.lt_of_succ_lt_succ hq) (fun j h1 h2 h3 => hsame j (by omega) (by omega) (by omega))
        (by omega) (by omega) _

end

section
variable {round : BitVec w → BitVec w → BitVec w} {n : Nat}

/-- Just accumulator `j` differs. -/
def OnlyAt (j : Fin 4) (v v' : Fin 4 → BitVec w) : Prop := v j ≠ v' j ∧ ∀ k, k ≠ j → v k = v' k

/-- The words of one stripe lie inside it. -/
theorem word_le_stripe (j : Fin 4) : w / 8 * j + w / 8 ≤ w / 8 * 4 := by
  rw [← Nat.mul_add_one]
  exact Nat.mul_le_mul_left _ j.isLt

theorem lanesOn_congr (hsame : ∀ i, o ≤ i → i < o + w / 8 * 4 * n → b i = b' i) (v : Fin 4 → BitVec w) :
    lanesOn round b n o v = lanesOn round b' n o v := by
  induction n generalizing o v with
  | zero => rfl
  | succ n ih =>
    rw [Nat.mul_add_one] at hsame
    have hwords : ∀ j : Fin 4, wordAt w b (o + w / 8 * j) = wordAt w b' (o + w / 8 * j) := by
      intro j
      have hin := word_le_stripe (w := w) j
      exact wordAt_congr fun i h1 h2 => hsame i (by omega) (by omega)
    unfold lanesOn
    simp only [hwords]
    exact ih (fun i h1 h2 => hsame i (by omega) (by omega)) _

/-- An accumulator that differs, and no other, still does after the same stripes. -/
theorem lanesOn_onlyAt (hacc : ∀ k, Function.Injective fun a => round a k)
    (hsame : ∀ i, o ≤ i → i < o + w / 8 * 4 * n → b i = b' i)
    {j : Fin 4} {v v' : Fin 4 → BitVec w} (hv : OnlyAt j v v') :
      OnlyAt j (lanesOn round b n o v) (lanesOn round b' n o v') := by
  induction n generalizing o v v' with
  | zero => exact hv
  | succ n ih =>
    rw [Nat.mul_add_one] at hsame
    have hwords : ∀ j : Fin 4, wordAt w b (o + w / 8 * j) = wordAt w b' (o + w / 8 * j) := by
      intro j
      have hin := word_le_stripe (w := w) j
      exact wordAt_congr fun i h1 h2 => hsame i (by omega) (by omega)
    unfold lanesOn
    simp only [hwords]
    exact ih (fun i h1 h2 => hsame i (by omega) (by omega)) ⟨fun heq => hv.1 (hacc _ heq),
      fun k hk => congrArg (round · _) (hv.2 k hk)⟩

/-- One word that differs, number `j` of stripe `q`. -/
theorem lanesOn_differ (hw : 8 ∣ w) (hacc : ∀ k, Function.Injective fun a => round a k)
    (hin : ∀ a, Function.Injective (round a))
    {q : Nat} (hq : q < n) (j : Fin 4)
    (hsame : ∀ i, o ≤ i → i < o + w / 8 * 4 * n →
      ¬ (o + w / 8 * 4 * q + w / 8 * j ≤ i ∧ i < o + w / 8 * 4 * q + w / 8 * j + w / 8) → b i = b' i)
    {i : Nat} (hi : o + w / 8 * 4 * q + w / 8 * j ≤ i) (hi' : i < o + w / 8 * 4 * q + w / 8 * j + w / 8)
    (hne : b i ≠ b' i)
    (v : Fin 4 → BitVec w) : OnlyAt j (lanesOn round b n o v) (lanesOn round b' n o v) := by
  induction n generalizing o q v with
  | zero => exact absurd hq (Nat.not_lt_zero q)
  | succ n ih =>
    have hn := Nat.mul_add_one (w / 8 * 4) n
    have hj := word_le_stripe (w := w) j
    unfold lanesOn
    cases q with
    | zero =>
      rw [Nat.mul_zero, Nat.add_zero] at hi hi' hsame
      refine lanesOn_onlyAt hacc (fun i h1 h2 => hsame i (by omega) (by omega) (by omega))
        ⟨fun heq => ?_, fun k hk => ?_⟩
      · exact wordAt_ne hw hi hi' hne (hin _ heq)
      · -- The words of a stripe do not overlap.
        have hkin := word_le_stripe (w := w) k
        have happart : w / 8 * k + w / 8 ≤ w / 8 * j ∨ w / 8 * j + w / 8 ≤ w / 8 * k := by
          rw [← Nat.mul_add_one, ← Nat.mul_add_one]
          rcases Nat.lt_or_gt_of_ne (fun h => hk (Fin.ext h)) with hlt | hgt
          · exact .inl (Nat.mul_le_mul_left _ hlt)
          · exact .inr (Nat.mul_le_mul_left _ hgt)
        have hword : wordAt w b (o + w / 8 * k) = wordAt w b' (o + w / 8 * k) :=
          wordAt_congr fun i h1 h2 => hsame i (by omega) (by omega) (by omega)
        exact congrArg _ hword
    | succ q =>
      have hq2 := Nat.mul_add_one (w / 8 * 4) q
      have hle := Nat.mul_le_mul_left (w / 8 * 4) (Nat.le_of_lt_succ hq)
      have hwords : ∀ k : Fin 4, wordAt w b (o + w / 8 * k) = wordAt w b' (o + w / 8 * k) := by
        intro k
        have hkin := word_le_stripe (w := w) k
        exact wordAt_congr fun i h1 h2 => hsame i (by omega) (by omega) (by omega)
      simp only [hwords]
      exact ih (Nat.lt_of_succ_lt_succ hq) (fun i h1 h2 h3 => hsame i (by omega) (by omega) (by omega))
        (by omega) (by omega) _

end

/-! ## Steps that lose nothing -/

theorem xxh32Round_injective (v : BitVec 32) : Function.Injective (xxh32Round v) := fun _ _ h =>
  mul_odd_injective (by decide) ((BitVec.add_right_inj v).mp (rotl_mul_injective (r := 13) (by decide) (by decide) h))

theorem xxh32Round_injective_acc (k : BitVec 32) : Function.Injective fun v => xxh32Round v k := fun _ _ h =>
  (BitVec.add_left_inj _).mp (rotl_mul_injective (r := 13) (by decide) (by decide) h)

theorem xxh32Word_injective (v : BitVec 32) : Function.Injective (xxh32Word v) := fun _ _ h =>
  mul_odd_injective (by decide) ((BitVec.add_right_inj v).mp (rotl_mul_injective (r := 17) (by decide) (by decide) h))

theorem xxh32Word_injective_acc (k : BitVec 32) : Function.Injective fun v => xxh32Word v k := fun _ _ h =>
  (BitVec.add_left_inj _).mp (rotl_mul_injective (r := 17) (by decide) (by decide) h)

theorem xxh32Byte_injective (v : BitVec 32) : Function.Injective (xxh32Byte v) := fun _ _ h =>
  setWidth_injective (by decide) (mul_odd_injective (by decide) ((BitVec.add_right_inj v).mp
    (rotl_mul_injective (r := 11) (by decide) (by decide) h)))

theorem xxh32Byte_injective_acc (k : Byte) : Function.Injective fun v => xxh32Byte v k := fun _ _ h =>
  (BitVec.add_left_inj _).mp (rotl_mul_injective (r := 11) (by decide) (by decide) h)

theorem xxh32Final_injective : Function.Injective xxh32Final := fun _ _ h =>
  xorshift_injective (k := 15) (by decide) (mul_odd_injective (by decide) (xorshift_injective (k := 13) (by decide)
    (mul_odd_injective (by decide) (xorshift_injective (k := 16) (by decide) h))))

theorem xxh32Join_ne {j : Fin 4} {v v' : Fin 4 → BitVec 32} (h : OnlyAt j v v') : xxh32Join v ≠ xxh32Join v' := by
  intro heq
  obtain ⟨hne, hsame⟩ := h
  unfold xxh32Join at heq
  match j with
  | 0 =>
    rw [hsame 1 (by decide), hsame 2 (by decide), hsame 3 (by decide)] at heq
    exact hne (rotl_injective (r := 1) (by decide)
      ((BitVec.add_left_inj _).mp ((BitVec.add_left_inj _).mp ((BitVec.add_left_inj _).mp heq))))
  | 1 =>
    rw [hsame 0 (by decide), hsame 2 (by decide), hsame 3 (by decide)] at heq
    exact hne (rotl_injective (r := 7) (by decide)
      ((BitVec.add_right_inj _).mp ((BitVec.add_left_inj _).mp ((BitVec.add_left_inj _).mp heq))))
  | 2 =>
    rw [hsame 0 (by decide), hsame 1 (by decide), hsame 3 (by decide)] at heq
    exact hne (rotl_injective (r := 12) (by decide) ((BitVec.add_right_inj _).mp ((BitVec.add_left_inj _).mp heq)))
  | 3 =>
    rw [hsame 0 (by decide), hsame 1 (by decide), hsame 2 (by decide)] at heq
    exact hne (rotl_injective (r := 18) (by decide) ((BitVec.add_right_inj _).mp heq))

theorem xxh64Round_injective (v : BitVec 64) : Function.Injective (xxh64Round v) := fun _ _ h =>
  mul_odd_injective (by decide) ((BitVec.add_right_inj v).mp (rotl_mul_injective (r := 31) (by decide) (by decide) h))

theorem xxh64Word_injective (v : BitVec 64) : Function.Injective (xxh64Word v) := fun _ _ h =>
  xxh64Round_injective 0 ((BitVec.xor_right_inj v).mp
    (rotl_mul_injective (r := 27) (by decide) (by decide) ((BitVec.add_left_inj _).mp h)))

theorem xxh64Word_injective_acc (k : BitVec 64) : Function.Injective fun v => xxh64Word v k := fun _ _ h =>
  (BitVec.xor_left_inj _).mp (rotl_mul_injective (r := 27) (by decide) (by decide) ((BitVec.add_left_inj _).mp h))

theorem xxh64Half_injective (v : BitVec 64) : Function.Injective (xxh64Half v) := fun _ _ h =>
  setWidth_injective (by decide) (mul_odd_injective (by decide) ((BitVec.xor_right_inj v).mp
    (rotl_mul_injective (r := 23) (by decide) (by decide) ((BitVec.add_left_inj _).mp h))))

theorem xxh64Half_injective_acc (k : BitVec 32) : Function.Injective fun v => xxh64Half v k := fun _ _ h =>
  (BitVec.xor_left_inj _).mp (rotl_mul_injective (r := 23) (by decide) (by decide) ((BitVec.add_left_inj _).mp h))

theorem xxh64Byte_injective (v : BitVec 64) : Function.Injective (xxh64Byte v) := fun _ _ h =>
  setWidth_injective (by decide) (mul_odd_injective (by decide) ((BitVec.xor_right_inj v).mp
    (rotl_mul_injective (r := 11) (by decide) (by decide) h)))

theorem xxh64Byte_injective_acc (k : Byte) : Function.Injective fun v => xxh64Byte v k := fun _ _ h =>
  (BitVec.xor_left_inj _).mp (rotl_mul_injective (r := 11) (by decide) (by decide) h)

theorem xxh64Final_injective : Function.Injective xxh64Final := fun _ _ h =>
  xorshift_injective (k := 33) (by decide) (mul_odd_injective (by decide) (xorshift_injective (k := 29) (by decide)
    (mul_odd_injective (by decide) (xorshift_injective (k := 32) (by decide) h))))

/-! ## What the hashes tell apart -/

/-- Two buffers of `len` bytes that differ between `lo` and `hi` and nowhere else. -/
def DifferIn (b b' : Nat → Byte) (len lo hi : Nat) : Prop :=
  (∀ i < len, ¬ (lo ≤ i ∧ i < hi) → b i = b' i) ∧ ∃ i, lo ≤ i ∧ i < hi ∧ b i ≠ b' i

/-- What `xxh32` takes up in one step: an aligned word, or one of the last `len % 4` bytes. -/
def Unit32 (len lo hi : Nat) : Prop := hi ≤ len ∧ (4 ∣ lo ∧ hi = lo + 4 ∨ 4 * (len / 4) ≤ lo ∧ hi = lo + 1)

/-- What `xxh64` takes up in one step behind its stripes: words of eight bytes, at most one of
four, at most three bytes. -/
def Unit64 (len lo hi : Nat) : Prop :=
  32 * (len / 32) ≤ lo ∧ hi ≤ len ∧ (8 ∣ lo ∧ hi = lo + 8 ∨ lo = 8 * (len / 8) ∧ hi = lo + 4 ∨
    4 * (len / 4) ≤ lo ∧ hi = lo + 1)

theorem digest32_ne {lo hi : Nat} (hunit : Unit32 len lo hi) (hdiff : DifferIn b b' len lo hi) (seed : BitVec 32) :
    digest32 b len seed ≠ digest32 b' len seed := by
  obtain ⟨hsame, i, hi1, hi2, hne⟩ := hdiff
  obtain ⟨hlen, ⟨hdvd, rfl⟩ | ⟨htail, rfl⟩⟩ := hunit
  · refine xxh32Final_injective.ne (wordsOn_apart xxh32Byte_injective_acc
      (fun i h1 h2 => hsame i (by omega) (by omega)) ?_)
    by_cases hstripes : lo < 16 * (len / 16)
    · -- Word `lo % 16 / 4` of stripe `lo / 16`.
      refine wordsOn_apart xxh32Word_injective_acc (fun i h1 h2 => hsame i (by omega) (by omega)) fun heq => ?_
      have hjoin := (BitVec.add_left_inj _).mp heq
      rw [if_pos (by omega), if_pos (by omega)] at hjoin
      obtain ⟨j, hj⟩ : ∃ j : Fin 4, (j : Nat) = lo % 16 / 4 := ⟨⟨lo % 16 / 4, by omega⟩, rfl⟩
      refine xxh32Join_ne (lanesOn_differ (by decide) xxh32Round_injective_acc xxh32Round_injective
        (q := lo / 16) (by omega) j
        (fun i h1 h2 h3 => hsame i (by omega) (by omega)) (by omega) (by omega) hne _) hjoin
    · have hhead : ∀ n, lanesOn xxh32Round b (len / 16) 0 n = lanesOn xxh32Round b' (len / 16) 0 n :=
        lanesOn_congr fun i h1 h2 => hsame i (by omega) (by omega)
      rw [hhead]
      exact wordsOn_differ (by decide) xxh32Word_injective_acc xxh32Word_injective
        (q := (lo - 16 * (len / 16)) / 4) (by omega)
        (fun i h1 h2 h3 => hsame i (by omega) (by omega)) (by omega) (by omega) hne _
  · have hhead : ∀ n, lanesOn xxh32Round b (len / 16) 0 n = lanesOn xxh32Round b' (len / 16) 0 n :=
      lanesOn_congr fun i h1 h2 => hsame i (by omega) (by omega)
    have hwords : ∀ h, wordsOn xxh32Word b (len % 16 / 4) (16 * (len / 16)) h =
        wordsOn xxh32Word b' (len % 16 / 4) (16 * (len / 16)) h :=
      wordsOn_congr fun i h1 h2 => hsame i (by omega) (by omega)
    unfold digest32
    dsimp only
    rw [hhead, hwords]
    exact xxh32Final_injective.ne (wordsOn_differ (by decide) xxh32Byte_injective_acc xxh32Byte_injective
      (q := lo - 4 * (len / 4)) (by omega)
      (fun i h1 h2 h3 => hsame i (by omega) (by omega)) (by omega) (by omega) hne _)

theorem digest64_ne {lo hi : Nat} (hunit : Unit64 len lo hi) (hdiff : DifferIn b b' len lo hi) (seed : BitVec 64) :
    digest64 b len seed ≠ digest64 b' len seed := by
  obtain ⟨hsame, i, hi1, hi2, hne⟩ := hdiff
  obtain ⟨hlow, hlen, hkind⟩ := hunit
  have hhead : ∀ v, lanesOn xxh64Round b (len / 32) 0 v = lanesOn xxh64Round b' (len / 32) 0 v :=
    lanesOn_congr fun i h1 h2 => hsame i (by omega) (by omega)
  unfold digest64
  dsimp only
  rw [hhead]
  obtain ⟨hdvd, rfl⟩ | ⟨rfl, rfl⟩ | ⟨htail, rfl⟩ := hkind
  · refine xxh64Final_injective.ne (wordsOn_apart xxh64Byte_injective_acc
      (fun i h1 h2 => hsame i (by omega) (by omega)) ?_)
    refine wordsOn_apart xxh64Half_injective_acc (fun i h1 h2 => hsame i (by omega) (by omega)) ?_
    exact wordsOn_differ (by decide) xxh64Word_injective_acc xxh64Word_injective
      (q := (lo - 32 * (len / 32)) / 8) (by omega)
      (fun i h1 h2 h3 => hsame i (by omega) (by omega)) (by omega) (by omega) hne _
  · have hwords : ∀ h, wordsOn xxh64Word b (len % 32 / 8) (32 * (len / 32)) h =
        wordsOn xxh64Word b' (len % 32 / 8) (32 * (len / 32)) h :=
      wordsOn_congr fun i h1 h2 => hsame i (by omega) (by omega)
    rw [hwords]
    refine xxh64Final_injective.ne (wordsOn_apart xxh64Byte_injective_acc
      (fun i h1 h2 => hsame i (by omega) (by omega)) ?_)
    exact wordsOn_differ (by decide) xxh64Half_injective_acc xxh64Half_injective (q := 0) (by omega)
      (fun i h1 h2 h3 => hsame i (by omega) (by omega)) (by omega) (by omega) hne _
  · have hwords : ∀ h, wordsOn xxh64Word b (len % 32 / 8) (32 * (len / 32)) h =
        wordsOn xxh64Word b' (len % 32 / 8) (32 * (len / 32)) h :=
      wordsOn_congr fun i h1 h2 => hsame i (by omega) (by omega)
    have hhalf : ∀ h, wordsOn xxh64Half b (len % 8 / 4) (8 * (len / 8)) h =
        wordsOn xxh64Half b' (len % 8 / 4) (8 * (len / 8)) h :=
      wordsOn_congr fun i h1 h2 => hsame i (by omega) (by omega)
    rw [hwords, hhalf]
    exact xxh64Final_injective.ne (wordsOn_differ (by decide) xxh64Byte_injective_acc xxh64Byte_injective
      (q := lo - 4 * (len / 4)) (by omega)
      (fun i h1 h2 h3 => hsame i (by omega) (by omega)) (by omega) (by omega) hne _)

/-- Changing one word the loops take up, or any part of it, changes the hash. -/
theorem xxh32_tells_apart {mem' : Nat → Option Byte} {input' lo hi : Nat} (hb : Buffer mem input len b)
    (hb' : Buffer mem' input' len b')
    (hunit : Unit32 len lo hi) (hdiff : DifferIn b b' len lo hi) (seed : BitVec 32) (log : List Nat) :
    ∃ h h', h ≠ h' ∧ xxh32 mem input len seed log = some (h, log ++ List.range' input len) ∧
      xxh32 mem' input' len seed log = some (h', log ++ List.range' input' len) :=
  ⟨_, _, digest32_ne hunit hdiff seed, xxh32_logs hb seed log, xxh32_logs hb' seed log⟩

/-- Five bytes at 0 and five at 8, the last ones different. -/
theorem xxh32_tells_apart_last :
    ∃ h h', h ≠ h' ∧ xxh32 (fun a => if a = 12 then some 7 else some 0) 0 5 0 [] = some (h, [0, 1, 2, 3, 4]) ∧
      xxh32 (fun a => if a = 12 then some 7 else some 0) 8 5 0 [] = some (h', [8, 9, 10, 11, 12]) := by
  have hb : Buffer (fun a => if a = 12 then some 7 else some 0) 0 5 fun _ => 0 := fun i hi => if_neg (by omega)
  have hb' : Buffer (fun a => if a = 12 then some 7 else some 0) 8 5 fun i => if i = 4 then 7 else 0 := by
    intro i hi
    by_cases h : i = 4 <;> simp [h]
    omega
  have hdiff : DifferIn (fun _ => 0) (fun i => if i = 4 then 7 else 0) 5 4 5 :=
    ⟨fun i _ hi => (if_neg (by omega)).symm, 4, by decide⟩
  exact xxh32_tells_apart hb hb' ⟨Nat.le_refl _, .inr ⟨by decide, rfl⟩⟩ hdiff 0 []

theorem xxh64_tells_apart {mem' : Nat → Option Byte} {input' lo hi : Nat} (hb : Buffer mem input len b)
    (hb' : Buffer mem' input' len b')
    (hunit : Unit64 len lo hi) (hdiff : DifferIn b b' len lo hi) (seed : BitVec 64) (log : List Nat) :
    ∃ h h', h ≠ h' ∧ xxh64 mem input len seed log = some (h, log ++ List.range' input len) ∧
      xxh64 mem' input' len seed log = some (h', log ++ List.range' input' len) :=
  ⟨_, _, digest64_ne hunit hdiff seed, xxh64_logs hb seed log, xxh64_logs hb' seed log⟩

/-- Five bytes again: the first four are the word of four bytes. -/
theorem xxh64_tells_apart_half :
    ∃ h h', h ≠ h' ∧ xxh64 (fun a => if a = 9 then some 7 else some 0) 0 5 0 [] = some (h, [0, 1, 2, 3, 4]) ∧
      xxh64 (fun a => if a = 9 then some 7 else some 0) 8 5 0 [] = some (h', [8, 9, 10, 11, 12]) := by
  have hb : Buffer (fun a => if a = 9 then some 7 else some 0) 0 5 fun _ => 0 := fun i hi => if_neg (by omega)
  have hb' : Buffer (fun a => if a = 9 then some 7 else some 0) 8 5 fun i => if i = 1 then 7 else 0 := by
    intro i hi
    by_cases h : i = 1 <;> simp [h]
    omega
  have hdiff : DifferIn (fun _ => 0) (fun i => if i = 1 then 7 else 0) 5 0 4 :=
    ⟨fun i _ hi => (if_neg (by omega)).symm, 1, by decide⟩
  exact xxh64_tells_apart hb hb' ⟨by decide, by decide, .inr (.inl ⟨rfl, rfl⟩)⟩ hdiff 0 []

theorem xxh_seeds_apart (hb : Buffer mem input len b) (log : List Nat) :
    (len < 16 → Function.Injective fun seed => xxh32 mem input len seed log) ∧
      (len < 32 → Function.Injective fun seed => xxh64 mem input len seed log) := by
  refine ⟨fun hlen seed seed' heq => ?_, fun hlen seed seed' heq => ?_⟩
  · have hdigest : digest32 b len seed = digest32 b len seed' := by
      simpa [xxh32_logs hb seed log, xxh32_logs hb seed' log] using heq
    by_contra hne
    refine xxh32Final_injective.ne (wordsOn_apart xxh32Byte_injective_acc (fun _ _ _ => rfl) ?_) hdigest
    refine wordsOn_apart xxh32Word_injective_acc (fun _ _ _ => rfl) fun hstart => hne ?_
    rw [if_neg (by omega), if_neg (by omega)] at hstart
    exact (BitVec.add_left_inj _).mp ((BitVec.add_left_inj _).mp hstart)
  · have hdigest : digest64 b len seed = digest64 b len seed' := by
      simpa [xxh64_logs hb seed log, xxh64_logs hb seed' log] using heq
    by_contra hne
    refine xxh64Final_injective.ne (wordsOn_apart xxh64Byte_injective_acc (fun _ _ _ => rfl) ?_) hdigest
    refine wordsOn_apart xxh64Half_injective_acc (fun _ _ _ => rfl) ?_
    refine wordsOn_apart xxh64Word_injective_acc (fun _ _ _ => rfl) fun hstart => hne ?_
    rw [if_neg (by omega), if_neg (by omega)] at hstart
    exact (BitVec.add_left_inj _).mp ((BitVec.add_left_inj _).mp hstart)

/-- Fifteen bytes: three words and three bytes to `xxh32`, one word of each width and three bytes
    to `xxh64`. -/
theorem xxh_seeds_apart_fifteen :
    (Function.Injective fun seed => xxh32 (fun a => if a < 15 then some 97 else none) 0 15 seed []) ∧
      Function.Injective fun seed => xxh64 (fun a => if a < 15 then some 97 else none) 0 15 seed [] := by
  have hb : Buffer (fun a => if a < 15 then some 97 else none) 0 15 fun _ => 97 := fun i hi => if_pos (by omega)
  have h := xxh_seeds_apart hb []
  exact ⟨h.1 (by decide), h.2 (by decide)⟩

end KanekFoundations.Hash

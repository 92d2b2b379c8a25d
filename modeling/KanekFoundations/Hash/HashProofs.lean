/-
  KanekFoundations.Hash.HashProofs — how `hash_b79` orders words (see
  `KanekFoundations.Hash.Hash`).

  The hash is the numeral in base 79 of the codes of the first ten bytes, and `79^10` is
  below `2^64`: no round wraps.

  Proved:
  - `hash_orders`: hashes compare as the codes do, in lexicographic order; on the characters
    with a code of their own that is the order of the words.
  - `printable_order_iff`: on printable words it is the order that is left when the characters
    of a code are taken for one. A difference within a code is passed over, and what comes
    later may decide the other way (`order_reversed`).
-/

import KanekFoundations.Lib.Numeral
import KanekFoundations.Hash.Hash

namespace KanekFoundations.Hash

open KanekFoundations.Lib

/-! ## Codes -/

def code (c : Byte) : Int := ascii2Mx79 c.toNat

/-- The codes of the first ten bytes, 0 past the end. -/
def codes (s : CStr) : List Int := padTo code 0 10 s.val

theorem code_step : ∀ n < 255, ascii2Mx79 (n : Nat) ≤ ascii2Mx79 (n + 1 : Nat) := by decide +kernel

theorem ascii2Mx79_mono {m n : Nat} (hmn : m ≤ n) (hn : n < 256) : ascii2Mx79 m ≤ ascii2Mx79 n := by
  induction n, hmn using Nat.le_induction with
  | base => exact Int.le_refl _
  | succ n hmn ih => exact Int.le_trans (ih (by omega)) (code_step n (by omega))

theorem code_mono {c d : Byte} (h : c ≤ d) : code c ≤ code d := ascii2Mx79_mono (BitVec.le_def.mp h) d.isLt

theorem code_digit (c : Byte) : 0 ≤ code c ∧ code c < 79 := by
  have h0 : ascii2Mx79 (0 : Nat) ≤ code c := ascii2Mx79_mono (Nat.zero_le _) c.isLt
  have h255 : code c ≤ ascii2Mx79 (255 : Nat) := ascii2Mx79_mono (Nat.le_of_lt_succ c.isLt) (by decide)
  exact ⟨h0, Int.lt_of_le_of_lt h255 (by decide)⟩

theorem codes_digits (n : Nat) (s : List Byte) : Digits 79 (padTo code 0 n s) := by
  intro d hd
  rcases padTo_mem hd with rfl | ⟨c, -, rfl⟩
  · decide
  · exact code_digit c

/-! ## The rounds -/

/-- The value after `n` rounds. -/
def rounds (s : CStr) (n : Nat) : Nat := (List.range n).foldl (roundB79 s (i32 s.val.length)) 0

/-- What round `i` adds. -/
def roundCode (s : CStr) (i : Nat) : Int := s.val[i]?.elim 0 code

theorem roundB79_eq {s : CStr} (hs : s.val.length < 2 ^ 31) (h i : Nat) :
    roundB79 s (i32 s.val.length) h i = u64 (u64 (h * 79) + u64OfInt (roundCode s i)) := by
  unfold roundB79 roundCode
  rw [i32_of_lt (by omega) (by omega)]
  by_cases hi : i < s.val.length
  · rw [if_pos (by exact_mod_cast hi), List.getElem?_eq_getElem hi, List.getD_eq_getElem _ _ hi]
    rfl
  · rw [if_neg (by exact_mod_cast hi), List.getElem?_eq_none (by omega)]
    rfl

theorem rounds_succ {s : CStr} (hs : s.val.length < 2 ^ 31) (n : Nat) :
    rounds s (n + 1) = u64 (u64 (rounds s n * 79) + u64OfInt (roundCode s n)) := by
  rw [← roundB79_eq hs]
  unfold rounds
  rw [List.range_succ, List.foldl_append, List.foldl_cons, List.foldl_nil]

theorem roundCode_digit (s : CStr) (i : Nat) : 0 ≤ roundCode s i ∧ roundCode s i < 79 := by
  unfold roundCode
  cases s.val[i]? with
  | none => decide
  | some c => exact code_digit c

/-- A round whose value fits does not wrap. -/
theorem round_exact {h : Nat} {cc : Int} (hcc : 0 ≤ cc) (hfit : (h : Int) * 79 + cc < 2 ^ 64) :
    ((u64 (u64 (h * 79) + u64OfInt cc) : Nat) : Int) = h * 79 + cc := by
  unfold u64 u64OfInt
  omega

theorem numeral_fits {n : Nat} (hn : n ≤ 10) (s : List Byte) : numeral 79 (padTo code 0 n s) < 2 ^ 64 := by
  have hlow := numeral_lt_pow (by decide) (codes_digits n s)
  have hpow : (79 : Int) ^ n ≤ 79 ^ 10 := pow_le_pow_right₀ (by decide) hn
  rw [padTo_length] at hlow
  norm_num at hpow
  omega

/-- Up to ten rounds the value is the numeral of the codes so far. -/
theorem rounds_eq {s : CStr} (hs : s.val.length < 2 ^ 31) {n : Nat} (hn : n ≤ 10) :
    (rounds s n : Int) = numeral 79 (padTo code 0 n s.val) := by
  induction n with
  | zero => rfl
  | succ n ih =>
    have hnext : numeral 79 (padTo code 0 (n + 1) s.val) = rounds s n * 79 + roundCode s n := by
      rw [padTo_succ, numeral_append, ih (by omega)]
      rfl
    have hfit := numeral_fits hn s.val
    rw [hnext] at hfit
    rw [hnext, rounds_succ hs, round_exact (roundCode_digit s n).1 hfit]

theorem hash_numeral {s : CStr} (hs : s.val.length < 2 ^ 31) : (hashB79 (some s) : Int) = numeral 79 (codes s) :=
  rounds_eq hs (Nat.le_refl 10)

theorem hash_lt_iff {s t : CStr} (hs : s.val.length < 2 ^ 31) (ht : t.val.length < 2 ^ 31) :
    hashB79 (some s) < hashB79 (some t) ↔ codes s < codes t := by
  unfold codes
  rw [← numeral_lt_iff (by decide : (0 : Int) < 79) (by simp) (codes_digits 10 s.val) (codes_digits 10 t.val)]
  have h1 := hash_numeral hs
  have h2 := hash_numeral ht
  unfold codes at h1 h2
  omega

theorem hash_eq_iff {s t : CStr} (hs : s.val.length < 2 ^ 31) (ht : t.val.length < 2 ^ 31) :
    hashB79 (some s) = hashB79 (some t) ↔ codes s = codes t := by
  unfold codes
  rw [← numeral_inj (by decide : (0 : Int) < 79) (by simp) (codes_digits 10 s.val) (codes_digits 10 t.val)]
  have h1 := hash_numeral hs
  have h2 := hash_numeral ht
  unfold codes at h1 h2
  omega

/-! ## The characters that lead their code -/

/-- The first character of its code, above the terminator. -/
def Leads (c : Byte) : Prop := ascii2Mx79 ((c.toNat : Int) - 1) < code c ∧ 0 < code c

instance : DecidablePred Leads := fun _ => inferInstanceAs (Decidable (_ ∧ _))

theorem Leads.lt {c d : Byte} (hd : Leads d) (h : c < d) : code c < code d := by
  have hlt := BitVec.lt_def.mp h
  have hprev : code c ≤ ascii2Mx79 (d.toNat - 1 : Nat) := ascii2Mx79_mono (by omega) (by have := d.isLt; omega)
  rw [Nat.cast_sub (by omega)] at hprev
  exact Int.lt_of_le_of_lt hprev hd.1

/-- They are coded in order. -/
theorem leads_coding : Coding Leads code 0 := by
  refine ⟨fun c d hc hd => ⟨fun h => ?_, hd.lt⟩, fun c d hc hd h => ?_, fun c hc => hc.2⟩
  · by_contra hge
    exact absurd (code_mono (BitVec.not_lt.mp hge)) (by omega)
  · by_contra hne
    rcases Nat.lt_or_gt_of_ne (mt BitVec.eq_of_toNat_eq hne) with hlt | hgt
    · exact absurd (hd.lt (BitVec.lt_def.mpr hlt)) (by omega)
    · exact absurd (hc.lt (BitVec.lt_def.mpr hgt)) (by omega)

/-- space ! ( ) - . / 0-9 A-Z a-z -/
def Plain (c : Byte) : Prop :=
  c ∈ [0x20, 0x21, 0x28, 0x29, 0x2d, 0x2e, 0x2f] ∨ (0x30 ≤ c ∧ c ≤ 0x39) ∨ (0x41 ≤ c ∧ c ≤ 0x5a) ∨ (0x61 ≤ c ∧ c ≤ 0x7a)

instance : DecidablePred Plain := fun _ => inferInstanceAs (Decidable (_ ∨ _ ∨ _ ∨ _))

theorem plain_leads : ∀ c : Byte, Plain c → Leads c := by decide +kernel

/-- Hashes of any words compare as the codes of their first ten bytes do, no round of the
    sum reaches `2^64`, and the code grows with the byte. On ten plain characters that is
    the order of the words, and no two words have one hash. -/
theorem hash_orders (s t : CStr) (hs : s.val.length < 2 ^ 31) (ht : t.val.length < 2 ^ 31) :
    (hashB79 (some s) < hashB79 (some t) ↔ codes s < codes t) ∧
      (hashB79 (some s) = hashB79 (some t) ↔ codes s = codes t) ∧
      (∀ i < 10, (rounds s i : Int) * 79 + roundCode s i < 2 ^ 64 ∧
        (rounds s (i + 1) : Int) = rounds s i * 79 + roundCode s i) ∧
      hashB79 (some s) = rounds s 10 ∧
      (∀ c d : Byte, c ≤ d → code c ≤ code d) ∧
      (s.val.length ≤ 10 → t.val.length ≤ 10 → (∀ c ∈ s.val, Plain c) → (∀ c ∈ t.val, Plain c) →
        (hashB79 (some s) = hashB79 (some t) → s = t) ∧ (hashB79 (some s) < hashB79 (some t) ↔ s.val < t.val)) := by
  refine ⟨hash_lt_iff hs ht, hash_eq_iff hs ht, fun i hi => ?_, rfl, fun c d => code_mono,
    fun hs10 ht10 hps hpt => ⟨fun heq => ?_, ?_⟩⟩
  · have hnext : numeral 79 (padTo code 0 (i + 1) s.val) = rounds s i * 79 + roundCode s i := by
      rw [padTo_succ, numeral_append, rounds_eq hs (by omega)]
      rfl
    have hfit := numeral_fits (show i + 1 ≤ 10 by omega) s.val
    rw [hnext] at hfit
    exact ⟨hfit, (rounds_eq hs (by omega)).trans hnext⟩
  · refine Subtype.ext (padTo_inj leads_coding (fun c hc => plain_leads c (hps c hc))
      (fun c hc => plain_leads c (hpt c hc))
      hs10 ht10 ?_)
    exact (hash_eq_iff hs ht).mp heq
  · rw [hash_lt_iff hs ht]
    exact padTo_lt_iff leads_coding (fun c hc => plain_leads c (hps c hc))
      (fun c hc => plain_leads c (hpt c hc)) hs10 ht10

/-- "cat" before "dog", both of plain characters. -/
theorem hash_orders_cat :
    hashB79 (some ⟨[0x63, 0x61, 0x74], by decide⟩) < hashB79 (some ⟨[0x64, 0x6f, 0x67], by decide⟩) := by
  refine ((hash_orders ⟨[0x63, 0x61, 0x74], by decide⟩ ⟨[0x64, 0x6f, 0x67], by decide⟩ (by decide)
    (by decide)).2.2.2.2.2
    (by decide) (by decide) (by decide) (by decide)).2.mpr ?_
  exact .rel (by decide)

/-! ## Printable words -/

def Printable (c : Byte) : Prop := 0x20 ≤ c ∧ c ≤ 0x7e

instance : DecidablePred Printable := fun _ => inferInstanceAs (Decidable (_ ∧ _))

/-- The first of the printable characters that are taken for one: " to ', * to the comma,
    : to @, [ to ], ^ to `, and the pairs from the opening brace on. -/
def groupOf (c : Byte) : Byte :=
  if 0x22 ≤ c ∧ c ≤ 0x27 then 0x22
  else if 0x2a ≤ c ∧ c ≤ 0x2c then 0x2a
  else if 0x3a ≤ c ∧ c ≤ 0x40 then 0x3a
  else if 0x5b ≤ c ∧ c ≤ 0x5d then 0x5b
  else if 0x5e ≤ c ∧ c ≤ 0x60 then 0x5e
  else if 0x7b ≤ c ∧ c ≤ 0x7c then 0x7b
  else if 0x7d ≤ c ∧ c ≤ 0x7e then 0x7d
  else c

theorem groupOf_spec : ∀ c : Byte, Printable c → code c = code (groupOf c) ∧ Leads (groupOf c) := by decide +kernel

theorem codes_groups {s : CStr} (hps : ∀ c ∈ s.val, Printable c) : codes s = padTo code 0 10 (s.val.map groupOf) := by
  rw [codes, padTo_map]
  exact padTo_congr fun c hc => (groupOf_spec c (hps c hc)).1

/-- Two printable words keep their order exactly when they still have it, or are equal,
    with each character replaced by the first of its group. -/
theorem printable_order_iff (s t : CStr) (hs : s.val.length ≤ 10) (ht : t.val.length ≤ 10)
    (hps : ∀ c ∈ s.val, Printable c)
    (hpt : ∀ c ∈ t.val, Printable c) :
    (s.val < t.val → hashB79 (some s) ≤ hashB79 (some t)) ↔
      ¬ (s.val < t.val ∧ t.val.map groupOf < s.val.map groupOf) := by
  have hleads : ∀ {w : CStr}, (∀ c ∈ w.val, Printable c) → ∀ c ∈ w.val.map groupOf, Leads c := by
    intro w hw c hc
    obtain ⟨c', hc', rfl⟩ := List.mem_map.mp hc
    exact (groupOf_spec c' (hw c' hc')).2
  have horder : hashB79 (some t) < hashB79 (some s) ↔ t.val.map groupOf < s.val.map groupOf := by
    rw [hash_lt_iff (by omega) (by omega), codes_groups hps, codes_groups hpt]
    exact padTo_lt_iff leads_coding (hleads hpt) (hleads hps) (by rwa [List.length_map]) (by rwa [List.length_map])
  rw [not_and, ← horder, Nat.not_lt]

/-- "ab" before "b\"": they differ at once, in characters with codes of their own. -/
theorem printable_order_iff_ab :
    hashB79 (some ⟨[0x61, 0x62], by decide⟩) ≤ hashB79 (some ⟨[0x62, 0x22], by decide⟩) := by
  refine (printable_order_iff ⟨[0x61, 0x62], by decide⟩ ⟨[0x62, 0x22], by decide⟩ (by decide) (by decide) (by decide)
    (by decide)).mpr (by decide) ?_
  exact .rel (by decide)

/-- `"b` comes before `#a`, and has the greater hash. -/
theorem order_reversed :
    (⟨[0x22, 0x62], by decide⟩ : CStr).val < (⟨[0x23, 0x61], by decide⟩ : CStr).val ∧
      hashB79 (some ⟨[0x23, 0x61], by decide⟩) < hashB79 (some ⟨[0x22, 0x62], by decide⟩) := by
  decide +kernel

end KanekFoundations.Hash

/-
  KanekFoundations.Lib.Mixing — steps that mix a word and lose nothing of it.

  A product with an odd constant, a rotation and an xor with the word's own upper bits are
  each undone by another step, so two different words stay different.
-/

import Mathlib

namespace KanekFoundations.Lib

variable {w : Nat} {x y : BitVec w}

theorem mul_odd_injective {c : BitVec w} (hc : c.toNat % 2 = 1) : Function.Injective fun x : BitVec w => x * c := by
  intro x y h
  have hcoprime : Nat.gcd (2 ^ w) c.toNat = 1 := by
    refine Nat.Coprime.pow_left w ?_
    rw [Nat.coprime_two_left, Nat.odd_iff]
    exact hc
  have hmod : x.toNat * c.toNat ≡ y.toNat * c.toNat [MOD 2 ^ w] := by
    have := congrArg BitVec.toNat h
    rwa [BitVec.toNat_mul, BitVec.toNat_mul] at this
  have hxy := Nat.ModEq.cancel_right_of_coprime hcoprime hmod
  exact BitVec.eq_of_toNat_eq (hxy.eq_of_lt_of_lt x.isLt y.isLt)

/-- `((x << r) | (x >> (w - r)))` -/
def rotl (x : BitVec w) (r : Nat) : BitVec w := (x <<< r) ||| (x >>> (w - r))

theorem rotl_injective {r : Nat} (hr : r ≤ w) : Function.Injective fun x : BitVec w => rotl x r := by
  have hbit : ∀ (x : BitVec w) (i : Nat), i < w → x.getLsbD i = (rotl x r).getLsbD
      (if i + r < w then i + r else i + r - w) := by
    intro x i hi
    unfold rotl
    split
    · rename_i hlt
      have hout : x.getLsbD (w - r + (i + r)) = false := BitVec.getLsbD_of_ge _ _ (by omega)
      simp only [BitVec.getLsbD_or, BitVec.getLsbD_shiftLeft, BitVec.getLsbD_ushiftRight, hout]
      simp [hlt]
    · rename_i hge
      have hlow : i + r - w < r := by omega
      have hin : w - r + (i + r - w) = i := by omega
      simp [hlow, hin]
  intro x y h
  refine BitVec.eq_of_getLsbD_eq fun i hi => ?_
  rw [hbit x i hi, hbit y i hi]
  exact congrArg (fun z : BitVec w => z.getLsbD _) h

theorem xorshift_injective {k : Nat} (hk : 0 < k) : Function.Injective fun x : BitVec w => x ^^^ (x >>> k) := by
  intro x y h
  have hbit : ∀ i, (x.getLsbD i ^^ x.getLsbD (k + i)) = (y.getLsbD i ^^ y.getLsbD (k + i)) := by
    intro i
    simpa using congrArg (fun z : BitVec w => z.getLsbD i) h
  -- From the top bit down: the bit `k` places up is known.
  have hdown : ∀ n i, w ≤ i + n → x.getLsbD i = y.getLsbD i := by
    intro n
    induction n with
    | zero =>
      intro i hi
      rw [BitVec.getLsbD_of_ge x i hi, BitVec.getLsbD_of_ge y i hi]
    | succ n ih =>
      intro i hi
      have hupper := ih (k + i) (by omega)
      have hxor := hbit i
      rw [hupper] at hxor
      exact Bool.xor_left_inj.mp hxor
  exact BitVec.eq_of_getLsbD_eq fun i hi => hdown w i (Nat.le_add_left _ _)

/-- A rotation, then a product with an odd constant: one step of a hash. -/
theorem rotl_mul_injective {r : Nat} {c : BitVec w} (hr : r ≤ w) (hc : c.toNat % 2 = 1) :
    Function.Injective fun x : BitVec w => rotl x r * c :=
  (mul_odd_injective hc).comp (rotl_injective hr)

theorem setWidth_injective {w' : Nat} (h : w ≤ w') : Function.Injective fun x : BitVec w => x.setWidth w' := by
  intro x y hxy
  have hnat := congrArg BitVec.toNat hxy
  rw [BitVec.toNat_setWidth_of_le h, BitVec.toNat_setWidth_of_le h] at hnat
  exact BitVec.eq_of_toNat_eq hnat

end KanekFoundations.Lib

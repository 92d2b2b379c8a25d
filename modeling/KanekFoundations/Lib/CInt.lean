/-
  KanekFoundations.Lib.CInt — C's fixed-width integers over `Nat` and `Int`: unsigned
  arithmetic wraps, and a conversion to a signed type keeps the low bits.
-/

import Mathlib

namespace KanekFoundations.Lib

abbrev Byte := BitVec 8

def u32 (x : Nat) : Nat := x % 2 ^ 32

def u64 (x : Nat) : Nat := x % 2 ^ 64

/-- A signed value converted to `uint64_t`. -/
def u64OfInt (x : Int) : Nat := (x % 2 ^ 64).toNat

/-- A value converted to `int`. -/
def i32 (x : Int) : Int := if x % 2 ^ 32 < 2 ^ 31 then x % 2 ^ 32 else x % 2 ^ 32 - 2 ^ 32

/-- A value converted to `int64_t`. -/
def i64 (x : Int) : Int := if x % 2 ^ 64 < 2 ^ 63 then x % 2 ^ 64 else x % 2 ^ 64 - 2 ^ 64

theorem u32_of_lt {x : Nat} (h : x < 2 ^ 32) : u32 x = x := Nat.mod_eq_of_lt h

/-- A counter that is wrapped at every step counts the steps. -/
theorem u32_add (x n : Nat) : u32 (u32 x + n) = u32 (x + n) := Nat.mod_add_mod x (2 ^ 32) n

theorem u64_of_lt {x : Nat} (h : x < 2 ^ 64) : u64 x = x := Nat.mod_eq_of_lt h

/-- A sum of two 64-bit values that wraps. -/
theorem u64_wrap {x : Nat} (h : 2 ^ 64 ≤ x) (h' : x < 2 ^ 65) : u64 x = x - 2 ^ 64 := by
  unfold u64; omega

theorem u64OfInt_of_nat {x : Int} (h : 0 ≤ x) (h' : x < 2 ^ 64) : u64OfInt x = x.toNat := by
  unfold u64OfInt; omega

theorem i32_of_lt {x : Int} (h : -2 ^ 31 ≤ x) (h' : x < 2 ^ 31) : i32 x = x := by
  unfold i32; omega

/-- A positive `int` made from a natural number is its remainder, and no larger. -/
theorem i32_pos {x : Nat} (h : 0 < i32 x) : i32 x = (x % 2 ^ 32 : Nat) ∧ x % 2 ^ 32 ≤ x := by
  unfold i32 at h ⊢
  refine ⟨?_, Nat.mod_le _ _⟩
  split at h <;> omega

/-- A positive `int` is what lies below 2^32. -/
theorem i32_split {x : Nat} (h : 0 < i32 x) : ∃ n q, n + q = x ∧ 0 < n ∧ n < 2 ^ 31 ∧ q % 2 ^ 32 = 0 ∧ i32 x = n := by
  refine ⟨x % 2 ^ 32, x / 2 ^ 32 * 2 ^ 32, Nat.mod_add_div' x (2 ^ 32), ?_, ?_, Nat.mul_mod_left _ _, (i32_pos h).1⟩
  · have hlow := (i32_pos h).1
    omega
  · unfold i32 at h
    split at h <;> omega

/-- What lies above 2^32 is cut off. -/
theorem i32_high (x : Nat) {q : Nat} (hq : q % 2 ^ 32 = 0) : i32 ((x + q : Nat) : Int) = i32 x := by
  have h : ((x + q : Nat) : Int) % 2 ^ 32 = (x : Int) % 2 ^ 32 := by omega
  rw [i32, h]
  rfl

theorem i64_le {x : Int} (h : 0 ≤ x) : i64 x ≤ x := by
  unfold i64; omega

theorem i64_emod (x : Int) : i64 x % 2 ^ 64 = x % 2 ^ 64 := by
  unfold i64; split <;> omega

/-- Only the low bits of an `int64_t` difference depend on its arguments. -/
theorem i64_sub (x y : Int) : i64 (i64 x - y) = i64 (x - y) := by
  have h : (i64 x - y) % 2 ^ 64 = (x - y) % 2 ^ 64 := by
    rw [Int.sub_emod, i64_emod, ← Int.sub_emod]
  rw [i64, h]
  rfl

/-- The low bits of an `int64_t` are those of the value. -/
theorem i32_i64 (x : Int) : i32 (i64 x) = i32 x := by
  have h : i64 x % 2 ^ 32 = x % 2 ^ 32 := by unfold i64; split <;> omega
  rw [i32, h]
  rfl

theorem i64_of_lt {x : Int} (h : -2 ^ 63 ≤ x) (h' : x < 2 ^ 63) : i64 x = x := by
  unfold i64; omega

end KanekFoundations.Lib

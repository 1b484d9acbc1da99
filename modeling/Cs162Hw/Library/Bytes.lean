import Mathlib.Data.Nat.Digits.Defs

/-!
# Numbers as bytes

A number written into a fixed number of bytes, the lowest first, as a machine writes an integer
into memory, and read from them again.
-/

namespace Cs162Hw.Library

/-- The lowest `k` bytes of `n`, the lowest first. -/
def toBytes : ℕ → ℕ → List UInt8
  | 0, _ => []
  | k + 1, n => UInt8.ofNat n :: toBytes k (n / 256)

/-- The number whose bytes these are. -/
def ofBytes (bytes : List UInt8) : ℕ := Nat.ofDigits 256 (bytes.map UInt8.toNat)

@[simp] theorem length_toBytes (k n : ℕ) : (toBytes k n).length = k := by
  induction k generalizing n with
  | zero => rfl
  | succ k ih => rw [toBytes, List.length_cons, ih]

/-- The lower bytes come first. -/
theorem toBytes_add (j k n : ℕ) : toBytes (j + k) n = toBytes j n ++ toBytes k (n / 256 ^ j) := by
  induction j generalizing n with
  | zero => rw [Nat.zero_add, Nat.pow_zero, Nat.div_one]; rfl
  | succ j ih => rw [Nat.succ_add, toBytes, toBytes, ih, Nat.div_div_eq_div_mul, ← Nat.pow_succ', List.cons_append]

/-- What there is no room for is not seen. -/
theorem toBytes_mod (k n : ℕ) : toBytes k (n % 256 ^ k) = toBytes k n := by
  induction k generalizing n with
  | zero => rfl
  | succ k ih =>
    have hdiv : n % 256 ^ (k + 1) / 256 = n / 256 % 256 ^ k := by rw [Nat.pow_succ', Nat.mod_mul_right_div_self]
    have hmod : n % 256 ^ (k + 1) % 256 = n % 256 := Nat.mod_mod_of_dvd n (Nat.pow_succ' ▸ Nat.dvd_mul_right ..)
    have hbyte : UInt8.ofNat (n % 256 ^ (k + 1)) = UInt8.ofNat n := by
      apply UInt8.toNat_inj.mp
      rw [UInt8.toNat_ofNat', UInt8.toNat_ofNat']
      exact hmod
    rw [toBytes, hbyte, hdiv, ih, toBytes]

/-- What is read is what was written, as far as there was room for it. -/
theorem ofBytes_toBytes (k n : ℕ) : ofBytes (toBytes k n) = n % 256 ^ k := by
  induction k generalizing n with
  | zero => rw [Nat.pow_zero, Nat.mod_one]; rfl
  | succ k ih =>
    have hcons : ofBytes (toBytes (k + 1) n) = (UInt8.ofNat n).toNat + 256 * ofBytes (toBytes k (n / 256)) :=
      Nat.ofDigits_cons ..
    have hpow : 256 ^ (k + 1) = 256 * 256 ^ k := Nat.pow_succ'
    rw [hcons, ih, hpow, Nat.mod_mul, UInt8.toNat_ofNat']

/-- A number that has room is read as it was written. -/
theorem ofBytes_toBytes_of_lt {k n : ℕ} (h : n < 256 ^ k) : ofBytes (toBytes k n) = n := by
  rw [ofBytes_toBytes, Nat.mod_eq_of_lt h]

end Cs162Hw.Library

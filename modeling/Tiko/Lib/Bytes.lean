import Mathlib.Tactic

/-!
# Little-endian numbers

`le k n` are the `k` low bytes of `n`, least significant first; `ofLe` reads them back
(`ofLe_le`).
-/

namespace Lib.Bytes

/-- The `k` low bytes of `n`, least significant first. -/
def le : ℕ → ℕ → List UInt8
  | 0, _ => []
  | k + 1, n => UInt8.ofNat n :: le k (n / 256)

/-- The number with the given bytes, least significant first. -/
def ofLe : List UInt8 → ℕ
  | [] => 0
  | b :: bs => b.toNat + 256 * ofLe bs

@[simp] theorem length_le (k n : ℕ) : (le k n).length = k := by
  induction k generalizing n with
  | zero => rfl
  | succ k ih => rw [le, List.length_cons, ih]

/-- **A number below `256 ^ k` is read back from its `k` bytes.** -/
theorem ofLe_le {k n : ℕ} (h : n < 256 ^ k) : ofLe (le k n) = n := by
  induction k generalizing n with
  | zero =>
    obtain rfl : n = 0 := by simpa using h
    rfl
  | succ k ih =>
    have hq : n / 256 < 256 ^ k := by
      rw [pow_succ] at h
      exact Nat.div_lt_of_lt_mul (by rwa [mul_comm])
    have hb : (UInt8.ofNat n).toNat = n % 256 := UInt8.toNat_ofNat'
    rw [le, ofLe, ih hq, hb]
    omega

end Lib.Bytes

import Mathlib.Data.Char
import Mathlib.Data.List.Lex
import Tiko.Lib.Hex

/-!
# The order of texts

Lists of characters are compared lexicographically.

* `append_lt_append_iff`: texts that begin with parts of the same length;
* **`Hex.fixed_lt_iff`**: numerals of one width are ordered like the numbers.
-/

namespace Lib

section Append

variable {α : Type*} [LinearOrder α] {as bs cs ds : List α}

/-- Parts of the same length are compared first. -/
theorem append_lt_append_iff (h : as.length = bs.length) :
    as ++ cs < bs ++ ds ↔ as < bs ∨ as = bs ∧ cs < ds := by
  induction as generalizing bs with
  | nil =>
    obtain rfl := List.length_eq_zero_iff.mp h.symm
    simp
  | cons a as ih =>
    cases bs with
    | nil => exact absurd h (by simp)
    | cons b bs =>
      rw [List.cons_append, List.cons_append, List.cons_lt_cons_iff, List.cons_lt_cons_iff,
        ih (Nat.succ_injective h), List.cons.injEq]
      tauto

theorem append_left_lt_iff : as ++ cs < as ++ ds ↔ cs < ds := by
  rw [append_lt_append_iff rfl]
  simp

theorem append_right_lt_iff (h : as.length = bs.length) : as ++ cs < bs ++ cs ↔ as < bs := by
  rw [append_lt_append_iff h]
  simp

end Append

namespace Hex

theorem digit_toNat {d : ℕ} (h : d < 16) :
    (digit d).toNat = if d < 10 then 48 + d else 55 + d := by
  interval_cases d <;> rfl

theorem digit_lt_iff {d e : ℕ} (hd : d < 16) (he : e < 16) : digit d < digit e ↔ d < e := by
  change (digit d).toNat < (digit e).toNat ↔ d < e
  rw [digit_toNat hd, digit_toNat he]
  split_ifs <;> omega

/-- **Numerals of one width are ordered like the numbers.** -/
theorem fixed_lt_iff {w m n : ℕ} (hm : m < 16 ^ w) (hn : n < 16 ^ w) :
    fixed w m < fixed w n ↔ m < n := by
  induction w generalizing m n with
  | zero =>
    rw [pow_zero] at hm hn
    rw [fixed, fixed]
    exact ⟨fun h => absurd h (lt_irrefl _), fun h => absurd h (by omega)⟩
  | succ w ih =>
    have hm' : m / 16 < 16 ^ w := Nat.div_lt_of_lt_mul (by rwa [pow_succ'] at hm)
    have hn' : n / 16 < 16 ^ w := Nat.div_lt_of_lt_mul (by rwa [pow_succ'] at hn)
    have hinj : fixed w (m / 16) = fixed w (n / 16) ↔ m / 16 = n / 16 :=
      ⟨fixed_inj hm' hn', fun h => by rw [h]⟩
    rw [fixed, fixed, append_lt_append_iff (by simp), ih hm' hn', hinj, List.cons_lt_cons_iff,
      digit_lt_iff (Nat.mod_lt _ (by omega)) (Nat.mod_lt _ (by omega)), lt_self_iff_false, and_false,
      or_false]
    omega

end Hex

end Lib

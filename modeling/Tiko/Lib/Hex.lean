import Mathlib.Data.List.Basic
import Mathlib.Tactic

/-!
# Hexadecimal numerals

Formatting and parsing of base-16 numbers as lists of characters.

* `fmt w n`: the `{:0wX}` format, upper-case digits padded with zeros to at least `w`;
* `fixed w n`: exactly the `w` low digits of `n`; the two agree below `16 ^ w` (`fmt_eq_fixed`);
* `fromStr bound`: the checked parser of unsigned numbers below `bound`, which also takes lower-case
  digits and a leading plus sign.

**`fromStr_fixed`**: a number written with `w` digits parses back.
-/

namespace Lib.Hex

/-- The upper-case digit of a value below `16`. -/
def digit (d : ℕ) : Char :=
  if d < 10 then Char.ofNat (48 + d) else Char.ofNat (55 + d)

/-- The value of a digit, upper or lower case. -/
def digitVal (c : Char) : Option ℕ :=
  if 48 ≤ c.toNat ∧ c.toNat ≤ 57 then some (c.toNat - 48)
  else if 65 ≤ c.toNat ∧ c.toNat ≤ 70 then some (c.toNat - 55)
  else if 97 ≤ c.toNat ∧ c.toNat ≤ 102 then some (c.toNat - 87)
  else none

/-- Whether a character is a hexadecimal digit. -/
def isDigit (c : Char) : Bool := (digitVal c).isSome

/-- The significant digits of `n`, none for zero; `fuel` bounds their number. -/
def digits : ℕ → ℕ → List Char
  | 0, _ => []
  | fuel + 1, n => if n = 0 then [] else digits fuel (n / 16) ++ [digit (n % 16)]

/-- `n` in upper-case digits, padded with zeros to a width of at least `w`. -/
def fmt (w n : ℕ) : List Char :=
  let ds := if n = 0 then ['0'] else digits (n + 1) n
  List.replicate (w - ds.length) '0' ++ ds

/-- The `w` low digits of `n`. -/
def fixed : ℕ → ℕ → List Char
  | 0, _ => []
  | w + 1, n => fixed w (n / 16) ++ [digit (n % 16)]

/-- Read digits onto `acc`, failing on a non-digit and when the value reaches `bound`. -/
def parseDigits (bound : ℕ) : ℕ → List Char → Option ℕ
  | acc, [] => some acc
  | acc, c :: cs => do
    let d ← digitVal c
    if acc * 16 + d < bound then parseDigits bound (acc * 16 + d) cs else none

/-- Parse an unsigned number below `bound`, with an optional leading plus sign. -/
def fromStr (bound : ℕ) : List Char → Option ℕ
  | [] => none
  | c :: cs => if c = '+' then (if cs = [] then none else parseDigits bound 0 cs)
      else parseDigits bound 0 (c :: cs)

/-! ## Digits -/

theorem digitVal_digit {d : ℕ} (h : d < 16) : digitVal (digit d) = some d := by
  interval_cases d <;> decide

theorem digit_ne_of_not_isDigit {c : Char} {d : ℕ} (hc : isDigit c = false) (h : d < 16) :
    digit d ≠ c := by
  rintro rfl
  rw [isDigit, digitVal_digit h] at hc
  exact absurd hc (by simp)

/-! ## Fixed-width numerals -/

@[simp] theorem length_fixed (w n : ℕ) : (fixed w n).length = w := by
  induction w generalizing n with
  | zero => rfl
  | succ w ih => simp [fixed, ih]

theorem mem_fixed {w n : ℕ} {c : Char} (h : c ∈ fixed w n) : ∃ d < 16, c = digit d := by
  induction w generalizing n with
  | zero => exact absurd h List.not_mem_nil
  | succ w ih =>
    rcases List.mem_append.mp h with h | h
    · exact ih h
    · exact ⟨n % 16, Nat.mod_lt _ (by omega), List.mem_singleton.mp h⟩

theorem isDigit_of_mem_fixed {w n : ℕ} {c : Char} (h : c ∈ fixed w n) : isDigit c = true := by
  obtain ⟨d, hd, rfl⟩ := mem_fixed h
  rw [isDigit, digitVal_digit hd]
  rfl

theorem fixed_zero (w : ℕ) : fixed w 0 = List.replicate w '0' := by
  induction w with
  | zero => rfl
  | succ w ih =>
    rw [fixed, Nat.zero_div, ih, List.replicate_succ']
    rfl

/-- A numeral is its high digits followed by its low digits. -/
theorem fixed_add (v w n : ℕ) : fixed (v + w) n = fixed v (n / 16 ^ w) ++ fixed w n := by
  induction w generalizing n with
  | zero => simp [fixed]
  | succ w ih =>
    rw [← Nat.add_assoc, fixed, ih, fixed, List.append_assoc, Nat.div_div_eq_div_mul, pow_succ',
      mul_comm]

/-- The low digits of a number depend only on its residue. -/
theorem fixed_mod (w n : ℕ) : fixed w (n % 16 ^ w) = fixed w n := by
  induction w generalizing n with
  | zero => rfl
  | succ w ih =>
    have h1 : n % 16 ^ (w + 1) / 16 = n / 16 % 16 ^ w := by
      rw [pow_succ', Nat.mod_mul_right_div_self]
    have h2 : n % 16 ^ (w + 1) % 16 = n % 16 :=
      Nat.mod_mod_of_dvd n (dvd_pow_self 16 (Nat.succ_ne_zero w))
    rw [fixed, fixed, h1, h2, ih]

theorem digits_pad {w n fuel : ℕ} (hn : n < 16 ^ w) (hf : n < fuel) :
    List.replicate (w - (digits fuel n).length) '0' ++ digits fuel n = fixed w n ∧
      (digits fuel n).length ≤ w := by
  induction w generalizing n fuel with
  | zero =>
    obtain rfl : n = 0 := by simpa using hn
    cases fuel <;> simp [digits, fixed]
  | succ w ih =>
    obtain ⟨fuel, rfl⟩ := Nat.exists_eq_succ_of_ne_zero (Nat.ne_of_gt (Nat.zero_lt_of_lt hf))
    rw [digits]
    split_ifs with h0
    · rw [h0, fixed_zero]
      simp
    · have hn' : n / 16 < 16 ^ w := by
        rw [pow_succ] at hn
        exact Nat.div_lt_of_lt_mul (by rwa [mul_comm])
      have hfuel : n / 16 < fuel := by omega
      obtain ⟨he, hl⟩ := ih hn' hfuel
      rw [fixed, ← he, List.length_append, List.length_singleton, Nat.add_sub_add_right,
        List.append_assoc]
      exact ⟨rfl, by omega⟩

/-- **Below `16 ^ w` the padded format is the fixed-width numeral.** -/
theorem fmt_eq_fixed {w n : ℕ} (hw : 0 < w) (hn : n < 16 ^ w) : fmt w n = fixed w n := by
  rw [fmt]
  split_ifs with h0
  · obtain ⟨w, rfl⟩ := Nat.exists_eq_succ_of_ne_zero (Nat.ne_of_gt hw)
    rw [h0, fixed_zero]
    exact (List.replicate_succ' (n := w) (a := '0')).symm
  · exact (digits_pad hn (Nat.lt_succ_self n)).1

/-! ## Parsing -/

theorem parseDigits_append (bound acc : ℕ) (xs ys : List Char) :
    parseDigits bound acc (xs ++ ys) =
      (parseDigits bound acc xs).bind fun acc => parseDigits bound acc ys := by
  induction xs generalizing acc with
  | nil => rfl
  | cons c cs ih =>
    rw [List.cons_append, parseDigits, parseDigits]
    cases hd : digitVal c with
    | none => rfl
    | some d =>
      simp only [Option.bind_eq_bind, Option.bind_some]
      split_ifs with hb
      · exact ih _
      · rfl

theorem parseDigits_fixed {bound w n : ℕ} (hn : n < 16 ^ w) (hb : n < bound) :
    parseDigits bound 0 (fixed w n) = some n := by
  induction w generalizing n with
  | zero =>
    obtain rfl : n = 0 := by simpa using hn
    rfl
  | succ w ih =>
    have hn' : n / 16 < 16 ^ w := by
      rw [pow_succ] at hn
      exact Nat.div_lt_of_lt_mul (by rwa [mul_comm])
    rw [fixed, parseDigits_append, ih hn' (by omega), Option.bind_some, parseDigits,
      digitVal_digit (Nat.mod_lt _ (by omega))]
    simp only [Option.bind_eq_bind, Option.bind_some]
    rw [if_pos (by omega), parseDigits]
    congr 1
    omega

/-- **A number written with `w` digits parses back.** -/
theorem fromStr_fixed {bound w n : ℕ} (hw : 0 < w) (hn : n < 16 ^ w) (hb : n < bound) :
    fromStr bound (fixed w n) = some n := by
  have hp := parseDigits_fixed hn hb
  cases hf : fixed w n with
  | nil =>
    have := length_fixed w n
    rw [hf, List.length_nil] at this
    omega
  | cons c cs =>
    have hc : c ≠ '+' := by
      obtain ⟨d, hd, rfl⟩ := mem_fixed (hf ▸ List.mem_cons_self : c ∈ fixed w n)
      exact digit_ne_of_not_isDigit (by decide) hd
    rw [fromStr, if_neg hc, ← hf, hp]

/-- Numbers with the same `w` digits are equal modulo `16 ^ w`. -/
theorem fixed_inj {w m n : ℕ} (hm : m < 16 ^ w) (hn : n < 16 ^ w) (h : fixed w m = fixed w n) :
    m = n := by
  have h1 := parseDigits_fixed hm hm
  have h2 := parseDigits_fixed hn hn
  rw [h, h2] at h1
  exact (Option.some.inj h1).symm

/-! ## The padded format -/

theorem parseDigits_replicate_zero {bound : ℕ} (hb : 0 < bound) (k : ℕ) (cs : List Char) :
    parseDigits bound 0 (List.replicate k '0' ++ cs) = parseDigits bound 0 cs := by
  induction k with
  | zero => rfl
  | succ k ih =>
    rw [List.replicate_succ, List.cons_append, parseDigits]
    change (if 0 * 16 + 0 < bound then parseDigits bound (0 * 16 + 0) _ else none) = _
    rw [if_pos (by omega)]
    exact ih

/-- The significant digits of a number are the low digits of a numeral that is wide enough. -/
theorem fixed_eq_replicate_append_digits (n : ℕ) :
    fixed (n + 1) n = List.replicate (n + 1 - (digits (n + 1) n).length) '0' ++ digits (n + 1) n :=
  (digits_pad (n.lt_succ_self.trans (Nat.lt_pow_self (by decide))) n.lt_succ_self).1.symm

theorem parseDigits_fmt {bound n : ℕ} (w : ℕ) (hb : n < bound) :
    parseDigits bound 0 (fmt w n) = some n := by
  have hn : n < 16 ^ (n + 1) := n.lt_succ_self.trans (Nat.lt_pow_self (by decide))
  have hpos : 0 < bound := by omega
  rw [fmt, parseDigits_replicate_zero hpos]
  split_ifs with h0
  · subst h0
    change (if 0 * 16 + 0 < bound then parseDigits bound (0 * 16 + 0) [] else none) = _
    rw [if_pos (by omega)]
    rfl
  · have hp := parseDigits_fixed hn hb
    rwa [fixed_eq_replicate_append_digits, parseDigits_replicate_zero hpos] at hp

theorem isDigit_of_mem_fmt {w n : ℕ} {c : Char} (h : c ∈ fmt w n) : isDigit c = true := by
  rw [fmt] at h
  rcases List.mem_append.mp h with h | h
  · rw [List.eq_of_mem_replicate h]
    decide
  · split_ifs at h with h0
    · rw [List.mem_singleton.mp h]
      decide
    · refine isDigit_of_mem_fixed (w := n + 1) (n := n) ?_
      rw [fixed_eq_replicate_append_digits]
      exact List.mem_append_right _ h

theorem fmt_ne_nil (w n : ℕ) : fmt w n ≠ [] := by
  intro h
  rw [fmt, List.append_eq_nil_iff] at h
  split_ifs at h with h0
  · simp at h
  · have hdigits : digits (n + 1) n ≠ [] := by
      rw [digits, if_neg h0]
      simp
    exact hdigits h.2

/-- **A number in the padded format parses back.** -/
theorem fromStr_fmt {bound n : ℕ} (w : ℕ) (hb : n < bound) : fromStr bound (fmt w n) = some n := by
  have hp := parseDigits_fmt w hb
  cases hf : fmt w n with
  | nil => exact absurd hf (fmt_ne_nil w n)
  | cons c cs =>
    have hc : c ≠ '+' := by
      rintro rfl
      exact absurd (isDigit_of_mem_fmt (hf ▸ List.mem_cons_self : '+' ∈ fmt w n)) (by decide)
    rw [fromStr, if_neg hc, ← hf, hp]

theorem parseDigits_mono {bound bound' acc v : ℕ} {cs : List Char} (hb : bound ≤ bound')
    (h : parseDigits bound acc cs = some v) : parseDigits bound' acc cs = some v := by
  induction cs generalizing acc with
  | nil => exact h
  | cons c cs ih =>
    rw [parseDigits] at h ⊢
    obtain ⟨d, hd, h⟩ := Option.bind_eq_some_iff.mp h
    rw [hd, Option.bind_eq_bind, Option.bind_some]
    split_ifs at h with hlt
    rw [if_pos (hlt.trans_le hb)]
    exact ih h

/-- What a formatted number parses to, if it fits. -/
theorem fromStr_fmt_eq {bound w n v : ℕ} (h : fromStr bound (fmt w n) = some v) : v = n := by
  have hbig : fromStr (bound + (n + 1)) (fmt w n) = some n := fromStr_fmt w (by omega)
  have hmono : fromStr (bound + (n + 1)) (fmt w n) = some v := by
    cases hf : fmt w n with
    | nil => exact absurd hf (fmt_ne_nil w n)
    | cons c cs =>
      rw [hf, fromStr] at h
      rw [fromStr]
      split_ifs at h ⊢ with hc hcs
      · exact parseDigits_mono (Nat.le_add_right _ _) h
      · exact parseDigits_mono (Nat.le_add_right _ _) h
  exact Option.some.inj (hmono.symm.trans hbig)

theorem fmt_inj {w m n : ℕ} (h : fmt w m = fmt w n) : m = n := by
  have h1 := parseDigits_fmt w (show m < m + n + 1 by omega)
  have h2 := parseDigits_fmt w (show n < m + n + 1 by omega)
  rw [h, h2] at h1
  exact (Option.some.inj h1).symm

end Lib.Hex

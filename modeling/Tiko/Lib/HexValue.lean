import Mathlib.Data.Nat.Digits.Defs
import Tiko.Lib.Hex

/-!
# The value of a hexadecimal numeral

`Numeral s v` says what a text denotes, without a parser: an optional plus sign, at least one digit,
and the value of the digits to base `16`.

* `fromStrRadix`: the checked parser with its three errors, an extension of `fromStr`
  (`fromStrRadix_eq_ok_iff`);
* `Numeral.unique`: a text denotes at most one number.

**`fromStr_eq_some_iff`**: the parser accepts exactly the numerals below its bound, with their value.
-/

namespace Lib.Hex

/-- `s` is a numeral of the number `v`. -/
def Numeral (s : List Char) (v : ℕ) : Prop :=
  ∃ ds vs, (s = ds ∨ s = '+' :: ds) ∧ ds ≠ [] ∧ ds.mapM digitVal = some vs ∧
    v = Nat.ofDigits 16 vs.reverse

/-! ## Digits -/

variable {bound acc v : ℕ} {s : List Char}

theorem mapM_digitVal_cons (c : Char) (cs : List Char) :
    (c :: cs).mapM digitVal =
      (digitVal c).bind fun d => (cs.mapM digitVal).bind fun vs => some (d :: vs) := by
  rw [List.mapM_cons]
  rfl

theorem length_of_mapM_digitVal {vs : List ℕ} (h : s.mapM digitVal = some vs) :
    vs.length = s.length := by
  induction s generalizing vs with
  | nil =>
    obtain rfl : vs = [] := by simpa using h.symm
    rfl
  | cons c cs ih =>
    rw [mapM_digitVal_cons] at h
    obtain ⟨d, -, h⟩ := Option.bind_eq_some_iff.mp h
    obtain ⟨ws, hws, h⟩ := Option.bind_eq_some_iff.mp h
    obtain rfl := Option.some.inj h
    rw [List.length_cons, List.length_cons, ih hws]

/-- One more digit behind `acc` is read by one step of the parser. -/
theorem horner_step (acc d : ℕ) (vs : List ℕ) :
    acc * 16 ^ (vs.length + 1) + Nat.ofDigits 16 (d :: vs).reverse =
      (acc * 16 + d) * 16 ^ vs.length + Nat.ofDigits 16 vs.reverse := by
  rw [List.reverse_cons, Nat.ofDigits_append, List.length_reverse, Nat.ofDigits_singleton, pow_succ]
  ring

/-- What the parser of digits reads behind `acc`. Every value on the way is at most the last one, so
the bound only has to hold there. -/
theorem parseDigits_eq_some_iff (hacc : acc < bound) :
    parseDigits bound acc s = some v ↔ ∃ vs, s.mapM digitVal = some vs ∧
      v = acc * 16 ^ s.length + Nat.ofDigits 16 vs.reverse ∧ v < bound := by
  induction s generalizing acc with
  | nil =>
    constructor
    · intro h
      obtain rfl := Option.some.inj h
      exact ⟨[], rfl, by simp, hacc⟩
    · rintro ⟨vs, hvs, rfl, -⟩
      obtain rfl : vs = [] := by simpa using hvs.symm
      simp [parseDigits]
  | cons c cs ih =>
    rw [parseDigits, mapM_digitVal_cons]
    cases hd : digitVal c with
    | none => simp
    | some d =>
      simp only [Option.bind_eq_bind, Option.bind_some]
      split_ifs with hlt
      · rw [ih hlt]
        constructor
        · rintro ⟨vs, hvs, hv, hb⟩
          refine ⟨d :: vs, by rw [hvs]; rfl, ?_, hb⟩
          rw [hv, List.length_cons, ← length_of_mapM_digitVal hvs, horner_step]
        · rintro ⟨ws, hws, hv, hb⟩
          obtain ⟨vs, hvs, h⟩ := Option.bind_eq_some_iff.mp hws
          obtain rfl := Option.some.inj h
          refine ⟨vs, hvs, ?_, hb⟩
          rw [hv, List.length_cons, ← length_of_mapM_digitVal hvs, horner_step]
      · constructor
        · intro h
          exact absurd h (by simp)
        · rintro ⟨ws, hws, hv, hb⟩
          obtain ⟨vs, hvs, h⟩ := Option.bind_eq_some_iff.mp hws
          obtain rfl := Option.some.inj h
          have hle : acc * 16 + d ≤ v := by
            rw [hv, List.length_cons, ← length_of_mapM_digitVal hvs, horner_step]
            have hpow : acc * 16 + d ≤ (acc * 16 + d) * 16 ^ vs.length :=
              Nat.le_mul_of_pos_right _ (Nat.pow_pos (by decide))
            omega
          omega

/-! ## Numerals -/

theorem digitVal_plus : digitVal '+' = none := by decide

theorem mapM_digitVal_plus (cs : List Char) : ('+' :: cs).mapM digitVal = none := by
  rw [mapM_digitVal_cons, digitVal_plus]
  rfl

/-- **The parser accepts exactly the numerals below its bound, with their value.** -/
theorem fromStr_eq_some_iff (hb : 0 < bound) :
    fromStr bound s = some v ↔ Numeral s v ∧ v < bound := by
  cases s with
  | nil =>
    constructor
    · intro h
      exact absurd h (by simp [fromStr])
    · rintro ⟨⟨ds, vs, hs, hne, -⟩, -⟩
      rcases hs with hs | hs
      · exact absurd hs.symm hne
      · exact absurd hs (by simp)
  | cons c cs =>
    rw [fromStr]
    split_ifs with hc hcs
    · constructor
      · intro h
        exact absurd h (by simp)
      · rintro ⟨⟨ds, vs, hs, hne, hvs, -⟩, -⟩
        subst hc hcs
        rcases hs with rfl | hs
        · rw [mapM_digitVal_plus] at hvs
          exact absurd hvs (by simp)
        · exact absurd (List.cons.inj hs).2.symm hne
    · subst hc
      rw [parseDigits_eq_some_iff hb]
      constructor
      · rintro ⟨vs, hvs, hv, hlt⟩
        exact ⟨⟨cs, vs, .inr rfl, hcs, hvs, by rw [hv, Nat.zero_mul, Nat.zero_add]⟩, hlt⟩
      · rintro ⟨⟨ds, vs, hs, -, hvs, hv⟩, hlt⟩
        rcases hs with rfl | hs
        · rw [mapM_digitVal_plus] at hvs
          exact absurd hvs (by simp)
        · obtain rfl := (List.cons.inj hs).2
          exact ⟨vs, hvs, by rw [hv, Nat.zero_mul, Nat.zero_add], hlt⟩
    · rw [parseDigits_eq_some_iff hb]
      constructor
      · rintro ⟨vs, hvs, hv, hlt⟩
        exact ⟨⟨c :: cs, vs, .inl rfl, by simp, hvs, by rw [hv, Nat.zero_mul, Nat.zero_add]⟩, hlt⟩
      · rintro ⟨⟨ds, vs, hs, -, hvs, hv⟩, hlt⟩
        rcases hs with rfl | hs
        · exact ⟨vs, hvs, by rw [hv, Nat.zero_mul, Nat.zero_add], hlt⟩
        · exact absurd (List.cons.inj hs).1 hc

/-- A text denotes at most one number. -/
theorem Numeral.unique {w : ℕ} (hv : Numeral s v) (hw : Numeral s w) : v = w := by
  have h1 := (fromStr_eq_some_iff (by omega : 0 < v + w + 1)).mpr ⟨hv, by omega⟩
  have h2 := (fromStr_eq_some_iff (by omega : 0 < v + w + 1)).mpr ⟨hw, by omega⟩
  exact Option.some.inj (h1.symm.trans h2)

/-- A numeral has no character but digits and a plus sign. -/
theorem Numeral.notMem {c : Char} (h : Numeral s v) (hd : digitVal c = none) (hc : c ≠ '+') :
    c ∉ s := by
  obtain ⟨ds, vs, hs, -, hvs, -⟩ := h
  have hds : c ∉ ds := by
    clear hs
    induction ds generalizing vs with
    | nil => exact List.not_mem_nil
    | cons a ds ih =>
      rw [mapM_digitVal_cons] at hvs
      obtain ⟨d, ha, h⟩ := Option.bind_eq_some_iff.mp hvs
      obtain ⟨ws, hws, -⟩ := Option.bind_eq_some_iff.mp h
      intro hm
      rcases List.mem_cons.mp hm with rfl | hm
      · rw [hd] at ha
        exact absurd ha (by simp)
      · exact ih ws hws hm
  rcases hs with rfl | rfl
  · exact hds
  · intro hm
    rcases List.mem_cons.mp hm with h | h
    · exact hc h
    · exact hds h

theorem numeral_fmt (w n : ℕ) : Numeral (fmt w n) n :=
  ((fromStr_eq_some_iff (Nat.succ_pos n)).mp (fromStr_fmt w n.lt_succ_self)).1

/-! ## The errors of the parser -/

/-- `IntErrorKind`, of an unsigned parser. -/
inductive IntErrorKind where
  | empty
  | invalidDigit
  | posOverflow
  deriving DecidableEq

/-- `parseDigits` with its errors; a character that is no digit is reported before an overflow. -/
def readDigits (bound : ℕ) : ℕ → List Char → Except IntErrorKind ℕ
  | acc, [] => .ok acc
  | acc, c :: cs =>
    match digitVal c with
    | none => .error .invalidDigit
    | some d =>
      if acc * 16 + d < bound then readDigits bound (acc * 16 + d) cs else .error .posOverflow

/-- `from_str_radix(_, 16)` of an unsigned type with the given bound. -/
def fromStrRadix (bound : ℕ) : List Char → Except IntErrorKind ℕ
  | [] => .error .empty
  | c :: cs =>
    if c = '+' then (if cs = [] then .error .invalidDigit else readDigits bound 0 cs)
    else readDigits bound 0 (c :: cs)

theorem readDigits_eq_ok_iff : readDigits bound acc s = .ok v ↔ parseDigits bound acc s = some v := by
  induction s generalizing acc with
  | nil => simp [readDigits, parseDigits]
  | cons c cs ih =>
    rw [readDigits, parseDigits]
    cases digitVal c with
    | none => simp
    | some d =>
      simp only [Option.bind_eq_bind, Option.bind_some]
      split_ifs
      · exact ih
      · simp

theorem fromStrRadix_eq_ok_iff : fromStrRadix bound s = .ok v ↔ fromStr bound s = some v := by
  cases s with
  | nil => simp [fromStrRadix, fromStr]
  | cons c cs =>
    rw [fromStrRadix, fromStr]
    split_ifs
    · simp
    · exact readDigits_eq_ok_iff
    · exact readDigits_eq_ok_iff

/-- **The checked parser accepts exactly the numerals below its bound.** -/
theorem fromStrRadix_eq_ok_iff_numeral (hb : 0 < bound) :
    fromStrRadix bound s = .ok v ↔ Numeral s v ∧ v < bound :=
  fromStrRadix_eq_ok_iff.trans (fromStr_eq_some_iff hb)

end Lib.Hex

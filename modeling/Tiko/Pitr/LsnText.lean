import Tiko.Lib.HexValue
import Tiko.Pitr.RecoveryConf

/-!
# LSNs as text

A position in the log is written as two hexadecimal halves with a slash between them, and read back by
`fromPgString`, by `parseEither` (the recovery target of the command line) and by the receiver's
`parseLsn` (the start of replication).

* `LsnText s x`: the text `s` writes the position `x`, two numerals below `2 ^ 32` around a slash;
* `Exact parse s`: the parser takes `s` exactly for what it writes;
* `HalvesFit s`: the halves, where both are numerals below `2 ^ 64`, are below `2 ^ 32`.

Both parsers read a half as a number of 64 bits and join the two with a shift and an or.
**`parsers_exact_iff`**: every printed position is read back, and a parser is exact on a text if and
only if its halves fit. A longer high half loses its upper bits, a longer low half runs into the other
one (`joinHalves_toNat`).
-/

namespace Tiko.Pitr

open Lib Wal

/-! ## The code -/

/-- `ParseIntError::to_string`. -/
def intErrorText : Hex.IntErrorKind → Str
  | .empty => "cannot parse integer from empty string".toList
  | .invalidDigit => "invalid digit found in string".toList
  | .posOverflow => "number too large to fit in target type".toList

/-- `u64::from_str_radix(s, 16)`. -/
def u64FromStrRadix (s : Str) : Except Hex.IntErrorKind UInt64 :=
  (Hex.fromStrRadix (2 ^ 64) s).map UInt64.ofNat

/-- `invalid LSN: {s}`. -/
def invalidLsn (s : Str) : Str := "invalid LSN: ".toList ++ s

/-- `(hi << 32) | lo`. -/
def joinHalves (hi lo : UInt64) : Lsn := hi <<< 32 ||| lo

/-- `Lsn::from_hex`. -/
def fromHex (hex : Str) : Except Hex.IntErrorKind Lsn := u64FromStrRadix hex

/-- `Lsn::from_pg_string`. -/
def fromPgString (s : Str) : Except Str Lsn :=
  match splitOnce ['/'] s with
  | none => .error (invalidLsn s)
  | some (hi, lo) => do
    let hi ← (u64FromStrRadix hi).mapError intErrorText
    let lo ← (u64FromStrRadix lo).mapError intErrorText
    return joinHalves hi lo

/-- `Lsn::parse_either`. -/
def parseEither (s : Str) : Except Str Lsn :=
  match fromPgString s with
  | .ok lsn => .ok lsn
  | .error _ => (fromHex s).mapError fun e => invalidLsn s ++ ": ".toList ++ intErrorText e

/-- `parse_lsn` of the receiver. -/
def parseLsn (s : Str) : Except Str Lsn :=
  match splitOnce ['/'] s with
  | none => .error (invalidLsn s)
  | some (hi, lo) => do
    let hi ← (u64FromStrRadix hi).mapError fun _ => "invalid LSN high: ".toList ++ hi
    let lo ← (u64FromStrRadix lo).mapError fun _ => "invalid LSN low: ".toList ++ lo
    return joinHalves hi lo

/-! ## What a text writes -/

/-- The text writes the position. -/
def LsnText (s : Str) (x : Lsn) : Prop :=
  ∃ hi lo h l, s = hi ++ '/' :: lo ∧ Hex.Numeral hi h ∧ Hex.Numeral lo l ∧
    h < 2 ^ 32 ∧ l < 2 ^ 32 ∧ x.toNat = h * 2 ^ 32 + l

/-- The parser takes a text exactly for what it writes. -/
def Exact (parse : Str → Except Str Lsn) (s : Str) : Prop := ∀ x, parse s = .ok x ↔ LsnText s x

/-- Two halves that are numerals below `2 ^ 64` are below `2 ^ 32`. -/
def HalvesFit (s : Str) : Prop :=
  ∀ hi lo h l, s = hi ++ '/' :: lo → Hex.Numeral hi h → Hex.Numeral lo l →
    h < 2 ^ 64 → l < 2 ^ 64 → h < 2 ^ 32 ∧ l < 2 ^ 32

variable {s hi lo : Str} {h l : ℕ} {x : Lsn}

/-! ## The halves -/

theorem slash_notMem_of_numeral {v : ℕ} (hv : Hex.Numeral s v) : '/' ∉ s :=
  hv.notMem (by decide) (by decide)

/-- What stands before and after the first occurrence of a pattern makes up the text. -/
theorem eq_append_of_splitOnce {pat pre rest : Str} (hs : splitOnce pat s = some (pre, rest)) :
    s = pre ++ pat ++ rest := by
  induction s generalizing pre with
  | nil =>
    rw [splitOnce] at hs
    split_ifs at hs with hp
    obtain ⟨rfl, rfl⟩ := Prod.mk.inj (Option.some.inj hs)
    obtain rfl : pat = [] := List.prefix_nil.mp (List.isPrefixOf_iff_prefix.mp hp)
    rfl
  | cons c cs ih =>
    rw [splitOnce] at hs
    split_ifs at hs with hp
    · obtain ⟨rfl, rfl⟩ := Prod.mk.inj (Option.some.inj hs)
      exact (List.prefix_iff_eq_append.mp (List.isPrefixOf_iff_prefix.mp hp)).symm
    · obtain ⟨p, hp, he⟩ := Option.map_eq_some_iff.mp hs
      obtain ⟨rfl, rfl⟩ := Prod.mk.inj he
      rw [List.cons_append, List.cons_append, ← ih hp]

theorem splitOnce_slash (hh : '/' ∉ hi) : splitOnce ['/'] (hi ++ '/' :: lo) = some (hi, lo) := by
  have hs : splitOnce ['/'] (hi ++ ['/'] ++ lo) = some (hi, lo) := splitOnce_append hh
  rwa [List.append_assoc, List.singleton_append] at hs

theorem u64FromStrRadix_eq_ok_iff {v : UInt64} :
    u64FromStrRadix s = .ok v ↔ Hex.Numeral s v.toNat := by
  unfold u64FromStrRadix
  constructor
  · intro hv
    cases hs : Hex.fromStrRadix (2 ^ 64) s with
    | error e =>
      rw [hs] at hv
      exact absurd hv (by simp [Except.map])
    | ok n =>
      rw [hs] at hv
      obtain ⟨hn, hlt⟩ := (Hex.fromStrRadix_eq_ok_iff_numeral (by decide)).mp hs
      obtain rfl : UInt64.ofNat n = v := Except.ok.inj hv
      rwa [UInt64.toNat_ofNat_of_lt' hlt]
  · intro hv
    rw [(Hex.fromStrRadix_eq_ok_iff_numeral (by decide)).mpr ⟨hv, v.toNat_lt⟩]
    exact congrArg Except.ok (UInt64.ofNat_toNat)

theorem mapError_eq_ok_iff {ε ε' α : Type} {f : ε → ε'} {e : Except ε α} {a : α} :
    e.mapError f = .ok a ↔ e = .ok a := by
  cases e with
  | error e => simp [Except.mapError]
  | ok b => simp [Except.mapError]

/-- What the parsers have in common: the halves are numbers of 64 bits. -/
def ReadHalves (s : Str) (x : Lsn) : Prop :=
  ∃ hi lo, ∃ h l : UInt64, s = hi ++ '/' :: lo ∧ Hex.Numeral hi h.toNat ∧ Hex.Numeral lo l.toNat ∧
    x = joinHalves h l

/-- A parser that splits a text at the slash and reads both halves with `u64FromStrRadix`, whatever
its error texts. -/
theorem readHalves_iff {f g : Str → Hex.IntErrorKind → Str} {parse : Str → Except Str Lsn}
    (hp : ∀ s, parse s = match splitOnce ['/'] s with
      | none => .error (invalidLsn s)
      | some (hi, lo) => ((u64FromStrRadix hi).mapError (f hi)).bind fun h =>
          ((u64FromStrRadix lo).mapError (g lo)).bind fun l => .ok (joinHalves h l)) :
    parse s = .ok x ↔ ReadHalves s x := by
  rw [hp]
  constructor
  · intro hx
    cases hs : splitOnce ['/'] s with
    | none =>
      rw [hs] at hx
      exact absurd hx (by simp)
    | some p =>
      obtain ⟨hi, lo⟩ := p
      rw [hs] at hx
      cases hh : (u64FromStrRadix hi).mapError (f hi) with
      | error e =>
        simp only [hh] at hx
        exact absurd hx (by simp [Except.bind])
      | ok h =>
        cases hl : (u64FromStrRadix lo).mapError (g lo) with
        | error e =>
          simp only [hh, hl] at hx
          exact absurd hx (by simp [Except.bind])
        | ok l =>
          simp only [hh, hl] at hx
          refine ⟨hi, lo, h, l, ?_, ?_, ?_, (Except.ok.inj hx).symm⟩
          · rw [eq_append_of_splitOnce hs, List.append_assoc, List.singleton_append]
          · exact u64FromStrRadix_eq_ok_iff.mp (mapError_eq_ok_iff.mp hh)
          · exact u64FromStrRadix_eq_ok_iff.mp (mapError_eq_ok_iff.mp hl)
  · rintro ⟨hi, lo, h, l, rfl, hh, hl, rfl⟩
    rw [splitOnce_slash (slash_notMem_of_numeral hh)]
    dsimp only
    rw [u64FromStrRadix_eq_ok_iff.mpr hh, u64FromStrRadix_eq_ok_iff.mpr hl]
    rfl

theorem fromPgString_eq_ok_iff : fromPgString s = .ok x ↔ ReadHalves s x :=
  readHalves_iff (f := fun _ => intErrorText) (g := fun _ => intErrorText) fun _ => rfl

theorem parseLsn_eq_ok_iff : parseLsn s = .ok x ↔ ReadHalves s x :=
  readHalves_iff (f := fun hi _ => "invalid LSN high: ".toList ++ hi)
    (g := fun lo _ => "invalid LSN low: ".toList ++ lo) fun _ => rfl

/-! ## Joining the halves -/

/-- **The join in general**: the upper bits of the high half are lost, and the low half is not kept out
of the high one. -/
theorem joinHalves_toNat (hi lo : UInt64) :
    (joinHalves hi lo).toNat = hi.toNat % 2 ^ 32 * 2 ^ 32 ||| lo.toNat := by
  have hshift : (hi <<< 32).toNat = hi.toNat % 2 ^ 32 * 2 ^ 32 := by
    rw [UInt64.toNat_shiftLeft, Nat.shiftLeft_eq]
    change hi.toNat * 2 ^ 32 % 2 ^ 64 = _
    omega
  rw [joinHalves, UInt64.toNat_or, hshift]

theorem joinHalves_of_fit {hi lo : UInt64} (hh : hi.toNat < 2 ^ 32) (hl : lo.toNat < 2 ^ 32) :
    (joinHalves hi lo).toNat = hi.toNat * 2 ^ 32 + lo.toNat := by
  rw [joinHalves_toNat, Nat.mod_eq_of_lt hh, ← Nat.shiftLeft_eq, Nat.shiftLeft_add_eq_or_of_lt hl]

/-- A printed position is the text of it. -/
theorem lsnText_toPgString (x : Lsn) : LsnText (toPgString x) x := by
  have hx := x.toNat_lt
  refine ⟨_, _, x.toNat / 2 ^ 32, x.toNat % 2 ^ 32, ?_, Hex.numeral_fmt 0 _, Hex.numeral_fmt 0 _,
    by omega, by omega, by omega⟩
  rw [toPgString, List.append_assoc, List.singleton_append]

/-- What a text writes is read. -/
theorem readHalves_of_lsnText (ht : LsnText s x) : ReadHalves s x := by
  obtain ⟨hi, lo, h, l, hs, hh, hl, hlth, hltl, hx⟩ := ht
  have eh : (UInt64.ofNat h).toNat = h := UInt64.toNat_ofNat_of_lt' (hlth.trans (by decide))
  have el : (UInt64.ofNat l).toNat = l := UInt64.toNat_ofNat_of_lt' (hltl.trans (by decide))
  refine ⟨hi, lo, UInt64.ofNat h, UInt64.ofNat l, hs, by rwa [eh], by rwa [el], ?_⟩
  apply UInt64.toNat_inj.mp
  rw [joinHalves_of_fit (by omega) (by omega), eh, el, hx]

/-- The text around the first slash, where the part before it is a numeral. -/
theorem halves_unique {hi' lo' : Str} {v w : ℕ} (hv : Hex.Numeral hi v) (hw : Hex.Numeral hi' w)
    (he : hi ++ '/' :: lo = hi' ++ '/' :: lo') : hi = hi' ∧ lo = lo' := by
  have h1 : splitOnce ['/'] (hi ++ '/' :: lo) = some (hi, lo) :=
    splitOnce_slash (slash_notMem_of_numeral hv)
  have h2 : splitOnce ['/'] (hi' ++ '/' :: lo') = some (hi', lo') :=
    splitOnce_slash (slash_notMem_of_numeral hw)
  rw [he, h2] at h1
  exact ⟨(Prod.mk.inj (Option.some.inj h1)).1.symm, (Prod.mk.inj (Option.some.inj h1)).2.symm⟩

/-- **A parser of the two halves is exact where they fit, and nowhere else.** -/
theorem exact_iff_halvesFit {parse : Str → Except Str Lsn}
    (hp : ∀ s x, parse s = .ok x ↔ ReadHalves s x) (s : Str) : Exact parse s ↔ HalvesFit s := by
  constructor
  · intro he hi lo h l hs hh hl hlth hltl
    have eh : (UInt64.ofNat h).toNat = h := UInt64.toNat_ofNat_of_lt' hlth
    have el : (UInt64.ofNat l).toNat = l := UInt64.toNat_ofNat_of_lt' hltl
    have hread : ReadHalves s (joinHalves (UInt64.ofNat h) (UInt64.ofNat l)) :=
      ⟨hi, lo, _, _, hs, by rwa [eh], by rwa [el], rfl⟩
    -- the parser takes the text, so the text must write what it takes
    obtain ⟨hi', lo', h', l', hs', hh', hl', hlth', hltl', -⟩ := (he _).mp ((hp s _).mpr hread)
    obtain ⟨rfl, rfl⟩ := halves_unique hh hh' (hs.symm.trans hs')
    rw [hh.unique hh', hl.unique hl']
    exact ⟨hlth', hltl'⟩
  · intro hf x
    rw [hp]
    constructor
    · rintro ⟨hi, lo, h, l, hs, hh, hl, rfl⟩
      obtain ⟨hlth, hltl⟩ := hf hi lo _ _ hs hh hl h.toNat_lt l.toNat_lt
      exact ⟨hi, lo, _, _, hs, hh, hl, hlth, hltl, joinHalves_of_fit hlth hltl⟩
    · exact readHalves_of_lsnText

theorem parseEither_of_fromPgString (hs : fromPgString s = .ok x) : parseEither s = .ok x := by
  rw [parseEither, hs]

/-- **The parsers give back every printed position, and each of them is exact on a text if and only if
its halves fit.** -/
theorem parsers_exact_iff (x : Lsn) (s : Str) :
    (fromPgString (toPgString x) = .ok x ∧ parseEither (toPgString x) = .ok x ∧
      parseLsn (toPgString x) = .ok x) ∧
    (Exact fromPgString s ↔ HalvesFit s) ∧ (Exact parseLsn s ↔ HalvesFit s) := by
  constructor
  · have hread := readHalves_of_lsnText (lsnText_toPgString x)
    have hpg : fromPgString (toPgString x) = .ok x := fromPgString_eq_ok_iff.mpr hread
    exact ⟨hpg, parseEither_of_fromPgString hpg, parseLsn_eq_ok_iff.mpr hread⟩
  · exact ⟨exact_iff_halvesFit (fun _ _ => fromPgString_eq_ok_iff) s,
      exact_iff_halvesFit (fun _ _ => parseLsn_eq_ok_iff) s⟩

/-- A high half of nine digits. -/
def longHigh : Str := ['1', '0', '0', '0', '0', '0', '0', '0', 'A', '/', '0']

/-- A low half of nine digits. -/
def longLow : Str := ['0', '/', '1', '0', '0', '0', '0', '0', '0', '0', 'B']

theorem not_halvesFit (hh : Hex.Numeral hi h) (hl : Hex.Numeral lo l) (hlth : h < 2 ^ 64)
    (hltl : l < 2 ^ 64) (hlong : ¬ (h < 2 ^ 32 ∧ l < 2 ^ 32)) : ¬ HalvesFit (hi ++ '/' :: lo) :=
  fun hf => hlong (hf hi lo h l rfl hh hl hlth hltl)

/-- `10000000A/0` is read as `A/0`, and `0/10000000B` as `1/B`. -/
theorem long_halves_accepted :
    fromPgString longHigh = .ok 0xA00000000 ∧ parseLsn longLow = .ok 0x10000000B ∧
      ¬ Exact fromPgString longHigh ∧ ¬ Exact parseLsn longLow := by
  have hzero : Hex.Numeral ['0'] 0 := ⟨['0'], [0], .inl rfl, by decide, by decide, by decide⟩
  have hA : Hex.Numeral ['1', '0', '0', '0', '0', '0', '0', '0', 'A'] 0x10000000A :=
    ⟨_, [1, 0, 0, 0, 0, 0, 0, 0, 10], .inl rfl, by decide, by decide, by decide⟩
  have hB : Hex.Numeral ['1', '0', '0', '0', '0', '0', '0', '0', 'B'] 0x10000000B :=
    ⟨_, [1, 0, 0, 0, 0, 0, 0, 0, 11], .inl rfl, by decide, by decide, by decide⟩
  have hhigh : ¬ HalvesFit longHigh :=
    not_halvesFit hA hzero (by decide) (by decide) (by decide)
  have hlow : ¬ HalvesFit longLow :=
    not_halvesFit hzero hB (by decide) (by decide) (by decide)
  refine ⟨by decide +kernel, by decide +kernel, ?_, ?_⟩
  · rwa [exact_iff_halvesFit fun _ _ => fromPgString_eq_ok_iff]
  · rwa [exact_iff_halvesFit fun _ _ => parseLsn_eq_ok_iff]

/-! ## The recovery target of the command line -/

theorem fromHex_eq_ok_iff : fromHex s = .ok x ↔ Hex.Numeral s x.toNat := u64FromStrRadix_eq_ok_iff

/-- The fixed-width form reads back. -/
theorem fromHex_lsnToHex (x : Lsn) : fromHex (lsnToHex x) = .ok x :=
  fromHex_eq_ok_iff.mpr (Hex.numeral_fmt 16 _)

/-- **A target is two halves or a single number**, and no text is both. -/
theorem parseEither_eq_ok_iff :
    parseEither s = .ok x ↔ ReadHalves s x ∨ Hex.Numeral s x.toNat := by
  rw [← fromPgString_eq_ok_iff, ← fromHex_eq_ok_iff, parseEither]
  cases hs : fromPgString s with
  | error e => simp [mapError_eq_ok_iff]
  | ok y =>
    -- a text of two halves has a slash, which no numeral has
    obtain ⟨hi, lo, h, l, rfl, -⟩ := fromPgString_eq_ok_iff.mp hs
    have hnone : fromHex (hi ++ '/' :: lo) ≠ .ok x := by
      intro hx
      exact slash_notMem_of_numeral (fromHex_eq_ok_iff.mp hx) (by simp)
    simp [hnone]

end Tiko.Pitr

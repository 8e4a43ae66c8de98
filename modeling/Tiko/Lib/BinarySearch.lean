import Mathlib.Order.Defs.LinearOrder
import Mathlib.Tactic

/-!
# Binary search over an indexed table

`bsearch key k fuel lo hi` halves the half-open range `[lo, hi)` of a table whose entry `i` has the
key `key i`, until it meets `k` or the range is empty. One step removes at least one entry, so
`hi - lo` steps always suffice.

**`bsearch_eq_some_iff`**: on a strictly ascending table the search returns `i` exactly when entry
`i` has the key.
-/

namespace Lib

variable {K : Type} [LinearOrder K]

/-- Search `[lo, hi)` for the entry with key `k`. -/
def bsearchFrom (key : ℕ → K) (k : K) : ℕ → ℕ → ℕ → Option ℕ
  | 0, _, _ => none
  | fuel + 1, lo, hi =>
    if lo < hi then
      let mid := lo + (hi - lo) / 2
      if key mid = k then some mid
      else if key mid < k then bsearchFrom key k fuel (mid + 1) hi
      else bsearchFrom key k fuel lo mid
    else none

/-- Search the first `n` entries for the key `k`. -/
def bsearch (key : ℕ → K) (k : K) (n : ℕ) : Option ℕ := bsearchFrom key k n 0 n

/-- Entries strictly ascend below `n`. -/
def AscendingBelow (key : ℕ → K) (n : ℕ) : Prop := ∀ i j, i < j → j < n → key i < key j

theorem AscendingBelow.eq_of_key_eq {key : ℕ → K} {n i j : ℕ} (h : AscendingBelow key n)
    (hi : i < n) (hj : j < n) (he : key i = key j) : i = j := by
  rcases Nat.lt_trichotomy i j with hlt | heq | hgt
  · exact absurd he (ne_of_lt (h i j hlt hj))
  · exact heq
  · exact absurd he (ne_of_gt (h j i hgt hi))

/-- The search reads no entry behind its range. -/
theorem bsearchFrom_congr {key key' : ℕ → K} {n : ℕ} (h : ∀ i < n, key i = key' i) (k : K)
    (fuel lo hi : ℕ) (hn : hi ≤ n) : bsearchFrom key k fuel lo hi = bsearchFrom key' k fuel lo hi := by
  induction fuel generalizing lo hi with
  | zero => rfl
  | succ fuel ih =>
    rw [bsearchFrom, bsearchFrom]
    split_ifs with hlt
    · have hmid : lo + (hi - lo) / 2 < hi := by omega
      dsimp only
      rw [h _ (hmid.trans_le hn), ih _ _ hn, ih _ _ (hmid.le.trans hn)]
    · rfl

theorem bsearch_congr {key key' : ℕ → K} {n : ℕ} (h : ∀ i < n, key i = key' i) (k : K) :
    bsearch key k n = bsearch key' k n := bsearchFrom_congr h k n 0 n le_rfl

theorem bsearchFrom_sound {key : ℕ → K} {k : K} (fuel lo hi i : ℕ)
    (h : bsearchFrom key k fuel lo hi = some i) : lo ≤ i ∧ i < hi ∧ key i = k := by
  induction fuel generalizing lo hi with
  | zero => simp [bsearchFrom] at h
  | succ fuel ih =>
    rw [bsearchFrom] at h
    dsimp only at h
    split_ifs at h with hlt heq hless
    · obtain rfl := Option.some.inj h
      exact ⟨by omega, by omega, heq⟩
    · obtain ⟨h1, h2, h3⟩ := ih _ _ h
      exact ⟨by omega, h2, h3⟩
    · obtain ⟨h1, h2, h3⟩ := ih _ _ h
      exact ⟨h1, by omega, h3⟩

theorem bsearchFrom_complete {key : ℕ → K} {n : ℕ} (hkey : AscendingBelow key n)
    (fuel lo hi i : ℕ) (hf : hi - lo ≤ fuel) (hn : hi ≤ n) (hlo : lo ≤ i) (hhi : i < hi) :
    bsearchFrom key (key i) fuel lo hi = some i := by
  induction fuel generalizing lo hi with
  | zero => omega
  | succ fuel ih =>
    rw [bsearchFrom, if_pos (by omega)]
    dsimp only
    -- the entry with the key lies on the side the comparison keeps
    split_ifs with heq hless
    · rw [hkey.eq_of_key_eq (by omega) (by omega) heq]
    · refine ih _ _ (by omega) hn ?_ hhi
      by_contra hc
      rcases Nat.lt_or_eq_of_le (show i ≤ lo + (hi - lo) / 2 by omega) with hi' | hi'
      · exact absurd (hkey _ _ hi' (by omega)) (not_lt.mpr hless.le)
      · exact heq (by rw [hi'])
    · refine ih _ _ (by omega) (by omega) hlo ?_
      by_contra hc
      rcases Nat.lt_or_eq_of_le (show lo + (hi - lo) / 2 ≤ i by omega) with hi' | hi'
      · exact hless (hkey _ _ hi' (by omega))
      · exact heq (by rw [hi'])

/-- **The search is exact on an ascending table.** -/
theorem bsearch_eq_some_iff {key : ℕ → K} {k : K} {n i : ℕ} (hkey : AscendingBelow key n) :
    bsearch key k n = some i ↔ i < n ∧ key i = k := by
  constructor
  · intro h
    exact (bsearchFrom_sound n 0 n i h).2
  · rintro ⟨hi, rfl⟩
    exact bsearchFrom_complete hkey n 0 n i (by omega) le_rfl (Nat.zero_le i) hi

theorem bsearch_eq_none_iff {key : ℕ → K} {k : K} {n : ℕ} (hkey : AscendingBelow key n) :
    bsearch key k n = none ↔ ∀ i < n, key i ≠ k := by
  constructor
  · intro h i hi he
    rw [(bsearch_eq_some_iff hkey).mpr ⟨hi, he⟩] at h
    exact Option.some_ne_none _ h
  · intro h
    by_contra hc
    obtain ⟨i, hi⟩ := Option.ne_none_iff_exists'.mp hc
    obtain ⟨hlt, he⟩ := (bsearch_eq_some_iff hkey).mp hi
    exact h i hlt he

end Lib

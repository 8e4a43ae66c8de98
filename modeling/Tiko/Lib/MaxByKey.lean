import Mathlib.Data.List.MinMax

/-!
# Maxima by a key

`maxByKey f l` is the last element of a list with the largest key, as `Iterator::max_by_key` returns
it: `List.argmax`, which takes the first one, of the reversed list.

* `mem_of_maxByKey`, `le_of_maxByKey`: what it returns is in the list, and no key is larger;
* `maxByKey_filter_eq_some_iff`: **the maximum of the elements that pass a test**, for keys that tell
  the elements apart.
-/

namespace Lib

variable {α K : Type} [LinearOrder K] {f : α → K} {l : List α} {a : α}

/-- The last element with the largest key. -/
def maxByKey (f : α → K) (l : List α) : Option α := l.reverse.argmax f

theorem mem_of_maxByKey (h : maxByKey f l = some a) : a ∈ l :=
  List.mem_reverse.mp (List.argmax_mem h)

theorem le_of_maxByKey (h : maxByKey f l = some a) {b : α} (hb : b ∈ l) : f b ≤ f a :=
  List.le_of_mem_argmax (List.mem_reverse.mpr hb) h

theorem maxByKey_eq_none_iff : maxByKey f l = none ↔ l = [] := by
  rw [maxByKey, List.argmax_eq_none, List.reverse_eq_nil_iff]

theorem exists_maxByKey (ha : a ∈ l) : ∃ b, maxByKey f l = some b := by
  cases h : maxByKey f l with
  | none =>
    rw [maxByKey_eq_none_iff.mp h] at ha
    exact absurd ha List.not_mem_nil
  | some b => exact ⟨b, rfl⟩

theorem maxByKey_filter_eq_some_iff (hf : Function.Injective f) {p : α → Bool} :
    maxByKey f (l.filter p) = some a ↔ a ∈ l ∧ p a = true ∧ ∀ b ∈ l, p b = true → f b ≤ f a := by
  constructor
  · intro h
    obtain ⟨hmem, hp⟩ := List.mem_filter.mp (mem_of_maxByKey h)
    exact ⟨hmem, hp, fun b hb hpb => le_of_maxByKey h (List.mem_filter.mpr ⟨hb, hpb⟩)⟩
  · rintro ⟨hmem, hp, hmax⟩
    obtain ⟨b, hb⟩ := exists_maxByKey (f := f) (List.mem_filter.mpr ⟨hmem, hp⟩)
    obtain ⟨hbl, hpb⟩ := List.mem_filter.mp (mem_of_maxByKey hb)
    have hle := le_of_maxByKey hb (List.mem_filter.mpr ⟨hmem, hp⟩)
    rw [hb, hf (le_antisymm (hmax b hbl hpb) hle)]

end Lib

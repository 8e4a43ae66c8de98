import Mathlib.Data.List.Basic
import Mathlib.Tactic

/-!
# Slices of a stream

A stream is a function from positions to values; `slice w a k` are the `k` values from position `a` on.
`slice_append`, `take_slice` and `drop_slice` cut and join slices.

`overwrite l a d` is a list with other values from position `a` on, which may reach beyond its end.
-/

namespace Lib

variable {α : Type} (w : ℕ → α) (a j k : ℕ)

/-- The `k` values from position `a` on. -/
def slice : List α := (List.range k).map fun i => w (a + i)

@[simp] theorem length_slice : (slice w a k).length = k := by simp [slice]

@[simp] theorem slice_zero : slice w a 0 = [] := rfl

theorem getElem?_slice (i : ℕ) : (slice w a k)[i]? = if i < k then some (w (a + i)) else none := by
  split_ifs with h
  · simp [slice, h]
  · simp only [slice, List.getElem?_map, Option.map_eq_none_iff, List.getElem?_eq_none_iff,
      List.length_range]
    omega

theorem slice_append : slice w a j ++ slice w (a + j) k = slice w a (j + k) := by
  rw [slice, slice, slice, List.range_add, List.map_append, List.map_map]
  congr 1
  refine List.map_congr_left fun i _ => ?_
  rw [Function.comp_apply, Nat.add_assoc]

theorem drop_slice : (slice w a k).drop j = slice w (a + j) (k - j) := by
  refine List.ext_getElem? fun i => ?_
  rw [List.getElem?_drop, getElem?_slice, getElem?_slice, Nat.add_assoc]
  split_ifs
  · rfl
  · omega
  · omega
  · rfl

theorem take_slice : (slice w a k).take j = slice w a (min j k) := by
  refine List.ext_getElem? fun i => ?_
  rw [List.getElem?_take, getElem?_slice, getElem?_slice]
  split_ifs <;> first | rfl | omega

/-- A list is a slice of a stream that agrees with it. -/
theorem eq_slice_iff {w : ℕ → α} {a : ℕ} {l : List α} :
    l = slice w a l.length ↔ ∀ i < l.length, l[i]? = some (w (a + i)) := by
  constructor
  · intro h i hi
    rw [h, getElem?_slice, if_pos hi]
  · intro h
    refine List.ext_getElem? fun i => ?_
    rw [getElem?_slice]
    split_ifs with hi
    · exact h i hi
    · exact List.getElem?_eq_none_iff.mpr (by omega)

/-! ## Overwriting a part of a list -/

/-- A list with the values `d` from position `a` on. -/
def overwrite (l : List α) (a : ℕ) (d : List α) : List α := l.take a ++ d ++ l.drop (a + d.length)

section Overwrite

variable {l d : List α} {a : ℕ}

theorem length_overwrite (ha : a ≤ l.length) : (overwrite l a d).length = max l.length (a + d.length) := by
  simp only [overwrite, List.length_append, List.length_take, List.length_drop]
  omega

theorem getElem?_overwrite (ha : a ≤ l.length) (i : ℕ) :
    (overwrite l a d)[i]? = if a ≤ i ∧ i < a + d.length then d[i - a]? else l[i]? := by
  have hlen : (l.take a).length = a := List.length_take_of_le ha
  rw [overwrite, List.append_assoc]
  by_cases h1 : i < a
  · rw [if_neg (by omega), List.getElem?_append_left (by omega), List.getElem?_take_of_lt h1]
  · rw [List.getElem?_append_right (by omega), hlen]
    by_cases h2 : i < a + d.length
    · rw [if_pos (by omega), List.getElem?_append_left (by omega)]
    · rw [if_neg (by omega), List.getElem?_append_right (by omega), List.getElem?_drop]
      congr 1
      omega

@[simp] theorem overwrite_nil : overwrite l a [] = l := by
  simp [overwrite]

end Overwrite

end Lib

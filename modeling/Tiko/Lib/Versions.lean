import Tiko.Lib.Newest

/-!
# Versions of the values of a store

A store writes under prefixes that never descend. `writes` lists all its writes in order, each with its
prefix, key and value, and `versionAt writes p k` is what the prefix `p` holds of the key `k` in the
end.

`Recent writes k since v`: the value `v` was written no earlier than every write of `k` among the first
`since`. **`recent_versionAt`**: so is what a prefix holds, if it is at or above the prefixes of those
writes.
-/

namespace Lib

variable {P K V : Type} [LinearOrder P] [DecidableEq K]

/-- The value of a write under a prefix. -/
def writeAt (p : P) (k : K) (w : P × K × V) : Option V :=
  if w.1 = p ∧ w.2.1 = k then some w.2.2 else none

/-- What a prefix holds of a key after all writes. -/
def versionAt (writes : List (P × K × V)) (p : P) (k : K) : Option V := newest (writeAt p k) writes

/-- The value `v` of `k` is not older than the writes of `k` among the first `since`. -/
def Recent (writes : List (P × K × V)) (k : K) (since : ℕ) (v : V) : Prop :=
  ∃ (j : ℕ) (p : P), writes[j]? = some (p, k, v) ∧
    ∀ i < since, ∀ q v', writes[i]? = some (q, k, v') → i ≤ j

variable {writes : List (P × K × V)} {p : P} {k : K} {v : V} {since : ℕ}

omit [LinearOrder P] [DecidableEq K] in
theorem Recent.append (h : Recent writes k since v) (hs : since ≤ writes.length)
    (more : List (P × K × V)) : Recent (writes ++ more) k since v := by
  obtain ⟨j, p, hj, hmax⟩ := h
  refine ⟨j, p, ?_, fun i hi q v' hw => ?_⟩
  · rw [List.getElem?_append_left (List.getElem?_eq_some_iff.mp hj).1]
    exact hj
  · rw [List.getElem?_append_left (hi.trans_le hs)] at hw
    exact hmax i hi q v' hw

theorem writeAt_isSome {w : P × K × V} : (writeAt p k w).isSome = true ↔ w.1 = p ∧ w.2.1 = k := by
  rw [writeAt]
  split_ifs with h
  · simp [h]
  · simp [h]

theorem versionAt_append_singleton (writes : List (P × K × V)) (w : P × K × V) (p : P) (k : K) :
    versionAt (writes ++ [w]) p k =
      if w.1 = p ∧ w.2.1 = k then some w.2.2 else versionAt writes p k := by
  rw [versionAt, newest_append_singleton, writeAt]
  split_ifs with h
  · rfl
  · rfl

theorem versionAt_eq_none_iff :
    versionAt writes p k = none ↔ ∀ w ∈ writes, w.1 = p → w.2.1 ≠ k := by
  rw [versionAt, newest_eq_none_iff]
  refine forall₂_congr fun w _ => ?_
  rw [← Option.not_isSome_iff_eq_none, writeAt_isSome, not_and]

/-- A version is a write, the last one of its prefix and key. -/
theorem exists_of_versionAt (h : versionAt writes p k = some v) : ∃ j : ℕ, writes[j]? = some (p, k, v) ∧
    ∀ (i : ℕ) v', writes[i]? = some (p, k, v') → i ≤ j := by
  induction writes using List.reverseRecOn with
  | nil => exact absurd h (by simp [versionAt, newest])
  | append_singleton writes w ih =>
    rw [versionAt_append_singleton] at h
    have hlen : ∀ {i : ℕ} {x : P × K × V}, (writes ++ [w])[i]? = some x → i ≤ writes.length := by
      intro i x hi
      have := (List.getElem?_eq_some_iff.mp hi).1
      simp only [List.length_append, List.length_singleton] at this
      omega
    split_ifs at h with hw
    · refine ⟨writes.length, ?_, fun i v' hi => hlen hi⟩
      rw [List.getElem?_concat_length, ← Option.some.inj h, ← hw.1, ← hw.2]
    · obtain ⟨j, hj, hmax⟩ := ih h
      have hjlt := (List.getElem?_eq_some_iff.mp hj).1
      refine ⟨j, ?_, fun i v' hi => ?_⟩
      · rw [List.getElem?_append_left hjlt]
        exact hj
      · rcases Nat.lt_or_eq_of_le (hlen hi) with hlt | heq
        · rw [List.getElem?_append_left hlt] at hi
          exact hmax i v' hi
        · rw [heq, List.getElem?_concat_length] at hi
          exact absurd ⟨congrArg Prod.fst (Option.some.inj hi),
            congrArg (·.2.1) (Option.some.inj hi)⟩ hw

/-- **What a prefix holds is recent**, if no write among the first `since` went to a later prefix. -/
theorem recent_versionAt (hmono : writes.Pairwise fun w w' => w.1 ≤ w'.1)
    (h : versionAt writes p k = some v)
    (hp : ∀ i < since, ∀ q v', writes[i]? = some (q, k, v') → q ≤ p) :
    Recent writes k since v := by
  obtain ⟨j, hj, hmax⟩ := exists_of_versionAt h
  refine ⟨j, p, hj, fun i hi q v' hw => ?_⟩
  rcases lt_or_eq_of_le (hp i hi q v' hw) with hlt | heq
  · -- a later write of a lower prefix does not exist
    by_contra hji
    obtain ⟨hjl, hj⟩ := List.getElem?_eq_some_iff.mp hj
    obtain ⟨hil, hw⟩ := List.getElem?_eq_some_iff.mp hw
    have hle := List.pairwise_iff_getElem.mp hmono j i hjl hil (not_le.mp hji)
    rw [hj, hw] at hle
    exact absurd hlt (not_lt.mpr hle)
  · rw [heq] at hw
    exact hmax i v' hw

end Lib

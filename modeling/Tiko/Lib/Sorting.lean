import Mathlib.Data.List.Sort
import Mathlib.Tactic
import Tiko.Lib.SortedMap

/-!
# Unstable sorting and deduplication

* `UnstableSort r`: a sorting function of which only the specification is known, a permutation of
  its input in the order `r`; elements that compare equal may come out in any order;
* `dedupByKey`: keeps the first entry of every run of equal keys;
* `firstEntries`: on a list whose keys ascend, deduplication gives the map of first entries.
-/

namespace Lib

/-- A sort for the relation `r`; the order of elements that compare equal is left open. -/
structure UnstableSort {α : Type} (r : α → α → Prop) where
  sort : List α → List α
  perm : ∀ l, (sort l).Perm l
  pairwise : ∀ l, (sort l).Pairwise r

namespace UnstableSort

variable {α : Type} {r s : α → α → Prop}

theorem mem_sort (S : UnstableSort r) {l : List α} {a : α} : a ∈ S.sort l ↔ a ∈ l :=
  (S.perm l).mem_iff

/-- Insertion sort for a relation that refines `r`. -/
def ofRefinement [DecidableRel s] [Std.Total s] [IsTrans α s] (h : ∀ a b, s a b → r a b) :
    UnstableSort r where
  sort := List.insertionSort s
  perm := List.perm_insertionSort s
  pairwise l := (List.pairwise_insertionSort s l).imp fun {a b} => h a b

end UnstableSort

section Dedup

variable {K V : Type} [LinearOrder K]

/-- Drop the leading entries with key `k`, and deduplicate the rest. -/
def dedupAfter (k : K) : List (K × V) → List (K × V)
  | [] => []
  | a :: l => if a.1 = k then dedupAfter k l else a :: dedupAfter a.1 l

/-- `Vec::dedup_by_key` on the first component: keep the first of consecutive equal keys. -/
def dedupByKey : List (K × V) → List (K × V)
  | [] => []
  | a :: l => a :: dedupAfter a.1 l

theorem sorted_dedupAfter (k : K) {l : List (K × V)} (h : l.Pairwise fun a b => a.1 ≤ b.1)
    (hk : ∀ a ∈ l, k ≤ a.1) :
    (dedupAfter k l).Pairwise (fun a b => a.1 < b.1) ∧ ∀ a ∈ dedupAfter k l, k < a.1 := by
  induction l generalizing k with
  | nil => exact ⟨.nil, fun a ha => absurd ha List.not_mem_nil⟩
  | cons a l ih =>
    obtain ⟨hle, hl⟩ := List.pairwise_cons.mp h
    rw [dedupAfter]
    split_ifs with hak
    · exact ih k hl fun b hb => hk b (List.mem_cons_of_mem _ hb)
    · obtain ⟨hs, hgt⟩ := ih a.1 hl hle
      have hka : k < a.1 := lt_of_le_of_ne (hk a List.mem_cons_self) (Ne.symm hak)
      refine ⟨List.pairwise_cons.mpr ⟨hgt, hs⟩, fun b hb => ?_⟩
      rcases List.mem_cons.mp hb with rfl | hb
      · exact hka
      · exact hka.trans (hgt b hb)

/-- Deduplicating a list whose keys ascend makes them ascend strictly. -/
theorem sorted_dedupByKey {l : List (K × V)} (h : l.Pairwise fun a b => a.1 ≤ b.1) :
    (dedupByKey l).Pairwise fun a b => a.1 < b.1 := by
  cases l with
  | nil => exact .nil
  | cons a l =>
    obtain ⟨hle, hl⟩ := List.pairwise_cons.mp h
    obtain ⟨hs, hgt⟩ := sorted_dedupAfter a.1 hl hle
    exact List.pairwise_cons.mpr ⟨hgt, hs⟩

theorem lookup_dedupAfter {k k' : K} (hne : k' ≠ k) (l : List (K × V)) :
    (dedupAfter k l).lookup k' = l.lookup k' := by
  induction l generalizing k with
  | nil => rfl
  | cons a l ih =>
    rw [dedupAfter, SortedMap.lookup_cons_eq]
    split_ifs with hak hk
    · exact absurd (hk.trans hak) hne
    · exact ih hne
    · rw [SortedMap.lookup_cons_eq, if_pos ‹k' = a.1›]
    · rw [SortedMap.lookup_cons_eq, if_neg ‹¬k' = a.1›, ih ‹¬k' = a.1›]

/-- **Deduplication keeps the first entry of every key.** -/
theorem lookup_dedupByKey (l : List (K × V)) (k : K) :
    (dedupByKey l).lookup k = l.lookup k := by
  cases l with
  | nil => rfl
  | cons a l =>
    rw [dedupByKey, SortedMap.lookup_cons_eq, SortedMap.lookup_cons_eq]
    split_ifs with h
    · rfl
    · exact lookup_dedupAfter h l

/-- The first entry of a key is an entry, and comes before the others in the list's order. -/
theorem rel_of_lookup_eq_some {r : K × V → K × V → Prop} (hr : ∀ a, r a a) {l : List (K × V)}
    (h : l.Pairwise r) {k : K} {v : V} (hv : l.lookup k = some v) :
    (k, v) ∈ l ∧ ∀ w, (k, w) ∈ l → r (k, v) (k, w) := by
  induction l with
  | nil => exact absurd hv (by simp)
  | cons a l ih =>
    obtain ⟨hrel, hl⟩ := List.pairwise_cons.mp h
    rw [SortedMap.lookup_cons_eq] at hv
    split_ifs at hv with hk
    · have ha : a = (k, v) := Prod.ext hk.symm (Option.some.inj hv)
      subst ha
      refine ⟨List.mem_cons_self, fun w hw => ?_⟩
      rcases List.mem_cons.mp hw with hw | hw
      · rw [hw]
        exact hr _
      · exact hrel _ hw
    · obtain ⟨hmem, hall⟩ := ih hl hv
      refine ⟨List.mem_cons_of_mem _ hmem, fun w hw => ?_⟩
      rcases List.mem_cons.mp hw with hw | hw
      · exact absurd (congrArg Prod.fst hw) hk
      · exact hall w hw

theorem lookup_eq_none_iff_forall {l : List (K × V)} {k : K} :
    l.lookup k = none ↔ ∀ v, (k, v) ∉ l := by
  induction l with
  | nil => simp
  | cons a l ih =>
    obtain ⟨k', v'⟩ := a
    rw [SortedMap.lookup_cons_eq]
    by_cases hk : k = k'
    · subst hk
      simp only [if_pos, reduceCtorEq, List.mem_cons, not_or, false_iff, not_forall]
      exact ⟨v', fun h => h.1 rfl⟩
    · simp [hk, ih]

/-- The map of the first entries of every key, of a list whose keys ascend. -/
def firstEntries (l : List (K × V)) (h : l.Pairwise fun a b => a.1 ≤ b.1) : SortedMap K V :=
  ⟨dedupByKey l, sorted_dedupByKey h⟩

theorem lookup_firstEntries_eq_none_iff {l : List (K × V)}
    {h : l.Pairwise fun a b => a.1 ≤ b.1} {k : K} :
    (firstEntries l h).lookup k = none ↔ ∀ v, (k, v) ∉ l := by
  rw [firstEntries, SortedMap.lookup, lookup_dedupByKey, lookup_eq_none_iff_forall]

/-- **The chosen entry of a key comes first in the order of the list.** -/
theorem lookup_firstEntries_spec {r : K × V → K × V → Prop} (hr : ∀ a, r a a) {l : List (K × V)}
    {h : l.Pairwise fun a b => a.1 ≤ b.1} (hl : l.Pairwise r) {k : K} {v : V}
    (hv : (firstEntries l h).lookup k = some v) :
    (k, v) ∈ l ∧ ∀ w, (k, w) ∈ l → r (k, v) (k, w) := by
  rw [firstEntries, SortedMap.lookup, lookup_dedupByKey] at hv
  exact rel_of_lookup_eq_some hr hl hv

end Dedup

end Lib

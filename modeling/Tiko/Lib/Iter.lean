import Mathlib.Tactic

/-!
# Iterators

A `next` that returns an item or `none`, and the state after the call.

* `after`: the state after a number of calls;
* `Yields`: the calls return the items of a list, and `none` from then on;
* `collect`: what a loop over the iterator sees;
* `Tiles`: intervals that follow each other from `lo` to `hi`, none of them empty.

**`Yields.of_states`**: what an iterator yields, from its states one by one.
-/

namespace Lib

namespace Iter

variable {σ α : Type*} (next : σ → Option α × σ)

/-- The state after `k` calls. -/
def after (s : σ) : ℕ → σ
  | 0 => s
  | k + 1 => (next (after s k)).2

/-- The calls return the items, in order, and `none` after them. -/
def Yields (s : σ) (items : List α) : Prop := ∀ k, (next (after next s k)).1 = items[k]?

variable {next}

theorem after_eq {s : σ} {st : ℕ → σ} {n : ℕ} (h0 : st 0 = s)
    (hstep : ∀ k < n, (next (st k)).2 = st (k + 1)) : ∀ k ≤ n, after next s k = st k := by
  intro k hk
  induction k with
  | zero => exact h0.symm
  | succ k ih => rw [after, ih (by omega), hstep k (by omega)]

theorem after_last {s : σ} {st : ℕ → σ} {n : ℕ} (h0 : st 0 = s)
    (hstep : ∀ k < n, (next (st k)).2 = st (k + 1)) (hlast : (next (st n)).2 = st n) :
    ∀ k, n ≤ k → after next s k = st n := by
  intro k hk
  induction k, hk using Nat.le_induction with
  | base => exact after_eq h0 hstep n le_rfl
  | succ k _ ih => rw [after, ih, hlast]

/-- **What an iterator yields, from its states.** -/
theorem Yields.of_states {s : σ} {st : ℕ → σ} {x : ℕ → α} {n : ℕ} (h0 : st 0 = s)
    (hstep : ∀ k < n, next (st k) = (some (x k), st (k + 1)))
    (hlast : next (st n) = (none, st n)) : Yields next s ((List.range n).map x) := by
  have hstep' : ∀ k < n, (next (st k)).2 = st (k + 1) := fun k hk => by rw [hstep k hk]
  intro k
  by_cases hk : k < n
  · rw [after_eq h0 hstep' k hk.le, hstep k hk, List.getElem?_map, List.getElem?_range hk,
      Option.map_some]
  · rw [after_last h0 hstep' (by rw [hlast]) k (by omega), hlast, List.getElem?_eq_none]
    rw [List.length_map, List.length_range]
    omega

theorem after_succ (s : σ) (k : ℕ) : after next (next s).2 k = after next s (k + 1) := by
  induction k with
  | zero => rfl
  | succ k ih => rw [after, ih, ← after]

/-- The items of a loop over the iterator, of at most `fuel` rounds. -/
def collect (next : σ → Option α × σ) : ℕ → σ → List α
  | 0, _ => []
  | fuel + 1, s =>
    match (next s).1 with
    | some x => x :: collect next fuel (next s).2
    | none => []

theorem Yields.tail {s : σ} {x : α} {items : List α} (h : Yields next s (x :: items)) :
    Yields next (next s).2 items := by
  intro k
  rw [after_succ, h (k + 1), List.getElem?_cons_succ]

/-- **A loop with enough rounds sees what the iterator yields.** -/
theorem Yields.collect_eq {s : σ} {items : List α} {fuel : ℕ} (h : Yields next s items)
    (hfuel : items.length ≤ fuel) : collect next fuel s = items := by
  induction items generalizing s fuel with
  | nil =>
    have hnone : (next s).1 = none := h 0
    cases fuel with
    | zero => rfl
    | succ fuel => rw [collect, hnone]
  | cons x items ih =>
    have hsome : (next s).1 = some x := h 0
    cases fuel with
    | zero => exact absurd hfuel (by simp)
    | succ fuel =>
      rw [collect, hsome]
      dsimp only
      rw [ih h.tail (Nat.le_of_succ_le_succ hfuel)]

end Iter

/-! ## Tilings -/

/-- The intervals follow each other from `lo` to `hi`. -/
def Tiles : ℕ → List (ℕ × ℕ) → ℕ → Prop
  | lo, [], hi => lo = hi
  | lo, r :: rs, hi => r.1 = lo ∧ lo < r.2 ∧ Tiles r.2 rs hi

theorem Tiles.snoc {lo mid hi : ℕ} {rs : List (ℕ × ℕ)} (h : Tiles lo rs mid) (hlt : mid < hi) :
    Tiles lo (rs ++ [(mid, hi)]) hi := by
  induction rs generalizing lo with
  | nil => exact ⟨h.symm, (show lo = mid from h) ▸ hlt, rfl⟩
  | cons r rs ih => exact ⟨h.1, h.2.1, ih h.2.2⟩

theorem Tiles.le {lo hi : ℕ} {rs : List (ℕ × ℕ)} (h : Tiles lo rs hi) : lo ≤ hi := by
  induction rs generalizing lo with
  | nil => exact Nat.le_of_eq h
  | cons r rs ih => exact h.2.1.le.trans (ih h.2.2)

theorem Tiles.snd_le {lo hi : ℕ} {rs : List (ℕ × ℕ)} {r : ℕ × ℕ} (h : Tiles lo rs hi)
    (hr : r ∈ rs) : r.2 ≤ hi := by
  induction rs generalizing lo with
  | nil => cases hr
  | cons s rs ih =>
    cases hr with
    | head => exact h.2.2.le
    | tail _ hr => exact ih h.2.2 hr

/-- Intervals between the values of an increasing function. -/
theorem tiles_of_lt {f : ℕ → ℕ} {n : ℕ} (h : ∀ k < n, f k < f (k + 1)) :
    Tiles (f 0) ((List.range n).map fun k => (f k, f (k + 1))) (f n) := by
  induction n with
  | zero => rfl
  | succ n ih =>
    rw [List.range_succ, List.map_append, List.map_singleton]
    exact (ih fun k hk => h k (by omega)).snoc (h n (by omega))

end Lib

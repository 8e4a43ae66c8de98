import Mathlib.Tactic

/-!
# Scattered copies

Copying cells of a source to addresses of a memory, one after the other.

* `scatter`: the memory after a list of copies;
* `copyRun`: the copy of an interval.

**`scatter_iff`**: where every address is written once, an address holds a cell of the source, whatever
the source and the memory contain, exactly if that copy is on the list.
-/

namespace Lib

variable {κ ι β : Type*} [DecidableEq κ]

/-- The memory after the copies of `ws`: the address first, then the cell of the source. -/
def scatter (src : ι → β) (ws : List (κ × ι)) (mem : κ → β) : κ → β :=
  ws.foldl (fun mem w => Function.update mem w.1 (src w.2)) mem

theorem scatter_append (src : ι → β) (ws vs : List (κ × ι)) (mem : κ → β) :
    scatter src (ws ++ vs) mem = scatter src vs (scatter src ws mem) := List.foldl_append

theorem scatter_of_notMem {src : ι → β} {ws : List (κ × ι)} {mem : κ → β} {a : κ}
    (h : a ∉ ws.map Prod.fst) : scatter src ws mem a = mem a := by
  induction ws generalizing mem with
  | nil => rfl
  | cons w ws ih =>
    rw [List.map_cons, List.mem_cons, not_or] at h
    change scatter src ws (Function.update mem w.1 (src w.2)) a = mem a
    rw [ih h.2, Function.update_of_ne h.1]

theorem scatter_of_mem {src : ι → β} {ws : List (κ × ι)} {mem : κ → β} {a : κ} {i : ι}
    (hnodup : (ws.map Prod.fst).Nodup) (h : (a, i) ∈ ws) : scatter src ws mem a = src i := by
  induction ws generalizing mem with
  | nil => cases h
  | cons w ws ih =>
    rw [List.map_cons, List.nodup_cons] at hnodup
    change scatter src ws (Function.update mem w.1 (src w.2)) a = src i
    cases h with
    | head => rw [scatter_of_notMem hnodup.1, Function.update_self]
    | tail _ h => exact ih hnodup.2 h

/-- **An address holds a cell whatever the contents exactly if it is copied there.** -/
theorem scatter_iff [Nontrivial β] {ws : List (κ × ι)} {a : κ} {i : ι}
    (hnodup : (ws.map Prod.fst).Nodup) :
    (∀ (src : ι → β) mem, scatter src ws mem a = src i) ↔ (a, i) ∈ ws := by
  classical
  constructor
  · intro h
    by_contra hnot
    obtain ⟨x, y, hxy⟩ := exists_pair_ne β
    -- a source that differs from the memory and from itself at `i` only
    have hi := h (fun j => if j = i then x else y) fun _ => y
    rw [if_pos rfl] at hi
    apply hxy
    rw [← hi]
    by_cases ha : a ∈ ws.map Prod.fst
    · obtain ⟨w, hw, rfl⟩ := List.mem_map.mp ha
      have hne : w.2 ≠ i := by
        rintro rfl
        exact hnot hw
      rw [scatter_of_mem hnodup hw, if_neg hne]
    · rw [scatter_of_notMem ha]
  · intro h src mem
    exact scatter_of_mem hnodup h

/-! ## Intervals -/

/-- The copy of `len` cells from position `pos` to address `ptr`. -/
def copyRun (ptr pos len : ℕ) : List (ℕ × ℕ) := (List.range len).map fun x => (ptr + x, pos + x)

theorem mem_copyRun {ptr pos len a i : ℕ} :
    (a, i) ∈ copyRun ptr pos len ↔ ∃ x < len, a = ptr + x ∧ i = pos + x := by
  simp only [copyRun, List.mem_map, List.mem_range, Prod.mk.injEq]
  constructor
  · rintro ⟨x, hx, rfl, rfl⟩
    exact ⟨x, hx, rfl, rfl⟩
  · rintro ⟨x, hx, rfl, rfl⟩
    exact ⟨x, hx, rfl, rfl⟩

theorem map_fst_copyRun (ptr pos len : ℕ) : (copyRun ptr pos len).map Prod.fst = List.range' ptr len := by
  rw [copyRun, List.map_map, List.range'_eq_map_range]
  rfl

theorem map_snd_copyRun (ptr pos len : ℕ) : (copyRun ptr pos len).map Prod.snd = List.range' pos len := by
  rw [copyRun, List.map_map, List.range'_eq_map_range]
  rfl

theorem copyRun_zero (ptr pos : ℕ) : copyRun ptr pos 0 = [] := rfl

theorem scatter_copyRun {β : Type*} (src mem : ℕ → β) (ptr pos len : ℕ) :
    scatter src (copyRun ptr pos len) mem = fun a =>
      if ptr ≤ a ∧ a < ptr + len then src (pos + (a - ptr)) else mem a := by
  funext a
  split_ifs with h
  · apply scatter_of_mem
    · rw [map_fst_copyRun]
      exact List.nodup_range'
    · exact mem_copyRun.mpr ⟨a - ptr, by omega, by omega, rfl⟩
  · apply scatter_of_notMem
    rw [map_fst_copyRun, List.mem_range'_1]
    exact h

omit [DecidableEq κ] in
/-- The copies of consecutive cells: where a cell goes is found by its place on the list. -/
theorem mem_iff_of_map_snd {ws : List (κ × ℕ)} {pos len x : ℕ} {a : κ}
    (h : ws.map Prod.snd = List.range' pos len) :
    (a, pos + x) ∈ ws ↔ (ws.map Prod.fst)[x]? = some a := by
  have hsnd : ∀ y i, (ws.map Prod.snd)[y]? = some i → i = pos + y := by
    intro y i hi
    rw [h, List.getElem?_eq_some_iff] at hi
    obtain ⟨hy, hi⟩ := hi
    rw [List.getElem_range'_1] at hi
    exact hi.symm
  constructor
  · intro hmem
    obtain ⟨y, hy⟩ := List.getElem?_of_mem hmem
    have hyx := hsnd y (pos + x) (by rw [List.getElem?_map, hy]; rfl)
    obtain rfl : x = y := by omega
    rw [List.getElem?_map, hy]
    rfl
  · intro hx
    rw [List.getElem?_map, Option.map_eq_some_iff] at hx
    obtain ⟨w, hw, rfl⟩ := hx
    have hpos := hsnd x w.2 (by rw [List.getElem?_map, hw]; rfl)
    rw [← hpos]
    exact List.mem_of_getElem? hw

/-! ## Buffers one after the other -/

/-- **Filling the fronts of the buffers fills the front of their concatenation exactly if nothing comes
after a buffer that is not full.** -/
theorem take_flatMap_prefix_iff {α : Type*} {S : List (List α × ℕ)}
    (hnodup : (S.flatMap Prod.fst).Nodup) (hle : ∀ p ∈ S, p.2 ≤ p.1.length) :
    (S.flatMap fun p => p.1.take p.2) <+: S.flatMap Prod.fst ↔
      S.Pairwise fun p q => p.2 < p.1.length → q.2 = 0 := by
  induction S with
  | nil => exact ⟨fun _ => List.Pairwise.nil, fun _ => List.nil_prefix⟩
  | cons p S ih =>
    rw [List.flatMap_cons] at hnodup
    have hS := ih (List.nodup_append.mp hnodup).2.1 fun q hq => hle q (List.mem_cons_of_mem _ hq)
    rw [List.flatMap_cons, List.flatMap_cons, List.pairwise_cons, ← hS]
    rcases Nat.lt_or_ge p.2 p.1.length with hlt | hge
    · -- the next cell of the concatenation is in `p`, and no later buffer has it
      have hempty : (S.flatMap fun q => q.1.take q.2) = [] ↔ ∀ q ∈ S, q.2 = 0 := by
        rw [List.flatMap_eq_nil_iff]
        constructor
        · intro h q hq
          have hlen := congrArg List.length (h q hq)
          rw [List.length_take, List.length_nil] at hlen
          have := hle q (List.mem_cons_of_mem _ hq)
          omega
        · intro h q hq
          rw [h q hq, List.take_zero]
      have hsplit : p.1 ++ S.flatMap Prod.fst =
          p.1.take p.2 ++ (p.1.drop p.2 ++ S.flatMap Prod.fst) := by
        rw [← List.append_assoc, List.take_append_drop]
      rw [hsplit, List.prefix_append_right_inj]
      constructor
      · intro h
        have hnil : (S.flatMap fun q => q.1.take q.2) = [] := by
          by_contra hne
          obtain ⟨a, w, hw⟩ := List.exists_cons_of_ne_nil hne
          obtain ⟨b, d, hd⟩ := List.exists_cons_of_ne_nil
            (List.ne_nil_of_length_pos (l := p.1.drop p.2) (by rw [List.length_drop]; omega))
          rw [hw, hd, List.cons_append, List.cons_prefix_cons] at h
          have ha : a ∈ p.1 := by
            apply List.mem_of_mem_drop (i := p.2)
            rw [hd, h.1]
            exact List.mem_cons_self
          have ha' : a ∈ S.flatMap Prod.fst := by
            have hmem : a ∈ S.flatMap fun q => q.1.take q.2 := hw ▸ List.mem_cons_self
            obtain ⟨q, hq, haq⟩ := List.mem_flatMap.mp hmem
            exact List.mem_flatMap.mpr ⟨q, hq, List.mem_of_mem_take haq⟩
          exact (List.nodup_append.mp hnodup).2.2 a ha a ha' rfl
        rw [hnil]
        exact ⟨fun q hq _ => hempty.mp hnil q hq, List.nil_prefix⟩
      · rintro ⟨h, _⟩
        rw [hempty.mpr fun q hq => h q hq hlt]
        exact List.nil_prefix
    · rw [List.take_of_length_le hge, List.prefix_append_right_inj]
      exact ⟨fun h => ⟨fun q _ hlt => absurd hlt (not_lt.mpr hge), h⟩, fun h => h.2⟩

end Lib

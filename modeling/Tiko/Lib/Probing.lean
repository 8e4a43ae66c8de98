import Mathlib.Tactic

/-!
# Open addressing with linear probing

A hash table of `n` slots. A key is looked for from the slot of its hash on, until it is met, an
empty slot is met, or all slots are passed. Entries are never removed singly: the table is emptied
as a whole.

`Wf`: every entry is reached from the slot of its hash over slots that hold other keys. Under this
invariant, which `insert` keeps (`wf_insert`), the probe sees every entry (`lookup_eq_some_iff`), so
that **`lookup_insert`**: an insertion changes the lookup of its own key only.
-/

namespace Lib

/-- A table of `n` slots; `len` counts the insertions of new keys. -/
structure ProbeTable (n : ℕ) (K V : Type) where
  slots : Fin n → Option (K × V)
  len : ℕ

namespace ProbeTable

variable {n : ℕ} [NeZero n] {K V : Type}

/-- The slot `i` places after `start`. -/
def slotAt (n : ℕ) [NeZero n] (start i : ℕ) : Fin n := Fin.ofNat n (start + i)

/-- The empty table. -/
def empty : ProbeTable n K V := ⟨fun _ => none, 0⟩

/-- All entries, by slot. -/
def toList (t : ProbeTable n K V) : List (K × V) := (List.finRange n).filterMap t.slots

section Probe

variable [DecidableEq K] (hash : K → ℕ)

/-- Whether the probe for `k` stops at a slot. -/
def stops (k : K) : Option (K × V) → Bool
  | none => true
  | some a => decide (a.1 = k)

/-- How far from the slot of its hash the probe for `k` stops. -/
def probe (t : ProbeTable n K V) (k : K) : Option ℕ :=
  (List.range n).find? fun i => stops k (t.slots (slotAt n (hash k) i))

/-- The value of a key. -/
def lookup (t : ProbeTable n K V) (k : K) : Option V :=
  match t.probe hash k with
  | none => none
  | some i => (t.slots (slotAt n (hash k) i)).map Prod.snd

/-- Put `k` where its probe stops; `none` when the table is full. The flag tells whether the key
was new. -/
def insert (t : ProbeTable n K V) (k : K) (v : V) : Option (ProbeTable n K V × Bool) :=
  match t.probe hash k with
  | none => none
  | some i =>
    let slot := slotAt n (hash k) i
    let slots := Function.update t.slots slot (some (k, v))
    if (t.slots slot).isNone then some (⟨slots, t.len + 1⟩, true) else some (⟨slots, t.len⟩, false)

/-- Every entry is reached from the slot of its hash over slots that hold other keys. -/
def Wf (t : ProbeTable n K V) : Prop :=
  ∀ slot k v, t.slots slot = some (k, v) → ∃ i < n, slot = slotAt n (hash k) i ∧
    ∀ j < i, ∃ a, t.slots (slotAt n (hash k) j) = some a ∧ a.1 ≠ k

omit [DecidableEq K] in
theorem wf_empty : (empty : ProbeTable n K V).Wf hash := by
  intro slot k v h
  exact absurd h (by simp [empty])

variable {hash}

theorem probe_eq_some_iff {t : ProbeTable n K V} {k : K} {i : ℕ} :
    t.probe hash k = some i ↔ i < n ∧ stops k (t.slots (slotAt n (hash k) i)) = true ∧
      ∀ j < i, ∃ a, t.slots (slotAt n (hash k) j) = some a ∧ a.1 ≠ k := by
  have hpass : ∀ s : Option (K × V), (!stops k s) = true ↔ ∃ a, s = some a ∧ a.1 ≠ k := by
    intro s
    cases s <;> simp [stops]
  rw [probe, List.find?_range_eq_some]
  simp only [List.mem_range, hpass]
  exact ⟨fun h => ⟨h.2.1, h.1, h.2.2⟩, fun h => ⟨h.2.1, h.1, h.2.2⟩⟩

/-- **The probe sees every entry.** -/
theorem lookup_eq_some_iff {t : ProbeTable n K V} (h : t.Wf hash) {k : K} {v : V} :
    t.lookup hash k = some v ↔ ∃ slot, t.slots slot = some (k, v) := by
  constructor
  · intro hl
    rw [lookup] at hl
    cases hp : t.probe hash k with
    | none => rw [hp] at hl; exact absurd hl (by simp)
    | some i =>
      rw [hp] at hl
      obtain ⟨a, ha, rfl⟩ := Option.map_eq_some_iff.mp hl
      have hs := (probe_eq_some_iff.mp hp).2.1
      rw [ha, stops, decide_eq_true_eq] at hs
      exact ⟨_, by rw [ha, ← hs]⟩
  · rintro ⟨slot, hs⟩
    obtain ⟨i, hi, rfl, hbefore⟩ := h slot k v hs
    have hp : t.probe hash k = some i :=
      probe_eq_some_iff.mpr ⟨hi, by simp [hs, stops], hbefore⟩
    rw [lookup, hp]
    simp [hs]

theorem lookup_eq_none_iff {t : ProbeTable n K V} (h : t.Wf hash) {k : K} :
    t.lookup hash k = none ↔ ∀ slot v, t.slots slot ≠ some (k, v) := by
  rw [← Option.not_isSome_iff_eq_none, Option.isSome_iff_exists]
  simp only [lookup_eq_some_iff h]
  exact ⟨fun hn slot v hs => hn ⟨v, slot, hs⟩, fun hn ⟨v, slot, hs⟩ => hn slot v hs⟩

@[simp] theorem lookup_empty (k : K) : (empty : ProbeTable n K V).lookup hash k = none := by
  rw [lookup_eq_none_iff (wf_empty hash)]
  exact fun slot v h => absurd h (by simp [empty])

/-- What a successful insertion did. -/
theorem insert_eq_some {t t' : ProbeTable n K V} {k : K} {v : V} {fresh : Bool}
    (h : t.insert hash k v = some (t', fresh)) : ∃ i, t.probe hash k = some i ∧
      t'.slots = Function.update t.slots (slotAt n (hash k) i) (some (k, v)) := by
  rw [insert] at h
  cases hp : t.probe hash k with
  | none => rw [hp] at h; exact absurd h (by simp)
  | some i =>
    rw [hp] at h
    dsimp only at h
    refine ⟨i, rfl, ?_⟩
    split_ifs at h <;> (obtain ⟨rfl, -⟩ := Prod.mk.inj (Option.some.inj h); rfl)

/-- A slot where the probe for `k` stopped held nothing or `k`. -/
theorem key_eq_of_stops {k : K} {s : Option (K × V)} (h : stops k s = true) {a : K × V}
    (ha : s = some a) : a.1 = k := by
  rw [ha] at h
  simpa [stops] using h

theorem wf_insert {t t' : ProbeTable n K V} {k : K} {v : V} {fresh : Bool} (hw : t.Wf hash)
    (h : t.insert hash k v = some (t', fresh)) : t'.Wf hash := by
  obtain ⟨i, hp, hslots⟩ := insert_eq_some h
  obtain ⟨hi, hstop, hbefore⟩ := probe_eq_some_iff.mp hp
  -- slots passed on the way to another key stay occupied by keys other than it
  have hkeep : ∀ slot k', (∃ a, t.slots slot = some a ∧ a.1 ≠ k') →
      (k' = k → slot ≠ slotAt n (hash k) i) → ∃ a, t'.slots slot = some a ∧ a.1 ≠ k' := by
    rintro slot k' ⟨a, ha, hne⟩ hk
    rw [hslots]
    by_cases he : slot = slotAt n (hash k) i
    · refine ⟨(k, v), by rw [he, Function.update_self], fun hkk => hk hkk.symm he⟩
    · exact ⟨a, by rw [Function.update_of_ne he, ha], hne⟩
  intro slot k' v' hs
  rw [hslots] at hs
  by_cases he : slot = slotAt n (hash k) i
  · rw [he, Function.update_self] at hs
    obtain ⟨rfl, rfl⟩ := Prod.mk.inj (Option.some.inj hs)
    refine ⟨i, hi, he, fun j hj => hkeep _ _ (hbefore j hj) fun _ hjs => ?_⟩
    obtain ⟨a, ha, hne⟩ := hbefore j hj
    rw [hjs] at ha
    exact hne (key_eq_of_stops hstop ha)
  · rw [Function.update_of_ne he] at hs
    obtain ⟨j, hj, hslot, hb⟩ := hw slot k' v' hs
    refine ⟨j, hj, hslot, fun j' hj' => hkeep _ _ (hb j' hj') ?_⟩
    rintro rfl hjs
    obtain ⟨a, ha, hne⟩ := hb j' hj'
    rw [hjs] at ha
    exact hne (key_eq_of_stops hstop ha)

/-- **An insertion changes the lookup of its own key only.** -/
theorem lookup_insert {t t' : ProbeTable n K V} {k : K} {v : V} {fresh : Bool} (hw : t.Wf hash)
    (h : t.insert hash k v = some (t', fresh)) (k' : K) :
    t'.lookup hash k' = if k' = k then some v else t.lookup hash k' := by
  have hw' := wf_insert hw h
  obtain ⟨i, hp, hslots⟩ := insert_eq_some h
  have hstop := (probe_eq_some_iff.mp hp).2.1
  split_ifs with hk
  · rw [lookup_eq_some_iff hw', hslots]
    exact ⟨_, by rw [Function.update_self, hk]⟩
  · apply Option.ext
    intro w
    rw [lookup_eq_some_iff hw', lookup_eq_some_iff hw, hslots]
    constructor
    · rintro ⟨slot, hs⟩
      by_cases he : slot = slotAt n (hash k) i
      · rw [he, Function.update_self] at hs
        exact absurd (Prod.mk.inj (Option.some.inj hs)).1.symm hk
      · exact ⟨slot, by rwa [Function.update_of_ne he] at hs⟩
    · rintro ⟨slot, hs⟩
      have he : slot ≠ slotAt n (hash k) i := by
        rintro rfl
        exact hk (key_eq_of_stops hstop hs)
      exact ⟨slot, by rwa [Function.update_of_ne he]⟩

/-- An insertion into an empty table succeeds. -/
theorem insert_empty (n : ℕ) [NeZero n] (hash : K → ℕ) (k : K) (v : V) :
    ∃ t, (empty : ProbeTable n K V).insert hash k v = some (t, true) ∧ t.len = 1 := by
  have hp : (empty : ProbeTable n K V).probe hash k = some 0 :=
    probe_eq_some_iff.mpr ⟨NeZero.pos n, rfl, fun j hj => absurd hj (Nat.not_lt_zero j)⟩
  rw [insert, hp]
  exact ⟨_, rfl, rfl⟩

theorem mem_toList_iff {t : ProbeTable n K V} (h : t.Wf hash) {k : K} {v : V} :
    (k, v) ∈ t.toList ↔ t.lookup hash k = some v := by
  rw [toList, List.mem_filterMap, lookup_eq_some_iff h]
  simp

end Probe

omit [NeZero n] in
theorem length_toList_le (t : ProbeTable n K V) : t.toList.length ≤ n := by
  rw [toList]
  exact (List.length_filterMap_le _ _).trans_eq (by simp)

end ProbeTable

end Lib

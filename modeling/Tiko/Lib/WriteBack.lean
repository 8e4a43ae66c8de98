import Mathlib.Data.List.FinRange
import Mathlib.Data.List.Nodup
import Mathlib.Logic.Function.Basic

/-!
# Write-back caches

A cache of `N` slots in front of a store of values by key. Writes go to the cache and mark their slot
dirty; the store gets them when the slot is evicted or flushed. A victim is found by a clock sweep, from
the clock hand of the user, which ages the slots that it passes.

* `WriteBack`: the slots, none of which share a key; `WriteBack.get`: what the cache has for a key;
* `insert`, `flush`, `drop`: the pairs that they hand to the store, and the cache after them;
* `Coherent`: what is clean in the cache is in the store; `view`: the value of a key, from the cache or
  else from the store; `Secured`: a key that is dirty in the cache, or is secured in the store;
* `Saves`: a cache after evictions and flushes; **`Saves.view_eq`**, **`Saves.coherent`**,
  **`Saves.secured`**: they keep all three.
-/

namespace Lib

variable {N : ℕ} {P κ α : Type}

/-- A slot: a key with its value, whether that has yet to be saved, and the age counter. -/
structure WriteBack.Slot (κ α : Type) where
  entry : Option (κ × α)
  dirty : Bool
  usage : ℕ

/-- The key of a slot. -/
def WriteBack.Slot.key (e : WriteBack.Slot κ α) : Option κ := e.entry.map Prod.fst

/-- A cache, with a clock hand for each user. No two slots have the same key, and an empty slot is
clean. -/
structure WriteBack (N : ℕ) (P κ α : Type) where
  slots : Fin N → WriteBack.Slot κ α
  hands : P → Fin N
  distinct : ∀ i j k, (slots i).key = some k → (slots j).key = some k → i = j
  clean : ∀ i, (slots i).entry = none → (slots i).dirty = false

namespace WriteBack

/-! ## Slots -/

/-- The cache with another slot, of the same key or empty. -/
def setSlot (c : WriteBack N P κ α) (i : Fin N) (e : Slot κ α)
    (hkey : e.key = (c.slots i).key ∨ e.key = none) (hclean : e.entry = none → e.dirty = false) :
    WriteBack N P κ α where
  slots := Function.update c.slots i e
  hands := c.hands
  distinct := by
    have hold : ∀ j k, (Function.update c.slots i e j).key = some k → (c.slots j).key = some k := by
      intro j k hj
      by_cases hij : j = i
      · subst hij
        rw [Function.update_self] at hj
        rcases hkey with h | h
        · exact h ▸ hj
        · rw [h] at hj
          exact absurd hj (by simp)
      · rwa [Function.update_of_ne hij] at hj
    exact fun a b k ha hb => c.distinct a b k (hold a k ha) (hold b k hb)
  clean := by
    intro j hj
    by_cases hij : j = i
    · subst hij
      rw [Function.update_self] at hj ⊢
      exact hclean hj
    · rw [Function.update_of_ne hij] at hj ⊢
      exact c.clean j hj

/-- An empty cache. -/
def empty (hands : P → Fin N) : WriteBack N P κ α where
  slots _ := ⟨none, false, 0⟩
  hands := hands
  distinct _ _ _ h := absurd h (by simp [Slot.key])
  clean _ _ := rfl

/-- An access ages the slot up, to `maxUsage` at most. -/
def touch (maxUsage : ℕ) (c : WriteBack N P κ α) (i : Fin N) : WriteBack N P κ α :=
  let e := c.slots i
  c.setSlot i { e with usage := if e.usage < maxUsage then e.usage + 1 else e.usage } (.inl rfl) (c.clean i)

/-- A sweep ages the slot down. -/
def untouch (c : WriteBack N P κ α) (i : Fin N) : WriteBack N P κ α :=
  let e := c.slots i
  c.setSlot i { e with usage := e.usage - 1 } (.inl rfl) (c.clean i)

/-- A write to the value of a slot. -/
def write (c : WriteBack N P κ α) (i : Fin N) (a : α) : WriteBack N P κ α :=
  let e := c.slots i
  c.setSlot i { e with entry := e.entry.map fun p => (p.1, a), dirty := e.entry.isSome }
    (.inl (by simp only [Slot.key, Option.map_map]; rfl))
    (fun h => by
      have hnone : e.entry = none := by simpa using h
      rw [hnone]
      rfl)

/-- The slot is freed. -/
def clear (c : WriteBack N P κ α) (i : Fin N) : WriteBack N P κ α :=
  c.setSlot i ⟨none, false, 0⟩ (.inr rfl) fun _ => rfl

/-! ## Lookups -/

section Lookup

variable [DecidableEq κ]

/-- The slot of a key. -/
def find (c : WriteBack N P κ α) (k : κ) : Option (Fin N) :=
  (List.finRange N).find? fun i => (c.slots i).key = some k

/-- What the cache has for a key: the value, and whether it is dirty. -/
def get (c : WriteBack N P κ α) (k : κ) : Option (α × Bool) :=
  (c.find k).bind fun i => (c.slots i).entry.map fun p => (p.2, (c.slots i).dirty)

/-- The slot of a key, with its value. -/
def lookup (c : WriteBack N P κ α) (k : κ) : Option (Fin N × α) :=
  (c.find k).bind fun i => (c.slots i).entry.map fun p => (i, p.2)

variable {c : WriteBack N P κ α} {i : Fin N} {k k' : κ} {a : α} {d : Bool}

omit [DecidableEq κ] in
theorem key_eq_some_iff {e : Slot κ α} : e.key = some k ↔ ∃ a, e.entry = some (k, a) := by
  simp [Slot.key]

theorem find_eq_some_iff : c.find k = some i ↔ (c.slots i).key = some k := by
  have hsome : ∀ {j}, c.find k = some j → (c.slots j).key = some k := fun h => by
    simpa using List.find?_some h
  constructor
  · exact hsome
  · intro h
    cases hf : c.find k with
    | none =>
      have hnone := List.find?_eq_none.mp hf i (List.mem_finRange i)
      exact absurd h (by simpa using hnone)
    | some j => rw [c.distinct j i k (hsome hf) h]

theorem find_eq_none_iff : c.find k = none ↔ ∀ i, (c.slots i).key ≠ some k := by
  rw [find, List.find?_eq_none]
  exact ⟨fun h i hi => h i (List.mem_finRange i) (decide_eq_true hi),
    fun h i _ hi => h i (of_decide_eq_true hi)⟩

/-- **What the cache has for a key is what a slot has.** -/
theorem get_eq_some_iff : c.get k = some (a, d) ↔
    ∃ i, (c.slots i).entry = some (k, a) ∧ (c.slots i).dirty = d := by
  rw [get, Option.bind_eq_some_iff]
  constructor
  · rintro ⟨i, hf, hg⟩
    obtain ⟨b, hb⟩ := key_eq_some_iff.mp (find_eq_some_iff.mp hf)
    rw [hb] at hg
    obtain ⟨rfl, rfl⟩ := Prod.mk.inj (Option.some.inj hg)
    exact ⟨i, hb, rfl⟩
  · rintro ⟨i, he, rfl⟩
    exact ⟨i, find_eq_some_iff.mpr (key_eq_some_iff.mpr ⟨a, he⟩), by rw [he]; rfl⟩

theorem get_eq_none_iff : c.get k = none ↔ c.find k = none := by
  constructor
  · intro h
    cases hf : c.find k with
    | none => rfl
    | some i =>
      obtain ⟨b, hb⟩ := key_eq_some_iff.mp (find_eq_some_iff.mp hf)
      rw [get_eq_some_iff.mpr ⟨i, hb, rfl⟩] at h
      exact absurd h (by simp)
  · intro h
    rw [get, h]
    rfl

theorem get_of_find (h : c.find k = some i) :
    ∃ a, (c.slots i).entry = some (k, a) ∧ c.get k = some (a, (c.slots i).dirty) := by
  obtain ⟨a, ha⟩ := key_eq_some_iff.mp (find_eq_some_iff.mp h)
  exact ⟨a, ha, get_eq_some_iff.mpr ⟨i, ha, rfl⟩⟩

theorem of_lookup (h : c.lookup k = some (i, a)) :
    c.find k = some i ∧ (c.slots i).entry = some (k, a) ∧ c.get k = some (a, (c.slots i).dirty) := by
  obtain ⟨j, hj, hm⟩ := Option.bind_eq_some_iff.mp h
  obtain ⟨b, hb, hg⟩ := get_of_find hj
  rw [hb] at hm
  obtain ⟨rfl, rfl⟩ := Prod.mk.inj (Option.some.inj hm)
  exact ⟨hj, hb, hg⟩

theorem lookup_of_get (h : c.get k = some (a, d)) : ∃ i, c.lookup k = some (i, a) := by
  obtain ⟨i, he, -⟩ := get_eq_some_iff.mp h
  refine ⟨i, ?_⟩
  rw [lookup, find_eq_some_iff.mpr (key_eq_some_iff.mpr ⟨a, he⟩), Option.bind_some, he]
  rfl

theorem lookup_eq_none_iff : c.lookup k = none ↔ c.get k = none := by
  constructor
  · intro h
    cases hg : c.get k with
    | none => rfl
    | some x =>
      obtain ⟨i, hi⟩ := lookup_of_get hg
      rw [h] at hi
      exact absurd hi (by simp)
  · intro h
    rw [lookup, get_eq_none_iff.mp h]
    rfl

/-- Two caches with the same entries have the same values. -/
theorem get_congr {c' : WriteBack N P κ α} (h : ∀ i, (c'.slots i).entry = (c.slots i).entry ∧
    (c'.slots i).dirty = (c.slots i).dirty) : c'.get = c.get := by
  funext k
  refine Option.ext fun p => ?_
  rw [get_eq_some_iff, get_eq_some_iff]
  simp only [h]

theorem get_of_update {c' : WriteBack N P κ α} {e : Slot κ α}
    (h : c'.slots = Function.update c.slots i e) (he : e.entry = (c.slots i).entry)
    (hd : e.dirty = (c.slots i).dirty) : c'.get = c.get := by
  refine get_congr fun j => ?_
  rw [h, Function.update_apply]
  split_ifs with hj
  · subst hj
    exact ⟨he, hd⟩
  · exact ⟨rfl, rfl⟩

@[simp] theorem get_touch (maxUsage : ℕ) (c : WriteBack N P κ α) (i : Fin N) :
    (c.touch maxUsage i).get = c.get := get_of_update rfl rfl rfl

@[simp] theorem get_untouch (c : WriteBack N P κ α) (i : Fin N) : (c.untouch i).get = c.get :=
  get_of_update rfl rfl rfl

@[simp] theorem get_empty (hands : P → Fin N) (k : κ) :
    (empty hands : WriteBack N P κ α).get k = none :=
  get_eq_none_iff.mpr (find_eq_none_iff.mpr fun _ => by simp [empty, Slot.key])

/-- A change to the slot of a key is a change to that key. -/
theorem get_update_of_find {c' : WriteBack N P κ α} {e : Slot κ α} (h : c.find k = some i)
    (hs : c'.slots = Function.update c.slots i e) (he : ∀ x a, e.entry = some (x, a) → x = k) :
    c'.get = Function.update c.get k (e.entry.map fun p => (p.2, e.dirty)) := by
  obtain ⟨b, hb, -⟩ := get_of_find h
  funext k'
  refine Option.ext fun p => ?_
  rw [Function.update_apply, get_eq_some_iff, hs]
  constructor
  · rintro ⟨j, hj, hd⟩
    rw [Function.update_apply] at hj hd
    split_ifs at hj hd with hji
    · obtain rfl := he _ _ hj
      rw [if_pos rfl, hj, hd]
      rfl
    · rw [if_neg, get_eq_some_iff]
      · exact ⟨j, hj, hd⟩
      · rintro rfl
        exact hji (c.distinct j i k' (key_eq_some_iff.mpr ⟨_, hj⟩) (key_eq_some_iff.mpr ⟨_, hb⟩))
  · intro hp
    split_ifs at hp with hk
    · subst hk
      obtain ⟨q, hq, rfl⟩ := Option.map_eq_some_iff.mp hp
      refine ⟨i, ?_, ?_⟩ <;> rw [Function.update_self]
      rw [hq, ← he _ _ hq]
    · obtain ⟨j, hj, hd⟩ := get_eq_some_iff.mp hp
      refine ⟨j, ?_⟩
      rw [Function.update_of_ne]
      · exact ⟨hj, hd⟩
      · rintro rfl
        rw [hb] at hj
        exact hk (Prod.mk.inj (Option.some.inj hj)).1.symm

/-- A write makes a key dirty. -/
theorem get_write (h : c.find k = some i) (a : α) :
    (c.write i a).get = Function.update c.get k (some (a, true)) := by
  obtain ⟨b, hb, -⟩ := get_of_find h
  have hs : (c.write i a).slots = Function.update c.slots i
      ⟨some (k, a), true, (c.slots i).usage⟩ := by
    change Function.update c.slots i _ = _
    rw [hb]
    rfl
  exact get_update_of_find h hs fun x b hx => (Prod.mk.inj (Option.some.inj hx)).1.symm

/-- A slot that is freed takes its key out of the cache. -/
theorem get_clear (h : c.find k = some i) : (c.clear i).get = Function.update c.get k none :=
  get_update_of_find (e := ⟨none, false, 0⟩) h rfl fun _ _ hx => absurd hx (by simp)

theorem get_clear_empty (h : (c.slots i).entry = none) : (c.clear i).get = c.get :=
  get_of_update rfl h.symm (c.clean i h).symm

end Lookup

/-! ## Insertions -/

/-- The slot after this one, around the cache. -/
def succ (i : Fin N) : Fin N := ⟨(i.val + 1) % N, Nat.mod_lt _ i.pos⟩

/-- The clock sweep over so many slots: it ages those in use, and stops at one that is not. -/
def sweep : ℕ → Fin N → WriteBack N P κ α → Option (Fin N) × WriteBack N P κ α
  | 0, _, c => (none, c)
  | rounds + 1, i, c =>
    if (c.slots i).usage = 0 then (some i, c) else sweep rounds (succ i) (c.untouch i)

/-- What a slot has that has to be saved before the slot is freed. -/
def Slot.unsaved (e : Slot κ α) : Option (κ × α) := if e.dirty then e.entry else none

/-- The clock hand of a user moves. -/
def moveHand [DecidableEq P] (c : WriteBack N P κ α) (p : P) (i : Fin N) : WriteBack N P κ α :=
  { c with hands := Function.update c.hands p i }

/-- A slot is freed, which a sweep of `maxUsage` turns around the cache looks for: the slot, and the pair
that has to be saved. -/
def evict [DecidableEq P] (maxUsage : ℕ) (p : P) (c : WriteBack N P κ α) :
    Option (Fin N × Option (κ × α)) × WriteBack N P κ α :=
  match sweep (N * maxUsage) (c.hands p) c with
  | (none, c) => (none, c)
  | (some i, c) => (some (i, (c.slots i).unsaved), (c.clear i).moveHand p (succ i))

variable [DecidableEq κ]

/-- A key that the cache does not have is put into a slot. -/
def place (c : WriteBack N P κ α) (i : Fin N) (k : κ) (a : α) (dirty : Bool) (h : c.find k = none) :
    WriteBack N P κ α where
  slots := Function.update c.slots i ⟨some (k, a), dirty, 0⟩
  hands := c.hands
  distinct := by
    have hfree := find_eq_none_iff.mp h
    have hcases : ∀ j x, (Function.update c.slots i ⟨some (k, a), dirty, 0⟩ j).key = some x →
        (j = i ∧ x = k) ∨ (j ≠ i ∧ (c.slots j).key = some x) := by
      intro j x hj
      by_cases hji : j = i
      · subst hji
        rw [Function.update_self] at hj
        exact .inl ⟨rfl, (Option.some.inj hj).symm⟩
      · rw [Function.update_of_ne hji] at hj
        exact .inr ⟨hji, hj⟩
    intro x y z hx hy
    rcases hcases x z hx with ⟨hxi, rfl⟩ | ⟨-, hxk⟩ <;> rcases hcases y z hy with ⟨hyi, hzk⟩ | ⟨-, hyk⟩
    · rw [hxi, hyi]
    · exact absurd hyk (hfree y)
    · exact absurd hxk (hzk ▸ hfree x)
    · exact c.distinct x y z hxk hyk
  clean := by
    intro j hj
    by_cases hji : j = i
    · subst hji
      rw [Function.update_self] at hj
      exact absurd hj (by simp)
    · rw [Function.update_of_ne hji] at hj ⊢
      exact c.clean j hj

/-- The outcome of an insertion: whether the key was put in (`none` where no slot could be freed), the
pair that has to be saved, and the cache. -/
structure Inserted (N : ℕ) (P κ α : Type) where
  done : Option Bool
  unsaved : Option (κ × α)
  cache : WriteBack N P κ α

/-- A key is inserted, unless it is there by now. -/
def insert [DecidableEq P] (maxUsage : ℕ) (p : P) (k : κ) (a : α) (dirty : Bool)
    (c : WriteBack N P κ α) : Inserted N P κ α :=
  match c.evict maxUsage p with
  | (none, c) => ⟨none, none, c⟩
  | (some (i, unsaved), c) =>
    if h : c.find k = none then ⟨some true, unsaved, (c.place i k a dirty h).touch maxUsage i⟩
    else ⟨some false, unsaved, c⟩

/-! ## Flushes -/

/-- The dirty pairs of the keys that are asked for are saved, slot by slot. -/
def flush (q : κ → Bool) (c : WriteBack N P κ α) : List (κ × α) × WriteBack N P κ α :=
  ((List.finRange N).filterMap fun i => (c.slots i).unsaved.filter fun p => q p.1,
    { slots := fun i => { c.slots i with dirty := (c.slots i).dirty && !(c.slots i).key.any q }
      hands := c.hands
      distinct := c.distinct
      clean := fun i hi => by rw [c.clean i hi]; rfl })

/-- The slots of the keys that are asked for are freed, saved or not. -/
def drop (q : κ → Bool) (c : WriteBack N P κ α) : WriteBack N P κ α where
  slots i := if (c.slots i).key.any q then ⟨none, false, 0⟩ else c.slots i
  hands := c.hands
  distinct i j k hi hj := by
    split_ifs at hi hj
    · exact absurd hi (by simp [Slot.key])
    · exact absurd hi (by simp [Slot.key])
    · exact absurd hj (by simp [Slot.key])
    · exact c.distinct i j k hi hj
  clean i hi := by
    split_ifs at hi ⊢
    · rfl
    · exact c.clean i hi

section Effects

variable {c : WriteBack N P κ α} {i : Fin N} {k : κ} {a : α} {d : Bool}

theorem get_sweep (rounds : ℕ) (i : Fin N) (c : WriteBack N P κ α) :
    (sweep rounds i c).2.get = c.get := by
  induction rounds generalizing i c with
  | zero => rfl
  | succ rounds ih =>
    rw [sweep]
    split_ifs
    · rfl
    · rw [ih, get_untouch]

/-- The cache after some dirty pairs have been saved: their keys are clean or gone, and so may keys be
that were clean. -/
structure Saves (c : WriteBack N P κ α) (saved : List (κ × α)) (c' : WriteBack N P κ α) : Prop where
  dirty : ∀ k a, (k, a) ∈ saved → c.get k = some (a, true)
  get : ∀ k, (c'.get k = c.get k ∧ ∀ a, (k, a) ∉ saved) ∨
    (∃ a, (k, a) ∈ saved ∧ (c'.get k = none ∨ c'.get k = some (a, false))) ∨
    ∃ a, c.get k = some (a, false) ∧ c'.get k = none

theorem Saves.of_get_eq {c' : WriteBack N P κ α} (h : c'.get = c.get) : Saves c [] c' :=
  ⟨fun _ _ hm => absurd hm List.not_mem_nil, fun k => .inl ⟨congrFun h k, fun _ => List.not_mem_nil⟩⟩

/-- A slot is freed. -/
theorem Saves.of_clear {c' : WriteBack N P κ α} {k : κ} (hk : c.get k = some (a, d))
    (h : c'.get = Function.update c.get k none) : Saves c (if d then [(k, a)] else []) c' := by
  have hmem : ∀ k' a', (k', a') ∈ (if d then [(k, a)] else []) ↔ d = true ∧ k' = k ∧ a' = a := by
    intro k' a'
    cases d <;> simp
  refine ⟨fun k' a' hm => ?_, fun k' => ?_⟩
  · obtain ⟨rfl, rfl, rfl⟩ := (hmem k' a').mp hm
    exact hk
  · by_cases hkk : k' = k
    · subst hkk
      rw [h, Function.update_self]
      cases d with
      | true => exact .inr (.inl ⟨a, (hmem k' a).mpr ⟨rfl, rfl, rfl⟩, .inl rfl⟩)
      | false => exact .inr (.inr ⟨a, hk, rfl⟩)
    · rw [h, Function.update_of_ne hkk]
      exact .inl ⟨rfl, fun a' hm => hkk ((hmem k' a').mp hm).2.1⟩

theorem evict_spec [DecidableEq P] (maxUsage : ℕ) (p : P) (c : WriteBack N P κ α) :
    (∃ c', c.evict maxUsage p = (none, c') ∧ c'.get = c.get) ∨
    ∃ i u c', c.evict maxUsage p = (some (i, u), c') ∧ Saves c u.toList c' ∧
      (c'.slots i).entry = none := by
  have hget := get_sweep (N * maxUsage) (c.hands p) c
  rw [evict]
  cases hs : sweep (N * maxUsage) (c.hands p) c with
  | mk r c₁ =>
    rw [hs] at hget
    cases r with
    | none => exact .inl ⟨c₁, rfl, hget⟩
    | some i =>
      have hmove : ((c₁.clear i).moveHand p (succ i)).get = (c₁.clear i).get :=
        get_congr fun j => ⟨rfl, rfl⟩
      have hfree : (((c₁.clear i).moveHand p (succ i)).slots i).entry = none := by
        change (Function.update c₁.slots i _ i).entry = none
        rw [Function.update_self]
      refine .inr ⟨i, _, _, rfl, ?_, hfree⟩
      cases he : (c₁.slots i).entry with
      | none =>
        rw [Slot.unsaved, he, ite_self]
        exact .of_get_eq (hmove.trans ((get_clear_empty he).trans hget))
      | some q =>
        have hf : c₁.find q.1 = some i := find_eq_some_iff.mpr (key_eq_some_iff.mpr ⟨q.2, he⟩)
        have hq : c.get q.1 = some (q.2, (c₁.slots i).dirty) := by
          rw [← hget]
          exact get_eq_some_iff.mpr ⟨i, he, rfl⟩
        have hsaves := Saves.of_clear hq (hmove.trans ((get_clear hf).trans (by rw [hget])))
        rw [Slot.unsaved, he]
        cases hd : (c₁.slots i).dirty <;> rw [hd] at hsaves <;> exact hsaves

theorem get_place (h : c.find k = none) (he : (c.slots i).entry = none) :
    (c.place i k a d h).get = Function.update c.get k (some (a, d)) := by
  funext k'
  refine Option.ext fun p => ?_
  rw [Function.update_apply, get_eq_some_iff]
  have hslots : (c.place i k a d h).slots = Function.update c.slots i ⟨some (k, a), d, 0⟩ := rfl
  rw [hslots]
  constructor
  · rintro ⟨j, hj, hd⟩
    rw [Function.update_apply] at hj hd
    split_ifs at hj hd with hji
    · obtain ⟨rfl, rfl⟩ := Prod.mk.inj (Option.some.inj hj)
      rw [if_pos rfl]
      exact congrArg some (Prod.ext rfl hd)
    · rw [if_neg, get_eq_some_iff]
      · exact ⟨j, hj, hd⟩
      · rintro rfl
        exact find_eq_none_iff.mp h j (key_eq_some_iff.mpr ⟨_, hj⟩)
  · intro hp
    split_ifs at hp with hk
    · subst hk
      obtain rfl := Option.some.inj hp
      exact ⟨i, by rw [Function.update_self], by rw [Function.update_self]⟩
    · obtain ⟨j, hj, hd⟩ := get_eq_some_iff.mp hp
      refine ⟨j, ?_⟩
      rw [Function.update_of_ne]
      · exact ⟨hj, hd⟩
      · rintro rfl
        rw [he] at hj
        exact absurd hj (by simp)

/-- **An insertion of a new key** fails and changes nothing, or frees a slot for it. -/
theorem insert_spec [DecidableEq P] (maxUsage : ℕ) (p : P) (a : α) (d : Bool) (hk : c.get k = none) :
    (∃ c', c.insert maxUsage p k a d = ⟨none, none, c'⟩ ∧ c'.get = c.get) ∨
    ∃ u c₁ c', c.insert maxUsage p k a d = ⟨some true, u, c'⟩ ∧ Saves c u.toList c₁ ∧
      c₁.get k = none ∧ c'.get = Function.update c₁.get k (some (a, d)) := by
  rw [insert]
  rcases evict_spec maxUsage p c with ⟨c', he, hg⟩ | ⟨i, u, c₁, he, hsaves, hfree⟩
  · rw [he]
    exact .inl ⟨c', rfl, hg⟩
  · have hnone : c₁.get k = none := by
      rcases hsaves.get k with ⟨h, -⟩ | ⟨b, hb, -⟩ | ⟨b, hb, h⟩
      · rw [h, hk]
      · rw [hsaves.dirty k b hb] at hk
        exact absurd hk (by simp)
      · exact h
    have hfind := get_eq_none_iff.mp hnone
    rw [he]
    dsimp only
    rw [dif_pos hfind]
    exact .inr ⟨u, c₁, _, rfl, hsaves, hnone, (get_touch _ _ _).trans (get_place hfind hfree)⟩

theorem get_flush (q : κ → Bool) (c : WriteBack N P κ α) (k : κ) :
    (c.flush q).2.get k = (c.get k).map fun x => (x.1, x.2 && !q k) := by
  refine Option.ext fun p => ?_
  rw [get_eq_some_iff, Option.map_eq_some_iff]
  constructor
  · rintro ⟨i, he, hd⟩
    refine ⟨(p.1, (c.slots i).dirty), get_eq_some_iff.mpr ⟨i, he, rfl⟩, ?_⟩
    have hkey : (c.slots i).key = some k := key_eq_some_iff.mpr ⟨_, he⟩
    change ((c.slots i).dirty && !(c.slots i).key.any q) = p.2 at hd
    rw [hkey] at hd
    exact Prod.ext rfl hd
  · rintro ⟨x, hx, rfl⟩
    obtain ⟨i, he, hd⟩ := get_eq_some_iff.mp hx
    refine ⟨i, he, ?_⟩
    have hkey : (c.slots i).key = some k := key_eq_some_iff.mpr ⟨_, he⟩
    change ((c.slots i).dirty && !(c.slots i).key.any q) = _
    rw [hkey, hd]
    rfl

/-- A flush saves the dirty pairs of the keys that are asked for. -/
theorem mem_flush {q : κ → Bool} : (k, a) ∈ (c.flush q).1 ↔ c.get k = some (a, true) ∧ q k = true := by
  rw [flush, List.mem_filterMap, get_eq_some_iff]
  constructor
  · rintro ⟨i, -, hi⟩
    obtain ⟨hu, hq⟩ := Option.filter_eq_some_iff.mp hi
    rw [Slot.unsaved] at hu
    split_ifs at hu with hd
    exact ⟨⟨i, hu, hd⟩, hq⟩
  · rintro ⟨⟨i, he, hd⟩, hq⟩
    refine ⟨i, List.mem_finRange i, Option.filter_eq_some_iff.mpr ⟨?_, hq⟩⟩
    rw [Slot.unsaved, hd, if_pos rfl, he]

theorem saves_flush (q : κ → Bool) (c : WriteBack N P κ α) : Saves c (c.flush q).1 (c.flush q).2 := by
  refine ⟨fun k a hm => (mem_flush.mp hm).1, fun k => ?_⟩
  rw [get_flush]
  cases hk : c.get k with
  | none => exact .inl ⟨rfl, fun a hm => absurd ((mem_flush.mp hm).1.symm.trans hk) (by simp)⟩
  | some x =>
    by_cases hq : x.2 = true ∧ q k = true
    · refine .inr (.inl ⟨x.1, mem_flush.mpr ⟨?_, hq.2⟩, .inr ?_⟩)
      · rw [hk, ← hq.1]
      · rw [Option.map_some, hq.2]
        simp
    · refine .inl ⟨?_, fun a hm => ?_⟩
      · cases hx : x.2 <;> simp_all [Prod.ext_iff]
      · obtain ⟨hd, hqk⟩ := mem_flush.mp hm
        rw [hk] at hd
        exact hq ⟨congrArg Prod.snd (Option.some.inj hd), hqk⟩

theorem get_drop (q : κ → Bool) (c : WriteBack N P κ α) (k : κ) :
    (c.drop q).get k = if q k then none else c.get k := by
  refine Option.ext fun p => ?_
  rw [get_eq_some_iff]
  have hslot : ∀ i, (c.drop q).slots i = if (c.slots i).key.any q then ⟨none, false, 0⟩
      else c.slots i := fun _ => rfl
  constructor
  · rintro ⟨i, he, hd⟩
    rw [hslot] at he hd
    split_ifs at he hd with hq
    have hkey : (c.slots i).key = some k := key_eq_some_iff.mpr ⟨_, he⟩
    rw [hkey] at hq
    rw [if_neg (by simpa using hq)]
    exact get_eq_some_iff.mpr ⟨i, he, hd⟩
  · intro hp
    split_ifs at hp with hq
    obtain ⟨i, he, hd⟩ := get_eq_some_iff.mp hp
    have hkey : (c.slots i).key = some k := key_eq_some_iff.mpr ⟨_, he⟩
    refine ⟨i, ?_⟩
    rw [hslot, hkey, if_neg (by simpa using hq)]
    exact ⟨he, hd⟩

end Effects

/-! ## The store behind a cache -/

/-- A store: the value of a key, and whether the store is going to keep it. -/
structure Backing (κ α : Type) where
  values : κ → Option α
  secured : κ → Prop

/-- A pair is saved. -/
def Backing.save (b : Backing κ α) (p : κ × α) : Backing κ α :=
  ⟨Function.update b.values p.1 (some p.2), fun k => b.secured k ∨ k = p.1⟩

/-- What is clean in the cache is in the store. -/
def Coherent (c : WriteBack N P κ α) (b : Backing κ α) : Prop :=
  ∀ k a, c.get k = some (a, false) → b.values k = some a

/-- The value of a key. -/
def view (c : WriteBack N P κ α) (b : Backing κ α) (k : κ) : Option α :=
  ((c.get k).map Prod.fst).or (b.values k)

/-- A key that is dirty in the cache, or is secured in the store. -/
def Secured (c : WriteBack N P κ α) (b : Backing κ α) (k : κ) : Prop :=
  (∃ a, c.get k = some (a, true)) ∨ b.secured k

section View

variable {c c' : WriteBack N P κ α} {b : Backing κ α} {saved : List (κ × α)} {k : κ} {a : α} {d : Bool}

theorem values_foldl_save (b : Backing κ α) (saved : List (κ × α)) (h : ∀ a', (k, a') ∈ saved → a' = a)
    (hm : (k, a) ∈ saved ∨ b.values k = some a) : (saved.foldl Backing.save b).values k = some a := by
  induction saved generalizing b with
  | nil => exact hm.resolve_left List.not_mem_nil
  | cons p saved ih =>
    refine ih (b.save p) (fun a' ha' => h a' (List.mem_cons_of_mem _ ha')) ?_
    by_cases hp : k = p.1
    · have hpa : p.2 = a := h p.2 (by rw [hp]; exact List.mem_cons_self)
      right
      change Function.update b.values p.1 (some p.2) k = some a
      rw [hp, Function.update_self, hpa]
    · rcases hm with hm | hm
      · rcases List.mem_cons.mp hm with rfl | hm
        · exact absurd rfl hp
        · exact .inl hm
      · exact .inr ((Function.update_of_ne hp _ _).trans hm)

theorem values_foldl_save_of_not_mem (b : Backing κ α) (h : ∀ a, (k, a) ∉ saved) :
    (saved.foldl Backing.save b).values k = b.values k := by
  induction saved generalizing b with
  | nil => rfl
  | cons p saved ih =>
    rw [List.foldl_cons, ih (b.save p) fun a ha => h a (List.mem_cons_of_mem _ ha)]
    refine Function.update_of_ne ?_ _ _
    rintro rfl
    exact h p.2 List.mem_cons_self

theorem secured_foldl_save (b : Backing κ α) (saved : List (κ × α)) :
    (saved.foldl Backing.save b).secured k ↔ b.secured k ∨ ∃ a, (k, a) ∈ saved := by
  induction saved generalizing b with
  | nil => simp
  | cons p saved ih =>
    rw [List.foldl_cons, ih]
    simp only [Backing.save, List.mem_cons, exists_or, or_assoc]
    refine or_congr_right (or_congr_left ?_)
    exact ⟨fun h => ⟨p.2, by rw [h]⟩, fun ⟨a, ha⟩ => by rw [← ha]⟩

namespace Saves

theorem eq_of_mem (h : Saves c saved c') (hm : (k, a) ∈ saved) {a' : α} (hm' : (k, a') ∈ saved) :
    a' = a := by
  have heq := (h.dirty k a' hm').symm.trans (h.dirty k a hm)
  exact congrArg Prod.fst (Option.some.inj heq)

theorem values_of_mem (h : Saves c saved c') (b : Backing κ α) (hm : (k, a) ∈ saved) :
    (saved.foldl Backing.save b).values k = some a :=
  values_foldl_save b saved (fun _ hm' => h.eq_of_mem hm hm') (.inl hm)

theorem not_mem (h : Saves c saved c') (hk : ∀ a, c.get k ≠ some (a, true)) (a : α) : (k, a) ∉ saved :=
  fun hm => hk a (h.dirty k a hm)

/-- **Saves keep the values of all keys.** -/
theorem view_eq (h : Saves c saved c') (hc : c.Coherent b) (k : κ) :
    c'.view (saved.foldl Backing.save b) k = c.view b k := by
  rw [view, view]
  rcases h.get k with ⟨hg, hn⟩ | ⟨a, hm, hg⟩ | ⟨a, hk, hg⟩
  · rw [hg, values_foldl_save_of_not_mem b hn]
  · rw [h.dirty k a hm, h.values_of_mem b hm]
    rcases hg with hg | hg <;> rw [hg] <;> rfl
  · rw [hk, hg, values_foldl_save_of_not_mem b (h.not_mem fun a' ha' => by simp [hk] at ha'), hc k a hk]
    rfl

theorem coherent (h : Saves c saved c') (hc : c.Coherent b) :
    c'.Coherent (saved.foldl Backing.save b) := by
  intro k a hk
  rcases h.get k with ⟨hg, hn⟩ | ⟨a', hm, hg⟩ | ⟨a', -, hg⟩
  · rw [values_foldl_save_of_not_mem b hn]
    exact hc k a (hg ▸ hk)
  · rw [h.values_of_mem b hm]
    rcases hg with hg | hg
    · rw [hg] at hk
      exact absurd hk (by simp)
    · exact congrArg (Option.map Prod.fst) (hg.symm.trans hk)
  · rw [hg] at hk
    exact absurd hk (by simp)

theorem secured (h : Saves c saved c') (hk : c.Secured b k) :
    c'.Secured (saved.foldl Backing.save b) k := by
  rcases hk with ⟨a, hk⟩ | hk
  · rcases h.get k with ⟨hg, -⟩ | ⟨a', hm, -⟩ | ⟨a', hk', -⟩
    · exact .inl ⟨a, hg.trans hk⟩
    · exact .inr ((secured_foldl_save b saved).mpr (.inr ⟨a', hm⟩))
    · rw [hk] at hk'
      exact absurd hk' (by simp)
  · exact .inr ((secured_foldl_save b saved).mpr (.inl hk))

/-- A save has nothing to do where nothing is dirty. -/
theorem eq_nil (h : Saves c saved c') (hc : ∀ k a, c.get k ≠ some (a, true)) : saved = [] :=
  List.eq_nil_iff_forall_not_mem.mpr fun p hp => hc p.1 p.2 (h.dirty p.1 p.2 hp)

theorem not_dirty (h : Saves c saved c') (hk : ∀ a, c.get k ≠ some (a, true)) (a : α) :
    c'.get k ≠ some (a, true) := by
  rcases h.get k with ⟨hg, -⟩ | ⟨a', -, hg | hg⟩ | ⟨a', -, hg⟩ <;> rw [hg]
  · exact hk a
  · simp
  · simp
  · simp

end Saves

/-- A key that is put into the cache has that value, and the others keep theirs. -/
theorem view_update (h : c'.get = Function.update c.get k (some (a, d))) :
    c'.view b = Function.update (c.view b) k (some a) := by
  funext k'
  rw [view, h, Function.update_apply, Function.update_apply]
  split_ifs
  · rfl
  · rfl

/-- A clean key is put in with the value that the store has, a dirty one with any. -/
theorem coherent_update (h : c'.get = Function.update c.get k (some (a, d))) (hc : c.Coherent b)
    (ha : d = false → b.values k = some a) : c'.Coherent b := by
  intro k' a' hk'
  rw [h, Function.update_apply] at hk'
  split_ifs at hk' with hkk
  · obtain ⟨rfl, rfl⟩ := Prod.mk.inj (Option.some.inj hk')
    rw [hkk, ha rfl]
  · exact hc k' a' hk'

theorem secured_update (h : c'.get = Function.update c.get k (some (a, d))) {k' : κ}
    (hk : k' ≠ k ∨ d = true ∨ ∀ a, c.get k ≠ some (a, true)) (hs : c.Secured b k') : c'.Secured b k' := by
  rcases hs with ⟨a', ha'⟩ | hs
  · by_cases hkk : k' = k
    · subst hkk
      rcases hk with hk | rfl | hk
      · exact absurd rfl hk
      · exact .inl ⟨a, by rw [h, Function.update_self]⟩
      · exact absurd ha' (hk a')
    · exact .inl ⟨a', by rw [h, Function.update_of_ne hkk, ha']⟩
  · exact .inr hs

end View

end WriteBack

end Lib

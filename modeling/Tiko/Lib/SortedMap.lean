import Mathlib.Data.List.Basic
import Mathlib.Order.Defs.LinearOrder
import Mathlib.Tactic

/-!
# Sorted maps

A finite map as the list of its entries, strictly ascending by key. The list is the order in which
an on-disk table stores the entries, so listings, binary searches and two-pointer merges are
literal, while `lookup` gives the map.

* `SortedMap.lookup`, `insert`, `filter`, `erase`: membership in the entry list and lookup agree
  (`mem_entries_iff`), maps are determined by their lookups (`ext_lookup`);
* **`lookup_merge`**: the two-pointer merge takes the entry of either side where only one has the
  key, and the resolved entry where both do;
* `entries_insert_of_gt`, `entries_insert_last`: inserting at or above the greatest key appends to
  or replaces the last entry;
* `SortedSet`: finite sets, as maps to the unit type.
-/

namespace Lib

variable {K V : Type} [LinearOrder K]

/-- A finite map: its entries, strictly ascending by key. -/
@[ext] structure SortedMap (K V : Type) [LinearOrder K] where
  entries : List (K × V)
  sorted : entries.Pairwise fun a b => a.1 < b.1

namespace SortedMap

instance [DecidableEq V] : DecidableEq (SortedMap K V) := fun m n =>
  decidable_of_iff (m.entries = n.entries) SortedMap.ext_iff.symm

/-- The empty map. -/
def empty : SortedMap K V := ⟨[], .nil⟩

instance : Inhabited (SortedMap K V) := ⟨empty⟩

/-- The value of a key. -/
def lookup (m : SortedMap K V) (k : K) : Option V := m.entries.lookup k

/-- The keys, ascending. -/
def keys (m : SortedMap K V) : List K := m.entries.map Prod.fst

@[simp] theorem lookup_empty (k : K) : (empty : SortedMap K V).lookup k = none := rfl

/-! ## Entries and lookups -/

theorem lookup_cons_eq (a : K × V) (l : List (K × V)) (k : K) :
    (a :: l).lookup k = if k = a.1 then some a.2 else l.lookup k := by
  rw [List.lookup_cons]
  split_ifs with h
  · simp [h]
  · simp [beq_eq_false_iff_ne.mpr h]

/-- In a strictly ascending list the keys after an entry differ from its key. -/
theorem lookup_eq_none_of_forall_lt {l : List (K × V)} {k : K} (h : ∀ a ∈ l, k < a.1) :
    l.lookup k = none := by
  induction l with
  | nil => rfl
  | cons a l ih =>
    rw [lookup_cons_eq, if_neg (ne_of_lt (h a List.mem_cons_self))]
    exact ih fun b hb => h b (List.mem_cons_of_mem _ hb)

theorem mem_iff_lookup_of_sorted {l : List (K × V)} (h : l.Pairwise fun a b => a.1 < b.1) (k : K)
    (v : V) : (k, v) ∈ l ↔ l.lookup k = some v := by
  induction l with
  | nil => simp
  | cons a l ih =>
    obtain ⟨hlt, hl⟩ := List.pairwise_cons.mp h
    obtain ⟨k', v'⟩ := a
    rw [List.mem_cons, lookup_cons_eq, ih hl]
    by_cases hk : k = k'
    · subst hk
      simp [lookup_eq_none_of_forall_lt hlt, eq_comm]
    · simp [hk]

theorem mem_entries_iff (m : SortedMap K V) (k : K) (v : V) :
    (k, v) ∈ m.entries ↔ m.lookup k = some v :=
  mem_iff_lookup_of_sorted m.sorted k v

theorem mem_keys_iff (m : SortedMap K V) (k : K) : k ∈ m.keys ↔ (m.lookup k).isSome := by
  simp only [keys, List.mem_map, Prod.exists, exists_and_right, exists_eq_right,
    mem_entries_iff, Option.isSome_iff_exists]

theorem sorted_keys (m : SortedMap K V) : m.keys.Pairwise (· < ·) :=
  List.pairwise_map.mpr m.sorted

/-- Two strictly ascending lists with the same members are equal. -/
theorem eq_of_mem_iff {l l' : List (K × V)} (h : l.Pairwise fun a b => a.1 < b.1)
    (h' : l'.Pairwise fun a b => a.1 < b.1) (hm : ∀ a, a ∈ l ↔ a ∈ l') : l = l' := by
  have hirr : ∀ a b : K × V, a.1 < b.1 → b.1 < a.1 → False := fun a b hab hba =>
    lt_irrefl _ (hab.trans hba)
  have hnd : ∀ {s : List (K × V)}, (s.Pairwise fun a b => a.1 < b.1) → s.Nodup := fun hs =>
    List.Pairwise.imp (fun {_ _} hlt heq => ne_of_lt hlt (congrArg Prod.fst heq)) hs
  have hp : l.Perm l' := (List.perm_ext_iff_of_nodup (hnd h) (hnd h')).mpr hm
  exact hp.eq_of_pairwise (fun a b _ _ hab hba => (hirr a b hab hba).elim) h h'

/-- **Maps with the same lookups are equal.** -/
theorem ext_lookup {m n : SortedMap K V} (h : ∀ k, m.lookup k = n.lookup k) : m = n := by
  apply SortedMap.ext
  refine eq_of_mem_iff m.sorted n.sorted fun ⟨k, v⟩ => ?_
  rw [mem_entries_iff, mem_entries_iff, h k]

/-! ## Insertion -/

/-- Ordered insertion into an entry list, replacing the value of an existing key. -/
def insertList (k : K) (v : V) : List (K × V) → List (K × V)
  | [] => [(k, v)]
  | a :: l => if k < a.1 then (k, v) :: a :: l else if k = a.1 then (k, v) :: l
      else a :: insertList k v l

theorem mem_insertList {k : K} {v : V} {l : List (K × V)} (h : l.Pairwise fun a b => a.1 < b.1)
    (x : K × V) : x ∈ insertList k v l ↔ x = (k, v) ∨ x.1 ≠ k ∧ x ∈ l := by
  induction l with
  | nil => simp [insertList]
  | cons a l ih =>
    obtain ⟨hlt, hl⟩ := List.pairwise_cons.mp h
    rw [insertList]
    split_ifs with h1 h2
    · simp only [List.mem_cons]
      constructor
      · rintro (rfl | rfl | hx)
        · exact .inl rfl
        · exact .inr ⟨ne_of_gt h1, .inl rfl⟩
        · exact .inr ⟨ne_of_gt (h1.trans (hlt x hx)), .inr hx⟩
      · rintro (rfl | ⟨-, hx⟩)
        · exact .inl rfl
        · exact .inr hx
    · simp only [List.mem_cons]
      constructor
      · rintro (rfl | hx)
        · exact .inl rfl
        · exact .inr ⟨ne_of_gt (h2 ▸ hlt x hx), .inr hx⟩
      · rintro (rfl | ⟨hne, rfl | hx⟩)
        · exact .inl rfl
        · exact absurd h2.symm hne
        · exact .inr hx
    · simp only [List.mem_cons, ih hl]
      constructor
      · rintro (rfl | rfl | ⟨hne, hx⟩)
        · exact .inr ⟨fun e => h2 e.symm, .inl rfl⟩
        · exact .inl rfl
        · exact .inr ⟨hne, .inr hx⟩
      · rintro (rfl | ⟨hne, rfl | hx⟩)
        · exact .inr (.inl rfl)
        · exact .inl rfl
        · exact .inr (.inr ⟨hne, hx⟩)

theorem sorted_insertList {k : K} {v : V} {l : List (K × V)}
    (h : l.Pairwise fun a b => a.1 < b.1) :
    (insertList k v l).Pairwise fun a b => a.1 < b.1 := by
  induction l with
  | nil => simp [insertList]
  | cons a l ih =>
    obtain ⟨hlt, hl⟩ := List.pairwise_cons.mp h
    rw [insertList]
    split_ifs with h1 h2
    · refine List.pairwise_cons.mpr ⟨fun b hb => ?_, h⟩
      rcases List.mem_cons.mp hb with rfl | hb
      · exact h1
      · exact h1.trans (hlt b hb)
    · exact List.pairwise_cons.mpr ⟨fun b hb => h2 ▸ hlt b hb, hl⟩
    · refine List.pairwise_cons.mpr ⟨fun b hb => ?_, ih hl⟩
      rcases (mem_insertList hl b).mp hb with rfl | ⟨-, hb⟩
      · exact lt_of_le_of_ne (not_lt.mp h1) (Ne.symm h2)
      · exact hlt b hb

/-- The map with `k` sent to `v`. -/
def insert (m : SortedMap K V) (k : K) (v : V) : SortedMap K V :=
  ⟨insertList k v m.entries, sorted_insertList m.sorted⟩

@[simp] theorem lookup_insert_self (m : SortedMap K V) (k : K) (v : V) :
    (m.insert k v).lookup k = some v := by
  rw [← mem_entries_iff]
  exact (mem_insertList m.sorted _).mpr (.inl rfl)

theorem lookup_insert_of_ne (m : SortedMap K V) {k k' : K} (v : V) (h : k' ≠ k) :
    (m.insert k v).lookup k' = m.lookup k' := by
  apply Option.ext
  intro w
  rw [← mem_entries_iff, ← mem_entries_iff, insert, mem_insertList m.sorted]
  simp [h]

theorem lookup_insert (m : SortedMap K V) (k k' : K) (v : V) :
    (m.insert k v).lookup k' = if k' = k then some v else m.lookup k' := by
  split_ifs with h
  · rw [h, lookup_insert_self]
  · exact m.lookup_insert_of_ne v h

/-- Inserting above every key appends. -/
theorem entries_insert_of_gt (m : SortedMap K V) {k : K} (v : V) (h : ∀ a ∈ m.entries, a.1 < k) :
    (m.insert k v).entries = m.entries ++ [(k, v)] := by
  refine eq_of_mem_iff (m.insert k v).sorted ?_ fun x => ?_
  · rw [List.pairwise_append]
    refine ⟨m.sorted, List.pairwise_singleton _ _, fun a ha b hb => ?_⟩
    rw [List.mem_singleton.mp hb]
    exact h a ha
  · rw [insert, mem_insertList m.sorted, List.mem_append, List.mem_singleton]
    constructor
    · rintro (rfl | ⟨-, hx⟩)
      · exact .inr rfl
      · exact .inl hx
    · rintro (hx | rfl)
      · exact .inr ⟨ne_of_lt (h x hx), hx⟩
      · exact .inl rfl

/-- The last entry after an insertion: the new one, or one with a larger key. -/
theorem getLast?_insertList (k : K) (v : V) {l : List (K × V)}
    (h : l.Pairwise fun a b => a.1 < b.1) :
    (insertList k v l).getLast? = some (k, v) ∨
      (insertList k v l).getLast? = l.getLast? ∧ ∃ a ∈ l, k < a.1 := by
  induction l with
  | nil => exact .inl rfl
  | cons a l ih =>
    obtain ⟨hlt, hl⟩ := List.pairwise_cons.mp h
    rw [insertList]
    split_ifs with h1 h2
    · exact .inr ⟨List.getLast?_cons_cons, a, List.mem_cons_self, h1⟩
    · cases l with
      | nil => exact .inl rfl
      | cons b l =>
        refine .inr ⟨by rw [List.getLast?_cons_cons, List.getLast?_cons_cons], b, by simp, ?_⟩
        rw [h2]
        exact hlt b List.mem_cons_self
    · have hne : insertList k v l ≠ [] :=
        List.ne_nil_of_mem ((mem_insertList hl (k, v)).mpr (.inl rfl))
      obtain ⟨x, xs, hx⟩ := List.exists_cons_of_ne_nil hne
      rw [hx, List.getLast?_cons_cons, ← hx]
      rcases ih hl with hk | ⟨hk, b, hb, hkb⟩
      · exact .inl hk
      · obtain ⟨y, ys, hy⟩ := List.exists_cons_of_ne_nil (List.ne_nil_of_mem hb)
        refine .inr ⟨?_, b, List.mem_cons_of_mem _ hb, hkb⟩
        rw [hk, hy, List.getLast?_cons_cons]

/-- The entry of a key above all others is the last one. -/
theorem exists_append_of_lookup {m : SortedMap K V} {k : K} {v : V}
    (h : ∀ a ∈ m.entries, a.1 ≤ k) (hk : m.lookup k = some v) : ∃ l, m.entries = l ++ [(k, v)] := by
  obtain ⟨l, r, hl⟩ := List.append_of_mem ((m.mem_entries_iff k v).mpr hk)
  have hs := m.sorted
  rw [hl, List.pairwise_append] at hs
  cases r with
  | nil => exact ⟨l, hl⟩
  | cons a r =>
    have hlt := (List.pairwise_cons.mp hs.2.1).1 a List.mem_cons_self
    exact absurd (h a (by rw [hl]; simp)) (not_le.mpr hlt)

/-- Inserting the greatest key again replaces the last entry. -/
theorem entries_insert_last (m : SortedMap K V) {l : List (K × V)} {k : K} {v w : V}
    (h : m.entries = l ++ [(k, w)]) : (m.insert k v).entries = l ++ [(k, v)] := by
  have hs := m.sorted
  rw [h, List.pairwise_append] at hs
  have hlt : ∀ a ∈ l, a.1 < k := fun a ha => hs.2.2 a ha (k, w) (List.mem_singleton.mpr rfl)
  refine eq_of_mem_iff (m.insert k v).sorted ?_ fun x => ?_
  · rw [List.pairwise_append]
    refine ⟨hs.1, List.pairwise_singleton _ _, fun a ha b hb => ?_⟩
    rw [List.mem_singleton.mp hb]
    exact hlt a ha
  · rw [insert, mem_insertList m.sorted, h, List.mem_append, List.mem_append, List.mem_singleton,
      List.mem_singleton]
    constructor
    · rintro (rfl | ⟨hne, hx | rfl⟩)
      · exact .inr rfl
      · exact .inl hx
      · exact absurd rfl hne
    · rintro (hx | rfl)
      · exact .inr ⟨ne_of_lt (hlt x hx), .inl hx⟩
      · exact .inl rfl

/-- Insert the pairs of a list, first to last. -/
def insertAll (m : SortedMap K V) (l : List (K × V)) : SortedMap K V :=
  l.foldl (fun m a => m.insert a.1 a.2) m

/-- The last inserted value of a key wins. -/
theorem lookup_insertAll (m : SortedMap K V) (l : List (K × V)) (k : K) :
    (m.insertAll l).lookup k = (l.reverse.lookup k).or (m.lookup k) := by
  induction l using List.reverseRecOn with
  | nil => rfl
  | append_singleton l a ih =>
    rw [insertAll, List.foldl_append, List.foldl_cons, List.foldl_nil, lookup_insert,
      List.reverse_append, List.reverse_singleton, List.singleton_append, lookup_cons_eq]
    split_ifs
    · rfl
    · exact ih

theorem mem_of_lookup_eq_some {l : List (K × V)} {k : K} {v : V} (h : l.lookup k = some v) :
    (k, v) ∈ l := by
  induction l with
  | nil => exact absurd h (by simp)
  | cons a l ih =>
    rw [lookup_cons_eq] at h
    split_ifs at h with hk
    · rw [hk, ← Option.some.inj h]
      exact List.mem_cons_self
    · exact List.mem_cons_of_mem _ (ih h)

theorem lookup_ne_none_of_mem {l : List (K × V)} {k : K} {v : V} (h : (k, v) ∈ l) :
    l.lookup k ≠ none := by
  induction l with
  | nil => exact absurd h List.not_mem_nil
  | cons a l ih =>
    rw [lookup_cons_eq]
    split_ifs with hk
    · exact Option.some_ne_none _
    · rcases List.mem_cons.mp h with rfl | h
      · exact absurd rfl hk
      · exact ih h

/-- Inserting a list that holds one value for a key. -/
theorem lookup_insertAll_of_mem_iff (m : SortedMap K V) {l : List (K × V)} {k : K} {o : Option V}
    (h : ∀ v, (k, v) ∈ l ↔ o = some v) : (m.insertAll l).lookup k = o.or (m.lookup k) := by
  rw [lookup_insertAll]
  congr 1
  cases hl : l.reverse.lookup k with
  | some v => exact ((h v).mp (List.mem_reverse.mp (mem_of_lookup_eq_some hl))).symm
  | none =>
    cases ho : o with
    | none => rfl
    | some v => exact absurd hl (lookup_ne_none_of_mem (List.mem_reverse.mpr ((h v).mpr ho)))

theorem length_insertList_le (k : K) (v : V) (l : List (K × V)) :
    (insertList k v l).length ≤ l.length + 1 := by
  induction l with
  | nil => simp [insertList]
  | cons a l ih =>
    rw [insertList]
    split_ifs <;> simp only [List.length_cons] <;> omega

theorem length_insertAll_le (m : SortedMap K V) (l : List (K × V)) :
    (m.insertAll l).entries.length ≤ m.entries.length + l.length := by
  induction l generalizing m with
  | nil => exact le_rfl
  | cons a l ih =>
    have h1 := ih (m.insert a.1 a.2)
    have h2 := length_insertList_le a.1 a.2 m.entries
    have h3 : (m.insert a.1 a.2).entries.length ≤ m.entries.length + 1 := h2
    rw [insertAll] at h1 ⊢
    rw [List.foldl_cons, List.length_cons]
    omega

/-- Inserting the entries of a map overwrites with that map. -/
theorem lookup_insertAll_entries (m n : SortedMap K V) (k : K) :
    (m.insertAll n.entries).lookup k = (n.lookup k).or (m.lookup k) :=
  m.lookup_insertAll_of_mem_iff fun v => n.mem_entries_iff k v

theorem insertAll_entries (m : SortedMap K V) : empty.insertAll m.entries = m :=
  ext_lookup fun k => by rw [lookup_insertAll_entries, lookup_empty, Option.or_none]

/-! ## Filtering -/

/-- The entries that satisfy `p`. -/
def filter (m : SortedMap K V) (p : K → V → Bool) : SortedMap K V :=
  ⟨m.entries.filter fun a => p a.1 a.2, m.sorted.filter _⟩

theorem lookup_filter (m : SortedMap K V) (p : K → V → Bool) (k : K) :
    (m.filter p).lookup k = (m.lookup k).filter (p k) := by
  apply Option.ext
  intro v
  rw [← mem_entries_iff, filter, List.mem_filter, mem_entries_iff, Option.filter_eq_some_iff]

/-- Filtering a list with ascending keys by a lower bound drops a prefix. -/
theorem filter_le_suffix {l : List (K × V)} (h : l.Pairwise fun a b => a.1 < b.1) (k : K) :
    l.filter (fun a => decide (k ≤ a.1)) <:+ l := by
  induction l with
  | nil => exact List.suffix_rfl
  | cons a l ih =>
    obtain ⟨hlt, hl⟩ := List.pairwise_cons.mp h
    by_cases hk : k ≤ a.1
    · have hall : (a :: l).filter (fun a => decide (k ≤ a.1)) = a :: l := by
        refine List.filter_eq_self.mpr fun b hb => ?_
        rcases List.mem_cons.mp hb with rfl | hb
        · exact decide_eq_true hk
        · exact decide_eq_true (hk.trans (hlt b hb).le)
      rw [hall]
    · rw [List.filter_cons_of_neg (by simpa using hk)]
      exact (ih hl).trans (List.suffix_cons a l)

/-! ## Merging -/

/-- Merge the entry `a`, followed by what `rest` merges, into a list. -/
def mergeInto (f : V → V → V) (a : K × V) (rest : List (K × V) → List (K × V)) :
    List (K × V) → List (K × V)
  | [] => a :: rest []
  | b :: l' =>
    if a.1 < b.1 then a :: rest (b :: l')
    else if b.1 < a.1 then b :: mergeInto f a rest l'
    else (a.1, f a.2 b.2) :: rest l'

/-- The two-pointer merge of two entry lists; `f` resolves a key that both hold. -/
def mergeList (f : V → V → V) : List (K × V) → List (K × V) → List (K × V)
  | [], l' => l'
  | a :: l, l' => mergeInto f a (mergeList f l) l'

/-- What the merged list holds at a key. -/
theorem lookup_mergeList (f : V → V → V) (k : K) (l l' : List (K × V))
    (h : l.Pairwise fun a b => a.1 < b.1) (h' : l'.Pairwise fun a b => a.1 < b.1) :
    (mergeList f l l').lookup k = Option.merge f (l.lookup k) (l'.lookup k) := by
  induction l generalizing l' with
  | nil => simp [mergeList]
  | cons a l ih =>
    obtain ⟨hlt, hl⟩ := List.pairwise_cons.mp h
    induction l' with
    | nil => simp [mergeList, mergeInto, lookup_cons_eq, ih [] hl .nil]
    | cons b l' ih' =>
      obtain ⟨hlt', hl'⟩ := List.pairwise_cons.mp h'
      rw [mergeList, mergeInto]
      split_ifs with hab hba
      · -- every key of the right list is above `a.1`
        have hnone : (b :: l').lookup a.1 = none := lookup_eq_none_of_forall_lt fun c hc => by
          rcases List.mem_cons.mp hc with rfl | hc
          · exact hab
          · exact hab.trans (hlt' c hc)
        rw [lookup_cons_eq, ih _ hl h', lookup_cons_eq a l]
        by_cases hk : k = a.1
        · simp [hk, hnone]
        · simp [hk]
      · have hnone : (a :: l).lookup b.1 = none := lookup_eq_none_of_forall_lt fun c hc => by
          rcases List.mem_cons.mp hc with rfl | hc
          · exact hba
          · exact hba.trans (hlt c hc)
        change (b :: mergeList f (a :: l) l').lookup k = _
        rw [lookup_cons_eq, ih' hl', lookup_cons_eq b l']
        by_cases hk : k = b.1
        · simp [hk, hnone]
        · simp [hk]
      · have hkey : a.1 = b.1 := le_antisymm (not_lt.mp hba) (not_lt.mp hab)
        rw [lookup_cons_eq, ih _ hl hl', lookup_cons_eq a l, lookup_cons_eq b l', ← hkey]
        by_cases hk : k = a.1 <;> simp [hk]

theorem key_mem_mergeList (f : V → V → V) (l l' : List (K × V)) :
    ∀ x ∈ mergeList f l l', (∃ a ∈ l, a.1 = x.1) ∨ ∃ b ∈ l', b.1 = x.1 := by
  induction l generalizing l' with
  | nil => exact fun x hx => .inr ⟨x, hx, rfl⟩
  | cons a l ih =>
    have hcons : ∀ {l'' : List (K × V)} {x : K × V}, x = a ∨ x ∈ mergeList f l l'' →
        (∃ c ∈ a :: l, c.1 = x.1) ∨ ∃ b ∈ l'', b.1 = x.1 := by
      rintro l'' x (rfl | hx)
      · exact .inl ⟨x, List.mem_cons_self, rfl⟩
      · rcases ih l'' x hx with ⟨c, hc, he⟩ | hr
        · exact .inl ⟨c, List.mem_cons_of_mem _ hc, he⟩
        · exact .inr hr
    induction l' with
    | nil => exact fun x hx => hcons (List.mem_cons.mp hx)
    | cons b l' ih' =>
      intro x hx
      rw [mergeList, mergeInto] at hx
      split_ifs at hx with hab hba
      · exact hcons (List.mem_cons.mp hx)
      · rcases List.mem_cons.mp hx with rfl | hx
        · exact .inr ⟨x, List.mem_cons_self, rfl⟩
        · rcases ih' x hx with hl | ⟨c, hc, he⟩
          · exact .inl hl
          · exact .inr ⟨c, List.mem_cons_of_mem _ hc, he⟩
      · rcases List.mem_cons.mp hx with rfl | hx
        · exact .inl ⟨a, List.mem_cons_self, rfl⟩
        · rcases hcons (.inr hx) with hl | ⟨c, hc, he⟩
          · exact .inl hl
          · exact .inr ⟨c, List.mem_cons_of_mem _ hc, he⟩

theorem sorted_mergeList (f : V → V → V) (l l' : List (K × V))
    (h : l.Pairwise fun a b => a.1 < b.1) (h' : l'.Pairwise fun a b => a.1 < b.1) :
    (mergeList f l l').Pairwise fun a b => a.1 < b.1 := by
  induction l generalizing l' with
  | nil => exact h'
  | cons a l ih =>
    obtain ⟨hlt, hl⟩ := List.pairwise_cons.mp h
    -- an entry in front of a merge is below it when it is below both lists
    have hfront : ∀ {c : K × V} {r r' : List (K × V)}, (∀ x ∈ r, c.1 < x.1) →
        (∀ x ∈ r', c.1 < x.1) → ∀ x ∈ mergeList f r r', c.1 < x.1 := by
      intro c r r' hr hr' x hx
      rcases key_mem_mergeList f r r' x hx with ⟨d, hd, he⟩ | ⟨d, hd, he⟩
      · exact he ▸ hr d hd
      · exact he ▸ hr' d hd
    induction l' with
    | nil => exact List.pairwise_cons.mpr ⟨hfront hlt (fun x hx => absurd hx List.not_mem_nil),
        ih [] hl .nil⟩
    | cons b l' ih' =>
      obtain ⟨hlt', hl'⟩ := List.pairwise_cons.mp h'
      rw [mergeList, mergeInto]
      split_ifs with hab hba
      · refine List.pairwise_cons.mpr ⟨hfront hlt fun x hx => ?_, ih _ hl h'⟩
        rcases List.mem_cons.mp hx with rfl | hx
        · exact hab
        · exact hab.trans (hlt' x hx)
      · refine List.pairwise_cons.mpr ⟨hfront (r := a :: l) (fun x hx => ?_) hlt', ih' hl'⟩
        rcases List.mem_cons.mp hx with rfl | hx
        · exact hba
        · exact hba.trans (hlt x hx)
      · have hkey : a.1 = b.1 := le_antisymm (not_lt.mp hba) (not_lt.mp hab)
        exact List.pairwise_cons.mpr ⟨hfront hlt (hkey ▸ hlt'), ih _ hl hl'⟩

/-- Merge two maps; `f` resolves a key that both hold. -/
def merge (f : V → V → V) (m n : SortedMap K V) : SortedMap K V :=
  ⟨mergeList f m.entries n.entries, sorted_mergeList f _ _ m.sorted n.sorted⟩

/-- **What a merge holds at a key.** -/
theorem lookup_merge (f : V → V → V) (m n : SortedMap K V) (k : K) :
    (merge f m n).lookup k = Option.merge f (m.lookup k) (n.lookup k) :=
  lookup_mergeList f k _ _ m.sorted n.sorted

end SortedMap

/-! ## Sets -/

/-- A finite set, listed in ascending order. -/
abbrev SortedSet (K : Type) [LinearOrder K] := SortedMap K Unit

namespace SortedSet

/-- Membership. -/
def contains (s : SortedSet K) (k : K) : Bool := (s.lookup k).isSome

/-- The set with `k`. -/
def add (s : SortedSet K) (k : K) : SortedSet K := s.insert k ()

/-- The set with the members of `t`. -/
def union (s t : SortedSet K) : SortedSet K := s.insertAll t.entries

@[simp] theorem contains_empty (k : K) : contains (SortedMap.empty : SortedSet K) k = false := rfl

@[simp] theorem contains_add (s : SortedSet K) (k k' : K) :
    contains (add s k) k' = (decide (k' = k) || contains s k') := by
  rw [contains, add, SortedMap.lookup_insert]
  split_ifs with h <;> simp [h, contains]

@[simp] theorem contains_union (s t : SortedSet K) (k : K) :
    contains (union s t) k = (contains t k || contains s k) := by
  rw [contains, union, SortedMap.lookup_insertAll_entries, Option.isSome_or]
  rfl

theorem contains_insertAll (s : SortedSet K) (l : List (K × Unit)) (k : K) :
    contains (s.insertAll l) k = true ↔ (k, ()) ∈ l ∨ contains s k = true := by
  rw [contains, SortedMap.lookup_insertAll, Option.isSome_or, Bool.or_eq_true]
  refine or_congr ⟨fun h => ?_, fun h => ?_⟩ Iff.rfl
  · obtain ⟨v, hv⟩ := Option.isSome_iff_exists.mp h
    exact List.mem_reverse.mp (SortedMap.mem_of_lookup_eq_some hv)
  · exact Option.isSome_iff_ne_none.mpr
      (SortedMap.lookup_ne_none_of_mem (List.mem_reverse.mpr h))

theorem contains_iff_mem_keys (s : SortedSet K) (k : K) : contains s k = true ↔ k ∈ s.keys :=
  (SortedMap.mem_keys_iff s k).symm

theorem ext_contains {s t : SortedSet K} (h : ∀ k, contains s k = contains t k) : s = t := by
  refine SortedMap.ext_lookup fun k => ?_
  have hk := h k
  rw [contains, contains] at hk
  cases hs : SortedMap.lookup s k <;> cases ht : SortedMap.lookup t k <;> simp_all

end SortedSet

end Lib

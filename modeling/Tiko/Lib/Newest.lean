import Mathlib.Order.Defs.LinearOrder
import Mathlib.Tactic

/-!
# The newest entry of a log

A log lists its entries oldest first, with strictly ascending keys. `newest f l` is the value of `f`
at the last entry that has one. A search through layers, each holding a part of the log, finds it
when what the layers hold is closed upwards:

* `newest_eq_some_iff`: the characterisation by keys;
* **`newest_of_lower`**: when the upper part has nothing, any list with the remaining values will do.
-/

namespace Lib

variable {α β K : Type} [LinearOrder K]

/-- The value at the last entry that has one. -/
def newest (f : α → Option β) (l : List α) : Option β := l.reverse.findSome? f

theorem newest_append (f : α → Option β) (l l' : List α) :
    newest f (l ++ l') = (newest f l').or (newest f l) := by
  rw [newest, List.reverse_append, List.findSome?_append]
  rfl

theorem newest_append_singleton (f : α → Option β) (l : List α) (a : α) :
    newest f (l ++ [a]) = (f a).or (newest f l) := by
  rw [newest_append]
  congr 1
  simp [newest]

theorem newest_eq_none_iff {f : α → Option β} {l : List α} :
    newest f l = none ↔ ∀ a ∈ l, f a = none := by
  rw [newest, List.findSome?_eq_none_iff]
  simp only [List.mem_reverse]

theorem newest_congr {f g : α → Option β} {l : List α} (h : ∀ a ∈ l, f a = g a) :
    newest f l = newest g l := by
  induction l using List.reverseRecOn with
  | nil => rfl
  | append_singleton l a ih =>
    rw [newest_append_singleton, newest_append_singleton,
      h a (List.mem_append_right _ (List.mem_singleton.mpr rfl)),
      ih fun b hb => h b (List.mem_append_left _ hb)]

/-- Entries without a value do not matter. -/
theorem newest_filter {f : α → Option β} {p : α → Bool} {l : List α}
    (h : ∀ a ∈ l, p a = false → f a = none) : newest f (l.filter p) = newest f l := by
  induction l using List.reverseRecOn with
  | nil => rfl
  | append_singleton l a ih =>
    have ih := ih fun b hb => h b (List.mem_append_left _ hb)
    have ha := h a (List.mem_append_right _ (List.mem_singleton.mpr rfl))
    rw [List.filter_append, newest_append, newest_append_singleton, ih]
    cases hp : p a with
    | true => simp [hp, newest]
    | false => simp [hp, ha hp, newest]

/-- Leaving entries out is the same as taking their values away. -/
theorem newest_filter_eq (f : α → Option β) (p : α → Bool) (l : List α) :
    newest f (l.filter p) = newest (fun a => if p a then f a else none) l := by
  have hp : ∀ a ∈ l, p a = false → (if p a then f a else none) = none := fun a _ hp => by rw [hp]; rfl
  rw [← newest_filter hp]
  exact newest_congr fun a ha => (if_pos (List.mem_filter.mp ha).2).symm

/-- Ascending keys. -/
def Ascending (key : α → K) (l : List α) : Prop := l.Pairwise fun a b => key a < key b

/-- Entries of a log with the same key are the same. -/
theorem Ascending.eq_of_key_eq {key : α → K} {l : List α} (h : Ascending key l) {a b : α}
    (ha : a ∈ l) (hb : b ∈ l) (he : key a = key b) : a = b := by
  induction l with
  | nil => exact absurd ha List.not_mem_nil
  | cons x l ih =>
    obtain ⟨hlt, hl⟩ := List.pairwise_cons.mp h
    rcases List.mem_cons.mp ha with hax | hal <;> rcases List.mem_cons.mp hb with hbx | hbl
    · rw [hax, hbx]
    · exact absurd he (ne_of_lt (hax ▸ hlt b hbl))
    · exact absurd he.symm (ne_of_lt (hbx ▸ hlt a hal))
    · exact ih hl hal hbl

/-- What holds along a log holds of any two entries in the order of their keys. -/
theorem Ascending.rel_of_lt {key : α → K} {R : α → α → Prop} {l : List α} (h : Ascending key l)
    (hR : l.Pairwise R) {a b : α} (ha : a ∈ l) (hb : b ∈ l) (hlt : key a < key b) : R a b := by
  induction l with
  | nil => exact absurd ha List.not_mem_nil
  | cons x l ih =>
    obtain ⟨hx, hl⟩ := List.pairwise_cons.mp h
    obtain ⟨hRx, hRl⟩ := List.pairwise_cons.mp hR
    rcases List.mem_cons.mp ha with rfl | hal
    · rcases List.mem_cons.mp hb with rfl | hbl
      · exact absurd hlt (lt_irrefl _)
      · exact hRx b hbl
    · rcases List.mem_cons.mp hb with rfl | hbl
      · exact absurd hlt (not_lt.mpr (hx a hal).le)
      · exact ih hl hRl hal hbl

/-- The last entry of a log has the largest key. -/
theorem Ascending.le_getLast {key : α → K} {l : List α} (h : Ascending key l) {a : α} (ha : a ∈ l)
    (hne : l ≠ []) : key a ≤ key (l.getLast hne) := by
  have hl := List.dropLast_append_getLast hne
  rw [← hl] at ha h
  rcases List.mem_append.mp ha with ha | ha
  · exact ((List.pairwise_append.mp h).2.2 a ha _ (List.mem_singleton.mpr rfl)).le
  · rw [List.mem_singleton.mp ha]

theorem Ascending.forall_eq_false {key : α → K} {a : α} {l : List α} (h : Ascending key (a :: l))
    {p : α → Bool} (hp : ∀ a b, key a ≤ key b → p b = true → p a = true) (ha : p a = false) :
    ∀ b ∈ a :: l, p b = false := by
  intro b hb
  rcases List.mem_cons.mp hb with rfl | hb
  · exact ha
  · by_contra hpb
    rw [hp a b ((List.pairwise_cons.mp h).1 b hb).le (by simpa using hpb)] at ha
    exact absurd ha (by simp)

/-- A lower part of a log is a first part of it. -/
theorem Ascending.takeWhile_eq_filter {key : α → K} {l : List α} (h : Ascending key l)
    {p : α → Bool} (hp : ∀ a b, key a ≤ key b → p b = true → p a = true) :
    l.takeWhile p = l.filter p := by
  induction l with
  | nil => rfl
  | cons a l ih =>
    cases ha : p a with
    | true =>
      rw [List.takeWhile_cons_of_pos ha, List.filter_cons_of_pos ha,
        ih (List.pairwise_cons.mp h).2]
    | false =>
      rw [List.takeWhile_cons_of_neg (by simp [ha]), eq_comm]
      exact List.filter_eq_nil_iff.mpr fun b hb => by simp [h.forall_eq_false hp ha b hb]

theorem Ascending.filter_append_filter_not {key : α → K} {l : List α} (h : Ascending key l)
    {p : α → Bool} (hp : ∀ a b, key a ≤ key b → p b = true → p a = true) :
    l.filter p ++ l.filter (fun a => !p a) = l := by
  induction l with
  | nil => rfl
  | cons a l ih =>
    cases ha : p a with
    | true =>
      rw [List.filter_cons_of_pos ha, List.filter_cons_of_neg (by simp [ha]), List.cons_append,
        ih (List.pairwise_cons.mp h).2]
    | false =>
      have hall := h.forall_eq_false hp ha
      rw [List.filter_eq_nil_iff.mpr fun b hb => by simp [hall b hb], List.nil_append]
      exact List.filter_eq_self.mpr fun b hb => by simp [hall b hb]

/-- **The newest value, by keys.** -/
theorem newest_eq_some_iff {key : α → K} {f : α → Option β} {l : List α} (h : Ascending key l)
    {b : β} : newest f l = some b ↔
      ∃ a ∈ l, f a = some b ∧ ∀ a' ∈ l, (f a').isSome = true → key a' ≤ key a := by
  induction l using List.reverseRecOn with
  | nil => simp [newest]
  | append_singleton l x ih =>
    obtain ⟨hl, -, hlt⟩ := List.pairwise_append.mp h
    have hx : ∀ a ∈ l, key a < key x := fun a ha => hlt a ha x (List.mem_singleton.mpr rfl)
    rw [newest_append_singleton]
    cases hf : f x with
    | some c =>
      rw [Option.some_or]
      constructor
      · intro hc
        refine ⟨x, List.mem_append_right _ (List.mem_singleton.mpr rfl), hf.trans hc, ?_⟩
        intro a' ha' _
        rcases List.mem_append.mp ha' with ha' | ha'
        · exact (hx a' ha').le
        · rw [List.mem_singleton.mp ha']
      · rintro ⟨a, ha, hfa, hmax⟩
        have hle := hmax x (List.mem_append_right _ (List.mem_singleton.mpr rfl)) (by rw [hf]; rfl)
        rcases List.mem_append.mp ha with ha | ha
        · exact absurd hle (not_le.mpr (hx a ha))
        · rw [← hf, ← List.mem_singleton.mp ha, hfa]
    | none =>
      rw [Option.none_or, ih hl]
      constructor
      · rintro ⟨a, ha, hfa, hmax⟩
        refine ⟨a, List.mem_append_left _ ha, hfa, fun a' ha' hs => ?_⟩
        rcases List.mem_append.mp ha' with ha' | ha'
        · exact hmax a' ha' hs
        · rw [List.mem_singleton.mp ha', hf] at hs
          exact absurd hs (by simp)
      · rintro ⟨a, ha, hfa, hmax⟩
        rcases List.mem_append.mp ha with ha | ha
        · exact ⟨a, ha, hfa, fun a' ha' => hmax a' (List.mem_append_left _ ha')⟩
        · rw [List.mem_singleton.mp ha, hf] at hfa
          exact absurd hfa (by simp)

/-- What a search from the end finds lies above the other entries with the property. -/
theorem le_of_find?_reverse {key : α → K} {p : α → Bool} {l : List α} (h : Ascending key l) {x a : α}
    (hx : l.reverse.find? p = some x) (ha : a ∈ l) (hp : p a = true) : key a ≤ key x := by
  obtain ⟨-, pre, post, hl, hpre⟩ := List.find?_eq_some_iff_append.mp hx
  have hdesc : (pre ++ x :: post).Pairwise fun b c => key c < key b := by
    rw [← hl]
    exact List.pairwise_reverse.mpr h
  have hmem : a ∈ pre ++ x :: post := hl ▸ List.mem_reverse.mpr ha
  rcases List.mem_append.mp hmem with ha | ha
  · exact absurd hp (by simpa using hpre a ha)
  · rcases List.mem_cons.mp ha with rfl | ha
    · exact le_rfl
    · exact ((List.pairwise_cons.mp (List.pairwise_append.mp hdesc).2.1).1 a ha).le

/-- **Where the newest value is, when a part of the log has none.** -/
theorem newest_of_lower {key : α → K} {f : α → Option β} {l l' : List α} (hl : Ascending key l)
    (hl' : Ascending key l') (hsub : ∀ a ∈ l', (f a).isSome = true → a ∈ l)
    (hcov : ∀ a ∈ l, (f a).isSome = true → a ∈ l') : newest f l' = newest f l := by
  apply Option.ext
  intro b
  rw [newest_eq_some_iff hl, newest_eq_some_iff hl']
  constructor
  · rintro ⟨a, ha, hfa, hmax⟩
    exact ⟨a, hsub a ha (by rw [hfa]; rfl), hfa, fun a' ha' hs => hmax a' (hcov a' ha' hs) hs⟩
  · rintro ⟨a, ha, hfa, hmax⟩
    exact ⟨a, hcov a ha (by rw [hfa]; rfl), hfa, fun a' ha' hs => hmax a' (hsub a' ha' hs) hs⟩

end Lib

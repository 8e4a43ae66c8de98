import Mathlib.Data.List.Infix
import Mathlib.Tactic

/-!
# Finding a part of a text

`find pat s` is the position at which `pat` begins for the first time in `s`.

* `find_eq_none_iff`, `prefix_drop_of_find`: what the position says;
* `find_append_of_notMem`, `find_append_cons`: a part that cannot begin in, or reach over, what stands
  before;
* `find_line`: a part that ends with a character it does not have before, looked for in a text that has
  this character next.
-/

namespace Lib

variable {α : Type*} [DecidableEq α]

/-- The position of the first occurrence of `pat`. -/
def find (pat : List α) : List α → Option ℕ
  | [] => if pat = [] then some 0 else none
  | c :: cs => if pat.isPrefixOf (c :: cs) then some 0 else (find pat cs).map (· + 1)

variable {pat s t : List α} {c : α} {k : ℕ}

theorem find_cons_pos (h : pat <+: c :: s) : find pat (c :: s) = some 0 := by
  rw [find, if_pos (List.isPrefixOf_iff_prefix.mpr h)]

theorem find_cons_neg (h : ¬ pat <+: c :: s) : find pat (c :: s) = (find pat s).map (· + 1) := by
  rw [find, if_neg (fun hp => h (List.isPrefixOf_iff_prefix.mp hp))]

/-- A part is found exactly if the text has it. -/
theorem find_eq_none_iff : find pat s = none ↔ ¬ pat <:+: s := by
  induction s with
  | nil =>
    rw [find, List.infix_nil]
    split_ifs with h
    · simp [h]
    · simp [h]
  | cons c s ih =>
    by_cases h : pat <+: c :: s
    · rw [find_cons_pos h]
      simp [h.isInfix]
    · rw [find_cons_neg h, Option.map_eq_none_iff, ih, List.infix_cons_iff]
      simp [h]

/-- The part stands where it is found. -/
theorem prefix_drop_of_find (h : find pat s = some k) : pat <+: s.drop k := by
  induction s generalizing k with
  | nil =>
    rw [find] at h
    split_ifs at h with hp
    rw [hp]
    exact List.nil_prefix
  | cons c s ih =>
    by_cases hp : pat <+: c :: s
    · rw [find_cons_pos hp] at h
      obtain rfl := Option.some.inj h
      exact hp
    · rw [find_cons_neg hp] at h
      obtain ⟨j, hj, rfl⟩ := Option.map_eq_some_iff.mp h
      exact ih hj

theorem find_self_append : find pat (pat ++ s) = some 0 := by
  cases hps : pat ++ s with
  | nil =>
    obtain ⟨rfl, rfl⟩ := List.append_eq_nil_iff.mp hps
    rfl
  | cons c cs => exact find_cons_pos (hps ▸ List.prefix_append pat s)

/-- A part does not begin among characters other than its first. -/
theorem find_append_of_notMem (h : c ∉ t) :
    find (c :: pat) (t ++ s) = (find (c :: pat) s).map (· + t.length) := by
  induction t with
  | nil => simp
  | cons a t ih =>
    have hne : ¬ c :: pat <+: a :: (t ++ s) := fun hp =>
      h (List.mem_cons.mpr (.inl (List.cons_prefix_cons.mp hp).1))
    rw [List.cons_append, find_cons_neg hne, ih fun hm => h (List.mem_cons_of_mem _ hm),
      Option.map_map]
    congr 1

omit [DecidableEq α] in
theorem prefix_append_cons_iff (h : c ∉ pat) : pat <+: t ++ c :: s ↔ pat <+: t := by
  constructor
  · intro hp
    induction pat generalizing t with
    | nil => exact List.nil_prefix
    | cons a pat ih =>
      cases t with
      | nil => exact absurd (List.mem_cons.mpr (.inl (List.cons_prefix_cons.mp hp).1.symm)) h
      | cons b t =>
        obtain ⟨rfl, htail⟩ := List.cons_prefix_cons.mp hp
        exact List.cons_prefix_cons.mpr ⟨rfl, ih (fun hm => h (List.mem_cons_of_mem _ hm)) htail⟩
  · exact fun hp => hp.trans (List.prefix_append _ _)

/-- A part does not reach over a character that it does not have. -/
theorem find_append_cons (hne : pat ≠ []) (h : c ∉ pat) : find pat (t ++ c :: s) =
    (find pat t).or ((find pat s).map (· + (t.length + 1))) := by
  induction t with
  | nil =>
    have hc : ¬ pat <+: c :: s := fun hp =>
      hne (List.prefix_nil.mp ((prefix_append_cons_iff (t := []) h).mp hp))
    rw [List.nil_append, find_cons_neg hc, find, if_neg hne]
    rfl
  | cons a t ih =>
    by_cases hp : pat <+: a :: t
    · rw [find_cons_pos hp, List.cons_append, find_cons_pos]
      · rfl
      · exact hp.trans (List.prefix_append (a :: t) _)
    · have hp' : ¬ pat <+: a :: (t ++ c :: s) := fun h' =>
        hp ((prefix_append_cons_iff (t := a :: t) h).mp h')
      rw [find_cons_neg hp, List.cons_append, find_cons_neg hp', ih]
      cases find pat t with
      | some j => rfl
      | none =>
        cases find pat s with
        | none => rfl
        | some j => simp; omega

/-! ## Lines -/

section Line

variable {line : List α}

omit [DecidableEq α] in
/-- A line ends at the first end of a line. -/
theorem line_prefix_iff (h : c ∉ line) :
    line ++ [c] <+: t ++ c :: s ↔ line ++ [c] <+: t ∨ t = line := by
  induction line generalizing t with
  | nil =>
    cases t with
    | nil => simp
    | cons a t => simp
  | cons b line ih =>
    cases t with
    | nil =>
      have hbc : b ≠ c := fun e => h (e ▸ List.mem_cons_self)
      simp [hbc]
    | cons a t =>
      rw [List.cons_append, List.cons_append, List.cons_prefix_cons, List.cons_prefix_cons,
        ih fun hm => h (List.mem_cons_of_mem _ hm), List.cons.injEq]
      tauto

/-- A line that the text before does not have, and does not end with. -/
theorem find_line_of_not_suffix (h : c ∉ line) (hline : ¬ line ++ [c] <:+: t)
    (hsuffix : ¬ line <:+ t) : find (line ++ [c]) (t ++ c :: s) =
      (find (line ++ [c]) s).map (· + (t.length + 1)) := by
  induction t with
  | nil =>
    have hne : ¬ line ++ [c] <+: c :: s := by
      intro hp
      rcases (line_prefix_iff (t := []) h).mp hp with hp | hnil
      · simp at hp
      · exact hsuffix (hnil ▸ List.suffix_rfl)
    rw [List.nil_append, find_cons_neg hne]
    rfl
  | cons a t ih =>
    have hne : ¬ line ++ [c] <+: a :: (t ++ c :: s) := by
      intro hp
      rcases (line_prefix_iff (t := a :: t) h).mp hp with hp | hline
      · exact hline hp.isInfix
      · exact hsuffix (hline ▸ List.suffix_rfl)
    rw [List.cons_append, find_cons_neg hne, ih (fun hi => hline (List.infix_cons hi))
      (fun hs => hsuffix (hs.trans (List.suffix_cons a t))), Option.map_map]
    congr 1

/-- A line that the text before ends with. -/
theorem find_line_of_suffix (h : c ∉ line) (hline : ¬ line ++ [c] <:+: t ++ line) :
    find (line ++ [c]) (t ++ line ++ c :: s) = some t.length := by
  induction t with
  | nil =>
    rw [List.nil_append, List.append_cons line c s]
    change find (line ++ [c]) (line ++ [c] ++ s) = some 0
    exact find_self_append
  | cons a t ih =>
    have hne : ¬ line ++ [c] <+: a :: (t ++ line ++ c :: s) := by
      intro hp
      rcases (line_prefix_iff (t := a :: (t ++ line)) h).mp hp with hp | hline
      · exact hline hp.isInfix
      · have hlen := congrArg List.length hline
        rw [List.length_cons, List.length_append] at hlen
        omega
    rw [List.cons_append, List.cons_append, find_cons_neg hne,
      ih fun hi => hline (List.infix_cons hi)]
    rfl

end Line

end Lib

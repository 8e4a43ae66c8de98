import Tiko.Lib.Reach

/-!
# Noninterference by unwinding

One of the parties of a transition system owns some of the labels. A relation `R` of states unwinds the
system for it when the steps of others keep a state related to one that stands still, and its own steps
keep related states related.

**`Unwinding.run`**: a run then leads to a state that is related to that of the party's own steps alone.
-/

namespace Lib

variable {S L : Type}

/-- The conditions on `R`, over the states of an invariant `I` and steps that meet `ok`. -/
structure Unwinding (step : S → L → Option S) (ok : S → L → Prop) (own : L → Prop) (I : S → Prop)
    (R : S → S → Prop) : Prop where
  invariant : ∀ s l s', I s → ok s l → step s l = some s' → I s'
  respects : ∀ s l s' t, I s → ok s l → step s l = some s' → ¬ own l → R s t → R s' t
  consistent : ∀ s l s' t, I s → ok s l → step s l = some s' → own l → R s t →
    ∃ t', step t l = some t' ∧ R s' t'

/-- A condition on the labels alone holds throughout a run if it holds of them. -/
theorem Throughout.and {step : S → L → Option S} {ok : S → L → Prop} {p : L → Prop} {s : S}
    {ls : List L} (h : Throughout step ok s ls) (hp : ∀ l ∈ ls, p l) :
    Throughout step (fun s l => ok s l ∧ p l) s ls := by
  induction ls generalizing s with
  | nil => trivial
  | cons l ls ih =>
    exact ⟨⟨h.1, hp l List.mem_cons_self⟩,
      fun s' hs => ih (h.2 s' hs) fun x hx => hp x (List.mem_cons_of_mem l hx)⟩

/-- **A run and the part of it that a party owns** lead to related states. -/
theorem Unwinding.run {step : S → L → Option S} {ok : S → L → Prop} {own : L → Prop} {I : S → Prop}
    {R : S → S → Prop} [DecidablePred own] (h : Unwinding step ok own I R) {s s' t : S} {ls : List L}
    (hi : I s) (hr : R s t) (hok : Throughout step ok s ls) (hrun : Lib.run step s ls = some s') :
    ∃ t', Lib.run step t (ls.filter own) = some t' ∧ R s' t' := by
  induction ls generalizing s t with
  | nil =>
    obtain rfl := Option.some.inj hrun
    exact ⟨t, rfl, hr⟩
  | cons l ls ih =>
    obtain ⟨s₁, hs, hrun⟩ := Option.bind_eq_some_iff.mp hrun
    have hi₁ := h.invariant s l s₁ hi hok.1 hs
    by_cases hown : own l
    · obtain ⟨t₁, ht, hr₁⟩ := h.consistent s l s₁ t hi hok.1 hs hown hr
      obtain ⟨t', ht', hr'⟩ := ih hi₁ hr₁ (hok.2 s₁ hs) hrun
      refine ⟨t', ?_, hr'⟩
      rw [List.filter_cons_of_pos (by simpa using hown), Lib.run, ht]
      exact ht'
    · obtain ⟨t', ht', hr'⟩ := ih hi₁ (h.respects s l s₁ t hi hok.1 hs hown hr) (hok.2 s₁ hs) hrun
      refine ⟨t', ?_, hr'⟩
      rw [List.filter_cons_of_neg (by simpa using hown)]
      exact ht'

end Lib

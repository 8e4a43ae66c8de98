import Mathlib.Tactic

/-!
# Runs of labelled transition systems

A transition system is a function `step : S → L → Option S`: the label says which party moves, and
`none` that it cannot. `Reaches step ok s₀ s` says that some run from `s₀` leads to `s`, where every
step meets the condition `ok` in the state before it.

* **`Reaches.invariant`**: what every step keeps holds in all states that are reached;
* `run`: the state after a list of labels, with `reaches_of_run`;
* `stepAt`: many copies of a system, with `Reaches.component`;
* `stepNoting`: a system with a record of what has happened.
-/

namespace Lib

variable {S L : Type}

/-- Some run from `s₀` leads to a state, with every step under the condition `ok`. -/
inductive Reaches (step : S → L → Option S) (ok : S → L → Prop) (s₀ : S) : S → Prop where
  | refl : Reaches step ok s₀ s₀
  | tail {s s' : S} {l : L} :
      Reaches step ok s₀ s → ok s l → step s l = some s' → Reaches step ok s₀ s'

namespace Reaches

variable {step : S → L → Option S} {ok ok' : S → L → Prop} {s₀ s : S}

/-- **The rule of invariants.** -/
theorem invariant {I : S → Prop} (h : Reaches step ok s₀ s) (h0 : I s₀)
    (hstep : ∀ s l s', I s → ok s l → step s l = some s' → I s') : I s := by
  induction h with
  | refl => exact h0
  | tail _ hok hs ih => exact hstep _ _ _ ih hok hs

theorem trans {s' : S} (h : Reaches step ok s₀ s) (h' : Reaches step ok s s') :
    Reaches step ok s₀ s' := by
  induction h' with
  | refl => exact h
  | tail _ hok hs ih => exact ih.tail hok hs

theorem mono (h : Reaches step ok s₀ s) (hok : ∀ s l, ok s l → ok' s l) : Reaches step ok' s₀ s := by
  induction h with
  | refl => exact .refl
  | tail _ hl hs ih => exact ih.tail (hok _ _ hl) hs

end Reaches

/-- The state after a list of labels, if all of them can be taken. -/
def run (step : S → L → Option S) : S → List L → Option S
  | s, [] => some s
  | s, l :: ls => (step s l).bind fun s' => run step s' ls

theorem run_append (step : S → L → Option S) (s : S) (ls ls' : List L) :
    run step s (ls ++ ls') = (run step s ls).bind fun s' => run step s' ls' := by
  induction ls generalizing s with
  | nil => rfl
  | cons l ls ih =>
    rw [List.cons_append, run, run]
    cases step s l with
    | none => rfl
    | some s' => exact ih s'

theorem run_append_singleton (step : S → L → Option S) (s : S) (ls : List L) (l : L) :
    run step s (ls ++ [l]) = (run step s ls).bind fun s' => step s' l := by
  rw [run_append]
  congr 1
  funext s'
  rw [run]
  cases step s' l <;> rfl

/-- All steps of a list of labels meet a condition. -/
def Throughout (step : S → L → Option S) (ok : S → L → Prop) : S → List L → Prop
  | _, [] => True
  | s, l :: ls => ok s l ∧ ∀ s' ∈ step s l, Throughout step ok s' ls

instance Throughout.decidable {step : S → L → Option S} {ok : S → L → Prop}
    [∀ s l, Decidable (ok s l)] : ∀ s ls, Decidable (Throughout step ok s ls)
  | _, [] => inferInstanceAs (Decidable True)
  | s, l :: ls =>
    have : ∀ s', Decidable (Throughout step ok s' ls) := fun s' => Throughout.decidable s' ls
    inferInstanceAs (Decidable (ok s l ∧ ∀ s' ∈ step s l, Throughout step ok s' ls))

theorem Throughout.left {step : S → L → Option S} {ok : S → L → Prop} {s : S} {ls ls' : List L}
    (h : Throughout step ok s (ls ++ ls')) : Throughout step ok s ls := by
  induction ls generalizing s with
  | nil => trivial
  | cons l ls ih => exact ⟨h.1, fun s' hs' => ih (h.2 s' hs')⟩

theorem reaches_of_run {step : S → L → Option S} {ok : S → L → Prop} {s s' : S} {ls : List L}
    (h : run step s ls = some s') (hok : Throughout step ok s ls) : Reaches step ok s s' := by
  suffices hgen : ∀ s₁, Reaches step ok s s₁ → run step s₁ ls = some s' → Throughout step ok s₁ ls →
      Reaches step ok s s' from hgen s .refl h hok
  clear h hok
  induction ls with
  | nil =>
    intro s₁ hr h _
    rw [← Option.some.inj h]
    exact hr
  | cons l ls ih =>
    intro s₁ hr h hok
    obtain ⟨s₂, hs, h⟩ := Option.bind_eq_some_iff.mp h
    exact ih s₂ (hr.tail hok.1 hs) h (hok.2 s₂ hs)

/-- Labels that meet the condition in every state. -/
theorem Throughout.of_forall {step : S → L → Option S} {ok : S → L → Prop} {ls : List L}
    (h : ∀ l ∈ ls, ∀ s, ok s l) (s : S) : Throughout step ok s ls := by
  induction ls generalizing s with
  | nil => trivial
  | cons l ls ih =>
    exact ⟨h l List.mem_cons_self s, fun s' _ => ih (fun l hl => h l (List.mem_cons_of_mem _ hl)) s'⟩

theorem throughout_true {step : S → L → Option S} (s : S) (ls : List L) :
    Throughout step (fun _ _ => True) s ls :=
  .of_forall (fun _ _ _ => trivial) s

/-! ## Histories -/

section Histories

variable {H : Type} {step : S → L → Option S}

/-- One step, with a record of what has happened. -/
def stepNoting (step : S → L → Option S) (note : S → L → S → H → H) (x : S × H) (l : L) :
    Option (S × H) :=
  (step x.1 l).map fun s' => (s', note x.1 l s' x.2)

/-- Every run has its record. -/
theorem run_noting {s s' : S} {ls : List L} (h : run step s ls = some s') (note : S → L → S → H → H)
    (r : H) : ∃ r', run (stepNoting step note) (s, r) ls = some (s', r') := by
  induction ls generalizing s r with
  | nil => exact ⟨r, congrArg (fun s => some (s, r)) (Option.some.inj h)⟩
  | cons l ls ih =>
    obtain ⟨s₁, hs, h⟩ := Option.bind_eq_some_iff.mp h
    obtain ⟨r', hr⟩ := ih h (note s l s₁ r)
    refine ⟨r', ?_⟩
    rw [run, stepNoting, hs]
    exact hr

end Histories

/-! ## Many copies of a system -/

section Copies

variable {K : Type} [DecidableEq K]

/-- One step of one of the copies. -/
def stepAt (step : S → L → Option S) (f : K → S) (l : K × L) : Option (K → S) :=
  (step (f l.1) l.2).map (Function.update f l.1)

variable {step : S → L → Option S} {ok : S → L → Prop} {s₀ s : S}

/-- A run of the copies is a run of each. -/
theorem Reaches.component {f : K → S}
    (h : Reaches (stepAt step) (fun f l => ok (f l.1) l.2) (fun _ => s₀) f) (k : K) :
    Reaches step ok s₀ (f k) := by
  refine h.invariant (I := fun f => ∀ k, Reaches step ok s₀ (f k)) (fun _ => .refl) ?_ k
  intro f l f' hf hok hs k
  obtain ⟨s', hl, rfl⟩ := Option.map_eq_some_iff.mp hs
  by_cases hk : k = l.1
  · rw [hk, Function.update_self]
    exact (hf l.1).tail hok hl
  · rw [Function.update_of_ne hk]
    exact hf k

/-- A run is a run of a single copy. -/
theorem Reaches.single (h : Reaches step ok s₀ s) :
    Reaches (stepAt step) (fun f l => ok (f l.1) l.2) (fun _ : Unit => s₀) fun _ => s := by
  induction h with
  | refl => exact .refl
  | @tail s s' l _ hok hs ih =>
    refine ih.tail (l := ((), l)) hok ?_
    rw [stepAt, hs, Option.map_some]
    congr 1

end Copies

end Lib

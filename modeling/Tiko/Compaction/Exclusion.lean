import Tiko.Lib.Reach

/-!
# Pausing the compactor

The checkpointer forms a base manifest for a base backup by itself. It sets a pause flag, waits until
no background compaction is counted as in progress, and compacts. A tick of the compactor looks at the
flag first and counts itself in afterwards, in two steps.

* `Coordination`: the flag, the counter and the program counters of the compactor tasks and of the
  checkpointer;
* `Coordination.step`: one atomic access or one end of a compaction;
* `Settled`: the drain does not end between the two steps of a tick;
* **`not_overlap_of_settled`**: then the two compactions exclude each other;
* `drain_misses_checked_tick`: a run in which they do not.
-/

namespace Tiko

open Lib

/-- Where a tick of `compactor_task` is. -/
inductive CompactorPc where
  /-- before the tick, or after it -/
  | idle
  /-- `is_compaction_paused` was `false` -/
  | checked
  /-- `begin_compaction` was called -/
  | begun
  /-- in `run_compaction` -/
  | running
  /-- `run_compaction` has returned -/
  | ran
  deriving DecidableEq

/-- Whether a tick is counted as in progress. -/
def CompactorPc.Counted (pc : CompactorPc) : Prop := pc = .begun ∨ pc = .running ∨ pc = .ran

/-- Where `run_basebackup_compaction` is. -/
inductive CheckpointerPc where
  /-- before the checkpoint, or after it -/
  | idle
  /-- in `drain_compaction`, after `pause_compaction` -/
  | draining
  /-- `drain_compaction` has returned -/
  | drained
  /-- in `run_compaction_through` -/
  | running
  /-- `run_compaction_through` has returned -/
  | ran
  deriving DecidableEq

/-- The shared flag and counter of `TimelineState`, any number of compactor tasks, and the
checkpointer. -/
structure Coordination where
  compactionPaused : Bool
  compactionInProgress : ℕ
  compactors : ℕ → CompactorPc
  checkpointer : CheckpointerPc

namespace Coordination

/-- No task has started. -/
def init : Coordination := ⟨false, 0, fun _ => .idle, .idle⟩

/-- Who takes the next step. A tick that starts finds the cluster in recovery or not. -/
inductive Label where
  | compactor (i : ℕ) (inRecovery : Bool)
  | checkpointer

/-- A tick at its next step. -/
def moveTo (c : Coordination) (i : ℕ) (pc : CompactorPc) : Coordination :=
  { c with compactors := Function.update c.compactors i pc }

/-- `begin_compaction`. -/
def beginCompaction (c : Coordination) : Coordination :=
  { c with compactionInProgress := c.compactionInProgress + 1 }

/-- `end_compaction`. -/
def endCompaction (c : Coordination) : Coordination :=
  { c with compactionInProgress := c.compactionInProgress - 1 }

/-- `pause_compaction`. -/
def pauseCompaction (c : Coordination) : Coordination := { c with compactionPaused := true }

/-- `resume_compaction`. -/
def resumeCompaction (c : Coordination) : Coordination := { c with compactionPaused := false }

/-- One step of a tick of `compactor_task`. -/
def stepCompactor (c : Coordination) (i : ℕ) (inRecovery : Bool) : Coordination :=
  match c.compactors i with
  | .idle => if inRecovery || c.compactionPaused then c else c.moveTo i .checked
  | .checked => c.beginCompaction.moveTo i .begun
  | .begun => c.moveTo i .running
  | .running => c.moveTo i .ran
  | .ran => c.endCompaction.moveTo i .idle

/-- One step of `run_basebackup_compaction`. -/
def stepCheckpointer (c : Coordination) : Coordination :=
  match c.checkpointer with
  | .idle => { c.pauseCompaction with checkpointer := .draining }
  | .draining => if 0 < c.compactionInProgress then c else { c with checkpointer := .drained }
  | .drained => { c with checkpointer := .running }
  | .running => { c with checkpointer := .ran }
  | .ran => { c.resumeCompaction with checkpointer := .idle }

/-- The steps. -/
def step (c : Coordination) : Label → Option Coordination
  | .compactor i inRecovery => some (c.stepCompactor i inRecovery)
  | .checkpointer => some c.stepCheckpointer

/-- Both compactions are in progress. -/
def Overlap (c : Coordination) : Prop :=
  (∃ i, c.compactors i = .running) ∧ c.checkpointer = .running

/-- A drain that finds the counter at zero finds no tick that has seen the flag clear and has not
counted itself in. -/
def Settled (c : Coordination) : Label → Prop
  | .compactor _ _ => True
  | .checkpointer => c.checkpointer = .draining → c.compactionInProgress = 0 →
      ∀ i, c.compactors i ≠ .checked

/-! ## The invariant -/

variable {c c' : Coordination} {i : ℕ}

/-- The counter counts the ticks between `begin_compaction` and `end_compaction`. -/
def CountsTicks (compactors : ℕ → CompactorPc) (n : ℕ) : Prop :=
  ∃ A : Finset ℕ, (∀ i, i ∈ A ↔ (compactors i).Counted) ∧ A.card = n

theorem CountsTicks.same {f : ℕ → CompactorPc} {n : ℕ} {pc : CompactorPc} (h : CountsTicks f n)
    (hpc : pc.Counted ↔ (f i).Counted) : CountsTicks (Function.update f i pc) n := by
  obtain ⟨A, hA, hn⟩ := h
  refine ⟨A, fun j => ?_, hn⟩
  rcases eq_or_ne j i with rfl | hj
  · rw [Function.update_self, hpc, hA]
  · rw [Function.update_of_ne hj, hA]

theorem CountsTicks.enter {f : ℕ → CompactorPc} {n : ℕ} {pc : CompactorPc} (h : CountsTicks f n)
    (hi : ¬(f i).Counted) (hpc : pc.Counted) : CountsTicks (Function.update f i pc) (n + 1) := by
  obtain ⟨A, hA, hn⟩ := h
  have hnot : i ∉ A := fun hmem => hi ((hA i).mp hmem)
  refine ⟨insert i A, fun j => ?_, by rw [Finset.card_insert_of_notMem hnot, hn]⟩
  rcases eq_or_ne j i with rfl | hj
  · rw [Function.update_self]
    simp [hpc]
  · rw [Function.update_of_ne hj, Finset.mem_insert, hA]
    simp [hj]

theorem CountsTicks.leave {f : ℕ → CompactorPc} {n : ℕ} {pc : CompactorPc} (h : CountsTicks f n)
    (hi : (f i).Counted) (hpc : ¬pc.Counted) : CountsTicks (Function.update f i pc) (n - 1) := by
  obtain ⟨A, hA, hn⟩ := h
  refine ⟨A.erase i, fun j => ?_, by rw [Finset.card_erase_of_mem ((hA i).mpr hi), hn]⟩
  rcases eq_or_ne j i with rfl | hj
  · rw [Function.update_self]
    simp [hpc]
  · rw [Function.update_of_ne hj, Finset.mem_erase, hA]
    simp [hj]

/-- The invariant: the flag is set from the pause to the resume, and no tick is under way from the
end of the drain to that of the compaction. -/
structure Inv (c : Coordination) : Prop where
  counts : CountsTicks c.compactors c.compactionInProgress
  paused : c.checkpointer ≠ .idle → c.compactionPaused = true
  alone : c.checkpointer = .drained ∨ c.checkpointer = .running → ∀ i, c.compactors i = .idle

theorem inv_init : Inv init where
  counts := ⟨∅, fun i => by simp [init, CompactorPc.Counted], rfl⟩
  paused h := absurd rfl h
  alone _ _ := rfl

/-- A tick that is under way: the checkpointer is not past its drain. -/
theorem Inv.underWay (h : Inv c) (hi : c.compactors i ≠ .idle) {n : ℕ} {pc : CompactorPc}
    (hn : CountsTicks (Function.update c.compactors i pc) n) :
    Inv { c with
      compactionInProgress := n
      compactors := Function.update c.compactors i pc } where
  counts := hn
  paused := h.paused
  alone hc := absurd (h.alone hc i) hi

theorem Inv.stepCompactor (h : Inv c) (i : ℕ) (inRecovery : Bool) :
    Inv (c.stepCompactor i inRecovery) := by
  unfold Coordination.stepCompactor
  cases hi : c.compactors i with
  | idle =>
    dsimp only
    split_ifs with hskip
    · exact h
    · -- the flag is clear, so no checkpoint is under way
      have hidle : c.checkpointer = .idle := by
        by_contra hne
        exact hskip (by simp [h.paused hne])
      refine ⟨h.counts.same (by simp [CompactorPc.Counted, hi]), h.paused, fun hc => ?_⟩
      rcases hc with hc | hc <;> exact absurd (hidle.symm.trans hc) (by simp)
  | checked =>
    exact h.underWay (by simp [hi]) (h.counts.enter (by simp [CompactorPc.Counted, hi]) (.inl rfl))
  | begun => exact h.underWay (by simp [hi]) (h.counts.same (by simp [CompactorPc.Counted, hi]))
  | running => exact h.underWay (by simp [hi]) (h.counts.same (by simp [CompactorPc.Counted, hi]))
  | ran =>
    exact h.underWay (by simp [hi])
      (h.counts.leave (by simp [CompactorPc.Counted, hi]) (by simp [CompactorPc.Counted]))

/-- A drain that ends leaves every tick idle. -/
theorem Inv.idle_of_drained (h : Inv c) (hpc : c.checkpointer = .draining)
    (hok : c.Settled .checkpointer) (h0 : c.compactionInProgress = 0) (i : ℕ) :
    c.compactors i = .idle := by
  obtain ⟨A, hA, hn⟩ := h.counts
  rw [h0, Finset.card_eq_zero] at hn
  subst hn
  have hnot : ¬(c.compactors i).Counted := fun hc => absurd ((hA i).mpr hc) (by simp)
  have hchecked := hok hpc h0 i
  unfold CompactorPc.Counted at hnot
  cases hi : c.compactors i <;> simp_all

theorem Inv.stepCheckpointer (h : Inv c) (hok : c.Settled .checkpointer) :
    Inv c.stepCheckpointer := by
  unfold Coordination.stepCheckpointer
  cases hpc : c.checkpointer with
  | idle => exact ⟨h.counts, fun _ => rfl, fun hc => absurd hc (by simp)⟩
  | draining =>
    dsimp only
    split_ifs with hpos
    · exact h
    · exact ⟨h.counts, fun _ => h.paused (by simp [hpc]),
        fun _ => h.idle_of_drained hpc hok (Nat.eq_zero_of_not_pos hpos)⟩
  | drained =>
    exact ⟨h.counts, fun _ => h.paused (by simp [hpc]), fun _ => h.alone (.inl hpc)⟩
  | running =>
    exact ⟨h.counts, fun _ => h.paused (by simp [hpc]), fun hc => absurd hc (by simp)⟩
  | ran => exact ⟨h.counts, fun hc => absurd rfl hc, fun hc => absurd hc (by simp)⟩

theorem Inv.step (h : Inv c) {l : Label} (hok : c.Settled l) (hs : c.step l = some c') :
    Inv c' := by
  cases l with
  | compactor i inRecovery =>
    rw [← Option.some.inj hs]
    exact h.stepCompactor i inRecovery
  | checkpointer =>
    rw [← Option.some.inj hs]
    exact h.stepCheckpointer hok

/-- **The compactions exclude each other in all runs in which no drain ends between the two steps of
a tick.** -/
theorem not_overlap_of_settled (h : Reaches step Settled init c) : ¬c.Overlap := by
  have hinv : Inv c := h.invariant inv_init fun _ _ _ hI hok hs => hI.step hok hs
  rintro ⟨⟨i, hi⟩, hc⟩
  rw [hinv.alone (.inr hc) i] at hi
  exact absurd hi (by simp)

/-- A checkpoint that waits for a tick, and the tick after it. -/
def waitingCheckpoint : List Label :=
  [.compactor 0 false, .compactor 0 false, .checkpointer, .checkpointer, .compactor 0 false,
    .compactor 0 false, .compactor 0 false, .checkpointer, .checkpointer, .compactor 0 false]

theorem not_overlap_waitingCheckpoint : ∃ c,
    run step init waitingCheckpoint = some c ∧ c.checkpointer = .running ∧ ¬c.Overlap := by
  have hok : Throughout step Settled init waitingCheckpoint := by
    simp [waitingCheckpoint, Throughout, step, stepCompactor, stepCheckpointer, Settled, init, moveTo,
      pauseCompaction, beginCompaction, endCompaction]
  refine ⟨_, rfl, rfl, not_overlap_of_settled (reaches_of_run rfl hok)⟩

/-- The pause falls between the two steps of a tick, and the drain sees no work in progress. -/
def missedTick : List Label :=
  [.compactor 0 false, .checkpointer, .checkpointer, .checkpointer, .compactor 0 false,
    .compactor 0 false]

/-- **The drain misses a tick that has looked at the flag and not counted itself in**: both
compactions run. -/
theorem drain_misses_checked_tick :
    ¬∀ c, Reaches step (fun _ _ => True) init c → ¬c.Overlap := by
  intro h
  have hrun : (run step init missedTick).map (fun c => (c.compactors 0, c.checkpointer)) =
      some (.running, .running) := by
    decide
  obtain ⟨c, hc, hpc⟩ := Option.map_eq_some_iff.mp hrun
  obtain ⟨hi, hck⟩ := Prod.mk.inj hpc
  exact h c (reaches_of_run hc (throughout_true _ _)) ⟨⟨0, hi⟩, hck⟩

end Coordination

end Tiko

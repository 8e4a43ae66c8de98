import Mathlib.Data.List.DropRight
import Tiko.Store.Crashes
import Tiko.Store.Deletes

/-!
# Runs with killed compactions

Runs of one database in which compactions are killed between two of their changes, or fail to delete
segments, and every killed process is followed by a start.

* `CrashStep`, `Db.crashRun`, `CrashAlong`: such runs;
* `Running.step`, `Running.crashStep`: every step keeps the invariant;
* **`reads_crashes`**: reads return what the run wrote, when the records that each start puts into the
  window follow each other;
* **`reads_killed`**: after a run without crashes, they do so wherever a compaction is killed, and reads
  return what was last committed;
* `leftover_hides_chunk`: a segment that a killed compaction leaves behind hides newer versions of its
  chunks from a later start.
-/

namespace Tiko

open Lib

variable {β : Type} {cfg : StoreConfig} {seed : Seed cfg}

/-! ## Steps -/

def Step.isRestart : Step β → Bool
  | .restart _ => true
  | _ => false

def Step.isCommit : Step β → Bool
  | .commit _ => true
  | _ => false

/-- A commit lies above a checkpoint. -/
def Step.Above (c : Checkpoint) : Step β → Prop
  | .commit a => c < a.ckpt
  | _ => True

theorem Step.LsnAscending.above {g : Flat β} {st : Step β} (h : st.LsnAscending g) :
    st.Above default := by
  cases st with
  | commit a =>
    have hlsn := UInt64.lt_iff_toNat_lt.mp h.1
    exact Checkpoint.default_lt (UInt32.le_iff_toNat_le.mp h.2.1) (by omega)
  | _ => trivial

/-- A step of a run with crashes: a plain step, a compaction that cannot delete the segments of `kept`,
or one that is killed after `n` changes, with the start that follows. -/
inductive CrashStep (β : Type) where
  | step (st : Step β)
  | compact (job : CompactionJob) (kept : List SegmentId)
  | killed (job : CompactionJob) (kept : List SegmentId) (n : ℕ) (tikmLost : Bool)

/-- What a compaction leaves that is killed after `n` changes. -/
def Db.cut (cfg : StoreConfig) (s : Db β) (job : CompactionJob) (kept : List SegmentId) (n : ℕ) : Db β :=
  ((s.attempt cfg job kept).take n).foldl (apply cfg) s

def CrashStep.plain : CrashStep β → Option (Step β)
  | .step st => some st
  | _ => none

/-- The plain steps of a run. -/
def plainSteps (steps : List (CrashStep β)) : List (Step β) := steps.filterMap CrashStep.plain

section Run

variable [Zero β]

def Db.crashStep (cfg : StoreConfig) (s : Db β) : CrashStep β → Db β
  | .step st => s.step cfg st
  | .compact job kept => (s.attempt cfg job kept).foldl (apply cfg) s
  | .killed job kept n tikmLost => (s.cut cfg job kept n).restart cfg tikmLost false

/-- A run with crashes. -/
def Db.crashRun (cfg : StoreConfig) (s : Db β) (steps : List (CrashStep β)) : Db β :=
  steps.foldl (Db.crashStep cfg) s

/-- A step that keeps the LSNs of commits ascending. A start comes without writes since the last commit,
and finds records that follow each other. -/
def CrashStep.Allowed (cfg : StoreConfig) (s : Db β) (g : Flat β) : CrashStep β → Prop
  | .step st => st.LsnAscending g ∧ (st.isRestart = true → s.Linked cfg)
  | .compact .. => True
  | .killed job kept n _ => g.dirty = false ∧ (s.cut cfg job kept n).Linked cfg

/-- All steps of a run are allowed. -/
def CrashAlong (cfg : StoreConfig) : Db β → Flat β → List (CrashStep β) → Prop
  | _, _, [] => True
  | s, g, st :: steps => st.Allowed cfg s g ∧
      CrashAlong cfg (s.crashStep cfg st) ((plainSteps [st]).foldl Flat.step g) steps

instance (s : Db β) (g : Flat β) : DecidablePred (CrashStep.Allowed cfg s g)
  | .step st => inferInstanceAs (Decidable (st.LsnAscending g ∧ (st.isRestart = true → s.Linked cfg)))
  | .compact .. => inferInstanceAs (Decidable True)
  | .killed job kept n _ =>
    inferInstanceAs (Decidable (g.dirty = false ∧ (s.cut cfg job kept n).Linked cfg))

instance decidableCrashAlong : ∀ (s : Db β) (g : Flat β) steps, Decidable (CrashAlong cfg s g steps)
  | _, _, [] => inferInstanceAs (Decidable True)
  | s, g, st :: steps =>
    have := decidableCrashAlong (s.crashStep cfg st) ((plainSteps [st]).foldl Flat.step g) steps
    inferInstanceAs (Decidable (st.Allowed cfg s g ∧
      CrashAlong cfg (s.crashStep cfg st) ((plainSteps [st]).foldl Flat.step g) steps))

/-! ## Every step keeps the invariant -/

section Steps

variable {s : Db β} {g : Flat β} {l : Ledger}

omit [Zero β] in
theorem Db.attempt_nil (s : Db β) (job : CompactionJob) :
    s.attempt cfg job [] = s.compactionEffects cfg job := by
  refine List.filter_eq_self.mpr fun e _ => ?_
  cases e <;> rfl

omit [Zero β] in
theorem Running.compaction (h : Running seed s g l) (job : CompactionJob) :
    Running seed (s.compaction cfg job) g l := by
  rw [← Db.foldl_compactionEffects, ← Db.attempt_nil]
  exact h.foldl_attempt job []

omit [Zero β] in
theorem Running.killed (h : Running seed s g l) {job : CompactionJob} {kept : List SegmentId} {n : ℕ}
    (hg : g.dirty = false) (hlink : (s.cut cfg job kept n).Linked cfg) (tikmLost : Bool) :
    Running seed ((s.cut cfg job kept n).restart cfg tikmLost false) g l := by
  have hframe := Db.foldl_apply_frame cfg s ((s.attempt cfg job kept).take n)
  exact h.restart (h.survives_attempt job kept n) hframe.1 hframe.2 hlink hg tikmLost

/-- **A plain step keeps the invariant.** -/
theorem Running.step (h : Running seed s g l) {st : Step β} (hok : st.LsnAscending g)
    (habove : st.Above seed.key) (hlink : st.isRestart = true → s.Linked cfg) :
    Running seed (s.step cfg st) (g.step st) (l.step st) := by
  have hlsn := h.lsn.step h.head hok
  cases st with
  | patchChunk tag blockOffset data => exact h.patchChunk tag blockOffset data
  | putMeta rf m => exact h.putMeta rf m
  | spill => exact h.spill
  | commit a =>
    have hlt : g.last < a.ckpt := hok.ordered
    exact h.runCommitProtocol (h.last ▸ hlt) habove hlsn
  | compact now => exact h.compaction ⟨none, now⟩
  | compactThrough target now => exact h.compaction ⟨some target, now⟩
  | restart tikmLost => exact h.restart h.survives rfl rfl (hlink rfl) hok tikmLost
  | getChunk tag =>
    obtain ⟨r, m, tikm, hr, hrun, -, -⟩ := h.getChunk tag
    rw [Db.step, hr]
    exact hrun
  | getMeta rf =>
    obtain ⟨s', hr, hrun⟩ := h.getMeta rf
    rw [Db.step, hr]
    exact hrun

/-- **A step of a run with crashes keeps the invariant.** -/
theorem Running.crashStep (h : Running seed s g l) {st : CrashStep β} (hok : st.Allowed cfg s g)
    (habove : ∀ x ∈ plainSteps [st], x.Above seed.key) :
    Running seed (s.crashStep cfg st) ((plainSteps [st]).foldl Flat.step g)
      ((plainSteps [st]).foldl Ledger.step l) := by
  cases st with
  | step st => exact h.step hok.1 (habove st List.mem_cons_self) hok.2
  | compact job kept => exact h.foldl_attempt job kept
  | killed job kept n tikmLost => exact h.killed hok.1 hok.2 tikmLost

/-- **A run with crashes keeps the invariant.** -/
theorem Running.crashRun (h : Running seed s g l) {steps : List (CrashStep β)}
    (hok : CrashAlong cfg s g steps) (habove : ∀ st ∈ plainSteps steps, st.Above seed.key) :
    Running seed (s.crashRun cfg steps) ((plainSteps steps).foldl Flat.step g)
      ((plainSteps steps).foldl Ledger.step l) := by
  induction steps generalizing s g l with
  | nil => exact h
  | cons st steps ih =>
    have hsplit : plainSteps (st :: steps) = plainSteps [st] ++ plainSteps steps :=
      List.filterMap_append (l := [st])
    rw [hsplit] at habove ⊢
    rw [List.foldl_append, List.foldl_append]
    exact ih (h.crashStep hok.1 fun x hx => habove x (List.mem_append_left _ hx)) hok.2
      fun x hx => habove x (List.mem_append_right _ hx)

end Steps

/-! ## Reads -/

omit [Zero β] in
/-- A relation fork that no step deletes stays live. -/
theorem live_foldl_step {rf : RelFork} {steps : List (Step β)}
    (h : ∀ m, .putMeta rf m ∈ steps → m.deleted = false) :
    Live (steps.foldl Ledger.step .fresh).records rf ∧
      ∀ md, (steps.foldl Ledger.step .fresh).frame.relforks.lookup rf = some md → md.deleted = false := by
  induction steps using List.reverseRecOn with
  | nil =>
    exact ⟨fun e he => absurd he List.not_mem_nil, fun md hmd => absurd hmd (by simp [Ledger.fresh])⟩
  | append_singleton steps st ih =>
    obtain ⟨hlive, hframe⟩ := ih fun m hm => h m (List.mem_append_left _ hm)
    rw [List.foldl_append, List.foldl_cons, List.foldl_nil]
    cases st with
    | putMeta rf' m =>
      refine ⟨hlive, fun md hmd => ?_⟩
      change ((steps.foldl Ledger.step .fresh).frame.relforks.insert rf' m).lookup rf = some md at hmd
      rw [SortedMap.lookup_insert] at hmd
      split_ifs at hmd with hrf
      · subst hrf
        exact Option.some.inj hmd ▸ h m (by simp)
      · exact hframe md hmd
    | commit a =>
      refine ⟨fun e he md hmd => ?_, fun md hmd => absurd hmd (by simp [Ledger.step])⟩
      rcases List.mem_append.mp he with he | he
      · exact hlive e he md hmd
      · rw [List.mem_singleton.mp he] at hmd
        exact hframe md hmd
    | _ => exact ⟨hlive, hframe⟩

theorem CrashAlong.above {s : Db β} {g : Flat β} {steps : List (CrashStep β)}
    (h : CrashAlong cfg s g steps) : ∀ st ∈ plainSteps steps, st.Above default := by
  induction steps generalizing s g with
  | nil => exact fun st hst => absurd hst List.not_mem_nil
  | cons st steps ih =>
    have hsplit : plainSteps (st :: steps) = plainSteps [st] ++ plainSteps steps :=
      List.filterMap_append (l := [st])
    intro x hx
    rw [hsplit] at hx
    rcases List.mem_append.mp hx with hx | hx
    · cases st with
      | step st => exact List.mem_singleton.mp hx ▸ h.1.1.above
      | compact job kept => exact absurd hx List.not_mem_nil
      | killed job kept n tikmLost => exact absurd hx List.not_mem_nil
    · exact ih h.2 x hx

/-- Only the last commit of the flat store matters, and whether it is dirty. -/
theorem CrashAlong.congr {s : Db β} {g g' : Flat β} {steps : List (CrashStep β)}
    (h : CrashAlong cfg s g steps) (hlast : g'.last = g.last) (hdirty : g'.dirty = g.dirty) :
    CrashAlong cfg s g' steps := by
  induction steps generalizing s g g' with
  | nil => trivial
  | cons st steps ih =>
    have hflat :
        ((plainSteps [st]).foldl Flat.step g').last = ((plainSteps [st]).foldl Flat.step g).last ∧
          ((plainSteps [st]).foldl Flat.step g').dirty = ((plainSteps [st]).foldl Flat.step g).dirty := by
      cases st with
      | step st =>
        cases st with
        | patchChunk tag blockOffset data => exact ⟨hlast, rfl⟩
        | putMeta rf m => exact ⟨hlast, rfl⟩
        | commit a => exact ⟨rfl, rfl⟩
        | _ => exact ⟨hlast, hdirty⟩
      | compact job kept => exact ⟨hlast, hdirty⟩
      | killed job kept n tikmLost => exact ⟨hlast, hdirty⟩
    refine ⟨?_, ih h.2 hflat.1 hflat.2⟩
    cases st with
    | step st =>
      refine ⟨?_, h.1.2⟩
      have hst := h.1.1
      cases st with
      | commit a =>
        change g'.last.lsn < a.ckpt.lsn ∧ 1 ≤ a.ckpt.timelineId ∧ g'.last.timelineId ≤ a.ckpt.timelineId
        rw [hlast]
        exact hst
      | restart tikmLost => exact hdirty.trans hst
      | _ => exact hst
    | compact job kept => trivial
    | killed job kept n tikmLost => exact ⟨hdirty.trans h.1.1, h.1.2⟩

theorem chunks_foldl_step_of (g : Flat β) (tag : ChunkTag) (steps : List (Step β)) :
    (steps.foldl Flat.step g).chunks tag = steps.foldl (patched tag) (g.chunks tag) := by
  induction steps generalizing g with
  | nil => rfl
  | cons st steps ih =>
    have hst : (g.step st).chunks tag = patched tag (g.chunks tag) st := by
      cases st with
      | patchChunk tag' blockOffset data =>
        change Function.update _ _ _ _ = _
        rw [Function.update_apply, patched]
        by_cases h : tag = tag'
        · rw [if_pos h, if_pos h, h]
        · rw [if_neg h, if_neg h]
      | _ => rfl
    rw [List.foldl_cons, List.foldl_cons, ih, hst]

theorem metas_foldl_step_of (g : Flat β) (rf : RelFork) (steps : List (Step β)) :
    (steps.foldl Flat.step g).metas rf = (lastMeta rf steps).or (g.metas rf) := by
  induction steps using List.reverseRecOn with
  | nil => rfl
  | append_singleton steps st ih =>
    rw [lastMeta, newest_append_singleton, ← lastMeta, Option.or_assoc, ← ih, List.foldl_append,
      List.foldl_cons, List.foldl_nil]
    cases st with
    | putMeta rf' m =>
      change Function.update _ _ _ _ = _
      rw [Function.update_apply]
      by_cases h : rf = rf' <;> simp [h]
    | _ => rfl

/-- What a database on a seed reads after a run with crashes. -/
theorem IsSeeded.reads {s : Db β} (hs : IsSeeded seed s) {steps : List (CrashStep β)}
    (hok : CrashAlong cfg s Flat.fresh steps) (habove : ∀ st ∈ plainSteps steps, st.Above seed.key) :
    (∀ rf, ((s.crashRun cfg steps).getMeta cfg rf).1 =
      found ((lastMeta rf (plainSteps steps)).or (seed.manifest.lookupRelforkMeta rf))) ∧
    ∀ tag, Readable seed ((plainSteps steps).foldl Ledger.step .fresh).records tag →
      ((s.crashRun cfg steps).getChunk cfg tag).1 =
        found ((plainSteps steps).foldl (patched tag) (seed.chunk s.storage tag)) := by
  have hok' : CrashAlong cfg s (Flat.seeded seed s.storage) steps := hok.congr rfl rfl
  have h := (Running.of_isSeeded hs).crashRun hok' habove
  refine ⟨fun rf => ?_, fun tag htag => ?_⟩
  · obtain ⟨s', hr, -⟩ := h.getMeta rf
    rw [hr, metas_foldl_step_of]
    rfl
  · obtain ⟨r, m, tikm, hr, -, -, hval⟩ := h.getChunk tag
    rw [hr, hval htag, chunks_foldl_step_of]
    rfl

/-- **Reads after crashes.** In every run from a fresh cluster with any number of killed compactions and
failed deletes, reads return the last metadata written, and the contents that the patches of the run
build, unless the run deletes the relation. -/
theorem reads_crashes {s : Db β} (hs : IsFresh cfg s) {steps : List (CrashStep β)}
    (hok : CrashAlong cfg s Flat.fresh steps) :
    (∀ rf, ((s.crashRun cfg steps).getMeta cfg rf).1 = found (lastMeta rf (plainSteps steps))) ∧
    ∀ tag : ChunkTag, (∀ m, .step (.putMeta tag.relFork m) ∈ steps → m.deleted = false) →
      ((s.crashRun cfg steps).getChunk cfg tag).1 = found (contents tag (plainSteps steps)) := by
  obtain ⟨hmetas, hchunks⟩ := (isSeeded_of_isFresh hs).reads hok hok.above
  refine ⟨fun rf => (hmetas rf).trans (congrArg found (Option.or_none)), fun tag hlive => ?_⟩
  refine hchunks tag (readable_fresh (live_foldl_step fun m hm => hlive m ?_).1)
  obtain ⟨st, hst, hp⟩ := List.mem_filterMap.mp hm
  cases st with
  | step st => exact Option.some.inj hp ▸ hst
  | compact job kept => exact absurd hp (by simp [CrashStep.plain])
  | killed job kept n tikmLost => exact absurd hp (by simp [CrashStep.plain])

/-- A compaction that is killed after its PUT, and one that is killed before its deletes. -/
def exampleCrashes : List (CrashStep ℕ) :=
  [.step (.patchChunk Manifest.exampleTag 0 [7]),
    .step (.putMeta Manifest.exampleTag.relFork ⟨1, false⟩),
    .step (.commit ⟨⟨1, 100⟩, ⟨1, 90⟩, [], 0⟩), .killed ⟨some ⟨1, 100⟩, 0⟩ [] 3 false,
    .step (.patchChunk Manifest.exampleTag 1 [8]),
    .step (.commit ⟨⟨1, 268435456⟩, ⟨1, 190⟩, [], 0⟩), .killed ⟨some ⟨1, 268435456⟩, 0⟩ [] 6 true,
    .step (.commit ⟨⟨1, 536870912⟩, ⟨1, 268435456⟩, [], 0⟩)]

theorem reads_exampleCrashes :
    ((freshDb.crashRun exampleConfig exampleCrashes).getChunk exampleConfig Manifest.exampleTag).1 =
      found (contents Manifest.exampleTag (plainSteps exampleCrashes)) :=
  (reads_crashes isFresh_freshDb (by decide +kernel)).2 Manifest.exampleTag fun m hm => by
    simp [exampleCrashes] at hm
    rw [hm]

/-- A killed compaction leaves the first segment behind, and the next one deletes those in between. -/
def exampleLeftover : List (CrashStep ℕ) :=
  [.step (.patchChunk Manifest.exampleTag 0 [7]), .step (.commit ⟨⟨1, 100⟩, ⟨1, 90⟩, [], 0⟩),
    .step (.patchChunk Manifest.exampleTag 0 [8]), .step (.commit ⟨⟨1, 268435456⟩, ⟨1, 190⟩, [], 0⟩),
    .killed ⟨some ⟨1, 268435456⟩, 0⟩ [] 6 false,
    .step (.putMeta Manifest.exampleTag.relFork ⟨1, false⟩),
    .step (.commit ⟨⟨1, 536870912⟩, ⟨1, 268435456⟩, [], 0⟩), .step (.compactThrough ⟨1, 536870912⟩ 0),
    .step (.restart false)]

/-- A start that finds the leftover segment puts it into the window, and its version of the chunk is
read instead of the newest one. -/
theorem leftover_hides_chunk :
    ¬ CrashAlong exampleConfig freshDb Flat.fresh exampleLeftover ∧
    ((freshDb.crashRun exampleConfig exampleLeftover).getChunk exampleConfig
      Manifest.exampleTag).1.toOption = some (.ofBlocks [7]) ∧
    contents Manifest.exampleTag (plainSteps exampleLeftover) = some (.ofBlocks [8]) := by
  decide +kernel

end Run

/-! ## A compaction that is killed after a run without crashes -/

section Killed

theorem Log.linked_of_suffix {H : List SegmentCheckpoint} {head : Checkpoint} (h : Log H head)
    {l : List SegmentCheckpoint} (hl : l <:+ H) (n : ℕ) : Linked (l.reverse.take n) := by
  have hchain : Linked l.reverse := List.IsChain.prefix h.linked.1 (List.reverse_prefix.mpr hl)
  exact List.IsChain.take hchain n

/-- Deleting the first segments leaves the last records. -/
theorem storedRecords_filter_suffix {m : SortedMap SegmentId TimelineSegment} {ids : List SegmentId}
    (h : ids <+: m.keys) : storedRecords (m.filter fun id _ => !ids.contains id) <:+ storedRecords m := by
  obtain ⟨rest, hrest⟩ := h
  have htake : (m.entries.take ids.length).map Prod.fst = ids := by
    rw [List.map_take]
    change m.keys.take ids.length = ids
    rw [← hrest, List.take_left]
  have hdrop : (m.entries.drop ids.length).map Prod.fst = rest := by
    rw [List.map_drop]
    change m.keys.drop ids.length = rest
    rw [← hrest, List.drop_left]
  have hnodup : ∀ id ∈ rest, id ∉ ids := fun id hr hi => by
    have hasc := m.sorted_keys
    rw [← hrest] at hasc
    exact lt_irrefl _ ((List.pairwise_append.mp hasc).2.2 id hi id hr)
  have hfirst : (m.entries.take ids.length).filter (fun p => !ids.contains p.1) = [] := by
    refine List.filter_eq_nil_iff.mpr fun p hp => ?_
    have hmem : p.1 ∈ ids := htake ▸ List.mem_map_of_mem hp
    simp [hmem]
  have hlast : (m.entries.drop ids.length).filter (fun p => !ids.contains p.1) =
      m.entries.drop ids.length := by
    refine List.filter_eq_self.mpr fun p hp => ?_
    have hmem : p.1 ∉ ids := hnodup _ (hdrop ▸ List.mem_map_of_mem hp)
    simp [hmem]
  have hfilter : (m.filter fun id _ => !ids.contains id).entries = m.entries.drop ids.length := by
    change m.entries.filter (fun p => !ids.contains p.1) = _
    conv_lhs => rw [← List.take_append_drop ids.length m.entries]
    rw [List.filter_append, hfirst, hlast, List.nil_append]
  rw [storedRecords, hfilter, storedRecords, ← List.take_append_drop ids.length m.entries,
    List.flatMap_append, List.take_append_drop]
  exact List.suffix_append _ _

variable {s : Db β} {g : Flat β} {l : Ledger}

/-- The segments that a compaction deletes are the first ones. -/
theorem Inv.dead_prefix (h : Inv cfg s g l.records l.frame) {high c : Checkpoint} (hc : c ≤ high) :
    ((s.listSegmentsInRange cfg s.timeline.baseCkpt high).takeWhile fun id => id < c.toSegmentId) <+:
      (s.storage.segments cfg.dbId).keys := by
  obtain ⟨old, new, hl⟩ := h.layers
  have hkeys : Ascending (fun id : SegmentId => id) (s.storage.segments cfg.dbId).keys :=
    SortedMap.sorted_keys _
  have hlisted : Ascending (fun id : SegmentId => id)
      (s.listSegmentsInRange cfg s.timeline.baseCkpt high) := hkeys.sublist List.filter_sublist
  have hdown : ∀ a b : SegmentId, a ≤ b → decide (b < c.toSegmentId) = true →
      decide (a < c.toSegmentId) = true := fun a b hab hb =>
    decide_eq_true (hab.trans_lt (of_decide_eq_true hb))
  have hall : (s.listSegmentsInRange cfg s.timeline.baseCkpt high).takeWhile
      (fun id => id < c.toSegmentId) =
        (s.storage.segments cfg.dbId).keys.takeWhile fun id => id < c.toSegmentId := by
    rw [hlisted.takeWhile_eq_filter hdown, hkeys.takeWhile_eq_filter hdown, Db.listSegmentsInRange,
      List.filter_filter]
    refine List.filter_congr fun id hid => ?_
    by_cases hlt : id < c.toSegmentId
    · -- a stored segment below the new base lies between the bounds
      obtain ⟨p, hp, rfl⟩ := List.mem_map.mp hid
      obtain ⟨-, hne, hseg⟩ := hl.wf p hp
      obtain ⟨x, hx⟩ := List.exists_mem_of_ne_nil _ hne
      have hge := hl.ids_ge p hp
      rw [← hseg x hx] at hlt hge ⊢
      rw [Checkpoint.overlapsRange_of_le hge (hlt.le.trans (Checkpoint.toSegmentId_mono hc)), Bool.and_true]
    · simp [hlt]
  rw [hall]
  exact List.takeWhile_prefix _

/-- **A start after a killed compaction finds records that follow each other.** -/
theorem Inv.linked_cut (h : Inv cfg s g l.records l.frame) (hr : Running seed s g l)
    (job : CompactionJob) (n : ℕ) : (s.cut cfg job [] n).Linked cfg := by
  obtain ⟨old, new, hl⟩ := h.layers
  have hsame : ∀ u : Db β, u.storage.segments cfg.dbId = s.storage.segments cfg.dbId → u.Linked cfg := by
    intro u hu
    rw [Db.Linked, hu]
    exact h.log.linked_of_suffix hl.suffix _
  rw [Db.cut]
  rcases hr.attempt job [] with hnil | ⟨p, hp, hpub⟩
  · rw [hnil, List.take_nil]
    exact hsame s rfl
  · rw [hp]
    rcases n with _ | _ | _ | _ | _ | _ | n
    · exact hsame _ rfl
    · exact hsame _ rfl
    · exact hsame _ rfl
    · exact hsame _ rfl
    · exact hsame _ rfl
    · exact hsame _ rfl
    · rw [Published.foldl_effects]
      obtain ⟨high, hhigh, hdead⟩ := hpub.dead
      have hdead' : p.dead = (s.listSegmentsInRange cfg s.timeline.baseCkpt high).takeWhile
          fun id => id < p.key.toSegmentId := hdead.trans (List.filter_eq_self.mpr fun _ _ => rfl)
      have hprefix : p.dead.take n <+: (s.storage.segments cfg.dbId).keys :=
        (List.take_prefix n p.dead).trans (hdead' ▸ h.dead_prefix hhigh)
      have hseg : ((s.storage.putBase cfg.dbId p.key p.applied).deleteSegments cfg.dbId
          (p.dead.take n)).segments cfg.dbId =
            (s.storage.segments cfg.dbId).filter fun id _ => !(p.dead.take n).contains id :=
        Function.update_self ..
      rw [Db.Linked, hseg]
      exact h.log.linked_of_suffix ((storedRecords_filter_suffix hprefix).trans hl.suffix) _

/-- A start has compacted up to the manifest that it opens. -/
theorem Durable.covers_restart (H : List SegmentCheckpoint) (s : Db β) (tikmLost : Bool) :
    Covers H (s.restart cfg tikmLost false).timeline.baseCkpt (s.openedManifest cfg tikmLost) := by
  rw [baseCkpt_restart]
  exact covers_self _ _

namespace Survives

variable {H : List SegmentCheckpoint} {head : Checkpoint} {tikmLost : Bool}

/-- Metadata after a start is the newest of the log, or that of the seed. -/
theorem getMeta_restart (h : Survives seed s.storage s.tikm H head) (hlink : s.Linked cfg)
    (hsealed : ∀ e ∈ H, ∀ tag,
      (s.storage.chunks cfg.dbId e.prevCkpt tag).isSome = e.containsChunk tag) (rf : RelFork) :
    ((s.restart cfg tikmLost false).getMeta cfg rf).1 = found ((Lib.newest (·.relforkMeta rf) H).or
      (seed.manifest.lookupRelforkMeta rf)) := by
  have hdraft : (s.restart cfg tikmLost false).draft.getRelfork cfg.codec true rf = .ok none := by
    rw [Db.restart_eq]
    exact Durable.getRelfork_init s.draft rf
  obtain ⟨s', -, hread⟩ := (h.records hlink hsealed).getMeta (Durable.baseManifest_restart s tikmLost)
    h.openedManifest.snapshot (Durable.covers_restart H s tikmLost) hdraft
  rw [hread, Option.none_or]

/-- A chunk after a start is the newest one of the log, or that of the seed. -/
theorem getChunk_restart (h : Survives seed s.storage s.tikm H head) (hlink : s.Linked cfg)
    (hsealed : ∀ e ∈ H, ∀ tag,
      (s.storage.chunks cfg.dbId e.prevCkpt tag).isSome = e.containsChunk tag) {tag : ChunkTag}
    (htag : Readable seed H tag) : ((s.restart cfg tikmLost false).getChunk cfg tag).1 =
      found ((Lib.newest (objectOf cfg s.storage tag) H).or (seed.chunk s.storage tag)) := by
  have hdraft : (s.restart cfg tikmLost false).draft.containsChunk tag = false := by
    rw [Db.restart_eq]
    exact Durable.containsChunk_init s.draft tag
  have hstorage : (s.restart cfg tikmLost false).storage = s.storage := by rw [Db.restart_eq]
  have hhead : (if (s.restart cfg tikmLost false).draft.containsChunk tag then
      (s.restart cfg tikmLost false).tryReadChunkAt cfg tag
        (s.restart cfg tikmLost false).timeline.headCkpt else none) = none := by
    rw [hdraft]
    rfl
  obtain ⟨r, s', -, hread, -, hval⟩ := (h.records hlink hsealed).getChunk
    (Durable.baseManifest_restart s tikmLost) h.openedManifest.snapshot
    (Durable.covers_restart H s tikmLost) rfl hhead
  rw [hread, hval htag, Option.none_or, hstorage]

end Survives

theorem Ledger.records_step {st : Step β} (hst : st.isCommit = false) (l : Ledger) :
    (l.step st).records = l.records := by
  cases st with
  | commit a => exact absurd hst (by simp [Step.isCommit])
  | _ => rfl

variable [Zero β] {steps : List (Step β)}

/-- A run without crashes keeps the invariant. -/
theorem Running.run (h : Running (.fresh cfg) s g l) (ht : Tracked cfg s g l)
    (hok : Along Step.LsnAscending g steps) :
    Running (.fresh cfg) (s.run cfg steps) (steps.foldl Flat.step g) (steps.foldl Ledger.step l) := by
  induction steps generalizing s g l with
  | nil => exact h
  | cons st steps ih =>
    refine ih (h.step hok.1 hok.1.above fun _ => ?_) (ht.step hok.1) hok.2
    obtain ⟨old, new, hl⟩ := ht.inv.layers
    exact ht.inv.log.linked_of_suffix hl.suffix _

omit [Zero β] in
theorem running_of_isFresh (hs : IsFresh cfg s) : Running (.fresh cfg) s Flat.fresh .fresh :=
  Running.of_isSeeded (isSeeded_of_isFresh hs)

/-- The steps up to the last commit. -/
def committedSteps (steps : List (Step β)) : List (Step β) := steps.rdropWhile fun st => !st.isCommit

/-- The log holds what the run has committed. -/
theorem newest_committedSteps (hs : IsFresh cfg s) (hok : Along Step.LsnAscending Flat.fresh steps) :
    (∀ rf, newest (·.relforkMeta rf) (steps.foldl Ledger.step .fresh).records =
      lastMeta rf (committedSteps steps)) ∧
    ∀ tag : ChunkTag, (∀ m, .putMeta tag.relFork m ∈ steps → m.deleted = false) →
      newest (objectOf cfg (s.run cfg steps).storage tag) (steps.foldl Ledger.step .fresh).records =
        contents tag (committedSteps steps) := by
  induction steps using List.reverseRecOn with
  | nil => exact ⟨fun rf => rfl, fun tag _ => rfl⟩
  | append_singleton steps st ih =>
    have hrun := (running_of_isFresh hs).run (tracked_of_isFresh hs) hok
    obtain ⟨hok₀, hst, -⟩ := along_append.mp hok
    obtain ⟨hmetas, hchunks⟩ := ih hok₀
    have ht := (tracked_of_isFresh hs).run hok₀
    have hlast : committedSteps (steps ++ [st]) =
        if !st.isCommit then committedSteps steps else steps ++ [st] := List.rdropWhile_concat ..
    rw [hlast]
    cases hc : st.isCommit with
    | true =>
      -- after a commit the log holds everything
      have hframe : ((steps ++ [st]).foldl Ledger.step .fresh).frame = .empty := by
        rw [List.foldl_append]
        cases st with
        | commit a => rfl
        | _ => exact absurd hc (by simp [Step.isCommit])
      refine ⟨fun rf => ?_, fun tag hlive => ?_⟩
      · have hm := hrun.metas rf
        rw [hframe, metas_foldl_step] at hm
        exact (hm.trans Option.or_none).symm
      · have hv := hrun.chunks tag (readable_fresh (live_foldl_step hlive).1)
        have hlive' := hrun.objects.live tag
        rw [hframe] at hlive'
        have hnone := Option.isNone_iff_eq_none.mp (Option.isSome_eq_false_iff.mp hlive')
        rw [chunks_foldl_step, hnone, Option.none_or] at hv
        exact (hv.trans Option.or_none).symm
    | false =>
      rw [List.foldl_append, List.foldl_cons, List.foldl_nil, Ledger.records_step hc]
      refine ⟨hmetas, fun tag hlive => ?_⟩
      rw [Db.run, List.foldl_append]
      exact (newest_congr (ht.objectOf_step tag)).trans
        (hchunks tag fun m hm => hlive m (List.mem_append_left _ hm))

/-- **Compactions are safe to kill.** After every run from a fresh cluster, a compaction is killed after
any number of its changes, and a start follows, with the local manifest file or without it. Reads then
return the metadata and the contents of the last commit, unless the run deletes the relation. -/
theorem reads_killed (hs : IsFresh cfg s) (hok : Along Step.LsnAscending Flat.fresh steps)
    (job : CompactionJob) (n : ℕ) (tikmLost : Bool) :
    (∀ rf, ((((s.run cfg steps).cut cfg job [] n).restart cfg tikmLost false).getMeta cfg rf).1 =
      found (lastMeta rf (committedSteps steps))) ∧
    ∀ tag : ChunkTag, (∀ m, .putMeta tag.relFork m ∈ steps → m.deleted = false) →
      ((((s.run cfg steps).cut cfg job [] n).restart cfg tikmLost false).getChunk cfg tag).1 =
        found (contents tag (committedSteps steps)) := by
  have ht := (tracked_of_isFresh hs).run hok
  have hrun := (running_of_isFresh hs).run (tracked_of_isFresh hs) hok
  obtain ⟨hmetas, hchunks⟩ := newest_committedSteps hs hok
  have hsurvives := hrun.survives_attempt job [] n
  have hlink := ht.inv.linked_cut hrun job n
  have hframe := (Db.foldl_apply_frame cfg (s.run cfg steps)
    (((s.run cfg steps).attempt cfg job []).take n)).2
  have hsealed : ∀ e ∈ (steps.foldl Ledger.step .fresh).records, ∀ tag,
      (((s.run cfg steps).cut cfg job [] n).storage.chunks cfg.dbId e.prevCkpt tag).isSome =
        e.containsChunk tag := fun e he tag => by
    rw [Db.cut, hframe]
    exact hrun.objects.sealed e he tag
  refine ⟨fun rf => ?_, fun tag hlive => ?_⟩
  · rw [← hmetas rf]
    exact (hsurvives.getMeta_restart hlink hsealed rf).trans (congrArg found Option.or_none)
  · rw [← hchunks tag hlive]
    have hobj : objectOf cfg ((s.run cfg steps).cut cfg job [] n).storage tag =
        objectOf cfg (s.run cfg steps).storage tag := by
      funext e
      rw [objectOf, Db.cut, hframe, objectOf]
    rw [← hobj]
    exact (hsurvives.getChunk_restart hlink hsealed (readable_fresh (live_foldl_step hlive).1)).trans
      (congrArg found Option.or_none)

/-- A patch that is lost with the draft. -/
def exampleKilled : List (Step ℕ) := exampleSteps ++ [.patchChunk Manifest.exampleTag 2 [9]]

theorem reads_exampleKilled :
    ((((freshDb.run exampleConfig exampleKilled).cut exampleConfig ⟨none, 0⟩ [] 4).restart exampleConfig
      true false).getChunk exampleConfig Manifest.exampleTag).1 = .ok (.ofBlocks [7, 8]) := by
  have hok : Along Step.LsnAscending Flat.fresh exampleKilled := by decide
  have hcommitted : contents Manifest.exampleTag (committedSteps exampleKilled) =
      contents Manifest.exampleTag exampleSteps := rfl
  rw [(reads_killed isFresh_freshDb hok ⟨none, 0⟩ 4 true).2 Manifest.exampleTag fun m hm => ?_,
    hcommitted, contents_exampleSteps]
  · rfl
  · simp [exampleKilled, exampleSteps] at hm
    rw [hm]

end Killed

end Tiko

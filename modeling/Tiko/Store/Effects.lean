import Tiko.Store.Sound

/-!
# The effects of a compaction

A compaction changes the storage, the local manifest file and the shared memory one after the other,
without a transaction. A process that is killed has made the first of these changes; a delete that
fails is only logged, and the segment stays.

* `Effect`, `Db.apply`: one change;
* `Db.compactionEffects`: the changes of `run_compaction` and `run_compaction_through`, in order;
* **`Db.foldl_compactionEffects`**: all of them together are the compaction;
* `Db.attempt`: those without the deletes that fail.
-/

namespace Tiko

open Lib

variable {β : Type}

/-- One change of a compaction. -/
inductive Effect where
  /-- the rename over the local manifest file -/
  | setTikm (tikm : Option Manifest)
  /-- the swap of the cached manifest -/
  | setManifest (m : Manifest)
  | putBase (ckpt : Checkpoint) (m : Manifest)
  | setBaseCkpt (ckpt : Checkpoint)
  | deleteSegment (id : SegmentId)

/-- The delete fails. -/
def Effect.fails (kept : List SegmentId) : Effect → Bool
  | .deleteSegment id => kept.contains id
  | _ => false

/-- A compaction: `run_compaction_through` with its target, or `run_compaction`. -/
structure CompactionJob where
  target : Option Checkpoint
  now : ℤ

namespace Db

variable (cfg : StoreConfig)

/-- The database after a change. -/
def apply (s : Db β) : Effect → Db β
  | .setTikm tikm => { s with tikm := tikm }
  | .setManifest m => { s with manifest := m }
  | .putBase ckpt m => { s with storage := s.storage.putBase cfg.dbId ckpt m }
  | .setBaseCkpt ckpt => { s with timeline := s.timeline.setBaseCkpt ckpt }
  | .deleteSegment id => { s with storage := s.storage.deleteSegments cfg.dbId [id] }

/-- The changes of `compactRange`: the reload of the base manifest, the PUT, the rename, the new base,
the swap and the deletes. -/
def compactRangeEffects (s : Db β) (high : Checkpoint) (select : SegmentCheckpoint → Bool)
    (newBase : List SegmentCheckpoint → Manifest → Checkpoint) (now : ℤ) : List Effect :=
  let segments := s.listSegmentsInRange cfg s.timeline.baseCkpt high
  match s.loadCheckpoints cfg segments with
  | .error _ => []
  | .ok scs =>
    let toApply := (scs.filter select).insertionSort ckptLe
    if toApply = [] then []
    else
      match s.baseManifest cfg with
      | .error _ => []
      | .ok (current, loaded) =>
        let applied := current.applySegments cfg.sort toApply cfg.dbId now
        let base := newBase toApply applied
        let dead := segments.takeWhile fun id => id < base.toSegmentId
        [.setTikm loaded.tikm, .setManifest loaded.manifest, .putBase base applied,
          .setTikm (some applied), .setBaseCkpt base, .setManifest applied] ++
          dead.map .deleteSegment

/-- The changes of a compaction. -/
def compactionEffects (s : Db β) (job : CompactionJob) : List Effect :=
  let base := s.timeline.baseCkpt
  match job.target with
  | none =>
    let upper := if s.timeline.redoCkpt.lsn = 0 then s.timeline.headCkpt else s.timeline.redoCkpt
    if upper ≤ base then []
    else
      s.compactRangeEffects cfg upper (fun sc => decide (base < sc.ckpt ∧ sc.ckpt < upper))
        (fun toApply _ => (toApply.getLast?.map (·.ckpt)).getD default) job.now
  | some target =>
    if target ≤ base then []
    else
      s.compactRangeEffects cfg target (fun sc => decide (base < sc.ckpt ∧ sc.ckpt ≤ target))
        (fun _ applied => applied.checkpoint) job.now

/-- A compaction without failures. -/
def compaction (s : Db β) (job : CompactionJob) : Db β :=
  match job.target with
  | none => (s.runCompaction cfg job.now).2
  | some target => (s.runCompactionThrough cfg target job.now).2

/-- The changes of a compaction that cannot delete the segments of `kept`. -/
def attempt (s : Db β) (job : CompactionJob) (kept : List SegmentId) : List Effect :=
  (s.compactionEffects cfg job).filter fun e => !e.fails kept

end Db

/-! ## All of them -/

theorem Storage.deleteSegments_nil (s : Storage β) (dbId : UInt64) : s.deleteSegments dbId [] = s := by
  have hmap : ((s.segments dbId).filter fun id _ => !([] : List SegmentId).contains id) =
      s.segments dbId := by
    apply SortedMap.ext
    exact List.filter_eq_self.mpr fun _ _ => rfl
  rw [Storage.deleteSegments, hmap, Function.update_eq_self]

theorem Storage.deleteSegments_cons (s : Storage β) (dbId : UInt64) (id : SegmentId)
    (ids : List SegmentId) :
    (s.deleteSegments dbId [id]).deleteSegments dbId ids = s.deleteSegments dbId (id :: ids) := by
  have hmap : (((s.segments dbId).filter fun x _ => !([id] : List SegmentId).contains x).filter
      fun x _ => !ids.contains x) = (s.segments dbId).filter fun x _ => !(id :: ids).contains x := by
    apply SortedMap.ext
    refine List.filter_filter.trans (List.filter_congr fun p _ => ?_)
    by_cases hp : p.1 = id <;> simp [hp]
  simp only [Storage.deleteSegments, Function.update_self, Function.update_idem, hmap]

namespace Db

variable {cfg : StoreConfig}

/-- Deletes one by one. -/
theorem foldl_deleteSegment (s : Db β) (ids : List SegmentId) :
    (ids.map Effect.deleteSegment).foldl (apply cfg) s =
      { s with storage := s.storage.deleteSegments cfg.dbId ids } := by
  induction ids generalizing s with
  | nil =>
    show s = _
    rw [Storage.deleteSegments_nil]
  | cons id ids ih =>
    rw [List.map_cons, List.foldl_cons, ih, ← Storage.deleteSegments_cons]
    rfl

theorem foldl_compactRangeEffects (s : Db β) (high : Checkpoint) (select : SegmentCheckpoint → Bool)
    (newBase : List SegmentCheckpoint → Manifest → Checkpoint) (now : ℤ) :
    (s.compactRangeEffects cfg high select newBase now).foldl (apply cfg) s =
      (s.compactRange cfg high select newBase now).2 := by
  rw [compactRangeEffects, compactRange]
  cases s.loadCheckpoints cfg (s.listSegmentsInRange cfg s.timeline.baseCkpt high) with
  | error e => rfl
  | ok scs =>
    dsimp only
    split_ifs
    · rfl
    · cases hb : s.baseManifest cfg with
      | error e => rfl
      | ok p =>
        obtain ⟨current, loaded⟩ := p
        dsimp only
        obtain ⟨⟨tikm, rfl, -⟩, -⟩ := baseManifest_sees hb
        rw [List.foldl_append, foldl_deleteSegment]
        rfl

/-- **All changes of a compaction together are the compaction.** -/
theorem foldl_compactionEffects (s : Db β) (job : CompactionJob) :
    (s.compactionEffects cfg job).foldl (apply cfg) s = s.compaction cfg job := by
  obtain ⟨target, now⟩ := job
  cases target with
  | none =>
    show _ = (s.runCompaction cfg now).2
    rw [compactionEffects, runCompaction]
    dsimp only
    generalize (if s.timeline.redoCkpt.lsn = 0 then s.timeline.headCkpt else s.timeline.redoCkpt) =
      upper
    split_ifs
    · rfl
    · exact s.foldl_compactRangeEffects upper _ _ now
  | some target =>
    show _ = (s.runCompactionThrough cfg target now).2
    rw [compactionEffects, runCompactionThrough]
    dsimp only
    split_ifs
    · rfl
    · exact s.foldl_compactRangeEffects target _ _ now

/-- No effect of a compaction touches the chunk objects or the draft. -/
theorem foldl_apply_frame (cfg : StoreConfig) (s : Db β) (effects : List Effect) :
    (effects.foldl (apply cfg) s).draft = s.draft ∧
      (effects.foldl (apply cfg) s).storage.chunks = s.storage.chunks := by
  induction effects generalizing s with
  | nil => exact ⟨rfl, rfl⟩
  | cons e effects ih =>
    have he : (s.apply cfg e).draft = s.draft ∧ (s.apply cfg e).storage.chunks = s.storage.chunks := by
      cases e <;> exact ⟨rfl, rfl⟩
    exact ⟨(ih _).1.trans he.1, (ih _).2.trans he.2⟩

end Db

end Tiko

import Tiko.Lib.Reach
import Tiko.Store.Layers

/-!
# The databases of an organisation

All databases of an organisation share one object storage: a branch reads the chunk objects of its
parent through the references of its base manifest. A step is one operation of one database.

* `Org`: the storage, the state of each database, and the records that have been stored so far;
* `Org.Step`, `Org.step`: patches, commits, compactions, starts, and what recoveries and branches do
  between starts;
* `Referenced`: the chunk objects that a stored record or a stored base manifest refers to;
* `Writes`: the chunk object that a step writes.
-/

namespace Tiko

open Lib

variable {β : Type}

/-- The state of one database outside the storage. -/
structure LocalState where
  timeline : TimelineState
  draft : DraftBuffer
  manifest : Manifest
  tikm : Option Manifest

/-- The databases of an organisation. `history` has the records that have been stored by each of
them, also those deleted since. -/
structure Org (β : Type) where
  storage : Storage β
  dbs : UInt64 → LocalState
  history : UInt64 → List SegmentCheckpoint

namespace Org

/-- A database with the shared storage. -/
def db (o : Org β) (id : UInt64) : Db β :=
  ⟨o.storage, (o.dbs id).timeline, (o.dbs id).draft, (o.dbs id).manifest, (o.dbs id).tikm⟩

/-- A history with the records that are stored now. -/
def remember (known stored : List SegmentCheckpoint) : List SegmentCheckpoint :=
  known ++ stored.filter fun e => e ∉ known

theorem mem_remember {known stored : List SegmentCheckpoint} {e : SegmentCheckpoint} :
    e ∈ remember known stored ↔ e ∈ known ∨ e ∈ stored := by
  simp only [remember, List.mem_append, List.mem_filter, decide_eq_true_eq]
  tauto

theorem remember_of_subset {known stored : List SegmentCheckpoint} (h : ∀ e ∈ stored, e ∈ known) :
    remember known stored = known := by
  rw [remember, List.filter_eq_nil_iff.mpr fun e he => by simp [h e he], List.append_nil]

/-- The organisation after an operation of one database. -/
def set (o : Org β) (id : UInt64) (s : Db β) : Org β where
  storage := s.storage
  dbs := Function.update o.dbs id ⟨s.timeline, s.draft, s.manifest, s.tikm⟩
  history := Function.update o.history id
    (remember (o.history id) (storedRecords (s.storage.segments id)))

/-- The operations. A recovery installs a manifest, deletes the segments and starts with
`recovery.signal` in place. -/
inductive Step (β : Type) where
  | patchChunk (out : AppendOutcome) (tag : ChunkTag) (offset : ℕ) (data : List β)
  | putMeta (out : AppendOutcome) (rf : RelFork) (m : RelForkMeta)
  | commit (out : Db.CommitOutcome) (a : Db.CommitArgs)
  | compact (now : ℤ)
  | compactThrough (target : Checkpoint) (now : ℤ)
  | start (tikmLost inRecovery : Bool)
  | materializeBaseManifestAt (ckpt : Checkpoint)
  | deleteAllSegments (kept : List SegmentId)
  | seedBranch (parentDbId : UInt64) (ckpt : Checkpoint)

section

variable [Zero β] (codec : FrameCodec) (sort : Manifest.CombinedSort)

/-- An operation of one database; `seedBranch` is the operation of the branch. -/
def stepDb (id : UInt64) (s : Db β) : Step β → Db β
  | .patchChunk out tag offset data => (s.patchChunk ⟨id, codec, sort⟩ out tag offset data).2
  | .putMeta out rf m => (s.putMeta ⟨id, codec, sort⟩ out rf m).2
  | .commit out a => (s.runCommitProtocol ⟨id, codec, sort⟩ out a).2
  | .compact now => (s.runCompaction ⟨id, codec, sort⟩ now).2
  | .compactThrough target now => (s.runCompactionThrough ⟨id, codec, sort⟩ target now).2
  | .start tikmLost inRecovery => s.restart ⟨id, codec, sort⟩ tikmLost inRecovery
  | .materializeBaseManifestAt ckpt =>
    (s.materializeBaseManifestAt ⟨id, codec, sort⟩ true ckpt).2
  | .deleteAllSegments kept => (s.deleteAllSegments ⟨id, codec, sort⟩ true kept).2
  | .seedBranch parentDbId ckpt =>
    { s with storage := (Db.seedBranchBaseManifest s.storage parentDbId id ckpt).2 }

/-- A step: an operation of the database `l.1`. -/
def step (o : Org β) (l : UInt64 × Step β) : Option (Org β) :=
  some (o.set l.1 (stepDb codec sort l.1 (o.db l.1) l.2))

/-- The chunk object that a step writes. -/
def Writes (o : Org β) (l : UInt64 × Step β) (dbId : UInt64) (ckpt : Checkpoint)
    (tag : ChunkTag) : Prop :=
  match l.2 with
  | .patchChunk out tag' offset data =>
    ((o.db l.1).patchChunk ⟨l.1, codec, sort⟩ out tag' offset data).1 = .ok () ∧
      dbId = l.1 ∧ ckpt = (o.db l.1).timeline.headCkpt ∧ tag = tag'
  | _ => False

end

/-- No storage, and databases that have not been started. -/
def fresh : Org β where
  storage := ⟨fun _ _ _ => none, fun _ => .empty, fun _ => .empty, fun _ => none⟩
  dbs _ := ⟨TimelineState.zeroed, ⟨.init, .empty, false, 0, none⟩, .empty, none⟩
  history _ := []

end Org

/-- A chunk object is referred to by a stored record through its `prev_ckpt`, or by an entry of a
stored base manifest. -/
def Referenced (s : Storage β) (dbId : UInt64) (ckpt : Checkpoint) (tag : ChunkTag) : Prop :=
  (∃ e ∈ storedRecords (s.segments dbId), e.prevCkpt = ckpt ∧ e.containsChunk tag = true) ∨
    ∃ id key m r, (s.bases id).lookup key = some m ∧ m.lookup tag = some r ∧ r.dbId = dbId ∧
      r.ckpt = ckpt

end Tiko

import Tiko.Draft.Contents
import Tiko.Model.Manifest

/-!
# The store

One database on the shared object storage: what it reads and writes, with the layers of a read as
the code walks them.

* `Storage`: chunk objects by database, write prefix and tag; segments, base manifests and the
  database record by database;
* `Db`: the storage, the shared memory (`timeline`, `draft`), the cached base manifest and the local
  manifest file;
* `getChunk`, `getMeta`: draft, active window, segments, base manifest;
* `patchChunk`, `putMeta`: writes into the current interval;
* `runCommitProtocol`, `runCompaction`, `runCompactionThrough`, `restart`;
* `materializeBaseManifestAt`, `deleteAllSegments`, `seedBranchBaseManifest`: what recoveries and
  branches do to the storage.

Reads return a state as well: a stale manifest snapshot is reloaded on the way.
-/

namespace Tiko

open Lib

/-! ## Chunks -/

/-- `BLOCKS_PER_CHUNK`. -/
def blocksPerChunk : ℕ := 32

/-- The contents of a chunk: its blocks, of an arbitrary type of pages with a zero page. -/
abbrev Chunk (β : Type) := Fin blocksPerChunk → β

namespace Chunk

variable {β : Type} [Zero β]

/-- `vec![0u8; CHUNK_SIZE]`. -/
def zero : Chunk β := fun _ => 0

/-- A whole chunk from its blocks. -/
def ofBlocks (data : List β) : Chunk β := fun i => data.getD i.val 0

/-- `merged[offset..offset + data.len()].copy_from_slice(data)`, in blocks. -/
def splice (c : Chunk β) (offset : ℕ) (data : List β) : Chunk β := fun i =>
  if offset ≤ i.val then (data[i.val - offset]?).getD (c i) else c i

/-- Whether a write covers the whole chunk. -/
def isFull (offset : ℕ) (data : List β) : Bool := offset == 0 && data.length == blocksPerChunk

/-- A full write is a splice over anything. -/
theorem splice_of_isFull {offset : ℕ} {data : List β} (h : isFull offset data = true)
    (c : Chunk β) : c.splice offset data = ofBlocks data := by
  simp only [isFull, Bool.and_eq_true, beq_iff_eq] at h
  obtain ⟨rfl, hlen⟩ := h
  funext i
  have hi : i.val < data.length := i.isLt.trans_eq hlen.symm
  simp [splice, ofBlocks, hi]

end Chunk

/-! ## Storage -/

/-- The object storage of one organisation. A chunk object is keyed by database, write prefix and
tag (`Locator::chunk`, `chunk_base`), the other objects by database. -/
structure Storage (β : Type) where
  chunks : UInt64 → Checkpoint → ChunkTag → Option (Chunk β)
  segments : UInt64 → SortedMap SegmentId TimelineSegment
  bases : UInt64 → SortedMap Checkpoint Manifest
  dbMeta : UInt64 → Option Checkpoint

namespace Storage

variable {β : Type}

/-- PUT of a chunk object. -/
def putChunk (s : Storage β) (dbId : UInt64) (ckpt : Checkpoint) (tag : ChunkTag) (c : Chunk β) :
    Storage β :=
  let objects := Function.update (s.chunks dbId) ckpt
    (Function.update (s.chunks dbId ckpt) tag (some c))
  { s with chunks := Function.update s.chunks dbId objects }

/-- PUT of a segment object. -/
def putSegment (s : Storage β) (dbId : UInt64) (id : SegmentId) (seg : TimelineSegment) :
    Storage β :=
  let map := (s.segments dbId).insert id seg
  { s with segments := Function.update s.segments dbId map }

/-- DELETE of segment objects. -/
def deleteSegments (s : Storage β) (dbId : UInt64) (ids : List SegmentId) : Storage β :=
  let map := (s.segments dbId).filter fun id _ => !ids.contains id
  { s with segments := Function.update s.segments dbId map }

/-- PUT of a base manifest. -/
def putBase (s : Storage β) (dbId : UInt64) (ckpt : Checkpoint) (m : Manifest) : Storage β :=
  { s with bases := Function.update s.bases dbId ((s.bases dbId).insert ckpt m) }

/-- PUT of the database record. -/
def putDbMeta (s : Storage β) (dbId : UInt64) (ckpt : Checkpoint) : Storage β :=
  { s with dbMeta := Function.update s.dbMeta dbId (some ckpt) }

theorem chunks_putChunk (s : Storage β) (dbId : UInt64) (ckpt : Checkpoint) (tag : ChunkTag)
    (c : Chunk β) (dbId' : UInt64) (ckpt' : Checkpoint) (tag' : ChunkTag) :
    (s.putChunk dbId ckpt tag c).chunks dbId' ckpt' tag' =
      if dbId' = dbId ∧ ckpt' = ckpt ∧ tag' = tag then some c else s.chunks dbId' ckpt' tag' := by
  simp only [putChunk, Function.update_apply]
  by_cases h1 : dbId' = dbId <;> by_cases h2 : ckpt' = ckpt <;> by_cases h3 : tag' = tag <;>
    simp [h1, h2, h3]

end Storage

/-! ## Databases -/

/-- What is fixed for a database: its id, the frame encoding and the sort of the merge. -/
structure StoreConfig where
  dbId : UInt64
  codec : FrameCodec
  sort : Manifest.CombinedSort

/-- A database: the storage, its shared memory, the manifest snapshot of its process and the local
manifest file. -/
structure Db (β : Type) where
  storage : Storage β
  timeline : TimelineState
  draft : DraftBuffer
  manifest : Manifest
  tikm : Option Manifest

namespace Db

variable {β : Type} (cfg : StoreConfig)

/-! ## Segments -/

/-- `Store::list_all_segments`. -/
def listAllSegments (s : Db β) : List SegmentId := (s.storage.segments cfg.dbId).keys

/-- `Store::list_segments_in_range`. -/
def listSegmentsInRange (s : Db β) (low high : Checkpoint) : List SegmentId :=
  (s.listAllSegments cfg).filter fun id => id.overlapsRange low high

/-- `Store::load_segment`. -/
def loadSegment (s : Db β) (id : SegmentId) : Except Error TimelineSegment :=
  match (s.storage.segments cfg.dbId).lookup id with
  | some seg => .ok seg
  | none => .error .notFound

/-- The walk of `read_chunk_from_segments` and `read_relfork_from_segments` over the listed
segments, newest first. -/
def scanSegments {γ : Type} (s : Db β) (f : SegmentCheckpoint → Option γ) :
    List SegmentId → Except Error (Option γ)
  | [] => .ok none
  | id :: ids =>
    match s.loadSegment cfg id with
    | .error e => .error e
    | .ok seg =>
      match seg.checkpoints.reverse.findSome? f with
      | some a => .ok (some a)
      | none => s.scanSegments f ids

/-- The checkpoints of a list of segments, in order. -/
def loadCheckpoints (s : Db β) : List SegmentId → Except Error (List SegmentCheckpoint)
  | [] => .ok []
  | id :: ids =>
    match s.loadSegment cfg id with
    | .error e => .error e
    | .ok seg =>
      match s.loadCheckpoints ids with
      | .error e => .error e
      | .ok scs => .ok (seg.checkpoints ++ scs)

/-! ## The base manifest -/

/-- `Store::load_manifest_at`. -/
def loadManifestAt (s : Db β) (ckpt : Checkpoint) : Except Error (Manifest × Db β) :=
  if ckpt = default then .ok (.empty, { s with tikm := some .empty })
  else
    match s.tikm.filter (fun m => m.checkpoint = ckpt) with
    | some m => .ok (m, s)
    | none =>
      match (s.storage.bases cfg.dbId).lookup ckpt with
      | none => .error .notFound
      | some m => .ok (m, { s with tikm := some m })

/-- `Store::base_manifest`. -/
def baseManifest (s : Db β) : Except Error (Manifest × Db β) :=
  let target := s.timeline.baseCkpt
  if s.manifest.checkpoint = target then .ok (s.manifest, s)
  else
    match s.loadManifestAt cfg target with
    | .error e => .error e
    | .ok (m, s) => .ok (m, { s with manifest := m })

/-! ## Reads -/

/-- `Store::try_read_chunk_at`. -/
def tryReadChunkAt (s : Db β) (tag : ChunkTag) (ckpt : Checkpoint) : Option (Chunk β) :=
  s.storage.chunks cfg.dbId ckpt tag

/-- `Store::read_chunk_from_segments`: the range is `[low, high)`. -/
def readChunkFromSegments (s : Db β) (tag : ChunkTag) (low high : Checkpoint) :
    Except Error (Option (Chunk β)) :=
  if high ≤ low then .ok none
  else
    s.scanSegments cfg (fun sc =>
      if sc.ckpt < low ∨ high ≤ sc.ckpt then none
      else if sc.containsChunk tag then s.tryReadChunkAt cfg tag sc.prevCkpt else none)
      (s.listSegmentsInRange cfg low high).reverse

/-- `Store::read_relfork_from_segments`: the range is `[low, high]`. -/
def readRelforkFromSegments (s : Db β) (rf : RelFork) (low high : Checkpoint) :
    Except Error (Option RelForkMeta) :=
  if high < low then .ok none
  else
    s.scanSegments cfg (fun sc =>
      if sc.ckpt < low ∨ high < sc.ckpt then none else sc.relforkMeta rf)
      (s.listSegmentsInRange cfg low high).reverse

/-- The walk of `get_chunk` over the active window, gated by the Bloom filters. -/
def probeWindow (s : Db β) (tag : ChunkTag) : Option (Chunk β) :=
  s.timeline.iterActive.findSome? fun ac =>
    if ac.chunkBloom.maybeContains tag then s.tryReadChunkAt cfg tag ac.prevCkpt else none

/-- The checkpoint of the oldest entry of the window, or the head. -/
def segTop (s : Db β) : Checkpoint :=
  (s.timeline.iterActive.getLast?.map (·.ckpt)).getD s.timeline.headCkpt

/-- `Store::get_chunk`. -/
def getChunk (s : Db β) (tag : ChunkTag) : Except Error (Chunk β) × Db β :=
  match (if s.draft.containsChunk tag then s.tryReadChunkAt cfg tag s.timeline.headCkpt
      else none) with
  | some c => (.ok c, s)
  | none =>
    match s.probeWindow cfg tag with
    | some c => (.ok c, s)
    | none =>
      match s.readChunkFromSegments cfg tag s.timeline.baseCkpt s.segTop with
      | .error e => (.error e, s)
      | .ok (some c) => (.ok c, s)
      | .ok none =>
        match s.baseManifest cfg with
        | .error e => (.error e, s)
        | .ok (m, s) =>
          match m.lookup tag with
          | none => (.error .notFound, s)
          | some r =>
            match s.storage.chunks r.dbId r.ckpt tag with
            | some c => (.ok c, s)
            | none => (.error .notFound, s)

/-- The walk of `get_meta` over the active window: a hit, or the checkpoint where the walk
stopped. -/
def walkIndex (rf : RelFork) : List ActiveCheckpoint → Option Checkpoint →
    Option RelForkMeta × Option Checkpoint
  | [], oldest => (none, oldest)
  | ac :: acs, _ =>
    match ac.relforkIndex.get rf with
    | .hit m => (some m, some ac.ckpt)
    | .definitiveMiss => walkIndex rf acs (some ac.ckpt)
    | .inconclusive => (none, some ac.ckpt)

/-- The last two layers of `get_meta`: the segments from the base up to `top`, then the base
manifest. -/
def getMetaBelow (s : Db β) (rf : RelFork) (top : Checkpoint) : Except Error RelForkMeta × Db β :=
  match s.readRelforkFromSegments cfg rf s.timeline.baseCkpt top with
  | .error e => (.error e, s)
  | .ok (some m) => (.ok m, s)
  | .ok none =>
    match s.baseManifest cfg with
    | .error e => (.error e, s)
    | .ok (m, s) =>
      match m.lookupRelforkMeta rf with
      | some md => (.ok md, s)
      | none => (.error .notFound, s)

/-- `Store::get_meta`. -/
def getMeta (s : Db β) (rf : RelFork) : Except Error RelForkMeta × Db β :=
  match s.draft.getRelfork cfg.codec true rf with
  | .error e => (.error e, s)
  | .ok (some m) => (.ok m, s)
  | .ok none =>
    match walkIndex rf s.timeline.iterActive none with
    | (some m, _) => (.ok m, s)
    | (none, oldest) => s.getMetaBelow cfg rf (oldest.getD s.timeline.headCkpt)

/-! ## Writes -/

/-- `Store::record_chunk_eviction`, which only logs a failure. -/
def recordChunkEviction (out : AppendOutcome) (s : Db β) (tag : ChunkTag) : Db β :=
  { s with draft := (s.draft.recordChunk cfg.codec out tag).2 }

/-- `Store::record_relfork_eviction`, which only logs a failure. -/
def recordRelforkEviction (out : AppendOutcome) (s : Db β) (rf : RelFork) (m : RelForkMeta) :
    Db β :=
  { s with draft := (s.draft.recordRelfork cfg.codec out rf m).2 }

/-- `Store::put_meta`. -/
def putMeta (out : AppendOutcome) (s : Db β) (rf : RelFork) (m : RelForkMeta) :
    Except Error Unit × Db β :=
  (.ok (), s.recordRelforkEviction cfg out rf m)

/-- PUT of a chunk object at the head prefix, and its record in the draft. -/
def putChunkAtHead (out : AppendOutcome) (s : Db β) (tag : ChunkTag) (c : Chunk β) : Db β :=
  recordChunkEviction cfg out
    { s with storage := s.storage.putChunk cfg.dbId s.timeline.headCkpt tag c } tag

/-- `Store::patch_chunk`. -/
def patchChunk [Zero β] (out : AppendOutcome) (s : Db β) (tag : ChunkTag) (blockOffset : ℕ)
    (data : List β) : Except Error Unit × Db β :=
  if Chunk.isFull blockOffset data then
    (.ok (), s.putChunkAtHead cfg out tag (.ofBlocks data))
  else
    match s.getChunk cfg tag with
    | (.ok c, s) => (.ok (), s.putChunkAtHead cfg out tag (c.splice blockOffset data))
    | (.error e, s) =>
      if e.isNotFound then
        (.ok (), s.putChunkAtHead cfg out tag (Chunk.zero.splice blockOffset data))
      else (.error e, s)

/-! ## Commits -/

/-- What happens to the file and storage operations of one commit. -/
structure CommitOutcome where
  drain : DraftBuffer.DrainOutcome
  loadSegment : Bool
  putSegment : Bool
  getDbMeta : Bool
  putDbMeta : Bool

/-- The commit in which every operation succeeds. -/
def CommitOutcome.ok : CommitOutcome := ⟨.ok, true, true, true, true⟩

/-- What a commit is called with: the checkpoint, its redo point, the state archive and the time. -/
structure CommitArgs where
  ckpt : Checkpoint
  redoCkpt : Checkpoint
  pgState : List UInt8
  createdAt : ℤ

/-- The record of a commit. -/
def CommitArgs.summary (a : CommitArgs) (prevCkpt : Checkpoint) (drained : DraftFrame) :
    SegmentCheckpoint :=
  ⟨a.ckpt, prevCkpt, a.redoCkpt, drained.chunks, drained.relforks, a.pgState, a.createdAt⟩

/-- `Store::commit_segment`: append the record to its segment. -/
def commitSegment (out : CommitOutcome) (s : Db β) (a : CommitArgs) (prevCkpt : Checkpoint)
    (drained : DraftFrame) : Except Error (SegmentCheckpoint × Db β) :=
  let id := a.ckpt.toSegmentId
  if !out.loadSegment then .error .io
  else
    let seg := match s.loadSegment cfg id with
      | .ok existing => existing
      | .error _ => TimelineSegment.new id
    let summary := a.summary prevCkpt drained
    if !out.putSegment then .error .io
    else .ok (summary, { s with storage := s.storage.putSegment cfg.dbId id (seg.push summary) })

/-- The fenced part of `Store::run_commit_protocol`, under the write lock. -/
def runCommitProtocol (out : CommitOutcome) (s : Db β) (a : CommitArgs) :
    Except Error Unit × Db β :=
  let prevCkpt := s.timeline.headCkpt
  let s := { s with timeline := s.timeline.setRedoCkpt a.redoCkpt }
  match s.draft.drain cfg.codec out.drain with
  | (.error e, draft) => (.error e, { s with draft := draft })
  | (.ok drained, draft) =>
    let s := { s with draft := draft }
    match s.commitSegment cfg out a prevCkpt drained with
    | .error e => (.error e, s)
    | .ok (summary, s) =>
      let s := { s with
        timeline := s.timeline.pushActive a.ckpt prevCkpt summary.chunks summary.relforks }
      if !out.getDbMeta || !out.putDbMeta then (.error .io, s)
      else (.ok (), { s with storage := s.storage.putDbMeta cfg.dbId a.ckpt })

/-! ## Compactions -/

/-- `CompactionResult`. -/
inductive CompactionResult where
  | noNewSegments
  | applied (baseCkpt newBaseCkpt : Checkpoint) (count : ℕ)
  deriving DecidableEq

/-- The order of `sort_by_key(|s| s.ckpt)`. -/
def ckptLe (a b : SegmentCheckpoint) : Prop := a.ckpt ≤ b.ckpt

instance : DecidableRel ckptLe := fun a b => inferInstanceAs (Decidable (a.ckpt ≤ b.ckpt))

instance : Std.Total ckptLe := ⟨fun a b => le_total a.ckpt b.ckpt⟩

instance : IsTrans SegmentCheckpoint ckptLe := ⟨fun _ _ _ => le_trans⟩

instance : Std.Refl ckptLe := ⟨fun a => le_refl a.ckpt⟩

/-- The common part of the two compactions: fold the checkpoints of the segments of
`[baseCkpt, high]` that `select` takes, publish the manifest under `newBase`, advance the base and
delete the segments below it. -/
def compactRange (s : Db β) (high : Checkpoint) (select : SegmentCheckpoint → Bool)
    (newBase : List SegmentCheckpoint → Manifest → Checkpoint) (now : ℤ) :
    Except Error CompactionResult × Db β :=
  let baseCkpt := s.timeline.baseCkpt
  let segments := s.listSegmentsInRange cfg baseCkpt high
  match s.loadCheckpoints cfg segments with
  | .error e => (.error e, s)
  | .ok scs =>
    let toApply := (scs.filter select).insertionSort ckptLe
    if toApply = [] then (.ok .noNewSegments, s)
    else
      match s.baseManifest cfg with
      | .error e => (.error e, s)
      | .ok (current, s) =>
        let applied := current.applySegments cfg.sort toApply cfg.dbId now
        let base := newBase toApply applied
        let storage := s.storage.putBase cfg.dbId base applied
        let dead := segments.takeWhile fun id => id < base.toSegmentId
        (.ok (.applied baseCkpt base toApply.length),
          { s with
            storage := storage.deleteSegments cfg.dbId dead
            timeline := s.timeline.setBaseCkpt base
            manifest := applied
            tikm := some applied })

/-- `Store::run_compaction`: checkpoints strictly below the redo point, or the head while there is
none; the manifest is published under the last of them. -/
def runCompaction (s : Db β) (now : ℤ) : Except Error CompactionResult × Db β :=
  let upper := if s.timeline.redoCkpt.lsn = 0 then s.timeline.headCkpt else s.timeline.redoCkpt
  if upper ≤ s.timeline.baseCkpt then (.ok .noNewSegments, s)
  else
    s.compactRange cfg upper (fun sc => decide (s.timeline.baseCkpt < sc.ckpt ∧ sc.ckpt < upper))
      (fun toApply _ => (toApply.getLast?.map (·.ckpt)).getD default) now

/-- `Store::run_compaction_through`: checkpoints up to and including `target`; the manifest is
published under its own checkpoint. -/
def runCompactionThrough (s : Db β) (target : Checkpoint) (now : ℤ) :
    Except Error CompactionResult × Db β :=
  if target ≤ s.timeline.baseCkpt then (.ok .noNewSegments, s)
  else
    s.compactRange cfg target (fun sc => decide (s.timeline.baseCkpt < sc.ckpt ∧ sc.ckpt ≤ target))
      (fun _ applied => applied.checkpoint) now

/-! ## Starts -/

/-- The manifest that `Store::init` opens: the local file, else the newest stored base, else an
empty one. The last two write the local file. -/
def initManifest (s : Db β) : Manifest :=
  s.tikm.getD (((s.storage.bases cfg.dbId).entries.getLast?.map Prod.snd).getD .empty)

/-- `push_active` of a stored checkpoint. -/
def pushCheckpoint (t : TimelineState) (sc : SegmentCheckpoint) : TimelineState :=
  t.pushActive sc.ckpt sc.prevCkpt sc.chunks sc.relforks

/-- `Store::hydrate_timeline_state`; `inRecovery` tells whether `recovery.signal` exists. An error
leaves the state as it was. -/
def hydrateTimelineState (s : Db β) (inRecovery : Bool) : Db β :=
  if s.timeline.hydrated then s
  else
    match (if inRecovery then .ok [] else s.loadCheckpoints cfg (s.listAllSegments cfg)) with
    | .error _ => s
    | .ok scs =>
      -- the newest checkpoints that fit the window, replayed oldest first
      let newestFirst := scs.reverse.take activeWindowSize
      let t := newestFirst.reverse.foldl pushCheckpoint s.timeline
      let t := if s.manifest.checkpoint ≠ default then t.setBaseCkpt s.manifest.checkpoint else t
      { s with timeline := { t with hydrated := true } }

/-- `Store::init` of a new process on what the old one left: the shared memory is reset, and the
local manifest file may be lost. -/
def restart (s : Db β) (tikmLost inRecovery : Bool) : Db β :=
  let s : Db β := { s with
    timeline := s.timeline.init
    draft := s.draft.init
    tikm := if tikmLost then none else s.tikm }
  let m := s.initManifest cfg
  hydrateTimelineState cfg { s with manifest := m, tikm := some m } inRecovery

/-! ## Recovery and branches -/

/-- The newest of the stored base manifests at or before a checkpoint, with its key. -/
def newestBaseUpTo (bases : SortedMap Checkpoint Manifest) (ckpt : Checkpoint) :
    Option (Checkpoint × Manifest) :=
  (bases.entries.filter fun p => decide (p.1 ≤ ckpt)).getLast?

/-- `Store::materialize_base_manifest_at`; `ok` is `false` when listing, reading or writing the local
file fails. -/
def materializeBaseManifestAt (ok : Bool) (s : Db β) (ckpt : Checkpoint) :
    Except Error Unit × Db β :=
  if !ok then (.error .io, s)
  else
    match newestBaseUpTo (s.storage.bases cfg.dbId) ckpt with
    | none => (.error .io, s)
    | some (_, m) => (.ok (), { s with manifest := m, tikm := some m })

/-- `Store::delete_all_segments`; `list` is `false` when the listing fails. The segments of `kept`
cannot be deleted, which is only logged. -/
def deleteAllSegments (list : Bool) (kept : List SegmentId) (s : Db β) :
    Except Error Unit × Db β :=
  if !list then (.error .io, s)
  else
    let ids := (s.listAllSegments cfg).filter fun id => !kept.contains id
    (.ok (), { s with storage := s.storage.deleteSegments cfg.dbId ids })

/-- `Store::seed_branch_base_manifest`: the newest base manifest of the parent is copied under its
key. -/
def seedBranchBaseManifest (storage : Storage β) (parentDbId branchDbId : UInt64)
    (ckpt : Checkpoint) : Except Error Unit × Storage β :=
  match newestBaseUpTo (storage.bases parentDbId) ckpt with
  | none => (.error .io, storage)
  | some (key, m) => (.ok (), storage.putBase branchDbId key m)

end Db

end Tiko

import Tiko.Lib.Reach
import Tiko.Store.Run
import Tiko.Store.Sound

/-!
# The store under concurrency

Any number of threads on one database: they share the storage, the shared memory and the local
manifest file, and the threads of a process share a cached base manifest. Writes, commits and the
read-locked section of a read are one step; the base manifest is read, and compactions run, outside
the lock and step by step.

* `Db.getChunkLocked`, `Db.getMetaLocked`: the read-locked section of a read;
* `Pc`: where a thread stands; `Cont` says who has called `base_manifest`, `Fold` is a new base
  manifest on its way;
* `Shared`: the shared state, the threads, and as history the committed records, the writes and the
  answers of the calls;
* `Shared.step`: one step of one thread.
-/

namespace Tiko

open Lib

variable {β : Type}

/-! ## The read-locked sections -/

namespace Db

variable (cfg : StoreConfig)

/-- The read-locked section of `get_chunk`: a hit, or nothing above the base manifest. -/
def getChunkLocked (s : Db β) (tag : ChunkTag) : Except Error (Option (Chunk β)) :=
  match (if s.draft.containsChunk tag then s.tryReadChunkAt cfg tag s.timeline.headCkpt
      else none) with
  | some c => .ok (some c)
  | none =>
    match s.probeWindow cfg tag with
    | some c => .ok (some c)
    | none => s.readChunkFromSegments cfg tag s.timeline.baseCkpt s.segTop

/-- The read-locked section of `get_meta`. -/
def getMetaLocked (s : Db β) (rf : RelFork) : Except Error (Option RelForkMeta) :=
  match s.draft.getRelfork cfg.codec true rf with
  | .error e => .error e
  | .ok (some m) => .ok (some m)
  | .ok none =>
    match walkIndex rf s.timeline.iterActive none with
    | (some m, _) => .ok (some m)
    | (none, oldest) =>
      s.readRelforkFromSegments cfg rf s.timeline.baseCkpt (oldest.getD s.timeline.headCkpt)

/-- A read that hits in the locked section. -/
theorem getChunk_of_locked {s : Db β} {tag : ChunkTag} {c : Chunk β}
    (h : s.getChunkLocked cfg tag = .ok (some c)) : s.getChunk cfg tag = (.ok c, s) := by
  unfold getChunkLocked at h
  unfold getChunk
  cases hd : (if s.draft.containsChunk tag then s.tryReadChunkAt cfg tag s.timeline.headCkpt
      else none) with
  | some d =>
    simp only [hd] at h ⊢
    rw [Option.some.inj (Except.ok.inj h)]
  | none =>
    simp only [hd] at h ⊢
    cases hp : s.probeWindow cfg tag with
    | some d =>
      simp only [hp] at h ⊢
      rw [Option.some.inj (Except.ok.inj h)]
    | none =>
      simp only [hp] at h ⊢
      simp only [h]

theorem getMeta_of_locked {s : Db β} {rf : RelFork} {m : RelForkMeta}
    (h : s.getMetaLocked cfg rf = .ok (some m)) : s.getMeta cfg rf = (.ok m, s) := by
  unfold getMetaLocked at h
  unfold getMeta
  cases hd : s.draft.getRelfork cfg.codec true rf with
  | error e =>
    simp only [hd] at h
    exact absurd h (by simp)
  | ok found =>
    cases found with
    | some d =>
      simp only [hd] at h ⊢
      rw [Option.some.inj (Except.ok.inj h)]
    | none =>
      simp only [hd] at h ⊢
      rcases hw : walkIndex rf s.timeline.iterActive none with ⟨_ | d, oldest⟩
      · simp only [hw] at h ⊢
        simp only [getMetaBelow, h]
      · simp only [hw] at h ⊢
        rw [Option.some.inj (Except.ok.inj h)]

end Db

/-! ## Threads -/

/-- What a compaction has read under the lock: the base, and its upper bound, which
`run_compaction_through` includes. -/
structure Job where
  base : Checkpoint
  high : Checkpoint
  through : Bool
  now : ℤ
  deriving DecidableEq

/-- The records that a compaction folds. -/
def Job.selects (j : Job) (sc : SegmentCheckpoint) : Bool :=
  decide (j.base < sc.ckpt) &&
    if j.through then decide (sc.ckpt ≤ j.high) else decide (sc.ckpt < j.high)

/-- The checkpoint under which the new manifest is published. -/
def Job.newBase (j : Job) (toApply : List SegmentCheckpoint) (applied : Manifest) : Checkpoint :=
  if j.through then applied.checkpoint else (toApply.getLast?.map (·.ckpt)).getD default

/-- A new base manifest on its way: the base that it was folded on, its key, and the segments it was
folded from. -/
structure Fold where
  base : Checkpoint
  key : Checkpoint
  applied : Manifest
  segments : List SegmentId

/-- Who has called `base_manifest`. A read carries the number of writes before it was called. -/
inductive Cont where
  | done
  | chunk (tag : ChunkTag) (since : ℕ)
  | relfork (rf : RelFork) (since : ℕ)
  | compact (job : Job) (segments : List SegmentId) (toApply : List SegmentCheckpoint)

/-- Where a thread stands. -/
inductive Pc where
  | idle
  /-- compaction: listing the segments, and loading them one by one -/
  | list (job : Job)
  | load (job : Job) (segments todo : List SegmentId) (scs : List SegmentCheckpoint)
  /-- `base_manifest`: reading the base checkpoint, comparing the cached manifest with it -/
  | readBase (k : Cont)
  | compare (target : Checkpoint) (k : Cont)
  /-- `load_manifest_at`: the local file, the stored object, and the new local file -/
  | openLocal (target : Checkpoint) (k : Cont)
  | getBase (target : Checkpoint) (k : Cont)
  | writeTikm (target : Checkpoint) (m : Manifest) (k : Cont)
  /-- `base_manifest`: caching the loaded manifest -/
  | store (target : Checkpoint) (m : Manifest) (k : Cont)
  /-- the caller goes on with the manifest, and fetches the chunk that it refers to -/
  | lookup (m : Manifest) (k : Cont)
  | fetch (r : ChunkRef) (tag : ChunkTag) (since : ℕ)
  /-- compaction: publishing, `commit_applied`, moving the base, the cache, and the old segments -/
  | put (f : Fold)
  | rename (f : Fold)
  | advance (f : Fold)
  | swap (f : Fold)
  | delete (ids : List SegmentId)

/-- The base that an unfinished compaction has started from, before it has moved the base itself. -/
def Cont.snapshot : Cont → Option Checkpoint
  | .compact job _ _ => some job.base
  | .done | .chunk _ _ | .relfork _ _ => none

/-- The base that an unfinished compaction has started from, before it has moved the base itself. -/
def Pc.snapshot : Pc → Option Checkpoint
  | .list job | .load job _ _ _ => some job.base
  | .readBase k | .compare _ k | .openLocal _ k | .getBase _ k | .writeTikm _ _ k | .store _ _ k
  | .lookup _ k => k.snapshot
  | .put f | .rename f | .advance f => some f.base
  | .idle | .fetch _ _ _ | .swap _ | .delete _ => none

/-- Whether a compaction is under way. -/
def Pc.compacting : Pc → Bool
  | .swap _ | .delete _ => true
  | pc => pc.snapshot.isSome

/-- An answer of a read, with the number of writes before it was called, or a compaction of a thread
that returned `Raced` and whether it had changed a stored base manifest or the local file. -/
inductive Answer (ι β : Type) where
  | chunk (tag : ChunkTag) (since : ℕ) (result : Except Error (Chunk β))
  | relfork (rf : RelFork) (since : ℕ) (result : Except Error RelForkMeta)
  | raced (p : ι) (changed : Bool)

/-- The shared state and the threads `ι`, each of a process. As history: the committed records, the
writes of chunks and of metadata that have returned, with their prefixes, the answers, and whether
the current compaction of a thread has changed a stored base manifest or the local file. -/
structure Shared (ι β : Type) where
  storage : Storage β
  timeline : TimelineState
  draft : DraftBuffer
  tikm : Option Manifest
  process : ι → ℕ
  caches : ℕ → Manifest
  pcs : ι → Pc
  history : List SegmentCheckpoint
  chunkWrites : List (Checkpoint × ChunkTag × Chunk β)
  metaWrites : List (Checkpoint × RelFork × RelForkMeta)
  answers : List (Answer ι β)
  changed : ι → Bool

namespace Shared

variable {ι : Type}

/-- The manifest that the process of a thread has cached. -/
def cached (s : Shared ι β) (p : ι) : Manifest := s.caches (s.process p)

/-- The process of a thread caches a manifest. -/
def cache (s : Shared ι β) (p : ι) (m : Manifest) : Shared ι β :=
  { s with caches := Function.update s.caches (s.process p) m }

/-- The database as a thread sees it. -/
def db (s : Shared ι β) (p : ι) : Db β := ⟨s.storage, s.timeline, s.draft, s.cached p, s.tikm⟩

variable [DecidableEq ι]

/-- The state after an operation of a thread on the database. -/
def setDb (s : Shared ι β) (p : ι) (d : Db β) : Shared ι β :=
  { s.cache p d.manifest with
    storage := d.storage
    timeline := d.timeline
    draft := d.draft
    tikm := d.tikm }

/-- A thread at another place. -/
def goto (s : Shared ι β) (p : ι) (pc : Pc) : Shared ι β :=
  { s with pcs := Function.update s.pcs p pc }

/-- A call returns. -/
def answer (s : Shared ι β) (p : ι) (a : Answer ι β) : Shared ι β :=
  { s.goto p .idle with answers := a :: s.answers }

/-- A step of a thread that changes a stored base manifest or the local file. -/
def noteChange (s : Shared ι β) (p : ι) (differs : Bool) : Shared ι β :=
  { s with changed := Function.update s.changed p (s.changed p || differs) }

/-- `base_manifest` fails. -/
def fail (s : Shared ι β) (p : ι) (e : Error) : Cont → Shared ι β
  | .chunk tag since => s.answer p (.chunk tag since (.error e))
  | .relfork rf since => s.answer p (.relfork rf since (.error e))
  | .done | .compact _ _ _ => s.goto p .idle

/-- A thread renames a new manifest file over the local one. -/
def publishTikm (s : Shared ι β) (p : ι) (m : Manifest) : Shared ι β :=
  { s.noteChange p (decide (s.tikm ≠ some m)) with tikm := some m }

variable (cfg : StoreConfig)

/-- A thread stores a base manifest. -/
def publishBase (s : Shared ι β) (p : ι) (key : Checkpoint) (m : Manifest) : Shared ι β :=
  { s.noteChange p (decide ((s.storage.bases cfg.dbId).lookup key ≠ some m)) with
    storage := s.storage.putBase cfg.dbId key m }

/-- The base checkpoint moves. -/
def setBase (s : Shared ι β) (key : Checkpoint) : Shared ι β :=
  { s with timeline := s.timeline.setBaseCkpt key }

/-- A superseded segment is deleted. -/
def deleteSegment (s : Shared ι β) (id : SegmentId) : Shared ι β :=
  { s with storage := s.storage.deleteSegments cfg.dbId [id] }

/-- The caller of `base_manifest` goes on with the manifest. -/
def resume (s : Shared ι β) (p : ι) (m : Manifest) : Cont → Shared ι β
  | .done => s.goto p .idle
  | .chunk tag since =>
    match m.lookup tag with
    | some r => s.goto p (.fetch r tag since)
    | none => s.answer p (.chunk tag since (.error .notFound))
  | .relfork rf since => s.answer p (.relfork rf since (found (m.lookupRelforkMeta rf)))
  | .compact job segments toApply =>
    let applied := m.applySegments cfg.sort toApply cfg.dbId job.now
    s.goto p (.put ⟨job.base, job.newBase toApply applied, applied, segments⟩)

/-- The end of the loading loop of a compaction. -/
def loaded (s : Shared ι β) (p : ι) (job : Job) (segments : List SegmentId)
    (scs : List SegmentCheckpoint) : Shared ι β :=
  let toApply := (scs.filter job.selects).insertionSort Db.ckptLe
  if toApply = [] then s.goto p .idle else s.goto p (.readBase (.compact job segments toApply))

/-- The next step of a thread. -/
def runThread (s : Shared ι β) (p : ι) : Option (Shared ι β) :=
  match s.pcs p with
  | .idle => none
  | .list job =>
    let segments := (s.db p).listSegmentsInRange cfg job.base job.high
    some (s.goto p (.load job segments segments []))
  | .load job segments [] scs => some (s.loaded p job segments scs)
  | .load job segments (id :: todo) scs =>
    some (match (s.db p).loadSegment cfg id with
      | .error _ => s.goto p .idle
      | .ok seg => s.goto p (.load job segments todo (scs ++ seg.checkpoints)))
  | .readBase k => some (s.goto p (.compare s.timeline.baseCkpt k))
  | .compare target k =>
    some (if (s.cached p).checkpoint = target then s.goto p (.lookup (s.cached p) k)
      else if target = default then s.goto p (.writeTikm target .empty k)
      else s.goto p (.openLocal target k))
  | .openLocal target k =>
    some (match s.tikm.filter fun m => m.checkpoint = target with
      | some m => s.goto p (.store target m k)
      | none => s.goto p (.getBase target k))
  | .getBase target k =>
    some (match (s.storage.bases cfg.dbId).lookup target with
      | some m => s.goto p (.writeTikm target m k)
      | none => s.fail p .notFound k)
  | .writeTikm target m k =>
    some ((s.publishTikm p m).goto p (.store target m k))
  | .store target m k =>
    some (if (s.cached p).checkpoint = target then s.goto p (.lookup (s.cached p) k)
      else (s.cache p m).goto p (.lookup m k))
  | .lookup m k => some (s.resume cfg p m k)
  | .fetch r tag since =>
    some (s.answer p (.chunk tag since (found (s.storage.chunks r.dbId r.ckpt tag))))
  | .put f =>
    some ((s.publishBase cfg p f.key f.applied).goto p (.rename f))
  | .rename f =>
    some ((s.publishTikm p f.applied).goto p (.advance f))
  | .advance f =>
    some (if s.timeline.baseCkpt ≠ f.base then s.answer p (.raced p (s.changed p))
      else (s.setBase f.key).goto p (.swap f))
  | .swap f =>
    let dead := f.segments.takeWhile fun id => id < f.key.toSegmentId
    some ((s.cache p f.applied).goto p (.delete dead))
  | .delete [] => some (s.goto p .idle)
  | .delete (id :: ids) =>
    some ((s.deleteSegment cfg id).goto p (.delete ids))

/-- What a thread can do, one case for each branch. -/
inductive Moves (s : Shared ι β) (p : ι) : Shared ι β → Prop where
  | list {job : Job} {segments : List SegmentId} (hpc : s.pcs p = .list job)
      (hl : (s.db p).listSegmentsInRange cfg job.base job.high = segments) :
      s.Moves p (s.goto p (.load job segments segments []))
  | load {job : Job} {segments todo : List SegmentId} {id : SegmentId}
      {scs : List SegmentCheckpoint} {seg : TimelineSegment}
      (hpc : s.pcs p = .load job segments (id :: todo) scs)
      (hl : (s.db p).loadSegment cfg id = .ok seg) :
      s.Moves p (s.goto p (.load job segments todo (scs ++ seg.checkpoints)))
  | loadFails {job : Job} {segments todo : List SegmentId} {id : SegmentId}
      {scs : List SegmentCheckpoint} (hpc : s.pcs p = .load job segments (id :: todo) scs) :
      s.Moves p (s.goto p .idle)
  | nothingNew {job : Job} {segments : List SegmentId} {scs : List SegmentCheckpoint}
      (hpc : s.pcs p = .load job segments [] scs) : s.Moves p (s.goto p .idle)
  | loaded {job : Job} {segments : List SegmentId} {scs toApply : List SegmentCheckpoint}
      (hpc : s.pcs p = .load job segments [] scs)
      (hl : (scs.filter job.selects).insertionSort Db.ckptLe = toApply) (hne : toApply ≠ []) :
      s.Moves p (s.goto p (.readBase (.compact job segments toApply)))
  | readBase {k : Cont} (hpc : s.pcs p = .readBase k) :
      s.Moves p (s.goto p (.compare s.timeline.baseCkpt k))
  | cached {target : Checkpoint} {k : Cont} (hpc : s.pcs p = .compare target k)
      (hc : (s.cached p).checkpoint = target) : s.Moves p (s.goto p (.lookup (s.cached p) k))
  | noBase {k : Cont} (hpc : s.pcs p = .compare default k) :
      s.Moves p (s.goto p (.writeTikm default .empty k))
  | stale {target : Checkpoint} {k : Cont} (hpc : s.pcs p = .compare target k)
      (hd : target ≠ default) : s.Moves p (s.goto p (.openLocal target k))
  | localFile {target : Checkpoint} {m : Manifest} {k : Cont}
      (hpc : s.pcs p = .openLocal target k) (hm : s.tikm = some m) (hc : m.checkpoint = target) :
      s.Moves p (s.goto p (.store target m k))
  | otherFile {target : Checkpoint} {k : Cont} (hpc : s.pcs p = .openLocal target k) :
      s.Moves p (s.goto p (.getBase target k))
  | getBase {target : Checkpoint} {m : Manifest} {k : Cont} (hpc : s.pcs p = .getBase target k)
      (hm : (s.storage.bases cfg.dbId).lookup target = some m) :
      s.Moves p (s.goto p (.writeTikm target m k))
  | getFails {target : Checkpoint} {k : Cont} (hpc : s.pcs p = .getBase target k)
      (hm : (s.storage.bases cfg.dbId).lookup target = none) : s.Moves p (s.fail p .notFound k)
  | writeTikm {target : Checkpoint} {m : Manifest} {k : Cont}
      (hpc : s.pcs p = .writeTikm target m k) :
      s.Moves p ((s.publishTikm p m).goto p (.store target m k))
  | sibling {target : Checkpoint} {m : Manifest} {k : Cont} (hpc : s.pcs p = .store target m k)
      (hc : (s.cached p).checkpoint = target) : s.Moves p (s.goto p (.lookup (s.cached p) k))
  | store {target : Checkpoint} {m : Manifest} {k : Cont} (hpc : s.pcs p = .store target m k) :
      s.Moves p ((s.cache p m).goto p (.lookup m k))
  | lookup {m : Manifest} {k : Cont} (hpc : s.pcs p = .lookup m k) : s.Moves p (s.resume cfg p m k)
  | fetch {r : ChunkRef} {tag : ChunkTag} {since : ℕ} (hpc : s.pcs p = .fetch r tag since) :
      s.Moves p (s.answer p (.chunk tag since (found (s.storage.chunks r.dbId r.ckpt tag))))
  | put {f : Fold} (hpc : s.pcs p = .put f) :
      s.Moves p ((s.publishBase cfg p f.key f.applied).goto p (.rename f))
  | rename {f : Fold} (hpc : s.pcs p = .rename f) :
      s.Moves p ((s.publishTikm p f.applied).goto p (.advance f))
  | raced {f : Fold} (hpc : s.pcs p = .advance f) (hb : s.timeline.baseCkpt ≠ f.base) :
      s.Moves p (s.answer p (.raced p (s.changed p)))
  | advance {f : Fold} (hpc : s.pcs p = .advance f) (hb : s.timeline.baseCkpt = f.base) :
      s.Moves p ((s.setBase f.key).goto p (.swap f))
  | swap {f : Fold} {dead : List SegmentId} (hpc : s.pcs p = .swap f)
      (hd : f.segments.takeWhile (fun id => id < f.key.toSegmentId) = dead) :
      s.Moves p ((s.cache p f.applied).goto p (.delete dead))
  | delete {id : SegmentId} {ids : List SegmentId} (hpc : s.pcs p = .delete (id :: ids)) :
      s.Moves p ((s.deleteSegment cfg id).goto p (.delete ids))
  | deleted (hpc : s.pcs p = .delete []) : s.Moves p (s.goto p .idle)

theorem moves_of_runThread {s s' : Shared ι β} {p : ι} (hs : s.runThread cfg p = some s') :
    s.Moves cfg p s' := by
  rw [runThread] at hs
  cases hpc : s.pcs p with
  | idle => rw [hpc] at hs; exact absurd hs (by simp)
  | list job => rw [hpc] at hs; exact Option.some.inj hs ▸ .list hpc rfl
  | load job segments todo scs =>
    rw [hpc] at hs
    cases todo with
    | nil =>
      rw [← Option.some.inj hs, Shared.loaded]
      split_ifs with hnil
      · exact .nothingNew hpc
      · exact .loaded hpc rfl hnil
    | cons id todo =>
      rw [← Option.some.inj hs]
      cases hl : (s.db p).loadSegment cfg id with
      | error e => exact .loadFails hpc
      | ok seg => exact .load hpc hl
  | readBase k => rw [hpc] at hs; exact Option.some.inj hs ▸ .readBase hpc
  | compare target k =>
    rw [hpc] at hs
    rw [← Option.some.inj hs]
    split_ifs with hc hd
    · exact .cached hpc hc
    · subst hd
      exact .noBase hpc
    · exact .stale hpc hd
  | openLocal target k =>
    rw [hpc] at hs
    rw [← Option.some.inj hs]
    cases hm : s.tikm.filter fun m => m.checkpoint = target with
    | some m =>
      obtain ⟨hm, hc⟩ := Option.filter_eq_some_iff.mp hm
      exact .localFile hpc hm (of_decide_eq_true hc)
    | none => exact .otherFile hpc
  | getBase target k =>
    rw [hpc] at hs
    rw [← Option.some.inj hs]
    cases hm : (s.storage.bases cfg.dbId).lookup target with
    | some m => exact .getBase hpc hm
    | none => exact .getFails hpc hm
  | writeTikm target m k => rw [hpc] at hs; exact Option.some.inj hs ▸ .writeTikm hpc
  | store target m k =>
    rw [hpc] at hs
    rw [← Option.some.inj hs]
    split_ifs with hc
    · exact .sibling hpc hc
    · exact .store hpc
  | lookup m k => rw [hpc] at hs; exact Option.some.inj hs ▸ .lookup hpc
  | fetch r tag since => rw [hpc] at hs; exact Option.some.inj hs ▸ .fetch hpc
  | put f => rw [hpc] at hs; exact Option.some.inj hs ▸ .put hpc
  | rename f => rw [hpc] at hs; exact Option.some.inj hs ▸ .rename hpc
  | advance f =>
    rw [hpc] at hs
    rw [← Option.some.inj hs]
    split_ifs with hb
    · exact .raced hpc hb
    · exact .advance hpc (not_not.mp hb)
  | swap f => rw [hpc] at hs; exact Option.some.inj hs ▸ .swap hpc rfl
  | delete ids =>
    rw [hpc] at hs
    cases ids with
    | nil => exact Option.some.inj hs ▸ .deleted hpc
    | cons id ids => exact Option.some.inj hs ▸ .delete hpc

/-! ## Calls -/

/-- The operations that a thread starts. -/
inductive Op (β : Type) where
  | patchChunk (tag : ChunkTag) (offset : ℕ) (data : List β)
  | putMeta (rf : RelFork) (m : RelForkMeta)
  | commit (a : Db.CommitArgs)
  | getChunk (tag : ChunkTag)
  | getMeta (rf : RelFork)
  | baseManifest
  | compact (now : ℤ)
  | compactThrough (target : Checkpoint) (now : ℤ)

/-- The record of a commit: what the draft holds, under the head prefix. -/
def committed (s : Shared ι β) (a : Db.CommitArgs) : List SegmentCheckpoint :=
  match (s.draft.drain cfg.codec .ok).1 with
  | .ok drained => [a.summary s.timeline.headCkpt drained]
  | .error _ => []

/-- `run_compaction` and `run_compaction_through` take their snapshot. -/
def startJob (s : Shared ι β) (p : ι) (job : Job) : Shared ι β :=
  let s := { s with changed := Function.update s.changed p false }
  if job.high ≤ job.base then s else s.goto p (.list job)

/-- A thread starts an operation; writes and commits are one step. -/
def call [Zero β] (s : Shared ι β) (p : ι) : Op β → Shared ι β
  | .patchChunk tag offset data =>
    let r := (s.db p).patchChunk cfg .ok tag offset data
    let head := s.timeline.headCkpt
    let written := (r.2.storage.chunks cfg.dbId head tag).toList.map fun c => (head, tag, c)
    let s := s.setDb p r.2
    match r.1 with
    | .ok _ => { s with chunkWrites := s.chunkWrites ++ written }
    | .error _ => s
  | .putMeta rf m =>
    let written := (s.timeline.headCkpt, rf, m)
    { s.setDb p ((s.db p).putMeta cfg .ok rf m).2 with metaWrites := s.metaWrites ++ [written] }
  | .commit a =>
    let s' := s.setDb p ((s.db p).runCommitProtocol cfg .ok a).2
    { s' with history := s.history ++ s.committed cfg a }
  | .getChunk tag =>
    match (s.db p).getChunkLocked cfg tag with
    | .error e => s.answer p (.chunk tag s.chunkWrites.length (.error e))
    | .ok (some c) => s.answer p (.chunk tag s.chunkWrites.length (.ok c))
    | .ok none => s.goto p (.readBase (.chunk tag s.chunkWrites.length))
  | .getMeta rf =>
    match (s.db p).getMetaLocked cfg rf with
    | .error e => s.answer p (.relfork rf s.metaWrites.length (.error e))
    | .ok (some m) => s.answer p (.relfork rf s.metaWrites.length (.ok m))
    | .ok none => s.goto p (.readBase (.relfork rf s.metaWrites.length))
  | .baseManifest => s.goto p (.readBase .done)
  | .compact now =>
    let upper := if s.timeline.redoCkpt.lsn = 0 then s.timeline.headCkpt else s.timeline.redoCkpt
    s.startJob p ⟨s.timeline.baseCkpt, upper, false, now⟩
  | .compactThrough target now => s.startJob p ⟨s.timeline.baseCkpt, target, true, now⟩

/-- A label: a thread starts an operation, or takes its next step. -/
inductive Label (ι β : Type) where
  | call (p : ι) (op : Op β)
  | run (p : ι)

/-- The thread that moves. -/
def Label.thread : Label ι β → ι
  | .call p _ => p
  | .run p => p

/-- A step of one thread. -/
def step [Zero β] (s : Shared ι β) : Label ι β → Option (Shared ι β)
  | .call p op =>
    match s.pcs p with
    | .idle => some (s.call cfg p op)
    | _ => none
  | .run p => s.runThread cfg p

/-- Threads stay in their processes. -/
theorem process_step [Zero β] {s s' : Shared ι β} {l : Label ι β} (hs : s.step cfg l = some s') :
    s'.process = s.process := by
  cases l with
  | call p op =>
    rw [step] at hs
    split at hs
    · rw [← Option.some.inj hs]
      cases op with
      | patchChunk tag offset data =>
        rw [call]
        cases ((s.db p).patchChunk cfg .ok tag offset data).1 <;> rfl
      | putMeta rf m => rfl
      | commit a => rfl
      | getChunk tag =>
        rw [call]
        rcases (s.db p).getChunkLocked cfg tag with e | c | c <;> rfl
      | getMeta rf =>
        rw [call]
        rcases (s.db p).getMetaLocked cfg rf with e | m | m <;> rfl
      | baseManifest => rfl
      | compact now => rw [call, startJob]; split_ifs <;> rfl
      | compactThrough target now => rw [call, startJob]; split_ifs <;> rfl
    · exact absurd hs (by simp)
  | run p =>
    cases moves_of_runThread cfg hs with
    | @getFails target k => cases k <;> rfl
    | @lookup m k =>
      cases k with
      | chunk tag since => rw [resume]; cases m.lookup tag <;> rfl
      | relfork rf since => rfl
      | done => rfl
      | compact job segments toApply => rfl
    | _ => rfl

/-- A thread moves itself only. -/
theorem frame_step [Zero β] {s s' : Shared ι β} {l : Label ι β} {q : ι}
    (hs : s.step cfg l = some s') (hq : q ≠ l.thread) :
    s'.pcs q = s.pcs q ∧ s'.changed q = s.changed q := by
  cases l with
  | call p op =>
    have hgoto : ∀ {f : ι → Pc} {pc : Pc}, Function.update f p pc q = f q := Function.update_of_ne hq ..
    have hchanged : ∀ {f : ι → Bool} {b : Bool}, Function.update f p b q = f q :=
      Function.update_of_ne hq ..
    rw [step] at hs
    split at hs
    · rw [← Option.some.inj hs]
      cases op with
      | patchChunk tag offset data =>
        rw [call]
        cases ((s.db p).patchChunk cfg .ok tag offset data).1 <;> exact ⟨rfl, rfl⟩
      | putMeta rf m => exact ⟨rfl, rfl⟩
      | commit a => exact ⟨rfl, rfl⟩
      | getChunk tag =>
        rw [call]
        rcases (s.db p).getChunkLocked cfg tag with e | c | c <;> exact ⟨hgoto, rfl⟩
      | getMeta rf =>
        rw [call]
        rcases (s.db p).getMetaLocked cfg rf with e | m | m <;> exact ⟨hgoto, rfl⟩
      | baseManifest => exact ⟨hgoto, rfl⟩
      | compact now =>
        rw [call, startJob]
        split_ifs
        · exact ⟨rfl, hchanged⟩
        · exact ⟨hgoto, hchanged⟩
        · exact ⟨rfl, hchanged⟩
        · exact ⟨hgoto, hchanged⟩
      | compactThrough target now =>
        rw [call, startJob]
        split_ifs
        · exact ⟨rfl, hchanged⟩
        · exact ⟨hgoto, hchanged⟩
    · exact absurd hs (by simp)
  | run p =>
    have hgoto : ∀ {f : ι → Pc} {pc : Pc}, Function.update f p pc q = f q := Function.update_of_ne hq ..
    have hchanged : ∀ {f : ι → Bool} {b : Bool}, Function.update f p b q = f q :=
      Function.update_of_ne hq ..
    cases moves_of_runThread cfg hs with
    | @getFails target k => cases k <;> exact ⟨hgoto, rfl⟩
    | @lookup m k =>
      cases k with
      | chunk tag since => rw [resume]; cases m.lookup tag <;> exact ⟨hgoto, rfl⟩
      | relfork rf since => exact ⟨hgoto, rfl⟩
      | done => exact ⟨hgoto, rfl⟩
      | compact job segments toApply => exact ⟨hgoto, rfl⟩
    | writeTikm => exact ⟨hgoto, hchanged⟩
    | put => exact ⟨hgoto, hchanged⟩
    | rename => exact ⟨hgoto, hchanged⟩
    | _ => exact ⟨hgoto, rfl⟩

/-- A fresh state: every thread sees a fresh database and nothing has happened. -/
structure Fresh (s : Shared ι β) : Prop where
  storage : s.storage = ⟨fun _ _ _ => none, fun _ => .empty, fun _ => .empty, fun _ => none⟩
  headCkpt : s.timeline.headCkpt = default
  baseCkpt : s.timeline.baseCkpt = default
  activeCount : s.timeline.activeCount = 0
  draft : s.draft.Clean
  tikm : s.tikm = some .empty
  caches : ∀ p, s.caches p = .empty
  pcs : ∀ p, s.pcs p = .idle
  history : s.history = []
  chunkWrites : s.chunkWrites = []
  metaWrites : s.metaWrites = []
  answers : s.answers = []

/-- The first of two threads. -/
abbrev first : Fin 2 := 0

/-- The second of two threads. -/
abbrev second : Fin 2 := 1

/-- Two processes of one thread each on a fresh database. -/
def pair : Shared (Fin 2) ℕ where
  storage := freshDb.storage
  timeline := freshDb.timeline
  draft := freshDb.draft
  tikm := some .empty
  process p := p
  caches _ := .empty
  pcs _ := .idle
  history := []
  chunkWrites := []
  metaWrites := []
  answers := []
  changed _ := false

theorem fresh_pair : pair.Fresh :=
  ⟨rfl, rfl, rfl, rfl, ⟨rfl, rfl, rfl, rfl⟩, rfl, fun _ => rfl, fun _ => rfl, rfl, rfl, rfl, rfl⟩

end Shared

end Tiko

import Tiko.Store.Run

/-!
# Not found

A read tells a chunk or relation fork that nothing records from one whose record names an object that is
not there by the kind of its error, and both `patch_chunk` take the first kind for zeros. Here the layers
are walked twice: by the code, and by their records alone.

* `getChunkListed`, `getMetaListed`: the reads, with a listing of the segments that was made before;
* `locateChunk`, `locateMeta`: the newest record of the draft, the active window, the listed segments
  between the base and the window, and the base manifest, or the object without which there is no
  telling;
* `HonestChunk`, `HonestMeta`: not found is only said if no layer has a record, and an object that is
  not there gives another error.

The storage's own not found is passed on from every GET, so an object that is not there always makes a
read dishonest: **`honest_iff`**. `lost_objects` has the two kinds of harm, a chunk taken for absent and
an older version of it.
-/

namespace Tiko

open Lib

/-- What a walk over the records of the layers finds. -/
inductive Found (α : Type) where
  /-- No layer has a record. -/
  | nowhere
  /-- The newest record. -/
  | record (a : α)
  /-- The walk needs a segment or base manifest whose object is not there. -/
  | lost
  /-- The walk needs a spill file that cannot be read. -/
  | unreadable
  deriving DecidableEq

namespace Found

variable {α : Type}

/-- The next layer, where this one has no record. -/
def orElse : Found α → Found α → Found α
  | .nowhere, g => g
  | .record a, _ => .record a
  | .lost, _ => .lost
  | .unreadable, _ => .unreadable

/-- A layer that is at hand. -/
def ofOption : Option α → Found α
  | some a => .record a
  | none => .nowhere

@[simp] theorem nowhere_orElse (g : Found α) : nowhere.orElse g = g := rfl

@[simp] theorem record_orElse (a : α) (g : Found α) : (record a).orElse g = .record a := rfl

@[simp] theorem lost_orElse (g : Found α) : lost.orElse g = .lost := rfl

@[simp] theorem unreadable_orElse (g : Found α) : unreadable.orElse g = .unreadable := rfl

end Found

/-- The draft has a record of the chunk, in memory or in its spill file. -/
def DraftBuffer.recordsChunk (codec : FrameCodec) (d : DraftBuffer) (tag : ChunkTag) : Bool :=
  d.chunks.contains tag ||
    d.hasSpilled && match readSpillFile codec true d.file with
      | .ok F => F.containsChunk tag
      | .error _ => false

namespace Db

variable {β : Type} (cfg : StoreConfig)

/-! ## Reads with an earlier listing -/

/-- `Store::read_chunk_from_segments`, after its listing. -/
def readChunkFromListed (s : Db β) (listed : List SegmentId) (tag : ChunkTag)
    (low high : Checkpoint) : Except Error (Option (Chunk β)) :=
  if high ≤ low then .ok none
  else
    s.scanSegments cfg (fun sc =>
      if sc.ckpt < low ∨ high ≤ sc.ckpt then none
      else if sc.containsChunk tag then s.tryReadChunkAt cfg tag sc.prevCkpt else none)
      (listed.filter fun id => id.overlapsRange low high).reverse

/-- `Store::read_relfork_from_segments`, after its listing. -/
def readRelforkFromListed (s : Db β) (listed : List SegmentId) (rf : RelFork)
    (low high : Checkpoint) : Except Error (Option RelForkMeta) :=
  if high < low then .ok none
  else
    s.scanSegments cfg (fun sc =>
      if sc.ckpt < low ∨ high < sc.ckpt then none else sc.relforkMeta rf)
      (listed.filter fun id => id.overlapsRange low high).reverse

/-- `Store::get_chunk`; `listed` is what the listing of the segments returned. -/
def getChunkListed (s : Db β) (listed : List SegmentId) (tag : ChunkTag) :
    Except Error (Chunk β) × Db β :=
  match (if s.draft.containsChunk tag then s.tryReadChunkAt cfg tag s.timeline.headCkpt
      else none) with
  | some c => (.ok c, s)
  | none =>
    match s.probeWindow cfg tag with
    | some c => (.ok c, s)
    | none =>
      match s.readChunkFromListed cfg listed tag s.timeline.baseCkpt s.segTop with
      | .error e => (.error e, s)
      | .ok (some c) => (.ok c, s)
      | .ok none =>
        match s.baseManifest cfg with
        | .error e => (.error e, s)
        | .ok (m, s) =>
          match m.lookup tag with
          | none => (.error .notFound, s)
          | some r =>
            match s.storage.chunks r.dbId r.ckpt tag with
            | some c => (.ok c, s)
            | none => (.error .notFound, s)

/-- The last two layers of `get_meta`, from `top` downwards. -/
def getMetaBelowListed (s : Db β) (listed : List SegmentId) (rf : RelFork) (top : Checkpoint) :
    Except Error RelForkMeta × Db β :=
  match s.readRelforkFromListed cfg listed rf s.timeline.baseCkpt top with
  | .error e => (.error e, s)
  | .ok (some m) => (.ok m, s)
  | .ok none =>
    match s.baseManifest cfg with
    | .error e => (.error e, s)
    | .ok (m, s) =>
      match m.lookupRelforkMeta rf with
      | some md => (.ok md, s)
      | none => (.error .notFound, s)

/-- `Store::get_meta`; `listed` is what the listing of the segments returned. -/
def getMetaListed (s : Db β) (listed : List SegmentId) (rf : RelFork) :
    Except Error RelForkMeta × Db β :=
  match s.draft.getRelfork cfg.codec true rf with
  | .error e => (.error e, s)
  | .ok (some m) => (.ok m, s)
  | .ok none =>
    match walkIndex rf s.timeline.iterActive none with
    | (some m, _) => (.ok m, s)
    | (none, oldest) => s.getMetaBelowListed cfg listed rf (oldest.getD s.timeline.headCkpt)

/-- With a listing of the same moment they are the reads of the store. -/
theorem getChunkListed_listAllSegments (s : Db β) (tag : ChunkTag) :
    s.getChunkListed cfg (s.listAllSegments cfg) tag = s.getChunk cfg tag := rfl

theorem getMetaListed_listAllSegments (s : Db β) (rf : RelFork) :
    s.getMetaListed cfg (s.listAllSegments cfg) rf = s.getMeta cfg rf := rfl

/-! ## The records of the layers -/

/-- The newest record of the listed segments that `f` selects. -/
def scanRecords {γ : Type} (s : Db β) (f : SegmentCheckpoint → Option γ) : List SegmentId → Found γ
  | [] => .nowhere
  | id :: ids =>
    match s.loadSegment cfg id with
    | .error _ => .lost
    | .ok seg =>
      (Found.ofOption (seg.checkpoints.reverse.findSome? f)).orElse (s.scanRecords f ids)

/-- The record of the base manifest that `f` selects. -/
def baseRecord {γ : Type} (s : Db β) (f : Manifest → Option γ) : Found γ :=
  match s.baseManifest cfg with
  | .error _ => .lost
  | .ok (m, _) => .ofOption (f m)

/-- The chunk object that a record names. -/
def namedChunk (tag : ChunkTag) (sc : SegmentCheckpoint) : Option ChunkRef :=
  if sc.containsChunk tag then some (sc.chunkRef cfg.dbId) else none

/-- The newest record of a chunk in the draft. -/
def draftRecord (s : Db β) (tag : ChunkTag) : Option ChunkRef :=
  let head := s.timeline.headCkpt
  if s.draft.recordsChunk cfg.codec tag then some ⟨cfg.dbId, head.timelineId, head.lsn⟩ else none

/-- The newest record of a chunk in the listed segments below the window. -/
def segmentsRecord (s : Db β) (listed : List SegmentId) (tag : ChunkTag) : Found ChunkRef :=
  let low := s.timeline.baseCkpt
  if s.segTop ≤ low then .nowhere
  else
    s.scanRecords cfg
      (fun sc => if sc.ckpt < low ∨ s.segTop ≤ sc.ckpt then none else namedChunk cfg tag sc)
      (listed.filter fun id => id.overlapsRange low s.segTop).reverse

/-- The chunk object that the newest record names; `window` lists the records of the active window,
newest first. -/
def locateChunk (s : Db β) (listed : List SegmentId) (window : List SegmentCheckpoint)
    (tag : ChunkTag) : Found ChunkRef :=
  (Found.ofOption (s.draftRecord cfg tag)).orElse <|
  (Found.ofOption (window.findSome? (namedChunk cfg tag))).orElse <|
  (s.segmentsRecord cfg listed tag).orElse <|
  s.baseRecord cfg fun m => m.lookup tag

/-- How many slots of the window, newest first, have the last word on a relation fork: those before the
first whose index overflowed and gives no answer. -/
def conclusive (rf : RelFork) (acs : List ActiveCheckpoint) : ℕ :=
  (acs.takeWhile fun ac => ac.relforkIndex.get rf ≠ .inconclusive).length

/-- The newest metadata in the listed segments from `top` downwards. -/
def segmentsMeta (s : Db β) (listed : List SegmentId) (rf : RelFork) (top : Checkpoint) :
    Found RelForkMeta :=
  let low := s.timeline.baseCkpt
  if top < low then .nowhere
  else
    s.scanRecords cfg (fun sc => if sc.ckpt < low ∨ top < sc.ckpt then none else sc.relforkMeta rf)
      (listed.filter fun id => id.overlapsRange low top).reverse

/-- The metadata in the draft. -/
def draftMeta (s : Db β) (rf : RelFork) : Found RelForkMeta :=
  match s.draft.getRelfork cfg.codec true rf with
  | .error _ => .unreadable
  | .ok m => .ofOption m

/-- The newest metadata of a relation fork; from a slot that gives no answer on, the records are those
of the segments. -/
def locateMeta (s : Db β) (listed : List SegmentId) (window : List SegmentCheckpoint)
    (rf : RelFork) : Found RelForkMeta :=
  let n := conclusive rf s.timeline.iterActive
  let top := ((window.take (n + 1)).getLast?.map (·.ckpt)).getD s.timeline.headCkpt
  (s.draftMeta cfg rf).orElse <|
  (Found.ofOption ((window.take n).findSome? (·.relforkMeta rf))).orElse <|
  (s.segmentsMeta cfg listed rf top).orElse <|
  s.baseRecord cfg fun m => m.lookupRelforkMeta rf

/-- An object that the walk needs, or that the newest record names, is not there. -/
def ChunkAbsent (s : Db β) (listed : List SegmentId) (window : List SegmentCheckpoint)
    (tag : ChunkTag) : Prop :=
  s.locateChunk cfg listed window tag = .lost ∨
    ∃ r, s.locateChunk cfg listed window tag = .record r ∧ s.storage.chunks r.dbId r.ckpt tag = none

/-- A read of a chunk is honest. -/
def HonestChunk (s : Db β) (listed : List SegmentId) (window : List SegmentCheckpoint)
    (tag : ChunkTag) : Prop :=
  ((s.getChunkListed cfg listed tag).1 = .error .notFound →
    s.locateChunk cfg listed window tag = .nowhere) ∧
  (s.ChunkAbsent cfg listed window tag →
    ∃ e, (s.getChunkListed cfg listed tag).1 = .error e ∧ e.isNotFound = false)

/-- A read of metadata is honest. -/
def HonestMeta (s : Db β) (listed : List SegmentId) (window : List SegmentCheckpoint)
    (rf : RelFork) : Prop :=
  ((s.getMetaListed cfg listed rf).1 = .error .notFound →
    s.locateMeta cfg listed window rf = .nowhere) ∧
  (s.locateMeta cfg listed window rf = .lost →
    ∃ e, (s.getMetaListed cfg listed rf).1 = .error e ∧ e.isNotFound = false)

/-! ## The layers, one by one -/

variable {cfg} {s : Db β}

theorem loadSegment_error {id : SegmentId} {e : Error} (h : s.loadSegment cfg id = .error e) :
    e = .notFound := by
  unfold loadSegment at h
  cases hl : (s.storage.segments cfg.dbId).lookup id with
  | some seg =>
    rw [hl] at h
    exact absurd h (by simp)
  | none =>
    rw [hl] at h
    exact (Except.error.inj h).symm

theorem scanSegments_error {γ : Type} {f : SegmentCheckpoint → Option γ} {ids : List SegmentId}
    {e : Error} (h : s.scanSegments cfg f ids = .error e) : e = .notFound := by
  induction ids with
  | nil => exact absurd h (by simp [scanSegments])
  | cons id ids ih =>
    rw [scanSegments] at h
    cases hl : s.loadSegment cfg id with
    | error e' =>
      rw [hl] at h
      rw [← Except.error.inj h]
      exact loadSegment_error hl
    | ok seg =>
      rw [hl] at h
      dsimp only at h
      cases hf : seg.checkpoints.reverse.findSome? f with
      | some a =>
        rw [hf] at h
        exact absurd h (by simp)
      | none =>
        rw [hf] at h
        exact ih h

theorem baseManifest_error {e : Error} (h : s.baseManifest cfg = .error e) : e = .notFound := by
  unfold baseManifest at h
  dsimp only at h
  split_ifs at h with hc
  cases hl : s.loadManifestAt cfg s.timeline.baseCkpt with
  | ok p =>
    rw [hl] at h
    exact absurd h (by simp)
  | error e' =>
    rw [hl] at h
    obtain rfl := Except.error.inj h
    unfold loadManifestAt at hl
    split_ifs at hl with hd
    cases ht : s.tikm.filter (fun m => m.checkpoint = s.timeline.baseCkpt) with
    | some m =>
      rw [ht] at hl
      exact absurd hl (by simp)
    | none =>
      rw [ht] at hl
      dsimp only at hl
      cases hb : (s.storage.bases cfg.dbId).lookup s.timeline.baseCkpt with
      | some m =>
        rw [hb] at hl
        exact absurd hl (by simp)
      | none =>
        rw [hb] at hl
        exact (Except.error.inj hl).symm

theorem findSome?_bind {α γ δ : Type} {f : α → Option γ} {g : γ → Option δ} (l : List α) :
    (l.findSome? f = none → l.findSome? (fun x => (f x).bind g) = none) ∧
    ∀ a b, l.findSome? f = some a → g a = some b →
      l.findSome? (fun x => (f x).bind g) = some b := by
  induction l with
  | nil => exact ⟨fun _ => rfl, fun a b h => absurd h (by simp)⟩
  | cons x l ih =>
    rw [List.findSome?_cons, List.findSome?_cons]
    cases f x with
    | none => exact ih
    | some c =>
      refine ⟨fun h => absurd h (by simp), fun a b h hg => ?_⟩
      obtain rfl := Option.some.inj h
      rw [Option.bind_some, hg]

theorem storage_baseManifest {m : Manifest} {s' : Db β} (h : s.baseManifest cfg = .ok (m, s')) :
    s'.storage = s.storage := by
  unfold baseManifest at h
  dsimp only at h
  split_ifs at h
  · obtain ⟨-, rfl⟩ := Prod.mk.inj (Except.ok.inj h)
    rfl
  · cases hl : s.loadManifestAt cfg s.timeline.baseCkpt with
    | error e =>
      rw [hl] at h
      exact absurd h (by simp)
    | ok p =>
      rw [hl] at h
      obtain ⟨-, rfl⟩ := Prod.mk.inj (Except.ok.inj h)
      unfold loadManifestAt at hl
      split_ifs at hl
      · rw [← Except.ok.inj hl]
      · split at hl
        · rw [← Except.ok.inj hl]
        · split at hl
          · exact absurd hl (by simp)
          · rw [← Except.ok.inj hl]

/-- What the walk over the segments returns, by what their records say. `g` is what the code does with
the record that `f` selects. -/
theorem scanSegments_of_scanRecords {γ δ : Type} {f : SegmentCheckpoint → Option γ}
    {g : γ → Option δ} (ids : List SegmentId) :
    (s.scanRecords cfg f ids = .nowhere →
      s.scanSegments cfg (fun sc => (f sc).bind g) ids = .ok none) ∧
    (∀ a b, s.scanRecords cfg f ids = .record a → g a = some b →
      s.scanSegments cfg (fun sc => (f sc).bind g) ids = .ok (some b)) ∧
    (s.scanRecords cfg f ids = .lost →
      s.scanSegments cfg (fun sc => (f sc).bind g) ids = .error .notFound) := by
  induction ids with
  | nil =>
    rw [scanRecords]
    exact ⟨fun _ => rfl, fun a b h => absurd h (by simp), fun h => absurd h (by simp)⟩
  | cons id ids ih =>
    rw [scanRecords, scanSegments]
    cases hl : s.loadSegment cfg id with
    | error e =>
      obtain rfl := loadSegment_error hl
      exact ⟨fun h => absurd h (by simp), fun a b h => absurd h (by simp), fun _ => rfl⟩
    | ok seg =>
      dsimp only
      obtain ⟨hnone, hsome⟩ := findSome?_bind (f := f) (g := g) seg.checkpoints.reverse
      cases hf : seg.checkpoints.reverse.findSome? f with
      | none =>
        rw [hnone hf]
        exact ih
      | some c =>
        refine ⟨fun h => absurd h (by simp [Found.ofOption]), fun a b h hg => ?_,
          fun h => absurd h (by simp [Found.ofOption])⟩
        have hca : c = a := by simpa [Found.ofOption] using h
        rw [hsome c b hf (hca ▸ hg)]

/-- The case in which the code returns the record. -/
theorem scanSegments_of_scanRecords_some {γ : Type} {f : SegmentCheckpoint → Option γ}
    (ids : List SegmentId) :
    (s.scanRecords cfg f ids = .nowhere → s.scanSegments cfg f ids = .ok none) ∧
    (∀ a, s.scanRecords cfg f ids = .record a → s.scanSegments cfg f ids = .ok (some a)) ∧
    (s.scanRecords cfg f ids = .lost → s.scanSegments cfg f ids = .error .notFound) := by
  obtain ⟨hnone, hsome, hlost⟩ := @scanSegments_of_scanRecords β cfg s γ γ f some ids
  simp only [Option.bind_fun_some] at hnone hsome hlost
  exact ⟨hnone, fun a h => hsome a a h rfl, hlost⟩

theorem conclusive_cons (rf : RelFork) (ac : ActiveCheckpoint) (acs : List ActiveCheckpoint) :
    conclusive rf (ac :: acs) =
      if ac.relforkIndex.get rf ≠ .inconclusive then conclusive rf acs + 1 else 0 := by
  unfold conclusive
  rw [List.takeWhile_cons]
  by_cases h : ac.relforkIndex.get rf = .inconclusive
  · simp [h]
  · simp [h]

/-- **The walk over the indexes returns the newest record of the slots that have the last word**, and
stops at the first one that does not. -/
theorem walkIndex_eq (rf : RelFork) {acs : List ActiveCheckpoint} {window : List SegmentCheckpoint}
    (hw : List.Forall₂ ActiveCheckpoint.Mirrors acs window) (oldest : Option Checkpoint) :
    (walkIndex rf acs oldest).1 = (window.take (conclusive rf acs)).findSome? (·.relforkMeta rf) ∧
    ((walkIndex rf acs oldest).1 = none → (walkIndex rf acs oldest).2 =
      ((window.take (conclusive rf acs + 1)).getLast?.map (·.ckpt)).or oldest) := by
  induction hw generalizing oldest with
  | nil => exact ⟨rfl, fun _ => rfl⟩
  | @cons ac sc acs window hac _ ih =>
    have hindex := hac.index rf
    rw [walkIndex, conclusive_cons]
    cases hg : ac.relforkIndex.get rf with
    | hit m =>
      rw [hg] at hindex
      refine ⟨?_, fun h => absurd h (by simp)⟩
      rw [if_pos (by simp), List.take_succ_cons, List.findSome?_cons, SegmentCheckpoint.relforkMeta,
        hindex]
    | definitiveMiss =>
      rw [hg] at hindex
      have hnone : sc.relforkMeta rf = none := hindex
      obtain ⟨h1, h2⟩ := ih (some ac.ckpt)
      rw [if_pos (by simp)]
      constructor
      · rw [List.take_succ_cons, List.findSome?_cons, hnone]
        exact h1
      · intro h
        dsimp only
        rw [h2 h, List.take_succ_cons]
        -- the oldest slot passed is this one, or a later one
        cases hl : window.take (conclusive rf acs + 1) with
        | nil => simp [hac.ckpt_eq]
        | cons y ys =>
          obtain ⟨z, hz⟩ := Option.isSome_iff_exists.mp
            (List.getLast?_isSome.mpr (List.cons_ne_nil y ys))
          rw [List.getLast?_cons_cons, hz]
          rfl
    | inconclusive =>
      refine ⟨?_, fun _ => ?_⟩
      · simp
      · simp [hac.ckpt_eq]

theorem containsChunk_of_recordsChunk {codec : FrameCodec} {d : DraftBuffer} {tag : ChunkTag}
    (h : d.recordsChunk codec tag = true) : d.containsChunk tag = true := by
  unfold DraftBuffer.recordsChunk at h
  unfold DraftBuffer.containsChunk
  split_ifs with hc
  · rfl
  · simp only [hc, Bool.false_or, Bool.and_eq_true] at h
    exact h.1

/-- The object that a record of this database names. -/
theorem chunks_chunkRef (sc : SegmentCheckpoint) (tag : ChunkTag) :
    s.storage.chunks (sc.chunkRef cfg.dbId).dbId (sc.chunkRef cfg.dbId).ckpt tag =
      s.tryReadChunkAt cfg tag sc.prevCkpt := rfl

theorem eq_chunkRef_of_namedChunk {tag : ChunkTag} {sc : SegmentCheckpoint} {r : ChunkRef}
    (h : namedChunk cfg tag sc = some r) :
    sc.containsChunk tag = true ∧ sc.chunkRef cfg.dbId = r := by
  unfold namedChunk at h
  split_ifs at h with hc
  exact ⟨hc, Option.some.inj h⟩

/-- The probe of the head finds what the draft records. -/
theorem probeHead_isSome {tag : ChunkTag} {r : ChunkRef} (h : s.draftRecord cfg tag = some r)
    (hobj : (s.storage.chunks r.dbId r.ckpt tag).isSome) :
    (if s.draft.containsChunk tag then s.tryReadChunkAt cfg tag s.timeline.headCkpt
      else none).isSome := by
  unfold draftRecord at h
  dsimp only at h
  split_ifs at h with hc
  obtain rfl := Option.some.inj h
  rw [if_pos (containsChunk_of_recordsChunk hc)]
  exact hobj

/-- The probe of the window finds what a slot's record has. -/
theorem probeWindow_isSome {window : List SegmentCheckpoint} {tag : ChunkTag} {r : ChunkRef}
    {acs : List ActiveCheckpoint} (hw : List.Forall₂ ActiveCheckpoint.Mirrors acs window)
    (h : window.findSome? (namedChunk cfg tag) = some r)
    (hobj : (s.storage.chunks r.dbId r.ckpt tag).isSome) :
    (acs.findSome? fun ac => if ac.chunkBloom.maybeContains tag then
      s.tryReadChunkAt cfg tag ac.prevCkpt else none).isSome := by
  induction hw with
  | nil => exact absurd h (by simp)
  | @cons ac sc acs window hac _ ih =>
    rw [List.findSome?_cons] at h ⊢
    cases hn : namedChunk cfg tag sc with
    | some r' =>
      obtain ⟨hc, rfl⟩ := eq_chunkRef_of_namedChunk hn
      rw [hn] at h
      obtain rfl := Option.some.inj h
      rw [chunks_chunkRef] at hobj
      obtain ⟨c, hobj⟩ := Option.isSome_iff_exists.mp hobj
      rw [if_pos (hac.bloom tag hc), hac.prevCkpt_eq, hobj]
      rfl
    | none =>
      rw [hn] at h
      split
      · rfl
      · exact ih h

/-- What the code does with a record of a segment. -/
theorem namedChunk_bind (tag : ChunkTag) (sc : SegmentCheckpoint) :
    (namedChunk cfg tag sc).bind (fun r => s.storage.chunks r.dbId r.ckpt tag) =
      if sc.containsChunk tag then s.tryReadChunkAt cfg tag sc.prevCkpt else none := by
  unfold namedChunk
  split_ifs
  · rw [Option.bind_some, chunks_chunkRef]
  · rfl

theorem readChunkFromListed_of_segmentsRecord (listed : List SegmentId) (tag : ChunkTag) :
    (s.segmentsRecord cfg listed tag = .nowhere →
      s.readChunkFromListed cfg listed tag s.timeline.baseCkpt s.segTop = .ok none) ∧
    ∀ r c, s.segmentsRecord cfg listed tag = .record r →
      s.storage.chunks r.dbId r.ckpt tag = some c →
      s.readChunkFromListed cfg listed tag s.timeline.baseCkpt s.segTop = .ok (some c) := by
  unfold segmentsRecord readChunkFromListed
  dsimp only
  split_ifs with hle
  · exact ⟨fun _ => rfl, fun r c h => absurd h (by simp)⟩
  · have hcode : (fun sc : SegmentCheckpoint =>
        if sc.ckpt < s.timeline.baseCkpt ∨ s.segTop ≤ sc.ckpt then none
        else if sc.containsChunk tag then s.tryReadChunkAt cfg tag sc.prevCkpt else none) =
        fun sc => (if sc.ckpt < s.timeline.baseCkpt ∨ s.segTop ≤ sc.ckpt then none
          else namedChunk cfg tag sc).bind fun r => s.storage.chunks r.dbId r.ckpt tag := by
      funext sc
      split_ifs with hr hc
      · rfl
      · rw [namedChunk_bind, if_pos hc]
      · rw [namedChunk_bind, if_neg hc]
    rw [hcode]
    exact ⟨(scanSegments_of_scanRecords _).1, (scanSegments_of_scanRecords _).2.1⟩

/-- **A record whose object is there is found**, or hidden by an object that no record names. -/
theorem getChunkListed_of_record {listed : List SegmentId} {window : List SegmentCheckpoint}
    {tag : ChunkTag} {r : ChunkRef}
    (hw : List.Forall₂ ActiveCheckpoint.Mirrors s.timeline.iterActive window)
    (h : s.locateChunk cfg listed window tag = .record r)
    (hobj : (s.storage.chunks r.dbId r.ckpt tag).isSome) :
    ∃ c, (s.getChunkListed cfg listed tag).1 = .ok c := by
  unfold locateChunk at h
  unfold getChunkListed
  cases hd : (if s.draft.containsChunk tag then s.tryReadChunkAt cfg tag s.timeline.headCkpt
      else none) with
  | some c => exact ⟨c, rfl⟩
  | none =>
    -- what the probe of a layer does not find, the layer does not record
    cases hdr : s.draftRecord cfg tag with
    | some r' =>
      rw [hdr] at h
      obtain rfl := Found.record.inj h
      have hsome := probeHead_isSome hdr hobj
      rw [hd] at hsome
      exact absurd hsome (by simp)
    | none =>
      rw [hdr] at h
      replace h : (Found.ofOption (window.findSome? (namedChunk cfg tag))).orElse
        ((s.segmentsRecord cfg listed tag).orElse (s.baseRecord cfg fun m => m.lookup tag)) =
          .record r := h
      dsimp only
      cases hp : s.probeWindow cfg tag with
      | some c => exact ⟨c, rfl⟩
      | none =>
        cases hwr : window.findSome? (namedChunk cfg tag) with
        | some r' =>
          rw [hwr] at h
          obtain rfl := Found.record.inj h
          have hsome := probeWindow_isSome (s := s) hw hwr hobj
          unfold probeWindow at hp
          rw [hp] at hsome
          exact absurd hsome (by simp)
        | none =>
          rw [hwr] at h
          replace h : (s.segmentsRecord cfg listed tag).orElse
            (s.baseRecord cfg fun m => m.lookup tag) = .record r := h
          obtain ⟨hnone, hsome⟩ := readChunkFromListed_of_segmentsRecord (s := s) listed tag
          obtain ⟨c, hobj⟩ := Option.isSome_iff_exists.mp hobj
          dsimp only
          cases hsr : s.segmentsRecord cfg listed tag with
          | record r' =>
            rw [hsr] at h
            obtain rfl := Found.record.inj h
            rw [hsome r' c hsr hobj]
            exact ⟨c, rfl⟩
          | lost => exact absurd h (by simp [hsr])
          | unreadable => exact absurd h (by simp [hsr])
          | nowhere =>
            rw [hnone hsr]
            rw [hsr, Found.nowhere_orElse, baseRecord] at h
            dsimp only
            cases hb : s.baseManifest cfg with
            | error e => exact absurd h (by simp [hb])
            | ok p =>
              obtain ⟨m, s'⟩ := p
              rw [hb] at h
              dsimp only at h ⊢
              cases hl : m.lookup tag with
              | none => exact absurd h (by simp [hl, Found.ofOption])
              | some r' =>
                rw [hl] at h
                obtain rfl := Found.record.inj h
                dsimp only
                rw [storage_baseManifest hb, hobj]
                exact ⟨c, rfl⟩

/-! ## Honest reads -/

/-- Every error of a read of a chunk is not found. -/
theorem getChunkListed_error {listed : List SegmentId} {tag : ChunkTag} {e : Error}
    (h : (s.getChunkListed cfg listed tag).1 = .error e) : e = .notFound := by
  unfold getChunkListed at h
  split at h
  · exact absurd h (by simp)
  · split at h
    · exact absurd h (by simp)
    · unfold readChunkFromListed at h
      split at h
      · rename_i e' hs
        split_ifs at hs
        rw [← Except.error.inj h]
        exact scanSegments_error hs
      · exact absurd h (by simp)
      · split at h
        · rename_i e' hb
          rw [← Except.error.inj h]
          exact baseManifest_error hb
        · split at h
          · exact (Except.error.inj h).symm
          · split at h
            · exact absurd h (by simp)
            · exact (Except.error.inj h).symm

theorem orElse_ne_unreadable {γ : Type} {f g : Found γ} (hf : f ≠ .unreadable)
    (hg : g ≠ .unreadable) : f.orElse g ≠ .unreadable := by
  cases f with
  | nowhere => exact hg
  | record a => simp
  | lost => simp
  | unreadable => exact absurd rfl hf

theorem ofOption_ne_unreadable {γ : Type} (o : Option γ) : Found.ofOption o ≠ .unreadable := by
  cases o <;> simp [Found.ofOption]

theorem baseRecord_ne_unreadable {γ : Type} (f : Manifest → Option γ) :
    s.baseRecord cfg f ≠ .unreadable := by
  unfold baseRecord
  split
  · simp
  · exact ofOption_ne_unreadable _

theorem scanRecords_ne_unreadable {γ : Type} (f : SegmentCheckpoint → Option γ)
    (ids : List SegmentId) : s.scanRecords cfg f ids ≠ .unreadable := by
  induction ids with
  | nil => simp [scanRecords]
  | cons id ids ih =>
    rw [scanRecords]
    split
    · simp
    · exact orElse_ne_unreadable (ofOption_ne_unreadable _) ih

theorem locateChunk_ne_unreadable (listed : List SegmentId) (window : List SegmentCheckpoint)
    (tag : ChunkTag) : s.locateChunk cfg listed window tag ≠ .unreadable := by
  refine orElse_ne_unreadable (ofOption_ne_unreadable _)
    (orElse_ne_unreadable (ofOption_ne_unreadable _)
      (orElse_ne_unreadable ?_ (baseRecord_ne_unreadable _)))
  unfold segmentsRecord
  dsimp only
  split_ifs
  · simp
  · exact scanRecords_ne_unreadable _ _

/-- **A read of a chunk is honest if and only if no object is missing.** -/
theorem honestChunk_iff {listed : List SegmentId} {window : List SegmentCheckpoint} {tag : ChunkTag}
    (hw : List.Forall₂ ActiveCheckpoint.Mirrors s.timeline.iterActive window) :
    s.HonestChunk cfg listed window tag ↔ ¬ s.ChunkAbsent cfg listed window tag := by
  constructor
  · rintro ⟨-, hlost⟩ habsent
    obtain ⟨e, he, hkind⟩ := hlost habsent
    rw [getChunkListed_error he] at hkind
    exact absurd hkind (by decide)
  · intro hpresent
    refine ⟨fun hnf => ?_, fun h => absurd h hpresent⟩
    cases hl : s.locateChunk cfg listed window tag with
    | nowhere => rfl
    | lost => exact absurd (.inl hl) hpresent
    | unreadable => exact absurd hl (locateChunk_ne_unreadable listed window tag)
    | record r =>
      have hobj : (s.storage.chunks r.dbId r.ckpt tag).isSome := by
        rw [Option.isSome_iff_ne_none]
        exact fun hnone => hpresent (.inr ⟨r, hl, hnone⟩)
      obtain ⟨c, hc⟩ := getChunkListed_of_record hw hl hobj
      rw [hc] at hnf
      exact absurd hnf (by simp)

/-! ## Metadata -/

theorem readFrames_error {codec : FrameCodec} (hcodec : ∀ b, codec.decode b ≠ .error .notFound)
    (fuel : ℕ) (bs : Bytes) (merged : DraftFrame) :
    readFrames codec fuel bs merged ≠ .error .notFound := by
  induction fuel generalizing bs merged with
  | zero => simp [readFrames]
  | succ fuel ih =>
    rw [readFrames]
    split_ifs
    · simp
    · simp
    · dsimp only
      split_ifs
      · simp
      · split
        · rename_i e he
          intro h
          exact hcodec _ (he.trans h)
        · exact ih _ _

/-- A spill file that cannot be read is not reported as not found. -/
theorem getRelfork_error {codec : FrameCodec} (hcodec : ∀ b, codec.decode b ≠ .error .notFound)
    {d : DraftBuffer} {rf : RelFork} : d.getRelfork codec true rf ≠ .error .notFound := by
  unfold DraftBuffer.getRelfork
  split
  · simp
  · split_ifs
    · simp
    · unfold readSpillFile
      rw [if_pos rfl]
      split
      · simp [Except.map]
      · rename_i bs _
        cases hr : readFrames codec (bs.length + 1) bs .empty with
        | ok F => simp [Except.map]
        | error e =>
          intro h
          rw [Except.map, Except.error.injEq] at h
          exact readFrames_error hcodec _ _ _ (hr.trans (congrArg Except.error h))

theorem readRelforkFromListed_of_segmentsMeta (listed : List SegmentId) (rf : RelFork)
    (top : Checkpoint) :
    (s.segmentsMeta cfg listed rf top = .nowhere →
      s.readRelforkFromListed cfg listed rf s.timeline.baseCkpt top = .ok none) ∧
    (∀ m, s.segmentsMeta cfg listed rf top = .record m →
      s.readRelforkFromListed cfg listed rf s.timeline.baseCkpt top = .ok (some m)) ∧
    (s.segmentsMeta cfg listed rf top = .lost →
      s.readRelforkFromListed cfg listed rf s.timeline.baseCkpt top = .error .notFound) := by
  unfold segmentsMeta readRelforkFromListed
  dsimp only
  split_ifs with hlt
  · exact ⟨fun _ => rfl, fun m h => absurd h (by simp), fun h => absurd h (by simp)⟩
  · exact scanSegments_of_scanRecords_some _

theorem segmentsMeta_ne_unreadable (listed : List SegmentId) (rf : RelFork) (top : Checkpoint) :
    s.segmentsMeta cfg listed rf top ≠ .unreadable := by
  unfold segmentsMeta
  dsimp only
  split_ifs
  · simp
  · exact scanRecords_ne_unreadable _ _

/-- The last two layers of a read of metadata, by their records. -/
theorem getMetaBelowListed_of_records (listed : List SegmentId) (rf : RelFork) (top : Checkpoint) :
    (∀ m, ((s.segmentsMeta cfg listed rf top).orElse
      (s.baseRecord cfg fun m => m.lookupRelforkMeta rf)) = .record m →
      (s.getMetaBelowListed cfg listed rf top).1 = .ok m) ∧
    (((s.segmentsMeta cfg listed rf top).orElse
      (s.baseRecord cfg fun m => m.lookupRelforkMeta rf)) = .lost →
      (s.getMetaBelowListed cfg listed rf top).1 = .error .notFound) := by
  obtain ⟨hnone, hsome, hlost⟩ := readRelforkFromListed_of_segmentsMeta (s := s) listed rf top
  unfold getMetaBelowListed
  cases hsr : s.segmentsMeta cfg listed rf top with
  | record m =>
    rw [hsome m hsr]
    exact ⟨fun m' h => congrArg Except.ok (Found.record.inj h), fun h => absurd h (by simp)⟩
  | lost =>
    rw [hlost hsr]
    exact ⟨fun m' h => absurd h (by simp), fun _ => rfl⟩
  | unreadable => exact ⟨fun m' h => absurd h (by simp), fun h => absurd h (by simp)⟩
  | nowhere =>
    rw [hnone hsr, Found.nowhere_orElse, baseRecord]
    dsimp only
    cases hb : s.baseManifest cfg with
    | error e =>
      obtain rfl := baseManifest_error hb
      exact ⟨fun m' h => absurd h (by simp), fun _ => rfl⟩
    | ok p =>
      obtain ⟨m, s'⟩ := p
      dsimp only
      cases hm : m.lookupRelforkMeta rf with
      | none => exact ⟨fun m' h => absurd h (by simp [Found.ofOption]),
          fun h => absurd h (by simp [Found.ofOption])⟩
      | some md => exact ⟨fun m' h => congrArg Except.ok (Found.record.inj h),
          fun h => absurd h (by simp [Found.ofOption])⟩

/-- **What a read of metadata returns, by the records of the layers.** -/
theorem getMetaListed_of_locateMeta {listed : List SegmentId} {window : List SegmentCheckpoint}
    {rf : RelFork} (hw : List.Forall₂ ActiveCheckpoint.Mirrors s.timeline.iterActive window) :
    (∀ m, s.locateMeta cfg listed window rf = .record m →
      (s.getMetaListed cfg listed rf).1 = .ok m) ∧
    (s.locateMeta cfg listed window rf = .lost →
      (s.getMetaListed cfg listed rf).1 = .error .notFound) ∧
    (s.locateMeta cfg listed window rf = .unreadable →
      ∃ e, s.draft.getRelfork cfg.codec true rf = .error e ∧
        (s.getMetaListed cfg listed rf).1 = .error e) := by
  obtain ⟨hwalk, holdest⟩ := walkIndex_eq rf hw none
  unfold locateMeta getMetaListed draftMeta
  dsimp only
  cases hd : s.draft.getRelfork cfg.codec true rf with
  | error e => exact ⟨fun m h => absurd h (by simp), fun h => absurd h (by simp),
      fun _ => ⟨e, rfl, rfl⟩⟩
  | ok o =>
    cases o with
    | some m' => exact ⟨fun m h => congrArg Except.ok (Found.record.inj h),
        fun h => absurd h (by simp [Found.ofOption]), fun h => absurd h (by simp [Found.ofOption])⟩
    | none =>
      cases hi : walkIndex rf s.timeline.iterActive none with
      | mk o oldest =>
        rw [hi] at hwalk holdest
        rw [← hwalk]
        cases o with
        | some m' => exact ⟨fun m h => congrArg Except.ok (Found.record.inj h),
            fun h => absurd h (by simp [Found.ofOption]),
            fun h => absurd h (by simp [Found.ofOption])⟩
        | none =>
          have htop := holdest rfl
          rw [Option.or_none] at htop
          obtain ⟨hrecord, hlost⟩ := getMetaBelowListed_of_records (s := s) listed rf
            (oldest.getD s.timeline.headCkpt)
          dsimp only at htop ⊢
          rw [← htop]
          refine ⟨hrecord, hlost, fun h => ?_⟩
          have hbelow : ((s.segmentsMeta cfg listed rf (oldest.getD s.timeline.headCkpt)).orElse
              (s.baseRecord cfg fun m => m.lookupRelforkMeta rf)) = .unreadable := h
          exact absurd hbelow (orElse_ne_unreadable (segmentsMeta_ne_unreadable _ _ _)
            (baseRecord_ne_unreadable _))

/-- **A read of metadata is honest if and only if no object is missing.** -/
theorem honestMeta_iff (hcodec : ∀ b, cfg.codec.decode b ≠ .error .notFound)
    {listed : List SegmentId} {window : List SegmentCheckpoint} {rf : RelFork}
    (hw : List.Forall₂ ActiveCheckpoint.Mirrors s.timeline.iterActive window) :
    s.HonestMeta cfg listed window rf ↔ s.locateMeta cfg listed window rf ≠ .lost := by
  obtain ⟨hrecord, hlost, hunreadable⟩ := @getMetaListed_of_locateMeta β cfg s listed window rf hw
  constructor
  · rintro ⟨-, hother⟩ hl
    obtain ⟨e, he, hkind⟩ := hother hl
    rw [hlost hl] at he
    rw [← Except.error.inj he] at hkind
    exact absurd hkind (by decide)
  · intro hpresent
    refine ⟨fun hnf => ?_, fun h => absurd h hpresent⟩
    cases hl : s.locateMeta cfg listed window rf with
    | nowhere => rfl
    | lost => exact absurd hl hpresent
    | record m =>
      rw [hrecord m hl] at hnf
      exact absurd hnf (by simp)
    | unreadable =>
      obtain ⟨e, he, hread⟩ := hunreadable hl
      rw [hread] at hnf
      rw [Except.error.inj hnf] at he
      exact absurd he (getRelfork_error hcodec)

/-- **Reads are honest if and only if no object is missing**: of a chunk, if the segments and the base
manifest that its walk needs are there and so is the object that the newest record names; of metadata,
if those segments and the base manifest are there. -/
theorem honest_iff (cfg : StoreConfig) (hcodec : ∀ b, cfg.codec.decode b ≠ .error .notFound)
    (s : Db β) (listed : List SegmentId) (window : List SegmentCheckpoint)
    (hw : List.Forall₂ ActiveCheckpoint.Mirrors s.timeline.iterActive window) (tag : ChunkTag)
    (rf : RelFork) :
    (s.HonestChunk cfg listed window tag ↔ ¬ s.ChunkAbsent cfg listed window tag) ∧
    (s.HonestMeta cfg listed window rf ↔ s.locateMeta cfg listed window rf ≠ .lost) :=
  ⟨honestChunk_iff hw, honestMeta_iff hcodec hw⟩

theorem decode_msgpack_ne_notFound (b : Bytes) : msgpack.decode b ≠ .error .notFound := by
  change decodeFrame b ≠ _
  unfold decodeFrame
  split <;> simp

/-- A base manifest with one chunk. -/
def olderManifest : Manifest :=
  { Manifest.empty with
    checkpoint := ⟨1, 100⟩
    chunks := SortedMap.empty.insert Manifest.exampleTag ⟨7, 1, 50⟩ }

/-- Chunks of one relation fork. -/
def layerTag (i : UInt32) : ChunkTag := { Manifest.exampleTag with chunkId := i }

/-- The record of a checkpoint that patched one chunk. -/
def layerRecord (lsn prevLsn : UInt64) (i : UInt32) (relforks : SortedMap RelFork RelForkMeta) :
    SegmentCheckpoint :=
  ⟨⟨1, lsn⟩, ⟨1, prevLsn⟩, ⟨1, lsn - 10⟩, SortedMap.empty.insert (layerTag i) (), relforks, [], 0⟩

def listedRecord : SegmentCheckpoint :=
  layerRecord 150 100 1 (SortedMap.empty.insert Manifest.exampleTag.relFork ⟨64, false⟩)

def windowRecord : SegmentCheckpoint := layerRecord 200 150 2 .empty

/-- A database with chunk 0 in the base manifest, chunk 1 in a segment below the window, chunk 2 in the
window and chunk 3 in the draft; `lost` tells under which prefixes the objects of the first three are
missing. -/
def layeredDb (lost : Checkpoint → Bool) : Db ℕ :=
  let id := listedRecord.ckpt.toSegmentId
  Db.putChunkAtHead exampleConfig .ok
    { freshDb with
      storage := { freshDb.storage.putSegment 7 id ⟨id, [listedRecord, windowRecord]⟩ with
        chunks := fun _ c _ => if lost c then none else some (.ofBlocks [c.lsn.toNat]) }
      timeline := (freshDb.timeline.setBaseCkpt ⟨1, 100⟩).pushActive windowRecord.ckpt
        windowRecord.prevCkpt windowRecord.chunks windowRecord.relforks
      manifest := olderManifest }
    (layerTag 3) (.ofBlocks [200])

theorem mirrors_layeredDb (lost : Checkpoint → Bool) :
    List.Forall₂ ActiveCheckpoint.Mirrors (layeredDb lost).timeline.iterActive [windowRecord] := by
  have hnil : (freshDb.timeline.setBaseCkpt ⟨1, 100⟩).iterActive = [] := rfl
  have hwindow := TimelineState.iterActive_pushActive (freshDb.timeline.setBaseCkpt ⟨1, 100⟩)
    windowRecord.ckpt windowRecord.prevCkpt windowRecord.chunks windowRecord.relforks
  rw [hnil, List.take_nil] at hwindow
  change List.Forall₂ _ (TimelineState.iterActive (TimelineState.pushActive _ _ _ _ _)) _
  rw [hwindow]
  exact .cons (ActiveCheckpoint.mirrors_populate _ _) .nil

theorem not_chunkAbsent {s : Db β} {listed : List SegmentId} {window : List SegmentCheckpoint}
    {tag : ChunkTag} {r : ChunkRef} (hr : s.locateChunk cfg listed window tag = .record r)
    (hc : (s.storage.chunks r.dbId r.ckpt tag).isSome = true) : ¬ s.ChunkAbsent cfg listed window tag := by
  rintro (hlost | ⟨r', hr', hnone⟩)
  · rw [hr] at hlost
    cases hlost
  · rw [hr] at hr'
    cases hr'
    rw [hnone] at hc
    cases hc

/-- The reads of all layers, and of the segment when its version is missing. -/
theorem honest_layeredDb :
    let listed := [listedRecord.ckpt.toSegmentId]
    (∀ i ∈ [0, 1, 2, 3],
      (layeredDb fun _ => false).HonestChunk exampleConfig listed [windowRecord] (layerTag i)) ∧
    (layeredDb fun _ => false).HonestMeta exampleConfig listed [windowRecord]
      Manifest.exampleTag.relFork ∧
    ¬ (layeredDb fun c => c = ⟨1, 100⟩).HonestChunk exampleConfig listed [windowRecord] (layerTag 1) := by
  intro listed
  have hiff := fun lost tag => honest_iff exampleConfig decode_msgpack_ne_notFound (layeredDb lost) listed
    [windowRecord] (mirrors_layeredDb lost) tag Manifest.exampleTag.relFork
  refine ⟨fun i hi => ((hiff _ _).1).mpr ?_, ((hiff _ (layerTag 0)).2).mpr (by decide +kernel), ?_⟩
  · simp only [List.mem_cons, List.not_mem_nil, or_false] at hi
    rcases hi with rfl | rfl | rfl | rfl
    · exact not_chunkAbsent (r := ⟨7, 1, 50⟩) (by decide +kernel) rfl
    · exact not_chunkAbsent (r := ⟨7, 1, 100⟩) (by decide +kernel) rfl
    · exact not_chunkAbsent (r := ⟨7, 1, 150⟩) (by decide +kernel) rfl
    · exact not_chunkAbsent (r := ⟨7, 1, 200⟩) (by decide +kernel) rfl
  · rw [(hiff _ _).1, not_not]
    exact .inr ⟨⟨7, 1, 100⟩, by decide +kernel, rfl⟩

/-! ## Lost objects -/

/-- A checkpoint that patched one chunk of one relation fork. -/
def patchedRecord : SegmentCheckpoint :=
  ⟨⟨1, 200⟩, ⟨1, 100⟩, ⟨1, 190⟩, SortedMap.empty.insert Manifest.exampleTag (),
    SortedMap.empty.insert Manifest.exampleTag.relFork ⟨1, false⟩, [], 0⟩

/-- The database after that checkpoint, with the object of the newer version lost; `older` is the object
of the older one. -/
def lostDb (older : Option (Chunk ℕ)) : Db ℕ :=
  { freshDb with
    storage := { freshDb.storage with chunks := fun _ c _ => if c = ⟨1, 50⟩ then older else none }
    timeline := (freshDb.timeline.setBaseCkpt ⟨1, 100⟩).pushActive patchedRecord.ckpt
      patchedRecord.prevCkpt patchedRecord.chunks patchedRecord.relforks
    manifest := olderManifest }

theorem mirrors_lostDb (older : Option (Chunk ℕ)) :
    List.Forall₂ ActiveCheckpoint.Mirrors (lostDb older).timeline.iterActive [patchedRecord] := by
  have hnil : (freshDb.timeline.setBaseCkpt ⟨1, 100⟩).iterActive = [] := rfl
  have hwindow := TimelineState.iterActive_pushActive (freshDb.timeline.setBaseCkpt ⟨1, 100⟩)
    patchedRecord.ckpt patchedRecord.prevCkpt patchedRecord.chunks patchedRecord.relforks
  rw [hnil, List.take_nil] at hwindow
  unfold lostDb
  dsimp only
  rw [hwindow]
  exact .cons (ActiveCheckpoint.mirrors_populate _ _) .nil

theorem locateChunk_lostDb (older : Option (Chunk ℕ)) :
    (lostDb older).locateChunk exampleConfig [] [patchedRecord] Manifest.exampleTag =
      .record ⟨7, 1, 100⟩ :=
  rfl

/-- A database whose base manifest is not at hand. -/
def unbasedDb : Db ℕ := { freshDb with timeline := freshDb.timeline.setBaseCkpt ⟨1, 100⟩ }

theorem getRelfork_unbasedDb (rf : RelFork) :
    unbasedDb.draft.getRelfork msgpack true rf = .ok none := by
  have hget : RelforkZone.get unbasedDb.draft.relforks rf = none := ProbeTable.lookup_empty rf
  unfold DraftBuffer.getRelfork
  rw [hget]
  rfl

theorem getMeta_unbasedDb (rf : RelFork) :
    (unbasedDb.getMeta exampleConfig rf).1 = .error .notFound := by
  unfold getMeta
  rw [show exampleConfig.codec = msgpack from rfl, getRelfork_unbasedDb]
  rfl

theorem locateMeta_unbasedDb (rf : RelFork) :
    unbasedDb.locateMeta exampleConfig [] [] rf = .lost := by
  unfold locateMeta draftMeta
  rw [show exampleConfig.codec = msgpack from rfl, getRelfork_unbasedDb]
  rfl

/-- **What a lost object does.** A chunk is taken for absent, or an older version of it is returned, and
the metadata below a lost base manifest is taken for absent. -/
theorem lost_objects :
    ((lostDb none).getChunk exampleConfig Manifest.exampleTag).1 = .error .notFound ∧
    ¬ (lostDb none).HonestChunk exampleConfig [] [patchedRecord] Manifest.exampleTag ∧
    ((lostDb (some (.ofBlocks [7]))).getChunk exampleConfig Manifest.exampleTag).1 =
      .ok (.ofBlocks [7]) ∧
    ¬ (lostDb (some (.ofBlocks [7]))).HonestChunk exampleConfig [] [patchedRecord]
      Manifest.exampleTag ∧
    (unbasedDb.getMeta exampleConfig Manifest.exampleTag.relFork).1 = .error .notFound ∧
    ¬ unbasedDb.HonestMeta exampleConfig [] [] Manifest.exampleTag.relFork := by
  have hchunk : ∀ older, ¬ (lostDb older).HonestChunk exampleConfig [] [patchedRecord]
      Manifest.exampleTag := by
    intro older
    rw [honestChunk_iff (mirrors_lostDb older), not_not]
    exact .inr ⟨_, locateChunk_lostDb older, rfl⟩
  have hmeta : ¬ unbasedDb.HonestMeta exampleConfig [] [] Manifest.exampleTag.relFork := by
    rw [honestMeta_iff decode_msgpack_ne_notFound .nil, not_not]
    exact locateMeta_unbasedDb _
  exact ⟨rfl, hchunk none, rfl, hchunk _, getMeta_unbasedDb _, hmeta⟩

end Db

end Tiko

import Tiko.Lib.Unwinding
import Tiko.Store.Sealed

/-!
# Databases do not interfere

The databases of an organisation share one object storage, and a branch reads the chunk objects of its
parent. What one of them reads and does depends on its own steps alone: the steps of the others between
them could be left out.

* `Db.Alike`: two databases that differ at most in objects that they do not read, and
  `Alike.stepDb`: no operation tells them apart;
* `Storage.Confined`, `Org.stepDb_confined`: what a step can write, and `Org.Inv.not_writes`: no
  chunk object that a database can read;
* **`isolated`**: a run, and the steps of one database alone.
-/

namespace Tiko

open Lib

variable {β : Type}

/-! ## Databases that read the same -/

/-- Two databases with the same local state and objects. In the objects of other databases they
differ at most where no manifest refers to. -/
structure Db.Alike (id : UInt64) (s t : Db β) : Prop where
  timeline : t.timeline = s.timeline
  draft : t.draft = s.draft
  manifest : t.manifest = s.manifest
  tikm : t.tikm = s.tikm
  segments : t.storage.segments id = s.storage.segments id
  bases : t.storage.bases id = s.storage.bases id
  dbMeta : t.storage.dbMeta id = s.storage.dbMeta id
  chunks : t.storage.chunks id = s.storage.chunks id
  refs : ∀ m, Sees (s.storage.bases id) s.manifest s.tikm m → ∀ tag r, m.lookup tag = some r →
    t.storage.chunks r.dbId r.ckpt tag = s.storage.chunks r.dbId r.ckpt tag

namespace Db.Alike

variable {cfg : StoreConfig} {s t : Db β}

theorem refl (id : UInt64) (s : Db β) : s.Alike id s :=
  ⟨rfl, rfl, rfl, rfl, rfl, rfl, rfl, rfl, fun _ _ _ _ _ => rfl⟩

/-- What is seen of manifests that are seen. -/
theorem sees_trans {bases : SortedMap Checkpoint Manifest} {manifest m x : Manifest}
    {tikm tikm' : Option Manifest} (hm : Sees bases manifest tikm m)
    (ht : ∀ x, tikm' = some x → Sees bases manifest tikm x) (h : Sees bases m tikm' x) :
    Sees bases manifest tikm x := by
  rcases h with h | rfl | h | h
  · exact .inl h
  · exact hm
  · exact ht x h
  · exact .inr (.inr (.inr h))

/-- Other local state. -/
theorem withLocal {id : UInt64} (h : s.Alike id t) (timeline : TimelineState) (draft : DraftBuffer)
    {manifest : Manifest} {tikm : Option Manifest}
    (hm : Sees (s.storage.bases id) s.manifest s.tikm manifest)
    (ht : ∀ x, tikm = some x → Sees (s.storage.bases id) s.manifest s.tikm x) :
    (⟨s.storage, timeline, draft, manifest, tikm⟩ : Db β).Alike id
      ⟨t.storage, timeline, draft, manifest, tikm⟩ :=
  ⟨rfl, rfl, rfl, rfl, h.segments, h.bases, h.dbMeta, h.chunks,
    fun m hs => h.refs m (sees_trans hm ht hs)⟩

/-! ## Reads -/

theorem loadSegment (h : s.Alike cfg.dbId t) (id : SegmentId) :
    t.loadSegment cfg id = s.loadSegment cfg id := by
  rw [Db.loadSegment, Db.loadSegment, h.segments]

theorem listAllSegments (h : s.Alike cfg.dbId t) : t.listAllSegments cfg = s.listAllSegments cfg := by
  rw [Db.listAllSegments, Db.listAllSegments, h.segments]

theorem listSegmentsInRange (h : s.Alike cfg.dbId t) (low high : Checkpoint) :
    t.listSegmentsInRange cfg low high = s.listSegmentsInRange cfg low high := by
  rw [Db.listSegmentsInRange, Db.listSegmentsInRange, h.listAllSegments]

theorem loadCheckpoints (h : s.Alike cfg.dbId t) (ids : List SegmentId) :
    t.loadCheckpoints cfg ids = s.loadCheckpoints cfg ids := by
  induction ids with
  | nil => rfl
  | cons id ids ih => rw [Db.loadCheckpoints, Db.loadCheckpoints, h.loadSegment, ih]

theorem scanSegments {γ : Type} (h : s.Alike cfg.dbId t) (f : SegmentCheckpoint → Option γ)
    (ids : List SegmentId) : t.scanSegments cfg f ids = s.scanSegments cfg f ids := by
  induction ids with
  | nil => rfl
  | cons id ids ih => rw [Db.scanSegments, Db.scanSegments, h.loadSegment, ih]

theorem tryReadChunkAt (h : s.Alike cfg.dbId t) (tag : ChunkTag) (ckpt : Checkpoint) :
    t.tryReadChunkAt cfg tag ckpt = s.tryReadChunkAt cfg tag ckpt := by
  rw [Db.tryReadChunkAt, Db.tryReadChunkAt, h.chunks]

theorem readChunkFromSegments (h : s.Alike cfg.dbId t) (tag : ChunkTag) (low high : Checkpoint) :
    t.readChunkFromSegments cfg tag low high = s.readChunkFromSegments cfg tag low high := by
  simp only [Db.readChunkFromSegments, h.scanSegments, h.listSegmentsInRange, h.tryReadChunkAt]

theorem readRelforkFromSegments (h : s.Alike cfg.dbId t) (rf : RelFork) (low high : Checkpoint) :
    t.readRelforkFromSegments cfg rf low high = s.readRelforkFromSegments cfg rf low high := by
  simp only [Db.readRelforkFromSegments, h.scanSegments, h.listSegmentsInRange]

theorem probeWindow (h : s.Alike cfg.dbId t) (tag : ChunkTag) :
    t.probeWindow cfg tag = s.probeWindow cfg tag := by
  simp only [Db.probeWindow, h.timeline, h.tryReadChunkAt]

theorem segTop (h : s.Alike cfg.dbId t) : t.segTop = s.segTop := by
  rw [Db.segTop, Db.segTop, h.timeline]

theorem loadManifestAt (h : s.Alike cfg.dbId t) (ckpt : Checkpoint) :
    t.loadManifestAt cfg ckpt =
      (s.loadManifestAt cfg ckpt).map fun p => (p.1, { t with tikm := p.2.tikm }) := by
  have ht : { t with tikm := s.tikm } = t := by rw [← h.tikm]
  rw [Db.loadManifestAt, Db.loadManifestAt, h.tikm, h.bases]
  split_ifs
  · rfl
  · cases s.tikm.filter fun m => m.checkpoint = ckpt with
    | some m =>
      change Except.ok (m, t) = .ok (m, { t with tikm := s.tikm })
      rw [ht]
    | none => cases (s.storage.bases cfg.dbId).lookup ckpt <;> rfl

theorem baseManifest (h : s.Alike cfg.dbId t) : t.baseManifest cfg = (s.baseManifest cfg).map fun p =>
    (p.1, { t with manifest := p.2.manifest, tikm := p.2.tikm }) := by
  have ht : { t with manifest := s.manifest, tikm := s.tikm } = t := by rw [← h.manifest, ← h.tikm]
  have hb : t.timeline.baseCkpt = s.timeline.baseCkpt := by rw [h.timeline]
  rw [Db.baseManifest, Db.baseManifest, hb, h.manifest, h.loadManifestAt]
  split_ifs
  · change Except.ok (s.manifest, t) =
      .ok (s.manifest, { t with manifest := s.manifest, tikm := s.tikm })
    rw [ht]
  · cases s.loadManifestAt cfg s.timeline.baseCkpt <;> rfl

/-- The base manifests are the same, and so is what the load leaves. -/
theorem baseManifest_cases (h : s.Alike cfg.dbId t) :
    (∃ e, s.baseManifest cfg = .error e ∧ t.baseManifest cfg = .error e) ∨
      ∃ m s' t', s.baseManifest cfg = .ok (m, s') ∧ t.baseManifest cfg = .ok (m, t') ∧
        Sees (s.storage.bases cfg.dbId) s.manifest s.tikm m ∧ s'.storage = s.storage ∧
        t'.storage = t.storage ∧ s'.Alike cfg.dbId t' := by
  have hbase := h.baseManifest
  cases hs : s.baseManifest cfg with
  | error e =>
    rw [hs] at hbase
    exact .inl ⟨e, rfl, hbase⟩
  | ok p =>
    obtain ⟨m, s'⟩ := p
    rw [hs] at hbase
    obtain ⟨⟨tikm, rfl, ht⟩, hm, -⟩ := Db.baseManifest_sees hs
    refine .inr ⟨m, _, _, rfl, hbase, hm, rfl, rfl, ?_⟩
    have halike := h.withLocal s.timeline s.draft hm ht
    rw [← h.timeline, ← h.draft] at halike ⊢
    exact halike

/-- **Chunks are read alike.** -/
theorem getChunk (h : s.Alike cfg.dbId t) (tag : ChunkTag) :
    (t.getChunk cfg tag).1 = (s.getChunk cfg tag).1 ∧
      (s.getChunk cfg tag).2.Alike cfg.dbId (t.getChunk cfg tag).2 := by
  unfold Db.getChunk
  rw [h.draft, h.timeline, h.tryReadChunkAt, h.probeWindow, h.segTop, h.readChunkFromSegments]
  split
  · exact ⟨rfl, h⟩
  · split
    · exact ⟨rfl, h⟩
    · split
      · exact ⟨rfl, h⟩
      · exact ⟨rfl, h⟩
      · rcases h.baseManifest_cases with ⟨e, hs, ht⟩ | ⟨m, s', t', hs, ht, hm, hss, hts, hnext⟩
        · rw [hs, ht]
          exact ⟨rfl, h⟩
        · rw [hs, ht]
          dsimp only
          cases hr : m.lookup tag with
          | none => exact ⟨rfl, hnext⟩
          | some r =>
            dsimp only
            rw [hss, hts, h.refs m hm tag r hr]
            cases s.storage.chunks r.dbId r.ckpt tag with
            | none => exact ⟨rfl, hnext⟩
            | some c => exact ⟨rfl, hnext⟩

theorem getMetaBelow (h : s.Alike cfg.dbId t) (rf : RelFork) (top : Checkpoint) :
    (t.getMetaBelow cfg rf top).1 = (s.getMetaBelow cfg rf top).1 ∧
      (s.getMetaBelow cfg rf top).2.Alike cfg.dbId (t.getMetaBelow cfg rf top).2 := by
  unfold Db.getMetaBelow
  rw [h.timeline, h.readRelforkFromSegments]
  split
  · exact ⟨rfl, h⟩
  · exact ⟨rfl, h⟩
  · rcases h.baseManifest_cases with ⟨e, hs, ht⟩ | ⟨m, s', t', hs, ht, -, -, -, hnext⟩
    · rw [hs, ht]
      exact ⟨rfl, h⟩
    · rw [hs, ht]
      dsimp only
      cases m.lookupRelforkMeta rf with
      | none => exact ⟨rfl, hnext⟩
      | some md => exact ⟨rfl, hnext⟩

/-- **Relation forks are read alike.** -/
theorem getMeta (h : s.Alike cfg.dbId t) (rf : RelFork) :
    (t.getMeta cfg rf).1 = (s.getMeta cfg rf).1 ∧
      (s.getMeta cfg rf).2.Alike cfg.dbId (t.getMeta cfg rf).2 := by
  unfold Db.getMeta
  rw [h.draft, h.timeline]
  split
  · exact ⟨rfl, h⟩
  · exact ⟨rfl, h⟩
  · split
    · exact ⟨rfl, h⟩
    · exact h.getMetaBelow rf _

/-! ## Writes -/

/-- Databases that come from two that read the same: their own objects are the same again, foreign
chunk objects are as before, and every reference to one was there before. -/
theorem written {id : UInt64} (h : s.Alike id t) {s' t' : Db β}
    (htimeline : t'.timeline = s'.timeline) (hdraft : t'.draft = s'.draft)
    (hmanifest : t'.manifest = s'.manifest) (htikm : t'.tikm = s'.tikm)
    (hsegments : t'.storage.segments id = s'.storage.segments id)
    (hbases : t'.storage.bases id = s'.storage.bases id)
    (hdbMeta : t'.storage.dbMeta id = s'.storage.dbMeta id)
    (hchunks : t'.storage.chunks id = s'.storage.chunks id)
    (hs : ∀ d, d ≠ id → s'.storage.chunks d = s.storage.chunks d)
    (ht : ∀ d, d ≠ id → t'.storage.chunks d = t.storage.chunks d)
    (hrefs : ∀ m, Sees (s'.storage.bases id) s'.manifest s'.tikm m → ∀ tag r,
      m.lookup tag = some r → r.dbId ≠ id →
        ∃ m₀, Sees (s.storage.bases id) s.manifest s.tikm m₀ ∧ m₀.lookup tag = some r) :
    s'.Alike id t' := by
  refine ⟨htimeline, hdraft, hmanifest, htikm, hsegments, hbases, hdbMeta, hchunks, ?_⟩
  intro m hm tag r hr
  by_cases hd : r.dbId = id
  · rw [hd, hchunks]
  · obtain ⟨m₀, hm₀, hr₀⟩ := hrefs m hm tag r hr hd
    rw [hs _ hd, ht _ hd]
    exact h.refs m₀ hm₀ tag r hr₀

theorem putChunkAtHead (h : s.Alike cfg.dbId t) (out : AppendOutcome) (tag : ChunkTag) (c : Chunk β) :
    (s.putChunkAtHead cfg out tag c).Alike cfg.dbId (t.putChunkAtHead cfg out tag c) := by
  unfold Db.putChunkAtHead Db.recordChunkEviction
  rw [h.timeline, h.draft]
  refine h.written rfl rfl h.manifest h.tikm h.segments h.bases h.dbMeta ?_ ?_ ?_ ?_
  · simp only [Storage.putChunk, Function.update_self, h.chunks]
  · exact fun d hd => Function.update_of_ne hd _ _
  · exact fun d hd => Function.update_of_ne hd _ _
  · exact fun m hm tag r hr _ => ⟨m, hm, hr⟩

theorem patchChunk [Zero β] (h : s.Alike cfg.dbId t) (out : AppendOutcome) (tag : ChunkTag)
    (offset : ℕ) (data : List β) :
    (s.patchChunk cfg out tag offset data).2.Alike cfg.dbId
      (t.patchChunk cfg out tag offset data).2 := by
  unfold Db.patchChunk
  split_ifs
  · exact h.putChunkAtHead out tag _
  · obtain ⟨hanswer, hnext⟩ := h.getChunk tag
    cases hs : s.getChunk cfg tag with
    | mk rs s' =>
      cases ht : t.getChunk cfg tag with
      | mk rt t' =>
        rw [hs, ht] at hanswer hnext
        dsimp only at hanswer hnext
        subst hanswer
        cases rt with
        | ok c => exact hnext.putChunkAtHead out tag _
        | error e =>
          dsimp only
          split_ifs
          · exact hnext.putChunkAtHead out tag _
          · exact hnext

/-- A fold brings no foreign references. -/
theorem lookup_of_foreign {S : Manifest.CombinedSort} {m : Manifest}
    {segments : List SegmentCheckpoint} {dbId : UInt64} {now : ℤ} {tag : ChunkTag} {r : ChunkRef}
    (h : (m.applySegments S segments dbId now).lookup tag = some r) (hd : r.dbId ≠ dbId) :
    m.lookup tag = some r := by
  rcases lookup_of_applySegments h with h | h
  · exact h
  · obtain ⟨⟨e, he, hc, rfl⟩, -⟩ := Manifest.lookup_latestRefs_spec h
    exact absurd rfl hd

theorem commitSegment (h : s.Alike cfg.dbId t) (out : Db.CommitOutcome) (a : Db.CommitArgs)
    (prev : Checkpoint) (drained : DraftFrame) :
    (∃ e, s.commitSegment cfg out a prev drained = .error e ∧
        t.commitSegment cfg out a prev drained = .error e) ∨
      ∃ e s' t', s.commitSegment cfg out a prev drained = .ok (e, s') ∧
        t.commitSegment cfg out a prev drained = .ok (e, t') ∧ s'.Alike cfg.dbId t' := by
  unfold Db.commitSegment
  dsimp only
  rw [h.loadSegment]
  split_ifs
  · exact .inl ⟨_, rfl, rfl⟩
  · exact .inl ⟨_, rfl, rfl⟩
  · refine .inr ⟨_, _, _, rfl, rfl, ?_⟩
    refine h.written h.timeline h.draft h.manifest h.tikm ?_ h.bases h.dbMeta h.chunks
      (fun _ _ => rfl) (fun _ _ => rfl) fun m hm tag r hr _ => ⟨m, hm, hr⟩
    simp only [Storage.putSegment, Function.update_self, h.segments]

theorem runCommitProtocol (h : s.Alike cfg.dbId t) (out : Db.CommitOutcome) (a : Db.CommitArgs) :
    (s.runCommitProtocol cfg out a).2.Alike cfg.dbId (t.runCommitProtocol cfg out a).2 := by
  have hsame : ∀ timeline draft, (⟨s.storage, timeline, draft, s.manifest, s.tikm⟩ : Db β).Alike
      cfg.dbId ⟨t.storage, timeline, draft, t.manifest, t.tikm⟩ := by
    intro timeline draft
    rw [h.manifest, h.tikm]
    exact h.withLocal timeline draft (.inr (.inl rfl)) fun x hx => .inr (.inr (.inl hx))
  unfold Db.runCommitProtocol
  dsimp only
  rw [h.timeline, h.draft]
  cases s.draft.drain cfg.codec out.drain with
  | mk r draft =>
    cases r with
    | error e => exact hsame _ draft
    | ok F =>
      dsimp only
      rcases (hsame (s.timeline.setRedoCkpt a.redoCkpt) draft).commitSegment out a
        s.timeline.headCkpt F with ⟨e, hs, ht⟩ | ⟨e, s', t', hs, ht, hnext⟩
      · rw [hs, ht]
        exact hsame _ draft
      · rw [hs, ht]
        dsimp only
        rw [hnext.timeline]
        split_ifs
        · exact hnext.written rfl hnext.draft hnext.manifest hnext.tikm hnext.segments hnext.bases
            hnext.dbMeta hnext.chunks (fun _ _ => rfl) (fun _ _ => rfl)
            fun m hm tag r hr _ => ⟨m, hm, hr⟩
        · refine hnext.written rfl hnext.draft hnext.manifest hnext.tikm hnext.segments hnext.bases
            ?_ hnext.chunks (fun _ _ => rfl) (fun _ _ => rfl) fun m hm tag r hr _ => ⟨m, hm, hr⟩
          simp only [Storage.putDbMeta, Function.update_self]

/-- A compaction publishes the references of a manifest that is seen, and its own. -/
theorem compactRange (h : s.Alike cfg.dbId t) (high : Checkpoint) (select : SegmentCheckpoint → Bool)
    (newBase : List SegmentCheckpoint → Manifest → Checkpoint) (now : ℤ) :
    (s.compactRange cfg high select newBase now).2.Alike cfg.dbId
      (t.compactRange cfg high select newBase now).2 := by
  unfold Db.compactRange
  dsimp only
  rw [h.timeline, h.listSegmentsInRange, h.loadCheckpoints]
  split
  · exact h
  · split_ifs
    · exact h
    · rcases h.baseManifest_cases with ⟨e, hs, ht⟩ | ⟨m, s', t', hs, ht, hm, hss, hts, hnext⟩
      · rw [hs, ht]
        exact h
      · rw [hs, ht]
        dsimp only
        refine h.written ?_ hnext.draft rfl rfl ?_ ?_ ?_ ?_ ?_ ?_ ?_
        · rw [hnext.timeline]
        · simp only [Storage.deleteSegments, Storage.putBase, Function.update_self, hnext.segments]
        · simp only [Storage.deleteSegments, Storage.putBase, Function.update_self, hnext.bases]
        · exact hnext.dbMeta
        · exact hnext.chunks
        · exact fun d _ => congrFun (congrArg Storage.chunks hss) d
        · exact fun d _ => congrFun (congrArg Storage.chunks hts) d
        · intro x hx tag r hr hd
          rcases hx with rfl | rfl | hx | ⟨key, hx⟩
          · exact ⟨_, .inl rfl, hr⟩
          · exact ⟨m, hm, lookup_of_foreign hr hd⟩
          · obtain rfl := Option.some.inj hx
            exact ⟨m, hm, lookup_of_foreign hr hd⟩
          · simp only [Storage.deleteSegments, Storage.putBase, Function.update_self, hss,
              SortedMap.lookup_insert] at hx
            split_ifs at hx
            · obtain rfl := Option.some.inj hx
              exact ⟨m, hm, lookup_of_foreign hr hd⟩
            · exact ⟨x, .inr (.inr (.inr ⟨key, hx⟩)), hr⟩

theorem runCompaction (h : s.Alike cfg.dbId t) (now : ℤ) :
    (s.runCompaction cfg now).2.Alike cfg.dbId (t.runCompaction cfg now).2 := by
  unfold Db.runCompaction
  rw [h.timeline]
  dsimp only
  split_ifs
  · exact h
  · exact h.compactRange _ _ _ now
  · exact h
  · exact h.compactRange _ _ _ now

theorem runCompactionThrough (h : s.Alike cfg.dbId t) (target : Checkpoint) (now : ℤ) :
    (s.runCompactionThrough cfg target now).2.Alike cfg.dbId
      (t.runCompactionThrough cfg target now).2 := by
  unfold Db.runCompactionThrough
  rw [h.timeline]
  split_ifs
  · exact h
  · exact h.compactRange _ _ _ now

/-- **Starts see the same.** -/
theorem restart (h : s.Alike cfg.dbId t) (tikmLost inRecovery : Bool) :
    (s.restart cfg tikmLost inRecovery).Alike cfg.dbId (t.restart cfg tikmLost inRecovery) := by
  rw [Db.restart_eq, Db.restart_eq, h.timeline, h.draft, h.tikm, h.segments, h.bases]
  have hm := Db.SoundAt.sees_reopened (s.storage.bases cfg.dbId) s.manifest s.tikm tikmLost
  exact h.withLocal _ _ hm fun x hx => Option.some.inj hx ▸ hm

theorem materializeBaseManifestAt (h : s.Alike cfg.dbId t) (ok : Bool) (ckpt : Checkpoint) :
    (s.materializeBaseManifestAt cfg ok ckpt).2.Alike cfg.dbId
      (t.materializeBaseManifestAt cfg ok ckpt).2 := by
  unfold Db.materializeBaseManifestAt
  rw [h.bases]
  split_ifs
  · exact h
  · cases hn : Db.newestBaseUpTo (s.storage.bases cfg.dbId) ckpt with
    | none => exact h
    | some p =>
      have hmem := List.mem_of_mem_filter (List.mem_of_getLast? hn)
      have hm : Sees (s.storage.bases cfg.dbId) s.manifest s.tikm p.2 :=
        .inr (.inr (.inr ⟨p.1, (SortedMap.mem_entries_iff _ p.1 p.2).mp hmem⟩))
      have hnext := h.withLocal s.timeline s.draft hm fun x hx => Option.some.inj hx ▸ hm
      dsimp only
      rw [h.timeline, h.draft]
      exact hnext

theorem deleteAllSegments (h : s.Alike cfg.dbId t) (list : Bool) (kept : List SegmentId) :
    (s.deleteAllSegments cfg list kept).2.Alike cfg.dbId (t.deleteAllSegments cfg list kept).2 := by
  unfold Db.deleteAllSegments
  rw [h.listAllSegments]
  split_ifs
  · exact h
  · refine h.written h.timeline h.draft h.manifest h.tikm ?_ h.bases h.dbMeta h.chunks
      (fun _ _ => rfl) (fun _ _ => rfl) fun m hm tag r hr _ => ⟨m, hm, hr⟩
    simp only [Storage.deleteSegments, Function.update_self, h.segments]

variable [Zero β] {codec : FrameCodec} {sort : Manifest.CombinedSort}

/-- **No operation of a database tells them apart.** -/
theorem stepDb {id : UInt64} (h : s.Alike id t) {st : Org.Step β}
    (hst : ∀ parentDbId ckpt, st ≠ .seedBranch parentDbId ckpt) :
    (Org.stepDb codec sort id s st).Alike id (Org.stepDb codec sort id t st) := by
  have hcfg : s.Alike (StoreConfig.mk id codec sort).dbId t := h
  cases st with
  | patchChunk out tag offset data => exact hcfg.patchChunk out tag offset data
  | putMeta out rf m =>
    unfold Org.stepDb Db.putMeta Db.recordRelforkEviction
    dsimp only
    rw [h.timeline, h.draft, h.manifest, h.tikm]
    exact h.withLocal _ _ (.inr (.inl rfl)) fun x hx => .inr (.inr (.inl hx))
  | commit out a => exact hcfg.runCommitProtocol out a
  | compact now => exact hcfg.runCompaction now
  | compactThrough target now => exact hcfg.runCompactionThrough target now
  | start tikmLost inRecovery => exact hcfg.restart tikmLost inRecovery
  | materializeBaseManifestAt ckpt => exact hcfg.materializeBaseManifestAt true ckpt
  | deleteAllSegments kept => exact hcfg.deleteAllSegments true kept
  | seedBranch parentDbId ckpt => exact absurd rfl (hst parentDbId ckpt)

end Db.Alike

/-! ## Steps of other databases -/

/-- A storage that differs only in objects of one database, and in its chunk objects at most where
`w` holds. -/
structure Storage.Confined (id : UInt64) (w : Checkpoint → ChunkTag → Prop) (S S' : Storage β) :
    Prop where
  chunks : ∀ d ckpt tag, ¬(d = id ∧ w ckpt tag) → S'.chunks d ckpt tag = S.chunks d ckpt tag
  segments : ∀ d, d ≠ id → S'.segments d = S.segments d
  bases : ∀ d, d ≠ id → S'.bases d = S.bases d
  dbMeta : ∀ d, d ≠ id → S'.dbMeta d = S.dbMeta d

namespace Storage.Confined

variable {id : UInt64} {w : Checkpoint → ChunkTag → Prop} {S S' : Storage β}

theorem refl : S.Confined id w S :=
  ⟨fun _ _ _ _ => rfl, fun _ _ => rfl, fun _ _ => rfl, fun _ _ => rfl⟩

theorem putChunk {ckpt : Checkpoint} {tag : ChunkTag} (h : w ckpt tag) (c : Chunk β) :
    S.Confined id w (S.putChunk id ckpt tag c) := by
  refine ⟨fun d ckpt' tag' hd => ?_, fun _ _ => rfl, fun _ _ => rfl, fun _ _ => rfl⟩
  rw [Storage.chunks_putChunk, if_neg]
  rintro ⟨rfl, rfl, rfl⟩
  exact hd ⟨rfl, h⟩

theorem putSegment (h : S.Confined id w S') (x : SegmentId) (seg : TimelineSegment) :
    S.Confined id w (S'.putSegment id x seg) :=
  ⟨h.chunks, fun d hd => (Function.update_of_ne hd _ _).trans (h.segments d hd), h.bases, h.dbMeta⟩

theorem deleteSegments (h : S.Confined id w S') (ids : List SegmentId) :
    S.Confined id w (S'.deleteSegments id ids) :=
  ⟨h.chunks, fun d hd => (Function.update_of_ne hd _ _).trans (h.segments d hd), h.bases, h.dbMeta⟩

theorem putBase (h : S.Confined id w S') (ckpt : Checkpoint) (m : Manifest) :
    S.Confined id w (S'.putBase id ckpt m) :=
  ⟨h.chunks, h.segments, fun d hd => (Function.update_of_ne hd _ _).trans (h.bases d hd), h.dbMeta⟩

theorem putDbMeta (h : S.Confined id w S') (ckpt : Checkpoint) :
    S.Confined id w (S'.putDbMeta id ckpt) :=
  ⟨h.chunks, h.segments, h.bases, fun d hd => (Function.update_of_ne hd _ _).trans (h.dbMeta d hd)⟩

end Storage.Confined

namespace Db

variable (cfg : StoreConfig) (s : Db β)

theorem baseManifest_storage {m : Manifest} {s' : Db β} (h : s.baseManifest cfg = .ok (m, s')) :
    s'.storage = s.storage := by
  obtain ⟨⟨tikm, rfl, -⟩, -⟩ := baseManifest_sees h
  rfl

theorem runCommitProtocol_confined (w : Checkpoint → ChunkTag → Prop) (out : CommitOutcome)
    (a : CommitArgs) :
    s.storage.Confined cfg.dbId w (s.runCommitProtocol cfg out a).2.storage := by
  have hrefl : s.storage.Confined cfg.dbId w s.storage := .refl
  unfold runCommitProtocol
  dsimp only
  cases s.draft.drain cfg.codec out.drain with
  | mk r draft =>
    cases r with
    | error e => exact hrefl
    | ok F =>
      dsimp only
      split
      · exact hrefl
      · next summary s' hc =>
        have hput : s.storage.Confined cfg.dbId w s'.storage := by
          unfold commitSegment at hc
          dsimp only at hc
          split_ifs at hc
          obtain ⟨-, rfl⟩ := Prod.mk.inj (Except.ok.inj hc)
          exact hrefl.putSegment _ _
        split_ifs
        · exact hput
        · exact hput.putDbMeta _

theorem compactRange_confined (w : Checkpoint → ChunkTag → Prop) (high : Checkpoint)
    (select : SegmentCheckpoint → Bool)
    (newBase : List SegmentCheckpoint → Manifest → Checkpoint) (now : ℤ) :
    s.storage.Confined cfg.dbId w (s.compactRange cfg high select newBase now).2.storage := by
  have hrefl : s.storage.Confined cfg.dbId w s.storage := .refl
  unfold compactRange
  dsimp only
  split
  · exact hrefl
  · split_ifs
    · exact hrefl
    · cases hm : s.baseManifest cfg with
      | error e => exact hrefl
      | ok p =>
        obtain ⟨m, s'⟩ := p
        dsimp only
        rw [s.baseManifest_storage cfg hm]
        exact (hrefl.putBase _ _).deleteSegments _

theorem runCompaction_confined (w : Checkpoint → ChunkTag → Prop) (now : ℤ) :
    s.storage.Confined cfg.dbId w (s.runCompaction cfg now).2.storage := by
  unfold runCompaction
  dsimp only
  split_ifs
  · exact .refl
  · exact s.compactRange_confined cfg w _ _ _ now
  · exact .refl
  · exact s.compactRange_confined cfg w _ _ _ now

theorem runCompactionThrough_confined (w : Checkpoint → ChunkTag → Prop) (target : Checkpoint) (now : ℤ) :
    s.storage.Confined cfg.dbId w (s.runCompactionThrough cfg target now).2.storage := by
  unfold runCompactionThrough
  split_ifs
  · exact .refl
  · exact s.compactRange_confined cfg w _ _ _ now

end Db

namespace Org

variable [Zero β] (codec : FrameCodec) (sort : Manifest.CombinedSort)

/-- **A step of a database is confined** to its own objects, and of the chunk objects to the one that
it writes. -/
theorem stepDb_confined (o : Org β) (id : UInt64) (st : Step β) :
    o.storage.Confined id (o.Writes codec sort (id, st) id)
      (stepDb codec sort id (o.db id) st).storage := by
  cases st with
  | patchChunk out tag offset data =>
    obtain ⟨s', ⟨manifest, tikm, rfl, -⟩, ⟨c, hp⟩ | ⟨e, hp⟩⟩ :=
      Db.patchChunk_cases ⟨id, codec, sort⟩ (o.db id) out tag offset data
    · unfold stepDb
      dsimp only
      rw [hp]
      refine .putChunk ?_ c
      exact ⟨congrArg Prod.fst hp, rfl, rfl, rfl⟩
    · unfold stepDb
      dsimp only
      rw [hp]
      exact .refl
  | putMeta out rf m => exact .refl
  | commit out a => exact (o.db id).runCommitProtocol_confined ⟨id, codec, sort⟩ _ out a
  | compact now => exact (o.db id).runCompaction_confined ⟨id, codec, sort⟩ _ now
  | compactThrough target now =>
    exact (o.db id).runCompactionThrough_confined ⟨id, codec, sort⟩ _ target now
  | start tikmLost inRecovery =>
    unfold stepDb
    dsimp only
    rw [Db.restart_eq]
    exact .refl
  | materializeBaseManifestAt ckpt =>
    unfold stepDb Db.materializeBaseManifestAt
    dsimp only
    rw [if_neg (by simp)]
    split
    · exact .refl
    · exact .refl
  | deleteAllSegments kept => exact Storage.Confined.refl.deleteSegments _
  | seedBranch parentDbId ckpt =>
    unfold stepDb Db.seedBranchBaseManifest
    dsimp only
    split
    · exact .refl
    · exact Storage.Confined.refl.putBase _ _

/-- No step of another database writes a chunk object that a database can read. -/
theorem Inv.not_writes {codec : FrameCodec} {sort : Manifest.CombinedSort} {o : Org β} (h : o.Inv)
    {id : UInt64} {m : Manifest}
    (hm : Sees (o.storage.bases id) (o.dbs id).manifest (o.dbs id).tikm m) {tag : ChunkTag}
    {r : ChunkRef} (hr : m.lookup tag = some r) (l : UInt64 × Step β) :
    ¬o.Writes codec sort l r.dbId r.ckpt tag := by
  obtain ⟨e, he, hp, hc⟩ := (h id).traced m hm tag r hr
  intro hw
  obtain ⟨d, st⟩ := l
  cases st with
  | patchChunk out tag' offset data =>
    obtain ⟨-, hd, hckpt, rfl⟩ := hw
    rw [show r.dbId = d from hd] at he
    -- the patch writes at the head, where no record has chunks
    have hnil := (h d).unsealed e he (hp.trans hckpt)
    rw [SegmentCheckpoint.containsChunk, SortedSet.contains_iff_mem_keys, SortedMap.keys, hnil] at hc
    exact List.not_mem_nil hc
  | _ => exact hw

/-- **The steps of other databases go unnoticed.** -/
theorem Inv.alike_set {codec : FrameCodec} {sort : Manifest.CombinedSort} {o : Org β} (h : o.Inv)
    {id : UInt64} {t : Db β} (ht : (o.db id).Alike id t) {l : UInt64 × Step β} (hl : l.1 ≠ id) :
    ((o.set l.1 (stepDb codec sort l.1 (o.db l.1) l.2)).db id).Alike id t := by
  have hdb : (o.set l.1 (stepDb codec sort l.1 (o.db l.1) l.2)).dbs id = o.dbs id :=
    Function.update_of_ne hl.symm _ _
  have hconf := stepDb_confined codec sort o l.1 l.2
  have hchunks : ∀ ckpt tag, (stepDb codec sort l.1 (o.db l.1) l.2).storage.chunks id ckpt tag =
      o.storage.chunks id ckpt tag := fun ckpt tag => hconf.chunks _ _ _ fun hw => hl hw.1.symm
  have hbases := hconf.bases id hl.symm
  refine ⟨?_, ?_, ?_, ?_, ?_, ?_, ?_, ?_, ?_⟩
  · exact ht.timeline.trans (congrArg LocalState.timeline hdb).symm
  · exact ht.draft.trans (congrArg LocalState.draft hdb).symm
  · exact ht.manifest.trans (congrArg LocalState.manifest hdb).symm
  · exact ht.tikm.trans (congrArg LocalState.tikm hdb).symm
  · exact ht.segments.trans (hconf.segments id hl.symm).symm
  · exact ht.bases.trans hbases.symm
  · exact ht.dbMeta.trans (hconf.dbMeta id hl.symm).symm
  · rw [ht.chunks]
    funext ckpt tag
    exact (hchunks ckpt tag).symm
  · intro m hm tag r hr
    change Sees ((stepDb codec sort l.1 (o.db l.1) l.2).storage.bases id)
      ((o.set l.1 (stepDb codec sort l.1 (o.db l.1) l.2)).dbs id).manifest
      ((o.set l.1 (stepDb codec sort l.1 (o.db l.1) l.2)).dbs id).tikm m at hm
    rw [hdb, hbases] at hm
    rw [ht.refs m hm tag r hr]
    refine (hconf.chunks _ _ _ fun hw => ?_).symm
    obtain ⟨hd, hw⟩ := hw
    rw [← hd] at hw
    exact h.not_writes hm hr _ hw

end Org

/-! ## Runs -/

/-- What the database `id` holds and reads is the same in two organisations. -/
structure SameTo (codec : FrameCodec) (sort : Manifest.CombinedSort) (id : UInt64) (o o' : Org β) :
    Prop where
  dbs : o'.dbs id = o.dbs id
  segments : o'.storage.segments id = o.storage.segments id
  bases : o'.storage.bases id = o.storage.bases id
  dbMeta : o'.storage.dbMeta id = o.storage.dbMeta id
  chunks : o'.storage.chunks id = o.storage.chunks id
  getChunk : ∀ tag, ((o'.db id).getChunk ⟨id, codec, sort⟩ tag).1 =
    ((o.db id).getChunk ⟨id, codec, sort⟩ tag).1
  getMeta : ∀ rf, ((o'.db id).getMeta ⟨id, codec, sort⟩ rf).1 =
    ((o.db id).getMeta ⟨id, codec, sort⟩ rf).1

theorem Db.Alike.sameTo {codec : FrameCodec} {sort : Manifest.CombinedSort} {id : UInt64}
    {o o' : Org β} (h : (o.db id).Alike id (o'.db id)) : SameTo codec sort id o o' := by
  have hcfg : (o.db id).Alike (StoreConfig.mk id codec sort).dbId (o'.db id) := h
  refine ⟨?_, h.segments, h.bases, h.dbMeta, h.chunks, ?_, ?_⟩
  · have hl : ∀ x : LocalState, x = ⟨x.timeline, x.draft, x.manifest, x.tikm⟩ := fun _ => rfl
    rw [hl (o'.dbs id), hl (o.dbs id)]
    exact congr (congr (congr (congrArg LocalState.mk h.timeline) h.draft) h.manifest) h.tikm
  · exact fun tag => (hcfg.getChunk tag).1
  · exact fun rf => (hcfg.getMeta rf).1

/-- A step that does not seed the branch `id`. -/
def NotSeeding (id : UInt64) (l : UInt64 × Org.Step β) : Prop :=
  ∀ parentDbId ckpt, l ≠ (id, .seedBranch parentDbId ckpt)

/-- The steps of a database, and the steps of others between them. -/
theorem unwinding [Zero β] (codec : FrameCodec) (sort : Manifest.CombinedSort) (id : UInt64) :
    Unwinding (Org.step codec sort) (fun o l => o.Allowed l ∧ NotSeeding id l) (fun l => l.1 = id)
      Org.Inv (fun o o' : Org β => (o.db id).Alike id (o'.db id)) where
  invariant o l o' hi hok hs := hi.step hok.1 hs
  respects o l o' t hi _ hs hl ht := by
    obtain rfl := Option.some.inj hs
    exact hi.alike_set ht hl
  consistent o l o' t _ hok hs hl ht := by
    obtain rfl := Option.some.inj hs
    obtain ⟨d, st⟩ := l
    obtain rfl : d = id := hl
    refine ⟨_, rfl, ?_⟩
    have hnext : (Org.stepDb codec sort d (o.db d) st).Alike d
        (Org.stepDb codec sort d (t.db d) st) :=
      ht.stepDb fun parentDbId ckpt h => hok.2 parentDbId ckpt (by rw [h])
    have hset : ∀ (o : Org β) (s : Db β), (o.set d s).db d = s := by
      intro o s
      unfold Org.set Org.db
      simp only [Function.update_self]
    dsimp only
    rw [hset, hset]
    exact hnext

/-- **Databases do not interfere**: after a run of allowed steps of all databases of an
organisation, a database holds and reads what it would after its own steps alone, from the same
state. Its branch has been seeded before the run. -/
theorem isolated [Zero β] {codec : FrameCodec} {sort : Manifest.CombinedSort} {o o' : Org β}
    (h : Reaches (Org.step codec sort) Org.Allowed Org.fresh o) (id : UInt64)
    {ls : List (UInt64 × Org.Step β)} (hls : Throughout (Org.step codec sort) Org.Allowed o ls)
    (hseed : ∀ l ∈ ls, NotSeeding id l) (hrun : run (Org.step codec sort) o ls = some o') :
    ∃ o₁, run (Org.step codec sort) o (ls.filter fun l => l.1 = id) = some o₁ ∧
      SameTo codec sort id o' o₁ := by
  have hinv : o.Inv := h.invariant Org.inv_fresh fun _ _ _ hi hok hs => hi.step hok hs
  obtain ⟨o₁, hrun₁, halike⟩ := (unwinding codec sort id).run hinv (Db.Alike.refl id (o.db id))
    (hls.and hseed) hrun
  exact ⟨o₁, hrun₁, halike.sameTo⟩

/-- A branch of the database 7 with an interval of its own, from before the parent goes on. -/
def branching : List (UInt64 × Org.Step ℕ) :=
  sealing ++ [(9, .seedBranch 7 ⟨1, 100⟩), (9, .start false false)]

/-- The steps of both. -/
def bothGoOn : List (UInt64 × Org.Step ℕ) :=
  [(7, .patchChunk .ok Manifest.exampleTag 0 [8]), (9, .patchChunk .ok Manifest.exampleTag 1 [9]),
    (7, .commit .ok ⟨⟨1, 200⟩, ⟨1, 190⟩, [], 0⟩), (9, .commit .ok ⟨⟨1, 300⟩, ⟨1, 290⟩, [], 0⟩),
    (7, .compactThrough ⟨1, 200⟩ 0)]

/-- The branch patches what it inherited, and sees nothing of the later patch of the parent. -/
theorem isolated_bothGoOn : ∃ o o' o₁ : Org ℕ,
    run exampleStep o bothGoOn = some o' ∧
    run exampleStep o (bothGoOn.filter fun l => l.1 = 9) = some o₁ ∧
    ((o'.db 9).getChunk ⟨9, msgpack, Manifest.preferSort 0⟩ Manifest.exampleTag).1.toOption.map
      (fun c => (c ⟨0, by decide⟩, c ⟨1, by decide⟩)) = some (7, 9) ∧
    SameTo msgpack (Manifest.preferSort 0) 9 o' o₁ := by
  have hrun : ((run exampleStep Org.fresh branching).bind fun o =>
      (run exampleStep o bothGoOn).map fun o' =>
        (decide (Throughout exampleStep Org.Allowed o bothGoOn),
          ((o'.db 9).getChunk ⟨9, msgpack, Manifest.preferSort 0⟩
            Manifest.exampleTag).1.toOption.map fun c => (c ⟨0, by decide⟩, c ⟨1, by decide⟩))) =
      some (true, some (7, 9)) := by
    decide +kernel
  obtain ⟨o, ho, hrun⟩ := Option.bind_eq_some_iff.mp hrun
  obtain ⟨o', ho', hrun⟩ := Option.map_eq_some_iff.mp hrun
  obtain ⟨hallowed, hread⟩ := Prod.mk.inj hrun
  have h : Reaches exampleStep Org.Allowed Org.fresh o := reaches_of_run ho (by decide +kernel)
  have hseed : ∀ l ∈ bothGoOn, NotSeeding 9 l := by
    intro l hl parentDbId ckpt hne
    fin_cases hl <;> simp at hne
  obtain ⟨o₁, ho₁, hsame⟩ := isolated h 9 (of_decide_eq_true hallowed) hseed ho'
  exact ⟨o, o', o₁, ho', ho₁, hread, hsame⟩

end Tiko

import Tiko.Compaction.Concurrent
import Tiko.Compaction.Snapshot
import Tiko.Lib.Versions

/-!
# What threads share

`Shared.Core cfg s F` ties the shared state to the committed records and to the writes: every manifest
in sight is a snapshot of the log, the base has a stored manifest, the records above the base are in
stored segments, and chunk objects and records hold the last write of each interval.

* **`Core.getChunkLocked`**, **`Core.getMetaLocked`**: the read-locked section of a read finds a version
  as new as every write so far, or every write so far is at or below the base;
* **`Core.commit`**, **`Core.patchChunk`**, **`Core.putMeta`**: writes and commits keep it.
-/

namespace Tiko

open Lib

variable {ι β : Type} {cfg : StoreConfig}

namespace Shared

/-- The shared state, the committed records and the writes agree; `F` is what the draft holds. -/
structure Core (cfg : StoreConfig) (s : Shared ι β) (F : DraftFrame) : Prop where
  log : Log s.history s.timeline.headCkpt
  lsns : s.history.Pairwise fun a b => a.prevCkpt.lsn.toNat < b.prevCkpt.lsn.toNat
  lsn_lt : ∀ e ∈ s.history, e.prevCkpt.lsn.toNat < s.timeline.headCkpt.lsn.toNat
  draft : s.draft.Holds cfg.codec F
  window : Window s.timeline s.history
  wf : SegmentsWf (s.storage.segments cfg.dbId)
  sub : (storedRecords (s.storage.segments cfg.dbId)).Sublist s.history
  stored : ∀ e ∈ s.history, e.isBlank = false → s.timeline.baseCkpt < e.ckpt →
    e ∈ storedRecords (s.storage.segments cfg.dbId)
  objects : Objects cfg s.storage s.timeline.headCkpt s.history F
  base_le : s.timeline.baseCkpt ≤ s.timeline.headCkpt
  base_ok : s.timeline.baseCkpt = default ∨
    ∃ m, (s.storage.bases cfg.dbId).lookup s.timeline.baseCkpt = some m
  bases : ∀ k m, (s.storage.bases cfg.dbId).lookup k = some m →
    Snapshot cfg s.history m ∧ Covers s.history k m ∧ k ≤ s.timeline.headCkpt
  tikm : ∀ m, s.tikm = some m → Snapshot cfg s.history m
  caches : ∀ k, Snapshot cfg s.history (s.caches k)
  chunkMono : s.chunkWrites.Pairwise fun w w' => w.1 ≤ w'.1
  chunkUnder : ∀ w ∈ s.chunkWrites, w.1 = s.timeline.headCkpt ∨ ∃ e ∈ s.history, e.prevCkpt = w.1
  chunkAt : ∀ c tag, s.storage.chunks cfg.dbId c tag = versionAt s.chunkWrites c tag
  metaMono : s.metaWrites.Pairwise fun w w' => w.1 ≤ w'.1
  metaUnder : ∀ w ∈ s.metaWrites, w.1 = s.timeline.headCkpt ∨ ∃ e ∈ s.history, e.prevCkpt = w.1
  metaAt : ∀ e ∈ s.history, ∀ rf, e.relforkMeta rf = versionAt s.metaWrites e.prevCkpt rf
  metaHead : ∀ rf, F.relforks.lookup rf = versionAt s.metaWrites s.timeline.headCkpt rf

theorem lookup_publishBase [DecidableEq ι] (s : Shared ι β) (p : ι) (key c : Checkpoint) (m : Manifest) :
    ((s.publishBase cfg p key m).storage.bases cfg.dbId).lookup c =
      if c = key then some m else (s.storage.bases cfg.dbId).lookup c := by
  refine Eq.trans ?_ (SortedMap.lookup_insert _ key c m)
  exact congrArg (fun b : SortedMap Checkpoint Manifest => b.lookup c) (Function.update_self ..)

namespace Core

variable {s : Shared ι β} {F : DraftFrame}

theorem records (h : Core cfg s F) (p : ι) : (s.db p).Records cfg s.history :=
  ⟨h.log, h.window, h.wf, h.sub, h.stored, h.objects.sealed⟩

/-- The prefix of a write is at or below the head. -/
theorem under_le_head (h : Core cfg s F) {c : Checkpoint}
    (hc : c = s.timeline.headCkpt ∨ ∃ e ∈ s.history, e.prevCkpt = c) :
    c ≤ s.timeline.headCkpt := by
  rcases hc with rfl | ⟨e, he, rfl⟩
  · exact le_rfl
  · exact (h.log.prevCkpt_lt_head he).le

theorem prevCkpt_le (h : Core cfg s F) {e e' : SegmentCheckpoint} (he : e ∈ s.history)
    (he' : e' ∈ s.history) (hle : e.ckpt ≤ e'.ckpt) : e.prevCkpt ≤ e'.prevCkpt := by
  rcases lt_or_eq_of_le hle with hlt | heq
  · exact (h.log.ascending_ckpt.rel_of_lt h.log.ascending_prevCkpt he he' hlt).le
  · rw [h.log.ascending_ckpt.eq_of_key_eq he he' heq]

/-! ## Reading chunks -/

/-- A write that is not of the current interval is in a record. -/
theorem exists_record_of_chunk (h : Core cfg s F) {tag : ChunkTag}
    (hhead : versionAt s.chunkWrites s.timeline.headCkpt tag = none) {w : Checkpoint × ChunkTag × Chunk β}
    (hw : w ∈ s.chunkWrites) (htag : w.2.1 = tag) : ∃ e ∈ s.history, e.prevCkpt = w.1 ∧
      e.containsChunk tag = true ∧ (objectOf cfg s.storage tag e).isSome = true := by
  rcases h.chunkUnder w hw with hc | ⟨e, he, hc⟩
  · exact absurd htag (versionAt_eq_none_iff.mp hhead w hw hc)
  · have hsome : (objectOf cfg s.storage tag e).isSome = true := by
      rw [objectOf, h.chunkAt, Option.isSome_iff_ne_none, Ne, versionAt_eq_none_iff]
      exact fun hall => hall w hw hc.symm htag
    refine ⟨e, he, hc, ?_, hsome⟩
    rw [← h.objects.sealed e he tag]
    exact hsome

/-- **The read-locked section of `get_chunk`** finds a version as new as every write so far, or every
write so far is in a record at or below the base. -/
theorem getChunkLocked (h : Core cfg s F) (p : ι) (tag : ChunkTag) :
    (∃ c, (s.db p).getChunkLocked cfg tag = .ok (some c) ∧
      Recent s.chunkWrites tag s.chunkWrites.length c) ∨
    (s.db p).getChunkLocked cfg tag = .ok none ∧ ∀ w ∈ s.chunkWrites, w.2.1 = tag →
      ∃ e ∈ s.history, e.prevCkpt = w.1 ∧ e.containsChunk tag = true ∧
        e.ckpt ≤ s.timeline.baseCkpt := by
  have hprobe : (if (s.db p).draft.containsChunk tag then
      (s.db p).tryReadChunkAt cfg tag (s.db p).timeline.headCkpt else none) =
      versionAt s.chunkWrites s.timeline.headCkpt tag :=
    (Db.probeHead_eq (s := s.db p) h.draft h.objects tag).trans (h.chunkAt _ tag)
  have hasc := h.log.ascending_ckpt
  rw [Db.getChunkLocked, hprobe]
  cases hhead : versionAt s.chunkWrites s.timeline.headCkpt tag with
  | some c =>
    refine .inl ⟨c, rfl, recent_versionAt h.chunkMono hhead fun i _ q v' hw => ?_⟩
    exact h.under_le_head (h.chunkUnder _ (List.mem_of_getElem? hw))
  | none =>
    dsimp only
    have hrecord := fun w hw htag => h.exists_record_of_chunk hhead (w := w) hw htag
    rcases (h.records p).searchChunk tag with ⟨c, hn, hfound⟩ | ⟨hp, hr, hnone⟩
    · -- the newest object of the log
      refine .inl ⟨c, ?_, ?_⟩
      · rcases hfound with hp | ⟨hp, hr⟩
        · rw [hp]
        · rw [hp, hr]
      · obtain ⟨e, he, hobj, hmax⟩ := (newest_eq_some_iff hasc).mp hn
        rw [objectOf, show (s.db p).storage = s.storage from rfl, h.chunkAt] at hobj
        refine recent_versionAt h.chunkMono hobj fun i _ q v' hw => ?_
        obtain ⟨e', he', hprev, -, hsome⟩ := hrecord _ (List.mem_of_getElem? hw) rfl
        exact hprev.ge.trans (h.prevCkpt_le he' he (hmax e' he' hsome))
    · -- nothing above the base has the chunk
      refine .inr ⟨by rw [hp, hr], fun w hw htag => ?_⟩
      obtain ⟨e, he, hprev, hc, hsome⟩ := hrecord w hw htag
      refine ⟨e, he, hprev, hc, not_lt.mp fun hlt => ?_⟩
      rw [show objectOf cfg s.storage tag e = none from hnone e he hlt] at hsome
      exact absurd hsome (by simp)

/-! ## Reading metadata -/

theorem exists_record_of_meta (h : Core cfg s F) {rf : RelFork}
    (hhead : versionAt s.metaWrites s.timeline.headCkpt rf = none)
    {w : Checkpoint × RelFork × RelForkMeta} (hw : w ∈ s.metaWrites) (hrf : w.2.1 = rf) :
    ∃ e ∈ s.history, e.prevCkpt = w.1 ∧ (e.relforkMeta rf).isSome = true := by
  rcases h.metaUnder w hw with hc | ⟨e, he, hc⟩
  · exact absurd hrf (versionAt_eq_none_iff.mp hhead w hw hc)
  · refine ⟨e, he, hc, ?_⟩
    rw [h.metaAt e he, Option.isSome_iff_ne_none, Ne, versionAt_eq_none_iff]
    exact fun hall => hall w hw hc.symm hrf

/-- **The read-locked section of `get_meta`** finds a version as new as every write so far, or every
write so far is in a record at or below the base. -/
theorem getMetaLocked (h : Core cfg s F) (p : ι) (rf : RelFork) :
    (∃ m, (s.db p).getMetaLocked cfg rf = .ok (some m) ∧
      Recent s.metaWrites rf s.metaWrites.length m) ∨
    (s.db p).getMetaLocked cfg rf = .ok none ∧ ∀ w ∈ s.metaWrites, w.2.1 = rf →
      ∃ e ∈ s.history, e.prevCkpt = w.1 ∧ (e.relforkMeta rf).isSome = true ∧
        e.ckpt ≤ s.timeline.baseCkpt := by
  have hprobe : (s.db p).draft.getRelfork cfg.codec true rf =
      .ok (versionAt s.metaWrites s.timeline.headCkpt rf) :=
    (DraftBuffer.getRelfork_of_holds h.draft rf).trans (congrArg Except.ok (h.metaHead rf))
  have hasc := h.log.ascending_ckpt
  rw [Db.getMetaLocked, hprobe]
  cases hhead : versionAt s.metaWrites s.timeline.headCkpt rf with
  | some m =>
    refine .inl ⟨m, rfl, recent_versionAt h.metaMono hhead fun i _ q v' hw => ?_⟩
    exact h.under_le_head (h.metaUnder _ (List.mem_of_getElem? hw))
  | none =>
    dsimp only
    have hrecord := fun w hw hrf => h.exists_record_of_meta hhead (w := w) hw hrf
    have hnewest : ∀ {m}, newest (·.relforkMeta rf) s.history = some m →
        Recent s.metaWrites rf s.metaWrites.length m := by
      intro m hn
      obtain ⟨e, he, hm, hmax⟩ := (newest_eq_some_iff hasc).mp hn
      rw [h.metaAt e he] at hm
      refine recent_versionAt h.metaMono hm fun i _ q v' hw => ?_
      obtain ⟨e', he', hprev, hsome⟩ := hrecord _ (List.mem_of_getElem? hw) rfl
      exact hprev.ge.trans (h.prevCkpt_le he' he (hmax e' he' hsome))
    rcases (h.records p).searchMeta rf with ⟨m, c, hn, hw⟩ |
      ⟨oldest, r, hw, hr, ⟨m, rfl, hn⟩ | ⟨rfl, hnone⟩⟩
    · exact .inl ⟨m, by rw [hw], hnewest hn⟩
    · refine .inl ⟨m, ?_, hnewest hn⟩
      rw [hw]
      exact hr
    · refine .inr ⟨?_, fun w hw' hrf => ?_⟩
      · rw [hw]
        exact hr
      · -- nothing above the base has the metadata
        obtain ⟨e, he, hprev, hsome⟩ := hrecord w hw' hrf
        refine ⟨e, he, hprev, hsome, not_lt.mp fun hlt => ?_⟩
        rw [hnone e he hlt] at hsome
        exact absurd hsome (by simp)

/-! ## Writes -/

/-- Every manifest that a thread can read is a snapshot. -/
theorem snapshot_of_sees (h : Core cfg s F) {p : ι} {m : Manifest}
    (hm : Sees (s.storage.bases cfg.dbId) (s.cached p) s.tikm m) : Snapshot cfg s.history m := by
  rcases hm with rfl | rfl | hm | ⟨key, hm⟩
  · exact snapshot_empty cfg h.log
  · exact h.caches _
  · exact h.tikm m hm
  · exact (h.bases key m hm).1

theorem cache (h : Core cfg s F) (p : ι) {m : Manifest} (hm : Snapshot cfg s.history m) :
    Core cfg (s.cache p m) F :=
  { h with
    caches := fun k => by
      change Snapshot cfg s.history (Function.update s.caches (s.process p) m k)
      by_cases hk : k = s.process p
      · rw [hk, Function.update_self]
        exact hm
      · rw [Function.update_of_ne hk]
        exact h.caches k }

theorem setTikm (h : Core cfg s F) {tikm : Option Manifest}
    (ht : ∀ m, tikm = some m → Snapshot cfg s.history m) :
    Core cfg { s with tikm := tikm } F :=
  { h with tikm := ht }

/-- A chunk is put under the head prefix. -/
theorem putChunk (h : Core cfg s F) (tag : ChunkTag) (c : Chunk β) {draft : DraftBuffer}
    (hd : draft.Holds cfg.codec (DraftBuffer.addChunk F tag)) :
    Core cfg { s with
      storage := s.storage.putChunk cfg.dbId s.timeline.headCkpt tag c
      draft := draft
      chunkWrites := s.chunkWrites ++ [(s.timeline.headCkpt, tag, c)] }
      (DraftBuffer.addChunk F tag) :=
  { h with
    draft := hd
    objects := h.objects.putChunk h.log tag c
    chunkMono := by
      refine List.pairwise_append.mpr ⟨h.chunkMono, List.pairwise_singleton _ _,
        fun w hw w' hw' => ?_⟩
      rw [List.mem_singleton.mp hw']
      exact h.under_le_head (h.chunkUnder w hw)
    chunkUnder := fun w hw => by
      rcases List.mem_append.mp hw with hw | hw
      · exact h.chunkUnder w hw
      · rw [List.mem_singleton.mp hw]
        exact .inl rfl
    chunkAt := fun q tag' => by
      dsimp only
      rw [Storage.chunks_putChunk, versionAt_append_singleton, h.chunkAt]
      by_cases hw : q = s.timeline.headCkpt ∧ tag' = tag
      · rw [if_pos ⟨rfl, hw.1, hw.2⟩, if_pos ⟨hw.1.symm, hw.2.symm⟩]
      · rw [if_neg fun hc => hw hc.2, if_neg fun hc => hw ⟨hc.1.symm, hc.2.symm⟩] }

/-- Metadata is recorded in the draft. -/
theorem recordMeta (h : Core cfg s F) (rf : RelFork) (m : RelForkMeta) {draft : DraftBuffer}
    (hd : draft.Holds cfg.codec (DraftBuffer.addRelfork F rf m)) :
    Core cfg { s with
      draft := draft
      metaWrites := s.metaWrites ++ [(s.timeline.headCkpt, rf, m)] }
      (DraftBuffer.addRelfork F rf m) :=
  { h with
    draft := hd
    objects := ⟨h.objects.sealed, h.objects.live, h.objects.above⟩
    metaMono := by
      refine List.pairwise_append.mpr ⟨h.metaMono, List.pairwise_singleton _ _,
        fun w hw w' hw' => ?_⟩
      rw [List.mem_singleton.mp hw']
      exact h.under_le_head (h.metaUnder w hw)
    metaUnder := fun w hw => by
      rcases List.mem_append.mp hw with hw | hw
      · exact h.metaUnder w hw
      · rw [List.mem_singleton.mp hw]
        exact .inl rfl
    metaAt := fun e he rf' => by
      dsimp only
      rw [versionAt_append_singleton, if_neg, h.metaAt e he]
      exact fun hc => absurd hc.1 (h.log.prevCkpt_lt_head he).ne'
    metaHead := fun rf' => by
      dsimp only
      rw [versionAt_append_singleton, ← h.metaHead, DraftBuffer.addRelfork,
        SortedMap.lookup_insert]
      by_cases hrf : rf' = rf
      · rw [if_pos hrf, if_pos ⟨rfl, hrf.symm⟩]
      · rw [if_neg hrf, if_neg fun hc => hrf hc.2.symm] }

variable [DecidableEq ι]

/-- **A patch of a chunk.** -/
theorem patchChunk [Zero β] (h : Core cfg s F) (p : ι) (tag : ChunkTag) (offset : ℕ)
    (data : List β) : ∃ F', Core cfg (s.call cfg p (.patchChunk tag offset data)) F' := by
  obtain ⟨s', ⟨manifest, tikm, rfl, hm, ht⟩, hp⟩ :=
    Db.patchChunk_cases cfg (s.db p) .ok tag offset data
  -- the reload changes the cache and the local file only
  have hr : Core cfg { s.cache p manifest with tikm := tikm } F :=
    (h.cache p (h.snapshot_of_sees hm)).setTikm fun x hx => h.snapshot_of_sees (ht x hx)
  rcases hp with ⟨c, hp⟩ | ⟨e, hp⟩
  · obtain ⟨d, hd, hholds⟩ := DraftBuffer.holds_recordChunk h.draft tag
    refine ⟨DraftBuffer.addChunk F tag, ?_⟩
    have hput := hr.putChunk tag c hholds
    rw [call, hp, Db.putChunkAtHead, Db.recordChunkEviction]
    dsimp only [db]
    rw [hd, Storage.chunks_putChunk, if_pos ⟨rfl, rfl, rfl⟩]
    exact hput
  · refine ⟨F, ?_⟩
    rw [call, hp]
    exact hr

/-- **A write of metadata.** -/
theorem putMeta [Zero β] (h : Core cfg s F) (p : ι) (rf : RelFork) (m : RelForkMeta) :
    ∃ F', Core cfg (s.call cfg p (.putMeta rf m)) F' := by
  obtain ⟨d, hd, hholds⟩ := DraftBuffer.holds_recordRelfork h.draft rf m
  refine ⟨DraftBuffer.addRelfork F rf m, ?_⟩
  have hput := (h.cache p (h.caches (s.process p))).recordMeta rf m hholds
  rw [call, Db.putMeta, Db.recordRelforkEviction]
  dsimp only [db]
  rw [hd]
  exact hput

/-! ## Commits -/

/-- **A commit** appends what the draft holds to the log. -/
theorem commit [Zero β] (h : Core cfg s F) (p : ι) {a : Db.CommitArgs}
    (hlt : s.timeline.headCkpt < a.ckpt)
    (hlsn : s.timeline.headCkpt.lsn.toNat < a.ckpt.lsn.toNat) :
    Core cfg (s.call cfg p (.commit a)) .empty := by
  obtain ⟨d, hd, hclean⟩ := DraftBuffer.drain_of_holds h.draft
  have hnew : ∀ e ∈ [a.summary s.timeline.headCkpt F], s.timeline.headCkpt < e.ckpt := by
    intro e he
    rw [List.mem_singleton.mp he]
    exact hlt
  have hids : ∀ q ∈ (s.storage.segments cfg.dbId).entries, q.1 ≤ a.ckpt.toSegmentId :=
    h.wf.ids_le fun e he => ((h.log.bounds e (h.sub.subset he)).2.2.trans hlt.le)
  have hstored : storedRecords (appendRecord (s.storage.segments cfg.dbId)
      (a.summary s.timeline.headCkpt F)) =
      storedRecords (s.storage.segments cfg.dbId) ++ [a.summary s.timeline.headCkpt F] :=
    storedRecords_appendRecord hids
  let segments := Function.update s.storage.segments cfg.dbId
    (appendRecord (s.storage.segments cfg.dbId) (a.summary s.timeline.headCkpt F))
  have hseg : segments cfg.dbId = appendRecord (s.storage.segments cfg.dbId)
      (a.summary s.timeline.headCkpt F) := Function.update_self ..
  have hunder : ∀ {c : Checkpoint}, (c = s.timeline.headCkpt ∨ ∃ e ∈ s.history, e.prevCkpt = c) →
      c = a.ckpt ∨ ∃ e ∈ s.history ++ [a.summary s.timeline.headCkpt F], e.prevCkpt = c := by
    rintro c (rfl | ⟨e, he, hc⟩)
    · exact .inr ⟨_, List.mem_append_right _ (List.mem_singleton.mpr rfl), rfl⟩
    · exact .inr ⟨e, List.mem_append_left _ he, hc⟩
  have hcommitted : s.committed cfg a = [a.summary s.timeline.headCkpt F] := by
    rw [committed, hd]
  rw [call, Db.runCommitProtocol_ok (s := s.db p) hd a, hcommitted]
  refine
    { log := .commit h.log rfl hlt
      lsns := ?_
      lsn_lt := fun e he => ?_
      draft := hclean.holds
      window := Window.pushCheckpoint (t := s.timeline.setRedoCkpt a.redoCkpt) h.window _
      wf := ?_
      sub := ?_
      stored := fun e he hb hbase => ?_
      objects := ?_
      base_le := h.base_le.trans hlt.le
      base_ok := h.base_ok
      bases := fun k m hm => ?_
      tikm := fun m hm => (h.tikm m hm).append h.log hnew
      caches := fun k => ?_
      chunkMono := h.chunkMono
      chunkUnder := fun w hw => hunder (h.chunkUnder w hw)
      chunkAt := h.chunkAt
      metaMono := h.metaMono
      metaUnder := fun w hw => hunder (h.metaUnder w hw)
      metaAt := fun e he rf => ?_
      metaHead := fun rf => ?_ }
  · refine List.pairwise_append.mpr ⟨h.lsns, List.pairwise_singleton _ _, fun e he e' he' => ?_⟩
    rw [List.mem_singleton.mp he']
    exact h.lsn_lt e he
  · change e.prevCkpt.lsn.toNat < a.ckpt.lsn.toNat
    rcases List.mem_append.mp he with he | he
    · exact (h.lsn_lt e he).trans hlsn
    · rw [List.mem_singleton.mp he]
      exact hlsn
  · exact (congrArg SegmentsWf hseg).mpr (wf_appendRecord h.wf)
  · change (storedRecords (segments cfg.dbId)).Sublist _
    rw [hseg, hstored]
    exact h.sub.append_right _
  · change e ∈ storedRecords (segments cfg.dbId)
    rw [hseg, hstored]
    rcases List.mem_append.mp he with he | he
    · exact List.mem_append_left _ (h.stored e he hb hbase)
    · exact List.mem_append_right _ he
  · have hobj := h.objects.commit hlt
    exact ⟨hobj.sealed, hobj.live, hobj.above⟩
  · obtain ⟨hs, hc, hk⟩ := h.bases k m hm
    exact ⟨hs.append h.log hnew, hc.append hk hnew, hk.trans hlt.le⟩
  · exact ((h.cache p (h.caches (s.process p))).caches k).append h.log hnew
  · rcases List.mem_append.mp he with he | he
    · exact h.metaAt e he rf
    · rw [List.mem_singleton.mp he]
      exact h.metaHead rf
  · -- the interval after the commit has no writes yet
    refine (versionAt_eq_none_iff.mpr fun w hw hc => ?_).symm
    exact absurd hc ((h.under_le_head (h.metaUnder w hw)).trans_lt hlt).ne

/-! ## Compactions -/

theorem publishBase (h : Core cfg s F) (p : ι) {key : Checkpoint} {m : Manifest}
    (hm : Snapshot cfg s.history m) (hc : Covers s.history key m)
    (hk : key ≤ s.timeline.headCkpt) : Core cfg (s.publishBase cfg p key m) F := by
  refine { h with objects := ?_, base_ok := ?_, bases := fun k m' hm' => ?_ }
  · exact ⟨h.objects.sealed, h.objects.live, h.objects.above⟩
  · refine h.base_ok.imp_right fun ⟨m', hm'⟩ => ?_
    rw [show (s.publishBase cfg p key m).timeline = s.timeline from rfl, lookup_publishBase]
    split_ifs
    · exact ⟨m, rfl⟩
    · exact ⟨m', hm'⟩
  · rw [lookup_publishBase] at hm'
    split_ifs at hm' with hkey
    · rw [hkey, ← Option.some.inj hm']
      exact ⟨hm, hc, hk⟩
    · exact h.bases k m' hm'

theorem publishTikm (h : Core cfg s F) (p : ι) {m : Manifest} (hm : Snapshot cfg s.history m) :
    Core cfg (s.publishTikm p m) F :=
  { h with tikm := fun _ hx => Option.some.inj hx ▸ hm }

omit [DecidableEq ι] in
/-- The base moves to a stored manifest, which holds everything the old one did. -/
theorem setBase (h : Core cfg s F) {key : Checkpoint} {m : Manifest}
    (hm : (s.storage.bases cfg.dbId).lookup key = some m)
    (hold : ∀ e ∈ s.history, e.isBlank = false → e.ckpt ≤ s.timeline.baseCkpt → e.ckpt ≤ key) :
    Core cfg (s.setBase key) F :=
  { h with
    window := h.window
    stored := fun e he hb hlt =>
      h.stored e he hb (not_le.mp fun hle => absurd (hold e he hb hle) (not_le.mpr hlt))
    base_le := (h.bases key m hm).2.2
    base_ok := .inr ⟨m, hm⟩ }

omit [DecidableEq ι] in
/-- A segment below the base is deleted. -/
theorem deleteSegment (h : Core cfg s F) {id : SegmentId}
    (hid : id < s.timeline.baseCkpt.toSegmentId) : Core cfg (s.deleteSegment cfg id) F := by
  have hseg : (s.deleteSegment cfg id).storage.segments cfg.dbId =
      (s.storage.segments cfg.dbId).filter fun x _ => !List.contains [id] x := Function.update_self ..
  refine { h with wf := ?_, sub := ?_, stored := fun e he hb hlt => ?_, objects := ?_ }
  · rw [hseg]
    exact fun q hq => h.wf q (mem_of_mem_filter hq)
  · rw [hseg]
    exact (List.filter_sublist.flatMap _).trans h.sub
  · rw [hseg]
    obtain ⟨q, hq, heq⟩ := mem_storedRecords.mp (h.stored e he hb hlt)
    refine mem_storedRecords.mpr ⟨q, List.mem_filter.mpr ⟨hq, ?_⟩, heq⟩
    have hne : q.1 ≠ id := by
      rw [← (h.wf q hq).2.2 e heq]
      exact (hid.trans_le (Checkpoint.toSegmentId_mono hlt.le)).ne'
    simpa using hne
  · exact ⟨h.objects.sealed, h.objects.live, h.objects.above⟩

end Core

end Shared

end Tiko

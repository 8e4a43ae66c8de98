import Tiko.Store.Run
import Tiko.Store.Sound

/-!
# The base pointer

A compaction publishes the new base manifest under a storage key, writes it to the local file and
moves the base checkpoint of the shared memory. `run_compaction_through` takes the checkpoint of the
manifest's header for all of them; `run_compaction` takes the last checkpoint it has folded, and the
header that of the last one that recorded anything.

* `BaseAgrees`: pointer, key and header agree;
* `Org.Step.Compacts`: the steps of the runs, where no `run_compaction` ends at a blank record;
* **`baseAgrees_of_compacts`**: in such runs they agree at all times, and the base does not decrease;
* `blank_commit_splits_base`: a run in which they do not.
-/

namespace Tiko

open Lib

variable {β : Type} {cfg : StoreConfig} {s s' : Db β}

/-- The base checkpoint is the default one, or that of the header of the manifest stored under it and
of the header of the local file. -/
def BaseAgrees (cfg : StoreConfig) (s : Db β) : Prop :=
  s.timeline.baseCkpt = default ∨
    (∃ m, (s.storage.bases cfg.dbId).lookup s.timeline.baseCkpt = some m ∧
      m.checkpoint = s.timeline.baseCkpt) ∧
    ∃ m, s.tikm = some m ∧ m.checkpoint = s.timeline.baseCkpt

/-- The upper bound of `run_compaction`. -/
def compactionUpper (s : Db β) : Checkpoint :=
  if s.timeline.redoCkpt.lsn = 0 then s.timeline.headCkpt else s.timeline.redoCkpt

/-- The stored records that `run_compaction` folds. -/
def foldable (cfg : StoreConfig) (s : Db β) : List SegmentCheckpoint :=
  (storedRecords (s.storage.segments cfg.dbId)).filter fun e =>
    decide (s.timeline.baseCkpt < e.ckpt ∧ e.ckpt < compactionUpper s)

/-- The steps of the runs: patches, metadata writes, commits and compactions, where the newest record
that a `run_compaction` folds is not blank. -/
def Org.Step.Compacts (cfg : StoreConfig) (s : Db β) : Org.Step β → Prop
  | .patchChunk _ _ _ _ | .putMeta _ _ _ | .commit _ _ | .compactThrough _ _ => True
  | .compact _ => ∀ e ∈ foldable cfg s, (∀ e' ∈ foldable cfg s, e'.ckpt ≤ e.ckpt) →
      e.isBlank = false
  | _ => False

instance (cfg : StoreConfig) (s : Db β) : ∀ st : Org.Step β, Decidable (st.Compacts cfg s)
  | .compact _ => inferInstanceAs (Decidable (∀ e ∈ foldable cfg s,
      (∀ e' ∈ foldable cfg s, e'.ckpt ≤ e.ckpt) → e.isBlank = false))
  | .patchChunk _ _ _ _ | .putMeta _ _ _ | .commit _ _ | .compactThrough _ _ =>
    inferInstanceAs (Decidable True)
  | .start _ _ | .materializeBaseManifestAt _ | .deleteAllSegments _ | .seedBranch _ _ =>
    inferInstanceAs (Decidable False)

/-- The steps of the runs without that condition: the checkpoints of the commits increase. -/
def Org.Step.Increasing (s : Db β) : Org.Step β → Prop
  | .patchChunk _ _ _ _ | .putMeta _ _ _ | .compact _ | .compactThrough _ _ => True
  | .commit _ a => s.timeline.headCkpt < a.ckpt
  | _ => False

instance (s : Db β) : ∀ st : Org.Step β, Decidable (st.Increasing s)
  | .commit _ a => inferInstanceAs (Decidable (s.timeline.headCkpt < a.ckpt))
  | .patchChunk _ _ _ _ | .putMeta _ _ _ | .compact _ | .compactThrough _ _ =>
    inferInstanceAs (Decidable True)
  | .start _ _ | .materializeBaseManifestAt _ | .deleteAllSegments _ | .seedBranch _ _ =>
    inferInstanceAs (Decidable False)

/-! ## The invariant -/

/-- The invariant: the manifest snapshot is that of the base as well. -/
structure Aligned (cfg : StoreConfig) (s : Db β) : Prop where
  wf : SegmentsWf (s.storage.segments cfg.dbId)
  snapshot : s.manifest.checkpoint = s.timeline.baseCkpt
  agrees : BaseAgrees cfg s

/-- A step that leaves the base alone. -/
theorem Aligned.of_eq (h : Aligned cfg s) (hw : SegmentsWf (s'.storage.segments cfg.dbId))
    (hbases : s'.storage.bases = s.storage.bases)
    (hbase : s'.timeline.baseCkpt = s.timeline.baseCkpt) (hm : s'.manifest = s.manifest)
    (ht : s'.tikm = s.tikm) : Aligned cfg s' ∧ s.timeline.baseCkpt ≤ s'.timeline.baseCkpt := by
  refine ⟨⟨hw, by rw [hm, hbase, h.snapshot], ?_⟩, hbase.ge⟩
  unfold BaseAgrees
  rw [hbases, hbase, ht]
  exact h.agrees

theorem Aligned.baseManifest (h : Aligned cfg s) : s.baseManifest cfg = .ok (s.manifest, s) := by
  rw [Db.baseManifest, if_pos h.snapshot]

theorem Aligned.getChunk (h : Aligned cfg s) (tag : ChunkTag) : (s.getChunk cfg tag).2 = s := by
  unfold Db.getChunk
  rw [h.baseManifest]
  split
  · rfl
  · split
    · rfl
    · split
      · rfl
      · rfl
      · dsimp only
        split
        · rfl
        · split <;> rfl

theorem Aligned.patchChunk [Zero β] (h : Aligned cfg s) (out : AppendOutcome) (tag : ChunkTag)
    (offset : ℕ) (data : List β) :
    Aligned cfg (s.patchChunk cfg out tag offset data).2 ∧
      s.timeline.baseCkpt ≤ (s.patchChunk cfg out tag offset data).2.timeline.baseCkpt := by
  have hput : ∀ c, Aligned cfg (s.putChunkAtHead cfg out tag c) ∧
      s.timeline.baseCkpt ≤ (s.putChunkAtHead cfg out tag c).timeline.baseCkpt := fun c =>
    h.of_eq h.wf rfl rfl rfl rfl
  have hg := h.getChunk tag
  unfold Db.patchChunk
  split_ifs
  · exact hput _
  · cases hr : s.getChunk cfg tag with
    | mk r s₁ =>
      rw [hr] at hg
      dsimp only at hg
      subst hg
      cases r with
      | ok c => exact hput _
      | error e =>
        dsimp only
        split_ifs
        · exact hput _
        · exact ⟨h, le_rfl⟩

theorem Aligned.runCommitProtocol (h : Aligned cfg s) (out : Db.CommitOutcome)
    (a : Db.CommitArgs) : Aligned cfg (s.runCommitProtocol cfg out a).2 ∧
      s.timeline.baseCkpt ≤ (s.runCommitProtocol cfg out a).2.timeline.baseCkpt := by
  rw [Db.runCommitProtocol]
  dsimp only
  cases hdr : s.draft.drain cfg.codec out.drain with
  | mk r draft =>
    cases r with
    | error e => exact h.of_eq h.wf rfl rfl rfl rfl
    | ok F =>
      dsimp only
      split
      · exact h.of_eq h.wf rfl rfl rfl rfl
      · next summary s₁ hc =>
        obtain ⟨rfl, rfl⟩ := Prod.mk.inj (Db.SoundAt.commitSegment_eq hc)
        have hw : SegmentsWf ((s.storage.setSegments cfg.dbId (appendRecord
            (s.storage.segments cfg.dbId) (a.summary s.timeline.headCkpt F))).segments
              cfg.dbId) := by
          have hseg : (s.storage.setSegments cfg.dbId (appendRecord (s.storage.segments cfg.dbId)
              (a.summary s.timeline.headCkpt F))).segments cfg.dbId = _ := Function.update_self ..
          rw [hseg]
          exact wf_appendRecord h.wf
        split_ifs
        · exact h.of_eq hw rfl rfl rfl rfl
        · exact h.of_eq hw rfl rfl rfl rfl

/-- A compaction that publishes the manifest under the checkpoint of its header. -/
theorem Aligned.compactRange (h : Aligned cfg s) {high : Checkpoint}
    {select : SegmentCheckpoint → Bool}
    (hselect : ∀ e, select e = true → s.timeline.baseCkpt < e.ckpt)
    {newBase : List SegmentCheckpoint → Manifest → Checkpoint} {now : ℤ}
    (hnb : ∀ scs, s.loadCheckpoints cfg (s.listSegmentsInRange cfg s.timeline.baseCkpt high) =
      .ok scs → ∀ l, (scs.filter select).insertionSort Db.ckptLe = l → l ≠ [] →
        newBase l (s.manifest.applySegments cfg.sort l cfg.dbId now) = s.manifest.lastCkpt l) :
    Aligned cfg (s.compactRange cfg high select newBase now).2 ∧
      s.timeline.baseCkpt ≤
        (s.compactRange cfg high select newBase now).2.timeline.baseCkpt := by
  rw [Db.compactRange]
  cases hload : s.loadCheckpoints cfg (s.listSegmentsInRange cfg s.timeline.baseCkpt high) with
  | error e => exact ⟨h, le_rfl⟩
  | ok scs =>
    dsimp only
    split_ifs with hnil
    · exact ⟨h, le_rfl⟩
    · rw [h.baseManifest]
      dsimp only
      generalize hl : (scs.filter select).insertionSort Db.ckptLe = l at hnil
      have hbase := hnb scs hload l hl hnil
      have hmem : ∀ e ∈ l, s.timeline.baseCkpt < e.ckpt := by
        intro e he
        rw [← hl, List.mem_insertionSort] at he
        exact hselect e (List.mem_filter.mp he).2
      have hle : s.timeline.baseCkpt ≤ s.manifest.lastCkpt l := by
        rcases lastCkpt_spec s.manifest l with ⟨e, he, -, hc⟩ | ⟨-, hc⟩
        · rw [← hc]
          exact (hmem e he).le
        · rw [hc, h.snapshot]
      generalize hm : s.manifest.applySegments cfg.sort l cfg.dbId now = applied at *
      have hck : applied.checkpoint = s.manifest.lastCkpt l := hm ▸ rfl
      refine ⟨⟨?_, hck.trans hbase.symm, .inr ⟨⟨applied, ?_, hck.trans hbase.symm⟩, applied, rfl,
        hck.trans hbase.symm⟩⟩, hle.trans hbase.ge⟩
      · intro p hp
        unfold Storage.deleteSegments at hp
        dsimp only at hp
        rw [Function.update_self] at hp
        exact h.wf p (mem_of_mem_filter hp)
      · have hbases : ∀ dead, ((s.storage.putBase cfg.dbId (newBase l applied)
            applied).deleteSegments cfg.dbId dead).bases cfg.dbId = _ := fun dead =>
          Function.update_self ..
        rw [hbases]
        exact SortedMap.lookup_insert_self ..

theorem lastCkpt_of_getLast (m : Manifest) {l : List SegmentCheckpoint} (hl : l ≠ [])
    (h : (l.getLast hl).isBlank = false) : m.lastCkpt l = (l.getLast hl).ckpt := by
  conv_lhs => rw [← List.dropLast_append_getLast hl]
  rw [lastCkpt_append_singleton, if_pos h]

/-- The newest folded record is the last one of the sorted list. -/
theorem Aligned.runCompaction (h : Aligned cfg s) {now : ℤ}
    (hok : (Org.Step.compact now : Org.Step β).Compacts cfg s) :
    Aligned cfg (s.runCompaction cfg now).2 ∧
      s.timeline.baseCkpt ≤ (s.runCompaction cfg now).2.timeline.baseCkpt := by
  have hdef : s.runCompaction cfg now = if compactionUpper s ≤ s.timeline.baseCkpt then
      (.ok .noNewSegments, s)
    else s.compactRange cfg (compactionUpper s)
      (fun e => decide (s.timeline.baseCkpt < e.ckpt ∧ e.ckpt < compactionUpper s))
      (fun l _ => (l.getLast?.map (·.ckpt)).getD default) now := rfl
  rw [hdef]
  split_ifs with hle
  · exact ⟨h, le_rfl⟩
  · refine h.compactRange (fun e he => (of_decide_eq_true he).1) fun scs hload l hl hnil => ?_
    obtain ⟨scs', hload', hfilter⟩ := Db.loadCheckpoints_inRange h.wf s.timeline.baseCkpt
      (compactionUpper s)
      (fun e => decide (s.timeline.baseCkpt < e.ckpt ∧ e.ckpt < compactionUpper s))
      fun e he => ⟨(of_decide_eq_true he).1.le, (of_decide_eq_true he).2.le⟩
    have hscs : scs' = scs := Except.ok.inj (hload'.symm.trans hload)
    have hmem : ∀ e, e ∈ l ↔ e ∈ foldable cfg s := by
      intro e
      unfold foldable
      rw [← hl, List.mem_insertionSort, ← hfilter, hscs]
    have hsorted : l.Pairwise Db.ckptLe := hl ▸ List.pairwise_insertionSort _ _
    have hblank : (l.getLast hnil).isBlank = false := by
      refine hok _ ((hmem _).mp (List.getLast_mem hnil)) fun e he => ?_
      exact hsorted.rel_getLast ((hmem e).mpr he)
    rw [lastCkpt_of_getLast _ hnil hblank, List.getLast?_eq_some_getLast hnil]
    rfl

theorem Aligned.runCompactionThrough (h : Aligned cfg s) (target : Checkpoint) (now : ℤ) :
    Aligned cfg (s.runCompactionThrough cfg target now).2 ∧
      s.timeline.baseCkpt ≤ (s.runCompactionThrough cfg target now).2.timeline.baseCkpt := by
  rw [Db.runCompactionThrough]
  split_ifs with hle
  · exact ⟨h, le_rfl⟩
  · exact h.compactRange (fun e he => (of_decide_eq_true he).1) fun _ _ _ _ _ => rfl

/-! ## Runs -/

theorem aligned_of_isFresh (h : IsFresh cfg s) : Aligned cfg s where
  wf := by
    rw [h.segments]
    exact fun p hp => absurd hp List.not_mem_nil
  snapshot := by
    rw [h.manifest, h.baseCkpt]
    rfl
  agrees := .inl h.baseCkpt

variable [Zero β]

/-- The steps of one database. -/
def Db.next (cfg : StoreConfig) (s : Db β) (st : Org.Step β) : Option (Db β) :=
  some (Org.stepDb cfg.codec cfg.sort cfg.dbId s st)

theorem Aligned.next (h : Aligned cfg s) {st : Org.Step β} (hok : st.Compacts cfg s)
    (hs : s.next cfg st = some s') :
    Aligned cfg s' ∧ s.timeline.baseCkpt ≤ s'.timeline.baseCkpt := by
  obtain rfl := Option.some.inj hs
  cases st with
  | patchChunk out tag offset data => exact h.patchChunk out tag offset data
  | putMeta out rf m => exact h.of_eq h.wf rfl rfl rfl rfl
  | commit out a => exact h.runCommitProtocol out a
  | compact now => exact h.runCompaction hok
  | compactThrough target now => exact h.runCompactionThrough target now
  | start _ _ => exact hok.elim
  | materializeBaseManifestAt _ => exact hok.elim
  | deleteAllSegments _ => exact hok.elim
  | seedBranch _ _ => exact hok.elim

/-- **Pointer, key and header agree in all runs in which no compaction ends at a blank record**, and
no step of such a run moves the base back. -/
theorem baseAgrees_of_compacts {s₀ : Db β} (h₀ : IsFresh cfg s₀)
    (h : Reaches (Db.next cfg) (fun s st => st.Compacts cfg s) s₀ s) :
    BaseAgrees cfg s ∧ ∀ st s', st.Compacts cfg s → s.next cfg st = some s' →
      s.timeline.baseCkpt ≤ s'.timeline.baseCkpt := by
  have hal : Aligned cfg s := h.invariant (aligned_of_isFresh h₀)
    fun _ _ _ hI hok hs => (hI.next hok hs).1
  exact ⟨hal.agrees, fun _ _ hok hs => (hal.next hok hs).2⟩

/-- Three commits, of which `second` may have recorded something, and a compaction of the first
two. -/
def compactingTwo (second : List (Org.Step ℕ)) : List (Org.Step ℕ) :=
  [.patchChunk .ok Manifest.exampleTag 0 [7], .commit .ok ⟨⟨1, 100⟩, ⟨1, 90⟩, [], 0⟩] ++ second ++
    [.commit .ok ⟨⟨1, 200⟩, ⟨1, 190⟩, [], 0⟩, .commit .ok ⟨⟨1, 300⟩, ⟨1, 290⟩, [], 0⟩, .compact 0]

theorem baseAgrees_compactingTwo : ∃ s : Db ℕ,
    s.timeline.baseCkpt = ⟨1, 200⟩ ∧ BaseAgrees exampleConfig s := by
  have hrun : (run (Db.next exampleConfig) freshDb
      (compactingTwo [.patchChunk .ok Manifest.exampleTag 0 [8]])).map (·.timeline.baseCkpt) =
      some ⟨1, 200⟩ := by
    decide +kernel
  obtain ⟨s, hs, hbase⟩ := Option.map_eq_some_iff.mp hrun
  exact ⟨s, hbase, (baseAgrees_of_compacts isFresh_freshDb
    (reaches_of_run hs (by decide +kernel))).1⟩

/-- **A blank checkpoint at the end of the folded range splits the base**: the pointer moves to it,
the header stays at the one before. -/
theorem blank_commit_splits_base :
    ¬∀ s : Db ℕ, Reaches (Db.next exampleConfig) (fun s st => st.Increasing s) freshDb s →
      BaseAgrees exampleConfig s := by
  have hrun : (run (Db.next exampleConfig) freshDb (compactingTwo [])).map
      (fun s => (s.timeline.baseCkpt, s.tikm.map (·.checkpoint))) =
      some (⟨1, 200⟩, some ⟨1, 100⟩) := by
    decide +kernel
  obtain ⟨s, hs, h⟩ := Option.map_eq_some_iff.mp hrun
  obtain ⟨hbase, htikm⟩ := Prod.mk.inj h
  intro hall
  rcases hall s (reaches_of_run hs (by decide +kernel)) with hd | ⟨-, m, hm, hc⟩
  · rw [hbase] at hd
    exact absurd hd (by decide)
  · rw [hm, Option.map_some, hc, hbase] at htikm
    exact absurd htikm (by decide)

end Tiko

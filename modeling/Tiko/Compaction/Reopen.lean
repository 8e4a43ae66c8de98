import Tiko.Compaction.Snapshot
import Tiko.Store.Writes

/-!
# What a start reads

A start opens a manifest, the local file or the newest stored one, rebuilds the window from the stored
segments and drops the draft.

* `Durable cfg storage H head m`: the manifest `m` and the stored segments hold the log `H` between
  them: the manifest the records up to its checkpoint, the segments those above it;
* **`Durable.getMeta_restart`**, **`Durable.getChunk_restart`**: then reads after the start return the
  newest committed versions.
-/

namespace Tiko

open Lib

variable {β : Type} {cfg : StoreConfig}

/-- The log is held by a manifest and by the stored segments, which are the newest ones. -/
structure Durable (cfg : StoreConfig) (storage : Storage β) (H : List SegmentCheckpoint)
    (head : Checkpoint) (m : Manifest) : Prop where
  log : Log H head
  wf : SegmentsWf (storage.segments cfg.dbId)
  suffix : storedRecords (storage.segments cfg.dbId) <:+ H
  stored_ne : H ≠ [] → storedRecords (storage.segments cfg.dbId) ≠ []
  snapshot : Snapshot cfg H m
  stored : ∀ e ∈ H, e.isBlank = false → m.checkpoint < e.ckpt →
    e ∈ storedRecords (storage.segments cfg.dbId)
  sealed : ∀ e ∈ H, ∀ tag, (storage.chunks cfg.dbId e.prevCkpt tag).isSome = e.containsChunk tag

/-- The manifest that a start opens. -/
def Db.openedManifest (cfg : StoreConfig) (s : Db β) (tikmLost : Bool) : Manifest :=
  (if tikmLost then none else s.tikm).getD (newestBase (s.storage.bases cfg.dbId))

namespace Durable

variable {s : Db β} {H : List SegmentCheckpoint} {head : Checkpoint} {tikmLost : Bool}

/-- The shared memory that a start rebuilds. -/
theorem records (h : Durable cfg s.storage H head (s.openedManifest cfg tikmLost)) :
    (s.restart cfg tikmLost false).Records cfg H := by
  have hhead : (hydrated s.timeline.init (storedRecords (s.storage.segments cfg.dbId))
      (s.openedManifest cfg tikmLost).checkpoint).headCkpt = head := by
    rw [headCkpt_hydrated]
    by_cases hH : H = []
    · have hnil : storedRecords (s.storage.segments cfg.dbId) = [] := by
        rw [← List.suffix_nil, ← hH]
        exact h.suffix
      rw [hnil, h.log.head_of_nil hH]
      rfl
    · have hne := h.stored_ne hH
      rw [List.getLast?_eq_some_getLast hne, Option.map_some, Option.getD_some,
        h.suffix.getLast hne, h.log.getLast_ckpt hH]
  have hbase := baseCkpt_hydrated s.timeline (storedRecords (s.storage.segments cfg.dbId))
    (s.openedManifest cfg tikmLost).checkpoint
  rw [Db.restart_eq]
  refine ⟨?_, ?_, h.wf, h.suffix.sublist, fun e he hb hlt => ?_, h.sealed⟩
  · exact hhead.symm ▸ h.log
  · exact (window_hydrated _ _ _).of_suffix h.suffix h.stored_ne
  · exact h.stored e he hb (hbase ▸ hlt)

theorem containsChunk_init (d : DraftBuffer) (tag : ChunkTag) : d.init.containsChunk tag = false := by
  rw [DraftBuffer.containsChunk, DraftBuffer.init, ChunkZone.contains_init]
  rfl

theorem getRelfork_init (d : DraftBuffer) (rf : RelFork) :
    d.init.getRelfork cfg.codec true rf = .ok none := by
  rw [DraftBuffer.getRelfork, DraftBuffer.init, RelforkZone.get, ProbeTable.lookup_empty]
  rfl

theorem baseCkpt_restart (cfg : StoreConfig) (s : Db β) (tikmLost : Bool) :
    (s.restart cfg tikmLost false).timeline.baseCkpt = (s.openedManifest cfg tikmLost).checkpoint := by
  rw [Db.restart_eq]
  exact baseCkpt_hydrated ..

theorem baseManifest_restart (s : Db β) (tikmLost : Bool) :
    (s.restart cfg tikmLost false).baseManifest cfg =
      .ok (s.openedManifest cfg tikmLost, s.restart cfg tikmLost false) := by
  rw [Db.restart_eq, Db.baseManifest]
  dsimp only
  rw [baseCkpt_hydrated, if_pos rfl]
  rfl

/-- **Metadata after a start** is the newest committed one. -/
theorem getMeta_restart (h : Durable cfg s.storage H head (s.openedManifest cfg tikmLost)) (rf : RelFork) :
    ((s.restart cfg tikmLost false).getMeta cfg rf).1 = found (newest (·.relforkMeta rf) H) := by
  have hdraft : (s.restart cfg tikmLost false).draft.getRelfork cfg.codec true rf = .ok none := by
    rw [Db.restart_eq]
    exact getRelfork_init s.draft rf
  have hbase := baseCkpt_restart cfg s tikmLost
  rw [Db.getMeta, hdraft]
  dsimp only
  rcases h.records.searchMeta rf with ⟨md, c, hn, hw⟩ |
    ⟨oldest, r, hw, hr, ⟨md, rfl, hn⟩ | ⟨rfl, hnone⟩⟩
  · rw [hw, hn]
    rfl
  · rw [hw, hn]
    dsimp only
    rw [Db.getMetaBelow, hr]
    rfl
  · rw [hw]
    dsimp only
    rw [Db.getMetaBelow, hr, baseManifest_restart]
    dsimp only
    rw [hbase] at hnone
    rw [← newest_upTo hnone, ← h.snapshot.metas]
    cases (s.openedManifest cfg tikmLost).lookupRelforkMeta rf <;> rfl

/-- **A chunk after a start** is the newest committed one, if its relation is not deleted. -/
theorem getChunk_restart (h : Durable cfg s.storage H head (s.openedManifest cfg tikmLost)) {tag : ChunkTag}
    (hlive : Live H tag.relFork) : ((s.restart cfg tikmLost false).getChunk cfg tag).1 =
      found (newest (objectOf cfg s.storage tag) H) := by
  have hdraft : (s.restart cfg tikmLost false).draft.containsChunk tag = false := by
    rw [Db.restart_eq]
    exact containsChunk_init s.draft tag
  have hstorage : (s.restart cfg tikmLost false).storage = s.storage := by rw [Db.restart_eq]
  have hbase := baseCkpt_restart cfg s tikmLost
  rw [Db.getChunk, hdraft]
  rcases h.records.searchChunk tag with ⟨c, hn, hp | ⟨hp, hr⟩⟩ | ⟨hp, hr, hnone⟩
  · rw [hp, ← hstorage, hn]
    rfl
  · rw [hp, hr, ← hstorage, hn]
    rfl
  · rw [hp, hr, baseManifest_restart]
    rw [hstorage, hbase] at hnone
    have hup : ∀ e ∈ upTo (s.openedManifest cfg tikmLost).checkpoint H, e ∈ H := fun e he => (mem_upTo.mp he).1
    have hobj := h.records.newest_objectOf tag hup
    rw [hstorage, newest_upTo hnone, ← h.snapshot.chunks tag hlive] at hobj
    rw [hobj]
    cases hm : (s.openedManifest cfg tikmLost).lookup tag with
    | none => simp [hm, found]
    | some r => cases hc : s.storage.chunks r.dbId r.ckpt tag <;> simp [hm, hstorage, hc, found]

end Durable

end Tiko

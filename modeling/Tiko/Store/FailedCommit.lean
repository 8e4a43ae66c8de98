import Tiko.Draft.Failures
import Tiko.Store.Run

/-!
# Failed commits

A commit that fails before its segment is stored has moved the redo point and may have emptied the
draft.

* `LosesNothing`: everything recorded is still reported and will be in the next commit, and head,
  redo point and window are as before;
* **`losesNothing_iff`**: this holds exactly when the redo point is the old one and the contents of
  the draft survive;
* `failed_put_loses_chunk`: a failed PUT of the segment drops a recorded chunk.
-/

namespace Tiko

open Lib

variable {β : Type} {cfg : StoreConfig} {s : Db β} {F : DraftFrame}

/-! ## What a failed commit should leave -/

/-- The draft is not drained, the segment is not loaded, or its PUT fails. -/
def FailsEarly (cfg : StoreConfig) (out : Db.CommitOutcome) (s : Db β) : Prop :=
  (∃ e, (s.draft.drain cfg.codec out.drain).1 = .error e) ∨ out.loadSegment = false ∨
    out.putSegment = false

/-- Everything in `F` is reported by the draft, and is in the record of the next commit, which
succeeds without failures. -/
structure Reported (cfg : StoreConfig) (s : Db β) (F : DraftFrame) : Prop where
  chunks : ∀ tag, F.containsChunk tag = true → s.draft.containsChunk tag = true
  relforks : ∀ rf m, F.relforks.lookup rf = some m →
    s.draft.getRelfork cfg.codec true rf = .ok (some m)
  commit : ∀ a, ∃ s' seg sc, s.runCommitProtocol cfg .ok a = (.ok (), s') ∧
    (s'.storage.segments cfg.dbId).lookup a.ckpt.toSegmentId = some seg ∧
    seg.checkpoints.getLast? = some sc ∧ sc.ckpt = a.ckpt ∧
    (∀ tag, F.containsChunk tag = true → sc.containsChunk tag = true) ∧
    ∀ rf m, F.relforks.lookup rf = some m → sc.relforkMeta rf = some m

/-- The state `s'` after a failed commit in `s` still has what was recorded, and the timeline of
before. -/
structure LosesNothing (cfg : StoreConfig) (s s' : Db β) (F : DraftFrame) : Prop where
  reported : Reported cfg s' F
  headCkpt : s'.timeline.headCkpt = s.timeline.headCkpt
  redoCkpt : s'.timeline.redoCkpt = s.timeline.redoCkpt
  window : s'.timeline.iterActive = s.timeline.iterActive

/-! ## When it does -/

/-- The record of a commit is the last one of its segment. -/
theorem lookup_appendRecord (segments : SortedMap SegmentId TimelineSegment)
    (e : SegmentCheckpoint) : ∃ seg,
      (appendRecord segments e).lookup e.ckpt.toSegmentId = some seg ∧
      seg.checkpoints.getLast? = some e := by
  refine ⟨_, SortedMap.lookup_insert_self _ _ _, ?_⟩
  exact List.getLast?_concat

/-- What the next commit records is what the next drain returns. -/
theorem reported_iff : Reported cfg s F ↔ DraftBuffer.Reports cfg.codec s.draft F := by
  constructor
  · rintro ⟨hc, hr, hcommit⟩
    refine ⟨hc, hr, ?_⟩
    obtain ⟨s', seg, sc, hs, hseg, hlast, -, hsc, hsr⟩ := hcommit ⟨default, default, [], 0⟩
    cases hd : s.draft.drain cfg.codec .ok with
    | mk r d =>
      cases r with
      | error e =>
        rw [Db.runCommitProtocol] at hs
        dsimp only at hs
        rw [show Db.CommitOutcome.ok.drain = .ok from rfl, hd] at hs
        exact absurd (Prod.mk.inj hs).1 (by simp)
      | ok F' =>
        rw [Db.runCommitProtocol_ok hd] at hs
        obtain ⟨seg', hseg', hlast'⟩ := lookup_appendRecord (s.storage.segments cfg.dbId)
          (Db.CommitArgs.summary ⟨default, default, [], 0⟩ s.timeline.headCkpt F')
        have hsegs : s'.storage.segments cfg.dbId = appendRecord (s.storage.segments cfg.dbId)
            (Db.CommitArgs.summary ⟨default, default, [], 0⟩ s.timeline.headCkpt F') := by
          rw [← (Prod.mk.inj hs).2]
          exact Function.update_self ..
        rw [hsegs] at hseg
        obtain rfl : seg' = seg := Option.some.inj (hseg'.symm.trans hseg)
        obtain rfl := Option.some.inj (hlast'.symm.trans hlast)
        exact ⟨F', rfl, hsc, hsr⟩
  · rintro ⟨hc, hr, F', hF', hle⟩
    refine ⟨hc, hr, fun a => ?_⟩
    have hd : s.draft.drain cfg.codec .ok = (.ok F', (s.draft.drain cfg.codec .ok).2) :=
      Prod.ext hF' rfl
    obtain ⟨seg, hseg, hlast⟩ := lookup_appendRecord (s.storage.segments cfg.dbId)
      (a.summary s.timeline.headCkpt F')
    refine ⟨_, seg, a.summary s.timeline.headCkpt F', Db.runCommitProtocol_ok hd a, ?_, hlast, rfl,
      hle.1, hle.2⟩
    rw [← hseg]
    exact congrArg (fun m : SortedMap SegmentId TimelineSegment => m.lookup a.ckpt.toSegmentId)
      (Function.update_self ..)

/-- **What an early failure leaves**: the redo point is set, and the draft is as the drain left
it. -/
theorem Db.runCommitProtocol_of_failsEarly {out : CommitOutcome} (h : FailsEarly cfg out s)
    (a : CommitArgs) : ∃ e, s.runCommitProtocol cfg out a = (.error e,
      { s with
        timeline := s.timeline.setRedoCkpt a.redoCkpt
        draft := (s.draft.drain cfg.codec out.drain).2 }) := by
  rw [runCommitProtocol]
  dsimp only
  cases hd : s.draft.drain cfg.codec out.drain with
  | mk r d =>
    cases r with
    | error e => exact ⟨e, rfl⟩
    | ok F' =>
      have hstorage : out.loadSegment = false ∨ out.putSegment = false := by
        rcases h with ⟨e, he⟩ | h
        · rw [hd] at he
          exact absurd he (by simp)
        · exact h
      dsimp only
      rw [commitSegment]
      dsimp only
      cases hl : out.loadSegment with
      | false => exact ⟨.io, rfl⟩
      | true =>
        have hp : out.putSegment = false := hstorage.resolve_left (by simp [hl])
        rw [hp]
        exact ⟨.io, rfl⟩

/-- **A commit that fails before its segment is stored loses nothing exactly when the redo point is
the old one and the contents of the draft survive.** -/
theorem losesNothing_iff (hF : s.draft.Holds cfg.codec F) {out : Db.CommitOutcome}
    (hfail : FailsEarly cfg out s) (a : Db.CommitArgs) :
    (∃ e, (s.runCommitProtocol cfg out a).1 = .error e) ∧
    (LosesNothing cfg s (s.runCommitProtocol cfg out a).2 F ↔
      a.redoCkpt = s.timeline.redoCkpt ∧ DraftBuffer.Survives cfg.codec out.drain s.draft F) := by
  obtain ⟨e, hs⟩ := Db.runCommitProtocol_of_failsEarly hfail a
  rw [hs]
  refine ⟨⟨e, rfl⟩, ?_⟩
  rw [← DraftBuffer.reports_drain_iff hF]
  constructor
  · rintro ⟨hrep, -, hredo, -⟩
    exact ⟨hredo, reported_iff.mp hrep⟩
  · rintro ⟨hredo, hrep⟩
    exact ⟨reported_iff.mpr hrep, rfl, hredo, rfl⟩

/-! ## A failed PUT -/

/-- A database that has recorded one chunk. -/
def recordedDb : Db ℕ := (freshDb.patchChunk exampleConfig .ok Manifest.exampleTag 0 [7]).2

/-- What is recorded there. -/
def recordedFrame : DraftFrame := DraftBuffer.addChunk .empty Manifest.exampleTag

theorem holds_recordedDb : recordedDb.draft.Holds exampleConfig.codec recordedFrame := by
  obtain ⟨s', hs, hinv⟩ :=
    (inv_of_isFresh isFresh_freshDb).patchChunk Manifest.exampleTag 0 [7]
  rw [recordedDb, hs]
  exact hinv.draft

/-- The commit of the examples; the redo point stays where it is. -/
def exampleCommit : Db.CommitArgs := ⟨⟨1, 100⟩, default, [], 0⟩

/-- The spill file cannot be read back. -/
def failedRead : Db.CommitOutcome := { Db.CommitOutcome.ok with drain := ⟨.ok, false, true⟩ }

/-- The PUT of the segment fails. -/
def failedPut : Db.CommitOutcome := { Db.CommitOutcome.ok with putSegment := false }

theorem failsEarly_failedRead : FailsEarly exampleConfig failedRead recordedDb := by
  obtain ⟨d, hd, -⟩ := DraftBuffer.holds_spillToFile holds_recordedDb
  refine .inl ⟨.io, ?_⟩
  rw [DraftBuffer.drain, show failedRead.drain.append = .ok from rfl, hd]
  rfl

theorem losesNothing_failedRead : LosesNothing exampleConfig recordedDb
    (recordedDb.runCommitProtocol exampleConfig failedRead exampleCommit).2 recordedFrame :=
  (losesNothing_iff holds_recordedDb failsEarly_failedRead exampleCommit).2.mpr
    ⟨rfl, by
      rw [DraftBuffer.Survives, if_pos (.inr rfl)]
      exact fun h => absurd h.1 (by decide)⟩

/-- A failed PUT of the segment drops a recorded chunk from the draft. -/
theorem failed_put_loses_chunk :
    FailsEarly exampleConfig failedPut recordedDb ∧
    recordedDb.draft.Holds exampleConfig.codec recordedFrame ∧
    recordedFrame.containsChunk Manifest.exampleTag = true ∧
    ¬LosesNothing exampleConfig recordedDb
      (recordedDb.runCommitProtocol exampleConfig failedPut exampleCommit).2 recordedFrame := by
  have hfail : FailsEarly exampleConfig failedPut recordedDb := .inr (.inr rfl)
  refine ⟨hfail, holds_recordedDb, rfl, fun h => ?_⟩
  obtain ⟨e, hs⟩ := Db.runCommitProtocol_of_failsEarly hfail exampleCommit
  obtain ⟨d, hd, hclean⟩ := DraftBuffer.drain_of_holds holds_recordedDb
  have hc := h.reported.chunks Manifest.exampleTag rfl
  -- the drain has succeeded, so that the draft is empty
  rw [hs, show failedPut.drain = .ok from rfl, hd, DraftBuffer.containsChunk, hclean.chunks,
    ChunkZone.contains_init, if_neg Bool.false_ne_true, hclean.hasSpilled] at hc
  exact absurd hc (by decide)

end Tiko

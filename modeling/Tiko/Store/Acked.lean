import Tiko.Lib.Reach
import Tiko.Store.FailedCommit
import Tiko.Store.Sound

/-!
# Acknowledged writes

A write that returns has been recorded in the draft, and the next commit that returns stores the
record, unless the spill file fails in between: a spill empties the zones before it appends to the
file, and a record drops the error.

* `DraftBuffer.Intact`: what zones and file hold together, whatever `has_spilled` says;
* `DraftBuffer.SpillKeeps`: the spills that lose nothing, `intact_spillToFile`;
* `Acked`: a database with the frame of what was acknowledged since the last commit that returned;
* `Acked.Keeps`: the steps that lose nothing;
* **`acked_recorded`**: in such runs every acknowledged write is in the next commit;
* `failed_spill_loses_acked`: a run in which a spill fails.
-/

namespace Tiko

open Lib

namespace DraftBuffer

variable {codec : FrameCodec} {d d' : DraftBuffer} {F : DraftFrame}

/-! ## Spills that lose nothing -/

/-- Zones and file hold `F`. -/
def Intact (codec : FrameCodec) (d : DraftBuffer) (F : DraftFrame) : Prop :=
  Holds codec { d with hasSpilled := true } F

/-- The file has everything that the zones have. -/
def InFile (codec : FrameCodec) (d : DraftBuffer) : Prop :=
  ∃ f, readSpillFile codec true d.file = .ok f ∧ f.mergeFrame d.zonesFrame = f

/-- A spill that loses nothing: there is nothing to append, or the append succeeds, or it writes
nothing and the file has everything, or it writes the whole frame. -/
def SpillKeeps (codec : FrameCodec) (out : AppendOutcome) (d : DraftBuffer) : Prop :=
  d.zonesFrame.isEmpty = true ∨ out = .ok ∨ (out.written = 0 ∧ InFile codec d) ∨
    (frameBytes codec d.zonesFrame).length ≤ out.written

/-- A record of a chunk that loses nothing: a spill at the watermark keeps everything, and one that
has to make room succeeds. -/
def RecordChunkKeeps (codec : FrameCodec) (out : AppendOutcome) (d : DraftBuffer)
    (tag : ChunkTag) : Prop :=
  match d.chunks.insert tag with
  | some (chunks, crossed) => crossed = true → SpillKeeps codec out { d with chunks := chunks }
  | none => out = .ok

/-- A record of a relation fork that loses nothing. -/
def RecordRelforkKeeps (codec : FrameCodec) (out : AppendOutcome) (d : DraftBuffer)
    (rf : RelFork) (m : RelForkMeta) : Prop :=
  match RelforkZone.insert d.relforks rf m with
  | some (relforks, crossed) =>
    crossed = true → SpillKeeps codec out { d with relforks := relforks }
  | none => out = .ok

theorem Clean.intact (h : d.Clean) : Intact codec d .empty := by
  obtain ⟨fs, hfs, hF⟩ : Holds codec d .empty := h.holds
  exact ⟨fs, ⟨hfs.wfChunks, hfs.wfRelforks, hfs.file_eq, hfs.fits, fun _ => rfl⟩, hF⟩

/-- A buffer with empty zones. -/
theorem intact_file {fs : List DraftFrame} (hfits : Fits fs) {file : Option Bytes}
    (hfile : file.getD [] = fs.flatMap (frameBytes codec)) (spilled : Bool) (seq : ℕ) :
    Intact codec ⟨.init, .empty, spilled, seq, file⟩ (DraftFrame.mergeAll fs) := by
  refine ⟨fs, ⟨ChunkZone.wf_init, wf_relforks_empty, hfile, hfits, fun _ => rfl⟩, ?_⟩
  have hzero : DraftBuffer.zonesFrame ⟨.init, .empty, true, seq, file⟩ = .empty :=
    zonesFrame_emptied ⟨.init, .empty, true, seq, file⟩
  rw [hzero, DraftFrame.mergeFrame_empty]

/-- **A spill that keeps everything.** -/
theorem intact_spillToFile (h : Intact codec d F) {out : AppendOutcome}
    (hk : SpillKeeps codec out d) : Intact codec (spillToFile codec out d).2 F := by
  obtain ⟨fs, hfs, rfl⟩ := h
  have hfile : d.file.getD [] = fs.flatMap (frameBytes codec) := hfs.file_eq
  change Intact codec _ ((DraftFrame.mergeAll fs).mergeFrame d.zonesFrame)
  have hwhole : ∀ {file : Option Bytes},
      file.getD [] = d.file.getD [] ++ frameBytes codec d.zonesFrame → ∀ spilled seq,
      Intact codec ⟨.init, .empty, spilled, seq, file⟩
        ((DraftFrame.mergeAll fs).mergeFrame d.zonesFrame) := by
    intro file hf spilled seq
    rw [← DraftFrame.mergeAll_append_singleton]
    refine intact_file (hfs.fits.append_singleton (size_zonesFrame_lt d)) ?_ spilled seq
    rw [hf, hfile, List.flatMap_append, List.flatMap_singleton]
  unfold spillToFile spillLocked
  split_ifs with hz
  · rw [DraftFrame.eq_empty_of_isEmpty hz, DraftFrame.mergeFrame_empty]
    exact intact_file hfs.fits hfile _ _
  · by_cases hok : out = .ok
    · subst hok
      exact hwhole rfl _ _
    · obtain ⟨file', happ, hf⟩ := file_appendSpillFrame codec hok d.file d.zonesFrame
      rw [happ]
      rcases hk with hk | hk | ⟨h0, f, hread, hmerge⟩ | hlen
      · exact absurd hk hz
      · exact absurd hk hok
      · -- nothing is written, and nothing is missing
        rw [readSpillFile_flatMap hfs.fits hfile] at hread
        rw [Except.ok.inj hread, hmerge, ← Except.ok.inj hread]
        refine intact_file hfs.fits ?_ _ _
        rw [hf, h0, List.take_zero, List.append_nil, hfile]
      · rw [List.take_of_length_le hlen] at hf
        exact hwhole hf _ _

theorem Intact.insertChunk (h : Intact codec d F) {tag : ChunkTag} {chunks : ChunkZone}
    {crossed : Bool} (hi : d.chunks.insert tag = some (chunks, crossed)) :
    Intact codec { d with chunks := chunks } (addChunk F tag) :=
  holds_of_insert_chunk h hi

theorem Intact.insertRelfork (h : Intact codec d F) {rf : RelFork} {m : RelForkMeta}
    {relforks : RelforkZone} {crossed : Bool}
    (hi : RelforkZone.insert d.relforks rf m = some (relforks, crossed)) :
    Intact codec { d with relforks := relforks } (addRelfork F rf m) :=
  holds_of_insert_relfork h hi

/-- A spill that succeeds empties the zones. -/
theorem spillToFile_ok_zones {out : AppendOutcome} {r : Unit}
    (hs : spillToFile codec out d = (.ok r, d')) :
    SpillKeeps codec out d ∧ d'.chunks = .init ∧ d'.relforks = .empty := by
  unfold spillToFile spillLocked at hs
  split_ifs at hs with hz
  · rw [← (Prod.mk.inj hs).2]
    exact ⟨.inl hz, rfl, rfl⟩
  · by_cases hok : out = .ok
    · subst hok
      rw [← (Prod.mk.inj hs).2]
      exact ⟨.inr (.inl rfl), rfl, rfl⟩
    · obtain ⟨file', happ, -⟩ := file_appendSpillFrame codec hok d.file d.zonesFrame
      rw [happ] at hs
      exact absurd (Prod.mk.inj hs).1 (by simp)

theorem exists_spillToFile_ok (codec : FrameCodec) (d : DraftBuffer) :
    ∃ d', spillToFile codec .ok d = (.ok (), d') := by
  unfold spillToFile spillLocked
  split_ifs
  · exact ⟨_, rfl⟩
  · exact ⟨_, rfl⟩

theorem intact_ite_spill (h : Intact codec d F) {out : AppendOutcome} {crossed : Bool}
    (hk : crossed = true → SpillKeeps codec out d) :
    Intact codec (if crossed then (spillToFile codec out d).2 else d) F := by
  split_ifs with hc
  · exact intact_spillToFile h (hk hc)
  · exact h

/-- **A record of a chunk that keeps everything.** -/
theorem intact_recordChunk (h : Intact codec d F) {out : AppendOutcome} {tag : ChunkTag}
    (hk : RecordChunkKeeps codec out d tag) :
    Intact codec (recordChunk codec out d tag).2 (addChunk F tag) := by
  unfold RecordChunkKeeps at hk
  rw [recordChunk, recordChunkLoop]
  cases hi : d.chunks.insert tag with
  | some p =>
    rw [hi] at hk
    exact intact_ite_spill (h.insertChunk hi) hk
  | none =>
    rw [hi] at hk
    subst hk
    obtain ⟨d₁, hs⟩ := exists_spillToFile_ok codec d
    have hd := intact_spillToFile h (.inr (.inl rfl) : SpillKeeps codec .ok d)
    obtain ⟨-, hc, -⟩ := spillToFile_ok_zones hs
    obtain ⟨z, hz⟩ := ChunkZone.insert_init tag
    rw [← hc] at hz
    dsimp only
    rw [hs] at hd ⊢
    dsimp only
    rw [recordChunkLoop, hz]
    exact intact_ite_spill (hd.insertChunk hz) fun hf => absurd hf (by simp)

/-- **A record of a relation fork that keeps everything.** -/
theorem intact_recordRelfork (h : Intact codec d F) {out : AppendOutcome} {rf : RelFork}
    {m : RelForkMeta} (hk : RecordRelforkKeeps codec out d rf m) :
    Intact codec (recordRelfork codec out d rf m).2 (addRelfork F rf m) := by
  unfold RecordRelforkKeeps at hk
  rw [recordRelfork, recordRelforkLoop]
  cases hi : RelforkZone.insert d.relforks rf m with
  | some p =>
    rw [hi] at hk
    exact intact_ite_spill (h.insertRelfork hi) hk
  | none =>
    rw [hi] at hk
    subst hk
    obtain ⟨d₁, hs⟩ := exists_spillToFile_ok codec d
    have hd := intact_spillToFile h (.inr (.inl rfl) : SpillKeeps codec .ok d)
    obtain ⟨-, -, hr⟩ := spillToFile_ok_zones hs
    obtain ⟨z, hz⟩ := RelforkZone.insert_empty rf m
    rw [← hr] at hz
    dsimp only
    rw [hs] at hd ⊢
    dsimp only
    rw [recordRelforkLoop, hz]
    exact intact_ite_spill (hd.insertRelfork hz) fun hf => absurd hf (by simp)

/-! ## Drains -/

/-- What a drain leaves: everything after an error, unless its append loses something; nothing after
it has returned the contents. -/
theorem drain_of_intact (h : Intact codec d F) (out : DrainOutcome) :
    (∃ e, (drain codec out d).1 = .error e ∧
      (SpillKeeps codec out.append d → Intact codec (drain codec out d).2 F)) ∨
    ((drain codec out d).1 = .ok F ∧ (drain codec out d).2.Clean ∧ out.read = true ∧
      out.delete = true) := by
  cases hs : spillToFile codec out.append d with
  | mk r d₁ =>
    cases r with
    | error e =>
      refine .inl ⟨e, by rw [drain, hs], fun hk => ?_⟩
      have hd := intact_spillToFile h hk
      rw [hs] at hd
      rw [drain, hs]
      exact hd
    | ok _ =>
      obtain ⟨hk, hc, hr⟩ := spillToFile_ok_zones hs
      have hd : Intact codec d₁ F := by
        have := intact_spillToFile h hk
        rwa [hs] at this
      obtain ⟨fs, hfs, hF⟩ := id hd
      have hzero : DraftBuffer.zonesFrame { d₁ with hasSpilled := true } = .empty := by
        rw [zonesFrame, hc, hr]
        exact zonesFrame_emptied d₁
      rw [hzero, DraftFrame.mergeFrame_empty] at hF
      have hfile : d₁.file.getD [] = fs.flatMap (frameBytes codec) := hfs.file_eq
      rw [drain, hs]
      dsimp only
      cases hread : out.read with
      | false => exact .inl ⟨_, rfl, fun _ => hd⟩
      | true =>
        rw [readSpillFile_flatMap hfs.fits hfile]
        cases hdel : out.delete with
        | false => exact .inl ⟨_, rfl, fun _ => hd⟩
        | true => exact .inr ⟨by rw [hF]; rfl, ⟨hc, hr, rfl, rfl⟩, rfl, rfl⟩

end DraftBuffer

/-! ## What the operations do to the draft -/

namespace Db

variable {β : Type} {cfg : StoreConfig} {s s' : Db β}

theorem draft_loadManifestAt {ckpt : Checkpoint} {m : Manifest}
    (h : s.loadManifestAt cfg ckpt = .ok (m, s')) : s'.draft = s.draft := by
  unfold loadManifestAt at h
  split_ifs at h with hd
  · rw [← (Prod.mk.inj (Except.ok.inj h)).2]
  · split at h
    · rw [← (Prod.mk.inj (Except.ok.inj h)).2]
    · split at h
      · exact absurd h (by simp)
      · rw [← (Prod.mk.inj (Except.ok.inj h)).2]

theorem draft_baseManifest {m : Manifest} (h : s.baseManifest cfg = .ok (m, s')) :
    s'.draft = s.draft := by
  unfold baseManifest at h
  dsimp only at h
  split_ifs at h with hc
  · rw [← (Prod.mk.inj (Except.ok.inj h)).2]
  · split at h
    · exact absurd h (by simp)
    · next m' s₁ hl =>
      have hd := draft_loadManifestAt hl
      rw [← (Prod.mk.inj (Except.ok.inj h)).2]
      exact hd

theorem draft_getChunk (tag : ChunkTag) : (s.getChunk cfg tag).2.draft = s.draft := by
  unfold getChunk
  split
  · rfl
  · split
    · rfl
    · split
      · rfl
      · rfl
      · split
        · rfl
        · next m s₁ hb =>
          have hd := draft_baseManifest hb
          split
          · exact hd
          · split
            · exact hd
            · exact hd

theorem draft_patchChunk [Zero β] (s : Db β) (cfg : StoreConfig) (out : AppendOutcome) (tag : ChunkTag)
    (offset : ℕ) (data : List β) :
    ((s.patchChunk cfg out tag offset data).1 = .ok () ∧
      (s.patchChunk cfg out tag offset data).2.draft =
        (s.draft.recordChunk cfg.codec out tag).2) ∨
    ∃ e, (s.patchChunk cfg out tag offset data).1 = .error e ∧
      (s.patchChunk cfg out tag offset data).2.draft = s.draft := by
  have hput : ∀ (s₁ : Db β) (c : Chunk β), s₁.draft = s.draft →
      (s₁.putChunkAtHead cfg out tag c).draft = (s.draft.recordChunk cfg.codec out tag).2 :=
    fun s₁ c hs => by rw [← hs]; rfl
  have hg : (s.getChunk cfg tag).2.draft = s.draft := draft_getChunk tag
  unfold patchChunk
  split_ifs
  · exact .inl ⟨rfl, hput s _ rfl⟩
  · cases hr : s.getChunk cfg tag with
    | mk r s₁ =>
      rw [hr] at hg
      cases r with
      | ok c => exact .inl ⟨rfl, hput s₁ _ hg⟩
      | error e =>
        dsimp only
        split_ifs
        · exact .inl ⟨rfl, hput s₁ _ hg⟩
        · exact .inr ⟨e, rfl, hg⟩

theorem draft_compactRange {high : Checkpoint} {select : SegmentCheckpoint → Bool}
    {newBase : List SegmentCheckpoint → Manifest → Checkpoint} {now : ℤ} :
    (s.compactRange cfg high select newBase now).2.draft = s.draft := by
  unfold compactRange
  dsimp only
  split
  · rfl
  · split_ifs
    · rfl
    · split
      · rfl
      · next hb =>
        have hd := draft_baseManifest hb
        exact hd

theorem runCommitProtocol_of_drain_error {out : CommitOutcome} {e : Error}
    (hd : (s.draft.drain cfg.codec out.drain).1 = .error e) (a : CommitArgs) :
    (s.runCommitProtocol cfg out a).1 = .error e ∧
      (s.runCommitProtocol cfg out a).2.draft = (s.draft.drain cfg.codec out.drain).2 := by
  cases hdr : s.draft.drain cfg.codec out.drain with
  | mk r d =>
    rw [hdr] at hd
    dsimp only at hd
    subst hd
    rw [runCommitProtocol]
    dsimp only
    rw [hdr]
    exact ⟨rfl, rfl⟩

/-- What a commit does after its drain. -/
theorem runCommitProtocol_of_drain_ok {out : CommitOutcome} {F : DraftFrame}
    (hd : (s.draft.drain cfg.codec out.drain).1 = .ok F) (a : CommitArgs) :
    (s.runCommitProtocol cfg out a).2.draft = (s.draft.drain cfg.codec out.drain).2 ∧
      ((s.runCommitProtocol cfg out a).1 = .ok () →
        (s.runCommitProtocol cfg out a).2.storage.segments cfg.dbId =
          appendRecord (s.storage.segments cfg.dbId) (a.summary s.timeline.headCkpt F)) ∧
      (out.loadSegment = true ∧ out.putSegment = true ∧ out.getDbMeta = true ∧
        out.putDbMeta = true → (s.runCommitProtocol cfg out a).1 = .ok ()) := by
  cases hdr : s.draft.drain cfg.codec out.drain with
  | mk r d =>
    rw [hdr] at hd
    dsimp only at hd
    subst hd
    rw [runCommitProtocol]
    dsimp only
    rw [hdr]
    dsimp only
    split
    · next e hc =>
      refine ⟨rfl, fun h => absurd h (by simp), ?_⟩
      rintro ⟨h1, h2, -, -⟩
      rw [commitSegment, h1, h2] at hc
      exact absurd hc (by simp)
    · next summary s₁ hc =>
      obtain ⟨rfl, rfl⟩ := Prod.mk.inj (SoundAt.commitSegment_eq hc)
      split_ifs with hm
      · refine ⟨rfl, fun h => absurd h (by simp), ?_⟩
        rintro ⟨-, -, h3, h4⟩
        rw [h3, h4] at hm
        exact absurd hm (by simp)
      · exact ⟨rfl, fun _ => Function.update_self .., fun _ => rfl⟩

end Db

/-! ## Runs -/

variable {β : Type} {cfg : StoreConfig}

/-- A database, and the frame of what was acknowledged since the last commit that returned. -/
structure Acked (β : Type) where
  db : Db β
  acked : DraftFrame

namespace Acked

/-- The commit fails in its drain. -/
def DrainFails (out : DraftBuffer.DrainOutcome) (d : DraftBuffer) : Prop :=
  (d.zonesFrame.isEmpty = false ∧ out.append ≠ .ok) ∨ out.read = false ∨ out.delete = false

/-- No storage operation of the commit fails. -/
def Stores (out : Db.CommitOutcome) : Prop :=
  out.loadSegment = true ∧ out.putSegment = true ∧ out.getDbMeta = true ∧ out.putDbMeta = true

/-- Nothing is recorded. -/
def Blank (codec : FrameCodec) (d : DraftBuffer) : Prop :=
  d.zonesFrame.isEmpty = true ∧ readSpillFile codec true d.file = .ok .empty

/-- The steps that lose nothing: every spill keeps what it drains, a commit does not fail after its
drain, and a start finds nothing in the zones that is not in the file. -/
def Keeps (cfg : StoreConfig) (s : Acked β) : Org.Step β → Prop
  | .patchChunk out tag _ _ => DraftBuffer.RecordChunkKeeps cfg.codec out s.db.draft tag
  | .putMeta out rf m => DraftBuffer.RecordRelforkKeeps cfg.codec out s.db.draft rf m
  | .commit out _ => DraftBuffer.SpillKeeps cfg.codec out.drain.append s.db.draft ∧
      (DrainFails out.drain s.db.draft ∨ Stores out ∨ Blank cfg.codec s.db.draft)
  | .start _ _ => DraftBuffer.InFile cfg.codec s.db.draft
  | _ => True

section

variable [Zero β]

/-- What is acknowledged after a step. -/
def acknowledge (cfg : StoreConfig) (s : Acked β) : Org.Step β → DraftFrame
  | .patchChunk out tag offset data =>
    match (s.db.patchChunk cfg out tag offset data).1 with
    | .ok _ => DraftBuffer.addChunk s.acked tag
    | .error _ => s.acked
  | .putMeta out rf m =>
    match (s.db.putMeta cfg out rf m).1 with
    | .ok _ => DraftBuffer.addRelfork s.acked rf m
    | .error _ => s.acked
  | .commit out a =>
    match (s.db.runCommitProtocol cfg out a).1 with
    | .ok _ => .empty
    | .error _ => s.acked
  | _ => s.acked

theorem acknowledge_commit_ok {s : Acked β} {out : Db.CommitOutcome} {a : Db.CommitArgs}
    (h : (s.db.runCommitProtocol cfg out a).1 = .ok ()) :
    s.acknowledge cfg (.commit out a) = .empty := by
  simp [acknowledge, h]

theorem acknowledge_commit_error {s : Acked β} {out : Db.CommitOutcome} {a : Db.CommitArgs}
    {e : Error} (h : (s.db.runCommitProtocol cfg out a).1 = .error e) :
    s.acknowledge cfg (.commit out a) = s.acked := by
  simp [acknowledge, h]

/-- The steps. -/
def next (cfg : StoreConfig) (s : Acked β) (st : Org.Step β) : Option (Acked β) :=
  some ⟨Org.stepDb cfg.codec cfg.sort cfg.dbId s.db st, s.acknowledge cfg st⟩

end

/-- The invariant: the draft holds everything that was acknowledged. -/
def Inv (cfg : StoreConfig) (s : Acked β) : Prop :=
  ∃ F, DraftBuffer.Intact cfg.codec s.db.draft F ∧ s.acked.Le F

end Acked

theorem DraftFrame.Le.addChunk {f g : DraftFrame} (h : f.Le g) (tag : ChunkTag) :
    (DraftBuffer.addChunk f tag).Le (DraftBuffer.addChunk g tag) := by
  refine ⟨fun tag' ht => ?_, h.2⟩
  change SortedSet.contains (SortedSet.add _ tag) tag' = true at ht ⊢
  rw [SortedSet.contains_add, Bool.or_eq_true] at ht ⊢
  exact ht.imp_right (h.1 tag')

theorem DraftFrame.Le.addRelfork {f g : DraftFrame} (h : f.Le g) (rf : RelFork) (m : RelForkMeta) :
    (DraftBuffer.addRelfork f rf m).Le (DraftBuffer.addRelfork g rf m) := by
  refine ⟨h.1, fun rf' m' hm => ?_⟩
  change (SortedMap.insert _ rf m).lookup rf' = some m' at hm ⊢
  rw [SortedMap.lookup_insert] at hm ⊢
  split_ifs at hm ⊢
  · exact hm
  · exact h.2 rf' m' hm

namespace Acked

variable {s s' : Acked β}

theorem eq_empty_of_blank {codec : FrameCodec} {d : DraftBuffer} {F : DraftFrame}
    (h : DraftBuffer.Intact codec d F) (hb : Blank codec d) : F = .empty := by
  obtain ⟨fs, hfs, rfl⟩ := h
  have hz : DraftBuffer.zonesFrame { d with hasSpilled := true } = .empty :=
    DraftFrame.eq_empty_of_isEmpty hb.1
  have hread : readSpillFile codec true d.file = .ok (DraftFrame.mergeAll fs) :=
    readSpillFile_flatMap hfs.fits hfs.file_eq
  rw [hz, DraftFrame.mergeFrame_empty]
  exact Except.ok.inj (hread.symm.trans hb.2)

theorem Inv.commit (h : Inv cfg s) [Zero β] {out : Db.CommitOutcome} {a : Db.CommitArgs}
    (hok : s.Keeps cfg (.commit out a)) :
    Inv cfg ⟨(s.db.runCommitProtocol cfg out a).2, s.acknowledge cfg (.commit out a)⟩ := by
  obtain ⟨F, hF, hle⟩ := h
  obtain ⟨hkeeps, hcases⟩ := hok
  rcases DraftBuffer.drain_of_intact hF out.drain with ⟨e, he, hd⟩ | ⟨hd, hclean, hread, hdel⟩
  · obtain ⟨hr, hdraft⟩ := Db.runCommitProtocol_of_drain_error he a
    refine ⟨F, ?_, ?_⟩
    · rw [hdraft]
      exact hd hkeeps
    · rw [acknowledge_commit_error hr]
      exact hle
  · obtain ⟨hdraft, -, hstores⟩ := Db.runCommitProtocol_of_drain_ok hd a
    refine ⟨.empty, ?_, ?_⟩
    · rw [hdraft]
      exact hclean.intact
    · rcases hcases with hfail | hst | hblank
      · -- a drain that returns has not failed
        exfalso
        rcases hfail with ⟨hz, ha⟩ | hf | hf
        · obtain ⟨file', happ, -⟩ := file_appendSpillFrame cfg.codec ha s.db.draft.file
            s.db.draft.zonesFrame
          rw [DraftBuffer.drain, DraftBuffer.spillToFile, DraftBuffer.spillLocked,
            if_neg (by simp [hz]), happ] at hd
          exact absurd hd (by simp)
        · rw [hread] at hf
          exact absurd hf (by simp)
        · rw [hdel] at hf
          exact absurd hf (by simp)
      · rw [acknowledge_commit_ok (hstores hst)]
        exact .refl _
      · rw [eq_empty_of_blank hF hblank] at hle
        cases hr : (s.db.runCommitProtocol cfg out a).1 with
        | ok _ =>
          rw [acknowledge_commit_ok hr]
          exact .refl _
        | error _ =>
          rw [acknowledge_commit_error hr]
          exact hle

theorem Inv.start (h : Inv cfg s) {tikmLost inRecovery : Bool}
    (hok : s.Keeps cfg (.start tikmLost inRecovery)) :
    Inv cfg ⟨s.db.restart cfg tikmLost inRecovery, s.acked⟩ := by
  obtain ⟨F, ⟨fs, hfs, rfl⟩, hle⟩ := h
  obtain ⟨f, hread, hmerge⟩ := hok
  have hfile : s.db.draft.file.getD [] = fs.flatMap (frameBytes cfg.codec) := hfs.file_eq
  rw [readSpillFile_flatMap hfs.fits hfile] at hread
  rw [← Except.ok.inj hread] at hmerge
  refine ⟨DraftFrame.mergeAll fs, ?_, ?_⟩
  · rw [Db.restart_eq]
    exact DraftBuffer.intact_file hfs.fits hfile false 0
  · rw [← hmerge]
    exact hle

/-- A step that leaves the draft alone. -/
theorem Inv.of_draft (h : Inv cfg s) {db : Db β} (hd : db.draft = s.db.draft) :
    Inv cfg ⟨db, s.acked⟩ := by
  obtain ⟨F, hF, hle⟩ := h
  exact ⟨F, by rw [hd]; exact hF, hle⟩

variable [Zero β]

theorem Inv.next (h : Inv cfg s) {st : Org.Step β} (hok : s.Keeps cfg st)
    (hs : s.next cfg st = some s') : Inv cfg s' := by
  obtain rfl := Option.some.inj hs
  cases st with
  | patchChunk out tag offset data =>
    obtain ⟨F, hF, hle⟩ := id h
    rcases s.db.draft_patchChunk cfg out tag offset data with ⟨hr, hd⟩ | ⟨e, hr, hd⟩
    · refine ⟨DraftBuffer.addChunk F tag, ?_, ?_⟩
      · change DraftBuffer.Intact cfg.codec (s.db.patchChunk cfg out tag offset data).2.draft _
        rw [hd]
        exact DraftBuffer.intact_recordChunk hF hok
      · have hack : s.acknowledge cfg (.patchChunk out tag offset data) =
            DraftBuffer.addChunk s.acked tag := by
          simp [acknowledge, hr]
        rw [hack]
        exact hle.addChunk tag
    · have hack : s.acknowledge cfg (.patchChunk out tag offset data) = s.acked := by
        simp [acknowledge, hr]
      rw [hack]
      exact h.of_draft hd
  | putMeta out rf m =>
    obtain ⟨F, hF, hle⟩ := h
    exact ⟨DraftBuffer.addRelfork F rf m, DraftBuffer.intact_recordRelfork hF hok,
      hle.addRelfork rf m⟩
  | commit out a => exact h.commit hok
  | compact now =>
    refine h.of_draft ?_
    change (s.db.runCompaction cfg now).2.draft = _
    rw [Db.runCompaction]
    split_ifs
    · rfl
    · exact Db.draft_compactRange
    · rfl
    · exact Db.draft_compactRange
  | compactThrough target now =>
    refine h.of_draft ?_
    change (s.db.runCompactionThrough cfg target now).2.draft = _
    rw [Db.runCompactionThrough]
    split_ifs
    · rfl
    · exact Db.draft_compactRange
  | start tikmLost inRecovery => exact h.start hok
  | materializeBaseManifestAt ckpt =>
    refine h.of_draft ?_
    change (s.db.materializeBaseManifestAt cfg true ckpt).2.draft = _
    rw [Db.materializeBaseManifestAt, if_neg (by decide)]
    split <;> rfl
  | deleteAllSegments kept => exact h.of_draft rfl
  | seedBranch parentDbId ckpt => exact h.of_draft rfl

end Acked

/-- **Acknowledged means recorded**: in every run whose steps lose nothing, the record that a commit
stores contains every chunk and the newest metadata acknowledged since the commit before it. -/
theorem acked_recorded [Zero β] {s₀ : Db β} (h₀ : s₀.draft.Clean) {s : Acked β}
    (h : Reaches (Acked.next cfg) (Acked.Keeps cfg) ⟨s₀, .empty⟩ s) {out : Db.CommitOutcome}
    {a : Db.CommitArgs} (hc : (s.db.runCommitProtocol cfg out a).1 = .ok ()) :
    ∃ seg e, ((s.db.runCommitProtocol cfg out a).2.storage.segments cfg.dbId).lookup
        a.ckpt.toSegmentId = some seg ∧ seg.checkpoints.getLast? = some e ∧ e.ckpt = a.ckpt ∧
      s.acked.Le ⟨e.chunks, e.relforks⟩ := by
  have hinv : Acked.Inv cfg s := h.invariant ⟨.empty, h₀.intact, .refl _⟩
    fun _ _ _ hI hok hs => hI.next hok hs
  obtain ⟨F, hF, hle⟩ := hinv
  rcases DraftBuffer.drain_of_intact hF out.drain with ⟨e, he, -⟩ | ⟨hd, -⟩
  · rw [(Db.runCommitProtocol_of_drain_error he a).1] at hc
    exact absurd hc (by simp)
  · obtain ⟨-, hseg, -⟩ := Db.runCommitProtocol_of_drain_ok hd a
    obtain ⟨seg, hlookup, hlast⟩ := lookup_appendRecord (s.db.storage.segments cfg.dbId)
      (a.summary s.db.timeline.headCkpt F)
    refine ⟨seg, a.summary s.db.timeline.headCkpt F, ?_, hlast, rfl, hle⟩
    rw [hseg hc]
    exact hlookup

/-! ## A failed append -/

/-- The steps in which only appends to the spill file fail. -/
def Org.Step.SpillFailures : Org.Step β → Prop
  | .commit out _ => out.drain.read = true ∧ out.drain.delete = true ∧ Acked.Stores out
  | .start _ _ | .materializeBaseManifestAt _ | .deleteAllSegments _ | .seedBranch _ _ => False
  | _ => True

/-- A write, and a commit whose append to the spill file fails. -/
def failingCommit (out : AppendOutcome) : List (Org.Step ℕ) :=
  [.patchChunk .ok Manifest.exampleTag 0 [7],
    .commit { Db.CommitOutcome.ok with drain := ⟨out, true, true⟩ } exampleCommit]

/-- The commit after it. -/
def nextCommit : Db.CommitArgs := ⟨⟨1, 200⟩, default, [], 0⟩

theorem recordChunkKeeps_ok (codec : FrameCodec) (d : DraftBuffer) (tag : ChunkTag) :
    DraftBuffer.RecordChunkKeeps codec .ok d tag := by
  unfold DraftBuffer.RecordChunkKeeps
  split
  · exact fun _ => .inr (.inl rfl)
  · rfl

/-- The frame is written and the flush fails: the next commit records the chunk. -/
theorem acked_recorded_flushFails : ∃ s, run (Acked.next exampleConfig) ⟨freshDb, .empty⟩
      (failingCommit (.writeFails 100)) = some s ∧
    s.acked.containsChunk Manifest.exampleTag = true ∧
    ∃ seg e, ((s.db.runCommitProtocol exampleConfig .ok nextCommit).2.storage.segments 7).lookup
      (nextCommit.ckpt.toSegmentId) = some seg ∧ seg.checkpoints.getLast? = some e ∧
      e.ckpt = ⟨1, 200⟩ ∧ s.acked.Le ⟨e.chunks, e.relforks⟩ := by
  have hrun : (run (Acked.next exampleConfig) ⟨freshDb, .empty⟩
      (failingCommit (.writeFails 100))).map (fun s => (s.acked.containsChunk Manifest.exampleTag,
        (s.db.runCommitProtocol exampleConfig .ok nextCommit).1)) = some (true, .ok ()) := by
    decide +kernel
  obtain ⟨s, hs, h⟩ := Option.map_eq_some_iff.mp hrun
  obtain ⟨hacked, hcommit⟩ := Prod.mk.inj h
  have hlen : (frameBytes exampleConfig.codec recordedDb.draft.zonesFrame).length ≤ 100 ∧
      recordedDb.draft.zonesFrame.isEmpty = false := by
    decide +kernel
  refine ⟨s, hs, hacked, acked_recorded ⟨rfl, rfl, rfl, rfl⟩ (reaches_of_run hs ?_) hcommit⟩
  refine ⟨recordChunkKeeps_ok exampleConfig.codec freshDb.draft Manifest.exampleTag,
    fun s₁ hs₁ => ?_⟩
  obtain rfl := Option.some.inj hs₁
  refine ⟨⟨.inr (.inr (.inr hlen.1)), .inl (.inl ⟨hlen.2, by simp⟩)⟩, fun _ _ => trivial⟩

/-- **A failed append loses an acknowledged write**: the zones have been emptied before. -/
theorem failed_spill_loses_acked :
    ¬∀ (s : Acked ℕ) (out : Db.CommitOutcome) (a : Db.CommitArgs),
      Reaches (Acked.next exampleConfig) (fun _ st => st.SpillFailures) ⟨freshDb, .empty⟩ s →
      (s.db.runCommitProtocol exampleConfig out a).1 = .ok () →
      ∀ seg e, ((s.db.runCommitProtocol exampleConfig out a).2.storage.segments 7).lookup
        a.ckpt.toSegmentId = some seg → seg.checkpoints.getLast? = some e →
        s.acked.Le ⟨e.chunks, e.relforks⟩ := by
  have hrun : ((run (Acked.next exampleConfig) ⟨freshDb, .empty⟩
      (failingCommit .openFails)).bind fun s =>
        ((((s.db.runCommitProtocol exampleConfig .ok nextCommit).2.storage.segments 7).lookup
          nextCommit.ckpt.toSegmentId).bind (·.checkpoints.getLast?)).map fun e =>
            (s.acked.containsChunk Manifest.exampleTag,
              (s.db.runCommitProtocol exampleConfig .ok nextCommit).1,
              e.containsChunk Manifest.exampleTag)) = some (true, .ok (), false) := by
    decide +kernel
  obtain ⟨s, hs, h⟩ := Option.bind_eq_some_iff.mp hrun
  obtain ⟨e, he, h⟩ := Option.map_eq_some_iff.mp h
  obtain ⟨seg, hseg, hlast⟩ := Option.bind_eq_some_iff.mp he
  obtain ⟨hacked, h⟩ := Prod.mk.inj h
  obtain ⟨hcommit, hnot⟩ := Prod.mk.inj h
  intro hall
  have hreach : Reaches (Acked.next exampleConfig) (fun _ st => st.SpillFailures)
      ⟨freshDb, .empty⟩ s :=
    reaches_of_run hs ⟨trivial, fun _ _ => ⟨⟨rfl, rfl, rfl, rfl, rfl, rfl⟩, fun _ _ => trivial⟩⟩
  have hle := hall s .ok nextCommit hreach hcommit seg e hseg hlast
  have := hle.1 Manifest.exampleTag hacked
  rw [show DraftFrame.containsChunk ⟨e.chunks, e.relforks⟩ Manifest.exampleTag =
    e.containsChunk Manifest.exampleTag from rfl, hnot] at this
  exact absurd this (by simp)

end Tiko

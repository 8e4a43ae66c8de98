import Tiko.Draft.Buffer

/-!
# What the draft buffer holds

Sequentially the draft buffer is a set of chunk tags and a map of relation forks, spread over the
zones and the frames of the spill file.

`Holds codec d F` says that `d` is well formed and that zones and file together hold the frame `F`.
Without file failures every operation is the one on `F`:

* `holds_recordChunk`, `holds_recordRelfork`: a record adds to `F`, and always returns;
* `holds_spillToFile`: a spill keeps `F`;
* `containsChunk_of_holds`, **`getRelfork_of_holds`**: lookups answer from `F`;
* **`drain_of_holds`**: a drain returns `F` and leaves nothing.
-/

namespace Tiko

open Lib

namespace DraftBuffer

variable {codec : FrameCodec}

/-- Zones are well formed, and the file consists of the frames `fs`. -/
structure HoldsFrames (codec : FrameCodec) (d : DraftBuffer) (fs : List DraftFrame) : Prop where
  wfChunks : d.chunks.Wf
  wfRelforks : RelforkZone.Wf d.relforks
  file_eq : d.file.getD [] = fs.flatMap (frameBytes codec)
  fits : Fits fs
  spilled : fs ≠ [] → d.hasSpilled = true

/-- The file's frames and the zones together hold `F`. -/
def Holds (codec : FrameCodec) (d : DraftBuffer) (F : DraftFrame) : Prop :=
  ∃ fs, HoldsFrames codec d fs ∧ F = (DraftFrame.mergeAll fs).mergeFrame d.zonesFrame

/-! ## Frames of the zones -/

theorem containsChunk_zonesFrame {d : DraftBuffer} (h : d.chunks.Wf) (tag : ChunkTag) :
    d.zonesFrame.containsChunk tag = d.chunks.contains tag :=
  ChunkZone.contains_toSet h tag

theorem lookup_zonesFrame {d : DraftBuffer} (h : RelforkZone.Wf d.relforks) (rf : RelFork) :
    d.zonesFrame.relforks.lookup rf = RelforkZone.get d.relforks rf :=
  RelforkZone.lookup_toMap h rf

theorem wf_relforks_empty : RelforkZone.Wf (.empty : RelforkZone) := ProbeTable.wf_empty _

@[simp] theorem zonesFrame_emptied (d : DraftBuffer) : d.emptied.zonesFrame = .empty := by
  refine DraftFrame.ext_lookup (fun tag => ?_) fun rf => ?_
  · rw [containsChunk_zonesFrame ChunkZone.wf_init]
    exact ChunkZone.contains_init tag
  · rw [lookup_zonesFrame wf_relforks_empty]
    exact ProbeTable.lookup_empty rf

theorem size_zonesFrame_lt (d : DraftBuffer) : d.zonesFrame.size < 2 ^ 25 := by
  have h2 : d.zonesFrame.chunks.entries.length ≤ chunkNumShards * chunkShardCap :=
    ChunkZone.length_toSet_le d.chunks
  have h3 : d.zonesFrame.relforks.entries.length ≤ relforkZoneCap :=
    (SortedMap.length_insertAll_le _ _).trans (by
      simpa [SortedMap.empty] using d.relforks.length_toList_le)
  rw [DraftFrame.size]
  have hc : chunkNumShards * chunkShardCap = 4096 := by decide
  have hr := relforkZoneCap_eq
  omega

/-! ## Spills -/

/-- What a successful spill leaves. -/
theorem holdsFrames_spillLocked {d : DraftBuffer} {fs : List DraftFrame}
    (h : HoldsFrames codec d fs) : ∃ d', spillLocked codec .ok d = (.ok (), d') ∧
      d'.zonesFrame = .empty ∧
      ∃ fs', HoldsFrames codec d' fs' ∧
        DraftFrame.mergeAll fs' = (DraftFrame.mergeAll fs).mergeFrame d.zonesFrame ∧
        d'.chunks = .init ∧ d'.relforks = .empty := by
  by_cases he : d.zonesFrame.isEmpty = true
  · refine ⟨d.emptied, by rw [spillLocked, if_pos he], zonesFrame_emptied d, fs,
      ⟨ChunkZone.wf_init, wf_relforks_empty, h.file_eq, h.fits, h.spilled⟩, ?_, rfl, rfl⟩
    rw [DraftFrame.eq_empty_of_isEmpty he, DraftFrame.mergeFrame_empty]
  · have hs : spillLocked codec .ok d = (.ok (), { d.emptied with
        file := some (d.file.getD [] ++ frameBytes codec d.zonesFrame)
        hasSpilled := true
        spillSeq := d.spillSeq + 1 }) := by
      rw [spillLocked, if_neg he]
      rfl
    refine ⟨_, hs, zonesFrame_emptied d, fs ++ [d.zonesFrame],
      ⟨ChunkZone.wf_init, wf_relforks_empty, ?_, ?_, fun _ => rfl⟩,
      DraftFrame.mergeAll_append_singleton _ _, rfl, rfl⟩
    · rw [List.flatMap_append, ← h.file_eq]
      simp
    · exact h.fits.append_singleton (size_zonesFrame_lt d)

/-- **A spill keeps the contents** and empties the zones. -/
theorem holds_spillToFile {d : DraftBuffer} {F : DraftFrame} (h : Holds codec d F) :
    ∃ d', spillToFile codec .ok d = (.ok (), d') ∧ Holds codec d' F ∧
      d'.chunks = .init ∧ d'.relforks = .empty := by
  obtain ⟨fs, hfs, rfl⟩ := h
  obtain ⟨d', hs, hz, fs', hfs', hm, hc, hr⟩ := holdsFrames_spillLocked hfs
  exact ⟨d', hs, ⟨fs', hfs', by rw [hz, DraftFrame.mergeFrame_empty, hm]⟩, hc, hr⟩

/-! ## Records -/

/-- The frame with one more chunk. -/
def addChunk (F : DraftFrame) (tag : ChunkTag) : DraftFrame :=
  { F with chunks := SortedSet.add F.chunks tag }

/-- The frame with one relation fork updated. -/
def addRelfork (F : DraftFrame) (rf : RelFork) (m : RelForkMeta) : DraftFrame :=
  { F with relforks := F.relforks.insert rf m }

theorem holds_of_insert_chunk {d : DraftBuffer} {F : DraftFrame} (h : Holds codec d F)
    {tag : ChunkTag} {chunks : ChunkZone} {crossed : Bool}
    (hi : d.chunks.insert tag = some (chunks, crossed)) :
    Holds codec { d with chunks := chunks } (addChunk F tag) := by
  obtain ⟨fs, hfs, rfl⟩ := h
  have hw := ChunkZone.wf_insert hfs.wfChunks hi
  refine ⟨fs, ⟨hw, hfs.wfRelforks, hfs.file_eq, hfs.fits, hfs.spilled⟩, ?_⟩
  refine DraftFrame.ext_lookup (fun tag' => ?_) fun rf => ?_
  · rw [DraftFrame.containsChunk_mergeFrame, containsChunk_zonesFrame hw]
    change SortedSet.contains (SortedSet.add _ tag) tag' = _
    rw [SortedSet.contains_add, ChunkZone.contains_insert hfs.wfChunks hi, Bool.or_assoc,
      ← containsChunk_zonesFrame hfs.wfChunks, ← DraftFrame.containsChunk_mergeFrame]
    rfl
  · rfl

theorem holds_of_insert_relfork {d : DraftBuffer} {F : DraftFrame} (h : Holds codec d F)
    {rf : RelFork} {m : RelForkMeta} {relforks : RelforkZone} {crossed : Bool}
    (hi : RelforkZone.insert d.relforks rf m = some (relforks, crossed)) :
    Holds codec { d with relforks := relforks } (addRelfork F rf m) := by
  obtain ⟨fs, hfs, rfl⟩ := h
  obtain ⟨fresh, hp⟩ := RelforkZone.insert_eq_some hi
  have hw : RelforkZone.Wf relforks := ProbeTable.wf_insert hfs.wfRelforks hp
  refine ⟨fs, ⟨hfs.wfChunks, hw, hfs.file_eq, hfs.fits, hfs.spilled⟩, ?_⟩
  refine DraftFrame.ext_lookup (fun tag => rfl) fun rf' => ?_
  rw [DraftFrame.lookup_relforks_mergeFrame, lookup_zonesFrame hw]
  change (SortedMap.insert _ rf m).lookup rf' = _
  rw [SortedMap.lookup_insert, RelforkZone.get, ProbeTable.lookup_insert hfs.wfRelforks hp]
  split_ifs with hrf
  · rfl
  · rw [DraftFrame.lookup_relforks_mergeFrame, lookup_zonesFrame hfs.wfRelforks]
    rfl

theorem holds_ite_spill {d : DraftBuffer} {F : DraftFrame} (h : Holds codec d F) (crossed : Bool) :
    Holds codec (if crossed then (spillToFile codec .ok d).2 else d) F := by
  split_ifs
  · obtain ⟨d', hs, hd', -⟩ := holds_spillToFile h
    rw [hs]
    exact hd'
  · exact h

/-- **A record of a chunk returns and adds the chunk.** -/
theorem holds_recordChunk {d : DraftBuffer} {F : DraftFrame} (h : Holds codec d F)
    (tag : ChunkTag) : ∃ d', recordChunk codec .ok d tag = (.ok (), d') ∧
      Holds codec d' (addChunk F tag) := by
  rw [recordChunk, recordChunkLoop]
  cases hi : d.chunks.insert tag with
  | some p => exact ⟨_, rfl, holds_ite_spill (holds_of_insert_chunk h hi) _⟩
  | none =>
    -- a spill empties the shard, so that the second round succeeds
    obtain ⟨d', hs, hd', hc, -⟩ := holds_spillToFile h
    obtain ⟨z, hz⟩ := ChunkZone.insert_init tag
    rw [← hc] at hz
    dsimp only
    rw [hs]
    dsimp only
    rw [recordChunkLoop, hz]
    exact ⟨_, rfl, holds_ite_spill (holds_of_insert_chunk hd' hz) _⟩

/-- **A record of a relation fork returns and updates it.** -/
theorem holds_recordRelfork {d : DraftBuffer} {F : DraftFrame} (h : Holds codec d F)
    (rf : RelFork) (m : RelForkMeta) : ∃ d', recordRelfork codec .ok d rf m = (.ok (), d') ∧
      Holds codec d' (addRelfork F rf m) := by
  rw [recordRelfork, recordRelforkLoop]
  cases hi : RelforkZone.insert d.relforks rf m with
  | some p => exact ⟨_, rfl, holds_ite_spill (holds_of_insert_relfork h hi) _⟩
  | none =>
    obtain ⟨d', hs, hd', -, hr⟩ := holds_spillToFile h
    obtain ⟨z, hz⟩ := RelforkZone.insert_empty rf m
    rw [← hr] at hz
    dsimp only
    rw [hs]
    dsimp only
    rw [recordRelforkLoop, hz]
    exact ⟨_, rfl, holds_ite_spill (holds_of_insert_relfork hd' hz) _⟩

/-! ## Lookups -/

/-- A recorded chunk is reported. -/
theorem containsChunk_of_holds {d : DraftBuffer} {F : DraftFrame} (h : Holds codec d F)
    {tag : ChunkTag} (ht : F.containsChunk tag = true) : d.containsChunk tag = true := by
  obtain ⟨fs, hfs, rfl⟩ := h
  rw [DraftFrame.containsChunk_mergeFrame, containsChunk_zonesFrame hfs.wfChunks,
    Bool.or_eq_true] at ht
  rw [containsChunk]
  split_ifs with hc
  · rfl
  · refine hfs.spilled fun hnil => ?_
    rcases ht with ht | ht
    · exact hc ht
    · rw [hnil] at ht
      exact absurd ht (by simp [DraftFrame.mergeAll])

/-- **The lookup of a relation fork answers from the contents.** -/
theorem getRelfork_of_holds {d : DraftBuffer} {F : DraftFrame} (h : Holds codec d F)
    (rf : RelFork) : getRelfork codec true d rf = .ok (F.relforks.lookup rf) := by
  obtain ⟨fs, hfs, rfl⟩ := h
  rw [DraftFrame.lookup_relforks_mergeFrame, lookup_zonesFrame hfs.wfRelforks, getRelfork]
  cases hg : RelforkZone.get d.relforks rf with
  | some m => rfl
  | none =>
    dsimp only
    rw [Option.none_or]
    split_ifs with hs
    · have hnil : fs = [] := by
        by_contra hne
        rw [hfs.spilled hne] at hs
        exact absurd hs (by decide)
      rw [hnil]
      rfl
    · rw [readSpillFile_flatMap hfs.fits hfs.file_eq]
      rfl

/-! ## Drains -/

/-- A buffer that holds nothing, right after a drain or an initialisation without a file. -/
structure Clean (d : DraftBuffer) : Prop where
  chunks : d.chunks = .init
  relforks : d.relforks = .empty
  hasSpilled : d.hasSpilled = false
  file : d.file = none

theorem Clean.zonesFrame_eq {d : DraftBuffer} (h : d.Clean) : d.zonesFrame = .empty := by
  rw [← zonesFrame_emptied d, zonesFrame, zonesFrame, h.chunks, h.relforks]
  rfl

theorem Clean.holds {d : DraftBuffer} (h : d.Clean) : Holds codec d .empty := by
  refine ⟨[], ⟨h.chunks ▸ ChunkZone.wf_init, h.relforks ▸ wf_relforks_empty, by rw [h.file]; rfl,
    fun f hf => absurd hf List.not_mem_nil, fun hne => absurd rfl hne⟩, ?_⟩
  rw [h.zonesFrame_eq]
  rfl

theorem Clean.spillToFile (codec : FrameCodec) {d : DraftBuffer} (h : d.Clean) :
    (spillToFile codec .ok d).2.Clean := by
  have hempty : DraftFrame.empty.isEmpty = true := rfl
  rw [DraftBuffer.spillToFile, spillLocked, h.zonesFrame_eq, if_pos hempty]
  exact ⟨rfl, rfl, h.hasSpilled, h.file⟩

/-- **A drain returns the contents and leaves nothing.** -/
theorem drain_of_holds {d : DraftBuffer} {F : DraftFrame} (h : Holds codec d F) :
    ∃ d', drain codec .ok d = (.ok F, d') ∧ d'.Clean := by
  obtain ⟨fs, hfs, rfl⟩ := h
  obtain ⟨d', hs, -, fs', hfs', hm, hc, hr⟩ := holdsFrames_spillLocked hfs
  refine ⟨{ d' with file := none, hasSpilled := false }, ?_, hc, hr, rfl, rfl⟩
  rw [drain, spillToFile, show DrainOutcome.ok.append = .ok from rfl, hs]
  dsimp only
  rw [show DrainOutcome.ok.read = true from rfl, readSpillFile_flatMap hfs'.fits hfs'.file_eq, hm]
  rfl

/-- A buffer that holds nothing has no contents. -/
theorem Clean.eq_empty {d : DraftBuffer} {F : DraftFrame} (h : d.Clean) (hF : Holds codec d F) :
    F = .empty := by
  obtain ⟨d1, h1, -⟩ := drain_of_holds hF
  have hnil : Holds codec d .empty := h.holds
  obtain ⟨d2, h2, -⟩ := drain_of_holds hnil
  rw [h1] at h2
  exact Except.ok.inj (Prod.mk.inj h2).1

end DraftBuffer

end Tiko

import Tiko.Draft.Contents

/-!
# The draft buffer under failures

What is left of the contents of a draft buffer when an operation on the spill file fails in a drain.

* `Reports codec d F`: lookups of `d` report everything in `F`, and so does the next drain;
* `readSpillFile_torn`: a frame that is cut short makes the whole file unreadable;
* **`reports_drain_iff`**: the contents survive a drain exactly under `Survives`.
-/

namespace Tiko

open Lib

/-! ## Frames that contain others -/

namespace DraftFrame

/-- Everything in `f` is in `g`, with the same metadata. -/
def Le (f g : DraftFrame) : Prop :=
  (∀ tag, f.containsChunk tag = true → g.containsChunk tag = true) ∧
    ∀ rf m, f.relforks.lookup rf = some m → g.relforks.lookup rf = some m

theorem Le.refl (f : DraftFrame) : f.Le f := ⟨fun _ h => h, fun _ _ h => h⟩

theorem le_empty_iff {f : DraftFrame} : f.Le empty ↔ f = empty := by
  refine ⟨fun h => ext_lookup (fun tag => ?_) fun rf => ?_, fun h => h ▸ Le.refl f⟩
  · by_contra hc
    exact absurd (h.1 tag (by simpa using hc)) (by simp)
  · cases hl : f.relforks.lookup rf with
    | none => rfl
    | some m => exact absurd (h.2 rf m hl) (by simp)

/-- A merge that adds nothing. -/
theorem mergeFrame_le_iff {f g : DraftFrame} : (f.mergeFrame g).Le f ↔ f.mergeFrame g = f := by
  refine ⟨fun h => ext_lookup (fun tag => ?_) fun rf => ?_, fun h => by rw [h]; exact Le.refl f⟩
  · rw [Bool.eq_iff_iff]
    exact ⟨h.1 tag, fun hf => by simp [hf]⟩
  · cases hl : (f.mergeFrame g).relforks.lookup rf with
    | some m => exact (h.2 rf m hl).symm
    | none =>
      rw [lookup_relforks_mergeFrame, Option.or_eq_none_iff] at hl
      exact hl.2.symm

theorem eq_empty_of_mergeFrame {f g : DraftFrame} (h : f.mergeFrame g = empty) : g = empty := by
  refine ext_lookup (fun tag => ?_) fun rf => ?_
  · have htag := congrArg (containsChunk · tag) h
    rw [containsChunk_mergeFrame, containsChunk_empty, Bool.or_eq_false_iff] at htag
    exact htag.1
  · have hrf := congrArg (fun F => F.relforks.lookup rf) h
    rw [lookup_relforks_mergeFrame, lookup_relforks_empty, Option.or_eq_none_iff] at hrf
    exact hrf.1

end DraftFrame

/-! ## Torn files -/

/-- The bytes of the frame that reach the file in a failed append. -/
def AppendOutcome.written : AppendOutcome → ℕ
  | .ok => 0
  | .openFails => 0
  | .writeFails n => n

theorem file_appendSpillFrame (codec : FrameCodec) {out : AppendOutcome} (hout : out ≠ .ok)
    (file : Option Bytes) (f : DraftFrame) : ∃ file',
      appendSpillFrame codec out file f = (.error .io, file') ∧
      file'.getD [] = file.getD [] ++ (frameBytes codec f).take out.written := by
  cases out with
  | ok => exact absurd rfl hout
  | openFails => exact ⟨file, rfl, by simp [AppendOutcome.written]⟩
  | writeFails n => exact ⟨_, rfl, rfl⟩

/-- A frame that is cut short is not read. -/
theorem readFrames_torn (codec : FrameCodec) {f : DraftFrame} (hf : f.size < 2 ^ 25) {n : ℕ}
    (h0 : 0 < n) (hn : n < (frameBytes codec f).length) (fuel : ℕ) (merged : DraftFrame) :
    ∃ e, readFrames codec (fuel + 1) ((frameBytes codec f).take n) merged = .error e := by
  have hlen : ((frameBytes codec f).take n).length = n := by
    rw [List.length_take]
    omega
  have hne : (frameBytes codec f).take n ≠ [] := List.ne_nil_of_length_pos (by omega)
  rw [readFrames, if_neg hne, hlen]
  split_ifs with h4
  · exact ⟨_, rfl⟩
  · have henc : (codec.encode f).length < 256 ^ 4 := by
      have := codec.length_encode_le f
      omega
    have hl4 : (Bytes.le 4 (codec.encode f).length).length = 4 := Bytes.length_le 4 _
    have htake : ((frameBytes codec f).take n).take 4 = Bytes.le 4 (codec.encode f).length := by
      rw [List.take_take, Nat.min_eq_left (by omega), frameBytes, List.take_left' hl4]
    have hfull : (frameBytes codec f).length = 4 + (codec.encode f).length := by
      rw [frameBytes, List.length_append, hl4]
    dsimp only
    rw [htake, Bytes.ofLe_le henc, if_pos (by rw [List.length_drop, hlen]; omega)]
    exact ⟨_, rfl⟩

theorem readSpillFile_torn (codec : FrameCodec) {fs : List DraftFrame} (hfs : Fits fs)
    {f : DraftFrame} (hf : f.size < 2 ^ 25) {n : ℕ} (h0 : 0 < n)
    (hn : n < (frameBytes codec f).length) {file : Option Bytes}
    (hfile : file.getD [] = fs.flatMap (frameBytes codec) ++ (frameBytes codec f).take n) :
    ∃ e, readSpillFile codec true file = .error e := by
  have hpos : 0 < ((frameBytes codec f).take n).length := by
    rw [List.length_take]
    omega
  cases file with
  | none =>
    have := congrArg List.length hfile
    rw [List.length_append] at this
    exact absurd this (by simp only [Option.getD_none, List.length_nil]; omega)
  | some bs =>
    obtain rfl : bs = _ := hfile
    obtain ⟨fuel, hfuel⟩ := Nat.exists_eq_add_of_le (length_le_length_flatMap codec fs)
    have hlen : (fs.flatMap (frameBytes codec) ++ (frameBytes codec f).take n).length + 1 =
        fs.length + ((fuel + ((frameBytes codec f).take n).length) + 1) := by
      rw [List.length_append]
      omega
    rw [readSpillFile, if_pos rfl, hlen, readFrames_append codec hfs]
    exact readFrames_torn codec hf h0 hn _ _

/-! ## What a draft reports -/

namespace DraftBuffer

variable {codec : FrameCodec}

/-- Lookups report everything in `F`, and the next drain without failures returns it. -/
structure Reports (codec : FrameCodec) (d : DraftBuffer) (F : DraftFrame) : Prop where
  chunks : ∀ tag, F.containsChunk tag = true → d.containsChunk tag = true
  relforks : ∀ rf m, F.relforks.lookup rf = some m → d.getRelfork codec true rf = .ok (some m)
  drains : ∃ F', (d.drain codec .ok).1 = .ok F' ∧ F.Le F'

/-- A buffer that holds `F'` reports what `F'` contains. -/
theorem reports_iff_of_holds {d : DraftBuffer} {F F' : DraftFrame} (h : Holds codec d F') :
    Reports codec d F ↔ F.Le F' := by
  obtain ⟨d', hd, -⟩ := drain_of_holds h
  constructor
  · rintro ⟨-, -, F'', hF'', hle⟩
    rw [hd] at hF''
    rwa [Except.ok.inj hF'']
  · intro hle
    refine ⟨fun tag ht => containsChunk_of_holds h (hle.1 tag ht), fun rf m hm => ?_, F', ?_, hle⟩
    · rw [getRelfork_of_holds h, hle.2 rf m hm]
    · rw [hd]

/-- When the contents of a draft survive a drain: an append that failed wrote nothing and had nothing
new, or it wrote the whole frame and the file was in use already; or else the drain failed after the
append, or there was nothing to lose. -/
def Survives (codec : FrameCodec) (out : DrainOutcome) (d : DraftBuffer) (F : DraftFrame) : Prop :=
  if d.zonesFrame.isEmpty = true ∨ out.append = .ok then
    out.read = true ∧ out.delete = true → F = .empty
  else
    (out.append.written = 0 ∧ readSpillFile codec true d.file = .ok F) ∨
      ((frameBytes codec d.zonesFrame).length ≤ out.append.written ∧ d.hasSpilled = true)

/-- A drain whose append does not fail. -/
theorem reports_drain_of_append {d : DraftBuffer} {F : DraftFrame} (h : Holds codec d F)
    {out : DrainOutcome} (ha : d.zonesFrame.isEmpty = true ∨ out.append = .ok) :
    Reports codec (d.drain codec out).2 F ↔ (out.read = true ∧ out.delete = true → F = .empty) := by
  obtain ⟨d1, hs, hd1, -⟩ := holds_spillToFile h
  have hspill : spillToFile codec out.append d = (.ok (), d1) := by
    rcases ha with hz | ha
    · rw [spillToFile, spillLocked, if_pos hz] at hs ⊢
      exact hs
    · rw [ha]
      exact hs
  by_cases hrd : out.read = true ∧ out.delete = true
  · -- the drain succeeds and empties the buffer
    have hok : d.drain codec out = d.drain codec .ok := by
      rw [drain, drain, hspill, show DrainOutcome.ok.append = .ok from rfl, hs, hrd.1, hrd.2]
      rfl
    obtain ⟨d', hd, hclean⟩ := drain_of_holds h
    rw [hok, hd, reports_iff_of_holds hclean.holds, DraftFrame.le_empty_iff]
    exact ⟨fun hF _ => hF, fun hF => hF hrd⟩
  · -- the file keeps everything
    have hd : (d.drain codec out).2 = d1 := by
      rw [drain, hspill]
      dsimp only
      cases hr : readSpillFile codec out.read d1.file with
      | error e => rfl
      | ok merged =>
        have hread : out.read = true := by
          by_contra hread
          rw [Bool.not_eq_true] at hread
          rw [hread] at hr
          exact absurd hr (by simp [readSpillFile])
        have hdel : out.delete = false := by simpa [hread] using hrd
        dsimp only
        rw [hdel]
        rfl
    rw [hd, reports_iff_of_holds hd1]
    exact iff_of_true (.refl F) fun hc => absurd hc hrd

/-- A buffer with empty zones reports something only through its file. -/
theorem Reports.hasSpilled {d : DraftBuffer} {F : DraftFrame} (h : Reports codec d F)
    (hc : d.chunks = .init) (hr : d.relforks = .empty) (hF : F ≠ .empty) : d.hasSpilled = true := by
  by_contra hns
  refine hF (DraftFrame.ext_lookup (fun tag => ?_) fun rf => ?_)
  · by_contra htag
    have := h.chunks tag (by simpa using htag)
    rw [containsChunk, hc, ChunkZone.contains_init, if_neg Bool.false_ne_true] at this
    exact hns this
  · cases hl : F.relforks.lookup rf with
    | none => rfl
    | some m =>
      have hget : RelforkZone.get d.relforks rf = none := by
        rw [hr]
        exact ProbeTable.lookup_empty rf
      have := h.relforks rf m hl
      rw [getRelfork, hget] at this
      dsimp only at this
      rw [if_pos (by simpa using hns)] at this
      exact absurd this (by simp)

/-- A drain whose append fails. -/
theorem reports_drain_of_append_fails {d : DraftBuffer} {F : DraftFrame} (h : Holds codec d F)
    {out : DrainOutcome} (hz : d.zonesFrame.isEmpty = false) (ha : out.append ≠ .ok) :
    Reports codec (d.drain codec out).2 F ↔
      (out.append.written = 0 ∧ readSpillFile codec true d.file = .ok F) ∨
      ((frameBytes codec d.zonesFrame).length ≤ out.append.written ∧ d.hasSpilled = true) := by
  obtain ⟨fs, hfs, rfl⟩ := h
  obtain ⟨file', happ, hfile'⟩ := file_appendSpillFrame codec ha d.file d.zonesFrame
  have hd : (d.drain codec out).2 = { d.emptied with file := file' } := by
    rw [drain, spillToFile, spillLocked, if_neg (by simp [hz]), happ]
  have hpos : 0 < (frameBytes codec d.zonesFrame).length := by
    rw [frameBytes, List.length_append, Bytes.length_le]
    omega
  rw [hfs.file_eq] at hfile'
  rw [hd]
  have hzero : DraftBuffer.zonesFrame { d.emptied with file := file' } = .empty :=
    zonesFrame_emptied d
  rcases Nat.eq_zero_or_pos out.append.written with h0 | h0
  · -- nothing was written: the zones are lost
    have hholds : Holds codec { d.emptied with file := file' } (DraftFrame.mergeAll fs) := by
      refine ⟨fs, ⟨ChunkZone.wf_init, wf_relforks_empty, ?_, hfs.fits, hfs.spilled⟩, ?_⟩
      · rw [hfile', h0, List.take_zero, List.append_nil]
      · rw [hzero, DraftFrame.mergeFrame_empty]
    rw [reports_iff_of_holds hholds, DraftFrame.mergeFrame_le_iff,
      readSpillFile_flatMap hfs.fits hfs.file_eq]
    constructor
    · intro heq
      exact .inl ⟨h0, by rw [heq]⟩
    · rintro (⟨-, heq⟩ | ⟨hle, -⟩)
      · exact (Except.ok.inj heq).symm
      · omega
  · by_cases hle : (frameBytes codec d.zonesFrame).length ≤ out.append.written
    · -- the whole frame was written: it counts when the file is in use already
      rw [List.take_of_length_le hle] at hfile'
      constructor
      · intro hrep
        refine .inr ⟨hle, hrep.hasSpilled rfl rfl fun hemp => ?_⟩
        rw [DraftFrame.eq_empty_of_mergeFrame hemp] at hz
        exact absurd hz (by decide)
      · rintro (⟨hw, -⟩ | ⟨-, hspilled⟩)
        · omega
        · have hholds : Holds codec { d.emptied with file := file' }
              ((DraftFrame.mergeAll fs).mergeFrame d.zonesFrame) := by
            refine ⟨fs ++ [d.zonesFrame], ⟨ChunkZone.wf_init, wf_relforks_empty, ?_,
              hfs.fits.append_singleton (size_zonesFrame_lt d), fun _ => hspilled⟩, ?_⟩
            · rw [hfile', List.flatMap_append, List.flatMap_singleton]
            · rw [hzero, DraftFrame.mergeFrame_empty, DraftFrame.mergeAll_append_singleton]
          exact (reports_iff_of_holds hholds).mpr (.refl _)
    · -- a torn frame makes the file unreadable
      refine iff_of_false (fun hrep => ?_) (by rintro (⟨hw, -⟩ | ⟨hw, -⟩) <;> omega)
      obtain ⟨e, he⟩ := readSpillFile_torn codec hfs.fits (size_zonesFrame_lt d) h0
        (Nat.lt_of_not_le hle) hfile'
      obtain ⟨F', hF', -⟩ := hrep.drains
      have hdrain : (DraftBuffer.drain codec .ok { d.emptied with file := file' }).1 =
          .error e := by
        rw [drain, spillToFile, spillLocked, hzero, if_pos (by rfl)]
        dsimp only [emptied]
        rw [show DrainOutcome.ok.read = true from rfl, he]
      rw [hdrain] at hF'
      exact absurd hF' (by simp)

/-- **The contents survive a drain exactly under `Survives`.** -/
theorem reports_drain_iff {d : DraftBuffer} {F : DraftFrame} (h : Holds codec d F)
    (out : DrainOutcome) : Reports codec (d.drain codec out).2 F ↔ Survives codec out d F := by
  rw [Survives]
  split_ifs with ha
  · exact reports_drain_of_append h ha
  · rw [not_or] at ha
    exact reports_drain_of_append_fails h (by simpa using ha.1) ha.2

end DraftBuffer

end Tiko

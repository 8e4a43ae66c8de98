import Tiko.Draft.Failures
import Tiko.Draft.Codec
import Tiko.Lib.Newest

/-!
# Runs of the draft buffer, and restarts

A run is a list of records and spills. From a buffer without a spill file it refines a set of tags and
a map of relation forks: **`refines_set_and_map`**.

`DraftBuffer::init` resets the flag but not the file, and `drain` reads the file whatever the flag
says. What a crash left there is `Leftover`: whole frames, then at most a piece of one.

* `Behind B d c`: `d` is `c` with the bytes `B` at the start of its file;
* **`exactAfter_restart_iff`**: a restart is exact for all runs only if nothing was left, and, when
  whole frames were left, for the runs that record everything in them again.
-/

namespace Tiko

open Lib

/-- A call on the draft buffer between two drains. -/
inductive DraftOp where
  | recordChunk (tag : ChunkTag)
  | recordRelfork (rf : RelFork) (m : RelForkMeta)
  | spillToFile
  | trySpillToFile
  deriving DecidableEq

namespace DraftOp

/-- The metadata that a call records for a relation fork. -/
def metaOf (rf : RelFork) : DraftOp → Option RelForkMeta
  | .recordRelfork rf' m => if rf' = rf then some m else none
  | _ => none

/-- The last metadata recorded for a relation fork. -/
def lastMeta (ops : List DraftOp) (rf : RelFork) : Option RelForkMeta := newest (metaOf rf) ops

/-- The effect of a call on the set and the map. -/
def record (F : DraftFrame) : DraftOp → DraftFrame
  | .recordChunk tag => DraftBuffer.addChunk F tag
  | .recordRelfork rf m => DraftBuffer.addRelfork F rf m
  | .spillToFile | .trySpillToFile => F

/-- The set of the recorded tags and the map of the last recorded metadata. -/
def recorded (ops : List DraftOp) : DraftFrame := ops.foldl record .empty

theorem lastMeta_cons (op : DraftOp) (ops : List DraftOp) (rf : RelFork) :
    lastMeta (op :: ops) rf = (lastMeta ops rf).or (metaOf rf op) := by
  rw [lastMeta, ← List.singleton_append, newest_append]
  congr 1
  simp [newest]

theorem containsChunk_foldl_record (ops : List DraftOp) (F : DraftFrame) (tag : ChunkTag) :
    (ops.foldl record F).containsChunk tag = true ↔
      .recordChunk tag ∈ ops ∨ F.containsChunk tag = true := by
  induction ops generalizing F with
  | nil => simp
  | cons op ops ih =>
    rw [List.foldl_cons, ih, List.mem_cons, or_assoc, or_left_comm]
    refine or_congr_right ?_
    cases op with
    | recordChunk tag' =>
      change SortedSet.contains (SortedSet.add F.chunks tag') tag = true ↔ _
      rw [SortedSet.contains_add, Bool.or_eq_true, decide_eq_true_eq, DraftOp.recordChunk.injEq]
      rfl
    | recordRelfork rf m => simp [record, DraftBuffer.addRelfork, DraftFrame.containsChunk]
    | spillToFile => simp [record]
    | trySpillToFile => simp [record]

theorem lookup_foldl_record (ops : List DraftOp) (F : DraftFrame) (rf : RelFork) :
    (ops.foldl record F).relforks.lookup rf = (lastMeta ops rf).or (F.relforks.lookup rf) := by
  induction ops generalizing F with
  | nil => rfl
  | cons op ops ih =>
    rw [List.foldl_cons, ih, lastMeta_cons, Option.or_assoc]
    congr 1
    cases op with
    | recordRelfork rf' m =>
      change (SortedMap.insert _ rf' m).lookup rf = _
      rw [SortedMap.lookup_insert, metaOf]
      by_cases h : rf' = rf
      · rw [if_pos h, if_pos h.symm]
        rfl
      · rw [if_neg h, if_neg (Ne.symm h)]
        rfl
    | recordChunk tag => rfl
    | spillToFile => rfl
    | trySpillToFile => rfl

theorem containsChunk_recorded (ops : List DraftOp) (tag : ChunkTag) :
    (recorded ops).containsChunk tag = true ↔ .recordChunk tag ∈ ops := by
  rw [recorded, containsChunk_foldl_record, DraftFrame.containsChunk_empty]
  simp

theorem lookup_recorded (ops : List DraftOp) (rf : RelFork) :
    (recorded ops).relforks.lookup rf = lastMeta ops rf := by
  rw [recorded, lookup_foldl_record, DraftFrame.lookup_relforks_empty, Option.or_none]

end DraftOp

namespace DraftBuffer

variable {codec : FrameCodec}

/-! ## Runs -/

variable (codec) in
/-- One call, with no file failures. -/
def perform (d : DraftBuffer) : DraftOp → Except Error Unit × DraftBuffer
  | .recordChunk tag => recordChunk codec .ok d tag
  | .recordRelfork rf m => recordRelfork codec .ok d rf m
  | .spillToFile | .trySpillToFile => spillToFile codec .ok d

variable (codec) in
/-- A run: every call has to return `Ok`. -/
def performAll : List DraftOp → DraftBuffer → Except Error DraftBuffer
  | [], d => .ok d
  | op :: ops, d =>
    match perform codec d op with
    | (.error e, _) => .error e
    | (.ok _, d') => performAll ops d'

/-- **Every call returns and does on the contents what it does on the set and the map.** -/
theorem holds_perform {d : DraftBuffer} {F : DraftFrame} (h : Holds codec d F) (op : DraftOp) :
    ∃ d', perform codec d op = (.ok (), d') ∧ Holds codec d' (op.record F) := by
  cases op with
  | recordChunk tag => exact holds_recordChunk h tag
  | recordRelfork rf m => exact holds_recordRelfork h rf m
  | spillToFile =>
    obtain ⟨d', hs, hd', -⟩ := holds_spillToFile h
    exact ⟨d', hs, hd'⟩
  | trySpillToFile =>
    obtain ⟨d', hs, hd', -⟩ := holds_spillToFile h
    exact ⟨d', hs, hd'⟩

theorem holds_performAll {d : DraftBuffer} {F : DraftFrame} (h : Holds codec d F)
    (ops : List DraftOp) : ∃ d', performAll codec ops d = .ok d' ∧
      Holds codec d' (ops.foldl DraftOp.record F) := by
  induction ops generalizing d F with
  | nil => exact ⟨d, rfl, h⟩
  | cons op ops ih =>
    obtain ⟨d1, h1, hd1⟩ := holds_perform h op
    obtain ⟨d2, h2, hd2⟩ := ih hd1
    refine ⟨d2, ?_, hd2⟩
    rw [performAll, h1]
    exact h2

/-- The state after `DraftBuffer::init` where there is no spill file. -/
theorem clean_init {d : DraftBuffer} (hfile : d.file = none) : d.init.Clean := ⟨rfl, rfl, rfl, hfile⟩

variable (codec) in
theorem holds_performAll_init {d : DraftBuffer} (hfile : d.file = none) (ops : List DraftOp) :
    ∃ d', performAll codec ops d.init = .ok d' ∧ Holds codec d' (DraftOp.recorded ops) :=
  holds_performAll (clean_init hfile).holds ops

/-- A buffer that holds nothing answers nothing. -/
theorem Clean.lookups (codec : FrameCodec) {d : DraftBuffer} (h : d.Clean) :
    (∀ tag, d.containsChunk tag = false) ∧ ∀ rf, d.getRelfork codec true rf = .ok none := by
  have hholds : Holds codec d .empty := h.holds
  refine ⟨fun tag => ?_, fun rf => getRelfork_of_holds hholds rf⟩
  rw [containsChunk, h.chunks, ChunkZone.contains_init, h.hasSpilled]
  rfl

/-- **The draft buffer refines a set and a map.** Every call returns `Ok`; lookups answer from what was
recorded; the drain returns exactly that, leaves nothing and removes the file. -/
theorem refines_set_and_map (codec : FrameCodec) {d₀ : DraftBuffer} (hfile : d₀.file = none)
    (ops : List DraftOp) :
    ∃ d, performAll codec ops d₀.init = .ok d ∧
      (∀ tag, DraftOp.recordChunk tag ∈ ops → d.containsChunk tag = true) ∧
      (∀ rf, d.getRelfork codec true rf = .ok (DraftOp.lastMeta ops rf)) ∧
      ∃ F d', d.drain codec .ok = (.ok F, d') ∧
        (∀ tag, F.containsChunk tag = true ↔ DraftOp.recordChunk tag ∈ ops) ∧
        (∀ rf, F.relforks.lookup rf = DraftOp.lastMeta ops rf) ∧
        d'.file = none ∧ (∀ tag, d'.containsChunk tag = false) ∧
        ∀ rf, d'.getRelfork codec true rf = .ok none := by
  obtain ⟨d, hd, hholds⟩ := holds_performAll_init codec hfile ops
  obtain ⟨d', hdrain, hclean⟩ := drain_of_holds hholds
  refine ⟨d, hd, fun tag htag => ?_, fun rf => ?_, _, d', hdrain, fun tag => ?_, fun rf => ?_,
    hclean.file, (hclean.lookups codec).1, (hclean.lookups codec).2⟩
  · exact containsChunk_of_holds hholds ((DraftOp.containsChunk_recorded ops tag).mpr htag)
  · rw [getRelfork_of_holds hholds, DraftOp.lookup_recorded]
  · exact DraftOp.containsChunk_recorded ops tag
  · exact DraftOp.lookup_recorded ops rf

/-- A run with a spill in the middle, after which the fork is recorded again. -/
theorem refines_set_and_map_spilled :
    ∃ d, performAll msgpack [.recordChunk ⟨1663, 5, 16384, 0, 0⟩,
        .recordRelfork ⟨1663, 5, 16384, 0⟩ ⟨8, false⟩, .spillToFile,
        .recordRelfork ⟨1663, 5, 16384, 0⟩ ⟨9, false⟩]
        (DraftBuffer.mk .init .empty true 7 none).init = .ok d ∧
      d.containsChunk ⟨1663, 5, 16384, 0, 0⟩ = true ∧
      d.getRelfork msgpack true ⟨1663, 5, 16384, 0⟩ = .ok (some ⟨9, false⟩) := by
  obtain ⟨d, hd, htag, hrf, -⟩ := @refines_set_and_map msgpack ⟨.init, .empty, true, 7, none⟩
    rfl [.recordChunk ⟨1663, 5, 16384, 0, 0⟩, .recordRelfork ⟨1663, 5, 16384, 0⟩ ⟨8, false⟩,
      .spillToFile, .recordRelfork ⟨1663, 5, 16384, 0⟩ ⟨9, false⟩]
  exact ⟨d, hd, htag _ (by decide), (hrf _).trans (congrArg Except.ok (by decide))⟩

/-! ## What a crash left in the file -/

/-- A spill file that a crash can leave: the frames `fs`, then the first bytes of another. -/
structure Leftover (codec : FrameCodec) (file : Option Bytes) (fs : List DraftFrame)
    (torn : Bytes) : Prop where
  fits : Fits fs
  nonempty : ∀ f ∈ fs, f.isEmpty = false
  cut : torn = [] ∨ ∃ g n, DraftFrame.size g < 2 ^ 25 ∧ n < (frameBytes codec g).length ∧
    torn = (frameBytes codec g).take n
  file_eq : file.getD [] = fs.flatMap (frameBytes codec) ++ torn

/-- After a restart and a run, lookups answer from what was recorded since, and the drain returns
exactly that. -/
def ExactAfter (codec : FrameCodec) (d₀ : DraftBuffer) (ops : List DraftOp) : Prop :=
  ∃ d, performAll codec ops d₀.init = .ok d ∧
    (∀ tag, DraftOp.recordChunk tag ∈ ops → d.containsChunk tag = true) ∧
    (∀ rf, d.getRelfork codec true rf = .ok (DraftOp.lastMeta ops rf)) ∧
    (d.drain codec .ok).1 = .ok (DraftOp.recorded ops)

/-- Everything in the frames is recorded again. -/
def Rerecorded (fs : List DraftFrame) (ops : List DraftOp) : Prop :=
  ∀ f ∈ fs, (∀ tag, f.containsChunk tag = true → DraftOp.recordChunk tag ∈ ops) ∧
    ∀ rf, f.relforks.lookup rf ≠ none → DraftOp.lastMeta ops rf ≠ none

/-- `d` is `c` with the bytes `B` at the start of the file. -/
structure Behind (B : Bytes) (d c : DraftBuffer) : Prop where
  chunks : d.chunks = c.chunks
  relforks : d.relforks = c.relforks
  hasSpilled : d.hasSpilled = c.hasSpilled
  file : d.file.getD [] = B ++ c.file.getD []

section Behind

variable {B : Bytes} {d c : DraftBuffer}

theorem Behind.zonesFrame_eq (h : Behind B d c) : d.zonesFrame = c.zonesFrame := by
  rw [zonesFrame, zonesFrame, h.chunks, h.relforks]

variable (codec) in
/-- A file in front does not change what a spill appends. -/
theorem Behind.spillToFile (h : Behind B d c) :
    (spillToFile codec .ok d).1 = (spillToFile codec .ok c).1 ∧
      Behind B (spillToFile codec .ok d).2 (spillToFile codec .ok c).2 := by
  unfold DraftBuffer.spillToFile spillLocked
  rw [h.zonesFrame_eq]
  by_cases he : c.zonesFrame.isEmpty = true
  · rw [if_pos he, if_pos he]
    exact ⟨rfl, rfl, rfl, h.hasSpilled, h.file⟩
  · rw [if_neg he, if_neg he]
    refine ⟨rfl, rfl, rfl, rfl, ?_⟩
    change d.file.getD [] ++ _ = B ++ (c.file.getD [] ++ _)
    rw [h.file, List.append_assoc]

theorem Behind.ite_spill (h : Behind B d c) (crossed : Bool) :
    Behind B (if crossed then (DraftBuffer.spillToFile codec .ok d).2 else d)
      (if crossed then (DraftBuffer.spillToFile codec .ok c).2 else c) := by
  split_ifs
  · exact (h.spillToFile codec).2
  · exact h

theorem Behind.recordChunkLoop (h : Behind B d c) (tag : ChunkTag) (fuel : ℕ) :
    (recordChunkLoop codec .ok tag fuel d).1 = (recordChunkLoop codec .ok tag fuel c).1 ∧
      Behind B (recordChunkLoop codec .ok tag fuel d).2
        (recordChunkLoop codec .ok tag fuel c).2 := by
  induction fuel generalizing d c with
  | zero => exact ⟨rfl, h⟩
  | succ fuel ih =>
    rw [DraftBuffer.recordChunkLoop, DraftBuffer.recordChunkLoop, h.chunks]
    cases hi : c.chunks.insert tag with
    | some p =>
      have hb : Behind B { d with chunks := p.1 } { c with chunks := p.1 } :=
        ⟨rfl, h.relforks, h.hasSpilled, h.file⟩
      exact ⟨rfl, hb.ite_spill p.2⟩
    | none =>
      obtain ⟨hres, hbehind⟩ := h.spillToFile codec
      dsimp only
      generalize DraftBuffer.spillToFile codec .ok d = x at hres hbehind ⊢
      generalize DraftBuffer.spillToFile codec .ok c = y at hres hbehind ⊢
      obtain ⟨rx, dx⟩ := x
      obtain ⟨ry, dy⟩ := y
      obtain rfl : rx = ry := hres
      cases rx with
      | error e => exact ⟨rfl, hbehind⟩
      | ok _ => exact ih hbehind

theorem Behind.recordRelforkLoop (h : Behind B d c) (rf : RelFork) (m : RelForkMeta) (fuel : ℕ) :
    (recordRelforkLoop codec .ok rf m fuel d).1 = (recordRelforkLoop codec .ok rf m fuel c).1 ∧
      Behind B (recordRelforkLoop codec .ok rf m fuel d).2
        (recordRelforkLoop codec .ok rf m fuel c).2 := by
  induction fuel generalizing d c with
  | zero => exact ⟨rfl, h⟩
  | succ fuel ih =>
    rw [DraftBuffer.recordRelforkLoop, DraftBuffer.recordRelforkLoop, h.relforks]
    cases hi : RelforkZone.insert c.relforks rf m with
    | some p =>
      have hb : Behind B { d with relforks := p.1 } { c with relforks := p.1 } :=
        ⟨h.chunks, rfl, h.hasSpilled, h.file⟩
      exact ⟨rfl, hb.ite_spill p.2⟩
    | none =>
      obtain ⟨hres, hbehind⟩ := h.spillToFile codec
      dsimp only
      generalize DraftBuffer.spillToFile codec .ok d = x at hres hbehind ⊢
      generalize DraftBuffer.spillToFile codec .ok c = y at hres hbehind ⊢
      obtain ⟨rx, dx⟩ := x
      obtain ⟨ry, dy⟩ := y
      obtain rfl : rx = ry := hres
      cases rx with
      | error e => exact ⟨rfl, hbehind⟩
      | ok _ => exact ih hbehind

variable (codec) in
/-- **A file in front does not change what a call does.** -/
theorem Behind.perform (h : Behind B d c) (op : DraftOp) :
    (perform codec d op).1 = (perform codec c op).1 ∧
      Behind B (perform codec d op).2 (perform codec c op).2 := by
  cases op with
  | recordChunk tag => exact h.recordChunkLoop tag 2
  | recordRelfork rf m => exact h.recordRelforkLoop rf m 2
  | spillToFile => exact h.spillToFile codec
  | trySpillToFile => exact h.spillToFile codec

theorem Behind.performAll (h : Behind B d c) {ops : List DraftOp} {c' : DraftBuffer}
    (hc : performAll codec ops c = .ok c') :
    ∃ d', DraftBuffer.performAll codec ops d = .ok d' ∧ Behind B d' c' := by
  induction ops generalizing d c with
  | nil =>
    rw [← Except.ok.inj hc]
    exact ⟨d, rfl, h⟩
  | cons op ops ih =>
    obtain ⟨hres, hbehind⟩ := h.perform codec op
    rw [DraftBuffer.performAll] at hc ⊢
    generalize DraftBuffer.perform codec d op = x at hres hbehind ⊢
    generalize DraftBuffer.perform codec c op = y at hres hbehind hc
    obtain ⟨rx, dx⟩ := x
    obtain ⟨ry, dy⟩ := y
    obtain rfl : rx = ry := hres
    cases rx with
    | error e => exact absurd hc (by simp)
    | ok _ => exact ih hbehind hc

end Behind

/-! ## Restarts -/

variable {file : Option Bytes} {fs : List DraftFrame} {torn : Bytes}

theorem mergeAll_append (fs fs' : List DraftFrame) :
    DraftFrame.mergeAll (fs ++ fs') = (DraftFrame.mergeAll fs).mergeFrame (DraftFrame.mergeAll fs') := by
  induction fs' using List.reverseRecOn with
  | nil => rw [List.append_nil, show DraftFrame.mergeAll [] = .empty from rfl,
      DraftFrame.mergeFrame_empty]
  | append_singleton fs' f ih =>
    rw [← List.append_assoc, DraftFrame.mergeAll_append_singleton, ih,
      DraftFrame.mergeAll_append_singleton, DraftFrame.mergeFrame_assoc]

/-- What whole frames hold is in one of them. -/
theorem containsChunk_mergeAll {fs : List DraftFrame} {tag : ChunkTag} :
    (DraftFrame.mergeAll fs).containsChunk tag = true ↔ ∃ f ∈ fs, f.containsChunk tag = true := by
  induction fs using List.reverseRecOn with
  | nil => simp [DraftFrame.mergeAll]
  | append_singleton fs f ih =>
    rw [DraftFrame.mergeAll_append_singleton, DraftFrame.containsChunk_mergeFrame, Bool.or_eq_true,
      ih]
    simp [or_comm]

theorem lookup_mergeAll_ne_none {fs : List DraftFrame} {rf : RelFork} :
    (DraftFrame.mergeAll fs).relforks.lookup rf ≠ none ↔ ∃ f ∈ fs, f.relforks.lookup rf ≠ none := by
  induction fs using List.reverseRecOn with
  | nil => simp [DraftFrame.mergeAll]
  | append_singleton fs f ih =>
    rw [DraftFrame.mergeAll_append_singleton, DraftFrame.lookup_relforks_mergeFrame, Ne,
      Option.or_eq_none_iff, not_and_or, ← Ne, ← Ne, ih]
    simp [or_comm]

/-- The frames add nothing to what a run records exactly when it records everything in them. -/
theorem rerecorded_iff {fs : List DraftFrame} {ops : List DraftOp} : Rerecorded fs ops ↔
    (DraftFrame.mergeAll fs).mergeFrame (DraftOp.recorded ops) = DraftOp.recorded ops := by
  constructor
  · intro h
    refine DraftFrame.ext_lookup (fun tag => ?_) fun rf => ?_
    · rw [DraftFrame.containsChunk_mergeFrame, Bool.or_eq_left_iff_imp, containsChunk_mergeAll]
      rintro ⟨f, hf, ht⟩
      exact (DraftOp.containsChunk_recorded ops tag).mpr ((h f hf).1 tag ht)
    · rw [DraftFrame.lookup_relforks_mergeFrame]
      cases hrec : (DraftOp.recorded ops).relforks.lookup rf with
      | some m => rfl
      | none =>
        rw [Option.none_or]
        by_contra hne
        obtain ⟨f, hf, hrf⟩ := lookup_mergeAll_ne_none.mp hne
        exact (h f hf).2 rf hrf (DraftOp.lookup_recorded ops rf ▸ hrec)
  · intro h f hf
    constructor
    · intro tag ht
      rw [← DraftOp.containsChunk_recorded, ← h, DraftFrame.containsChunk_mergeFrame,
        containsChunk_mergeAll.mpr ⟨f, hf, ht⟩, Bool.or_true]
    · intro rf hrf
      rw [← DraftOp.lookup_recorded, ← h, DraftFrame.lookup_relforks_mergeFrame, Ne,
        Option.or_eq_none_iff, not_and_or]
      exact .inr (lookup_mergeAll_ne_none.mpr ⟨f, hf, hrf⟩)

theorem Fits.append {fs fs' : List DraftFrame} (h : Fits fs) (h' : Fits fs') : Fits (fs ++ fs') := by
  intro f hf
  rcases List.mem_append.mp hf with hf | hf
  · exact h f hf
  · exact h' f hf

/-- **The drain behind whole frames** merges them in. -/
theorem drain_of_behind {d c : DraftBuffer} {F : DraftFrame} (hfs : Fits fs)
    (h : Behind (fs.flatMap (frameBytes codec)) d c) (hc : Holds codec c F) :
    (d.drain codec .ok).1 = .ok ((DraftFrame.mergeAll fs).mergeFrame F) := by
  obtain ⟨fs', hfs', rfl⟩ := hc
  obtain ⟨c', hs, -, fs'', hfs'', hm, -⟩ := holdsFrames_spillLocked hfs'
  obtain ⟨hres, hbehind⟩ := h.spillToFile codec
  rw [show DraftBuffer.spillToFile codec .ok c = (.ok (), c') from hs] at hres hbehind
  generalize hd : DraftBuffer.spillToFile codec .ok d = x at hres hbehind
  obtain ⟨r, d'⟩ := x
  obtain rfl : r = .ok () := hres
  have hfile : d'.file.getD [] = (fs ++ fs'').flatMap (frameBytes codec) := by
    rw [List.flatMap_append, ← hfs''.file_eq]
    exact hbehind.file
  rw [drain, show DrainOutcome.ok.append = .ok from rfl, hd]
  dsimp only
  rw [show DrainOutcome.ok.read = true from rfl,
    readSpillFile_flatMap (Fits.append hfs hfs''.fits) hfile, mergeAll_append, hm]
  rfl

/-- A lookup behind whole frames answers from them only where nothing was recorded. -/
theorem getRelfork_of_behind {d c : DraftBuffer} {F : DraftFrame} (hfs : Fits fs)
    (h : Behind (fs.flatMap (frameBytes codec)) d c) (hc : Holds codec c F)
    (habs : (DraftFrame.mergeAll fs).mergeFrame F = F) (rf : RelFork) :
    d.getRelfork codec true rf = .ok (F.relforks.lookup rf) := by
  have hclean := getRelfork_of_holds hc rf
  obtain ⟨fs', hfs', hF⟩ := hc
  rw [getRelfork] at hclean ⊢
  rw [h.relforks, h.hasSpilled]
  cases hg : RelforkZone.get c.relforks rf with
  | some m =>
    rw [hg] at hclean
    exact hclean
  | none =>
    rw [hg] at hclean
    dsimp only at hclean ⊢
    by_cases hs : c.hasSpilled = true
    · have hfile : d.file.getD [] = (fs ++ fs').flatMap (frameBytes codec) := by
        rw [List.flatMap_append, ← hfs'.file_eq]
        exact h.file
      have hzone : F.relforks.lookup rf = (DraftFrame.mergeAll fs').relforks.lookup rf := by
        rw [hF, DraftFrame.lookup_relforks_mergeFrame, lookup_zonesFrame hfs'.wfRelforks, hg,
          Option.none_or]
      rw [hs, readSpillFile_flatMap (Fits.append hfs hfs'.fits) hfile, mergeAll_append]
      change Except.ok (((DraftFrame.mergeAll fs).mergeFrame _).relforks.lookup rf) = _
      rw [DraftFrame.lookup_relforks_mergeFrame, ← hzone,
        ← DraftFrame.lookup_relforks_mergeFrame, habs]
    · rw [Bool.not_eq_true] at hs
      rw [hs] at hclean ⊢
      exact hclean

theorem containsChunk_of_behind {B : Bytes} {d c : DraftBuffer} (h : Behind B d c) (tag : ChunkTag) :
    d.containsChunk tag = c.containsChunk tag := by
  rw [containsChunk, containsChunk, h.chunks, h.hasSpilled]

/-- Behind whole frames a run is exact when it records them all again, and then only. -/
theorem exactAfter_iff_rerecorded {d₀ : DraftBuffer} (hfs : Fits fs)
    (hfile : d₀.file.getD [] = fs.flatMap (frameBytes codec)) (ops : List DraftOp) :
    ExactAfter codec d₀ ops ↔ Rerecorded fs ops := by
  obtain ⟨c, hc, hholds⟩ := holds_performAll_init codec (show { d₀ with file := none }.file = none from rfl) ops
  have hstart : Behind (fs.flatMap (frameBytes codec)) d₀.init (init { d₀ with file := none }) :=
    ⟨rfl, rfl, rfl, by rw [← hfile]; exact (List.append_nil _).symm⟩
  obtain ⟨d, hd, hbehind⟩ := hstart.performAll hc
  have hdrain := drain_of_behind hfs hbehind hholds
  rw [rerecorded_iff]
  constructor
  · rintro ⟨d', hd', -, -, hexact⟩
    obtain rfl : d = d' := Except.ok.inj (hd.symm.trans hd')
    exact Except.ok.inj (hdrain.symm.trans hexact)
  · intro habs
    refine ⟨d, hd, fun tag htag => ?_, fun rf => ?_, by rw [hdrain, habs]⟩
    · rw [containsChunk_of_behind hbehind]
      exact containsChunk_of_holds hholds ((DraftOp.containsChunk_recorded ops tag).mpr htag)
    · rw [getRelfork_of_behind hfs hbehind hholds habs, DraftOp.lookup_recorded]

/-- A drain right after a restart behind a torn frame fails. -/
theorem not_exactAfter_nil_of_torn {d₀ : DraftBuffer} (h : Leftover codec d₀.file fs torn)
    (htorn : torn ≠ []) : ¬ ExactAfter codec d₀ [] := by
  rintro ⟨d, hd, -, -, hdrain⟩
  obtain rfl : d₀.init = d := Except.ok.inj hd
  obtain hnil | ⟨g, n, hg, hn, rfl⟩ := h.cut
  · exact htorn hnil
  have h0 : 0 < n := by
    rcases Nat.eq_zero_or_pos n with rfl | h0
    · exact absurd rfl htorn
    · exact h0
  obtain ⟨e, he⟩ := readSpillFile_torn codec h.fits hg h0 hn h.file_eq
  have hzero : d₀.init.zonesFrame = .empty := zonesFrame_emptied d₀
  have hspill : DraftBuffer.spillToFile codec .ok d₀.init = (.ok (), d₀.init) := by
    rw [DraftBuffer.spillToFile, spillLocked, hzero, if_pos (show DraftFrame.empty.isEmpty = true from rfl)]
    rfl
  rw [drain, show DrainOutcome.ok.append = .ok from rfl, hspill] at hdrain
  dsimp only at hdrain
  rw [show DrainOutcome.ok.read = true from rfl, show d₀.init.file = d₀.file from rfl, he] at hdrain
  exact absurd hdrain (by simp)

/-- **Restarts with a leftover spill file.** They are exact in all runs only if the file is empty; where
the crash cut it between frames, exactly the runs that record everything in them again are exact. -/
theorem exactAfter_restart_iff {codec : FrameCodec} {d₀ : DraftBuffer} {fs : List DraftFrame}
    {torn : Bytes} (h : Leftover codec d₀.file fs torn) :
    ((∀ ops, ExactAfter codec d₀ ops) ↔ d₀.file.getD [] = []) ∧
      (torn = [] → ∀ ops, ExactAfter codec d₀ ops ↔ Rerecorded fs ops) := by
  have hwhole : torn = [] → ∀ ops, ExactAfter codec d₀ ops ↔ Rerecorded fs ops := by
    rintro rfl ops
    exact exactAfter_iff_rerecorded h.fits (by rw [h.file_eq, List.append_nil]) ops
  refine ⟨⟨fun hall => ?_, fun hnil ops => ?_⟩, hwhole⟩
  · have htorn : torn = [] := by
      by_contra hne
      exact not_exactAfter_nil_of_torn h hne (hall [])
    have hrec := (hwhole htorn []).mp (hall [])
    have hfs : fs = [] := by
      by_contra hne
      obtain ⟨f, hf⟩ := List.exists_mem_of_ne_nil fs hne
      have hempty : f = .empty := by
        refine DraftFrame.ext_lookup (fun tag => ?_) fun rf => ?_
        · rw [DraftFrame.containsChunk_empty]
          by_contra hc
          exact absurd ((hrec f hf).1 tag (by simpa using hc)) List.not_mem_nil
        · by_contra hc
          exact (hrec f hf).2 rf hc rfl
      exact absurd (h.nonempty f hf) (by rw [hempty]; decide)
    rw [h.file_eq, hfs, htorn]
    rfl
  · have hfits : Fits [] := fun f hf => absurd hf List.not_mem_nil
    exact (exactAfter_iff_rerecorded hfits hnil ops).mpr fun f hf => absurd hf List.not_mem_nil

/-- The frame of one chunk. -/
def oneChunk : DraftFrame := addChunk .empty ⟨1663, 5, 16384, 0, 0⟩

/-- The chunk of a leftover frame is recorded again. -/
theorem exactAfter_restart_rerecorded :
    ExactAfter msgpack ⟨.init, .empty, true, 1, some (frameBytes msgpack oneChunk)⟩
      [.recordChunk ⟨1663, 5, 16384, 0, 0⟩, .spillToFile] := by
  have h : Leftover msgpack (some (frameBytes msgpack oneChunk)) [oneChunk] [] :=
    ⟨fun f hf => by rw [List.mem_singleton.mp hf]; decide,
      fun f hf => by rw [List.mem_singleton.mp hf]; decide, .inl rfl, by simp⟩
  refine ((@exactAfter_restart_iff msgpack ⟨.init, .empty, true, 1,
    some (frameBytes msgpack oneChunk)⟩ _ _ h).2 rfl _).mpr fun f hf => ?_
  rw [List.mem_singleton.mp hf]
  refine ⟨fun tag ht => ?_, fun rf hrf => absurd rfl hrf⟩
  have htag : tag = ⟨1663, 5, 16384, 0, 0⟩ := by
    simpa [oneChunk, addChunk, DraftFrame.containsChunk, DraftFrame.empty] using ht
  rw [htag]
  exact List.mem_cons_self

/-- A crash in the first spill leaves six bytes of a frame, and the next drain fails; a crash after it
leaves a chunk that the next drain returns though it was not recorded. -/
theorem leftover_poisons_restart :
    (Leftover msgpack (some ((frameBytes msgpack oneChunk).take 6)) []
        ((frameBytes msgpack oneChunk).take 6) ∧
      ¬ ExactAfter msgpack ⟨.init, .empty, true, 0, some ((frameBytes msgpack oneChunk).take 6)⟩
        []) ∧
    (Leftover msgpack (some (frameBytes msgpack oneChunk)) [oneChunk] [] ∧
      ¬ ExactAfter msgpack ⟨.init, .empty, true, 1, some (frameBytes msgpack oneChunk)⟩ []) := by
  have htorn : Leftover msgpack (some ((frameBytes msgpack oneChunk).take 6)) []
      ((frameBytes msgpack oneChunk).take 6) :=
    ⟨fun f hf => absurd hf List.not_mem_nil, fun f hf => absurd hf List.not_mem_nil,
      .inr ⟨oneChunk, 6, by decide, by decide, rfl⟩, rfl⟩
  have hwhole : Leftover msgpack (some (frameBytes msgpack oneChunk)) [oneChunk] [] :=
    ⟨fun f hf => by rw [List.mem_singleton.mp hf]; decide,
      fun f hf => by rw [List.mem_singleton.mp hf]; decide, .inl rfl, by simp⟩
  refine ⟨⟨htorn, ?_⟩, hwhole, fun hexact => ?_⟩
  · intro hexact
    exact not_exactAfter_nil_of_torn htorn (by decide) hexact
  · have hrec := (exactAfter_iff_rerecorded hwhole.fits hwhole.file_eq []).mp hexact
    exact absurd ((hrec oneChunk (List.mem_singleton.mpr rfl)).1 ⟨1663, 5, 16384, 0, 0⟩ (by decide))
      List.not_mem_nil

end DraftBuffer

end Tiko

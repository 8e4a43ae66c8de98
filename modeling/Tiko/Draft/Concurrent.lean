import Tiko.Draft.Contents
import Tiko.Lib.Reach

/-!
# The draft buffer under concurrency

Any number of threads call `record_chunk`, `record_relfork`, `spill_to_file`, `try_spill_to_file`,
`contains_chunk` and `get_relfork` on one draft buffer. A step is one spinlock section, one atomic
load or store or one file operation of one thread; file operations do not fail, and nothing drains
the buffer.

* `Pc`: where a thread stands in its call;
* `Spill`: the spill that holds the spill lock, with what it has drained;
* `Mem`, `Sys`: the shared memory with the order of insertions, and the threads with the history of
  their calls;
* `Sys.step`; `NoFalseNegatives` is what the answers should satisfy.

The spill file is a list of whole frames, and `torn` while a frame's length stands at its end without
the frame; reading back the bytes is the subject of `readSpillFile_flatMap` and
`readSpillFile_torn`.
-/

namespace Tiko

open Lib

namespace DraftBuffer

/-! ## Threads -/

/-- A call on the buffer. -/
inductive Call where
  | recordChunk (tag : ChunkTag)
  | recordRelfork (rf : RelFork) (m : RelForkMeta)
  | spillToFile
  | trySpillToFile
  | containsChunk (tag : ChunkTag)
  | getRelfork (rf : RelFork)

/-- What a thread does after a spill: return to its caller, return from a record (of a relation fork
at a place in the order of insertions), or try its insertion again. -/
inductive After where
  | done
  | recordedChunk (tag : ChunkTag)
  | recordedRelfork (rf : RelFork) (pos : ℕ)
  | retryChunk (tag : ChunkTag)
  | retryRelfork (rf : RelFork) (m : RelForkMeta)

/-- Where a thread stands. Lookups carry what had been recorded when they were called: whether a
record of the tag had returned, or the place of the newest insertion of the relation fork whose
record had returned. -/
inductive Pc where
  | idle
  | insertChunk (tag : ChunkTag)
  | insertRelfork (rf : RelFork) (m : RelForkMeta)
  | lockSpill (k : After)
  | tryLockSpill (k : After)
  | spilling (k : After)
  | probeChunk (tag : ChunkTag) (known : Bool)
  | loadFlagChunk (tag : ChunkTag) (known : Bool)
  | probeRelfork (rf : RelFork) (floor : Option ℕ)
  | loadFlagRelfork (rf : RelFork) (floor : Option ℕ)
  | readLen (rf : RelFork) (floor : Option ℕ) (pos : ℕ) (merged : DraftFrame)
  | readBody (rf : RelFork) (floor : Option ℕ) (pos : ℕ) (merged : DraftFrame)

/-- The steps of a spill: the shards in turn, the relation forks, opening the file, the length, the
frame, the flag, and the release of the lock. -/
inductive Stage where
  | shard (i : ℕ)
  | relforks
  | openFile
  | writeLen
  | writeBody
  | setFlag
  | unlock
  deriving DecidableEq

/-- The spill in progress, which holds the lock: its next step and what it has drained. -/
structure Spill where
  stage : Stage
  frame : DraftFrame

/-- What the spill has drained and not yet written to the file. -/
def Spill.unwritten (sp : Spill) : DraftFrame :=
  match sp.stage with
  | .setFlag | .unlock => .empty
  | _ => sp.frame

/-- What the spill has drained without having set the flag. -/
def Spill.unflagged (sp : Spill) : DraftFrame :=
  match sp.stage with
  | .unlock => .empty
  | _ => sp.frame

/-- An answer of a lookup, with what had been recorded when it was called. -/
inductive Answer where
  | chunk (tag : ChunkTag) (known : Bool) (result : Bool)
  | relfork (rf : RelFork) (floor : Option ℕ) (result : Except Error (Option RelForkMeta))
  deriving DecidableEq

/-! ## The shared memory -/

/-- The shared memory and the spill file; as history, the tags and the relation forks in the order of
their insertions. -/
structure Mem where
  chunks : ChunkZone
  relforks : RelforkZone
  hasSpilled : Bool
  spill : Option Spill
  frames : List DraftFrame
  torn : Bool
  inserted : List ChunkTag
  log : List (RelFork × RelForkMeta)

namespace Mem

/-- What the spill in progress has drained and not yet written. -/
def unwritten (m : Mem) : DraftFrame := (m.spill.map Spill.unwritten).getD .empty

/-- What the spill in progress has drained without having set the flag. -/
def unflagged (m : Mem) : DraftFrame := (m.spill.map Spill.unflagged).getD .empty

/-- The spill lock is taken. -/
def lock (m : Mem) : Mem := { m with spill := some ⟨.shard 0, .empty⟩ }

/-- `ChunkShard::drain_into`. -/
def drainShard (m : Mem) (sp : Spill) (i : ℕ) : Mem :=
  let j := Fin.ofNat chunkNumShards i
  let frame := { sp.frame with chunks := sp.frame.chunks.insertAll (m.chunks j).toList }
  let stage := if i + 1 < chunkNumShards then Stage.shard (i + 1) else .relforks
  { m with chunks := Function.update m.chunks j .empty, spill := some ⟨stage, frame⟩ }

/-- `RelforkZone::drain_into`; a spill with nothing to write ends here. -/
def drainRelforks (m : Mem) (sp : Spill) : Mem :=
  let frame := { sp.frame with relforks := sp.frame.relforks.insertAll m.relforks.toList }
  let stage := if frame.isEmpty then Stage.unlock else .openFile
  { m with relforks := .empty, spill := some ⟨stage, frame⟩ }

/-- The next step of the spill in progress. -/
def spillStep (m : Mem) (sp : Spill) : Mem :=
  match sp.stage with
  | .shard i => m.drainShard sp i
  | .relforks => m.drainRelforks sp
  | .openFile => { m with spill := some ⟨.writeLen, sp.frame⟩ }
  | .writeLen => { m with torn := true, spill := some ⟨.writeBody, sp.frame⟩ }
  | .writeBody =>
    { m with torn := false, frames := m.frames ++ [sp.frame], spill := some ⟨.setFlag, sp.frame⟩ }
  | .setFlag => { m with hasSpilled := true, spill := some ⟨.unlock, sp.frame⟩ }
  | .unlock => { m with spill := none }

end Mem

/-! ## The system -/

/-- The shared memory, the threads and the history of their calls: the records that have returned,
for a relation fork the place of the newest one, and the answers of the lookups. -/
structure Sys where
  mem : Mem
  pcs : ℕ → Pc
  recorded : List ChunkTag
  returned : RelFork → Option ℕ
  answers : List Answer

namespace Sys

/-- The empty buffer, with all threads idle. -/
def init : Sys where
  mem := ⟨.init, .empty, false, none, [], false, [], []⟩
  pcs _ := .idle
  recorded := []
  returned _ := none
  answers := []

/-- The system with a thread at another place. -/
def goto (s : Sys) (t : ℕ) (pc : Pc) : Sys := { s with pcs := Function.update s.pcs t pc }

/-- A lookup returns. -/
def answer (s : Sys) (t : ℕ) (a : Answer) : Sys :=
  { s.goto t .idle with answers := a :: s.answers }

/-- A record of a chunk returns. -/
def returnChunk (s : Sys) (t : ℕ) (tag : ChunkTag) : Sys :=
  { s.goto t .idle with recorded := tag :: s.recorded }

/-- A record of a relation fork returns. -/
def returnRelfork (s : Sys) (t : ℕ) (rf : RelFork) (pos : ℕ) : Sys :=
  let newest := max pos ((s.returned rf).getD 0)
  { s.goto t .idle with returned := Function.update s.returned rf (some newest) }

/-- What a thread does after a spill. -/
def resume (s : Sys) (t : ℕ) : After → Sys
  | .done => s.goto t .idle
  | .recordedChunk tag => s.returnChunk t tag
  | .recordedRelfork rf pos => s.returnRelfork t rf pos
  | .retryChunk tag => s.goto t (.insertChunk tag)
  | .retryRelfork rf m => s.goto t (.insertRelfork rf m)

/-- A thread starts a call. -/
def call (s : Sys) (t : ℕ) : Call → Sys
  | .recordChunk tag => s.goto t (.insertChunk tag)
  | .recordRelfork rf m => s.goto t (.insertRelfork rf m)
  | .spillToFile => s.goto t (.lockSpill .done)
  | .trySpillToFile => s.goto t (.tryLockSpill .done)
  | .containsChunk tag => s.goto t (.probeChunk tag (s.recorded.contains tag))
  | .getRelfork rf => s.goto t (.probeRelfork rf (s.returned rf))

/-- A thread takes the spill lock. -/
def lock (s : Sys) (t : ℕ) (k : After) : Sys := { s.goto t (.spilling k) with mem := s.mem.lock }

/-- A step of the spill of a thread; with the lock released it goes on. -/
def spillStep (s : Sys) (t : ℕ) (k : After) (sp : Spill) : Sys :=
  let s := { s with mem := s.mem.spillStep sp }
  if sp.stage = .unlock then s.resume t k else s

/-- The section of `ChunkZone::insert`. -/
def insertChunk (s : Sys) (t : ℕ) (tag : ChunkTag) : Sys :=
  match s.mem.chunks.insert tag with
  | some (chunks, crossed) =>
    let s := { s with mem := { s.mem with chunks := chunks, inserted := tag :: s.mem.inserted } }
    if crossed then s.goto t (.tryLockSpill (.recordedChunk tag)) else s.returnChunk t tag
  | none => s.goto t (.lockSpill (.retryChunk tag))

/-- The section of `RelforkZone::insert`. -/
def insertRelfork (s : Sys) (t : ℕ) (rf : RelFork) (m : RelForkMeta) : Sys :=
  match RelforkZone.insert s.mem.relforks rf m with
  | some (relforks, crossed) =>
    let pos := s.mem.log.length
    let s := { s with mem := { s.mem with relforks := relforks, log := s.mem.log ++ [(rf, m)] } }
    if crossed then s.goto t (.tryLockSpill (.recordedRelfork rf pos)) else s.returnRelfork t rf pos
  | none => s.goto t (.lockSpill (.retryRelfork rf m))

/-- The next step of a thread. -/
def runThread (s : Sys) (t : ℕ) : Option Sys :=
  match s.pcs t with
  | .idle => none
  | .insertChunk tag => some (s.insertChunk t tag)
  | .insertRelfork rf m => some (s.insertRelfork t rf m)
  | .lockSpill k => if s.mem.spill.isSome then none else some (s.lock t k)
  | .tryLockSpill k => some (if s.mem.spill.isSome then s.resume t k else s.lock t k)
  | .spilling k => s.mem.spill.map (s.spillStep t k)
  | .probeChunk tag known =>
    some (if s.mem.chunks.contains tag then s.answer t (.chunk tag known true)
      else s.goto t (.loadFlagChunk tag known))
  | .loadFlagChunk tag known => some (s.answer t (.chunk tag known s.mem.hasSpilled))
  | .probeRelfork rf floor =>
    some (match RelforkZone.get s.mem.relforks rf with
      | some m => s.answer t (.relfork rf floor (.ok (some m)))
      | none => s.goto t (.loadFlagRelfork rf floor))
  | .loadFlagRelfork rf floor =>
    some (if s.mem.hasSpilled then s.goto t (.readLen rf floor 0 .empty)
      else s.answer t (.relfork rf floor (.ok none)))
  | .readLen rf floor pos merged =>
    some (if pos < s.mem.frames.length ∨ s.mem.torn = true then
        s.goto t (.readBody rf floor pos merged)
      else s.answer t (.relfork rf floor (.ok (merged.relforks.lookup rf))))
  | .readBody rf floor pos merged =>
    some (match s.mem.frames[pos]? with
      | some f => s.goto t (.readLen rf floor (pos + 1) (merged.mergeFrame f))
      | none => s.answer t (.relfork rf floor (.error .io)))

/-- A label: a thread starts a call, or takes its next step. -/
inductive Label where
  | call (t : ℕ) (c : Call)
  | run (t : ℕ)

/-- A step of the system. -/
def step (s : Sys) : Label → Option Sys
  | .call t c =>
    match s.pcs t with
    | .idle => some (s.call t c)
    | _ => none
  | .run t => s.runThread t

end Sys

/-! ## What lookups should answer -/

/-- An answer without a false negative: a recorded chunk is reported, and a recorded relation fork is
answered with the metadata of an insertion from its place on. -/
def Answer.Correct (log : List (RelFork × RelForkMeta)) : Answer → Prop
  | .chunk _ known result => known = true → result = true
  | .relfork rf floor result => ∀ i, floor = some i →
      ∃ j m, i ≤ j ∧ log[j]? = some (rf, m) ∧ result = .ok (some m)

/-- No lookup has had a false negative. -/
def Sys.NoFalseNegatives (s : Sys) : Prop := ∀ a ∈ s.answers, a.Correct s.mem.log

end DraftBuffer

end Tiko

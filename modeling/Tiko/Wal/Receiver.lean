import Tiko.Lib.Msgpack
import Tiko.Wal.Sim

/-!
# The WAL receiver

The receiver streams the WAL of one timeline into the archive. It buffers the current segment, spawns a
PUT for every 256 KiB window of it that is complete, and when the first byte of the next segment
arrives it joins these PUTs, stores the tail and the sealed segment, and confirms the segment to the
server.

* `SegState`, `Conn`: the state of a connection, with the point at which it waits;
* `Late`: tasks that nobody waits for: the deletes of sealed segments' chunks, and the PUTs of a
  connection that has ended;
* `Receiver.step`: one step. Tasks land in any order, a PUT may fail, and a connection may end at any
  point. A PUT is one step and a failed one changes nothing;
* `Receiver.diskStep`: the same with the files of the archive one by one, as `S3Sim` handles them: a PUT
  empties its object before it writes it, and may end there.
-/

namespace Tiko.Wal

open Lib

/-- `CHUNK_BYTES`: 256 KiB. -/
def chunkBytes : ℕ := 256 * 1024

theorem chunkBytes_pos : 0 < chunkBytes := by decide

theorem xlogSegSize_pos : 0 < xlogSegSize := by decide

/-! ## The current segment -/

/-- `SegState`. Of the tasks in `chunk_tasks` it holds those that run, and whether one that has ended
has failed. -/
structure SegState where
  segNo : UInt64
  buf : Bytes
  chunksUploaded : ℕ
  chunkTasks : List (ℕ × Bytes)
  taskFailed : Bool
  isPartial : Bool

namespace SegState

/-- `SegState::new`. -/
def new (segNo : UInt64) : SegState := ⟨segNo, [], 0, [], false, false⟩

/-- The state for a segment that is first seen at an offset. -/
def startAt (segNo : UInt64) (segOffset : ℕ) : SegState :=
  if 0 < segOffset then
    { new segNo with
      buf := List.replicate segOffset 0
      chunksUploaded := segOffset
      isPartial := true }
  else new segNo

/-- The loop that spawns the PUTs of complete windows. -/
def spawnWindows (st : SegState) : SegState :=
  if chunkBytes ≤ st.buf.length - st.chunksUploaded then
    spawnWindows
      { st with
        chunkTasks := st.chunkTasks ++
          [(st.chunksUploaded, (st.buf.drop st.chunksUploaded).take chunkBytes)]
        chunksUploaded := st.chunksUploaded + chunkBytes }
  else st
termination_by st.buf.length - st.chunksUploaded
decreasing_by
  have hpos := chunkBytes_pos
  change st.buf.length - (st.chunksUploaded + chunkBytes) < st.buf.length - st.chunksUploaded
  omega

/-- A piece of WAL that belongs to the segment. -/
def extend (st : SegState) (piece : Bytes) : SegState :=
  spawnWindows { st with buf := st.buf ++ piece }

/-- The bytes that no window covers yet. -/
def tail (st : SegState) : Bytes := st.buf.drop st.chunksUploaded

/-- The buffer, padded to the size of a segment. -/
def padded (st : SegState) : Bytes :=
  (st.buf ++ List.replicate (xlogSegSize - st.buf.length) 0).take xlogSegSize

end SegState

/-! ## A connection -/

/-- Where the connection waits. `join` and `tail` are in `join_chunks_and_flush_tail`, called by
`flush_partial_tail` when `closing` is set and by `seal_segment` otherwise. -/
inductive Pc where
  /-- For the next message. -/
  | recv
  /-- In the loop of `handle_xlogdata`. -/
  | ingest
  /-- For the chunk tasks. -/
  | join (closing : Bool)
  /-- For the PUT of the tail. -/
  | tail (closing : Bool)
  /-- For the PUT of the sealed segment. -/
  | seal
  /-- To advance `confirmed_lsn` and send it. -/
  | confirm
  /-- At `maybe_flush_on_checkpoint`. -/
  | loopEnd
  /-- For the PUT of `flush_tail_now`. -/
  | flush
  /-- The stream has ended. -/
  | closed
  deriving DecidableEq

/-- The variables of `run_streaming`. `cursor` and `data` are what `handle_xlogdata` still has to do
of the current message; `sent` is the history of the flush LSNs that have been sent. -/
structure Conn where
  startLsn : ℕ
  confirmedLsn : ℕ
  curSeg : Option SegState
  lastFlushedGeneration : ℕ
  pc : Pc
  cursor : ℕ
  data : Bytes
  sent : List ℕ

/-- A task that nobody waits for. -/
inductive Late where
  /-- The PUT of a chunk. -/
  | put (segNo : UInt64) (offset : ℕ) (data : Bytes)
  /-- The delete of a sealed segment's chunks. -/
  | deleteChunks (segNo : UInt64)

/-- What the connection waits for. -/
inductive Input where
  /-- A CopyData message. -/
  | copyData (msg : Bytes)
  /-- The end of the stream. -/
  | copyDone
  /-- No message for `KEEPALIVE_INTERVAL`. -/
  | timeout

/-- The start LSN and the WAL of an `XLogData` message. -/
def parseXlogData (msg : Bytes) : Option (ℕ × Bytes) :=
  if msg.head? = some 119 ∧ 25 ≤ msg.length ∧ msg.drop 25 ≠ [] then
    (Msgpack.readBe 8 (msg.drop 1)).map fun r => (r.1, msg.drop 25)
  else none

namespace Conn

/-- The connection when streaming starts. -/
def new (startLsn generation : ℕ) : Conn :=
  ⟨startLsn, startLsn, none, generation, .recv, startLsn, [], []⟩

/-- `send_standby_status`. -/
def sendStandbyStatus (c : Conn) : Conn := { c with sent := c.sent ++ [c.confirmedLsn] }

/-- The message loop on one message. -/
def receive (c : Conn) : Input → Conn
  | .copyData msg =>
    match parseXlogData msg with
    | some (start, data) => { c with pc := .ingest, cursor := start, data := data }
    | none =>
      if msg = [] then c
      else if msg.head? = some 107 ∧ 18 ≤ msg.length ∧ msg[17]? ≠ some 0 then
        { c.sendStandbyStatus with pc := .loopEnd }
      else { c with pc := .loopEnd }
  | .copyDone => { c with pc := if c.curSeg.isSome then .join true else .closed }
  | .timeout => { c.sendStandbyStatus with pc := .loopEnd }

/-- One turn of the loop of `handle_xlogdata`. -/
def ingest (c : Conn) : Conn :=
  if c.data = [] then { c with pc := .loopEnd }
  else
    let segNo := UInt64.ofNat (c.cursor / xlogSegSize)
    let segOffset := c.cursor % xlogSegSize
    let pieceLen := min (xlogSegSize - segOffset) c.data.length
    if (c.curSeg.any fun st => st.segNo != segNo) then { c with pc := .join false }
    else
      { c with
        curSeg := some ((c.curSeg.getD (.startAt segNo segOffset)).extend (c.data.take pieceLen))
        cursor := c.cursor + pieceLen
        data := c.data.drop pieceLen }

/-- What follows `join_chunks_and_flush_tail`. -/
def afterJoin (c : Conn) (st : SegState) (closing : Bool) : Conn :=
  if closing then { c with pc := .closed, curSeg := none }
  else { c with pc := if st.isPartial then .confirm else .seal }

/-- The end of `seal_segment`. -/
def confirm (c : Conn) (st : SegState) : Conn :=
  sendStandbyStatus
    { c with
      confirmedLsn := (st.segNo.toNat + 1) * xlogSegSize
      curSeg := none
      pc := .ingest }

/-- `maybe_flush_on_checkpoint`, up to the PUT. -/
def maybeFlush (c : Conn) (generation : ℕ) : Conn :=
  { c with
    lastFlushedGeneration := generation
    pc := if generation ≠ c.lastFlushedGeneration ∧
        (c.curSeg.any fun st => decide (st.chunksUploaded < st.buf.length)) = true then .flush
      else .recv }

/-- The chunk PUTs of a connection that has ended go on without it, or never start. -/
def abandoned (c : Conn) : List Late :=
  c.curSeg.elim [] fun st => st.chunkTasks.map fun t => .put st.segNo t.1 t.2

end Conn

/-! ## The receiver -/

/-- The archive, the generation in shared memory, the connection, and the tasks nobody waits for. -/
structure Receiver where
  sim : S3Sim
  generation : ℕ
  conn : Option Conn
  late : List Late

/-- What may happen next. -/
inductive Label where
  /-- `run_streaming` starts to stream. -/
  | connect (startLsn : ℕ)
  /-- A commit or a compaction advances the generation. -/
  | checkpoint
  /-- The connection receives something. -/
  | input (i : Input)
  /-- The connection goes on. -/
  | run
  /-- The PUT that the connection waits for succeeds. -/
  | putLands
  /-- A chunk task succeeds. -/
  | taskLands (i : ℕ)
  /-- A chunk task fails. -/
  | taskFails (i : ℕ)
  /-- A task that nobody waits for succeeds. -/
  | lateLands (i : ℕ)
  /-- The connection ends: on an error, a failed PUT or a crash. -/
  | drop

/-- The steps that are failures. -/
def Label.fails : Label → Bool
  | .taskFails _ => true
  | .drop => true
  | _ => false

/-- The steps that are not the receiver's own. -/
def Label.external : Label → Bool
  | .connect _ => true
  | .checkpoint => true
  | .input _ => true
  | _ => false

namespace Receiver

variable (ns : DbNamespace) (tl : TimelineId)

/-- The effect of a task. -/
def land (sim : S3Sim) : Late → S3Sim
  | .put n o data => sim.putChunk ns tl n o data
  | .deleteChunks n => sim.deleteChunks ns tl n

/-- The connection ends. -/
def dropped (r : Receiver) (c : Conn) : Receiver :=
  { r with conn := none, late := r.late ++ c.abandoned }

/-- The connection goes on by itself; not while it waits for a message, a PUT or its tasks. -/
def advance (r : Receiver) (c : Conn) : Option Receiver :=
  match c.pc, c.curSeg with
  | .ingest, _ => some { r with conn := some c.ingest }
  | .loopEnd, _ => some { r with conn := some (c.maybeFlush r.generation) }
  | .join closing, some st =>
    if st.taskFailed then some (r.dropped c)
    else if st.chunkTasks ≠ [] then none
    else if st.chunksUploaded < st.buf.length then
      some { r with conn := some { c with pc := .tail closing } }
    else some { r with conn := some (c.afterJoin st closing) }
  | .confirm, some st => some { r with conn := some (c.confirm st) }
  | _, _ => none

/-- The PUT that the connection waits for succeeds. -/
def putLands (r : Receiver) (c : Conn) : Option Receiver :=
  match c.pc, c.curSeg with
  | .tail closing, some st =>
    some { r with
      sim := r.sim.putChunk ns tl st.segNo st.chunksUploaded st.tail
      conn := some (c.afterJoin st closing) }
  | .flush, some st =>
    some { r with
      sim := r.sim.putChunk ns tl st.segNo st.chunksUploaded st.tail
      conn := some { c with pc := .recv } }
  | .seal, some st =>
    some { r with
      sim := r.sim.putSealed ns tl st.segNo st.padded
      conn := some { c with pc := .confirm }
      late := r.late ++ [.deleteChunks st.segNo] }
  | _, _ => none

/-- A chunk task of the current segment ends. -/
def taskEnds (r : Receiver) (c : Conn) (i : ℕ) (ok : Bool) : Option Receiver :=
  c.curSeg.bind fun st => (st.chunkTasks[i]?).map fun t =>
    { r with
      sim := if ok then r.sim.putChunk ns tl st.segNo t.1 t.2 else r.sim
      conn := some { c with
        curSeg := some { st with
          chunkTasks := st.chunkTasks.eraseIdx i
          taskFailed := st.taskFailed || !ok } } }

/-- One step. -/
def step (r : Receiver) : Label → Option Receiver
  | .connect lsn =>
    if r.conn.isSome then none else some { r with conn := some (.new lsn r.generation) }
  | .checkpoint => some { r with generation := r.generation + 1 }
  | .input i => r.conn.bind fun c =>
    if c.pc = .recv then some { r with conn := some (c.receive i) } else none
  | .run => r.conn.bind (r.advance)
  | .putLands => r.conn.bind (r.putLands ns tl)
  | .taskLands i => r.conn.bind fun c => r.taskEnds ns tl c i true
  | .taskFails i => r.conn.bind fun c => r.taskEnds ns tl c i false
  | .lateLands i => (r.late[i]?).map fun t =>
    { r with sim := land ns tl r.sim t, late := r.late.eraseIdx i }
  | .drop => r.conn.map r.dropped

/-! ## PUTs and deletes in the middle -/

end Receiver

/-- What a step does to the archive. -/
inductive Effect where
  | chunk (segNo : UInt64) (offset : ℕ) (data : Bytes)
  | sealed (segNo : UInt64) (data : Bytes)
  | deleteChunks (segNo : UInt64)
  | removeChunk (segNo : UInt64) (offset : ℕ)

namespace Effect

/-- The archive after an effect. -/
def apply (ns : DbNamespace) (tl : TimelineId) (sim : S3Sim) : Effect → S3Sim
  | .chunk n o data => sim.putChunk ns tl n o data
  | .sealed n data => sim.putSealed ns tl n data
  | .deleteChunks n => sim.deleteChunks ns tl n
  | .removeChunk n o => sim.removeChunk ns tl n o

/-- `File::create` of a PUT: the object is there, with no contents that can be read. -/
def creation : Effect → Option Effect
  | .chunk n o _ => some (.chunk n o [])
  | .sealed n _ => some (.sealed n [])
  | _ => none

/-- One file of a directory that is deleted. -/
def removal (offset : ℕ) : Effect → Option Effect
  | .deleteChunks n => some (.removeChunk n offset)
  | _ => none

end Effect

/-- The steps when the files of the archive are looked at one by one. -/
inductive DiskLabel where
  /-- A step of the receiver. -/
  | step (l : Label)
  /-- The PUT that the step would complete has created its file and not written it yet. -/
  | creates (l : Label)
  /-- The delete that the step would complete has removed one file. -/
  | removes (l : Label) (offset : ℕ)

namespace Receiver

variable (ns : DbNamespace) (tl : TimelineId)

/-- The PUT or the delete that a step completes. -/
def effect (r : Receiver) : Label → Option Effect
  | .putLands => r.conn.bind fun c =>
    match c.pc, c.curSeg with
    | .tail _, some st => some (.chunk st.segNo st.chunksUploaded st.tail)
    | .flush, some st => some (.chunk st.segNo st.chunksUploaded st.tail)
    | .seal, some st => some (.sealed st.segNo st.padded)
    | _, _ => none
  | .taskLands i => r.conn.bind fun c => c.curSeg.bind fun st =>
    (st.chunkTasks[i]?).map fun t => .chunk st.segNo t.1 t.2
  | .lateLands i => (r.late[i]?).map fun t =>
    match t with
    | .put n o data => .chunk n o data
    | .deleteChunks n => .deleteChunks n
  | _ => none

/-- The same, file by file. -/
def diskEffect (r : Receiver) : DiskLabel → Option Effect
  | .step l => r.effect l
  | .creates l => (r.effect l).bind Effect.creation
  | .removes l offset => (r.effect l).bind (Effect.removal offset)

/-- One step, file by file. A PUT that fails or is lost after it has created its file leaves it so, and
a delete that is lost leaves the files it has not removed. -/
def diskStep (r : Receiver) : DiskLabel → Option Receiver
  | .step l => r.step ns tl l
  | l => (r.diskEffect l).map fun e => { r with sim := e.apply ns tl r.sim }

/-! ## Steps that can be taken -/

section Steps

variable {ns tl} {r : Receiver} {c : Conn} {st : SegState} {closing : Bool}

theorem step_connect (hc : r.conn = none) (lsn : ℕ) :
    r.step ns tl (.connect lsn) = some { r with conn := some (.new lsn r.generation) } := by
  rw [step, hc]
  rfl

theorem step_input (hc : r.conn = some c) (hpc : c.pc = .recv) (i : Input) :
    r.step ns tl (.input i) = some { r with conn := some (c.receive i) } := by
  rw [step, hc, Option.bind_some, if_pos hpc]

theorem step_ingest (hc : r.conn = some c) (hpc : c.pc = .ingest) :
    r.step ns tl .run = some { r with conn := some c.ingest } := by
  rw [step, hc, Option.bind_some, advance, hpc]

theorem step_loopEnd (hc : r.conn = some c) (hpc : c.pc = .loopEnd) :
    r.step ns tl .run = some { r with conn := some (c.maybeFlush r.generation) } := by
  rw [step, hc, Option.bind_some, advance, hpc]

theorem step_join (hc : r.conn = some c) (hpc : c.pc = .join closing) (hst : c.curSeg = some st)
    (hfailed : st.taskFailed = false) (htasks : st.chunkTasks = []) :
    r.step ns tl .run = some { r with conn := some (if st.chunksUploaded < st.buf.length then
      { c with pc := .tail closing } else c.afterJoin st closing) } := by
  rw [step, hc, Option.bind_some, advance, hpc, hst]
  dsimp only
  rw [if_neg (by simp [hfailed]), if_neg (by simp [htasks])]
  split_ifs <;> rfl

theorem step_confirm (hc : r.conn = some c) (hpc : c.pc = .confirm) (hst : c.curSeg = some st) :
    r.step ns tl .run = some { r with conn := some (c.confirm st) } := by
  rw [step, hc, Option.bind_some, advance, hpc, hst]

theorem step_tail (hc : r.conn = some c) (hpc : c.pc = .tail closing) (hst : c.curSeg = some st) :
    r.step ns tl .putLands = some { r with
      sim := r.sim.putChunk ns tl st.segNo st.chunksUploaded st.tail
      conn := some (c.afterJoin st closing) } := by
  rw [step, hc, Option.bind_some, putLands, hpc, hst]

theorem step_flush (hc : r.conn = some c) (hpc : c.pc = .flush) (hst : c.curSeg = some st) :
    r.step ns tl .putLands = some { r with
      sim := r.sim.putChunk ns tl st.segNo st.chunksUploaded st.tail
      conn := some { c with pc := .recv } } := by
  rw [step, hc, Option.bind_some, putLands, hpc, hst]

theorem step_seal (hc : r.conn = some c) (hpc : c.pc = .seal) (hst : c.curSeg = some st) :
    r.step ns tl .putLands = some { r with
      sim := r.sim.putSealed ns tl st.segNo st.padded
      conn := some { c with pc := .confirm }
      late := r.late ++ [.deleteChunks st.segNo] } := by
  rw [step, hc, Option.bind_some, putLands, hpc, hst]

theorem step_taskLands (hc : r.conn = some c) (hst : c.curSeg = some st) {i : ℕ} {t : ℕ × Bytes}
    (ht : st.chunkTasks[i]? = some t) :
    r.step ns tl (.taskLands i) = some { r with
      sim := r.sim.putChunk ns tl st.segNo t.1 t.2
      conn := some { c with
        curSeg := some { st with chunkTasks := st.chunkTasks.eraseIdx i } } } := by
  rw [step, hc, Option.bind_some, taskEnds, hst, Option.bind_some, ht, Option.map_some]
  simp

end Steps

end Receiver

end Tiko.Wal

import Tiko.Lib.Reach

/-!
# Requests in their slots

`IoSlot`: the shared memory through which a backend hands a block request to the worker. The backend
claims the slot, fills its fields, publishes and pushes it, and waits for `Completed`; the worker takes
the slot from the queue, dispatches a work request, and a task reads the fields, performs the I/O and
stores the result. Every access to the slot is a step of its own.

A backend that dies is replaced by one that attaches to the same slot, and a backend that finds no
worker alive releases its slot; neither looks at what the worker still does with the slot. The task
compares the slot's generation only after the I/O.

* `IoPipeline.step`: the operations of the slot's owner, of `poll_submit_queue` and of the tasks;
* `IoPipeline.Quiet`: the steps in which the worker does not use a slot for a request that it was taken
  away from;
* **`belongs_of_quiet`**: in runs of such steps, every I/O and every result belong to its request;
* `otherRequest`: a task that performs the I/O of the next owner's request.
-/

namespace Tiko

open Lib

/-! ## The slot -/

/-- `SlotState`. No function stores `Filling`. -/
inductive SlotState where
  | free | filling | submitted | inProgress | completed
  deriving DecidableEq

/-- `IoOpKind`. -/
inductive IoOpKind where
  | invalid | read | write | prefetch
  deriving DecidableEq

/-- The request fields of a slot. -/
structure IoRequest where
  op : IoOpKind
  spcOid : UInt32
  dbOid : UInt32
  relNumber : UInt32
  forkNumber : Int32
  blockNumber : UInt32
  nblocks : UInt32
  bufferPtr : UInt64
  deriving DecidableEq

/-- The result fields of a slot. -/
structure IoResult where
  status : Int32
  nblocks : UInt32
  deriving DecidableEq

/-- `IoSlot`, without the owner's latch. -/
structure IoSlot where
  state : SlotState
  request : IoRequest
  generation : UInt32
  result : IoResult
  deriving DecidableEq

namespace IoRequest

/-- `IoSlot::validate`, with the numbers of `EINVAL` and `EFAULT`. -/
def validate (r : IoRequest) : Except Int32 Unit :=
  if r.op = .invalid then .error 22
  else if (r.op = .read ∨ r.op = .write) ∧ r.bufferPtr = 0 then .error 14
  else if r.nblocks = 0 ∨ 1024 < r.nblocks then .error 22
  else .ok ()

theorem ne_zero_of_validate {r : IoRequest} {e : Int32} (h : r.validate = .error e) : e ≠ 0 := by
  unfold validate at h
  split_ifs at h <;> rw [← Except.error.inj h] <;> decide

/-- A field of a request. -/
inductive Field where
  | op | spcOid | dbOid | relNumber | forkNumber | blockNumber | nblocks | bufferPtr
  deriving DecidableEq

/-- A field of `dst` gets the value of `src`. -/
def copy (src dst : IoRequest) : Field → IoRequest
  | .op => { dst with op := src.op }
  | .spcOid => { dst with spcOid := src.spcOid }
  | .dbOid => { dst with dbOid := src.dbOid }
  | .relNumber => { dst with relNumber := src.relNumber }
  | .forkNumber => { dst with forkNumber := src.forkNumber }
  | .blockNumber => { dst with blockNumber := src.blockNumber }
  | .nblocks => { dst with nblocks := src.nblocks }
  | .bufferPtr => { dst with bufferPtr := src.bufferPtr }

/-- Two requests agree in a field. -/
def Same (r r' : IoRequest) : Field → Prop
  | .op => r.op = r'.op
  | .spcOid => r.spcOid = r'.spcOid
  | .dbOid => r.dbOid = r'.dbOid
  | .relNumber => r.relNumber = r'.relNumber
  | .forkNumber => r.forkNumber = r'.forkNumber
  | .blockNumber => r.blockNumber = r'.blockNumber
  | .nblocks => r.nblocks = r'.nblocks
  | .bufferPtr => r.bufferPtr = r'.bufferPtr

instance (r r' : IoRequest) (f : Field) : Decidable (r.Same r' f) := by
  cases f <;> exact inferInstanceAs (Decidable (_ = _))

/-- The order in which a backend fills the fields. -/
def fillOrder : List Field :=
  [.op, .spcOid, .dbOid, .relNumber, .forkNumber, .blockNumber, .nblocks, .bufferPtr]

/-- The fields that `process_io_request` reads first. -/
def relforkFields : List Field := [.spcOid, .dbOid, .relNumber, .forkNumber, .op]

/-- The fields that it reads for an operation. -/
def argFields : IoOpKind → List Field
  | .read | .write => [.bufferPtr, .blockNumber, .nblocks]
  | .prefetch => [.blockNumber, .nblocks]
  | .invalid => []

/-- The fields that an operation uses. -/
def usedFields (op : IoOpKind) : List Field := relforkFields ++ argFields op

theorem same_copy (src dst : IoRequest) (f : Field) : (src.copy dst f).Same src f := by
  cases f <;> rfl

theorem Same.copy {src dst : IoRequest} {f : Field} (h : dst.Same src f) (g : Field) :
    (src.copy dst g).Same src f := by
  cases g <;> cases f <;> first | rfl | exact h

/-- The next field is copied. -/
theorem same_copy_of_mem {src dst : IoRequest} {P : Field → Prop} {g : Field} {rest : List Field}
    (h : ∀ f, P f → f ∈ g :: rest ∨ dst.Same src f) :
    ∀ f, P f → f ∈ rest ∨ (src.copy dst g).Same src f := by
  intro f hf
  rcases h f hf with hmem | hsame
  · rcases List.mem_cons.mp hmem with rfl | hmem
    · exact .inr (same_copy src dst f)
    · exact .inl hmem
  · exact .inr (hsame.copy g)

/-- Requests that agree in all fields are equal. -/
theorem eq_of_same {r r' : IoRequest} (h : ∀ f, r.Same r' f) : r = r' := by
  cases r
  cases r'
  have hop := h .op
  have hspc := h .spcOid
  have hdb := h .dbOid
  have hrel := h .relNumber
  have hfork := h .forkNumber
  have hblock := h .blockNumber
  have hnblocks := h .nblocks
  have hbuffer := h .bufferPtr
  simp only [Same] at hop hspc hdb hrel hfork hblock hnblocks hbuffer
  subst hop hspc hdb hrel hfork hblock hnblocks hbuffer
  rfl

end IoRequest

/-- What `process_io_request` makes of the outcome of an operation, with the numbers of `EIO` and
`ENOTSUP`. -/
def ioResult : IoOpKind → Except Int32 UInt32 → IoResult
  | .read, .ok n | .write, .ok n | .prefetch, .ok n => ⟨0, n⟩
  | .read, .error e | .write, .error e => ⟨e, 0⟩
  | .prefetch, .error _ => ⟨5, 0⟩
  | .invalid, _ => ⟨95, 0⟩

namespace IoPipeline

open IoRequest

/-! ## The parties -/

/-- The backend that a slot belongs to: its next operation. -/
inductive Owner where
  /-- There is none: it has exited or died. -/
  | gone
  /-- `attach`, after its store of the state. -/
  | attachGeneration
  | attachFields
  | attachMask
  /-- In no call. -/
  | idle
  /-- Fills the request fields; `rest` are left. -/
  | filling (r : IoRequest) (rest : List Field)
  | publishing (r : IoRequest)
  /-- Publish `k` is not in the queue. -/
  | pushing (k : ℕ)
  | waiting (k : ℕ)
  /-- Has seen `Completed`. -/
  | reading (k : ℕ)
  | readNblocks (k : ℕ) (status : Int32)
  | releasing
  deriving DecidableEq

/-- The worker process. -/
inductive Worker where
  /-- There is none, and `worker_pid` names none. -/
  | gone
  | running
  /-- `worker_pid` is cleared, and tasks may still run. -/
  | stopping
  deriving DecidableEq

/-- `poll_submit_queue` at an entry of the slot. Publish `k` is the one that it has started. -/
inductive Poll where
  | idle
  | started (k : ℕ)
  | valid (k : ℕ)
  | dispatching (k : ℕ) (generation : UInt32)
  /-- The dispatcher is full. -/
  | reverting (k : ℕ)
  /-- `fail_with_error`. -/
  | failing (k : ℕ) (code : Int32)
  | marking (k : ℕ)
  deriving DecidableEq

/-- The result of a dispatch. -/
inductive Dispatch where
  | ok | full | failed
  deriving DecidableEq

/-- The next operation of `process_io_request`. -/
inductive TaskPc where
  /-- Reads the relation fork and the operation. -/
  | readRelfork (got : IoRequest) (rest : List Field)
  /-- Reads the fields that the operation uses, and performs it. -/
  | readArgs (got : IoRequest) (rest : List Field)
  /-- The generation. -/
  | checking (res : IoResult)
  | storeStatus (res : IoResult)
  | storeNblocks (res : IoResult)
  | completing
  deriving DecidableEq

/-- `IoWorkRequest` in the dispatcher's channel or in its task, with the publish that it is for. -/
structure Task where
  id : ℕ
  generation : UInt32
  pc : TaskPc
  deriving DecidableEq

/-- An I/O that a task has performed, for publish `id` and with the fields that it has read. -/
structure Io where
  id : ℕ
  request : IoRequest
  result : IoResult
  deriving DecidableEq

/-- What happens next. -/
inductive Label where
  /-- A backend starts and attaches. -/
  | attach
  /-- The owner claims the slot. -/
  | claim (r : IoRequest)
  /-- The owner takes its next operation. -/
  | owner
  /-- The owner finds no worker alive. -/
  | giveUp
  | die
  | start
  /-- The worker's main loop ends. -/
  | stop
  /-- The worker process ends, at any point. -/
  | exit
  /-- `poll_submit_queue` finds an entry of the slot. -/
  | pop
  /-- It takes its next operation for the entry. -/
  | poll (out : Dispatch)
  /-- A task takes its next operation. -/
  | task (i : ℕ) (res : Except Int32 UInt32)

end IoPipeline

open IoPipeline in
/-- A slot with its owner and the worker. -/
structure IoPipeline where
  slot : IoSlot
  /-- The slot's bit in `free_mask`. -/
  free : Bool
  /-- The entries of the slot in the submit queue. -/
  queued : ℕ
  owner : Owner
  worker : Worker
  poll : Poll
  tasks : List Task
  /-- What has been published. -/
  published : List IoRequest
  /-- The I/O that was performed. -/
  ios : List Io
  /-- The requests that the worker has failed without I/O. -/
  refused : List (ℕ × IoResult)
  /-- The results that owners have read. -/
  observed : List (ℕ × IoResult)

namespace IoPipeline

open IoRequest

/-! ## Steps -/

/-- `IoSlot::init`, in memory that is zero. -/
def init : IoPipeline where
  slot := ⟨.free, ⟨.invalid, 0, 0, 0, 0, 0, 0, 0⟩, 0, ⟨0, 0⟩⟩
  free := false
  queued := 0
  owner := .gone
  worker := .gone
  poll := .idle
  tasks := []
  published := []
  ios := []
  refused := []
  observed := []

/-- The slot's state is stored. -/
def setState (s : IoPipeline) (st : SlotState) : IoPipeline := { s with slot := { s.slot with state := st } }

/-- The slot's result fields are stored. -/
def setResult (s : IoPipeline) (res : IoResult) : IoPipeline :=
  { s with slot := { s.slot with result := res } }

/-- `BackendSlotPool::release`. -/
def release (s : IoPipeline) : IoPipeline := { s.setState .free with free := true, owner := .idle }

/-- The owner's next operation. -/
def operate (s : IoPipeline) : Option IoPipeline :=
  match s.owner with
  | .gone | .idle => none
  | .attachGeneration =>
    some { s with slot := { s.slot with generation := s.slot.generation + 1 }, owner := .attachFields }
  | .attachFields =>
    some { s with
      slot := { s.slot with request := { s.slot.request with bufferPtr := 0 }, result := ⟨0, 0⟩ }
      owner := .attachMask }
  | .attachMask => some { s with free := true, owner := .idle }
  | .filling r (f :: rest) =>
    some { s with slot := { s.slot with request := r.copy s.slot.request f }, owner := .filling r rest }
  | .filling r [] => some { s.setResult ⟨0, 0⟩ with owner := .publishing r }
  | .publishing r =>
    some { s.setState .submitted with published := s.published ++ [r], owner := .pushing s.published.length }
  | .pushing k => some { s with queued := s.queued + 1, owner := .waiting k }
  | .waiting k => if s.slot.state = .completed then some { s with owner := .reading k } else none
  | .reading k => some { s with owner := .readNblocks k s.slot.result.status }
  | .readNblocks k status =>
    some { s with observed := s.observed ++ [(k, ⟨status, s.slot.result.nblocks⟩)], owner := .releasing }
  | .releasing => some s.release

/-- The owner finds no worker alive, while it pushes or waits. -/
def abandon (s : IoPipeline) : Option IoPipeline :=
  match s.owner with
  | .pushing _ | .waiting _ => if s.worker = .running then none else some s.release
  | _ => none

/-- `poll_submit_queue` at an entry: the exchange from `Submitted` to `InProgress`. -/
def popEntry (s : IoPipeline) : Option IoPipeline :=
  if s.worker = .running ∧ s.poll = .idle ∧ 0 < s.queued then
    if s.slot.state = .submitted then
      some { s.setState .inProgress with poll := .started (s.published.length - 1) }
    else some { s with queued := s.queued - 1 }
  else none

/-- The next operation of `poll_submit_queue` for an entry that it has started. -/
def dispatch (s : IoPipeline) (out : Dispatch) : Option IoPipeline :=
  match s.poll with
  | .idle => none
  | .started k =>
    match s.slot.request.validate with
    | .ok () => some { s with poll := .valid k }
    | .error e => some { s with poll := .failing k e }
  | .valid k => some { s with poll := .dispatching k s.slot.generation }
  | .dispatching k g =>
    match out with
    | .ok =>
      some { s with
        tasks := s.tasks ++ [⟨k, g, .readRelfork ⟨.invalid, 0, 0, 0, 0, 0, 0, 0⟩ relforkFields⟩]
        queued := s.queued - 1
        poll := .idle }
    | .full => some { s with poll := .reverting k }
    | .failed => some { s with poll := .failing k 5 }
  | .reverting _ => some { s.setState .submitted with poll := .idle }
  | .failing k e =>
    some { s.setResult ⟨e, s.slot.result.nblocks⟩ with
      refused := s.refused ++ [(k, ⟨e, 0⟩)], poll := .marking k }
  | .marking _ => some { s.setState .completed with queued := s.queued - 1, poll := .idle }

/-- The next operation of a task. `res` is the outcome of the I/O. -/
def process (s : IoPipeline) (i : ℕ) (t : Task) (res : Except Int32 UInt32) : IoPipeline :=
  let goto (pc : TaskPc) := s.tasks.set i { t with pc := pc }
  match t.pc with
  | .readRelfork got (f :: rest) => { s with tasks := goto (.readRelfork (s.slot.request.copy got f) rest) }
  | .readRelfork got [] => { s with tasks := goto (.readArgs got (argFields got.op)) }
  | .readArgs got (f :: rest) => { s with tasks := goto (.readArgs (s.slot.request.copy got f) rest) }
  | .readArgs got [] =>
    { s with
      tasks := goto (.checking (ioResult got.op res))
      ios := s.ios ++ [⟨t.id, got, ioResult got.op res⟩] }
  | .checking r =>
    if s.slot.generation = t.generation then { s with tasks := goto (.storeStatus r) }
    else { s with tasks := s.tasks.eraseIdx i }
  | .storeStatus r =>
    { s.setResult ⟨r.status, s.slot.result.nblocks⟩ with tasks := goto (.storeNblocks r) }
  | .storeNblocks r =>
    { s.setResult ⟨s.slot.result.status, r.nblocks⟩ with tasks := goto .completing }
  | .completing => { s.setState .completed with tasks := s.tasks.eraseIdx i }

/-- One step of the system. -/
def step (s : IoPipeline) : Label → Option IoPipeline
  | .attach =>
    if s.owner = .gone then some { s.setState .free with owner := .attachGeneration } else none
  | .claim r =>
    if s.owner = .idle ∧ s.free then some { s with free := false, owner := .filling r fillOrder } else none
  | .owner => s.operate
  | .giveUp => s.abandon
  | .die => some { s with owner := .gone }
  | .start => if s.worker = .gone then some { s with worker := .running } else none
  | .stop => if s.worker = .running ∧ s.poll = .idle then some { s with worker := .stopping } else none
  | .exit => some { s with worker := .gone, poll := .idle, tasks := [] }
  | .pop => s.popEntry
  | .poll out => s.dispatch out
  | .task i res => s.tasks[i]?.map fun t => s.process i t res

/-! ## What belongs to a request -/

/-- The slot is still that of publish `k`: it is `InProgress`, and nothing has been published since. -/
def Holds (s : IoPipeline) (k : ℕ) : Prop := s.slot.state = .inProgress ∧ k + 1 = s.published.length

instance (s : IoPipeline) (k : ℕ) : Decidable (s.Holds k) := inferInstanceAs (Decidable (_ ∧ _))

/-- The next operation of `poll_submit_queue` stores nothing into a slot that has been taken away. -/
def QuietPoll (s : IoPipeline) : Poll → Prop
  | .idle | .started _ | .valid _ | .dispatching _ _ => True
  | .reverting k | .failing k _ | .marking k => s.Holds k

/-- The next operation of a task reads no field of a slot that has been taken away, and stores nothing
into it. -/
def QuietTask (s : IoPipeline) (t : Task) : Prop :=
  match t.pc with
  | .readRelfork _ [] | .readArgs _ [] | .checking _ => True
  | .readRelfork _ (_ :: _) | .readArgs _ (_ :: _) => s.Holds t.id
  | .storeStatus _ | .storeNblocks _ | .completing => s.Holds t.id

/-- **The worker does not use a slot that has been taken away**: when a backend has attached to the slot
or released it since the worker has started the request, no task reads a field of it for that request,
and nothing is stored into it. Backends attach and release when they like. -/
def Quiet (s : IoPipeline) : Label → Prop
  | .poll _ => s.QuietPoll s.poll
  | .task i _ => ∀ t ∈ s.tasks[i]?, s.QuietTask t
  | _ => True

instance (s : IoPipeline) : ∀ p, Decidable (s.QuietPoll p)
  | .idle | .started _ | .valid _ | .dispatching _ _ => inferInstanceAs (Decidable True)
  | .reverting k | .failing k _ | .marking k => inferInstanceAs (Decidable (s.Holds k))

instance (s : IoPipeline) : ∀ t, Decidable (s.QuietTask t)
  | ⟨_, _, .readRelfork _ []⟩ | ⟨_, _, .readArgs _ []⟩ | ⟨_, _, .checking _⟩ =>
    inferInstanceAs (Decidable True)
  | ⟨id, _, .readRelfork _ (_ :: _)⟩ | ⟨id, _, .readArgs _ (_ :: _)⟩ =>
    inferInstanceAs (Decidable (s.Holds id))
  | ⟨id, _, .storeStatus _⟩ | ⟨id, _, .storeNblocks _⟩ | ⟨id, _, .completing⟩ =>
    inferInstanceAs (Decidable (s.Holds id))

instance (s : IoPipeline) : ∀ l, Decidable (s.Quiet l)
  | .poll _ => inferInstanceAs (Decidable (s.QuietPoll s.poll))
  | .task i _ => inferInstanceAs (Decidable (∀ t ∈ s.tasks[i]?, s.QuietTask t))
  | .attach | .giveUp | .claim _ | .owner | .die | .start | .stop | .exit | .pop =>
    inferInstanceAs (Decidable True)

/-- The requests that have an outcome. -/
def outcomes (s : IoPipeline) : List ℕ := s.ios.map Io.id ++ s.refused.map Prod.fst

/-- The outcome of a request: the result of its I/O, or an error without I/O. -/
def Outcome (s : IoPipeline) (k : ℕ) (res : IoResult) : Prop :=
  (∃ io ∈ s.ios, io.id = k ∧ io.result = res) ∨ (k, res) ∈ s.refused

/-- Each I/O and each result belong to their request. -/
structure Belongs (s : IoPipeline) : Prop where
  /-- An I/O uses the fields of the publish that its work request was dispatched for. -/
  fields : ∀ io ∈ s.ios, ∃ r, s.published[io.id]? = some r ∧
    ∀ f ∈ usedFields r.op, io.request.Same r f
  /-- A request has at most one I/O, and none when the worker has failed it. -/
  once : s.outcomes.Nodup
  /-- A request without I/O returns an error. -/
  refused : ∀ k res, (k, res) ∈ s.refused → res.status ≠ 0
  /-- An owner that has seen `Completed` reads the outcome of its own request. -/
  observed : ∀ k res, (k, res) ∈ s.observed → s.Outcome k res

/-! ## The invariant -/

/-- The publish that `poll_submit_queue` has started. -/
def Poll.publish : Poll → Option ℕ
  | .idle => none
  | .started k | .valid k | .dispatching k _ | .reverting k | .failing k _ | .marking k => some k

section Invariant

variable (s : IoPipeline)

/-- The publishes for which the worker has a request in flight. -/
def inFlight : List ℕ := s.poll.publish.toList ++ s.tasks.map Task.id

/-- Publish `k` is the newest, and its fields are in the slot. -/
def Current (k : ℕ) : Prop := s.published[k]? = some s.slot.request ∧ k + 1 = s.published.length

/-- Publish `k` is in the slot, and so is its outcome. -/
def Done (k : ℕ) : Prop := s.Current k ∧ s.Outcome k s.slot.result

/-- `poll_submit_queue` and its publish, as long as it has the slot. -/
def PollInv : Poll → Prop
  | .idle => True
  | .started k | .valid k | .dispatching k _ | .reverting k =>
    k ∉ s.outcomes ∧ (s.Holds k → s.slot.result = ⟨0, 0⟩)
  | .failing k e => k ∉ s.outcomes ∧ (s.Holds k → s.slot.result = ⟨0, 0⟩) ∧ e ≠ 0
  | .marking k => s.Holds k → s.Outcome k s.slot.result

/-- A task and its publish. -/
def TaskInv (k : ℕ) : TaskPc → Prop
  | .readRelfork got rest => k ∉ s.outcomes ∧ ∃ r, s.published[k]? = some r ∧
    ∀ f, f ∈ relforkFields → f ∈ rest ∨ got.Same r f
  | .readArgs got rest => k ∉ s.outcomes ∧ ∃ r, s.published[k]? = some r ∧
    ∀ f, f ∈ usedFields r.op → f ∈ rest ∨ got.Same r f
  | .checking res | .storeStatus res => s.Outcome k res
  | .storeNblocks res => s.Outcome k res ∧ (s.Holds k → s.slot.result.status = res.status)
  | .completing => s.Holds k → s.Outcome k s.slot.result

/-- What the state of the slot says. -/
def StateInv : Prop :=
  match s.slot.state with
  | .free => True
  | .filling => False
  | .submitted => s.slot.result = ⟨0, 0⟩ ∧ ∃ k, s.Current k ∧ k ∉ s.outcomes ∧ k ∉ s.inFlight
  | .inProgress => ∃ k, s.Current k
  | .completed => ∃ k, s.Done k

/-- What the owner's next operation says. -/
def OwnerInv : Prop :=
  match s.owner with
  | .gone => True
  | .attachGeneration | .attachFields | .attachMask | .idle => s.slot.state = .free
  | .filling r rest => s.slot.state = .free ∧ ∀ f, True → f ∈ rest ∨ s.slot.request.Same r f
  | .publishing r => s.slot.state = .free ∧ s.slot.request = r ∧ s.slot.result = ⟨0, 0⟩
  | .pushing k | .waiting k => s.slot.state ≠ .free ∧ k + 1 = s.published.length
  | .reading k => s.slot.state = .completed ∧ k + 1 = s.published.length
  | .readNblocks k status =>
    s.slot.state = .completed ∧ k + 1 = s.published.length ∧ status = s.slot.result.status
  | .releasing => s.slot.state = .completed

/-- What every state of a quiet run satisfies. -/
structure Inv : Prop where
  belongs : s.Belongs
  bound : ∀ k ∈ s.outcomes, k < s.published.length
  nodup : s.inFlight.Nodup
  started : ∀ k ∈ s.inFlight, k < s.published.length
  poll : s.PollInv s.poll
  tasks : ∀ t ∈ s.tasks, s.TaskInv t.id t.pc
  state : s.StateInv
  owner : s.OwnerInv

end Invariant

/-! ## Requests that a step does not concern -/

section Steps

variable {s s' : IoPipeline} {k : ℕ} {P : ℕ → Prop}

theorem inv_init : init.Inv where
  belongs := by
    refine ⟨fun io h => ?_, List.nodup_nil, fun k res h => ?_, fun k res h => ?_⟩
    · exact absurd h List.not_mem_nil
    · exact absurd h List.not_mem_nil
    · exact absurd h List.not_mem_nil
  bound k h := absurd h List.not_mem_nil
  nodup := List.nodup_nil
  started k h := absurd h List.not_mem_nil
  poll := trivial
  tasks t h := absurd h List.not_mem_nil
  state := trivial
  owner := trivial

theorem Outcome.mono {res : IoResult} (h : s.Outcome k res) (hios : s.ios ⊆ s'.ios)
    (href : s.refused ⊆ s'.refused) : s'.Outcome k res := by
  rcases h with ⟨io, hio, hk⟩ | h
  · exact .inl ⟨io, hios hio, hk⟩
  · exact .inr (href h)

/-- What a step leaves alone of the requests in `P`: it adds to what has happened, but no outcome of
theirs, and those that have the slot had it before, with the same result fields. -/
structure Spares (s s' : IoPipeline) (P : ℕ → Prop) : Prop where
  published : s.published <+: s'.published
  ios : s.ios ⊆ s'.ios
  refused : s.refused ⊆ s'.refused
  outcomes : ∀ k, P k → k ∈ s'.outcomes → k ∈ s.outcomes
  slot : ∀ k, P k → s'.Holds k → s.Holds k ∧ s'.slot.result = s.slot.result

theorem getElem?_of_prefix {α : Type} {l l' : List α} {a : α} (h : l <+: l') (ha : l[k]? = some a) :
    l'[k]? = some a := by
  obtain ⟨rest, rfl⟩ := h
  obtain ⟨hlt, -⟩ := List.getElem?_eq_some_iff.mp ha
  rw [List.getElem?_append_left hlt, ha]

theorem Spares.taskInv (h : Spares s s' P) (hk : P k) {pc : TaskPc} (hinv : s.TaskInv k pc) :
    s'.TaskInv k pc := by
  cases pc with
  | readRelfork got rest =>
    obtain ⟨hnot, r, hr, hsame⟩ := hinv
    exact ⟨fun hout => hnot (h.outcomes k hk hout), r, getElem?_of_prefix h.published hr, hsame⟩
  | readArgs got rest =>
    obtain ⟨hnot, r, hr, hsame⟩ := hinv
    exact ⟨fun hout => hnot (h.outcomes k hk hout), r, getElem?_of_prefix h.published hr, hsame⟩
  | checking res => exact hinv.mono h.ios h.refused
  | storeStatus res => exact hinv.mono h.ios h.refused
  | storeNblocks res =>
    refine ⟨hinv.1.mono h.ios h.refused, fun hs => ?_⟩
    obtain ⟨hs, hres⟩ := h.slot k hk hs
    rw [hres]
    exact hinv.2 hs
  | completing =>
    intro hs
    obtain ⟨hs, hres⟩ := h.slot k hk hs
    rw [hres]
    exact (hinv hs).mono h.ios h.refused

theorem Spares.pollInv (h : Spares s s' P) {p : Poll} (hp : ∀ k ∈ p.publish, P k)
    (hinv : s.PollInv p) : s'.PollInv p := by
  have hclean : ∀ k, P k → k ∉ s.outcomes ∧ (s.Holds k → s.slot.result = ⟨0, 0⟩) →
      k ∉ s'.outcomes ∧ (s'.Holds k → s'.slot.result = ⟨0, 0⟩) := by
    rintro k hk ⟨hnot, hres⟩
    refine ⟨fun hout => hnot (h.outcomes k hk hout), fun hs => ?_⟩
    obtain ⟨hs, heq⟩ := h.slot k hk hs
    rw [heq]
    exact hres hs
  cases p with
  | idle => trivial
  | started k => exact hclean k (hp k rfl) hinv
  | valid k => exact hclean k (hp k rfl) hinv
  | dispatching k g => exact hclean k (hp k rfl) hinv
  | reverting k => exact hclean k (hp k rfl) hinv
  | failing k e =>
    obtain ⟨hnot, hres, he⟩ := hinv
    obtain ⟨hnot, hres⟩ := hclean k (hp k rfl) ⟨hnot, hres⟩
    exact ⟨hnot, hres, he⟩
  | marking k =>
    intro hs
    obtain ⟨hs, heq⟩ := h.slot k (hp k rfl) hs
    rw [heq]
    exact (hinv hs).mono h.ios h.refused

theorem Current.unique (h : s.Current k) {k' : ℕ} (h' : k' + 1 = s.published.length) : k' = k := by
  have hk := h.2
  omega

/-- A request that has the slot finds its fields there. -/
theorem Holds.current (h : s.Holds k) (hs : s.StateInv) : s.Current k := by
  unfold StateInv at hs
  rw [h.1] at hs
  obtain ⟨j, hj⟩ := hs
  obtain rfl := hj.unique h.2
  exact hj

theorem StateInv.of_submitted (h : s.StateInv) (hs : s.slot.state = .submitted) :
    s.slot.result = ⟨0, 0⟩ ∧ ∃ k, s.Current k ∧ k ∉ s.outcomes ∧ k ∉ s.inFlight := by
  unfold StateInv at h
  rwa [hs] at h

theorem StateInv.of_completed (h : s.StateInv) (hs : s.slot.state = .completed) : ∃ k, s.Done k := by
  unfold StateInv at h
  rwa [hs] at h

theorem stateInv_free (hs : s.slot.state = .free) : s.StateInv := by
  unfold StateInv
  rw [hs]
  trivial

theorem stateInv_submitted (hs : s.slot.state = .submitted) (hres : s.slot.result = ⟨0, 0⟩)
    (hk : s.Current k) (hout : k ∉ s.outcomes) (hfly : k ∉ s.inFlight) : s.StateInv := by
  unfold StateInv
  rw [hs]
  exact ⟨hres, k, hk, hout, hfly⟩

theorem stateInv_inProgress (hs : s.slot.state = .inProgress) (hk : s.Current k) : s.StateInv := by
  unfold StateInv
  rw [hs]
  exact ⟨k, hk⟩

theorem stateInv_completed (hs : s.slot.state = .completed) (hk : s.Done k) : s.StateInv := by
  unfold StateInv
  rw [hs]
  exact ⟨k, hk⟩

/-- The slot is as it was, no other request is in flight, and only those in flight get an outcome. -/
theorem StateInv.keep (h : s.StateInv) (hslot : s'.slot = s.slot) (hpub : s'.published = s.published)
    (hios : s.ios ⊆ s'.ios) (href : s.refused ⊆ s'.refused)
    (hout : ∀ k ∉ s.inFlight, k ∈ s'.outcomes → k ∈ s.outcomes) (hsub : s'.inFlight ⊆ s.inFlight) :
    s'.StateInv := by
  have hcur : ∀ k, s.Current k → s'.Current k := by
    unfold Current
    rw [hslot, hpub]
    exact fun _ hk => hk
  unfold StateInv at h ⊢
  rw [hslot]
  cases hs : s.slot.state with
  | free => trivial
  | filling => rwa [hs] at h
  | submitted =>
    rw [hs] at h
    obtain ⟨hres, k, hk, hnot, hfly⟩ := h
    exact ⟨hres, k, hcur k hk, fun hmem => hnot (hout k hfly hmem), fun hmem => hfly (hsub hmem)⟩
  | inProgress =>
    rw [hs] at h
    exact h.imp hcur
  | completed =>
    rw [hs] at h
    obtain ⟨k, hk, houtcome⟩ := h
    refine ⟨k, hcur k hk, ?_⟩
    rw [hslot]
    exact houtcome.mono hios href

/-- What has happened belongs to its requests after a step that adds nothing to it. -/
theorem Belongs.congr (h : s.Belongs) (hpub : s.published <+: s'.published) (hios : s'.ios = s.ios)
    (href : s'.refused = s.refused) (hobs : s'.observed = s.observed) : s'.Belongs := by
  refine ⟨fun io hio => ?_, ?_, ?_, ?_⟩
  · rw [hios] at hio
    obtain ⟨r, hr, hsame⟩ := h.fields io hio
    exact ⟨r, getElem?_of_prefix hpub hr, hsame⟩
  · rw [outcomes, hios, href]
    exact h.once
  · rw [href]
    exact h.refused
  · unfold Outcome
    rw [hobs, hios, href]
    exact h.observed

/-- The worker's stores into a slot that its request has do not concern the owner. -/
theorem OwnerInv.work (h : s.OwnerInv)
    (hs : s.slot.state = .submitted ∨ s.slot.state = .inProgress) (howner : s'.owner = s.owner)
    (hpub : s'.published = s.published) (hs' : s'.slot.state ≠ .free) : s'.OwnerInv := by
  have hfree : s.slot.state ≠ .free := by rcases hs with hs | hs <;> rw [hs] <;> decide
  have hdone : s.slot.state ≠ .completed := by rcases hs with hs | hs <;> rw [hs] <;> decide
  unfold OwnerInv at h ⊢
  rw [howner]
  cases ho : s.owner <;> rw [ho] at h
  case gone => trivial
  case pushing k => exact ⟨hs', by rw [hpub]; exact h.2⟩
  case waiting k => exact ⟨hs', by rw [hpub]; exact h.2⟩
  case attachGeneration => exact absurd h hfree
  case attachFields => exact absurd h hfree
  case attachMask => exact absurd h hfree
  case idle => exact absurd h hfree
  case filling r rest => exact absurd h.1 hfree
  case publishing r => exact absurd h.1 hfree
  case reading k => exact absurd h.1 hdone
  case readNblocks k status => exact absurd h.1 hdone
  case releasing => exact absurd h hdone

/-- **A step for the requests outside `P`**: what it has to show about the rest of the state. -/
theorem Inv.spared (h : s.Inv) (hs : Spares s s' P) (hbelongs : s'.Belongs)
    (hbound : ∀ k ∈ s'.outcomes, k < s'.published.length) (hnodup : s'.inFlight.Nodup)
    (hsub : ∀ k ∈ s'.inFlight, k ∈ s.inFlight ∨ k < s'.published.length)
    (hpoll : (s'.poll = s.poll ∧ ∀ k ∈ s.poll.publish, P k) ∨ s'.PollInv s'.poll)
    (htasks : ∀ t ∈ s'.tasks, (t ∈ s.tasks ∧ P t.id) ∨ s'.TaskInv t.id t.pc)
    (hstate : s'.StateInv) (howner : s'.OwnerInv) : s'.Inv where
  belongs := hbelongs
  bound := hbound
  nodup := hnodup
  started k hk := by
    rcases hsub k hk with hk | hk
    · exact (h.started k hk).trans_le hs.published.length_le
    · exact hk
  poll := by
    rcases hpoll with ⟨heq, hp⟩ | hpoll
    · rw [heq]
      exact hs.pollInv hp h.poll
    · exact hpoll
  tasks t ht := by
    rcases htasks t ht with ⟨hmem, hp⟩ | hinv
    · exact hs.taskInv hp (h.tasks t hmem)
    · exact hinv
  state := hstate
  owner := howner

/-- A step of which no request in flight takes notice. -/
theorem Inv.silent (h : s.Inv) (hpub : s.published <+: s'.published) (hios : s'.ios = s.ios)
    (href : s'.refused = s.refused)
    (hobs : ∀ j res, (j, res) ∈ s'.observed → (j, res) ∈ s.observed ∨ s.Outcome j res)
    (hpoll : s'.poll = s.poll) (htasks : s'.tasks = s.tasks)
    (hslot : ∀ k, s'.Holds k → s.Holds k ∧ s'.slot.result = s.slot.result) (hstate : s'.StateInv)
    (howner : s'.OwnerInv) : s'.Inv := by
  have hout : s'.outcomes = s.outcomes := by rw [outcomes, outcomes, hios, href]
  have hfly : s'.inFlight = s.inFlight := by rw [inFlight, inFlight, hpoll, htasks]
  have hspares : Spares s s' fun _ => True := by
    refine ⟨hpub, ?_, ?_, fun k _ hk => ?_, fun k _ => hslot k⟩
    · rw [hios]
      exact List.Subset.refl _
    · rw [href]
      exact List.Subset.refl _
    · rwa [hout] at hk
  refine h.spared hspares ⟨fun io hio => ?_, ?_, ?_, fun j res hj => ?_⟩ (fun k hk => ?_) ?_
    (fun k hk => ?_) (.inl ⟨hpoll, fun _ _ => trivial⟩) (fun t ht => ?_) hstate howner
  · rw [hios] at hio
    obtain ⟨r, hr, hsame⟩ := h.belongs.fields io hio
    exact ⟨r, getElem?_of_prefix hpub hr, hsame⟩
  · rw [hout]
    exact h.belongs.once
  · rw [href]
    exact h.belongs.refused
  · have houtcome : s.Outcome j res := (hobs j res hj).elim (h.belongs.observed j res) id
    exact houtcome.mono hspares.ios hspares.refused
  · rw [hout] at hk
    exact (h.bound k hk).trans_le hpub.length_le
  · rw [hfly]
    exact h.nodup
  · rw [hfly] at hk
    exact .inl hk
  · rw [htasks] at ht
    exact .inl ⟨ht, trivial⟩

/-! ## The owner's steps -/

theorem not_holds_of_state {st : SlotState} (hs : s.slot.state = st) (hne : st ≠ .inProgress) :
    ¬ s.Holds k := fun h => hne (hs.symm.trans h.1)

/-- The slot is free, whatever is in flight for it. -/
theorem Inv.toFree (h : s.Inv) {slot : IoSlot} {free : Bool} {owner : Owner} (hslot : slot.state = .free)
    (howner : OwnerInv { s with slot := slot, free := free, owner := owner }) :
    Inv { s with slot := slot, free := free, owner := owner } :=
  h.silent (List.prefix_refl _) rfl rfl (fun _ _ hj => .inl hj) rfl rfl
    (fun _ hk => absurd hk (not_holds_of_state hslot SlotState.noConfusion)) (stateInv_free hslot) howner

/-- The owner or the system goes on, and nothing is stored into the slot. -/
theorem Inv.sameSlot (h : s.Inv) {queued : ℕ} {owner : Owner} {worker : Worker}
    (howner : OwnerInv { s with queued := queued, owner := owner, worker := worker }) :
    Inv { s with queued := queued, owner := owner, worker := worker } :=
  h.silent (List.prefix_refl _) rfl rfl (fun _ _ hj => .inl hj) rfl rfl (fun _ hk => ⟨hk, rfl⟩) h.state
    howner

/-- The owner publishes. -/
theorem Inv.publish (h : s.Inv) {r : IoRequest} (ho : s.owner = .publishing r) :
    Inv { s.setState .submitted with
      published := s.published ++ [r], owner := .pushing s.published.length } := by
  have hown := h.owner
  unfold OwnerInv at hown
  rw [ho] at hown
  obtain ⟨-, hreq, hres⟩ := hown
  have hlen : s.published.length + 1 = (s.published ++ [r]).length := by simp
  refine h.silent (List.prefix_append _ _) rfl rfl (fun _ _ hj => .inl hj) rfl rfl
    (fun _ hk => absurd hk (not_holds_of_state rfl SlotState.noConfusion))
    (stateInv_submitted rfl hres ⟨?_, hlen⟩ (fun hk => ?_) fun hk => ?_) ⟨SlotState.noConfusion, hlen⟩
  · change (s.published ++ [r])[s.published.length]? = some s.slot.request
    rw [List.getElem?_concat_length, hreq]
  · exact absurd (h.bound _ hk) (lt_irrefl _)
  · exact absurd (h.started _ hk) (lt_irrefl _)

/-- The owner reads the outcome of its request. -/
theorem Inv.observe (h : s.Inv) {k : ℕ} {status : Int32} (ho : s.owner = .readNblocks k status) :
    Inv { s with
      observed := s.observed ++ [(k, ⟨status, s.slot.result.nblocks⟩)], owner := .releasing } := by
  have hown := h.owner
  unfold OwnerInv at hown
  rw [ho] at hown
  obtain ⟨hs, hk, rfl⟩ := hown
  obtain ⟨k', hdone⟩ := h.state.of_completed hs
  obtain rfl := hdone.1.unique hk
  refine h.silent (List.prefix_refl _) rfl rfl (fun j res hj => ?_) rfl rfl (fun _ hk => ⟨hk, rfl⟩)
    (stateInv_completed hs hdone) hs
  rcases List.mem_append.mp hj with hj | hj
  · exact .inl hj
  · obtain ⟨rfl, rfl⟩ := Prod.mk.inj (List.mem_singleton.mp hj)
    exact .inr hdone.2

theorem Inv.operate (h : s.Inv) (hstep : s.operate = some s') : s'.Inv := by
  have hown := h.owner
  unfold OwnerInv at hown
  unfold IoPipeline.operate at hstep
  cases ho : s.owner with
  | gone => rw [ho] at hstep; exact absurd hstep (by simp)
  | idle => rw [ho] at hstep; exact absurd hstep (by simp)
  | attachGeneration =>
    rw [ho] at hstep hown
    rw [← Option.some.inj hstep]
    exact h.toFree hown hown
  | attachFields =>
    rw [ho] at hstep hown
    rw [← Option.some.inj hstep]
    exact h.toFree hown hown
  | attachMask =>
    rw [ho] at hstep hown
    rw [← Option.some.inj hstep]
    exact h.toFree hown hown
  | filling r rest =>
    rw [ho] at hstep hown
    cases rest with
    | nil =>
      rw [← Option.some.inj hstep]
      have heq : s.slot.request = r :=
        eq_of_same fun f => (hown.2 f trivial).resolve_left List.not_mem_nil
      exact h.toFree hown.1 ⟨hown.1, heq, rfl⟩
    | cons f rest =>
      rw [← Option.some.inj hstep]
      exact h.toFree hown.1 ⟨hown.1, same_copy_of_mem hown.2⟩
  | publishing r =>
    rw [ho] at hstep
    rw [← Option.some.inj hstep]
    exact h.publish ho
  | pushing k =>
    rw [ho] at hstep hown
    rw [← Option.some.inj hstep]
    exact h.sameSlot hown
  | waiting k =>
    rw [ho] at hstep hown
    split_ifs at hstep with hs
    rw [← Option.some.inj hstep]
    exact h.sameSlot ⟨hs, hown.2⟩
  | reading k =>
    rw [ho] at hstep hown
    rw [← Option.some.inj hstep]
    exact h.sameSlot ⟨hown.1, hown.2, rfl⟩
  | readNblocks k status =>
    rw [ho] at hstep
    rw [← Option.some.inj hstep]
    exact h.observe ho
  | releasing =>
    rw [ho] at hstep
    rw [← Option.some.inj hstep]
    exact h.toFree rfl (rfl : SlotState.free = .free)

theorem Inv.abandon (h : s.Inv) (hstep : s.abandon = some s') : s'.Inv := by
  unfold IoPipeline.abandon at hstep
  split at hstep
  · split_ifs at hstep
    rw [← Option.some.inj hstep]
    exact h.toFree rfl (rfl : SlotState.free = .free)
  · split_ifs at hstep
    rw [← Option.some.inj hstep]
    exact h.toFree rfl (rfl : SlotState.free = .free)
  · exact absurd hstep (by simp)

/-! ## The worker's steps -/

/-- A step for the newest publish `k` spares the others. -/
theorem Spares.of_newest (hk : k + 1 = s.published.length) (hpub : s'.published = s.published)
    (hios : s.ios ⊆ s'.ios) (href : s.refused ⊆ s'.refused)
    (hout : ∀ j, j ≠ k → j ∈ s'.outcomes → j ∈ s.outcomes) : Spares s s' (· ≠ k) where
  published := by rw [hpub]
  ios := hios
  refused := href
  outcomes := hout
  slot j hj hs := by
    have hlen := hs.2
    rw [hpub] at hlen
    have heq : j = k := by omega
    exact absurd heq hj

/-- So does a step that stores nothing into the slot. -/
theorem Spares.of_slot (hslot : s'.slot = s.slot) (hpub : s'.published = s.published)
    (hios : s.ios ⊆ s'.ios) (href : s.refused ⊆ s'.refused)
    (hout : ∀ j, P j → j ∈ s'.outcomes → j ∈ s.outcomes) : Spares s s' P where
  published := by rw [hpub]
  ios := hios
  refused := href
  outcomes := hout
  slot j _ hs := by
    unfold Holds at hs
    rw [hslot, hpub] at hs
    exact ⟨hs, congrArg IoSlot.result hslot⟩

/-- A step without an outcome adds nothing to what has happened. -/
theorem adds_nothing (hios : s'.ios = s.ios) (href : s'.refused = s.refused) :
    s.ios ⊆ s'.ios ∧ s.refused ⊆ s'.refused ∧ ∀ j, j ∈ s'.outcomes → j ∈ s.outcomes := by
  rw [outcomes, outcomes, hios, href]
  exact ⟨List.Subset.refl _, List.Subset.refl _, fun _ hj => hj⟩

theorem Spares.newest (hk : k + 1 = s.published.length) (hpub : s'.published = s.published)
    (hios : s'.ios = s.ios) (href : s'.refused = s.refused) : Spares s s' (· ≠ k) := by
  obtain ⟨hi, hr, hout⟩ := adds_nothing hios href
  exact .of_newest hk hpub hi hr fun j _ => hout j

/-- Without a store into the slot, all are spared. -/
theorem Spares.same (hslot : s'.slot = s.slot) (hpub : s'.published = s.published)
    (hios : s'.ios = s.ios) (href : s'.refused = s.refused) : Spares s s' P := by
  obtain ⟨hi, hr, hout⟩ := adds_nothing hios href
  exact .of_slot hslot hpub hi hr fun j _ => hout j

theorem StateInv.same (h : s.StateInv) (hslot : s'.slot = s.slot) (hpub : s'.published = s.published)
    (hios : s'.ios = s.ios) (href : s'.refused = s.refused) (hsub : s'.inFlight ⊆ s.inFlight) :
    s'.StateInv := by
  obtain ⟨hi, hr, hout⟩ := adds_nothing hios href
  exact h.keep hslot hpub hi hr (fun j _ => hout j) hsub

/-- A request gets its outcome. -/
theorem Belongs.settle (h : s.Belongs) (hk : k ∉ s.outcomes)
    (hperm : s'.outcomes.Perm (k :: s.outcomes)) (hpub : s'.published = s.published)
    (hobs : s'.observed = s.observed) (hios : s.ios ⊆ s'.ios) (href : s.refused ⊆ s'.refused)
    (hfields : ∀ io ∈ s'.ios, io ∈ s.ios ∨ ∃ r, s.published[io.id]? = some r ∧
      ∀ f ∈ usedFields r.op, io.request.Same r f)
    (herr : ∀ j res, (j, res) ∈ s'.refused → (j, res) ∈ s.refused ∨ res.status ≠ 0) : s'.Belongs where
  fields io hio := by
    rw [hpub]
    exact (hfields io hio).elim (h.fields io) id
  once := hperm.nodup_iff.mpr (List.nodup_cons.mpr ⟨hk, h.once⟩)
  refused j res hj := (herr j res hj).elim (h.refused j res) id
  observed j res hj := by
    rw [hobs] at hj
    exact (h.observed j res hj).mono hios href

theorem Inv.bound_settle (h : s.Inv) (hk : k ∈ s.inFlight) (hperm : s'.outcomes.Perm (k :: s.outcomes))
    (hpub : s'.published = s.published) : ∀ j ∈ s'.outcomes, j < s'.published.length := by
  intro j hj
  rw [hpub]
  rcases List.mem_cons.mp (hperm.mem_iff.mp hj) with rfl | hj
  · exact h.started j hk
  · exact h.bound j hj

/-- The requests of the tasks are not that of `poll_submit_queue`. -/
theorem Inv.task_ne (h : s.Inv) {t : Task} (ht : t ∈ s.tasks) (hk : k ∈ s.poll.publish) : t.id ≠ k := by
  obtain ⟨-, -, hne⟩ := List.nodup_append.mp h.nodup
  exact (hne k (Option.mem_toList.mpr hk) t.id (List.mem_map_of_mem ht)).symm

/-- `poll_submit_queue` goes on with its publish, and stores nothing. -/
theorem Inv.polled (h : s.Inv) {p : Poll} (hp : p.publish = s.poll.publish) (hinv : s.PollInv p) :
    Inv { s with poll := p } := by
  have hfly : inFlight { s with poll := p } = s.inFlight := by
    change p.publish.toList ++ _ = _
    rw [hp]
    rfl
  refine h.spared (P := fun _ => True) (.same rfl rfl rfl rfl)
    (h.belongs.congr (List.prefix_refl _) rfl rfl rfl) h.bound ?_ (fun k hk => ?_) (.inr hinv)
    (fun t ht => .inl ⟨ht, trivial⟩) (h.state.same rfl rfl rfl rfl ?_) h.owner
  · rw [hfly]
    exact h.nodup
  · rw [hfly] at hk
    exact .inl hk
  · rw [hfly]
    exact List.Subset.refl _

theorem Inv.popEntry (h : s.Inv) (hstep : s.popEntry = some s') : s'.Inv := by
  unfold IoPipeline.popEntry at hstep
  split_ifs at hstep with hready hs
  · obtain ⟨hres, k, hk, hout, hfly⟩ := h.state.of_submitted hs
    have hlast : s.published.length - 1 = k := by
      have hlen := hk.2
      omega
    rw [hlast] at hstep
    rw [← Option.some.inj hstep]
    have hidle : s.inFlight = s.tasks.map Task.id := by
      rw [inFlight, hready.2.1]
      rfl
    have hnot : ∀ t ∈ s.tasks, t.id ≠ k := by
      rintro t ht rfl
      rw [hidle] at hfly
      exact hfly (List.mem_map_of_mem ht)
    have hnodup := h.nodup
    rw [hidle] at hfly hnodup
    refine h.spared (.newest hk.2 rfl rfl rfl) (h.belongs.congr (List.prefix_refl _) rfl rfl rfl)
      h.bound (List.nodup_cons.mpr ⟨hfly, hnodup⟩) (fun j hj => ?_) (.inr ⟨hout, fun _ => hres⟩)
      (fun t ht => .inl ⟨ht, hnot t ht⟩) (stateInv_inProgress rfl hk)
      (h.owner.work (.inl hs) rfl rfl SlotState.noConfusion)
    rcases List.mem_cons.mp hj with rfl | hj
    · exact .inr (Nat.lt_of_succ_le hk.2.le)
    · exact .inl (by rwa [hidle])
  · rw [← Option.some.inj hstep]
    exact h.sameSlot h.owner

/-- `poll_submit_queue` ends its work on a publish that still has the slot. -/
theorem Inv.pollEnds (h : s.Inv) (hk : s.Holds k) (hp : s.poll.publish = some k) {st : SlotState}
    {queued : ℕ} (hne : st ≠ .free)
    (hstate : StateInv { s.setState st with queued := queued, poll := .idle }) :
    Inv { s.setState st with queued := queued, poll := .idle } := by
  obtain ⟨-, hnodup, -⟩ := List.nodup_append.mp h.nodup
  refine h.spared (.newest hk.2 rfl rfl rfl) (h.belongs.congr (List.prefix_refl _) rfl rfl rfl)
    h.bound hnodup (fun j hj => .inl (List.mem_append_right _ hj)) (.inr trivial)
    (fun t ht => .inl ⟨ht, h.task_ne ht hp⟩) hstate (h.owner.work (.inr hk.1) rfl rfl hne)

/-- The worker fails a request that still has the slot. -/
theorem Inv.refuse (h : s.Inv) (hk : s.Holds k) {e : Int32} (hp : s.poll = .failing k e) :
    Inv { s.setResult ⟨e, s.slot.result.nblocks⟩ with
      refused := s.refused ++ [(k, ⟨e, 0⟩)], poll := .marking k } := by
  have hinv := h.poll
  rw [hp] at hinv
  obtain ⟨hnot, hres, he⟩ := hinv
  have hpub : s.poll.publish = some k := by rw [hp]; rfl
  have hfly : k ∈ s.inFlight := List.mem_append_left _ (Option.mem_toList.mpr hpub)
  have hdone : (k, (⟨e, s.slot.result.nblocks⟩ : IoResult)) ∈ s.refused ++ [(k, ⟨e, 0⟩)] := by
    rw [hres hk]
    exact List.mem_append_right _ (List.mem_singleton_self _)
  have hperm : outcomes { s.setResult ⟨e, s.slot.result.nblocks⟩ with
      refused := s.refused ++ [(k, ⟨e, 0⟩)], poll := .marking k } |>.Perm (k :: s.outcomes) := by
    unfold outcomes
    simp only [List.map_append, List.map_cons, List.map_nil]
    rw [← List.append_assoc]
    exact List.perm_append_singleton _ _
  have hsub : s.refused ⊆ s.refused ++ [(k, ⟨e, 0⟩)] := List.subset_append_left _ _
  refine h.spared (Spares.of_newest hk.2 rfl (List.Subset.refl _) hsub fun j hj hmem => ?_)
    (h.belongs.settle hnot hperm rfl rfl (List.Subset.refl _) hsub (fun io hio => .inl hio)
      fun j res hj => ?_) (h.bound_settle hfly hperm rfl) ?_ (fun j hj => .inl ?_)
    (.inr fun _ => .inr hdone) (fun t ht => .inl ⟨ht, h.task_ne ht hpub⟩)
    (stateInv_inProgress hk.1 (hk.current h.state)) (h.owner.work (.inr hk.1) rfl rfl ?_)
  · exact (List.mem_cons.mp (hperm.mem_iff.mp hmem)).resolve_left hj
  · rcases List.mem_append.mp hj with hj | hj
    · exact .inl hj
    · obtain ⟨-, rfl⟩ := Prod.mk.inj (List.mem_singleton.mp hj)
      exact .inr he
  · have hnodup := h.nodup
    rwa [inFlight, hpub] at hnodup
  · rw [inFlight, hpub]
    exact hj
  · change s.slot.state ≠ .free
    rw [hk.1]
    exact SlotState.noConfusion

/-- `poll_submit_queue` hands its publish over to a task. -/
theorem Inv.dispatched (h : s.Inv) {g : UInt32} (hp : s.poll = .dispatching k g) {queued : ℕ} :
    Inv { s with
      tasks := s.tasks ++ [⟨k, g, .readRelfork ⟨.invalid, 0, 0, 0, 0, 0, 0, 0⟩ relforkFields⟩]
      queued := queued
      poll := .idle } := by
  have hinv := h.poll
  rw [hp] at hinv
  have hfly : s.inFlight = k :: s.tasks.map Task.id := by
    rw [inFlight, hp]
    rfl
  have hperm : inFlight { s with
      tasks := s.tasks ++ [⟨k, g, .readRelfork ⟨.invalid, 0, 0, 0, 0, 0, 0, 0⟩ relforkFields⟩]
      queued := queued
      poll := .idle } |>.Perm s.inFlight := by
    rw [hfly, inFlight, List.map_append]
    exact List.perm_append_singleton _ _
  have hlt : k < s.published.length := h.started k (by rw [hfly]; exact List.mem_cons_self)
  refine h.spared (P := fun _ => True) (.same rfl rfl rfl rfl)
    (h.belongs.congr (List.prefix_refl _) rfl rfl rfl) h.bound (hperm.nodup_iff.mpr h.nodup)
    (fun j hj => .inl (hperm.mem_iff.mp hj)) (.inr trivial) (fun t ht => ?_)
    (h.state.same rfl rfl rfl rfl hperm.subset) h.owner
  rcases List.mem_append.mp ht with ht | ht
  · exact .inl ⟨ht, trivial⟩
  · rw [List.mem_singleton.mp ht]
    exact .inr ⟨hinv.1, s.published[k], List.getElem?_eq_getElem hlt, fun f hf => .inl hf⟩

theorem Inv.dispatch (h : s.Inv) {out : Dispatch} (hq : s.QuietPoll s.poll)
    (hstep : s.dispatch out = some s') : s'.Inv := by
  unfold IoPipeline.dispatch at hstep
  have hinv := h.poll
  cases hp : s.poll with
  | idle =>
    rw [hp] at hstep
    exact absurd hstep (by simp)
  | started k =>
    rw [hp] at hstep hinv
    cases hv : s.slot.request.validate with
    | ok _ =>
      rw [hv] at hstep
      rw [← Option.some.inj hstep]
      exact h.polled (by rw [hp]; rfl) hinv
    | error e =>
      rw [hv] at hstep
      rw [← Option.some.inj hstep]
      exact h.polled (by rw [hp]; rfl) ⟨hinv.1, hinv.2, ne_zero_of_validate hv⟩
  | valid k =>
    rw [hp] at hstep hinv
    rw [← Option.some.inj hstep]
    exact h.polled (by rw [hp]; rfl) hinv
  | dispatching k g =>
    rw [hp] at hstep hinv
    cases out with
    | ok =>
      rw [← Option.some.inj hstep]
      exact h.dispatched hp
    | full =>
      rw [← Option.some.inj hstep]
      exact h.polled (by rw [hp]; rfl) hinv
    | failed =>
      rw [← Option.some.inj hstep]
      exact h.polled (by rw [hp]; rfl) ⟨hinv.1, hinv.2, by decide⟩
  | reverting k =>
    rw [hp] at hstep hinv hq
    rw [← Option.some.inj hstep]
    have hfly := h.nodup
    rw [inFlight, hp] at hfly
    obtain ⟨hnot, -⟩ := List.nodup_cons.mp hfly
    exact h.pollEnds hq (by rw [hp]; rfl) SlotState.noConfusion
      (stateInv_submitted rfl (hinv.2 hq) (hq.current h.state) hinv.1 hnot)
  | failing k e =>
    rw [hp] at hstep hq
    rw [← Option.some.inj hstep]
    exact h.refuse hq hp
  | marking k =>
    rw [hp] at hstep hinv hq
    rw [← Option.some.inj hstep]
    exact h.pollEnds hq (by rw [hp]; rfl) SlotState.noConfusion
      (stateInv_completed rfl ⟨hq.current h.state, hinv hq⟩)

/-! ## A task's steps -/

/-- The requests of the other tasks are others. -/
theorem Inv.others (h : s.Inv) {i : ℕ} {t u : Task} (ht : s.tasks[i]? = some t)
    (hu : u ∈ s.tasks.eraseIdx i) : u ∈ s.tasks ∧ u.id ≠ t.id := by
  obtain ⟨hlt, rfl⟩ := List.getElem?_eq_some_iff.mp ht
  obtain ⟨-, hnodup, -⟩ := List.nodup_append.mp h.nodup
  have hperm := (List.getElem_cons_eraseIdx_perm hlt).map Task.id
  obtain ⟨hnot, -⟩ := List.nodup_cons.mp (hperm.nodup_iff.mpr hnodup)
  refine ⟨List.mem_of_mem_eraseIdx hu, fun hid => hnot ?_⟩
  rw [← hid]
  exact List.mem_map_of_mem hu

/-- A task takes its next operation, of which the others take no notice. -/
theorem Inv.goto (h : s.Inv) {i : ℕ} {t : Task} {pc : TaskPc} (ht : s.tasks[i]? = some t)
    (hs : Spares s s' (· ≠ t.id)) (hbelongs : s'.Belongs)
    (hbound : ∀ k ∈ s'.outcomes, k < s'.published.length) (hpoll : s'.poll = s.poll)
    (htasks : s'.tasks = s.tasks.set i { t with pc := pc }) (hinv : s'.TaskInv t.id pc)
    (hstate : s'.inFlight = s.inFlight → s'.StateInv) (howner : s'.OwnerInv) : s'.Inv := by
  obtain ⟨hlt, heq⟩ := List.getElem?_eq_some_iff.mp ht
  have hmem : t ∈ s.tasks := List.mem_of_getElem? ht
  have hfly : s'.inFlight = s.inFlight := by
    have hlt' : i < (s.tasks.map Task.id).length := by rwa [List.length_map]
    have hid : t.id = (s.tasks.map Task.id)[i] := by rw [List.getElem_map, heq]
    rw [inFlight, inFlight, hpoll, htasks, List.map_set, hid, List.set_getElem_self]
  refine h.spared hs hbelongs hbound ?_ (fun k hk => .inl (by rwa [← hfly]))
    (.inl ⟨hpoll, fun k hk => (h.task_ne hmem hk).symm⟩) (fun u hu => ?_) (hstate hfly) howner
  · rw [hfly]
    exact h.nodup
  · rw [htasks] at hu
    rcases List.mem_cons.mp ((List.set_perm_cons_eraseIdx hlt _).mem_iff.mp hu) with rfl | hu
    · exact .inr hinv
    · exact .inl (h.others ht hu)

/-- A task takes its next operation without a store and without an outcome. -/
theorem Inv.advance (h : s.Inv) {i : ℕ} {t : Task} {pc : TaskPc} (ht : s.tasks[i]? = some t)
    (hinv : s.TaskInv t.id pc) : Inv { s with tasks := s.tasks.set i { t with pc := pc } } :=
  h.goto ht (.same rfl rfl rfl rfl) (h.belongs.congr (List.prefix_refl _) rfl rfl rfl) h.bound rfl rfl hinv
    (fun hfly => h.state.same rfl rfl rfl rfl (by rw [hfly]; exact List.Subset.refl _)) h.owner

/-- A task whose request still has the slot stores a result into it. -/
theorem Inv.store (h : s.Inv) {i : ℕ} {t : Task} {pc : TaskPc} {res : IoResult}
    (ht : s.tasks[i]? = some t) (hk : s.Holds t.id) (hinv : (s.setResult res).TaskInv t.id pc) :
    Inv { s.setResult res with tasks := s.tasks.set i { t with pc := pc } } := by
  refine h.goto ht (.newest hk.2 rfl rfl rfl) (h.belongs.congr (List.prefix_refl _) rfl rfl rfl)
    h.bound rfl rfl hinv (fun _ => stateInv_inProgress hk.1 (hk.current h.state))
    (h.owner.work (.inr hk.1) rfl rfl ?_)
  change s.slot.state ≠ .free
  rw [hk.1]
  exact SlotState.noConfusion

/-- A task ends. -/
theorem Inv.taskEnds (h : s.Inv) {i : ℕ} {t : Task} (ht : s.tasks[i]? = some t) {slot : IoSlot}
    (hs : Spares s { s with slot := slot, tasks := s.tasks.eraseIdx i } (· ≠ t.id))
    (hstate : inFlight { s with slot := slot, tasks := s.tasks.eraseIdx i } ⊆ s.inFlight →
      StateInv { s with slot := slot, tasks := s.tasks.eraseIdx i })
    (howner : OwnerInv { s with slot := slot, tasks := s.tasks.eraseIdx i }) :
    Inv { s with slot := slot, tasks := s.tasks.eraseIdx i } := by
  have hsub : (inFlight { s with slot := slot, tasks := s.tasks.eraseIdx i }).Sublist s.inFlight :=
    (((List.eraseIdx_sublist _ _).map Task.id).append_left _)
  have hmem : t ∈ s.tasks := List.mem_of_getElem? ht
  exact h.spared hs (h.belongs.congr (List.prefix_refl _) rfl rfl rfl) h.bound (h.nodup.sublist hsub)
    (fun k hk => .inl (hsub.subset hk)) (.inl ⟨rfl, fun k hk => (h.task_ne hmem hk).symm⟩)
    (fun u hu => .inl (h.others ht hu)) (hstate hsub.subset) howner

/-- A task performs its I/O. -/
theorem Inv.performed (h : s.Inv) {i : ℕ} {t : Task} {got : IoRequest} {res : IoResult}
    (ht : s.tasks[i]? = some t) (hpc : t.pc = .readArgs got []) :
    Inv { s with
      tasks := s.tasks.set i { t with pc := .checking res }, ios := s.ios ++ [⟨t.id, got, res⟩] } := by
  have hmem : t ∈ s.tasks := List.mem_of_getElem? ht
  have hinv := h.tasks t hmem
  rw [hpc] at hinv
  obtain ⟨hnot, r, hr, hsame⟩ := hinv
  have hfly : t.id ∈ s.inFlight := List.mem_append_right _ (List.mem_map_of_mem hmem)
  have hio : (⟨t.id, got, res⟩ : Io) ∈ s.ios ++ [⟨t.id, got, res⟩] :=
    List.mem_append_right _ (List.mem_singleton_self _)
  have hsub : s.ios ⊆ s.ios ++ [⟨t.id, got, res⟩] := List.subset_append_left _ _
  have hperm : outcomes { s with
      tasks := s.tasks.set i { t with pc := .checking res }, ios := s.ios ++ [⟨t.id, got, res⟩] }
      |>.Perm (t.id :: s.outcomes) := by
    unfold outcomes
    simp only [List.map_append, List.map_cons, List.map_nil]
    rw [List.append_assoc]
    exact List.perm_middle
  have hout : ∀ j, j ≠ t.id → j ∈ outcomes { s with
      tasks := s.tasks.set i { t with pc := .checking res }, ios := s.ios ++ [⟨t.id, got, res⟩] } →
      j ∈ s.outcomes :=
    fun j hj hmem => (List.mem_cons.mp (hperm.mem_iff.mp hmem)).resolve_left hj
  refine h.goto ht (Spares.of_slot rfl rfl hsub (List.Subset.refl _) hout)
    (h.belongs.settle hnot hperm rfl rfl hsub (List.Subset.refl _) (fun io hio => ?_)
      fun _ _ hj => .inl hj) (h.bound_settle hfly hperm rfl) rfl rfl (.inl ⟨_, hio, rfl, rfl⟩)
    (fun heq => h.state.keep rfl rfl hsub (List.Subset.refl _) (fun j hj => hout j ?_)
      (by rw [heq]; exact List.Subset.refl _))
    h.owner
  · rcases List.mem_append.mp hio with hio | hio
    · exact .inl hio
    · rw [List.mem_singleton.mp hio]
      exact .inr ⟨r, hr, fun f hf => (hsame f hf).resolve_left List.not_mem_nil⟩
  · rintro rfl
    exact hj hfly

theorem Inv.process (h : s.Inv) {i : ℕ} {t : Task} (ht : s.tasks[i]? = some t) (hq : s.QuietTask t)
    (res : Except Int32 UInt32) : (s.process i t res).Inv := by
  have hinv := h.tasks t (List.mem_of_getElem? ht)
  unfold QuietTask at hq
  cases hpc : t.pc with
  | readRelfork got rest =>
    rw [hpc] at hinv hq
    obtain ⟨hnot, r, hr, hsame⟩ := hinv
    cases rest with
    | nil =>
      simp only [IoPipeline.process, hpc]
      have hread : ∀ f ∈ relforkFields, got.Same r f := fun f hf =>
        (hsame f hf).resolve_left List.not_mem_nil
      have hop : got.op = r.op := hread .op (by decide)
      refine h.advance ht ⟨hnot, r, hr, fun f hf => ?_⟩
      rcases List.mem_append.mp hf with hf | hf
      · exact .inr (hread f hf)
      · rw [hop]
        exact .inl hf
    | cons f rest =>
      simp only [IoPipeline.process, hpc]
      -- the fields in the slot are those of the request
      obtain rfl : s.slot.request = r := Option.some.inj ((hq.current h.state).1.symm.trans hr)
      exact h.advance ht ⟨hnot, _, hr, same_copy_of_mem hsame⟩
  | readArgs got rest =>
    cases rest with
    | nil =>
      simp only [IoPipeline.process, hpc]
      exact h.performed ht hpc
    | cons f rest =>
      rw [hpc] at hinv hq
      obtain ⟨hnot, r, hr, hsame⟩ := hinv
      simp only [IoPipeline.process, hpc]
      obtain rfl : s.slot.request = r := Option.some.inj ((hq.current h.state).1.symm.trans hr)
      exact h.advance ht ⟨hnot, _, hr, same_copy_of_mem hsame⟩
  | checking r =>
    rw [hpc] at hinv
    simp only [IoPipeline.process, hpc]
    split_ifs
    · exact h.advance ht hinv
    · exact h.taskEnds ht (.same rfl rfl rfl rfl) (fun hsub => h.state.same rfl rfl rfl rfl hsub) h.owner
  | storeStatus r =>
    rw [hpc] at hinv hq
    simp only [IoPipeline.process, hpc]
    exact h.store ht hq ⟨hinv, fun _ => rfl⟩
  | storeNblocks r =>
    rw [hpc] at hinv hq
    obtain ⟨hout, hstatus⟩ := hinv
    simp only [IoPipeline.process, hpc, hstatus hq]
    exact h.store ht hq fun _ => hout
  | completing =>
    rw [hpc] at hinv hq
    simp only [IoPipeline.process, hpc]
    exact h.taskEnds ht (.newest hq.2 rfl rfl rfl)
      (fun _ => stateInv_completed rfl ⟨hq.current h.state, hinv hq⟩)
      (h.owner.work (.inr hq.1) rfl rfl SlotState.noConfusion)

/-- The worker process ends. -/
theorem Inv.exit (h : s.Inv) : Inv { s with worker := .gone, poll := .idle, tasks := [] } :=
  h.spared (P := fun _ => True) (.same rfl rfl rfl rfl)
    (h.belongs.congr (List.prefix_refl _) rfl rfl rfl) h.bound List.nodup_nil
    (fun _ hk => absurd hk List.not_mem_nil) (.inr trivial) (fun _ ht => absurd ht List.not_mem_nil)
    (h.state.same rfl rfl rfl rfl (List.nil_subset _)) h.owner

/-- **Every quiet step keeps the invariant.** -/
theorem Inv.step (h : s.Inv) {l : Label} (hq : s.Quiet l) (hstep : s.step l = some s') : s'.Inv := by
  cases l with
  | attach =>
    rw [IoPipeline.step] at hstep
    split_ifs at hstep
    rw [← Option.some.inj hstep]
    exact h.toFree rfl (rfl : SlotState.free = .free)
  | claim r =>
    rw [IoPipeline.step] at hstep
    split_ifs at hstep with hready
    rw [← Option.some.inj hstep]
    have hown := h.owner
    unfold OwnerInv at hown
    rw [hready.1] at hown
    exact h.toFree hown ⟨hown, fun f _ => .inl (by cases f <;> decide)⟩
  | owner => exact h.operate hstep
  | giveUp => exact h.abandon hstep
  | die =>
    rw [← Option.some.inj hstep]
    exact h.sameSlot trivial
  | start =>
    rw [IoPipeline.step] at hstep
    split_ifs at hstep
    rw [← Option.some.inj hstep]
    exact h.sameSlot h.owner
  | stop =>
    rw [IoPipeline.step] at hstep
    split_ifs at hstep
    rw [← Option.some.inj hstep]
    exact h.sameSlot h.owner
  | exit =>
    rw [← Option.some.inj hstep]
    exact h.exit
  | pop => exact h.popEntry hstep
  | poll out => exact h.dispatch hq hstep
  | task i res =>
    obtain ⟨t, ht, rfl⟩ := Option.map_eq_some_iff.mp hstep
    exact h.process ht (hq t ht) res

theorem inv_of_reaches (h : Reaches step Quiet init s) : s.Inv :=
  h.invariant inv_init fun _ _ _ hi hq hs => hi.step hq hs

end Steps

/-- **Each I/O belongs to its request**, in any number of slots that the worker does not use after they
were taken away: it uses the fields of the one publish that its work request was dispatched for, and an
owner that has seen `Completed` reads the outcome of its own request. -/
theorem belongs_of_quiet {K : Type} [DecidableEq K] {slots : K → IoPipeline}
    (h : Reaches (stepAt step) (fun f l => (f l.1).Quiet l.2) (fun _ => init) slots) (k : K) :
    (slots k).Belongs :=
  (inv_of_reaches (h.component k)).belongs

/-! ## Runs -/

/-- A backend starts. -/
def attachLabels : List Label := .attach :: List.replicate 3 .owner

/-- The owner claims, fills, publishes and pushes. -/
def submitLabels (r : IoRequest) : List Label := .claim r :: List.replicate 11 .owner

/-- `poll_submit_queue` dispatches the request. -/
def dispatchLabels : List Label := .pop :: List.replicate 3 (.poll .ok)

/-- A task reads the fields of a request and performs it. -/
def ioLabels (res : Except Int32 UInt32) : List Label := List.replicate 10 (.task 0 res)

/-- A task checks the generation, stores the result and marks the slot. -/
def finishLabels : List Label := List.replicate 4 (.task 0 (.ok 0))

/-- A page of one relation is written. -/
def writeOne : IoRequest := ⟨.write, 1663, 5, 1, 0, 0, 1, 4096⟩

/-- A page of another relation is read into another buffer. -/
def readTwo : IoRequest := ⟨.read, 1663, 5, 2, 0, 7, 1, 8192⟩

/-- The owner of a write dies during its I/O. The next one attaches and publishes a read, the result of
the write is discarded, and the read is served. -/
def discardedLabels : List Label :=
  attachLabels ++ .start :: submitLabels writeOne ++ dispatchLabels ++ ioLabels (.error 5) ++
    .die :: attachLabels ++ submitLabels readTwo ++ .task 0 (.ok 0) :: dispatchLabels ++
    ioLabels (.ok 1) ++ finishLabels ++ List.replicate 4 .owner

theorem belongs_of_quiet_discarded : ∃ slots : Bool → IoPipeline,
    run (stepAt step) (fun _ => init) (discardedLabels.map fun l => (true, l)) = some slots ∧
      (slots true).ios = [⟨0, writeOne, ⟨5, 0⟩⟩, ⟨1, readTwo, ⟨0, 1⟩⟩] ∧
      (slots true).observed = [(1, ⟨0, 1⟩)] ∧ (slots true).Belongs := by
  let ls : List (Bool × Label) := discardedLabels.map fun l => (true, l)
  cases hrun : run (stepAt step) (fun _ => init) ls with
  | none => exact absurd (congrArg Option.isSome hrun) (by decide)
  | some slots =>
    have hlog : (run (stepAt step) (fun _ => init) ls).map
        (fun f => ((f true).ios, (f true).observed)) =
        some ([⟨0, writeOne, ⟨5, 0⟩⟩, ⟨1, readTwo, ⟨0, 1⟩⟩], [(1, ⟨0, 1⟩)]) := by decide +kernel
    rw [hrun] at hlog
    obtain ⟨hios, hobs⟩ := Prod.mk.inj (Option.some.inj hlog)
    exact ⟨slots, rfl, hios, hobs, belongs_of_quiet (reaches_of_run hrun (by decide +kernel)) true⟩

/-- **The I/O of another request.** The first backend dies when its write is dispatched; the next one
attaches and fills the slot, and the task of the write performs the read. -/
theorem otherRequest : ∃ slots : Unit → IoPipeline,
    Reaches (stepAt step) (fun _ _ => True) (fun _ => init) slots ∧
      (slots ()).published = [writeOne, readTwo] ∧ (slots ()).ios = [⟨0, readTwo, ⟨0, 1⟩⟩] ∧
      ¬ (slots ()).Belongs := by
  let ls : List Label := attachLabels ++ .start :: submitLabels writeOne ++ dispatchLabels ++
    .die :: attachLabels ++ submitLabels readTwo ++ ioLabels (.ok 1)
  cases hrun : run step init ls with
  | none => exact absurd (congrArg Option.isSome hrun) (by decide)
  | some s =>
    have hlog : (run step init ls).map (fun s => (s.published, s.ios)) =
        some ([writeOne, readTwo], [⟨0, readTwo, ⟨0, 1⟩⟩]) := by decide
    rw [hrun] at hlog
    obtain ⟨hpub, hios⟩ := Prod.mk.inj (Option.some.inj hlog)
    refine ⟨fun _ => s, (reaches_of_run hrun (throughout_true _ _)).single, hpub, hios, fun h => ?_⟩
    have hio : (⟨0, readTwo, ⟨0, 1⟩⟩ : Io) ∈ (s : IoPipeline).ios := by
      rw [hios]
      exact List.mem_singleton_self _
    obtain ⟨r, hr, hsame⟩ := h.fields ⟨0, readTwo, ⟨0, 1⟩⟩ hio
    rw [hpub] at hr
    obtain rfl : writeOne = r := Option.some.inj hr
    exact absurd (hsame .op (by decide)) (by decide)

end IoPipeline

end Tiko

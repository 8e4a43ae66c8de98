import Tiko.Cache.CreateRelfork
import Tiko.Cache.PatchChunk

/-!
# The fence of a checkpoint

`run_commit_protocol` flushes the dirty slots of both caches, then takes the write lock of the timeline,
which waits for the holders of the read lock, and drains the draft into the record of the checkpoint.
Any number of threads write to the caches, evict and flush meanwhile. A flush clears the dirty flag
under the `io_lock` of the slot, takes the read lock of the timeline, stores the contents under the head
and records the tag in the draft; each of these is a step.

`flush_dirty` reads the dirty flags without the `io_lock`. So it passes over a slot whose flag another
thread has cleared, although that thread may not have the read lock yet.

* `Caches`: the slots of the caches and what the calls do, with `Caches.tiko` for `ChunkCache` and
  `MetaCache`;
* `CommitSys`, `CommitSys.step`: the sections of the calls, of evictions, of flushes and of a commit;
* `CommitSys.Complete`: what the records of the checkpoints should contain;
* `CommitSys.Caught`: the condition on a commit, that no slot that it has passed over is unrecorded.

A bucket chain is the set of the slots that are linked in it, and the draft is the set of the tags that
are recorded. Usage counts only choose the victim of a sweep, which is left open here, and so is what
the store answers to a read. Operations on the cache file do not fail, and neither do the draft record of
a flush, a spill, and the storage calls of a commit.
-/

namespace Tiko

open Lib

/-! ## The caches -/

/-- What `Store::get_chunk` or `Store::get_meta` returns. -/
inductive StoreAnswer (P : Type) where
  | error
  | notFound
  | found (p : P)

/-- What a call makes of the store's answer: it returns, or it inserts contents and, where `again` is
set, looks the tag up again afterwards. -/
inductive Miss (P : Type) where
  | done
  | insert (data : P) (markDirty again : Bool)

/-- The slots `ι` of the caches, in the order in which `flush_dirty` visits them, with the tags `K` that
they take, and the calls `C`: the contents that a call writes to a slot that it has found, if any, and
what it does when it has not found one. -/
structure Caches (ι K P C : Type) where
  slots : List ι
  mem_slots : ∀ i, i ∈ slots
  fits : ι → K → Bool
  relfork : K → RelFork
  tag : C → K
  hit : C → P → Option P
  miss : C → StoreAnswer P → Miss P

section CacheControl

variable {β : Type} [Zero β]

/-- What `ChunkCache` writes to a slot. -/
def ChunkCache.Call.hit : ChunkCache.Call β → Chunk β → Option (Chunk β)
  | .getChunk, _ => none
  | .patchChunk blockOffset data, c => some (c.splice blockOffset data)

/-- A full write does not ask the store, and a partial one takes an absent chunk for zeros. -/
def ChunkCache.Call.miss : ChunkCache.Call β → StoreAnswer (Chunk β) → Miss (Chunk β)
  | .getChunk, .found c => .insert c false false
  | .getChunk, _ => .done
  | .patchChunk blockOffset data, a =>
    if Chunk.isFull blockOffset data then .insert (Chunk.zero.splice blockOffset data) true false
    else match a with
      | .error => .done
      | .notFound => .insert (Chunk.zero.splice blockOffset data) true false
      | .found c => .insert (c.splice blockOffset data) true false

/-- What `MetaCache` writes to a slot. -/
def MetaCache.Call.hit (c : MetaCache.Call) (m : RelForkMeta) : Option RelForkMeta :=
  let e := (MetaCache.access (T := Empty) ⟨m, false, ∅⟩ c).2
  if e.dirty then some e.toRelForkMeta else none

/-- A metadata record of the store is inserted as it is; an absent one only matters to a creator. -/
def MetaCache.Call.miss : MetaCache.Call → StoreAnswer RelForkMeta → Miss RelForkMeta
  | .getNblocks, .found m => .insert m false false
  | _, .found m => .insert m false true
  | .createRelfork, .notFound => .insert ⟨0, false⟩ true false
  | _, _ => .done

/-- What a chunk, or a metadata record, is in the store's answer. -/
def StoreAnswer.filter {P Q : Type} (f : P → Option Q) : StoreAnswer P → StoreAnswer Q
  | .error => .error
  | .notFound => .notFound
  | .found p => (f p).elim .error .found

/-- What is inserted, as contents of one of the two caches. -/
def Miss.map {P Q : Type} (f : P → Q) : Miss P → Miss Q
  | .done => .done
  | .insert data markDirty again => .insert (f data) markDirty again

/-- A chunk tag, or a relation fork. -/
abbrev CacheTag : Type := ChunkTag ⊕ RelFork

instance : DecidableEq CacheTag := instDecidableEqSum

/-- A chunk, or a metadata record. -/
abbrev CacheData (β : Type) : Type := Chunk β ⊕ RelForkMeta

instance : Inhabited (CacheData β) := ⟨.inl Chunk.zero⟩

/-- A call on one of the two caches. -/
abbrev CacheCall (β : Type) : Type := (ChunkTag × ChunkCache.Call β) ⊕ (RelFork × MetaCache.Call)

/-- `CacheControl`: a `ChunkCache` of `N` slots and a `MetaCache` of `M` slots. -/
def Caches.tiko (N M : ℕ) (β : Type) [Zero β] :
    Caches (Fin N ⊕ Fin M) CacheTag (CacheData β) (CacheCall β) where
  slots := (List.finRange N).map .inl ++ (List.finRange M).map .inr
  mem_slots i := by cases i <;> simp
  fits i tag := i.isLeft == tag.isLeft
  relfork := Sum.elim ChunkTag.relFork id
  tag := Sum.map Prod.fst Prod.fst
  hit
    | .inl (_, c), .inl data => (c.hit data).map .inl
    | .inr (_, c), .inr m => (c.hit m).map .inr
    | _, _ => none
  miss
    | .inl (_, c), a => (c.miss (a.filter Sum.getLeft?)).map .inl
    | .inr (_, c), a => (c.miss (a.filter Sum.getRight?)).map .inr

end CacheControl

namespace CommitSys

/-- `ChunkSlot`, `MetaSlot`: `linked` in its bucket chain, the threads whose pins `pin_count` counts,
and the thread that holds the `io_lock` between two steps. -/
structure Slot (K P T : Type) where
  tag : K
  data : P
  dirty : Bool
  linked : Bool
  pins : Finset T
  ioLock : Option T

/-! ## Places -/

/-- What is inserted for a call. -/
structure Job (P C : Type) where
  call : C
  data : P
  markDirty : Bool
  again : Bool

/-- Whose dirty slots are flushed: `flush_dirty_for_relfork`, or `flush_dirty` of
`run_commit_protocol`. -/
inductive Pass where
  | relfork (rf : RelFork)
  | commit (ckpt : Checkpoint)

/-- Who flushes a slot: `evict_and_pin` with its insert, or a pass with the slots that are left. -/
inductive Flusher (ι P C : Type) where
  | evict (job : Job P C)
  | pass (p : Pass) (rest : List ι)

/-- What a thread does after it drops a pin. -/
inductive Next (ι P C : Type) where
  | done
  | lookup (c : C)
  | sweep (job : Job P C)
  | pass (p : Pass) (rest : List ι)

/-- The next section of a thread. -/
inductive Pc (ι P C : Type) where
  | idle
  /-- `lookup_and_pin`. -/
  | lookup (c : C)
  /-- The slot is pinned, and the `io_lock` is next. -/
  | hit (c : C) (i : ι)
  /-- `Store::get_chunk`, `Store::get_meta`. -/
  | missed (c : C)
  /-- `evict_and_pin`: the search for a victim. -/
  | sweep (job : Job P C)
  /-- `evict_and_pin`, phase 2: the slot is claimed. -/
  | claimed (job : Job P C) (i : ι)
  /-- `evict_and_pin`, phase 3. -/
  | verify (job : Job P C) (i : ι)
  /-- `evict_and_pin`: the slot is unlinked. -/
  | clear (job : Job P C) (i : ι)
  | insert (job : Job P C) (i : ι)
  /-- `flush_dirty_chunks`, `flush_dirty_metas`: the first look at the flag of the next slot. -/
  | pass (p : Pass) (rest : List ι)
  | pinning (p : Pass) (i : ι) (rest : List ι)
  /-- The second look. -/
  | check (p : Pass) (i : ι) (rest : List ι)
  /-- `try_flush_dirty_chunk`, `try_flush_dirty_meta`: the `io_lock` is next. -/
  | flush (k : Flusher ι P C) (i : ι)
  /-- The flag is cleared, and the read lock of the timeline is next. -/
  | taken (k : Flusher ι P C) (i : ι)
  /-- `Store::patch_chunk`, `Store::put_meta`: the head is read, and the PUT is next. -/
  | fenced (k : Flusher ι P C) (i : ι) (head : Checkpoint)
  /-- `record_chunk_eviction`, `record_relfork_eviction`. -/
  | stored (k : Flusher ι P C) (i : ι)
  | unpin (next : Next ι P C) (i : ι)
  /-- `run_commit_protocol`: the write lock of the timeline is next. -/
  | fence (ckpt : Checkpoint)

/-- What a thread meets in a section: whether its PUT succeeds, what the store answers, and the victim
of its sweep. -/
structure Answer (ι P : Type) where
  ok : Bool
  base : StoreAnswer P
  victim : Option ι

/-- What happens next. -/
inductive Label (ι P C T : Type) where
  /-- An idle thread makes a call. -/
  | call (t : T) (c : C)
  /-- An idle thread calls `flush_dirty_for_relfork`. -/
  | sync (t : T) (rf : RelFork)
  /-- The checkpointer calls `run_commit_protocol`. -/
  | commit (ckpt : Checkpoint)
  /-- A thread takes its next section. -/
  | run (t : T) (answer : Answer ι P)

/-- `SegmentCheckpoint`, with the number of writes before its `run_commit_protocol`. -/
structure CommitRecord (K : Type) where
  ckpt : Checkpoint
  prevCkpt : Checkpoint
  tags : Finset K
  due : ℕ
  deriving DecidableEq

end CommitSys

open CommitSys in
/-- The caches, the timeline and the threads. `objects` has what is stored for a tag in the interval
from a checkpoint on: the chunk under this prefix, or the meta in the draft, which the record takes over. As
history, `written` has the writes to the caches in order, `due` the number of writes before the commit
that runs, and `passedOver` the tags of the slots that it has found clean while another thread flushed
them, and which have not been recorded since. -/
structure CommitSys (ι K P C T : Type) where
  slots : ι → Slot K P T
  readers : Finset T
  headCkpt : Checkpoint
  draft : Finset K
  objects : Checkpoint → K → Option P
  segments : List (CommitRecord K)
  pcs : T → Pc ι P C
  written : List (K × P)
  due : ℕ
  passedOver : Finset K

namespace CommitSys

variable {ι K P C T : Type} [DecidableEq ι] [DecidableEq K] [DecidableEq T] [Inhabited K] [Inhabited P]

/-! ## Sections -/

/-- A thread goes on. -/
def goto (s : CommitSys ι K P C T) (t : T) (pc : Pc ι P C) : CommitSys ι K P C T :=
  { s with pcs := Function.update s.pcs t pc }

/-- A write to a slot. -/
def modify (s : CommitSys ι K P C T) (i : ι) (f : Slot K P T → Slot K P T) : CommitSys ι K P C T :=
  { s with slots := Function.update s.slots i (f (s.slots i)) }

/-- A pin. -/
def Slot.pin (e : Slot K P T) (t : T) : Slot K P T := { e with pins := insert t e.pins }

/-- `unpin`. -/
def Slot.unpin (e : Slot K P T) (t : T) : Slot K P T := { e with pins := e.pins.erase t }

/-- `clear`. -/
def Slot.clear (e : Slot K P T) : Slot K P T :=
  { e with tag := default, data := default, dirty := false }

/-- A call has written contents. -/
def write (s : CommitSys ι K P C T) (tag : K) (p : P) : CommitSys ι K P C T :=
  { s with written := s.written ++ [(tag, p)] }

/-- `insert`, where it finds no duplicate. -/
def link (s : CommitSys ι K P C T) (i : ι) (tag : K) (job : Job P C) : CommitSys ι K P C T :=
  let linked := s.modify i fun e =>
    { e with tag := tag, data := job.data, dirty := e.dirty || job.markDirty, linked := true }
  if job.markDirty then linked.write tag job.data else linked

def Next.pc : Next ι P C → Pc ι P C
  | .done => .idle
  | .lookup c => .lookup c
  | .sweep job => .sweep job
  | .pass p rest => .pass p rest

/-- A flush that returns `Ok`. -/
def Flusher.ok (i : ι) : Flusher ι P C → Pc ι P C
  | .evict job => .verify job i
  | .pass p rest => .unpin (.pass p rest) i

/-- A flush that returns `Err`. -/
def Flusher.err (i : ι) : Flusher ι P C → Pc ι P C
  | .evict job => .unpin (.sweep job) i
  | .pass _ _ => .unpin .done i

/-- What a pass is about. -/
def Pass.covers (relfork : K → RelFork) (tag : K) : Pass → Bool
  | .relfork rf => relfork tag = rf
  | .commit _ => true

/-- A pass finds the flag of a slot cleared. -/
def skip (s : CommitSys ι K P C T) (i : ι) : Pass → CommitSys ι K P C T
  | .relfork _ => s
  | .commit _ =>
    if (s.slots i).ioLock.isSome then { s with passedOver := insert (s.slots i).tag s.passedOver }
    else s

/-- A flush stores contents under its prefix. -/
def putObject (s : CommitSys ι K P C T) (head : Checkpoint) (tag : K) (p : P) : CommitSys ι K P C T :=
  { s with objects := fun c k => if c = head ∧ k = tag then some p else s.objects c k }

/-- A flush records a tag. -/
def recordTag (s : CommitSys ι K P C T) (tag : K) : CommitSys ι K P C T :=
  { s with draft := insert tag s.draft, passedOver := s.passedOver.erase tag }

/-- `run_commit_protocol`, under the write lock. -/
def commitSegment (s : CommitSys ι K P C T) (ckpt : Checkpoint) : CommitSys ι K P C T :=
  { s with
    segments := s.segments ++ [⟨ckpt, s.headCkpt, s.draft, s.due⟩]
    draft := ∅
    headCkpt := ckpt }

variable (L : Caches ι K P C)

/-- The slot of a tag that is linked. -/
def find (s : CommitSys ι K P C T) (tag : K) : Option ι :=
  L.slots.find? fun i => (s.slots i).linked && (s.slots i).tag = tag

/-- The next section of a thread. -/
def operate (s : CommitSys ι K P C T) (t : T) (a : Answer ι P) : Pc ι P C → Option (CommitSys ι K P C T)
  | .idle => none
  | .lookup c =>
    match s.find L (L.tag c) with
    | some i => some ((s.modify i fun e => e.pin t).goto t (.hit c i))
    | none => some (s.goto t (.missed c))
  | .hit c i =>
    if (s.slots i).ioLock.isSome then none
    else match L.hit c (s.slots i).data with
      | some p =>
        some (((s.modify i fun e => { e with data := p, dirty := true }).write (L.tag c) p).goto t
          (.unpin .done i))
      | none => some (s.goto t (.unpin .done i))
  | .missed c =>
    match L.miss c a.base with
    | .done => some (s.goto t .idle)
    | .insert data markDirty again => some (s.goto t (.sweep ⟨c, data, markDirty, again⟩))
  | .sweep job =>
    match a.victim with
    | none => some (s.goto t .idle)
    | some i =>
      if L.fits i (L.tag job.call) ∧ (s.slots i).pins.card = 0 then
        some ((s.modify i fun e => e.pin t).goto t (.claimed job i))
      else none
  | .claimed job i =>
    some (s.goto t (if (s.slots i).linked then .flush (.evict job) i else .verify job i))
  | .verify job i =>
    if (s.slots i).pins.card ≠ 1 then some (s.goto t (.unpin (.sweep job) i))
    else if (s.slots i).dirty then some (s.goto t (.unpin (.sweep job) i))
    else some ((s.modify i fun e => { e with linked := false }).goto t (.clear job i))
  | .clear job i =>
    if (s.slots i).ioLock.isSome then none
    else some ((s.modify i Slot.clear).goto t (.insert job i))
  | .insert job i =>
    match s.find L (L.tag job.call) with
    | some _ => some (s.goto t (.unpin (.lookup job.call) i))
    | none =>
      some ((s.link i (L.tag job.call) job).goto t
        (.unpin (if job.again then .lookup job.call else .done) i))
  | .pass p [] =>
    match p with
    | .relfork _ => some (s.goto t .idle)
    | .commit ckpt => some (s.goto t (.fence ckpt))
  | .pass p (i :: rest) =>
    if (s.slots i).dirty then some (s.goto t (.pinning p i rest))
    else some ((s.skip i p).goto t (.pass p rest))
  | .pinning p i rest => some ((s.modify i fun e => e.pin t).goto t (.check p i rest))
  | .check p i rest =>
    if !(s.slots i).dirty then some ((s.skip i p).goto t (.unpin (.pass p rest) i))
    else if p.covers L.relfork (s.slots i).tag then some (s.goto t (.flush (.pass p rest) i))
    else some (s.goto t (.unpin (.pass p rest) i))
  | .flush k i =>
    if (s.slots i).ioLock.isSome then none
    else if (s.slots i).dirty then
      some ((s.modify i fun e => { e with dirty := false, ioLock := some t }).goto t (.taken k i))
    else some (s.goto t (k.ok i))
  | .taken k i => some ({ s with readers := insert t s.readers }.goto t (.fenced k i s.headCkpt))
  | .fenced k i head =>
    if a.ok then some ((s.putObject head (s.slots i).tag (s.slots i).data).goto t (.stored k i))
    else
      let s := s.modify i fun e => { e with dirty := true, ioLock := none }
      some ({ s with readers := s.readers.erase t }.goto t (k.err i))
  | .stored k i =>
    let s := s.recordTag (s.slots i).tag
    let s := s.modify i fun e => { e with ioLock := none }
    some ({ s with readers := s.readers.erase t }.goto t (k.ok i))
  | .unpin next i => some ((s.modify i fun e => e.unpin t).goto t next.pc)
  | .fence ckpt =>
    if s.readers.card ≠ 0 then none else some ((s.commitSegment ckpt).goto t .idle)

/-- One step of the system, with its checkpointer. -/
def step (checkpointer : T) (s : CommitSys ι K P C T) : Label ι P C T → Option (CommitSys ι K P C T)
  | .call t c =>
    match s.pcs t with
    | .idle => some (s.goto t (.lookup c))
    | _ => none
  | .sync t rf =>
    match s.pcs t with
    | .idle => some (s.goto t (.pass (.relfork rf) L.slots))
    | _ => none
  | .commit ckpt =>
    match s.pcs checkpointer with
    | .idle =>
      some ({ s with due := s.written.length, passedOver := ∅ }.goto checkpointer
        (.pass (.commit ckpt) L.slots))
    | _ => none
  | .run t a => s.operate L t a (s.pcs t)

/-- Empty caches, at a checkpoint. -/
def init (head : Checkpoint) : CommitSys ι K P C T where
  slots _ := ⟨default, default, false, false, ∅, none⟩
  readers := ∅
  headCkpt := head
  draft := ∅
  objects _ _ := none
  segments := []
  pcs _ := .idle
  written := []
  due := 0
  passedOver := ∅

/-! ## Completeness -/

/-- Some of the records have the tag with contents that are at least as new as a write. -/
def Contains (s : CommitSys ι K P C T) (rs : List (CommitRecord K)) (n : ℕ) (tag : K) : Prop :=
  ∃ r ∈ rs, tag ∈ r.tags ∧ ∃ m p, n ≤ m ∧ s.written[m]? = some (tag, p) ∧
    s.objects r.prevCkpt tag = some p

/-- **Each checkpoint is complete**: its record or an earlier one has every write before its
`run_commit_protocol`. -/
def Complete (s : CommitSys ι K P C T) : Prop :=
  ∀ pre r post, s.segments = pre ++ r :: post → ∀ n < r.due, ∀ tag p,
    s.written[n]? = some (tag, p) → s.Contains (pre ++ [r]) n tag

/-- Where a thread takes the write lock, nothing that it has passed over is unrecorded. -/
def CaughtPc (s : CommitSys ι K P C T) : Pc ι P C → Prop
  | .fence _ => s.passedOver = ∅
  | _ => True

/-- **Where a commit takes the write lock, every slot that it has found clean during a flush of another
thread has been recorded.** -/
def Caught (s : CommitSys ι K P C T) : Label ι P C T → Prop
  | .run t _ => s.CaughtPc (s.pcs t)
  | _ => True

section Decidable

instance (s : CommitSys ι K P C T) : ∀ pc, Decidable (s.CaughtPc pc)
  | .fence _ => inferInstanceAs (Decidable (s.passedOver = ∅))
  | .idle | .lookup _ | .hit _ _ | .missed _ | .sweep _ | .claimed _ _ | .verify _ _ | .clear _ _
  | .insert _ _ | .pass _ _ | .pinning _ _ _ | .check _ _ _ | .flush _ _ | .taken _ _ | .fenced _ _ _
  | .stored _ _ | .unpin _ _ => inferInstanceAs (Decidable True)

instance (s : CommitSys ι K P C T) : ∀ l, Decidable (s.Caught l)
  | .run t _ => inferInstanceAs (Decidable (s.CaughtPc (s.pcs t)))
  | .call _ _ | .sync _ _ | .commit _ => inferInstanceAs (Decidable True)

end Decidable

end CommitSys

end Tiko

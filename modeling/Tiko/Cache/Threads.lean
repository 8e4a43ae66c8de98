import Tiko.Cache.Slots

/-!
# Threads on a cache

Any number of threads look tags up, insert, evict, flush and truncate. A step is a section of one
thread: what it does under one lock, or one atomic operation. A truncation waits for the `io_lock` of a
slot while it holds a bucket lock, so its bucket lock is held between two steps.

* `Pc`: where a thread is;
* `SlotSys`: the cache, the clock hands, the bucket locks and the threads;
* `SlotSys.step`: the sections;
* `SlotSys.Undisturbed`: the condition on a truncation, which has no use for the slot any more when it
  clears it;
* `SlotSys.Reachable`: the states that are reached under this condition;
* `ChunkCacheSys`, `MetaCacheSys`: the two caches.
-/

namespace Tiko

open Lib SlotCache

namespace SlotCache

/-! ## Places -/

/-- The next section of a thread. The loop of `evict_and_pin` has its insert, its first slot and the
number of its round. -/
inductive Pc (N : ℕ) (K P : Type) where
  | idle
  /-- `lookup_and_pin`. -/
  | lookup (tag : K)
  /-- The section under the `io_lock` of a call that has found the slot. -/
  | hit (s : Fin N) (tag : K)
  | touching (s : Fin N)
  /-- `Store::get_chunk`, `Store::get_meta`, or the insert of a full write. -/
  | missed (tag : K)
  /-- `evict_and_pin`: the early check. -/
  | sweep (job : Job K P) (start : Fin N) (i : ℕ)
  /-- `evict_and_pin`: `untouch`. -/
  | age (job : Job K P) (start : Fin N) (i : ℕ)
  /-- `evict_and_pin`: the optimistic read of the tag. -/
  | readTag (job : Job K P) (start : Fin N) (i : ℕ)
  /-- `evict_and_pin`, phase 1. -/
  | claim (job : Job K P) (start : Fin N) (i : ℕ) (tag : K)
  /-- `evict_and_pin`, phase 2. -/
  | flush (job : Job K P) (start : Fin N) (i : ℕ) (tag : K)
  /-- `evict_and_pin`, phase 3. -/
  | verify (job : Job K P) (start : Fin N) (i : ℕ) (tag : K)
  /-- The slot stays: `touch`. -/
  | abort (job : Job K P) (start : Fin N) (i : ℕ)
  /-- The slot stays: `unpin`. -/
  | drop (job : Job K P) (start : Fin N) (i : ℕ)
  /-- The slot is unlinked: `clear`. -/
  | clear (job : Job K P) (s : Fin N)
  /-- `evict_and_pin` has returned. -/
  | ready (job : Job K P) (s : Fin N)
  | exhausted
  /-- `insert`, under the bucket lock. -/
  | link (job : Job K P) (s : Fin N)
  /-- `truncate_relfork`: the optimistic read has met a tag of which the whole chunk goes. -/
  | truncate (s : Fin N) (tag : K)
  /-- `truncate_relfork`: the slot is unlinked, and the bucket lock of the tag is held. -/
  | truncating (s : Fin N) (tag : K)
  /-- `flush_dirty_chunks`, `flush_dirty_metas`: the slot was dirty. -/
  | pinning (s : Fin N)
  | flushing (s : Fin N)
  | unpin (s : Fin N)

/-- What a thread meets in a section: whether its I/O succeeds, what it writes or inserts, and whether it
writes. -/
structure Answer (P : Type) where
  ok : Bool
  data : P
  dirty : Bool

/-- What happens next. -/
inductive Label (N : ℕ) (K P T : Type) where
  /-- An idle thread calls for a tag. -/
  | call (t : T) (tag : K)
  /-- `flush_dirty_chunks` or `flush_dirty_metas` of an idle thread comes to a slot. -/
  | flush (t : T) (s : Fin N)
  /-- `truncate_relfork` of an idle thread, for which the whole chunk of the tag goes, reads the tag from
  a slot. The read may mix tags. -/
  | truncate (t : T) (s : Fin N) (tag : K)
  /-- A thread takes its next section. -/
  | run (t : T) (answer : Answer P)

end SlotCache

/-- A cache, with the clock hands of its threads, the holders of the bucket locks between two steps, and
the places of the threads. -/
structure SlotSys (N B : ℕ) (K P T : Type) where
  cache : SlotCache N B K P T
  clockHand : T → Fin N
  locks : Fin B → Option T
  pcs : T → Pc N K P

namespace SlotSys

variable {N B : ℕ} {K P T : Type} [DecidableEq K] [Inhabited K] [Inhabited P] [DecidableEq T]

/-- A thread goes on. -/
def goto (σ : SlotSys N B K P T) (t : T) (pc : Pc N K P) : SlotSys N B K P T :=
  { σ with pcs := Function.update σ.pcs t pc }

/-- A thread changes the cache and goes on. -/
def put (σ : SlotSys N B K P T) (t : T) (c : SlotCache N B K P T) (pc : Pc N K P) :
    SlotSys N B K P T :=
  { σ with cache := c, pcs := Function.update σ.pcs t pc }

variable (isChunk : Bool) (bucketOf : K → Fin B)

/-- The next section of a thread. -/
def operate (σ : SlotSys N B K P T) (t : T) (answer : Answer P) :
    Pc N K P → Option (SlotSys N B K P T)
  | .idle => none
  | .lookup tag =>
    if (σ.locks (bucketOf tag)).isSome then none
    else (σ.cache.findTag bucketOf tag).map fun found =>
      match found with
      | some s => σ.put t (σ.cache.modify s fun e => e.pin t) (.hit s tag)
      | none => σ.goto t (.missed tag)
  | .hit s _ =>
    let pc := if answer.ok then .touching s else .unpin s
    if answer.dirty then
      -- a write that fails may have written a part
      some (σ.put t (σ.cache.modify s fun e =>
        { e with data := answer.data, dirty := e.dirty || answer.ok }) pc)
    else some (σ.goto t pc)
  | .touching s => some (σ.put t (σ.cache.modify s Slot.touch) (.unpin s))
  | .missed tag =>
    if !answer.ok then some (σ.goto t .idle)
    else some (σ.goto t (.sweep ⟨tag, answer.data, answer.dirty⟩ (σ.clockHand t) 0))
  | .sweep job start i =>
    if i < N * maxUsageCount then
      if (σ.cache.slots (slotAt start i)).pinCount ≠ 0 then some (σ.goto t (.sweep job start (i + 1)))
      else some (σ.goto t (.age job start i))
    else some (σ.goto t .exhausted)
  | .age job start i =>
    let prev := (σ.cache.slots (slotAt start i)).untouch.1
    let c := σ.cache.modify (slotAt start i) fun e => e.untouch.2
    if prev ≠ 0 then some (σ.put t c (.sweep job start (i + 1)))
    else some (σ.put t c (.readTag job start i))
  | .readTag job start i =>
    some (σ.goto t (.claim job start i (σ.cache.slots (slotAt start i)).tag))
  | .claim job start i tag =>
    if (σ.locks (bucketOf tag)).isSome then none
    else match σ.cache.claim (slotAt start i) tag t with
    | none => some (σ.goto t (.sweep job start (i + 1)))
    | some c => some (σ.put t c (.flush job start i tag))
  | .flush job start i tag =>
    match σ.cache.flushVictim (slotAt start i) answer.ok with
    | (false, c) => some (σ.put t c (.abort job start i))
    | (true, c) => some (σ.put t c (.verify job start i tag))
  | .verify job start i tag =>
    if (σ.locks (bucketOf tag)).isSome then none
    else (σ.cache.verify (slotAt start i) (bucketOf tag)).map fun unlinked =>
      match unlinked with
      | none => σ.goto t (.abort job start i)
      | some c => σ.put t c (.clear job (slotAt start i))
  | .abort job start i =>
    some (σ.put t (σ.cache.modify (slotAt start i) Slot.touch) (.drop job start i))
  | .drop job start i =>
    some (σ.put t (σ.cache.modify (slotAt start i) fun e => e.unpin t) (.sweep job start (i + 1)))
  | .clear job s =>
    some { σ.put t (σ.cache.modify s Slot.clear) (.ready job s) with
      clockHand := Function.update σ.clockHand t (slotAt s 1) }
  | .ready job s =>
    -- only a chunk is written to a file
    if isChunk then
      some (σ.put t (σ.cache.modify s fun e => { e with data := job.data })
        (if answer.ok then .link job s else .unpin s))
    else some (σ.goto t (.link job s))
  | .exhausted => some (σ.goto t .idle)
  | .link job s =>
    if (σ.locks (bucketOf job.tag)).isSome then none
    else (σ.cache.link bucketOf s job).map fun linked =>
      match linked with
      | none => σ.goto t (.unpin s)
      | some c => σ.put t c (.unpin s)
  | .truncate s tag =>
    if (σ.locks (bucketOf tag)).isSome then none
    else (σ.cache.truncateUnlink bucketOf s tag).map fun unlinked =>
      match unlinked with
      | none => σ.goto t .idle
      | some c => { σ.put t c (.truncating s tag) with
          locks := Function.update σ.locks (bucketOf tag) (some t) }
  | .truncating s tag =>
    -- only chunks are truncated
    if isChunk then some { σ.put t (σ.cache.truncateClear s) .idle with
      locks := Function.update σ.locks (bucketOf tag) none }
    else none
  | .pinning s => some (σ.put t (σ.cache.modify s fun e => e.pin t) (.flushing s))
  | .flushing s =>
    -- the slot may be clean by now, or of another relation fork
    if !(σ.cache.slots s).dirty || !answer.dirty then some (σ.goto t (.unpin s))
    else some (σ.put t (σ.cache.modify s fun e => (e.tryFlush answer.ok).2) (.unpin s))
  | .unpin s => some (σ.put t (σ.cache.modify s fun e => e.unpin t) .idle)

/-- One step of the system. -/
def step (σ : SlotSys N B K P T) : Label N K P T → Option (SlotSys N B K P T)
  | .call t tag =>
    match σ.pcs t with
    | .idle => some (σ.goto t (.lookup tag))
    | _ => none
  | .flush t s =>
    match σ.pcs t with
    | .idle => if (σ.cache.slots s).dirty then some (σ.goto t (.pinning s)) else none
    | _ => none
  | .truncate t s tag =>
    match σ.pcs t with
    | .idle => if isChunk then some (σ.goto t (.truncate s tag)) else none
    | _ => none
  | .run t answer => σ.operate isChunk bucketOf t answer (σ.pcs t)

/-- The start: an empty cache, and idle threads with their clock hands at the first slot. -/
def init [NeZero N] : SlotSys N B K P T := ⟨SlotCache.init, fun _ => 0, fun _ => none, fun _ => .idle⟩

/-- A truncation that has waited for the `io_lock` finds the tag that it has unlinked, or nothing that is
in use. Only chunks are truncated. -/
def Undisturbed (σ : SlotSys N B K P T) : Label N K P T → Prop
  | .run t _ => isChunk = true → ∀ s tag, σ.pcs t = .truncating s tag →
      (σ.cache.slots s).tag = tag ∨ (σ.cache.slots s).dirty = false ∧
        ((σ.cache.slots s).pinCount ≠ 0 ∨ ¬ σ.cache.chains.Member s)
  | _ => True

/-- The states of a cache whose truncations are undisturbed. -/
def Reachable [NeZero N] (σ : SlotSys N B K P T) : Prop :=
  Reaches (step isChunk bucketOf) (Undisturbed isChunk) init σ

end SlotSys

/-! ## The caches -/

/-- `CHUNK_NUM_SLOTS`, `META_NUM_SLOTS`. -/
def cacheNumSlots : ℕ := 1024

/-- `CHUNK_NUM_BUCKETS`, `META_NUM_BUCKETS`. -/
def cacheNumBuckets : ℕ := cacheNumSlots * 2

instance : NeZero cacheNumSlots := ⟨by decide⟩

/-- `ChunkCache::bucket`. -/
def ChunkTag.bucket (tag : ChunkTag) : Fin cacheNumBuckets :=
  ⟨tag.hash.toNat % cacheNumBuckets, Nat.mod_lt _ (by decide)⟩

/-- `MetaCache::bucket`. -/
def RelFork.bucket (tag : RelFork) : Fin cacheNumBuckets :=
  ⟨tag.hash.toNat % cacheNumBuckets, Nat.mod_lt _ (by decide)⟩

/-- `ChunkCache`, with chunks of any type, and its threads. -/
abbrev ChunkCacheSys (P T : Type) := SlotSys cacheNumSlots cacheNumBuckets ChunkTag P T

/-- `MetaCache` and its threads. -/
abbrev MetaCacheSys (T : Type) := SlotSys cacheNumSlots cacheNumBuckets RelFork RelForkMeta T

end Tiko

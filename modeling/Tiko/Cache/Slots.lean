import Tiko.Lib.Chains
import Tiko.Lib.Reach
import Tiko.Model.Keys

/-!
# The slots of the caches

`ChunkCache` and `MetaCache` are the same table: slots with a tag, a usage count and a pin count,
linked in chains by the bucket of their tag. A free slot is obtained by a clock sweep, which ages the
slots, flushes a victim, unlinks it and clears it.

* `SlotCache.Slot`, `SlotCache`: the slots and the heads of the chains;
* the sections of the code, each of which runs under one lock;
* `evictAndPin`: the sweep of a thread that runs alone.

The pins of a slot are the set of threads that hold one; `pin_count` is its size. The data of a chunk
is what its slot has in the cache file. A clear does not touch the file, but nothing reads the data of a
slot without a tag.
-/

namespace Tiko

open Lib

/-- `MAX_USAGE_COUNT`. -/
def maxUsageCount : ℕ := 5

/-- `ChunkSlot`, `MetaSlot`. An index of a slot is `none` for `CHAIN_NIL`. -/
structure SlotCache.Slot (N : ℕ) (K P T : Type) where
  tag : K
  data : P
  dirty : Bool
  usageCount : ℕ
  pins : Finset T
  next : Option (Fin N)

/-- `ChunkCache`, `MetaCache`. -/
structure SlotCache (N B : ℕ) (K P T : Type) where
  slots : Fin N → SlotCache.Slot N K P T
  heads : Fin B → Option (Fin N)

namespace SlotCache

variable {N B : ℕ} {K P T : Type} [DecidableEq K] [Inhabited K] [Inhabited P] [DecidableEq T]

/-! ## A slot -/

namespace Slot

/-- `pin_count`. -/
def pinCount (e : Slot N K P T) : ℕ := e.pins.card

/-- `clear`. -/
def clear (e : Slot N K P T) : Slot N K P T :=
  { e with tag := default, data := default, dirty := false, usageCount := 0, next := none }

/-- `is_occupied`. -/
def isOccupied (e : Slot N K P T) : Bool := e.tag ≠ default

/-- `touch`. -/
def touch (e : Slot N K P T) : Slot N K P T :=
  if e.usageCount < maxUsageCount then { e with usageCount := e.usageCount + 1 } else e

/-- `untouch`, with the value before. -/
def untouch (e : Slot N K P T) : ℕ × Slot N K P T :=
  if e.usageCount > 0 then (e.usageCount, { e with usageCount := e.usageCount - 1 })
  else (e.usageCount, e)

/-- A pin. -/
def pin (e : Slot N K P T) (t : T) : Slot N K P T := { e with pins := insert t e.pins }

/-- `unpin`. -/
def unpin (e : Slot N K P T) (t : T) : Slot N K P T := { e with pins := e.pins.erase t }

/-- `try_flush_dirty_chunk`, `try_flush_dirty_meta`: whether it succeeds, and the slot. -/
def tryFlush (e : Slot N K P T) (ok : Bool) : Bool × Slot N K P T :=
  if ok then (true, { e with dirty := false }) else (false, e)

end Slot

/-! ## The table -/

/-- A write to a slot. -/
def modify (c : SlotCache N B K P T) (s : Fin N) (f : Slot N K P T → Slot N K P T) :
    SlotCache N B K P T :=
  { c with slots := Function.update c.slots s (f (c.slots s)) }

/-- The chains of the buckets. -/
def chains (c : SlotCache N B K P T) : Chains (Fin N) (Fin B) := ⟨c.heads, fun s => (c.slots s).next⟩

/-- The table with other chains. -/
def withChains (c : SlotCache N B K P T) (ch : Chains (Fin N) (Fin B)) : SlotCache N B K P T :=
  ⟨fun s => { c.slots s with next := ch.next s }, ch.head⟩

/-- `init`. -/
def init : SlotCache N B K P T := ⟨fun _ => ⟨default, default, false, 0, ∅, none⟩, fun _ => none⟩

section Sections

variable (bucketOf : K → Fin B) (c : SlotCache N B K P T)

/-- The search of `lookup_and_pin` and of `insert`; `none` where the walk does not end. -/
def findTag (tag : K) : Option (Option (Fin N)) :=
  c.chains.find (fun s => (c.slots s).tag = tag) N (c.heads (bucketOf tag))

/-- `unlink_from_chain`. -/
def unlinkFromChain (s : Fin N) (bucket : Fin B) : Option (SlotCache N B K P T) :=
  (c.chains.unlink N s bucket).map c.withChains

/-- `evict_and_pin`, phase 1. -/
def claim (s : Fin N) (tag : K) (t : T) : Option (SlotCache N B K P T) :=
  if (c.slots s).pinCount ≠ 0 then none
  else if (c.slots s).tag ≠ tag then none
  else some (c.modify s fun e => e.pin t)

/-- `evict_and_pin`, phase 2: whether the flush succeeds, and the cache. -/
def flushVictim (s : Fin N) (ok : Bool) : Bool × SlotCache N B K P T :=
  if (c.slots s).isOccupied then
    (((c.slots s).tryFlush ok).1, c.modify s fun e => (e.tryFlush ok).2)
  else (true, c)

/-- `evict_and_pin`, phase 3: `some none` where the slot stays. -/
def verify (s : Fin N) (bucket : Fin B) : Option (Option (SlotCache N B K P T)) :=
  if (c.slots s).pinCount ≠ 1 then some none
  else if (c.slots s).dirty then some none
  else (c.unlinkFromChain s bucket).map some

/-- What is inserted. -/
structure Job (K P : Type) where
  tag : K
  data : P
  markDirty : Bool

/-- `insert`, under the bucket lock: `some none` where the tag is in the chain. -/
def link (s : Fin N) (job : Job K P) : Option (Option (SlotCache N B K P T)) :=
  (c.findTag bucketOf job.tag).map fun found =>
    match found with
    | some _ => none
    | none =>
      let written := c.modify s fun e =>
        { e with tag := job.tag, data := job.data, dirty := e.dirty || job.markDirty }.touch
      some (written.withChains (written.chains.push s (bucketOf job.tag)))

/-- `truncate_relfork` at a slot of which the whole chunk goes, under the bucket lock: `some none` where
the slot has another tag by now. -/
def truncateUnlink (s : Fin N) (tag : K) : Option (Option (SlotCache N B K P T)) :=
  if (c.slots s).tag ≠ tag then some none
  else (c.unlinkFromChain s (bucketOf tag)).map some

/-- `truncate_relfork`, under the `io_lock`. -/
def truncateClear (s : Fin N) : SlotCache N B K P T :=
  if (c.slots s).pinCount = 0 then c.modify s Slot.clear
  else c.modify s fun e => { e with dirty := false }

/-! ## The sweep -/

/-- One round of `evict_and_pin`: whether it has a victim, and the cache. -/
def evictRound (t : T) (flushOk : Bool) (s : Fin N) : Option (Bool × SlotCache N B K P T) :=
  if (c.slots s).pinCount ≠ 0 then some (false, c)
  else
    let prev := (c.slots s).untouch.1
    let c := c.modify s fun e => e.untouch.2
    if prev ≠ 0 then some (false, c)
    else
      let tag := (c.slots s).tag
      match c.claim s tag t with
      | none => some (false, c)
      | some c =>
        match c.flushVictim s flushOk with
        | (false, c) => some (false, (c.modify s Slot.touch).modify s fun e => e.unpin t)
        | (true, c) =>
          match c.verify s (bucketOf tag) with
          | none => none
          | some none => some (false, (c.modify s Slot.touch).modify s fun e => e.unpin t)
          | some (some c) => some (true, c.modify s Slot.clear)

end Sections

/-- `(start + i) % NUM_SLOTS`. -/
def slotAt (start : Fin N) (i : ℕ) : Fin N := ⟨(start + i) % N, Nat.mod_lt _ start.pos⟩

/-- `Error::EvictionSweepExhausted`. -/
inductive SweepError where
  | evictionSweepExhausted

/-- The loop of `evict_and_pin`, with the number of rounds that are left. -/
def evictLoop (bucketOf : K → Fin B) (t : T) (flushOk : ℕ → Bool) (start : Fin N) :
    ℕ → ℕ → SlotCache N B K P T → Option (Except SweepError (Fin N) × SlotCache N B K P T)
  | 0, _, c => some (.error .evictionSweepExhausted, c)
  | rounds + 1, i, c =>
    match c.evictRound bucketOf t (flushOk i) (slotAt start i) with
    | none => none
    | some (true, c) => some (.ok (slotAt start i), c)
    | some (false, c) => evictLoop bucketOf t flushOk start rounds (i + 1) c

/-- `evict_and_pin` of a thread that runs alone, from its clock hand; `none` where it does not return. -/
def evictAndPin (bucketOf : K → Fin B) (t : T) (flushOk : ℕ → Bool) (clockHand : Fin N)
    (c : SlotCache N B K P T) : Option (Except SweepError (Fin N) × SlotCache N B K P T) :=
  evictLoop bucketOf t flushOk clockHand (N * maxUsageCount) 0 c

end SlotCache

end Tiko

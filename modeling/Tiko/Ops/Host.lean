import Tiko.Cache.Slots
import Tiko.Ops.StoreView
import Tiko.Smgr.Blocks

/-!
# The block operations

The operations on relation forks that the storage manager calls, over the two write-back caches and the
store, as they run one after the other. Without shared memory (initdb) they go to the store directly.

* `Host`: a database with its caches;
* `getMeta`, `updateMeta`, `createRelfork`: the cache of metadata; `getChunk`, `patchChunk`: the cache of
  chunks. A miss loads from the store, and a victim that is dirty is written back;
* `Db.getNblocks` and so on: the store without caches;
* `readBlocks`, `writeBlocks`, `truncateRelfork`, `deleteFork` and so on: the operations;
* `runCommitProtocol`: a commit, after a flush of both caches.

The chains of the hash table are left to `Tiko.Cache.Chains`: a slot is found by its tag. A relation fork
is never the one with all fields zero, which stands for an empty slot.
-/

namespace Tiko

open Lib Smgr

/-- The errors of a block operation. `diverges` stands for a loop that has not ended. -/
inductive BlockError where
  | store (e : Error)
  /-- `Error::Io` of kind `AlreadyExists`. -/
  | alreadyExists
  /-- `Error::Io` of kind `UnexpectedEof`. -/
  | unexpectedEof
  | evictionSweepExhausted
  | diverges
  deriving DecidableEq

namespace BlockError

/-- `Error::not_found`. -/
abbrev notFound : BlockError := .store .notFound

/-- `Error::is_not_found`. -/
def isNotFound : BlockError → Bool
  | .store e => e.isNotFound
  | _ => false

/-- `Error::is_already_exists`. -/
def isAlreadyExists : BlockError → Bool
  | .alreadyExists => true
  | _ => false

end BlockError

/-- A database with its caches of chunks and metadata, which are shared by the processes `P`. `cached` is
`IoControl::cache_is_available`. -/
structure Host (N : ℕ) (P β : Type) where
  db : Db β
  cached : Bool
  chunkCache : WriteBack N P ChunkTag (Chunk β)
  metaCache : WriteBack N P RelFork RelForkMeta

/-- How many turns the loops of the caches are given. -/
def loopTurns : ℕ := 2

/-! ## The store without caches -/

namespace Db

variable {β : Type} (cfg : StoreConfig)

/-- `Store::get_nblocks`. -/
def getNblocks (s : Db β) (rf : RelFork) : Except Error UInt32 × Db β :=
  match s.getMeta cfg rf with
  | (.error e, s) => (.error e, s)
  | (.ok m, s) => if m.deleted then (.error .notFound, s) else (.ok m.nblocks, s)

/-- `Store::put_nblocks`. -/
def putNblocks (s : Db β) (rf : RelFork) (nblocks : UInt32) : Except Error Unit × Db β :=
  match s.getMeta cfg rf with
  | (.error e, s) => (.error e, s)
  | (.ok m, s) =>
    if m.deleted then (.error .notFound, s) else s.putMeta cfg .ok rf { m with nblocks := nblocks }

/-- `Store::get_deleted`. -/
def getDeleted (s : Db β) (rf : RelFork) : Except Error Bool × Db β :=
  match s.getMeta cfg rf with
  | (.error e, s) => (.error e, s)
  | (.ok m, s) => (.ok m.deleted, s)

/-- `Store::create_relfork`. -/
def createRelfork (s : Db β) (rf : RelFork) : Except BlockError Unit × Db β :=
  let put (s : Db β) := let r := s.putMeta cfg .ok rf default; (r.1.mapError .store, r.2)
  match s.getMeta cfg rf with
  | (.ok m, s) => if !m.deleted then (.error .alreadyExists, s) else put s
  | (.error e, s) => if e.isNotFound then put s else (.error (.store e), s)

/-- `Store::delete_relfork`. -/
def deleteRelfork (s : Db β) (rf : RelFork) : Except Error Unit × Db β :=
  match s.getMeta cfg rf with
  | (.error e, s) => (.error e, s)
  | (.ok m, s) =>
    if m.deleted then (.error .notFound, s) else s.putMeta cfg .ok rf { m with deleted := true }

end Db

namespace Host

variable {N : ℕ} {P β : Type}

/-- `?`: an error ends the operation. -/
def andThen {α γ : Type} (x : Except BlockError α × Host N P β)
    (next : α → Host N P β → Except BlockError γ × Host N P β) : Except BlockError γ × Host N P β :=
  match x with
  | (.error e, h) => (.error e, h)
  | (.ok a, h) => next a h

/-- An operation of the store. -/
def onStore {α : Type} (f : Db β → Except BlockError α × Db β) (h : Host N P β) :
    Except BlockError α × Host N P β :=
  let r := f h.db
  (r.1, { h with db := r.2 })

/-- The errors of the store among those of the operations. -/
def ofStore {α : Type} (r : Except Error α × Db β) : Except BlockError α × Db β :=
  (r.1.mapError .store, r.2)

variable [DecidableEq P] [Zero β] (cfg : StoreConfig) (p : P)

/-! ## The cache of metadata -/

/-- `Store::put_meta` of what is written back. -/
def saveMetas (h : Host N P β) (saved : List (RelFork × RelForkMeta)) : Host N P β :=
  { h with db := saved.foldl (fun db x => (db.putMeta cfg .ok x.1 x.2).2) h.db }

/-- `MetaCache::insert`. -/
def insertMeta (rf : RelFork) (m : RelForkMeta) (markDirty : Bool) (h : Host N P β) :
    Except BlockError Bool × Host N P β :=
  let r := h.metaCache.insert maxUsageCount p rf m markDirty
  let h := saveMetas cfg { h with metaCache := r.cache } r.unsaved.toList
  match r.done with
  | none => (.error .evictionSweepExhausted, h)
  | some inserted => (.ok inserted, h)

/-- `MetaCache::load_from_store`. -/
def loadFromStore (rf : RelFork) (h : Host N P β) :
    Except BlockError (RelForkMeta × Bool) × Host N P β :=
  andThen (onStore (fun db => ofStore (db.getMeta cfg rf)) h) fun m h =>
    andThen (insertMeta cfg p rf m false h) fun inserted h => (.ok (m, inserted), h)

/-- An access to a slot of the metadata. -/
def touchMeta (i : Fin N) (h : Host N P β) : Host N P β :=
  { h with metaCache := h.metaCache.touch maxUsageCount i }

/-- A write to a slot of the metadata. -/
def writeMeta (i : Fin N) (m : RelForkMeta) (h : Host N P β) : Host N P β :=
  touchMeta i { h with metaCache := h.metaCache.write i m }

/-- `MetaCache::get_meta`. -/
def getMeta (rf : RelFork) : ℕ → Host N P β → Except BlockError RelForkMeta × Host N P β
  | 0, h => (.error .diverges, h)
  | turns + 1, h =>
    match h.metaCache.lookup rf with
    | some (i, m) => (.ok m, touchMeta i h)
    | none =>
      andThen (loadFromStore cfg p rf h) fun r h =>
        if r.2 then (.ok r.1, h) else getMeta rf turns h

/-- The loop of `put_nblocks` and `put_deleted`: a change to the metadata, which may be refused. -/
def updateMeta (rf : RelFork) (change : RelForkMeta → Except BlockError RelForkMeta) :
    ℕ → Host N P β → Except BlockError Unit × Host N P β
  | 0, h => (.error .diverges, h)
  | turns + 1, h =>
    match h.metaCache.lookup rf with
    | some (i, m) =>
      match change m with
      | .error e => (.error e, h)
      | .ok m => (.ok (), writeMeta i m h)
    | none => andThen (loadFromStore cfg p rf h) fun _ h => updateMeta rf change turns h

/-- `MetaCache::put_nblocks`. -/
def putNblocks (rf : RelFork) (nblocks : UInt32) (h : Host N P β) :
    Except BlockError Unit × Host N P β :=
  updateMeta cfg p rf (fun m =>
    if m.deleted then .error .notFound else .ok { m with nblocks := nblocks }) loopTurns h

/-- `MetaCache::put_deleted`. -/
def putDeleted (rf : RelFork) (deleted : Bool) (h : Host N P β) :
    Except BlockError Unit × Host N P β :=
  updateMeta cfg p rf (fun m =>
    if m.deleted then .error .notFound
    else .ok ⟨if deleted then 0 else m.nblocks, deleted⟩) loopTurns h

/-- `MetaCache::create_relfork`. -/
def createRelfork (rf : RelFork) : ℕ → Host N P β → Except BlockError Unit × Host N P β
  | 0, h => (.error .diverges, h)
  | turns + 1, h =>
    match h.metaCache.lookup rf with
    | some (i, m) =>
      if !m.deleted then (.error .alreadyExists, h) else (.ok (), writeMeta i ⟨0, false⟩ h)
    | none =>
      match loadFromStore cfg p rf h with
      | (.ok _, h) => createRelfork rf turns h
      | (.error e, h) =>
        if e.isNotFound then
          andThen (insertMeta cfg p rf ⟨0, false⟩ true h) fun inserted h =>
            if inserted then (.ok (), h) else createRelfork rf turns h
        else (.error e, h)

/-! ## The cache of chunks -/

/-- `Store::patch_chunk` of the whole chunks that are written back. -/
def saveChunks (h : Host N P β) (saved : List (ChunkTag × Chunk β)) : Host N P β :=
  { h with db := saved.foldl (fun db x => (db.patchChunk cfg .ok x.1 0 (List.ofFn x.2)).2) h.db }

/-- `ChunkCache::insert`. -/
def insertChunk (tag : ChunkTag) (c : Chunk β) (markDirty : Bool) (h : Host N P β) :
    Except BlockError Bool × Host N P β :=
  let r := h.chunkCache.insert maxUsageCount p tag c markDirty
  let h := saveChunks cfg { h with chunkCache := r.cache } r.unsaved.toList
  match r.done with
  | none => (.error .evictionSweepExhausted, h)
  | some inserted => (.ok inserted, h)

/-- An access to a slot of the chunks. -/
def touchChunk (i : Fin N) (h : Host N P β) : Host N P β :=
  { h with chunkCache := h.chunkCache.touch maxUsageCount i }

/-- A write to a slot of the chunks. -/
def writeChunk (i : Fin N) (c : Chunk β) (h : Host N P β) : Host N P β :=
  touchChunk i { h with chunkCache := h.chunkCache.write i c }

/-- `ChunkCache::get_chunk`. -/
def getChunk (tag : ChunkTag) : ℕ → Host N P β → Except BlockError (Chunk β) × Host N P β
  | 0, h => (.error .diverges, h)
  | turns + 1, h =>
    match h.chunkCache.lookup tag with
    | some (i, c) => (.ok c, touchChunk i h)
    | none =>
      andThen (onStore (fun db => ofStore (db.getChunk cfg tag)) h) fun c h =>
        andThen (insertChunk cfg p tag c false h) fun inserted h =>
          if inserted then (.ok c, h) else getChunk tag turns h

/-- `ChunkCache::patch_chunk`. -/
def patchChunk (tag : ChunkTag) (blockOffset : ℕ) (data : List β) :
    ℕ → Host N P β → Except BlockError Unit × Host N P β
  | 0, h => (.error .diverges, h)
  | turns + 1, h =>
    match h.chunkCache.lookup tag with
    | some (i, c) =>
      if Chunk.isFull blockOffset data then (.ok (), writeChunk i (.ofBlocks data) h)
      else (.ok (), writeChunk i (c.splice blockOffset data) h)
    | none =>
      let put (c : Chunk β) (h : Host N P β) : Except BlockError Unit × Host N P β :=
        andThen (insertChunk cfg p tag c true h) fun inserted h =>
          if inserted then (.ok (), h) else patchChunk tag blockOffset data turns h
      if Chunk.isFull blockOffset data then put (.ofBlocks data) h
      else
        match onStore (fun db => ofStore (db.getChunk cfg tag)) h with
        | (.ok c, h) => put (c.splice blockOffset data) h
        | (.error e, h) =>
          if e.isNotFound then put (Chunk.zero.splice blockOffset data) h else (.error e, h)

/-- `ChunkCache::truncate_relfork`: the chunks that lie beyond the first block that goes. -/
def truncateChunks (rf : RelFork) (firstBlock : UInt32) (h : Host N P β) : Host N P β :=
  { h with chunkCache := h.chunkCache.drop fun tag =>
      decide (tag.relFork = rf) && decide (firstBlock ≤ tag.startBlock) }

/-- `CacheControl::flush_dirty` and `flush_dirty_for_relfork`: chunks first, then metadata. -/
def flushDirty (which : RelFork → Bool) (h : Host N P β) : Host N P β :=
  let chunks := h.chunkCache.flush fun tag => which tag.relFork
  let h := saveChunks cfg { h with chunkCache := chunks.2 } chunks.1
  let metas := h.metaCache.flush which
  saveMetas cfg { h with metaCache := metas.2 } metas.1

/-! ## The operations -/

/-- `ops::exists`. -/
def forkExists (rf : RelFork) (h : Host N P β) : Except BlockError Bool × Host N P β :=
  let r := if h.cached then
      let r := getMeta cfg p rf loopTurns h
      (r.1.map (·.deleted), r.2)
    else onStore (fun db => ofStore (db.getDeleted cfg rf)) h
  match r with
  | (.ok deleted, h) => (.ok !deleted, h)
  | (.error e, h) => if e.isNotFound then (.ok false, h) else (.error e, h)

/-- `ops::create`. -/
def create (rf : RelFork) (h : Host N P β) : Except BlockError Bool × Host N P β :=
  let r := if h.cached then createRelfork cfg p rf loopTurns h
    else onStore (fun db => db.createRelfork cfg rf) h
  match r with
  | (.ok (), h) => (.ok true, h)
  | (.error e, h) => if e.isAlreadyExists then (.ok false, h) else (.error e, h)

/-- `ops::get_nblocks`. -/
def getNblocks (rf : RelFork) (h : Host N P β) : Except BlockError UInt32 × Host N P β :=
  if h.cached then
    andThen (getMeta cfg p rf loopTurns h) fun m h =>
      if m.deleted then (.error .notFound, h) else (.ok m.nblocks, h)
  else onStore (fun db => ofStore (db.getNblocks cfg rf)) h

/-- `put_nblocks`, of the cache or of the store. -/
def setNblocks (rf : RelFork) (nblocks : UInt32) (h : Host N P β) :
    Except BlockError Unit × Host N P β :=
  if h.cached then putNblocks cfg p rf nblocks h
  else onStore (fun db => ofStore (db.putNblocks cfg rf nblocks)) h

/-- `ops::truncate_relfork`. -/
def truncateRelfork (rf : RelFork) (nblocks : UInt32) (h : Host N P β) :
    Except BlockError Unit × Host N P β :=
  if h.cached then
    andThen (putNblocks cfg p rf nblocks h) fun _ h => (.ok (), truncateChunks rf nblocks h)
  else onStore (fun db => ofStore (db.putNblocks cfg rf nblocks)) h

/-- `ops::delete_fork`. -/
def deleteFork (rf : RelFork) (h : Host N P β) : Except BlockError Unit × Host N P β :=
  if h.cached then
    andThen (putDeleted cfg p rf true h) fun _ h => (.ok (), truncateChunks rf 0 h)
  else onStore (fun db => ofStore (db.deleteRelfork cfg rf)) h

/-- `get_chunk`, of the cache or of the store. -/
def loadChunk (tag : ChunkTag) (h : Host N P β) : Except BlockError (Chunk β) × Host N P β :=
  if h.cached then getChunk cfg p tag loopTurns h
  else onStore (fun db => ofStore (db.getChunk cfg tag)) h

/-- `patch_chunk`, of the cache or of the store. -/
def storeBlocks (tag : ChunkTag) (blockOffset : ℕ) (data : List β) (h : Host N P β) :
    Except BlockError Unit × Host N P β :=
  if h.cached then patchChunk cfg p tag blockOffset data loopTurns h
  else onStore (fun db => ofStore (db.patchChunk cfg .ok tag blockOffset data)) h

/-- The blocks of an item, `buf_offset..buf_end`. -/
def itemBlocks (item : ChunkTagIterItem) (data : List β) : List β :=
  (data.drop (item.bufOffset / blcksz)).take ((item.bufEnd - item.bufOffset) / blcksz)

/-- `get_chunk_merge`: what an item copies from its chunk. -/
def getChunkMerge (item : ChunkTagIterItem) (c : Chunk β) : List β :=
  if item.isFullChunk then List.ofFn c
  else ((List.ofFn c).drop item.blockOffset.toNat).take ((item.bufEnd - item.bufOffset) / blcksz)

/-- The loop of `read_blocks`, which fills the buffer item by item. -/
def readItems : List ChunkTagIterItem → Host N P β → Except BlockError (List β) × Host N P β
  | [], h => (.ok [], h)
  | item :: items, h =>
    andThen (loadChunk cfg p item.tag h) fun c h =>
      andThen (readItems items h) fun data h => (.ok (getChunkMerge item c ++ data), h)

/-- `ops::read_blocks`: the number of blocks, and the front of the buffer. -/
def readBlocks (rf : RelFork) (blockNumber nblocks : UInt32) (h : Host N P β) :
    Except BlockError (UInt32 × List β) × Host N P β :=
  andThen (getNblocks cfg p rf h) fun rfNblocks h =>
    if blockNumber = rfNblocks then (.ok (0, []), h)
    else if blockNumber > rfNblocks then (.error .unexpectedEof, h)
    else
      let nblocksToRead := min nblocks (rfNblocks - blockNumber)
      if nblocksToRead = 0 then (.ok (0, []), h)
      else
        andThen (readItems cfg p (chunkItems rf blockNumber nblocksToRead) h) fun data h =>
          (.ok (nblocksToRead, data), h)

/-- The loop of `write_blocks`. -/
def writeItems (data : List β) : List ChunkTagIterItem → Host N P β →
    Except BlockError Unit × Host N P β
  | [], h => (.ok (), h)
  | item :: items, h =>
    andThen (storeBlocks cfg p item.tag item.blockOffset.toNat (itemBlocks item data) h) fun _ h =>
      writeItems data items h

/-- `ops::write_blocks`, of `data.len()` blocks. -/
def writeBlocks (rf : RelFork) (blockNumber : UInt32) (data : List β) (h : Host N P β) :
    Except BlockError UInt32 × Host N P β :=
  let nblocks := UInt32.ofNat data.length
  andThen (getNblocks cfg p rf h) fun rfNblocks h =>
    if nblocks = 0 then (.ok 0, h)
    else
      andThen (writeItems cfg p data (chunkItems rf blockNumber nblocks) h) fun _ h =>
        let newNblocks := blockNumber + nblocks
        if newNblocks > rfNblocks then
          andThen (setNblocks cfg p rf newNblocks h) fun _ h => (.ok nblocks, h)
        else (.ok nblocks, h)

/-- `ops::prefetch_blocks`. -/
def prefetchBlocks (rf : RelFork) (blockNumber nblocks : UInt32) (h : Host N P β) :
    Except BlockError UInt32 × Host N P β :=
  if h.cached then
    andThen (readBlocks cfg p rf blockNumber nblocks h) fun r h => (.ok r.1, h)
  else (.ok 0, h)

/-- `ops::flush_dirty_for_relfork`. -/
def flushDirtyForRelfork (rf : RelFork) (h : Host N P β) : Except BlockError Unit × Host N P β :=
  if h.cached then (.ok (), flushDirty cfg (fun rf' => decide (rf' = rf)) h) else (.ok (), h)

/-- `Store::run_commit_protocol`. -/
def runCommitProtocol (a : Db.CommitArgs) (h : Host N P β) : Except BlockError Unit × Host N P β :=
  let h := flushDirty cfg (fun _ => true) h
  onStore (fun db => ofStore (db.runCommitProtocol cfg .ok a)) h

/-- A new server process on what the old one left, with empty caches. -/
def restart (hands : P → Fin N) (cached tikmLost : Bool) (h : Host N P β) : Host N P β :=
  ⟨h.db.restart cfg tikmLost false, cached, .empty hands, .empty hands⟩

end Host

end Tiko

import Tiko.Lib.BinarySearch
import Tiko.Lib.Bytes
import Tiko.Lib.Records
import Tiko.Model.Manifest
import Tiko.Model.Storage

/-!
# The TIKM format

A base manifest as a file: a header, the chunk entries, the count of the metadata entries, the
metadata entries, and the archive of PostgreSQL's state with its length. Numbers are little-endian.
The lookups are binary searches over the two tables, which are found by the counts.

* `ChunkTag.encode`, `RelFork.encode`, `ChunkRef.encode`: the entries, with their readers;
* `writeTikm`: the file;
* `Tikm`: an open file with what is read of its header;
* `Tikm.new`, `openLocal`, `fromBytes`, `lookup`, `lookupRelforkMeta`, `applySegments`,
  `commitApplied`: the operations.
-/

namespace Tiko

open Lib Lib.Bytes

/-! ## Numbers in a buffer -/

/-- `u32::from_le_bytes` of four bytes of a buffer. -/
def u32At (buf : Bytes) (i : ℕ) : UInt32 := UInt32.ofNat (ofLe ((buf.drop i).take 4))

/-- `u64::from_le_bytes` of eight bytes of a buffer. -/
def u64At (buf : Bytes) (i : ℕ) : UInt64 := UInt64.ofNat (ofLe ((buf.drop i).take 8))

theorem u32At_eq {buf : Bytes} {i : ℕ} {x : UInt32} (h : (buf.drop i).take 4 = le 4 x.toNat) :
    u32At buf i = x := by
  unfold u32At
  rw [h, ofLe_le (lt_of_lt_of_eq x.toNat_lt (by decide)), UInt32.ofNat_toNat]

theorem u64At_eq {buf : Bytes} {i : ℕ} {x : UInt64} (h : (buf.drop i).take 8 = le 8 x.toNat) :
    u64At buf i = x := by
  unfold u64At
  rw [h, ofLe_le (lt_of_lt_of_eq x.toNat_lt (by decide)), UInt64.ofNat_toNat]

/-! ## Entries -/

/-- `ChunkTag::encode`. -/
def ChunkTag.encode (t : ChunkTag) : Bytes :=
  le 4 t.spcOid.toNat ++ (le 4 t.dbOid.toNat ++ (le 4 t.relNumber.toNat ++
    (le 4 t.forkNumber.toUInt32.toNat ++ le 4 t.chunkId.toNat)))

/-- `ChunkTag::decode`. -/
def ChunkTag.decode (buf : Bytes) : ChunkTag :=
  ⟨u32At buf 0, u32At buf 4, u32At buf 8, (u32At buf 12).toInt32, u32At buf 16⟩

/-- `RelFork::encode`. -/
def RelFork.encode (r : RelFork) : Bytes :=
  le 4 r.spcOid.toNat ++ (le 4 r.dbOid.toNat ++ (le 4 r.relNumber.toNat ++
    le 4 r.forkNumber.toUInt32.toNat))

/-- `RelFork::decode`. -/
def RelFork.decode (buf : Bytes) : RelFork :=
  ⟨u32At buf 0, u32At buf 4, u32At buf 8, (u32At buf 12).toInt32⟩

/-- `ChunkRef::encode`. -/
def ChunkRef.encode (c : ChunkRef) : Bytes :=
  le 8 c.dbId.toNat ++ (le 4 c.timelineId.toNat ++ le 8 c.lsn.toNat)

/-- `ChunkRef::decode`. -/
def ChunkRef.decode (buf : Bytes) : ChunkRef := ⟨u64At buf 0, u32At buf 8, u64At buf 12⟩

/-- A metadata entry, as `write_tikm` fills it. -/
def encodeMetaEntry (p : RelFork × RelForkMeta) : Bytes :=
  p.1.encode ++ (le 4 p.2.nblocks.toNat ++ [if p.2.deleted then 1 else 0, 0, 0, 0])

/-- `decode_meta_entry`. -/
def decodeMetaEntry (buf : Bytes) : RelFork × RelForkMeta :=
  (RelFork.decode (buf.take 16), ⟨u32At buf 16, buf.getD 20 0 != 0⟩)

theorem ChunkTag.decode_encode (t : ChunkTag) : decode t.encode = t := by
  unfold decode
  rw [u32At_eq (x := t.spcOid) rfl, u32At_eq (x := t.dbOid) rfl, u32At_eq (x := t.relNumber) rfl,
    u32At_eq (x := t.forkNumber.toUInt32) rfl, u32At_eq (x := t.chunkId) rfl,
    Int32.toInt32_toUInt32]

theorem RelFork.decode_encode (r : RelFork) : decode r.encode = r := by
  unfold decode
  rw [u32At_eq (x := r.spcOid) rfl, u32At_eq (x := r.dbOid) rfl, u32At_eq (x := r.relNumber) rfl,
    u32At_eq (x := r.forkNumber.toUInt32) rfl, Int32.toInt32_toUInt32]

theorem ChunkRef.decode_encode (c : ChunkRef) : decode c.encode = c := by
  unfold decode
  rw [u64At_eq (x := c.dbId) rfl, u32At_eq (x := c.timelineId) rfl, u64At_eq (x := c.lsn) rfl]

theorem decodeMetaEntry_encodeMetaEntry (p : RelFork × RelForkMeta) :
    decodeMetaEntry (encodeMetaEntry p) = p := by
  obtain ⟨rf, nblocks, deleted⟩ := p
  unfold decodeMetaEntry
  have hrf : (encodeMetaEntry (rf, ⟨nblocks, deleted⟩)).take 16 = rf.encode := rfl
  have hdel : ((encodeMetaEntry (rf, ⟨nblocks, deleted⟩)).getD 20 0 != 0) = deleted := by
    cases deleted <;> rfl
  rw [hrf, hdel, RelFork.decode_encode, u32At_eq (x := nblocks) rfl]

/-- An entry of the chunk table: tag and reference, 40 bytes. -/
def chunkRecord : Record (ChunkTag × ChunkRef) :=
  Record.pair ⟨20, ChunkTag.encode, ChunkTag.decode, fun _ => rfl, ChunkTag.decode_encode⟩
    ⟨20, ChunkRef.encode, ChunkRef.decode, fun _ => rfl, ChunkRef.decode_encode⟩

/-- An entry of the metadata table, 24 bytes. -/
def metaRecord : Record (RelFork × RelForkMeta) :=
  ⟨24, encodeMetaEntry, decodeMetaEntry, fun _ => rfl, decodeMetaEntry_encodeMetaEntry⟩

/-! ## Files -/

/-- `TIKM_MAGIC`. -/
def tikmMagic : Bytes := [0x54, 0x49, 0x4b, 0x4d]

/-- `TIKM_VERSION`. -/
def tikmVersion : UInt32 := 1

/-- `pread_exact`: `n` bytes of a file from an offset; a shorter file is an error. -/
def pread (file : Bytes) (offset n : ℕ) : Except Error Bytes :=
  let buf := (file.drop offset).take n
  if buf.length = n then .ok buf else .error .io

/-- The header that `write_tikm` writes. -/
def tikmHeader (checkpoint redoCkpt : Checkpoint) (timestamp : Int64) (entryCount : ℕ) : Bytes :=
  tikmMagic ++ (le 4 tikmVersion.toNat ++ (le 4 checkpoint.timelineId.toNat ++
    (le 4 redoCkpt.timelineId.toNat ++ (le 8 checkpoint.lsn.toNat ++ (le 8 redoCkpt.lsn.toNat ++
      (le 8 timestamp.toUInt64.toNat ++ le 8 entryCount))))))

/-- The contents that `write_tikm` writes. -/
def tikmBytes (checkpoint redoCkpt : Checkpoint) (timestamp : Int64)
    (chunks : List (ChunkTag × ChunkRef)) (metas : List (RelFork × RelForkMeta)) (pgState : Bytes) :
    Bytes :=
  tikmHeader checkpoint redoCkpt timestamp chunks.length ++ (chunkRecord.table chunks ++
    (le 8 metas.length ++ (metaRecord.table metas ++ (le 8 pgState.length ++ pgState))))

/-- `write_tikm`, up to the name of the file. A file offset is a signed 64-bit number, and a longer
write fails. -/
def writeTikm (checkpoint redoCkpt : Checkpoint) (timestamp : Int64)
    (chunks : List (ChunkTag × ChunkRef)) (metas : List (RelFork × RelForkMeta)) (pgState : Bytes) :
    Except Error Bytes :=
  let file := tikmBytes checkpoint redoCkpt timestamp chunks metas pgState
  if file.length < 2 ^ 63 then .ok file else .error .io

/-- `Manifest`, as the code has it: an open file, with what is read of it on opening. -/
structure Tikm where
  checkpoint : Checkpoint
  redoCkpt : Checkpoint
  pgState : Bytes
  timestamp : Int64
  file : Bytes
  entryCount : ℕ
  metaCount : ℕ

/-- What a manifest is in the storage: `(checkpoint, redo_ckpt, timestamp, chunks, meta_map,
pg_state)`. -/
structure Wire where
  checkpoint : Checkpoint
  redoCkpt : Checkpoint
  timestamp : Int64
  chunks : List (ChunkTag × ChunkRef)
  metaMap : SortedMap RelFork RelForkMeta
  pgState : Bytes

/-- `rmp_serde::to_vec` and `rmp_serde::from_slice` of what is stored. -/
structure WireCodec where
  encode : Wire → Except Error Bytes
  decode : Bytes → Except Error Wire
  decode_encode : ∀ w bytes, encode w = .ok bytes → decode bytes = .ok w

/-- The sort of a chunk list by tag; the order of entries of one tag is open. -/
abbrev TagSort := UnstableSort fun a b : ChunkTag × ChunkRef => a.1 ≤ b.1

namespace Tikm

/-- `Manifest::new`. -/
def new (S : TagSort) (w : Wire) : Except Error Tikm :=
  let chunks := S.sort w.chunks
  let metas := w.metaMap.entries
  (writeTikm w.checkpoint w.redoCkpt w.timestamp chunks metas w.pgState).map fun file =>
    ⟨w.checkpoint, w.redoCkpt, w.pgState, w.timestamp, file, chunks.length, metas.length⟩

/-- `Manifest::empty`. -/
def empty (S : TagSort) : Except Error Tikm := new S ⟨default, default, 0, [], .empty, []⟩

/-- `Manifest::from_bytes`. -/
def fromBytes (codec : WireCodec) (S : TagSort) (data : Bytes) : Except Error Tikm :=
  (codec.decode data).bind (new S)

/-- `Manifest::meta_header_offset`. -/
def metaHeaderOffset (f : Tikm) : ℕ := 48 + f.entryCount * 40

/-- `Manifest::meta_body_offset`. -/
def metaBodyOffset (f : Tikm) : ℕ := f.metaHeaderOffset + 8

/-- `read_pg_state`. -/
def readPgState (file : Bytes) (offset : ℕ) : Except Error Bytes := do
  let lenBuf ← pread file offset 8
  let len := (u64At lenBuf 0).toNat
  if len = 0 then .ok [] else pread file (offset + 8) len

/-- `Manifest::open_local`. -/
def openLocal (file : Bytes) : Except Error Tikm := do
  let header ← pread file 0 48
  if header.take 4 ≠ tikmMagic then .error .invalidData
  else if u32At header 4 ≠ tikmVersion then .error .invalidData
  else
    let entryCount := (u64At header 40).toNat
    let metaHeaderOffset := 48 + entryCount * 40
    let metaCountBuf ← pread file metaHeaderOffset 8
    let metaCount := (u64At metaCountBuf 0).toNat
    let pgState ← readPgState file (metaHeaderOffset + 8 + metaCount * 24)
    return ⟨⟨u32At header 8, u64At header 16⟩, ⟨u32At header 12, u64At header 24⟩, pgState,
      (u64At header 32).toInt64, file, entryCount, metaCount⟩

/-- `read_all_entries`. -/
def readAllEntries (f : Tikm) : Except Error (List (ChunkTag × ChunkRef)) :=
  if f.entryCount = 0 then .ok []
  else (pread f.file 48 (f.entryCount * 40)).map (chunkRecord.readTable f.entryCount)

/-- `read_all_meta_entries`. -/
def readAllMetaEntries (f : Tikm) : Except Error (List (RelFork × RelForkMeta)) :=
  if f.metaCount = 0 then .ok []
  else (pread f.file f.metaBodyOffset (f.metaCount * 24)).map (metaRecord.readTable f.metaCount)

/-! ## Lookups -/

/-- The loop of a lookup: a binary search that reads each entry it compares with. -/
def searchFrom {K V : Type} [LinearOrder K] (read : ℕ → Except Error (K × V)) (key : K) :
    ℕ → ℕ → ℕ → Except Error (Option V)
  | 0, _, _ => .ok none
  | fuel + 1, lo, hi =>
    if lo < hi then
      let mid := lo + (hi - lo) / 2
      match read mid with
      | .error e => .error e
      | .ok entry =>
        if entry.1 = key then .ok (some entry.2)
        else if entry.1 < key then searchFrom read key fuel (mid + 1) hi
        else searchFrom read key fuel lo mid
    else .ok none

/-- The chunk entry at an index. -/
def readEntry (f : Tikm) (i : ℕ) : Except Error (ChunkTag × ChunkRef) :=
  (pread f.file (48 + i * 40) 40).map chunkRecord.read

/-- The metadata entry at an index. -/
def readMetaEntry (f : Tikm) (i : ℕ) : Except Error (RelFork × RelForkMeta) :=
  (pread f.file (f.metaBodyOffset + i * 24) 24).map metaRecord.read

/-- `Manifest::lookup`. -/
def lookup (f : Tikm) (key : ChunkTag) : Except Error (Option ChunkRef) :=
  if f.entryCount = 0 then .ok none
  else searchFrom f.readEntry key f.entryCount 0 f.entryCount

/-- `Manifest::lookup_relfork_meta`. -/
def lookupRelforkMeta (f : Tikm) (rf : RelFork) : Except Error (Option RelForkMeta) :=
  if f.metaCount = 0 then .ok none
  else searchFrom f.readMetaEntry rf f.metaCount 0 f.metaCount

/-! ## Folding checkpoints into a manifest -/

end Tikm

/-- `AppliedManifest`. -/
structure AppliedManifest where
  checkpoint : Checkpoint
  redoCkpt : Checkpoint
  timestamp : Int64
  chunks : List (ChunkTag × ChunkRef)
  metas : List (RelFork × RelForkMeta)
  pgState : Bytes
  bytes : Bytes

namespace Tikm

/-- `i64::max`. -/
def maxTimestamp (a b : Int64) : Int64 := if a ≤ b then b else a

/-- `Manifest::apply_segments` at the time `now`. -/
def applySegments (codec : WireCodec) (S : Manifest.CombinedSort) (f : Tikm)
    (segments : List SegmentCheckpoint) (dbId : UInt64) (now : Int64) :
    Except Error AppliedManifest := do
  let redoCkpt := (segments.getLast?.map (·.redoCkpt)).getD f.redoCkpt
  let pgState := (segments.getLast?.map (·.pgState)).getD f.pgState
  let lastCkpt := segments.foldl (fun c seg =>
    if seg.chunks.entries ≠ [] ∨ seg.relforks.entries ≠ [] then seg.ckpt else c) f.checkpoint
  let lastTs := maxTimestamp now f.timestamp
  let combined := dedupByKey (S.sort (Manifest.combined segments dbId))
  let baseEntries ← f.readAllEntries
  let output := SortedMap.mergeList Manifest.newerRef baseEntries combined
  let baseMeta ← f.readAllMetaEntries
  let mergedMeta := (SortedMap.empty.insertAll baseMeta).insertAll
    (Manifest.newMeta segments).entries
  let output := output.filter fun p => !Manifest.isDeleted mergedMeta p.1.relFork
  let bytes ← codec.encode ⟨lastCkpt, redoCkpt, lastTs, output, mergedMeta, pgState⟩
  return ⟨lastCkpt, redoCkpt, lastTs, output, mergedMeta.entries, pgState, bytes⟩

/-- `Manifest::commit_applied`. -/
def commitApplied (applied : AppliedManifest) : Except Error Tikm :=
  (writeTikm applied.checkpoint applied.redoCkpt applied.timestamp applied.chunks applied.metas
    applied.pgState).map fun file =>
      ⟨applied.checkpoint, applied.redoCkpt, applied.pgState, applied.timestamp, file,
        applied.chunks.length, applied.metas.length⟩

end Tikm

end Tiko

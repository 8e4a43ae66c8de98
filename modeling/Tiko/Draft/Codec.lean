import Tiko.Draft.Buffer
import Tiko.Lib.Msgpack

/-!
# Frames in MessagePack

The encoding of draft frames as `rmp_serde::to_vec` writes them: structures are arrays of their
fields, the set of tags is an array and the relation forks are a map, in the shortest form.

**`msgpack`** is the frame codec; `from_slice` stops at the end of the frame.
-/

namespace Tiko

open Lib Lib.Msgpack

/-! ## Entries -/

/-- A `ChunkTag`: an array of five integers. -/
def tagFormat : Format ChunkTag :=
  .tagged 0x95 ((uint.pair (uint.pair (uint.pair (sint.pair uint)))).iso
    (fun t => (t.spcOid, t.dbOid, t.relNumber, t.forkNumber, t.chunkId))
    (fun p => ⟨p.1, p.2.1, p.2.2.1, p.2.2.2.1, p.2.2.2.2⟩) fun _ => rfl)

/-- A `RelFork`: an array of four integers. -/
def relForkFormat : Format RelFork :=
  .tagged 0x94 ((uint.pair (uint.pair (uint.pair sint))).iso
    (fun r => (r.spcOid, r.dbOid, r.relNumber, r.forkNumber))
    (fun p => ⟨p.1, p.2.1, p.2.2.1, p.2.2.2⟩) fun _ => rfl)

/-- A `RelForkMeta`: an array of a number and a boolean. -/
def relForkMetaFormat : Format RelForkMeta :=
  .tagged 0x92 ((uint.pair Msgpack.bool).iso (fun m => (m.nblocks, m.deleted))
    (fun p => ⟨p.1, p.2⟩) fun _ => rfl)

/-- An entry of the map of relation forks: key and value. -/
def entryFormat : Format (RelFork × RelForkMeta) := relForkFormat.pair relForkMetaFormat

/-! ## Frames -/

theorem arrayMarkers : Markers 0x90 0xdc 0xdd := by constructor <;> decide

theorem mapMarkers : Markers 0x80 0xde 0xdf := by constructor <;> decide

/-- `rmp_serde::to_vec` of a frame. -/
def encodeFrame (f : DraftFrame) : Bytes :=
  0x92 :: (writeMany tagFormat 0x90 0xdc 0xdd f.chunks.keys ++
    writeMany entryFormat 0x80 0xde 0xdf f.relforks.entries)

/-- The two fields of a frame. -/
def readFrame : Bytes → Option DraftFrame
  | [] => none
  | b :: bs =>
    if b = 0x92 then
      (readMany tagFormat 0x90 0xdc 0xdd bs).bind fun p =>
        (readMany entryFormat 0x80 0xde 0xdf p.2).map fun q =>
          ⟨SortedMap.empty.insertAll (p.1.map fun tag => (tag, ())),
            SortedMap.empty.insertAll q.1⟩
    else none

/-- `rmp_serde::from_slice` of a frame. -/
def decodeFrame (bs : Bytes) : Except Error DraftFrame :=
  match readFrame bs with
  | some f => .ok f
  | none => .error .invalidData

theorem decodeFrame_encodeFrame (f : DraftFrame) (h : f.size < 2 ^ 32) :
    decodeFrame (encodeFrame f) = .ok f := by
  rw [DraftFrame.size] at h
  have hkeys : f.chunks.keys.length < 2 ^ 32 := by
    rw [SortedMap.keys, List.length_map]
    omega
  have hset : (f.chunks.keys.map fun tag => (tag, ())) = f.chunks.entries := by
    rw [SortedMap.keys, List.map_map]
    exact List.map_id _
  have htags := readMany_writeMany tagFormat arrayMarkers hkeys
    (writeMany entryFormat 0x80 0xde 0xdf f.relforks.entries)
  have hentries := readMany_writeMany entryFormat mapMarkers
    (l := f.relforks.entries) (by omega) []
  rw [List.append_nil] at hentries
  have hread : readFrame (encodeFrame f) = some f := by
    rw [encodeFrame, readFrame, if_pos rfl, htags, Option.bind_some, hentries, Option.map_some,
      hset, SortedMap.insertAll_entries, SortedMap.insertAll_entries]
  rw [decodeFrame, hread]

theorem length_encodeFrame_le (f : DraftFrame) : (encodeFrame f).length ≤ 64 * (f.size + 1) := by
  have h1 := length_writeMany_le tagFormat 0x90 0xdc 0xdd f.chunks.keys
  have h2 := length_writeMany_le entryFormat 0x80 0xde 0xdf f.relforks.entries
  rw [show tagFormat.bound = 26 from rfl, SortedMap.keys, List.length_map] at h1
  rw [show entryFormat.bound = 28 from rfl] at h2
  rw [encodeFrame, List.length_cons, List.length_append, SortedMap.keys, DraftFrame.size]
  omega

/-- **The MessagePack codec of frames.** -/
def msgpack : FrameCodec where
  encode := encodeFrame
  decode := decodeFrame
  decode_encode := decodeFrame_encodeFrame
  length_encode_le := length_encodeFrame_le

end Tiko

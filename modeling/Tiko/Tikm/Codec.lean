import Tiko.Compaction.LastWriter
import Tiko.Draft.Codec
import Tiko.Tikm.Exact

/-!
# Manifests in MessagePack

The encoding of a manifest as `rmp_serde::to_vec` writes it: an array of six, in which checkpoints and
chunk references are arrays of their fields, the metadata is a map, and the archive of PostgreSQL's
state is an array of bytes.

**`manifestCodec`** is the codec of manifests. `exact_twoForks` builds a manifest with it.
-/

namespace Tiko

open Lib Lib.Msgpack

/-! ## Parts -/

/-- A `Checkpoint`: an array of two integers. -/
def checkpointFormat : Format Checkpoint :=
  .tagged 0x92 ((uint.pair uint64).iso (fun c => (c.timelineId, c.lsn)) (fun p => ⟨p.1, p.2⟩)
    fun _ => rfl)

/-- A `ChunkRef`: an array of three integers. -/
def chunkRefFormat : Format ChunkRef :=
  .tagged 0x93 ((uint64.pair (uint.pair uint64)).iso (fun r => (r.dbId, r.timelineId, r.lsn))
    (fun p => ⟨p.1, p.2.1, p.2.2⟩) fun _ => rfl)

/-- A chunk entry: an array of tag and reference. -/
def chunkEntryFormat : Format (ChunkTag × ChunkRef) := .tagged 0x92 (tagFormat.pair chunkRefFormat)

/-- The three values in front of the sequences. -/
def headFormat : Format (Checkpoint × Checkpoint × Int64) :=
  .tagged 0x96 (checkpointFormat.pair (checkpointFormat.pair sint64))

/-! ## Manifests -/

/-- `rmp_serde::to_vec` of a manifest. A longer sequence has no header. -/
def encodeWire (w : Wire) : Except Error Bytes :=
  if w.chunks.length < 2 ^ 32 ∧ w.metaMap.entries.length < 2 ^ 32 ∧ w.pgState.length < 2 ^ 32 then
    .ok (headFormat.write (w.checkpoint, w.redoCkpt, w.timestamp) ++
      (writeMany chunkEntryFormat 0x90 0xdc 0xdd w.chunks ++
        (writeMany entryFormat 0x80 0xde 0xdf w.metaMap.entries ++
          writeMany byte 0x90 0xdc 0xdd w.pgState)))
  else .error .invalidData

/-- The reader of a manifest. -/
def readWire (bs : Bytes) : Option Wire := do
  let head ← headFormat.read bs
  let chunks ← readMany chunkEntryFormat 0x90 0xdc 0xdd head.2
  let metas ← readMany entryFormat 0x80 0xde 0xdf chunks.2
  let pgState ← readMany byte 0x90 0xdc 0xdd metas.2
  return ⟨head.1.1, head.1.2.1, head.1.2.2, chunks.1, SortedMap.empty.insertAll metas.1, pgState.1⟩

/-- `rmp_serde::from_slice` of a manifest. -/
def decodeWire (bs : Bytes) : Except Error Wire :=
  match readWire bs with
  | some w => .ok w
  | none => .error .invalidData

theorem decodeWire_encodeWire (w : Wire) (bytes : Bytes) (h : encodeWire w = .ok bytes) :
    decodeWire bytes = .ok w := by
  unfold encodeWire at h
  split_ifs at h with hfits
  · obtain ⟨hchunks, hmetas, hpg⟩ := hfits
    obtain rfl := Except.ok.inj h
    have hread : readWire (headFormat.write (w.checkpoint, w.redoCkpt, w.timestamp) ++
        (writeMany chunkEntryFormat 0x90 0xdc 0xdd w.chunks ++
          (writeMany entryFormat 0x80 0xde 0xdf w.metaMap.entries ++
            writeMany byte 0x90 0xdc 0xdd w.pgState))) = some w := by
      have hlast := readMany_writeMany byte arrayMarkers hpg []
      rw [List.append_nil] at hlast
      unfold readWire
      rw [headFormat.read_write, Option.bind_eq_bind, Option.bind_some,
        readMany_writeMany chunkEntryFormat arrayMarkers hchunks, Option.bind_eq_bind,
        Option.bind_some, readMany_writeMany entryFormat mapMarkers hmetas, Option.bind_eq_bind,
        Option.bind_some, hlast, Option.bind_eq_bind, Option.bind_some,
        SortedMap.insertAll_entries]
      rfl
    unfold decodeWire
    rw [hread]

/-- **The MessagePack codec of manifests.** -/
def manifestCodec : WireCodec where
  encode := encodeWire
  decode := decodeWire
  decode_encode := decodeWire_encodeWire

/-! ## A negative fork number -/

instance : Std.Total fun a b : ChunkTag × ChunkRef => a.1 ≤ b.1 := ⟨fun a b => le_total a.1 b.1⟩

instance : IsTrans (ChunkTag × ChunkRef) fun a b => a.1 ≤ b.1 := ⟨fun _ _ _ h h' => h.trans h'⟩

/-- Insertion sort by tag. -/
def tagSort : TagSort := .ofRefinement (s := fun a b => a.1 ≤ b.1) fun _ _ h => h

/-- A manifest with one chunk of fork `-1` and one of fork `0`, in the wrong order. -/
def twoForks : Wire :=
  ⟨⟨1, 300⟩, ⟨1, 200⟩, -5, [(⟨1, 1, 7, 0, 0⟩, ⟨34, 1, 100⟩), (⟨1, 1, 7, -1, 3⟩, ⟨34, 1, 50⟩)],
    SortedMap.empty.insert ⟨1, 1, 7, -1⟩ ⟨8, true⟩, [1, 2]⟩

/-- Its file. -/
def twoForksFile : Tikm where
  checkpoint := ⟨1, 300⟩
  redoCkpt := ⟨1, 200⟩
  pgState := [1, 2]
  timestamp := -5
  file := tikmBytes ⟨1, 300⟩ ⟨1, 200⟩ (-5)
    [(⟨1, 1, 7, -1, 3⟩, ⟨34, 1, 50⟩), (⟨1, 1, 7, 0, 0⟩, ⟨34, 1, 100⟩)] [(⟨1, 1, 7, -1⟩, ⟨8, true⟩)]
    [1, 2]
  entryCount := 2
  metaCount := 1

/-- The file opens, and the chunk of fork `-1` is found. -/
theorem exact_twoForks :
    Tikm.new tagSort twoForks = .ok twoForksFile ∧
      Tikm.openLocal twoForksFile.file = .ok twoForksFile ∧
      twoForksFile.lookup ⟨1, 1, 7, -1, 3⟩ = .ok (some ⟨34, 1, 50⟩) ∧
      twoForksFile.lookupRelforkMeta ⟨1, 1, 7, 0⟩ = .ok none := by
  have hsort : tagSort.sort twoForks.chunks =
      [(⟨1, 1, 7, -1, 3⟩, ⟨34, 1, 50⟩), (⟨1, 1, 7, 0, 0⟩, ⟨34, 1, 100⟩)] := by decide
  have hfits : twoForksFile.file.length < 2 ^ 63 := by
    rw [show twoForksFile.file.length = 170 from rfl]
    decide
  have hnew : Tikm.new tagSort twoForks = .ok twoForksFile := by
    rw [Tikm.new_of_length_lt (by rw [hsort]; exact hfits), hsort]
    rfl
  have hnodup : (twoForks.chunks.map Prod.fst).Nodup := by decide
  have hbuilt : Tikm.Built manifestCodec tagSort (Manifest.preferSort 1) twoForksFile
      twoForks.contents := .new hnodup hnew
  obtain ⟨-, hopen, -, -, hlookup, hmeta, -⟩ := Tikm.exact_of_built hbuilt
  refine ⟨hnew, hopen, ?_, ?_⟩
  · rw [hlookup]
    decide
  · rw [hmeta]
    decide

end Tiko

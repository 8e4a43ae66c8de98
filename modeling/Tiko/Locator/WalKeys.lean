import Tiko.Wal.Window

/-!
# Keys of WAL objects

The prefix of a segment's chunks ends with a slash, and the key of a chunk puts another one behind it.
An object store that returns keys as they were written lists two slashes in a row. `parse_wal_key`
takes all that follows `.chunks/` for the offset; `chunk_offset` takes what follows the last slash.
The file-backed store lists paths, in which the two slashes are one (`parseWalKey_chunkKey`).

* `ParseBack`: what the builders write, the parsers read;
* `parseWalKey_walChunkKey`, `chunkOffset_walChunkKey`: the two readers of a chunk's key.

**`not_parseBack`**: no chunk key parses back, so that no unsealed segment is in the recovery window.
-/

namespace Tiko.Wal

open Lib

/-- The keys of segment `n` of a timeline and of its chunk at `off` parse back, on the text that was
written. -/
structure ParseBack (ns : DbNamespace) (tl : TimelineId) (n : UInt64) (off : ℕ) : Prop where
  sealed : parseWalKey (walSegment ns.fmt tl (walSegName tl n)) (walTimelineDir ns.fmt tl) =
    some (n, none)
  chunk : parseWalKey (walChunkKey ns.fmt tl (walSegName tl n) off) (walTimelineDir ns.fmt tl) =
    some (n, some off)
  chunkOffset : Tiko.chunkOffset (walChunkKey ns.fmt tl (walSegName tl n) off) = some off

section Chunks

variable (ns : DbNamespace) (tl : TimelineId) (n : UInt64) (off : ℕ)

/-! ## The two readers -/

theorem fromStr_slash (bound : ℕ) (cs : Str) : Hex.fromStr bound ('/' :: cs) = none := by
  have hslash : Hex.digitVal '/' = none := by decide
  rw [Hex.fromStr, if_neg (by decide), Hex.parseDigits, hslash]
  rfl

/-- **The key of a chunk does not parse**: the offset begins with a slash. -/
theorem parseWalKey_walChunkKey :
    parseWalKey (walChunkKey ns.fmt tl (walSegName tl n) off) (walTimelineDir ns.fmt tl) = none := by
  have hname := isSegName_walSegName tl n
  have hkey : walChunkKey ns.fmt tl (walSegName tl n) off = walTimelineDir ns.fmt tl ++
      (walSegName tl n ++ chunksSep ++ ('/' :: Hex.fmt 16 off)) := by
    simp [walChunkKey, walChunkPrefix, walTimelineDir]
  have hsplit : splitOnce chunksSep (walSegName tl n ++ chunksSep ++ ('/' :: Hex.fmt 16 off)) =
      some (walSegName tl n, '/' :: Hex.fmt 16 off) :=
    splitOnce_append (dot_notMem_of_isSegName hname)
  rw [parseWalKey, hkey, stripPrefix_append, Option.bind_eq_bind, Option.bind_some, hsplit]
  dsimp only
  rw [if_pos hname, fromStr_drop_walSegName, fromStr_slash]
  rfl

/-- `tiko_restore` reads the offset behind the last slash. -/
theorem chunkOffset_walChunkKey (hoff : off < xlogSegSize) :
    Tiko.chunkOffset (walChunkKey ns.fmt tl (walSegName tl n) off) = some off := by
  have hlt : off < 2 ^ 64 := by
    unfold xlogSegSize at hoff
    omega
  rw [Tiko.chunkOffset, walChunkKey, lastComponent_append (slash_notMem_fmt 16 off),
    Hex.fromStr_fmt 16 hlt]

/-- **No chunk key parses back.** -/
theorem not_parseBack : ¬ ParseBack ns tl n off := by
  intro h
  have hchunk := h.chunk
  rw [parseWalKey_walChunkKey] at hchunk
  exact absurd hchunk (by simp)

end Chunks

/-- The first chunk of segment `0`: the key has `.chunks//`, and the part behind `.chunks/` is no
number. -/
theorem firstChunk_lost :
    walChunkKey (DbNamespace.fmt ⟨1, 1⟩) 1 (walSegName 1 0) 0 =
      "1/1/wal/00000001/000000010000000000000000.chunks//0000000000000000".toList ∧
    parseWalKey (walChunkKey (DbNamespace.fmt ⟨1, 1⟩) 1 (walSegName 1 0) 0)
      (walTimelineDir (DbNamespace.fmt ⟨1, 1⟩) 1) = none ∧
    ¬ ParseBack ⟨1, 1⟩ 1 0 0 := by
  refine ⟨by decide, by decide, fun h => ?_⟩
  have hnone : parseWalKey (walChunkKey (DbNamespace.fmt ⟨1, 1⟩) 1 (walSegName 1 0) 0)
      (walTimelineDir (DbNamespace.fmt ⟨1, 1⟩) 1) = none := by decide
  have hchunk := h.chunk
  rw [hnone] at hchunk
  exact absurd hchunk (by simp)

end Tiko.Wal

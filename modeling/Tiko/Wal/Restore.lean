import Tiko.Lib.Bytes
import Tiko.Wal.Names

/-!
# Restoring archived WAL

`restore` is PostgreSQL's `restore_command`: it looks a requested segment up under the requested
name, first as a sealed object, then as the 256 KiB chunks of an unfinished segment, which it
assembles over zeros and completes with a page header.

`ServedBack` says what archiving promises for one segment: the receiver's name is the name
PostgreSQL asks for, both parsers read the number back, and what the receiver stored under its name
is what `restore` finds. **`servedBack_iff`**: this holds exactly for the 256 segments of log file
zero, the first 4 GB of WAL. `segment_256_not_found` is the first segment that is lost.
-/

namespace Tiko

open Lib

/-- `Outcome`. -/
inductive Outcome where
  /-- The file was written to the destination, with this content. -/
  | restored (data : Bytes)
  /-- The file is not in the archive. -/
  | notFound
  deriving DecidableEq

/-! ## Assembling chunks -/

/-- `str::rsplit('/').next()`: the text after the last slash. -/
def lastComponent : Str → Str
  | [] => []
  | c :: cs => if '/' ∈ c :: cs then lastComponent cs else c :: cs

/-- `chunk_offset`. -/
def chunkOffset (key : Str) : Option ℕ := Hex.fromStr (2 ^ 64) (lastComponent key)

/-- `buf[offset..end].copy_from_slice(data)`. -/
def copyInto (buf : Bytes) (offset : ℕ) (data : Bytes) : Bytes :=
  buf.take offset ++ data ++ buf.drop (offset + data.length)

/-- The assembly loop of `restore` over the chunk keys. -/
def assemble (store : ObjectStorage) : Bytes → List Str → Except Error Bytes
  | buf, [] => .ok buf
  | buf, key :: keys =>
    match chunkOffset key with
    | none => assemble store buf keys
    | some offset =>
      match store.get key with
      | .error e => .error e
      | .ok data =>
        if buf.length ≤ offset ∨ buf.length < offset + data.length then .error .invalidData
        else assemble store (copyInto buf offset data) keys

/-! ## The page header -/

/-- `wal_long_header`. -/
def walLongHeader (tli : TimelineId) (segNo : UInt64) (systemIdentifier : UInt64) :
    List UInt8 :=
  Bytes.le 2 0xD118 ++ Bytes.le 2 2 ++ Bytes.le 4 tli.toNat ++
    Bytes.le 8 (segNo * UInt64.ofNat xlogSegSize).toNat ++ Bytes.le 8 0 ++
    Bytes.le 8 systemIdentifier.toNat ++ Bytes.le 4 xlogSegSize ++ Bytes.le 4 8192

/-- `maybe_synthesize_long_header`. `sysid` is the system identifier read from
`global/pg_control`, `none` when it cannot be read. -/
def maybeSynthesizeLongHeader (sysid : Option UInt64) (buf : Bytes) (tli : TimelineId)
    (name : Str) : Bytes :=
  if buf.take 2 = Bytes.le 2 0xD118 then buf
  else
    match parseWalSegNo name, sysid with
    | some segNo, some id => copyInto buf 0 (walLongHeader tli segNo id)
    | _, _ => buf

/-! ## Restore -/

/-- `restore`, for the namespace `ns` of the database. -/
def restore (ns : Str) (store : ObjectStorage) (sysid : Option UInt64) (walFilename : Str) :
    Except Error Outcome :=
  match parseWalSegmentName walFilename with
  | none => .ok .notFound
  | some tl =>
    match store.get (walSegment ns tl walFilename) with
    | .ok bytes => .ok (.restored bytes)
    | .error e =>
      if e.isNotFound then
        match store.listPrefix (walChunkPrefix ns tl walFilename) with
        | .error e => .error e
        | .ok [] => .ok .notFound
        | .ok (key :: keys) =>
          match assemble store (List.replicate xlogSegSize 0) (key :: keys) with
          | .error e => .error e
          | .ok buf => .ok (.restored (maybeSynthesizeLongHeader sysid buf tl walFilename))
      else .error e

/-- A sealed object is served as it is. -/
theorem restore_of_sealed {ns : Str} {store : ObjectStorage} {sysid : Option UInt64}
    {tl : TimelineId} {n : UInt64} {bytes : Bytes}
    (h : store.get (walSegment ns tl (walSegName tl n)) = .ok bytes) :
    restore ns store sysid (walSegName tl n) = .ok (.restored bytes) := by
  rw [restore, parseWalSegmentName_walSegName]
  dsimp only
  rw [h]

/-- Without a sealed object the stored chunks are assembled. -/
theorem restore_of_chunks {ns : Str} {store : ObjectStorage} {sysid : Option UInt64}
    {tl : TimelineId} {n : UInt64} {key : Str} {keys : List Str} {buf : Bytes}
    (hs : store.get (walSegment ns tl (walSegName tl n)) = .error .notFound)
    (hl : store.listPrefix (walChunkPrefix ns tl (walSegName tl n)) = .ok (key :: keys))
    (ha : assemble store (List.replicate xlogSegSize 0) (key :: keys) = .ok buf) :
    restore ns store sysid (walSegName tl n) =
      .ok (.restored (maybeSynthesizeLongHeader sysid buf tl (walSegName tl n))) := by
  rw [restore, parseWalSegmentName_walSegName]
  dsimp only
  rw [hs]
  dsimp only
  rw [if_pos (show Error.isNotFound .notFound = true from rfl), hl]
  dsimp only
  rw [ha]

/-! ## What archiving promises -/

/-- What PostgreSQL gets when it asks for segment `n` is what the receiver stored for it: the sealed
object, or the chunks of a segment that was not sealed. -/
def RestoresArchived (tl : TimelineId) (n : UInt64) : Prop :=
  ∀ (ns : Str) (store : ObjectStorage) (sysid : Option UInt64),
    (∀ bytes, store.get (walSegment ns tl (walSegName tl n)) = .ok bytes →
      restore ns store sysid (xlogFileName tl n) = .ok (.restored bytes)) ∧
    ∀ key keys buf, store.get (walSegment ns tl (walSegName tl n)) = .error .notFound →
      store.listPrefix (walChunkPrefix ns tl (walSegName tl n)) = .ok (key :: keys) →
      assemble store (List.replicate xlogSegSize 0) (key :: keys) = .ok buf →
      restore ns store sysid (xlogFileName tl n) =
        .ok (.restored (maybeSynthesizeLongHeader sysid buf tl (xlogFileName tl n)))

/-- Segment `n` of timeline `tl` is found again: names agree, both parsers invert the name, and
`restore` serves what was archived. -/
structure ServedBack (tl : TimelineId) (n : UInt64) : Prop where
  name_eq : walSegName tl n = xlogFileName tl n
  parseWalSegNo_eq : parseWalSegNo (walSegName tl n) = some n
  parseWalKey_eq : ∀ ns : Str,
    parseWalKey (walSegment ns tl (walSegName tl n)) (walTimelineDir ns tl) = some (n, none)
  restores : RestoresArchived tl n

theorem parseWalSegNo_walSegName_of_lt {n : UInt64} (tl : TimelineId) (h : n.toNat < 256) :
    parseWalSegNo (walSegName tl n) = some n := by
  have h1 : n.toNat / 2 ^ 32 = 0 := by omega
  have h2 : n.toNat % 2 ^ 32 = n.toNat := by omega
  rw [parseWalSegNo_walSegName, h1, h2, UInt64.ofNat_toNat]
  simp

/-- **An archived segment below `2^40` is found again exactly when its number is below `256`.** -/
theorem servedBack_iff (tl : TimelineId) (n : UInt64) (h : n.toNat < 2 ^ 40) :
    ServedBack tl n ↔ n.toNat < 256 := by
  constructor
  · intro hs
    exact (walSegName_eq_xlogFileName_iff tl n h).mp hs.name_eq
  · intro hlt
    have hname := (walSegName_eq_xlogFileName_iff tl n h).mpr hlt
    refine ⟨hname, parseWalSegNo_walSegName_of_lt tl hlt, fun ns => parseWalKey_walSegment ns tl n,
      fun ns store sysid => ⟨fun bytes hb => ?_, fun key keys buf hs hl ha => ?_⟩⟩
    · rw [← hname]
      exact restore_of_sealed hb
    · rw [← hname]
      exact restore_of_chunks hs hl ha

theorem servedBack_iff_seven : (7 : UInt64).toNat < 2 ^ 40 ∧ ServedBack 1 7 :=
  ⟨by decide, (servedBack_iff 1 7 (by decide)).mpr (by decide)⟩

/-- A storage that holds one object. -/
def ObjectStorage.single (key : Str) (data : Bytes) : ObjectStorage where
  get k := if k = key then .ok data else .error .notFound
  listPrefix pre := .ok (if pre.isPrefixOf key then [key] else [])

/-- Segment `256` is archived as `000000010000000000000100`; PostgreSQL asks for
`000000010000000100000000` and is told that the file does not exist. -/
theorem segment_256_not_found : ¬ ServedBack 1 256 ∧
    restore ['n'] (.single (walSegment ['n'] 1 (walSegName 1 256)) [42]) none
      (xlogFileName 1 256) = .ok .notFound := by
  refine ⟨fun hs => ?_, by decide⟩
  exact absurd ((walSegName_eq_xlogFileName_iff 1 256 (by decide)).mp hs.name_eq) (by decide)

end Tiko

import Tiko.Lib.Bytes
import Tiko.Lib.Probing
import Tiko.Lib.SortedMap
import Tiko.Model.Storage

/-!
# The draft buffer

The record of what the current checkpoint interval has written: two open-addressed zones in shared
memory, chunk tags in 16 shards of 256 slots and relation forks in 8192 slots, and a spill file that
takes their contents when they fill up.

* `DraftFrame`: a set of chunk tags and relation fork updates; one frame of the spill file, and the
  result of a drain. `FrameCodec` is its MessagePack encoding;
* `appendSpillFrame`, `readSpillFile`: the file is a sequence of length-prefixed frames, and the
  outcome of each file operation is an argument;
* `DraftBuffer` with `recordChunk`, `recordRelfork`, `containsChunk`, `getRelfork`, `spillToFile`,
  `drain`.

**`readSpillFile_flatMap`**: a file of whole frames reads as their merge.
-/

namespace Tiko

open Lib

/-! ## Frames -/

/-- `DraftFrame`. -/
@[ext] structure DraftFrame where
  chunks : SortedSet ChunkTag
  relforks : SortedMap RelFork RelForkMeta
  deriving DecidableEq

namespace DraftFrame

/-- `DraftFrame::default`. -/
def empty : DraftFrame := ⟨.empty, .empty⟩

/-- `DraftFrame::is_empty`. -/
def isEmpty (f : DraftFrame) : Bool := f.chunks.entries.isEmpty && f.relforks.entries.isEmpty

/-- `DraftFrame::merge_frame`. -/
def mergeFrame (f g : DraftFrame) : DraftFrame :=
  ⟨SortedSet.union f.chunks g.chunks, f.relforks.insertAll g.relforks.entries⟩

/-- Frames merged from oldest to newest. -/
def mergeAll (fs : List DraftFrame) : DraftFrame := fs.foldl mergeFrame empty

/-- The number of entries of a frame. -/
def size (f : DraftFrame) : ℕ := f.chunks.entries.length + f.relforks.entries.length

/-- Whether a frame holds a chunk. -/
def containsChunk (f : DraftFrame) (tag : ChunkTag) : Bool := SortedSet.contains f.chunks tag

@[simp] theorem containsChunk_empty (tag : ChunkTag) : empty.containsChunk tag = false := rfl

@[simp] theorem lookup_relforks_empty (rf : RelFork) : empty.relforks.lookup rf = none := rfl

@[simp] theorem containsChunk_mergeFrame (f g : DraftFrame) (tag : ChunkTag) :
    (f.mergeFrame g).containsChunk tag = (g.containsChunk tag || f.containsChunk tag) :=
  SortedSet.contains_union _ _ _

@[simp] theorem lookup_relforks_mergeFrame (f g : DraftFrame) (rf : RelFork) :
    (f.mergeFrame g).relforks.lookup rf = (g.relforks.lookup rf).or (f.relforks.lookup rf) :=
  SortedMap.lookup_insertAll_entries _ _ _

/-- Frames with the same chunks and the same metadata are equal. -/
theorem ext_lookup {f g : DraftFrame} (hc : ∀ tag, f.containsChunk tag = g.containsChunk tag)
    (hr : ∀ rf, f.relforks.lookup rf = g.relforks.lookup rf) : f = g :=
  DraftFrame.ext (SortedSet.ext_contains hc) (SortedMap.ext_lookup hr)

@[simp] theorem mergeFrame_empty (f : DraftFrame) : f.mergeFrame empty = f :=
  ext_lookup (fun _ => by simp) fun _ => by simp

@[simp] theorem empty_mergeFrame (f : DraftFrame) : empty.mergeFrame f = f :=
  ext_lookup (fun _ => by simp) fun _ => by simp

theorem mergeFrame_assoc (f g h : DraftFrame) :
    (f.mergeFrame g).mergeFrame h = f.mergeFrame (g.mergeFrame h) :=
  ext_lookup (fun _ => by simp [Bool.or_assoc]) fun _ => by simp [Option.or_assoc]

theorem mergeAll_append_singleton (fs : List DraftFrame) (f : DraftFrame) :
    mergeAll (fs ++ [f]) = (mergeAll fs).mergeFrame f := by
  rw [mergeAll, List.foldl_append]
  rfl

theorem eq_empty_of_isEmpty {f : DraftFrame} (h : f.isEmpty = true) : f = empty := by
  obtain ⟨⟨cs, hcs⟩, ⟨rs, hrs⟩⟩ := f
  simp only [isEmpty, Bool.and_eq_true, List.isEmpty_iff] at h
  obtain ⟨rfl, rfl⟩ := h
  rfl

end DraftFrame

/-- The MessagePack encoding of frames: decoding inverts the encoding of frames whose sizes fit the
32-bit headers, and every entry takes a bounded number of bytes. -/
structure FrameCodec where
  encode : DraftFrame → Bytes
  decode : Bytes → Except Error DraftFrame
  decode_encode : ∀ f, f.size < 2 ^ 32 → decode (encode f) = .ok f
  length_encode_le : ∀ f, (encode f).length ≤ 64 * (f.size + 1)

/-! ## The spill file -/

/-- What the operating system does with the append of one frame. -/
inductive AppendOutcome where
  /-- Directory, open, writes and flush succeed. -/
  | ok
  /-- The directory or the file cannot be opened. -/
  | openFails
  /-- A write or the flush fails after this many bytes have reached the file. -/
  | writeFails (written : ℕ)
  deriving DecidableEq

section SpillFile

variable (codec : FrameCodec)

/-- A frame as it stands in the file: its length as a 32-bit number, then its bytes. -/
def frameBytes (f : DraftFrame) : Bytes := Bytes.le 4 (codec.encode f).length ++ codec.encode f

/-- `append_spill_frame`. -/
def appendSpillFrame (out : AppendOutcome) (file : Option Bytes) (f : DraftFrame) :
    Except Error Unit × Option Bytes :=
  match out with
  | .ok => (.ok (), some (file.getD [] ++ frameBytes codec f))
  | .openFails => (.error .io, file)
  | .writeFails n => (.error .io, some (file.getD [] ++ (frameBytes codec f).take n))

/-- The loop of `read_spill_file`, merging frames into `merged`. Each round takes at least four
bytes, so `fuel` above the length of the file is never used up. -/
def readFrames : ℕ → Bytes → DraftFrame → Except Error DraftFrame
  | 0, _, _ => .error .io
  | fuel + 1, bs, merged =>
    if bs = [] then .ok merged
    else if bs.length < 4 then .error .invalidData
    else
      let len := Bytes.ofLe (bs.take 4)
      let rest := bs.drop 4
      if rest.length < len then .error .io
      else
        match codec.decode (rest.take len) with
        | .error e => .error e
        | .ok f => readFrames fuel (rest.drop len) (merged.mergeFrame f)

/-- `read_spill_file`; `ok` is `false` when opening or reading the file fails. -/
def readSpillFile (ok : Bool) (file : Option Bytes) : Except Error DraftFrame :=
  if ok then
    match file with
    | none => .ok .empty
    | some bs => readFrames codec (bs.length + 1) bs .empty
  else .error .io

/-- `delete_spill_file`; `ok` is `false` when the removal fails. -/
def deleteSpillFile (ok : Bool) (file : Option Bytes) : Except Error Unit × Option Bytes :=
  if ok then (.ok (), none) else (.error .io, file)

/-- The frames are small enough for their length field. -/
def Fits (fs : List DraftFrame) : Prop := ∀ f ∈ fs, f.size < 2 ^ 25

theorem Fits.append_singleton {fs : List DraftFrame} (h : Fits fs) {f : DraftFrame}
    (hf : f.size < 2 ^ 25) : Fits (fs ++ [f]) := by
  intro g hg
  rcases List.mem_append.mp hg with hg | hg
  · exact h g hg
  · rw [List.mem_singleton.mp hg]
    exact hf

variable {codec}

theorem readFrames_frameBytes {f : DraftFrame} (hf : f.size < 2 ^ 25)
    (fuel : ℕ) (rest : Bytes) (merged : DraftFrame) :
    readFrames codec (fuel + 1) (frameBytes codec f ++ rest) merged =
      readFrames codec fuel rest (merged.mergeFrame f) := by
  have henc : (codec.encode f).length < 256 ^ 4 := by
    have := codec.length_encode_le f
    omega
  have hlen : (Bytes.le 4 (codec.encode f).length).length = 4 := Bytes.length_le 4 _
  have htake : (frameBytes codec f ++ rest).take 4 = Bytes.le 4 (codec.encode f).length := by
    rw [frameBytes, List.append_assoc, List.take_left' hlen]
  have hdrop : (frameBytes codec f ++ rest).drop 4 = codec.encode f ++ rest := by
    rw [frameBytes, List.append_assoc, List.drop_left' hlen]
  have hl : 4 ≤ (frameBytes codec f ++ rest).length := by
    rw [frameBytes, List.length_append, List.length_append, hlen]
    omega
  have hne : frameBytes codec f ++ rest ≠ [] := List.ne_nil_of_length_pos (by omega)
  rw [readFrames, if_neg hne, if_neg (by omega), htake, hdrop,
    Bytes.ofLe_le henc]
  dsimp only
  rw [if_neg (by rw [List.length_append]; omega), List.take_left' rfl, List.drop_left' rfl,
    codec.decode_encode f (by omega)]

/-- Whole frames at the start of a file are merged. -/
theorem readFrames_append (codec : FrameCodec) {fs : List DraftFrame} (hfs : Fits fs) (fuel : ℕ)
    (rest : Bytes) (merged : DraftFrame) :
    readFrames codec (fs.length + fuel) (fs.flatMap (frameBytes codec) ++ rest) merged =
      readFrames codec fuel rest (fs.foldl DraftFrame.mergeFrame merged) := by
  induction fs generalizing merged with
  | nil => rw [List.length_nil, Nat.zero_add, List.flatMap_nil, List.nil_append, List.foldl_nil]
  | cons f fs ih =>
    rw [List.length_cons, Nat.add_right_comm, List.flatMap_cons, List.append_assoc,
      readFrames_frameBytes (hfs f List.mem_cons_self),
      ih fun g hg => hfs g (List.mem_cons_of_mem _ hg)]
    rfl

theorem length_le_length_flatMap (codec : FrameCodec) (fs : List DraftFrame) :
    fs.length ≤ (fs.flatMap (frameBytes codec)).length := by
  induction fs with
  | nil => exact Nat.zero_le _
  | cons f fs ih =>
    rw [List.flatMap_cons, List.length_append, List.length_cons, frameBytes, List.length_append,
      Bytes.length_le]
    omega

/-- **Reading back a file that whole frames were appended to.** -/
theorem readSpillFile_flatMap {fs : List DraftFrame} (hfs : Fits fs) {file : Option Bytes}
    (hfile : file.getD [] = fs.flatMap (frameBytes codec)) :
    readSpillFile codec true file = .ok (DraftFrame.mergeAll fs) := by
  simp only [readSpillFile, if_true]
  cases file with
  | none =>
    cases fs with
    | nil => rfl
    | cons f fs =>
      have h := length_le_length_flatMap codec (f :: fs)
      rw [← hfile] at h
      exact absurd h (by simp)
  | some bs =>
    obtain rfl : bs = fs.flatMap (frameBytes codec) := hfile
    obtain ⟨fuel, hfuel⟩ := Nat.exists_eq_add_of_le (length_le_length_flatMap codec fs)
    have h := readFrames_append codec hfs (fuel + 1) [] .empty
    rw [List.append_nil] at h
    dsimp only
    rw [hfuel, Nat.add_assoc, h]
    rfl

end SpillFile

/-! ## The zones -/

/-- `CHUNK_NUM_SHARDS`. -/
def chunkNumShards : ℕ := 16

/-- `CHUNK_SHARD_CAP`. -/
def chunkShardCap : ℕ := 256

/-- `RELFORK_ZONE_CAP`. -/
@[irreducible] def relforkZoneCap : ℕ := 8192

theorem relforkZoneCap_eq : relforkZoneCap = 8192 := by
  unfold relforkZoneCap
  rfl

instance : NeZero chunkNumShards := ⟨by decide⟩

instance : NeZero chunkShardCap := ⟨by decide⟩

instance : NeZero relforkZoneCap := ⟨by rw [relforkZoneCap_eq]; decide⟩

/-- `CHUNK_SHARD_WATERMARK`, at `DRAFT_SPILL_WATERMARK_PCT` = 75 percent. -/
def chunkShardWatermark : ℕ := chunkShardCap * 75 / 100

/-- `RELFORK_ZONE_WATERMARK`. -/
def relforkZoneWatermark : ℕ := relforkZoneCap * 75 / 100

/-- The hash that places a chunk tag. -/
def chunkHash (tag : ChunkTag) : ℕ := tag.hash.toNat

/-- The hash that places a relation fork. -/
def relforkHash (rf : RelFork) : ℕ := rf.hash.toNat

/-- `ChunkShard`. -/
abbrev ChunkShard := ProbeTable chunkShardCap ChunkTag Unit

/-- `ChunkZone`. -/
abbrev ChunkZone := Fin chunkNumShards → ChunkShard

/-- `RelforkZone`. -/
abbrev RelforkZone := ProbeTable relforkZoneCap RelFork RelForkMeta

namespace ChunkZone

/-- `ChunkZone::shard_for`. -/
def shardFor (tag : ChunkTag) : Fin chunkNumShards := Fin.ofNat chunkNumShards (chunkHash tag)

/-- `ChunkZone::init`. -/
def init : ChunkZone := fun _ => .empty

/-- `ChunkZone::insert`: `none` when the shard is full, else whether it crossed the watermark. -/
def insert (z : ChunkZone) (tag : ChunkTag) : Option (ChunkZone × Bool) :=
  match (z (shardFor tag)).insert chunkHash tag () with
  | none => none
  | some (shard, fresh) =>
    some (Function.update z (shardFor tag) shard, fresh && decide (chunkShardWatermark ≤ shard.len))

/-- `ChunkZone::contains`. -/
def contains (z : ChunkZone) (tag : ChunkTag) : Bool :=
  ((z (shardFor tag)).lookup chunkHash tag).isSome

/-- What `ChunkZone::drain_into` collects from an empty set. -/
def toSet (z : ChunkZone) : SortedSet ChunkTag :=
  SortedMap.empty.insertAll ((List.finRange chunkNumShards).flatMap fun s => (z s).toList)

/-- Every shard is well formed and holds its own tags only. -/
def Wf (z : ChunkZone) : Prop :=
  ∀ s, (z s).Wf chunkHash ∧ ∀ slot tag v, (z s).slots slot = some (tag, v) → shardFor tag = s

theorem wf_init : Wf init := fun _ =>
  ⟨ProbeTable.wf_empty _, fun _ _ _ h => absurd h (by simp [init, ProbeTable.empty])⟩

@[simp] theorem contains_init (tag : ChunkTag) : init.contains tag = false := by
  simp [contains, init]

theorem insert_eq_some {z z' : ChunkZone} {tag : ChunkTag} {crossed : Bool}
    (h : z.insert tag = some (z', crossed)) : ∃ shard fresh,
      (z (shardFor tag)).insert chunkHash tag () = some (shard, fresh) ∧
      z' = Function.update z (shardFor tag) shard := by
  rw [insert] at h
  cases hi : (z (shardFor tag)).insert chunkHash tag () with
  | none => rw [hi] at h; exact absurd h (by simp)
  | some p =>
    rw [hi] at h
    exact ⟨p.1, p.2, rfl, (Prod.mk.inj (Option.some.inj h)).1.symm⟩

theorem wf_insert {z z' : ChunkZone} {tag : ChunkTag} {crossed : Bool} (hz : z.Wf)
    (h : z.insert tag = some (z', crossed)) : z'.Wf := by
  obtain ⟨shard, fresh, hi, rfl⟩ := insert_eq_some h
  intro s
  by_cases hs : s = shardFor tag
  · subst hs
    rw [Function.update_self]
    refine ⟨ProbeTable.wf_insert (hz _).1 hi, fun slot tag' v hslot => ?_⟩
    obtain ⟨i, -, hslots⟩ := ProbeTable.insert_eq_some hi
    rw [hslots] at hslot
    by_cases he : slot = ProbeTable.slotAt chunkShardCap (chunkHash tag) i
    · rw [he, Function.update_self] at hslot
      rw [(Prod.mk.inj (Option.some.inj hslot)).1]
    · rw [Function.update_of_ne he] at hslot
      exact (hz _).2 slot tag' v hslot
  · rw [Function.update_of_ne hs]
    exact hz s

theorem contains_insert {z z' : ChunkZone} {tag : ChunkTag} {crossed : Bool} (hz : z.Wf)
    (h : z.insert tag = some (z', crossed)) (tag' : ChunkTag) :
    z'.contains tag' = (decide (tag' = tag) || z.contains tag') := by
  obtain ⟨shard, fresh, hi, rfl⟩ := insert_eq_some h
  rw [contains, contains]
  by_cases hs : shardFor tag' = shardFor tag
  · rw [hs, Function.update_self, ProbeTable.lookup_insert (hz _).1 hi]
    split_ifs with ht <;> simp [ht]
  · have hne : tag' ≠ tag := fun e => hs (by rw [e])
    rw [Function.update_of_ne hs]
    simp [hne]

/-- An empty zone takes a tag without crossing the watermark. -/
theorem insert_init (tag : ChunkTag) : ∃ z, init.insert tag = some (z, false) := by
  obtain ⟨shard, hi, hlen⟩ :=
    ProbeTable.insert_empty chunkShardCap chunkHash tag ()
  refine ⟨Function.update init (shardFor tag) shard, ?_⟩
  rw [insert]
  change (match (ProbeTable.empty : ChunkShard).insert chunkHash tag () with
    | none => none
    | some (shard, fresh) => some (Function.update init (shardFor tag) shard,
        fresh && decide (chunkShardWatermark ≤ shard.len))) = _
  rw [hi]
  dsimp only
  rw [hlen]
  rfl

theorem mem_toList_iff {z : ChunkZone} (hz : z.Wf) {s : Fin chunkNumShards} {tag : ChunkTag}
    {v : Unit} : (tag, v) ∈ (z s).toList ↔
      shardFor tag = s ∧ (z (shardFor tag)).lookup chunkHash tag = some v := by
  rw [ProbeTable.mem_toList_iff (hz s).1]
  constructor
  · intro h
    obtain ⟨slot, hslot⟩ := (ProbeTable.lookup_eq_some_iff (hz s).1).mp h
    have hs := (hz s).2 slot tag v hslot
    exact ⟨hs, by rw [hs]; exact h⟩
  · rintro ⟨rfl, h⟩
    exact h

/-- **A drain collects the tags of the zone.** -/
theorem contains_toSet {z : ChunkZone} (hz : z.Wf) (tag : ChunkTag) :
    SortedSet.contains z.toSet tag = z.contains tag := by
  have hmem : ∀ v, (tag, v) ∈ ((List.finRange chunkNumShards).flatMap fun s => (z s).toList) ↔
      (z (shardFor tag)).lookup chunkHash tag = some v := by
    intro v
    simp only [List.mem_flatMap, List.mem_finRange, true_and, mem_toList_iff hz]
    constructor
    · rintro ⟨s, -, h⟩
      exact h
    · intro h
      exact ⟨_, rfl, h⟩
  rw [SortedSet.contains, toSet, SortedMap.lookup_insertAll_of_mem_iff _ hmem, contains,
    SortedMap.lookup_empty, Option.or_none]

/-- The zone after one shard is drained. -/
theorem wf_update_empty {z : ChunkZone} (hz : z.Wf) (s : Fin chunkNumShards) :
    Wf (Function.update z s .empty) := by
  intro s'
  by_cases hs : s' = s
  · rw [hs, Function.update_self]
    exact wf_init s
  · rw [Function.update_of_ne hs]
    exact hz s'

/-- A drained shard gives up its tags only. -/
theorem contains_update_empty {z : ChunkZone} (hz : z.Wf) {s : Fin chunkNumShards} {tag : ChunkTag}
    (h : z.contains tag = true) :
    contains (Function.update z s .empty) tag = true ∨ (tag, ()) ∈ (z s).toList := by
  by_cases hs : shardFor tag = s
  · obtain ⟨v, hv⟩ := Option.isSome_iff_exists.mp h
    exact .inr ((mem_toList_iff hz).mpr ⟨hs, hv⟩)
  · left
    rw [contains, Function.update_of_ne hs]
    exact h

theorem length_toSet_le (z : ChunkZone) :
    z.toSet.entries.length ≤ chunkNumShards * chunkShardCap := by
  refine (SortedMap.length_insertAll_le _ _).trans ?_
  have hsum : ∀ l : List (Fin chunkNumShards),
      (l.flatMap fun s => (z s).toList).length ≤ l.length * chunkShardCap := by
    intro l
    induction l with
    | nil => simp
    | cons s l ih =>
      have := (z s).length_toList_le
      rw [List.flatMap_cons, List.length_append, List.length_cons, Nat.succ_mul]
      omega
  have := hsum (List.finRange chunkNumShards)
  rw [List.length_finRange] at this
  simpa [SortedMap.empty] using this

end ChunkZone

namespace RelforkZone

/-- `RelforkZone::insert`: `none` when the zone is full, else whether it crossed the watermark. -/
def insert (z : RelforkZone) (rf : RelFork) (m : RelForkMeta) : Option (RelforkZone × Bool) :=
  match ProbeTable.insert relforkHash z rf m with
  | none => none
  | some (z', fresh) => some (z', fresh && decide (relforkZoneWatermark ≤ z'.len))

/-- `RelforkZone::get`. -/
def get (z : RelforkZone) (rf : RelFork) : Option RelForkMeta := z.lookup relforkHash rf

/-- What `RelforkZone::drain_into` collects from an empty map. -/
def toMap (z : RelforkZone) : SortedMap RelFork RelForkMeta := SortedMap.empty.insertAll z.toList

/-- The zone is well formed. -/
def Wf (z : RelforkZone) : Prop := ProbeTable.Wf relforkHash z

theorem insert_eq_some {z z' : RelforkZone} {rf : RelFork} {m : RelForkMeta} {crossed : Bool}
    (h : insert z rf m = some (z', crossed)) :
    ∃ fresh, ProbeTable.insert relforkHash z rf m = some (z', fresh) := by
  unfold insert at h
  cases hi : ProbeTable.insert relforkHash z rf m with
  | none => rw [hi] at h; exact absurd h (by simp)
  | some p =>
    rw [hi] at h
    simp only [Option.some.injEq, Prod.mk.injEq] at h
    exact ⟨p.2, by rw [← h.1]⟩

/-- **A drain collects the entries of the zone.** -/
theorem lookup_toMap {z : RelforkZone} (hz : Wf z) (rf : RelFork) :
    (toMap z).lookup rf = get z rf := by
  have hmem : ∀ m, (rf, m) ∈ z.toList ↔ get z rf = some m := fun m =>
    ProbeTable.mem_toList_iff hz
  rw [toMap, SortedMap.lookup_insertAll_of_mem_iff _ hmem, SortedMap.lookup_empty, Option.or_none]

theorem insert_empty (rf : RelFork) (m : RelForkMeta) :
    ∃ z, insert .empty rf m = some (z, false) := by
  obtain ⟨z, hi, hlen⟩ :=
    ProbeTable.insert_empty relforkZoneCap relforkHash rf m
  have hlow : decide (relforkZoneWatermark ≤ 1) = false := by
    rw [relforkZoneWatermark, relforkZoneCap_eq]
    rfl
  refine ⟨z, ?_⟩
  unfold insert
  rw [hi]
  dsimp only
  rw [hlen, hlow, Bool.and_false]

end RelforkZone

/-! ## The buffer -/

/-- `DraftBuffer`, with its spill file. -/
structure DraftBuffer where
  chunks : ChunkZone
  relforks : RelforkZone
  hasSpilled : Bool
  spillSeq : ℕ
  file : Option Bytes

namespace DraftBuffer

variable (codec : FrameCodec)

/-- `DraftBuffer::init`, which leaves the spill file alone. -/
def init (d : DraftBuffer) : DraftBuffer := ⟨.init, .empty, false, 0, d.file⟩

/-- What a drain of the two zones collects. -/
def zonesFrame (d : DraftBuffer) : DraftFrame := ⟨d.chunks.toSet, RelforkZone.toMap d.relforks⟩

/-- The buffer with both zones emptied. -/
def emptied (d : DraftBuffer) : DraftBuffer := { d with chunks := .init, relforks := .empty }

/-- `DraftBuffer::spill_locked`. -/
def spillLocked (out : AppendOutcome) (d : DraftBuffer) : Except Error Unit × DraftBuffer :=
  if d.zonesFrame.isEmpty then (.ok (), d.emptied)
  else
    match appendSpillFrame codec out d.file d.zonesFrame with
    | (.error e, file) => (.error e, { d.emptied with file := file })
    | (.ok _, file) =>
      (.ok (), { d.emptied with file := file, hasSpilled := true, spillSeq := d.spillSeq + 1 })

/-- `DraftBuffer::spill_to_file`. Sequentially the spill lock is free, so that
`try_spill_to_file` does the same. -/
def spillToFile (out : AppendOutcome) (d : DraftBuffer) : Except Error Unit × DraftBuffer :=
  spillLocked codec out d

/-- The loop of `record_chunk`: a full shard is spilled and the insertion tried again. -/
def recordChunkLoop (out : AppendOutcome) (tag : ChunkTag) :
    ℕ → DraftBuffer → Except Error Unit × DraftBuffer
  | 0, d => (.error .io, d)
  | fuel + 1, d =>
    match d.chunks.insert tag with
    | some (chunks, crossed) =>
      let d' := { d with chunks := chunks }
      -- the result of the spill at the watermark is ignored
      (.ok (), if crossed then (spillToFile codec out d').2 else d')
    | none =>
      match spillToFile codec out d with
      | (.error e, d') => (.error e, d')
      | (.ok _, d') => recordChunkLoop out tag fuel d'

/-- `DraftBuffer::record_chunk`. A spill empties the shard, so the loop runs at most twice and
spills at most once. -/
def recordChunk (out : AppendOutcome) (d : DraftBuffer) (tag : ChunkTag) :
    Except Error Unit × DraftBuffer :=
  recordChunkLoop codec out tag 2 d

/-- The loop of `record_relfork`. -/
def recordRelforkLoop (out : AppendOutcome) (rf : RelFork) (m : RelForkMeta) :
    ℕ → DraftBuffer → Except Error Unit × DraftBuffer
  | 0, d => (.error .io, d)
  | fuel + 1, d =>
    match RelforkZone.insert d.relforks rf m with
    | some (relforks, crossed) =>
      let d' := { d with relforks := relforks }
      (.ok (), if crossed then (spillToFile codec out d').2 else d')
    | none =>
      match spillToFile codec out d with
      | (.error e, d') => (.error e, d')
      | (.ok _, d') => recordRelforkLoop out rf m fuel d'

/-- `DraftBuffer::record_relfork`. -/
def recordRelfork (out : AppendOutcome) (d : DraftBuffer) (rf : RelFork) (m : RelForkMeta) :
    Except Error Unit × DraftBuffer :=
  recordRelforkLoop codec out rf m 2 d

/-- `DraftBuffer::contains_chunk`. -/
def containsChunk (d : DraftBuffer) (tag : ChunkTag) : Bool :=
  if d.chunks.contains tag then true else d.hasSpilled

/-- `DraftBuffer::get_relfork`; `ok` is `false` when reading the spill file fails. -/
def getRelfork (ok : Bool) (d : DraftBuffer) (rf : RelFork) : Except Error (Option RelForkMeta) :=
  match RelforkZone.get d.relforks rf with
  | some m => .ok (some m)
  | none =>
    if !d.hasSpilled then .ok none
    else (readSpillFile codec ok d.file).map fun merged => merged.relforks.lookup rf

/-- The outcomes of the file operations of one drain. -/
structure DrainOutcome where
  append : AppendOutcome
  read : Bool
  delete : Bool

/-- The drain in which every file operation succeeds. -/
def DrainOutcome.ok : DrainOutcome := ⟨.ok, true, true⟩

/-- `DraftBuffer::drain`. -/
def drain (out : DrainOutcome) (d : DraftBuffer) : Except Error DraftFrame × DraftBuffer :=
  match spillToFile codec out.append d with
  | (.error e, d1) => (.error e, d1)
  | (.ok _, d1) =>
    match readSpillFile codec out.read d1.file with
    | .error e => (.error e, d1)
    | .ok merged =>
      match deleteSpillFile out.delete d1.file with
      | (.error e, file) => (.error e, { d1 with file := file })
      | (.ok _, file) => (.ok merged, { d1 with file := file, hasSpilled := false })

end DraftBuffer

end Tiko

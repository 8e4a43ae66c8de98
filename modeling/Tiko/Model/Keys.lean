import Mathlib.Data.Prod.Lex
import Mathlib.Tactic

/-!
# Keys of the storage layer

The identifiers that every layer of the store is indexed by, with the orders Rust derives for
them (field by field, in declaration order):

* `Checkpoint`: a timeline and an LSN; the default checkpoint is timeline `1`, LSN `0`;
* `SegmentId`: the timeline segment file of a checkpoint, `toSegmentId`, and the range filter
  `overlapsRange`;
* `RelFork`, `ChunkTag`: a relation fork and a 256 KB chunk of it, with their FNV-1a hashes;
* `RelForkMeta`: block count and deletion flag of a relation fork.

**`Checkpoint.overlapsRange_of_mem`**: the range filter keeps the segment of every checkpoint of
the range.
-/

namespace Tiko

/-- `TimelineId`, a PostgreSQL timeline. -/
abbrev TimelineId := UInt32

/-- `Lsn`, a position in the write-ahead log. -/
abbrev Lsn := UInt64

/-! ## Checkpoints -/

/-- `Checkpoint`. The derived order is lexicographic: timeline, then LSN. -/
structure Checkpoint where
  timelineId : TimelineId
  lsn : Lsn
  deriving Repr

namespace Checkpoint

/-- `Checkpoint::default()`: `TimelineId::default()` is `1`, `Lsn::default()` is `0`. -/
instance : Inhabited Checkpoint := ⟨⟨1, 0⟩⟩

/-- The pair that orders checkpoints. -/
def key (c : Checkpoint) : ℕ ×ₗ ℕ := toLex (c.timelineId.toNat, c.lsn.toNat)

theorem key_injective : Function.Injective key := by
  rintro ⟨t, l⟩ ⟨t', l'⟩ h
  have h := congrArg ofLex h
  simp only [key, ofLex_toLex, Prod.mk.injEq, UInt32.toNat_inj, UInt64.toNat_inj] at h
  rw [h.1, h.2]

instance : LinearOrder Checkpoint := LinearOrder.lift' key key_injective

theorem lt_iff {c d : Checkpoint} : c < d ↔ c.timelineId.toNat < d.timelineId.toNat ∨
    c.timelineId = d.timelineId ∧ c.lsn.toNat < d.lsn.toNat := by
  change key c < key d ↔ _
  simp [key, Prod.Lex.toLex_lt_toLex, UInt32.toNat_inj]

theorem le_iff {c d : Checkpoint} : c ≤ d ↔ c.timelineId.toNat < d.timelineId.toNat ∨
    c.timelineId = d.timelineId ∧ c.lsn.toNat ≤ d.lsn.toNat := by
  change key c ≤ key d ↔ _
  simp [key, Prod.Lex.toLex_le_toLex, UInt32.toNat_inj]

/-- A checkpoint at an LSN above `0` on a real timeline lies above the default checkpoint. -/
theorem default_lt {c : Checkpoint} (ht : 1 ≤ c.timelineId.toNat) (hl : 0 < c.lsn.toNat) :
    default < c := by
  rw [lt_iff]
  change 1 < c.timelineId.toNat ∨ (1 : UInt32) = c.timelineId ∧ 0 < c.lsn.toNat
  rcases Nat.lt_or_eq_of_le ht with h | h
  · exact .inl h
  · exact .inr ⟨UInt32.toNat_inj.mp h, hl⟩

end Checkpoint

/-! ## Timeline segments -/

/-- `TIMELINE_SEGMENT_LSN_RANGE`: the LSN units covered by one segment file (256 MB). -/
def timelineSegmentLsnRange : UInt64 := 268435456

theorem timelineSegmentLsnRange_toNat : timelineSegmentLsnRange.toNat = 2 ^ 28 := by decide

/-- `SegmentId`, ordered by timeline, then index. -/
structure SegmentId where
  timelineId : TimelineId
  index : UInt64
  deriving Repr

namespace SegmentId

/-- The pair that orders segments. -/
def key (s : SegmentId) : ℕ ×ₗ ℕ := toLex (s.timelineId.toNat, s.index.toNat)

theorem key_injective : Function.Injective key := by
  rintro ⟨t, i⟩ ⟨t', i'⟩ h
  have h := congrArg ofLex h
  simp only [key, ofLex_toLex, Prod.mk.injEq, UInt32.toNat_inj, UInt64.toNat_inj] at h
  rw [h.1, h.2]

instance : LinearOrder SegmentId := LinearOrder.lift' key key_injective

theorem lt_iff {s t : SegmentId} : s < t ↔ s.timelineId.toNat < t.timelineId.toNat ∨
    s.timelineId = t.timelineId ∧ s.index.toNat < t.index.toNat := by
  change key s < key t ↔ _
  simp [key, Prod.Lex.toLex_lt_toLex, UInt32.toNat_inj]

theorem le_iff {s t : SegmentId} : s ≤ t ↔ s.timelineId.toNat < t.timelineId.toNat ∨
    s.timelineId = t.timelineId ∧ s.index.toNat ≤ t.index.toNat := by
  change key s ≤ key t ↔ _
  simp [key, Prod.Lex.toLex_le_toLex, UInt32.toNat_inj]

/-- `u64::saturating_add(1)`. -/
def saturatingSucc (i : UInt64) : UInt64 := if i.toNat + 1 < 2 ^ 64 then i + 1 else i

/-- `SegmentId::overlaps_range`: whether the checkpoints of the segment meet `[low, high]`. -/
def overlapsRange (s : SegmentId) (low high : Checkpoint) : Bool :=
  let segLow : Checkpoint := ⟨s.timelineId, s.index * timelineSegmentLsnRange⟩
  let segHigh : Checkpoint :=
    ⟨s.timelineId, saturatingSucc s.index * timelineSegmentLsnRange - 1⟩
  decide (low ≤ segHigh) && decide (segLow ≤ high)

end SegmentId

/-- `Checkpoint::to_segment_id`. -/
def Checkpoint.toSegmentId (c : Checkpoint) : SegmentId :=
  ⟨c.timelineId, c.lsn / timelineSegmentLsnRange⟩

theorem Checkpoint.toSegmentId_index (c : Checkpoint) :
    c.toSegmentId.index.toNat = c.lsn.toNat / 2 ^ 28 := by
  simp [toSegmentId, timelineSegmentLsnRange_toNat]

/-- Later checkpoints lie in the same or a later segment. -/
theorem Checkpoint.toSegmentId_mono : Monotone Checkpoint.toSegmentId := by
  intro c d h
  rw [SegmentId.le_iff, toSegmentId_index, toSegmentId_index]
  rcases le_iff.mp h with h | ⟨h, h'⟩
  · exact .inl h
  · exact .inr ⟨h, Nat.div_le_div_right h'⟩

/-- The lowest LSN of a checkpoint's segment. -/
theorem Checkpoint.segLow_toNat (c : Checkpoint) :
    (c.toSegmentId.index * timelineSegmentLsnRange).toNat = c.lsn.toNat / 2 ^ 28 * 2 ^ 28 := by
  have := c.lsn.toNat_lt
  rw [UInt64.toNat_mul, timelineSegmentLsnRange_toNat, toSegmentId_index, Nat.mod_eq_of_lt]
  omega

/-- The highest LSN of a checkpoint's segment. For the last segment the product wraps to `0` and
the difference wraps back to the largest LSN. -/
theorem Checkpoint.segHigh_toNat (c : Checkpoint) :
    (SegmentId.saturatingSucc c.toSegmentId.index * timelineSegmentLsnRange - 1).toNat =
      c.lsn.toNat / 2 ^ 28 * 2 ^ 28 + (2 ^ 28 - 1) := by
  have hc := c.lsn.toNat_lt
  have hi := c.toSegmentId_index
  have hlt : c.toSegmentId.index.toNat + 1 < 2 ^ 64 := by omega
  rw [SegmentId.saturatingSucc, if_pos hlt, UInt64.toNat_sub, UInt64.toNat_mul, UInt64.toNat_add,
    timelineSegmentLsnRange_toNat, hi, UInt64.toNat_one]
  omega

/-- The range filter keeps every segment between those of its bounds. -/
theorem Checkpoint.overlapsRange_of_le {c low high : Checkpoint}
    (hl : low.toSegmentId ≤ c.toSegmentId) (hh : c.toSegmentId ≤ high.toSegmentId) :
    c.toSegmentId.overlapsRange low high = true := by
  have h1 := c.segLow_toNat
  have h2 := c.segHigh_toNat
  simp only [SegmentId.overlapsRange, Bool.and_eq_true, decide_eq_true_eq, le_iff]
  rw [SegmentId.le_iff, toSegmentId_index, toSegmentId_index] at hl hh
  refine ⟨?_, ?_⟩
  · rcases hl with h | ⟨h, h'⟩
    · exact .inl h
    · exact .inr ⟨h, by omega⟩
  · rcases hh with h | ⟨h, h'⟩
    · exact .inl h
    · exact .inr ⟨h, by omega⟩

theorem Checkpoint.toSegmentId_le_of_overlapsRange {c low high : Checkpoint}
    (h : c.toSegmentId.overlapsRange low high = true) : c.toSegmentId ≤ high.toSegmentId := by
  have h1 := c.segLow_toNat
  simp only [SegmentId.overlapsRange, Bool.and_eq_true, decide_eq_true_eq, le_iff] at h
  rw [SegmentId.le_iff, toSegmentId_index, toSegmentId_index]
  rcases h.2 with h | ⟨h, h'⟩
  · exact .inl h
  · exact .inr ⟨h, by omega⟩

/-- **The range filter keeps the segment of every checkpoint of the range.** -/
theorem Checkpoint.overlapsRange_of_mem {c low high : Checkpoint} (hl : low ≤ c) (hh : c ≤ high) :
    c.toSegmentId.overlapsRange low high = true :=
  overlapsRange_of_le (toSegmentId_mono hl) (toSegmentId_mono hh)

/-! ## Relation forks and chunks -/

/-- `RelFork`: tablespace, database, relation and fork number. -/
structure RelFork where
  spcOid : UInt32
  dbOid : UInt32
  relNumber : UInt32
  forkNumber : Int32
  deriving Repr

/-- `ChunkTag`: a relation fork and the index of a 32-block chunk in it. -/
structure ChunkTag where
  spcOid : UInt32
  dbOid : UInt32
  relNumber : UInt32
  forkNumber : Int32
  chunkId : UInt32
  deriving Repr

/-- `RelForkMeta`. -/
structure RelForkMeta where
  nblocks : UInt32
  deleted : Bool
  deriving DecidableEq, Repr

instance : Inhabited RelFork := ⟨⟨0, 0, 0, 0⟩⟩

instance : Inhabited ChunkTag := ⟨⟨0, 0, 0, 0, 0⟩⟩

instance : Inhabited RelForkMeta := ⟨⟨0, false⟩⟩

/-- `RelFork::from(&ChunkTag)`. -/
def ChunkTag.relFork (t : ChunkTag) : RelFork := ⟨t.spcOid, t.dbOid, t.relNumber, t.forkNumber⟩

/-- The tuple that orders relation forks; fork numbers are signed. -/
def RelFork.key (r : RelFork) : ℕ ×ₗ ℕ ×ₗ ℕ ×ₗ ℤ :=
  toLex (r.spcOid.toNat, toLex (r.dbOid.toNat, toLex (r.relNumber.toNat, r.forkNumber.toInt)))

theorem RelFork.key_injective : Function.Injective RelFork.key := by
  rintro ⟨s, d, r, f⟩ ⟨s', d', r', f'⟩ h
  simp only [key, toLex_inj, Prod.mk.injEq, UInt32.toNat_inj, Int32.toInt_inj] at h
  obtain ⟨rfl, rfl, rfl, rfl⟩ := h
  rfl

instance : LinearOrder RelFork := LinearOrder.lift' RelFork.key RelFork.key_injective

/-- The tuple that orders chunk tags. -/
def ChunkTag.key (t : ChunkTag) : ℕ ×ₗ ℕ ×ₗ ℕ ×ₗ ℤ ×ₗ ℕ :=
  toLex (t.spcOid.toNat, toLex (t.dbOid.toNat, toLex (t.relNumber.toNat,
    toLex (t.forkNumber.toInt, t.chunkId.toNat))))

theorem ChunkTag.key_injective : Function.Injective ChunkTag.key := by
  rintro ⟨s, d, r, f, c⟩ ⟨s', d', r', f', c'⟩ h
  simp only [key, toLex_inj, Prod.mk.injEq, UInt32.toNat_inj, Int32.toInt_inj] at h
  obtain ⟨rfl, rfl, rfl, rfl, rfl⟩ := h
  rfl

instance : LinearOrder ChunkTag := LinearOrder.lift' ChunkTag.key ChunkTag.key_injective

/-! ## Hashes -/

/-- One byte of FNV-1a. -/
def fnvByte (h : UInt32) (b : UInt8) : UInt32 := (h ^^^ b.toUInt32) * 16777619

/-- The four little-endian bytes of a word. -/
def leBytes (x : UInt32) : List UInt8 :=
  [x.toUInt8, (x >>> 8).toUInt8, (x >>> 16).toUInt8, (x >>> 24).toUInt8]

/-- FNV-1a over little-endian words, from `FNV_OFFSET`. -/
def fnv (words : List UInt32) : UInt32 := (words.flatMap leBytes).foldl fnvByte 2166136261

/-- `RelFork::hash`. -/
def RelFork.hash (r : RelFork) : UInt32 := fnv [r.spcOid, r.dbOid, r.relNumber, r.forkNumber.toUInt32]

/-- `ChunkTag::hash`. -/
def ChunkTag.hash (t : ChunkTag) : UInt32 :=
  fnv [t.spcOid, t.dbOid, t.relNumber, t.forkNumber.toUInt32, t.chunkId]

end Tiko

import Tiko.Lib.Iter
import Tiko.Model.Keys

/-!
# Block ranges by chunk

`chunkBlockRange` walks the chunks that a range of blocks touches, with the part of the caller's
buffer that belongs to each. Block numbers are `u32`; the bounds of a chunk are computed from its
number, the upper one as the start of the next chunk less one.

* `ChunkTagIter`: the iterator, `next` and `sizeHint`;
* `ChunkTagIter.NextOk`, `RangeOk`: no operation leaves the `u32` range;
* `SplitsRange`: the items split the range, with no overflow.

**`splitsRange_iff`**: the iterator is right for the ranges that end below the last chunk of a maximal
relation, whose next chunk would start at `2 ^ 32`.
-/

namespace Tiko

open Lib

/-- `BLCKSZ`. -/
def blcksz : ℕ := 8192

/-! ## The iterator -/

namespace ChunkTag

/-- `BLOCKS_PER_CHUNK`. -/
def blocksPerChunk : UInt32 := 32

theorem blocksPerChunk_toNat : blocksPerChunk.toNat = 32 := by decide

/-- `ChunkTag::from_block`. -/
def fromBlock (rf : RelFork) (blkno : UInt32) : ChunkTag :=
  ⟨rf.spcOid, rf.dbOid, rf.relNumber, rf.forkNumber, blkno / blocksPerChunk⟩

/-- `ChunkTag::start_block`. -/
def startBlock (t : ChunkTag) : UInt32 := t.chunkId * blocksPerChunk

/-- `ChunkTag::end_block_exclusive`. -/
def endBlockExclusive (t : ChunkTag) : UInt32 := (t.chunkId + 1) * blocksPerChunk

/-- `ChunkTag::end_block`. -/
def endBlock (t : ChunkTag) : UInt32 := t.endBlockExclusive - 1

end ChunkTag

/-- `ChunkTagIterItem`. -/
structure ChunkTagIterItem where
  tag : ChunkTag
  isFullChunk : Bool
  blockOffset : UInt32
  bufOffset : ℕ
  bufEnd : ℕ

/-- `ChunkTagIter`. -/
structure ChunkTagIter where
  current : ChunkTag
  endId : UInt32
  blkno : UInt32
  startBlock : UInt32
  endBlock : UInt32

namespace ChunkTagIter

/-- `Iterator::next`, with the iterator after the call. -/
def next (it : ChunkTagIter) : Option ChunkTagIterItem × ChunkTagIter :=
  if it.current.chunkId > it.endId then (none, it)
  else
    let tag := it.current
    let nblks := min tag.endBlock it.endBlock - it.blkno + 1
    let bufOffset := (it.blkno - it.startBlock).toNat * blcksz
    (some
      { tag
        isFullChunk := nblks == ChunkTag.blocksPerChunk
        blockOffset := it.blkno - tag.startBlock
        bufOffset
        bufEnd := bufOffset + nblks.toNat * blcksz },
      { it with
        blkno := it.blkno + nblks
        current := { it.current with chunkId := it.current.chunkId + 1 } })

/-- `Iterator::size_hint`. -/
def sizeHint (it : ChunkTagIter) : ℕ := (it.endId + 1).toNat - it.current.chunkId.toNat

/-- The `u32` operations of `next` and `size_hint` do not overflow. -/
def NextOk (it : ChunkTagIter) : Prop :=
  it.endId.toNat + 1 < 2 ^ 32 ∧
    (it.current.chunkId ≤ it.endId →
      let chunk := it.current.chunkId.toNat
      let last := min ((chunk + 1) * 32 - 1) it.endBlock.toNat
      (chunk + 1) * 32 < 2 ^ 32 ∧ it.blkno.toNat ≤ last ∧ last - it.blkno.toNat + 1 < 2 ^ 32 ∧
        chunk * 32 ≤ it.blkno.toNat ∧ it.startBlock ≤ it.blkno ∧
        it.blkno.toNat + (last - it.blkno.toNat + 1) < 2 ^ 32)

end ChunkTagIter

/-- `ChunkTag::range`. -/
def ChunkTag.range (t tEnd : ChunkTag) (startBlock endBlock : UInt32) : ChunkTagIter :=
  ⟨t, tEnd.chunkId, startBlock, startBlock, endBlock⟩

/-- `RelFork::chunk_block_range`. -/
def RelFork.chunkBlockRange (rf : RelFork) (startBlock nblocks : UInt32) : ChunkTagIter :=
  let endBlock := startBlock + nblocks - 1
  (ChunkTag.fromBlock rf startBlock).range (ChunkTag.fromBlock rf endBlock) startBlock endBlock

/-- The `u32` operations of `chunk_block_range` do not overflow. -/
def RangeOk (startBlock nblocks : UInt32) : Prop :=
  startBlock.toNat + nblocks.toNat < 2 ^ 32 ∧ 1 ≤ startBlock.toNat + nblocks.toNat

/-! ## What the iterator promises -/

/-- The blocks `[s, s + n)` of a fork by chunk: the items that the calls of `next` return, the chunks
that they name, the parts of the buffer, and no overflow on the way. -/
structure SplitsRange (rf : RelFork) (s n : UInt32) (items : List ChunkTagIterItem) : Prop where
  yields : Iter.Yields ChunkTagIter.next (rf.chunkBlockRange s n) items
  tag : ∀ k item, items[k]? = some item →
    item.tag.relFork = rf ∧ item.tag.chunkId.toNat = s.toNat / 32 + k
  tiles : Tiles 0 (items.map fun item => (item.bufOffset, item.bufEnd)) (n.toNat * blcksz)
  block : ∀ item ∈ items, item.bufOffset + s.toNat * blcksz =
    (item.tag.startBlock.toNat + item.blockOffset.toNat) * blcksz
  full : ∀ item ∈ items, item.isFullChunk = true ↔
    ∀ b, item.tag.startBlock.toNat ≤ b → b < item.tag.startBlock.toNat + 32 →
      s.toNat ≤ b ∧ b < s.toNat + n.toNat
  hint : ∀ k, (Iter.after ChunkTagIter.next (rf.chunkBlockRange s n) k).sizeHint = items.length - k
  rangeOk : RangeOk s n
  nextOk : ∀ k, (Iter.after ChunkTagIter.next (rf.chunkBlockRange s n) k).NextOk

/-! ## The cuts of a range -/

/-- The number of chunks that `[s, s + n)` touches. -/
def chunkCount (s n : ℕ) : ℕ := (s + n - 1) / 32 - s / 32 + 1

/-- Where the `k`-th chunk of `[s, s + n)` begins in it. -/
def cut (s n k : ℕ) : ℕ := max s (min (32 * (s / 32 + k)) (s + n))

section Cuts

variable {s n k : ℕ}

theorem cut_zero (hn : 1 ≤ n) : cut s n 0 = s := by
  unfold cut
  omega

theorem cut_chunkCount (hn : 1 ≤ n) : cut s n (chunkCount s n) = s + n := by
  unfold cut chunkCount
  omega

theorem cut_succ (hn : 1 ≤ n) :
    cut s n (k + 1) = min (32 * (s / 32 + k) + 31) (s + n - 1) + 1 := by
  unfold cut
  omega

/-- The `k`-th part begins in the `k`-th chunk. -/
theorem cut_mem (hn : 1 ≤ n) (hk : k < chunkCount s n) :
    32 * (s / 32 + k) ≤ cut s n k ∧ cut s n k ≤ 32 * (s / 32 + k) + 31 ∧ s ≤ cut s n k ∧
      cut s n k ≤ s + n - 1 := by
  unfold cut
  unfold chunkCount at hk
  omega

theorem cut_lt (hn : 1 ≤ n) (hk : k < chunkCount s n) : cut s n k < cut s n (k + 1) := by
  have h := cut_mem hn hk
  rw [cut_succ hn]
  omega

theorem cut_le (hn : 1 ≤ n) : cut s n k ≤ s + n := by
  unfold cut
  omega

end Cuts

/-! ## The states of the iterator -/

namespace ChunkTagIter

variable (rf : RelFork) (s n : UInt32)

/-- The chunk with index `k` in the range. -/
def nthTag (k : ℕ) : ChunkTag :=
  ⟨rf.spcOid, rf.dbOid, rf.relNumber, rf.forkNumber, UInt32.ofNat (s.toNat / 32 + k)⟩

/-- The iterator after `k` items. -/
def nthState (k : ℕ) : ChunkTagIter :=
  { current := nthTag rf s k
    endId := UInt32.ofNat ((s.toNat + n.toNat - 1) / 32)
    blkno := UInt32.ofNat (cut s.toNat n.toNat k)
    startBlock := s
    endBlock := s + n - 1 }

/-- The item with index `k`. -/
def nthItem (k : ℕ) : ChunkTagIterItem :=
  { tag := nthTag rf s k
    isFullChunk := cut s.toNat n.toNat (k + 1) - cut s.toNat n.toNat k == 32
    blockOffset := UInt32.ofNat (cut s.toNat n.toNat k - 32 * (s.toNat / 32 + k))
    bufOffset := (cut s.toNat n.toNat k - s.toNat) * blcksz
    bufEnd := (cut s.toNat n.toNat (k + 1) - s.toNat) * blcksz }

variable {rf s n} {k : ℕ}

theorem toNat_ofNat_lt {x : ℕ} (h : x < 2 ^ 32) : (UInt32.ofNat x).toNat = x := by
  rw [UInt32.toNat_ofNat', Nat.mod_eq_of_lt h]

theorem toNat_min (a b : UInt32) : (min a b).toNat = min a.toNat b.toNat := by
  change (if a ≤ b then a else b).toNat = _
  split_ifs with h
  · exact (min_eq_left (UInt32.le_iff_toNat_le.mp h)).symm
  · rw [UInt32.le_iff_toNat_le, not_le] at h
    exact (min_eq_right h.le).symm

theorem endBlock_toNat (hn : 1 ≤ n.toNat) (hsn : s.toNat + n.toNat ≤ 2 ^ 32 - 1) :
    (s + n - 1).toNat = s.toNat + n.toNat - 1 := by
  rw [UInt32.toNat_sub, UInt32.toNat_add, UInt32.toNat_one]
  omega

variable (rf) in
theorem chunkId_toNat (hn : 1 ≤ n.toNat) (hsn : s.toNat + n.toNat ≤ 2 ^ 32 - 1)
    (hk : k ≤ chunkCount s.toNat n.toNat) :
    (nthTag rf s k).chunkId.toNat = s.toNat / 32 + k := by
  apply toNat_ofNat_lt
  unfold chunkCount at hk
  omega

variable (rf k) in
theorem endId_toNat (hsn : s.toNat + n.toNat ≤ 2 ^ 32 - 1) :
    (nthState rf s n k).endId.toNat = (s.toNat + n.toNat - 1) / 32 := by
  apply toNat_ofNat_lt
  omega

variable (rf k) in
theorem blkno_toNat (hn : 1 ≤ n.toNat) (hsn : s.toNat + n.toNat ≤ 2 ^ 32 - 1) :
    (nthState rf s n k).blkno.toNat = cut s.toNat n.toNat k := by
  apply toNat_ofNat_lt
  have := cut_le (s := s.toNat) (k := k) hn
  omega

variable (rf) in
theorem startBlock_toNat (hn : 1 ≤ n.toNat) (hsn : s.toNat + n.toNat ≤ 2 ^ 32 - 1)
    (hk : k < chunkCount s.toNat n.toNat) :
    (nthTag rf s k).startBlock.toNat = 32 * (s.toNat / 32 + k) := by
  have hid := chunkId_toNat rf hn hsn hk.le
  unfold chunkCount at hk
  rw [ChunkTag.startBlock, UInt32.toNat_mul, hid, ChunkTag.blocksPerChunk_toNat]
  omega

/-- The last block of a chunk. In the last chunk of a maximal relation the product wraps to `0` and the
difference wraps back. -/
theorem tag_endBlock_toNat (hn : 1 ≤ n.toNat) (hsn : s.toNat + n.toNat ≤ 2 ^ 32 - 1)
    (hk : k < chunkCount s.toNat n.toNat) :
    (nthTag rf s k).endBlock.toNat = 32 * (s.toNat / 32 + k) + 31 := by
  have hid := chunkId_toNat rf hn hsn hk.le
  unfold chunkCount at hk
  rw [ChunkTag.endBlock, ChunkTag.endBlockExclusive, UInt32.toNat_sub, UInt32.toNat_mul,
    UInt32.toNat_add, hid, ChunkTag.blocksPerChunk_toNat, UInt32.toNat_one]
  omega

variable (rf) in
/-- The number of blocks of the chunk that are in the range. -/
theorem nblks_toNat (hn : 1 ≤ n.toNat) (hsn : s.toNat + n.toNat ≤ 2 ^ 32 - 1)
    (hk : k < chunkCount s.toNat n.toNat) :
    (min (nthTag rf s k).endBlock (s + n - 1) - (nthState rf s n k).blkno + 1).toNat =
      cut s.toNat n.toNat (k + 1) - cut s.toNat n.toNat k := by
  have hmin : (min (nthTag rf s k).endBlock (s + n - 1)).toNat =
      min (32 * (s.toNat / 32 + k) + 31) (s.toNat + n.toNat - 1) := by
    rw [toNat_min, tag_endBlock_toNat hn hsn hk, endBlock_toNat hn hsn]
  have hmem := cut_mem hn hk
  rw [UInt32.toNat_add, UInt32.toNat_sub, UInt32.toNat_one, hmin, blkno_toNat _ _ hn hsn, cut_succ hn]
  omega

/-- A call of `next` on the way. -/
theorem next_nthState (hn : 1 ≤ n.toNat) (hsn : s.toNat + n.toNat ≤ 2 ^ 32 - 1)
    (hk : k < chunkCount s.toNat n.toNat) :
    (nthState rf s n k).next = (some (nthItem rf s n k), nthState rf s n (k + 1)) := by
  have hid := chunkId_toNat rf hn hsn hk.le
  have hend := endId_toNat rf k hsn
  have hmem := cut_mem hn hk
  have hlt := cut_lt hn hk
  have hle := cut_le (s := s.toNat) (k := k + 1) hn
  have hnblks := nblks_toNat rf hn hsn hk
  have hblkno := blkno_toNat rf k hn hsn
  have hguard : ¬ (nthState rf s n k).current.chunkId > (nthState rf s n k).endId := by
    rw [gt_iff_lt, UInt32.lt_iff_toNat_lt, hend]
    change ¬ _ < (nthTag rf s k).chunkId.toNat
    rw [hid]
    unfold chunkCount at hk
    omega
  have hstart := startBlock_toNat rf hn hsn hk
  rw [next, if_neg hguard]
  change (some _, _) = (some _, _)
  generalize hnb : min (nthState rf s n k).current.endBlock (nthState rf s n k).endBlock -
    (nthState rf s n k).blkno + 1 = nb
  have hnb' : nb.toNat = cut s.toNat n.toNat (k + 1) - cut s.toNat n.toNat k := by
    rw [← hnblks, ← hnb]
    rfl
  have hfull : (nb == ChunkTag.blocksPerChunk) =
      (cut s.toNat n.toNat (k + 1) - cut s.toNat n.toNat k == 32) := by
    rw [Bool.eq_iff_iff, beq_iff_eq, beq_iff_eq, ← hnb', ← UInt32.toNat_inj,
      ChunkTag.blocksPerChunk_toNat]
  have hoff : ((nthState rf s n k).blkno - (nthTag rf s k).startBlock) =
      UInt32.ofNat (cut s.toNat n.toNat k - 32 * (s.toNat / 32 + k)) := by
    rw [← UInt32.toNat_inj, UInt32.toNat_sub, hblkno, hstart, UInt32.toNat_ofNat']
    omega
  have hbuf : ((nthState rf s n k).blkno - (nthState rf s n k).startBlock).toNat =
      cut s.toNat n.toNat k - s.toNat := by
    rw [UInt32.toNat_sub, hblkno]
    change (2 ^ 32 - s.toNat + _) % _ = _
    omega
  have hnext : (nthState rf s n k).blkno + nb = UInt32.ofNat (cut s.toNat n.toNat (k + 1)) := by
    rw [← UInt32.toNat_inj, UInt32.toNat_add, hblkno, hnb', UInt32.toNat_ofNat']
    omega
  have hcur : (nthTag rf s k).chunkId + 1 = UInt32.ofNat (s.toNat / 32 + (k + 1)) := by
    rw [← UInt32.toNat_inj, UInt32.toNat_add, hid, UInt32.toNat_ofNat', UInt32.toNat_one,
      Nat.add_assoc]
  refine Prod.ext (congrArg some ?_) ?_
  · rw [nthItem, ChunkTagIterItem.mk.injEq]
    refine ⟨rfl, hfull, hoff, ?_, ?_⟩
    · rw [hbuf]
    · rw [hbuf, hnb', ← Nat.add_mul]
      congr 1
      omega
  · rw [nthState, ChunkTagIter.mk.injEq]
    refine ⟨?_, rfl, hnext, rfl, rfl⟩
    rw [nthTag, ChunkTag.mk.injEq]
    exact ⟨rfl, rfl, rfl, rfl, hcur⟩

/-- The call of `next` at the end. -/
theorem next_last (hn : 1 ≤ n.toNat) (hsn : s.toNat + n.toNat ≤ 2 ^ 32 - 1) :
    (nthState rf s n (chunkCount s.toNat n.toNat)).next =
      (none, nthState rf s n (chunkCount s.toNat n.toNat)) := by
  have hid := chunkId_toNat rf hn hsn le_rfl
  rw [next, if_pos]
  rw [gt_iff_lt, UInt32.lt_iff_toNat_lt, endId_toNat _ _ hsn]
  change _ < (nthTag rf s _).chunkId.toNat
  rw [hid, chunkCount]
  omega

theorem nthState_zero (hn : 1 ≤ n.toNat) (hsn : s.toNat + n.toNat ≤ 2 ^ 32 - 1) :
    nthState rf s n 0 = rf.chunkBlockRange s n := by
  have hend := endBlock_toNat hn hsn
  have hid : UInt32.ofNat (s.toNat / 32 + 0) = s / ChunkTag.blocksPerChunk := by
    rw [← UInt32.toNat_inj, UInt32.toNat_ofNat', UInt32.toNat_div, ChunkTag.blocksPerChunk_toNat]
    omega
  have hendId : UInt32.ofNat ((s.toNat + n.toNat - 1) / 32) =
      (s + n - 1) / ChunkTag.blocksPerChunk := by
    rw [← UInt32.toNat_inj, UInt32.toNat_ofNat', UInt32.toNat_div, hend,
      ChunkTag.blocksPerChunk_toNat]
    omega
  have hcut : UInt32.ofNat (cut s.toNat n.toNat 0) = s := by
    rw [cut_zero hn, UInt32.ofNat_toNat]
  unfold nthState nthTag RelFork.chunkBlockRange ChunkTag.range ChunkTag.fromBlock
  rw [hid, hendId, hcut]

theorem after_eq (hn : 1 ≤ n.toNat) (hsn : s.toNat + n.toNat ≤ 2 ^ 32 - 1) :
    Iter.after next (rf.chunkBlockRange s n) k =
      nthState rf s n (min k (chunkCount s.toNat n.toNat)) := by
  have hstep : ∀ k < chunkCount s.toNat n.toNat,
      (nthState rf s n k).next.2 = nthState rf s n (k + 1) := fun k hk => by
    rw [next_nthState hn hsn hk]
  rcases Nat.le_total k (chunkCount s.toNat n.toNat) with hk | hk
  · rw [min_eq_left hk]
    exact Iter.after_eq (nthState_zero hn hsn) hstep k hk
  · rw [min_eq_right hk]
    exact Iter.after_last (nthState_zero hn hsn) hstep (by rw [next_last hn hsn]) k hk

/-- The items of a range. -/
def itemsOf (rf : RelFork) (s n : UInt32) : List ChunkTagIterItem :=
  (List.range (chunkCount s.toNat n.toNat)).map (nthItem rf s n)

theorem yields_itemsOf (hn : 1 ≤ n.toNat) (hsn : s.toNat + n.toNat ≤ 2 ^ 32 - 1) :
    Iter.Yields next (rf.chunkBlockRange s n) (itemsOf rf s n) :=
  Iter.Yields.of_states (nthState_zero hn hsn) (fun _ hk => next_nthState hn hsn hk)
    (next_last hn hsn)

theorem tiles_itemsOf (hn : 1 ≤ n.toNat) :
    Tiles 0 ((itemsOf rf s n).map fun item => (item.bufOffset, item.bufEnd)) (n.toNat * blcksz) := by
  have h : Tiles ((cut s.toNat n.toNat 0 - s.toNat) * blcksz)
      ((List.range (chunkCount s.toNat n.toNat)).map fun k =>
        ((cut s.toNat n.toNat k - s.toNat) * blcksz, (cut s.toNat n.toNat (k + 1) - s.toNat) * blcksz))
      ((cut s.toNat n.toNat (chunkCount s.toNat n.toNat) - s.toNat) * blcksz) := by
    apply tiles_of_lt (f := fun k => (cut s.toNat n.toNat k - s.toNat) * blcksz)
    intro k hk
    have hlt := cut_lt hn hk
    have hmem := cut_mem hn hk
    exact Nat.mul_lt_mul_of_pos_right (by omega) (by decide)
  rw [cut_zero hn, cut_chunkCount hn, Nat.sub_self, Nat.zero_mul, Nat.add_sub_cancel_left] at h
  rw [itemsOf, List.map_map]
  exact h

theorem mem_itemsOf {item : ChunkTagIterItem} (h : item ∈ itemsOf rf s n) :
    ∃ k < chunkCount s.toNat n.toNat, item = nthItem rf s n k := by
  obtain ⟨k, hk, rfl⟩ := List.mem_map.mp h
  exact ⟨k, List.mem_range.mp hk, rfl⟩

theorem blockOffset_toNat (hn : 1 ≤ n.toNat) (hk : k < chunkCount s.toNat n.toNat) :
    (nthItem rf s n k).blockOffset.toNat = cut s.toNat n.toNat k - 32 * (s.toNat / 32 + k) := by
  apply toNat_ofNat_lt
  have := cut_mem hn hk
  omega

/-- The part of an item begins at its first block. -/
theorem block_itemsOf {item : ChunkTagIterItem} (hn : 1 ≤ n.toNat)
    (hsn : s.toNat + n.toNat ≤ 2 ^ 32 - 1) (h : item ∈ itemsOf rf s n) :
    item.bufOffset + s.toNat * blcksz =
      (item.tag.startBlock.toNat + item.blockOffset.toNat) * blcksz := by
  obtain ⟨k, hk, rfl⟩ := mem_itemsOf h
  have hmem := cut_mem hn hk
  rw [blockOffset_toNat hn hk]
  change (cut s.toNat n.toNat k - s.toNat) * blcksz + _ = ((nthTag rf s k).startBlock.toNat + _) * _
  rw [startBlock_toNat _ hn hsn hk, ← Nat.add_mul]
  congr 1
  omega

theorem full_iff (hn : 1 ≤ n.toNat) (hk : k < chunkCount s.toNat n.toNat) :
    (nthItem rf s n k).isFullChunk = true ↔
      ∀ b, 32 * (s.toNat / 32 + k) ≤ b → b < 32 * (s.toNat / 32 + k) + 32 →
        s.toNat ≤ b ∧ b < s.toNat + n.toNat := by
  have hmem := cut_mem hn hk
  have hsucc := cut_succ (s := s.toNat) (k := k) hn
  rw [nthItem, beq_iff_eq, hsucc]
  constructor
  · intro h b hb hb'
    omega
  · intro h
    have hfirst := h (32 * (s.toNat / 32 + k)) le_rfl (by omega)
    have hlast := h (32 * (s.toNat / 32 + k) + 31) (by omega) (by omega)
    -- a chunk whose first block is in the range is cut at its start
    have hcut : cut s.toNat n.toNat k = 32 * (s.toNat / 32 + k) := by
      unfold cut
      omega
    omega

theorem sizeHint_nthState (hn : 1 ≤ n.toNat) (hsn : s.toNat + n.toNat ≤ 2 ^ 32 - 1)
    (hk : k ≤ chunkCount s.toNat n.toNat) :
    (nthState rf s n k).sizeHint = chunkCount s.toNat n.toNat - k := by
  have hid := chunkId_toNat rf hn hsn hk
  have hend := endId_toNat rf k hsn
  rw [sizeHint, UInt32.toNat_add, hend, UInt32.toNat_one]
  change _ - (nthTag rf s k).chunkId.toNat = _
  rw [hid]
  unfold chunkCount
  omega

/-- The operations of one call overflow in the last chunk of a maximal relation, and in no other. -/
theorem nextOk_nthState (hn : 1 ≤ n.toNat) (hsn : s.toNat + n.toNat ≤ 2 ^ 32 - 1)
    (hk : k < chunkCount s.toNat n.toNat) :
    (nthState rf s n k).NextOk ↔ s.toNat / 32 + k < 2 ^ 27 - 1 := by
  have hid : (nthState rf s n k).current.chunkId.toNat = s.toNat / 32 + k :=
    chunkId_toNat _ hn hsn hk.le
  have hstart : (nthState rf s n k).startBlock.toNat = s.toNat := rfl
  have hlast : (nthState rf s n k).endBlock.toNat = s.toNat + n.toNat - 1 := endBlock_toNat hn hsn
  have hmem := cut_mem hn hk
  simp only [NextOk, UInt32.le_iff_toNat_le, hid, hstart, hlast, endId_toNat _ _ hsn,
    blkno_toNat _ _ hn hsn]
  unfold chunkCount at hk
  omega

theorem nextOk_iff (hn : 1 ≤ n.toNat) (hsn : s.toNat + n.toNat ≤ 2 ^ 32 - 1) :
    (∀ k, (Iter.after next (rf.chunkBlockRange s n) k).NextOk) ↔
      s.toNat + n.toNat ≤ 2 ^ 32 - 32 := by
  constructor
  · intro h
    -- the call that returns the last item
    have hk : chunkCount s.toNat n.toNat - 1 < chunkCount s.toNat n.toNat := by
      unfold chunkCount
      omega
    have hlast := h (chunkCount s.toNat n.toNat - 1)
    rw [after_eq hn hsn, min_eq_left hk.le, nextOk_nthState hn hsn hk] at hlast
    unfold chunkCount at hlast
    omega
  · intro h k
    rw [after_eq hn hsn]
    by_cases hk : k < chunkCount s.toNat n.toNat
    · rw [min_eq_left hk.le, nextOk_nthState hn hsn hk]
      unfold chunkCount at hk
      omega
    · rw [min_eq_right (not_lt.mp hk)]
      have hdone : ¬ (nthState rf s n (chunkCount s.toNat n.toNat)).current.chunkId ≤
          (nthState rf s n (chunkCount s.toNat n.toNat)).endId := by
        have hid := chunkId_toNat rf hn hsn le_rfl
        rw [UInt32.le_iff_toNat_le, endId_toNat _ _ hsn]
        change ¬ (nthTag rf s _).chunkId.toNat ≤ _
        rw [hid, chunkCount]
        omega
      refine ⟨?_, fun hle => absurd hle hdone⟩
      rw [endId_toNat _ _ hsn]
      omega

end ChunkTagIter

open ChunkTagIter in
/-- **The iterator is right exactly for the ranges that end below the last chunk.** -/
theorem splitsRange_iff (rf : RelFork) {s n : UInt32} (hn : 1 ≤ n.toNat)
    (hsn : s.toNat + n.toNat ≤ 2 ^ 32 - 1) :
    (∃ items, SplitsRange rf s n items) ↔ s.toNat + n.toNat ≤ 2 ^ 32 - 32 := by
  constructor
  · rintro ⟨items, h⟩
    exact (nextOk_iff hn hsn).mp h.nextOk
  · intro h
    refine ⟨itemsOf rf s n, yields_itemsOf hn hsn, ?_, tiles_itemsOf hn, ?_, ?_, ?_, ?_,
      (nextOk_iff hn hsn).mpr h⟩
    · intro k item hitem
      obtain ⟨i, hi, hmap⟩ := Option.map_eq_some_iff.mp (List.getElem?_map .. ▸ hitem)
      obtain ⟨hlt, rfl⟩ := List.getElem?_eq_some_iff.mp hi
      rw [List.length_range] at hlt
      rw [List.getElem_range] at hmap
      rw [← hmap]
      exact ⟨rfl, chunkId_toNat _ hn hsn hlt.le⟩
    · exact fun item hitem => block_itemsOf hn hsn hitem
    · intro item hitem
      obtain ⟨k, hk, rfl⟩ := mem_itemsOf hitem
      have hstart : (nthItem rf s n k).tag.startBlock.toNat = 32 * (s.toNat / 32 + k) :=
        startBlock_toNat _ hn hsn hk
      rw [hstart]
      exact full_iff hn hk
    · intro k
      rw [after_eq hn hsn, sizeHint_nthState hn hsn (min_le_right _ _), itemsOf, List.length_map,
        List.length_range]
      omega
    · exact ⟨by omega, by omega⟩

/-- A range with partial chunks at both ends and two full ones between them. -/
theorem splitsRange_iff_hundred :
    ∃ items, SplitsRange ⟨1663, 5, 16384, 0⟩ 5 100 items ∧ items.length = 4 := by
  obtain ⟨items, h⟩ := (splitsRange_iff ⟨1663, 5, 16384, 0⟩ (s := 5) (n := 100) (by decide)
    (by decide)).mpr (by decide)
  exact ⟨items, h, (h.hint 0).symm⟩

/-- The last chunk of a maximal relation: its end is computed as `2 ^ 32`. -/
theorem lastChunk_overflows : (4294967264 : UInt32).toNat + (31 : UInt32).toNat = 2 ^ 32 - 1 ∧
    ¬ ∃ items, SplitsRange default 4294967264 31 items := by
  have hs : (4294967264 : UInt32).toNat = 4294967264 := by decide
  have hn : (31 : UInt32).toNat = 31 := by decide
  refine ⟨by rw [hs, hn]; norm_num, ?_⟩
  rintro ⟨items, h⟩
  have hle := (ChunkTagIter.nextOk_iff (by rw [hn]; omega) (by rw [hs, hn]; omega)).mp h.nextOk
  rw [hs, hn] at hle
  omega

end Tiko

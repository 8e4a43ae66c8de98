import Tiko.Lib.Scatter
import Tiko.Model.ChunkRange
import Tiko.Model.Storage

/-!
# Reading blocks

`read_blocks` samples the number of blocks of the fork, clips the request to it, and fills the front of
the caller's buffer chunk by chunk. It returns how many blocks it has read.

* `Memory`, `Fork`: bytes by address, and by position in the fork;
* `Moment`: what a call meets, the size of the fork and a chunk that cannot be read;
* `readBlocks`: the code, over the items of `chunkBlockRange`;
* `Moment.Fails`, `Moment.count`: whether a call fails, and how many blocks it reads.

**`readBlocks_eq`**: a call that does not fail copies the blocks it counts to the front of the buffer.
-/

namespace Tiko.Smgr

open Lib

/-- Bytes by address. -/
abbrev Memory := ℕ → UInt8

/-- The bytes of a relation fork, block after block. -/
abbrev Fork := ℕ → UInt8

/-- What one call of `read_blocks` meets: the number of blocks, which `get_nblocks` may fail to read, and
the number of chunks after which one cannot be read. -/
structure Moment where
  nblocks : Option UInt32
  failsAt : Option ℕ

/-! ## The code -/

/-- A byte of a chunk. -/
def chunkByte (fork : Fork) (tag : ChunkTag) (offset : ℕ) : UInt8 :=
  fork (tag.startBlock.toNat * blcksz + offset)

/-- `get_chunk_merge` into `dst[buf_offset..buf_end]`, of a buffer at `ptr`. -/
def getChunkMerge (fork : Fork) (ptr : ℕ) (mem : Memory) (item : ChunkTagIterItem) : Memory := fun a =>
  if ptr + item.bufOffset ≤ a ∧ a < ptr + item.bufEnd then
    if item.isFullChunk then chunkByte fork item.tag (a - (ptr + item.bufOffset))
    else
      let offset := item.blockOffset.toNat * blcksz
      chunkByte fork item.tag (offset + (a - (ptr + item.bufOffset)))
  else mem a

/-- The items of the loop of `read_blocks`. -/
def chunkItems (rf : RelFork) (blockNumber nblocks : UInt32) : List ChunkTagIterItem :=
  Iter.collect ChunkTagIter.next nblocks.toNat (rf.chunkBlockRange blockNumber nblocks)

/-- `read_blocks` into the buffer at `ptr`. -/
def readBlocks (rf : RelFork) (fork : Fork) (moment : Moment) (blockNumber nblocks : UInt32) (ptr : ℕ)
    (mem : Memory) : Except Error UInt32 × Memory :=
  match moment.nblocks with
  | none => (.error .io, mem)
  | some rfNblocks =>
    if blockNumber = rfNblocks then (.ok 0, mem)
    else if blockNumber > rfNblocks then (.error .io, mem)
    else
      let nblocksToRead := min nblocks (rfNblocks - blockNumber)
      if nblocksToRead = 0 then (.ok 0, mem)
      else
        let items := chunkItems rf blockNumber nblocksToRead
        match moment.failsAt with
        | none => (.ok nblocksToRead, items.foldl (getChunkMerge fork ptr) mem)
        | some k =>
          if k < items.length then (.error .io, (items.take k).foldl (getChunkMerge fork ptr) mem)
          else (.ok nblocksToRead, items.foldl (getChunkMerge fork ptr) mem)

namespace Moment

/-- How many of the blocks asked for are in the fork. -/
def count (moment : Moment) (blockNumber nblocks : UInt32) : UInt32 :=
  match moment.nblocks with
  | none => 0
  | some rfNblocks => min nblocks (rfNblocks - blockNumber)

/-- The call fails: the size cannot be read, the request begins past the end, or a chunk of it cannot be
read. -/
def Fails (rf : RelFork) (moment : Moment) (blockNumber nblocks : UInt32) : Prop :=
  ∀ rfNblocks ∈ moment.nblocks, rfNblocks < blockNumber ∨
    ∃ k ∈ moment.failsAt, k < (chunkItems rf blockNumber (moment.count blockNumber nblocks)).length

/-- The whole request is in the fork. -/
def Covers (moment : Moment) (blockNumber nblocks : UInt32) : Prop :=
  ∀ rfNblocks ∈ moment.nblocks, blockNumber.toNat + nblocks.toNat ≤ rfNblocks.toNat

end Moment

/-! ## What is copied -/

/-- The byte that an item puts at an address of its part. -/
theorem getChunkMerge_of_mem {fork : Fork} {item : ChunkTagIterItem} {mem : Memory} {ptr s a : ℕ}
    (hblock : item.bufOffset + s * blcksz =
      (item.tag.startBlock.toNat + item.blockOffset.toNat) * blcksz)
    (hfull : item.isFullChunk = true → item.blockOffset.toNat = 0)
    (ha : ptr + item.bufOffset ≤ a ∧ a < ptr + item.bufEnd) :
    getChunkMerge fork ptr mem item a = fork (s * blcksz + (a - ptr)) := by
  rw [Nat.add_mul] at hblock
  rw [getChunkMerge, if_pos ha]
  split_ifs with h
  · rw [hfull h, Nat.zero_mul] at hblock
    exact congrArg fork (by omega)
  · exact congrArg fork (by omega)

/-- **The items of a range copy its blocks.** -/
theorem foldl_getChunkMerge {fork : Fork} {ptr s lo hi : ℕ} {items : List ChunkTagIterItem}
    {mem : Memory} (htiles : Tiles lo (items.map fun item => (item.bufOffset, item.bufEnd)) hi)
    (hblock : ∀ item ∈ items, item.bufOffset + s * blcksz =
      (item.tag.startBlock.toNat + item.blockOffset.toNat) * blcksz)
    (hfull : ∀ item ∈ items, item.isFullChunk = true → item.blockOffset.toNat = 0) :
    items.foldl (getChunkMerge fork ptr) mem = fun a =>
      if ptr + lo ≤ a ∧ a < ptr + hi then fork (s * blcksz + (a - ptr)) else mem a := by
  induction items generalizing lo mem with
  | nil =>
    obtain rfl : lo = hi := htiles
    funext a
    rw [List.foldl_nil, if_neg (by omega)]
  | cons item items ih =>
    obtain ⟨hlo, hlt, hrest⟩ := htiles
    change item.bufOffset = lo at hlo
    change lo < item.bufEnd at hlt
    change Tiles item.bufEnd _ hi at hrest
    subst hlo
    have hle := hrest.le
    rw [List.foldl_cons, ih hrest (fun i hi => hblock i (List.mem_cons_of_mem _ hi))
      (fun i hi => hfull i (List.mem_cons_of_mem _ hi))]
    funext a
    by_cases hlater : ptr + item.bufEnd ≤ a ∧ a < ptr + hi
    · rw [if_pos hlater, if_pos (by omega)]
    · rw [if_neg hlater]
      by_cases hhere : ptr + item.bufOffset ≤ a ∧ a < ptr + item.bufEnd
      · rw [if_pos (by omega)]
        exact getChunkMerge_of_mem (hblock item List.mem_cons_self) (hfull item List.mem_cons_self)
          hhere
      · rw [getChunkMerge, if_neg hhere, if_neg (by omega)]

/-- Items within a buffer change nothing else. -/
theorem foldl_getChunkMerge_frame {fork : Fork} {ptr hi a : ℕ} {items : List ChunkTagIterItem}
    {mem : Memory} (hle : ∀ item ∈ items, item.bufEnd ≤ hi) (ha : a < ptr ∨ ptr + hi ≤ a) :
    items.foldl (getChunkMerge fork ptr) mem a = mem a := by
  induction items generalizing mem with
  | nil => rfl
  | cons item items ih =>
    rw [List.foldl_cons, ih fun i hi => hle i (List.mem_cons_of_mem _ hi), getChunkMerge, if_neg]
    have hend := hle item List.mem_cons_self
    omega

/-! ## The items of a request -/

section Items

variable {rf : RelFork} {s n : UInt32}

theorem chunkItems_eq (hn : 1 ≤ n.toNat) (hsn : s.toNat + n.toNat ≤ 2 ^ 32 - 1) :
    chunkItems rf s n = ChunkTagIter.itemsOf rf s n := by
  apply (ChunkTagIter.yields_itemsOf hn hsn).collect_eq
  rw [ChunkTagIter.itemsOf, List.length_map, List.length_range, chunkCount]
  omega

theorem chunkItems_tiles (hn : 1 ≤ n.toNat) (hsn : s.toNat + n.toNat ≤ 2 ^ 32 - 1) :
    Tiles 0 ((chunkItems rf s n).map fun item => (item.bufOffset, item.bufEnd))
      (n.toNat * blcksz) := by
  rw [chunkItems_eq hn hsn]
  exact ChunkTagIter.tiles_itemsOf hn

theorem chunkItems_block (hn : 1 ≤ n.toNat) (hsn : s.toNat + n.toNat ≤ 2 ^ 32 - 1) :
    ∀ item ∈ chunkItems rf s n, item.bufOffset + s.toNat * blcksz =
      (item.tag.startBlock.toNat + item.blockOffset.toNat) * blcksz := by
  rw [chunkItems_eq hn hsn]
  exact fun item hitem => ChunkTagIter.block_itemsOf hn hsn hitem

theorem chunkItems_full (hn : 1 ≤ n.toNat) (hsn : s.toNat + n.toNat ≤ 2 ^ 32 - 1) :
    ∀ item ∈ chunkItems rf s n, item.isFullChunk = true → item.blockOffset.toNat = 0 := by
  rw [chunkItems_eq hn hsn]
  intro item hitem hfull
  obtain ⟨k, hk, rfl⟩ := ChunkTagIter.mem_itemsOf hitem
  rw [ChunkTagIter.blockOffset_toNat hn hk]
  rw [ChunkTagIter.full_iff hn hk] at hfull
  have hfirst := hfull (32 * (s.toNat / 32 + k)) le_rfl (by omega)
  unfold cut
  omega

end Items

/-! ## A call -/

section Call

variable {rf : RelFork} {moment : Moment} {b n : UInt32} {fork : Fork} {ptr : ℕ} {mem : Memory}

theorem Moment.count_of_le {size : UInt32} (h : moment.nblocks = some size) (hle : b ≤ size) :
    (moment.count b n).toNat = min n.toNat (size.toNat - b.toNat) := by
  unfold Moment.count
  rw [h]
  dsimp only
  rw [ChunkTagIter.toNat_min, UInt32.toNat_sub_of_le _ _ hle]

theorem Moment.not_fails_iff : ¬ moment.Fails rf b n ↔ ∃ size, moment.nblocks = some size ∧ b ≤ size ∧
    ∀ k, moment.failsAt = some k → (chunkItems rf b (moment.count b n)).length ≤ k := by
  unfold Moment.Fails
  simp only [Option.mem_def, not_forall, not_or, not_exists, not_and, not_lt, exists_prop]
  constructor
  · rintro ⟨size, h, hle, hk⟩
    exact ⟨size, h, UInt32.not_lt.mp hle, hk⟩
  · rintro ⟨size, h, hle, hk⟩
    exact ⟨size, h, UInt32.not_lt.mpr hle, hk⟩

theorem Moment.count_le (h : ¬ moment.Fails rf b n) : (moment.count b n).toNat ≤ n.toNat := by
  obtain ⟨size, hsize, hle, -⟩ := Moment.not_fails_iff.mp h
  rw [Moment.count_of_le hsize hle]
  exact min_le_left _ _

/-- **A call that does not fail copies the blocks it counts.** -/
theorem readBlocks_eq (h : ¬ moment.Fails rf b n) :
    readBlocks rf fork moment b n ptr mem = (.ok (moment.count b n),
      scatter fork (copyRun ptr (b.toNat * blcksz) ((moment.count b n).toNat * blcksz)) mem) := by
  obtain ⟨size, hsize, hle, hchunks⟩ := Moment.not_fails_iff.mp h
  have hcount := Moment.count_of_le (n := n) hsize hle
  have hle' := UInt32.le_iff_toNat_le.mp hle
  have hlt := size.toNat_lt
  by_cases hzero : moment.count b n = 0
  · -- nothing to read: at the end of the fork, or no block asked for
    rw [hzero, UInt32.toNat_zero, Nat.zero_mul, copyRun_zero]
    unfold readBlocks
    rw [hsize]
    dsimp only
    split_ifs with h1 h2 h3
    · rfl
    · exact absurd hle (UInt32.not_le.mpr h2)
    · rfl
    · unfold Moment.count at hzero
      rw [hsize] at hzero
      exact absurd hzero h3
  · have hpos : 1 ≤ (moment.count b n).toNat := by
      rw [Nat.one_le_iff_ne_zero]
      intro h0
      exact hzero (UInt32.toNat_inj.mp h0)
    have hbound : b.toNat + (moment.count b n).toNat ≤ 2 ^ 32 - 1 := by omega
    have hcopy : (chunkItems rf b (moment.count b n)).foldl (getChunkMerge fork ptr) mem =
        scatter fork (copyRun ptr (b.toNat * blcksz) ((moment.count b n).toNat * blcksz)) mem := by
      rw [foldl_getChunkMerge (chunkItems_tiles hpos hbound) (chunkItems_block hpos hbound)
        (chunkItems_full hpos hbound), scatter_copyRun, Nat.add_zero]
    have hne : ¬ b = size := by
      rintro rfl
      omega
    have hmin : min n (size - b) = moment.count b n := by
      unfold Moment.count
      rw [hsize]
    unfold readBlocks
    rw [hsize]
    dsimp only
    rw [if_neg hne, if_neg (UInt32.not_lt.mpr hle), hmin, if_neg hzero, hcopy]
    cases hfail : moment.failsAt with
    | none => rfl
    | some k =>
      dsimp only
      rw [if_neg (not_lt.mpr (hchunks k hfail))]

theorem readBlocks_error (h : moment.Fails rf b n) :
    ∃ e, (readBlocks rf fork moment b n ptr mem).1 = .error e := by
  unfold readBlocks
  cases hsize : moment.nblocks with
  | none => exact ⟨_, rfl⟩
  | some size =>
    have hmin : min n (size - b) = moment.count b n := by
      unfold Moment.count
      rw [hsize]
    dsimp only
    rw [hmin]
    rcases h size hsize with hlt | ⟨k, hk, hshort⟩
    · rw [if_neg (UInt32.ne_of_lt hlt).symm, if_pos hlt]
      exact ⟨_, rfl⟩
    · split_ifs with h1 h2 h3
      · subst h1
        rw [show moment.count b n = 0 from ?_] at hshort
        · exact absurd hshort (Nat.not_lt_zero k)
        · apply UInt32.toNat_inj.mp
          rw [Moment.count_of_le hsize (UInt32.le_refl b), Nat.sub_self, Nat.min_zero]
          rfl
      · exact ⟨_, rfl⟩
      · rw [h3] at hshort
        exact absurd hshort (Nat.not_lt_zero k)
      · rw [Option.mem_def.mp hk]
        dsimp only
        rw [if_pos hshort]
        exact ⟨_, rfl⟩

/-- A call, failed or not, changes nothing outside the buffer. -/
theorem readBlocks_frame {a : ℕ} (ha : a < ptr ∨ ptr + n.toNat * blcksz ≤ a) :
    (readBlocks rf fork moment b n ptr mem).2 a = mem a := by
  unfold readBlocks
  cases hsize : moment.nblocks with
  | none => rfl
  | some size =>
    dsimp only
    split_ifs with h1 h2 h3
    · rfl
    · rfl
    · rfl
    · rw [UInt32.not_lt] at h2
      have hle := UInt32.le_iff_toNat_le.mp h2
      have hlt := size.toNat_lt
      have hcount := Moment.count_of_le (n := n) hsize h2
      have hmin : min n (size - b) = moment.count b n := by
        unfold Moment.count
        rw [hsize]
      rw [hmin] at h3 ⊢
      have hpos : 1 ≤ (moment.count b n).toNat := by
        rw [Nat.one_le_iff_ne_zero]
        intro h0
        exact h3 (UInt32.toNat_inj.mp h0)
      have hends : ∀ item ∈ chunkItems rf b (moment.count b n), item.bufEnd ≤ n.toNat * blcksz := by
        intro item hitem
        have htile := (chunkItems_tiles hpos (by omega)).snd_le (List.mem_map_of_mem hitem)
        apply htile.trans
        apply Nat.mul_le_mul_right
        omega
      cases moment.failsAt with
      | none => exact foldl_getChunkMerge_frame hends ha
      | some k =>
        dsimp only
        split_ifs
        · exact foldl_getChunkMerge_frame (fun item hitem => hends item (List.mem_of_mem_take hitem)) ha
        · exact foldl_getChunkMerge_frame hends ha

end Call

end Tiko.Smgr

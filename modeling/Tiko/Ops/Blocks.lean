import Tiko.Lib.Slices
import Tiko.Ops.Calls

/-!
# The blocks of a relation fork

A request for blocks is cut into pieces that lie in one chunk each. The loops of `read_blocks` and
`write_blocks` take the pieces one by one.

* `blockTag`, `Chunk.block`: the chunk of a block, and the block in it;
* `StoreView.Blocks`: the first blocks of a relation fork, in secured chunks;
* `Pieces`: the items of a request in blocks, **`pieces_chunkItems`**;
* **`Shows.readItems`**: the blocks that are read;
* **`Shows.writeItems`**: the blocks that are written, all of them or those before a failed sweep.
-/

namespace Tiko

open Lib

variable {N : ℕ} {P β : Type}

/-! ## Blocks -/

/-- The chunk of a block. -/
def blockTag (rf : RelFork) (i : ℕ) : ChunkTag :=
  ⟨rf.spcOid, rf.dbOid, rf.relNumber, rf.forkNumber, UInt32.ofNat (i / blocksPerChunk)⟩

/-- A block of a chunk, by its number in the relation fork. -/
def Chunk.block (c : Chunk β) (i : ℕ) : β := c ⟨i % blocksPerChunk, Nat.mod_lt i (by decide)⟩

@[simp] theorem blockTag_relFork (rf : RelFork) (i : ℕ) : (blockTag rf i).relFork = rf := rfl

theorem blockTag_chunkId (rf : RelFork) {i : ℕ} (hi : i < 2 ^ 32) :
    (blockTag rf i).chunkId.toNat = i / 32 := by
  rw [blockTag, blocksPerChunk, UInt32.toNat_ofNat', Nat.mod_eq_of_lt]
  omega

theorem blockTag_eq_iff {rf : RelFork} {i j : ℕ} (hi : i < 2 ^ 32) (hj : j < 2 ^ 32) :
    blockTag rf i = blockTag rf j ↔ i / 32 = j / 32 := by
  constructor
  · intro h
    rw [← blockTag_chunkId rf hi, h, blockTag_chunkId rf hj]
  · intro h
    rw [blockTag, blockTag, blocksPerChunk, h]

/-- The first block of a chunk. -/
theorem blockTag_startBlock {rf : RelFork} {i : ℕ} (hi : i < 2 ^ 32) :
    (blockTag rf i).startBlock.toNat = 32 * (i / 32) := by
  rw [ChunkTag.startBlock, UInt32.toNat_mul, blockTag_chunkId rf hi, ChunkTag.blocksPerChunk_toNat]
  omega

/-- The block that a merge has put into a chunk, or else the one that was there. -/
theorem Chunk.block_splice (c : Chunk β) {offset i : ℕ} {data : List β} :
    (c.splice offset data).block i = if offset ≤ i % 32 ∧ i % 32 < offset + data.length
      then (data[i % 32 - offset]?).getD (c.block i) else c.block i := by
  rw [Chunk.block, Chunk.splice]
  change (if offset ≤ i % 32 then (data[i % 32 - offset]?).getD (c.block i) else c.block i) = _
  by_cases h1 : offset ≤ i % 32
  · by_cases h2 : i % 32 < offset + data.length
    · rw [if_pos h1, if_pos ⟨h1, h2⟩]
    · rw [if_pos h1, if_neg (fun h => h2 h.2), List.getElem?_eq_none (by omega), Option.getD_none]
  · rw [if_neg h1, if_neg (fun h => h1 h.1)]

/-- The first blocks of a relation fork. Their chunks are secured. -/
def StoreView.Blocks (w : StoreView β) (rf : RelFork) (xs : List β) : Prop :=
  ∀ i x, xs[i]? = some x → w.chunks.secured (blockTag rf i) ∧
    ∃ c, w.chunks.values (blockTag rf i) = some c ∧ c.block i = x

/-! ## Pieces of a request -/

/-- An item for the blocks from `lo` to `hi` of a request that begins at block `s`. -/
structure Piece (rf : RelFork) (s : ℕ) (item : ChunkTagIterItem) (lo hi : ℕ) : Prop where
  lt : lo < hi
  tag : item.tag = blockTag rf (s + lo)
  within : (s + lo) % 32 + (hi - lo) ≤ 32
  offset : item.blockOffset.toNat = (s + lo) % 32
  bufOffset : item.bufOffset = lo * blcksz
  bufEnd : item.bufEnd = hi * blcksz
  full : item.isFullChunk = true → (s + lo) % 32 = 0 ∧ hi = lo + 32

/-- The items cover a request from `lo` to `hi`, one after the other. -/
def Pieces (rf : RelFork) (s : ℕ) : ℕ → List ChunkTagIterItem → ℕ → Prop
  | lo, [], hi => lo = hi
  | lo, item :: items, hi => ∃ mid, Piece rf s item lo mid ∧ Pieces rf s mid items hi

theorem Pieces.le {rf : RelFork} {s lo hi : ℕ} {items : List ChunkTagIterItem}
    (h : Pieces rf s lo items hi) : lo ≤ hi := by
  induction items generalizing lo with
  | nil => exact Nat.le_of_eq h
  | cons item items ih =>
    obtain ⟨mid, hp, hrest⟩ := h
    exact hp.lt.le.trans (ih hrest)

section Items

variable {rf : RelFork} {s n : UInt32}

theorem piece_nthItem (hn : 1 ≤ n.toNat) {k : ℕ} (hk : k < chunkCount s.toNat n.toNat) :
    Piece rf s.toNat (ChunkTagIter.nthItem rf s n k) (cut s.toNat n.toNat k - s.toNat)
      (cut s.toNat n.toNat (k + 1) - s.toNat) := by
  have hmem := cut_mem hn hk
  have hlt := cut_lt hn hk
  have hnext := cut_succ (s := s.toNat) (k := k) hn
  refine ⟨by omega, ?_, by omega, ?_, rfl, rfl, ?_⟩
  · have hdiv : s.toNat / 32 + k = (s.toNat + (cut s.toNat n.toNat k - s.toNat)) / 32 := by omega
    rw [blockTag, blocksPerChunk, ← hdiv]
    rfl
  · rw [ChunkTagIter.blockOffset_toNat hn hk]
    omega
  · intro hfull
    have hlen : cut s.toNat n.toNat (k + 1) - cut s.toNat n.toNat k = 32 := by
      simpa [ChunkTagIter.nthItem] using hfull
    omega

/-- **The items of a request are its pieces.** -/
theorem pieces_chunkItems (rf : RelFork) (hn : 1 ≤ n.toNat) (hsn : s.toNat + n.toNat ≤ 2 ^ 32 - 1) :
    Pieces rf s.toNat 0 (Smgr.chunkItems rf s n) n.toNat := by
  have htail : ∀ j k, k + j = chunkCount s.toNat n.toNat →
      Pieces rf s.toNat (cut s.toNat n.toNat k - s.toNat)
        ((List.range' k j).map (ChunkTagIter.nthItem rf s n)) n.toNat := by
    intro j
    induction j with
    | zero =>
      rintro k rfl
      change cut s.toNat n.toNat (chunkCount s.toNat n.toNat) - s.toNat = n.toNat
      rw [cut_chunkCount hn]
      omega
    | succ j ih =>
      intro k hk
      rw [List.range'_succ, List.map_cons]
      exact ⟨_, piece_nthItem hn (by omega), ih (k + 1) (by omega)⟩
  have hall := htail (chunkCount s.toNat n.toNat) 0 (Nat.zero_add _)
  rw [cut_zero hn, Nat.sub_self, ← List.range_eq_range'] at hall
  rw [Smgr.chunkItems_eq hn hsn]
  exact hall

end Items

/-! ## The loops -/

namespace Host

variable [DecidableEq P] [Zero β] {cfg : StoreConfig} {p : P} {h : Host N P β} {w : StoreView β}
  {cached : Bool} {rf : RelFork} {xs : List β}

omit [Zero β] in
/-- The blocks that an item copies from its chunk. -/
theorem getChunkMerge_eq {s lo hi : ℕ} {item : ChunkTagIterItem} {c : Chunk β}
    (hp : Piece rf s item lo hi)
    (hc : ∀ i, s + lo ≤ i → i < s + hi → xs[i]? = some (c.block i)) :
    getChunkMerge item c = (xs.drop (s + lo)).take (hi - lo) := by
  have hlt := hp.lt
  have hwithin := hp.within
  have hpart : getChunkMerge item c = ((List.ofFn c).drop ((s + lo) % 32)).take (hi - lo) := by
    rw [getChunkMerge]
    split_ifs with hfull
    · obtain ⟨h0, hend⟩ := hp.full hfull
      rw [h0, List.drop_zero, List.take_of_length_le]
      rw [List.length_ofFn, blocksPerChunk]
      omega
    · rw [hp.offset, hp.bufOffset, hp.bufEnd, ← Nat.sub_mul, Nat.mul_div_cancel _ (by decide)]
  rw [hpart]
  refine List.ext_getElem? fun i => ?_
  rw [List.getElem?_take, List.getElem?_take, List.getElem?_drop, List.getElem?_drop]
  split_ifs with hi'
  · rw [hc (s + lo + i) (by omega) (by omega), List.getElem?_ofFn, dif_pos (by rw [blocksPerChunk]; omega)]
    rw [Chunk.block]
    congr 2
    refine Fin.ext ?_
    change (s + lo) % 32 + i = (s + lo + i) % 32
    omega
  · rfl

/-- **The loop of a read** returns the blocks that were asked for. -/
theorem Shows.readItems (hs : h.Shows cfg cached w) (hblocks : w.Blocks rf xs) {s lo hi : ℕ}
    {items : List ChunkTagIterItem} (hp : Pieces rf s lo items hi) (hlen : s + hi ≤ xs.length)
    (hbound : xs.length < 2 ^ 32) :
    Ends cfg cached (Host.readItems cfg p items h) w (.ok ((xs.drop (s + lo)).take (hi - lo))) w := by
  induction items generalizing h lo with
  | nil =>
    obtain rfl : lo = hi := hp
    rw [Nat.sub_self, List.take_zero]
    exact .answered rfl hs
  | cons item items ih =>
    obtain ⟨mid, hpiece, hrest⟩ := hp
    have hlt := hpiece.lt
    have hle := hrest.le
    have hwithin := hpiece.within
    obtain ⟨hsec, c, hval, -⟩ :=
      hblocks _ _ (List.getElem?_eq_getElem (l := xs) (i := s + lo) (by omega))
    -- all blocks of the item are in its chunk
    have hc : ∀ i, s + lo ≤ i → i < s + mid → xs[i]? = some (c.block i) := by
      intro i h1 h2
      have hxi := List.getElem?_eq_getElem (l := xs) (i := i) (by omega)
      obtain ⟨-, c', hval', hblock⟩ := hblocks _ _ hxi
      have htag : blockTag rf i = blockTag rf (s + lo) :=
        (blockTag_eq_iff (by omega) (by omega)).mpr (by omega)
      rw [htag, hval] at hval'
      obtain rfl := Option.some.inj hval'
      rw [hxi, hblock]
    have hload := hs.loadChunk (p := p) hsec
    rw [hval] at hload
    rw [Host.readItems, hpiece.tag]
    refine hload.bind fun h₁ hs₁ => (ih hs₁ hrest).bind fun h₂ hs₂ => .answered ?_ hs₂
    rw [getChunkMerge_eq hpiece hc]
    have hjoin : (xs.drop (s + lo)).take (hi - lo) =
        (xs.drop (s + lo)).take (mid - lo) ++ (xs.drop (s + mid)).take (hi - mid) := by
      have hsplit : hi - lo = (mid - lo) + (hi - mid) := by omega
      have hnext : s + mid = s + lo + (mid - lo) := by omega
      rw [hsplit, List.take_add, List.drop_drop, hnext]
    rw [hjoin]

/-! ### Writes -/

/-- A view that differs in the chunks of one relation fork, or in what is dirty. -/
def SameBut (rf : RelFork) (w w' : StoreView β) : Prop :=
  w'.metas = w.metas ∧ w'.last = w.last ∧ ∀ rf' ys, rf' ≠ rf → w.Blocks rf' ys → w'.Blocks rf' ys

omit [Zero β] in
theorem SameBut.refl (rf : RelFork) (w : StoreView β) : SameBut rf w w := ⟨rfl, rfl, fun _ _ _ => id⟩

omit [Zero β] in
theorem SameBut.trans {w₁ w₂ : StoreView β} (h1 : SameBut rf w w₁) (h2 : SameBut rf w₁ w₂) :
    SameBut rf w w₂ :=
  ⟨h2.1.trans h1.1, h2.2.1.trans h1.2.1, fun rf' ys hne hb => h2.2.2 rf' ys hne (h1.2.2 rf' ys hne hb)⟩

omit [Zero β] in
theorem sameBut_saveChunk (w : StoreView β) (rf : RelFork) (tag : ChunkTag) (htag : tag.relFork = rf)
    (c : Chunk β) :
    SameBut rf w (w.saveChunk (tag, c)) := by
  refine ⟨rfl, rfl, fun rf' ys hne hb i x hx => ?_⟩
  obtain ⟨hsec, c', hval, hblock⟩ := hb i x hx
  have hne' : blockTag rf' i ≠ tag := fun heq => hne (htag ▸ congrArg ChunkTag.relFork heq)
  exact ⟨.inl hsec, c', (Function.update_of_ne hne' _ _).trans hval, hblock⟩

variable {b lo mid : ℕ} {data : List β}

omit [Zero β] in
/-- A block that lies outside of a piece is not changed by it. -/
theorem overwrite_take_of_not_mem (hb : b ≤ xs.length) (hlo : lo ≤ mid) (hmid : mid ≤ data.length) {i : ℕ}
    (hi : ¬ (b + lo ≤ i ∧ i < b + mid)) :
    (overwrite xs b (data.take mid))[i]? = (overwrite xs b (data.take lo))[i]? := by
  rw [getElem?_overwrite hb, getElem?_overwrite hb, List.length_take_of_le hmid,
    List.length_take_of_le (hlo.trans hmid)]
  by_cases h1 : b ≤ i ∧ i < b + lo
  · rw [if_pos h1, if_pos ⟨h1.1, by omega⟩, List.getElem?_take_of_lt (by omega),
      List.getElem?_take_of_lt (by omega)]
  · rw [if_neg h1, if_neg (by omega)]

omit [Zero β] in
/-- A block of a piece is the one that is written. -/
theorem overwrite_take_of_mem (lo : ℕ) (hb : b ≤ xs.length) (hmid : mid ≤ data.length) {i : ℕ} (h1 : b + lo ≤ i)
    (h2 : i < b + mid) : (overwrite xs b (data.take mid))[i]? = data[i - b]? := by
  rw [getElem?_overwrite hb, List.length_take_of_le hmid, if_pos (by omega),
    List.getElem?_take_of_lt (by omega)]

omit [Zero β] in
theorem getElem?_itemBlocks {item : ChunkTagIterItem} (hp : Piece rf b item lo mid) {i : ℕ}
    (hi : i < mid - lo) : (itemBlocks item data)[i]? = data[lo + i]? := by
  have hpos : 0 < blcksz := by decide
  rw [itemBlocks, hp.bufOffset, hp.bufEnd, ← Nat.sub_mul, Nat.mul_div_cancel _ hpos,
    Nat.mul_div_cancel _ hpos, List.getElem?_take_of_lt hi, List.getElem?_drop]

omit [Zero β] in
theorem length_itemBlocks {item : ChunkTagIterItem} (hp : Piece rf b item lo mid)
    (hmid : mid ≤ data.length) : (itemBlocks item data).length = mid - lo := by
  have hpos : 0 < blcksz := by decide
  rw [itemBlocks, hp.bufOffset, hp.bufEnd, ← Nat.sub_mul, Nat.mul_div_cancel _ hpos,
    Nat.mul_div_cancel _ hpos, List.length_take, List.length_drop]
  omega

/-- **A piece is written** over the blocks before it. -/
theorem blocks_saveChunk {item : ChunkTagIterItem} {c : Chunk β} (hp : Piece rf b item lo mid)
    (hb : b ≤ xs.length) (hmid : mid ≤ data.length) (hbound : xs.length < 2 ^ 32)
    (hend : b + data.length < 2 ^ 32) (hblocks : w.Blocks rf (overwrite xs b (data.take lo)))
    (hc : c = (w.chunks.values item.tag).getD .zero ∨ c = .zero ∧ ¬ w.chunks.secured item.tag) :
    (w.saveChunk (item.tag, c.splice item.blockOffset.toNat (itemBlocks item data))).Blocks rf
      (overwrite xs b (data.take mid)) := by
  have hlt := hp.lt
  have hwithin := hp.within
  have hlen := length_itemBlocks hp hmid
  intro i x hx
  have hi : i < 2 ^ 32 := by
    have hmem := (List.getElem?_eq_some_iff.mp hx).1
    rw [length_overwrite hb, List.length_take_of_le hmid] at hmem
    omega
  by_cases htag : i / 32 = (b + lo) / 32
  · have heq : blockTag rf i = item.tag := by
      rw [hp.tag, blockTag_eq_iff hi (by omega), htag]
    rw [heq]
    refine ⟨.inr rfl, _, Function.update_self _ _ _, ?_⟩
    rw [Chunk.block_splice, hp.offset, hlen]
    split_ifs with hin
    · -- the block is one of those written
      rw [overwrite_take_of_mem lo hb hmid (by omega) (by omega)] at hx
      have hidx : lo + (i % 32 - (b + lo) % 32) = i - b := by omega
      rw [getElem?_itemBlocks hp (by omega), hidx, hx, Option.getD_some]
    · rw [overwrite_take_of_not_mem hb hlt.le hmid (by omega)] at hx
      obtain ⟨hsec, c', hval, hblock⟩ := hblocks i x hx
      rw [heq] at hsec hval
      obtain rfl : c = c' := by
        rw [hc.resolve_right fun hn => hn.2 hsec, hval, Option.getD_some]
      exact hblock
  · have hne : blockTag rf i ≠ item.tag := by
      rw [hp.tag, ne_eq, blockTag_eq_iff hi (by omega)]
      exact htag
    rw [overwrite_take_of_not_mem hb hlt.le hmid (by omega)] at hx
    obtain ⟨hsec, c', hval, hblock⟩ := hblocks i x hx
    exact ⟨.inl hsec, c', (Function.update_of_ne hne _ _).trans hval, hblock⟩

/-- **The loop of a write** writes all blocks, or those before a sweep that finds no victim. -/
theorem Shows.writeItems (hs : h.Shows cfg cached w) {items : List ChunkTagIterItem} (data : List β)
    (hp : Pieces rf b lo items data.length) (hb : b ≤ xs.length) (hbound : xs.length < 2 ^ 32)
    (hend : b + data.length < 2 ^ 32) (hblocks : w.Blocks rf (overwrite xs b (data.take lo))) :
    ∃ w', (Host.writeItems cfg p data items h).2.Shows cfg cached w' ∧ SameBut rf w w' ∧
      ((Host.writeItems cfg p data items h).1 = .ok () ∧ w'.Blocks rf (overwrite xs b data) ∨
        (Host.writeItems cfg p data items h).1 = .error .evictionSweepExhausted ∧
          ∃ k, w'.Blocks rf (overwrite xs b (data.take k))) := by
  induction items generalizing h w lo with
  | nil =>
    obtain rfl : lo = data.length := hp
    rw [List.take_length] at hblocks
    exact ⟨w, hs, .refl rf w, .inl ⟨rfl, hblocks⟩⟩
  | cons item items ih =>
    obtain ⟨mid, hpiece, hrest⟩ := hp
    have hlt := hpiece.lt
    have hwithin := hpiece.within
    have hlen := length_itemBlocks hpiece hrest.le
    have hdata : itemBlocks item data ≠ [] ∧
        item.blockOffset.toNat + (itemBlocks item data).length ≤ blocksPerChunk := by
      rw [hpiece.offset, blocksPerChunk, hlen]
      exact ⟨List.ne_nil_of_length_pos (by omega), hwithin⟩
    obtain ⟨c, hc, hstore⟩ := hs.storeBlocks (p := p) item.tag _ _ hdata
    have hsame := sameBut_saveChunk w rf item.tag (by rw [hpiece.tag]; rfl)
      (c.splice item.blockOffset.toNat (itemBlocks item data))
    rw [Host.writeItems]
    rcases hstore.cases with ⟨h', hr, hs'⟩ | ⟨h', hr, hs'⟩ <;> rw [hr]
    · obtain ⟨w', hs'', hsame', hout⟩ := ih hs' hrest
        (blocks_saveChunk hpiece hb hrest.le hbound hend hblocks hc)
      exact ⟨w', hs'', hsame.trans hsame', hout⟩
    · exact ⟨w, hs', .refl rf w, .inr ⟨rfl, lo, hblocks⟩⟩

end Host

end Tiko

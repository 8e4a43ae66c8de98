import Tiko.Lib.BinarySearch
import Tiko.Lib.SortedMap
import Tiko.Model.Keys

/-!
# The timeline state

What shared memory and the segment files know about committed checkpoints.

* `SegmentCheckpoint`, `TimelineSegment`: the durable record of a checkpoint, and the file that
  lists those of one LSN range;
* `ChunkBloom`, `RelforkIndex`: the two summaries of a checkpoint kept in shared memory, a Bloom
  filter of its chunks and a sorted index of at most 128 of its relation forks;
* `ActiveCheckpoint`, `TimelineState`: the window of the last 64 checkpoints, a ring of slots that
  are overwritten in place.

`ActiveCheckpoint.Mirrors ac sc` says that the slot `ac` summarises the record `sc`.
**`mirrors_populate`**: whatever the slot held, populating it makes it mirror the new record.
**`iterActive_pushActive`**: a push puts the new checkpoint in front of the last 63.
-/

namespace Tiko

open Lib

/-! ## Segments -/

/-- `SegmentCheckpoint`. `prevCkpt` is the path under which the chunks visible at `ckpt` were
written. -/
structure SegmentCheckpoint where
  ckpt : Checkpoint
  prevCkpt : Checkpoint
  redoCkpt : Checkpoint
  chunks : SortedSet ChunkTag
  relforks : SortedMap RelFork RelForkMeta
  pgState : List UInt8
  createdAt : ℤ
  deriving DecidableEq

namespace SegmentCheckpoint

/-- `SegmentCheckpoint::contains_chunk`. -/
def containsChunk (sc : SegmentCheckpoint) (tag : ChunkTag) : Bool := SortedSet.contains sc.chunks tag

/-- `SegmentCheckpoint::relfork_meta`. -/
def relforkMeta (sc : SegmentCheckpoint) (rf : RelFork) : Option RelForkMeta :=
  sc.relforks.lookup rf

end SegmentCheckpoint

/-- `TimelineSegment`. -/
structure TimelineSegment where
  segmentId : SegmentId
  checkpoints : List SegmentCheckpoint
  deriving DecidableEq

namespace TimelineSegment

/-- `TimelineSegment::new`. -/
def new (segmentId : SegmentId) : TimelineSegment := ⟨segmentId, []⟩

/-- `TimelineSegment::push`. -/
def push (s : TimelineSegment) (summary : SegmentCheckpoint) : TimelineSegment :=
  { s with checkpoints := s.checkpoints ++ [summary] }

end TimelineSegment

/-! ## The Bloom filter -/

/-- `CHUNK_BLOOM_BYTES`. -/
def chunkBloomBytes : ℕ := 16384

/-- `CHUNK_BLOOM_BITS`. -/
def chunkBloomBits : UInt32 := 131072

/-- `CHUNK_BLOOM_HASHES`. -/
def chunkBloomHashes : ℕ := 7

/-- `double_hash`. -/
def doubleHash (tag : ChunkTag) : UInt32 × UInt32 :=
  let h1 := tag.hash
  (h1, (h1 ^^^ 0x9E3779B9) * 0x85EBCA6B)

/-- `combined_hash`. -/
def combinedHash (h1 h2 i : UInt32) : UInt32 := h1 + i * h2 + i * i

/-- The bit that the `i`-th hash of a tag selects. -/
def bloomBit (tag : ChunkTag) (i : ℕ) : UInt32 :=
  let h := doubleHash tag
  combinedHash h.1 h.2 (UInt32.ofNat i) % chunkBloomBits

/-- `ChunkBloom`. -/
structure ChunkBloom where
  bits : Fin chunkBloomBytes → UInt8

namespace ChunkBloom

/-- The byte that holds a bit. -/
def byteIdx (bit : UInt32) : Fin chunkBloomBytes :=
  ⟨(bit / 8).toNat % chunkBloomBytes, Nat.mod_lt _ (by decide)⟩

/-- The mask of a bit in its byte. -/
def mask (bit : UInt32) : UInt8 := 1 <<< (bit % 8).toUInt8

/-- `ChunkBloom::clear`. -/
def clear : ChunkBloom := ⟨fun _ => 0⟩

/-- `bits[bit / 8] |= 1 << (bit % 8)`. -/
def setBit (b : ChunkBloom) (bit : UInt32) : ChunkBloom :=
  ⟨Function.update b.bits (byteIdx bit) (b.bits (byteIdx bit) ||| mask bit)⟩

/-- Whether a bit is set. -/
def testBit (b : ChunkBloom) (bit : UInt32) : Bool := b.bits (byteIdx bit) &&& mask bit != 0

/-- `ChunkBloom::insert`. -/
def insert (b : ChunkBloom) (tag : ChunkTag) : ChunkBloom :=
  (List.range chunkBloomHashes).foldl (fun b i => b.setBit (bloomBit tag i)) b

/-- `ChunkBloom::maybe_contains`. -/
def maybeContains (b : ChunkBloom) (tag : ChunkTag) : Bool :=
  (List.range chunkBloomHashes).all fun i => b.testBit (bloomBit tag i)

theorem mask_ne_zero (bit : UInt32) : mask bit ≠ 0 := by
  have h : (bit % 8).toNat < 8 := by
    rw [UInt32.toNat_mod]
    exact Nat.mod_lt _ (by decide)
  have hb : bit % 8 = UInt32.ofNat (bit % 8).toNat := UInt32.ofNat_toNat.symm
  rw [mask, hb]
  generalize (bit % 8).toNat = k at h
  interval_cases k <;> decide

theorem or_and_distrib (a b m : UInt8) : (a ||| b) &&& m = (a &&& m) ||| (b &&& m) := by
  apply UInt8.toBitVec_inj.mp
  ext i
  simp [Bool.and_or_distrib_right]

theorem testBit_setBit_self (b : ChunkBloom) (bit : UInt32) : (b.setBit bit).testBit bit = true := by
  simp [testBit, setBit, or_and_distrib, mask_ne_zero]

/-- Setting a bit clears no other. -/
theorem testBit_setBit_of_testBit {b : ChunkBloom} {bit : UInt32} (bit' : UInt32)
    (h : b.testBit bit = true) : (b.setBit bit').testBit bit = true := by
  simp only [testBit, setBit, bne_iff_ne, ne_eq] at h ⊢
  by_cases hi : byteIdx bit = byteIdx bit'
  · rw [hi] at h ⊢
    rw [Function.update_self, or_and_distrib, UInt8.or_eq_zero_iff]
    exact fun h' => h h'.1
  · rw [Function.update_of_ne hi]
    exact h

theorem testBit_foldl_of_testBit {bit : UInt32} (tag : ChunkTag) (l : List ℕ) {b : ChunkBloom}
    (h : b.testBit bit = true) :
    (l.foldl (fun b i => b.setBit (bloomBit tag i)) b).testBit bit = true := by
  induction l generalizing b with
  | nil => exact h
  | cons i l ih => exact ih (testBit_setBit_of_testBit _ h)

theorem testBit_foldl_of_mem (tag : ChunkTag) {l : List ℕ} {i : ℕ} (hi : i ∈ l) (b : ChunkBloom) :
    (l.foldl (fun b i => b.setBit (bloomBit tag i)) b).testBit (bloomBit tag i) = true := by
  induction l generalizing b with
  | nil => exact absurd hi List.not_mem_nil
  | cons j l ih =>
    rcases List.mem_cons.mp hi with rfl | hi
    · exact testBit_foldl_of_testBit tag l (testBit_setBit_self b _)
    · exact ih hi _

theorem maybeContains_insert_self (b : ChunkBloom) (tag : ChunkTag) :
    (b.insert tag).maybeContains tag = true :=
  List.all_eq_true.mpr fun _ hi => testBit_foldl_of_mem tag hi b

theorem maybeContains_insert_of (b : ChunkBloom) {tag : ChunkTag} (tag' : ChunkTag)
    (h : b.maybeContains tag = true) : (b.insert tag').maybeContains tag = true :=
  List.all_eq_true.mpr fun i hi => testBit_foldl_of_testBit tag' _ (List.all_eq_true.mp h i hi)

/-- **No false negatives.** -/
theorem maybeContains_foldl_insert {tags : List ChunkTag} {tag : ChunkTag} (h : tag ∈ tags)
    (b : ChunkBloom) : (tags.foldl insert b).maybeContains tag = true := by
  induction tags using List.reverseRecOn with
  | nil => exact absurd h List.not_mem_nil
  | append_singleton tags t ih =>
    rw [List.foldl_append, List.foldl_cons, List.foldl_nil]
    rcases List.mem_append.mp h with h | h
    · exact maybeContains_insert_of _ t (ih h)
    · rw [List.mem_singleton.mp h]
      exact maybeContains_insert_self _ t

end ChunkBloom

/-! ## The relation fork index -/

/-- `RELFORK_INDEX_CAP`. -/
def relforkIndexCap : ℕ := 128

/-- `RelforkEntry`. -/
structure RelforkEntry where
  rf : RelFork
  nblocks : UInt32
  deleted : Bool

instance : Inhabited RelforkEntry := ⟨⟨default, 0, false⟩⟩

/-- `RelforkLookup`. -/
inductive RelforkLookup where
  | hit (m : RelForkMeta)
  | definitiveMiss
  | inconclusive
  deriving DecidableEq

/-- `RelforkIndex`: `len` live entries of a fixed array. -/
structure RelforkIndex where
  len : ℕ
  overflowed : Bool
  entries : Fin relforkIndexCap → RelforkEntry
  len_le : len ≤ relforkIndexCap

namespace RelforkIndex

/-- The entry at an index, as a slice access. -/
def entry (x : RelforkIndex) (i : ℕ) : RelforkEntry :=
  if h : i < relforkIndexCap then x.entries ⟨i, h⟩ else default

/-- `RelforkIndex::clear`, which leaves the entries in place. -/
def clear (x : RelforkIndex) : RelforkIndex :=
  { x with len := 0, overflowed := false, len_le := Nat.zero_le _ }

/-- `RelforkIndex::populate` from a map, whose sorted entries are `m.entries`. -/
def populate (x : RelforkIndex) (m : SortedMap RelFork RelForkMeta) : RelforkIndex where
  len := min m.entries.length relforkIndexCap
  overflowed := decide (relforkIndexCap < m.entries.length)
  entries i :=
    match m.entries[i.val]? with
    | some (rf, md) => ⟨rf, md.nblocks, md.deleted⟩
    | none => x.entries i
  len_le := Nat.min_le_right _ _

/-- `RelforkIndex::get`. -/
def get (x : RelforkIndex) (rf : RelFork) : RelforkLookup :=
  match bsearch (fun i => (x.entry i).rf) rf x.len with
  | some i => .hit ⟨(x.entry i).nblocks, (x.entry i).deleted⟩
  | none => if x.overflowed then .inconclusive else .definitiveMiss

/-- The live entries of a populated index are the first entries of the map. -/
theorem entry_populate (x : RelforkIndex) {m : SortedMap RelFork RelForkMeta} {i : ℕ}
    (hi : i < (x.populate m).len) : ∃ rf md, m.entries[i]? = some (rf, md) ∧
      (x.populate m).entry i = ⟨rf, md.nblocks, md.deleted⟩ := by
  obtain ⟨h1, h2⟩ := Nat.lt_min.mp hi
  refine ⟨_, _, List.getElem?_eq_getElem h1, ?_⟩
  rw [entry, dif_pos h2]
  simp only [populate, List.getElem?_eq_getElem h1]
  rfl

theorem ascendingBelow_populate (x : RelforkIndex) (m : SortedMap RelFork RelForkMeta) :
    AscendingBelow (fun i => ((x.populate m).entry i).rf) (x.populate m).len := by
  intro i j hij hj
  obtain ⟨rf, md, hi, he⟩ := x.entry_populate (m := m) (hij.trans hj)
  obtain ⟨rf', md', hi', he'⟩ := x.entry_populate hj
  dsimp only
  rw [he, he']
  obtain ⟨hil, hi⟩ := List.getElem?_eq_some_iff.mp hi
  obtain ⟨hjl, hj⟩ := List.getElem?_eq_some_iff.mp hi'
  have := List.pairwise_iff_getElem.mp m.sorted i j hil hjl hij
  rwa [hi, hj] at this

/-- What a probe of an index says about the map it was populated from. -/
def Agrees (x : RelforkIndex) (m : SortedMap RelFork RelForkMeta) : Prop :=
  ∀ rf, match x.get rf with
    | .hit md => m.lookup rf = some md
    | .definitiveMiss => m.lookup rf = none
    | .inconclusive => True

/-- **A populated index answers like its map, or not at all.** -/
theorem agrees_populate (x : RelforkIndex) (m : SortedMap RelFork RelForkMeta) :
    (x.populate m).Agrees m := by
  have hasc := x.ascendingBelow_populate m
  intro rf
  rw [get]
  cases hb : bsearch (fun i => ((x.populate m).entry i).rf) rf (x.populate m).len with
  | some i =>
    obtain ⟨hi, hkey⟩ := (bsearch_eq_some_iff hasc).mp hb
    obtain ⟨rf', md, hm, he⟩ := x.entry_populate hi
    dsimp only at hkey ⊢
    rw [he] at hkey ⊢
    obtain rfl : rf' = rf := hkey
    rw [← SortedMap.mem_entries_iff]
    exact List.mem_of_getElem? hm
  | none =>
    dsimp only
    by_cases ho : (x.populate m).overflowed = true
    · rw [if_pos ho]
      trivial
    · -- without overflow every entry of the map is live
      rw [if_neg ho]
      have hle : m.entries.length ≤ relforkIndexCap := by simpa [populate] using ho
      dsimp only
      rw [← Option.not_isSome_iff_eq_none, Option.isSome_iff_exists]
      rintro ⟨md, hmd⟩
      obtain ⟨i, hi⟩ := List.mem_iff_getElem?.mp ((m.mem_entries_iff rf md).mpr hmd)
      have hlen := (List.getElem?_eq_some_iff.mp hi).1
      have hlt : i < (x.populate m).len :=
        Nat.lt_min.mpr ⟨hlen, hlen.trans_le hle⟩
      obtain ⟨rf', md', hm, he⟩ := x.entry_populate hlt
      refine (bsearch_eq_none_iff hasc).mp hb i hlt ?_
      rw [he]
      rw [hi] at hm
      exact (congrArg Prod.fst (Option.some.inj hm)).symm

end RelforkIndex

/-! ## The active window -/

/-- `ActiveCheckpoint`. -/
structure ActiveCheckpoint where
  ckpt : Checkpoint
  prevCkpt : Checkpoint
  chunkBloom : ChunkBloom
  relforkIndex : RelforkIndex

namespace ActiveCheckpoint

/-- `ActiveCheckpoint::reset`. -/
def reset (ac : ActiveCheckpoint) : ActiveCheckpoint :=
  ⟨default, default, .clear, ac.relforkIndex.clear⟩

/-- `ActiveCheckpoint::populate`. -/
def populate (ac : ActiveCheckpoint) (ckpt prevCkpt : Checkpoint) (chunks : SortedSet ChunkTag)
    (relforks : SortedMap RelFork RelForkMeta) : ActiveCheckpoint where
  ckpt := ckpt
  prevCkpt := prevCkpt
  chunkBloom := chunks.keys.foldl .insert .clear
  relforkIndex := ac.relforkIndex.populate relforks

/-- The slot `ac` summarises the record `sc`. -/
structure Mirrors (ac : ActiveCheckpoint) (sc : SegmentCheckpoint) : Prop where
  ckpt_eq : ac.ckpt = sc.ckpt
  prevCkpt_eq : ac.prevCkpt = sc.prevCkpt
  bloom : ∀ tag, sc.containsChunk tag = true → ac.chunkBloom.maybeContains tag = true
  index : ac.relforkIndex.Agrees sc.relforks

/-- **A populated slot mirrors its record**, whatever the slot held before. -/
theorem mirrors_populate (ac : ActiveCheckpoint) (sc : SegmentCheckpoint) :
    (ac.populate sc.ckpt sc.prevCkpt sc.chunks sc.relforks).Mirrors sc where
  ckpt_eq := rfl
  prevCkpt_eq := rfl
  bloom tag h := ChunkBloom.maybeContains_foldl_insert
    ((SortedSet.contains_iff_mem_keys sc.chunks tag).mp h) .clear
  index := ac.relforkIndex.agrees_populate sc.relforks

end ActiveCheckpoint

/-! ## The timeline state -/

/-- `ACTIVE_WINDOW_SIZE`. -/
def activeWindowSize : ℕ := 64

/-- `TimelineState`, without the draft and the compaction flags. `activeHead` is the next slot to
write, `activeCount` the number of valid slots. -/
structure TimelineState where
  generation : ℕ
  hydrated : Bool
  baseCkpt : Checkpoint
  headCkpt : Checkpoint
  redoCkpt : Checkpoint
  activeCount : ℕ
  activeHead : Fin activeWindowSize
  activeWindow : Fin activeWindowSize → ActiveCheckpoint
  activeCount_le : activeCount ≤ activeWindowSize

namespace TimelineState

/-- `TimelineState::init` over what the shared memory held. -/
def init (s : TimelineState) : TimelineState where
  generation := 0
  hydrated := false
  baseCkpt := default
  headCkpt := default
  redoCkpt := default
  activeCount := 0
  activeHead := ⟨0, by decide⟩
  activeWindow i := (s.activeWindow i).reset
  activeCount_le := Nat.zero_le _

/-- A state on zero-filled shared memory. -/
def zeroed : TimelineState where
  generation := 0
  hydrated := false
  baseCkpt := default
  headCkpt := default
  redoCkpt := default
  activeCount := 0
  activeHead := ⟨0, by decide⟩
  activeWindow _ := ⟨default, default, .clear, ⟨0, false, fun _ => default, Nat.zero_le _⟩⟩
  activeCount_le := Nat.zero_le _

/-- The slot `k` places before the next one to write. -/
def slotBefore (head : Fin activeWindowSize) (i : ℕ) : Fin activeWindowSize :=
  ⟨(head.val + activeWindowSize - 1 - i) % activeWindowSize, Nat.mod_lt _ (by decide)⟩

/-- `TimelineState::iter_active`: the window, newest first. -/
def iterActive (s : TimelineState) : List ActiveCheckpoint :=
  (List.range s.activeCount).map fun i => s.activeWindow (slotBefore s.activeHead i)

/-- `TimelineState::push_active`. -/
def pushActive (s : TimelineState) (ckpt prevCkpt : Checkpoint) (chunks : SortedSet ChunkTag)
    (relforks : SortedMap RelFork RelForkMeta) : TimelineState :=
  { s with
    generation := s.generation + 1
    headCkpt := ckpt
    activeCount := if s.activeCount < activeWindowSize then s.activeCount + 1 else s.activeCount
    activeHead := ⟨(s.activeHead + 1) % activeWindowSize, Nat.mod_lt _ (by decide)⟩
    activeWindow := Function.update s.activeWindow s.activeHead
      ((s.activeWindow s.activeHead).populate ckpt prevCkpt chunks relforks)
    activeCount_le := by
      have := s.activeCount_le
      split_ifs <;> omega }

/-- `TimelineState::set_redo_ckpt`. -/
def setRedoCkpt (s : TimelineState) (c : Checkpoint) : TimelineState := { s with redoCkpt := c }

/-- `TimelineState::set_base_ckpt`. -/
def setBaseCkpt (s : TimelineState) (c : Checkpoint) : TimelineState :=
  { s with baseCkpt := c, generation := s.generation + 1 }

@[simp] theorem length_iterActive (s : TimelineState) : s.iterActive.length = s.activeCount := by
  simp [iterActive]

/-- After a push the window is shifted by one place. -/
theorem slotBefore_succ (head : Fin activeWindowSize) {i : ℕ} (hi : i + 1 < activeWindowSize) :
    slotBefore ⟨(head + 1) % activeWindowSize, Nat.mod_lt _ (by decide)⟩ (i + 1) =
      slotBefore head i := by
  have := head.isLt
  simp only [slotBefore, Fin.mk.injEq]
  simp only [activeWindowSize] at *
  omega

theorem slotBefore_zero (head : Fin activeWindowSize) :
    slotBefore ⟨(head + 1) % activeWindowSize, Nat.mod_lt _ (by decide)⟩ 0 = head := by
  have := head.isLt
  apply Fin.ext
  simp only [slotBefore]
  simp only [activeWindowSize] at *
  omega

theorem slotBefore_ne (head : Fin activeWindowSize) {i : ℕ} (hi : i + 1 < activeWindowSize) :
    slotBefore head i ≠ head := by
  have := head.isLt
  intro h
  have := congrArg Fin.val h
  simp only [slotBefore] at this
  simp only [activeWindowSize] at *
  omega

/-- Writing the next slot puts it in front of the window and keeps the last 63. -/
theorem iterActive_of_write {s t : TimelineState} {ac : ActiveCheckpoint}
    (hcount : t.activeCount =
      if s.activeCount < activeWindowSize then s.activeCount + 1 else s.activeCount)
    (hhead : t.activeHead = ⟨(s.activeHead + 1) % activeWindowSize, Nat.mod_lt _ (by decide)⟩)
    (hwindow : t.activeWindow = Function.update s.activeWindow s.activeHead ac) :
    t.iterActive = ac :: s.iterActive.take (activeWindowSize - 1) := by
  have hle := s.activeCount_le
  have hmin : t.activeCount = min s.activeCount (activeWindowSize - 1) + 1 := by
    rw [hcount]
    rw [activeWindowSize] at *
    rcases Nat.lt_or_ge s.activeCount 64 with h | h
    · rw [if_pos h]
      omega
    · rw [if_neg (Nat.not_lt.mpr h)]
      omega
  rw [iterActive, hmin, List.range_succ_eq_map, List.map_cons, List.map_map, iterActive,
    ← List.map_take, List.take_range, hhead, hwindow]
  congr 1
  · rw [slotBefore_zero, Function.update_self]
  · rw [Nat.min_comm]
    refine List.map_congr_left fun i hi => ?_
    have hi := Nat.lt_min.mp (List.mem_range.mp hi)
    have hi1 : i + 1 < activeWindowSize := by
      have := hi.1
      simp only [activeWindowSize] at *
      omega
    simp only [Function.comp_apply, Nat.succ_eq_add_one]
    rw [slotBefore_succ _ hi1, Function.update_of_ne (slotBefore_ne _ hi1)]

/-- **A push puts the new checkpoint in front and keeps the last 63.** -/
theorem iterActive_pushActive (s : TimelineState) (ckpt prevCkpt : Checkpoint)
    (chunks : SortedSet ChunkTag) (relforks : SortedMap RelFork RelForkMeta) :
    (s.pushActive ckpt prevCkpt chunks relforks).iterActive =
      (s.activeWindow s.activeHead).populate ckpt prevCkpt chunks relforks ::
        s.iterActive.take (activeWindowSize - 1) :=
  iterActive_of_write rfl rfl rfl

end TimelineState

end Tiko

import Tiko.Smgr.Readv

/-!
# Asynchronous reads

`perform_io` reads the entries of an array of buffers one after the other, through the worker or
directly. The next block to read advances by what the last sub-request returned, the buffer by what it
asked for.

* `IoMoment`: what a sub-request meets, the worker included;
* `performIo`: the code, for a read;
* `SubRead`, `served`: the sub-requests that are answered, up to the first failure;
* `Steady`: after one that does not fill its buffer, none reads a block.

**`performIoFills_iff`**: the blocks that the call counts are in the front of the buffers, in order,
exactly if its run is steady.

**`fills_iff`**: the two ways of reading into several buffers.
-/

namespace Tiko.Smgr

open Lib

/-! ## The code -/

/-- What one round of `perform_io` meets: whether it uses the pipeline, and whether the worker stops
before it has answered. -/
structure IoMoment extends Moment where
  usePipeline : Bool
  workerStops : Bool

/-- `submit_and_wait_raw`: the worker calls `read_blocks`, and its answer may be lost. -/
def submitAndWaitRaw (rf : RelFork) (fork : Fork) (moment : IoMoment) (blocknum nblocks : UInt32)
    (bufferPtr : ℕ) (mem : Memory) : Except Error UInt32 × Memory :=
  let answer := readBlocks rf fork moment.toMoment blocknum nblocks bufferPtr mem
  (if moment.workerStops then .error .notFound else answer.1, answer.2)

/-- The read of one entry. -/
def readEntry (rf : RelFork) (fork : Fork) (isLocalBuffer : Bool) (moment : IoMoment)
    (currentBlock : UInt32) (entry : IoVec) (mem : Memory) : Except Error UInt32 × Memory :=
  if moment.usePipeline && !isLocalBuffer then
    submitAndWaitRaw rf fork moment currentBlock entry.nblocks entry.iovBase mem
  else readBlocks rf fork moment.toMoment currentBlock entry.nblocks entry.iovBase mem

/-- The loop of `perform_io` and its result: `ok` with a number of bytes, or an error for a negative
number. -/
def performIoLoop (rf : RelFork) (fork : Fork) (isLocalBuffer : Bool) (blockNumber : UInt32) :
    UInt32 → List IoVec → (ℕ → IoMoment) → Memory → Except Error ℕ × Memory
  | currentBlock, [], _, mem => (.ok ((currentBlock.toNat - blockNumber.toNat) * blcksz), mem)
  | currentBlock, entry :: iov, moments, mem =>
    match readEntry rf fork isLocalBuffer (moments 0) currentBlock entry mem with
    | (.ok resultNblocks, mem) =>
      performIoLoop rf fork isLocalBuffer blockNumber (currentBlock + resultNblocks) iov
        (fun k => moments (k + 1)) mem
    | (.error errno, mem) =>
      let blocksDone := currentBlock - blockNumber
      if blocksDone > 0 then (.ok (blocksDone.toNat * blcksz), mem) else (.error errno, mem)

/-- `perform_io` with `IoOpKind::Read`. -/
def performIo (rf : RelFork) (fork : Fork) (isLocalBuffer : Bool) (blockNumber : UInt32)
    (iov : List IoVec) (moments : ℕ → IoMoment) (mem : Memory) : Except Error ℕ × Memory :=
  performIoLoop rf fork isLocalBuffer blockNumber blockNumber iov moments mem

/-! ## The property and its condition -/

/-- Whatever the fork and the buffers contain: if the call returns `n` blocks, they are at the front of
the concatenated buffers. -/
def PerformIoFills (rf : RelFork) (isLocalBuffer : Bool) (blockNumber : UInt32) (iov : List IoVec)
    (moments : ℕ → IoMoment) : Prop :=
  ∀ fork mem n, (performIo rf fork isLocalBuffer blockNumber iov moments mem).1 = .ok (n * blcksz) →
    ∀ i < n, ∀ o < blcksz, ∃ a, (iovBytes iov)[i * blcksz + o]? = some a ∧
      (performIo rf fork isLocalBuffer blockNumber iov moments mem).2 a =
        fork ((blockNumber.toNat + i) * blcksz + o)

/-- A sub-request that is answered: the entry, the first block and the size of the fork. -/
structure SubRead where
  entry : IoVec
  block : UInt32
  size : UInt32

namespace SubRead

/-- The blocks of the request that are in the fork. -/
def count (r : SubRead) : UInt32 := min r.entry.nblocks (r.size - r.block)

theorem count_le (r : SubRead) : r.count.toNat * blcksz ≤ r.entry.iovLen := by
  refine (Nat.mul_le_mul_right _ ?_).trans r.entry.nblocks_le
  rw [count, ChunkTagIter.toNat_min]
  exact min_le_left _ _

/-- The buffer is longer than what the fork has for it. -/
def Unfilled (r : SubRead) : Prop := r.count.toNat * blcksz < r.entry.iovLen

end SubRead

/-- The sub-request of a round. -/
def subRead (moment : IoMoment) (block : UInt32) (entry : IoVec) : SubRead :=
  ⟨entry, block, moment.nblocks.getD 0⟩

/-- A round fails: the worker stops, or the read fails. -/
def IoMoment.Fails (rf : RelFork) (isLocalBuffer : Bool) (moment : IoMoment) (block : UInt32)
    (entry : IoVec) : Prop :=
  (moment.usePipeline && !isLocalBuffer && moment.workerStops) = true ∨
    moment.toMoment.Fails rf block entry.nblocks

instance Moment.decidableFails (rf : RelFork) (moment : Moment) (block nblocks : UInt32) :
    Decidable (moment.Fails rf block nblocks) :=
  @Option.decidableForallMem UInt32 _ (fun _ =>
    @instDecidableOr _ _ (UInt32.decLt ..) (Option.decidableExistsMem ..)) moment.nblocks

instance IoMoment.decidableFails (rf : RelFork) (isLocalBuffer : Bool) (moment : IoMoment)
    (block : UInt32) (entry : IoVec) : Decidable (moment.Fails rf isLocalBuffer block entry) :=
  inferInstanceAs (Decidable (_ ∨ _))

/-- The sub-requests before the first failure. -/
def served (rf : RelFork) (isLocalBuffer : Bool) :
    UInt32 → List IoVec → (ℕ → IoMoment) → List SubRead
  | _, [], _ => []
  | block, entry :: iov, moments =>
    if (moments 0).Fails rf isLocalBuffer block entry then []
    else
      let r := subRead (moments 0) block entry
      r :: served rf isLocalBuffer (block + r.count) iov fun k => moments (k + 1)

/-- After a sub-request that does not fill its buffer, none reads a block. -/
def Steady (rf : RelFork) (isLocalBuffer : Bool) (blockNumber : UInt32) (iov : List IoVec)
    (moments : ℕ → IoMoment) : Prop :=
  (served rf isLocalBuffer blockNumber iov moments).Pairwise fun r r' => r.Unfilled → r'.count = 0

/-! ## One entry -/

section Entry

variable {rf : RelFork} {fork : Fork} {isLocalBuffer : Bool} {moment : IoMoment} {block : UInt32}
  {entry : IoVec} {mem : Memory}

theorem readEntry_snd : (readEntry rf fork isLocalBuffer moment block entry mem).2 =
    (readBlocks rf fork moment.toMoment block entry.nblocks entry.iovBase mem).2 := by
  unfold readEntry submitAndWaitRaw
  split_ifs <;> rfl

theorem readEntry_eq (h : ¬ moment.Fails rf isLocalBuffer block entry) :
    readEntry rf fork isLocalBuffer moment block entry mem =
      readBlocks rf fork moment.toMoment block entry.nblocks entry.iovBase mem := by
  unfold IoMoment.Fails at h
  rw [not_or] at h
  unfold readEntry submitAndWaitRaw
  split_ifs with h1 h2
  · rw [h1, h2] at h
    exact absurd rfl h.1
  · rfl
  · rfl

theorem readEntry_error (h : moment.Fails rf isLocalBuffer block entry) :
    ∃ e, (readEntry rf fork isLocalBuffer moment block entry mem).1 = .error e := by
  unfold readEntry submitAndWaitRaw
  split_ifs with h1 h2
  · exact ⟨_, rfl⟩
  · apply readBlocks_error
    apply h.resolve_left
    rw [h1, Bool.true_and]
    exact h2
  · apply readBlocks_error
    apply h.resolve_left
    intro hstop
    rw [Bool.and_eq_true] at hstop
    exact h1 hstop.1

theorem count_toNat (h : ¬ moment.Fails rf isLocalBuffer block entry) :
    moment.toMoment.count block entry.nblocks =
        (subRead moment block entry).count ∧
      block.toNat + (subRead moment block entry).count.toNat < 2 ^ 32 ∧
      (subRead moment block entry).count.toNat ≤ entry.nblocks.toNat := by
  have hfails := (not_or.mp h).2
  obtain ⟨size, hsize, hle, -⟩ := Moment.not_fails_iff.mp hfails
  have hcount := Moment.count_of_le (n := entry.nblocks) hsize hle
  have heq : moment.toMoment.count block entry.nblocks =
      (subRead moment block entry).count := by
    unfold Moment.count SubRead.count subRead
    rw [hsize]
    rfl
  rw [← heq]
  have hlt := size.toNat_lt
  have hle' := UInt32.le_iff_toNat_le.mp hle
  exact ⟨rfl, by omega, by omega⟩

end Entry

/-! ## A call -/

/-- The copies of the sub-requests that are answered. -/
def ioCopies (S : List SubRead) : List (ℕ × ℕ) :=
  S.flatMap fun r => copyRun r.entry.iovBase (r.block.toNat * blcksz) (r.count.toNat * blcksz)

/-- The addresses of their entries. -/
def servedBytes (S : List SubRead) : List ℕ := S.flatMap fun r => r.entry.bytes

/-- The blocks that they read. -/
def blocksDone (S : List SubRead) : ℕ := (S.map fun r => r.count.toNat).sum

theorem ioCopies_cons (r : SubRead) (S : List SubRead) : ioCopies (r :: S) =
    copyRun r.entry.iovBase (r.block.toNat * blcksz) (r.count.toNat * blcksz) ++ ioCopies S :=
  List.flatMap_cons

theorem blocksDone_cons (r : SubRead) (S : List SubRead) :
    blocksDone (r :: S) = r.count.toNat + blocksDone S := by
  unfold blocksDone
  rw [List.map_cons, List.sum_cons]

section Call

variable {rf : RelFork} {isLocalBuffer : Bool} {block first : UInt32} {iov : List IoVec}
  {moments : ℕ → IoMoment}

/-- The answered sub-requests are of the first entries. -/
theorem served_prefix : (served rf isLocalBuffer block iov moments).map SubRead.entry <+: iov := by
  induction iov generalizing block moments with
  | nil => exact List.nil_prefix
  | cons entry iov ih =>
    unfold served
    split_ifs
    · exact List.nil_prefix
    · exact List.cons_prefix_cons.mpr ⟨rfl, ih⟩

theorem map_snd_ioCopies_nil (pos : ℕ) :
    (ioCopies []).map Prod.snd = List.range' pos (blocksDone [] * blcksz) := by
  unfold blocksDone
  rw [List.map_nil, List.sum_nil, Nat.zero_mul]
  rfl

variable (rf isLocalBuffer block iov moments) in
/-- They read consecutive blocks. -/
theorem map_snd_ioCopies : (ioCopies (served rf isLocalBuffer block iov moments)).map Prod.snd =
    List.range' (block.toNat * blcksz)
      (blocksDone (served rf isLocalBuffer block iov moments) * blcksz) := by
  induction iov generalizing block moments with
  | nil => exact map_snd_ioCopies_nil _
  | cons entry iov ih =>
    unfold served
    split_ifs with h
    · exact map_snd_ioCopies_nil _
    · obtain ⟨-, hlt, -⟩ := count_toNat h
      have hadd : (block + (subRead (moments 0) block entry).count).toNat =
          block.toNat + (subRead (moments 0) block entry).count.toNat := by
        rw [UInt32.toNat_add, Nat.mod_eq_of_lt hlt]
      have hrest := ih (block + (subRead (moments 0) block entry).count) fun k => moments (k + 1)
      rw [hadd, Nat.add_mul] at hrest
      rw [ioCopies_cons, List.map_append, map_snd_copyRun, hrest, blocksDone_cons, Nat.add_mul]
      exact List.range'_append_1

variable (rf isLocalBuffer iov moments) in
/-- **A call copies what its answered sub-requests read**, and counts it. A failed sub-request may have
written into its own entry. -/
theorem performIoLoop_spec (fork : Fork) (mem : Memory) (hle : first ≤ block) :
    (∀ a ∉ iovBytes (iov.drop (served rf isLocalBuffer block iov moments).length),
      (performIoLoop rf fork isLocalBuffer first block iov moments mem).2 a =
        scatter fork (ioCopies (served rf isLocalBuffer block iov moments)) mem a) ∧
    ((performIoLoop rf fork isLocalBuffer first block iov moments mem).1 = .ok ((block.toNat -
        first.toNat + blocksDone (served rf isLocalBuffer block iov moments)) * blcksz) ∨
      (∃ e, (performIoLoop rf fork isLocalBuffer first block iov moments mem).1 = .error e) ∧
        block.toNat - first.toNat + blocksDone (served rf isLocalBuffer block iov moments) = 0) := by
  induction iov generalizing block moments mem with
  | nil => exact ⟨fun a _ => rfl, Or.inl rfl⟩
  | cons entry iov ih =>
    by_cases h : (moments 0).Fails rf isLocalBuffer block entry
    · have hserved : served rf isLocalBuffer block (entry :: iov) moments = [] := by
        unfold served
        rw [if_pos h]
      rw [hserved]
      obtain ⟨e, he⟩ : ∃ e, (readEntry rf fork isLocalBuffer (moments 0) block entry mem).1 =
        .error e := readEntry_error h
      have hframe : ∀ a ∉ iovBytes (entry :: iov),
          (readEntry rf fork isLocalBuffer (moments 0) block entry mem).2 a = mem a := by
        intro a ha
        rw [readEntry_snd]
        apply readBlocks_frame
        unfold iovBytes at ha
        rw [List.flatMap_cons, List.mem_append, not_or, IoVec.bytes, List.mem_range'_1] at ha
        have hlen := entry.nblocks_le
        omega
      unfold performIoLoop
      rcases hread : readEntry rf fork isLocalBuffer (moments 0) block entry mem with ⟨result, mem'⟩
      rw [hread] at he hframe
      change result = _ at he
      subst he
      dsimp only at hframe ⊢
      have hsub : (block - first).toNat = block.toNat - first.toNat := UInt32.toNat_sub_of_le _ _ hle
      constructor
      · intro a ha
        split_ifs
        · exact hframe a ha
        · exact hframe a ha
      · split_ifs with hdone
        · left
          rw [hsub]
          rfl
        · right
          refine ⟨⟨_, rfl⟩, ?_⟩
          have hzero : ¬ 0 < (block - first).toNat := fun h0 => hdone (UInt32.lt_iff_toNat_lt.mpr h0)
          rw [hsub] at hzero
          change block.toNat - first.toNat + 0 = 0
          omega
    · obtain ⟨hcount, hlt, -⟩ := count_toNat h
      have hserved : served rf isLocalBuffer block (entry :: iov) moments =
          subRead (moments 0) block entry :: served rf isLocalBuffer
            (block + (subRead (moments 0) block entry).count) iov
            fun k => moments (k + 1) := by
        rw [served, if_neg h]
      have hadd : (block + (subRead (moments 0) block entry).count).toNat =
          block.toNat + (subRead (moments 0) block entry).count.toNat := by
        rw [UInt32.toNat_add, Nat.mod_eq_of_lt hlt]
      have hle' := UInt32.le_iff_toNat_le.mp hle
      have hstep := ih (fun k => moments (k + 1))
        (scatter fork (copyRun entry.iovBase (block.toNat * blcksz)
          ((subRead (moments 0) block entry).count.toNat * blcksz)) mem)
        (UInt32.le_iff_toNat_le.mpr (show first.toNat ≤
          (block + (subRead (moments 0) block entry).count).toNat by omega))
      rw [hadd, Nat.sub_add_comm hle'] at hstep
      rw [hserved, ioCopies_cons, scatter_append, blocksDone_cons, List.length_cons,
        List.drop_succ_cons]
      unfold performIoLoop
      rw [readEntry_eq h, readBlocks_eq (not_or.mp h).2, hcount, ← Nat.add_assoc]
      exact hstep

/-- The addresses of the answered sub-requests come first. -/
theorem iovBytes_served (rf : RelFork) (isLocalBuffer : Bool) (block : UInt32) (iov : List IoVec)
    (moments : ℕ → IoMoment) : iovBytes iov = servedBytes (served rf isLocalBuffer block iov moments) ++
      iovBytes (iov.drop (served rf isLocalBuffer block iov moments).length) := by
  have hprefix : (served rf isLocalBuffer block iov moments).map SubRead.entry <+: iov :=
    served_prefix
  rw [List.prefix_iff_eq_append, List.length_map] at hprefix
  conv_lhs => rw [← hprefix]
  unfold iovBytes servedBytes
  rw [List.flatMap_append, List.flatMap_map]

theorem take_bytes (r : SubRead) : r.entry.bytes.take (r.count.toNat * blcksz) =
    List.range' r.entry.iovBase (r.count.toNat * blcksz) := by
  rw [IoVec.bytes, List.take_range'_of_length_ge r.count_le]

theorem ioCopies_sublist (S : List SubRead) :
    ((ioCopies S).map Prod.fst).Sublist (servedBytes S) := by
  induction S with
  | nil => exact List.Sublist.slnil
  | cons r S ih =>
    unfold servedBytes
    rw [ioCopies_cons, List.map_append, map_fst_copyRun, ← take_bytes, List.flatMap_cons]
    exact (List.take_sublist _ _).append ih

/-- **The run is steady exactly if it fills the front of the entries that are answered.** -/
theorem steady_iff (hdisjoint : (iovBytes iov).Nodup) :
    Steady rf isLocalBuffer block iov moments ↔
      (ioCopies (served rf isLocalBuffer block iov moments)).map Prod.fst <+:
        servedBytes (served rf isLocalBuffer block iov moments) := by
  rw [iovBytes_served rf isLocalBuffer block iov moments] at hdisjoint
  have hnodup := (List.nodup_append.mp hdisjoint).1
  unfold Steady
  generalize served rf isLocalBuffer block iov moments = S at hnodup
  have hparts := take_flatMap_prefix_iff
    (S := S.map fun r => (r.entry.bytes, r.count.toNat * blcksz)) (by rwa [List.flatMap_map]) (by
      intro p hp
      obtain ⟨r, -, rfl⟩ := List.mem_map.mp hp
      rw [IoVec.bytes, List.length_range']
      exact r.count_le)
  rw [List.flatMap_map, List.flatMap_map, List.pairwise_map] at hparts
  unfold ioCopies servedBytes
  simp only [List.map_flatMap, map_fst_copyRun, ← take_bytes]
  rw [hparts]
  simp only [SubRead.Unfilled, IoVec.bytes, List.length_range', Nat.mul_eq_zero,
    IoVec.blcksz_pos.ne', or_false, ← UInt32.toNat_inj, UInt32.toNat_zero]

end Call

/-- **The blocks that are counted are at the front of the buffers exactly if the run is steady.** -/
theorem performIoFills_iff {rf : RelFork} {isLocalBuffer : Bool} {blockNumber : UInt32}
    {iov : List IoVec} {moments : ℕ → IoMoment} (hdisjoint : (iovBytes iov).Nodup) :
    PerformIoFills rf isLocalBuffer blockNumber iov moments ↔
      Steady rf isLocalBuffer blockNumber iov moments := by
  rw [steady_iff hdisjoint]
  have hsplit := iovBytes_served rf isLocalBuffer blockNumber iov moments
  have hspec := fun fork mem => performIoLoop_spec rf isLocalBuffer iov moments fork mem
    (UInt32.le_refl blockNumber)
  have hsnd := map_snd_ioCopies rf isLocalBuffer blockNumber iov moments
  unfold PerformIoFills performIo
  generalize served rf isLocalBuffer blockNumber iov moments = S at *
  simp only [Nat.sub_self, Nat.zero_add] at hspec
  have hlength : ((ioCopies S).map Prod.fst).length = blocksDone S * blcksz := by
    rw [List.length_map, ← List.length_map Prod.snd, hsnd, List.length_range']
  rw [hsplit] at hdisjoint ⊢
  obtain ⟨hnodup, -, hapart⟩ := List.nodup_append.mp hdisjoint
  have hwritten := (ioCopies_sublist S).nodup hnodup
  constructor
  · intro h
    rw [List.prefix_iff_getElem?]
    intro x hx
    have hbytes : x < (servedBytes S).length := hx.trans_le (ioCopies_sublist S).length_le
    rw [hlength] at hx
    have hlt : x / blcksz < blocksDone S := Nat.div_lt_of_lt_mul (by rwa [Nat.mul_comm])
    have hmod := Nat.mod_lt x IoVec.blcksz_pos
    -- a call that reads a block returns what it has read
    have hok : ∀ fork mem, (performIoLoop rf fork isLocalBuffer blockNumber blockNumber iov moments
        mem).1 = .ok (blocksDone S * blcksz) := by
      intro fork mem
      rcases (hspec fork mem).2 with hok | ⟨-, hzero⟩
      · exact hok
      · rw [hzero] at hlt
        exact absurd hlt (Nat.not_lt_zero _)
    -- the address is of an answered entry, so that only its copies write to it
    have hcopied : ((servedBytes S)[x], blockNumber.toNat * blcksz + x) ∈ ioCopies S := by
      refine (scatter_iff hwritten).mp fun (fork : Fork) mem => ?_
      obtain ⟨a, ha, hfork⟩ := h fork mem _ (hok fork mem) _ hlt _ hmod
      rw [Nat.div_add_mod', List.getElem?_append_left hbytes, List.getElem?_eq_getElem hbytes,
        Option.some_inj] at ha
      subst ha
      rw [(hspec fork mem).1 _ fun hrest => hapart _ (List.getElem_mem hbytes) _ hrest rfl] at hfork
      rw [hfork, Nat.add_mul, Nat.add_assoc, Nat.div_add_mod']
    rw [List.getElem?_eq_getElem hbytes, ← (mem_iff_of_map_snd hsnd).mp hcopied]
    exact List.getElem?_eq_getElem _
  · intro h fork mem n hn i hi o ho
    have hn' : n = blocksDone S := by
      rcases (hspec fork mem).2 with hok | ⟨⟨e, he⟩, -⟩
      · rw [hok, Except.ok.injEq] at hn
        exact (Nat.eq_of_mul_eq_mul_right IoVec.blcksz_pos hn).symm
      · rw [he] at hn
        cases hn
    have hx : i * blcksz + o < ((ioCopies S).map Prod.fst).length := by
      have hmul : (i + 1) * blcksz ≤ n * blcksz := Nat.mul_le_mul_right _ hi
      rw [hlength, ← hn']
      rw [Nat.add_mul] at hmul
      omega
    have hget := List.prefix_iff_getElem?.mp h _ hx
    have hmem := List.mem_of_getElem? hget
    refine ⟨_, List.getElem?_append_left (List.getElem?_eq_some_iff.mp hget).1 ▸ hget, ?_⟩
    rw [(hspec fork mem).1 _ fun hrest => hapart _ hmem _ hrest rfl, Nat.add_mul, Nat.add_assoc]
    apply scatter_of_mem hwritten
    exact (mem_iff_of_map_snd hsnd).mpr (List.getElem?_eq_getElem hx)

/-! ## Both calls -/

/-- **The two ways of reading into several buffers fill the right ones**, for buffers that do not overlap,
exactly if: a sub-request fails or the fork covers every run (`tiko_readv`); no sub-request reads a
block after one that does not fill its buffer (`perform_io`). -/
theorem fills_iff {rf : RelFork} {blocknum : UInt32} {buffers : ℕ → ℕ} {nblocks : UInt32}
    {moments : ℕ → Moment} {isLocalBuffer : Bool} {blockNumber : UInt32} {iov : List IoVec}
    {ioMoments : ℕ → IoMoment}
    (hapart : ((List.range nblocks.toNat).flatMap fun i => List.range' (buffers i) blcksz).Nodup)
    (hdisjoint : (iovBytes iov).Nodup) :
    (ReadvFills rf blocknum buffers nblocks moments ↔
      SomeFails rf blocknum 0 (buffersToIov buffers nblocks) moments ∨
        AllCovered blocknum 0 (buffersToIov buffers nblocks) moments) ∧
    (PerformIoFills rf isLocalBuffer blockNumber iov ioMoments ↔
      Steady rf isLocalBuffer blockNumber iov ioMoments) :=
  ⟨readvFills_iff hapart, performIoFills_iff hdisjoint⟩

/-- A fork of a number of blocks that can be read. -/
def forkOf (nblocks : UInt32) : Moment := ⟨some nblocks, none⟩

theorem nodup_flatMap_range' {ι : Type} {l : List ι} {base len : ι → ℕ}
    (h : l.Pairwise fun a b => base a + len a ≤ base b) :
    (l.flatMap fun a => List.range' (base a) (len a)).Nodup := by
  refine List.nodup_flatMap.mpr ⟨fun _ _ => List.nodup_range', h.imp fun {a b} hab x hx hy => ?_⟩
  rw [List.mem_range'_1] at hx hy
  omega

/-- Four buffers, of which the first two are adjacent. -/
def someBuffers (i : ℕ) : ℕ := if i < 2 then i * blcksz else 2 * i * blcksz

/-- Three runs of buffers. -/
def someRuns : List IoVec := [⟨0, 2 * blcksz⟩, ⟨4 * blcksz, blcksz⟩, ⟨8 * blcksz, 3 * blcksz⟩]

/-- Three sub-requests each; the last one of `perform_io` is behind the end of the fork. -/
theorem fills_iff_scattered :
    ReadvFills ⟨1663, 5, 16384, 0⟩ 30 someBuffers 4 (fun _ => forkOf 40) ∧
    PerformIoFills ⟨1663, 5, 16384, 0⟩ false 30 someRuns fun k => ⟨forkOf 34, decide (k = 1), false⟩ := by
  have hbuffers : ((List.range (4 : UInt32).toNat).flatMap fun i =>
      List.range' (someBuffers i) blcksz).Nodup := by
    refine @nodup_flatMap_range' _ _ _ (fun _ => blcksz) ?_
    decide
  have hruns : (iovBytes someRuns).Nodup := by
    refine nodup_flatMap_range' ?_
    decide
  have hiff : (ReadvFills ⟨1663, 5, 16384, 0⟩ 30 someBuffers 4 (fun _ => forkOf 40) ↔ _) ∧
      (PerformIoFills ⟨1663, 5, 16384, 0⟩ false 30 someRuns
        (fun k => ⟨forkOf 34, decide (k = 1), false⟩) ↔ _) :=
    fills_iff hbuffers hruns
  refine ⟨hiff.1.mpr (.inr ?_), hiff.2.mpr ?_⟩
  · have hiov : buffersToIov someBuffers 4 =
        [⟨0, 2 * blcksz⟩, ⟨4 * blcksz, blcksz⟩, ⟨6 * blcksz, blcksz⟩] := rfl
    have hcovers : ∀ block n : UInt32, block.toNat + n.toNat ≤ 40 → (forkOf 40).Covers block n :=
      fun block n h size hsize => Option.some.inj hsize ▸ h
    rw [hiov]
    exact ⟨hcovers _ _ (by decide), hcovers _ _ (by decide), hcovers _ _ (by decide), trivial⟩
  · have hserved : served ⟨1663, 5, 16384, 0⟩ false 30 someRuns
        (fun k => ⟨forkOf 34, decide (k = 1), false⟩) =
          [⟨⟨0, 2 * blcksz⟩, 30, 34⟩, ⟨⟨4 * blcksz, blcksz⟩, 32, 34⟩, ⟨⟨8 * blcksz, 3 * blcksz⟩, 33, 34⟩] := rfl
    unfold Steady SubRead.Unfilled
    rw [hserved]
    decide

/-- Two blocks are asked for. `tiko_readv` returns from a fork of one block with the second buffer as it
was; `perform_io` finds no block for the first buffer, then one for the second, and returns one. -/
theorem shortRead_notNoticed :
    ¬ ReadvFills default 0 (fun i => i * blcksz) 2 (fun _ => forkOf 1) ∧
    ¬ PerformIoFills default false 1 [⟨0, blcksz⟩, ⟨2 * blcksz, blcksz⟩]
      fun k => ⟨forkOf (if k = 0 then 1 else 2), false, false⟩ := by
  constructor
  · intro h
    have hhold := h (fun _ => 1) (fun _ => 0) rfl 1 (by decide) 0 (by decide)
    revert hhold
    decide +kernel
  · intro h
    obtain ⟨a, ha, hbyte⟩ := h (fun _ => 1) (fun _ => 0) 1 rfl 0 (by decide) 0 (by decide)
    have hfirst : (iovBytes [⟨0, blcksz⟩, ⟨2 * blcksz, blcksz⟩])[0 * blcksz + 0]? = some 0 := rfl
    obtain rfl : a = 0 := Option.some_inj.mp (ha.symm.trans hfirst)
    revert hbyte
    decide +kernel

end Tiko.Smgr

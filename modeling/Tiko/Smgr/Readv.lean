import Tiko.Smgr.Blocks

/-!
# Reading into several buffers

`buffers_to_iov` merges the buffers that lie next to each other into runs. `tiko_readv` reads one run
after the other, and does not look at the number of blocks that `read_blocks` returns.

* `buffersToIov`, `tikoReadv`: the code;
* `SomeFails`, `AllCovered`: what the sub-requests meet, one after the other;
* `ReadvFills`: if the call returns, every buffer holds its block.

**`readvFills_iff`**: every buffer is filled exactly if a sub-request fails, so that the call raises, or
the fork covers every run when it is read.
-/

namespace Tiko.Smgr

open Lib

/-! ## The code -/

/-- `IoVec`. -/
structure IoVec where
  iovBase : ℕ
  iovLen : ℕ

/-- `(entry.iov_len / BLCKSZ) as u32`. -/
def IoVec.nblocks (entry : IoVec) : UInt32 := UInt32.ofNat (entry.iovLen / blcksz)

/-- One round of the loop of `buffers_to_iov`. -/
def pushBuffer (iov : List IoVec) (base : ℕ) : List IoVec :=
  match iov.getLast? with
  | some prev =>
    if prev.iovBase + prev.iovLen = base then
      iov.dropLast ++ [{ prev with iovLen := prev.iovLen + blcksz }]
    else iov ++ [⟨base, blcksz⟩]
  | none => iov ++ [⟨base, blcksz⟩]

/-- `buffers_to_iov`. -/
def buffersToIov (buffers : ℕ → ℕ) (nblocks : UInt32) : List IoVec :=
  (List.range nblocks.toNat).foldl (fun iov i => pushBuffer iov (buffers i)) []

/-- The loop of `tiko_readv`. The error that it logs ends it. -/
def readvLoop (rf : RelFork) (fork : Fork) (blocknum : UInt32) :
    UInt32 → List IoVec → (ℕ → Moment) → Memory → Except Error Unit × Memory
  | _, [], _, mem => (.ok (), mem)
  | blockOffset, entry :: iov, moments, mem =>
    match readBlocks rf fork (moments 0) (blocknum + blockOffset) entry.nblocks entry.iovBase mem with
    | (.error err, mem) => (.error err, mem)
    | (.ok _, mem) =>
      readvLoop rf fork blocknum (blockOffset + entry.nblocks) iov (fun k => moments (k + 1)) mem

/-- `tiko_readv`, with what its sub-requests meet. -/
def tikoReadv (rf : RelFork) (fork : Fork) (blocknum : UInt32) (buffers : ℕ → ℕ) (nblocks : UInt32)
    (moments : ℕ → Moment) (mem : Memory) : Except Error Unit × Memory :=
  if nblocks = 0 then (.ok (), mem)
  else readvLoop rf fork blocknum 0 (buffersToIov buffers nblocks) moments mem

/-! ## The property and its condition -/

/-- The buffer at `ptr` holds a block. -/
def Holds (mem : Memory) (ptr : ℕ) (fork : Fork) (block : UInt32) : Prop :=
  ∀ o < blcksz, mem (ptr + o) = fork (block.toNat * blcksz + o)

/-- Whatever the fork and the buffers contain: if the call returns, buffer `i` holds block
`blocknum + i`. -/
def ReadvFills (rf : RelFork) (blocknum : UInt32) (buffers : ℕ → ℕ) (nblocks : UInt32)
    (moments : ℕ → Moment) : Prop :=
  ∀ fork mem, (tikoReadv rf fork blocknum buffers nblocks moments mem).1 = .ok () →
    ∀ i < nblocks.toNat, Holds (tikoReadv rf fork blocknum buffers nblocks moments mem).2 (buffers i)
      fork (blocknum + UInt32.ofNat i)

/-- A sub-request fails. -/
def SomeFails (rf : RelFork) (blocknum : UInt32) : UInt32 → List IoVec → (ℕ → Moment) → Prop
  | _, [], _ => False
  | off, entry :: iov, moments =>
    (moments 0).Fails rf (blocknum + off) entry.nblocks ∨
      SomeFails rf blocknum (off + entry.nblocks) iov fun k => moments (k + 1)

/-- The fork covers every run when it is read. -/
def AllCovered (blocknum : UInt32) : UInt32 → List IoVec → (ℕ → Moment) → Prop
  | _, [], _ => True
  | off, entry :: iov, moments =>
    (moments 0).Covers (blocknum + off) entry.nblocks ∧
      AllCovered blocknum (off + entry.nblocks) iov fun k => moments (k + 1)

/-! ## Runs of buffers -/

namespace IoVec

/-- The addresses of a run. -/
def bytes (entry : IoVec) : List ℕ := List.range' entry.iovBase entry.iovLen

/-- The buffers of a run. -/
def pages (entry : IoVec) : List ℕ :=
  (List.range (entry.iovLen / blcksz)).map fun k => entry.iovBase + k * blcksz

theorem blcksz_pos : 0 < blcksz := by decide

theorem nblocks_le (entry : IoVec) : entry.nblocks.toNat * blcksz ≤ entry.iovLen := by
  rw [nblocks, UInt32.toNat_ofNat']
  exact (Nat.mul_le_mul_right _ (Nat.mod_le _ _)).trans (Nat.div_mul_le_self _ _)

theorem pages_single (base : ℕ) : pages ⟨base, blcksz⟩ = [base] := by
  unfold pages
  dsimp only
  rw [Nat.div_self blcksz_pos, List.range_one, List.map_singleton, Nat.zero_mul, Nat.add_zero]

theorem pages_extend {e : IoVec} (h : blcksz ∣ e.iovLen) :
    pages { e with iovLen := e.iovLen + blcksz } = e.pages ++ [e.iovBase + e.iovLen] := by
  unfold pages
  dsimp only
  rw [Nat.add_div_right _ blcksz_pos, List.range_succ, List.map_append, List.map_singleton,
    Nat.div_mul_cancel h]

theorem bytes_extend (e : IoVec) : bytes { e with iovLen := e.iovLen + blcksz } =
    e.bytes ++ List.range' (e.iovBase + e.iovLen) blcksz := by
  unfold bytes
  dsimp only
  rw [List.range'_append_1]

end IoVec

/-- The addresses of an array of runs. -/
def iovBytes (iov : List IoVec) : List ℕ := iov.flatMap IoVec.bytes

/-- One more buffer, next to the last one or not. -/
theorem pushBuffer_spec {iov : List IoVec} (hdvd : ∀ e ∈ iov, blcksz ∣ e.iovLen) (base : ℕ) :
    (∀ e ∈ pushBuffer iov base, blcksz ∣ e.iovLen) ∧
      (pushBuffer iov base).flatMap IoVec.pages = iov.flatMap IoVec.pages ++ [base] ∧
      iovBytes (pushBuffer iov base) = iovBytes iov ++ List.range' base blcksz := by
  have hpush : (∀ e ∈ iov ++ [IoVec.mk base blcksz], blcksz ∣ e.iovLen) ∧
      (iov ++ [IoVec.mk base blcksz]).flatMap IoVec.pages = iov.flatMap IoVec.pages ++ [base] ∧
      iovBytes (iov ++ [IoVec.mk base blcksz]) = iovBytes iov ++ List.range' base blcksz := by
    refine ⟨?_, ?_, ?_⟩
    · intro e he
      rcases List.mem_append.mp he with he | he
      · exact hdvd e he
      · rw [List.mem_singleton.mp he]
    · rw [List.flatMap_append, List.flatMap_singleton, IoVec.pages_single]
    · unfold iovBytes
      rw [List.flatMap_append, List.flatMap_singleton, IoVec.bytes]
  rcases List.eq_nil_or_concat iov with rfl | ⟨init, prev, rfl⟩
  · exact hpush
  · rw [List.concat_eq_append] at hdvd hpush ⊢
    unfold pushBuffer
    rw [List.getLast?_concat]
    dsimp only
    split_ifs with hnext
    · have hprev : blcksz ∣ prev.iovLen := hdvd prev (by simp)
      rw [List.dropLast_concat]
      refine ⟨?_, ?_, ?_⟩
      · intro e he
        rcases List.mem_append.mp he with he | he
        · exact hdvd e (List.mem_append_left _ he)
        · rw [List.mem_singleton.mp he]
          exact Dvd.dvd.add hprev dvd_rfl
      · rw [List.flatMap_append, List.flatMap_append, List.flatMap_singleton, List.flatMap_singleton,
          IoVec.pages_extend hprev, hnext, List.append_assoc]
      · unfold iovBytes
        rw [List.flatMap_append, List.flatMap_append, List.flatMap_singleton, List.flatMap_singleton,
          IoVec.bytes_extend, hnext, List.append_assoc]
    · exact hpush

/-- **The runs are the buffers, in order.** -/
theorem buffersToIov_spec (buffers : ℕ → ℕ) (n : UInt32) :
    (∀ e ∈ buffersToIov buffers n, blcksz ∣ e.iovLen) ∧
      (buffersToIov buffers n).flatMap IoVec.pages = (List.range n.toNat).map buffers ∧
      iovBytes (buffersToIov buffers n) =
        (List.range n.toNat).flatMap fun i => List.range' (buffers i) blcksz := by
  unfold buffersToIov
  generalize n.toNat = n
  induction n with
  | zero =>
    refine ⟨?_, rfl, rfl⟩
    intro e he
    cases he
  | succ n ih =>
    obtain ⟨hdvd, hpages, hbytes⟩ := ih
    have hpush := pushBuffer_spec hdvd (buffers n)
    rw [List.range_succ, List.foldl_append, List.foldl_cons, List.foldl_nil]
    refine ⟨hpush.1, ?_, ?_⟩
    · rw [hpush.2.1, hpages, List.map_append, List.map_singleton]
    · rw [hpush.2.2, hbytes, List.flatMap_append, List.flatMap_singleton]

/-! ## What is copied -/

/-- The copies of a call without a failure. -/
def readvCopies (blocknum : UInt32) : UInt32 → List IoVec → (ℕ → Moment) → List (ℕ × ℕ)
  | _, [], _ => []
  | off, entry :: iov, moments =>
    copyRun entry.iovBase ((blocknum + off).toNat * blcksz)
        (((moments 0).count (blocknum + off) entry.nblocks).toNat * blcksz) ++
      readvCopies blocknum (off + entry.nblocks) iov fun k => moments (k + 1)

section Loop

variable {rf : RelFork} {blocknum off : UInt32} {iov : List IoVec} {moments : ℕ → Moment}

theorem readvLoop_eq (fork : Fork) (mem : Memory) (h : ¬ SomeFails rf blocknum off iov moments) :
    readvLoop rf fork blocknum off iov moments mem =
      (.ok (), scatter fork (readvCopies blocknum off iov moments) mem) := by
  induction iov generalizing off moments mem with
  | nil => rfl
  | cons entry iov ih =>
    unfold SomeFails at h
    rw [not_or] at h
    unfold readvLoop readvCopies
    rw [readBlocks_eq h.1, scatter_append]
    exact ih _ h.2

theorem readvLoop_error (fork : Fork) (mem : Memory) (h : SomeFails rf blocknum off iov moments) :
    ∃ e, (readvLoop rf fork blocknum off iov moments mem).1 = .error e := by
  induction iov generalizing off moments mem with
  | nil => cases h
  | cons entry iov ih =>
    unfold readvLoop
    by_cases hfail : (moments 0).Fails rf (blocknum + off) entry.nblocks
    · obtain ⟨e, he⟩ : ∃ e, (readBlocks rf fork (moments 0) (blocknum + off) entry.nblocks
        entry.iovBase mem).1 = .error e := readBlocks_error hfail
      rcases hread : readBlocks rf fork (moments 0) (blocknum + off) entry.nblocks entry.iovBase mem
        with ⟨result, mem'⟩
      rw [hread] at he
      change result = _ at he
      subst he
      exact ⟨e, rfl⟩
    · rw [readBlocks_eq hfail]
      exact ih _ (h.resolve_left hfail)

/-- A call writes within the runs, and to every address once. -/
theorem readvCopies_sublist (h : ¬ SomeFails rf blocknum off iov moments) :
    ((readvCopies blocknum off iov moments).map Prod.fst).Sublist (iovBytes iov) := by
  induction iov generalizing off moments with
  | nil => exact List.Sublist.slnil
  | cons entry iov ih =>
    unfold SomeFails at h
    rw [not_or] at h
    have hcount := Moment.count_le h.1
    unfold readvCopies iovBytes
    rw [List.map_append, map_fst_copyRun, List.flatMap_cons]
    refine (List.range'_sublist_right.mpr ?_).append (ih h.2)
    exact (Nat.mul_le_mul_right _ hcount).trans entry.nblocks_le

/-- **Where the fork covers every run, every buffer gets its block.** -/
theorem mem_readvCopies (hcov : AllCovered blocknum off iov moments)
    (h : ¬ SomeFails rf blocknum off iov moments)
    (hlen : ∀ e ∈ iov, e.nblocks.toNat * blcksz = e.iovLen) {i page : ℕ}
    (hi : (iov.flatMap IoVec.pages)[i]? = some page) {o : ℕ} (ho : o < blcksz) :
    (page + o, (blocknum + off + UInt32.ofNat i).toNat * blcksz + o) ∈
      readvCopies blocknum off iov moments := by
  induction iov generalizing off moments i with
  | nil => cases hi
  | cons entry iov ih =>
    unfold SomeFails at h
    rw [not_or] at h
    obtain ⟨hcov, hrest⟩ := hcov
    have hnblocks : entry.nblocks.toNat = entry.iovLen / blcksz := by
      rw [← hlen entry List.mem_cons_self, Nat.mul_div_cancel _ IoVec.blcksz_pos]
    obtain ⟨size, hsize, hle, -⟩ := Moment.not_fails_iff.mp h.1
    have hcount := Moment.count_of_le (n := entry.nblocks) hsize hle
    have hcov' := hcov size hsize
    have hlt := size.toNat_lt
    unfold readvCopies
    rw [List.mem_append]
    rw [List.flatMap_cons, List.getElem?_append] at hi
    have hpages : entry.pages.length = entry.nblocks.toNat := by
      rw [hnblocks, IoVec.pages, List.length_map, List.length_range]
    split_ifs at hi with hin
    · -- a buffer of this run, whose block is not past the end of the fork
      left
      rw [hpages] at hin
      rw [IoVec.pages, List.getElem?_map, List.getElem?_range (hnblocks ▸ hin), Option.map_some,
        Option.some_inj] at hi
      have hblock : (blocknum + off + UInt32.ofNat i).toNat = (blocknum + off).toNat + i := by
        rw [UInt32.toNat_add _ (UInt32.ofNat i), UInt32.toNat_ofNat']
        omega
      rw [mem_copyRun, hblock]
      refine ⟨i * blcksz + o, ?_, by omega, by rw [Nat.add_mul]; omega⟩
      have hi' : i + 1 ≤ ((moments 0).count (blocknum + off) entry.nblocks).toNat := by omega
      have := Nat.mul_le_mul_right blcksz hi'
      rw [Nat.add_mul] at this
      omega
    · right
      have hstep := ih hrest h.2 (fun e he => hlen e (List.mem_cons_of_mem _ he)) hi
      have hblock : blocknum + (off + entry.nblocks) + UInt32.ofNat (i - entry.pages.length) =
          blocknum + off + UInt32.ofNat i := by
        rw [← UInt32.toNat_inj]
        simp only [UInt32.toNat_add, UInt32.toNat_ofNat', hpages]
        omega
      rw [hblock] at hstep
      exact hstep

/-- **Where every address is written, the fork covers every run.** -/
theorem allCovered_of_written (hnodup : (iovBytes iov).Nodup)
    (hlen : ∀ e ∈ iov, e.nblocks.toNat * blcksz = e.iovLen)
    (h : ¬ SomeFails rf blocknum off iov moments)
    (hwritten : ∀ a ∈ iovBytes iov, a ∈ (readvCopies blocknum off iov moments).map Prod.fst) :
    AllCovered blocknum off iov moments := by
  induction iov generalizing off moments with
  | nil => trivial
  | cons entry iov ih =>
    unfold SomeFails at h
    rw [not_or] at h
    have hlenRest : ∀ e ∈ iov, e.nblocks.toNat * blcksz = e.iovLen := fun e he =>
      hlen e (List.mem_cons_of_mem _ he)
    have hsub := (readvCopies_sublist h.2).subset
    unfold iovBytes at hnodup hwritten
    rw [List.flatMap_cons] at hnodup hwritten
    unfold readvCopies at hwritten
    rw [List.map_append, map_fst_copyRun] at hwritten
    have hdisjoint := (List.nodup_append.mp hnodup).2.2
    obtain ⟨size, hsize, hle, -⟩ := Moment.not_fails_iff.mp h.1
    have hcount := Moment.count_of_le (n := entry.nblocks) hsize hle
    have hentry := hlen entry List.mem_cons_self
    constructor
    · -- the last address of the run is written by this sub-request
      intro size' hsize'
      obtain rfl : size = size' := Option.some_inj.mp (hsize.symm.trans hsize')
      have hle' := UInt32.le_iff_toNat_le.mp hle
      by_contra hshort
      have hlast : entry.iovBase + entry.iovLen - 1 ∈ entry.bytes := by
        rw [IoVec.bytes, List.mem_range'_1]
        have : 1 * blcksz ≤ entry.nblocks.toNat * blcksz := Nat.mul_le_mul_right _ (by omega)
        have := IoVec.blcksz_pos
        omega
      rcases List.mem_append.mp (hwritten _ (List.mem_append_left _ hlast)) with hmem | hmem
      · rw [List.mem_range'_1] at hmem
        have hmul : (((moments 0).count (blocknum + off) entry.nblocks).toNat + 1) * blcksz ≤
            entry.nblocks.toNat * blcksz := Nat.mul_le_mul_right _ (by omega)
        rw [Nat.add_mul] at hmul
        have := IoVec.blcksz_pos
        omega
      · exact hdisjoint _ hlast _ (hsub hmem) rfl
    · apply ih (List.nodup_append.mp hnodup).2.1 hlenRest h.2
      intro a ha
      rcases List.mem_append.mp (hwritten a (List.mem_append_right _ ha)) with hmem | hmem
      · exfalso
        refine hdisjoint a ?_ a ha rfl
        rw [List.mem_range'_1] at hmem
        rw [IoVec.bytes, List.mem_range'_1]
        have hmul : ((moments 0).count (blocknum + off) entry.nblocks).toNat * blcksz ≤
            entry.nblocks.toNat * blcksz := Nat.mul_le_mul_right _ (by omega)
        omega
      · exact hmem

end Loop

/-- The number of blocks of a run fits in `u32`. -/
theorem buffersToIov_nblocks (buffers : ℕ → ℕ) (n : UInt32) :
    ∀ e ∈ buffersToIov buffers n, e.nblocks.toNat * blcksz = e.iovLen := by
  intro e he
  obtain ⟨hdvd, hpages, -⟩ := buffersToIov_spec buffers n
  have hle : e.pages.length ≤ n.toNat := by
    have hsub := (List.sublist_flatten_of_mem (List.mem_map_of_mem (f := IoVec.pages) he)).length_le
    rw [← List.flatMap_def, hpages, List.length_map, List.length_range] at hsub
    exact hsub
  rw [IoVec.pages, List.length_map, List.length_range] at hle
  have hlt := n.toNat_lt
  rw [IoVec.nblocks, ChunkTagIter.toNat_ofNat_lt (by omega), Nat.div_mul_cancel (hdvd e he)]

theorem tikoReadv_eq (rf : RelFork) (fork : Fork) (blocknum : UInt32) (buffers : ℕ → ℕ)
    (nblocks : UInt32) (moments : ℕ → Moment) (mem : Memory) :
    tikoReadv rf fork blocknum buffers nblocks moments mem =
      readvLoop rf fork blocknum 0 (buffersToIov buffers nblocks) moments mem := by
  unfold tikoReadv
  split_ifs with h
  · rw [h]
    rfl
  · rfl

instance byte_nontrivial : Nontrivial UInt8 := ⟨0, 1, by decide⟩

/-- **The buffers are filled exactly if a sub-request fails or the fork covers every run.** -/
theorem readvFills_iff {rf : RelFork} {blocknum : UInt32} {buffers : ℕ → ℕ} {nblocks : UInt32}
    {moments : ℕ → Moment}
    (hapart : ((List.range nblocks.toNat).flatMap fun i => List.range' (buffers i) blcksz).Nodup) :
    ReadvFills rf blocknum buffers nblocks moments ↔
      SomeFails rf blocknum 0 (buffersToIov buffers nblocks) moments ∨
        AllCovered blocknum 0 (buffersToIov buffers nblocks) moments := by
  have hlen := buffersToIov_nblocks buffers nblocks
  obtain ⟨-, hpages, hbytes⟩ := buffersToIov_spec buffers nblocks
  rw [← hbytes] at hapart
  unfold ReadvFills
  simp only [tikoReadv_eq]
  by_cases hfail : SomeFails rf blocknum 0 (buffersToIov buffers nblocks) moments
  · refine ⟨fun _ => Or.inl hfail, fun _ fork mem hok => ?_⟩
    obtain ⟨e, he⟩ := readvLoop_error fork mem hfail
    rw [he] at hok
    cases hok
  · have hnodup := (readvCopies_sublist hfail).nodup hapart
    simp only [readvLoop_eq _ _ hfail, true_imp_iff]
    constructor
    · intro h
      right
      apply allCovered_of_written hapart hlen hfail
      intro a ha
      rw [hbytes, List.mem_flatMap] at ha
      obtain ⟨i, hi, ha⟩ := ha
      rw [List.mem_range'_1] at ha
      have hmem : (buffers i + (a - buffers i),
          (blocknum + UInt32.ofNat i).toNat * blcksz + (a - buffers i)) ∈
            readvCopies blocknum 0 (buffersToIov buffers nblocks) moments :=
        (scatter_iff hnodup).mp fun (fork : Fork) mem =>
          h fork mem i (List.mem_range.mp hi) (a - buffers i) (by omega)
      rw [Nat.add_sub_cancel' ha.1] at hmem
      exact List.mem_map_of_mem hmem
    · rintro (h | h) fork mem i hi o ho
      · exact absurd h hfail
      · apply scatter_of_mem hnodup
        have hpage : ((buffersToIov buffers nblocks).flatMap IoVec.pages)[i]? = some (buffers i) := by
          rw [hpages, List.getElem?_map, List.getElem?_range hi, Option.map_some]
        have hmem := mem_readvCopies h hfail hlen hpage ho
        rw [UInt32.add_zero] at hmem
        exact hmem

end Tiko.Smgr

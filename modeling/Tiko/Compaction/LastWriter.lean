import Tiko.Model.Manifest

/-!
# Last writer wins

A read resolves a chunk from the committed checkpoints, newest first, and then from the base
manifest. Compaction folds checkpoints into the base, where versions are compared by the LSN of
their write prefix alone.

* `LastWriterWins`: the fold keeps what every read resolves;
* `LsnOrdered`: the newest version by checkpoint is also the newest by the LSN of its prefix.

**`lastWriterWins_iff`**: the fold keeps what every read resolves, whatever the sort does with ties,
exactly under that condition. `branch_loses_first_interval` is the case that breaks it: the first
interval of a seeded branch writes under the default prefix, LSN zero, below every reference that
the branch inherited.
-/

namespace Tiko

open Lib

namespace Manifest

/-- The reference that a read resolves: the newest checkpoint that has the chunk, else the base. -/
def resolveChunk (m : Manifest) (segments : List SegmentCheckpoint) (dbId : UInt64)
    (tag : ChunkTag) : Option ChunkRef :=
  ((segments.reverse.find? (·.containsChunk tag)).map (·.chunkRef dbId)).or (m.lookup tag)

/-- Folding `segments` into `m` keeps what a read resolves, for every tag that is not deleted. -/
def LastWriterWins (S : CombinedSort) (m : Manifest) (segments : List SegmentCheckpoint)
    (dbId : UInt64) (now : ℤ) : Prop :=
  ∀ tag, isDeleted (m.mergedMeta segments) tag.relFork = false →
    (m.applySegments S segments dbId now).lookup tag = m.resolveChunk segments dbId tag

/-- The versions of a tag, of which `last` is the newest by checkpoint, are ordered by the LSN of
their write prefix: `last` is above the base and above every checkpoint with another prefix, or the
base already holds `last`'s reference and no checkpoint is above it. -/
def TagOrdered (base : Option ChunkRef) (segments : List SegmentCheckpoint) (dbId : UInt64)
    (tag : ChunkTag) (last : SegmentCheckpoint) : Prop :=
  ((∀ b, base = some b → b.lsn.toNat < last.prevCkpt.lsn.toNat) ∧
    ∀ seg ∈ segments, seg.containsChunk tag = true →
      seg.prevCkpt.lsn.toNat < last.prevCkpt.lsn.toNat ∨ seg.prevCkpt = last.prevCkpt) ∨
  (base = some (last.chunkRef dbId) ∧ ∀ seg ∈ segments, seg.containsChunk tag = true →
    seg.prevCkpt.lsn.toNat ≤ last.prevCkpt.lsn.toNat)

/-- Every tag that survives the fold is ordered by the LSN of its write prefixes. -/
def LsnOrdered (m : Manifest) (segments : List SegmentCheckpoint) (dbId : UInt64) : Prop :=
  ∀ tag, isDeleted (m.mergedMeta segments) tag.relFork = false →
    ∀ last, segments.reverse.find? (·.containsChunk tag) = some last →
      TagOrdered (m.lookup tag) segments dbId tag last

theorem latestRefs_of_tagOrdered {S : CombinedSort} {base : Option ChunkRef}
    {segments : List SegmentCheckpoint} {dbId : UInt64} {tag : ChunkTag} {last : SegmentCheckpoint}
    (hlast : segments.reverse.find? (·.containsChunk tag) = some last)
    (h : TagOrdered base segments dbId tag last) :
    Option.merge newerRef base ((latestRefs S segments dbId).lookup tag) =
      some (last.chunkRef dbId) := by
  have hmem : last ∈ segments := List.mem_reverse.mp (List.mem_of_find?_eq_some hlast)
  have hc : last.containsChunk tag = true := by simpa using List.find?_some hlast
  obtain ⟨r, hr⟩ : ∃ r, (latestRefs S segments dbId).lookup tag = some r := by
    rw [← Option.ne_none_iff_exists', Ne, lookup_latestRefs_eq_none_iff]
    intro hn
    exact absurd hc (by rw [hn last hmem]; exact Bool.false_ne_true)
  obtain ⟨⟨seg, hseg, hsegc, rfl⟩, hmax⟩ := lookup_latestRefs_spec hr
  have hle := hmax last hmem hc
  rw [hr]
  rcases h with ⟨hbase, hsegs⟩ | ⟨hbase, hsegs⟩
  · -- the version with the highest LSN has the prefix of the last checkpoint
    have hprev : seg.prevCkpt = last.prevCkpt := by
      rcases hsegs seg hseg hsegc with hlt | heq
      · exact absurd hle (Nat.not_le.mpr hlt)
      · exact heq
    have href := (SegmentCheckpoint.chunkRef_inj dbId).mpr hprev
    rw [href]
    cases hb : base with
    | none => rfl
    | some b =>
      rw [Option.merge_some_some, newerRef]
      exact congrArg some (if_pos (hbase b hb))
  · rw [hbase, Option.merge_some_some, newerRef, if_neg]
    exact Nat.not_lt.mpr (hsegs seg hseg hsegc)

/-- Ordered versions of one tag. -/
theorem lookup_applySegments_of_tagOrdered (S : CombinedSort) {m : Manifest}
    {segments : List SegmentCheckpoint} {dbId : UInt64} (now : ℤ) {tag : ChunkTag}
    (hdel : isDeleted (m.mergedMeta segments) tag.relFork = false)
    (h : ∀ last, segments.reverse.find? (·.containsChunk tag) = some last →
      TagOrdered (m.lookup tag) segments dbId tag last) :
    (m.applySegments S segments dbId now).lookup tag = m.resolveChunk segments dbId tag := by
  rw [lookup_applySegments S m segments dbId now hdel, resolveChunk]
  cases hf : segments.reverse.find? (·.containsChunk tag) with
  | none =>
    have hn : (latestRefs S segments dbId).lookup tag = none := by
      rw [lookup_latestRefs_eq_none_iff]
      intro seg hs
      have := List.find?_eq_none.mp hf seg (List.mem_reverse.mpr hs)
      simpa using this
    rw [hn]
    cases m.lookup tag <;> rfl
  | some last =>
    rw [latestRefs_of_tagOrdered hf (h last hf)]
    rfl

/-- **Ordered versions fold to what a read resolves.** -/
theorem lookup_applySegments_of_lsnOrdered (S : CombinedSort) {m : Manifest}
    {segments : List SegmentCheckpoint} {dbId : UInt64} (now : ℤ) (h : LsnOrdered m segments dbId) :
    LastWriterWins S m segments dbId now := fun tag hdel =>
  lookup_applySegments_of_tagOrdered S now hdel (h tag hdel)


/-! ## The condition is exact -/

/-- The comparison refined to put the references of timeline `tl` first among equal LSNs. -/
def CombinedLePref (tl : TimelineId) (a b : ChunkTag × ChunkRef) : Prop :=
  a.1 < b.1 ∨ a.1 = b.1 ∧ (b.2.lsn.toNat < a.2.lsn.toNat ∨
    b.2.lsn.toNat = a.2.lsn.toNat ∧ (a.2.timelineId = tl ∨ b.2.timelineId ≠ tl))

instance (tl : TimelineId) : DecidableRel (CombinedLePref tl) := fun _ _ =>
  inferInstanceAs (Decidable (_ ∨ _))

instance (tl : TimelineId) : Std.Total (CombinedLePref tl) where
  total a b := by
    rcases lt_trichotomy a.1 b.1 with h | h | h
    · exact .inl (.inl h)
    · rcases lt_trichotomy a.2.lsn.toNat b.2.lsn.toNat with h' | h' | h'
      · exact .inr (.inr ⟨h.symm, .inl h'⟩)
      · by_cases ht : a.2.timelineId = tl
        · exact .inl (.inr ⟨h, .inr ⟨h'.symm, .inl ht⟩⟩)
        · exact .inr (.inr ⟨h.symm, .inr ⟨h', .inr ht⟩⟩)
      · exact .inl (.inr ⟨h, .inl h'⟩)
    · exact .inr (.inl h)

instance (tl : TimelineId) : IsTrans (ChunkTag × ChunkRef) (CombinedLePref tl) where
  trans a b c := by
    rintro (h | ⟨h, h'⟩) (k | ⟨k, k'⟩)
    · exact .inl (h.trans k)
    · exact .inl (k ▸ h)
    · exact .inl (h ▸ k)
    · refine .inr ⟨h.trans k, ?_⟩
      rcases h' with h' | ⟨h', ht⟩ <;> rcases k' with k' | ⟨k', kt⟩
      · exact .inl (k'.trans h')
      · exact .inl (k' ▸ h')
      · exact .inl (h' ▸ k')
      · refine .inr ⟨k'.trans h', ?_⟩
        rcases ht with ht | ht
        · exact .inl ht
        · exact .inr (kt.resolve_left ht)

/-- A sort that puts the references of timeline `tl` first among equal LSNs. -/
def preferSort (tl : TimelineId) : CombinedSort :=
  .ofRefinement (s := CombinedLePref tl) fun a b h => by
    rcases h with h | ⟨h, h' | ⟨h', -⟩⟩
    · exact .inl h
    · exact .inr ⟨h, h'.le⟩
    · exact .inr ⟨h, h'.le⟩

/-- That sort picks a reference of the preferred timeline where one has the highest LSN. -/
theorem lookup_latestRefs_preferSort {tl : TimelineId} {segments : List SegmentCheckpoint}
    {dbId : UInt64} {tag : ChunkTag} {r : ChunkRef}
    (h : (latestRefs (preferSort tl) segments dbId).lookup tag = some r) {seg : SegmentCheckpoint}
    (hs : seg ∈ segments) (hc : seg.containsChunk tag = true) (ht : seg.prevCkpt.timelineId = tl) :
    seg.prevCkpt.lsn.toNat < r.lsn.toNat ∨
      seg.prevCkpt.lsn.toNat = r.lsn.toNat ∧ r.timelineId = tl := by
  have hrefl : ∀ a, CombinedLePref tl a a := fun a =>
    (Std.Total.total (r := CombinedLePref tl) a a).elim id id
  obtain ⟨-, hall⟩ := lookup_firstEntries_spec hrefl
    (List.pairwise_insertionSort (CombinedLePref tl) _) h
  have hcomb : (tag, seg.chunkRef dbId) ∈ combined segments dbId :=
    mem_combined.mpr ⟨seg, hs, hc, rfl⟩
  have hmem := (preferSort tl).mem_sort.mpr hcomb
  rcases hall _ hmem with hlt | ⟨-, hlt | ⟨heq, htl⟩⟩
  · exact absurd hlt (lt_irrefl _)
  · exact .inl hlt
  · exact .inr ⟨heq, htl.resolve_right fun hne => hne ht⟩

/-- **Folding keeps what every read resolves, whatever the sort does with ties, exactly when
versions are ordered by the LSN of their write prefix.** -/
theorem lastWriterWins_iff (m : Manifest) (segments : List SegmentCheckpoint) (dbId : UInt64)
    (now : ℤ) : (∀ S : CombinedSort, LastWriterWins S m segments dbId now) ↔
      LsnOrdered m segments dbId := by
  refine ⟨fun h tag hdel last hlast => ?_, fun h S => lookup_applySegments_of_lsnOrdered S now h⟩
  have hmem : last ∈ segments := List.mem_reverse.mp (List.mem_of_find?_eq_some hlast)
  have hc : last.containsChunk tag = true := by simpa using List.find?_some hlast
  -- under every sort the kept version is the reference of the last checkpoint
  have hkept : ∀ S : CombinedSort, Option.merge newerRef (m.lookup tag)
      ((latestRefs S segments dbId).lookup tag) = some (last.chunkRef dbId) := by
    intro S
    rw [← lookup_applySegments S m segments dbId now hdel, h S tag hdel, resolveChunk, hlast]
    rfl
  have hsome : ∀ S : CombinedSort, ∃ r, (latestRefs S segments dbId).lookup tag = some r := by
    intro S
    rw [← Option.ne_none_iff_exists', Ne, lookup_latestRefs_eq_none_iff]
    intro hn
    exact absurd hc (by rw [hn last hmem]; exact Bool.false_ne_true)
  by_cases hbase : m.lookup tag = some (last.chunkRef dbId)
  · refine .inr ⟨hbase, fun seg hs hsc => ?_⟩
    obtain ⟨r, hr⟩ := hsome (preferSort 0)
    have hle := (lookup_latestRefs_spec hr).2 seg hs hsc
    have hk := hkept (preferSort 0)
    rw [hbase, hr, Option.merge_some_some, newerRef] at hk
    split_ifs at hk with hlt
    · rw [Option.some.inj hk] at hle
      exact hle
    · exact hle.trans (Nat.not_lt.mp hlt)
  · -- the base does not hold the reference, so the sorted side provides it
    have hnew : ∀ S : CombinedSort, (latestRefs S segments dbId).lookup tag =
        some (last.chunkRef dbId) ∧
        ∀ b, m.lookup tag = some b → b.lsn.toNat < last.prevCkpt.lsn.toNat := by
      intro S
      obtain ⟨r, hr⟩ := hsome S
      have hk := hkept S
      rw [hr] at hk ⊢
      cases hb : m.lookup tag with
      | none =>
        rw [hb] at hk
        exact ⟨hk, fun b hb' => absurd hb' (by simp)⟩
      | some b =>
        rw [hb, Option.merge_some_some, newerRef] at hk
        split_ifs at hk with hlt
        · rw [hk]
          refine ⟨rfl, fun b' hb' => ?_⟩
          rw [← Option.some.inj hb']
          rw [Option.some.inj hk] at hlt
          exact hlt
        · exact absurd (hb.trans hk) hbase
    refine .inl ⟨(hnew (preferSort 0)).2, fun seg hs hsc => ?_⟩
    have hpref := (hnew (preferSort seg.prevCkpt.timelineId)).1
    rcases lookup_latestRefs_preferSort hpref hs hsc rfl with hlt | ⟨heq, htl⟩
    · exact .inl hlt
    · refine .inr ((SegmentCheckpoint.chunkRef_inj dbId).mp ?_)
      rw [SegmentCheckpoint.chunkRef, SegmentCheckpoint.chunkRef]
      exact congrArg₂ (ChunkRef.mk dbId) htl.symm (UInt64.toNat_inj.mp heq)

/-! ## A seeded branch -/

/-- The chunk of the example. -/
def exampleTag : ChunkTag := ⟨1663, 5, 16384, 0, 0⟩

/-- A base manifest seeded from database `7`, which wrote the chunk under LSN `100`. -/
def seededBase : Manifest :=
  { empty with
    checkpoint := ⟨1, 100⟩
    chunks := SortedMap.empty.insert exampleTag ⟨7, 1, 100⟩ }

/-- The first commit of the branch, which wrote the chunk under the default prefix. -/
def firstCommit : SegmentCheckpoint where
  ckpt := ⟨1, 200⟩
  prevCkpt := default
  redoCkpt := ⟨1, 150⟩
  chunks := SortedSet.add .empty exampleTag
  relforks := .empty
  pgState := []
  createdAt := 0

/-- The branch's own write is dropped in favour of the parent's chunk. -/
theorem branch_loses_first_interval :
    seededBase.checkpoint < firstCommit.ckpt ∧
    isDeleted (seededBase.mergedMeta [firstCommit]) exampleTag.relFork = false ∧
    seededBase.resolveChunk [firstCommit] 9 exampleTag = some ⟨9, 1, 0⟩ ∧
    (∀ S : CombinedSort,
      (seededBase.applySegments S [firstCommit] 9 0).lookup exampleTag = some ⟨7, 1, 100⟩ ∧
      ¬ LastWriterWins S seededBase [firstCommit] 9 0) := by
  have hfold : ∀ S : CombinedSort,
      (seededBase.applySegments S [firstCommit] 9 0).lookup exampleTag = some ⟨7, 1, 100⟩ := by
    intro S
    have hsort : S.sort (combined [firstCommit] 9) = combined [firstCommit] 9 :=
      List.perm_singleton.mp (S.perm _)
    rw [lookup_applySegments S _ _ _ _ (by decide), latestRefs]
    simp only [hsort]
    rfl
  refine ⟨by decide, by decide, by decide, fun S => ⟨hfold S, fun h => ?_⟩⟩
  have hlww := h exampleTag (by decide)
  rw [hfold S] at hlww
  exact absurd hlww (by decide)

end Manifest

end Tiko

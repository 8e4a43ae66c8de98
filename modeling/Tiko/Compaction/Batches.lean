import Tiko.Compaction.LastWriter

/-!
# Where the compactor cuts the list

The compactor folds whatever checkpoints there are when its timer fires. Deletions are applied at the
end of each fold, to everything that has been accumulated: a relation that is deleted in one batch and
created again in the next loses its old chunks, and keeps them if both are in one batch.

* `BatchesAgree`: two batches give the metadata of one batch, and its chunks, as far as the relation is
  not deleted in the end;
* `RevivesNothing`: of a relation that is deleted between the batches and not in the end, no chunk is
  left that only the first batch could have dropped.

**`batchesAgree_iff`**: with ascending LSNs the cut does not matter exactly under that condition.
-/

namespace Tiko

open Lib

namespace Manifest

/-- Two batches give what one gives. -/
def BatchesAgree (S : CombinedSort) (m : Manifest) (xs ys : List SegmentCheckpoint) (dbId : UInt64)
    (now₁ now₂ now : ℤ) : Prop :=
  let two := (m.applySegments S xs dbId now₁).applySegments S ys dbId now₂
  let one := m.applySegments S (xs ++ ys) dbId now
  two.metas = one.metas ∧
    ∀ tag, isDeleted one.metas tag.relFork = false → two.lookup tag = one.lookup tag

/-- The chunk does not show whether the first batch has dropped it: the second batch has written it
anew, above the base, or it was never there. -/
def RevivesNothingAt (m : Manifest) (xs ys : List SegmentCheckpoint) (dbId : UInt64)
    (tag : ChunkTag) : Prop :=
  match ys.reverse.find? (·.containsChunk tag) with
  | none => m.lookup tag = none ∧ ∀ x ∈ xs, x.containsChunk tag = false
  | some y => ∀ b, m.lookup tag = some b →
    b.lsn.toNat < (y.chunkRef dbId).lsn.toNat ∨ b = y.chunkRef dbId

/-- No chunk of a relation that is deleted between the batches and not in the end shows whether the
first batch has dropped it. -/
def RevivesNothing (m : Manifest) (xs ys : List SegmentCheckpoint) (dbId : UInt64) : Prop :=
  ∀ tag, isDeleted (m.mergedMeta xs) tag.relFork = true →
    isDeleted (m.mergedMeta (xs ++ ys)) tag.relFork = false → RevivesNothingAt m xs ys dbId tag

section Batches

variable {S : CombinedSort} {m : Manifest} {xs ys l : List SegmentCheckpoint} {dbId : UInt64}

/-- With ascending LSNs the newest version by LSN is the newest checkpoint's. -/
theorem lookup_latestRefs (S : CombinedSort) (dbId : UInt64)
    (h : l.Pairwise fun a b => a.prevCkpt.lsn.toNat < b.prevCkpt.lsn.toNat) (tag : ChunkTag) :
    (latestRefs S l dbId).lookup tag =
      (l.reverse.find? (·.containsChunk tag)).map (·.chunkRef dbId) := by
  cases hf : l.reverse.find? (·.containsChunk tag) with
  | none =>
    rw [Option.map_none, lookup_latestRefs_eq_none_iff]
    intro seg hs
    simpa using List.find?_eq_none.mp hf seg (List.mem_reverse.mpr hs)
  | some last =>
    have hasc : Ascending (fun e : SegmentCheckpoint => e.prevCkpt.lsn.toNat) l := h
    have hmem : last ∈ l := List.mem_reverse.mp (List.mem_of_find?_eq_some hf)
    have hordered : TagOrdered none l dbId tag last := by
      refine .inl ⟨fun b hb => absurd hb (by simp), fun seg hs hc => ?_⟩
      rcases lt_or_eq_of_le (le_of_find?_reverse hasc hf hs hc) with hlt | heq
      · exact .inl hlt
      · exact .inr (by rw [hasc.eq_of_key_eq hs hmem heq])
    have hmerge := latestRefs_of_tagOrdered (S := S) hf hordered
    rw [Option.map_some, ← hmerge]
    cases (latestRefs S l dbId).lookup tag <;> rfl

theorem find?_reverse_append (tag : ChunkTag) : (xs ++ ys).reverse.find? (·.containsChunk tag) =
    (ys.reverse.find? (·.containsChunk tag)).or (xs.reverse.find? (·.containsChunk tag)) := by
  rw [List.reverse_append, List.find?_append]

theorem mergedMeta_append (m : Manifest) (xs ys : List SegmentCheckpoint) (dbId : UInt64)
    (now₁ : ℤ) : (m.applySegments S xs dbId now₁).mergedMeta ys = m.mergedMeta (xs ++ ys) := by
  refine SortedMap.ext_lookup fun rf => ?_
  rw [lookup_mergedMeta, lookup_mergedMeta, newest_append, Option.or_assoc,
    ← lookup_mergedMeta m xs]
  rfl

/-- What the first batch leaves of a chunk. -/
theorem lookup_applySegments_of_isDeleted (now : ℤ) {tag : ChunkTag}
    (h : isDeleted (m.mergedMeta xs) tag.relFork = true) :
    (m.applySegments S xs dbId now).lookup tag = none := by
  rw [lookup, applySegments, SortedMap.lookup_filter, h]
  cases SortedMap.lookup _ tag <;> rfl

/-- Versions of one tag in ascending order of their LSNs merge in any grouping. -/
theorem newerRef_newerRef {b x y : ChunkRef} (hxy : x.lsn.toNat < y.lsn.toNat) :
    newerRef (newerRef b x) y = newerRef b y := by
  rw [newerRef, newerRef, newerRef]
  by_cases hbx : b.lsn.toNat < x.lsn.toNat
  · rw [if_pos hbx, if_pos hxy, if_pos (hbx.trans hxy)]
  · rw [if_neg hbx]

/-- A relation that is not deleted between the batches. -/
theorem lookup_batches (now₁ now₂ now : ℤ)
    (hlsn : (xs ++ ys).Pairwise fun a b => a.prevCkpt.lsn.toNat < b.prevCkpt.lsn.toNat)
    {tag : ChunkTag} (hmid : isDeleted (m.mergedMeta xs) tag.relFork = false)
    (hend : isDeleted (m.mergedMeta (xs ++ ys)) tag.relFork = false) :
    ((m.applySegments S xs dbId now₁).applySegments S ys dbId now₂).lookup tag =
      (m.applySegments S (xs ++ ys) dbId now).lookup tag := by
  obtain ⟨hxs, hys, hcross⟩ := List.pairwise_append.mp hlsn
  have hend' : isDeleted ((m.applySegments S xs dbId now₁).mergedMeta ys) tag.relFork = false := by
    rw [mergedMeta_append]
    exact hend
  rw [lookup_applySegments S _ _ _ _ hend', lookup_applySegments S _ _ _ _ hend,
    lookup_applySegments S _ _ _ _ hmid, lookup_latestRefs S dbId hlsn, lookup_latestRefs S dbId hxs,
    lookup_latestRefs S dbId hys, find?_reverse_append]
  cases hy : ys.reverse.find? (·.containsChunk tag) with
  | none =>
    rw [Option.none_or, Option.map_none]
    cases m.lookup tag <;> cases xs.reverse.find? (·.containsChunk tag) <;> rfl
  | some y =>
    rw [Option.some_or, Option.map_some]
    cases hx : xs.reverse.find? (·.containsChunk tag) with
    | none => cases m.lookup tag <;> rfl
    | some x =>
      have hxy := hcross x (List.mem_reverse.mp (List.mem_of_find?_eq_some hx)) y
        (List.mem_reverse.mp (List.mem_of_find?_eq_some hy))
      cases m.lookup tag with
      | none => exact congrArg some (if_pos hxy)
      | some b => exact congrArg some (newerRef_newerRef hxy)

/-- A relation that is deleted between the batches: the second batch starts from nothing, the one batch
from the base. -/
theorem lookup_batches_revived_iff (now₁ now₂ now : ℤ)
    (hlsn : (xs ++ ys).Pairwise fun a b => a.prevCkpt.lsn.toNat < b.prevCkpt.lsn.toNat)
    {tag : ChunkTag} (hmid : isDeleted (m.mergedMeta xs) tag.relFork = true)
    (hend : isDeleted (m.mergedMeta (xs ++ ys)) tag.relFork = false) :
    ((m.applySegments S xs dbId now₁).applySegments S ys dbId now₂).lookup tag =
        (m.applySegments S (xs ++ ys) dbId now).lookup tag ↔
      (ys.reverse.find? (·.containsChunk tag)).map (·.chunkRef dbId) =
        Option.merge newerRef (m.lookup tag)
          (((ys.reverse.find? (·.containsChunk tag)).or
            (xs.reverse.find? (·.containsChunk tag))).map (·.chunkRef dbId)) := by
  obtain ⟨-, hys, -⟩ := List.pairwise_append.mp hlsn
  have hend' : isDeleted ((m.applySegments S xs dbId now₁).mergedMeta ys) tag.relFork = false := by
    rw [mergedMeta_append]
    exact hend
  rw [lookup_applySegments S _ _ _ _ hend', lookup_applySegments S _ _ _ _ hend,
    lookup_applySegments_of_isDeleted now₁ hmid, lookup_latestRefs S dbId hlsn,
    lookup_latestRefs S dbId hys, find?_reverse_append, Option.merge_none_left]

theorem merge_newerRef_eq_iff (b : Option ChunkRef) (r : ChunkRef) :
    some r = Option.merge newerRef b (some r) ↔ ∀ c, b = some c → c.lsn.toNat < r.lsn.toNat ∨ c = r := by
  cases b with
  | none => simp
  | some c =>
    rw [Option.merge_some_some, Option.some_inj, newerRef]
    constructor
    · rintro h d ⟨⟩
      by_cases hlt : c.lsn.toNat < r.lsn.toNat
      · exact .inl hlt
      · rw [if_neg hlt] at h
        exact .inr h.symm
    · intro h
      rcases h c rfl with hlt | rfl
      · rw [if_pos hlt]
      · rw [ite_self]

/-- **The cut between two batches does not matter** exactly when no chunk of a relation that is deleted
between them, and not in the end, shows whether the first batch has dropped it. -/
theorem batchesAgree_iff (S : CombinedSort) (m : Manifest) {xs ys : List SegmentCheckpoint}
    (dbId : UInt64) (now₁ now₂ now : ℤ)
    (hlsn : (xs ++ ys).Pairwise fun a b => a.prevCkpt.lsn.toNat < b.prevCkpt.lsn.toNat) :
    BatchesAgree S m xs ys dbId now₁ now₂ now ↔ RevivesNothing m xs ys dbId := by
  -- the condition on one tag is the agreement on that tag
  have htag : ∀ tag, isDeleted (m.mergedMeta xs) tag.relFork = true →
      isDeleted (m.mergedMeta (xs ++ ys)) tag.relFork = false →
      (((m.applySegments S xs dbId now₁).applySegments S ys dbId now₂).lookup tag =
        (m.applySegments S (xs ++ ys) dbId now).lookup tag ↔ RevivesNothingAt m xs ys dbId tag) := by
    intro tag hmid hend
    rw [lookup_batches_revived_iff now₁ now₂ now hlsn hmid hend, RevivesNothingAt]
    cases hy : ys.reverse.find? (·.containsChunk tag) with
    | none =>
      rw [Option.map_none, Option.none_or, eq_comm, Option.merge_eq_none_iff, Option.map_eq_none_iff,
        List.find?_eq_none]
      simp
    | some y => exact merge_newerRef_eq_iff _ _
  constructor
  · intro h tag hmid hend
    exact (htag tag hmid hend).mp (h.2 tag hend)
  · intro h
    refine ⟨mergedMeta_append m xs ys dbId now₁, fun tag hend => ?_⟩
    cases hmid : isDeleted (m.mergedMeta xs) tag.relFork with
    | true => exact (htag tag hmid hend).mpr (h tag hmid hend)
    | false => exact lookup_batches now₁ now₂ now hlsn hmid hend

end Batches

/-! ## A relation that is dropped and created again -/

/-- A base with one chunk, written under LSN `100`. -/
def droppedBase : Manifest :=
  { empty with
    checkpoint := ⟨1, 200⟩
    chunks := SortedMap.empty.insert exampleTag ⟨7, 1, 100⟩
    metas := SortedMap.empty.insert exampleTag.relFork ⟨1, false⟩ }

/-- The checkpoint that drops the relation. -/
def dropCommit : SegmentCheckpoint where
  ckpt := ⟨1, 300⟩
  prevCkpt := ⟨1, 200⟩
  redoCkpt := ⟨1, 300⟩
  chunks := .empty
  relforks := SortedMap.empty.insert exampleTag.relFork ⟨0, true⟩
  pgState := []
  createdAt := 0

/-- The checkpoint that creates it again, and writes the given chunks. -/
def createCommit (chunks : SortedSet ChunkTag) : SegmentCheckpoint where
  ckpt := ⟨1, 400⟩
  prevCkpt := ⟨1, 300⟩
  redoCkpt := ⟨1, 400⟩
  chunks := chunks
  relforks := SortedMap.empty.insert exampleTag.relFork ⟨1, false⟩
  pgState := []
  createdAt := 0

theorem lookup_droppedBase {tag : ChunkTag} (h : tag ≠ exampleTag) : droppedBase.lookup tag = none :=
  (SortedMap.lookup_insert_of_ne _ _ h).trans rfl

/-- If the new relation writes the chunk before the next compaction, the cut does not matter. -/
theorem batchesAgree_iff_rewritten :
    BatchesAgree (preferSort 1) droppedBase [dropCommit]
      [createCommit (SortedSet.add .empty exampleTag)] 7 0 0 0 := by
  refine (batchesAgree_iff (preferSort 1) droppedBase 7 0 0 0 (by decide)).mpr fun tag _ _ => ?_
  by_cases htag : tag = exampleTag
  · subst htag
    exact fun b hb => .inl (by cases hb; decide)
  · have hfind : [createCommit (SortedSet.add .empty exampleTag)].reverse.find?
        (·.containsChunk tag) = none := by
      simp [createCommit, SegmentCheckpoint.containsChunk, htag]
    rw [RevivesNothingAt, hfind]
    refine ⟨lookup_droppedBase htag, fun x hx => ?_⟩
    rw [List.mem_singleton.mp hx]
    simp [dropCommit, SegmentCheckpoint.containsChunk]

/-- The new relation does not write the chunk: one batch keeps the old relation's, two batches drop
it. -/
theorem batches_disagree :
    ([dropCommit] ++ [createCommit .empty]).Pairwise (fun a b => a.ckpt < b.ckpt) ∧
    ([dropCommit] ++ [createCommit .empty]).Pairwise
      (fun a b => a.prevCkpt.lsn.toNat < b.prevCkpt.lsn.toNat) ∧
    (∀ e ∈ [dropCommit] ++ [createCommit .empty], droppedBase.checkpoint < e.ckpt) ∧
    ∀ S : CombinedSort,
      (((droppedBase.applySegments S [dropCommit] 7 0).applySegments S
        [createCommit .empty] 7 0).lookup exampleTag = none ∧
      (droppedBase.applySegments S ([dropCommit] ++ [createCommit .empty]) 7 0).lookup exampleTag =
        some ⟨7, 1, 100⟩) ∧
      ¬ BatchesAgree S droppedBase [dropCommit] [createCommit .empty] 7 0 0 0 := by
  have hone : ∀ S : CombinedSort,
      (droppedBase.applySegments S ([dropCommit] ++ [createCommit .empty]) 7 0).lookup exampleTag =
        some ⟨7, 1, 100⟩ := by
    intro S
    rw [lookup_applySegments S _ _ _ _ (by decide), lookup_latestRefs S 7 (by decide)]
    decide
  have htwo : ∀ S : CombinedSort,
      ((droppedBase.applySegments S [dropCommit] 7 0).applySegments S
        [createCommit .empty] 7 0).lookup exampleTag = none := by
    intro S
    rw [lookup_applySegments S _ _ _ _ (by rw [mergedMeta_append]; decide),
      lookup_applySegments_of_isDeleted 0 (by decide), lookup_latestRefs S 7 (by decide)]
    decide
  refine ⟨by decide, by decide, by decide, fun S => ⟨⟨htwo S, hone S⟩, fun h => ?_⟩⟩
  have hagree := h.2 exampleTag (show isDeleted (droppedBase.mergedMeta
    ([dropCommit] ++ [createCommit .empty])) exampleTag.relFork = false by decide)
  rw [htwo S, hone S] at hagree
  exact absurd hagree (by decide)

end Manifest

end Tiko

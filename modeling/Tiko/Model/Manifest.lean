import Tiko.Lib.Newest
import Tiko.Lib.Sorting
import Tiko.Model.Timeline

/-!
# Base manifests

A base manifest maps every chunk to the object that holds it and every relation fork to its
metadata, as of one checkpoint. `applySegments` folds committed checkpoints into it: it collects the
chunks of all of them, sorts by tag and descending LSN, keeps the first entry of each tag, merges
with the old entries by LSN, and drops the chunks of deleted relations.

* `lookup_applySegments`: what the new manifest holds at a tag, over any sort the code may use;
* **`lookup_mergedMeta`**: the metadata is that of the newest checkpoint that has it.
-/

namespace Tiko

open Lib

/-- `ChunkRef`: the database and the write prefix of a chunk object. -/
structure ChunkRef where
  dbId : UInt64
  timelineId : TimelineId
  lsn : Lsn
  deriving DecidableEq, Repr

/-- `Manifest`, with the contents of its local file. -/
structure Manifest where
  checkpoint : Checkpoint
  redoCkpt : Checkpoint
  timestamp : ℤ
  chunks : SortedMap ChunkTag ChunkRef
  metas : SortedMap RelFork RelForkMeta
  pgState : List UInt8
  deriving DecidableEq

/-- The prefix of a chunk object. -/
def ChunkRef.ckpt (r : ChunkRef) : Checkpoint := ⟨r.timelineId, r.lsn⟩

/-- The reference that a checkpoint gives to its chunks. -/
def SegmentCheckpoint.chunkRef (dbId : UInt64) (seg : SegmentCheckpoint) : ChunkRef :=
  ⟨dbId, seg.prevCkpt.timelineId, seg.prevCkpt.lsn⟩

theorem SegmentCheckpoint.chunkRef_inj (dbId : UInt64) {s t : SegmentCheckpoint} :
    s.chunkRef dbId = t.chunkRef dbId ↔ s.prevCkpt = t.prevCkpt := by
  obtain ⟨_, ⟨_, _⟩, _⟩ := s
  obtain ⟨_, ⟨_, _⟩, _⟩ := t
  simp [chunkRef]

namespace Manifest

/-- `Manifest::empty`. -/
def empty : Manifest := ⟨default, default, 0, .empty, .empty, []⟩

/-- `Manifest::lookup`. -/
def lookup (m : Manifest) (tag : ChunkTag) : Option ChunkRef := m.chunks.lookup tag

/-- `Manifest::lookup_relfork_meta`. -/
def lookupRelforkMeta (m : Manifest) (rf : RelFork) : Option RelForkMeta := m.metas.lookup rf

/-! ## Folding checkpoints into a manifest -/

/-- The comparison of `apply_segments`: tag ascending, then LSN descending. -/
def CombinedLe (a b : ChunkTag × ChunkRef) : Prop :=
  a.1 < b.1 ∨ a.1 = b.1 ∧ b.2.lsn.toNat ≤ a.2.lsn.toNat

instance : DecidableRel CombinedLe := fun _ _ => inferInstanceAs (Decidable (_ ∨ _))

/-- A sort for that comparison. -/
abbrev CombinedSort := UnstableSort CombinedLe

/-- The entries of all the checkpoints, oldest checkpoint first. -/
def combined (segments : List SegmentCheckpoint) (dbId : UInt64) : List (ChunkTag × ChunkRef) :=
  segments.flatMap fun seg => seg.chunks.keys.map fun tag => (tag, seg.chunkRef dbId)

theorem CombinedLe.refl (a : ChunkTag × ChunkRef) : CombinedLe a a := .inr ⟨rfl, le_rfl⟩

theorem CombinedLe.fst_le {a b : ChunkTag × ChunkRef} (h : CombinedLe a b) : a.1 ≤ b.1 :=
  h.elim le_of_lt fun h => h.1.le

/-- The newest version of each tag by LSN: sorted, then deduplicated. -/
def latestRefs (S : CombinedSort) (segments : List SegmentCheckpoint) (dbId : UInt64) :
    SortedMap ChunkTag ChunkRef :=
  firstEntries (S.sort (combined segments dbId)) ((S.pairwise _).imp fun {_ _} h => h.fst_le)

/-- The metadata updates of all the checkpoints, last write wins. -/
def newMeta (segments : List SegmentCheckpoint) : SortedMap RelFork RelForkMeta :=
  segments.foldl (fun acc seg => acc.insertAll seg.relforks.entries) .empty

/-- The metadata of the manifest with the updates of the checkpoints. -/
def mergedMeta (m : Manifest) (segments : List SegmentCheckpoint) : SortedMap RelFork RelForkMeta :=
  m.metas.insertAll (newMeta segments).entries

/-- Whether a relation fork is marked deleted. -/
def isDeleted (metas : SortedMap RelFork RelForkMeta) (rf : RelFork) : Bool :=
  (metas.lookup rf).any (·.deleted)

/-- The version that the merge keeps of a tag that both sides have. -/
def newerRef (base new : ChunkRef) : ChunkRef := if base.lsn.toNat < new.lsn.toNat then new else base

/-- The checkpoint that the fold advances to: the last one that recorded anything. -/
def lastCkpt (m : Manifest) (segments : List SegmentCheckpoint) : Checkpoint :=
  segments.foldl (fun c seg =>
    if seg.chunks.entries ≠ [] ∨ seg.relforks.entries ≠ [] then seg.ckpt else c) m.checkpoint

/-- `Manifest::apply_segments`, at the time `now`, with `commit_applied` reading the result back. -/
def applySegments (S : CombinedSort) (m : Manifest) (segments : List SegmentCheckpoint)
    (dbId : UInt64) (now : ℤ) : Manifest where
  checkpoint := m.lastCkpt segments
  redoCkpt := (segments.getLast?.map (·.redoCkpt)).getD m.redoCkpt
  timestamp := max now m.timestamp
  chunks := (SortedMap.merge newerRef m.chunks (latestRefs S segments dbId)).filter fun tag _ =>
    !isDeleted (m.mergedMeta segments) tag.relFork
  metas := m.mergedMeta segments
  pgState := (segments.getLast?.map (·.pgState)).getD m.pgState

/-! ## What the fold holds -/

theorem mem_combined {segments : List SegmentCheckpoint} {dbId : UInt64} {tag : ChunkTag}
    {r : ChunkRef} : (tag, r) ∈ combined segments dbId ↔
      ∃ seg ∈ segments, seg.containsChunk tag = true ∧ seg.chunkRef dbId = r := by
  simp only [combined, List.mem_flatMap, List.mem_map, Prod.mk.injEq,
    SegmentCheckpoint.containsChunk, SortedSet.contains_iff_mem_keys]
  constructor
  · rintro ⟨seg, hs, t, ht, rfl, rfl⟩
    exact ⟨seg, hs, ht, rfl⟩
  · rintro ⟨seg, hs, ht, rfl⟩
    exact ⟨seg, hs, tag, ht, rfl, rfl⟩

theorem lookup_latestRefs_eq_none_iff {S : CombinedSort} {segments : List SegmentCheckpoint}
    {dbId : UInt64} {tag : ChunkTag} : (latestRefs S segments dbId).lookup tag = none ↔
      ∀ seg ∈ segments, seg.containsChunk tag = false := by
  rw [latestRefs, lookup_firstEntries_eq_none_iff]
  simp only [S.mem_sort, mem_combined, not_exists, not_and]
  constructor
  · intro h seg hs
    by_contra hc
    exact h _ seg hs (Bool.not_eq_false _ ▸ hc) rfl
  · intro h r seg hs hc
    exact absurd hc (by rw [h seg hs]; exact Bool.false_ne_true)

/-- The chosen version comes from one of the checkpoints and has the highest LSN of them. -/
theorem lookup_latestRefs_spec {S : CombinedSort} {segments : List SegmentCheckpoint}
    {dbId : UInt64} {tag : ChunkTag} {r : ChunkRef}
    (h : (latestRefs S segments dbId).lookup tag = some r) :
    (∃ seg ∈ segments, seg.containsChunk tag = true ∧ seg.chunkRef dbId = r) ∧
      ∀ seg ∈ segments, seg.containsChunk tag = true →
        seg.prevCkpt.lsn.toNat ≤ r.lsn.toNat := by
  obtain ⟨hmem, hall⟩ := lookup_firstEntries_spec CombinedLe.refl (S.pairwise _) h
  refine ⟨mem_combined.mp (S.mem_sort.mp hmem), fun seg hs hc => ?_⟩
  rcases hall _ (S.mem_sort.mpr (mem_combined.mpr ⟨seg, hs, hc, rfl⟩)) with hlt | hle
  · exact absurd hlt (lt_irrefl _)
  · exact hle.2

/-- What the new manifest holds at a tag whose relation is not deleted. -/
theorem lookup_applySegments (S : CombinedSort) (m : Manifest) (segments : List SegmentCheckpoint)
    (dbId : UInt64) (now : ℤ) {tag : ChunkTag}
    (h : isDeleted (m.mergedMeta segments) tag.relFork = false) :
    (m.applySegments S segments dbId now).lookup tag =
      Option.merge newerRef (m.lookup tag) ((latestRefs S segments dbId).lookup tag) := by
  rw [lookup, applySegments, SortedMap.lookup_filter, SortedMap.lookup_merge, h]
  change Option.filter (fun _ => true) (Option.merge newerRef (m.lookup tag) _) = _
  cases Option.merge newerRef (m.lookup tag) ((latestRefs S segments dbId).lookup tag) <;> rfl

theorem lookup_newMeta (segments : List SegmentCheckpoint) (acc : SortedMap RelFork RelForkMeta)
    (rf : RelFork) :
    (segments.foldl (fun acc seg => acc.insertAll seg.relforks.entries) acc).lookup rf =
      (newest (·.relforkMeta rf) segments).or (acc.lookup rf) := by
  induction segments using List.reverseRecOn with
  | nil => rfl
  | append_singleton segments seg ih =>
    rw [List.foldl_append, List.foldl_cons, List.foldl_nil, SortedMap.lookup_insertAll_entries, ih,
      newest_append_singleton, Option.or_assoc]
    rfl

/-- **The metadata of a fold is that of the newest checkpoint that has it, or the base's.** -/
theorem lookup_mergedMeta (m : Manifest) (segments : List SegmentCheckpoint) (rf : RelFork) :
    (m.mergedMeta segments).lookup rf =
      (newest (·.relforkMeta rf) segments).or (m.lookupRelforkMeta rf) := by
  rw [mergedMeta, SortedMap.lookup_insertAll_entries, newMeta, lookup_newMeta,
    SortedMap.lookup_empty, Option.or_none]
  rfl

/-! ## Folding twice -/

theorem mergedMeta_mergedMeta {m m' : Manifest} {segments : List SegmentCheckpoint}
    (h : m'.metas = m.mergedMeta segments) : m'.mergedMeta segments = m.mergedMeta segments := by
  refine SortedMap.ext_lookup fun rf => ?_
  rw [lookup_mergedMeta, lookupRelforkMeta, h, lookup_mergedMeta, ← Option.or_assoc, Option.or_self]

/-- The last checkpoint does not depend on the header, unless no checkpoint has recorded anything. -/
theorem lastCkpt_lastCkpt {m m' : Manifest} {segments : List SegmentCheckpoint}
    (h : m'.checkpoint = m.lastCkpt segments) : m'.lastCkpt segments = m.lastCkpt segments := by
  have hfold : ∀ (l : List SegmentCheckpoint) (step : Checkpoint → SegmentCheckpoint → Checkpoint),
      (∀ seg, (∀ c, step c seg = c) ∨ ∀ c, step c seg = seg.ckpt) →
      (∀ c, l.foldl step c = c) ∨ ∃ d, ∀ c, l.foldl step c = d := by
    intro l step hstep
    induction l with
    | nil => exact .inl fun _ => rfl
    | cons seg l ih =>
      simp only [List.foldl_cons]
      rcases hstep seg with hkeep | hset
      · simp only [hkeep]
        exact ih
      · simp only [hset]
        exact .inr ⟨_, fun _ => rfl⟩
  unfold lastCkpt at h ⊢
  rw [h]
  have hstep := hfold segments
    (fun c seg => if seg.chunks.entries ≠ [] ∨ seg.relforks.entries ≠ [] then seg.ckpt else c)
    fun seg => by
      by_cases hd : seg.chunks.entries ≠ [] ∨ seg.relforks.entries ≠ []
      · exact .inr fun _ => if_pos hd
      · exact .inl fun _ => if_neg hd
  rcases hstep with hkeep | ⟨d, hset⟩
  · exact hkeep _
  · rw [hset, hset]

/-- Merging the same version again, into what is kept of the first merge. -/
theorem filter_merge_newerRef (keep : Bool) (a b : Option ChunkRef) :
    (Option.merge newerRef ((Option.merge newerRef a b).filter fun _ => keep) b).filter (fun _ => keep) =
      (Option.merge newerRef a b).filter fun _ => keep := by
  have htrue : ∀ x : Option ChunkRef, x.filter (fun _ => true) = x := fun x => by cases x <;> rfl
  cases keep with
  | false => simp
  | true =>
    simp only [htrue]
    cases a with
    | none =>
      cases b with
      | none => rfl
      | some b => exact congrArg some (if_neg (lt_irrefl _))
    | some a =>
      cases b with
      | none => rfl
      | some b =>
        simp only [Option.merge_some_some, newerRef, Option.some.injEq]
        by_cases h : a.lsn.toNat < b.lsn.toNat
        · rw [if_pos h, if_neg (lt_irrefl _)]
        · rw [if_neg h, if_neg h]

theorem getD_getLast?_map {α β : Type} (f : α → β) (l : List α) (b : β) :
    (l.getLast?.map f).getD ((l.getLast?.map f).getD b) = (l.getLast?.map f).getD b := by
  cases l.getLast?.map f <;> rfl

/-- **Folding the same checkpoints again changes nothing.** -/
theorem applySegments_applySegments (S : CombinedSort) (m : Manifest)
    (segments : List SegmentCheckpoint) (dbId : UInt64) (now : ℤ) :
    (m.applySegments S segments dbId now).applySegments S segments dbId now =
      m.applySegments S segments dbId now := by
  have hmeta : (m.applySegments S segments dbId now).mergedMeta segments = m.mergedMeta segments :=
    mergedMeta_mergedMeta rfl
  have hlast : (m.applySegments S segments dbId now).lastCkpt segments = m.lastCkpt segments :=
    lastCkpt_lastCkpt rfl
  have hchunks : ((m.applySegments S segments dbId now).applySegments S segments dbId now).chunks =
      (m.applySegments S segments dbId now).chunks := by
    refine SortedMap.ext_lookup fun tag => ?_
    simp only [applySegments, SortedMap.lookup_filter, SortedMap.lookup_merge] at hmeta ⊢
    rw [hmeta]
    exact filter_merge_newerRef _ _ _
  rw [applySegments, Manifest.mk.injEq]
  refine ⟨hlast, getD_getLast?_map _ _ _, ?_, hchunks, hmeta, getD_getLast?_map _ _ _⟩
  change max now (max now m.timestamp) = max now m.timestamp
  rw [← max_assoc, max_self]

end Manifest

end Tiko

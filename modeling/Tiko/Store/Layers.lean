import Tiko.Store.Log

/-!
# The layers of a read

How the segments, the base manifest and the active window together hold the log of commits.

* `Layers`: the log is `old ++ new`, where the manifests represent `old`, every record of `new` is
  in a stored segment, and the stored segments hold a suffix of the log;
* `scanSegments_inRange`: the walk over the listed segments is the search of the stored records;
* **`baseManifest_of_layers`**: the base manifest, reloaded if need be, represents `old`;
* `newest_old`: the old records are those up to the base.
-/

namespace Tiko

open Lib

variable {β : Type}

/-! ## Segments -/

/-- The records of the stored segments, oldest first. -/
def storedRecords (segments : SortedMap SegmentId TimelineSegment) : List SegmentCheckpoint :=
  segments.entries.flatMap (·.2.checkpoints)

/-- Segments are not empty and hold the records of their own range. -/
def SegmentsWf (segments : SortedMap SegmentId TimelineSegment) : Prop :=
  ∀ p ∈ segments.entries, p.2.segmentId = p.1 ∧ p.2.checkpoints ≠ [] ∧
    ∀ e ∈ p.2.checkpoints, e.ckpt.toSegmentId = p.1

theorem mem_storedRecords {segments : SortedMap SegmentId TimelineSegment}
    {e : SegmentCheckpoint} : e ∈ storedRecords segments ↔
      ∃ p ∈ segments.entries, e ∈ p.2.checkpoints := by
  simp only [storedRecords, List.mem_flatMap]

theorem SegmentsWf.ids_le {segments : SortedMap SegmentId TimelineSegment} (hw : SegmentsWf segments)
    {c : Checkpoint} (h : ∀ e ∈ storedRecords segments, e.ckpt ≤ c) :
    ∀ p ∈ segments.entries, p.1 ≤ c.toSegmentId := by
  intro p hp
  obtain ⟨-, hne, hid⟩ := hw p hp
  obtain ⟨x, hx⟩ := List.exists_mem_of_ne_nil _ hne
  rw [← hid x hx]
  exact Checkpoint.toSegmentId_mono (h x (mem_storedRecords.mpr ⟨p, hp, hx⟩))

/-- Skipping segments without selected records does not change the selection. -/
theorem filter_flatMap_filter {α γ : Type} {g : α → List γ} {q : α → Bool} {sel : γ → Bool}
    {l : List α} (h : ∀ x ∈ l, q x = false → ∀ e ∈ g x, sel e = false) :
    ((l.filter q).flatMap g).filter sel = (l.flatMap g).filter sel := by
  induction l with
  | nil => rfl
  | cons x l ih =>
    have ih := ih fun y hy => h y (List.mem_cons_of_mem _ hy)
    cases hq : q x with
    | true => rw [List.filter_cons_of_pos hq, List.flatMap_cons, List.flatMap_cons,
        List.filter_append, List.filter_append, ih]
    | false =>
      have hnil : (g x).filter sel = [] :=
        List.filter_eq_nil_iff.mpr fun e he => by simp [h x List.mem_cons_self hq e he]
      rw [List.filter_cons_of_neg (by simp [hq]), List.flatMap_cons, List.filter_append, hnil, ih]
      rfl

namespace Db

variable {cfg : StoreConfig} {s : Db β}

theorem loadSegment_of_mem {p : SegmentId × TimelineSegment}
    (h : p ∈ (s.storage.segments cfg.dbId).entries) : s.loadSegment cfg p.1 = .ok p.2 := by
  rw [loadSegment, (SortedMap.mem_entries_iff _ p.1 p.2).mp h]

theorem listSegmentsInRange_eq (low high : Checkpoint) : s.listSegmentsInRange cfg low high =
    ((s.storage.segments cfg.dbId).entries.filter fun p => p.1.overlapsRange low high).map
      Prod.fst := by
  rw [listSegmentsInRange, listAllSegments, SortedMap.keys, List.filter_map]
  rfl

/-- The newest-first walk over loaded segments searches their records. -/
theorem scanSegments_map {γ : Type} (f : SegmentCheckpoint → Option γ)
    {es : List (SegmentId × TimelineSegment)}
    (h : ∀ p ∈ es, p ∈ (s.storage.segments cfg.dbId).entries) :
    s.scanSegments cfg f (es.map Prod.fst).reverse =
      .ok (newest f (es.flatMap (·.2.checkpoints))) := by
  induction es using List.reverseRecOn with
  | nil => rfl
  | append_singleton es p ih =>
    have ih := ih fun q hq => h q (List.mem_append_left _ hq)
    have hp := h p (List.mem_append_right _ (List.mem_singleton.mpr rfl))
    rw [List.map_append, List.reverse_append, List.map_singleton, List.reverse_singleton,
      List.singleton_append, scanSegments, loadSegment_of_mem hp, ih, List.flatMap_append,
      newest_append, List.flatMap_singleton]
    dsimp only
    cases hn : newest f p.2.checkpoints with
    | some a =>
      rw [newest] at hn
      rw [hn]
      rfl
    | none =>
      rw [newest] at hn
      rw [hn]
      rfl

theorem loadCheckpoints_map {es : List (SegmentId × TimelineSegment)}
    (h : ∀ p ∈ es, p ∈ (s.storage.segments cfg.dbId).entries) :
    s.loadCheckpoints cfg (es.map Prod.fst) = .ok (es.flatMap (·.2.checkpoints)) := by
  induction es with
  | nil => rfl
  | cons p es ih =>
    rw [List.map_cons, loadCheckpoints, loadSegment_of_mem (h p List.mem_cons_self),
      ih fun q hq => h q (List.mem_cons_of_mem _ hq)]
    rfl

/-- Records outside the listed segments are outside the range. -/
theorem filter_listed (hw : SegmentsWf (s.storage.segments cfg.dbId)) {low high : Checkpoint}
    {sel : SegmentCheckpoint → Bool} (hsel : ∀ e, sel e = true → low ≤ e.ckpt ∧ e.ckpt ≤ high) :
    (((s.storage.segments cfg.dbId).entries.filter fun p => p.1.overlapsRange low high).flatMap
      (·.2.checkpoints)).filter sel =
      (storedRecords (s.storage.segments cfg.dbId)).filter sel := by
  refine filter_flatMap_filter fun p hp hq e he => ?_
  by_contra hc
  obtain ⟨h1, h2⟩ := hsel e (by simpa using hc)
  have hov := Checkpoint.overlapsRange_of_mem h1 h2
  rw [(hw p hp).2.2 e he, hq] at hov
  exact absurd hov (by simp)

/-- **The walk over the listed segments searches the stored records of the range.** -/
theorem scanSegments_inRange {γ : Type} (hw : SegmentsWf (s.storage.segments cfg.dbId))
    {low high : Checkpoint} {f : SegmentCheckpoint → Option γ}
    (hf : ∀ e, (f e).isSome = true → low ≤ e.ckpt ∧ e.ckpt ≤ high) :
    s.scanSegments cfg f (s.listSegmentsInRange cfg low high).reverse =
      .ok (newest f (storedRecords (s.storage.segments cfg.dbId))) := by
  have hnone : ∀ l : List SegmentCheckpoint, ∀ e ∈ l, (f e).isSome = false → f e = none :=
    fun _ e _ he => by simpa using he
  rw [listSegmentsInRange_eq, scanSegments_map f fun p hp => (List.mem_filter.mp hp).1,
    ← newest_filter (hnone _), filter_listed hw hf, newest_filter (hnone _)]

/-- The loaded checkpoints of the range are the stored records of the range. -/
theorem loadCheckpoints_inRange (hw : SegmentsWf (s.storage.segments cfg.dbId))
    (low high : Checkpoint) (sel : SegmentCheckpoint → Bool)
    (hsel : ∀ e, sel e = true → low ≤ e.ckpt ∧ e.ckpt ≤ high) :
    ∃ scs, s.loadCheckpoints cfg (s.listSegmentsInRange cfg low high) = .ok scs ∧
      scs.filter sel = (storedRecords (s.storage.segments cfg.dbId)).filter sel := by
  refine ⟨_, ?_, filter_listed hw hsel⟩
  rw [listSegmentsInRange_eq, loadCheckpoints_map fun p hp => (List.mem_filter.mp hp).1]

theorem loadCheckpoints_all : s.loadCheckpoints cfg (s.listAllSegments cfg) =
    .ok (storedRecords (s.storage.segments cfg.dbId)) :=
  loadCheckpoints_map fun _ hp => hp

end Db

/-! ## Layers -/

/-- The newest stored base manifest, or an empty one. -/
def newestBase (bases : SortedMap Checkpoint Manifest) : Manifest :=
  (bases.entries.getLast?.map Prod.snd).getD .empty

/-- How segments and manifests hold the log `H = old ++ new` of a database whose base is `base` and
whose head is `head`. -/
structure Layers (cfg : StoreConfig) (segments : SortedMap SegmentId TimelineSegment)
    (bases : SortedMap Checkpoint Manifest) (base head : Checkpoint) (manifest : Manifest)
    (tikm : Option Manifest) (H old new : List SegmentCheckpoint) : Prop where
  split : H = old ++ new
  wf : SegmentsWf segments
  suffix : storedRecords segments <:+ H
  stored_ne : H ≠ [] → storedRecords segments ≠ []
  new_stored : ∀ e ∈ new, e ∈ storedRecords segments
  ids_ge : ∀ p ∈ segments.entries, base.toSegmentId ≤ p.1
  base_ge : default ≤ base
  base_le : base ≤ head
  old_le : ∀ e ∈ old, e.isBlank = false → e.ckpt ≤ base
  base_lt : ∀ e ∈ new, base < e.ckpt
  manifest_rep : Represents cfg manifest old
  tikm_rep : ∀ m, tikm = some m → Represents cfg m old
  newest_rep : Represents cfg (newestBase bases) old
  base_ok : manifest.checkpoint = base ∨
    base ≠ default ∧ ∃ m, bases.lookup base = some m ∧ Represents cfg m old
  keys : ∀ k ∈ bases.keys, k ≤ head ∧ ∀ e ∈ new, e.isBlank = false → k < e.ckpt

namespace Layers

variable {cfg : StoreConfig} {segments : SortedMap SegmentId TimelineSegment}
  {bases : SortedMap Checkpoint Manifest} {base head : Checkpoint} {manifest : Manifest}
  {tikm : Option Manifest} {H old new : List SegmentCheckpoint}

theorem mem_of_stored (h : Layers cfg segments bases base head manifest tikm H old new)
    {e : SegmentCheckpoint} (he : e ∈ storedRecords segments) : e ∈ H :=
  h.suffix.mem he

/-- A manifest that represents `old` does not lie above the base. -/
theorem header_le_base (h : Layers cfg segments bases base head manifest tikm H old new)
    {m : Manifest} (hm : Represents cfg m old) : m.checkpoint ≤ base := by
  rcases hm.header_mem with hd | ⟨e, he, hb, hc⟩
  · rw [hd]
    exact h.base_ge
  · rw [← hc]
    exact h.old_le e he hb

/-- Old records are those up to the base, as far as they are not blank. -/
theorem newest_old {γ : Type} (h : Layers cfg segments bases base head manifest tikm H old new)
    (hlog : Log H head) {f : SegmentCheckpoint → Option γ}
    (hf : ∀ e ∈ H, e.isBlank = true → f e = none) : newest f old = newest f (upTo base H) := by
  have hasc := hlog.ascending_ckpt
  have hold : Ascending SegmentCheckpoint.ckpt old :=
    hasc.sublist (h.split ▸ List.sublist_append_left old new)
  have hmem : ∀ e ∈ old, e ∈ H := fun e he => h.split ▸ List.mem_append_left _ he
  refine newest_of_lower (hasc.sublist List.filter_sublist) hold (fun e he hs => ?_)
    fun e he hs => ?_
  · refine mem_upTo.mpr ⟨hmem e he, h.old_le e he ?_⟩
    by_contra hb
    rw [hf e (hmem e he) (by simpa using hb)] at hs
    exact absurd hs (by simp)
  · obtain ⟨heH, hle⟩ := mem_upTo.mp he
    rw [h.split] at heH
    exact (List.mem_append.mp heH).resolve_right fun hnew =>
      absurd (h.base_lt e hnew) (not_lt.mpr hle)

end Layers

/-! ## The base manifest -/

namespace Db

variable {cfg : StoreConfig}

/-- The layers of a database with the log `H = old ++ new`. -/
abbrev LayersOf (cfg : StoreConfig) (s : Db β) (H old new : List SegmentCheckpoint) : Prop :=
  Layers cfg (s.storage.segments cfg.dbId) (s.storage.bases cfg.dbId) s.timeline.baseCkpt
    s.timeline.headCkpt s.manifest s.tikm H old new

/-- **The base manifest, reloaded if need be, represents the old records.** Only the snapshot and
the local file change. -/
theorem baseManifest_of_layers {s : Db β} {H old new : List SegmentCheckpoint}
    (h : s.LayersOf cfg H old new) : ∃ m tikm,
      s.baseManifest cfg = .ok (m, { s with manifest := m, tikm := tikm }) ∧
      Represents cfg m old ∧
      LayersOf cfg { s with manifest := m, tikm := tikm } H old new := by
  by_cases hc : s.manifest.checkpoint = s.timeline.baseCkpt
  · refine ⟨s.manifest, s.tikm, ?_, h.manifest_rep, h⟩
    rw [baseManifest, if_pos hc]
  · obtain ⟨hne, m, hm, hrep⟩ := h.base_ok.resolve_left hc
    -- the local file serves when its header matches, else the stored object
    have hload : ∃ m' tikm', s.loadManifestAt cfg s.timeline.baseCkpt =
        .ok (m', { s with tikm := tikm' }) ∧ Represents cfg m' old ∧
        ∀ m'', tikm' = some m'' → Represents cfg m'' old := by
      rw [loadManifestAt, if_neg hne]
      cases ht : s.tikm.filter (fun m => decide (m.checkpoint = s.timeline.baseCkpt)) with
      | some m' =>
        obtain ⟨hsome, -⟩ := Option.filter_eq_some_iff.mp ht
        exact ⟨m', s.tikm, rfl, h.tikm_rep m' hsome, h.tikm_rep⟩
      | none =>
        dsimp only
        rw [hm]
        refine ⟨m, some m, rfl, hrep, fun m'' hm'' => ?_⟩
        rw [← Option.some.inj hm'']
        exact hrep
    obtain ⟨m', tikm', hl, hrep', htikm⟩ := hload
    refine ⟨m', tikm', ?_, hrep', { h with
      manifest_rep := hrep'
      tikm_rep := htikm
      base_ok := .inr ⟨hne, m, hm, hrep⟩ }⟩
    rw [baseManifest, if_neg hc, hl]

end Db

end Tiko

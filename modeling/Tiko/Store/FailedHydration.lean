import Tiko.Lib.Reach
import Tiko.Store.Run
import Tiko.Store.Sound

/-!
# A start whose hydration fails

`Store::init` opens a base manifest and fills the shared memory from the stored segments. When the
segments cannot be listed or loaded it only logs the error: the shared memory stays reset, with a base
manifest in the cache that does not belong to it.

* `Db.opened`, `Db.hydrateFallible`: the two halves of a start, the second with failures;
* `Harmless`: reads after the failed start answer like those after a successful one, or with an error
  other than `not_found`, and leave the local manifest file alone;
* **`harmless_iff`**: this is so exactly when nothing has ever been committed;
* `failed_hydration_hides_chunk`: a start that answers `not_found` for a committed chunk.
-/

namespace Tiko

open Lib

variable {β : Type} {cfg : StoreConfig} {s : Db β}

namespace Db

/-! ## Starts with failures -/

/-- `Store::init` up to the hydration: the shared memory is reset and a manifest is opened. -/
def opened (cfg : StoreConfig) (s : Db β) (tikmLost : Bool) : Db β :=
  let s : Db β := { s with
    timeline := s.timeline.init
    draft := s.draft.init
    tikm := if tikmLost then none else s.tikm }
  let m := s.initManifest cfg
  { s with manifest := m, tikm := some m }

/-- The walk of `hydrate_timeline_state` over the segments, newest first, until the window is full.
`load` tells which segments can be loaded. -/
def collectNewest (cfg : StoreConfig) (load : SegmentId → Bool) (s : Db β) :
    List SegmentId → List SegmentCheckpoint → Except Error (List SegmentCheckpoint)
  | [], newestFirst => .ok newestFirst
  | id :: ids, newestFirst =>
    if !load id then .error .io
    else
      match s.loadSegment cfg id with
      | .error e => .error e
      | .ok seg =>
        let newestFirst := (newestFirst ++ seg.checkpoints.reverse).take activeWindowSize
        if activeWindowSize ≤ newestFirst.length then .ok newestFirst
        else s.collectNewest cfg load ids newestFirst

/-- `Store::hydrate_timeline_state` of a normal start; `list` is `false` when the listing fails. -/
def hydrateFallible (cfg : StoreConfig) (list : Bool) (load : SegmentId → Bool) (s : Db β) :
    Except Error Unit × Db β :=
  if s.timeline.hydrated then (.ok (), s)
  else if !list then (.error .io, s)
  else
    match s.collectNewest cfg load (s.listAllSegments cfg).reverse [] with
    | .error e => (.error e, s)
    | .ok newestFirst =>
      let t := newestFirst.reverse.foldl pushCheckpoint s.timeline
      let t := if s.manifest.checkpoint ≠ default then t.setBaseCkpt s.manifest.checkpoint else t
      (.ok (), { s with timeline := { t with hydrated := true } })

theorem collectNewest_map {es : List (SegmentId × TimelineSegment)}
    (h : ∀ p ∈ es, p ∈ (s.storage.segments cfg.dbId).entries) {l : List SegmentCheckpoint}
    (hl : l.length < activeWindowSize) :
    s.collectNewest cfg (fun _ => true) (es.map Prod.fst) l =
      .ok ((l ++ es.flatMap (·.2.checkpoints.reverse)).take activeWindowSize) := by
  induction es generalizing l with
  | nil =>
    rw [List.map_nil, collectNewest, List.flatMap_nil, List.append_nil, List.take_of_length_le hl.le]
  | cons p es ih =>
    have ih := fun (l : List SegmentCheckpoint) (hl : l.length < activeWindowSize) =>
      ih (fun q hq => h q (List.mem_cons_of_mem _ hq)) hl
    rw [List.map_cons, collectNewest, loadSegment_of_mem (h p List.mem_cons_self), List.flatMap_cons,
      ← List.append_assoc]
    simp only [Bool.not_true, Bool.false_eq_true, if_false, List.length_take]
    split_ifs with hfull
    · rw [List.take_append_of_le_length (hfull.trans (min_le_right _ _))]
    · have hlen : (l ++ p.2.checkpoints.reverse).length < activeWindowSize := by
        rw [not_le, min_lt_iff] at hfull
        exact hfull.resolve_left (lt_irrefl _)
      rw [List.take_of_length_le hlen.le, ih _ hlen]

/-- Without failures it is the hydration of a start. -/
theorem hydrateFallible_true (s : Db β) : s.hydrateFallible cfg true (fun _ => true) =
    (.ok (), s.hydrateTimelineState cfg false) := by
  have hlist : (s.listAllSegments cfg).reverse =
      (s.storage.segments cfg.dbId).entries.reverse.map Prod.fst := by
    rw [listAllSegments, SortedMap.keys, List.map_reverse]
  have hrev : ∀ es : List (SegmentId × TimelineSegment),
      es.reverse.flatMap (·.2.checkpoints.reverse) = (es.flatMap (·.2.checkpoints)).reverse := by
    intro es
    rw [List.reverse_flatMap]
    rfl
  rw [hydrateFallible, hydrateTimelineState, loadCheckpoints_all, hlist,
    collectNewest_map (fun p hp => List.mem_reverse.mp hp) (by decide), List.nil_append, hrev]
  by_cases hh : s.timeline.hydrated = true
  · rw [if_pos hh, if_pos hh]
  · rw [if_neg hh, if_neg hh, if_neg (by decide), if_neg (by decide)]
    rfl

/-- A hydration that fails has not touched the shared memory. -/
theorem hydrateFallible_error {list : Bool} {load : SegmentId → Bool} {e : Error}
    (h : (s.hydrateFallible cfg list load).1 = .error e) :
    (s.hydrateFallible cfg list load).2 = s := by
  unfold hydrateFallible at h ⊢
  by_cases hh : s.timeline.hydrated = true
  · rw [if_pos hh]
  · rw [if_neg hh] at h ⊢
    cases list with
    | false => rfl
    | true =>
      rw [if_neg (by decide)] at h ⊢
      cases hc : s.collectNewest cfg load (s.listAllSegments cfg).reverse [] with
      | error e => rfl
      | ok l =>
        rw [hc] at h
        exact absurd h (by simp)

theorem restart_eq_opened (tikmLost inRecovery : Bool) : s.restart cfg tikmLost inRecovery =
    (s.opened cfg tikmLost).hydrateTimelineState cfg inRecovery := rfl

end Db

/-! ## Reads after a failed hydration -/

/-- An answer that harms nobody: the right one, or an error other than `not_found`. -/
def Answers {α : Type} (r right : Except Error α) : Prop :=
  r = right ∨ ∃ e, r = .error e ∧ e.isNotFound = false

/-- A read, which may change the cached manifests. -/
def Db.readStep (cfg : StoreConfig) (s : Db β) : ChunkTag ⊕ RelFork → Option (Db β)
  | .inl tag => some (s.getChunk cfg tag).2
  | .inr rf => some (s.getMeta cfg rf).2

/-- After any number of reads of `f`, every read answers as one of `g` would, or with an error other
than `not_found`, and leaves the local manifest file alone. -/
def Harmless (cfg : StoreConfig) (f g : Db β) : Prop :=
  ∀ f', Reaches (Db.readStep cfg) (fun _ _ => True) f f' →
    (∀ tag, Answers (f'.getChunk cfg tag).1 (g.getChunk cfg tag).1 ∧
      (f'.getChunk cfg tag).2.tikm = f'.tikm) ∧
    ∀ rf, Answers (f'.getMeta cfg rf).1 (g.getMeta cfg rf).1 ∧
      (f'.getMeta cfg rf).2.tikm = f'.tikm

namespace Db

variable {tikmLost : Bool}

theorem containsChunk_init (d : DraftBuffer) (tag : ChunkTag) : d.init.containsChunk tag = false := by
  rw [DraftBuffer.containsChunk, DraftBuffer.init, ChunkZone.contains_init]
  rfl

theorem getRelfork_init (codec : FrameCodec) (d : DraftBuffer) (rf : RelFork) :
    d.init.getRelfork codec true rf = .ok none := by
  have hget : RelforkZone.get d.init.relforks rf = none := ProbeTable.lookup_empty rf
  rw [DraftBuffer.getRelfork, hget]
  rfl

/-- The layers of a chunk above the base manifest are empty: the read answers from the manifest. -/
theorem getChunk_opened_of {tag : ChunkTag} {m : Manifest} {s' : Db β}
    (hb : (s.opened cfg tikmLost).baseManifest cfg = .ok (m, s')) (hm : m.lookup tag = none) :
    (s.opened cfg tikmLost).getChunk cfg tag = (.error .notFound, s') := by
  have hdraft : (s.opened cfg tikmLost).draft.containsChunk tag = false := containsChunk_init _ _
  have hprobe : (s.opened cfg tikmLost).probeWindow cfg tag = none := rfl
  have hscan : (s.opened cfg tikmLost).readChunkFromSegments cfg tag
      (s.opened cfg tikmLost).timeline.baseCkpt (s.opened cfg tikmLost).segTop = .ok none := rfl
  rw [getChunk, hdraft, hprobe, hscan, hb]
  simp [hm]

/-- A manifest that does not belong to the reset shared memory is replaced by an empty one, in the
cache and in the local file. -/
theorem baseManifest_opened_of_ne (h : (s.opened cfg tikmLost).manifest.checkpoint ≠ default) :
    (s.opened cfg tikmLost).baseManifest cfg = .ok (.empty, { s.opened cfg tikmLost with
      manifest := .empty
      tikm := some .empty }) := by
  have hbase : (s.opened cfg tikmLost).timeline.baseCkpt = default := rfl
  rw [baseManifest, hbase]
  dsimp only
  rw [if_neg h, loadManifestAt, if_pos rfl]

theorem baseManifest_opened_of_eq (h : (s.opened cfg tikmLost).manifest.checkpoint = default) :
    (s.opened cfg tikmLost).baseManifest cfg =
      .ok ((s.opened cfg tikmLost).manifest, s.opened cfg tikmLost) := by
  rw [baseManifest]
  exact if_pos h

/-- **A read writes an empty manifest file over another one.** -/
theorem tikm_getChunk_opened (h : (s.opened cfg tikmLost).manifest.checkpoint ≠ default)
    (tag : ChunkTag) : ((s.opened cfg tikmLost).getChunk cfg tag).2.tikm = some .empty ∧
      (s.opened cfg tikmLost).tikm ≠ some .empty := by
  refine ⟨?_, fun heq => h ?_⟩
  · rw [getChunk_opened_of (baseManifest_opened_of_ne h) rfl]
  · have hm : (s.opened cfg tikmLost).tikm = some (s.opened cfg tikmLost).manifest := rfl
    rw [hm] at heq
    rw [Option.some.inj heq]
    rfl

end Db

/-! ## Manifests of the default checkpoint -/

/-- A manifest of the default checkpoint has no chunks. -/
def BlankHeader (m : Manifest) : Prop := m.checkpoint = default → ∀ tag, m.lookup tag = none

theorem BlankHeader.applySegments {m : Manifest} (h : BlankHeader m) {l : List SegmentCheckpoint}
    (hl : ∀ e ∈ l, default < e.ckpt) (sort : Manifest.CombinedSort) (dbId : UInt64) (now : ℤ) :
    BlankHeader (m.applySegments sort l dbId now) := by
  intro hd tag
  have hck : m.lastCkpt l = default := hd
  rcases lastCkpt_spec m l with ⟨e, he, -, hc⟩ | ⟨hblank, hc⟩
  · rw [hck] at hc
    exact absurd (hl e he) (by rw [hc]; exact lt_irrefl _)
  · cases hr : (m.applySegments sort l dbId now).lookup tag with
    | none => rfl
    | some r =>
      rcases lookup_of_applySegments hr with hr | hr
      · rw [h (hc.symm.trans hck) tag] at hr
        exact absurd hr (by simp)
      · obtain ⟨⟨e, he, hcont, -⟩, -⟩ := Manifest.lookup_latestRefs_spec hr
        rw [SegmentCheckpoint.containsChunk_of_isBlank (hblank e he)] at hcont
        exact absurd hcont (by simp)

/-- All manifests that a database can read are like this. -/
def Db.Headed (cfg : StoreConfig) (s : Db β) : Prop :=
  ∀ m, Sees (s.storage.bases cfg.dbId) s.manifest s.tikm m → BlankHeader m

namespace Db.Headed

theorem refreshed {s' : Db β} (h : s.Headed cfg) (hr : Db.Refreshed cfg s s') : s'.Headed cfg := by
  obtain ⟨chunks, draft, manifest, tikm, rfl, hm, ht⟩ := hr
  rintro m (hm' | hm' | hm' | hm')
  · exact h m (.inl hm')
  · exact h m (hm' ▸ hm)
  · exact h m (ht m hm')
  · exact h m (.inr (.inr (.inr hm')))

theorem compactRange (h : s.Headed cfg) (hbase : default ≤ s.timeline.baseCkpt) {high : Checkpoint}
    {select : SegmentCheckpoint → Bool}
    (hselect : ∀ e, select e = true → s.timeline.baseCkpt < e.ckpt)
    (newBase : List SegmentCheckpoint → Manifest → Checkpoint) (now : ℤ) :
    (s.compactRange cfg high select newBase now).2.Headed cfg := by
  rw [Db.compactRange]
  cases hload : s.loadCheckpoints cfg (s.listSegmentsInRange cfg s.timeline.baseCkpt high) with
  | error e => exact h
  | ok scs =>
    dsimp only
    split_ifs with hnil
    · exact h
    · cases hbm : s.baseManifest cfg with
      | error e => exact h
      | ok p =>
        obtain ⟨m, s'⟩ := p
        obtain ⟨⟨tikm, rfl, -⟩, hm, -⟩ := Db.baseManifest_sees hbm
        have hl : ∀ e ∈ (scs.filter select).insertionSort Db.ckptLe, default < e.ckpt := by
          intro e he
          rw [List.mem_insertionSort] at he
          exact hbase.trans_lt (hselect e (List.mem_filter.mp he).2)
        have happly := (h m hm).applySegments hl cfg.sort cfg.dbId now
        rintro m' (hm' | hm' | hm' | ⟨key, hm'⟩)
        · exact h m' (.inl hm')
        · rw [hm']
          exact happly
        · rw [← Option.some.inj hm']
          exact happly
        · have hbases : ∀ c applied dead, ((s.storage.putBase cfg.dbId c applied).deleteSegments
              cfg.dbId dead).bases cfg.dbId = _ := fun c applied dead => Function.update_self ..
          rw [hbases, SortedMap.lookup_insert] at hm'
          split_ifs at hm'
          · rw [← Option.some.inj hm']
            exact happly
          · exact h m' (.inr (.inr (.inr ⟨key, hm'⟩)))

theorem restart (h : s.Headed cfg) (tikmLost : Bool) : (s.restart cfg tikmLost false).Headed cfg := by
  rw [Db.restart_eq]
  have hm := Db.SoundAt.sees_reopened (s.storage.bases cfg.dbId) s.manifest s.tikm tikmLost
  rintro m (hm' | hm' | hm' | hm')
  · exact h m (.inl hm')
  · exact h m (hm' ▸ hm)
  · exact h m (Option.some.inj hm' ▸ hm)
  · exact h m (.inr (.inr (.inr hm')))

theorem step [Zero β] {g : Flat β} {H : List SegmentCheckpoint} {F : DraftFrame}
    (hinv : Inv cfg s g H F) (h : s.Headed cfg) {st : Step β} (hok : st.Ordered g) :
    (s.step cfg st).Headed cfg := by
  obtain ⟨old, new, hl⟩ := hinv.layers
  cases st with
  | patchChunk tag offset data => exact h.refreshed (Db.patchChunk_refreshed s _ tag offset data)
  | putMeta rf m => exact h
  | spill => exact h
  | commit a =>
    obtain ⟨d, hd, -⟩ := DraftBuffer.drain_of_holds hinv.draft
    rw [Db.step, Db.runCommitProtocol_ok hd]
    exact h
  | compact now =>
    rw [Db.step, Db.runCompaction]
    split_ifs
    · exact h
    · exact h.compactRange hl.base_ge (fun e he => (of_decide_eq_true he).1) _ now
    · exact h
    · exact h.compactRange hl.base_ge (fun e he => (of_decide_eq_true he).1) _ now
  | compactThrough target now =>
    rw [Db.step, Db.runCompactionThrough]
    split_ifs
    · exact h
    · exact h.compactRange hl.base_ge (fun e he => (of_decide_eq_true he).1) _ now
  | restart tikmLost => exact h.restart tikmLost
  | getChunk tag => exact h.refreshed (Db.getChunk_refreshed s tag)
  | getMeta rf => exact h.refreshed (Db.getMeta_refreshed s rf)

/-- **In every run, a manifest of the default checkpoint has no chunks.** -/
theorem run [Zero β] {g : Flat β} {H : List SegmentCheckpoint} {F : DraftFrame}
    (hinv : Inv cfg s g H F) (h : s.Headed cfg) {steps : List (Step β)}
    (hok : Along Step.Ordered g steps) : (s.run cfg steps).Headed cfg := by
  induction steps generalizing s g H F with
  | nil => exact h
  | cons st steps ih =>
    obtain ⟨H', F', hinv', -⟩ := hinv.step hok.1
    exact ih hinv' (step hinv h hok.1) hok.2

theorem of_isFresh (h : IsFresh cfg s) : s.Headed cfg := by
  rintro m (hm | hm | hm | ⟨key, hm⟩)
  · exact fun _ tag => by rw [hm]; rfl
  · exact fun _ tag => by rw [hm, h.manifest]; rfl
  · exact fun _ tag => by rw [h.tikm m hm]; rfl
  · rw [h.bases] at hm
    exact absurd hm (by simp)

end Db.Headed

/-! ## Reads after a successful hydration -/

/-- A database right after a start: the window mirrors the stored records, which ascend from the base
up, and chunk objects exist for what they recorded. -/
structure Db.Hydrated (cfg : StoreConfig) (s : Db β) (stored : List SegmentCheckpoint) : Prop where
  stored_eq : storedRecords (s.storage.segments cfg.dbId) = stored
  wf : SegmentsWf (s.storage.segments cfg.dbId)
  window : Window s.timeline stored
  ascending : Ascending SegmentCheckpoint.ckpt stored
  base_le : ∀ e ∈ stored, s.timeline.baseCkpt ≤ e.ckpt
  objects : ∀ e ∈ stored, ∀ tag,
    (s.storage.chunks cfg.dbId e.prevCkpt tag).isSome = e.containsChunk tag
  draftChunks : ∀ tag, s.draft.containsChunk tag = false
  draftMetas : ∀ rf, s.draft.getRelfork cfg.codec true rf = .ok none
  snapshot : s.manifest.checkpoint = s.timeline.baseCkpt

namespace Db.Hydrated

variable {stored : List SegmentCheckpoint}

theorem probeWindow_eq (h : s.Hydrated cfg stored) {es : List SegmentCheckpoint}
    (hmir : List.Forall₂ ActiveCheckpoint.Mirrors s.timeline.iterActive es)
    (hsub : ∀ e ∈ es, e ∈ stored) (tag : ChunkTag) :
    s.probeWindow cfg tag = es.findSome? (objectOf cfg s.storage tag) :=
  findSome?_window hmir fun e he => h.objects e (hsub e he) tag

/-- The scan of the segments finds something exactly if a record of the range has the chunk. -/
theorem readChunkFromSegments_eq (h : s.Hydrated cfg stored) (tag : ChunkTag) (top : Checkpoint) :
    ∃ r, s.readChunkFromSegments cfg tag s.timeline.baseCkpt top = .ok r ∧
      (r = none ↔ ∀ e ∈ stored, e.ckpt < top → e.containsChunk tag = false) := by
  rw [Db.readChunkFromSegments]
  split_ifs with hle
  · refine ⟨none, rfl, fun _ e he hlt => ?_, fun _ => rfl⟩
    exact absurd (h.base_le e he) (not_le.mpr (hlt.trans_le hle))
  · refine ⟨_, Db.scanSegments_inRange h.wf fun e he => ?_, ?_⟩
    · split_ifs at he with hr hc
      · exact absurd he (by simp)
      · rw [not_or, not_lt, not_le] at hr
        exact ⟨hr.1, hr.2.le⟩
      · exact absurd he (by simp)
    · rw [newest_eq_none_iff, h.stored_eq]
      refine forall₂_congr fun e he => ?_
      have hobj := h.objects e he tag
      by_cases hlt : e.ckpt < top
      · rw [if_neg (by rw [not_or, not_lt, not_le]; exact ⟨h.base_le e he, hlt⟩)]
        cases hc : e.containsChunk tag with
        | false => simp
        | true =>
          rw [hc] at hobj
          obtain ⟨c, hc⟩ := Option.isSome_iff_exists.mp hobj
          simp [Db.tryReadChunkAt, hc, hlt]
      · rw [if_pos (.inr (not_lt.mp hlt))]
        simp [hlt]

theorem baseManifest_eq (h : s.Hydrated cfg stored) : s.baseManifest cfg = .ok (s.manifest, s) := by
  rw [Db.baseManifest, if_pos h.snapshot]

/-- The window mirrors the newest of the stored records, newest first. -/
theorem window_split (h : s.Hydrated cfg stored) : ∃ es,
    List.Forall₂ ActiveCheckpoint.Mirrors s.timeline.iterActive es ∧ (∀ e ∈ es, e ∈ stored) ∧
    es.Pairwise (fun a b => b.ckpt < a.ckpt) ∧ (es = [] → stored = []) ∧
    ∀ e ∈ stored, e ∉ es → ∀ x ∈ es, e.ckpt < x.ckpt := by
  obtain ⟨k, hk, hmir⟩ := h.window
  have hdesc : stored.reverse.Pairwise fun a b => b.ckpt < a.ckpt :=
    List.pairwise_reverse.mpr h.ascending
  refine ⟨stored.reverse.take k, hmir, fun e he => ?_, hdesc.sublist (List.take_sublist _ _),
    fun hnil => ?_, fun e he hnot x hx => ?_⟩
  · exact List.mem_reverse.mp (List.mem_of_mem_take he)
  · rcases List.take_eq_nil_iff.mp hnil with hk0 | hnil
    · exact hk hk0
    · exact List.reverse_eq_nil_iff.mp hnil
  · have hmem : e ∈ stored.reverse := List.mem_reverse.mpr he
    rw [← List.take_append_drop k stored.reverse] at hdesc hmem
    have hdrop := (List.mem_append.mp hmem).resolve_left hnot
    exact (List.pairwise_append.mp hdesc).2.2 x hx e hdrop

/-- Records outside the window lie below its oldest entry. -/
theorem lt_segTop {es : List SegmentCheckpoint}
    (hmir : List.Forall₂ ActiveCheckpoint.Mirrors s.timeline.iterActive es) {e : SegmentCheckpoint}
    (hne : es ≠ []) (hlt : ∀ x ∈ es, e.ckpt < x.ckpt) : e.ckpt < s.segTop := by
  rw [← List.dropLast_append_getLast hne] at hmir
  rw [Db.segTop, getLast?_of_forall₂ hmir]
  exact hlt _ (List.getLast_mem hne)

/-- **A chunk is found exactly if a stored record has it**, when the base manifest does not. -/
theorem getChunk_iff (h : s.Hydrated cfg stored) {tag : ChunkTag}
    (hm : s.manifest.lookup tag = none) : (s.getChunk cfg tag).1 = .error .notFound ↔
      ∀ e ∈ stored, e.containsChunk tag = false := by
  obtain ⟨es, hmir, hsub, -, hnil, hrest⟩ := h.window_split
  have hnone : es.findSome? (objectOf cfg s.storage tag) = none ↔
      ∀ e ∈ es, e.containsChunk tag = false := by
    rw [List.findSome?_eq_none_iff]
    refine forall₂_congr fun e he => ?_
    rw [← h.objects e (hsub e he) tag, objectOf, ← Bool.not_eq_true, Option.not_isSome_iff_eq_none]
  obtain ⟨r, hr, hrnone⟩ := h.readChunkFromSegments_eq tag s.segTop
  rw [Db.getChunk, h.draftChunks, hr, h.probeWindow_eq hmir hsub tag]
  cases hes : es.findSome? (objectOf cfg s.storage tag) with
  | some c =>
    refine iff_of_false (by simp) fun hall => ?_
    rw [hnone.mpr fun e he => hall e (hsub e he)] at hes
    exact absurd hes (by simp)
  | none =>
    cases r with
    | some c =>
      refine iff_of_false (by simp) fun hall => ?_
      exact absurd (hrnone.mpr fun e he _ => hall e he) (by simp)
    | none =>
      simp only [Bool.false_eq_true, if_false, h.baseManifest_eq, hm]
      refine iff_of_true trivial fun e he => ?_
      by_cases hmem : e ∈ es
      · exact hnone.mp hes e hmem
      · have hne : es ≠ [] := fun hnil' => by
          rw [hnil hnil'] at he
          exact absurd he List.not_mem_nil
        exact hrnone.mp rfl e he (lt_segTop hmir hne (hrest e he hmem))

/-- **Metadata is found exactly if a stored record has it**, when the base manifest does not. -/
theorem getMeta_iff (h : s.Hydrated cfg stored) {rf : RelFork}
    (hm : s.manifest.lookupRelforkMeta rf = none) : (s.getMeta cfg rf).1 = .error .notFound ↔
      ∀ e ∈ stored, e.relforkMeta rf = none := by
  obtain ⟨es, hmir, hsub, hdesc, hnil, hrest⟩ := h.window_split
  -- below `top` the answer is in the segments
  have hbelow : ∀ top, (∀ e ∈ stored, ¬e.ckpt ≤ top → e.relforkMeta rf = none) →
      ((s.getMetaBelow cfg rf top).1 = .error .notFound ↔ ∀ e ∈ stored, e.relforkMeta rf = none) := by
    intro top habove
    rw [Db.getMetaBelow, Db.readRelforkFromSegments_eq h.wf, h.stored_eq]
    have hiff : newest (fun e => if s.timeline.baseCkpt ≤ e.ckpt ∧ e.ckpt ≤ top then e.relforkMeta rf
        else none) stored = none ↔ ∀ e ∈ stored, e.relforkMeta rf = none := by
      rw [newest_eq_none_iff]
      refine forall₂_congr fun e he => ?_
      by_cases hle : e.ckpt ≤ top
      · rw [if_pos ⟨h.base_le e he, hle⟩]
      · simp [hle, habove e he hle]
    rw [← hiff]
    cases newest (fun e => if s.timeline.baseCkpt ≤ e.ckpt ∧ e.ckpt ≤ top then e.relforkMeta rf
        else none) stored with
    | some m => simp
    | none => simp [h.baseManifest_eq, hm]
  rw [Db.getMeta, h.draftMetas]
  dsimp only
  rcases walkIndex_spec rf hmir none with ⟨m, c, hw, hf⟩ | ⟨hes, hw⟩ | ⟨pre, x, post, hes, hpre, hw⟩
  · rw [hw]
    refine iff_of_false (by simp) fun hall => ?_
    rw [List.findSome?_eq_none_iff.mpr fun e he => hall e (hsub e he)] at hf
    exact absurd hf (by simp)
  · rw [hw]
    refine hbelow _ fun e he => ?_
    rw [hnil hes] at he
    exact absurd he List.not_mem_nil
  · rw [hw]
    refine hbelow _ fun e he habove => ?_
    have hx : x ∈ es := by simp [hes]
    have hmem : e ∈ es := by
      by_contra hnot
      exact habove (hrest e he hnot x hx).le
    rw [hes] at hmem hdesc
    rcases List.mem_append.mp hmem with hp | hp
    · exact hpre e hp
    · rcases List.mem_cons.mp hp with rfl | hp
      · exact absurd le_rfl habove
      · exact absurd ((List.pairwise_cons.mp (List.pairwise_append.mp hdesc).2.1).1 e hp).le habove

end Db.Hydrated

/-! ## When a failed hydration is harmless -/

section

variable {g : Flat β} {H : List SegmentCheckpoint} {F : DraftFrame} {tikmLost : Bool}

/-- What a start opens, in a database that meets the invariant. -/
theorem Inv.represents_opened (h : Inv cfg s g H F) (tikmLost : Bool) :
    ∃ old, (∀ e ∈ old, e ∈ H) ∧ Represents cfg (s.opened cfg tikmLost).manifest old := by
  obtain ⟨old, new, hl⟩ := h.layers
  refine ⟨old, fun e he => by rw [hl.split]; exact List.mem_append_left _ he, ?_⟩
  change Represents cfg ((if tikmLost then none else s.tikm).getD
    (newestBase (s.storage.bases cfg.dbId))) old
  cases ht : (if tikmLost then none else s.tikm) with
  | none => exact hl.newest_rep
  | some m =>
    split_ifs at ht
    exact hl.tikm_rep m ht

theorem Inv.lookupRelforkMeta_opened (h : Inv cfg s g H F)
    (hd : (s.opened cfg tikmLost).manifest.checkpoint = default) (rf : RelFork) :
    (s.opened cfg tikmLost).manifest.lookupRelforkMeta rf = none := by
  obtain ⟨old, hold, hrep⟩ := h.represents_opened tikmLost
  rw [hrep.metas, newest_eq_none_iff]
  intro e he
  by_contra hne
  have hb : e.isBlank = false := by
    by_contra hb
    exact hne (SegmentCheckpoint.relforkMeta_of_isBlank (by simpa using hb) rf)
  have hle := hrep.header_le e he hb
  rw [hd] at hle
  exact absurd (h.log.default_lt (hold e he)) (not_lt.mpr hle)

theorem Inv.hydrated_restart (h : Inv cfg s g H F)
    (hd : (s.opened cfg tikmLost).manifest.checkpoint = default) :
    (s.restart cfg tikmLost false).Hydrated cfg
      (storedRecords (s.storage.segments cfg.dbId)) := by
  obtain ⟨old, new, hl⟩ := h.layers
  rw [Db.restart_eq]
  have hd' : ((if tikmLost then none else s.tikm).getD
      (newestBase (s.storage.bases cfg.dbId))).checkpoint = default := hd
  exact {
    stored_eq := rfl
    wf := hl.wf
    window := window_hydrated _ _ _
    ascending := h.log.ascending_ckpt.sublist hl.suffix.sublist
    base_le := fun e he => by
      rw [baseCkpt_hydrated, hd']
      exact (h.log.default_lt (hl.mem_of_stored he)).le
    objects := fun e he => h.objects.sealed e (hl.mem_of_stored he)
    draftChunks := Db.containsChunk_init _
    draftMetas := Db.getRelfork_init _ _
    snapshot := (baseCkpt_hydrated _ _ _).symm }

/-- Reads of a reset database with a manifest of the default checkpoint find nothing. -/
theorem Inv.getMeta_opened (h : Inv cfg s g H F)
    (hd : (s.opened cfg tikmLost).manifest.checkpoint = default) (rf : RelFork) :
    (s.opened cfg tikmLost).getMeta cfg rf = (.error .notFound, s.opened cfg tikmLost) := by
  obtain ⟨old, new, hl⟩ := h.layers
  have hdraft : (s.opened cfg tikmLost).draft.getRelfork cfg.codec true rf = .ok none :=
    Db.getRelfork_init _ _ _
  have hscan : (s.opened cfg tikmLost).readRelforkFromSegments cfg rf default default = .ok none := by
    have hwf : SegmentsWf ((s.opened cfg tikmLost).storage.segments cfg.dbId) := hl.wf
    rw [Db.readRelforkFromSegments_eq hwf, newest_eq_none_iff.mpr]
    intro e he
    refine if_neg fun hr => ?_
    exact absurd (h.log.default_lt (hl.mem_of_stored he)) (not_lt.mpr hr.2)
  rw [Db.getMeta, hdraft]
  change (s.opened cfg tikmLost).getMetaBelow cfg rf default = _
  have hbase : (s.opened cfg tikmLost).timeline.baseCkpt = default := rfl
  rw [Db.getMetaBelow, hbase, hscan, Db.baseManifest_opened_of_eq hd]
  dsimp only
  rw [h.lookupRelforkMeta_opened hd]

theorem Db.Headed.getChunk_opened (h : s.Headed cfg)
    (hd : (s.opened cfg tikmLost).manifest.checkpoint = default) (tag : ChunkTag) :
    (s.opened cfg tikmLost).manifest.lookup tag = none ∧
      (s.opened cfg tikmLost).getChunk cfg tag = (.error .notFound, s.opened cfg tikmLost) := by
  have hm : (s.opened cfg tikmLost).manifest.lookup tag = none :=
    h _ (Db.SoundAt.sees_reopened (s.storage.bases cfg.dbId) s.manifest s.tikm tikmLost) hd tag
  exact ⟨hm, Db.getChunk_opened_of (Db.baseManifest_opened_of_eq hd) hm⟩

end

theorem answers_notFound_iff {α : Type} {right : Except Error α} :
    Answers (.error .notFound) right ↔ right = .error .notFound := by
  constructor
  · rintro (h | ⟨e, he, hnf⟩)
    · exact h.symm
    · rw [← Except.error.inj he] at hnf
      exact absurd hnf (by decide)
  · exact fun h => .inl h.symm

theorem isBlank_of_forall {e : SegmentCheckpoint} (hc : ∀ tag, e.containsChunk tag = false)
    (hr : ∀ rf, e.relforkMeta rf = none) : e.isBlank = true := by
  by_contra hb
  rcases SegmentCheckpoint.isBlank_iff.mp (by simpa using hb) with hne | hne
  · obtain ⟨p, hp⟩ := List.exists_mem_of_ne_nil _ hne
    have hmem : e.containsChunk p.1 = true :=
      (SortedSet.contains_iff_mem_keys _ _).mpr (List.mem_map_of_mem hp)
    rw [hc] at hmem
    exact absurd hmem (by simp)
  · obtain ⟨p, hp⟩ := List.exists_mem_of_ne_nil _ hne
    have hmem : e.relforkMeta p.1 = some p.2 := (SortedMap.mem_entries_iff _ _ _).mp hp
    rw [hr] at hmem
    exact absurd hmem (by simp)

/-- **A failed hydration is harmless exactly when nothing has been committed**: the manifest that the
start opens has the default checkpoint, and all stored records are blank. -/
theorem harmless_iff [Zero β] {s₀ : Db β} (h₀ : IsFresh cfg s₀) {steps : List (Step β)}
    (hok : Along Step.Ordered Flat.fresh steps) {s : Db β} (hs : s₀.run cfg steps = s)
    (tikmLost : Bool) {list : Bool} {load : SegmentId → Bool} {e : Error}
    (hfail : ((s.opened cfg tikmLost).hydrateFallible cfg list load).1 = .error e) :
    Harmless cfg ((s.opened cfg tikmLost).hydrateFallible cfg list load).2
        ((s.opened cfg tikmLost).hydrateFallible cfg true fun _ => true).2 ↔
      (s.opened cfg tikmLost).manifest.checkpoint = default ∧
        ∀ e ∈ storedRecords (s.storage.segments cfg.dbId), e.isBlank = true := by
  obtain ⟨H, F, hinv⟩ := (inv_of_isFresh h₀).run hok
  have hheaded := Db.Headed.run (inv_of_isFresh h₀) (.of_isFresh h₀) hok
  rw [hs] at hinv hheaded
  rw [Db.hydrateFallible_error hfail, Db.hydrateFallible_true, ← Db.restart_eq_opened]
  constructor
  · intro h
    obtain ⟨hchunks, hmetas⟩ := h _ .refl
    have hd : (s.opened cfg tikmLost).manifest.checkpoint = default := by
      by_contra hne
      obtain ⟨hempty, hnot⟩ := Db.tikm_getChunk_opened hne ⟨0, 0, 0, 0, 0⟩
      exact hnot ((hchunks _).2.symm.trans hempty)
    have hhyd := hinv.hydrated_restart hd
    have hmanifest : (s.restart cfg tikmLost false).manifest = (s.opened cfg tikmLost).manifest := by
      rw [Db.restart_eq]
      rfl
    refine ⟨hd, fun e he => isBlank_of_forall (fun tag => ?_) fun rf => ?_⟩
    · obtain ⟨hm, hget⟩ := hheaded.getChunk_opened hd tag
      have hans := (hchunks tag).1
      rw [hget, answers_notFound_iff, hhyd.getChunk_iff (hmanifest ▸ hm)] at hans
      exact hans e he
    · have hans := (hmetas rf).1
      rw [hinv.getMeta_opened hd, answers_notFound_iff,
        hhyd.getMeta_iff (hmanifest ▸ hinv.lookupRelforkMeta_opened hd rf)] at hans
      exact hans e he
  · rintro ⟨hd, hblank⟩ f hf
    have hhyd := hinv.hydrated_restart hd
    have hmanifest : (s.restart cfg tikmLost false).manifest = (s.opened cfg tikmLost).manifest := by
      rw [Db.restart_eq]
      rfl
    -- reads leave the database as it is
    have heq : f = s.opened cfg tikmLost := by
      refine hf.invariant (I := fun f => f = s.opened cfg tikmLost) rfl
        fun f₁ l f₂ hf₁ _ hstep => ?_
      rw [hf₁] at hstep
      cases l with
      | inl tag => rw [← Option.some.inj hstep, (hheaded.getChunk_opened hd tag).2]
      | inr rf => rw [← Option.some.inj hstep, hinv.getMeta_opened hd]
    subst heq
    refine ⟨fun tag => ?_, fun rf => ?_⟩
    · obtain ⟨hm, hget⟩ := hheaded.getChunk_opened hd tag
      rw [hget, answers_notFound_iff, hhyd.getChunk_iff (hmanifest ▸ hm)]
      exact ⟨fun e he => SegmentCheckpoint.containsChunk_of_isBlank (hblank e he) tag, rfl⟩
    · rw [hinv.getMeta_opened hd, answers_notFound_iff,
        hhyd.getMeta_iff (hmanifest ▸ hinv.lookupRelforkMeta_opened hd rf)]
      exact ⟨fun e he => SegmentCheckpoint.relforkMeta_of_isBlank (hblank e he) rf, rfl⟩

/-- A blank commit, and writes that are spilled and never committed. -/
def uncommittedDb : Db ℕ := freshDb.run exampleConfig
  [.commit ⟨⟨1, 100⟩, ⟨1, 90⟩, [], 0⟩, .putMeta Manifest.exampleTag.relFork ⟨1, false⟩,
    .patchChunk Manifest.exampleTag 0 [7], .spill, .patchChunk Manifest.exampleTag 1 [8]]

/-- The process is killed, and the listing fails in the start that follows: nothing is lost. -/
theorem harmless_uncommittedDb :
    ((uncommittedDb.opened exampleConfig true).hydrateFallible exampleConfig false
      fun _ => true).1 = .error .io ∧
    (storedRecords (uncommittedDb.storage.segments exampleConfig.dbId)).map (·.ckpt) = [⟨1, 100⟩] ∧
    uncommittedDb.draft.hasSpilled = true ∧
    Harmless exampleConfig
      ((uncommittedDb.opened exampleConfig true).hydrateFallible exampleConfig false fun _ => true).2
      ((uncommittedDb.opened exampleConfig true).hydrateFallible exampleConfig true fun _ => true).2 :=
  ⟨rfl, by decide +kernel, by decide +kernel,
    (harmless_iff isFresh_freshDb (by decide) (s := uncommittedDb) rfl true rfl).mpr
      ⟨by decide +kernel, by decide +kernel⟩⟩

/-- The database of the examples: a chunk is committed and folded into a base manifest. -/
def compactedDb : Db ℕ := freshDb.run exampleConfig
  [.patchChunk Manifest.exampleTag 0 [7], .commit ⟨⟨1, 100⟩, ⟨1, 90⟩, [], 0⟩,
    .compactThrough ⟨1, 100⟩ 0]

/-- **After a failed hydration a committed chunk is not found**, and the read has replaced the local
manifest file by an empty one. -/
theorem failed_hydration_hides_chunk :
    ((compactedDb.opened exampleConfig false).hydrateFallible exampleConfig false
      fun _ => true).1 = .error .io ∧
    ¬Harmless exampleConfig
      ((compactedDb.opened exampleConfig false).hydrateFallible exampleConfig false fun _ => true).2
      ((compactedDb.opened exampleConfig false).hydrateFallible exampleConfig true fun _ => true).2 := by
  have hfound : ((compactedDb.opened exampleConfig false).getChunk exampleConfig
        Manifest.exampleTag).1 = .error .notFound ∧
      (((compactedDb.opened exampleConfig false).hydrateFallible exampleConfig true
        fun _ => true).2.getChunk exampleConfig Manifest.exampleTag).1 ≠ .error .notFound := by
    decide +kernel
  refine ⟨rfl, fun h => ?_⟩
  have hans := ((h _ .refl).1 Manifest.exampleTag).1
  have hf : ((compactedDb.opened exampleConfig false).hydrateFallible exampleConfig false
      fun _ => true).2 = compactedDb.opened exampleConfig false := rfl
  rw [hf, hfound.1, answers_notFound_iff] at hans
  exact hfound.2 hans

end Tiko

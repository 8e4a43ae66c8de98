import Tiko.Store.Reads

/-!
# Writes, commits and restarts keep the invariant

Each operation of a database is matched by the operation of the flat store, and the invariant `Inv`
is kept, with the log and the draft that follow from the operation.

* `Inv.patchChunk`, `Inv.putMeta`, `Inv.spill`: writes go to the head prefix and to the draft;
* **`Inv.runCommitProtocol`**: a commit appends the draft to the log;
* **`Inv.restart`**: a restart without writes since the last commit rebuilds the shared memory.
-/

namespace Tiko

open Lib

variable {β : Type}

/-! ## The flat store -/

namespace Flat

/-- A write of blocks into a chunk, which is zero at first. -/
def patch [Zero β] (g : Flat β) (tag : ChunkTag) (blockOffset : ℕ) (data : List β) : Flat β :=
  { g with
    chunks := Function.update g.chunks tag
      (some (((g.chunks tag).getD .zero).splice blockOffset data))
    dirty := true }

/-- A write of metadata. -/
def putMeta (g : Flat β) (rf : RelFork) (m : RelForkMeta) : Flat β :=
  { g with metas := Function.update g.metas rf (some m), dirty := true }

/-- A commit. -/
def commit (g : Flat β) (ckpt : Checkpoint) : Flat β := { g with last := ckpt, dirty := false }

end Flat

/-! ## The window -/

namespace Window

variable {t : TimelineState} {H : List SegmentCheckpoint}

/-- A push puts a record in front of the window. -/
theorem pushCheckpoint (hw : Window t H) (e : SegmentCheckpoint) :
    Window (Db.pushCheckpoint t e) (H ++ [e]) := by
  obtain ⟨k, -, hmir⟩ := hw
  refine ⟨min (activeWindowSize - 1) k + 1, fun h0 => absurd h0 (Nat.succ_ne_zero _), ?_⟩
  rw [Db.pushCheckpoint, TimelineState.iterActive_pushActive, List.reverse_append,
    List.reverse_singleton, List.singleton_append, List.take_succ_cons, ← List.take_take]
  exact .cons (ActiveCheckpoint.mirrors_populate _ e) (List.forall₂_take _ hmir)

theorem foldl_pushCheckpoint (hw : Window t H) (l : List SegmentCheckpoint) :
    Window (l.foldl Db.pushCheckpoint t) (H ++ l) := by
  induction l using List.reverseRecOn with
  | nil => rwa [List.append_nil]
  | append_singleton l e ih =>
    rw [List.foldl_append, ← List.append_assoc]
    exact ih.pushCheckpoint e

/-- The window over the last records of a log is a window over the log. -/
theorem of_suffix {l : List SegmentCheckpoint} (hw : Window t l) (hl : l <:+ H)
    (hne : H ≠ [] → l ≠ []) : Window t H := by
  obtain ⟨k, hk, hmir⟩ := hw
  refine ⟨min k l.length, fun h0 => ?_, ?_⟩
  · by_contra hH
    rcases Nat.min_eq_zero_iff.mp h0 with h | h
    · exact hne hH (hk h)
    · exact hne hH (List.length_eq_zero_iff.mp h)
  · obtain ⟨pre, rfl⟩ := hl
    rw [List.reverse_append, List.take_append_of_le_length (by simp), ← List.length_reverse,
      ← List.take_take, List.take_length] 
    exact hmir

end Window

theorem headCkpt_foldl_pushCheckpoint (t : TimelineState) (l : List SegmentCheckpoint) :
    (l.foldl Db.pushCheckpoint t).headCkpt = (l.getLast?.map (·.ckpt)).getD t.headCkpt := by
  induction l using List.reverseRecOn with
  | nil => rfl
  | append_singleton l e _ =>
    rw [List.foldl_append, List.getLast?_concat]
    rfl

theorem baseCkpt_foldl_pushCheckpoint (t : TimelineState) (l : List SegmentCheckpoint) :
    (l.foldl Db.pushCheckpoint t).baseCkpt = t.baseCkpt := by
  induction l generalizing t with
  | nil => rfl
  | cons e l ih => exact ih (Db.pushCheckpoint t e)

/-! ## Appending a record -/

/-- The storage with other segments for a database. -/
def Storage.setSegments (s : Storage β) (dbId : UInt64)
    (segments : SortedMap SegmentId TimelineSegment) : Storage β :=
  { s with segments := Function.update s.segments dbId segments }

/-- The segments after the commit of a record: it goes to the end of its own segment. -/
def appendRecord (segments : SortedMap SegmentId TimelineSegment) (e : SegmentCheckpoint) :
    SortedMap SegmentId TimelineSegment :=
  let id := e.ckpt.toSegmentId
  segments.insert id (((segments.lookup id).getD (.new id)).push e)

section Append

variable {segments : SortedMap SegmentId TimelineSegment} {e : SegmentCheckpoint}

theorem wf_appendRecord (hw : SegmentsWf segments) : SegmentsWf (appendRecord segments e) := by
  intro p hp
  rcases (SortedMap.mem_insertList segments.sorted p).mp hp with rfl | ⟨-, hp⟩
  · cases hl : segments.lookup e.ckpt.toSegmentId with
    | none =>
      refine ⟨rfl, by simp [TimelineSegment.push], fun x hx => ?_⟩
      rw [List.mem_singleton.mp hx]
    | some seg =>
      obtain ⟨h1, -, h3⟩ := hw _ ((SortedMap.mem_entries_iff _ _ _).mpr hl)
      refine ⟨h1, by simp [TimelineSegment.push], fun x hx => ?_⟩
      rcases List.mem_append.mp hx with hx | hx
      · exact h3 x hx
      · rw [List.mem_singleton.mp hx]
  · exact hw p hp

/-- **A record whose segment is the last one goes to the end of the stored records.** -/
theorem storedRecords_appendRecord (h : ∀ p ∈ segments.entries, p.1 ≤ e.ckpt.toSegmentId) :
    storedRecords (appendRecord segments e) = storedRecords segments ++ [e] := by
  cases hl : segments.lookup e.ckpt.toSegmentId with
  | none =>
    have hlt : ∀ p ∈ segments.entries, p.1 < e.ckpt.toSegmentId := fun p hp =>
      lt_of_le_of_ne (h p hp) fun heq => by
        have := (SortedMap.mem_entries_iff segments p.1 p.2).mp hp
        rw [heq, hl] at this
        exact absurd this (by simp)
    rw [storedRecords, appendRecord, hl, SortedMap.entries_insert_of_gt _ _ hlt,
      List.flatMap_append, List.flatMap_singleton]
    rfl
  | some seg =>
    obtain ⟨l, hlast⟩ := SortedMap.exists_append_of_lookup h hl
    rw [storedRecords, appendRecord, hl, SortedMap.entries_insert_last _ hlast, storedRecords,
      hlast, List.flatMap_append, List.flatMap_append, List.flatMap_singleton,
      List.flatMap_singleton, List.append_assoc]
    rfl

/-- The layers after a commit: the record is new. -/
theorem Layers.append {cfg : StoreConfig} {bases : SortedMap Checkpoint Manifest}
    {base head : Checkpoint} {manifest : Manifest} {tikm : Option Manifest}
    {H old new : List SegmentCheckpoint}
    (h : Layers cfg segments bases base head manifest tikm H old new) (hlog : Log H head)
    (hlt : head < e.ckpt) :
    Layers cfg (appendRecord segments e) bases base e.ckpt manifest tikm (H ++ [e]) old
      (new ++ [e]) := by
  have hids := h.wf.ids_le fun x hx =>
    (hlog.bounds x (h.mem_of_stored hx)).2.2.trans hlt.le
  have hstored := storedRecords_appendRecord hids
  exact {
    split := by rw [h.split, List.append_assoc]
    wf := wf_appendRecord h.wf
    suffix := by
      rw [hstored]
      exact (List.suffix_append_inj_of_length_eq rfl).mpr ⟨h.suffix, rfl⟩ 
    stored_ne := fun _ => by simp [hstored]
    new_stored := fun x hx => by
      rw [hstored]
      rcases List.mem_append.mp hx with hx | hx
      · exact List.mem_append_left _ (h.new_stored x hx)
      · exact List.mem_append_right _ hx
    ids_ge := fun p hp => by
      rcases (SortedMap.mem_insertList segments.sorted p).mp hp with rfl | ⟨-, hp⟩
      · exact Checkpoint.toSegmentId_mono (h.base_le.trans hlt.le)
      · exact h.ids_ge p hp
    base_ge := h.base_ge
    base_le := h.base_le.trans hlt.le
    old_le := h.old_le
    base_lt := fun x hx => by
      rcases List.mem_append.mp hx with hx | hx
      · exact h.base_lt x hx
      · rw [List.mem_singleton.mp hx]
        exact h.base_le.trans_lt hlt
    manifest_rep := h.manifest_rep
    tikm_rep := h.tikm_rep
    newest_rep := h.newest_rep
    base_ok := h.base_ok
    keys := fun k hk => by
      obtain ⟨hle, hnew⟩ := h.keys k hk
      refine ⟨hle.trans hlt.le, fun x hx hb => ?_⟩
      rcases List.mem_append.mp hx with hx | hx
      · exact hnew x hx hb
      · rw [List.mem_singleton.mp hx]
        exact hle.trans_lt hlt }

/-- A commit without failures appends the record to its segment. -/
theorem Db.commitSegment_ok (cfg : StoreConfig) (s : Db β) (a : CommitArgs) (prevCkpt : Checkpoint)
    (F : DraftFrame) : s.commitSegment cfg .ok a prevCkpt F = .ok (a.summary prevCkpt F,
      { s with
        storage := s.storage.setSegments cfg.dbId
          (appendRecord (s.storage.segments cfg.dbId) (a.summary prevCkpt F)) }) := by
  have hck : (a.summary prevCkpt F).ckpt = a.ckpt := rfl
  rw [commitSegment]
  dsimp only
  rw [if_neg (by decide), if_neg (by decide), appendRecord, loadSegment, hck]
  cases (s.storage.segments cfg.dbId).lookup a.ckpt.toSegmentId <;> rfl

/-- What a commit without failures does with the drained frame. -/
theorem Db.runCommitProtocol_ok {cfg : StoreConfig} {s : Db β} {F : DraftFrame} {d : DraftBuffer}
    (hd : s.draft.drain cfg.codec .ok = (.ok F, d)) (a : CommitArgs) :
    s.runCommitProtocol cfg .ok a = (.ok (),
      { s with
        storage := (s.storage.setSegments cfg.dbId (appendRecord (s.storage.segments cfg.dbId)
          (a.summary s.timeline.headCkpt F))).putDbMeta cfg.dbId a.ckpt
        timeline := pushCheckpoint (s.timeline.setRedoCkpt a.redoCkpt)
          (a.summary s.timeline.headCkpt F)
        draft := d }) := by
  rw [runCommitProtocol]
  dsimp only
  rw [show CommitOutcome.ok.drain = .ok from rfl, hd]
  dsimp only
  rw [commitSegment_ok]
  rfl

end Append

/-! ## Starts -/

/-- The timeline state that a start builds from the stored records and the base manifest. -/
def hydrated (t : TimelineState) (records : List SegmentCheckpoint) (base : Checkpoint) :
    TimelineState :=
  let t := (records.reverse.take activeWindowSize).reverse.foldl Db.pushCheckpoint t
  { (if base ≠ default then t.setBaseCkpt base else t) with hydrated := true }

theorem headCkpt_hydrated (t : TimelineState) (l : List SegmentCheckpoint) (c : Checkpoint) :
    (hydrated t l c).headCkpt = (l.getLast?.map (·.ckpt)).getD t.headCkpt := by
  have h : ((l.reverse.take activeWindowSize).reverse).getLast? = l.getLast? := by
    rw [List.getLast?_reverse, List.head?_take, ← List.getLast?_reverse, List.reverse_reverse,
      if_neg (by decide)]
  have hfold := headCkpt_foldl_pushCheckpoint t (l.reverse.take activeWindowSize).reverse
  rw [h] at hfold
  rw [← hfold, hydrated]
  split_ifs <;> rfl

theorem baseCkpt_hydrated (t : TimelineState) (l : List SegmentCheckpoint) (c : Checkpoint) :
    (hydrated t.init l c).baseCkpt = c := by
  by_cases hc : c = default
  · rw [hydrated, if_neg (not_not.mpr hc)]
    exact (baseCkpt_foldl_pushCheckpoint _ _).trans hc.symm
  · rw [hydrated, if_pos hc]
    rfl

theorem iterActive_hydrated (t : TimelineState) (l : List SegmentCheckpoint) (c : Checkpoint) :
    (hydrated t l c).iterActive =
      ((l.reverse.take activeWindowSize).reverse.foldl Db.pushCheckpoint t).iterActive := by
  rw [hydrated]
  split_ifs <;> rfl

/-- The window of a start mirrors the newest stored records. -/
theorem window_hydrated (t : TimelineState) (l : List SegmentCheckpoint) (c : Checkpoint) :
    Window (hydrated t.init l c) l := by
  have hnil : Window t.init [] := ⟨0, fun _ => rfl, .nil⟩
  have hw := (hnil.foldl_pushCheckpoint (l.reverse.take activeWindowSize).reverse).of_suffix
    (H := l) ?_ fun hne => ?_
  · rw [Window, iterActive_hydrated]
    exact hw
  · rw [List.nil_append, ← List.reverse_prefix, List.reverse_reverse]
    exact List.take_prefix _ _
  · simpa [activeWindowSize] using hne

/-- What a restart does. -/
theorem Db.restart_eq (cfg : StoreConfig) (s : Db β) (tikmLost inRecovery : Bool) :
    let m := (if tikmLost then none else s.tikm).getD (newestBase (s.storage.bases cfg.dbId))
    let records := if inRecovery then [] else storedRecords (s.storage.segments cfg.dbId)
    s.restart cfg tikmLost inRecovery =
      { s with
        timeline := hydrated s.timeline.init records m.checkpoint
        draft := s.draft.init
        manifest := m
        tikm := some m } := by
  intro m records
  rw [restart]
  dsimp only
  rw [hydrateTimelineState, if_neg (by simp [TimelineState.init])]
  cases inRecovery with
  | true => rfl
  | false =>
    rw [if_neg Bool.false_ne_true, loadCheckpoints_all]
    rfl

section Layers

variable {cfg : StoreConfig} {segments : SortedMap SegmentId TimelineSegment}
  {bases : SortedMap Checkpoint Manifest} {base head : Checkpoint} {manifest : Manifest}
  {tikm : Option Manifest} {H old new : List SegmentCheckpoint}

/-- The newest stored record is at the head of the log. -/
theorem Layers.headCkpt_hydrated
    (h : Layers cfg segments bases base head manifest tikm H old new) (hlog : Log H head)
    (t : TimelineState) (c : Checkpoint) :
    (hydrated t.init (storedRecords segments) c).headCkpt = head := by
  rw [Tiko.headCkpt_hydrated]
  by_cases hH : H = []
  · have hnil : storedRecords segments = [] := by
      rw [← List.suffix_nil, ← hH]
      exact h.suffix
    rw [hnil, hlog.head_of_nil hH]
    rfl
  · have hne := h.stored_ne hH
    rw [List.getLast?_eq_some_getLast hne, Option.map_some, Option.getD_some,
      h.suffix.getLast hne, hlog.getLast_ckpt hH]

/-- After a restart the base is that of the manifest that was opened, which may lie below the old
one. -/
theorem Layers.reopen (h : Layers cfg segments bases base head manifest tikm H old new)
    (hlog : Log H head) {m : Manifest} (hm : Represents cfg m old) :
    Layers cfg segments bases m.checkpoint head m (some m) H old new :=
  have hle := h.header_le_base hm
  { h with
    ids_ge := fun p hp => (Checkpoint.toSegmentId_mono hle).trans (h.ids_ge p hp)
    base_ge := by
      rcases hm.header_mem with hd | ⟨e, he, -, hc⟩
      · exact hd.ge
      · rw [← hc]
        exact (hlog.default_lt (h.split ▸ List.mem_append_left _ he)).le
    base_le := hle.trans h.base_le
    old_le := hm.header_le
    base_lt := fun e he => hle.trans_lt (h.base_lt e he)
    manifest_rep := hm
    tikm_rep := fun m' hm' => Option.some.inj hm' ▸ hm
    base_ok := .inl rfl }

end Layers

/-! ## Chunk objects -/

section Objects

variable {cfg : StoreConfig} {storage : Storage β} {head : Checkpoint} {H : List SegmentCheckpoint}
  {F : DraftFrame}

/-- The records of the log lie under other prefixes than the head. -/
theorem objectOf_putChunk (hlog : Log H head) (tag tag' : ChunkTag) (c : Chunk β)
    {e : SegmentCheckpoint} (he : e ∈ H) :
    objectOf cfg (storage.putChunk cfg.dbId head tag c) tag' e = objectOf cfg storage tag' e := by
  rw [objectOf, objectOf, Storage.chunks_putChunk, if_neg]
  exact fun hc => absurd hc.2.1 (hlog.prevCkpt_lt_head he).ne

theorem Objects.putChunk (h : Objects cfg storage head H F) (hlog : Log H head) (tag : ChunkTag)
    (c : Chunk β) : Objects cfg (storage.putChunk cfg.dbId head tag c) head H
      (DraftBuffer.addChunk F tag) where
  sealed e he tag' := (congrArg _ (objectOf_putChunk hlog tag tag' c he)).trans (h.sealed e he tag')
  live tag' := by
    have hadd : (DraftBuffer.addChunk F tag).containsChunk tag' =
        (decide (tag' = tag) || F.containsChunk tag') := SortedSet.contains_add _ _ _
    rw [Storage.chunks_putChunk, hadd, ← h.live tag']
    by_cases ht : tag' = tag <;> simp [ht]
  above c' hlt tag' := by
    rw [Storage.chunks_putChunk, if_neg fun hc => absurd hc.2.1 hlt.ne']
    exact h.above c' hlt tag'

theorem Objects.commit (h : Objects cfg storage head H F) {a : Db.CommitArgs}
    (hlt : head < a.ckpt) : Objects cfg storage a.ckpt (H ++ [a.summary head F]) .empty where
  sealed e he tag := by
    rcases List.mem_append.mp he with he | he
    · exact h.sealed e he tag
    · rw [List.mem_singleton.mp he]
      exact h.live tag
  live tag := by
    rw [show DraftFrame.empty.containsChunk tag = false from rfl]
    exact congrArg Option.isSome (h.above a.ckpt hlt tag)
  above c hc tag := h.above c (hlt.trans hc) tag

end Objects

namespace Inv

variable {cfg : StoreConfig} {s : Db β} {g : Flat β} {H : List SegmentCheckpoint}
  {F : DraftFrame}

/-! ## Writes -/

/-- A PUT under the head prefix, recorded in the draft, is a write of the flat store. -/
theorem putChunkAtHead (h : Inv cfg s g H F) (tag : ChunkTag) {c c' : Chunk β}
    (hc : LsnChained H → c = c') :
    Inv cfg (s.putChunkAtHead cfg .ok tag c)
      { g with chunks := Function.update g.chunks tag (some c'), dirty := true } H
      (DraftBuffer.addChunk F tag) := by
  obtain ⟨d, hd, hholds⟩ := DraftBuffer.holds_recordChunk h.draft tag
  have hs : s.putChunkAtHead cfg .ok tag c =
      { s with
        storage := s.storage.putChunk cfg.dbId s.timeline.headCkpt tag c
        draft := d } := by
    rw [Db.putChunkAtHead, Db.recordChunkEviction, hd]
  rw [hs]
  refine ⟨h.log, h.last, hholds, fun hd => absurd hd (by simp), h.window, h.layers,
    h.objects.putChunk h.log tag c, h.metas, fun hl tag' => ?_⟩
  have hlog : newest (objectOf cfg (s.storage.putChunk cfg.dbId s.timeline.headCkpt tag c) tag')
      H = newest (objectOf cfg s.storage tag') H :=
    newest_congr fun e he => objectOf_putChunk h.log tag tag' c he
  rw [hlog, Storage.chunks_putChunk]
  dsimp only
  by_cases ht : tag' = tag
  · subst ht
    rw [Function.update_self, if_pos ⟨rfl, rfl, rfl⟩, hc hl]
    rfl
  · rw [Function.update_of_ne ht, if_neg fun hc => ht hc.2.2]
    exact h.chunks hl tag'

/-- **A patch is a patch of the flat store.** -/
theorem patchChunk [Zero β] (h : Inv cfg s g H F) (tag : ChunkTag) (blockOffset : ℕ)
    (data : List β) : ∃ s', s.patchChunk cfg .ok tag blockOffset data = (.ok (), s') ∧
      Inv cfg s' (g.patch tag blockOffset data) H (DraftBuffer.addChunk F tag) := by
  rw [Db.patchChunk]
  split_ifs with hfull
  · refine ⟨_, rfl, h.putChunkAtHead tag fun _ => ?_⟩
    rw [Chunk.splice_of_isFull hfull]
  · -- a merge over what a read returns, or over zeros when it finds nothing
    obtain ⟨r, m, tikm, hr, hinv, herr, hval⟩ := h.getChunk_of_inv tag
    rw [hr]
    cases r with
    | ok c =>
      refine ⟨_, rfl, hinv.putChunkAtHead tag fun hl => ?_⟩
      cases hg : g.chunks tag with
      | none => rw [hg] at hval; exact absurd (hval hl) (by simp [found])
      | some c' =>
        rw [hg] at hval
        rw [Except.ok.inj (hval hl)]
        rfl
    | error e =>
      obtain rfl := herr e rfl
      refine ⟨_, rfl, hinv.putChunkAtHead tag fun hl => ?_⟩
      cases hg : g.chunks tag with
      | none => rfl
      | some c' => rw [hg] at hval; exact absurd (hval hl) (by simp [found])

/-- **A write of metadata is a write of the flat store.** -/
theorem putMeta (h : Inv cfg s g H F) (rf : RelFork) (m : RelForkMeta) :
    ∃ s', s.putMeta cfg .ok rf m = (.ok (), s') ∧
      Inv cfg s' (g.putMeta rf m) H (DraftBuffer.addRelfork F rf m) := by
  obtain ⟨d, hd, hholds⟩ := DraftBuffer.holds_recordRelfork h.draft rf m
  refine ⟨{ s with draft := d }, ?_, h.log, h.last, hholds,
    fun hd => absurd hd (by simp [Flat.putMeta]), h.window, h.layers,
    ⟨h.objects.sealed, h.objects.live, h.objects.above⟩, fun rf' => ?_, h.chunks⟩
  · rw [Db.putMeta, Db.recordRelforkEviction, hd]
  · change Function.update g.metas rf (some m) rf' = ((F.relforks.insert rf m).lookup rf').or _
    rw [SortedMap.lookup_insert]
    by_cases hrf : rf' = rf
    · rw [hrf, Function.update_self, if_pos rfl]
      rfl
    · rw [Function.update_of_ne hrf, if_neg hrf]
      exact h.metas rf'

/-- **A spill changes nothing.** -/
theorem spill (h : Inv cfg s g H F) :
    ∃ d, s.draft.spillToFile cfg.codec .ok = (.ok (), d) ∧ Inv cfg { s with draft := d } g H F := by
  obtain ⟨d, hd, hholds, -⟩ := DraftBuffer.holds_spillToFile h.draft
  refine ⟨d, hd, h.log, h.last, hholds, fun hg => ?_, h.window, h.layers, h.objects, h.metas,
    h.chunks⟩
  have hclean := (h.clean hg).spillToFile cfg.codec
  rw [hd] at hclean
  exact hclean

/-! ## Commits -/

/-- **A commit appends the draft to the log.** -/
theorem runCommitProtocol (h : Inv cfg s g H F) {a : Db.CommitArgs}
    (hlt : s.timeline.headCkpt < a.ckpt) : ∃ s', s.runCommitProtocol cfg .ok a = (.ok (), s') ∧
      Inv cfg s' (g.commit a.ckpt) (H ++ [a.summary s.timeline.headCkpt F]) .empty := by
  obtain ⟨d, hd, hclean⟩ := DraftBuffer.drain_of_holds h.draft
  obtain ⟨old, new, hl⟩ := h.layers
  refine ⟨_, Db.runCommitProtocol_ok hd a, ?_⟩
  refine ⟨.commit h.log rfl hlt, rfl, hclean.holds, fun _ => hclean,
    Window.pushCheckpoint (t := s.timeline.setRedoCkpt a.redoCkpt) h.window _,
    ⟨old, new ++ [a.summary s.timeline.headCkpt F], ?_⟩, ?_, fun rf => ?_, fun hc tag => ?_⟩
  · have happ := hl.append (e := a.summary s.timeline.headCkpt F) h.log hlt
    have hseg : ((s.storage.setSegments cfg.dbId (appendRecord (s.storage.segments cfg.dbId)
        (a.summary s.timeline.headCkpt F))).putDbMeta cfg.dbId a.ckpt).segments cfg.dbId =
        appendRecord (s.storage.segments cfg.dbId) (a.summary s.timeline.headCkpt F) :=
      Function.update_self ..
    rw [Db.LayersOf, hseg]
    exact happ
  · have hobj := h.objects.commit hlt
    exact ⟨hobj.sealed, hobj.live, hobj.above⟩
  · rw [newest_append_singleton]
    exact h.metas rf
  · rw [newest_append_singleton]
    exact (h.chunks hc.left tag).trans
      (congrArg (fun o : Option (Chunk β) => o.or _) (h.objects.above a.ckpt hlt tag)).symm

/-! ## Restarts -/

/-- **A restart right after a commit rebuilds the shared memory.** -/
theorem restart (h : Inv cfg s g H F) (hg : g.dirty = false) (tikmLost : Bool) :
    Inv cfg (s.restart cfg tikmLost false) g H F := by
  obtain ⟨old, new, hl⟩ := h.layers
  have hclean := h.clean hg
  have hinit : s.draft.init.Clean := ⟨rfl, rfl, rfl, hclean.file⟩
  obtain rfl := hclean.eq_empty h.draft
  have hrep : Represents cfg ((if tikmLost then none else s.tikm).getD
      (newestBase (s.storage.bases cfg.dbId))) old := by
    cases ht : (if tikmLost then none else s.tikm) with
    | none => exact hl.newest_rep
    | some m =>
      refine hl.tikm_rep m ?_
      split_ifs at ht
      exact ht
  have hhead := hl.headCkpt_hydrated h.log s.timeline
    ((if tikmLost then none else s.tikm).getD (newestBase (s.storage.bases cfg.dbId))).checkpoint
  rw [Db.restart_eq]
  simp only [Bool.false_eq_true, if_false]
  refine ⟨?_, ?_, hinit.holds, fun _ => hinit,
    (window_hydrated _ _ _).of_suffix hl.suffix hl.stored_ne, ⟨old, new, ?_⟩, ?_, h.metas, ?_⟩
  · dsimp only
    rw [hhead]
    exact h.log
  · dsimp only
    rw [hhead]
    exact h.last
  · dsimp only [Db.LayersOf]
    rw [hhead, baseCkpt_hydrated]
    exact hl.reopen h.log hrep
  · dsimp only
    rw [hhead]
    exact h.objects
  · dsimp only
    rw [hhead]
    exact h.chunks

end Inv

end Tiko

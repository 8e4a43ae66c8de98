import Tiko.Store.Writes

/-!
# Compactions keep the invariant

A compaction folds stored records into a new base manifest, moves the base and deletes the segments
below it. Nothing of the log is lost:

* `filter_storedRecords`: the records it folds are the next ones of the log, after blank ones that
  may be folded again;
* **`Layers.fold`**: the layers with the new base, for any base from the manifest's own checkpoint
  up to the records that remain;
* **`Inv.runCompaction`**, **`Inv.runCompactionThrough`**, with what a fold does to the manifests
  (`Db.Folds`).
-/

namespace Tiko

open Lib

variable {β : Type}

/-! ## Layers after a fold -/

/-- The newest base after a PUT: the new one, or one with a larger key. -/
theorem newestBase_insert (bases : SortedMap Checkpoint Manifest) (c : Checkpoint) (m : Manifest) :
    newestBase (bases.insert c m) = m ∨
      newestBase (bases.insert c m) = newestBase bases ∧ ∃ k ∈ bases.keys, c < k := by
  have hentries : (bases.insert c m).entries = SortedMap.insertList c m bases.entries := rfl
  rw [newestBase, newestBase, hentries]
  rcases SortedMap.getLast?_insertList c m bases.sorted with h | ⟨h, a, ha, hca⟩
  · exact .inl (by rw [h]; rfl)
  · exact .inr ⟨by rw [h], a.1, List.mem_map_of_mem ha, hca⟩

namespace Layers

variable {cfg : StoreConfig} {segments : SortedMap SegmentId TimelineSegment}
  {bases : SortedMap Checkpoint Manifest} {base head : Checkpoint} {manifest : Manifest}
  {tikm : Option Manifest} {H old new1 new2 : List SegmentCheckpoint}

/-- The segments from one on hold the last of the stored records. -/
theorem storedRecords_filter_suffix (segments : SortedMap SegmentId TimelineSegment)
    (id : SegmentId) :
    storedRecords (segments.filter fun k _ => decide (id ≤ k)) <:+ storedRecords segments := by
  obtain ⟨pre, hpre⟩ := SortedMap.filter_le_suffix segments.sorted id
  refine ⟨pre.flatMap (·.2.checkpoints), ?_⟩
  rw [storedRecords, storedRecords, ← List.flatMap_append]
  exact congrArg _ hpre

/-- **The layers after a fold of `new1`**, with the manifest published under `c`. -/
theorem fold (h : Layers cfg segments bases base head manifest tikm H old (new1 ++ new2))
    (hlog : Log H head) {m : Manifest} (hm : Represents cfg m (old ++ new1)) {c : Checkpoint}
    (hmc : m.checkpoint ≤ c) (hc0 : default ≤ c) (hc : c ≤ head) (hlt : ∀ e ∈ new2, c < e.ckpt)
    (hne : m.checkpoint = c ∨ c ≠ default) :
    Layers cfg (segments.filter fun id _ => decide (c.toSegmentId ≤ id)) (bases.insert c m) c head
      m (some m) H (old ++ new1) new2 where
  split := by rw [h.split, List.append_assoc]
  wf p hp := h.wf p (List.mem_filter.mp hp).1
  suffix := (storedRecords_filter_suffix _ _).trans h.suffix
  stored_ne hH := by
    -- the segment of the last record stays
    have hne := h.stored_ne hH
    obtain ⟨p, hp, hmem⟩ := mem_storedRecords.mp (List.getLast_mem hne)
    have hlast : ((storedRecords segments).getLast hne).ckpt = head := by
      rw [h.suffix.getLast hne, hlog.getLast_ckpt hH]
    have hid : c.toSegmentId ≤ p.1 := by
      rw [← (h.wf p hp).2.2 _ hmem, hlast]
      exact Checkpoint.toSegmentId_mono hc
    exact List.ne_nil_of_mem (mem_storedRecords.mpr
      ⟨p, List.mem_filter.mpr ⟨hp, decide_eq_true hid⟩, hmem⟩)
  new_stored e he := by
    obtain ⟨p, hp, hmem⟩ := mem_storedRecords.mp (h.new_stored e (List.mem_append_right _ he))
    have hid : c.toSegmentId ≤ p.1 := by
      rw [← (h.wf p hp).2.2 _ hmem]
      exact Checkpoint.toSegmentId_mono (hlt e he).le
    exact mem_storedRecords.mpr ⟨p, List.mem_filter.mpr ⟨hp, decide_eq_true hid⟩, hmem⟩
  ids_ge p hp := of_decide_eq_true (List.mem_filter.mp hp).2
  base_ge := hc0
  base_le := hc
  old_le e he hb := (hm.header_le e he hb).trans hmc
  base_lt := hlt
  manifest_rep := hm
  tikm_rep m' hm' := Option.some.inj hm' ▸ hm
  newest_rep := by
    rcases newestBase_insert bases c m with heq | ⟨heq, k, hk, hck⟩
    · rw [heq]
      exact hm
    · -- a base with a larger key lies below all new records, so that `new1` is blank
      rw [heq]
      refine h.newest_rep.append_blank fun e he => ?_
      by_contra hb
      have hb : e.isBlank = false := by simpa using hb
      have h1 := (h.keys k hk).2 e (List.mem_append_left _ he) hb
      have h2 := (hm.header_le e (List.mem_append_right _ he) hb).trans hmc
      exact absurd (h1.trans_le h2) (not_lt.mpr hck.le)
  base_ok := hne.imp id fun hd => ⟨hd, m, SortedMap.lookup_insert_self _ _ _, hm⟩
  keys k hk := by
    rcases eq_or_ne k c with rfl | hkc
    · exact ⟨hc, fun e he _ => hlt e he⟩
    · rw [SortedMap.mem_keys_iff, SortedMap.lookup_insert_of_ne _ _ hkc,
        ← SortedMap.mem_keys_iff] at hk
      obtain ⟨h1, h2⟩ := h.keys k hk
      exact ⟨h1, fun e he => h2 e (List.mem_append_right _ he)⟩

/-- Where the checkpoint of a manifest lies that represents the old records and `new1`. -/
theorem header_bounds (h : Layers cfg segments bases base head manifest tikm H old (new1 ++ new2))
    (hlog : Log H head) {m : Manifest} (hm : Represents cfg m (old ++ new1)) :
    default ≤ m.checkpoint ∧ m.checkpoint ≤ head ∧
      (m.checkpoint ≤ base ∨ ∃ e ∈ new1, e.ckpt = m.checkpoint) := by
  have hsub : ∀ e ∈ old ++ new1, e ∈ H := by
    intro e he
    rw [h.split, ← List.append_assoc]
    exact List.mem_append_left _ he
  rcases hm.header_mem with hd | ⟨e, he, hb, hc⟩
  · rw [hd]
    exact ⟨le_rfl, hlog.default_le, .inl h.base_ge⟩
  · rw [← hc]
    refine ⟨(hlog.default_lt (hsub e he)).le, (hlog.bounds e (hsub e he)).2.2, ?_⟩
    rcases List.mem_append.mp he with he | he
    · exact .inl (h.old_le e he hb)
    · exact .inr ⟨e, he, rfl⟩

end Layers

/-! ## The folded records -/

/-- The selected records of the log are the blank ones that are below the base and selected again,
then the next ones. -/
theorem filter_storedRecords {H old new stored : List SegmentCheckpoint} {head base : Checkpoint}
    (hlog : Log H head) (hsplit : H = old ++ new) (hsuf : stored <:+ H)
    (hnew : ∀ e ∈ new, e ∈ stored ∧ base < e.ckpt)
    (hold : ∀ e ∈ old, e.isBlank = false → e.ckpt ≤ base)
    {P : Checkpoint → Prop} [DecidablePred P] (hdown : ∀ c d, c ≤ d → P d → P c) :
    ∃ blanks new1 new2, new = new1 ++ new2 ∧
      stored.filter (fun e => decide (base < e.ckpt ∧ P e.ckpt)) = blanks ++ new1 ∧
      (∀ e ∈ blanks, e.isBlank = true) ∧ (∀ e ∈ new1, P e.ckpt) ∧ ∀ e ∈ new2, ¬P e.ckpt := by
  classical
  obtain ⟨pre, hpre⟩ := hsuf
  have hasc := hlog.ascending_ckpt
  -- the records of the log that are stored and selected
  let sel : SegmentCheckpoint → Bool := fun e =>
    decide (e ∈ stored) && decide (base < e.ckpt ∧ P e.ckpt)
  have hstored : stored.filter (fun e => decide (base < e.ckpt ∧ P e.ckpt)) = H.filter sel := by
    have hcross := (List.pairwise_append.mp (hpre ▸ hasc)).2.2
    have hnil : pre.filter sel = [] := by
      refine List.filter_eq_nil_iff.mpr fun e he hs => ?_
      have hmem : e ∈ stored := by simpa using (Bool.and_eq_true_iff.mp hs).1
      exact absurd (hcross e he e hmem) (lt_irrefl _)
    rw [← hpre, List.filter_append, hnil, List.nil_append]
    refine List.filter_congr fun e he => ?_
    simp [sel, he]
  have hnewsel : new.filter sel = new.filter fun e => decide (P e.ckpt) := by
    refine List.filter_congr fun e he => ?_
    simp [sel, hnew e he]
  have hascNew : Ascending SegmentCheckpoint.ckpt new := by
    rw [hsplit] at hasc
    exact (List.pairwise_append.mp hasc).2.1
  refine ⟨old.filter sel, new.filter (fun e => decide (P e.ckpt)),
    new.filter (fun e => !decide (P e.ckpt)), ?_, ?_, fun e he => ?_, fun e he => ?_,
    fun e he => ?_⟩
  · refine (hascNew.filter_append_filter_not fun a b hab hb => ?_).symm
    exact decide_eq_true (hdown _ _ hab (of_decide_eq_true hb))
  · rw [hstored, hsplit, List.filter_append, hnewsel]
  · obtain ⟨he, hs⟩ := List.mem_filter.mp he
    by_contra hb
    have hlt := (of_decide_eq_true (Bool.and_eq_true_iff.mp hs).2).1
    exact absurd (hold e he (by simpa using hb)) (not_le.mpr hlt)
  · exact of_decide_eq_true (List.mem_filter.mp he).2
  · simpa using (List.mem_filter.mp he).2

/-! ## Compactions -/

namespace Db

variable {cfg : StoreConfig} {s : Db β} {H old new : List SegmentCheckpoint}

/-- The segments that a compaction deletes are all those below its base. -/
theorem deleteSegments_eq (h : s.LayersOf cfg H old new) {high c : Checkpoint} (hc : c ≤ high) :
    let dead := (s.listSegmentsInRange cfg s.timeline.baseCkpt high).takeWhile
      fun id => id < c.toSegmentId
    ((s.storage.segments cfg.dbId).filter fun id _ => !dead.contains id) =
      (s.storage.segments cfg.dbId).filter fun id _ => decide (c.toSegmentId ≤ id) := by
  intro dead
  have hasc : Ascending (fun id : SegmentId => id)
      (s.listSegmentsInRange cfg s.timeline.baseCkpt high) :=
    (SortedMap.sorted_keys _).sublist List.filter_sublist
  have hdead : dead = (s.listSegmentsInRange cfg s.timeline.baseCkpt high).filter
      fun id => id < c.toSegmentId :=
    hasc.takeWhile_eq_filter fun a b hab hb =>
      decide_eq_true (lt_of_le_of_lt hab (of_decide_eq_true hb))
  apply SortedMap.ext
  refine List.filter_congr fun p hp => ?_
  -- a segment below the base is listed: it lies between the old base and the upper bound
  have hlisted : p.1 < c.toSegmentId → p.1 ∈ s.listSegmentsInRange cfg s.timeline.baseCkpt high := by
    intro hlt
    refine List.mem_filter.mpr ⟨List.mem_map_of_mem hp, ?_⟩
    obtain ⟨-, hne, hid⟩ := h.wf p hp
    obtain ⟨x, hx⟩ := List.exists_mem_of_ne_nil _ hne
    have hge := h.ids_ge p hp
    rw [← hid x hx] at hlt hge ⊢
    exact Checkpoint.overlapsRange_of_le hge (hlt.le.trans (Checkpoint.toSegmentId_mono hc))
  have hmem : p.1 ∈ dead ↔ p.1 < c.toSegmentId := by
    rw [hdead, List.mem_filter, decide_eq_true_eq]
    exact ⟨fun hm => hm.2, fun hlt => ⟨hlisted hlt, hlt⟩⟩
  by_cases hlt : p.1 < c.toSegmentId
  · simp [hmem.mpr hlt, not_le.mpr hlt]
  · simp [mt hmem.mp hlt, not_lt.mp hlt]

end Db

/-- The records `l` above `base` take the log to `c`: the records up to `c` are those up to `base` and
those of `l`, as far as they are not blank. -/
structure Extends (H l : List SegmentCheckpoint) (base c : Checkpoint) : Prop where
  ascending : Ascending SegmentCheckpoint.ckpt l
  mem : ∀ e ∈ l, e ∈ H ∧ base < e.ckpt
  upTo_iff : ∀ e ∈ H, e.isBlank = false → (e.ckpt ≤ c ↔ e.ckpt ≤ base ∨ e ∈ l)

/-- A compaction from `s` to `s'` that folds the records `l` of the log and publishes the manifest under
the new base. -/
structure Db.Folds (cfg : StoreConfig) (s s' : Db β) (H l : List SegmentCheckpoint) (now : ℤ) :
    Prop where
  manifest : ∃ m t, s.baseManifest cfg = .ok (m, t) ∧
    s'.manifest = m.applySegments cfg.sort l cfg.dbId now
  tikm : s'.tikm = some s'.manifest
  bases : s'.storage.bases cfg.dbId =
    (s.storage.bases cfg.dbId).insert s'.timeline.baseCkpt s'.manifest
  range : Extends H l s.timeline.baseCkpt s'.timeline.baseCkpt

namespace Inv

variable {cfg : StoreConfig} {s : Db β} {g : Flat β} {H : List SegmentCheckpoint}
  {F : DraftFrame}

/-- **A compaction of the records below a bound keeps the invariant**, whether the manifest is
published under its own checkpoint or under that of the last record. -/
theorem compactRange (h : Inv cfg s g H F) {high : Checkpoint} {P : Checkpoint → Prop}
    [DecidablePred P] (hdown : ∀ c d, c ≤ d → P d → P c) (hbase : P s.timeline.baseCkpt)
    (hhigh : ∀ c, P c → c ≤ high)
    {newBase : List SegmentCheckpoint → Manifest → Checkpoint}
    (hnb : ∀ l m, newBase l m = m.checkpoint ∨
      newBase l m = (l.getLast?.map (·.ckpt)).getD default) (now : ℤ) :
    ∃ r s', s.compactRange cfg high
        (fun sc => decide (s.timeline.baseCkpt < sc.ckpt ∧ P sc.ckpt)) newBase now = (.ok r, s') ∧
      Inv cfg s' g H F ∧
      ((s' = s ∧ ∀ e ∈ storedRecords (s.storage.segments cfg.dbId), s.timeline.baseCkpt < e.ckpt →
        ¬P e.ckpt) ∨
      ∃ l, s.Folds cfg s' H l now ∧ ∀ e ∈ H, e.isBlank = false → s.timeline.baseCkpt < e.ckpt →
        P e.ckpt → e ∈ l) := by
  obtain ⟨old, new, hl⟩ := h.layers
  obtain ⟨m, tikm, hbm, hrep, hl'⟩ := Db.baseManifest_of_layers hl
  obtain ⟨scs, hload, hscs⟩ := Db.loadCheckpoints_inRange hl.wf
    s.timeline.baseCkpt high
    (fun sc => decide (s.timeline.baseCkpt < sc.ckpt ∧ P sc.ckpt)) fun e he =>
      ⟨(of_decide_eq_true he).1.le, hhigh _ (of_decide_eq_true he).2⟩
  obtain ⟨blanks, new1, new2, hnew, hsel, hblank, hnew1, hnew2⟩ := filter_storedRecords h.log
    hl.split hl.suffix (fun e he => ⟨hl.new_stored e he, hl.base_lt e he⟩) hl.old_le hdown
  have hstored : Ascending SegmentCheckpoint.ckpt (storedRecords (s.storage.segments cfg.dbId)) :=
    h.log.ascending_ckpt.sublist hl.suffix.sublist
  have hasc : Ascending SegmentCheckpoint.ckpt (blanks ++ new1) :=
    hsel ▸ hstored.sublist List.filter_sublist
  have happly : (scs.filter fun sc => decide (s.timeline.baseCkpt < sc.ckpt ∧ P sc.ckpt)).insertionSort
      Db.ckptLe = blanks ++ new1 := by
    rw [hscs, hsel]
    exact List.Pairwise.insertionSort_eq (hasc.imp fun hab => hab.le)
  rw [Db.compactRange]
  dsimp only
  rw [hload]
  dsimp only
  rw [happly]
  split_ifs with hnil
  · refine ⟨_, s, rfl, h, .inl ⟨rfl, fun e he hlt hP => ?_⟩⟩
    have hmem : e ∈ blanks ++ new1 := hsel ▸ List.mem_filter.mpr ⟨he, decide_eq_true ⟨hlt, hP⟩⟩
    exact absurd hmem (hnil ▸ List.not_mem_nil)
  · rw [hbm]
    dsimp only
    have hascOld : Ascending SegmentCheckpoint.ckpt (old ++ new1) := by
      have hH := h.log.ascending_ckpt
      rw [hl.split, hnew, ← List.append_assoc] at hH
      exact (List.pairwise_append.mp hH).1
    have hm := represents_applySegments hrep hblank hascOld now
    subst hnew
    obtain ⟨hd0, hdh, hdb⟩ := hl.header_bounds h.log hm
    -- the last folded record
    have hlast : ∀ e ∈ blanks ++ new1, (s.timeline.baseCkpt < e.ckpt ∧ P e.ckpt) ∧ e ∈ H := by
      intro e he
      rw [← hsel] at he
      obtain ⟨he, hs⟩ := List.mem_filter.mp he
      exact ⟨of_decide_eq_true hs, hl.mem_of_stored he⟩
    generalize hma : m.applySegments cfg.sort (blanks ++ new1) cfg.dbId now = applied at *
    generalize hc : newBase (blanks ++ new1) applied = c
    have hfacts : applied.checkpoint ≤ c ∧ default ≤ c ∧ c ≤ s.timeline.headCkpt ∧ P c ∧
        (applied.checkpoint = c ∨ c ≠ default) := by
      rcases hnb (blanks ++ new1) applied with heq | heq
      · -- published under its own checkpoint
        rw [← hc, heq]
        refine ⟨le_rfl, hd0, hdh, ?_, .inl rfl⟩
        rcases hdb with hle | ⟨e, he, hce⟩
        · exact hdown _ _ hle hbase
        · exact hce ▸ hnew1 e he
      · -- published under the last folded record
        have hmem := List.getLast_mem hnil
        obtain ⟨⟨hlt, hP⟩, hH⟩ := hlast _ hmem
        rw [List.getLast?_eq_some_getLast hnil] at heq
        have hce : c = ((blanks ++ new1).getLast hnil).ckpt := hc ▸ heq
        rw [hce]
        have hdlt := h.log.default_lt hH
        refine ⟨?_, hdlt.le, (h.log.bounds _ hH).2.2, hP, .inr hdlt.ne'⟩
        rcases hdb with hle | ⟨e, he, hce⟩
        · exact hle.trans hlt.le
        · rw [← hce]
          exact hasc.le_getLast (List.mem_append_right _ he) hnil
    obtain ⟨hmc, hc0, hch, hPc, hcne⟩ := hfacts
    have habove : ∀ e ∈ new2, c < e.ckpt := fun e he => by
      by_contra hle
      exact hnew2 e he (hdown _ _ (not_lt.mp hle) hPc)
    have hseg : ((s.storage.putBase cfg.dbId c applied).deleteSegments cfg.dbId
        ((s.listSegmentsInRange cfg s.timeline.baseCkpt high).takeWhile
          fun id => id < c.toSegmentId)).segments cfg.dbId = _ := Function.update_self ..
    have hbases : ((s.storage.putBase cfg.dbId c applied).deleteSegments cfg.dbId
        ((s.listSegmentsInRange cfg s.timeline.baseCkpt high).takeWhile
          fun id => id < c.toSegmentId)).bases cfg.dbId = _ := Function.update_self ..
    refine ⟨_, _, rfl, ⟨h.log, h.last, h.draft, h.clean, h.window, ⟨old ++ new1, new2, ?_⟩,
      ⟨h.objects.sealed, h.objects.live, h.objects.above⟩, h.metas, h.chunks⟩,
      .inr ⟨blanks ++ new1, ⟨⟨m, _, hbm, hma.symm⟩, rfl, hbases, hasc,
        fun e he => ⟨(hlast e he).2, (hlast e he).1.1⟩, fun e he hb => ⟨fun hle => ?_, fun hle => ?_⟩⟩,
        fun e he hb hlt hP => ?_⟩⟩
    · have hfold := hl.fold h.log hm hmc hc0 hch habove hcne
      rw [← Db.deleteSegments_eq hl (hhigh c hPc)] at hfold
      dsimp only [Db.LayersOf]
      rw [hseg, hbases]
      exact hfold
    · -- a record up to the new base is old or folded
      rw [hl.split, ← List.append_assoc] at he
      rcases List.mem_append.mp he with he | he
      · exact (List.mem_append.mp he).imp (hl.old_le e · hb) (List.mem_append_right _)
      · exact absurd hle (not_le.mpr (habove e he))
    · -- an old or folded record is represented by the new manifest
      refine (hm.header_le e ?_ hb).trans hmc
      rcases hle with hle | hle
      · rw [hl.split] at he
        exact List.mem_append_left _ ((List.mem_append.mp he).resolve_right fun hn =>
          absurd (hl.base_lt e hn) (not_lt.mpr hle))
      · refine List.mem_append_right _ ((List.mem_append.mp hle).resolve_left fun hbl => ?_)
        rw [hblank e hbl] at hb
        exact absurd hb (by simp)
    · -- a record of the range that is not blank is one of the next ones
      rw [hl.split] at he
      have hnew := (List.mem_append.mp he).resolve_left fun ho =>
        absurd (hl.old_le e ho hb) (not_le.mpr hlt)
      exact List.mem_append_right _ ((List.mem_append.mp hnew).resolve_right fun h2 => hnew2 e h2 hP)

/-- **A compaction keeps the invariant.** -/
theorem runCompaction (h : Inv cfg s g H F) (now : ℤ) :
    ∃ r s', s.runCompaction cfg now = (.ok r, s') ∧ Inv cfg s' g H F ∧
      (s' = s ∨ ∃ l, s.Folds cfg s' H l now) := by
  rw [Db.runCompaction]
  generalize (if s.timeline.redoCkpt.lsn = 0 then s.timeline.headCkpt else s.timeline.redoCkpt) =
    upper
  split_ifs with hle
  · exact ⟨_, s, rfl, h, .inl rfl⟩
  · obtain ⟨r, s', hs, hinv, hf⟩ := h.compactRange (P := fun c => c < upper)
      (fun c d hcd hd => hcd.trans_lt hd) (not_le.mp hle) (fun c hc => hc.le) (fun _ _ => .inr rfl) now
    exact ⟨r, s', hs, hinv, hf.imp And.left fun ⟨l, hl, _⟩ => ⟨l, hl⟩⟩

/-- **A compaction through a checkpoint keeps the invariant.** -/
theorem runCompactionThrough (h : Inv cfg s g H F) (target : Checkpoint) (now : ℤ) :
    ∃ r s', s.runCompactionThrough cfg target now = (.ok r, s') ∧ Inv cfg s' g H F ∧
      ((s' = s ∧ ∀ e ∈ storedRecords (s.storage.segments cfg.dbId), s.timeline.baseCkpt < e.ckpt →
        target < e.ckpt) ∨
      ∃ l, s.Folds cfg s' H l now ∧ ∀ e ∈ H, e.isBlank = false → s.timeline.baseCkpt < e.ckpt →
        e.ckpt ≤ target → e ∈ l) := by
  rw [Db.runCompactionThrough]
  split_ifs with hle
  · exact ⟨_, s, rfl, h, .inl ⟨rfl, fun e _ hlt => hle.trans_lt hlt⟩⟩
  · obtain ⟨r, s', hs, hinv, hf⟩ := h.compactRange (P := fun c => c ≤ target)
      (fun c d hcd hd => hcd.trans hd) (not_le.mp hle).le (fun c hc => hc) (fun _ _ => .inl rfl) now
    exact ⟨r, s', hs, hinv, hf.imp_left fun ⟨hss, hn⟩ =>
      ⟨hss, fun e he hlt => not_le.mp (hn e he hlt)⟩⟩

end Inv

end Tiko

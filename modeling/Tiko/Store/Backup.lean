import Tiko.Store.Effects
import Tiko.Store.Folded
import Tiko.Store.Run
import Tiko.Store.Sound

/-!
# The anchor of a base backup

A base backup commits a checkpoint and compacts through it; a recovery opens the newest base manifest
at or before that checkpoint. The manifest may be stored under an earlier key, and other compactions
store further ones around it.

* `Anchored`: every stored base manifest holds the state at its key; **`Anchored.step`**,
  `Tracked.run`: a run without failures keeps that;
* `BackedUp`: what keeps the selection of a backup in place; **`BackedUp.step`**;
* **`anchor_holds`**: after a backup and any further run, the selected manifest holds the state at the
  checkpoint of the backup.
-/

namespace Tiko

open Lib

variable {β : Type}

/-! ## The manifests of a database -/

/-- The keys of the stored base manifests: where compactions have ended. -/
def Db.folds (cfg : StoreConfig) (s : Db β) : List Checkpoint := (s.storage.bases cfg.dbId).keys

theorem Db.Folds.mem_folds {cfg : StoreConfig} {s s' : Db β} {H l : List SegmentCheckpoint} {now : ℤ}
    (h : s.Folds cfg s' H l now) (k : Checkpoint) :
    k ∈ s'.folds cfg ↔ k = s'.timeline.baseCkpt ∨ k ∈ s.folds cfg := by
  rw [Db.folds, h.bases, SortedMap.mem_keys_iff, SortedMap.lookup_insert, Db.folds,
    SortedMap.mem_keys_iff]
  split_ifs with hk <;> simp [hk]

/-- Every stored base manifest holds the state at its key, and the snapshot and the local file hold that
at the base, up to which something has been folded. -/
structure Anchored (cfg : StoreConfig) (s : Db β) (H : List SegmentCheckpoint) : Prop where
  stored : ∀ k m, (s.storage.bases cfg.dbId).lookup k = some m → m.HoldsAt cfg H (s.folds cfg) k
  manifest : s.manifest.HoldsAt cfg H (s.folds cfg) s.timeline.baseCkpt
  tikm : ∀ m, s.tikm = some m → m.HoldsAt cfg H (s.folds cfg) s.timeline.baseCkpt
  folded : FoldedTo H (s.folds cfg) s.timeline.baseCkpt

namespace Anchored

variable {cfg : StoreConfig} {s s' : Db β} {H : List SegmentCheckpoint} {head : Checkpoint}

/-- **The base manifest holds the state at the base**, and reloading it keeps the manifests anchored. -/
theorem baseManifest (h : Anchored cfg s H) (hlog : Log H head) {m : Manifest}
    (hb : s.baseManifest cfg = .ok (m, s')) :
    m.HoldsAt cfg H (s.folds cfg) s.timeline.baseCkpt ∧ Anchored cfg s' H := by
  rw [Db.baseManifest] at hb
  split_ifs at hb with hc
  · obtain ⟨rfl, rfl⟩ := Prod.mk.inj (Except.ok.inj hb)
    exact ⟨h.manifest, h⟩
  · rw [Db.loadManifestAt] at hb
    split_ifs at hb with hd
    · obtain ⟨rfl, rfl⟩ := Prod.mk.inj (Except.ok.inj hb)
      have hempty : Manifest.empty.HoldsAt cfg H (s.folds cfg) s.timeline.baseCkpt :=
        holdsAt_empty fun e he _ => hd ▸ hlog.default_lt he
      exact ⟨hempty, h.stored, hempty, fun m hm => Option.some.inj hm ▸ hempty, h.folded⟩
    · cases ht : s.tikm.filter fun m => m.checkpoint = s.timeline.baseCkpt with
      | some m' =>
        rw [ht] at hb
        obtain ⟨rfl, rfl⟩ := Prod.mk.inj (Except.ok.inj hb)
        have hm := h.tikm m' (Option.filter_eq_some_iff.mp ht).1
        exact ⟨hm, h.stored, hm, h.tikm, h.folded⟩
      | none =>
        rw [ht] at hb
        cases hl : (s.storage.bases cfg.dbId).lookup s.timeline.baseCkpt with
        | none => rw [hl] at hb; exact absurd hb (by simp)
        | some m' =>
          rw [hl] at hb
          obtain ⟨rfl, rfl⟩ := Prod.mk.inj (Except.ok.inj hb)
          have hm := h.stored _ m' hl
          exact ⟨hm, h.stored, hm, fun m hm' => Option.some.inj hm' ▸ hm, h.folded⟩

end Anchored

/-- What a read or a patch does to the manifests: nothing, or a reload of the base manifest. -/
def Db.Rebased (cfg : StoreConfig) (s s' : Db β) : Prop :=
  s'.storage.bases = s.storage.bases ∧ s'.timeline = s.timeline ∧
    (s'.manifest = s.manifest ∧ s'.tikm = s.tikm ∨
      ∃ m t, s.baseManifest cfg = .ok (m, t) ∧ s'.manifest = t.manifest ∧ s'.tikm = t.tikm)

namespace Db

variable {cfg : StoreConfig}

theorem Rebased.refl (s : Db β) : Rebased cfg s s := ⟨rfl, rfl, .inl ⟨rfl, rfl⟩⟩

theorem baseManifest_rebased {s s' : Db β} {m : Manifest} (h : s.baseManifest cfg = .ok (m, s')) :
    Rebased cfg s s' := by
  obtain ⟨⟨tikm, rfl, -⟩, -, -⟩ := baseManifest_sees h
  exact ⟨rfl, rfl, .inr ⟨m, _, h, rfl, rfl⟩⟩

theorem getChunk_rebased (cfg : StoreConfig) (s : Db β) (tag : ChunkTag) :
    Rebased cfg s (s.getChunk cfg tag).2 := by
  unfold getChunk
  split
  · exact .refl s
  · split
    · exact .refl s
    · split
      · exact .refl s
      · exact .refl s
      · cases hm : s.baseManifest cfg with
        | error e => exact .refl s
        | ok p =>
          dsimp only
          split
          · exact baseManifest_rebased hm
          · split
            · exact baseManifest_rebased hm
            · exact baseManifest_rebased hm

theorem getMeta_rebased (cfg : StoreConfig) (s : Db β) (rf : RelFork) : Rebased cfg s (s.getMeta cfg rf).2 := by
  have hbelow : ∀ top, Rebased cfg s (s.getMetaBelow cfg rf top).2 := by
    intro top
    unfold getMetaBelow
    split
    · exact .refl s
    · exact .refl s
    · cases hm : s.baseManifest cfg with
      | error e => exact .refl s
      | ok p =>
        dsimp only
        split
        · exact baseManifest_rebased hm
        · exact baseManifest_rebased hm
  unfold getMeta
  split
  · exact .refl s
  · exact .refl s
  · split
    · exact .refl s
    · exact hbelow _

theorem patchChunk_rebased [Zero β] (cfg : StoreConfig) (s : Db β) (out : AppendOutcome)
    (tag : ChunkTag) (offset : ℕ) (data : List β) : Rebased cfg s (s.patchChunk cfg out tag offset data).2 := by
  unfold patchChunk
  split_ifs
  · exact .refl s
  · have hr := getChunk_rebased cfg s tag
    cases hg : s.getChunk cfg tag with
    | mk r s' =>
      rw [hg] at hr
      cases r with
      | ok c => exact hr
      | error e =>
        dsimp only
        split_ifs
        · exact hr
        · exact hr

end Db

namespace Anchored

variable {cfg : StoreConfig} {s s' : Db β} {g : Flat β} {H l : List SegmentCheckpoint}
  {F : DraftFrame} {head : Checkpoint}

theorem of_eq (h : Anchored cfg s H)
    (hb : s'.storage.bases cfg.dbId = s.storage.bases cfg.dbId)
    (hbase : s'.timeline.baseCkpt = s.timeline.baseCkpt) (hm : s'.manifest = s.manifest)
    (ht : s'.tikm = s.tikm) : Anchored cfg s' H := by
  have hfolds : s'.folds cfg = s.folds cfg := congrArg SortedMap.keys hb
  refine ⟨fun k m hk => ?_, ?_, fun m hk => ?_, ?_⟩
  · rw [hb] at hk
    exact hfolds ▸ h.stored k m hk
  · rw [hm, hfolds, hbase]
    exact h.manifest
  · rw [ht] at hk
    rw [hfolds, hbase]
    exact h.tikm m hk
  · rw [hfolds, hbase]
    exact h.folded

theorem rebased (h : Anchored cfg s H) (hlog : Log H head) (hr : Db.Rebased cfg s s') :
    Anchored cfg s' H := by
  obtain ⟨hb, ht, ⟨hm, htikm⟩ | ⟨m, t, hbm, hm, htikm⟩⟩ := hr
  · exact h.of_eq (congrFun hb _) (congrArg _ ht) hm htikm
  · obtain ⟨hbt, htt, -⟩ := Db.baseManifest_rebased hbm
    refine (h.baseManifest hlog hbm).2.of_eq ?_ ?_ hm htikm
    · rw [hb, hbt]
    · rw [ht, htt]

/-- **A fold keeps the manifests anchored.** -/
theorem fold (h : Anchored cfg s H) (hlog : Log H head)
    (hlsn : H.Pairwise fun a b => a.prevCkpt.lsn.toNat < b.prevCkpt.lsn.toNat) {now : ℤ}
    (hf : s.Folds cfg s' H l now) : Anchored cfg s' H := by
  obtain ⟨m, t, hb, hm⟩ := hf.manifest
  have hmem := hf.mem_folds
  have hnew : s'.manifest.HoldsAt cfg H (s'.folds cfg) s'.timeline.baseCkpt := by
    rw [hm]
    exact (h.baseManifest hlog hb).1.applySegments hlog.ascending_ckpt hlsn h.folded hf.range hmem now
  refine ⟨fun k m' hk => ?_, hnew, fun m' hk => ?_, ?_, ?_⟩
  · rw [hf.bases, SortedMap.lookup_insert] at hk
    split_ifs at hk with heq
    · rw [heq, ← Option.some.inj hk]
      exact hnew
    · -- an older key lies below the new one, or above it by blank records
      refine (h.stored k m' hk).insert hmem ?_
      have hkf : k ∈ s.folds cfg := (SortedMap.mem_keys_iff _ _).mpr (by rw [hk]; rfl)
      exact (lt_or_gt_of_ne heq).imp_right fun hlt => (h.folded.same_of_lt hf.range hkf hlt).symm
  · rw [hf.tikm] at hk
    exact Option.some.inj hk ▸ hnew
  · intro k hk e he hb hlt
    rcases (hmem k).mp hk with rfl | hk
    · exact hlt
    · refine h.folded.lt k hk e he hb (not_le.mp fun hle => ?_)
      exact absurd ((hf.range.upTo_iff e he hb).mpr (.inl hle)) (not_le.mpr hlt)
  · exact .inl ⟨_, (hmem _).mpr (.inl rfl), fun _ _ _ hle => hle⟩

/-- A commit keeps the manifests anchored. -/
theorem append (h : Anchored cfg s H) (hi : Inv cfg s g H F) {e : SegmentCheckpoint}
    (he : s.timeline.headCkpt < e.ckpt) : Anchored cfg s (H ++ [e]) := by
  obtain ⟨old, new, hl⟩ := hi.layers
  have hnew : ∀ c, c ≤ s.timeline.headCkpt → ∀ x ∈ [e], c < x.ckpt := fun c hc x hx => by
    rw [List.mem_singleton.mp hx]
    exact hc.trans_lt he
  refine ⟨fun k m hk => ?_, (Manifest.holdsAt_append (hnew _ hl.base_le)).mpr h.manifest,
    fun m hm => (Manifest.holdsAt_append (hnew _ hl.base_le)).mpr (h.tikm m hm), fun k hk x hx hb hlt => ?_, ?_⟩
  · have hkf : k ∈ s.folds cfg := (SortedMap.mem_keys_iff _ _).mpr (by rw [hk]; rfl)
    exact (Manifest.holdsAt_append (hnew k (hl.keys k hkf).1)).mpr (h.stored k m hk)
  · rcases List.mem_append.mp hx with hx | hx
    · exact h.folded.lt k hk x hx hb hlt
    · exact hnew k (hl.keys k hk).1 x hx
  · rcases h.folded.reached with ⟨k, hk, hall⟩ | hnone
    · refine .inl ⟨k, hk, fun x hx hb hle => ?_⟩
      rcases List.mem_append.mp hx with hx | hx
      · exact hall x hx hb hle
      · exact absurd hle (not_le.mpr (hnew _ hl.base_le x hx))
    · refine .inr fun x hx hb => ?_
      rcases List.mem_append.mp hx with hx | hx
      · exact hnone x hx hb
      · exact hnew _ hl.base_le x hx

/-- The newest stored base manifest holds the state at the base. -/
theorem newestBase (h : Anchored cfg s H) :
    (newestBase (s.storage.bases cfg.dbId)).HoldsAt cfg H (s.folds cfg) s.timeline.baseCkpt := by
  rw [Tiko.newestBase]
  cases hlast : (s.storage.bases cfg.dbId).entries.getLast? with
  | none =>
    have hnil : s.folds cfg = [] := by
      rw [Db.folds, SortedMap.keys, List.getLast?_eq_none_iff.mp hlast]
      rfl
    refine holdsAt_empty (h.folded.reached.resolve_left ?_)
    rintro ⟨k, hk, -⟩
    exact absurd hk (hnil ▸ List.not_mem_nil)
  | some p =>
    obtain ⟨l, hl⟩ := List.getLast?_eq_some_iff.mp hlast
    have hp : (s.storage.bases cfg.dbId).lookup p.1 = some p.2 :=
      (SortedMap.mem_entries_iff _ _ _).mp (hl ▸ List.mem_append_right _ (List.mem_singleton.mpr rfl))
    have hpf : p.1 ∈ s.folds cfg := (SortedMap.mem_keys_iff _ _).mpr (by rw [hp]; rfl)
    have hmax : ∀ k ∈ s.folds cfg, k ≤ p.1 := fun k hk => by
      obtain ⟨q, hq, rfl⟩ := List.mem_map.mp hk
      have hsorted := (s.storage.bases cfg.dbId).sorted
      rw [hl] at hq hsorted
      rcases List.mem_append.mp hq with hq | hq
      · exact ((List.pairwise_append.mp hsorted).2.2 q hq p (List.mem_singleton.mpr rfl)).le
      · rw [List.mem_singleton.mp hq]
    refine (h.stored p.1 p.2 hp).same fun e he hb => ⟨h.folded.le_base hpf he hb, fun hle => ?_⟩
    rcases h.folded.reached with ⟨k, hk, hall⟩ | hnone
    · exact (hall e he hb hle).trans (hmax k hk)
    · exact absurd hle (not_le.mpr (hnone e he hb))

/-- The manifest that a start opens holds the state at the base, and its own checkpoint differs from the
base by blank records. -/
theorem opened (h : Anchored cfg s H) (hi : Inv cfg s g H F) (tikmLost : Bool) :
    let m := (if tikmLost then none else s.tikm).getD (Tiko.newestBase (s.storage.bases cfg.dbId))
    m.HoldsAt cfg H (s.folds cfg) s.timeline.baseCkpt ∧
      SameUpTo H s.timeline.baseCkpt m.checkpoint := by
  intro m
  obtain ⟨old, new, hl⟩ := hi.layers
  have hm : Represents cfg m old ∧ m.HoldsAt cfg H (s.folds cfg) s.timeline.baseCkpt := by
    cases ht : (if tikmLost then none else s.tikm) with
    | none =>
      rw [show m = Tiko.newestBase (s.storage.bases cfg.dbId) by simp only [m, ht]; rfl]
      exact ⟨hl.newest_rep, h.newestBase⟩
    | some m' =>
      rw [show m = m' by simp only [m, ht]; rfl]
      split_ifs at ht
      exact ⟨hl.tikm_rep m' ht, h.tikm m' ht⟩
  refine ⟨hm.2, fun e he hb => ⟨fun hle => ?_, fun hle => hle.trans (hl.header_le_base hm.1)⟩⟩
  rw [hl.split] at he
  exact hm.1.header_le e ((List.mem_append.mp he).resolve_right fun hn =>
    absurd (hl.base_lt e hn) (not_lt.mpr hle)) hb

/-- **A start keeps the manifests anchored.** -/
theorem restart (h : Anchored cfg s H) (hi : Inv cfg s g H F) (tikmLost : Bool) :
    Anchored cfg (s.restart cfg tikmLost false) H := by
  obtain ⟨hm, hs⟩ := h.opened hi tikmLost
  rw [Db.restart_eq]
  simp only [Bool.false_eq_true, if_false]
  have hbase := baseCkpt_hydrated s.timeline (storedRecords (s.storage.segments cfg.dbId))
    ((if tikmLost then none else s.tikm).getD
      (Tiko.newestBase (s.storage.bases cfg.dbId))).checkpoint
  refine ⟨h.stored, ?_, fun m hmem => ?_, ?_⟩
  · rw [hbase]
    exact hm.same hs
  · rw [hbase, ← Option.some.inj hmem]
    exact hm.same hs
  · rw [hbase]
    exact h.folded.same hs

end Anchored

/-! ## Runs -/

/-- A step that keeps the LSNs of commits ascending. Relations may be deleted. -/
def Step.LsnAscending (g : Flat β) : Step β → Prop
  | .patchChunk _ blockOffset data => data ≠ [] ∧ blockOffset + data.length ≤ blocksPerChunk
  | .commit a => g.last.lsn < a.ckpt.lsn ∧ 1 ≤ a.ckpt.timelineId ∧
      g.last.timelineId ≤ a.ckpt.timelineId
  | .restart _ => g.dirty = false
  | _ => True

instance (g : Flat β) : DecidablePred (Step.LsnAscending g)
  | .patchChunk _ blockOffset data =>
    inferInstanceAs (Decidable (data ≠ [] ∧ blockOffset + data.length ≤ blocksPerChunk))
  | .commit a => inferInstanceAs (Decidable (g.last.lsn < a.ckpt.lsn ∧ 1 ≤ a.ckpt.timelineId ∧
      g.last.timelineId ≤ a.ckpt.timelineId))
  | .restart _ => inferInstanceAs (Decidable (g.dirty = false))
  | .putMeta .. | .spill | .compact _ | .compactThrough .. | .getChunk _ | .getMeta _ =>
    inferInstanceAs (Decidable True)

theorem Step.LsnAscending.ordered {g : Flat β} {st : Step β} (h : st.LsnAscending g) :
    st.Ordered g := by
  cases st with
  | commit a =>
    have hl : (Step.commit a : Step β).LsnOrdered g := h
    exact hl.ordered
  | patchChunk tag blockOffset data => exact h
  | restart tikmLost => exact h
  | _ => trivial

/-- The prefixes of a ledger have ascending LSNs, below that of its head. -/
structure Ledger.LsnAscending (l : Ledger) : Prop where
  records : l.records.Pairwise fun a b => a.prevCkpt.lsn.toNat < b.prevCkpt.lsn.toNat
  below : ∀ e ∈ l.records, e.prevCkpt.lsn.toNat < l.head.lsn.toNat

theorem Ledger.LsnAscending.step {g : Flat β} {l : Ledger} (h : l.LsnAscending)
    (hl : l.head = g.last) {st : Step β} (hok : st.LsnAscending g) : (l.step st).LsnAscending := by
  cases st with
  | commit a =>
    have hlt : l.head.lsn.toNat < a.ckpt.lsn.toNat := UInt64.lt_iff_toNat_lt.mp (hl ▸ hok.1)
    refine ⟨List.pairwise_append.mpr ⟨h.records, List.pairwise_singleton _ _, fun x hx y hy => ?_⟩,
      fun e he => ?_⟩
    · rw [List.mem_singleton.mp hy]
      exact h.below x hx
    · rcases List.mem_append.mp he with he | he
      · exact (h.below e he).trans hlt
      · rw [List.mem_singleton.mp he]
        exact hlt
  | _ => exact ⟨h.records, h.below⟩

/-- A database, its flat store and its ledger agree, and its manifests are anchored. -/
structure Tracked (cfg : StoreConfig) (s : Db β) (g : Flat β) (l : Ledger) : Prop where
  inv : Inv cfg s g l.records l.frame
  head : l.head = g.last
  lsn : l.LsnAscending
  anchored : Anchored cfg s l.records

section Run

variable [Zero β] {cfg : StoreConfig} {s : Db β} {g : Flat β} {l : Ledger}

omit [Zero β] in
theorem tracked_of_isFresh (h : IsFresh cfg s) : Tracked cfg s Flat.fresh .fresh where
  inv := inv_of_isFresh h
  head := rfl
  lsn := ⟨.nil, fun _ he => absurd he List.not_mem_nil⟩
  anchored := by
    have hnone : ∀ c, ∀ e ∈ Ledger.fresh.records, e.isBlank = false → c < e.ckpt :=
      fun c e he => absurd he List.not_mem_nil
    have hfolds : s.folds cfg = [] := by rw [Db.folds, h.bases]; rfl
    refine ⟨fun k m hk => ?_, ?_, fun m hm => ?_, fun k hk => ?_, .inr (hnone _)⟩
    · rw [h.bases] at hk
      exact absurd hk (by simp)
    · rw [h.manifest]
      exact holdsAt_empty (hnone _)
    · rw [h.tikm m hm]
      exact holdsAt_empty (hnone _)
    · exact absurd hk (hfolds ▸ List.not_mem_nil)

/-- **A step keeps the manifests anchored.** -/
theorem Anchored.step (h : Tracked cfg s g l) {st : Step β} (hok : st.LsnAscending g) :
    Anchored cfg (s.step cfg st) (l.step st).records := by
  have hlog := h.inv.log
  cases st with
  | patchChunk tag blockOffset data =>
    exact h.anchored.rebased hlog (Db.patchChunk_rebased cfg s .ok tag blockOffset data)
  | putMeta rf m => exact h.anchored.of_eq rfl rfl rfl rfl
  | spill => exact h.anchored.of_eq rfl rfl rfl rfl
  | commit a =>
    have hlt : s.timeline.headCkpt < a.ckpt := h.inv.last ▸ hok.ordered
    obtain ⟨d, hd, -⟩ := DraftBuffer.drain_of_holds h.inv.draft
    rw [Db.step, Db.runCommitProtocol_ok hd a, Ledger.step, h.head, h.inv.last]
    exact (h.anchored.append h.inv (e := a.summary s.timeline.headCkpt l.frame) hlt).of_eq rfl rfl
      rfl rfl
  | compact now =>
    obtain ⟨r, s', hs, -, rfl | ⟨x, hx⟩⟩ := h.inv.runCompaction now
    · rw [Db.step, hs]
      exact h.anchored
    · rw [Db.step, hs]
      exact h.anchored.fold hlog h.lsn.records hx
  | compactThrough target now =>
    obtain ⟨r, s', hs, -, ⟨rfl, -⟩ | ⟨x, hx, -⟩⟩ := h.inv.runCompactionThrough target now
    · rw [Db.step, hs]
      exact h.anchored
    · rw [Db.step, hs]
      exact h.anchored.fold hlog h.lsn.records hx
  | restart tikmLost => exact h.anchored.restart h.inv tikmLost
  | getChunk tag => exact h.anchored.rebased hlog (Db.getChunk_rebased cfg s tag)
  | getMeta rf => exact h.anchored.rebased hlog (Db.getMeta_rebased cfg s rf)

theorem Tracked.step (h : Tracked cfg s g l) {st : Step β} (hok : st.LsnAscending g) :
    Tracked cfg (s.step cfg st) (g.step st) (l.step st) := by
  obtain ⟨hinv, hhead⟩ := h.inv.step_ledger h.head hok.ordered
  exact ⟨hinv, hhead, h.lsn.step h.head hok, .step h hok⟩

/-- **A run keeps the manifests anchored.** -/
theorem Tracked.run (h : Tracked cfg s g l) {steps : List (Step β)}
    (hok : Along Step.LsnAscending g steps) :
    Tracked cfg (s.run cfg steps) (steps.foldl Flat.step g) (steps.foldl Ledger.step l) := by
  induction steps generalizing s g l with
  | nil => exact h
  | cons st steps ih => exact ih (h.step hok.1) hok.2

end Run

/-! ## What a backup selects -/

/-- The base manifest that a recovery to `C` opens is settled: a compaction has ended at or below `C`
with all records up to `C`, and since those of `taken` others have ended above `C` or among blank
records only. -/
structure BackedUp (cfg : StoreConfig) (s : Db β) (H : List SegmentCheckpoint) (C : Checkpoint)
    (taken : List Checkpoint) : Prop where
  le_head : C ≤ s.timeline.headCkpt
  covered : ∀ e ∈ H, e.isBlank = false → e.ckpt ≤ C → e.ckpt ≤ s.timeline.baseCkpt
  selected : ∃ k ∈ s.folds cfg, k ≤ C ∧ SameUpTo H k C
  kept : ∀ k ∈ taken, k ∈ s.folds cfg
  later : ∀ k ∈ s.folds cfg, k ∈ taken ∨ C < k ∨ SameUpTo H k C

namespace BackedUp

variable {cfg : StoreConfig} {s s' : Db β} {g : Flat β} {H l : List SegmentCheckpoint}
  {F : DraftFrame} {C : Checkpoint} {taken : List Checkpoint}

/-- **The selected manifest holds the state at the checkpoint of the backup.** -/
theorem exists_holdsAt (h : BackedUp cfg s H C taken) (ha : Anchored cfg s H) :
    ∃ k m, Db.newestBaseUpTo (s.storage.bases cfg.dbId) C = some (k, m) ∧
      m.HoldsAt cfg H taken C := by
  obtain ⟨k₀, hk₀, hle₀, hs₀⟩ := h.selected
  rw [Db.newestBaseUpTo]
  have hmem₀ : ∃ p ∈ (s.storage.bases cfg.dbId).entries, p.1 = k₀ := List.mem_map.mp hk₀
  obtain ⟨p₀, hp₀, rfl⟩ := hmem₀
  cases hlast : ((s.storage.bases cfg.dbId).entries.filter fun p => decide (p.1 ≤ C)).getLast? with
  | none =>
    have hnil := List.getLast?_eq_none_iff.mp hlast
    exact absurd (List.mem_filter.mpr ⟨hp₀, decide_eq_true hle₀⟩) (hnil ▸ List.not_mem_nil)
  | some p =>
    refine ⟨p.1, p.2, rfl, ?_⟩
    obtain ⟨pre, hpre⟩ := List.getLast?_eq_some_iff.mp hlast
    have hp : p ∈ (s.storage.bases cfg.dbId).entries ∧ decide (p.1 ≤ C) = true :=
      List.mem_filter.mp (hpre ▸ List.mem_append_right _ (List.mem_singleton.mpr rfl))
    -- the selected key lies between that of the backup and its checkpoint
    have hle : p₀.1 ≤ p.1 := by
      have hsorted := (s.storage.bases cfg.dbId).sorted.sublist
        (List.filter_sublist (p := fun p => decide (p.1 ≤ C)))
      have hmem : p₀ ∈ pre ++ [p] := hpre ▸ List.mem_filter.mpr ⟨hp₀, decide_eq_true hle₀⟩
      rw [hpre] at hsorted
      rcases List.mem_append.mp hmem with hm | hm
      · exact ((List.pairwise_append.mp hsorted).2.2 _ hm p (List.mem_singleton.mpr rfl)).le
      · rw [List.mem_singleton.mp hm]
    have hheld := (ha.stored p.1 p.2 ((SortedMap.mem_entries_iff _ _ _).mp hp.1)).same
      (hs₀.symm.of_between hle (of_decide_eq_true hp.2))
    refine ⟨hheld.metas, fun tag => ?_⟩
    rw [hheld.chunks]
    cases hdel : deletedAt H C tag.relFork with
    | true => rfl
    | false =>
      refine keptRef_congr (fun _ _ _ => .rfl) (fun e _ _ => ?_) cfg.dbId
      rw [Bool.eq_iff_iff, droppedAt_iff, droppedAt_iff]
      refine ⟨fun ⟨k, hk, hkC, hkd, hek⟩ => ⟨k, ?_, hkC, hkd, hek⟩,
        fun ⟨k, hk, hd⟩ => ⟨k, h.kept k hk, hd⟩⟩
      rcases h.later k hk with hk | hlt | hs
      · exact hk
      · exact absurd hkC (not_le.mpr hlt)
      · rw [deletedAt_same hs, hdel] at hkd
        exact absurd hkd (by simp)

theorem of_eq (h : BackedUp cfg s H C taken)
    (hb : s'.storage.bases cfg.dbId = s.storage.bases cfg.dbId)
    (ht : s'.timeline = s.timeline) : BackedUp cfg s' H C taken := by
  have hfolds : s'.folds cfg = s.folds cfg := congrArg SortedMap.keys hb
  obtain ⟨h1, h2, h3, h4, h5⟩ := h
  exact ⟨ht ▸ h1, ht ▸ h2, hfolds ▸ h3, hfolds ▸ h4, hfolds ▸ h5⟩

/-- A later compaction ends above the backup, or among blank records. -/
theorem fold (h : BackedUp cfg s H C taken) {now : ℤ} (hf : s.Folds cfg s' H l now)
    (hhead : C ≤ s'.timeline.headCkpt) : BackedUp cfg s' H C taken := by
  have hmem := hf.mem_folds
  have hcov : ∀ e ∈ H, e.isBlank = false → e.ckpt ≤ C → e.ckpt ≤ s'.timeline.baseCkpt :=
    fun e he hb hle => (hf.range.upTo_iff e he hb).mpr (.inl (h.covered e he hb hle))
  refine ⟨hhead, hcov, ?_, fun k hk => (hmem k).mpr (.inr (h.kept k hk)), fun k hk => ?_⟩
  · obtain ⟨k, hk, hs⟩ := h.selected
    exact ⟨k, (hmem k).mpr (.inr hk), hs⟩
  · rcases (hmem k).mp hk with rfl | hk
    · refine .inr ((lt_or_ge C s'.timeline.baseCkpt).imp_right fun hle => ?_)
      exact fun e he hb => ⟨fun hc => hc.trans hle, hcov e he hb⟩
    · exact h.later k hk

/-- Later commits lie above the backup. -/
theorem append (h : BackedUp cfg s H C taken) (hi : Inv cfg s g H F) {e : SegmentCheckpoint}
    (he : s.timeline.headCkpt < e.ckpt) : BackedUp cfg s (H ++ [e]) C taken := by
  obtain ⟨old, new, hl⟩ := hi.layers
  have hsame : ∀ k ∈ s.folds cfg, SameUpTo H k C → SameUpTo (H ++ [e]) k C := by
    intro k hk hs x hx hb
    rcases List.mem_append.mp hx with hx | hx
    · exact hs x hx hb
    · rw [List.mem_singleton.mp hx]
      exact iff_of_false (not_le.mpr ((hl.keys k hk).1.trans_lt he)) (not_le.mpr (h.le_head.trans_lt he))
  refine ⟨h.le_head, fun x hx hb hle => ?_, ?_, h.kept, fun k hk => ?_⟩
  · rcases List.mem_append.mp hx with hx | hx
    · exact h.covered x hx hb hle
    · rw [List.mem_singleton.mp hx] at hle
      exact absurd hle (not_le.mpr (h.le_head.trans_lt he))
  · obtain ⟨k, hk, hle, hs⟩ := h.selected
    exact ⟨k, hk, hle, hsame k hk hs⟩
  · exact (h.later k hk).imp_right fun hl => hl.imp_right (hsame k hk)

variable [Zero β]

/-- **A further step keeps the selection.** -/
theorem step {l : Ledger} (h : BackedUp cfg s l.records C taken) (ht : Tracked cfg s g l) {st : Step β}
    (hok : st.LsnAscending g) : BackedUp cfg (s.step cfg st) (l.step st).records C taken := by
  cases st with
  | patchChunk tag blockOffset data =>
    have hr := Db.patchChunk_rebased cfg s .ok tag blockOffset data
    exact h.of_eq (congrFun hr.1 _) hr.2.1
  | putMeta rf m => exact h.of_eq rfl rfl
  | spill => exact h.of_eq rfl rfl
  | commit a =>
    have hlt : s.timeline.headCkpt < a.ckpt := ht.inv.last ▸ hok.ordered
    obtain ⟨d, hd, -⟩ := DraftBuffer.drain_of_holds ht.inv.draft
    rw [Db.step, Db.runCommitProtocol_ok hd a, Ledger.step, ht.head, ht.inv.last]
    obtain ⟨-, h2, h3, h4, h5⟩ :=
      h.append ht.inv (e := a.summary s.timeline.headCkpt l.frame) hlt
    exact ⟨h.le_head.trans hlt.le, h2, h3, h4, h5⟩
  | compact now =>
    obtain ⟨r, s', hs, hinv, rfl | ⟨x, hx⟩⟩ := ht.inv.runCompaction now
    · rw [Db.step, hs]
      exact h
    · rw [Db.step, hs]
      exact h.fold hx (hinv.last ▸ ht.inv.last.symm ▸ h.le_head)
  | compactThrough target now =>
    obtain ⟨r, s', hs, hinv, ⟨rfl, -⟩ | ⟨x, hx, -⟩⟩ := ht.inv.runCompactionThrough target now
    · rw [Db.step, hs]
      exact h
    · rw [Db.step, hs]
      exact h.fold hx (hinv.last ▸ ht.inv.last.symm ▸ h.le_head)
  | restart tikmLost =>
    have hlast := (ht.inv.restart hok tikmLost).last
    obtain ⟨-, hs⟩ := ht.anchored.opened ht.inv tikmLost
    have hbase := baseCkpt_hydrated s.timeline (storedRecords (s.storage.segments cfg.dbId))
      ((if tikmLost then none else s.tikm).getD (newestBase (s.storage.bases cfg.dbId))).checkpoint
    have hhead : (s.restart cfg tikmLost false).timeline.headCkpt = s.timeline.headCkpt :=
      hlast.symm.trans ht.inv.last
    rw [Db.restart_eq] at hhead
    rw [Db.step, Db.restart_eq]
    simp only [Bool.false_eq_true, if_false] at hhead ⊢
    refine ⟨hhead.symm ▸ h.le_head, fun e he hb hle => ?_, h.selected, h.kept, h.later⟩
    rw [hbase]
    exact (hs e he hb).mp (h.covered e he hb hle)
  | getChunk tag =>
    have hr := Db.getChunk_rebased cfg s tag
    exact h.of_eq (congrFun hr.1 _) hr.2.1
  | getMeta rf =>
    have hr := Db.getMeta_rebased cfg s rf
    exact h.of_eq (congrFun hr.1 _) hr.2.1

/-- **A further run keeps the selection.** -/
theorem run {l : Ledger} (h : BackedUp cfg s l.records C taken) (ht : Tracked cfg s g l)
    {steps : List (Step β)} (hok : Along Step.LsnAscending g steps) :
    BackedUp cfg (s.run cfg steps) (steps.foldl Ledger.step l).records C taken := by
  induction steps generalizing s g l with
  | nil => exact h
  | cons st steps ih => exact ih (h.step ht hok.1) (ht.step hok.1) hok.2

end BackedUp

/-! ## Reads at the backup -/

section Backup

variable {cfg : StoreConfig} {s : Db β} {g : Flat β} {H : List SegmentCheckpoint}

/-- After a commit, a chunk of a relation that no compaction has found deleted is read from the newest
record that has it. -/
theorem Anchored.getChunk_undropped (h : Anchored cfg s H) (hi : Inv cfg s g H .empty) {tag : ChunkTag}
    (hu : ∀ k ∈ s.folds cfg, deletedAt H k tag.relFork = false) :
    (s.getChunk cfg tag).1 = found ((newest (·.refAt cfg.dbId tag) H).bind fun r =>
      s.storage.chunks r.dbId r.ckpt tag) := by
  obtain ⟨old, new, hl⟩ := hi.layers
  obtain ⟨m, tikm, hbm, -, -⟩ := Db.baseManifest_of_layers hl
  have hhead : s.storage.chunks cfg.dbId s.timeline.headCkpt tag = none := by
    have hlive := hi.objects.live tag
    rwa [show DraftFrame.empty.containsChunk tag = false from rfl, Option.isSome_eq_false_iff,
      Option.isNone_iff_eq_none] at hlive
  rw [Db.getChunk, Db.probeHead_eq hi.draft hi.objects tag, hhead,
    ← hi.records.newest_objectOf tag fun _ he => he]
  dsimp only
  rcases hi.records.searchChunk tag with ⟨c, hn, hp | ⟨hp, hr⟩⟩ | ⟨hp, hr, hnone⟩
  · rw [hp, hn]
    rfl
  · rw [hp, hr, hn]
    rfl
  · rw [hp, hr]
    dsimp only
    rw [hbm]
    dsimp only
    -- the relation is not deleted at the base, up to which a compaction has come
    have hdel : deletedAt H s.timeline.baseCkpt tag.relFork = false := by
      rcases h.folded.exists_same with ⟨k, hk, hs⟩ | hblank
      · rw [← deletedAt_same hs]
        exact hu k hk
      · exact deletedAt_eq_false hblank _
    have hlookup : m.lookup tag =
        newest (·.refAt cfg.dbId tag) (upTo s.timeline.baseCkpt H) := by
      rw [(h.baseManifest hi.log hbm).1.chunks, hdel, if_neg (by simp), keptRef_of_undropped hu]
    rw [← newest_upTo hnone, hi.records.newest_objectOf tag fun e he => (mem_upTo.mp he).1, ← hlookup]
    cases m.lookup tag with
    | none => rfl
    | some r =>
      dsimp only [Option.bind_some]
      cases s.storage.chunks r.dbId r.ckpt tag <;> rfl

/-- The records and the draft have the chunks that were patched. -/
theorem Ledger.hasChunk_iff (tag : ChunkTag) (steps : List (Step β)) :
    ((∃ e ∈ (steps.foldl Ledger.step .fresh).records, e.containsChunk tag = true) ∨
      (steps.foldl Ledger.step .fresh).frame.containsChunk tag = true) ↔
    ∃ blockOffset data, .patchChunk tag blockOffset data ∈ steps := by
  induction steps using List.reverseRecOn with
  | nil => simp [Ledger.fresh, DraftFrame.containsChunk, DraftFrame.empty]
  | append_singleton steps st ih =>
    rw [List.foldl_append, List.foldl_cons, List.foldl_nil]
    generalize steps.foldl Ledger.step .fresh = l at ih ⊢
    cases st with
    | patchChunk tag' blockOffset data =>
      have hadd : (DraftBuffer.addChunk l.frame tag').containsChunk tag =
          (decide (tag = tag') || l.frame.containsChunk tag) := SortedSet.contains_add _ _ _
      rw [Ledger.step, hadd]
      by_cases ht : tag = tag'
      · subst ht
        exact iff_of_true (.inr (by simp)) ⟨blockOffset, data, by simp⟩
      · simp [ht, ih]
    | commit a =>
      have hsum : (a.summary l.head l.frame).containsChunk tag = l.frame.containsChunk tag := rfl
      have hempty : DraftFrame.empty.containsChunk tag = false := rfl
      simp [Ledger.step, or_and_right, exists_or, hsum, hempty, ih]
    | putMeta rf m =>
      have hadd : (DraftBuffer.addRelfork l.frame rf m).containsChunk tag =
          l.frame.containsChunk tag := rfl
      simpa [Ledger.step, hadd] using ih
    | _ => simpa [Ledger.step] using ih

theorem Inv.mem_folds_compactThrough {F : DraftFrame} (h : Inv cfg s g H F) {k target : Checkpoint}
    {now : ℤ} (hk : k ∈ s.folds cfg) : k ∈ (s.runCompactionThrough cfg target now).2.folds cfg := by
  obtain ⟨r, s', hs, -, ⟨rfl, -⟩ | ⟨x, hx, -⟩⟩ := h.runCompactionThrough target now
  · rw [hs]
    exact hk
  · rw [hs]
    exact (hx.mem_folds k).mpr (.inr hk)

/-- Later records of a run lie above the head. -/
theorem Tracked.records_append [Zero β] {l : Ledger} (h : Tracked cfg s g l) {steps : List (Step β)}
    (hok : Along Step.LsnAscending g steps) :
    ∃ new, (steps.foldl Ledger.step l).records = l.records ++ new ∧ ∀ e ∈ new, l.head < e.ckpt := by
  induction steps generalizing s g l with
  | nil => exact ⟨[], (List.append_nil _).symm, fun e he => absurd he List.not_mem_nil⟩
  | cons st steps ih =>
    obtain ⟨new, hnew, hlt⟩ := ih (h.step hok.1) hok.2
    rw [List.foldl_cons, hnew]
    cases st with
    | commit a =>
      have hl : l.head < a.ckpt := h.head ▸ hok.1.ordered
      refine ⟨[a.summary l.head l.frame] ++ new, by rw [Ledger.step, List.append_assoc], fun e he => ?_⟩
      rcases List.mem_append.mp he with he | he
      · rw [List.mem_singleton.mp he]
        exact hl
      · exact hl.trans (hlt e he)
    | _ => exact ⟨new, rfl, hlt⟩

theorem Db.getMeta_storage (s : Db β) (rf : RelFork) : (s.getMeta cfg rf).2.storage = s.storage := by
  have hbelow : ∀ top, (s.getMetaBelow cfg rf top).2.storage = s.storage := by
    intro top
    unfold getMetaBelow
    split
    · rfl
    · rfl
    · cases hm : s.baseManifest cfg with
      | error e => rfl
      | ok p =>
        obtain ⟨⟨tikm, hs, -⟩, -, -⟩ := baseManifest_sees hm
        dsimp only
        split <;> rw [hs]
  unfold getMeta
  split
  · rfl
  · rfl
  · split
    · rfl
    · exact hbelow _

/-- No step writes under a sealed prefix. -/
theorem Tracked.objectOf_step [Zero β] {l : Ledger} (h : Tracked cfg s g l) {st : Step β} (tag : ChunkTag) :
    ∀ e ∈ l.records, objectOf cfg (s.step cfg st).storage tag e = objectOf cfg s.storage tag e := by
  intro e he
  have hsame : ∀ S : Storage β, S.chunks = s.storage.chunks →
      objectOf cfg S tag e = objectOf cfg s.storage tag e := by
    intro S hS
    rw [objectOf, hS, objectOf]
  have hjob : ∀ job, (s.compaction cfg job).storage.chunks = s.storage.chunks := fun job => by
    rw [← Db.foldl_compactionEffects]
    exact (Db.foldl_apply_frame cfg s _).2
  cases st with
  | patchChunk tag' blockOffset data =>
    obtain ⟨s', ⟨m, t, rfl, -, -⟩, ⟨c, hp⟩ | ⟨e', hp⟩⟩ :=
      Db.patchChunk_cases cfg s .ok tag' blockOffset data
    · rw [Db.step, hp]
      exact objectOf_putChunk h.inv.log tag' tag c he
    · rw [Db.step, hp]
  | commit a =>
    obtain ⟨d, hd, -⟩ := DraftBuffer.drain_of_holds h.inv.draft
    exact hsame _ (by rw [Db.step, Db.runCommitProtocol_ok hd a]; rfl)
  | compact now => exact hsame _ (hjob ⟨none, now⟩)
  | compactThrough target now => exact hsame _ (hjob ⟨some target, now⟩)
  | restart tikmLost => exact hsame _ (by rw [Db.step, Db.restart_eq])
  | getChunk tag' =>
    have hr : Db.Reloaded cfg s (s.getChunk cfg tag').2 := Db.getChunk_reloaded s tag'
    obtain ⟨m, t, hs, -, -⟩ := hr
    exact hsame _ (by rw [Db.step, hs])
  | getMeta rf => exact hsame _ (by rw [Db.step, Db.getMeta_storage])
  | putMeta rf m => rfl
  | spill => rfl

/-- No run writes under a sealed prefix. -/
theorem Tracked.objectOf_run [Zero β] {l : Ledger} (h : Tracked cfg s g l)
    {steps : List (Step β)} (hok : Along Step.LsnAscending g steps) (tag : ChunkTag) :
    ∀ e ∈ l.records, objectOf cfg (s.run cfg steps).storage tag e = objectOf cfg s.storage tag e := by
  induction steps generalizing s g l with
  | nil => exact fun e _ => rfl
  | cons st steps ih =>
    intro e he
    have hst : Along Step.LsnAscending g [st] := ⟨hok.1, trivial⟩
    obtain ⟨new, hnew, -⟩ := h.records_append hst
    have hmem : e ∈ (l.step st).records := hnew ▸ List.mem_append_left _ he
    exact (ih (h.step hok.1) hok.2 e hmem).trans (h.objectOf_step tag e he)

/-- **A base backup settles what a recovery to it opens.** -/
theorem Tracked.backedUp [Zero β] {l : Ledger} (h : Tracked cfg s g l) {a : Db.CommitArgs}
    (hok : (Step.commit a).LsnAscending g) (now : ℤ) :
    let sC := s.step cfg (.commit a)
    let sB := sC.step cfg (.compactThrough a.ckpt now)
    BackedUp cfg sB (l.step (β := β) (.commit a)).records a.ckpt (sB.folds cfg) := by
  intro sC sB
  have hC := h.step hok
  have hhead : sC.timeline.headCkpt = a.ckpt := hC.inv.last.symm
  have hbase : sC.timeline.baseCkpt < a.ckpt := by
    obtain ⟨old, new, hl⟩ := h.inv.layers
    have hlt : s.timeline.headCkpt < a.ckpt := h.inv.last ▸ hok.ordered
    obtain ⟨d, hd, -⟩ := DraftBuffer.drain_of_holds h.inv.draft
    change (s.runCommitProtocol cfg .ok a).2.timeline.baseCkpt < a.ckpt
    rw [Db.runCommitProtocol_ok hd a]
    exact hl.base_le.trans_lt hlt
  obtain ⟨r, s', hs, hinv, ⟨-, hnone⟩ | ⟨x, hx, hall⟩⟩ := hC.inv.runCompactionThrough a.ckpt now
  · -- the record of the commit is stored, so that there is something to fold
    obtain ⟨old, new, hl⟩ := hC.inv.layers
    have hne : (l.step (β := β) (.commit a)).records ≠ [] := by simp [Ledger.step]
    have hstored := hl.stored_ne hne
    have hmem := List.getLast_mem hstored
    have hck : ((storedRecords (sC.storage.segments cfg.dbId)).getLast hstored).ckpt = a.ckpt := by
      rw [hl.suffix.getLast hstored, hC.inv.log.getLast_ckpt hne]
      exact hhead
    have hlt := hnone _ hmem (hck ▸ hbase)
    exact absurd hlt (hck ▸ lt_irrefl _)
  · have hsB : sB = s' := congrArg Prod.snd hs
    rw [hsB]
    have hle : s'.timeline.baseCkpt ≤ a.ckpt := by
      obtain ⟨old, new, hl⟩ := hinv.layers
      have hhead' : s'.timeline.headCkpt = a.ckpt := hinv.last.symm
      exact hhead' ▸ hl.base_le
    have hcov : ∀ e ∈ (l.step (β := β) (.commit a)).records, e.isBlank = false → e.ckpt ≤ a.ckpt →
        e.ckpt ≤ s'.timeline.baseCkpt := by
      intro e he hb hC
      refine (hx.range.upTo_iff e he hb).mpr ?_
      by_cases hlt : e.ckpt ≤ sC.timeline.baseCkpt
      · exact .inl hlt
      · exact .inr (hall e he hb (not_le.mp hlt) hC)
    exact ⟨hinv.last.le, hcov, ⟨_, (hx.mem_folds _).mpr (.inl rfl), hle,
      fun e he hb => ⟨fun hc => hc.trans hle, hcov e he hb⟩⟩, fun _ hk => hk, fun _ hk => .inl hk⟩

end Backup

/-! ## The anchor -/

section Anchor

variable [Zero β] {cfg : StoreConfig} {s : Db β}

omit [Zero β] in
theorem Log.upTo_of_head_le {H : List SegmentCheckpoint} {head k : Checkpoint} (h : Log H head)
    (hk : head ≤ k) : upTo k H = H :=
  List.filter_eq_self.mpr fun e he => decide_eq_true ((h.bounds e he).2.2.trans hk)

theorem along_append {ok : Flat β → Step β → Prop} {g : Flat β} {steps more : List (Step β)} :
    Along ok g (steps ++ more) ↔ Along ok g steps ∧ Along ok (steps.foldl Flat.step g) more := by
  induction steps generalizing g with
  | nil => exact (and_iff_right trivial).symm
  | cons st steps ih => rw [List.cons_append, Along, Along, ih, List.foldl_cons, and_assoc]

/-- The ledger right after a commit. -/
def ledgerAt (steps : List (Step β)) (a : Db.CommitArgs) : Ledger :=
  (steps.foldl Ledger.step .fresh).step (β := β) (.commit a)

/-- The database right after a commit. -/
def Db.committed (cfg : StoreConfig) (s : Db β) (steps : List (Step β)) (a : Db.CommitArgs) : Db β :=
  (s.run cfg steps).step cfg (.commit a)

variable {steps more : List (Step β)} {a : Db.CommitArgs} {now : ℤ}

theorem tracked_committed (hs : IsFresh cfg s)
    (hok : Along Step.LsnAscending Flat.fresh (steps ++ [.commit a])) :
    Tracked cfg (s.committed cfg steps a) ((steps ++ [Step.commit a]).foldl Flat.step Flat.fresh)
      (ledgerAt steps a) := by
  have h := (tracked_of_isFresh hs).run hok
  simp only [Db.run, List.foldl_append] at h ⊢
  exact h

/-- The metadata at a commit is what was last written before it. -/
theorem metaAt_committed (hs : IsFresh cfg s)
    (hok : Along Step.LsnAscending Flat.fresh (steps ++ [.commit a])) (rf : RelFork) :
    metaAt (ledgerAt steps a).records a.ckpt rf = lastMeta rf steps := by
  have hC := tracked_committed hs hok
  have hhead : (s.committed cfg steps a).timeline.headCkpt = a.ckpt := by
    rw [← hC.inv.last, List.foldl_append]
    rfl
  have h := hC.inv.metas rf
  rw [metas_foldl_step, lastMeta, newest_append_singleton] at h
  rw [metaAt, ← hhead, hC.inv.log.upTo_of_head_le le_rfl]
  exact h.symm

omit [Zero β] in
/-- A commit has recorded the chunks that were patched before it. -/
theorem newest_committed_eq_none_iff (dbId : UInt64) (tag : ChunkTag) :
    newest (·.refAt dbId tag) (ledgerAt steps a).records = none ↔
      ∀ blockOffset data, .patchChunk tag blockOffset data ∉ steps := by
  have hhas := Ledger.hasChunk_iff tag (steps ++ [Step.commit a])
  have hempty : (ledgerAt steps a).frame.containsChunk tag = false := rfl
  rw [List.foldl_append, List.foldl_cons, List.foldl_nil, ← ledgerAt, hempty,
    or_iff_left Bool.false_ne_true] at hhas
  rw [newest_refAt_eq_none_iff]
  constructor
  · intro hall blockOffset data hp
    obtain ⟨e, he, hc⟩ := hhas.mpr ⟨blockOffset, data, List.mem_append_left _ hp⟩
    rw [hall e he] at hc
    exact absurd hc (by simp)
  · intro hall e he
    by_contra hc
    obtain ⟨blockOffset, data, hp⟩ := hhas.mp ⟨e, he, by simpa using hc⟩
    rcases List.mem_append.mp hp with hp | hp
    · exact hall blockOffset data hp
    · exact absurd (List.mem_singleton.mp hp) (by simp)

/-- The manifest selected for a backup after a further run holds the state at its checkpoint. -/
theorem exists_selected (hs : IsFresh cfg s)
    (hok : Along Step.LsnAscending Flat.fresh
      (steps ++ [.commit a] ++ .compactThrough a.ckpt now :: more)) :
    let sB := (s.committed cfg steps a).step cfg (.compactThrough a.ckpt now)
    (∃ k ∈ sB.folds cfg, SameUpTo (ledgerAt steps a).records k a.ckpt) ∧
      ∃ k m, Db.newestBaseUpTo ((sB.run cfg more).storage.bases cfg.dbId) a.ckpt = some (k, m) ∧
        m.HoldsAt cfg (ledgerAt steps a).records (sB.folds cfg) a.ckpt := by
  intro sB
  obtain ⟨hokC, hokB, hokM⟩ := along_append.mp hok
  obtain ⟨hok₀, hokc, -⟩ := along_append.mp hokC
  have hC := tracked_committed hs hokC
  have hB := hC.step hokB
  have hback : BackedUp cfg sB (ledgerAt steps a).records a.ckpt (sB.folds cfg) :=
    ((tracked_of_isFresh hs).run hok₀).backedUp hokc now
  obtain ⟨k₀, hk₀, -, hsame⟩ := hback.selected
  obtain ⟨k, m, hsel, hm⟩ := (hback.run hB hokM).exists_holdsAt (hB.run hokM).anchored
  obtain ⟨new, hnew, hlt⟩ := hB.records_append hokM
  refine ⟨⟨k₀, hk₀, hsame⟩, k, m, hsel, (Manifest.holdsAt_append hlt).mp ?_⟩
  exact hnew ▸ hm

/-- A further run leaves the chunk objects alone that the records up to the commit refer to. -/
theorem chunks_of_refAt (hs : IsFresh cfg s)
    (hok : Along Step.LsnAscending Flat.fresh (steps ++ [.commit a] ++ more)) {tag : ChunkTag}
    {r : ChunkRef} (hr : newest (·.refAt cfg.dbId tag) (ledgerAt steps a).records = some r) :
    ((s.committed cfg steps a).run cfg more).storage.chunks r.dbId r.ckpt tag =
      (s.committed cfg steps a).storage.chunks r.dbId r.ckpt tag := by
  obtain ⟨hokC, hokM⟩ := along_append.mp hok
  obtain ⟨e, he, rfl⟩ := exists_of_newest_refAt hr
  exact (tracked_committed hs hokC).objectOf_run hokM tag e he

/-- **The anchor of a base backup.** After a commit of `C` and a compaction through it, and after any
further run, the base manifest selected for `C` holds every relation's metadata at `C`, and, of every
chunk whose relation is not deleted, the newest version up to `C` that no compaction had dropped. For
a relation that no compaction had found deleted the chunk objects that it refers to are still there,
with what a read right after the commit returns, and there is no reference only if the chunk was never
written. -/
theorem anchor_holds (hs : IsFresh cfg s)
    (hok : Along Step.LsnAscending Flat.fresh
      (steps ++ [.commit a] ++ .compactThrough a.ckpt now :: more)) :
    let sC := s.committed cfg steps a
    let H := (ledgerAt steps a).records
    let sB := sC.step cfg (.compactThrough a.ckpt now)
    let s' := sB.run cfg more
    ∃ m, s'.materializeBaseManifestAt cfg true a.ckpt =
        (.ok (), { s' with manifest := m, tikm := some m }) ∧
      (∀ rf, m.lookupRelforkMeta rf = lastMeta rf steps) ∧
      (∀ tag, (lastMeta tag.relFork steps).any (·.deleted) = false →
        m.lookup tag = keptRef cfg.dbId H (sB.folds cfg) a.ckpt tag) ∧
      ∀ tag, (∀ k ∈ sB.folds cfg, deletedAt H k tag.relFork = false) →
        found ((m.lookup tag).bind fun r => s'.storage.chunks r.dbId r.ckpt tag) =
          (sC.getChunk cfg tag).1 ∧
        (m.lookup tag = none ↔ ∀ blockOffset data, .patchChunk tag blockOffset data ∉ steps) := by
  intro sC H sB s'
  have hokC := (along_append.mp hok).1
  have hC := tracked_committed hs hokC
  obtain ⟨⟨k₀, hk₀, hsame⟩, k, m, hsel, hm⟩ := exists_selected hs hok
  refine ⟨m, ?_, fun rf => (hm.metas rf).trans (metaAt_committed hs hokC rf), fun tag hdel => ?_,
    fun tag hu => ?_⟩
  · rw [Db.materializeBaseManifestAt, if_neg (by simp), hsel]
  · rw [hm.chunks, deletedAt, metaAt_committed hs hokC, hdel, if_neg (by simp)]
  · have hdel : deletedAt H a.ckpt tag.relFork = false := by
      rw [← deletedAt_same hsame]
      exact hu k₀ hk₀
    have hhead : sC.timeline.headCkpt = a.ckpt := by
      rw [← hC.inv.last, List.foldl_append]
      rfl
    have hlookup : m.lookup tag = newest (·.refAt cfg.dbId tag) H := by
      rw [hm.chunks, hdel, if_neg (by simp), keptRef_of_undropped hu, ← hhead,
        hC.inv.log.upTo_of_head_le le_rfl]
    have hread := hC.anchored.getChunk_undropped hC.inv fun k hk =>
      hu k (hC.inv.mem_folds_compactThrough hk)
    -- the objects are those that the commit has sealed
    have hkept : ((newest (·.refAt cfg.dbId tag) H).bind fun r =>
        s'.storage.chunks r.dbId r.ckpt tag) = (newest (·.refAt cfg.dbId tag) H).bind fun r =>
        sC.storage.chunks r.dbId r.ckpt tag :=
      Option.bind_congr fun r hr => chunks_of_refAt hs hok hr
    rw [hlookup]
    exact ⟨(congrArg found hkept).trans hread.symm, newest_committed_eq_none_iff cfg.dbId tag⟩

/-- A relation that is deleted, folded, and created again before the backup. -/
def exampleRecreated : List (Step ℕ) :=
  [.patchChunk Manifest.exampleTag 0 [7], .putMeta Manifest.exampleTag.relFork ⟨1, false⟩,
    .commit ⟨⟨1, 100⟩, ⟨1, 90⟩, [], 0⟩, .putMeta Manifest.exampleTag.relFork ⟨1, true⟩,
    .commit ⟨⟨1, 200⟩, ⟨1, 190⟩, [], 0⟩, .compactThrough ⟨1, 200⟩ 0,
    .putMeta Manifest.exampleTag.relFork ⟨0, false⟩]

theorem anchor_exampleRecreated :
    let sB := (freshDb.committed exampleConfig exampleRecreated ⟨⟨1, 300⟩, ⟨1, 290⟩, [], 0⟩).step
      exampleConfig (.compactThrough ⟨1, 300⟩ 0)
    let s' := sB.run exampleConfig [.patchChunk Manifest.exampleTag 0 [8],
      .commit ⟨⟨1, 400⟩, ⟨1, 390⟩, [], 0⟩, .compactThrough ⟨1, 400⟩ 0]
    ∃ m, s'.materializeBaseManifestAt exampleConfig true ⟨1, 300⟩ =
        (.ok (), { s' with manifest := m, tikm := some m }) ∧
      m.lookupRelforkMeta Manifest.exampleTag.relFork = some ⟨0, false⟩ := by
  intro sB s'
  have hok : Along Step.LsnAscending Flat.fresh (exampleRecreated ++
      [.commit ⟨⟨1, 300⟩, ⟨1, 290⟩, [], 0⟩] ++ .compactThrough ⟨1, 300⟩ 0 ::
        [.patchChunk Manifest.exampleTag 0 [8], .commit ⟨⟨1, 400⟩, ⟨1, 390⟩, [], 0⟩,
          .compactThrough ⟨1, 400⟩ 0]) := by decide
  obtain ⟨m, hm, hmeta, -, -⟩ := anchor_holds isFresh_freshDb hok
  refine ⟨m, hm, ?_⟩
  rw [hmeta]
  rfl

end Anchor

end Tiko

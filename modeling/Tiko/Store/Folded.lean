import Tiko.Compaction.Snapshot
import Tiko.Store.Compact

/-!
# What compactions keep and drop

A compaction folds the next records into the base manifest and drops the chunks of the relations that
are deleted at its end. A relation that is created again later has lost its old chunks there, and only
there.

* `keptRef`: the newest version of a chunk up to a checkpoint, but for those that a compaction has
  dropped;
* `Manifest.HoldsAt`: the manifest holds the metadata at a checkpoint, and those versions; blank records
  do not matter (`Manifest.HoldsAt.same`), nor later ones (`Manifest.holdsAt_append`);
* `FoldedTo`: where the earlier compactions have ended;
* **`Manifest.HoldsAt.applySegments`**: folding the next records moves what a manifest holds to the new
  base.
-/

namespace Tiko

open Lib

/-! ## What a base manifest holds -/

/-- The metadata of a relation fork at a checkpoint. -/
def metaAt (H : List SegmentCheckpoint) (c : Checkpoint) (rf : RelFork) : Option RelForkMeta :=
  newest (·.relforkMeta rf) (upTo c H)

/-- Whether a relation fork is marked deleted at a checkpoint. -/
def deletedAt (H : List SegmentCheckpoint) (c : Checkpoint) (rf : RelFork) : Bool :=
  (metaAt H c rf).any (·.deleted)

/-- A compaction that ended at one of `folds`, up to `c`, found the relation fork deleted and dropped
what the record wrote to it. -/
def droppedAt (H : List SegmentCheckpoint) (folds : List Checkpoint) (c : Checkpoint) (rf : RelFork)
    (e : SegmentCheckpoint) : Bool :=
  folds.any fun k => decide (k ≤ c) && deletedAt H k rf && decide (e.ckpt ≤ k)

/-- The newest version of a chunk up to a checkpoint that no compaction has dropped. -/
def keptRef (dbId : UInt64) (H : List SegmentCheckpoint) (folds : List Checkpoint) (c : Checkpoint)
    (tag : ChunkTag) : Option ChunkRef :=
  newest (fun e => if droppedAt H folds c tag.relFork e then none else e.refAt dbId tag) (upTo c H)

/-- The manifest holds the metadata at `c`, and the versions at `c` of chunks whose relation is not
deleted. -/
structure Manifest.HoldsAt (cfg : StoreConfig) (H : List SegmentCheckpoint) (folds : List Checkpoint)
    (c : Checkpoint) (m : Manifest) : Prop where
  metas : ∀ rf, m.lookupRelforkMeta rf = metaAt H c rf
  chunks : ∀ tag, m.lookup tag =
    if deletedAt H c tag.relFork then none else keptRef cfg.dbId H folds c tag

/-- Two checkpoints with the same records up to them, but for blank ones. -/
def SameUpTo (H : List SegmentCheckpoint) (c c' : Checkpoint) : Prop :=
  ∀ e ∈ H, e.isBlank = false → (e.ckpt ≤ c ↔ e.ckpt ≤ c')

section HoldsAt

variable {cfg : StoreConfig} {H new l : List SegmentCheckpoint} {folds folds' : List Checkpoint}
  {base c c' : Checkpoint} {m : Manifest} {rf : RelFork} {tag : ChunkTag} {e : SegmentCheckpoint}

theorem droppedAt_iff : droppedAt H folds c rf e = true ↔
    ∃ k ∈ folds, k ≤ c ∧ deletedAt H k rf = true ∧ e.ckpt ≤ k := by
  simp only [droppedAt, List.any_eq_true, Bool.and_eq_true, decide_eq_true_eq, and_assoc]

theorem SameUpTo.symm (h : SameUpTo H c c') : SameUpTo H c' c := fun e he hb => (h e he hb).symm

/-- What lies between two such checkpoints. -/
theorem SameUpTo.of_between {k : Checkpoint} (h : SameUpTo H c c') (hk : c' ≤ k) (hkc : k ≤ c) :
    SameUpTo H k c :=
  fun e he hb => ⟨fun hle => hle.trans hkc, fun hle => ((h e he hb).mp hle).trans hk⟩

theorem newest_upTo_same {γ : Type} {f : SegmentCheckpoint → Option γ}
    (hf : ∀ e ∈ H, e.isBlank = true → f e = none) (h : SameUpTo H c c') :
    newest f (upTo c H) = newest f (upTo c' H) := by
  rw [upTo, upTo, newest_filter_eq, newest_filter_eq]
  refine newest_congr fun e he => ?_
  cases hb : e.isBlank with
  | true => simp [hf e he hb]
  | false => simp only [h e he hb]

theorem metaAt_same (h : SameUpTo H c c') (rf : RelFork) : metaAt H c rf = metaAt H c' rf :=
  newest_upTo_same (fun _ _ hb => SegmentCheckpoint.relforkMeta_of_isBlank hb rf) h

theorem deletedAt_same (h : SameUpTo H c c') (rf : RelFork) : deletedAt H c rf = deletedAt H c' rf := by
  rw [deletedAt, metaAt_same h, deletedAt]

theorem keptRef_congr (h : SameUpTo H c c') (hd : ∀ e ∈ H, e.isBlank = false →
    droppedAt H folds c tag.relFork e = droppedAt H folds' c' tag.relFork e) (dbId : UInt64) :
    keptRef dbId H folds c tag = keptRef dbId H folds' c' tag := by
  rw [keptRef, newest_upTo_same (fun e _ hb => by rw [refAt_of_isBlank dbId tag hb, ite_self]) h,
    keptRef]
  refine newest_congr fun e he => ?_
  cases hb : e.isBlank with
  | true => rw [refAt_of_isBlank dbId tag hb, ite_self, ite_self]
  | false => rw [hd e (mem_upTo.mp he).1 hb]

/-- A compaction between two such checkpoints drops nothing of a relation that is not deleted. -/
theorem droppedAt_of_same (h : SameUpTo H c c') (hdel : deletedAt H c rf = false)
    (hd : droppedAt H folds c rf e = true) : droppedAt H folds c' rf e = true := by
  obtain ⟨k, hk, hkc, hkd, hek⟩ := droppedAt_iff.mp hd
  refine droppedAt_iff.mpr ⟨k, hk, ?_, hkd, hek⟩
  by_contra hlt
  rw [deletedAt_same (h.of_between (not_le.mp hlt).le hkc), hdel] at hkd
  exact absurd hkd (by simp)

/-- **Blank records do not matter.** -/
theorem Manifest.HoldsAt.same (h : m.HoldsAt cfg H folds c) (hs : SameUpTo H c c') : m.HoldsAt cfg H folds c' := by
  refine ⟨fun rf => (h.metas rf).trans (metaAt_same hs rf), fun tag => ?_⟩
  rw [h.chunks, ← deletedAt_same hs]
  cases hdel : deletedAt H c tag.relFork with
  | true => rfl
  | false =>
    refine keptRef_congr hs (fun e _ _ => ?_) cfg.dbId
    rw [Bool.eq_iff_iff]
    exact ⟨droppedAt_of_same hs hdel, droppedAt_of_same hs.symm (deletedAt_same hs _ ▸ hdel)⟩

/-- A further compaction, above a checkpoint or among blank records, does not matter. -/
theorem Manifest.HoldsAt.insert (h : m.HoldsAt cfg H folds c) (hmem : ∀ k, k ∈ folds' ↔ k = c' ∨ k ∈ folds)
    (hc : c < c' ∨ SameUpTo H c' c) : m.HoldsAt cfg H folds' c := by
  refine ⟨h.metas, fun tag => ?_⟩
  rw [h.chunks]
  cases hdel : deletedAt H c tag.relFork with
  | true => rfl
  | false =>
    refine keptRef_congr (fun _ _ _ => .rfl) (fun e _ _ => ?_) cfg.dbId
    rw [Bool.eq_iff_iff, droppedAt_iff, droppedAt_iff]
    refine ⟨fun ⟨k, hk, hd⟩ => ⟨k, (hmem k).mpr (.inr hk), hd⟩, fun ⟨k, hk, hkc, hkd, hek⟩ => ?_⟩
    refine ⟨k, ((hmem k).mp hk).resolve_left ?_, hkc, hkd, hek⟩
    rintro rfl
    rcases hc with hlt | hs
    · exact absurd hkc (not_le.mpr hlt)
    · rw [deletedAt_same hs, hdel] at hkd
      exact absurd hkd (by simp)

theorem metaAt_append {k : Checkpoint} (hk : ∀ e ∈ new, k < e.ckpt) (rf : RelFork) :
    metaAt (H ++ new) k rf = metaAt H k rf := by
  rw [metaAt, upTo_append hk, metaAt]

theorem deletedAt_append {k : Checkpoint} (hk : ∀ e ∈ new, k < e.ckpt) (rf : RelFork) :
    deletedAt (H ++ new) k rf = deletedAt H k rf := by
  rw [deletedAt, metaAt_append hk, deletedAt]

theorem keptRef_append (hnew : ∀ e ∈ new, c < e.ckpt) (dbId : UInt64) :
    keptRef dbId (H ++ new) folds c tag = keptRef dbId H folds c tag := by
  rw [keptRef, keptRef, upTo_append hnew]
  refine newest_congr fun e _ => ?_
  have hd : droppedAt (H ++ new) folds c tag.relFork e = droppedAt H folds c tag.relFork e := by
    rw [Bool.eq_iff_iff, droppedAt_iff, droppedAt_iff]
    refine exists_congr fun k => and_congr_right fun _ => and_congr_right fun hk => ?_
    rw [deletedAt_append fun e he => hk.trans_lt (hnew e he)]
  rw [hd]

/-- Later records do not matter. -/
theorem Manifest.holdsAt_append (hnew : ∀ e ∈ new, c < e.ckpt) :
    m.HoldsAt cfg (H ++ new) folds c ↔ m.HoldsAt cfg H folds c := by
  constructor
  · intro h
    refine ⟨fun rf => (h.metas rf).trans (metaAt_append hnew rf), fun tag => ?_⟩
    rw [h.chunks, deletedAt_append hnew, keptRef_append hnew]
  · intro h
    refine ⟨fun rf => (h.metas rf).trans (metaAt_append hnew rf).symm, fun tag => ?_⟩
    rw [h.chunks, deletedAt_append hnew, keptRef_append hnew]

/-- A relation that no compaction has found deleted has all its versions. -/
theorem keptRef_of_undropped (h : ∀ k ∈ folds, deletedAt H k tag.relFork = false) (dbId : UInt64) :
    keptRef dbId H folds c tag = newest (·.refAt dbId tag) (upTo c H) := by
  refine newest_congr fun e _ => if_neg fun hd => ?_
  obtain ⟨k, hk, -, hkd, -⟩ := droppedAt_iff.mp hd
  rw [h k hk] at hkd
  exact absurd hkd (by simp)

theorem newest_refAt_eq_none_iff (dbId : UInt64) :
    newest (·.refAt dbId tag) H = none ↔ ∀ e ∈ H, e.containsChunk tag = false := by
  rw [newest_eq_none_iff]
  refine forall₂_congr fun e _ => ?_
  rw [← Option.not_isSome_iff_eq_none, SegmentCheckpoint.refAt_isSome, Bool.not_eq_true]

theorem metaAt_eq_none (h : ∀ e ∈ H, e.isBlank = false → c < e.ckpt) (rf : RelFork) :
    metaAt H c rf = none := by
  refine newest_eq_none_iff.mpr fun e he => ?_
  obtain ⟨heH, hle⟩ := mem_upTo.mp he
  refine SegmentCheckpoint.relforkMeta_of_isBlank ?_ rf
  by_contra hb
  exact absurd hle (not_le.mpr (h e heH (by simpa using hb)))

/-- Where nothing has been recorded, nothing is deleted. -/
theorem deletedAt_eq_false (h : ∀ e ∈ H, e.isBlank = false → c < e.ckpt) (rf : RelFork) :
    deletedAt H c rf = false := by
  rw [deletedAt, metaAt_eq_none h]
  rfl

/-- The empty manifest holds the state where nothing has been recorded. -/
theorem holdsAt_empty (h : ∀ e ∈ H, e.isBlank = false → c < e.ckpt) : Manifest.empty.HoldsAt cfg H folds c := by
  refine ⟨fun rf => (metaAt_eq_none h rf).symm, fun tag => ?_⟩
  rw [deletedAt_eq_false h, if_neg (by simp)]
  refine Eq.symm (newest_eq_none_iff.mpr fun e he => ?_)
  obtain ⟨heH, hle⟩ := mem_upTo.mp he
  refine ite_eq_left_iff.mpr fun _ => refAt_of_isBlank _ tag ?_
  by_contra hb
  exact absurd hle (not_le.mpr (h e heH (by simpa using hb)))

end HoldsAt

/-! ## Folds -/

section Fold

variable {cfg : StoreConfig} {H l : List SegmentCheckpoint} {folds folds' : List Checkpoint}
  {base c : Checkpoint} {m : Manifest}

/-- What the records up to the new base hold is what the folded and the old ones hold. -/
theorem Extends.newest_upTo {γ : Type} {f : SegmentCheckpoint → Option γ} (h : Extends H l base c)
    (hf : ∀ e, e.isBlank = true → f e = none) (hasc : Ascending SegmentCheckpoint.ckpt H) :
    newest f (upTo c H) = (newest f l).or (newest f (upTo base H)) := by
  have hup : ∀ c, Ascending SegmentCheckpoint.ckpt (upTo c H) :=
    fun c => hasc.sublist List.filter_sublist
  have hjoined : Ascending SegmentCheckpoint.ckpt (upTo base H ++ l) :=
    List.pairwise_append.mpr ⟨hup _, h.ascending, fun a ha b hb =>
      (mem_upTo.mp ha).2.trans_lt (h.mem b hb).2⟩
  have hne : ∀ e, (f e).isSome = true → e.isBlank = false := by
    intro e hs
    by_contra hb
    rw [hf e (by simpa using hb)] at hs
    exact absurd hs (by simp)
  rw [← newest_append]
  refine newest_of_lower hjoined (hup _) (fun e he hs => ?_) fun e he hs => ?_
  · obtain ⟨heH, hle⟩ := mem_upTo.mp he
    rcases (h.upTo_iff e heH (hne e hs)).mp hle with hb | hl
    · exact List.mem_append_left _ (mem_upTo.mpr ⟨heH, hb⟩)
    · exact List.mem_append_right _ hl
  · rcases List.mem_append.mp he with he | he
    · obtain ⟨heH, hle⟩ := mem_upTo.mp he
      exact mem_upTo.mpr ⟨heH, (h.upTo_iff e heH (hne e hs)).mpr (.inl hle)⟩
    · have heH := (h.mem e he).1
      exact mem_upTo.mpr ⟨heH, (h.upTo_iff e heH (hne e hs)).mpr (.inr he)⟩

/-- The earlier compactions of a database: none has gone beyond the base, but over blank records, and
one of them has come up to it. -/
structure FoldedTo (H : List SegmentCheckpoint) (folds : List Checkpoint) (base : Checkpoint) : Prop where
  lt : ∀ k ∈ folds, ∀ e ∈ H, e.isBlank = false → base < e.ckpt → k < e.ckpt
  reached : (∃ k ∈ folds, ∀ e ∈ H, e.isBlank = false → e.ckpt ≤ base → e.ckpt ≤ k) ∨
    ∀ e ∈ H, e.isBlank = false → base < e.ckpt

namespace FoldedTo

theorem le_base (h : FoldedTo H folds base) {k : Checkpoint} (hk : k ∈ folds) {e : SegmentCheckpoint}
    (he : e ∈ H) (hb : e.isBlank = false) (hle : e.ckpt ≤ k) : e.ckpt ≤ base := by
  by_contra hlt
  exact absurd hle (not_le.mpr (h.lt k hk e he hb (not_le.mp hlt)))

/-- A compaction that has gone beyond the base has gone over blank records. -/
theorem same_of_base_le (h : FoldedTo H folds base) {k : Checkpoint} (hk : k ∈ folds) (hle : base ≤ k) :
    SameUpTo H k base :=
  fun _ he hb => ⟨h.le_base hk he hb, fun hc => hc.trans hle⟩

/-- A compaction that has gone beyond an extended base has gone over blank records. -/
theorem same_of_lt (h : FoldedTo H folds base) (hx : Extends H l base c) {k : Checkpoint}
    (hk : k ∈ folds) (hlt : c < k) : SameUpTo H k c :=
  fun e he hb => ⟨fun hle => (hx.upTo_iff e he hb).mpr (.inl (h.le_base hk he hb hle)),
    fun hle => hle.trans hlt.le⟩

/-- A compaction that has come up to the base, unless nothing was there to fold. -/
theorem exists_same (h : FoldedTo H folds base) : (∃ k ∈ folds, SameUpTo H k base) ∨
    ∀ e ∈ H, e.isBlank = false → base < e.ckpt :=
  h.reached.imp_left fun ⟨k, hk, hall⟩ =>
    ⟨k, hk, fun e he hb => ⟨h.le_base hk he hb, hall e he hb⟩⟩

/-- What has been dropped at the base is what has been dropped at the new one, of a relation that is
deleted at neither. -/
theorem droppedAt_eq (h : FoldedTo H folds base) (hx : Extends H l base c)
    (hmem : ∀ k, k ∈ folds' ↔ k = c ∨ k ∈ folds) {rf : RelFork} (hc : deletedAt H c rf = false)
    (hbase : deletedAt H base rf = false) (e : SegmentCheckpoint) :
    droppedAt H folds' c rf e = droppedAt H folds base rf e := by
  rw [Bool.eq_iff_iff, droppedAt_iff, droppedAt_iff]
  refine ⟨fun ⟨k, hk, hkc, hkd, hek⟩ => ?_, fun ⟨k, hk, hkb, hkd, hek⟩ => ?_⟩
  · rcases (hmem k).mp hk with rfl | hk
    · rw [hc] at hkd
      exact absurd hkd (by simp)
    · refine ⟨k, hk, ?_, hkd, hek⟩
      by_contra hlt
      rw [deletedAt_same (h.same_of_base_le hk (not_le.mp hlt).le), hbase] at hkd
      exact absurd hkd (by simp)
  · refine ⟨k, (hmem k).mpr (.inr hk), ?_, hkd, hek⟩
    by_contra hlt
    rw [deletedAt_same (h.same_of_lt hx hk (not_le.mp hlt)), hc] at hkd
    exact absurd hkd (by simp)

/-- Nothing that is folded now has been dropped before. -/
theorem not_droppedAt (h : FoldedTo H folds base) (hx : Extends H l base c)
    (hmem : ∀ k, k ∈ folds' ↔ k = c ∨ k ∈ folds) {rf : RelFork} (hc : deletedAt H c rf = false)
    {e : SegmentCheckpoint} (he : e ∈ l) (hb : e.isBlank = false) :
    droppedAt H folds' c rf e = false := by
  rw [← Bool.not_eq_true, droppedAt_iff]
  rintro ⟨k, hk, hkc, hkd, hek⟩
  rcases (hmem k).mp hk with rfl | hk
  · rw [hc] at hkd
    exact absurd hkd (by simp)
  · exact absurd hek (not_le.mpr (h.lt k hk e (hx.mem e he).1 hb (hx.mem e he).2))

/-- The base may move over blank records. -/
theorem same (h : FoldedTo H folds base) (hs : SameUpTo H base c) : FoldedTo H folds c := by
  refine ⟨fun k hk e he hb hlt => h.lt k hk e he hb (not_le.mp fun hle => ?_), ?_⟩
  · exact absurd ((hs e he hb).mp hle) (not_le.mpr hlt)
  · rcases h.reached with ⟨k, hk, hall⟩ | hnone
    · exact .inl ⟨k, hk, fun e he hb hle => hall e he hb ((hs e he hb).mpr hle)⟩
    · exact .inr fun e he hb => not_le.mp fun hle =>
        absurd ((hs e he hb).mpr hle) (not_le.mpr (hnone e he hb))

end FoldedTo

/-- What a manifest refers to is a record up to its checkpoint. -/
theorem Manifest.HoldsAt.exists_of_lookup (h : m.HoldsAt cfg H folds base) {tag : ChunkTag}
    {b : ChunkRef} (hb : m.lookup tag = some b) :
    ∃ o ∈ H, o.ckpt ≤ base ∧ o.chunkRef cfg.dbId = b := by
  rw [h.chunks] at hb
  split_ifs at hb
  obtain ⟨o, ho, hro⟩ := List.exists_of_findSome?_eq_some hb
  obtain ⟨hoH, hle⟩ := mem_upTo.mp (List.mem_reverse.mp ho)
  rw [SegmentCheckpoint.refAt] at hro
  split_ifs at hro
  exact ⟨o, hoH, hle, Option.some.inj hro⟩

/-- **Folding the next records moves what a manifest holds to the new base.** -/
theorem Manifest.HoldsAt.applySegments (h : m.HoldsAt cfg H folds base)
    (hasc : Ascending SegmentCheckpoint.ckpt H)
    (hlsn : H.Pairwise fun a b => a.prevCkpt.lsn.toNat < b.prevCkpt.lsn.toNat)
    (hf : FoldedTo H folds base) (hx : Extends H l base c)
    (hmem : ∀ k, k ∈ folds' ↔ k = c ∨ k ∈ folds) (now : ℤ) :
    (m.applySegments cfg.sort l cfg.dbId now).HoldsAt cfg H folds' c := by
  have hmeta : ∀ rf, (m.mergedMeta l).lookup rf = metaAt H c rf := fun rf => by
    rw [Manifest.lookup_mergedMeta, h.metas, metaAt, metaAt,
      hx.newest_upTo (fun e he => SegmentCheckpoint.relforkMeta_of_isBlank he rf) hasc]
  refine ⟨hmeta, fun tag => ?_⟩
  have hisdel : Manifest.isDeleted (m.mergedMeta l) tag.relFork = deletedAt H c tag.relFork := by
    rw [Manifest.isDeleted, hmeta, deletedAt]
  cases hdel : deletedAt H c tag.relFork with
  | true =>
    rw [if_pos rfl, Manifest.lookup, Manifest.applySegments, SortedMap.lookup_filter, hisdel, hdel]
    cases (SortedMap.merge Manifest.newerRef m.chunks _).lookup tag <;> rfl
  | false =>
    rw [if_neg (by simp), Manifest.lookup_applySegments_of_tagOrdered cfg.sort now (hisdel.trans hdel)
        (fun last hlast => tagOrdered_of_refs hasc hlsn hx.ascending hx.mem
          (fun b hb => h.exists_of_lookup hb) hlast),
      Manifest.resolveChunk, ← SegmentCheckpoint.newest_refAt, keptRef,
      hx.newest_upTo (f := fun e => if droppedAt H folds' c tag.relFork e then none
        else e.refAt cfg.dbId tag)
        (fun e he => by rw [refAt_of_isBlank cfg.dbId tag he, ite_self]) hasc]
    congr 1
    · refine newest_congr fun e he => ?_
      cases hb : e.isBlank with
      | true => rw [refAt_of_isBlank cfg.dbId tag hb, ite_self]
      | false => rw [hf.not_droppedAt hx hmem hdel he hb, if_neg (by simp)]
    · rw [h.chunks]
      cases hbase : deletedAt H base tag.relFork with
      | false =>
        rw [if_neg (by simp), keptRef]
        refine newest_congr fun e _ => ?_
        rw [hf.droppedAt_eq hx hmem hdel hbase]
      | true =>
        -- the compaction that came up to the base has dropped the old versions
        rw [if_pos rfl, eq_comm, newest_eq_none_iff]
        intro e he
        obtain ⟨heH, hle⟩ := mem_upTo.mp he
        cases hb : e.isBlank with
        | true => rw [refAt_of_isBlank cfg.dbId tag hb, ite_self]
        | false =>
          rcases hf.exists_same with ⟨k, hk, hs⟩ | hnone
          · refine if_pos (droppedAt_iff.mpr ⟨k, (hmem k).mpr (.inr hk), ?_, ?_, (hs e heH hb).mpr hle⟩)
            · by_contra hlt
              rw [← deletedAt_same hs, deletedAt_same (hf.same_of_lt hx hk (not_le.mp hlt)), hdel] at hbase
              exact absurd hbase (by simp)
            · rw [deletedAt_same hs, hbase]
          · exact absurd hle (not_le.mpr (hnone e heH hb))

end Fold

end Tiko

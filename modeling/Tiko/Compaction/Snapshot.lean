import Tiko.Store.Log

/-!
# Manifests as snapshots of the log

Processes see manifests of different ages. Each of them is a snapshot of the log: it holds the records
up to its own checkpoint.

* `Snapshot cfg H m`: the manifest `m` holds what the records of `H` up to its checkpoint have written,
  of chunks whose relation is not deleted;
* `Covers H k m`: nothing of `H` lies between the checkpoint of `m` and `k` but blank records, so `m`
  serves as the base manifest at `k`;
* `Folding H base l`: the records `l` are the next ones above `base`;
* **`Snapshot.applySegments`**: folding the next records into a snapshot gives a snapshot.
-/

namespace Tiko

open Lib

variable {cfg : StoreConfig} {H : List SegmentCheckpoint} {m : Manifest} {head : Checkpoint}

/-- No record has marked the relation fork deleted. -/
def Live (H : List SegmentCheckpoint) (rf : RelFork) : Prop :=
  ∀ e ∈ H, ∀ md, e.relforkMeta rf = some md → md.deleted = false

theorem Live.left {l : List SegmentCheckpoint} {rf : RelFork} (h : Live (H ++ l) rf) : Live H rf :=
  fun e he => h e (List.mem_append_left _ he)

/-- The manifest holds the records up to its checkpoint. -/
structure Snapshot (cfg : StoreConfig) (H : List SegmentCheckpoint) (m : Manifest) : Prop where
  header : m.checkpoint = default ∨ ∃ e ∈ H, e.isBlank = false ∧ e.ckpt = m.checkpoint
  metas : ∀ rf, m.lookupRelforkMeta rf = newest (·.relforkMeta rf) (upTo m.checkpoint H)
  chunks : ∀ tag, Live H tag.relFork →
    m.lookup tag = newest (·.refAt cfg.dbId tag) (upTo m.checkpoint H)

/-- The manifest serves as the base manifest at `k`. -/
structure Covers (H : List SegmentCheckpoint) (k : Checkpoint) (m : Manifest) : Prop where
  header_le : m.checkpoint ≤ k
  old_le : ∀ e ∈ H, e.isBlank = false → e.ckpt ≤ k → e.ckpt ≤ m.checkpoint

theorem covers_self (H : List SegmentCheckpoint) (m : Manifest) : Covers H m.checkpoint m :=
  ⟨le_rfl, fun _ _ _ h => h⟩

/-! ## Growing logs -/

theorem upTo_eq_nil {c : Checkpoint} (h : ∀ e ∈ H, c < e.ckpt) : upTo c H = [] :=
  List.filter_eq_nil_iff.mpr fun e he => by simpa using h e he

theorem upTo_append {c : Checkpoint} {new : List SegmentCheckpoint}
    (h : ∀ e ∈ new, c < e.ckpt) : upTo c (H ++ new) = upTo c H := by
  have hnil : (new.filter fun e => decide (e.ckpt ≤ c)) = [] := upTo_eq_nil h
  rw [upTo, List.filter_append, hnil, List.append_nil]
  rfl

theorem Snapshot.header_le (h : Snapshot cfg H m) (hlog : Log H head) : m.checkpoint ≤ head := by
  rcases h.header with hd | ⟨e, he, -, hc⟩
  · rw [hd]
    exact hlog.default_le
  · rw [← hc]
    exact (hlog.bounds e he).2.2

theorem Snapshot.append (h : Snapshot cfg H m) (hlog : Log H head) {new : List SegmentCheckpoint}
    (hnew : ∀ e ∈ new, head < e.ckpt) : Snapshot cfg (H ++ new) m := by
  have hup : upTo m.checkpoint (H ++ new) = upTo m.checkpoint H :=
    upTo_append fun e he => (h.header_le hlog).trans_lt (hnew e he)
  refine ⟨h.header.imp_right fun ⟨e, he, hc⟩ => ⟨e, List.mem_append_left _ he, hc⟩, fun rf => ?_,
    fun tag hlive => ?_⟩
  · rw [hup]
    exact h.metas rf
  · rw [hup]
    exact h.chunks tag hlive.left

theorem Covers.append {k : Checkpoint} (h : Covers H k m) (hk : k ≤ head)
    {new : List SegmentCheckpoint} (hnew : ∀ e ∈ new, head < e.ckpt) : Covers (H ++ new) k m := by
  refine ⟨h.header_le, fun e he hb hle => ?_⟩
  rcases List.mem_append.mp he with he | he
  · exact h.old_le e he hb hle
  · exact absurd (hk.trans_lt (hnew e he)) (not_lt.mpr hle)

theorem snapshot_empty (cfg : StoreConfig) (hlog : Log H head) : Snapshot cfg H .empty := by
  have hup : upTo Manifest.empty.checkpoint H = [] := upTo_eq_nil fun e he => hlog.default_lt he
  refine ⟨.inl rfl, fun rf => ?_, fun tag _ => ?_⟩
  · rw [hup]
    rfl
  · rw [hup]
    rfl

/-! ## Folding the next records -/

/-- The next records above a base: ascending, and closed downwards up to blank ones. -/
structure Folding (H : List SegmentCheckpoint) (base : Checkpoint) (l : List SegmentCheckpoint) :
    Prop where
  ascending : Ascending SegmentCheckpoint.ckpt l
  mem : ∀ e ∈ l, e ∈ H ∧ base < e.ckpt
  closed : ∀ e ∈ H, e.isBlank = false → base < e.ckpt → e ∈ l ∨ ∀ x ∈ l, x.ckpt < e.ckpt

theorem Folding.append {base : Checkpoint} {l new : List SegmentCheckpoint} (h : Folding H base l)
    (hlog : Log H head) (hnew : ∀ e ∈ new, head < e.ckpt) : Folding (H ++ new) base l := by
  refine ⟨h.ascending, fun e he => ⟨List.mem_append_left _ (h.mem e he).1, (h.mem e he).2⟩,
    fun e he hb hlt => ?_⟩
  rcases List.mem_append.mp he with he | he
  · exact h.closed e he hb hlt
  · exact .inr fun x hx => ((hlog.bounds x (h.mem x hx).1).2.2).trans_lt (hnew e he)

section Fold

variable {base : Checkpoint} {l : List SegmentCheckpoint}

theorem le_lastCkpt_header (hcov : Covers H base m) (hf : Folding H base l) :
    m.checkpoint ≤ m.lastCkpt l := by
  rcases lastCkpt_spec m l with ⟨e, he, -, hc⟩ | ⟨-, hc⟩
  · rw [← hc]
    exact hcov.header_le.trans (hf.mem e he).2.le
  · rw [hc]

/-- What a fold has to hold is what the records and the old manifest hold. -/
theorem newest_upTo_lastCkpt {γ : Type} {f : SegmentCheckpoint → Option γ}
    (hblank : ∀ e, e.isBlank = true → f e = none) (hasc : Ascending SegmentCheckpoint.ckpt H)
    (hcov : Covers H base m) (hf : Folding H base l) :
    newest f (upTo (m.lastCkpt l) H) = (newest f l).or (newest f (upTo m.checkpoint H)) := by
  have hupAsc : ∀ c, Ascending SegmentCheckpoint.ckpt (upTo c H) :=
    fun c => hasc.sublist List.filter_sublist
  have hjoined : Ascending SegmentCheckpoint.ckpt (upTo m.checkpoint H ++ l) :=
    List.pairwise_append.mpr ⟨hupAsc _, hf.ascending, fun a ha b hb =>
      ((mem_upTo.mp ha).2.trans hcov.header_le).trans_lt (hf.mem b hb).2⟩
  have hnotBlank : ∀ e, (f e).isSome = true → e.isBlank = false := by
    intro e hs
    by_contra hb
    rw [hblank e (by simpa using hb)] at hs
    exact absurd hs (by simp)
  rw [← newest_append]
  refine newest_of_lower hjoined (hupAsc _) (fun e he hs => ?_) fun e he hs => ?_
  · -- a record up to the new checkpoint is old, or one of the folded ones
    obtain ⟨heH, hle⟩ := mem_upTo.mp he
    by_cases hbase : e.ckpt ≤ base
    · exact List.mem_append_left _ (mem_upTo.mpr ⟨heH, hcov.old_le e heH (hnotBlank e hs) hbase⟩)
    · refine List.mem_append_right _ ((hf.closed e heH (hnotBlank e hs)
        (not_le.mp hbase)).resolve_right fun hall => ?_)
      rcases lastCkpt_spec m l with ⟨x, hx, -, hc⟩ | ⟨-, hc⟩
      · exact absurd (hall x hx) (not_lt.mpr (hc ▸ hle))
      · exact hbase (hle.trans (hc ▸ hcov.header_le))
  · rcases List.mem_append.mp he with he | he
    · obtain ⟨heH, hle⟩ := mem_upTo.mp he
      exact mem_upTo.mpr ⟨heH, hle.trans (le_lastCkpt_header hcov hf)⟩
    · exact mem_upTo.mpr ⟨(hf.mem e he).1, le_lastCkpt hf.ascending he (hnotBlank e hs)⟩

/-- The versions of a chunk along a fold are ordered by the LSN of their prefixes, when the old manifest
refers to a record up to the base. -/
theorem tagOrdered_of_refs (hasc : Ascending SegmentCheckpoint.ckpt H)
    (hlsn : H.Pairwise fun a b => a.prevCkpt.lsn.toNat < b.prevCkpt.lsn.toNat)
    (hl : Ascending SegmentCheckpoint.ckpt l) (hmem : ∀ e ∈ l, e ∈ H ∧ base < e.ckpt) {dbId : UInt64}
    {tag : ChunkTag} {r : Option ChunkRef}
    (hr : ∀ b, r = some b → ∃ o ∈ H, o.ckpt ≤ base ∧ o.chunkRef dbId = b) {last : SegmentCheckpoint}
    (hlast : l.reverse.find? (·.containsChunk tag) = some last) :
    Manifest.TagOrdered r l dbId tag last := by
  have hlastl : last ∈ l := List.mem_reverse.mp (List.mem_of_find?_eq_some hlast)
  refine .inl ⟨fun b hb => ?_, fun e he hc => ?_⟩
  · -- the base refers to an older record
    obtain ⟨o, ho, hle, hro⟩ := hr b hb
    rw [← hro]
    exact hasc.rel_of_lt hlsn ho (hmem last hlastl).1 (hle.trans_lt (hmem last hlastl).2)
  · by_cases heq : e = last
    · exact .inr (by rw [heq])
    · refine .inl (hasc.rel_of_lt hlsn (hmem e he).1 (hmem last hlastl).1 ?_)
      exact lt_of_le_of_ne (le_of_find?_reverse hl hlast he hc)
        fun hk => heq (hl.eq_of_key_eq he hlastl hk)

/-- What a chunk's newest reference refers to. -/
theorem exists_of_newest_refAt {dbId : UInt64} {tag : ChunkTag} {b : ChunkRef}
    (h : newest (·.refAt dbId tag) l = some b) : ∃ o ∈ l, o.chunkRef dbId = b := by
  obtain ⟨o, ho, hro⟩ := List.exists_of_findSome?_eq_some h
  rw [SegmentCheckpoint.refAt] at hro
  split_ifs at hro
  exact ⟨o, List.mem_reverse.mp ho, Option.some.inj hro⟩

/-- The versions of a chunk of a live relation are ordered along a fold. -/
theorem tagOrdered_of_folding (h : Snapshot cfg H m) (hasc : Ascending SegmentCheckpoint.ckpt H)
    (hlsn : H.Pairwise fun a b => a.prevCkpt.lsn.toNat < b.prevCkpt.lsn.toNat)
    (hcov : Covers H base m) (hf : Folding H base l) {tag : ChunkTag} (hlive : Live H tag.relFork)
    {last : SegmentCheckpoint} (hlast : l.reverse.find? (·.containsChunk tag) = some last) :
    Manifest.TagOrdered (m.lookup tag) l cfg.dbId tag last := by
  refine tagOrdered_of_refs hasc hlsn hf.ascending hf.mem (fun b hb => ?_) hlast
  rw [h.chunks tag hlive] at hb
  obtain ⟨o, ho, hro⟩ := exists_of_newest_refAt hb
  obtain ⟨hoH, hole⟩ := mem_upTo.mp ho
  exact ⟨o, hoH, hole.trans hcov.header_le, hro⟩

theorem isDeleted_of_live (h : Snapshot cfg H m) (hf : Folding H base l) {rf : RelFork}
    (hlive : Live H rf) : Manifest.isDeleted (m.mergedMeta l) rf = false := by
  rw [Manifest.isDeleted, Manifest.lookup_mergedMeta, h.metas, ← newest_append]
  cases hn : newest (·.relforkMeta rf) (upTo m.checkpoint H ++ l) with
  | none => rfl
  | some md =>
    obtain ⟨e, he, hmd⟩ := List.exists_of_findSome?_eq_some hn
    rcases List.mem_append.mp (List.mem_reverse.mp he) with he | he
    · exact hlive e (mem_upTo.mp he).1 md hmd
    · exact hlive e (hf.mem e he).1 md hmd

/-- **Folding the next records into a snapshot gives a snapshot.** -/
theorem Snapshot.applySegments (h : Snapshot cfg H m) (hasc : Ascending SegmentCheckpoint.ckpt H)
    (hlsn : H.Pairwise fun a b => a.prevCkpt.lsn.toNat < b.prevCkpt.lsn.toNat)
    (hcov : Covers H base m) (hf : Folding H base l) (now : ℤ) :
    Snapshot cfg H (m.applySegments cfg.sort l cfg.dbId now) := by
  refine ⟨?_, fun rf => ?_, fun tag hlive => ?_⟩
  · change m.lastCkpt l = default ∨ ∃ e ∈ H, e.isBlank = false ∧ e.ckpt = m.lastCkpt l
    rcases lastCkpt_spec m l with ⟨e, he, hb, hc⟩ | ⟨-, hc⟩
    · exact .inr ⟨e, (hf.mem e he).1, hb, hc⟩
    · rw [hc]
      exact h.header
  · change (m.mergedMeta l).lookup rf = newest (·.relforkMeta rf) (upTo (m.lastCkpt l) H)
    rw [newest_upTo_lastCkpt (fun e he => SegmentCheckpoint.relforkMeta_of_isBlank he rf) hasc hcov
      hf, Manifest.lookup_mergedMeta, h.metas]
  · change _ = newest (·.refAt cfg.dbId tag) (upTo (m.lastCkpt l) H)
    rw [newest_upTo_lastCkpt (fun e he => refAt_of_isBlank _ tag he) hasc hcov hf,
      Manifest.lookup_applySegments_of_tagOrdered cfg.sort now (isDeleted_of_live h hf hlive)
        (fun last hlast => tagOrdered_of_folding h hasc hlsn hcov hf hlive hlast),
      Manifest.resolveChunk, ← SegmentCheckpoint.newest_refAt, h.chunks tag hlive]

end Fold

end Tiko

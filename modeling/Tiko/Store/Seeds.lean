import Tiko.Compaction.Snapshot

/-!
# Databases on a seed

A database starts on a base manifest: an empty one, or, for a branch, one whose references lead to the
chunk objects of its parent. What it writes itself lies over that.

* `Seed`: such a manifest, with the key under which it is stored;
* `Readable`: compactions find the versions of the chunk in order. They compare LSNs of prefixes, and the
  prefix of the first interval has LSN zero;
* `SeedSnapshot`: a manifest holds the seed and the records up to its checkpoint;
* **`SeedSnapshot.applySegments`**: folding the next records into a snapshot gives a snapshot.
-/

namespace Tiko

open Lib

/-- A base manifest that a database starts on, stored under `key`. Its chunks belong to other databases,
and it is empty if it lies at the default checkpoint. -/
structure Seed (cfg : StoreConfig) where
  key : Checkpoint
  manifest : Manifest
  header_le : manifest.checkpoint ≤ key
  blank : manifest.checkpoint = default →
    (∀ rf, manifest.lookupRelforkMeta rf = none) ∧ ∀ tag, manifest.lookup tag = none
  foreign : ∀ tag r, manifest.lookup tag = some r → r.dbId ≠ cfg.dbId

/-- The empty manifest of a fresh cluster. -/
def Seed.fresh (cfg : StoreConfig) : Seed cfg where
  key := default
  manifest := .empty
  header_le := le_rfl
  blank _ := ⟨fun _ => rfl, fun _ => rfl⟩
  foreign _ r h := absurd h (Option.some_ne_none r).symm

variable {cfg : StoreConfig} {seed : Seed cfg} {H : List SegmentCheckpoint} {m : Manifest}
  {head : Checkpoint}

/-- The relation is not deleted, and records that have the chunk lie above the reference of the seed. -/
structure Readable (seed : Seed cfg) (H : List SegmentCheckpoint) (tag : ChunkTag) : Prop where
  live : Live H tag.relFork
  seedLive : ∀ md, seed.manifest.lookupRelforkMeta tag.relFork = some md → md.deleted = false
  newer : ∀ r, seed.manifest.lookup tag = some r → ∀ e ∈ H, e.containsChunk tag = true →
    r.lsn.toNat < e.prevCkpt.lsn.toNat

/-- On an empty seed, the chunks of live relations are readable. -/
theorem readable_fresh {tag : ChunkTag} (h : Live H tag.relFork) : Readable (.fresh cfg) H tag :=
  ⟨h, fun md hmd => absurd hmd (Option.some_ne_none md).symm,
    fun r hr => absurd hr (Option.some_ne_none r).symm⟩

theorem Readable.left {l : List SegmentCheckpoint} {tag : ChunkTag} (h : Readable seed (H ++ l) tag) :
    Readable seed H tag :=
  ⟨h.live.left, h.seedLive, fun r hr e he => h.newer r hr e (List.mem_append_left _ he)⟩

/-- The chunk object that the seed refers to. -/
def Seed.chunk {β : Type} (seed : Seed cfg) (storage : Storage β) (tag : ChunkTag) : Option (Chunk β) :=
  (seed.manifest.lookup tag).bind fun r => storage.chunks r.dbId r.ckpt tag

/-- The database does not write the objects of its seed. -/
theorem Seed.chunk_putChunk {β : Type} (seed : Seed cfg) (storage : Storage β) (ckpt : Checkpoint)
    (tag' : ChunkTag) (c : Chunk β) (tag : ChunkTag) :
    seed.chunk (storage.putChunk cfg.dbId ckpt tag' c) tag = seed.chunk storage tag := by
  rw [chunk, chunk]
  cases hr : seed.manifest.lookup tag with
  | none => rfl
  | some r =>
    rw [Option.bind_some, Option.bind_some, Storage.chunks_putChunk, if_neg]
    exact fun h => seed.foreign tag r hr h.1

theorem Seed.chunk_congr {β : Type} (seed : Seed cfg) {storage storage' : Storage β}
    (h : storage'.chunks = storage.chunks) (tag : ChunkTag) :
    seed.chunk storage' tag = seed.chunk storage tag := by
  rw [chunk, h, chunk]

/-! ## Snapshots -/

/-- The manifest holds the seed and the records up to its checkpoint. -/
structure SeedSnapshot (seed : Seed cfg) (H : List SegmentCheckpoint) (m : Manifest) : Prop where
  header : m.checkpoint = seed.manifest.checkpoint ∨
    ∃ e ∈ H, e.isBlank = false ∧ e.ckpt = m.checkpoint
  metas : ∀ rf, m.lookupRelforkMeta rf =
    (newest (·.relforkMeta rf) (upTo m.checkpoint H)).or (seed.manifest.lookupRelforkMeta rf)
  chunks : ∀ tag, Readable seed H tag → m.lookup tag =
    (newest (·.refAt cfg.dbId tag) (upTo m.checkpoint H)).or (seed.manifest.lookup tag)

namespace SeedSnapshot

/-- The seed itself. -/
theorem self (habove : ∀ e ∈ H, seed.key < e.ckpt) : SeedSnapshot seed H seed.manifest := by
  have hup : upTo seed.manifest.checkpoint H = [] :=
    upTo_eq_nil fun e he => seed.header_le.trans_lt (habove e he)
  refine ⟨.inl rfl, fun rf => ?_, fun tag _ => ?_⟩
  · rw [hup]
    rfl
  · rw [hup]
    rfl

theorem header_le (h : SeedSnapshot seed H m) (hlog : Log H head) :
    m.checkpoint ≤ head ∨ m.checkpoint ≤ seed.key := by
  rcases h.header with hd | ⟨e, he, -, hc⟩
  · exact .inr (hd.trans_le seed.header_le)
  · exact .inl (hc ▸ (hlog.bounds e he).2.2)

/-- Only a seed lies at the default checkpoint. -/
theorem seed_default (h : SeedSnapshot seed H m) (hlog : Log H head) (hm : m.checkpoint = default) :
    seed.manifest.checkpoint = default := by
  rcases h.header with hd | ⟨e, he, -, hc⟩
  · exact hd.symm.trans hm
  · exact absurd (hc.trans hm) (hlog.default_lt he).ne'

/-- The empty manifest stands for a seed at the default checkpoint. -/
theorem empty (hlog : Log H head) (hd : seed.manifest.checkpoint = default) :
    SeedSnapshot seed H .empty := by
  have hup : upTo Manifest.empty.checkpoint H = [] := upTo_eq_nil fun e he => hlog.default_lt he
  refine ⟨.inl hd.symm, fun rf => ?_, fun tag _ => ?_⟩
  · rw [hup, (seed.blank hd).1]
    rfl
  · rw [hup, (seed.blank hd).2]
    rfl

theorem append (h : SeedSnapshot seed H m) (hlog : Log H head) {new : List SegmentCheckpoint}
    (hnew : ∀ e ∈ new, head < e.ckpt ∧ seed.key < e.ckpt) : SeedSnapshot seed (H ++ new) m := by
  have hup : upTo m.checkpoint (H ++ new) = upTo m.checkpoint H := by
    refine upTo_append fun e he => ?_
    rcases h.header_le hlog with hle | hle
    · exact hle.trans_lt (hnew e he).1
    · exact hle.trans_lt (hnew e he).2
  refine ⟨h.header.imp_right fun ⟨e, he, hc⟩ => ⟨e, List.mem_append_left _ he, hc⟩, fun rf => ?_,
    fun tag htag => ?_⟩
  · rw [hup]
    exact h.metas rf
  · rw [hup]
    exact h.chunks tag htag.left

section Fold

variable {base : Checkpoint} {l : List SegmentCheckpoint} {tag : ChunkTag}

/-- The versions of a readable chunk are ordered along a fold. -/
theorem tagOrdered (h : SeedSnapshot seed H m) (hasc : Ascending SegmentCheckpoint.ckpt H)
    (hlsn : H.Pairwise fun a b => a.prevCkpt.lsn.toNat < b.prevCkpt.lsn.toNat)
    (hcov : Covers H base m) (hf : Folding H base l) (htag : Readable seed H tag)
    {last : SegmentCheckpoint} (hlast : l.reverse.find? (·.containsChunk tag) = some last) :
    Manifest.TagOrdered (m.lookup tag) l cfg.dbId tag last := by
  rw [h.chunks tag htag]
  cases hn : newest (·.refAt cfg.dbId tag) (upTo m.checkpoint H) with
  | some b =>
    refine tagOrdered_of_refs hasc hlsn hf.ascending hf.mem (fun b' hb => ?_) hlast
    obtain rfl : b = b' := Option.some.inj hb
    obtain ⟨o, ho, hro⟩ := exists_of_newest_refAt hn
    obtain ⟨hoH, hole⟩ := mem_upTo.mp ho
    exact ⟨o, hoH, hole.trans hcov.header_le, hro⟩
  | none =>
    -- the seed's reference lies below all records with the chunk
    rw [Option.none_or]
    have hrefs : Manifest.TagOrdered none l cfg.dbId tag last :=
      tagOrdered_of_refs hasc hlsn hf.ascending hf.mem (fun b hb => absurd hb (by simp)) hlast
    rcases hrefs with ⟨-, hl⟩ | ⟨hl, -⟩
    · have hlastl : last ∈ l := List.mem_reverse.mp (List.mem_of_find?_eq_some hlast)
      have hlastc : last.containsChunk tag = true := by simpa using List.find?_some hlast
      exact .inl ⟨fun b hb => htag.newer b hb last (hf.mem last hlastl).1 hlastc, hl⟩
    · exact absurd hl (by simp)

theorem isDeleted (h : SeedSnapshot seed H m) (hf : Folding H base l) (htag : Readable seed H tag) :
    Manifest.isDeleted (m.mergedMeta l) tag.relFork = false := by
  rw [Manifest.isDeleted, Manifest.lookup_mergedMeta, h.metas, ← Option.or_assoc, ← newest_append]
  cases hn : newest (·.relforkMeta tag.relFork) (upTo m.checkpoint H ++ l) with
  | none =>
    rw [Option.none_or]
    cases hs : seed.manifest.lookupRelforkMeta tag.relFork with
    | none => rfl
    | some md => exact htag.seedLive md hs
  | some md =>
    obtain ⟨e, he, hmd⟩ := List.exists_of_findSome?_eq_some hn
    rcases List.mem_append.mp (List.mem_reverse.mp he) with he | he
    · exact htag.live e (mem_upTo.mp he).1 md hmd
    · exact htag.live e (hf.mem e he).1 md hmd

/-- **Folding the next records into a snapshot gives a snapshot.** -/
theorem applySegments (h : SeedSnapshot seed H m) (hasc : Ascending SegmentCheckpoint.ckpt H)
    (hlsn : H.Pairwise fun a b => a.prevCkpt.lsn.toNat < b.prevCkpt.lsn.toNat)
    (hcov : Covers H base m) (hf : Folding H base l) (now : ℤ) :
    SeedSnapshot seed H (m.applySegments cfg.sort l cfg.dbId now) := by
  refine ⟨?_, fun rf => ?_, fun tag htag => ?_⟩
  · change m.lastCkpt l = _ ∨ ∃ e ∈ H, e.isBlank = false ∧ e.ckpt = m.lastCkpt l
    rcases lastCkpt_spec m l with ⟨e, he, hb, hc⟩ | ⟨-, hc⟩
    · exact .inr ⟨e, (hf.mem e he).1, hb, hc⟩
    · rw [hc]
      exact h.header
  · change (m.mergedMeta l).lookup rf = (newest (·.relforkMeta rf) (upTo (m.lastCkpt l) H)).or _
    rw [newest_upTo_lastCkpt (fun e he => SegmentCheckpoint.relforkMeta_of_isBlank he rf) hasc hcov
      hf, Manifest.lookup_mergedMeta, h.metas, Option.or_assoc]
  · change _ = (newest (·.refAt cfg.dbId tag) (upTo (m.lastCkpt l) H)).or _
    rw [newest_upTo_lastCkpt (fun e he => refAt_of_isBlank _ tag he) hasc hcov hf,
      Manifest.lookup_applySegments_of_tagOrdered cfg.sort now (h.isDeleted hf htag)
        (fun last hlast => h.tagOrdered hasc hlsn hcov hf htag hlast),
      Manifest.resolveChunk, ← SegmentCheckpoint.newest_refAt, h.chunks tag htag, Option.or_assoc]

end Fold

end SeedSnapshot

end Tiko

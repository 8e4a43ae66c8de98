import Tiko.Compaction.LastWriter
import Tiko.Store.Basic

/-!
# The log of commits

`Log H head`: the records `H` of all commits of a database, oldest first, as if none had ever been
compacted away, each written under the checkpoint before it.

* the keys and the write prefixes of a log ascend (`Log.ascending_ckpt`, `Log.ascending_prevCkpt`);
* `Represents cfg m old`: the manifest `m` is the fold of the records `old`;
* **`represents_applySegments`**: folding the next records extends what a manifest represents. For
  chunks this needs `LsnChained`: write prefixes with ascending LSNs, and no deleted relation.
-/

namespace Tiko

open Lib

/-! ## Records -/

namespace SegmentCheckpoint

/-- The commit recorded nothing. -/
def isBlank (e : SegmentCheckpoint) : Bool := e.chunks.entries.isEmpty && e.relforks.entries.isEmpty

/-- The reference to a chunk that a record gives. -/
def refAt (dbId : UInt64) (tag : ChunkTag) (e : SegmentCheckpoint) : Option ChunkRef :=
  if e.containsChunk tag then some (e.chunkRef dbId) else none

theorem containsChunk_of_isBlank {e : SegmentCheckpoint} (h : e.isBlank = true) (tag : ChunkTag) :
    e.containsChunk tag = false := by
  have hnil : e.chunks.entries = [] := by
    simp only [isBlank, Bool.and_eq_true, List.isEmpty_iff] at h
    exact h.1
  rw [containsChunk, SortedSet.contains, SortedMap.lookup, hnil]
  rfl

theorem relforkMeta_of_isBlank {e : SegmentCheckpoint} (h : e.isBlank = true) (rf : RelFork) :
    e.relforkMeta rf = none := by
  have hnil : e.relforks.entries = [] := by
    simp only [isBlank, Bool.and_eq_true, List.isEmpty_iff] at h
    exact h.2
  rw [relforkMeta, SortedMap.lookup, hnil]
  rfl

theorem isBlank_iff {e : SegmentCheckpoint} :
    e.isBlank = false ↔ e.chunks.entries ≠ [] ∨ e.relforks.entries ≠ [] := by
  simp only [isBlank, Bool.and_eq_false_iff, List.isEmpty_eq_false_iff]

theorem refAt_isSome {dbId : UInt64} {tag : ChunkTag} {e : SegmentCheckpoint} :
    (e.refAt dbId tag).isSome = e.containsChunk tag := by
  rw [refAt]
  split_ifs with h <;> simp [h]

theorem newest_refAt (dbId : UInt64) (tag : ChunkTag) (l : List SegmentCheckpoint) :
    newest (·.refAt dbId tag) l =
      (l.reverse.find? (·.containsChunk tag)).map (·.chunkRef dbId) := by
  rw [newest]
  induction l.reverse with
  | nil => rfl
  | cons e l ih =>
    rw [List.findSome?_cons, List.find?_cons, ih, refAt]
    cases e.containsChunk tag <;> rfl

end SegmentCheckpoint

/-! ## Logs -/

/-- All commits of a database up to the checkpoint `head`, oldest first. -/
inductive Log : List SegmentCheckpoint → Checkpoint → Prop where
  | nil : Log [] default
  | commit {H : List SegmentCheckpoint} {head : Checkpoint} {e : SegmentCheckpoint} :
      Log H head → e.prevCkpt = head → head < e.ckpt → Log (H ++ [e]) e.ckpt

namespace Log

variable {H : List SegmentCheckpoint} {head : Checkpoint}

theorem default_le (h : Log H head) : default ≤ head := by
  induction h with
  | nil => exact le_rfl
  | commit _ _ hlt ih => exact ih.trans hlt.le

/-- Every record lies above its prefix, and both lie within the log. -/
theorem bounds (h : Log H head) : ∀ e ∈ H, default ≤ e.prevCkpt ∧ e.prevCkpt < e.ckpt ∧
    e.ckpt ≤ head := by
  induction h with
  | nil => exact fun e he => absurd he List.not_mem_nil
  | @commit H head x hlog hprev hlt ih =>
    intro e he
    rcases List.mem_append.mp he with he | he
    · obtain ⟨h1, h2, h3⟩ := ih e he
      exact ⟨h1, h2, h3.trans hlt.le⟩
    · rw [List.mem_singleton.mp he, hprev]
      exact ⟨hlog.default_le, hlt, le_rfl⟩

theorem default_lt (h : Log H head) {e : SegmentCheckpoint} (he : e ∈ H) : default < e.ckpt :=
  lt_of_le_of_lt (h.bounds e he).1 (h.bounds e he).2.1

theorem prevCkpt_lt_head (h : Log H head) {e : SegmentCheckpoint} (he : e ∈ H) :
    e.prevCkpt < head :=
  (h.bounds e he).2.1.trans_le (h.bounds e he).2.2

theorem ascending_ckpt (h : Log H head) : Ascending SegmentCheckpoint.ckpt H := by
  induction h with
  | nil => exact .nil
  | commit hlog hprev hlt ih =>
    refine List.pairwise_append.mpr ⟨ih, List.pairwise_singleton _ _, fun a ha b hb => ?_⟩
    rw [List.mem_singleton.mp hb]
    exact (hlog.bounds a ha).2.2.trans_lt hlt

theorem ascending_prevCkpt (h : Log H head) : Ascending SegmentCheckpoint.prevCkpt H := by
  induction h with
  | nil => exact .nil
  | commit hlog hprev hlt ih =>
    refine List.pairwise_append.mpr ⟨ih, List.pairwise_singleton _ _, fun a ha b hb => ?_⟩
    rw [List.mem_singleton.mp hb, hprev]
    exact hlog.prevCkpt_lt_head ha

theorem head_of_nil (h : Log H head) (hH : H = []) : head = default := by
  cases h with
  | nil => rfl
  | commit => exact absurd hH (by simp)

/-- The last record is at the head. -/
theorem getLast_ckpt (h : Log H head) (hne : H ≠ []) : (H.getLast hne).ckpt = head := by
  cases h with
  | nil => exact absurd rfl hne
  | commit => rw [List.getLast_append_singleton]

end Log

/-- The records up to a checkpoint. -/
def upTo (c : Checkpoint) (H : List SegmentCheckpoint) : List SegmentCheckpoint :=
  H.filter fun e => decide (e.ckpt ≤ c)

theorem mem_upTo {H : List SegmentCheckpoint} {c : Checkpoint} {e : SegmentCheckpoint} :
    e ∈ upTo c H ↔ e ∈ H ∧ e.ckpt ≤ c := by
  rw [upTo, List.mem_filter, decide_eq_true_iff]

/-- When nothing above a checkpoint has a value. -/
theorem newest_upTo {γ : Type} {f : SegmentCheckpoint → Option γ} {H : List SegmentCheckpoint}
    {c : Checkpoint} (h : ∀ e ∈ H, c < e.ckpt → f e = none) : newest f (upTo c H) = newest f H :=
  newest_filter fun e he hlt => h e he (not_le.mp (of_decide_eq_false hlt))

/-! ## What a manifest represents -/

/-- Write prefixes with ascending LSNs, and no deleted relation: versions are ordered by the LSN of
their prefix, and no chunk is dropped. -/
def LsnChained (l : List SegmentCheckpoint) : Prop :=
  l.Pairwise (fun a b => a.prevCkpt.lsn.toNat < b.prevCkpt.lsn.toNat) ∧
    ∀ e ∈ l, ∀ rf md, e.relforkMeta rf = some md → md.deleted = false

theorem LsnChained.left {l l' : List SegmentCheckpoint} (h : LsnChained (l ++ l')) :
    LsnChained l :=
  ⟨(List.pairwise_append.mp h.1).1, fun e he => h.2 e (List.mem_append_left _ he)⟩

/-- The manifest `m` is the fold of the records `old`. -/
structure Represents (cfg : StoreConfig) (m : Manifest) (old : List SegmentCheckpoint) :
    Prop where
  header_le : ∀ e ∈ old, e.isBlank = false → e.ckpt ≤ m.checkpoint
  header_mem : m.checkpoint = default ∨ ∃ e ∈ old, e.isBlank = false ∧ e.ckpt = m.checkpoint
  metas : ∀ rf, m.lookupRelforkMeta rf = newest (·.relforkMeta rf) old
  chunks : LsnChained old → ∀ tag, m.lookup tag = newest (·.refAt cfg.dbId tag) old

theorem represents_empty (cfg : StoreConfig) : Represents cfg .empty [] where
  header_le _ he := absurd he List.not_mem_nil
  header_mem := .inl rfl
  metas _ := rfl
  chunks _ _ := rfl

theorem newest_append_blank {γ : Type} {f : SegmentCheckpoint → Option γ}
    (hf : ∀ e, e.isBlank = true → f e = none) (l : List SegmentCheckpoint)
    {es : List SegmentCheckpoint} (hes : ∀ e ∈ es, e.isBlank = true) :
    newest f (l ++ es) = newest f l := by
  have hnone : newest f es = none := newest_eq_none_iff.mpr fun e he => hf e (hes e he)
  rw [newest_append, hnone, Option.none_or]

theorem refAt_of_isBlank (dbId : UInt64) (tag : ChunkTag) {e : SegmentCheckpoint}
    (h : e.isBlank = true) : e.refAt dbId tag = none := by
  rw [SegmentCheckpoint.refAt, SegmentCheckpoint.containsChunk_of_isBlank h]
  rfl

/-- Blank records add nothing. -/
theorem Represents.append_blank {cfg : StoreConfig} {m : Manifest} {old es : List SegmentCheckpoint}
    (h : Represents cfg m old) (hes : ∀ e ∈ es, e.isBlank = true) :
    Represents cfg m (old ++ es) where
  header_le e he hb := by
    rcases List.mem_append.mp he with he | he
    · exact h.header_le e he hb
    · rw [hes e he] at hb
      exact absurd hb (by simp)
  header_mem := h.header_mem.imp_right fun ⟨e, he, hc⟩ => ⟨e, List.mem_append_left _ he, hc⟩
  metas rf := by
    rw [h.metas, newest_append_blank (fun e he => SegmentCheckpoint.relforkMeta_of_isBlank he rf)
      _ hes]
  chunks hl tag := by
    rw [h.chunks hl.left, newest_append_blank (fun e he => refAt_of_isBlank _ tag he) _ hes]

/-! ## Folding the next records -/

section Fold

variable {cfg : StoreConfig} {m : Manifest} {old blanks new : List SegmentCheckpoint}

theorem newest_blanks_append {γ : Type} {f : SegmentCheckpoint → Option γ}
    (hf : ∀ e, e.isBlank = true → f e = none) (hb : ∀ e ∈ blanks, e.isBlank = true)
    (l : List SegmentCheckpoint) : newest f (blanks ++ l) = newest f l := by
  have hnone : newest f blanks = none := newest_eq_none_iff.mpr fun e he => hf e (hb e he)
  rw [newest_append, hnone, Option.or_none]

theorem lastCkpt_append_singleton (m : Manifest) (l : List SegmentCheckpoint)
    (x : SegmentCheckpoint) :
    m.lastCkpt (l ++ [x]) = if x.isBlank = false then x.ckpt else m.lastCkpt l := by
  rw [Manifest.lastCkpt, List.foldl_append, List.foldl_cons, List.foldl_nil, Manifest.lastCkpt]
  simp only [SegmentCheckpoint.isBlank_iff]

/-- The manifest's checkpoint after a fold: the last record that is not blank, or as before. -/
theorem lastCkpt_spec (m : Manifest) (l : List SegmentCheckpoint) :
    (∃ e ∈ l, e.isBlank = false ∧ e.ckpt = m.lastCkpt l) ∨
      (∀ e ∈ l, e.isBlank = true) ∧ m.lastCkpt l = m.checkpoint := by
  induction l using List.reverseRecOn with
  | nil => exact .inr ⟨fun e he => absurd he List.not_mem_nil, rfl⟩
  | append_singleton l x ih =>
    rw [lastCkpt_append_singleton]
    cases hx : x.isBlank with
    | false => exact .inl ⟨x, List.mem_append_right _ (List.mem_singleton.mpr rfl), hx, rfl⟩
    | true =>
      rw [if_neg (by simp)]
      rcases ih with ⟨e, he, hb, hc⟩ | ⟨hall, hc⟩
      · exact .inl ⟨e, List.mem_append_left _ he, hb, hc⟩
      · refine .inr ⟨fun e he => ?_, hc⟩
        rcases List.mem_append.mp he with he | he
        · exact hall e he
        · rw [List.mem_singleton.mp he, hx]

/-- Records that are not blank lie at or below the manifest's checkpoint after the fold. -/
theorem le_lastCkpt {l : List SegmentCheckpoint} (hl : Ascending SegmentCheckpoint.ckpt l)
    {e : SegmentCheckpoint} (he : e ∈ l) (hb : e.isBlank = false) : e.ckpt ≤ m.lastCkpt l := by
  induction l using List.reverseRecOn with
  | nil => exact absurd he List.not_mem_nil
  | append_singleton l x ih =>
    obtain ⟨hl, -, hlt⟩ := List.pairwise_append.mp hl
    rw [lastCkpt_append_singleton]
    rcases List.mem_append.mp he with he | he
    · split_ifs
      · exact (hlt e he x (List.mem_singleton.mpr rfl)).le
      · exact ih hl he
    · obtain rfl := List.mem_singleton.mp he
      rw [if_pos hb]

/-- No relation is deleted in the fold of a chained log. -/
theorem isDeleted_mergedMeta (h : Represents cfg m old) (hb : ∀ e ∈ blanks, e.isBlank = true)
    (hl : LsnChained (old ++ new)) (rf : RelFork) :
    Manifest.isDeleted (m.mergedMeta (blanks ++ new)) rf = false := by
  rw [Manifest.isDeleted, Manifest.lookup_mergedMeta, h.metas,
    newest_blanks_append (fun e he => SegmentCheckpoint.relforkMeta_of_isBlank he rf) hb,
    ← newest_append]
  cases hn : newest (·.relforkMeta rf) (old ++ new) with
  | none => rfl
  | some md =>
    obtain ⟨e, he, hmd⟩ := List.exists_of_findSome?_eq_some hn
    exact hl.2 e (List.mem_reverse.mp he) rf md hmd

/-- In a chained log, the newest version of a chunk has the highest LSN. -/
theorem lsnOrdered_of_chained (h : Represents cfg m old) (hb : ∀ e ∈ blanks, e.isBlank = true)
    (hl : LsnChained (old ++ new)) : Manifest.LsnOrdered m (blanks ++ new) cfg.dbId := by
  intro tag _ last hlast
  obtain ⟨hold, hnew, hcross⟩ := List.pairwise_append.mp hl.1
  have hlsns : Ascending (fun e : SegmentCheckpoint => e.prevCkpt.lsn.toNat) new := hnew
  have hlastc : last.containsChunk tag = true := by simpa using List.find?_some hlast
  have hnotblank : ∀ e : SegmentCheckpoint, e.containsChunk tag = true → e ∉ blanks := by
    intro e hc he
    rw [SegmentCheckpoint.containsChunk_of_isBlank (hb e he)] at hc
    exact absurd hc (by simp)
  have hmem_new : ∀ e ∈ blanks ++ new, e.containsChunk tag = true → e ∈ new := fun e he hc =>
    (List.mem_append.mp he).resolve_left (hnotblank e hc)
  have hlastnew : last ∈ new :=
    hmem_new last (List.mem_reverse.mp (List.mem_of_find?_eq_some hlast)) hlastc
  refine .inl ⟨fun b hbase => ?_, fun e he hc => ?_⟩
  · -- the base refers to an older record
    rw [h.chunks hl.left] at hbase
    obtain ⟨o, ho, hro⟩ := List.exists_of_findSome?_eq_some hbase
    rw [SegmentCheckpoint.refAt] at hro
    split_ifs at hro
    rw [← Option.some.inj hro]
    exact hcross o (List.mem_reverse.mp ho) last hlastnew
  · -- the last record that has the chunk comes after the others
    by_cases heq : e = last
    · exact .inr (by rw [heq])
    · refine .inl ?_
      have hnewest : newest (fun e => if e.containsChunk tag then some e else none) (blanks ++ new) =
          some last := by
        rw [newest]
        revert hlast
        induction (blanks ++ new).reverse with
        | nil => exact fun h => absurd h (by simp)
        | cons x xs ih =>
          intro h
          rw [List.find?_cons] at h
          rw [List.findSome?_cons]
          cases hx : x.containsChunk tag with
          | true => rw [hx] at h; simpa using h
          | false => rw [hx] at h; simpa using ih h
      rw [newest_blanks_append (fun e he => by
        rw [SegmentCheckpoint.containsChunk_of_isBlank he]; rfl) hb,
        newest_eq_some_iff hlsns] at hnewest
      obtain ⟨a, ha, hfa, hmax⟩ := hnewest
      have hal : a = last := by
        split_ifs at hfa
        exact Option.some.inj hfa
      have hle := hmax e (hmem_new e he hc) (by rw [hc]; rfl)
      rw [hal] at hle
      exact lt_of_le_of_ne hle fun hlsn =>
        heq (hlsns.eq_of_key_eq (hmem_new e he hc) hlastnew hlsn)

/-- **Folding the next records extends what a manifest represents.** Blank records that were folded
before may be folded again. -/
theorem represents_applySegments (h : Represents cfg m old) (hb : ∀ e ∈ blanks, e.isBlank = true)
    (hasc : Ascending SegmentCheckpoint.ckpt (old ++ new)) (now : ℤ) :
    Represents cfg (m.applySegments cfg.sort (blanks ++ new) cfg.dbId now) (old ++ new) := by
  obtain ⟨hold, hnew, hcross⟩ := List.pairwise_append.mp hasc
  have hck : m.lastCkpt (blanks ++ new) = m.lastCkpt new := by
    have hbl : m.lastCkpt blanks = m.checkpoint := by
      rcases lastCkpt_spec m blanks with ⟨e, he, hne, -⟩ | ⟨-, hc⟩
      · rw [hb e he] at hne
        exact absurd hne (by simp)
      · exact hc
    rw [Manifest.lastCkpt, List.foldl_append]
    exact congrArg (fun c => new.foldl _ c) hbl
  refine ⟨fun e he hne => ?_, ?_, fun rf => ?_, fun hl tag => ?_⟩
  · change e.ckpt ≤ m.lastCkpt (blanks ++ new)
    rw [hck]
    rcases List.mem_append.mp he with he | he
    · rcases lastCkpt_spec m new with ⟨x, hx, -, hc⟩ | ⟨-, hc⟩
      · rw [← hc]
        exact (hcross e he x hx).le
      · rw [hc]
        exact h.header_le e he hne
    · exact le_lastCkpt hnew he hne
  · change m.lastCkpt (blanks ++ new) = default ∨ _
    rw [show (m.applySegments cfg.sort (blanks ++ new) cfg.dbId now).checkpoint =
      m.lastCkpt (blanks ++ new) from rfl, hck]
    rcases lastCkpt_spec m new with ⟨x, hx, hne, hc⟩ | ⟨-, hc⟩
    · exact .inr ⟨x, List.mem_append_right _ hx, hne, hc⟩
    · rw [hc]
      exact h.header_mem.imp_right fun ⟨e, he, hc⟩ => ⟨e, List.mem_append_left _ he, hc⟩
  · change (m.mergedMeta (blanks ++ new)).lookup rf = _
    rw [Manifest.lookup_mergedMeta, h.metas,
      newest_blanks_append (fun e he => SegmentCheckpoint.relforkMeta_of_isBlank he rf) hb,
      newest_append]
  · rw [Manifest.lookup_applySegments_of_lsnOrdered cfg.sort now (lsnOrdered_of_chained h hb hl) tag
      (isDeleted_mergedMeta h hb hl tag.relFork), Manifest.resolveChunk,
      ← SegmentCheckpoint.newest_refAt,
      newest_blanks_append (fun e he => refAt_of_isBlank _ tag he) hb, h.chunks hl.left,
      newest_append]

end Fold

end Tiko

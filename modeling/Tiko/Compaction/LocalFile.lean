import Tiko.Compaction.Current
import Tiko.Compaction.Reopen

/-!
# The local manifest file

A start opens the local manifest file and trusts it: what lies above its checkpoint has to be in stored
segments. Compactions rename a new file over it before they delete segments. But a reader that finds
another file than it looks for gets the stored manifest that it looks for and renames it over the local
file, which may be the newer one.

* `Forward cfg s l`: a reader does not take the local file back, and `run_compaction` does not publish
  under a blank record;
* `Kept cfg s`: the invariant of such runs: the local file is at the base or above, and every record of
  the segments from the base on is stored;
* **`local_file_covers_deleted`**: on such runs every record above the checkpoint of the local file is
  stored, and a restart finds every committed version;
* `local_file_falls_behind`: a run on which it does not.
-/

namespace Tiko

open Lib

variable {ι β : Type} {cfg : StoreConfig}

/-! ## Reloads -/

namespace Db

/-- The manifest that `base_manifest` would write to the local file. -/
def reload (cfg : StoreConfig) (s : Db β) : Option Manifest :=
  let base := s.timeline.baseCkpt
  if s.manifest.checkpoint = base then none
  else if base = default then some .empty
  else if (s.tikm.filter fun m => m.checkpoint = base).isSome then none
  else (s.storage.bases cfg.dbId).lookup base

theorem tikm_baseManifest {s s' : Db β} {m : Manifest} (h : s.baseManifest cfg = .ok (m, s')) :
    s'.tikm = s.tikm ∨ s.reload cfg = some m ∧ s'.tikm = some m := by
  rw [baseManifest] at h
  split_ifs at h with hc
  · obtain ⟨-, rfl⟩ := Prod.mk.inj (Except.ok.inj h)
    exact .inl rfl
  · rw [reload, if_neg hc]
    rw [loadManifestAt] at h
    split_ifs at h with hd
    · obtain ⟨rfl, rfl⟩ := Prod.mk.inj (Except.ok.inj h)
      exact .inr ⟨if_pos hd, rfl⟩
    · rw [if_neg hd]
      cases ht : s.tikm.filter fun m => m.checkpoint = s.timeline.baseCkpt with
      | some m' =>
        rw [ht] at h
        obtain ⟨-, rfl⟩ := Prod.mk.inj (Except.ok.inj h)
        exact .inl rfl
      | none =>
        rw [ht] at h
        cases hl : (s.storage.bases cfg.dbId).lookup s.timeline.baseCkpt with
        | none => rw [hl] at h; exact absurd h (by simp)
        | some m' =>
          rw [hl] at h
          obtain ⟨rfl, rfl⟩ := Prod.mk.inj (Except.ok.inj h)
          exact .inr ⟨rfl, rfl⟩

/-- A read writes the local file only when it has found nothing under the lock. -/
theorem tikm_getChunk (cfg : StoreConfig) (s : Db β) (tag : ChunkTag) :
    (s.getChunk cfg tag).2.tikm = s.tikm ∨ s.getChunkLocked cfg tag = .ok none ∧
      ∃ m, s.reload cfg = some m ∧ (s.getChunk cfg tag).2.tikm = some m := by
  rw [getChunk, getChunkLocked]
  cases (if s.draft.containsChunk tag then s.tryReadChunkAt cfg tag s.timeline.headCkpt
      else none) with
  | some c => exact .inl rfl
  | none =>
    cases s.probeWindow cfg tag with
    | some c => exact .inl rfl
    | none =>
      dsimp only
      cases s.readChunkFromSegments cfg tag s.timeline.baseCkpt s.segTop with
      | error e => exact .inl rfl
      | ok c =>
        cases c with
        | some c => exact .inl rfl
        | none =>
          cases hm : s.baseManifest cfg with
          | error e => exact .inl rfl
          | ok r =>
            obtain ⟨m, s'⟩ := r
            have hr := tikm_baseManifest hm
            dsimp only
            split
            · exact hr.imp_right fun h => ⟨rfl, m, h⟩
            · split
              · exact hr.imp_right fun h => ⟨rfl, m, h⟩
              · exact hr.imp_right fun h => ⟨rfl, m, h⟩

/-- A patch writes the local file only when it is partial and its read has found nothing under the
lock. -/
theorem tikm_patchChunk [Zero β] (cfg : StoreConfig) (s : Db β) (out : AppendOutcome) (tag : ChunkTag) (offset : ℕ)
    (data : List β) : (s.patchChunk cfg out tag offset data).2.tikm = s.tikm ∨
    (Chunk.isFull offset data = false ∧ s.getChunkLocked cfg tag = .ok none) ∧
      ∃ m, s.reload cfg = some m ∧ (s.patchChunk cfg out tag offset data).2.tikm = some m := by
  rw [patchChunk]
  split_ifs with hfull
  · exact .inl rfl
  · have hr := (tikm_getChunk cfg s tag).imp_right fun h =>
      (⟨⟨by simpa using hfull, h.1⟩, h.2⟩ : (Chunk.isFull offset data = false ∧ _) ∧ _)
    cases hg : s.getChunk cfg tag with
    | mk r s' =>
      rw [hg] at hr
      cases r with
      | ok c => exact hr
      | error e =>
        dsimp only
        split_ifs
        · exact hr
        · exact hr

end Db

namespace Shared

/-! ## The condition -/

/-- The local file is not newer than a manifest. -/
def NotNewer (s : Shared ι β) (m : Manifest) : Prop :=
  ∀ m', s.tikm = some m' → m'.checkpoint ≤ m.checkpoint

/-- What the next step of a thread must not do: rename an older manifest over the local file, or fold
with a blank record at the end, under whose checkpoint `run_compaction` would publish. -/
def ForwardAt (s : Shared ι β) : Pc → Prop
  | .writeTikm _ m _ => s.NotNewer m
  | .load job _ [] scs => job.through = false →
    ∀ e ∈ ((scs.filter job.selects).insertionSort Db.ckptLe).getLast?, e.isBlank = false
  | _ => True

/-- A step that does not take the local file back, nor publishes under a blank record. -/
def Forward (cfg : StoreConfig) (s : Shared ι β) : Label ι β → Prop
  | .call p (.patchChunk tag offset data) =>
    Chunk.isFull offset data = false ∧ (s.db p).getChunkLocked cfg tag = .ok none →
      ∀ m ∈ (s.db p).reload cfg, s.NotNewer m
  | .run p => s.ForwardAt (s.pcs p)
  | _ => True

/-! ## The invariant -/

/-- No segment below the base is stored. -/
def Cleared (cfg : StoreConfig) (s : Shared ι β) : Prop :=
  ∀ q ∈ (s.storage.segments cfg.dbId).entries, s.timeline.baseCkpt.toSegmentId ≤ q.1

/-- The segments that a compaction has listed: every stored segment is one of them or lies above
them. -/
structure Listed (cfg : StoreConfig) (s : Shared ι β) (segments : List SegmentId) : Prop where
  sorted : segments.Pairwise (· < ·)
  le_head : ∀ id ∈ segments, id ≤ s.timeline.headCkpt.toSegmentId
  stored : ∀ q ∈ (s.storage.segments cfg.dbId).entries, q.1 ∈ segments ∨ ∀ id ∈ segments, id < q.1

/-- The segments that are still to be deleted: all that lie below the base. -/
structure Doomed (cfg : StoreConfig) (s : Shared ι β) (ids : List SegmentId) : Prop where
  sorted : ids.Pairwise (· < ·)
  stored : ∀ q ∈ (s.storage.segments cfg.dbId).entries,
    q.1 ∈ ids ∨ s.timeline.baseCkpt.toSegmentId ≤ q.1

end Shared

/-- A compaction that waits for the base manifest. -/
def Cont.Kept (cfg : StoreConfig) (s : Shared ι β) : Cont → Prop
  | .compact job segments toApply => s.Cleared cfg ∧ s.Listed cfg segments ∧
    (∀ e ∈ toApply, e.ckpt.toSegmentId ∈ segments) ∧
    (job.through = false → ∀ e ∈ toApply.getLast?, e.isBlank = false)
  | _ => True

/-- A new base manifest, published under its own checkpoint. -/
structure Fold.Kept (cfg : StoreConfig) (s : Shared ι β) (f : Fold) : Prop where
  cleared : s.Cleared cfg
  listed : s.Listed cfg f.segments
  key : f.key = f.applied.checkpoint
  base_le : f.base ≤ f.key
  key_mem : f.key = f.base ∨ f.key.toSegmentId ∈ f.segments

/-- What a thread relies on when it publishes manifests and deletes segments. -/
def Pc.Kept (cfg : StoreConfig) (s : Shared ι β) : Pc → Prop
  | .idle | .fetch _ _ _ => True
  | .list _ => s.Cleared cfg
  | .load _ segments todo scs => s.Cleared cfg ∧ s.Listed cfg segments ∧ (∀ id ∈ todo, id ∈ segments) ∧
    ∀ e ∈ scs, e.ckpt.toSegmentId ∈ segments
  | .readBase k | .compare _ k | .openLocal _ k | .getBase _ k => k.Kept cfg s
  | .writeTikm target m k | .store target m k => m.checkpoint = target ∧ k.Kept cfg s
  | .lookup m k => (∀ c ∈ k.snapshot, m.checkpoint = c) ∧ k.Kept cfg s
  | .put f | .rename f => f.Kept cfg s
  | .advance f => f.Kept cfg s ∧ ∃ m, s.tikm = some m ∧ f.key ≤ m.checkpoint
  | .swap f => s.Doomed cfg (f.segments.takeWhile fun id => id < f.key.toSegmentId)
  | .delete ids => s.Doomed cfg ids

namespace Shared

/-- The local file is at the base or above, and every record of the segments from the base on is
stored; stored manifests are under their own checkpoints, and the stored segments are the newest
ones. -/
structure Kept (cfg : StoreConfig) (s : Shared ι β) : Prop where
  coherent : s.Coherent cfg
  exact : ∀ k m, (s.storage.bases cfg.dbId).lookup k = some m → m.checkpoint = k
  tikm : ∃ m, s.tikm = some m ∧ s.timeline.baseCkpt ≤ m.checkpoint
  above : ∀ e ∈ s.history, s.timeline.baseCkpt.toSegmentId ≤ e.ckpt.toSegmentId →
    e ∈ storedRecords (s.storage.segments cfg.dbId)
  upward : ∀ e ∈ storedRecords (s.storage.segments cfg.dbId), ∀ e' ∈ s.history,
    e.ckpt.toSegmentId ≤ e'.ckpt.toSegmentId → e' ∈ storedRecords (s.storage.segments cfg.dbId)
  cleared : (∀ p, (s.pcs p).compacting = false) → s.Cleared cfg
  pcs : ∀ p, (s.pcs p).Kept cfg s

/-! ## The other threads -/

/-- What a thread that is not compacting can do. -/
structure Adds (cfg : StoreConfig) (s s' : Shared ι β) : Prop where
  base : s'.timeline.baseCkpt = s.timeline.baseCkpt
  base_le : s.timeline.baseCkpt ≤ s.timeline.headCkpt
  head_le : s.timeline.headCkpt ≤ s'.timeline.headCkpt
  segments : ∀ q' ∈ (s'.storage.segments cfg.dbId).entries,
    (∃ q ∈ (s.storage.segments cfg.dbId).entries, q.1 = q'.1) ∨
      s.timeline.headCkpt.toSegmentId ≤ q'.1
  tikm : ∀ m, s.tikm = some m → ∃ m', s'.tikm = some m' ∧ m.checkpoint ≤ m'.checkpoint

section Adds

variable {s s' : Shared ι β}

theorem Cleared.adds (h : s.Cleared cfg) (he : s.Adds cfg s') : s'.Cleared cfg := by
  intro q' hq'
  rw [he.base]
  rcases he.segments q' hq' with ⟨q, hq, hid⟩ | hle
  · rw [← hid]
    exact h q hq
  · exact (Checkpoint.toSegmentId_mono he.base_le).trans hle

theorem Listed.adds {segments : List SegmentId} (h : s.Listed cfg segments)
    (he : s.Adds cfg s') : s'.Listed cfg segments := by
  refine ⟨h.sorted, fun id hid =>
    (h.le_head id hid).trans (Checkpoint.toSegmentId_mono he.head_le), fun q' hq' => ?_⟩
  rcases he.segments q' hq' with ⟨q, hq, hid⟩ | hle
  · rw [← hid]
    exact h.stored q hq
  · -- a new segment is the last one
    by_cases hmem : q'.1 ∈ segments
    · exact .inl hmem
    · exact .inr fun id hid =>
        lt_of_le_of_ne ((h.le_head id hid).trans hle) fun heq => hmem (heq ▸ hid)

theorem Doomed.adds {ids : List SegmentId} (h : s.Doomed cfg ids) (he : s.Adds cfg s') :
    s'.Doomed cfg ids := by
  refine ⟨h.sorted, fun q' hq' => ?_⟩
  rw [he.base]
  rcases he.segments q' hq' with ⟨q, hq, hid⟩ | hle
  · rw [← hid]
    exact h.stored q hq
  · exact .inr ((Checkpoint.toSegmentId_mono he.base_le).trans hle)

end Adds

end Shared

section Adds

variable {s s' : Shared ι β}

theorem Cont.Kept.adds {k : Cont} (h : k.Kept cfg s)
    (he : k.snapshot.isSome = true → s.Adds cfg s') : k.Kept cfg s' := by
  cases k with
  | compact job segments toApply =>
    obtain ⟨hc, hl, hrest⟩ := h
    exact ⟨hc.adds (he rfl), hl.adds (he rfl), hrest⟩
  | _ => trivial

theorem Fold.Kept.adds {f : Fold} (h : f.Kept cfg s) (he : s.Adds cfg s') : f.Kept cfg s' :=
  ⟨h.cleared.adds he, h.listed.adds he, h.key, h.base_le, h.key_mem⟩

/-- **A place keeps what it relies on**, if a compaction is alone. -/
theorem Pc.Kept.adds {pc : Pc} (h : pc.Kept cfg s)
    (he : pc.compacting = true → s.Adds cfg s') : pc.Kept cfg s' := by
  cases pc with
  | idle => trivial
  | fetch r tag since => trivial
  | list job => exact Shared.Cleared.adds h (he rfl)
  | load job segments todo scs =>
    obtain ⟨hc, hl, hrest⟩ := h
    exact ⟨hc.adds (he rfl), hl.adds (he rfl), hrest⟩
  | readBase k => exact Cont.Kept.adds h he
  | compare target k => exact Cont.Kept.adds h he
  | openLocal target k => exact Cont.Kept.adds h he
  | getBase target k => exact Cont.Kept.adds h he
  | writeTikm target m k => exact ⟨h.1, Cont.Kept.adds h.2 he⟩
  | store target m k => exact ⟨h.1, Cont.Kept.adds h.2 he⟩
  | lookup m k => exact ⟨h.1, Cont.Kept.adds h.2 he⟩
  | put f => exact Fold.Kept.adds h (he rfl)
  | rename f => exact Fold.Kept.adds h (he rfl)
  | advance f =>
    obtain ⟨hf, m, hm, hle⟩ := h
    obtain ⟨m', hm', hle'⟩ := (he rfl).tikm m hm
    exact ⟨hf.adds (he rfl), m', hm', hle.trans hle'⟩
  | swap f => exact Shared.Doomed.adds h (he rfl)
  | delete ids => exact Shared.Doomed.adds h (he rfl)

end Adds

namespace Shared

/-! ## Steps -/

section Steps

variable {s s' : Shared ι β} {p : ι}

/-- A thread moves. -/
theorem Kept.of_move (h : s.Kept cfg) (hcoh : s'.Coherent cfg)
    (hexact : ∀ k m, (s'.storage.bases cfg.dbId).lookup k = some m → m.checkpoint = k)
    (htikm : ∃ m, s'.tikm = some m ∧ s'.timeline.baseCkpt ≤ m.checkpoint)
    (habove : ∀ e ∈ s'.history, s'.timeline.baseCkpt.toSegmentId ≤ e.ckpt.toSegmentId →
      e ∈ storedRecords (s'.storage.segments cfg.dbId))
    (hupward : ∀ e ∈ storedRecords (s'.storage.segments cfg.dbId), ∀ e' ∈ s'.history,
      e.ckpt.toSegmentId ≤ e'.ckpt.toSegmentId → e' ∈ storedRecords (s'.storage.segments cfg.dbId))
    (hframe : ∀ q ≠ p, s'.pcs q = s.pcs q)
    (hadds : (s.pcs p).compacting = true ∨ s.Adds cfg s') (hpc : (s'.pcs p).Kept cfg s')
    (hdone : (s.pcs p).compacting = true → (s'.pcs p).compacting = false → s'.Cleared cfg) :
    s'.Kept cfg := by
  refine ⟨hcoh, hexact, htikm, habove, hupward, fun hnone => ?_, fun q => ?_⟩
  · cases hp : (s.pcs p).compacting with
    | true => exact hdone hp (hnone p)
    | false =>
      refine (h.cleared fun q => ?_).adds (hadds.resolve_left (by simp [hp]))
      by_cases hq : q = p
      · rw [hq]
        exact hp
      · rw [← hframe q hq]
        exact hnone q
  · by_cases hq : q = p
    · rw [hq]
      exact hpc
    · rw [hframe q hq]
      refine (h.pcs q).adds fun hcomp => hadds.resolve_left fun hp => hq ?_
      exact h.coherent.sole q p hcomp hp

/-- A thread moves without a change to segments, base manifests, records or the base, and does not take
the local file back. -/
theorem Kept.still (h : s.Kept cfg) (hcoh : s'.Coherent cfg)
    (hseg : s'.storage.segments cfg.dbId = s.storage.segments cfg.dbId)
    (hbases : s'.storage.bases cfg.dbId = s.storage.bases cfg.dbId)
    (htime : s'.timeline = s.timeline) (hH : s'.history = s.history)
    (htikm : ∀ m, s.tikm = some m → ∃ m', s'.tikm = some m' ∧ m.checkpoint ≤ m'.checkpoint)
    (hframe : ∀ q ≠ p, s'.pcs q = s.pcs q) (hpc : s.Adds cfg s' → (s'.pcs p).Kept cfg s')
    (hdone : (s.pcs p).compacting = true → (s'.pcs p).compacting = false → s.Cleared cfg) :
    s'.Kept cfg := by
  obtain ⟨F, hF⟩ := h.coherent.core
  have hadds : s.Adds cfg s' := by
    refine ⟨by rw [htime], hF.base_le, by rw [htime], fun q hq => .inl ⟨q, ?_, rfl⟩, htikm⟩
    rw [← hseg]
    exact hq
  refine h.of_move hcoh ?_ ?_ ?_ ?_ hframe (.inr hadds) (hpc hadds) fun hp hp' =>
    (hdone hp hp').adds hadds
  · rw [hbases]
    exact h.exact
  · obtain ⟨m, hm, hle⟩ := h.tikm
    obtain ⟨m', hm', hle'⟩ := htikm m hm
    rw [htime]
    exact ⟨m', hm', hle.trans hle'⟩
  · rw [hseg, htime, hH]
    exact h.above
  · rw [hseg, hH]
    exact h.upward

variable [DecidableEq ι]

/-- A thread goes on, and changes nothing. -/
theorem Kept.goto (h : s.Kept cfg) {pc : Pc} (hcoh : (s.goto p pc).Coherent cfg)
    (hpc : pc.Kept cfg s)
    (hdone : (s.pcs p).compacting = true → pc.compacting = false → s.Cleared cfg) :
    (s.goto p pc).Kept cfg := by
  have hself : (s.goto p pc).pcs p = pc := Function.update_self ..
  refine h.still hcoh rfl rfl rfl rfl (fun m hm => ⟨m, hm, le_rfl⟩)
    (fun q hq => Function.update_of_ne hq ..) (fun hadds => ?_) fun hp hp' => ?_
  · rw [hself]
    exact hpc.adds fun _ => hadds
  · rw [hself] at hp'
    exact hdone hp hp'

theorem Kept.answer (h : s.Kept cfg) {a : Answer ι β} (hcoh : (s.answer p a).Coherent cfg)
    (hdone : (s.pcs p).compacting = true → s.Cleared cfg) : (s.answer p a).Kept cfg := by
  have hself : (s.answer p a).pcs p = .idle := Function.update_self ..
  refine h.still hcoh rfl rfl rfl rfl (fun m hm => ⟨m, hm, le_rfl⟩)
    (fun q hq => Function.update_of_ne hq ..) (fun hadds => ?_) fun hp _ => hdone hp
  rw [hself]
  trivial

omit [DecidableEq ι] in
/-- **The listed segments** are all that are stored from the base on, up to the upper bound. -/
theorem Core.listed {F : DraftFrame} (h : s.Core cfg F) (hc : s.Cleared cfg) (high : Checkpoint) :
    s.Listed cfg ((s.db p).listSegmentsInRange cfg s.timeline.baseCkpt high) := by
  have hrecord : ∀ q ∈ (s.storage.segments cfg.dbId).entries, ∃ e ∈ s.history,
      e.ckpt.toSegmentId = q.1 := by
    intro q hq
    obtain ⟨-, hne, hid⟩ := h.wf q hq
    obtain ⟨e, he⟩ := List.exists_mem_of_ne_nil _ hne
    exact ⟨e, h.sub.subset (mem_storedRecords.mpr ⟨q, hq, he⟩), hid e he⟩
  rw [Db.listSegmentsInRange_eq]
  refine ⟨List.pairwise_map.mpr ((s.storage.segments cfg.dbId).sorted.filter _), fun id hid => ?_,
    fun q hq => ?_⟩
  · obtain ⟨q, hq, rfl⟩ := List.mem_map.mp hid
    obtain ⟨e, he, hseg⟩ := hrecord q (List.mem_filter.mp hq).1
    rw [← hseg]
    exact Checkpoint.toSegmentId_mono (h.log.bounds e he).2.2
  · obtain ⟨e, he, hseg⟩ := hrecord q hq
    have hlow := hc q hq
    by_cases hhigh : q.1 ≤ high.toSegmentId
    · refine .inl (List.mem_map.mpr ⟨q, List.mem_filter.mpr ⟨hq, ?_⟩, rfl⟩)
      rw [← hseg] at hlow hhigh ⊢
      exact Checkpoint.overlapsRange_of_le hlow hhigh
    · refine .inr fun id hid => ?_
      obtain ⟨q', hq', rfl⟩ := List.mem_map.mp hid
      obtain ⟨hq', hov⟩ := List.mem_filter.mp hq'
      obtain ⟨e', he', hseg'⟩ := hrecord q' hq'
      rw [← hseg'] at hov ⊢
      exact (Checkpoint.toSegmentId_le_of_overlapsRange hov).trans_lt (not_le.mp hhigh)

omit [DecidableEq ι] in
theorem snapshot_of_ok {k : Cont} {c : Checkpoint} (h : k.Ok s c) : ∀ c' ∈ k.snapshot, c = c' := by
  intro c' hc'
  cases k with
  | compact job segments toApply => exact h.1.trans (Option.some.inj hc')
  | _ => exact absurd hc' (by simp [Cont.snapshot])

omit [DecidableEq ι] in
/-- **The fold of a compaction** is published under its own checkpoint. -/
theorem fold_kept {job : Job} {segments : List SegmentId}
    {toApply : List SegmentCheckpoint} {m : Manifest}
    (hok : (Cont.compact job segments toApply).Ok s job.base)
    (hk : (Cont.compact job segments toApply).Kept cfg s) (hexact : m.checkpoint = job.base) :
    let applied := m.applySegments cfg.sort toApply cfg.dbId job.now
    (Fold.mk job.base (job.newBase toApply applied) applied segments).Kept cfg s := by
  obtain ⟨-, -, hf, hne⟩ := hok
  obtain ⟨hcl, hl, hseg, hlast⟩ := hk
  intro applied
  have hheader : applied.checkpoint = m.lastCkpt toApply := rfl
  have hkey : job.newBase toApply applied = applied.checkpoint := by
    cases ht : job.through with
    | true => rw [Job.newBase, if_pos ht]
    | false =>
      -- the last folded record is not blank, so it is the checkpoint of the new manifest
      have hb : (toApply.getLast hne).isBlank = false :=
        hlast ht _ (List.getLast?_eq_some_getLast hne)
      have hlastCkpt : m.lastCkpt toApply = (toApply.getLast hne).ckpt := by
        conv_lhs => rw [← List.dropLast_append_getLast hne]
        rw [lastCkpt_append_singleton, if_pos hb]
      rw [Job.newBase, if_neg (by simp [ht]), List.getLast?_eq_some_getLast hne, hheader, hlastCkpt]
      rfl
  have hspec := lastCkpt_spec m toApply
  rw [← hheader] at hspec
  rw [hkey]
  refine ⟨hcl, hl, rfl, ?_, ?_⟩
  · rcases hspec with ⟨e, he, -, hce⟩ | ⟨-, hce⟩
    · rw [← hce]
      exact (hf.mem e he).2.le
    · exact (hce.trans hexact).ge
  · rcases hspec with ⟨e, he, -, hce⟩ | ⟨-, hce⟩
    · rw [← hce]
      exact .inr (hseg e he)
    · exact .inl (hce.trans hexact)

omit [DecidableEq ι] in
/-- The listed segments below a new base are all that lie below it. -/
theorem doomed_of_fold {f : Fold} (h : f.Kept cfg s) (hbase : f.base = s.timeline.baseCkpt) :
    (s.setBase f.key).Doomed cfg (f.segments.takeWhile fun id => id < f.key.toSegmentId) := by
  have hasc : Ascending (fun id : SegmentId => id) f.segments := h.listed.sorted
  have hfilter : (f.segments.takeWhile fun id => id < f.key.toSegmentId) =
      f.segments.filter fun id => id < f.key.toSegmentId :=
    hasc.takeWhile_eq_filter fun a b hab hb =>
      decide_eq_true (lt_of_le_of_lt hab (of_decide_eq_true hb))
  rw [hfilter]
  refine ⟨h.listed.sorted.filter _, fun q hq => ?_⟩
  change _ ∨ f.key.toSegmentId ≤ q.1
  by_cases hle : f.key.toSegmentId ≤ q.1
  · exact .inr hle
  · have hlt := not_le.mp hle
    rcases h.listed.stored q hq with hmem | habove
    · exact .inl (List.mem_filter.mpr ⟨hmem, decide_eq_true hlt⟩)
    · -- a segment above all listed ones lies above the key
      refine absurd hlt (not_lt.mpr ?_)
      rcases h.key_mem with heq | hmem
      · rw [heq, hbase]
        exact h.cleared q hq
      · exact (habove _ hmem).le

theorem Kept.resume (h : s.Kept cfg) {m : Manifest} {k : Cont} (hpc : s.pcs p = .lookup m k)
    (hcoh : (s.resume cfg p m k).Coherent cfg) : (s.resume cfg p m k).Kept cfg := by
  have hok := h.coherent.pcs p
  have hkept := h.pcs p
  rw [hpc] at hok hkept
  obtain ⟨hm, target, -, hc, hk⟩ := hok
  obtain ⟨hexact, hkept⟩ := hkept
  have hquiet : k.snapshot = none → (s.pcs p).compacting = true → s.Cleared cfg := by
    intro hk hcomp
    rw [hpc, show (Pc.lookup m k).compacting = k.snapshot.isSome from rfl, hk] at hcomp
    exact absurd hcomp (by decide)
  cases k with
  | done => exact h.goto hcoh trivial fun hcomp _ => hquiet rfl hcomp
  | chunk tag since =>
    rw [Shared.resume] at hcoh ⊢
    cases hr : m.lookup tag with
    | none =>
      rw [hr] at hcoh
      exact h.answer hcoh (hquiet rfl)
    | some r =>
      rw [hr] at hcoh
      exact h.goto hcoh trivial fun hcomp _ => hquiet rfl hcomp
  | relfork rf since => exact h.answer hcoh (hquiet rfl)
  | compact job segments toApply =>
    obtain rfl := hk.1
    exact h.goto hcoh (fold_kept hk hkept (hexact _ rfl)) fun _ hcomp =>
      absurd hcomp (by simp [Pc.compacting, Pc.snapshot])

/-- A stored base manifest. -/
theorem Kept.put (h : s.Kept cfg) {f : Fold} (hpc : s.pcs p = .put f)
    (hcoh : ((s.publishBase cfg p f.key f.applied).goto p (.rename f)).Coherent cfg) :
    ((s.publishBase cfg p f.key f.applied).goto p (.rename f)).Kept cfg := by
  have hkept := h.pcs p
  rw [hpc] at hkept
  have hcomp : (s.pcs p).compacting = true := by rw [hpc]; rfl
  have hself : ((s.publishBase cfg p f.key f.applied).goto p (.rename f)).pcs p = .rename f :=
    Function.update_self ..
  refine h.of_move hcoh (fun k m hm => ?_) h.tikm h.above h.upward
    (fun q hq => Function.update_of_ne hq ..) (.inl hcomp) ?_ fun _ hdone => ?_
  · have hlook : ((s.publishBase cfg p f.key f.applied).storage.bases cfg.dbId).lookup k = some m := hm
    rw [lookup_publishBase] at hlook
    split_ifs at hlook with hk
    · rw [hk, ← Option.some.inj hlook]
      exact hkept.key.symm
    · exact h.exact k m hlook
  · rw [hself]
    exact ⟨hkept.cleared, ⟨hkept.listed.sorted, hkept.listed.le_head, hkept.listed.stored⟩,
      hkept.key, hkept.base_le, hkept.key_mem⟩
  · rw [hself] at hdone
    exact absurd hdone (by simp [Pc.compacting, Pc.snapshot])

/-- A new manifest is renamed over the local file. -/
theorem Kept.rename (h : s.Kept cfg) {f : Fold} (hpc : s.pcs p = .rename f)
    (hcoh : ((s.publishTikm p f.applied).goto p (.advance f)).Coherent cfg) :
    ((s.publishTikm p f.applied).goto p (.advance f)).Kept cfg := by
  have hok := h.coherent.pcs p
  have hkept := h.pcs p
  rw [hpc] at hok hkept
  have hcomp : (s.pcs p).compacting = true := by rw [hpc]; rfl
  have hself : ((s.publishTikm p f.applied).goto p (.advance f)).pcs p = .advance f :=
    Function.update_self ..
  have hkey := hkept.key.le
  refine h.of_move hcoh h.exact ⟨f.applied, rfl, ?_⟩ h.above h.upward
    (fun q hq => Function.update_of_ne hq ..) (.inl hcomp) ?_ fun _ hdone => ?_
  · change s.timeline.baseCkpt ≤ f.applied.checkpoint
    rw [← hok.1.base]
    exact hkept.base_le.trans hkey
  · rw [hself]
    exact ⟨⟨hkept.cleared, ⟨hkept.listed.sorted, hkept.listed.le_head, hkept.listed.stored⟩,
      hkept.key, hkept.base_le, hkept.key_mem⟩, f.applied, rfl, hkey⟩
  · rw [hself] at hdone
    exact absurd hdone (by simp [Pc.compacting, Pc.snapshot])

/-- The base moves to the new manifest; the local file is there already. -/
theorem Kept.advance (h : s.Kept cfg) {f : Fold} (hpc : s.pcs p = .advance f)
    (hcoh : ((s.setBase f.key).goto p (.swap f)).Coherent cfg) :
    ((s.setBase f.key).goto p (.swap f)).Kept cfg := by
  have hok := h.coherent.pcs p
  have hkept := h.pcs p
  rw [hpc] at hok hkept
  obtain ⟨hf, htikm⟩ := hkept
  have hcomp : (s.pcs p).compacting = true := by rw [hpc]; rfl
  have hself : ((s.setBase f.key).goto p (.swap f)).pcs p = .swap f := Function.update_self ..
  have hle : s.timeline.baseCkpt ≤ f.key := hok.1.base ▸ hf.base_le
  refine h.of_move hcoh h.exact htikm (fun e he hseg => ?_) h.upward
    (fun q hq => Function.update_of_ne hq ..) (.inl hcomp) ?_ fun _ hdone => ?_
  · exact h.above e he ((Checkpoint.toSegmentId_mono hle).trans hseg)
  · rw [hself]
    have hdoomed := doomed_of_fold hf hok.1.base
    exact ⟨hdoomed.sorted, hdoomed.stored⟩
  · rw [hself] at hdone
    exact absurd hdone (by simp [Pc.compacting])

/-- The lowest stored segment below the base is deleted. -/
theorem Kept.delete (h : s.Kept cfg) {id : SegmentId} {ids : List SegmentId}
    (hpc : s.pcs p = .delete (id :: ids))
    (hcoh : ((s.deleteSegment cfg id).goto p (.delete ids)).Coherent cfg) :
    ((s.deleteSegment cfg id).goto p (.delete ids)).Kept cfg := by
  have hok := h.coherent.pcs p
  have hkept := h.pcs p
  rw [hpc] at hok hkept
  obtain ⟨F, hF⟩ := h.coherent.core
  have hcomp : (s.pcs p).compacting = true := by rw [hpc]; rfl
  have hself : ((s.deleteSegment cfg id).goto p (.delete ids)).pcs p = .delete ids :=
    Function.update_self ..
  have hseg : ((s.deleteSegment cfg id).goto p (.delete ids)).storage.segments cfg.dbId =
      (s.storage.segments cfg.dbId).filter fun x _ => !List.contains [id] x := Function.update_self ..
  have hid : id < s.timeline.baseCkpt.toSegmentId := hok id List.mem_cons_self
  -- it is the lowest one, since all that lie below the base are still to be deleted, in order
  have hmin : ∀ q ∈ (s.storage.segments cfg.dbId).entries, id ≤ q.1 := by
    intro q hq
    rcases hkept.stored q hq with hmem | hle
    · rcases List.mem_cons.mp hmem with heq | hmem
      · exact heq.ge
      · exact ((List.pairwise_cons.mp hkept.sorted).1 _ hmem).le
    · exact hid.le.trans hle
  have hstays : ∀ e ∈ storedRecords (s.storage.segments cfg.dbId), id < e.ckpt.toSegmentId →
      e ∈ storedRecords ((s.storage.segments cfg.dbId).filter fun x _ => !List.contains [id] x) := by
    intro e he hlt
    obtain ⟨q, hq, heq⟩ := mem_storedRecords.mp he
    refine mem_storedRecords.mpr ⟨q, List.mem_filter.mpr ⟨hq, ?_⟩, heq⟩
    have hne : q.1 ≠ id := by
      rw [← (hF.wf q hq).2.2 e heq]
      exact hlt.ne'
    simpa using hne
  refine h.of_move hcoh h.exact h.tikm (fun e he hle => ?_) (fun e he e' he' hle => ?_)
    (fun q hq => Function.update_of_ne hq ..) (.inl hcomp) ?_ fun _ hdone => ?_
  · rw [hseg]
    exact hstays e (h.above e he hle) (hid.trans_le hle)
  · rw [hseg] at he ⊢
    obtain ⟨q, hq, heq⟩ := mem_storedRecords.mp he
    obtain ⟨hq, hkeep⟩ := List.mem_filter.mp hq
    have hlt : id < e.ckpt.toSegmentId := by
      rw [(hF.wf q hq).2.2 e heq]
      exact lt_of_le_of_ne (hmin q hq) fun hc => by simp [hc] at hkeep
    exact hstays e' (h.upward e (mem_storedRecords.mpr ⟨q, hq, heq⟩) e' he' hle) (hlt.trans_le hle)
  · rw [hself]
    refine ⟨(List.pairwise_cons.mp hkept.sorted).2, fun q hq => ?_⟩
    rw [hseg] at hq
    obtain ⟨hq, hkeep⟩ := List.mem_filter.mp hq
    refine (hkept.stored q hq).imp_left fun hmem => (List.mem_cons.mp hmem).resolve_left fun hc => ?_
    simp [hc] at hkeep
  · rw [hself] at hdone
    exact absurd hdone (by simp [Pc.compacting])

/-- **The steps of threads keep the local file covering.** -/
theorem Kept.run (h : s.Kept cfg) (hfwd : s.ForwardAt (s.pcs p))
    (hs : s.runThread cfg p = some s') : s'.Kept cfg := by
  have hcoh := h.coherent.run hs
  have hok := h.coherent.pcs p
  have hkept := h.pcs p
  obtain ⟨F, hF⟩ := h.coherent.core
  -- a place of the same compaction, or of none
  have hsame : ∀ {pc pc' : Pc}, s.pcs p = pc → pc'.compacting = pc.compacting →
      (s.pcs p).compacting = true → pc'.compacting = false → s.Cleared cfg := by
    intro pc pc' hpc heq hc hc'
    rw [hpc, ← heq, hc'] at hc
    exact absurd hc (by decide)
  cases moves_of_runThread cfg hs with
  | @list job segments hpc hl =>
    rw [hpc] at hok hkept
    subst hl
    have hlisted := hF.listed (p := p) hkept job.high
    rw [← show job.base = s.timeline.baseCkpt from hok] at hlisted
    exact h.goto hcoh ⟨hkept, hlisted, fun id hid => hid, fun e he => absurd he List.not_mem_nil⟩
      (hsame hpc rfl)
  | load hpc hl =>
    rw [hpc] at hkept
    obtain ⟨hc, hlisted, htodo, hseg⟩ := hkept
    refine h.goto hcoh ⟨hc, hlisted, fun x hx => htodo x (List.mem_cons_of_mem _ hx),
      fun e he => ?_⟩ (hsame hpc rfl)
    rcases List.mem_append.mp he with he | he
    · exact hseg e he
    · rw [(hF.wf _ (mem_of_loadSegment hl)).2.2 e he]
      exact htodo _ List.mem_cons_self
  | loadFails hpc =>
    rw [hpc] at hkept
    exact h.goto hcoh trivial fun _ _ => hkept.1
  | nothingNew hpc =>
    rw [hpc] at hkept
    exact h.goto hcoh trivial fun _ _ => hkept.1
  | loaded hpc hl hne =>
    rw [hpc] at hkept hfwd
    obtain ⟨hc, hlisted, -, hseg⟩ := hkept
    subst hl
    refine h.goto hcoh ⟨hc, hlisted, fun e he => hseg e ?_, hfwd⟩ (hsame hpc rfl)
    exact List.mem_of_mem_filter ((List.mem_insertionSort _).mp he)
  | readBase hpc =>
    rw [hpc] at hkept
    exact h.goto hcoh hkept (hsame hpc rfl)
  | cached hpc hc =>
    rw [hpc] at hkept hok
    exact h.goto hcoh ⟨fun c hcs => hc.trans (snapshot_of_ok hok.2.2 c hcs), hkept⟩ (hsame hpc rfl)
  | noBase hpc =>
    rw [hpc] at hkept
    exact h.goto hcoh ⟨rfl, hkept⟩ (hsame hpc rfl)
  | stale hpc hd =>
    rw [hpc] at hkept
    exact h.goto hcoh hkept (hsame hpc rfl)
  | localFile hpc hm hc =>
    rw [hpc] at hkept
    exact h.goto hcoh ⟨hc, hkept⟩ (hsame hpc rfl)
  | otherFile hpc =>
    rw [hpc] at hkept
    exact h.goto hcoh hkept (hsame hpc rfl)
  | getBase hpc hm =>
    rw [hpc] at hkept
    exact h.goto hcoh ⟨h.exact _ _ hm, hkept⟩ (hsame hpc rfl)
  | getFails hpc hm =>
    rw [hpc] at hok
    obtain ⟨m, hm'⟩ := hok.2.1
    rw [hm] at hm'
    exact absurd hm' (by simp)
  | @writeTikm target m k hpc =>
    rw [hpc] at hkept hfwd
    have hself : ((s.publishTikm p m).goto p (.store target m k)).pcs p = .store target m k :=
      Function.update_self ..
    refine h.still hcoh rfl rfl rfl rfl (fun m' hm' => ⟨m, rfl, hfwd m' hm'⟩)
      (fun q hq => Function.update_of_ne hq ..) (fun hadds => ?_) ?_
    · rw [hself]
      exact ⟨hkept.1, hkept.2.adds fun _ => hadds⟩
    · rw [hself]
      exact hsame hpc rfl
  | sibling hpc hc =>
    rw [hpc] at hkept hok
    exact h.goto hcoh ⟨fun c hcs => hc.trans (snapshot_of_ok hok.2.2.2 c hcs), hkept.2⟩
      (hsame hpc rfl)
  | @store target m k hpc =>
    rw [hpc] at hkept hok
    have hself : ((s.cache p m).goto p (.lookup m k)).pcs p = .lookup m k := Function.update_self ..
    refine h.still hcoh rfl rfl rfl rfl (fun m' hm' => ⟨m', hm', le_rfl⟩)
      (fun q hq => Function.update_of_ne hq ..) (fun hadds => ?_) ?_
    · rw [hself]
      exact ⟨fun c hcs => hkept.1.trans (snapshot_of_ok hok.2.2.2 c hcs),
        hkept.2.adds fun _ => hadds⟩
    · rw [hself]
      exact hsame hpc rfl
  | lookup hpc => exact h.resume hpc hcoh
  | fetch hpc =>
    refine h.answer hcoh fun hcomp => ?_
    rw [hpc] at hcomp
    exact absurd hcomp (by simp [Pc.compacting, Pc.snapshot])
  | put hpc => exact h.put hpc hcoh
  | rename hpc => exact h.rename hpc hcoh
  | raced hpc hb =>
    rw [hpc] at hkept
    exact h.answer hcoh fun _ => hkept.1.cleared
  | advance hpc hb => exact h.advance hpc hcoh
  | @swap f dead hpc hd =>
    rw [hpc] at hkept
    have hdoomed : s.Doomed cfg dead := hd ▸ hkept
    have hself : ((s.cache p f.applied).goto p (.delete dead)).pcs p = .delete dead :=
      Function.update_self ..
    refine h.still hcoh rfl rfl rfl rfl (fun m' hm' => ⟨m', hm', le_rfl⟩)
      (fun q hq => Function.update_of_ne hq ..) (fun hadds => ?_) ?_
    · rw [hself]
      exact hdoomed.adds hadds
    · rw [hself]
      exact hsame hpc rfl
  | delete hpc => exact h.delete hpc hcoh
  | deleted hpc =>
    rw [hpc] at hkept
    refine h.goto hcoh trivial fun _ _ q hq => ?_
    exact (hkept.stored q hq).resolve_left List.not_mem_nil

/-! ## Calls -/

variable [Zero β]

/-- A commit stores its record in the last segment. -/
theorem Kept.commit (h : s.Kept cfg) {a : Db.CommitArgs} (hidle : s.pcs p = .idle)
    (hlt : s.timeline.headCkpt < a.ckpt) (hcoh : (s.call cfg p (.commit a)).Coherent cfg) :
    (s.call cfg p (.commit a)).Kept cfg := by
  obtain ⟨F, hF⟩ := h.coherent.core
  obtain ⟨d, hd, -⟩ := DraftBuffer.drain_of_holds hF.draft
  have hcommitted : s.committed cfg a = [a.summary s.timeline.headCkpt F] := by
    rw [committed, hd]
  rw [Shared.call, Db.runCommitProtocol_ok (s := s.db p) hd a, hcommitted] at hcoh ⊢
  let n := a.summary s.timeline.headCkpt F
  let segments := Function.update s.storage.segments cfg.dbId
    (appendRecord (s.storage.segments cfg.dbId) n)
  have hseg : segments cfg.dbId = appendRecord (s.storage.segments cfg.dbId) n :=
    Function.update_self ..
  have hhead : s.timeline.headCkpt.toSegmentId ≤ a.ckpt.toSegmentId :=
    Checkpoint.toSegmentId_mono hlt.le
  have hstored : storedRecords (segments cfg.dbId) =
      storedRecords (s.storage.segments cfg.dbId) ++ [n] := by
    rw [hseg]
    refine storedRecords_appendRecord (hF.wf.ids_le fun e he => ?_)
    exact (hF.log.bounds e (hF.sub.subset he)).2.2.trans hlt.le
  have hin : n ∈ storedRecords (segments cfg.dbId) := by
    rw [hstored]
    exact List.mem_append_right _ (List.mem_singleton.mpr rfl)
  have hold : ∀ e ∈ storedRecords (s.storage.segments cfg.dbId),
      e ∈ storedRecords (segments cfg.dbId) := fun e he => by
    rw [hstored]
    exact List.mem_append_left _ he
  have hnone : (s.pcs p).compacting = false := by rw [hidle]; rfl
  refine h.of_move hcoh h.exact h.tikm (fun e he hle => ?_) (fun e he e' he' hle => ?_)
    (fun q hq => rfl) (.inr ⟨rfl, hF.base_le, hlt.le, fun q' hq' => ?_, fun m hm => ⟨m, hm, le_rfl⟩⟩)
    ?_ fun hcomp => absurd hcomp (by rw [hnone]; decide)
  · rcases List.mem_append.mp he with he | he
    · exact hold e (h.above e he hle)
    · rw [List.mem_singleton.mp he]
      exact hin
  · rcases List.mem_append.mp he' with he' | he'
    · refine hold e' ?_
      have he : e ∈ storedRecords (segments cfg.dbId) := he
      rw [hstored] at he
      rcases List.mem_append.mp he with he | he
      · exact h.upward e he e' he' hle
      · -- an older record of the segment of the new one
        refine h.above e' he' ?_
        rw [List.mem_singleton.mp he] at hle
        exact ((Checkpoint.toSegmentId_mono hF.base_le).trans hhead).trans hle
    · rw [List.mem_singleton.mp he']
      exact hin
  · have hq' : q' ∈ (segments cfg.dbId).entries := hq'
    rw [hseg] at hq'
    rcases (SortedMap.mem_insertList (s.storage.segments cfg.dbId).sorted q').mp hq' with
      rfl | ⟨-, hq'⟩
    · exact .inr hhead
    · exact .inl ⟨q', hq', rfl⟩
  · change (s.pcs p).Kept cfg _
    rw [hidle]
    trivial

omit [DecidableEq ι] [Zero β] in
/-- A call of an idle thread that changes neither segments, base manifests, records nor the base. -/
theorem Kept.write (h : s.Kept cfg) (hidle : s.pcs p = .idle) (hcoh : s'.Coherent cfg)
    (hseg : s'.storage.segments cfg.dbId = s.storage.segments cfg.dbId)
    (hbases : s'.storage.bases cfg.dbId = s.storage.bases cfg.dbId)
    (htime : s'.timeline = s.timeline) (hH : s'.history = s.history)
    (htikm : ∀ m, s.tikm = some m → ∃ m', s'.tikm = some m' ∧ m.checkpoint ≤ m'.checkpoint)
    (hpcs : s'.pcs = s.pcs) : s'.Kept cfg := by
  refine h.still (p := p) hcoh hseg hbases htime hH htikm (fun q _ => congrFun hpcs q) (fun _ => ?_)
    fun hcomp => absurd hcomp (by rw [hidle]; decide)
  rw [hpcs, hidle]
  trivial

theorem Kept.patchChunk (h : s.Kept cfg) (hidle : s.pcs p = .idle) {tag : ChunkTag} {offset : ℕ}
    {data : List β} (hfwd : s.Forward cfg (.call p (.patchChunk tag offset data)))
    (hcoh : (s.call cfg p (.patchChunk tag offset data)).Coherent cfg) :
    (s.call cfg p (.patchChunk tag offset data)).Kept cfg := by
  have hmono : ∀ m, s.tikm = some m → ∃ m',
      ((s.db p).patchChunk cfg .ok tag offset data).2.tikm = some m' ∧
        m.checkpoint ≤ m'.checkpoint := by
    intro m hm
    rcases Db.tikm_patchChunk cfg (s.db p) .ok tag offset data with heq | ⟨hcond, m', hr, heq⟩
    · exact ⟨m, heq.trans hm, le_rfl⟩
    · exact ⟨m', heq, hfwd hcond m' hr m hm⟩
  obtain ⟨s', ⟨manifest, tikm, rfl, -, -⟩, hp⟩ :=
    Db.patchChunk_cases cfg (s.db p) .ok tag offset data
  rcases hp with ⟨c, hp⟩ | ⟨e, hp⟩
  · rw [hp] at hmono
    rw [Shared.call, hp] at hcoh ⊢
    exact h.write hidle hcoh rfl rfl rfl rfl hmono rfl
  · rw [hp] at hmono
    rw [Shared.call, hp] at hcoh ⊢
    exact h.write hidle hcoh rfl rfl rfl rfl hmono rfl

omit [Zero β] in
/-- A read that has found nothing under the lock. -/
theorem Kept.readBase (h : s.Kept cfg) (hidle : s.pcs p = .idle) {k : Cont} (hk : k.snapshot = none)
    (hcoh : (s.goto p (.readBase k)).Coherent cfg) : (s.goto p (.readBase k)).Kept cfg := by
  refine h.goto hcoh ?_ fun hcomp => absurd hcomp (by rw [hidle]; decide)
  cases k with
  | compact job segments toApply => exact absurd hk (by simp [Cont.snapshot])
  | _ => trivial

omit [Zero β] in
/-- A compaction starts when there is no other. -/
theorem Kept.startJob (h : s.Kept cfg) (hidle : s.pcs p = .idle) {job : Job}
    (hjob : job.base = s.timeline.baseCkpt) (hquiet : ∀ q, (s.pcs q).compacting = false) :
    (s.startJob p job).Kept cfg := by
  have hcoh := h.coherent.startJob (p := p) hjob hquiet
  obtain ⟨F, hF⟩ := h.coherent.core
  have hnoted : Coherent cfg { s with changed := Function.update s.changed p false } :=
    h.coherent.keep p ⟨F, { hF with }⟩ (grows_of_eq rfl rfl (fun _ h => h) rfl rfl) rfl rfl rfl
  have hkept : Kept cfg { s with changed := Function.update s.changed p false } :=
    h.write hidle hnoted rfl rfl rfl rfl (fun m hm => ⟨m, hm, le_rfl⟩) rfl
  rw [Shared.startJob] at hcoh ⊢
  split_ifs at hcoh ⊢
  · exact hkept
  · exact hkept.goto hcoh (hkept.cleared hquiet) fun hcomp =>
      absurd hcomp (by rw [show _ = _ from hidle]; decide)

/-- **Calls keep the local file covering.** -/
theorem Kept.call (h : s.Kept cfg) {op : Op β} (hidle : s.pcs p = .idle)
    (hord : s.Orderly (.call p op)) (hfwd : s.Forward cfg (.call p op)) :
    (s.call cfg p op).Kept cfg := by
  have hcoh := h.coherent.call hord
  have hnone : (s.pcs p).compacting = true → s.Cleared cfg := by
    intro hcomp
    rw [hidle] at hcomp
    exact absurd hcomp (by decide)
  cases op with
  | patchChunk tag offset data => exact h.patchChunk hidle hfwd hcoh
  | putMeta rf m =>
    exact h.write hidle hcoh rfl rfl rfl rfl (fun m hm => ⟨m, hm, le_rfl⟩) rfl
  | commit a => exact h.commit hidle hord.1 hcoh
  | getChunk tag =>
    rw [Shared.call] at hcoh ⊢
    rcases hl : (s.db p).getChunkLocked cfg tag with e | c | c
    · rw [hl] at hcoh
      exact h.answer hcoh hnone
    · rw [hl] at hcoh
      exact h.readBase hidle rfl hcoh
    · rw [hl] at hcoh
      exact h.answer hcoh hnone
  | getMeta rf =>
    rw [Shared.call] at hcoh ⊢
    rcases hl : (s.db p).getMetaLocked cfg rf with e | m | m
    · rw [hl] at hcoh
      exact h.answer hcoh hnone
    · rw [hl] at hcoh
      exact h.readBase hidle rfl hcoh
    · rw [hl] at hcoh
      exact h.answer hcoh hnone
  | baseManifest => exact h.readBase hidle rfl hcoh
  | compact now => exact h.startJob hidle rfl hord
  | compactThrough target now => exact h.startJob hidle rfl hord

theorem Kept.step {l : Label ι β} (h : s.Kept cfg) (hord : s.Orderly l) (hfwd : s.Forward cfg l)
    (hs : s.step cfg l = some s') : s'.Kept cfg := by
  cases l with
  | call p op =>
    rw [Shared.step] at hs
    split at hs
    · next hidle =>
      rw [← Option.some.inj hs]
      exact h.call hidle hord hfwd
    · exact absurd hs (by simp)
  | run p => exact h.run hfwd hs

omit [DecidableEq ι] [Zero β] in
theorem Fresh.kept (h : s.Fresh) : s.Kept cfg := by
  have hsegments : s.storage.segments cfg.dbId = .empty := by rw [h.storage]
  refine ⟨h.coherent, fun k m hm => ?_, ⟨.empty, h.tikm, h.baseCkpt.le⟩, fun e he => ?_,
    fun e he => ?_, fun _ q hq => ?_, fun p => ?_⟩
  · rw [h.storage] at hm
    exact absurd hm (by simp)
  · rw [h.history] at he
    exact absurd he List.not_mem_nil
  · rw [hsegments] at he
    exact absurd he List.not_mem_nil
  · rw [hsegments] at hq
    exact absurd hq List.not_mem_nil
  · rw [h.pcs p]
    trivial

end Steps

/-! ## Runs -/

section Runs

variable {s : Shared ι β}

/-- The stored records are the newest ones of the log. -/
theorem Kept.suffix (h : s.Kept cfg) :
    storedRecords (s.storage.segments cfg.dbId) <:+ s.history := by
  obtain ⟨F, hF⟩ := h.coherent.core
  have hasc := hF.log.ascending_ckpt
  cases hst : storedRecords (s.storage.segments cfg.dbId) with
  | nil => exact List.nil_suffix
  | cons x l =>
    have hsub := hF.sub
    have hup := h.upward x (by rw [hst]; exact List.mem_cons_self)
    rw [hst] at hsub hup
    have hx : ∀ e ∈ x :: l, x.ckpt ≤ e.ckpt := by
      intro e he
      rcases List.mem_cons.mp he with rfl | he
      · exact le_rfl
      · exact ((List.pairwise_cons.mp (hasc.sublist hsub)).1 e he).le
    -- they are the records from the first of them on
    have heq : x :: l = s.history.filter fun e => decide (x.ckpt ≤ e.ckpt) := by
      have hself : (x :: l).filter (fun e => decide (x.ckpt ≤ e.ckpt)) = x :: l :=
        List.filter_eq_self.mpr fun e he => decide_eq_true (hx e he)
      have hsub' := hsub.filter fun e => decide (x.ckpt ≤ e.ckpt)
      rw [hself] at hsub'
      refine hsub'.eq_of_length_le (List.Nodup.length_le_of_subset ?_ fun e he => ?_)
      · exact ((hasc.sublist List.filter_sublist).imp fun hlt heq => by simp [heq] at hlt)
      · obtain ⟨he, hle⟩ := List.mem_filter.mp he
        exact hup e he (Checkpoint.toSegmentId_mono (of_decide_eq_true hle))
    have hnot : (fun e : SegmentCheckpoint => decide (x.ckpt ≤ e.ckpt)) =
        fun e => !decide (e.ckpt < x.ckpt) := by
      funext e
      rw [← decide_not, decide_eq_decide, not_lt]
    rw [heq, hnot]
    refine ⟨_, hasc.filter_append_filter_not fun a b hab hb => ?_⟩
    exact decide_eq_true (lt_of_le_of_lt hab (of_decide_eq_true hb))

/-- The local file and the stored segments hold the log. -/
theorem Kept.durable (h : s.Kept cfg) {m : Manifest} (hm : s.tikm = some m) :
    Durable cfg s.storage s.history s.timeline.headCkpt m := by
  obtain ⟨F, hF⟩ := h.coherent.core
  obtain ⟨m', hm', hle⟩ := h.tikm
  obtain rfl : m' = m := Option.some.inj (hm'.symm.trans hm)
  refine ⟨hF.log, hF.wf, h.suffix, fun hne => ?_, hF.tikm _ hm, fun e he _ hlt => ?_,
    hF.objects.sealed⟩
  · have hlast := h.above _ (List.getLast_mem hne) (by
      rw [hF.log.getLast_ckpt hne]
      exact Checkpoint.toSegmentId_mono hF.base_le)
    exact List.ne_nil_of_mem hlast
  · exact h.above e he (Checkpoint.toSegmentId_mono (hle.trans hlt.le))

variable [DecidableEq ι] [Zero β]

/-- **The local manifest file covers what is deleted.** On every run from a fresh state, with
increasing commits and one compaction at a time, where no reader renames an older manifest over the
local file and `run_compaction` does not publish under a blank record: every committed record above the
checkpoint of the local file is in a stored segment, and a restart at that moment finds the newest
committed version of all metadata, and of every chunk whose relation is not deleted. -/
theorem local_file_covers_deleted {s₀ : Shared ι β} (h₀ : s₀.Fresh)
    (h : Reaches (Shared.step cfg) (fun s l => s.Orderly l ∧ s.Forward cfg l) s₀ s) :
    (∃ m, s.tikm = some m ∧ ∀ e ∈ s.history, m.checkpoint < e.ckpt →
      e ∈ storedRecords (s.storage.segments cfg.dbId)) ∧
    ∀ p, (∀ rf, (((s.db p).restart cfg false false).getMeta cfg rf).1 =
        found (newest (·.relforkMeta rf) s.history)) ∧
      ∀ tag, Live s.history tag.relFork → (((s.db p).restart cfg false false).getChunk cfg tag).1 =
        found (newest (objectOf cfg s.storage tag) s.history) := by
  have hkept : s.Kept cfg := h.invariant h₀.kept fun _ _ _ hinv hok hs => hinv.step hok.1 hok.2 hs
  obtain ⟨m, hm, hle⟩ := hkept.tikm
  refine ⟨⟨m, hm, fun e he hlt => ?_⟩, fun p => ?_⟩
  · exact hkept.above e he (Checkpoint.toSegmentId_mono (hle.trans hlt.le))
  · have hopened : (s.db p).openedManifest cfg false = m := by
      rw [Db.openedManifest, if_neg Bool.false_ne_true, show (s.db p).tikm = some m from hm]
      rfl
    have hdur : Durable cfg (s.db p).storage s.history s.timeline.headCkpt
        ((s.db p).openedManifest cfg false) := hopened.symm ▸ hkept.durable hm
    exact ⟨fun rf => hdur.getMeta_restart rf, fun tag hlive => hdur.getChunk_restart hlive⟩

end Runs

/-! ## A reader that takes the local file back -/

section Witnesses

instance (s : Shared ι β) (m : Manifest) : Decidable (s.NotNewer m) :=
  inferInstanceAs (Decidable (∀ m' ∈ s.tikm, m'.checkpoint ≤ m.checkpoint))

instance ForwardAt.decidable (s : Shared ι β) : ∀ pc, Decidable (s.ForwardAt pc)
  | .writeTikm _ m _ => inferInstanceAs (Decidable (s.NotNewer m))
  | .load job _ [] scs => inferInstanceAs (Decidable (job.through = false →
      ∀ e ∈ ((scs.filter job.selects).insertionSort Db.ckptLe).getLast?, e.isBlank = false))
  | .load _ _ (_ :: _) _ => inferInstanceAs (Decidable True)
  | .idle => inferInstanceAs (Decidable True)
  | .list _ => inferInstanceAs (Decidable True)
  | .readBase _ => inferInstanceAs (Decidable True)
  | .compare _ _ => inferInstanceAs (Decidable True)
  | .openLocal _ _ => inferInstanceAs (Decidable True)
  | .getBase _ _ => inferInstanceAs (Decidable True)
  | .store _ _ _ => inferInstanceAs (Decidable True)
  | .lookup _ _ => inferInstanceAs (Decidable True)
  | .fetch _ _ _ => inferInstanceAs (Decidable True)
  | .put _ => inferInstanceAs (Decidable True)
  | .rename _ => inferInstanceAs (Decidable True)
  | .advance _ => inferInstanceAs (Decidable True)
  | .swap _ => inferInstanceAs (Decidable True)
  | .delete _ => inferInstanceAs (Decidable True)

instance decidableOkNone {α : Type} : ∀ x : Except Error (Option α), Decidable (x = .ok none)
  | .ok none => .isTrue rfl
  | .ok (some _) => .isFalse (by simp)
  | .error _ => .isFalse (by simp)

instance Forward.decidable (cfg : StoreConfig) (s : Shared ι β) : ∀ l, Decidable (s.Forward cfg l)
  | .call p (.patchChunk tag offset data) => inferInstanceAs (Decidable
      (Chunk.isFull offset data = false ∧ (s.db p).getChunkLocked cfg tag = .ok none →
        ∀ m ∈ (s.db p).reload cfg, s.NotNewer m))
  | .call _ (.commit _) => inferInstanceAs (Decidable True)
  | .call _ (.compact _) => inferInstanceAs (Decidable True)
  | .call _ (.compactThrough _ _) => inferInstanceAs (Decidable True)
  | .call _ (.putMeta _ _) => inferInstanceAs (Decidable True)
  | .call _ (.getChunk _) => inferInstanceAs (Decidable True)
  | .call _ (.getMeta _) => inferInstanceAs (Decidable True)
  | .call _ .baseManifest => inferInstanceAs (Decidable True)
  | .run p => inferInstanceAs (Decidable (s.ForwardAt (s.pcs p)))

/-- The base is at LSN 100, and two more records are committed, the second in a later segment. -/
def threeRecords : List (Label (Fin 2) ℕ) :=
  [.call first (.putMeta Manifest.exampleTag.relFork ⟨1, false⟩),
    .call first (.commit ⟨⟨1, 100⟩, ⟨1, 100⟩, [], 0⟩), .call first (.compactThrough ⟨1, 100⟩ 0)] ++
    List.replicate 11 (.run first) ++
    [.call first (.putMeta { Manifest.exampleTag.relFork with relNumber := 1 } ⟨2, false⟩),
      .call first (.commit ⟨⟨1, 200⟩, ⟨1, 200⟩, [], 0⟩),
      .call first (.putMeta Manifest.exampleTag.relFork ⟨3, false⟩),
      .call first (.commit ⟨⟨1, 2000000000⟩, ⟨1, 2000000000⟩, [], 0⟩)]

/-- A compaction of both. -/
def foldBoth : List (Label (Fin 2) ℕ) :=
  .call first (.compactThrough ⟨1, 2000000000⟩ 0) :: List.replicate 9 (.run first)

theorem local_file_covers_threeRecords : ∃ s : Shared (Fin 2) ℕ,
    run (Shared.step exampleConfig) pair (threeRecords ++ foldBoth ++ List.replicate 3 (.run 0)) =
      some s ∧ s.history.length = 3 ∧
    ∃ m, s.tikm = some m ∧ ∀ e ∈ s.history, m.checkpoint < e.ckpt →
      e ∈ storedRecords (s.storage.segments exampleConfig.dbId) := by
  have hrun : (run (Shared.step exampleConfig) pair
      (threeRecords ++ foldBoth ++ List.replicate 3 (.run 0))).map (·.history.length) = some 3 := by
    decide +kernel
  have hok : Throughout (Shared.step exampleConfig)
      (fun s l => s.Orderly l ∧ s.Forward exampleConfig l) pair
      (threeRecords ++ foldBoth ++ List.replicate 3 (.run 0)) := by decide +kernel
  obtain ⟨s, hs, hthree⟩ := Option.map_eq_some_iff.mp hrun
  exact ⟨s, hs, hthree, (local_file_covers_deleted fresh_pair (reaches_of_run hs hok)).1⟩

/-- A reader has read the base at LSN 100, opens the local file when a compaction has renamed a newer
one over it, gets the old manifest and renames it over the newer one, and the compaction goes on to
delete the segment below its base. -/
def takenBack : List (Label (Fin 2) ℕ) :=
  threeRecords ++ [.call second .baseManifest, .run second, .run second] ++ foldBoth ++
    List.replicate 3 (.run second) ++ List.replicate 3 (.run first)

/-- **The local file falls behind the deleted segments**: the record at LSN 200 is above the
checkpoint of the local file and in no stored segment, and a restart does not find its metadata. -/
theorem local_file_falls_behind : ∃ s : Shared (Fin 2) ℕ,
    Reaches (Shared.step exampleConfig) Orderly pair s ∧
    (∃ m, s.tikm = some m ∧ ∃ e ∈ s.history, m.checkpoint < e.ckpt ∧
      e ∉ storedRecords (s.storage.segments exampleConfig.dbId)) ∧
    (((s.db 0).restart exampleConfig false false).getMeta exampleConfig
      { Manifest.exampleTag.relFork with relNumber := 1 }).1 = .error .notFound := by
  have hrun : (run (Shared.step exampleConfig) pair takenBack).map (fun s =>
      (s.tikm.map (·.checkpoint), s.history.map (·.ckpt),
        (storedRecords (s.storage.segments exampleConfig.dbId)).map (·.ckpt),
        (((s.db 0).restart exampleConfig false false).getMeta exampleConfig
          { Manifest.exampleTag.relFork with relNumber := 1 }).1)) =
      some (some ⟨1, 100⟩, [⟨1, 100⟩, ⟨1, 200⟩, ⟨1, 2000000000⟩], [⟨1, 2000000000⟩],
        .error .notFound) := by
    decide +kernel
  have hok : Throughout (Shared.step exampleConfig) Orderly pair takenBack := by decide +kernel
  obtain ⟨s, hs, h⟩ := Option.map_eq_some_iff.mp hrun
  obtain ⟨htikm, h⟩ := Prod.mk.inj h
  obtain ⟨hhistory, h⟩ := Prod.mk.inj h
  obtain ⟨hstored, hmeta⟩ := Prod.mk.inj h
  obtain ⟨m, hm, hck⟩ := Option.map_eq_some_iff.mp htikm
  have hmem : (⟨1, 200⟩ : Checkpoint) ∈ s.history.map (·.ckpt) := by rw [hhistory]; decide
  obtain ⟨e, he, hec⟩ := List.mem_map.mp hmem
  refine ⟨s, reaches_of_run hs hok, ⟨m, hm, e, he, ?_, fun hin => ?_⟩, hmeta⟩
  · rw [hck, hec]
    decide
  · have hmem := List.mem_map_of_mem (f := SegmentCheckpoint.ckpt) hin
    rw [hstored, hec] at hmem
    exact absurd hmem (by decide)

end Witnesses

end Shared

end Tiko

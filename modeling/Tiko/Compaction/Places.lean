import Tiko.Compaction.Coherent

/-!
# What a thread may rely on

Between its steps a thread holds on to what it has read: a base checkpoint, a manifest, loaded
segments. `Pc.Ok cfg s pc` says what it still knows of them at its place `pc`, whatever the others do
meanwhile.

* `Folded`: every write of a key before a read is in a record at or below a checkpoint, which the base
  manifest at that checkpoint holds;
* `Loading`: the segments that a compaction has loaded, and those that it has still to load, have all
  the records that it folds;
* `Grows`: what other threads can do to the shared state, and **`Pc.Ok.grows`**: a place keeps what it
  knows.
-/

namespace Tiko

open Lib

variable {ι β : Type} {cfg : StoreConfig}

/-! ## Writes below the base -/

/-- Every write of `k` among the first `since` is in a record up to `c`. -/
structure Folded {K V : Type} (H : List SegmentCheckpoint) (writes : List (Checkpoint × K × V))
    (has : SegmentCheckpoint → Bool) (k : K) (since : ℕ) (c : Checkpoint) : Prop where
  since_le : since ≤ writes.length
  record : ∀ i < since, ∀ q v, writes[i]? = some (q, k, v) →
    ∃ e ∈ H, e.prevCkpt = q ∧ has e = true ∧ e.ckpt ≤ c

namespace Folded

variable {K V : Type} {H new : List SegmentCheckpoint} {writes more : List (Checkpoint × K × V)}
  {has : SegmentCheckpoint → Bool} {k : K} {since : ℕ} {c c' : Checkpoint}

theorem append (h : Folded H writes has k since c) (new : List SegmentCheckpoint)
    (more : List (Checkpoint × K × V)) : Folded (H ++ new) (writes ++ more) has k since c := by
  refine ⟨h.since_le.trans (by simp), fun i hi q v hw => ?_⟩
  rw [List.getElem?_append_left (hi.trans_le h.since_le)] at hw
  obtain ⟨e, he, hrest⟩ := h.record i hi q v hw
  exact ⟨e, List.mem_append_left _ he, hrest⟩

theorem mono (h : Folded H writes has k since c)
    (hc : ∀ e ∈ H, has e = true → e.ckpt ≤ c → e.ckpt ≤ c') : Folded H writes has k since c' := by
  refine ⟨h.since_le, fun i hi q v hw => ?_⟩
  obtain ⟨e, he, hprev, hhas, hle⟩ := h.record i hi q v hw
  exact ⟨e, he, hprev, hhas, hc e he hhas hle⟩

end Folded

theorem not_isBlank_of_containsChunk {e : SegmentCheckpoint} {tag : ChunkTag}
    (h : e.containsChunk tag = true) : e.isBlank = false := by
  by_contra hb
  rw [SegmentCheckpoint.containsChunk_of_isBlank (by simpa using hb)] at h
  exact absurd h (by simp)

theorem not_isBlank_of_relforkMeta {e : SegmentCheckpoint} {rf : RelFork}
    (h : (e.relforkMeta rf).isSome = true) : e.isBlank = false := by
  by_contra hb
  rw [SegmentCheckpoint.relforkMeta_of_isBlank (by simpa using hb)] at h
  exact absurd h (by simp)

/-! ## Loading segments -/

/-- What a compaction has loaded and what it has still to load: a record that it folds has been loaded,
or is in a segment that it has still to load, or came after all of them. -/
structure Loading (H : List SegmentCheckpoint) (job : Job) (todo : List SegmentId)
    (scs : List SegmentCheckpoint) : Prop where
  ascending : Ascending SegmentCheckpoint.ckpt scs
  mem : ∀ e ∈ scs, e ∈ H
  sorted : todo.Pairwise (· < ·)
  below : ∀ e ∈ scs, ∀ id ∈ todo, e.ckpt.toSegmentId < id
  nonempty : ∀ id ∈ todo, ∃ e ∈ H, e.ckpt.toSegmentId = id
  closed : ∀ e ∈ H, e.isBlank = false → job.selects e = true → e ∈ scs ∨ e.ckpt.toSegmentId ∈ todo ∨
    (∀ id ∈ todo, id < e.ckpt.toSegmentId) ∧ ∀ x ∈ scs, x.ckpt < e.ckpt

theorem Job.lt_of_selects {job : Job} {e : SegmentCheckpoint} (h : job.selects e = true) :
    job.base < e.ckpt := by
  rw [Job.selects, Bool.and_eq_true, decide_eq_true_iff] at h
  exact h.1

theorem Job.le_of_selects {job : Job} {e : SegmentCheckpoint} (h : job.selects e = true) :
    e.ckpt ≤ job.high := by
  rw [Job.selects, Bool.and_eq_true] at h
  have h2 := h.2
  split_ifs at h2
  · exact of_decide_eq_true h2
  · exact (of_decide_eq_true h2).le

/-- A record above the base that is not folded lies above those that are. -/
theorem Job.lt_of_not_selects {job : Job} {e x : SegmentCheckpoint} (hx : job.selects x = true)
    (he : job.selects e = false) (hbase : job.base < e.ckpt) : x.ckpt < e.ckpt := by
  rw [Job.selects, decide_eq_true hbase, Bool.true_and] at he
  rw [Job.selects, Bool.and_eq_true] at hx
  have hx := hx.2
  split_ifs at he hx
  · exact (of_decide_eq_true hx).trans_lt (not_le.mp (of_decide_eq_false he))
  · exact (of_decide_eq_true hx).trans_le (not_lt.mp (of_decide_eq_false he))

namespace Loading

variable {H new scs : List SegmentCheckpoint} {job : Job} {todo : List SegmentId} {head : Checkpoint}

/-- A new record is in a segment to be loaded, or comes after everything. -/
theorem append (h : Loading H job todo scs) (hlog : Log H head) (hnew : ∀ e ∈ new, head < e.ckpt) :
    Loading (H ++ new) job todo scs := by
  refine ⟨h.ascending, fun e he => List.mem_append_left _ (h.mem e he), h.sorted, h.below,
    fun id hid => ?_, fun e he hb hsel => ?_⟩
  · obtain ⟨e, he, hseg⟩ := h.nonempty id hid
    exact ⟨e, List.mem_append_left _ he, hseg⟩
  · rcases List.mem_append.mp he with he | he
    · exact h.closed e he hb hsel
    · by_cases htodo : e.ckpt.toSegmentId ∈ todo
      · exact .inr (.inl htodo)
      · refine .inr (.inr ⟨fun id hid => ?_, fun x hx => ?_⟩)
        · obtain ⟨x, hx, hseg⟩ := h.nonempty id hid
          have hle : id ≤ e.ckpt.toSegmentId := hseg ▸
            Checkpoint.toSegmentId_mono ((hlog.bounds x hx).2.2.trans (hnew e he).le)
          exact lt_of_le_of_ne hle fun heq => htodo (heq ▸ hid)
        · exact (hlog.bounds x (h.mem x hx)).2.2.trans_lt (hnew e he)

/-- The next segment is loaded. -/
theorem next {id : SegmentId} {cps : List SegmentCheckpoint} (h : Loading H job (id :: todo) scs)
    (hasc : Ascending SegmentCheckpoint.ckpt cps) (hmem : ∀ e ∈ cps, e ∈ H)
    (hid : ∀ e ∈ cps, e.ckpt.toSegmentId = id)
    (hall : ∀ e ∈ H, e.isBlank = false → job.selects e = true → e.ckpt.toSegmentId = id → e ∈ cps) :
    Loading H job todo (scs ++ cps) := by
  have hlt : ∀ {a b : Checkpoint}, a.toSegmentId < b.toSegmentId → a < b := fun {a b} hab =>
    not_le.mp fun hle => absurd (Checkpoint.toSegmentId_mono hle) (not_le.mpr hab)
  refine ⟨?_, fun e he => ?_, (List.pairwise_cons.mp h.sorted).2, fun e he x hx => ?_,
    fun x hx => h.nonempty x (List.mem_cons_of_mem _ hx), fun e he hb hsel => ?_⟩
  · refine List.pairwise_append.mpr ⟨h.ascending, hasc, fun a ha b hb => hlt ?_⟩
    rw [hid b hb]
    exact h.below a ha id List.mem_cons_self
  · exact (List.mem_append.mp he).elim (h.mem e) (hmem e)
  · rcases List.mem_append.mp he with he | he
    · exact h.below e he x (List.mem_cons_of_mem _ hx)
    · rw [hid e he]
      exact (List.pairwise_cons.mp h.sorted).1 x hx
  · rcases h.closed e he hb hsel with hscs | htodo | ⟨hids, hbelow⟩
    · exact .inl (List.mem_append_left _ hscs)
    · rcases List.mem_cons.mp htodo with heq | htodo
      · exact .inl (List.mem_append_right _ (hall e he hb hsel heq))
      · exact .inr (.inl htodo)
    · refine .inr (.inr ⟨fun x hx => hids x (List.mem_cons_of_mem _ hx), fun x hx => ?_⟩)
      rcases List.mem_append.mp hx with hx | hx
      · exact hbelow x hx
      · refine hlt ?_
        rw [hid x hx]
        exact hids id List.mem_cons_self

/-- **What a compaction folds in the end** are the next records above its base. -/
theorem folding (h : Loading H job [] scs) :
    Folding H job.base ((scs.filter job.selects).insertionSort Db.ckptLe) := by
  have hfilter : Ascending SegmentCheckpoint.ckpt (scs.filter job.selects) :=
    h.ascending.sublist List.filter_sublist
  have hsort : (scs.filter job.selects).insertionSort Db.ckptLe = scs.filter job.selects :=
    (hfilter.imp fun hlt => hlt.le).insertionSort_eq
  rw [hsort]
  refine ⟨hfilter, fun e he => ?_, fun e he hb hlt => ?_⟩
  · obtain ⟨he, hsel⟩ := List.mem_filter.mp he
    exact ⟨h.mem e he, Job.lt_of_selects hsel⟩
  · cases hsel : job.selects e with
    | false => exact .inr fun x hx => Job.lt_of_not_selects (List.mem_filter.mp hx).2 hsel hlt
    | true =>
      rcases h.closed e he hb hsel with hscs | htodo | ⟨-, hbelow⟩
      · exact .inl (List.mem_filter.mpr ⟨hscs, hsel⟩)
      · exact absurd htodo List.not_mem_nil
      · exact .inr fun x hx => hbelow x (List.mem_of_mem_filter hx)

end Loading

/-! ## Places -/

/-- The base manifest at a checkpoint is stored. -/
def Shared.Stored (cfg : StoreConfig) (s : Shared ι β) (c : Checkpoint) : Prop :=
  ∃ m, (s.storage.bases cfg.dbId).lookup c = some m

/-- What the caller of `base_manifest` relies on, when it gets the base manifest at `c`. -/
def Cont.Ok (s : Shared ι β) (c : Checkpoint) : Cont → Prop
  | .done => True
  | .chunk tag since => Folded s.history s.chunkWrites (·.containsChunk tag) tag since c
  | .relfork rf since =>
    Folded s.history s.metaWrites (fun e => (e.relforkMeta rf).isSome) rf since c
  | .compact job _ toApply =>
    c = job.base ∧ job.base = s.timeline.baseCkpt ∧ Folding s.history job.base toApply ∧ toApply ≠ []

/-- A chunk reference as new as the writes before the read. -/
structure Fetching (cfg : StoreConfig) (s : Shared ι β) (r : ChunkRef) (tag : ChunkTag)
    (since : ℕ) : Prop where
  dbId : r.dbId = cfg.dbId
  record : ∃ e ∈ s.history, e.prevCkpt = r.ckpt ∧ e.containsChunk tag = true
  newest : ∀ i < since, ∀ q v, s.chunkWrites[i]? = some (q, tag, v) → q ≤ r.ckpt

/-- A new base manifest that can be published. -/
structure Fold.Ok (cfg : StoreConfig) (s : Shared ι β) (f : Fold) : Prop where
  base : f.base = s.timeline.baseCkpt
  snapshot : Snapshot cfg s.history f.applied
  covers : Covers s.history f.key f.applied
  key_le : f.key ≤ s.timeline.headCkpt
  old : ∀ e ∈ s.history, e.isBlank = false → e.ckpt ≤ f.base → e.ckpt ≤ f.key

/-- What a thread relies on at its place. -/
def Pc.Ok (cfg : StoreConfig) (s : Shared ι β) : Pc → Prop
  | .idle => True
  | .list job => job.base = s.timeline.baseCkpt
  | .load job _ todo scs => job.base = s.timeline.baseCkpt ∧ Loading s.history job todo scs
  | .readBase k => k.Ok s s.timeline.baseCkpt
  | .compare target k => target ≤ s.timeline.headCkpt ∧
    (target = default ∨ s.Stored cfg target) ∧ k.Ok s target
  | .openLocal target k | .getBase target k => target ≤ s.timeline.headCkpt ∧
    s.Stored cfg target ∧ k.Ok s target
  | .writeTikm target m k | .store target m k => target ≤ s.timeline.headCkpt ∧
    Snapshot cfg s.history m ∧ Covers s.history target m ∧ k.Ok s target
  | .lookup m k => Snapshot cfg s.history m ∧
    ∃ target ≤ s.timeline.headCkpt, Covers s.history target m ∧ k.Ok s target
  | .fetch r tag since => since ≤ s.chunkWrites.length ∧
    (Live s.history tag.relFork → Fetching cfg s r tag since)
  | .put f => f.Ok cfg s
  | .rename f | .advance f => f.Ok cfg s ∧ s.Stored cfg f.key
  | .swap f => f.key = s.timeline.baseCkpt ∧ Snapshot cfg s.history f.applied
  | .delete ids => ∀ id ∈ ids, id < s.timeline.baseCkpt.toSegmentId

/-! ## The other threads -/

/-- What a step does to the shared state: the log and the writes grow, stored manifests stay, and the
base does not lose a record that is not blank. -/
structure Shared.Grows (cfg : StoreConfig) (s s' : Shared ι β) : Prop where
  history : ∃ new, s'.history = s.history ++ new ∧ ∀ e ∈ new, s.timeline.headCkpt < e.ckpt
  head_le : s.timeline.headCkpt ≤ s'.timeline.headCkpt
  base : ∀ e ∈ s.history, e.isBlank = false → e.ckpt ≤ s.timeline.baseCkpt →
    e.ckpt ≤ s'.timeline.baseCkpt
  stored : ∀ c, s.Stored cfg c → s'.Stored cfg c
  chunkWrites : ∃ more, s'.chunkWrites = s.chunkWrites ++ more
  metaWrites : ∃ more, s'.metaWrites = s.metaWrites ++ more

section Grows

variable {s s' : Shared ι β}

theorem Cont.Ok.grows {c : Checkpoint} {k : Cont} (h : k.Ok s c) (hg : s.Grows cfg s')
    (hlog : Log s.history s.timeline.headCkpt)
    (hbase : k.snapshot.isSome = true → s'.timeline.baseCkpt = s.timeline.baseCkpt) :
    k.Ok s' c := by
  obtain ⟨new, hH, hnew⟩ := hg.history
  cases k with
  | done => trivial
  | chunk tag since =>
    obtain ⟨more, hw⟩ := hg.chunkWrites
    rw [Cont.Ok, hH, hw]
    exact Folded.append h new more
  | relfork rf since =>
    obtain ⟨more, hw⟩ := hg.metaWrites
    rw [Cont.Ok, hH, hw]
    exact Folded.append h new more
  | compact job segments toApply =>
    obtain ⟨hc, hjob, hf, hne⟩ := h
    rw [Cont.Ok, hH, hbase rfl]
    exact ⟨hc, hjob, hf.append hlog hnew, hne⟩

/-- A read that has not read the base yet follows it. -/
theorem Cont.Ok.base {k : Cont} (h : k.Ok s s.timeline.baseCkpt) (hg : s.Grows cfg s')
    (hlog : Log s.history s.timeline.headCkpt)
    (hbase : k.snapshot.isSome = true → s'.timeline.baseCkpt = s.timeline.baseCkpt) :
    k.Ok s' s'.timeline.baseCkpt := by
  obtain ⟨new, hH, hnew⟩ := hg.history
  cases k with
  | done => trivial
  | chunk tag since =>
    obtain ⟨more, hw⟩ := hg.chunkWrites
    rw [Cont.Ok, hH, hw]
    exact (Folded.mono h fun e he hc => hg.base e he (not_isBlank_of_containsChunk hc)).append new more
  | relfork rf since =>
    obtain ⟨more, hw⟩ := hg.metaWrites
    rw [Cont.Ok, hH, hw]
    exact (Folded.mono h fun e he hm => hg.base e he (not_isBlank_of_relforkMeta hm)).append new more
  | compact job segments toApply =>
    rw [hbase rfl]
    exact Cont.Ok.grows h hg hlog hbase

theorem Fold.Ok.grows {f : Fold} (h : f.Ok cfg s) (hg : s.Grows cfg s')
    (hlog : Log s.history s.timeline.headCkpt)
    (hle : s.timeline.baseCkpt ≤ s.timeline.headCkpt)
    (hbase : s'.timeline.baseCkpt = s.timeline.baseCkpt) : f.Ok cfg s' := by
  obtain ⟨new, hH, hnew⟩ := hg.history
  refine ⟨h.base.trans hbase.symm, ?_, ?_, h.key_le.trans hg.head_le, fun e he hb hold => ?_⟩
  · rw [hH]
    exact h.snapshot.append hlog hnew
  · rw [hH]
    exact h.covers.append h.key_le hnew
  · rw [hH] at he
    rcases List.mem_append.mp he with he | he
    · exact h.old e he hb hold
    · rw [h.base] at hold
      exact absurd (hle.trans_lt (hnew e he)) (not_lt.mpr hold)

theorem Fetching.grows {r : ChunkRef} {tag : ChunkTag} {since : ℕ}
    (h : Fetching cfg s r tag since) (hs : since ≤ s.chunkWrites.length) (hg : s.Grows cfg s') :
    Fetching cfg s' r tag since := by
  obtain ⟨new, hH, -⟩ := hg.history
  obtain ⟨more, hw⟩ := hg.chunkWrites
  obtain ⟨e, he, hrest⟩ := h.record
  refine ⟨h.dbId, ⟨e, ?_, hrest⟩, fun i hi q v hi' => ?_⟩
  · rw [hH]
    exact List.mem_append_left _ he
  · rw [hw, List.getElem?_append_left (hi.trans_le hs)] at hi'
    exact h.newest i hi q v hi'

/-- **A place keeps what it knows**, if the base of a compaction stays where it is. -/
theorem Pc.Ok.grows {F : DraftFrame} {pc : Pc} (h : pc.Ok cfg s) (hc : s.Core cfg F)
    (hg : s.Grows cfg s')
    (hbase : pc.compacting = true → s'.timeline.baseCkpt = s.timeline.baseCkpt) :
    pc.Ok cfg s' := by
  obtain ⟨new, hH, hnew⟩ := hg.history
  have hsnap : ∀ {m : Manifest}, Snapshot cfg s.history m → Snapshot cfg s'.history m := by
    intro m hm
    rw [hH]
    exact hm.append hc.log hnew
  have hcov : ∀ {m : Manifest} {c : Checkpoint}, c ≤ s.timeline.headCkpt → Covers s.history c m →
      Covers s'.history c m := by
    intro m c hle hm
    rw [hH]
    exact hm.append hle hnew
  cases pc with
  | idle => trivial
  | list job => exact h.trans (hbase rfl).symm
  | load job segments todo scs =>
    obtain ⟨hjob, hload⟩ := h
    refine ⟨hjob.trans (hbase rfl).symm, ?_⟩
    rw [hH]
    exact hload.append hc.log hnew
  | readBase k => exact Cont.Ok.base h hg hc.log hbase
  | compare target k =>
    obtain ⟨hle, hst, hk⟩ := h
    exact ⟨hle.trans hg.head_le, hst.imp_right (hg.stored target), hk.grows hg hc.log hbase⟩
  | openLocal target k =>
    obtain ⟨hle, hst, hk⟩ := h
    exact ⟨hle.trans hg.head_le, hg.stored target hst, hk.grows hg hc.log hbase⟩
  | getBase target k =>
    obtain ⟨hle, hst, hk⟩ := h
    exact ⟨hle.trans hg.head_le, hg.stored target hst, hk.grows hg hc.log hbase⟩
  | writeTikm target m k =>
    obtain ⟨hle, hm, hcm, hk⟩ := h
    exact ⟨hle.trans hg.head_le, hsnap hm, hcov hle hcm, hk.grows hg hc.log hbase⟩
  | store target m k =>
    obtain ⟨hle, hm, hcm, hk⟩ := h
    exact ⟨hle.trans hg.head_le, hsnap hm, hcov hle hcm, hk.grows hg hc.log hbase⟩
  | lookup m k =>
    obtain ⟨hm, target, hle, hcm, hk⟩ := h
    exact ⟨hsnap hm, target, hle.trans hg.head_le, hcov hle hcm, hk.grows hg hc.log hbase⟩
  | fetch r tag since =>
    obtain ⟨hs, hf⟩ := h
    refine ⟨?_, fun hlive => (hf ?_).grows hs hg⟩
    · obtain ⟨more, hw⟩ := hg.chunkWrites
      rw [hw, List.length_append]
      exact hs.trans (Nat.le_add_right _ _)
    · rw [hH] at hlive
      exact hlive.left
  | put f => exact Fold.Ok.grows h hg hc.log hc.base_le (hbase rfl)
  | rename f =>
    obtain ⟨hf, hst⟩ := h
    exact ⟨hf.grows hg hc.log hc.base_le (hbase rfl), hg.stored _ hst⟩
  | advance f =>
    obtain ⟨hf, hst⟩ := h
    exact ⟨hf.grows hg hc.log hc.base_le (hbase rfl), hg.stored _ hst⟩
  | swap f =>
    obtain ⟨hkey, hm⟩ := h
    exact ⟨hkey.trans (hbase rfl).symm, hsnap hm⟩
  | delete ids =>
    intro id hid
    rw [hbase rfl]
    exact h id hid

end Grows

end Tiko

import Tiko.Compaction.Places

/-!
# Reads across commits and compactions

A read looks at the draft, the window and the segments under the lock, and then, if it has found
nothing, at the base manifest without it. Meanwhile other threads write and commit, and one compactor
moves the base and deletes segments.

`Coherent cfg s` is the invariant: the shared state and every place of a thread are as in
`Shared.Core` and `Pc.Ok`, at most one compaction is under way, and every answer is as new as the
writes before its call.

* `Coherent.run`, `Coherent.call`: every step keeps it;
* **`gets_are_current`**: on every run from a fresh state, a read returns a version at least as new as
  the last write before it was called, and does not miss one.
-/

namespace Tiko

open Lib

variable {ι β : Type} {cfg : StoreConfig}

/-! ## Answers -/

/-- An answer for the key `k` is as new as its writes among the first `since`, and says that there is
nothing only if there are none. -/
def Current {K V : Type} (writes : List (Checkpoint × K × V)) (k : K) (since : ℕ) :
    Except Error V → Prop
  | .ok v => Recent writes k since v
  | .error e => e = .notFound ∧ ∀ i < since, ∀ q v, writes[i]? ≠ some (q, k, v)

theorem Current.append {K V : Type} {writes : List (Checkpoint × K × V)} {k : K} {since : ℕ}
    {r : Except Error V} (h : Current writes k since r) (hs : since ≤ writes.length)
    (more : List (Checkpoint × K × V)) : Current (writes ++ more) k since r := by
  cases r with
  | ok v => exact Recent.append h hs more
  | error e =>
    refine ⟨h.1, fun i hi q v => ?_⟩
    rw [List.getElem?_append_left (hi.trans_le hs)]
    exact h.2 i hi q v

namespace Shared

/-- No write has marked the relation fork deleted. -/
def Alive (s : Shared ι β) (rf : RelFork) : Prop :=
  ∀ w ∈ s.metaWrites, w.2.1 = rf → w.2.2.deleted = false

theorem Core.live_of_alive {s : Shared ι β} {F : DraftFrame} (h : s.Core cfg F) {rf : RelFork}
    (ha : s.Alive rf) : Live s.history rf := by
  intro e he md hmd
  rw [h.metaAt e he] at hmd
  obtain ⟨j, hj, -⟩ := exists_of_versionAt hmd
  exact ha _ (List.mem_of_getElem? hj) rfl

end Shared

/-- An answer is as new as the writes before its call; for chunks, of relations that are not deleted. -/
def Answer.Ok (s : Shared ι β) : Answer ι β → Prop
  | .chunk tag since r => since ≤ s.chunkWrites.length ∧
    (s.Alive tag.relFork → Current s.chunkWrites tag since r)
  | .relfork rf since r => since ≤ s.metaWrites.length ∧ Current s.metaWrites rf since r
  | .raced _ _ => True

theorem Answer.Ok.grows {s s' : Shared ι β} {a : Answer ι β} (h : a.Ok s) (hg : s.Grows cfg s') :
    a.Ok s' := by
  obtain ⟨chunks, hc⟩ := hg.chunkWrites
  obtain ⟨metas, hm⟩ := hg.metaWrites
  cases a with
  | chunk tag since r =>
    rw [Answer.Ok, hc, List.length_append]
    refine ⟨h.1.trans (Nat.le_add_right _ _), fun ha => (h.2 fun w hw => ha w ?_).append h.1 chunks⟩
    rw [hm]
    exact List.mem_append_left _ hw
  | relfork rf since r =>
    rw [Answer.Ok, hm, List.length_append]
    exact ⟨h.1.trans (Nat.le_add_right _ _), h.2.append h.1 metas⟩
  | raced p changed => trivial

namespace Shared

/-! ## The invariant -/

/-- The shared state, the threads and their answers are in order. -/
structure Coherent (cfg : StoreConfig) (s : Shared ι β) : Prop where
  core : ∃ F, s.Core cfg F
  pcs : ∀ p, (s.pcs p).Ok cfg s
  sole : ∀ p q, (s.pcs p).compacting = true → (s.pcs q).compacting = true → p = q
  answers : ∀ a ∈ s.answers, a.Ok s

/-- Nothing that places rely on has changed. -/
theorem grows_of_eq {s s' : Shared ι β} (hH : s'.history = s.history)
    (ht : s'.timeline = s.timeline) (hb : ∀ c, s.Stored cfg c → s'.Stored cfg c)
    (hc : s'.chunkWrites = s.chunkWrites) (hm : s'.metaWrites = s.metaWrites) : s.Grows cfg s' where
  history := ⟨[], by rw [hH, List.append_nil], fun e he => absurd he List.not_mem_nil⟩
  head_le := (congrArg TimelineState.headCkpt ht).ge
  base e _ _ hle := hle.trans (congrArg TimelineState.baseCkpt ht).ge
  stored := hb
  chunkWrites := ⟨[], by rw [hc, List.append_nil]⟩
  metaWrites := ⟨[], by rw [hm, List.append_nil]⟩

theorem grows_refl (cfg : StoreConfig) (s : Shared ι β) : s.Grows cfg s :=
  grows_of_eq rfl rfl (fun _ h => h) rfl rfl

variable [DecidableEq ι] {s s₁ : Shared ι β} {p : ι}

/-- A thread changes the shared state and goes to a place where it knows what it needs. -/
theorem Coherent.move (h : s.Coherent cfg) (hcore : ∃ F, s₁.Core cfg F) (hg : s.Grows cfg s₁)
    (hpcs : s₁.pcs = s.pcs) (hans : s₁.answers = s.answers)
    (hbase : s₁.timeline.baseCkpt = s.timeline.baseCkpt ∨ (s.pcs p).compacting = true) {pc : Pc}
    (hpc : pc.Ok cfg s₁) (hcomp : pc.compacting = true →
      (s.pcs p).compacting = true ∨ ∀ q, (s.pcs q).compacting = false) :
    (s₁.goto p pc).Coherent cfg := by
  obtain ⟨F, hF⟩ := h.core
  obtain ⟨F₁, hF₁⟩ := hcore
  have hgoto : s₁.Grows cfg (s₁.goto p pc) := grows_of_eq rfl rfl (fun _ h => h) rfl rfl
  have hself : (s₁.goto p pc).pcs p = pc := Function.update_self ..
  have hother : ∀ {q}, q ≠ p → (s₁.goto p pc).pcs q = s.pcs q := fun {q} hq =>
    (Function.update_of_ne hq ..).trans (congrFun hpcs q)
  refine ⟨⟨F₁, { hF₁ with }⟩, fun q => ?_, fun q q' hq hq' => ?_, fun a ha => ?_⟩
  · by_cases hqp : q = p
    · rw [hqp, hself]
      exact hpc.grows hF₁ hgoto fun _ => rfl
    · -- another thread; the base of its compaction stays, since there is only one
      rw [hother hqp]
      refine ((h.pcs q).grows hF hg fun hq => ?_).grows hF₁ hgoto fun _ => rfl
      exact hbase.resolve_right fun hp => hqp (h.sole q p hq hp)
  · by_cases hqp : q = p <;> by_cases hqp' : q' = p
    · rw [hqp, hqp']
    · rw [hqp, hself] at hq
      rw [hother hqp'] at hq'
      rcases hcomp hq with hp | hnone
      · exact hqp.trans (h.sole p q' hp hq')
      · rw [hnone q'] at hq'
        exact absurd hq' (by simp)
    · rw [hqp', hself] at hq'
      rw [hother hqp] at hq
      rcases hcomp hq' with hp | hnone
      · exact (h.sole q p hq hp).trans hqp'.symm
      · rw [hnone q] at hq
        exact absurd hq (by simp)
    · rw [hother hqp] at hq
      rw [hother hqp'] at hq'
      exact h.sole q q' hq hq'
  · rw [show (s₁.goto p pc).answers = s.answers from hans] at ha
    exact ((h.answers a ha).grows hg).grows hgoto

/-- A thread goes on, and changes nothing. -/
theorem Coherent.goto (h : s.Coherent cfg) {pc : Pc} (hpc : pc.Ok cfg s)
    (hcomp : pc.compacting = true →
      (s.pcs p).compacting = true ∨ ∀ q, (s.pcs q).compacting = false) :
    (s.goto p pc).Coherent cfg :=
  h.move h.core (grows_refl cfg s) rfl rfl (.inl rfl) hpc hcomp

/-- A step that moves neither the threads nor the base. -/
theorem Coherent.keep (h : s.Coherent cfg) (p : ι) (hcore : ∃ F, s₁.Core cfg F)
    (hg : s.Grows cfg s₁) (hpcs : s₁.pcs = s.pcs) (hans : s₁.answers = s.answers)
    (hbase : s₁.timeline.baseCkpt = s.timeline.baseCkpt) : s₁.Coherent cfg := by
  obtain ⟨F, hF⟩ := h.core
  have hstay : s₁.goto p (s.pcs p) = s₁ := by
    unfold Shared.goto
    rw [← hpcs, Function.update_eq_self]
  rw [← hstay]
  exact h.move hcore hg hpcs hans (.inl hbase) ((h.pcs p).grows hF hg fun _ => hbase) .inl

theorem Coherent.answer (h : s.Coherent cfg) {a : Answer ι β} (ha : a.Ok s) :
    (s.answer p a).Coherent cfg := by
  have hidle : (s.goto p .idle).Coherent cfg := h.goto trivial fun hc => absurd hc (by decide)
  obtain ⟨F, hF⟩ := hidle.core
  have hg₀ : s.Grows cfg (s.answer p a) := grows_of_eq rfl rfl (fun _ h => h) rfl rfl
  have hg : (s.goto p .idle).Grows cfg (s.answer p a) := grows_of_eq rfl rfl (fun _ h => h) rfl rfl
  refine ⟨⟨F, { hF with }⟩, fun q => (hidle.pcs q).grows hF hg fun _ => rfl, hidle.sole,
    fun x hx => ?_⟩
  rcases List.mem_cons.mp hx with rfl | hx
  · exact ha.grows hg₀
  · exact (hidle.answers x hx).grows hg

/-! ## Compactions -/

section Loads

variable {F : DraftFrame} {job : Job}

omit [DecidableEq ι] in
/-- The listed segments have all the records that the compaction folds. -/
theorem Core.loading_list (h : s.Core cfg F) (hjob : job.base = s.timeline.baseCkpt) :
    Loading s.history job ((s.db p).listSegmentsInRange cfg job.base job.high) [] := by
  rw [Db.listSegmentsInRange_eq]
  refine ⟨.nil, fun e he => absurd he List.not_mem_nil, ?_, fun e he => absurd he List.not_mem_nil,
    fun id hid => ?_, fun e he hb hsel => .inr (.inl ?_)⟩
  · exact List.pairwise_map.mpr ((s.storage.segments cfg.dbId).sorted.filter _)
  · obtain ⟨q, hq, rfl⟩ := List.mem_map.mp hid
    have hq := (List.mem_filter.mp hq).1
    obtain ⟨-, hne, hseg⟩ := h.wf q hq
    obtain ⟨e, he⟩ := List.exists_mem_of_ne_nil _ hne
    exact ⟨e, h.sub.subset (mem_storedRecords.mpr ⟨q, hq, he⟩), hseg e he⟩
  · have hlt := Job.lt_of_selects hsel
    obtain ⟨q, hq, heq⟩ := mem_storedRecords.mp (h.stored e he hb (hjob ▸ hlt))
    have hid := (h.wf q hq).2.2 e heq
    rw [hid]
    refine List.mem_map.mpr ⟨q, List.mem_filter.mpr ⟨hq, ?_⟩, rfl⟩
    rw [← hid]
    exact Checkpoint.overlapsRange_of_mem hlt.le (Job.le_of_selects hsel)

omit [DecidableEq ι] in
theorem mem_of_loadSegment {id : SegmentId} {seg : TimelineSegment}
    (hl : (s.db p).loadSegment cfg id = .ok seg) :
    (id, seg) ∈ (s.storage.segments cfg.dbId).entries := by
  rw [Db.loadSegment] at hl
  cases hs : ((s.db p).storage.segments cfg.dbId).lookup id with
  | none =>
    rw [hs] at hl
    exact absurd hl (by simp)
  | some seg' =>
    rw [hs] at hl
    rw [← Except.ok.inj hl]
    exact (SortedMap.mem_entries_iff _ _ _).mpr hs

omit [DecidableEq ι] in
/-- A loaded segment has all its records. -/
theorem Core.loading_next (h : s.Core cfg F) (hjob : job.base = s.timeline.baseCkpt)
    {id : SegmentId} {todo : List SegmentId} {scs : List SegmentCheckpoint} {seg : TimelineSegment}
    (hload : Loading s.history job (id :: todo) scs)
    (hl : (s.db p).loadSegment cfg id = .ok seg) :
    Loading s.history job todo (scs ++ seg.checkpoints) := by
  have hmem := mem_of_loadSegment hl
  have hstored : Ascending SegmentCheckpoint.ckpt (storedRecords (s.storage.segments cfg.dbId)) :=
    h.log.ascending_ckpt.sublist h.sub
  refine hload.next ((List.pairwise_flatMap.mp hstored).1 _ hmem) (fun e he => ?_)
    (h.wf _ hmem).2.2 fun e he hb hsel hid => ?_
  · exact h.sub.subset (mem_storedRecords.mpr ⟨_, hmem, he⟩)
  · obtain ⟨q, hq, heq⟩ :=
      mem_storedRecords.mp (h.stored e he hb (hjob ▸ Job.lt_of_selects hsel))
    have hkey : q.1 = id := ((h.wf q hq).2.2 e heq).symm.trans hid
    have hlook := (SortedMap.mem_entries_iff _ q.1 q.2).mp hq
    rw [hkey, (SortedMap.mem_entries_iff _ _ _).mp hmem] at hlook
    rw [Option.some.inj hlook]
    exact heq

omit [DecidableEq ι] in
/-- **The fold of a compaction** can be published. -/
theorem Core.fold_ok (h : s.Core cfg F) {m : Manifest} {target : Checkpoint}
    {segments : List SegmentId} {toApply : List SegmentCheckpoint}
    (hm : Snapshot cfg s.history m) (hc : Covers s.history target m)
    (hk : (Cont.compact job segments toApply).Ok s target) :
    let applied := m.applySegments cfg.sort toApply cfg.dbId job.now
    (Fold.mk job.base (job.newBase toApply applied) applied segments).Ok cfg s := by
  obtain ⟨rfl, hjob, hf, hne⟩ := hk
  intro applied
  have hs : Snapshot cfg s.history applied :=
    hm.applySegments h.log.ascending_ckpt h.lsns hc hf job.now
  have hheader : applied.checkpoint = m.lastCkpt toApply := rfl
  have hold : ∀ e ∈ s.history, e.isBlank = false → e.ckpt ≤ job.base → e.ckpt ≤ applied.checkpoint :=
    fun e he hb hle => (hc.old_le e he hb hle).trans (le_lastCkpt_header hc hf)
  cases ht : job.through with
  | true =>
    have hkey : job.newBase toApply applied = applied.checkpoint := by rw [Job.newBase, if_pos ht]
    rw [hkey]
    exact ⟨hjob, hs, covers_self _ _, hs.header_le h.log, hold⟩
  | false =>
    -- the key is the last folded record, which may be blank
    have hkey : job.newBase toApply applied = (toApply.getLast hne).ckpt := by
      rw [Job.newBase, if_neg (by simp [ht]), List.getLast?_eq_some_getLast hne]
      rfl
    have hlast := List.getLast_mem hne
    rw [hkey]
    refine ⟨hjob, hs, ⟨?_, fun e he hb hle => ?_⟩, (h.log.bounds _ (hf.mem _ hlast).1).2.2,
      fun e _ _ hle => hle.trans (hf.mem _ hlast).2.le⟩
    · rcases lastCkpt_spec m toApply with ⟨x, hx, -, hcx⟩ | ⟨-, hcx⟩
      · rw [hheader, ← hcx]
        exact hf.ascending.le_getLast hx hne
      · rw [hheader, hcx]
        exact hc.header_le.trans (hf.mem _ hlast).2.le
    · by_cases hbase : e.ckpt ≤ job.base
      · exact hold e he hb hbase
      · rcases hf.closed e he hb (not_le.mp hbase) with hmem | habove
        · exact le_lastCkpt hf.ascending hmem hb
        · exact absurd (habove _ hlast) (not_lt.mpr hle)

end Loads

/-! ## Reads from a manifest -/

section Lookups

variable {F : DraftFrame} {m : Manifest} {target : Checkpoint} {since : ℕ}

omit [DecidableEq ι] in
/-- The records that a snapshot holds are at least as new as those it covers. -/
theorem Core.prevCkpt_le_of_newest {γ : Type} (h : s.Core cfg F) {f : SegmentCheckpoint → Option γ}
    (hf : ∀ e, (f e).isSome = true → e.isBlank = false) (hc : Covers s.history target m)
    {e e' : SegmentCheckpoint} (he : e ∈ s.history)
    (hmax : ∀ x ∈ upTo m.checkpoint s.history, (f x).isSome = true → x.ckpt ≤ e.ckpt)
    (he' : e' ∈ s.history) (hs : (f e').isSome = true) (hle : e'.ckpt ≤ target) :
    e'.prevCkpt ≤ e.prevCkpt :=
  h.prevCkpt_le he' he
    (hmax e' (mem_upTo.mpr ⟨he', hc.old_le e' he' (hf e' hs) hle⟩) hs)

omit [DecidableEq ι] in
theorem ascending_upTo (h : s.Core cfg F) (c : Checkpoint) :
    Ascending SegmentCheckpoint.ckpt (upTo c s.history) :=
  h.log.ascending_ckpt.sublist List.filter_sublist

omit [DecidableEq ι] in
theorem Core.fetching (h : s.Core cfg F) {tag : ChunkTag} {r : ChunkRef}
    (hm : Snapshot cfg s.history m) (hc : Covers s.history target m)
    (hk : Folded s.history s.chunkWrites (·.containsChunk tag) tag since target)
    (hlive : Live s.history tag.relFork) (hr : m.lookup tag = some r) :
    Fetching cfg s r tag since := by
  rw [hm.chunks tag hlive] at hr
  obtain ⟨e, he, href, hmax⟩ := (newest_eq_some_iff (ascending_upTo h m.checkpoint)).mp hr
  have heH := (mem_upTo.mp he).1
  have hsome : (e.refAt cfg.dbId tag).isSome = true := by rw [href]; rfl
  have hcontains : e.containsChunk tag = true := SegmentCheckpoint.refAt_isSome.symm.trans hsome
  rw [SegmentCheckpoint.refAt, if_pos hcontains] at href
  obtain rfl := Option.some.inj href
  refine ⟨rfl, ⟨e, heH, rfl, hcontains⟩, fun i hi q v hw => ?_⟩
  obtain ⟨e', he', rfl, hhas, hle⟩ := hk.record i hi q v hw
  refine h.prevCkpt_le_of_newest (f := (·.refAt cfg.dbId tag)) (fun x hx => ?_) hc heH hmax he' ?_ hle
  · rw [SegmentCheckpoint.refAt_isSome] at hx
    exact not_isBlank_of_containsChunk hx
  · rw [SegmentCheckpoint.refAt_isSome]
    exact hhas

omit [DecidableEq ι] in
/-- A manifest without a chunk covers no write of it. -/
theorem current_notFound {tag : ChunkTag}
    (hm : Snapshot cfg s.history m) (hc : Covers s.history target m)
    (hk : Folded s.history s.chunkWrites (·.containsChunk tag) tag since target)
    (hlive : Live s.history tag.relFork) (hr : m.lookup tag = none) :
    Current s.chunkWrites tag since (.error .notFound) := by
  rw [hm.chunks tag hlive] at hr
  refine ⟨rfl, fun i hi q v hw => ?_⟩
  obtain ⟨e, he, -, hhas, hle⟩ := hk.record i hi q v hw
  have hmem := mem_upTo.mpr ⟨he, hc.old_le e he (not_isBlank_of_containsChunk hhas) hle⟩
  have hnone := newest_eq_none_iff.mp hr e hmem
  rw [SegmentCheckpoint.refAt, if_pos hhas] at hnone
  exact absurd hnone (by simp)

omit [DecidableEq ι] in
/-- The chunk that a reference names is there, and as new as the writes before the read. -/
theorem Core.current_fetched (h : s.Core cfg F) {tag : ChunkTag} {r : ChunkRef}
    (hf : Fetching cfg s r tag since) :
    Current s.chunkWrites tag since (found (s.storage.chunks r.dbId r.ckpt tag)) := by
  obtain ⟨e, he, hprev, hcontains⟩ := hf.record
  have hsome : (s.storage.chunks cfg.dbId e.prevCkpt tag).isSome = true :=
    (h.objects.sealed e he tag).trans hcontains
  obtain ⟨c, hobj⟩ := Option.isSome_iff_exists.mp hsome
  rw [hprev] at hobj
  rw [hf.dbId, hobj]
  rw [h.chunkAt] at hobj
  exact recent_versionAt h.chunkMono hobj hf.newest

omit [DecidableEq ι] in
theorem Core.current_meta (h : s.Core cfg F) {rf : RelFork} (hm : Snapshot cfg s.history m)
    (hc : Covers s.history target m)
    (hk : Folded s.history s.metaWrites (fun e => (e.relforkMeta rf).isSome) rf since target) :
    Current s.metaWrites rf since (found (m.lookupRelforkMeta rf)) := by
  have hlook := hm.metas rf
  cases hr : m.lookupRelforkMeta rf with
  | none =>
    rw [hr] at hlook
    refine ⟨rfl, fun i hi q v hw => ?_⟩
    obtain ⟨e, he, -, hhas, hle⟩ := hk.record i hi q v hw
    have hmem := mem_upTo.mpr ⟨he, hc.old_le e he (not_isBlank_of_relforkMeta hhas) hle⟩
    rw [newest_eq_none_iff.mp hlook.symm e hmem] at hhas
    exact absurd hhas (by simp)
  | some md =>
    rw [hr] at hlook
    obtain ⟨e, he, hmd, hmax⟩ :=
      (newest_eq_some_iff (ascending_upTo h m.checkpoint)).mp hlook.symm
    have heH := (mem_upTo.mp he).1
    rw [h.metaAt e heH] at hmd
    refine recent_versionAt h.metaMono hmd fun i hi q v hw => ?_
    obtain ⟨e', he', rfl, hhas, hle⟩ := hk.record i hi q v hw
    exact h.prevCkpt_le_of_newest (f := (·.relforkMeta rf))
      (fun x hx => not_isBlank_of_relforkMeta hx) hc heH hmax he' hhas hle

end Lookups

/-! ## Steps -/

omit [DecidableEq ι] in
theorem grows_cache (cfg : StoreConfig) (s : Shared ι β) (p : ι) (m : Manifest) :
    s.Grows cfg (s.cache p m) :=
  grows_of_eq rfl rfl (fun _ h => h) rfl rfl

theorem grows_publishTikm (cfg : StoreConfig) (s : Shared ι β) (p : ι) (m : Manifest) :
    s.Grows cfg (s.publishTikm p m) :=
  grows_of_eq rfl rfl (fun _ h => h) rfl rfl

omit [DecidableEq ι] in
theorem grows_deleteSegment (cfg : StoreConfig) (s : Shared ι β) (id : SegmentId) :
    s.Grows cfg (s.deleteSegment cfg id) :=
  grows_of_eq rfl rfl (fun _ h => h) rfl rfl

theorem stored_publishBase (s : Shared ι β) (p : ι) (key : Checkpoint) (m : Manifest) :
    (s.publishBase cfg p key m).Stored cfg key :=
  ⟨m, by rw [lookup_publishBase, if_pos rfl]⟩

theorem grows_publishBase (s : Shared ι β) (p : ι) (key : Checkpoint) (m : Manifest) :
    s.Grows cfg (s.publishBase cfg p key m) := by
  refine grows_of_eq rfl rfl (fun c hc => ?_) rfl rfl
  by_cases hkey : c = key
  · rw [hkey]
    exact stored_publishBase s p key m
  · obtain ⟨m', hm'⟩ := hc
    exact ⟨m', by rw [lookup_publishBase, if_neg hkey, hm']⟩

omit [DecidableEq ι] in
theorem grows_setBase {key : Checkpoint}
    (h : ∀ e ∈ s.history, e.isBlank = false → e.ckpt ≤ s.timeline.baseCkpt → e.ckpt ≤ key) :
    s.Grows cfg (s.setBase key) where
  history := (grows_refl cfg s).history
  head_le := le_rfl
  base := h
  stored _ h := h
  chunkWrites := (grows_refl cfg s).chunkWrites
  metaWrites := (grows_refl cfg s).metaWrites

/-- The caller of `base_manifest` goes on. -/
theorem Coherent.resume (h : s.Coherent cfg) {m : Manifest} {k : Cont}
    (hpc : s.pcs p = .lookup m k) : (s.resume cfg p m k).Coherent cfg := by
  obtain ⟨F, hF⟩ := h.core
  have hok := h.pcs p
  rw [hpc] at hok
  obtain ⟨hm, target, -, hc, hk⟩ := hok
  have hidle : Pc.idle.compacting = true → (s.pcs p).compacting = true ∨
      ∀ q, (s.pcs q).compacting = false := fun hi => absurd hi (by decide)
  cases k with
  | done => exact h.goto trivial hidle
  | chunk tag since =>
    rw [Shared.resume]
    cases hr : m.lookup tag with
    | none =>
      exact h.answer ⟨hk.since_le, fun ha => current_notFound hm hc hk (hF.live_of_alive ha) hr⟩
    | some r =>
      refine h.goto ⟨hk.since_le, fun hlive => hF.fetching hm hc hk hlive hr⟩ fun hi => ?_
      exact absurd hi (by simp [Pc.compacting, Pc.snapshot])
  | relfork rf since => exact h.answer ⟨hk.since_le, hF.current_meta hm hc hk⟩
  | compact job segments toApply =>
    refine h.goto (hF.fold_ok hm hc hk) fun _ => .inl ?_
    rw [hpc]
    rfl

/-- **The steps of threads keep the invariant.** -/
theorem Coherent.run {s' : Shared ι β} (h : s.Coherent cfg) (hs : s.runThread cfg p = some s') :
    s'.Coherent cfg := by
  obtain ⟨F, hF⟩ := h.core
  have hok := h.pcs p
  -- a place of a compaction comes from a place of the same compaction
  have hsame : ∀ {pc pc' : Pc}, s.pcs p = pc → pc'.compacting = pc.compacting →
      pc'.compacting = true → (s.pcs p).compacting = true ∨
        ∀ q, (s.pcs q).compacting = false := by
    intro pc pc' hpc heq hc
    rw [hpc, ← heq]
    exact .inl hc
  have hidle : Pc.idle.compacting = true → (s.pcs p).compacting = true ∨
      ∀ q, (s.pcs q).compacting = false := fun hi => absurd hi (by decide)
  cases moves_of_runThread cfg hs with
  | list hpc hl =>
    rw [hpc] at hok
    subst hl
    exact h.goto ⟨hok, hF.loading_list hok⟩ (hsame hpc rfl)
  | load hpc hl =>
    rw [hpc] at hok
    exact h.goto ⟨hok.1, hF.loading_next hok.1 hok.2 hl⟩ (hsame hpc rfl)
  | loadFails hpc => exact h.goto trivial hidle
  | nothingNew hpc => exact h.goto trivial hidle
  | loaded hpc hl hne =>
    rw [hpc] at hok
    subst hl
    exact h.goto ⟨hok.1.symm, hok.1, hok.2.folding, hne⟩ (hsame hpc rfl)
  | readBase hpc =>
    rw [hpc] at hok
    exact h.goto ⟨hF.base_le, hF.base_ok, hok⟩ (hsame hpc rfl)
  | cached hpc hc =>
    rw [hpc] at hok
    obtain ⟨hle, -, hk⟩ := hok
    subst hc
    exact h.goto ⟨hF.caches _, _, hle, covers_self _ _, hk⟩ (hsame hpc rfl)
  | noBase hpc =>
    rw [hpc] at hok
    exact h.goto ⟨hok.1, snapshot_empty cfg hF.log, covers_self _ .empty, hok.2.2⟩ (hsame hpc rfl)
  | stale hpc hd =>
    rw [hpc] at hok
    exact h.goto ⟨hok.1, hok.2.1.resolve_left hd, hok.2.2⟩ (hsame hpc rfl)
  | localFile hpc hm hc =>
    rw [hpc] at hok
    subst hc
    exact h.goto ⟨hok.1, hF.tikm _ hm, covers_self _ _, hok.2.2⟩ (hsame hpc rfl)
  | otherFile hpc =>
    rw [hpc] at hok
    exact h.goto hok (hsame hpc rfl)
  | getBase hpc hm =>
    rw [hpc] at hok
    obtain ⟨hsnap, hcov, -⟩ := hF.bases _ _ hm
    exact h.goto ⟨hok.1, hsnap, hcov, hok.2.2⟩ (hsame hpc rfl)
  | getFails hpc hm =>
    rw [hpc] at hok
    obtain ⟨m, hm'⟩ := hok.2.1
    rw [hm] at hm'
    exact absurd hm' (by simp)
  | writeTikm hpc =>
    rw [hpc] at hok
    exact h.move ⟨F, hF.publishTikm p hok.2.1⟩ (grows_publishTikm ..) rfl rfl (.inl rfl) hok
      (hsame hpc rfl)
  | sibling hpc hc =>
    rw [hpc] at hok
    obtain ⟨hle, -, -, hk⟩ := hok
    subst hc
    exact h.goto ⟨hF.caches _, _, hle, covers_self _ _, hk⟩ (hsame hpc rfl)
  | store hpc =>
    rw [hpc] at hok
    obtain ⟨hle, hm, hc, hk⟩ := hok
    exact h.move ⟨F, hF.cache p hm⟩ (grows_cache ..) rfl rfl (.inl rfl) ⟨hm, _, hle, hc, hk⟩
      (hsame hpc rfl)
  | lookup hpc => exact h.resume hpc
  | fetch hpc =>
    rw [hpc] at hok
    exact h.answer ⟨hok.1, fun ha => hF.current_fetched (hok.2 (hF.live_of_alive ha))⟩
  | put hpc =>
    rw [hpc] at hok
    exact h.move ⟨F, hF.publishBase p hok.snapshot hok.covers hok.key_le⟩ (grows_publishBase ..) rfl
      rfl (.inl rfl) ⟨Fold.Ok.grows hok (grows_publishBase ..) hF.log hF.base_le rfl,
        stored_publishBase ..⟩ (hsame hpc rfl)
  | rename hpc =>
    rw [hpc] at hok
    exact h.move ⟨F, hF.publishTikm p hok.1.snapshot⟩ (grows_publishTikm ..) rfl rfl (.inl rfl)
      ⟨hok.1.grows (grows_publishTikm ..) hF.log hF.base_le rfl, hok.2⟩ (hsame hpc rfl)
  | raced hpc hb => exact h.answer trivial
  | advance hpc hb =>
    rw [hpc] at hok
    obtain ⟨hf, m, hm⟩ := hok
    have hold := hf.old
    rw [← hb] at hold
    have hp : (s.pcs p).compacting = true := by rw [hpc]; rfl
    exact h.move ⟨F, hF.setBase hm hold⟩ (grows_setBase hold) rfl rfl (.inr hp)
      ⟨rfl, hf.snapshot⟩ (hsame hpc rfl)
  | swap hpc hd =>
    rw [hpc] at hok
    obtain ⟨hkey, hm⟩ := hok
    subst hd
    refine h.move ⟨F, hF.cache p hm⟩ (grows_cache ..) rfl rfl (.inl rfl) (fun id hid => ?_)
      (hsame hpc rfl)
    have hlt := List.mem_takeWhile_imp hid
    rw [hkey] at hlt
    exact of_decide_eq_true hlt
  | delete hpc =>
    rw [hpc] at hok
    exact h.move ⟨F, hF.deleteSegment (hok _ List.mem_cons_self)⟩ (grows_deleteSegment ..) rfl rfl
      (.inl rfl) (fun x hx => hok x (List.mem_cons_of_mem _ hx)) (hsame hpc rfl)
  | deleted hpc => exact h.goto trivial hidle

/-! ## Calls -/

section Calls

variable [Zero β]

theorem Coherent.patchChunk (h : s.Coherent cfg) (tag : ChunkTag) (offset : ℕ) (data : List β) :
    (s.call cfg p (.patchChunk tag offset data)).Coherent cfg := by
  obtain ⟨F, hF⟩ := h.core
  have hcore := hF.patchChunk p tag offset data
  have hrefl := grows_refl cfg s
  obtain ⟨s', ⟨manifest, tikm, rfl, -, -⟩, hp⟩ :=
    Db.patchChunk_cases cfg (s.db p) .ok tag offset data
  rcases hp with ⟨c, hp⟩ | ⟨e, hp⟩
  · rw [Shared.call, hp] at hcore ⊢
    refine h.keep p hcore ?_ rfl rfl rfl
    exact ⟨hrefl.history, le_rfl, hrefl.base, fun _ h => h, ⟨_, rfl⟩, hrefl.metaWrites⟩
  · rw [Shared.call, hp] at hcore ⊢
    exact h.keep p hcore (grows_of_eq rfl rfl (fun _ h => h) rfl rfl) rfl rfl rfl

theorem Coherent.putMeta (h : s.Coherent cfg) (rf : RelFork) (m : RelForkMeta) :
    (s.call cfg p (.putMeta rf m)).Coherent cfg := by
  obtain ⟨F, hF⟩ := h.core
  have hrefl := grows_refl cfg s
  refine h.keep p (hF.putMeta p rf m) ?_ rfl rfl rfl
  exact ⟨hrefl.history, le_rfl, hrefl.base, fun _ h => h, hrefl.chunkWrites, ⟨_, rfl⟩⟩

/-- A commit under a later checkpoint. -/
theorem Coherent.commit (h : s.Coherent cfg) {a : Db.CommitArgs}
    (hlt : s.timeline.headCkpt < a.ckpt)
    (hlsn : s.timeline.headCkpt.lsn.toNat < a.ckpt.lsn.toNat) :
    (s.call cfg p (.commit a)).Coherent cfg := by
  obtain ⟨F, hF⟩ := h.core
  obtain ⟨d, hd, -⟩ := DraftBuffer.drain_of_holds hF.draft
  have hcommitted : s.committed cfg a = [a.summary s.timeline.headCkpt F] := by
    rw [committed, hd]
  have hcore := hF.commit p hlt hlsn
  have hrefl := grows_refl cfg s
  rw [Shared.call, Db.runCommitProtocol_ok (s := s.db p) hd a, hcommitted] at hcore ⊢
  refine h.keep p ⟨_, hcore⟩ ?_ rfl rfl rfl
  refine ⟨⟨_, rfl, fun e he => ?_⟩, hlt.le, hrefl.base, fun _ h => h, hrefl.chunkWrites,
    hrefl.metaWrites⟩
  rw [List.mem_singleton.mp he]
  exact hlt

omit [Zero β] in
/-- A read whose locked section has found nothing. -/
theorem Coherent.readBase (h : s.Coherent cfg) {k : Cont} (hk : k.Ok s s.timeline.baseCkpt)
    (hs : k.snapshot = none) : (s.goto p (.readBase k)).Coherent cfg := by
  have hpc : (Pc.readBase k).Ok cfg s := hk
  refine h.goto hpc fun hc => absurd hc ?_
  rw [show (Pc.readBase k).compacting = k.snapshot.isSome from rfl, hs]
  decide

theorem Coherent.getChunk (h : s.Coherent cfg) (tag : ChunkTag) :
    (s.call cfg p (.getChunk tag)).Coherent cfg := by
  obtain ⟨F, hF⟩ := h.core
  rw [call]
  rcases hF.getChunkLocked p tag with ⟨c, hc, hrecent⟩ | ⟨hc, hbelow⟩
  · rw [hc]
    exact h.answer ⟨le_rfl, fun _ => hrecent⟩
  · rw [hc]
    refine h.readBase ⟨le_rfl, fun i _ q v hw => ?_⟩ rfl
    exact hbelow _ (List.mem_of_getElem? hw) rfl

theorem Coherent.getMeta (h : s.Coherent cfg) (rf : RelFork) :
    (s.call cfg p (.getMeta rf)).Coherent cfg := by
  obtain ⟨F, hF⟩ := h.core
  rw [call]
  rcases hF.getMetaLocked p rf with ⟨m, hm, hrecent⟩ | ⟨hm, hbelow⟩
  · rw [hm]
    exact h.answer ⟨le_rfl, hrecent⟩
  · rw [hm]
    refine h.readBase ⟨le_rfl, fun i _ q v hw => ?_⟩ rfl
    exact hbelow _ (List.mem_of_getElem? hw) rfl

omit [Zero β] in
/-- A compaction starts when there is no other. -/
theorem Coherent.startJob (h : s.Coherent cfg) {job : Job} (hjob : job.base = s.timeline.baseCkpt)
    (hnone : ∀ q, (s.pcs q).compacting = false) : (s.startJob p job).Coherent cfg := by
  obtain ⟨F, hF⟩ := h.core
  have hkeep : Coherent cfg { s with changed := Function.update s.changed p false } :=
    h.keep p ⟨F, { hF with }⟩ (grows_of_eq rfl rfl (fun _ h => h) rfl rfl) rfl rfl rfl
  rw [Shared.startJob]
  split_ifs
  · exact hkeep
  · have hpc : (Pc.list job).Ok cfg { s with changed := Function.update s.changed p false } := hjob
    exact hkeep.goto hpc fun _ => .inr hnone

/-- Commits have increasing checkpoints and LSNs, and there is one compaction at a time. -/
def Orderly (s : Shared ι β) : Label ι β → Prop
  | .call _ (.commit a) =>
    s.timeline.headCkpt < a.ckpt ∧ s.timeline.headCkpt.lsn.toNat < a.ckpt.lsn.toNat
  | .call _ (.compact _) => ∀ q, (s.pcs q).compacting = false
  | .call _ (.compactThrough _ _) => ∀ q, (s.pcs q).compacting = false
  | _ => True

/-- **Calls keep the invariant.** -/
theorem Coherent.call {op : Op β} (h : s.Coherent cfg) (hok : s.Orderly (.call p op)) :
    (s.call cfg p op).Coherent cfg := by
  cases op with
  | patchChunk tag offset data => exact h.patchChunk tag offset data
  | putMeta rf m => exact h.putMeta rf m
  | commit a => exact h.commit hok.1 hok.2
  | getChunk tag => exact h.getChunk tag
  | getMeta rf => exact h.getMeta rf
  | baseManifest => exact h.readBase trivial rfl
  | compact now => exact h.startJob rfl hok
  | compactThrough target now => exact h.startJob rfl hok

theorem Coherent.step {s' : Shared ι β} {l : Label ι β} (h : s.Coherent cfg) (hok : s.Orderly l)
    (hs : s.step cfg l = some s') : s'.Coherent cfg := by
  cases l with
  | call p op =>
    rw [Shared.step] at hs
    split at hs
    · rw [← Option.some.inj hs]
      exact h.call hok
    · exact absurd hs (by simp)
  | run p => exact h.run hs

end Calls

/-! ## Runs -/

omit [DecidableEq ι] in
theorem Fresh.core (h : s.Fresh) : s.Core cfg .empty := by
  have hlog : Log s.history s.timeline.headCkpt := by
    rw [h.history, h.headCkpt]
    exact .nil
  have hno : ∀ e, e ∉ s.history := fun e => by rw [h.history]; exact List.not_mem_nil
  have hchunks : ∀ c tag, s.storage.chunks cfg.dbId c tag = none := fun c tag => by rw [h.storage]
  have hsegments : s.storage.segments cfg.dbId = .empty := by rw [h.storage]
  have hbases : ∀ c, (s.storage.bases cfg.dbId).lookup c = none := fun c => by rw [h.storage]; rfl
  have hsnap : Snapshot cfg s.history .empty := snapshot_empty cfg hlog
  exact
    { log := hlog
      lsns := by rw [h.history]; exact .nil
      lsn_lt := fun e he => absurd he (hno e)
      draft := h.draft.holds
      window := ⟨0, fun _ => h.history, by
        rw [TimelineState.iterActive, h.activeCount]
        exact .nil⟩
      wf := by rw [hsegments]; exact fun q hq => absurd hq List.not_mem_nil
      sub := by rw [hsegments]; exact List.nil_sublist _
      stored := fun e he => absurd he (hno e)
      objects := ⟨fun e he => absurd he (hno e), fun tag => congrArg Option.isSome (hchunks _ tag),
        fun c _ tag => hchunks c tag⟩
      base_le := by rw [h.baseCkpt, h.headCkpt]
      base_ok := .inl h.baseCkpt
      bases := fun k m hm => absurd hm (by rw [hbases]; simp)
      tikm := fun m hm => by
        rw [h.tikm] at hm
        exact Option.some.inj hm ▸ hsnap
      caches := fun k => by rw [h.caches]; exact hsnap
      chunkMono := by rw [h.chunkWrites]; exact .nil
      chunkUnder := fun w hw => absurd hw (by rw [h.chunkWrites]; exact List.not_mem_nil)
      chunkAt := fun c tag => by rw [h.chunkWrites]; exact hchunks c tag
      metaMono := by rw [h.metaWrites]; exact .nil
      metaUnder := fun w hw => absurd hw (by rw [h.metaWrites]; exact List.not_mem_nil)
      metaAt := fun e he => absurd he (hno e)
      metaHead := fun rf => by rw [h.metaWrites]; rfl }

omit [DecidableEq ι] in
theorem Fresh.coherent (h : s.Fresh) : s.Coherent cfg := by
  refine ⟨⟨.empty, h.core⟩, fun p => ?_, fun p q hp => ?_, fun a ha => ?_⟩
  · rw [h.pcs p]
    trivial
  · rw [h.pcs p] at hp
    exact absurd hp (by decide)
  · rw [h.answers] at ha
    exact absurd ha List.not_mem_nil

theorem coherent_of_reaches [Zero β] {s₀ : Shared ι β} (h₀ : s₀.Fresh)
    (h : Reaches (Shared.step cfg) Orderly s₀ s) : s.Coherent cfg :=
  h.invariant h₀.coherent fun _ _ _ hinv hok hs => hinv.step hok hs

/-- **Reads stay correct across commits and compactions.** On every run from a fresh state, with
increasing commits and one compaction at a time, a read of a chunk whose relation is not deleted, and
every read of metadata, returns a version at least as new as the last write before it was called, and
says that there is nothing only if there was none. -/
theorem gets_are_current [Zero β] {s₀ : Shared ι β} (h₀ : s₀.Fresh)
    (h : Reaches (Shared.step cfg) Orderly s₀ s) :
    (∀ tag since r, Answer.chunk tag since r ∈ s.answers → s.Alive tag.relFork →
      Current s.chunkWrites tag since r) ∧
    ∀ rf since r, Answer.relfork rf since r ∈ s.answers → Current s.metaWrites rf since r := by
  have hans := (coherent_of_reaches h₀ h).answers
  exact ⟨fun tag since r ha => (hans _ ha).2, fun rf since r ha => (hans _ ha).2⟩

/-! ## A read across a compaction -/

instance Orderly.decidable [Fintype ι] (s : Shared ι β) : ∀ l, Decidable (s.Orderly l)
  | .call _ (.commit a) => inferInstanceAs (Decidable
      (s.timeline.headCkpt < a.ckpt ∧ s.timeline.headCkpt.lsn.toNat < a.ckpt.lsn.toNat))
  | .call _ (.compact _) => inferInstanceAs (Decidable (∀ q, (s.pcs q).compacting = false))
  | .call _ (.compactThrough _ _) => inferInstanceAs (Decidable (∀ q, (s.pcs q).compacting = false))
  | .call _ (.patchChunk _ _ _) => inferInstanceAs (Decidable True)
  | .call _ (.putMeta _ _) => inferInstanceAs (Decidable True)
  | .call _ (.getChunk _) => inferInstanceAs (Decidable True)
  | .call _ (.getMeta _) => inferInstanceAs (Decidable True)
  | .call _ .baseManifest => inferInstanceAs (Decidable True)
  | .run _ => inferInstanceAs (Decidable True)

/-- A read of metadata finds nothing under the lock, a compaction moves the base and starts to delete
segments, the read goes on with the new base manifest, and a read of a chunk follows. -/
def readMeanwhile : List (Label (Fin 2) ℕ) :=
  [.call first (.patchChunk Manifest.exampleTag 0 [7]),
    .call first (.commit ⟨⟨1, 100⟩, ⟨1, 100⟩, [], 0⟩),
    .call first (.putMeta Manifest.exampleTag.relFork ⟨2, false⟩),
    .call first (.commit ⟨⟨1, 2000000000⟩, ⟨1, 2000000000⟩, [], 0⟩),
    .call second (.getMeta { Manifest.exampleTag.relFork with relNumber := 1 }),
    .call first (.compactThrough ⟨1, 2000000000⟩ 0)] ++
    List.replicate 12 (.run first) ++ List.replicate 5 (.run second) ++
    [.call second (.getChunk Manifest.exampleTag)]

theorem gets_are_current_meanwhile : ∃ s : Shared (Fin 2) ℕ,
    run (Shared.step exampleConfig) pair readMeanwhile = some s ∧ s.answers.length = 2 ∧
    (∀ tag since r, .chunk tag since r ∈ s.answers → Current s.chunkWrites tag since r) ∧
    ∀ rf since r, .relfork rf since r ∈ s.answers → Current s.metaWrites rf since r := by
  have hrun : (run (Shared.step exampleConfig) pair readMeanwhile).map (fun s =>
      (s.answers.length, s.metaWrites.all fun w => !w.2.2.deleted)) = some (2, true) := by
    decide +kernel
  have hok : Throughout (Shared.step exampleConfig) Orderly pair readMeanwhile := by decide +kernel
  obtain ⟨s, hs, h⟩ := Option.map_eq_some_iff.mp hrun
  obtain ⟨htwo, halive⟩ := Prod.mk.inj h
  obtain ⟨hchunk, hmeta⟩ := gets_are_current fresh_pair (reaches_of_run hs hok)
  refine ⟨s, hs, htwo, fun tag since r ha => hchunk tag since r ha fun w hw _ => ?_, hmeta⟩
  simpa using List.all_eq_true.mp halive w hw

end Shared

end Tiko

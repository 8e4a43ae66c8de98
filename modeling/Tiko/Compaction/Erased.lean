import Tiko.Compaction.Concurrent
import Tiko.Store.Sound

/-!
# Runs without a compaction

A compaction that has changed neither a stored base manifest nor the local file can be left out of a
run: the other processes take the same steps, and find the same.

* `Shared.Agree`: two states that differ in one process only; steps of the others keep it;
* `Moves.silent`: a step of a compaction that has changed nothing keeps it too;
* **`erasable`**: the run without the steps of such a compaction;
* `Agree.restart`: a restart finds the same on both.
-/

namespace Tiko

open Lib

variable {ι β : Type} [DecidableEq ι] {cfg : StoreConfig}

namespace Shared

/-! ## States that differ in one process -/

/-- The two states differ in the process of `p` only, up to the answers. -/
structure Agree (p : ι) (s t : Shared ι β) : Prop where
  storage : s.storage = t.storage
  timeline : s.timeline = t.timeline
  draft : s.draft = t.draft
  tikm : s.tikm = t.tikm
  process : s.process = t.process
  chunkWrites : s.chunkWrites = t.chunkWrites
  metaWrites : s.metaWrites = t.metaWrites
  caches : ∀ k, k ≠ s.process p → s.caches k = t.caches k
  pcs : ∀ q, s.process q ≠ s.process p → s.pcs q = t.pcs q

namespace Agree

variable {s t s' : Shared ι β} {p q : ι}

omit [DecidableEq ι] in
theorem refl (p : ι) (s : Shared ι β) : Agree p s s :=
  ⟨rfl, rfl, rfl, rfl, rfl, rfl, rfl, fun _ _ => rfl, fun _ _ => rfl⟩

omit [DecidableEq ι] in
theorem cached (h : Agree p s t) (hq : s.process q ≠ s.process p) : s.cached q = t.cached q := by
  rw [Shared.cached, Shared.cached, ← h.process]
  exact h.caches _ hq

omit [DecidableEq ι] in
theorem db (h : Agree p s t) (hq : s.process q ≠ s.process p) : s.db q = t.db q := by
  rw [Shared.db, Shared.db, h.storage, h.timeline, h.draft, h.tikm, h.cached hq]

theorem goto (h : Agree p s t) (q : ι) (pc : Pc) : Agree p (s.goto q pc) (t.goto q pc) :=
  { h with
    pcs := fun r hr => by
      change Function.update s.pcs q pc r = Function.update t.pcs q pc r
      by_cases hrq : r = q
      · rw [hrq, Function.update_self, Function.update_self]
      · rw [Function.update_of_ne hrq, Function.update_of_ne hrq]
        exact h.pcs r hr }

theorem answer (h : Agree p s t) (q : ι) (a b : Answer ι β) :
    Agree p (s.answer q a) (t.answer q b) :=
  { h.goto q .idle with }

omit [DecidableEq ι] in
theorem cache (h : Agree p s t) (q : ι) (m : Manifest) : Agree p (s.cache q m) (t.cache q m) :=
  { h with
    caches := fun k hk => by
      change Function.update s.caches (s.process q) m k = Function.update t.caches (t.process q) m k
      rw [← h.process]
      by_cases hkq : k = s.process q
      · rw [hkq, Function.update_self, Function.update_self]
      · rw [Function.update_of_ne hkq, Function.update_of_ne hkq]
        exact h.caches k hk }

theorem publishTikm (h : Agree p s t) (q : ι) (m : Manifest) :
    Agree p (s.publishTikm q m) (t.publishTikm q m) :=
  { h with tikm := rfl }

theorem publishBase (h : Agree p s t) (q : ι) (key : Checkpoint) (m : Manifest) :
    Agree p (s.publishBase cfg q key m) (t.publishBase cfg q key m) :=
  { h with storage := congrArg (fun d : Storage β => d.putBase cfg.dbId key m) h.storage }

omit [DecidableEq ι] in
theorem setBase (h : Agree p s t) (key : Checkpoint) : Agree p (s.setBase key) (t.setBase key) :=
  { h with timeline := congrArg (fun d : TimelineState => d.setBaseCkpt key) h.timeline }

omit [DecidableEq ι] in
theorem deleteSegment (h : Agree p s t) (id : SegmentId) :
    Agree p (s.deleteSegment cfg id) (t.deleteSegment cfg id) :=
  { h with storage := congrArg (fun d : Storage β => d.deleteSegments cfg.dbId [id]) h.storage }

omit [DecidableEq ι] in
theorem setDb (h : Agree p s t) (q : ι) (d : Db β) : Agree p (s.setDb q d) (t.setDb q d) :=
  { h.cache q d.manifest with storage := rfl, timeline := rfl, draft := rfl, tikm := rfl }

theorem fail (h : Agree p s t) (q : ι) (e : Error) (k : Cont) :
    Agree p (s.fail q e k) (t.fail q e k) := by
  cases k with
  | chunk tag since => exact h.answer q _ _
  | relfork rf since => exact h.answer q _ _
  | done => exact h.goto q _
  | compact job segments toApply => exact h.goto q _

theorem resume (h : Agree p s t) (q : ι) (m : Manifest) (k : Cont) :
    Agree p (s.resume cfg q m k) (t.resume cfg q m k) := by
  cases k with
  | chunk tag since =>
    rw [Shared.resume, Shared.resume]
    cases m.lookup tag with
    | some r => exact h.goto q _
    | none => exact h.answer q _ _
  | relfork rf since => exact h.answer q _ _
  | done => exact h.goto q _
  | compact job segments toApply => exact h.goto q _

/-- A step of another process, on the two states. -/
theorem runThread (h : Agree p s t) (hq : s.process q ≠ s.process p)
    (hs : s.runThread cfg q = some s') :
    ∃ t', t.runThread cfg q = some t' ∧ Agree p s' t' := by
  rw [Shared.runThread] at hs ⊢
  rw [← h.pcs q hq, ← h.db hq, ← h.cached hq, ← h.timeline, ← h.tikm, ← h.storage]
  cases hpc : s.pcs q with
  | idle => rw [hpc] at hs; exact absurd hs (by simp)
  | list job => rw [hpc] at hs; exact ⟨_, rfl, Option.some.inj hs ▸ h.goto q _⟩
  | load job segments todo scs =>
    rw [hpc] at hs
    cases todo with
    | nil =>
      refine ⟨_, rfl, ?_⟩
      rw [← Option.some.inj hs, loaded, loaded]
      split_ifs <;> exact h.goto q _
    | cons id todo =>
      refine ⟨_, rfl, ?_⟩
      rw [← Option.some.inj hs]
      cases (s.db q).loadSegment cfg id <;> exact h.goto q _
  | readBase k => rw [hpc] at hs; exact ⟨_, rfl, Option.some.inj hs ▸ h.goto q _⟩
  | compare target k =>
    rw [hpc] at hs
    refine ⟨_, rfl, ?_⟩
    rw [← Option.some.inj hs]
    split_ifs <;> exact h.goto q _
  | openLocal target k =>
    rw [hpc] at hs
    refine ⟨_, rfl, ?_⟩
    rw [← Option.some.inj hs]
    cases s.tikm.filter fun m => m.checkpoint = target <;> exact h.goto q _
  | getBase target k =>
    rw [hpc] at hs
    refine ⟨_, rfl, ?_⟩
    rw [← Option.some.inj hs]
    cases (s.storage.bases cfg.dbId).lookup target with
    | some m => exact h.goto q _
    | none => exact h.fail q _ k
  | writeTikm target m k =>
    rw [hpc] at hs
    exact ⟨_, rfl, Option.some.inj hs ▸ (h.publishTikm q m).goto q _⟩
  | store target m k =>
    rw [hpc] at hs
    refine ⟨_, rfl, ?_⟩
    rw [← Option.some.inj hs]
    split_ifs
    · exact h.goto q _
    · exact (h.cache q m).goto q _
  | lookup m k => rw [hpc] at hs; exact ⟨_, rfl, Option.some.inj hs ▸ h.resume q m k⟩
  | fetch r tag since => rw [hpc] at hs; exact ⟨_, rfl, Option.some.inj hs ▸ h.answer q _ _⟩
  | put f =>
    rw [hpc] at hs
    exact ⟨_, rfl, Option.some.inj hs ▸ (h.publishBase q _ _).goto q _⟩
  | rename f =>
    rw [hpc] at hs
    exact ⟨_, rfl, Option.some.inj hs ▸ (h.publishTikm q _).goto q _⟩
  | advance f =>
    rw [hpc] at hs
    refine ⟨_, rfl, ?_⟩
    rw [← Option.some.inj hs]
    split_ifs
    · exact h.answer q _ _
    · exact (h.setBase f.key).goto q _
  | swap f =>
    rw [hpc] at hs
    exact ⟨_, rfl, Option.some.inj hs ▸ (h.cache q f.applied).goto q _⟩
  | delete ids =>
    rw [hpc] at hs
    cases ids with
    | nil => exact ⟨_, rfl, Option.some.inj hs ▸ h.goto q _⟩
    | cons id ids => exact ⟨_, rfl, Option.some.inj hs ▸ (h.deleteSegment id).goto q _⟩

theorem startJob (h : Agree p s t) (q : ι) (job : Job) :
    Agree p (s.startJob q job) (t.startJob q job) := by
  rw [Shared.startJob, Shared.startJob]
  split_ifs
  · exact { h with }
  · exact { h.goto q (.list job) with }

theorem call [Zero β] (h : Agree p s t) (hq : s.process q ≠ s.process p) (op : Op β) :
    Agree p (s.call cfg q op) (t.call cfg q op) := by
  cases op with
  | patchChunk tag offset data =>
    rw [Shared.call, Shared.call, ← h.db hq, ← h.timeline]
    have hd := h.setDb q ((s.db q).patchChunk cfg .ok tag offset data).2
    cases ((s.db q).patchChunk cfg .ok tag offset data).1 with
    | ok u => exact { hd with chunkWrites := congrArg (· ++ _) h.chunkWrites }
    | error e => exact hd
  | putMeta rf m =>
    rw [Shared.call, Shared.call, ← h.db hq, ← h.timeline]
    exact { h.setDb q _ with metaWrites := congrArg (· ++ _) h.metaWrites }
  | commit a =>
    rw [Shared.call, Shared.call, ← h.db hq]
    exact { h.setDb q _ with }
  | getChunk tag =>
    rw [Shared.call, Shared.call, ← h.db hq, ← h.chunkWrites]
    rcases (s.db q).getChunkLocked cfg tag with e | c | c
    · exact h.answer q _ _
    · exact h.goto q _
    · exact h.answer q _ _
  | getMeta rf =>
    rw [Shared.call, Shared.call, ← h.db hq, ← h.metaWrites]
    rcases (s.db q).getMetaLocked cfg rf with e | m | m
    · exact h.answer q _ _
    · exact h.goto q _
    · exact h.answer q _ _
  | baseManifest => exact h.goto q _
  | compact now =>
    rw [Shared.call, Shared.call, ← h.timeline]
    exact h.startJob q _
  | compactThrough target now =>
    rw [Shared.call, Shared.call, ← h.timeline]
    exact h.startJob q _

/-- **A step of another process keeps the agreement.** -/
theorem step [Zero β] (h : Agree p s t) {l : Label ι β} (hl : s.process l.thread ≠ s.process p)
    (hs : s.step cfg l = some s') : ∃ t', t.step cfg l = some t' ∧ Agree p s' t' := by
  cases l with
  | call q op =>
    rw [Shared.step] at hs ⊢
    rw [← h.pcs q hl]
    split at hs
    · exact ⟨_, rfl, Option.some.inj hs ▸ h.call hl op⟩
    · exact absurd hs (by simp)
  | run q => exact h.runThread hl hs

/-! ## Silent compactions -/

theorem goto_self (h : Agree p s t) (pc : Pc) : Agree p (s.goto p pc) t :=
  { h with
    pcs := fun q hq => by
      have hne : q ≠ p := fun heq => hq (congrArg s.process heq)
      exact (Function.update_of_ne hne ..).trans (h.pcs q hq) }

omit [DecidableEq ι] in
theorem cache_self (h : Agree p s t) (m : Manifest) : Agree p (s.cache p m) t :=
  { h with caches := fun k hk => (Function.update_of_ne hk ..).trans (h.caches k hk) }

end Agree

section Silent

variable {s s' t : Shared ι β} {p : ι}

theorem changed_noteChange {differs : Bool} (h : (s.noteChange p differs).changed p = false) :
    s.changed p = false ∧ differs = false := by
  change Function.update s.changed p (s.changed p || differs) p = false at h
  rw [Function.update_self] at h
  exact Bool.or_eq_false_iff.mp h

/-- A manifest that is already the local file. -/
theorem Agree.publishTikm_self {m : Manifest} (h : Agree p s t)
    (hc : (s.publishTikm p m).changed p = false) : Agree p (s.publishTikm p m) t := by
  have hm : s.tikm = some m := by simpa using (changed_noteChange hc).2
  exact { h with tikm := hm.symm.trans h.tikm }

/-- A base manifest that is already stored. -/
theorem Agree.publishBase_self {key : Checkpoint} {m : Manifest} (h : Agree p s t)
    (hc : (s.publishBase cfg p key m).changed p = false) :
    Agree p (s.publishBase cfg p key m) t := by
  have hm : (s.storage.bases cfg.dbId).lookup key = some m := by
    simpa using (changed_noteChange hc).2
  have hins : (s.storage.bases cfg.dbId).insert key m = s.storage.bases cfg.dbId := by
    refine SortedMap.ext_lookup fun k => ?_
    rw [SortedMap.lookup_insert]
    split_ifs with hk
    · rw [hk, hm]
    · rfl
  have hput : s.storage.putBase cfg.dbId key m = s.storage := by
    rw [Storage.putBase, hins, Function.update_eq_self]
  exact { h with storage := hput.trans h.storage }

/-- A step of a compaction that is still silent after it. -/
theorem Moves.silent (hs : s.Moves cfg p s') {b : Checkpoint}
    (hb : (s'.pcs p).snapshot = some b) (hc : s'.changed p = false) :
    (s.pcs p).snapshot = some b ∧ s.changed p = false ∧ ∀ t, Agree p s t → Agree p s' t := by
  have hgoto : ∀ (s : Shared ι β) (pc : Pc), (s.goto p pc).pcs p = pc :=
    fun s pc => Function.update_self ..
  have hquiet : ∀ {pc : Pc}, ((s.goto p pc).pcs p).snapshot = some b →
      (s.goto p pc).changed p = false → pc.snapshot = (s.pcs p).snapshot →
      (s.pcs p).snapshot = some b ∧ s.changed p = false ∧
        ∀ t, Agree p s t → Agree p (s.goto p pc) t := by
    intro pc hb hc hpc
    rw [hgoto, hpc] at hb
    exact ⟨hb, hc, fun t h => h.goto_self pc⟩
  have hidle : ∀ {pc : Pc}, pc.snapshot = none → ∀ s : Shared ι β,
      ((s.goto p pc).pcs p).snapshot ≠ some b := by
    intro pc hpc s hb
    rw [hgoto, hpc] at hb
    exact absurd hb (by simp)
  cases hs with
  | list hpc => exact hquiet hb hc (by rw [hpc]; rfl)
  | load hpc => exact hquiet hb hc (by rw [hpc]; rfl)
  | loadFails => exact absurd hb (hidle rfl _)
  | nothingNew => exact absurd hb (hidle rfl _)
  | loaded hpc => exact hquiet hb hc (by rw [hpc]; rfl)
  | readBase hpc => exact hquiet hb hc (by rw [hpc]; rfl)
  | cached hpc => exact hquiet hb hc (by rw [hpc]; rfl)
  | noBase hpc => exact hquiet hb hc (by rw [hpc]; rfl)
  | stale hpc => exact hquiet hb hc (by rw [hpc]; rfl)
  | localFile hpc => exact hquiet hb hc (by rw [hpc]; rfl)
  | otherFile hpc => exact hquiet hb hc (by rw [hpc]; rfl)
  | getBase hpc => exact hquiet hb hc (by rw [hpc]; rfl)
  | @getFails target k =>
    cases k with
    | chunk tag since => exact absurd hb (hidle rfl s)
    | relfork rf since => exact absurd hb (hidle rfl s)
    | done => exact absurd hb (hidle rfl s)
    | compact job segments toApply => exact absurd hb (hidle rfl s)
  | writeTikm hpc =>
    rw [hgoto] at hb
    exact ⟨by rw [hpc]; exact hb, (changed_noteChange hc).1,
      fun t h => (h.publishTikm_self hc).goto_self _⟩
  | sibling hpc => exact hquiet hb hc (by rw [hpc]; rfl)
  | store hpc =>
    rw [hgoto] at hb
    exact ⟨by rw [hpc]; exact hb, hc, fun t h => (h.cache_self _).goto_self _⟩
  | @lookup m k hpc =>
    cases k with
    | chunk tag since =>
      rw [resume] at hb
      cases hr : m.lookup tag with
      | some r => rw [hr] at hb; exact absurd hb (hidle rfl s)
      | none => rw [hr] at hb; exact absurd hb (hidle rfl s)
    | relfork rf since => exact absurd hb (hidle rfl s)
    | done => exact absurd hb (hidle rfl s)
    | compact job segments toApply => exact hquiet hb hc (by rw [hpc]; rfl)
  | fetch => exact absurd hb (hidle rfl s)
  | put hpc =>
    rw [hgoto] at hb
    exact ⟨by rw [hpc]; exact hb, (changed_noteChange hc).1,
      fun t h => (h.publishBase_self hc).goto_self _⟩
  | rename hpc =>
    rw [hgoto] at hb
    exact ⟨by rw [hpc]; exact hb, (changed_noteChange hc).1,
      fun t h => (h.publishTikm_self hc).goto_self _⟩
  | raced => exact absurd hb (hidle rfl s)
  | advance => exact absurd hb (hidle rfl _)
  | swap => exact absurd hb (hidle rfl _)
  | delete => exact absurd hb (hidle rfl _)
  | deleted => exact absurd hb (hidle rfl _)

end Silent

/-! ## Runs without the raced call -/

section Erase

variable [Zero β] {s s₁ s₂ t : Shared ι β} {p : ι}

/-- Whether an operation is a compaction. -/
def Op.compacts : Op β → Bool
  | .compact _ | .compactThrough _ _ => true
  | _ => false

/-- Whether a step at a place returns `Raced`. -/
def losesAt (s : Shared ι β) : Pc → Bool
  | .advance f => decide (s.timeline.baseCkpt ≠ f.base)
  | _ => false

/-- The next step of the thread returns `Raced`. -/
def Loses (s : Shared ι β) (p : ι) : Prop := s.losesAt (s.pcs p) = true

omit [DecidableEq ι] [Zero β] in
theorem Loses.exists (h : s.Loses p) :
    ∃ f, s.pcs p = .advance f ∧ s.timeline.baseCkpt ≠ f.base := by
  unfold Loses at h
  cases hpc : s.pcs p with
  | advance f =>
    rw [hpc] at h
    exact ⟨f, rfl, of_decide_eq_true h⟩
  | _ =>
    rw [hpc] at h
    exact absurd h (by simp [losesAt])

theorem process_run {ls : List (Label ι β)} (hs : Lib.run (Shared.step cfg) s₁ ls = some s₂) :
    s₂.process = s₁.process := by
  induction ls generalizing s₁ with
  | nil => rw [Option.some.inj hs]
  | cons l ls ih =>
    obtain ⟨s', hs', hs⟩ := Option.bind_eq_some_iff.mp hs
    exact (ih hs).trans (process_step cfg hs')

theorem Agree.run (h : Agree p s t) {ls : List (Label ι β)}
    (hls : ∀ l ∈ ls, s.process l.thread ≠ s.process p) {s' : Shared ι β}
    (hs : Lib.run (Shared.step cfg) s ls = some s') :
    ∃ t', Lib.run (Shared.step cfg) t ls = some t' ∧ Agree p s' t' := by
  induction ls generalizing s t with
  | nil => exact ⟨t, rfl, Option.some.inj hs ▸ h⟩
  | cons l ls ih =>
    obtain ⟨s₁, hs₁, hs⟩ := Option.bind_eq_some_iff.mp hs
    obtain ⟨t₁, ht₁, h₁⟩ := h.step (hls l List.mem_cons_self) hs₁
    have hproc : s₁.process = s.process := process_step cfg hs₁
    obtain ⟨t', ht', h'⟩ := ih h₁ (fun l hl => hproc ▸ hls l (List.mem_cons_of_mem _ hl)) hs
    exact ⟨t', by rw [Lib.run, ht₁]; exact ht', h'⟩

omit [Zero β] in
/-- A compaction that starts. -/
theorem startJob_self (p : ι) (s : Shared ι β) (job : Job) : Agree p (s.startJob p job) s := by
  rw [startJob]
  split_ifs
  · exact { Agree.refl p s with }
  · exact { (Agree.refl p s).goto_self (.list job) with }

theorem call_compacts (cfg : StoreConfig) {op : Op β} (hop : op.compacts = true) (p : ι) (s : Shared ι β) :
    ∃ job, s.call cfg p op = s.startJob p job := by
  cases op with
  | compact now => exact ⟨_, rfl⟩
  | compactThrough target now => exact ⟨_, rfl⟩
  | _ => exact absurd hop (by simp [Op.compacts])

/-- **As long as a compaction has changed nothing, the run without it agrees.** -/
theorem erasable {op : Op β} (hop : op.compacts = true) {during : List (Label ι β)}
    (hdur : ∀ l ∈ during, s₁.process l.thread = s₁.process p → l = .run p)
    (hs : Lib.run (Shared.step cfg) s₁ (.call p op :: during) = some s) :
    s.process = s₁.process ∧ ∀ b, (s.pcs p).snapshot = some b → s.changed p = false →
      ∃ t, Lib.run (Shared.step cfg) s₁ (during.filter fun l => l.thread ≠ p) = some t ∧
        Agree p s t := by
  induction during using List.reverseRecOn generalizing s with
  | nil =>
    obtain ⟨s', hs', hs⟩ := Option.bind_eq_some_iff.mp hs
    obtain rfl := Option.some.inj hs
    refine ⟨process_step cfg hs', fun b _ _ => ⟨s₁, rfl, ?_⟩⟩
    rw [Shared.step] at hs'
    split at hs'
    · obtain ⟨job, hjob⟩ := call_compacts cfg hop p s₁
      rw [← Option.some.inj hs', hjob]
      exact startJob_self p s₁ job
    · exact absurd hs' (by simp)
  | append_singleton during l ih =>
    rw [← List.cons_append, run_append_singleton] at hs
    obtain ⟨s₂, hs₂, hs⟩ := Option.bind_eq_some_iff.mp hs
    obtain ⟨hproc, ih⟩ := ih (fun l hl => hdur l (List.mem_append_left _ hl)) hs₂
    refine ⟨(process_step cfg hs).trans hproc, fun b hb hc => ?_⟩
    rw [List.filter_append]
    by_cases hl : s₁.process l.thread = s₁.process p
    · -- a step of the compaction itself
      obtain rfl := hdur l (List.mem_append_right _ (List.mem_singleton.mpr rfl)) hl
      obtain ⟨hb₂, hc₂, hsilent⟩ := (moves_of_runThread cfg hs).silent hb hc
      obtain ⟨t, ht, hagree⟩ := ih b hb₂ hc₂
      refine ⟨t, ?_, hsilent t hagree⟩
      rw [List.filter_cons_of_neg (by simp [Label.thread])]
      simpa using ht
    · have hne : l.thread ≠ p := fun heq => hl (congrArg s₁.process heq)
      obtain ⟨hpcs, hchanged⟩ := frame_step cfg hs hne.symm
      rw [hpcs] at hb
      rw [hchanged] at hc
      obtain ⟨t, ht, hagree⟩ := ih b hb hc
      obtain ⟨t', ht', hagree'⟩ := hagree.step (by rw [hproc]; exact hl) hs
      refine ⟨t', ?_, hagree'⟩
      rw [List.filter_cons_of_pos (by simpa using hne), List.filter_nil, run_append_singleton, ht]
      exact ht'

omit [DecidableEq ι] [Zero β] in
/-- A restart finds the same on states that differ in one process. -/
theorem Agree.restart (h : Agree p s t) (q : ι) (tikmLost inRecovery : Bool) :
    (s.db q).restart cfg tikmLost inRecovery = (t.db q).restart cfg tikmLost inRecovery := by
  rw [Db.restart, Db.restart]
  simp only [Shared.db, Db.initManifest, h.storage, h.timeline, h.draft, h.tikm]

end Erase

end Shared

end Tiko

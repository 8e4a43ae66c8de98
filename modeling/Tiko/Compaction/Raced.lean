import Tiko.Compaction.Erased

/-!
# Raced compactions

`CompactionResult::Raced` is documented as work that was discarded. The base checkpoint is compared
only after the new manifest has been stored and renamed over the local file, so a compaction that loses
leaves both behind, unless it has written what was there: what another compaction had made of the same
records at the same time.

* `Watch`: what each compaction has read, which one was the first to write since the base has moved,
  and what the first ones had read that made the stored manifests and the local file;
* `Undisturbed`: a compaction writes as the first one since the base has moved, or after one that had
  read the same, and only the first one moves the base;
* `Reads.Repeats.fold_eq`: compactions that have read the same make the same manifest;
* **`raced_leaves_no_trace`**: in every undisturbed run a raced call has changed nothing, and a restart
  finds what it finds without the call.
-/

namespace Tiko

open Lib

variable {ι β : Type} [DecidableEq ι] {cfg : StoreConfig}

theorem Db.runCommitProtocol_keeps (s : Db β) (cfg : StoreConfig) (a : Db.CommitArgs) :
    (s.runCommitProtocol cfg .ok a).2.timeline.baseCkpt = s.timeline.baseCkpt ∧
      (s.runCommitProtocol cfg .ok a).2.storage.bases = s.storage.bases := by
  cases hd : s.draft.drain cfg.codec .ok with
  | mk r d =>
    cases r with
    | ok F =>
      rw [Db.runCommitProtocol_ok hd]
      exact ⟨rfl, rfl⟩
    | error e =>
      rw [Db.runCommitProtocol]
      dsimp only
      rw [show Db.CommitOutcome.ok.drain = .ok from rfl, hd]
      exact ⟨rfl, rfl⟩

/-! ## What the compactions read -/

/-- What a compaction folds: the base manifest and the records that it has read, and its clock. -/
structure Reads where
  manifest : Manifest
  records : List SegmentCheckpoint
  now : ℤ
  deriving DecidableEq

/-- The manifest that it makes of them. -/
def Reads.fold (cfg : StoreConfig) (r : Reads) : Manifest :=
  r.manifest.applySegments cfg.sort r.records cfg.dbId r.now

/-- A compaction has read the same records and the same clock as an earlier one, and the same base
manifest or the one that is there now. -/
def Reads.Repeats (r g : Reads) (there : Option Manifest) : Prop :=
  g.records = r.records ∧ g.now = r.now ∧ (g.manifest = r.manifest ∨ there = some r.manifest)

instance (r g : Reads) (there : Option Manifest) : Decidable (r.Repeats g there) :=
  inferInstanceAs (Decidable (_ ∧ _ ∧ _))

/-- **It makes the same manifest** as the earlier one has left there: a fold of the same records on top
of the first changes nothing. -/
theorem Reads.Repeats.fold_eq {r g : Reads} (h : r.Repeats g (some (g.fold cfg))) :
    r.fold cfg = g.fold cfg := by
  obtain ⟨hrecords, hnow, hsame | hlate⟩ := h
  · rw [fold, fold, hrecords, hnow, hsame]
  · have hr : r.fold cfg = (g.fold cfg).applySegments cfg.sort g.records cfg.dbId g.now := by
      rw [Option.some.inj hlate, hrecords, hnow]
      rfl
    rw [hr]
    exact Manifest.applySegments_applySegments ..

/-- Where the local file comes from: `base_manifest` has loaded it, or a compaction has made it. -/
inductive Source where
  | loaded (m : Manifest)
  | folded (r : Reads)
  deriving DecidableEq

def Source.manifest (cfg : StoreConfig) : Source → Manifest
  | .loaded m => m
  | .folded r => r.fold cfg

def Source.reads : Source → Option Reads
  | .loaded _ => none
  | .folded r => some r

/-- The new manifest that a compaction is about to store or to rename. -/
def Pc.fold : Pc → Option Fold
  | .put f | .rename f => some f
  | _ => none

namespace Shared

/-! ## The schedule -/

/-- What has happened: what each compaction has read, which of them was the first to write since the
base has moved, what the first one to store each manifest had read, and where the local file comes from. -/
structure Watch (ι : Type) where
  reads : ι → Option Reads
  lead : Option ι
  stored : Checkpoint → Option Reads
  file : Option Source

namespace Watch

/-- Nothing has happened. -/
def start : Watch ι := ⟨fun _ => none, none, fun _ => none, none⟩

/-- The base is still that of the thread's compaction, and no other one has written since it has moved. -/
def Leads (w : Watch ι) (s : Shared ι β) (p : ι) (b : Checkpoint) : Prop :=
  s.timeline.baseCkpt = b ∧ ∀ q ∈ w.lead, q = p

instance (w : Watch ι) (s : Shared ι β) (p : ι) (b : Checkpoint) : Decidable (w.Leads s p b) :=
  inferInstanceAs (Decidable (_ ∧ _))

/-- A compaction from the base `b` writes. -/
def write (w : Watch ι) (s : Shared ι β) (p : ι) (b : Checkpoint) : Watch ι :=
  { w with lead := if w.Leads s p b then some p else w.lead }

/-- It stores its manifest under the key `k`. -/
def store (w : Watch ι) (s : Shared ι β) (p : ι) (b k : Checkpoint) : Watch ι :=
  { w.write s p b with
    stored := if w.Leads s p b then Function.update w.stored k (w.reads p) else w.stored }

/-- It renames its manifest over the local file. -/
def rename (w : Watch ι) (s : Shared ι β) (p : ι) (b : Checkpoint) : Watch ι :=
  { w.write s p b with file := if w.Leads s p b then (w.reads p).map .folded else w.file }

/-- A thread takes its next step. -/
def noteAt (w : Watch ι) (s : Shared ι β) (p : ι) : Pc → Watch ι
  | .lookup m (.compact job _ toApply) =>
    { w with reads := Function.update w.reads p (some ⟨m, toApply, job.now⟩) }
  | .writeTikm _ m (.compact job _ _) => { w.write s p job.base with file := some (.loaded m) }
  | .writeTikm _ m _ => { w with file := some (.loaded m) }
  | .put f => w.store s p f.base f.key
  | .rename f => w.rename s p f.base
  | .advance f => if s.timeline.baseCkpt = f.base then { w with lead := none } else w
  | _ => w

/-- A step from `s` to `s'`. A call may load the local file anew. -/
def note (s : Shared ι β) (l : Label ι β) (s' : Shared ι β) (w : Watch ι) : Watch ι :=
  match l with
  | .run p => w.noteAt s p (s.pcs p)
  | .call _ _ => if s'.tikm = s.tikm then w else { w with file := s'.tikm.map .loaded }

end Watch

/-- The step of a thread at a place: its compaction writes as the first one, or after one that had read
the same, and it moves the base as the first one. -/
def UndisturbedAt (cfg : StoreConfig) (s : Shared ι β) (w : Watch ι) (p : ι) : Pc → Prop
  | .writeTikm _ m k => ∀ b ∈ k.snapshot, w.Leads s p b ∨ w.file = some (.loaded m)
  | .put f => w.Leads s p f.base ∨ ∃ g ∈ w.stored f.key, ∃ r ∈ w.reads p,
      r.Repeats g ((s.storage.bases cfg.dbId).lookup f.key)
  | .rename f => w.Leads s p f.base ∨ ∃ g ∈ w.file.bind Source.reads, ∃ r ∈ w.reads p,
      r.Repeats g s.tikm
  | .advance f => s.timeline.baseCkpt = f.base → ∀ q ∈ w.lead, q = p
  | .idle | .list _ | .load _ _ _ _ | .readBase _ | .compare _ _ | .openLocal _ _ | .getBase _ _
  | .store _ _ _ | .lookup _ _ | .fetch _ _ _ | .swap _ | .delete _ => True

/-- No step of the run disturbs a compaction. -/
def Undisturbed (cfg : StoreConfig) (x : Shared ι β × Watch ι) : Label ι β → Prop
  | .call _ _ => True
  | .run p => x.1.UndisturbedAt cfg x.2 p (x.1.pcs p)

instance (s : Shared ι β) (w : Watch ι) (p : ι) : ∀ pc, Decidable (s.UndisturbedAt cfg w p pc)
  | .writeTikm _ m k =>
    inferInstanceAs (Decidable (∀ b ∈ k.snapshot, w.Leads s p b ∨ w.file = some (.loaded m)))
  | .put f => inferInstanceAs (Decidable (w.Leads s p f.base ∨ ∃ g ∈ w.stored f.key,
      ∃ r ∈ w.reads p, r.Repeats g ((s.storage.bases cfg.dbId).lookup f.key)))
  | .rename f => inferInstanceAs (Decidable (w.Leads s p f.base ∨
      ∃ g ∈ w.file.bind Source.reads, ∃ r ∈ w.reads p, r.Repeats g s.tikm))
  | .advance f => inferInstanceAs (Decidable (s.timeline.baseCkpt = f.base → ∀ q ∈ w.lead, q = p))
  | .idle | .list _ | .load _ _ _ _ | .readBase _ | .compare _ _ | .openLocal _ _ | .getBase _ _
  | .store _ _ _ | .lookup _ _ | .fetch _ _ _ | .swap _ | .delete _ => inferInstanceAs (Decidable True)

instance (x : Shared ι β × Watch ι) : ∀ l, Decidable (Undisturbed cfg x l)
  | .call _ _ => inferInstanceAs (Decidable True)
  | .run p => inferInstanceAs (Decidable (x.1.UndisturbedAt cfg x.2 p (x.1.pcs p)))

/-! ## What a raced compaction has changed -/

/-- A compaction that has changed something was the first to write on the current base, and no raced call
has; the stored manifests and the local file were made as the record says. -/
structure Unraced (cfg : StoreConfig) (s : Shared ι β) (w : Watch ι) : Prop where
  current : ∀ p b, (s.pcs p).snapshot = some b → s.changed p = true →
    s.timeline.baseCkpt = b ∧ w.lead = some p
  answers : ∀ p changed, .raced p changed ∈ s.answers → changed = false
  stored : ∀ k, ∀ r ∈ w.stored k, (s.storage.bases cfg.dbId).lookup k = some (r.fold cfg)
  file : ∀ x ∈ w.file, s.tikm = some (x.manifest cfg)
  reads : ∀ p, ∀ f ∈ (s.pcs p).fold, ∃ r ∈ w.reads p, f.applied = r.fold cfg

theorem tikm_startJob (s : Shared ι β) (p : ι) (job : Job) : (s.startJob p job).tikm = s.tikm := by
  rw [startJob]
  split_ifs <;> rfl

namespace Unraced

variable {s s' : Shared ι β} {w : Watch ι} {p : ι} {b : Checkpoint}

theorem goto (h : Unraced cfg s w) (pc : Pc)
    (hpc : pc.snapshot = none ∨ pc.snapshot = (s.pcs p).snapshot)
    (hfold : ∀ f ∈ pc.fold, ∃ r ∈ w.reads p, f.applied = r.fold cfg) :
    Unraced cfg (s.goto p pc) w where
  current q b hb hc := by
    change (Function.update s.pcs p pc q).snapshot = some b at hb
    by_cases hq : q = p
    · subst hq
      rw [Function.update_self] at hb
      rcases hpc with hpc | hpc
      · rw [hpc] at hb
        exact absurd hb (by simp)
      · rw [hpc] at hb
        exact h.current q b hb hc
    · rw [Function.update_of_ne hq] at hb
      exact h.current q b hb hc
  answers := h.answers
  stored := h.stored
  file := h.file
  reads q f hf := by
    change f ∈ (Function.update s.pcs p pc q).fold at hf
    by_cases hq : q = p
    · subst hq
      rw [Function.update_self] at hf
      exact hfold f hf
    · rw [Function.update_of_ne hq] at hf
      exact h.reads q f hf

/-- A thread goes to a place where it has no new manifest. -/
theorem rest (h : Unraced cfg s w) (pc : Pc)
    (hpc : pc.snapshot = none ∨ pc.snapshot = (s.pcs p).snapshot) (hfold : pc.fold = none) :
    Unraced cfg (s.goto p pc) w :=
  h.goto pc hpc fun f hf => by
    rw [hfold] at hf
    exact absurd hf (by simp)

theorem answer (h : Unraced cfg s w) {a : Answer ι β}
    (ha : ∀ q changed, a = .raced q changed → changed = false) : Unraced cfg (s.answer p a) w :=
  { h.rest .idle (.inl rfl) rfl with
    answers := fun q changed hmem => by
      rcases List.mem_cons.mp hmem with heq | hmem
      · exact ha q changed heq.symm
      · exact h.answers q changed hmem }

/-- A compaction that writes: it changes something only as the first one on its base. -/
theorem current_write (h : Unraced cfg s w) (hp : (s.pcs p).snapshot = some b) {differs : Bool}
    (hd : differs = true → w.Leads s p b) {q : ι} {c : Checkpoint} (hq : (s.pcs q).snapshot = some c)
    (hc : (s.noteChange p differs).changed q = true) :
    s.timeline.baseCkpt = c ∧ (w.write s p b).lead = some q := by
  change Function.update s.changed p (s.changed p || differs) q = true at hc
  have hlead : w.lead = some q → (w.write s p b).lead = some q := by
    intro hl
    change (if w.Leads s p b then some p else w.lead) = some q
    split_ifs with hw
    · rw [hw.2 q hl]
    · exact hl
  by_cases hqp : q = p
  · subst hqp
    obtain rfl : b = c := Option.some.inj (hp.symm.trans hq)
    rw [Function.update_self, Bool.or_eq_true] at hc
    rcases hc with hc | hdiff
    · obtain ⟨hbase, hl⟩ := h.current q b hq hc
      exact ⟨hbase, hlead hl⟩
    · exact ⟨(hd hdiff).1, if_pos (hd hdiff)⟩
  · rw [Function.update_of_ne hqp] at hc
    obtain ⟨hbase, hl⟩ := h.current q c hq hc
    exact ⟨hbase, hlead hl⟩

/-- A thread that is no compaction renames the manifest that it has loaded. -/
theorem loads (h : Unraced cfg s w) (hp : (s.pcs p).snapshot = none) (m : Manifest) :
    Unraced cfg (s.publishTikm p m) { w with file := some (.loaded m) } where
  current q c hq hc := by
    change Function.update s.changed p _ q = true at hc
    have hqp : q ≠ p := by
      rintro rfl
      rw [show (s.pcs q).snapshot = some c from hq] at hp
      exact absurd hp (by simp)
    rw [Function.update_of_ne hqp] at hc
    exact h.current q c hq hc
  answers := h.answers
  stored := h.stored
  file x hx := by
    obtain rfl := Option.mem_some.mp hx
    rfl
  reads := h.reads

/-- A compaction renames a manifest. -/
theorem publishTikm (h : Unraced cfg s w) (hp : (s.pcs p).snapshot = some b) {m : Manifest}
    {file : Option Source} (hfile : ∀ x ∈ file, m = x.manifest cfg)
    (hm : w.Leads s p b ∨ s.tikm = some m) :
    Unraced cfg (s.publishTikm p m) { w.write s p b with file := file } where
  current _ _ hq hc :=
    h.current_write hp (fun hd => hm.resolve_right (of_decide_eq_true hd)) hq hc
  answers := h.answers
  stored := h.stored
  file x hx := congrArg some (hfile x hx)
  reads := h.reads

/-- A compaction renames its manifest. -/
theorem rename (h : Unraced cfg s w) {f : Fold} (hpc : s.pcs p = .rename f)
    (hm : w.Leads s p f.base ∨ s.tikm = some f.applied) :
    Unraced cfg (s.publishTikm p f.applied) (w.rename s p f.base) := by
  obtain ⟨r, hr, hfold⟩ := h.reads p f (by rw [hpc]; rfl)
  refine h.publishTikm (by rw [hpc]; rfl) (fun x hx => ?_) hm
  split_ifs at hx with hw
  · obtain ⟨r', hr', rfl⟩ := Option.map_eq_some_iff.mp hx
    obtain rfl : r' = r := Option.mem_unique hr' hr
    exact hfold
  · exact Option.some.inj ((hm.resolve_left hw).symm.trans (h.file x hx))

/-- A compaction stores its manifest. -/
theorem store (h : Unraced cfg s w) {f : Fold} (hpc : s.pcs p = .put f)
    (hm : w.Leads s p f.base ∨ (s.storage.bases cfg.dbId).lookup f.key = some f.applied) :
    Unraced cfg (s.publishBase cfg p f.key f.applied) (w.store s p f.base f.key) where
  current _ _ hq hc :=
    h.current_write (by rw [hpc]; rfl) (fun hd => hm.resolve_right (of_decide_eq_true hd)) hq hc
  answers := h.answers
  stored k r hr := by
    change (Function.update s.storage.bases cfg.dbId
      ((s.storage.bases cfg.dbId).insert f.key f.applied) cfg.dbId).lookup k = _
    rw [Function.update_self, SortedMap.lookup_insert]
    change r ∈ (if w.Leads s p f.base then _ else _ : Checkpoint → Option Reads) k at hr
    obtain ⟨r', hr', hfold⟩ := h.reads p f (by rw [hpc]; rfl)
    by_cases hk : k = f.key
    · rw [if_pos hk]
      split_ifs at hr with hw
      · rw [hk, Function.update_self] at hr
        obtain rfl : r' = r := Option.mem_unique hr' hr
        rw [hfold]
      · rw [hk] at hr
        exact (hm.resolve_left hw).symm.trans (h.stored _ r hr)
    · rw [if_neg hk]
      split_ifs at hr with hw
      · rw [Function.update_of_ne hk] at hr
        exact h.stored k r hr
      · exact h.stored k r hr
  file := h.file
  reads := h.reads

omit [DecidableEq ι] in
theorem cache (h : Unraced cfg s w) (m : Manifest) : Unraced cfg (s.cache p m) w := { h with }

omit [DecidableEq ι] in
theorem deleteSegment (h : Unraced cfg s w) (id : SegmentId) : Unraced cfg (s.deleteSegment cfg id) w :=
  { h with }

/-- The first compaction on the base moves it, and the others have changed nothing. -/
theorem advance (h : Unraced cfg s w) {f : Fold} (hlead : ∀ q ∈ w.lead, q = p) :
    Unraced cfg ((s.setBase f.key).goto p (.swap f)) { w with lead := none } where
  current q c hq hc := by
    change (Function.update s.pcs p (.swap f) q).snapshot = some c at hq
    by_cases hqp : q = p
    · rw [hqp, Function.update_self] at hq
      exact absurd hq (by simp [Pc.snapshot])
    · rw [Function.update_of_ne hqp] at hq
      exact absurd (hlead q (h.current q c hq hc).2) hqp
  answers := h.answers
  stored := h.stored
  file := h.file
  reads := (h.rest (.swap f) (.inl rfl) rfl).reads

theorem fail (h : Unraced cfg s w) (e : Error) (k : Cont) : Unraced cfg (s.fail p e k) w := by
  cases k with
  | chunk tag since => exact h.answer fun q changed heq => absurd heq (by simp)
  | relfork rf since => exact h.answer fun q changed heq => absurd heq (by simp)
  | done => exact h.rest .idle (.inl rfl) rfl
  | compact job segments toApply => exact h.rest .idle (.inl rfl) rfl

theorem resume (h : Unraced cfg s w) {m : Manifest} {k : Cont} (hpc : s.pcs p = .lookup m k) :
    Unraced cfg (s.resume cfg p m k) (w.noteAt s p (.lookup m k)) := by
  cases k with
  | chunk tag since =>
    rw [Shared.resume]
    cases m.lookup tag with
    | some r => exact h.rest _ (.inl rfl) rfl
    | none => exact h.answer fun q changed heq => absurd heq (by simp)
  | relfork rf since => exact h.answer fun q changed heq => absurd heq (by simp)
  | done => exact h.rest .idle (.inl rfl) rfl
  | compact job segments toApply =>
    have hread : Unraced cfg s (w.noteAt s p (.lookup m (.compact job segments toApply))) :=
      { h with
        reads := fun q f hf => by
          have hq : q ≠ p := by
            rintro rfl
            rw [hpc] at hf
            exact absurd hf (by simp [Pc.fold])
          change ∃ r ∈ Function.update w.reads p _ q, _
          rw [Function.update_of_ne hq]
          exact h.reads q f hf }
    refine hread.goto _ (.inr (by rw [hpc]; rfl)) fun f hf => ?_
    obtain rfl := Option.mem_some.mp hf
    exact ⟨⟨m, toApply, job.now⟩, Function.update_self .., rfl⟩

/-- **A step of a thread in an undisturbed run.** -/
theorem moves (h : Unraced cfg s w) (hok : s.UndisturbedAt cfg w p (s.pcs p)) (hs : s.Moves cfg p s') :
    Unraced cfg s' (w.noteAt s p (s.pcs p)) := by
  cases hs with
  | list hpc => rw [hpc]; exact h.rest _ (.inr (by rw [hpc]; rfl)) rfl
  | load hpc => rw [hpc]; exact h.rest _ (.inr (by rw [hpc]; rfl)) rfl
  | loadFails hpc => rw [hpc]; exact h.rest _ (.inl rfl) rfl
  | nothingNew hpc => rw [hpc]; exact h.rest _ (.inl rfl) rfl
  | loaded hpc => rw [hpc]; exact h.rest _ (.inr (by rw [hpc]; rfl)) rfl
  | readBase hpc => rw [hpc]; exact h.rest _ (.inr (by rw [hpc]; rfl)) rfl
  | cached hpc => rw [hpc]; exact h.rest _ (.inr (by rw [hpc]; rfl)) rfl
  | noBase hpc => rw [hpc]; exact h.rest _ (.inr (by rw [hpc]; rfl)) rfl
  | stale hpc => rw [hpc]; exact h.rest _ (.inr (by rw [hpc]; rfl)) rfl
  | localFile hpc => rw [hpc]; exact h.rest _ (.inr (by rw [hpc]; rfl)) rfl
  | otherFile hpc => rw [hpc]; exact h.rest _ (.inr (by rw [hpc]; rfl)) rfl
  | getBase hpc => rw [hpc]; exact h.rest _ (.inr (by rw [hpc]; rfl)) rfl
  | getFails hpc => rw [hpc]; exact h.fail _ _
  | @writeTikm target m k hpc =>
    rw [hpc] at hok ⊢
    have hsnap : (s.pcs p).snapshot = k.snapshot := by
      rw [hpc]
      rfl
    cases k with
    | compact job segments toApply =>
      have hm := (hok job.base rfl).imp_right fun hfile => h.file _ hfile
      exact (h.publishTikm hsnap (fun x hx => Option.mem_some.mp hx ▸ rfl) hm).rest _
        (.inr hsnap.symm) rfl
    | chunk tag since => exact (h.loads hsnap m).rest _ (.inl rfl) rfl
    | relfork rf since => exact (h.loads hsnap m).rest _ (.inl rfl) rfl
    | done => exact (h.loads hsnap m).rest _ (.inl rfl) rfl
  | sibling hpc => rw [hpc]; exact h.rest _ (.inr (by rw [hpc]; rfl)) rfl
  | store hpc => rw [hpc]; exact (h.cache _).rest _ (.inr (congrArg Pc.snapshot hpc).symm) rfl
  | lookup hpc => rw [hpc]; exact h.resume hpc
  | fetch hpc => rw [hpc]; exact h.answer fun q changed heq => absurd heq (by simp)
  | @put f hpc =>
    rw [hpc] at hok ⊢
    obtain ⟨r, hr, hfold⟩ := h.reads p f (by rw [hpc]; rfl)
    have hm : w.Leads s p f.base ∨ (s.storage.bases cfg.dbId).lookup f.key = some f.applied := by
      -- the object under the key has been made of the same
      refine hok.imp_right ?_
      rintro ⟨g, hg, r', hr', hsame⟩
      obtain rfl : r' = r := Option.mem_unique hr' hr
      rw [h.stored _ g hg] at hsame
      rw [h.stored _ g hg, hfold, hsame.fold_eq]
    exact (h.store hpc hm).goto _ (.inr (congrArg Pc.snapshot hpc).symm) fun g hg =>
      Option.mem_some.mp hg ▸ ⟨r, hr, hfold⟩
  | @rename f hpc =>
    rw [hpc] at hok ⊢
    obtain ⟨r, hr, hfold⟩ := h.reads p f (by rw [hpc]; rfl)
    have hm : w.Leads s p f.base ∨ s.tikm = some f.applied := by
      -- and so has the local file
      refine hok.imp_right ?_
      rintro ⟨g, hg, r', hr', hsame⟩
      obtain rfl : r' = r := Option.mem_unique hr' hr
      obtain ⟨x, hx, hread⟩ := Option.bind_eq_some_iff.mp hg
      cases x with
      | loaded m => exact absurd hread (by simp [Source.reads])
      | folded g' =>
        obtain rfl := Option.some.inj hread
        have hfile : s.tikm = some (g'.fold cfg) := h.file _ hx
        rw [hfile] at hsame
        rw [hfile, hfold, hsame.fold_eq]
    exact (h.rename hpc hm).rest _ (.inr (congrArg Pc.snapshot hpc).symm) rfl
  | @raced f hpc hb =>
    -- the base has moved, so the loser has changed nothing
    rw [hpc, Watch.noteAt, if_neg hb]
    refine h.answer fun q changed heq => ?_
    obtain ⟨rfl, rfl⟩ := Answer.raced.inj heq
    by_contra hc
    exact hb (h.current p f.base (by rw [hpc]; rfl) (by simpa using hc)).1
  | advance hpc hb =>
    rw [hpc] at hok ⊢
    rw [Watch.noteAt, if_pos hb]
    exact h.advance (hok hb)
  | swap hpc => rw [hpc]; exact (h.cache _).rest _ (.inl rfl) rfl
  | delete hpc => rw [hpc]; exact (h.deleteSegment _).rest _ (.inl rfl) rfl
  | deleted hpc => rw [hpc]; exact h.rest _ (.inl rfl) rfl

omit [DecidableEq ι] in
/-- An operation on the database that leaves the base and the stored manifests where they are. -/
theorem setDb (h : Unraced cfg s w) {d : Db β} (hd : d.timeline.baseCkpt = s.timeline.baseCkpt)
    (hbases : d.storage.bases = s.storage.bases) :
    Unraced cfg (s.setDb p d) (if d.tikm = s.tikm then w else { w with file := d.tikm.map .loaded }) := by
  have hcurrent : ∀ q b, (s.pcs q).snapshot = some b → s.changed q = true →
      d.timeline.baseCkpt = b ∧ w.lead = some q := fun q b hb hc => by
    obtain ⟨hbase, hlead⟩ := h.current q b hb hc
    exact ⟨hd.trans hbase, hlead⟩
  have hstored : ∀ k, ∀ r ∈ w.stored k, (d.storage.bases cfg.dbId).lookup k = some (r.fold cfg) := by
    rw [hbases]
    exact h.stored
  split_ifs with htikm
  · refine ⟨hcurrent, h.answers, hstored, fun x hx => ?_, h.reads⟩
    exact htikm.trans (h.file x hx)
  · refine ⟨hcurrent, h.answers, hstored, fun x hx => ?_, h.reads⟩
    obtain ⟨m, hm, rfl⟩ := Option.map_eq_some_iff.mp hx
    exact hm

/-- A compaction starts with nothing changed. -/
theorem startJob (h : Unraced cfg s w) (job : Job) : Unraced cfg (s.startJob p job) w := by
  have hchanged : ∀ q, Function.update s.changed p false q = true → q ≠ p ∧ s.changed q = true := by
    intro q hc
    by_cases hq : q = p
    · rw [hq, Function.update_self] at hc
      exact absurd hc (by simp)
    · rw [Function.update_of_ne hq] at hc
      exact ⟨hq, hc⟩
  have hreset : Unraced cfg { s with changed := Function.update s.changed p false } w :=
    { h with current := fun q b hb hc => h.current q b hb (hchanged q hc).2 }
  rw [Shared.startJob]
  split_ifs
  · exact hreset
  · refine { hreset with current := fun q b hb hc => ?_, reads := fun q f hf => ?_ }
    · obtain ⟨hq, hc⟩ := hchanged q hc
      change (Function.update s.pcs p (.list job) q).snapshot = some b at hb
      rw [Function.update_of_ne hq] at hb
      exact h.current q b hb hc
    · change f ∈ (Function.update s.pcs p (.list job) q).fold at hf
      by_cases hq : q = p
      · rw [hq, Function.update_self] at hf
        exact absurd hf (by simp [Pc.fold])
      · rw [Function.update_of_ne hq] at hf
        exact h.reads q f hf

omit [DecidableEq ι] in
/-- A call that goes on, or returns at once. -/
theorem called (h : Unraced cfg s' w) (htikm : s'.tikm = s.tikm) :
    Unraced cfg s' (if s'.tikm = s.tikm then w else { w with file := s'.tikm.map .loaded }) := by
  rwa [if_pos htikm]

theorem call [Zero β] (h : Unraced cfg s w) (op : Op β) :
    Unraced cfg (s.call cfg p op) (Watch.note s (.call p op) (s.call cfg p op) w) := by
  have hraced : ∀ {a : Answer ι β}, (∀ q c, a ≠ .raced q c) → Unraced cfg (s.answer p a) w :=
    fun ha => h.answer fun q changed heq => absurd heq (ha q changed)
  rw [Watch.note]
  cases op with
  | patchChunk tag offset data =>
    have hr : Db.Refreshed cfg (s.db p) ((s.db p).patchChunk cfg .ok tag offset data).2 :=
      Db.patchChunk_refreshed (s.db p) .ok tag offset data
    obtain ⟨chunks, draft, manifest, tikm, hr, -⟩ := hr
    have hd := h.setDb (p := p) (congrArg (fun d : Db β => d.timeline.baseCkpt) hr)
      (congrArg (fun d : Db β => d.storage.bases) hr)
    rw [Shared.call]
    cases ((s.db p).patchChunk cfg .ok tag offset data).1 with
    | ok u => exact { hd with }
    | error e => exact hd
  | putMeta rf m => exact { h.setDb (p := p) rfl rfl with }
  | commit a =>
    obtain ⟨hbase, hbases⟩ := (s.db p).runCommitProtocol_keeps cfg a
    exact { h.setDb (p := p) hbase hbases with }
  | getChunk tag =>
    rw [Shared.call]
    rcases (s.db p).getChunkLocked cfg tag with e | c | c
    · exact (hraced fun _ _ => by simp).called rfl
    · exact (h.rest _ (.inl rfl) rfl).called rfl
    · exact (hraced fun _ _ => by simp).called rfl
  | getMeta rf =>
    rw [Shared.call]
    rcases (s.db p).getMetaLocked cfg rf with e | m | m
    · exact (hraced fun _ _ => by simp).called rfl
    · exact (h.rest _ (.inl rfl) rfl).called rfl
    · exact (hraced fun _ _ => by simp).called rfl
  | baseManifest => exact (h.rest _ (.inl rfl) rfl).called rfl
  | compact now => exact (h.startJob _).called (tikm_startJob s p _)
  | compactThrough target now => exact (h.startJob _).called (tikm_startJob s p _)

/-- **Every undisturbed step keeps this.** -/
theorem step [Zero β] (h : Unraced cfg s w) {l : Label ι β} (hok : Undisturbed cfg (s, w) l)
    (hs : s.step cfg l = some s') : Unraced cfg s' (Watch.note s l s' w) := by
  cases l with
  | call p op =>
    rw [Shared.step] at hs
    split at hs
    · exact Option.some.inj hs ▸ h.call op
    · exact absurd hs (by simp)
  | run p => exact h.moves hok (moves_of_runThread cfg hs)

omit [DecidableEq ι] in
theorem of_fresh (h : s.Fresh) : Unraced cfg s .start where
  current p b hb := by
    rw [h.pcs] at hb
    exact absurd hb (by simp [Pc.snapshot])
  answers p changed hmem := by
    rw [h.answers] at hmem
    exact absurd hmem List.not_mem_nil
  stored k r hr := absurd hr (by simp [Watch.start])
  file x hx := absurd hx (by simp [Watch.start])
  reads p f hf := by
    rw [h.pcs] at hf
    exact absurd hf (by simp [Pc.fold])

end Unraced

/-! ## Runs -/

section Runs

variable [Zero β] {s s₁ s₂ : Shared ι β} {p : ι}

theorem unraced_of_run {s₀ : Shared ι β} (h₀ : s₀.Fresh) {ls : List (Label ι β)}
    (hrun : Lib.run (Shared.step cfg) s₀ ls = some s)
    (hok : Throughout (stepNoting (Shared.step cfg) Watch.note) (Undisturbed cfg) (s₀, .start) ls) :
    ∃ w, Unraced cfg s w := by
  obtain ⟨w, hw⟩ := run_noting hrun Watch.note .start
  refine ⟨w, (reaches_of_run hw hok).invariant (I := fun x => Unraced cfg x.1 x.2)
    (Unraced.of_fresh h₀) ?_⟩
  rintro ⟨s, w⟩ l x h hok hs
  obtain ⟨s', hs', rfl⟩ := Option.map_eq_some_iff.mp hs
  exact h.step hok hs'

/-- **A raced compaction leaves no trace** in an undisturbed run: it has changed neither a stored base
manifest nor the local file, and a restart after it finds what it finds in the run without the call. -/
theorem raced_leaves_no_trace {s₀ : Shared ι β} (h₀ : s₀.Fresh) {ls : List (Label ι β)}
    (hrun : Lib.run (Shared.step cfg) s₀ ls = some s)
    (hok : Throughout (stepNoting (Shared.step cfg) Watch.note) (Undisturbed cfg) (s₀, .start) ls) :
    (∀ p changed, .raced p changed ∈ s.answers → changed = false) ∧
    ∀ before p op during after s₁ s₂,
      ls = before ++ .call p op :: (during ++ .run p :: after) → op.compacts = true →
      Lib.run (Shared.step cfg) s₀ before = some s₁ →
      Lib.run (Shared.step cfg) s₁ (.call p op :: during) = some s₂ → s₂.Loses p →
      (∀ l ∈ during, s₀.process l.thread = s₀.process p → l = .run p) →
      (∀ l ∈ after, s₀.process l.thread ≠ s₀.process p) →
      ∃ t, Lib.run (Shared.step cfg) s₁ (during.filter (fun l => l.thread ≠ p) ++ after) = some t ∧
        ∀ q tikmLost inRecovery,
          (s.db q).restart cfg tikmLost inRecovery = (t.db q).restart cfg tikmLost inRecovery := by
  obtain ⟨w, hw⟩ := unraced_of_run h₀ hrun hok
  refine ⟨hw.answers, ?_⟩
  intro before p op during after s₁ s₂ hls hop hs₁ hs₂ hloses hdur hafter
  have hproc₁ : s₁.process = s₀.process := process_run hs₁
  have hproc₂ : s₂.process = s₁.process := process_run hs₂
  subst hls
  -- the loser has changed nothing when it finds that the base has moved
  have hsplit : before ++ .call p op :: (during ++ .run p :: after) =
      (before ++ .call p op :: during) ++ .run p :: after := by simp
  rw [hsplit] at hok hrun
  have hreach : Lib.run (Shared.step cfg) s₀ (before ++ .call p op :: during) = some s₂ := by
    rw [run_append, hs₁]
    exact hs₂
  obtain ⟨f, hf, hbase⟩ := hloses.exists
  have hsnap : (s₂.pcs p).snapshot = some f.base := by
    rw [hf]
    rfl
  have hquiet : s₂.changed p = false := by
    obtain ⟨w₂, hw₂⟩ := unraced_of_run h₀ hreach hok.left
    by_contra hc
    exact hbase (hw₂.current p f.base hsnap (by simpa using hc)).1
  obtain ⟨-, herase⟩ := erasable hop (fun l hl => by rw [hproc₁]; exact hdur l hl) hs₂
  obtain ⟨t₂, ht₂, hagree⟩ := herase f.base hsnap hquiet
  -- the step that returns, and the steps of the others after it
  rw [run_append, hreach, Option.bind_some] at hrun
  obtain ⟨s₃, hs₃, hrun⟩ := Option.bind_eq_some_iff.mp hrun
  have hs₃' : s₃ = s₂.answer p (.raced p (s₂.changed p)) := by
    rw [Shared.step, runThread, hf] at hs₃
    dsimp only at hs₃
    rw [if_pos hbase] at hs₃
    exact (Option.some.inj hs₃).symm
  have hagree₃ : Agree p s₃ t₂ := by
    rw [hs₃']
    exact { hagree.goto_self .idle with }
  have hproc₃ : s₃.process = s₀.process := (process_step cfg hs₃).trans (hproc₂.trans hproc₁)
  obtain ⟨t, ht, hagree⟩ := hagree₃.run (fun l hl => by rw [hproc₃]; exact hafter l hl) hrun
  refine ⟨t, ?_, fun q tikmLost inRecovery => hagree.restart q tikmLost inRecovery⟩
  rw [run_append, ht₂]
  exact ht

end Runs

/-! ## Two races -/

/-- Two commits. -/
def twoCommits : List (Label (Fin 2) ℕ) :=
  [.call first (.putMeta Manifest.exampleTag.relFork ⟨1, false⟩),
    .call first (.commit ⟨⟨1, 100⟩, ⟨1, 100⟩, [], 0⟩),
    .call first (.putMeta Manifest.exampleTag.relFork ⟨2, false⟩),
    .call first (.commit ⟨⟨1, 200⟩, ⟨1, 200⟩, [], 0⟩)]

/-- The steps of a compaction of one segment, up to the comparison of the base checkpoint. -/
def toAdvance (p : Fin 2) : List (Label (Fin 2) ℕ) := List.replicate 8 (.run p)

/-- Two compactions at the same time read the same records. The first one moves the base before the
second reads the base manifest, folds the records on top of the first one's fold, and loses. -/
def latecomer : List (Label (Fin 2) ℕ) :=
  List.replicate 3 (.run second) ++ toAdvance first ++ .run first :: List.replicate 7 (.run second)

theorem raced_latecomer : ∃ s t : Shared (Fin 2) ℕ, s.answers.length = 1 ∧
    s.timeline.baseCkpt = ⟨1, 100⟩ ∧ (∀ p changed, .raced p changed ∈ s.answers → changed = false) ∧
    run (Shared.step exampleConfig) pair
      ((twoCommits ++ [.call 0 (.compact 0)]) ++ (toAdvance 0 ++ [.run 0])) = some t ∧
    ∀ q tikmLost inRecovery, (s.db q).restart exampleConfig tikmLost inRecovery =
      (t.db q).restart exampleConfig tikmLost inRecovery := by
  have hrun : (run (Shared.step exampleConfig) pair ((twoCommits ++ [.call 0 (.compact 0)]) ++
      .call 1 (.compact 0) :: (latecomer ++ [.run 1]))).map
      (fun s => (s.answers.length, s.timeline.baseCkpt)) = some (1, ⟨1, 100⟩) := by
    decide +kernel
  have hok : Throughout (stepNoting (Shared.step exampleConfig) Watch.note)
      (Undisturbed exampleConfig) (pair, .start)
      ((twoCommits ++ [.call 0 (.compact 0)]) ++ .call 1 (.compact 0) :: (latecomer ++ [.run 1])) := by
    decide +kernel
  have hloses : (run (Shared.step exampleConfig) pair ((twoCommits ++ [.call 0 (.compact 0)]) ++
      .call 1 (.compact 0) :: latecomer)).map (fun s => s.losesAt (s.pcs 1)) = some true := by
    decide +kernel
  obtain ⟨s, hs, hends⟩ := Option.map_eq_some_iff.mp hrun
  obtain ⟨hone, hbase⟩ := Prod.mk.inj hends
  obtain ⟨s₂, hs₂, hloses⟩ := Option.map_eq_some_iff.mp hloses
  rw [run_append] at hs₂
  obtain ⟨s₁, hs₁, hs₂⟩ := Option.bind_eq_some_iff.mp hs₂
  obtain ⟨hquiet, herase⟩ := raced_leaves_no_trace fresh_pair hs hok
  have hdur : ∀ l ∈ latecomer, pair.process l.thread = pair.process 1 → l = .run 1 := by
    intro l hl hp
    simp only [latecomer, toAdvance, List.mem_append, List.mem_cons, List.mem_replicate] at hl
    rcases hl with (⟨-, rfl⟩ | ⟨-, rfl⟩) | rfl | ⟨-, rfl⟩
    · rfl
    · exact absurd hp (by decide)
    · exact absurd hp (by decide)
    · rfl
  obtain ⟨t, ht, hrestart⟩ := herase _ 1 (.compact 0) latecomer [] s₁ s₂ rfl rfl hs₁ hs₂ hloses
    hdur fun l hl => absurd hl List.not_mem_nil
  refine ⟨s, t, hone, hbase, hquiet, ?_, hrestart⟩
  rw [run_append, hs₁]
  exact ht

/-- The first compaction has read one record when another commit and a compaction of both come in
between. -/
def overtaken : List (Label (Fin 2) ℕ) :=
  twoCommits ++ .call second (.compact 0) :: List.replicate 6 (.run second) ++
    [.call first (.putMeta Manifest.exampleTag.relFork ⟨3, false⟩),
      .call first (.commit ⟨⟨1, 300⟩, ⟨1, 300⟩, [], 0⟩), .call first (.compact 0)] ++
    toAdvance first ++ [.run first] ++ List.replicate 3 (.run second)

/-- What a call has changed when it returned `Raced`. -/
def racedAs : Answer ι β → Option Bool
  | .raced _ changed => some changed
  | _ => none

/-- **A raced compaction leaves its manifest behind**: when the call returns, the base is at LSN 200
and the local file at LSN 100. -/
theorem raced_moves_local_file_back : ∃ (s : Shared (Fin 2) ℕ) (p : Fin 2),
    run (Shared.step exampleConfig) pair overtaken = some s ∧ .raced p true ∈ s.answers ∧
    s.timeline.baseCkpt = ⟨1, 200⟩ ∧ s.tikm.map (·.checkpoint) = some ⟨1, 100⟩ := by
  have hrun : (run (Shared.step exampleConfig) pair overtaken).map (fun s =>
      (s.timeline.baseCkpt, s.tikm.map (·.checkpoint), s.answers.map racedAs)) =
      some (⟨1, 200⟩, some ⟨1, 100⟩, [some true]) := by
    decide +kernel
  obtain ⟨s, hs, h⟩ := Option.map_eq_some_iff.mp hrun
  obtain ⟨hbase, h⟩ := Prod.mk.inj h
  obtain ⟨htikm, hans⟩ := Prod.mk.inj h
  have hmem : some true ∈ s.answers.map racedAs := by rw [hans]; exact List.mem_cons_self
  obtain ⟨a, ha, hraced⟩ := List.mem_map.mp hmem
  cases a with
  | raced p changed =>
    obtain rfl : changed = true := Option.some.inj hraced
    exact ⟨s, p, hs, ha, hbase, htikm⟩
  | chunk tag since result => exact absurd hraced (by simp [racedAs])
  | relfork rf since result => exact absurd hraced (by simp [racedAs])

end Shared

end Tiko

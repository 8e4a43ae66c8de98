import Tiko.Draft.Concurrent
import Tiko.Lib.Newest

/-!
# Lookups without false negatives

Between the moment a spill drains an entry and the moment it has written its frame and set the flag,
a lookup can miss the entry; while a frame is half written, a reader fails.

* `Sys.Quiet`: a step that is not a lookup in one of these windows;
* `Core`, `Grows`: what every step keeps of the shared memory, and how it may grow;
* **`noFalseNegatives_of_quiet`**: in runs whose steps are all quiet no lookup has a false negative;
* `spill_hides_recorded_chunk`: a run with a false negative.
-/

namespace Tiko

open Lib

namespace DraftBuffer

/-- The next step of the thread is not the lookup of a recorded entry while the spill in progress hides
it: the flag is not loaded while it is unset and the entry is drained, nor, for a relation fork, before
the entry is written; and no frame length is read behind the last whole frame while the next one is
being written. -/
def Pc.Quiet (m : Mem) : Pc → Prop
  | .loadFlagChunk tag known =>
    known = true → m.hasSpilled = false → m.unflagged.containsChunk tag = false
  | .loadFlagRelfork rf floor => floor ≠ none →
    if m.hasSpilled then m.unwritten.relforks.lookup rf = none
    else m.unflagged.relforks.lookup rf = none
  | .readLen _ floor pos _ => floor ≠ none → m.torn = true → pos < m.frames.length
  | _ => True

/-- A step that is not a lookup in a window of a spill. -/
def Sys.Quiet (s : Sys) : Sys.Label → Prop
  | .call _ _ => True
  | .run t => (s.pcs t).Quiet s.mem

instance (m : Mem) : ∀ pc, Decidable (Pc.Quiet m pc)
  | .loadFlagChunk tag known => inferInstanceAs (Decidable (known = true → m.hasSpilled = false →
      m.unflagged.containsChunk tag = false))
  | .loadFlagRelfork rf floor => inferInstanceAs (Decidable (floor ≠ none →
      if m.hasSpilled then m.unwritten.relforks.lookup rf = none
      else m.unflagged.relforks.lookup rf = none))
  | .readLen _ floor pos _ => inferInstanceAs (Decidable (floor ≠ none → m.torn = true →
      pos < m.frames.length))
  | .idle | .insertChunk _ | .insertRelfork _ _ | .lockSpill _ | .tryLockSpill _ | .spilling _
  | .probeChunk _ _ | .probeRelfork _ _ | .readBody _ _ _ _ => inferInstanceAs (Decidable True)

instance (s : Sys) : ∀ l, Decidable (s.Quiet l)
  | .call _ _ => inferInstanceAs (Decidable True)
  | .run t => inferInstanceAs (Decidable ((s.pcs t).Quiet s.mem))

/-! ## Insertions in order -/

/-- `o` is the metadata of an insertion of `rf` at place `i` or later. -/
def From (log : List (RelFork × RelForkMeta)) (rf : RelFork) (i : ℕ) (o : Option RelForkMeta) :
    Prop :=
  ∃ j m, i ≤ j ∧ log[j]? = some (rf, m) ∧ o = some m

/-- The metadata of the last insertion. -/
def lastOf (log : List (RelFork × RelForkMeta)) (rf : RelFork) : Option RelForkMeta :=
  newest (fun p => if p.1 = rf then some p.2 else none) log

theorem getElem?_of_isPrefix {α : Type} {l l' : List α} (h : l <+: l') {i : ℕ} {a : α}
    (ha : l[i]? = some a) : l'[i]? = some a := by
  obtain ⟨r, rfl⟩ := h
  obtain ⟨hi, -⟩ := List.getElem?_eq_some_iff.mp ha
  rw [List.getElem?_append_left hi, ha]

theorem From.mono {log log' : List (RelFork × RelForkMeta)} {rf : RelFork} {i : ℕ}
    {o : Option RelForkMeta} (h : From log rf i o) (hl : log <+: log') : From log' rf i o := by
  obtain ⟨j, m, hij, hj, ho⟩ := h
  exact ⟨j, m, hij, getElem?_of_isPrefix hl hj, ho⟩

/-- The last insertion is at the place of any other or later. -/
theorem from_lastOf {log : List (RelFork × RelForkMeta)} {rf : RelFork} {i j : ℕ} {m : RelForkMeta}
    (hij : i ≤ j) (hj : log[j]? = some (rf, m)) : From log rf i (lastOf log rf) := by
  induction log using List.reverseRecOn with
  | nil => exact absurd hj (by simp)
  | append_singleton log x ih =>
    rw [lastOf, newest_append_singleton]
    obtain ⟨hlt, -⟩ := List.getElem?_eq_some_iff.mp hj
    rw [List.length_append, List.length_singleton] at hlt
    split_ifs with hx
    · refine ⟨log.length, x.2, by omega, ?_, rfl⟩
      rw [List.getElem?_concat_length, ← hx]
    · rw [Option.none_or]
      have hne : j ≠ log.length := by
        rintro rfl
        rw [List.getElem?_concat_length] at hj
        exact hx (by rw [Option.some.inj hj])
      rw [List.getElem?_append_left (by omega)] at hj
      exact (ih hj).mono (List.prefix_append _ _)

/-! ## The shared memory -/

/-- The stages before the relation forks are drained. -/
def Stage.draining : Stage → Bool
  | .shard _ | .relforks => true
  | _ => false

namespace Mem

/-- The contents of the spill file. -/
def file (m : Mem) : DraftFrame := DraftFrame.mergeAll m.frames

/-- A lookup of the tag will find the flag set, or a spill in progress has the tag. -/
def Spilled (m : Mem) (tag : ChunkTag) : Prop :=
  m.unflagged.containsChunk tag = true ∨ m.hasSpilled = true

/-- What a reader of the file relies on: the file has a value of place `i` or later, and so has what
will be written next. -/
def Reading (m : Mem) (rf : RelFork) (i : ℕ) : Prop :=
  From m.log rf i (m.file.relforks.lookup rf) ∧
    ∀ md, m.unwritten.relforks.lookup rf = some md → From m.log rf i (some md)

/-- The shared memory is consistent: inserted tags are in the zone or spilled, zone, spill and file
together hold the last insertions, and a file with entries is announced by the flag or by a spill. -/
structure Core (m : Mem) : Prop where
  wfChunks : m.chunks.Wf
  wfRelforks : RelforkZone.Wf m.relforks
  inserted : ∀ tag ∈ m.inserted, m.chunks.contains tag = true ∨ m.Spilled tag
  newest : ∀ rf, ((RelforkZone.get m.relforks rf).or (m.unwritten.relforks.lookup rf)).or
    (m.file.relforks.lookup rf) = lastOf m.log rf
  announced : m.hasSpilled = false → ∀ rf, m.unflagged.relforks.lookup rf = none →
    m.file.relforks.lookup rf = none
  draining : ∀ sp, m.spill = some sp → sp.stage.draining = true → sp.frame.relforks = .empty

/-- How a step may change the shared memory, as far as the lookups in progress rely on it. -/
structure Grows (m m' : Mem) : Prop where
  inserted : ∀ tag ∈ m.inserted, tag ∈ m'.inserted
  log : m.log <+: m'.log
  spilled : ∀ tag, m.Spilled tag → m'.Spilled tag
  frames : m.frames <+: m'.frames
  probed : ∀ rf i, From m.log rf i ((m.unwritten.relforks.lookup rf).or (m.file.relforks.lookup rf)) →
    From m'.log rf i ((m'.unwritten.relforks.lookup rf).or (m'.file.relforks.lookup rf))
  reading : ∀ rf i, m.Reading rf i → m'.Reading rf i

variable {m m' : Mem} {sp : Spill}

theorem unwritten_of_spill (h : m.spill = some sp) : m.unwritten = sp.unwritten := by
  rw [unwritten, h]
  rfl

theorem unflagged_of_spill (h : m.spill = some sp) : m.unflagged = sp.unflagged := by
  rw [unflagged, h]
  rfl

theorem unwritten_eq_none {rf : RelFork} (h : m.unflagged.relforks.lookup rf = none) :
    m.unwritten.relforks.lookup rf = none := by
  unfold unwritten
  unfold unflagged at h
  cases hsp : m.spill with
  | none => rfl
  | some sp =>
    obtain ⟨stage, frame⟩ := sp
    rw [hsp] at h
    cases stage with
    | setFlag | unlock => rfl
    | shard | relforks | openFile | writeLen | writeBody => exact h

theorem Grows.of_eq (hi : ∀ tag ∈ m.inserted, tag ∈ m'.inserted) (hl : m.log <+: m'.log)
    (hs : ∀ tag, m.Spilled tag → m'.Spilled tag) (hf : m'.frames = m.frames)
    (hu : m'.unwritten.relforks = m.unwritten.relforks) : m.Grows m' where
  inserted := hi
  log := hl
  spilled := hs
  frames := by rw [hf]
  probed rf i h := by
    rw [file, hu, hf]
    exact h.mono hl
  reading rf i h := by
    unfold Reading file
    rw [hu, hf]
    exact ⟨h.1.mono hl, fun md hmd => (h.2 md hmd).mono hl⟩

/-- A step that leaves alone what is stored of the relation forks. -/
theorem Core.of_eq (h : m.Core) (hc : m'.chunks.Wf) (hz : m'.relforks = m.relforks)
    (hl : m'.log = m.log) (hf : m'.frames = m.frames)
    (hu : m'.unwritten.relforks = m.unwritten.relforks)
    (hi : ∀ tag ∈ m'.inserted, m'.chunks.contains tag = true ∨ m'.Spilled tag)
    (ha : m'.hasSpilled = false →
      m.hasSpilled = false ∧ m'.unflagged.relforks = m.unflagged.relforks)
    (hd : ∀ sp, m'.spill = some sp → sp.stage.draining = true → sp.frame.relforks = .empty) :
    m'.Core where
  wfChunks := hc
  wfRelforks := by
    rw [hz]
    exact h.wfRelforks
  inserted := hi
  newest rf := by
    rw [hz, hu, file, hf, hl]
    exact h.newest rf
  announced hs rf hrf := by
    obtain ⟨hs, hfl⟩ := ha hs
    rw [hfl] at hrf
    rw [file, hf]
    exact h.announced hs rf hrf
  draining := hd

/-! ## Steps of the shared memory -/

theorem Core.insertChunk (h : m.Core) {tag : ChunkTag} {chunks : ChunkZone} {crossed : Bool}
    (hi : m.chunks.insert tag = some (chunks, crossed)) :
    let m' := { m with chunks := chunks, inserted := tag :: m.inserted }
    m'.Core ∧ m.Grows m' := by
  refine ⟨h.of_eq (ChunkZone.wf_insert h.wfChunks hi) rfl rfl rfl rfl ?_ (fun hs => ⟨hs, rfl⟩)
    h.draining, .of_eq (fun _ => List.mem_cons_of_mem _) List.prefix_rfl (fun _ h => h) rfl rfl⟩
  intro tag' htag
  dsimp only at htag ⊢
  rw [ChunkZone.contains_insert h.wfChunks hi]
  rcases List.mem_cons.mp htag with rfl | htag
  · exact .inl (by simp)
  · rcases h.inserted tag' htag with hc | hs
    · exact .inl (by rw [hc, Bool.or_true])
    · exact .inr hs

theorem lastOf_append_singleton (log : List (RelFork × RelForkMeta)) (rf rf' : RelFork)
    (md : RelForkMeta) :
    lastOf (log ++ [(rf, md)]) rf' = if rf' = rf then some md else lastOf log rf' := by
  rw [lastOf, newest_append_singleton]
  by_cases h : rf' = rf
  · rw [if_pos h.symm, if_pos h, Option.some_or]
  · rw [if_neg (Ne.symm h), if_neg h, Option.none_or]
    rfl

theorem Core.insertRelfork (h : m.Core) {rf : RelFork} {md : RelForkMeta} {relforks : RelforkZone}
    {crossed : Bool} (hi : RelforkZone.insert m.relforks rf md = some (relforks, crossed)) :
    let m' := { m with relforks := relforks, log := m.log ++ [(rf, md)] }
    m'.Core ∧ m.Grows m' := by
  obtain ⟨fresh, hi⟩ := RelforkZone.insert_eq_some hi
  have hget : ∀ rf', RelforkZone.get relforks rf' =
      if rf' = rf then some md else RelforkZone.get m.relforks rf' := fun rf' =>
    ProbeTable.lookup_insert h.wfRelforks hi rf'
  refine ⟨?_, .of_eq (fun _ h => h) (List.prefix_append _ _) (fun _ h => h) rfl rfl⟩
  exact
    { wfChunks := h.wfChunks
      wfRelforks := ProbeTable.wf_insert h.wfRelforks hi
      inserted := h.inserted
      newest := by
        intro rf'
        dsimp only
        rw [hget, lastOf_append_singleton]
        split_ifs
        · rfl
        · exact h.newest rf'
      announced := h.announced
      draining := h.draining }

theorem Core.lock (h : m.Core) (hsp : m.spill = none) : m.lock.Core ∧ m.Grows m.lock := by
  have hu : m.unwritten = .empty := by rw [unwritten, hsp]; rfl
  have hf : m.unflagged = .empty := by rw [unflagged, hsp]; rfl
  have hs : ∀ tag, m.Spilled tag → m.lock.Spilled tag := by
    intro tag hs
    rw [Spilled, hf] at hs
    exact hs
  refine ⟨h.of_eq h.wfChunks rfl rfl rfl (by rw [hu]; rfl) (fun tag htag => ?_)
    (fun hs => ⟨hs, by rw [hf]; rfl⟩) (fun sp h _ => ?_),
    .of_eq (fun _ h => h) List.prefix_rfl hs rfl (by rw [hu]; rfl)⟩
  · exact (h.inserted tag htag).imp_right (hs tag)
  · rw [← Option.some.inj h]
    rfl

theorem Core.drainShard (h : m.Core) {i : ℕ} (hsp : m.spill = some sp) (hi : sp.stage = .shard i) :
    (m.drainShard sp i).Core ∧ m.Grows (m.drainShard sp i) := by
  have hdrained : sp.frame.relforks = .empty := h.draining sp hsp (by rw [hi]; rfl)
  have hu : m.unwritten = sp.frame := by rw [unwritten_of_spill hsp, Spill.unwritten, hi]
  have hf : m.unflagged = sp.frame := by rw [unflagged_of_spill hsp, Spill.unflagged, hi]
  have hu' : (m.drainShard sp i).unwritten.relforks = sp.frame.relforks := by
    unfold Mem.drainShard unwritten
    dsimp only
    split_ifs <;> rfl
  have hf' : (m.drainShard sp i).unflagged = { sp.frame with
      chunks := sp.frame.chunks.insertAll (m.chunks (Fin.ofNat chunkNumShards i)).toList } := by
    unfold Mem.drainShard unflagged
    dsimp only
    split_ifs <;> rfl
  have hs : ∀ tag, m.Spilled tag → (m.drainShard sp i).Spilled tag := by
    intro tag hs
    refine hs.imp_left fun hs => ?_
    rw [hf] at hs
    rw [hf']
    exact (SortedSet.contains_insertAll _ _ _).mpr (.inr hs)
  refine ⟨h.of_eq (ChunkZone.wf_update_empty h.wfChunks _) rfl rfl rfl (by rw [hu', hu]) ?_
    (fun hs => ⟨hs, by rw [hf', hf]⟩) ?_,
    .of_eq (fun _ h => h) List.prefix_rfl hs rfl (by rw [hu', hu])⟩
  · -- a tag leaves the zone for the frame
    intro tag htag
    rcases h.inserted tag htag with hc | hsp
    · refine (ChunkZone.contains_update_empty h.wfChunks hc).imp_right fun hmem => .inl ?_
      rw [hf']
      exact (SortedSet.contains_insertAll _ _ _).mpr (.inl hmem)
    · exact .inr (hs tag hsp)
  · intro sp' hsp' _
    rw [← Option.some.inj hsp']
    exact hdrained

theorem drainRelforks_unflagged (m : Mem) (sp : Spill) :
    (m.drainRelforks sp).unflagged =
      { sp.frame with relforks := sp.frame.relforks.insertAll m.relforks.toList } := by
  unfold drainRelforks unflagged
  dsimp only
  split_ifs with he
  · exact (DraftFrame.eq_empty_of_isEmpty he).symm
  · rfl

theorem drainRelforks_unwritten (m : Mem) (sp : Spill) :
    (m.drainRelforks sp).unwritten =
      { sp.frame with relforks := sp.frame.relforks.insertAll m.relforks.toList } := by
  unfold drainRelforks unwritten
  dsimp only
  split_ifs with he
  · exact (DraftFrame.eq_empty_of_isEmpty he).symm
  · rfl

theorem Core.drainRelforks (h : m.Core) (hsp : m.spill = some sp) (hi : sp.stage = .relforks) :
    (m.drainRelforks sp).Core ∧ m.Grows (m.drainRelforks sp) := by
  have hdrained : sp.frame.relforks = .empty := h.draining sp hsp (by rw [hi]; rfl)
  have hu : m.unwritten = sp.frame := by rw [unwritten_of_spill hsp, Spill.unwritten, hi]
  have hf : m.unflagged = sp.frame := by rw [unflagged_of_spill hsp, Spill.unflagged, hi]
  have hlook : ∀ rf, (sp.frame.relforks.insertAll m.relforks.toList).lookup rf =
      RelforkZone.get m.relforks rf := fun rf => by
    rw [hdrained]
    exact RelforkZone.lookup_toMap h.wfRelforks rf
  -- nothing was drained before, so the zone and the file held the last insertions
  have hlast : ∀ rf, (RelforkZone.get m.relforks rf).or (m.file.relforks.lookup rf) =
      lastOf m.log rf := fun rf => by
    have hn := h.newest rf
    rwa [hu, hdrained, SortedMap.lookup_empty, Option.or_none] at hn
  have hs : ∀ tag, m.Spilled tag → (m.drainRelforks sp).Spilled tag := by
    intro tag hs
    rw [Spilled, hf] at hs
    rw [Spilled, drainRelforks_unflagged]
    exact hs
  refine ⟨?_, ?_⟩
  · exact
      { wfChunks := h.wfChunks
        wfRelforks := wf_relforks_empty
        inserted := fun tag htag => (h.inserted tag htag).imp_right (hs tag)
        newest := fun rf => by
          rw [drainRelforks_unwritten]
          dsimp only
          rw [hlook]
          have hempty : RelforkZone.get (m.drainRelforks sp).relforks rf = none :=
            ProbeTable.lookup_empty rf
          rw [hempty, Option.none_or]
          exact hlast rf
        announced := fun hns rf hrf => by
          rw [drainRelforks_unflagged] at hrf
          dsimp only at hrf
          have hnone : m.unflagged.relforks.lookup rf = none := by
            rw [hf, hdrained, SortedMap.lookup_empty]
          exact h.announced hns rf hnone
        draining := fun sp' hsp' hd => by
          rw [← Option.some.inj hsp'] at hd
          dsimp only at hd
          split_ifs at hd <;> exact absurd hd (by decide) }
  · exact
      { inserted := fun _ h => h
        log := List.prefix_rfl
        spilled := hs
        frames := List.prefix_rfl
        probed := fun rf i hfrom => by
          obtain ⟨j, md, hij, hj, -⟩ := hfrom
          rw [drainRelforks_unwritten]
          dsimp only
          rw [hlook]
          change From m.log rf i ((RelforkZone.get m.relforks rf).or (m.file.relforks.lookup rf))
          rw [hlast]
          exact from_lastOf hij hj
        reading := fun rf i hr => by
          obtain ⟨j, md, hij, hj, -⟩ := hr.1
          refine ⟨hr.1, fun md' hmd => ?_⟩
          rw [drainRelforks_unwritten] at hmd
          dsimp only at hmd
          rw [hlook] at hmd
          have hl := hlast rf
          rw [hmd, Option.some_or] at hl
          rw [hl]
          exact from_lastOf hij hj }

theorem Core.writeBody (h : m.Core) (hsp : m.spill = some sp) (hi : sp.stage = .writeBody) :
    let m' := { m with
      torn := false, frames := m.frames ++ [sp.frame], spill := some ⟨.setFlag, sp.frame⟩ }
    m'.Core ∧ m.Grows m' := by
  intro m'
  have hu : m.unwritten = sp.frame := by rw [unwritten_of_spill hsp, Spill.unwritten, hi]
  have hf : m.unflagged = m'.unflagged := by rw [unflagged_of_spill hsp, Spill.unflagged, hi]; rfl
  have hlook : ∀ rf, m'.file.relforks.lookup rf =
      (m.unwritten.relforks.lookup rf).or (m.file.relforks.lookup rf) := fun rf => by
    rw [hu, file, DraftFrame.mergeAll_append_singleton, DraftFrame.lookup_relforks_mergeFrame]
    rfl
  have hs : ∀ tag, m.Spilled tag → m'.Spilled tag := by
    intro tag hs
    rw [Spilled, hf] at hs
    exact hs
  have hnone : ∀ rf, m'.unwritten.relforks.lookup rf = none := fun _ => rfl
  refine ⟨?_, ?_⟩
  · exact
      { wfChunks := h.wfChunks
        wfRelforks := h.wfRelforks
        inserted := fun tag htag => (h.inserted tag htag).imp_right (hs tag)
        newest := fun rf => by
          rw [hnone, hlook, Option.or_none, ← Option.or_assoc]
          exact h.newest rf
        announced := fun hns rf hrf => by
          rw [← hf] at hrf
          rw [hlook, h.announced hns rf hrf, Option.or_none, hu]
          rwa [unflagged_of_spill hsp, Spill.unflagged, hi] at hrf
        draining := fun sp' hsp' hd => by
          rw [← Option.some.inj hsp'] at hd
          exact absurd hd Bool.false_ne_true }
  · exact
      { inserted := fun _ h => h
        log := List.prefix_rfl
        spilled := hs
        frames := List.prefix_append _ _
        probed := fun rf i hfrom => by
          rw [hnone, hlook, Option.none_or]
          exact hfrom
        reading := fun rf i hr => by
          refine ⟨?_, fun md hmd => absurd hmd (by rw [hnone]; exact nofun)⟩
          rw [hlook]
          cases hmd : m.unwritten.relforks.lookup rf with
          | some md => exact hr.2 md hmd
          | none => exact hr.1 }

/-- A step of the spill that moves no relation forks and sets at most the flag. -/
theorem Core.advance (h : m.Core) {spill : Option Spill} {torn flag : Bool}
    (hu : (spill.map Spill.unwritten).getD .empty = m.unwritten)
    (hf : flag = false → m.hasSpilled = false ∧
      (spill.map Spill.unflagged).getD .empty = m.unflagged)
    (hd : ∀ sp, spill = some sp → sp.stage.draining = false) :
    let m' := { m with torn := torn, hasSpilled := flag, spill := spill }
    m'.Core ∧ m.Grows m' := by
  intro m'
  have hu' : m'.unwritten = m.unwritten := hu
  have hs : ∀ tag, m.Spilled tag → m'.Spilled tag := by
    intro tag hs
    cases hflag : flag with
    | true => exact .inr hflag
    | false =>
      obtain ⟨hns, hf⟩ := hf hflag
      rcases hs with hs | hs
      · refine .inl ?_
        change ((spill.map Spill.unflagged).getD .empty).containsChunk tag = true
        rw [hf]
        exact hs
      · exact absurd hs (by rw [hns]; exact Bool.false_ne_true)
  refine ⟨h.of_eq h.wfChunks rfl rfl rfl (by rw [hu']) (fun tag htag => ?_) (fun hflag => ?_)
    (fun sp hsp hdr => ?_), .of_eq (fun _ h => h) List.prefix_rfl hs rfl (by rw [hu'])⟩
  · exact (h.inserted tag htag).imp_right (hs tag)
  · exact ⟨(hf hflag).1, congrArg DraftFrame.relforks (hf hflag).2⟩
  · rw [hd sp hsp] at hdr
    exact absurd hdr Bool.false_ne_true

/-- A step of the spill keeps the shared memory consistent. -/
theorem Core.spillStep (h : m.Core) (hsp : m.spill = some sp) :
    (m.spillStep sp).Core ∧ m.Grows (m.spillStep sp) := by
  have hu : m.unwritten = sp.unwritten := unwritten_of_spill hsp
  have hf : m.unflagged = sp.unflagged := unflagged_of_spill hsp
  rw [Spill.unwritten] at hu
  rw [Spill.unflagged] at hf
  rw [Mem.spillStep]
  cases hi : sp.stage with
  | shard i => exact h.drainShard hsp hi
  | relforks => exact h.drainRelforks hsp hi
  | openFile =>
    rw [hi] at hu hf
    exact h.advance hu.symm (fun hns => ⟨hns, hf.symm⟩) fun _ h => by rw [← Option.some.inj h]; rfl
  | writeLen =>
    rw [hi] at hu hf
    exact h.advance hu.symm (fun hns => ⟨hns, hf.symm⟩) fun _ h => by rw [← Option.some.inj h]; rfl
  | writeBody => exact h.writeBody hsp hi
  | setFlag =>
    rw [hi] at hu
    exact h.advance hu.symm (fun hns => absurd hns Bool.true_eq_false.mp) fun _ h => by
      rw [← Option.some.inj h]; rfl
  | unlock =>
    rw [hi] at hu hf
    exact h.advance hu.symm (fun hns => ⟨hns, hf.symm⟩) nofun

end Mem

/-! ## Threads -/

/-- What a thread relies on when it returns from a record. -/
def After.Ok (m : Mem) : After → Prop
  | .recordedChunk tag => tag ∈ m.inserted
  | .recordedRelfork rf pos => ∃ md, m.log[pos]? = some (rf, md)
  | _ => True

/-- What a thread relies on at its place: a recorded tag that was not in the zone is spilled, and
the value of a recorded relation fork that was not in the zone is in the spill or the file. -/
def Pc.Ok (m : Mem) : Pc → Prop
  | .lockSpill k | .tryLockSpill k | .spilling k => k.Ok m
  | .probeChunk tag known => known = true → tag ∈ m.inserted
  | .loadFlagChunk tag known => known = true → m.Spilled tag
  | .probeRelfork rf floor => ∀ i, floor = some i → ∃ md, m.log[i]? = some (rf, md)
  | .loadFlagRelfork rf floor => ∀ i, floor = some i →
      From m.log rf i ((m.unwritten.relforks.lookup rf).or (m.file.relforks.lookup rf))
  | .readLen rf floor pos merged => ∀ i, floor = some i →
      pos ≤ m.frames.length ∧ merged = .mergeAll (m.frames.take pos) ∧ m.Reading rf i
  | .readBody rf floor pos merged => ∀ i, floor = some i →
      pos < m.frames.length ∧ merged = .mergeAll (m.frames.take pos) ∧ m.Reading rf i
  | _ => True

theorem After.Ok.mono {m m' : Mem} {k : After} (h : k.Ok m) (hg : m.Grows m') : k.Ok m' := by
  cases k with
  | recordedChunk tag => exact hg.inserted tag h
  | recordedRelfork rf pos =>
    obtain ⟨md, h⟩ := h
    exact ⟨md, getElem?_of_isPrefix hg.log h⟩
  | done | retryChunk | retryRelfork => trivial

theorem take_of_isPrefix {α : Type} {l l' : List α} (h : l <+: l') {n : ℕ} (hn : n ≤ l.length) :
    l'.take n = l.take n := by
  obtain ⟨r, rfl⟩ := h
  rw [List.take_append_of_le_length hn]

theorem Pc.Ok.mono {m m' : Mem} {pc : Pc} (h : pc.Ok m) (hg : m.Grows m') : pc.Ok m' := by
  cases pc with
  | lockSpill k | tryLockSpill k | spilling k => exact After.Ok.mono h hg
  | probeChunk tag known => exact fun hk => hg.inserted tag (h hk)
  | loadFlagChunk tag known => exact fun hk => hg.spilled tag (h hk)
  | probeRelfork rf floor =>
    intro i hi
    obtain ⟨md, h⟩ := h i hi
    exact ⟨md, getElem?_of_isPrefix hg.log h⟩
  | loadFlagRelfork rf floor => exact fun i hi => hg.probed rf i (h i hi)
  | readLen rf floor pos merged =>
    intro i hi
    obtain ⟨hpos, hm, hr⟩ := h i hi
    refine ⟨hpos.trans hg.frames.length_le, ?_, hg.reading rf i hr⟩
    rw [take_of_isPrefix hg.frames hpos]
    exact hm
  | readBody rf floor pos merged =>
    intro i hi
    obtain ⟨hpos, hm, hr⟩ := h i hi
    refine ⟨hpos.trans_le hg.frames.length_le, ?_, hg.reading rf i hr⟩
    rw [take_of_isPrefix hg.frames hpos.le]
    exact hm
  | idle | insertChunk | insertRelfork => trivial

theorem Answer.Correct.mono {log log' : List (RelFork × RelForkMeta)} {a : Answer}
    (h : a.Correct log) (hl : log <+: log') : a.Correct log' := by
  cases a with
  | chunk tag known result => exact h
  | relfork rf floor result =>
    intro i hi
    obtain ⟨j, md, hij, hj, hr⟩ := h i hi
    exact ⟨j, md, hij, getElem?_of_isPrefix hl hj, hr⟩

/-! ## The invariant of runs -/

namespace Sys

/-- The invariant: the shared memory is consistent, what has returned was inserted, every thread may
rely on what it does, and no lookup has had a false negative. -/
structure Inv (s : Sys) : Prop where
  core : s.mem.Core
  recorded : ∀ tag ∈ s.recorded, tag ∈ s.mem.inserted
  returned : ∀ rf i, s.returned rf = some i → ∃ md, s.mem.log[i]? = some (rf, md)
  pcs : ∀ t, (s.pcs t).Ok s.mem
  answers : s.NoFalseNegatives

variable {s : Sys} {t : ℕ}

theorem Inv.init : init.Inv where
  core :=
    { wfChunks := ChunkZone.wf_init
      wfRelforks := wf_relforks_empty
      inserted := fun _ h => absurd h List.not_mem_nil
      newest := fun rf => by
        have hempty : RelforkZone.get Sys.init.mem.relforks rf = none := ProbeTable.lookup_empty rf
        rw [hempty]
        rfl
      announced := fun _ _ _ => rfl
      draining := fun _ h => absurd h nofun }
  recorded _ h := absurd h List.not_mem_nil
  returned _ _ h := absurd h nofun
  pcs _ := trivial
  answers _ h := absurd h List.not_mem_nil

theorem Inv.withMem (h : s.Inv) {m : Mem} (hm : m.Core ∧ s.mem.Grows m) :
    Inv { s with mem := m } where
  core := hm.1
  recorded tag htag := hm.2.inserted tag (h.recorded tag htag)
  returned rf i hi := by
    obtain ⟨md, hmd⟩ := h.returned rf i hi
    exact ⟨md, getElem?_of_isPrefix hm.2.log hmd⟩
  pcs t := (h.pcs t).mono hm.2
  answers a ha := (h.answers a ha).mono hm.2.log

theorem Inv.goto (h : s.Inv) {pc : Pc} (hpc : pc.Ok s.mem) : (s.goto t pc).Inv where
  core := h.core
  recorded := h.recorded
  returned := h.returned
  pcs t' := by
    change Pc.Ok s.mem (Function.update s.pcs t pc t')
    by_cases ht : t' = t
    · rw [ht, Function.update_self]
      exact hpc
    · rw [Function.update_of_ne ht]
      exact h.pcs t'
  answers := h.answers

theorem Inv.answer (h : s.Inv) {a : Answer} (ha : a.Correct s.mem.log) : (s.answer t a).Inv :=
  have hg : (s.goto t .idle).Inv := h.goto trivial
  { hg with answers := List.forall_mem_cons.mpr ⟨ha, hg.answers⟩ }

theorem Inv.returnChunk (h : s.Inv) {tag : ChunkTag} (htag : tag ∈ s.mem.inserted) :
    (s.returnChunk t tag).Inv :=
  have hg : (s.goto t .idle).Inv := h.goto trivial
  { hg with recorded := List.forall_mem_cons.mpr ⟨htag, hg.recorded⟩ }

theorem Inv.returnRelfork (h : s.Inv) {rf : RelFork} {pos : ℕ}
    (hpos : ∃ md, s.mem.log[pos]? = some (rf, md)) : (s.returnRelfork t rf pos).Inv := by
  have hg : (s.goto t .idle).Inv := h.goto trivial
  refine { hg with returned := fun rf' i hi => ?_ }
  simp only [Sys.returnRelfork] at hi
  by_cases hrf : rf' = rf
  · rw [hrf, Function.update_self, Option.some.injEq] at hi
    rw [hrf, ← hi]
    -- the newest of the two places
    cases hr : s.returned rf with
    | none =>
      rw [Option.getD_none, Nat.max_zero]
      exact hpos
    | some j =>
      rw [Option.getD_some]
      rcases max_choice pos j with hmax | hmax
      · rw [hmax]
        exact hpos
      · rw [hmax]
        exact h.returned rf j hr
  · rw [Function.update_of_ne hrf] at hi
    exact h.returned rf' i hi

theorem Inv.resume (h : s.Inv) {k : After} (hk : k.Ok s.mem) : (s.resume t k).Inv := by
  cases k with
  | recordedChunk tag => exact h.returnChunk hk
  | recordedRelfork rf pos => exact h.returnRelfork hk
  | done | retryChunk | retryRelfork => exact h.goto trivial

theorem Inv.call (h : s.Inv) (c : Call) : (s.call t c).Inv := by
  cases c with
  | containsChunk tag =>
    exact h.goto fun hk => h.recorded tag (List.contains_iff_mem.mp hk)
  | getRelfork rf => exact h.goto fun i hi => h.returned rf i hi
  | recordChunk | recordRelfork | spillToFile | trySpillToFile => exact h.goto trivial

theorem Inv.lock (h : s.Inv) (hsp : s.mem.spill = none) {k : After} (hk : k.Ok s.mem) :
    (s.lock t k).Inv := by
  have hm := h.core.lock hsp
  exact (h.withMem hm).goto (hk.mono hm.2)

theorem Inv.spillStep (h : s.Inv) {sp : Spill} (hsp : s.mem.spill = some sp) {k : After}
    (hk : k.Ok s.mem) : (s.spillStep t k sp).Inv := by
  have hm := h.core.spillStep hsp
  rw [Sys.spillStep]
  split_ifs
  · exact (h.withMem hm).resume (hk.mono hm.2)
  · exact h.withMem hm

theorem Inv.insertChunk (h : s.Inv) (tag : ChunkTag) : (s.insertChunk t tag).Inv := by
  unfold Sys.insertChunk
  split
  · next chunks crossed hi =>
    have hs := h.withMem (h.core.insertChunk hi)
    dsimp only
    split_ifs
    · exact hs.goto List.mem_cons_self
    · exact hs.returnChunk List.mem_cons_self
  · exact h.goto trivial

theorem Inv.insertRelfork (h : s.Inv) (rf : RelFork) (md : RelForkMeta) :
    (s.insertRelfork t rf md).Inv := by
  unfold Sys.insertRelfork
  split
  · next relforks crossed hi =>
    have hs := h.withMem (h.core.insertRelfork hi)
    have hpos : (s.mem.log ++ [(rf, md)])[s.mem.log.length]? = some (rf, md) :=
      List.getElem?_concat_length
    dsimp only
    split_ifs
    · exact hs.goto ⟨md, hpos⟩
    · exact hs.returnRelfork ⟨md, hpos⟩
  · exact h.goto trivial

/-! ## The lookups -/

theorem Inv.probeChunk (h : s.Inv) {tag : ChunkTag} {known : Bool}
    (hpc : s.pcs t = .probeChunk tag known) (hc : ¬s.mem.chunks.contains tag = true) :
    (Pc.loadFlagChunk tag known).Ok s.mem := by
  intro hk
  have hok := h.pcs t
  rw [hpc] at hok
  exact (h.core.inserted tag (hok hk)).resolve_left hc

theorem Inv.loadFlagChunk (h : s.Inv) {tag : ChunkTag} {known : Bool}
    (hpc : s.pcs t = .loadFlagChunk tag known)
    (hq : known = true → s.mem.hasSpilled = false → s.mem.unflagged.containsChunk tag = false) :
    (Answer.chunk tag known s.mem.hasSpilled).Correct s.mem.log := by
  intro hk
  have hok := h.pcs t
  rw [hpc] at hok
  rcases hok hk with hsp | hsp
  · by_contra hns
    rw [hq hk (Bool.not_eq_true _ ▸ hns)] at hsp
    exact Bool.false_ne_true hsp
  · exact hsp

/-- A probe of the zone sees the last insertion or leaves it to the spill and the file. -/
theorem Inv.probeRelfork (h : s.Inv) {rf : RelFork} {floor : Option ℕ}
    (hpc : s.pcs t = .probeRelfork rf floor) {i : ℕ} (hi : floor = some i) :
    From s.mem.log rf i ((RelforkZone.get s.mem.relforks rf).or
      ((s.mem.unwritten.relforks.lookup rf).or (s.mem.file.relforks.lookup rf))) := by
  have hok := h.pcs t
  rw [hpc] at hok
  obtain ⟨md, hmd⟩ := hok i hi
  rw [← Option.or_assoc, h.core.newest]
  exact from_lastOf le_rfl hmd

theorem Inv.loadFlagRelfork (h : s.Inv) {rf : RelFork} {floor : Option ℕ}
    (hpc : s.pcs t = .loadFlagRelfork rf floor)
    (hq : floor ≠ none → if s.mem.hasSpilled then s.mem.unwritten.relforks.lookup rf = none
      else s.mem.unflagged.relforks.lookup rf = none) {i : ℕ} (hi : floor = some i) :
    s.mem.hasSpilled = true ∧ s.mem.Reading rf i := by
  have hok := h.pcs t
  rw [hpc] at hok
  have hfrom := hok i hi
  have hq := hq (by rw [hi]; exact nofun)
  cases hs : s.mem.hasSpilled with
  | true =>
    rw [if_pos hs] at hq
    rw [hq, Option.none_or] at hfrom
    exact ⟨rfl, hfrom, fun md hmd => absurd hmd (by rw [hq]; exact nofun)⟩
  | false =>
    -- neither the spill nor the file has the entry, which was inserted
    rw [if_neg (by rw [hs]; exact Bool.false_ne_true)] at hq
    rw [Mem.unwritten_eq_none hq, h.core.announced hs rf hq] at hfrom
    obtain ⟨_, _, _, _, hnone⟩ := hfrom
    exact absurd hnone nofun

theorem Inv.readLen (h : s.Inv) {rf : RelFork} {floor : Option ℕ} {pos : ℕ} {merged : DraftFrame}
    (hpc : s.pcs t = .readLen rf floor pos merged)
    (hend : ¬(pos < s.mem.frames.length ∨ s.mem.torn = true)) :
    (Answer.relfork rf floor (.ok (merged.relforks.lookup rf))).Correct s.mem.log := by
  intro i hi
  have hok := h.pcs t
  rw [hpc] at hok
  obtain ⟨hpos, rfl, hfrom, -⟩ := hok i hi
  obtain ⟨j, md, hij, hj, hmd⟩ := hfrom
  have hall : s.mem.frames.take pos = s.mem.frames :=
    List.take_of_length_le (Nat.le_of_not_lt fun hlt => hend (.inl hlt))
  refine ⟨j, md, hij, hj, ?_⟩
  rw [hall]
  exact congrArg Except.ok hmd

theorem Inv.readBody (h : s.Inv) {rf : RelFork} {floor : Option ℕ} {pos : ℕ} {merged f : DraftFrame}
    (hpc : s.pcs t = .readBody rf floor pos merged) (hf : s.mem.frames[pos]? = some f) :
    (Pc.readLen rf floor (pos + 1) (merged.mergeFrame f)).Ok s.mem := by
  intro i hi
  have hok := h.pcs t
  rw [hpc] at hok
  obtain ⟨hpos, rfl, hr⟩ := hok i hi
  refine ⟨hpos, ?_, hr⟩
  rw [List.take_add_one, hf, Option.toList_some, DraftFrame.mergeAll_append_singleton]

/-- A quiet step keeps the invariant. -/
theorem Inv.runThread (h : s.Inv) (hq : s.Quiet (.run t)) {s' : Sys}
    (hs : s.runThread t = some s') : s'.Inv := by
  have hok := h.pcs t
  unfold Sys.runThread at hs
  change (s.pcs t).Quiet s.mem at hq
  cases hpc : s.pcs t with
  | idle =>
    rw [hpc] at hs
    exact absurd hs nofun
  | insertChunk tag =>
    rw [hpc] at hs
    rw [← Option.some.inj hs]
    exact h.insertChunk tag
  | insertRelfork rf md =>
    rw [hpc] at hs
    rw [← Option.some.inj hs]
    exact h.insertRelfork rf md
  | lockSpill k =>
    rw [hpc] at hs hok
    dsimp only at hs
    split_ifs at hs with hsp
    rw [← Option.some.inj hs]
    exact h.lock (Option.not_isSome_iff_eq_none.mp hsp) hok
  | tryLockSpill k =>
    rw [hpc] at hs hok
    rw [← Option.some.inj hs]
    split_ifs with hsp
    · exact h.resume hok
    · exact h.lock (Option.not_isSome_iff_eq_none.mp hsp) hok
  | spilling k =>
    rw [hpc] at hs hok
    obtain ⟨sp, hsp, rfl⟩ := Option.map_eq_some_iff.mp hs
    exact h.spillStep hsp hok
  | probeChunk tag known =>
    rw [hpc] at hs
    rw [← Option.some.inj hs]
    split_ifs with hc
    · exact h.answer fun _ => rfl
    · exact h.goto (h.probeChunk hpc hc)
  | loadFlagChunk tag known =>
    rw [hpc] at hs hq
    rw [← Option.some.inj hs]
    exact h.answer (h.loadFlagChunk hpc hq)
  | probeRelfork rf floor =>
    rw [hpc] at hs
    rw [← Option.some.inj hs]
    cases hz : RelforkZone.get s.mem.relforks rf with
    | some md =>
      refine h.answer fun i hi => ?_
      obtain ⟨j, md', hij, hj, hmd⟩ := h.probeRelfork hpc hi
      rw [hz, Option.some_or] at hmd
      exact ⟨j, md', hij, hj, congrArg Except.ok hmd⟩
    | none =>
      refine h.goto fun i hi => ?_
      have hfrom := h.probeRelfork hpc hi
      rwa [hz, Option.none_or] at hfrom
  | loadFlagRelfork rf floor =>
    rw [hpc] at hs hq
    rw [← Option.some.inj hs]
    split_ifs with hsp
    · exact h.goto fun i hi =>
        ⟨Nat.zero_le _, rfl, (h.loadFlagRelfork hpc hq hi).2⟩
    · exact h.answer fun i hi => absurd (h.loadFlagRelfork hpc hq hi).1 hsp
  | readLen rf floor pos merged =>
    rw [hpc] at hs hq hok
    rw [← Option.some.inj hs]
    split_ifs with hmore
    · refine h.goto fun i hi => ?_
      obtain ⟨-, hm, hr⟩ := hok i hi
      have hne : floor ≠ none := by rw [hi]; exact nofun
      exact ⟨hmore.elim id (hq hne), hm, hr⟩
    · exact h.answer (h.readLen hpc hmore)
  | readBody rf floor pos merged =>
    rw [hpc] at hs hok
    rw [← Option.some.inj hs]
    cases hf : s.mem.frames[pos]? with
    | some f => exact h.goto (h.readBody hpc hf)
    | none =>
      refine h.answer fun i hi => ?_
      have hlt := (hok i hi).1
      exact absurd (List.getElem?_eq_none_iff.mp hf) (Nat.not_le.mpr hlt)

theorem Inv.step (h : s.Inv) {l : Label} (hq : s.Quiet l) {s' : Sys} (hs : s.step l = some s') :
    s'.Inv := by
  cases l with
  | call t c =>
    unfold Sys.step at hs
    dsimp only at hs
    split at hs
    · rw [← Option.some.inj hs]
      exact h.call c
    · exact absurd hs nofun
  | run t => exact h.runThread hq hs

end Sys

/-- **No false negatives**: in every run in which no lookup of a recorded entry falls into a window of
a spill, every lookup finds what was recorded before it was called. -/
theorem noFalseNegatives_of_quiet {s : Sys} (h : Reaches Sys.step Sys.Quiet Sys.init s) :
    s.NoFalseNegatives :=
  (h.invariant Sys.Inv.init fun _ _ _ hi hq hs => hi.step hq hs).answers

/-- A tag of the examples. -/
def exampleTag : ChunkTag := ⟨1663, 5, 16384, 0, 0⟩

/-- A lookup of a recorded chunk while a spill has drained another shard. -/
def otherShard : List Sys.Label :=
  [.call 0 (.recordChunk exampleTag), .run 0, .call 1 .spillToFile, .run 1, .run 1,
    .call 2 (.containsChunk exampleTag), .run 2]

theorem noFalseNegatives_otherShard : ∃ s, Reaches Sys.step Sys.Quiet Sys.init s ∧
    .chunk exampleTag true true ∈ s.answers ∧ s.NoFalseNegatives := by
  have hrun : ((run Sys.step Sys.init otherShard).map Sys.answers) =
      some [.chunk exampleTag true true] := by decide +kernel
  obtain ⟨s, hs, ha⟩ := Option.map_eq_some_iff.mp hrun
  have h : Reaches Sys.step Sys.Quiet Sys.init s := reaches_of_run hs (by decide +kernel)
  exact ⟨s, h, by rw [ha]; exact List.mem_singleton_self _, noFalseNegatives_of_quiet h⟩

/-- A lookup of a recorded chunk after a spill has drained all shards. -/
def hidden : List Sys.Label :=
  [.call 0 (.recordChunk exampleTag), .run 0, .call 1 .spillToFile] ++
    List.replicate 17 (.run 1) ++ [.call 2 (.containsChunk exampleTag), .run 2, .run 2]

/-- **A lookup misses a recorded chunk**: a spill has drained its shard and has not set the flag. -/
theorem spill_hides_recorded_chunk :
    ¬∀ s, Reaches Sys.step (fun _ _ => True) Sys.init s → s.NoFalseNegatives := by
  have hrun : ((run Sys.step Sys.init hidden).map Sys.answers) =
      some [.chunk exampleTag true false] := by decide +kernel
  obtain ⟨s, hs, ha⟩ := Option.map_eq_some_iff.mp hrun
  intro h
  have hcorrect := h s (reaches_of_run hs (throughout_true _ _)) (.chunk exampleTag true false)
    (by rw [ha]; exact List.mem_singleton_self _)
  exact Bool.false_ne_true (hcorrect rfl)

end DraftBuffer

end Tiko

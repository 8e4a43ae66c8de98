import Tiko.Draft.Codec
import Tiko.Store.Compact

/-!
# Runs of a database

Sequential runs from a fresh cluster, without failures of storage or files: writes, spills, commits,
compactions, restarts and reads in any order.

* `contents`, `lastMeta`: what the writes of a run say about a chunk and a relation fork;
* `Ledger`: the records that the commits of a run make;
* `Inv.step`, `Inv.step_ledger`, `Inv.run_ledger`: every step keeps the invariant;
* **`getChunk_run`**: a read of a chunk returns what the run wrote, when the LSNs of commits ascend;
* **`getMeta_run`**: a read of metadata returns the last write, when the commits ascend.
-/

namespace Tiko

open Lib

variable {β : Type} [Zero β]

/-! ## Steps -/

/-- A step of a run. `restart` tells whether the local manifest file is lost. -/
inductive Step (β : Type) where
  | patchChunk (tag : ChunkTag) (blockOffset : ℕ) (data : List β)
  | putMeta (rf : RelFork) (m : RelForkMeta)
  | spill
  | commit (a : Db.CommitArgs)
  | compact (now : ℤ)
  | compactThrough (target : Checkpoint) (now : ℤ)
  | restart (tikmLost : Bool)
  | getChunk (tag : ChunkTag)
  | getMeta (rf : RelFork)

/-- A step of a database. -/
def Db.step (cfg : StoreConfig) (s : Db β) : Step β → Db β
  | .patchChunk tag blockOffset data => (s.patchChunk cfg .ok tag blockOffset data).2
  | .putMeta rf m => (s.putMeta cfg .ok rf m).2
  | .spill => { s with draft := (s.draft.spillToFile cfg.codec .ok).2 }
  | .commit a => (s.runCommitProtocol cfg .ok a).2
  | .compact now => (s.runCompaction cfg now).2
  | .compactThrough target now => (s.runCompactionThrough cfg target now).2
  | .restart tikmLost => s.restart cfg tikmLost false
  | .getChunk tag => (s.getChunk cfg tag).2
  | .getMeta rf => (s.getMeta cfg rf).2

/-- A run of a database. -/
def Db.run (cfg : StoreConfig) (s : Db β) (steps : List (Step β)) : Db β :=
  steps.foldl (Db.step cfg) s

/-- A step of the flat store. -/
def Flat.step (g : Flat β) : Step β → Flat β
  | .patchChunk tag blockOffset data => g.patch tag blockOffset data
  | .putMeta rf m => g.putMeta rf m
  | .commit a => g.commit a.ckpt
  | _ => g

/-- The flat store of a fresh cluster. -/
def Flat.fresh : Flat β := ⟨fun _ => none, fun _ => none, default, false⟩

/-- The ledger of a run: the records of its commits, oldest first, what was written since the last of
them, and the checkpoint of the last. -/
structure Ledger where
  records : List SegmentCheckpoint
  frame : DraftFrame
  head : Checkpoint

/-- A step of the ledger. -/
def Ledger.step (l : Ledger) : Step β → Ledger
  | .patchChunk tag _ _ => { l with frame := DraftBuffer.addChunk l.frame tag }
  | .putMeta rf m => { l with frame := DraftBuffer.addRelfork l.frame rf m }
  | .commit a => ⟨l.records ++ [a.summary l.head l.frame], .empty, a.ckpt⟩
  | _ => l

/-- The ledger of a fresh cluster. -/
def Ledger.fresh : Ledger := ⟨[], .empty, default⟩

/-- What a step makes of the contents of a chunk: a patch is merged over what was there, which is
zero at first. -/
def patched (tag : ChunkTag) (c : Option (Chunk β)) : Step β → Option (Chunk β)
  | .patchChunk tag' blockOffset data =>
    if tag = tag' then some ((c.getD .zero).splice blockOffset data) else c
  | _ => c

/-- The contents of a chunk that the patches of a run build. -/
def contents (tag : ChunkTag) (steps : List (Step β)) : Option (Chunk β) :=
  steps.foldl (patched tag) none

/-- The metadata of the last write to a relation fork, newest step first. -/
def lastMeta (rf : RelFork) (steps : List (Step β)) : Option RelForkMeta :=
  newest (fun st => match st with
    | .putMeta rf' m => if rf = rf' then some m else none
    | _ => none) steps

theorem chunks_foldl_step (tag : ChunkTag) (steps : List (Step β)) :
    (steps.foldl Flat.step Flat.fresh).chunks tag = contents tag steps := by
  induction steps using List.reverseRecOn with
  | nil => rfl
  | append_singleton steps st ih =>
    rw [contents, List.foldl_append, List.foldl_append, List.foldl_cons, List.foldl_cons,
      List.foldl_nil, List.foldl_nil, ← contents, ← ih]
    cases st with
    | patchChunk tag' blockOffset data =>
      change Function.update _ _ _ _ = _
      rw [Function.update_apply, patched]
      split_ifs with h
      · rw [h]
      · rfl
    | _ => rfl

theorem metas_foldl_step (rf : RelFork) (steps : List (Step β)) :
    (steps.foldl Flat.step Flat.fresh).metas rf = lastMeta rf steps := by
  induction steps using List.reverseRecOn with
  | nil => rfl
  | append_singleton steps st ih =>
    rw [lastMeta, newest_append_singleton, ← lastMeta, ← ih, List.foldl_append, List.foldl_cons,
      List.foldl_nil]
    cases st with
    | putMeta rf' m =>
      change Function.update _ _ _ _ = _
      rw [Function.update_apply]
      by_cases h : rf = rf' <;> simp [h]
    | _ => rfl

/-! ## Runs -/

/-- A step that the flat store `g` allows: blocks lie within their chunk, commits ascend and restarts
come without writes since the last commit. -/
def Step.Ordered (g : Flat β) : Step β → Prop
  | .patchChunk _ blockOffset data => data ≠ [] ∧ blockOffset + data.length ≤ blocksPerChunk
  | .commit a => g.last < a.ckpt
  | .restart _ => g.dirty = false
  | _ => True

/-- A step that also keeps the LSNs of commits ascending and deletes no relation. -/
def Step.LsnOrdered (g : Flat β) : Step β → Prop
  | .patchChunk _ blockOffset data => data ≠ [] ∧ blockOffset + data.length ≤ blocksPerChunk
  | .putMeta _ m => m.deleted = false
  | .commit a => g.last.lsn < a.ckpt.lsn ∧ 1 ≤ a.ckpt.timelineId ∧
      g.last.timelineId ≤ a.ckpt.timelineId
  | .restart _ => g.dirty = false
  | _ => True

/-- All steps of a run are allowed. -/
def Along (ok : Flat β → Step β → Prop) : Flat β → List (Step β) → Prop
  | _, [] => True
  | g, st :: steps => ok g st ∧ Along ok (g.step st) steps

instance (g : Flat β) : DecidablePred (Step.Ordered g)
  | .patchChunk _ blockOffset data =>
    inferInstanceAs (Decidable (data ≠ [] ∧ blockOffset + data.length ≤ blocksPerChunk))
  | .commit a => inferInstanceAs (Decidable (g.last < a.ckpt))
  | .restart _ => inferInstanceAs (Decidable (g.dirty = false))
  | .putMeta .. | .spill | .compact _ | .compactThrough .. | .getChunk _ | .getMeta _ =>
    inferInstanceAs (Decidable True)

instance (g : Flat β) : DecidablePred (Step.LsnOrdered g)
  | .patchChunk _ blockOffset data =>
    inferInstanceAs (Decidable (data ≠ [] ∧ blockOffset + data.length ≤ blocksPerChunk))
  | .putMeta _ m => inferInstanceAs (Decidable (m.deleted = false))
  | .commit a => inferInstanceAs (Decidable (g.last.lsn < a.ckpt.lsn ∧ 1 ≤ a.ckpt.timelineId ∧
      g.last.timelineId ≤ a.ckpt.timelineId))
  | .restart _ => inferInstanceAs (Decidable (g.dirty = false))
  | .spill | .compact _ | .compactThrough .. | .getChunk _ | .getMeta _ =>
    inferInstanceAs (Decidable True)

instance decidableAlong (ok : Flat β → Step β → Prop) [∀ g, DecidablePred (ok g)] :
    ∀ g steps, Decidable (Along ok g steps)
  | _, [] => inferInstanceAs (Decidable True)
  | g, st :: steps =>
    have := decidableAlong ok (g.step st) steps
    inferInstanceAs (Decidable (ok g st ∧ Along ok (g.step st) steps))

/-- A fresh cluster: no segments, no base manifest, no chunk objects, and nothing in the draft. -/
structure IsFresh (cfg : StoreConfig) (s : Db β) : Prop where
  chunks : ∀ ckpt tag, s.storage.chunks cfg.dbId ckpt tag = none
  segments : s.storage.segments cfg.dbId = .empty
  bases : s.storage.bases cfg.dbId = .empty
  headCkpt : s.timeline.headCkpt = default
  baseCkpt : s.timeline.baseCkpt = default
  activeCount : s.timeline.activeCount = 0
  draft : s.draft.Clean
  manifest : s.manifest = .empty
  tikm : ∀ m, s.tikm = some m → m = .empty

omit [Zero β] in
theorem Step.LsnOrdered.ordered {g : Flat β} {st : Step β} (h : st.LsnOrdered g) :
    st.Ordered g := by
  cases st with
  | commit a =>
    obtain ⟨hlsn, -, htl⟩ := h
    rcases Nat.lt_or_eq_of_le (UInt32.le_iff_toNat_le.mp htl) with hlt | heq
    · exact Checkpoint.lt_iff.mpr (.inl hlt)
    · exact Checkpoint.lt_iff.mpr (.inr ⟨UInt32.toNat_inj.mp heq, UInt64.lt_iff_toNat_lt.mp hlsn⟩)
  | patchChunk tag blockOffset data => exact h
  | restart tikmLost => exact h
  | _ => trivial

/-! ## The invariant along runs -/

/-- The log is chained by LSN up to the last commit, and so is what the draft will append. -/
structure Chained (last : Checkpoint) (H : List SegmentCheckpoint) (F : DraftFrame) : Prop where
  log : LsnChained H
  below : ∀ e ∈ H, e.prevCkpt.lsn.toNat < last.lsn.toNat
  live : ∀ rf md, F.relforks.lookup rf = some md → md.deleted = false

omit [Zero β] in
theorem inv_of_isFresh {cfg : StoreConfig} {s : Db β} (h : IsFresh cfg s) :
    Inv cfg s Flat.fresh [] .empty where
  log := h.headCkpt ▸ .nil
  last := h.headCkpt.symm
  draft := h.draft.holds
  clean _ := h.draft
  window := ⟨0, fun _ => rfl, by
    rw [TimelineState.iterActive, h.activeCount]
    exact .nil⟩
  layers := ⟨[], [], by
    rw [Db.LayersOf, h.segments, h.bases, h.baseCkpt, h.headCkpt, h.manifest]
    exact {
      split := rfl
      wf := fun p hp => absurd hp List.not_mem_nil
      suffix := List.suffix_rfl
      stored_ne := fun hne => absurd rfl hne
      new_stored := fun e he => absurd he List.not_mem_nil
      ids_ge := fun p hp => absurd hp List.not_mem_nil
      base_ge := le_rfl
      base_le := le_rfl
      old_le := fun e he => absurd he List.not_mem_nil
      base_lt := fun e he => absurd he List.not_mem_nil
      manifest_rep := represents_empty cfg
      tikm_rep := fun m hm => h.tikm m hm ▸ represents_empty cfg
      newest_rep := represents_empty cfg
      base_ok := .inl rfl
      keys := fun k hk => absurd hk List.not_mem_nil }⟩
  objects := ⟨fun e he => absurd he List.not_mem_nil,
    fun tag => congrArg Option.isSome (h.chunks _ tag), fun c _ tag => h.chunks c tag⟩
  metas _ := rfl
  chunks _ tag := by
    rw [h.chunks]
    rfl

section Run

variable {cfg : StoreConfig} {s : Db β} {g : Flat β} {H : List SegmentCheckpoint}
  {F : DraftFrame}

omit [Zero β] in
/-- A commit keeps a chained log chained. -/
theorem Chained.commit {last : Checkpoint} (h : Chained last H F) {a : Db.CommitArgs}
    (hlsn : last.lsn < a.ckpt.lsn) :
    Chained a.ckpt (H ++ [a.summary last F]) .empty := by
  have hlt := UInt64.lt_iff_toNat_lt.mp hlsn
  refine ⟨⟨?_, fun e he rf md hmd => ?_⟩, fun e he => ?_, fun rf md hmd => ?_⟩
  · refine List.pairwise_append.mpr ⟨h.log.1, List.pairwise_singleton _ _, fun x hx y hy => ?_⟩
    rw [List.mem_singleton.mp hy]
    exact h.below x hx
  · rcases List.mem_append.mp he with he | he
    · exact h.log.2 e he rf md hmd
    · rw [List.mem_singleton.mp he] at hmd
      exact h.live rf md hmd
  · rcases List.mem_append.mp he with he | he
    · exact (h.below e he).trans hlt
    · rw [List.mem_singleton.mp he]
      exact hlt
  · exact absurd hmd (by simp)

omit [Zero β] in
theorem Chained.addRelfork {last : Checkpoint} (h : Chained last H F) {rf : RelFork}
    {m : RelForkMeta} (hm : m.deleted = false) :
    Chained last H (DraftBuffer.addRelfork F rf m) := by
  refine ⟨h.log, h.below, fun rf' md hmd => ?_⟩
  rw [DraftBuffer.addRelfork, SortedMap.lookup_insert] at hmd
  split_ifs at hmd
  · rw [← Option.some.inj hmd]
    exact hm
  · exact h.live rf' md hmd

/-- **Every step keeps the invariant**, with the log and the draft of the ledger. -/
theorem Inv.step_ledger {l : Ledger} (h : Inv cfg s g l.records l.frame) (hl : l.head = g.last)
    {st : Step β} (hok : st.Ordered g) :
    Inv cfg (s.step cfg st) (g.step st) (l.step st).records (l.step st).frame ∧
      (l.step st).head = (g.step st).last := by
  cases st with
  | patchChunk tag blockOffset data =>
    obtain ⟨s', hs, hinv⟩ := h.patchChunk tag blockOffset data
    rw [Db.step, hs]
    exact ⟨hinv, hl⟩
  | putMeta rf m =>
    obtain ⟨s', hs, hinv⟩ := h.putMeta rf m
    rw [Db.step, hs]
    exact ⟨hinv, hl⟩
  | spill =>
    obtain ⟨d, hd, hinv⟩ := h.spill
    rw [Db.step, hd]
    exact ⟨hinv, hl⟩
  | commit a =>
    have hlt : s.timeline.headCkpt < a.ckpt := h.last ▸ hok
    obtain ⟨s', hs, hinv⟩ := h.runCommitProtocol hlt
    rw [Db.step, hs, Ledger.step, hl, h.last]
    exact ⟨hinv, rfl⟩
  | compact now =>
    obtain ⟨r, s', hs, hinv, -⟩ := h.runCompaction now
    rw [Db.step, hs]
    exact ⟨hinv, hl⟩
  | compactThrough target now =>
    obtain ⟨r, s', hs, hinv, -⟩ := h.runCompactionThrough target now
    rw [Db.step, hs]
    exact ⟨hinv, hl⟩
  | restart tikmLost => exact ⟨h.restart hok tikmLost, hl⟩
  | getChunk tag =>
    obtain ⟨r, m, tikm, hs, hinv, -⟩ := h.getChunk_of_inv tag
    rw [Db.step, hs]
    exact ⟨hinv, hl⟩
  | getMeta rf =>
    obtain ⟨s', hs, hinv⟩ := h.getMeta_of_inv rf
    rw [Db.step, hs]
    exact ⟨hinv, hl⟩

omit [Zero β] in
/-- A step with ascending LSNs keeps a chained log chained. -/
theorem Chained.step {l : Ledger} (h : Chained l.head l.records l.frame) (hl : l.head = g.last)
    {st : Step β} (hok : st.LsnOrdered g) :
    Chained (l.step st).head (l.step st).records (l.step st).frame := by
  cases st with
  | patchChunk tag blockOffset data => exact ⟨h.log, h.below, h.live⟩
  | putMeta rf m => exact h.addRelfork hok
  | commit a => exact h.commit (hl ▸ hok.1)
  | _ => exact h

/-- **Every step keeps the invariant**, and a chained log when LSNs ascend. -/
theorem Inv.step (h : Inv cfg s g H F) {st : Step β} (hok : st.Ordered g) :
    ∃ H' F', Inv cfg (s.step cfg st) (g.step st) H' F' ∧
      (Chained g.last H F → st.LsnOrdered g → Chained (g.step st).last H' F') := by
  have hl : (⟨H, F, g.last⟩ : Ledger).head = g.last := rfl
  obtain ⟨hinv, hl'⟩ := h.step_ledger hl hok
  exact ⟨_, _, hinv, fun hc ho => hl' ▸ hc.step hl ho⟩

/-- **A run keeps the invariant**, with the log and the draft of the ledger. -/
theorem Inv.run_ledger {l : Ledger} (h : Inv cfg s g l.records l.frame) (hl : l.head = g.last)
    {steps : List (Step β)} (hok : Along Step.Ordered g steps) :
    Inv cfg (s.run cfg steps) (steps.foldl Flat.step g) (steps.foldl Ledger.step l).records
      (steps.foldl Ledger.step l).frame := by
  induction steps generalizing s g l with
  | nil => exact h
  | cons st steps ih =>
    obtain ⟨h', hl'⟩ := h.step_ledger hl hok.1
    exact ih h' hl' hok.2

/-- **A run keeps the invariant.** -/
theorem Inv.run (h : Inv cfg s g H F) {steps : List (Step β)} (hok : Along Step.Ordered g steps) :
    ∃ H' F', Inv cfg (s.run cfg steps) (steps.foldl Flat.step g) H' F' :=
  ⟨_, _, Inv.run_ledger (l := ⟨H, F, g.last⟩) h rfl hok⟩

/-- **A run with ascending LSNs keeps the invariant with a chained log.** -/
theorem Inv.run_lsnOrdered (h : Inv cfg s g H F) (hc : Chained g.last H F)
    {steps : List (Step β)} (hok : Along Step.LsnOrdered g steps) :
    ∃ H' F', Inv cfg (s.run cfg steps) (steps.foldl Flat.step g) H' F' ∧ LsnChained H' := by
  have hrun : ∀ l : Ledger, Inv cfg s g l.records l.frame → l.head = g.last →
      Chained l.head l.records l.frame → ∃ H' F',
        Inv cfg (s.run cfg steps) (steps.foldl Flat.step g) H' F' ∧ LsnChained H' := by
    clear h hc
    induction steps generalizing s g with
    | nil => exact fun l h _ hc => ⟨l.records, l.frame, h, hc.log⟩
    | cons st steps ih =>
      intro l h hl hc
      obtain ⟨h', hl'⟩ := h.step_ledger hl hok.1.ordered
      exact ih hok.2 (l.step st) h' hl' (hc.step hl hok.1)
  exact hrun ⟨H, F, g.last⟩ h rfl hc

end Run

/-! ## Reads of runs -/

theorem contents_eq_none_iff {tag : ChunkTag} {steps : List (Step β)} :
    contents tag steps = none ↔ ∀ blockOffset data, .patchChunk tag blockOffset data ∉ steps := by
  induction steps using List.reverseRecOn with
  | nil => simp [contents]
  | append_singleton steps st ih =>
    have hstep : contents tag (steps ++ [st]) = patched tag (contents tag steps) st := by
      rw [contents, List.foldl_append, ← contents]
      rfl
    rw [hstep]
    cases st with
    | patchChunk tag' blockOffset data =>
      rw [patched]
      split_ifs with h
      · subst h
        refine iff_of_false (by simp) ?_
        exact fun hall => hall blockOffset data (by simp)
      · rw [ih]
        refine forall₂_congr fun off d => ?_
        simp [h]
    | _ => simp [patched, ih]

omit [Zero β] in
theorem lastMeta_eq_none_iff {rf : RelFork} {steps : List (Step β)} :
    lastMeta rf steps = none ↔ ∀ m, .putMeta rf m ∉ steps := by
  rw [lastMeta, newest_eq_none_iff]
  constructor
  · intro h m hm
    have := h _ hm
    simp at this
  · intro h st hst
    cases st with
    | putMeta rf' m =>
      refine if_neg ?_
      rintro rfl
      exact h m hst
    | _ => rfl

omit [Zero β] in
theorem found_eq_notFound_iff {α : Type} {o : Option α} : found o = .error .notFound ↔ o = none := by
  cases o <;> simp [found]

/-- **Chunk reads see the newest write.** After every run from a fresh cluster in which the LSNs of
commits ascend, a read returns the contents that the patches of the run build, and not found exactly
when there was none. -/
theorem getChunk_run {cfg : StoreConfig} {s : Db β} (hs : IsFresh cfg s) {steps : List (Step β)}
    (hok : Along Step.LsnOrdered Flat.fresh steps) (tag : ChunkTag) :
    ((s.run cfg steps).getChunk cfg tag).1 = found (contents tag steps) ∧
    (((s.run cfg steps).getChunk cfg tag).1 = .error .notFound ↔
      ∀ blockOffset data, .patchChunk tag blockOffset data ∉ steps) := by
  obtain ⟨H, F, hinv, hl⟩ := (inv_of_isFresh hs).run_lsnOrdered
    ⟨⟨.nil, fun e he => absurd he List.not_mem_nil⟩, fun e he => absurd he List.not_mem_nil,
      fun rf md hmd => absurd hmd (by simp)⟩ hok
  obtain ⟨r, m, tikm, hr, -, -, hval⟩ := hinv.getChunk_of_inv tag
  have hread : ((s.run cfg steps).getChunk cfg tag).1 = found (contents tag steps) := by
    rw [hr, hval hl, chunks_foldl_step]
  refine ⟨hread, ?_⟩
  rw [hread, found_eq_notFound_iff, contents_eq_none_iff]

/-- A database on zeroed shared memory and empty storage. -/
def freshDb : Db ℕ where
  storage := ⟨fun _ _ _ => none, fun _ => .empty, fun _ => .empty, fun _ => none⟩
  timeline := .zeroed
  draft := ⟨.init, .empty, false, 0, none⟩
  manifest := .empty
  tikm := none

/-- The configuration of the examples. -/
def exampleConfig : StoreConfig := ⟨7, msgpack, Manifest.preferSort 0⟩

theorem isFresh_freshDb : IsFresh exampleConfig freshDb :=
  ⟨fun _ _ => rfl, rfl, rfl, rfl, rfl, rfl, ⟨rfl, rfl, rfl, rfl⟩, rfl,
    fun m hm => absurd hm (by simp [freshDb])⟩

/-- Two intervals that patch the same chunk, the first of them folded into a base manifest, and a
restart without the local manifest file. -/
def exampleSteps : List (Step ℕ) :=
  [.patchChunk Manifest.exampleTag 0 [7], .putMeta Manifest.exampleTag.relFork ⟨1, false⟩,
    .commit ⟨⟨1, 100⟩, ⟨1, 90⟩, [], 0⟩, .patchChunk Manifest.exampleTag 1 [8], .spill,
    .commit ⟨⟨1, 200⟩, ⟨1, 190⟩, [], 0⟩, .compactThrough ⟨1, 100⟩ 0, .restart true]

theorem allowed_exampleSteps : Along Step.LsnOrdered Flat.fresh exampleSteps := by decide

theorem ordered_exampleSteps : Along Step.Ordered Flat.fresh exampleSteps := by decide

theorem contents_exampleSteps :
    contents Manifest.exampleTag exampleSteps = some (.ofBlocks [7, 8]) := by
  have h : ∀ i : Fin blocksPerChunk, ((Chunk.zero : Chunk ℕ).splice 0 [7]).splice 1 [8] i =
      Chunk.ofBlocks [7, 8] i := by decide
  exact congrArg some (funext h)

theorem getChunk_exampleSteps :
    ((freshDb.run exampleConfig exampleSteps).getChunk exampleConfig Manifest.exampleTag).1 =
      .ok (.ofBlocks [7, 8]) := by
  rw [(getChunk_run isFresh_freshDb allowed_exampleSteps Manifest.exampleTag).1,
    contents_exampleSteps]
  rfl

/-- **Metadata reads see the newest write.** -/
theorem getMeta_run {cfg : StoreConfig} {s : Db β} (hs : IsFresh cfg s) {steps : List (Step β)}
    (hok : Along Step.Ordered Flat.fresh steps) (rf : RelFork) :
    ((s.run cfg steps).getMeta cfg rf).1 = found (lastMeta rf steps) ∧
    (((s.run cfg steps).getMeta cfg rf).1 = .error .notFound ↔ ∀ m, .putMeta rf m ∉ steps) := by
  obtain ⟨H, F, hinv⟩ := (inv_of_isFresh hs).run hok
  obtain ⟨s', hr, -⟩ := hinv.getMeta_of_inv rf
  have hread : ((s.run cfg steps).getMeta cfg rf).1 = found (lastMeta rf steps) := by
    rw [hr, metas_foldl_step]
  refine ⟨hread, ?_⟩
  rw [hread, found_eq_notFound_iff, lastMeta_eq_none_iff]

theorem getMeta_exampleSteps :
    ((freshDb.run exampleConfig exampleSteps).getMeta exampleConfig
      Manifest.exampleTag.relFork).1 = .ok ⟨1, false⟩ :=
  (getMeta_run isFresh_freshDb ordered_exampleSteps
    Manifest.exampleTag.relFork).1

end Tiko

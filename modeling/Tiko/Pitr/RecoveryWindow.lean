import Tiko.Pitr.Anchor

/-!
# The recovery window

`tiko_pitr recover` accepts a target if it lies in the window that `recoveryWindow` computes from the
timeline segments, the archived WAL and the backups, and then picks a backup with selectors that do
not know the archived WAL.

* `listCheckpoints`, `recoveryWindow`: the window, on the timeline of the newest checkpoint;
* `loadBackupBeforeTime`, `resolveTarget`: the check of a target and the choice of a backup;
* `Ordered`: on a timeline, redo LSNs and creation times follow the checkpoints;
* `UsableAnchor`: the backup lies on the window's timeline, and its WAL in the archived run.

**`anchor_usable_iff`**: an accepted LSN always gets a usable anchor; an accepted time gets one exactly
if no backup of the timeline was created until then with a checkpoint above the archived WAL.
`anchor_beyond_archive` is a window in which one was created in the same second as the newest archived
checkpoint.
-/

namespace Tiko.Pitr

open Lib Wal

/-! ## Checkpoints -/

/-- `CheckpointRow`. -/
structure CheckpointRow where
  ckpt : Checkpoint
  redoCkpt : Checkpoint
  createdAt : ℤ
  nChunks : ℕ

/-- `Locator::timeline_segments_dir`. -/
def timelineSegmentsDir (ns : DbNamespace) : Str :=
  ns.fmt ++ ['/', 't', 'i', 'm', 'e', 'l', 'i', 'n', 'e', '/']

/-- `.segment`. -/
def segmentSuffix : Str := ['.', 's', 'e', 'g', 'm', 'e', 'n', 't']

/-- `Locator::timeline_segment`. -/
def timelineSegment (ns : DbNamespace) (id : SegmentId) : Str :=
  timelineSegmentsDir ns ++ (id.timelineId.toHex ++ ['/'] ++
    (Hex.fmt 16 id.index.toNat ++ segmentSuffix))

/-- `SegmentId::from_path_string`: the last two components of the path. -/
def segmentIdFromPathString (path : Str) : Option SegmentId := do
  let stem ← stripSuffix path segmentSuffix
  match (stem.splitOn '/').reverse with
  | p0 :: p1 :: _ =>
    let index ← Hex.fromStr (2 ^ 64) p0
    let timelineId ← TimelineId.fromHex p1
    some ⟨timelineId, UInt64.ofNat index⟩
  | _ => none

/-- `Store::list_all_segments`. -/
def listAllSegments (ns : DbNamespace) (store : ObjectStorage) : Except Error (List SegmentId) :=
  match store.listPrefix (timelineSegmentsDir ns) with
  | .error e => if e.isNotFound then .ok [] else .error e
  | .ok keys => .ok ((keys.filterMap segmentIdFromPathString).insertionSort (· ≤ ·))

/-- The row of a checkpoint. -/
def checkpointRow (sc : SegmentCheckpoint) : CheckpointRow :=
  ⟨sc.ckpt, sc.redoCkpt, sc.createdAt, sc.chunks.keys.length⟩

/-- The loop of `Store::list_checkpoints`. `fromBytes` stands for `TimelineSegment::from_bytes`. -/
def loadSegmentRows (fromBytes : Bytes → Except Error TimelineSegment) (ns : DbNamespace)
    (store : ObjectStorage) : List SegmentId → Except Error (List CheckpointRow)
  | [] => .ok []
  | id :: ids => do
    let bytes ← store.get (timelineSegment ns id)
    let seg ← fromBytes bytes
    let rows ← loadSegmentRows fromBytes ns store ids
    return seg.checkpoints.map checkpointRow ++ rows

/-- The key by time: the creation time, then the checkpoint. -/
def timeKey (createdAt : ℤ) (ckpt : Checkpoint) : ℤ ×ₗ Checkpoint := toLex (createdAt, ckpt)

/-- `Store::list_checkpoints`. -/
def listCheckpoints (fromBytes : Bytes → Except Error TimelineSegment) (ns : DbNamespace)
    (store : ObjectStorage) : Except Error (List CheckpointRow) := do
  let ids ← listAllSegments ns store
  let rows ← loadSegmentRows fromBytes ns store ids
  return rows.insertionSort fun a b => timeKey a.createdAt a.ckpt ≤ timeKey b.createdAt b.ckpt

/-! ## The window -/

/-- `RecoveryWindow`. -/
structure RecoveryWindow where
  earliestTs : ℤ
  earliestCkpt : Checkpoint
  latestTs : ℤ
  latestLsn : ℕ
  timeline : TimelineId
  deriving DecidableEq

/-- `is_base_usable`. -/
def isBaseUsable (ckptLsn redoLsn wLo wHi : ℕ) : Bool := decide (wLo ≤ redoLsn ∧ ckptLsn ≤ wHi)

/-- A backup, with the archived run. -/
def BackupRow.isUsable (b : BackupRow) (run : ℕ × ℕ) : Bool :=
  isBaseUsable b.ckpt.lsn.toNat b.redoCkpt.lsn.toNat run.1 run.2

/-- `Store::recovery_window`. -/
def recoveryWindow (fromBytes : Bytes → Except Error TimelineSegment)
    (parse : Bytes → Option BackupRow) (ns : DbNamespace) (sim : S3Sim) :
    Except Error RecoveryWindow := do
  let rows ← listCheckpoints fromBytes ns sim.objects
  let newest ← okOr rows.getLast?
  let timeline := newest.ckpt.timelineId
  let run ← archivedWalRun ns timeline sim
  let all ← listBackups parse ns sim.objects
  let backups := (all.filter fun b => b.ckpt.timelineId = timeline).insertionSort fun a b =>
    a.ckpt ≤ b.ckpt
  let chosen ← okOr (backups.find? fun b => b.isUsable run)
  -- the checkpoints of every timeline count here
  let times := (rows.filter fun r => r.ckpt.lsn.toNat ≤ run.2).map CheckpointRow.createdAt
  return ⟨chosen.createdAt, chosen.ckpt, times.max?.getD chosen.createdAt, run.2, timeline⟩

/-! ## The choice of a backup -/

/-- `Store::load_backup_before_time`. -/
def loadBackupBeforeTime (parse : Bytes → Option BackupRow) (ns : DbNamespace)
    (store : ObjectStorage) (targetTs : ℤ) (timeline : TimelineId) :
    Except Error (Checkpoint × Bytes) := do
  let rows ← listBackups parse ns store
  let row ← okOr (maxByKey (fun r => timeKey r.createdAt r.ckpt)
    (rows.filter fun r => r.ckpt.timelineId = timeline ∧ r.createdAt ≤ targetTs))
  let bytes ← store.get (backupObject ns row.ckpt)
  return (row.ckpt, bytes)

/-- `RecoveryTarget`. -/
inductive RecoveryTarget where
  | lsn (l : Lsn)
  | time (ts : ℤ)

/-- Whether `run_recover` takes a target for one within the window. -/
def RecoveryWindow.accepts (w : RecoveryWindow) : RecoveryTarget → Bool
  | .lsn l => decide (w.earliestCkpt.lsn ≤ l ∧ l.toNat ≤ w.latestLsn)
  | .time ts => decide (w.earliestTs ≤ ts ∧ ts ≤ w.latestTs)

/-- The first two steps of `run_recover`, which end with the backup to restore; `timeline` is the
option of that name. -/
def resolveTarget (fromBytes : Bytes → Except Error TimelineSegment)
    (parse : Bytes → Option BackupRow) (ns : DbNamespace) (sim : S3Sim)
    (timeline : Option TimelineId) (target : RecoveryTarget) : Except Error (Checkpoint × Bytes) := do
  let window ← recoveryWindow fromBytes parse ns sim
  let timeline := timeline.getD window.timeline
  if window.accepts target then
    match target with
    | .lsn l => loadBackupAtOrBefore parse ns sim.objects ⟨timeline, l⟩
    | .time ts => loadBackupBeforeTime parse ns sim.objects ts timeline
  else .error .io

/-! ## What is asked -/

/-- On each timeline, redo LSNs and creation times follow the checkpoints. -/
structure Ordered (backups : List BackupRow) : Prop where
  redo_le : ∀ a ∈ backups, ∀ b ∈ backups, a.ckpt.timelineId = b.ckpt.timelineId →
    a.ckpt.lsn ≤ b.ckpt.lsn → a.redoCkpt.lsn ≤ b.redoCkpt.lsn
  createdAt_le : ∀ a ∈ backups, ∀ b ∈ backups, a.ckpt.timelineId = b.ckpt.timelineId →
    a.ckpt.lsn ≤ b.ckpt.lsn → a.createdAt ≤ b.createdAt

/-- **A usable anchor**: a backup of the timeline whose WAL lies in the archived run. -/
structure UsableAnchor (backups : List BackupRow) (timeline : TimelineId) (run : ℕ × ℕ)
    (ckpt : Checkpoint) : Prop where
  timeline_eq : ckpt.timelineId = timeline
  usable : ∃ b ∈ backups, b.ckpt = ckpt ∧ b.isUsable run = true

variable {fromBytes : Bytes → Except Error TimelineSegment} {parse : Bytes → Option BackupRow}
  {ns : DbNamespace} {sim : S3Sim} {w : RecoveryWindow} {backups : List BackupRow} {run : ℕ × ℕ}

/-- The window starts with a usable backup of its timeline and ends with the archived run. -/
theorem recoveryWindow_spec (hw : recoveryWindow fromBytes parse ns sim = .ok w)
    (hbackups : listBackups parse ns sim.objects = .ok backups)
    (hrun : archivedWalRun ns w.timeline sim = .ok run) :
    w.latestLsn = run.2 ∧ ∃ b ∈ backups, b.ckpt = w.earliestCkpt ∧ b.createdAt = w.earliestTs ∧
      b.ckpt.timelineId = w.timeline ∧ b.isUsable run = true := by
  unfold recoveryWindow at hw
  obtain ⟨rows, -, h1⟩ := bind_eq_ok hw
  obtain ⟨newest, -, h2⟩ := bind_eq_ok h1
  obtain ⟨run', hrun', h3⟩ := bind_eq_ok h2
  obtain ⟨all, hall, h4⟩ := bind_eq_ok h3
  obtain ⟨chosen, hchosen, h5⟩ := bind_eq_ok h4
  obtain rfl := Except.ok.inj h5
  obtain rfl : run' = run := Except.ok.inj (hrun'.symm.trans hrun)
  obtain rfl : all = backups := Except.ok.inj (hall.symm.trans hbackups)
  have hfind := eq_some_of_okOr hchosen
  have hmem := List.mem_filter.mp ((List.mem_insertionSort _).mp (List.mem_of_find?_eq_some hfind))
  have husable := List.find?_some (p := fun b : BackupRow => b.isUsable run') hfind
  exact ⟨rfl, chosen, hmem.1, rfl, rfl, of_decide_eq_true hmem.2, husable⟩

theorem isUsable_iff {b : BackupRow} :
    b.isUsable run = true ↔ run.1 ≤ b.redoCkpt.lsn.toNat ∧ b.ckpt.lsn.toNat ≤ run.2 := by
  unfold BackupRow.isUsable isBaseUsable
  rw [decide_eq_true_eq]

/-- A later backup of the timeline starts its replay in the archived run, too. -/
theorem Ordered.isUsable_iff (hord : Ordered backups) {a b : BackupRow} (ha : a ∈ backups)
    (hb : b ∈ backups) (htl : a.ckpt.timelineId = b.ckpt.timelineId) (hle : a.ckpt.lsn ≤ b.ckpt.lsn)
    (husable : a.isUsable run = true) : b.isUsable run = true ↔ b.ckpt.lsn.toNat ≤ run.2 := by
  have hredo := lsn_le_iff.mp (hord.redo_le a ha b hb htl hle)
  rw [Pitr.isUsable_iff] at husable ⊢
  omega

/-- On a timeline, the order by time is that of the checkpoints. -/
theorem Ordered.lsn_le_of_timeKey_le (hord : Ordered backups) {a b : BackupRow} (ha : a ∈ backups)
    (hb : b ∈ backups) (htl : a.ckpt.timelineId = b.ckpt.timelineId)
    (hle : timeKey a.createdAt a.ckpt ≤ timeKey b.createdAt b.ckpt) : a.ckpt.lsn ≤ b.ckpt.lsn := by
  by_contra hlt
  have hba : b.ckpt.lsn ≤ a.ckpt.lsn := UInt64.le_of_lt (UInt64.not_le.mp hlt)
  have htime := hord.createdAt_le b hb a ha htl.symm hba
  rcases Prod.Lex.toLex_le_toLex.mp hle with hcreated | ⟨-, hckpt⟩
  · exact absurd htime (not_le.mpr hcreated)
  · rcases Checkpoint.le_iff.mp hckpt with hlt' | ⟨-, hlsn⟩
    · rw [htl] at hlt'
      exact absurd hlt' (lt_irrefl _)
    · exact hlt (lsn_le_iff.mpr hlsn)

/-! ## LSN targets -/

/-- The backup that is picked for an accepted LSN. -/
theorem pick_of_accepts (hord : Ordered backups) {a : BackupRow} (ha : a ∈ backups)
    (husable : a.isUsable run = true) {l : Lsn} (hlo : a.ckpt.lsn ≤ l) (hhi : l.toNat ≤ run.2) :
    ∃ c, pick (backups.map BackupRow.ckpt) ⟨a.ckpt.timelineId, l⟩ = some c ∧
      UsableAnchor backups a.ckpt.timelineId run c ∧ c.lsn ≤ l := by
  have hle : a.ckpt ≤ ⟨a.ckpt.timelineId, l⟩ := Checkpoint.le_iff.mpr (.inr ⟨rfl, lsn_le_iff.mp hlo⟩)
  have hlisted : a.ckpt ∈ (backups.map BackupRow.ckpt).filter
      fun c => c ≤ ⟨a.ckpt.timelineId, l⟩ :=
    List.mem_filter.mpr ⟨List.mem_map_of_mem ha, decide_eq_true hle⟩
  obtain ⟨c, hc⟩ := exists_maxByKey (f := id) hlisted
  obtain ⟨hmem, hct, hmax⟩ := pick_eq_some_iff.mp hc
  obtain ⟨b, hb, rfl⟩ := List.mem_map.mp hmem
  have hac := Checkpoint.le_iff.mp (hmax a.ckpt (List.mem_map_of_mem ha) hle)
  -- between the window's first backup and the target there is only their timeline
  have hcl : b.ckpt.timelineId = a.ckpt.timelineId ∧ b.ckpt.lsn.toNat ≤ l.toNat := by
    rcases Checkpoint.le_iff.mp hct with hlt | heq
    · rcases hac with hlt' | ⟨heq', -⟩
      · exact absurd hlt (not_lt.mpr hlt'.le)
      · rw [heq'] at hlt
        exact absurd hlt (lt_irrefl _)
    · exact heq
  have hlsn : a.ckpt.lsn ≤ b.ckpt.lsn := by
    rcases hac with hlt | ⟨-, hle'⟩
    · rw [hcl.1] at hlt
      exact absurd hlt (lt_irrefl _)
    · exact lsn_le_iff.mpr hle'
  refine ⟨b.ckpt, hc, ⟨hcl.1, b, hb, rfl, ?_⟩, lsn_le_iff.mpr hcl.2⟩
  exact (hord.isUsable_iff ha hb hcl.1.symm hlsn husable).mpr (le_trans hcl.2 hhi)

/-! ## Times -/

/-- The backup that is picked for an accepted time. -/
theorem maxByKey_of_accepts (hord : Ordered backups) {a : BackupRow} (ha : a ∈ backups)
    (husable : a.isUsable run = true) {ts : ℤ} (hlo : a.createdAt ≤ ts) :
    ∃ b, maxByKey (fun r : BackupRow => timeKey r.createdAt r.ckpt) (backups.filter fun r =>
        r.ckpt.timelineId = a.ckpt.timelineId ∧ r.createdAt ≤ ts) = some b ∧
      (UsableAnchor backups a.ckpt.timelineId run b.ckpt ↔ ∀ r ∈ backups,
        r.ckpt.timelineId = a.ckpt.timelineId → r.createdAt ≤ ts → r.ckpt.lsn.toNat ≤ run.2) := by
  have hfilter : ∀ r, r ∈ (backups.filter fun r =>
      r.ckpt.timelineId = a.ckpt.timelineId ∧ r.createdAt ≤ ts) ↔
      r ∈ backups ∧ r.ckpt.timelineId = a.ckpt.timelineId ∧ r.createdAt ≤ ts := by
    intro r
    rw [List.mem_filter, decide_eq_true_eq]
  obtain ⟨b, hb⟩ := exists_maxByKey (f := fun r : BackupRow => timeKey r.createdAt r.ckpt)
    ((hfilter a).mpr ⟨ha, rfl, hlo⟩)
  obtain ⟨hmem, htl, hts⟩ := (hfilter b).mp (mem_of_maxByKey hb)
  -- the pick has the last checkpoint of all the candidates
  have hmax : ∀ r ∈ backups, r.ckpt.timelineId = a.ckpt.timelineId → r.createdAt ≤ ts →
      r.ckpt.lsn ≤ b.ckpt.lsn := by
    intro r hr htl' hts'
    exact hord.lsn_le_of_timeKey_le hr hmem (htl'.trans htl.symm)
      (le_of_maxByKey hb ((hfilter r).mpr ⟨hr, htl', hts'⟩))
  refine ⟨b, hb, ?_⟩
  constructor
  · rintro ⟨-, c, hc, hckpt, hcu⟩ r hr htl' hts'
    have hle := lsn_le_iff.mp (hmax r hr htl' hts')
    have hcle := (Pitr.isUsable_iff.mp hcu).2
    rw [hckpt] at hcle
    omega
  · intro hall
    refine ⟨htl, b, hmem, rfl, ?_⟩
    exact (hord.isUsable_iff ha hmem htl.symm (hmax a ha rfl hlo) husable).mpr
      (hall b hmem htl hts)

/-! ## The anchor of an accepted target -/

theorem loadBackupAtOrBefore_of_pick {store : ObjectStorage} {target c : Checkpoint}
    (hbackups : listBackups parse ns store = .ok backups)
    (hc : pick (backups.map BackupRow.ckpt) target = some c) :
    loadBackupAtOrBefore parse ns store target =
      (store.get (backupObject ns c)).map fun bytes => (c, bytes) := by
  unfold loadBackupAtOrBefore
  rw [hbackups]
  change (okOr (pick (backups.map BackupRow.ckpt) target)).bind _ = _
  rw [hc]
  rfl

theorem loadBackupBeforeTime_of_maxByKey {store : ObjectStorage} {ts : ℤ} {tl : TimelineId}
    {b : BackupRow} (hbackups : listBackups parse ns store = .ok backups)
    (hb : maxByKey (fun r : BackupRow => timeKey r.createdAt r.ckpt)
      (backups.filter fun r => r.ckpt.timelineId = tl ∧ r.createdAt ≤ ts) = some b) :
    loadBackupBeforeTime parse ns store ts tl =
      (store.get (backupObject ns b.ckpt)).map fun bytes => (b.ckpt, bytes) := by
  unfold loadBackupBeforeTime
  rw [hbackups]
  change (okOr (maxByKey _ (backups.filter _))).bind _ = _
  rw [hb]
  rfl

/-- **The anchor of an accepted target.** For an LSN it is usable and not beyond the target. For a time
it is usable exactly if every backup of the timeline that was created until then has its checkpoint in
the archived WAL. -/
theorem anchor_usable_iff (hord : Ordered backups)
    (hw : recoveryWindow fromBytes parse ns sim = .ok w)
    (hbackups : listBackups parse ns sim.objects = .ok backups)
    (hrun : archivedWalRun ns w.timeline sim = .ok run) :
    (∀ l, w.accepts (.lsn l) = true → ∃ c,
      resolveTarget fromBytes parse ns sim none (.lsn l) =
        (sim.get (backupObject ns c)).map (fun bytes => (c, bytes)) ∧
      UsableAnchor backups w.timeline run c ∧ c.lsn ≤ l) ∧
    ∀ ts, w.accepts (.time ts) = true → ∃ c,
      resolveTarget fromBytes parse ns sim none (.time ts) =
        (sim.get (backupObject ns c)).map (fun bytes => (c, bytes)) ∧
      (UsableAnchor backups w.timeline run c ↔ ∀ b ∈ backups, b.ckpt.timelineId = w.timeline →
        b.createdAt ≤ ts → b.ckpt.lsn.toNat ≤ run.2) := by
  obtain ⟨hlatest, a, ha, hckpt, hcreated, htl, husable⟩ := recoveryWindow_spec hw hbackups hrun
  constructor
  · intro l hacc
    obtain ⟨hlo, hhi⟩ := of_decide_eq_true hacc
    rw [← hckpt] at hlo
    rw [hlatest] at hhi
    obtain ⟨c, hc, hanchor, hle⟩ := pick_of_accepts hord ha husable hlo hhi
    rw [htl] at hc hanchor
    refine ⟨c, ?_, hanchor, hle⟩
    unfold resolveTarget
    rw [hw]
    change (if w.accepts (.lsn l) = true then _ else _) = _
    rw [if_pos hacc]
    exact loadBackupAtOrBefore_of_pick hbackups hc
  · intro ts hacc
    obtain ⟨hlo, -⟩ := of_decide_eq_true hacc
    rw [← hcreated] at hlo
    obtain ⟨b, hb, hiff⟩ := maxByKey_of_accepts hord ha husable hlo
    rw [htl] at hb hiff
    refine ⟨b.ckpt, ?_, hiff⟩
    unfold resolveTarget
    rw [hw]
    change (if w.accepts (.time ts) = true then _ else _) = _
    rw [if_pos hacc]
    exact loadBackupBeforeTime_of_maxByKey hbackups hb

/-! ## Two checkpoints in one second -/

/-- The bytes of the only segment: checkpoints at LSNs `4`, `10` and `20`, created at `10`, `20` and
`20`. -/
def oneSegmentBytes : Bytes :=
  [0x94, 0x94, 0x54, 0x4c, 0x53, 0x47, 0x01, 0x92, 0x01, 0x00, 0x93] ++
    [(0, 4, 10), (4, 10, 20), (10, 20, 20)].flatMap fun p : UInt8 × UInt8 × UInt8 =>
      [0x97, 0x92, 0x01, p.2.1, 0x92, 0x01, p.1, 0x92, 0x01, p.2.1, 0x90, 0x80, 0x90, p.2.2]

/-- `TimelineSegment::from_bytes` on them. -/
def oneSegment (bytes : Bytes) : Except Error TimelineSegment :=
  if bytes = oneSegmentBytes then
    .ok ⟨⟨1, 0⟩, [⟨⟨1, 4⟩, ⟨1, 0⟩, ⟨1, 4⟩, .empty, .empty, [], 10⟩,
      ⟨⟨1, 10⟩, ⟨1, 4⟩, ⟨1, 10⟩, .empty, .empty, [], 20⟩,
      ⟨⟨1, 20⟩, ⟨1, 10⟩, ⟨1, 20⟩, .empty, .empty, [], 20⟩]⟩
  else .error .invalidData

/-- The backups at the first and the last checkpoint. -/
def firstAndLast : List BackupRow := [⟨⟨1, 4⟩, ⟨1, 4⟩, 10⟩, ⟨⟨1, 20⟩, ⟨1, 20⟩, 20⟩]

/-- `serde_json::from_slice` on their metadata. -/
def parseFirstAndLast (bytes : Bytes) : Option BackupRow :=
  firstAndLast.find? fun row => backupJson row == bytes

/-- The storage, with the WAL up to LSN `16`. -/
def archiveTo16 : S3Sim :=
  let sim : S3Sim := ⟨.empty⟩
  let sim := sim.put (timelineSegment ⟨1, 1⟩ ⟨1, 0⟩) oneSegmentBytes
  let sim := sim.put (walChunkKey (DbNamespace.fmt ⟨1, 1⟩) 1 (walSegName 1 0) 0) (List.replicate 16 7)
  firstAndLast.foldl (fun sim row => (sim.put (backupObject ⟨1, 1⟩ row.ckpt) []).put
    (backupMeta ⟨1, 1⟩ row.ckpt) (backupJson row)) sim

theorem ordered_firstAndLast : Ordered firstAndLast := ⟨by decide, by decide⟩

set_option maxRecDepth 10000 in
theorem recoveryWindow_archiveTo16 :
    recoveryWindow oneSegment parseFirstAndLast ⟨1, 1⟩ archiveTo16 = .ok ⟨10, ⟨1, 4⟩, 20, 16, 1⟩ := by
  decide

set_option maxRecDepth 10000 in
theorem listBackups_archiveTo16 :
    listBackups parseFirstAndLast ⟨1, 1⟩ archiveTo16.objects = .ok firstAndLast := by decide

set_option maxRecDepth 10000 in
theorem archivedWalRun_archiveTo16 : archivedWalRun ⟨1, 1⟩ 1 archiveTo16 = .ok (0, 16) := by decide

set_option maxRecDepth 10000 in
/-- The last LSN of the archive gets the first backup. -/
theorem anchor_usable_iff_archiveTo16 :
    resolveTarget oneSegment parseFirstAndLast ⟨1, 1⟩ archiveTo16 none (.lsn 16) =
        .ok (⟨1, 4⟩, []) ∧ UsableAnchor firstAndLast 1 (0, 16) ⟨1, 4⟩ := by
  have hresolve : resolveTarget oneSegment parseFirstAndLast ⟨1, 1⟩ archiveTo16 none (.lsn 16) =
      .ok (⟨1, 4⟩, []) := by decide
  refine ⟨hresolve, ?_⟩
  obtain ⟨c, hc, hanchor, -⟩ := (anchor_usable_iff ordered_firstAndLast recoveryWindow_archiveTo16
    listBackups_archiveTo16 archivedWalRun_archiveTo16).1 16 (by decide)
  rw [hresolve] at hc
  cases hget : archiveTo16.get (backupObject ⟨1, 1⟩ c) with
  | error e =>
    rw [hget] at hc
    exact absurd hc (by simp [Except.map])
  | ok bytes =>
    rw [hget] at hc
    rw [(Prod.mk.inj (Except.ok.inj hc)).1]
    exact hanchor

set_option maxRecDepth 10000 in
/-- Time `20`, which the window ends with, gets the backup whose checkpoint is not archived. -/
theorem anchor_beyond_archive :
    Ordered firstAndLast ∧ (∀ b ∈ firstAndLast, b.redoCkpt.lsn ≤ b.ckpt.lsn) ∧
      (listCheckpoints oneSegment ⟨1, 1⟩ archiveTo16.objects).map (List.map fun r =>
          (r.ckpt.lsn, r.createdAt)) = .ok [(4, 10), (10, 20), (20, 20)] ∧
      listBackups parseFirstAndLast ⟨1, 1⟩ archiveTo16.objects = .ok firstAndLast ∧
      recoveryWindow oneSegment parseFirstAndLast ⟨1, 1⟩ archiveTo16 =
        .ok ⟨10, ⟨1, 4⟩, 20, 16, 1⟩ ∧
      archivedWalRun ⟨1, 1⟩ 1 archiveTo16 = .ok (0, 16) ∧
      resolveTarget oneSegment parseFirstAndLast ⟨1, 1⟩ archiveTo16 none (.time 20) =
        .ok (⟨1, 20⟩, []) ∧
      ¬ UsableAnchor firstAndLast 1 (0, 16) ⟨1, 20⟩ := by
  refine ⟨ordered_firstAndLast, by decide, by decide, listBackups_archiveTo16,
    recoveryWindow_archiveTo16, archivedWalRun_archiveTo16, by decide, fun h => ?_⟩
  obtain ⟨b, hb, hckpt, husable⟩ := h.usable
  have hle := (isUsable_iff.mp husable).2
  rw [hckpt] at hle
  exact absurd hle (by decide)

end Tiko.Pitr

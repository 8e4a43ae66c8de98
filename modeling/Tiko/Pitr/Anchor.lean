import Tiko.Lib.MaxByKey
import Tiko.Store.Basic
import Tiko.Wal.Window

/-!
# The choice of an anchor

Recovery starts from a base backup and from a base manifest, a branch from a base manifest: each is
picked from a listing as the largest checkpoint at or below the target. Checkpoints are ordered by
timeline first, so that an object of an older timeline counts as below the target whatever its LSN.

* `parseBaseManifestCkpt`, `listBackups`: what is listed;
* `pick`: the filter and the maximum that the three selectors share;
* `loadBackupAtOrBefore`, `materializeBaseManifestAt`, `seedBranchBaseManifest`: the selectors;
* `Closest`: the pick is not beyond the target's LSN, and nothing listed lies between them;
* `NoneBeyond`, `NoneOvertaken`: conditions on the newest timeline with an object at or below the
  target.

**`closest_iff`**: each selector picks the closest object exactly in listings with both conditions.
`picks_beyond_target` is a listing with an object of an older timeline beyond the target.
-/

namespace Tiko.Pitr

open Lib

/-! ## Object keys -/

/-- `Lsn::to_hex`. -/
def lsnToHex (lsn : Lsn) : Str := Hex.fmt 16 lsn.toNat

/-- `Lsn::from_hex`. -/
def lsnFromHex (s : Str) : Option Lsn := (Hex.fromStr (2 ^ 64) s).map UInt64.ofNat

/-- `Locator::bases_dir`. -/
def basesDir (ns : DbNamespace) : Str := ns.fmt ++ ['/', 'b', 'a', 's', 'e', 's', '/']

/-- `.manifest`. -/
def manifestSuffix : Str := ['.', 'm', 'a', 'n', 'i', 'f', 'e', 's', 't']

/-- `Locator::base_manifest`. -/
def baseManifest (ns : DbNamespace) (ckpt : Checkpoint) : Str :=
  basesDir ns ++ (ckpt.timelineId.toHex ++ ['/'] ++ (lsnToHex ckpt.lsn ++ manifestSuffix))

/-- `Locator::backup_dir`. -/
def backupDir (ns : DbNamespace) : Str := ns.fmt ++ ['/', 'b', 'a', 'c', 'k', 'u', 'p', '/']

/-- `Locator::backup_object`. -/
def backupObject (ns : DbNamespace) (ckpt : Checkpoint) : Str :=
  backupDir ns ++ (ckpt.timelineId.toHex ++ ['/'] ++
    (lsnToHex ckpt.lsn ++ ['.', 't', 'a', 'r', '.', 'z', 's', 't']))

/-- `.json`. -/
def jsonSuffix : Str := ['.', 'j', 's', 'o', 'n']

/-- `Locator::backup_meta`. -/
def backupMeta (ns : DbNamespace) (ckpt : Checkpoint) : Str :=
  backupDir ns ++ (ckpt.timelineId.toHex ++ ['/'] ++ (lsnToHex ckpt.lsn ++ jsonSuffix))

/-- `str::strip_suffix`. -/
def stripSuffix (s suf : Str) : Option Str :=
  if suf.isSuffixOf s then some (s.take (s.length - suf.length)) else none

/-- `parse_base_manifest_ckpt`. -/
def parseBaseManifestCkpt (key dir : Str) : Option Checkpoint := do
  let rel ← stripPrefix key dir
  let parts ← splitOnce ['/'] rel
  let lsnHex ← stripSuffix parts.2 manifestSuffix
  let timelineId ← TimelineId.fromHex parts.1
  let lsn ← lsnFromHex lsnHex
  some ⟨timelineId, lsn⟩

/-! ## Backups -/

/-- `BackupRow`, which has what is read of a `BackupMeta`. -/
structure BackupRow where
  ckpt : Checkpoint
  redoCkpt : Checkpoint
  createdAt : ℤ
  deriving DecidableEq

/-- The loop of `Store::list_backups`. `parse` stands for `serde_json::from_slice`. -/
def loadRows (parse : Bytes → Option BackupRow) (store : ObjectStorage) (dir : Str) :
    List Str → Except Error (List BackupRow)
  | [] => .ok []
  | key :: keys =>
    match stripPrefix key dir with
    | none => loadRows parse store dir keys
    | some rel =>
      -- the tarballs carry no metadata
      if !jsonSuffix.isSuffixOf rel then loadRows parse store dir keys
      else
        match store.get key with
        | .error e => if e.isNotFound then loadRows parse store dir keys else .error e
        | .ok bytes =>
          match parse bytes with
          | none => .error .io
          | some row => (loadRows parse store dir keys).map (row :: ·)

/-- `Store::list_backups`. -/
def listBackups (parse : Bytes → Option BackupRow) (ns : DbNamespace) (store : ObjectStorage) :
    Except Error (List BackupRow) :=
  match store.listPrefix (backupDir ns) with
  | .error e => if e.isNotFound then .ok [] else .error e
  | .ok keys =>
    (loadRows parse store (backupDir ns) keys).map fun rows =>
      rows.insertionSort fun a b => a.ckpt ≤ b.ckpt

/-! ## The selectors -/

/-- The largest checkpoint at or below the target. -/
def pick (listed : List Checkpoint) (target : Checkpoint) : Option Checkpoint :=
  maxByKey id (listed.filter fun c => c ≤ target)

/-- The listed checkpoints of base manifests. -/
def baseCkpts (dir : Str) (keys : List Str) : List Checkpoint :=
  keys.filterMap fun key => parseBaseManifestCkpt key dir

/-- `Option::ok_or_else`, with an error of kind `io`. -/
def okOr {α : Type} : Option α → Except Error α
  | none => .error .io
  | some a => .ok a

/-- `Store::load_backup_at_or_before`. -/
def loadBackupAtOrBefore (parse : Bytes → Option BackupRow) (ns : DbNamespace)
    (store : ObjectStorage) (target : Checkpoint) : Except Error (Checkpoint × Bytes) := do
  let rows ← listBackups parse ns store
  let ckpt ← okOr (pick (rows.map BackupRow.ckpt) target)
  let bytes ← store.get (backupObject ns ckpt)
  return (ckpt, bytes)

/-- The base manifest that the other two selectors read, with its checkpoint. -/
def baseAtOrBefore (ns : DbNamespace) (store : ObjectStorage) (ckpt : Checkpoint) :
    Except Error (Checkpoint × Bytes) := do
  let keys ← store.listPrefix (basesDir ns)
  let targetBase ← okOr (pick (baseCkpts (basesDir ns) keys) ckpt)
  let bytes ← store.get (baseManifest ns targetBase)
  return (targetBase, bytes)

/-- `Store::materialize_base_manifest_at`. `fromBytes` stands for `Manifest::from_bytes`, which also
writes the local file; the result has the picked checkpoint with the manifest that is installed. -/
def materializeBaseManifestAt {M : Type} (fromBytes : Bytes → Except Error M) (ns : DbNamespace)
    (store : ObjectStorage) (ckpt : Checkpoint) : Except Error (Checkpoint × M) := do
  let base ← baseAtOrBefore ns store ckpt
  let manifest ← fromBytes base.2
  return (base.1, manifest)

/-- `Store::seed_branch_base_manifest`. The result has the picked checkpoint with what the storage is
after the PUT under the branch's key. -/
def seedBranchBaseManifest {S : Type} (put : Str → Bytes → Except Error S)
    (parentNs branchNs : DbNamespace) (store : ObjectStorage) (ckpt : Checkpoint) :
    Except Error (Checkpoint × S) := do
  let base ← baseAtOrBefore parentNs store ckpt
  let storage ← put (baseManifest branchNs base.1) base.2
  return (base.1, storage)

/-! ## Keys parse back -/

section Keys

variable (ns : DbNamespace) (c : Checkpoint)

theorem stripSuffix_append (s suf : Str) : stripSuffix (s ++ suf) suf = some s := by
  unfold stripSuffix
  rw [if_pos (List.isSuffixOf_iff_suffix.mpr (List.suffix_append s suf)), List.length_append,
    Nat.add_sub_cancel, List.take_left' rfl]

theorem fromHex_toHex (tl : TimelineId) : TimelineId.fromHex tl.toHex = some tl := by
  unfold TimelineId.fromHex TimelineId.toHex
  rw [Hex.fromStr_fmt 8 (lt_of_lt_of_eq tl.toNat_lt (by decide)), Option.map_some,
    UInt32.ofNat_toNat]

theorem lsnFromHex_lsnToHex (lsn : Lsn) : lsnFromHex (lsnToHex lsn) = some lsn := by
  unfold lsnFromHex lsnToHex
  rw [Hex.fromStr_fmt 16 (lt_of_lt_of_eq lsn.toNat_lt (by decide)), Option.map_some,
    UInt64.ofNat_toNat]

theorem slash_notMem_toHex (tl : TimelineId) : '/' ∉ tl.toHex := fun h =>
  absurd (Hex.isDigit_of_mem_fmt h) (by decide)

/-- The key of a base manifest parses back. -/
theorem parseBaseManifestCkpt_baseManifest :
    parseBaseManifestCkpt (baseManifest ns c) (basesDir ns) = some c := by
  unfold parseBaseManifestCkpt baseManifest
  have hsplit : splitOnce ['/'] (c.timelineId.toHex ++ ['/'] ++ (lsnToHex c.lsn ++ manifestSuffix)) =
      some (c.timelineId.toHex, lsnToHex c.lsn ++ manifestSuffix) :=
    Wal.splitOnce_append (slash_notMem_toHex c.timelineId)
  rw [stripPrefix_append, Option.bind_eq_bind, Option.bind_some, hsplit, Option.bind_eq_bind,
    Option.bind_some, stripSuffix_append, Option.bind_eq_bind, Option.bind_some, fromHex_toHex,
    Option.bind_eq_bind, Option.bind_some, lsnFromHex_lsnToHex]
  rfl

end Keys

/-! ## The pick -/

section Pick

variable {listed : List Checkpoint} {target c : Checkpoint}

theorem pick_eq_some_iff : pick listed target = some c ↔
    c ∈ listed ∧ c ≤ target ∧ ∀ d ∈ listed, d ≤ target → d ≤ c := by
  unfold pick
  rw [maxByKey_filter_eq_some_iff Function.injective_id]
  simp only [decide_eq_true_eq, id_eq]

/-- The abstract store picks the same base. -/
theorem pick_keys (ns : DbNamespace) (bases : SortedMap Checkpoint Manifest) (target : Checkpoint) :
    pick (baseCkpts (basesDir ns) (bases.keys.map (baseManifest ns))) target =
      (Db.newestBaseUpTo bases target).map Prod.fst := by
  have hlisted : baseCkpts (basesDir ns) (bases.keys.map (baseManifest ns)) = bases.keys := by
    unfold baseCkpts
    rw [List.filterMap_map]
    exact (List.filterMap_congr fun c _ => parseBaseManifestCkpt_baseManifest ns c).trans
      List.filterMap_some
  rw [hlisted]
  unfold Db.newestBaseUpTo
  have hsorted : Ascending Prod.fst (bases.entries.filter fun p => decide (p.1 ≤ target)) :=
    bases.sorted.filter _
  cases hlast : (bases.entries.filter fun p => decide (p.1 ≤ target)).getLast? with
  | none =>
    have hnil := List.getLast?_eq_none_iff.mp hlast
    have hfilter : bases.keys.filter (fun c => decide (c ≤ target)) = [] := by
      unfold SortedMap.keys
      rw [List.filter_map, Function.comp_def, hnil, List.map_nil]
    unfold pick
    rw [hfilter]
    rfl
  | some p =>
    obtain ⟨hmem, hle⟩ := List.mem_filter.mp (List.mem_of_getLast? hlast)
    rw [Option.map_some, pick_eq_some_iff]
    refine ⟨List.mem_map_of_mem hmem, of_decide_eq_true hle, fun d hd hdt => ?_⟩
    obtain ⟨q, hq, rfl⟩ := List.mem_map.mp hd
    have hq' : q ∈ bases.entries.filter fun p => decide (p.1 ≤ target) :=
      List.mem_filter.mpr ⟨hq, decide_eq_true hdt⟩
    have hle' := hsorted.le_getLast hq' (List.ne_nil_of_mem hq')
    rwa [(List.getLast_eq_iff_getLast?_eq_some _).mpr hlast] at hle'

/-- **What is asked of a pick**: it is not beyond the target's LSN, and no listed object of the same
or an older timeline lies strictly between the two. `between` is by LSN, `order` by checkpoint. -/
structure Closest (listed : List Checkpoint) (target c : Checkpoint) : Prop where
  lsn_le : c.lsn ≤ target.lsn
  between : ∀ d ∈ listed, d.timelineId ≤ target.timelineId → d.lsn ≤ target.lsn →
    ¬ (c.lsn < d.lsn ∧ d.lsn < target.lsn)

/-- The same with the order of checkpoints between the pick and the target. -/
structure ClosestInOrder (listed : List Checkpoint) (target c : Checkpoint) : Prop where
  lsn_le : c.lsn ≤ target.lsn
  between : ∀ d ∈ listed, d.timelineId ≤ target.timelineId → d.lsn ≤ target.lsn →
    ¬ (c < d ∧ d < target)

/-- A listed object at or below the target, on the newest timeline that has one. -/
structure OnNewest (listed : List Checkpoint) (target c : Checkpoint) : Prop where
  mem : c ∈ listed
  le : c ≤ target
  newest : ∀ d ∈ listed, d ≤ target → d.timelineId ≤ c.timelineId

/-- On the newest timeline with an object at or below the target, no such object is beyond the
target's LSN. -/
def NoneBeyond (listed : List Checkpoint) (target : Checkpoint) : Prop :=
  ∀ c, OnNewest listed target c → c.lsn ≤ target.lsn

/-- No object of another timeline is closer to the target's LSN than all objects of the newest
timeline with one at or below the target. -/
def NoneOvertaken (listed : List Checkpoint) (target : Checkpoint) : Prop :=
  ∀ d ∈ listed, d.timelineId ≤ target.timelineId → d.lsn < target.lsn →
    ∃ c, OnNewest listed target c ∧ d.lsn ≤ c.lsn

theorem lsn_le_iff {l l' : Lsn} : l ≤ l' ↔ l.toNat ≤ l'.toNat := UInt64.le_iff_toNat_le

theorem onNewest_of_pick (h : pick listed target = some c) : OnNewest listed target c := by
  obtain ⟨hmem, hle, hmax⟩ := pick_eq_some_iff.mp h
  refine ⟨hmem, hle, fun d hd hdt => ?_⟩
  have hdc := Checkpoint.le_iff.mp (hmax d hd hdt)
  rw [UInt32.le_iff_toNat_le]
  rcases hdc with hlt | ⟨heq, -⟩
  · exact hlt.le
  · rw [heq]

/-- The pick has the largest LSN of its timeline. -/
theorem lsn_le_of_onNewest (h : pick listed target = some c) {d : Checkpoint}
    (hd : OnNewest listed target d) : d.lsn ≤ c.lsn := by
  obtain ⟨hmem, hle, hmax⟩ := pick_eq_some_iff.mp h
  have hdc := Checkpoint.le_iff.mp (hmax d hd.mem hd.le)
  have htl := UInt32.le_iff_toNat_le.mp (hd.newest c hmem hle)
  rw [lsn_le_iff]
  rcases hdc with hlt | ⟨-, hlsn⟩
  · omega
  · exact hlsn

theorem noneBeyond_iff (h : pick listed target = some c) :
    NoneBeyond listed target ↔ c.lsn ≤ target.lsn := by
  constructor
  · intro hall
    exact hall c (onNewest_of_pick h)
  · intro hle d hd
    exact UInt64.le_trans (lsn_le_of_onNewest h hd) hle

theorem noneOvertaken_iff (h : pick listed target = some c) :
    NoneOvertaken listed target ↔ ∀ d ∈ listed, d.timelineId ≤ target.timelineId →
      d.lsn ≤ target.lsn → ¬ (c.lsn < d.lsn ∧ d.lsn < target.lsn) := by
  constructor
  · rintro hall d hd htl - ⟨hcd, hdt⟩
    obtain ⟨e, he, hde⟩ := hall d hd htl hdt
    have hdc : d.lsn ≤ c.lsn := UInt64.le_trans hde (lsn_le_of_onNewest h he)
    exact UInt64.lt_irrefl _ (UInt64.lt_of_lt_of_le hcd hdc)
  · intro hall d hd htl hdt
    refine ⟨c, onNewest_of_pick h, ?_⟩
    by_contra hne
    exact hall d hd htl (UInt64.le_of_lt hdt) ⟨UInt64.not_le.mp hne, hdt⟩

/-- **A pick is the closest object exactly under the two conditions**; in the order of checkpoints
the first one is enough. -/
theorem closest_iff_of_pick (h : pick listed target = some c) :
    (Closest listed target c ↔ NoneBeyond listed target ∧ NoneOvertaken listed target) ∧
      (ClosestInOrder listed target c ↔ NoneBeyond listed target) := by
  rw [noneBeyond_iff h, noneOvertaken_iff h]
  refine ⟨⟨fun hc => ⟨hc.lsn_le, hc.between⟩, fun hc => ⟨hc.1, hc.2⟩⟩, fun hc => hc.lsn_le,
    fun hle => ⟨hle, ?_⟩⟩
  rintro d hd - - ⟨hcd, hdt⟩
  exact absurd hcd (not_lt.mpr ((pick_eq_some_iff.mp h).2.2 d hd hdt.le))

end Pick

/-! ## The three selectors -/

section Selectors

variable {parse : Bytes → Option BackupRow} {ns branchNs : DbNamespace} {store : ObjectStorage}
  {target c : Checkpoint}

theorem bind_eq_ok {α β : Type} {x : Except Error α} {f : α → Except Error β} {b : β}
    (h : x >>= f = .ok b) : ∃ a, x = .ok a ∧ f a = .ok b := by
  cases x with
  | error e => exact absurd h (by simp [bind, Except.bind])
  | ok a => exact ⟨a, rfl, h⟩

theorem eq_some_of_okOr {α : Type} {o : Option α} {a : α} (h : okOr o = .ok a) : o = some a := by
  cases o with
  | none => exact absurd h (by simp [okOr])
  | some b => rw [Except.ok.inj h]

theorem pick_of_loadBackupAtOrBefore {rows : List BackupRow} {bytes : Bytes}
    (hrows : listBackups parse ns store = .ok rows)
    (h : loadBackupAtOrBefore parse ns store target = .ok (c, bytes)) :
    pick (rows.map BackupRow.ckpt) target = some c := by
  unfold loadBackupAtOrBefore at h
  obtain ⟨rows', hrows', hrest⟩ := bind_eq_ok h
  obtain ⟨ckpt, hpick, hload⟩ := bind_eq_ok hrest
  obtain ⟨data, -, hpair⟩ := bind_eq_ok hload
  obtain rfl : rows = rows' := Except.ok.inj (hrows.symm.trans hrows')
  obtain ⟨rfl, -⟩ := Prod.mk.inj (Except.ok.inj hpair)
  exact eq_some_of_okOr hpick

theorem pick_of_baseAtOrBefore {keys : List Str} {bytes : Bytes}
    (hkeys : store.listPrefix (basesDir ns) = .ok keys)
    (h : baseAtOrBefore ns store target = .ok (c, bytes)) :
    pick (baseCkpts (basesDir ns) keys) target = some c := by
  unfold baseAtOrBefore at h
  obtain ⟨keys', hkeys', hrest⟩ := bind_eq_ok h
  obtain ⟨ckpt, hpick, hload⟩ := bind_eq_ok hrest
  obtain ⟨data, -, hpair⟩ := bind_eq_ok hload
  obtain rfl : keys = keys' := Except.ok.inj (hkeys.symm.trans hkeys')
  obtain ⟨rfl, -⟩ := Prod.mk.inj (Except.ok.inj hpair)
  exact eq_some_of_okOr hpick

/-- **When the selectors pick the closest object.** Each does so exactly in listings where, on the
newest timeline with an object at or below the target, no such object is beyond the target's LSN and no
object of another timeline is closer to it; the first condition alone is exact where closeness follows
the order of checkpoints. -/
theorem closest_iff {M S : Type} (parse : Bytes → Option BackupRow)
    (fromBytes : Bytes → Except Error M) (put : Str → Bytes → Except Error S)
    (ns branchNs : DbNamespace) (store : ObjectStorage) (target : Checkpoint) :
    (∀ rows c bytes, listBackups parse ns store = .ok rows →
      loadBackupAtOrBefore parse ns store target = .ok (c, bytes) →
      (Closest (rows.map BackupRow.ckpt) target c ↔
        NoneBeyond (rows.map BackupRow.ckpt) target ∧
          NoneOvertaken (rows.map BackupRow.ckpt) target) ∧
      (ClosestInOrder (rows.map BackupRow.ckpt) target c ↔
        NoneBeyond (rows.map BackupRow.ckpt) target)) ∧
    ∀ keys, store.listPrefix (basesDir ns) = .ok keys →
      ∀ c, ((∃ m, materializeBaseManifestAt fromBytes ns store target = .ok (c, m)) ∨
        ∃ s, seedBranchBaseManifest put ns branchNs store target = .ok (c, s)) →
      (Closest (baseCkpts (basesDir ns) keys) target c ↔
        NoneBeyond (baseCkpts (basesDir ns) keys) target ∧
          NoneOvertaken (baseCkpts (basesDir ns) keys) target) ∧
      (ClosestInOrder (baseCkpts (basesDir ns) keys) target c ↔
        NoneBeyond (baseCkpts (basesDir ns) keys) target) := by
  constructor
  · intro rows c bytes hrows h
    exact closest_iff_of_pick (pick_of_loadBackupAtOrBefore hrows h)
  · intro keys hkeys c h
    apply closest_iff_of_pick
    rcases h with ⟨m, h⟩ | ⟨s, h⟩
    · obtain ⟨base, hbase, hrest⟩ := bind_eq_ok h
      obtain ⟨manifest, -, hpair⟩ := bind_eq_ok hrest
      obtain ⟨rfl, -⟩ := Prod.mk.inj (Except.ok.inj hpair)
      exact pick_of_baseAtOrBefore hkeys hbase
    · obtain ⟨base, hbase, hrest⟩ := bind_eq_ok h
      obtain ⟨storage, -, hpair⟩ := bind_eq_ok hrest
      obtain ⟨rfl, -⟩ := Prod.mk.inj (Except.ok.inj hpair)
      exact pick_of_baseAtOrBefore hkeys hbase

end Selectors

/-! ## Backups of an older timeline -/

/-- `serde_json::to_vec` of the metadata of a backup. -/
def backupJson (row : BackupRow) : Bytes :=
  let num (n : ℕ) := Nat.toDigits 10 n
  let ckpt (c : Checkpoint) := "\x7b\"timeline_id\":".toList ++ num c.timelineId.toNat ++
    ",\"lsn\":".toList ++ num c.lsn.toNat ++ "\x7d".toList
  ("\x7b\"checkpoint\":".toList ++ ckpt row.ckpt ++ ",\"redo_ckpt\":".toList ++ ckpt row.redoCkpt ++
    ",\"timeline_id\":".toList ++ num row.ckpt.timelineId.toNat ++ ",\"created_at\":".toList ++
    num row.createdAt.toNat ++ "\x7d".toList).map fun c => UInt8.ofNat c.toNat

/-- The wire bytes of the manifest without entries at a checkpoint of timeline `1`, for an LSN that
takes two bytes. -/
def emptyManifestBytes (lsn : Lsn) : Bytes :=
  [0x96, 0x92, 0x01, 0xcd, UInt8.ofNat (lsn.toNat / 256), UInt8.ofNat lsn.toNat, 0x92, 0x01, 0x00,
    0x00, 0x90, 0x80, 0x90]

/-- A storage with the given objects. -/
def storageOf (objects : List (Str × Bytes)) : ObjectStorage where
  get key :=
    match objects.lookup key with
    | some bytes => .ok bytes
    | none => .error .notFound
  listPrefix dir := .ok ((objects.map Prod.fst).filter dir.isPrefixOf)

/-- The backup of timeline `1` at an LSN. -/
def backupAt (lsn : Lsn) : BackupRow := ⟨⟨1, lsn⟩, ⟨1, lsn⟩, 0⟩

/-- Backups and base manifests of timeline `1` at LSNs `300` and `500`. -/
def twoBackups : ObjectStorage :=
  storageOf ([300, 500].flatMap fun lsn =>
    [(backupMeta ⟨1, 1⟩ ⟨1, lsn⟩, backupJson (backupAt lsn)), (backupObject ⟨1, 1⟩ ⟨1, lsn⟩, []),
      (baseManifest ⟨1, 1⟩ ⟨1, lsn⟩, emptyManifestBytes lsn)])

/-- `serde_json::from_slice` on their metadata. -/
def parseTwo (bytes : Bytes) : Option BackupRow :=
  [backupAt 300, backupAt 500].find? fun row => backupJson row == bytes

/-- `Manifest::from_bytes` on their manifests. -/
def manifestOfTwo (bytes : Bytes) : Except Error Manifest :=
  if bytes = emptyManifestBytes 300 then .ok { Manifest.empty with checkpoint := ⟨1, 300⟩ }
  else if bytes = emptyManifestBytes 500 then .ok { Manifest.empty with checkpoint := ⟨1, 500⟩ }
  else .error .invalidData

theorem listBackups_twoBackups :
    listBackups parseTwo ⟨1, 1⟩ twoBackups = .ok [backupAt 300, backupAt 500] := by decide

/-- A target between the two. -/
theorem closest_iff_twoBackups :
    loadBackupAtOrBefore parseTwo ⟨1, 1⟩ twoBackups ⟨1, 450⟩ = .ok (⟨1, 300⟩, []) ∧
      Closest ([backupAt 300, backupAt 500].map BackupRow.ckpt) ⟨1, 450⟩ ⟨1, 300⟩ := by
  have hload : loadBackupAtOrBefore parseTwo ⟨1, 1⟩ twoBackups ⟨1, 450⟩ = .ok (⟨1, 300⟩, []) := by
    decide
  refine ⟨hload, (((closest_iff parseTwo manifestOfTwo (fun key bytes => .ok [(key, bytes)]) ⟨1, 1⟩
    ⟨1, 2⟩ twoBackups ⟨1, 450⟩).1 _ _ _ listBackups_twoBackups hload).1).mpr ⟨?_, ?_⟩⟩
  · intro c hc
    have hle := hc.le
    have hmem : c = ⟨1, 300⟩ ∨ c = ⟨1, 500⟩ := by simpa [backupAt] using hc.mem
    rcases hmem with rfl | rfl
    · decide
    · exact absurd hle (by decide)
  · intro d hd _ hlt
    have hnewest : OnNewest ([backupAt 300, backupAt 500].map BackupRow.ckpt) ⟨1, 450⟩ ⟨1, 300⟩ :=
      ⟨by decide, by decide, by decide⟩
    have hmem : d = ⟨1, 300⟩ ∨ d = ⟨1, 500⟩ := by simpa [backupAt] using hd
    rcases hmem with rfl | rfl
    · exact ⟨_, hnewest, by decide⟩
    · exact absurd hlt (by decide)

/-- For a target at LSN `450` of timeline `2`, all three selectors pick the object of timeline `1` at
LSN `500`, though there is one at `300`. -/
theorem picks_beyond_target :
    (listBackups parseTwo ⟨1, 1⟩ twoBackups).map (List.map BackupRow.ckpt) =
        .ok [⟨1, 300⟩, ⟨1, 500⟩] ∧
      (twoBackups.listPrefix (basesDir ⟨1, 1⟩)).map (baseCkpts (basesDir ⟨1, 1⟩)) =
        .ok [⟨1, 300⟩, ⟨1, 500⟩] ∧
      loadBackupAtOrBefore parseTwo ⟨1, 1⟩ twoBackups ⟨2, 450⟩ = .ok (⟨1, 500⟩, []) ∧
      materializeBaseManifestAt manifestOfTwo ⟨1, 1⟩ twoBackups ⟨2, 450⟩ =
        .ok (⟨1, 500⟩, { Manifest.empty with checkpoint := ⟨1, 500⟩ }) ∧
      seedBranchBaseManifest (fun key bytes => .ok [(key, bytes)]) ⟨1, 1⟩ ⟨1, 2⟩ twoBackups ⟨2, 450⟩ =
        .ok (⟨1, 500⟩, [(baseManifest ⟨1, 2⟩ ⟨1, 500⟩, emptyManifestBytes 500)]) ∧
      ¬ Closest [⟨1, 300⟩, ⟨1, 500⟩] ⟨2, 450⟩ ⟨1, 500⟩ ∧
      ¬ ClosestInOrder [⟨1, 300⟩, ⟨1, 500⟩] ⟨2, 450⟩ ⟨1, 500⟩ := by
  refine ⟨by decide, by decide, by decide, by decide, by decide, fun h => ?_, fun h => ?_⟩
  · exact absurd h.lsn_le (by decide)
  · exact absurd h.lsn_le (by decide)

end Tiko.Pitr

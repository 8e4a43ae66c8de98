import Tiko.Store.Org

/-!
# Recovery and its rollback

The `recover` command of `tiko_pitr` on a stopped database: it snapshots PGDATA and the local base
manifest, replaces both by a base backup, deletes the timeline segments and lets PostgreSQL replay
the log; on an error it restores the snapshot.

* `Entry`: the files of PGDATA, with `copyRecursive`, `backupDirExcluding`, `restoreDir`;
* `RecoverOutcome`: what happens to each operation of `recover_inner`;
* `recoverInner`, `runRecover`, `recover`;
* `RolledBack`: PGDATA, the local manifest and all reads are as before.
-/

namespace Tiko

open Lib

/-! ## PGDATA -/

/-- An entry of a directory. A symbolic link stands with the contents of the file it points to. -/
inductive Entry where
  | file (data : Bytes)
  | symlink (data : Bytes)
  | dir (entries : List (Str × Entry))

mutual

/-- `copy_recursive`, which follows symbolic links. -/
def Entry.copyRecursive : Entry → Entry
  | .file data => .file data
  | .symlink data => .file data
  | .dir entries => .dir (copyEntries entries)

/-- The loop of `copy_recursive` over a directory. -/
def copyEntries : List (Str × Entry) → List (Str × Entry)
  | [] => []
  | (name, entry) :: entries => (name, entry.copyRecursive) :: copyEntries entries

end

mutual

/-- There is no symbolic link in the tree. -/
def Entry.linkFree : Entry → Bool
  | .file _ => true
  | .symlink _ => false
  | .dir entries => linkFreeEntries entries

/-- There is no symbolic link in the entries of a directory. -/
def linkFreeEntries : List (Str × Entry) → Bool
  | [] => true
  | (_, entry) :: entries => entry.linkFree && linkFreeEntries entries

end

/-- A directory. -/
abbrev Dir := List (Str × Entry)

variable {β : Type} [Zero β]

/-- A stopped database with its PGDATA. -/
structure Cluster (β : Type) where
  pgdata : Dir
  db : Db β

/-- What happens to the operations of `recover_inner`: whether each of them succeeds, the segments
that cannot be deleted, what PostgreSQL does on the storage while it runs, and what is in PGDATA in
the end. -/
structure RecoverOutcome (β : Type) where
  wipe : Bool
  extract : Bool
  materialize : Bool
  list : Bool
  kept : List SegmentId
  writeConf : Bool
  writeSignal : Bool
  start : Bool
  ran : List (Org.Step β)
  promotion : Bool
  stop : Bool
  pgdata : Dir

variable (cfg : StoreConfig)

end Tiko

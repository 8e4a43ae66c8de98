import Tiko.Ops.Blocks

/-!
# Relation files

What the storage manager wants of the block operations is a file of blocks for each relation fork. The
caches, the draft, the manifests and the objects behind them are to be seen in no answer.

* `RelFiles`: the files, and what a call does to them;
* `Host.call`: the same call on a database with its caches;
* `RelFiles.Outcome`: a call does what it does to files, or fails for want of a victim in a cache. Such a
  write may have overwritten some of the blocks, but has not changed the size;
* `BlockCall.Allowed`: what PostgreSQL keeps to. No write begins beyond the end of a file, no truncation
  makes one longer, checkpoints ascend, and a server is restarted after a checkpoint;
* **`Host.Refines.call`**: one call, and **`Host.Refines.run`**: the answers of any run are those of files.
-/

namespace Tiko

open Lib

variable {N : ℕ} {P β : Type}

/-! ## Files -/

/-- A file of blocks for each relation fork that is not deleted; whether there is shared memory, the last
checkpoint, and whether anything was written since. -/
structure RelFiles (β : Type) where
  forks : RelFork → Option (List β)
  cached : Bool
  last : Checkpoint
  dirty : Bool

/-- A call of the storage manager, of the server or of its workers. -/
inductive BlockCall (N : ℕ) (P β : Type) where
  | forkExists (rf : RelFork)
  | create (rf : RelFork)
  | getNblocks (rf : RelFork)
  | truncateRelfork (rf : RelFork) (nblocks : UInt32)
  | deleteFork (rf : RelFork)
  | readBlocks (rf : RelFork) (blockNumber nblocks : UInt32)
  | writeBlocks (rf : RelFork) (blockNumber : UInt32) (data : List β)
  | prefetchBlocks (rf : RelFork) (blockNumber nblocks : UInt32)
  | flushDirtyForRelfork (rf : RelFork)
  | runCommitProtocol (a : Db.CommitArgs)
  | spillToFile
  | runCompaction (now : ℤ)
  | runCompactionThrough (target : Checkpoint) (now : ℤ)
  | restart (hands : P → Fin N) (cached tikmLost : Bool)

/-- What a call returns. -/
inductive BlockReply (β : Type) where
  | done
  | flag (b : Bool)
  | count (nblocks : UInt32)
  | blocks (nblocks : UInt32) (data : List β)

namespace RelFiles

/-- No files. -/
def empty (cached : Bool) : RelFiles β := ⟨fun _ => none, cached, default, false⟩

/-- A file is changed, made or removed. -/
def set (f : RelFiles β) (rf : RelFork) (file : Option (List β)) : RelFiles β :=
  { f with forks := Function.update f.forks rf file, dirty := true }

/-- The blocks of a file from one on, so many at most. -/
def read (xs : List β) (blockNumber nblocks : UInt32) : Except BlockError (UInt32 × List β) :=
  if xs.length < blockNumber.toNat then .error .unexpectedEof
  else
    let n := min nblocks.toNat (xs.length - blockNumber.toNat)
    .ok (UInt32.ofNat n, (xs.drop blockNumber.toNat).take n)

theorem read_of_lt {xs : List β} {b n : UInt32} (h : xs.length < b.toNat) :
    read xs b n = .error .unexpectedEof := if_pos h

theorem read_of_le {xs : List β} {b n : UInt32} (h : b.toNat ≤ xs.length) :
    read xs b n = .ok (UInt32.ofNat (min n.toNat (xs.length - b.toNat)),
      (xs.drop b.toNat).take (min n.toNat (xs.length - b.toNat))) := if_neg (Nat.not_lt.mpr h)

/-- A call on a file that has to be there. -/
def onFile (f : RelFiles β) (rf : RelFork)
    (act : List β → Except BlockError (BlockReply β) × RelFiles β) :
    Except BlockError (BlockReply β) × RelFiles β :=
  match f.forks rf with
  | none => (.error .notFound, f)
  | some xs => act xs

theorem onFile_of_none {f : RelFiles β} {rf : RelFork} (hf : f.forks rf = none)
    (act : List β → Except BlockError (BlockReply β) × RelFiles β) :
    f.onFile rf act = (.error .notFound, f) := by rw [onFile, hf]

theorem onFile_of_some {f : RelFiles β} {rf : RelFork} {xs : List β} (hf : f.forks rf = some xs)
    (act : List β → Except BlockError (BlockReply β) × RelFiles β) : f.onFile rf act = act xs := by
  rw [onFile, hf]

/-- A call on files. Spills and compactions are not about files. -/
def call (f : RelFiles β) : BlockCall N P β → Except BlockError (BlockReply β) × RelFiles β
  | .forkExists rf => (.ok (.flag (f.forks rf).isSome), f)
  | .create rf => if (f.forks rf).isSome then (.ok (.flag false), f) else (.ok (.flag true), f.set rf (some []))
  | .getNblocks rf => f.onFile rf fun xs => (.ok (.count (UInt32.ofNat xs.length)), f)
  | .truncateRelfork rf n => f.onFile rf fun xs => (.ok .done, f.set rf (some (xs.take n.toNat)))
  | .deleteFork rf => f.onFile rf fun _ => (.ok .done, f.set rf none)
  | .readBlocks rf b n => f.onFile rf fun xs => ((read xs b n).map fun r => .blocks r.1 r.2, f)
  | .writeBlocks rf b data => f.onFile rf fun xs => (.ok (.count (UInt32.ofNat data.length)),
      if data = [] then f else f.set rf (some (overwrite xs b.toNat data)))
  | .prefetchBlocks rf b n =>
    if f.cached then f.onFile rf fun xs => ((read xs b n).map fun r => .count r.1, f) else (.ok (.count 0), f)
  | .runCommitProtocol a => (.ok .done, { f with last := a.ckpt, dirty := false })
  | .restart _ cached _ => (.ok .done, { f with cached := cached })
  | .flushDirtyForRelfork _ | .spillToFile | .runCompaction _ | .runCompactionThrough .. => (.ok .done, f)

/-- What a call may leave that finds no victim: a write, some of the blocks it was to overwrite. -/
def Interrupted (f : RelFiles β) : BlockCall N P β → RelFiles β → Prop
  | .writeBlocks rf b data, f' => f' = f ∨ ∃ xs k, f.forks rf = some xs ∧
      f' = f.set rf (some ((overwrite xs b.toNat (data.take k)).take xs.length))
  | _, f' => f' = f

/-- The outcomes of a call. -/
def Outcome (f : RelFiles β) (call : BlockCall N P β) (r : Except BlockError (BlockReply β))
    (f' : RelFiles β) : Prop :=
  (r, f') = f.call call ∨ r = .error .evictionSweepExhausted ∧ f.Interrupted call f'

/-- Calls that are answered as by files. -/
def Runs (f : RelFiles β) : List (P × BlockCall N P β) → List (Except BlockError (BlockReply β)) → Prop
  | [], [] => True
  | c :: calls, r :: answers => ∃ f', f.Outcome c.2 r f' ∧ f'.Runs calls answers
  | _, _ => False

end RelFiles

/-- What PostgreSQL keeps to in a call. The relation fork with all fields zero does not exist, and the
last blocks of the number space stay unused. -/
def BlockCall.Allowed (f : RelFiles β) : BlockCall N P β → Prop
  | .forkExists rf | .create rf | .getNblocks rf | .deleteFork rf | .readBlocks rf .. |
    .prefetchBlocks rf .. | .flushDirtyForRelfork rf => rf ≠ default
  | .truncateRelfork rf n => rf ≠ default ∧ ∀ xs, f.forks rf = some xs → n.toNat ≤ xs.length
  | .writeBlocks rf b data => rf ≠ default ∧ (∀ xs, f.forks rf = some xs → b.toNat ≤ xs.length) ∧
      b.toNat + data.length ≤ 2 ^ 32 - 32
  | .runCommitProtocol a => f.last.lsn < a.ckpt.lsn ∧ 1 ≤ a.ckpt.timelineId ∧
      f.last.timelineId ≤ a.ckpt.timelineId
  | .restart .. => f.dirty = false
  | .spillToFile | .runCompaction _ | .runCompactionThrough .. => True

/-- Every call keeps to it, whatever files the answers before it tell of. -/
def RelFiles.Allows (f : RelFiles β) : List (P × BlockCall N P β) →
    List (Except BlockError (BlockReply β)) → Prop
  | c :: calls, r :: answers => c.2.Allowed f ∧ ∀ f', f.Outcome c.2 r f' → f'.Allows calls answers
  | _, _ => True

/-! ## The calls of a database -/

/-- `DraftBuffer::spill_to_file`. -/
def Db.spillToFile (cfg : StoreConfig) (s : Db β) : Except Error Unit × Db β :=
  let r := s.draft.spillToFile cfg.codec .ok
  (r.1, { s with draft := r.2 })

namespace Host

variable [DecidableEq P] [Zero β] (cfg : StoreConfig)

/-- The answer of an operation as a reply. -/
def reply {α : Type} (f : α → BlockReply β) (x : Except BlockError α × Host N P β) :
    Except BlockError (BlockReply β) × Host N P β :=
  (x.1.map f, x.2)

/-- A call of a process. -/
def call (p : P) (h : Host N P β) : BlockCall N P β → Except BlockError (BlockReply β) × Host N P β
  | .forkExists rf => reply .flag (forkExists cfg p rf h)
  | .create rf => reply .flag (create cfg p rf h)
  | .getNblocks rf => reply .count (getNblocks cfg p rf h)
  | .truncateRelfork rf n => reply (fun _ => .done) (truncateRelfork cfg p rf n h)
  | .deleteFork rf => reply (fun _ => .done) (deleteFork cfg p rf h)
  | .readBlocks rf b n => reply (fun r => .blocks r.1 r.2) (readBlocks cfg p rf b n h)
  | .writeBlocks rf b data => reply .count (writeBlocks cfg p rf b data h)
  | .prefetchBlocks rf b n => reply .count (prefetchBlocks cfg p rf b n h)
  | .flushDirtyForRelfork rf => reply (fun _ => .done) (flushDirtyForRelfork cfg rf h)
  | .runCommitProtocol a => reply (fun _ => .done) (runCommitProtocol cfg a h)
  | .spillToFile => reply (fun _ => .done) (onStore (fun db => ofStore (db.spillToFile cfg)) h)
  | .runCompaction now =>
    reply (fun _ => .done) (onStore (fun db => ofStore (db.runCompaction cfg now)) h)
  | .runCompactionThrough target now =>
    reply (fun _ => .done) (onStore (fun db => ofStore (db.runCompactionThrough cfg target now)) h)
  | .restart hands cached tikmLost => (.ok .done, restart cfg hands cached tikmLost h)

/-- The answers of a run. -/
def run : Host N P β → List (P × BlockCall N P β) → List (Except BlockError (BlockReply β))
  | _, [] => []
  | h, c :: calls => (call cfg c.1 h c.2).1 :: run (call cfg c.1 h c.2).2 calls

/-- A database with empty caches. -/
def start (s : Db β) (hands : P → Fin N) (cached : Bool) : Host N P β :=
  ⟨s, cached, .empty hands, .empty hands⟩

end Host

/-! ## Views and files -/

/-- A view is one of files: the metadata of a relation fork has the size of its file, and its blocks are
those of the file, in chunks that are not going to be dropped. -/
structure StoreView.Agrees (w : StoreView β) (f : RelFiles β) : Prop where
  absent : ∀ rf, f.forks rf = none → (w.metas.values rf).all (·.deleted) = true
  present : ∀ rf xs, f.forks rf = some xs →
    w.metas.values rf = some ⟨UInt32.ofNat xs.length, false⟩ ∧ xs.length ≤ 2 ^ 32 - 32
  blocks : ∀ rf xs, f.forks rf = some xs → w.Blocks rf xs
  last : w.last = f.last
  dirty : f.dirty = false → w.dirty = false

/-- A database with its caches is one of files. -/
def Host.Refines (cfg : StoreConfig) (h : Host N P β) (f : RelFiles β) : Prop :=
  ∃ w, h.Shows cfg f.cached w ∧ w.Agrees f

section Agreement

variable {w w' : StoreView β} {f : RelFiles β} {rf : RelFork} {xs : List β}

theorem agrees_fresh (cached : Bool) : (StoreView.fresh : StoreView β).Agrees (.empty cached) where
  absent := fun _ _ => rfl
  present := fun _ _ h => absurd h (by simp [RelFiles.empty])
  blocks := fun _ _ h => absurd h (by simp [RelFiles.empty])
  last := rfl
  dirty := id

/-- A change of one file. -/
theorem StoreView.Agrees.set (ha : w.Agrees f) {file : Option (List β)}
    (habsent : file = none → (w'.metas.values rf).all (·.deleted) = true)
    (hpresent : ∀ ys, file = some ys → w'.metas.values rf = some ⟨UInt32.ofNat ys.length, false⟩ ∧
      ys.length ≤ 2 ^ 32 - 32 ∧ w'.Blocks rf ys)
    (hother : ∀ rf' ys, rf' ≠ rf → w'.metas.values rf' = w.metas.values rf' ∧
      (w.Blocks rf' ys → w'.Blocks rf' ys))
    (hlast : w'.last = w.last) : w'.Agrees (f.set rf file) := by
  have hforks : ∀ rf', (f.set rf file).forks rf' = if rf' = rf then file else f.forks rf' :=
    fun rf' => Function.update_apply _ _ _ _
  refine ⟨fun rf' h => ?_, fun rf' ys h => ?_, fun rf' ys h => ?_, hlast.trans ha.last, fun h => ?_⟩
  · rw [hforks] at h
    split_ifs at h with heq
    · rw [heq]
      exact habsent h
    · rw [(hother rf' [] heq).1]
      exact ha.absent rf' h
  · rw [hforks] at h
    split_ifs at h with heq
    · rw [heq]
      exact ⟨(hpresent ys h).1, (hpresent ys h).2.1⟩
    · rw [(hother rf' ys heq).1]
      exact ha.present rf' ys h
  · rw [hforks] at h
    split_ifs at h with heq
    · rw [heq]
      exact (hpresent ys h).2.2
    · exact (hother rf' ys heq).2 (ha.blocks rf' ys h)
  · exact absurd h (by simp [RelFiles.set])

theorem StoreView.Agrees.all_deleted (ha : w.Agrees f) (rf : RelFork) :
    (w.metas.values rf).all (·.deleted) = (f.forks rf).isNone := by
  cases hf : f.forks rf with
  | none => exact ha.absent rf hf
  | some xs =>
    rw [(ha.present rf xs hf).1]
    rfl

theorem StoreView.Agrees.nblocks_of_none (ha : w.Agrees f) (hf : f.forks rf = none) :
    w.nblocks rf = .error .notFound := by
  have hall := ha.absent rf hf
  rw [StoreView.nblocks]
  cases hm : w.metas.values rf with
  | none => rfl
  | some m =>
    rw [hm] at hall
    exact if_pos hall

theorem StoreView.Agrees.nblocks_of_some (ha : w.Agrees f) (hf : f.forks rf = some xs) :
    w.nblocks rf = .ok (UInt32.ofNat xs.length) := by
  rw [StoreView.nblocks, (ha.present rf xs hf).1]
  rfl

theorem StoreView.Agrees.toNat_length (ha : w.Agrees f) (hf : f.forks rf = some xs) :
    (UInt32.ofNat xs.length).toNat = xs.length := by
  have hlen := (ha.present rf xs hf).2
  exact ChunkTagIter.toNat_ofNat_lt (by omega)

/-- A change of metadata is refused where there is no file. -/
theorem StoreView.Agrees.updateMeta_of_none (ha : w.Agrees f) (hf : f.forks rf = none)
    {change : RelForkMeta → Except BlockError RelForkMeta}
    (hchange : ∀ m : RelForkMeta, m.deleted = true → change m = .error .notFound) :
    w.updateMeta rf change = (.error .notFound, w) := by
  have hall := ha.absent rf hf
  rw [StoreView.updateMeta]
  cases hm : w.metas.values rf with
  | none => rfl
  | some m =>
    rw [hm] at hall
    dsimp only
    rw [hchange m hall]

theorem StoreView.Agrees.updateMeta_of_some (ha : w.Agrees f) (hf : f.forks rf = some xs)
    (change : RelForkMeta → Except BlockError RelForkMeta) {m : RelForkMeta}
    (hchange : change ⟨UInt32.ofNat xs.length, false⟩ = .ok m) :
    w.updateMeta rf change = (.ok (), w.saveMeta (rf, m)) := by
  rw [StoreView.updateMeta, (ha.present rf xs hf).1]
  dsimp only
  rw [hchange]

/-- A commit loses no file. -/
theorem StoreView.Agrees.commit (ha : w.Agrees f) (ckpt : Checkpoint) :
    (w.commit ckpt).Agrees { f with last := ckpt, dirty := false } := by
  refine ⟨ha.absent, ha.present, fun rf xs hf i x hx => ?_, rfl, fun _ => rfl⟩
  obtain ⟨hsec, hblock⟩ := ha.blocks rf xs hf i x hx
  refine ⟨⟨hsec, ?_⟩, hblock⟩
  rw [blockTag_relFork, (ha.present rf xs hf).1]
  rfl

theorem RelForkMeta.resize_of_deleted (n : UInt32) (m : RelForkMeta) (h : m.deleted = true) :
    RelForkMeta.resize n m = .error .notFound := if_pos h

theorem RelForkMeta.markDeleted_of_deleted (left : RelForkMeta → UInt32) (m : RelForkMeta)
    (h : m.deleted = true) : RelForkMeta.markDeleted left m = .error .notFound := if_pos h

/-- Other metadata is not changed with that of a relation fork. -/
theorem values_saveMeta_of_ne (w : StoreView β) (m : RelForkMeta) {rf' : RelFork} (h : rf' ≠ rf) :
    (w.saveMeta (rf, m)).metas.values rf' = w.metas.values rf' := Function.update_of_ne h _ _

end Agreement

/-! ## One call -/

namespace Host

variable [DecidableEq P] [Zero β] {cfg : StoreConfig} {p : P} {h : Host N P β} {w w' : StoreView β}
  {f : RelFiles β} {rf : RelFork} {xs : List β}

omit [DecidableEq P] [Zero β] in
/-- An operation that ends as the call does on files. -/
theorem Ends.outcome {α : Type} {cached : Bool} {x : Except BlockError α × Host N P β}
    {r : Except BlockError α} {g : α → BlockReply β} {c : BlockCall N P β}
    (hx : Ends cfg cached x w r w') (f' : RelFiles β) (hcall : f.call c = (r.map g, f'))
    (hquiet : f.Interrupted c f) (ha : w.Agrees f) (ha' : w'.Agrees f') (hcached : f.cached = cached)
    (hcached' : f'.cached = cached) :
    ∃ f', f.Outcome c (reply g x).1 f' ∧ (reply g x).2.Refines cfg f' := by
  rcases hx.cases with ⟨h', rfl, hs'⟩ | ⟨h', rfl, hs'⟩
  · exact ⟨f', .inl hcall.symm, w', hcached' ▸ hs', ha'⟩
  · exact ⟨f, .inr ⟨rfl, hquiet⟩, w, hcached ▸ hs', ha⟩

omit [DecidableEq P] [Zero β] in
/-- A view without the chunks beyond the end of a file. -/
theorem Trims.agrees {n : UInt32} (ht : Trims rf n w w') (ha : w.Agrees f)
    (hf : ∀ xs, f.forks rf = some xs → xs.length ≤ n.toNat) : w'.Agrees f := by
  obtain ⟨hm, hl, hd, hc⟩ := ht
  refine ⟨fun rf' h => ?_, fun rf' ys h => ?_, fun rf' ys h i x hx => ?_, hl.trans ha.last, fun h => ?_⟩
  · rw [hm]
    exact ha.absent rf' h
  · rw [hm]
    exact ha.present rf' ys h
  · have hlen := (ha.present rf' ys h).2
    have hi := (List.getElem?_eq_some_iff.mp hx).1
    obtain ⟨hval, hsec⟩ := hc (blockTag rf' i) fun heq => by
      obtain rfl : rf' = rf := heq
      have hn := hf ys h
      rw [UInt32.lt_iff_toNat_lt, blockTag_startBlock (by omega)]
      omega
    obtain ⟨hs, c, hv, hb⟩ := ha.blocks rf' ys h i x hx
    exact ⟨hsec hs, c, hval.trans hv, hb⟩
  · rw [hd]
    exact ha.dirty h

omit [DecidableEq P] [Zero β] in
theorem blocks_take {ys : List β} (h : w.Blocks rf ys) (n : ℕ) : w.Blocks rf (ys.take n) := by
  intro i x hx
  rw [List.getElem?_take] at hx
  split_ifs at hx
  exact h i x hx

omit [DecidableEq P] [Zero β] in
/-- After a write that has not changed the size. -/
theorem SameBut.agrees {ys : List β} (hsame : SameBut rf w w') (ha : w.Agrees f)
    (hf : f.forks rf = some xs) (hlen : ys.length = xs.length) (hblocks : w'.Blocks rf ys) :
    w'.Agrees (f.set rf (some ys)) := by
  obtain ⟨hm, hl, hother⟩ := hsame
  refine ha.set (fun h0 => absurd h0 (by simp)) ?_ (fun rf' zs hne => ⟨by rw [hm], hother rf' zs hne⟩) hl
  intro zs hzs
  obtain rfl := Option.some.inj hzs
  rw [hm, hlen]
  exact ⟨(ha.present rf xs hf).1, (ha.present rf xs hf).2, hblocks⟩

omit [DecidableEq P] [Zero β] in
/-- After a write that has extended the file. -/
theorem SameBut.agrees_saveMeta {ys : List β} {n : UInt32} (hsame : SameBut rf w w') (ha : w.Agrees f)
    (hn : n = UInt32.ofNat ys.length) (hlen : ys.length ≤ 2 ^ 32 - 32) (hblocks : w'.Blocks rf ys) :
    (w'.saveMeta (rf, ⟨n, false⟩)).Agrees (f.set rf (some ys)) := by
  obtain ⟨hm, hl, hother⟩ := hsame
  refine ha.set (fun h0 => absurd h0 (by simp)) ?_ (fun rf' zs hne => ⟨?_, hother rf' zs hne⟩) hl
  · intro zs hzs
    obtain rfl := Option.some.inj hzs
    exact ⟨(Function.update_self _ _ _).trans (by rw [hn]), hlen, hblocks⟩
  · rw [values_saveMeta_of_ne w' _ hne, hm]

section Calls

variable (hs : h.Shows cfg f.cached w) (ha : w.Agrees f)

include hs ha

theorem Shows.call_forkExists (rf : RelFork) :
    ∃ f', f.Outcome (.forkExists rf : BlockCall N P β) (call cfg p h (.forkExists rf)).1 f' ∧
      (call cfg p h (.forkExists rf)).2.Refines cfg f' := by
  refine (hs.forkExists (p := p) rf).outcome f ?_ rfl ha ha rfl rfl
  rw [ha.all_deleted, RelFiles.call]
  cases f.forks rf <;> rfl

theorem Shows.call_create (rf : RelFork) :
    ∃ f', f.Outcome (.create rf : BlockCall N P β) (call cfg p h (.create rf)).1 f' ∧
      (call cfg p h (.create rf)).2.Refines cfg f' := by
  have hends := hs.create (p := p) rf
  rw [StoreView.createRelfork, ha.all_deleted] at hends
  cases hf : f.forks rf with
  | some xs =>
    rw [hf] at hends
    refine hends.outcome f ?_ rfl ha ha rfl rfl
    rw [RelFiles.call, hf]
    rfl
  | none =>
    rw [hf] at hends
    refine hends.outcome (f.set rf (some [])) ?_ rfl ha (ha.set ?_ ?_ ?_ rfl) rfl rfl
    · rw [RelFiles.call, hf]
      rfl
    · exact fun h0 => absurd h0 (by simp)
    · rintro ys hys
      obtain rfl := Option.some.inj hys
      exact ⟨Function.update_self _ _ _, by simp, fun i x hx => absurd hx (by simp)⟩
    · exact fun rf' ys hne => ⟨values_saveMeta_of_ne w _ hne, id⟩

theorem Shows.call_getNblocks (rf : RelFork) :
    ∃ f', f.Outcome (.getNblocks rf : BlockCall N P β) (call cfg p h (.getNblocks rf)).1 f' ∧
      (call cfg p h (.getNblocks rf)).2.Refines cfg f' := by
  refine (hs.getNblocks (p := p) rf).outcome f ?_ rfl ha ha rfl rfl
  rw [RelFiles.call, RelFiles.onFile]
  cases hf : f.forks rf with
  | none => rw [ha.nblocks_of_none hf]; rfl
  | some xs => rw [ha.nblocks_of_some hf]; rfl

/-- **A truncation** keeps the blocks before the new end. -/
theorem Shows.call_truncateRelfork (rf : RelFork) (n : UInt32)
    (hn : ∀ xs, f.forks rf = some xs → n.toNat ≤ xs.length) :
    ∃ f', f.Outcome (.truncateRelfork rf n : BlockCall N P β) (call cfg p h (.truncateRelfork rf n)).1 f' ∧
      (call cfg p h (.truncateRelfork rf n)).2.Refines cfg f' := by
  obtain ⟨w', htrim, hends⟩ := hs.truncateRelfork (p := p) rf n
  cases hf : f.forks rf with
  | none =>
    rw [ha.updateMeta_of_none hf (RelForkMeta.resize_of_deleted n)] at htrim hends
    exact hends.outcome f (RelFiles.onFile_of_none hf _) rfl ha
      (htrim.agrees ha fun xs h0 => absurd (hf.symm.trans h0) (by simp)) rfl rfl
  | some xs =>
    have hlen : (xs.take n.toNat).length = n.toNat := List.length_take_of_le (hn xs hf)
    have hsize := (ha.present rf xs hf).2
    rw [ha.updateMeta_of_some hf (RelForkMeta.resize n) rfl] at htrim hends
    refine hends.outcome (f.set rf (some (xs.take n.toNat))) (RelFiles.onFile_of_some hf _) rfl ha
      (htrim.agrees (ha.set ?_ ?_ ?_ rfl) ?_) rfl rfl
    · exact fun h0 => absurd h0 (by simp)
    · rintro ys hys
      obtain rfl := Option.some.inj hys
      refine ⟨(Function.update_self _ _ _).trans ?_, ?_, blocks_take (ha.blocks rf xs hf) _⟩
      · rw [hlen, UInt32.ofNat_toNat]
      · rw [List.length_take]
        omega
    · exact fun rf' ys hne => ⟨values_saveMeta_of_ne w _ hne, id⟩
    · rintro ys hys
      have hself : (f.set rf (some (xs.take n.toNat))).forks rf = some (xs.take n.toNat) :=
        Function.update_self _ _ _
      obtain rfl := Option.some.inj (hself.symm.trans hys)
      exact hlen.le

/-- **A deletion** removes the file. -/
theorem Shows.call_deleteFork (rf : RelFork) :
    ∃ f', f.Outcome (.deleteFork rf : BlockCall N P β) (call cfg p h (.deleteFork rf)).1 f' ∧
      (call cfg p h (.deleteFork rf)).2.Refines cfg f' := by
  obtain ⟨left, w', htrim, hends⟩ := hs.deleteFork (p := p) rf
  cases hf : f.forks rf with
  | none =>
    rw [ha.updateMeta_of_none hf (RelForkMeta.markDeleted_of_deleted left)] at htrim hends
    exact hends.outcome f (RelFiles.onFile_of_none hf _) rfl ha
      (htrim.agrees ha fun xs h0 => absurd (hf.symm.trans h0) (by simp)) rfl rfl
  | some xs =>
    rw [ha.updateMeta_of_some hf (RelForkMeta.markDeleted left) rfl] at htrim hends
    refine hends.outcome (f.set rf none) (RelFiles.onFile_of_some hf _) rfl ha
      (htrim.agrees (ha.set ?_ ?_ ?_ rfl) ?_) rfl rfl
    · intro _
      have hself : (w.saveMeta (rf, ⟨left ⟨UInt32.ofNat xs.length, false⟩, true⟩)).metas.values rf =
          some ⟨left ⟨UInt32.ofNat xs.length, false⟩, true⟩ := Function.update_self _ _ _
      rw [hself]
      rfl
    · exact fun ys hys => absurd hys (by simp)
    · exact fun rf' ys hne => ⟨values_saveMeta_of_ne w _ hne, id⟩
    · intro ys hys
      have hself : (f.set rf none).forks rf = none := Function.update_self _ _ _
      exact absurd (hself.symm.trans hys) (by simp)

/-- **A read** returns blocks of the file. -/
theorem Shows.readBlocks (rf : RelFork) (b n : UInt32) :
    Ends cfg f.cached (Host.readBlocks cfg p rf b n h) w
      (match f.forks rf with | none => .error .notFound | some xs => RelFiles.read xs b n) w := by
  have hget := hs.getNblocks (p := p) rf
  rw [Host.readBlocks]
  cases hf : f.forks rf with
  | none =>
    rw [ha.nblocks_of_none hf] at hget
    exact hget.error
  | some xs =>
    rw [ha.nblocks_of_some hf] at hget
    have hsize := ha.toNat_length hf
    have hlen := (ha.present rf xs hf).2
    refine hget.bind fun h' hs' => ?_
    dsimp only
    by_cases heq : b = UInt32.ofNat xs.length
    · have hb : b.toNat = xs.length := by rw [heq, hsize]
      rw [if_pos heq, RelFiles.read_of_le hb.le, hb, Nat.sub_self, Nat.min_zero, List.take_zero]
      exact .answered rfl hs'
    · have hne : b.toNat ≠ xs.length := fun h0 => heq (UInt32.toNat_inj.mp (h0.trans hsize.symm))
      rw [if_neg heq]
      by_cases hgt : b > UInt32.ofNat xs.length
      · have hb : xs.length < b.toNat := hsize ▸ UInt32.lt_iff_toNat_lt.mp hgt
        rw [if_pos hgt, RelFiles.read_of_lt hb]
        exact .answered rfl hs'
      · have hle : b ≤ UInt32.ofNat xs.length := UInt32.not_lt.mp hgt
        have hb : b.toNat ≤ xs.length := hsize ▸ UInt32.le_iff_toNat_le.mp hle
        have hmin : (min n (UInt32.ofNat xs.length - b)).toNat = min n.toNat (xs.length - b.toNat) := by
          rw [ChunkTagIter.toNat_min, UInt32.toNat_sub_of_le _ _ hle, hsize]
        have hcount : UInt32.ofNat (min n.toNat (xs.length - b.toNat)) =
            min n (UInt32.ofNat xs.length - b) := by rw [← hmin, UInt32.ofNat_toNat]
        rw [if_neg hgt, RelFiles.read_of_le hb, hcount]
        by_cases hzero : min n (UInt32.ofNat xs.length - b) = 0
        · rw [if_pos hzero, hzero, ← hmin, hzero]
          exact .answered rfl hs'
        · have hpos : 1 ≤ (min n (UInt32.ofNat xs.length - b)).toNat :=
            Nat.one_le_iff_ne_zero.mpr fun h0 => hzero (UInt32.toNat_inj.mp h0)
          have hread := hs'.readItems (p := p) (ha.blocks rf xs hf)
            (pieces_chunkItems (s := b) rf hpos (by omega)) (by omega) (by omega)
          rw [if_neg hzero, ← hmin]
          exact hread.bind fun h'' hs'' => .answered rfl hs''

theorem Shows.call_readBlocks (rf : RelFork) (b n : UInt32) :
    ∃ f', f.Outcome (.readBlocks rf b n : BlockCall N P β) (call cfg p h (.readBlocks rf b n)).1 f' ∧
      (call cfg p h (.readBlocks rf b n)).2.Refines cfg f' := by
  refine (hs.readBlocks (p := p) ha rf b n).outcome f ?_ rfl ha ha rfl rfl
  rw [RelFiles.call, RelFiles.onFile]
  cases f.forks rf <;> rfl

theorem Shows.call_prefetchBlocks (rf : RelFork) (b n : UInt32) :
    ∃ f', f.Outcome (.prefetchBlocks rf b n : BlockCall N P β)
        (call cfg p h (.prefetchBlocks rf b n)).1 f' ∧
      (call cfg p h (.prefetchBlocks rf b n)).2.Refines cfg f' := by
  have hread := hs.readBlocks (p := p) ha rf b n
  rw [call, Host.prefetchBlocks, hs.1]
  cases hc : f.cached with
  | false =>
    rw [if_neg (by simp)]
    refine ⟨f, .inl ?_, w, hs, ha⟩
    rw [RelFiles.call, hc]
    rfl
  | true =>
    rw [if_pos rfl]
    have hcall : f.call (.prefetchBlocks rf b n : BlockCall N P β) =
        f.onFile rf fun xs => ((RelFiles.read xs b n).map fun r => .count r.1, f) := by
      rw [RelFiles.call, hc]
      rfl
    rw [hc] at hread
    cases hf : f.forks rf with
    | none =>
      rw [hf] at hread
      exact hread.error.outcome f (hcall.trans (RelFiles.onFile_of_none hf _)) rfl ha ha hc hc
    | some xs =>
      rw [hf] at hread
      have hfile := hcall.trans (RelFiles.onFile_of_some hf _)
      dsimp only at hread hfile
      cases hr : RelFiles.read xs b n with
      | error e =>
        rw [hr] at hread hfile
        exact hread.error.outcome f hfile rfl ha ha hc hc
      | ok r =>
        rw [hr] at hread hfile
        have hcount : Ends cfg true (andThen (Host.readBlocks cfg p rf b n h) fun r h => (.ok r.1, h)) w
            (.ok r.1) w := hread.bind fun h' hs' => .answered rfl hs'
        exact hcount.outcome f hfile rfl ha ha hc hc

omit hs ha in
/-- The end of a write, which extends the file. -/
theorem Shows.extend {cached : Bool} (hs : h.Shows cfg cached w) {rf : RelFork} {xs : List β}
    (hm : w.metas.values rf = some ⟨UInt32.ofNat xs.length, false⟩) (n count : UInt32) :
    Ends cfg cached (if n > UInt32.ofNat xs.length then
        andThen (Host.setNblocks cfg p rf n h) fun _ h => (.ok count, h)
      else (.ok count, h)) w (.ok count)
      (if n > UInt32.ofNat xs.length then w.saveMeta (rf, ⟨n, false⟩) else w) := by
  by_cases hgt : n > UInt32.ofNat xs.length
  · have hset := hs.setNblocks (p := p) rf n
    have hupdate : w.updateMeta rf (RelForkMeta.resize n) = (.ok (), w.saveMeta (rf, ⟨n, false⟩)) := by
      rw [StoreView.updateMeta, hm]
      rfl
    rw [hupdate] at hset
    rw [if_pos hgt, if_pos hgt]
    exact hset.bind fun h' hs' => .answered rfl hs'
  · rw [if_neg hgt, if_neg hgt]
    exact .answered rfl hs

/-- **A write** overwrites blocks of the file and extends it, or fails for want of a victim. -/
theorem Shows.call_writeBlocks (rf : RelFork) (b : UInt32) (data : List β)
    (hb : ∀ xs, f.forks rf = some xs → b.toNat ≤ xs.length)
    (hend : b.toNat + data.length ≤ 2 ^ 32 - 32) :
    ∃ f', f.Outcome (.writeBlocks rf b data : BlockCall N P β) (call cfg p h (.writeBlocks rf b data)).1 f' ∧
      (call cfg p h (.writeBlocks rf b data)).2.Refines cfg f' := by
  have hget := hs.getNblocks (p := p) rf
  have hquiet : f.Interrupted (.writeBlocks rf b data : BlockCall N P β) f := .inl rfl
  have hcount : (UInt32.ofNat data.length).toNat = data.length := ChunkTagIter.toNat_ofNat_lt (by omega)
  have hzero : UInt32.ofNat data.length = 0 ↔ data = [] := by
    rw [← UInt32.toNat_inj, hcount, UInt32.toNat_zero, List.length_eq_zero_iff]
  cases hf : f.forks rf with
  | none =>
    rw [ha.nblocks_of_none hf] at hget
    exact hget.error.outcome f (RelFiles.onFile_of_none hf _) hquiet ha ha rfl rfl
  | some xs =>
    have hbx := hb xs hf
    have hsize := ha.toNat_length hf
    obtain ⟨hmeta, hlen⟩ := ha.present rf xs hf
    have hcall : f.call (.writeBlocks rf b data : BlockCall N P β) =
        (.ok (.count (UInt32.ofNat data.length)),
          if data = [] then f else f.set rf (some (overwrite xs b.toNat data))) :=
      RelFiles.onFile_of_some hf _
    rw [ha.nblocks_of_some hf] at hget
    rw [call, Host.writeBlocks]
    dsimp only
    rcases hget.cases with ⟨h', hr, hs'⟩ | ⟨h', hr, hs'⟩ <;> rw [hr]
    swap
    · exact ⟨f, .inr ⟨rfl, hquiet⟩, w, hs', ha⟩
    rw [andThen]
    by_cases hnil : data = []
    · rw [if_pos hnil, hzero.mpr hnil] at hcall
      rw [if_pos (hzero.mpr hnil)]
      exact ⟨f, .inl hcall.symm, w, hs', ha⟩
    · have hpos : 1 ≤ data.length := List.length_pos_of_ne_nil hnil
      have hpieces := pieces_chunkItems (s := b) (n := UInt32.ofNat data.length) rf (by omega)
        (by omega)
      rw [hcount] at hpieces
      rw [if_neg hnil] at hcall
      rw [if_neg (mt hzero.mp hnil)]
      obtain ⟨w₁, hs₁, hsame, hout⟩ := hs'.writeItems (p := p) data hpieces hbx (by omega)
        (by omega) (by rw [List.take_zero, overwrite_nil]; exact ha.blocks rf xs hf)
      have hover := length_overwrite (d := data) hbx
      -- a write that fails leaves some of the blocks overwritten
      have hfailed : ∀ k, w₁.Blocks rf (overwrite xs b.toNat (data.take k)) →
          ∃ f', f.Interrupted (.writeBlocks rf b data : BlockCall N P β) f' ∧ f'.cached = f.cached ∧
            w₁.Agrees f' := fun k hk =>
        ⟨_, .inr ⟨xs, k, hf, rfl⟩, rfl, hsame.agrees ha hf
          (by rw [List.length_take, length_overwrite hbx]; omega) (blocks_take hk _)⟩
      cases hw : Host.writeItems cfg p data (Smgr.chunkItems rf b (UInt32.ofNat data.length)) h' with
      | mk r h₁ =>
        rw [hw] at hs₁ hout
        rcases hout with ⟨hok, hblocks⟩ | ⟨herr, k, hblocks⟩
        · obtain rfl : r = .ok () := hok
          have hsum : (b + UInt32.ofNat data.length).toNat = b.toNat + data.length := by
            rw [UInt32.toNat_add, hcount, Nat.mod_eq_of_lt (by omega)]
          have hmeta₁ : w₁.metas.values rf = some ⟨UInt32.ofNat xs.length, false⟩ := by rw [hsame.1, hmeta]
          have hext := hs₁.extend (p := p) hmeta₁
            (b + UInt32.ofNat data.length) (UInt32.ofNat data.length)
          rw [andThen]
          rcases hext.cases with ⟨h₂, hr₂, hs₂⟩ | ⟨h₂, hr₂, hs₂⟩ <;> rw [hr₂]
          · refine ⟨_, .inl hcall.symm, _, hs₂, ?_⟩
            split_ifs with hgt
            · rw [gt_iff_lt, UInt32.lt_iff_toNat_lt, hsize, hsum] at hgt
              refine hsame.agrees_saveMeta ha ?_ (by omega) hblocks
              rw [← UInt32.toNat_inj, hsum, ChunkTagIter.toNat_ofNat_lt (by omega)]
              omega
            · rw [gt_iff_lt, UInt32.lt_iff_toNat_lt, hsize, hsum] at hgt
              exact hsame.agrees ha hf (by omega) hblocks
          · obtain ⟨f', hint, hcached, hagrees⟩ := hfailed data.length (by rwa [List.take_length])
            exact ⟨f', .inr ⟨rfl, hint⟩, w₁, hcached ▸ hs₂, hagrees⟩
        · obtain rfl : r = .error .evictionSweepExhausted := herr
          obtain ⟨f', hint, hcached, hagrees⟩ := hfailed k hblocks
          exact ⟨f', .inr ⟨rfl, hint⟩, w₁, hcached ▸ hs₁, hagrees⟩

omit [DecidableEq P] [Zero β] ha in
/-- A step of the store that files know nothing of. -/
theorem Shows.background {α : Type} (act : Db β → Except Error α × Db β)
    (hact : ∀ v, h.db.Shows cfg v → ∃ r s', act h.db = (.ok r, s') ∧ s'.Shows cfg v) :
    ∃ r h', Host.onStore (fun db => ofStore (act db)) h = (.ok r, h') ∧ h'.Shows cfg f.cached w := by
  obtain ⟨hc, v, hv⟩ := id hs
  obtain ⟨r, s', hr, -⟩ := hact v hv.store
  refine ⟨r, _, onStore_ofStore hr, hs.setStore fun v hv => ?_⟩
  obtain ⟨r', s'', hr', hs''⟩ := hact v hv
  obtain rfl := (Prod.mk.inj (hr.symm.trans hr')).2
  exact hs''

/-- **A call** is answered as by files. -/
theorem Shows.call (c : BlockCall N P β) (hok : c.Allowed f) :
    ∃ f', f.Outcome c (Host.call cfg p h c).1 f' ∧ (Host.call cfg p h c).2.Refines cfg f' := by
  cases c with
  | forkExists rf => exact hs.call_forkExists ha rf
  | create rf => exact hs.call_create ha rf
  | getNblocks rf => exact hs.call_getNblocks ha rf
  | truncateRelfork rf n => exact hs.call_truncateRelfork ha rf n hok.2
  | deleteFork rf => exact hs.call_deleteFork ha rf
  | readBlocks rf b n => exact hs.call_readBlocks ha rf b n
  | writeBlocks rf b data => exact hs.call_writeBlocks ha rf b data hok.2.1 hok.2.2
  | prefetchBlocks rf b n => exact hs.call_prefetchBlocks ha rf b n
  | flushDirtyForRelfork rf =>
    rw [Host.call, Host.flushDirtyForRelfork]
    split_ifs
    · exact ⟨f, .inl rfl, w, hs.flushDirty _, ha⟩
    · exact ⟨f, .inl rfl, w, hs, ha⟩
  | runCommitProtocol a =>
    obtain ⟨h', hr, hs'⟩ := hs.runCommitProtocol (a := a) (by rw [ha.last]; exact hok)
    rw [Host.call, hr]
    exact ⟨{ f with last := a.ckpt, dirty := false }, .inl rfl, w.commit a.ckpt, hs', ha.commit a.ckpt⟩
  | spillToFile =>
    obtain ⟨r, h', hr, hs'⟩ := hs.background (Db.spillToFile cfg) fun v hv => by
      obtain ⟨d, hd, hs'⟩ := hv.spillToFile
      exact ⟨(), { h.db with draft := d }, by rw [Db.spillToFile, hd], hs'⟩
    rw [Host.call, hr]
    exact ⟨f, .inl rfl, w, hs', ha⟩
  | runCompaction now =>
    obtain ⟨r, h', hr, hs'⟩ := hs.background (Db.runCompaction cfg · now) fun v hv => hv.runCompaction now
    rw [Host.call, hr]
    exact ⟨f, .inl rfl, w, hs', ha⟩
  | runCompactionThrough target now =>
    obtain ⟨r, h', hr, hs'⟩ := hs.background (Db.runCompactionThrough cfg · target now)
      fun v hv => hv.runCompactionThrough target now
    rw [Host.call, hr]
    exact ⟨f, .inl rfl, w, hs', ha⟩
  | restart hands cached tikmLost =>
    exact ⟨{ f with cached := cached }, .inl rfl, w, hs.restart (ha.dirty hok) hands cached tikmLost,
      ⟨ha.absent, ha.present, ha.blocks, ha.last, ha.dirty⟩⟩

end Calls

/-! ## Runs -/

/-- **The answers of a run are those of files.** -/
theorem Refines.run (hr : h.Refines cfg f) (calls : List (P × BlockCall N P β))
    (hok : f.Allows calls (Host.run cfg h calls)) : f.Runs calls (Host.run cfg h calls) := by
  induction calls generalizing h f with
  | nil => exact trivial
  | cons c calls ih =>
    obtain ⟨w, hs, ha⟩ := hr
    obtain ⟨hc, hrest⟩ := hok
    obtain ⟨f', hout, hr'⟩ := hs.call (p := c.1) ha c.2 hc
    exact ⟨f', hout, ih hr' (hrest f' hout)⟩

omit [DecidableEq P] [Zero β] in
/-- A fresh database with empty caches has no files. -/
theorem refines_start {s : Db β} (hfresh : IsFresh cfg s) (hands : P → Fin N) (cached : Bool) :
    (start s hands cached).Refines cfg (.empty cached) :=
  ⟨.fresh, ⟨rfl, .fresh, .of_empty (WriteBack.get_empty hands) (WriteBack.get_empty hands)
    (shows_of_isFresh hfresh)⟩, agrees_fresh cached⟩

/-- **All that is ever answered is what files would answer**, from a fresh database on, with caches of any
size and without: through write-backs, spills, checkpoints, compactions and restarts. -/
theorem answers_of_files {s : Db β} (hfresh : IsFresh cfg s) (hands : P → Fin N) (cached : Bool)
    (calls : List (P × BlockCall N P β))
    (hok : (RelFiles.empty cached).Allows calls (Host.run cfg (start s hands cached) calls)) :
    (RelFiles.empty cached).Runs calls (Host.run cfg (start s hands cached) calls) :=
  (refines_start hfresh hands cached).run calls hok

/-- A relation of three blocks in a cache of one slot: created, written, read back and overwritten. -/
def exampleCalls : List (Unit × BlockCall 1 Unit ℕ) :=
  [((), .create Manifest.exampleTag.relFork), ((), .writeBlocks Manifest.exampleTag.relFork 0 [7, 8, 9]),
    ((), .readBlocks Manifest.exampleTag.relFork 1 5),
    ((), .writeBlocks Manifest.exampleTag.relFork 0 [6]), ((), .spillToFile),
    ((), .getNblocks Manifest.exampleTag.relFork)]

/-- These calls are allowed whatever is answered. -/
theorem answers_exampleCalls :
    (RelFiles.empty true).Runs exampleCalls
      (Host.run exampleConfig (start freshDb (fun _ => 0) true) exampleCalls) := by
  have hrf : Manifest.exampleTag.relFork ≠ default := by decide
  refine answers_of_files isFresh_freshDb _ _ _ ?_
  refine ⟨hrf, fun f₁ _ => ⟨⟨hrf, fun _ _ => Nat.zero_le _, by decide⟩, fun f₂ _ => ⟨hrf, fun f₃ _ =>
    ⟨⟨hrf, fun _ _ => Nat.zero_le _, by decide⟩, fun f₄ _ => ⟨trivial, fun f₅ _ => ⟨hrf, fun f₆ _ => ?_⟩⟩⟩⟩⟩⟩
  exact trivial

end Host

end Tiko

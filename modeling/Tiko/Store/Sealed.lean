import Tiko.Compaction.LastWriter
import Tiko.Draft.Codec
import Tiko.Store.Sound

/-!
# Sealed chunk objects are immutable

* `Org.Allowed`: commits ascend, no start takes a default prefix with sealed chunks, and no segment
  outlives the newest one in a recovery;
* `Org.Inv`: every database is sound;
* **`sealed_not_written`**: in every run of allowed steps no patch writes a chunk object that has
  been referred to before;
* `recovery_overwrites_sealed_chunk`: a recovery after which a patch does.
-/

namespace Tiko

open Lib

variable {β : Type}

/-- The steps of the runs: commits ascend; a start under the default prefix, which is one in recovery
or without stored records, finds no sealed chunk there; and deleting the segments deletes all of them
or leaves the newest. -/
def Org.Allowed (o : Org β) (l : UInt64 × Org.Step β) : Prop :=
  match l.2 with
  | .commit _ a => default < a.ckpt ∧ ∀ e ∈ o.history l.1, e.ckpt < a.ckpt
  | .start _ inRecovery =>
    inRecovery = true ∨ storedRecords (o.storage.segments l.1) = [] →
      Unsealed (o.history l.1) default
  | .deleteAllSegments kept =>
    ∀ id ∈ (o.storage.segments l.1).keys, id ∈ kept →
      ∀ last ∈ (o.storage.segments l.1).keys.getLast?, last ∈ kept
  | _ => True

instance (o : Org β) : ∀ l, Decidable (o.Allowed l)
  | (id, .commit _ a) =>
    inferInstanceAs (Decidable (default < a.ckpt ∧ ∀ e ∈ o.history id, e.ckpt < a.ckpt))
  | (id, .start _ inRecovery) => inferInstanceAs (Decidable
      (inRecovery = true ∨ storedRecords (o.storage.segments id) = [] →
        Unsealed (o.history id) default))
  | (id, .deleteAllSegments kept) => inferInstanceAs (Decidable
      (∀ x ∈ (o.storage.segments id).keys, x ∈ kept →
        ∀ last ∈ (o.storage.segments id).keys.getLast?, last ∈ kept))
  | (_, .patchChunk _ _ _ _) | (_, .putMeta _ _ _) | (_, .compact _) | (_, .compactThrough _ _)
  | (_, .materializeBaseManifestAt _) | (_, .seedBranch _ _) => inferInstanceAs (Decidable True)

/-! ## Runs -/

namespace Org

/-- The invariant of the organisation. -/
def Inv (o : Org β) : Prop := ∀ id, (o.db id).SoundAt o.history id

theorem inv_fresh : (fresh : Org β).Inv := by
  intro id
  refine ⟨?_, ?_, ?_, .inl rfl, ?_, ?_, ?_, ?_⟩
  · exact fun p hp => absurd hp List.not_mem_nil
  · exact fun e he => absurd he List.not_mem_nil
  · exact fun e he => absurd he List.not_mem_nil
  · exact fun e he => absurd he List.not_mem_nil
  · exact fun e he => absurd he nofun
  · rintro m (rfl | rfl | hm | ⟨key, hm⟩)
    · exact traced_empty _
    · exact traced_empty _
    · exact absurd hm nofun
    · exact absurd hm nofun
  · exact fun key m hm => absurd hm nofun

variable {o : Org β} {id : UInt64} {s : Db β}

theorem mem_history_set {e : SegmentCheckpoint} {id' : UInt64} (he : e ∈ o.history id') :
    e ∈ (o.set id s).history id' := by
  unfold set
  by_cases hid : id' = id
  · subst hid
    simp only [Function.update_self]
    exact mem_remember.mpr (.inl he)
  · simp only [Function.update_of_ne hid]
    exact he

/-- An operation of one database keeps the invariant of all. -/
theorem Inv.set (h : o.Inv) (hlocal : Db.Local id (o.db id) s)
    (hs : s.SoundAt (Function.update o.history id
      (remember (o.history id) (storedRecords (s.storage.segments id)))) id) : (o.set id s).Inv := by
  intro id'
  by_cases hid : id' = id
  · subst hid
    unfold db Org.set Db.SoundAt
    simp only [Function.update_self]
    exact hs
  · obtain ⟨hseg, hbases⟩ := hlocal id' hid
    have hdb : (o.set id s).dbs id' = o.dbs id' := Function.update_of_ne hid _ _
    have hhist : (o.set id s).history id' = o.history id' := Function.update_of_ne hid _ _
    have hold := Sound.of_history (h id') hhist fun _ _ => mem_history_set
    unfold db Db.SoundAt
    rw [hdb]
    change Sound _ id' (s.storage.segments id') (s.storage.bases id') _ _ _
    rw [hseg, hbases]
    exact hold

/-- What is referred to has been sealed by a record. -/
theorem Inv.mem_history (h : o.Inv) {dbId : UInt64} {ckpt : Checkpoint} {tag : ChunkTag}
    (hr : Referenced o.storage dbId ckpt tag) :
    ∃ e ∈ o.history dbId, e.prevCkpt = ckpt ∧ e.containsChunk tag = true := by
  rcases hr with ⟨e, he, hp⟩ | ⟨id, key, m, r, hm, hl, rfl, rfl⟩
  · exact ⟨e, (h dbId).stored e he, hp⟩
  · exact (h id).traced m (.inr (.inr (.inr ⟨key, hm⟩))) tag r hl

variable [Zero β] {codec : FrameCodec} {sort : Manifest.CombinedSort}

/-- **An allowed step keeps the invariant.** -/
theorem Inv.step (h : o.Inv) {l : UInt64 × Step β} (hok : o.Allowed l) {o' : Org β}
    (hs : o.step codec sort l = some o') : o'.Inv := by
  obtain ⟨id, st⟩ := l
  rw [← Option.some.inj hs]
  have hid : (o.db id).SoundAt o.history (StoreConfig.mk id codec sort).dbId := h id
  -- all steps but a commit and a seeding leave the history and the other databases alone
  have hkeep : ∀ s : Db β, s.SoundAt o.history id ∧ Db.Local id (o.db id) s → (o.set id s).Inv :=
    fun s hs => h.set hs.2 hs.1.remembered
  cases st with
  | patchChunk out tag offset data =>
    exact hkeep _ (hid.refreshed (Db.patchChunk_refreshed _ out tag offset data))
  | putMeta out rf m => exact hkeep _ ⟨h id, fun _ _ => ⟨rfl, rfl⟩⟩
  | commit out a =>
    obtain ⟨hs, hl⟩ := hid.runCommitProtocol out hok.1 hok.2
    exact h.set hl hs
  | compact now => exact hkeep _ (hid.runCompaction now)
  | compactThrough target now => exact hkeep _ (hid.runCompactionThrough target now)
  | start tikmLost inRecovery => exact hkeep _ (hid.restart tikmLost inRecovery hok)
  | materializeBaseManifestAt ckpt => exact hkeep _ (hid.materializeBaseManifestAt true ckpt)
  | deleteAllSegments kept => exact hkeep _ (hid.deleteAllSegments kept hok)
  | seedBranch parentDbId ckpt =>
    apply hkeep
    unfold stepDb Db.seedBranchBaseManifest
    dsimp only
    cases hn : Db.newestBaseUpTo ((o.db id).storage.bases parentDbId) ckpt with
    | none => exact ⟨h id, fun _ _ => ⟨rfl, rfl⟩⟩
    | some p =>
      have hmem := List.mem_of_mem_filter (List.mem_of_getLast? hn)
      have hlook := (SortedMap.mem_entries_iff _ p.1 p.2).mp hmem
      refine ⟨?_, fun id' hne => ⟨rfl, Function.update_of_ne hne _ _⟩⟩
      have hseed := Sound.seed (h id) ((h parentDbId).traced p.2 (.inr (.inr (.inr ⟨p.1, hlook⟩))))
        ((h parentDbId).keys p.1 p.2 hlook)
      have hbases : ((o.db id).storage.putBase id p.1 p.2).bases id = _ := Function.update_self ..
      unfold Db.SoundAt
      dsimp only
      rw [hbases]
      exact hseed

end Org

/-- **Sealed chunk objects are immutable**: in every run of allowed steps, once a chunk object is
referred to by a stored record or base manifest of any database, no later patch of any database
writes it. -/
theorem sealed_not_written [Zero β] {codec : FrameCodec} {sort : Manifest.CombinedSort}
    {o o' : Org β} (h : Reaches (Org.step codec sort) Org.Allowed Org.fresh o)
    (h' : Reaches (Org.step codec sort) Org.Allowed o o') {dbId : UInt64} {ckpt : Checkpoint}
    {tag : ChunkTag} (hr : Referenced o.storage dbId ckpt tag) (l : UInt64 × Org.Step β) :
    ¬o'.Writes codec sort l dbId ckpt tag := by
  have hinv : o.Inv := h.invariant Org.inv_fresh fun _ _ _ hi hok hs => hi.step hok hs
  have hinv' : o'.Inv := h'.invariant hinv fun _ _ _ hi hok hs => hi.step hok hs
  obtain ⟨e, he, hp, hc⟩ := hinv.mem_history hr
  have hgrow : e ∈ o'.history dbId := by
    refine h'.invariant (I := fun o => e ∈ o.history dbId) he fun s l s' hi _ hs => ?_
    rw [← Option.some.inj hs]
    exact Org.mem_history_set hi
  intro hw
  obtain ⟨id, st⟩ := l
  cases st with
  | patchChunk out tag' offset data =>
    obtain ⟨-, rfl, rfl, rfl⟩ := hw
    have hnil := (hinv' dbId).unsealed e hgrow hp
    rw [SegmentCheckpoint.containsChunk, SortedSet.contains_iff_mem_keys, SortedMap.keys, hnil] at hc
    exact List.not_mem_nil hc
  | _ => exact hw

/-- An interval of one database, folded into a base manifest. -/
def sealing : List (UInt64 × Org.Step ℕ) :=
  [(7, .start false false), (7, .patchChunk .ok Manifest.exampleTag 0 [7]),
    (7, .commit .ok ⟨⟨1, 100⟩, ⟨1, 90⟩, [], 0⟩), (7, .compactThrough ⟨1, 100⟩ 0)]

/-- A recovery to that base manifest. -/
def recovering : List (UInt64 × Org.Step ℕ) :=
  [(7, .materializeBaseManifestAt ⟨1, 100⟩), (7, .deleteAllSegments []), (7, .start false true)]

/-- The next patch of the same chunk. -/
def patchingAgain : UInt64 × Org.Step ℕ := (7, .patchChunk .ok Manifest.exampleTag 0 [8])

theorem referenced_of_base {s : Storage β} {id : UInt64} {key : Checkpoint} {tag : ChunkTag}
    {r : ChunkRef} (h : ((s.bases id).lookup key).bind (·.lookup tag) = some r) :
    Referenced s r.dbId r.ckpt tag := by
  obtain ⟨m, hm, hr⟩ := Option.bind_eq_some_iff.mp h
  exact .inr ⟨id, key, m, r, hm, hr, rfl, rfl⟩

/-- The steps of the examples. -/
abbrev exampleStep : Org ℕ → UInt64 × Org.Step ℕ → Option (Org ℕ) :=
  Org.step msgpack (Manifest.preferSort 0)

/-- What the base manifest of a first state refers to, and where a patch goes in a second one. -/
def patchedAfter (o o' : Org ℕ) : Option ChunkRef × Checkpoint × Except Error Unit :=
  (((o.storage.bases 7).lookup ⟨1, 100⟩).bind (·.lookup Manifest.exampleTag),
    (o'.db 7).timeline.headCkpt,
    ((o'.db 7).patchChunk ⟨7, msgpack, Manifest.preferSort 0⟩ .ok Manifest.exampleTag 0 [8]).1)

theorem writes_of_patchedAfter {o o' : Org ℕ} {r : ChunkRef} {ckpt : Checkpoint}
    (h : patchedAfter o o' = (some r, ckpt, .ok ())) :
    Referenced o.storage r.dbId r.ckpt Manifest.exampleTag ∧
      o'.Writes msgpack (Manifest.preferSort 0) patchingAgain 7 ckpt Manifest.exampleTag := by
  obtain ⟨href, h⟩ := Prod.mk.inj h
  obtain ⟨hhead, hpatch⟩ := Prod.mk.inj h
  exact ⟨referenced_of_base href, hpatch, rfl, hhead.symm, rfl⟩

/-- After a normal start the chunk is written under the next prefix. -/
theorem sealed_not_written_patchingAgain : ∃ o o' : Org ℕ,
    Referenced o.storage 7 default Manifest.exampleTag ∧
    o'.Writes msgpack (Manifest.preferSort 0) patchingAgain 7 ⟨1, 100⟩ Manifest.exampleTag ∧
    ¬o'.Writes msgpack (Manifest.preferSort 0) patchingAgain 7 default Manifest.exampleTag := by
  have hrun : ((run exampleStep Org.fresh sealing).bind fun o =>
      (run exampleStep o [(7, .start true false)]).map fun o' =>
        (patchedAfter o o', decide (o.Allowed (7, .start true false)))) =
      some ((some ⟨7, 1, 0⟩, ⟨1, 100⟩, .ok ()), true) := by
    decide +kernel
  obtain ⟨o, ho, hrun⟩ := Option.bind_eq_some_iff.mp hrun
  obtain ⟨o', ho', hrun⟩ := Option.map_eq_some_iff.mp hrun
  obtain ⟨hpatched, hallowed⟩ := Prod.mk.inj hrun
  obtain ⟨href, hw⟩ := writes_of_patchedAfter hpatched
  have h : Reaches exampleStep Org.Allowed Org.fresh o := reaches_of_run ho (by decide +kernel)
  have h' : Reaches exampleStep Org.Allowed o o' :=
    reaches_of_run ho' ⟨of_decide_eq_true hallowed, fun _ _ => trivial⟩
  exact ⟨o, o', href, hw, sealed_not_written h h' href patchingAgain⟩

/-- **A recovery overwrites a sealed chunk**: it starts under the default prefix, where the first
interval of the database was written. -/
theorem recovery_overwrites_sealed_chunk :
    ¬∀ (o o' : Org ℕ) (dbId : UInt64) (ckpt : Checkpoint) (tag : ChunkTag)
      (l : UInt64 × Org.Step ℕ),
      Reaches (Org.step msgpack (Manifest.preferSort 0)) (fun _ _ => True) Org.fresh o →
      Reaches (Org.step msgpack (Manifest.preferSort 0)) (fun _ _ => True) o o' →
      Referenced o.storage dbId ckpt tag →
        ¬o'.Writes msgpack (Manifest.preferSort 0) l dbId ckpt tag := by
  have hrun : ((run exampleStep Org.fresh sealing).bind fun o =>
      (run exampleStep o recovering).map (patchedAfter o)) =
      some (some ⟨7, 1, 0⟩, default, .ok ()) := by
    decide +kernel
  obtain ⟨o, ho, hrun⟩ := Option.bind_eq_some_iff.mp hrun
  obtain ⟨o', ho', hpatched⟩ := Option.map_eq_some_iff.mp hrun
  obtain ⟨href, hw⟩ := writes_of_patchedAfter hpatched
  intro h
  exact h o o' 7 default Manifest.exampleTag patchingAgain (reaches_of_run ho (throughout_true _ _))
    (reaches_of_run ho' (throughout_true _ _)) href hw

end Tiko

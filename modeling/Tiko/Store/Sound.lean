import Mathlib.Data.List.TakeWhile
import Tiko.Store.Org
import Tiko.Store.Writes

/-!
# Prefixes of sealed chunks

A chunk object that a stored record or base manifest refers to must not be written again. Writes go
under the head prefix, and a commit moves the head to its own checkpoint; a start takes the newest
stored checkpoint, or the default one when there is none or in a recovery.

* `Unsealed`: no record of the history has chunks under a prefix;
* `Traced`, `Sees`: manifests refer to sealed chunk objects, and what a database reads of them;
* **`Sound`**: the invariant of one database, with a lemma for each operation of the store.
-/

namespace Tiko

open Lib

variable {β : Type}

/-- No record of the list has chunks under the prefix. -/
def Unsealed (records : List SegmentCheckpoint) (ckpt : Checkpoint) : Prop :=
  ∀ e ∈ records, e.prevCkpt = ckpt → e.chunks.entries = []

instance (records : List SegmentCheckpoint) (ckpt : Checkpoint) :
    Decidable (Unsealed records ckpt) :=
  inferInstanceAs (Decidable (∀ e ∈ records, e.prevCkpt = ckpt → e.chunks.entries = []))

/-! ## Manifests -/

/-- Every entry of the manifest refers to a chunk object that a record of the history has sealed. -/
def Traced (history : UInt64 → List SegmentCheckpoint) (m : Manifest) : Prop :=
  ∀ tag r, m.lookup tag = some r →
    ∃ e ∈ history r.dbId, e.prevCkpt = r.ckpt ∧ e.containsChunk tag = true

theorem traced_empty (history : UInt64 → List SegmentCheckpoint) : Traced history .empty :=
  fun _ _ h => absurd h nofun

theorem Traced.mono {history history' : UInt64 → List SegmentCheckpoint} {m : Manifest}
    (h : Traced history m) (hsub : ∀ id, ∀ e ∈ history id, e ∈ history' id) : Traced history' m := by
  intro tag r hr
  obtain ⟨e, he, hp⟩ := h tag r hr
  exact ⟨e, hsub _ e he, hp⟩

theorem lookup_of_applySegments {S : Manifest.CombinedSort} {m : Manifest}
    {segments : List SegmentCheckpoint} {dbId : UInt64} {now : ℤ} {tag : ChunkTag} {r : ChunkRef}
    (h : (m.applySegments S segments dbId now).lookup tag = some r) :
    m.lookup tag = some r ∨ (Manifest.latestRefs S segments dbId).lookup tag = some r := by
  rw [Manifest.lookup, Manifest.applySegments, SortedMap.lookup_filter, SortedMap.lookup_merge] at h
  obtain ⟨h, -⟩ := Option.filter_eq_some_iff.mp h
  change Option.merge Manifest.newerRef (m.lookup tag) _ = some r at h
  cases hm : m.lookup tag with
  | none =>
    rw [hm] at h
    right
    simpa using h
  | some base =>
    cases hl : (Manifest.latestRefs S segments dbId).lookup tag with
    | none =>
      rw [hm, hl] at h
      left
      simpa using h
    | some new =>
      rw [hm, hl] at h
      have hr : Manifest.newerRef base new = r := by simpa using h
      unfold Manifest.newerRef at hr
      split_ifs at hr
      · exact .inr (by rw [hr])
      · exact .inl (by rw [hr])

/-- A fold of sealed records into a traced manifest is traced. -/
theorem Traced.applySegments {history : UInt64 → List SegmentCheckpoint} {m : Manifest}
    (h : Traced history m) {S : Manifest.CombinedSort} {segments : List SegmentCheckpoint}
    {dbId : UInt64} {now : ℤ} (hs : ∀ e ∈ segments, e ∈ history dbId) :
    Traced history (m.applySegments S segments dbId now) := by
  intro tag r hr
  rcases lookup_of_applySegments hr with hr | hr
  · exact h tag r hr
  · obtain ⟨⟨e, he, hc, rfl⟩, -⟩ := Manifest.lookup_latestRefs_spec hr
    exact ⟨e, hs e he, rfl, hc⟩

/-- The manifests that a database can read. -/
def Sees (bases : SortedMap Checkpoint Manifest) (manifest : Manifest) (tikm : Option Manifest)
    (m : Manifest) : Prop :=
  m = .empty ∨ m = manifest ∨ tikm = some m ∨ ∃ key, bases.lookup key = some m

namespace Db

variable {cfg : StoreConfig} {s : Db β}

/-- `loadManifestAt` returns a manifest that the database can read. -/
theorem loadManifestAt_sees {ckpt : Checkpoint} {m : Manifest} {s' : Db β}
    (h : s.loadManifestAt cfg ckpt = .ok (m, s')) :
    (s' = { s with tikm := some m } ∨ s' = s) ∧
      Sees (s.storage.bases cfg.dbId) s.manifest s.tikm m ∧
      (m.checkpoint = ckpt ∨ (s.storage.bases cfg.dbId).lookup ckpt = some m) := by
  rw [loadManifestAt] at h
  split_ifs at h with hd
  · obtain ⟨rfl, rfl⟩ := Prod.mk.inj (Except.ok.inj h)
    exact ⟨.inl rfl, .inl rfl, .inl hd.symm⟩
  · cases ht : s.tikm.filter fun m => m.checkpoint = ckpt with
    | some m' =>
      rw [ht] at h
      obtain ⟨rfl, rfl⟩ := Prod.mk.inj (Except.ok.inj h)
      obtain ⟨ht, hc⟩ := Option.filter_eq_some_iff.mp ht
      exact ⟨.inr rfl, .inr (.inr (.inl ht)), .inl (of_decide_eq_true hc)⟩
    | none =>
      rw [ht] at h
      cases hl : (s.storage.bases cfg.dbId).lookup ckpt with
      | none => rw [hl] at h; exact absurd h (by simp)
      | some m' =>
        rw [hl] at h
        obtain ⟨rfl, rfl⟩ := Prod.mk.inj (Except.ok.inj h)
        exact ⟨.inl rfl, .inr (.inr (.inr ⟨ckpt, hl⟩)), .inr rfl⟩

/-- Reading the base manifest changes at most the snapshot and the local file, to manifests that the
database could read before. -/
theorem baseManifest_sees {m : Manifest} {s' : Db β} (h : s.baseManifest cfg = .ok (m, s')) :
    (∃ tikm, s' = { s with manifest := m, tikm := tikm } ∧
      ∀ x, tikm = some x → Sees (s.storage.bases cfg.dbId) s.manifest s.tikm x) ∧
    Sees (s.storage.bases cfg.dbId) s.manifest s.tikm m ∧
      (m.checkpoint = s.timeline.baseCkpt ∨
        (s.storage.bases cfg.dbId).lookup s.timeline.baseCkpt = some m) := by
  rw [baseManifest] at h
  split_ifs at h with hc
  · obtain ⟨rfl, rfl⟩ := Prod.mk.inj (Except.ok.inj h)
    exact ⟨⟨s.tikm, rfl, fun x hx => .inr (.inr (.inl hx))⟩, .inr (.inl rfl), .inl hc⟩
  · cases hl : s.loadManifestAt cfg s.timeline.baseCkpt with
    | error e => rw [hl] at h; exact absurd h (by simp)
    | ok p =>
      obtain ⟨m', s₁⟩ := p
      rw [hl] at h
      obtain ⟨rfl, rfl⟩ := Prod.mk.inj (Except.ok.inj h)
      obtain ⟨hs', hm, hle⟩ := loadManifestAt_sees hl
      refine ⟨?_, hm, hle⟩
      rcases hs' with rfl | rfl
      · exact ⟨some m', rfl, fun x hx => by rw [← Option.some.inj hx]; exact hm⟩
      · exact ⟨s₁.tikm, rfl, fun x hx => .inr (.inr (.inl hx))⟩

/-- The base manifest does not lie above the base. -/
theorem baseManifest_le {m : Manifest} {s' : Db β} (h : s.baseManifest cfg = .ok (m, s'))
    (hb : ∀ key m, (s.storage.bases cfg.dbId).lookup key = some m → m.checkpoint ≤ key) :
    m.checkpoint ≤ s.timeline.baseCkpt := by
  rcases (baseManifest_sees h).2.2 with hc | hl
  · exact hc.le
  · exact hb _ _ hl

/-- What reads may change of a database: the cached manifest and the local file, to manifests that it
could read before. -/
def Reloaded (cfg : StoreConfig) (s s' : Db β) : Prop :=
  ∃ manifest tikm, s' = { s with manifest := manifest, tikm := tikm } ∧
    Sees (s.storage.bases cfg.dbId) s.manifest s.tikm manifest ∧
    ∀ x, tikm = some x → Sees (s.storage.bases cfg.dbId) s.manifest s.tikm x

theorem Reloaded.refl (cfg : StoreConfig) (s : Db β) : Reloaded cfg s s :=
  ⟨_, _, rfl, .inr (.inl rfl), fun _ hx => .inr (.inr (.inl hx))⟩

theorem getChunk_reloaded (s : Db β) (tag : ChunkTag) : Reloaded cfg s (s.getChunk cfg tag).2 := by
  unfold getChunk
  split
  · exact .refl cfg s
  · split
    · exact .refl cfg s
    · split
      · exact .refl cfg s
      · exact .refl cfg s
      · cases hm : s.baseManifest cfg with
        | error e => exact .refl cfg s
        | ok p =>
          obtain ⟨m, s'⟩ := p
          obtain ⟨⟨tikm, hs', ht⟩, hsees, -⟩ := baseManifest_sees hm
          have hr : Reloaded cfg s s' := ⟨_, _, hs', hsees, ht⟩
          dsimp only
          split
          · exact hr
          · split
            · exact hr
            · exact hr

variable (cfg) in
/-- A patch puts a chunk under the head prefix after a reload, or fails in the reload. -/
theorem patchChunk_cases [Zero β] (s : Db β) (out : AppendOutcome) (tag : ChunkTag) (offset : ℕ)
    (data : List β) : ∃ s', Reloaded cfg s s' ∧
      ((∃ c, s.patchChunk cfg out tag offset data = (.ok (), s'.putChunkAtHead cfg out tag c)) ∨
        ∃ e, s.patchChunk cfg out tag offset data = (.error e, s')) := by
  unfold patchChunk
  split_ifs
  · exact ⟨s, .refl cfg s, .inl ⟨_, rfl⟩⟩
  · refine ⟨(s.getChunk cfg tag).2, getChunk_reloaded s tag, ?_⟩
    cases hg : s.getChunk cfg tag with
    | mk r s' =>
      cases r with
      | ok c => exact .inl ⟨_, rfl⟩
      | error e =>
        dsimp only
        split_ifs
        · exact .inl ⟨_, rfl⟩
        · exact .inr ⟨e, rfl⟩

/-- What reads and patches may change of a database: the chunk objects, the draft, and the cached
manifests. -/
def Refreshed (cfg : StoreConfig) (s s' : Db β) : Prop :=
  ∃ chunks draft manifest tikm,
    s' = { s with
      storage := { s.storage with chunks := chunks }
      draft := draft
      manifest := manifest
      tikm := tikm } ∧
    Sees (s.storage.bases cfg.dbId) s.manifest s.tikm manifest ∧
    ∀ x, tikm = some x → Sees (s.storage.bases cfg.dbId) s.manifest s.tikm x

theorem Refreshed.refl (cfg : StoreConfig) (s : Db β) : Refreshed cfg s s :=
  ⟨_, _, _, _, rfl, .inr (.inl rfl), fun _ hx => .inr (.inr (.inl hx))⟩

theorem Refreshed.putChunkAtHead {s' : Db β} (h : Refreshed cfg s s') (out : AppendOutcome)
    (tag : ChunkTag) (c : Chunk β) : Refreshed cfg s (s'.putChunkAtHead cfg out tag c) := by
  obtain ⟨chunks, draft, manifest, tikm, rfl, hm, ht⟩ := h
  exact ⟨_, _, manifest, tikm, rfl, hm, ht⟩

theorem Reloaded.refreshed {s' : Db β} (h : Reloaded cfg s s') : Refreshed cfg s s' := by
  obtain ⟨manifest, tikm, rfl, hm, ht⟩ := h
  exact ⟨_, _, manifest, tikm, rfl, hm, ht⟩

theorem getChunk_refreshed (s : Db β) (tag : ChunkTag) : Refreshed cfg s (s.getChunk cfg tag).2 :=
  (getChunk_reloaded s tag).refreshed

theorem getMeta_refreshed (s : Db β) (rf : RelFork) : Refreshed cfg s (s.getMeta cfg rf).2 := by
  have hbelow : ∀ top, Refreshed cfg s (s.getMetaBelow cfg rf top).2 := by
    intro top
    unfold getMetaBelow
    split
    · exact .refl cfg s
    · exact .refl cfg s
    · cases hm : s.baseManifest cfg with
      | error e => exact .refl cfg s
      | ok p =>
        obtain ⟨m, s'⟩ := p
        obtain ⟨⟨tikm, hs', ht⟩, hsees, -⟩ := baseManifest_sees hm
        have hr : Refreshed cfg s s' := ⟨_, _, _, _, hs', hsees, ht⟩
        dsimp only
        split
        · exact hr
        · exact hr
  unfold getMeta
  split
  · exact .refl cfg s
  · exact .refl cfg s
  · split
    · exact .refl cfg s
    · exact hbelow _

theorem patchChunk_refreshed [Zero β] (s : Db β) (out : AppendOutcome) (tag : ChunkTag)
    (offset : ℕ) (data : List β) : Refreshed cfg s (s.patchChunk cfg out tag offset data).2 := by
  obtain ⟨s', hr, ⟨c, hp⟩ | ⟨e, hp⟩⟩ := patchChunk_cases cfg s out tag offset data
  · rw [hp]
    exact hr.refreshed.putChunkAtHead out tag c
  · rw [hp]
    exact hr.refreshed

end Db

/-! ## The invariant of one database -/

/-- The invariant of the database `id`: what is stored is in the history, prefixes are the default
one or committed checkpoints, the head and the newest stored checkpoint are prefixes without sealed
chunks, and every manifest refers to sealed chunk objects only. -/
structure Sound (history : UInt64 → List SegmentCheckpoint) (id : UInt64)
    (segments : SortedMap SegmentId TimelineSegment) (bases : SortedMap Checkpoint Manifest)
    (head : Checkpoint) (manifest : Manifest) (tikm : Option Manifest) : Prop where
  wf : SegmentsWf segments
  stored : ∀ e ∈ storedRecords segments, e ∈ history id
  prev : ∀ e ∈ history id, e.prevCkpt = default ∨ ∃ e' ∈ history id, e'.ckpt = e.prevCkpt
  committed : head = default ∨ ∃ e ∈ history id, e.ckpt = head
  unsealed : Unsealed (history id) head
  last : ∀ e, (storedRecords segments).getLast? = some e → Unsealed (history id) e.ckpt
  traced : ∀ m, Sees bases manifest tikm m → Traced history m
  keys : ∀ key m, bases.lookup key = some m → m.checkpoint ≤ key

namespace Sound

variable {history : UInt64 → List SegmentCheckpoint} {id : UInt64}
  {segments : SortedMap SegmentId TimelineSegment} {bases : SortedMap Checkpoint Manifest}
  {head : Checkpoint} {manifest : Manifest} {tikm : Option Manifest}

/-- Other databases may add to their histories. -/
theorem of_history (h : Sound history id segments bases head manifest tikm)
    {history' : UInt64 → List SegmentCheckpoint} (hid : history' id = history id)
    (hsub : ∀ id, ∀ e ∈ history id, e ∈ history' id) :
    Sound history' id segments bases head manifest tikm where
  wf := h.wf
  stored := by rw [hid]; exact h.stored
  prev := by rw [hid]; exact h.prev
  committed := by rw [hid]; exact h.committed
  unsealed := by rw [hid]; exact h.unsealed
  last := by rw [hid]; exact h.last
  traced m hm := (h.traced m hm).mono hsub
  keys := h.keys

theorem sees (h : Sound history id segments bases head manifest tikm) {m : Manifest}
    {t : Option Manifest} (hm : Sees bases manifest tikm m)
    (ht : ∀ x, t = some x → Sees bases manifest tikm x) :
    Sound history id segments bases head m t :=
  { h with
    traced := fun x hx => by
      rcases hx with hx | rfl | hx | hx
      · exact h.traced x (.inl hx)
      · exact h.traced x hm
      · exact h.traced x (ht x hx)
      · exact h.traced x (.inr (.inr (.inr hx))) }

/-- **A commit seals the chunks of its interval and moves the head.** -/
theorem commit (h : Sound history id segments bases head manifest tikm) {e : SegmentCheckpoint}
    (hprev : e.prevCkpt = head) (hd : default < e.ckpt) (hlt : ∀ x ∈ history id, x.ckpt < e.ckpt) :
    Sound (Function.update history id
        (Org.remember (history id) (storedRecords (appendRecord segments e)))) id
      (appendRecord segments e) bases e.ckpt manifest tikm := by
  have hstored := storedRecords_appendRecord (h.wf.ids_le fun x hx => (hlt x (h.stored x hx)).le)
  have hmem : ∀ x, x ∈ Org.remember (history id) (storedRecords (appendRecord segments e)) ↔
      x ∈ history id ∨ x = e := by
    intro x
    rw [Org.mem_remember, hstored, List.mem_append, List.mem_singleton]
    exact ⟨fun hx => hx.elim .inl fun hx => hx.imp_left (h.stored x), fun hx => hx.imp_right .inr⟩
  have hbelow : ∀ x ∈ history id, x.prevCkpt < e.ckpt := by
    intro x hx
    rcases h.prev x hx with hx | ⟨y, hy, hx⟩
    · rw [hx]
      exact hd
    · rw [← hx]
      exact hlt y hy
  have hhead : head < e.ckpt := by
    rcases h.committed with rfl | ⟨y, hy, rfl⟩
    · exact hd
    · exact hlt y hy
  -- all prefixes that were written lie below the new head
  have hun : Unsealed (Org.remember (history id) (storedRecords (appendRecord segments e)))
      e.ckpt := by
    intro x hx hp
    rcases (hmem x).mp hx with hx | rfl
    · exact absurd hp (hbelow x hx).ne
    · rw [hprev] at hp
      exact absurd hp hhead.ne
  have hsub : ∀ id', ∀ x ∈ history id', x ∈ Function.update history id
      (Org.remember (history id) (storedRecords (appendRecord segments e))) id' := by
    intro id' x hx
    by_cases hid : id' = id
    · subst hid
      rw [Function.update_self]
      exact (hmem x).mpr (.inl hx)
    · rw [Function.update_of_ne hid]
      exact hx
  refine ⟨wf_appendRecord h.wf, ?_, ?_, ?_, ?_, ?_, fun m hm => (h.traced m hm).mono hsub, h.keys⟩
  · rw [Function.update_self]
    exact fun x hx => Org.mem_remember.mpr (.inr hx)
  · rw [Function.update_self]
    intro x hx
    rcases (hmem x).mp hx with hx | rfl
    · refine (h.prev x hx).imp_right fun ⟨y, hy, hyx⟩ => ⟨y, (hmem y).mpr (.inl hy), hyx⟩
    · rw [hprev]
      exact h.committed.imp_right fun ⟨y, hy, hyx⟩ => ⟨y, (hmem y).mpr (.inl hy), hyx⟩
  · rw [Function.update_self]
    exact .inr ⟨e, (hmem e).mpr (.inr rfl), rfl⟩
  · rw [Function.update_self]
    exact hun
  · intro x hx
    rw [hstored, List.getLast?_concat] at hx
    rw [Function.update_self, ← Option.some.inj hx]
    exact hun

/-- The segments may be deleted up to the newest one. -/
theorem delete (h : Sound history id segments bases head manifest tikm)
    (segments' : SortedMap SegmentId TimelineSegment)
    (hsub : ∀ p ∈ segments'.entries, p ∈ segments.entries)
    (hlast : ∀ e, (storedRecords segments').getLast? = some e →
      (storedRecords segments).getLast? = some e) :
    Sound history id segments' bases head manifest tikm :=
  { h with
    wf := fun p hp => h.wf p (hsub p hp)
    stored := fun e he => by
      obtain ⟨p, hp, he⟩ := mem_storedRecords.mp he
      exact h.stored e (mem_storedRecords.mpr ⟨p, hsub p hp, he⟩)
    last := fun e he => h.last e (hlast e he) }

/-- A start takes a prefix without sealed chunks. -/
theorem start (h : Sound history id segments bases head manifest tikm)
    (records : List SegmentCheckpoint) (hr : records = [] ∨ records = storedRecords segments)
    (hd : records = [] → Unsealed (history id) default) :
    Sound history id segments bases ((records.getLast?.map (·.ckpt)).getD default) manifest tikm := by
  cases hl : records.getLast? with
  | none => 
    exact { h with committed := .inl rfl, unsealed := hd (List.getLast?_eq_none_iff.mp hl) }
  | some e =>
    rcases hr with rfl | rfl
    · exact absurd hl nofun
    · exact { h with
        committed := .inr ⟨e, h.stored e (List.mem_of_getLast? hl), rfl⟩
        unsealed := h.last e hl }

/-- A manifest over the history is published and becomes the snapshot. -/
theorem publish (h : Sound history id segments bases head manifest tikm) {m : Manifest}
    {key : Checkpoint} (hm : Traced history m) (hkey : m.checkpoint ≤ key) :
    Sound history id segments (bases.insert key m) head m (some m) :=
  { h with
    traced := fun x hx => by
      rcases hx with hx | rfl | hx | ⟨k, hk⟩
      · exact h.traced x (.inl hx)
      · exact hm
      · rw [← Option.some.inj hx]
        exact hm
      · rw [SortedMap.lookup_insert] at hk
        split_ifs at hk
        · rw [← Option.some.inj hk]
          exact hm
        · exact h.traced x (.inr (.inr (.inr ⟨k, hk⟩)))
    keys := fun k x hk => by
      rw [SortedMap.lookup_insert] at hk
      split_ifs at hk with he
      · rw [he, ← Option.some.inj hk]
        exact hkey
      · exact h.keys k x hk }

/-- A copied base manifest is stored. -/
theorem seed (h : Sound history id segments bases head manifest tikm) {m : Manifest}
    {key : Checkpoint} (hm : Traced history m) (hkey : m.checkpoint ≤ key) :
    Sound history id segments (bases.insert key m) head manifest tikm := by
  have hp := h.publish hm hkey
  refine { hp with traced := fun x hx => ?_ }
  rcases hx with hx | hx | hx | hx
  · exact h.traced x (.inl hx)
  · exact h.traced x (.inr (.inl hx))
  · exact h.traced x (.inr (.inr (.inl hx)))
  · exact hp.traced x (.inr (.inr (.inr hx)))

end Sound

/-! ## Deleting segments -/

/-- The newest record stays when the newest segment does. -/
theorem getLast?_storedRecords_filter {segments : SortedMap SegmentId TimelineSegment}
    (hw : SegmentsWf segments) {keep : SegmentId → Bool}
    (h : ∀ last ∈ segments.keys.getLast?, keep last = true) :
    (storedRecords (segments.filter fun id _ => keep id)).getLast? =
      (storedRecords segments).getLast? := by
  have hfilter : storedRecords (segments.filter fun id _ => keep id) =
      (segments.entries.filter fun p => keep p.1).flatMap (·.2.checkpoints) := rfl
  rw [hfilter, storedRecords]
  rcases List.eq_nil_or_concat segments.entries with hnil | ⟨l, p, hl⟩
  · rw [hnil, List.filter_nil]
  · have hlast : segments.keys.getLast? = some p.1 := by
      rw [SortedMap.keys, hl, List.concat_eq_append, List.map_append, List.map_singleton,
        List.getLast?_concat]
    have hp : keep p.1 = true := h p.1 hlast
    have hne : p.2.checkpoints ≠ [] :=
      (hw p (by rw [hl, List.concat_eq_append]; exact List.mem_append_right _ List.mem_cons_self)).2.1
    have hone : [p].filter (fun q => keep q.1) = [p] := by rw [List.filter_singleton, hp]; rfl
    rw [hl, List.concat_eq_append, List.filter_append, hone, List.flatMap_append, List.flatMap_append,
      List.flatMap_singleton, List.getLast?_append, List.getLast?_append,
      List.getLast?_eq_some_getLast hne, Option.some_or, Option.some_or]

theorem mem_of_mem_filter {segments : SortedMap SegmentId TimelineSegment} {keep : SegmentId → Bool}
    {p : SegmentId × TimelineSegment} (h : p ∈ (segments.filter fun id _ => keep id).entries) :
    p ∈ segments.entries :=
  List.mem_of_mem_filter h

/-- A stored record lies in the newest segment or an older one. -/
theorem toSegmentId_le_last {segments : SortedMap SegmentId TimelineSegment}
    (hw : SegmentsWf segments) {e : SegmentCheckpoint} (he : e ∈ storedRecords segments)
    {last : SegmentId} (hlast : segments.keys.getLast? = some last) : e.ckpt.toSegmentId ≤ last := by
  obtain ⟨p, hp, hep⟩ := mem_storedRecords.mp he
  rw [(hw p hp).2.2 e hep]
  have hkeys : Ascending (fun id : SegmentId => id) segments.keys := SortedMap.sorted_keys _
  have hmem : p.1 ∈ segments.keys := List.mem_map_of_mem hp
  have hle := hkeys.le_getLast hmem (List.ne_nil_of_mem hmem)
  rw [List.getLast?_eq_some_getLast (List.ne_nil_of_mem hmem)] at hlast
  rwa [Option.some.inj hlast] at hle

theorem mem_of_loadCheckpoints {cfg : StoreConfig} {s : Db β} {ids : List SegmentId}
    {es : List SegmentCheckpoint} (h : s.loadCheckpoints cfg ids = .ok es) :
    ∀ e ∈ es, e ∈ storedRecords (s.storage.segments cfg.dbId) := by
  induction ids generalizing es with
  | nil =>
    rw [← Except.ok.inj h]
    exact fun e he => absurd he List.not_mem_nil
  | cons id ids ih =>
    rw [Db.loadCheckpoints, Db.loadSegment] at h
    cases hl : (s.storage.segments cfg.dbId).lookup id with
    | none => rw [hl] at h; exact absurd h (by simp)
    | some seg =>
      rw [hl] at h
      dsimp only at h
      cases hr : s.loadCheckpoints cfg ids with
      | error e => rw [hr] at h; exact absurd h (by simp)
      | ok es' =>
        rw [hr] at h
        rw [← Except.ok.inj h]
        intro e he
        rcases List.mem_append.mp he with he | he
        · exact mem_storedRecords.mpr ⟨(id, seg), (SortedMap.mem_entries_iff _ _ _).mpr hl, he⟩
        · exact ih hr e he

/-! ## The operations -/

/-- A database that meets the invariant. -/
def Db.SoundAt (history : UInt64 → List SegmentCheckpoint) (id : UInt64) (s : Db β) : Prop :=
  Sound history id (s.storage.segments id) (s.storage.bases id) s.timeline.headCkpt s.manifest
    s.tikm

/-- The other databases keep their segments and base manifests. -/
def Db.Local (id : UInt64) (s s' : Db β) : Prop :=
  ∀ id', id' ≠ id → s'.storage.segments id' = s.storage.segments id' ∧
    s'.storage.bases id' = s.storage.bases id'

namespace Db.SoundAt

variable {history : UInt64 → List SegmentCheckpoint} {cfg : StoreConfig} {s s' : Db β}

/-- The history after a step that stores no new record. -/
theorem remembered {id : UInt64} (h : s.SoundAt history id) :
    s.SoundAt (Function.update history id
      (Org.remember (history id) (storedRecords (s.storage.segments id)))) id := by
  rw [Org.remember_of_subset h.stored, Function.update_eq_self]
  exact h

theorem refreshed (h : s.SoundAt history cfg.dbId) (hr : Db.Refreshed cfg s s') :
    s'.SoundAt history cfg.dbId ∧ Db.Local cfg.dbId s s' := by
  obtain ⟨chunks, draft, manifest, tikm, rfl, hm, ht⟩ := hr
  exact ⟨h.sees hm ht, fun _ _ => ⟨rfl, rfl⟩⟩

/-- What the fold of a compaction publishes. -/
theorem compacted (h : s.SoundAt history cfg.dbId) {m : Manifest}
    {toApply : List SegmentCheckpoint} {base high : Checkpoint} {now : ℤ}
    (hm : Sees (s.storage.bases cfg.dbId) s.manifest s.tikm m)
    (happly : ∀ e ∈ toApply, e ∈ storedRecords (s.storage.segments cfg.dbId))
    (hkey : (m.applySegments cfg.sort toApply cfg.dbId now).checkpoint ≤ base)
    (hbase : ∃ e ∈ storedRecords (s.storage.segments cfg.dbId), base ≤ e.ckpt) :
    let applied := m.applySegments cfg.sort toApply cfg.dbId now
    let dead := (s.listSegmentsInRange cfg s.timeline.baseCkpt high).takeWhile
      fun id => id < base.toSegmentId
    let s' := { s with
      storage := (s.storage.putBase cfg.dbId base applied).deleteSegments cfg.dbId dead
      timeline := s.timeline.setBaseCkpt base
      manifest := applied
      tikm := some applied }
    s'.SoundAt history cfg.dbId ∧ Db.Local cfg.dbId s s' := by
  intro applied dead s'
  have htraced : Traced history applied :=
    (h.traced m hm).applySegments fun e he => h.stored e (happly e he)
  -- the segment of the base, or a later one, is not deleted
  have hkeep : ∀ last ∈ (s.storage.segments cfg.dbId).keys.getLast?, (!dead.contains last) = true := by
    intro last hlast
    obtain ⟨e, he, hle⟩ := hbase
    have hseg := (Checkpoint.toSegmentId_mono hle).trans (toSegmentId_le_last h.wf he hlast)
    rw [Bool.not_eq_true', ← Bool.not_eq_true, List.contains_iff_mem]
    intro hmem
    have hlt := List.mem_takeWhile_imp hmem
    exact absurd (of_decide_eq_true hlt) (not_lt.mpr hseg)
  refine ⟨?_, fun id' hid => ⟨Function.update_of_ne hid _ _, Function.update_of_ne hid _ _⟩⟩
  have hsound := (h.publish htraced hkey).delete _ (fun p hp => mem_of_mem_filter hp)
    fun e he => by rwa [getLast?_storedRecords_filter h.wf hkeep] at he
  have hseg : s'.storage.segments cfg.dbId = _ := Function.update_self ..
  have hbases : s'.storage.bases cfg.dbId = _ := Function.update_self ..
  unfold Db.SoundAt
  rw [hseg, hbases]
  exact hsound

/-- **A compaction keeps the invariant.** -/
theorem compactRange (h : s.SoundAt history cfg.dbId) {high : Checkpoint}
    {select : SegmentCheckpoint → Bool}
    (hselect : ∀ e, select e = true → s.timeline.baseCkpt < e.ckpt)
    {newBase : List SegmentCheckpoint → Manifest → Checkpoint}
    (hnb : ∀ l m, newBase l m = m.checkpoint ∨
      newBase l m = (l.getLast?.map (·.ckpt)).getD default) (now : ℤ) :
    (s.compactRange cfg high select newBase now).2.SoundAt history cfg.dbId ∧
      Db.Local cfg.dbId s (s.compactRange cfg high select newBase now).2 := by
  have hrefl : s.SoundAt history cfg.dbId ∧ Db.Local cfg.dbId s s := ⟨h, fun _ _ => ⟨rfl, rfl⟩⟩
  rw [Db.compactRange]
  cases hload : s.loadCheckpoints cfg (s.listSegmentsInRange cfg s.timeline.baseCkpt high) with
  | error e => exact hrefl
  | ok es =>
    dsimp only
    split_ifs with hnil
    · exact hrefl
    · generalize hap : (es.filter select).insertionSort Db.ckptLe = toApply at hnil ⊢
      have happly : ∀ e ∈ toApply, select e = true ∧
          e ∈ storedRecords (s.storage.segments cfg.dbId) := by
        intro e he
        rw [← hap, List.mem_insertionSort, List.mem_filter] at he
        exact ⟨he.2, mem_of_loadCheckpoints hload e he.1⟩
      cases hbm : s.baseManifest cfg with
      | error e => exact hrefl
      | ok p =>
        obtain ⟨m, s'⟩ := p
        have hle := Db.baseManifest_le hbm h.keys
        obtain ⟨⟨tikm, rfl, -⟩, hm, -⟩ := Db.baseManifest_sees hbm
        have hmem := List.getLast_mem hnil
        have hlast : ∀ e ∈ toApply, e.ckpt ≤ (toApply.getLast hnil).ckpt := by
          have hsorted : toApply.Pairwise Db.ckptLe := hap ▸ List.pairwise_insertionSort _ _
          intro e he
          exact hsorted.rel_getLast he
        have hheader : ∃ e ∈ toApply,
            (m.applySegments cfg.sort toApply cfg.dbId now).checkpoint ≤ e.ckpt := by
          rcases lastCkpt_spec m toApply with ⟨e, he, -, hc⟩ | ⟨-, hc⟩
          · exact ⟨e, he, hc.ge⟩
          · refine ⟨_, hmem, ?_⟩
            have hlt := hselect _ (happly _ hmem).1
            exact (hc.trans_le hle).trans hlt.le
        -- published under its own checkpoint, or under that of the last folded record
        have hfacts : (m.applySegments cfg.sort toApply cfg.dbId now).checkpoint ≤
              newBase toApply (m.applySegments cfg.sort toApply cfg.dbId now) ∧
            ∃ e ∈ toApply, newBase toApply (m.applySegments cfg.sort toApply cfg.dbId now) ≤
              e.ckpt := by
          rcases hnb toApply (m.applySegments cfg.sort toApply cfg.dbId now) with heq | heq
          · rw [heq]
            exact ⟨le_rfl, hheader⟩
          · rw [heq, List.getLast?_eq_some_getLast hnil, Option.map_some, Option.getD_some]
            obtain ⟨e, he, hle⟩ := hheader
            exact ⟨hle.trans (hlast e he), _, hmem, le_rfl⟩
        obtain ⟨hkey, e, he, hbase⟩ := hfacts
        exact compacted h hm (fun e he => (happly e he).2) hkey ⟨e, (happly e he).2, hbase⟩

theorem runCompaction (h : s.SoundAt history cfg.dbId) (now : ℤ) :
    (s.runCompaction cfg now).2.SoundAt history cfg.dbId ∧
      Db.Local cfg.dbId s (s.runCompaction cfg now).2 := by
  rw [Db.runCompaction]
  generalize (if s.timeline.redoCkpt.lsn = 0 then s.timeline.headCkpt else s.timeline.redoCkpt) =
    upper
  split_ifs
  · exact ⟨h, fun _ _ => ⟨rfl, rfl⟩⟩
  · exact h.compactRange (fun e he => (of_decide_eq_true he).1) (fun _ _ => .inr rfl) now

theorem runCompactionThrough (h : s.SoundAt history cfg.dbId) (target : Checkpoint) (now : ℤ) :
    (s.runCompactionThrough cfg target now).2.SoundAt history cfg.dbId ∧
      Db.Local cfg.dbId s (s.runCompactionThrough cfg target now).2 := by
  rw [Db.runCompactionThrough]
  split_ifs
  · exact ⟨h, fun _ _ => ⟨rfl, rfl⟩⟩
  · exact h.compactRange (fun e he => (of_decide_eq_true he).1) (fun _ _ => .inl rfl) now

theorem sees_newestBase (bases : SortedMap Checkpoint Manifest) (manifest : Manifest)
    (tikm : Option Manifest) : Sees bases manifest tikm (newestBase bases) := by
  unfold newestBase
  cases hl : bases.entries.getLast? with
  | none => exact .inl rfl
  | some p =>
    have hmem := List.mem_of_getLast? hl
    exact .inr (.inr (.inr ⟨p.1, (SortedMap.mem_entries_iff bases p.1 p.2).mp hmem⟩))

/-- The manifest that a start opens. -/
theorem sees_reopened (bases : SortedMap Checkpoint Manifest) (manifest : Manifest)
    (tikm : Option Manifest) (tikmLost : Bool) :
    Sees bases manifest tikm ((if tikmLost then none else tikm).getD (newestBase bases)) := by
  cases ht : (if tikmLost then none else tikm) with
  | none => exact sees_newestBase _ _ _
  | some m =>
    split_ifs at ht
    exact .inr (.inr (.inl ht))

/-- **A start keeps the invariant** unless it takes a default prefix with sealed chunks. -/
theorem restart (h : s.SoundAt history cfg.dbId) (tikmLost inRecovery : Bool)
    (hd : inRecovery = true ∨ storedRecords (s.storage.segments cfg.dbId) = [] →
      Unsealed (history cfg.dbId) default) :
    (s.restart cfg tikmLost inRecovery).SoundAt history cfg.dbId ∧
      Db.Local cfg.dbId s (s.restart cfg tikmLost inRecovery) := by
  rw [Db.restart_eq]
  refine ⟨?_, fun _ _ => ⟨rfl, rfl⟩⟩
  have hm := sees_reopened (s.storage.bases cfg.dbId) s.manifest s.tikm tikmLost
  have hsound := (h.sees hm fun x hx => Option.some.inj hx ▸ hm).start
    (if inRecovery then [] else storedRecords (s.storage.segments cfg.dbId)) ?_ ?_
  · unfold Db.SoundAt
    dsimp only
    rw [headCkpt_hydrated]
    exact hsound
  · split_ifs
    · exact .inl rfl
    · exact .inr rfl
  · intro hnil
    split_ifs at hnil with hrec
    · exact hd (.inl hrec)
    · exact hd (.inr hnil)

theorem materializeBaseManifestAt (h : s.SoundAt history cfg.dbId) (ok : Bool) (ckpt : Checkpoint) :
    (s.materializeBaseManifestAt cfg ok ckpt).2.SoundAt history cfg.dbId ∧
      Db.Local cfg.dbId s (s.materializeBaseManifestAt cfg ok ckpt).2 := by
  rw [Db.materializeBaseManifestAt]
  split_ifs
  · exact ⟨h, fun _ _ => ⟨rfl, rfl⟩⟩
  · cases hn : Db.newestBaseUpTo (s.storage.bases cfg.dbId) ckpt with
    | none => exact ⟨h, fun _ _ => ⟨rfl, rfl⟩⟩
    | some p =>
      have hm : Sees (s.storage.bases cfg.dbId) s.manifest s.tikm p.2 := by
        have hmem := List.mem_of_mem_filter (List.mem_of_getLast? hn)
        exact .inr (.inr (.inr ⟨p.1, (SortedMap.mem_entries_iff _ p.1 p.2).mp hmem⟩))
      exact ⟨h.sees hm fun x hx => Option.some.inj hx ▸ hm, fun _ _ => ⟨rfl, rfl⟩⟩

/-- **Deleting the segments keeps the invariant** if all of them go or the newest one stays. -/
theorem deleteAllSegments (h : s.SoundAt history cfg.dbId) (kept : List SegmentId)
    (hkept : ∀ id ∈ (s.storage.segments cfg.dbId).keys, id ∈ kept →
      ∀ last ∈ (s.storage.segments cfg.dbId).keys.getLast?, last ∈ kept) :
    (s.deleteAllSegments cfg true kept).2.SoundAt history cfg.dbId ∧
      Db.Local cfg.dbId s (s.deleteAllSegments cfg true kept).2 := by
  refine ⟨?_, fun id' hid => ⟨Function.update_of_ne hid _ _, rfl⟩⟩
  have hids : ∀ id ∈ (s.storage.segments cfg.dbId).keys,
      (!((s.listAllSegments cfg).filter fun id => !kept.contains id).contains id) = true ↔
        id ∈ kept := by
    intro id hid
    rw [Bool.not_eq_true', ← Bool.not_eq_true, List.contains_iff_mem, List.mem_filter,
      Bool.not_eq_true', ← Bool.not_eq_true, List.contains_iff_mem]
    exact ⟨fun h => by_contra fun hk => h ⟨hid, hk⟩, fun hk h => h.2 hk⟩
  have hsound := Sound.delete h ((s.storage.segments cfg.dbId).filter fun id _ =>
    !((s.listAllSegments cfg).filter fun id => !kept.contains id).contains id)
    (fun p hp => mem_of_mem_filter hp) fun e he => ?_
  · have hseg : (s.deleteAllSegments cfg true kept).2.storage.segments cfg.dbId = _ :=
      Function.update_self ..
    unfold Db.SoundAt
    rw [hseg]
    exact hsound
  · by_cases hex : ∃ id ∈ (s.storage.segments cfg.dbId).keys, id ∈ kept
    · obtain ⟨id, hid, hk⟩ := hex
      rwa [getLast?_storedRecords_filter h.wf fun last hlast =>
        (hids last (List.mem_of_getLast? hlast)).mpr (hkept id hid hk last hlast)] at he
    · -- nothing is left
      obtain ⟨p, hp, -⟩ := mem_storedRecords.mp (List.mem_of_getLast? he)
      obtain ⟨hp, hk⟩ := List.mem_filter.mp hp
      have hmem : p.1 ∈ (s.storage.segments cfg.dbId).keys := List.mem_map_of_mem hp
      exact absurd ⟨p.1, hmem, (hids p.1 hmem).mp hk⟩ hex

theorem commitSegment_eq {out : Db.CommitOutcome} {a : Db.CommitArgs} {prev : Checkpoint}
    {F : DraftFrame} {p : SegmentCheckpoint × Db β}
    (h : s.commitSegment cfg out a prev F = .ok p) :
    p = (a.summary prev F, { s with
      storage := s.storage.setSegments cfg.dbId
        (appendRecord (s.storage.segments cfg.dbId) (a.summary prev F)) }) := by
  have hok := Db.commitSegment_ok cfg s a prev F
  rw [Db.commitSegment] at h hok
  dsimp only at h hok
  rw [if_neg (by decide), if_neg (by decide)] at hok
  split_ifs at h
  exact Except.ok.inj (h.symm.trans hok)

/-- **A commit keeps the invariant**, whether its operations fail or not. -/
theorem runCommitProtocol (h : s.SoundAt history cfg.dbId) (out : Db.CommitOutcome)
    {a : Db.CommitArgs} (hd : default < a.ckpt) (hlt : ∀ e ∈ history cfg.dbId, e.ckpt < a.ckpt) :
    (s.runCommitProtocol cfg out a).2.SoundAt (Function.update history cfg.dbId
      (Org.remember (history cfg.dbId)
        (storedRecords ((s.runCommitProtocol cfg out a).2.storage.segments cfg.dbId)))) cfg.dbId ∧
      Db.Local cfg.dbId s (s.runCommitProtocol cfg out a).2 := by
  rw [Db.runCommitProtocol]
  dsimp only
  cases hdr : s.draft.drain cfg.codec out.drain with
  | mk r draft =>
    cases r with
    | error e => exact ⟨remembered h, fun _ _ => ⟨rfl, rfl⟩⟩
    | ok F =>
      dsimp only
      split
      · exact ⟨remembered h, fun _ _ => ⟨rfl, rfl⟩⟩
      · next summary s' hc =>
        obtain ⟨rfl, rfl⟩ := Prod.mk.inj (commitSegment_eq hc)
        have hc := Sound.commit h (e := a.summary s.timeline.headCkpt F) rfl hd hlt
        have hseg : (s.storage.setSegments cfg.dbId (appendRecord (s.storage.segments cfg.dbId)
            (a.summary s.timeline.headCkpt F))).segments cfg.dbId = _ := Function.update_self ..
        split_ifs
        · refine ⟨?_, fun id' hid => ⟨Function.update_of_ne hid _ _, rfl⟩⟩
          unfold Db.SoundAt
          dsimp only
          rw [hseg]
          exact hc
        · refine ⟨?_, fun id' hid => ⟨Function.update_of_ne hid _ _, rfl⟩⟩
          unfold Db.SoundAt
          dsimp only [Storage.putDbMeta]
          rw [hseg]
          exact hc

end Db.SoundAt

end Tiko

import Tiko.Store.Backup

/-!
# Reads while relations are deleted

A compaction drops the chunks of a relation that it finds deleted, but the active window may still reach
them. A chunk of a relation that was deleted thus reads as its newest version, or is not found.

* `Db.written`: the newest version of a chunk, dropped or not; **`Tracked.written_step`**: what a step
  makes of it;
* `Dropped`: a compaction has dropped that version;
* **`Tracked.getChunk_written`**: a read returns the newest version, or finds nothing and it is dropped;
* **`getChunk_deletes`**: the reads of a run, which may delete relations and create them again.
-/

namespace Tiko

open Lib

variable {β : Type}

/-! ## The newest version -/

/-- The newest version of a chunk: the object of the current interval, or that of the newest record that
has the chunk. -/
def Db.written (cfg : StoreConfig) (s : Db β) (H : List SegmentCheckpoint) (tag : ChunkTag) :
    Option (Chunk β) :=
  (s.storage.chunks cfg.dbId s.timeline.headCkpt tag).or (newest (objectOf cfg s.storage tag) H)

/-- A compaction has found the relation deleted, and the chunk has not been written above it. -/
def Dropped (cfg : StoreConfig) (s : Db β) (l : Ledger) (tag : ChunkTag) : Prop :=
  l.frame.containsChunk tag = false ∧ ∃ k ∈ s.folds cfg, deletedAt l.records k tag.relFork = true ∧
    ∀ e ∈ l.records, e.containsChunk tag = true → e.ckpt ≤ k

theorem isBlank_eq_false_of_containsChunk {e : SegmentCheckpoint} {tag : ChunkTag}
    (h : e.containsChunk tag = true) : e.isBlank = false := by
  by_contra hb
  rw [SegmentCheckpoint.containsChunk_of_isBlank (by simpa using hb) tag] at h
  exact absurd h (by simp)

/-- The version that a manifest keeps is the newest one, unless that is dropped. -/
theorem keptRef_cases {H : List SegmentCheckpoint} (hasc : Ascending SegmentCheckpoint.ckpt H)
    (dbId : UInt64) (folds : List Checkpoint) (c : Checkpoint) (tag : ChunkTag) :
    keptRef dbId H folds c tag = newest (·.refAt dbId tag) (upTo c H) ∨
    keptRef dbId H folds c tag = none ∧ ∃ k ∈ folds, deletedAt H k tag.relFork = true ∧
      ∀ e ∈ upTo c H, e.containsChunk tag = true → e.ckpt ≤ k := by
  have hup : Ascending SegmentCheckpoint.ckpt (upTo c H) := hasc.sublist List.filter_sublist
  cases hn : newest (·.refAt dbId tag) (upTo c H) with
  | none =>
    refine .inl (newest_eq_none_iff.mpr fun e he => ?_)
    rw [newest_eq_none_iff.mp hn e he, ite_self]
  | some r =>
    obtain ⟨e, he, hr, hmax⟩ := (newest_eq_some_iff hup).mp hn
    cases hd : droppedAt H folds c tag.relFork e with
    | false =>
      refine .inl ((newest_eq_some_iff hup).mpr ⟨e, he, ?_, fun x hx hs => hmax x hx ?_⟩)
      · rw [hd, if_neg Bool.false_ne_true]
        exact hr
      · split_ifs at hs
        · exact absurd hs (by simp)
        · exact hs
    | true =>
      obtain ⟨k, hk, hkc, hkd, hek⟩ := droppedAt_iff.mp hd
      have hle : ∀ x ∈ upTo c H, x.containsChunk tag = true → x.ckpt ≤ k := fun x hx hc =>
        (hmax x hx (SegmentCheckpoint.refAt_isSome.trans hc)).trans hek
      refine .inr ⟨newest_eq_none_iff.mpr fun x hx => ?_, k, hk, hkd, hle⟩
      cases hc : x.containsChunk tag with
      | false => rw [SegmentCheckpoint.refAt, hc, if_neg Bool.false_ne_true, ite_self]
      | true => exact if_pos (droppedAt_iff.mpr ⟨k, hk, hkc, hkd, hle x hx hc⟩)

/-! ## Reads -/

section Reads

variable {cfg : StoreConfig} {s : Db β} {g : Flat β} {l : Ledger}

/-- **A read returns the newest version, or finds nothing and that version is dropped.** -/
theorem Tracked.getChunk_written (h : Tracked cfg s g l) (tag : ChunkTag) :
    (s.getChunk cfg tag).1 = found (s.written cfg l.records tag) ∨
    (s.getChunk cfg tag).1 = .error .notFound ∧ Dropped cfg s l tag := by
  have hi := h.inv
  obtain ⟨old, new, hl⟩ := hi.layers
  obtain ⟨m, tikm, hbm, -, -⟩ := Db.baseManifest_of_layers hl
  rw [Db.getChunk, Db.probeHead_eq hi.draft hi.objects tag, Db.written]
  cases hhead : s.storage.chunks cfg.dbId s.timeline.headCkpt tag with
  | some c => exact .inl rfl
  | none =>
    have hframe : l.frame.containsChunk tag = false := by
      rw [← hi.objects.live tag, hhead]
      rfl
    dsimp only
    rw [Option.none_or]
    rcases hi.records.searchChunk tag with ⟨c, hn, hp | ⟨hp, hr⟩⟩ | ⟨hp, hr, hnone⟩
    · rw [hp, hn]
      exact .inl rfl
    · rw [hp, hr, hn]
      exact .inl rfl
    · rw [hp, hr]
      dsimp only
      rw [hbm]
      dsimp only
      -- every record with the chunk lies below the base
      have hbelow : ∀ e ∈ l.records, e.containsChunk tag = true → e ∈ upTo s.timeline.baseCkpt l.records := by
        intro e he hc
        refine mem_upTo.mpr ⟨he, not_lt.mp fun hlt => ?_⟩
        have hs := hi.objects.sealed e he tag
        rw [← objectOf, hnone e he hlt, hc] at hs
        exact absurd hs (by simp)
      have hlookup := (h.anchored.baseManifest hi.log hbm).1.chunks tag
      cases hdel : deletedAt l.records s.timeline.baseCkpt tag.relFork with
      | true =>
        rw [hdel, if_pos rfl] at hlookup
        rw [hlookup]
        refine .inr ⟨rfl, hframe, ?_⟩
        rcases h.anchored.folded.exists_same with ⟨k, hk, hs⟩ | hblank
        · refine ⟨k, hk, (deletedAt_same hs _).trans hdel, fun e he hc => ?_⟩
          exact (hs e he (isBlank_eq_false_of_containsChunk hc)).mpr (mem_upTo.mp (hbelow e he hc)).2
        · rw [deletedAt_eq_false hblank] at hdel
          exact absurd hdel (by simp)
      | false =>
        rw [hdel, if_neg Bool.false_ne_true] at hlookup
        rcases keptRef_cases hi.log.ascending_ckpt cfg.dbId (s.folds cfg) s.timeline.baseCkpt tag with
          hkept | ⟨hkept, k, hk, hkd, hall⟩
        · refine .inl ?_
          rw [← newest_upTo hnone, hi.records.newest_objectOf tag fun e he => (mem_upTo.mp he).1,
            ← hkept, ← hlookup]
          cases m.lookup tag with
          | none => rfl
          | some r =>
            dsimp only [Option.bind_some]
            cases s.storage.chunks r.dbId r.ckpt tag <;> rfl
        · rw [hlookup, hkept]
          exact .inr ⟨rfl, hframe, k, hk, hkd, fun e he hc => hall e (hbelow e he hc) hc⟩

end Reads

/-! ## Steps -/

section Steps

variable {cfg : StoreConfig} {s : Db β} {g : Flat β} {l : Ledger}

theorem Db.written_congr {s' : Db β} (hc : s'.storage.chunks = s.storage.chunks)
    (hh : s'.timeline.headCkpt = s.timeline.headCkpt) (H : List SegmentCheckpoint) (tag : ChunkTag) :
    s'.written cfg H tag = s.written cfg H tag := by
  have hobj : objectOf cfg s'.storage tag = objectOf cfg s.storage tag := by
    funext e
    rw [objectOf, hc, objectOf]
  rw [written, hc, hh, hobj, written]

theorem Db.compactRange_frame (cfg : StoreConfig) (s : Db β) (high : Checkpoint)
    (select : SegmentCheckpoint → Bool) (newBase : List SegmentCheckpoint → Manifest → Checkpoint) (now : ℤ) :
    (s.compactRange cfg high select newBase now).2.storage.chunks = s.storage.chunks ∧
      (s.compactRange cfg high select newBase now).2.timeline.headCkpt = s.timeline.headCkpt := by
  rw [compactRange]
  cases s.loadCheckpoints cfg (s.listSegmentsInRange cfg s.timeline.baseCkpt high) with
  | error e => exact ⟨rfl, rfl⟩
  | ok scs =>
    dsimp only
    split_ifs
    · exact ⟨rfl, rfl⟩
    · cases hb : s.baseManifest cfg with
      | error e => exact ⟨rfl, rfl⟩
      | ok p =>
        obtain ⟨⟨tikm, hs, -⟩, -, -⟩ := baseManifest_sees hb
        dsimp only
        rw [hs]
        exact ⟨rfl, rfl⟩

/-- A PUT under the head prefix is the newest version of its chunk. -/
theorem Inv.written_putChunkAtHead {H : List SegmentCheckpoint} {F : DraftFrame} (h : Inv cfg s g H F)
    (tag' : ChunkTag) (c : Chunk β) (tag : ChunkTag) :
    (s.putChunkAtHead cfg .ok tag' c).written cfg H tag =
      if tag = tag' then some c else s.written cfg H tag := by
  have hlog : newest (objectOf cfg (s.storage.putChunk cfg.dbId s.timeline.headCkpt tag' c) tag) H =
      newest (objectOf cfg s.storage tag) H :=
    newest_congr fun e he => objectOf_putChunk h.log tag' tag c he
  have hs : (s.putChunkAtHead cfg .ok tag' c).written cfg H tag =
      ((s.storage.putChunk cfg.dbId s.timeline.headCkpt tag' c).chunks cfg.dbId s.timeline.headCkpt
        tag).or (newest (objectOf cfg (s.storage.putChunk cfg.dbId s.timeline.headCkpt tag' c) tag) H) :=
    rfl
  rw [hs, hlog, Storage.chunks_putChunk, Db.written]
  by_cases ht : tag = tag' <;> simp [ht]

/-- What a step makes of the newest version of a chunk: a patch is merged over what a read returns. -/
def Db.rewritten [Zero β] (cfg : StoreConfig) (s : Db β) (tag : ChunkTag) (v : Option (Chunk β)) :
    Step β → Option (Chunk β)
  | .patchChunk tag' blockOffset data =>
    if tag = tag' then
      some (((s.getChunk cfg tag).1.toOption.getD .zero).splice blockOffset data)
    else v
  | _ => v

theorem Inv.written_patchChunk [Zero β] {H : List SegmentCheckpoint} {F : DraftFrame}
    (h : Inv cfg s g H F) (tag' : ChunkTag) (blockOffset : ℕ) (data : List β) (tag : ChunkTag) :
    (s.patchChunk cfg .ok tag' blockOffset data).2.written cfg H tag =
      s.rewritten cfg tag (s.written cfg H tag) (.patchChunk tag' blockOffset data) := by
  have hput : ∀ (m : Manifest) (t : Option Manifest) (c : Chunk β),
      Inv cfg { s with manifest := m, tikm := t } g H F →
      (Db.putChunkAtHead cfg .ok { s with manifest := m, tikm := t } tag' c).written cfg H tag =
        if tag = tag' then some c else s.written cfg H tag := by
    intro m t c hm
    have hsame : Db.written cfg { s with manifest := m, tikm := t } H tag = s.written cfg H tag :=
      Db.written_congr rfl rfl H tag
    rw [hm.written_putChunkAtHead, hsame]
  rw [Db.patchChunk, Db.rewritten]
  by_cases hfull : Chunk.isFull blockOffset data = true
  · rw [if_pos hfull, Chunk.splice_of_isFull hfull]
    exact hput s.manifest s.tikm _ h
  · obtain ⟨r, m, tikm, hr, hinv, herr, -⟩ := h.getChunk_of_inv tag'
    rw [if_neg hfull, hr]
    by_cases ht : tag = tag'
    · subst ht
      rw [if_pos rfl, hr]
      cases r with
      | ok c => exact (hput m tikm _ hinv).trans (if_pos rfl)
      | error e =>
        obtain rfl := herr e rfl
        exact (hput m tikm _ hinv).trans (if_pos rfl)
    · rw [if_neg ht]
      cases r with
      | ok c => exact (hput m tikm _ hinv).trans (if_neg ht)
      | error e =>
        obtain rfl := herr e rfl
        exact (hput m tikm _ hinv).trans (if_neg ht)

/-- **A step writes what it patches, and keeps the newest versions of all other chunks.** -/
theorem Tracked.written_step [Zero β] (h : Tracked cfg s g l) {st : Step β} (hok : st.LsnAscending g)
    (tag : ChunkTag) : (s.step cfg st).written cfg (l.step st).records tag =
      s.rewritten cfg tag (s.written cfg l.records tag) st := by
  have hi := h.inv
  cases st with
  | patchChunk tag' blockOffset data => exact hi.written_patchChunk tag' blockOffset data tag
  | putMeta rf m => exact Db.written_congr rfl rfl _ _
  | spill => exact Db.written_congr rfl rfl _ _
  | commit a =>
    have hlt : s.timeline.headCkpt < a.ckpt := hi.last ▸ hok.ordered
    obtain ⟨d, hd, -⟩ := DraftBuffer.drain_of_holds hi.draft
    rw [Db.step, Db.runCommitProtocol_ok hd a, Ledger.step, h.head, hi.last]
    refine Eq.trans ?_ (congrArg (fun o : Option (Chunk β) => o.or (s.written cfg l.records tag))
      (hi.objects.above a.ckpt hlt tag))
    rw [Db.written, newest_append_singleton]
    rfl
  | compact now =>
    rw [Db.step, Db.runCompaction]
    generalize (if s.timeline.redoCkpt.lsn = 0 then s.timeline.headCkpt else s.timeline.redoCkpt) = upper
    by_cases hle : upper ≤ s.timeline.baseCkpt
    · rw [if_pos hle]
      rfl
    · rw [if_neg hle]
      have hf := Db.compactRange_frame cfg s upper
      exact Db.written_congr (hf _ _ now).1 (hf _ _ now).2 _ _
  | compactThrough target now =>
    rw [Db.step, Db.runCompactionThrough]
    by_cases hle : target ≤ s.timeline.baseCkpt
    · rw [if_pos hle]
      rfl
    · rw [if_neg hle]
      have hf := Db.compactRange_frame cfg s target
      exact Db.written_congr (hf _ _ now).1 (hf _ _ now).2 _ _
  | restart tikmLost =>
    refine Db.written_congr ?_ ?_ _ _
    · rw [Db.step, Db.restart_eq]
    · exact (hi.restart hok tikmLost).last.symm.trans hi.last
  | getChunk tag' =>
    obtain ⟨r, m, tikm, hr, -, -⟩ := hi.getChunk_of_inv tag'
    rw [Db.step, hr]
    exact Db.written_congr rfl rfl _ _
  | getMeta rf =>
    exact Db.written_congr (congrArg _ (Db.getMeta_storage s rf))
      (congrArg _ (Db.getMeta_rebased cfg s rf).2.1) _ _

end Steps

/-! ## Runs -/

section Run

variable [Zero β] {cfg : StoreConfig} {s : Db β} {steps : List (Step β)} {tag : ChunkTag}

/-- A patch of a chunk that is found is merged over its newest version. -/
theorem Db.rewritten_found {v : Option (Chunk β)} (h : (s.getChunk cfg tag).1 = found v)
    (st : Step β) : s.rewritten cfg tag v st = patched tag v st := by
  cases st with
  | patchChunk tag' blockOffset data =>
    rw [rewritten, patched, h]
    cases v <;> rfl
  | _ => rfl

/-- A patch of a chunk that is not found is merged over zeros. -/
theorem Db.rewritten_notFound (h : (s.getChunk cfg tag).1 = .error .notFound) (v : Option (Chunk β))
    (st : Step β) :
    s.rewritten cfg tag v st = patched tag v st ∨ s.rewritten cfg tag v st = patched tag none st := by
  cases st with
  | patchChunk tag' blockOffset data =>
    rw [rewritten, patched, patched, h]
    by_cases ht : tag = tag'
    · exact .inr (by rw [if_pos ht, if_pos ht]; rfl)
    · exact .inl (by rw [if_neg ht, if_neg ht])
  | _ => exact .inl rfl

theorem contents_append_singleton (tag : ChunkTag) (steps : List (Step β)) (st : Step β) :
    contents tag (steps ++ [st]) = patched tag (contents tag steps) st := by
  rw [contents, List.foldl_append, ← contents]
  rfl

/-- The newest version of a chunk is what the run has built since the chunk was last dropped. -/
theorem written_run (hs : IsFresh cfg s) (hok : Along Step.LsnAscending Flat.fresh steps)
    (tag : ChunkTag) : ∃ early late, steps = early ++ late ∧
      (s.run cfg steps).written cfg (steps.foldl Ledger.step .fresh).records tag =
        contents tag late ∧
      (early = [] ∨ Dropped cfg (s.run cfg early) (early.foldl Ledger.step .fresh) tag) := by
  induction steps using List.reverseRecOn with
  | nil =>
    refine ⟨[], [], rfl, ?_, .inl rfl⟩
    rw [Db.written, Db.run, List.foldl_nil, hs.chunks]
    rfl
  | append_singleton steps st ih =>
    obtain ⟨hok₀, hst, -⟩ := along_append.mp hok
    obtain ⟨early, late, hsplit, hval, hearly⟩ := ih hok₀
    have h := (tracked_of_isFresh hs).run hok₀
    have hstep := h.written_step hst tag
    rw [Db.run, List.foldl_append, List.foldl_append]
    change ∃ early late, _ ∧ ((s.run cfg steps).step cfg st).written cfg
      ((steps.foldl Ledger.step .fresh).step st).records tag = _ ∧ _
    rcases h.getChunk_written tag with hread | ⟨hread, hdrop⟩
    · refine ⟨early, late ++ [st], by rw [hsplit, List.append_assoc], ?_, hearly⟩
      rw [hstep, Db.rewritten_found hread, hval, contents_append_singleton]
    · rcases Db.rewritten_notFound hread _ st with hr | hr
      · refine ⟨early, late ++ [st], by rw [hsplit, List.append_assoc], ?_, hearly⟩
        rw [hstep, hr, hval, contents_append_singleton]
      · -- the chunk starts again from zeros
        refine ⟨steps, [st], rfl, ?_, .inr hdrop⟩
        rw [hstep, hr]
        rfl

/-- **Chunk reads in runs that delete relations.** After every run from a fresh cluster in which the
LSNs of commits ascend, a read returns the contents that the patches of the run build from some point
on, and not found if there are none. That point is the start of the run, or one at which a compaction
has found the relation deleted and dropped all versions of the chunk. -/
theorem getChunk_deletes (hs : IsFresh cfg s) (hok : Along Step.LsnAscending Flat.fresh steps)
    (tag : ChunkTag) : ∃ early late, steps = early ++ late ∧
      ((s.run cfg steps).getChunk cfg tag).1 = found (contents tag late) ∧
      (early = [] ∨ Dropped cfg (s.run cfg early) (early.foldl Ledger.step .fresh) tag) := by
  rcases ((tracked_of_isFresh hs).run hok).getChunk_written tag with hread | ⟨hread, hdrop⟩
  · obtain ⟨early, late, hsplit, hval, hearly⟩ := written_run hs hok tag
    exact ⟨early, late, hsplit, hread.trans (congrArg found hval), hearly⟩
  · exact ⟨steps, [], (List.append_nil _).symm, hread, .inr hdrop⟩

theorem getChunk_exampleRecreated : ∃ early late, exampleRecreated = early ++ late ∧
    ((freshDb.run exampleConfig exampleRecreated).getChunk exampleConfig Manifest.exampleTag).1 =
      found (contents Manifest.exampleTag late) ∧
    (early = [] ∨ Dropped exampleConfig (freshDb.run exampleConfig early)
      (early.foldl Ledger.step .fresh) Manifest.exampleTag) :=
  getChunk_deletes isFresh_freshDb (by decide) Manifest.exampleTag

end Run

end Tiko

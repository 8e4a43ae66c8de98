import Tiko.Compaction.Reopen
import Tiko.Store.Backup
import Tiko.Store.Effects
import Tiko.Store.Seeds

/-!
# Killed compactions

A compaction can be killed between any two of its effects, and its deletes can fail. The next start
opens the local manifest file or the newest stored manifest, whichever of them is ahead, and fills the
window from the segments that are left.

* `Complete`: a manifest and the stored segments hold the log between them;
* `Survives`: what a start relies on; `Db.Linked`: the records that it puts into the window follow each
  other;
* `IsSeeded`: a database that has been started on a seed;
* **`Running`**: the invariant of a database between crashes, with a lemma for each step.
-/

namespace Tiko

open Lib

variable {β : Type} {cfg : StoreConfig} {seed : Seed cfg}

/-! ## What a start relies on -/

/-- The manifest holds the log up to its checkpoint, and the segments hold the records above it. -/
structure Complete (seed : Seed cfg) (H : List SegmentCheckpoint)
    (segments : SortedMap SegmentId TimelineSegment) (m : Manifest) : Prop where
  snapshot : SeedSnapshot seed H m
  stored : ∀ e ∈ H, e.isBlank = false → m.checkpoint < e.ckpt → e ∈ storedRecords segments

/-- What the storage and the local manifest file keep of the log. -/
structure Survives (seed : Seed cfg) (storage : Storage β) (tikm : Option Manifest)
    (H : List SegmentCheckpoint) (head : Checkpoint) : Prop where
  log : Log H head
  above : ∀ e ∈ H, seed.key < e.ckpt
  wf : SegmentsWf (storage.segments cfg.dbId)
  sub : (storedRecords (storage.segments cfg.dbId)).Sublist H
  last : (storedRecords (storage.segments cfg.dbId)).getLast? = H.getLast?
  tikm : ∀ m, tikm = some m → Complete seed H (storage.segments cfg.dbId) m
  bases : ∀ key m, (storage.bases cfg.dbId).lookup key = some m →
    SeedSnapshot seed H m ∧ Covers H key m ∧ (key ≤ head ∨ key ≤ seed.key)
  newest : Complete seed H (storage.segments cfg.dbId) (newestBase (storage.bases cfg.dbId))

/-- Every record is written under the checkpoint of the next older one. -/
def Linked (l : List SegmentCheckpoint) : Prop := l.IsChain fun newer older => newer.prevCkpt = older.ckpt

instance : DecidablePred Linked := fun l =>
  inferInstanceAs (Decidable (l.IsChain fun newer older => newer.prevCkpt = older.ckpt))

/-- The records that a start puts into the window follow each other. -/
def Db.Linked (cfg : StoreConfig) (s : Db β) : Prop :=
  Tiko.Linked ((storedRecords (s.storage.segments cfg.dbId)).reverse.take activeWindowSize)

instance (s : Db β) : Decidable (s.Linked cfg) :=
  inferInstanceAs (Decidable (Tiko.Linked _))

theorem Log.linked {H : List SegmentCheckpoint} {head : Checkpoint} (h : Log H head) :
    Linked H.reverse ∧ ∀ e ∈ H.reverse.head?, e.ckpt = head := by
  induction h with
  | nil => exact ⟨.nil, fun e he => absurd he (by simp)⟩
  | @commit H head e hlog hprev hlt ih =>
    rw [List.reverse_append, List.reverse_singleton, List.singleton_append]
    refine ⟨List.isChain_cons.mpr ⟨fun x hx => ?_, ih.1⟩, fun x hx => ?_⟩
    · rw [hprev, ih.2 x hx]
    · rw [Option.some.inj hx]

/-- Linked records of a log, from its newest one on, are the newest ones. -/
theorem Linked.isPrefix {l L : List SegmentCheckpoint} (h : Linked l) (hL : Linked L)
    (hsub : l.Sublist L) (hdesc : L.Pairwise fun a b => b.ckpt < a.ckpt)
    (hhead : l ≠ [] → l.head? = L.head?) : l <+: L := by
  induction l generalizing L with
  | nil => exact List.nil_prefix
  | cons a l ih =>
    cases L with
    | nil => exact absurd hsub (by simp)
    | cons b L =>
      obtain rfl : a = b := by simpa using hhead (by simp)
      have hsub' := List.cons_sublist_cons.mp hsub
      refine List.cons_prefix_cons.mpr ⟨rfl, ih h.tail hL.tail hsub' hdesc.of_cons fun hne => ?_⟩
      -- the next of both is written under the same checkpoint
      cases l with
      | nil => exact absurd rfl hne
      | cons c l =>
        cases L with
        | nil => exact absurd hsub' (by simp)
        | cons d L =>
          have hc : a.prevCkpt = c.ckpt := (List.isChain_cons_cons.mp h).1
          have hd : a.prevCkpt = d.ckpt := (List.isChain_cons_cons.mp hL).1
          have hmem : c ∈ d :: L := hsub'.mem List.mem_cons_self
          rcases List.mem_cons.mp hmem with rfl | hmem
          · rfl
          · have hlt := (List.pairwise_cons.mp hdesc.of_cons).1 c hmem
            exact absurd (hc.symm.trans hd) hlt.ne

theorem hydrated_take (t : TimelineState) (l : List SegmentCheckpoint) (c : Checkpoint) :
    hydrated t l c = hydrated t (l.reverse.take activeWindowSize).reverse c := by
  rw [hydrated, hydrated, List.reverse_reverse, List.take_take, Nat.min_self]

namespace Survives

variable {s : Db β} {H : List SegmentCheckpoint} {head : Checkpoint} {tikmLost : Bool}

/-- The manifest that a start opens. -/
theorem openedManifest (h : Survives seed s.storage s.tikm H head) :
    Complete seed H (s.storage.segments cfg.dbId) (s.openedManifest cfg tikmLost) := by
  rw [Db.openedManifest]
  cases ht : (if tikmLost then none else s.tikm) with
  | none => exact h.newest
  | some m =>
    refine h.tikm m ?_
    split_ifs at ht
    exact ht

/-- The newest stored record is at the head. -/
theorem headCkpt_hydrated (h : Survives seed s.storage s.tikm H head) (t : TimelineState)
    (c : Checkpoint) :
    (hydrated t.init (storedRecords (s.storage.segments cfg.dbId)) c).headCkpt = head := by
  rw [Tiko.headCkpt_hydrated, h.last]
  by_cases hH : H = []
  · rw [hH, h.log.head_of_nil hH]
    rfl
  · rw [List.getLast?_eq_some_getLast hH, Option.map_some, Option.getD_some, h.log.getLast_ckpt hH]

/-- The window of a start mirrors the last records of the log. -/
theorem window (h : Survives seed s.storage s.tikm H head) (hlink : s.Linked cfg) (t : TimelineState)
    (c : Checkpoint) : Window (hydrated t.init (storedRecords (s.storage.segments cfg.dbId)) c) H := by
  have hpos : activeWindowSize ≠ 0 := by decide
  have hne : H ≠ [] → storedRecords (s.storage.segments cfg.dbId) ≠ [] := by
    intro hH hnil
    have hlast := h.last
    rw [hnil, List.getLast?_eq_some_getLast hH] at hlast
    exact absurd hlast (by simp)
  have hprefix : (storedRecords (s.storage.segments cfg.dbId)).reverse.take activeWindowSize <+:
      H.reverse := by
    refine hlink.isPrefix h.log.linked.1 ((List.take_sublist _ _).trans h.sub.reverse)
      (List.pairwise_reverse.mpr h.log.ascending_ckpt) fun _ => ?_
    rw [List.head?_take, if_neg hpos, List.head?_reverse, List.head?_reverse, h.last]
  rw [hydrated_take]
  refine (window_hydrated t _ c).of_suffix ?_ fun hH hnil => ?_
  · rwa [← List.reverse_prefix, List.reverse_reverse]
  · rw [List.reverse_eq_nil_iff, List.take_eq_nil_iff] at hnil
    exact hne hH (List.reverse_eq_nil_iff.mp (hnil.resolve_left hpos))

/-- **The shared memory that a start rebuilds.** -/
theorem records (h : Survives seed s.storage s.tikm H head) (hlink : s.Linked cfg)
    (hsealed : ∀ e ∈ H, ∀ tag,
      (s.storage.chunks cfg.dbId e.prevCkpt tag).isSome = e.containsChunk tag) :
    (s.restart cfg tikmLost false).Records cfg H := by
  have hbase := baseCkpt_hydrated s.timeline (storedRecords (s.storage.segments cfg.dbId))
    (s.openedManifest cfg tikmLost).checkpoint
  have hhead := h.headCkpt_hydrated s.timeline (s.openedManifest cfg tikmLost).checkpoint
  rw [Db.restart_eq]
  refine ⟨?_, h.window hlink _ _, h.wf, h.sub, fun e he hb hlt => ?_, hsealed⟩
  · exact hhead.symm ▸ h.log
  · exact h.openedManifest.stored e he hb (hbase ▸ hlt)

end Survives

/-- A commit adds a record to the log and to the stored segments. -/
theorem Survives.commit {S S' : Storage β} {tikm : Option Manifest} {H : List SegmentCheckpoint}
    {head : Checkpoint} {e : SegmentCheckpoint} (h : Survives seed S tikm H head)
    (hprev : e.prevCkpt = head) (hlt : head < e.ckpt) (hkey : seed.key < e.ckpt)
    (hseg : S'.segments cfg.dbId = appendRecord (S.segments cfg.dbId) e)
    (hbases : S'.bases cfg.dbId = S.bases cfg.dbId) :
    Survives seed S' tikm (H ++ [e]) e.ckpt ∧
      ∀ x ∈ H ++ [e], (x ∈ H → x ∈ storedRecords (S.segments cfg.dbId)) →
        x ∈ storedRecords (S'.segments cfg.dbId) := by
  have hnew : ∀ x ∈ [e], head < x.ckpt ∧ seed.key < x.ckpt := fun x hx => by
    rw [List.mem_singleton.mp hx]
    exact ⟨hlt, hkey⟩
  have hids := h.wf.ids_le fun x hx => (h.log.bounds x (h.sub.mem hx)).2.2.trans hlt.le
  have hrecords := storedRecords_appendRecord hids
  rw [← hseg] at hrecords
  have hkeep : ∀ x ∈ H ++ [e], (x ∈ H → x ∈ storedRecords (S.segments cfg.dbId)) →
      x ∈ storedRecords (S'.segments cfg.dbId) := by
    intro x hx hold
    rw [hrecords]
    exact (List.mem_append.mp hx).elim (fun hx => List.mem_append_left _ (hold hx))
      (List.mem_append_right _)
  have hcomplete : ∀ m, Complete seed H (S.segments cfg.dbId) m →
      Complete seed (H ++ [e]) (S'.segments cfg.dbId) m := fun m hm =>
    ⟨hm.snapshot.append h.log hnew, fun x hx hb hlt => hkeep x hx fun hx => hm.stored x hx hb hlt⟩
  refine ⟨⟨h.log.commit hprev hlt, fun x hx => ?_, ?_, ?_, ?_, fun m hm => hcomplete m (h.tikm m hm),
    fun k m hm => ?_, hbases ▸ hcomplete _ h.newest⟩, hkeep⟩
  · exact (List.mem_append.mp hx).elim (h.above x) fun hx => (hnew x hx).2
  · rw [hseg]
    exact wf_appendRecord h.wf
  · rw [hrecords]
    exact h.sub.append_right _
  · rw [hrecords, List.getLast?_concat, List.getLast?_concat]
  · rw [hbases] at hm
    obtain ⟨hs, hc, hk⟩ := h.bases k m hm
    have hbelow : k < e.ckpt := hk.elim (·.trans_lt hlt) (·.trans_lt hkey)
    refine ⟨hs.append h.log hnew, ⟨hc.header_le, fun x hx hb hle => ?_⟩, .inl hbelow.le⟩
    rcases List.mem_append.mp hx with hx | hx
    · exact hc.old_le x hx hb hle
    · rw [List.mem_singleton.mp hx] at hle
      exact absurd hbelow (not_lt.mpr hle)

/-! ## Reads -/

theorem Covers.same {H : List SegmentCheckpoint} {k : Checkpoint} {m : Manifest} (h : Covers H k m) :
    SameUpTo H k m.checkpoint :=
  fun e he hb => ⟨h.old_le e he hb, fun hle => hle.trans h.header_le⟩

namespace Db.Records

variable {s t : Db β} {H : List SegmentCheckpoint} {m : Manifest}

/-- A read below the draft finds the newest metadata of the log, or that of the seed. -/
theorem getMeta (h : s.Records cfg H) (hb : s.baseManifest cfg = .ok (m, t)) (hm : SeedSnapshot seed H m)
    (hc : Covers H s.timeline.baseCkpt m) {rf : RelFork} {v : Option RelForkMeta}
    (hdraft : s.draft.getRelfork cfg.codec true rf = .ok v) :
    ∃ s', (s' = s ∨ s' = t) ∧ s.getMeta cfg rf = (found (v.or ((newest (·.relforkMeta rf) H).or
      (seed.manifest.lookupRelforkMeta rf))), s') := by
  rw [Db.getMeta, hdraft]
  cases v with
  | some md => exact ⟨s, .inl rfl, rfl⟩
  | none =>
    rw [Option.none_or]
    dsimp only
    rcases h.searchMeta rf with ⟨md, c, hn, hw⟩ | ⟨oldest, r, hw, hr, ⟨md, rfl, hn⟩ | ⟨rfl, hnone⟩⟩
    · rw [hw, hn]
      exact ⟨s, .inl rfl, rfl⟩
    · rw [hw, hn]
      dsimp only
      rw [Db.getMetaBelow, hr]
      exact ⟨s, .inl rfl, rfl⟩
    · -- nothing above the base has a value
      have hblank : ∀ e ∈ H, e.isBlank = true → e.relforkMeta rf = none :=
        fun e _ he => SegmentCheckpoint.relforkMeta_of_isBlank he rf
      rw [hw]
      dsimp only
      rw [Db.getMetaBelow, hr]
      dsimp only
      rw [hb, ← newest_upTo hnone, newest_upTo_same hblank hc.same, ← hm.metas]
      dsimp only
      refine ⟨t, .inr rfl, ?_⟩
      cases m.lookupRelforkMeta rf <;> rfl

/-- What a snapshot refers to is the newest version up to its checkpoint, or that of the seed. -/
theorem lookup_bind (h : s.Records cfg H) (hm : SeedSnapshot seed H m) {tag : ChunkTag}
    (htag : Readable seed H tag) :
    ((m.lookup tag).bind fun r => s.storage.chunks r.dbId r.ckpt tag) =
      (newest (objectOf cfg s.storage tag) (upTo m.checkpoint H)).or (seed.chunk s.storage tag) := by
  rw [hm.chunks tag htag, h.newest_objectOf tag fun e he => (mem_upTo.mp he).1]
  cases hn : newest (·.refAt cfg.dbId tag) (upTo m.checkpoint H) with
  | none => rfl
  | some r =>
    -- the object of a record is there
    obtain ⟨e, he, hr⟩ := List.exists_of_findSome?_eq_some hn
    have heH := (mem_upTo.mp (List.mem_reverse.mp he)).1
    rw [SegmentCheckpoint.refAt] at hr
    split_ifs at hr with hcontains
    have hobj : (s.storage.chunks r.dbId r.ckpt tag).isSome = true := by
      rw [← Option.some.inj hr]
      exact (h.sealed e heH tag).trans hcontains
    obtain ⟨c, hc⟩ := Option.isSome_iff_exists.mp hobj
    simp only [Option.some_or, Option.bind_some, hc]

/-- A read of a chunk finds what the head prefix has, or the newest version of the log, or that of the
seed, if the chunk is readable. -/
theorem getChunk (h : s.Records cfg H) (hb : s.baseManifest cfg = .ok (m, t)) (hm : SeedSnapshot seed H m)
    (hc : Covers H s.timeline.baseCkpt m) (hst : t.storage = s.storage) {tag : ChunkTag}
    {v : Option (Chunk β)} (hhead : (if s.draft.containsChunk tag then
      s.tryReadChunkAt cfg tag s.timeline.headCkpt else none) = v) :
    ∃ r s', (s' = s ∨ s' = t) ∧ s.getChunk cfg tag = (r, s') ∧
      (∀ e, r = .error e → e = .notFound) ∧
      (Readable seed H tag → r = found (v.or ((newest (objectOf cfg s.storage tag) H).or
        (seed.chunk s.storage tag)))) := by
  rw [Db.getChunk, hhead]
  cases v with
  | some c => exact ⟨.ok c, s, .inl rfl, rfl, fun e he => absurd he (by simp), fun _ => rfl⟩
  | none =>
    rw [Option.none_or]
    dsimp only
    rcases h.searchChunk tag with ⟨c, hn, hp | ⟨hp, hr⟩⟩ | ⟨hp, hr, hnone⟩
    · rw [hp, hn]
      exact ⟨.ok c, s, .inl rfl, rfl, fun e he => absurd he (by simp), fun _ => rfl⟩
    · rw [hp, hr, hn]
      exact ⟨.ok c, s, .inl rfl, rfl, fun e he => absurd he (by simp), fun _ => rfl⟩
    · rw [hp, hr]
      dsimp only
      rw [hb]
      dsimp only
      refine ⟨found ((m.lookup tag).bind fun r => s.storage.chunks r.dbId r.ckpt tag), t, .inr rfl,
        ?_, fun e he => ?_, fun htag => ?_⟩
      · rw [hst]
        cases hl : m.lookup tag with
        | none => rfl
        | some r =>
          dsimp only [Option.bind_some]
          cases s.storage.chunks r.dbId r.ckpt tag <;> rfl
      · cases hl : (m.lookup tag).bind fun r => s.storage.chunks r.dbId r.ckpt tag with
        | none => rw [hl] at he; exact (Except.error.inj he).symm
        | some c => rw [hl] at he; exact absurd he (by simp [found])
      · have hblank : ∀ e ∈ H, e.isBlank = true → objectOf cfg s.storage tag e = none := fun e he hb =>
          h.objectOf_eq_none he (SegmentCheckpoint.containsChunk_of_isBlank hb tag)
        rw [h.lookup_bind hm htag, ← newest_upTo hnone, newest_upTo_same hblank hc.same]

end Db.Records

/-! ## The invariant -/

/-- A database, the flat store and the ledger agree between crashes. -/
structure Running (seed : Seed cfg) (s : Db β) (g : Flat β) (l : Ledger) : Prop where
  survives : Survives seed s.storage s.tikm l.records s.timeline.headCkpt
  lsn : l.LsnAscending
  head : l.head = g.last
  last : g.last = s.timeline.headCkpt
  draft : s.draft.Holds cfg.codec l.frame
  clean : g.dirty = false → s.draft.Clean
  window : Window s.timeline l.records
  stored : ∀ e ∈ l.records, e.isBlank = false → s.timeline.baseCkpt < e.ckpt →
    e ∈ storedRecords (s.storage.segments cfg.dbId)
  base_default : s.timeline.baseCkpt = default → seed.manifest.checkpoint = default
  base : s.manifest.checkpoint = s.timeline.baseCkpt ∨ s.timeline.baseCkpt = default ∨
    ∃ m, (s.storage.bases cfg.dbId).lookup s.timeline.baseCkpt = some m
  manifest : SeedSnapshot seed l.records s.manifest
  objects : Objects cfg s.storage s.timeline.headCkpt l.records l.frame
  metas : ∀ rf, g.metas rf = (l.frame.relforks.lookup rf).or
    ((newest (·.relforkMeta rf) l.records).or (seed.manifest.lookupRelforkMeta rf))
  chunks : ∀ tag, Readable seed l.records tag → g.chunks tag =
    (s.storage.chunks cfg.dbId s.timeline.headCkpt tag).or
      ((newest (objectOf cfg s.storage tag) l.records).or (seed.chunk s.storage tag))

/-- A database that starts on a seed: nothing is stored but the seed, and nothing is in the draft. -/
structure IsSeeded (seed : Seed cfg) (s : Db β) : Prop where
  chunks : ∀ ckpt tag, s.storage.chunks cfg.dbId ckpt tag = none
  segments : s.storage.segments cfg.dbId = .empty
  bases : ∀ k m, (s.storage.bases cfg.dbId).lookup k = some m → k = seed.key ∧ m = seed.manifest
  newest : newestBase (s.storage.bases cfg.dbId) = seed.manifest
  headCkpt : s.timeline.headCkpt = default
  baseCkpt : s.timeline.baseCkpt = seed.manifest.checkpoint
  activeCount : s.timeline.activeCount = 0
  draft : s.draft.Clean
  manifest : s.manifest = seed.manifest
  tikm : ∀ m, s.tikm = some m → m = seed.manifest

/-- The flat store that reads of the seed give. -/
def Flat.seeded (seed : Seed cfg) (storage : Storage β) : Flat β :=
  ⟨seed.chunk storage, seed.manifest.lookupRelforkMeta, default, false⟩

theorem isSeeded_of_isFresh {s : Db β} (h : IsFresh cfg s) : IsSeeded (.fresh cfg) s where
  chunks := h.chunks
  segments := h.segments
  bases k m hk := by
    rw [h.bases] at hk
    exact absurd hk (by simp)
  newest := by
    rw [h.bases]
    rfl
  headCkpt := h.headCkpt
  baseCkpt := h.baseCkpt
  activeCount := h.activeCount
  draft := h.draft
  manifest := h.manifest
  tikm := h.tikm

namespace Running

variable {s : Db β} {g : Flat β} {l : Ledger}

theorem of_isSeeded (h : IsSeeded seed s) :
    Running seed s (Flat.seeded seed s.storage) .fresh := by
  have hnone : ∀ e ∈ Ledger.fresh.records, e.isBlank = false → s.timeline.baseCkpt < e.ckpt →
      e ∈ storedRecords (s.storage.segments cfg.dbId) := fun e he => absurd he List.not_mem_nil
  have hself : SeedSnapshot seed Ledger.fresh.records seed.manifest :=
    .self fun e he => absurd he List.not_mem_nil
  have hcomplete : ∀ m, m = seed.manifest →
      Complete seed Ledger.fresh.records (s.storage.segments cfg.dbId) m := by
    rintro m rfl
    exact ⟨hself, fun e he => absurd he List.not_mem_nil⟩
  have hclean := h.draft
  refine ⟨⟨h.headCkpt ▸ .nil, fun e he => absurd he List.not_mem_nil, ?_, ?_, ?_,
      fun m hm => hcomplete m (h.tikm m hm), fun k m hm => ?_, hcomplete _ h.newest⟩,
    ⟨.nil, fun _ he => absurd he List.not_mem_nil⟩, rfl, h.headCkpt.symm, hclean.holds, fun _ => hclean,
    ⟨0, fun _ => rfl, ?_⟩, hnone, fun hd => h.baseCkpt.symm.trans hd, .inl ?_, ?_,
    ⟨fun e he => absurd he List.not_mem_nil, fun tag => congrArg Option.isSome (h.chunks _ tag),
      fun c _ tag => h.chunks c tag⟩, fun rf => rfl, fun tag _ => ?_⟩
  · rw [h.segments]
    exact fun p hp => absurd hp List.not_mem_nil
  · rw [h.segments]
    exact List.nil_sublist _
  · rw [h.segments]
    rfl
  · obtain ⟨rfl, rfl⟩ := h.bases k m hm
    exact ⟨hself, ⟨seed.header_le, fun e he => absurd he List.not_mem_nil⟩, .inr le_rfl⟩
  · rw [TimelineState.iterActive, h.activeCount]
    exact .nil
  · rw [h.manifest, h.baseCkpt]
  · rw [h.manifest]
    exact hself
  · rw [h.chunks]
    rfl

theorem records (h : Running seed s g l) : s.Records cfg l.records :=
  ⟨h.survives.log, h.window, h.survives.wf, h.survives.sub, h.stored, h.objects.sealed⟩

/-- A manifest that serves as the base manifest is complete. -/
theorem complete (h : Running seed s g l) {m : Manifest} (hm : SeedSnapshot seed l.records m)
    (hc : Covers l.records s.timeline.baseCkpt m) :
    Complete seed l.records (s.storage.segments cfg.dbId) m :=
  ⟨hm, fun e he hb hlt => h.stored e he hb (not_le.mp fun hle =>
    absurd (hc.old_le e he hb hle) (not_le.mpr hlt))⟩

/-- **The base manifest is there**, and reloading it keeps the invariant. -/
theorem baseManifest (h : Running seed s g l) : ∃ m tikm,
    s.baseManifest cfg = .ok (m, { s with manifest := m, tikm := tikm }) ∧ SeedSnapshot seed l.records m ∧
    Covers l.records s.timeline.baseCkpt m ∧
    Running seed { s with manifest := m, tikm := tikm } g l := by
  -- a manifest that covers the base may be opened and written to the local file
  have hnext : ∀ m tikm, SeedSnapshot seed l.records m → Covers l.records s.timeline.baseCkpt m →
      (tikm = s.tikm ∨ tikm = some m) →
      (m.checkpoint = s.timeline.baseCkpt ∨ s.timeline.baseCkpt = default ∨
        ∃ m, (s.storage.bases cfg.dbId).lookup s.timeline.baseCkpt = some m) →
      Running seed { s with manifest := m, tikm := tikm } g l := by
    intro m tikm hm hc ht hb
    refine { h with survives := { h.survives with tikm := fun x hx => ?_ }, base := hb, manifest := hm,
                    clean := h.clean, metas := h.metas, chunks := h.chunks }
    rcases ht with rfl | rfl
    · exact h.survives.tikm x hx
    · exact Option.some.inj hx ▸ h.complete hm hc
  rw [Db.baseManifest]
  by_cases hcur : s.manifest.checkpoint = s.timeline.baseCkpt
  · have hcov : Covers l.records s.timeline.baseCkpt s.manifest := hcur ▸ covers_self _ _
    exact ⟨s.manifest, s.tikm, if_pos hcur, h.manifest, hcov, h⟩
  · rw [if_neg hcur]
    have hb := h.base.resolve_left hcur
    rw [Db.loadManifestAt]
    by_cases hd : s.timeline.baseCkpt = default
    · rw [if_pos hd]
      have hcov : Covers l.records s.timeline.baseCkpt .empty := by
        rw [hd]
        exact covers_self l.records .empty
      have hm : SeedSnapshot seed l.records .empty := .empty h.survives.log (h.base_default hd)
      exact ⟨_, _, rfl, hm, hcov, hnext _ _ hm hcov (.inr rfl) (.inr hb)⟩
    · rw [if_neg hd]
      cases ht : s.tikm.filter fun m => m.checkpoint = s.timeline.baseCkpt with
      | some m =>
        obtain ⟨ht, hm⟩ := Option.filter_eq_some_iff.mp ht
        have hcov : Covers l.records s.timeline.baseCkpt m := of_decide_eq_true hm ▸ covers_self _ _
        have hm := (h.survives.tikm m ht).snapshot
        exact ⟨_, _, rfl, hm, hcov, hnext _ _ hm hcov (.inl rfl) (.inr hb)⟩
      | none =>
        obtain ⟨m, hl⟩ := hb.resolve_left hd
        obtain ⟨hm, hcov, -⟩ := h.survives.bases _ m hl
        dsimp only
        rw [hl]
        exact ⟨_, _, rfl, hm, hcov, hnext _ _ hm hcov (.inr rfl) (.inr hb)⟩

/-- **Metadata reads** return the value of the flat store. -/
theorem getMeta (h : Running seed s g l) (rf : RelFork) :
    ∃ s', s.getMeta cfg rf = (found (g.metas rf), s') ∧ Running seed s' g l := by
  obtain ⟨m, tikm, hb, hm, hc, hr⟩ := h.baseManifest
  obtain ⟨s', hs', hread⟩ := h.records.getMeta hb hm hc (DraftBuffer.getRelfork_of_holds h.draft rf)
  rw [h.metas]
  refine ⟨s', hread, ?_⟩
  rcases hs' with rfl | rfl
  · exact h
  · exact hr

/-- **Chunk reads** return the value of the flat store, if the chunk is readable. In any case they leave
the database as it was, up to the manifest snapshot. -/
theorem getChunk (h : Running seed s g l) (tag : ChunkTag) : ∃ r m tikm,
    s.getChunk cfg tag = (r, { s with manifest := m, tikm := tikm }) ∧
    Running seed { s with manifest := m, tikm := tikm } g l ∧
    (∀ e, r = .error e → e = .notFound) ∧
    (Readable seed l.records tag → r = found (g.chunks tag)) := by
  obtain ⟨m, tikm, hb, hm, hc, hr⟩ := h.baseManifest
  obtain ⟨r, s', hs', hread, herr, hval⟩ :=
    h.records.getChunk hb hm hc rfl (Db.probeHead_eq h.draft h.objects tag)
  have hval' : Readable seed l.records tag → r = found (g.chunks tag) := fun htag => by
    rw [hval htag, h.chunks tag htag]
  rcases hs' with rfl | rfl
  · exact ⟨r, _, _, hread, h, herr, hval'⟩
  · exact ⟨r, m, tikm, hread, hr, herr, hval'⟩

/-! ## Writes -/

/-- A PUT under the head prefix, recorded in the draft. -/
theorem putChunkAtHead (h : Running seed s g l) (tag : ChunkTag) {c c' : Chunk β}
    (hc : Readable seed l.records tag → c = c') :
    Running seed (s.putChunkAtHead cfg .ok tag c)
      { g with chunks := Function.update g.chunks tag (some c'), dirty := true }
      { l with frame := DraftBuffer.addChunk l.frame tag } := by
  obtain ⟨d, hd, hholds⟩ := DraftBuffer.holds_recordChunk h.draft tag
  have hs : s.putChunkAtHead cfg .ok tag c =
      { s with
        storage := s.storage.putChunk cfg.dbId s.timeline.headCkpt tag c
        draft := d } := by
    rw [Db.putChunkAtHead, Db.recordChunkEviction, hd]
  rw [hs]
  refine { h with
    survives := ⟨h.survives.log, h.survives.above, h.survives.wf, h.survives.sub, h.survives.last,
      h.survives.tikm, h.survives.bases, h.survives.newest⟩
    lsn := ⟨h.lsn.records, h.lsn.below⟩
    draft := hholds
    clean := fun hd => absurd hd (by simp)
    objects := h.objects.putChunk h.survives.log tag c
    metas := h.metas
    chunks := fun tag' htag => ?_ }
  have hlog : newest (objectOf cfg (s.storage.putChunk cfg.dbId s.timeline.headCkpt tag c) tag')
      l.records = newest (objectOf cfg s.storage tag') l.records :=
    newest_congr fun e he => objectOf_putChunk h.survives.log tag tag' c he
  rw [hlog, seed.chunk_putChunk, Storage.chunks_putChunk]
  dsimp only
  by_cases ht : tag' = tag
  · subst ht
    rw [Function.update_self, if_pos ⟨rfl, rfl, rfl⟩, hc htag]
    rfl
  · rw [Function.update_of_ne ht, if_neg fun hc => ht hc.2.2]
    exact h.chunks tag' htag

theorem patchChunk [Zero β] (h : Running seed s g l) (tag : ChunkTag) (blockOffset : ℕ)
    (data : List β) : Running seed (s.patchChunk cfg .ok tag blockOffset data).2
      (g.patch tag blockOffset data) { l with frame := DraftBuffer.addChunk l.frame tag } := by
  rw [Db.patchChunk]
  split_ifs with hfull
  · refine h.putChunkAtHead tag fun _ => ?_
    rw [Chunk.splice_of_isFull hfull]
  · obtain ⟨r, m, tikm, hr, hrun, herr, hval⟩ := h.getChunk tag
    rw [hr]
    cases r with
    | ok c =>
      refine hrun.putChunkAtHead tag fun hlive => ?_
      have hval := hval hlive
      cases hg : g.chunks tag with
      | none => rw [hg] at hval; exact absurd hval (by simp [found])
      | some c' =>
        rw [hg] at hval
        rw [Except.ok.inj hval]
        rfl
    | error e =>
      obtain rfl := herr e rfl
      refine hrun.putChunkAtHead tag fun hlive => ?_
      have hval := hval hlive
      cases hg : g.chunks tag with
      | none => rfl
      | some c' => rw [hg] at hval; exact absurd hval (by simp [found])

theorem putMeta (h : Running seed s g l) (rf : RelFork) (m : RelForkMeta) :
    Running seed (s.putMeta cfg .ok rf m).2 (g.putMeta rf m)
      { l with frame := DraftBuffer.addRelfork l.frame rf m } := by
  obtain ⟨d, hd, hholds⟩ := DraftBuffer.holds_recordRelfork h.draft rf m
  rw [Db.putMeta, Db.recordRelforkEviction, hd]
  refine { h with
    lsn := ⟨h.lsn.records, h.lsn.below⟩
    draft := hholds
    clean := fun hd => absurd hd (by simp [Flat.putMeta])
    objects := ⟨h.objects.sealed, h.objects.live, h.objects.above⟩
    metas := fun rf' => ?_
    chunks := h.chunks }
  change Function.update g.metas rf (some m) rf' = ((l.frame.relforks.insert rf m).lookup rf').or _
  rw [SortedMap.lookup_insert]
  by_cases hrf : rf' = rf
  · rw [hrf, Function.update_self, if_pos rfl]
    rfl
  · rw [Function.update_of_ne hrf, if_neg hrf]
    exact h.metas rf'

theorem spill (h : Running seed s g l) :
    Running seed { s with draft := (s.draft.spillToFile cfg.codec .ok).2 } g l := by
  obtain ⟨d, hd, hholds, -⟩ := DraftBuffer.holds_spillToFile h.draft
  have hclean := fun hg => (h.clean hg).spillToFile cfg.codec
  rw [hd] at hclean ⊢
  exact { h with draft := hholds, clean := hclean, metas := h.metas, chunks := h.chunks }

/-! ## Commits and starts -/

theorem runCommitProtocol (h : Running seed s g l) {a : Db.CommitArgs}
    (hlt : s.timeline.headCkpt < a.ckpt) (hkey : seed.key < a.ckpt)
    (hlsn : (Ledger.step l (.commit a : Step β)).LsnAscending) :
    Running seed (s.runCommitProtocol cfg .ok a).2 (g.commit a.ckpt) (l.step (.commit a : Step β)) := by
  obtain ⟨d, hd, hclean⟩ := DraftBuffer.drain_of_holds h.draft
  rw [Db.runCommitProtocol_ok hd a]
  rw [Ledger.step, h.head, h.last] at hlsn ⊢
  have hseg : ((s.storage.setSegments cfg.dbId (appendRecord (s.storage.segments cfg.dbId)
      (a.summary s.timeline.headCkpt l.frame))).putDbMeta cfg.dbId a.ckpt).segments cfg.dbId =
      appendRecord (s.storage.segments cfg.dbId) (a.summary s.timeline.headCkpt l.frame) :=
    Function.update_self ..
  obtain ⟨hsurvives, hkeep⟩ := h.survives.commit (e := a.summary s.timeline.headCkpt l.frame) rfl hlt
    hkey hseg rfl
  have hnew : ∀ x ∈ [a.summary s.timeline.headCkpt l.frame],
      s.timeline.headCkpt < x.ckpt ∧ seed.key < x.ckpt := fun x hx => by
    rw [List.mem_singleton.mp hx]
    exact ⟨hlt, hkey⟩
  refine ⟨hsurvives, hlsn, rfl, rfl, hclean.holds, fun _ => hclean,
    Window.pushCheckpoint (t := s.timeline.setRedoCkpt a.redoCkpt) h.window _,
    fun x hx hb hx' => hkeep x hx fun hx => h.stored x hx hb hx', h.base_default, h.base,
    h.manifest.append h.survives.log hnew, ?_, fun rf => ?_, fun tag htag => ?_⟩
  · have hobj := h.objects.commit hlt
    exact ⟨hobj.sealed, hobj.live, hobj.above⟩
  · rw [newest_append_singleton, Option.or_assoc]
    exact h.metas rf
  · rw [newest_append_singleton, Option.or_assoc]
    exact (h.chunks tag htag.left).trans
      (congrArg (fun o : Option (Chunk β) => o.or _) (h.objects.above a.ckpt hlt tag)).symm

/-- **A start rebuilds the shared memory**, if the records of the window follow each other and nothing
was written since the last commit. -/
theorem restart (h : Running seed s g l) {u : Db β} (hu : Survives seed u.storage u.tikm l.records
      s.timeline.headCkpt) (hdraft : u.draft = s.draft) (hchunks : u.storage.chunks = s.storage.chunks)
    (hlink : u.Linked cfg) (hg : g.dirty = false) (tikmLost : Bool) :
    Running seed (u.restart cfg tikmLost false) g l := by
  have hclean := h.clean hg
  have hinit : u.draft.init.Clean := ⟨rfl, rfl, rfl, hdraft ▸ hclean.file⟩
  have hframe := hclean.eq_empty h.draft
  have hm : Complete seed l.records (u.storage.segments cfg.dbId) (u.openedManifest cfg tikmLost) :=
    hu.openedManifest
  have hhead := hu.headCkpt_hydrated u.timeline (u.openedManifest cfg tikmLost).checkpoint
  have hbase := baseCkpt_hydrated u.timeline (storedRecords (u.storage.segments cfg.dbId))
    (u.openedManifest cfg tikmLost).checkpoint
  have hwindow := hu.window hlink u.timeline (u.openedManifest cfg tikmLost).checkpoint
  have heq : u.restart cfg tikmLost false =
      { u with
        timeline := hydrated u.timeline.init (storedRecords (u.storage.segments cfg.dbId))
          (u.openedManifest cfg tikmLost).checkpoint
        draft := u.draft.init
        manifest := u.openedManifest cfg tikmLost
        tikm := some (u.openedManifest cfg tikmLost) } := Db.restart_eq cfg u tikmLost false
  rw [heq]
  refine ⟨?_, h.lsn, h.head, ?_, hframe ▸ hinit.holds, fun _ => hinit, hwindow, fun e he hb hlt => ?_,
    fun hd => hm.snapshot.seed_default hu.log (hbase.symm.trans hd), .inl hbase.symm, hm.snapshot, ?_, h.metas,
    fun tag htag => ?_⟩
  · dsimp only
    rw [hhead]
    exact { hu with tikm := fun x hx => Option.some.inj hx ▸ hm }
  · exact h.last.trans hhead.symm
  · exact hm.stored e he hb (hbase ▸ hlt)
  · dsimp only
    rw [hhead]
    refine ⟨fun e he tag => ?_, fun tag => ?_, fun c hc tag => ?_⟩
    · rw [hchunks]
      exact h.objects.sealed e he tag
    · rw [hchunks]
      exact h.objects.live tag
    · rw [hchunks]
      exact h.objects.above c hc tag
  · have hobj : objectOf cfg u.storage tag = objectOf cfg s.storage tag := by
      funext e
      rw [objectOf, hchunks, objectOf]
    dsimp only
    rw [hhead, hobj, hchunks, seed.chunk_congr hchunks]
    exact h.chunks tag htag

end Running

/-! ## Effects of compactions -/

/-- A base manifest that a compaction publishes under `key`. -/
structure Publishes (seed : Seed cfg) (H : List SegmentCheckpoint) (base head key : Checkpoint)
    (m : Manifest) : Prop where
  snapshot : SeedSnapshot seed H m
  covers : Covers H key m
  key_le : key ≤ head
  key_default : key = default → seed.manifest.checkpoint = default
  old : ∀ e ∈ H, e.isBlank = false → e.ckpt ≤ base → e.ckpt ≤ key

/-- The newest stored base is the one under the greatest key. -/
theorem exists_newestBase {bases : SortedMap Checkpoint Manifest} {k : Checkpoint}
    (hk : k ∈ bases.keys) : ∃ k', bases.lookup k' = some (newestBase bases) ∧ k ≤ k' := by
  have hne : bases.keys ≠ [] := List.ne_nil_of_mem hk
  have hentries : bases.entries ≠ [] := fun hnil => hne (by rw [SortedMap.keys, hnil]; rfl)
  have hlast := List.getLast_mem hentries
  refine ⟨(bases.entries.getLast hentries).1, ?_, ?_⟩
  · rw [newestBase, List.getLast?_eq_some_getLast hentries, Option.map_some, Option.getD_some]
    exact (SortedMap.mem_entries_iff _ _ _).mp hlast
  · have hkeys : Ascending (fun k : Checkpoint => k) bases.keys := SortedMap.sorted_keys _
    have hle := hkeys.le_getLast hk hne
    have heq : bases.keys.getLast hne = (bases.entries.getLast hentries).1 := by
      simp only [SortedMap.keys, List.getLast_map]
    exact heq ▸ hle

namespace Survives

variable {S : Storage β} {tikm : Option Manifest} {H : List SegmentCheckpoint}
  {base head key : Checkpoint} {m : Manifest}

theorem setTikm (h : Survives seed S tikm H head) (hm : Complete seed H (S.segments cfg.dbId) m) :
    Survives seed S (some m) H head :=
  { h with tikm := fun _ hx => Option.some.inj hx ▸ hm }

theorem bases_putBase (S : Storage β) (key : Checkpoint) (m : Manifest) :
    (S.putBase cfg.dbId key m).bases cfg.dbId = (S.bases cfg.dbId).insert key m :=
  Function.update_self ..

theorem putBase (h : Survives seed S tikm H head) (hp : Publishes seed H base head key m)
    (hm : Complete seed H (S.segments cfg.dbId) m) :
    Survives seed (S.putBase cfg.dbId key m) tikm H head := by
  refine { h with bases := fun k x hx => ?_, newest := ?_ }
  · rw [bases_putBase, SortedMap.lookup_insert] at hx
    split_ifs at hx with hk
    · rw [hk, ← Option.some.inj hx]
      exact ⟨hp.snapshot, hp.covers, .inl hp.key_le⟩
    · exact h.bases k x hx
  · rw [bases_putBase]
    rcases newestBase_insert (S.bases cfg.dbId) key m with hn | ⟨hn, -⟩
    · rw [hn]
      exact hm
    · rw [hn]
      exact h.newest

/-- No record that is not blank lies above the newest stored base and up to the published one. -/
theorem lt_of_newest_lt (h : Survives seed S tikm H head) (hp : Publishes seed H base head key m)
    {e : SegmentCheckpoint} (he : e ∈ H) (hb : e.isBlank = false)
    (hlt : (newestBase ((S.putBase cfg.dbId key m).bases cfg.dbId)).checkpoint < e.ckpt) :
    key < e.ckpt := by
  rw [bases_putBase] at hlt
  rcases newestBase_insert (S.bases cfg.dbId) key m with hn | ⟨hn, k, hk, hkey⟩
  · rw [hn] at hlt
    exact not_le.mp fun hle => absurd (hp.covers.old_le e he hb hle) (not_le.mpr hlt)
  · obtain ⟨k', hl, hkk⟩ := exists_newestBase hk
    rw [hn] at hlt
    have hcov := (h.bases k' _ hl).2.1
    exact (hkey.trans_le hkk).trans
      (not_le.mp fun hle => absurd (hcov.old_le e he hb hle) (not_le.mpr hlt))

/-- **Segments below a base can be deleted**, when every manifest that a start may open is as new. -/
theorem deleteSegments (h : Survives seed S tikm H head) (hkey : key ≤ head) {ids : List SegmentId}
    (hids : ∀ id ∈ ids, id < key.toSegmentId)
    (htikm : ∀ m, tikm = some m → ∀ e ∈ H, e.isBlank = false → m.checkpoint < e.ckpt → key < e.ckpt)
    (hnewest : ∀ e ∈ H, e.isBlank = false →
      (newestBase (S.bases cfg.dbId)).checkpoint < e.ckpt → key < e.ckpt) :
    Survives seed (S.deleteSegments cfg.dbId ids) tikm H head ∧
      ∀ e ∈ storedRecords (S.segments cfg.dbId), key < e.ckpt →
        e ∈ storedRecords ((S.deleteSegments cfg.dbId ids).segments cfg.dbId) := by
  have hseg : (S.deleteSegments cfg.dbId ids).segments cfg.dbId =
      (S.segments cfg.dbId).filter fun id _ => !ids.contains id := Function.update_self ..
  have hnotMem : ∀ {id : SegmentId}, key.toSegmentId ≤ id → (!ids.contains id) = true := by
    intro id hle
    rw [Bool.not_eq_true', ← Bool.not_eq_true, List.contains_iff_mem]
    exact fun hmem => absurd (hids id hmem) (not_lt.mpr hle)
  have hkeep : ∀ e ∈ storedRecords (S.segments cfg.dbId), key ≤ e.ckpt →
      e ∈ storedRecords ((S.deleteSegments cfg.dbId ids).segments cfg.dbId) := by
    intro e he hle
    obtain ⟨p, hp, hep⟩ := mem_storedRecords.mp he
    rw [hseg]
    refine mem_storedRecords.mpr ⟨p, List.mem_filter.mpr ⟨hp, hnotMem ?_⟩, hep⟩
    rw [← (h.wf p hp).2.2 e hep]
    exact Checkpoint.toSegmentId_mono hle
  have hcomplete : ∀ m, Complete seed H (S.segments cfg.dbId) m →
      (∀ e ∈ H, e.isBlank = false → m.checkpoint < e.ckpt → key < e.ckpt) →
      Complete seed H ((S.deleteSegments cfg.dbId ids).segments cfg.dbId) m := fun m hm hlt =>
    ⟨hm.snapshot, fun e he hb hc => hkeep e (hm.stored e he hb hc) (hlt e he hb hc).le⟩
  refine ⟨⟨h.log, h.above, ?_, ?_, ?_, fun m hm => hcomplete m (h.tikm m hm) (htikm m hm), h.bases,
    hcomplete _ h.newest hnewest⟩, fun e he hlt => hkeep e he hlt.le⟩
  · rw [hseg]
    exact fun p hp => h.wf p (mem_of_mem_filter hp)
  · rw [hseg]
    exact (List.filter_sublist.flatMap _).trans h.sub
  · -- the segment of the newest record is not below the base
    rw [hseg, ← h.last]
    refine getLast?_storedRecords_filter h.wf fun last hlast => hnotMem ?_
    obtain ⟨p, hp, rfl⟩ := List.mem_map.mp (List.mem_of_getLast? hlast)
    obtain ⟨e, he⟩ := List.exists_mem_of_ne_nil _ (h.wf p hp).2.1
    have hH : H ≠ [] := List.ne_nil_of_mem (h.sub.mem (mem_storedRecords.mpr ⟨p, hp, he⟩))
    have hmem : H.getLast hH ∈ storedRecords (S.segments cfg.dbId) := by
      refine List.mem_of_getLast? ?_
      rw [h.last, List.getLast?_eq_some_getLast hH]
    have hle := toSegmentId_le_last h.wf hmem hlast
    rw [h.log.getLast_ckpt hH] at hle
    exact (Checkpoint.toSegmentId_mono hkey).trans hle

end Survives

namespace Running

variable {s : Db β} {g : Flat β} {l : Ledger}

/-- What a compaction folds are the next records above the base. -/
theorem folding (h : Running seed s g l) {high : Checkpoint} {P : Checkpoint → Prop} [DecidablePred P]
    (hdown : ∀ c d, c ≤ d → P d → P c) (hhigh : ∀ c, P c → c ≤ high) : ∃ scs,
      s.loadCheckpoints cfg (s.listSegmentsInRange cfg s.timeline.baseCkpt high) = .ok scs ∧
      Folding l.records s.timeline.baseCkpt ((scs.filter fun sc =>
        decide (s.timeline.baseCkpt < sc.ckpt ∧ P sc.ckpt)).insertionSort Db.ckptLe) := by
  obtain ⟨scs, hload, hscs⟩ := Db.loadCheckpoints_inRange h.survives.wf s.timeline.baseCkpt high
    (fun sc => decide (s.timeline.baseCkpt < sc.ckpt ∧ P sc.ckpt)) fun e he =>
      ⟨(of_decide_eq_true he).1.le, hhigh _ (of_decide_eq_true he).2⟩
  refine ⟨scs, hload, ?_⟩
  rw [hscs]
  have hasc : Ascending SegmentCheckpoint.ckpt ((storedRecords (s.storage.segments cfg.dbId)).filter
      fun sc => decide (s.timeline.baseCkpt < sc.ckpt ∧ P sc.ckpt)) :=
    (h.survives.log.ascending_ckpt.sublist h.survives.sub).sublist List.filter_sublist
  have hsort : ((storedRecords (s.storage.segments cfg.dbId)).filter fun sc =>
      decide (s.timeline.baseCkpt < sc.ckpt ∧ P sc.ckpt)).insertionSort Db.ckptLe =
      (storedRecords (s.storage.segments cfg.dbId)).filter fun sc =>
        decide (s.timeline.baseCkpt < sc.ckpt ∧ P sc.ckpt) :=
    List.Pairwise.insertionSort_eq (hasc.imp fun hab => hab.le)
  rw [hsort]
  refine ⟨hasc, fun e he => ?_, fun e he hb hlt => ?_⟩
  · obtain ⟨he, hs⟩ := List.mem_filter.mp he
    exact ⟨h.survives.sub.mem he, (of_decide_eq_true hs).1⟩
  · by_cases hP : P e.ckpt
    · exact .inl (List.mem_filter.mpr ⟨h.stored e he hb hlt, decide_eq_true ⟨hlt, hP⟩⟩)
    · refine .inr fun x hx => not_le.mp fun hle => hP (hdown _ _ hle ?_)
      exact (of_decide_eq_true (List.mem_filter.mp hx).2).2

/-- **A compaction publishes** a snapshot that serves as the base manifest at its key. -/
theorem publishes (h : Running seed s g l) {m : Manifest} (hm : SeedSnapshot seed l.records m)
    (hc : Covers l.records s.timeline.baseCkpt m) {toApply : List SegmentCheckpoint}
    (hf : Folding l.records s.timeline.baseCkpt toApply) (hne : toApply ≠ [])
    {newBase : List SegmentCheckpoint → Manifest → Checkpoint}
    (hnb : ∀ l m, newBase l m = m.checkpoint ∨
      newBase l m = (l.getLast?.map (·.ckpt)).getD default) (now : ℤ) :
    Publishes seed l.records s.timeline.baseCkpt s.timeline.headCkpt
      (newBase toApply (m.applySegments cfg.sort toApply cfg.dbId now))
      (m.applySegments cfg.sort toApply cfg.dbId now) := by
  have hlog := h.survives.log
  have hsnap := hm.applySegments hlog.ascending_ckpt h.lsn.records hc hf now
  have hold : ∀ e ∈ l.records, e.isBlank = false → e.ckpt ≤ s.timeline.baseCkpt →
      e.ckpt ≤ m.lastCkpt toApply := fun e he hb hle =>
    (hc.old_le e he hb hle).trans (le_lastCkpt_header hc hf)
  have hmem := List.getLast_mem hne
  obtain ⟨hH, hlt⟩ := hf.mem _ hmem
  have hle : m.lastCkpt toApply ≤ (toApply.getLast hne).ckpt := by
    rcases lastCkpt_spec m toApply with ⟨e, he, -, hck⟩ | ⟨-, hck⟩
    · rw [← hck]
      exact hf.ascending.le_getLast he hne
    · rw [hck]
      exact hc.header_le.trans hlt.le
  have hhead := (hlog.bounds _ hH).2.2
  rcases hnb toApply (m.applySegments cfg.sort toApply cfg.dbId now) with hkey | hkey
  · rw [hkey]
    exact ⟨hsnap, covers_self _ _, hle.trans hhead, hsnap.seed_default hlog, hold⟩
  · rw [List.getLast?_eq_some_getLast hne, Option.map_some, Option.getD_some] at hkey
    rw [hkey]
    refine ⟨hsnap, ⟨hle, fun e he hb hle => ?_⟩, hhead, fun hd => absurd hd (hlog.default_lt hH).ne',
      fun e he hb hle => hle.trans hlt.le⟩
    change e.ckpt ≤ m.lastCkpt toApply
    by_cases hbase : e.ckpt ≤ s.timeline.baseCkpt
    · exact hold e he hb hbase
    · rcases hf.closed e he hb (not_le.mp hbase) with hl | hall
      · exact le_lastCkpt hf.ascending hl hb
      · exact absurd (hall _ hmem) (not_lt.mpr hle)

end Running

theorem Publishes.complete {segments : SortedMap SegmentId TimelineSegment} {H : List SegmentCheckpoint}
    {base head key : Checkpoint} {m : Manifest} (h : Publishes seed H base head key m)
    (hstored : ∀ e ∈ H, e.isBlank = false → base < e.ckpt → e ∈ storedRecords segments) :
    Complete seed H segments m := by
  refine ⟨h.snapshot, fun e he hb hlt => hstored e he hb (not_le.mp fun hle => ?_)⟩
  exact absurd (h.covers.old_le e he hb (h.old e he hb hle)) (not_le.mpr hlt)

/-- What a compaction publishes and deletes: it reloads the base manifest to `manifest`, with the local
file `tikm`, and publishes `applied` under `key`. -/
structure Publication where
  tikm : Option Manifest
  manifest : Manifest
  key : Checkpoint
  applied : Manifest
  dead : List SegmentId

/-- The changes of a compaction that publishes. -/
def Publication.effects (p : Publication) : List Effect :=
  [.setTikm p.tikm, .setManifest p.manifest, .putBase p.key p.applied, .setTikm (some p.applied),
    .setBaseCkpt p.key, .setManifest p.applied] ++ p.dead.map .deleteSegment

/-- What is published can serve as the base manifest, and what is deleted lies below it. -/
structure Published (seed : Seed cfg) (s : Db β) (g : Flat β) (l : Ledger) (kept : List SegmentId)
    (p : Publication) : Prop where
  reloaded : Running seed { s with manifest := p.manifest, tikm := p.tikm } g l
  publishes : Publishes seed l.records s.timeline.baseCkpt s.timeline.headCkpt p.key p.applied
  dead : ∃ high, p.key ≤ high ∧ p.dead = ((s.listSegmentsInRange cfg s.timeline.baseCkpt high).takeWhile
    fun id => id < p.key.toSegmentId).filter fun id => !kept.contains id

theorem Effect.filter_deletes (kept dead : List SegmentId) :
    ((dead.map Effect.deleteSegment).filter fun e => !e.fails kept) =
      (dead.filter fun id => !kept.contains id).map Effect.deleteSegment :=
  List.filter_map

namespace Running

variable {s : Db β} {g : Flat β} {l : Ledger}

theorem compactRangeEffects (h : Running seed s g l) {high : Checkpoint} {P : Checkpoint → Prop}
    [DecidablePred P] (hdown : ∀ c d, c ≤ d → P d → P c) (hbase : P s.timeline.baseCkpt)
    (hhigh : ∀ c, P c → c ≤ high) {newBase : List SegmentCheckpoint → Manifest → Checkpoint}
    (hnb : ∀ l m, newBase l m = m.checkpoint ∨
      newBase l m = (l.getLast?.map (·.ckpt)).getD default) (now : ℤ) (kept : List SegmentId) :
    ((s.compactRangeEffects cfg high (fun sc => decide (s.timeline.baseCkpt < sc.ckpt ∧ P sc.ckpt))
        newBase now).filter fun e => !e.fails kept) = [] ∨
      ∃ p, ((s.compactRangeEffects cfg high
          (fun sc => decide (s.timeline.baseCkpt < sc.ckpt ∧ P sc.ckpt)) newBase now).filter
            fun e => !e.fails kept) = p.effects ∧ Published seed s g l kept p := by
  obtain ⟨scs, hload, hf⟩ := h.folding hdown hhigh
  obtain ⟨m, tikm, hb, hm, hc, hr⟩ := h.baseManifest
  have hP : ∀ e ∈ (scs.filter fun sc =>
      decide (s.timeline.baseCkpt < sc.ckpt ∧ P sc.ckpt)).insertionSort Db.ckptLe, P e.ckpt := by
    intro e he
    rw [List.mem_insertionSort] at he
    exact (of_decide_eq_true (List.mem_filter.mp he).2).2
  rw [Db.compactRangeEffects]
  dsimp only
  rw [hload]
  dsimp only
  generalize (scs.filter fun sc => decide (s.timeline.baseCkpt < sc.ckpt ∧ P sc.ckpt)).insertionSort
    Db.ckptLe = toApply at *
  split_ifs with hnil
  · exact .inl rfl
  · rw [hb]
    dsimp only
    have hpub := h.publishes hm hc hf hnil hnb now
    have hkey : newBase toApply (m.applySegments cfg.sort toApply cfg.dbId now) ≤ high := by
      refine hhigh _ ?_
      rcases hnb toApply (m.applySegments cfg.sort toApply cfg.dbId now) with hkey | hkey
      · -- published under its own checkpoint
        rw [hkey]
        change P (m.lastCkpt toApply)
        rcases lastCkpt_spec m toApply with ⟨e, he, -, hck⟩ | ⟨-, hck⟩
        · exact hck ▸ hP e he
        · rw [hck]
          exact hdown _ _ hc.header_le hbase
      · rw [hkey, List.getLast?_eq_some_getLast hnil]
        exact hP _ (List.getLast_mem hnil)
    refine .inr ⟨⟨tikm, m, newBase toApply (m.applySegments cfg.sort toApply cfg.dbId now),
      m.applySegments cfg.sort toApply cfg.dbId now,
      ((s.listSegmentsInRange cfg s.timeline.baseCkpt high).takeWhile fun id =>
        id < (newBase toApply (m.applySegments cfg.sort toApply cfg.dbId now)).toSegmentId).filter
          fun id => !kept.contains id⟩, ?_, hr, hpub, high, hkey, rfl⟩
    rw [List.filter_append, Effect.filter_deletes]
    rfl

/-- **What a compaction attempts**: nothing, or it publishes a base manifest and deletes below it. -/
theorem attempt (h : Running seed s g l) (job : CompactionJob) (kept : List SegmentId) :
    s.attempt cfg job kept = [] ∨
      ∃ p, s.attempt cfg job kept = p.effects ∧ Published seed s g l kept p := by
  obtain ⟨target, now⟩ := job
  rw [Db.attempt, Db.compactionEffects]
  cases target with
  | none =>
    dsimp only
    generalize (if s.timeline.redoCkpt.lsn = 0 then s.timeline.headCkpt else s.timeline.redoCkpt) =
      upper
    split_ifs with hle
    · exact .inl rfl
    · exact h.compactRangeEffects (P := fun c => c < upper) (fun c d hcd hd => hcd.trans_lt hd)
        (not_le.mp hle) (fun c hc => hc.le) (fun _ _ => .inr rfl) now kept
  | some target =>
    dsimp only
    split_ifs with hle
    · exact .inl rfl
    · exact h.compactRangeEffects (P := fun c => c ≤ target) (fun c d hcd hd => hcd.trans hd)
        (not_le.mp hle).le (fun c hc => hc) (fun _ _ => .inl rfl) now kept

end Running

/-! ## Between two effects -/

section Cut

variable {s : Db β} {g : Flat β} {l : Ledger} {kept : List SegmentId} {p : Publication}

namespace Published

theorem below (h : Published seed s g l kept p) : ∀ id ∈ p.dead, id < p.key.toSegmentId := by
  obtain ⟨high, -, hdead⟩ := h.dead
  intro id hid
  rw [hdead] at hid
  have hlt := List.mem_takeWhile_imp (p := fun id => decide (id < p.key.toSegmentId))
    (List.mem_filter.mp hid).1
  exact of_decide_eq_true hlt

theorem survives_putBase (h : Published seed s g l kept p) {tikm : Option Manifest}
    (ht : tikm = p.tikm ∨ tikm = some p.applied) :
    Survives seed (s.storage.putBase cfg.dbId p.key p.applied) tikm l.records s.timeline.headCkpt := by
  have hcomplete := h.publishes.complete h.reloaded.stored
  have hput := h.reloaded.survives.putBase h.publishes hcomplete
  rcases ht with rfl | rfl
  · exact hput
  · exact hput.setTikm hcomplete

theorem survives_deletes (h : Published seed s g l kept p) {ids : List SegmentId}
    (hids : ∀ id ∈ ids, id ∈ p.dead) :
    Survives seed ((s.storage.putBase cfg.dbId p.key p.applied).deleteSegments cfg.dbId ids)
        (some p.applied) l.records s.timeline.headCkpt ∧
      ∀ e ∈ storedRecords (s.storage.segments cfg.dbId), p.key < e.ckpt → e ∈ storedRecords
        (((s.storage.putBase cfg.dbId p.key p.applied).deleteSegments cfg.dbId ids).segments cfg.dbId) := by
  refine (h.survives_putBase (.inr rfl)).deleteSegments h.publishes.key_le
    (fun id hid => h.below id (hids id hid)) (fun m hm e he hb hlt => ?_) fun e he hb hlt =>
      h.reloaded.survives.lt_of_newest_lt h.publishes he hb hlt
  rw [← Option.some.inj hm] at hlt
  exact not_le.mp fun hle => absurd (h.publishes.covers.old_le e he hb hle) (not_le.mpr hlt)

/-- After the sixth change only deletes follow. -/
theorem foldl_effects (p : Publication) (s : Db β) (n : ℕ) :
    (p.effects.take (n + 6)).foldl (Db.apply cfg) s =
      { s with
        storage := (s.storage.putBase cfg.dbId p.key p.applied).deleteSegments cfg.dbId (p.dead.take n)
        timeline := s.timeline.setBaseCkpt p.key
        manifest := p.applied
        tikm := some p.applied } := by
  have htake : p.effects.take (n + 6) = [.setTikm p.tikm, .setManifest p.manifest,
      .putBase p.key p.applied, .setTikm (some p.applied), .setBaseCkpt p.key, .setManifest p.applied] ++
        (p.dead.take n).map .deleteSegment := by
    rw [List.map_take]
    rfl
  rw [htake, List.foldl_append, Db.foldl_deleteSegment]
  rfl

/-- **What a start relies on survives every cut.** -/
theorem survives_take (h : Published seed s g l kept p) (hs : Running seed s g l) (n : ℕ) :
    Survives seed ((p.effects.take n).foldl (Db.apply cfg) s).storage
      ((p.effects.take n).foldl (Db.apply cfg) s).tikm l.records s.timeline.headCkpt := by
  rcases n with _ | _ | _ | _ | _ | _ | n
  · exact hs.survives
  · -- the base manifest is reloaded to the local file
    exact h.reloaded.survives
  · exact h.reloaded.survives
  · -- the new base is stored, and the local file is the old one
    exact h.survives_putBase (.inl rfl)
  · exact h.survives_putBase (.inr rfl)
  · exact h.survives_putBase (.inr rfl)
  · rw [foldl_effects]
    exact (h.survives_deletes fun id hid => List.mem_of_mem_take hid).1

/-- **A compaction that fails in deletes keeps the invariant.** -/
theorem running (h : Published seed s g l kept p) :
    Running seed (p.effects.foldl (Db.apply cfg) s) g l := by
  have hall : p.effects = p.effects.take (p.dead.length + 6) := by
    refine (List.take_of_length_le ?_).symm
    rw [Publication.effects, List.length_append, List.length_map, Nat.add_comm]
    rfl
  have hdead : ∀ id ∈ p.dead, id ∈ p.dead := fun id hid => hid
  obtain ⟨hsurvives, hkeep⟩ := h.survives_deletes hdead
  have hr := h.reloaded
  rw [hall, foldl_effects, List.take_length]
  refine ⟨hsurvives, hr.lsn, hr.head, hr.last, hr.draft, hr.clean, hr.window, fun e he hb hlt => ?_,
    h.publishes.key_default, .inr (.inr ⟨p.applied, ?_⟩), h.publishes.snapshot,
    ⟨hr.objects.sealed, hr.objects.live, hr.objects.above⟩, hr.metas, hr.chunks⟩
  · refine hkeep e (hr.stored e he hb (not_le.mp fun hle => ?_)) hlt
    exact absurd (h.publishes.old e he hb hle) (not_le.mpr hlt)
  · exact (congrArg (SortedMap.lookup · p.key) (Survives.bases_putBase s.storage p.key p.applied)).trans
      (SortedMap.lookup_insert_self _ _ _)

end Published

namespace Running

/-- **What a start relies on survives a killed compaction.** -/
theorem survives_attempt (h : Running seed s g l) (job : CompactionJob) (kept : List SegmentId) (n : ℕ) :
    Survives seed (((s.attempt cfg job kept).take n).foldl (Db.apply cfg) s).storage
      (((s.attempt cfg job kept).take n).foldl (Db.apply cfg) s).tikm l.records s.timeline.headCkpt := by
  rcases h.attempt job kept with hnil | ⟨p, hp, hpub⟩
  · rw [hnil, List.take_nil]
    exact h.survives
  · rw [hp]
    exact hpub.survives_take h n

/-- **A compaction keeps the invariant**, whichever deletes fail. -/
theorem foldl_attempt (h : Running seed s g l) (job : CompactionJob) (kept : List SegmentId) :
    Running seed ((s.attempt cfg job kept).foldl (Db.apply cfg) s) g l := by
  rcases h.attempt job kept with hnil | ⟨p, hp, hpub⟩
  · rw [hnil]
    exact h
  · rw [hp]
    exact hpub.running

end Running

end Cut

end Tiko

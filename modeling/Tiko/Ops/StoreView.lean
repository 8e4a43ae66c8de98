import Tiko.Lib.WriteBack
import Tiko.Store.Deletes

/-!
# What the caches see of the store

The caches read and write one chunk or one relation fork at a time. To them the store is a value for each
of these, and chunks that it may lose: those of a relation that is deleted at a commit.

* `StoreView`: these values, with the chunks that are secured; `Db.Shows`: the database agrees;
* `Shows.getMeta`, `Shows.getChunk`: what the reads return; **a secured chunk is found**;
* `Shows.putMeta`, `Shows.patchChunk`: writes; a chunk that is written is secured;
* **`Shows.commit`**: a commit keeps the chunks secured of relations that are not deleted.
-/

namespace Tiko

open Lib

variable {β : Type}

/-- The values of chunks and relation forks, the chunks that are not going to be dropped, the checkpoint
of the last commit, and whether anything was written since. -/
structure StoreView (β : Type) where
  chunks : WriteBack.Backing ChunkTag (Chunk β)
  metas : WriteBack.Backing RelFork RelForkMeta
  last : Checkpoint
  dirty : Bool

namespace StoreView

/-- A chunk is written. -/
def saveChunk (v : StoreView β) (p : ChunkTag × Chunk β) : StoreView β :=
  { v with chunks := v.chunks.save p, dirty := true }

/-- The metadata of a relation fork is written. -/
def saveMeta (v : StoreView β) (p : RelFork × RelForkMeta) : StoreView β :=
  { v with metas := v.metas.save p, dirty := true }

/-- A commit, after which the chunks of deleted relations may be dropped. -/
def commit (v : StoreView β) (ckpt : Checkpoint) : StoreView β :=
  { v with
    chunks := ⟨v.chunks.values, fun tag => v.chunks.secured tag ∧
      (v.metas.values tag.relFork).any (·.deleted) = false⟩
    last := ckpt
    dirty := false }

/-- The store of a fresh cluster. -/
def fresh : StoreView β := ⟨⟨fun _ => none, fun _ => False⟩, ⟨fun _ => none, fun _ => False⟩, default, false⟩

end StoreView

/-- The newest version of the chunk is not going to be dropped: it is in the draft, or its relation has
not been deleted at any commit since. -/
def Kept (l : Ledger) (tag : ChunkTag) : Prop :=
  l.frame.containsChunk tag = true ∨ ∃ e ∈ l.records, e.containsChunk tag = true ∧
    ∀ k, e.ckpt ≤ k → deletedAt l.records k tag.relFork = false

theorem Kept.not_dropped {cfg : StoreConfig} {s : Db β} {l : Ledger} {tag : ChunkTag} (h : Kept l tag) :
    ¬ Dropped cfg s l tag := by
  rintro ⟨hf, k, -, hk, hall⟩
  rcases h with h | ⟨e, he, hc, hlive⟩
  · rw [hf] at h
    exact absurd h (by simp)
  · rw [hlive k (hall e he hc)] at hk
    exact absurd hk (by simp)

/-- The database agrees with a view of it. -/
def Db.Shows (cfg : StoreConfig) (s : Db β) (v : StoreView β) : Prop :=
  ∃ g l, Tracked cfg s g l ∧ v.chunks.values = s.written cfg l.records ∧
    (∀ tag, v.chunks.secured tag → Kept l tag) ∧ v.metas.values = g.metas ∧ v.last = g.last ∧
    (v.dirty = false → g.dirty = false)

section Shows

variable {cfg : StoreConfig} {s : Db β} {v : StoreView β}

theorem shows_of_isFresh (h : IsFresh cfg s) : s.Shows cfg .fresh := by
  refine ⟨_, _, tracked_of_isFresh h, ?_, fun _ hs => absurd hs id, rfl, rfl, id⟩
  funext tag
  rw [Db.written, h.chunks]
  rfl

namespace Db.Shows

/-- A view that promises less. -/
theorem mono (h : s.Shows cfg v) {w : StoreView β} (hchunks : w.chunks.values = v.chunks.values)
    (hsec : ∀ tag, w.chunks.secured tag → v.chunks.secured tag)
    (hmetas : w.metas.values = v.metas.values) (hlast : w.last = v.last)
    (hdirty : w.dirty = false → v.dirty = false) : s.Shows cfg w := by
  obtain ⟨g, l, ht, hc, hk, hm, hl, hd⟩ := h
  exact ⟨g, l, ht, hchunks.trans hc, fun tag hs => hk tag (hsec tag hs), hmetas.trans hm,
    hlast.trans hl, fun h0 => hd (hdirty h0)⟩

/-! ## Reads -/

theorem getMeta [Zero β] (h : s.Shows cfg v) (rf : RelFork) :
    ∃ s', s.getMeta cfg rf = (found (v.metas.values rf), s') ∧ s'.Shows cfg v := by
  obtain ⟨g, l, ht, hc, hk, hm, hl, hd⟩ := h
  obtain ⟨s', hs, -⟩ := ht.inv.getMeta_of_inv rf
  have hok : (Step.getMeta rf : Step β).LsnAscending g := trivial
  have hstep := ht.step hok
  have hwritten := ht.written_step hok
  rw [Db.step, hs] at hstep hwritten
  refine ⟨s', by rw [hm, hs], g, l, hstep, ?_, hk, hm, hl, hd⟩
  funext tag
  exact (congrFun hc tag).trans (hwritten tag).symm

/-- **A secured chunk is found**; any other is found or not. -/
theorem getChunk [Zero β] (h : s.Shows cfg v) (tag : ChunkTag) :
    ∃ r s', s.getChunk cfg tag = (r, s') ∧ s'.Shows cfg v ∧
      (r = found (v.chunks.values tag) ∨ r = .error .notFound ∧ ¬ v.chunks.secured tag) := by
  obtain ⟨g, l, ht, hc, hk, hm, hl, hd⟩ := h
  have hok : (Step.getChunk tag : Step β).LsnAscending g := trivial
  refine ⟨(s.getChunk cfg tag).1, (s.getChunk cfg tag).2, rfl,
    ⟨g, l, ht.step hok, ?_, hk, hm, hl, hd⟩, ?_⟩
  · funext tag'
    exact (congrFun hc tag').trans (ht.written_step hok tag').symm
  · rw [hc]
    exact (ht.getChunk_written tag).imp_right fun ⟨hr, hdrop⟩ =>
      ⟨hr, fun hs => (hk tag hs).not_dropped hdrop⟩

/-! ## Writes -/

theorem putMeta [Zero β] (h : s.Shows cfg v) (rf : RelFork) (m : RelForkMeta) :
    ∃ s', s.putMeta cfg .ok rf m = (.ok (), s') ∧ s'.Shows cfg (v.saveMeta (rf, m)) := by
  obtain ⟨g, l, ht, hc, hk, hm, hl, -⟩ := h
  obtain ⟨s', hs, -⟩ := ht.inv.putMeta rf m
  have hok : (Step.putMeta rf m : Step β).LsnAscending g := trivial
  have hstep := ht.step hok
  have hwritten := ht.written_step hok
  rw [Db.step, hs] at hstep hwritten
  refine ⟨s', hs, _, _, hstep, ?_, hk, ?_, hl, fun h0 => absurd h0 (by simp [StoreView.saveMeta])⟩
  · funext tag
    exact (congrFun hc tag).trans (hwritten tag).symm
  · exact congrArg (fun f => Function.update f rf (some m)) hm

/-- **A write secures its chunk**; it is merged over the newest version, or over zeros where that is not
secured. -/
theorem patchChunk [Zero β] (h : s.Shows cfg v) (tag : ChunkTag) (blockOffset : ℕ) (data : List β)
    (hdata : data ≠ [] ∧ blockOffset + data.length ≤ blocksPerChunk) :
    ∃ s' c, s.patchChunk cfg .ok tag blockOffset data = (.ok (), s') ∧
      s'.Shows cfg (v.saveChunk (tag, c.splice blockOffset data)) ∧
      (c = (v.chunks.values tag).getD .zero ∨ c = .zero ∧ ¬ v.chunks.secured tag) := by
  obtain ⟨g, l, ht, hc, hk, hm, hl, -⟩ := id h
  obtain ⟨s', hs, -⟩ := ht.inv.patchChunk tag blockOffset data
  have hok : (Step.patchChunk tag blockOffset data).LsnAscending g := hdata
  have hstep := ht.step hok
  have hwritten := ht.written_step hok
  rw [Db.step, hs] at hstep hwritten
  refine ⟨s', (s.getChunk cfg tag).1.toOption.getD .zero, hs, ⟨_, _, hstep, ?_, ?_, hm, hl,
    fun h0 => absurd h0 (by simp [StoreView.saveChunk])⟩, ?_⟩
  · funext tag'
    have hval := congrFun hc tag'
    rw [hwritten, Db.rewritten, ← hval]
    simp only [StoreView.saveChunk, WriteBack.Backing.save, Function.update_apply]
    by_cases ht' : tag' = tag
    · subst ht'
      rfl
    · rw [if_neg ht', if_neg ht']
  · have hadd : ∀ tag', (DraftBuffer.addChunk l.frame tag).containsChunk tag' =
        (decide (tag' = tag) || l.frame.containsChunk tag') := fun tag' => SortedSet.contains_add _ _ _
    rintro tag' (hs' | rfl)
    · refine (hk tag' hs').imp_left fun hf => ?_
      rw [Ledger.step, hadd, hf, Bool.or_true]
    · refine .inl ?_
      rw [Ledger.step, hadd, decide_eq_true rfl, Bool.true_or]
  · obtain ⟨r, s₁, hr, -, hval⟩ := h.getChunk tag
    rw [hr]
    rcases hval with hval | ⟨hval, hsec⟩
    · refine .inl ?_
      rw [hval]
      cases v.chunks.values tag <;> rfl
    · exact .inr ⟨by rw [hval]; rfl, hsec⟩

/-- A write of a whole chunk. -/
theorem putChunk [Zero β] (h : s.Shows cfg v) (tag : ChunkTag) (c : Chunk β) :
    (s.patchChunk cfg .ok tag 0 (List.ofFn c)).2.Shows cfg (v.saveChunk (tag, c)) := by
  have hlen : (List.ofFn c).length = blocksPerChunk := List.length_ofFn
  have hne : List.ofFn c ≠ [] := List.ne_nil_of_length_pos (by rw [hlen]; decide)
  obtain ⟨s', c', hs, hshow, -⟩ := h.patchChunk tag 0 (List.ofFn c)
    ⟨hne, by rw [hlen, Nat.zero_add]⟩
  have hsplice : c'.splice 0 (List.ofFn c) = c := by
    funext i
    simp [Chunk.splice]
  rw [hs, ← hsplice]
  exact hshow

/-! ## Commits -/

/-- **A commit keeps the chunks secured of relations that are not deleted.** -/
theorem commit [Zero β] (h : s.Shows cfg v) {a : Db.CommitArgs}
    (hok : v.last.lsn < a.ckpt.lsn ∧ 1 ≤ a.ckpt.timelineId ∧ v.last.timelineId ≤ a.ckpt.timelineId) :
    ∃ s', s.runCommitProtocol cfg .ok a = (.ok (), s') ∧ s'.Shows cfg (v.commit a.ckpt) := by
  obtain ⟨g, l, ht, hc, hk, hm, hl, -⟩ := h
  rw [hl] at hok
  have hst : (Step.commit a : Step β).LsnAscending g := hok
  have hlt : s.timeline.headCkpt < a.ckpt := ht.inv.last ▸ hst.ordered
  obtain ⟨s', hs, hinv⟩ := ht.inv.runCommitProtocol hlt
  have hstep := ht.step hst
  have hwritten := ht.written_step hst
  rw [Db.step, hs] at hstep hwritten
  refine ⟨s', hs, _, _, hstep, ?_, ?_, hm, rfl, fun _ => rfl⟩
  · funext tag
    rw [hwritten]
    exact congrFun hc tag
  · rintro tag ⟨hsec, hlive⟩
    have hrec : (l.step (Step.commit a : Step β)).records = l.records ++ [a.summary l.head l.frame] := rfl
    -- from the commit on the relation is what it is now
    have hnow : ∀ k, a.ckpt ≤ k →
        deletedAt (l.records ++ [a.summary l.head l.frame]) k tag.relFork = false := by
      intro k hak
      have hup : upTo k (l.records ++ [a.summary l.head l.frame]) =
          l.records ++ [a.summary l.head l.frame] := by
        have := hstep.inv.log.upTo_of_head_le (k := k) (by rw [← hstep.inv.last]; exact hak)
        rwa [hrec] at this
      rw [deletedAt, metaAt, hup, newest_append_singleton]
      have hmetas := ht.inv.metas tag.relFork
      rw [← hm] at hmetas
      rw [hmetas] at hlive
      exact hlive
    rw [Kept, hrec]
    refine .inr ?_
    rcases hk tag hsec with hf | ⟨e, he, hce, hall⟩
    · exact ⟨_, List.mem_append_right _ (List.mem_singleton.mpr rfl), hf, hnow⟩
    · refine ⟨e, List.mem_append_left _ he, hce, fun k hek => ?_⟩
      rcases le_or_gt a.ckpt k with hak | hak
      · exact hnow k hak
      · rw [deletedAt_append fun x hx => (List.mem_singleton.mp hx) ▸ hak]
        exact hall k hek

/-! ## Other steps -/

/-- A step that neither writes nor commits. -/
def quietStep (v : StoreView β) : Step β → Prop
  | .spill | .compact _ | .compactThrough .. => True
  | .restart _ => v.dirty = false
  | _ => False

/-- Spills, compactions and restarts without unsaved writes change nothing. -/
theorem step [Zero β] (h : s.Shows cfg v) (st : Step β) (hst : quietStep v st) :
    (s.step cfg st).Shows cfg v := by
  obtain ⟨g, l, ht, hc, hk, hm, hl, hd⟩ := h
  have hok : st.LsnAscending g := by
    cases st with
    | restart tikmLost => exact hd hst
    | spill => trivial
    | compact now => trivial
    | compactThrough target now => trivial
    | _ => exact absurd hst id
  refine ⟨_, _, ht.step hok, ?_, ?_, ?_, ?_, ?_⟩
  · funext tag
    rw [hc, ht.written_step hok]
    cases st with
    | patchChunk tag' blockOffset data => exact absurd hst id
    | _ => rfl
  all_goals cases st with
    | restart tikmLost => assumption
    | spill => assumption
    | compact now => assumption
    | compactThrough target now => assumption
    | _ => exact absurd hst id

theorem runCompaction [Zero β] (h : s.Shows cfg v) (now : ℤ) :
    ∃ r s', s.runCompaction cfg now = (.ok r, s') ∧ s'.Shows cfg v := by
  have hstep := h.step (.compact now) trivial
  obtain ⟨g, l, ht, -⟩ := h
  obtain ⟨r, s', hs, -⟩ := ht.inv.runCompaction now
  rw [Db.step, hs] at hstep
  exact ⟨r, s', hs, hstep⟩

theorem runCompactionThrough [Zero β] (h : s.Shows cfg v) (target : Checkpoint) (now : ℤ) :
    ∃ r s', s.runCompactionThrough cfg target now = (.ok r, s') ∧ s'.Shows cfg v := by
  have hstep := h.step (.compactThrough target now) trivial
  obtain ⟨g, l, ht, -⟩ := h
  obtain ⟨r, s', hs, -⟩ := ht.inv.runCompactionThrough target now
  rw [Db.step, hs] at hstep
  exact ⟨r, s', hs, hstep⟩

theorem spillToFile [Zero β] (h : s.Shows cfg v) :
    ∃ d, s.draft.spillToFile cfg.codec .ok = (.ok (), d) ∧ Db.Shows cfg { s with draft := d } v := by
  have hstep := h.step .spill trivial
  obtain ⟨g, l, ht, -⟩ := h
  obtain ⟨d, hd, -⟩ := ht.inv.spill
  rw [Db.step, hd] at hstep
  exact ⟨d, hd, hstep⟩

end Db.Shows

end Shows

end Tiko

import Tiko.Ops.Caches

/-!
# The operations on a view

With the caches or without them, the operations on relation forks do the same to the view of the store
that they have, but for the block count that a deletion leaves behind.

* `Ends.bind`: operations one after the other;
* the store without caches: `Db.Shows.putNblocks`, `Db.Shows.createRelfork` and so on;
* `Shows.forkExists`, `Shows.create`, `Shows.getNblocks`, `Shows.setNblocks`: metadata;
* `Shows.truncateRelfork`, `Shows.deleteFork`: what is cut off leaves the view;
* `Shows.loadChunk`, `Shows.storeBlocks`: chunks.
-/

namespace Tiko

open Lib

variable {N : ℕ} {P β : Type}

/-! ## Changes to metadata -/

namespace RelForkMeta

/-- Another block count, of a relation fork that is not deleted. -/
def resize (nblocks : UInt32) (m : RelForkMeta) : Except BlockError RelForkMeta :=
  if m.deleted then .error .notFound else .ok { m with nblocks := nblocks }

/-- The mark of a deletion, with the block count that it leaves behind. -/
def markDeleted (left : RelForkMeta → UInt32) (m : RelForkMeta) : Except BlockError RelForkMeta :=
  if m.deleted then .error .notFound else .ok ⟨left m, true⟩

end RelForkMeta

/-- The number of blocks of a relation fork. -/
def StoreView.nblocks (w : StoreView β) (rf : RelFork) : Except BlockError UInt32 :=
  match w.metas.values rf with
  | none => .error .notFound
  | some m => if m.deleted then .error .notFound else .ok m.nblocks

/-! ## The store without caches -/

namespace Db.Shows

variable [Zero β] {cfg : StoreConfig} {s : Db β} {v : StoreView β}

theorem getDeleted (h : s.Shows cfg v) (rf : RelFork) :
    ∃ s', s.getDeleted cfg rf = ((found (v.metas.values rf)).map (·.deleted), s') ∧ s'.Shows cfg v := by
  obtain ⟨s', hr, hs'⟩ := h.getMeta rf
  refine ⟨s', ?_, hs'⟩
  rw [Db.getDeleted, hr]
  cases v.metas.values rf <;> rfl

theorem getNblocks (h : s.Shows cfg v) (rf : RelFork) :
    ∃ r s', s.getNblocks cfg rf = (r, s') ∧ r.mapError .store = v.nblocks rf ∧ s'.Shows cfg v := by
  obtain ⟨s', hr, hs'⟩ := h.getMeta rf
  rw [Db.getNblocks, hr, StoreView.nblocks]
  cases v.metas.values rf with
  | none => exact ⟨_, _, rfl, rfl, hs'⟩
  | some m =>
    by_cases hd : m.deleted = true
    · simp only [found, hd, if_true]
      exact ⟨_, _, rfl, rfl, hs'⟩
    · simp only [found, hd, Bool.false_eq_true, if_false]
      exact ⟨_, _, rfl, rfl, hs'⟩

theorem putNblocks (h : s.Shows cfg v) (rf : RelFork) (nblocks : UInt32) :
    ∃ r s', s.putNblocks cfg rf nblocks = (r, s') ∧
      r.mapError .store = (v.updateMeta rf (RelForkMeta.resize nblocks)).1 ∧
      s'.Shows cfg (v.updateMeta rf (RelForkMeta.resize nblocks)).2 := by
  obtain ⟨s', hr, hs'⟩ := h.getMeta rf
  rw [Db.putNblocks, hr, StoreView.updateMeta]
  cases v.metas.values rf with
  | none => exact ⟨_, _, rfl, rfl, hs'⟩
  | some m =>
    dsimp only [found, RelForkMeta.resize]
    by_cases hd : m.deleted = true
    · simp only [hd, if_true]
      exact ⟨_, _, rfl, rfl, hs'⟩
    · obtain ⟨s'', hp, hs''⟩ := hs'.putMeta rf ⟨nblocks, false⟩
      simp only [hd, Bool.false_eq_true, if_false]
      exact ⟨_, _, hp, rfl, hs''⟩

theorem deleteRelfork (h : s.Shows cfg v) (rf : RelFork) :
    ∃ r s', s.deleteRelfork cfg rf = (r, s') ∧
      r.mapError .store = (v.updateMeta rf (RelForkMeta.markDeleted (·.nblocks))).1 ∧
      s'.Shows cfg (v.updateMeta rf (RelForkMeta.markDeleted (·.nblocks))).2 := by
  obtain ⟨s', hr, hs'⟩ := h.getMeta rf
  rw [Db.deleteRelfork, hr, StoreView.updateMeta]
  cases v.metas.values rf with
  | none => exact ⟨_, _, rfl, rfl, hs'⟩
  | some m =>
    dsimp only [found, RelForkMeta.markDeleted]
    by_cases hd : m.deleted = true
    · simp only [hd, if_true]
      exact ⟨_, _, rfl, rfl, hs'⟩
    · obtain ⟨s'', hp, hs''⟩ := hs'.putMeta rf { m with deleted := true }
      simp only [hd, Bool.false_eq_true, if_false]
      exact ⟨_, _, hp, rfl, hs''⟩

theorem createRelfork (h : s.Shows cfg v) (rf : RelFork) :
    ∃ s', s.createRelfork cfg rf = ((v.createRelfork rf).1, s') ∧
      s'.Shows cfg (v.createRelfork rf).2 := by
  obtain ⟨s', hr, hs'⟩ := h.getMeta rf
  obtain ⟨s'', hp, hs''⟩ := hs'.putMeta rf default
  rw [Db.createRelfork, hr, StoreView.createRelfork]
  cases v.metas.values rf with
  | none =>
    dsimp only [found, Option.all_none]
    rw [hp]
    exact ⟨_, rfl, hs''⟩
  | some m =>
    dsimp only [found, Option.all_some]
    by_cases hd : m.deleted = true
    · simp only [hd, Bool.not_true, Bool.false_eq_true, if_false, if_true]
      rw [hp]
      exact ⟨_, rfl, hs''⟩
    · simp only [hd, Bool.not_false, Bool.false_eq_true, if_false, if_true]
      exact ⟨_, rfl, hs'⟩

end Db.Shows

namespace Host

variable {cfg : StoreConfig} {h : Host N P β} {w w' w'' : StoreView β} {cached : Bool}

/-! ## Operations one after the other -/

section Ends

variable {α γ : Type} {x : Except BlockError α × Host N P β}
  {next : α → Host N P β → Except BlockError γ × Host N P β}

theorem Ends.cases {r : Except BlockError α} (hx : Ends cfg cached x w r w') :
    (∃ h', x = (r, h') ∧ h'.Shows cfg cached w') ∨
      ∃ h', x = (.error .evictionSweepExhausted, h') ∧ h'.Shows cfg cached w := by
  obtain ⟨r', h'⟩ := x
  cases hx with
  | answered h1 h2 => exact .inl ⟨h', by rw [← h1], h2⟩
  | exhausted h1 h2 => exact .inr ⟨h', by rw [← h1], h2⟩

/-- An operation after another. -/
theorem Ends.bind {a : α} {r : Except BlockError γ} (hx : Ends cfg cached x w (.ok a) w')
    (hnext : ∀ h', h'.Shows cfg cached w' → Ends cfg cached (next a h') w r w'') :
    Ends cfg cached (andThen x next) w r w'' := by
  rcases hx.cases with ⟨h', rfl, hs'⟩ | ⟨h', rfl, hs'⟩
  · exact hnext h' hs'
  · exact .exhausted rfl hs'

/-- An operation that fails is the last. -/
theorem Ends.error {e : BlockError} (hx : Ends cfg cached x w (.error e) w') :
    Ends cfg cached (andThen x next) w (.error e) w' := by
  rcases hx.cases with ⟨h', rfl, hs'⟩ | ⟨h', rfl, hs'⟩
  · exact .answered rfl hs'
  · exact .exhausted rfl hs'

/-- An operation on the store without caches. -/
theorem Shows.onStore (hs : h.Shows cfg false w) {f : Db β → Except BlockError α × Db β}
    {r : Except BlockError α} {s' : Db β} (hf : f h.db = (r, s')) (hs' : s'.Shows cfg w') :
    Ends cfg false (Host.onStore f h) w r w' := by
  have hstore : Host.onStore f h = (r, { h with db := s' }) := by rw [Host.onStore, hf]
  rw [hstore]
  obtain ⟨h1, h2⟩ := hs.settle.uncached hs.1
  exact .answered rfl ⟨hs.1, w', .of_empty h1 h2 hs'⟩

end Ends

variable [DecidableEq P] [Zero β] {p : P}

/-! ## Metadata -/

/-- **A relation fork exists** if it has metadata and is not deleted. -/
theorem Shows.forkExists (hs : h.Shows cfg cached w) (rf : RelFork) :
    Ends cfg cached (Host.forkExists cfg p rf h) w (.ok !(w.metas.values rf).all (·.deleted)) w := by
  have hflag : Ends cfg cached (if h.cached then
      let r := Host.getMeta cfg p rf loopTurns h
      (r.1.map (·.deleted), r.2)
    else Host.onStore (fun db => ofStore (db.getDeleted cfg rf)) h) w
      (((found (w.metas.values rf)).map (·.deleted)).mapError .store) w := by
    cases cached with
    | true =>
      rw [if_pos hs.1]
      rcases (hs.getMeta (p := p) rf).cases with ⟨h', hr, hs'⟩ | ⟨h', hr, hs'⟩ <;> rw [hr]
      · cases w.metas.values rf <;> exact .answered rfl hs'
      · exact .exhausted rfl hs'
    | false =>
      obtain ⟨s', hr, hs'⟩ := hs.settle.store.getDeleted rf
      rw [if_neg (by simp [hs.1])]
      exact hs.onStore (by rw [ofStore, hr]) hs'
  rw [Host.forkExists]
  rcases hflag.cases with ⟨h', hr, hs'⟩ | ⟨h', hr, hs'⟩ <;> rw [hr]
  · cases w.metas.values rf <;> exact .answered rfl hs'
  · exact .exhausted rfl hs'

/-- **A creation** answers whether there was no such relation fork. -/
theorem Shows.create (hs : h.Shows cfg cached w) (rf : RelFork) :
    Ends cfg cached (Host.create cfg p rf h) w (.ok ((w.metas.values rf).all (·.deleted)))
      (w.createRelfork rf).2 := by
  have hmade : Ends cfg cached (if h.cached then Host.createRelfork cfg p rf loopTurns h
      else Host.onStore (fun db => db.createRelfork cfg rf) h) w (w.createRelfork rf).1
      (w.createRelfork rf).2 := by
    cases cached with
    | true =>
      rw [if_pos hs.1]
      exact hs.createRelfork rf
    | false =>
      obtain ⟨s', hr, hs'⟩ := hs.settle.store.createRelfork rf
      rw [if_neg (by simp [hs.1])]
      exact hs.onStore hr hs'
  rw [Host.create]
  rcases hmade.cases with ⟨h', hr, hs'⟩ | ⟨h', hr, hs'⟩ <;> rw [hr]
  · rw [StoreView.createRelfork] at hs' ⊢
    cases hd : (w.metas.values rf).all (·.deleted) <;> rw [hd] at hs' <;> exact .answered rfl hs'
  · exact .exhausted rfl hs'

theorem Shows.getNblocks (hs : h.Shows cfg cached w) (rf : RelFork) :
    Ends cfg cached (Host.getNblocks cfg p rf h) w (w.nblocks rf) w := by
  rw [Host.getNblocks]
  cases cached with
  | true =>
    have hmeta := hs.getMeta (p := p) rf
    rw [if_pos hs.1, StoreView.nblocks]
    cases hm : w.metas.values rf with
    | none =>
      rw [hm] at hmeta
      exact hmeta.error
    | some m =>
      rw [hm] at hmeta
      refine hmeta.bind fun h' hs' => ?_
      dsimp only
      split_ifs <;> exact .answered rfl hs'
  | false =>
    obtain ⟨r, s', hr, hn, hs'⟩ := hs.settle.store.getNblocks rf
    rw [if_neg (by simp [hs.1])]
    exact hs.onStore (by rw [ofStore, hr, hn]) hs'

theorem Shows.setNblocks (hs : h.Shows cfg cached w) (rf : RelFork) (nblocks : UInt32) :
    Ends cfg cached (Host.setNblocks cfg p rf nblocks h) w
      (w.updateMeta rf (RelForkMeta.resize nblocks)).1
      (w.updateMeta rf (RelForkMeta.resize nblocks)).2 := by
  rw [Host.setNblocks]
  cases cached with
  | true =>
    rw [if_pos hs.1]
    exact hs.updateMeta rf (RelForkMeta.resize nblocks)
  | false =>
    obtain ⟨r, s', hr, hn, hs'⟩ := hs.settle.store.putNblocks rf nblocks
    rw [if_neg (by simp [hs.1])]
    exact hs.onStore (by rw [ofStore, hr, hn]) hs'

/-! ## Truncations and deletions -/

omit [DecidableEq P] [Zero β] in
/-- After a change to the metadata the chunks that lie beyond a block are dropped. -/
theorem Ends.truncateChunks {x : Except BlockError Unit × Host N P β} {r : Except BlockError Unit}
    (hx : Ends cfg true x w r w') (rf : RelFork) (firstBlock : UInt32) :
    ∃ w'', Trims rf firstBlock w' w'' ∧
      Ends cfg true (andThen x fun _ h => (.ok (), Host.truncateChunks rf firstBlock h)) w r w'' := by
  rcases hx.cases with ⟨h', rfl, hs'⟩ | ⟨h', rfl, hs'⟩
  · cases r with
    | ok u =>
      obtain ⟨w'', htrim, hs''⟩ := hs'.truncateChunks rf firstBlock
      exact ⟨w'', htrim, .answered rfl hs''⟩
    | error e => exact ⟨w', .refl rf firstBlock w', .answered rfl hs'⟩
  · exact ⟨w', .refl rf firstBlock w', .exhausted rfl hs'⟩

/-- **A truncation** sets the block count, and what lies beyond it leaves the view. -/
theorem Shows.truncateRelfork (hs : h.Shows cfg cached w) (rf : RelFork) (nblocks : UInt32) :
    ∃ w', Trims rf nblocks (w.updateMeta rf (RelForkMeta.resize nblocks)).2 w' ∧
      Ends cfg cached (Host.truncateRelfork cfg p rf nblocks h) w
        (w.updateMeta rf (RelForkMeta.resize nblocks)).1 w' := by
  rw [Host.truncateRelfork]
  cases cached with
  | true =>
    rw [if_pos hs.1]
    exact (hs.updateMeta rf (RelForkMeta.resize nblocks)).truncateChunks rf nblocks
  | false =>
    obtain ⟨r, s', hr, hn, hs'⟩ := hs.settle.store.putNblocks rf nblocks
    rw [if_neg (by simp [hs.1])]
    exact ⟨_, .refl rf nblocks _, hs.onStore (by rw [ofStore, hr, hn]) hs'⟩

/-- **A deletion** marks the relation fork, and its chunks leave the view. -/
theorem Shows.deleteFork (hs : h.Shows cfg cached w) (rf : RelFork) :
    ∃ left w', Trims rf 0 (w.updateMeta rf (RelForkMeta.markDeleted left)).2 w' ∧
      Ends cfg cached (Host.deleteFork cfg p rf h) w
        (w.updateMeta rf (RelForkMeta.markDeleted left)).1 w' := by
  rw [Host.deleteFork]
  cases cached with
  | true =>
    rw [if_pos hs.1]
    exact ⟨fun _ => 0, (hs.updateMeta rf (RelForkMeta.markDeleted fun _ => 0)).truncateChunks rf 0⟩
  | false =>
    obtain ⟨r, s', hr, hn, hs'⟩ := hs.settle.store.deleteRelfork rf
    rw [if_neg (by simp [hs.1])]
    exact ⟨(·.nblocks), _, .refl rf 0 _, hs.onStore (by rw [ofStore, hr, hn]) hs'⟩

/-! ## Chunks -/

theorem Shows.loadChunk (hs : h.Shows cfg cached w) {tag : ChunkTag} (hsec : w.chunks.secured tag) :
    Ends cfg cached (Host.loadChunk cfg p tag h) w ((found (w.chunks.values tag)).mapError .store) w := by
  rw [Host.loadChunk]
  cases cached with
  | true =>
    rw [if_pos hs.1]
    exact hs.getChunk hsec
  | false =>
    obtain ⟨r, s', hr, hs', hfound⟩ := hs.settle.store.getChunk tag
    rw [if_neg (by simp [hs.1])]
    obtain rfl := hfound.resolve_right fun hn => hn.2 hsec
    exact hs.onStore (by rw [ofStore, hr]) hs'

/-- **Blocks that are stored** are merged over what the view has, or over zeros where that is not
secured. -/
theorem Shows.storeBlocks (hs : h.Shows cfg cached w) (tag : ChunkTag) (blockOffset : ℕ) (data : List β)
    (hdata : data ≠ [] ∧ blockOffset + data.length ≤ blocksPerChunk) :
    ∃ c, (c = (w.chunks.values tag).getD .zero ∨ c = .zero ∧ ¬ w.chunks.secured tag) ∧
      Ends cfg cached (Host.storeBlocks cfg p tag blockOffset data h) w (.ok ())
        (w.saveChunk (tag, c.splice blockOffset data)) := by
  rw [Host.storeBlocks]
  cases cached with
  | true =>
    rw [if_pos hs.1]
    exact hs.patchChunk tag blockOffset data
  | false =>
    obtain ⟨s', c, hr, hs', hc⟩ := hs.settle.store.patchChunk tag blockOffset data hdata
    rw [if_neg (by simp [hs.1])]
    exact ⟨c, hc, hs.onStore (by rw [ofStore, hr]; rfl) hs'⟩

end Host

end Tiko

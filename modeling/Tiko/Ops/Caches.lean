import Tiko.Ops.Host

/-!
# The caches are transparent

Through the caches the store shows as it does without them: `Host.Shows` has the same views as
`Db.Shows`. A value is that of the cache, or else of the store; a chunk is secured when it is dirty in
the cache, or secured in the store.

* `Shows.insertMeta`, `Shows.insertChunk`: an insertion and the write-back of its victim;
* `Shows.getMeta`, `Shows.updateMeta`, `Shows.createRelfork`: metadata through the cache;
* `Shows.getChunk`, `Shows.patchChunk`: chunks through the cache;
* **`Shows.runCommitProtocol`**: the flush before a commit hands everything to the store.

A sweep that finds no victim fails the operation. All other answers are those of the store.
-/

namespace Tiko

open Lib

variable {N : ℕ} {P β : Type}

/-! ## What the operations on metadata do -/

namespace StoreView

/-- A change to the metadata of a relation fork, which may be refused. -/
def updateMeta (v : StoreView β) (rf : RelFork) (change : RelForkMeta → Except BlockError RelForkMeta) :
    Except BlockError Unit × StoreView β :=
  match v.metas.values rf with
  | none => (.error .notFound, v)
  | some m =>
    match change m with
    | .error e => (.error e, v)
    | .ok m => (.ok (), v.saveMeta (rf, m))

/-- A relation fork is created, unless there is one that is not deleted. -/
def createRelfork (v : StoreView β) (rf : RelFork) : Except BlockError Unit × StoreView β :=
  if (v.metas.values rf).all (·.deleted) then (.ok (), v.saveMeta (rf, default))
  else (.error .alreadyExists, v)

end StoreView

/-! ## The caches over a view -/

namespace Host

/-- No slot of the caches is dirty. -/
def Clean (h : Host N P β) : Prop :=
  (∀ tag c, h.chunkCache.get tag ≠ some (c, true)) ∧ ∀ rf m, h.metaCache.get rf ≠ some (m, true)

/-- The caches and the store behind them agree with a view. Without shared memory the caches are
empty. -/
structure ShowsOver (cfg : StoreConfig) (h : Host N P β) (v w : StoreView β) : Prop where
  store : h.db.Shows cfg v
  chunks : h.chunkCache.Coherent v.chunks
  metas : h.metaCache.Coherent v.metas
  chunk_eq : w.chunks.values = h.chunkCache.view v.chunks
  secured : ∀ tag, w.chunks.secured tag → h.chunkCache.Secured v.chunks tag
  meta_eq : w.metas.values = h.metaCache.view v.metas
  last : w.last = v.last
  clean : w.dirty = false → v.dirty = false ∧ h.Clean
  uncached : h.cached = false → (∀ tag, h.chunkCache.get tag = none) ∧ ∀ rf, h.metaCache.get rf = none

/-- The host agrees with a view of it, with or without its caches. -/
def Shows (cfg : StoreConfig) (cached : Bool) (h : Host N P β) (w : StoreView β) : Prop :=
  h.cached = cached ∧ ∃ v, h.ShowsOver cfg v w

/-- An operation gives an answer and a view, or finds no victim and leaves the view as it was. -/
inductive Ends {α : Type} (cfg : StoreConfig) (cached : Bool) (x : Except BlockError α × Host N P β)
    (w : StoreView β) (r : Except BlockError α) (w' : StoreView β) : Prop where
  | answered (h1 : x.1 = r) (h2 : x.2.Shows cfg cached w')
  | exhausted (h1 : x.1 = .error .evictionSweepExhausted) (h2 : x.2.Shows cfg cached w)

variable {cfg : StoreConfig} {h : Host N P β} {v w : StoreView β}

theorem onStore_ofStore {α : Type} {f : Db β → Except Error α × Db β} {r : Except Error α} {s' : Db β}
    (hf : f h.db = (r, s')) :
    onStore (fun db => ofStore (f db)) h = (r.mapError .store, { h with db := s' }) := by
  rw [onStore, ofStore, hf]

/-! ## Write-backs -/

section Saves

theorem metas_foldl_saveMeta (v : StoreView β) (saved : List (RelFork × RelForkMeta)) :
    (saved.foldl StoreView.saveMeta v).metas = saved.foldl WriteBack.Backing.save v.metas ∧
      (saved.foldl StoreView.saveMeta v).chunks = v.chunks ∧
      (saved.foldl StoreView.saveMeta v).last = v.last := by
  induction saved generalizing v with
  | nil => exact ⟨rfl, rfl, rfl⟩
  | cons x saved ih => exact ih (v.saveMeta x)

theorem chunks_foldl_saveChunk (v : StoreView β) (saved : List (ChunkTag × Chunk β)) :
    (saved.foldl StoreView.saveChunk v).chunks = saved.foldl WriteBack.Backing.save v.chunks ∧
      (saved.foldl StoreView.saveChunk v).metas = v.metas ∧
      (saved.foldl StoreView.saveChunk v).last = v.last := by
  induction saved generalizing v with
  | nil => exact ⟨rfl, rfl, rfl⟩
  | cons x saved ih => exact ih (v.saveChunk x)

theorem shows_foldl_putMeta [Zero β] {s : Db β} (hs : s.Shows cfg v)
    (saved : List (RelFork × RelForkMeta)) :
    (saved.foldl (fun db x => (Db.putMeta cfg .ok db x.1 x.2).2) s).Shows cfg
      (saved.foldl StoreView.saveMeta v) := by
  induction saved generalizing s v with
  | nil => exact hs
  | cons x saved ih =>
    obtain ⟨s', hr, hs'⟩ := hs.putMeta x.1 x.2
    rw [List.foldl_cons, hr]
    exact ih hs'

theorem shows_foldl_putChunk [Zero β] {s : Db β} (hs : s.Shows cfg v)
    (saved : List (ChunkTag × Chunk β)) :
    (saved.foldl (fun db x => (Db.patchChunk cfg .ok db x.1 0 (List.ofFn x.2)).2) s).Shows cfg
      (saved.foldl StoreView.saveChunk v) := by
  induction saved generalizing s v with
  | nil => exact hs
  | cons x saved ih => exact ih (hs.putChunk x.1 x.2)

variable [Zero β]

/-- **Metadata that is written back shows as before.** -/
theorem ShowsOver.saveMetas (hs : h.ShowsOver cfg v w) {saved : List (RelFork × RelForkMeta)}
    {c : WriteBack N P RelFork RelForkMeta} (hc : h.metaCache.Saves saved c) :
    (Host.saveMetas cfg { h with metaCache := c } saved).ShowsOver cfg
      (saved.foldl StoreView.saveMeta v) w := by
  obtain ⟨hm, hch, hl⟩ := metas_foldl_saveMeta v saved
  refine ⟨shows_foldl_putMeta hs.store saved, ?_, ?_, ?_, ?_, ?_, hs.last.trans hl.symm, ?_, ?_⟩
  · rw [hch]
    exact hs.chunks
  · rw [hm]
    exact hc.coherent hs.metas
  · rw [hch]
    exact hs.chunk_eq
  · rw [hch]
    exact hs.secured
  · rw [hm, hs.meta_eq]
    exact funext fun rf => (hc.view_eq hs.metas rf).symm
  · intro hd
    obtain ⟨hv, hcl⟩ := hs.clean hd
    have hnil := hc.eq_nil hcl.2
    subst hnil
    exact ⟨hv, hcl.1, fun rf m => hc.not_dirty (hcl.2 rf) m⟩
  · intro hu
    obtain ⟨h1, h2⟩ := hs.uncached hu
    refine ⟨h1, fun rf => ?_⟩
    rcases hc.get rf with ⟨hg, -⟩ | ⟨m, hm', -⟩ | ⟨m, -, hg⟩
    · exact hg.trans (h2 rf)
    · exact absurd ((hc.dirty rf m hm').symm.trans (h2 rf)) (by simp)
    · exact hg

/-- **Chunks that are written back show as before.** -/
theorem ShowsOver.saveChunks (hs : h.ShowsOver cfg v w) {saved : List (ChunkTag × Chunk β)}
    {c : WriteBack N P ChunkTag (Chunk β)} (hc : h.chunkCache.Saves saved c) :
    (Host.saveChunks cfg { h with chunkCache := c } saved).ShowsOver cfg
      (saved.foldl StoreView.saveChunk v) w := by
  obtain ⟨hch, hm, hl⟩ := chunks_foldl_saveChunk v saved
  refine ⟨shows_foldl_putChunk hs.store saved, ?_, ?_, ?_, ?_, ?_, hs.last.trans hl.symm, ?_, ?_⟩
  · rw [hch]
    exact hc.coherent hs.chunks
  · rw [hm]
    exact hs.metas
  · rw [hch, hs.chunk_eq]
    exact funext fun tag => (hc.view_eq hs.chunks tag).symm
  · rw [hch]
    exact fun tag ht => hc.secured (hs.secured tag ht)
  · rw [hm]
    exact hs.meta_eq
  · intro hd
    obtain ⟨hv, hcl⟩ := hs.clean hd
    have hnil := hc.eq_nil hcl.1
    subst hnil
    exact ⟨hv, fun tag c => hc.not_dirty (hcl.1 tag) c, hcl.2⟩
  · intro hu
    obtain ⟨h1, h2⟩ := hs.uncached hu
    refine ⟨fun tag => ?_, h2⟩
    rcases hc.get tag with ⟨hg, -⟩ | ⟨m, hm', -⟩ | ⟨m, -, hg⟩
    · exact hg.trans (h1 tag)
    · exact absurd ((hc.dirty tag m hm').symm.trans (h1 tag)) (by simp)
    · exact hg

end Saves

/-! ## Changes to the caches -/

section Changes

variable {rf : RelFork} {m : RelForkMeta} {tag : ChunkTag} {c : Chunk β} {cached : Bool}

/-- Another cache of metadata over the same store. -/
theorem ShowsOver.setMetas (hs : h.ShowsOver cfg v w) {c : WriteBack N P RelFork RelForkMeta}
    {w' : StoreView β} (hcoh : c.Coherent v.metas) (hval : w'.metas.values = c.view v.metas)
    (hchunks : w'.chunks = w.chunks) (hlast : w'.last = w.last)
    (hclean : w'.dirty = false → w.dirty = false ∧ ∀ rf m, c.get rf ≠ some (m, true))
    (hunc : h.cached = false → ∀ rf, c.get rf = none) :
    ({ h with metaCache := c } : Host N P β).ShowsOver cfg v w' where
  store := hs.store
  chunks := hs.chunks
  metas := hcoh
  chunk_eq := by rw [hchunks, hs.chunk_eq]
  secured := by rw [hchunks]; exact hs.secured
  meta_eq := hval
  last := hlast.trans hs.last
  clean := fun hd => by
    obtain ⟨hw, hm⟩ := hclean hd
    obtain ⟨hv, hc, -⟩ := hs.clean hw
    exact ⟨hv, hc, hm⟩
  uncached := fun hu => ⟨(hs.uncached hu).1, hunc hu⟩

/-- Another cache of chunks over the same store. -/
theorem ShowsOver.setChunks (hs : h.ShowsOver cfg v w) {c : WriteBack N P ChunkTag (Chunk β)}
    {w' : StoreView β} (hcoh : c.Coherent v.chunks) (hval : w'.chunks.values = c.view v.chunks)
    (hsec : ∀ tag, w'.chunks.secured tag → c.Secured v.chunks tag)
    (hmetas : w'.metas = w.metas) (hlast : w'.last = w.last)
    (hclean : w'.dirty = false → w.dirty = false ∧ ∀ tag a, c.get tag ≠ some (a, true))
    (hunc : h.cached = false → ∀ tag, c.get tag = none) :
    ({ h with chunkCache := c } : Host N P β).ShowsOver cfg v w' where
  store := hs.store
  chunks := hcoh
  metas := hs.metas
  chunk_eq := hval
  secured := hsec
  meta_eq := by rw [hmetas, hs.meta_eq]
  last := hlast.trans hs.last
  clean := fun hd => by
    obtain ⟨hw, hm⟩ := hclean hd
    obtain ⟨hv, -, hc⟩ := hs.clean hw
    exact ⟨hv, hm, hc⟩
  uncached := fun hu => ⟨hunc hu, (hs.uncached hu).2⟩

theorem ShowsOver.meta_of_get (hs : h.ShowsOver cfg v w) {d : Bool}
    (hg : h.metaCache.get rf = some (m, d)) : w.metas.values rf = some m := by
  rw [hs.meta_eq, WriteBack.view, hg]
  rfl

theorem ShowsOver.meta_of_none (hs : h.ShowsOver cfg v w) (hg : h.metaCache.get rf = none) :
    w.metas.values rf = v.metas.values rf := by
  rw [hs.meta_eq, WriteBack.view, hg]
  rfl

theorem ShowsOver.chunk_of_get (hs : h.ShowsOver cfg v w) {d : Bool}
    (hg : h.chunkCache.get tag = some (c, d)) : w.chunks.values tag = some c := by
  rw [hs.chunk_eq, WriteBack.view, hg]
  rfl

theorem ShowsOver.chunk_of_none (hs : h.ShowsOver cfg v w) (hg : h.chunkCache.get tag = none) :
    w.chunks.values tag = v.chunks.values tag := by
  rw [hs.chunk_eq, WriteBack.view, hg]
  rfl

theorem ShowsOver.secured_of_none (hs : h.ShowsOver cfg v w) (hg : h.chunkCache.get tag = none)
    (hsec : w.chunks.secured tag) : v.chunks.secured tag := by
  rcases hs.secured tag hsec with ⟨a, ha⟩ | hv
  · rw [hg] at ha
    exact absurd ha (by simp)
  · exact hv

/-- **Metadata goes into the cache**: clean if it is what the store has, else dirty. -/
theorem ShowsOver.putMeta (hs : h.ShowsOver cfg v w) (hcached : h.cached = true) {d : Bool}
    {c : WriteBack N P RelFork RelForkMeta}
    (hc : c.get = Function.update h.metaCache.get rf (some (m, d)))
    (hd : d = false → h.metaCache.get rf = none ∧ w.metas.values rf = some m) :
    ({ h with metaCache := c } : Host N P β).ShowsOver cfg v (if d then w.saveMeta (rf, m) else w) := by
  have hu : h.cached = false → ∀ rf, c.get rf = none := fun hu => absurd (hcached.symm.trans hu) (by simp)
  have hcoh : c.Coherent v.metas := WriteBack.coherent_update hc hs.metas fun h0 =>
    (hs.meta_of_none (hd h0).1).symm.trans (hd h0).2
  have hview := WriteBack.view_update (b := v.metas) hc
  cases d with
  | true =>
    refine hs.setMetas hcoh ?_ rfl rfl (fun h0 => absurd h0 (by simp [StoreView.saveMeta])) hu
    rw [hview, ← hs.meta_eq]
    rfl
  | false =>
    obtain ⟨hnone, hm⟩ := hd rfl
    refine hs.setMetas hcoh ?_ rfl rfl (fun h0 => ⟨h0, fun rf' m' => ?_⟩) hu
    · rw [hview, ← hs.meta_eq, ← hm]
      exact (Function.update_eq_self rf _).symm
    · rw [hc, Function.update_apply]
      split_ifs
      · simp
      · exact (hs.clean h0).2.2 rf' m'

/-- **A chunk goes into the cache**: clean if it is what the store has, else dirty. -/
theorem ShowsOver.putChunk (hs : h.ShowsOver cfg v w) (hcached : h.cached = true) {d : Bool}
    {k : WriteBack N P ChunkTag (Chunk β)}
    (hk : k.get = Function.update h.chunkCache.get tag (some (c, d)))
    (hd : d = false → h.chunkCache.get tag = none ∧ w.chunks.values tag = some c) :
    ({ h with chunkCache := k } : Host N P β).ShowsOver cfg v (if d then w.saveChunk (tag, c) else w) := by
  have hu : h.cached = false → ∀ tag, k.get tag = none := fun hu => absurd (hcached.symm.trans hu) (by simp)
  have hcoh : k.Coherent v.chunks := WriteBack.coherent_update hk hs.chunks fun h0 =>
    (hs.chunk_of_none (hd h0).1).symm.trans (hd h0).2
  have hview := WriteBack.view_update (b := v.chunks) hk
  cases d with
  | true =>
    refine hs.setChunks hcoh ?_ ?_ rfl rfl (fun h0 => absurd h0 (by simp [StoreView.saveChunk])) hu
    · rw [hview, ← hs.chunk_eq]
      rfl
    · rintro tag' (hsec | rfl)
      · exact WriteBack.secured_update hk (.inr (.inl rfl)) (hs.secured tag' hsec)
      · exact .inl ⟨c, by rw [hk, Function.update_self]⟩
  | false =>
    obtain ⟨hnone, hm⟩ := hd rfl
    refine hs.setChunks hcoh ?_ ?_ rfl rfl (fun h0 => ⟨h0, fun tag' a => ?_⟩) hu
    · rw [hview, ← hs.chunk_eq, ← hm]
      exact (Function.update_eq_self tag _).symm
    · exact fun tag' hsec => WriteBack.secured_update hk (.inr (.inr fun a => by simp [hnone]))
        (hs.secured tag' hsec)
    · rw [hk, Function.update_apply]
      split_ifs
      · simp
      · exact (hs.clean h0).2.1 tag' a

theorem Shows.touchMeta (hs : h.Shows cfg cached w) (i : Fin N) : (touchMeta i h).Shows cfg cached w := by
  obtain ⟨hc, v, hv⟩ := hs
  have hget : (h.metaCache.touch maxUsageCount i).get = h.metaCache.get := WriteBack.get_touch _ _ _
  refine ⟨hc, v, hv.setMetas ?_ ?_ rfl rfl ?_ ?_⟩
  · exact fun k a hk => hv.metas k a (hget ▸ hk)
  · rw [hv.meta_eq]
    funext k
    rw [WriteBack.view, WriteBack.view, hget]
  · exact fun hd => ⟨hd, by rw [hget]; exact (hv.clean hd).2.2⟩
  · exact fun hu => by rw [hget]; exact (hv.uncached hu).2

theorem Shows.touchChunk (hs : h.Shows cfg cached w) (i : Fin N) :
    (touchChunk i h).Shows cfg cached w := by
  obtain ⟨hc, v, hv⟩ := hs
  have hget : (h.chunkCache.touch maxUsageCount i).get = h.chunkCache.get := WriteBack.get_touch _ _ _
  refine ⟨hc, v, hv.setChunks ?_ ?_ ?_ rfl rfl ?_ ?_⟩
  · exact fun k a hk => hv.chunks k a (hget ▸ hk)
  · rw [hv.chunk_eq]
    funext k
    rw [WriteBack.view, WriteBack.view, hget]
  · intro tag hsec
    rw [WriteBack.Secured, hget]
    exact hv.secured tag hsec
  · exact fun hd => ⟨hd, by rw [hget]; exact (hv.clean hd).2.1⟩
  · exact fun hu => by rw [hget]; exact (hv.uncached hu).1

theorem Shows.writeMeta (hs : h.Shows cfg true w) {i : Fin N} (hf : h.metaCache.find rf = some i)
    (m : RelForkMeta) : (writeMeta i m h).Shows cfg true (w.saveMeta (rf, m)) := by
  obtain ⟨hc, v, hv⟩ := hs
  have hput : ({ h with metaCache := h.metaCache.write i m } : Host N P β).Shows cfg true
      (w.saveMeta (rf, m)) :=
    ⟨hc, v, hv.putMeta (d := true) hc (WriteBack.get_write hf m) fun h0 => absurd h0 (by simp)⟩
  exact hput.touchMeta i

theorem Shows.writeChunk (hs : h.Shows cfg true w) {i : Fin N} (hf : h.chunkCache.find tag = some i)
    (c : Chunk β) : (writeChunk i c h).Shows cfg true (w.saveChunk (tag, c)) := by
  obtain ⟨hc, v, hv⟩ := hs
  have hput : ({ h with chunkCache := h.chunkCache.write i c } : Host N P β).Shows cfg true
      (w.saveChunk (tag, c)) :=
    ⟨hc, v, hv.putChunk (d := true) hc (WriteBack.get_write hf c) fun h0 => absurd h0 (by simp)⟩
  exact hput.touchChunk i

end Changes

/-! ## Metadata through the cache -/

section Metas

variable [DecidableEq P] [Zero β] {p : P} {rf : RelFork}

/-- **An insertion** fails for want of a victim, or writes its victim back and takes its place. -/
theorem Shows.insertMeta (hs : h.Shows cfg true w) (hnone : h.metaCache.get rf = none)
    (m : RelForkMeta) (d : Bool) (hd : d = false → w.metas.values rf = some m) :
    (∃ h', Host.insertMeta cfg p rf m d h = (.error .evictionSweepExhausted, h') ∧
      h'.Shows cfg true w) ∨
    ∃ h', Host.insertMeta cfg p rf m d h = (.ok true, h') ∧
      h'.Shows cfg true (if d then w.saveMeta (rf, m) else w) ∧ h'.metaCache.get rf = some (m, d) := by
  obtain ⟨hc, v, hv⟩ := hs
  unfold Host.insertMeta
  rcases WriteBack.insert_spec maxUsageCount p m d hnone with ⟨c', hi, hg⟩ | ⟨u, c₁, c', hi, hsv, hn, hg⟩
  · rw [hi]
    exact .inl ⟨_, rfl, hc, _, hv.saveMetas (.of_get_eq hg)⟩
  · rw [hi]
    have hput := (hv.saveMetas hsv).putMeta hc hg fun h0 => ⟨hn, hd h0⟩
    refine .inr ⟨_, rfl, ⟨hc, _, hput⟩, ?_⟩
    exact (congrFun hg rf).trans (Function.update_self _ _ _)

/-- A miss loads what the store has. -/
theorem Shows.loadFromStore (hs : h.Shows cfg true w) (hnone : h.metaCache.get rf = none) :
    (∃ h', Host.loadFromStore cfg p rf h = (.error .evictionSweepExhausted, h') ∧
      h'.Shows cfg true w) ∨
    (∃ h', Host.loadFromStore cfg p rf h = (.error .notFound, h') ∧ h'.Shows cfg true w ∧
      w.metas.values rf = none ∧ h'.metaCache.get rf = none) ∨
    ∃ m h', Host.loadFromStore cfg p rf h = (.ok (m, true), h') ∧ h'.Shows cfg true w ∧
      w.metas.values rf = some m ∧ h'.metaCache.get rf = some (m, false) := by
  obtain ⟨hc, v, hv⟩ := hs
  have hval := hv.meta_of_none hnone
  obtain ⟨s', hr, hs'⟩ := hv.store.getMeta rf
  have hstore : ({ h with db := s' } : Host N P β).Shows cfg true w := ⟨hc, v, { hv with store := hs' }⟩
  rw [Host.loadFromStore, onStore_ofStore hr]
  cases hm : v.metas.values rf with
  | none => exact .inr (.inl ⟨_, rfl, hstore, hval.trans hm, hnone⟩)
  | some m =>
    rw [hm] at hval
    change (∃ h', andThen (Host.insertMeta cfg p rf m false _) _ = _ ∧ _) ∨
      (∃ h', andThen (Host.insertMeta cfg p rf m false _) _ = _ ∧ _) ∨
      ∃ m' h', andThen (Host.insertMeta cfg p rf m false _) _ = _ ∧ _
    rcases hstore.insertMeta (p := p) hnone m false (fun _ => hval) with ⟨h', hi, hs⟩ | ⟨h', hi, hs, hg⟩
    · rw [hi]
      exact .inl ⟨h', rfl, hs⟩
    · rw [hi]
      exact .inr (.inr ⟨m, h', rfl, hs, hval, hg⟩)

/-- **A read of metadata** returns what the view has. -/
theorem Shows.getMeta (hs : h.Shows cfg true w) (rf : RelFork) :
    Ends cfg true (Host.getMeta cfg p rf loopTurns h) w ((found (w.metas.values rf)).mapError .store)
      w := by
  rw [loopTurns, Host.getMeta]
  cases hl : h.metaCache.lookup rf with
  | some x =>
    obtain ⟨i, m⟩ := x
    obtain ⟨hc, v, hv⟩ := id hs
    rw [hv.meta_of_get (WriteBack.of_lookup hl).2.2]
    exact .answered rfl (hs.touchMeta i)
  | none =>
    have hnone := WriteBack.lookup_eq_none_iff.mp hl
    rcases hs.loadFromStore (p := p) hnone with ⟨h', hr, hs'⟩ | ⟨h', hr, hs', hm, -⟩ | ⟨m, h', hr, hs', hm, -⟩
    · dsimp only
      rw [hr]
      exact .exhausted rfl hs'
    · dsimp only
      rw [hr, hm]
      exact .answered rfl hs'
    · dsimp only
      rw [hr, hm]
      exact .answered rfl hs'

omit [Zero β] in
/-- An update of metadata that is in the cache. -/
theorem Shows.updateMeta_hit (hs : h.Shows cfg true w) {m : RelForkMeta} {d : Bool}
    (hg : h.metaCache.get rf = some (m, d)) (change : RelForkMeta → Except BlockError RelForkMeta)
    (turns : ℕ) :
    Ends cfg true (Host.updateMeta cfg p rf change (turns + 1) h) w (w.updateMeta rf change).1
      (w.updateMeta rf change).2 := by
  obtain ⟨i, hl⟩ := WriteBack.lookup_of_get hg
  obtain ⟨hc, v, hv⟩ := id hs
  rw [Host.updateMeta, hl, StoreView.updateMeta, hv.meta_of_get hg]
  dsimp only
  cases change m with
  | error e => exact .answered rfl hs
  | ok m' => exact .answered rfl (hs.writeMeta (WriteBack.of_lookup hl).1 m')

/-- **An update of metadata**: a miss loads it, and the next turn finds it. -/
theorem Shows.updateMeta (hs : h.Shows cfg true w) (rf : RelFork)
    (change : RelForkMeta → Except BlockError RelForkMeta) :
    Ends cfg true (Host.updateMeta cfg p rf change loopTurns h) w (w.updateMeta rf change).1
      (w.updateMeta rf change).2 := by
  cases hg : h.metaCache.get rf with
  | some x => exact hs.updateMeta_hit hg change _
  | none =>
    rw [loopTurns, Host.updateMeta, WriteBack.lookup_eq_none_iff.mpr hg]
    dsimp only
    rcases hs.loadFromStore (p := p) hg with ⟨h', hr, hs'⟩ | ⟨h', hr, hs', hm, -⟩ | ⟨m, h', hr, hs', -, hg'⟩
    · rw [hr]
      exact .exhausted rfl hs'
    · rw [hr, StoreView.updateMeta, hm]
      exact .answered rfl hs'
    · rw [hr]
      exact hs'.updateMeta_hit hg' change _

omit [Zero β] in
/-- A creation of a relation fork that is in the cache. -/
theorem Shows.createRelfork_hit (hs : h.Shows cfg true w) {m : RelForkMeta} {d : Bool}
    (hg : h.metaCache.get rf = some (m, d)) (turns : ℕ) :
    Ends cfg true (Host.createRelfork cfg p rf (turns + 1) h) w (w.createRelfork rf).1
      (w.createRelfork rf).2 := by
  obtain ⟨i, hl⟩ := WriteBack.lookup_of_get hg
  obtain ⟨hc, v, hv⟩ := id hs
  rw [Host.createRelfork, hl, StoreView.createRelfork, hv.meta_of_get hg]
  dsimp only [Option.all_some]
  by_cases hd : m.deleted = true
  · simp only [hd, Bool.not_true, Bool.false_eq_true, if_false, if_true]
    exact .answered rfl (hs.writeMeta (WriteBack.of_lookup hl).1 ⟨0, false⟩)
  · simp only [hd, Bool.not_false, Bool.false_eq_true, if_false, if_true]
    exact .answered rfl hs

/-- **A creation** of a relation fork that is not there, or is deleted. -/
theorem Shows.createRelfork (hs : h.Shows cfg true w) (rf : RelFork) :
    Ends cfg true (Host.createRelfork cfg p rf loopTurns h) w (w.createRelfork rf).1
      (w.createRelfork rf).2 := by
  cases hg : h.metaCache.get rf with
  | some x => exact hs.createRelfork_hit hg _
  | none =>
    rw [loopTurns, Host.createRelfork, WriteBack.lookup_eq_none_iff.mpr hg]
    dsimp only
    rcases hs.loadFromStore (p := p) hg with ⟨h', hr, hs'⟩ | ⟨h', hr, hs', hm, hg'⟩ |
      ⟨m, h', hr, hs', -, hg'⟩
    · rw [hr]
      exact .exhausted rfl hs'
    · rw [hr, StoreView.createRelfork, hm]
      dsimp only [Option.all_none]
      -- it is not in the store either: a new entry, which is dirty
      change Ends cfg true (andThen (Host.insertMeta cfg p rf ⟨0, false⟩ true h') _) w (.ok ())
        (w.saveMeta (rf, ⟨0, false⟩))
      rcases hs'.insertMeta (p := p) hg' ⟨0, false⟩ true (fun h0 => absurd h0 (by simp)) with
        ⟨h'', hi, hs''⟩ | ⟨h'', hi, hs'', -⟩
      · rw [hi]
        exact .exhausted rfl hs''
      · rw [hi]
        exact .answered rfl hs''
    · rw [hr]
      exact hs'.createRelfork_hit hg' _

end Metas

/-! ## Chunks through the cache -/

section Chunks

variable [DecidableEq P] [Zero β] {p : P} {tag : ChunkTag}

theorem Shows.insertChunk (hs : h.Shows cfg true w) (hnone : h.chunkCache.get tag = none)
    (c : Chunk β) (d : Bool) (hd : d = false → w.chunks.values tag = some c) :
    (∃ h', Host.insertChunk cfg p tag c d h = (.error .evictionSweepExhausted, h') ∧
      h'.Shows cfg true w) ∨
    ∃ h', Host.insertChunk cfg p tag c d h = (.ok true, h') ∧
      h'.Shows cfg true (if d then w.saveChunk (tag, c) else w) := by
  obtain ⟨hc, v, hv⟩ := hs
  unfold Host.insertChunk
  rcases WriteBack.insert_spec maxUsageCount p c d hnone with ⟨c', hi, hg⟩ | ⟨u, c₁, c', hi, hsv, hn, hg⟩
  · rw [hi]
    exact .inl ⟨_, rfl, hc, _, hv.saveChunks (.of_get_eq hg)⟩
  · rw [hi]
    exact .inr ⟨_, rfl, hc, _, (hv.saveChunks hsv).putChunk hc hg fun h0 => ⟨hn, hd h0⟩⟩

/-- **A secured chunk is found**, in the cache or in the store. -/
theorem Shows.getChunk (hs : h.Shows cfg true w) (hsec : w.chunks.secured tag) :
    Ends cfg true (Host.getChunk cfg p tag loopTurns h) w
      ((found (w.chunks.values tag)).mapError .store) w := by
  rw [loopTurns, Host.getChunk]
  obtain ⟨hc, v, hv⟩ := id hs
  cases hl : h.chunkCache.lookup tag with
  | some x =>
    obtain ⟨i, c⟩ := x
    rw [hv.chunk_of_get (WriteBack.of_lookup hl).2.2]
    exact .answered rfl (hs.touchChunk i)
  | none =>
    have hnone := WriteBack.lookup_eq_none_iff.mp hl
    obtain ⟨r, s', hr, hs', hfound⟩ := hv.store.getChunk tag
    have hstore : ({ h with db := s' } : Host N P β).Shows cfg true w := ⟨hc, v, { hv with store := hs' }⟩
    have hval : r = found (w.chunks.values tag) := by
      rw [hv.chunk_of_none hnone]
      exact hfound.resolve_right fun hn => hn.2 (hv.secured_of_none hnone hsec)
    subst hval
    dsimp only
    rw [onStore_ofStore hr]
    cases hm : w.chunks.values tag with
    | none => exact .answered rfl hstore
    | some c =>
      change Ends cfg true (andThen (Host.insertChunk cfg p tag c false _) _) w (.ok c) w
      rcases hstore.insertChunk (p := p) hnone c false (fun _ => hm) with ⟨h', hi, hs''⟩ | ⟨h', hi, hs''⟩
      · rw [hi]
        exact .exhausted rfl hs''
      · rw [hi]
        exact .answered rfl hs''

/-- **A patch of a chunk** is merged over what the view has, or over zeros where that is not secured. -/
theorem Shows.patchChunk (hs : h.Shows cfg true w) (tag : ChunkTag) (blockOffset : ℕ) (data : List β) :
    ∃ c, (c = (w.chunks.values tag).getD .zero ∨ c = .zero ∧ ¬ w.chunks.secured tag) ∧
      Ends cfg true (Host.patchChunk cfg p tag blockOffset data loopTurns h) w (.ok ())
        (w.saveChunk (tag, c.splice blockOffset data)) := by
  rw [loopTurns, Host.patchChunk]
  obtain ⟨hc, v, hv⟩ := id hs
  cases hl : h.chunkCache.lookup tag with
  | some x =>
    obtain ⟨i, c⟩ := x
    obtain ⟨hf, -, hg⟩ := WriteBack.of_lookup hl
    have hwrite := hs.writeChunk hf (c.splice blockOffset data)
    refine ⟨c, .inl (by rw [hv.chunk_of_get hg]; rfl), ?_⟩
    dsimp only
    by_cases hfull : Chunk.isFull blockOffset data = true
    · rw [if_pos hfull, Chunk.splice_of_isFull hfull]
      rw [Chunk.splice_of_isFull hfull] at hwrite
      exact .answered rfl hwrite
    · rw [if_neg hfull]
      exact .answered rfl hwrite
  | none =>
    have hnone := WriteBack.lookup_eq_none_iff.mp hl
    -- the insertion of the merged chunk, which is dirty
    have hput : ∀ {h' : Host N P β}, h'.Shows cfg true w → h'.chunkCache.get tag = none → ∀ c,
        Ends cfg true (andThen (Host.insertChunk cfg p tag c true h') fun inserted h =>
          if inserted then (.ok (), h) else Host.patchChunk cfg p tag blockOffset data 1 h) w (.ok ())
          (w.saveChunk (tag, c)) := by
      intro h' hs' hn c
      rcases hs'.insertChunk (p := p) hn c true (fun h0 => absurd h0 (by simp)) with
        ⟨h'', hi, hs''⟩ | ⟨h'', hi, hs''⟩
      · rw [hi]
        exact .exhausted rfl hs''
      · rw [hi]
        exact .answered rfl hs''
    dsimp only
    by_cases hfull : Chunk.isFull blockOffset data = true
    · refine ⟨_, .inl rfl, ?_⟩
      rw [if_pos hfull, Chunk.splice_of_isFull hfull]
      exact hput hs hnone _
    · rw [if_neg hfull]
      obtain ⟨r, s', hr, hs', hfound⟩ := hv.store.getChunk tag
      have hstore : ({ h with db := s' } : Host N P β).Shows cfg true w :=
        ⟨hc, v, { hv with store := hs' }⟩
      rw [onStore_ofStore hr, hv.chunk_of_none hnone]
      rcases hfound with rfl | ⟨rfl, hn⟩
      · refine ⟨_, .inl rfl, ?_⟩
        cases v.chunks.values tag with
        | none => exact hput hstore hnone _
        | some c => exact hput hstore hnone _
      · exact ⟨.zero, .inr ⟨rfl, fun hsec => hn (hv.secured_of_none hnone hsec)⟩, hput hstore hnone _⟩

end Chunks

/-! ## Flushes, commits and restarts -/

section Flushes

variable {cached : Bool}

/-- Empty caches over a store. -/
theorem ShowsOver.of_empty (hc : ∀ tag, h.chunkCache.get tag = none) (hm : ∀ rf, h.metaCache.get rf = none)
    (hdb : h.db.Shows cfg w) : h.ShowsOver cfg w w where
  store := hdb
  chunks := fun tag a hg => absurd ((hc tag).symm.trans hg) (by simp)
  metas := fun rf a hg => absurd ((hm rf).symm.trans hg) (by simp)
  chunk_eq := funext fun tag => by rw [WriteBack.view, hc tag]; rfl
  secured := fun _ hs => .inr hs
  meta_eq := funext fun rf => by rw [WriteBack.view, hm rf]; rfl
  last := rfl
  clean := fun hd => ⟨hd, fun tag a => by simp [hc tag], fun rf a => by simp [hm rf]⟩
  uncached := fun _ => ⟨hc, hm⟩

/-- **Without dirty slots the store has everything.** -/
theorem ShowsOver.settle (hs : h.ShowsOver cfg v w) (hcl : h.Clean) : h.ShowsOver cfg w w := by
  have hchunk : w.chunks.values = v.chunks.values := by
    rw [hs.chunk_eq]
    funext tag
    cases hg : h.chunkCache.get tag with
    | none => rw [WriteBack.view, hg]; rfl
    | some x =>
      obtain ⟨a, d⟩ := x
      cases d with
      | true => exact absurd hg (hcl.1 tag a)
      | false => rw [WriteBack.view, hg, hs.chunks tag a hg]; rfl
  have hmeta : w.metas.values = v.metas.values := by
    rw [hs.meta_eq]
    funext rf
    cases hg : h.metaCache.get rf with
    | none => rw [WriteBack.view, hg]; rfl
    | some x =>
      obtain ⟨a, d⟩ := x
      cases d with
      | true => exact absurd hg (hcl.2 rf a)
      | false => rw [WriteBack.view, hg, hs.metas rf a hg]; rfl
  have hsec : ∀ tag, w.chunks.secured tag → v.chunks.secured tag := by
    intro tag ht
    rcases hs.secured tag ht with ⟨a, ha⟩ | hv
    · exact absurd ha (hcl.1 tag a)
    · exact hv
  exact {
    store := hs.store.mono hchunk hsec hmeta hs.last fun h0 => (hs.clean h0).1
    chunks := fun tag a hg => hchunk ▸ hs.chunks tag a hg
    metas := fun rf a hg => hmeta ▸ hs.metas rf a hg
    chunk_eq := by rw [hs.chunk_eq]; funext tag; rw [WriteBack.view, WriteBack.view, hchunk]
    secured := fun _ ht => .inr ht
    meta_eq := by rw [hs.meta_eq]; funext rf; rw [WriteBack.view, WriteBack.view, hmeta]
    last := rfl
    clean := fun h0 => ⟨h0, hcl⟩
    uncached := hs.uncached }

/-- Without the caches the store has everything. -/
theorem Shows.settle (hs : h.Shows cfg false w) : h.ShowsOver cfg w w := by
  obtain ⟨hc, v, hv⟩ := hs
  obtain ⟨h1, h2⟩ := hv.uncached hc
  exact hv.settle ⟨fun tag a => by simp [h1 tag], fun rf a => by simp [h2 rf]⟩

variable [Zero β]

/-- **A flush changes no values.** -/
theorem Shows.flushDirty (hs : h.Shows cfg cached w) (which : RelFork → Bool) :
    (flushDirty cfg which h).Shows cfg cached w := by
  obtain ⟨hc, v, hv⟩ := hs
  exact ⟨hc, _, (hv.saveChunks (WriteBack.saves_flush _ h.chunkCache)).saveMetas
    (WriteBack.saves_flush which h.metaCache)⟩

/-- A flush of everything leaves nothing dirty. -/
theorem clean_flushDirty (cfg : StoreConfig) (h : Host N P β) : (Host.flushDirty cfg (fun _ => true) h).Clean := by
  refine ⟨fun tag c => ?_, fun rf m => ?_⟩
  · change (h.chunkCache.flush fun _ => true).2.get tag ≠ _
    rw [WriteBack.get_flush]
    cases h.chunkCache.get tag <;> simp
  · change (h.metaCache.flush fun _ => true).2.get rf ≠ _
    rw [WriteBack.get_flush]
    cases h.metaCache.get rf <;> simp

/-- **A commit takes over all that is in the caches.** -/
theorem Shows.runCommitProtocol (hs : h.Shows cfg cached w) {a : Db.CommitArgs}
    (hok : w.last.lsn < a.ckpt.lsn ∧ 1 ≤ a.ckpt.timelineId ∧ w.last.timelineId ≤ a.ckpt.timelineId) :
    ∃ h', Host.runCommitProtocol cfg a h = (.ok (), h') ∧ h'.Shows cfg cached (w.commit a.ckpt) := by
  obtain ⟨hc, v, hv⟩ := hs.flushDirty fun _ => true
  have hcl := clean_flushDirty cfg h
  have hset := hv.settle hcl
  obtain ⟨s', hr, hs'⟩ := hset.store.commit hok
  have hrun : Host.runCommitProtocol cfg a h =
      (.ok (), { Host.flushDirty cfg (fun _ => true) h with db := s' }) :=
    onStore_ofStore (f := fun db => db.runCommitProtocol cfg .ok a) hr
  refine ⟨_, hrun, hc, w.commit a.ckpt, ?_⟩
  exact {
    store := hs'
    chunks := hset.chunks
    metas := hset.metas
    chunk_eq := hset.chunk_eq
    secured := fun _ ht => .inr ht
    meta_eq := hset.meta_eq
    last := rfl
    clean := fun _ => ⟨rfl, hcl⟩
    uncached := hset.uncached }

omit [Zero β] in
/-- A step of the store that neither writes nor commits. -/
theorem Shows.setStore (hs : h.Shows cfg cached w) {s' : Db β}
    (hstep : ∀ v, h.db.Shows cfg v → s'.Shows cfg v) :
    ({ h with db := s' } : Host N P β).Shows cfg cached w := by
  obtain ⟨hc, v, hv⟩ := hs
  exact ⟨hc, v, { hv with store := hstep v hv.store }⟩

/-- **A restart** where nothing was written since the last commit. -/
theorem Shows.restart (hs : h.Shows cfg cached w) (hd : w.dirty = false) (hands : P → Fin N)
    (cached' tikmLost : Bool) : (h.restart cfg hands cached' tikmLost).Shows cfg cached' w := by
  obtain ⟨hc, v, hv⟩ := hs
  have hset := hv.settle (hv.clean hd).2
  exact ⟨rfl, w, .of_empty (WriteBack.get_empty hands) (WriteBack.get_empty hands)
    (hset.store.step (.restart tikmLost) hd)⟩

end Flushes

/-! ## Truncations -/

/-- A view is another but for the chunks of a relation fork from a block on. -/
def Trims (rf : RelFork) (firstBlock : UInt32) (w w' : StoreView β) : Prop :=
  w'.metas = w.metas ∧ w'.last = w.last ∧ w'.dirty = w.dirty ∧
    ∀ tag, (tag.relFork = rf → tag.startBlock < firstBlock) →
      w'.chunks.values tag = w.chunks.values tag ∧ (w.chunks.secured tag → w'.chunks.secured tag)

theorem Trims.refl (rf : RelFork) (firstBlock : UInt32) (w : StoreView β) : Trims rf firstBlock w w :=
  ⟨rfl, rfl, rfl, fun _ _ => ⟨rfl, id⟩⟩

theorem Shows.truncateChunks (hs : h.Shows cfg true w) (rf : RelFork) (firstBlock : UInt32) :
    ∃ w', Trims rf firstBlock w w' ∧ (truncateChunks rf firstBlock h).Shows cfg true w' := by
  obtain ⟨hc, v, hv⟩ := hs
  let gone : ChunkTag → Bool := fun tag =>
    decide (tag.relFork = rf) && decide (firstBlock ≤ tag.startBlock)
  have hget : ∀ tag, (h.chunkCache.drop gone).get tag = if gone tag then none else h.chunkCache.get tag :=
    WriteBack.get_drop gone h.chunkCache
  refine ⟨⟨⟨(h.chunkCache.drop gone).view v.chunks, fun tag => w.chunks.secured tag ∧ gone tag = false⟩,
    w.metas, w.last, w.dirty⟩, ⟨rfl, rfl, rfl, fun tag htag => ?_⟩, hc, v, ?_⟩
  · have hstay : gone tag = false := by
      by_cases hrf : tag.relFork = rf
      · simp [gone, UInt32.not_le.mpr (htag hrf)]
      · simp [gone, hrf]
    refine ⟨?_, fun ht => ⟨ht, hstay⟩⟩
    change (((h.chunkCache.drop gone).get tag).map Prod.fst).or (v.chunks.values tag) = _
    rw [hv.chunk_eq, WriteBack.view, hget, hstay]
    rfl
  · refine hv.setChunks ?_ rfl ?_ rfl rfl (fun hd => ⟨hd, fun tag a => ?_⟩) fun hu tag => ?_
    · intro tag a hg
      rw [hget] at hg
      split_ifs at hg
      exact hv.chunks tag a hg
    · rintro tag ⟨ht, hstay⟩
      rw [WriteBack.Secured, hget, hstay]
      exact hv.secured tag ht
    · rw [hget]
      split_ifs
      · simp
      · exact (hv.clean hd).2.1 tag a
    · rw [hget, (hv.uncached hu).1 tag, ite_self]

end Host

end Tiko

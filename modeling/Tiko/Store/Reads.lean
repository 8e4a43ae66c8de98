import Tiko.Store.Layers

/-!
# Reads see the newest write

`Inv cfg s g H F` ties a database to its log `H`, to the contents `F` of its draft, and to the flat
store `g`: one value per chunk and per relation fork, and nothing of the layers below.

* `Objects`: a chunk object exists under a prefix exactly when the interval of that prefix recorded
  the chunk;
* `Db.Records`: what the window and the segments know of the log; **`searchChunk`**, **`searchMeta`**:
  they find the newest version, or nothing above the base manifest has one;
* **`getMeta_of_inv`**: a read of metadata returns the value of the flat store;
* **`getChunk_of_inv`**: so does a read of a chunk, when the log is chained by LSN.
-/

namespace Tiko

open Lib

variable {β : Type}

/-- The flat store: the value of every chunk and relation fork, the checkpoint of the last commit,
and whether anything was written since. -/
structure Flat (β : Type) where
  chunks : ChunkTag → Option (Chunk β)
  metas : RelFork → Option RelForkMeta
  last : Checkpoint
  dirty : Bool

/-- The chunk object that a record wrote. -/
def objectOf (cfg : StoreConfig) (storage : Storage β) (tag : ChunkTag) (e : SegmentCheckpoint) :
    Option (Chunk β) :=
  storage.chunks cfg.dbId e.prevCkpt tag

/-- Chunk objects exist under the prefix of an interval exactly for the chunks it recorded, and
under no prefix above the head. -/
structure Objects (cfg : StoreConfig) (storage : Storage β) (head : Checkpoint)
    (H : List SegmentCheckpoint) (F : DraftFrame) : Prop where
  sealed : ∀ e ∈ H, ∀ tag, (storage.chunks cfg.dbId e.prevCkpt tag).isSome = e.containsChunk tag
  live : ∀ tag, (storage.chunks cfg.dbId head tag).isSome = F.containsChunk tag
  above : ∀ c, head < c → ∀ tag, storage.chunks cfg.dbId c tag = none

/-- The window mirrors the last records of the log, at least one if there is any. -/
def Window (t : TimelineState) (H : List SegmentCheckpoint) : Prop :=
  ∃ k, (k = 0 → H = []) ∧
    List.Forall₂ ActiveCheckpoint.Mirrors t.iterActive (H.reverse.take k)

/-- A database, its log, its draft and the flat store agree. -/
structure Inv (cfg : StoreConfig) (s : Db β) (g : Flat β) (H : List SegmentCheckpoint)
    (F : DraftFrame) : Prop where
  log : Log H s.timeline.headCkpt
  last : g.last = s.timeline.headCkpt
  draft : s.draft.Holds cfg.codec F
  clean : g.dirty = false → s.draft.Clean
  window : Window s.timeline H
  layers : ∃ old new, s.LayersOf cfg H old new
  objects : Objects cfg s.storage s.timeline.headCkpt H F
  metas : ∀ rf, g.metas rf = (F.relforks.lookup rf).or (newest (·.relforkMeta rf) H)
  chunks : LsnChained H → ∀ tag, g.chunks tag =
    (s.storage.chunks cfg.dbId s.timeline.headCkpt tag).or (newest (objectOf cfg s.storage tag) H)

/-- The answer of a read: a value, or not found. -/
def found {α : Type} : Option α → Except Error α
  | some a => .ok a
  | none => .error .notFound

/-! ## The window -/

section Window

variable {H pre rest : List SegmentCheckpoint} {head : Checkpoint} {x : SegmentCheckpoint}

/-- In a log read newest first, the records above one stand before it. -/
theorem mem_of_ckpt_lt (hlog : Log H head) (hH : H.reverse = pre ++ x :: rest)
    {e : SegmentCheckpoint} (he : e ∈ H) (hlt : x.ckpt < e.ckpt) : e ∈ pre := by
  have hdesc : (pre ++ x :: rest).Pairwise fun a b => b.ckpt < a.ckpt := by
    rw [← hH]
    exact List.pairwise_reverse.mpr hlog.ascending_ckpt
  have hmem : e ∈ pre ++ x :: rest := hH ▸ List.mem_reverse.mpr he
  rcases List.mem_append.mp hmem with hp | hr
  · exact hp
  · obtain ⟨-, hr', -⟩ := List.pairwise_append.mp hdesc
    rcases List.mem_cons.mp hr with rfl | hr
    · exact absurd hlt (lt_irrefl _)
    · exact absurd hlt (not_lt.mpr ((List.pairwise_cons.mp hr').1 e hr).le)

theorem mem_of_ckpt_le (hlog : Log H head) (hH : H.reverse = pre ++ x :: rest)
    {e : SegmentCheckpoint} (he : e ∈ H) (hle : x.ckpt ≤ e.ckpt) : e ∈ pre ++ [x] := by
  rcases lt_or_eq_of_le hle with hlt | heq
  · exact List.mem_append_left _ (mem_of_ckpt_lt hlog hH he hlt)
  · have hx : x ∈ H := List.mem_reverse.mp (by rw [hH]; simp)
    rw [← hlog.ascending_ckpt.eq_of_key_eq hx he heq]
    simp

/-- The window of a log that is not empty: its oldest entry mirrors a record, and the records from
there on are in the window. -/
theorem Window.exists_last {t : TimelineState} (hw : Window t H) (hne : H ≠ []) :
    ∃ pre x rest, H.reverse = pre ++ x :: rest ∧
      List.Forall₂ ActiveCheckpoint.Mirrors t.iterActive (pre ++ [x]) := by
  obtain ⟨k, hk, hmir⟩ := hw
  have htake : H.reverse.take k ≠ [] := by
    intro hnil
    rcases List.take_eq_nil_iff.mp hnil with h | h
    · exact hne (hk h)
    · exact hne (List.reverse_eq_nil_iff.mp h)
  refine ⟨(H.reverse.take k).dropLast, (H.reverse.take k).getLast htake, H.reverse.drop k, ?_, ?_⟩
  · rw [← List.singleton_append, ← List.append_assoc, List.dropLast_append_getLast,
      List.take_append_drop]
  · rwa [List.dropLast_append_getLast]

theorem Window.iterActive_eq_nil {t : TimelineState} (hw : Window t []) : t.iterActive = [] := by
  obtain ⟨k, -, hmir⟩ := hw
  simpa using hmir

theorem getLast?_of_forall₂ {l : List ActiveCheckpoint}
    (h : List.Forall₂ ActiveCheckpoint.Mirrors l (pre ++ [x])) :
    l.getLast?.map (·.ckpt) = some x.ckpt := by
  have hr := List.forall₂_reverse_iff.mpr h
  rw [List.reverse_append, List.reverse_singleton, List.singleton_append] at hr
  rw [← List.head?_reverse]
  cases hl : l.reverse with
  | nil => rw [hl] at hr; exact absurd hr (by simp)
  | cons ac l' =>
    rw [hl] at hr
    obtain ⟨hac, -⟩ := List.forall₂_cons.mp hr
    rw [List.head?_cons, Option.map_some, hac.ckpt_eq]

/-- The gated walk over the window finds what its records wrote. -/
theorem findSome?_window {cfg : StoreConfig} {storage : Storage β} {tag : ChunkTag}
    {l : List ActiveCheckpoint} {es : List SegmentCheckpoint}
    (h : List.Forall₂ ActiveCheckpoint.Mirrors l es)
    (hobj : ∀ e ∈ es, (objectOf cfg storage tag e).isSome = e.containsChunk tag) :
    (l.findSome? fun ac => if ac.chunkBloom.maybeContains tag then
      storage.chunks cfg.dbId ac.prevCkpt tag else none) =
      es.findSome? (objectOf cfg storage tag) := by
  induction h with
  | nil => rfl
  | @cons ac e l es hac _ ih =>
    have ih := ih fun e he => hobj e (List.mem_cons_of_mem _ he)
    have hgate : (if ac.chunkBloom.maybeContains tag then
        storage.chunks cfg.dbId ac.prevCkpt tag else none) = objectOf cfg storage tag e := by
      rw [hac.prevCkpt_eq]
      split_ifs with hb
      · rfl
      · -- no false negatives: the record does not have the chunk
        have hc : e.containsChunk tag = false := by
          by_contra hc
          exact hb (hac.bloom tag (by simpa using hc))
        have := hobj e List.mem_cons_self
        rw [hc] at this
        exact (Option.isNone_iff_eq_none.mp (by simpa using this)).symm
    rw [List.findSome?_cons, List.findSome?_cons, hgate, ih]

/-- The walk over the indexes finds the newest value of its records, or stops at a record with none
above it. -/
theorem walkIndex_spec (rf : RelFork) {l : List ActiveCheckpoint} {es : List SegmentCheckpoint}
    (h : List.Forall₂ ActiveCheckpoint.Mirrors l es) (oldest : Option Checkpoint) :
    (∃ m c, Db.walkIndex rf l oldest = (some m, c) ∧ es.findSome? (·.relforkMeta rf) = some m) ∨
    (es = [] ∧ Db.walkIndex rf l oldest = (none, oldest)) ∨
    ∃ pre x post, es = pre ++ x :: post ∧ (∀ e ∈ pre, e.relforkMeta rf = none) ∧
      Db.walkIndex rf l oldest = (none, some x.ckpt) := by
  induction h generalizing oldest with
  | nil => exact .inr (.inl ⟨rfl, rfl⟩)
  | @cons ac e l es hac _ ih =>
    have hidx := hac.index rf
    rw [Db.walkIndex]
    cases hg : ac.relforkIndex.get rf with
    | hit m =>
      rw [hg] at hidx
      refine .inl ⟨m, some ac.ckpt, rfl, ?_⟩
      rw [List.findSome?_cons, SegmentCheckpoint.relforkMeta, hidx]
    | definitiveMiss =>
      rw [hg] at hidx
      have hnone : e.relforkMeta rf = none := hidx
      rcases ih (some ac.ckpt) with ⟨m, c, hw, hf⟩ | ⟨hnil, hw⟩ | ⟨pre, x, post, he, hpre, hw⟩
      · refine .inl ⟨m, c, hw, ?_⟩
        rw [List.findSome?_cons, hnone]
        exact hf
      · refine .inr (.inr ⟨[], e, [], by rw [hnil]; rfl,
          fun _ hx => absurd hx List.not_mem_nil, ?_⟩)
        rw [← hac.ckpt_eq]
        exact hw
      · refine .inr (.inr ⟨e :: pre, x, post, by rw [he]; rfl, fun y hy => ?_, hw⟩)
        rcases List.mem_cons.mp hy with rfl | hy
        · exact hnone
        · exact hpre y hy
    | inconclusive =>
      refine .inr (.inr ⟨[], e, es, rfl, fun _ hx => absurd hx List.not_mem_nil, ?_⟩)
      rw [← hac.ckpt_eq]

end Window

/-! ## The records above the base manifest -/

/-- What a database knows of its log above the base manifest: the window mirrors the last records, the
segments hold those above the base that are not blank, and chunk objects exist for what the records
have. -/
structure Db.Records (cfg : StoreConfig) (s : Db β) (H : List SegmentCheckpoint) : Prop where
  log : Log H s.timeline.headCkpt
  window : Window s.timeline H
  wf : SegmentsWf (s.storage.segments cfg.dbId)
  sub : (storedRecords (s.storage.segments cfg.dbId)).Sublist H
  stored : ∀ e ∈ H, e.isBlank = false → s.timeline.baseCkpt < e.ckpt →
    e ∈ storedRecords (s.storage.segments cfg.dbId)
  sealed : ∀ e ∈ H, ∀ tag, (s.storage.chunks cfg.dbId e.prevCkpt tag).isSome = e.containsChunk tag

section Records

variable {cfg : StoreConfig} {s : Db β} {H : List SegmentCheckpoint}

/-- The segment scan of metadata, over the stored records of the range. -/
theorem Db.readRelforkFromSegments_eq (hw : SegmentsWf (s.storage.segments cfg.dbId)) (rf : RelFork)
    (low high : Checkpoint) : s.readRelforkFromSegments cfg rf low high =
      .ok (newest (fun e => if low ≤ e.ckpt ∧ e.ckpt ≤ high then e.relforkMeta rf else none)
        (storedRecords (s.storage.segments cfg.dbId))) := by
  have hfun : (fun e : SegmentCheckpoint => if low ≤ e.ckpt ∧ e.ckpt ≤ high then e.relforkMeta rf
      else none) = fun e => if e.ckpt < low ∨ high < e.ckpt then none else e.relforkMeta rf := by
    funext e
    by_cases h1 : e.ckpt < low <;> by_cases h2 : high < e.ckpt <;> simp [h1, h2, not_le.mpr,
      not_lt.mp]
  rw [Db.readRelforkFromSegments]
  split_ifs with hlt
  · rw [eq_comm, newest_eq_none_iff.mpr]
    intro e _
    exact if_neg fun hr => absurd (hr.1.trans hr.2) (not_le.mpr hlt)
  · rw [hfun]
    refine Db.scanSegments_inRange hw fun e he => ?_
    split_ifs at he with hr
    · exact absurd he (by simp)
    · rw [not_or, not_lt, not_lt] at hr
      exact hr

/-- The probe of the head prefix finds the object of the current interval. -/
theorem Db.probeHead_eq {F : DraftFrame} (hd : s.draft.Holds cfg.codec F)
    (ho : Objects cfg s.storage s.timeline.headCkpt H F) (tag : ChunkTag) :
    (if s.draft.containsChunk tag then s.tryReadChunkAt cfg tag s.timeline.headCkpt else none) =
      s.storage.chunks cfg.dbId s.timeline.headCkpt tag := by
  split_ifs with hc
  · rfl
  · have hF : F.containsChunk tag = false := by
      by_contra hF
      exact hc (DraftBuffer.containsChunk_of_holds hd (by simpa using hF))
    have hlive := ho.live tag
    rw [hF] at hlive
    exact (Option.isNone_iff_eq_none.mp (by simpa using hlive)).symm

namespace Db.Records

theorem objectOf_eq_none (h : s.Records cfg H) {tag : ChunkTag} {e : SegmentCheckpoint} (he : e ∈ H)
    (hc : e.containsChunk tag = false) : objectOf cfg s.storage tag e = none := by
  rw [← Option.not_isSome_iff_eq_none, objectOf, h.sealed e he, hc]
  exact Bool.false_ne_true

/-- **The stored records from the base up give the newest value, or nothing above the base has one**,
where only records below a bound have values. -/
theorem newest_stored {γ : Type} (h : s.Records cfg H) {f : SegmentCheckpoint → Option γ}
    (hf : ∀ e ∈ H, e.isBlank = true → f e = none) (below : SegmentCheckpoint → Prop)
    [DecidablePred below] (habove : ∀ e ∈ H, ¬below e → f e = none) {r : Option γ}
    (hr : newest (fun e => if s.timeline.baseCkpt ≤ e.ckpt ∧ below e then f e else none)
      (storedRecords (s.storage.segments cfg.dbId)) = r) :
    (∃ a, r = some a ∧ newest f H = some a) ∨
    r = none ∧ ∀ e ∈ H, s.timeline.baseCkpt < e.ckpt → f e = none := by
  have hasc := h.log.ascending_ckpt
  -- a value above the base is in a stored record
  have hfound : ∀ e ∈ H, (f e).isSome = true → s.timeline.baseCkpt < e.ckpt →
      e ∈ storedRecords (s.storage.segments cfg.dbId) ∧
      (if s.timeline.baseCkpt ≤ e.ckpt ∧ below e then f e else none) = f e := by
    intro e he hs hlt
    refine ⟨h.stored e he ?_ hlt, if_pos ⟨hlt.le, ?_⟩⟩
    · by_contra hb
      rw [hf e he (by simpa using hb)] at hs
      exact absurd hs (by simp)
    · by_contra hb
      rw [habove e he hb] at hs
      exact absurd hs (by simp)
  cases r with
  | some b =>
    obtain ⟨a, ha, hfa, hmax⟩ := (newest_eq_some_iff (hasc.sublist h.sub)).mp hr
    split_ifs at hfa with hcond
    refine .inl ⟨b, rfl, (newest_eq_some_iff hasc).mpr
      ⟨a, h.sub.mem ha, hfa, fun a' ha' hs => ?_⟩⟩
    by_contra hlt
    have hlt := not_le.mp hlt
    obtain ⟨hmem, heq⟩ := hfound a' ha' hs (hcond.1.trans_lt hlt)
    exact absurd (hmax a' hmem (by rw [heq]; exact hs)) (not_le.mpr hlt)
  | none =>
    refine .inr ⟨rfl, fun e he hlt => ?_⟩
    by_contra hne
    obtain ⟨hmem, heq⟩ := hfound e he (Option.isSome_iff_ne_none.mpr hne) hlt
    have hnone := newest_eq_none_iff.mp hr e hmem
    rw [heq] at hnone
    exact hne hnone

/-- The segment scan of chunks, over the stored records of the range. -/
theorem readChunkFromSegments_eq (h : s.Records cfg H) (tag : ChunkTag) (low high : Checkpoint) :
    s.readChunkFromSegments cfg tag low high =
      .ok (newest (fun e => if low ≤ e.ckpt ∧ e.ckpt < high then objectOf cfg s.storage tag e
        else none) (storedRecords (s.storage.segments cfg.dbId))) := by
  -- for the records of the log the presence check is the existence of the object
  have hfun : ∀ e ∈ storedRecords (s.storage.segments cfg.dbId),
      (if e.ckpt < low ∨ high ≤ e.ckpt then none
        else if e.containsChunk tag then s.tryReadChunkAt cfg tag e.prevCkpt else none) =
      if low ≤ e.ckpt ∧ e.ckpt < high then objectOf cfg s.storage tag e else none := by
    intro e he
    by_cases hr : low ≤ e.ckpt ∧ e.ckpt < high
    · rw [if_pos hr, if_neg (by rw [not_or, not_lt, not_le]; exact hr)]
      split_ifs with hc
      · rfl
      · exact (h.objectOf_eq_none (h.sub.mem he) (by simpa using hc)).symm
    · rw [if_neg hr, if_pos]
      rw [not_and_or, not_le, not_lt] at hr
      exact hr
  rw [Db.readChunkFromSegments]
  split_ifs with hle
  · rw [eq_comm, newest_eq_none_iff.mpr]
    intro e _
    exact if_neg fun hr => absurd (hr.1.trans_lt hr.2) (not_lt.mpr hle)
  · rw [Db.scanSegments_inRange h.wf, newest_congr hfun]
    intro e he
    by_cases hr : e.ckpt < low ∨ high ≤ e.ckpt
    · rw [if_pos hr] at he
      exact absurd he (by simp)
    · rw [not_or, not_lt, not_le] at hr
      exact ⟨hr.1, hr.2.le⟩

/-- What lies below the draft and the window: nothing of the window has the chunk, and segments and
base give what the log has. -/
theorem probeWindow_spec (h : s.Records cfg H) (tag : ChunkTag) :
    (∃ c, s.probeWindow cfg tag = some c ∧ newest (objectOf cfg s.storage tag) H = some c) ∨
    s.probeWindow cfg tag = none ∧
      ∀ e ∈ H, ¬e.ckpt < s.segTop → objectOf cfg s.storage tag e = none := by
  have hobj : ∀ l : List SegmentCheckpoint, (∀ e ∈ l, e ∈ H) → ∀ e ∈ l,
      (objectOf cfg s.storage tag e).isSome = e.containsChunk tag :=
    fun l hl e he => h.sealed e (hl e he) tag
  by_cases hne : H = []
  · subst hne
    refine .inr ⟨?_, fun e he => absurd he List.not_mem_nil⟩
    rw [Db.probeWindow, h.window.iterActive_eq_nil]
    rfl
  · obtain ⟨pre, x, rest, hH, hmir⟩ := h.window.exists_last hne
    have hsub : ∀ e ∈ pre ++ [x], e ∈ H := by
      intro e he
      have : e ∈ H.reverse := by
        rw [hH, ← List.singleton_append, ← List.append_assoc]
        exact List.mem_append_left _ he
      exact List.mem_reverse.mp this
    have hprobe : s.probeWindow cfg tag =
        (pre ++ [x]).findSome? (objectOf cfg s.storage tag) :=
      findSome?_window hmir (hobj _ hsub)
    have htop : s.segTop = x.ckpt := by
      rw [Db.segTop, getLast?_of_forall₂ hmir]
      rfl
    rw [hprobe, htop]
    cases hf : (pre ++ [x]).findSome? (objectOf cfg s.storage tag) with
    | some c =>
      refine .inl ⟨c, rfl, ?_⟩
      rw [newest, hH, ← List.singleton_append, ← List.append_assoc, List.findSome?_append, hf]
      rfl
    | none =>
      refine .inr ⟨rfl, fun e he hnot => ?_⟩
      exact List.findSome?_eq_none_iff.mp hf e (mem_of_ckpt_le h.log hH he (not_lt.mp hnot))

/-- **The window and the segments find the newest version of a chunk, or nothing above the base has
it.** -/
theorem searchChunk (h : s.Records cfg H) (tag : ChunkTag) :
    (∃ c, newest (objectOf cfg s.storage tag) H = some c ∧ (s.probeWindow cfg tag = some c ∨
      s.probeWindow cfg tag = none ∧
        s.readChunkFromSegments cfg tag s.timeline.baseCkpt s.segTop = .ok (some c))) ∨
    s.probeWindow cfg tag = none ∧
      s.readChunkFromSegments cfg tag s.timeline.baseCkpt s.segTop = .ok none ∧
      ∀ e ∈ H, s.timeline.baseCkpt < e.ckpt → objectOf cfg s.storage tag e = none := by
  rcases h.probeWindow_spec tag with ⟨c, hp, hn⟩ | ⟨hp, habove⟩
  · exact .inl ⟨c, hn, .inl hp⟩
  · have hblank : ∀ e ∈ H, e.isBlank = true → objectOf cfg s.storage tag e = none := fun e he hb =>
      h.objectOf_eq_none he (SegmentCheckpoint.containsChunk_of_isBlank hb tag)
    rw [h.readChunkFromSegments_eq]
    rcases h.newest_stored hblank (fun e => e.ckpt < s.segTop) habove rfl with
      ⟨c, hr, hn⟩ | ⟨hr, hnone⟩
    · exact .inl ⟨c, hn, .inr ⟨hp, congrArg Except.ok hr⟩⟩
    · exact .inr ⟨hp, congrArg Except.ok hr, hnone⟩

/-- **The indexes and the segments find the newest metadata, or nothing above the base has it.** -/
theorem searchMeta (h : s.Records cfg H) (rf : RelFork) :
    (∃ m c, newest (·.relforkMeta rf) H = some m ∧
      Db.walkIndex rf s.timeline.iterActive none = (some m, c)) ∨
    ∃ oldest r, Db.walkIndex rf s.timeline.iterActive none = (none, oldest) ∧
      s.readRelforkFromSegments cfg rf s.timeline.baseCkpt (oldest.getD s.timeline.headCkpt) = .ok r ∧
      ((∃ m, r = some m ∧ newest (·.relforkMeta rf) H = some m) ∨
        r = none ∧ ∀ e ∈ H, s.timeline.baseCkpt < e.ckpt → e.relforkMeta rf = none) := by
  have hblank : ∀ e ∈ H, e.isBlank = true → e.relforkMeta rf = none :=
    fun e _ he => SegmentCheckpoint.relforkMeta_of_isBlank he rf
  by_cases hne : H = []
  · subst hne
    rw [h.window.iterActive_eq_nil]
    exact .inr ⟨none, _, rfl, Db.readRelforkFromSegments_eq h.wf rf _ _,
      h.newest_stored hblank (fun e => e.ckpt ≤ s.timeline.headCkpt)
        (fun e he => absurd he List.not_mem_nil) rfl⟩
  · obtain ⟨pre, x, rest, hH, hmir⟩ := h.window.exists_last hne
    rcases walkIndex_spec rf hmir none with ⟨md, c, hw, hf⟩ | ⟨hnil, -⟩ |
      ⟨pre', y, post, he, hpre, hw⟩
    · -- a hit in the window is the newest value
      refine .inl ⟨md, c, ?_, hw⟩
      rw [newest, hH, ← List.singleton_append, ← List.append_assoc, List.findSome?_append, hf]
      rfl
    · exact absurd hnil (by simp)
    · -- the walk stopped at `y`: nothing above it has a value
      have hH' : H.reverse = pre' ++ y :: (post ++ rest) := by
        rw [hH, ← List.singleton_append, ← List.append_assoc, he]
        simp
      exact .inr ⟨some y.ckpt, _, hw, Db.readRelforkFromSegments_eq h.wf rf _ _,
        h.newest_stored hblank (fun e => e.ckpt ≤ y.ckpt) (fun e hmem habove =>
          hpre e (mem_of_ckpt_lt h.log hH' hmem (not_le.mp habove))) rfl⟩

/-- What the references of old records resolve to is what these records wrote. -/
theorem newest_objectOf (h : s.Records cfg H) (tag : ChunkTag) {l : List SegmentCheckpoint}
    (hl : ∀ e ∈ l, e ∈ H) : newest (objectOf cfg s.storage tag) l =
      (newest (·.refAt cfg.dbId tag) l).bind fun r => s.storage.chunks r.dbId r.ckpt tag := by
  induction l using List.reverseRecOn with
  | nil => rfl
  | append_singleton l e ih =>
    have ih := ih fun x hx => hl x (List.mem_append_left _ hx)
    have he := hl e (List.mem_append_right _ (List.mem_singleton.mpr rfl))
    rw [newest_append_singleton, newest_append_singleton, ih, SegmentCheckpoint.refAt]
    cases hc : e.containsChunk tag with
    | true =>
      obtain ⟨c, hobj⟩ := Option.isSome_iff_exists.mp ((h.sealed e he tag).trans hc)
      rw [objectOf, hobj]
      exact hobj.symm
    | false =>
      rw [h.objectOf_eq_none he hc]
      rfl

end Db.Records

end Records

/-! ## Reading metadata -/

namespace Inv

variable {cfg : StoreConfig} {s : Db β} {g : Flat β} {H : List SegmentCheckpoint}
  {F : DraftFrame}

/-- The invariant does not depend on the manifest snapshot, beyond its layers. -/
theorem of_layers (h : Inv cfg s g H F) {m : Manifest} {tikm : Option Manifest}
    (hl : ∃ old new, Db.LayersOf cfg { s with manifest := m, tikm := tikm } H old new) :
    Inv cfg { s with manifest := m, tikm := tikm } g H F :=
  ⟨h.log, h.last, h.draft, h.clean, h.window, hl, h.objects, h.metas, h.chunks⟩

theorem records (h : Inv cfg s g H F) : s.Records cfg H := by
  obtain ⟨old, new, hl⟩ := h.layers
  refine ⟨h.log, h.window, hl.wf, hl.suffix.sublist, fun e he hb hlt => ?_, h.objects.sealed⟩
  rw [hl.split] at he
  rcases List.mem_append.mp he with he | he
  · exact absurd (hl.old_le e he hb) (not_le.mpr hlt)
  · exact hl.new_stored e he

/-- Below the draft, metadata is read from the log. -/
theorem getMeta_log (h : Inv cfg s g H F) {rf : RelFork} (hF : F.relforks.lookup rf = none) :
    ∃ s', s.getMeta cfg rf = (found (newest (·.relforkMeta rf) H), s') ∧ Inv cfg s' g H F := by
  have hdraft := DraftBuffer.getRelfork_of_holds h.draft rf
  rw [hF] at hdraft
  obtain ⟨old, new, hl⟩ := h.layers
  obtain ⟨m, tikm, hbm, hrep, hl'⟩ := Db.baseManifest_of_layers hl
  have hold := hl.newest_old h.log fun e _ he => SegmentCheckpoint.relforkMeta_of_isBlank he rf
  rw [Db.getMeta, hdraft]
  dsimp only
  rcases h.records.searchMeta rf with ⟨md, c, hn, hw⟩ |
    ⟨oldest, r, hw, hr, ⟨md, rfl, hn⟩ | ⟨rfl, hnone⟩⟩
  · rw [hw, hn]
    exact ⟨s, rfl, h⟩
  · rw [hw, hn]
    dsimp only
    rw [Db.getMetaBelow, hr]
    exact ⟨s, rfl, h⟩
  · rw [hw]
    dsimp only
    rw [Db.getMetaBelow, hr]
    dsimp only
    rw [hbm, ← newest_upTo hnone, ← hold, ← hrep.metas]
    dsimp only
    refine ⟨_, ?_, h.of_layers ⟨old, new, hl'⟩⟩
    cases m.lookupRelforkMeta rf <;> rfl

/-- **A read of metadata returns the value of the flat store.** -/
theorem getMeta_of_inv (h : Inv cfg s g H F) (rf : RelFork) :
    ∃ s', s.getMeta cfg rf = (found (g.metas rf), s') ∧ Inv cfg s' g H F := by
  rw [h.metas rf]
  cases hF : F.relforks.lookup rf with
  | none => exact h.getMeta_log hF
  | some md =>
    have hdraft := DraftBuffer.getRelfork_of_holds h.draft rf
    rw [hF] at hdraft
    refine ⟨s, ?_, h⟩
    rw [Db.getMeta, hdraft]
    rfl

/-! ## Reading chunks -/

/-- **A read of a chunk returns the value of the flat store** when the log is chained by LSN. In any
case it leaves the database as it was, up to the manifest snapshot, and fails with not found
only. -/
theorem getChunk_of_inv (h : Inv cfg s g H F) (tag : ChunkTag) : ∃ r m tikm,
    s.getChunk cfg tag = (r, { s with manifest := m, tikm := tikm }) ∧
    Inv cfg { s with manifest := m, tikm := tikm } g H F ∧
    (∀ e, r = .error e → e = .notFound) ∧ (LsnChained H → r = found (g.chunks tag)) := by
  obtain ⟨old, new, hl⟩ := h.layers
  obtain ⟨m, tikm, hbm, hrep, hl'⟩ := Db.baseManifest_of_layers hl
  rw [Db.getChunk, Db.probeHead_eq h.draft h.objects tag]
  cases hhead : s.storage.chunks cfg.dbId s.timeline.headCkpt tag with
  | some c =>
    refine ⟨.ok c, s.manifest, s.tikm, rfl, h, fun e he => absurd he (by simp), fun hc => ?_⟩
    rw [h.chunks hc tag, hhead]
    rfl
  | none =>
    have hlog : LsnChained H → g.chunks tag = newest (objectOf cfg s.storage tag) H := by
      intro hc
      rw [h.chunks hc tag, hhead, Option.none_or]
    dsimp only
    rcases h.records.searchChunk tag with ⟨c, hn, hp | ⟨hp, hr⟩⟩ | ⟨hp, hr, hnone⟩
    · rw [hp]
      refine ⟨.ok c, s.manifest, s.tikm, rfl, h, fun e he => absurd he (by simp), fun hc => ?_⟩
      rw [hlog hc, hn]
      rfl
    · rw [hp, hr]
      refine ⟨.ok c, s.manifest, s.tikm, rfl, h, fun e he => absurd he (by simp), fun hc => ?_⟩
      rw [hlog hc, hn]
      rfl
    · rw [hp, hr]
      dsimp only
      rw [hbm]
      dsimp only
      refine ⟨found ((m.lookup tag).bind fun r => s.storage.chunks r.dbId r.ckpt tag), m, tikm,
        ?_, h.of_layers ⟨old, new, hl'⟩, fun e he => ?_, fun hc => ?_⟩
      · cases hm : m.lookup tag with
        | none => rfl
        | some r =>
          dsimp only [Option.bind_some]
          cases s.storage.chunks r.dbId r.ckpt tag <;> rfl
      · cases hm : (m.lookup tag).bind fun r => s.storage.chunks r.dbId r.ckpt tag with
        | none => rw [hm] at he; exact (Except.error.inj he).symm
        | some c => rw [hm] at he; exact absurd he (by simp [found])
      · have hold : ∀ e ∈ old, e ∈ H := fun e he => hl.split ▸ List.mem_append_left _ he
        have hchain : LsnChained old := (hl.split ▸ hc : LsnChained (old ++ new)).left
        have hblank : ∀ e ∈ H, e.isBlank = true → objectOf cfg s.storage tag e = none :=
          fun e he hb => h.records.objectOf_eq_none he
            (SegmentCheckpoint.containsChunk_of_isBlank hb tag)
        rw [hlog hc, ← newest_upTo hnone, ← hl.newest_old h.log hblank, h.records.newest_objectOf tag hold,
          hrep.chunks hchain]

end Inv

end Tiko

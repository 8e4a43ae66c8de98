import Tiko.Wal.Confirmed

/-!
# What one connection leaves in the archive

One connection from LSN `a`, on an archive without objects of the timeline, where no PUT fails. What it
stores is a function of the WAL and of the positions `a` and `e` between which it has received it.

* `ChunksExact sim a e n`: the chunks of segment `n` are the windows from where the stream enters it,
  the last one cut off at `e`;
* `confirmedAt a e`: the last segment boundary below `e`, or `a`;
* `Exact`: the invariant, with the segment that is being received (`SegState.Stores`) on the way to
  `ChunksExact`.

**`Exact.step`**: every step that is not a failure keeps it.
-/

namespace Tiko.Wal

open Lib

section Exactness

variable (ns : DbNamespace) (tl : TimelineId) (w : ℕ → UInt8)

/-- An offset at which a stream from `a` has a window of a segment. -/
def OnGrid (a : ℕ) (n : UInt64) (o : ℕ) : Prop := ∃ j, o = a - segBase n + j * chunkBytes

/-- The chunks of a segment that the stream from `a` to `e` is cut into. -/
def ChunksExact (sim : S3Sim) (a e : ℕ) (n : UInt64) : Prop :=
  ∀ o data, sim.chunk ns tl n o = some data ↔
    OnGrid a n o ∧ o < xlogSegSize ∧ segBase n + o < e ∧
      data = slice w (segBase n + o) (min chunkBytes (min e (segBase n + xlogSegSize) - (segBase n + o)))

/-- The LSN that a stream from `a` to `e` confirms. -/
def confirmedAt (a e : ℕ) : ℕ := if a < e then max a ((e - 1) / xlogSegSize * xlogSegSize) else a

/-- The chunks of the current segment: windows, and at most one cut off at what has been received. -/
structure SegState.Stores (sim : S3Sim) (a e : ℕ) (st : SegState) : Prop where
  stored : ∀ o data, sim.chunk ns tl st.segNo o = some data →
    (∃ j, o = st.origin a + j * chunkBytes) ∧ 0 < data.length ∧ data.length ≤ chunkBytes ∧
      st.base + o + data.length ≤ e ∧ data = slice w (st.base + o) data.length
  window : ∀ o, st.Window a o → (∃ data, (o, data) ∈ st.chunkTasks) ∨
    sim.chunk ns tl st.segNo o = some (st.windowAt w o)
  task : ∀ o data, (o, data) ∈ st.chunkTasks → st.Window a o

variable {ns tl w} {sim : S3Sim} {a e e' : ℕ} {n : UInt64} {st : SegState}

/-! ## The chunks of one segment -/

/-- Only the part of the stream in the segment matters. -/
theorem ChunksExact.congr (h : ChunksExact ns tl w sim a e n)
    (hsame : ∀ p, a ≤ p → segBase n ≤ p → p < segBase n + xlogSegSize → (p < e ↔ p < e')) :
    ChunksExact ns tl w sim a e' n := by
  intro o data
  rw [h o data]
  refine and_congr_right fun hgrid => and_congr_right fun ho => ?_
  obtain ⟨j, hj⟩ := hgrid
  have hp := hsame (segBase n + o) (by omega) (by omega) (by omega)
  have he := hsame e
  have he' := hsame e'
  constructor
  · rintro ⟨hlt, rfl⟩
    have hmin : min e (segBase n + xlogSegSize) = min e' (segBase n + xlogSegSize) := by omega
    exact ⟨hp.mp hlt, by rw [hmin]⟩
  · rintro ⟨hlt, rfl⟩
    have hmin : min e (segBase n + xlogSegSize) = min e' (segBase n + xlogSegSize) := by omega
    exact ⟨hp.mpr hlt, by rw [hmin]⟩

/-- Without chunks, when the stream has not reached the segment. -/
theorem ChunksExact.eq_none (h : ChunksExact ns tl w sim a e n) (he : e ≤ max a (segBase n)) (o : ℕ) :
    sim.chunk ns tl n o = none := by
  cases hc : sim.chunk ns tl n o with
  | none => rfl
  | some data =>
    obtain ⟨⟨j, hj⟩, -, hlt, -⟩ := (h o data).mp hc
    omega

theorem chunksExact_of_eq_none (h : ∀ o, sim.chunk ns tl n o = none)
    (he : ∀ p, a ≤ p → segBase n ≤ p → p < segBase n + xlogSegSize → e ≤ p) :
    ChunksExact ns tl w sim a e n := by
  intro o data
  rw [h o]
  constructor
  · intro hc
    exact absurd hc (by simp)
  · rintro ⟨⟨j, hj⟩, ho, hlt, -⟩
    have := he (segBase n + o) (by omega) (by omega) (by omega)
    omega

namespace SegState

/-- An offset of the grid below the end is that of a window or of the tail. -/
theorem Holds.window_or_uploaded (hh : st.Holds w a e) {o : ℕ}
    (hgrid : ∃ j, o = st.origin a + j * chunkBytes) (hlt : st.base + o < e) :
    st.Window a o ∨ o = st.chunksUploaded := by
  by_cases hcu : o < st.chunksUploaded
  · exact .inl ⟨hcu, hgrid⟩
  · right
    obtain ⟨j, hj⟩ := hgrid
    obtain ⟨k, hk⟩ := hh.grid
    have htl := hh.tail_lt
    by_contra hne
    have hjk : k + 1 ≤ j := by
      by_contra hcon
      have := Nat.mul_le_mul_right chunkBytes (show j ≤ k by omega)
      omega
    have hmul := Nat.mul_le_mul_right chunkBytes hjk
    rw [Nat.succ_mul] at hmul
    omega

/-- A window is complete. -/
theorem Holds.window_le (hh : st.Holds w a e) {o : ℕ} (ho : st.Window a o) :
    st.base + o + chunkBytes ≤ e := by
  obtain ⟨hlt, j, hj⟩ := ho
  obtain ⟨k, hk⟩ := hh.grid
  have hup := hh.uploaded_le
  have hjk : j + 1 ≤ k := by
    by_contra hcon
    have := Nat.mul_le_mul_right chunkBytes (show k ≤ j by omega)
    omega
  have hmul := Nat.mul_le_mul_right chunkBytes hjk
  rw [Nat.succ_mul] at hmul
  omega

/-- **The current segment when all its tasks and its tail are stored.** -/
theorem Stores.chunksExact (h : st.Stores ns tl w sim a e) (hh : st.Holds w a e)
    (htasks : st.chunkTasks = []) (htail : st.chunksUploaded < st.buf.length →
      sim.chunk ns tl st.segNo st.chunksUploaded = some st.tail) :
    ChunksExact ns tl w sim a e st.segNo := by
  have hend := hh.le_end
  have hlen := hh.length_buf
  have htl := hh.tail_lt
  have hmin : min e (segBase st.segNo + xlogSegSize) = e := min_eq_left hend
  -- what is stored at an offset of the grid
  have hat : ∀ o, (∃ j, o = st.origin a + j * chunkBytes) → st.base + o < e →
      sim.chunk ns tl st.segNo o =
        some (slice w (st.base + o) (min chunkBytes (e - (st.base + o)))) := by
    intro o hgrid hlt
    rcases hh.window_or_uploaded hgrid hlt with hwin | rfl
    · have hle := hh.window_le hwin
      have hw := (h.window o hwin).resolve_left fun ⟨d, hd⟩ =>
        absurd (htasks ▸ hd) List.not_mem_nil
      rw [hw, windowAt, min_eq_left (show chunkBytes ≤ e - (st.base + o) by omega)]
    · rw [htail (by omega), hh.tail_eq,
        min_eq_right (show e - (st.base + st.chunksUploaded) ≤ chunkBytes by omega)]
  intro o data
  rw [hmin]
  constructor
  · intro hc
    obtain ⟨hgrid, hpos', hle, hin, -⟩ := h.stored o data hc
    have hlt : st.base + o < e := by omega
    have heq := hat o hgrid hlt
    rw [hc] at heq
    exact ⟨hgrid, by omega, hlt, Option.some.inj heq⟩
  · rintro ⟨hgrid, -, hlt, rfl⟩
    exact hat o hgrid hlt

theorem Window.extend {o : ℕ} (h : st.Window a o) (piece : Bytes) : (st.extend piece).Window a o := by
  obtain ⟨hlt, j, hj⟩ := h
  refine ⟨hlt.trans_le ?_, j, by rwa [origin_extend]⟩
  rw [SegState.extend, spawnWindows_eq]
  exact Nat.le_add_right _ _

/-- A piece of the stream. -/
theorem Stores.extend {k : ℕ} (h : st.Stores ns tl w sim a e) (hh : st.Holds w a e)
    (hk : e + k ≤ st.base + xlogSegSize) :
    (st.extend (slice w e k)).Stores ns tl w sim a (e + k) := by
  refine ⟨fun o d hc => ?_, fun o ho => ?_, fun o d ht => ?_⟩
  · rw [segNo_extend] at hc
    obtain ⟨hgrid, hpos, hle, hin, hslice⟩ := h.stored o d hc
    rw [origin_extend, base_extend]
    exact ⟨hgrid, hpos, hle, by omega, hslice⟩
  · rw [segNo_extend]
    by_cases hold : st.chunksUploaded ≤ o
    · have hnew := (mem_chunkTasks_extend_iff hh hk o _).mpr (.inr ⟨hold, ho, rfl⟩)
      exact .inl ⟨_, hnew⟩
    · obtain ⟨-, j, hj⟩ := ho
      rw [origin_extend] at hj
      rcases h.window o ⟨not_le.mp hold, j, hj⟩ with ⟨d, hd⟩ | hc
      · exact .inl ⟨d, (mem_chunkTasks_extend_iff hh hk o d).mpr (.inl hd)⟩
      · rw [windowAt] at hc ⊢
        rw [base_extend]
        exact .inr hc
  · rcases (mem_chunkTasks_extend_iff hh hk o d).mp ht with ht | ⟨-, hw, -⟩
    · exact (h.task o d ht).extend _
    · exact hw

/-- The PUT of a tail that is not empty. -/
theorem Stores.putTail (h : st.Stores ns tl w sim a e) (hh : st.Holds w a e)
    (hlt : st.chunksUploaded < st.buf.length) :
    st.Stores ns tl w (sim.putChunk ns tl st.segNo st.chunksUploaded st.tail) a e := by
  have hlen := hh.length_buf
  have htl := hh.tail_lt
  have htail : st.tail.length = e - (st.base + st.chunksUploaded) := by
    rw [hh.tail_eq, length_slice]
  refine ⟨fun o d hc => ?_, fun o ho => ?_, h.task⟩
  · rw [S3Sim.chunk_putChunk] at hc
    split_ifs at hc with hkey
    · obtain rfl := Option.some.inj hc
      rw [hkey.2]
      refine ⟨hh.grid, by omega, by omega, by omega, ?_⟩
      rw [htail, hh.tail_eq]
    · exact h.stored o d hc
  · refine (h.window o ho).imp_right fun hc => ?_
    rw [S3Sim.chunk_putChunk, if_neg fun hkey => absurd hkey.2 ho.1.ne, hc]

/-- The PUT of a window. -/
theorem Stores.taskLands (h : st.Stores ns tl w sim a e) (hh : st.Holds w a e)
    (hup : st.Uploads ns tl w sim a) {i o : ℕ} {d : Bytes} (ht : st.chunkTasks[i]? = some (o, d)) :
    SegState.Stores ns tl w (sim.putChunk ns tl st.segNo o d) a e
      { st with chunkTasks := st.chunkTasks.eraseIdx i } := by
  have hmem := List.mem_of_getElem? ht
  have hd := hup.task o d hmem
  have hwin := h.task o d hmem
  have hle := hh.window_le hwin
  have hlen : (st.windowAt w o).length = chunkBytes := length_slice _ _ _
  refine ⟨fun o' d' hc => ?_, fun o' ho' => ?_,
    fun o' d' ht' => h.task o' d' (List.mem_of_mem_eraseIdx ht')⟩
  · rw [S3Sim.chunk_putChunk] at hc
    split_ifs at hc with hkey
    · obtain rfl := Option.some.inj hc
      rw [hkey.2, hd, hlen]
      exact ⟨hwin.2, chunkBytes_pos, le_rfl, hle, rfl⟩
    · exact h.stored o' d' hc
  · have hstored : (sim.putChunk ns tl st.segNo o d).chunk ns tl st.segNo o = some (st.windowAt w o) := by
      rw [S3Sim.chunk_putChunk, if_pos ⟨rfl, rfl⟩, hd]
    rcases h.window o' ho' with ⟨d', hd'⟩ | hc
    · rcases mem_of_mem_eraseIdx_or ht hd' with heq | hrest
      · obtain ⟨rfl, rfl⟩ := Prod.mk.inj heq
        exact .inr hstored
      · exact .inl ⟨d', hrest⟩
    · right
      change (sim.putChunk ns tl st.segNo o d).chunk ns tl st.segNo o' = some (st.windowAt w o')
      by_cases hoo : o' = o
      · rw [hoo]
        exact hstored
      · rw [S3Sim.chunk_putChunk, if_neg fun hkey => hoo hkey.2, hc]

end SegState

/-! ## The invariant -/

variable (ns tl w)

/-- How far the sealed segments go. -/
def Conn.sealedUpto (c : Conn) : ℕ := if c.pc = .confirm then c.cursor else c.confirmedLsn

/-- How far the chunks of the other segments go. -/
def Conn.chunksUpto (c : Conn) : ℕ := if c.pc = .closed then c.cursor else c.confirmedLsn

/-- The invariant of the connection from `a`. -/
structure ExactConn (sim : S3Sim) (a : ℕ) (c : Conn) : Prop where
  start : c.startLsn = a
  failed : ∀ st, c.curSeg = some st → st.taskFailed = false
  sealed : ∀ n data, sim.sealed ns tl n = some data ↔
    a ≤ segBase n ∧ segBase n + xlogSegSize ≤ c.sealedUpto ∧ data = segSlice w n
  others : ∀ n, (∀ st, c.curSeg = some st → n ≠ st.segNo) → sim.sealed ns tl n = none →
    ChunksExact ns tl w sim a c.chunksUpto n
  current : ∀ st, c.curSeg = some st → c.pc ≠ .confirm → st.Stores ns tl w sim a c.cursor
  confirming : ∀ st, c.curSeg = some st → c.pc = .confirm → sim.sealed ns tl st.segNo = none →
    ChunksExact ns tl w sim a c.cursor st.segNo
  tail : ∀ st, c.curSeg = some st → (c.pc = .flush ∨ ∃ b, c.pc = .tail b) →
    st.chunksUploaded < st.buf.length
  joined : ∀ st, c.curSeg = some st → (c.pc = .seal ∨ c.pc = .confirm) → st.chunkTasks = []
  strict : ∀ st, c.curSeg = some st → a < c.cursor ∧ st.base < c.cursor
  more : (c.pc = .join false ∨ c.pc = .tail false ∨ c.pc = .seal ∨ c.pc = .confirm) → c.data ≠ []
  fresh : c.curSeg = none → c.pc ≠ .closed → c.cursor = a ∨ c.data ≠ []
  final : c.pc = .closed → c.confirmedLsn = confirmedAt a c.cursor

/-- The invariant of the receiver. -/
structure Exact (a : ℕ) (r : Receiver) : Prop where
  late : ∀ t ∈ r.late, ∃ n, t = .deleteChunks n
  empty : r.conn = none → ∀ n, r.sim.sealed ns tl n = none ∧ ∀ o, r.sim.chunk ns tl n o = none
  conn : ∀ c, r.conn = some c → ExactConn ns tl w r.sim a c

/-- A step that is not a failure, on the connection from `a`. -/
def Smooth (a : ℕ) (r : Receiver) (l : Label) : Prop :=
  Contiguous w r l ∧ l.fails = false ∧ ∀ lsn, l = .connect lsn → lsn = a

variable {ns tl w} {c : Conn}

/-! ## Steps of the connection -/

/-- Between the points at which nothing is sealed or closed. -/
theorem ExactConn.goto (h : ExactConn ns tl w sim a c) (hc : c.pc ≠ .confirm ∧ c.pc ≠ .closed)
    {pc : Pc} (hpc : pc ≠ .confirm ∧ pc ≠ .closed)
    (htail : ∀ st, c.curSeg = some st → (pc = .flush ∨ ∃ b, pc = .tail b) →
      st.chunksUploaded < st.buf.length)
    (hjoined : ∀ st, c.curSeg = some st → pc = .seal → st.chunkTasks = [])
    (hmore : (pc = .join false ∨ pc = .tail false ∨ pc = .seal) → c.data ≠ []) :
    ExactConn ns tl w sim a { c with pc := pc } := by
  have hs : ({ c with pc := pc } : Conn).sealedUpto = c.sealedUpto := by
    rw [Conn.sealedUpto, Conn.sealedUpto, if_neg hpc.1, if_neg hc.1]
  have hu : ({ c with pc := pc } : Conn).chunksUpto = c.chunksUpto := by
    rw [Conn.chunksUpto, Conn.chunksUpto, if_neg hpc.2, if_neg hc.2]
  exact { h with
    sealed := fun n d => by rw [hs]; exact h.sealed n d
    others := fun n hn hsealed => by rw [hu]; exact h.others n hn hsealed
    current := fun st hst _ => h.current st hst hc.1
    confirming := fun _ _ hcon => absurd hcon hpc.1
    tail := htail
    joined := fun st hst hp => hjoined st hst (hp.resolve_right hpc.1)
    more := fun hp => hmore (hp.imp_right fun hp => hp.imp_right fun hp => hp.resolve_right hpc.1)
    fresh := fun hnone _ => h.fresh hnone hc.2
    final := fun hcon => absurd hcon hpc.2 }

theorem ExactConn.sendStandbyStatus (h : ExactConn ns tl w sim a c) :
    ExactConn ns tl w sim a c.sendStandbyStatus := { h with }

/-- A point at which nothing is stored and nothing is pending. -/
theorem ExactConn.goto_plain (h : ExactConn ns tl w sim a c) (hc : c.pc ≠ .confirm ∧ c.pc ≠ .closed)
    {pc : Pc} (hpc : pc = .recv ∨ pc = .loopEnd ∨ pc = .join true) :
    ExactConn ns tl w sim a { c with pc := pc } := by
  rcases hpc with rfl | rfl | rfl <;> exact h.goto hc (by simp) (by simp) (by simp) (by simp)

/-- **A message.** -/
theorem ExactConn.receive (h : ExactConn ns tl w sim a c) (hs : ConnOk ns tl w sim c)
    (hpc : c.pc = .recv) {i : Input}
    (hi : ∀ msg start data, i = .copyData msg → parseXlogData msg = some (start, data) →
      start = c.cursor) : ExactConn ns tl w sim a (c.receive i) := by
  have hc : c.pc ≠ .confirm ∧ c.pc ≠ .closed := by rw [hpc]; simp
  cases i with
  | copyData msg =>
    rw [Conn.receive]
    cases hparse : parseXlogData msg with
    | some xlog =>
      obtain ⟨start, data⟩ := xlog
      obtain rfl := hi msg start data rfl hparse
      have hne : data ≠ [] := by
        rw [parseXlogData] at hparse
        split_ifs at hparse with hcond
        obtain ⟨x, -, hx⟩ := Option.map_eq_some_iff.mp hparse
        rw [← (Prod.mk.inj hx).2]
        exact hcond.2.2
      have hgo : ExactConn ns tl w sim a { c with pc := .ingest } :=
        h.goto hc (by simp) (by simp) (by simp) (by simp)
      exact { hgo with
        more := fun _ => hne
        fresh := fun _ _ => .inr hne }
    | none =>
      dsimp only
      split_ifs
      · exact h
      · exact h.sendStandbyStatus.goto_plain hc (.inr (.inl rfl))
      · exact h.goto_plain hc (.inr (.inl rfl))
  | copyDone =>
    rw [Conn.receive]
    by_cases hsome : c.curSeg.isSome = true
    · rw [if_pos hsome]
      exact h.goto_plain hc (.inr (.inr rfl))
    · rw [if_neg hsome]
      have hseg : c.curSeg = none := by simpa using hsome
      obtain ⟨hdata, hconf⟩ := hs.idle (.inl hpc)
      have hcur : c.cursor = a := (h.fresh hseg hc.2).resolve_right fun hne => hne hdata
      have hconf := hconf hseg
      refine { h with
        sealed := fun n d => ?_
        others := fun n _ hsealed => ?_
        current := fun st hst => absurd (hseg.symm.trans hst) (by simp)
        confirming := fun st hst => absurd (hseg.symm.trans hst) (by simp)
        tail := fun st hst => absurd (hseg.symm.trans hst) (by simp)
        joined := fun st hst => absurd (hseg.symm.trans hst) (by simp)
        more := fun hp => absurd hp (by simp)
        fresh := fun _ _ => .inl hcur
        final := fun _ => ?_ }
      · have hu := h.sealed n d
        rw [Conn.sealedUpto, if_neg hc.1] at hu
        rw [hu, Conn.sealedUpto, if_neg (by simp)]
      · have hu := h.others n (fun st hst => absurd (hseg.symm.trans hst) (by simp)) hsealed
        rw [Conn.chunksUpto, if_neg hc.2] at hu
        rw [Conn.chunksUpto, if_pos (by simp), ← hconf]
        exact hu
      · change c.confirmedLsn = confirmedAt a c.cursor
        rw [hconf, hcur, confirmedAt, if_neg (lt_irrefl a)]
  | timeout => exact h.sendStandbyStatus.goto_plain hc (.inr (.inl rfl))

theorem ExactConn.maybeFlush (h : ExactConn ns tl w sim a c) (hpc : c.pc = .loopEnd)
    (generation : ℕ) : ExactConn ns tl w sim a (c.maybeFlush generation) := by
  have hc : c.pc ≠ .confirm ∧ c.pc ≠ .closed := by rw [hpc]; simp
  have hgoto : ExactConn ns tl w sim a { c with pc := (c.maybeFlush generation).pc } := by
    rw [Conn.maybeFlush]
    dsimp only
    split_ifs with hflush
    · refine h.goto hc (by simp) (fun st hst _ => ?_) (by simp) (by simp)
      rw [hst, Option.any_some, decide_eq_true_iff] at hflush
      exact hflush.2
    · exact h.goto_plain hc (.inl rfl)
  exact { hgoto with }

/-- The state that a piece is added to, of the current segment or of a new one without objects. -/
theorem ExactConn.before_piece (h : ExactConn ns tl w sim a c) (hs : ConnOk ns tl w sim c)
    (hpc : c.pc = .ingest) (hlt : c.cursor < 2 ^ 64)
    (hst : c.curSeg.getD
      (.startAt (UInt64.ofNat (c.cursor / xlogSegSize)) (c.cursor % xlogSegSize)) = st) :
    st.taskFailed = false ∧ st.Stores ns tl w sim a c.cursor := by
  have hc : c.pc ≠ .confirm ∧ c.pc ≠ .closed := by rw [hpc]; simp
  cases hcur : c.curSeg with
  | some st' =>
    rw [hcur, Option.getD_some] at hst
    subst hst
    exact ⟨h.failed _ hcur, h.current _ hcur hc.1⟩
  | none =>
    rw [hcur, Option.getD_none] at hst
    subst hst
    have hfree := hs.free hcur
    rw [hpc] at hfree
    have hconf : c.confirmedLsn = c.cursor := hfree
    have hal : a = c.cursor ∨ xlogSegSize ∣ c.cursor :=
      h.start ▸ hconf ▸ hs.aligned.imp Eq.symm id
    have hle : a ≤ c.cursor := h.start ▸ hconf ▸ hs.start_le
    have hto := toNat_segOf hlt
    have hbase := SegState.base_startAt hto (c.cursor % xlogSegSize)
    have hmod := Nat.mod_lt c.cursor xlogSegSize_pos
    rw [SegState.base, SegState.segNo_startAt] at hbase
    have hbase' : segBase (UInt64.ofNat (c.cursor / xlogSegSize)) + c.cursor % xlogSegSize =
      c.cursor := hbase
    have hsealed : sim.sealed ns tl (UInt64.ofNat (c.cursor / xlogSegSize)) = none := by
      cases hsl : sim.sealed ns tl (UInt64.ofNat (c.cursor / xlogSegSize)) with
      | none => rfl
      | some d =>
        obtain ⟨-, hup, -⟩ := (h.sealed _ d).mp hsl
        rw [Conn.sealedUpto, if_neg hc.1] at hup
        omega
    have hnone := h.others _ (fun st hst => absurd (hcur.symm.trans hst) (by simp)) hsealed
    rw [Conn.chunksUpto, if_neg hc.2, hconf] at hnone
    refine ⟨SegState.taskFailed_startAt _ _, fun o d hch => ?_,
      fun o ho => absurd ho (SegState.not_window_startAt hto hle hal o), fun o d ht => ?_⟩
    · rw [SegState.segNo_startAt, hnone.eq_none ?_ o] at hch
      · exact absurd hch (by simp)
      · rcases hal with heq | hd
        · exact heq ▸ le_max_left _ _
        · have := Nat.mod_eq_zero_of_dvd hd
          omega
    · rw [SegState.chunkTasks_startAt] at ht
      exact absurd ht List.not_mem_nil

/-- **One turn of the loop of `handle_xlogdata`.** -/
theorem ExactConn.ingest (h : ExactConn ns tl w sim a c) (hs : ConnOk ns tl w sim c)
    (hpc : c.pc = .ingest) : ExactConn ns tl w sim a c.ingest := by
  have hc : c.pc ≠ .confirm ∧ c.pc ≠ .closed := by rw [hpc]; simp
  rw [Conn.ingest]
  dsimp only
  split_ifs with hdata hseg
  · exact h.goto_plain hc (.inr (.inl rfl))
  · exact h.goto hc (by simp) (by simp) (by simp) fun _ => hdata
  · have hlen := List.length_pos_of_ne_nil hdata
    have hbound := hs.bound
    have hlt : c.cursor < 2 ^ 64 := by omega
    have hmod := Nat.mod_lt c.cursor xlogSegSize_pos
    obtain ⟨st, hst, hn, hholds, -, -⟩ := hs.before_piece hpc hlt hseg
    obtain ⟨hfailed, hstores⟩ := h.before_piece hs hpc hlt hst
    have hpiece := SegState.piece_end hlt hn
    rw [hst]
    set k := min (xlogSegSize - c.cursor % xlogSegSize) c.data.length with hk
    have hle : c.cursor + k ≤ st.base + xlogSegSize := by omega
    have htake : c.data.take k = slice w c.cursor k := by
      rw [hs.data_eq, take_slice, Nat.min_eq_left (by omega)]
    have hbase := hholds.base_le
    have hstart := hholds.start_le
    rw [h.start] at hholds hstart
    rw [htake]
    -- the segment is the one that was there before, if there was one
    have hsame : ∀ st', c.curSeg = some st' → st' = st := by
      intro st' hst'
      rw [hst', Option.getD_some] at hst
      exact hst
    refine { h with
      failed := fun st' hst' => ?_
      sealed := fun n d => ?_
      others := fun n hn' hsealed => ?_
      current := fun st' hst' _ => ?_
      confirming := fun _ _ hcon => absurd hcon hc.1
      tail := fun _ _ hcon => ?_
      joined := fun _ _ hcon => ?_
      strict := fun st' hst' => ?_
      more := fun hcon => ?_
      fresh := fun hnone => absurd hnone (by simp)
      final := fun hcon => absurd hcon hc.2 }
    · rw [← Option.some.inj hst', SegState.taskFailed_extend]
      exact hfailed
    · have hu := h.sealed n d
      rw [Conn.sealedUpto, if_neg hc.1] at hu
      rw [hu, Conn.sealedUpto, if_neg hc.1]
    · have hu := h.others n (fun st' hst' => ?_) hsealed
      · rw [Conn.chunksUpto, if_neg hc.2] at hu ⊢
        exact hu
      · rw [hsame st' hst', ← SegState.segNo_extend]
        exact hn' _ rfl
    · rw [← Option.some.inj hst']
      exact hstores.extend hholds hle
    · rw [hpc] at hcon
      exact absurd hcon (by simp)
    · rw [hpc] at hcon
      exact absurd hcon (by simp)
    · rw [← Option.some.inj hst', SegState.base_extend]
      change a < c.cursor + k ∧ st.base < c.cursor + k
      omega
    · rw [hpc] at hcon
      exact absurd hcon (by simp)

/-! ### Sealing and closing -/

/-- The segment that a stream has entered last. -/
theorem confirmedAt_eq (hh : st.Holds w a e) (ha : a < e) (hb : st.base < e) :
    confirmedAt a e = max a st.base := by
  have hend := hh.le_end
  have hdiv : (e - 1) / xlogSegSize = st.segNo.toNat := by
    refine Nat.div_eq_of_lt_le ?_ ?_
    · change st.base ≤ e - 1
      omega
    · rw [Nat.succ_mul]
      change e - 1 < st.base + xlogSegSize
      omega
  rw [confirmedAt, if_pos ha, hdiv]
  rfl

/-- Two segments do not overlap. -/
theorem segBase_ne {n m : UInt64} (h : n ≠ m) :
    segBase n + xlogSegSize ≤ segBase m ∨ segBase m + xlogSegSize ≤ segBase n := by
  have hne : n.toNat ≠ m.toNat := fun heq => h (UInt64.toNat_inj.mp heq)
  unfold segBase
  rcases Nat.lt_or_gt_of_ne hne with hlt | hlt
  · left
    have := Nat.mul_le_mul_right xlogSegSize (Nat.succ_le_of_lt hlt)
    rwa [Nat.succ_mul] at this
  · right
    have := Nat.mul_le_mul_right xlogSegSize (Nat.succ_le_of_lt hlt)
    rwa [Nat.succ_mul] at this

/-- What the stream has confirmed and what it has received differ in the current segment only. -/
theorem SegState.Holds.same_cut (hh : st.Holds w a e) (hn : n ≠ st.segNo) {p : ℕ} (ha : a ≤ p)
    (hlo : segBase n ≤ p) (hhi : p < segBase n + xlogSegSize) :
    p < max a st.base ↔ p < e := by
  have hend := hh.le_end
  have hle := hh.start_le
  have hbase := hh.base_le
  have hlt := hh.start_lt
  have hsb : segBase st.segNo = st.base := rfl
  rcases segBase_ne hn with h | h <;> omega

theorem ExactConn.afterJoin (h : ExactConn ns tl w sim a c) (hs : ConnOk ns tl w sim c)
    (hst : c.curSeg = some st) {closing : Bool} (hc : c.pc ≠ .confirm ∧ c.pc ≠ .closed)
    (hok : if closing then c.data = [] else c.cursor = st.base + xlogSegSize)
    (hmore : closing = false → c.data ≠ []) (htasks : st.chunkTasks = [])
    (htail : st.chunksUploaded < st.buf.length →
      sim.chunk ns tl st.segNo st.chunksUploaded = some st.tail) :
    ExactConn ns tl w sim a (c.afterJoin st closing) := by
  have hholds := hs.holds st hst
  have hconf := hs.confirmed st hst
  rw [h.start] at hholds hconf
  have hexact := (h.current st hst hc.1).chunksExact hholds htasks htail
  have hseal := h.sealed
  have hothers := h.others
  rw [Conn.sealedUpto, if_neg hc.1] at hseal
  rw [Conn.chunksUpto, if_neg hc.2, hconf] at hothers
  have hstrict := h.strict st hst
  rw [Conn.afterJoin]
  cases closing with
  | true =>
    refine { h with
      failed := fun _ hnone => absurd hnone (by simp)
      sealed := fun n d => ?_
      others := fun n _ hsealed => ?_
      current := fun _ hnone => absurd hnone (by simp)
      confirming := fun _ hnone => absurd hnone (by simp)
      tail := fun _ hnone => absurd hnone (by simp)
      joined := fun _ hnone => absurd hnone (by simp)
      strict := fun _ hnone => absurd hnone (by simp)
      more := fun hcon => absurd hcon (by simp)
      fresh := fun _ hcon => absurd rfl hcon
      final := fun _ => ?_ }
    · rw [hseal n d]
      exact Iff.rfl
    · change ChunksExact ns tl w sim a c.cursor n
      by_cases hn : n = st.segNo
      · rw [hn]
        exact hexact
      · refine (hothers n (fun st' hst' => ?_) hsealed).congr fun p hap hlo hhi =>
          hholds.same_cut hn hap hlo hhi
        rw [← Option.some.inj (hst.symm.trans hst')]
        exact hn
    · exact hconf.trans (confirmedAt_eq hholds hstrict.1 hstrict.2).symm
  | false =>
    have hcur : c.cursor = st.base + xlogSegSize := hok
    have hdata := hmore rfl
    rw [if_neg (by simp), hholds.isPartial_eq]
    by_cases hpart : st.base < a
    · rw [if_pos (decide_eq_true hpart)]
      refine { h with
        sealed := fun n d => ?_
        others := fun n hn hsealed => ?_
        current := fun _ _ hcon => absurd rfl hcon
        confirming := fun st' hst' _ _ => ?_
        tail := fun _ _ hcon => absurd hcon (by simp)
        joined := fun st' hst' _ => ?_
        more := fun _ => hdata
        fresh := fun hnone => absurd (hst.symm.trans hnone) (by simp)
        final := fun hcon => absurd hcon (by simp) }
      · change sim.sealed ns tl n = some d ↔ a ≤ segBase n ∧ segBase n + xlogSegSize ≤ c.cursor ∧ _
        have hsb : segBase st.segNo = st.base := rfl
        rw [hseal n d]
        refine and_congr_right fun han => and_congr_left fun _ => ?_
        omega
      · change ChunksExact ns tl w sim a c.confirmedLsn n
        rw [hconf]
        exact hothers n hn hsealed
      · rw [← Option.some.inj (hst.symm.trans hst')]
        exact hexact
      · rw [← Option.some.inj (hst.symm.trans hst')]
        exact htasks
    · rw [if_neg (by simpa using hpart)]
      refine h.goto hc (by simp) (by simp) (fun st' hst' _ => ?_) fun _ => hdata
      rw [← Option.some.inj (hst.symm.trans hst')]
      exact htasks

/-- The PUT of the tail. -/
theorem ExactConn.putTail (h : ExactConn ns tl w sim a c) (hs : ConnOk ns tl w sim c)
    (hst : c.curSeg = some st) (hc : c.pc ≠ .confirm) (hlt : st.chunksUploaded < st.buf.length) :
    ExactConn ns tl w (sim.putChunk ns tl st.segNo st.chunksUploaded st.tail) a c := by
  have hholds := hs.holds st hst
  rw [h.start] at hholds
  refine { h with
    sealed := fun n d => by rw [S3Sim.sealed_putChunk]; exact h.sealed n d
    others := fun n hn hsealed => ?_
    current := fun st' hst' _ => ?_
    confirming := fun _ _ hcon => absurd hcon hc }
  · rw [S3Sim.sealed_putChunk] at hsealed
    intro o d
    rw [S3Sim.chunk_putChunk, if_neg fun hkey => hn st hst hkey.1]
    exact h.others n hn hsealed o d
  · obtain rfl : st = st' := Option.some.inj (hst.symm.trans hst')
    exact (h.current st hst hc).putTail hholds hlt

/-- The PUT of the sealed segment. -/
theorem ExactConn.putSealed (h : ExactConn ns tl w sim a c) (hs : ConnOk ns tl w sim c)
    (hst : c.curSeg = some st) (hpc : c.pc = .seal) :
    ExactConn ns tl w (sim.putSealed ns tl st.segNo (segSlice w st.segNo)) a
      { c with pc := .confirm } := by
  have hc : c.pc ≠ .confirm ∧ c.pc ≠ .closed := by rw [hpc]; simp
  have hok := hs.pcOk st hst
  rw [hpc] at hok
  obtain ⟨hstart, hcur⟩ := hok
  have hconf := hs.confirmed st hst
  rw [h.start] at hconf hstart
  have hsb : segBase st.segNo = st.base := rfl
  have hseal := h.sealed
  have hothers := h.others
  rw [Conn.sealedUpto, if_neg hc.1] at hseal
  rw [Conn.chunksUpto, if_neg hc.2] at hothers
  refine { h with
    sealed := fun n d => ?_
    others := fun n hn hsealed => ?_
    current := fun _ _ hcon => absurd rfl hcon
    confirming := fun st' hst' _ hsealed => ?_
    tail := fun _ _ hcon => absurd hcon (by simp)
    joined := fun st' hst' _ => h.joined st' hst' (.inl hpc)
    more := fun _ => h.more (.inr (.inr (.inl hpc)))
    fresh := fun hnone => absurd (hst.symm.trans hnone) (by simp)
    final := fun hcon => absurd hcon (by simp) }
  · change _ ↔ a ≤ segBase n ∧ segBase n + xlogSegSize ≤ c.cursor ∧ _
    rw [S3Sim.sealed_putSealed]
    split_ifs with hn
    · subst hn
      constructor
      · intro hd
        exact ⟨by omega, by omega, (Option.some.inj hd).symm⟩
      · rintro ⟨-, -, hd⟩
        rw [hd]
    · rw [hseal n d]
      refine and_congr_right fun han => and_congr_left fun _ => ?_
      rcases segBase_ne hn with hlt | hlt <;> omega
  · have hn' : n ≠ st.segNo := hn st hst
    rw [S3Sim.sealed_putSealed, if_neg hn'] at hsealed
    intro o d
    rw [S3Sim.chunk_putSealed]
    exact hothers n hn hsealed o d
  · obtain rfl : st = st' := Option.some.inj (hst.symm.trans hst')
    rw [S3Sim.sealed_putSealed, if_pos rfl] at hsealed
    exact absurd hsealed (by simp)

/-- `confirmed_lsn` moves to the end of the segment. -/
theorem ExactConn.confirm (h : ExactConn ns tl w sim a c) (hs : ConnOk ns tl w sim c)
    (hst : c.curSeg = some st) (hpc : c.pc = .confirm) : ExactConn ns tl w sim a (c.confirm st) := by
  have hok := hs.pcOk st hst
  rw [hpc] at hok
  have hholds := hs.holds st hst
  have hconf := hs.confirmed st hst
  rw [h.start] at hholds hconf
  have hnew : (st.segNo.toNat + 1) * xlogSegSize = c.cursor := by
    rw [Nat.succ_mul, hok.1]
    rfl
  have hseal := h.sealed
  have hothers := h.others
  rw [Conn.sealedUpto, if_pos hpc] at hseal
  rw [Conn.chunksUpto, if_neg (by rw [hpc]; simp), hconf] at hothers
  refine ExactConn.sendStandbyStatus { h with
    failed := fun _ hnone => absurd hnone (by simp)
    sealed := fun n d => ?_
    others := fun n _ hsealed => ?_
    current := fun _ hnone => absurd hnone (by simp)
    confirming := fun _ hnone => absurd hnone (by simp)
    tail := fun _ hnone => absurd hnone (by simp)
    joined := fun _ hnone => absurd hnone (by simp)
    strict := fun _ hnone => absurd hnone (by simp)
    more := fun hcon => absurd hcon (by simp)
    fresh := fun _ _ => .inr (h.more (.inr (.inr (.inr hpc))))
    final := fun hcon => absurd hcon (by simp) }
  · change _ ↔ a ≤ segBase n ∧ segBase n + xlogSegSize ≤ (st.segNo.toNat + 1) * xlogSegSize ∧ _
    rw [hnew]
    exact hseal n d
  · change ChunksExact ns tl w sim a ((st.segNo.toNat + 1) * xlogSegSize) n
    rw [hnew]
    by_cases hn : n = st.segNo
    · subst hn
      exact h.confirming st hst hpc hsealed
    · refine (hothers n (fun st' hst' => ?_) hsealed).congr fun p hap hlo hhi =>
        hholds.same_cut hn hap hlo hhi
      rw [← Option.some.inj (hst.symm.trans hst')]
      exact hn

/-! ### Tasks -/

theorem ExactConn.taskLands (h : ExactConn ns tl w sim a c) (hs : ConnOk ns tl w sim c)
    (hst : c.curSeg = some st) {i o : ℕ} {d : Bytes} (ht : st.chunkTasks[i]? = some (o, d)) :
    ExactConn ns tl w (sim.putChunk ns tl st.segNo o d) a
      { c with curSeg := some { st with chunkTasks := st.chunkTasks.eraseIdx i } } := by
  have hholds := hs.holds st hst
  have huploads := hs.uploads st hst
  rw [h.start] at hholds huploads
  have hjoined : ¬ (c.pc = .seal ∨ c.pc = .confirm) := by
    intro hp
    rw [h.joined st hst hp] at ht
    exact absurd ht (by simp)
  have hc : c.pc ≠ .confirm := fun hp => hjoined (.inr hp)
  refine { h with
    failed := fun st' hst' => ?_
    sealed := fun n d => by rw [S3Sim.sealed_putChunk]; exact h.sealed n d
    others := fun n hn hsealed => ?_
    current := fun st' hst' _ => ?_
    confirming := fun _ _ hcon => absurd hcon hc
    tail := fun st' hst' hp => ?_
    joined := fun _ _ hp => absurd hp hjoined
    strict := fun st' hst' => ?_
    fresh := fun hnone => absurd hnone (by simp) }
  · rw [← Option.some.inj hst']
    exact h.failed st hst
  · have hn' : n ≠ st.segNo := hn { st with chunkTasks := st.chunkTasks.eraseIdx i } rfl
    rw [S3Sim.sealed_putChunk] at hsealed
    intro o' d'
    rw [S3Sim.chunk_putChunk, if_neg fun hkey => hn' hkey.1]
    refine h.others n (fun st' hst' => ?_) hsealed o' d'
    rw [← Option.some.inj (hst.symm.trans hst')]
    exact hn'
  · rw [← Option.some.inj hst']
    exact (h.current st hst hc).taskLands hholds huploads ht
  · rw [← Option.some.inj hst']
    exact h.tail st hst hp
  · rw [← Option.some.inj hst']
    exact h.strict st hst

/-- The delete of the chunks of a sealed segment. -/
theorem ExactConn.deleteChunks (h : ExactConn ns tl w sim a c) (hs : ConnOk ns tl w sim c)
    (hsealed : sim.sealed ns tl n = some (segSlice w n)) :
    ExactConn ns tl w (sim.deleteChunks ns tl n) a c := by
  have hne : ∀ m, sim.sealed ns tl m = none → m ≠ n := by
    rintro m hm rfl
    exact absurd (hm.symm.trans hsealed) (by simp)
  have hchunks : ∀ m o, m ≠ n → (sim.deleteChunks ns tl n).chunk ns tl m o = sim.chunk ns tl m o :=
    fun m o hm => by rw [S3Sim.chunk_deleteChunks, if_neg hm]
  refine { h with
    sealed := fun m d => by rw [S3Sim.sealed_deleteChunks]; exact h.sealed m d
    others := fun m hm hsl o d => ?_
    current := fun st hst hp => ?_
    confirming := fun st hst hp hsl o d => ?_ }
  · rw [S3Sim.sealed_deleteChunks] at hsl
    rw [hchunks m o (hne m hsl)]
    exact h.others m hm hsl o d
  · -- the current segment is not sealed before it is confirmed
    have hcur : st.segNo ≠ n := by
      rintro rfl
      have hconf := hs.confirmed st hst
      have hlt := (hs.holds st hst).start_lt
      have hpos := xlogSegSize_pos
      obtain ⟨-, hup, -⟩ := (h.sealed _ _).mp hsealed
      rw [Conn.sealedUpto, if_neg hp] at hup
      change st.base + xlogSegSize ≤ _ at hup
      omega
    have hstores := h.current st hst hp
    exact ⟨fun o d hc => hstores.stored o d (hchunks _ o hcur ▸ hc),
      fun o ho => (hstores.window o ho).imp_right fun hc => (hchunks _ o hcur).trans hc, hstores.task⟩
  · rw [S3Sim.sealed_deleteChunks] at hsl
    rw [hchunks _ o (hne _ hsl)]
    exact h.confirming st hst hp hsl o d

/-! ## Steps of the receiver -/

variable {r r' : Receiver}

/-- The invariant when only the connection moves. -/
theorem Exact.goto (h : Exact ns tl w a r) (hc : ExactConn ns tl w r.sim a c) :
    Exact ns tl w a { r with conn := some c } :=
  ⟨h.late, fun hnone => absurd hnone (by simp), fun _ hc' => Option.some.inj hc' ▸ hc⟩

theorem Exact.advance (h : Exact ns tl w a r) (hs : Sound ns tl w r) (hc : r.conn = some c)
    (hstep : r.advance c = some r') : Exact ns tl w a r' := by
  have hconn := h.conn c hc
  have hok := hs.conn c hc
  rw [Receiver.advance] at hstep
  split at hstep
  · next hpc =>
    rw [← Option.some.inj hstep]
    exact h.goto (hconn.ingest hok hpc)
  · next hpc =>
    rw [← Option.some.inj hstep]
    exact h.goto (hconn.maybeFlush hpc r.generation)
  · next closing st hpc hst =>
    have hpcOk := hok.pcOk st hst
    rw [hpc] at hpcOk
    have hmore : closing = false → c.data ≠ [] := fun hf => hconn.more (.inl (hf ▸ hpc))
    have hc' : c.pc ≠ .confirm ∧ c.pc ≠ .closed := by rw [hpc]; simp
    rw [if_neg (by rw [hconn.failed st hst]; simp)] at hstep
    split_ifs at hstep with htasks htail
    · rw [← Option.some.inj hstep]
      refine h.goto (hconn.goto hc' (by simp) (fun st' hst' _ => ?_) (by simp) fun hp => hmore ?_)
      · rw [← Option.some.inj (hst.symm.trans hst')]
        exact htail
      · simpa using hp
    · rw [← Option.some.inj hstep]
      exact h.goto (hconn.afterJoin hok hst hc' hpcOk hmore (not_not.mp htasks)
        fun hlt => absurd hlt htail)
  · next st hpc hst =>
    rw [← Option.some.inj hstep]
    exact h.goto (hconn.confirm hok hst hpc)
  · exact absurd hstep (by simp)

theorem Exact.putLands (h : Exact ns tl w a r) (hs : Sound ns tl w r) (hc : r.conn = some c)
    (hstep : r.putLands ns tl c = some r') : Exact ns tl w a r' := by
  have hconn := h.conn c hc
  have hok := hs.conn c hc
  rw [Receiver.putLands] at hstep
  split at hstep
  · next closing st hpc hst =>
    have hpcOk := hok.pcOk st hst
    rw [hpc] at hpcOk
    have hc' : c.pc ≠ .confirm ∧ c.pc ≠ .closed := by rw [hpc]; simp
    have hlt := hconn.tail st hst (.inr ⟨closing, hpc⟩)
    rw [← Option.some.inj hstep]
    refine ⟨h.late, fun hnone => absurd hnone (by simp), fun _ hc'' => Option.some.inj hc'' ▸ ?_⟩
    refine (hconn.putTail hok hst hc'.1 hlt).afterJoin (hok.putTail hst hc'.1) hst hc' hpcOk.2.2
      (fun hf => hconn.more (.inr (.inl (hf ▸ hpc)))) hpcOk.1 fun _ => ?_
    rw [S3Sim.chunk_putChunk, if_pos ⟨rfl, rfl⟩]
  · next st hpc hst =>
    have hc' : c.pc ≠ .confirm ∧ c.pc ≠ .closed := by rw [hpc]; simp
    have hlt := hconn.tail st hst (.inl hpc)
    rw [← Option.some.inj hstep]
    refine ⟨h.late, fun hnone => absurd hnone (by simp), fun _ hc'' => Option.some.inj hc'' ▸ ?_⟩
    exact (hconn.putTail hok hst hc'.1 hlt).goto_plain hc' (.inl rfl)
  · next st hpc hst =>
    rw [← Option.some.inj hstep, (hok.putSealed hst hpc).1]
    refine ⟨fun t ht => ?_, fun hnone => absurd hnone (by simp),
      fun _ hc'' => Option.some.inj hc'' ▸ hconn.putSealed hok hst hpc⟩
    rcases List.mem_append.mp ht with ht | ht
    · exact h.late t ht
    · exact ⟨_, List.mem_singleton.mp ht⟩
  · exact absurd hstep (by simp)

theorem Exact.taskLands (h : Exact ns tl w a r) (hs : Sound ns tl w r) (hc : r.conn = some c) {i : ℕ}
    (hstep : r.taskEnds ns tl c i true = some r') : Exact ns tl w a r' := by
  obtain ⟨st, hst, hstep⟩ := Option.bind_eq_some_iff.mp hstep
  obtain ⟨⟨o, d⟩, ht, rfl⟩ := Option.map_eq_some_iff.mp hstep
  have hconn := (h.conn c hc).taskLands (hs.conn c hc) hst ht
  refine ⟨h.late, fun hnone => absurd hnone (by simp), fun c' hc' => Option.some.inj hc' ▸ ?_⟩
  simpa using hconn

/-- **A step that is not a failure keeps the archive exact.** -/
theorem Exact.step (h : Exact ns tl w a r) (hs : Sound ns tl w r) {l : Label} (hok : Smooth w a r l)
    (hstep : r.step ns tl l = some r') : Exact ns tl w a r' := by
  obtain ⟨hcont, hfails, hconnect⟩ := hok
  cases l with
  | connect lsn =>
    obtain rfl := hconnect lsn rfl
    rw [Receiver.step] at hstep
    split_ifs at hstep with hc
    rw [← Option.some.inj hstep]
    have hempty := h.empty (by simpa using hc)
    refine h.goto
      { start := rfl
        failed := fun _ hst => absurd hst (by simp [Conn.new])
        sealed := fun n d => ?_
        others := fun n _ _ => ?_
        current := fun _ hst => absurd hst (by simp [Conn.new])
        confirming := fun _ hst => absurd hst (by simp [Conn.new])
        tail := fun _ hst => absurd hst (by simp [Conn.new])
        joined := fun _ hst => absurd hst (by simp [Conn.new])
        strict := fun _ hst => absurd hst (by simp [Conn.new])
        more := fun hp => absurd hp (by simp [Conn.new])
        fresh := fun _ _ => .inl rfl
        final := fun hp => absurd hp (by simp [Conn.new]) }
    · rw [(hempty n).1]
      change _ ↔ lsn ≤ segBase n ∧ segBase n + xlogSegSize ≤ lsn ∧ _
      have hpos := xlogSegSize_pos
      refine ⟨fun hd => absurd hd (by simp), fun hall => ?_⟩
      obtain ⟨hlo, hhi, _⟩ := hall
      omega
    · exact chunksExact_of_eq_none (hempty n).2 fun p hap _ _ => hap
  | checkpoint =>
    rw [← Option.some.inj hstep]
    exact ⟨h.late, h.empty, h.conn⟩
  | input i =>
    obtain ⟨c, hc, hstep⟩ := Option.bind_eq_some_iff.mp hstep
    split_ifs at hstep with hpc
    rw [← Option.some.inj hstep]
    refine h.goto ((h.conn c hc).receive (hs.conn c hc) hpc fun msg start data hi hparse => ?_)
    subst hi
    exact (hcont c start data hc hparse).1
  | run =>
    obtain ⟨c, hc, hstep⟩ := Option.bind_eq_some_iff.mp hstep
    exact h.advance hs hc hstep
  | putLands =>
    obtain ⟨c, hc, hstep⟩ := Option.bind_eq_some_iff.mp hstep
    exact h.putLands hs hc hstep
  | taskLands i =>
    obtain ⟨c, hc, hstep⟩ := Option.bind_eq_some_iff.mp hstep
    exact h.taskLands hs hc hstep
  | lateLands i =>
    obtain ⟨t, ht, rfl⟩ := Option.map_eq_some_iff.mp hstep
    have hmem := List.mem_of_getElem? ht
    obtain ⟨n, rfl⟩ := h.late t hmem
    have hsealed : r.sim.sealed ns tl n = some (segSlice w n) := hs.late _ hmem
    refine ⟨fun t' ht' => h.late t' (List.mem_of_mem_eraseIdx ht'), fun hnone => ?_,
      fun c hc => (h.conn c hc).deleteChunks (hs.conn c hc) hsealed⟩
    rw [(h.empty hnone n).1] at hsealed
    exact absurd hsealed (by simp)
  | taskFails i => exact absurd hfails (by simp [Label.fails])
  | drop => exact absurd hfails (by simp [Label.fails])

end Exactness

end Tiko.Wal

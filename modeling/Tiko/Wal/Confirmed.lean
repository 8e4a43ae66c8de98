import Tiko.Lib.Reach
import Tiko.Wal.Segment

/-!
# A confirmed LSN is durable

The server recycles its WAL below the flush LSN that the receiver sends. Every byte below it, from the
start of the connection on, has to be in the archive by then, whatever the order in which the PUTs
land, whichever of them fail, and whatever earlier connections have left running.

* `Covered w sim p`: a stored object holds the byte of the WAL `w` at position `p`;
* `Kept w sim sim'`: an effect on the archive that takes away nothing that is covered;
* `ConnOk`, `Sound`: the invariant, over runs on a contiguous stream (`Contiguous`).

**`confirmed_is_durable`**: whatever has been sent is covered, and is the start or a multiple of the
segment size.
-/

namespace Tiko.Wal

open Lib

/-- The LSN at which a segment starts. -/
def segBase (n : UInt64) : ℕ := n.toNat * xlogSegSize

/-- The number of the segment of a position. -/
def segOf (p : ℕ) : UInt64 := UInt64.ofNat (p / xlogSegSize)

/-- The WAL of a whole segment. -/
def segSlice (w : ℕ → UInt8) (n : UInt64) : Bytes := slice w (segBase n) xlogSegSize

section Archive

variable (ns : DbNamespace) (tl : TimelineId) (w : ℕ → UInt8)

/-- A stored object holds the byte at a position: the sealed segment, or a chunk with the WAL from its
offset on. -/
def Covered (sim : S3Sim) (p : ℕ) : Prop :=
  sim.sealed ns tl (segOf p) = some (segSlice w (segOf p)) ∨
    ∃ o data, sim.chunk ns tl (segOf p) o = some data ∧
      data = slice w (segBase (segOf p) + o) data.length ∧ data.length ≤ chunkBytes ∧
      segBase (segOf p) + o ≤ p ∧ p < segBase (segOf p) + o + data.length

/-- An effect on the archive that takes nothing away: what is covered stays covered, and a complete
window or segment stays, or the sealed segment is there. -/
structure Kept (sim sim' : S3Sim) : Prop where
  covered : ∀ p, Covered ns tl w sim p → Covered ns tl w sim' p
  sealed : ∀ n, sim.sealed ns tl n = some (segSlice w n) → sim'.sealed ns tl n = some (segSlice w n)
  window : ∀ n o, sim.chunk ns tl n o = some (slice w (segBase n + o) chunkBytes) →
    sim'.chunk ns tl n o = some (slice w (segBase n + o) chunkBytes) ∨
      sim'.sealed ns tl n = some (segSlice w n)

/-- What a task that nobody waits for may be: the PUT of a window, or the delete of the chunks of a
segment that is sealed. -/
def LateOk (sim : S3Sim) : Late → Prop
  | .put n o data => data = slice w (segBase n + o) chunkBytes
  | .deleteChunks n => sim.sealed ns tl n = some (segSlice w n)

variable {ns tl w} {sim sim' : S3Sim} {n : UInt64} {o p : ℕ} {data : Bytes}

/-- A chunk with the WAL from its offset on covers what an object at its key has covered, if it is a
complete window or in another segment. -/
theorem Covered.putChunk (h : Covered ns tl w sim p) (hd : data = slice w (segBase n + o) data.length)
    (hlen : segOf p = n → data.length = chunkBytes) :
    Covered ns tl w (sim.putChunk ns tl n o data) p := by
  rcases h with h | ⟨o', d, hc, hslice, hle, hlo, hhi⟩
  · left
    rwa [S3Sim.sealed_putChunk]
  · right
    by_cases hkey : segOf p = n ∧ o' = o
    · obtain ⟨rfl, rfl⟩ := hkey
      have hfull := hlen rfl
      exact ⟨o', data, by rw [S3Sim.chunk_putChunk, if_pos ⟨rfl, rfl⟩], hd, hfull.le, hlo, by omega⟩
    · exact ⟨o', d, by rw [S3Sim.chunk_putChunk, if_neg hkey, hc], hslice, hle, hlo, hhi⟩

theorem Covered.putSealed (h : Covered ns tl w sim p) :
    Covered ns tl w (sim.putSealed ns tl n (segSlice w n)) p := by
  rcases h with h | ⟨o, d, hc, hrest⟩
  · left
    rw [S3Sim.sealed_putSealed]
    split_ifs with hn
    · rw [hn]
    · exact h
  · exact .inr ⟨o, d, by rwa [S3Sim.chunk_putSealed], hrest⟩

/-- A sealed segment covers its positions. -/
theorem covered_of_sealed (h : sim.sealed ns tl n = some (segSlice w n)) (hp : segOf p = n) :
    Covered ns tl w sim p := by
  left
  rwa [hp]

theorem covered_of_chunk (hc : sim.chunk ns tl n o = some data)
    (hd : data = slice w (segBase n + o) data.length) (hle : data.length ≤ chunkBytes)
    (hp : segOf p = n) (hlo : segBase n + o ≤ p) (hhi : p < segBase n + o + data.length) :
    Covered ns tl w sim p := by
  subst hp
  exact .inr ⟨o, data, hc, hd, hle, hlo, hhi⟩

/-! ## Effects that take nothing away -/

/-- A complete window. -/
theorem kept_putWindow (hd : data = slice w (segBase n + o) chunkBytes) :
    Kept ns tl w sim (sim.putChunk ns tl n o data) := by
  have hlen : data.length = chunkBytes := by rw [hd, length_slice]
  refine ⟨fun p hp => hp.putChunk (by rw [hlen, hd]) fun _ => hlen, fun m hm => ?_, fun m p hm => ?_⟩
  · rwa [S3Sim.sealed_putChunk]
  · left
    rw [S3Sim.chunk_putChunk]
    split_ifs with hkey
    · rw [hkey.1, hkey.2, hd]
    · exact hm

theorem kept_putSealed : Kept ns tl w sim (sim.putSealed ns tl n (segSlice w n)) := by
  refine ⟨fun p hp => hp.putSealed, fun m hm => ?_, fun m p hm => .inl ?_⟩
  · rw [S3Sim.sealed_putSealed]
    split_ifs with hn
    · rw [hn]
    · exact hm
  · rwa [S3Sim.chunk_putSealed]

/-- The chunks of a sealed segment. -/
theorem kept_deleteChunks (h : sim.sealed ns tl n = some (segSlice w n)) :
    Kept ns tl w sim (sim.deleteChunks ns tl n) := by
  have hsealed : (sim.deleteChunks ns tl n).sealed ns tl n = some (segSlice w n) := by
    rwa [S3Sim.sealed_deleteChunks]
  refine ⟨fun p hp => ?_, fun m hm => by rwa [S3Sim.sealed_deleteChunks], fun m p hm => ?_⟩
  · by_cases hn : segOf p = n
    · exact covered_of_sealed hsealed hn
    · rcases hp with hp | ⟨o, d, hc, hrest⟩
      · exact .inl (by rwa [S3Sim.sealed_deleteChunks])
      · exact .inr ⟨o, d, by rwa [S3Sim.chunk_deleteChunks, if_neg hn], hrest⟩
  · by_cases hn : m = n
    · exact .inr (hn ▸ hsealed)
    · exact .inl (by rwa [S3Sim.chunk_deleteChunks, if_neg hn])

theorem kept_land {t : Late} (h : LateOk ns tl w sim t) :
    Kept ns tl w sim (Receiver.land ns tl sim t) := by
  cases t with
  | put n o data => exact kept_putWindow h
  | deleteChunks n => exact kept_deleteChunks h

theorem LateOk.kept {t : Late} (h : LateOk ns tl w sim t)
    (hsealed : ∀ n, sim.sealed ns tl n = some (segSlice w n) →
      sim'.sealed ns tl n = some (segSlice w n)) : LateOk ns tl w sim' t := by
  cases t with
  | put n o data => exact h
  | deleteChunks n => exact hsealed n h

end Archive

/-! ## The invariant -/

section Invariant

variable (ns : DbNamespace) (tl : TimelineId) (w : ℕ → UInt8)

/-- Every window that has been spawned is running, has failed, or is stored. -/
structure SegState.Uploads (sim : S3Sim) (a : ℕ) (st : SegState) : Prop where
  task : ∀ o data, (o, data) ∈ st.chunkTasks → data = st.windowAt w o
  window : ∀ o, st.Window a o → st.taskFailed = true ∨ (∃ data, (o, data) ∈ st.chunkTasks) ∨
    sim.chunk ns tl st.segNo o = some (st.windowAt w o) ∨
    sim.sealed ns tl st.segNo = some (segSlice w st.segNo)

/-- What holds of the segment at each point: sealing starts when the segment is complete, the tail and
the sealed segment are stored when all tasks have succeeded, and at the end everything is covered. -/
def Pc.Ok (sim : S3Sim) (c : Conn) (st : SegState) : Pc → Prop
  | .recv => c.data = []
  | .ingest => True
  | .join closing => if closing then c.data = [] else c.cursor = st.base + xlogSegSize
  | .tail closing => st.chunkTasks = [] ∧ st.taskFailed = false ∧
    if closing then c.data = [] else c.cursor = st.base + xlogSegSize
  | .seal => c.startLsn ≤ st.base ∧ c.cursor = st.base + xlogSegSize
  | .confirm => c.cursor = st.base + xlogSegSize ∧
    ∀ p, c.startLsn ≤ p → p < st.base + xlogSegSize → Covered ns tl w sim p
  | .loopEnd => c.data = []
  | .flush => c.data = []
  | .closed => False

/-- Without a segment the connection is where it has confirmed, or it has ended. -/
def Pc.Free (c : Conn) : Pc → Prop
  | .recv => c.confirmedLsn = c.cursor ∧ c.data = []
  | .ingest => c.confirmedLsn = c.cursor
  | .loopEnd => c.confirmedLsn = c.cursor ∧ c.data = []
  | .closed => c.data = []
  | _ => False

/-- The invariant of a connection. -/
structure ConnOk (sim : S3Sim) (c : Conn) : Prop where
  data_eq : c.data = slice w c.cursor c.data.length
  bound : c.cursor + c.data.length ≤ 2 ^ 64
  start_le : c.startLsn ≤ c.confirmedLsn
  aligned : c.confirmedLsn = c.startLsn ∨ xlogSegSize ∣ c.confirmedLsn
  sent : ∀ f ∈ c.sent, f ≤ c.confirmedLsn ∧ (f = c.startLsn ∨ xlogSegSize ∣ f)
  covered : ∀ p, c.startLsn ≤ p → p < c.confirmedLsn → Covered ns tl w sim p
  free : c.curSeg = none → c.pc.Free c
  confirmed : ∀ st, c.curSeg = some st → c.confirmedLsn = max c.startLsn st.base
  holds : ∀ st, c.curSeg = some st → st.Holds w c.startLsn c.cursor
  uploads : ∀ st, c.curSeg = some st → st.Uploads ns tl w sim c.startLsn
  pcOk : ∀ st, c.curSeg = some st → c.pc.Ok ns tl w sim c st

/-- The invariant of the receiver. -/
structure Sound (r : Receiver) : Prop where
  conn : ∀ c, r.conn = some c → ConnOk ns tl w r.sim c
  late : ∀ t ∈ r.late, LateOk ns tl w r.sim t

/-- The server sends the WAL `w` without gaps, and within the range of LSNs. -/
def Contiguous (r : Receiver) : Label → Prop
  | .input (.copyData msg) => ∀ c start data, r.conn = some c → parseXlogData msg = some (start, data) →
    start = c.cursor ∧ data = slice w start data.length ∧ start + data.length ≤ 2 ^ 64
  | .connect startLsn => startLsn ≤ 2 ^ 64
  | _ => True

variable {ns tl w} {sim sim' : S3Sim} {a e : ℕ} {st : SegState} {c : Conn}

theorem SegState.Uploads.kept (h : st.Uploads ns tl w sim a) (hk : Kept ns tl w sim sim') :
    st.Uploads ns tl w sim' a := by
  refine ⟨h.task, fun o ho => ?_⟩
  rcases h.window o ho with hf | ht | hc | hs
  · exact .inl hf
  · exact .inr (.inl ht)
  · exact .inr (.inr (hk.window st.segNo o hc))
  · exact .inr (.inr (.inr (hk.sealed _ hs)))

theorem Pc.Ok.kept {pc : Pc} (h : pc.Ok ns tl w sim c st) (hk : Kept ns tl w sim sim') :
    pc.Ok ns tl w sim' c st := by
  cases pc with
  | confirm => exact ⟨h.1, fun p hs hp => hk.covered p (h.2 p hs hp)⟩
  | _ => exact h

/-- An effect of another task leaves the connection's invariant. -/
theorem ConnOk.kept (h : ConnOk ns tl w sim c) (hk : Kept ns tl w sim sim') :
    ConnOk ns tl w sim' c :=
  { h with
    covered := fun p hs hp => hk.covered p (h.covered p hs hp)
    uploads := fun st hst => (h.uploads st hst).kept hk
    pcOk := fun st hst => (h.pcOk st hst).kept hk }

/-! ## Steps of the connection -/

theorem ConnOk.sendStandbyStatus (h : ConnOk ns tl w sim c) :
    ConnOk ns tl w sim c.sendStandbyStatus := by
  refine { h with sent := fun f hf => ?_ }
  rcases List.mem_append.mp hf with hf | hf
  · exact h.sent f hf
  · rw [List.mem_singleton.mp hf]
    exact ⟨le_rfl, h.aligned⟩

theorem ConnOk.goto (h : ConnOk ns tl w sim c) {pc : Pc}
    (hfree : c.curSeg = none → pc.Free c)
    (hok : ∀ st, c.curSeg = some st → pc.Ok ns tl w sim c st) :
    ConnOk ns tl w sim { c with pc := pc } :=
  { h with
    free := hfree
    pcOk := hok }

/-- At the end of a message nothing of it is left. -/
theorem ConnOk.goto_loopEnd (h : ConnOk ns tl w sim c) (hd : c.data = [])
    (hc : c.curSeg = none → c.confirmedLsn = c.cursor) :
    ConnOk ns tl w sim { c with pc := .loopEnd } :=
  h.goto (fun hseg => ⟨hc hseg, hd⟩) fun _ _ => hd

/-- Between two messages. -/
theorem ConnOk.idle (h : ConnOk ns tl w sim c) (hpc : c.pc = .recv ∨ c.pc = .loopEnd) :
    c.data = [] ∧ (c.curSeg = none → c.confirmedLsn = c.cursor) := by
  cases hseg : c.curSeg with
  | none =>
    have hfree := h.free hseg
    rcases hpc with hpc | hpc <;> rw [hpc] at hfree <;> exact ⟨hfree.2, fun _ => hfree.1⟩
  | some st =>
    have hok := h.pcOk st hseg
    rcases hpc with hpc | hpc <;> rw [hpc] at hok <;> exact ⟨hok, fun hnone => absurd hnone (by simp)⟩

/-- **A message**, which continues the stream if it has WAL. -/
theorem ConnOk.receive (h : ConnOk ns tl w sim c) (hpc : c.pc = .recv) {i : Input}
    (hi : ∀ msg start data, i = .copyData msg → parseXlogData msg = some (start, data) →
      start = c.cursor ∧ data = slice w start data.length ∧ start + data.length ≤ 2 ^ 64) :
    ConnOk ns tl w sim (c.receive i) := by
  obtain ⟨hdata, hconf⟩ := h.idle (.inl hpc)
  cases i with
  | copyData msg =>
    rw [Conn.receive]
    cases hparse : parseXlogData msg with
    | some xlog =>
      obtain ⟨start, data⟩ := xlog
      obtain ⟨rfl, hslice, hbound⟩ := hi msg start data rfl hparse
      exact { h with
        data_eq := hslice
        bound := hbound
        free := hconf
        pcOk := fun _ _ => trivial }
    | none =>
      dsimp only
      split_ifs
      · exact h
      · exact h.sendStandbyStatus.goto_loopEnd hdata hconf
      · exact h.goto_loopEnd hdata hconf
  | copyDone =>
    refine h.goto (fun hseg => ?_) fun st hst => ?_
    · rw [hseg]
      exact hdata
    · rw [hst]
      exact hdata
  | timeout => exact h.sendStandbyStatus.goto_loopEnd hdata hconf

theorem ConnOk.maybeFlush (h : ConnOk ns tl w sim c) (hpc : c.pc = .loopEnd) (generation : ℕ) :
    ConnOk ns tl w sim (c.maybeFlush generation) := by
  obtain ⟨hdata, hconf⟩ := h.idle (.inr hpc)
  have hgoto : ConnOk ns tl w sim { c with pc := (c.maybeFlush generation).pc } := by
    refine h.goto (fun hseg => ?_) fun st hst => ?_
    · rw [Conn.maybeFlush, hseg]
      dsimp only
      rw [if_neg (by simp)]
      exact ⟨hconf hseg, hdata⟩
    · rw [Conn.maybeFlush]
      dsimp only
      split_ifs
      · exact hdata
      · exact hdata
  exact { hgoto with }

/-! ### Taking WAL into the segment -/

/-- The segment that a position is in. -/
theorem toNat_segOf (h : e < 2 ^ 64) : (UInt64.ofNat (e / xlogSegSize)).toNat = e / xlogSegSize :=
  UInt64.toNat_ofNat_of_lt' (lt_of_le_of_lt (Nat.div_le_self _ _) h)

/-- If the current segment is not that of the next byte, it is complete. -/
theorem SegState.Holds.complete (h : st.Holds w a e) (he : e < 2 ^ 64)
    (hne : st.segNo ≠ UInt64.ofNat (e / xlogSegSize)) : e = st.base + xlogSegSize := by
  have hbase := h.base_le
  have hend := h.le_end
  by_contra hlt
  refine hne (UInt64.toNat_inj.mp ?_)
  rw [toNat_segOf he]
  exact (Nat.div_eq_of_lt_le hbase (by unfold base at *; rw [Nat.succ_mul]; omega)).symm

/-- The piece stays in the segment. -/
theorem SegState.piece_end (he : e < 2 ^ 64)
    (heq : st.segNo = UInt64.ofNat (e / xlogSegSize)) :
    e + (xlogSegSize - e % xlogSegSize) = st.base + xlogSegSize := by
  have hdm := Nat.div_add_mod e xlogSegSize
  have hmod := Nat.mod_lt e xlogSegSize_pos
  have hbase : st.base = xlogSegSize * (e / xlogSegSize) := by
    rw [SegState.base, heq, toNat_segOf he, mul_comm]
  omega

/-- The windows of a longer buffer are the old ones and those that the piece completes. -/
theorem SegState.Uploads.extend {k : ℕ} (h : st.Uploads ns tl w sim a) (hh : st.Holds w a e)
    (hk : e + k ≤ st.base + xlogSegSize) : (st.extend (slice w e k)).Uploads ns tl w sim a := by
  refine ⟨fun o d ht => ?_, fun o ho => ?_⟩
  · rcases (mem_chunkTasks_extend_iff hh hk o d).mp ht with ht | ⟨-, -, hd⟩
    · rw [h.task o d ht, windowAt, windowAt, base_extend]
    · rw [hd, windowAt, windowAt, base_extend]
  · rw [taskFailed_extend, segNo_extend]
    by_cases hold : st.chunksUploaded ≤ o
    · have hnew := (mem_chunkTasks_extend_iff hh hk o _).mpr (.inr ⟨hold, ho, rfl⟩)
      exact .inr (.inl ⟨_, hnew⟩)
    · obtain ⟨-, j, hj⟩ := ho
      rw [origin_extend] at hj
      rcases h.window o ⟨not_le.mp hold, j, hj⟩ with hf | ⟨d, hd⟩ | hc | hs
      · exact .inl hf
      · exact .inr (.inl ⟨d, (mem_chunkTasks_extend_iff hh hk o d).mpr (.inl hd)⟩)
      · rw [windowAt] at hc ⊢
        rw [base_extend]
        exact .inr (.inr (.inl hc))
      · exact .inr (.inr (.inr hs))

theorem SegState.uploads_startAt {segNo : UInt64} (hn : segNo.toNat = e / xlogSegSize) (hae : a ≤ e)
    (hstart : a = e ∨ xlogSegSize ∣ e) :
    (startAt segNo (e % xlogSegSize)).Uploads ns tl w sim a := by
  refine ⟨fun o d ht => ?_, fun o ho => absurd ho (not_window_startAt hn hae hstart o)⟩
  rw [chunkTasks_startAt] at ht
  exact absurd ht List.not_mem_nil

/-- The segment state that a piece is added to. -/
theorem ConnOk.before_piece (h : ConnOk ns tl w sim c) (hpc : c.pc = .ingest)
    (hlt : c.cursor < 2 ^ 64)
    (hseg : ¬ (c.curSeg.any fun st => st.segNo != UInt64.ofNat (c.cursor / xlogSegSize)) = true) :
    ∃ st, c.curSeg.getD
        (.startAt (UInt64.ofNat (c.cursor / xlogSegSize)) (c.cursor % xlogSegSize)) = st ∧
      st.segNo = UInt64.ofNat (c.cursor / xlogSegSize) ∧ st.Holds w c.startLsn c.cursor ∧
      st.Uploads ns tl w sim c.startLsn ∧ c.confirmedLsn = max c.startLsn st.base := by
  cases hcur : c.curSeg with
  | none =>
    have hfree := h.free hcur
    rw [hpc] at hfree
    have hcur' : c.confirmedLsn = c.cursor := hfree
    have hal : c.startLsn = c.cursor ∨ xlogSegSize ∣ c.cursor :=
      hcur' ▸ h.aligned.imp Eq.symm id
    have hle : c.startLsn ≤ c.cursor := hcur' ▸ h.start_le
    have hto := toNat_segOf hlt
    refine ⟨_, rfl, SegState.segNo_startAt _ _, SegState.holds_startAt w hto hle hal,
      SegState.uploads_startAt hto hle hal, ?_⟩
    have hbase := SegState.base_startAt hto (c.cursor % xlogSegSize)
    rw [hcur', Option.getD_none]
    rcases hal with heq | hd
    · omega
    · have := Nat.mod_eq_zero_of_dvd hd
      omega
  | some st =>
    rw [hcur, Option.any_some, Bool.not_eq_true, bne_eq_false_iff_eq] at hseg
    exact ⟨st, rfl, hseg, h.holds st hcur, h.uploads st hcur, h.confirmed st hcur⟩

/-- **One turn of the loop of `handle_xlogdata`.** -/
theorem ConnOk.ingest (h : ConnOk ns tl w sim c) (hpc : c.pc = .ingest) :
    ConnOk ns tl w sim c.ingest := by
  rw [Conn.ingest]
  dsimp only
  split_ifs with hdata hseg
  · refine h.goto_loopEnd hdata fun hnone => ?_
    have hfree := h.free hnone
    rwa [hpc] at hfree
  · -- the next byte is in another segment
    refine h.goto (fun hnone => ?_) fun st hst => ?_
    · rw [hnone] at hseg
      exact absurd hseg (by simp)
    · rw [hst, Option.any_some, bne_iff_ne] at hseg
      have hlt : c.cursor < 2 ^ 64 := by
        have := h.bound
        have := List.length_pos_of_ne_nil hdata
        omega
      exact (h.holds st hst).complete hlt hseg
  · have hlen := List.length_pos_of_ne_nil hdata
    have hbound := h.bound
    have hlt : c.cursor < 2 ^ 64 := by omega
    have hmod := Nat.mod_lt c.cursor xlogSegSize_pos
    obtain ⟨st, hst, hn, hholds, hup, hconf⟩ := h.before_piece hpc hlt hseg
    have hpiece := SegState.piece_end hlt hn
    rw [hst]
    set k := min (xlogSegSize - c.cursor % xlogSegSize) c.data.length with hk
    have hle : c.cursor + k ≤ st.base + xlogSegSize := by omega
    have htake : c.data.take k = slice w c.cursor k := by
      rw [h.data_eq, take_slice, Nat.min_eq_left (by omega)]
    rw [htake]
    refine { h with
      data_eq := ?_
      bound := ?_
      free := fun hnone => absurd hnone (by simp)
      confirmed := fun st' hst' => ?_
      holds := fun st' hst' => ?_
      uploads := fun st' hst' => ?_
      pcOk := fun st' hst' => ?_ }
    · dsimp only
      rw [List.length_drop, ← drop_slice, ← h.data_eq]
    · dsimp only
      rw [List.length_drop]
      omega
    · rw [← Option.some.inj hst', SegState.base_extend]
      exact hconf
    · rw [← Option.some.inj hst']
      exact hholds.extend hle
    · rw [← Option.some.inj hst']
      exact hup.extend hholds hle
    · dsimp only
      rw [hpc]
      trivial

/-! ### Storing the tail -/

/-- The positions of a segment. -/
theorem segOf_eq {n : UInt64} {p : ℕ} (hlo : segBase n ≤ p) (hhi : p < segBase n + xlogSegSize) :
    segOf p = n := by
  unfold segBase at hlo hhi
  have hdiv : p / xlogSegSize = n.toNat :=
    Nat.div_eq_of_lt_le hlo (by rw [Nat.succ_mul]; exact hhi)
  rw [segOf, hdiv, UInt64.ofNat_toNat]

theorem segOf_ne {n : UInt64} {p : ℕ} (hp : p < segBase n) : segOf p ≠ n := by
  rintro rfl
  have hle : (segOf p).toNat ≤ p / xlogSegSize := by
    rw [segOf, UInt64.toNat_ofNat']
    exact Nat.mod_le _ _
  have hmul := Nat.mul_le_mul_right xlogSegSize hle
  have hdiv := Nat.div_mul_le_self p xlogSegSize
  unfold segBase at hp
  omega

/-- The PUT of the tail touches nothing that the connection relies on. -/
theorem ConnOk.putTail (h : ConnOk ns tl w sim c) (hst : c.curSeg = some st) (hpc : c.pc ≠ .confirm) :
    ConnOk ns tl w (sim.putChunk ns tl st.segNo st.chunksUploaded st.tail) c := by
  have htail := (h.holds st hst).tail_eq
  refine { h with
    covered := fun p hs hp => ?_
    uploads := fun st' hst' => ?_
    pcOk := fun st' hst' => ?_ }
  · have hp' : p < segBase st.segNo := by
      have hconf := h.confirmed st hst
      change p < st.base
      omega
    refine (h.covered p hs hp).putChunk ?_ fun hn => absurd hn (segOf_ne hp')
    rw [htail, length_slice]
    rfl
  · obtain rfl : st = st' := Option.some.inj (hst.symm.trans hst')
    have hup := h.uploads st hst
    refine ⟨hup.task, fun o ho => ?_⟩
    rcases hup.window o ho with hf | ht | hc | hs
    · exact .inl hf
    · exact .inr (.inl ht)
    · have hne : o ≠ st.chunksUploaded := ho.1.ne
      exact .inr (.inr (.inl (by rw [S3Sim.chunk_putChunk, if_neg fun hk => hne hk.2, hc])))
    · exact .inr (.inr (.inr (by rwa [S3Sim.sealed_putChunk])))
  · have hok := h.pcOk st' hst'
    revert hok hpc
    cases c.pc with
    | confirm => exact fun hne => absurd rfl hne
    | _ => exact fun _ hok => hok

/-- A window of a complete segment, or its tail. -/
theorem SegState.Holds.window_or_tail (hh : st.Holds w a e) {p : ℕ} (hlo : st.base + st.origin a ≤ p) :
    (∃ o, st.Window a o ∧ st.base + o ≤ p ∧ p < st.base + o + chunkBytes) ∨
      st.base + st.chunksUploaded ≤ p := by
  by_cases hp : st.base + st.chunksUploaded ≤ p
  · exact .inr hp
  · left
    obtain ⟨k, hk⟩ := hh.grid
    have hdm := Nat.div_add_mod (p - (st.base + st.origin a)) chunkBytes
    have hmod := Nat.mod_lt (p - (st.base + st.origin a)) chunkBytes_pos
    rw [mul_comm] at hdm
    set j := (p - (st.base + st.origin a)) / chunkBytes with hj
    refine ⟨st.origin a + j * chunkBytes, ⟨?_, j, rfl⟩, by omega, by omega⟩
    omega

/-- **When all windows and the tail are stored, what the connection has seen of the segment is
covered.** -/
theorem SegState.Uploads.covered (hup : st.Uploads ns tl w sim a) (hh : st.Holds w a e)
    (htasks : st.chunkTasks = []) (hfailed : st.taskFailed = false)
    (htail : st.chunksUploaded < st.buf.length →
      sim.chunk ns tl st.segNo st.chunksUploaded = some st.tail) {p : ℕ}
    (hlo : st.base ≤ p) (hs : a ≤ p) (hhi : p < e) : Covered ns tl w sim p := by
  have hend := hh.le_end
  have hseg : segOf p = st.segNo := segOf_eq hlo (by change p < st.base + xlogSegSize; omega)
  have horg : st.base + st.origin a ≤ p := by unfold origin; omega
  rcases hh.window_or_tail horg with ⟨o, ho, hol, hoh⟩ | hcu
  · rcases hup.window o ho with hf | ⟨d, hd⟩ | hc | hsealed
    · rw [hfailed] at hf
      exact absurd hf (by simp)
    · rw [htasks] at hd
      exact absurd hd List.not_mem_nil
    · have hlen : (st.windowAt w o).length = chunkBytes := length_slice _ _ _
      refine covered_of_chunk hc ?_ hlen.le hseg hol (by rw [hlen]; exact hoh)
      rw [hlen]
      rfl
    · exact covered_of_sealed hsealed hseg
  · have hbuf := hh.length_buf
    have htl := hh.tail_lt
    have hlen : st.tail.length = e - (st.base + st.chunksUploaded) := by
      rw [hh.tail_eq, length_slice]
    refine covered_of_chunk (htail (by omega)) ?_ (by omega) hseg hcu ?_
    · rw [hlen, hh.tail_eq]
      rfl
    · change p < st.base + st.chunksUploaded + _
      omega

/-- What follows the join and the PUT of the tail. -/
theorem ConnOk.afterJoin (h : ConnOk ns tl w sim c) (hst : c.curSeg = some st) {closing : Bool}
    (hok : if closing then c.data = [] else c.cursor = st.base + xlogSegSize)
    (htasks : st.chunkTasks = []) (hfailed : st.taskFailed = false)
    (htail : st.chunksUploaded < st.buf.length →
      sim.chunk ns tl st.segNo st.chunksUploaded = some st.tail) :
    ConnOk ns tl w sim (c.afterJoin st closing) := by
  rw [Conn.afterJoin]
  cases closing with
  | true =>
    exact { h with
      free := fun _ => hok
      confirmed := fun _ hnone => absurd hnone (by simp)
      holds := fun _ hnone => absurd hnone (by simp)
      uploads := fun _ hnone => absurd hnone (by simp)
      pcOk := fun _ hnone => absurd hnone (by simp) }
  | false =>
    have hcur : c.cursor = st.base + xlogSegSize := hok
    have hholds := h.holds st hst
    refine h.goto (fun hnone => ?_) fun st' hst' => ?_
    · rw [hst] at hnone
      exact absurd hnone (by simp)
    obtain rfl : st = st' := Option.some.inj (hst.symm.trans hst')
    rw [hholds.isPartial_eq]
    by_cases hpart : st.base < c.startLsn
    · rw [if_pos (decide_eq_true hpart)]
      refine ⟨hcur, fun p hs hp => ?_⟩
      exact (h.uploads st hst).covered hholds htasks hfailed htail (by omega) hs (by omega)
    · rw [if_neg (by simpa using hpart)]
      exact ⟨not_lt.mp hpart, hcur⟩

/-! ### Sealing -/

/-- The PUT of the sealed segment. -/
theorem ConnOk.putSealed (h : ConnOk ns tl w sim c) (hst : c.curSeg = some st) (hpc : c.pc = .seal) :
    st.padded = segSlice w st.segNo ∧
      ConnOk ns tl w (sim.putSealed ns tl st.segNo (segSlice w st.segNo)) { c with pc := .confirm } := by
  have hok := h.pcOk st hst
  rw [hpc] at hok
  obtain ⟨hstart, hcur⟩ := hok
  refine ⟨(h.holds st hst).padded_eq hcur hstart, ?_⟩
  have hkept := h.kept (kept_putSealed (n := st.segNo))
  refine hkept.goto (fun hnone => ?_) fun st' hst' => ⟨?_, fun p hs hp => ?_⟩
  · rw [hst] at hnone
    exact absurd hnone (by simp)
  · obtain rfl : st = st' := Option.some.inj (hst.symm.trans hst')
    exact hcur
  · obtain rfl : st = st' := Option.some.inj (hst.symm.trans hst')
    by_cases hlo : st.base ≤ p
    · exact covered_of_sealed (by rw [S3Sim.sealed_putSealed, if_pos rfl]) (segOf_eq hlo hp)
    · have hconf := h.confirmed st hst
      exact hkept.covered p hs (by omega)

/-- `confirmed_lsn` moves to the end of the segment. -/
theorem ConnOk.confirm (h : ConnOk ns tl w sim c) (hst : c.curSeg = some st)
    (hpc : c.pc = .confirm) : ConnOk ns tl w sim (c.confirm st) := by
  have hok := h.pcOk st hst
  rw [hpc] at hok
  obtain ⟨hcur, hcov⟩ := hok
  have hlt := (h.holds st hst).start_lt
  have hnew : (st.segNo.toNat + 1) * xlogSegSize = st.base + xlogSegSize := by
    rw [Nat.succ_mul]
    rfl
  have hconf := h.confirmed st hst
  refine ConnOk.sendStandbyStatus { h with
    start_le := ?_
    aligned := .inr (Dvd.intro_left _ rfl)
    sent := fun f hf => ?_
    covered := fun p hs hp => ?_
    free := fun _ => ?_
    confirmed := fun _ hnone => absurd hnone (by simp)
    holds := fun _ hnone => absurd hnone (by simp)
    uploads := fun _ hnone => absurd hnone (by simp)
    pcOk := fun _ hnone => absurd hnone (by simp) }
  · change c.startLsn ≤ (st.segNo.toNat + 1) * xlogSegSize
    omega
  · refine ⟨?_, (h.sent f hf).2⟩
    have := (h.sent f hf).1
    change f ≤ (st.segNo.toNat + 1) * xlogSegSize
    omega
  · exact hcov p hs (hnew ▸ hp)
  · exact hnew.trans hcur.symm

/-! ### Chunk tasks -/

theorem mem_of_mem_eraseIdx_or {α : Type} {l : List α} {i : ℕ} {x y : α} (hx : l[i]? = some x)
    (hy : y ∈ l) : y = x ∨ y ∈ l.eraseIdx i := by
  obtain ⟨j, hj, rfl⟩ := List.mem_iff_getElem.mp hy
  by_cases hij : j = i
  · subst hij
    rw [List.getElem?_eq_getElem hj] at hx
    exact .inl (Option.some.inj hx)
  · exact .inr (List.mem_eraseIdx_iff_getElem.mpr ⟨j, hj, hij, rfl⟩)

/-- The segment state when a task has ended. -/
theorem SegState.Uploads.taskEnds (h : st.Uploads ns tl w sim a) {i o : ℕ} {d : Bytes}
    (ht : st.chunkTasks[i]? = some (o, d)) (ok : Bool) :
    SegState.Uploads ns tl w (if ok then sim.putChunk ns tl st.segNo o d else sim) a
      { st with
        chunkTasks := st.chunkTasks.eraseIdx i
        taskFailed := st.taskFailed || !ok } := by
  have hd := h.task o d (List.mem_of_getElem? ht)
  have hkept : Kept ns tl w sim (if ok then sim.putChunk ns tl st.segNo o d else sim) := by
    cases ok with
    | true => exact kept_putWindow hd
    | false => exact ⟨fun _ hp => hp, fun _ hn => hn, fun _ _ hn => .inl hn⟩
  refine ⟨fun o' d' ht' => h.task o' d' (List.mem_of_mem_eraseIdx ht'), fun o' ho' => ?_⟩
  rcases (h.kept hkept).window o' ho' with hf | ⟨d', hd'⟩ | hc | hs
  · exact .inl (by rw [hf, Bool.true_or])
  · rcases mem_of_mem_eraseIdx_or ht hd' with heq | hrest
    · obtain ⟨rfl, rfl⟩ := Prod.mk.inj heq
      cases ok with
      | true =>
        refine .inr (.inr (.inl ?_))
        rw [if_pos rfl, S3Sim.chunk_putChunk, if_pos ⟨rfl, rfl⟩, hd]
        rfl
      | false => exact .inl (by simp)
    · exact .inr (.inl ⟨d', hrest⟩)
  · exact .inr (.inr (.inl hc))
  · exact .inr (.inr (.inr hs))

/-- **A chunk task ends.** -/
theorem ConnOk.taskEnds (h : ConnOk ns tl w sim c) (hst : c.curSeg = some st) {i o : ℕ} {d : Bytes}
    (ht : st.chunkTasks[i]? = some (o, d)) (ok : Bool) :
    Kept ns tl w sim (if ok then sim.putChunk ns tl st.segNo o d else sim) ∧
    ConnOk ns tl w (if ok then sim.putChunk ns tl st.segNo o d else sim)
      { c with
        curSeg := some
          { st with
            chunkTasks := st.chunkTasks.eraseIdx i
            taskFailed := st.taskFailed || !ok } } := by
  have hd := (h.uploads st hst).task o d (List.mem_of_getElem? ht)
  have hkept : Kept ns tl w sim (if ok then sim.putChunk ns tl st.segNo o d else sim) := by
    cases ok with
    | true => exact kept_putWindow hd
    | false => exact ⟨fun _ hp => hp, fun _ hn => hn, fun _ _ hn => .inl hn⟩
  have hc := h.kept hkept
  refine ⟨hkept, { hc with
    free := fun hnone => absurd hnone (by simp)
    confirmed := fun st' hst' => ?_
    holds := fun st' hst' => ?_
    uploads := fun st' hst' => ?_
    pcOk := fun st' hst' => ?_ }⟩
  · rw [← Option.some.inj hst']
    exact h.confirmed st hst
  · rw [← Option.some.inj hst']
    exact { h.holds st hst with }
  · rw [← Option.some.inj hst']
    exact (h.uploads st hst).taskEnds ht ok
  · rw [← Option.some.inj hst']
    have hok := hc.pcOk st hst
    revert hok
    cases c.pc with
    | tail closing =>
      intro hok
      rw [hok.1] at ht
      exact absurd ht (by simp)
    | _ => exact fun hok => hok

end Invariant

/-! ## Runs -/

section Runs

variable {ns : DbNamespace} {tl : TimelineId} {w : ℕ → UInt8} {r r' : Receiver} {c : Conn}

theorem Sound.dropped (h : Sound ns tl w r) (hc : r.conn = some c) : Sound ns tl w (r.dropped c) := by
  refine ⟨fun c' hc' => absurd hc' (by simp [Receiver.dropped]), fun t ht => ?_⟩
  rcases List.mem_append.mp ht with ht | ht
  · exact h.late t ht
  · rw [Conn.abandoned] at ht
    cases hseg : c.curSeg with
    | none =>
      rw [hseg] at ht
      exact absurd ht List.not_mem_nil
    | some st =>
      rw [hseg] at ht
      obtain ⟨⟨o, d⟩, hmem, rfl⟩ := List.mem_map.mp ht
      exact ((h.conn c hc).uploads st hseg).task o d hmem

/-- The invariant when only the connection moves. -/
theorem Sound.goto (h : Sound ns tl w r) (hc : ConnOk ns tl w r.sim c) :
    Sound ns tl w { r with conn := some c } :=
  ⟨fun _ hc' => Option.some.inj hc' ▸ hc, h.late⟩

theorem Sound.advance (h : Sound ns tl w r) (hc : r.conn = some c) (hs : r.advance c = some r') :
    Sound ns tl w r' := by
  have hconn := h.conn c hc
  rw [Receiver.advance] at hs
  split at hs
  · next hpc =>
    rw [← Option.some.inj hs]
    exact h.goto (hconn.ingest hpc)
  · next hpc =>
    rw [← Option.some.inj hs]
    exact h.goto (hconn.maybeFlush hpc r.generation)
  · next closing st hpc hst =>
    have hok := hconn.pcOk st hst
    rw [hpc] at hok
    split_ifs at hs with hfailed htasks htail
    · rw [← Option.some.inj hs]
      exact h.dropped hc
    · rw [← Option.some.inj hs]
      refine h.goto (hconn.goto (fun hnone => ?_) fun st' hst' => ?_)
      · rw [hst] at hnone
        exact absurd hnone (by simp)
      · obtain rfl : st = st' := Option.some.inj (hst.symm.trans hst')
        exact ⟨not_not.mp htasks, Bool.eq_false_iff.mpr hfailed, hok⟩
    · rw [← Option.some.inj hs]
      exact h.goto (hconn.afterJoin hst hok (not_not.mp htasks) (Bool.eq_false_iff.mpr hfailed)
        fun hlt => absurd hlt htail)
  · next st hpc hst =>
    rw [← Option.some.inj hs]
    exact h.goto (hconn.confirm hst hpc)
  · exact absurd hs (by simp)

theorem Sound.putLands (h : Sound ns tl w r) (hc : r.conn = some c)
    (hs : r.putLands ns tl c = some r') : Sound ns tl w r' := by
  have hconn := h.conn c hc
  have hlate : ∀ n o d, ∀ t ∈ r.late, LateOk ns tl w (r.sim.putChunk ns tl n o d) t :=
    fun n o d t ht => (h.late t ht).kept fun m hm => by rwa [S3Sim.sealed_putChunk]
  rw [Receiver.putLands] at hs
  split at hs
  · next closing st hpc hst =>
    have hok := hconn.pcOk st hst
    rw [hpc] at hok
    obtain ⟨htasks, hfailed, hok⟩ := hok
    rw [← Option.some.inj hs]
    refine ⟨fun c' hc' => Option.some.inj hc' ▸ ?_, hlate _ _ _⟩
    refine (hconn.putTail hst (by rw [hpc]; simp)).afterJoin hst hok htasks hfailed fun _ => ?_
    rw [S3Sim.chunk_putChunk, if_pos ⟨rfl, rfl⟩]
  · next st hpc hst =>
    have hok := hconn.pcOk st hst
    rw [hpc] at hok
    rw [← Option.some.inj hs]
    refine ⟨fun c' hc' => Option.some.inj hc' ▸ ?_, hlate _ _ _⟩
    refine (hconn.putTail hst (by rw [hpc]; simp)).goto (fun hnone => ?_) fun _ _ => hok
    rw [hst] at hnone
    exact absurd hnone (by simp)
  · next st hpc hst =>
    rw [← Option.some.inj hs]
    obtain ⟨hpad, hconn'⟩ := hconn.putSealed hst hpc
    rw [hpad]
    refine ⟨fun c' hc' => Option.some.inj hc' ▸ hconn', fun t ht => ?_⟩
    rcases List.mem_append.mp ht with ht | ht
    · exact (h.late t ht).kept kept_putSealed.sealed
    · rw [List.mem_singleton.mp ht]
      change (r.sim.putSealed ns tl st.segNo _).sealed ns tl st.segNo = _
      rw [S3Sim.sealed_putSealed, if_pos rfl]
  · exact absurd hs (by simp)

theorem Sound.taskEnds (h : Sound ns tl w r) (hc : r.conn = some c) {i : ℕ} {ok : Bool}
    (hs : r.taskEnds ns tl c i ok = some r') : Sound ns tl w r' := by
  obtain ⟨st, hst, hs⟩ := Option.bind_eq_some_iff.mp hs
  obtain ⟨⟨o, d⟩, ht, rfl⟩ := Option.map_eq_some_iff.mp hs
  obtain ⟨hkept, hconn⟩ := (h.conn c hc).taskEnds hst ht ok
  exact ⟨fun c' hc' => Option.some.inj hc' ▸ hconn, fun t ht => (h.late t ht).kept hkept.sealed⟩

/-- **One step keeps the invariant.** -/
theorem Sound.step (h : Sound ns tl w r) {l : Label} (hok : Contiguous w r l)
    (hs : r.step ns tl l = some r') : Sound ns tl w r' := by
  cases l with
  | connect lsn =>
    rw [Receiver.step] at hs
    split_ifs at hs with hc
    rw [← Option.some.inj hs]
    exact h.goto
      { data_eq := rfl
        bound := hok
        start_le := le_rfl
        aligned := .inl rfl
        sent := fun _ hf => absurd hf List.not_mem_nil
        covered := fun p hlo hhi => absurd hhi (not_lt.mpr hlo)
        free := fun _ => ⟨rfl, rfl⟩
        confirmed := fun _ hst => absurd hst (by simp [Conn.new])
        holds := fun _ hst => absurd hst (by simp [Conn.new])
        uploads := fun _ hst => absurd hst (by simp [Conn.new])
        pcOk := fun _ hst => absurd hst (by simp [Conn.new]) }
  | checkpoint =>
    rw [← Option.some.inj hs]
    exact ⟨h.conn, h.late⟩
  | input i =>
    obtain ⟨c, hc, hs⟩ := Option.bind_eq_some_iff.mp hs
    split_ifs at hs with hpc
    rw [← Option.some.inj hs]
    refine h.goto ((h.conn c hc).receive hpc fun msg start data hi hparse => ?_)
    subst hi
    exact hok c start data hc hparse
  | run =>
    obtain ⟨c, hc, hs⟩ := Option.bind_eq_some_iff.mp hs
    exact h.advance hc hs
  | putLands =>
    obtain ⟨c, hc, hs⟩ := Option.bind_eq_some_iff.mp hs
    exact h.putLands hc hs
  | taskLands i =>
    obtain ⟨c, hc, hs⟩ := Option.bind_eq_some_iff.mp hs
    exact h.taskEnds hc hs
  | taskFails i =>
    obtain ⟨c, hc, hs⟩ := Option.bind_eq_some_iff.mp hs
    exact h.taskEnds hc hs
  | lateLands i =>
    obtain ⟨t, ht, rfl⟩ := Option.map_eq_some_iff.mp hs
    have hkept := kept_land (h.late t (List.mem_of_getElem? ht))
    exact ⟨fun c hc => (h.conn c hc).kept hkept,
      fun t' ht' => (h.late t' (List.mem_of_mem_eraseIdx ht')).kept hkept.sealed⟩
  | drop =>
    obtain ⟨c, hc, rfl⟩ := Option.map_eq_some_iff.mp hs
    exact h.dropped hc

/-- The receiver before its first connection, on any archive. -/
def Receiver.initial (sim : S3Sim) : Receiver := ⟨sim, 0, none, []⟩

/-- **A confirmed LSN is durable.** In every run over a contiguous stream, with PUTs that land in any
order, fail or are lost, connections that end at any point and start anywhere, whatever the current
connection has sent is its start or a multiple of the segment size, and every position from its start
up to there is covered. -/
theorem confirmed_is_durable (ns : DbNamespace) (tl : TimelineId) (w : ℕ → UInt8) (sim : S3Sim)
    {r : Receiver} {c : Conn} {f : ℕ}
    (hr : Reaches (Receiver.step ns tl) (Contiguous w) (.initial sim) r) (hc : r.conn = some c)
    (hf : f ∈ c.sent) : (f = c.startLsn ∨ xlogSegSize ∣ f) ∧
      ∀ p, c.startLsn ≤ p → p < f → Covered ns tl w r.sim p := by
  have hsound : Sound ns tl w r :=
    hr.invariant ⟨fun _ h => absurd h (by simp [Receiver.initial]),
      fun _ h => absurd h (by simp [Receiver.initial])⟩ fun _ _ _ h hok hs => h.step hok hs
  have hconn := hsound.conn c hc
  obtain ⟨hle, hal⟩ := hconn.sent f hf
  exact ⟨hal, fun p hlo hhi => hconn.covered p hlo (hhi.trans_le hle)⟩

/-! ## A stream that crosses a boundary -/

/-- The bytes of segment 0 are 1, those after it 2. -/
def crossingWal (p : ℕ) : UInt8 := if p < xlogSegSize then 1 else 2

/-- A message with the last byte of segment 0 and the first of segment 1. -/
def crossingMsg : Bytes := 119 :: Msgpack.be 8 (xlogSegSize - 1) ++ List.replicate 16 0 ++ [1, 2]

/-- A connection from the last byte of segment 0 receives the message, stores the byte as a chunk and
confirms the segment. -/
def crossing : List Label :=
  [.connect (xlogSegSize - 1), .input (.copyData crossingMsg), .run, .run, .run, .putLands, .run]

/-- The state of a segment of which one byte has been received. -/
def oneByteSeg (segNo : UInt64) (o : ℕ) (b : UInt8) : SegState where
  segNo := segNo
  buf := List.replicate o 0 ++ [b]
  chunksUploaded := o
  chunkTasks := []
  taskFailed := false
  isPartial := true

/-- The state of segment 0 then. -/
def crossingSeg : SegState := oneByteSeg 0 (xlogSegSize - 1) 1

/-- The connection, with its segment, its point and what is left of the message. -/
def crossingConn (seg : Option SegState) (pc : Pc) (cursor : ℕ) (data : Bytes) : Conn :=
  ⟨xlogSegSize - 1, xlogSegSize - 1, seg, 0, pc, cursor, data, []⟩

theorem parse_crossingMsg : parseXlogData crossingMsg = some (xlogSegSize - 1, [1, 2]) := by
  decide +kernel

theorem extend_startAt {segNo : UInt64} {o : ℕ} (ho : 0 < o) (b : UInt8) :
    (SegState.startAt segNo o).extend [b] = oneByteSeg segNo o b := by
  have hlen : (List.replicate o (0 : UInt8) ++ [b]).length = o + 1 := by
    rw [List.length_append, List.length_replicate, List.length_singleton]
  have hq : (o + 1 - o) / chunkBytes = 0 := by
    rw [Nat.add_sub_cancel_left]
    decide
  rw [SegState.extend, SegState.spawnWindows_eq, SegState.startAt, if_pos ho]
  dsimp only [SegState.new]
  rw [hlen, hq, Nat.zero_mul, Nat.add_zero, List.range_zero, List.map_nil, List.append_nil,
    oneByteSeg]

theorem tail_lt_oneByteSeg (segNo : UInt64) (o : ℕ) (b : UInt8) :
    (oneByteSeg segNo o b).chunksUploaded < (oneByteSeg segNo o b).buf.length := by
  change o < (List.replicate o (0 : UInt8) ++ [b]).length
  rw [List.length_append, List.length_replicate, List.length_singleton]
  omega

theorem ingest_crossing :
    (crossingConn none .ingest (xlogSegSize - 1) [1, 2]).ingest =
      crossingConn (some crossingSeg) .ingest xlogSegSize [2] ∧
    (crossingConn (some crossingSeg) .ingest xlogSegSize [2]).ingest =
      crossingConn (some crossingSeg) (.join false) xlogSegSize [2] := by
  have hpos : 1 < xlogSegSize := by decide
  have hdiv : (xlogSegSize - 1) / xlogSegSize = 0 := Nat.div_eq_of_lt (by omega)
  have hmod : (xlogSegSize - 1) % xlogSegSize = xlogSegSize - 1 := Nat.mod_eq_of_lt (by omega)
  have hmin : min (xlogSegSize - (xlogSegSize - 1)) 2 = 1 := by omega
  have hsucc : xlogSegSize - 1 + 1 = xlogSegSize := by omega
  have hself : xlogSegSize / xlogSegSize = 1 := Nat.div_self (by omega)
  constructor
  · simp only [crossingConn, Conn.ingest, hdiv, hmod, List.length_cons, List.length_nil, hmin, hsucc,
      Option.any_none, Option.getD_none, List.take_succ_cons, List.take_zero, List.drop_succ_cons,
      List.drop_zero]
    rw [if_neg (by simp), if_neg (by simp), show UInt64.ofNat 0 = 0 from rfl,
      extend_startAt (by omega), crossingSeg]
  · simp only [crossingConn, Conn.ingest, hself, Option.any_some]
    rw [if_neg (by simp), if_pos (by decide)]

/-- The first steps, up to the PUT of the tail. -/
def arriving : List Label :=
  [.connect (xlogSegSize - 1), .input (.copyData crossingMsg), .run, .run, .run]

theorem run_arriving (ns : DbNamespace) (tl : TimelineId) (sim : S3Sim) :
    run (Receiver.step ns tl) (.initial sim) arriving =
      some ⟨sim, 0, some (crossingConn (some crossingSeg) (.tail false) xlogSegSize [2]), []⟩ := by
  obtain ⟨hfirst, hsecond⟩ := ingest_crossing
  have hlt : crossingSeg.chunksUploaded < crossingSeg.buf.length := tail_lt_oneByteSeg _ _ _
  have hmsg : (crossingConn none .recv (xlogSegSize - 1) []).receive (.copyData crossingMsg) =
      crossingConn none .ingest (xlogSegSize - 1) [1, 2] := by
    rw [Conn.receive, parse_crossingMsg]
    rfl
  have hconn : Conn.new (xlogSegSize - 1) 0 = crossingConn none .recv (xlogSegSize - 1) [] := rfl
  have hjoin : (if crossingSeg.chunksUploaded < crossingSeg.buf.length then
      { crossingConn (some crossingSeg) (.join false) xlogSegSize [2] with pc := .tail false }
      else (crossingConn (some crossingSeg) (.join false) xlogSegSize [2]).afterJoin crossingSeg false) =
      crossingConn (some crossingSeg) (.tail false) xlogSegSize [2] := if_pos hlt
  rw [arriving, run, Receiver.step_connect rfl, Option.bind_some, run, Receiver.step_input rfl rfl,
    Option.bind_some]
  dsimp only [Receiver.initial]
  rw [hconn, hmsg, run, Receiver.step_ingest rfl rfl, Option.bind_some, hfirst, run,
    Receiver.step_ingest rfl rfl, Option.bind_some, hsecond, run,
    Receiver.step_join rfl rfl rfl rfl rfl, Option.bind_some, hjoin, run]

theorem run_crossing (ns : DbNamespace) (tl : TimelineId) (sim : S3Sim) :
    run (Receiver.step ns tl) (.initial sim) crossing =
      some ⟨sim.putChunk ns tl crossingSeg.segNo crossingSeg.chunksUploaded crossingSeg.tail, 0,
        some (((crossingConn (some crossingSeg) (.tail false) xlogSegSize [2]).afterJoin crossingSeg
          false).confirm crossingSeg), []⟩ := by
  have hsplit : crossing = arriving ++ [.putLands, .run] := rfl
  rw [hsplit, run_append, run_arriving, Option.bind_some, run, Receiver.step_tail rfl rfl rfl,
    Option.bind_some, run, Receiver.step_confirm rfl rfl rfl, Option.bind_some, run]

/-- The connection has confirmed segment 0 then, and its last byte is covered. -/
theorem confirmed_is_durable_crossing : ∃ (r : Receiver) (c : Conn), r.conn = some c ∧
    c.startLsn = xlogSegSize - 1 ∧ xlogSegSize ∈ c.sent ∧
    Covered ⟨1, 1⟩ 1 crossingWal r.sim (xlogSegSize - 1) := by
  have hpos := xlogSegSize_pos
  have hslice : ([1, 2] : Bytes) = slice crossingWal (xlogSegSize - 1) 2 := by decide +kernel
  have hok : Throughout (Receiver.step ⟨1, 1⟩ 1) (Contiguous crossingWal) (.initial ⟨.empty⟩)
      crossing := by
    refine ⟨show xlogSegSize - 1 ≤ 2 ^ 64 by decide, fun r₁ hr₁ => ⟨?_, fun _ _ =>
      ⟨trivial, fun _ _ => ⟨trivial, fun _ _ => ⟨trivial, fun _ _ => ⟨trivial, fun _ _ =>
        ⟨trivial, fun _ _ => trivial⟩⟩⟩⟩⟩⟩⟩
    intro c start data hc hparse
    rw [parse_crossingMsg] at hparse
    obtain ⟨rfl, rfl⟩ := Prod.mk.inj (Option.some.inj hparse)
    rw [Receiver.step_connect rfl] at hr₁
    rw [← Option.some.inj hr₁] at hc
    rw [← Option.some.inj hc]
    exact ⟨rfl, hslice, by decide⟩
  have hreach := reaches_of_run (run_crossing ⟨1, 1⟩ 1 ⟨.empty⟩) hok
  have hsent : xlogSegSize ∈ (((crossingConn (some crossingSeg) (.tail false) xlogSegSize
      [2]).afterJoin crossingSeg false).confirm crossingSeg).sent := by
    refine List.mem_append_right _ (List.mem_singleton.mpr ?_)
    change xlogSegSize = ((0 : UInt64).toNat + 1) * xlogSegSize
    rw [UInt64.toNat_zero, Nat.zero_add, Nat.one_mul]
  have hcov := (confirmed_is_durable ⟨1, 1⟩ 1 crossingWal ⟨.empty⟩ hreach rfl hsent).2
    (xlogSegSize - 1) le_rfl (by omega)
  exact ⟨_, _, rfl, rfl, hsent, hcov⟩

end Runs

end Tiko.Wal

import Tiko.Wal.Exact

/-!
# How the stream is cut does not matter

A session is one connection that receives a stream from some LSN on, in messages of any size, with
timeouts, keepalives and checkpoints in between, up to the end of the stream. Its own steps, the PUTs
and the deletes, come in any order.

* `Cuts a inputs bytes`: the messages among the inputs carry the bytes from LSN `a` on;
* `Session`: a run to the end, without failures;
* `exists_session`: there always is one;
* `Session.exact`: it leaves what `ChunksExact` and `confirmedAt` say.

**`archive_independent_of_cuts`** puts this together.
-/

namespace Tiko.Wal

open Lib

/-- A stream of WAL from an LSN on. -/
structure WalStream where
  start : ℕ
  bytes : Bytes
  fits : start + bytes.length ≤ 2 ^ 64

/-- The position after the last byte. -/
def WalStream.stop (s : WalStream) : ℕ := s.start + s.bytes.length

/-- The byte at a position. -/
def WalStream.wal (s : WalStream) (p : ℕ) : UInt8 := (s.bytes[p - s.start]?).getD 0

/-- The inputs carry a stream: the messages with WAL are contiguous and make it up; timeouts, other
messages and checkpoints may come in between. -/
def Cuts (a : ℕ) : List Label → Bytes → Prop
  | [], bytes => bytes = []
  | .input (.copyData msg) :: inputs, bytes =>
    match parseXlogData msg with
    | some (start, data) => start = a ∧ ∃ rest, bytes = data ++ rest ∧ Cuts (a + data.length) inputs rest
    | none => Cuts a inputs bytes
  | .input .timeout :: inputs, bytes => Cuts a inputs bytes
  | .checkpoint :: inputs, bytes => Cuts a inputs bytes
  | _ :: _, _ => False

/-- The message with a piece of WAL. -/
def xlogMsg (start : ℕ) (data : Bytes) : Bytes :=
  119 :: (Msgpack.be 8 start ++ (List.replicate 16 0 ++ data))

/-- A session on an archive: a run on the given inputs up to the end of the stream, in which nothing
fails. -/
structure Session (ns : DbNamespace) (tl : TimelineId) (sim : S3Sim) (a : ℕ) (inputs labels : List Label)
    (t : Receiver) (c : Conn) : Prop where
  external : labels.filter Label.external = .connect a :: (inputs ++ [.input .copyDone])
  smooth : ∀ l ∈ labels, l.fails = false
  run_eq : run (Receiver.step ns tl) (.initial sim) labels = some t
  conn_eq : t.conn = some c
  closed : c.pc = .closed

/-- An archive without objects of the timeline. -/
def Unused (ns : DbNamespace) (tl : TimelineId) (sim : S3Sim) : Prop :=
  ∀ n, sim.sealed ns tl n = none ∧ ∀ o, sim.chunk ns tl n o = none

/-! ## Messages -/

theorem parse_xlogMsg {start : ℕ} {data : Bytes} (hs : start < 2 ^ 64) (hd : data ≠ []) :
    parseXlogData (xlogMsg start data) = some (start, data) := by
  have hbe : (Msgpack.be 8 start).length = 8 := Msgpack.length_be 8 start
  have hdrop : (xlogMsg start data).drop 25 = data := by
    rw [xlogMsg, show (25 : ℕ) = 24 + 1 by rfl, List.drop_succ_cons, ← List.append_assoc,
      List.drop_left' (by rw [List.length_append, hbe, List.length_replicate])]
  have hread : Msgpack.readBe 8 ((xlogMsg start data).drop 1) =
      some (start, List.replicate 16 0 ++ data) :=
    Msgpack.readBe_be (lt_of_lt_of_eq hs (by decide)) _
  have hlen : 25 ≤ (xlogMsg start data).length := by
    rw [xlogMsg, List.length_cons, List.length_append, List.length_append, hbe,
      List.length_replicate]
    omega
  rw [parseXlogData, if_pos ⟨rfl, hlen, by rw [hdrop]; exact hd⟩, hread, hdrop]
  rfl

theorem parse_xlogMsg_nil (start : ℕ) : parseXlogData (xlogMsg start []) = none := by
  have hbe : (Msgpack.be 8 start).length = 8 := Msgpack.length_be 8 start
  have hdrop : (xlogMsg start []).drop 25 = [] := by
    refine List.drop_eq_nil_iff.mpr ?_
    rw [xlogMsg, List.length_cons, List.length_append, List.length_append, hbe, List.length_replicate,
      List.length_nil]
  rw [parseXlogData, if_neg fun h => h.2.2 hdrop]

/-- The stream in one message. -/
theorem cuts_one (s : WalStream) : Cuts s.start [.input (.copyData (xlogMsg s.start s.bytes))] s.bytes := by
  have hfits := s.fits
  by_cases hne : s.bytes = []
  · rw [hne, Cuts, parse_xlogMsg_nil]
    exact rfl
  · have hlen := List.length_pos_of_ne_nil hne
    rw [Cuts, parse_xlogMsg (by omega) hne]
    exact ⟨rfl, [], (List.append_nil _).symm, rfl⟩

/-! ## Sessions are smooth runs -/

section Runs

variable {ns : DbNamespace} {tl : TimelineId} {w : ℕ → UInt8} {a : ℕ} {r r' t : Receiver} {c : Conn}

/-- The position up to which the connection has received WAL. -/
def Conn.pos (c : Conn) : ℕ := c.cursor + c.data.length

theorem Conn.pos_ingest (c : Conn) : c.ingest.pos = c.pos := by
  rw [Conn.ingest]
  dsimp only
  split_ifs
  · rfl
  · rfl
  · dsimp only [Conn.pos]
    rw [List.length_drop]
    omega

theorem Conn.pos_afterJoin (c : Conn) (st : SegState) (closing : Bool) :
    (c.afterJoin st closing).pos = c.pos := by
  cases closing <;> rfl

/-- The connection's own steps do not change how much it has received. -/
theorem pos_step {l : Label} (hc : r.conn = some c)
    (hfailed : ∀ st, c.curSeg = some st → st.taskFailed = false) (hext : l.external = false)
    (hfails : l.fails = false) (hs : r.step ns tl l = some r') :
    ∃ c', r'.conn = some c' ∧ c'.pos = c.pos := by
  cases l with
  | connect lsn => exact absurd hext (by simp [Label.external])
  | checkpoint => exact absurd hext (by simp [Label.external])
  | input i => exact absurd hext (by simp [Label.external])
  | taskFails i => exact absurd hfails (by simp [Label.fails])
  | drop => exact absurd hfails (by simp [Label.fails])
  | run =>
    rw [Receiver.step, hc, Option.bind_some, Receiver.advance] at hs
    split at hs
    · rw [← Option.some.inj hs]
      exact ⟨_, rfl, c.pos_ingest⟩
    · rw [← Option.some.inj hs]
      exact ⟨_, rfl, rfl⟩
    · next closing st hpc hst =>
      rw [if_neg (by rw [hfailed st hst]; simp)] at hs
      split_ifs at hs
      · rw [← Option.some.inj hs]
        exact ⟨_, rfl, rfl⟩
      · rw [← Option.some.inj hs]
        exact ⟨_, rfl, c.pos_afterJoin st closing⟩
    · rw [← Option.some.inj hs]
      exact ⟨_, rfl, rfl⟩
    · exact absurd hs (by simp)
  | putLands =>
    rw [Receiver.step, hc, Option.bind_some, Receiver.putLands] at hs
    split at hs
    · next closing st hpc hst =>
      rw [← Option.some.inj hs]
      exact ⟨_, rfl, c.pos_afterJoin st closing⟩
    · rw [← Option.some.inj hs]
      exact ⟨_, rfl, rfl⟩
    · rw [← Option.some.inj hs]
      exact ⟨_, rfl, rfl⟩
    · exact absurd hs (by simp)
  | taskLands i =>
    rw [Receiver.step, hc, Option.bind_some] at hs
    obtain ⟨st, hst, hs⟩ := Option.bind_eq_some_iff.mp hs
    obtain ⟨t, ht, rfl⟩ := Option.map_eq_some_iff.mp hs
    exact ⟨_, rfl, rfl⟩
  | lateLands i =>
    obtain ⟨t, ht, rfl⟩ := Option.map_eq_some_iff.mp hs
    exact ⟨c, hc, rfl⟩

/-- The inputs that are still to come: a part of the stream and its end, or nothing. -/
def Pending (w : ℕ → UInt8) (stop pos : ℕ) (inputs : List Label) : Prop :=
  (∃ ins bytes, inputs = ins ++ [.input .copyDone] ∧ Cuts pos ins bytes ∧
    bytes = slice w pos bytes.length ∧ pos + bytes.length = stop) ∨ inputs = [] ∧ pos = stop

/-- All chunks, also those of sealed segments, hold WAL between two positions. -/
def ChunksWithin (ns : DbNamespace) (tl : TimelineId) (w : ℕ → UInt8) (sim : S3Sim) (a e : ℕ) : Prop :=
  ∀ n o data, sim.chunk ns tl n o = some data →
    data = slice w (segBase n + o) data.length ∧ a ≤ segBase n + o ∧ segBase n + o + data.length ≤ e

/-- What holds in the middle of a session. -/
structure Midway (ns : DbNamespace) (tl : TimelineId) (w : ℕ → UInt8) (a : ℕ) (r : Receiver) : Prop where
  sound : Sound ns tl w r
  exact : Exact ns tl w a r
  chunks : ∀ c, r.conn = some c → ChunksWithin ns tl w r.sim a c.cursor

theorem ChunksWithin.mono {sim : S3Sim} {e e' : ℕ} (h : ChunksWithin ns tl w sim a e) (he : e ≤ e') :
    ChunksWithin ns tl w sim a e' := by
  intro n o data hc
  obtain ⟨hd, hlo, hhi⟩ := h n o data hc
  exact ⟨hd, hlo, hhi.trans he⟩

theorem ChunksWithin.putChunk {sim : S3Sim} {e o : ℕ} {n : UInt64} {data : Bytes}
    (h : ChunksWithin ns tl w sim a e) (hd : data = slice w (segBase n + o) data.length)
    (hlo : a ≤ segBase n + o) (hhi : segBase n + o + data.length ≤ e) :
    ChunksWithin ns tl w (sim.putChunk ns tl n o data) a e := by
  intro n' o' data' hc
  rw [S3Sim.chunk_putChunk] at hc
  split_ifs at hc with hkey
  · obtain rfl := Option.some.inj hc
    obtain ⟨rfl, rfl⟩ := hkey
    exact ⟨hd, hlo, hhi⟩
  · exact h n' o' data' hc

theorem ChunksWithin.putTail {sim : S3Sim} {e : ℕ} {st : SegState} (h : ChunksWithin ns tl w sim a e)
    (hh : st.Holds w a e) :
    ChunksWithin ns tl w (sim.putChunk ns tl st.segNo st.chunksUploaded st.tail) a e := by
  have hlen : st.tail.length = e - (st.base + st.chunksUploaded) := by rw [hh.tail_eq, length_slice]
  have hbase : segBase st.segNo = st.base := rfl
  have horigin := hh.origin_le_uploaded
  have hup := hh.uploaded_le
  rw [SegState.origin] at horigin
  refine h.putChunk ?_ (by omega) (by omega)
  rw [hlen, hbase]
  exact hh.tail_eq

theorem Midway.step (h : Midway ns tl w a r) {l : Label} (hok : Smooth w a r l)
    (hs : r.step ns tl l = some r') : Midway ns tl w a r' := by
  refine ⟨h.sound.step hok.1 hs, h.exact.step h.sound hok hs, ?_⟩
  cases l with
  | connect lsn =>
    rw [Receiver.step] at hs
    split_ifs at hs with hnone
    rw [← Option.some.inj hs]
    intro c' _ n o data hc
    rw [((h.exact.empty (by simpa using hnone)) n).2 o] at hc
    exact absurd hc (by simp)
  | checkpoint =>
    rw [← Option.some.inj hs]
    exact h.chunks
  | taskFails i => exact absurd hok.2.1 (by simp [Label.fails])
  | drop => exact absurd hok.2.1 (by simp [Label.fails])
  | lateLands i =>
    obtain ⟨t, ht, rfl⟩ := Option.map_eq_some_iff.mp hs
    obtain ⟨m, rfl⟩ := h.exact.late t (List.mem_of_getElem? ht)
    intro c hc n o data hchunk
    change (r.sim.deleteChunks ns tl m).chunk ns tl n o = some data at hchunk
    rw [S3Sim.chunk_deleteChunks] at hchunk
    split_ifs at hchunk
    exact h.chunks c hc n o data hchunk
  | input i =>
    obtain ⟨c, hc, hs⟩ := Option.bind_eq_some_iff.mp hs
    split_ifs at hs with hpc
    rw [← Option.some.inj hs]
    intro c' hc'
    rw [← Option.some.inj hc']
    have hcursor : (c.receive i).cursor = c.cursor := by
      cases i with
      | timeout => rfl
      | copyDone => rfl
      | copyData msg =>
        have hcont := hok.1
        rw [Conn.receive]
        cases hparse : parseXlogData msg with
        | none =>
          dsimp only
          split_ifs <;> rfl
        | some xlog => exact (hcont c xlog.1 xlog.2 hc hparse).1
    rw [hcursor]
    exact h.chunks c hc
  | run =>
    obtain ⟨c, hc, hs⟩ := Option.bind_eq_some_iff.mp hs
    have hold := h.chunks c hc
    rw [Receiver.advance] at hs
    split at hs
    · rw [← Option.some.inj hs]
      intro c' hc'
      rw [← Option.some.inj hc']
      refine hold.mono ?_
      rw [Conn.ingest]
      dsimp only
      split_ifs
      · exact le_rfl
      · exact le_rfl
      · exact Nat.le_add_right _ _
    · rw [← Option.some.inj hs]
      intro c' hc'
      rw [← Option.some.inj hc']
      exact hold
    · next closing st hpc hst =>
      rw [if_neg (by rw [(h.exact.conn c hc).failed st hst]; simp)] at hs
      split_ifs at hs
      · rw [← Option.some.inj hs]
        intro c' hc'
        rw [← Option.some.inj hc']
        exact hold
      · rw [← Option.some.inj hs]
        intro c' hc'
        rw [← Option.some.inj hc']
        cases closing <;> exact hold
    · rw [← Option.some.inj hs]
      intro c' hc'
      rw [← Option.some.inj hc']
      exact hold
    · exact absurd hs (by simp)
  | putLands =>
    obtain ⟨c, hc, hs⟩ := Option.bind_eq_some_iff.mp hs
    have hold := h.chunks c hc
    have hstart := (h.exact.conn c hc).start
    rw [Receiver.putLands] at hs
    split at hs
    · next closing st hpc hst =>
      rw [← Option.some.inj hs]
      intro c' hc'
      rw [← Option.some.inj hc']
      have hnew := hold.putTail (hstart ▸ (h.sound.conn c hc).holds st hst)
      cases closing <;> exact hnew
    · next st hpc hst =>
      rw [← Option.some.inj hs]
      intro c' hc'
      rw [← Option.some.inj hc']
      exact hold.putTail (hstart ▸ (h.sound.conn c hc).holds st hst)
    · rw [← Option.some.inj hs]
      intro c' hc' n o data hchunk
      rw [← Option.some.inj hc']
      rw [S3Sim.chunk_putSealed] at hchunk
      exact hold n o data hchunk
    · exact absurd hs (by simp)
  | taskLands i =>
    obtain ⟨c, hc, hs⟩ := Option.bind_eq_some_iff.mp hs
    obtain ⟨st, hst, hs⟩ := Option.bind_eq_some_iff.mp hs
    obtain ⟨task, ht, rfl⟩ := Option.map_eq_some_iff.mp hs
    intro c' hc'
    rw [← Option.some.inj hc']
    have hold := h.chunks c hc
    have hexact := h.exact.conn c hc
    have hsound := h.sound.conn c hc
    have hholds := hsound.holds st hst
    have hmem := List.mem_of_getElem? ht
    have hdata := (hsound.uploads st hst).task task.1 task.2 hmem
    have hwin : st.Window a task.1 := by
      refine (hexact.current st hst fun hpc => ?_).task task.1 task.2 hmem
      rw [hexact.joined st hst (.inr hpc)] at hmem
      exact absurd hmem List.not_mem_nil
    rw [hexact.start] at hholds
    have hle := hholds.window_le hwin
    obtain ⟨-, j, hj⟩ := hwin
    have hbase : segBase st.segNo = st.base := rfl
    have hlen : task.2.length = chunkBytes := by rw [hdata]; exact length_slice _ _ _
    rw [SegState.origin] at hj
    refine hold.putChunk ?_ (by omega) (by omega)
    rw [hlen]
    exact hdata

theorem smooth_of_internal {l : Label} (hext : l.external = false) (hfails : l.fails = false) :
    Smooth w a r l := by
  refine ⟨?_, hfails, ?_⟩
  · cases l with
    | connect lsn => exact absurd hext (by simp [Label.external])
    | checkpoint => exact absurd hext (by simp [Label.external])
    | input i => exact absurd hext (by simp [Label.external])
    | _ => trivial
  · rintro lsn rfl
    exact absurd hext (by simp [Label.external])

/-- **An input of the session continues the stream.** -/
theorem Pending.input (h : Midway ns tl w a r) (hc : r.conn = some c) {stop : ℕ} (hstop : stop ≤ 2 ^ 64)
    {l : Label} {inputs : List Label} (hp : Pending w stop c.pos (l :: inputs))
    (hs : r.step ns tl l = some r') :
    Smooth w a r l ∧ ∃ c', r'.conn = some c' ∧ Pending w stop c'.pos inputs := by
  rcases hp with ⟨ins, bytes, hins, hcuts, hbytes, hpos⟩ | ⟨hcon, -⟩
  swap
  · exact absurd hcon (by simp)
  cases ins with
  | nil =>
    -- the end of the stream
    obtain ⟨rfl, rfl⟩ := List.cons.inj hins
    rw [show bytes = [] from hcuts, List.length_nil, Nat.add_zero] at hpos
    rw [Receiver.step, hc, Option.bind_some] at hs
    split_ifs at hs with hpc
    rw [← Option.some.inj hs]
    exact ⟨⟨trivial, rfl, fun _ hcon => absurd hcon (by simp)⟩, _, rfl, .inr ⟨rfl, hpos⟩⟩
  | cons l' ins =>
    obtain ⟨rfl, rfl⟩ := List.cons.inj hins
    cases l with
    | connect lsn => exact absurd hcuts (by simp [Cuts])
    | run => exact absurd hcuts (by simp [Cuts])
    | putLands => exact absurd hcuts (by simp [Cuts])
    | taskLands i => exact absurd hcuts (by simp [Cuts])
    | taskFails i => exact absurd hcuts (by simp [Cuts])
    | lateLands i => exact absurd hcuts (by simp [Cuts])
    | drop => exact absurd hcuts (by simp [Cuts])
    | checkpoint =>
      rw [← Option.some.inj hs]
      exact ⟨⟨trivial, rfl, fun _ hcon => absurd hcon (by simp)⟩, c, hc,
        .inl ⟨ins, bytes, rfl, hcuts, hbytes, hpos⟩⟩
    | input i =>
      rw [Receiver.step, hc, Option.bind_some] at hs
      split_ifs at hs with hpc
      rw [← Option.some.inj hs]
      obtain ⟨hdata, -⟩ := (h.sound.conn c hc).idle (.inl hpc)
      have hcpos : c.pos = c.cursor := by rw [Conn.pos, hdata]; rfl
      cases i with
      | copyDone => exact absurd hcuts (by simp [Cuts])
      | timeout =>
        exact ⟨⟨trivial, rfl, fun _ hcon => absurd hcon (by simp)⟩, _, rfl,
          .inl ⟨ins, bytes, rfl, hcuts, hbytes, hpos⟩⟩
      | copyData msg =>
        rw [Cuts] at hcuts
        cases hparse : parseXlogData msg with
        | none =>
          rw [hparse] at hcuts
          refine ⟨⟨?_, rfl, fun _ hcon => absurd hcon (by simp)⟩, _, rfl,
            .inl ⟨ins, bytes, rfl, ?_, ?_, ?_⟩⟩
          · intro c' start data _ hcon
            rw [hparse] at hcon
            exact absurd hcon (by simp)
          all_goals
            have hsame : (c.receive (.copyData msg)).pos = c.pos := by
              rw [Conn.receive, hparse]
              dsimp only
              split_ifs <;> rfl
            rw [hsame]
            assumption
        | some xlog =>
          obtain ⟨start, data⟩ := xlog
          rw [hparse] at hcuts
          obtain ⟨rfl, rest, rfl, hcuts⟩ := hcuts
          rw [List.length_append, ← slice_append] at hbytes
          rw [List.length_append] at hpos
          obtain ⟨hd, hr⟩ := List.append_inj hbytes (by rw [length_slice])
          refine ⟨⟨?_, rfl, fun _ hcon => absurd hcon (by simp)⟩, _, rfl,
            .inl ⟨ins, rest, rfl, ?_, ?_, ?_⟩⟩
          · intro c' start' data' hc' hparse'
            rw [hparse] at hparse'
            obtain ⟨rfl, rfl⟩ := Prod.mk.inj (Option.some.inj hparse')
            rw [← Option.some.inj (hc.symm.trans hc')]
            exact ⟨hcpos, hd, by omega⟩
          all_goals
            have hnew : (c.receive (.copyData msg)).pos = c.pos + data.length := by
              rw [Conn.receive, hparse]
              rfl
            rw [hnew]
          · exact hcuts
          · exact hr
          · omega

/-- **The run of a session is smooth**, as far as it goes. -/
theorem reaches_of_pending {stop : ℕ} (hstop : stop ≤ 2 ^ 64) {labels inputs : List Label}
    (h : Midway ns tl w a r) (hc : r.conn = some c) (hp : Pending w stop c.pos inputs)
    (hext : labels.filter Label.external <+: inputs) (hfails : ∀ l ∈ labels, l.fails = false)
    (hrun : run (Receiver.step ns tl) r labels = some t) :
    Midway ns tl w a t ∧ ∃ c' more, t.conn = some c' ∧
      inputs = labels.filter Label.external ++ more ∧ Pending w stop c'.pos more := by
  induction labels generalizing r c inputs with
  | nil =>
    rw [← Option.some.inj hrun]
    exact ⟨h, c, inputs, hc, rfl, hp⟩
  | cons l labels ih =>
    obtain ⟨r₁, hs, hrun⟩ := Option.bind_eq_some_iff.mp hrun
    have hf := hfails l List.mem_cons_self
    have hrest : ∀ l' ∈ labels, l'.fails = false := fun l' hl' => hfails l' (List.mem_cons_of_mem _ hl')
    cases hl : l.external with
    | false =>
      rw [List.filter_cons_of_neg (by simp [hl])] at hext ⊢
      obtain ⟨c₁, hc₁, hpos⟩ := pos_step hc ((h.exact.conn c hc).failed) hl hf hs
      exact ih (h.step (smooth_of_internal hl hf) hs) hc₁ (hpos ▸ hp) hext hrest hrun
    | true =>
      rw [List.filter_cons_of_pos hl] at hext ⊢
      obtain ⟨ins, rfl⟩ : ∃ ins, inputs = l :: ins := by
        obtain ⟨more, hmore⟩ := hext
        exact ⟨_, hmore.symm⟩
      obtain ⟨hsm, c₁, hc₁, hp₁⟩ := Pending.input h hc hstop hp hs
      obtain ⟨hmid, c', more, hc', hins, hp'⟩ := ih (h.step hsm hs) hc₁ hp₁
        (List.cons_prefix_cons.mp hext).2 hrest hrun
      exact ⟨hmid, c', more, hc', by rw [hins]; rfl, hp'⟩

/-! ## There always is a session -/

/-- Steps of the receiver's own lead from one state to another. -/
def Settles (ns : DbNamespace) (tl : TimelineId) (r r' : Receiver) : Prop :=
  ∃ labels : List Label, (∀ l ∈ labels, l.external = false ∧ l.fails = false) ∧
    run (Receiver.step ns tl) r labels = some r'

theorem Settles.refl (r : Receiver) : Settles ns tl r r :=
  ⟨[], fun _ hl => absurd hl List.not_mem_nil, rfl⟩

theorem Settles.trans (h : Settles ns tl r r') (h' : Settles ns tl r' t) : Settles ns tl r t := by
  obtain ⟨ls, hls, hrun⟩ := h
  obtain ⟨ls', hls', hrun'⟩ := h'
  refine ⟨ls ++ ls', fun l hl => ?_, by rw [run_append, hrun]; exact hrun'⟩
  rcases List.mem_append.mp hl with hl | hl
  · exact hls l hl
  · exact hls' l hl

theorem Settles.step {l : Label} (hs : r.step ns tl l = some r') (hext : l.external = false)
    (hfails : l.fails = false) : Settles ns tl r r' := by
  refine ⟨[l], fun l' hl' => ?_, by rw [run, hs]; rfl⟩
  rw [List.mem_singleton.mp hl']
  exact ⟨hext, hfails⟩

theorem Midway.settles (h : Midway ns tl w a r) (hs : Settles ns tl r r') : Midway ns tl w a r' := by
  obtain ⟨ls, hls, hrun⟩ := hs
  induction ls generalizing r with
  | nil => exact Option.some.inj hrun ▸ h
  | cons l ls ih =>
    obtain ⟨r₁, hs, hrun⟩ := Option.bind_eq_some_iff.mp hrun
    obtain ⟨hext, hfails⟩ := hls l List.mem_cons_self
    exact ih (h.step (smooth_of_internal hext hfails) hs)
      (fun l' hl' => hls l' (List.mem_cons_of_mem _ hl')) hrun

/-- The chunk tasks land one after the other, then the tail. -/
theorem settles_join {closing : Bool} (k : ℕ) {st : SegState} (hc : r.conn = some c)
    (hpc : c.pc = .join closing) (hst : c.curSeg = some st) (hfailed : st.taskFailed = false)
    (hk : st.chunkTasks.length = k) :
    ∃ r' c', Settles ns tl r r' ∧ r'.conn = some c' ∧ c'.data = c.data ∧
      if closing then c'.pc = .closed
      else c'.curSeg.isSome = true ∧ (c'.pc = .confirm ∨ c'.pc = .seal) := by
  induction k generalizing r c st with
  | zero =>
    have htasks := List.eq_nil_of_length_eq_zero hk
    have hafter : ∀ c₁ : Conn, c₁.curSeg = some st → c₁.data = c.data →
        (c₁.afterJoin st closing).data = c.data ∧
        if closing then (c₁.afterJoin st closing).pc = .closed
        else (c₁.afterJoin st closing).curSeg.isSome = true ∧
          ((c₁.afterJoin st closing).pc = .confirm ∨ (c₁.afterJoin st closing).pc = .seal) := by
      intro c₁ hst₁ hd
      cases closing with
      | true => exact ⟨hd, rfl⟩
      | false =>
        refine ⟨hd, by change c₁.curSeg.isSome = true; rw [hst₁]; rfl, ?_⟩
        rw [Conn.afterJoin, if_neg (by simp)]
        dsimp only
        split_ifs
        · exact .inl rfl
        · exact .inr rfl
    have hs : r.step ns tl .run = _ := Receiver.step_join hc hpc hst hfailed htasks
    by_cases hlt : st.chunksUploaded < st.buf.length
    · rw [if_pos hlt] at hs
      have hs' : Receiver.step ns tl { r with conn := some { c with pc := .tail closing } } .putLands = _ :=
        Receiver.step_tail rfl rfl hst
      exact ⟨_, _, (Settles.step hs rfl rfl).trans (.step hs' rfl rfl), rfl,
        hafter { c with pc := .tail closing } hst rfl⟩
    · rw [if_neg hlt] at hs
      exact ⟨_, _, .step hs rfl rfl, rfl, hafter c hst rfl⟩
  | succ k ih =>
    have hpos : 0 < st.chunkTasks.length := by omega
    obtain ⟨r₁, hs, hc₁⟩ : ∃ r₁, r.step ns tl (.taskLands 0) = some r₁ ∧ r₁.conn = some { c with
        curSeg := some { st with chunkTasks := st.chunkTasks.eraseIdx 0 } } :=
      ⟨_, Receiver.step_taskLands hc hst (List.getElem?_eq_getElem hpos), rfl⟩
    obtain ⟨r', c', hset, hrest⟩ := ih hc₁ hpc rfl hfailed (by
      change (st.chunkTasks.eraseIdx 0).length = k
      rw [List.length_eraseIdx, if_pos hpos]
      omega)
    exact ⟨r', c', (Settles.step hs rfl rfl).trans hset, hrest⟩

/-- A segment that is complete is sealed, if it is not partial, and confirmed. -/
theorem settles_confirm (hc : r.conn = some c) (hseg : c.curSeg.isSome = true)
    (hpc : c.pc = .confirm ∨ c.pc = .seal) :
    ∃ r' c', Settles ns tl r r' ∧ r'.conn = some c' ∧ c'.data = c.data ∧ c'.pc = .ingest ∧
      c'.curSeg = none := by
  obtain ⟨st, hst⟩ := Option.isSome_iff_exists.mp hseg
  rcases hpc with hpc | hpc
  · have hs : r.step ns tl .run = _ := Receiver.step_confirm hc hpc hst
    exact ⟨_, _, .step hs rfl rfl, rfl, rfl, rfl, rfl⟩
  · have hs : r.step ns tl .putLands = _ := Receiver.step_seal hc hpc hst
    have hs' : Receiver.step ns tl
        { r with
          sim := r.sim.putSealed ns tl st.segNo st.padded
          conn := some { c with pc := .confirm }
          late := r.late ++ [.deleteChunks st.segNo] } .run = _ :=
      Receiver.step_confirm rfl rfl hst
    exact ⟨_, _, (Settles.step hs rfl rfl).trans (.step hs' rfl rfl), rfl, rfl, rfl, rfl⟩

/-- A turn of the loop takes WAL in, or the segment before is complete. -/
theorem ingest_cases (c : Conn) (hpc : c.pc = .ingest) :
    c.ingest.pc = .loopEnd ∨ c.ingest.pc = .ingest ∧ c.ingest.data.length < c.data.length ∨
      c.curSeg.isSome = true ∧ c.ingest = { c with pc := .join false } := by
  have hmod := Nat.mod_lt c.cursor xlogSegSize_pos
  rw [Conn.ingest]
  dsimp only
  split_ifs with hdata hseg
  · exact .inl rfl
  · refine .inr (.inr ⟨?_, rfl⟩)
    cases hcur : c.curSeg with
    | none =>
      rw [hcur] at hseg
      exact absurd hseg (by simp)
    | some st => rfl
  · refine .inr (.inl ⟨hpc, ?_⟩)
    have := List.length_pos_of_ne_nil hdata
    dsimp only
    rw [List.length_drop]
    omega

/-- The segment before is closed, and the next turn takes WAL in. -/
theorem settles_switch (h : Midway ns tl w a r) (hc : r.conn = some c) (hpc : c.pc = .join false)
    (hseg : c.curSeg.isSome = true) :
    ∃ r' c', Settles ns tl r r' ∧ r'.conn = some c' ∧
      (c'.pc = .loopEnd ∨ c'.pc = .ingest ∧ c'.data.length < c.data.length) := by
  obtain ⟨st, hst⟩ := Option.isSome_iff_exists.mp hseg
  obtain ⟨r₁, c₁, hset₁, hc₁, hd₁, hseg₁, hpc₁⟩ :=
    settles_join _ hc hpc hst ((h.exact.conn c hc).failed st hst) rfl
  obtain ⟨r₂, c₂, hset₂, hc₂, hd₂, hpc₂, hnone⟩ := settles_confirm hc₁ hseg₁ hpc₁
  have hs : r₂.step ns tl .run = _ := Receiver.step_ingest hc₂ hpc₂
  refine ⟨_, _, (hset₁.trans hset₂).trans (.step hs rfl rfl), rfl, ?_⟩
  rcases ingest_cases c₂ hpc₂ with hend | ⟨hpc₃, hlt⟩ | ⟨hcon, -⟩
  · exact .inl hend
  · exact .inr ⟨hpc₃, by rwa [hd₂, hd₁] at hlt⟩
  · rw [hnone] at hcon
    exact absurd hcon (by simp)

/-- **A message is taken in completely.** -/
theorem settles_ingest (h : Midway ns tl w a r) (hc : r.conn = some c) (hpc : c.pc = .ingest) :
    ∃ r' c', Settles ns tl r r' ∧ r'.conn = some c' ∧ c'.pc = .loopEnd := by
  induction hk : c.data.length using Nat.strong_induction_on generalizing r c with
  | _ k ih =>
    have hs : r.step ns tl .run = _ := Receiver.step_ingest hc hpc
    have hset := Settles.step hs rfl rfl
    rcases ingest_cases c hpc with hend | ⟨hpc', hlt⟩ | ⟨hseg, hjoin⟩
    · exact ⟨_, _, hset, rfl, hend⟩
    · obtain ⟨r', c', hset', hrest⟩ := ih _ (hk ▸ hlt) (h.settles hset) rfl hpc' rfl
      exact ⟨r', c', hset.trans hset', hrest⟩
    · rw [hjoin] at hset
      obtain ⟨r₁, c₁, hset₁, hc₁, hpc₁⟩ := settles_switch (h.settles hset) rfl rfl hseg
      rcases hpc₁ with hend | ⟨hpc₁, hlt⟩
      · exact ⟨r₁, c₁, hset.trans hset₁, hc₁, hend⟩
      · obtain ⟨r', c', hset', hrest⟩ :=
          ih _ (hk ▸ hlt) (h.settles (hset.trans hset₁)) hc₁ hpc₁ rfl
        exact ⟨r', c', (hset.trans hset₁).trans hset', hrest⟩

/-- At the end of a turn the tail may be flushed. -/
theorem settles_loopEnd (hc : r.conn = some c) (hpc : c.pc = .loopEnd) :
    ∃ r' c', Settles ns tl r r' ∧ r'.conn = some c' ∧ c'.pc = .recv := by
  have hs : r.step ns tl .run = _ := Receiver.step_loopEnd hc hpc
  have hset := Settles.step hs rfl rfl
  by_cases hflush : (c.maybeFlush r.generation).pc = .recv
  · exact ⟨_, _, hset, rfl, hflush⟩
  · rw [Conn.maybeFlush] at hflush
    dsimp only at hflush
    split_ifs at hflush with hcond
    · cases hcur : c.curSeg with
      | none =>
        rw [hcur] at hcond
        exact absurd hcond (by simp)
      | some st =>
        have hpc' : (c.maybeFlush r.generation).pc = .flush := by
          rw [Conn.maybeFlush, if_pos hcond]
        have hs' : Receiver.step ns tl { r with conn := some (c.maybeFlush r.generation) } .putLands = _ :=
          Receiver.step_flush rfl hpc' hcur
        exact ⟨_, _, hset.trans (.step hs' rfl rfl), rfl, rfl⟩
    · exact absurd rfl hflush

/-- What is received is dealt with: the connection waits for the next message, or it is closed. -/
theorem settles_receive (h : Midway ns tl w a r) (hc : r.conn = some c)
    (hpc : c.pc = .recv ∨ c.pc = .loopEnd ∨ c.pc = .ingest) :
    ∃ r' c', Settles ns tl r r' ∧ r'.conn = some c' ∧ c'.pc = .recv := by
  rcases hpc with hpc | hpc | hpc
  · exact ⟨r, c, .refl r, hc, hpc⟩
  · exact settles_loopEnd hc hpc
  · obtain ⟨r₁, c₁, hset₁, hc₁, hpc₁⟩ := settles_ingest h hc hpc
    obtain ⟨r', c', hset', hrest⟩ := settles_loopEnd hc₁ hpc₁
    exact ⟨r', c', hset₁.trans hset', hrest⟩

/-- **A message of the session, and what the receiver does about it.** -/
theorem exists_input (h : Midway ns tl w a r) (hc : r.conn = some c) (hpc : c.pc = .recv) {stop : ℕ}
    (hstop : stop ≤ 2 ^ 64) {l : Label} {inputs : List Label} (hl : l ≠ .input .copyDone)
    (hp : Pending w stop c.pos (l :: inputs)) :
    ∃ r' c' labels, labels.filter Label.external = [l] ∧ (∀ l' ∈ labels, l'.fails = false) ∧
      run (Receiver.step ns tl) r labels = some r' ∧ Midway ns tl w a r' ∧ r'.conn = some c' ∧
      c'.pc = .recv ∧ Pending w stop c'.pos inputs := by
  -- the step itself
  obtain ⟨r₁, c₁, hext, hs, hc₁, hpc₁⟩ : ∃ r₁ c₁, (l.external = true ∧ l.fails = false) ∧
      r.step ns tl l = some r₁ ∧ r₁.conn = some c₁ ∧
      (c₁.pc = .recv ∨ c₁.pc = .loopEnd ∨ c₁.pc = .ingest) := by
    rcases hp with ⟨ins, bytes, hins, hcuts, -⟩ | ⟨hcon, -⟩
    swap
    · exact absurd hcon (by simp)
    cases ins with
    | nil => exact absurd (List.cons.inj hins).1 hl
    | cons l' ins =>
      obtain ⟨rfl, rfl⟩ := List.cons.inj hins
      cases l with
      | checkpoint => exact ⟨_, c, ⟨rfl, rfl⟩, rfl, hc, .inl hpc⟩
      | input i =>
        refine ⟨_, _, ⟨rfl, rfl⟩, Receiver.step_input hc hpc i, rfl, ?_⟩
        cases i with
        | copyDone => exact absurd rfl hl
        | timeout => exact .inr (.inl rfl)
        | copyData msg =>
          rw [Conn.receive]
          cases hparse : parseXlogData msg with
          | some xlog => exact .inr (.inr rfl)
          | none =>
            dsimp only
            split_ifs
            · exact .inl hpc
            · exact .inr (.inl rfl)
            · exact .inr (.inl rfl)
      | _ => exact absurd hcuts (by simp [Cuts])
  obtain ⟨hsm, c₁', hc₁', hp₁⟩ := Pending.input h hc hstop hp hs
  obtain rfl := Option.some.inj (hc₁.symm.trans hc₁')
  have hmid := h.step hsm hs
  obtain ⟨r₂, c₂, ⟨ls, hls, hrun⟩, hc₂, hpc₂⟩ := settles_receive hmid hc₁ hpc₁
  have hnone : ls.filter Label.external = [] :=
    List.filter_eq_nil_iff.mpr fun l' hl' => by rw [(hls l' hl').1]; simp
  have hfails : ∀ l' ∈ ls, l'.fails = false := fun l' hl' => (hls l' hl').2
  obtain ⟨hmid₂, c₂', more, hc₂', hmore, hp₂⟩ :=
    reaches_of_pending hstop hmid hc₁ hp₁ (by rw [hnone]; exact List.nil_prefix) hfails hrun
  obtain rfl := Option.some.inj (hc₂.symm.trans hc₂')
  rw [hnone, List.nil_append] at hmore
  refine ⟨r₂, c₂, l :: ls, by rw [List.filter_cons_of_pos hext.1, hnone], ?_, ?_, hmid₂, hc₂, hpc₂,
    hmore ▸ hp₂⟩
  · intro l' hl'
    rcases List.mem_cons.mp hl' with rfl | hl'
    · exact hext.2
    · exact hfails l' hl'
  · rw [run, hs]
    exact hrun

/-- The end of the stream. -/
theorem exists_close (h : Midway ns tl w a r) (hc : r.conn = some c) (hpc : c.pc = .recv) :
    ∃ r' c' labels, labels.filter Label.external = [.input .copyDone] ∧
      (∀ l ∈ labels, l.fails = false) ∧ run (Receiver.step ns tl) r labels = some r' ∧
      r'.conn = some c' ∧ c'.pc = .closed := by
  have hs : r.step ns tl (.input .copyDone) = _ := Receiver.step_input hc hpc .copyDone
  cases hcur : c.curSeg with
  | none =>
    refine ⟨_, _, [.input .copyDone], rfl, ?_, by rw [run, hs]; rfl, rfl, ?_⟩
    · intro l hl
      rw [List.mem_singleton.mp hl]
      rfl
    · rw [Conn.receive, hcur]
      rfl
  | some st =>
    have hjoin : (c.receive .copyDone).pc = .join true := by
      rw [Conn.receive, hcur]
      rfl
    obtain ⟨r', c', hset, hc', -, hclosed⟩ : ∃ r' c',
        Settles ns tl { r with conn := some (c.receive .copyDone) } r' ∧ r'.conn = some c' ∧
          c'.data = c.data ∧ c'.pc = .closed :=
      settles_join _ rfl hjoin hcur ((h.exact.conn c hc).failed st hcur) rfl
    obtain ⟨ls, hls, hrun⟩ := hset
    refine ⟨r', c', .input .copyDone :: ls, ?_, ?_, ?_, hc', hclosed⟩
    · rw [List.filter_cons_of_pos rfl,
        List.filter_eq_nil_iff.mpr fun l hl => by rw [(hls l hl).1]; simp]
    · intro l hl
      rcases List.mem_cons.mp hl with rfl | hl
      · rfl
      · exact (hls l hl).2
    · rw [run, hs]
      exact hrun

theorem exists_labels {stop : ℕ} (hstop : stop ≤ 2 ^ 64) (inputs : List Label)
    (h : Midway ns tl w a r) (hc : r.conn = some c) (hpc : c.pc = .recv)
    (hp : Pending w stop c.pos (inputs ++ [.input .copyDone])) :
    ∃ r' c' labels, labels.filter Label.external = inputs ++ [.input .copyDone] ∧
      (∀ l ∈ labels, l.fails = false) ∧ run (Receiver.step ns tl) r labels = some r' ∧
      r'.conn = some c' ∧ c'.pc = .closed := by
  induction inputs generalizing r c with
  | nil => exact exists_close h hc hpc
  | cons l inputs ih =>
    have hl : l ≠ .input .copyDone := by
      rintro rfl
      rcases hp with ⟨ins, bytes, hins, hcuts, -⟩ | ⟨hcon, -⟩
      · obtain rfl := List.append_cancel_right hins
        exact hcuts
      · exact absurd hcon (by simp)
    obtain ⟨r₁, c₁, ls₁, hf₁, hok₁, hrun₁, hmid₁, hc₁, hpc₁, hp₁⟩ := exists_input h hc hpc hstop hl hp
    obtain ⟨r', c', ls, hf, hok, hrun, hrest⟩ := ih hmid₁ hc₁ hpc₁ hp₁
    refine ⟨r', c', ls₁ ++ ls, by rw [List.filter_append, hf₁, hf]; rfl, fun l' hl' => ?_, ?_, hrest⟩
    · rcases List.mem_append.mp hl' with hl' | hl'
      · exact hok₁ l' hl'
      · exact hok l' hl'
    · rw [run_append, hrun₁]
      exact hrun

end Runs

/-! ## Sessions -/

section Sessions

variable {ns : DbNamespace} {tl : TimelineId} {s : WalStream} {sim : S3Sim} {inputs labels : List Label}
  {t : Receiver} {c : Conn}

theorem WalStream.bytes_eq (s : WalStream) : s.bytes = slice s.wal s.start s.bytes.length := by
  refine eq_slice_iff.mpr fun i hi => ?_
  rw [wal, Nat.add_sub_cancel_left, List.getElem?_eq_getElem hi]
  rfl

/-- The receiver with its connection. -/
def Receiver.connected (sim : S3Sim) (a : ℕ) : Receiver := ⟨sim, 0, some (.new a 0), []⟩

theorem step_initial (sim : S3Sim) (a : ℕ) :
    (Receiver.initial sim).step ns tl (.connect a) = some (.connected sim a) := rfl

theorem midway_connected (s : WalStream) (h : Unused ns tl sim) :
    Midway ns tl s.wal s.start (.connected sim s.start) := by
  have hinit : Midway ns tl s.wal s.start (.initial sim) :=
    ⟨⟨fun _ hc => absurd hc (by simp [Receiver.initial]),
      fun _ hl => absurd hl (by simp [Receiver.initial])⟩,
      ⟨fun _ hl => absurd hl (by simp [Receiver.initial]), fun _ => h,
        fun _ hc => absurd hc (by simp [Receiver.initial])⟩,
      fun _ hc => absurd hc (by simp [Receiver.initial])⟩
  refine hinit.step (l := .connect s.start) ⟨?_, rfl, fun lsn hl => ?_⟩ (step_initial sim s.start)
  · exact (Nat.le_add_right _ _).trans s.fits
  · exact (Label.connect.inj hl).symm

theorem pending_connected (hcuts : Cuts s.start inputs s.bytes) :
    Pending s.wal s.stop (Conn.new s.start 0).pos (inputs ++ [.input .copyDone]) :=
  .inl ⟨inputs, s.bytes, rfl, hcuts, s.bytes_eq, rfl⟩

/-- **There is a session for every way to cut the stream.** -/
theorem exists_session (h : Unused ns tl sim) (hcuts : Cuts s.start inputs s.bytes) :
    ∃ labels t c, Session ns tl sim s.start inputs labels t c := by
  obtain ⟨t, c, ls, hf, hok, hrun, hc, hclosed⟩ := exists_labels s.fits inputs (midway_connected s h)
    (c := .new s.start 0) rfl rfl (pending_connected hcuts)
  refine ⟨.connect s.start :: ls, t, c, ?_, ?_, hrun, hc, hclosed⟩
  · rw [List.filter_cons_of_pos rfl, hf]
  · intro l hl
    rcases List.mem_cons.mp hl with rfl | hl
    · rfl
    · exact hok l hl

/-- Nothing happens before the connection. -/
theorem Session.connect_first {a : ℕ} (h : Session ns tl sim a inputs labels t c) :
    ∃ ls, labels = .connect a :: ls ∧ ls.filter Label.external = inputs ++ [.input .copyDone] ∧
      run (Receiver.step ns tl) (.connected sim a) ls = some t := by
  have hext := h.external
  have hrun := h.run_eq
  cases labels with
  | nil => exact absurd hext (by simp)
  | cons l ls =>
    cases hl : l.external with
    | true =>
      rw [List.filter_cons_of_pos hl] at hext
      obtain ⟨rfl, hls⟩ := List.cons.inj hext
      exact ⟨ls, rfl, hls, hrun⟩
    | false =>
      obtain ⟨r₁, hs, -⟩ := Option.bind_eq_some_iff.mp hrun
      cases l with
      | run => exact absurd hs (by simp [Receiver.step, Receiver.initial])
      | putLands => exact absurd hs (by simp [Receiver.step, Receiver.initial])
      | taskLands i => exact absurd hs (by simp [Receiver.step, Receiver.initial])
      | taskFails i => exact absurd hs (by simp [Receiver.step, Receiver.initial])
      | lateLands i => exact absurd hs (by simp [Receiver.step, Receiver.initial])
      | drop => exact absurd hs (by simp [Receiver.step, Receiver.initial])
      | _ => exact absurd hl (by simp [Label.external])

/-- The buffer is never larger than a segment. -/
theorem Session.length_buf_le (h : Session ns tl sim s.start inputs labels t c) (hsim : Unused ns tl sim)
    (hcuts : Cuts s.start inputs s.bytes) {labels' : List Label} (hpre : labels' <+: labels)
    {t' : Receiver} {c' : Conn} {st : SegState}
    (hrun : run (Receiver.step ns tl) (.initial sim) labels' = some t') (hc : t'.conn = some c')
    (hst : c'.curSeg = some st) : st.buf.length ≤ xlogSegSize := by
  obtain ⟨ls, rfl, hext, -⟩ := h.connect_first
  cases labels' with
  | nil =>
    rw [← Option.some.inj hrun] at hc
    exact absurd hc (by simp [Receiver.initial])
  | cons l ls' =>
    obtain ⟨rfl, hls'⟩ := List.cons_prefix_cons.mp hpre
    have hmid := (reaches_of_pending s.fits (midway_connected s hsim) (c := .new s.start 0) rfl
      (pending_connected hcuts) (hext ▸ hls'.filter _)
      (fun l hl => h.smooth l (List.mem_cons_of_mem _ (hls'.subset hl))) hrun).1
    exact ((hmid.sound.conn c' hc).holds st hst).length_buf_le

/-- **What a session leaves**: a function of the stream. -/
structure Archived (ns : DbNamespace) (tl : TimelineId) (s : WalStream) (sim : S3Sim) : Prop where
  sealed : ∀ n data, sim.sealed ns tl n = some data ↔
    s.start ≤ segBase n ∧ segBase n + xlogSegSize ≤ confirmedAt s.start s.stop ∧
      data = segSlice s.wal n
  chunks : ∀ n, sim.sealed ns tl n = none → ChunksExact ns tl s.wal sim s.start s.stop n
  within : ChunksWithin ns tl s.wal sim s.start s.stop

theorem Session.exact (h : Session ns tl sim s.start inputs labels t c) (hsim : Unused ns tl sim)
    (hcuts : Cuts s.start inputs s.bytes) :
    Archived ns tl s t.sim ∧ c.confirmedLsn = confirmedAt s.start s.stop := by
  obtain ⟨ls, rfl, hext, hrun⟩ := h.connect_first
  obtain ⟨hmid, c', more, hc', hmore, hp⟩ :=
    reaches_of_pending s.fits (midway_connected s hsim) (c := .new s.start 0) rfl
      (pending_connected hcuts) (hext ▸ List.prefix_rfl)
      (fun l hl => h.smooth l (List.mem_cons_of_mem _ hl)) hrun
  obtain rfl := Option.some.inj (h.conn_eq.symm.trans hc')
  have hpc := h.closed
  have hsound := hmid.sound.conn c hc'
  have hexact := hmid.exact.conn c hc'
  -- the whole stream has been received
  obtain rfl : more = [] := by
    rw [hext] at hmore
    exact List.self_eq_append_right.mp hmore
  have hpos : c.pos = s.stop := by
    rcases hp with ⟨ins, bytes, hins, -⟩ | ⟨-, hpos⟩
    · exact absurd hins (by simp)
    · exact hpos
  have hnone : c.curSeg = none := by
    cases hcur : c.curSeg with
    | none => rfl
    | some st =>
      have hcon := hsound.pcOk st hcur
      rw [hpc] at hcon
      exact hcon.elim
  have hdata : c.data = [] := by
    have hfree := hsound.free hnone
    rw [hpc] at hfree
    exact hfree
  have hcursor : c.cursor = s.stop := by
    rw [← hpos, Conn.pos, hdata]
    rfl
  have hconf : c.confirmedLsn = confirmedAt s.start s.stop := by
    rw [hexact.final hpc, hcursor]
  refine ⟨⟨fun n data => ?_, fun n hn => ?_, ?_⟩, hconf⟩
  · rw [hexact.sealed n data, Conn.sealedUpto, if_neg (by rw [hpc]; simp), hconf]
  · have hchunks := hexact.others n (fun st hst => absurd (hnone.symm.trans hst) (by simp)) hn
    rw [Conn.chunksUpto, if_pos hpc, hcursor] at hchunks
    exact hchunks
  · rw [← hcursor]
    exact hmid.chunks c hc'

theorem Archived.sealed_eq {sim₁ : S3Sim} (h : Archived ns tl s sim) (h₁ : Archived ns tl s sim₁)
    (n : UInt64) : sim.sealed ns tl n = sim₁.sealed ns tl n := by
  ext data
  exact (h.sealed n data).trans (h₁.sealed n data).symm

theorem Archived.chunk_eq {sim₁ : S3Sim} (h : Archived ns tl s sim) (h₁ : Archived ns tl s sim₁)
    {n : UInt64} (hn : sim.sealed ns tl n = none) (o : ℕ) :
    sim.chunk ns tl n o = sim₁.chunk ns tl n o := by
  ext data
  exact (h.chunks n hn o data).trans (h₁.chunks n (h.sealed_eq h₁ n ▸ hn) o data).symm

theorem confirmedAt_le {a e : ℕ} (h : a ≤ e) : confirmedAt a e ≤ e := by
  unfold confirmedAt
  split_ifs
  · have := Nat.div_mul_le_self (e - 1) xlogSegSize
    omega
  · exact h

theorem segBase_segOf {p : ℕ} (hp : p < 2 ^ 64) :
    segBase (segOf p) ≤ p ∧ p < segBase (segOf p) + xlogSegSize := by
  rw [segBase, segOf, toNat_segOf hp]
  exact ⟨Nat.div_mul_le_self p xlogSegSize, Nat.lt_div_mul_add xlogSegSize_pos⟩

theorem Archived.covered (h : Archived ns tl s sim) {p : ℕ} (hlo : s.start ≤ p) (hhi : p < s.stop) :
    Covered ns tl s.wal sim p := by
  have hp : p < 2 ^ 64 := hhi.trans_le s.fits
  cases hn : sim.sealed ns tl (segOf p) with
  | some data =>
    left
    rw [hn, ((h.sealed _ data).mp hn).2.2]
  | none =>
    obtain ⟨hbase, hend⟩ := segBase_segOf hp
    -- the window that holds the position
    set o := s.start - segBase (segOf p) +
      (p - segBase (segOf p) - (s.start - segBase (segOf p))) / chunkBytes * chunkBytes with ho
    have hdiv := Nat.div_mul_le_self (p - segBase (segOf p) - (s.start - segBase (segOf p))) chunkBytes
    have hmod := Nat.lt_div_mul_add chunkBytes_pos
      (a := p - segBase (segOf p) - (s.start - segBase (segOf p)))
    have hchunk := (h.chunks _ hn o _).mpr ⟨⟨_, ho⟩, by omega, by omega, rfl⟩
    refine covered_of_chunk hchunk (by rw [length_slice]) ?_ rfl (by omega) ?_
    · rw [length_slice]
      exact min_le_left _ _
    · rw [length_slice]
      omega

/-- **How the stream is cut does not matter.** For every way to cut a stream into messages, with
timeouts, other messages and checkpoints in between, there is a session, and whatever the order of its
PUTs: the sealed segments, the chunks of the other segments and the confirmed LSN are those of the
stream in one message; a sealed segment is the stream's whole segment, a chunk the stream from its
offset on, and every position of the stream is in one of them; and at no point is the buffer larger
than a segment. -/
theorem archive_independent_of_cuts (ns : DbNamespace) (tl : TimelineId) (s : WalStream) {sim : S3Sim}
    {inputs : List Label} (hsim : Unused ns tl sim) (hcuts : Cuts s.start inputs s.bytes) :
    (∃ labels t c, Session ns tl sim s.start inputs labels t c) ∧
    ∀ labels t c, Session ns tl sim s.start inputs labels t c →
      (∀ labels₁ t₁ c₁, Session ns tl sim s.start [.input (.copyData (xlogMsg s.start s.bytes))]
          labels₁ t₁ c₁ →
        c.confirmedLsn = c₁.confirmedLsn ∧
        ∀ n, t.sim.sealed ns tl n = t₁.sim.sealed ns tl n ∧
          (t.sim.sealed ns tl n = none → ∀ o, t.sim.chunk ns tl n o = t₁.sim.chunk ns tl n o)) ∧
      (∀ n data, t.sim.sealed ns tl n = some data →
        s.start ≤ segBase n ∧ segBase n + xlogSegSize ≤ s.stop ∧
          data = slice s.wal (segBase n) xlogSegSize) ∧
      (∀ n o data, t.sim.chunk ns tl n o = some data →
        s.start ≤ segBase n + o ∧ segBase n + o + data.length ≤ s.stop ∧
          data = slice s.wal (segBase n + o) data.length) ∧
      (∀ p, s.start ≤ p → p < s.stop → Covered ns tl s.wal t.sim p) ∧
      ∀ labels' t' c' st, labels' <+: labels →
        run (Receiver.step ns tl) (.initial sim) labels' = some t' → t'.conn = some c' →
        c'.curSeg = some st → st.buf.length ≤ xlogSegSize := by
  refine ⟨exists_session hsim hcuts, fun labels t c hses => ?_⟩
  obtain ⟨harch, hconf⟩ := hses.exact hsim hcuts
  refine ⟨fun labels₁ t₁ c₁ hses₁ => ?_, fun n data hn => ?_, fun n o data hc => ?_,
    fun p hlo hhi => harch.covered hlo hhi, fun labels' t' c' st hpre hrun hc hst => ?_⟩
  · obtain ⟨harch₁, hconf₁⟩ := hses₁.exact hsim (cuts_one s)
    exact ⟨hconf.trans hconf₁.symm,
      fun n => ⟨harch.sealed_eq harch₁ n, fun hn o => harch.chunk_eq harch₁ hn o⟩⟩
  · obtain ⟨hlo, hhi, hd⟩ := (harch.sealed n data).mp hn
    exact ⟨hlo, hhi.trans (confirmedAt_le (Nat.le_add_right _ _)), hd⟩
  · obtain ⟨hd, hlo, hhi⟩ := harch.within n o data hc
    exact ⟨hlo, hhi, hd⟩
  · exact hses.length_buf_le hsim hcuts hpre hrun hc hst

/-- The last byte of segment 0 and the first of segment 1. -/
def crossingStream : WalStream := ⟨xlogSegSize - 1, [1, 2], by decide⟩

/-- The stream in two messages, with a checkpoint and a timeout in between. -/
def crossingInputs : List Label :=
  [.input (.copyData (xlogMsg (xlogSegSize - 1) [1])), .checkpoint, .input .timeout,
    .input (.copyData (xlogMsg xlogSegSize [2]))]

theorem cuts_crossing : Cuts crossingStream.start crossingInputs crossingStream.bytes := by
  rw [crossingInputs, Cuts, parse_xlogMsg (by decide) (by simp)]
  refine ⟨rfl, [2], rfl, ?_⟩
  rw [show crossingStream.start + ([1] : Bytes).length = xlogSegSize by decide, Cuts, Cuts, Cuts,
    parse_xlogMsg (by decide) (by simp)]
  exact ⟨rfl, [], rfl, rfl⟩

/-- The two messages are taken in, the first byte as a chunk of segment 0. -/
theorem archive_independent_of_cuts_crossing :
    Unused ⟨1, 1⟩ 1 ⟨.empty⟩ ∧ Cuts crossingStream.start crossingInputs crossingStream.bytes ∧
    ∃ labels t c, Session ⟨1, 1⟩ 1 ⟨.empty⟩ (xlogSegSize - 1) crossingInputs labels t c ∧
      Covered ⟨1, 1⟩ 1 crossingStream.wal t.sim (xlogSegSize - 1) ∧
      Covered ⟨1, 1⟩ 1 crossingStream.wal t.sim xlogSegSize := by
  have hpos : 1 < xlogSegSize := by decide
  have hunused : Unused ⟨1, 1⟩ 1 ⟨.empty⟩ := fun n => ⟨rfl, fun o => rfl⟩
  obtain ⟨⟨labels, t, c, hses⟩, hall⟩ :=
    archive_independent_of_cuts ⟨1, 1⟩ 1 crossingStream hunused cuts_crossing
  have hcov := (hall labels t c hses).2.2.2.1
  have hstart : crossingStream.start = xlogSegSize - 1 := rfl
  have hstop : crossingStream.stop = xlogSegSize - 1 + 2 := rfl
  exact ⟨hunused, cuts_crossing, labels, t, c, hses, hcov _ (by omega) (by omega),
    hcov _ (by omega) (by omega)⟩

end Sessions

end Tiko.Wal

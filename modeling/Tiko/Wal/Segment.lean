import Tiko.Lib.Slices
import Tiko.Wal.Receiver

/-!
# The buffer of a segment

A connection that starts at LSN `a` and has taken the WAL `w` up to position `e` holds the part of the
current segment between the two. Its windows start at the first position it has seen of the segment.

* `SegState.Holds w a e`: buffer, windows and flags of the segment state say so;
* **`Holds.extend`**: this is kept by every piece, whatever its size, and the PUTs that are spawned are
  those of the windows that the piece completes.
-/

namespace Tiko.Wal

open Lib

namespace SegState

/-- The LSN at which the segment starts. -/
def base (st : SegState) : ℕ := st.segNo.toNat * xlogSegSize

/-- The offset in the segment at which a stream from LSN `a` enters it. -/
def origin (st : SegState) (a : ℕ) : ℕ := a - st.base

/-- The offset of a window whose PUT has been spawned. -/
def Window (st : SegState) (a o : ℕ) : Prop :=
  o < st.chunksUploaded ∧ ∃ j, o = st.origin a + j * chunkBytes

/-- The segment state of a connection from `a` that has taken the WAL up to `e`. -/
structure Holds (w : ℕ → UInt8) (a e : ℕ) (st : SegState) : Prop where
  start_le : a ≤ e
  base_le : st.base ≤ e
  start_lt : a < st.base + xlogSegSize
  le_end : e ≤ st.base + xlogSegSize
  buf_eq : st.buf = List.replicate (st.origin a) 0 ++
    slice w (st.base + st.origin a) (e - (st.base + st.origin a))
  isPartial_eq : st.isPartial = decide (st.base < a)
  grid : ∃ j, st.chunksUploaded = st.origin a + j * chunkBytes
  uploaded_le : st.base + st.chunksUploaded ≤ e
  tail_lt : e < st.base + st.chunksUploaded + chunkBytes

namespace Holds

variable {w : ℕ → UInt8} {a e : ℕ} {st : SegState}

theorem origin_le (h : Holds w a e st) : st.base + st.origin a ≤ e := by
  have := h.start_le
  have := h.base_le
  unfold origin
  omega

theorem length_buf (h : Holds w a e st) : st.buf.length = e - st.base := by
  have := h.origin_le
  rw [h.buf_eq, List.length_append, List.length_replicate, length_slice]
  omega

theorem length_buf_le (h : Holds w a e st) : st.buf.length ≤ xlogSegSize := by
  have := h.le_end
  rw [h.length_buf]
  omega

theorem origin_le_uploaded (h : Holds w a e st) : st.origin a ≤ st.chunksUploaded := by
  obtain ⟨j, hj⟩ := h.grid
  omega

/-- The buffer from an offset that the stream has covered. -/
theorem drop_buf (h : Holds w a e st) {o : ℕ} (ho : st.origin a ≤ o) :
    st.buf.drop o = slice w (st.base + o) (e - (st.base + o)) := by
  rw [h.buf_eq, List.drop_append, List.drop_of_length_le (by simpa using ho), List.nil_append,
    List.length_replicate, drop_slice,
    show st.base + st.origin a + (o - st.origin a) = st.base + o by omega,
    show e - (st.base + st.origin a) - (o - st.origin a) = e - (st.base + o) by omega]

theorem tail_eq (h : Holds w a e st) :
    st.tail = slice w (st.base + st.chunksUploaded) (e - (st.base + st.chunksUploaded)) :=
  h.drop_buf h.origin_le_uploaded

/-- A complete buffer of a segment that the stream has covered from its start. -/
theorem padded_eq (h : Holds w a e st) (he : e = st.base + xlogSegSize) (ha : a ≤ st.base) :
    st.padded = slice w st.base xlogSegSize := by
  have ho : st.origin a = 0 := by unfold origin; omega
  have hbuf : st.buf = slice w st.base xlogSegSize := by
    have hd := h.drop_buf (o := 0) (by omega)
    rw [List.drop_zero, Nat.add_zero, he, Nat.add_sub_cancel_left] at hd
    exact hd
  rw [padded, hbuf, length_slice, Nat.sub_self, List.replicate_zero, List.append_nil,
    List.take_of_length_le (by rw [length_slice])]

end Holds

/-! ## Windows -/

/-- The loop spawns the PUTs of all complete windows. -/
theorem spawnWindows_eq (st : SegState) : st.spawnWindows =
    { st with
      chunksUploaded := st.chunksUploaded +
        (st.buf.length - st.chunksUploaded) / chunkBytes * chunkBytes
      chunkTasks := st.chunkTasks ++
        (List.range ((st.buf.length - st.chunksUploaded) / chunkBytes)).map fun j =>
          (st.chunksUploaded + j * chunkBytes,
            (st.buf.drop (st.chunksUploaded + j * chunkBytes)).take chunkBytes) } := by
  have hpos := chunkBytes_pos
  fun_induction spawnWindows st with
  | case1 st hle ih =>
    rw [ih]
    have hq : (st.buf.length - st.chunksUploaded) / chunkBytes =
        (st.buf.length - (st.chunksUploaded + chunkBytes)) / chunkBytes + 1 := by
      rw [← Nat.sub_sub, ← Nat.add_div_right _ hpos, Nat.sub_add_cancel hle]
    simp only [hq, List.range_succ_eq_map, List.map_cons, List.map_map, List.append_assoc,
      List.singleton_append, Nat.zero_mul, Nat.add_zero, SegState.mk.injEq, true_and, and_true]
    refine ⟨by ring, ?_⟩
    congr 2
    refine List.map_congr_left fun j _ => ?_
    have hj : st.chunksUploaded + chunkBytes + j * chunkBytes =
        st.chunksUploaded + (j + 1) * chunkBytes := by ring
    simp only [Function.comp_apply, Nat.succ_eq_add_one, hj]
  | case2 st hlt =>
    have hq : (st.buf.length - st.chunksUploaded) / chunkBytes = 0 :=
      Nat.div_eq_of_lt (by omega)
    simp [hq]

variable {w : ℕ → UInt8} {a e k : ℕ} {st : SegState}

@[simp] theorem segNo_extend (piece : Bytes) : (st.extend piece).segNo = st.segNo := by
  rw [extend, spawnWindows_eq]

@[simp] theorem base_extend (piece : Bytes) : (st.extend piece).base = st.base := by
  rw [base, segNo_extend, base]

@[simp] theorem origin_extend (piece : Bytes) : (st.extend piece).origin a = st.origin a := by
  rw [origin, base_extend, origin]

@[simp] theorem taskFailed_extend (piece : Bytes) : (st.extend piece).taskFailed = st.taskFailed := by
  rw [extend, spawnWindows_eq]

/-- **A piece of the stream.** -/
theorem Holds.extend (h : Holds w a e st) (hk : e + k ≤ st.base + xlogSegSize) :
    Holds w a (e + k) (st.extend (slice w e k)) := by
  have hpos := chunkBytes_pos
  have horg := h.origin_le
  have hup := h.uploaded_le
  have hlen : (st.buf ++ slice w e k).length = e + k - st.base := by
    have := h.base_le
    rw [List.length_append, h.length_buf, length_slice]
    omega
  obtain ⟨j, hj⟩ := h.grid
  have hdm := Nat.div_add_mod (e + k - st.base - st.chunksUploaded) chunkBytes
  have hmod := Nat.mod_lt (e + k - st.base - st.chunksUploaded) hpos
  have hcu : (st.extend (slice w e k)).chunksUploaded = st.chunksUploaded +
      (e + k - st.base - st.chunksUploaded) / chunkBytes * chunkBytes := by
    rw [SegState.extend, spawnWindows_eq, hlen]
  rw [mul_comm] at hdm
  refine ⟨by have := h.start_le; omega, ?_, ?_, ?_, ?_, ?_, ?_, ?_, ?_⟩
  · rw [base_extend]
    have := h.base_le
    omega
  · rw [base_extend]
    exact h.start_lt
  · rw [base_extend]
    exact hk
  · rw [SegState.extend, spawnWindows_eq]
    change st.buf ++ slice w e k = List.replicate (st.origin a) 0 ++
      slice w (st.base + st.origin a) (e + k - (st.base + st.origin a))
    rw [h.buf_eq, List.append_assoc]
    congr 1
    have hcat := slice_append w (st.base + st.origin a) (e - (st.base + st.origin a)) k
    rw [Nat.add_sub_cancel' horg] at hcat
    rw [hcat]
    congr 1
    omega
  · rw [SegState.extend, spawnWindows_eq]
    exact h.isPartial_eq
  · refine ⟨j + (e + k - st.base - st.chunksUploaded) / chunkBytes, ?_⟩
    rw [hcu, origin_extend, hj]
    ring
  · rw [base_extend, hcu]
    omega
  · rw [base_extend, hcu]
    omega

theorem mem_chunkTasks_extend {piece : Bytes} {t : ℕ × Bytes} :
    t ∈ (st.extend piece).chunkTasks ↔ t ∈ st.chunkTasks ∨
      ∃ j < ((st.buf ++ piece).length - st.chunksUploaded) / chunkBytes,
        t = (st.chunksUploaded + j * chunkBytes,
          ((st.buf ++ piece).drop (st.chunksUploaded + j * chunkBytes)).take chunkBytes) := by
  rw [extend, spawnWindows_eq, List.mem_append, List.mem_map]
  simp only [List.mem_range, eq_comm]

/-- The window of a stream at an offset of the segment. -/
def windowAt (w : ℕ → UInt8) (st : SegState) (o : ℕ) : Bytes := slice w (st.base + o) chunkBytes

/-- The tasks that a piece adds are the PUTs of the windows that it completes. -/
theorem mem_chunkTasks_extend_iff (h : Holds w a e st) (hk : e + k ≤ st.base + xlogSegSize)
    (o : ℕ) (d : Bytes) : (o, d) ∈ (st.extend (slice w e k)).chunkTasks ↔
      (o, d) ∈ st.chunkTasks ∨ (st.chunksUploaded ≤ o ∧ (st.extend (slice w e k)).Window a o ∧
        d = windowAt w st o) := by
  have hpos := chunkBytes_pos
  have h' := h.extend hk
  have horg := h.origin_le_uploaded
  have hbase := h.base_le
  have hlen : (st.buf ++ slice w e k).length = e + k - st.base := by
    rw [List.length_append, h.length_buf, length_slice]
    omega
  have hcu : (st.extend (slice w e k)).chunksUploaded = st.chunksUploaded +
      (e + k - st.base - st.chunksUploaded) / chunkBytes * chunkBytes := by
    rw [SegState.extend, spawnWindows_eq, hlen]
  have hbuf : (st.extend (slice w e k)).buf = st.buf ++ slice w e k := by
    rw [SegState.extend, spawnWindows_eq]
  -- what is spawned at an offset is the window of the stream
  have hdata : ∀ o, st.chunksUploaded ≤ o → o + chunkBytes ≤ e + k - st.base →
      ((st.buf ++ slice w e k).drop o).take chunkBytes = windowAt w st o := by
    intro o ho hoe
    have hd := h'.drop_buf (o := o) (by rw [origin_extend]; omega)
    rw [hbuf, base_extend] at hd
    rw [hd, take_slice, windowAt, Nat.min_eq_left (by omega)]
  have hle : ∀ j, j < (e + k - st.base - st.chunksUploaded) / chunkBytes →
      st.chunksUploaded + j * chunkBytes + chunkBytes ≤ e + k - st.base := by
    intro j hj
    have hmul := Nat.mul_le_of_le_div _ _ _ (Nat.succ_le_of_lt hj)
    have hsucc : j.succ * chunkBytes = j * chunkBytes + chunkBytes := Nat.succ_mul j chunkBytes
    have hup := h.uploaded_le
    omega
  rw [mem_chunkTasks_extend, hlen]
  obtain ⟨j₀, hj₀⟩ := h.grid
  constructor
  · rintro (ht | ⟨j, hj, ht⟩)
    · exact .inl ht
    · obtain ⟨rfl, rfl⟩ := Prod.mk.inj ht
      refine .inr ⟨Nat.le_add_right _ _, ⟨?_, j₀ + j, ?_⟩, hdata _ (Nat.le_add_right _ _) (hle j hj)⟩
      · rw [hcu]
        have := Nat.mul_lt_mul_of_pos_right hj hpos
        omega
      · rw [origin_extend, hj₀]
        ring
  · rintro (ht | ⟨hge, ⟨hlt, j, hj⟩, hd⟩)
    · exact .inl ht
    · rw [origin_extend] at hj
      have hjj : o = st.chunksUploaded + (j - j₀) * chunkBytes := by
        have hj₀j : j₀ ≤ j := by
          by_contra hcon
          have := Nat.mul_lt_mul_of_pos_right (not_le.mp hcon) hpos
          omega
        rw [Nat.sub_mul]
        have := Nat.mul_le_mul_right chunkBytes hj₀j
        omega
      have hlt' : j - j₀ < (e + k - st.base - st.chunksUploaded) / chunkBytes := by
        by_contra hcon
        have := Nat.mul_le_mul_right chunkBytes (not_lt.mp hcon)
        omega
      refine .inr ⟨j - j₀, hlt', ?_⟩
      rw [hd, ← hjj, hdata o hge (by rw [hjj]; exact hle _ hlt')]

/-! ## The first piece -/

section FirstPiece

variable {segNo : UInt64}

@[simp] theorem segNo_startAt (segNo : UInt64) (o : ℕ) : (startAt segNo o).segNo = segNo := by
  unfold startAt
  split_ifs <;> rfl

@[simp] theorem chunkTasks_startAt (segNo : UInt64) (o : ℕ) : (startAt segNo o).chunkTasks = [] := by
  unfold startAt
  split_ifs <;> rfl

@[simp] theorem taskFailed_startAt (segNo : UInt64) (o : ℕ) :
    (startAt segNo o).taskFailed = false := by
  unfold startAt
  split_ifs <;> rfl

@[simp] theorem chunksUploaded_startAt (segNo : UInt64) (o : ℕ) :
    (startAt segNo o).chunksUploaded = o := by
  unfold startAt
  split_ifs with ho
  · rfl
  · exact (Nat.eq_zero_of_not_pos ho).symm

theorem buf_startAt (segNo : UInt64) (o : ℕ) : (startAt segNo o).buf = List.replicate o 0 := by
  unfold startAt
  split_ifs with ho
  · rfl
  · rw [Nat.eq_zero_of_not_pos ho]
    rfl

theorem isPartial_startAt (segNo : UInt64) (o : ℕ) : (startAt segNo o).isPartial = decide (0 < o) := by
  unfold startAt
  split_ifs with ho
  · exact (decide_eq_true ho).symm
  · exact (decide_eq_false ho).symm

theorem base_startAt (hn : segNo.toNat = e / xlogSegSize) (o : ℕ) :
    (startAt segNo o).base + e % xlogSegSize = e := by
  rw [base, segNo_startAt, hn, mul_comm]
  exact Nat.div_add_mod e xlogSegSize

/-- A stream enters a segment at its own start or at the start of the segment. -/
theorem origin_startAt (hn : segNo.toNat = e / xlogSegSize) (hae : a ≤ e)
    (hstart : a = e ∨ xlogSegSize ∣ e) (o : ℕ) : (startAt segNo o).origin a = e % xlogSegSize := by
  have hbase := base_startAt hn o
  unfold origin
  rcases hstart with rfl | hd
  · omega
  · have := Nat.mod_eq_zero_of_dvd hd
    omega

/-- The segment state before the first piece of a segment. -/
theorem holds_startAt (w : ℕ → UInt8) (hn : segNo.toNat = e / xlogSegSize) (hae : a ≤ e)
    (hstart : a = e ∨ xlogSegSize ∣ e) : Holds w a e (startAt segNo (e % xlogSegSize)) := by
  have hpos := chunkBytes_pos
  have hmod := Nat.mod_lt e xlogSegSize_pos
  have hbase := base_startAt hn (e % xlogSegSize)
  have horg := origin_startAt hn hae hstart (e % xlogSegSize)
  refine ⟨hae, by omega, by omega, by omega, ?_, ?_, ⟨0, ?_⟩, ?_, ?_⟩
  · rw [horg, hbase, Nat.sub_self, slice_zero, List.append_nil, buf_startAt]
  · rw [isPartial_startAt]
    unfold origin at horg
    exact decide_eq_decide.mpr (by omega)
  · rw [chunksUploaded_startAt, horg, Nat.zero_mul, Nat.add_zero]
  · rw [chunksUploaded_startAt]
    omega
  · rw [chunksUploaded_startAt]
    omega

/-- No window is complete before the first piece. -/
theorem not_window_startAt (hn : segNo.toNat = e / xlogSegSize) (hae : a ≤ e)
    (hstart : a = e ∨ xlogSegSize ∣ e) (o : ℕ) :
    ¬ (startAt segNo (e % xlogSegSize)).Window a o := by
  rintro ⟨hlt, j, hj⟩
  rw [origin_startAt hn hae hstart] at hj
  rw [chunksUploaded_startAt] at hlt
  omega

end FirstPiece

end SegState

end Tiko.Wal

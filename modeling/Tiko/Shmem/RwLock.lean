import Tiko.Lib.Reach

/-!
# The reader-writer lock

`AtomicRWLock`: one 32-bit word in shared memory. `-1` is a write lock, bit 30 announces a writer that
waits for readers, the bits below count the readers. Any number of threads take single atomic
operations in any order; a thread here is one user of the lock, in one call or with one guard at a
time, and a weak compare-exchange may fail for no reason.

* `RwLock.step`: the operations of `read`, `write`, `try_write` and of the guards' drops;
* `RwLock.Inv`: what the word says about the guards, and what a thread that is about to exchange it
  has seen;
* **`RwLock.correct`**: exclusion, the word, `try_write` and the pending bit, in all reachable states.
-/

namespace Tiko

open Lib

namespace RwLock

/-- `EXCLUSIVE`, which is `-1`. -/
def exclusive : BitVec 32 := 0xFFFFFFFF#32

/-- `WRITER_PENDING`, bit 30. -/
def writerPending : BitVec 32 := 0x40000000#32

/-- `READER_MASK`, bits 0 to 29. -/
def readerMask : BitVec 32 := 0x3FFFFFFF#32

/-- The next atomic operation of a thread. -/
inductive Pc where
  /-- In no call and with no guard. -/
  | idle
  /-- `read`: the load. -/
  | readLoad
  /-- `read`: the exchange of the value that was loaded. -/
  | readCas (s : BitVec 32)
  /-- Holds a `ReadGuard`. -/
  | reading
  /-- `write`: the fast path. -/
  | writeFast
  /-- `write`: the load after the fast path has failed. -/
  | writeLoad
  /-- `write`: the exchange that sets the pending bit of the value that was loaded. -/
  | writePend (s : BitVec 32)
  /-- `write`: the exchange of the pending bit alone. -/
  | writeCas
  /-- Holds a `WriteGuard`. -/
  | writing
  /-- `try_write`: the exchange. -/
  | tryWrite
  deriving DecidableEq

/-- A call. -/
inductive Op where
  | read | write | tryWrite
  deriving DecidableEq

/-- The first operation of a call. -/
def Op.start : Op → Pc
  | .read => .readLoad
  | .write => .writeFast
  | .tryWrite => .tryWrite

/-- What happens next. -/
inductive Label (T : Type) where
  /-- An idle thread makes a call. -/
  | call (t : T) (op : Op)
  /-- A thread in a call takes its next operation; `spurious` lets a weak exchange fail. -/
  | run (t : T) (spurious : Bool)
  /-- A guard is dropped. -/
  | drop (t : T)

end RwLock

open RwLock in
/-- `AtomicRWLock`, with the threads that use it. -/
structure RwLock (T : Type) where
  state : BitVec 32
  pcs : T → Pc

namespace RwLock

variable {T : Type} [DecidableEq T]

/-- `AtomicRWLock::init`, with no thread in a call. -/
def init : RwLock T := ⟨0, fun _ => .idle⟩

/-- A thread goes on. -/
def goto (s : RwLock T) (t : T) (pc : Pc) : RwLock T := ⟨s.state, Function.update s.pcs t pc⟩

/-- A thread stores a word and goes on. -/
def put (s : RwLock T) (t : T) (w : BitVec 32) (pc : Pc) : RwLock T :=
  ⟨w, Function.update s.pcs t pc⟩

/-- One operation of a thread in a call. -/
def operate (s : RwLock T) (t : T) (spurious : Bool) : Pc → Option (RwLock T)
  | .idle | .reading | .writing => none
  | .readLoad =>
    if 0 ≤ s.state.toInt ∧ s.state &&& writerPending = 0 then some (s.goto t (.readCas s.state))
    else some (s.goto t .readLoad)
  | .readCas w =>
    if !spurious ∧ s.state = w then some (s.put t (w + 1) .reading) else some (s.goto t .readLoad)
  | .writeFast =>
    if !spurious ∧ s.state = 0 then some (s.put t exclusive .writing) else some (s.goto t .writeLoad)
  | .writeLoad =>
    if s.state = exclusive then some (s.goto t .writeFast)
    else if s.state &&& writerPending = 0 then some (s.goto t (.writePend s.state))
    else if s.state &&& readerMask = 0 then some (s.goto t .writeCas)
    else some (s.goto t .writeFast)
  | .writePend w =>
    -- the result of the exchange is ignored
    if !spurious ∧ s.state = w then some (s.put t (w ||| writerPending) .writeFast)
    else some (s.goto t .writeFast)
  | .writeCas =>
    if !spurious ∧ s.state = writerPending then some (s.put t exclusive .writing)
    else some (s.goto t .writeFast)
  | .tryWrite =>
    -- a strong exchange
    if s.state = 0 then some (s.put t exclusive .writing) else some (s.goto t .idle)

/-- One step of the system. -/
def step (s : RwLock T) : Label T → Option (RwLock T)
  | .call t op => if s.pcs t = .idle then some (s.goto t op.start) else none
  | .run t spurious => s.operate t spurious (s.pcs t)
  | .drop t =>
    match s.pcs t with
    | .reading => some (s.put t (s.state - 1) .idle)
    | .writing => some (s.put t 0 .idle)
    | _ => none

/-- `is_in_write`. -/
def isInWrite (s : RwLock T) : Bool := s.state == exclusive

variable [Fintype T]

/-- The threads with a read guard. -/
def readers (s : RwLock T) : Finset T := Finset.univ.filter fun t => s.pcs t = .reading

/-! ## The word -/

/-- The word with `n` readers and the pending bit `p`. -/
def wordOf (n : ℕ) (p : Bool) : BitVec 32 := BitVec.ofNat 32 (n + if p then 2 ^ 30 else 0)

theorem wordOf_false (n : ℕ) : wordOf n false = BitVec.ofNat 32 n := rfl

theorem toNat_wordOf {n : ℕ} (hn : n < 2 ^ 30) (p : Bool) :
    (wordOf n p).toNat = n + if p then 2 ^ 30 else 0 := by
  rw [wordOf, BitVec.toNat_ofNat]
  cases p <;> simp <;> omega

theorem wordOf_true {n : ℕ} (hn : n < 2 ^ 30) :
    wordOf n true = BitVec.ofNat 32 n ||| writerPending := by
  apply BitVec.eq_of_toNat_eq
  have hor := Nat.two_pow_add_eq_or_of_lt hn 1
  rw [toNat_wordOf hn, BitVec.toNat_or, BitVec.toNat_ofNat, Nat.mod_eq_of_lt (by omega),
    Nat.or_comm, if_pos rfl, Nat.add_comm]
  exact hor

theorem wordOf_ne_exclusive {n : ℕ} (hn : n < 2 ^ 30) (p : Bool) : wordOf n p ≠ exclusive := by
  intro h
  have h := congrArg BitVec.toNat h
  rw [toNat_wordOf hn] at h
  simp only [exclusive, BitVec.toNat_ofNat] at h
  split_ifs at h <;> omega

/-- The pending bit of a word. -/
theorem wordOf_and_writerPending {n : ℕ} (hn : n < 2 ^ 30) (p : Bool) :
    wordOf n p &&& writerPending = 0 ↔ p = false := by
  have hbit : (n + if p then 2 ^ 30 else 0).testBit 30 = p := by
    cases p
    · simpa using Nat.testBit_lt_two_pow hn
    · rw [if_pos rfl, Nat.add_comm, Nat.testBit_two_pow_add_eq, Nat.testBit_lt_two_pow hn]
      rfl
  have hget : (wordOf n p).getLsbD 30 = p := by
    rw [BitVec.getLsbD, toNat_wordOf hn, hbit]
  rw [show writerPending = BitVec.twoPow 32 30 from rfl, BitVec.and_twoPow, hget]
  cases p <;> simp
  decide

theorem wordOf_eq_zero {n : ℕ} (hn : n < 2 ^ 30) {p : Bool} (h : wordOf n p = 0) :
    n = 0 ∧ p = false := by
  have h := congrArg BitVec.toNat h
  rw [toNat_wordOf hn] at h
  cases p <;> simp at h ⊢
  exact h

theorem wordOf_eq_writerPending {n : ℕ} (hn : n < 2 ^ 30) {p : Bool}
    (h : wordOf n p = writerPending) : n = 0 := by
  have h := congrArg BitVec.toNat h
  rw [toNat_wordOf hn] at h
  simp only [writerPending, BitVec.toNat_ofNat] at h
  split_ifs at h <;> omega

/-- A reader enters. -/
theorem wordOf_add_one (n : ℕ) (p : Bool) : wordOf n p + 1 = wordOf (n + 1) p := by
  rw [wordOf, wordOf, Nat.add_right_comm, BitVec.ofNat_add _ 1]
  rfl

/-- A reader leaves. -/
theorem wordOf_sub_one {n : ℕ} (hn : 0 < n) (p : Bool) : wordOf n p - 1 = wordOf (n - 1) p := by
  obtain ⟨m, rfl⟩ : ∃ m, n = m + 1 := ⟨n - 1, by omega⟩
  rw [← wordOf_add_one, BitVec.add_sub_cancel, Nat.add_sub_cancel]

/-! ## The invariant -/

/-- A thread with a guard. -/
def Pc.guard : Pc → Bool
  | .reading | .writing => true
  | _ => false

/-- The value that a thread is about to exchange. -/
def Pc.expected : Pc → Option (BitVec 32)
  | .readCas w | .writePend w => some w
  | _ => none

/-- `t` holds the write lock. -/
structure Exclusive (s : RwLock T) (t : T) : Prop where
  writing : s.pcs t = .writing
  only : ∀ t', s.pcs t' = .writing → t' = t
  readers : s.readers = ∅
  state : s.state = exclusive

/-- Nobody holds the write lock; `p` is the pending bit. -/
structure Shared (s : RwLock T) (p : Bool) : Prop where
  writing : ∀ t, s.pcs t ≠ .writing
  state : s.state = wordOf s.readers.card p

/-- The word agrees with the guards, and exchanges that set a bit or add a reader expect a word without
the pending bit. -/
structure Inv (s : RwLock T) : Prop where
  expected : ∀ t w, (s.pcs t).expected = some w → w &&& writerPending = 0
  word : (∃ t, s.Exclusive t) ∨ ∃ p, s.Shared p

omit [DecidableEq T] in
theorem mem_readers {s : RwLock T} {t : T} : t ∈ s.readers ↔ s.pcs t = .reading := by
  simp [readers]

omit [DecidableEq T] in
theorem inv_init : (init : RwLock T).Inv := by
  refine ⟨fun t w h => absurd h (by simp [init, Pc.expected]), .inr ⟨false, fun t => ?_, ?_⟩⟩
  · simp [init]
  · have hnone : (init : RwLock T).readers = ∅ := by
      ext t
      simp [mem_readers, init]
    rw [hnone]
    rfl

section Steps

variable {s : RwLock T} {t : T} {w : BitVec 32} {pc : Pc}

omit [Fintype T] in
theorem pcs_put_self : (s.put t w pc).pcs t = pc := Function.update_self ..

omit [Fintype T] in
theorem pcs_put_of_ne {t' : T} (h : t' ≠ t) : (s.put t w pc).pcs t' = s.pcs t' :=
  Function.update_of_ne h ..

theorem readers_put_reading : (s.put t w .reading).readers = insert t s.readers := by
  ext t'
  rw [Finset.mem_insert, mem_readers, mem_readers]
  by_cases h : t' = t
  · rw [h, pcs_put_self]
    simp
  · rw [pcs_put_of_ne h]
    simp [h]

theorem readers_put (hpc : pc ≠ .reading) : (s.put t w pc).readers = s.readers.erase t := by
  ext t'
  rw [Finset.mem_erase, mem_readers, mem_readers]
  by_cases h : t' = t
  · rw [h, pcs_put_self]
    simp [hpc]
  · rw [pcs_put_of_ne h]
    simp [h]

/-- Nothing changes for the guards when a thread without one goes on without one. -/
theorem readers_put_of_guard (hold : (s.pcs t).guard = false) (hnew : pc.guard = false) :
    (s.put t w pc).readers = s.readers := by
  have hpc : pc ≠ .reading := by
    rintro rfl
    exact absurd hnew (by decide)
  rw [readers_put hpc, Finset.erase_eq_of_notMem]
  rw [mem_readers]
  intro h
  rw [h] at hold
  exact absurd hold (by decide)

omit [Fintype T] in
theorem writing_put_of_guard (hold : (s.pcs t).guard = false) (hnew : pc.guard = false) (t' : T) :
    (s.put t w pc).pcs t' = .writing ↔ s.pcs t' = .writing := by
  by_cases h : t' = t
  · rw [h, pcs_put_self]
    refine iff_of_false (fun hpc => ?_) fun hpc => ?_
    · rw [hpc] at hnew
      exact absurd hnew (by decide)
    · rw [hpc] at hold
      exact absurd hold (by decide)
  · rw [pcs_put_of_ne h]

variable (hcard : Fintype.card T < 2 ^ 30)

omit [DecidableEq T] in
include hcard in
theorem card_readers_lt (s : RwLock T) : s.readers.card < 2 ^ 30 :=
  lt_of_le_of_lt (Finset.card_le_univ _) hcard

theorem expected_put (h : s.Inv) (hpc : ∀ v, pc.expected = some v → v &&& writerPending = 0) :
    ∀ t' v, ((s.put t w pc).pcs t').expected = some v → v &&& writerPending = 0 := by
  intro t' v hv
  by_cases ht : t' = t
  · rw [ht, pcs_put_self] at hv
    exact hpc v hv
  · rw [pcs_put_of_ne ht] at hv
    exact h.expected t' v hv

/-- A thread without a guard goes on without one and leaves the word. -/
theorem Inv.goto (h : s.Inv) (hold : (s.pcs t).guard = false) (hnew : pc.guard = false)
    (hpc : ∀ v, pc.expected = some v → v &&& writerPending = 0) : (s.goto t pc).Inv := by
  refine ⟨expected_put (w := s.state) h hpc, ?_⟩
  have hreaders : (s.goto t pc).readers = s.readers := readers_put_of_guard (w := s.state) hold hnew
  have hwriting : ∀ t', (s.goto t pc).pcs t' = .writing ↔ s.pcs t' = .writing :=
    writing_put_of_guard (w := s.state) hold hnew
  rcases h.word with ⟨u, hu⟩ | ⟨p, hp⟩
  · left
    refine ⟨u, (hwriting u).mpr hu.writing, fun t' ht' => hu.only t' ((hwriting t').mp ht'), ?_,
      hu.state⟩
    rw [hreaders, hu.readers]
  · right
    refine ⟨p, fun t' ht' => hp.writing t' ((hwriting t').mp ht'), ?_⟩
    rw [hreaders]
    exact hp.state

omit [DecidableEq T] in
theorem Inv.shared_of_ne (h : s.Inv) (hne : s.state ≠ exclusive) : ∃ p, s.Shared p := by
  rcases h.word with ⟨u, hu⟩ | hp
  · exact absurd hu.state hne
  · exact hp

omit [DecidableEq T] in
include hcard in
/-- A word without the pending bit counts the readers. -/
theorem Inv.shared_of_and (h : s.Inv) (hand : s.state &&& writerPending = 0) : s.Shared false := by
  have hne : s.state ≠ exclusive := by
    intro he
    rw [he] at hand
    exact absurd hand (by decide)
  obtain ⟨p, hp⟩ := h.shared_of_ne hne
  rw [hp.state, wordOf_and_writerPending (card_readers_lt hcard s)] at hand
  rw [← hand]
  exact hp

/-- A reader enters. -/
theorem Inv.enter (h : s.Inv) (hcard : Fintype.card T < 2 ^ 30) (hold : (s.pcs t).guard = false)
    (hand : s.state &&& writerPending = 0) : (s.put t (s.state + 1) .reading).Inv := by
  have hp := h.shared_of_and hcard hand
  refine ⟨expected_put h fun v hv => absurd hv (by simp [Pc.expected]), .inr ⟨false, fun t' => ?_, ?_⟩⟩
  · by_cases ht : t' = t
    · rw [ht, pcs_put_self]
      decide
    · rw [pcs_put_of_ne ht]
      exact hp.writing t'
  · have hnot : t ∉ s.readers := by
      rw [mem_readers]
      intro hr
      rw [hr] at hold
      exact absurd hold (by decide)
    rw [readers_put_reading, Finset.card_insert_of_notMem hnot, ← wordOf_add_one, ← hp.state]
    rfl

/-- A writer takes the lock. -/
theorem Inv.acquire (h : s.Inv) (hcard : Fintype.card T < 2 ^ 30)
    (hstate : s.state = 0 ∨ s.state = writerPending) : (s.put t exclusive .writing).Inv := by
  have hne : s.state ≠ exclusive := by
    rcases hstate with he | he <;> rw [he] <;> decide
  obtain ⟨p, hp⟩ := h.shared_of_ne hne
  have hzero : s.readers.card = 0 := by
    rw [hp.state] at hstate
    rcases hstate with he | he
    · exact (wordOf_eq_zero (card_readers_lt hcard s) he).1
    · exact wordOf_eq_writerPending (card_readers_lt hcard s) he
  refine ⟨expected_put h fun v hv => absurd hv (by simp [Pc.expected]), .inl ⟨t, pcs_put_self, ?_, ?_,
    rfl⟩⟩
  · intro t' ht'
    by_contra hne'
    rw [pcs_put_of_ne hne'] at ht'
    exact hp.writing t' ht'
  · rw [readers_put (by decide), Finset.card_eq_zero.mp hzero]
    rfl

/-- A writer announces itself. -/
theorem Inv.announce (h : s.Inv) (hcard : Fintype.card T < 2 ^ 30) (hold : (s.pcs t).guard = false)
    (hand : s.state &&& writerPending = 0) :
    (s.put t (s.state ||| writerPending) .writeFast).Inv := by
  have hp := h.shared_of_and hcard hand
  have hreaders : (s.put t (s.state ||| writerPending) .writeFast).readers = s.readers :=
    readers_put_of_guard hold rfl
  refine ⟨expected_put h fun v hv => absurd hv (by simp [Pc.expected]), .inr ⟨true, fun t' ht' => ?_,
    ?_⟩⟩
  · exact hp.writing t' ((writing_put_of_guard hold rfl t').mp ht')
  · rw [hreaders, wordOf_true (card_readers_lt hcard s), ← wordOf_false, ← hp.state]
    rfl

/-- A reader leaves. -/
theorem Inv.leave (h : s.Inv) (hr : s.pcs t = .reading) : (s.put t (s.state - 1) .idle).Inv := by
  have hmem : t ∈ s.readers := mem_readers.mpr hr
  rcases h.word with ⟨u, hu⟩ | ⟨p, hp⟩
  · rw [hu.readers] at hmem
    exact absurd hmem (Finset.notMem_empty t)
  refine ⟨expected_put h fun v hv => absurd hv (by simp [Pc.expected]), .inr ⟨p, fun t' => ?_, ?_⟩⟩
  · by_cases ht : t' = t
    · rw [ht, pcs_put_self]
      decide
    · rw [pcs_put_of_ne ht]
      exact hp.writing t'
  · have hpos : 0 < s.readers.card := Finset.card_pos.mpr ⟨t, hmem⟩
    rw [readers_put (by decide), Finset.card_erase_of_mem hmem, ← wordOf_sub_one hpos, ← hp.state]
    rfl

/-- A writer leaves. -/
theorem Inv.unlock (h : s.Inv) (hw : s.pcs t = .writing) : (s.put t 0 .idle).Inv := by
  rcases h.word with ⟨u, hu⟩ | ⟨p, hp⟩
  · refine ⟨expected_put h fun v hv => absurd hv (by simp [Pc.expected]), .inr ⟨false, fun t' => ?_, ?_⟩⟩
    · by_cases ht : t' = t
      · rw [ht, pcs_put_self]
        decide
      · rw [pcs_put_of_ne ht]
        intro ht'
        exact ht ((hu.only t' ht').trans (hu.only t hw).symm)
    · rw [readers_put (by decide), hu.readers]
      rfl
  · exact absurd hw (hp.writing t)

/-! ## What a step does -/

/-- The effects of a step on the word and on the thread that takes it. -/
inductive Effect (s : RwLock T) (t : T) : RwLock T → Prop where
  /-- The word stays, and the thread gets no guard. -/
  | goto (pc : Pc) (hold : (s.pcs t).guard = false) (hnew : pc.guard = false)
      (hpc : ∀ v, pc.expected = some v → v &&& writerPending = 0) : Effect s t (s.goto t pc)
  | enter (hpc : (s.pcs t).expected = some s.state) (hold : (s.pcs t).guard = false) :
      Effect s t (s.put t (s.state + 1) .reading)
  | acquire (hold : (s.pcs t).guard = false)
      (hstate : s.state = 0 ∨ s.state = writerPending ∧ s.pcs t ≠ .tryWrite) :
      Effect s t (s.put t exclusive .writing)
  | announce (hpc : (s.pcs t).expected = some s.state) (hold : (s.pcs t).guard = false) :
      Effect s t (s.put t (s.state ||| writerPending) .writeFast)
  | leave (hr : s.pcs t = .reading) : Effect s t (s.put t (s.state - 1) .idle)
  | unlock (hw : s.pcs t = .writing) : Effect s t (s.put t 0 .idle)

omit [Fintype T] in
theorem effect_operate {s' : RwLock T} {spurious : Bool}
    (h : s.operate t spurious (s.pcs t) = some s') : Effect s t s' := by
  have hgoto : ∀ pc : Pc, pc.guard = false → pc.expected = none → (s.pcs t).guard = false →
      Effect s t (s.goto t pc) := by
    intro pc hnew hexp hold
    exact .goto pc hold hnew fun v hv => absurd (hexp.symm.trans hv) (by simp)
  cases hpc : s.pcs t with
  | idle => rw [hpc] at h; exact absurd h (by simp [operate])
  | reading => rw [hpc] at h; exact absurd h (by simp [operate])
  | writing => rw [hpc] at h; exact absurd h (by simp [operate])
  | readLoad =>
    rw [hpc, operate] at h
    have hold : (s.pcs t).guard = false := by rw [hpc]; rfl
    split_ifs at h with hs <;> rw [← Option.some.inj h]
    · refine .goto _ hold rfl fun v hv => ?_
      rw [← Option.some.inj hv]
      exact hs.2
    · exact hgoto _ rfl rfl hold
  | readCas w =>
    rw [hpc, operate] at h
    have hold : (s.pcs t).guard = false := by rw [hpc]; rfl
    split_ifs at h with hs <;> rw [← Option.some.inj h]
    · rw [← hs.2]
      exact .enter (by rw [hpc, hs.2]; rfl) hold
    · exact hgoto _ rfl rfl hold
  | writeFast =>
    rw [hpc, operate] at h
    have hold : (s.pcs t).guard = false := by rw [hpc]; rfl
    split_ifs at h with hs <;> rw [← Option.some.inj h]
    · exact .acquire hold (.inl hs.2)
    · exact hgoto _ rfl rfl hold
  | writeLoad =>
    rw [hpc, operate] at h
    have hold : (s.pcs t).guard = false := by rw [hpc]; rfl
    split_ifs at h with hx hp hr <;> rw [← Option.some.inj h]
    · exact hgoto _ rfl rfl hold
    · refine .goto _ hold rfl fun v hv => ?_
      rw [← Option.some.inj hv]
      exact hp
    · exact hgoto _ rfl rfl hold
    · exact hgoto _ rfl rfl hold
  | writePend w =>
    rw [hpc, operate] at h
    have hold : (s.pcs t).guard = false := by rw [hpc]; rfl
    split_ifs at h with hs <;> rw [← Option.some.inj h]
    · rw [← hs.2]
      exact .announce (by rw [hpc, hs.2]; rfl) hold
    · exact hgoto _ rfl rfl hold
  | writeCas =>
    rw [hpc, operate] at h
    have hold : (s.pcs t).guard = false := by rw [hpc]; rfl
    split_ifs at h with hs <;> rw [← Option.some.inj h]
    · exact .acquire hold (.inr ⟨hs.2, by rw [hpc]; decide⟩)
    · exact hgoto _ rfl rfl hold
  | tryWrite =>
    rw [hpc, operate] at h
    have hold : (s.pcs t).guard = false := by rw [hpc]; rfl
    split_ifs at h with hs <;> rw [← Option.some.inj h]
    · exact .acquire hold (.inl hs)
    · exact hgoto _ rfl rfl hold

omit [Fintype T] in
/-- **What a step can do.** -/
theorem effect_of_step {s' : RwLock T} {l : Label T} (h : s.step l = some s') :
    ∃ t, Effect s t s' := by
  cases l with
  | call t op =>
    rw [step] at h
    split_ifs at h with hidle
    rw [← Option.some.inj h]
    refine ⟨t, .goto _ (by rw [hidle]; rfl) (by cases op <;> rfl) fun v hv => ?_⟩
    cases op <;> exact absurd hv (by simp [Op.start, Pc.expected])
  | run t spurious => exact ⟨t, effect_operate h⟩
  | drop t =>
    rw [step] at h
    cases hpc : s.pcs t with
    | reading =>
      rw [hpc] at h
      rw [← Option.some.inj h]
      exact ⟨t, .leave hpc⟩
    | writing =>
      rw [hpc] at h
      rw [← Option.some.inj h]
      exact ⟨t, .unlock hpc⟩
    | _ => rw [hpc] at h; exact absurd h (by simp)

include hcard in
theorem Inv.step (h : s.Inv) {s' : RwLock T} {l : Label T} (hstep : s.step l = some s') : s'.Inv := by
  obtain ⟨t, he⟩ := effect_of_step hstep
  cases he with
  | goto pc hold hnew hpc => exact h.goto hold hnew hpc
  | enter hpc hold => exact h.enter hcard hold (h.expected t _ hpc)
  | acquire hold hstate => exact h.acquire hcard (hstate.imp_right And.left)
  | announce hpc hold => exact h.announce hcard hold (h.expected t _ hpc)
  | leave hr => exact h.leave hr
  | unlock hw => exact h.unlock hw

include hcard in
theorem inv_of_reaches (h : Reaches step (fun _ _ => True) init s) : s.Inv :=
  h.invariant inv_init fun _ _ _ hi _ hs => hi.step hcard hs

/-! ## The pending bit -/

include hcard in
/-- While the pending bit is set, a step lets no reader in, and it keeps the bit unless it gives a writer
the lock. -/
theorem Shared.step (hp : s.Shared true) (hi : s.Inv) {s' : RwLock T} {l : Label T}
    (hstep : s.step l = some s') : s'.readers ⊆ s.readers ∧
      ((∀ t, s'.pcs t ≠ .writing) → s'.Shared true) := by
  obtain ⟨t, he⟩ := effect_of_step hstep
  have hbit : s.state &&& writerPending ≠ 0 := by
    rw [hp.state, Ne, wordOf_and_writerPending (card_readers_lt hcard s)]
    decide
  cases he with
  | goto pc hold hnew hpc =>
    have hreaders : (s.goto t pc).readers = s.readers :=
      readers_put_of_guard (w := s.state) hold hnew
    rw [hreaders]
    refine ⟨Finset.Subset.refl _, fun hno => ⟨hno, ?_⟩⟩
    rw [hreaders]
    exact hp.state
  | enter hpc hold => exact absurd (hi.expected t _ hpc) hbit
  | acquire hold hstate =>
    rw [readers_put (by decide)]
    exact ⟨Finset.erase_subset _ _, fun hno => absurd pcs_put_self (hno t)⟩
  | announce hpc hold => exact absurd (hi.expected t _ hpc) hbit
  | leave hr =>
    rw [readers_put (by decide)]
    refine ⟨Finset.erase_subset _ _, fun hno => ⟨hno, ?_⟩⟩
    have hmem : t ∈ s.readers := mem_readers.mpr hr
    rw [readers_put (by decide), Finset.card_erase_of_mem hmem,
      ← wordOf_sub_one (Finset.card_pos.mpr ⟨t, hmem⟩), ← hp.state]
    rfl
  | unlock hw => exact absurd hw (hp.writing t)

/-- The step does not end with a writer that holds the lock. -/
def NoWriter (s : RwLock T) (l : Label T) : Prop :=
  ∀ s', s.step l = some s' → ∀ t, s'.pcs t ≠ .writing

include hcard in
theorem Shared.reaches (hp : s.Shared true) (hi : s.Inv) {s' : RwLock T}
    (h : Reaches RwLock.step NoWriter s s') : s'.Shared true ∧ s'.Inv := by
  refine h.invariant (I := fun s' => s'.Shared true ∧ s'.Inv) ⟨hp, hi⟩ ?_
  intro s₁ l s₂ h₁ hno hs
  exact ⟨(h₁.1.step hcard h₁.2 hs).2 (hno s₂ hs), h₁.2.step hcard hs⟩

/-! ## Correctness -/

/-- What the lock guarantees in a state. -/
structure Correct (s : RwLock T) : Prop where
  /-- A write guard exists alone. -/
  exclusion : ∀ t t', s.pcs t = .writing → t' ≠ t → (s.pcs t').guard = false
  /-- The word while a write guard exists. -/
  locked : ∀ t, s.pcs t = .writing → s.state = exclusive
  /-- The word otherwise. -/
  unlocked : (∀ t, s.pcs t ≠ .writing) → s.state = BitVec.ofNat 32 s.readers.card ∨
    s.state = BitVec.ofNat 32 s.readers.card ||| writerPending
  /-- `try_write` returns a guard only when there is none and no writer is pending. -/
  tryWrite : ∀ t spurious s', s.pcs t = .tryWrite → s.step (.run t spurious) = some s' →
    s'.pcs t = .writing → (∀ t', (s.pcs t').guard = false) ∧ s.state &&& writerPending = 0
  /-- Once the pending bit is set, no step makes a new reader until a writer has held the lock. -/
  pending : (∀ t, s.pcs t ≠ .writing) → s.state &&& writerPending ≠ 0 →
    ∀ s₁, Reaches RwLock.step NoWriter s s₁ → ∀ l s₂, s₁.step l = some s₂ →
      ∀ t, s₂.pcs t = .reading → s₁.pcs t = .reading

omit [DecidableEq T] in
include hcard in
theorem Inv.guard_eq_false (h : s.Inv) (hzero : s.state = 0) (t : T) : (s.pcs t).guard = false := by
  have hp := h.shared_of_and hcard (by rw [hzero]; decide)
  have hcount := hp.state
  rw [hzero] at hcount
  have hnone := (wordOf_eq_zero (card_readers_lt hcard s) hcount.symm).1
  cases hpc : s.pcs t with
  | reading =>
    rw [Finset.card_eq_zero] at hnone
    exact absurd (mem_readers.mpr hpc) (by rw [hnone]; exact Finset.notMem_empty t)
  | writing => exact absurd hpc (hp.writing t)
  | _ => rfl

omit [DecidableEq T] in
/-- `is_in_write` tells whether a write guard exists. -/
theorem Inv.isInWrite_iff (h : s.Inv) (hcard : Fintype.card T < 2 ^ 30) :
    s.isInWrite = true ↔ ∃ t, s.pcs t = .writing := by
  rw [isInWrite, beq_iff_eq]
  rcases h.word with ⟨u, hu⟩ | ⟨p, hp⟩
  · exact iff_of_true hu.state ⟨u, hu.writing⟩
  · refine iff_of_false ?_ fun hw => hp.writing hw.choose hw.choose_spec
    rw [hp.state]
    exact wordOf_ne_exclusive (card_readers_lt hcard s) p

/-- **The lock is a correct reader-writer lock**, in every state that any number of threads below 2^30
reach in any order of their operations. -/
theorem correct {T : Type} [DecidableEq T] [Fintype T] (hcard : Fintype.card T < 2 ^ 30)
    {s : RwLock T} (h : Reaches step (fun _ _ => True) init s) : s.Correct := by
  have hi := inv_of_reaches hcard h
  constructor
  · intro t t' hw hne
    rcases hi.word with ⟨u, hu⟩ | ⟨p, hp⟩
    · cases hpc : s.pcs t' with
      | reading =>
        have hmem : t' ∈ s.readers := mem_readers.mpr hpc
        rw [hu.readers] at hmem
        exact absurd hmem (Finset.notMem_empty t')
      | writing => exact absurd ((hu.only t' hpc).trans (hu.only t hw).symm) hne
      | _ => rfl
    · exact absurd hw (hp.writing t)
  · intro t hw
    rcases hi.word with ⟨u, hu⟩ | ⟨p, hp⟩
    · exact hu.state
    · exact absurd hw (hp.writing t)
  · intro hno
    rcases hi.word with ⟨u, hu⟩ | ⟨p, hp⟩
    · exact absurd hu.writing (hno u)
    · cases p with
      | false => exact .inl hp.state
      | true => exact .inr (hp.state.trans (wordOf_true (card_readers_lt hcard s)))
  · intro t spurious s' hpc hstep hw
    rw [step, hpc, operate] at hstep
    split_ifs at hstep with hzero
    · exact ⟨hi.guard_eq_false hcard hzero, by rw [hzero]; decide⟩
    · rw [← Option.some.inj hstep] at hw
      exact absurd ((pcs_put_self (w := s.state)).symm.trans hw) (by decide)
  · intro hno hbit s₁ hs₁ l s₂ hs₂ t ht
    rcases hi.word with ⟨u, hu⟩ | ⟨p, hp⟩
    · exact absurd hu.writing (hno u)
    · have hpend : p = true := by
        rw [hp.state, Ne, wordOf_and_writerPending (card_readers_lt hcard s)] at hbit
        simpa using hbit
      subst hpend
      obtain ⟨hp₁, hi₁⟩ := hp.reaches hcard hi hs₁
      exact mem_readers.mp ((hp₁.step hcard hi₁ hs₂).1 (mem_readers.mpr ht))

end Steps

/-- Three threads: the second reads while the first announces itself and waits. -/
theorem correct_three : ∃ s : RwLock (Fin 3),
    run step init [.call 1 .read, .run 1 false, .run 1 false, .call 0 .write, .run 0 true, .run 0 false,
      .run 0 false] = some s ∧ s.state = 0x40000001#32 ∧ s.Correct := by
  let ls : List (Label (Fin 3)) := [.call 1 .read, .run 1 false, .run 1 false, .call 0 .write,
    .run 0 true, .run 0 false, .run 0 false]
  cases hrun : run step init ls with
  | none => exact absurd (congrArg Option.isSome hrun) (by decide)
  | some s =>
    refine ⟨s, rfl, ?_, correct (by decide) (reaches_of_run hrun (throughout_true _ _))⟩
    have hstate : (run step init ls).map RwLock.state = some 0x40000001#32 := by decide
    rw [hrun] at hstate
    exact Option.some.inj hstate

end RwLock

end Tiko

import Tiko.Lib.Reach

/-!
# The submit queue

`SubmitQueue`: a ring of 1024 words between any number of producers and one consumer. A producer loads
`head` and `tail`, claims a position with `fetch_add`, and stores its entry later; zero stands for an
entry that is not written yet. `poll_submit_queue` takes entries from `tail` on and publishes `tail`
when its batch ends. Positions are 32-bit words that wrap.

The check for a full queue and the claim are two operations, so that several producers can pass the
check for one free entry.

* `SubmitQueue.step`: the atomic operations of both sides;
* `SubmitQueue.Room`: the steps that do not claim a position in a full queue;
* **`delivers_of_room`**: in runs with room at every claim, every push is taken once and in order;
* `overrun`: two producers at the last free entry.
-/

namespace Tiko

open Lib

/-- `SUBMIT_QUEUE_SIZE`. -/
abbrev submitQueueSize : ℕ := 1024

/-! ## Entries -/

/-- What a backend submits: one of the four slots of a pool. -/
structure SubmitRequest where
  backendId : UInt32
  slotIdx : UInt8
  backendId_lt : backendId.toNat < 2 ^ 18
  slotIdx_lt : slotIdx.toNat < 4

namespace SubmitQueue

/-- `SubmitQueue::pack`. -/
def pack (backendId : UInt32) (slotIdx : UInt8) : UInt32 := ((backendId <<< 2) ||| slotIdx.toUInt32) + 1

/-- `SubmitQueue::unpack`. -/
def unpack (val : UInt32) : UInt32 × UInt8 :=
  let raw := val - 1
  (raw >>> 2, (raw &&& 3).toUInt8)

end SubmitQueue

namespace SubmitRequest

open SubmitQueue

/-- The entry of a request. -/
def entry (r : SubmitRequest) : UInt32 := pack r.backendId r.slotIdx

/-- The backend and the slot. -/
def target (r : SubmitRequest) : UInt32 × UInt8 := (r.backendId, r.slotIdx)

theorem toNat_raw (r : SubmitRequest) :
    ((r.backendId <<< 2) ||| r.slotIdx.toUInt32).toNat = 4 * r.backendId.toNat + r.slotIdx.toNat := by
  have hb := r.backendId_lt
  have hs := r.slotIdx_lt
  have hor := Nat.two_pow_add_eq_or_of_lt (i := 2) (b := r.slotIdx.toNat) hs r.backendId.toNat
  have hshift : (r.backendId <<< 2).toNat = 2 ^ 2 * r.backendId.toNat := by
    rw [UInt32.toNat_shiftLeft]
    change r.backendId.toNat <<< 2 % 2 ^ 32 = _
    rw [Nat.shiftLeft_eq, Nat.mod_eq_of_lt (by omega), Nat.mul_comm]
  rw [UInt32.toNat_or, hshift, UInt8.toNat_toUInt32, ← hor]

theorem toNat_entry (r : SubmitRequest) :
    r.entry.toNat = 4 * r.backendId.toNat + r.slotIdx.toNat + 1 := by
  have hb := r.backendId_lt
  have hs := r.slotIdx_lt
  rw [entry, pack, UInt32.toNat_add, r.toNat_raw]
  change (_ + 1) % 2 ^ 32 = _
  exact Nat.mod_eq_of_lt (by omega)

/-- An entry is not mistaken for one that is not written yet. -/
theorem entry_ne_zero (r : SubmitRequest) : r.entry ≠ 0 := by
  intro h
  have hn := r.toNat_entry
  rw [h] at hn
  exact absurd hn (by simp)

/-- **An entry is read back.** -/
theorem unpack_entry (r : SubmitRequest) : unpack r.entry = r.target := by
  have hs := r.slotIdx_lt
  have hraw : r.entry - (1 : UInt32) = (r.backendId <<< 2) ||| r.slotIdx.toUInt32 :=
    UInt32.add_sub_cancel _ _
  rw [unpack, hraw]
  refine Prod.ext (UInt32.toNat_inj.mp ?_) (UInt8.toNat_inj.mp ?_)
  · rw [UInt32.toNat_shiftRight, r.toNat_raw]
    change (_ >>> 2 : ℕ) = _
    rw [Nat.shiftRight_eq_div_pow]
    change _ = r.backendId.toNat
    omega
  · rw [UInt32.toNat_toUInt8, UInt32.toNat_and, r.toNat_raw]
    change ((_ : ℕ) &&& (2 ^ 2 - 1)) % 2 ^ 8 = r.slotIdx.toNat
    rw [Nat.and_two_pow_sub_one_eq_mod]
    omega

end SubmitRequest

/-! ## The two sides -/

namespace SubmitQueue

/-- The next operation of a producer in `push`. -/
inductive Push where
  | idle
  | loadHead (r : SubmitRequest)
  | loadTail (r : SubmitRequest) (head : UInt32)
  | claim (r : SubmitRequest)
  /-- Position `pos` is claimed; it is the `n`-th of all. -/
  | store (r : SubmitRequest) (pos : UInt32) (n : ℕ)

/-- What happens to an entry that the consumer has loaded. -/
inductive DispatchOutcome where
  /-- The slot is not `Submitted`. -/
  | skipped
  /-- The slot's data are not valid. -/
  | invalid
  | dispatched
  /-- The dispatcher is full: the entry stays. -/
  | full
  /-- The dispatcher has failed: the poll ends behind the entry. -/
  | failed
  deriving DecidableEq

/-- The next operation of the consumer in `poll_submit_queue`. -/
inductive Poll where
  | idle
  | loadTail (head : UInt32)
  | loop (head tail : UInt32)
  | dispatch (head tail packed : UInt32)
  | clear (head tail packed : UInt32) (failed : Bool)
  | publish (tail : UInt32)
  deriving DecidableEq

end SubmitQueue

open SubmitQueue in
/-- `SubmitQueue`, with its producers and its consumer. `claimed` lists the requests by position,
`returned` the positions of the pushes that have returned `true`, `taken` what the consumer has taken. -/
structure SubmitQueue (T : Type) where
  head : UInt32
  tail : UInt32
  entries : Fin submitQueueSize → UInt32
  pushes : T → Push
  poll : Poll
  claimed : List SubmitRequest
  returned : List ℕ
  taken : List (UInt32 × UInt8)

namespace SubmitQueue

variable {T : Type} [DecidableEq T]

/-- `SubmitQueue::init`. -/
def init : SubmitQueue T := ⟨0, 0, fun _ => 0, fun _ => .idle, .idle, [], [], []⟩

/-- The entry of a position. -/
def entryOf (pos : UInt32) : Fin submitQueueSize :=
  ⟨pos.toNat % submitQueueSize, Nat.mod_lt _ (by decide)⟩

/-- What happens next. -/
inductive Label (T : Type) where
  /-- An idle producer calls `push`. -/
  | push (t : T) (r : SubmitRequest)
  /-- A producer takes its next operation. -/
  | produce (t : T)
  /-- The consumer takes its next operation; the outcome is that of a dispatch. -/
  | consume (out : DispatchOutcome)

/-- A producer goes on. -/
def goto (q : SubmitQueue T) (t : T) (pc : Push) : SubmitQueue T :=
  { q with pushes := Function.update q.pushes t pc }

/-- The `fetch_add`. -/
def claimPosition (q : SubmitQueue T) (t : T) (r : SubmitRequest) : SubmitQueue T :=
  { q.goto t (.store r q.head q.claimed.length) with
    head := q.head + 1
    claimed := q.claimed ++ [r] }

/-- The store of an entry, after which `push` returns `true`. -/
def storeEntry (q : SubmitQueue T) (t : T) (r : SubmitRequest) (pos : UInt32) (n : ℕ) :
    SubmitQueue T :=
  { q.goto t .idle with
    entries := Function.update q.entries (entryOf pos) r.entry
    returned := q.returned ++ [n] }

/-- One operation of a producer. -/
def produce (q : SubmitQueue T) (t : T) : Option (SubmitQueue T) :=
  match q.pushes t with
  | .idle => none
  | .loadHead r => some (q.goto t (.loadTail r q.head))
  | .loadTail r head =>
    -- `false` is returned when the queue looks full
    if (head - q.tail).toNat ≥ submitQueueSize then some (q.goto t .idle)
    else some (q.goto t (.claim r))
  | .claim r => some (q.claimPosition t r)
  | .store r pos n => some (q.storeEntry t r pos n)

/-- The consumer takes the entry at `tail`. -/
def takeEntry (q : SubmitQueue T) (tail packed : UInt32) (poll : Poll) : SubmitQueue T :=
  { q with
    entries := Function.update q.entries (entryOf tail) 0
    taken := q.taken ++ [unpack packed]
    poll := poll }

/-- One operation of the consumer. -/
def consume (q : SubmitQueue T) (out : DispatchOutcome) : SubmitQueue T :=
  match q.poll with
  | .idle => { q with poll := .loadTail q.head }
  | .loadTail head => { q with poll := .loop head q.tail }
  | .loop head tail =>
    if tail = head then { q with poll := .publish tail }
    else
      let packed := q.entries (entryOf tail)
      if packed = 0 then { q with poll := .publish tail }
      else { q with poll := .dispatch head tail packed }
  | .dispatch head tail packed =>
    match out with
    | .skipped | .invalid | .dispatched => { q with poll := .clear head tail packed false }
    | .full => { q with poll := .publish tail }
    | .failed => { q with poll := .clear head tail packed true }
  | .clear head tail packed failed =>
    q.takeEntry tail packed (if failed then .publish (tail + 1) else .loop head (tail + 1))
  | .publish tail => { q with tail := tail, poll := .idle }

/-- One step of the system. -/
def step (q : SubmitQueue T) : Label T → Option (SubmitQueue T)
  | .push t r =>
    match q.pushes t with
    | .idle => some (q.goto t (.loadHead r))
    | _ => none
  | .produce t => q.produce t
  | .consume out => some (q.consume out)

/-- The next operation is the `fetch_add`. -/
def Push.claims : Push → Bool
  | .claim _ => true
  | _ => false

/-- A step that does not claim a position while 1024 are claimed and not released. -/
def Room (q : SubmitQueue T) : Label T → Prop
  | .produce t => (q.pushes t).claims = true → (q.head - q.tail).toNat < submitQueueSize
  | .push _ _ | .consume _ => True

instance (q : SubmitQueue T) : ∀ l, Decidable (q.Room l)
  | .produce t => inferInstanceAs (Decidable ((q.pushes t).claims = true →
      (q.head - q.tail).toNat < submitQueueSize))
  | .push _ _ | .consume _ => inferInstanceAs (Decidable True)

/-! ## Positions -/

theorem entryOf_ofNat (n : ℕ) : (entryOf (UInt32.ofNat n)).val = n % submitQueueSize := by
  change (UInt32.ofNat n).toNat % submitQueueSize = n % submitQueueSize
  rw [UInt32.toNat_ofNat']
  change n % 2 ^ 32 % 1024 = n % 1024
  omega

/-- Positions less than 1024 apart have different entries. -/
theorem entryOf_ne {m n : ℕ} (hlt : m < n) (hn : n < m + submitQueueSize) :
    entryOf (UInt32.ofNat m) ≠ entryOf (UInt32.ofNat n) := by
  intro h
  have h := congrArg Fin.val h
  rw [entryOf_ofNat, entryOf_ofNat] at h
  unfold submitQueueSize at h hn
  omega

/-- The entry 1024 positions on is the same. -/
theorem entryOf_add_size (n : ℕ) :
    entryOf (UInt32.ofNat (n + submitQueueSize)) = entryOf (UInt32.ofNat n) := by
  apply Fin.ext
  rw [entryOf_ofNat, entryOf_ofNat]
  exact Nat.add_mod_right _ _

theorem ofNat_add_one (n : ℕ) : UInt32.ofNat n + 1 = UInt32.ofNat (n + 1) := by
  rw [UInt32.ofNat_add]
  rfl

/-- Positions that are close are told apart. -/
theorem ofNat_inj {m n : ℕ} (hle : m ≤ n) (hn : n ≤ m + submitQueueSize)
    (h : UInt32.ofNat m = UInt32.ofNat n) : m = n := by
  have h := congrArg UInt32.toNat h
  rw [UInt32.toNat_ofNat', UInt32.toNat_ofNat'] at h
  change m % 2 ^ 32 = n % 2 ^ 32 at h
  unfold submitQueueSize at hn
  omega

/-- The distance of two positions. -/
theorem toNat_sub {m n : ℕ} (hle : m ≤ n) (hn : n < m + 2 ^ 32) :
    (UInt32.ofNat n - UInt32.ofNat m).toNat = n - m := by
  rw [← UInt32.ofNat_sub hle, UInt32.toNat_ofNat']
  exact Nat.mod_eq_of_lt (by omega)

/-! ## The invariant -/

/-- A producer is about to store the entry of the `n`-th position. -/
def Storing (q : SubmitQueue T) (n : ℕ) : Prop := ∃ t r pos, q.pushes t = .store r pos n

/-- The consumer has loaded `head` not long ago: the position lies in the queue. -/
def Ahead (q : SubmitQueue T) (low : ℕ) (head : UInt32) : Prop :=
  ∃ h, low ≤ h ∧ h ≤ q.claimed.length ∧ head = UInt32.ofNat h

/-- The consumer has loaded the entry of the oldest position. -/
structure Loaded (q : SubmitQueue T) (head tail packed : UInt32) : Prop where
  tail_eq : tail = UInt32.ofNat q.taken.length
  ahead : q.Ahead (q.taken.length + 1) head
  packed_eq : ∃ r, q.claimed[q.taken.length]? = some r ∧ packed = r.entry
  stored : ¬ q.Storing q.taken.length

/-- What the consumer knows before its next operation. -/
def Polling (q : SubmitQueue T) : Poll → Prop
  | .idle => q.tail = UInt32.ofNat q.taken.length
  | .loadTail head => q.tail = UInt32.ofNat q.taken.length ∧ q.Ahead q.taken.length head
  | .loop head tail => tail = UInt32.ofNat q.taken.length ∧ q.Ahead q.taken.length head
  | .dispatch head tail packed => q.Loaded head tail packed
  | .clear head tail packed _ => q.Loaded head tail packed
  | .publish tail => tail = UInt32.ofNat q.taken.length

/-- What was taken are the first requests in the order of their positions. The entries of the others
hold them, as soon as their producers have stored them, and all other entries are zero. -/
structure Inv (q : SubmitQueue T) : Prop where
  head_eq : q.head = UInt32.ofNat q.claimed.length
  taken_eq : q.taken = (q.claimed.take q.taken.length).map SubmitRequest.target
  bound : ∃ p, p ≤ q.taken.length ∧ q.claimed.length ≤ p + submitQueueSize ∧
    q.tail = UInt32.ofNat p
  storing : ∀ t r pos n, q.pushes t = .store r pos n →
    q.taken.length ≤ n ∧ q.claimed[n]? = some r ∧ pos = UInt32.ofNat n
  unique : ∀ t t' r r' pos pos' n, q.pushes t = .store r pos n → q.pushes t' = .store r' pos' n →
    t = t'
  unwritten : ∀ n, q.Storing n → q.entries (entryOf (UInt32.ofNat n)) = 0
  written : ∀ n r, q.taken.length ≤ n → q.claimed[n]? = some r → ¬ q.Storing n →
    q.entries (entryOf (UInt32.ofNat n)) = r.entry
  free : ∀ n, q.claimed.length ≤ n → n < q.taken.length + submitQueueSize →
    q.entries (entryOf (UInt32.ofNat n)) = 0
  polling : q.Polling q.poll
  returned : q.returned.Nodup ∧ ∀ n ∈ q.returned, n < q.claimed.length ∧ ¬ q.Storing n

variable {q : SubmitQueue T} {t : T}

omit [DecidableEq T] in
theorem inv_init : (init : SubmitQueue T).Inv where
  head_eq := rfl
  taken_eq := rfl
  bound := ⟨0, le_rfl, Nat.zero_le _, rfl⟩
  storing := fun _ _ _ _ h => absurd h (by simp [init])
  unique := fun _ _ _ _ _ _ _ h => absurd h (by simp [init])
  unwritten := fun _ _ => rfl
  written := fun _ _ _ h => absurd h (by simp [init])
  free := fun _ _ _ => rfl
  polling := rfl
  returned := ⟨List.nodup_nil, fun _ h => absurd h List.not_mem_nil⟩

omit [DecidableEq T] in
theorem Inv.taken_le (h : q.Inv) : q.taken.length ≤ q.claimed.length := by
  have hlen := congrArg List.length h.taken_eq
  rw [List.length_map, List.length_take] at hlen
  omega

omit [DecidableEq T] in
theorem Inv.claimed_le (h : q.Inv) : q.claimed.length ≤ q.taken.length + submitQueueSize := by
  obtain ⟨p, hp, hle, -⟩ := h.bound
  omega

/-! ## Producers -/

theorem pushes_goto_self (q : SubmitQueue T) (t : T) (pc : Push) : (q.goto t pc).pushes t = pc :=
  Function.update_self ..

theorem pushes_goto_of_ne {t' : T} (h : t' ≠ t) (pc : Push) :
    (q.goto t pc).pushes t' = q.pushes t' := Function.update_of_ne h ..

/-- A producer that neither has claimed a position nor claims one goes on. -/
theorem Inv.goto (h : q.Inv) {pc : Push} (hold : ∀ r pos n, q.pushes t ≠ .store r pos n)
    (hnew : ∀ r pos n, pc ≠ .store r pos n) : (q.goto t pc).Inv := by
  have hstore : ∀ t' r pos n, (q.goto t pc).pushes t' = .store r pos n ↔
      q.pushes t' = .store r pos n := by
    intro t' r pos n
    by_cases ht : t' = t
    · rw [ht, pushes_goto_self]
      exact iff_of_false (hnew r pos n) (hold r pos n)
    · rw [pushes_goto_of_ne ht]
  have hstoring : ∀ n, (q.goto t pc).Storing n ↔ q.Storing n := by
    intro n
    simp only [Storing, hstore]
  constructor
  · exact h.head_eq
  · exact h.taken_eq
  · exact h.bound
  · exact fun t' r pos n ht' => h.storing t' r pos n ((hstore t' r pos n).mp ht')
  · exact fun t₁ t₂ r r' pos pos' n h₁ h₂ =>
      h.unique t₁ t₂ r r' pos pos' n ((hstore _ _ _ _).mp h₁) ((hstore _ _ _ _).mp h₂)
  · exact fun n hn => h.unwritten n ((hstoring n).mp hn)
  · exact fun n r hn hr hs => h.written n r hn hr fun hs' => hs ((hstoring n).mpr hs')
  · exact h.free
  · have hp := h.polling
    change (q.goto t pc).Polling q.poll
    cases hq : q.poll with
    | dispatch head tail packed =>
      rw [hq] at hp
      exact ⟨hp.tail_eq, hp.ahead, hp.packed_eq, fun hs => hp.stored ((hstoring _).mp hs)⟩
    | clear head tail packed failed =>
      rw [hq] at hp
      exact ⟨hp.tail_eq, hp.ahead, hp.packed_eq, fun hs => hp.stored ((hstoring _).mp hs)⟩
    | _ => rw [hq] at hp; exact hp
  · exact ⟨h.returned.1, fun n hn => ⟨(h.returned.2 n hn).1, fun hs =>
      (h.returned.2 n hn).2 ((hstoring n).mp hs)⟩⟩

omit [DecidableEq T] in
/-- What the consumer has loaded stays valid while positions are claimed and entries stored. -/
theorem Polling.mono {q' : SubmitQueue T} {poll : Poll} (h : q.Polling poll) (htail : q'.tail = q.tail)
    (htaken : q'.taken = q.taken) (hclaimed : q.claimed <+: q'.claimed)
    (hstoring : q.taken.length < q.claimed.length → q'.Storing q.taken.length →
      q.Storing q.taken.length) : q'.Polling poll := by
  have hahead : ∀ low head, q.Ahead low head → q'.Ahead low head := by
    rintro low head ⟨n, hlow, hn, rfl⟩
    exact ⟨n, hlow, hn.trans hclaimed.length_le, rfl⟩
  have hloaded : ∀ head tail packed, q.Loaded head tail packed → q'.Loaded head tail packed := by
    rintro head tail packed ⟨htl, hah, ⟨r, hr, hpacked⟩, hst⟩
    obtain ⟨hlt, -⟩ := List.getElem?_eq_some_iff.mp hr
    obtain ⟨rest, hrest⟩ := hclaimed
    refine ⟨by rw [htaken, htl], by rw [htaken]; exact hahead _ _ hah, ⟨r, ?_, hpacked⟩, ?_⟩
    · rw [htaken, ← hrest, List.getElem?_append_left hlt, hr]
    · rw [htaken]
      exact fun hs => hst (hstoring hlt hs)
  cases poll with
  | idle => exact (htail.trans h).trans (by rw [htaken])
  | loadTail head =>
    refine ⟨(htail.trans h.1).trans (by rw [htaken]), ?_⟩
    rw [htaken]
    exact hahead _ _ h.2
  | loop head tail =>
    refine ⟨h.1.trans (by rw [htaken]), ?_⟩
    rw [htaken]
    exact hahead _ _ h.2
  | dispatch head tail packed => exact hloaded _ _ _ h
  | clear head tail packed failed => exact hloaded _ _ _ h
  | publish tail => exact Eq.trans h (by rw [htaken])

/-- A position is claimed while there is room. -/
theorem Inv.claimPosition (h : q.Inv) {r : SubmitRequest} (hpc : q.pushes t = .claim r)
    (hroom : (q.head - q.tail).toNat < submitQueueSize) : (q.claimPosition t r).Inv := by
  obtain ⟨p, hp, hle, htail⟩ := h.bound
  have htaken := h.taken_le
  have hnew : q.claimed.length < p + submitQueueSize := by
    rw [h.head_eq, htail, toNat_sub (by omega) (by unfold submitQueueSize at hle; omega)] at hroom
    omega
  have hself : (q.claimPosition t r).pushes t = .store r q.head q.claimed.length :=
    pushes_goto_self q t _
  have hother : ∀ t', t' ≠ t → (q.claimPosition t r).pushes t' = q.pushes t' := fun t' ht =>
    pushes_goto_of_ne ht _
  have hstoring : ∀ n, (q.claimPosition t r).Storing n ↔ n = q.claimed.length ∨ q.Storing n := by
    intro n
    constructor
    · rintro ⟨t', r', pos, ht'⟩
      by_cases ht : t' = t
      · rw [ht, hself] at ht'
        injection ht' with _ _ hn
        exact .inl hn.symm
      · rw [hother t' ht] at ht'
        exact .inr ⟨t', r', pos, ht'⟩
    · rintro (rfl | ⟨t', r', pos, ht'⟩)
      · exact ⟨t, r, q.head, hself⟩
      · have ht : t' ≠ t := by
          rintro rfl
          exact absurd (hpc.symm.trans ht') (by simp)
        exact ⟨t', r', pos, (hother t' ht).trans ht'⟩
  have hlt : ∀ t' r' pos n, q.pushes t' = .store r' pos n → n < q.claimed.length := by
    intro t' r' pos n ht'
    obtain ⟨-, hn, -⟩ := h.storing t' r' pos n ht'
    exact (List.getElem?_eq_some_iff.mp hn).1
  have hlen : (q.claimPosition t r).claimed.length = q.claimed.length + 1 := List.length_append
  constructor
  · rw [hlen, ← ofNat_add_one, ← h.head_eq]
    rfl
  · change q.taken = ((q.claimed ++ [r]).take q.taken.length).map _
    rw [List.take_append_of_le_length htaken]
    exact h.taken_eq
  · exact ⟨p, hp, by rw [hlen]; omega, htail⟩
  · intro t' r' pos n ht'
    change q.taken.length ≤ n ∧ (q.claimed ++ [r])[n]? = some r' ∧ _
    by_cases ht : t' = t
    · rw [ht, hself] at ht'
      injection ht' with hr hpos hn
      rw [← hn, ← hr, ← hpos]
      exact ⟨htaken, List.getElem?_concat_length, h.head_eq⟩
    · rw [hother t' ht] at ht'
      obtain ⟨hlow, hn, hpos⟩ := h.storing t' r' pos n ht'
      rw [List.getElem?_append_left (hlt t' r' pos n ht')]
      exact ⟨hlow, hn, hpos⟩
  · intro t₁ t₂ r₁ r₂ pos₁ pos₂ n h₁ h₂
    by_cases ht₁ : t₁ = t <;> by_cases ht₂ : t₂ = t
    · rw [ht₁, ht₂]
    · rw [ht₁, hself] at h₁
      rw [hother t₂ ht₂] at h₂
      injection h₁ with _ _ hn
      exact absurd (hlt _ _ _ _ h₂) (by omega)
    · rw [ht₂, hself] at h₂
      rw [hother t₁ ht₁] at h₁
      injection h₂ with _ _ hn
      exact absurd (hlt _ _ _ _ h₁) (by omega)
    · rw [hother t₁ ht₁] at h₁
      rw [hother t₂ ht₂] at h₂
      exact h.unique t₁ t₂ r₁ r₂ pos₁ pos₂ n h₁ h₂
  · intro n hn
    rcases (hstoring n).mp hn with rfl | hn
    · exact h.free _ le_rfl (by omega)
    · exact h.unwritten n hn
  · intro n r' hlow hr hs
    rw [hstoring, not_or] at hs
    change (q.claimed ++ [r])[n]? = some r' at hr
    obtain ⟨hn, -⟩ := List.getElem?_eq_some_iff.mp hr
    rw [List.length_append, List.length_singleton] at hn
    rw [List.getElem?_append_left (by omega)] at hr
    exact h.written n r' hlow hr hs.2
  · intro n hn hhigh
    rw [hlen] at hn
    exact h.free n (by omega) hhigh
  · refine Polling.mono h.polling rfl rfl (List.prefix_append _ _) fun hlt hs => ?_
    rcases (hstoring _).mp hs with hn | hs
    · exact absurd hn (by omega)
    · exact hs
  · refine ⟨h.returned.1, fun n hn => ?_⟩
    obtain ⟨hn', hs⟩ := h.returned.2 n hn
    rw [hlen, hstoring]
    refine ⟨by omega, ?_⟩
    rintro (rfl | hs')
    · exact absurd hn' (lt_irrefl _)
    · exact hs hs'

/-- An entry is stored in a place that holds nothing. -/
theorem Inv.storeEntry (h : q.Inv) {r : SubmitRequest} {pos : UInt32} {n : ℕ}
    (hpc : q.pushes t = .store r pos n) : (q.storeEntry t r pos n).Inv := by
  obtain ⟨hlow, hn, rfl⟩ := h.storing t r pos n hpc
  obtain ⟨hlt, -⟩ := List.getElem?_eq_some_iff.mp hn
  have hle := h.claimed_le
  have hself : (q.storeEntry t r (UInt32.ofNat n) n).pushes t = .idle := pushes_goto_self q t _
  have hother : ∀ t', t' ≠ t → (q.storeEntry t r (UInt32.ofNat n) n).pushes t' = q.pushes t' :=
    fun t' ht => pushes_goto_of_ne ht _
  have hold : ∀ t' r' pos' n', (q.storeEntry t r (UInt32.ofNat n) n).pushes t' = .store r' pos' n' →
      q.pushes t' = .store r' pos' n' ∧ n' ≠ n := by
    intro t' r' pos' n' ht'
    by_cases ht : t' = t
    · rw [ht, hself] at ht'
      exact absurd ht' (by simp)
    · rw [hother t' ht] at ht'
      refine ⟨ht', ?_⟩
      rintro rfl
      exact ht (h.unique t' t _ _ _ _ _ ht' hpc)
  have hstoring : ∀ n', (q.storeEntry t r (UInt32.ofNat n) n).Storing n' ↔ q.Storing n' ∧ n' ≠ n := by
    intro n'
    constructor
    · rintro ⟨t', r', pos', ht'⟩
      obtain ⟨ht', hne⟩ := hold t' r' pos' n' ht'
      exact ⟨⟨t', r', pos', ht'⟩, hne⟩
    · rintro ⟨⟨t', r', pos', ht'⟩, hne⟩
      have ht : t' ≠ t := by
        rintro rfl
        rw [hpc] at ht'
        injection ht' with _ _ hnn
        exact hne hnn.symm
      exact ⟨t', r', pos', (hother t' ht).trans ht'⟩
  -- the other entries in use are untouched
  have hentry : ∀ n', n' ≠ n → q.taken.length ≤ n' → n' < q.taken.length + submitQueueSize →
      (q.storeEntry t r (UInt32.ofNat n) n).entries (entryOf (UInt32.ofNat n')) =
        q.entries (entryOf (UInt32.ofNat n')) := by
    intro n' hne hlow' hhigh'
    refine Function.update_of_ne ?_ _ _
    rcases Nat.lt_or_gt_of_ne hne with hlt' | hlt'
    · exact entryOf_ne hlt' (by omega)
    · exact (entryOf_ne hlt' (by omega)).symm
  constructor
  · exact h.head_eq
  · exact h.taken_eq
  · exact h.bound
  · intro t' r' pos' n' ht'
    exact h.storing t' r' pos' n' (hold t' r' pos' n' ht').1
  · intro t₁ t₂ r₁ r₂ pos₁ pos₂ n' h₁ h₂
    exact h.unique t₁ t₂ r₁ r₂ pos₁ pos₂ n' (hold _ _ _ _ h₁).1 (hold _ _ _ _ h₂).1
  · intro n' hs
    obtain ⟨hs, hne⟩ := (hstoring n').mp hs
    obtain ⟨t', r', pos', ht'⟩ := hs
    obtain ⟨hlow', hn', -⟩ := h.storing t' r' pos' n' ht'
    obtain ⟨hlt', -⟩ := List.getElem?_eq_some_iff.mp hn'
    rw [hentry n' hne hlow' (by omega)]
    exact h.unwritten n' ⟨t', r', pos', ht'⟩
  · intro n' r' hlow' hr hs
    obtain ⟨hlt', -⟩ := List.getElem?_eq_some_iff.mp hr
    by_cases hne : n' = n
    · subst hne
      obtain rfl : r = r' := Option.some.inj (hn.symm.trans hr)
      exact Function.update_self ..
    · rw [hentry n' hne hlow' (by change n' < q.claimed.length at hlt'; omega)]
      exact h.written n' r' hlow' hr fun hs' => hs ((hstoring n').mpr ⟨hs', hne⟩)
  · intro n' hn' hhigh'
    change q.claimed.length ≤ n' at hn'
    change n' < q.taken.length + _ at hhigh'
    rw [hentry n' (by omega) (by omega) hhigh']
    exact h.free n' hn' hhigh'
  · exact Polling.mono h.polling rfl rfl (List.prefix_refl _) fun _ hs => ((hstoring _).mp hs).1
  · have hnot : n ∉ q.returned := fun hmem => (h.returned.2 n hmem).2 ⟨t, r, _, hpc⟩
    refine ⟨List.Nodup.append h.returned.1 (List.nodup_singleton n) ?_, fun n' hn' => ?_⟩
    · rw [List.disjoint_singleton]
      exact hnot
    · rcases List.mem_append.mp hn' with hmem | hmem
      · exact ⟨(h.returned.2 n' hmem).1, fun hs => (h.returned.2 n' hmem).2 ((hstoring n').mp hs).1⟩
      · rw [List.mem_singleton.mp hmem]
        exact ⟨hlt, fun hs => ((hstoring n).mp hs).2 rfl⟩

/-! ## The consumer -/

omit [DecidableEq T] in
/-- A step of the consumer that changes nothing else. -/
theorem Inv.setPoll (h : q.Inv) (poll : Poll) (hp : q.Polling poll) :
    Inv { q with poll := poll } where
  head_eq := h.head_eq
  taken_eq := h.taken_eq
  bound := h.bound
  storing := h.storing
  unique := h.unique
  unwritten := h.unwritten
  written := h.written
  free := h.free
  polling := Polling.mono hp rfl rfl (List.prefix_refl _) fun _ hs => hs
  returned := h.returned

omit [DecidableEq T] in
/-- The consumer loads the entry of the oldest position. -/
theorem Inv.load (h : q.Inv) {head tail : UInt32} (htail : tail = UInt32.ofNat q.taken.length)
    (hahead : q.Ahead q.taken.length head) (hne : tail ≠ head)
    (hzero : q.entries (entryOf tail) ≠ 0) : q.Loaded head tail (q.entries (entryOf tail)) := by
  obtain ⟨n, hlow, hn, rfl⟩ := hahead
  have hlt : q.taken.length < n := by
    rcases Nat.lt_or_eq_of_le hlow with hlt | heq
    · exact hlt
    · exact absurd (by rw [htail, heq]) hne
  have hstored : ¬ q.Storing q.taken.length := by
    intro hs
    rw [htail, h.unwritten _ hs] at hzero
    exact hzero rfl
  have hget : q.claimed[q.taken.length]? = some q.claimed[q.taken.length] :=
    List.getElem?_eq_getElem (by omega)
  refine ⟨htail, ⟨n, hlt, hn, rfl⟩, ⟨_, hget, ?_⟩, hstored⟩
  rw [htail]
  exact h.written _ _ le_rfl hget hstored

omit [DecidableEq T] in
/-- **The consumer takes the oldest request**, and its entry is free. -/
theorem Inv.takeEntry (h : q.Inv) {head tail packed : UInt32} (hl : q.Loaded head tail packed)
    (failed : Bool) : (q.takeEntry tail packed
      (if failed then .publish (tail + 1) else .loop head (tail + 1))).Inv := by
  obtain ⟨htail, ⟨n, hlow, hn, rfl⟩, ⟨r, hr, hpacked⟩, hstored⟩ := hl
  subst htail hpacked
  obtain ⟨p, hp, hle, hqtail⟩ := h.bound
  have hclaimed := h.claimed_le
  have hlen : (q.taken ++ [unpack r.entry]).length = q.taken.length + 1 := List.length_append
  have hother : ∀ n', q.taken.length < n' → n' < q.taken.length + submitQueueSize →
      Function.update q.entries (entryOf (UInt32.ofNat q.taken.length)) 0 (entryOf (UInt32.ofNat n')) =
        q.entries (entryOf (UInt32.ofNat n')) := fun n' hlt hhigh =>
    Function.update_of_ne (entryOf_ne hlt hhigh).symm _ _
  constructor
  · exact h.head_eq
  · change q.taken ++ [unpack r.entry] =
      (q.claimed.take (q.taken ++ [unpack r.entry]).length).map _
    rw [hlen, List.take_add_one, hr, Option.toList_some, List.map_append, ← h.taken_eq,
      r.unpack_entry]
    rfl
  · exact ⟨p, by change p ≤ (q.taken ++ [_]).length; rw [hlen]; omega, hle, hqtail⟩
  · intro t r' pos n' ht
    obtain ⟨hlow', hn', hpos⟩ := h.storing t r' pos n' ht
    refine ⟨?_, hn', hpos⟩
    change (q.taken ++ [_]).length ≤ n'
    rw [hlen]
    rcases Nat.lt_or_eq_of_le hlow' with hlt | heq
    · exact hlt
    · exact absurd ⟨t, r', pos, heq ▸ ht⟩ hstored
  · exact h.unique
  · intro n' hs
    change Function.update q.entries _ 0 _ = 0
    by_cases he : entryOf (UInt32.ofNat n') = entryOf (UInt32.ofNat q.taken.length)
    · rw [he, Function.update_self]
    · rw [Function.update_of_ne he]
      exact h.unwritten n' hs
  · intro n' r' hlow' hr' hs
    change (q.taken ++ [_]).length ≤ n' at hlow'
    rw [hlen] at hlow'
    obtain ⟨hlt, -⟩ := List.getElem?_eq_some_iff.mp hr'
    change n' < q.claimed.length at hlt
    refine (hother n' (by omega) (by omega)).trans ?_
    exact h.written n' r' (by omega) hr' hs
  · intro n' hn' hhigh
    change q.claimed.length ≤ n' at hn'
    change n' < (q.taken ++ [_]).length + submitQueueSize at hhigh
    rw [hlen] at hhigh
    change Function.update q.entries _ 0 _ = 0
    by_cases he : entryOf (UInt32.ofNat n') = entryOf (UInt32.ofNat q.taken.length)
    · rw [he, Function.update_self]
    · rw [Function.update_of_ne he]
      refine h.free n' hn' ?_
      by_contra hge
      have heq : n' = q.taken.length + submitQueueSize := by omega
      rw [heq, entryOf_add_size] at he
      exact he rfl
  · have htaken : (q.takeEntry (UInt32.ofNat q.taken.length) r.entry
        (if failed then .publish (UInt32.ofNat q.taken.length + 1)
          else .loop (UInt32.ofNat n) (UInt32.ofNat q.taken.length + 1))).taken.length =
        q.taken.length + 1 := hlen
    change Polling _ (if failed then _ else _)
    cases failed with
    | true =>
      change UInt32.ofNat q.taken.length + 1 = UInt32.ofNat (List.length _)
      rw [htaken, ofNat_add_one]
    | false =>
      refine ⟨?_, n, ?_, hn, rfl⟩
      · rw [htaken, ofNat_add_one]
      · rw [htaken]
        exact hlow
  · exact h.returned

omit [DecidableEq T] in
/-- The consumer publishes `tail`. -/
theorem Inv.publish (h : q.Inv) :
    Inv { q with tail := UInt32.ofNat q.taken.length, poll := .idle } where
  head_eq := h.head_eq
  taken_eq := h.taken_eq
  bound := ⟨q.taken.length, le_rfl, h.claimed_le, rfl⟩
  storing := h.storing
  unique := h.unique
  unwritten := h.unwritten
  written := h.written
  free := h.free
  polling := rfl
  returned := h.returned

omit [DecidableEq T] in
theorem Inv.consume (h : q.Inv) (out : DispatchOutcome) : (q.consume out).Inv := by
  have hp := h.polling
  unfold SubmitQueue.consume
  cases hq : q.poll with
  | idle =>
    rw [hq] at hp
    exact h.setPoll _ ⟨hp, _, h.taken_le, le_rfl, h.head_eq⟩
  | loadTail head =>
    rw [hq] at hp
    exact h.setPoll _ ⟨hp.1, hp.2⟩
  | loop head tail =>
    rw [hq] at hp
    dsimp only
    split_ifs with heq hzero
    · exact h.setPoll (.publish tail) hp.1
    · exact h.setPoll (.publish tail) hp.1
    · exact h.setPoll _ (h.load hp.1 hp.2 heq hzero)
  | dispatch head tail packed =>
    rw [hq] at hp
    cases out with
    | full => exact h.setPoll (.publish tail) hp.tail_eq
    | _ => exact h.setPoll (.clear head tail packed _) hp
  | clear head tail packed failed =>
    rw [hq] at hp
    exact h.takeEntry hp failed
  | publish tail =>
    rw [hq] at hp
    dsimp only
    rw [show tail = UInt32.ofNat q.taken.length from hp]
    exact h.publish

/-- **Every step with room keeps the invariant.** -/
theorem Inv.step (h : q.Inv) {q' : SubmitQueue T} {l : Label T} (hroom : q.Room l)
    (hstep : q.step l = some q') : q'.Inv := by
  cases l with
  | push t r =>
    rw [SubmitQueue.step] at hstep
    cases hpc : q.pushes t with
    | idle =>
      rw [hpc] at hstep
      rw [← Option.some.inj hstep]
      exact h.goto (by rw [hpc]; exact fun _ _ _ => by simp) fun _ _ _ => by simp
    | _ => rw [hpc] at hstep; exact absurd hstep (by simp)
  | produce t =>
    rw [SubmitQueue.step, SubmitQueue.produce] at hstep
    cases hpc : q.pushes t with
    | idle => rw [hpc] at hstep; exact absurd hstep (by simp)
    | loadHead r =>
      rw [hpc] at hstep
      rw [← Option.some.inj hstep]
      exact h.goto (by rw [hpc]; exact fun _ _ _ => by simp) fun _ _ _ => by simp
    | loadTail r head =>
      rw [hpc] at hstep
      dsimp only at hstep
      split_ifs at hstep <;> rw [← Option.some.inj hstep]
      · exact h.goto (by rw [hpc]; exact fun _ _ _ => by simp) fun _ _ _ => by simp
      · exact h.goto (by rw [hpc]; exact fun _ _ _ => by simp) fun _ _ _ => by simp
    | claim r =>
      rw [hpc] at hstep
      rw [← Option.some.inj hstep]
      exact h.claimPosition hpc (hroom (by rw [hpc]; rfl))
    | store r pos n =>
      rw [hpc] at hstep
      rw [← Option.some.inj hstep]
      exact h.storeEntry hpc
  | consume out =>
    rw [← Option.some.inj hstep]
    exact h.consume out

theorem inv_of_reaches (h : Reaches step Room init q) : q.Inv :=
  h.invariant inv_init fun _ _ _ hi hroom hs => hi.step hroom hs

/-! ## Draining -/

/-- The consumer takes `k` operations, and every dispatch succeeds. -/
def consumeMany (q : SubmitQueue T) (k : ℕ) : SubmitQueue T := (fun q => q.consume .dispatched)^[k] q

omit [DecidableEq T] in
theorem consumeMany_succ (q : SubmitQueue T) (k : ℕ) :
    q.consumeMany (k + 1) = (q.consume .dispatched).consumeMany k := rfl

omit [DecidableEq T] in
theorem consumeMany_add (q : SubmitQueue T) (j k : ℕ) :
    q.consumeMany (j + k) = (q.consumeMany j).consumeMany k := by
  rw [consumeMany, Nat.add_comm, Function.iterate_add_apply]
  rfl

theorem run_replicate_consume (q : SubmitQueue T) (k : ℕ) :
    run step q (List.replicate k (.consume .dispatched)) = some (q.consumeMany k) := by
  induction k generalizing q with
  | zero => rfl
  | succ k ih =>
    rw [List.replicate_succ, run, consumeMany_succ]
    exact ih _

omit [DecidableEq T] in
/-- The consumer leaves the producers alone. -/
theorem consume_frame (q : SubmitQueue T) (out : DispatchOutcome) :
    (q.consume out).pushes = q.pushes ∧ (q.consume out).claimed = q.claimed := by
  unfold SubmitQueue.consume
  cases q.poll with
  | loop head tail =>
    dsimp only
    split_ifs <;> exact ⟨rfl, rfl⟩
  | dispatch head tail packed => cases out <;> exact ⟨rfl, rfl⟩
  | _ => exact ⟨rfl, rfl⟩

/-- The consumer will take another request. -/
def Takes (q : SubmitQueue T) : Prop := ∃ k, q.taken.length < (q.consumeMany k).taken.length

omit [DecidableEq T] in
theorem takes_of_consume (h : (q.consume .dispatched).Takes)
    (htaken : (q.consume .dispatched).taken = q.taken) : q.Takes := by
  obtain ⟨k, hk⟩ := h
  rw [htaken] at hk
  exact ⟨k + 1, hk⟩

omit [DecidableEq T] in
theorem takes_of_clear {head tail packed : UInt32} {failed : Bool}
    (hpoll : q.poll = .clear head tail packed failed) : q.Takes := by
  refine ⟨1, ?_⟩
  change q.taken.length < (q.consume .dispatched).taken.length
  rw [SubmitQueue.consume, hpoll]
  change q.taken.length < (q.taken ++ [_]).length
  rw [List.length_append, List.length_singleton]
  exact Nat.lt_succ_self _

omit [DecidableEq T] in
theorem takes_of_dispatch {head tail packed : UInt32} (hpoll : q.poll = .dispatch head tail packed) :
    q.Takes := by
  have hstep : q.consume .dispatched = { q with poll := .clear head tail packed false } := by
    rw [SubmitQueue.consume, hpoll]
  refine takes_of_consume ?_ (by rw [hstep])
  rw [hstep]
  exact takes_of_clear rfl

omit [DecidableEq T] in
/-- A stored entry in front of the loaded `head` is taken. -/
theorem Inv.takes_of_loop (h : q.Inv) (hstored : ∀ n, ¬ q.Storing n) {head tail : UInt32}
    (hpoll : q.poll = .loop head tail) (hne : tail ≠ head) : q.Takes := by
  have hp := h.polling
  rw [hpoll] at hp
  obtain ⟨htail, n, hlow, hn, rfl⟩ := hp
  have hlt : q.taken.length < n := by
    rcases Nat.lt_or_eq_of_le hlow with hlt | heq
    · exact hlt
    · exact absurd (by rw [htail, heq]) hne
  have hget : q.claimed[q.taken.length]? = some q.claimed[q.taken.length] :=
    List.getElem?_eq_getElem (by omega)
  have hentry : q.entries (entryOf tail) ≠ 0 := by
    rw [htail, h.written _ _ le_rfl hget (hstored _)]
    exact SubmitRequest.entry_ne_zero _
  have hstep : q.consume .dispatched =
      { q with poll := .dispatch (UInt32.ofNat n) tail (q.entries (entryOf tail)) } := by
    rw [SubmitQueue.consume, hpoll]
    dsimp only
    rw [if_neg hne, if_neg hentry]
  refine takes_of_consume ?_ (by rw [hstep])
  rw [hstep]
  exact takes_of_dispatch rfl

omit [DecidableEq T] in
theorem Inv.takes_of_idle (h : q.Inv) (hstored : ∀ n, ¬ q.Storing n)
    (hlt : q.taken.length < q.claimed.length) (hpoll : q.poll = .idle) : q.Takes := by
  have htail : q.tail = UInt32.ofNat q.taken.length := by
    have hp := h.polling
    rw [hpoll] at hp
    exact hp
  have hstep : q.consume .dispatched = { q with poll := .loadTail q.head } := by
    rw [SubmitQueue.consume, hpoll]
  have hinv := (h.consume .dispatched).consume .dispatched
  have hstep' : (q.consume .dispatched).consume .dispatched =
      { q with poll := .loop q.head q.tail } := by
    rw [hstep]
    rfl
  rw [hstep'] at hinv
  have hne : q.tail ≠ q.head := by
    rw [htail, h.head_eq]
    intro he
    exact absurd (ofNat_inj hlt.le h.claimed_le he) hlt.ne
  refine takes_of_consume (takes_of_consume ?_ (by rw [hstep']; rw [hstep])) (by rw [hstep])
  rw [hstep']
  exact hinv.takes_of_loop hstored rfl hne

omit [DecidableEq T] in
theorem Inv.takes_of_publish (h : q.Inv) (hstored : ∀ n, ¬ q.Storing n)
    (hlt : q.taken.length < q.claimed.length) {tail : UInt32} (hpoll : q.poll = .publish tail) :
    q.Takes := by
  have hstep : q.consume .dispatched = { q with tail := tail, poll := .idle } := by
    rw [SubmitQueue.consume, hpoll]
  have hinv := h.consume .dispatched
  refine takes_of_consume ?_ (by rw [hstep])
  rw [hstep] at hinv ⊢
  exact hinv.takes_of_idle hstored hlt rfl

omit [DecidableEq T] in
/-- **Progress**: with all claimed entries stored, the consumer takes another one. -/
theorem Inv.takes (h : q.Inv) (hstored : ∀ n, ¬ q.Storing n)
    (hlt : q.taken.length < q.claimed.length) : q.Takes := by
  cases hpoll : q.poll with
  | idle => exact h.takes_of_idle hstored hlt hpoll
  | loadTail head =>
    have hstep : q.consume .dispatched = { q with poll := .loop head q.tail } := by
      rw [SubmitQueue.consume, hpoll]
    have hinv := h.consume .dispatched
    refine takes_of_consume ?_ (by rw [hstep])
    rw [hstep] at hinv ⊢
    by_cases hne : q.tail = head
    · have hstep' : SubmitQueue.consume { q with poll := .loop head q.tail } .dispatched =
          { q with poll := .publish q.tail } := by
        change (if q.tail = head then _ else _) = _
        rw [if_pos hne]
      have hinv' := hinv.consume .dispatched
      refine takes_of_consume ?_ (by rw [hstep'])
      rw [hstep'] at hinv' ⊢
      exact hinv'.takes_of_publish hstored hlt rfl
    · exact hinv.takes_of_loop hstored rfl hne
  | loop head tail =>
    by_cases hne : tail = head
    · have hstep : q.consume .dispatched = { q with poll := .publish tail } := by
        rw [SubmitQueue.consume, hpoll]
        dsimp only
        rw [if_pos hne]
      have hinv := h.consume .dispatched
      refine takes_of_consume ?_ (by rw [hstep])
      rw [hstep] at hinv ⊢
      exact hinv.takes_of_publish hstored hlt rfl
    · exact h.takes_of_loop hstored hpoll hne
  | dispatch head tail packed => exact takes_of_dispatch hpoll
  | clear head tail packed failed => exact takes_of_clear hpoll
  | publish tail => exact h.takes_of_publish hstored hlt hpoll

omit [DecidableEq T] in
theorem Inv.consumeMany (h : q.Inv) (k : ℕ) : (q.consumeMany k).Inv ∧
    (q.consumeMany k).pushes = q.pushes ∧ (q.consumeMany k).claimed = q.claimed := by
  induction k generalizing q with
  | zero => exact ⟨h, rfl, rfl⟩
  | succ k ih =>
    obtain ⟨hpushes, hclaimed⟩ := consume_frame q .dispatched
    obtain ⟨hi, hp, hc⟩ := ih (h.consume .dispatched)
    exact ⟨hi, hp.trans hpushes, hc.trans hclaimed⟩

omit [DecidableEq T] in
/-- **The queue drains**: with all claimed entries stored, the consumer alone takes all of them. -/
theorem Inv.drains (h : q.Inv) (hstored : ∀ n, ¬ q.Storing n) :
    ∃ k, (q.consumeMany k).taken = q.claimed.map SubmitRequest.target := by
  induction hn : q.claimed.length - q.taken.length using Nat.strong_induction_on generalizing q with
  | _ n ih =>
    by_cases hlt : q.taken.length < q.claimed.length
    · obtain ⟨k, hk⟩ := h.takes hstored hlt
      obtain ⟨hi, hp, hc⟩ := h.consumeMany k
      have hstored' : ∀ n, ¬ (q.consumeMany k).Storing n := by
        intro n
        rw [Storing, hp]
        exact hstored n
      obtain ⟨j, hj⟩ := ih _ (by rw [hc]; omega) hi hstored' rfl
      exact ⟨k + j, by rw [consumeMany_add, hj, hc]⟩
    · refine ⟨0, ?_⟩
      change q.taken = _
      rw [h.taken_eq, List.take_of_length_le (by omega)]

/-! ## Delivery -/

/-- What the queue guarantees in a state. -/
structure Delivers (q : SubmitQueue T) : Prop where
  /-- The first positions are taken, each once and in their order. -/
  taken : q.taken = (q.claimed.take q.taken.length).map SubmitRequest.target
  /-- Every push that has returned `true` has a position of its own, which is taken or in the ring. -/
  returned : q.returned.Nodup ∧ ∀ n ∈ q.returned, ∃ r, q.claimed[n]? = some r ∧
    (n < q.taken.length ∨ q.entries (entryOf (UInt32.ofNat n)) = r.entry)
  /-- An entry is stored where there is none. -/
  noOverwrite : ∀ t r pos n, q.pushes t = .store r pos n → q.entries (entryOf pos) = 0
  /-- The ring is never overfull. -/
  bounded : (q.head - q.tail).toNat ≤ submitQueueSize
  /-- When no producer is about to store an entry, the consumer alone takes everything. -/
  drains : (∀ n, ¬ q.Storing n) → ∃ k q',
    run step q (List.replicate k (.consume .dispatched)) = some q' ∧
      q'.taken = q.claimed.map SubmitRequest.target

/-- **The queue delivers exactly once and in order** in every run whose claims all find room. -/
theorem delivers_of_room {T : Type} [DecidableEq T] {q : SubmitQueue T}
    (h : Reaches step Room init q) : q.Delivers := by
  have hi := inv_of_reaches h
  constructor
  · exact hi.taken_eq
  · refine ⟨hi.returned.1, fun n hn => ?_⟩
    obtain ⟨hlt, hstored⟩ := hi.returned.2 n hn
    refine ⟨q.claimed[n], List.getElem?_eq_getElem hlt, ?_⟩
    rcases Nat.lt_or_ge n q.taken.length with htaken | htaken
    · exact .inl htaken
    · exact .inr (hi.written n _ htaken (List.getElem?_eq_getElem hlt) hstored)
  · intro t r pos n hpc
    obtain ⟨-, -, rfl⟩ := hi.storing t r pos n hpc
    exact hi.unwritten n ⟨t, r, _, hpc⟩
  · obtain ⟨p, hp, hle, htail⟩ := hi.bound
    have htaken := hi.taken_le
    rw [hi.head_eq, htail, toNat_sub (by omega) (by unfold submitQueueSize at hle; omega)]
    omega
  · intro hstored
    obtain ⟨k, hk⟩ := hi.drains hstored
    exact ⟨k, _, run_replicate_consume q k, hk⟩

/-- Two producers at a time: the one that claims the first position stores its entry last. A poll meets the
position before that; two more requests are pushed. -/
def interleaved : List (Label Bool) :=
  [.push true ⟨5, 1, by decide, by decide⟩, .push false ⟨6, 0, by decide, by decide⟩, .produce true,
    .produce false, .produce true, .produce false, .produce false, .produce true, .produce true] ++
    List.replicate 4 (.consume .dispatched) ++ [.produce false] ++
    [.push true ⟨7, 3, by decide, by decide⟩, .push false ⟨8, 2, by decide, by decide⟩] ++
    List.replicate 4 (.produce true) ++ [.consume .dispatched, .consume .dispatched] ++
    List.replicate 4 (.produce false) ++ List.replicate 24 (.consume .dispatched)

theorem delivers_of_room_interleaved : ∃ q : SubmitQueue Bool,
    run step init interleaved = some q ∧ q.taken = [(6, 0), (5, 1), (7, 3), (8, 2)] ∧ q.Delivers :=
  ⟨_, rfl, rfl, delivers_of_room (@reaches_of_run _ _ step _ init _ interleaved rfl (by decide))⟩

/-! ## Overrun -/

/-- The queue after `n` pushes of one request that nobody has taken. -/
def filled (r : SubmitRequest) (n : ℕ) : SubmitQueue Bool where
  head := UInt32.ofNat n
  tail := 0
  entries := fun i => if i.val < n then r.entry else 0
  pushes := fun _ => .idle
  poll := .idle
  claimed := List.replicate n r
  returned := List.range n
  taken := []

/-- The steps of one push. -/
def pushLabels (t : Bool) (r : SubmitRequest) : List (Label Bool) :=
  [.push t r, .produce t, .produce t, .produce t, .produce t]

/-- A push where there is room. -/
theorem run_pushLabels {q : SubmitQueue Bool} (hidle : q.pushes = fun _ => .idle) (t : Bool)
    (r : SubmitRequest) (hroom : (q.head - q.tail).toNat < submitQueueSize) :
    run step q (pushLabels t r) = some { q with
      head := q.head + 1
      entries := Function.update q.entries (entryOf q.head) r.entry
      claimed := q.claimed ++ [r]
      returned := q.returned ++ [q.claimed.length] } := by
  obtain ⟨head, tail, entries, pushes, poll, claimed, returned, taken⟩ := q
  obtain rfl : pushes = fun _ => .idle := hidle
  have hroom' : ¬ (head - tail).toNat ≥ submitQueueSize := by simpa using hroom
  simp [pushLabels, run, step, produce, goto, claimPosition, storeEntry, hroom']

theorem run_pushLabels_filled (r : SubmitRequest) {n : ℕ} (hn : n < submitQueueSize) :
    run step (filled r n) (pushLabels true r) = some (filled r (n + 1)) := by
  have hroom : ((filled r n).head - (filled r n).tail).toNat < submitQueueSize := by
    change (UInt32.ofNat n - UInt32.ofNat 0).toNat < submitQueueSize
    unfold submitQueueSize at hn
    rw [toNat_sub (Nat.zero_le n) (by omega)]
    exact hn
  rw [run_pushLabels rfl true r hroom]
  congr 1
  have hentries : Function.update (filled r n).entries (entryOf (filled r n).head) r.entry =
      (filled r (n + 1)).entries := by
    funext i
    have hval : (entryOf (filled r n).head).val = n := by
      change (entryOf (UInt32.ofNat n)).val = n
      rw [entryOf_ofNat, Nat.mod_eq_of_lt hn]
    by_cases hi : i = entryOf (filled r n).head
    · rw [hi, Function.update_self]
      change _ = if _ then _ else _
      rw [if_pos (by omega)]
    · rw [Function.update_of_ne hi]
      have hne : i.val ≠ n := fun he => hi (Fin.ext (he.trans hval.symm))
      change (if _ then _ else _) = if _ then _ else _
      by_cases hlt : i.val < n
      · rw [if_pos hlt, if_pos (by omega)]
      · rw [if_neg hlt, if_neg (by omega)]
  rw [hentries]
  simp only [filled, ofNat_add_one, List.replicate_succ', List.range_succ, List.length_replicate]

/-- The queue fills up. -/
theorem run_filled (r : SubmitRequest) {n : ℕ} (hn : n ≤ submitQueueSize) :
    ∃ ls, run step (init : SubmitQueue Bool) ls = some (filled r n) := by
  induction n with
  | zero => exact ⟨[], rfl⟩
  | succ n ih =>
    obtain ⟨ls, hls⟩ := ih (by omega)
    refine ⟨ls ++ pushLabels true r, ?_⟩
    rw [run_append, hls, Option.bind_some]
    exact run_pushLabels_filled r hn

theorem filled_oldest (r : SubmitRequest) {n : ℕ} (hn : 0 < n) :
    (filled r n).claimed[0]? = some r ∧ 0 ∈ (filled r n).returned := by
  refine ⟨?_, List.mem_range.mpr hn⟩
  change (List.replicate n r)[0]? = some r
  rw [List.getElem?_replicate, if_pos hn]

/-- The steps of two pushes that both look for room before either claims a position. -/
def twoPushLabels (r r' : SubmitRequest) : List (Label Bool) :=
  [.push true r, .push false r', .produce true, .produce true, .produce false, .produce false,
    .produce true, .produce true, .produce false, .produce false]

theorem run_twoPushLabels {q : SubmitQueue Bool} (hidle : q.pushes = fun _ => .idle)
    (r r' : SubmitRequest) (hroom : (q.head - q.tail).toNat < submitQueueSize) :
    ∃ q', run step q (twoPushLabels r r') = some q' ∧ q'.head = q.head + 1 + 1 ∧ q'.tail = q.tail ∧
      q'.taken = q.taken ∧ q.claimed <+: q'.claimed ∧ q.returned <+: q'.returned ∧
      q'.entries (entryOf (q.head + 1)) = r'.entry := by
  obtain ⟨head, tail, entries, pushes, poll, claimed, returned, taken⟩ := q
  obtain rfl : pushes = fun _ => .idle := hidle
  have hroom' : ¬ (head - tail).toNat ≥ submitQueueSize := by simpa using hroom
  simp [twoPushLabels, run, step, produce, goto, claimPosition, storeEntry, hroom']

/-- **Two producers at the last free entry.** Both find 1023 entries in the queue; the second one
overwrites the oldest entry, which nobody has taken. -/
theorem overrun : ∃ q : SubmitQueue Bool, Reaches step (fun _ _ => True) init q ∧
    (q.head - q.tail).toNat = 1025 ∧ q.taken = [] ∧ 0 ∈ q.returned ∧
    q.claimed[0]? = some ⟨5, 1, by decide, by decide⟩ ∧ unpack (q.entries (entryOf 0)) = (7, 2) ∧
    ¬ q.Delivers := by
  obtain ⟨ls, hls⟩ := run_filled ⟨5, 1, by decide, by decide⟩ (n := 1023) (by decide)
  obtain ⟨holdest, hzero⟩ := filled_oldest ⟨5, 1, by decide, by decide⟩ (n := 1023) (by decide)
  obtain ⟨q, hrun, hhead, htail, htaken, hclaimed, hreturned, hentry⟩ :=
    run_twoPushLabels (q := filled ⟨5, 1, by decide, by decide⟩ 1023) rfl
      ⟨6, 0, by decide, by decide⟩ ⟨7, 2, by decide, by decide⟩ (by decide)
  have hsize : (q.head - q.tail).toNat = 1025 := by
    rw [hhead, htail]
    decide
  have hlast : entryOf ((filled ⟨5, 1, by decide, by decide⟩ 1023).head + 1) = entryOf 0 := by
    decide
  have hall : run step init (ls ++ twoPushLabels ⟨6, 0, by decide, by decide⟩
      ⟨7, 2, by decide, by decide⟩) = some q := by
    rw [run_append, hls, Option.bind_some]
    exact hrun
  refine ⟨q, reaches_of_run hall (throughout_true _ _), hsize, htaken, hreturned.subset hzero, ?_, ?_,
    fun h => ?_⟩
  · obtain ⟨rest, hrest⟩ := hclaimed
    obtain ⟨hlt, -⟩ := List.getElem?_eq_some_iff.mp holdest
    rw [← hrest, List.getElem?_append_left hlt, holdest]
  · rw [← hlast, hentry]
    decide
  · have hb := h.bounded
    rw [hsize] at hb
    exact absurd hb (by decide)

end SubmitQueue

end Tiko

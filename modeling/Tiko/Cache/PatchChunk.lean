import Tiko.Lib.Reach
import Tiko.Store.Basic

/-!
# Reading and patching a cached chunk

`ChunkCache` keeps a chunk in at most one slot, between any number of threads and the store. A thread
in `get_chunk` or `patch_chunk` looks the slot up under the bucket lock and works on it under the
`io_lock`. After a miss it reads the chunk from the store, obtains a slot by evicting another one, and
inserts the contents; each of these is a step of its own, and so are the flush and the unlinking of a
victim. A full write reads nothing.

Between the read from the store and the insert, which only looks for a duplicate in the chain, another
thread can insert the chunk with a patch, and its slot can be flushed and evicted.

* `ChunkCache.step`: the sections of both calls, of evictions and of `flush_dirty_chunks`;
* `ChunkCache.NoLostUpdate`: what reads return and flushes store, against the patches in order;
* `ChunkCache.Fresh`: the steps that insert no contents made from an old read;
* **`noLostUpdate_of_fresh`**: in runs of such steps, no patch is lost;
* `lostUpdate`: two patches of different blocks, of which one is lost.

The contents of the cache file are part of the slot; file operations do not fail. A call of the store is
one step: the draft record and the spill in it are taken not to fail.
-/

namespace Tiko

open Lib

namespace ChunkCache

variable {T β : Type}

/-! ## Calls -/

/-- A call for the chunk. -/
inductive Call (β : Type) where
  | getChunk
  | patchChunk (blockOffset : ℕ) (data : List β)

/-- What has happened to the chunk. `since` is the number of events before the call. -/
inductive Event (β : Type) where
  /-- `get_chunk` returns contents. -/
  | got (since : ℕ) (c : Chunk β)
  /-- `get_chunk` returns `not_found`. -/
  | notFound (since : ℕ)
  /-- `patch_chunk` writes. -/
  | patched (blockOffset : ℕ) (data : List β)
  /-- `Store::patch_chunk` stores the slot's contents. -/
  | flushed (c : Chunk β)

/-- A call that is running, and the number of events before it. -/
structure Running (β : Type) where
  call : Call β
  since : ℕ

/-- What a thread needs a cleared slot for. -/
inductive Plan (β : Type) where
  /-- `insert`, with what the store has returned. -/
  | insert (c : Running β) (base : Option (Chunk β))
  /-- The insert of another chunk. -/
  | other

/-- What a thread does after it drops a pin. -/
inductive Next (β : Type) where
  | done
  | sweep (p : Plan β)

/-- The next section of a thread. -/
inductive Pc (β : Type) where
  | idle
  /-- `lookup_and_pin`. -/
  | lookup (c : Running β)
  /-- The slot is pinned, and the `io_lock` is next. -/
  | hit (c : Running β)
  /-- `Store::get_chunk`. -/
  | load (c : Running β)
  /-- `evict_and_pin`: the search for a victim. -/
  | sweep (p : Plan β)
  /-- `evict_and_pin`, phase 2: the slot is claimed. -/
  | claimed (p : Plan β)
  /-- `evict_and_pin`, phase 3: the slot is flushed. -/
  | flushed (p : Plan β)
  /-- `insert`, with a cleared slot. -/
  | insert (c : Running β) (base : Option (Chunk β))
  /-- `flush_dirty_chunks`: the slot is pinned. -/
  | flushing
  | unpin (next : Next β)

/-- A thread with a cleared slot. -/
def Plan.ready : Plan β → Pc β
  | .insert c base => .insert c base
  | .other => .idle

def Next.pc : Next β → Pc β
  | .done => .idle
  | .sweep p => .sweep p

/-- What happens next. -/
inductive Label (T β : Type) where
  /-- An idle thread makes a call. -/
  | call (t : T) (c : Call β)
  /-- An idle thread looks for a victim, to insert another chunk. -/
  | evict (t : T)
  /-- `flush_dirty_chunks` of an idle thread pins the slot. -/
  | flush (t : T)
  /-- A thread takes its next section; `ok` says whether the store answers. -/
  | run (t : T) (ok : Bool)
  /-- The sweep has unlinked and cleared the slot of another chunk. -/
  | elsewhere (t : T)
  /-- The sweep finds no victim. -/
  | exhausted (t : T)

/-! ## The cache -/

/-- `ChunkSlot`, with its contents in the cache file and the threads whose pins `pin_count` counts. -/
structure ChunkSlot (T β : Type) where
  data : Chunk β
  dirty : Bool
  pins : Finset T

end ChunkCache

open ChunkCache in
/-- `ChunkCache` and the store, for one chunk, with the threads that use them. `history` has what has
happened, in the order of the sections that decide it. -/
structure ChunkCache (T β : Type) where
  store : Option (Chunk β)
  slot : Option (ChunkSlot T β)
  pcs : T → Pc β
  history : List (Event β)

namespace ChunkCache

variable {T β : Type} [DecidableEq T] [Zero β]

/-- The contents that a call inserts, from what the store has returned; an absent chunk is zero. -/
def Call.data : Call β → Option (Chunk β) → Chunk β
  | .getChunk, base => base.getD Chunk.zero
  | .patchChunk blockOffset data, base => (base.getD Chunk.zero).splice blockOffset data

/-- The section under the `io_lock` of a call that has found the slot. -/
def access (e : ChunkSlot T β) (c : Running β) : Event β × ChunkSlot T β :=
  match c.call with
  | .getChunk => (.got c.since e.data, e)
  | .patchChunk blockOffset data =>
    (.patched blockOffset data, { e with data := e.data.splice blockOffset data, dirty := true })

/-- A cache without the chunk, and a store that holds it or does not. -/
def init (stored : Option (Chunk β)) : ChunkCache T β := ⟨stored, none, fun _ => .idle, []⟩

/-- A thread goes on. -/
def goto (s : ChunkCache T β) (t : T) (pc : Pc β) : ChunkCache T β :=
  { s with pcs := Function.update s.pcs t pc }

/-- A thread writes the slot and goes on. -/
def put (s : ChunkCache T β) (t : T) (e : ChunkSlot T β) (pc : Pc β) : ChunkCache T β :=
  { s with slot := some e, pcs := Function.update s.pcs t pc }

/-- Something has happened. -/
def record (s : ChunkCache T β) (x : Event β) : ChunkCache T β := { s with history := s.history ++ [x] }

/-- A pin. -/
def ChunkSlot.pin (e : ChunkSlot T β) (t : T) : ChunkSlot T β := { e with pins := insert t e.pins }

/-- `unpin`. -/
def ChunkSlot.unpin (e : ChunkSlot T β) (t : T) : ChunkSlot T β := { e with pins := e.pins.erase t }

/-- The slot is not in the cache: a full write goes to its insert, another call reads the store. -/
def missed (s : ChunkCache T β) (t : T) (c : Running β) : ChunkCache T β :=
  match c.call with
  | .getChunk => s.goto t (.load c)
  | .patchChunk blockOffset data =>
    if Chunk.isFull blockOffset data then s.goto t (.sweep (.insert c none)) else s.goto t (.load c)

/-- The store's answer. -/
def loaded (s : ChunkCache T β) (t : T) (c : Running β) (ok : Bool) : ChunkCache T β :=
  if !ok then s.goto t .idle
  else
    match s.store, c.call with
    | some base, _ => s.goto t (.sweep (.insert c (some base)))
    | none, .getChunk => (s.record (.notFound c.since)).goto t .idle
    | none, .patchChunk _ _ => s.goto t (.sweep (.insert c none))

/-- `insert`, after the search for a duplicate, and what its caller does then. -/
def inserted (s : ChunkCache T β) (t : T) (c : Running β) (base : Option (Chunk β)) :
    ChunkCache T β :=
  match s.slot with
  | some _ => s.goto t (.lookup c)
  | none =>
    match c.call with
    | .getChunk =>
      (s.put t ⟨c.call.data base, false, {t}⟩ (.unpin .done)).record (.got c.since (c.call.data base))
    | .patchChunk blockOffset data =>
      (s.put t ⟨c.call.data base, true, {t}⟩ (.unpin .done)).record (.patched blockOffset data)

/-- `try_flush_dirty_chunk`, with a store that answers: the swap and the PUT. -/
def tryFlush (s : ChunkCache T β) (e : ChunkSlot T β) : ChunkCache T β :=
  if e.dirty then
    { s with store := some e.data, slot := some { e with dirty := false } }.record (.flushed e.data)
  else s

/-- The next section of a thread. -/
def operate (s : ChunkCache T β) (t : T) (ok : Bool) : Pc β → Option (ChunkCache T β)
  | .idle => none
  | .lookup c =>
    match s.slot with
    | some e => some (s.put t (e.pin t) (.hit c))
    | none => some (s.missed t c)
  | .hit c => s.slot.map fun e => (s.put t (access e c).2 (.unpin .done)).record (access e c).1
  | .load c => some (s.loaded t c ok)
  | .sweep p =>
    s.slot.bind fun e => if e.pins.card ≠ 0 then none else some (s.put t (e.pin t) (.claimed p))
  | .claimed p =>
    s.slot.map fun e => if ok then (s.tryFlush e).goto t (.flushed p) else s.goto t (.unpin (.sweep p))
  | .flushed p =>
    s.slot.map fun e =>
      if e.pins.card ≠ 1 then s.goto t (.unpin (.sweep p))
      else if e.dirty then s.goto t (.unpin (.sweep p))
      else { s with slot := none, pcs := Function.update s.pcs t p.ready }
  | .insert c base => some (s.inserted t c base)
  | .flushing => s.slot.map fun e => (if ok then s.tryFlush e else s).goto t (.unpin .done)
  | .unpin next => s.slot.map fun e => s.put t (e.unpin t) next.pc

/-- One step of the system. -/
def step (s : ChunkCache T β) : Label T β → Option (ChunkCache T β)
  | .call t c =>
    match s.pcs t with
    | .idle => some (s.goto t (.lookup ⟨c, s.history.length⟩))
    | _ => none
  | .evict t =>
    match s.pcs t with
    | .idle => some (s.goto t (.sweep .other))
    | _ => none
  | .flush t =>
    match s.pcs t with
    | .idle => s.slot.map fun e => s.put t (e.pin t) .flushing
    | _ => none
  | .run t ok => s.operate t ok (s.pcs t)
  | .elsewhere t =>
    match s.pcs t with
    | .sweep p => some (s.goto t p.ready)
    | _ => none
  | .exhausted t =>
    match s.pcs t with
    | .sweep _ => some (s.goto t .idle)
    | _ => none

/-! ## Patches in order -/

/-- An event changes the contents when it is a patch. -/
def Event.apply (c : Chunk β) : Event β → Chunk β
  | .patched blockOffset data => c.splice blockOffset data
  | _ => c

/-- The contents after all patches of a history. -/
def contents (stored : Option (Chunk β)) (h : List (Event β)) : Chunk β :=
  h.foldl Event.apply (stored.getD Chunk.zero)

/-- What reads return and flushes store. -/
structure NoLostUpdate (stored : Option (Chunk β)) (h : List (Event β)) : Prop where
  /-- Each block of a read has its contents at some moment of the call. -/
  got : ∀ pre post since c, h = pre ++ .got since c :: post →
    ∀ b, ∃ n, since ≤ n ∧ n ≤ pre.length ∧ c b = contents stored (pre.take n) b
  /-- A chunk that was patched before the call is found. -/
  found : ∀ pre post since, h = pre ++ .notFound since :: post →
    ∀ blockOffset data, .patched blockOffset data ∉ pre.take since
  /-- What is flushed has all patches. -/
  flushed : ∀ pre post c, h = pre ++ .flushed c :: post → c = contents stored pre

/-- An insert that finds no duplicate brings the contents that its call makes from what the store holds
then. -/
def FreshPc (s : ChunkCache T β) : Pc β → Prop
  | .insert c base => s.slot = none → c.call.data base = c.call.data s.store
  | _ => True

/-- **No insert uses an old read.** -/
def Fresh (s : ChunkCache T β) : Label T β → Prop
  | .run t _ => s.FreshPc (s.pcs t)
  | _ => True

section Decidable

variable [DecidableEq β]

instance (s : ChunkCache T β) : ∀ pc, Decidable (s.FreshPc pc)
  | .insert c base =>
    inferInstanceAs (Decidable (s.slot = none → c.call.data base = c.call.data s.store))
  | .idle | .lookup _ | .hit _ | .load _ | .sweep _ | .claimed _ | .flushed _ | .flushing | .unpin _ =>
    inferInstanceAs (Decidable True)

instance (s : ChunkCache T β) : ∀ l, Decidable (s.Fresh l)
  | .run t _ => inferInstanceAs (Decidable (s.FreshPc (s.pcs t)))
  | .call _ _ | .evict _ | .flush _ | .elsewhere _ | .exhausted _ => inferInstanceAs (Decidable True)

end Decidable

/-! ## What a step can do -/

/-- The threads that hold a pin. -/
def Pc.pinned : Pc β → Bool
  | .hit _ | .claimed _ | .flushed _ | .flushing | .unpin _ => true
  | _ => false

/-- The call that a thread runs for itself. -/
def Plan.running : Plan β → Option (Running β)
  | .insert c _ => some c
  | .other => none

/-- The call of a thread. -/
def Pc.running : Pc β → Option (Running β)
  | .lookup c | .hit c | .load c | .insert c _ => some c
  | .sweep p | .claimed p | .flushed p | .unpin (.sweep p) => p.running
  | .idle | .flushing | .unpin .done => none

omit [Zero β] in
theorem pinned_ready (p : Plan β) : p.ready.pinned = false := by cases p <;> rfl

omit [Zero β] in
theorem pinned_next (next : Next β) : next.pc.pinned = false := by cases next <;> rfl

/-- The threads that are about to read the store. -/
def Pc.loading : Pc β → Bool
  | .load _ => true
  | _ => false

omit [Zero β] in
theorem loading_ready (p : Plan β) : p.ready.loading = false := by cases p <;> rfl

omit [Zero β] in
theorem loading_next (next : Next β) : next.pc.loading = false := by cases next <;> rfl

omit [Zero β] in
theorem running_ready (p : Plan β) : p.ready.running = p.running := by cases p <;> rfl

omit [Zero β] in
theorem running_next (next : Next β) : next.pc.running = (Pc.unpin next).running := by
  cases next <;> rfl

/-- A thread goes on with its call, or ends it, or begins one. -/
def Follows (s : ChunkCache T β) (t : T) (pc : Pc β) : Prop :=
  pc.running = (s.pcs t).running ∨ pc.running = none ∨ ∃ c, pc = .lookup ⟨c, s.history.length⟩

/-- What a step does to the slot, the store and the history. -/
inductive Effect (s : ChunkCache T β) (l : Label T β) (t : T) : ChunkCache T β → Prop where
  | goto (pc : Pc β) (hpin : pc.pinned = (s.pcs t).pinned) (hpc : s.Follows t pc)
      (hload : pc.loading = false ∨ s.slot = none) : Effect s l t (s.goto t pc)
  | pin (e : ChunkSlot T β) (pc : Pc β) (he : s.slot = some e) (hpin : pc.pinned = true)
      (hpc : s.Follows t pc) : Effect s l t (s.put t (e.pin t) pc)
  | unpin (e : ChunkSlot T β) (pc : Pc β) (he : s.slot = some e) (hpin : pc.pinned = false)
      (hpc : s.Follows t pc) (hload : pc.loading = false) : Effect s l t (s.put t (e.unpin t) pc)
  | hit (e : ChunkSlot T β) (c : Running β) (he : s.slot = some e) (hpc : s.pcs t = .hit c) :
      Effect s l t ((s.put t (access e c).2 (.unpin .done)).record (access e c).1)
  | notFound (c : Running β) (hpc : s.pcs t = .load c) (hst : s.store = none) :
      Effect s l t ((s.record (.notFound c.since)).goto t .idle)
  | insert (c : Running β) (base : Option (Chunk β)) (ok : Bool) (hl : l = .run t ok)
      (hpc : s.pcs t = .insert c base) : Effect s l t (s.inserted t c base)
  | flush (e : ChunkSlot T β) (pc : Pc β) (he : s.slot = some e)
      (hpin : pc.pinned = (s.pcs t).pinned) (hpinned : pc.pinned = true) (hpc : s.Follows t pc) :
      Effect s l t ((s.tryFlush e).goto t pc)
  | unlink (e : ChunkSlot T β) (pc : Pc β) (he : s.slot = some e) (hpin : (s.pcs t).pinned = true)
      (hcard : e.pins.card = 1) (hdirty : e.dirty = false) (hnew : pc.pinned = false)
      (hpc : s.Follows t pc) (hload : pc.loading = false) :
      Effect s l t { s with slot := none, pcs := Function.update s.pcs t pc }

section Steps

variable {s s' : ChunkCache T β} {l : Label T β} {t : T} {e : ChunkSlot T β}

theorem effect_missed {c : Running β} {ok : Bool} (hpc : s.pcs t = .lookup c) (he : s.slot = none) :
    Effect s (.run t ok) t (s.missed t c) := by
  have hload : Effect s (.run t ok) t (s.goto t (.load c)) :=
    .goto _ (by rw [hpc]; rfl) (.inl (by rw [hpc]; rfl)) (.inr he)
  unfold missed
  split
  · exact hload
  · split_ifs
    · exact .goto _ (by rw [hpc]; rfl) (.inl (by rw [hpc]; rfl)) (.inl rfl)
    · exact hload

theorem effect_loaded {c : Running β} {ok : Bool} (hpc : s.pcs t = .load c) :
    Effect s (.run t ok) t (s.loaded t c ok) := by
  have hsweep : ∀ base, Effect s (.run t ok) t (s.goto t (.sweep (.insert c base))) := fun base =>
    .goto _ (by rw [hpc]; rfl) (.inl (by rw [hpc]; rfl)) (.inl rfl)
  unfold loaded
  split_ifs
  · exact .goto _ (by rw [hpc]; rfl) (.inr (.inl rfl)) (.inl rfl)
  · split
    · exact hsweep _
    · rename_i hst _
      exact .notFound c hpc hst
    · exact hsweep _

theorem effect_operate {ok : Bool} (h : s.operate t ok (s.pcs t) = some s') :
    Effect s (.run t ok) t s' := by
  cases hpc : s.pcs t with
  | idle =>
    rw [hpc] at h
    exact absurd h (by simp [operate])
  | lookup c =>
    rw [hpc, operate] at h
    cases he : s.slot with
    | none =>
      rw [he] at h
      rw [← Option.some.inj h]
      exact effect_missed hpc he
    | some e =>
      rw [he] at h
      rw [← Option.some.inj h]
      exact .pin e _ he rfl (.inl (by rw [hpc]; rfl))
  | hit c =>
    rw [hpc] at h
    obtain ⟨e, he, rfl⟩ := Option.map_eq_some_iff.mp h
    exact .hit e c he hpc
  | load c =>
    rw [hpc] at h
    rw [← Option.some.inj h]
    exact effect_loaded hpc
  | sweep p =>
    rw [hpc] at h
    obtain ⟨e, he, h⟩ := Option.bind_eq_some_iff.mp h
    split_ifs at h
    rw [← Option.some.inj h]
    exact .pin e _ he rfl (.inl (by rw [hpc]; rfl))
  | claimed p =>
    rw [hpc] at h
    obtain ⟨e, he, rfl⟩ := Option.map_eq_some_iff.mp h
    split_ifs
    · exact .flush e _ he (by rw [hpc]; rfl) rfl (.inl (by rw [hpc]; rfl))
    · exact .goto _ (by rw [hpc]; rfl) (.inl (by rw [hpc]; rfl)) (.inl rfl)
  | flushed p =>
    rw [hpc] at h
    obtain ⟨e, he, rfl⟩ := Option.map_eq_some_iff.mp h
    split_ifs with hpins hdirty
    · exact .goto _ (by rw [hpc]; rfl) (.inl (by rw [hpc]; rfl)) (.inl rfl)
    · exact .goto _ (by rw [hpc]; rfl) (.inl (by rw [hpc]; rfl)) (.inl rfl)
    · exact .unlink e _ he (by rw [hpc]; rfl) (not_not.mp hpins) (by simpa using hdirty)
        (pinned_ready p) (.inl (by rw [hpc]; exact running_ready p)) (loading_ready p)
  | insert c base =>
    rw [hpc] at h
    rw [← Option.some.inj h]
    exact .insert c base ok rfl hpc
  | flushing =>
    rw [hpc] at h
    obtain ⟨e, he, rfl⟩ := Option.map_eq_some_iff.mp h
    split_ifs
    · exact .flush e _ he (by rw [hpc]; rfl) rfl (.inr (.inl rfl))
    · exact .goto _ (by rw [hpc]; rfl) (.inr (.inl rfl)) (.inl rfl)
  | unpin next =>
    rw [hpc] at h
    obtain ⟨e, he, rfl⟩ := Option.map_eq_some_iff.mp h
    exact .unpin e _ he (pinned_next next) (.inl (by rw [hpc]; exact running_next next))
      (loading_next next)

/-- **What a step can do.** -/
theorem effect_of_step (h : s.step l = some s') : ∃ t, Effect s l t s' := by
  cases l with
  | call t c =>
    rw [step] at h
    split at h
    · rename_i hidle
      rw [← Option.some.inj h]
      exact ⟨t, .goto _ (by rw [hidle]; rfl) (.inr (.inr ⟨c, rfl⟩)) (.inl rfl)⟩
    · exact absurd h (by simp)
  | evict t =>
    rw [step] at h
    split at h
    · rename_i hidle
      rw [← Option.some.inj h]
      exact ⟨t, .goto _ (by rw [hidle]; rfl) (.inr (.inl rfl)) (.inl rfl)⟩
    · exact absurd h (by simp)
  | flush t =>
    rw [step] at h
    split at h
    · rename_i hidle
      obtain ⟨e, he, rfl⟩ := Option.map_eq_some_iff.mp h
      exact ⟨t, .pin e _ he rfl (.inr (.inl rfl))⟩
    · exact absurd h (by simp)
  | run t ok => exact ⟨t, effect_operate h⟩
  | elsewhere t =>
    rw [step] at h
    split at h
    · rename_i p hpc
      rw [← Option.some.inj h]
      exact ⟨t, .goto _ (by rw [hpc]; exact pinned_ready p) (.inl (by rw [hpc]; exact running_ready p))
        (.inl (loading_ready p))⟩
    · exact absurd h (by simp)
  | exhausted t =>
    rw [step] at h
    split at h
    · rename_i p hpc
      rw [← Option.some.inj h]
      exact ⟨t, .goto _ (by rw [hpc]; rfl) (.inr (.inl rfl)) (.inl rfl)⟩
    · exact absurd h (by simp)

/-! ## Histories -/

variable {stored : Option (Chunk β)} {h : List (Event β)} {x : Event β}

theorem contents_append_singleton (stored : Option (Chunk β)) (h : List (Event β)) (x : Event β) :
    contents stored (h ++ [x]) = x.apply (contents stored h) := by
  unfold contents
  rw [List.foldl_append]
  rfl

/-- Something happens. -/
theorem NoLostUpdate.append (hh : NoLostUpdate stored h)
    (hgot : ∀ since c, x = .got since c →
      ∀ b, ∃ n, since ≤ n ∧ n ≤ h.length ∧ c b = contents stored (h.take n) b)
    (hfound : ∀ since, x = .notFound since →
      ∀ blockOffset data, .patched blockOffset data ∉ h.take since)
    (hflushed : ∀ c, x = .flushed c → c = contents stored h) : NoLostUpdate stored (h ++ [x]) := by
  have hsplit : ∀ pre post y, h ++ [x] = pre ++ y :: post →
      (h = pre ∧ x = y) ∨ ∃ post', h = pre ++ y :: post' := by
    intro pre post y heq
    induction post using List.reverseRecOn with
    | nil =>
      obtain ⟨hpre, hy⟩ := List.append_inj' heq rfl
      exact .inl ⟨hpre, (List.cons.inj hy).1⟩
    | append_singleton post z _ =>
      rw [← List.cons_append, ← List.append_assoc] at heq
      exact .inr ⟨post, (List.append_inj' heq rfl).1⟩
  constructor
  · intro pre post since c heq
    rcases hsplit pre post _ heq with ⟨rfl, hx⟩ | ⟨post', heq⟩
    · exact hgot since c hx
    · exact hh.got pre post' since c heq
  · intro pre post since heq
    rcases hsplit pre post _ heq with ⟨rfl, hx⟩ | ⟨post', heq⟩
    · exact hfound since hx
    · exact hh.found pre post' since heq
  · intro pre post c heq
    rcases hsplit pre post _ heq with ⟨rfl, hx⟩ | ⟨post', heq⟩
    · exact hflushed c hx
    · exact hh.flushed pre post' c heq

theorem noLostUpdate_nil (stored : Option (Chunk β)) : NoLostUpdate stored [] := by
  constructor
  · intro pre post since c heq
    exact absurd heq (by simp)
  · intro pre post since heq
    exact absurd heq (by simp)
  · intro pre post c heq
    exact absurd heq (by simp)

/-- A patch is among the events. -/
def Patched (h : List (Event β)) : Prop := ∃ blockOffset data, .patched blockOffset data ∈ h

omit [Zero β] in
theorem Patched.of_append (hp : Patched (h ++ [x])) (hx : ∀ o d, x ≠ .patched o d) : Patched h := by
  obtain ⟨o, d, hmem⟩ := hp
  refine ⟨o, d, (List.mem_append.mp hmem).resolve_right fun hmem => ?_⟩
  exact hx o d (List.mem_singleton.mp hmem).symm

/-! ## The invariant -/

/-- A thread's call has begun, and a chunk that was patched before and that it reads is stored. -/
structure ThreadInv (s : ChunkCache T β) (pc : Pc β) : Prop where
  since : ∀ c, pc.running = some c → c.since ≤ s.history.length
  load : ∀ c, pc = .load c → Patched (s.history.take c.since) → s.store.isSome = true

/-- What every state that is reached by fresh steps satisfies. -/
structure Inv (stored : Option (Chunk β)) (s : ChunkCache T β) : Prop where
  history : NoLostUpdate stored s.history
  slot : ∀ e, s.slot = some e → e.data = contents stored s.history ∧
    (e.dirty = true ∨ s.store.getD Chunk.zero = e.data)
  store : s.slot = none → s.store.getD Chunk.zero = contents stored s.history
  kept : Patched s.history → s.store.isSome = true ∨ ∃ e, s.slot = some e ∧ e.dirty = true
  threads : ∀ t, s.ThreadInv (s.pcs t)

omit [DecidableEq T] in
theorem inv_init (stored : Option (Chunk β)) : (init stored : ChunkCache T β).Inv stored where
  history := noLostUpdate_nil stored
  slot _ h := absurd h (by simp [init])
  store _ := rfl
  kept h := by
    obtain ⟨o, d, hmem⟩ := h
    exact absurd hmem List.not_mem_nil
  threads t := ⟨fun _ h => absurd h (by simp [init, Pc.running]), fun _ h => absurd h (by simp [init])⟩

omit [DecidableEq T] [Zero β] in
/-- The history grows, and the store keeps what it has. -/
theorem ThreadInv.mono {pc : Pc β} (h : s.ThreadInv pc) {xs : List (Event β)}
    (hhistory : s'.history = s.history ++ xs)
    (hstore : s.store.isSome = true → s'.store.isSome = true) : s'.ThreadInv pc := by
  refine ⟨fun c hc => ?_, fun c hc hp => ?_⟩
  · rw [hhistory, List.length_append]
    have hle := h.since c hc
    omega
  · have hle := h.since c (by rw [hc]; rfl)
    rw [hhistory, List.take_append_of_le_length hle] at hp
    exact hstore (h.load c hc hp)

omit [DecidableEq T] in
theorem Inv.threadInv (h : s.Inv stored) {pc : Pc β} (hpc : s.Follows t pc)
    (hload : pc.loading = false ∨ s.slot = none) : s.ThreadInv pc := by
  refine ⟨fun c hc => ?_, fun c hc hp => ?_⟩
  · rcases hpc with hpc | hpc | ⟨c', hpc⟩
    · exact (h.threads t).since c (hpc.symm.trans hc)
    · exact absurd (hpc.symm.trans hc) (by simp)
    · rw [hpc] at hc
      rw [← Option.some.inj hc]
  · obtain ⟨o, d, hmem⟩ := hp
    have hnone : s.slot = none := hload.resolve_left (by rw [hc]; exact Bool.noConfusion)
    refine (h.kept ⟨o, d, List.mem_of_mem_take hmem⟩).resolve_right ?_
    rintro ⟨e, he, -⟩
    exact absurd (hnone.symm.trans he) (by simp)

/-- One thread goes on. -/
theorem Inv.threads_update (h : s.Inv stored) {pc : Pc β} {xs : List (Event β)}
    (hpcs : s'.pcs = Function.update s.pcs t pc) (hhistory : s'.history = s.history ++ xs)
    (hstore : s.store.isSome = true → s'.store.isSome = true) (hpc : s'.ThreadInv pc) (t' : T) :
    s'.ThreadInv (s'.pcs t') := by
  rw [hpcs]
  by_cases ht : t' = t
  · rw [ht, Function.update_self]
    exact hpc
  · rw [Function.update_of_ne ht]
    exact (h.threads t').mono hhistory hstore

/-- A step that changes no contents. -/
theorem Inv.keep (h : s.Inv stored) {pc : Pc β} (hstore : s'.store = s.store)
    (hslot : s'.slot.map (fun e => (e.data, e.dirty)) = s.slot.map fun e => (e.data, e.dirty))
    (hhistory : s'.history = s.history) (hpcs : s'.pcs = Function.update s.pcs t pc)
    (hpc : s.ThreadInv pc) : s'.Inv stored := by
  have hsome : ∀ e', s'.slot = some e' →
      ∃ e, s.slot = some e ∧ e.data = e'.data ∧ e.dirty = e'.dirty := by
    intro e' he'
    rw [he', Option.map_some] at hslot
    obtain ⟨e, he, heq⟩ := Option.map_eq_some_iff.mp hslot.symm
    exact ⟨e, he, (Prod.mk.inj heq).1, (Prod.mk.inj heq).2⟩
  have happend : s'.history = s.history ++ [] := by rw [hhistory, List.append_nil]
  refine ⟨hhistory ▸ h.history, fun e' he' => ?_, fun hnone => ?_, fun hp => ?_,
    h.threads_update hpcs happend (fun hs => hstore ▸ hs) (hpc.mono happend fun hs => hstore ▸ hs)⟩
  · obtain ⟨e, he, hdata, hdirty⟩ := hsome e' he'
    rw [hhistory, hstore, ← hdata, ← hdirty]
    exact h.slot e he
  · rw [hnone, Option.map_none] at hslot
    rw [hhistory, hstore]
    exact h.store (Option.map_eq_none_iff.mp hslot.symm)
  · rw [hhistory] at hp
    rw [hstore]
    refine (h.kept hp).imp_right ?_
    rintro ⟨e, he, hdirty⟩
    rw [he, Option.map_some] at hslot
    obtain ⟨e', he', heq⟩ := Option.map_eq_some_iff.mp hslot
    exact ⟨e', he', (Prod.mk.inj heq).2.trans hdirty⟩

/-! ## One step -/

omit [DecidableEq T] [Zero β] in
theorem access_getChunk (e : ChunkSlot T β) {c : Running β} (hc : c.call = .getChunk) :
    access e c = (.got c.since e.data, e) := by
  unfold access
  rw [hc]

omit [DecidableEq T] [Zero β] in
theorem access_patchChunk (e : ChunkSlot T β) {c : Running β} {o : ℕ} {d : List β}
    (hc : c.call = .patchChunk o d) :
    access e c = (.patched o d, { e with data := e.data.splice o d, dirty := true }) := by
  unfold access
  rw [hc]

omit [DecidableEq T] [Zero β] in
theorem threadInv_of_running {pc : Pc β} (hpc : pc.running = none) : s.ThreadInv pc := by
  refine ⟨fun c hc => absurd (hpc.symm.trans hc) (by simp), fun c hc => ?_⟩
  rw [hc] at hpc
  exact absurd hpc (by simp [Pc.running])

omit [DecidableEq T] in
theorem Inv.read (h : s.Inv stored) {c : Running β} (hc : c.since ≤ s.history.length)
    {data : Chunk β} (hdata : data = contents stored s.history) :
    NoLostUpdate stored (s.history ++ [.got c.since data]) := by
  refine h.history.append (fun since d heq b => ?_) (fun since heq => absurd heq (by simp))
    fun d heq => absurd heq (by simp)
  obtain ⟨rfl, rfl⟩ := Event.got.inj heq
  refine ⟨s.history.length, hc, le_refl _, ?_⟩
  rw [List.take_length, hdata]

omit [DecidableEq T] in
theorem Inv.write (h : s.Inv stored) (o : ℕ) (d : List β) :
    NoLostUpdate stored (s.history ++ [.patched o d]) :=
  h.history.append (fun _ _ heq => absurd heq (by simp)) (fun _ heq => absurd heq (by simp))
    fun _ heq => absurd heq (by simp)

/-- A read in which the slot is clean or stays. -/
theorem Inv.readSlot (h : s.Inv stored) {c : Running β} (hc : c.since ≤ s.history.length)
    (hdata : e.data = contents stored s.history)
    (hclean : e.dirty = true ∨ s.store.getD Chunk.zero = e.data)
    (hkept : Patched s.history → s.store.isSome = true ∨ e.dirty = true) :
    ((s.put t e (.unpin .done)).record (.got c.since e.data)).Inv stored := by
  have hgrow : ((s.put t e (.unpin .done)).record (.got c.since e.data)).history =
      s.history ++ [.got c.since e.data] := rfl
  refine ⟨h.read hc hdata, fun e' he' => ?_, fun hnone => absurd hnone (Option.some_ne_none _), fun hp => ?_,
    h.threads_update rfl hgrow id (threadInv_of_running rfl)⟩
  · obtain rfl : e = e' := Option.some.inj he'
    rw [hgrow, contents_append_singleton]
    exact ⟨hdata, hclean⟩
  · exact (hkept (hp.of_append (by simp))).imp_right fun hdirty => ⟨e, rfl, hdirty⟩

/-- A patch in the slot. -/
theorem Inv.writeSlot (h : s.Inv stored) {o : ℕ} {d : List β} (hdirty : e.dirty = true)
    (hdata : e.data = (contents stored s.history).splice o d) :
    ((s.put t e (.unpin .done)).record (.patched o d)).Inv stored := by
  have hgrow : ((s.put t e (.unpin .done)).record (.patched o d)).history =
      s.history ++ [.patched o d] := rfl
  refine ⟨h.write o d, fun e' he' => ?_, fun hnone => absurd hnone (Option.some_ne_none _),
    fun _ => .inr ⟨e, rfl, hdirty⟩, h.threads_update rfl hgrow id (threadInv_of_running rfl)⟩
  obtain rfl : e = e' := Option.some.inj he'
  rw [hgrow, contents_append_singleton]
  exact ⟨hdata, .inl hdirty⟩

theorem Inv.hit (h : s.Inv stored) (he : s.slot = some e) {c : Running β} (hpc : s.pcs t = .hit c) :
    ((s.put t (access e c).2 (.unpin .done)).record (access e c).1).Inv stored := by
  have hsince : c.since ≤ s.history.length := (h.threads t).since c (by rw [hpc]; rfl)
  obtain ⟨hdata, hstore⟩ := h.slot e he
  cases hc : c.call with
  | getChunk =>
    rw [access_getChunk e hc]
    refine h.readSlot hsince hdata hstore fun hp => (h.kept hp).imp_right ?_
    rintro ⟨e', he', hdirty⟩
    obtain rfl : e = e' := Option.some.inj (he.symm.trans he')
    exact hdirty
  | patchChunk o d =>
    rw [access_patchChunk e hc]
    exact h.writeSlot rfl (by rw [← hdata])

theorem Inv.inserted (h : s.Inv stored) {c : Running β} {base : Option (Chunk β)} {ok : Bool}
    (hpc : s.pcs t = .insert c base) (hfresh : s.Fresh (.run t ok)) :
    (s.inserted t c base).Inv stored := by
  have hthread := h.threads t
  have hsince : c.since ≤ s.history.length := hthread.since c (by rw [hpc]; rfl)
  unfold ChunkCache.inserted
  cases he : s.slot with
  | some e =>
    have hfollows : s.Follows t (.lookup c) := .inl (by rw [hpc]; rfl)
    exact h.keep rfl rfl rfl rfl (h.threadInv hfollows (.inl rfl))
  | none =>
    rw [Fresh, hpc] at hfresh
    have hdata : c.call.data base = c.call.data s.store := hfresh he
    have hstore := h.store he
    cases hc : c.call with
    | getChunk =>
      rw [hc, Call.data, Call.data] at hdata
      refine h.readSlot hsince (hdata.trans hstore) (.inr hdata.symm) fun hp => ?_
      refine (h.kept hp).imp_right ?_
      rintro ⟨e', he', -⟩
      exact absurd (he.symm.trans he') (by simp)
    | patchChunk o d =>
      rw [hc, Call.data, Call.data, hstore] at hdata
      exact h.writeSlot rfl hdata

theorem Inv.notFound (h : s.Inv stored) {c : Running β} (hpc : s.pcs t = .load c)
    (hst : s.store = none) : ((s.record (.notFound c.since)).goto t .idle).Inv stored := by
  have hgrow : ((s.record (.notFound c.since)).goto t .idle).history =
      s.history ++ [.notFound c.since] := rfl
  refine ⟨?_, fun e he => ?_, fun hnone => ?_, fun hp => h.kept (hp.of_append (by simp)),
    h.threads_update rfl hgrow id (threadInv_of_running rfl)⟩
  · refine h.history.append (fun _ _ heq => absurd heq (by simp)) (fun since heq o d hmem => ?_)
      fun _ heq => absurd heq (by simp)
    obtain rfl := Event.notFound.inj heq
    have hsome := (h.threads t).load c hpc ⟨o, d, hmem⟩
    rw [hst] at hsome
    exact absurd hsome Bool.false_ne_true
  · rw [hgrow, contents_append_singleton]
    exact h.slot e he
  · rw [hgrow, contents_append_singleton]
    exact h.store hnone

omit [DecidableEq T] [Zero β] in
theorem pcs_tryFlush (s : ChunkCache T β) (e : ChunkSlot T β) : (s.tryFlush e).pcs = s.pcs := by
  unfold tryFlush
  split_ifs <;> rfl

omit [DecidableEq T] [Zero β] in
theorem history_tryFlush (s : ChunkCache T β) (e : ChunkSlot T β) :
    ∃ xs, (s.tryFlush e).history = s.history ++ xs := by
  unfold tryFlush
  split_ifs
  · exact ⟨_, rfl⟩
  · exact ⟨[], (List.append_nil _).symm⟩

omit [DecidableEq T] [Zero β] in
theorem isSome_tryFlush (s : ChunkCache T β) (e : ChunkSlot T β) (h : s.store.isSome = true) :
    (s.tryFlush e).store.isSome = true := by
  unfold tryFlush
  split_ifs
  · rfl
  · exact h

omit [DecidableEq T] in
/-- The slot's contents are stored. -/
theorem Inv.tryFlush (h : s.Inv stored) (he : s.slot = some e) : (s.tryFlush e).Inv stored := by
  unfold ChunkCache.tryFlush
  split_ifs with hdirty
  · obtain ⟨hdata, -⟩ := h.slot e he
    have hcontents : contents stored (s.history ++ [.flushed e.data]) = e.data := by
      rw [contents_append_singleton]
      exact hdata.symm
    refine ⟨?_, fun e' he' => ?_, fun hnone => absurd hnone (Option.some_ne_none _), fun _ => .inl rfl,
      fun t' => ?_⟩
    · refine h.history.append (fun _ _ heq => absurd heq (by simp))
        (fun _ heq => absurd heq (by simp)) fun c heq => ?_
      rw [← Event.flushed.inj heq]
      exact hdata
    · rw [← Option.some.inj he']
      exact ⟨hcontents.symm, .inr rfl⟩
    · have hgrow : ({ s with store := some e.data, slot := some { e with dirty := false } }.record
          (.flushed e.data)).history = s.history ++ [.flushed e.data] := rfl
      exact (h.threads t').mono hgrow fun _ => rfl
  · exact h

omit [DecidableEq T] in
/-- A clean slot is unlinked. -/
theorem Inv.unlink (h : s.Inv stored) (he : s.slot = some e) (hdirty : e.dirty = false)
    {pcs : T → Pc β} (hpcs : ∀ t, s.ThreadInv (pcs t)) :
    Inv stored { s with slot := none, pcs := pcs } := by
  obtain ⟨hdata, hstore⟩ := h.slot e he
  refine ⟨h.history, fun e' he' => absurd he'.symm (Option.some_ne_none _), fun _ => ?_, fun hp => ?_,
    fun t => ⟨(hpcs t).since, (hpcs t).load⟩⟩
  · exact (hstore.resolve_left (by simp [hdirty])).trans hdata
  · refine .inl ((h.kept hp).resolve_right ?_)
    rintro ⟨e', he', hdirty'⟩
    obtain rfl : e = e' := Option.some.inj (he.symm.trans he')
    exact absurd (hdirty.symm.trans hdirty') (by decide)

theorem Inv.step (h : s.Inv stored) (hfresh : s.Fresh l) (hstep : s.step l = some s') :
    s'.Inv stored := by
  obtain ⟨t, he⟩ := effect_of_step hstep
  cases he with
  | goto pc hpin hpc hload => exact h.keep rfl rfl rfl rfl (h.threadInv hpc hload)
  | pin e pc he hpin hpc =>
    refine h.keep rfl (by rw [he]; rfl) rfl rfl (h.threadInv hpc (.inl ?_))
    cases pc <;> first | rfl | exact absurd hpin Bool.false_ne_true
  | unpin e pc he hpin hpc hload =>
    exact h.keep rfl (by rw [he]; rfl) rfl rfl (h.threadInv hpc (.inl hload))
  | hit e c he hpc => exact h.hit he hpc
  | notFound c hpc hst => exact h.notFound hpc hst
  | insert c base ok hl hpc =>
    subst hl
    exact h.inserted hpc hfresh
  | flush e pc he hpin hpinned hpc =>
    have hthread : s.ThreadInv pc := h.threadInv hpc (.inl ?_)
    · obtain ⟨xs, hgrow⟩ := history_tryFlush s e
      exact (h.tryFlush he).keep rfl rfl rfl rfl
        (hthread.mono hgrow (isSome_tryFlush s e))
    · cases pc <;> first | rfl | exact absurd hpinned Bool.false_ne_true
  | unlink e pc he hpin hcard hdirty hnew hpc hload =>
    refine h.unlink he hdirty fun t' => ?_
    by_cases ht : t' = t
    · rw [ht, Function.update_self]
      exact h.threadInv hpc (.inl hload)
    · rw [Function.update_of_ne ht]
      exact h.threads t'

end Steps

/-- **No patch is lost** by any number of threads that insert no contents made from an old read: a read
returns, in each block, what the block holds at some moment of the call, and a flush stores all
patches. -/
theorem noLostUpdate_of_fresh {T β : Type} [DecidableEq T] [Zero β] {stored : Option (Chunk β)}
    {s : ChunkCache T β} (h : Reaches step Fresh (init stored) s) : NoLostUpdate stored s.history :=
  (h.invariant (inv_init stored) fun _ _ _ hi hf hs => hi.step hf hs).history

/-- One thread patches a block, and its slot is flushed and evicted; another one patches the next block
and reads. -/
def apartLabels : List (Label Bool ℕ) :=
  [.call true (.patchChunk 0 [7]), .run true true, .run true true, .elsewhere true, .run true true,
    .run true true, .evict true, .run true true, .run true true, .run true true,
    .call false (.patchChunk 1 [9]), .run false true, .run false true, .elsewhere false,
    .run false true, .run false true, .call true .getChunk, .run true true, .run true true]

theorem noLostUpdate_of_fresh_apart : ∃ s : ChunkCache Bool ℕ,
    run step (init none) apartLabels = some s ∧
      s.history = [.patched 0 [7], .flushed (Chunk.zero.splice 0 [7]), .patched 1 [9],
        .got 3 ((Chunk.zero.splice 0 [7]).splice 1 [9])] ∧ NoLostUpdate none s.history := by
  have hfresh : Throughout step Fresh (init none : ChunkCache Bool ℕ) apartLabels := by decide
  cases hrun : run step (init none) apartLabels with
  | none => exact absurd (congrArg Option.isSome hrun) (by decide)
  | some s =>
    refine ⟨s, rfl, ?_, noLostUpdate_of_fresh (reaches_of_run hrun hfresh)⟩
    have hhistory : (run step (init none) apartLabels).map ChunkCache.history =
        some [.patched 0 [7], .flushed (Chunk.zero.splice 0 [7]), .patched 1 [9],
          .got 3 ((Chunk.zero.splice 0 [7]).splice 1 [9])] := rfl
    rw [hrun] at hhistory
    exact Option.some.inj hhistory

/-- Both threads read the store before either patches; the first one's slot is flushed and evicted
before the second one inserts. -/
def raceLabels : List (Label Bool ℕ) :=
  [.call true (.patchChunk 0 [7]), .run true true, .run true true,
    .call false (.patchChunk 1 [9]), .run false true, .run false true, .elsewhere false,
    .run false true, .run false true, .evict false, .run false true, .run false true,
    .run false true, .elsewhere true, .run true true, .run true true, .call true .getChunk,
    .run true true, .run true true]

/-- **A patch is lost**: a read that begins after both patches have returned does not see one. -/
theorem lostUpdate : ∃ s : ChunkCache Bool ℕ, Reaches step (fun _ _ => True) (init none) s ∧
    s.history = [.patched 1 [9], .flushed (Chunk.zero.splice 1 [9]), .patched 0 [7],
      .got 3 (Chunk.zero.splice 0 [7])] ∧ ¬ NoLostUpdate none s.history := by
  cases hrun : run step (init none) raceLabels with
  | none => exact absurd (congrArg Option.isSome hrun) (by decide)
  | some s =>
    have hhistory : (run step (init none) raceLabels).map ChunkCache.history =
        some [.patched 1 [9], .flushed (Chunk.zero.splice 1 [9]), .patched 0 [7],
          .got 3 (Chunk.zero.splice 0 [7])] := rfl
    rw [hrun] at hhistory
    have heq := Option.some.inj hhistory
    refine ⟨s, reaches_of_run hrun (throughout_true _ _), heq, fun hno => ?_⟩
    obtain ⟨n, hle, hn, hvalue⟩ := hno.got
      [.patched 1 [9], .flushed (Chunk.zero.splice 1 [9]), .patched 0 [7]] [] 3 _ heq ⟨1, by decide⟩
    obtain rfl : n = 3 := le_antisymm hn hle
    exact absurd hvalue (by decide)

end ChunkCache

end Tiko

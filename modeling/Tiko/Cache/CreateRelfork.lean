import Tiko.Lib.Reach
import Tiko.Model.Keys

/-!
# Creating a relation fork

`MetaCache` keeps the metadata of one relation fork in at most one slot, between any number of threads
and the store. A thread in a call looks its slot up under the bucket lock and works on it under the
`io_lock`. After a miss it asks the store, obtains a slot by evicting another one, and inserts what the
store has returned; each of these is a step of its own, and so are the flush and the unlinking of a
victim.

Between the store's answer and the insert, which only looks for a duplicate in the chain, another
thread can insert, and its slot can be flushed and evicted.

* `MetaCache.step`: the sections of all calls, of evictions and of `flush_dirty_metas`;
* `MetaCache.Fresh`: the steps that do not act on an answer that is out of date;
* **`atMostOnce_of_fresh`**: in runs of such steps, a relation fork is created once;
* `createdTwice`: two creators that both succeed.

A call of the store is one step: the draft record and the spill in it are taken not to fail.
-/

namespace Tiko

open Lib

namespace MetaCache

/-! ## Calls -/

/-- A call for the relation fork. -/
inductive Call where
  | createRelfork
  | putNblocks (nblocks : UInt32)
  | putDeleted (deleted : Bool)
  | getNblocks
  deriving DecidableEq

/-- What a call returns. -/
inductive Outcome where
  | ok
  | nblocks (n : UInt32)
  | alreadyExists
  | notFound
  /-- Another error: of the store, or a sweep without a victim. -/
  | failed
  deriving DecidableEq

/-- The result of `get_nblocks` for a metadata record. -/
def Outcome.ofMeta (m : RelForkMeta) : Outcome := if m.deleted then .notFound else .nblocks m.nblocks

/-- What a thread needs a cleared slot for. -/
inductive Plan where
  /-- `insert`, with what the store has returned. -/
  | insert (c : Call) (found : Option RelForkMeta)
  /-- The insert of another relation fork. -/
  | other
  deriving DecidableEq

/-- What a thread does after it drops a pin. -/
inductive Next where
  | done
  | retry (c : Call)
  | sweep (p : Plan)
  deriving DecidableEq

/-- The next section of a thread. -/
inductive Pc where
  | idle
  /-- `lookup_and_pin`. -/
  | lookup (c : Call)
  /-- The slot is pinned, and the `io_lock` is next. -/
  | hit (c : Call)
  /-- `load_from_store`: `Store::get_meta`. -/
  | load (c : Call)
  /-- `evict_and_pin`: the search for a victim. -/
  | sweep (p : Plan)
  /-- `evict_and_pin`, phase 2: the slot is claimed. -/
  | claimed (p : Plan)
  /-- `evict_and_pin`, phase 3: the slot is flushed. -/
  | flushed (p : Plan)
  /-- `insert`, with a cleared slot. -/
  | insert (c : Call) (found : Option RelForkMeta)
  /-- `flush_dirty_metas`: the slot is pinned. -/
  | flushing
  | unpin (next : Next)
  deriving DecidableEq

/-- A thread with a cleared slot. -/
def Plan.ready : Plan → Pc
  | .insert c found => .insert c found
  | .other => .idle

def Next.pc : Next → Pc
  | .done => .idle
  | .retry c => .lookup c
  | .sweep p => .sweep p

/-- What happens next. -/
inductive Label (T : Type) where
  /-- An idle thread makes a call. -/
  | call (t : T) (c : Call)
  /-- An idle thread looks for a victim, to insert another relation fork. -/
  | evict (t : T)
  /-- `flush_dirty_metas` of an idle thread pins the slot. -/
  | flush (t : T)
  /-- A thread takes its next section; `ok` says whether the store answers. -/
  | run (t : T) (ok : Bool)
  /-- The sweep has unlinked and cleared the slot of another relation fork. -/
  | elsewhere (t : T)
  /-- The sweep finds no victim. -/
  | exhausted (t : T)

/-! ## The cache -/

/-- `MetaSlot`, with the threads whose pins `pin_count` counts. -/
structure MetaSlot (T : Type) extends RelForkMeta where
  dirty : Bool
  pins : Finset T

variable {T : Type}

/-- The section under the `io_lock` of a call that has found the slot. -/
def access (e : MetaSlot T) : Call → Outcome × MetaSlot T
  | .createRelfork =>
    if !e.deleted then (.alreadyExists, e)
    else (.ok, { e with nblocks := 0, deleted := false, dirty := true })
  | .putNblocks n => if e.deleted then (.notFound, e) else (.ok, { e with nblocks := n, dirty := true })
  | .putDeleted d =>
    if e.deleted then (.notFound, e)
    else (.ok, { e with nblocks := if d then 0 else e.nblocks, deleted := d, dirty := true })
  | .getNblocks => (.ofMeta e.toRelForkMeta, e)

end MetaCache

open MetaCache in
/-- `MetaCache` and the store, for one relation fork, with the threads that use them. `history` has the
results of the calls, in the order of the sections that decide them. -/
structure MetaCache (T : Type) where
  store : Option RelForkMeta
  slot : Option (MetaSlot T)
  pcs : T → Pc
  history : List (Call × Outcome)

namespace MetaCache

variable {T : Type} [DecidableEq T]

/-- A cache without the relation fork, and a store that holds a record or none. -/
def init (stored : Option RelForkMeta) : MetaCache T := ⟨stored, none, fun _ => .idle, []⟩

/-- A thread goes on. -/
def goto (s : MetaCache T) (t : T) (pc : Pc) : MetaCache T :=
  { s with pcs := Function.update s.pcs t pc }

/-- A thread writes the slot and goes on. -/
def put (s : MetaCache T) (t : T) (e : MetaSlot T) (pc : Pc) : MetaCache T :=
  { s with slot := some e, pcs := Function.update s.pcs t pc }

/-- A call has its result. -/
def record (s : MetaCache T) (c : Call) (out : Outcome) : MetaCache T :=
  { s with history := s.history ++ [(c, out)] }

/-- A pin. -/
def MetaSlot.pin (e : MetaSlot T) (t : T) : MetaSlot T := { e with pins := insert t e.pins }

/-- `unpin`. -/
def MetaSlot.unpin (e : MetaSlot T) (t : T) : MetaSlot T := { e with pins := e.pins.erase t }

/-- The store's answer. -/
def loaded (s : MetaCache T) (t : T) (c : Call) (ok : Bool) : MetaCache T :=
  if !ok then (s.record c .failed).goto t .idle
  else
    match s.store, c with
    | some m, c => s.goto t (.sweep (.insert c (some m)))
    | none, .createRelfork => s.goto t (.sweep (.insert .createRelfork none))
    | none, c => (s.record c .notFound).goto t .idle

/-- `insert`, after the search for a duplicate, and what its caller does then. -/
def inserted (s : MetaCache T) (t : T) (c : Call) (found : Option RelForkMeta) : MetaCache T :=
  match s.slot with
  | some _ => s.goto t (.lookup c)
  | none =>
    -- what the store has returned is clean, a new relation fork is dirty
    let e : MetaSlot T := ⟨found.getD ⟨0, false⟩, found.isNone, {t}⟩
    match c, found with
    | .createRelfork, none => (s.put t e (.unpin .done)).record .createRelfork .ok
    | .getNblocks, some m => (s.put t e (.unpin .done)).record .getNblocks (.ofMeta m)
    | c, _ => s.put t e (.unpin (.retry c))

/-- `try_flush_dirty_meta`, with a store that answers: the swap and the PUT. -/
def tryFlush (s : MetaCache T) (e : MetaSlot T) : MetaCache T :=
  if e.dirty then { s with store := some e.toRelForkMeta, slot := some { e with dirty := false } } else s

/-- The next section of a thread. -/
def operate (s : MetaCache T) (t : T) (ok : Bool) : Pc → Option (MetaCache T)
  | .idle => none
  | .lookup c =>
    match s.slot with
    | some e => some (s.put t (e.pin t) (.hit c))
    | none => some (s.goto t (.load c))
  | .hit c => s.slot.map fun e => (s.put t (access e c).2 (.unpin .done)).record c (access e c).1
  | .load c => some (s.loaded t c ok)
  | .sweep p => s.slot.bind fun e => if e.pins.card ≠ 0 then none else some (s.put t (e.pin t) (.claimed p))
  | .claimed p =>
    s.slot.map fun e => if ok then (s.tryFlush e).goto t (.flushed p) else s.goto t (.unpin (.sweep p))
  | .flushed p =>
    s.slot.map fun e =>
      if e.pins.card ≠ 1 then s.goto t (.unpin (.sweep p))
      else if e.dirty then s.goto t (.unpin (.sweep p))
      else { s with slot := none, pcs := Function.update s.pcs t p.ready }
  | .insert c found => some (s.inserted t c found)
  | .flushing => s.slot.map fun e => (if ok then s.tryFlush e else s).goto t (.unpin .done)
  | .unpin next => s.slot.map fun e => s.put t (e.unpin t) next.pc

/-- One step of the system. -/
def step (s : MetaCache T) : Label T → Option (MetaCache T)
  | .call t c => if s.pcs t = .idle then some (s.goto t (.lookup c)) else none
  | .evict t => if s.pcs t = .idle then some (s.goto t (.sweep .other)) else none
  | .flush t =>
    if s.pcs t = .idle then s.slot.map fun e => s.put t (e.pin t) .flushing else none
  | .run t ok => s.operate t ok (s.pcs t)
  | .elsewhere t =>
    match s.pcs t with
    | .sweep p => some (s.goto t p.ready)
    | _ => none
  | .exhausted t =>
    match s.pcs t with
    | .sweep (.insert c _) => some ((s.record c .failed).goto t .idle)
    | .sweep .other => some (s.goto t .idle)
    | _ => none

/-! ## Creating once -/

/-- Between two creations that succeed, and between one and a `get_nblocks` that finds nothing, the
relation fork is deleted. -/
def AtMostOnce (h : List (Call × Outcome)) : Prop :=
  ∀ pre mid post x, h = pre ++ (.createRelfork, .ok) :: mid ++ x :: post →
    x = (.createRelfork, .ok) ∨ x = (.getNblocks, .notFound) → (.putDeleted true, .ok) ∈ mid

/-- Whether the relation fork is created after a result. -/
def createdAfter (b : Bool) (x : Call × Outcome) : Bool :=
  if x = (.createRelfork, .ok) then true else if x = (.putDeleted true, .ok) then false else b

/-- The last creation is not followed by a deletion. -/
def created (h : List (Call × Outcome)) : Bool := h.foldl createdAfter false

theorem created_append_singleton (h : List (Call × Outcome)) (x : Call × Outcome) :
    created (h ++ [x]) = createdAfter (created h) x := by
  unfold created
  rw [List.foldl_append]
  rfl

theorem createdAfter_of_ne {x : Call × Outcome} (hc : x ≠ (.createRelfork, .ok))
    (hd : x ≠ (.putDeleted true, .ok)) (b : Bool) : createdAfter b x = b := by
  rw [createdAfter, if_neg hc, if_neg hd]

theorem created_of_not_mem {pre mid : List (Call × Outcome)} (hmid : (.putDeleted true, .ok) ∉ mid) :
    created (pre ++ (.createRelfork, .ok) :: mid) = true := by
  induction mid using List.reverseRecOn with
  | nil =>
    rw [created_append_singleton]
    rfl
  | append_singleton mid x ih =>
    rw [List.mem_append, not_or, List.mem_singleton] at hmid
    rw [← List.cons_append, ← List.append_assoc, created_append_singleton, ih hmid.1, createdAfter,
      if_neg (Ne.symm hmid.2), ite_self]

/-- A result is added. -/
theorem AtMostOnce.append {h : List (Call × Outcome)} (hh : AtMostOnce h) {x : Call × Outcome}
    (hx : x = (.createRelfork, .ok) ∨ x = (.getNblocks, .notFound) → created h = false) :
    AtMostOnce (h ++ [x]) := by
  intro pre mid post y heq hy
  induction post using List.reverseRecOn with
  | nil =>
    obtain ⟨heq, hxy⟩ := List.append_inj' heq rfl
    by_contra hmid
    have hfalse := hx ((List.cons.inj hxy).1 ▸ hy)
    rw [heq, created_of_not_mem hmid] at hfalse
    exact absurd hfalse (by decide)
  | append_singleton post z _ =>
    rw [← List.cons_append, ← List.append_assoc] at heq
    exact hh pre mid post y (List.append_inj' heq rfl).1 hy

/-- There is a record, and it is not deleted. -/
def isLive (m : Option RelForkMeta) : Bool := m.any fun m => !m.deleted

/-- The relation fork exists, and no eviction loses it. -/
def Live (s : MetaCache T) : Prop :=
  match s.slot with
  | some e => e.deleted = false ∧ (e.dirty = true ∨ isLive s.store = true)
  | none => isLive s.store = true

/-- **No section acts on an answer that is out of date**: no `get_nblocks` asks a store without a record
while the cache has a live slot, and no `insert` that finds no duplicate brings nothing, or a deleted
record, while the store has a live one. -/
def Fresh (s : MetaCache T) : Label T → Bool
  | .run t ok =>
    match s.pcs t with
    | .load .getNblocks => !ok || s.store.isSome || !s.slot.any fun e => !e.deleted
    | .insert _ found => s.slot.isSome || !isLive s.store || isLive found
    | _ => true
  | _ => true

/-- What every state that is reached by such sections satisfies. -/
structure Inv (s : MetaCache T) : Prop where
  once : AtMostOnce s.history
  live : created s.history = true → s.Live

/-! ## What a step can do -/

/-- The threads that hold a pin. -/
def Pc.pinned : Pc → Bool
  | .hit _ | .claimed _ | .flushed _ | .flushing | .unpin _ => true
  | _ => false

theorem pinned_ready (p : Plan) : p.ready.pinned = false := by cases p <;> rfl

theorem pinned_next (next : Next) : next.pc.pinned = false := by cases next <;> rfl

/-- What a step does to the slot, the store and the results. -/
inductive Effect (s : MetaCache T) (l : Label T) (t : T) : MetaCache T → Prop where
  | goto (pc : Pc) (hpin : pc.pinned = (s.pcs t).pinned) : Effect s l t (s.goto t pc)
  | pin (e : MetaSlot T) (pc : Pc) (he : s.slot = some e) (hpc : pc.pinned = true) :
      Effect s l t (s.put t (e.pin t) pc)
  | unpin (e : MetaSlot T) (pc : Pc) (he : s.slot = some e) (hpc : pc.pinned = false) :
      Effect s l t (s.put t (e.unpin t) pc)
  | hit (e : MetaSlot T) (c : Call) (he : s.slot = some e) (hpc : s.pcs t = .hit c) :
      Effect s l t ((s.put t (access e c).2 (.unpin .done)).record c (access e c).1)
  | refuse (c : Call) (out : Outcome) (hpin : (s.pcs t).pinned = false) (hout : out ≠ .ok)
      (hget : out = .notFound → l = .run t true ∧ s.pcs t = .load c ∧ s.store = none) :
      Effect s l t ((s.record c out).goto t .idle)
  | insert (c : Call) (found : Option RelForkMeta) (ok : Bool) (hl : l = .run t ok)
      (hpc : s.pcs t = .insert c found) : Effect s l t (s.inserted t c found)
  | flush (e : MetaSlot T) (pc : Pc) (he : s.slot = some e) (hpin : pc.pinned = (s.pcs t).pinned) :
      Effect s l t ((s.tryFlush e).goto t pc)
  | unlink (e : MetaSlot T) (pc : Pc) (he : s.slot = some e) (hpin : (s.pcs t).pinned = true)
      (hcard : e.pins.card = 1) (hdirty : e.dirty = false) (hpc : pc.pinned = false) :
      Effect s l t { s with slot := none, pcs := Function.update s.pcs t pc }

section Steps

variable {s s' : MetaCache T} {l : Label T} {t : T} {e : MetaSlot T}

theorem effect_loaded {c : Call} {ok : Bool} (hpc : s.pcs t = .load c) :
    Effect s (.run t ok) t (s.loaded t c ok) := by
  have hpin : (s.pcs t).pinned = false := by
    rw [hpc]
    rfl
  unfold loaded
  cases ok with
  | false => exact .refuse c .failed hpin (by decide) fun h => absurd h (by decide)
  | true =>
    cases hst : s.store with
    | some m => exact .goto _ hpin.symm
    | none =>
      have hrefuse : Effect s (.run t true) t ((s.record c .notFound).goto t .idle) :=
        .refuse c .notFound hpin (by decide) fun _ => ⟨rfl, hpc, hst⟩
      cases c with
      | createRelfork => exact .goto _ hpin.symm
      | putNblocks n => exact hrefuse
      | putDeleted d => exact hrefuse
      | getNblocks => exact hrefuse

theorem effect_operate {ok : Bool} (h : s.operate t ok (s.pcs t) = some s') :
    Effect s (.run t ok) t s' := by
  cases hpc : s.pcs t with
  | idle =>
    rw [hpc] at h
    exact absurd h (by simp [operate])
  | lookup c =>
    rw [hpc, operate] at h
    cases he : s.slot with
    | none =>
      rw [he] at h
      rw [← Option.some.inj h]
      exact .goto _ (by rw [hpc]; rfl)
    | some e =>
      rw [he] at h
      rw [← Option.some.inj h]
      exact .pin e _ he rfl
  | hit c =>
    rw [hpc] at h
    obtain ⟨e, he, rfl⟩ := Option.map_eq_some_iff.mp h
    exact .hit e c he hpc
  | load c =>
    rw [hpc] at h
    rw [← Option.some.inj h]
    exact effect_loaded hpc
  | sweep p =>
    rw [hpc] at h
    obtain ⟨e, he, h⟩ := Option.bind_eq_some_iff.mp h
    split_ifs at h
    rw [← Option.some.inj h]
    exact .pin e _ he rfl
  | claimed p =>
    rw [hpc] at h
    obtain ⟨e, he, rfl⟩ := Option.map_eq_some_iff.mp h
    split_ifs
    · exact .flush e _ he (by rw [hpc]; rfl)
    · exact .goto _ (by rw [hpc]; rfl)
  | flushed p =>
    rw [hpc] at h
    obtain ⟨e, he, rfl⟩ := Option.map_eq_some_iff.mp h
    split_ifs with hpins hdirty
    · exact .goto _ (by rw [hpc]; rfl)
    · exact .goto _ (by rw [hpc]; rfl)
    · exact .unlink e _ he (by rw [hpc]; rfl) (not_not.mp hpins) (by simpa using hdirty)
        (pinned_ready p)
  | insert c found =>
    rw [hpc] at h
    rw [← Option.some.inj h]
    exact .insert c found ok rfl hpc
  | flushing =>
    rw [hpc] at h
    obtain ⟨e, he, rfl⟩ := Option.map_eq_some_iff.mp h
    split_ifs
    · exact .flush e _ he (by rw [hpc]; rfl)
    · exact .goto _ (by rw [hpc]; rfl)
  | unpin next =>
    rw [hpc] at h
    obtain ⟨e, he, rfl⟩ := Option.map_eq_some_iff.mp h
    exact .unpin e _ he (pinned_next next)

/-- **What a step can do.** -/
theorem effect_of_step (h : s.step l = some s') : ∃ t, Effect s l t s' := by
  cases l with
  | call t c =>
    rw [step] at h
    split_ifs at h with hidle
    rw [← Option.some.inj h]
    exact ⟨t, .goto _ (by rw [hidle]; rfl)⟩
  | evict t =>
    rw [step] at h
    split_ifs at h with hidle
    rw [← Option.some.inj h]
    exact ⟨t, .goto _ (by rw [hidle]; rfl)⟩
  | flush t =>
    rw [step] at h
    split_ifs at h with hidle
    obtain ⟨e, he, rfl⟩ := Option.map_eq_some_iff.mp h
    exact ⟨t, .pin e _ he rfl⟩
  | run t ok => exact ⟨t, effect_operate h⟩
  | elsewhere t =>
    rw [step] at h
    split at h
    · rename_i p hpc
      rw [← Option.some.inj h]
      exact ⟨t, .goto _ (by rw [hpc]; exact pinned_ready p)⟩
    · exact absurd h (by simp)
  | exhausted t =>
    rw [step] at h
    split at h
    · rename_i c found hpc
      rw [← Option.some.inj h]
      exact ⟨t, .refuse c .failed (by rw [hpc]; rfl) (by decide) fun h => absurd h (by decide)⟩
    · rename_i hpc
      rw [← Option.some.inj h]
      exact ⟨t, .goto _ (by rw [hpc]; rfl)⟩
    · exact absurd h (by simp)

/-! ## The results -/

omit [DecidableEq T] in
theorem live_of_slot (he : s.slot = some e) :
    s.Live ↔ e.deleted = false ∧ (e.dirty = true ∨ isLive s.store = true) := by
  unfold Live
  rw [he]

omit [DecidableEq T] in
theorem live_of_none (he : s.slot = none) : s.Live ↔ isLive s.store = true := by
  unfold Live
  rw [he]

omit [DecidableEq T] in
/-- A step that changes no record and returns nothing. -/
theorem Inv.keep (h : s.Inv) (hstore : s'.store = s.store)
    (hslot : s'.slot.map (fun e => (e.deleted, e.dirty)) = s.slot.map fun e => (e.deleted, e.dirty))
    (hhistory : s'.history = s.history) : s'.Inv := by
  refine ⟨hhistory ▸ h.once, fun hc => ?_⟩
  rw [hhistory] at hc
  have hlive := h.live hc
  cases he : s.slot with
  | none =>
    rw [he, Option.map_none, Option.map_eq_none_iff] at hslot
    rw [live_of_none he] at hlive
    rwa [live_of_none hslot, hstore]
  | some e =>
    rw [he, Option.map_some, Option.map_eq_some_iff] at hslot
    obtain ⟨e', he', heq⟩ := hslot
    obtain ⟨hdel, hdirty⟩ := Prod.mk.inj heq
    rw [live_of_slot he] at hlive
    rwa [live_of_slot he', hstore, hdel, hdirty]

omit [DecidableEq T] in
/-- A step in which a call gets its result. -/
theorem Inv.record (h : s.Inv) (hhistory : s'.history = s.history) {c : Call}
    {out : Outcome}
    (honce : (c, out) = (.createRelfork, .ok) ∨ (c, out) = (.getNblocks, .notFound) →
      created s.history = false)
    (hlive : createdAfter (created s.history) (c, out) = true → s'.Live) :
    (s'.record c out).Inv := by
  have heq : (s'.record c out).history = s.history ++ [(c, out)] := by
    rw [← hhistory]
    rfl
  refine ⟨?_, fun hc => ?_⟩
  · rw [heq]
    exact h.once.append honce
  · rw [heq, created_append_singleton] at hc
    exact hlive hc

omit [DecidableEq T] in
theorem inv_init (stored : Option RelForkMeta) : (init stored : MetaCache T).Inv := by
  refine ⟨fun pre mid post x h => ?_, fun h => absurd h Bool.false_ne_true⟩
  have hlen := congrArg List.length h
  simp [init] at hlen

/-! ### The section under the `io_lock` -/

omit [DecidableEq T] in
theorem deleted_of_access {c : Call} (h : (c, (access e c).1) = (.createRelfork, .ok) ∨
    (c, (access e c).1) = (.getNblocks, .notFound)) : e.deleted = true := by
  by_contra hd
  rw [Bool.not_eq_true] at hd
  rcases h with h | h
  · obtain ⟨rfl, h⟩ := Prod.mk.inj h
    simp [access, hd] at h
  · obtain ⟨rfl, h⟩ := Prod.mk.inj h
    simp [access, Outcome.ofMeta, hd] at h

omit [DecidableEq T] in
/-- A creation leaves a slot that is live and dirty, and only a deletion takes a live one away. -/
theorem access_live {c : Call} {b stored : Bool}
    (h : createdAfter b (c, (access e c).1) = true)
    (hb : b = true → e.deleted = false ∧ (e.dirty = true ∨ stored = true)) :
    (access e c).2.deleted = false ∧ ((access e c).2.dirty = true ∨ stored = true) := by
  cases hd : e.deleted with
  | false =>
    cases c with
    | createRelfork =>
      have hself : (access e .createRelfork).2 = e := by simp [access, hd]
      rw [hself]
      exact hb (by simpa [access, hd, createdAfter] using h)
    | putNblocks n => simp [access, hd]
    | putDeleted d =>
      cases d with
      | true => exact absurd h (by simp [access, hd, createdAfter])
      | false => simp [access, hd]
    | getNblocks =>
      exact hb (by simpa [access, Outcome.ofMeta, hd, createdAfter] using h)
  | true =>
    have hfalse : b = false := by
      by_contra hb'
      exact absurd (hb (by simpa using hb')).1 (by simp [hd])
    cases c with
    | createRelfork => simp [access, hd]
    | _ => exact absurd h (by simp [access, hd, createdAfter, Outcome.ofMeta, hfalse])

theorem Inv.hit (h : s.Inv) (he : s.slot = some e) (c : Call) (pc : Pc) :
    ((s.put t (access e c).2 pc).record c (access e c).1).Inv := by
  refine h.record (by rfl) (fun hbad => ?_) fun hc => ?_
  · have hdel := deleted_of_access hbad
    by_contra hne
    rw [Bool.not_eq_false] at hne
    have hlive := (live_of_slot he).mp (h.live hne)
    exact absurd (hlive.1.symm.trans hdel) (by decide)
  · refine (live_of_slot rfl).mpr (access_live hc fun hcr => ?_)
    exact (live_of_slot he).mp (h.live hcr)

/-! ### The store and the insert -/

omit [DecidableEq T] in
/-- A call fails, or finds nothing, and the record stays. -/
theorem Inv.refuse (h : s.Inv) {c : Call} {out : Outcome} (hout : out ≠ .ok)
    (hget : (c, out) = (.getNblocks, .notFound) → created s.history = false) :
    (s.record c out).Inv := by
  have hne : (c, out) ≠ (.createRelfork, .ok) := fun heq => hout (Prod.mk.inj heq).2
  have hne' : (c, out) ≠ (.putDeleted true, .ok) := fun heq => hout (Prod.mk.inj heq).2
  refine h.record rfl (fun hbad => hbad.elim (fun heq => absurd heq hne) hget) fun hc => ?_
  rw [createdAfter_of_ne hne hne'] at hc
  exact h.live hc

omit [DecidableEq T] in
/-- Without a record in the store, a relation fork that exists is in the slot. -/
theorem Inv.created_eq_false (h : s.Inv) (hpc : s.pcs t = .load .getNblocks) (hst : s.store = none)
    (hfresh : s.Fresh (.run t true) = true) : created s.history = false := by
  by_contra hcr
  have hlive := h.live (by simpa using hcr)
  cases he : s.slot with
  | none =>
    rw [live_of_none he, hst] at hlive
    exact absurd hlive (by decide)
  | some e =>
    rw [live_of_slot he] at hlive
    simp [Fresh, hpc, hst, he, hlive.1] at hfresh

theorem Inv.inserted (h : s.Inv) {c : Call} {found : Option RelForkMeta} {ok : Bool}
    (hpc : s.pcs t = .insert c found) (hfresh : s.Fresh (.run t ok) = true) :
    (s.inserted t c found).Inv := by
  unfold MetaCache.inserted
  cases he : s.slot with
  | some e => exact h.keep rfl rfl rfl
  | none =>
    have hstored : created s.history = true → isLive s.store = true ∧ isLive found = true := by
      intro hc
      have hlive := (live_of_none he).mp (h.live hc)
      simp only [Fresh, hpc, he, hlive] at hfresh
      exact ⟨hlive, by simpa using hfresh⟩
    have hput : ∀ pc : Pc, created s.history = true →
        (s.put t ⟨found.getD ⟨0, false⟩, found.isNone, {t}⟩ pc).Live := by
      intro pc hc
      obtain ⟨hlive, hfound⟩ := hstored hc
      refine (live_of_slot rfl).mpr ⟨?_, .inr hlive⟩
      cases found with
      | none => rfl
      | some m => simpa [isLive] using hfound
    have hretry : ∀ pc : Pc, (s.put t ⟨found.getD ⟨0, false⟩, found.isNone, {t}⟩ pc).Inv :=
      fun pc => ⟨h.once, hput pc⟩
    cases c with
    | createRelfork =>
      cases found with
      | none =>
        refine h.record (by rfl) (fun _ => ?_) fun _ => (live_of_slot rfl).mpr ⟨rfl, .inl rfl⟩
        by_contra hcr
        exact absurd (hstored (by simpa using hcr)).2 (by decide)
      | some m => exact hretry _
    | putNblocks n => exact hretry _
    | putDeleted d => exact hretry _
    | getNblocks =>
      cases found with
      | none => exact hretry _
      | some m =>
        refine h.record (by rfl) (fun hbad => ?_) fun hc => ?_
        · by_contra hcr
          have hfound := (hstored (by simpa using hcr)).2
          have hdel : m.deleted = false := by simpa [isLive] using hfound
          simp [Outcome.ofMeta, hdel] at hbad
        · rw [createdAfter_of_ne (by simp) (by simp)] at hc
          exact hput _ hc

/-! ### Evictions and flushes -/

omit [DecidableEq T] in
theorem Inv.tryFlush (h : s.Inv) (he : s.slot = some e) : (s.tryFlush e).Inv := by
  unfold MetaCache.tryFlush
  split_ifs with hdirty
  · refine ⟨h.once, fun hc => ?_⟩
    have hlive := (live_of_slot he).mp (h.live hc)
    exact (live_of_slot (e := { e with dirty := false }) rfl).mpr
      ⟨hlive.1, .inr (by simp [isLive, hlive.1])⟩
  · exact h

omit [DecidableEq T] in
/-- A clean slot is unlinked. -/
theorem Inv.unlink (h : s.Inv) (he : s.slot = some e) (hdirty : e.dirty = false) (pcs : T → Pc) :
    Inv { s with slot := none, pcs := pcs } := by
  refine ⟨h.once, fun hc => ?_⟩
  have hlive := (live_of_slot he).mp (h.live hc)
  exact (live_of_none rfl).mpr (hlive.2.resolve_left (by simp [hdirty]))

theorem Inv.step (h : s.Inv) (hfresh : s.Fresh l = true) (hstep : s.step l = some s') : s'.Inv := by
  obtain ⟨t, he⟩ := effect_of_step hstep
  cases he with
  | goto pc hpin => exact h.keep rfl rfl rfl
  | pin e pc he hpc => exact h.keep rfl (by rw [he]; rfl) rfl
  | unpin e pc he hpc => exact h.keep rfl (by rw [he]; rfl) rfl
  | hit e c he hpc => exact h.hit he c _
  | refuse c out hpin hout hget =>
    refine (h.refuse hout fun heq => ?_).keep rfl rfl rfl
    obtain ⟨rfl, rfl⟩ := Prod.mk.inj heq
    obtain ⟨rfl, hpc, hst⟩ := hget rfl
    exact h.created_eq_false hpc hst hfresh
  | insert c found ok hl hpc =>
    subst hl
    exact h.inserted hpc hfresh
  | flush e pc he hpin => exact (h.tryFlush he).keep rfl rfl rfl
  | unlink e pc he hpin hcard hdirty hpc => exact h.unlink he hdirty _

/-! ## Pins -/

/-- The slot's pins are those of the threads, and a slot that a thread has pinned stays. -/
def Pinned (s : MetaCache T) : Prop := ∀ t, (s.pcs t).pinned = true ↔ ∃ e ∈ s.slot, t ∈ e.pins

omit [DecidableEq T] in
theorem pinned_init (stored : Option RelForkMeta) : (init stored : MetaCache T).Pinned := by
  intro t
  simp [init, Pc.pinned]

omit [DecidableEq T] in
theorem Pinned.mem (h : s.Pinned) (he : s.slot = some e) (t : T) :
    (s.pcs t).pinned = true ↔ t ∈ e.pins := by
  rw [h t, he]
  simp

omit [DecidableEq T] in
theorem Pinned.present (h : s.Pinned) (hpc : (s.pcs t).pinned = true) :
    ∃ e, s.slot = some e ∧ t ∈ e.pins := (h t).mp hpc

/-- A thread goes on, with or without its pin as before. -/
theorem Pinned.goto (h : s.Pinned) {pc : Pc} (hpc : pc.pinned = (s.pcs t).pinned)
    (hpcs : s'.pcs = Function.update s.pcs t pc)
    (hslot : s'.slot.map MetaSlot.pins = s.slot.map MetaSlot.pins) : s'.Pinned := by
  intro t'
  have hsame : (s'.pcs t').pinned = (s.pcs t').pinned := by
    rw [hpcs]
    by_cases ht : t' = t
    · rw [ht, Function.update_self, hpc]
    · rw [Function.update_of_ne ht]
  have hmem : ∀ o : Option (MetaSlot T), (∃ e ∈ o, t' ∈ e.pins) ↔ ∃ P ∈ o.map MetaSlot.pins, t' ∈ P := by
    intro o
    simp
  rw [hsame, h t', hmem, hmem, hslot]

/-- A thread pins the slot, drops its pin, or puts a slot with its pin where there is none. -/
theorem Pinned.put {pc : Pc} {e' : MetaSlot T}
    (hself : t ∈ e'.pins ↔ pc.pinned = true)
    (hother : ∀ t', t' ≠ t → (t' ∈ e'.pins ↔ (s.pcs t').pinned = true)) :
    (s.put t e' pc).Pinned := by
  intro t'
  have hmem : (∃ e ∈ (s.put t e' pc).slot, t' ∈ e.pins) ↔ t' ∈ e'.pins := by simp [MetaCache.put]
  have hpcs : (s.put t e' pc).pcs = Function.update s.pcs t pc := rfl
  rw [hmem, hpcs]
  by_cases ht : t' = t
  · rw [ht, hself, Function.update_self]
  · rw [hother t' ht, Function.update_of_ne ht]

theorem Pinned.pin (h : s.Pinned) (he : s.slot = some e) {pc : Pc} (hpc : pc.pinned = true) :
    (s.put t (e.pin t) pc).Pinned := by
  refine .put (by simp [MetaSlot.pin, hpc]) fun t' ht => ?_
  rw [h.mem he, MetaSlot.pin, Finset.mem_insert]
  simp [ht]

theorem Pinned.unpin (h : s.Pinned) (he : s.slot = some e) {pc : Pc} (hpc : pc.pinned = false) :
    (s.put t (e.unpin t) pc).Pinned := by
  refine .put (by simp [MetaSlot.unpin, hpc]) fun t' ht => ?_
  rw [h.mem he, MetaSlot.unpin, Finset.mem_erase]
  simp [ht]

/-- An eviction that holds the only pin unlinks the slot. -/
theorem Pinned.unlink (h : s.Pinned) (he : s.slot = some e) (hpc : (s.pcs t).pinned = true)
    (hcard : e.pins.card = 1) {pc : Pc} (hnew : pc.pinned = false) :
    Pinned { s with slot := none, pcs := Function.update s.pcs t pc } := by
  intro t'
  refine iff_of_false ?_ (by simp)
  by_cases ht : t' = t
  · simp [ht, hnew]
  · change ¬ (Function.update s.pcs t pc t').pinned = true
    rw [Function.update_of_ne ht, h.mem he]
    intro hmem
    exact ht (Finset.card_le_one.mp hcard.le t' hmem t ((h.mem he t).mp hpc))

omit [DecidableEq T] in
theorem pins_tryFlush (he : s.slot = some e) :
    (s.tryFlush e).slot.map MetaSlot.pins = s.slot.map MetaSlot.pins := by
  unfold MetaCache.tryFlush
  split_ifs
  · rw [he]
    rfl
  · rfl

omit [DecidableEq T] in
theorem pcs_tryFlush (s : MetaCache T) (e : MetaSlot T) : (s.tryFlush e).pcs = s.pcs := by
  unfold MetaCache.tryFlush
  split_ifs <;> rfl

omit [DecidableEq T] in
theorem pins_access (e : MetaSlot T) (c : Call) : (access e c).2.pins = e.pins := by
  cases c <;> unfold access <;> split_ifs <;> rfl

theorem Pinned.inserted (h : s.Pinned) {c : Call} {found : Option RelForkMeta}
    (hpc : s.pcs t = .insert c found) : (s.inserted t c found).Pinned := by
  unfold MetaCache.inserted
  cases he : s.slot with
  | some e => exact h.goto (by rw [hpc]; rfl) rfl rfl
  | none =>
    have hput : ∀ pc : Pc, pc.pinned = true →
        (s.put t ⟨found.getD ⟨0, false⟩, found.isNone, {t}⟩ pc).Pinned := by
      intro pc hnew
      refine .put (by simp [hnew]) fun t' ht => ?_
      rw [h t', he]
      simp [ht]
    cases c <;> cases found <;> exact hput _ rfl

/-- **Every step keeps the pins.** -/
theorem Pinned.step (h : s.Pinned) (hstep : s.step l = some s') : s'.Pinned := by
  obtain ⟨t, he⟩ := effect_of_step hstep
  cases he with
  | goto pc hpin => exact h.goto hpin rfl rfl
  | pin e pc he hpc => exact h.pin he hpc
  | unpin e pc he hpc => exact h.unpin he hpc
  | hit e c he hpc =>
    have hpin : Pc.pinned (.unpin .done) = (s.pcs t).pinned := by
      rw [hpc]
      rfl
    refine h.goto hpin rfl ?_
    rw [he]
    exact congrArg some (pins_access e c)
  | refuse c out hpin hout hget =>
    have hpin : Pc.pinned .idle = (s.pcs t).pinned := hpin.symm
    exact h.goto hpin rfl rfl
  | insert c found ok hl hpc => exact h.inserted hpc
  | flush e pc he hpin => exact h.goto hpin (by rw [← pcs_tryFlush s e]; rfl) (pins_tryFlush he)
  | unlink e pc he hpin hcard hdirty hpc => exact h.unlink he hpin hcard hpc

theorem pinned_of_reaches {stored : Option RelForkMeta}
    (h : Reaches step (fun _ _ => True) (init stored) s) : s.Pinned :=
  h.invariant (pinned_init stored) fun _ _ _ hi _ hs => hi.step hs

/-- A thread in a call can go on: what it has pinned is there. -/
theorem Pinned.isSome_step (h : s.Pinned) (hidle : s.pcs t ≠ .idle) (hsweep : ∀ p, s.pcs t ≠ .sweep p)
    (ok : Bool) : (s.step (.run t ok)).isSome = true := by
  have hpresent : (s.pcs t).pinned = true → ∃ e, s.slot = some e := fun hpc =>
    (h.present hpc).imp fun _ he => he.1
  rw [MetaCache.step]
  cases hpc : s.pcs t with
  | idle => exact absurd hpc hidle
  | sweep p => exact absurd hpc (hsweep p)
  | lookup c =>
    rw [operate]
    cases s.slot <;> rfl
  | load c => rfl
  | insert c found => rfl
  | _ =>
    obtain ⟨e, he⟩ := hpresent (by rw [hpc]; rfl)
    simp [operate, he]

end Steps

/-- **A relation fork is created once**, between two deletions, by any number of threads whose sections
do not act on an answer of the store that is out of date; and once it is created, `get_nblocks` finds it
until it is deleted. -/
theorem atMostOnce_of_fresh {T : Type} [DecidableEq T] {stored : Option RelForkMeta}
    {s : MetaCache T} (h : Reaches step (fun s l => s.Fresh l = true) (init stored) s) :
    AtMostOnce s.history :=
  (h.invariant (inv_init stored) fun _ _ _ hi hfresh hs => hi.step hfresh hs).once

/-- Two threads create; the first one's slot is flushed and evicted in between. -/
theorem atMostOnce_of_fresh_two : ∃ s : MetaCache Bool, run step (init none)
    [.call true .createRelfork, .run true true, .run true true, .elsewhere true, .run true true,
      .run true true, .evict true, .run true true, .run true true, .run true true,
      .call false .createRelfork, .run false true, .run false true, .elsewhere false, .run false true,
      .run false true, .run false true, .run false true] = some s ∧
    s.history = [(.createRelfork, .ok), (.createRelfork, .alreadyExists)] ∧ AtMostOnce s.history := by
  let ls : List (Label Bool) := [.call true .createRelfork, .run true true, .run true true,
    .elsewhere true, .run true true, .run true true, .evict true, .run true true, .run true true,
    .run true true, .call false .createRelfork, .run false true, .run false true, .elsewhere false,
    .run false true, .run false true, .run false true, .run false true]
  cases hrun : run step (init none) ls with
  | none => exact absurd (congrArg Option.isSome hrun) (by decide)
  | some s =>
    refine ⟨s, rfl, ?_, atMostOnce_of_fresh (reaches_of_run hrun (by decide))⟩
    have hhistory : (run step (init none) ls).map MetaCache.history =
        some [(.createRelfork, .ok), (.createRelfork, .alreadyExists)] := by decide
    rw [hrun] at hhistory
    exact Option.some.inj hhistory

/-- **Two creators succeed**: both find no slot and no record, the first one inserts, its slot is flushed
and evicted, and the second one finds no duplicate in the chain. -/
theorem createdTwice : ∃ s : MetaCache Bool, Reaches step (fun _ _ => True) (init none) s ∧
    s.history = [(.createRelfork, .ok), (.createRelfork, .ok)] ∧ ¬ AtMostOnce s.history := by
  let ls : List (Label Bool) := [.call true .createRelfork, .run true true, .call false .createRelfork,
    .run false true, .run true true, .run false true, .elsewhere true, .run true true, .run true true,
    .evict true, .run true true, .run true true, .run true true, .elsewhere false, .run false true]
  cases hrun : run step (init none) ls with
  | none => exact absurd (congrArg Option.isSome hrun) (by decide)
  | some s =>
    have hhistory : (run step (init none) ls).map MetaCache.history =
        some [(.createRelfork, .ok), (.createRelfork, .ok)] := by decide
    rw [hrun] at hhistory
    have heq : s.history = [(.createRelfork, .ok), (.createRelfork, .ok)] := Option.some.inj hhistory
    refine ⟨s, reaches_of_run hrun (throughout_true _ _), heq, fun honce => ?_⟩
    exact absurd (honce [] [] [] _ heq (.inl rfl)) List.not_mem_nil

end MetaCache

end Tiko

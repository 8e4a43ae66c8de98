import Tiko.Cache.Fence

/-!
# The places of the threads

What a thread has pinned, claimed and locked follows from its place. An eviction claims a slot that
nobody has pinned, so a slot that it unlinks is its own; a tag is linked once; and a thread that has
stored the contents of a slot holds its `io_lock`, so nobody else stores under this tag.

* `Effect`, `effect_of_step`: what a step can do;
* `Control`: what the places say about the slots;
* **`Control.step`**: a step keeps it.
-/

namespace Tiko

open Lib

namespace CommitSys

variable {ι K P C T : Type}

/-! ## Places -/

/-- The slot that a thread has pinned. -/
def Pc.slot : Pc ι P C → Option ι
  | .hit _ i | .claimed _ i | .verify _ i | .clear _ i | .insert _ i | .check _ i _ | .flush _ i
  | .taken _ i | .fenced _ i _ | .stored _ i | .unpin _ i => some i
  | .idle | .lookup _ | .missed _ | .sweep _ | .pass _ _ | .pinning _ _ _ | .fence _ => none

/-- The slot whose `io_lock` a thread holds. -/
def Pc.flight : Pc ι P C → Option ι
  | .taken _ i | .fenced _ i _ | .stored _ i => some i
  | _ => none

/-- The threads with the read lock of the timeline. -/
def Pc.reading : Pc ι P C → Bool
  | .fenced _ _ _ | .stored _ _ => true
  | _ => false

/-- The slot that an eviction has claimed. -/
def Pc.claim : Pc ι P C → Option ι
  | .claimed _ i | .verify _ i | .clear _ i | .insert _ i | .flush (.evict _) i | .taken (.evict _) i
  | .fenced (.evict _) i _ | .stored (.evict _) i => some i
  | _ => none

/-- The slot that a thread relies on to be linked. -/
def Pc.linked : Pc ι P C → Option ι
  | .hit _ i | .flush _ i | .taken _ i | .fenced _ i _ | .stored _ i => some i
  | _ => none

/-- The slot that a thread has unlinked. -/
def Pc.free : Pc ι P C → Option ι
  | .clear _ i | .insert _ i => some i
  | _ => none

def Pass.commits : Pass → Bool
  | .relfork _ => false
  | .commit _ => true

/-- The slots that a commit has not flushed yet; `none` for a thread that does not run one. -/
def Pc.left : Pc ι P C → Option (List ι)
  | .pass p rest | .unpin (.pass p rest) _ => if p.commits then some rest else none
  | .pinning p i rest | .check p i rest | .flush (.pass p rest) i | .taken (.pass p rest) i
  | .fenced (.pass p rest) i _ | .stored (.pass p rest) i =>
    if p.commits then some (i :: rest) else none
  | .fence _ => some []
  | _ => none

theorem Pc.slot_of_flight {pc : Pc ι P C} {i : ι} (h : pc.flight = some i) : pc.slot = some i := by
  cases pc <;> first | exact h | exact absurd h (by simp [Pc.flight])

theorem Pc.slot_of_claim {pc : Pc ι P C} {i : ι} (h : pc.claim = some i) : pc.slot = some i := by
  cases pc with
  | flush k _ | taken k _ | fenced k _ _ | stored k _ => cases k <;> simp_all [Pc.claim, Pc.slot]
  | _ => first | exact h | exact absurd h (by simp [Pc.claim])

theorem Pc.slot_of_linked {pc : Pc ι P C} {i : ι} (h : pc.linked = some i) : pc.slot = some i := by
  cases pc <;> first | exact h | exact absurd h (by simp [Pc.linked])

theorem Pc.linked_of_flight {pc : Pc ι P C} {i : ι} (h : pc.flight = some i) : pc.linked = some i := by
  cases pc <;> first | exact h | exact absurd h (by simp [Pc.flight])

theorem Pc.claim_of_free {pc : Pc ι P C} {i : ι} (h : pc.free = some i) : pc.claim = some i := by
  cases pc <;> first | exact h | exact absurd h (by simp [Pc.free])

/-! ## What a step can do -/

/-- A slot with contents that are not recorded yet. -/
def Unsaved (s : CommitSys ι K P C T) (i : ι) : Prop :=
  (s.slots i).linked = true ∧ ((s.slots i).dirty = true ∨ (s.slots i).ioLock.isSome = true)

/-- A thread goes on and changes nothing else. -/
structure Still (s : CommitSys ι K P C T) (pc pc' : Pc ι P C) : Prop where
  slot : pc'.slot = pc.slot
  flight : pc.flight = none
  flight' : pc'.flight = none
  reading : pc.reading = false
  reading' : pc'.reading = false
  claim : ∀ i, pc'.claim = some i → pc.claim = some i
  linked : ∀ i, pc'.linked = some i → (s.slots i).linked = true ∨ (s.slots i).dirty = true
  hit : ∀ c i, pc' ≠ .hit c i
  free : pc'.free = none
  left : ∀ js, pc'.left = some js → ∃ ks, pc.left = some ks ∧ ∀ k ∈ ks, k ∈ js ∨ ¬s.Unsaved k

variable [DecidableEq ι] [DecidableEq K] [DecidableEq T] [Inhabited K] [Inhabited P]
  (L : Caches ι K P C) (checkpointer : T)

/-- What a step of a thread does. -/
inductive Effect (s : CommitSys ι K P C T) (l : Label ι P C T) (t : T) :
    CommitSys ι K P C T → Prop where
  | still (pc : Pc ι P C) (h : s.Still (s.pcs t) pc) : Effect s l t (s.goto t pc)
  | skip (p : Pass) (i : ι) (rest : List ι) (pc : Pc ι P C)
      (hpc : (s.pcs t = .pass p (i :: rest) ∧ pc = .pass p rest) ∨
        (s.pcs t = .check p i rest ∧ pc = .unpin (.pass p rest) i))
      (hdirty : (s.slots i).dirty = false) : Effect s l t ((s.skip i p).goto t pc)
  | found (c : C) (i : ι) (hpc : s.pcs t = .lookup c) (hfind : s.find L (L.tag c) = some i) :
      Effect s l t ((s.modify i fun e => e.pin t).goto t (.hit c i))
  | victim (job : Job P C) (i : ι) (hpc : s.pcs t = .sweep job) (hcard : (s.slots i).pins.card = 0) :
      Effect s l t ((s.modify i fun e => e.pin t).goto t (.claimed job i))
  | pin (p : Pass) (i : ι) (rest : List ι) (hpc : s.pcs t = .pinning p i rest) :
      Effect s l t ((s.modify i fun e => e.pin t).goto t (.check p i rest))
  | unpin (next : Next ι P C) (i : ι) (hpc : s.pcs t = .unpin next i) :
      Effect s l t ((s.modify i fun e => e.unpin t).goto t next.pc)
  | write (c : C) (i : ι) (p : P) (hpc : s.pcs t = .hit c i) (hlock : (s.slots i).ioLock = none) :
      Effect s l t (((s.modify i fun e => { e with data := p, dirty := true }).write (L.tag c) p).goto t
        (.unpin .done i))
  | take (k : Flusher ι P C) (i : ι) (hpc : s.pcs t = .flush k i) (hlock : (s.slots i).ioLock = none)
      (hdirty : (s.slots i).dirty = true) :
      Effect s l t
        ((s.modify i fun e => { e with dirty := false, ioLock := some t }).goto t (.taken k i))
  | enter (k : Flusher ι P C) (i : ι) (hpc : s.pcs t = .taken k i) :
      Effect s l t ({ s with readers := insert t s.readers }.goto t (.fenced k i s.headCkpt))
  | put (k : Flusher ι P C) (i : ι) (head : Checkpoint) (hpc : s.pcs t = .fenced k i head) :
      Effect s l t ((s.putObject head (s.slots i).tag (s.slots i).data).goto t (.stored k i))
  | fail (k : Flusher ι P C) (i : ι) (head : Checkpoint) (hpc : s.pcs t = .fenced k i head) :
      Effect s l t ({ s.modify i fun e => { e with dirty := true, ioLock := none } with
        readers := s.readers.erase t }.goto t (k.err i))
  | record (k : Flusher ι P C) (i : ι) (hpc : s.pcs t = .stored k i) :
      Effect s l t ({ (s.recordTag (s.slots i).tag).modify i fun e => { e with ioLock := none } with
        readers := s.readers.erase t }.goto t (k.ok i))
  | unlink (job : Job P C) (i : ι) (hpc : s.pcs t = .verify job i) (hcard : (s.slots i).pins.card = 1)
      (hdirty : (s.slots i).dirty = false) :
      Effect s l t ((s.modify i fun e => { e with linked := false }).goto t (.clear job i))
  | clear (job : Job P C) (i : ι) (hpc : s.pcs t = .clear job i) :
      Effect s l t ((s.modify i Slot.clear).goto t (.insert job i))
  | link (job : Job P C) (i : ι) (next : Next ι P C) (hpc : s.pcs t = .insert job i)
      (hfind : s.find L (L.tag job.call) = none) (hnext : next = .done ∨ next = .lookup job.call) :
      Effect s l t ((s.link i (L.tag job.call) job).goto t (.unpin next i))
  | begin (ckpt : Checkpoint) (ht : t = checkpointer) (hpc : s.pcs t = .idle) :
      Effect s l t ({ s with due := s.written.length, passedOver := ∅ }.goto t
        (.pass (.commit ckpt) L.slots))
  | commit (ckpt : Checkpoint) (a : Answer ι P) (hl : l = .run t a) (hpc : s.pcs t = .fence ckpt)
      (hreaders : s.readers = ∅) : Effect s l t ((s.commitSegment ckpt).goto t .idle)

section Steps

variable {L checkpointer} {s s' : CommitSys ι K P C T} {l : Label ι P C T} {t : T}

omit [DecidableEq ι] [DecidableEq K] [DecidableEq T] [Inhabited K] [Inhabited P] in
/-- Where a thread holds nothing before and after. -/
theorem Still.of_none {pc pc' : Pc ι P C} (h : pc.slot = none) (h' : pc'.slot = none)
    (hr : pc.reading = false) (hr' : pc'.reading = false)
    (hleft : ∀ js, pc'.left = some js → ∃ ks, pc.left = some ks ∧ ∀ k ∈ ks, k ∈ js ∨ ¬s.Unsaved k) :
    s.Still pc pc' := by
  have hnone : ∀ {q : Pc ι P C}, q.slot = none → q.flight = none := by
    intro q hq
    rcases hf : q.flight with _ | i
    · rfl
    · exact absurd (Pc.slot_of_flight hf) (by rw [hq]; simp)
  refine ⟨h'.trans h.symm, hnone h, hnone h', hr, hr', fun i hi => ?_, fun i hi => ?_, ?_, ?_, hleft⟩
  · exact absurd (Pc.slot_of_claim hi) (by rw [h']; simp)
  · exact absurd (Pc.slot_of_linked hi) (by rw [h']; simp)
  · rintro c i rfl
    exact absurd h' (by simp [Pc.slot])
  · rcases hf : pc'.free with _ | i
    · rfl
    · exact absurd (Pc.slot_of_claim (Pc.claim_of_free hf)) (by rw [h']; simp)

omit [DecidableEq ι] [DecidableEq K] [DecidableEq T] [Inhabited K] [Inhabited P] in
/-- Where a thread drops what it relies on. -/
theorem Still.unpin {pc : Pc ι P C} {next : Next ι P C} {i : ι} (h : pc.slot = some i)
    (hf : pc.flight = none) (hr : pc.reading = false)
    (hleft : ∀ js, (Pc.unpin next i).left = some js →
      ∃ ks, pc.left = some ks ∧ ∀ k ∈ ks, k ∈ js ∨ ¬s.Unsaved k) : s.Still pc (.unpin next i) :=
  ⟨h.symm, hf, rfl, hr, rfl, fun _ h => absurd h (by simp [Pc.claim]),
    fun _ h => absurd h (by simp [Pc.linked]), fun _ _ h => absurd h (by simp), rfl, hleft⟩

theorem effect_operate {a : Answer ι P} (h : s.operate L t a (s.pcs t) = some s') :
    Effect L checkpointer s (.run t a) t s' := by
  cases hpc : s.pcs t with
  | idle =>
    rw [hpc] at h
    exact absurd h (by simp [operate])
  | lookup c =>
    rw [hpc, operate] at h
    split at h
    · rename_i i hfind
      rw [← Option.some.inj h]
      exact .found c i hpc hfind
    · rw [← Option.some.inj h]
      refine .still _ (.of_none ?_ rfl ?_ rfl fun _ h => absurd h (by simp [Pc.left]))
      all_goals rw [hpc]; rfl
  | hit c i =>
    rw [hpc, operate] at h
    split_ifs at h with hlock
    have hnone : (s.slots i).ioLock = none := by simpa using hlock
    split at h
    · rename_i p _
      rw [← Option.some.inj h]
      exact .write c i p hpc hnone
    · rw [← Option.some.inj h]
      refine .still _ (.unpin ?_ ?_ ?_ fun _ h => absurd h (by simp [Pc.left]))
      all_goals rw [hpc]; rfl
  | missed c =>
    rw [hpc, operate] at h
    split at h <;> rw [← Option.some.inj h]
    all_goals
      refine .still _ (.of_none ?_ rfl ?_ rfl fun _ h => absurd h (by simp [Pc.left]))
      all_goals rw [hpc]; rfl
  | sweep job =>
    rw [hpc, operate] at h
    split at h
    · rw [← Option.some.inj h]
      refine .still _ (.of_none ?_ rfl ?_ rfl fun _ h => absurd h (by simp [Pc.left]))
      all_goals rw [hpc]; rfl
    · split_ifs at h with hfit
      rw [← Option.some.inj h]
      exact .victim job _ hpc hfit.2
  | claimed job i =>
    rw [hpc, operate] at h
    rw [← Option.some.inj h]
    split_ifs with hlinked
    · refine .still _ ⟨?_, ?_, rfl, ?_, rfl, ?_, fun j hj => ?_, fun _ _ h => absurd h (by simp), rfl,
        fun _ h => absurd h (by simp [Pc.left])⟩
      · rw [hpc]; rfl
      · rw [hpc]; rfl
      · rw [hpc]; rfl
      · rw [hpc]; exact fun _ h => h
      · rw [← Option.some.inj hj]
        exact .inl hlinked
    · refine .still _ ⟨?_, ?_, rfl, ?_, rfl, ?_, fun j hj => absurd hj (by simp [Pc.linked]),
        fun _ _ h => absurd h (by simp), rfl, fun _ h => absurd h (by simp [Pc.left])⟩
      · rw [hpc]; rfl
      · rw [hpc]; rfl
      · rw [hpc]; rfl
      · rw [hpc]; exact fun _ h => h
  | verify job i =>
    rw [hpc, operate] at h
    have habort : Effect L checkpointer s (.run t a) t (s.goto t (.unpin (.sweep job) i)) := by
      refine .still _ (.unpin ?_ ?_ ?_ fun _ h => absurd h (by simp [Pc.left]))
      all_goals rw [hpc]; rfl
    split_ifs at h with hcard hdirty
    · exact Option.some.inj h ▸ habort
    · exact Option.some.inj h ▸ habort
    · rw [← Option.some.inj h]
      exact .unlink job i hpc (not_not.mp hcard) (by simpa using hdirty)
  | clear job i =>
    rw [hpc, operate] at h
    split_ifs at h
    rw [← Option.some.inj h]
    exact .clear job i hpc
  | insert job i =>
    rw [hpc, operate] at h
    have hnext : ∀ b : Bool, (if b then Next.lookup job.call else (.done : Next ι P C)) = .done ∨
        (if b then Next.lookup job.call else (.done : Next ι P C)) = .lookup job.call := by
      intro b
      cases b
      · exact .inl rfl
      · exact .inr rfl
    split at h
    · rw [← Option.some.inj h]
      refine .still _ (.unpin ?_ ?_ ?_ fun _ h => absurd h (by simp [Pc.left]))
      all_goals rw [hpc]; rfl
    · rename_i hfind
      rw [← Option.some.inj h]
      exact .link job i _ hpc hfind (hnext _)
  | pass p rest =>
    rw [hpc] at h
    cases rest with
    | nil =>
      cases p <;> rw [← Option.some.inj h]
      · refine .still _ (.of_none ?_ rfl ?_ rfl fun _ h => absurd h (by simp [Pc.left]))
        all_goals rw [hpc]; rfl
      · refine .still _ (.of_none ?_ rfl ?_ rfl fun js _ => ⟨[], ?_, fun _ h => absurd h (by simp)⟩)
        all_goals rw [hpc]; rfl
    | cons i rest =>
      rw [operate] at h
      split_ifs at h with hdirty
      · rw [← Option.some.inj h]
        refine .still _ (.of_none ?_ rfl ?_ rfl fun js hjs => ⟨i :: rest, ?_, fun k hk => .inl ?_⟩)
        · rw [hpc]; rfl
        · rw [hpc]; rfl
        · rw [hpc]
          simp only [Pc.left] at hjs ⊢
          split_ifs at hjs ⊢
          rfl
        · simp only [Pc.left] at hjs
          split_ifs at hjs
          exact Option.some.inj hjs ▸ hk
      · rw [← Option.some.inj h]
        exact .skip p i rest _ (.inl ⟨hpc, rfl⟩) (by simpa using hdirty)
  | pinning p i rest =>
    rw [hpc, operate] at h
    rw [← Option.some.inj h]
    exact .pin p i rest hpc
  | check p i rest =>
    rw [hpc, operate] at h
    split_ifs at h with hdirty hcovers
    · rw [← Option.some.inj h]
      exact .skip p i rest _ (.inr ⟨hpc, rfl⟩) (by simpa using hdirty)
    · rw [← Option.some.inj h]
      refine .still _ ⟨?_, ?_, rfl, ?_, rfl, fun _ h => absurd h (by simp [Pc.claim]), fun j hj => ?_,
        fun _ _ h => absurd h (by simp), rfl, fun js hjs => ⟨i :: rest, ?_, fun k hk => .inl ?_⟩⟩
      · rw [hpc]; rfl
      · rw [hpc]; rfl
      · rw [hpc]; rfl
      · rw [← Option.some.inj hj]
        exact .inr (by simpa using hdirty)
      · rw [hpc]
        simp only [Pc.left] at hjs ⊢
        split_ifs at hjs ⊢
        rfl
      · simp only [Pc.left] at hjs
        split_ifs at hjs
        exact Option.some.inj hjs ▸ hk
    · rw [← Option.some.inj h]
      refine .still _ (.unpin ?_ ?_ ?_ fun js hjs => ?_)
      · rw [hpc]; rfl
      · rw [hpc]; rfl
      · rw [hpc]; rfl
      · cases p with
        | relfork rf => exact absurd hjs (by simp [Pc.left, Pass.commits])
        | commit ckpt => exact absurd rfl hcovers
  | flush k i =>
    rw [hpc, operate] at h
    split_ifs at h with hlock hdirty
    · rw [← Option.some.inj h]
      exact .take k i hpc (by simpa using hlock) hdirty
    · rw [← Option.some.inj h]
      cases k with
      | evict job =>
        refine .still _ ⟨?_, ?_, rfl, ?_, rfl, ?_,
          fun j hj => absurd hj (by simp [Flusher.ok, Pc.linked]),
          fun _ _ h => absurd h (by simp [Flusher.ok]), rfl,
          fun _ h => absurd h (by simp [Flusher.ok, Pc.left])⟩
        · rw [hpc]; rfl
        · rw [hpc]; rfl
        · rw [hpc]; rfl
        · rw [hpc]; exact fun _ h => h
      | pass p rest =>
        refine .still _ (.unpin ?_ ?_ ?_ fun js hjs => ⟨i :: rest, ?_, fun k hk => ?_⟩)
        · rw [hpc]; rfl
        · rw [hpc]; rfl
        · rw [hpc]; rfl
        · rw [hpc]
          simp only [Pc.left] at hjs ⊢
          split_ifs at hjs ⊢
          rfl
        · simp only [Pc.left] at hjs
          split_ifs at hjs
          rcases List.mem_cons.mp hk with rfl | hk
          · refine .inr fun hun => ?_
            rcases hun.2 with hd | hl
            · exact absurd hd hdirty
            · exact absurd hl hlock
          · exact .inl (Option.some.inj hjs ▸ hk)
  | taken k i =>
    rw [hpc, operate] at h
    rw [← Option.some.inj h]
    exact .enter k i hpc
  | fenced k i head =>
    rw [hpc, operate] at h
    split_ifs at h
    · rw [← Option.some.inj h]
      exact .put k i head hpc
    · rw [← Option.some.inj h]
      exact .fail k i head hpc
  | stored k i =>
    rw [hpc, operate] at h
    rw [← Option.some.inj h]
    exact .record k i hpc
  | unpin next i =>
    rw [hpc, operate] at h
    rw [← Option.some.inj h]
    exact .unpin next i hpc
  | fence ckpt =>
    rw [hpc, operate] at h
    split_ifs at h with hcard
    rw [← Option.some.inj h]
    exact .commit ckpt a rfl hpc (Finset.card_eq_zero.mp (not_not.mp hcard))

/-- **What a step can do.** -/
theorem effect_of_step (h : s.step L checkpointer l = some s') :
    ∃ t, Effect L checkpointer s l t s' := by
  cases l with
  | call t c =>
    rw [step] at h
    split at h
    · rename_i hpc
      rw [← Option.some.inj h]
      refine ⟨t, .still _ (.of_none ?_ rfl ?_ rfl fun _ h => absurd h (by simp [Pc.left]))⟩
      all_goals rw [hpc]; rfl
    · exact absurd h (by simp)
  | sync t rf =>
    rw [step] at h
    split at h
    · rename_i hpc
      rw [← Option.some.inj h]
      refine ⟨t, .still _ (.of_none ?_ rfl ?_ rfl fun _ h => ?_)⟩
      · rw [hpc]; rfl
      · rw [hpc]; rfl
      · exact absurd h (by simp [Pc.left, Pass.commits])
    · exact absurd h (by simp)
  | commit ckpt =>
    rw [step] at h
    split at h
    · rename_i hpc
      rw [← Option.some.inj h]
      exact ⟨checkpointer, .begin ckpt rfl hpc⟩
    · exact absurd h (by simp)
  | run t a => exact ⟨t, effect_operate h⟩

/-! ## Places and locks -/

section Skip

variable (s) (i : ι) (p : Pass)

omit [DecidableEq ι] [DecidableEq T] [Inhabited K] [Inhabited P] in
/-- Passing over a slot only changes what is passed over. -/
theorem skip_eq : ∃ passed, s.skip i p = { s with passedOver := passed } ∧ s.passedOver ⊆ passed := by
  cases p with
  | relfork rf => exact ⟨s.passedOver, rfl, subset_rfl⟩
  | commit ckpt =>
    rw [skip]
    split_ifs
    · exact ⟨_, rfl, Finset.subset_insert _ _⟩
    · exact ⟨s.passedOver, rfl, subset_rfl⟩

end Skip

variable (L checkpointer)

/-- What a thread has at its place. -/
structure Stands (s : CommitSys ι K P C T) (t : T) (pc : Pc ι P C) : Prop where
  pins : ∀ i, t ∈ (s.slots i).pins ↔ pc.slot = some i
  lock : ∀ i, (s.slots i).ioLock = some t ↔ pc.flight = some i
  reads : t ∈ s.readers ↔ pc.reading = true
  linked : ∀ i, pc.linked = some i → (s.slots i).linked = true
  free : ∀ i, pc.free = some i → (s.slots i).linked = false
  hit : ∀ c i, pc = .hit c i → (s.slots i).tag = L.tag c
  head : ∀ k i head, pc = .fenced k i head → head = s.headCkpt
  stored : ∀ k i, pc = .stored k i → s.objects s.headCkpt (s.slots i).tag = some (s.slots i).data
  sole : pc.left.isSome = true → t = checkpointer

/-- What the places of the threads say about the slots. -/
structure Control (s : CommitSys ι K P C T) : Prop where
  stands : ∀ t, Stands L checkpointer s t (s.pcs t)
  claim : ∀ t t' i, (s.pcs t).claim = some i → (s.pcs t').claim = some i → t = t'
  clean : ∀ i, (s.slots i).linked = false → (s.slots i).dirty = false
  unique : ∀ i j, (s.slots i).linked = true → (s.slots j).linked = true →
    (s.slots i).tag = (s.slots j).tag → i = j

variable {L checkpointer}

omit [DecidableEq ι] [DecidableEq K] [DecidableEq T] [Inhabited K] [Inhabited P] in
/-- A thread outside a section of the read lock does not hold it. -/
theorem Stands.not_reading {pc : Pc ι P C} (h : Stands L checkpointer s t pc) (hr : pc.reading = false) :
    t ∉ s.readers := fun hh => absurd (h.reads.mp hh) (by rw [hr]; simp)

omit [DecidableEq ι] [DecidableEq K] [Inhabited K] [Inhabited P] in
/-- A thread moves. -/
theorem Control.move {pc : Pc ι P C} (h : Control L checkpointer s)
    (hpcs : s'.pcs = Function.update s.pcs t pc)
    (hother : ∀ t' ≠ t, Stands L checkpointer s' t' (s.pcs t'))
    (hself : Stands L checkpointer s' t pc)
    (hclaim : ∀ i, pc.claim = some i → (s.pcs t).claim = some i ∨ ∀ t' ≠ t, (s.pcs t').claim ≠ some i)
    (hclean : ∀ i, (s'.slots i).linked = false → (s'.slots i).dirty = false)
    (hunique : ∀ i j, (s'.slots i).linked = true → (s'.slots j).linked = true →
      (s'.slots i).tag = (s'.slots j).tag → i = j) : Control L checkpointer s' := by
  refine ⟨fun t' => ?_, fun t₁ t₂ i h₁ h₂ => ?_, hclean, hunique⟩
  · rw [hpcs]
    by_cases ht : t' = t
    · rw [ht, Function.update_self]
      exact hself
    · rw [Function.update_of_ne ht]
      exact hother t' ht
  · rw [hpcs] at h₁ h₂
    by_cases ht₁ : t₁ = t <;> by_cases ht₂ : t₂ = t
    · rw [ht₁, ht₂]
    · rw [ht₁, Function.update_self] at h₁
      rw [Function.update_of_ne ht₂] at h₂
      rcases hclaim i h₁ with hc | hc
      · exact ht₁.trans (h.claim t t₂ i hc h₂)
      · exact absurd h₂ (hc t₂ ht₂)
    · rw [ht₂, Function.update_self] at h₂
      rw [Function.update_of_ne ht₁] at h₁
      rcases hclaim i h₂ with hc | hc
      · exact (h.claim t t₁ i hc h₁).symm.trans ht₂.symm
      · exact absurd h₁ (hc t₁ ht₁)
    · rw [Function.update_of_ne ht₁] at h₁
      rw [Function.update_of_ne ht₂] at h₂
      exact h.claim t₁ t₂ i h₁ h₂

omit [DecidableEq ι] [DecidableEq K] [DecidableEq T] [Inhabited K] [Inhabited P] in
/-- No other thread holds a slot that a thread has pinned alone. -/
theorem Control.alone (h : Control L checkpointer s) {i : ι} (hpin : t ∈ (s.slots i).pins)
    (hcard : (s.slots i).pins.card = 1) {t' : T} (ht' : (s.pcs t').slot = some i) : t' = t := by
  obtain ⟨x, hx⟩ := Finset.card_eq_one.mp hcard
  have hmem := ((h.stands t').pins i).mpr ht'
  rw [hx, Finset.mem_singleton] at hpin hmem
  exact hmem.trans hpin.symm

omit [DecidableEq ι] [DecidableEq K] [DecidableEq T] [Inhabited K] [Inhabited P] in
/-- The `io_lock` of a slot that is not linked is free. -/
theorem Control.unlocked (h : Control L checkpointer s) {i : ι} (hi : (s.slots i).linked = false) :
    (s.slots i).ioLock = none := by
  rcases hl : (s.slots i).ioLock with _ | t'
  · rfl
  · have hlinked := (h.stands t').linked i (Pc.linked_of_flight (((h.stands t').lock i).mp hl))
    exact absurd hlinked (by rw [hi]; decide)

omit [DecidableEq K] [DecidableEq T] [Inhabited K] [Inhabited P] in
theorem modify_slots (s : CommitSys ι K P C T) (i j : ι) (f : Slot K P T → Slot K P T) :
    (s.modify i f).slots j = if j = i then f (s.slots i) else s.slots j := Function.update_apply ..

omit [DecidableEq K] [DecidableEq T] [Inhabited K] [Inhabited P] in
/-- What a write to a slot leaves as it is. -/
theorem modify_same {α : Type} (g : Slot K P T → α) (s : CommitSys ι K P C T) {i : ι}
    {f : Slot K P T → Slot K P T} (hf : g (f (s.slots i)) = g (s.slots i)) (j : ι) :
    g ((s.modify i f).slots j) = g (s.slots j) := by
  rw [modify_slots]
  split_ifs with h
  · rw [hf, h]
  · rfl

omit [DecidableEq ι] [DecidableEq T] [Inhabited K] [Inhabited P] in
/-- The slot of a tag is found. -/
theorem find_eq_none_iff {tag : K} :
    s.find L tag = none ↔ ∀ i, (s.slots i).linked = true → (s.slots i).tag ≠ tag := by
  rw [find, List.find?_eq_none]
  simp only [Bool.and_eq_true, decide_eq_true_eq, not_and, L.mem_slots, forall_const]

omit [DecidableEq ι] [DecidableEq T] [Inhabited K] [Inhabited P] in
theorem of_find {tag : K} {i : ι} (h : s.find L tag = some i) :
    (s.slots i).linked = true ∧ (s.slots i).tag = tag := by
  have hp := List.find?_some h
  rwa [Bool.and_eq_true, decide_eq_true_eq] at hp

omit [DecidableEq ι] [DecidableEq K] [Inhabited K] [Inhabited P] in
/-- A thread moves, and the slots, the head and the objects stay. -/
theorem Control.goto {pc : Pc ι P C} (h : Control L checkpointer s)
    (hpcs : s'.pcs = Function.update s.pcs t pc) (hslots : s'.slots = s.slots)
    (hreaders : s'.readers = s.readers) (hhead : s'.headCkpt = s.headCkpt)
    (hobjects : s'.objects = s.objects) (hslot : pc.slot = (s.pcs t).slot)
    (hflight : (s.pcs t).flight = none) (hflight' : pc.flight = none)
    (hreading : (s.pcs t).reading = false) (hreading' : pc.reading = false)
    (hclaim : ∀ i, pc.claim = some i → (s.pcs t).claim = some i)
    (hlinked : ∀ i, pc.linked = some i → (s.slots i).linked = true) (hhit : ∀ c i, pc ≠ .hit c i)
    (hfree : pc.free = none) (hleft : pc.left.isSome = true → t = checkpointer) :
    Control L checkpointer s' := by
  have hst := h.stands t
  have hsame : ∀ {t' pc'}, Stands L checkpointer s t' pc' → Stands L checkpointer s' t' pc' := by
    intro t' pc' hs
    constructor
    · rw [hslots]; exact hs.pins
    · rw [hslots]; exact hs.lock
    · rw [hreaders]; exact hs.reads
    · rw [hslots]; exact hs.linked
    · rw [hslots]; exact hs.free
    · rw [hslots]; exact hs.hit
    · rw [hhead]; exact hs.head
    · rw [hslots, hhead, hobjects]; exact hs.stored
    · exact hs.sole
  refine h.move hpcs (fun t' _ => hsame (h.stands t')) (hsame ?_) (fun i hi => .inl (hclaim i hi)) ?_ ?_
  · refine ⟨fun i => hslot ▸ hst.pins i, fun i => ?_, ?_, hlinked, fun i hi => ?_, fun c i hc => ?_,
      fun k i head hk => ?_, fun k i hk => ?_, hleft⟩
    · rw [hflight', ← hflight]
      exact hst.lock i
    · rw [hreading', ← hreading]
      exact hst.reads
    · exact absurd hi (by rw [hfree]; simp)
    · exact absurd hc (hhit c i)
    · exact absurd hflight' (by rw [hk]; simp [Pc.flight])
    · exact absurd hflight' (by rw [hk]; simp [Pc.flight])
  · rw [hslots]; exact h.clean
  · rw [hslots]; exact h.unique

omit [DecidableEq K] [Inhabited K] [Inhabited P] in
/-- A thread takes or drops a pin. -/
theorem Control.repin {pc : Pc ι P C} {i : ι} {f : Slot K P T → Slot K P T}
    (h : Control L checkpointer s)
    (hkeep : f (s.slots i) = { s.slots i with pins := (f (s.slots i)).pins })
    (hpins : ∀ t' ≠ t, (t' ∈ (f (s.slots i)).pins ↔ t' ∈ (s.slots i).pins))
    (hpin : t ∈ (f (s.slots i)).pins ↔ pc.slot = some i)
    (hslot : ∀ j ≠ i, (s.pcs t).slot = some j ↔ pc.slot = some j)
    (hflight : (s.pcs t).flight = none) (hflight' : pc.flight = none)
    (hreading : (s.pcs t).reading = false) (hreading' : pc.reading = false)
    (hclaim : ∀ j, pc.claim = some j → ∀ t' ≠ t, (s.pcs t').claim ≠ some j)
    (hlinked : ∀ j, pc.linked = some j → (s.slots j).linked = true)
    (hhit : ∀ c j, pc = .hit c j → (s.slots j).tag = L.tag c)
    (hfree : pc.free = none) (hleft : pc.left.isSome = true → t = checkpointer) :
    Control L checkpointer ((s.modify i f).goto t pc) := by
  have hst := h.stands t
  have htag : ∀ j, ((s.modify i f).slots j).tag = (s.slots j).tag :=
    modify_same Slot.tag s (by rw [hkeep])
  have hdata : ∀ j, ((s.modify i f).slots j).data = (s.slots j).data :=
    modify_same Slot.data s (by rw [hkeep])
  have hdirty : ∀ j, ((s.modify i f).slots j).dirty = (s.slots j).dirty :=
    modify_same Slot.dirty s (by rw [hkeep])
  have hlink : ∀ j, ((s.modify i f).slots j).linked = (s.slots j).linked :=
    modify_same Slot.linked s (by rw [hkeep])
  have hlock : ∀ j, ((s.modify i f).slots j).ioLock = (s.slots j).ioLock :=
    modify_same Slot.ioLock s (by rw [hkeep])
  refine h.move rfl (fun t' ht' => ?_) ?_ (fun j hj => .inr (hclaim j hj)) (fun j hj => ?_)
    (fun j k hj hk htags => ?_)
  · have hs := h.stands t'
    refine ⟨fun j => ?_, fun j => ?_, hs.reads, fun j hj => ?_, fun j hj => ?_, fun c j hc => ?_,
      hs.head, fun k j hk => ?_, hs.sole⟩
    · change t' ∈ ((s.modify i f).slots j).pins ↔ _
      rw [modify_slots, ← hs.pins j]
      split_ifs with hji
      · rw [hpins t' ht', hji]
      · rfl
    · change ((s.modify i f).slots j).ioLock = _ ↔ _
      rw [hlock, hs.lock]
    · exact (hlink j).trans (hs.linked j hj)
    · exact (hlink j).trans (hs.free j hj)
    · exact (htag j).trans (hs.hit c j hc)
    · change s.objects s.headCkpt ((s.modify i f).slots j).tag = some ((s.modify i f).slots j).data
      rw [htag, hdata]
      exact hs.stored k j hk
  · refine ⟨fun j => ?_, fun j => ?_, ?_, fun j hj => ?_, fun j hj => ?_, fun c j hc => ?_,
      fun k j head hk => ?_, fun k j hk => ?_, hleft⟩
    · change t ∈ ((s.modify i f).slots j).pins ↔ _
      rw [modify_slots]
      split_ifs with hji
      · rw [hji]
        exact hpin
      · rw [hst.pins j]
        exact hslot j hji
    · change ((s.modify i f).slots j).ioLock = _ ↔ _
      rw [hlock, hst.lock, hflight, hflight']
    · rw [hreading', ← hreading]
      exact hst.reads
    · exact (hlink j).trans (hlinked j hj)
    · exact absurd hj (by rw [hfree]; simp)
    · exact (htag j).trans (hhit c j hc)
    · exact absurd hflight' (by rw [hk]; simp [Pc.flight])
    · exact absurd hflight' (by rw [hk]; simp [Pc.flight])
  · change ((s.modify i f).slots j).dirty = false
    rw [hdirty]
    exact h.clean j ((hlink j).symm.trans hj)
  · exact h.unique j k ((hlink j).symm.trans hj) ((hlink k).symm.trans hk)
      ((htag j).symm.trans (htags.trans (htag k)))

omit [DecidableEq K] [Inhabited K] [Inhabited P] in
/-- A thread writes the slot that it has pinned, and keeps the pin. -/
theorem Control.work {pc : Pc ι P C} {i : ι} {e : Slot K P T} (h : Control L checkpointer s)
    (hpcs : s'.pcs = Function.update s.pcs t pc) (hslots : s'.slots = Function.update s.slots i e)
    (hhead : s'.headCkpt = s.headCkpt) (hobjects : s'.objects = s.objects)
    (hreaders : ∀ t' ≠ t, (t' ∈ s'.readers ↔ t' ∈ s.readers)) (hreads : t ∉ s'.readers)
    (hreading : pc.reading = false) (hpins : e.pins = (s.slots i).pins)
    (hslot : (s.pcs t).slot = some i) (hslot' : pc.slot = some i)
    (hlock : (s.slots i).ioLock = some t ∨ (s.slots i).ioLock = none)
    (hlock' : (e.ioLock = some t ∧ pc.flight = some i) ∨ (e.ioLock = none ∧ pc.flight = none))
    (hclaim : ∀ j, pc.claim = some j → (s.pcs t).claim = some j)
    (hkeep : (e.linked = (s.slots i).linked ∧ e.tag = (s.slots i).tag) ∨
      ∀ t' ≠ t, (s.pcs t').linked ≠ some i ∧ (s.pcs t').free ≠ some i)
    (hlinked : pc.linked = some i → e.linked = true) (hfree : pc.free = some i → e.linked = false)
    (hhit : ∀ c j, pc ≠ .hit c j) (hleft : pc.left.isSome = true → t = checkpointer)
    (hclean : e.linked = false → e.dirty = false)
    (hunique : e.linked = true → ∀ j ≠ i, (s.slots j).linked = true → (s.slots j).tag ≠ e.tag) :
    Control L checkpointer s' := by
  have hself : s'.slots i = e := by rw [hslots, Function.update_self]
  have hne : ∀ {j}, j ≠ i → s'.slots j = s.slots j := fun hj => by
    rw [hslots, Function.update_of_ne hj]
  have hst := h.stands t
  have hof : ∀ {j}, pc.slot = some j → j = i := fun hj => Option.some.inj (hj.symm.trans hslot')
  refine h.move hpcs (fun t' ht' => ?_) ?_ (fun j hj => .inl (hclaim j hj)) (fun j hj => ?_)
    (fun j k hj hk htags => ?_)
  · have hs := h.stands t'
    -- no other thread holds the `io_lock` of the slot
    have hflight : ∀ {j}, (s.pcs t').flight = some j → j ≠ i := by
      rintro j hj rfl
      have hj := (hs.lock j).mpr hj
      rcases hlock with hl | hl
      · exact ht' (Option.some.inj (hj.symm.trans hl))
      · exact absurd hj (by rw [hl]; simp)
    have hsame : ∀ {j}, (s.pcs t').linked = some j ∨ (s.pcs t').free = some j →
        (s'.slots j).linked = (s.slots j).linked ∧ (s'.slots j).tag = (s.slots j).tag := by
      intro j hj
      by_cases hji : j = i
      · rw [hji, hself]
        rcases hkeep with hk | hk
        · exact hk
        · rcases hj with hj | hj
          · exact absurd (hji ▸ hj) (hk t' ht').1
          · exact absurd (hji ▸ hj) (hk t' ht').2
      · rw [hne hji]
        exact ⟨rfl, rfl⟩
    refine ⟨fun j => ?_, fun j => ?_, (hreaders t' ht').trans hs.reads, fun j hj => ?_, fun j hj => ?_,
      fun c j hc => ?_, fun k j head hk => ?_, fun k j hk => ?_, hs.sole⟩
    · by_cases hji : j = i
      · rw [hji, hself, hpins]
        exact hs.pins i
      · rw [hne hji]
        exact hs.pins j
    · by_cases hji : j = i
      · rw [hji, hself]
        refine ⟨fun hl => ?_, fun hl => absurd rfl (hflight hl)⟩
        rcases hlock' with ⟨hl', -⟩ | ⟨hl', -⟩
        · exact absurd (Option.some.inj (hl.symm.trans hl')) ht'
        · exact absurd hl (by rw [hl']; simp)
      · rw [hne hji]
        exact hs.lock j
    · rw [(hsame (.inl hj)).1]
      exact hs.linked j hj
    · rw [(hsame (.inr hj)).1]
      exact hs.free j hj
    · rw [(hsame (.inl (by rw [hc]; rfl))).2]
      exact hs.hit c j hc
    · rw [hhead]
      exact hs.head k j head hk
    · rw [hobjects, hhead, hne (hflight (by rw [hk]; rfl))]
      exact hs.stored k j hk
  · refine ⟨fun j => ?_, fun j => ?_, ?_, fun j hj => ?_, fun j hj => ?_,
      fun c j hc => absurd hc (hhit c j), fun k j head hk => ?_, fun k j hk => ?_, hleft⟩
    · by_cases hji : j = i
      · rw [hji, hself, hpins, hst.pins, hslot, hslot']
      · rw [hne hji, hst.pins, hslot, hslot']
    · by_cases hji : j = i
      · rw [hji, hself]
        rcases hlock' with ⟨hl, hf⟩ | ⟨hl, hf⟩ <;> simp [hl, hf]
      · rw [hne hji]
        refine ⟨fun hl => ?_, fun hl => absurd (hof (Pc.slot_of_flight hl)) hji⟩
        have hj := Pc.slot_of_flight ((hst.lock j).mp hl)
        exact absurd (Option.some.inj (hj.symm.trans hslot)) hji
    · exact iff_of_false hreads (by rw [hreading]; simp)
    · rw [hof (Pc.slot_of_linked hj), hself]
      exact hlinked (hof (Pc.slot_of_linked hj) ▸ hj)
    · have hji := hof (Pc.slot_of_claim (Pc.claim_of_free hj))
      rw [hji, hself]
      exact hfree (hji ▸ hj)
    · exact absurd hreading (by rw [hk]; simp [Pc.reading])
    · exact absurd hreading (by rw [hk]; simp [Pc.reading])
  · by_cases hji : j = i
    · rw [hji, hself] at hj ⊢
      exact hclean hj
    · rw [hne hji] at hj ⊢
      exact h.clean j hj
  · by_cases hji : j = i <;> by_cases hki : k = i
    · exact hji.trans hki.symm
    · rw [hji, hself] at hj htags
      rw [hne hki] at hk htags
      exact absurd htags.symm (hunique hj k hki hk)
    · rw [hki, hself] at hk htags
      rw [hne hji] at hj htags
      exact absurd htags (hunique hk j hji hj)
    · rw [hne hji] at hj htags
      rw [hne hki] at hk htags
      exact h.unique j k hj hk htags

omit [DecidableEq ι] [DecidableEq K] [Inhabited K] [Inhabited P] in
/-- A flush takes the read lock. -/
theorem Control.enter {k : Flusher ι P C} {i : ι} (h : Control L checkpointer s)
    (hpc : s.pcs t = .taken k i) : Control L checkpointer
      ({ s with readers := insert t s.readers }.goto t (.fenced k i s.headCkpt)) := by
  have hst := h.stands t
  rw [hpc] at hst
  refine h.move rfl (fun t' ht' => ?_) ?_ (fun j hj => .inl ?_) h.clean h.unique
  · have hs := h.stands t'
    refine { hs with reads := ?_ }
    change t' ∈ insert t s.readers ↔ _
    rw [Finset.mem_insert, or_iff_right ht']
    exact hs.reads
  · refine ⟨hst.pins, hst.lock, iff_of_true (Finset.mem_insert_self _ _) rfl, hst.linked,
      fun j hj => absurd hj (by simp [Pc.free]), fun c j hc => absurd hc (by simp), fun _ _ _ hh => ?_,
      fun _ _ hk => absurd hk (by simp), fun hl => hst.sole ?_⟩
    · cases hh
      rfl
    · cases k <;> exact hl
  · rw [hpc]
    cases k <;> exact hj

omit [DecidableEq ι] [Inhabited K] [Inhabited P] in
/-- A flush stores its contents. -/
theorem Control.put {k : Flusher ι P C} {i : ι} {head : Checkpoint} (h : Control L checkpointer s)
    (hpc : s.pcs t = .fenced k i head) : Control L checkpointer
      ((s.putObject head (s.slots i).tag (s.slots i).data).goto t (.stored k i)) := by
  have hst := h.stands t
  rw [hpc] at hst
  have hhead : head = s.headCkpt := hst.head k i head rfl
  refine h.move rfl (fun t' ht' => ?_) ?_ (fun j hj => .inl ?_) h.clean h.unique
  · have hs := h.stands t'
    refine { hs with stored := fun k' j hk' => ?_ }
    change (if _ ∧ _ then _ else _) = _
    split_ifs with htag
    · -- only one slot with this tag is linked, and its `io_lock` has one holder
      have hf : (s.pcs t').flight = some j := by rw [hk']; rfl
      have hji := h.unique j i (hs.linked j (Pc.linked_of_flight hf)) (hst.linked i rfl) htag.2
      have hl := (hs.lock j).mpr hf
      rw [hji, (hst.lock i).mpr rfl] at hl
      exact absurd (Option.some.inj hl).symm ht'
    · exact hs.stored k' j hk'
  · refine ⟨hst.pins, hst.lock, hst.reads, hst.linked, fun j hj => absurd hj (by simp [Pc.free]),
      fun c j hc => absurd hc (by simp), fun _ _ _ hh => absurd hh (by simp), fun k' j hk' => ?_,
      fun hl => hst.sole ?_⟩
    · cases hk'
      exact if_pos ⟨hhead.symm, rfl⟩
    · cases k <;> exact hl
  · rw [hpc]
    cases k <;> exact hj

omit [DecidableEq ι] [Inhabited K] [Inhabited P] in
/-- A pass finds a flag cleared. -/
theorem Control.skip {p : Pass} {i : ι} {rest : List ι} {pc : Pc ι P C} (h : Control L checkpointer s)
    (hpc : (s.pcs t = .pass p (i :: rest) ∧ pc = .pass p rest) ∨
      (s.pcs t = .check p i rest ∧ pc = .unpin (.pass p rest) i)) :
    Control L checkpointer ((s.skip i p).goto t pc) := by
  have hst := h.stands t
  obtain ⟨passed, hskip, -⟩ := s.skip_eq i p
  rw [hskip]
  rcases hpc with ⟨hpc, rfl⟩ | ⟨hpc, rfl⟩ <;> rw [hpc] at hst
  all_goals
    refine h.goto rfl rfl rfl rfl rfl (by rw [hpc]; rfl) (by rw [hpc]; rfl) rfl (by rw [hpc]; rfl) rfl
      (fun _ hj => absurd hj (by simp [Pc.claim])) (fun _ hj => absurd hj (by simp [Pc.linked]))
      (fun _ _ hh => absurd hh (by simp)) rfl fun hl => hst.sole ?_
    cases p <;> exact hl

omit [DecidableEq K] [Inhabited K] [Inhabited P] in
/-- A thread pins a slot. -/
theorem Control.pin {pc : Pc ι P C} {i : ι} (h : Control L checkpointer s)
    (hnone : (s.pcs t).slot = none) (hslot : pc.slot = some i) (hflight : (s.pcs t).flight = none)
    (hflight' : pc.flight = none) (hreading : (s.pcs t).reading = false)
    (hreading' : pc.reading = false)
    (hclaim : ∀ j, pc.claim = some j → ∀ t' ≠ t, (s.pcs t').claim ≠ some j)
    (hlinked : ∀ j, pc.linked = some j → (s.slots j).linked = true)
    (hhit : ∀ c j, pc = .hit c j → (s.slots j).tag = L.tag c) (hfree : pc.free = none)
    (hleft : pc.left.isSome = true → t = checkpointer) :
    Control L checkpointer ((s.modify i fun e => e.pin t).goto t pc) := by
  refine h.repin rfl (fun t' ht' => ?_) ?_ (fun j hj => ?_) hflight hflight' hreading hreading' hclaim
    hlinked hhit hfree hleft
  · exact Finset.mem_insert.trans (or_iff_right ht')
  · exact iff_of_true (Finset.mem_insert_self _ _) hslot
  · rw [hnone, hslot]
    exact iff_of_false (by simp) fun hh => hj (Option.some.inj hh).symm

omit [DecidableEq K] [Inhabited K] [Inhabited P] in
theorem Control.unpin {next : Next ι P C} {i : ι} (h : Control L checkpointer s)
    (hpc : s.pcs t = .unpin next i) :
    Control L checkpointer ((s.modify i fun e => e.unpin t).goto t next.pc) := by
  have hst := h.stands t
  have hnone : next.pc.slot = none := by cases next <;> rfl
  refine h.repin rfl (fun t' ht' => ?_) ?_ (fun j hj => ?_) (by rw [hpc]; rfl) ?_ (by rw [hpc]; rfl)
    ?_ (fun j hj => ?_) (fun j hj => ?_) (fun c j hc => ?_) ?_ fun hl => hst.sole ?_
  · exact Finset.mem_erase.trans (and_iff_right ht')
  · rw [hnone]
    exact iff_of_false (fun hh => (Finset.mem_erase.mp hh).1 rfl) (by simp)
  · rw [hpc, hnone]
    exact iff_of_false (fun hh => hj (Option.some.inj hh).symm) (by simp)
  · cases next <;> rfl
  · cases next <;> rfl
  · exact absurd (Pc.slot_of_claim hj) (by rw [hnone]; simp)
  · exact absurd (Pc.slot_of_linked hj) (by rw [hnone]; simp)
  · exact absurd hnone (by rw [hc]; simp [Pc.slot])
  · cases next <;> rfl
  · rw [hpc]
    cases next with
    | pass p rest => exact hl
    | done | lookup _ | sweep _ => exact absurd hl (by simp [Next.pc, Pc.left])

omit [DecidableEq K] [Inhabited K] [Inhabited P] in
theorem Control.write {c : C} {i : ι} {p : P} {tag : K} (h : Control L checkpointer s)
    (hpc : s.pcs t = .hit c i) (hlock : (s.slots i).ioLock = none) :
    Control L checkpointer (((s.modify i fun e => { e with data := p, dirty := true }).write tag p).goto t
      (.unpin .done i)) := by
  have hst := h.stands t
  rw [hpc] at hst
  have hlinked := hst.linked i rfl
  refine h.work rfl rfl rfl rfl (fun _ _ => Iff.rfl) (hst.not_reading rfl)
    rfl rfl (by rw [hpc]; rfl) rfl (.inr hlock) (.inr ⟨hlock, rfl⟩)
    (fun _ hj => absurd hj (by simp [Pc.claim])) (.inl ⟨rfl, rfl⟩)
    (fun hj => absurd hj (by simp [Pc.linked]))
    (fun hj => absurd hj (by simp [Pc.free])) (fun _ _ hh => absurd hh (by simp))
    (fun hl => absurd hl (by simp [Pc.left])) (fun hl => ?_) fun _ j hj hl htag => ?_
  · exact absurd (hlinked.symm.trans hl) (by decide)
  · exact hj (h.unique j i hl hlinked htag)

omit [DecidableEq K] [Inhabited K] [Inhabited P] in
/-- A flush clears the flag. -/
theorem Control.take {k : Flusher ι P C} {i : ι} (h : Control L checkpointer s)
    (hpc : s.pcs t = .flush k i) (hlock : (s.slots i).ioLock = none) :
    Control L checkpointer
      ((s.modify i fun e => { e with dirty := false, ioLock := some t }).goto t (.taken k i)) := by
  have hst := h.stands t
  rw [hpc] at hst
  have hlinked := hst.linked i rfl
  refine h.work rfl rfl rfl rfl (fun _ _ => Iff.rfl) (hst.not_reading rfl)
    rfl rfl (by rw [hpc]; rfl) rfl (.inr hlock) (.inl ⟨rfl, rfl⟩) (fun j hj => ?_) (.inl ⟨rfl, rfl⟩)
    (fun _ => hlinked) (fun hj => absurd hj (by simp [Pc.free])) (fun _ _ hh => absurd hh (by simp))
    (fun hl => hst.sole ?_) (fun _ => rfl) fun _ j hj hl htag => ?_
  · rw [hpc]
    cases k <;> exact hj
  · cases k <;> exact hl
  · exact hj (h.unique j i hl hlinked htag)

omit [DecidableEq K] [Inhabited K] [Inhabited P] in
/-- A flush has failed. -/
theorem Control.fail {k : Flusher ι P C} {i : ι} {head : Checkpoint} (h : Control L checkpointer s)
    (hpc : s.pcs t = .fenced k i head) :
    Control L checkpointer ({ s.modify i fun e => { e with dirty := true, ioLock := none } with
      readers := s.readers.erase t }.goto t (k.err i)) := by
  have hst := h.stands t
  rw [hpc] at hst
  have hlinked := hst.linked i rfl
  refine h.work rfl rfl rfl rfl
    (fun t' ht' => Finset.mem_erase.trans (and_iff_right ht')) (Finset.notMem_erase t s.readers)
    ?_ rfl (by rw [hpc]; rfl) ?_ (.inl ((hst.lock i).mpr rfl)) (.inr ⟨rfl, ?_⟩) (fun j hj => ?_)
    (.inl ⟨rfl, rfl⟩) (fun _ => hlinked) (fun hj => ?_) (fun c j hh => ?_) (fun hl => ?_)
    (fun hl => absurd (hlinked.symm.trans hl) (by decide)) fun _ j hj hl htag => ?_
  · cases k <;> rfl
  · cases k <;> rfl
  · cases k <;> rfl
  · cases k <;> exact absurd hj (by simp [Flusher.err, Pc.claim])
  · cases k <;> exact absurd hj (by simp [Flusher.err, Pc.free])
  · cases k <;> exact absurd hh (by simp [Flusher.err])
  · cases k <;> exact absurd hl (by simp [Flusher.err, Pc.left])
  · exact hj (h.unique j i hl hlinked htag)

omit [Inhabited K] [Inhabited P] in
/-- A flush records its tag. -/
theorem Control.record {k : Flusher ι P C} {i : ι} {tag : K} (h : Control L checkpointer s)
    (hpc : s.pcs t = .stored k i) :
    Control L checkpointer ({ (s.recordTag tag).modify i fun e => { e with ioLock := none } with
      readers := s.readers.erase t }.goto t (k.ok i)) := by
  have hst := h.stands t
  rw [hpc] at hst
  have hlinked := hst.linked i rfl
  refine h.work rfl rfl rfl rfl
    (fun t' ht' => Finset.mem_erase.trans (and_iff_right ht')) (Finset.notMem_erase t s.readers)
    ?_ rfl (by rw [hpc]; rfl) ?_ (.inl ((hst.lock i).mpr rfl)) (.inr ⟨rfl, ?_⟩) (fun j hj => ?_)
    (.inl ⟨rfl, rfl⟩) (fun _ => hlinked) (fun hj => ?_) (fun c j hh => ?_) (fun hl => hst.sole ?_)
    (fun hl => h.clean i hl) fun _ j hj hl htag => ?_
  · cases k <;> rfl
  · cases k <;> rfl
  · cases k <;> rfl
  · rw [hpc]
    cases k with
    | evict job => exact hj
    | pass p rest => exact absurd hj (by simp [Flusher.ok, Pc.claim])
  · cases k <;> exact absurd hj (by simp [Flusher.ok, Pc.free])
  · cases k <;> exact absurd hh (by simp [Flusher.ok])
  · cases k with
    | evict job => exact absurd hl (by simp [Flusher.ok, Pc.left])
    | pass p rest => cases p <;> exact hl
  · exact hj (h.unique j i hl hlinked htag)

omit [DecidableEq ι] [DecidableEq K] [DecidableEq T] [Inhabited K] [Inhabited P] in
/-- An eviction that has verified its slot finds it recorded. -/
theorem Control.not_unsaved {job : Job P C} {i : ι} (h : Control L checkpointer s)
    (hpc : s.pcs t = .verify job i) (hcard : (s.slots i).pins.card = 1)
    (hdirty : (s.slots i).dirty = false) : (s.slots i).ioLock = none ∧ ¬s.Unsaved i := by
  have hmem : t ∈ (s.slots i).pins := ((h.stands t).pins i).mpr (by rw [hpc]; rfl)
  have hlock : (s.slots i).ioLock = none := by
    rcases hl : (s.slots i).ioLock with _ | t'
    · rfl
    · have hf := ((h.stands t').lock i).mp hl
      rw [h.alone hmem hcard (Pc.slot_of_flight hf), hpc] at hf
      exact absurd hf (by simp [Pc.flight])
  refine ⟨hlock, ?_⟩
  rintro ⟨-, hd | hl⟩
  · exact absurd hd (by rw [hdirty]; decide)
  · exact absurd hl (by rw [hlock]; simp)

omit [DecidableEq K] [Inhabited K] [Inhabited P] in
theorem Control.unlink {job : Job P C} {i : ι} (h : Control L checkpointer s)
    (hpc : s.pcs t = .verify job i) (hcard : (s.slots i).pins.card = 1)
    (hdirty : (s.slots i).dirty = false) :
    Control L checkpointer
      ((s.modify i fun e => { e with linked := false }).goto t (.clear job i)) := by
  have hst := h.stands t
  have hmem : t ∈ (s.slots i).pins := (hst.pins i).mpr (by rw [hpc]; rfl)
  have hlock := (h.not_unsaved hpc hcard hdirty).1
  rw [hpc] at hst
  refine h.work rfl rfl rfl rfl (fun _ _ => Iff.rfl) (hst.not_reading rfl)
    rfl rfl (by rw [hpc]; rfl) rfl (.inr hlock) (.inr ⟨hlock, rfl⟩) (fun j hj => ?_)
    (.inr fun t' ht' => ⟨fun hj => ?_, fun hj => ?_⟩) (fun hj => absurd hj (by simp [Pc.linked]))
    (fun _ => rfl) (fun _ _ hh => absurd hh (by simp)) (fun hl => absurd hl (by simp [Pc.left]))
    (fun _ => hdirty) fun hl => absurd hl (by simp)
  · rw [hpc]
    exact hj
  · exact ht' (h.alone hmem hcard (Pc.slot_of_linked hj))
  · exact ht' (h.alone hmem hcard (Pc.slot_of_claim (Pc.claim_of_free hj)))

omit [DecidableEq ι] [DecidableEq K] [DecidableEq T] [Inhabited K] [Inhabited P] in
/-- Nobody else relies on a slot that a thread has unlinked. -/
theorem Control.freed {i : ι} (h : Control L checkpointer s) (hfree : (s.pcs t).free = some i) {t' : T}
    (ht' : t' ≠ t) : (s.pcs t').linked ≠ some i ∧ (s.pcs t').free ≠ some i := by
  refine ⟨fun hj => ?_, fun hj => ?_⟩
  · have hl := (h.stands t').linked i hj
    exact absurd (((h.stands t).free i hfree).symm.trans hl) (by decide)
  · exact ht' (h.claim t' t i (Pc.claim_of_free hj) (Pc.claim_of_free hfree))

omit [DecidableEq K] in
theorem Control.clear {job : Job P C} {i : ι} (h : Control L checkpointer s)
    (hpc : s.pcs t = .clear job i) :
    Control L checkpointer ((s.modify i Slot.clear).goto t (.insert job i)) := by
  have hst := h.stands t
  have hfreed : ∀ t' ≠ t, (s.pcs t').linked ≠ some i ∧ (s.pcs t').free ≠ some i := fun _ =>
    h.freed (by rw [hpc]; rfl)
  rw [hpc] at hst
  have hfree := hst.free i rfl
  have hlock := h.unlocked hfree
  refine h.work rfl rfl rfl rfl (fun _ _ => Iff.rfl) (hst.not_reading rfl)
    rfl rfl (by rw [hpc]; rfl) rfl (.inr hlock) (.inr ⟨hlock, rfl⟩) (fun j hj => ?_) (.inr hfreed)
    (fun hj => absurd hj (by simp [Pc.linked])) (fun _ => hfree) (fun _ _ hh => absurd hh (by simp))
    (fun hl => absurd hl (by simp [Pc.left])) (fun _ => rfl)
    fun hl => absurd (hfree.symm.trans hl) (by decide)
  rw [hpc]
  exact hj

section Link

variable (s) (i : ι) (tag : K) (job : Job P C)

omit [DecidableEq K] [DecidableEq T] [Inhabited K] [Inhabited P] in
/-- An insert writes one slot, and is a write where its contents are new. -/
theorem link_eq : s.link i tag job = { s with
    slots := Function.update s.slots i { s.slots i with
      tag := tag, data := job.data, dirty := (s.slots i).dirty || job.markDirty, linked := true }
    written := if job.markDirty then s.written ++ [(tag, job.data)] else s.written } := by
  rw [link]
  split_ifs <;> rfl

end Link

omit [Inhabited K] [Inhabited P] in
theorem Control.link {job : Job P C} {i : ι} {next : Next ι P C} (h : Control L checkpointer s)
    (hpc : s.pcs t = .insert job i) (hfind : s.find L (L.tag job.call) = none)
    (hnext : next = .done ∨ next = .lookup job.call) :
    Control L checkpointer ((s.link i (L.tag job.call) job).goto t (.unpin next i)) := by
  have hst := h.stands t
  have hfreed : ∀ t' ≠ t, (s.pcs t').linked ≠ some i ∧ (s.pcs t').free ≠ some i := fun _ =>
    h.freed (by rw [hpc]; rfl)
  rw [hpc] at hst
  have hlock := h.unlocked (hst.free i rfl)
  rw [link_eq]
  refine h.work rfl rfl rfl rfl (fun _ _ => Iff.rfl) (hst.not_reading rfl)
    rfl rfl (by rw [hpc]; rfl) rfl (.inr hlock) (.inr ⟨hlock, rfl⟩)
    (fun _ hj => absurd hj (by simp [Pc.claim])) (.inr hfreed)
    (fun hj => absurd hj (by simp [Pc.linked]))
    (fun hj => absurd hj (by simp [Pc.free])) (fun _ _ hh => absurd hh (by simp)) (fun hl => ?_)
    (fun hl => absurd hl (by simp)) fun _ j _ hl => find_eq_none_iff.mp hfind j hl
  rcases hnext with rfl | rfl <;> exact absurd hl (by simp [Pc.left])

omit [DecidableEq ι] [DecidableEq K] [Inhabited K] [Inhabited P] in
theorem Control.commit {ckpt : Checkpoint} (h : Control L checkpointer s)
    (hpc : s.pcs t = .fence ckpt) (hreaders : s.readers = ∅) :
    Control L checkpointer ((s.commitSegment ckpt).goto t .idle) := by
  have hno : ∀ t', (s.pcs t').reading = false := by
    intro t'
    by_contra hr
    have hmem := (h.stands t').reads.mpr (by simpa using hr)
    rw [hreaders] at hmem
    exact absurd hmem (Finset.notMem_empty _)
  have hst := h.stands t
  rw [hpc] at hst
  refine h.move rfl (fun t' _ => ?_) ?_ (fun j hj => absurd hj (by simp [Pc.claim])) h.clean h.unique
  · -- only a thread with the read lock knows the head
    refine { h.stands t' with head := fun k i head hk => ?_, stored := fun k i hk => ?_ }
    · exact absurd (hno t') (by rw [hk]; simp [Pc.reading])
    · exact absurd (hno t') (by rw [hk]; simp [Pc.reading])
  · exact ⟨hst.pins, hst.lock, hst.reads, fun _ hj => absurd hj (by simp [Pc.linked]),
      fun _ hj => absurd hj (by simp [Pc.free]), fun _ _ hh => absurd hh (by simp),
      fun _ _ _ hh => absurd hh (by simp), fun _ _ hh => absurd hh (by simp),
      fun hl => absurd hl (by simp [Pc.left])⟩

/-- **What the places say about the slots stays true.** -/
theorem Control.step (h : Control L checkpointer s) (hs : Effect L checkpointer s l t s') :
    Control L checkpointer s' := by
  have hst := h.stands t
  cases hs with
  | still pc hpc =>
    refine h.goto rfl rfl rfl rfl rfl hpc.slot hpc.flight hpc.flight' hpc.reading hpc.reading' hpc.claim
      (fun i hi => ?_) hpc.hit hpc.free fun hl => ?_
    · rcases hpc.linked i hi with hl | hd
      · exact hl
      · by_contra hl
        exact absurd hd (by rw [h.clean i (by simpa using hl)]; decide)
    · obtain ⟨js, hjs⟩ := Option.isSome_iff_exists.mp hl
      obtain ⟨ks, hks, -⟩ := hpc.left js hjs
      exact hst.sole (by rw [hks]; rfl)
  | skip p i rest pc hpc _ => exact h.skip hpc
  | found c i hpc hfind =>
    refine h.pin (by rw [hpc]; rfl) rfl (by rw [hpc]; rfl) rfl (by rw [hpc]; rfl) rfl
      (fun _ hj => absurd hj (by simp [Pc.claim])) (fun j hj => ?_) (fun c' j hc => ?_) rfl
      fun hl => absurd hl (by simp [Pc.left])
    · rw [← Option.some.inj hj]
      exact (of_find hfind).1
    · cases hc
      exact (of_find hfind).2
  | victim job i hpc hcard =>
    refine h.pin (by rw [hpc]; rfl) rfl (by rw [hpc]; rfl) rfl (by rw [hpc]; rfl) rfl
      (fun j hj t' _ hclaim => ?_) (fun _ hj => absurd hj (by simp [Pc.linked]))
      (fun _ _ hh => absurd hh (by simp)) rfl fun hl => absurd hl (by simp [Pc.left])
    have hmem := ((h.stands t').pins j).mpr (Pc.slot_of_claim hclaim)
    rw [← Option.some.inj hj, Finset.card_eq_zero.mp hcard] at hmem
    exact absurd hmem (Finset.notMem_empty _)
  | pin p i rest hpc =>
    refine h.pin (by rw [hpc]; rfl) rfl (by rw [hpc]; rfl) rfl (by rw [hpc]; rfl) rfl
      (fun _ hj => absurd hj (by simp [Pc.claim])) (fun _ hj => absurd hj (by simp [Pc.linked]))
      (fun _ _ hh => absurd hh (by simp)) rfl fun hl => hst.sole ?_
    rw [hpc]
    exact hl
  | unpin next i hpc => exact h.unpin hpc
  | write c i p hpc hlock => exact h.write hpc hlock
  | take k i hpc hlock _ => exact h.take hpc hlock
  | enter k i hpc => exact h.enter hpc
  | put k i head hpc => exact h.put hpc
  | fail k i head hpc => exact h.fail hpc
  | record k i hpc => exact h.record hpc
  | unlink job i hpc hcard hdirty => exact h.unlink hpc hcard hdirty
  | clear job i hpc => exact h.clear hpc
  | link job i next hpc hfind hnext => exact h.link hpc hfind hnext
  | begin ckpt ht hpc =>
    exact h.goto rfl rfl rfl rfl rfl (by rw [hpc]; rfl) (by rw [hpc]; rfl) rfl (by rw [hpc]; rfl) rfl
      (fun _ hj => absurd hj (by simp [Pc.claim])) (fun _ hj => absurd hj (by simp [Pc.linked]))
      (fun _ _ hh => absurd hh (by simp)) rfl fun _ => ht
  | commit ckpt a _ hpc hreaders => exact h.commit hpc hreaders

end Steps

end CommitSys

end Tiko

import Tiko.Cache.Places
import Tiko.Lib.Newest

/-!
# A checkpoint is complete

A slot with contents that are not recorded yet is dirty, or its `io_lock` is held for its flush
(`Unsaved`), and its contents are those of the last write to its tag. So a flush that records a tag
secures every write to it. What is left for a commit are the unsaved slots that its pass has not come
to, and those that it has passed over.

* `Secured`: a write is recorded, or what is recorded is newer;
* `Evolves`: what is secured stays so, and an unsaved slot stays unsaved until its tag is secured;
* `Kept`, `Kept.step`: every write is in a slot that is unsaved, or secured;
* **`complete_of_caught`**: in runs where each commit takes the write lock with nothing passed over,
  every checkpoint is complete;
* `missedFlush`: a checkpoint without a chunk that was patched before it.
-/

namespace Tiko

open Lib

namespace CommitSys

variable {ι K P C T : Type} [DecidableEq ι] [DecidableEq K] [DecidableEq T] [Inhabited K] [Inhabited P]
  (L : Caches ι K P C) (checkpointer : T)

section Steps

variable {L checkpointer} {s s' : CommitSys ι K P C T} {l : Label ι P C T} {t : T}

/-! ## Contents -/

section Last

variable {l : List (K × P)} {tag : K} {p q : P} {n : ℕ}

/-- The contents of the last write to a tag. -/
def last (l : List (K × P)) (tag : K) : Option P :=
  newest (fun x : K × P => if x.1 = tag then some x.2 else none) l

omit [Inhabited K] [Inhabited P] in
theorem last_append (l : List (K × P)) (k : K) (p : P) (tag : K) :
    last (l ++ [(k, p)]) tag = if k = tag then some p else last l tag := by
  rw [last, newest_append_singleton]
  dsimp only
  split_ifs <;> rfl

omit [Inhabited K] [Inhabited P] in
/-- No write to a tag is after the last one. -/
theorem le_of_last (h : last l tag = some p) (hn : l[n]? = some (tag, q)) :
    ∃ m, n ≤ m ∧ l[m]? = some (tag, p) := by
  induction l using List.reverseRecOn generalizing p with
  | nil => exact absurd hn (by simp)
  | append_singleton l x ih =>
    obtain ⟨k, y⟩ := x
    have hlt : n < (l ++ [(k, y)]).length := (List.getElem?_eq_some_iff.mp hn).1
    rw [List.length_append, List.length_singleton] at hlt
    rw [last_append] at h
    split_ifs at h with hk
    · refine ⟨l.length, by omega, ?_⟩
      rw [List.getElem?_append_right le_rfl, Nat.sub_self, hk, Option.some.inj h]
      rfl
    · rcases Nat.lt_succ_iff_lt_or_eq.mp hlt with hlt | rfl
      · rw [List.getElem?_append_left hlt] at hn
        obtain ⟨m, hm, hl⟩ := ih h hn
        exact ⟨m, hm, (List.getElem?_append_left (List.getElem?_eq_some_iff.mp hl).1).trans hl⟩
      · rw [List.getElem?_append_right le_rfl, Nat.sub_self] at hn
        exact absurd (congrArg Prod.fst (Option.some.inj hn)) hk

end Last

/-- The interval that runs, as a record. -/
def interval (s : CommitSys ι K P C T) : CommitRecord K := ⟨s.headCkpt, s.headCkpt, s.draft, s.due⟩

/-- A write is recorded, or what is recorded is newer. -/
def Secured (s : CommitSys ι K P C T) (n : ℕ) (tag : K) : Prop :=
  s.Contains (s.segments ++ [s.interval]) n tag

/-- Every write to a tag is secured. -/
def AllSecured (s : CommitSys ι K P C T) (tag : K) : Prop :=
  ∀ n p, s.written[n]? = some (tag, p) → s.Secured n tag

/-- **What is secured stays so, and an unsaved slot stays unsaved until its tag is secured.** -/
structure Evolves (s s' : CommitSys ι K P C T) : Prop where
  written : ∃ new, s'.written = s.written ++ new ∧
    ∀ x ∈ new, ∃ i, s'.Unsaved i ∧ (s'.slots i).tag = x.1
  objects : ∀ c tag p, s.objects c tag = some p → s'.objects c tag = some p ∨
    ∃ q, s'.objects c tag = some q ∧ last s'.written tag = some q
  records : ∀ r ∈ s.segments ++ [s.interval], ∃ r' ∈ s'.segments ++ [s'.interval],
    r'.prevCkpt = r.prevCkpt ∧ r.tags ⊆ r'.tags
  unsaved : ∀ i, s.Unsaved i → (s'.Unsaved i ∧ (s'.slots i).tag = (s.slots i).tag) ∨
    s'.AllSecured (s.slots i).tag

omit [DecidableEq ι] [DecidableEq T] [Inhabited K] [Inhabited P] in
/-- What some records contain. -/
theorem Evolves.contains (he : Evolves s s') {rs rs' : List (CommitRecord K)} {n : ℕ} {tag : K}
    (hrs : ∀ r ∈ rs, ∃ r' ∈ rs', r'.prevCkpt = r.prevCkpt ∧ r.tags ⊆ r'.tags)
    (h : s.Contains rs n tag) : s'.Contains rs' n tag := by
  obtain ⟨r, hr, htag, m, p, hnm, hm, hp⟩ := h
  obtain ⟨r', hr', hprev, hsub⟩ := hrs r hr
  obtain ⟨new, hnew, -⟩ := he.written
  have hm' : s'.written[m]? = some (tag, p) := by
    rw [hnew, List.getElem?_append_left (List.getElem?_eq_some_iff.mp hm).1]
    exact hm
  refine ⟨r', hr', hsub htag, ?_⟩
  rw [hprev]
  rcases he.objects _ _ _ hp with hp' | ⟨q, hq, hlast⟩
  · exact ⟨m, p, hnm, hm', hp'⟩
  · obtain ⟨m', hmm', hq'⟩ := le_of_last hlast hm'
    exact ⟨m', q, hnm.trans hmm', hq', hq⟩

omit [DecidableEq ι] [DecidableEq T] [Inhabited K] [Inhabited P] in
theorem Evolves.secured (he : Evolves s s') {n : ℕ} {tag : K} (h : s.Secured n tag) :
    s'.Secured n tag := he.contains he.records h

omit [DecidableEq ι] [DecidableEq T] [Inhabited K] [Inhabited P] in
theorem Evolves.of_lt (he : Evolves s s') {n : ℕ} (hn : n < s.written.length) :
    s'.written[n]? = s.written[n]? := by
  obtain ⟨new, hnew, -⟩ := he.written
  rw [hnew, List.getElem?_append_left hn]

variable (checkpointer)

/-- What a commit has left: each write before its call is secured, or its tag is in a slot that the pass
has not come to or has passed over. -/
def OnPass (s : CommitSys ι K P C T) (is : List ι) : Prop :=
  ∀ n < s.due, ∀ tag p, s.written[n]? = some (tag, p) →
    s.Secured n tag ∨ (∃ i ∈ is, s.Unsaved i ∧ (s.slots i).tag = tag) ∨ tag ∈ s.passedOver

/-- Every write is in a slot that is unsaved, or secured. -/
structure Kept (s : CommitSys ι K P C T) : Prop where
  latest : ∀ i, s.Unsaved i → last s.written (s.slots i).tag = some (s.slots i).data
  secured : ∀ n tag p, s.written[n]? = some (tag, p) →
    (∃ i, s.Unsaved i ∧ (s.slots i).tag = tag) ∨ s.Secured n tag
  pass : ∀ is, (s.pcs checkpointer).left = some is → s.OnPass is
  due : s.due ≤ s.written.length
  dues : ∀ r ∈ s.segments, r.due ≤ s.written.length
  complete : s.Complete

variable {checkpointer}

omit [DecidableEq ι] [Inhabited K] [Inhabited P] in
/-- A step that is not one of the commit's own. -/
theorem Kept.evolves {pc : Pc ι P C} (h : Kept checkpointer s) (he : Evolves s s')
    (hpcs : s'.pcs = Function.update s.pcs t pc) (hsegments : s'.segments = s.segments)
    (hdue : s'.due = s.due)
    (hlatest : ∀ i, s'.Unsaved i → last s'.written (s'.slots i).tag = some (s'.slots i).data)
    (hpassed : ∀ tag ∈ s.passedOver, tag ∈ s'.passedOver ∨ s'.AllSecured tag)
    (hleft : ∀ js, pc.left = some js → ∃ ks, (s.pcs t).left = some ks ∧
      ∀ k ∈ ks, k ∈ js ∨ ¬s.Unsaved k ∨ (s.slots k).tag ∈ s'.passedOver ∨
        s'.AllSecured (s.slots k).tag) : Kept checkpointer s' := by
  obtain ⟨new, hnew, hslots⟩ := he.written
  have hlen : s.written.length ≤ s'.written.length := by rw [hnew, List.length_append]; omega
  -- an unsaved slot of a tag, after the step
  have hun : ∀ {i tag n p}, s.Unsaved i → (s.slots i).tag = tag → s'.written[n]? = some (tag, p) →
      (s'.Unsaved i ∧ (s'.slots i).tag = tag) ∨ s'.Secured n tag := by
    rintro i tag n p hi rfl hn
    rcases he.unsaved i hi with hi | hi
    · exact .inl hi
    · exact .inr (hi n p hn)
  refine ⟨hlatest, fun n tag p hn => ?_, fun js hjs => ?_, ?_, fun r hr => ?_, ?_⟩
  · rcases lt_or_ge n s.written.length with hlt | hge
    · rcases h.secured n tag p ((he.of_lt hlt).symm.trans hn) with ⟨i, hi, htag⟩ | hsec
      · rcases hun hi htag hn with hi | hsec
        · exact .inl ⟨i, hi⟩
        · exact .inr hsec
      · exact .inr (he.secured hsec)
    · rw [hnew, List.getElem?_append_right hge] at hn
      obtain ⟨i, hi, htag⟩ := hslots _ (List.mem_of_getElem? hn)
      exact .inl ⟨i, hi, htag⟩
  · have hks : ∃ ks, (s.pcs checkpointer).left = some ks ∧ ∀ k ∈ ks, k ∈ js ∨ ¬s.Unsaved k ∨
        (s.slots k).tag ∈ s'.passedOver ∨ s'.AllSecured (s.slots k).tag := by
      rw [hpcs] at hjs
      by_cases ht : checkpointer = t
      · rw [ht, Function.update_self] at hjs
        rw [ht]
        exact hleft js hjs
      · rw [Function.update_of_ne ht] at hjs
        exact ⟨js, hjs, fun k hk => .inl hk⟩
    obtain ⟨ks, hks, hcover⟩ := hks
    intro n hn tag p hp
    rw [hdue] at hn
    have hp' := (he.of_lt (hn.trans_le h.due)).symm.trans hp
    rcases h.pass ks hks n hn tag p hp' with hsec | ⟨i, hi, hu, htag⟩ | hpass
    · exact .inl (he.secured hsec)
    · rcases hcover i hi with hij | hnot | hover | hall
      · rcases hun hu htag hp with hu | hsec
        · exact .inr (.inl ⟨i, hij, hu⟩)
        · exact .inl hsec
      · exact absurd hu hnot
      · exact .inr (.inr (htag ▸ hover))
      · exact .inl (htag ▸ hall n p (htag.symm ▸ hp))
    · rcases hpassed tag hpass with hpass | hall
      · exact .inr (.inr hpass)
      · exact .inl (hall n p hp)
  · exact hdue ▸ h.due.trans hlen
  · exact (h.dues r (hsegments ▸ hr)).trans hlen
  · intro pre r post hseg n hn tag p hp
    rw [hsegments] at hseg
    have hr : r ∈ s.segments := by rw [hseg]; simp
    have hp' := (he.of_lt (hn.trans_le (h.dues r hr))).symm.trans hp
    exact he.contains (fun r hr => ⟨r, hr, rfl, subset_rfl⟩) (h.complete pre r post hseg n hn tag p hp')

omit [DecidableEq ι] [Inhabited K] [Inhabited P] in
/-- A step that stores, records and writes nothing. -/
theorem Kept.same {pc : Pc ι P C} (h : Kept checkpointer s)
    (hpcs : s'.pcs = Function.update s.pcs t pc) (hsegments : s'.segments = s.segments)
    (hdue : s'.due = s.due) (hwritten : s'.written = s.written) (hobjects : s'.objects = s.objects)
    (hdraft : s'.draft = s.draft) (hhead : s'.headCkpt = s.headCkpt)
    (hun : ∀ i, s'.Unsaved i ↔ s.Unsaved i)
    (hslots : ∀ i, s.Unsaved i →
      (s'.slots i).tag = (s.slots i).tag ∧ (s'.slots i).data = (s.slots i).data)
    (hpassed : s.passedOver ⊆ s'.passedOver)
    (hleft : ∀ js, pc.left = some js → ∃ ks, (s.pcs t).left = some ks ∧
      ∀ k ∈ ks, k ∈ js ∨ ¬s.Unsaved k ∨ (s.slots k).tag ∈ s'.passedOver) : Kept checkpointer s' := by
  have hinterval : s'.interval = s.interval := by rw [interval, interval, hdraft, hhead, hdue]
  have he : Evolves s s' := by
    refine ⟨⟨[], by rw [hwritten, List.append_nil], fun _ hx => absurd hx (by simp)⟩,
      fun c tag p hp => .inl (hobjects ▸ hp), fun r hr => ⟨r, ?_, rfl, subset_rfl⟩,
      fun i hi => .inl ⟨(hun i).mpr hi, (hslots i hi).1⟩⟩
    rw [hsegments, hinterval]
    exact hr
  refine h.evolves he hpcs hsegments hdue (fun i hi => ?_) (fun tag ht => .inl (hpassed ht))
    fun js hjs => ?_
  · have hi := (hun i).mp hi
    rw [hwritten, (hslots i hi).1, (hslots i hi).2]
    exact h.latest i hi
  · obtain ⟨ks, hks, hcover⟩ := hleft js hjs
    refine ⟨ks, hks, fun k hk => ?_⟩
    rcases hcover k hk with hk | hk | hk
    · exact .inl hk
    · exact .inr (.inl hk)
    · exact .inr (.inr (.inl hk))

omit [Inhabited K] [Inhabited P] in
/-- A write to a slot that leaves it as unsaved as it was. -/
theorem Kept.modify {pc : Pc ι P C} {i : ι} {e : Slot K P T} (h : Kept checkpointer s)
    (hpcs : s'.pcs = Function.update s.pcs t pc) (hslots : s'.slots = Function.update s.slots i e)
    (hsegments : s'.segments = s.segments) (hdue : s'.due = s.due) (hwritten : s'.written = s.written)
    (hobjects : s'.objects = s.objects) (hdraft : s'.draft = s.draft)
    (hhead : s'.headCkpt = s.headCkpt) (hpassed : s'.passedOver = s.passedOver)
    (hun : e.linked = true ∧ (e.dirty = true ∨ e.ioLock.isSome = true) ↔ s.Unsaved i)
    (hsame : s.Unsaved i → e.tag = (s.slots i).tag ∧ e.data = (s.slots i).data)
    (hleft : ∀ js, pc.left = some js → ∃ ks, (s.pcs t).left = some ks ∧ ∀ k ∈ ks, k ∈ js) :
    Kept checkpointer s' := by
  have hself : s'.slots i = e := by rw [hslots, Function.update_self]
  have hne : ∀ {j}, j ≠ i → s'.slots j = s.slots j := fun hj => by
    rw [hslots, Function.update_of_ne hj]
  refine h.same hpcs hsegments hdue hwritten hobjects hdraft hhead (fun j => ?_) (fun j hj => ?_)
    hpassed.ge fun js hjs => ?_
  · by_cases hji : j = i
    · rw [hji, ← hun, Unsaved, hself]
    · rw [Unsaved, Unsaved, hne hji]
  · by_cases hji : j = i
    · rw [hji] at hj
      rw [hji, hself]
      exact hsame hj
    · rw [hne hji]
      exact ⟨rfl, rfl⟩
  · obtain ⟨ks, hks, hsub⟩ := hleft js hjs
    exact ⟨ks, hks, fun k hk => .inl (hsub k hk)⟩

omit [Inhabited K] [Inhabited P] in
/-- A call writes to a slot, which is unsaved then. -/
theorem Kept.write {pc : Pc ι P C} {i : ι} {e : Slot K P T} (h : Kept checkpointer s)
    (hpcs : s'.pcs = Function.update s.pcs t pc) (hslots : s'.slots = Function.update s.slots i e)
    (hsegments : s'.segments = s.segments) (hdue : s'.due = s.due)
    (hwritten : s'.written = s.written ++ [(e.tag, e.data)]) (hobjects : s'.objects = s.objects)
    (hdraft : s'.draft = s.draft) (hhead : s'.headCkpt = s.headCkpt)
    (hpassed : s'.passedOver = s.passedOver) (hun : e.linked = true ∧ e.dirty = true)
    (htag : s.Unsaved i → e.tag = (s.slots i).tag)
    (hunique : ∀ j ≠ i, (s.slots j).linked = true → (s.slots j).tag ≠ e.tag)
    (hleft : pc.left = none) : Kept checkpointer s' := by
  have hself : s'.slots i = e := by rw [hslots, Function.update_self]
  have hne : ∀ {j}, j ≠ i → s'.slots j = s.slots j := fun hj => by
    rw [hslots, Function.update_of_ne hj]
  have hinterval : s'.interval = s.interval := by rw [interval, interval, hdraft, hhead, hdue]
  have hi : s'.Unsaved i := by
    rw [Unsaved, hself]
    exact ⟨hun.1, .inl hun.2⟩
  have he : Evolves s s' := by
    refine ⟨⟨_, hwritten, fun x hx => ⟨i, hi, ?_⟩⟩, fun c tag p hp => .inl (hobjects ▸ hp),
      fun r hr => ⟨r, ?_, rfl, subset_rfl⟩, fun j hj => .inl ?_⟩
    · rw [hself, List.mem_singleton.mp hx]
    · rw [hsegments, hinterval]
      exact hr
    · by_cases hji : j = i
      · rw [hji] at hj ⊢
        exact ⟨hi, by rw [hself]; exact htag hj⟩
      · rw [Unsaved, hne hji]
        exact ⟨hj, rfl⟩
  refine h.evolves he hpcs hsegments hdue (fun j hj => ?_) (fun tag ht => .inl (hpassed.symm ▸ ht))
    fun js hjs => absurd hjs (by rw [hleft]; simp)
  rw [hwritten, last_append]
  by_cases hji : j = i
  · rw [hji, hself, if_pos rfl]
  · rw [Unsaved, hne hji] at hj
    rw [hne hji, if_neg (hunique j hji hj.1).symm]
    exact h.latest j hj

omit [DecidableEq ι] [Inhabited K] [Inhabited P] in
/-- A flush stores the contents of the last write to its tag. -/
theorem Kept.put {k : Flusher ι P C} {i : ι} {head : Checkpoint} (h : Kept checkpointer s)
    (hpc : s.pcs t = .fenced k i head) (hun : s.Unsaved i) :
    Kept checkpointer ((s.putObject head (s.slots i).tag (s.slots i).data).goto t (.stored k i)) := by
  have he : Evolves s ((s.putObject head (s.slots i).tag (s.slots i).data).goto t (.stored k i)) := by
    refine ⟨⟨[], (List.append_nil _).symm, fun _ hx => absurd hx (by simp)⟩, fun c tag p hp => ?_,
      fun r hr => ⟨r, hr, rfl, subset_rfl⟩, fun j hj => .inl ⟨hj, rfl⟩⟩
    by_cases hkey : c = head ∧ tag = (s.slots i).tag
    · exact .inr ⟨_, if_pos hkey, hkey.2 ▸ h.latest i hun⟩
    · exact .inl ((if_neg hkey).trans hp)
  refine h.evolves he rfl rfl rfl h.latest (fun tag ht => .inl ht)
    fun js hjs => ⟨js, ?_, fun _ h => .inl h⟩
  rw [hpc]
  cases k <;> exact hjs

omit [Inhabited K] [Inhabited P] in
/-- A flush records its tag, which secures all writes to it. -/
theorem Kept.record {k : Flusher ι P C} {i : ι} (h : Kept checkpointer s) (hpc : s.pcs t = .stored k i)
    (hun : s.Unsaved i) (hstored : s.objects s.headCkpt (s.slots i).tag = some (s.slots i).data) :
    Kept checkpointer ({ (s.recordTag (s.slots i).tag).modify i fun e => { e with ioLock := none } with
      readers := s.readers.erase t }.goto t (k.ok i)) := by
  set s' : CommitSys ι K P C T :=
    { (s.recordTag (s.slots i).tag).modify i fun e => { e with ioLock := none } with
      readers := s.readers.erase t }.goto t (k.ok i) with hs'
  have htag : ∀ j, (s'.slots j).tag = (s.slots j).tag :=
    modify_same Slot.tag (s.recordTag _) (i := i) (f := fun e => { e with ioLock := none }) rfl
  have hdata : ∀ j, (s'.slots j).data = (s.slots j).data :=
    modify_same Slot.data (s.recordTag _) (i := i) (f := fun e => { e with ioLock := none }) rfl
  have hne : ∀ {j}, j ≠ i → s'.slots j = s.slots j := fun hj => Function.update_of_ne hj ..
  have hall : s'.AllSecured (s.slots i).tag := by
    intro n p hn
    obtain ⟨m, hnm, hm⟩ := le_of_last (h.latest i hun) hn
    exact ⟨s'.interval, List.mem_append_right _ (List.mem_singleton.mpr rfl),
      Finset.mem_insert_self _ _, m, _, hnm, hm, hstored⟩
  have hold : ∀ j, s'.Unsaved j → s.Unsaved j := by
    intro j hj
    by_cases hji : j = i
    · exact hji ▸ hun
    · rwa [Unsaved, hne hji] at hj
  have he : Evolves s s' := by
    refine ⟨⟨[], (List.append_nil _).symm, fun _ hx => absurd hx (by simp)⟩, fun _ _ _ hp => .inl hp,
      fun r hr => ?_, fun j hj => ?_⟩
    · rcases List.mem_append.mp hr with hr | hr
      · exact ⟨r, List.mem_append_left _ hr, rfl, subset_rfl⟩
      · rw [List.mem_singleton.mp hr]
        exact ⟨s'.interval, List.mem_append_right _ (List.mem_singleton.mpr rfl), rfl,
          Finset.subset_insert _ _⟩
    · by_cases hji : j = i
      · exact .inr (hji ▸ hall)
      · rw [Unsaved, hne hji]
        exact .inl ⟨hj, rfl⟩
  refine h.evolves he rfl rfl rfl (fun j hj => ?_) (fun tag ht => ?_) fun js hjs => ?_
  · rw [htag, hdata]
    exact h.latest j (hold j hj)
  · by_cases hti : tag = (s.slots i).tag
    · exact .inr (hti ▸ hall)
    · exact .inl (Finset.mem_erase.mpr ⟨hti, ht⟩)
  · cases k with
    | evict job => exact absurd hjs (by simp [Flusher.ok, Pc.left])
    | pass p rest =>
      rw [hpc]
      simp only [Flusher.ok, Pc.left] at hjs ⊢
      split_ifs at hjs ⊢
      refine ⟨i :: rest, rfl, fun j hj => ?_⟩
      rcases List.mem_cons.mp hj with rfl | hj
      · exact .inr (.inr (.inr hall))
      · exact .inl (Option.some.inj hjs ▸ hj)

omit [DecidableEq ι] [Inhabited K] [Inhabited P] in
/-- A commit begins, and everything that is unsaved is before it. -/
theorem Kept.begin {ckpt : Checkpoint} (h : Kept checkpointer s) :
    Kept checkpointer ({ s with due := s.written.length, passedOver := ∅ }.goto checkpointer
      (.pass (.commit ckpt) L.slots)) := by
  -- a record's `due` does not matter for what it contains
  have hsec : ∀ {n tag}, s.Secured n tag →
      ({ s with due := s.written.length, passedOver := ∅ }.goto checkpointer
        (.pass (.commit ckpt) L.slots)).Secured n tag := by
    rintro n tag ⟨r, hr, htag, hm⟩
    rcases List.mem_append.mp hr with hr | hr
    · exact ⟨r, List.mem_append_left _ hr, htag, hm⟩
    · rw [List.mem_singleton.mp hr] at htag hm
      exact ⟨_, List.mem_append_right _ (List.mem_singleton.mpr rfl), htag, hm⟩
  refine ⟨h.latest, fun n tag p hn => (h.secured n tag p hn).imp id hsec, fun js hjs => ?_, le_rfl,
    h.dues, h.complete⟩
  intro n _ tag p hp
  change (Function.update s.pcs checkpointer _ checkpointer).left = some js at hjs
  rw [Function.update_self] at hjs
  rcases h.secured n tag p hp with ⟨i, hi, htag⟩ | hs
  · exact .inr (.inl ⟨i, Option.some.inj hjs ▸ L.mem_slots i, hi, htag⟩)
  · exact .inl (hsec hs)

omit [DecidableEq ι] [Inhabited K] [Inhabited P] in
/-- **A commit with nothing left and nothing passed over is complete.** -/
theorem Kept.commit {ckpt : Checkpoint} (h : Kept checkpointer s)
    (hpc : s.pcs checkpointer = .fence ckpt) (hpassed : s.passedOver = ∅) :
    Kept checkpointer ((s.commitSegment ckpt).goto checkpointer .idle) := by
  set s' : CommitSys ι K P C T := (s.commitSegment ckpt).goto checkpointer .idle with hs'
  have hrecord : ∀ {r}, r ∈ s.segments ++ [s.interval] →
      ∃ r' ∈ s'.segments, r'.prevCkpt = r.prevCkpt ∧ r.tags ⊆ r'.tags := by
    intro r hr
    rcases List.mem_append.mp hr with hr | hr
    · exact ⟨r, List.mem_append_left _ hr, rfl, subset_rfl⟩
    · rw [List.mem_singleton.mp hr]
      exact ⟨_, List.mem_append_right _ (List.mem_singleton.mpr rfl), rfl, subset_rfl⟩
  have he : Evolves s s' := by
    refine ⟨⟨[], (List.append_nil _).symm, fun _ hx => absurd hx (by simp)⟩, fun _ _ _ hp => .inl hp,
      fun r hr => ?_, fun j hj => .inl ⟨hj, rfl⟩⟩
    obtain ⟨r', hr', h'⟩ := hrecord hr
    exact ⟨r', List.mem_append_left _ hr', h'⟩
  refine ⟨h.latest, fun n tag p hn => (h.secured n tag p hn).imp id he.secured, fun js hjs => ?_, h.due,
    fun r hr => ?_, fun pre r post hseg n hn tag p hp => ?_⟩
  · change (Function.update s.pcs checkpointer _ checkpointer).left = some js at hjs
    rw [Function.update_self] at hjs
    exact absurd hjs (by simp [Pc.left])
  · rcases List.mem_append.mp hr with hr | hr
    · exact h.dues r hr
    · rw [List.mem_singleton.mp hr]
      exact h.due
  · change s.segments ++ [_] = pre ++ r :: post at hseg
    induction post using List.reverseRecOn with
    | nil =>
      -- the new record
      obtain ⟨hpre, hr⟩ := List.append_inj' hseg rfl
      have hr := (List.cons.inj hr).1
      rw [← hr] at hn
      rcases h.pass [] (by rw [hpc]; rfl) n hn tag p hp with hsec | ⟨i, hi, -⟩ | hover
      · rw [← hseg]
        exact he.contains (fun _ => hrecord) hsec
      · exact absurd hi (by simp)
      · exact absurd hover (by rw [hpassed]; simp)
    | append_singleton post x _ =>
      rw [← List.cons_append, ← List.append_assoc] at hseg
      have hseg := (List.append_inj' hseg rfl).1
      exact he.contains (fun r hr => ⟨r, hr, rfl, subset_rfl⟩)
        (h.complete pre r post hseg n hn tag p hp)

omit [DecidableEq ι] [DecidableEq K] [DecidableEq T] [Inhabited K] [Inhabited P] in
/-- A thread that flushes a slot has it unsaved. -/
theorem Control.unsaved (h : Control L checkpointer s) {i : ι} (hi : (s.pcs t).flight = some i) :
    s.Unsaved i :=
  ⟨(h.stands t).linked i (Pc.linked_of_flight hi), .inr (by rw [((h.stands t).lock i).mpr hi]; rfl)⟩

omit [DecidableEq ι] [Inhabited P] in
/-- Places of a pass have the same slots left. -/
theorem left_of_pass {k : Flusher ι P C} {i : ι} {q q' : Pc ι P C}
    (hq : q = .flush k i ∨ q = .taken k i) (hq' : q' = .taken k i ∨ ∃ head, q' = .fenced k i head)
    {js : List ι} (hjs : q'.left = some js) : ∃ ks, q.left = some ks ∧ ∀ k ∈ ks, k ∈ js := by
  refine ⟨js, ?_, fun _ h => h⟩
  rcases hq with rfl | rfl <;> rcases hq' with rfl | ⟨head, rfl⟩ <;> cases k <;> exact hjs

omit [DecidableEq ι] [Inhabited K] [Inhabited P] in
/-- A commit that passes over a slot notes what another thread flushes. -/
theorem Kept.skip {p : Pass} {i : ι} {rest : List ι} {pc : Pc ι P C} (h : Kept checkpointer s)
    (hpc : (s.pcs t = .pass p (i :: rest) ∧ pc = .pass p rest) ∨
      (s.pcs t = .check p i rest ∧ pc = .unpin (.pass p rest) i))
    (hdirty : (s.slots i).dirty = false) : Kept checkpointer ((s.skip i p).goto t pc) := by
  have hleft : ∀ js, pc.left = some js → (s.pcs t).left = some (i :: rest) ∧ js = rest ∧
      p.commits = true := by
    intro js hjs
    rcases hpc with ⟨hpc, rfl⟩ | ⟨hpc, rfl⟩
    all_goals
      rw [hpc]
      simp only [Pc.left] at hjs ⊢
      split_ifs at hjs ⊢ with hp
      exact ⟨rfl, (Option.some.inj hjs).symm, hp⟩
  have hnote : p.commits = true → s.Unsaved i → (s.slots i).tag ∈ (s.skip i p).passedOver := by
    intro hp hi
    have hlock : (s.slots i).ioLock.isSome = true :=
      hi.2.resolve_left (by rw [hdirty]; decide)
    cases p with
    | relfork rf => exact absurd hp (by simp [Pass.commits])
    | commit ckpt =>
      rw [CommitSys.skip, if_pos hlock]
      exact Finset.mem_insert_self _ _
  obtain ⟨passed, hskip, hsub⟩ := s.skip_eq i p
  rw [hskip] at hnote ⊢
  refine h.same rfl rfl rfl rfl rfl rfl rfl (fun _ => Iff.rfl) (fun _ _ => ⟨rfl, rfl⟩) hsub
    fun js hjs => ?_
  obtain ⟨hks, rfl, hp⟩ := hleft js hjs
  refine ⟨_, hks, fun k hk => ?_⟩
  rcases List.mem_cons.mp hk with rfl | hk
  · by_cases hi : s.Unsaved k
    · exact .inr (.inr (hnote hp hi))
    · exact .inr (.inl hi)
  · exact .inl hk

omit [Inhabited K] [Inhabited P] in
/-- An insert brings contents that are new, or those of the store. -/
theorem Kept.link {job : Job P C} {i : ι} {pc : Pc ι P C} (h : Kept checkpointer s)
    (hc : Control L checkpointer s) (hpc : s.pcs t = .insert job i)
    (hfind : s.find L (L.tag job.call) = none) (hleft : pc.left = none) :
    Kept checkpointer ((s.link i (L.tag job.call) job).goto t pc) := by
  have hfree := (hc.stands t).free i (by rw [hpc]; rfl)
  have hnot : ¬s.Unsaved i := fun hi => absurd (hfree.symm.trans hi.1) (by decide)
  rw [link_eq]
  by_cases hdirty : job.markDirty = true
  · rw [if_pos hdirty]
    exact h.write rfl rfl rfl rfl rfl rfl rfl rfl rfl ⟨rfl, by rw [hdirty, Bool.or_true]⟩
      (fun hi => absurd hi hnot) (fun j _ hl => find_eq_none_iff.mp hfind j hl) hleft
  · rw [if_neg hdirty]
    refine h.modify rfl rfl rfl rfl rfl rfl rfl rfl rfl (iff_of_false (fun hi => ?_) hnot)
      (fun hi => absurd hi hnot) fun js hjs => absurd hjs (by rw [hleft]; simp)
    rcases hi.2 with hd | hl
    · have hd : ((s.slots i).dirty || job.markDirty) = true := hd
      rw [hc.clean i hfree, Bool.false_or] at hd
      exact hdirty hd
    · have hl : (s.slots i).ioLock.isSome = true := hl
      exact absurd hl (by rw [hc.unlocked hfree]; simp)

/-- **Every write stays in a slot that is unsaved, or secured.** -/
theorem Kept.step (h : Kept checkpointer s) (hc : Control L checkpointer s)
    (hs : Effect L checkpointer s l t s') (hok : s.Caught l) : Kept checkpointer s' := by
  have hst := hc.stands t
  have hnone : ∀ {pc : Pc ι P C}, pc.left = none → ∀ js, pc.left = some js →
      ∃ ks, (s.pcs t).left = some ks ∧ ∀ k ∈ ks, k ∈ js :=
    fun hl js hjs => absurd hjs (by rw [hl]; simp)
  cases hs with
  | still pc hpc =>
    refine h.same rfl rfl rfl rfl rfl rfl rfl (fun _ => Iff.rfl) (fun _ _ => ⟨rfl, rfl⟩) subset_rfl
      fun js hjs => ?_
    obtain ⟨ks, hks, hcover⟩ := hpc.left js hjs
    exact ⟨ks, hks, fun k hk => (hcover k hk).imp id .inl⟩
  | skip p i rest pc hpc hdirty => exact h.skip hpc hdirty
  | found c i hpc hfind =>
    exact h.modify rfl rfl rfl rfl rfl rfl rfl rfl rfl Iff.rfl (fun _ => ⟨rfl, rfl⟩) (hnone rfl)
  | victim job i hpc hcard =>
    exact h.modify rfl rfl rfl rfl rfl rfl rfl rfl rfl Iff.rfl (fun _ => ⟨rfl, rfl⟩) (hnone rfl)
  | pin p i rest hpc =>
    refine h.modify rfl rfl rfl rfl rfl rfl rfl rfl rfl Iff.rfl (fun _ => ⟨rfl, rfl⟩) fun js hjs => ?_
    rw [hpc]
    exact ⟨js, hjs, fun _ h => h⟩
  | unpin next i hpc =>
    refine h.modify rfl rfl rfl rfl rfl rfl rfl rfl rfl Iff.rfl (fun _ => ⟨rfl, rfl⟩) fun js hjs => ?_
    rw [hpc]
    cases next with
    | pass p rest => exact ⟨js, hjs, fun _ h => h⟩
    | done | lookup _ | sweep _ => exact absurd hjs (by simp [Next.pc, Pc.left])
  | write c i p hpc hlock =>
    have htag := hst.hit c i hpc
    have hlinked := hst.linked i (by rw [hpc]; rfl)
    refine h.write rfl rfl rfl rfl (by rw [← htag]; rfl) rfl rfl rfl rfl ⟨hlinked, rfl⟩ (fun _ => rfl)
      (fun j hj hl ht => hj (hc.unique j i hl hlinked ht)) rfl
  | take k i hpc hlock hdirty =>
    refine h.modify rfl rfl rfl rfl rfl rfl rfl rfl rfl ?_ (fun _ => ⟨rfl, rfl⟩)
      fun js hjs => left_of_pass (.inl hpc) (.inl rfl) hjs
    exact and_congr_right fun _ => iff_of_true (.inr rfl) (.inl hdirty)
  | enter k i hpc =>
    refine h.same rfl rfl rfl rfl rfl rfl rfl (fun _ => Iff.rfl) (fun _ _ => ⟨rfl, rfl⟩) subset_rfl
      fun js hjs => ?_
    obtain ⟨ks, hks, hsub⟩ := left_of_pass (.inr hpc) (.inr ⟨_, rfl⟩) hjs
    exact ⟨ks, hks, fun k hk => .inl (hsub k hk)⟩
  | put k i head hpc => exact h.put hpc (hc.unsaved (by rw [hpc]; rfl))
  | fail k i head hpc =>
    have hun : s.Unsaved i := hc.unsaved (t := t) (by rw [hpc]; rfl)
    refine h.modify rfl rfl rfl rfl rfl rfl rfl rfl rfl ?_ (fun _ => ⟨rfl, rfl⟩) (hnone ?_)
    · exact and_congr_right fun _ => iff_of_true (.inl rfl) hun.2
    · cases k <;> rfl
  | record k i hpc =>
    exact h.record hpc (hc.unsaved (by rw [hpc]; rfl)) (hst.stored k i hpc)
  | unlink job i hpc hcard hdirty =>
    have hnot := (hc.not_unsaved hpc hcard hdirty).2
    exact h.modify rfl rfl rfl rfl rfl rfl rfl rfl rfl (iff_of_false (by simp) hnot)
      (fun hi => absurd hi hnot) (hnone rfl)
  | clear job i hpc =>
    have hfree := hst.free i (by rw [hpc]; rfl)
    have hnot : ¬s.Unsaved i := fun hi => absurd (hfree.symm.trans hi.1) (by decide)
    refine h.modify rfl rfl rfl rfl rfl rfl rfl rfl rfl (iff_of_false (fun hi => ?_) hnot)
      (fun hi => absurd hi hnot) (hnone rfl)
    exact absurd (hfree.symm.trans hi.1) (by decide)
  | link job i next hpc hfind hnext =>
    have hleft : (Pc.unpin next i).left = none := by rcases hnext with rfl | rfl <;> rfl
    exact h.link hc hpc hfind hleft
  | begin ckpt ht hpc => exact ht ▸ h.begin
  | commit ckpt a hl hpc _ =>
    have ht : t = checkpointer := hst.sole (by rw [hpc]; rfl)
    rw [hl, Caught, hpc] at hok
    rw [ht] at hpc ⊢
    exact h.commit hpc hok

/-! ## Runs -/

omit [DecidableEq ι] [DecidableEq K] [DecidableEq T] in
theorem control_init (head : Checkpoint) :
    Control L checkpointer (init head : CommitSys ι K P C T) := by
  refine ⟨fun t => ?_, fun t t' i h _ => absurd h (by simp [init, Pc.claim]), fun i _ => rfl,
    fun i j h _ _ => absurd h (by simp [init])⟩
  exact ⟨fun i => by simp [init, Pc.slot], fun i => by simp [init, Pc.flight],
    by simp [init, Pc.reading], fun i h => absurd h (by simp [init, Pc.linked]), fun i _ => rfl,
    fun c i h => absurd h (by simp [init]), fun k i c h => absurd h (by simp [init]),
    fun k i h => absurd h (by simp [init]), fun h => absurd h (by simp [init, Pc.left])⟩

omit [DecidableEq ι] [DecidableEq T] in
theorem kept_init (head : Checkpoint) : Kept checkpointer (init head : CommitSys ι K P C T) := by
  refine ⟨fun i h => absurd h.1 (by simp [init]), fun n tag p h => absurd h (by simp [init]),
    fun is h => absurd h (by simp [init, Pc.left]), le_rfl, fun r h => absurd h (by simp [init]),
    fun pre r post h => absurd h (by simp [init])⟩

/-- **In runs in which each commit takes the write lock with nothing passed over, every checkpoint is
complete.** -/
theorem complete_of_caught {head : Checkpoint}
    (h : Reaches (step L checkpointer) Caught (init head) s) : s.Complete := by
  have hinv : Control L checkpointer s ∧ Kept checkpointer s := by
    refine h.invariant (I := fun s => Control L checkpointer s ∧ Kept checkpointer s)
      ⟨control_init head, kept_init head⟩ fun s l s' hi hok hs => ?_
    obtain ⟨t, he⟩ := effect_of_step hs
    exact ⟨hi.1.step he, hi.2.step hi.1 he hok⟩
  exact hinv.2.complete

end Steps

/-! ## The caches of the program -/

variable {N M : ℕ} {β : Type} [Zero β] {checkpointer} {head : Checkpoint}

/-- **Checkpoints of `ChunkCache` and `MetaCache` are complete**, where each commit takes the write lock
with nothing passed over. -/
theorem checkpoint_complete
    {s : CommitSys (Fin N ⊕ Fin M) CacheTag (CacheData β) (CacheCall β) T}
    (h : Reaches (step (Caches.tiko N M β) checkpointer) Caught (init head) s) : s.Complete :=
  complete_of_caught h

/-- The chunk of the runs below. -/
def exampleTag : ChunkTag := ⟨1, 1, 1, 0, 0⟩

/-- A write to caches of one slot each, by a backend. -/
def patched : List (Label (Fin 1 ⊕ Fin 1) (CacheData ℕ) (CacheCall ℕ) Bool) :=
  .call true (.inl (exampleTag, .patchChunk 3 [7])) ::
    [none, none, some (.inl ⟨0, Nat.zero_lt_one⟩), none, none, none, none, none].map fun victim =>
      .run true ⟨true, .notFound, victim⟩

/-- A commit that takes `n` sections; the checkpointer is the thread `false`. -/
def committed (n : ℕ) : List (Label (Fin 1 ⊕ Fin 1) (CacheData ℕ) (CacheCall ℕ) Bool) :=
  .commit ⟨1, 100⟩ :: List.replicate n (.run false ⟨true, .notFound, none⟩)

/-- A read of another chunk, up to the flush of the first one, with its flag cleared. -/
def evicting : List (Label (Fin 1 ⊕ Fin 1) (CacheData ℕ) (CacheCall ℕ) Bool) :=
  .call true (.inl ({ exampleTag with chunkId := 1 }, .getChunk)) ::
    [none, none, some (.inl ⟨0, Nat.zero_lt_one⟩), none, none].map fun victim =>
      .run true ⟨true, .found (.inl Chunk.zero), victim⟩

/-- The rest of the flush. -/
def recording : List (Label (Fin 1 ⊕ Fin 1) (CacheData ℕ) (CacheCall ℕ) Bool) :=
  List.replicate 3 (.run true ⟨true, .notFound, none⟩)

/-- The commit passes over the slot, and the flush records it before the commit takes the write lock. -/
def recordedInTime : List (Label (Fin 1 ⊕ Fin 1) (CacheData ℕ) (CacheCall ℕ) Bool) :=
  patched ++ evicting ++ committed 3 ++ recording ++ [.run false ⟨true, .notFound, none⟩]

theorem checkpoint_complete_recordedInTime :
    ∃ s : CommitSys (Fin 1 ⊕ Fin 1) CacheTag (CacheData ℕ) (CacheCall ℕ) Bool,
      s.segments = [⟨⟨1, 100⟩, ⟨1, 0⟩, {.inl exampleTag}, 1⟩] ∧ s.Complete := by
  have hrun : (run (step (Caches.tiko 1 1 ℕ) false) (init ⟨1, 0⟩) recordedInTime).map segments =
      some [⟨⟨1, 100⟩, ⟨1, 0⟩, {.inl exampleTag}, 1⟩] := by decide
  have hok : Throughout (step (Caches.tiko 1 1 ℕ) false) Caught (init ⟨1, 0⟩) recordedInTime := by decide
  obtain ⟨s, hs, hsegments⟩ := Option.map_eq_some_iff.mp hrun
  exact ⟨s, hsegments, checkpoint_complete (reaches_of_run hs hok)⟩

/-- **A checkpoint without a chunk that was patched before it**: an eviction has cleared the flag and
waits for the read lock, the commit passes over the slot, and the chunk is first recorded in the
interval after. -/
theorem missedFlush :
    ∃ s : CommitSys (Fin 1 ⊕ Fin 1) CacheTag (CacheData ℕ) (CacheCall ℕ) Bool,
      Reaches (step (Caches.tiko 1 1 ℕ) false) (fun _ _ => True) (init ⟨1, 0⟩) s ∧ ¬s.Complete ∧
        s.headCkpt = ⟨1, 100⟩ ∧ .inl exampleTag ∈ s.draft := by
  have hrun : (run (step (Caches.tiko 1 1 ℕ) false) (init ⟨1, 0⟩)
      (patched ++ evicting ++ committed 4 ++ recording)).map
        (fun s => (s.segments, s.written.map Prod.fst, s.headCkpt, s.draft)) =
      some ([⟨⟨1, 100⟩, ⟨1, 0⟩, ∅, 1⟩], [.inl exampleTag], ⟨1, 100⟩, {.inl exampleTag}) := by decide
  obtain ⟨s, hs, hobs⟩ := Option.map_eq_some_iff.mp hrun
  obtain ⟨hsegments, hobs⟩ := Prod.mk.inj hobs
  obtain ⟨hwritten, hobs⟩ := Prod.mk.inj hobs
  obtain ⟨hhead, hdraft⟩ := Prod.mk.inj hobs
  refine ⟨s, reaches_of_run hs (throughout_true _ _), fun hcomplete => ?_, hhead,
    hdraft ▸ Finset.mem_singleton_self _⟩
  obtain ⟨x, hx⟩ := List.map_eq_singleton_iff.mp hwritten
  have hwrite : s.written[0]? = some (.inl exampleTag, x.2) := by
    rw [hx.1, ← hx.2]
    rfl
  obtain ⟨r, hr, htag, -⟩ := hcomplete [] _ [] hsegments 0 (by decide) _ _ hwrite
  rw [List.mem_singleton.mp hr] at htag
  exact absurd htag (Finset.notMem_empty _)

end CommitSys

end Tiko

import Tiko.Cache.Threads

/-!
# The chains of a cache

A thread that has claimed a slot is the only one to hold it when it unlinks it, and from then on no
other does more than flush it. So a slot that is inserted is in no chain, and the chains stay apart. A
truncation holds the bucket lock of its slot until it is done, so the slot cannot get back into the chain.

* `Pc.holds`, `Pc.owns`, `Pc.claims`, `Pc.drops`: what a thread does with a slot, by its place;
* `Tidy`: the chains end, hold the slots of their bucket, and have each tag once;
* `SlotSys.Inv`: moreover the pins are those of the threads, and an unlinked slot belongs to one thread.

**`SlotSys.inv_of_reachable`**: the invariant holds in every state that is reached.
-/

namespace Tiko

open Lib SlotCache

/-! ## What a place says -/

namespace SlotCache.Pc

variable {N : ℕ} {K P : Type}

/-- The slot that a thread has pinned. -/
def holds : Pc N K P → Option (Fin N)
  | .hit s _ | .touching s => some s
  | .flush _ start i _ | .verify _ start i _ | .abort _ start i | .drop _ start i =>
    some (slotAt start i)
  | .clear _ s | .ready _ s | .link _ s => some s
  | .flushing s | .unpin s => some s
  | _ => none

/-- The slot that a thread has unlinked to use it. -/
def owns : Pc N K P → Option (Fin N)
  | .clear _ s | .ready _ s | .link _ s => some s
  | _ => none

/-- The slot that a thread has found or claimed, with its tag. -/
def claims : Pc N K P → Option (Fin N × K)
  | .hit s tag => some (s, tag)
  | .flush _ start i tag | .verify _ start i tag => some (slotAt start i, tag)
  | _ => none

/-- The slot that a thread has taken out of its chain to drop it, with the tag of which it holds the
bucket lock. -/
def drops : Pc N K P → Option (Fin N × K)
  | .truncating s tag => some (s, tag)
  | _ => none

/-- The thread does no more than flush the slot. -/
def passive : Pc N K P → Bool
  | .flushing _ | .unpin _ => true
  | _ => false

variable {pc : Pc N K P} {s : Fin N} {tag : K}

theorem holds_of_owns (h : pc.owns = some s) : pc.holds = some s := by
  cases pc <;> first | exact h | cases h

theorem holds_of_claims (h : pc.claims = some (s, tag)) : pc.holds = some s := by
  cases pc <;> first | exact congrArg (Option.map Prod.fst) h | cases h

theorem not_passive_of_claims (h : pc.claims = some (s, tag)) : pc.passive = false := by
  cases pc <;> first | rfl | cases h

theorem not_passive_of_owns (h : pc.owns = some s) : pc.passive = false := by
  cases pc <;> first | rfl | cases h

theorem eq_truncating_of_drops (h : pc.drops = some (s, tag)) : pc = .truncating s tag := by
  cases pc <;> cases h
  rfl

end SlotCache.Pc

namespace SlotCache

variable {N B : ℕ} {K P T : Type}

/-- The chains and the tags are the same. -/
structure Same (c c' : SlotCache N B K P T) : Prop where
  heads : c'.heads = c.heads
  next : ∀ s, (c'.slots s).next = (c.slots s).next
  tag : ∀ s, (c'.slots s).tag = (c.slots s).tag

theorem Same.refl (c : SlotCache N B K P T) : Same c c := ⟨rfl, fun _ => rfl, fun _ => rfl⟩

theorem Same.chains {c c' : SlotCache N B K P T} (h : Same c c') : c'.chains = c.chains := by
  unfold SlotCache.chains
  rw [h.heads]
  congr 1
  funext s
  exact h.next s

@[simp] theorem modify_slots_self (c : SlotCache N B K P T) (s : Fin N)
    (f : Slot N K P T → Slot N K P T) : (c.modify s f).slots s = f (c.slots s) :=
  Function.update_self ..

theorem modify_slots_of_ne (c : SlotCache N B K P T) {s x : Fin N} (f : Slot N K P T → Slot N K P T)
    (h : x ≠ s) : (c.modify s f).slots x = c.slots x :=
  Function.update_of_ne h ..

/-- A property of all slots after a write. -/
theorem forall_modify {c : SlotCache N B K P T} {s : Fin N} {f : Slot N K P T → Slot N K P T}
    {R : Fin N → Slot N K P T → Prop} (hs : R s (f (c.slots s))) (h : ∀ x, x ≠ s → R x (c.slots x)) :
    ∀ x, R x ((c.modify s f).slots x) := by
  intro x
  by_cases hx : x = s
  · subst hx
    rw [modify_slots_self]
    exact hs
  · rw [modify_slots_of_ne c f hx]
    exact h x hx

theorem pins_modify {c : SlotCache N B K P T} {s : Fin N} {f : Slot N K P T → Slot N K P T}
    (h : (f (c.slots s)).pins = (c.slots s).pins) :
    ∀ x, ((c.modify s f).slots x).pins = (c.slots x).pins :=
  forall_modify (R := fun x e => e.pins = (c.slots x).pins) h fun _ _ => rfl

theorem dirty_modify {c : SlotCache N B K P T} {s : Fin N} {f : Slot N K P T → Slot N K P T}
    (h : (f (c.slots s)).dirty = (c.slots s).dirty) :
    ∀ x, ((c.modify s f).slots x).dirty = (c.slots x).dirty :=
  forall_modify (R := fun x e => e.dirty = (c.slots x).dirty) h fun _ _ => rfl

theorem dirty_of_modify {c : SlotCache N B K P T} {s x : Fin N} {f : Slot N K P T → Slot N K P T}
    (hx : ((c.modify s f).slots x).dirty = true) (h : (f (c.slots s)).dirty = (c.slots s).dirty) :
    (c.slots x).dirty = true := by
  rw [dirty_modify h] at hx
  exact hx

theorem Same.modify (c : SlotCache N B K P T) (s : Fin N) {f : Slot N K P T → Slot N K P T}
    (hnext : (f (c.slots s)).next = (c.slots s).next)
    (htag : (f (c.slots s)).tag = (c.slots s).tag) : Same c (c.modify s f) :=
  ⟨rfl, forall_modify (R := fun x e => e.next = (c.slots x).next) hnext fun _ _ => rfl,
    forall_modify (R := fun x e => e.tag = (c.slots x).tag) htag fun _ _ => rfl⟩

namespace Slot

variable (e : Slot N K P T)

@[simp] theorem touch_next : e.touch.next = e.next := by unfold touch; split_ifs <;> rfl

@[simp] theorem touch_tag : e.touch.tag = e.tag := by unfold touch; split_ifs <;> rfl

@[simp] theorem touch_pins : e.touch.pins = e.pins := by unfold touch; split_ifs <;> rfl

@[simp] theorem touch_dirty : e.touch.dirty = e.dirty := by unfold touch; split_ifs <;> rfl

@[simp] theorem untouch_next : e.untouch.2.next = e.next := by unfold untouch; split_ifs <;> rfl

@[simp] theorem untouch_tag : e.untouch.2.tag = e.tag := by unfold untouch; split_ifs <;> rfl

@[simp] theorem untouch_pins : e.untouch.2.pins = e.pins := by unfold untouch; split_ifs <;> rfl

@[simp] theorem untouch_dirty : e.untouch.2.dirty = e.dirty := by unfold untouch; split_ifs <;> rfl

@[simp] theorem untouch_fst : e.untouch.1 = e.usageCount := by unfold untouch; split_ifs <;> rfl

@[simp] theorem untouch_usageCount : e.untouch.2.usageCount = e.usageCount - 1 := by
  unfold untouch
  split_ifs with h
  · rfl
  · change e.usageCount = e.usageCount - 1
    omega

@[simp] theorem tryFlush_next (ok : Bool) : (e.tryFlush ok).2.next = e.next := by cases ok <;> rfl

@[simp] theorem tryFlush_tag (ok : Bool) : (e.tryFlush ok).2.tag = e.tag := by cases ok <;> rfl

@[simp] theorem tryFlush_pins (ok : Bool) : (e.tryFlush ok).2.pins = e.pins := by cases ok <;> rfl

end Slot

end SlotCache

/-! ## The invariant -/

namespace SlotSys

section Frame

variable {N B : ℕ} {K P T : Type}

/-- The bucket of a slot. -/
def bucketAt (bucketOf : K → Fin B) (c : SlotCache N B K P T) (s : Fin N) : Fin B :=
  bucketOf (c.slots s).tag

/-- **The chains are in order**: each ends and has the slots of its bucket, and no tag is in two of its
slots. -/
structure Tidy (bucketOf : K → Fin B) (c : SlotCache N B K P T) : Prop where
  sorted : c.chains.Sorted (bucketAt bucketOf c)
  unique : ∀ x y, c.chains.Member x → c.chains.Member y → (c.slots x).tag = (c.slots y).tag → x = y

/-- A slot that is in no chain and clean. -/
def Unlinked (c : SlotCache N B K P T) (s : Fin N) : Prop :=
  ¬ c.chains.Member s ∧ (c.slots s).dirty = false

/-- What holds between the sections. -/
structure Inv (bucketOf : K → Fin B) (σ : SlotSys N B K P T) : Prop extends Tidy bucketOf σ.cache where
  pins : ∀ t s, t ∈ (σ.cache.slots s).pins ↔ (σ.pcs t).holds = some s
  owned : ∀ t s, (σ.pcs t).owns = some s → Unlinked σ.cache s
  alone : ∀ t s, (σ.pcs t).owns = some s → ∀ t', t' ≠ t → (σ.pcs t').holds = some s →
    (σ.pcs t').passive = true
  tagged : ∀ t s tag, (σ.pcs t).claims = some (s, tag) → (σ.cache.slots s).tag = tag
  dropped : ∀ t s tag, (σ.pcs t).drops = some (s, tag) → σ.locks (bucketOf tag) = some t ∧
    ((σ.cache.slots s).tag = tag → ¬ σ.cache.chains.Member s)

variable {bucketOf : K → Fin B} {σ : SlotSys N B K P T} {t : T} {pc pc₀ : Pc N K P} {s : Fin N}
  {c : SlotCache N B K P T} {clockHand : T → Fin N} {locks : Fin B → Option T}

theorem Tidy.of_same {c' : SlotCache N B K P T} (h : Tidy bucketOf c) (hsame : Same c c') :
    Tidy bucketOf c' := by
  have hbucket : bucketAt bucketOf c' = bucketAt bucketOf c := by
    funext s
    unfold bucketAt
    rw [hsame.tag]
  constructor
  · rw [hsame.chains, hbucket]
    exact h.sorted
  · intro x y
    rw [hsame.chains, hsame.tag, hsame.tag]
    exact h.unique x y

/-- Slots are taken out of their chains. -/
theorem Tidy.withChains {ch : Chains (Fin N) (Fin B)} (h : Tidy bucketOf c)
    (hsorted : ch.Sorted (bucketAt bucketOf c)) (hmember : ∀ x, ch.Member x → c.chains.Member x) :
    Tidy bucketOf (c.withChains ch) :=
  ⟨hsorted, fun x y hx hy => h.unique x y (hmember x hx) (hmember y hy)⟩

variable [DecidableEq T]

/-- A property of all threads after one has gone on. -/
theorem forall_pcs {pcs : T → Pc N K P} {R : T → Pc N K P → Prop} (ht : R t pc)
    (h : ∀ t', t' ≠ t → R t' (pcs t')) : ∀ t', R t' (Function.update pcs t pc t') := by
  intro t'
  by_cases h' : t' = t
  · subst h'
    rw [Function.update_self]
    exact ht
  · rw [Function.update_of_ne h']
    exact h t' h'

/-- **What a section of a thread has to keep.** -/
theorem Inv.of_section (h : Inv bucketOf σ) (htidy : Tidy bucketOf c)
    (hpins : ∀ s, t ∈ (c.slots s).pins ↔ pc.holds = some s)
    (hothers : ∀ t' s, t' ≠ t → (t' ∈ (c.slots s).pins ↔ t' ∈ (σ.cache.slots s).pins))
    (howned : ∀ t' s, t' ≠ t → (σ.pcs t').owns = some s → Unlinked c s)
    (htag : ∀ t' s tag, t' ≠ t → (σ.pcs t').claims = some (s, tag) →
      (c.slots s).tag = (σ.cache.slots s).tag)
    (hdropped : ∀ t' s tag, t' ≠ t → (σ.pcs t').drops = some (s, tag) →
      locks (bucketOf tag) = some t' ∧ ((c.slots s).tag = tag → ¬ c.chains.Member s))
    (howns : ∀ s, pc.owns = some s → Unlinked c s ∧
      ∀ t', t' ≠ t → (σ.pcs t').holds = some s → (σ.pcs t').passive = true)
    (hclaims : ∀ s tag, pc.claims = some (s, tag) → (c.slots s).tag = tag)
    (hdrops : ∀ s tag, pc.drops = some (s, tag) →
      locks (bucketOf tag) = some t ∧ ((c.slots s).tag = tag → ¬ c.chains.Member s))
    (hholds : ∀ s, pc.holds = some s → pc.passive = false →
      ∀ t', t' ≠ t → (σ.pcs t').owns ≠ some s) :
    Inv bucketOf ⟨c, clockHand, locks, Function.update σ.pcs t pc⟩ where
  toTidy := htidy
  pins := by
    refine forall_pcs (R := fun t pc => ∀ s, t ∈ (c.slots s).pins ↔ pc.holds = some s) hpins ?_
    intro t' hne s
    rw [hothers t' s hne]
    exact h.pins t' s
  owned := forall_pcs (R := fun _ pc => ∀ s, pc.owns = some s → Unlinked c s)
    (fun s hs => (howns s hs).1) fun t' hne s hs => howned t' s hne hs
  alone := by
    refine forall_pcs (R := fun t₁ pc₁ => ∀ s, pc₁.owns = some s → ∀ t', t' ≠ t₁ →
      (Function.update σ.pcs t pc t').holds = some s →
        (Function.update σ.pcs t pc t').passive = true) ?_ ?_
    · intro s hs t' hne
      rw [Function.update_of_ne hne]
      exact (howns s hs).2 t' hne
    · intro t₁ hne₁ s hs
      refine forall_pcs (R := fun t' pc' => t' ≠ t₁ → pc'.holds = some s → pc'.passive = true) ?_ ?_
      · intro _ hheld
        by_contra hactive
        exact hholds s hheld (Bool.eq_false_iff.mpr hactive) t₁ hne₁ hs
      · exact fun t' _ => h.alone t₁ s hs t'
  tagged := by
    refine forall_pcs (R := fun _ pc => ∀ s tag, pc.claims = some (s, tag) → (c.slots s).tag = tag)
      hclaims ?_
    intro t' hne s tag hs
    rw [htag t' s tag hne hs]
    exact h.tagged t' s tag hs
  dropped := forall_pcs (R := fun t' pc => ∀ s tag, pc.drops = some (s, tag) →
      locks (bucketOf tag) = some t' ∧ ((c.slots s).tag = tag → ¬ c.chains.Member s))
    hdrops fun t' hne s tag hs => hdropped t' s tag hne hs

omit [DecidableEq T] in
/-- An owner has its slot to itself. -/
theorem Inv.holds_ne (h : Inv bucketOf σ) (hactive : (σ.pcs t).passive = false)
    (hheld : (σ.pcs t).holds = some s) : ∀ t', t' ≠ t → (σ.pcs t').owns ≠ some s := by
  intro t' hne howns
  have hpassive := h.alone t' s howns t hne.symm hheld
  rw [hactive] at hpassive
  cases hpassive

/-- A section that leaves the chains, the tags and the pins as they are, and makes only a slot dirty that
its thread has pinned. -/
theorem Inv.frame (h : Inv bucketOf σ) (hpc : σ.pcs t = pc₀) (hsame : Same σ.cache c)
    (hpins : ∀ s, (c.slots s).pins = (σ.cache.slots s).pins)
    (hdirty : ∀ s, (c.slots s).dirty = true → (σ.cache.slots s).dirty = true ∨
      pc₀.holds = some s ∧ pc₀.passive = false ∧ pc₀.owns = none)
    (hholds : pc.holds = pc₀.holds) (howns : pc.owns = none ∨ pc.owns = pc₀.owns)
    (hclaims : pc.claims = none ∨ pc.claims = pc₀.claims) (hdrops : pc.drops = none)
    (hpassive : pc₀.passive = false ∨ pc.passive = true) :
    Inv bucketOf ⟨c, clockHand, σ.locks, Function.update σ.pcs t pc⟩ := by
  subst hpc
  have hmember : c.chains.Member = σ.cache.chains.Member := by rw [hsame.chains]
  have hclean : ∀ t' s, (σ.pcs t').owns = some s → (t' = t → (σ.pcs t).owns ≠ none) →
      Unlinked c s := by
    intro t' s hs hself
    obtain ⟨hunlinked, hslot⟩ := h.owned t' s hs
    refine ⟨hmember ▸ hunlinked, ?_⟩
    by_contra hset
    rcases hdirty s (Bool.not_eq_false _ ▸ hset) with hold | ⟨hheld, hactive, hnone⟩
    · rw [hslot] at hold
      cases hold
    · by_cases hne : t' = t
      · exact hself hne hnone
      · exact h.holds_ne hactive hheld t' hne hs
  apply h.of_section (h.toTidy.of_same hsame)
  · intro s
    rw [hpins, hholds]
    exact h.pins t s
  · intro t' s _
    rw [hpins]
  · intro t' s hne hs
    exact hclean t' s hs fun heq => absurd heq hne
  · intro t' s tag _ _
    exact hsame.tag s
  · intro t' s tag _ hs
    rw [hsame.tag, hmember]
    exact h.dropped t' s tag hs
  · intro s hs
    rcases howns with hnone | heq
    · rw [hnone] at hs
      cases hs
    · rw [heq] at hs
      exact ⟨hclean t s hs fun _ => by rw [hs]; exact nofun, h.alone t s hs⟩
  · intro s tag hs
    rcases hclaims with hnone | heq
    · rw [hnone] at hs
      cases hs
    · rw [hsame.tag]
      exact h.tagged t s tag (heq ▸ hs)
  · intro s tag hs
    rw [hdrops] at hs
    cases hs
  · intro s hs hactive
    rcases hpassive with hpassive | hpassive
    · exact h.holds_ne hpassive (hholds ▸ hs)
    · rw [hpassive] at hactive
      cases hactive

/-- A thread goes on. -/
theorem Inv.goto (h : Inv bucketOf σ) (hpc : σ.pcs t = pc₀) (hholds : pc.holds = pc₀.holds)
    (howns : pc.owns = none ∨ pc.owns = pc₀.owns) (hclaims : pc.claims = none ∨ pc.claims = pc₀.claims)
    (hdrops : pc.drops = none) (hpassive : pc₀.passive = false ∨ pc.passive = true) :
    Inv bucketOf (σ.goto t pc) :=
  h.frame hpc (.refl _) (fun _ => rfl) (fun _ hd => .inl hd) hholds howns hclaims hdrops hpassive

/-- A thread touches a slot. -/
theorem Inv.touch (h : Inv bucketOf σ) (hpc : σ.pcs t = pc₀) (hholds : pc.holds = pc₀.holds)
    (howns : pc.owns = none ∨ pc.owns = pc₀.owns) (hclaims : pc.claims = none ∨ pc.claims = pc₀.claims)
    (hdrops : pc.drops = none) (hpassive : pc₀.passive = false ∨ pc.passive = true) :
    Inv bucketOf (σ.put t (σ.cache.modify s Slot.touch) pc) := by
  refine h.frame hpc (.modify _ _ (Slot.touch_next _) (Slot.touch_tag _))
    (pins_modify (Slot.touch_pins _)) (fun x hd => .inl ?_) hholds howns hclaims hdrops hpassive
  exact dirty_of_modify hd (Slot.touch_dirty _)

/-- A thread pins a slot that is in a chain or that nobody holds, or only to flush it. -/
theorem Inv.pin (h : Inv bucketOf σ) (hpc : σ.pcs t = pc₀) (hidle : pc₀.holds = none)
    (hholds : pc.holds = some s) (howns : pc.owns = none) (hdrops : pc.drops = none)
    (hclaims : ∀ tag, pc.claims = some (s, tag) → (σ.cache.slots s).tag = tag)
    (hfree : pc.passive = true ∨ σ.cache.chains.Member s ∨ (σ.cache.slots s).pins = ∅) :
    Inv bucketOf ⟨σ.cache.modify s fun e => e.pin t, clockHand, σ.locks,
      Function.update σ.pcs t pc⟩ := by
  subst hpc
  have hsame : Same σ.cache (σ.cache.modify s fun e => e.pin t) := Same.modify _ _ rfl rfl
  have hmember : (σ.cache.modify s fun e => e.pin t).chains.Member = σ.cache.chains.Member := by
    rw [hsame.chains]
  have hdirty : ∀ x, ((σ.cache.modify s fun e => e.pin t).slots x).dirty = (σ.cache.slots x).dirty :=
    dirty_modify rfl
  apply h.of_section (h.toTidy.of_same hsame)
  · refine forall_modify (R := fun x e => t ∈ e.pins ↔ pc.holds = some x) ?_ ?_
    · exact ⟨fun _ => hholds, fun _ => Finset.mem_insert_self t _⟩
    · intro x hx
      rw [h.pins, hidle, hholds]
      simp [Ne.symm hx]
  · intro t' x hne
    revert x
    refine forall_modify (R := fun x e => t' ∈ e.pins ↔ t' ∈ (σ.cache.slots x).pins) ?_ fun _ _ => Iff.rfl
    exact Finset.mem_insert.trans (or_iff_right hne)
  · intro t' x _ hx
    unfold Unlinked
    rw [hmember, hdirty]
    exact h.owned t' x hx
  · intro t' x tag _ _
    exact hsame.tag x
  · intro t' x tag _ hx
    rw [hsame.tag, hmember]
    exact h.dropped t' x tag hx
  · intro x hx
    rw [howns] at hx
    cases hx
  · intro x tag hx
    have hxs : x = s := Option.some_inj.mp ((Pc.holds_of_claims hx).symm.trans hholds)
    subst hxs
    rw [hsame.tag]
    exact hclaims tag hx
  · intro x tag hx
    rw [hdrops] at hx
    cases hx
  · intro x hx hactive t' hne hown
    obtain rfl : s = x := Option.some_inj.mp (hholds.symm.trans hx)
    rcases hfree with hpassive | hmem | hpins
    · rw [hpassive] at hactive
      cases hactive
    · exact (h.owned t' s hown).1 hmem
    · have hin := (h.pins t' s).mpr (Pc.holds_of_owns hown)
      rw [hpins] at hin
      cases hin

/-- A thread drops its pin. -/
theorem Inv.unpin (h : Inv bucketOf σ) (hpc : σ.pcs t = pc₀) (hheld : pc₀.holds = some s)
    (hholds : pc.holds = none) (hdrops : pc.drops = none) :
    Inv bucketOf ⟨σ.cache.modify s fun e => e.unpin t, clockHand, σ.locks,
      Function.update σ.pcs t pc⟩ := by
  subst hpc
  have hsame : Same σ.cache (σ.cache.modify s fun e => e.unpin t) := Same.modify _ _ rfl rfl
  have hmember : (σ.cache.modify s fun e => e.unpin t).chains.Member = σ.cache.chains.Member := by
    rw [hsame.chains]
  have hdirty : ∀ x, ((σ.cache.modify s fun e => e.unpin t).slots x).dirty =
      (σ.cache.slots x).dirty := dirty_modify rfl
  apply h.of_section (h.toTidy.of_same hsame)
  · refine forall_modify (R := fun x e => t ∈ e.pins ↔ pc.holds = some x) ?_ ?_
    · rw [hholds]
      simp [Slot.unpin]
    · intro x hx
      rw [h.pins, hheld, hholds]
      simp [Ne.symm hx]
  · intro t' x hne
    revert x
    refine forall_modify (R := fun x e => t' ∈ e.pins ↔ t' ∈ (σ.cache.slots x).pins) ?_ fun _ _ => Iff.rfl
    exact Finset.mem_erase.trans (and_iff_right hne)
  · intro t' x _ hx
    unfold Unlinked
    rw [hmember, hdirty]
    exact h.owned t' x hx
  · intro t' x tag _ _
    exact hsame.tag x
  · intro t' x tag _ hx
    rw [hsame.tag, hmember]
    exact h.dropped t' x tag hx
  · intro x hx
    rw [Pc.holds_of_owns hx] at hholds
    cases hholds
  · intro x tag hx
    rw [Pc.holds_of_claims hx] at hholds
    cases hholds
  · intro x tag hx
    rw [hdrops] at hx
    cases hx
  · intro x hx
    rw [hholds] at hx
    cases hx

end Frame

/-! ## Sections that change the chains -/

section Relink

variable {N B : ℕ} {K P T : Type} [Inhabited K] [Inhabited P] {bucketOf : K → Fin B}
  {c : SlotCache N B K P T} {s : Fin N}

omit [Inhabited K] [Inhabited P] in
/-- `unlink_from_chain` ends, and takes the slot out of its chain. -/
theorem unlinkFromChain_spec {b : Fin B} (h : c.chains.Sorted (bucketAt bucketOf c))
    (hb : bucketAt bucketOf c s = b) : ∃ ch, c.unlinkFromChain s b = some (c.withChains ch) ∧
      ch.Sorted (bucketAt bucketOf c) ∧ ∀ x, ch.Member x ↔ c.chains.Member x ∧ x ≠ s := by
  obtain ⟨ch, hch, hsorted, hmember⟩ := h.unlink (Fintype.card_fin N).le hb
  refine ⟨ch, ?_, hsorted, hmember⟩
  unfold unlinkFromChain
  rw [hch]
  rfl

/-- A slot that is in no chain is cleared. -/
theorem sorted_clear (h : c.chains.Sorted (bucketAt bucketOf c)) (hs : ¬ c.chains.Member s) :
    (c.modify s Slot.clear).chains.Sorted (bucketAt bucketOf (c.modify s Slot.clear)) ∧
      ∀ x, (c.modify s Slot.clear).chains.Member x ↔ c.chains.Member x := by
  have hne : ∀ x, c.chains.Member x → x ≠ s := by
    rintro x hx rfl
    exact hs hx
  apply h.congr
  · rfl
  · intro x hx
    change ((c.modify s Slot.clear).slots x).next = (c.slots x).next
    rw [modify_slots_of_ne c _ (hne x hx)]
  · intro x hx
    unfold bucketAt
    rw [modify_slots_of_ne c _ (hne x hx)]

variable [DecidableEq T] {σ : SlotSys N B K P T} {t : T} {clockHand : T → Fin N}

omit [Inhabited K] [Inhabited P] [DecidableEq T] in
/-- The only pin of a slot. -/
theorem Inv.eq_of_pinCount (h : Inv bucketOf σ) (hheld : (σ.pcs t).holds = some s)
    (hpins : (σ.cache.slots s).pinCount = 1) {t' : T} (hheld' : (σ.pcs t').holds = some s) : t' = t := by
  obtain ⟨x, hx⟩ := Finset.card_eq_one.mp hpins
  have ht := (h.pins t s).mpr hheld
  have ht' := (h.pins t' s).mpr hheld'
  rw [hx, Finset.mem_singleton] at ht ht'
  rw [ht, ht']

omit [Inhabited K] [Inhabited P] in
/-- The victim leaves its chain. -/
theorem Inv.unlink (h : Inv bucketOf σ) {job : Job K P} (hheld : (σ.pcs t).holds = some s)
    (hpins : (σ.cache.slots s).pinCount = 1) (hclean : (σ.cache.slots s).dirty = false)
    {ch : Chains (Fin N) (Fin B)} (hsorted : ch.Sorted (bucketAt bucketOf σ.cache))
    (hmember : ∀ x, ch.Member x ↔ σ.cache.chains.Member x ∧ x ≠ s) :
    Inv bucketOf ⟨σ.cache.withChains ch, clockHand, σ.locks,
      Function.update σ.pcs t (.clear job s)⟩ := by
  have hsub : ∀ x, ch.Member x → σ.cache.chains.Member x := fun x hx => ((hmember x).mp hx).1
  apply h.of_section (c := σ.cache.withChains ch) (h.toTidy.withChains hsorted hsub)
  · intro x
    exact (h.pins t x).trans (by rw [hheld]; rfl)
  · intro t' x _
    exact Iff.rfl
  · intro t' x _ hx
    exact ⟨fun hmem => (h.owned t' x hx).1 (hsub x hmem), (h.owned t' x hx).2⟩
  · intro t' x tag _ _
    rfl
  · intro t' x tag _ hx
    exact ⟨(h.dropped t' x tag hx).1, fun htag hmem => (h.dropped t' x tag hx).2 htag (hsub x hmem)⟩
  · intro x hx
    obtain rfl : s = x := Option.some_inj.mp hx
    refine ⟨⟨fun hmem => ((hmember s).mp hmem).2 rfl, hclean⟩, fun t' hne hheld' => ?_⟩
    exact absurd (h.eq_of_pinCount hheld hpins hheld') hne
  · intro x tag hx
    cases hx
  · intro x tag hx
    cases hx
  · intro x hx _ t' hne hown
    obtain rfl : s = x := Option.some_inj.mp hx
    exact hne (h.eq_of_pinCount hheld hpins (Pc.holds_of_owns hown))

omit [DecidableEq T] in
/-- A slot that is in no chain is cleared. -/
theorem Tidy.clear (h : Tidy bucketOf c) (hs : ¬ c.chains.Member s) :
    Tidy bucketOf (c.modify s Slot.clear) ∧
      ∀ x, (c.modify s Slot.clear).chains.Member x ↔ c.chains.Member x := by
  obtain ⟨hsorted, hmember⟩ := sorted_clear h.sorted hs
  refine ⟨⟨hsorted, fun x y hx hy => ?_⟩, hmember⟩
  rw [hmember] at hx hy
  have hne : ∀ z, c.chains.Member z → z ≠ s := by
    rintro z hz rfl
    exact hs hz
  rw [modify_slots_of_ne _ _ (hne x hx), modify_slots_of_ne _ _ (hne y hy)]
  exact h.unique x y hx hy

/-- The victim is cleared. -/
theorem Inv.clear (h : Inv bucketOf σ) {job : Job K P} (hpc : σ.pcs t = .clear job s) :
    Inv bucketOf ⟨σ.cache.modify s Slot.clear, clockHand, σ.locks,
      Function.update σ.pcs t (.ready job s)⟩ := by
  have howns : (σ.pcs t).owns = some s := by rw [hpc]; rfl
  have hunlinked := (h.owned t s howns).1
  obtain ⟨htidy, hmember⟩ := h.toTidy.clear hunlinked
  have hpins : ∀ x, ((σ.cache.modify s Slot.clear).slots x).pins = (σ.cache.slots x).pins :=
    pins_modify rfl
  have hclean : ∀ t' x, (σ.pcs t').owns = some x → Unlinked (σ.cache.modify s Slot.clear) x := by
    intro t' x hx
    refine ⟨fun hmem => (h.owned t' x hx).1 ((hmember x).mp hmem), ?_⟩
    exact forall_modify (R := fun y e => (σ.cache.slots y).dirty = false → e.dirty = false)
      (fun _ => rfl) (fun _ _ hd => hd) x (h.owned t' x hx).2
  apply h.of_section htidy
  · intro x
    rw [hpins, h.pins, hpc]
    rfl
  · intro t' x _
    rw [hpins]
  · intro t' x _ hx
    exact hclean t' x hx
  · intro t' x tag hne hx
    rw [modify_slots_of_ne]
    rintro rfl
    have hpassive := h.alone t x howns t' hne (Pc.holds_of_claims hx)
    rw [Pc.not_passive_of_claims hx] at hpassive
    cases hpassive
  · intro t' x tag _ hx
    obtain ⟨hlock, hdrop⟩ := h.dropped t' x tag hx
    refine ⟨hlock, fun htag => ?_⟩
    rw [hmember]
    by_cases hxs : x = s
    · rw [hxs]
      exact hunlinked
    · rw [modify_slots_of_ne _ _ hxs] at htag
      exact hdrop htag
  · intro x hx
    obtain rfl : s = x := Option.some_inj.mp hx
    exact ⟨hclean t s howns, h.alone t s howns⟩
  · intro x tag hx
    cases hx
  · intro x tag hx
    cases hx
  · intro x hx _
    obtain rfl : s = x := Option.some_inj.mp hx
    exact h.holds_ne (Pc.not_passive_of_owns howns) (Pc.holds_of_owns howns)

section Search

variable [DecidableEq K]

omit [Inhabited K] [Inhabited P] [DecidableEq T] in
/-- The search runs through the chain of the bucket. -/
theorem findTag_eq (h : c.chains.Sorted (bucketAt bucketOf c)) (tag : K) :
    ∃ l, Linked c.chains.next (c.chains.head (bucketOf tag)) l ∧
      c.findTag bucketOf tag = some (l.find? fun s => (c.slots s).tag = tag) :=
  h.find (fun s => (c.slots s).tag = tag) (bucketOf tag) (Fintype.card_fin N).le

omit [Inhabited K] [Inhabited P] [DecidableEq T] in
/-- What `lookup_and_pin` finds is in a chain. -/
theorem member_of_findTag (h : c.chains.Sorted (bucketAt bucketOf c)) {tag : K}
    (hfound : c.findTag bucketOf tag = some (some s)) :
    c.chains.Member s ∧ (c.slots s).tag = tag := by
  obtain ⟨l, hl, hfind⟩ := findTag_eq h tag
  have hs := Option.some_inj.mp (hfind.symm.trans hfound)
  exact ⟨⟨_, l, hl, List.mem_of_find?_eq_some hs⟩, by simpa using List.find?_some hs⟩

omit [Inhabited K] [Inhabited P] [DecidableEq T] in
theorem findTag_none (h : c.chains.Sorted (bucketAt bucketOf c)) {tag : K}
    (hmiss : ∀ s, (c.slots s).tag ≠ tag) : c.findTag bucketOf tag = some none := by
  obtain ⟨l, -, hfind⟩ := findTag_eq h tag
  rw [hfind, List.find?_eq_none.mpr fun s _ => by simpa using hmiss s]

omit [Inhabited K] [Inhabited P] [DecidableEq T] in
/-- A slot in a chain is found by its tag, if no other has it. -/
theorem findTag_member (h : c.chains.Sorted (bucketAt bucketOf c)) (hs : c.chains.Member s)
    (hunique : ∀ x, (c.slots x).tag = (c.slots s).tag → x = s) :
    c.findTag bucketOf (c.slots s).tag = some (some s) := by
  obtain ⟨l, hl, hfind⟩ := findTag_eq h (c.slots s).tag
  have hmem : s ∈ l := (h.mem_iff hl).mp hs
  rw [hfind]
  cases hx : l.find? fun x => (c.slots x).tag = (c.slots s).tag with
  | none => exact absurd (List.find?_eq_none.mp hx s hmem) (by simp)
  | some x => rw [hunique x (by simpa using List.find?_some hx)]

omit [Inhabited K] [Inhabited P] [DecidableEq T] in
theorem tag_ne_of_findTag (h : c.chains.Sorted (bucketAt bucketOf c)) {tag : K}
    (hfound : c.findTag bucketOf tag = some none) {x : Fin N} (hx : c.chains.Member x) :
    (c.slots x).tag ≠ tag := by
  rintro rfl
  obtain ⟨l, hl, hfind⟩ := findTag_eq h (c.slots x).tag
  have hnone := List.find?_eq_none.mp (Option.some_inj.mp (hfind.symm.trans hfound))
  exact hnone x ((h.mem_iff hl).mp hx) (decide_eq_true rfl)

end Search

omit [Inhabited K] [Inhabited P] [DecidableEq T] in
/-- **What `insert` does under the bucket lock.** -/
theorem link_spec [DecidableEq K] {c' : SlotCache N B K P T} {job : Job K P}
    (h : c.chains.Sorted (bucketAt bucketOf c)) (hs : ¬ c.chains.Member s)
    (hc : c.link bucketOf s job = some (some c')) :
    c'.chains.Sorted (bucketAt bucketOf c') ∧
      (∀ x, c'.chains.Member x ↔ c.chains.Member x ∨ x = s) ∧
      (∀ x, c.chains.Member x → (c.slots x).tag ≠ job.tag) ∧
      (∀ x, x ≠ s → c'.slots x = c.slots x) ∧
      c'.slots s = { ({ c.slots s with
          tag := job.tag, data := job.data, dirty := (c.slots s).dirty || job.markDirty }.touch) with
        next := c.heads (bucketOf job.tag) } := by
  unfold SlotCache.link at hc
  obtain ⟨found, hsearch, hfound⟩ := Option.map_eq_some_iff.mp hc
  cases found with
  | some x => cases hfound
  | none =>
    dsimp only at hfound
    generalize hw : c.modify s (fun e => { e with
      tag := job.tag, data := job.data, dirty := e.dirty || job.markDirty }.touch) = w at hfound
    rw [Option.some_inj] at hfound
    subst hfound
    have hslot : w.slots s = { c.slots s with
        tag := job.tag, data := job.data, dirty := (c.slots s).dirty || job.markDirty }.touch := by
      rw [← hw, modify_slots_self]
    have hother : ∀ x, x ≠ s → w.slots x = c.slots x := by
      intro x hx
      rw [← hw, modify_slots_of_ne _ _ hx]
    have hchains : w.chains = c.chains := by
      unfold SlotCache.chains
      congr 1
      · rw [← hw]
        rfl
      · funext x
        by_cases hx : x = s
        · subst hx
          rw [hslot, Slot.touch_next]
        · rw [hother x hx]
    have hbucket : bucketAt bucketOf w s = bucketOf job.tag := by
      unfold bucketAt
      rw [hslot, Slot.touch_tag]
    have hbuckets : ∀ x, x ≠ s → bucketAt bucketOf w x = bucketAt bucketOf c x := by
      intro x hx
      unfold bucketAt
      rw [hother x hx]
    obtain ⟨hsorted, hmember⟩ := h.push hs hbucket hbuckets
    rw [← hchains] at hsorted hmember
    refine ⟨hsorted, ?_, fun x => tag_ne_of_findTag h hsearch, ?_, ?_⟩
    · rw [← hchains]
      exact hmember
    · intro x hx
      unfold withChains Chains.push
      dsimp only
      rw [Function.update_of_ne hx, ← hother x hx]
      rfl
    · unfold withChains Chains.push
      dsimp only
      rw [Function.update_self, hslot, hchains]
      rfl

omit [Inhabited K] [Inhabited P] in
/-- The slot is inserted. -/
theorem Inv.link [DecidableEq K] {job : Job K P} (h : Inv bucketOf σ) (hpc : σ.pcs t = .link job s)
    (hlock : σ.locks (bucketOf job.tag) = none)
    (hc : σ.cache.link bucketOf s job = some (some c)) :
    Inv bucketOf ⟨c, clockHand, σ.locks, Function.update σ.pcs t (.unpin s)⟩ := by
  have howns : (σ.pcs t).owns = some s := by rw [hpc]; rfl
  obtain ⟨hsorted, hmember, hnew, hother, hslot⟩ := link_spec h.sorted (h.owned t s howns).1 hc
  have htag : (c.slots s).tag = job.tag := by
    rw [hslot]
    exact Slot.touch_tag _
  have hpins : ∀ x, (c.slots x).pins = (σ.cache.slots x).pins := by
    intro x
    by_cases hx : x = s
    · subst hx
      rw [hslot]
      exact Slot.touch_pins _
    · rw [hother x hx]
  have hunique : ∀ x y, c.chains.Member x → c.chains.Member y →
      (c.slots x).tag = (c.slots y).tag → x = y := by
    intro x y hx hy hxy
    by_cases hxs : x = s
    · by_cases hys : y = s
      · rw [hxs, hys]
      · have hy' := ((hmember y).mp hy).resolve_right hys
        rw [hxs, htag, hother y hys] at hxy
        exact absurd hxy.symm (hnew y hy')
    · have hx' := ((hmember x).mp hx).resolve_right hxs
      by_cases hys : y = s
      · rw [hys, htag, hother x hxs] at hxy
        exact absurd hxy (hnew x hx')
      · have hy' := ((hmember y).mp hy).resolve_right hys
        rw [hother x hxs, hother y hys] at hxy
        exact h.unique x y hx' hy' hxy
  apply h.of_section ⟨hsorted, hunique⟩
  · intro x
    rw [hpins, h.pins, hpc]
    rfl
  · intro t' x _
    rw [hpins]
  · intro t' x hne hx
    have hxs : x ≠ s := by
      rintro rfl
      exact h.holds_ne (Pc.not_passive_of_owns howns) (Pc.holds_of_owns howns) t' hne hx
    unfold Unlinked
    rw [hmember, not_or, hother x hxs]
    exact ⟨⟨(h.owned t' x hx).1, hxs⟩, (h.owned t' x hx).2⟩
  · intro t' x tag hne hx
    rw [hother]
    rintro rfl
    have hpassive := h.alone t x howns t' hne (Pc.holds_of_claims hx)
    rw [Pc.not_passive_of_claims hx] at hpassive
    cases hpassive
  · intro t' x tag _ hx
    obtain ⟨hheld, hdrop⟩ := h.dropped t' x tag hx
    refine ⟨hheld, fun htag' => ?_⟩
    by_cases hxs : x = s
    · -- its bucket lock would be taken
      subst hxs
      rw [← htag', htag, hlock] at hheld
      cases hheld
    · rw [hother x hxs] at htag'
      rw [hmember, not_or]
      exact ⟨hdrop htag', hxs⟩
  · intro x hx
    cases hx
  · intro x tag hx
    cases hx
  · intro x tag hx
    cases hx
  · intro x _ hactive
    cases hactive

omit [Inhabited K] [Inhabited P] in
/-- A truncation takes a slot out of its chain. -/
theorem Inv.truncateUnlink [DecidableEq K] {tag : K} (h : Inv bucketOf σ)
    (hpc : σ.pcs t = .truncate s tag) (hlock : σ.locks (bucketOf tag) = none)
    (hc : σ.cache.truncateUnlink bucketOf s tag = some (some c)) :
    Inv bucketOf ⟨c, clockHand, Function.update σ.locks (bucketOf tag) (some t),
      Function.update σ.pcs t (.truncating s tag)⟩ := by
  unfold SlotCache.truncateUnlink at hc
  split_ifs at hc with hne
  · cases hc
  have htag : (σ.cache.slots s).tag = tag := not_not.mp hne
  obtain ⟨ch, hch, hsorted, hmember⟩ := unlinkFromChain_spec (s := s) (b := bucketOf tag) h.sorted
    (congrArg bucketOf htag)
  rw [hch] at hc
  cases hc
  have hsub : ∀ x, ch.Member x → σ.cache.chains.Member x := fun x hx => ((hmember x).mp hx).1
  apply h.of_section (c := σ.cache.withChains ch) (h.toTidy.withChains hsorted hsub)
  · intro x
    exact (h.pins t x).trans (by rw [hpc]; rfl)
  · intro t' x _
    exact Iff.rfl
  · intro t' x _ hx
    exact ⟨fun hmem => (h.owned t' x hx).1 (hsub x hmem), (h.owned t' x hx).2⟩
  · intro t' x tag' _ _
    rfl
  · intro t' x tag' _ hx
    obtain ⟨hheld, hdrop⟩ := h.dropped t' x tag' hx
    refine ⟨?_, fun htag' hmem => hdrop htag' (hsub x hmem)⟩
    rw [Function.update_of_ne]
    · exact hheld
    · intro heq
      rw [heq, hlock] at hheld
      cases hheld
  · intro x hx
    cases hx
  · intro x tag' hx
    cases hx
  · intro x tag' hx
    cases hx
    exact ⟨Function.update_self .., fun _ hmem => ((hmember s).mp hmem).2 rfl⟩
  · intro x hx
    cases hx

/-- A truncation finishes with a slot. -/
theorem Inv.truncateClear {tag : K} (h : Inv bucketOf σ) (hpc : σ.pcs t = .truncating s tag)
    (hfound : (σ.cache.slots s).tag = tag ∨ (σ.cache.slots s).dirty = false ∧
      ((σ.cache.slots s).pinCount ≠ 0 ∨ ¬ σ.cache.chains.Member s)) :
    Inv bucketOf ⟨σ.cache.truncateClear s, clockHand, Function.update σ.locks (bucketOf tag) none,
      Function.update σ.pcs t .idle⟩ := by
  have hdrop := h.dropped t s tag (by rw [hpc]; rfl)
  -- what the section leaves as it is
  have hkeep : Tidy bucketOf (σ.cache.truncateClear s) ∧
      (∀ x, (σ.cache.truncateClear s).chains.Member x ↔ σ.cache.chains.Member x) ∧
      (∀ x, ((σ.cache.truncateClear s).slots x).pins = (σ.cache.slots x).pins) ∧
      (∀ x, (σ.cache.slots x).dirty = false → ((σ.cache.truncateClear s).slots x).dirty = false) ∧
      ∀ x, (σ.cache.slots x).pins ≠ ∅ ∨ σ.cache.chains.Member x →
        ((σ.cache.truncateClear s).slots x).tag = (σ.cache.slots x).tag := by
    unfold SlotCache.truncateClear
    by_cases hfree : (σ.cache.slots s).pinCount = 0
    · rw [if_pos hfree]
      have hunlinked : ¬ σ.cache.chains.Member s := by
        rcases hfound with htag | ⟨-, hpinned | hunlinked⟩
        · exact hdrop.2 htag
        · exact absurd hfree hpinned
        · exact hunlinked
      obtain ⟨htidy, hmember⟩ := h.toTidy.clear hunlinked
      refine ⟨htidy, hmember, pins_modify rfl, ?_, ?_⟩
      · exact forall_modify (R := fun x e => (σ.cache.slots x).dirty = false → e.dirty = false)
          (fun _ => rfl) fun _ _ hd => hd
      · refine forall_modify (R := fun x e => (σ.cache.slots x).pins ≠ ∅ ∨ σ.cache.chains.Member x →
          e.tag = (σ.cache.slots x).tag) ?_ fun _ _ _ => rfl
        rintro (hpins | hmem)
        · exact absurd (Finset.card_eq_zero.mp hfree) hpins
        · exact absurd hmem hunlinked
    · rw [if_neg hfree]
      have hsame : Same σ.cache (σ.cache.modify s fun e => { e with dirty := false }) :=
        Same.modify _ _ rfl rfl
      refine ⟨h.toTidy.of_same hsame, ?_, pins_modify rfl, ?_, fun x _ => hsame.tag x⟩
      · intro x
        rw [hsame.chains]
      · exact forall_modify (R := fun x e => (σ.cache.slots x).dirty = false → e.dirty = false)
          (fun _ => rfl) fun _ _ hd => hd
  obtain ⟨htidy, hmember, hpins, hclean, htag⟩ := hkeep
  apply h.of_section htidy
  · intro x
    rw [hpins, h.pins, hpc]
    rfl
  · intro t' x _
    rw [hpins]
  · intro t' x _ hx
    exact ⟨fun hmem => (h.owned t' x hx).1 ((hmember x).mp hmem), hclean x (h.owned t' x hx).2⟩
  · intro t' x tag' _ hx
    apply htag
    exact Or.inl (Finset.ne_empty_of_mem ((h.pins t' x).mpr (Pc.holds_of_claims hx)))
  · intro t' x tag' hne hx
    obtain ⟨hheld, hdrop'⟩ := h.dropped t' x tag' hx
    refine ⟨?_, fun htag' hmem => ?_⟩
    · rw [Function.update_of_ne]
      · exact hheld
      · intro heq
        rw [heq, hdrop.1] at hheld
        exact hne (Option.some_inj.mp hheld).symm
    · rw [hmember] at hmem
      rw [htag x (Or.inr hmem)] at htag'
      exact hdrop' htag' hmem
  · intro x hx
    cases hx
  · intro x tag' hx
    cases hx
  · intro x tag' hx
    cases hx
  · intro x hx
    cases hx

end Relink

/-! ## Every section -/

section Step

variable {N B : ℕ} {K P T : Type} [DecidableEq K] [Inhabited K] [Inhabited P] [DecidableEq T]
  {isChunk : Bool} {bucketOf : K → Fin B} {σ σ' : SlotSys N B K P T} {t : T} {s : Fin N}
  {c : SlotCache N B K P T}

omit [DecidableEq K] [Inhabited K] [Inhabited P] [DecidableEq T] in
theorem tryFlush_dirty {ok : Bool} (x : Fin N)
    (h : ((c.modify s fun e => (e.tryFlush ok).2).slots x).dirty = true) :
    (c.slots x).dirty = true := by
  revert x
  refine forall_modify (R := fun x e => e.dirty = true → (c.slots x).dirty = true) ?_ fun _ _ h => h
  cases ok
  · exact fun h => h
  · exact nofun

omit [Inhabited P] [DecidableEq T] in
theorem flushVictim_same (c : SlotCache N B K P T) (s : Fin N) (ok : Bool) :
    Same c (c.flushVictim s ok).2 ∧ (∀ x, ((c.flushVictim s ok).2.slots x).pins = (c.slots x).pins) ∧
      ∀ x, ((c.flushVictim s ok).2.slots x).dirty = true → (c.slots x).dirty = true := by
  unfold flushVictim
  split_ifs
  · exact ⟨.modify c s (f := fun e => (e.tryFlush ok).2) (Slot.tryFlush_next _ _)
      (Slot.tryFlush_tag _ _), pins_modify (f := fun e => (e.tryFlush ok).2) (Slot.tryFlush_pins _ _),
      fun x hx => tryFlush_dirty x hx⟩
  · exact ⟨.refl c, fun _ => rfl, fun _ hx => hx⟩

theorem inv_operate (h : Inv bucketOf σ) {answer : Answer P} (hok : σ.Undisturbed isChunk (.run t answer))
    (hs : σ.operate isChunk bucketOf t answer (σ.pcs t) = some σ') : Inv bucketOf σ' := by
  cases hpc : σ.pcs t with
  | idle =>
    rw [hpc] at hs
    cases hs
  | lookup tag =>
    rw [hpc] at hs
    dsimp only [operate] at hs
    split_ifs at hs with hlock
    obtain ⟨found, hfound, hs⟩ := Option.map_eq_some_iff.mp hs
    subst hs
    cases found with
    | none => exact h.goto hpc rfl (.inl rfl) (.inl rfl) rfl (.inl rfl)
    | some s =>
      obtain ⟨hmember, htag⟩ := member_of_findTag h.sorted hfound
      refine h.pin hpc rfl rfl rfl rfl (fun tag' htag' => ?_) (.inr (.inl hmember))
      cases htag'
      exact htag
  | hit s tag =>
    rw [hpc] at hs
    dsimp only [operate] at hs
    have hwritten : ∀ x, ((σ.cache.modify s fun e =>
        { e with data := answer.data, dirty := e.dirty || answer.ok }).slots x).dirty = true →
        (σ.cache.slots x).dirty = true ∨ some s = some x ∧ false = false ∧ none = (none : Option (Fin N)) :=
      forall_modify (R := fun x e => e.dirty = true → (σ.cache.slots x).dirty = true ∨
        some s = some x ∧ false = false ∧ none = (none : Option (Fin N)))
        (fun _ => .inr ⟨rfl, rfl, rfl⟩) fun _ _ hd => .inl hd
    split_ifs at hs with hwrite hdone hdone
    · cases hs
      exact h.frame hpc (.modify _ _ rfl rfl) (pins_modify rfl) hwritten rfl (.inl rfl) (.inl rfl) rfl
        (.inl rfl)
    · cases hs
      exact h.frame hpc (.modify _ _ rfl rfl) (pins_modify rfl) hwritten rfl (.inl rfl) (.inl rfl) rfl
        (.inl rfl)
    · cases hs
      exact h.goto hpc rfl (.inl rfl) (.inl rfl) rfl (.inl rfl)
    · cases hs
      exact h.goto hpc rfl (.inl rfl) (.inl rfl) rfl (.inl rfl)
  | touching s =>
    rw [hpc] at hs
    cases hs
    exact h.touch hpc rfl (.inl rfl) (.inl rfl) rfl (.inl rfl)
  | missed tag =>
    rw [hpc] at hs
    dsimp only [operate] at hs
    split_ifs at hs with hdone
    · cases hs
      exact h.goto hpc rfl (.inl rfl) (.inl rfl) rfl (.inl rfl)
    · cases hs
      exact h.goto hpc rfl (.inl rfl) (.inl rfl) rfl (.inl rfl)
  | sweep job start i =>
    rw [hpc] at hs
    dsimp only [operate] at hs
    split_ifs at hs with hi hpinned
    · cases hs
      exact h.goto hpc rfl (.inl rfl) (.inl rfl) rfl (.inl rfl)
    · cases hs
      exact h.goto hpc rfl (.inl rfl) (.inl rfl) rfl (.inl rfl)
    · cases hs
      exact h.goto hpc rfl (.inl rfl) (.inl rfl) rfl (.inl rfl)
  | age job start i =>
    rw [hpc] at hs
    dsimp only [operate] at hs
    have haged : Same σ.cache (σ.cache.modify (slotAt start i) fun e => e.untouch.2) :=
      .modify _ _ (Slot.untouch_next _) (Slot.untouch_tag _)
    have hdirty : ∀ x, ((σ.cache.modify (slotAt start i) fun e => e.untouch.2).slots x).dirty = true →
        (σ.cache.slots x).dirty = true := fun _ hx => dirty_of_modify hx (Slot.untouch_dirty _)
    split_ifs at hs with hprev
    · cases hs
      exact h.frame hpc haged (pins_modify (Slot.untouch_pins _)) (fun x hx => .inl (hdirty x hx)) rfl
        (.inl rfl) (.inl rfl) rfl (.inl rfl)
    · cases hs
      exact h.frame hpc haged (pins_modify (Slot.untouch_pins _)) (fun x hx => .inl (hdirty x hx)) rfl
        (.inl rfl) (.inl rfl) rfl (.inl rfl)
  | readTag job start i =>
    rw [hpc] at hs
    cases hs
    exact h.goto hpc rfl (.inl rfl) (.inl rfl) rfl (.inl rfl)
  | claim job start i tag =>
    rw [hpc] at hs
    dsimp only [operate, SlotCache.claim] at hs
    split_ifs at hs with hlock hpinned htag
    · cases hs
      exact h.goto hpc rfl (.inl rfl) (.inl rfl) rfl (.inl rfl)
    · cases hs
      exact h.goto hpc rfl (.inl rfl) (.inl rfl) rfl (.inl rfl)
    · cases hs
      refine h.pin hpc rfl rfl rfl rfl (fun x hx => ?_) (.inr (.inr ?_))
      · cases hx
        exact not_not.mp htag
      · exact Finset.card_eq_zero.mp (not_not.mp hpinned)
  | flush job start i tag =>
    rw [hpc] at hs
    dsimp only [operate] at hs
    obtain ⟨hsame, hpins, hdirty⟩ := flushVictim_same σ.cache (slotAt start i) answer.ok
    rcases hflush : σ.cache.flushVictim (slotAt start i) answer.ok with ⟨flushed, c⟩
    rw [hflush] at hs hsame hpins hdirty
    cases flushed with
    | false =>
      cases hs
      exact h.frame hpc hsame hpins (fun x hx => .inl (hdirty x hx)) rfl (.inl rfl) (.inl rfl) rfl
        (.inl rfl)
    | true =>
      cases hs
      exact h.frame hpc hsame hpins (fun x hx => .inl (hdirty x hx)) rfl (.inl rfl) (.inr rfl) rfl
        (.inl rfl)
  | verify job start i tag =>
    rw [hpc] at hs
    dsimp only [operate] at hs
    split_ifs at hs with hlock
    obtain ⟨unlinked, hverify, hs⟩ := Option.map_eq_some_iff.mp hs
    subst hs
    cases unlinked with
    | none => exact h.goto hpc rfl (.inl rfl) (.inl rfl) rfl (.inl rfl)
    | some c =>
      have htag : bucketAt bucketOf σ.cache (slotAt start i) = bucketOf tag := by
        unfold bucketAt
        rw [h.tagged t (slotAt start i) tag (by rw [hpc]; rfl)]
      obtain ⟨ch, hch, hsorted, hmember⟩ := unlinkFromChain_spec h.sorted htag
      unfold SlotCache.verify at hverify
      split_ifs at hverify with hpins hdirty
      · cases hverify
      · cases hverify
      · rw [hch] at hverify
        cases hverify
        exact h.unlink (by rw [hpc]; rfl) (not_not.mp hpins) (Bool.eq_false_iff.mpr hdirty) hsorted
          hmember
  | abort job start i =>
    rw [hpc] at hs
    cases hs
    exact h.touch hpc rfl (.inl rfl) (.inl rfl) rfl (.inl rfl)
  | drop job start i =>
    rw [hpc] at hs
    cases hs
    exact h.unpin hpc rfl rfl rfl
  | clear job s =>
    rw [hpc] at hs
    cases hs
    exact h.clear hpc
  | ready job s =>
    rw [hpc] at hs
    dsimp only [operate] at hs
    have hdirty : ∀ x, ((σ.cache.modify s fun e => { e with data := job.data }).slots x).dirty = true →
        (σ.cache.slots x).dirty = true := fun _ hx => dirty_of_modify hx rfl
    split_ifs at hs with hfile hdone
    · cases hs
      exact h.frame hpc (.modify _ _ rfl rfl) (pins_modify rfl) (fun x hx => .inl (hdirty x hx)) rfl
        (.inr rfl) (.inl rfl) rfl (.inl rfl)
    · cases hs
      exact h.frame hpc (.modify _ _ rfl rfl) (pins_modify rfl) (fun x hx => .inl (hdirty x hx)) rfl
        (.inl rfl) (.inl rfl) rfl (.inl rfl)
    · cases hs
      exact h.goto hpc rfl (.inr rfl) (.inl rfl) rfl (.inl rfl)
  | exhausted =>
    rw [hpc] at hs
    cases hs
    exact h.goto hpc rfl (.inl rfl) (.inl rfl) rfl (.inl rfl)
  | link job s =>
    rw [hpc] at hs
    dsimp only [operate] at hs
    split_ifs at hs with hlock
    obtain ⟨linked, hlinked, hs⟩ := Option.map_eq_some_iff.mp hs
    subst hs
    cases linked with
    | none => exact h.goto hpc rfl (.inl rfl) (.inl rfl) rfl (.inl rfl)
    | some c => exact h.link hpc (Option.not_isSome_iff_eq_none.mp hlock) hlinked
  | truncate s tag =>
    rw [hpc] at hs
    dsimp only [operate] at hs
    split_ifs at hs with hlock
    obtain ⟨unlinked, hunlinked, hs⟩ := Option.map_eq_some_iff.mp hs
    subst hs
    cases unlinked with
    | none => exact h.goto hpc rfl (.inl rfl) (.inl rfl) rfl (.inl rfl)
    | some c => exact h.truncateUnlink hpc (Option.not_isSome_iff_eq_none.mp hlock) hunlinked
  | truncating s tag =>
    rw [hpc] at hs
    dsimp only [operate] at hs
    split_ifs at hs with hchunk
    cases hs
    exact h.truncateClear hpc (hok hchunk s tag hpc)
  | pinning s =>
    rw [hpc] at hs
    cases hs
    exact h.pin hpc rfl rfl rfl rfl nofun (.inl rfl)
  | flushing s =>
    rw [hpc] at hs
    dsimp only [operate] at hs
    split_ifs at hs with hskip
    · cases hs
      exact h.goto hpc rfl (.inl rfl) (.inl rfl) rfl (.inr rfl)
    · cases hs
      exact h.frame hpc (.modify _ _ (Slot.tryFlush_next _ _) (Slot.tryFlush_tag _ _))
        (pins_modify (Slot.tryFlush_pins _ _)) (fun x hx => .inl (tryFlush_dirty x hx)) rfl (.inl rfl)
        (.inl rfl) rfl (.inr rfl)
  | unpin s =>
    rw [hpc] at hs
    cases hs
    exact h.unpin hpc rfl rfl rfl

theorem inv_step (h : Inv bucketOf σ) {l : Label N K P T} (hok : σ.Undisturbed isChunk l)
    (hs : σ.step isChunk bucketOf l = some σ') : Inv bucketOf σ' := by
  cases l with
  | call t tag =>
    dsimp only [step] at hs
    split at hs
    · next hpc =>
      cases hs
      exact h.goto hpc rfl (.inl rfl) (.inl rfl) rfl (.inl rfl)
    · cases hs
  | flush t s =>
    dsimp only [step] at hs
    split at hs
    · next hpc =>
      split_ifs at hs
      cases hs
      exact h.goto hpc rfl (.inl rfl) (.inl rfl) rfl (.inl rfl)
    · cases hs
  | truncate t s tag =>
    dsimp only [step] at hs
    split at hs
    · next hpc =>
      split_ifs at hs
      cases hs
      exact h.goto hpc rfl (.inl rfl) (.inl rfl) rfl (.inl rfl)
    · cases hs
  | run t answer => exact inv_operate h hok hs

omit [DecidableEq K] [DecidableEq T] in
theorem inv_init [NeZero N] : Inv bucketOf (init : SlotSys N B K P T) where
  sorted := fun _ => ⟨[], rfl, nofun⟩
  unique := by
    rintro x y ⟨b, l, hl, hx⟩
    have hnone : l = [] := hl.unique (show Linked _ none [] from rfl)
    rw [hnone] at hx
    cases hx
  pins := fun t _ => ⟨fun h => absurd h (Finset.notMem_empty t), nofun⟩
  owned := nofun
  alone := nofun
  tagged := nofun
  dropped := nofun

/-- **The invariant holds in every state that is reached.** -/
theorem inv_of_reachable [NeZero N] (h : σ.Reachable isChunk bucketOf) : Inv bucketOf σ :=
  h.invariant inv_init fun _ _ _ hinv hok hs => inv_step hinv hok hs

end Step

end SlotSys

end Tiko

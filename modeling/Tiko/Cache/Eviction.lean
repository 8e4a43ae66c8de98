import Tiko.Cache.Chains

/-!
# The clock sweep

`evict_and_pin` visits every slot `MAX_USAGE_COUNT` times. A visit that finds the usage count at `0`
takes the slot, any other takes one off. A slot with a usage count of `MAX_USAGE_COUNT` would be taken
by one visit more.

* `Slot.Evictable`: a slot that a sweep can take;
* `Evicted`, `EvictsVictim`: what `evict_and_pin` promises;
* `visits`: how often a sweep comes to a slot.

**`evictsVictim_iff`**: in a state that is reached, the sweep of a thread that runs alone finds a victim
exactly if there is a slot that it can take.
-/

namespace Tiko

open Lib SlotCache SlotSys

namespace SlotCache

variable {N B : ℕ} {K P T : Type} [DecidableEq K] [Inhabited K] [Inhabited P] [DecidableEq T]

/-! ## What is promised -/

/-- A slot that a sweep can take: unpinned, not at the largest usage count, and not dirty without a
tag. -/
def Slot.Evictable (e : Slot N K P T) : Prop :=
  e.pinCount = 0 ∧ e.usageCount < maxUsageCount ∧ (e.dirty = true → e.isOccupied = true)

/-- The slot is cleared, unlinked, and pinned by the thread. -/
structure Evicted (bucketOf : K → Fin B) (t : T) (c c' : SlotCache N B K P T) (s : Fin N) : Prop where
  cleared : c'.slots s = ⟨default, default, false, 0, {t}, none⟩
  sorted : c'.chains.Sorted (bucketAt bucketOf c')
  unlinked : ∀ x, c'.chains.Member x ↔ c.chains.Member x ∧ x ≠ s

/-- `evict_and_pin` returns a victim, where all flushes succeed. -/
def EvictsVictim (bucketOf : K → Fin B) (t : T) (clockHand : Fin N) (c : SlotCache N B K P T) : Prop :=
  ∃ s c', c.evictAndPin bucketOf t (fun _ => true) clockHand = some (.ok s, c') ∧
    Evicted bucketOf t c c' s

/-! ## One round -/

/-- A slot that the round takes. -/
def Slot.Victim (e : Slot N K P T) : Prop :=
  e.pinCount = 0 ∧ e.usageCount = 0 ∧ (e.dirty = true → e.isOccupied = true)

/-- What a round does to a slot that it does not take. -/
def Slot.aged (e : Slot N K P T) : Slot N K P T :=
  if e.pinCount ≠ 0 then e
  else if e.usageCount ≠ 0 then { e with usageCount := e.usageCount - 1 }
  else { e with usageCount := 1 }

section Round

variable {bucketOf : K → Fin B} {c : SlotCache N B K P T} {t : T} {s : Fin N}

omit [DecidableEq K] [Inhabited K] [Inhabited P] [DecidableEq T] in
theorem modify_modify (c : SlotCache N B K P T) (s : Fin N) (f g : Slot N K P T → Slot N K P T) :
    (c.modify s f).modify s g = c.modify s fun e => g (f e) := by
  unfold modify
  dsimp only
  rw [Function.update_self, Function.update_idem]

omit [DecidableEq K] [Inhabited K] [Inhabited P] [DecidableEq T] in
theorem modify_eq_self {f : Slot N K P T → Slot N K P T} (h : f (c.slots s) = c.slots s) :
    c.modify s f = c := by
  unfold modify
  rw [h, Function.update_eq_self]

omit [DecidableEq K] [Inhabited K] [Inhabited P] [DecidableEq T] in
theorem modify_congr {f g : Slot N K P T → Slot N K P T} (h : f (c.slots s) = g (c.slots s)) :
    c.modify s f = c.modify s g := by
  unfold modify
  rw [h]

omit [DecidableEq K] [Inhabited K] [Inhabited P] [DecidableEq T] in
theorem pins_of_pinCount {e : Slot N K P T} (h : e.pinCount = 0) : e.pins = ∅ := Finset.card_eq_zero.mp h

/-- A pinned slot is passed over. -/
theorem evictRound_pinned (h : (c.slots s).pinCount ≠ 0) :
    c.evictRound bucketOf t true s = some (false, c) := by
  unfold evictRound
  rw [if_pos h]

/-- A slot in use is aged. -/
theorem evictRound_used (h : (c.slots s).pinCount = 0) (hused : (c.slots s).usageCount ≠ 0) :
    c.evictRound bucketOf t true s = some (false, c.modify s fun e => e.untouch.2) := by
  unfold evictRound
  rw [if_neg (not_not.mpr h)]
  dsimp only
  rw [if_pos]
  rw [Slot.untouch_fst]
  exact hused

omit [DecidableEq K] [Inhabited K] [Inhabited P] [DecidableEq T] in
theorem untouch_of_zero {e : Slot N K P T} (h : e.usageCount = 0) : e.untouch = (0, e) := by
  unfold Slot.untouch
  rw [if_neg (by omega), h]

/-- The slot after phases 1 and 2. -/
def Slot.claimed (e : Slot N K P T) (t : T) : Slot N K P T :=
  if e.isOccupied then { e.pin t with dirty := false } else e.pin t

omit [Inhabited P] in
theorem flushVictim_claimed : (c.modify s fun e => e.pin t).flushVictim s true =
    (true, c.modify s fun e => e.claimed t) := by
  unfold flushVictim
  rw [modify_slots_self]
  by_cases hocc : (c.slots s).isOccupied = true
  · have hpin : ((c.slots s).pin t).isOccupied = true := hocc
    rw [if_pos hpin, modify_modify]
    refine congrArg (Prod.mk true) (modify_congr ?_)
    rw [Slot.claimed, if_pos hocc]
    rfl
  · have hpin : ¬ ((c.slots s).pin t).isOccupied = true := hocc
    rw [if_neg hpin]
    refine congrArg (Prod.mk true) (modify_congr ?_)
    rw [Slot.claimed, if_neg hocc]

/-- A slot at `0` is claimed and flushed. -/
theorem evictRound_zero (h : (c.slots s).pinCount = 0) (hzero : (c.slots s).usageCount = 0) :
    c.evictRound bucketOf t true s =
      match (c.modify s fun e => e.claimed t).verify s (bucketAt bucketOf c s) with
      | none => none
      | some none => some (false, ((c.modify s fun e => e.claimed t).modify s Slot.touch).modify s
          fun e => e.unpin t)
      | some (some c) => some (true, c.modify s Slot.clear) := by
  have hsame : (c.modify s fun e => e.untouch.2) = c := modify_eq_self (by rw [untouch_of_zero hzero])
  have hclaim : c.claim s (c.slots s).tag t = some (c.modify s fun e => e.pin t) := by
    unfold claim
    rw [if_neg (not_not.mpr h), if_neg (not_not.mpr rfl)]
  unfold evictRound
  rw [if_neg (not_not.mpr h)]
  dsimp only
  rw [untouch_of_zero hzero, if_neg (not_not.mpr rfl), hsame, hclaim]
  dsimp only
  rw [flushVictim_claimed]
  rfl

omit [Inhabited P] in
theorem claimed_pins {e : Slot N K P T} (h : e.pinCount = 0) : (e.claimed t).pins = {t} := by
  have hpins : (e.pin t).pins = {t} := by
    rw [Slot.pin, pins_of_pinCount h]
    rfl
  unfold Slot.claimed
  split_ifs <;> exact hpins

/-- A dirty slot without a tag stays. -/
theorem evictRound_untagged (h : (c.slots s).pinCount = 0) (hzero : (c.slots s).usageCount = 0)
    (hdirty : (c.slots s).dirty = true) (hocc : ¬ (c.slots s).isOccupied = true) :
    c.evictRound bucketOf t true s = some (false, c.modify s fun e => { e with usageCount := 1 }) := by
  have hclaimed : (c.slots s).claimed t = (c.slots s).pin t := by
    rw [Slot.claimed, if_neg hocc]
  have hverify : (c.modify s fun e => e.claimed t).verify s (bucketAt bucketOf c s) = some none := by
    unfold verify
    rw [modify_slots_self, hclaimed, if_pos (show ((c.slots s).pin t).dirty = true from hdirty), ite_self]
  rw [evictRound_zero h hzero, hverify]
  dsimp only
  rw [modify_modify, modify_modify]
  congr 2
  apply modify_congr
  have hlt : ((c.slots s).pin t).usageCount < maxUsageCount := by
    change (c.slots s).usageCount < 5
    omega
  have hpins : (insert t (c.slots s).pins).erase t = (c.slots s).pins := by
    rw [pins_of_pinCount h]
    simp
  rw [hclaimed, Slot.touch, if_pos hlt]
  unfold Slot.unpin Slot.pin
  dsimp only
  rw [hpins, hzero]

/-- **A victim is cleared and unlinked.** -/
theorem evictRound_victim (hsorted : c.chains.Sorted (bucketAt bucketOf c))
    (h : (c.slots s).Victim) :
    ∃ c', c.evictRound bucketOf t true s = some (true, c') ∧ Evicted bucketOf t c c' s ∧
      ∀ x, x ≠ s → c'.slots x = { c.slots x with next := (c'.slots x).next } := by
  obtain ⟨hpinned, hzero, hdirty⟩ := h
  have hpins := claimed_pins (t := t) hpinned
  have hclean : ((c.slots s).claimed t).dirty = false := by
    unfold Slot.claimed
    split_ifs with hocc
    · rfl
    · exact Bool.eq_false_iff.mpr fun hd => hocc (hdirty hd)
  have hsame : Same c (c.modify s fun e => e.claimed t) := by
    apply Same.modify
    · unfold Slot.claimed
      split_ifs <;> rfl
    · unfold Slot.claimed
      split_ifs <;> rfl
  have hbucket : bucketAt bucketOf (c.modify s fun e => e.claimed t) = bucketAt bucketOf c := by
    funext x
    unfold bucketAt
    rw [hsame.tag]
  have hslot : (c.modify s fun e => e.claimed t).slots s = (c.slots s).claimed t := modify_slots_self ..
  have hother : ∀ x, x ≠ s → (c.modify s fun e => e.claimed t).slots x = c.slots x := fun x hx =>
    modify_slots_of_ne _ _ hx
  rw [evictRound_zero hpinned hzero]
  generalize c.modify s (fun e => e.claimed t) = w at hsame hbucket hslot hother
  have hw : w.chains.Sorted (bucketAt bucketOf w) := by
    rw [hsame.chains, hbucket]
    exact hsorted
  obtain ⟨ch, hch, hch_sorted, hmember⟩ := unlinkFromChain_spec hw (congrFun hbucket s)
  have hverify : w.verify s (bucketAt bucketOf c s) = some (some (w.withChains ch)) := by
    unfold verify Slot.pinCount
    rw [hslot, hpins, if_neg (not_not.mpr (Finset.card_singleton t)), hclean, if_neg (by decide), hch]
    rfl
  rw [hverify]
  refine ⟨_, rfl, ?_⟩
  obtain ⟨hclear, hclear_member⟩ := sorted_clear (c := w.withChains ch) (s := s) hch_sorted
    fun hmem => ((hmember s).mp hmem).2 rfl
  refine ⟨⟨?_, hclear, ?_⟩, ?_⟩
  · rw [modify_slots_self]
    change (⟨default, default, false, 0, (w.slots s).pins, none⟩ : Slot N K P T) = _
    rw [hslot, hpins]
  · intro x
    rw [hclear_member]
    change ch.Member x ↔ _
    rw [hmember, hsame.chains]
  · intro x hx
    rw [modify_slots_of_ne _ _ hx, ← hother x hx]
    rfl

/-- **Any other slot is aged.** -/
theorem evictRound_other (h : ¬ (c.slots s).Victim) :
    c.evictRound bucketOf t true s = some (false, c.modify s Slot.aged) := by
  by_cases hpinned : (c.slots s).pinCount = 0
  · by_cases hzero : (c.slots s).usageCount = 0
    · have hbad : ¬ ((c.slots s).dirty = true → (c.slots s).isOccupied = true) := fun hgood =>
        h ⟨hpinned, hzero, hgood⟩
      rw [Classical.not_imp] at hbad
      rw [evictRound_untagged hpinned hzero hbad.1 hbad.2]
      refine congrArg (fun c => some (false, c)) (modify_congr ?_)
      rw [Slot.aged, if_neg (not_not.mpr hpinned), if_neg (not_not.mpr hzero)]
    · rw [evictRound_used hpinned hzero]
      refine congrArg (fun c => some (false, c)) (modify_congr ?_)
      rw [Slot.aged, if_neg (not_not.mpr hpinned), if_pos hzero, Slot.untouch,
        if_pos (Nat.pos_of_ne_zero hzero)]
  · rw [evictRound_pinned hpinned, modify_eq_self]
    rw [Slot.aged, if_pos hpinned]

end Round

/-! ## The sweep -/

/-- How often the rounds `i`, …, `i + rounds - 1` come to a slot. -/
def visits (start s : Fin N) (rounds i : ℕ) : ℕ :=
  ∑ j ∈ Finset.range rounds, if slotAt start (i + j) = s then 1 else 0

theorem visits_succ (start s : Fin N) (rounds i : ℕ) : visits start s (rounds + 1) i =
    visits start s rounds (i + 1) + if slotAt start i = s then 1 else 0 := by
  unfold visits
  rw [Finset.sum_range_succ']
  simp only [Nat.add_zero, Nat.add_assoc, Nat.add_comm 1]

theorem visits_add (start s : Fin N) (m n i : ℕ) :
    visits start s (m + n) i = visits start s m i + visits start s n (i + m) := by
  unfold visits
  rw [Finset.sum_range_add]
  simp only [Nat.add_assoc]

/-- `NUM_SLOTS` rounds come to every slot once. -/
theorem visits_numSlots (start s : Fin N) (i : ℕ) : visits start s N i = 1 := by
  have hN := start.pos
  have hs := s.isLt
  have hi := Nat.mod_lt (start + i) hN
  -- the number of the round that comes to it
  have hround : ∃ j < N, (start + i + j) % N = s := by
    rcases Nat.lt_or_ge (s : ℕ) ((start + i) % N) with hlt | hge
    · refine ⟨N + s - (start + i) % N, by omega, ?_⟩
      rw [Nat.add_mod, Nat.mod_eq_of_lt (show N + s - (start + i) % N < N by omega),
        Nat.add_sub_cancel' (by omega), Nat.add_mod_left, Nat.mod_eq_of_lt hs]
    · refine ⟨s - (start + i) % N, by omega, ?_⟩
      rw [Nat.add_mod, Nat.mod_eq_of_lt (show s - (start + i) % N < N by omega),
        Nat.add_sub_cancel' hge, Nat.mod_eq_of_lt hs]
  obtain ⟨j, hj, hjs⟩ := hround
  unfold visits
  rw [Finset.sum_eq_single j]
  · rw [if_pos]
    apply Fin.ext
    change (start + (i + j)) % N = s
    rw [← Nat.add_assoc]
    exact hjs
  · intro j' hj' hne
    rw [if_neg]
    intro heq
    apply hne
    have hval : (start + (i + j')) % N = s := congrArg Fin.val heq
    rw [← Nat.add_assoc] at hval
    have hmod : j' % N = j % N := Nat.ModEq.add_left_cancel' (start + i) (hval.trans hjs.symm)
    rwa [Nat.mod_eq_of_lt (Finset.mem_range.mp hj'), Nat.mod_eq_of_lt hj] at hmod
  · intro hnot
    exact absurd (Finset.mem_range.mpr hj) hnot

theorem visits_mul (start s : Fin N) (m i : ℕ) : visits start s (N * m) i = m := by
  induction m generalizing i with
  | zero =>
    rw [Nat.mul_zero]
    exact Finset.sum_range_zero _
  | succ m ih => rw [Nat.mul_succ, visits_add, ih, visits_numSlots]

/-- A slot that is taken within a number of visits. -/
def Slot.TakenWithin (e : Slot N K P T) (n : ℕ) : Prop :=
  e.pinCount = 0 ∧ e.usageCount < n ∧ (e.dirty = true → e.isOccupied = true)

omit [Inhabited P] [DecidableEq T] in
/-- A round that does not take a slot brings it one visit nearer. -/
theorem takenWithin_aged {e : Slot N K P T} {n : ℕ} (h : ¬ e.Victim) :
    e.TakenWithin (n + 1) ↔ e.aged.TakenWithin n := by
  unfold Slot.TakenWithin Slot.aged
  split_ifs with hpinned hused
  · exact ⟨fun hp => absurd hp.1 hpinned, fun hp => absurd hp.1 hpinned⟩
  · constructor
    · rintro ⟨hp, hlt, hd⟩
      exact ⟨hp, show e.usageCount - 1 < n by omega, hd⟩
    · rintro ⟨hp, hlt, hd⟩
      change e.usageCount - 1 < n at hlt
      exact ⟨hp, by omega, hd⟩
  · exact ⟨fun hp => absurd ⟨hp.1, not_not.mp hused, hp.2.2⟩ h,
      fun hp => absurd ⟨hp.1, not_not.mp hused, hp.2.2⟩ h⟩

section Loop

variable {bucketOf : K → Fin B} {c : SlotCache N B K P T} {t : T} {start s : Fin N}

omit [DecidableEq K] [Inhabited K] [Inhabited P] [DecidableEq T] in
theorem same_aged (c : SlotCache N B K P T) (s : Fin N) : Same c (c.modify s Slot.aged) := by
  apply Same.modify
  · unfold Slot.aged
    split_ifs <;> rfl
  · unfold Slot.aged
    split_ifs <;> rfl

omit [Inhabited P] [DecidableEq T] in
/-- After a round without a victim, the same slots can be taken in the rounds that are left. -/
theorem takenWithin_visits {rounds i : ℕ} (h : ¬ (c.slots (slotAt start i)).Victim) :
    (c.slots s).TakenWithin (visits start s (rounds + 1) i) ↔
      ((c.modify (slotAt start i) Slot.aged).slots s).TakenWithin (visits start s rounds (i + 1)) := by
  rw [visits_succ]
  by_cases hs : s = slotAt start i
  · subst hs
    rw [if_pos rfl, modify_slots_self, takenWithin_aged h]
  · rw [if_neg (Ne.symm hs), Nat.add_zero, modify_slots_of_ne _ _ hs]

variable (t start) in
/-- **The rounds that are left take a slot if there is one that they visit often enough**, and none
otherwise. -/
theorem evictLoop_spec (hsorted : c.chains.Sorted (bucketAt bucketOf c)) (rounds i : ℕ) :
    ((∃ s, (c.slots s).TakenWithin (visits start s rounds i)) →
      ∃ s c', evictLoop bucketOf t (fun _ => true) start rounds i c = some (.ok s, c') ∧
        Evicted bucketOf t c c' s) ∧
    ((¬ ∃ s, (c.slots s).TakenWithin (visits start s rounds i)) →
      ∃ c', evictLoop bucketOf t (fun _ => true) start rounds i c =
        some (.error .evictionSweepExhausted, c')) := by
  induction rounds generalizing i c with
  | zero =>
    constructor
    · rintro ⟨s, -, hlt, -⟩
      exact absurd hlt (Nat.not_lt_zero _)
    · exact fun _ => ⟨c, rfl⟩
  | succ rounds ih =>
    by_cases hv : (c.slots (slotAt start i)).Victim
    · obtain ⟨c', hround, hevicted, -⟩ := evictRound_victim (t := t) hsorted hv
      constructor
      · intro _
        refine ⟨_, c', ?_, hevicted⟩
        rw [evictLoop, hround]
      · intro hnone
        refine absurd ⟨slotAt start i, hv.1, ?_, hv.2.2⟩ hnone
        rw [hv.2.1, visits_succ, if_pos rfl]
        exact Nat.succ_pos _
    · have hsame := same_aged c (slotAt start i)
      have hsorted' : (c.modify (slotAt start i) Slot.aged).chains.Sorted
          (bucketAt bucketOf (c.modify (slotAt start i) Slot.aged)) := by
        have hbucket : bucketAt bucketOf (c.modify (slotAt start i) Slot.aged) =
            bucketAt bucketOf c := by
          funext x
          unfold bucketAt
          rw [hsame.tag]
        rw [hsame.chains, hbucket]
        exact hsorted
      rw [evictLoop, evictRound_other hv]
      dsimp only
      simp only [takenWithin_visits hv]
      obtain ⟨hfound, hnone⟩ := ih hsorted' (i + 1)
      refine ⟨fun h => ?_, hnone⟩
      obtain ⟨s, c', hc', hevicted⟩ := hfound h
      refine ⟨s, c', hc', hevicted.cleared, hevicted.sorted, ?_⟩
      rw [← hsame.chains]
      exact hevicted.unlinked

variable (t start) in
/-- **The sweep takes a victim exactly if there is a slot that it can take.** -/
theorem evictAndPin_spec (hsorted : c.chains.Sorted (bucketAt bucketOf c)) :
    ((∃ s, (c.slots s).Evictable) → EvictsVictim bucketOf t start c) ∧
    ((¬ ∃ s, (c.slots s).Evictable) →
      ∃ c', c.evictAndPin bucketOf t (fun _ => true) start =
        some (.error .evictionSweepExhausted, c')) := by
  have hspec := evictLoop_spec t start hsorted (N * maxUsageCount) 0
  simp only [visits_mul] at hspec
  exact hspec

end Loop

end SlotCache

namespace SlotSys

variable {N B : ℕ} [NeZero N] {K P T : Type} [DecidableEq K] [Inhabited K] [Inhabited P] [DecidableEq T]
  {isChunk : Bool} {bucketOf : K → Fin B} {σ : SlotSys N B K P T}

/-- **The sweep finds a victim in a state that is reached exactly if there is a slot that it can take.** -/
theorem evictsVictim_iff (h : σ.Reachable isChunk bucketOf) (t : T) :
    EvictsVictim bucketOf t (σ.clockHand t) σ.cache ↔ ∃ s, (σ.cache.slots s).Evictable := by
  obtain ⟨hfound, hnone⟩ := evictAndPin_spec t (σ.clockHand t) (inv_of_reachable h).sorted
  constructor
  · rintro ⟨s, c', hok, -⟩
    by_contra hno
    obtain ⟨c'', herr⟩ := hnone hno
    rw [hok, Option.some_inj, Prod.mk.injEq] at herr
    cases herr.1
  · exact hfound

end SlotSys

end Tiko

import Tiko.Cache.Dirty
import Tiko.Cache.Eviction

/-!
# A cache in use

The sweep of a thread is its run alone, section by section. A cache whose chunks have all been read a
few times has every slot at the largest usage count, and the next miss finds no victim.

* `RunsAlone`: only one thread takes its sections;
* `Filled`: the first slots of a cache hold entries that have been read five times;
* `chunkAt`, `relforkAt`: the tags of a full cache.

**`evictAndPin_alone`**: `evictAndPin` is what the sections of a thread do that runs alone.

**`evict_iff`**: for both caches, when the sweep finds a victim.

**`fullCache_exhausted`**: the full caches.
-/

namespace Tiko

open Lib SlotCache

namespace SlotSys

variable {N B : ℕ} {K P T : Type} [DecidableEq K] [Inhabited K] [Inhabited P] [DecidableEq T]

/-! ## A thread that runs alone -/

/-- The state with a thread at a place. -/
def place (σ : SlotSys N B K P T) (t : T) (c : SlotCache N B K P T) (pc : Pc N K P) :
    SlotSys N B K P T :=
  ⟨c, σ.clockHand, σ.locks, Function.update σ.pcs t pc⟩

section Place

variable (σ : SlotSys N B K P T) (t : T) (c c' : SlotCache N B K P T) (pc pc' : Pc N K P)

omit [DecidableEq K] [Inhabited K] [Inhabited P] in
@[simp] theorem place_pcs : (σ.place t c pc).pcs t = pc := Function.update_self ..

omit [DecidableEq K] [Inhabited K] [Inhabited P] in
@[simp] theorem place_cache : (σ.place t c pc).cache = c := rfl

omit [DecidableEq K] [Inhabited K] [Inhabited P] in
@[simp] theorem place_locks : (σ.place t c pc).locks = σ.locks := rfl

omit [DecidableEq K] [Inhabited K] [Inhabited P] in
@[simp] theorem place_goto : (σ.place t c pc).goto t pc' = σ.place t c pc' := by
  unfold place goto
  dsimp only
  rw [Function.update_idem]

omit [DecidableEq K] [Inhabited K] [Inhabited P] in
@[simp] theorem place_put : (σ.place t c pc).put t c' pc' = σ.place t c' pc' := by
  unfold place put
  dsimp only
  rw [Function.update_idem]

omit [DecidableEq K] [Inhabited K] [Inhabited P] in
@[simp] theorem place_place : (σ.place t c pc).place t c' pc' = σ.place t c' pc' := by
  unfold place
  dsimp only
  rw [Function.update_idem]

omit [DecidableEq K] [Inhabited K] [Inhabited P] in
theorem place_eq_self (h : σ.pcs t = pc) : σ.place t σ.cache pc = σ := by
  unfold place
  rw [← h, Function.update_eq_self]

end Place

/-- The state after the sweep of a thread. -/
def afterSweep (σ : SlotSys N B K P T) (t : T) (job : Job K P) (c : SlotCache N B K P T) :
    Except SweepError (Fin N) → SlotSys N B K P T
  | .ok s =>
    ⟨c, Function.update σ.clockHand t (slotAt s 1), σ.locks, Function.update σ.pcs t (.ready job s)⟩
  | .error .evictionSweepExhausted => σ.place t c .exhausted

/-- A run in which only one thread takes its sections. -/
def RunsAlone (isChunk : Bool) (bucketOf : K → Fin B) (t : T) :
    SlotSys N B K P T → SlotSys N B K P T → Prop :=
  Reaches (step isChunk bucketOf) fun σ l => σ.Undisturbed isChunk l ∧ ∃ answer, l = .run t answer

variable {isChunk : Bool} {bucketOf : K → Fin B} {σ σ₀ σ₁ : SlotSys N B K P T} {t : T}
  {c c' : SlotCache N B K P T} {pc : Pc N K P} {job : Job K P} {start s : Fin N} {i : ℕ}

omit [DecidableEq K] [Inhabited K] [Inhabited P] [DecidableEq T] in
theorem undisturbed_of_drops {answer : Answer P} (h : (σ.pcs t).drops = none) :
    σ.Undisturbed isChunk (.run t answer) := by
  intro _ s tag hpc
  rw [hpc] at h
  cases h

theorem RunsAlone.section (h : RunsAlone isChunk bucketOf t σ₀ (σ.place t c pc)) (answer : Answer P)
    (hs : (σ.place t c pc).operate isChunk bucketOf t answer pc = some σ₁)
    (hdrops : pc.drops = none := by rfl) : RunsAlone isChunk bucketOf t σ₀ σ₁ := by
  refine Reaches.tail h ⟨undisturbed_of_drops ?_, answer, rfl⟩ ?_
  · rw [place_pcs]
    exact hdrops
  change (σ.place t c pc).operate isChunk bucketOf t answer ((σ.place t c pc).pcs t) = some σ₁
  rw [place_pcs]
  exact hs

/-- A round that leaves its slot. -/
theorem RunsAlone.leave (answer : Answer P)
    (h : RunsAlone isChunk bucketOf t σ₀ (σ.place t c (.abort job start i))) :
    RunsAlone isChunk bucketOf t σ₀ (σ.place t ((c.modify (slotAt start i) Slot.touch).modify
      (slotAt start i) fun e => e.unpin t) (.sweep job start (i + 1))) := by
  have hdrop := h.section answer (congrArg some (place_put ..))
  exact hdrop.section answer (congrArg some (place_put ..))

/-- What a section meets that only flushes. -/
def flushAnswer (ok : Bool) : Answer P := ⟨ok, default, false⟩

/-- **One round of the sweep.** -/
theorem RunsAlone.round (hfree : ∀ b, σ.locks b = none) (hi : i < N * maxUsageCount) {ok found : Bool}
    (h : RunsAlone isChunk bucketOf t σ₀ (σ.place t c (.sweep job start i)))
    (hround : c.evictRound bucketOf t ok (slotAt start i) = some (found, c')) :
    RunsAlone isChunk bucketOf t σ₀ (if found then σ.afterSweep t job c' (.ok (slotAt start i))
      else σ.place t c' (.sweep job start (i + 1))) := by
  unfold evictRound at hround
  by_cases hpinned : (c.slots (slotAt start i)).pinCount ≠ 0
  · rw [if_pos hpinned] at hround
    cases hround
    refine h.section (flushAnswer ok) ?_
    simp only [operate, place_cache, place_goto, if_pos hi, if_pos hpinned]
    rfl
  rw [if_neg hpinned] at hround
  have hage : RunsAlone isChunk bucketOf t σ₀ (σ.place t c (.age job start i)) := by
    refine h.section (flushAnswer ok) ?_
    simp only [operate, place_cache, place_goto, if_pos hi, if_neg hpinned]
  dsimp only at hround
  by_cases hused : (c.slots (slotAt start i)).untouch.1 ≠ 0
  · rw [if_pos hused] at hround
    cases hround
    refine hage.section (flushAnswer ok) ?_
    simp only [operate, place_cache, place_put, if_pos hused]
    rfl
  rw [if_neg hused] at hround
  have hread : RunsAlone isChunk bucketOf t σ₀
      (σ.place t (c.modify (slotAt start i) fun e => e.untouch.2) (.readTag job start i)) := by
    refine hage.section (flushAnswer ok) ?_
    simp only [operate, place_cache, place_put, if_neg hused]
  generalize c.modify (slotAt start i) (fun e => e.untouch.2) = c₁ at hround hread
  have hclaim := hread.section (flushAnswer ok) (congrArg some (place_goto ..))
  cases hc₂ : c₁.claim (slotAt start i) (c₁.slots (slotAt start i)).tag t with
  | none =>
    rw [hc₂] at hround
    cases hround
    refine hclaim.section (flushAnswer ok) ?_
    simp only [operate, place_cache, place_locks, hfree, hc₂, place_goto]
    rfl
  | some c₂ =>
    rw [hc₂] at hround
    have hflush : RunsAlone isChunk bucketOf t σ₀
        (σ.place t c₂ (.flush job start i (c₁.slots (slotAt start i)).tag)) := by
      refine hclaim.section (flushAnswer ok) ?_
      simp only [operate, place_cache, place_locks, hfree, hc₂, place_put]
      rfl
    dsimp only at hround
    rcases hc₃ : c₂.flushVictim (slotAt start i) ok with ⟨flushed, c₃⟩
    rw [hc₃] at hround
    have hflushed : (σ.place t c₂ (.flush job start i (c₁.slots (slotAt start i)).tag)).operate isChunk
        bucketOf t (flushAnswer ok) (.flush job start i (c₁.slots (slotAt start i)).tag) =
          some (σ.place t c₃ (if flushed then .verify job start i (c₁.slots (slotAt start i)).tag
            else .abort job start i)) := by
      dsimp only [operate, place_cache, flushAnswer]
      rw [hc₃]
      cases flushed <;> exact congrArg some (place_put ..)
    cases flushed with
    | false =>
      cases hround
      exact (hflush.section _ hflushed).leave (flushAnswer ok)
    | true =>
      have hverify := hflush.section _ hflushed
      dsimp only at hround
      rw [if_pos rfl] at hverify
      cases hunlink : c₃.verify (slotAt start i) (bucketOf (c₁.slots (slotAt start i)).tag) with
      | none =>
        rw [hunlink] at hround
        cases hround
      | some unlinked =>
        rw [hunlink] at hround
        cases unlinked with
        | none =>
          cases hround
          have habort : RunsAlone isChunk bucketOf t σ₀ (σ.place t c₃ (.abort job start i)) := by
            refine hverify.section (flushAnswer ok) ?_
            simp only [operate, place_cache, place_locks, hfree, place_goto, hunlink, Option.map_some]
            rfl
          exact habort.leave (flushAnswer ok)
        | some c₄ =>
          cases hround
          have hclear : RunsAlone isChunk bucketOf t σ₀
              (σ.place t c₄ (.clear job (slotAt start i))) := by
            refine hverify.section (flushAnswer ok) ?_
            simp only [operate, place_cache, place_locks, hfree, place_put, hunlink, Option.map_some]
            rfl
          refine hclear.section (flushAnswer ok) ?_
          simp only [operate, place_cache, place_put]
          rfl

/-- **`evictAndPin` is what the sections of a thread do that runs alone.** -/
theorem RunsAlone.loop (hfree : ∀ b, σ.locks b = none) {flushOk : ℕ → Bool} {rounds : ℕ}
    (hrounds : i + rounds = N * maxUsageCount) {result : Except SweepError (Fin N)}
    (h : RunsAlone isChunk bucketOf t σ₀ (σ.place t c (.sweep job start i)))
    (hloop : evictLoop bucketOf t flushOk start rounds i c = some (result, c')) :
    RunsAlone isChunk bucketOf t σ₀ (σ.afterSweep t job c' result) := by
  induction rounds generalizing i c with
  | zero =>
    cases hloop
    refine h.section (flushAnswer true) ?_
    simp only [operate, place_goto, if_neg (show ¬ i < N * maxUsageCount by omega)]
    rfl
  | succ rounds ih =>
    unfold evictLoop at hloop
    cases hround : c.evictRound bucketOf t (flushOk i) (slotAt start i) with
    | none =>
      rw [hround] at hloop
      cases hloop
    | some found =>
      rw [hround] at hloop
      obtain ⟨found, c₁⟩ := found
      have hnext := h.round hfree (by omega) hround
      cases found with
      | true =>
        cases hloop
        exact hnext
      | false => exact ih (by omega) hnext hloop

theorem evictAndPin_alone (hfree : ∀ b, σ.locks b = none) {flushOk : ℕ → Bool}
    {result : Except SweepError (Fin N)} (hpc : σ.pcs t = .sweep job start 0)
    (hevict : σ.cache.evictAndPin bucketOf t flushOk start = some (result, c')) :
    RunsAlone isChunk bucketOf t σ (σ.afterSweep t job c' result) := by
  have hstart : RunsAlone isChunk bucketOf t σ (σ.place t σ.cache (.sweep job start 0)) := by
    rw [place_eq_self σ t _ hpc]
    exact .refl
  exact hstart.loop hfree (Nat.zero_add _) hevict

/-! ## Inserts and hits -/

section Runs

variable [NeZero N]

theorem Reachable.tail (h : σ.Reachable isChunk bucketOf) {l : Label N K P T} (hok : σ.Undisturbed isChunk l)
    (hs : σ.step isChunk bucketOf l = some σ₁) : σ₁.Reachable isChunk bucketOf :=
  Reaches.tail h hok hs

/-- One section of a thread. -/
theorem Reachable.section (h : (σ.place t c pc).Reachable isChunk bucketOf) (answer : Answer P)
    (hs : (σ.place t c pc).operate isChunk bucketOf t answer pc = some σ₁)
    (hdrops : pc.drops = none := by rfl) : σ₁.Reachable isChunk bucketOf := by
  refine h.tail (undisturbed_of_drops ?_) (l := .run t answer) ?_
  · rw [place_pcs]
    exact hdrops
  · dsimp only [step]
    rw [place_pcs]
    exact hs

/-- An idle thread makes a call and looks its tag up. -/
theorem Reachable.lookup (h : σ.Reachable isChunk bucketOf) (hfree : ∀ b, σ.locks b = none)
    (hidle : σ.pcs t = .idle) (tag : K) {found : Option (Fin N)}
    (hfound : σ.cache.findTag bucketOf tag = some found) :
    (match found with
      | some s => σ.place t (σ.cache.modify s fun e => e.pin t) (.hit s tag)
      | none => σ.place t σ.cache (.missed tag)).Reachable isChunk bucketOf := by
  have hcall : (σ.place t σ.cache (.lookup tag)).Reachable isChunk bucketOf := by
    refine h.tail trivial (l := .call t tag) ?_
    dsimp only [step]
    rw [hidle]
    rfl
  apply hcall.section (flushAnswer true)
  cases found with
  | none =>
    simp only [operate, place_cache, place_locks, hfree, place_goto, hfound, Option.map_some]
    rfl
  | some s =>
    simp only [operate, place_cache, place_locks, hfree, place_put, hfound, Option.map_some]
    rfl

omit [DecidableEq K] [Inhabited K] [Inhabited P] [NeZero N] in
theorem touch_pinned {e : Slot N K P T} (h : t ∉ e.pins) : (e.pin t).touch.unpin t = e.touch := by
  have hpins : (insert t e.pins).erase t = e.pins := Finset.erase_insert h
  unfold Slot.touch Slot.unpin Slot.pin
  split_ifs
  · dsimp only
    rw [hpins]
  · dsimp only
    rw [hpins]

/-- **A hit touches the slot.** -/
theorem Reachable.hit (h : σ.Reachable isChunk bucketOf) (hfree : ∀ b, σ.locks b = none)
    (hidle : σ.pcs t = .idle)
    (hmember : σ.cache.chains.Member s)
    (hunique : ∀ x, (σ.cache.slots x).tag = (σ.cache.slots s).tag → x = s) :
    (σ.place t (σ.cache.modify s Slot.touch) .idle).Reachable isChunk bucketOf := by
  have hinv := inv_of_reachable h
  have hfound := findTag_member hinv.sorted hmember hunique
  have hunpinned : t ∉ (σ.cache.slots s).pins := by
    rw [hinv.pins, hidle]
    exact nofun
  have hcache : ((σ.cache.modify s fun e => e.pin t).modify s Slot.touch).modify s
      (fun e => e.unpin t) = σ.cache.modify s Slot.touch := by
    rw [modify_modify, modify_modify]
    exact modify_congr (touch_pinned hunpinned)
  have hhit := h.lookup hfree hidle _ hfound
  have htouching := hhit.section (flushAnswer true) (congrArg some (place_goto ..))
  have hunpin := htouching.section (flushAnswer true) (congrArg some (place_put ..))
  have hdone := hunpin.section (flushAnswer true) (congrArg some (place_put ..))
  rw [place_cache, place_cache, hcache] at hdone
  exact hdone

omit [DecidableEq K] [Inhabited K] [Inhabited P] [DecidableEq T] [NeZero N] in
theorem touch_usageCount_congr {e e' : Slot N K P T} (h : e.usageCount = e'.usageCount) :
    e.touch.usageCount = e'.touch.usageCount := by
  unfold Slot.touch
  by_cases hlt : e.usageCount < maxUsageCount
  · rw [if_pos hlt, if_pos (h ▸ hlt), h]
  · rw [if_neg hlt, if_neg (h ▸ hlt), h]

/-- A sweep that returns a slot. -/
theorem Reachable.evict (h : (σ.place t c (.sweep job start 0)).Reachable isChunk bucketOf)
    (hfree : ∀ b, σ.locks b = none)
    (hevict : c.evictAndPin bucketOf t (fun _ => true) start = some (.ok s, c')) :
    ((⟨σ.cache, Function.update σ.clockHand t (slotAt s 1), σ.locks, σ.pcs⟩ : SlotSys N B K P T).place t c'
      (.ready job s)).Reachable isChunk bucketOf := by
  have halone : RunsAlone isChunk bucketOf t (σ.place t c (.sweep job start 0))
      ((σ.place t c (.sweep job start 0)).afterSweep t job c' (.ok s)) :=
    evictAndPin_alone (show ∀ b, (σ.place t c (.sweep job start 0)).locks b = none from hfree)
      (place_pcs ..) hevict
  have hready := h.trans (halone.mono fun _ _ hok => hok.1)
  unfold afterSweep place at hready
  dsimp only at hready
  rw [Function.update_idem] at hready
  exact hready

/-- The insert into a slot that a sweep has returned. -/
theorem Reachable.link (h : (σ.place t c (.ready job s)).Reachable isChunk bucketOf)
    (hfree : ∀ b, σ.locks b = none) (hmiss : ∀ x, (c.slots x).tag ≠ job.tag) :
    ∃ c', (σ.place t c' .idle).Reachable isChunk bucketOf ∧ c'.chains.Member s ∧
      (c'.slots s).tag = job.tag ∧ (c'.slots s).usageCount = (c.slots s).touch.usageCount ∧
      ∀ x, x ≠ s → c'.slots x = c.slots x := by
  -- the cache after the file is written
  obtain ⟨c₀, hlink, hsame₀, husage₀, hother₀⟩ : ∃ c₀ : SlotCache N B K P T,
      (σ.place t c₀ (.link job s)).Reachable isChunk bucketOf ∧ Same c c₀ ∧
        (c₀.slots s).usageCount = (c.slots s).usageCount ∧ ∀ x, x ≠ s → c₀.slots x = c.slots x := by
    have hready : ∀ σ₁, (σ.place t c (.ready job s)).operate isChunk bucketOf t (flushAnswer true)
        (.ready job s) = some σ₁ → σ₁.Reachable isChunk bucketOf := fun σ₁ => h.section (flushAnswer true)
    cases isChunk with
    | true =>
      refine ⟨c.modify s fun e => { e with data := job.data }, hready _ ?_, .modify _ _ rfl rfl, ?_,
        fun x hx => modify_slots_of_ne _ _ hx⟩
      · exact congrArg some (place_put ..)
      · rw [modify_slots_self]
    | false => exact ⟨c, hready _ (congrArg some (place_goto ..)), .refl c, rfl, fun _ _ => rfl⟩
  have hinv := inv_of_reachable hlink
  have hsorted : c₀.chains.Sorted (bucketAt bucketOf c₀) := hinv.sorted
  obtain ⟨c₁, hc₁⟩ : ∃ c₁, c₀.link bucketOf s job = some (some c₁) := by
    unfold SlotCache.link
    rw [findTag_none hsorted fun x => by rw [hsame₀.tag]; exact hmiss x]
    exact ⟨_, rfl⟩
  have howned : ¬ c₀.chains.Member s := (hinv.owned t s (by rw [place_pcs]; rfl)).1
  obtain ⟨-, hmember, -, hother, hslot⟩ := link_spec hsorted howned hc₁
  have hunpin : (σ.place t c₁ (.unpin s)).Reachable isChunk bucketOf := by
    apply hlink.section (flushAnswer true)
    simp only [operate, place_cache, place_locks, hfree, place_put, hc₁, Option.map_some]
    rfl
  have hsame : Same c₁ (c₁.modify s fun e => e.unpin t) := .modify _ _ rfl rfl
  refine ⟨_, hunpin.section (flushAnswer true) (congrArg some (place_put ..)), ?_, ?_, ?_, ?_⟩
  · rw [place_cache, hsame.chains]
    exact (hmember s).mpr (Or.inr rfl)
  · rw [place_cache, hsame.tag, hslot]
    exact Slot.touch_tag _
  · rw [place_cache, modify_slots_self]
    change (c₁.slots s).usageCount = _
    rw [hslot]
    exact touch_usageCount_congr husage₀
  · intro x hx
    rw [place_cache, modify_slots_of_ne _ _ hx, hother x hx, hother₀ x hx]

/-- **A miss takes the slot at the clock hand, if it can be taken.** -/
theorem Reachable.insert (h : σ.Reachable isChunk bucketOf) (hfree : ∀ b, σ.locks b = none)
    (hidle : σ.pcs t = .idle) (hclock : σ.clockHand t = s) {tag : K} (hmiss : ∀ x, (σ.cache.slots x).tag ≠ tag)
    (hnew : tag ≠ default) (hvictim : (σ.cache.slots s).Victim) :
    ∃ σ' : SlotSys N B K P T, σ'.Reachable isChunk bucketOf ∧ (∀ b, σ'.locks b = none) ∧
      σ'.pcs t = .idle ∧ σ'.clockHand t = slotAt s 1 ∧ σ'.cache.chains.Member s ∧
      (σ'.cache.slots s).tag = tag ∧ (σ'.cache.slots s).usageCount = 1 ∧
      ∀ x, x ≠ s → (σ'.cache.slots x).tag = (σ.cache.slots x).tag ∧
        (σ'.cache.slots x).usageCount = (σ.cache.slots x).usageCount ∧
        (σ'.cache.slots x).dirty = (σ.cache.slots x).dirty := by
  have hinv := inv_of_reachable h
  have hmissed := h.lookup hfree hidle tag (findTag_none hinv.sorted hmiss)
  have hsweep := hmissed.section (flushAnswer true) (congrArg some (place_goto ..))
  -- the first round takes the slot
  obtain ⟨c', hround, hevicted, hkept⟩ := evictRound_victim (t := t) hinv.sorted hvictim
  have hfirst : slotAt s 0 = s := Fin.ext (Nat.mod_eq_of_lt s.isLt)
  have hevict : σ.cache.evictAndPin bucketOf t (fun _ => true) (σ.clockHand t) = some (.ok s, c') := by
    obtain ⟨rounds, hrounds⟩ : ∃ k, N * maxUsageCount = k + 1 :=
      Nat.exists_eq_succ_of_ne_zero (Nat.mul_ne_zero (NeZero.ne N) (by decide))
    unfold evictAndPin
    rw [hrounds, evictLoop, hclock, hfirst, hround]
  have hready := Reachable.evict hsweep hfree hevict
  obtain ⟨c'', hdone, hmember, htag, husage, hother⟩ := hready.link hfree (by
    intro x
    by_cases hx : x = s
    · subst hx
      rw [hevicted.cleared]
      exact hnew.symm
    · rw [hkept x hx]
      exact hmiss x)
  refine ⟨_, hdone, hfree, place_pcs .., Function.update_self .., hmember, htag, ?_, ?_⟩
  · rw [place_cache, husage, hevicted.cleared]
    rfl
  · intro x hx
    rw [place_cache, hother x hx, hkept x hx]
    exact ⟨rfl, rfl, rfl⟩

omit [DecidableEq K] [Inhabited K] [Inhabited P] [DecidableEq T] [NeZero N] in
theorem touch_usageCount {e : Slot N K P T} (h : e.usageCount ≤ maxUsageCount) :
    e.touch.usageCount = min (e.usageCount + 1) maxUsageCount := by
  unfold Slot.touch
  split_ifs with hlt
  · exact (min_eq_left hlt).symm
  · omega

omit [DecidableEq K] [Inhabited K] [Inhabited P] [DecidableEq T] [NeZero N] in
theorem touch_iterate (e : Slot N K P T) (n : ℕ) : (Slot.touch^[n] e).next = e.next ∧
    (Slot.touch^[n] e).tag = e.tag ∧
    (e.usageCount ≤ maxUsageCount →
      (Slot.touch^[n] e).usageCount = min (e.usageCount + n) maxUsageCount) := by
  induction n with
  | zero => exact ⟨rfl, rfl, fun h => (min_eq_left h).symm⟩
  | succ n ih =>
    obtain ⟨hnext, htag, husage⟩ := ih
    rw [Function.iterate_succ_apply', Slot.touch_next, Slot.touch_tag]
    refine ⟨hnext, htag, fun h => ?_⟩
    have hn := husage h
    rw [touch_usageCount (hn ▸ min_le_right _ _), hn]
    omega

/-- A number of hits. -/
theorem Reachable.hits (h : σ.Reachable isChunk bucketOf) (hfree : ∀ b, σ.locks b = none)
    (hidle : σ.pcs t = .idle)
    (hmember : σ.cache.chains.Member s)
    (hunique : ∀ x, (σ.cache.slots x).tag = (σ.cache.slots s).tag → x = s) (n : ℕ) :
    (σ.place t (σ.cache.modify s fun e => Slot.touch^[n] e) .idle).Reachable isChunk bucketOf := by
  induction n with
  | zero =>
    rw [modify_eq_self rfl, place_eq_self σ t _ hidle]
    exact h
  | succ n ih =>
    have hsame : Same σ.cache (σ.cache.modify s fun e => Slot.touch^[n] e) :=
      .modify _ _ (touch_iterate _ n).1 (touch_iterate _ n).2.1
    have hnext := ih.hit hfree (place_pcs ..) (s := s) (by
      rw [place_cache, hsame.chains]
      exact hmember) (by
      intro x hx
      rw [place_cache, hsame.tag, hsame.tag] at hx
      exact hunique x hx)
    rw [place_cache, modify_modify, place_place] at hnext
    simp only [Function.iterate_succ_apply']
    exact hnext

/-! ## Full caches -/

/-- The cache of one thread that has read the first `k` tags, each of them five times. -/
structure Filled (tagOf : ℕ → K) (k : ℕ) (σ : SlotSys N B K P Unit) : Prop where
  idle : σ.pcs () = .idle
  unlocked : ∀ b, σ.locks b = none
  clockHand : (σ.clockHand () : ℕ) = k % N
  full : ∀ s : Fin N, (s : ℕ) < k →
    (σ.cache.slots s).tag = tagOf s ∧ (σ.cache.slots s).usageCount = maxUsageCount
  free : ∀ s : Fin N, k ≤ s → (σ.cache.slots s).tag = default ∧
    (σ.cache.slots s).usageCount = 0 ∧ (σ.cache.slots s).dirty = false

omit [DecidableEq K] [Inhabited P] [NeZero N] in
theorem Filled.unpinned {tagOf : ℕ → K} {k : ℕ} {σ : SlotSys N B K P Unit} (h : Filled tagOf k σ)
    (hinv : Inv bucketOf σ) (s : Fin N) : (σ.cache.slots s).pinCount = 0 := by
  apply Finset.card_eq_zero.mpr
  apply Finset.eq_empty_of_forall_notMem
  intro t ht
  rw [hinv.pins, h.idle] at ht
  cases ht

/-- **A cache is filled by reads.** -/
theorem exists_filled {tagOf : ℕ → K} (hnew : ∀ i, i < N → tagOf i ≠ default)
    (hdistinct : ∀ i j, i < N → j < N → tagOf i = tagOf j → i = j) {k : ℕ} (hk : k ≤ N) :
    ∃ σ : SlotSys N B K P Unit, σ.Reachable isChunk bucketOf ∧ Filled tagOf k σ := by
  induction k with
  | zero =>
    refine ⟨init, .refl, rfl, fun _ => rfl, ?_, nofun, fun s _ => ⟨rfl, rfl, rfl⟩⟩
    rw [Nat.zero_mod]
    rfl
  | succ k ih =>
    obtain ⟨σ, hσ, hfilled⟩ := ih (by omega)
    let s : Fin N := ⟨k, hk⟩
    have hclock : σ.clockHand () = s := Fin.ext (hfilled.clockHand.trans (Nat.mod_eq_of_lt hk))
    have htags : ∀ x, (σ.cache.slots x).tag ≠ tagOf k := by
      intro x hx
      by_cases hlt : (x : ℕ) < k
      · rw [(hfilled.full x hlt).1] at hx
        have heq := hdistinct x k x.isLt hk hx
        omega
      · rw [(hfilled.free x (by omega)).1] at hx
        exact hnew k hk hx.symm
    obtain ⟨-, hzero, hclean⟩ := hfilled.free s le_rfl
    have hvictim : (σ.cache.slots s).Victim := by
      refine ⟨hfilled.unpinned (inv_of_reachable hσ) s, hzero, ?_⟩
      rw [hclean]
      exact nofun
    -- a miss takes the slot, and four hits bring it to the largest usage count
    obtain ⟨σ', hσ', hunlocked, hidle, hclock', hmember, htag, husage, hother⟩ :=
      hσ.insert hfilled.unlocked hfilled.idle hclock htags (hnew k hk) hvictim
    have hunique : ∀ x, (σ'.cache.slots x).tag = (σ'.cache.slots s).tag → x = s := by
      intro x hx
      by_contra hne
      rw [(hother x hne).1, htag] at hx
      exact htags x hx
    refine ⟨_, hσ'.hits hunlocked hidle hmember hunique 4, place_pcs .., hunlocked, ?_, ?_, ?_⟩
    · change (σ'.clockHand () : ℕ) = _
      rw [hclock']
      rfl
    · intro x hx
      rw [place_cache]
      by_cases hxs : x = s
      · subst hxs
        obtain ⟨-, htag', husage'⟩ := touch_iterate (σ'.cache.slots s) 4
        rw [modify_slots_self, htag', htag, husage' (by rw [husage]; decide), husage]
        exact ⟨rfl, rfl⟩
      · have hlt : (x : ℕ) < k := by
          have hne : (x : ℕ) ≠ k := fun heq => hxs (Fin.ext heq)
          omega
        rw [modify_slots_of_ne _ _ hxs, (hother x hxs).1, (hother x hxs).2.1]
        exact hfilled.full x hlt
    · intro x hx
      have hxs : x ≠ s := by
        rintro rfl
        exact absurd hx (Nat.not_succ_le_self k)
      rw [place_cache, modify_slots_of_ne _ _ hxs, (hother x hxs).1, (hother x hxs).2.1,
        (hother x hxs).2.2]
      exact hfilled.free x (by omega)

/-- **A miss on a full cache finds no victim.** -/
theorem Filled.exhausted {tagOf : ℕ → K} {σ : SlotSys N B K P Unit} (h : Filled tagOf N σ)
    (hσ : σ.Reachable isChunk bucketOf) : ∃ c', σ.cache.evictAndPin bucketOf () (fun _ => true)
      (σ.clockHand ()) = some (.error .evictionSweepExhausted, c') := by
  apply (evictAndPin_spec () (σ.clockHand ()) (inv_of_reachable hσ).sorted).2
  rintro ⟨s, -, hlt, -⟩
  rw [(h.full s s.isLt).2] at hlt
  exact lt_irrefl _ hlt

end Runs

/-! ## The two caches -/

/-- The runs of the meta cache need no condition. -/
theorem reachable_of_meta {σ : MetaCacheSys T}
    (h : Reaches (step false RelFork.bucket) (fun _ _ => True) init σ) :
    σ.Reachable false RelFork.bucket := by
  apply h.mono
  intro _ l _
  cases l with
  | run t answer => exact nofun
  | _ => trivial

/-- **When the sweep of a miss finds a victim**: in every state of the chunk cache that is reached with
undisturbed truncations, and in every state of the meta cache, exactly if there is a slot that it can
take. -/
theorem evict_iff (P T : Type) [Inhabited P] [DecidableEq T] :
    (∀ (σ : ChunkCacheSys P T) (t : T),
      Reaches (step true ChunkTag.bucket) (Undisturbed true) init σ →
        (EvictsVictim ChunkTag.bucket t (σ.clockHand t) σ.cache ↔
          ∃ s, (σ.cache.slots s).Evictable)) ∧
    ∀ (σ : MetaCacheSys T) (t : T),
      Reaches (step false RelFork.bucket) (fun _ _ => True) init σ →
        (EvictsVictim RelFork.bucket t (σ.clockHand t) σ.cache ↔
          ∃ s, (σ.cache.slots s).Evictable) :=
  ⟨fun _ t h => evictsVictim_iff h t, fun _ t h => evictsVictim_iff (reachable_of_meta h) t⟩

/-- The main fork of a relation. -/
def relforkAt (i : ℕ) : RelFork := ⟨1663, 5, UInt32.ofNat (16384 + i), 0⟩

/-- Two threads write entries 0 and 1; the first comes back to its entry five times, and the second is in
the middle of a hit. -/
def hotAndPinned (K P : Type) (tagOf : ℕ → K) (data : P) : List (Label cacheNumSlots K P (Fin 3)) :=
  let p : Fin 3 := ⟨0, by decide⟩
  let q : Fin 3 := ⟨1, by decide⟩
  .call p (tagOf 0) :: List.replicate 12 (.run p ⟨true, data, true⟩) ++
    .call q (tagOf 1) :: List.replicate 14 (.run q ⟨true, data, true⟩) ++
    (List.replicate 5 (.call p (tagOf 0) :: List.replicate 4 (.run p ⟨true, data, true⟩))).flatten ++
    [.call q (tagOf 1), .run q ⟨true, data, true⟩]

/-- What a sweep meets at the first three slots: the dirty flag, the usage count and the pins. -/
def firstSlots {K P : Type} (σ : SlotSys cacheNumSlots cacheNumBuckets K P (Fin 3)) :
    List (Bool × ℕ × ℕ) :=
  [0, 1, 2].map fun s => let e := σ.cache.slots s
    (e.dirty, e.usageCount, e.pinCount)

theorem evictable_of_firstSlots {K P : Type} [DecidableEq K] [Inhabited K]
    {σ : SlotSys cacheNumSlots cacheNumBuckets K P (Fin 3)} {x y : Bool × ℕ × ℕ}
    (h : firstSlots σ = [x, y, (false, 0, 0)]) : (σ.cache.slots 2).Evictable := by
  simp only [firstSlots, List.map_cons, List.map_nil, List.cons.injEq, Prod.mk.injEq] at h
  obtain ⟨-, -, ⟨hclean, husage, hpins⟩, -⟩ := h
  refine ⟨hpins, by rw [husage]; decide, fun hdirty => ?_⟩
  rw [hclean] at hdirty
  cases hdirty

theorem evict_iff_hotAndPinned :
    (∃ σ : ChunkCacheSys Bool (Fin 3),
      run (step true ChunkTag.bucket) init (hotAndPinned ChunkTag Bool chunkAt true) = some σ ∧
        firstSlots σ = [(true, maxUsageCount, 0), (true, 1, 1), (false, 0, 0)] ∧
        EvictsVictim ChunkTag.bucket 2 (σ.clockHand 2) σ.cache) ∧
    ∃ σ : MetaCacheSys (Fin 3),
      run (step false RelFork.bucket) init (hotAndPinned RelFork RelForkMeta relforkAt ⟨7, false⟩) = some σ ∧
        firstSlots σ = [(true, maxUsageCount, 0), (true, 1, 1), (false, 0, 0)] ∧
        EvictsVictim RelFork.bucket 2 (σ.clockHand 2) σ.cache := by
  have hchunk : (run (step true ChunkTag.bucket) (init : ChunkCacheSys Bool (Fin 3))
      (hotAndPinned ChunkTag Bool chunkAt true)).map firstSlots =
        some [(true, maxUsageCount, 0), (true, 1, 1), (false, 0, 0)] := by decide +kernel
  have hmeta : (run (step false RelFork.bucket) (init : MetaCacheSys (Fin 3))
      (hotAndPinned RelFork RelForkMeta relforkAt ⟨7, false⟩)).map firstSlots =
        some [(true, maxUsageCount, 0), (true, 1, 1), (false, 0, 0)] := by decide +kernel
  have hok : Throughout (step true ChunkTag.bucket) TruncatesOwn (init : ChunkCacheSys Bool (Fin 3))
      (hotAndPinned ChunkTag Bool chunkAt true) := by decide +kernel
  obtain ⟨σ, hσ, hfirst⟩ := Option.map_eq_some_iff.mp hchunk
  obtain ⟨τ, hτ, hfirst'⟩ := Option.map_eq_some_iff.mp hmeta
  refine ⟨⟨σ, hσ, hfirst, ?_⟩, τ, hτ, hfirst', ?_⟩
  · exact ((evict_iff Bool (Fin 3)).1 σ 2 ((reaches_of_run hσ hok).mono fun _ _ h => h.undisturbed)).mpr
      ⟨2, evictable_of_firstSlots hfirst⟩
  · exact ((evict_iff Bool (Fin 3)).2 τ 2 (reaches_of_run hτ (throughout_true _ _))).mpr
      ⟨2, evictable_of_firstSlots hfirst'⟩

theorem chunkAt_ne_default (i : ℕ) : chunkAt i ≠ default := by
  intro h
  exact absurd (congrArg ChunkTag.spcOid h) (show (1663 : UInt32) ≠ 0 by decide)

theorem relforkAt_ne_default (i : ℕ) : relforkAt i ≠ default := by
  intro h
  exact absurd (congrArg RelFork.spcOid h) (show (1663 : UInt32) ≠ 0 by decide)

theorem ofNat_injOn {i j : ℕ} (hi : i < 2 ^ 32) (hj : j < 2 ^ 32)
    (h : UInt32.ofNat i = UInt32.ofNat j) : i = j := by
  have hnat := congrArg UInt32.toNat h
  rw [UInt32.toNat_ofNat', UInt32.toNat_ofNat', Nat.mod_eq_of_lt hi, Nat.mod_eq_of_lt hj] at hnat
  exact hnat

theorem chunkAt_injOn (i j : ℕ) (hi : i < cacheNumSlots) (hj : j < cacheNumSlots)
    (h : chunkAt i = chunkAt j) : i = j := by
  unfold cacheNumSlots at hi hj
  exact ofNat_injOn (by omega) (by omega) (congrArg ChunkTag.chunkId h)

theorem relforkAt_injOn (i j : ℕ) (hi : i < cacheNumSlots) (hj : j < cacheNumSlots)
    (h : relforkAt i = relforkAt j) : i = j := by
  unfold cacheNumSlots at hi hj
  have hnat := ofNat_injOn (by omega) (by omega) (congrArg RelFork.relNumber h)
  omega

/-- **A full cache of hot entries**: every slot is unpinned, and the sweep finds no victim. -/
theorem fullCache_exhausted :
    (∃ σ : ChunkCacheSys Unit Unit, σ.Reachable true ChunkTag.bucket ∧ σ.pcs () = .idle ∧
      (∀ s, (σ.cache.slots s).tag = chunkAt s ∧ (σ.cache.slots s).usageCount = 5 ∧
        (σ.cache.slots s).pinCount = 0) ∧
      ∃ c', σ.cache.evictAndPin ChunkTag.bucket () (fun _ => true) (σ.clockHand ()) =
        some (.error .evictionSweepExhausted, c')) ∧
    ∃ σ : MetaCacheSys Unit, σ.Reachable false RelFork.bucket ∧ σ.pcs () = .idle ∧
      (∀ s, (σ.cache.slots s).tag = relforkAt s ∧ (σ.cache.slots s).usageCount = 5 ∧
        (σ.cache.slots s).pinCount = 0) ∧
      ∃ c', σ.cache.evictAndPin RelFork.bucket () (fun _ => true) (σ.clockHand ()) =
        some (.error .evictionSweepExhausted, c') := by
  constructor
  · obtain ⟨σ, hσ, hfilled⟩ : ∃ σ : ChunkCacheSys Unit Unit, σ.Reachable true ChunkTag.bucket ∧
        Filled chunkAt cacheNumSlots σ :=
      exists_filled (fun i _ => chunkAt_ne_default i) chunkAt_injOn le_rfl
    exact ⟨σ, hσ, hfilled.idle, fun s => ⟨(hfilled.full s s.isLt).1, (hfilled.full s s.isLt).2,
      hfilled.unpinned (inv_of_reachable hσ) s⟩, hfilled.exhausted hσ⟩
  · obtain ⟨σ, hσ, hfilled⟩ : ∃ σ : MetaCacheSys Unit, σ.Reachable false RelFork.bucket ∧
        Filled relforkAt cacheNumSlots σ :=
      exists_filled (fun i _ => relforkAt_ne_default i) relforkAt_injOn le_rfl
    exact ⟨σ, hσ, hfilled.idle, fun s => ⟨(hfilled.full s s.isLt).1, (hfilled.full s s.isLt).2,
      hfilled.unpinned (inv_of_reachable hσ) s⟩, hfilled.exhausted hσ⟩

end SlotSys

end Tiko

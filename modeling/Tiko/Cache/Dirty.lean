import Tiko.Cache.Chains

/-!
# Chains and dirty data

`truncate_relfork` takes a slot out of its chain under the bucket lock, then waits for the `io_lock` of
the slot. By then a thread that has evicted the slot before may have inserted it for another tag, under
another bucket lock, and the truncation clears a slot in use.

* `SlotSys.patched`: the call of `Store::patch_chunk` that succeeds in a step;
* `KeepsDirty`: what may happen to the data of a dirty slot;

**`tidy_and_keepsDirty`**: as long as truncations are undisturbed, the chains are in order and dirty data
leave the cache only by a flush or by the truncation of their own chunk.

**`truncation_clears_another`**: a truncation that is disturbed.
-/

namespace Tiko

open Lib SlotCache

namespace SlotCache.Slot

variable {N : ℕ} {K P T : Type} {e : Slot N K P T}

/-- The call of `Store::patch_chunk` that succeeds in a flush of the slot. -/
def patched (e : Slot N K P T) (ok : Bool) : Option (K × P) :=
  if e.dirty && ok then some (e.tag, e.data) else none

/-- What a slot has for its tag. -/
def contents (e : Slot N K P T) : Bool × K × P := (e.dirty, e.tag, e.data)

@[simp] theorem touch_contents : e.touch.contents = e.contents := by unfold touch; split_ifs <;> rfl

@[simp] theorem untouch_contents : e.untouch.2.contents = e.contents := by
  unfold untouch
  split_ifs <;> rfl

end SlotCache.Slot

namespace SlotSys

variable {N B : ℕ} {K P T : Type} [DecidableEq K] [Inhabited K] [Inhabited P] [DecidableEq T]
  {isChunk : Bool} {bucketOf : K → Fin B} {σ σ' : SlotSys N B K P T} {t : T} {s : Fin N}
  {l : Label N K P T} {c : SlotCache N B K P T}

/-- The call of `Store::patch_chunk` that succeeds in a step. -/
def patched (σ : SlotSys N B K P T) : Label N K P T → Option (K × P)
  | .run t answer =>
    match σ.pcs t with
    | .flush _ start i _ =>
      if (σ.cache.slots (slotAt start i)).isOccupied then
        (σ.cache.slots (slotAt start i)).patched answer.ok
      else none
    | .flushing s => if answer.dirty then (σ.cache.slots s).patched answer.ok else none
    | _ => none
  | _ => none

/-- A thread writes to the slot for its tag. -/
def Writes (σ : SlotSys N B K P T) (l : Label N K P T) (s : Fin N) : Prop :=
  ∃ t answer, l = .run t answer ∧ σ.pcs t = .hit s (σ.cache.slots s).tag

/-- A truncation for which the whole chunk of the slot goes. -/
def Truncates (σ : SlotSys N B K P T) (l : Label N K P T) (s : Fin N) : Prop :=
  ∃ t answer, l = .run t answer ∧ σ.pcs t = .truncating s (σ.cache.slots s).tag

/-- What may become of a dirty slot: it stays dirty for its tag, with its data or with what is written to
it; or its data are flushed; or it is truncated. -/
def KeepsSlot (σ : SlotSys N B K P T) (l : Label N K P T) (s : Fin N) (e : Slot N K P T) : Prop :=
  e.dirty = true ∧ e.tag = (σ.cache.slots s).tag ∧
      (e.data = (σ.cache.slots s).data ∨ σ.Writes l s) ∨
    σ.patched l = some ((σ.cache.slots s).tag, (σ.cache.slots s).data) ∨ σ.Truncates l s

/-- **Dirty data leave the cache only by a flush or by the truncation of their chunk.** -/
def KeepsDirty (σ : SlotSys N B K P T) (l : Label N K P T) (σ' : SlotSys N B K P T) : Prop :=
  ∀ s, (σ.cache.slots s).dirty = true → σ.KeepsSlot l s (σ'.cache.slots s)

/-! ## One step -/

section Frame

omit [DecidableEq K] [Inhabited K] [Inhabited P] in
theorem put_cache (σ : SlotSys N B K P T) (t : T) (c : SlotCache N B K P T) (pc : Pc N K P) :
    (σ.put t c pc).cache = c := rfl

variable {f : Slot N K P T → Slot N K P T}

omit [Inhabited P] [DecidableEq T] in
theorem keepsSlot_of_contents {e : Slot N K P T} (h : e.contents = (σ.cache.slots s).contents)
    (hdirty : (σ.cache.slots s).dirty = true) : σ.KeepsSlot l s e := by
  simp only [Slot.contents, Prod.mk.injEq] at h
  exact .inl ⟨h.1.trans hdirty, h.2.1, .inl h.2.2⟩

omit [Inhabited P] [DecidableEq T] in
theorem keepsDirty_of_contents (h : ∀ s, (σ'.cache.slots s).contents = (σ.cache.slots s).contents) :
    KeepsDirty σ l σ' := fun s hdirty => keepsSlot_of_contents (h s) hdirty

omit [Inhabited P] [DecidableEq T] in
theorem keepsDirty_of_slot (hothers : ∀ x, x ≠ s → σ'.cache.slots x = σ.cache.slots x)
    (h : (σ.cache.slots s).dirty = true → σ.KeepsSlot l s (σ'.cache.slots s)) : KeepsDirty σ l σ' := by
  intro x hdirty
  by_cases hx : x = s
  · subst hx
    exact h hdirty
  · exact keepsSlot_of_contents (congrArg Slot.contents (hothers x hx)) hdirty

omit [Inhabited P] [DecidableEq T] in
/-- A step that writes to one slot. -/
theorem keepsDirty_of_modify (hcache : σ'.cache = σ.cache.modify s f)
    (h : (σ.cache.slots s).dirty = true → σ.KeepsSlot l s (f (σ.cache.slots s))) :
    KeepsDirty σ l σ' := by
  apply keepsDirty_of_slot (s := s)
  · intro x hx
    rw [hcache, modify_slots_of_ne _ _ hx]
  · rw [hcache, modify_slots_self]
    exact h

omit [Inhabited P] [DecidableEq T] in
theorem keepsDirty_of_same (hcache : σ'.cache = σ.cache.modify s f)
    (h : (f (σ.cache.slots s)).contents = (σ.cache.slots s).contents) : KeepsDirty σ l σ' :=
  keepsDirty_of_modify hcache (keepsSlot_of_contents h)

omit [Inhabited P] [DecidableEq T] in
/-- A step that writes to a slot that its thread owns. -/
theorem keepsDirty_of_owned (hinv : Inv bucketOf σ) (howns : (σ.pcs t).owns = some s)
    (hothers : ∀ x, x ≠ s → σ'.cache.slots x = σ.cache.slots x) : KeepsDirty σ l σ' := by
  refine keepsDirty_of_slot hothers fun hdirty => ?_
  rw [(hinv.owned t s howns).2] at hdirty
  cases hdirty

omit [Inhabited P] [DecidableEq T] in
/-- A flush of a slot. -/
theorem keepsDirty_of_flush {ok : Bool} (hcache : σ'.cache = σ.cache.modify s fun e => (e.tryFlush ok).2)
    (hpatched : σ.patched l = (σ.cache.slots s).patched ok) : KeepsDirty σ l σ' := by
  apply keepsDirty_of_modify hcache
  intro hdirty
  cases ok with
  | true =>
    right
    left
    rw [hpatched, Slot.patched, hdirty]
    rfl
  | false => exact keepsSlot_of_contents rfl hdirty

end Frame

theorem keepsDirty_operate (hinv : Inv bucketOf σ) {answer : Answer P}
    (hok : σ.Undisturbed isChunk (.run t answer))
    (hs : σ.operate isChunk bucketOf t answer (σ.pcs t) = some σ') :
    KeepsDirty σ (.run t answer) σ' := by
  cases hpc : σ.pcs t with
  | idle =>
    rw [hpc] at hs
    cases hs
  | lookup tag =>
    rw [hpc] at hs
    dsimp only [operate] at hs
    split_ifs at hs with hlock
    obtain ⟨found, -, hs⟩ := Option.map_eq_some_iff.mp hs
    subst hs
    cases found with
    | none => exact keepsDirty_of_contents fun _ => rfl
    | some s =>
      refine keepsDirty_of_same (put_cache ..) ?_
      rfl
  | hit s tag =>
    have htag := hinv.tagged t s tag (by rw [hpc]; rfl)
    rw [hpc] at hs
    dsimp only [operate] at hs
    by_cases hwrite : answer.dirty = true
    · rw [if_pos hwrite] at hs
      cases hs
      refine keepsDirty_of_modify (put_cache ..) ?_
      intro hdirty
      refine .inl ⟨?_, rfl, .inr ⟨t, answer, rfl, ?_⟩⟩
      · change ((σ.cache.slots s).dirty || answer.ok) = true
        rw [hdirty, Bool.true_or]
      · rw [hpc, htag]
    · rw [if_neg hwrite] at hs
      cases hs
      exact keepsDirty_of_contents fun _ => rfl
  | touching s =>
    rw [hpc] at hs
    cases hs
    exact keepsDirty_of_same (put_cache ..) Slot.touch_contents
  | missed tag =>
    rw [hpc] at hs
    dsimp only [operate] at hs
    split_ifs at hs <;> cases hs <;> exact keepsDirty_of_contents fun _ => rfl
  | sweep job start i =>
    rw [hpc] at hs
    dsimp only [operate] at hs
    split_ifs at hs <;> cases hs <;> exact keepsDirty_of_contents fun _ => rfl
  | age job start i =>
    rw [hpc] at hs
    dsimp only [operate] at hs
    split_ifs at hs
    · cases hs
      refine keepsDirty_of_same (put_cache ..) ?_
      exact Slot.untouch_contents
    · cases hs
      refine keepsDirty_of_same (put_cache ..) ?_
      exact Slot.untouch_contents
  | readTag job start i =>
    rw [hpc] at hs
    cases hs
    exact keepsDirty_of_contents fun _ => rfl
  | claim job start i tag =>
    rw [hpc] at hs
    dsimp only [operate, SlotCache.claim] at hs
    split_ifs at hs
    · cases hs
      exact keepsDirty_of_contents fun _ => rfl
    · cases hs
      exact keepsDirty_of_contents fun _ => rfl
    · cases hs
      refine keepsDirty_of_same (put_cache ..) ?_
      rfl
  | flush job start i tag =>
    have hpatched : σ.patched (.run t answer) = if (σ.cache.slots (slotAt start i)).isOccupied then
        (σ.cache.slots (slotAt start i)).patched answer.ok else none := by
      unfold patched
      dsimp only
      rw [hpc]
    have hcache : σ'.cache = (σ.cache.flushVictim (slotAt start i) answer.ok).2 := by
      rw [hpc] at hs
      dsimp only [operate] at hs
      rcases hflush : σ.cache.flushVictim (slotAt start i) answer.ok with ⟨flushed, c⟩
      rw [hflush] at hs
      cases flushed <;> cases hs <;> rfl
    unfold flushVictim at hcache
    by_cases hocc : (σ.cache.slots (slotAt start i)).isOccupied = true
    · rw [if_pos hocc] at hcache hpatched
      exact keepsDirty_of_flush hcache hpatched
    · rw [if_neg hocc] at hcache
      exact keepsDirty_of_contents fun _ => by rw [hcache]
  | verify job start i tag =>
    rw [hpc] at hs
    dsimp only [operate] at hs
    split_ifs at hs
    obtain ⟨unlinked, hverify, hs⟩ := Option.map_eq_some_iff.mp hs
    subst hs
    cases unlinked with
    | none => exact keepsDirty_of_contents fun _ => rfl
    | some c =>
      unfold SlotCache.verify at hverify
      split_ifs at hverify
      · cases hverify
      · cases hverify
      · obtain ⟨c', hc', hverify⟩ := Option.map_eq_some_iff.mp hverify
        cases hverify
        obtain ⟨ch, -, rfl⟩ := Option.map_eq_some_iff.mp hc'
        exact keepsDirty_of_contents fun _ => rfl
  | abort job start i =>
    rw [hpc] at hs
    cases hs
    exact keepsDirty_of_same (put_cache ..) Slot.touch_contents
  | drop job start i =>
    rw [hpc] at hs
    cases hs
    refine keepsDirty_of_same (put_cache ..) ?_
    rfl
  | clear job s =>
    rw [hpc] at hs
    cases hs
    exact keepsDirty_of_owned (s := s) (t := t) hinv (by rw [hpc]; rfl) fun x hx =>
      modify_slots_of_ne σ.cache _ hx
  | ready job s =>
    rw [hpc] at hs
    dsimp only [operate] at hs
    by_cases hchunk : isChunk = true
    · rw [if_pos hchunk] at hs
      cases hs
      refine keepsDirty_of_owned (s := s) (t := t) hinv (by rw [hpc]; rfl) fun x hx => ?_
      rw [put_cache, modify_slots_of_ne _ _ hx]
    · rw [if_neg hchunk] at hs
      cases hs
      exact keepsDirty_of_contents fun _ => rfl
  | exhausted =>
    rw [hpc] at hs
    cases hs
    exact keepsDirty_of_contents fun _ => rfl
  | link job s =>
    have howns : (σ.pcs t).owns = some s := by rw [hpc]; rfl
    rw [hpc] at hs
    dsimp only [operate] at hs
    split_ifs at hs
    obtain ⟨linked, hlinked, hs⟩ := Option.map_eq_some_iff.mp hs
    subst hs
    cases linked with
    | none => exact keepsDirty_of_contents fun _ => rfl
    | some c =>
      obtain ⟨-, -, -, hother, -⟩ := link_spec hinv.sorted (hinv.owned t s howns).1 hlinked
      exact keepsDirty_of_owned (s := s) (t := t) hinv howns hother
  | truncate s tag =>
    rw [hpc] at hs
    dsimp only [operate] at hs
    split_ifs at hs
    obtain ⟨unlinked, hunlinked, hs⟩ := Option.map_eq_some_iff.mp hs
    subst hs
    cases unlinked with
    | none => exact keepsDirty_of_contents fun _ => rfl
    | some c =>
      unfold SlotCache.truncateUnlink at hunlinked
      split_ifs at hunlinked
      · cases hunlinked
      · obtain ⟨c', hc', hunlinked⟩ := Option.map_eq_some_iff.mp hunlinked
        cases hunlinked
        obtain ⟨ch, -, rfl⟩ := Option.map_eq_some_iff.mp hc'
        exact keepsDirty_of_contents fun _ => rfl
  | truncating s tag =>
    have hcond := fun hchunk => hok hchunk s tag hpc
    rw [hpc] at hs
    dsimp only [operate] at hs
    split_ifs at hs with hchunk
    cases hs
    apply keepsDirty_of_slot (s := s)
    · intro x hx
      change (σ.cache.truncateClear s).slots x = _
      unfold SlotCache.truncateClear
      split_ifs <;> rw [modify_slots_of_ne _ _ hx]
    · intro hdirty
      refine .inr (.inr ⟨t, answer, rfl, ?_⟩)
      rcases hcond hchunk with htag | ⟨hclean, -⟩
      · rw [hpc, htag]
      · rw [hclean] at hdirty
        cases hdirty
  | pinning s =>
    rw [hpc] at hs
    cases hs
    refine keepsDirty_of_same (put_cache ..) ?_
    rfl
  | flushing s =>
    have hpatched : σ.patched (.run t answer) =
        if answer.dirty then (σ.cache.slots s).patched answer.ok else none := by
      unfold patched
      dsimp only
      rw [hpc]
    rw [hpc] at hs
    dsimp only [operate] at hs
    split_ifs at hs with hskip
    · cases hs
      exact keepsDirty_of_contents fun _ => rfl
    · cases hs
      rw [Bool.or_eq_true, not_or, Bool.not_eq_true', Bool.not_eq_true', Bool.not_eq_false,
        Bool.not_eq_false] at hskip
      rw [if_pos hskip.2] at hpatched
      exact keepsDirty_of_flush (put_cache ..) hpatched
  | unpin s =>
    rw [hpc] at hs
    cases hs
    refine keepsDirty_of_same (put_cache ..) ?_
    rfl

/-- **One step.** -/
theorem keepsDirty_step (hinv : Inv bucketOf σ) (hok : σ.Undisturbed isChunk l)
    (hs : σ.step isChunk bucketOf l = some σ') : KeepsDirty σ l σ' := by
  cases l with
  | run t answer => exact keepsDirty_operate hinv hok hs
  | call t tag =>
    dsimp only [step] at hs
    split at hs <;> cases hs
    exact keepsDirty_of_contents fun _ => rfl
  | flush t s =>
    dsimp only [step] at hs
    split at hs
    · split_ifs at hs
      cases hs
      exact keepsDirty_of_contents fun _ => rfl
    · cases hs
  | truncate t s tag =>
    dsimp only [step] at hs
    split at hs
    · split_ifs at hs
      cases hs
      exact keepsDirty_of_contents fun _ => rfl
    · cases hs

/-! ## Runs of the chunk cache -/

/-- **As long as truncations are undisturbed, the chains are in order and dirty data are kept.** -/
theorem tidy_and_keepsDirty (P T : Type) [Inhabited P] [DecidableEq T] (σ : ChunkCacheSys P T)
    (h : Reaches (step true ChunkTag.bucket) (Undisturbed true) init σ) :
    Tidy ChunkTag.bucket σ.cache ∧
      ∀ l σ', σ.Undisturbed true l → σ.step true ChunkTag.bucket l = some σ' → KeepsDirty σ l σ' :=
  have hinv : Inv ChunkTag.bucket σ := inv_of_reachable h
  ⟨hinv.toTidy, fun _ _ hok hs => keepsDirty_step hinv hok hs⟩

/-- A truncation finds the tag that it has unlinked. -/
def TruncatesOwn (σ : SlotSys N B K P T) : Label N K P T → Prop
  | .run t _ => ∀ p ∈ (σ.pcs t).drops, (σ.cache.slots p.1).tag = p.2
  | _ => True

instance (σ : SlotSys N B K P T) : ∀ l, Decidable (σ.TruncatesOwn l)
  | .run t _ => inferInstanceAs (Decidable (∀ p ∈ (σ.pcs t).drops, (σ.cache.slots p.1).tag = p.2))
  | .call _ _ | .flush _ _ | .truncate _ _ _ => inferInstanceAs (Decidable True)

omit [Inhabited K] [Inhabited P] [DecidableEq K] [DecidableEq T] in
theorem TruncatesOwn.undisturbed (h : σ.TruncatesOwn l) : σ.Undisturbed isChunk l := by
  cases l with
  | run t answer => exact fun _ s tag hpc => .inl (h (s, tag) (by rw [hpc]; rfl))
  | _ => trivial

/-- The tag of a chunk of one relation. -/
def chunkAt (i : ℕ) : ChunkTag := ⟨1663, 5, 16384, 0, UInt32.ofNat i⟩

/-- A section whose I/O succeeds, and that writes. -/
def nextSection (t : Fin 3) : Label cacheNumSlots ChunkTag Bool (Fin 3) := .run t ⟨true, true, true⟩

/-- Two threads write chunks 0 and 1; a third flushes and evicts chunk 0 for chunk 2; the second drops
chunk 1 and has taken it out of its chain. -/
def evictedAndDropped : List (Label cacheNumSlots ChunkTag Bool (Fin 3)) :=
  .call 0 (chunkAt 0) :: List.replicate 12 (nextSection 0) ++
    .call 1 (chunkAt 1) :: List.replicate 14 (nextSection 1) ++
    .call 2 (chunkAt 2) :: List.replicate 12 (nextSection 2) ++ [.truncate 1 1 (chunkAt 1), nextSection 1]

theorem tidy_and_keepsDirty_evictedAndDropped :
    ∃ σ σ' : ChunkCacheSys Bool (Fin 3), run (step true ChunkTag.bucket) init evictedAndDropped = some σ ∧
      ((σ.cache.slots 0).tag = chunkAt 2 ∧ (σ.cache.slots 0).dirty = true) ∧
      ((σ.cache.slots 1).tag = chunkAt 1 ∧ (σ.cache.slots 1).dirty = true) ∧
      σ.step true ChunkTag.bucket (nextSection 1) = some σ' ∧ (σ'.cache.slots 1).dirty = false ∧
      Tidy ChunkTag.bucket σ.cache ∧ KeepsDirty σ (nextSection 1) σ' ∧ Tidy ChunkTag.bucket σ'.cache := by
  have hok : Throughout (step true ChunkTag.bucket) TruncatesOwn (init : ChunkCacheSys Bool (Fin 3))
      (evictedAndDropped ++ [nextSection 1]) := by decide +kernel
  have hfacts : ((run (step true ChunkTag.bucket) (init : ChunkCacheSys Bool (Fin 3))
      (evictedAndDropped ++ [nextSection 1])).map fun σ => (σ.cache.slots 1).dirty) = some false := by
    decide +kernel
  have hbefore : ((run (step true ChunkTag.bucket) (init : ChunkCacheSys Bool (Fin 3))
      evictedAndDropped).map fun σ => (((σ.cache.slots 0).tag, (σ.cache.slots 0).dirty),
        ((σ.cache.slots 1).tag, (σ.cache.slots 1).dirty), (σ.pcs 1).drops)) =
      some ((chunkAt 2, true), (chunkAt 1, true), some (1, chunkAt 1)) := by decide +kernel
  obtain ⟨σ', hσ', hclean⟩ := Option.map_eq_some_iff.mp hfacts
  obtain ⟨σ, hσ, hslots⟩ := Option.map_eq_some_iff.mp hbefore
  simp only [Prod.mk.injEq] at hslots
  obtain ⟨hslot, hslot', hdrops⟩ := hslots
  have hown : σ.TruncatesOwn (nextSection 1) := by
    intro p hp
    rw [hdrops] at hp
    rw [← Option.some.inj hp]
    exact hslot'.1
  have hreach : Reaches (step true ChunkTag.bucket) (Undisturbed true) init σ :=
    (reaches_of_run hσ hok.left).mono fun _ _ h => h.undisturbed
  have hreach' : Reaches (step true ChunkTag.bucket) (Undisturbed true) init σ' :=
    (reaches_of_run hσ' hok).mono fun _ _ h => h.undisturbed
  rw [run_append_singleton, hσ] at hσ'
  exact ⟨σ, σ', hσ, hslot, hslot', hσ', hclean, (tidy_and_keepsDirty Bool (Fin 3) σ hreach).1,
    (tidy_and_keepsDirty Bool (Fin 3) σ hreach).2 _ _ hown.undisturbed hσ',
    (tidy_and_keepsDirty Bool (Fin 3) σ' hreach').1⟩

/-- A thread inserts chunk 0 into slot 0; a second ages the slot; a third evicts it. Then the first takes
chunk 0 out of its chain to drop it, and the third inserts chunk 2 before the first has the `io_lock`. -/
def race : List (Label cacheNumSlots ChunkTag Bool (Fin 3)) :=
  .call 0 (chunkAt 0) :: List.replicate 12 (nextSection 0) ++
    .call 1 (chunkAt 1) :: List.replicate 4 (nextSection 1) ++
    .call 2 (chunkAt 2) :: List.replicate 8 (nextSection 2) ++
    [.truncate 0 0 (chunkAt 0), nextSection 0] ++ List.replicate 4 (nextSection 2)

theorem run_race : ((run (step true ChunkTag.bucket) init race).map fun σ =>
    ((σ.cache.slots 0).tag, (σ.cache.slots 0).dirty, (σ.pcs 0).drops)) =
      some (chunkAt 2, true, some (0, chunkAt 0)) := by
  decide +kernel

theorem run_race_append : ((run (step true ChunkTag.bucket) init (race ++ [nextSection 0])).map fun σ =>
    (σ.cache.heads (chunkAt 2).bucket, (σ.cache.slots 0).tag, (σ.cache.slots 0).dirty)) =
      some (some 0, default, false) := by
  decide +kernel

/-- **A truncation that is disturbed** clears a slot in use: the slot stays in the chain of another bucket,
and its dirty data are lost. -/
theorem truncation_clears_another :
    ∃ (σ σ' : ChunkCacheSys Bool (Fin 3)) (l : Label cacheNumSlots ChunkTag Bool (Fin 3)),
      Reaches (step true ChunkTag.bucket) (fun _ _ => True) init σ ∧
        σ.step true ChunkTag.bucket l = some σ' ∧
        ¬ Tidy ChunkTag.bucket σ'.cache ∧ ¬ KeepsDirty σ l σ' := by
  obtain ⟨σ, hσ, hfacts⟩ := Option.map_eq_some_iff.mp run_race
  obtain ⟨σ', hσ', hfacts'⟩ := Option.map_eq_some_iff.mp run_race_append
  simp only [Prod.mk.injEq] at hfacts hfacts'
  obtain ⟨htag, hdirty, hdrops⟩ := hfacts
  obtain ⟨hhead, hcleared, hclean⟩ := hfacts'
  have hpc : σ.pcs 0 = .truncating 0 (chunkAt 0) := Pc.eq_truncating_of_drops hdrops
  rw [run_append_singleton, hσ] at hσ'
  refine ⟨σ, σ', nextSection 0, reaches_of_run hσ (throughout_true _ _), hσ', ?_, ?_⟩
  · intro htidy
    obtain ⟨l, hl, hbucket⟩ := htidy.sorted (chunkAt 2).bucket
    have hstart : σ'.cache.chains.head (chunkAt 2).bucket = some 0 := hhead
    rw [hstart] at hl
    cases l with
    | nil => cases hl
    | cons s l =>
      obtain rfl : 0 = s := Option.some_inj.mp hl.1
      have hslot := hbucket 0 List.mem_cons_self
      unfold bucketAt at hslot
      rw [hcleared] at hslot
      exact absurd hslot (by decide +kernel)
  · intro hkeeps
    rcases hkeeps 0 hdirty with ⟨hkept, -⟩ | hpatched | ⟨t, answer, hl, htruncating⟩
    · rw [hclean] at hkept
      cases hkept
    · unfold patched nextSection at hpatched
      dsimp only at hpatched
      rw [hpc] at hpatched
      cases hpatched
    · cases hl
      rw [hpc, htag] at htruncating
      injection htruncating with _ htag'
      exact absurd htag' (by decide)

end SlotSys

end Tiko

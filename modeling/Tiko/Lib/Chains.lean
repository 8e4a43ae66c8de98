import Mathlib.Tactic

/-!
# Hash chains

A table of buckets, each the head of a chain of cells that are linked by a `next` pointer.

* `Linked`: the links from a start run through the cells of a list and end;
* `Chains.find`, `Chains.unlink`, `Chains.push`: the walk along a chain, and the two ways to change it.
  The walks take a number of steps and return `none` when it does not suffice;
* `Chains.Sorted`: every chain ends, and its cells belong to its bucket;
* `Chains.Member`: a cell is in a chain.

**`Chains.Sorted.unlink`**, **`Chains.Sorted.push`**: what the changes do to the chains.
-/

namespace Lib

variable {α β : Type*}

/-! ## One chain -/

/-- The links from `start` run through the cells of the list, and end. -/
def Linked (next : α → Option α) : Option α → List α → Prop
  | start, [] => start = none
  | start, a :: l => start = some a ∧ Linked next (next a) l

namespace Linked

variable {next next' : α → Option α} {start : Option α} {l l' : List α}

theorem unique (h : Linked next start l) (h' : Linked next start l') : l = l' := by
  induction l generalizing start l' with
  | nil =>
    cases l' with
    | nil => rfl
    | cons a l' => exact absurd ((show start = none from h).symm.trans h'.1) (by simp)
  | cons a l ih =>
    cases l' with
    | nil => exact absurd ((show start = none from h').symm.trans h.1) (by simp)
    | cons a' l' =>
      obtain rfl : a = a' := Option.some_inj.mp (h.1.symm.trans h'.1)
      rw [ih h.2 h'.2]

theorem tail {a : α} {xs ys : List α} (h : Linked next start (xs ++ a :: ys)) :
    Linked next (next a) ys := by
  induction xs generalizing start with
  | nil => exact h.2
  | cons x xs ih => exact ih h.2

/-- A chain that ends meets no cell twice. -/
theorem nodup (h : Linked next start l) : l.Nodup := by
  induction l generalizing start with
  | nil => exact List.nodup_nil
  | cons a l ih =>
    rw [List.nodup_cons]
    refine ⟨?_, ih h.2⟩
    intro ha
    obtain ⟨xs, ys, rfl⟩ := List.append_of_mem ha
    -- the rest after the second occurrence would be the rest after the first
    have hrest := congrArg List.length (h.2.unique h.2.tail)
    rw [List.length_append, List.length_cons] at hrest
    omega

theorem congr (h : Linked next start l) (hnext : ∀ a ∈ l, next' a = next a) :
    Linked next' start l := by
  induction l generalizing start with
  | nil => exact h
  | cons a l ih =>
    refine ⟨h.1, ?_⟩
    rw [hnext a List.mem_cons_self]
    exact ih h.2 fun b hb => hnext b (List.mem_cons_of_mem _ hb)

theorem length_le [Fintype α] (h : Linked next start l) : l.length ≤ Fintype.card α :=
  h.nodup.length_le_card

end Linked

/-! ## A table -/

/-- The heads of the chains, and the links. -/
structure Chains (α β : Type*) where
  head : β → Option α
  next : α → Option α

namespace Chains

/-- The first cell of a chain with a property. -/
def find (c : Chains α β) (p : α → Bool) : ℕ → Option α → Option (Option α)
  | _, none => some none
  | 0, some _ => none
  | fuel + 1, some a => if p a then some (some a) else c.find p fuel (c.next a)

theorem find_eq {c : Chains α β} {p : α → Bool} {fuel : ℕ} {start : Option α} {l : List α}
    (h : Linked c.next start l) (hfuel : l.length ≤ fuel) : c.find p fuel start = some (l.find? p) := by
  induction l generalizing start fuel with
  | nil =>
    obtain rfl : start = none := h
    unfold find
    rfl
  | cons a l ih =>
    obtain ⟨rfl, hrest⟩ := h
    cases fuel with
    | zero => exact absurd hfuel (by simp)
    | succ fuel =>
      unfold find
      rw [List.find?_cons]
      cases p a with
      | true => rfl
      | false => exact ih hrest (Nat.le_of_succ_le_succ hfuel)

variable [DecidableEq α] [DecidableEq β]

/-- The walk to the cell before `a`. -/
def unlinkLoop (c : Chains α β) (a : α) : ℕ → α → Option (Chains α β)
  | 0, _ => none
  | fuel + 1, prev =>
    match c.next prev with
    | none => some c
    | some x =>
      if x = a then some { c with next := Function.update c.next prev (c.next a) }
      else c.unlinkLoop a fuel x

/-- Take a cell out of a chain, if it is there. -/
def unlink (c : Chains α β) (fuel : ℕ) (a : α) (b : β) : Option (Chains α β) :=
  match c.head b with
  | none => some c
  | some x =>
    if x = a then some { c with head := Function.update c.head b (c.next a) }
    else c.unlinkLoop a fuel x

/-- Put a cell in front of a chain. -/
def push (c : Chains α β) (a : α) (b : β) : Chains α β :=
  ⟨Function.update c.head b (some a), Function.update c.next a (c.head b)⟩

omit [DecidableEq β] in
theorem unlinkLoop_spec {c : Chains α β} {a prev : α} {l : List α} {fuel : ℕ}
    (h : Linked c.next (c.next prev) l) (hprev : prev ∉ l) (hne : prev ≠ a) (hfuel : l.length < fuel) :
    ∃ c', c.unlinkLoop a fuel prev = some c' ∧ c'.head = c.head ∧
      Linked c'.next (c'.next prev) (l.erase a) ∧ ∀ x ∉ prev :: l, c'.next x = c.next x := by
  induction l generalizing prev fuel with
  | nil =>
    obtain ⟨fuel, rfl⟩ : ∃ k, fuel = k + 1 := ⟨fuel - 1, by omega⟩
    have hnone : c.next prev = none := h
    refine ⟨c, ?_, rfl, h, fun _ _ => rfl⟩
    unfold unlinkLoop
    rw [hnone]
  | cons x l ih =>
    obtain ⟨fuel, rfl⟩ : ∃ k, fuel = k + 1 := ⟨fuel - 1, by omega⟩
    obtain ⟨hx, hrest⟩ := h
    have hnodup := Linked.nodup (show Linked c.next (some x) (x :: l) from ⟨rfl, hrest⟩)
    rw [List.mem_cons, not_or] at hprev
    unfold unlinkLoop
    rw [hx]
    dsimp only
    split_ifs with hxa
    · subst hxa
      refine ⟨_, rfl, rfl, ?_, ?_⟩
      · dsimp only
        rw [List.erase_cons_head, Function.update_self]
        apply hrest.congr
        intro y hy
        rw [Function.update_of_ne]
        rintro rfl
        exact hprev.2 hy
      · intro y hy
        rw [List.mem_cons, not_or] at hy
        exact Function.update_of_ne hy.1 _ _
    · obtain ⟨c', hc', hhead, hlinked, hframe⟩ := ih hrest (List.nodup_cons.mp hnodup).1 hxa
        (Nat.lt_of_succ_lt_succ hfuel)
      refine ⟨c', hc', hhead, ?_, ?_⟩
      · rw [List.erase_cons_tail (by simpa using hxa)]
        refine ⟨?_, hlinked⟩
        rw [hframe prev, hx]
        rw [List.mem_cons, not_or]
        exact hprev
      · intro y hy
        apply hframe
        intro hmem
        exact hy (List.mem_cons_of_mem _ hmem)

/-- A cell is in a chain. -/
def Member (c : Chains α β) (a : α) : Prop := ∃ b l, Linked c.next (c.head b) l ∧ a ∈ l

/-- Every chain ends, and has only cells of its bucket. -/
def Sorted (c : Chains α β) (bucket : α → β) : Prop :=
  ∀ b, ∃ l, Linked c.next (c.head b) l ∧ ∀ a ∈ l, bucket a = b

variable {c : Chains α β} {bucket bucket' : α → β} {a : α} {b : β}

omit [DecidableEq α] [DecidableEq β] in
theorem Sorted.find [Fintype α] (h : c.Sorted bucket) (p : α → Bool) (b : β) {fuel : ℕ}
    (hfuel : Fintype.card α ≤ fuel) :
    ∃ l, Linked c.next (c.head b) l ∧ c.find p fuel (c.head b) = some (l.find? p) := by
  obtain ⟨l, hl, -⟩ := h b
  exact ⟨l, hl, find_eq hl (hl.length_le.trans hfuel)⟩

omit [DecidableEq α] [DecidableEq β] in
/-- The chain of a member is that of its bucket. -/
theorem Sorted.mem_iff (h : c.Sorted bucket) {l : List α} (hl : Linked c.next (c.head (bucket a)) l) :
    c.Member a ↔ a ∈ l := by
  constructor
  · rintro ⟨b, l', hl', ha⟩
    obtain ⟨l'', hl'', hbucket⟩ := h b
    obtain rfl := hl'.unique hl''
    obtain rfl := hbucket a ha
    rwa [hl.unique hl']
  · exact fun ha => ⟨_, l, hl, ha⟩

omit [DecidableEq α] [DecidableEq β] in
/-- Cells outside the chains may change their bucket and their link. -/
theorem Sorted.congr {c' : Chains α β} (h : c.Sorted bucket) (hhead : c'.head = c.head)
    (hnext : ∀ x, c.Member x → c'.next x = c.next x) (hbucket : ∀ x, c.Member x → bucket' x = bucket x) :
    c'.Sorted bucket' ∧ ∀ x, c'.Member x ↔ c.Member x := by
  have hsame : ∀ b, ∃ l, Linked c.next (c.head b) l ∧ Linked c'.next (c'.head b) l ∧
      ∀ x ∈ l, bucket x = b := by
    intro b
    obtain ⟨l, hl, hb⟩ := h b
    refine ⟨l, hl, ?_, hb⟩
    rw [hhead]
    exact hl.congr fun x hx => hnext x ⟨b, l, hl, hx⟩
  constructor
  · intro b
    obtain ⟨l, hl, hl', hb⟩ := hsame b
    exact ⟨l, hl', fun x hx => (hbucket x ⟨b, l, hl, hx⟩).trans (hb x hx)⟩
  · intro x
    constructor
    · rintro ⟨b, l', hl', hx⟩
      obtain ⟨l, hl, hl'', -⟩ := hsame b
      obtain rfl := hl'.unique hl''
      exact ⟨b, l', hl, hx⟩
    · rintro ⟨b, l', hl', hx⟩
      obtain ⟨l, hl, hl'', -⟩ := hsame b
      obtain rfl := hl'.unique hl
      exact ⟨b, l', hl'', hx⟩

omit [DecidableEq α] [DecidableEq β] in
/-- One chain is replaced. -/
theorem Sorted.replace {c' : Chains α β} {l l' : List α} (h : c.Sorted bucket)
    (hl : Linked c.next (c.head b) l) (hl' : Linked c'.next (c'.head b) l')
    (hhead : ∀ b' ≠ b, c'.head b' = c.head b')
    (hnext : ∀ x, c.Member x → x ∉ l → c'.next x = c.next x)
    (hbucket : ∀ x, c.Member x → x ∉ l → bucket' x = bucket x) (hb : ∀ x ∈ l', bucket' x = b) :
    c'.Sorted bucket' ∧ ∀ x, c'.Member x ↔ c.Member x ∧ x ∉ l ∨ x ∈ l' := by
  have hother : ∀ b' ≠ b, ∀ m, Linked c.next (c.head b') m →
      Linked c'.next (c'.head b') m ∧ ∀ x ∈ m, c.Member x ∧ x ∉ l ∧ bucket x = b' := by
    intro b' hne m hm
    obtain ⟨m', hm', hbm⟩ := h b'
    obtain rfl := hm'.unique hm
    obtain ⟨l'', hl'', hbl⟩ := h b
    obtain rfl := hl''.unique hl
    have hmem : ∀ x ∈ m', c.Member x ∧ x ∉ l'' ∧ bucket x = b' := fun x hx =>
      ⟨⟨b', m', hm', hx⟩, fun hx' => hne ((hbm x hx).symm.trans (hbl x hx')), hbm x hx⟩
    refine ⟨?_, hmem⟩
    rw [hhead b' hne]
    exact hm'.congr fun x hx => hnext x (hmem x hx).1 (hmem x hx).2.1
  constructor
  · intro b'
    by_cases hne : b' = b
    · subst hne
      exact ⟨l', hl', hb⟩
    · obtain ⟨m, hm, -⟩ := h b'
      obtain ⟨hm', hmem⟩ := hother b' hne m hm
      refine ⟨m, hm', fun x hx => ?_⟩
      obtain ⟨hx1, hx2, hx3⟩ := hmem x hx
      rw [hbucket x hx1 hx2, hx3]
  · intro x
    constructor
    · rintro ⟨b', m, hm, hx⟩
      by_cases hne : b' = b
      · subst hne
        right
        rwa [hl'.unique hm]
      · left
        obtain ⟨m', hm', -⟩ := h b'
        obtain ⟨hlinked, hmem⟩ := hother b' hne m' hm'
        obtain rfl := hlinked.unique hm
        exact ⟨(hmem x hx).1, (hmem x hx).2.1⟩
    · rintro (⟨⟨b', m, hm, hx⟩, hxl⟩ | hx)
      · by_cases hne : b' = b
        · subst hne
          exact absurd (hl.unique hm ▸ hx) hxl
        · exact ⟨b', m, (hother b' hne m hm).1, hx⟩
      · exact ⟨b, l', hl', hx⟩

/-- **Taking a cell out of its chain.** -/
theorem Sorted.unlink [Fintype α] (h : c.Sorted bucket) {fuel : ℕ} (hfuel : Fintype.card α ≤ fuel)
    (hab : bucket a = b) : ∃ c', c.unlink fuel a b = some c' ∧ c'.Sorted bucket ∧
      ∀ x, c'.Member x ↔ c.Member x ∧ x ≠ a := by
  obtain ⟨l, hl, hbl⟩ := h b
  have hmem : c.Member a ↔ a ∈ l := by
    subst hab
    exact h.mem_iff hl
  -- it is enough that the chain loses the cell and no other is touched
  suffices hsuff : ∃ c', c.unlink fuel a b = some c' ∧ Linked c'.next (c'.head b) (l.erase a) ∧
      (∀ b' ≠ b, c'.head b' = c.head b') ∧ ∀ x ∉ l, c'.next x = c.next x by
    obtain ⟨c', hc', hl', hhead, hnext⟩ := hsuff
    obtain ⟨hsorted, hmember⟩ := h.replace hl hl' hhead (fun x _ => hnext x) (fun _ _ _ => rfl)
      fun x hx => hbl x (List.mem_of_mem_erase hx)
    refine ⟨c', hc', hsorted, fun x => ?_⟩
    rw [hmember x, hl.nodup.mem_erase_iff]
    constructor
    · rintro (⟨hx, hxl⟩ | ⟨hxa, hx⟩)
      · refine ⟨hx, ?_⟩
        rintro rfl
        exact hxl (hmem.mp hx)
      · exact ⟨⟨b, l, hl, hx⟩, hxa⟩
    · rintro ⟨hx, hxa⟩
      by_cases hxl : x ∈ l
      · exact Or.inr ⟨hxa, hxl⟩
      · exact Or.inl ⟨hx, hxl⟩
  have hlen := hl.length_le.trans hfuel
  unfold Chains.unlink
  cases l with
  | nil =>
    have hnone : c.head b = none := hl
    rw [hnone]
    exact ⟨c, rfl, hl, fun _ _ => rfl, fun _ _ => rfl⟩
  | cons x l =>
    obtain ⟨hx, hrest⟩ := hl
    rw [hx]
    dsimp only
    split_ifs with hxa
    · subst hxa
      refine ⟨_, rfl, ?_, ?_, fun _ _ => rfl⟩
      · dsimp only
        rw [List.erase_cons_head, Function.update_self]
        exact hrest
      · intro b' hne
        exact Function.update_of_ne hne _ _
    · have hnodup := Linked.nodup (show Linked c.next (some x) (x :: l) from ⟨rfl, hrest⟩)
      obtain ⟨c', hc', hhead, hlinked, hframe⟩ := unlinkLoop_spec hrest (List.nodup_cons.mp hnodup).1
        hxa hlen
      refine ⟨c', hc', ?_, fun b' _ => by rw [hhead], hframe⟩
      rw [List.erase_cons_tail (by simpa using hxa)]
      exact ⟨hhead ▸ hx, hlinked⟩

/-- **Putting a cell in front of a chain.** -/
theorem Sorted.push (h : c.Sorted bucket) (ha : ¬ c.Member a) (hab : bucket' a = b)
    (hbucket : ∀ x, x ≠ a → bucket' x = bucket x) :
    (c.push a b).Sorted bucket' ∧ ∀ x, (c.push a b).Member x ↔ c.Member x ∨ x = a := by
  obtain ⟨l, hl, hbl⟩ := h b
  have hne : ∀ x, c.Member x → x ≠ a := by
    rintro x hx rfl
    exact ha hx
  have hl' : Linked (c.push a b).next ((c.push a b).head b) (a :: l) := by
    refine ⟨Function.update_self .., ?_⟩
    rw [show (c.push a b).next a = c.head b from Function.update_self ..]
    apply hl.congr
    intro x hx
    exact Function.update_of_ne (hne x ⟨b, l, hl, hx⟩) _ _
  have hb : ∀ x ∈ a :: l, bucket' x = b := by
    intro x hx
    rcases List.mem_cons.mp hx with rfl | hx
    · exact hab
    · rw [hbucket x (hne x ⟨b, l, hl, hx⟩), hbl x hx]
  obtain ⟨hsorted, hmember⟩ := h.replace hl hl' (fun b' hb' => Function.update_of_ne hb' _ _)
    (fun x hx _ => Function.update_of_ne (hne x hx) _ _) (fun x hx _ => hbucket x (hne x hx)) hb
  refine ⟨hsorted, fun x => ?_⟩
  rw [hmember x, List.mem_cons]
  constructor
  · rintro (⟨hx, -⟩ | hx | hx)
    · exact Or.inl hx
    · exact Or.inr hx
    · exact Or.inl ⟨b, l, hl, hx⟩
  · rintro (hx | hx)
    · by_cases hxl : x ∈ l
      · exact Or.inr (Or.inr hxl)
      · exact Or.inl ⟨hx, hxl⟩
    · exact Or.inr (Or.inl hx)

end Chains

end Lib

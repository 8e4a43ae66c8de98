import Tiko.Lib.Sorting
import Tiko.Model.Timeline

/-!
# Filling the active window

The summaries of a checkpoint are filled from iterators: over the tags of a hash set for the Bloom
filter, over the entries of a hash map for the relation fork index. `RelforkIndex.populateIter`,
`ActiveCheckpoint.populateIter` and `TimelineState.pushActiveIter` are the code over lists, in any
order, with a sort of which only the specification is known.

* `populateIter_eq_populate`: on the entries of a map in any order they are the functions over sets
  and maps that the rest of the model uses;
* **`maybeContains_populateIter`**: the filter of a populated slot knows every tag, whatever is
  inserted later, and no index leaves the filter;
* **`get_populateIter_exact`**: the index answers like its map, or says that it overflowed;
* **`iterActive_pushes`**: the window is the last 64 pushes, newest first, each as if its slot had
  never been used before.
-/

namespace Tiko

open Lib

/-! ## The Bloom filter -/

namespace ChunkBloom

/-- Whatever the hashes are, the bit lies in a byte of the filter. -/
theorem byte_lt (h1 h2 i : UInt32) :
    (combinedHash h1 h2 i % chunkBloomBits / 8).toNat < chunkBloomBytes := by
  have hbits : chunkBloomBits.toNat = 131072 := rfl
  have hlt : (combinedHash h1 h2 i % chunkBloomBits).toNat < 131072 := by
    rw [UInt32.toNat_mod, hbits]
    exact Nat.mod_lt _ (by decide)
  rw [UInt32.toNat_div]
  change _ / 8 < 16384
  omega

theorem setBit_comm (b : ChunkBloom) (x y : UInt32) :
    (b.setBit x).setBit y = (b.setBit y).setBit x := by
  unfold setBit
  congr 1
  dsimp only
  by_cases hxy : byteIdx x = byteIdx y
  · rw [hxy]
    simp only [Function.update_self, Function.update_idem]
    congr 1
    rw [UInt8.or_assoc, UInt8.or_assoc, UInt8.or_comm (mask x)]
  · rw [Function.update_of_ne (Ne.symm hxy), Function.update_of_ne hxy,
      Function.update_comm hxy]

theorem setBit_foldl (b : ChunkBloom) (x : UInt32) (tag : ChunkTag) (l : List ℕ) :
    l.foldl (fun b i => b.setBit (bloomBit tag i)) (b.setBit x) =
      (l.foldl (fun b i => b.setBit (bloomBit tag i)) b).setBit x := by
  induction l generalizing b with
  | nil => rfl
  | cons i l ih => rw [List.foldl_cons, List.foldl_cons, setBit_comm, ih]

theorem insert_setBit (b : ChunkBloom) (x : UInt32) (tag : ChunkTag) :
    (b.setBit x).insert tag = (b.insert tag).setBit x := by
  unfold insert
  exact setBit_foldl b x tag _

theorem foldl_setBit_insert (b : ChunkBloom) (s t : ChunkTag) (l : List ℕ) :
    l.foldl (fun b i => b.setBit (bloomBit s i)) (b.insert t) =
      (l.foldl (fun b i => b.setBit (bloomBit s i)) b).insert t := by
  induction l generalizing b with
  | nil => rw [List.foldl_nil, List.foldl_nil]
  | cons i l ih => rw [List.foldl_cons, List.foldl_cons, ← insert_setBit, ih]

theorem insert_comm (b : ChunkBloom) (s t : ChunkTag) :
    (b.insert s).insert t = (b.insert t).insert s := by
  have h := foldl_setBit_insert b s t (List.range chunkBloomHashes)
  rw [← insert, ← insert] at h
  exact h.symm

instance rightCommutative_insert : RightCommutative insert := ⟨insert_comm⟩

/-- The filter does not depend on the order of the tags. -/
theorem foldl_insert_perm {l l' : List ChunkTag} (h : l.Perm l') (b : ChunkBloom) :
    l.foldl insert b = l'.foldl insert b :=
  h.foldl_eq b

theorem maybeContains_foldl_insert_of {b : ChunkBloom} {tag : ChunkTag} (l : List ChunkTag)
    (h : b.maybeContains tag = true) : (l.foldl insert b).maybeContains tag = true := by
  induction l generalizing b with
  | nil => exact h
  | cons t l ih => exact ih (maybeContains_insert_of b t h)

end ChunkBloom

/-! ## The relation fork index -/

/-- The order of `sort_unstable_by(|a, b| a.0.cmp(&b.0))`. -/
abbrev RelforkSort := UnstableSort fun a b : RelFork × RelForkMeta => a.1 ≤ b.1

/-- A stable sort is one of them. -/
def relforkSort : RelforkSort :=
  { sort := List.insertionSort fun a b => a.1 ≤ b.1
    perm := List.perm_insertionSort _
    pairwise := fun l => by
      have : Std.Total fun a b : RelFork × RelForkMeta => a.1 ≤ b.1 :=
        ⟨fun a b => le_total a.1 b.1⟩
      have : IsTrans (RelFork × RelForkMeta) fun a b => a.1 ≤ b.1 := ⟨fun a b c => le_trans⟩
      exact List.pairwise_insertionSort _ l }

namespace RelforkIndex

/-- The loop of `populate`: the entries of the list go to the places from `i` on. -/
def writeEntries : ℕ → List (RelFork × RelForkMeta) → (Fin relforkIndexCap → RelforkEntry) →
    Fin relforkIndexCap → RelforkEntry
  | _, [], entries => entries
  | i, (rf, md) :: l, entries =>
    writeEntries (i + 1) l fun j => if j.val = i then ⟨rf, md.nblocks, md.deleted⟩ else entries j

/-- `RelforkIndex::populate`. -/
def populateIter (S : RelforkSort) (x : RelforkIndex) (relforks : List (RelFork × RelForkMeta)) :
    RelforkIndex where
  len := min (S.sort relforks).length relforkIndexCap
  overflowed := decide ((S.sort relforks).length > relforkIndexCap)
  entries := writeEntries 0 ((S.sort relforks).take (min (S.sort relforks).length relforkIndexCap))
    x.entries
  len_le := Nat.min_le_right _ _

theorem writeEntries_of_lt {j : Fin relforkIndexCap} {i : ℕ} (hj : j.val < i)
    (l : List (RelFork × RelForkMeta)) (entries : Fin relforkIndexCap → RelforkEntry) :
    writeEntries i l entries j = entries j := by
  induction l generalizing i entries with
  | nil => rfl
  | cons a l ih =>
    rw [writeEntries, ih (Nat.lt_succ_of_lt hj), if_neg hj.ne]

theorem writeEntries_apply (i : ℕ) (l : List (RelFork × RelForkMeta))
    (entries : Fin relforkIndexCap → RelforkEntry) {j : Fin relforkIndexCap} (hj : i ≤ j.val) :
    writeEntries i l entries j = match l[j.val - i]? with
      | some (rf, md) => ⟨rf, md.nblocks, md.deleted⟩
      | none => entries j := by
  induction l generalizing i entries with
  | nil => simp [writeEntries]
  | cons a l ih =>
    obtain ⟨rf, md⟩ := a
    rw [writeEntries]
    rcases Nat.lt_or_eq_of_le hj with hlt | rfl
    · rw [ih (i + 1) _ hlt, if_neg hlt.ne']
      obtain ⟨k, hk⟩ : ∃ k, j.val - i = k + 1 := ⟨j.val - i - 1, by omega⟩
      have hk' : j.val - (i + 1) = k := by omega
      rw [hk, hk', List.getElem?_cons_succ]
    · rw [writeEntries_of_lt (Nat.lt_succ_self _), if_pos rfl, Nat.sub_self, List.getElem?_cons_zero]

/-- The live entries of a populated index are the first entries of the sorted list. -/
theorem entry_populateIter (S : RelforkSort) (x : RelforkIndex)
    {relforks : List (RelFork × RelForkMeta)} {i : ℕ} (hi : i < (x.populateIter S relforks).len) :
    ∃ rf md, (S.sort relforks)[i]? = some (rf, md) ∧
      (x.populateIter S relforks).entry i = ⟨rf, md.nblocks, md.deleted⟩ := by
  obtain ⟨h1, h2⟩ := Nat.lt_min.mp hi
  have hlt : i < min (S.sort relforks).length relforkIndexCap := hi
  refine ⟨_, _, List.getElem?_eq_getElem h1, ?_⟩
  rw [entry, dif_pos h2]
  change writeEntries 0 _ x.entries ⟨i, h2⟩ = _
  rw [writeEntries_apply 0 _ _ (Nat.zero_le _), Nat.sub_zero, List.getElem?_take_of_lt hlt,
    List.getElem?_eq_getElem h1]
  rfl

/-- Entries that are not live do not show in any answer. -/
theorem get_congr {x y : RelforkIndex} (hlen : x.len = y.len)
    (hoverflowed : x.overflowed = y.overflowed) (hentry : ∀ i < x.len, x.entry i = y.entry i)
    (rf : RelFork) : x.get rf = y.get rf := by
  have hb : bsearch (fun i => (x.entry i).rf) rf x.len = bsearch (fun i => (y.entry i).rf) rf y.len := by
    rw [← hlen]
    exact bsearch_congr (fun i hi => congrArg RelforkEntry.rf (hentry i hi)) rf
  unfold get
  rw [hb, hoverflowed]
  cases hy : bsearch (fun i => (y.entry i).rf) rf y.len with
  | some i =>
    dsimp only
    rw [hentry i (hlen ▸ (bsearchFrom_sound _ _ _ _ hy).2.1)]
  | none => rfl

/-- **What the slot held before does not show in any answer.** -/
theorem get_populateIter_congr (S : RelforkSort) (x y : RelforkIndex)
    (relforks : List (RelFork × RelForkMeta)) (rf : RelFork) :
    (x.populateIter S relforks).get rf = (y.populateIter S relforks).get rf := by
  have hlen : (x.populateIter S relforks).len = (y.populateIter S relforks).len := rfl
  have hoverflowed : (x.populateIter S relforks).overflowed = (y.populateIter S relforks).overflowed :=
    rfl
  refine get_congr hlen hoverflowed (fun i hi => ?_) rf
  obtain ⟨rf, md, hs, he⟩ := entry_populateIter S x hi
  obtain ⟨rf', md', hs', he'⟩ := entry_populateIter S y hi
  obtain ⟨rfl, rfl⟩ := Prod.mk.inj (Option.some.inj (hs.symm.trans hs'))
  rw [he, he']

/-! ### The entries of a map, in any order -/

/-- The map with the entries of a list whose keys are distinct. -/
def sortedMap (S : RelforkSort) (relforks : List (RelFork × RelForkMeta))
    (hd : (relforks.map Prod.fst).Nodup) : SortedMap RelFork RelForkMeta :=
  ⟨S.sort relforks, by
    have hne : (S.sort relforks).Pairwise fun a b => a.1 ≠ b.1 :=
      List.pairwise_map.mp (((S.perm relforks).map Prod.fst).nodup_iff.mpr hd)
    exact ((S.pairwise relforks).and hne).imp fun h => lt_of_le_of_ne h.1 h.2⟩

/-- Sorting the entries of a map gives them in the map's order. -/
theorem sort_eq_entries (S : RelforkSort) {m : SortedMap RelFork RelForkMeta}
    {relforks : List (RelFork × RelForkMeta)} (hm : relforks.Perm m.entries) :
    S.sort relforks = m.entries := by
  have hperm : (S.sort relforks).Perm m.entries := (S.perm relforks).trans hm
  have hd : (relforks.map Prod.fst).Nodup :=
    ((hm.map Prod.fst).nodup_iff).mpr (m.sorted_keys.imp fun h => ne_of_lt h)
  exact SortedMap.eq_of_mem_iff (sortedMap S relforks hd).sorted m.sorted fun a => hperm.mem_iff

theorem eq_of_fields {x y : RelforkIndex} (hlen : x.len = y.len)
    (hoverflowed : x.overflowed = y.overflowed) (hentries : x.entries = y.entries) : x = y := by
  cases x
  cases y
  subst hlen hoverflowed hentries
  rfl

/-- **Populating from the entries of a map, in any order, is populating from the map.** -/
theorem populateIter_eq_populate (S : RelforkSort) (x : RelforkIndex)
    {m : SortedMap RelFork RelForkMeta} {relforks : List (RelFork × RelForkMeta)}
    (hm : relforks.Perm m.entries) : x.populateIter S relforks = x.populate m := by
  have hs := sort_eq_entries S hm
  apply eq_of_fields
  · unfold populateIter populate
    dsimp only
    rw [hs]
  · unfold populateIter populate
    dsimp only
    rw [hs]
  · funext j
    unfold populateIter populate
    dsimp only
    rw [hs, writeEntries_apply 0 _ _ (Nat.zero_le _), Nat.sub_zero]
    have hplace : (m.entries.take (min m.entries.length relforkIndexCap))[j.val]? =
        m.entries[j.val]? := by
      rcases Nat.lt_or_ge j.val m.entries.length with hj | hj
      · exact List.getElem?_take_of_lt (lt_min hj j.isLt)
      · rw [List.getElem?_eq_none hj, List.getElem?_eq_none (by simp; omega)]
    exact congrArg (fun o : Option (RelFork × RelForkMeta) => match o with
      | some (rf, md) => (⟨rf, md.nblocks, md.deleted⟩ : RelforkEntry)
      | none => x.entries j) hplace

theorem perm_sortedMap (S : RelforkSort) {relforks : List (RelFork × RelForkMeta)}
    (hd : (relforks.map Prod.fst).Nodup) : relforks.Perm (sortedMap S relforks hd).entries :=
  (S.perm relforks).symm

/-- The place of an entry in a map is the number of smaller keys. -/
theorem getElem?_length_filter_lt {m : SortedMap RelFork RelForkMeta} {rf : RelFork}
    {md : RelForkMeta} (h : (rf, md) ∈ m.entries) :
    m.entries[(m.entries.filter fun e => decide (e.1 < rf)).length]? = some (rf, md) := by
  obtain ⟨pre, post, he⟩ := List.append_of_mem h
  have hsorted := m.sorted
  rw [he] at hsorted
  obtain ⟨-, hpost, hpre⟩ := List.pairwise_append.mp hsorted
  have hbefore : pre.filter (fun e => decide (e.1 < rf)) = pre := by
    refine List.filter_eq_self.mpr fun e hm => ?_
    exact decide_eq_true (hpre e hm (rf, md) List.mem_cons_self)
  have hafter : ((rf, md) :: post).filter (fun e => decide (e.1 < rf)) = [] := by
    refine List.filter_eq_nil_iff.mpr fun e hm => ?_
    rcases List.mem_cons.mp hm with rfl | hm
    · simp
    · have := (List.pairwise_cons.mp hpost).1 e hm
      simpa using this.le
  rw [he, List.filter_append, hbefore, hafter, List.append_nil, List.getElem?_append_right le_rfl,
    Nat.sub_self, List.getElem?_cons_zero]

/-- A live entry is found. -/
theorem get_populate_of_getElem? (x : RelforkIndex) {m : SortedMap RelFork RelForkMeta} {i : ℕ}
    {rf : RelFork} {md : RelForkMeta} (hi : i < relforkIndexCap)
    (h : m.entries[i]? = some (rf, md)) : (x.populate m).get rf = .hit md := by
  have hlt : i < (x.populate m).len := lt_min (List.getElem?_eq_some_iff.mp h).1 hi
  obtain ⟨rf', md', hm, he⟩ := x.entry_populate hlt
  obtain ⟨rfl, rfl⟩ := Prod.mk.inj (Option.some.inj (h.symm.trans hm))
  have hb : bsearch (fun i => ((x.populate m).entry i).rf) rf (x.populate m).len = some i :=
    (bsearch_eq_some_iff (x.ascendingBelow_populate m)).mpr ⟨hlt, congrArg RelforkEntry.rf he⟩
  unfold get
  rw [hb]
  dsimp only
  rw [he]

theorem overflowed_of_inconclusive {x : RelforkIndex} {rf : RelFork}
    (h : x.get rf = .inconclusive) : x.overflowed = true := by
  unfold get at h
  cases hb : bsearch (fun i => (x.entry i).rf) rf x.len with
  | some i =>
    rw [hb] at h
    exact absurd h (by simp)
  | none =>
    rw [hb] at h
    dsimp only at h
    split_ifs at h with ho
    exact ho

/-- **The index is exact or says so.** A hit is the map's entry, a definitive miss is no key of the map,
only an overflow is inconclusive, and the 128 smallest keys are hits. -/
theorem get_populateIter_exact (S : RelforkSort) (x : RelforkIndex)
    (relforks : List (RelFork × RelForkMeta)) (hd : (relforks.map Prod.fst).Nodup) (rf : RelFork) :
    (∀ md, (x.populateIter S relforks).get rf = .hit md → (rf, md) ∈ relforks) ∧
    ((x.populateIter S relforks).get rf = .definitiveMiss → ∀ md, (rf, md) ∉ relforks) ∧
    ((x.populateIter S relforks).get rf = .inconclusive → relforkIndexCap < relforks.length) ∧
    ∀ md, (rf, md) ∈ relforks →
      (relforks.filter fun e => decide (e.1 < rf)).length < relforkIndexCap →
      (x.populateIter S relforks).get rf = .hit md := by
  have hperm := perm_sortedMap S hd
  rw [populateIter_eq_populate S x hperm]
  have hagrees := x.agrees_populate (sortedMap S relforks hd) rf
  refine ⟨fun md hg => ?_, fun hg md hmem => ?_, fun hg => ?_, fun md hmem hlt => ?_⟩
  · rw [hg] at hagrees
    exact hperm.mem_iff.mpr (((sortedMap S relforks hd).mem_entries_iff rf md).mpr hagrees)
  · rw [hg] at hagrees
    have hl := ((sortedMap S relforks hd).mem_entries_iff rf md).mp (hperm.mem_iff.mp hmem)
    rw [hagrees] at hl
    exact absurd hl (by simp)
  · have ho := overflowed_of_inconclusive hg
    rw [hperm.length_eq]
    exact of_decide_eq_true ho
  · -- the key's place is the number of smaller keys, so it is among the live entries
    rw [(hperm.filter _).length_eq] at hlt
    exact get_populate_of_getElem? x hlt (getElem?_length_filter_lt (hperm.mem_iff.mp hmem))

/-- `n` relation forks, not in the order of their numbers. -/
def scattered (n : ℕ) : List (RelFork × RelForkMeta) :=
  (List.range n).map fun i => (⟨1663, 5, UInt32.ofNat (16384 + i * 77 % n), 0⟩, ⟨UInt32.ofNat i, false⟩)

/-- A map that is too large for the index, on a slot that held another one. -/
theorem get_populateIter_exact_scattered :
    let used := (⟨0, false, fun _ => default, Nat.zero_le _⟩ : RelforkIndex).populateIter relforkSort
      (scattered 50)
    let x := used.populateIter relforkSort (scattered 200)
    x.get ⟨1663, 5, 16384 + 77, 0⟩ = .hit ⟨1, false⟩ ∧
    x.get ⟨1663, 5, 16384 + 154, 0⟩ ≠ .definitiveMiss ∧
    (∀ md, x.get ⟨1663, 5, 16384 + 154, 0⟩ = .hit md → md = ⟨2, false⟩) ∧
    ∀ md, x.get ⟨1663, 5, 7, 0⟩ ≠ .hit md := by
  intro used x
  have hd : ((scattered 200).map Prod.fst).Nodup := by decide +kernel
  have hexact := fun rf => get_populateIter_exact relforkSort used (scattered 200) hd rf
  refine ⟨(hexact _).2.2.2 _ (by decide +kernel) (by decide +kernel), fun hmiss => ?_, fun md hmd => ?_,
    fun md hmd => ?_⟩
  · exact (hexact _).2.1 hmiss ⟨2, false⟩ (by decide +kernel)
  · have hkeys : ∀ e ∈ scattered 200, e.1 = ⟨1663, 5, 16384 + 154, 0⟩ → e.2 = ⟨2, false⟩ := by
      decide +kernel
    exact hkeys _ ((hexact _).1 md hmd) rfl
  · have hkeys : ∀ e ∈ scattered 200, e.1 ≠ ⟨1663, 5, 7, 0⟩ := by decide +kernel
    exact hkeys _ ((hexact _).1 md hmd) rfl

end RelforkIndex

/-! ## A slot -/

namespace ActiveCheckpoint

/-- `ActiveCheckpoint::populate`. -/
def populateIter (S : RelforkSort) (ac : ActiveCheckpoint) (ckpt prevCkpt : Checkpoint)
    (chunks : List ChunkTag) (relforks : List (RelFork × RelForkMeta)) : ActiveCheckpoint where
  ckpt := ckpt
  prevCkpt := prevCkpt
  chunkBloom := chunks.foldl .insert .clear
  relforkIndex := ac.relforkIndex.populateIter S relforks

/-- **Populating from a set and a map does not depend on the order of their iterators.** -/
theorem populateIter_eq_populate (S : RelforkSort) (ac : ActiveCheckpoint)
    (ckpt prevCkpt : Checkpoint) {chunks : SortedSet ChunkTag}
    {relforks : SortedMap RelFork RelForkMeta} {tags : List ChunkTag}
    {entries : List (RelFork × RelForkMeta)} (hc : tags.Perm chunks.keys)
    (hr : entries.Perm relforks.entries) :
    ac.populateIter S ckpt prevCkpt tags entries = ac.populate ckpt prevCkpt chunks relforks := by
  rw [populateIter, populate, ChunkBloom.foldl_insert_perm hc,
    RelforkIndex.populateIter_eq_populate S _ hr]

/-- **No false negatives.** Whatever the slot held before, its filter knows every tag it was populated
with, also after further insertions; and whatever two hashes a tag has, every bit and every byte that
a probe computes from them lies in the filter. -/
theorem maybeContains_populateIter (S : RelforkSort) (ac : ActiveCheckpoint)
    (ckpt prevCkpt : Checkpoint) (chunks : List ChunkTag) (relforks : List (RelFork × RelForkMeta)) :
    (∀ tag ∈ chunks, ∀ further : List ChunkTag, (further.foldl ChunkBloom.insert
      (ac.populateIter S ckpt prevCkpt chunks relforks).chunkBloom).maybeContains tag = true) ∧
    ∀ h1 h2 i : UInt32, combinedHash h1 h2 i % chunkBloomBits < chunkBloomBits ∧
      (combinedHash h1 h2 i % chunkBloomBits / 8).toNat < chunkBloomBytes ∧
      (combinedHash h1 h2 i % chunkBloomBits % 8).toNat < 8 := by
  constructor
  · intro tag htag further
    exact ChunkBloom.maybeContains_foldl_insert_of further
      (ChunkBloom.maybeContains_foldl_insert htag .clear)
  · intro h1 h2 i
    refine ⟨UInt32.mod_lt _ (by decide), ChunkBloom.byte_lt h1 h2 i, ?_⟩
    rw [UInt32.toNat_mod]
    exact Nat.mod_lt _ (by decide)

/-- The first chunks of a relation. -/
def firstChunks (n : ℕ) : List ChunkTag :=
  (List.range n).map fun i => ⟨1663, 5, 16384, 0, UInt32.ofNat i⟩

/-- A slot that is used a second time knows the hundred tags it has been populated with, also when another
thousand are inserted. -/
theorem maybeContains_populateIter_hundred :
    let used := (TimelineState.zeroed.activeWindow TimelineState.zeroed.activeHead).populateIter relforkSort
      ⟨1, 100⟩ ⟨1, 50⟩ [⟨1663, 5, 16385, 0, 3⟩] (RelforkIndex.scattered 50)
    let slot := used.populateIter relforkSort ⟨1, 200⟩ ⟨1, 100⟩ (firstChunks 100) (RelforkIndex.scattered 200)
    ∀ tag ∈ firstChunks 100,
      ((firstChunks 1000).foldl ChunkBloom.insert slot.chunkBloom).maybeContains tag = true := by
  intro used slot tag htag
  exact (maybeContains_populateIter relforkSort used ⟨1, 200⟩ ⟨1, 100⟩ (firstChunks 100)
    (RelforkIndex.scattered 200)).1 tag htag (firstChunks 1000)

end ActiveCheckpoint

/-! ## The window -/

/-- The arguments of one call of `push_active`. -/
structure ActivePush where
  ckpt : Checkpoint
  prevCkpt : Checkpoint
  chunks : List ChunkTag
  relforks : List (RelFork × RelForkMeta)

/-- The slot holds what was pushed, and no answer of it depends on what it held before: the identity
and the filter are the push's, and the index answers like any other slot's index that was populated
from the same entries. -/
structure ActiveCheckpoint.Holds (S : RelforkSort) (ac : ActiveCheckpoint) (p : ActivePush) : Prop where
  ckpt_eq : ac.ckpt = p.ckpt
  prevCkpt_eq : ac.prevCkpt = p.prevCkpt
  chunkBloom_eq : ac.chunkBloom = p.chunks.foldl .insert .clear
  get_eq : ∀ (x : RelforkIndex) (rf : RelFork),
    ac.relforkIndex.get rf = (x.populateIter S p.relforks).get rf

theorem ActiveCheckpoint.holds_populateIter (S : RelforkSort) (ac : ActiveCheckpoint) (p : ActivePush) :
    (ac.populateIter S p.ckpt p.prevCkpt p.chunks p.relforks).Holds S p where
  ckpt_eq := rfl
  prevCkpt_eq := rfl
  chunkBloom_eq := rfl
  get_eq x rf := RelforkIndex.get_populateIter_congr S ac.relforkIndex x p.relforks rf

namespace TimelineState

/-- `(head + 1) % ACTIVE_WINDOW_SIZE`. -/
def nextSlot (head : Fin activeWindowSize) : Fin activeWindowSize :=
  ⟨(head.val + 1) % activeWindowSize, Nat.mod_lt _ head.pos⟩

theorem nextCount_le (s : TimelineState) :
    (if s.activeCount < activeWindowSize then s.activeCount + 1 else s.activeCount) ≤
      activeWindowSize := by
  have := s.activeCount_le
  split_ifs <;> omega

/-- `TimelineState::push_active`. -/
def pushActiveIter (S : RelforkSort) (s : TimelineState) (p : ActivePush) : TimelineState :=
  { s with
    generation := s.generation + 1
    headCkpt := p.ckpt
    activeCount := if s.activeCount < activeWindowSize then s.activeCount + 1 else s.activeCount
    activeHead := nextSlot s.activeHead
    activeWindow := Function.update s.activeWindow s.activeHead
      ((s.activeWindow s.activeHead).populateIter S p.ckpt p.prevCkpt p.chunks p.relforks)
    activeCount_le := s.nextCount_le }

/-- The state after a sequence of pushes on a window that was just initialised. -/
def afterPushes (S : RelforkSort) (s : TimelineState) (pushes : List ActivePush) : TimelineState :=
  pushes.foldl (pushActiveIter S) s.init

/-- The slots that the iterator visits. -/
def visited (s : TimelineState) : List (Fin activeWindowSize) :=
  (List.range s.activeCount).map (slotBefore s.activeHead)

/-- **A push of a set and a map does not depend on the order of their iterators.** -/
theorem pushActiveIter_eq_pushActive (S : RelforkSort) (s : TimelineState) {p : ActivePush}
    {chunks : SortedSet ChunkTag} {relforks : SortedMap RelFork RelForkMeta}
    (hc : p.chunks.Perm chunks.keys) (hr : p.relforks.Perm relforks.entries) :
    s.pushActiveIter S p = s.pushActive p.ckpt p.prevCkpt chunks relforks := by
  have hslot := ActiveCheckpoint.populateIter_eq_populate S (s.activeWindow s.activeHead) p.ckpt
    p.prevCkpt hc hr
  unfold pushActiveIter pushActive
  rw [hslot]
  rfl

theorem iterActive_pushActiveIter (S : RelforkSort) (s : TimelineState) (p : ActivePush) :
    (s.pushActiveIter S p).iterActive =
      (s.activeWindow s.activeHead).populateIter S p.ckpt p.prevCkpt p.chunks p.relforks ::
        s.iterActive.take (activeWindowSize - 1) :=
  iterActive_of_write rfl rfl rfl

theorem slotBefore_inj (head : Fin activeWindowSize) {i j : ℕ} (hi : i < activeWindowSize)
    (hj : j < activeWindowSize) (h : slotBefore head i = slotBefore head j) : i = j := by
  have := head.isLt
  have h := congrArg Fin.val h
  simp only [slotBefore] at h
  simp only [activeWindowSize] at *
  omega

/-- The iterator visits no slot twice. -/
theorem nodup_visited (s : TimelineState) : s.visited.Nodup := by
  have hle := s.activeCount_le
  refine List.Nodup.map_on ?_ List.nodup_range
  intro i hi j hj h
  exact slotBefore_inj s.activeHead ((List.mem_range.mp hi).trans_le hle)
    ((List.mem_range.mp hj).trans_le hle) h

theorem iterActive_eq_map_visited (s : TimelineState) :
    s.iterActive = s.visited.map s.activeWindow := by
  unfold iterActive visited
  rw [List.map_map]
  rfl

/-- One push, on a window that holds the last pushes. -/
theorem forall₂_pushActiveIter (S : RelforkSort) {s : TimelineState} {pushes : List ActivePush}
    (p : ActivePush)
    (h : List.Forall₂ (ActiveCheckpoint.Holds S) s.iterActive (pushes.take activeWindowSize)) :
    List.Forall₂ (ActiveCheckpoint.Holds S) (s.pushActiveIter S p).iterActive
      ((p :: pushes).take activeWindowSize) := by
  have hrest := List.forall₂_take (activeWindowSize - 1) h
  rw [List.take_take] at hrest
  rw [iterActive_pushActiveIter]
  exact .cons (ActiveCheckpoint.holds_populateIter S _ p) hrest

theorem afterPushes_append (S : RelforkSort) (s : TimelineState) (pushes : List ActivePush)
    (p : ActivePush) :
    s.afterPushes S (pushes ++ [p]) = (s.afterPushes S pushes).pushActiveIter S p := by
  unfold afterPushes
  rw [List.foldl_append, List.foldl_cons, List.foldl_nil]

theorem forall₂_afterPushes (S : RelforkSort) (s : TimelineState) (pushes : List ActivePush) :
    List.Forall₂ (ActiveCheckpoint.Holds S) (s.afterPushes S pushes).iterActive
      (pushes.reverse.take activeWindowSize) := by
  induction pushes using List.reverseRecOn with
  | nil => exact .nil
  | append_singleton pushes p ih =>
    rw [afterPushes_append, List.reverse_append, List.reverse_singleton, List.singleton_append]
    exact forall₂_pushActiveIter S p ih

/-- **The window is the last 64 pushes, newest first**: one slot for each of them and no slot twice, each
slot as if it had never been used before, and the head is the last push. -/
theorem iterActive_pushes (S : RelforkSort) (s : TimelineState) (pushes : List ActivePush) :
    List.Forall₂ (ActiveCheckpoint.Holds S) (s.afterPushes S pushes).iterActive
      (pushes.reverse.take activeWindowSize) ∧
    (s.afterPushes S pushes).iterActive =
      (s.afterPushes S pushes).visited.map (s.afterPushes S pushes).activeWindow ∧
    (s.afterPushes S pushes).visited.Nodup ∧
    (s.afterPushes S pushes).iterActive.length = min pushes.length activeWindowSize ∧
    (s.afterPushes S pushes).headCkpt = (pushes.getLast?.map ActivePush.ckpt).getD default := by
  have hall := forall₂_afterPushes S s pushes
  refine ⟨hall, iterActive_eq_map_visited _, nodup_visited _, ?_, ?_⟩
  · rw [hall.length_eq, List.length_take, List.length_reverse, Nat.min_comm]
  · induction pushes using List.reverseRecOn with
    | nil => rfl
    | append_singleton pushes p ih =>
      rw [afterPushes_append, List.getLast?_concat]
      rfl

end TimelineState

/-! ## The records behind the window -/

/-- The push of a durable record, with its set and its map in any order. -/
structure ActivePush.Of (p : ActivePush) (sc : SegmentCheckpoint) : Prop where
  ckpt_eq : p.ckpt = sc.ckpt
  prevCkpt_eq : p.prevCkpt = sc.prevCkpt
  chunks_perm : p.chunks.Perm (SortedMap.keys sc.chunks)
  relforks_perm : p.relforks.Perm sc.relforks.entries

theorem ActiveCheckpoint.Holds.mirrors {S : RelforkSort} {ac : ActiveCheckpoint} {p : ActivePush}
    {sc : SegmentCheckpoint} (h : ac.Holds S p) (hp : p.Of sc) : ac.Mirrors sc where
  ckpt_eq := h.ckpt_eq.trans hp.ckpt_eq
  prevCkpt_eq := h.prevCkpt_eq.trans hp.prevCkpt_eq
  bloom tag ht := by
    rw [h.chunkBloom_eq]
    exact ChunkBloom.maybeContains_foldl_insert
      (hp.chunks_perm.mem_iff.mpr ((SortedSet.contains_iff_mem_keys sc.chunks tag).mp ht)) .clear
  index rf := by
    rw [h.get_eq ac.relforkIndex, RelforkIndex.populateIter_eq_populate S _ hp.relforks_perm]
    exact ac.relforkIndex.agrees_populate sc.relforks rf

theorem forall₂_mirrors {S : RelforkSort} {acs : List ActiveCheckpoint} {pushes : List ActivePush}
    {scs : List SegmentCheckpoint} (hacs : List.Forall₂ (ActiveCheckpoint.Holds S) acs pushes)
    (hscs : List.Forall₂ ActivePush.Of pushes scs) :
    List.Forall₂ ActiveCheckpoint.Mirrors acs scs := by
  induction hacs generalizing scs with
  | nil =>
    cases hscs
    exact .nil
  | cons hac _ ih =>
    cases hscs with
    | cons hp hscs => exact .cons (hac.mirrors hp) (ih hscs)

/-- **The window mirrors the last 64 records that were pushed.** -/
theorem TimelineState.mirrors_pushes (S : RelforkSort) (s : TimelineState) {pushes : List ActivePush}
    {scs : List SegmentCheckpoint} (h : List.Forall₂ ActivePush.Of pushes scs) :
    List.Forall₂ ActiveCheckpoint.Mirrors (s.afterPushes S pushes).iterActive
      (scs.reverse.take activeWindowSize) :=
  forall₂_mirrors (forall₂_afterPushes S s pushes)
    (List.forall₂_take activeWindowSize (List.forall₂_reverse_iff.mpr h))

end Tiko

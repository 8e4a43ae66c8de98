import Mathlib.Order.Bounds.Basic
import Tiko.Wal.Window

/-!
# Contiguous runs

`walContiguousRun` sorts the entries by segment number, the highest first, and walks down from the
highest while each entry begins where its segment does and the next one ends there. The entries are of
different segments, and each lies in its own.

* `SegEntry.Within`: an entry lies in its segment;
* `CoveredBy`: every LSN of an interval is in some entry.

**`walContiguousRun_spec`**: the run ends with the highest entry, is covered, and begins as low as a
covered run can; the order of the entries does not matter. Where the walk stops, the LSN just below
the current entry is in no entry (`exists_gap`).
-/

namespace Tiko.Wal

/-- The coverage of an entry is a part of its segment. -/
def SegEntry.Within (e : SegEntry) : Prop :=
  e.segNo * xlogSegSize ≤ e.lo ∧ e.lo ≤ e.hi ∧ e.hi ≤ (e.segNo + 1) * xlogSegSize

/-- Every LSN of `[lo, hi)` is in some entry. -/
def CoveredBy (entries : List SegEntry) (lo hi : ℕ) : Prop :=
  ∀ p, lo ≤ p → p < hi → ∃ e ∈ entries, e.lo ≤ p ∧ p < e.hi

section Walk

variable {cur next e a b : SegEntry} {rest entries : List SegEntry}

theorem SegEntry.Within.hi_le (ha : a.Within) (h : a.segNo < b.segNo) :
    a.hi ≤ b.segNo * xlogSegSize :=
  ha.2.2.trans (Nat.mul_le_mul_right _ h)

theorem SegEntry.Within.hi_le_lo (ha : a.Within) (hb : b.Within) (h : a.segNo < b.segNo) :
    a.hi ≤ b.lo :=
  (ha.hi_le h).trans hb.1

/-! ## Along the walk -/

theorem extendDown_le (hwf : ∀ e ∈ cur :: rest, e.Within) :
    extendDown cur cur.lo rest ≤ cur.lo := by
  induction rest generalizing cur with
  | nil => exact le_rfl
  | cons next rest ih =>
    rw [extendDown]
    split_ifs with h0 hstart hnext
    · exact le_rfl
    · exact le_rfl
    · exact le_rfl
    · have hle := ih fun e he => hwf e (List.mem_cons_of_mem _ he)
      have hn := (hwf next (List.mem_cons_of_mem _ List.mem_cons_self)).2.1
      omega

variable (cur rest) in
theorem extendDown_mem : ∃ e ∈ cur :: rest, e.lo = extendDown cur cur.lo rest := by
  induction rest generalizing cur with
  | nil => exact ⟨cur, List.mem_cons_self, rfl⟩
  | cons next rest ih =>
    rw [extendDown]
    split_ifs with h0 hstart hnext
    · exact ⟨cur, List.mem_cons_self, rfl⟩
    · exact ⟨cur, List.mem_cons_self, rfl⟩
    · exact ⟨cur, List.mem_cons_self, rfl⟩
    · obtain ⟨e, he, hlo⟩ := ih next
      exact ⟨e, List.mem_cons_of_mem _ he, hlo⟩

/-- The entries below `cur` end before it begins, unless the walk goes on. -/
theorem hi_lt_of_stop (hwf : ∀ e ∈ cur :: next :: rest, e.Within)
    (hsort : (cur :: next :: rest).Pairwise fun a b => b.segNo < a.segNo)
    (hstop : cur.lo ≠ cur.segNo * xlogSegSize ∨ next.segNo ≠ cur.segNo - 1 ∨ next.hi ≠ cur.lo) :
    ∀ e ∈ next :: rest, e.hi < cur.lo := by
  intro e he
  have hcur := hwf cur List.mem_cons_self
  have hnext := hwf next (List.mem_cons_of_mem _ List.mem_cons_self)
  have hE := hwf e (List.mem_cons_of_mem _ he)
  have hlt : e.segNo < cur.segNo := List.rel_of_pairwise_cons hsort he
  have hhi := hE.hi_le hlt
  have hhi' := hE.hi_le_lo hcur hlt
  have hnlt : next.segNo < cur.segNo := List.rel_of_pairwise_cons hsort List.mem_cons_self
  have hpos := xlogSegSize_pos
  by_cases hstart : cur.lo = cur.segNo * xlogSegSize
  · rcases hstop.resolve_left (not_not_intro hstart) with hseg | hcov
    · -- a missing neighbour: a whole segment lies between
      have hle : e.segNo ≤ next.segNo := by
        rcases List.mem_cons.mp he with rfl | he
        · exact le_rfl
        · exact (List.rel_of_pairwise_cons hsort.of_cons he).le
      have hseg' : e.segNo + 1 < cur.segNo := by omega
      have hmul : (e.segNo + 1) * xlogSegSize < cur.segNo * xlogSegSize :=
        Nat.mul_lt_mul_of_pos_right hseg' hpos
      exact (hE.2.2.trans_lt hmul).trans_eq hstart.symm
    · -- short coverage of the neighbour
      rcases List.mem_cons.mp he with rfl | he
      · exact lt_of_le_of_ne hhi' hcov
      · have hlt' : e.segNo < next.segNo := List.rel_of_pairwise_cons hsort.of_cons he
        have hseg' : e.segNo + 1 < cur.segNo := by omega
        have hmul : (e.segNo + 1) * xlogSegSize < cur.segNo * xlogSegSize :=
          Nat.mul_lt_mul_of_pos_right hseg' hpos
        exact (hE.2.2.trans_lt hmul).trans_eq hstart.symm
  · exact hhi.trans_lt (lt_of_le_of_ne hcur.1 (Ne.symm hstart))

/-- **Below the end of the walk there is a gap**: from an entry that begins lower, some LSN before the
first entry of the walk is in none of the others. -/
theorem exists_gap (hwf : ∀ e ∈ cur :: rest, e.Within)
    (hsort : (cur :: rest).Pairwise fun a b => b.segNo < a.segNo) (he : e ∈ rest)
    (hlo : e.lo < extendDown cur cur.lo rest) :
    ∃ p, e.lo ≤ p ∧ p < cur.lo ∧ ∀ e' ∈ rest, e'.hi ≤ p ∨ p < e'.lo := by
  induction rest generalizing cur with
  | nil => exact absurd he List.not_mem_nil
  | cons next rest ih =>
    have hgap : (∀ e' ∈ next :: rest, e'.hi < cur.lo) →
        ∃ p, e.lo ≤ p ∧ p < cur.lo ∧ ∀ e' ∈ next :: rest, e'.hi ≤ p ∨ p < e'.lo := by
      intro hall
      have hE := (hwf e (List.mem_cons_of_mem _ he)).2.1
      have hlt := hall e he
      refine ⟨cur.lo - 1, by omega, by omega, fun e' he' => .inl ?_⟩
      have := hall e' he'
      omega
    rw [extendDown] at hlo
    split_ifs at hlo with h0 hstart hnext
    · have hlt : e.segNo < cur.segNo := List.rel_of_pairwise_cons hsort he
      omega
    · exact hgap (hi_lt_of_stop hwf hsort (.inl hstart))
    · exact hgap (hi_lt_of_stop hwf hsort (.inr hnext))
    · have hwf' : ∀ e ∈ next :: rest, e.Within := fun e he => hwf e (List.mem_cons_of_mem _ he)
      have hle := extendDown_le hwf'
      have hn := (hwf' next List.mem_cons_self).2.1
      rcases List.mem_cons.mp he with rfl | he'
      · omega
      · obtain ⟨p, hp, hpn, hrest⟩ := ih hwf' hsort.of_cons he' hlo
        refine ⟨p, hp, by omega, fun e' he'' => ?_⟩
        rcases List.mem_cons.mp he'' with rfl | he''
        · exact .inr hpn
        · exact hrest e' he''

/-! ## The run -/

/-- The sorted entries. -/
def sorted (entries : List SegEntry) : List SegEntry :=
  entries.insertionSort fun a b => b.segNo ≤ a.segNo

theorem mem_sorted : e ∈ sorted entries ↔ e ∈ entries := List.mem_insertionSort _

theorem pairwise_sorted_le (entries : List SegEntry) :
    (sorted entries).Pairwise fun a b => b.segNo ≤ a.segNo := by
  have : Std.Total fun a b : SegEntry => b.segNo ≤ a.segNo :=
    ⟨fun a b => Nat.le_total b.segNo a.segNo⟩
  have : IsTrans SegEntry fun a b => b.segNo ≤ a.segNo := ⟨fun _ _ _ h h' => h'.trans h⟩
  exact List.pairwise_insertionSort _ entries

theorem pairwise_sorted_lt (hnodup : (entries.map SegEntry.segNo).Nodup) :
    (sorted entries).Pairwise fun a b => b.segNo < a.segNo := by
  have hne : (sorted entries).Pairwise fun a b => a.segNo ≠ b.segNo := by
    have hperm := (List.perm_insertionSort (fun a b => b.segNo ≤ a.segNo) entries).map SegEntry.segNo
    exact List.pairwise_map.mp (hperm.nodup_iff.mpr hnodup)
  exact ((pairwise_sorted_le entries).and hne).imp fun h => lt_of_le_of_ne h.1 h.2.symm

/-- Entries of different segments have one descending order. -/
theorem sorted_perm {entries' : List SegEntry} (hnodup : (entries.map SegEntry.segNo).Nodup)
    (hperm : entries.Perm entries') : sorted entries' = sorted entries := by
  have hnodup' : (entries'.map SegEntry.segNo).Nodup := (hperm.map _).nodup_iff.mp hnodup
  have hsorted : (sorted entries').Perm (sorted entries) :=
    (List.perm_insertionSort _ _).trans (hperm.symm.trans (List.perm_insertionSort _ _).symm)
  refine hsorted.eq_of_pairwise (fun a b _ _ hab hba => ?_) (pairwise_sorted_lt hnodup')
    (pairwise_sorted_lt hnodup)
  exact absurd hab (lt_asymm hba)

theorem walContiguousRun_eq (entries : List SegEntry) : walContiguousRun entries =
    (sorted entries).head?.map fun top =>
      (extendDown top top.lo (sorted entries).tail, top.hi) := by
  rw [walContiguousRun, ← sorted]
  cases sorted entries <;> rfl

theorem walContiguousRun_eq_none : walContiguousRun entries = none ↔ entries = [] := by
  rw [walContiguousRun_eq, Option.map_eq_none_iff, List.head?_eq_none_iff, ← List.length_eq_zero_iff,
    sorted, List.length_insertionSort, List.length_eq_zero_iff]

/-- **The contiguous run.** It ends with the highest entry, it is covered, and of the entries from
whose start it is covered it begins with the lowest; any order of the entries gives the same run. -/
theorem walContiguousRun_spec (hnodup : (entries.map SegEntry.segNo).Nodup)
    (hwf : ∀ e ∈ entries, e.Within) :
    (walContiguousRun entries = none ↔ entries = []) ∧
      (∀ wLo wHi, walContiguousRun entries = some (wLo, wHi) →
        (∃ top ∈ entries, (∀ e ∈ entries, e.segNo ≤ top.segNo) ∧ wHi = top.hi) ∧
          CoveredBy entries wLo wHi ∧
          IsLeast { lo | (∃ e ∈ entries, e.lo = lo) ∧ CoveredBy entries lo wHi } wLo) ∧
      ∀ entries', entries.Perm entries' → walContiguousRun entries' = walContiguousRun entries := by
  refine ⟨walContiguousRun_eq_none, fun wLo wHi hrun => ?_, fun entries' hperm => ?_⟩
  · have hcov : CoveredBy entries wLo wHi :=
      walContiguousRun_sound (fun e he p hlo hhi => ⟨e, he, hlo, hhi⟩) hrun
    have hsort := pairwise_sorted_lt hnodup
    have hmem : ∀ e, e ∈ sorted entries ↔ e ∈ entries := fun e => mem_sorted
    rw [walContiguousRun_eq] at hrun
    cases hs : sorted entries with
    | nil =>
      rw [hs] at hrun
      exact absurd hrun (by simp)
    | cons top rest =>
      rw [hs] at hrun hsort hmem
      obtain ⟨rfl, rfl⟩ := Prod.mk.inj (Option.some.inj hrun)
      have hwf' : ∀ e ∈ top :: rest, e.Within := fun e he => hwf e ((hmem e).mp he)
      refine ⟨⟨top, (hmem top).mp List.mem_cons_self, fun e he => ?_, rfl⟩, hcov, ⟨?_, hcov⟩, ?_⟩
      · rcases List.mem_cons.mp ((hmem e).mpr he) with rfl | he
        · exact le_rfl
        · exact (List.rel_of_pairwise_cons hsort he).le
      · obtain ⟨e, he, hlo⟩ := extendDown_mem top rest
        exact ⟨e, (hmem e).mp he, hlo⟩
      · rintro lo ⟨⟨e, he, rfl⟩, hcov'⟩
        by_contra hlt
        have hle := extendDown_le hwf'
        have htop := (hwf' top List.mem_cons_self).2.1
        rcases List.mem_cons.mp ((hmem e).mpr he) with rfl | he'
        · exact hlt hle
        · obtain ⟨p, hp, hpt, hgap⟩ := exists_gap hwf' hsort he' (not_le.mp hlt)
          obtain ⟨e', he'', hlo', hhi'⟩ := hcov' p hp (by omega)
          rcases List.mem_cons.mp ((hmem e').mpr he'') with rfl | hrest
          · omega
          · rcases hgap e' hrest with h | h <;> omega
  · rw [walContiguousRun_eq, walContiguousRun_eq, sorted_perm hnodup hperm]

/-- Two sealed segments and the end of a third: the run stops at the gap in front of it. -/
theorem walContiguousRun_spec_gap :
    let entries : List SegEntry := [⟨2, 2 * xlogSegSize, 3 * xlogSegSize, true⟩,
      ⟨0, 0, 5, false⟩, ⟨1, xlogSegSize, 2 * xlogSegSize, true⟩]
    ∀ entries', entries.Perm entries' → walContiguousRun entries' = walContiguousRun entries := by
  intro entries
  refine (@walContiguousRun_spec entries (by decide) fun e he => ?_).2.2
  have hcases : e = ⟨2, 2 * xlogSegSize, 3 * xlogSegSize, true⟩ ∨ e = ⟨0, 0, 5, false⟩ ∨
      e = ⟨1, xlogSegSize, 2 * xlogSegSize, true⟩ := by simpa [entries] using he
  rcases hcases with rfl | rfl | rfl
  · exact ⟨le_rfl, by simp only; omega, le_rfl⟩
  · exact ⟨by simp, by simp, by simp [xlogSegSize]⟩
  · exact ⟨by simp, by simp only; omega, le_rfl⟩

end Walk

end Tiko.Wal

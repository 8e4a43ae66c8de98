import Tiko.Model.Keys

/-!
# The range filter of timeline segments

`overlapsRange` compares the lowest and the highest checkpoint a segment can hold with the bounds of
a range. The highest one is computed as the start of the next segment less one. The index is counted
up by a saturating addition; the product with the segment size is not saturating.

* `SegmentId.NoOverflow`: what `overlaps_range` computes stays in the `u64` range;
* `RangeFilter`: the filter keeps exactly the segments that meet the range, with no overflow.

**`rangeFilter_iff`**: the filter is right up to the last segment of the LSN space, whose next
segment would start at `2 ^ 64`.
-/

namespace Tiko

/-! ## Overflow -/

/-- The products, the sum and the difference of `SegmentId::overlaps_range` are `u64` values. The
sum saturates. -/
def SegmentId.NoOverflow (s : SegmentId) : Prop :=
  s.index.toNat * timelineSegmentLsnRange.toNat < 2 ^ 64 ∧
    (saturatingSucc s.index).toNat * timelineSegmentLsnRange.toNat < 2 ^ 64 ∧
    1 ≤ (saturatingSucc s.index).toNat * timelineSegmentLsnRange.toNat

/-- What the range filter promises of the segment of `c`. -/
structure RangeFilter (c low high : Checkpoint) : Prop where
  complete : low ≤ c → c ≤ high → c.toSegmentId.overlapsRange low high = true
  sound : c.toSegmentId.overlapsRange low high = true →
    ∃ d : Checkpoint, d.toSegmentId = c.toSegmentId ∧ low ≤ d ∧ d ≤ high
  noOverflow : c.toSegmentId.NoOverflow

namespace Checkpoint

variable {c d low high : Checkpoint}

theorem toSegmentId_index_succ (c : Checkpoint) :
    (SegmentId.saturatingSucc c.toSegmentId.index).toNat = c.lsn.toNat / 2 ^ 28 + 1 := by
  have hc := c.lsn.toNat_lt
  have hi := c.toSegmentId_index
  have hlt : c.toSegmentId.index.toNat + 1 < 2 ^ 64 := by omega
  rw [SegmentId.saturatingSucc, if_pos hlt, UInt64.toNat_add, hi, UInt64.toNat_one]
  omega

/-- The product overflows in the last segment, and in no other. -/
theorem noOverflow_iff (c : Checkpoint) :
    c.toSegmentId.NoOverflow ↔ c.lsn.toNat < 2 ^ 64 - 2 ^ 28 := by
  have hc := c.lsn.toNat_lt
  unfold SegmentId.NoOverflow
  rw [toSegmentId_index_succ, toSegmentId_index, timelineSegmentLsnRange_toNat]
  omega

/-! ## Soundness -/

/-- The lowest checkpoint of a segment, as the filter computes it. -/
def segLow (c : Checkpoint) : Checkpoint :=
  ⟨c.timelineId, c.toSegmentId.index * timelineSegmentLsnRange⟩

/-- The highest checkpoint of a segment, as the filter computes it. -/
def segHigh (c : Checkpoint) : Checkpoint :=
  ⟨c.timelineId, SegmentId.saturatingSucc c.toSegmentId.index * timelineSegmentLsnRange - 1⟩

theorem overlapsRange_iff :
    c.toSegmentId.overlapsRange low high = true ↔ low ≤ c.segHigh ∧ c.segLow ≤ high := by
  rw [SegmentId.overlapsRange, Bool.and_eq_true, decide_eq_true_eq, decide_eq_true_eq]
  rfl

-- for any LSN: with those of a segment in it, comparing the projections would compute them
theorem timelineId_mk (t : TimelineId) (l : Lsn) : (⟨t, l⟩ : Checkpoint).timelineId = t := rfl

theorem segLow_timelineId (c : Checkpoint) : c.segLow.timelineId = c.timelineId :=
  timelineId_mk c.timelineId _

theorem segHigh_timelineId (c : Checkpoint) : c.segHigh.timelineId = c.timelineId :=
  timelineId_mk c.timelineId _

theorem segLow_lsn (c : Checkpoint) : c.segLow.lsn.toNat = c.lsn.toNat / 2 ^ 28 * 2 ^ 28 :=
  c.segLow_toNat

theorem segHigh_lsn (c : Checkpoint) :
    c.segHigh.lsn.toNat = c.lsn.toNat / 2 ^ 28 * 2 ^ 28 + (2 ^ 28 - 1) :=
  c.segHigh_toNat

theorem toSegmentId_eq_of_lsn (ht : d.timelineId = c.timelineId)
    (hl : d.lsn.toNat / 2 ^ 28 = c.lsn.toNat / 2 ^ 28) : d.toSegmentId = c.toSegmentId := by
  have hi : d.toSegmentId.index = c.toSegmentId.index := by
    apply UInt64.toNat_inj.mp
    rw [toSegmentId_index, toSegmentId_index, hl]
  change (⟨d.timelineId, d.toSegmentId.index⟩ : SegmentId) = ⟨c.timelineId, c.toSegmentId.index⟩
  rw [ht, hi]

theorem toSegmentId_segLow (c : Checkpoint) : c.segLow.toSegmentId = c.toSegmentId := by
  refine toSegmentId_eq_of_lsn c.segLow_timelineId ?_
  rw [segLow_lsn, Nat.mul_div_cancel _ (by norm_num)]

/-- **A segment that the filter keeps holds a checkpoint of the range**: the higher one of its
lowest checkpoint and the lower bound. -/
theorem exists_mem_of_overlapsRange (hle : low ≤ high)
    (h : c.toSegmentId.overlapsRange low high = true) :
    ∃ d : Checkpoint, d.toSegmentId = c.toSegmentId ∧ low ≤ d ∧ d ≤ high := by
  obtain ⟨hl, hh⟩ := overlapsRange_iff.mp h
  by_cases hseg : low ≤ c.segLow
  · exact ⟨c.segLow, c.toSegmentId_segLow, hseg, hh⟩
  · refine ⟨low, ?_, le_rfl, hle⟩
    -- the lower bound lies above the start of the segment and not above its end
    have hlt := lt_iff.mp (not_le.mp hseg)
    have hle' := le_iff.mp hl
    rw [segLow_timelineId, segLow_lsn] at hlt
    rw [segHigh_timelineId, segHigh_lsn] at hle'
    have ht : low.timelineId = c.timelineId := by
      rcases hle' with h | h
      · rcases hlt with h' | h'
        · exact absurd h (lt_asymm h')
        · exact h'.1.symm
      · exact h.1
    have h1 : c.lsn.toNat / 2 ^ 28 * 2 ^ 28 < low.lsn.toNat := by
      rcases hlt with h | h
      · exact absurd (congrArg UInt32.toNat ht) (ne_of_gt h)
      · exact h.2
    have h2 : low.lsn.toNat ≤ c.lsn.toNat / 2 ^ 28 * 2 ^ 28 + (2 ^ 28 - 1) := by
      rcases hle' with h | h
      · exact absurd (congrArg UInt32.toNat ht) (ne_of_lt h)
      · exact h.2
    exact toSegmentId_eq_of_lsn ht (by omega)

/-- **The range filter is right exactly below the last segment.** -/
theorem rangeFilter_iff (c : Checkpoint) {low high : Checkpoint} (hle : low ≤ high) :
    RangeFilter c low high ↔ c.lsn.toNat < 2 ^ 64 - 2 ^ 28 := by
  constructor
  · intro h
    exact c.noOverflow_iff.mp h.noOverflow
  · intro h
    exact ⟨overlapsRange_of_mem, exists_mem_of_overlapsRange hle, c.noOverflow_iff.mpr h⟩

theorem rangeFilter_iff_default :
    (default : Checkpoint) ≤ ⟨1, 5⟩ ∧
      (RangeFilter ⟨1, 3⟩ default ⟨1, 5⟩ ↔ (3 : UInt64).toNat < 2 ^ 64 - 2 ^ 28) := by
  have hle : (default : Checkpoint) ≤ ⟨1, 5⟩ := by decide
  exact ⟨hle, rangeFilter_iff ⟨1, 3⟩ hle⟩

/-- The segment of the highest LSN: the start of the next one is `2 ^ 64`. -/
theorem lastSegment_overflows :
    let c : Checkpoint := ⟨1, 18446744073709551615⟩
    c.toSegmentId.index.toNat = 2 ^ 36 - 1 ∧
      (SegmentId.saturatingSucc c.toSegmentId.index).toNat * timelineSegmentLsnRange.toNat = 2 ^ 64 ∧
      ¬ RangeFilter c c c := by
  intro c
  have hlsn : c.lsn.toNat = 2 ^ 64 - 1 := by decide
  refine ⟨?_, ?_, fun h => ?_⟩
  · rw [toSegmentId_index, hlsn]
    norm_num
  · rw [toSegmentId_index_succ, timelineSegmentLsnRange_toNat, hlsn]
    norm_num
  · have hlt := c.noOverflow_iff.mp h.noOverflow
    omega

end Checkpoint

end Tiko

import Tiko.Lib.HexOrder
import Tiko.Pitr.RecoveryWindow

/-!
# Keys of base manifests and timeline segments

The keys are written with fixed-width numerals and read with any width. `Store::init` does not read
them: it sorts a listing of `bases/` as text and opens the last key.

* `baseManifest_lt_iff`: the text order of base manifests is the order of their checkpoints;
* `segmentIdFromPathString_timelineSegment`: the key of a segment parses back;
* `downloadBaseManifest`: what `Store::init` opens when it has no local file.

**`baseKeys_parse_and_sort`**: keys parse back, and the last key of a sorted listing is the newest base
manifest.
-/

namespace Tiko.Pitr

open Lib

/-! ## The code -/

/-- The branch of `Store::init` without a local manifest: the last key of the sorted listing. `fromBytes`
stands for `Manifest::from_bytes`; `none` is the empty manifest. -/
def downloadBaseManifest {M : Type} (fromBytes : Bytes → Except Error M) (ns : DbNamespace)
    (store : ObjectStorage) : Except Error (Option M) := do
  let bases ← store.listPrefix (basesDir ns)
  match (bases.insertionSort (· ≤ ·)).getLast? with
  | some key =>
    let bytes ← store.get key
    let manifest ← fromBytes bytes
    return some manifest
  | none => return none

/-! ## Text order -/

section Order

variable {ns : DbNamespace} {c d : Checkpoint}

theorem toHex_lt_iff {t u : TimelineId} : t.toHex < u.toHex ↔ t.toNat < u.toNat := by
  rw [TimelineId.toHex_eq, TimelineId.toHex_eq]
  exact Hex.fixed_lt_iff (lt_of_lt_of_eq t.toNat_lt (by decide)) (lt_of_lt_of_eq u.toNat_lt (by decide))

theorem toHex_inj {t u : TimelineId} : t.toHex = u.toHex ↔ t = u := by
  refine ⟨fun h => ?_, fun h => by rw [h]⟩
  have hfrom := fromHex_toHex t
  rw [h, fromHex_toHex] at hfrom
  exact (Option.some.inj hfrom).symm

theorem lsnToHex_eq (lsn : Lsn) : lsnToHex lsn = Hex.fixed 16 lsn.toNat :=
  Hex.fmt_eq_fixed (by decide) (lt_of_lt_of_eq lsn.toNat_lt (by decide))

theorem lsnToHex_lt_iff {l m : Lsn} : lsnToHex l < lsnToHex m ↔ l.toNat < m.toNat := by
  rw [lsnToHex_eq, lsnToHex_eq]
  exact Hex.fixed_lt_iff (lt_of_lt_of_eq l.toNat_lt (by decide)) (lt_of_lt_of_eq m.toNat_lt (by decide))

/-- **Base manifests are ordered as text like their checkpoints.** -/
theorem baseManifest_lt_iff : baseManifest ns c < baseManifest ns d ↔ c < d := by
  have htl : (c.timelineId.toHex ++ ['/']).length = (d.timelineId.toHex ++ ['/']).length := by
    rw [TimelineId.toHex_eq, TimelineId.toHex_eq]
    simp
  have hlsn : (lsnToHex c.lsn).length = (lsnToHex d.lsn).length := by
    rw [lsnToHex_eq, lsnToHex_eq]
    simp
  have hslash : (c.timelineId.toHex).length = (d.timelineId.toHex).length := by
    rw [TimelineId.toHex_eq, TimelineId.toHex_eq]
    simp
  rw [baseManifest, baseManifest, append_left_lt_iff, append_lt_append_iff htl,
    append_right_lt_iff hslash, append_right_lt_iff hlsn, List.append_cancel_right_eq, toHex_lt_iff,
    toHex_inj, lsnToHex_lt_iff, Checkpoint.lt_iff]

theorem baseManifest_le_iff : baseManifest ns c ≤ baseManifest ns d ↔ c ≤ d := by
  rw [← not_lt, baseManifest_lt_iff, not_lt]

end Order

/-! ## Segments -/

/-- **The key of a segment parses back.** -/
theorem segmentIdFromPathString_timelineSegment (ns : DbNamespace) (id : SegmentId) :
    segmentIdFromPathString (timelineSegment ns id) = some id := by
  have hstem : timelineSegment ns id = ['/'].intercalate
      [Nat.toDigits 10 ns.orgId.toNat, Nat.toDigits 10 ns.dbId.toNat,
        ['t', 'i', 'm', 'e', 'l', 'i', 'n', 'e'], id.timelineId.toHex, Hex.fmt 16 id.index.toNat] ++
      segmentSuffix := by
    simp [timelineSegment, timelineSegmentsDir, DbNamespace.fmt, List.intercalate, List.intersperse]
  have hslash : ∀ c ∈ [Nat.toDigits 10 ns.orgId.toNat, Nat.toDigits 10 ns.dbId.toNat,
      ['t', 'i', 'm', 'e', 'l', 'i', 'n', 'e'], id.timelineId.toHex, Hex.fmt 16 id.index.toNat],
      '/' ∉ c := by
    intro c hc
    simp only [List.mem_cons, List.not_mem_nil, or_false] at hc
    rcases hc with rfl | rfl | rfl | rfl | rfl
    · exact slash_notMem_toDigits _
    · exact slash_notMem_toDigits _
    · decide
    · exact slash_notMem_toHex _
    · exact slash_notMem_fmt _ _
  rw [segmentIdFromPathString, hstem, stripSuffix_append, Option.bind_eq_bind, Option.bind_some,
    List.splitOn_intercalate '/' hslash (by simp)]
  change ((Hex.fromStr (2 ^ 64) (Hex.fmt 16 id.index.toNat)).bind fun index =>
    (TimelineId.fromHex id.timelineId.toHex).bind fun tl => some (⟨tl, UInt64.ofNat index⟩ : SegmentId)) = _
  rw [Hex.fromStr_fmt 16 id.index.toNat_lt, Option.bind_some, fromHex_toHex, Option.bind_some,
    UInt64.ofNat_toNat]

/-! ## The newest base manifest -/

theorem getLast?_sorted_of_max {α : Type} [LinearOrder α] {l : List α} {a : α} (ha : a ∈ l)
    (hmax : ∀ b ∈ l, b ≤ a) : (l.insertionSort (· ≤ ·)).getLast? = some a := by
  have hmem : a ∈ l.insertionSort (· ≤ ·) := (List.mem_insertionSort _).mpr ha
  have hne : l.insertionSort (· ≤ ·) ≠ [] := List.ne_nil_of_mem hmem
  have hlast : (l.insertionSort (· ≤ ·)).getLast hne ∈ l :=
    (List.mem_insertionSort _).mp (List.getLast_mem hne)
  have hle : a ≤ (l.insertionSort (· ≤ ·)).getLast hne :=
    (List.pairwise_insertionSort (· ≤ ·) l).rel_getLast_of_rel_getLast_getLast hmem le_rfl
  rw [List.getLast?_eq_some_getLast hne, le_antisymm (hmax _ hlast) hle]

/-- **Keys parse back, and the last key of a sorted listing is the newest base manifest.** The listing
has the base manifests of any stored checkpoints, in any order. -/
theorem baseKeys_parse_and_sort (ns : DbNamespace) :
    (∀ c, parseBaseManifestCkpt (baseManifest ns c) (basesDir ns) = some c) ∧
      (∀ id, segmentIdFromPathString (timelineSegment ns id) = some id) ∧
      (∀ c d, (baseManifest ns c < baseManifest ns d ↔ c < d) ∧
        (baseManifest ns c = baseManifest ns d ↔ c = d)) ∧
      ∀ {M : Type} (fromBytes : Bytes → Except Error M) (store : ObjectStorage)
        (stored : List Checkpoint) (keys : List Str), keys.Perm (stored.map (baseManifest ns)) →
        store.listPrefix (basesDir ns) = .ok keys →
        (stored = [] → downloadBaseManifest fromBytes ns store = .ok none) ∧
          ∀ newest ∈ stored, (∀ c ∈ stored, c ≤ newest) →
            downloadBaseManifest fromBytes ns store = (do
              let bytes ← store.get (baseManifest ns newest)
              let manifest ← fromBytes bytes
              return some manifest) := by
  refine ⟨parseBaseManifestCkpt_baseManifest ns, segmentIdFromPathString_timelineSegment ns,
    fun c d => ⟨baseManifest_lt_iff, fun h => ?_, fun h => by rw [h]⟩, ?_⟩
  · exact le_antisymm (baseManifest_le_iff.mp h.le) (baseManifest_le_iff.mp h.ge)
  · intro M fromBytes store stored keys hperm hlist
    refine ⟨fun hnil => ?_, fun newest hmem hmax => ?_⟩
    · rw [hnil, List.map_nil] at hperm
      rw [downloadBaseManifest, hlist, hperm.eq_nil]
      rfl
    · have hlast : (keys.insertionSort (· ≤ ·)).getLast? = some (baseManifest ns newest) := by
        refine getLast?_sorted_of_max (hperm.mem_iff.mpr (List.mem_map_of_mem hmem)) fun key hkey => ?_
        obtain ⟨c, hc, rfl⟩ := List.mem_map.mp (hperm.mem_iff.mp hkey)
        exact baseManifest_le_iff.mpr (hmax c hc)
      simp only [downloadBaseManifest, hlist, bind, Except.bind, hlast]

/-- Base manifests of two timelines. -/
def twoTimelines : List Checkpoint := [⟨1, 300⟩, ⟨2, 100⟩, ⟨1, 1099511627776⟩]

/-- A store that lists them in this order, with one byte in each object. -/
def listsThree : ObjectStorage where
  get key := .ok [if key = baseManifest ⟨1, 1⟩ ⟨2, 100⟩ then 2 else 1]
  listPrefix _ := .ok (twoTimelines.map (baseManifest ⟨1, 1⟩))

theorem baseKeys_parse_and_sort_listsThree :
    downloadBaseManifest (Except.ok : Bytes → Except Error Bytes) ⟨1, 1⟩ listsThree = .ok (some [2]) := by
  obtain ⟨-, -, -, hnewest⟩ := baseKeys_parse_and_sort ⟨1, 1⟩
  rw [(hnewest Except.ok listsThree twoTimelines _ (.refl _) rfl).2 ⟨2, 100⟩ (by decide) (by decide)]
  simp only [listsThree, if_true]
  rfl

end Tiko.Pitr

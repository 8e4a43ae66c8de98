import Tiko.Tikm.Format

/-!
# TIKM files are exact

* `Wire.contents`: the logical manifest of what is stored;
* `Represents`: a file holds the contents of a logical manifest;
* `Built`: the manifests that the operations build, with their contents.

**`exact_of_built`**: a built file opens as the manifest it was published as, its tables are the sorted
contents, the lookups return what the contents hold, and the bytes that a fold stores give the file
that it commits.
-/

namespace Tiko

open Lib Lib.Bytes

/-- The contents of what is stored. -/
def Wire.contents (w : Wire) : Manifest :=
  ⟨w.checkpoint, w.redoCkpt, w.timestamp.toInt, SortedMap.empty.insertAll w.chunks, w.metaMap,
    w.pgState⟩

namespace Tikm

/-- **A file holds the contents of a logical manifest.** -/
structure Represents (f : Tikm) (m : Manifest) : Prop where
  checkpoint : f.checkpoint = m.checkpoint
  redoCkpt : f.redoCkpt = m.redoCkpt
  timestamp : f.timestamp.toInt = m.timestamp
  pgState : f.pgState = m.pgState
  entryCount : f.entryCount = m.chunks.entries.length
  metaCount : f.metaCount = m.metas.entries.length
  file : f.file = tikmBytes f.checkpoint f.redoCkpt f.timestamp m.chunks.entries m.metas.entries
    f.pgState
  fits : f.file.length < 2 ^ 63

/-! ## Reading a file -/

section Reading

variable {file a b c : Bytes} {offset n : ℕ}

theorem ok_bind {α β : Type} (x : α) (g : α → Except Error β) : (Except.ok x >>= g) = g x := rfl

/-- What stands at an offset is read. -/
theorem pread_eq (h : file = a ++ (b ++ c)) (ha : a.length = offset) (hb : b.length = n) :
    pread file offset n = .ok b := by
  unfold pread
  rw [h, List.drop_left' ha, List.take_left' hb]
  exact if_pos hb

theorem toNat_u64At {buf : Bytes} {i : ℕ} (h : (buf.drop i).take 8 = le 8 n) (hn : n < 2 ^ 64) :
    (u64At buf i).toNat = n := by
  unfold u64At
  rw [h, ofLe_le (lt_of_lt_of_eq hn (by decide)), UInt64.toNat_ofNat_of_lt' hn]

end Reading

variable {f : Tikm} {m : Manifest}

namespace Represents

theorem length_file (h : Represents f m) : f.file.length = 48 + m.chunks.entries.length * 40 + 8 +
    m.metas.entries.length * 24 + 8 + f.pgState.length := by
  have hheader : (tikmHeader f.checkpoint f.redoCkpt f.timestamp m.chunks.entries.length).length =
    48 := rfl
  rw [h.file]
  unfold tikmBytes
  simp only [List.length_append, hheader, Record.length_table, length_le]
  rw [show chunkRecord.size = 40 from rfl, show metaRecord.size = 24 from rfl]
  omega

/-- The file from the chunk table on. -/
theorem file_eq (h : Represents f m) :
    f.file = tikmHeader f.checkpoint f.redoCkpt f.timestamp m.chunks.entries.length ++
      (chunkRecord.table m.chunks.entries ++ (le 8 m.metas.entries.length ++
        (metaRecord.table m.metas.entries ++ (le 8 f.pgState.length ++ f.pgState)))) := h.file

/-- The file in front of the count of the metadata table and behind it. -/
theorem file_eq_count (h : Represents f m) :
    f.file = (tikmHeader f.checkpoint f.redoCkpt f.timestamp m.chunks.entries.length ++
      chunkRecord.table m.chunks.entries) ++ (le 8 m.metas.entries.length ++
        (metaRecord.table m.metas.entries ++ (le 8 f.pgState.length ++ f.pgState))) := by
  rw [h.file_eq, List.append_assoc]

/-- The file in front of the metadata table and behind it. -/
theorem file_eq_meta (h : Represents f m) :
    f.file = (tikmHeader f.checkpoint f.redoCkpt f.timestamp m.chunks.entries.length ++
      (chunkRecord.table m.chunks.entries ++ le 8 m.metas.entries.length)) ++
        (metaRecord.table m.metas.entries ++ (le 8 f.pgState.length ++ f.pgState)) := by
  rw [h.file_eq]
  simp only [List.append_assoc]

/-- The file in front of the trailer. -/
theorem file_eq_trailer (h : Represents f m) :
    f.file = (tikmHeader f.checkpoint f.redoCkpt f.timestamp m.chunks.entries.length ++
      (chunkRecord.table m.chunks.entries ++ (le 8 m.metas.entries.length ++
        metaRecord.table m.metas.entries))) ++ (le 8 f.pgState.length ++ (f.pgState ++ [])) := by
  rw [h.file_eq]
  simp only [List.append_assoc, List.append_nil]

theorem length_header (f : Tikm) (n : ℕ) :
    (tikmHeader f.checkpoint f.redoCkpt f.timestamp n).length = 48 := rfl

theorem length_chunks (m : Manifest) :
    (chunkRecord.table m.chunks.entries).length = m.chunks.entries.length * 40 :=
  chunkRecord.length_table _

theorem length_metas (m : Manifest) :
    (metaRecord.table m.metas.entries).length = m.metas.entries.length * 24 :=
  metaRecord.length_table _

theorem metaBodyOffset_eq (h : Represents f m) :
    f.metaBodyOffset = 48 + m.chunks.entries.length * 40 + 8 := by
  rw [metaBodyOffset, metaHeaderOffset, h.entryCount]

/-! ## The tables -/

theorem readAllEntries (h : Represents f m) : f.readAllEntries = .ok m.chunks.entries := by
  unfold Tikm.readAllEntries
  rw [h.entryCount]
  split_ifs with h0
  · rw [List.length_eq_zero_iff.mp h0]
  · rw [pread_eq h.file_eq (length_header f _) (length_chunks m)]
    exact congrArg Except.ok (chunkRecord.readTable_table _)

theorem readAllMetaEntries (h : Represents f m) : f.readAllMetaEntries = .ok m.metas.entries := by
  unfold Tikm.readAllMetaEntries
  rw [h.metaCount]
  split_ifs with h0
  · rw [List.length_eq_zero_iff.mp h0]
  · have hoff : (tikmHeader f.checkpoint f.redoCkpt f.timestamp m.chunks.entries.length ++
        (chunkRecord.table m.chunks.entries ++ le 8 m.metas.entries.length)).length =
        f.metaBodyOffset := by
      rw [List.length_append, List.length_append, length_header, length_chunks, length_le,
        h.metaBodyOffset_eq]
      omega
    rw [pread_eq h.file_eq_meta hoff (length_metas m)]
    exact congrArg Except.ok (metaRecord.readTable_table _)

theorem readEntry (h : Represents f m) {i : ℕ} (hi : i < m.chunks.entries.length) :
    f.readEntry i = .ok m.chunks.entries[i] := by
  have hsplit := h.file_eq
  rw [chunkRecord.table_eq _ hi, List.append_assoc, ← List.append_assoc, List.append_assoc
    (chunkRecord.write _)] at hsplit
  have hoff : (tikmHeader f.checkpoint f.redoCkpt f.timestamp m.chunks.entries.length ++
      chunkRecord.table (m.chunks.entries.take i)).length = 48 + i * 40 := by
    rw [List.length_append, length_header, Record.length_table, List.length_take,
      Nat.min_eq_left hi.le]
    rfl
  have hread : pread f.file (48 + i * 40) 40 = .ok (chunkRecord.write m.chunks.entries[i]) :=
    pread_eq hsplit hoff (chunkRecord.length_write _)
  unfold Tikm.readEntry
  rw [hread]
  exact congrArg Except.ok (chunkRecord.read_write _)

theorem readMetaEntry (h : Represents f m) {i : ℕ} (hi : i < m.metas.entries.length) :
    f.readMetaEntry i = .ok m.metas.entries[i] := by
  have hsplit := h.file_eq_meta
  rw [metaRecord.table_eq _ hi, List.append_assoc (metaRecord.table _), ← List.append_assoc,
    List.append_assoc (metaRecord.write _)] at hsplit
  have hoff : ((tikmHeader f.checkpoint f.redoCkpt f.timestamp m.chunks.entries.length ++
      (chunkRecord.table m.chunks.entries ++ le 8 m.metas.entries.length)) ++
        metaRecord.table (m.metas.entries.take i)).length = f.metaBodyOffset + i * 24 := by
    rw [List.length_append, List.length_append, List.length_append, length_header, length_chunks,
      length_le, Record.length_table, List.length_take, Nat.min_eq_left hi.le, h.metaBodyOffset_eq,
      show metaRecord.size = 24 from rfl]
    omega
  have hread : pread f.file (f.metaBodyOffset + i * 24) 24 =
      .ok (metaRecord.write m.metas.entries[i]) :=
    pread_eq hsplit hoff (metaRecord.length_write _)
  unfold Tikm.readMetaEntry
  rw [hread]
  exact congrArg Except.ok (metaRecord.read_write _)

/-! ## Opening -/

theorem readPgState (h : Represents f m) : Tikm.readPgState f.file
    (48 + m.chunks.entries.length * 40 + 8 + m.metas.entries.length * 24) = .ok f.pgState := by
  have hfits := h.fits
  have hlen := h.length_file
  have hoff : (tikmHeader f.checkpoint f.redoCkpt f.timestamp m.chunks.entries.length ++
      (chunkRecord.table m.chunks.entries ++ (le 8 m.metas.entries.length ++
        metaRecord.table m.metas.entries))).length =
      48 + m.chunks.entries.length * 40 + 8 + m.metas.entries.length * 24 := by
    rw [List.length_append, List.length_append, List.length_append, length_header, length_chunks,
      length_metas, length_le]
    omega
  have hlenBuf : pread f.file
      (48 + m.chunks.entries.length * 40 + 8 + m.metas.entries.length * 24) 8 =
      .ok (le 8 f.pgState.length) := pread_eq h.file_eq_trailer hoff (length_le 8 _)
  have hcount : (u64At (le 8 f.pgState.length) 0).toNat = f.pgState.length :=
    toNat_u64At rfl (by omega)
  unfold Tikm.readPgState
  rw [hlenBuf, ok_bind]
  dsimp only
  rw [hcount]
  split_ifs with h0
  · rw [List.length_eq_zero_iff.mp h0]
  · have hsplit := h.file_eq_trailer
    rw [← List.append_assoc] at hsplit
    refine pread_eq hsplit ?_ rfl
    rw [List.length_append, hoff, length_le]

/-- **A published file opens as the manifest it was published as.** -/
theorem openLocal (h : Represents f m) : Tikm.openLocal f.file = .ok f := by
  have hfits := h.fits
  have hlen := h.length_file
  have hheader : pread f.file 0 48 =
      .ok (tikmHeader f.checkpoint f.redoCkpt f.timestamp m.chunks.entries.length) :=
    pread_eq (a := []) h.file_eq rfl (length_header f _)
  have hoff : (tikmHeader f.checkpoint f.redoCkpt f.timestamp m.chunks.entries.length ++
      chunkRecord.table m.chunks.entries).length = 48 + m.chunks.entries.length * 40 := by
    rw [List.length_append, length_header, length_chunks]
  have hcount : pread f.file (48 + m.chunks.entries.length * 40) 8 =
      .ok (le 8 m.metas.entries.length) := pread_eq h.file_eq_count hoff (length_le 8 _)
  have hentries : (u64At (tikmHeader f.checkpoint f.redoCkpt f.timestamp
      m.chunks.entries.length) 40).toNat = m.chunks.entries.length := toNat_u64At rfl (by omega)
  have hmetas : (u64At (le 8 m.metas.entries.length) 0).toNat = m.metas.entries.length :=
    toNat_u64At rfl (by omega)
  unfold Tikm.openLocal
  have hmagic : (tikmHeader f.checkpoint f.redoCkpt f.timestamp m.chunks.entries.length).take 4 =
      tikmMagic := rfl
  rw [hheader, ok_bind, hmagic, if_neg (not_not.mpr rfl), u32At_eq (x := tikmVersion) rfl,
    if_neg (not_not.mpr rfl)]
  dsimp only
  rw [hentries, hcount, ok_bind, hmetas, h.readPgState, ok_bind, u32At_eq (x := f.checkpoint.timelineId) rfl,
    u64At_eq (x := f.checkpoint.lsn) rfl, u32At_eq (x := f.redoCkpt.timelineId) rfl,
    u64At_eq (x := f.redoCkpt.lsn) rfl, u64At_eq (x := f.timestamp.toUInt64) rfl,
    Int64.toInt64_toUInt64, ← h.entryCount, ← h.metaCount]
  rfl

end Represents

/-! ## Lookups -/

section Search

variable {K V : Type} [LinearOrder K]

/-- The key of an entry. Behind the table it is the one that is searched for. -/
def keyAt (l : List (K × V)) (key : K) (i : ℕ) : K := (l[i]?.map Prod.fst).getD key

omit [LinearOrder K] in
theorem keyAt_of_lt {l : List (K × V)} {key : K} {i : ℕ} (hi : i < l.length) :
    keyAt l key i = l[i].1 := by
  unfold keyAt
  rw [List.getElem?_eq_getElem hi]
  rfl

/-- The loop is the binary search over the keys. -/
theorem searchFrom_eq {l : List (K × V)} {read : ℕ → Except Error (K × V)}
    (hread : ∀ i (hi : i < l.length), read i = .ok l[i]) {key : K} (fuel lo hi : ℕ)
    (hhi : hi ≤ l.length) : searchFrom read key fuel lo hi =
      .ok ((bsearchFrom (keyAt l key) key fuel lo hi).bind fun i => l[i]?.map Prod.snd) := by
  induction fuel generalizing lo hi with
  | zero => rfl
  | succ fuel ih =>
    unfold searchFrom bsearchFrom
    by_cases hlt : lo < hi
    · have hmid : lo + (hi - lo) / 2 < l.length := by omega
      rw [if_pos hlt, if_pos hlt]
      dsimp only
      rw [hread _ hmid, keyAt_of_lt hmid]
      dsimp only
      split_ifs with heq hless
      · rw [Option.bind_some, List.getElem?_eq_getElem hmid]
        rfl
      · exact ih _ _ hhi
      · exact ih _ _ hmid.le
    · rw [if_neg hlt, if_neg hlt]
      rfl

/-- **The search of a sorted table is the lookup in the map.** -/
theorem searchFrom_lookup (t : SortedMap K V) {read : ℕ → Except Error (K × V)}
    (hread : ∀ i (hi : i < t.entries.length), read i = .ok t.entries[i]) (key : K) :
    searchFrom read key t.entries.length 0 t.entries.length = .ok (t.lookup key) := by
  have hasc : AscendingBelow (keyAt t.entries key) t.entries.length := by
    intro i j hij hj
    rw [keyAt_of_lt hj, keyAt_of_lt (hij.trans hj)]
    exact List.pairwise_iff_getElem.mp t.sorted i j (hij.trans hj) hj hij
  rw [searchFrom_eq hread _ _ _ le_rfl]
  congr 1
  cases hsearch : bsearchFrom (keyAt t.entries key) key t.entries.length 0 t.entries.length with
  | none =>
    have hnone := (bsearch_eq_none_iff hasc).mp hsearch
    cases hlookup : t.lookup key with
    | none => rfl
    | some v =>
      obtain ⟨i, hi, hget⟩ := List.getElem_of_mem ((t.mem_entries_iff key v).mpr hlookup)
      exact absurd ((keyAt_of_lt hi).trans (congrArg Prod.fst hget)) (hnone i hi)
  | some i =>
    obtain ⟨hi, hkey⟩ := (bsearch_eq_some_iff hasc).mp hsearch
    rw [keyAt_of_lt hi] at hkey
    rw [Option.bind_some, List.getElem?_eq_getElem hi, Option.map_some]
    refine ((t.mem_entries_iff key _).mp ?_).symm
    rw [← hkey]
    exact List.getElem_mem hi

end Search

namespace Represents

theorem lookup (h : Represents f m) (tag : ChunkTag) : f.lookup tag = .ok (m.lookup tag) := by
  unfold Tikm.lookup
  rw [h.entryCount]
  split_ifs with h0
  · rw [Manifest.lookup, SortedMap.lookup, List.length_eq_zero_iff.mp h0]
    rfl
  · exact searchFrom_lookup m.chunks (fun i hi => h.readEntry hi) tag

theorem lookupRelforkMeta (h : Represents f m) (rf : RelFork) :
    f.lookupRelforkMeta rf = .ok (m.lookupRelforkMeta rf) := by
  unfold Tikm.lookupRelforkMeta
  rw [h.metaCount]
  split_ifs with h0
  · rw [Manifest.lookupRelforkMeta, SortedMap.lookup, List.length_eq_zero_iff.mp h0]
    rfl
  · exact searchFrom_lookup m.metas (fun i hi => h.readMetaEntry hi) rf

end Represents

/-! ## Building -/

/-- A sort of a list with distinct tags gives the map of the list. -/
theorem sort_eq (S : TagSort) {chunks : List (ChunkTag × ChunkRef)}
    (hnodup : (chunks.map Prod.fst).Nodup) :
    S.sort chunks = (SortedMap.empty.insertAll chunks).entries := by
  have hne : (S.sort chunks).Pairwise fun a b => a.1 ≠ b.1 :=
    List.pairwise_map.mp (((S.perm chunks).map Prod.fst).nodup_iff.mpr hnodup)
  have hsorted : (S.sort chunks).Pairwise fun a b => a.1 < b.1 :=
    ((S.pairwise chunks).and hne).imp fun {a b} h => lt_of_le_of_ne h.1 h.2
  have hmap : (⟨S.sort chunks, hsorted⟩ : SortedMap ChunkTag ChunkRef) =
      SortedMap.empty.insertAll chunks := by
    refine SortedMap.ext_lookup fun tag => ?_
    rw [SortedMap.lookup_insertAll_of_mem_iff (o := SortedMap.lookup ⟨S.sort chunks, hsorted⟩ tag),
      SortedMap.lookup_empty, Option.or_none]
    intro v
    rw [← S.mem_sort]
    exact SortedMap.mem_entries_iff ⟨S.sort chunks, hsorted⟩ tag v
  exact congrArg SortedMap.entries hmap

/-- A manifest whose file is not too long is built. -/
theorem new_of_length_lt {S : TagSort} {w : Wire}
    (h : (tikmBytes w.checkpoint w.redoCkpt w.timestamp (S.sort w.chunks) w.metaMap.entries
      w.pgState).length < 2 ^ 63) :
    Tikm.new S w = .ok ⟨w.checkpoint, w.redoCkpt, w.pgState, w.timestamp,
      tikmBytes w.checkpoint w.redoCkpt w.timestamp (S.sort w.chunks) w.metaMap.entries w.pgState,
      (S.sort w.chunks).length, w.metaMap.entries.length⟩ := by
  unfold Tikm.new writeTikm
  dsimp only
  rw [if_pos h]
  rfl

theorem represents_new {S : TagSort} {w : Wire} (hnodup : (w.chunks.map Prod.fst).Nodup)
    (h : Tikm.new S w = .ok f) : Represents f w.contents := by
  unfold Tikm.new writeTikm at h
  rw [sort_eq S hnodup] at h
  dsimp only at h
  split_ifs at h with hfits
  · obtain rfl := Except.ok.inj h
    exact ⟨rfl, rfl, rfl, rfl, rfl, rfl, rfl, hfits⟩
  · exact absurd h (by simp [Except.map])

theorem toInt_maxTimestamp (a b : Int64) : (maxTimestamp a b).toInt = max a.toInt b.toInt := by
  unfold maxTimestamp
  split_ifs with h
  · exact (max_eq_right (Int64.le_iff_toInt_le.mp h)).symm
  · have hlt : b.toInt < a.toInt := not_le.mp fun hle => h (Int64.le_iff_toInt_le.mpr hle)
    exact (max_eq_left hlt.le).symm

/-- The wire form of a fold of checkpoints into a manifest. -/
def foldedWire (S : Manifest.CombinedSort) (f : Tikm) (m : Manifest)
    (segments : List SegmentCheckpoint) (dbId : UInt64) (now : Int64) : Wire :=
  let m' := m.applySegments S segments dbId now.toInt
  ⟨m'.checkpoint, m'.redoCkpt, maxTimestamp now f.timestamp, m'.chunks.entries, m'.metas, m'.pgState⟩

/-- **A fold writes the fold of the contents**, to the storage and to what is committed. -/
theorem applySegments_spec {codec : WireCodec} {S : Manifest.CombinedSort} (h : Represents f m)
    {segments : List SegmentCheckpoint} {dbId : UInt64} {now : Int64} {a : AppliedManifest}
    (ha : f.applySegments codec S segments dbId now = .ok a) :
    ∃ w, w = foldedWire S f m segments dbId now ∧ codec.encode w = .ok a.bytes ∧
      a = ⟨w.checkpoint, w.redoCkpt, w.timestamp, w.chunks, w.metaMap.entries, w.pgState, a.bytes⟩ := by
  unfold Tikm.applySegments at ha
  rw [h.readAllEntries, ok_bind, h.readAllMetaEntries, ok_bind, SortedMap.insertAll_entries,
    h.checkpoint, h.redoCkpt, h.pgState] at ha
  refine ⟨_, rfl, ?_⟩
  cases hbytes : codec.encode (foldedWire S f m segments dbId now) with
  | error e =>
    change (codec.encode (foldedWire S f m segments dbId now)).bind _ = _ at ha
    rw [hbytes] at ha
    exact absurd ha (by simp [Except.bind])
  | ok bytes =>
    change (codec.encode (foldedWire S f m segments dbId now)).bind _ = _ at ha
    rw [hbytes] at ha
    obtain rfl := Except.ok.inj ha
    exact ⟨rfl, rfl⟩

theorem nodup_entries (t : SortedMap ChunkTag ChunkRef) : (t.entries.map Prod.fst).Nodup :=
  List.pairwise_map.mpr (t.sorted.imp fun {_ _} h => ne_of_lt h)

theorem represents_commitApplied {codec : WireCodec} {S : Manifest.CombinedSort}
    (h : Represents f m) {segments : List SegmentCheckpoint} {dbId : UInt64} {now : Int64}
    {a : AppliedManifest} {f' : Tikm} (ha : f.applySegments codec S segments dbId now = .ok a)
    (hf' : commitApplied a = .ok f') :
    Represents f' (m.applySegments S segments dbId now.toInt) := by
  obtain ⟨w, rfl, -, hw⟩ := applySegments_spec h ha
  rw [hw] at hf'
  unfold commitApplied writeTikm at hf'
  dsimp only at hf'
  split_ifs at hf' with hfits
  · obtain rfl := Except.ok.inj hf'
    refine ⟨rfl, rfl, ?_, rfl, rfl, rfl, rfl, hfits⟩
    change (maxTimestamp now f.timestamp).toInt = max now.toInt m.timestamp
    rw [toInt_maxTimestamp, h.timestamp]
  · exact absurd hf' (by simp [Except.map])

theorem new_of_sort_eq {T : TagSort} {w : Wire} (h : T.sort w.chunks = w.chunks) (bytes : Bytes) :
    Tikm.new T w = commitApplied ⟨w.checkpoint, w.redoCkpt, w.timestamp, w.chunks,
      w.metaMap.entries, w.pgState, bytes⟩ := by
  unfold Tikm.new
  rw [h]
  rfl

/-- **The bytes that a fold stores give the file that it commits.** -/
theorem fromBytes_applySegments {codec : WireCodec} {S : Manifest.CombinedSort}
    (h : Represents f m) {segments : List SegmentCheckpoint} {dbId : UInt64} {now : Int64}
    {a : AppliedManifest} (ha : f.applySegments codec S segments dbId now = .ok a) (T : TagSort) :
    fromBytes codec T a.bytes = commitApplied a := by
  obtain ⟨w, rfl, hbytes, hw⟩ := applySegments_spec h ha
  have hdecode := codec.decode_encode _ _ hbytes
  have hsort : T.sort (foldedWire S f m segments dbId now).chunks =
      (foldedWire S f m segments dbId now).chunks := by
    change T.sort (m.applySegments S segments dbId now.toInt).chunks.entries =
      (m.applySegments S segments dbId now.toInt).chunks.entries
    rw [sort_eq T (nodup_entries _), SortedMap.insertAll_entries]
  unfold fromBytes
  rw [hdecode, hw]
  exact new_of_sort_eq hsort a.bytes

/-! ## Built manifests -/

/-- The manifests that the operations build, with their contents: the empty one, those of a list with
distinct tags, given or read from the storage, and folds into built ones. -/
inductive Built (codec : WireCodec) (T : TagSort) (S : Manifest.CombinedSort) :
    Tikm → Manifest → Prop
  | empty {f : Tikm} (h : Tikm.empty T = .ok f) : Built codec T S f .empty
  | new {w : Wire} {f : Tikm} (hnodup : (w.chunks.map Prod.fst).Nodup)
      (h : Tikm.new T w = .ok f) : Built codec T S f w.contents
  | fromBytes {data : Bytes} {w : Wire} {f : Tikm} (hw : codec.decode data = .ok w)
      (hnodup : (w.chunks.map Prod.fst).Nodup) (h : Tikm.fromBytes codec T data = .ok f) :
      Built codec T S f w.contents
  | apply {f f' : Tikm} {m : Manifest} {segments : List SegmentCheckpoint} {dbId : UInt64}
      {now : Int64} {a : AppliedManifest} (h : Built codec T S f m)
      (ha : f.applySegments codec S segments dbId now = .ok a) (hf' : commitApplied a = .ok f') :
      Built codec T S f' (m.applySegments S segments dbId now.toInt)

theorem Built.represents {codec : WireCodec} {T : TagSort} {S : Manifest.CombinedSort}
    (h : Built codec T S f m) : Represents f m := by
  induction h with
  | empty h => exact represents_new (w := ⟨default, default, 0, [], .empty, []⟩) .nil h
  | new hnodup h => exact represents_new hnodup h
  | fromBytes hw hnodup h =>
    unfold Tikm.fromBytes at h
    rw [hw] at h
    exact represents_new hnodup h
  | apply h ha hf' ih => exact represents_commitApplied ih ha hf'

/-- **Built files are exact.** Such a file has the header fields and counts of its contents and opens
with them; its tables are the contents in strictly ascending order; the lookups return what the
contents hold; and the bytes that a fold into it stores give the file that the fold commits. -/
theorem exact_of_built {codec : WireCodec} {T : TagSort} {S : Manifest.CombinedSort}
    (h : Built codec T S f m) :
    (f.checkpoint = m.checkpoint ∧ f.redoCkpt = m.redoCkpt ∧ f.timestamp.toInt = m.timestamp ∧
      f.pgState = m.pgState ∧ f.entryCount = m.chunks.entries.length ∧
      f.metaCount = m.metas.entries.length) ∧
    openLocal f.file = .ok f ∧
    (∃ chunks, f.readAllEntries = .ok chunks ∧ chunks = m.chunks.entries ∧
      chunks.Pairwise fun a b => a.1 < b.1) ∧
    (∃ metas, f.readAllMetaEntries = .ok metas ∧ metas = m.metas.entries ∧
      metas.Pairwise fun a b => a.1 < b.1) ∧
    (∀ tag, f.lookup tag = .ok (m.lookup tag)) ∧
    (∀ rf, f.lookupRelforkMeta rf = .ok (m.lookupRelforkMeta rf)) ∧
    ∀ segments dbId now a, f.applySegments codec S segments dbId now = .ok a →
      Tikm.fromBytes codec T a.bytes = commitApplied a := by
  have hrep := h.represents
  exact ⟨⟨hrep.checkpoint, hrep.redoCkpt, hrep.timestamp, hrep.pgState, hrep.entryCount,
    hrep.metaCount⟩, hrep.openLocal, ⟨_, hrep.readAllEntries, rfl, m.chunks.sorted⟩,
    ⟨_, hrep.readAllMetaEntries, rfl, m.metas.sorted⟩, hrep.lookup, hrep.lookupRelforkMeta,
    fun _ _ _ _ ha => fromBytes_applySegments hrep ha T⟩

end Tikm

end Tiko

import Tiko.Locator.Order

/-!
# The keys of the storage

All objects of all databases share one tree of paths. `Locator` has nine functions that build keys, of
decimal and hexadecimal fields; the file-backed store makes paths of them, in which repeated slashes are
one.

* `KeyCall`: a call of a key function, `key` its text and `comps` the components of its path;
* `KeyCall.Same`: calls of the same kind with equal arguments. A chunk of a database is also reached
  through a reference to it, from any database of its organisation.

**`keys_do_not_collide`**: only the same calls give the same path, and no path is a directory of
another. Both come from `prefix_comps_iff`: the components of a call never begin those of another.
-/

namespace Tiko.Locator

open Lib Pitr

/-! ## The key functions -/

/-- A decimal number, as `Display` writes it. -/
def dec (n : ℕ) : Str := Nat.toDigits 10 n

/-- A signed decimal number. -/
def decInt (i : ℤ) : Str := if i < 0 then '-' :: dec i.natAbs else dec i.natAbs

/-- The `Display` of a relation fork. -/
def relForkFmt (rf : RelFork) : Str :=
  dec rf.spcOid.toNat ++ ['/'] ++ dec rf.dbOid.toNat ++ ['/'] ++ dec rf.relNumber.toNat ++ ['.'] ++
    decInt rf.forkNumber.toInt

/-- `Checkpoint::to_path_string`. -/
def toPathString (ckpt : Checkpoint) : Str := ckpt.timelineId.toHex ++ ['/'] ++ lsnToHex ckpt.lsn

/-- `Locator::db_meta`. -/
def dbMeta (ns : DbNamespace) : Str :=
  ns.fmt ++ ['/', 'd', 'b', '_', 'm', 'e', 't', 'a', '.', 'j', 's', 'o', 'n']

/-- `Locator::chunk`. -/
def chunk (ns : DbNamespace) (tag : ChunkTag) (ckpt : Checkpoint) : Str :=
  ns.fmt ++ ['/', 'c', 'h', 'u', 'n', 'k', 's', '/'] ++ toPathString ckpt ++ ['/'] ++
    relForkFmt tag.relFork ++ ['/'] ++ dec tag.chunkId.toNat

/-- `Locator::chunk_in_db`. -/
def chunkInDb (ns : DbNamespace) (tag : ChunkTag) (ckpt : Checkpoint) (dbId : UInt64) : Str :=
  dec ns.orgId.toNat ++ ['/'] ++ dec dbId.toNat ++ ['/', 'c', 'h', 'u', 'n', 'k', 's', '/'] ++
    toPathString ckpt ++ ['/'] ++ relForkFmt tag.relFork ++ ['/'] ++ dec tag.chunkId.toNat

/-- `Locator::chunk_base`. -/
def chunkBase (ns : DbNamespace) (tag : ChunkTag) (chunkRef : ChunkRef) : Str :=
  chunkInDb ns tag ⟨chunkRef.timelineId, chunkRef.lsn⟩ chunkRef.dbId

/-- A WAL segment name: 24 hexadecimal digits. -/
abbrev SegName := { name : Str // isSegName name = true }

/-- A call of one of the key functions. -/
inductive KeyCall where
  | dbMeta (ns : DbNamespace)
  | chunk (ns : DbNamespace) (tag : ChunkTag) (ckpt : Checkpoint)
  | chunkBase (ns : DbNamespace) (tag : ChunkTag) (chunkRef : ChunkRef)
  | baseManifest (ns : DbNamespace) (ckpt : Checkpoint)
  | backupObject (ns : DbNamespace) (ckpt : Checkpoint)
  | backupMeta (ns : DbNamespace) (ckpt : Checkpoint)
  | timelineSegment (ns : DbNamespace) (id : SegmentId)
  | walSegment (ns : DbNamespace) (tl : TimelineId) (name : SegName)
  | walChunkKey (ns : DbNamespace) (tl : TimelineId) (name : SegName) (byteOffset : ℕ)

namespace KeyCall

/-- The key that a call returns. -/
def key : KeyCall → Str
  | dbMeta ns => Locator.dbMeta ns
  | chunk ns tag ckpt => Locator.chunk ns tag ckpt
  | chunkBase ns tag chunkRef => Locator.chunkBase ns tag chunkRef
  | baseManifest ns ckpt => Pitr.baseManifest ns ckpt
  | backupObject ns ckpt => Pitr.backupObject ns ckpt
  | backupMeta ns ckpt => Pitr.backupMeta ns ckpt
  | timelineSegment ns id => Pitr.timelineSegment ns id
  | walSegment ns tl name => Tiko.walSegment ns.fmt tl name
  | walChunkKey ns tl name byteOffset => Tiko.walChunkKey ns.fmt tl name byteOffset

/-- Two calls of the same kind with equal arguments. A chunk and a reference to it are one object; the
database through whose namespace a reference is read does not count. -/
def Same : KeyCall → KeyCall → Prop
  | dbMeta ns, dbMeta ns' => ns = ns'
  | chunk ns tag ckpt, chunk ns' tag' ckpt' => ns = ns' ∧ tag = tag' ∧ ckpt = ckpt'
  | chunk ns tag ckpt, chunkBase ns' tag' ref' =>
    ns.orgId = ns'.orgId ∧ tag = tag' ∧ ref' = ⟨ns.dbId, ckpt.timelineId, ckpt.lsn⟩
  | chunkBase ns tag ref, chunk ns' tag' ckpt' =>
    ns.orgId = ns'.orgId ∧ tag = tag' ∧ ref = ⟨ns'.dbId, ckpt'.timelineId, ckpt'.lsn⟩
  | chunkBase ns tag ref, chunkBase ns' tag' ref' =>
    ns.orgId = ns'.orgId ∧ tag = tag' ∧ ref = ref'
  | baseManifest ns ckpt, baseManifest ns' ckpt' => ns = ns' ∧ ckpt = ckpt'
  | backupObject ns ckpt, backupObject ns' ckpt' => ns = ns' ∧ ckpt = ckpt'
  | backupMeta ns ckpt, backupMeta ns' ckpt' => ns = ns' ∧ ckpt = ckpt'
  | timelineSegment ns id, timelineSegment ns' id' => ns = ns' ∧ id = id'
  | walSegment ns tl name, walSegment ns' tl' name' => ns = ns' ∧ tl = tl' ∧ name = name'
  | walChunkKey ns tl name off, walChunkKey ns' tl' name' off' =>
    ns = ns' ∧ tl = tl' ∧ name = name' ∧ off = off'
  | _, _ => False

/-! ## The components of a path -/

/-- The directory or file of a database that holds the object. -/
inductive Area where
  | dbMeta
  | chunks
  | bases
  | backup
  | timeline
  | wal
  deriving DecidableEq

/-- The name of an area. -/
def Area.name : Area → Str
  | dbMeta => ['d', 'b', '_', 'm', 'e', 't', 'a', '.', 'j', 's', 'o', 'n']
  | chunks => ['c', 'h', 'u', 'n', 'k', 's']
  | bases => ['b', 'a', 's', 'e', 's']
  | backup => ['b', 'a', 'c', 'k', 'u', 'p']
  | timeline => ['t', 'i', 'm', 'e', 'l', 'i', 'n', 'e']
  | wal => ['w', 'a', 'l']

theorem Area.name_inj {a b : Area} (h : a.name = b.name) : a = b := by
  cases a <;> cases b <;> first | rfl | exact absurd h (by decide)

/-- The components of a chunk below its area. -/
def chunkComps (tag : ChunkTag) (ckpt : Checkpoint) : List Str :=
  [ckpt.timelineId.toHex, lsnToHex ckpt.lsn, dec tag.spcOid.toNat, dec tag.dbOid.toNat,
    dec tag.relNumber.toNat ++ '.' :: decInt tag.forkNumber.toInt, dec tag.chunkId.toNat]

/-- The name of the directory of a segment's chunks. -/
def chunksDir (name : Str) : Str := name ++ ['.', 'c', 'h', 'u', 'n', 'k', 's']

/-- The organisation of a call. -/
def orgId : KeyCall → UInt64
  | dbMeta ns | chunk ns _ _ | chunkBase ns _ _ | baseManifest ns _ | backupObject ns _
  | backupMeta ns _ | timelineSegment ns _ | walSegment ns _ _ | walChunkKey ns _ _ _ => ns.orgId

/-- The database whose object a call names. -/
def dbId : KeyCall → UInt64
  | chunkBase _ _ ref => ref.dbId
  | dbMeta ns | chunk ns _ _ | baseManifest ns _ | backupObject ns _
  | backupMeta ns _ | timelineSegment ns _ | walSegment ns _ _ | walChunkKey ns _ _ _ => ns.dbId

/-- The area of the object. -/
def area : KeyCall → Area
  | dbMeta _ => .dbMeta
  | chunk _ _ _ | chunkBase _ _ _ => .chunks
  | baseManifest _ _ => .bases
  | backupObject _ _ | backupMeta _ _ => .backup
  | timelineSegment _ _ => .timeline
  | walSegment _ _ _ | walChunkKey _ _ _ _ => .wal

/-- The components below the area, as the key has them. -/
def rawRest : KeyCall → List Str
  | dbMeta _ => []
  | chunk _ tag ckpt => chunkComps tag ckpt
  | chunkBase _ tag ref => chunkComps tag ⟨ref.timelineId, ref.lsn⟩
  | baseManifest _ ckpt => [ckpt.timelineId.toHex, lsnToHex ckpt.lsn ++ manifestSuffix]
  | backupObject _ ckpt =>
    [ckpt.timelineId.toHex, lsnToHex ckpt.lsn ++ ['.', 't', 'a', 'r', '.', 'z', 's', 't']]
  | backupMeta _ ckpt => [ckpt.timelineId.toHex, lsnToHex ckpt.lsn ++ jsonSuffix]
  | timelineSegment _ id => [id.timelineId.toHex, Hex.fmt 16 id.index.toNat ++ segmentSuffix]
  | walSegment _ tl name => [tl.toHex, name]
  | walChunkKey _ tl name off => [tl.toHex, chunksDir name, [], Hex.fmt 16 off]

/-- The components below the area, without empty ones. -/
def rest (c : KeyCall) : List Str := c.rawRest.filter (· ≠ [])

/-- The components of the path. -/
def comps (c : KeyCall) : List Str :=
  dec c.orgId.toNat :: dec c.dbId.toNat :: c.area.name :: c.rest

/-- The components of the key. -/
def rawComps (c : KeyCall) : List Str :=
  dec c.orgId.toNat :: dec c.dbId.toNat :: c.area.name :: c.rawRest

theorem key_eq (c : KeyCall) : c.key = ['/'].intercalate c.rawComps := by
  cases c <;>
    simp [key, rawComps, rawRest, orgId, dbId, area, Area.name, Locator.dbMeta, Locator.chunk,
      Locator.chunkBase, chunkInDb, chunkComps, toPathString, relForkFmt, ChunkTag.relFork,
      Pitr.baseManifest, basesDir, Pitr.backupObject, Pitr.backupMeta, backupDir,
      Pitr.timelineSegment, timelineSegmentsDir, Tiko.walSegment, Tiko.walChunkKey, walChunkPrefix,
      chunksSep, chunksDir, DbNamespace.fmt, dec, List.intercalate, List.intersperse]

/-! ### Components have no slash -/

theorem slash_notMem_dec (n : ℕ) : '/' ∉ dec n := slash_notMem_toDigits n

theorem slash_notMem_decInt (i : ℤ) : '/' ∉ decInt i := by
  unfold decInt
  split_ifs
  · rw [List.mem_cons, not_or]
    exact ⟨by decide, slash_notMem_dec _⟩
  · exact slash_notMem_dec _

theorem slash_notMem_name (a : Area) : '/' ∉ a.name := by cases a <;> decide

theorem slash_notMem_lsnToHex (lsn : Lsn) : '/' ∉ lsnToHex lsn := slash_notMem_fmt 16 _

theorem slash_notMem_append {s t : Str} (hs : '/' ∉ s) (ht : '/' ∉ t) : '/' ∉ s ++ t := by
  rw [List.mem_append, not_or]
  exact ⟨hs, ht⟩

theorem slash_notMem_segName (name : SegName) : '/' ∉ name.1 := by
  intro h
  have hname := name.2
  rw [isSegName, Bool.and_eq_true, List.all_eq_true] at hname
  exact absurd (hname.2 '/' h) (by decide)

theorem slash_notMem_chunkComps (tag : ChunkTag) (ckpt : Checkpoint) :
    ∀ x ∈ chunkComps tag ckpt, '/' ∉ x := by
  intro x hx
  simp only [chunkComps, List.mem_cons, List.not_mem_nil, or_false] at hx
  rcases hx with rfl | rfl | rfl | rfl | rfl | rfl
  · exact slash_notMem_toHex _
  · exact slash_notMem_lsnToHex _
  · exact slash_notMem_dec _
  · exact slash_notMem_dec _
  · refine slash_notMem_append (slash_notMem_dec _) ?_
    rw [List.mem_cons, not_or]
    exact ⟨by decide, slash_notMem_decInt _⟩
  · exact slash_notMem_dec _

/-- A timeline with one more component. -/
theorem slash_notMem_pair {tl : TimelineId} {s : Str} (hs : '/' ∉ s) :
    ∀ x ∈ [tl.toHex, s], '/' ∉ x := by
  intro x hx
  rcases List.mem_pair.mp hx with rfl | rfl
  · exact slash_notMem_toHex tl
  · exact hs

theorem slash_notMem_rawRest (c : KeyCall) : ∀ x ∈ c.rawRest, '/' ∉ x := by
  cases c with
  | dbMeta ns => exact fun x hx => absurd hx List.not_mem_nil
  | chunk ns tag ckpt => exact slash_notMem_chunkComps tag ckpt
  | chunkBase ns tag ref => exact slash_notMem_chunkComps tag _
  | baseManifest ns ckpt | backupObject ns ckpt | backupMeta ns ckpt =>
    exact slash_notMem_pair (slash_notMem_append (slash_notMem_lsnToHex _) (by decide))
  | timelineSegment ns id =>
    exact slash_notMem_pair (slash_notMem_append (slash_notMem_fmt 16 _) (by decide))
  | walSegment ns tl name => exact slash_notMem_pair (slash_notMem_segName name)
  | walChunkKey ns tl name off =>
    intro x hx
    simp only [rawRest, List.mem_cons, List.not_mem_nil, or_false] at hx
    rcases hx with rfl | rfl | rfl | rfl
    · exact slash_notMem_toHex tl
    · exact slash_notMem_append (slash_notMem_segName name) (by decide)
    · exact List.not_mem_nil
    · exact slash_notMem_fmt 16 off

theorem slash_notMem_rawComps (c : KeyCall) : ∀ x ∈ c.rawComps, '/' ∉ x := by
  intro x hx
  simp only [rawComps, List.mem_cons] at hx
  rcases hx with rfl | rfl | rfl | hx
  · exact slash_notMem_dec _
  · exact slash_notMem_dec _
  · exact slash_notMem_name _
  · exact slash_notMem_rawRest c x hx

theorem slash_notMem_comps (c : KeyCall) : ∀ x ∈ c.comps, '/' ∉ x := by
  intro x hx
  simp only [comps, List.mem_cons] at hx
  rcases hx with rfl | rfl | rfl | hx
  · exact slash_notMem_dec _
  · exact slash_notMem_dec _
  · exact slash_notMem_name _
  · exact slash_notMem_rawRest c x (List.mem_of_mem_filter hx)

/-- **The path of a key is its non-empty components.** -/
theorem norm_key (c : KeyCall) : norm c.key = ['/'].intercalate c.comps := by
  have hdec : ∀ n, dec n ≠ [] := fun n => Nat.toDigits_ne_nil
  have hname : ∀ a : Area, a.name ≠ [] := fun a => by cases a <;> decide
  have hfilter : c.rawComps.filter (· ≠ []) = c.comps := by
    simp [rawComps, comps, rest, hdec, hname]
  rw [key_eq, norm_intercalate (slash_notMem_rawComps c) (by simp [rawComps]), hfilter]

/-! ## Injectivity of the fields -/

theorem dec_inj {m n : ℕ} (h : dec m = dec n) : m = n := by
  have hm := Nat.ofDigitChars_ten_toDigits (n := m)
  have hn := Nat.ofDigitChars_ten_toDigits (n := n)
  unfold dec at h
  rw [h, hn] at hm
  exact hm.symm

theorem minus_notMem_dec (n : ℕ) : '-' ∉ dec n := by
  intro h
  exact absurd (Nat.isDigit_of_mem_toDigits (by decide) (by decide) h) (by decide)

theorem dot_notMem_dec (n : ℕ) : '.' ∉ dec n := by
  intro h
  exact absurd (Nat.isDigit_of_mem_toDigits (by decide) (by decide) h) (by decide)

theorem dot_notMem_decInt (i : ℤ) : '.' ∉ decInt i := by
  unfold decInt
  split_ifs
  · rw [List.mem_cons, not_or]
    exact ⟨by decide, dot_notMem_dec _⟩
  · exact dot_notMem_dec _

theorem decInt_inj {i j : ℤ} (h : decInt i = decInt j) : i = j := by
  unfold decInt at h
  split_ifs at h with hi hj hj
  · have := dec_inj (List.cons_injective h)
    omega
  · exact absurd (h ▸ List.mem_cons_self) (minus_notMem_dec _)
  · exact absurd (h ▸ List.mem_cons_self) (minus_notMem_dec _)
  · have := dec_inj h
    omega

theorem lsnToHex_inj {l m : Lsn} (h : lsnToHex l = lsnToHex m) : l = m :=
  UInt64.toNat_inj.mp (Hex.fmt_inj h)

theorem checkpoint_ext {c d : Checkpoint} (ht : c.timelineId.toHex = d.timelineId.toHex)
    (hl : lsnToHex c.lsn = lsnToHex d.lsn) : c = d := by
  have ht' := toHex_inj.mp ht
  have hl' := lsnToHex_inj hl
  cases c
  cases d
  rw [Checkpoint.mk.injEq]
  exact ⟨ht', hl'⟩

/-- The components of a chunk name the chunk and its checkpoint. -/
theorem chunkComps_prefix {tag tag' : ChunkTag} {ckpt ckpt' : Checkpoint}
    (h : chunkComps tag ckpt <+: chunkComps tag' ckpt') : tag = tag' ∧ ckpt = ckpt' := by
  have heq : chunkComps tag ckpt = chunkComps tag' ckpt' := h.eq_of_length rfl
  simp only [chunkComps, List.cons.injEq, and_true] at heq
  obtain ⟨htl, hlsn, hspc, hdb, hrel, hid⟩ := heq
  obtain ⟨hrel, -, hfork⟩ := (@List.append_cons_inj_of_notMem _ _ _ _ _ '.' '.'
    (dot_notMem_dec _) (dot_notMem_decInt _)).mp hrel
  refine ⟨?_, checkpoint_ext htl hlsn⟩
  cases tag
  cases tag'
  rw [ChunkTag.mk.injEq]
  exact ⟨UInt32.toNat_inj.mp (dec_inj hspc), UInt32.toNat_inj.mp (dec_inj hdb),
    UInt32.toNat_inj.mp (dec_inj hrel), Int32.toInt_inj.mp (decInt_inj hfork),
    UInt32.toNat_inj.mp (dec_inj hid)⟩

theorem dot_notMem_segName (name : SegName) : '.' ∉ name.1 := dot_notMem_of_isSegName name.2

theorem namespace_ext {ns ns' : DbNamespace} (horg : ns.orgId = ns'.orgId) (hdb : ns.dbId = ns'.dbId) :
    ns = ns' := by
  cases ns
  cases ns'
  rw [DbNamespace.mk.injEq]
  exact ⟨horg, hdb⟩

/-! ## The components below an area -/

theorem filter_pair (tl : TimelineId) {s : Str} (hs : s ≠ []) :
    [tl.toHex, s].filter (· ≠ []) = [tl.toHex, s] := by
  have htl : tl.toHex ≠ [] := Hex.fmt_ne_nil 8 _
  simp [htl, hs]

theorem filter_chunkComps (tag : ChunkTag) (ckpt : Checkpoint) :
    (chunkComps tag ckpt).filter (· ≠ []) = chunkComps tag ckpt := by
  have hdec : ∀ n, dec n ≠ [] := fun n => Nat.toDigits_ne_nil
  have htl : ckpt.timelineId.toHex ≠ [] := Hex.fmt_ne_nil 8 _
  have hlsn : lsnToHex ckpt.lsn ≠ [] := Hex.fmt_ne_nil 16 _
  simp [chunkComps, hdec, htl, hlsn]

theorem rest_baseManifest (ns : DbNamespace) (ckpt : Checkpoint) : (baseManifest ns ckpt).rest =
    [ckpt.timelineId.toHex, lsnToHex ckpt.lsn ++ manifestSuffix] :=
  filter_pair _ (by simp [manifestSuffix])

theorem rest_backupObject (ns : DbNamespace) (ckpt : Checkpoint) : (backupObject ns ckpt).rest =
    [ckpt.timelineId.toHex, lsnToHex ckpt.lsn ++ ['.', 't', 'a', 'r', '.', 'z', 's', 't']] :=
  filter_pair _ (by simp)

theorem rest_backupMeta (ns : DbNamespace) (ckpt : Checkpoint) : (backupMeta ns ckpt).rest =
    [ckpt.timelineId.toHex, lsnToHex ckpt.lsn ++ jsonSuffix] :=
  filter_pair _ (by simp [jsonSuffix])

theorem rest_timelineSegment (ns : DbNamespace) (id : SegmentId) : (timelineSegment ns id).rest =
    [id.timelineId.toHex, Hex.fmt 16 id.index.toNat ++ segmentSuffix] :=
  filter_pair _ (by simp [segmentSuffix])

theorem rest_walSegment (ns : DbNamespace) (tl : TimelineId) (name : SegName) :
    (walSegment ns tl name).rest = [tl.toHex, name.1] := by
  refine filter_pair tl fun h => ?_
  have hname := name.2
  rw [h] at hname
  exact absurd hname (by decide)

theorem rest_walChunkKey (ns : DbNamespace) (tl : TimelineId) (name : SegName) (off : ℕ) :
    (walChunkKey ns tl name off).rest = [tl.toHex, chunksDir name, Hex.fmt 16 off] := by
  have htl : tl.toHex ≠ [] := Hex.fmt_ne_nil 8 _
  have hoff : Hex.fmt 16 off ≠ [] := Hex.fmt_ne_nil 16 _
  simp [rest, rawRest, chunksDir, htl, hoff]

theorem pair_of_isPrefix {a b a' b' : Str} (h : [a, b] <+: [a', b']) : a = a' ∧ b = b' := by
  have heq := h.eq_of_length rfl
  rw [List.cons.injEq, List.singleton_inj] at heq
  exact heq

/-- Two objects of one area, one of whose paths begins the other. -/
theorem same_of_rest_prefix {c c' : KeyCall} (horg : c.orgId = c'.orgId) (hdb : c.dbId = c'.dbId)
    (harea : c.area = c'.area) (h : c.rest <+: c'.rest) : c.Same c' := by
  cases c with
  | dbMeta ns =>
    cases c' with
    | dbMeta ns' => exact namespace_ext horg hdb
    | _ => exact absurd harea (by simp [area])
  | chunk ns tag ckpt =>
    cases c' with
    | chunk ns' tag' ckpt' =>
      change (chunkComps tag ckpt).filter _ <+: (chunkComps tag' ckpt').filter _ at h
      rw [filter_chunkComps, filter_chunkComps] at h
      exact ⟨namespace_ext horg hdb, chunkComps_prefix h⟩
    | chunkBase ns' tag' ref =>
      change (chunkComps tag ckpt).filter _ <+: (chunkComps tag' _).filter _ at h
      rw [filter_chunkComps, filter_chunkComps] at h
      obtain ⟨htag, rfl⟩ := chunkComps_prefix h
      refine ⟨horg, htag, ?_⟩
      change ns.dbId = ref.dbId at hdb
      rw [hdb]
    | _ => exact absurd harea (by simp [area])
  | chunkBase ns tag ref =>
    cases c' with
    | chunk ns' tag' ckpt' =>
      change (chunkComps tag _).filter _ <+: (chunkComps tag' ckpt').filter _ at h
      rw [filter_chunkComps, filter_chunkComps] at h
      obtain ⟨htag, rfl⟩ := chunkComps_prefix h
      refine ⟨horg, htag, ?_⟩
      change ref.dbId = ns'.dbId at hdb
      rw [← hdb]
    | chunkBase ns' tag' ref' =>
      change (chunkComps tag _).filter _ <+: (chunkComps tag' _).filter _ at h
      rw [filter_chunkComps, filter_chunkComps] at h
      obtain ⟨htag, hckpt⟩ := chunkComps_prefix h
      obtain ⟨htl, hlsn⟩ := Checkpoint.mk.inj hckpt
      refine ⟨horg, htag, ?_⟩
      change ref.dbId = ref'.dbId at hdb
      cases ref
      cases ref'
      rw [ChunkRef.mk.injEq]
      exact ⟨hdb, htl, hlsn⟩
    | _ => exact absurd harea (by simp [area])
  | baseManifest ns ckpt =>
    cases c' with
    | baseManifest ns' ckpt' =>
      rw [rest_baseManifest, rest_baseManifest] at h
      obtain ⟨htl, hlsn⟩ := pair_of_isPrefix h
      exact ⟨namespace_ext horg hdb, checkpoint_ext htl (List.append_cancel_right hlsn)⟩
    | _ => exact absurd harea (by simp [area])
  | backupObject ns ckpt =>
    cases c' with
    | backupObject ns' ckpt' =>
      rw [rest_backupObject, rest_backupObject] at h
      obtain ⟨htl, hlsn⟩ := pair_of_isPrefix h
      exact ⟨namespace_ext horg hdb, checkpoint_ext htl (List.append_cancel_right hlsn)⟩
    | backupMeta ns' ckpt' =>
      -- the suffixes are not of the same length
      rw [rest_backupObject, rest_backupMeta, lsnToHex_eq, lsnToHex_eq] at h
      have hlen := congrArg List.length (pair_of_isPrefix h).2
      exact absurd hlen (by simp [jsonSuffix])
    | _ => exact absurd harea (by simp [area])
  | backupMeta ns ckpt =>
    cases c' with
    | backupMeta ns' ckpt' =>
      rw [rest_backupMeta, rest_backupMeta] at h
      obtain ⟨htl, hlsn⟩ := pair_of_isPrefix h
      exact ⟨namespace_ext horg hdb, checkpoint_ext htl (List.append_cancel_right hlsn)⟩
    | backupObject ns' ckpt' =>
      rw [rest_backupMeta, rest_backupObject, lsnToHex_eq, lsnToHex_eq] at h
      have hlen := congrArg List.length (pair_of_isPrefix h).2
      exact absurd hlen (by simp [jsonSuffix])
    | _ => exact absurd harea (by simp [area])
  | timelineSegment ns id =>
    cases c' with
    | timelineSegment ns' id' =>
      rw [rest_timelineSegment, rest_timelineSegment] at h
      obtain ⟨htl, hidx⟩ := pair_of_isPrefix h
      refine ⟨namespace_ext horg hdb, ?_⟩
      have htl' := toHex_inj.mp htl
      have hidx' := UInt64.toNat_inj.mp (Hex.fmt_inj (List.append_cancel_right hidx))
      cases id
      cases id'
      rw [SegmentId.mk.injEq]
      exact ⟨htl', hidx'⟩
    | _ => exact absurd harea (by simp [area])
  | walSegment ns tl name =>
    cases c' with
    | walSegment ns' tl' name' =>
      rw [rest_walSegment, rest_walSegment] at h
      obtain ⟨htl, hname⟩ := pair_of_isPrefix h
      exact ⟨namespace_ext horg hdb, toHex_inj.mp htl, Subtype.ext hname⟩
    | walChunkKey ns' tl' name' off =>
      -- a segment's name has no dot
      rw [rest_walSegment, rest_walChunkKey, List.cons_prefix_cons, List.cons_prefix_cons] at h
      refine absurd ?_ (dot_notMem_segName name)
      rw [h.2.1]
      exact List.mem_append_right _ (by decide)
    | _ => exact absurd harea (by simp [area])
  | walChunkKey ns tl name off =>
    cases c' with
    | walSegment ns' tl' name' =>
      rw [rest_walChunkKey, rest_walSegment] at h
      exact absurd h.length_le (by simp)
    | walChunkKey ns' tl' name' off' =>
      rw [rest_walChunkKey, rest_walChunkKey] at h
      have heq := h.eq_of_length rfl
      rw [List.cons.injEq, List.cons.injEq, List.singleton_inj] at heq
      exact ⟨namespace_ext horg hdb, toHex_inj.mp heq.1,
        Subtype.ext (List.append_cancel_right heq.2.1), Hex.fmt_inj heq.2.2⟩
    | _ => exact absurd harea (by simp [area])

/-! ## No collisions -/

/-- The components of a call never begin those of another. -/
theorem same_of_comps_prefix {c c' : KeyCall} (h : c.comps <+: c'.comps) : c.Same c' := by
  rw [comps, comps, List.cons_prefix_cons, List.cons_prefix_cons, List.cons_prefix_cons] at h
  obtain ⟨horg, hdb, harea, hrest⟩ := h
  exact same_of_rest_prefix (UInt64.toNat_inj.mp (dec_inj horg)) (UInt64.toNat_inj.mp (dec_inj hdb))
    (Area.name_inj harea) hrest

theorem comps_eq_of_same {c c' : KeyCall} (h : c.Same c') : c.comps = c'.comps := by
  cases c <;> cases c' <;> first
    | exact absurd h id
    | simp_all [Same, comps, orgId, dbId, area, rest, rawRest]

theorem comps_ne_nil (c : KeyCall) : c.comps ≠ [] := List.cons_ne_nil _ _

theorem splitOn_norm_key (c : KeyCall) : (norm c.key).splitOn '/' = c.comps := by
  rw [norm_key, List.splitOn_intercalate '/' (slash_notMem_comps c) (comps_ne_nil c)]

theorem norm_key_eq_iff (c c' : KeyCall) : norm c.key = norm c'.key ↔ c.Same c' := by
  constructor
  · intro h
    have hcomps := splitOn_norm_key c
    rw [h, splitOn_norm_key] at hcomps
    exact same_of_comps_prefix (hcomps ▸ List.prefix_rfl)
  · intro h
    rw [norm_key, norm_key, comps_eq_of_same h]

/-- No path is a directory of another. -/
theorem not_below (c c' : KeyCall) : S3Sim.below (norm c.key) (norm c'.key) = false := by
  rw [Bool.eq_false_iff]
  intro h
  obtain ⟨t, ht⟩ := List.isPrefixOf_iff_prefix.mp h
  have hcomps : c'.comps = c.comps ++ t.splitOn '/' := by
    rw [← splitOn_norm_key c', ← ht, List.append_assoc, List.singleton_append,
      List.splitOn_append_cons_self, splitOn_norm_key]
  have hsame : c.Same c' := same_of_comps_prefix (hcomps ▸ List.prefix_append _ _)
  rw [comps_eq_of_same hsame] at hcomps
  exact List.splitOn_ne_nil '/' t (List.self_eq_append_right.mp hcomps)

/-- **Keys do not collide.** Two calls give the same path exactly if they are the same call, a chunk in
its database being the same as a reference to it, and no path is a directory of another. -/
theorem keys_do_not_collide (c c' : KeyCall) :
    (norm c.key = norm c'.key ↔ c.Same c') ∧
      (∀ (ns : DbNamespace) (tag : ChunkTag) (ckpt : Checkpoint) (chunkRef : ChunkRef),
        norm (chunk ns tag ckpt).key = norm (chunkBase ns tag chunkRef).key ↔
          chunkRef = ⟨ns.dbId, ckpt.timelineId, ckpt.lsn⟩) ∧
      S3Sim.below (norm c.key) (norm c'.key) = false := by
  refine ⟨norm_key_eq_iff c c', fun ns tag ckpt chunkRef => ?_, not_below c c'⟩
  rw [norm_key_eq_iff]
  exact ⟨fun h => h.2.2, fun h => ⟨rfl, rfl, h⟩⟩

end KeyCall

end Tiko.Locator

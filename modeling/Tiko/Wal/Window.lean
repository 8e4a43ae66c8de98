import Tiko.Wal.Roundtrip

/-!
# The archived WAL window

`archivedWalRun` derives the range of WAL that can be recovered from a listing. Of a segment that is not
sealed it looks at the lowest and the highest chunk only, and takes what lies between for archived: the
receiver, its comment says, writes chunks contiguously. The receiver's PUTs run concurrently, a failed
one leaves a hole, two connections cut a segment at different offsets, and a PUT empties the object that
it replaces before it writes it.

* `walContiguousRun`, `archivedWalRun`: the code;
* `Gapless`: the chunks of a segment that is not sealed leave no hole;
* `InOrder`: a step whose PUT or delete, if it makes one, keeps what is stored together;
* `NoHoles`: the invariant, with one lemma for each effect on the archive.

**`window_archived`**: in runs of such steps the window is archived. `window_with_hole` is a run in
which the PUT in the middle has not landed.
-/

namespace Tiko.Wal

open Lib

/-! ## The code -/

/-- `SegEntry`. -/
structure SegEntry where
  segNo : ℕ
  lo : ℕ
  hi : ℕ
  full : Bool

/-- The loop of `wal_contiguous_run` below `cur`, over the entries that are left. -/
def extendDown (cur : SegEntry) (wLo : ℕ) : List SegEntry → ℕ
  | [] => wLo
  | next :: rest =>
    if cur.segNo = 0 then wLo
    else if cur.lo ≠ cur.segNo * xlogSegSize then wLo
    else if next.segNo ≠ cur.segNo - 1 ∨ next.hi ≠ cur.lo then wLo
    else extendDown next next.lo rest

/-- `wal_contiguous_run`. -/
def walContiguousRun (entries : List SegEntry) : Option (ℕ × ℕ) :=
  match entries.insertionSort fun a b => b.segNo ≤ a.segNo with
  | [] => none
  | top :: rest => some (extendDown top top.lo rest, top.hi)

/-- `Acc`: what the listing shows of a segment. -/
structure Acc where
  sealed : Bool
  minOff : Option ℕ
  maxOff : Option ℕ
  deriving DecidableEq

/-- One more object of the segment. -/
def Acc.add (acc : Acc) : Option ℕ → Acc
  | none => { acc with sealed := true }
  | some o =>
    { acc with
      minOff := some (acc.minOff.elim o (min · o))
      maxOff := some (acc.maxOff.elim o (max · o)) }

/-- The loop of `archived_wal_run` over the listing. -/
def classify (dir : Str) (segs : SortedMap ℕ Acc) : List Str → SortedMap ℕ Acc
  | [] => segs
  | key :: keys =>
    match parseWalKey key dir with
    | none => classify dir segs keys
    | some (segNo, off) =>
      classify dir (segs.insert segNo.toNat
        (((segs.lookup segNo.toNat).getD ⟨false, none, none⟩).add off)) keys

/-- The entry of a segment. The end of a segment that is not sealed is that of its last chunk. -/
def segEntry (ns : DbNamespace) (tl : TimelineId) (sim : S3Sim) (segNo : ℕ) (acc : Acc) : SegEntry :=
  if acc.sealed then ⟨segNo, segNo * xlogSegSize, (segNo + 1) * xlogSegSize, true⟩
  else
    let maxOff := acc.maxOff.getD 0
    let lastLen :=
      match sim.get (walChunkKey ns.fmt tl (walSegName tl (UInt64.ofNat segNo)) maxOff) with
      | .ok data => data.length
      | .error _ => 0
    ⟨segNo, segNo * xlogSegSize + acc.minOff.getD 0, segNo * xlogSegSize + maxOff + lastLen, false⟩

/-- The listing of a timeline's WAL; that there is none is not an error. -/
def listWal (ns : DbNamespace) (tl : TimelineId) (sim : S3Sim) : Except Error (List Str) :=
  match sim.listPrefix (walTimelineDir ns.fmt tl) with
  | .ok keys => .ok keys
  | .error e => if e.isNotFound then .ok [] else .error e

/-- `archived_wal_run`. -/
def archivedWalRun (ns : DbNamespace) (tl : TimelineId) (sim : S3Sim) : Except Error (ℕ × ℕ) :=
  let dir := walTimelineDir ns.fmt tl
  match listWal ns tl sim with
  | .error e => .error e
  | .ok keys =>
    let segs := classify dir .empty keys
    if segs.entries = [] then .error .io
    else
      match walContiguousRun (segs.entries.map fun p => segEntry ns tl sim p.1 p.2) with
      | some window => .ok window
      | none => .error .io

/-! ## Contiguous runs -/

/-- What every entry says holds down to where the loop ends. -/
theorem extendDown_sound {P : ℕ → Prop} {cur : SegEntry} {rest : List SegEntry}
    (h : ∀ e ∈ rest, ∀ p, e.lo ≤ p → p < e.hi → P p) :
    ∀ p, extendDown cur cur.lo rest ≤ p → p < cur.lo → P p := by
  induction rest generalizing cur with
  | nil =>
    intro p hlo hhi
    rw [extendDown] at hlo
    omega
  | cons next rest ih =>
    intro p hlo hhi
    rw [extendDown] at hlo
    split_ifs at hlo with h0 hstart hnext
    · omega
    · omega
    · omega
    · by_cases hp : p < next.lo
      · exact ih (fun e he => h e (List.mem_cons_of_mem _ he)) p hlo hp
      · exact h next List.mem_cons_self p (by omega) (by omega)

/-- **A contiguous run holds nothing that no entry holds.** -/
theorem walContiguousRun_sound {P : ℕ → Prop} {entries : List SegEntry} {wLo wHi : ℕ}
    (h : ∀ e ∈ entries, ∀ p, e.lo ≤ p → p < e.hi → P p)
    (hrun : walContiguousRun entries = some (wLo, wHi)) : ∀ p, wLo ≤ p → p < wHi → P p := by
  intro p hlo hhi
  rw [walContiguousRun] at hrun
  have hmem : ∀ e ∈ entries.insertionSort fun a b => b.segNo ≤ a.segNo,
      ∀ p, e.lo ≤ p → p < e.hi → P p := fun e he => h e ((List.mem_insertionSort _).mp he)
  cases hsort : entries.insertionSort fun a b => b.segNo ≤ a.segNo with
  | nil =>
    rw [hsort] at hrun
    exact absurd hrun (by simp)
  | cons top rest =>
    rw [hsort] at hrun hmem
    obtain ⟨rfl, rfl⟩ := Prod.mk.inj (Option.some.inj hrun)
    by_cases hp : p < top.lo
    · exact extendDown_sound (fun e he => hmem e (List.mem_cons_of_mem _ he)) p hlo hp
    · exact hmem top List.mem_cons_self p (by omega) hhi

/-! ## What the listing shows -/

/-- What the table says of a segment is among the objects of the listing. -/
structure Acc.Shows (objs : List (UInt64 × Option ℕ)) (n : UInt64) (acc : Acc) : Prop where
  sealed : acc.sealed = true ↔ (n, none) ∈ objs
  minOff : ∀ o, acc.minOff = some o → (n, some o) ∈ objs
  maxOff : ∀ o, acc.maxOff = some o → (n, some o) ∈ objs
  some_off : acc.sealed = false → acc.minOff.isSome = true ∧ acc.maxOff.isSome = true

/-- The table shows the objects that have been read. -/
def Table (segs : SortedMap ℕ Acc) (objs : List (UInt64 × Option ℕ)) : Prop :=
  (∀ k acc, segs.lookup k = some acc → ∃ n : UInt64, n.toNat = k ∧ acc.Shows objs n) ∧
    ∀ n off, (n, off) ∈ objs → (segs.lookup n.toNat).isSome = true

theorem Acc.Shows.mono {objs : List (UInt64 × Option ℕ)} {n m : UInt64} {off : Option ℕ} {acc : Acc}
    (h : acc.Shows objs n) (hne : m ≠ n) : acc.Shows (objs ++ [(m, off)]) n := by
  have hmem : ∀ x, (n, x) ∈ objs ++ [(m, off)] ↔ (n, x) ∈ objs := by
    intro x
    rw [List.mem_append, List.mem_singleton, Prod.mk.injEq]
    exact ⟨fun hx => hx.resolve_right fun he => hne he.1.symm, .inl⟩
  refine ⟨?_, fun o ho => ?_, fun o ho => ?_, h.some_off⟩
  · rw [hmem]
    exact h.sealed
  · rw [hmem]
    exact h.minOff o ho
  · rw [hmem]
    exact h.maxOff o ho

theorem Acc.Shows.add {objs : List (UInt64 × Option ℕ)} {n : UInt64} {acc : Acc} (off : Option ℕ)
    (h : acc.Shows objs n ∨ acc = ⟨false, none, none⟩ ∧ ∀ x, (n, x) ∉ objs) :
    (acc.add off).Shows (objs ++ [(n, off)]) n := by
  have hmin : ∀ o, acc.minOff = some o → (n, some o) ∈ objs := by
    rcases h with h | ⟨rfl, -⟩
    · exact h.minOff
    · exact fun o ho => absurd ho (by simp)
  have hmax : ∀ o, acc.maxOff = some o → (n, some o) ∈ objs := by
    rcases h with h | ⟨rfl, -⟩
    · exact h.maxOff
    · exact fun o ho => absurd ho (by simp)
  have hsealed : acc.sealed = true ↔ (n, none) ∈ objs := by
    rcases h with h | ⟨rfl, hno⟩
    · exact h.sealed
    · exact ⟨fun hs => absurd hs (by simp), fun hs => absurd hs (hno none)⟩
  cases off with
  | none =>
    refine ⟨⟨fun _ => List.mem_append_right _ List.mem_cons_self, fun _ => rfl⟩,
      fun o ho => List.mem_append_left _ (hmin o ho), fun o ho => List.mem_append_left _ (hmax o ho),
      fun hs => absurd hs (by simp [Acc.add])⟩
  | some o =>
    refine ⟨?_, fun o' ho' => ?_, fun o' ho' => ?_, fun _ => ⟨rfl, rfl⟩⟩
    · rw [Acc.add, hsealed, List.mem_append]
      exact ⟨.inl, fun hs => hs.resolve_right (by simp)⟩
    · -- the new lowest offset is the old one or the new one
      rw [List.mem_append]
      cases hold : acc.minOff with
      | none =>
        rw [Acc.add, hold] at ho'
        exact .inr (by rw [← Option.some.inj ho']; exact List.mem_cons_self)
      | some m =>
        rw [Acc.add, hold] at ho'
        have heq : min m o = o' := Option.some.inj ho'
        rcases min_choice m o with hc | hc
        · exact .inl (by rw [← heq, hc]; exact hmin m hold)
        · exact .inr (by rw [← heq, hc]; exact List.mem_cons_self)
    · rw [List.mem_append]
      cases hold : acc.maxOff with
      | none =>
        rw [Acc.add, hold] at ho'
        exact .inr (by rw [← Option.some.inj ho']; exact List.mem_cons_self)
      | some m =>
        rw [Acc.add, hold] at ho'
        have heq : max m o = o' := Option.some.inj ho'
        rcases max_choice m o with hc | hc
        · exact .inl (by rw [← heq, hc]; exact hmax m hold)
        · exact .inr (by rw [← heq, hc]; exact List.mem_cons_self)

theorem Table.add {segs : SortedMap ℕ Acc} {objs : List (UInt64 × Option ℕ)} (h : Table segs objs)
    (n : UInt64) (off : Option ℕ) :
    Table (segs.insert n.toNat (((segs.lookup n.toNat).getD ⟨false, none, none⟩).add off))
      (objs ++ [(n, off)]) := by
  refine ⟨fun k acc hk => ?_, fun m x hm => ?_⟩
  · rw [SortedMap.lookup_insert] at hk
    split_ifs at hk with hkn
    · refine ⟨n, hkn.symm, ?_⟩
      rw [← Option.some.inj hk]
      refine Acc.Shows.add off ?_
      cases hold : segs.lookup n.toNat with
      | none =>
        refine .inr ⟨rfl, fun x hx => ?_⟩
        have hsome := h.2 n x hx
        rw [hold] at hsome
        exact absurd hsome (by simp)
      | some acc₀ =>
        obtain ⟨m, hm, hshows⟩ := h.1 _ _ hold
        rw [UInt64.toNat_inj.mp hm] at hshows
        exact .inl hshows
    · obtain ⟨m, rfl, hshows⟩ := h.1 k acc hk
      refine ⟨m, rfl, hshows.mono fun he => hkn ?_⟩
      rw [he]
  · rw [SortedMap.lookup_insert]
    split_ifs with hmn
    · rfl
    · rcases List.mem_append.mp hm with hm | hm
      · exact h.2 m x hm
      · rw [(Prod.mk.inj (List.mem_singleton.mp hm)).1] at hmn
        exact absurd rfl hmn

/-- **The table is what the listing shows.** -/
theorem Table.classify {dir : Str} {keys : List Str} {segs : SortedMap ℕ Acc}
    {objs : List (UInt64 × Option ℕ)} (h : Table segs objs) :
    Table (Wal.classify dir segs keys) (objs ++ keys.filterMap fun key => parseWalKey key dir) := by
  induction keys generalizing segs objs with
  | nil =>
    rw [List.filterMap_nil, List.append_nil]
    exact h
  | cons key keys ih =>
    rw [Wal.classify, List.filterMap_cons]
    cases hparse : parseWalKey key dir with
    | none => exact ih h
    | some obj =>
      have hnew := ih (h.add obj.1 obj.2)
      rw [List.append_assoc, List.singleton_append] at hnew
      exact hnew

/-! ## The objects of a timeline -/

section Objects

variable {ns : DbNamespace} {tl : TimelineId} {n m : UInt64} {o : ℕ} {sim : S3Sim} {data : Bytes}

/-- The directory of a timeline's WAL. -/
def walPath (ns : DbNamespace) (tl : TimelineId) : Str := ['/'].intercalate (walDir ns tl)

theorem norm_walTimelineDir (ns : DbNamespace) (tl : TimelineId) :
    norm (walTimelineDir ns.fmt tl) = walPath ns tl := by
  have hkey : walTimelineDir ns.fmt tl = ['/'].intercalate (walDir ns tl ++ [[]]) := by
    simp [walTimelineDir, DbNamespace.fmt, walDir, List.intercalate, List.intersperse]
  have hdir : (walDir ns tl).filter (· ≠ []) = walDir ns tl :=
    List.filter_eq_self.mpr fun c hc => by simpa using (isComponent_walDir ns tl c hc).1
  have hslash : ∀ c ∈ walDir ns tl ++ [[]], '/' ∉ c := by
    intro c hc
    rcases List.mem_append.mp hc with hc | hc
    · exact (isComponent_walDir ns tl c hc).2
    · rw [List.mem_singleton.mp hc]
      exact List.not_mem_nil
  rw [hkey, norm_intercalate hslash (by simp), List.filter_append, hdir, walPath]
  simp

theorem walTimelineDir_eq (ns : DbNamespace) (tl : TimelineId) :
    walTimelineDir ns.fmt tl = walPath ns tl ++ ['/'] := by
  simp [walTimelineDir, walPath, DbNamespace.fmt, walDir, List.intercalate, List.intersperse]

theorem segKey_eq : segKey ns tl n = walTimelineDir ns.fmt tl ++ walSegName tl n := by
  simp [segKey, walTimelineDir, DbNamespace.fmt, walDir, List.intercalate, List.intersperse]

theorem chunkKey_eq_dir : chunkKey ns tl n o =
    walTimelineDir ns.fmt tl ++ (walSegName tl n ++ chunksSep ++ Hex.fmt 16 o) := by
  simp [chunkKey, walTimelineDir, chunksName, chunksSep, DbNamespace.fmt, walDir, List.intercalate,
    List.intersperse]

theorem below_walPath_append (file : Str) :
    S3Sim.below (walPath ns tl) (walTimelineDir ns.fmt tl ++ file) = true := by
  rw [S3Sim.below, List.isPrefixOf_iff_prefix, walTimelineDir_eq]
  exact List.prefix_append _ _

theorem walPath_ne_append (file : Str) : walTimelineDir ns.fmt tl ++ file ≠ walPath ns tl := by
  intro h
  have hlen := congrArg List.length h
  rw [walTimelineDir_eq, List.length_append, List.length_append, List.length_singleton] at hlen
  omega

theorem parseWalKey_segKey : parseWalKey (segKey ns tl n) (walTimelineDir ns.fmt tl) = some (n, none) := by
  rw [segKey_eq]
  exact parseWalKey_walSegment ns.fmt tl n

theorem splitOnce_append {c : Char} {pat pre rest : Str} (h : c ∉ pre) :
    splitOnce (c :: pat) (pre ++ c :: pat ++ rest) = some (pre, rest) := by
  induction pre with
  | nil =>
    have hp : (c :: pat).isPrefixOf (c :: (pat ++ rest)) = true :=
      List.isPrefixOf_iff_prefix.mpr (List.prefix_append (c :: pat) rest)
    rw [List.nil_append, List.cons_append, splitOnce, if_pos hp, ← List.cons_append,
      List.drop_left' rfl]
  | cons a pre ih =>
    have hne : c ≠ a := fun e => h (e ▸ List.mem_cons_self)
    have hp : (c :: pat).isPrefixOf (a :: (pre ++ c :: pat ++ rest)) = false := by
      simp [List.isPrefixOf, hne]
    rw [List.cons_append, List.cons_append, splitOnce, hp,
      ih fun hm => h (List.mem_cons_of_mem _ hm)]
    rfl

/-- The key of a chunk is read as what it is, if its offset fits. -/
theorem parseWalKey_chunkKey : parseWalKey (chunkKey ns tl n o) (walTimelineDir ns.fmt tl) =
    (Hex.fromStr (2 ^ 64) (Hex.fmt 16 o)).map fun off => (n, some off) := by
  have hseg := isSegName_walSegName tl n
  have hsplit : splitOnce chunksSep (walSegName tl n ++ chunksSep ++ Hex.fmt 16 o) =
      some (walSegName tl n, Hex.fmt 16 o) := splitOnce_append (dot_notMem_of_isSegName hseg)
  rw [parseWalKey, chunkKey_eq_dir, stripPrefix_append, Option.bind_eq_bind, Option.bind_some, hsplit]
  dsimp only
  rw [if_pos hseg, fromStr_drop_walSegName, Option.bind_eq_bind, Option.bind_some,
    UInt64.ofNat_toNat]
  cases Hex.fromStr (2 ^ 64) (Hex.fmt 16 o) <;> rfl

theorem parseWalKey_chunkKey_eq {obj : UInt64 × Option ℕ}
    (h : parseWalKey (chunkKey ns tl n o) (walTimelineDir ns.fmt tl) = some obj) :
    obj = (n, some o) := by
  rw [parseWalKey_chunkKey] at h
  obtain ⟨off, hoff, rfl⟩ := Option.map_eq_some_iff.mp h
  rw [Hex.fromStr_fmt_eq hoff]

/-- Below the directory of a timeline there are only sealed segments and chunks. -/
def OnlyWal (ns : DbNamespace) (tl : TimelineId) (sim : S3Sim) : Prop :=
  ∀ file, (sim.files.lookup file).isSome = true → file ≠ walPath ns tl ∧
    (S3Sim.below (walPath ns tl) file = true →
      (∃ n, file = segKey ns tl n) ∨ ∃ n o, file = chunkKey ns tl n o)

theorem OnlyWal.insert {key : Str} (h : OnlyWal ns tl sim)
    (hkey : (∃ n, key = segKey ns tl n) ∨ ∃ n o, key = chunkKey ns tl n o) (data : Bytes) :
    OnlyWal ns tl ⟨sim.files.insert key data⟩ := by
  intro file hf
  rw [SortedMap.lookup_insert] at hf
  split_ifs at hf with heq
  · rw [heq]
    refine ⟨?_, fun _ => hkey⟩
    rcases hkey with ⟨n, rfl⟩ | ⟨n, o, rfl⟩
    · rw [segKey_eq]
      exact walPath_ne_append _
    · rw [chunkKey_eq_dir]
      exact walPath_ne_append _
  · exact h file hf

theorem OnlyWal.filter (h : OnlyWal ns tl sim) (p : Str → Bytes → Bool) :
    OnlyWal ns tl ⟨sim.files.filter p⟩ := by
  intro file hf
  rw [SortedMap.lookup_filter] at hf
  refine h file ?_
  cases hl : sim.files.lookup file with
  | none =>
    rw [hl] at hf
    exact absurd hf (by simp)
  | some d => rfl

/-- **The receiver stores nothing else there.** -/
theorem OnlyWal.apply (h : OnlyWal ns tl sim) (e : Effect) : OnlyWal ns tl (e.apply ns tl sim) := by
  cases e with
  | chunk n o data =>
    refine h.insert (.inr ⟨n, o, norm_walChunkKey ..⟩) data
  | sealed n data => exact h.insert (.inl ⟨n, norm_walSegment ..⟩) data
  | deleteChunks n => exact h.filter _
  | removeChunk n o => exact h.filter _

/-- The objects that the listing shows. -/
theorem OnlyWal.listWal (h : OnlyWal ns tl sim) : ∃ keys, Wal.listWal ns tl sim = .ok keys ∧
    (∀ n, (n, none) ∈ (keys.filterMap fun key => parseWalKey key (walTimelineDir ns.fmt tl)) ↔
      (sim.sealed ns tl n).isSome = true) ∧
    ∀ n o, (n, some o) ∈ (keys.filterMap fun key => parseWalKey key (walTimelineDir ns.fmt tl)) →
      (sim.chunk ns tl n o).isSome = true := by
  have hdir : sim.files.lookup (walPath ns tl) = none := by
    cases hl : sim.files.lookup (walPath ns tl) with
    | none => rfl
    | some d => exact absurd rfl (h _ (by rw [hl]; rfl)).1
  have hmem : ∀ key, key ∈ sim.files.keys.filter (S3Sim.below (walPath ns tl)) ↔
      (sim.files.lookup key).isSome = true ∧ S3Sim.below (walPath ns tl) key = true := by
    intro key
    rw [List.mem_filter, SortedMap.mem_keys_iff]
  refine ⟨sim.files.keys.filter (S3Sim.below (walPath ns tl)), ?_, fun n => ?_, fun n o hn => ?_⟩
  · rw [Wal.listWal, S3Sim.listPrefix, norm_walTimelineDir, hdir]
  · rw [List.mem_filterMap]
    constructor
    · rintro ⟨key, hkey, hparse⟩
      obtain ⟨hsome, hb⟩ := (hmem key).mp hkey
      rcases (h key hsome).2 hb with ⟨m, rfl⟩ | ⟨m, o, rfl⟩
      · rw [parseWalKey_segKey] at hparse
        obtain ⟨rfl, -⟩ := Prod.mk.inj (Option.some.inj hparse)
        exact hsome
      · exact absurd (parseWalKey_chunkKey_eq hparse) (by simp)
    · intro hsome
      refine ⟨segKey ns tl n, (hmem _).mpr ⟨hsome, ?_⟩, parseWalKey_segKey⟩
      rw [segKey_eq]
      exact below_walPath_append _
  · obtain ⟨key, hkey, hparse⟩ := List.mem_filterMap.mp hn
    obtain ⟨hsome, hb⟩ := (hmem key).mp hkey
    rcases (h key hsome).2 hb with ⟨m, rfl⟩ | ⟨m, o', rfl⟩
    · rw [parseWalKey_segKey] at hparse
      exact absurd hparse (by simp)
    · obtain ⟨rfl, ho⟩ := Prod.mk.inj (parseWalKey_chunkKey_eq hparse)
      obtain rfl := Option.some.inj ho
      exact hsome

end Objects

/-! ## Chunks without holes -/

section Holes

variable (ns : DbNamespace) (tl : TimelineId)

/-- A position is in a stored object: a sealed segment, or a chunk. -/
def Stored (sim : S3Sim) (p : ℕ) : Prop :=
  (∃ n data, sim.sealed ns tl n = some data ∧ segBase n ≤ p ∧ p < segBase n + data.length) ∨
    ∃ n o data, sim.chunk ns tl n o = some data ∧ segBase n + o ≤ p ∧ p < segBase n + o + data.length

/-- A chunk of the segment holds an offset. -/
def InChunk (sim : S3Sim) (n : UInt64) (q : ℕ) : Prop :=
  ∃ o data, sim.chunk ns tl n o = some data ∧ o ≤ q ∧ q < o + data.length

/-- The chunks hold the whole segment. -/
def InChunks (sim : S3Sim) (n : UInt64) : Prop := ∀ q < xlogSegSize, InChunk ns tl sim n q

/-- The sealed object of the segment is complete. -/
def Complete (sim : S3Sim) (n : UInt64) : Prop :=
  ∃ data, sim.sealed ns tl n = some data ∧ data.length = xlogSegSize

/-- The chunks of a segment leave no hole between them. -/
def Gapless (sim : S3Sim) (n : UInt64) : Prop :=
  ∀ q, (∃ o data, sim.chunk ns tl n o = some data ∧ o ≤ q) →
    (∃ o data, sim.chunk ns tl n o = some data ∧ q < o + data.length) → InChunk ns tl sim n q

/-- A chunk that is written is not shorter than the one it replaces. -/
def Grows (sim : S3Sim) (n : UInt64) (o : ℕ) (data : Bytes) : Prop :=
  ∀ old, sim.chunk ns tl n o = some old → old.length ≤ data.length

/-- No other chunk of the segment ends behind the one that is written. -/
def IsLast (sim : S3Sim) (n : UInt64) (o : ℕ) (data : Bytes) : Prop :=
  ∀ o' old, sim.chunk ns tl n o' = some old → o' ≠ o → o' + old.length ≤ o + data.length

/-- A chunk that is written is the first of its segment, or it touches a chunk that is stored. -/
def Touches (sim : S3Sim) (n : UInt64) (o : ℕ) (data : Bytes) : Prop :=
  (∀ o', sim.chunk ns tl n o' = none) ∨
    ∃ o' d', sim.chunk ns tl n o' = some d' ∧ o' ≤ o + data.length ∧ o ≤ o' + d'.length

/-- An effect in order. Where the sealed object is not complete, a chunk that is written touches what is
stored of its segment, and it replaces a longer one only at the end; a sealed object is emptied when the
chunks hold the segment, and chunks are deleted when the sealed object is complete. -/
def Effect.InOrder (sim : S3Sim) : Effect → Prop
  | .chunk n o data => Complete ns tl sim n ∨
      (sim.sealed ns tl n = none ∧ Touches ns tl sim n o data ∧
        (Grows ns tl sim n o data ∨ IsLast ns tl sim n o data)) ∨
      ((sim.sealed ns tl n).isSome = true ∧ Grows ns tl sim n o data)
  | .sealed n data => data.length = xlogSegSize ∨ InChunks ns tl sim n
  | .deleteChunks n => Complete ns tl sim n
  | .removeChunk n _ => Complete ns tl sim n

/-- What the step does to the archive is in order. -/
def InOrder (r : Receiver) (l : DiskLabel) : Prop :=
  ∀ e, r.diskEffect l = some e → e.InOrder ns tl r.sim

/-- The invariant of runs in order. -/
structure NoHoles (sim : S3Sim) : Prop where
  only : OnlyWal ns tl sim
  gapless : ∀ n, sim.sealed ns tl n = none → Gapless ns tl sim n
  sealed : ∀ n data, sim.sealed ns tl n = some data →
    data.length = xlogSegSize ∨ InChunks ns tl sim n

variable {ns tl} {sim : S3Sim} {n : UInt64} {o : ℕ} {data : Bytes}

/-- What chunks hold, they hold after a PUT that does not shorten one, or that ends behind it. -/
theorem InChunk.putChunk {q : ℕ} (h : InChunk ns tl sim n q)
    (hq : q < o ∨ Grows ns tl sim n o data) : InChunk ns tl (sim.putChunk ns tl n o data) n q := by
  obtain ⟨o', d', hc, hlo, hhi⟩ := h
  by_cases ho : o' = o
  · subst ho
    rcases hq with hq | hgrows
    · omega
    · have hlen := hgrows d' hc
      exact ⟨o', data, by rw [S3Sim.chunk_putChunk, if_pos ⟨rfl, rfl⟩], hlo, by omega⟩
  · exact ⟨o', d', by rw [S3Sim.chunk_putChunk, if_neg fun hk => ho hk.2, hc], hlo, hhi⟩

/-- **A PUT that touches what is stored leaves no hole.** -/
theorem Gapless.putChunk (h : Gapless ns tl sim n) (htouch : Touches ns tl sim n o data)
    (hold : Grows ns tl sim n o data ∨ IsLast ns tl sim n o data) :
    Gapless ns tl (sim.putChunk ns tl n o data) n := by
  have hnew : (sim.putChunk ns tl n o data).chunk ns tl n o = some data := by
    rw [S3Sim.chunk_putChunk, if_pos ⟨rfl, rfl⟩]
  -- a chunk that is stored now is the new one, or was stored before
  have hwas : ∀ o' d', (sim.putChunk ns tl n o data).chunk ns tl n o' = some d' →
      o' = o ∧ d' = data ∨ o' ≠ o ∧ sim.chunk ns tl n o' = some d' := by
    intro o' d' hc
    rw [S3Sim.chunk_putChunk] at hc
    split_ifs at hc with hk
    · exact .inl ⟨hk.2, (Option.some.inj hc).symm⟩
    · exact .inr ⟨fun he => hk ⟨rfl, he⟩, hc⟩
  rintro q ⟨o₁, d₁, hc₁, hlo⟩ ⟨o₂, d₂, hc₂, hhi⟩
  by_cases hin : o ≤ q ∧ q < o + data.length
  · exact ⟨o, data, hnew, hin⟩
  -- the position was between two chunks before
  refine (h q ?_ ?_).putChunk ?_
  · rcases hwas o₁ d₁ hc₁ with ⟨rfl, rfl⟩ | ⟨-, hc₁⟩
    · rcases htouch with hnone | ⟨o', d', hc', hle, -⟩
      · rcases hwas o₂ d₂ hc₂ with ⟨rfl, rfl⟩ | ⟨-, hc₂⟩
        · exact absurd ⟨hlo, hhi⟩ hin
        · rw [hnone o₂] at hc₂
          exact absurd hc₂ (by simp)
      · exact ⟨o', d', hc', by omega⟩
    · exact ⟨o₁, d₁, hc₁, hlo⟩
  · rcases hwas o₂ d₂ hc₂ with ⟨rfl, rfl⟩ | ⟨-, hc₂⟩
    · rcases htouch with hnone | ⟨o', d', hc', -, hle⟩
      · rcases hwas o₁ d₁ hc₁ with ⟨rfl, rfl⟩ | ⟨-, hc₁⟩
        · exact absurd ⟨hlo, hhi⟩ hin
        · rw [hnone o₁] at hc₁
          exact absurd hc₁ (by simp)
      · exact ⟨o', d', hc', by omega⟩
    · exact ⟨o₂, d₂, hc₂, hhi⟩
  · rcases hold with hgrows | hlast
    · exact .inr hgrows
    · left
      rcases hwas o₂ d₂ hc₂ with ⟨rfl, rfl⟩ | ⟨hne, hc₂⟩
      · omega
      · have hend := hlast o₂ d₂ hc₂ hne
        omega

theorem inChunk_congr {sim' : S3Sim} {q : ℕ} (heq : ∀ o, sim'.chunk ns tl n o = sim.chunk ns tl n o) :
    InChunk ns tl sim' n q ↔ InChunk ns tl sim n q := by
  simp only [InChunk, heq]

theorem gapless_congr {sim' : S3Sim} (h : Gapless ns tl sim n)
    (heq : ∀ o, sim'.chunk ns tl n o = sim.chunk ns tl n o) : Gapless ns tl sim' n := by
  simp only [Gapless, inChunk_congr heq, heq]
  exact h

theorem inChunks_congr {sim' : S3Sim} (h : InChunks ns tl sim n)
    (heq : ∀ o, sim'.chunk ns tl n o = sim.chunk ns tl n o) : InChunks ns tl sim' n :=
  fun q hq => (inChunk_congr heq).mpr (h q hq)

/-- The chunks of a complete segment do not matter. -/
theorem NoHoles.of_complete {sim' : S3Sim} (h : NoHoles ns tl sim) (hn : Complete ns tl sim n)
    (honly : OnlyWal ns tl sim') (hsealed : ∀ m, sim'.sealed ns tl m = sim.sealed ns tl m)
    (hchunk : ∀ m o, m ≠ n → sim'.chunk ns tl m o = sim.chunk ns tl m o) : NoHoles ns tl sim' := by
  obtain ⟨whole, hwhole, hlen⟩ := hn
  refine ⟨honly, fun m hm => ?_, fun m data hm => ?_⟩
  · rw [hsealed] at hm
    refine gapless_congr (h.gapless m hm) fun o => hchunk m o ?_
    rintro rfl
    rw [hwhole] at hm
    exact absurd hm (by simp)
  · rw [hsealed] at hm
    by_cases hmn : m = n
    · subst hmn
      rw [hwhole] at hm
      exact .inl (Option.some.inj hm ▸ hlen)
    · exact (h.sealed m data hm).imp_right fun hin => inChunks_congr hin fun o => hchunk m o hmn

theorem NoHoles.chunk (h : NoHoles ns tl sim) (hok : (Effect.chunk n o data).InOrder ns tl sim) :
    NoHoles ns tl (sim.putChunk ns tl n o data) := by
  have honly : OnlyWal ns tl (sim.putChunk ns tl n o data) := h.only.apply (.chunk n o data)
  have hsame : ∀ m p, m ≠ n → (sim.putChunk ns tl n o data).chunk ns tl m p = sim.chunk ns tl m p :=
    fun m p hm => by rw [S3Sim.chunk_putChunk, if_neg fun hk => hm hk.1]
  rcases hok with hcomplete | ⟨hnone, htouch, hold⟩ | ⟨hsome, hgrows⟩
  · exact h.of_complete hcomplete honly (fun m => S3Sim.sealed_putChunk) hsame
  · refine ⟨honly, fun m hm => ?_, fun m d hm => ?_⟩
    · rw [S3Sim.sealed_putChunk] at hm
      by_cases hmn : m = n
      · subst hmn
        exact (h.gapless m hm).putChunk htouch hold
      · exact gapless_congr (h.gapless m hm) fun p => hsame m p hmn
    · rw [S3Sim.sealed_putChunk] at hm
      refine (h.sealed m d hm).imp_right fun hin => inChunks_congr hin fun p => hsame m p ?_
      rintro rfl
      rw [hnone] at hm
      exact absurd hm (by simp)
  · refine ⟨honly, fun m hm => ?_, fun m d hm => ?_⟩
    · rw [S3Sim.sealed_putChunk] at hm
      refine gapless_congr (h.gapless m hm) fun p => hsame m p ?_
      rintro rfl
      rw [hm] at hsome
      exact absurd hsome (by simp)
    · rw [S3Sim.sealed_putChunk] at hm
      refine (h.sealed m d hm).imp_right fun hin => ?_
      by_cases hmn : m = n
      · subst hmn
        exact fun q hq => (hin q hq).putChunk (.inr hgrows)
      · exact inChunks_congr hin fun p => hsame m p hmn

theorem NoHoles.putSealed (h : NoHoles ns tl sim) (hok : (Effect.sealed n data).InOrder ns tl sim) :
    NoHoles ns tl (sim.putSealed ns tl n data) := by
  have hsame : ∀ m p, (sim.putSealed ns tl n data).chunk ns tl m p = sim.chunk ns tl m p :=
    fun m p => S3Sim.chunk_putSealed
  refine ⟨h.only.apply (.sealed n data), fun m hm => ?_, fun m d hm => ?_⟩
  · rw [S3Sim.sealed_putSealed] at hm
    split_ifs at hm with hmn
    exact gapless_congr (h.gapless m hm) (hsame m)
  · rw [S3Sim.sealed_putSealed] at hm
    split_ifs at hm with hmn
    · subst hmn
      rw [← Option.some.inj hm]
      exact hok.imp_right fun hin => inChunks_congr hin (hsame m)
    · exact (h.sealed m d hm).imp_right fun hin => inChunks_congr hin (hsame m)

/-- **An effect in order leaves no holes.** -/
theorem NoHoles.apply (h : NoHoles ns tl sim) {e : Effect} (hok : e.InOrder ns tl sim) :
    NoHoles ns tl (e.apply ns tl sim) := by
  cases e with
  | chunk n o data => exact h.chunk hok
  | sealed n data => exact h.putSealed hok
  | deleteChunks n =>
    exact h.of_complete hok (h.only.apply (.deleteChunks n)) (fun m => S3Sim.sealed_deleteChunks)
      fun m o hm => S3Sim.chunk_deleteChunks.trans (if_neg hm)
  | removeChunk n o =>
    exact h.of_complete hok (h.only.apply (.removeChunk n o)) (fun m => S3Sim.sealed_removeChunk)
      fun m p hm => S3Sim.chunk_removeChunk_of_ne hm

/-- What a step does to the archive, file by file. -/
theorem sim_diskStep {r r' : Receiver} {l : DiskLabel} (hs : r.diskStep ns tl l = some r') :
    r'.sim = (r.diskEffect l).elim r.sim (Effect.apply ns tl r.sim) := by
  cases l with
  | step l => exact sim_step hs
  | creates l =>
    obtain ⟨e, he, rfl⟩ := Option.map_eq_some_iff.mp hs
    rw [he]
    rfl
  | removes l offset =>
    obtain ⟨e, he, rfl⟩ := Option.map_eq_some_iff.mp hs
    rw [he]
    rfl

/-- **A step in order leaves no holes.** -/
theorem NoHoles.step {r r' : Receiver} {l : DiskLabel} (h : NoHoles ns tl r.sim)
    (hok : InOrder ns tl r l) (hs : r.diskStep ns tl l = some r') : NoHoles ns tl r'.sim := by
  rw [sim_diskStep hs]
  cases he : r.diskEffect l with
  | none => exact h
  | some e => exact h.apply (hok e he)

/-- **What an entry says of its segment is stored.** -/
theorem NoHoles.segEntry (h : NoHoles ns tl sim) {objs : List (UInt64 × Option ℕ)}
    (hsealed : ∀ n, (n, none) ∈ objs ↔ (sim.sealed ns tl n).isSome = true)
    (hchunk : ∀ n o, (n, some o) ∈ objs → (sim.chunk ns tl n o).isSome = true) {acc : Acc}
    (hacc : acc.Shows objs n) {p : ℕ} (hlo : (Wal.segEntry ns tl sim n.toNat acc).lo ≤ p)
    (hhi : p < (Wal.segEntry ns tl sim n.toNat acc).hi) : Stored ns tl sim p := by
  have hbase : segBase n = n.toNat * xlogSegSize := rfl
  have hstored : ∀ q, InChunk ns tl sim n q → Stored ns tl sim (segBase n + q) := by
    rintro q ⟨o, data, hc, ho, ho'⟩
    exact .inr ⟨n, o, data, hc, by omega, by omega⟩
  cases hs : acc.sealed with
  | true =>
    rw [Wal.segEntry, if_pos hs] at hlo hhi
    dsimp only at hlo hhi
    rw [Nat.succ_mul] at hhi
    obtain ⟨data, hdata⟩ := Option.isSome_iff_exists.mp ((hsealed n).mp (hacc.sealed.mp hs))
    rw [← hbase] at hlo hhi
    rcases h.sealed n data hdata with hlen | hin
    · exact .inl ⟨n, data, hdata, hlo, by omega⟩
    · have hp := hstored _ (hin (p - segBase n) (by omega))
      rwa [Nat.add_sub_cancel' hlo] at hp
  | false =>
    obtain ⟨hmin, hmax⟩ := hacc.some_off hs
    obtain ⟨lo, hlo'⟩ := Option.isSome_iff_exists.mp hmin
    obtain ⟨hi, hhi'⟩ := Option.isSome_iff_exists.mp hmax
    obtain ⟨dlo, hdlo⟩ := Option.isSome_iff_exists.mp (hchunk n lo (hacc.minOff lo hlo'))
    obtain ⟨dhi, hdhi⟩ := Option.isSome_iff_exists.mp (hchunk n hi (hacc.maxOff hi hhi'))
    have hget : sim.get (walChunkKey ns.fmt tl (walSegName tl (UInt64.ofNat n.toNat)) hi) =
        .ok dhi := by
      rw [UInt64.ofNat_toNat, S3Sim.get, norm_walChunkKey]
      rw [S3Sim.chunk] at hdhi
      rw [hdhi]
    rw [Wal.segEntry, if_neg (by rw [hs]; simp), hlo', hhi'] at hlo hhi
    dsimp only [Option.getD_some] at hlo hhi
    rw [hget] at hhi
    dsimp only at hhi
    have hnone : sim.sealed ns tl n = none := by
      cases hl : sim.sealed ns tl n with
      | none => rfl
      | some d =>
        have hcon := hacc.sealed.mpr ((hsealed n).mpr (by rw [hl]; rfl))
        rw [hs] at hcon
        exact absurd hcon (by simp)
    -- between the lowest and the highest chunk there is no hole
    have hp := hstored _ (h.gapless n hnone (p - segBase n) ⟨lo, dlo, hdlo, by omega⟩
      ⟨hi, dhi, hdhi, by omega⟩)
    rwa [Nat.add_sub_cancel' (by omega)] at hp

/-- No file of the timeline's WAL. -/
def NoWal (ns : DbNamespace) (tl : TimelineId) (sim : S3Sim) : Prop :=
  ∀ file, (sim.files.lookup file).isSome = true →
    file ≠ walPath ns tl ∧ S3Sim.below (walPath ns tl) file = false

theorem NoWal.noHoles (h : NoWal ns tl sim) : NoHoles ns tl sim := by
  have hbelow : ∀ file, (sim.files.lookup file).isSome = true →
      S3Sim.below (walPath ns tl) file ≠ true := by
    intro file hf
    rw [(h file hf).2]
    simp
  refine ⟨fun file hf => ⟨(h file hf).1, fun hb => absurd hb (hbelow file hf)⟩, fun n _ q hlo => ?_,
    fun n data hn => ?_⟩
  · obtain ⟨o, data, hc, -⟩ := hlo
    rw [S3Sim.chunk] at hc
    refine absurd ?_ (hbelow (chunkKey ns tl n o) (by rw [hc]; rfl))
    rw [chunkKey_eq_dir]
    exact below_walPath_append _
  · rw [S3Sim.sealed] at hn
    refine absurd ?_ (hbelow (segKey ns tl n) (by rw [hn]; rfl))
    rw [segKey_eq]
    exact below_walPath_append _

/-- **The window is archived in every run of steps in order.** -/
theorem window_archived (ns : DbNamespace) (tl : TimelineId) {sim : S3Sim} (hsim : NoWal ns tl sim)
    {r : Receiver} (hr : Reaches (Receiver.diskStep ns tl) (InOrder ns tl) (.initial sim) r) {wLo wHi : ℕ}
    (hrun : archivedWalRun ns tl r.sim = .ok (wLo, wHi)) : ∀ p, wLo ≤ p → p < wHi → Stored ns tl r.sim p := by
  have hinv : NoHoles ns tl r.sim :=
    hr.invariant (I := fun r => NoHoles ns tl r.sim) hsim.noHoles fun _ _ _ h hok hs => h.step hok hs
  obtain ⟨keys, hlist, hsealed, hchunk⟩ := hinv.only.listWal
  have htable : Table (classify (walTimelineDir ns.fmt tl) .empty keys)
      ([] ++ keys.filterMap fun key => parseWalKey key (walTimelineDir ns.fmt tl)) :=
    Table.classify ⟨fun k acc hk => absurd hk (by simp), fun n off hn => absurd hn List.not_mem_nil⟩
  rw [List.nil_append] at htable
  rw [archivedWalRun, hlist] at hrun
  dsimp only at hrun
  split_ifs at hrun
  cases hw : walContiguousRun ((classify (walTimelineDir ns.fmt tl) .empty keys).entries.map fun p =>
      Wal.segEntry ns tl r.sim p.1 p.2) with
  | none =>
    rw [hw] at hrun
    exact absurd hrun (by simp)
  | some window =>
    rw [hw] at hrun
    obtain rfl := Except.ok.inj hrun
    refine walContiguousRun_sound (fun e he p hlo hhi => ?_) hw
    obtain ⟨⟨k, acc⟩, hmem, rfl⟩ := List.mem_map.mp he
    obtain ⟨n, rfl, hacc⟩ := htable.1 k acc ((SortedMap.mem_entries_iff _ _ _).mp hmem)
    exact hinv.segEntry hsealed hchunk hacc hlo hhi

/-! ### A window without holes -/

/-- Steps without an effect. -/
theorem inOrder_of_noEffect {r : Receiver} {l : DiskLabel} (h : r.diskEffect l = none) :
    InOrder ns tl r l := by
  intro e he
  rw [h] at he
  exact absurd he (by simp)

theorem run_disk (r : Receiver) (labels : List Label) :
    run (Receiver.diskStep ns tl) r (labels.map .step) = run (Receiver.step ns tl) r labels := by
  induction labels generalizing r with
  | nil => rfl
  | cons l labels ih =>
    rw [List.map_cons, run, run]
    congr 1
    funext r'
    exact ih r'

/-- The first chunk PUT of a segment may create its file. -/
theorem inOrder_first (h : sim.sealed ns tl n = none) (hnone : ∀ o, sim.chunk ns tl n o = none) :
    (Effect.chunk n o []).InOrder ns tl sim := by
  refine .inr (.inl ⟨h, .inl hnone, .inl fun old hold => ?_⟩)
  rw [hnone o] at hold
  exact absurd hold (by simp)

/-- A chunk PUT that has created its file may write it. -/
theorem inOrder_created (h : sim.sealed ns tl n = none) :
    (Effect.chunk n o data).InOrder ns tl (sim.putChunk ns tl n o []) := by
  have hcreated : (sim.putChunk ns tl n o []).chunk ns tl n o = some [] := by
    rw [S3Sim.chunk_putChunk, if_pos ⟨rfl, rfl⟩]
  refine .inr (.inl ⟨by rw [S3Sim.sealed_putChunk, h], .inr ⟨o, [], hcreated, ?_, ?_⟩,
    .inl fun old hold => ?_⟩)
  · omega
  · exact Nat.le_add_right _ _
  · rw [hcreated] at hold
    rw [← Option.some.inj hold]
    exact Nat.zero_le _

theorem effect_arriving : ∀ l ∈ arriving, ∀ r : Receiver, r.effect l = none := by
  intro l hl r
  simp only [arriving, List.mem_cons, List.not_mem_nil, or_false] at hl
  rcases hl with rfl | rfl | rfl | rfl | rfl <;> rfl

/-- The stream that crosses a boundary, up to the chunk with the last byte of segment 0: the PUT creates
its file and writes it. -/
theorem window_archived_crossing : ∃ r,
    Reaches (Receiver.diskStep ⟨1, 1⟩ 1) (InOrder ⟨1, 1⟩ 1) (.initial ⟨.empty⟩) r ∧
    archivedWalRun ⟨1, 1⟩ 1 r.sim = .ok (xlogSegSize - 1, xlogSegSize) ∧
    Stored ⟨1, 1⟩ 1 r.sim (xlogSegSize - 1) := by
  have hpos := xlogSegSize_pos
  have hnowal : NoWal ⟨1, 1⟩ 1 ⟨.empty⟩ := fun file hf => absurd hf (by simp)
  generalize hconn : crossingConn (some crossingSeg) (.tail false) xlogSegSize [2] = c
  have hpc : c.pc = .tail false := by rw [← hconn]; rfl
  have hst : c.curSeg = some crossingSeg := by rw [← hconn]; rfl
  have harrived : run (Receiver.diskStep ⟨1, 1⟩ 1) (.initial ⟨.empty⟩) (arriving.map .step) =
      some ⟨⟨.empty⟩, 0, some c, []⟩ := by
    rw [run_disk, run_arriving, hconn]
  have harriving : Reaches (Receiver.diskStep ⟨1, 1⟩ 1) (InOrder ⟨1, 1⟩ 1) (.initial ⟨.empty⟩)
      ⟨⟨.empty⟩, 0, some c, []⟩ := by
    refine reaches_of_run harrived (.of_forall (fun l hl r => inOrder_of_noEffect ?_) _)
    obtain ⟨l', hl', rfl⟩ := List.mem_map.mp hl
    exact effect_arriving l' hl' r
  have heffect : ∀ sim : S3Sim, (⟨sim, 0, some c, []⟩ : Receiver).effect .putLands =
      some (.chunk crossingSeg.segNo crossingSeg.chunksUploaded crossingSeg.tail) := by
    intro sim
    rw [Receiver.effect, Option.bind_some, hpc, hst]
  have hcreates : Receiver.diskStep ⟨1, 1⟩ 1 ⟨⟨.empty⟩, 0, some c, []⟩ (.creates .putLands) =
      some ⟨S3Sim.putChunk ⟨1, 1⟩ 1 ⟨.empty⟩ crossingSeg.segNo crossingSeg.chunksUploaded [], 0, some c,
        []⟩ := by
    rw [Receiver.diskStep, Receiver.diskEffect, heffect]
    · rfl
    · simp
  have hwrites : Receiver.diskStep ⟨1, 1⟩ 1 ⟨S3Sim.putChunk ⟨1, 1⟩ 1 ⟨.empty⟩ crossingSeg.segNo
      crossingSeg.chunksUploaded [], 0, some c, []⟩ (.step .putLands) =
      some ⟨(S3Sim.putChunk ⟨1, 1⟩ 1 ⟨.empty⟩ crossingSeg.segNo crossingSeg.chunksUploaded []).putChunk
        ⟨1, 1⟩ 1 crossingSeg.segNo crossingSeg.chunksUploaded crossingSeg.tail, 0,
        some (c.afterJoin crossingSeg false), []⟩ := by
    rw [Receiver.diskStep]
    exact Receiver.step_tail rfl hpc hst
  have hcreated := harriving.tail (fun e he => ?_) hcreates
  have hwritten := hcreated.tail (fun e he => ?_) hwrites
  · have hrun : archivedWalRun ⟨1, 1⟩ 1 ((S3Sim.putChunk ⟨1, 1⟩ 1 ⟨.empty⟩ crossingSeg.segNo
        crossingSeg.chunksUploaded []).putChunk ⟨1, 1⟩ 1 crossingSeg.segNo crossingSeg.chunksUploaded
        crossingSeg.tail) = .ok (xlogSegSize - 1, xlogSegSize) := by
      rw [show crossingSeg.tail = [1] from List.drop_left' (List.length_replicate ..)]
      decide +kernel
    exact ⟨_, hwritten, hrun, window_archived ⟨1, 1⟩ 1 hnowal hwritten hrun _ le_rfl (by omega)⟩
  · rw [Receiver.diskEffect, heffect] at he
    rw [← Option.some.inj he]
    exact inOrder_created rfl
  · rw [Receiver.diskEffect, heffect] at he
    rw [← Option.some.inj he]
    exact inOrder_first rfl fun _ => rfl

/-! ### A window with a hole -/

/-- A connection from LSN 0. -/
def zeroConn (seg : Option SegState) (pc : Pc) (cursor : ℕ) (data : Bytes) : Conn :=
  ⟨0, 0, seg, 0, pc, cursor, data, []⟩

theorem receive_zeroConn (hne : data ≠ []) :
    (zeroConn none .recv 0 []).receive (.copyData (xlogMsg 0 data)) = zeroConn none .ingest 0 data := by
  rw [Conn.receive, parse_xlogMsg (by decide) hne]
  rfl

theorem ingest_zeroConn (hne : data ≠ []) (hlen : data.length ≤ xlogSegSize) :
    (zeroConn none .ingest 0 data).ingest =
      zeroConn (some ((SegState.new 0).extend data)) .ingest data.length [] := by
  have hmin : min (xlogSegSize - 0 % xlogSegSize) data.length = data.length := by
    rw [Nat.zero_mod, Nat.sub_zero, min_eq_right hlen]
  have hstart : SegState.startAt (UInt64.ofNat (0 / xlogSegSize)) (0 % xlogSegSize) = .new 0 := by
    rw [Nat.zero_div, Nat.zero_mod, SegState.startAt, if_neg (lt_irrefl 0)]
    rfl
  unfold zeroConn Conn.ingest
  dsimp only
  rw [if_neg hne, if_neg (by simp), hmin, Option.getD_none, hstart, List.take_length, List.drop_length,
    Nat.zero_add]

/-- A piece that fills the windows of a new segment. -/
theorem chunkTasks_windows {w : ℕ → UInt8} {k : ℕ} (hdata : data = slice w 0 (k * chunkBytes)) :
    ((SegState.new n).extend data).chunkTasks =
      (List.range k).map fun j => (j * chunkBytes, slice w (j * chunkBytes) chunkBytes) := by
  have hlen : data.length = k * chunkBytes := by rw [hdata, length_slice]
  have hq : (k * chunkBytes - 0) / chunkBytes = k := by
    rw [Nat.sub_zero, Nat.mul_div_cancel _ chunkBytes_pos]
  rw [SegState.extend, SegState.spawnWindows_eq]
  dsimp only [SegState.new]
  rw [List.nil_append, List.nil_append, hlen, hq]
  refine List.map_congr_left fun j hj => ?_
  have hmul := Nat.mul_le_mul_right chunkBytes (List.mem_range.mp hj)
  rw [Nat.succ_mul] at hmul
  rw [Nat.zero_add, hdata, drop_slice, take_slice, Nat.zero_add,
    min_eq_left (show chunkBytes ≤ k * chunkBytes - j * chunkBytes by omega)]

/-- The PUTs of the first and the third window succeed, that of the second has not yet. -/
theorem run_windows {w : ℕ → UInt8} (hdata : data = slice w 0 (3 * chunkBytes)) (sim : S3Sim) :
    ∃ r, run (Receiver.step ns tl) (.initial sim)
        [.connect 0, .input (.copyData (xlogMsg 0 data)), .run, .taskLands 0, .taskLands 1] = some r ∧
      r.sim = (sim.putChunk ns tl 0 0 (slice w 0 chunkBytes)).putChunk ns tl 0 (2 * chunkBytes)
        (slice w (2 * chunkBytes) chunkBytes) := by
  have hlen : data.length = 3 * chunkBytes := by rw [hdata, length_slice]
  have hne : data ≠ [] := by
    rw [← List.length_pos_iff, hlen]
    decide
  have hle : data.length ≤ xlogSegSize := by
    rw [hlen]
    decide
  have hconn : Conn.new 0 0 = zeroConn none .recv 0 [] := rfl
  have hsegNo : ((SegState.new 0).extend data).segNo = 0 := SegState.segNo_extend _
  have htasks : ((SegState.new 0).extend data).chunkTasks = [(0 * chunkBytes, slice w (0 * chunkBytes)
      chunkBytes), (1 * chunkBytes, slice w (1 * chunkBytes) chunkBytes),
      (2 * chunkBytes, slice w (2 * chunkBytes) chunkBytes)] := chunkTasks_windows hdata
  have hfirst : ((SegState.new 0).extend data).chunkTasks[0]? =
      some (0 * chunkBytes, slice w (0 * chunkBytes) chunkBytes) := by
    rw [htasks, List.getElem?_cons_zero]
  have hlast : (((SegState.new 0).extend data).chunkTasks.eraseIdx 0)[1]? =
      some (2 * chunkBytes, slice w (2 * chunkBytes) chunkBytes) := by
    rw [htasks, List.eraseIdx_cons_zero, List.getElem?_cons_succ, List.getElem?_cons_zero]
  generalize hseg : (SegState.new 0).extend data = seg at hsegNo hfirst hlast
  rw [run, Receiver.step_connect rfl, Option.bind_some, run, Receiver.step_input rfl rfl,
    Option.bind_some]
  dsimp only [Receiver.initial]
  rw [hconn, receive_zeroConn hne, run, Receiver.step_ingest rfl rfl, Option.bind_some,
    ingest_zeroConn hne hle, hseg, run, Receiver.step_taskLands rfl rfl hfirst, Option.bind_some, run,
    Receiver.step_taskLands rfl rfl hlast, Option.bind_some, run]
  refine ⟨_, rfl, ?_⟩
  dsimp only
  rw [hsegNo, Nat.zero_mul]

/-- The key of a chunk of segment 0. -/
def zeroKey (o : ℕ) : Str := chunkKey ⟨1, 1⟩ 1 0 o

/-- The directory of the timeline. -/
def zeroDir : Str := walTimelineDir (DbNamespace.fmt ⟨1, 1⟩) 1

theorem listWal_twoChunks (first last : Bytes) :
    listWal ⟨1, 1⟩ 1 ((S3Sim.putChunk ⟨1, 1⟩ 1 ⟨.empty⟩ 0 0 first).putChunk ⟨1, 1⟩ 1 0
      (2 * chunkBytes) last) = .ok [zeroKey 0, zeroKey (2 * chunkBytes)] := by
  have hlt : zeroKey 0 < zeroKey (2 * chunkBytes) := by decide +kernel
  have hentries : ((SortedMap.empty.insert (zeroKey 0) first).insert (zeroKey (2 * chunkBytes))
      last).entries = [(zeroKey 0, first), (zeroKey (2 * chunkBytes), last)] := by
    have hone : (SortedMap.empty.insert (zeroKey 0) first).entries = [(zeroKey 0, first)] := rfl
    rw [SortedMap.entries_insert_of_gt, hone]
    · rfl
    · intro x hx
      rw [hone] at hx
      rw [List.mem_singleton.mp hx]
      exact hlt
  have hdir : walPath ⟨1, 1⟩ 1 ≠ zeroKey 0 ∧ walPath ⟨1, 1⟩ 1 ≠ zeroKey (2 * chunkBytes) := by
    decide +kernel
  have hbelow : [zeroKey 0, zeroKey (2 * chunkBytes)].filter (S3Sim.below (walPath ⟨1, 1⟩ 1)) =
      [zeroKey 0, zeroKey (2 * chunkBytes)] := by decide +kernel
  have hkeys : ((SortedMap.empty.insert (zeroKey 0) first).insert (zeroKey (2 * chunkBytes))
      last).keys = [zeroKey 0, zeroKey (2 * chunkBytes)] := by
    rw [SortedMap.keys, hentries]
    rfl
  rw [listWal, S3Sim.listPrefix, norm_walTimelineDir, S3Sim.putChunk, S3Sim.putChunk, S3Sim.put,
    S3Sim.put, norm_walChunkKey, norm_walChunkKey]
  dsimp only
  rw [show chunkKey ⟨1, 1⟩ 1 0 0 = zeroKey 0 from rfl,
    show chunkKey ⟨1, 1⟩ 1 0 (2 * chunkBytes) = zeroKey (2 * chunkBytes) from rfl,
    SortedMap.lookup_insert_of_ne _ _ hdir.2, SortedMap.lookup_insert_of_ne _ _ hdir.1,
    SortedMap.lookup_empty]
  change Except.ok (((SortedMap.empty.insert (zeroKey 0) first).insert (zeroKey (2 * chunkBytes))
      last).keys.filter (S3Sim.below (walPath ⟨1, 1⟩ 1))) = _
  rw [hkeys, hbelow]

/-- Two chunks of segment 0: the window goes from 0 to the end of the second. -/
theorem archivedWalRun_twoChunks (first last : Bytes) :
    archivedWalRun ⟨1, 1⟩ 1 ((S3Sim.putChunk ⟨1, 1⟩ 1 ⟨.empty⟩ 0 0 first).putChunk ⟨1, 1⟩ 1 0
      (2 * chunkBytes) last) = .ok (0, 2 * chunkBytes + last.length) := by
  have hlist := listWal_twoChunks first last
  have htable : (classify zeroDir .empty [zeroKey 0, zeroKey (2 * chunkBytes)]).entries =
      [(0, ⟨false, some 0, some (2 * chunkBytes)⟩)] := by decide +kernel
  generalize hsim : (S3Sim.putChunk ⟨1, 1⟩ 1 ⟨.empty⟩ 0 0 first).putChunk ⟨1, 1⟩ 1 0
      (2 * chunkBytes) last = sim at hlist ⊢
  have hchunk : sim.get (walChunkKey (DbNamespace.fmt ⟨1, 1⟩) 1 (walSegName 1 (UInt64.ofNat 0))
      (2 * chunkBytes)) = .ok last := by
    have hc : sim.chunk ⟨1, 1⟩ 1 0 (2 * chunkBytes) = some last := by
      rw [← hsim, S3Sim.chunk_putChunk, if_pos ⟨rfl, rfl⟩]
    rw [S3Sim.chunk] at hc
    rw [S3Sim.get, norm_walChunkKey, show UInt64.ofNat 0 = 0 from rfl, hc]
  have hentry : segEntry ⟨1, 1⟩ 1 sim 0 ⟨false, some 0, some (2 * chunkBytes)⟩ =
      ⟨0, 0, 2 * chunkBytes + last.length, false⟩ := by
    rw [segEntry, if_neg (by simp), Option.getD_some, Option.getD_some]
    dsimp only
    rw [hchunk, Nat.zero_mul, Nat.zero_add, Nat.zero_add]
  rw [archivedWalRun, hlist]
  dsimp only
  rw [show walTimelineDir (DbNamespace.fmt ⟨1, 1⟩) 1 = zeroDir from rfl, htable, if_neg (by simp),
    List.map_cons, List.map_nil, hentry]
  rfl

/-- A step of a receiver to which the WAL `w` is streamed. -/
def Streams (w : ℕ → UInt8) (r : Receiver) : DiskLabel → Prop
  | .step l => Contiguous w r l
  | _ => True

theorem reaches_disk {w : ℕ → UInt8} {r r' : Receiver}
    (h : Reaches (Receiver.step ns tl) (Contiguous w) r r') :
    Reaches (Receiver.diskStep ns tl) (Streams w) r r' := by
  induction h with
  | refl => exact .refl
  | @tail s s' l _ hok hs ih => exact ih.tail (l := .step l) hok hs

/-- **The window has a hole.** The PUT in the middle has not landed. -/
theorem window_with_hole : ∃ r,
    Reaches (Receiver.diskStep ⟨1, 1⟩ 1) (Streams fun _ => 7) (.initial ⟨.empty⟩) r ∧
    archivedWalRun ⟨1, 1⟩ 1 r.sim = .ok (0, 3 * chunkBytes) ∧ chunkBytes < 3 * chunkBytes ∧
    ¬ Stored ⟨1, 1⟩ 1 r.sim chunkBytes := by
  have hpos := chunkBytes_pos
  obtain ⟨data, hdata⟩ : ∃ data : Bytes, data = slice (fun _ => 7) 0 (3 * chunkBytes) := ⟨_, rfl⟩
  have hlen : data.length = 3 * chunkBytes := by rw [hdata, length_slice]
  have hne : data ≠ [] := by
    rw [← List.length_pos_iff, hlen]
    omega
  obtain ⟨r, hrun, hsim⟩ := run_windows hdata (⟨.empty⟩ : S3Sim)
  have hok : Throughout (Receiver.step ⟨1, 1⟩ 1) (Contiguous fun _ => 7) (.initial ⟨.empty⟩)
      [.connect 0, .input (.copyData (xlogMsg 0 data)), .run, .taskLands 0, .taskLands 1] := by
    refine ⟨Nat.zero_le _, fun r₁ h₁ => ⟨?_, fun _ _ => ⟨trivial, fun _ _ => ⟨trivial, fun _ _ =>
      ⟨trivial, fun _ _ => trivial⟩⟩⟩⟩⟩
    intro c start data' hc hparse
    rw [parse_xlogMsg (by decide) hne] at hparse
    obtain ⟨rfl, rfl⟩ := Prod.mk.inj (Option.some.inj hparse)
    rw [Receiver.step_connect rfl] at h₁
    rw [← Option.some.inj h₁] at hc
    rw [← Option.some.inj hc]
    refine ⟨rfl, by rw [hlen]; exact hdata, ?_⟩
    rw [hlen]
    decide
  refine ⟨r, reaches_disk (reaches_of_run hrun hok), ?_, by omega, ?_⟩
  · rw [hsim, archivedWalRun_twoChunks, length_slice]
    decide
  · rw [hsim]
    rintro (⟨n, d, hn, -⟩ | ⟨n, o, d, hc, hlo, hhi⟩)
    · rw [S3Sim.sealed_putChunk, S3Sim.sealed_putChunk] at hn
      exact absurd hn (by simp [S3Sim.sealed])
    · rw [S3Sim.chunk_putChunk, S3Sim.chunk_putChunk] at hc
      split_ifs at hc with hlast hfirst
      · rw [hlast.1, hlast.2, show segBase 0 = 0 from Nat.zero_mul _] at hlo
        omega
      · rw [hfirst.1, hfirst.2, ← Option.some.inj hc, length_slice,
          show segBase 0 = 0 from Nat.zero_mul _] at hhi
        omega
      · exact absurd hc (by simp [S3Sim.chunk])

end Holes

end Tiko.Wal

import Mathlib.Data.Char
import Mathlib.Data.List.Lex
import Tiko.Lib.SortedMap
import Tiko.Wal.Restore

/-!
# The storage of WAL objects

`S3Sim` keeps every object in a file: a key is a path, so repeated slashes in it do not count, a delete
of a directory removes everything below it, and a listing returns the paths below a directory in
order.

* `segKey`, `chunkKey`: the files of a sealed segment and of a chunk. The receiver's chunk keys have
  two slashes in a row (`norm_walChunkKey`);
* `S3Sim.sealed`, `S3Sim.chunk`: the objects of a timeline, with what each operation does to them.
-/

namespace Tiko

open Lib

/-- `DbNamespace`, as far as keys show it. -/
structure DbNamespace where
  orgId : UInt64
  dbId : UInt64

/-- The `Display` of a namespace: `org/db` in decimal. -/
def DbNamespace.fmt (ns : DbNamespace) : Str :=
  Nat.toDigits 10 ns.orgId.toNat ++ ['/'] ++ Nat.toDigits 10 ns.dbId.toNat

/-- The path of a key: repeated slashes are one, and a last one does not count. -/
def norm (key : Str) : Str := ['/'].intercalate ((key.splitOn '/').filter (· ≠ []))

/-- `S3Sim`: the files below its root, with their contents before compression. -/
structure S3Sim where
  files : SortedMap Str Bytes

namespace S3Sim

/-- `S3Sim::put`. -/
def put (s : S3Sim) (key : Str) (data : Bytes) : S3Sim := ⟨s.files.insert (norm key) data⟩

/-- `S3Sim::get`. -/
def get (s : S3Sim) (key : Str) : Except Error Bytes :=
  match s.files.lookup (norm key) with
  | some data => .ok data
  | none => .error .notFound

/-- Whether a file is below a directory. -/
def below (dir file : Str) : Bool := (dir ++ ['/']).isPrefixOf file

/-- `S3Sim::delete`, of a file or of a directory with all that is below it. -/
def delete (s : S3Sim) (key : Str) : S3Sim :=
  ⟨s.files.filter fun file _ => !(file == norm key || below (norm key) file)⟩

/-- `S3Sim::list_prefix`; reading a file as a directory is an error. -/
def listPrefix (s : S3Sim) (pre : Str) : Except Error (List Str) :=
  match s.files.lookup (norm pre) with
  | some _ => .error .io
  | none => .ok (s.files.keys.filter (below (norm pre)))

/-- The reading half, as `restore` uses it. -/
def objects (s : S3Sim) : ObjectStorage := ⟨s.get, s.listPrefix⟩

end S3Sim

/-! ## Paths -/

section Paths

variable {comps comps' : List Str}

/-- A component of a path. -/
def IsComponent (c : Str) : Prop := c ≠ [] ∧ '/' ∉ c

/-- **Keys with slash-free components have the path of their non-empty components.** -/
theorem norm_intercalate (h : ∀ c ∈ comps, '/' ∉ c) (hne : comps ≠ []) :
    norm (['/'].intercalate comps) = ['/'].intercalate (comps.filter (· ≠ [])) := by
  rw [norm, List.splitOn_intercalate '/' h hne]

theorem norm_of_isComponent (h : ∀ c ∈ comps, IsComponent c) (hne : comps ≠ []) :
    norm (['/'].intercalate comps) = ['/'].intercalate comps := by
  rw [norm_intercalate (fun c hc => (h c hc).2) hne]
  congr 1
  refine List.filter_eq_self.mpr fun c hc => ?_
  simpa using (h c hc).1

theorem intercalate_inj (h : ∀ c ∈ comps, '/' ∉ c) (hne : comps ≠ [])
    (h' : ∀ c ∈ comps', '/' ∉ c) (hne' : comps' ≠ []) :
    ['/'].intercalate comps = ['/'].intercalate comps' ↔ comps = comps' := by
  constructor
  · intro he
    rw [← List.splitOn_intercalate '/' h hne, he, List.splitOn_intercalate '/' h' hne']
  · rintro rfl
    rfl

end Paths

/-! ## The keys of a timeline -/

section Keys

variable (ns : DbNamespace) (tl : TimelineId) (n m : UInt64) (o p : ℕ)

/-- The components of the directory of a timeline. -/
def walDir : List Str :=
  [Nat.toDigits 10 ns.orgId.toNat, Nat.toDigits 10 ns.dbId.toNat, ['w', 'a', 'l'], tl.toHex]

/-- The name of the directory of a segment's chunks. -/
def chunksName : Str := walSegName tl n ++ ['.', 'c', 'h', 'u', 'n', 'k', 's']

/-- The file of a sealed segment. -/
def segKey : Str := ['/'].intercalate (walDir ns tl ++ [walSegName tl n])

/-- The directory of a segment's chunks. -/
def chunkDir : Str := ['/'].intercalate (walDir ns tl ++ [chunksName tl n])

/-- The file of a chunk. -/
def chunkKey : Str := ['/'].intercalate (walDir ns tl ++ [chunksName tl n, Hex.fmt 16 o])

theorem slash_notMem_toDigits (k : ℕ) : '/' ∉ Nat.toDigits 10 k := by
  intro h
  exact absurd (Nat.isDigit_of_mem_toDigits (by decide) (by decide) h) (by decide)

theorem slash_notMem_fmt (w k : ℕ) : '/' ∉ Hex.fmt w k := by
  intro h
  exact absurd (Hex.isDigit_of_mem_fmt h) (by decide)

theorem isComponent_fmt (w k : ℕ) : IsComponent (Hex.fmt w k) :=
  ⟨Hex.fmt_ne_nil w k, slash_notMem_fmt w k⟩

theorem isComponent_walSegName : IsComponent (walSegName tl n) := by
  refine ⟨fun h => Hex.fmt_ne_nil _ _ (List.append_eq_nil_iff.mp h).1, fun h => ?_⟩
  rcases List.mem_append.mp h with h | h
  · exact slash_notMem_fmt _ _ h
  · exact slash_notMem_fmt _ _ h

theorem isComponent_chunksName : IsComponent (chunksName tl n) := by
  have hname := isComponent_walSegName tl n
  refine ⟨fun h => hname.1 (List.append_eq_nil_iff.mp h).1, fun h => ?_⟩
  rcases List.mem_append.mp h with h | h
  · exact hname.2 h
  · exact absurd h (by decide)

theorem isComponent_walDir : ∀ c ∈ walDir ns tl, IsComponent c := by
  intro c hc
  simp only [walDir, List.mem_cons, List.not_mem_nil, or_false] at hc
  rcases hc with rfl | rfl | rfl | rfl
  · exact ⟨Nat.toDigits_ne_nil, slash_notMem_toDigits _⟩
  · exact ⟨Nat.toDigits_ne_nil, slash_notMem_toDigits _⟩
  · exact ⟨by decide, by decide⟩
  · exact isComponent_fmt 8 tl.toNat

theorem isComponent_walDir_append {comps : List Str} (h : ∀ c ∈ comps, IsComponent c) :
    ∀ c ∈ walDir ns tl ++ comps, IsComponent c := by
  intro c hc
  rcases List.mem_append.mp hc with hc | hc
  · exact isComponent_walDir ns tl c hc
  · exact h c hc

theorem norm_walSegment : norm (walSegment ns.fmt tl (walSegName tl n)) = segKey ns tl n := by
  have hkey : walSegment ns.fmt tl (walSegName tl n) =
      ['/'].intercalate (walDir ns tl ++ [walSegName tl n]) := by
    simp [walSegment, DbNamespace.fmt, walDir, List.intercalate, List.intersperse]
  rw [hkey, norm_of_isComponent _ (by simp), segKey]
  refine isComponent_walDir_append ns tl fun c hc => ?_
  rw [List.mem_singleton.mp hc]
  exact isComponent_walSegName tl n

/-- The path of the receiver's key of a chunk has one slash where the key has two. -/
theorem norm_walChunkKey :
    norm (walChunkKey ns.fmt tl (walSegName tl n) o) = chunkKey ns tl n o := by
  have hkey : walChunkKey ns.fmt tl (walSegName tl n) o =
      ['/'].intercalate (walDir ns tl ++ [chunksName tl n, [], Hex.fmt 16 o]) := by
    simp [walChunkKey, walChunkPrefix, chunksSep, chunksName, DbNamespace.fmt, walDir,
      List.intercalate, List.intersperse]
  have hdir : (walDir ns tl).filter (· ≠ []) = walDir ns tl :=
    List.filter_eq_self.mpr fun c hc => by simpa using (isComponent_walDir ns tl c hc).1
  have hslash : ∀ c ∈ walDir ns tl ++ [chunksName tl n, [], Hex.fmt 16 o], '/' ∉ c := by
    intro c hc
    rcases List.mem_append.mp hc with hc | hc
    · exact (isComponent_walDir ns tl c hc).2
    · simp only [List.mem_cons, List.not_mem_nil, or_false] at hc
      rcases hc with rfl | rfl | rfl
      · exact (isComponent_chunksName tl n).2
      · exact List.not_mem_nil
      · exact slash_notMem_fmt 16 o
  rw [hkey, norm_intercalate hslash (by simp), List.filter_append, hdir, chunkKey]
  simp [(isComponent_chunksName tl n).1, Hex.fmt_ne_nil]

theorem norm_walChunkPrefix :
    norm (walChunkPrefix ns.fmt tl (walSegName tl n)) = chunkDir ns tl n := by
  have hkey : walChunkPrefix ns.fmt tl (walSegName tl n) =
      ['/'].intercalate (walDir ns tl ++ [chunksName tl n, []]) := by
    simp [walChunkPrefix, chunksSep, chunksName, DbNamespace.fmt, walDir, List.intercalate,
      List.intersperse]
  have hdir : (walDir ns tl).filter (· ≠ []) = walDir ns tl :=
    List.filter_eq_self.mpr fun c hc => by simpa using (isComponent_walDir ns tl c hc).1
  have hslash : ∀ c ∈ walDir ns tl ++ [chunksName tl n, []], '/' ∉ c := by
    intro c hc
    rcases List.mem_append.mp hc with hc | hc
    · exact (isComponent_walDir ns tl c hc).2
    · simp only [List.mem_cons, List.not_mem_nil, or_false] at hc
      rcases hc with rfl | rfl
      · exact (isComponent_chunksName tl n).2
      · exact List.not_mem_nil
  rw [hkey, norm_intercalate hslash (by simp), List.filter_append, hdir, chunkDir]
  simp [(isComponent_chunksName tl n).1]

/-! ### Different keys -/

variable {ns tl n m o p}

theorem walSegName_inj (h : walSegName tl n = walSegName tl m) : n = m :=
  UInt64.toNat_inj.mp (Hex.fmt_inj (List.append_cancel_left h))

theorem chunksName_inj (h : chunksName tl n = chunksName tl m) : n = m :=
  walSegName_inj (List.append_cancel_right h)

theorem length_walSegName (tl : TimelineId) (n : UInt64) : (walSegName tl n).length = 24 := by
  rw [walSegName_eq]
  simp

theorem segKey_inj : segKey ns tl n = segKey ns tl m ↔ n = m := by
  constructor
  · intro h
    rw [segKey, segKey, intercalate_inj _ (by simp) _ (by simp)] at h
    · exact walSegName_inj (List.singleton_inj.mp (List.append_cancel_left h))
    all_goals
      refine fun c hc => (isComponent_walDir_append ns tl (fun c hc => ?_) c hc).2
      rw [List.mem_singleton.mp hc]
      exact isComponent_walSegName tl _
  · rintro rfl
    rfl

theorem isComponent_chunkPath (ns : DbNamespace) (tl : TimelineId) (n : UInt64) (o : ℕ) :
    ∀ c ∈ walDir ns tl ++ [chunksName tl n, Hex.fmt 16 o], IsComponent c := by
  refine isComponent_walDir_append ns tl fun c hc => ?_
  simp only [List.mem_cons, List.not_mem_nil, or_false] at hc
  rcases hc with rfl | rfl
  · exact isComponent_chunksName tl n
  · exact isComponent_fmt 16 o

theorem chunkKey_inj : chunkKey ns tl n o = chunkKey ns tl m p ↔ n = m ∧ o = p := by
  constructor
  · intro h
    rw [chunkKey, chunkKey, intercalate_inj (fun c hc => (isComponent_chunkPath ns tl n o c hc).2)
      (by simp) (fun c hc => (isComponent_chunkPath ns tl m p c hc).2) (by simp)] at h
    have hlast := List.append_cancel_left h
    rw [List.cons.injEq, List.singleton_inj] at hlast
    exact ⟨chunksName_inj hlast.1, Hex.fmt_inj hlast.2⟩
  · rintro ⟨rfl, rfl⟩
    rfl

/-- A chunk's file is in the directory of its segment. -/
theorem chunkKey_eq : chunkKey ns tl n o = chunkDir ns tl n ++ ['/'] ++ Hex.fmt 16 o := by
  simp [chunkKey, chunkDir, walDir, List.intercalate, List.intersperse]

theorem length_chunkDir (n m : UInt64) :
    (chunkDir ns tl n).length = (segKey ns tl m).length + 7 := by
  simp [chunkDir, segKey, chunksName, walDir, List.intercalate, List.intersperse, length_walSegName]
  omega

theorem chunkDir_inj : chunkDir ns tl n = chunkDir ns tl m ↔ n = m := by
  constructor
  · intro h
    have hkey : chunkKey ns tl n 0 = chunkKey ns tl m 0 := by rw [chunkKey_eq, chunkKey_eq, h]
    exact (chunkKey_inj.mp hkey).1
  · rintro rfl
    rfl

theorem segKey_ne_chunkKey : segKey ns tl n ≠ chunkKey ns tl m o := by
  intro h
  have hlen := congrArg List.length h
  rw [chunkKey_eq, List.length_append, List.length_append, length_chunkDir m n] at hlen
  omega

theorem below_chunkDir_chunkKey :
    S3Sim.below (chunkDir ns tl n) (chunkKey ns tl m o) = true ↔ n = m := by
  rw [S3Sim.below, List.isPrefixOf_iff_prefix, chunkKey_eq]
  constructor
  · intro h
    have hlen : (chunkDir ns tl n ++ ['/']).length = (chunkDir ns tl m ++ ['/']).length := by
      rw [List.length_append, List.length_append, length_chunkDir n n, length_chunkDir m n]
    have heq := List.prefix_of_prefix_length_le h (List.prefix_append _ _) hlen.le
    exact chunkDir_inj.mp (List.append_cancel_right (heq.eq_of_length hlen))
  · rintro rfl
    exact List.prefix_append _ _

theorem below_chunkDir_segKey : S3Sim.below (chunkDir ns tl n) (segKey ns tl m) = false := by
  rw [S3Sim.below, ← Bool.not_eq_true, List.isPrefixOf_iff_prefix]
  intro h
  have hlen := h.length_le
  rw [List.length_append, length_chunkDir n m] at hlen
  omega

theorem chunkKey_ne_chunkDir : chunkKey ns tl m o ≠ chunkDir ns tl n := by
  intro h
  have hlen := congrArg List.length h
  rw [chunkKey_eq, List.length_append, List.length_append, length_chunkDir m n,
    length_chunkDir n n] at hlen
  have hpos : 0 < (Hex.fmt 16 o).length := List.length_pos_of_ne_nil (Hex.fmt_ne_nil 16 o)
  omega

theorem segKey_ne_chunkDir : segKey ns tl m ≠ chunkDir ns tl n := by
  intro h
  have hlen := congrArg List.length h
  rw [length_chunkDir n m] at hlen
  omega

end Keys

/-! ## The objects of a timeline -/

namespace S3Sim

variable (ns : DbNamespace) (tl : TimelineId)

/-- The sealed object of a segment. -/
def sealed (s : S3Sim) (n : UInt64) : Option Bytes := s.files.lookup (segKey ns tl n)

/-- The chunk object of a segment at an offset. -/
def chunk (s : S3Sim) (n : UInt64) (o : ℕ) : Option Bytes := s.files.lookup (chunkKey ns tl n o)

/-- The PUT of a sealed segment. -/
def putSealed (s : S3Sim) (n : UInt64) (data : Bytes) : S3Sim :=
  s.put (walSegment ns.fmt tl (walSegName tl n)) data

/-- The PUT of a chunk. -/
def putChunk (s : S3Sim) (n : UInt64) (o : ℕ) (data : Bytes) : S3Sim :=
  s.put (walChunkKey ns.fmt tl (walSegName tl n) o) data

/-- The delete of a segment's chunks. -/
def deleteChunks (s : S3Sim) (n : UInt64) : S3Sim :=
  s.delete (walChunkPrefix ns.fmt tl (walSegName tl n))

/-- The delete of a single chunk. -/
def removeChunk (s : S3Sim) (n : UInt64) (o : ℕ) : S3Sim :=
  ⟨s.files.filter fun file _ => !(file == chunkKey ns tl n o)⟩

variable {ns tl} {s : S3Sim} {n m : UInt64} {o p : ℕ} {data : Bytes}

@[simp] theorem sealed_putSealed :
    (s.putSealed ns tl n data).sealed ns tl m = if m = n then some data else s.sealed ns tl m := by
  rw [sealed, putSealed, put, norm_walSegment, SortedMap.lookup_insert]
  simp only [segKey_inj]
  rfl

@[simp] theorem chunk_putSealed : (s.putSealed ns tl n data).chunk ns tl m o = s.chunk ns tl m o := by
  rw [chunk, putSealed, put, norm_walSegment]
  exact SortedMap.lookup_insert_of_ne _ _ segKey_ne_chunkKey.symm

@[simp] theorem sealed_putChunk : (s.putChunk ns tl n o data).sealed ns tl m = s.sealed ns tl m := by
  rw [sealed, putChunk, put, norm_walChunkKey]
  exact SortedMap.lookup_insert_of_ne _ _ segKey_ne_chunkKey

@[simp] theorem chunk_putChunk : (s.putChunk ns tl n o data).chunk ns tl m p =
    if m = n ∧ p = o then some data else s.chunk ns tl m p := by
  rw [chunk, putChunk, put, norm_walChunkKey, SortedMap.lookup_insert]
  simp only [chunkKey_inj]
  rfl

@[simp] theorem sealed_deleteChunks : (s.deleteChunks ns tl n).sealed ns tl m = s.sealed ns tl m := by
  rw [sealed, deleteChunks, delete, norm_walChunkPrefix, SortedMap.lookup_filter,
    below_chunkDir_segKey, beq_eq_false_iff_ne.mpr segKey_ne_chunkDir, sealed]
  cases s.files.lookup (segKey ns tl m) <;> rfl

@[simp] theorem chunk_deleteChunks : (s.deleteChunks ns tl n).chunk ns tl m o =
    if m = n then none else s.chunk ns tl m o := by
  rw [chunk, deleteChunks, delete, norm_walChunkPrefix, SortedMap.lookup_filter,
    beq_eq_false_iff_ne.mpr chunkKey_ne_chunkDir, Bool.false_or]
  split_ifs with h
  · rw [below_chunkDir_chunkKey.mpr h.symm]
    cases s.files.lookup (chunkKey ns tl m o) <;> rfl
  · rw [Bool.eq_false_iff.mpr fun hb => h (below_chunkDir_chunkKey.mp hb).symm, chunk]
    cases s.files.lookup (chunkKey ns tl m o) <;> rfl

@[simp] theorem sealed_removeChunk :
    (s.removeChunk ns tl n o).sealed ns tl m = s.sealed ns tl m := by
  rw [sealed, removeChunk, SortedMap.lookup_filter, beq_eq_false_iff_ne.mpr segKey_ne_chunkKey, sealed]
  cases s.files.lookup (segKey ns tl m) <;> rfl

theorem chunk_removeChunk_of_ne (h : m ≠ n) :
    (s.removeChunk ns tl n o).chunk ns tl m p = s.chunk ns tl m p := by
  rw [chunk, removeChunk, SortedMap.lookup_filter,
    beq_eq_false_iff_ne.mpr fun hk => h (chunkKey_inj.mp hk).1, chunk]
  cases s.files.lookup (chunkKey ns tl m p) <;> rfl

theorem get_walSegment : s.get (walSegment ns.fmt tl (walSegName tl n)) =
    ((s.sealed ns tl n).elim (.error .notFound) .ok) := by
  rw [get, norm_walSegment, sealed]
  cases s.files.lookup (segKey ns tl n) <;> rfl

theorem get_chunkKey (h : s.chunk ns tl n o = some data) : s.get (chunkKey ns tl n o) = .ok data := by
  have hnorm : norm (chunkKey ns tl n o) = chunkKey ns tl n o :=
    norm_of_isComponent (isComponent_chunkPath ns tl n o) (by simp)
  rw [chunk] at h
  rw [get, hnorm, h]

end S3Sim

end Tiko

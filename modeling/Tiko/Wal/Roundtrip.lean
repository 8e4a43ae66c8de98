import Tiko.Wal.Cuts
import Tiko.Wal.Restore

/-!
# Archive, then restore

The receiver and `restore` agree through keys alone: what a session has stored for a segment is looked
up under its name, as the sealed object or as a listing of chunks whose offsets are read back from the
text of their keys.

* `Tidy`: below the directory of a segment's chunks there are only chunks (`Tidy.step`);
* `assemble_spec`: what the assembly loop does with chunks that hold slices of one stream, in any order;
* `PageZero`: what is assumed about the first page of a segment.

**`restore_archived`**: `restore` gives back the stream.
-/

namespace Tiko.Wal

open Lib

/-! ## The listing of a segment's chunks -/

section Listing

variable {ns : DbNamespace} {tl : TimelineId} {n : UInt64} {o : ℕ} {sim : S3Sim} {data : Bytes}

theorem lastComponent_append {dir file : Str} (h : '/' ∉ file) :
    lastComponent (dir ++ ['/'] ++ file) = file := by
  have hfile : lastComponent file = file := by
    cases file with
    | nil => rfl
    | cons c cs => rw [lastComponent, if_neg h]
  induction dir with
  | nil =>
    rw [List.nil_append, List.singleton_append, lastComponent, if_pos List.mem_cons_self, hfile]
  | cons c dir ih =>
    rw [List.cons_append, List.cons_append, lastComponent, if_pos (by simp), ih]

/-- **The offset is read back from a key.** -/
theorem chunkOffset_chunkKey (ho : o < 2 ^ 64) : chunkOffset (chunkKey ns tl n o) = some o := by
  rw [chunkOffset, chunkKey_eq, lastComponent_append (slash_notMem_fmt 16 o)]
  exact Hex.fromStr_fmt 16 ho

/-- Below the directory of a segment's chunks there are only chunks, and the directory is no file. -/
def Tidy (ns : DbNamespace) (tl : TimelineId) (sim : S3Sim) : Prop :=
  ∀ n file, (sim.files.lookup file).isSome = true →
    file ≠ chunkDir ns tl n ∧
      (S3Sim.below (chunkDir ns tl n) file = true → ∃ o, file = chunkKey ns tl n o)

theorem Tidy.putChunk (h : Tidy ns tl sim) : Tidy ns tl (sim.putChunk ns tl n o data) := by
  intro m file hf
  rw [S3Sim.putChunk, S3Sim.put, norm_walChunkKey, SortedMap.lookup_insert] at hf
  split_ifs at hf with hkey
  · rw [hkey]
    refine ⟨chunkKey_ne_chunkDir, fun hb => ⟨o, ?_⟩⟩
    rw [below_chunkDir_chunkKey.mp hb]
  · exact h m file hf

theorem Tidy.putSealed (h : Tidy ns tl sim) : Tidy ns tl (sim.putSealed ns tl n data) := by
  intro m file hf
  rw [S3Sim.putSealed, S3Sim.put, norm_walSegment, SortedMap.lookup_insert] at hf
  split_ifs at hf with hkey
  · rw [hkey]
    refine ⟨segKey_ne_chunkDir, fun hb => ?_⟩
    rw [below_chunkDir_segKey] at hb
    exact absurd hb (by simp)
  · exact h m file hf

theorem Tidy.deleteChunks (h : Tidy ns tl sim) : Tidy ns tl (sim.deleteChunks ns tl n) := by
  intro m file hf
  rw [S3Sim.deleteChunks, S3Sim.delete, SortedMap.lookup_filter] at hf
  refine h m file ?_
  cases hl : sim.files.lookup file with
  | none =>
    rw [hl] at hf
    exact absurd hf (by simp)
  | some d => rfl

theorem Tidy.removeChunk (h : Tidy ns tl sim) : Tidy ns tl (sim.removeChunk ns tl n o) := by
  intro m file hf
  rw [S3Sim.removeChunk, SortedMap.lookup_filter] at hf
  refine h m file ?_
  cases hl : sim.files.lookup file with
  | none =>
    rw [hl] at hf
    exact absurd hf (by simp)
  | some d => rfl

theorem sim_advance {r r' : Receiver} {c : Conn} (hs : r.advance c = some r') : r'.sim = r.sim := by
  rw [Receiver.advance] at hs
  split at hs
  · rw [← Option.some.inj hs]
  · rw [← Option.some.inj hs]
  · split_ifs at hs
    · rw [← Option.some.inj hs]
      rfl
    · rw [← Option.some.inj hs]
    · rw [← Option.some.inj hs]
  · rw [← Option.some.inj hs]
  · exact absurd hs (by simp)

/-- **What a step does to the archive.** -/
theorem sim_step {r r' : Receiver} {l : Label} (hs : r.step ns tl l = some r') :
    r'.sim = (r.effect l).elim r.sim (Effect.apply ns tl r.sim) := by
  cases l with
  | connect lsn =>
    rw [Receiver.step] at hs
    split_ifs at hs
    rw [← Option.some.inj hs]
    rfl
  | checkpoint =>
    rw [← Option.some.inj hs]
    rfl
  | input i =>
    obtain ⟨c, -, hs⟩ := Option.bind_eq_some_iff.mp hs
    split_ifs at hs
    rw [← Option.some.inj hs]
    rfl
  | drop =>
    obtain ⟨c, -, rfl⟩ := Option.map_eq_some_iff.mp hs
    rfl
  | run =>
    obtain ⟨c, -, hs⟩ := Option.bind_eq_some_iff.mp hs
    exact sim_advance hs
  | putLands =>
    obtain ⟨c, hc, hs⟩ := Option.bind_eq_some_iff.mp hs
    rw [Receiver.effect, hc, Option.bind_some]
    rw [Receiver.putLands] at hs
    split at hs
    · rw [← Option.some.inj hs]
      rfl
    · rw [← Option.some.inj hs]
      rfl
    · rw [← Option.some.inj hs]
      rfl
    · exact absurd hs (by simp)
  | taskLands i =>
    obtain ⟨c, hc, hs⟩ := Option.bind_eq_some_iff.mp hs
    obtain ⟨st, hst, hs⟩ := Option.bind_eq_some_iff.mp hs
    obtain ⟨t, ht, rfl⟩ := Option.map_eq_some_iff.mp hs
    rw [Receiver.effect, hc, Option.bind_some, hst, Option.bind_some, ht]
    rfl
  | taskFails i =>
    obtain ⟨c, -, hs⟩ := Option.bind_eq_some_iff.mp hs
    obtain ⟨st, -, hs⟩ := Option.bind_eq_some_iff.mp hs
    obtain ⟨t, -, rfl⟩ := Option.map_eq_some_iff.mp hs
    rfl
  | lateLands i =>
    obtain ⟨t, ht, rfl⟩ := Option.map_eq_some_iff.mp hs
    rw [Receiver.effect, ht]
    cases t <;> rfl

/-- **The receiver stores nothing but chunks there.** -/
theorem Tidy.step {r r' : Receiver} {l : Label} (h : Tidy ns tl r.sim)
    (hs : r.step ns tl l = some r') : Tidy ns tl r'.sim := by
  rw [sim_step hs]
  cases r.effect l with
  | none => exact h
  | some e =>
    cases e with
    | chunk n o data => exact h.putChunk
    | sealed n data => exact h.putSealed
    | deleteChunks n => exact h.deleteChunks
    | removeChunk n o => exact h.removeChunk

theorem Tidy.run {labels : List Label} {r t : Receiver} (h : Tidy ns tl r.sim)
    (hrun : run (Receiver.step ns tl) r labels = some t) : Tidy ns tl t.sim := by
  induction labels generalizing r with
  | nil => exact Option.some.inj hrun ▸ h
  | cons l labels ih =>
    obtain ⟨r₁, hs, hrun⟩ := Option.bind_eq_some_iff.mp hrun
    exact ih (h.step hs) hrun

/-- **The listing has the keys of the stored chunks.** -/
theorem Tidy.listPrefix (h : Tidy ns tl sim) (n : UInt64) :
    ∃ keys, sim.objects.listPrefix (walChunkPrefix ns.fmt tl (walSegName tl n)) = .ok keys ∧
      ∀ key, key ∈ keys ↔ ∃ o data, key = chunkKey ns tl n o ∧ sim.chunk ns tl n o = some data := by
  have hdir : sim.files.lookup (chunkDir ns tl n) = none := by
    cases hl : sim.files.lookup (chunkDir ns tl n) with
    | none => rfl
    | some d => exact absurd rfl (h n _ (by rw [hl]; rfl)).1
  refine ⟨sim.files.keys.filter (S3Sim.below (chunkDir ns tl n)), ?_, fun key => ?_⟩
  · change sim.listPrefix _ = _
    rw [S3Sim.listPrefix, norm_walChunkPrefix, hdir]
  · rw [List.mem_filter, SortedMap.mem_keys_iff]
    constructor
    · rintro ⟨hsome, hb⟩
      obtain ⟨o, rfl⟩ := (h n key hsome).2 hb
      obtain ⟨data, hd⟩ := Option.isSome_iff_exists.mp hsome
      exact ⟨o, data, rfl, hd⟩
    · rintro ⟨o, data, rfl, hd⟩
      rw [S3Sim.chunk] at hd
      exact ⟨by rw [hd]; rfl, below_chunkDir_chunkKey.mpr rfl⟩

end Listing

/-! ## Assembling a segment -/

section Assembly

variable {buf data : Bytes} {offset : ℕ}

theorem length_copyInto (h : offset + data.length ≤ buf.length) :
    (copyInto buf offset data).length = buf.length := by
  rw [copyInto, List.length_append, List.length_append, List.length_take, List.length_drop]
  omega

theorem getElem?_copyInto (h : offset + data.length ≤ buf.length) (i : ℕ) :
    (copyInto buf offset data)[i]? =
      if offset ≤ i ∧ i < offset + data.length then data[i - offset]? else buf[i]? := by
  have htake : (buf.take offset).length = offset := by rw [List.length_take]; omega
  rw [copyInto, List.append_assoc]
  by_cases hlo : i < offset
  · rw [List.getElem?_append_left (by omega), List.getElem?_take, if_pos hlo, if_neg (by omega)]
  · rw [List.getElem?_append_right (by omega), htake]
    by_cases hhi : i - offset < data.length
    · rw [List.getElem?_append_left hhi, if_pos ⟨by omega, by omega⟩]
    · rw [List.getElem?_append_right (by omega), List.getElem?_drop, if_neg (by omega)]
      congr 1
      omega

/-- One of the keys is that of a chunk over an offset. -/
def Over (store : ObjectStorage) (keys : List Str) (i : ℕ) : Prop :=
  ∃ key ∈ keys, ∃ o data, chunkOffset key = some o ∧ store.get key = .ok data ∧ o ≤ i ∧
    i < o + data.length

/-- **The assembly loop**, over chunks that hold a stream from their offsets on and fit: it writes the
stream where there is a chunk, and nothing elsewhere. -/
theorem assemble_spec (store : ObjectStorage) (w : ℕ → UInt8) (base : ℕ) (buf : Bytes)
    {keys : List Str}
    (hkeys : ∀ key ∈ keys, ∃ o k, chunkOffset key = some o ∧
      store.get key = .ok (slice w (base + o) k) ∧ o < buf.length ∧ o + k ≤ buf.length) :
    ∃ buf', assemble store buf keys = .ok buf' ∧ buf'.length = buf.length ∧
      ∀ i, (Over store keys i → buf'[i]? = some (w (base + i))) ∧
        (¬ Over store keys i → buf'[i]? = buf[i]?) := by
  induction keys generalizing buf with
  | nil =>
    refine ⟨buf, rfl, rfl, fun i => ⟨?_, fun _ => rfl⟩⟩
    rintro ⟨key, hkey, -⟩
    exact absurd hkey List.not_mem_nil
  | cons key keys ih =>
    obtain ⟨o, k, ho, hget, hlt, hle⟩ := hkeys key List.mem_cons_self
    have hk : (slice w (base + o) k).length = k := length_slice _ _ _
    have hlen : (copyInto buf o (slice w (base + o) k)).length = buf.length :=
      length_copyInto (by rw [hk]; exact hle)
    obtain ⟨buf', hasm, hlen', hspec⟩ := ih (copyInto buf o (slice w (base + o) k))
      (by rw [hlen]; exact fun key hkey => hkeys key (List.mem_cons_of_mem _ hkey))
    refine ⟨buf', ?_, hlen'.trans hlen, fun i => ?_⟩
    · rw [assemble, ho]
      dsimp only
      rw [hget]
      dsimp only
      rw [if_neg (by rw [hk]; omega), hasm]
    -- whether a later chunk is over the offset, or this one, or none
    by_cases hrest : Over store keys i
    · obtain ⟨key', hmem, hover⟩ := hrest
      refine ⟨fun _ => (hspec i).1 ⟨key', hmem, hover⟩, fun hno => absurd ?_ hno⟩
      exact ⟨key', List.mem_cons_of_mem _ hmem, hover⟩
    · rw [(hspec i).2 hrest, getElem?_copyInto (by rw [hk]; exact hle), hk]
      constructor
      · rintro ⟨key', hmem, o', data', ho', hget', hlo, hhi⟩
        rcases List.mem_cons.mp hmem with rfl | hmem
        · obtain rfl := Option.some.inj (ho.symm.trans ho')
          obtain rfl := Except.ok.inj (hget.symm.trans hget')
          rw [hk] at hhi
          rw [if_pos ⟨hlo, hhi⟩, getElem?_slice, if_pos (by omega)]
          congr 2
          omega
        · exact absurd ⟨key', hmem, o', data', ho', hget', hlo, hhi⟩ hrest
      · intro hno
        rw [if_neg]
        rintro ⟨hlo, hhi⟩
        exact hno ⟨key, List.mem_cons_self, o, _, ho, hget, hlo, by rw [hk]; exact hhi⟩

end Assembly

/-! ## Restoring a segment -/

section Restoring

variable {ns : DbNamespace} {tl : TimelineId} {s : WalStream} {sim : S3Sim} {n : UInt64}

/-- The stream covers an offset of a segment. -/
def WalStream.Covers (s : WalStream) (n : UInt64) (i : ℕ) : Prop :=
  s.start ≤ segBase n + i ∧ segBase n + i < s.stop

/-- The number of bytes of `wal_long_header`. -/
def longHeaderLen : ℕ := 40

theorem length_walLongHeader (tl : TimelineId) (segNo sysid : UInt64) :
    (walLongHeader tl segNo sysid).length = longHeaderLen := by
  simp [walLongHeader, longHeaderLen]

/-- What is assumed about page 0 of a segment: where the stream has its first bytes they are the magic
of a WAL page, and where it has not, so that `restore` may put a header there, the stream covers
nothing under it. -/
structure PageZero (s : WalStream) (n : UInt64) : Prop where
  magic : s.Covers n 0 → s.Covers n 1 → slice s.wal (segBase n) 2 = Bytes.le 2 0xD118
  header : ¬ (s.Covers n 0 ∧ s.Covers n 1) → ∀ i < longHeaderLen, ¬ s.Covers n i

/-- No file of the timeline's WAL. -/
def Untouched (ns : DbNamespace) (tl : TimelineId) (sim : S3Sim) : Prop :=
  ∀ file, (sim.files.lookup file).isSome = true → ∀ n,
    file ≠ segKey ns tl n ∧ file ≠ chunkDir ns tl n ∧ S3Sim.below (chunkDir ns tl n) file = false

theorem Untouched.unused (h : Untouched ns tl sim) : Unused ns tl sim := by
  refine fun n => ⟨?_, fun o => ?_⟩
  · cases hl : sim.sealed ns tl n with
    | none => rfl
    | some data =>
      rw [S3Sim.sealed] at hl
      exact absurd rfl (h _ (by rw [hl]; rfl) n).1
  · cases hl : sim.chunk ns tl n o with
    | none => rfl
    | some data =>
      rw [S3Sim.chunk] at hl
      have hb := (h _ (by rw [hl]; rfl) n).2.2
      rw [below_chunkDir_chunkKey.mpr rfl] at hb
      exact absurd hb (by simp)

theorem Untouched.tidy (h : Untouched ns tl sim) : Tidy ns tl sim := by
  intro n file hf
  obtain ⟨-, hdir, hb⟩ := h file hf n
  refine ⟨hdir, fun hcon => ?_⟩
  rw [hb] at hcon
  exact absurd hcon (by simp)

/-- **The chunks of a segment that is not sealed.** -/
theorem Archived.assemble (h : Archived ns tl s sim)
    (hn : sim.sealed ns tl n = none) {keys : List Str}
    (hkeys : ∀ key, key ∈ keys ↔
      ∃ o data, key = chunkKey ns tl n o ∧ sim.chunk ns tl n o = some data) :
    ∃ buf, Tiko.assemble sim.objects (List.replicate xlogSegSize 0) keys = .ok buf ∧
      buf.length = xlogSegSize ∧ ∀ i < xlogSegSize,
        (s.Covers n i → buf[i]? = some (s.wal (segBase n + i))) ∧
        (¬ s.Covers n i → buf[i]? = some 0) := by
  have hbound : ∀ o data, sim.chunk ns tl n o = some data → o < xlogSegSize ∧
      o + data.length ≤ xlogSegSize ∧ data = slice s.wal (segBase n + o) data.length := by
    intro o data hc
    obtain ⟨-, ho, -, rfl⟩ := (h.chunks n hn o data).mp hc
    refine ⟨ho, ?_, by rw [length_slice]⟩
    rw [length_slice]
    omega
  have hread : ∀ o data, sim.chunk ns tl n o = some data →
      chunkOffset (chunkKey ns tl n o) = some o ∧ sim.objects.get (chunkKey ns tl n o) = .ok data := by
    intro o data hc
    refine ⟨chunkOffset_chunkKey ((hbound o data hc).1.trans (by decide)), S3Sim.get_chunkKey hc⟩
  obtain ⟨buf, hasm, hlen, hspec⟩ := assemble_spec sim.objects s.wal (segBase n)
    (List.replicate xlogSegSize 0) fun key hkey => by
      obtain ⟨o, data, rfl, hc⟩ := (hkeys key).mp hkey
      obtain ⟨hlt, hle, hd⟩ := hbound o data hc
      obtain ⟨hoff, hget⟩ := hread o data hc
      rw [List.length_replicate]
      exact ⟨o, data.length, hoff, by rw [hget, ← hd], hlt, hle⟩
  rw [List.length_replicate] at hlen
  refine ⟨buf, hasm, hlen, fun i hi => ⟨fun hcov => (hspec i).1 ?_, fun hcov => ?_⟩⟩
  · -- the chunk that holds the position
    have hseg : segOf (segBase n + i) = n := segOf_eq (Nat.le_add_right _ _) (by omega)
    rcases h.covered hcov.1 hcov.2 with hsealed | ⟨o, data, hc, -, -, hlo, hhi⟩
    · rw [hseg, hn] at hsealed
      exact absurd hsealed (by simp)
    · rw [hseg] at hc hlo hhi
      obtain ⟨hoff, hget⟩ := hread o data hc
      exact ⟨_, (hkeys _).mpr ⟨o, data, rfl, hc⟩, o, data, hoff, hget, by omega, by omega⟩
  · have hno : ¬ Over sim.objects keys i := by
      rintro ⟨key, hkey, o, data, hoff, hget, hlo, hhi⟩
      obtain ⟨o', data', rfl, hc⟩ := (hkeys key).mp hkey
      obtain ⟨hoff', hget'⟩ := hread o' data' hc
      obtain rfl := Option.some.inj (hoff'.symm.trans hoff)
      obtain rfl := Except.ok.inj (hget'.symm.trans hget)
      obtain ⟨-, hstart, hstop⟩ := h.within n o' data' hc
      exact hcov ⟨by omega, by omega⟩
    rw [(hspec i).2 hno, List.getElem?_replicate, if_pos hi]

/-- The header is put only where the stream has nothing. -/
theorem getElem?_maybeSynthesize {buf : Bytes} (hz : PageZero s n) (hlen : buf.length = xlogSegSize)
    (hbuf : ∀ i < xlogSegSize, s.Covers n i → buf[i]? = some (s.wal (segBase n + i)))
    (sysid : Option UInt64) (tl : TimelineId) (name : Str) :
    (maybeSynthesizeLongHeader sysid buf tl name).length = xlogSegSize ∧
      ∀ i, s.Covers n i ∨ s.Covers n 0 ∨ longHeaderLen ≤ i →
        (maybeSynthesizeLongHeader sysid buf tl name)[i]? = buf[i]? := by
  have hsize : longHeaderLen ≤ xlogSegSize := by decide
  have hsize' : 1 < xlogSegSize := by decide
  unfold maybeSynthesizeLongHeader
  by_cases hmagic : buf.take 2 = Bytes.le 2 0xD118
  · rw [if_pos hmagic]
    exact ⟨hlen, fun _ _ => rfl⟩
  · rw [if_neg hmagic]
    -- the stream has nothing under the header
    have hnot : ¬ (s.Covers n 0 ∧ s.Covers n 1) := by
      rintro ⟨h0, h1⟩
      refine hmagic ?_
      rw [← hz.magic h0 h1]
      refine List.ext_getElem? fun i => ?_
      rw [List.getElem?_take, getElem?_slice]
      split_ifs with hi
      · refine hbuf i (by omega) ⟨?_, ?_⟩
        · exact h0.1.trans (by omega)
        · exact lt_of_le_of_lt (by omega) h1.2
      · rfl
    have hclear := hz.header hnot
    cases parseWalSegNo name with
    | none => exact ⟨hlen, fun _ _ => rfl⟩
    | some segNo =>
      cases sysid with
      | none => exact ⟨hlen, fun _ _ => rfl⟩
      | some id =>
        have hh := length_walLongHeader tl segNo id
        have hfit : 0 + (walLongHeader tl segNo id).length ≤ buf.length := by omega
        refine ⟨by rw [length_copyInto hfit, hlen], fun i hi => ?_⟩
        dsimp only
        rw [getElem?_copyInto hfit, if_neg]
        rintro ⟨-, hlt⟩
        rw [hh, Nat.zero_add] at hlt
        rcases hi with hi | hi | hi
        · exact hclear i hlt hi
        · exact hclear 0 (by decide) hi
        · omega

/-- **Archive, then restore, gives back the WAL.** After a session on any way to cut the stream, on an
archive without WAL of the timeline, and for every segment that the stream touches, `restore` with the
name under which the receiver stores the segment succeeds with a buffer of the size of a segment that
is the stream where the stream covers it, and zero elsewhere, except for a header over offset 0 that
the stream does not cover. -/
theorem restore_archived (ns : DbNamespace) (tl : TimelineId) (s : WalStream) {sim : S3Sim}
    {inputs labels : List Label} {t : Receiver} {c : Conn} (hsim : Untouched ns tl sim)
    (hcuts : Cuts s.start inputs s.bytes) (hses : Session ns tl sim s.start inputs labels t c)
    {n : UInt64} (htouch : ∃ i < xlogSegSize, s.Covers n i) (hz : PageZero s n)
    (sysid : Option UInt64) :
    ∃ buf, restore ns.fmt t.sim.objects sysid (walSegName tl n) = .ok (.restored buf) ∧
      buf.length = xlogSegSize ∧ ∀ i < xlogSegSize,
        (s.Covers n i → buf[i]? = some (s.wal (segBase n + i))) ∧
        (¬ s.Covers n i → s.Covers n 0 ∨ longHeaderLen ≤ i → buf[i]? = some 0) := by
  obtain ⟨harch, -⟩ := hses.exact hsim.unused hcuts
  have htidy : Tidy ns tl t.sim := hsim.tidy.run (r := .initial sim) hses.run_eq
  cases hn : t.sim.sealed ns tl n with
  | some data =>
    -- the stream covers the whole segment
    obtain ⟨hlo, hhi, hd⟩ := (harch.sealed n data).mp hn
    have hstop := hhi.trans (confirmedAt_le (a := s.start) (e := s.stop) (Nat.le_add_right _ _))
    refine ⟨segSlice s.wal n, restore_of_sealed ?_, length_slice _ _ _, fun i hi => ⟨fun _ => ?_, ?_⟩⟩
    · change t.sim.get _ = _
      rw [S3Sim.get_walSegment, hn, ← hd]
      rfl
    · rw [segSlice, getElem?_slice, if_pos hi]
    · intro hno
      have hcov : s.Covers n i := ⟨by omega, by omega⟩
      exact absurd hcov hno
  | none =>
    obtain ⟨keys, hlist, hkeys⟩ := htidy.listPrefix n
    obtain ⟨buf, hasm, hlen, hspec⟩ := harch.assemble hn hkeys
    obtain ⟨hlen', hkeep⟩ := getElem?_maybeSynthesize hz hlen (fun i hi => (hspec i hi).1) sysid tl
      (walSegName tl n)
    have hget : t.sim.objects.get (walSegment ns.fmt tl (walSegName tl n)) = .error .notFound := by
      change t.sim.get _ = _
      rw [S3Sim.get_walSegment, hn]
      rfl
    -- there is a chunk
    cases keys with
    | nil =>
      obtain ⟨i, hi, hcov⟩ := htouch
      have hseg : segOf (segBase n + i) = n := segOf_eq (Nat.le_add_right _ _) (by omega)
      rcases harch.covered hcov.1 hcov.2 with hsealed | ⟨o, data, hc, -⟩
      · rw [hseg, hn] at hsealed
        exact absurd hsealed (by simp)
      · rw [hseg] at hc
        exact absurd ((hkeys _).mpr ⟨o, data, rfl, hc⟩) List.not_mem_nil
    | cons key keys =>
      refine ⟨_, restore_of_chunks hget hlist hasm, hlen', fun i hi => ⟨fun hcov => ?_, fun hcov hz => ?_⟩⟩
      · rw [hkeep i (.inl hcov), (hspec i hi).1 hcov]
      · rw [hkeep i (.inr hz), (hspec i hi).2 hcov]

/-- Segment 0 of the stream that crosses a boundary comes back with its last byte. -/
theorem restore_archived_crossing : ∃ labels t c,
    Session ⟨1, 1⟩ 1 ⟨.empty⟩ (xlogSegSize - 1) crossingInputs labels t c ∧
    ∃ buf, restore (DbNamespace.fmt ⟨1, 1⟩) t.sim.objects (some 7) (walSegName 1 0) =
        .ok (.restored buf) ∧
      buf.length = xlogSegSize ∧ buf[xlogSegSize - 1]? = some 1 ∧ buf[longHeaderLen]? = some 0 := by
  have hpos : longHeaderLen + 1 < xlogSegSize := by decide
  have hhead : longHeaderLen = 40 := rfl
  have huntouched : Untouched ⟨1, 1⟩ 1 ⟨.empty⟩ := fun file hf => absurd hf (by simp)
  have hbase : segBase 0 = 0 := Nat.zero_mul _
  have hcovers : ∀ i < xlogSegSize, crossingStream.Covers 0 i ↔ i = xlogSegSize - 1 := by
    intro i hi
    have hstart : crossingStream.start = xlogSegSize - 1 := rfl
    have hstop : crossingStream.stop = xlogSegSize - 1 + 2 := rfl
    unfold WalStream.Covers
    omega
  have hz : PageZero crossingStream 0 := by
    refine ⟨fun h0 _ => ?_, fun _ i hi hcov => ?_⟩
    · have := (hcovers 0 (by omega)).mp h0
      omega
    · have := (hcovers i (by omega)).mp hcov
      omega
  obtain ⟨labels, t, c, hses⟩ : ∃ labels t c,
      Session ⟨1, 1⟩ 1 ⟨.empty⟩ crossingStream.start crossingInputs labels t c :=
    exists_session huntouched.unused cuts_crossing
  obtain ⟨buf, hrestore, hlen, hbuf⟩ := restore_archived ⟨1, 1⟩ 1 crossingStream huntouched
    cuts_crossing hses ⟨xlogSegSize - 1, by omega, (hcovers _ (by omega)).mpr rfl⟩ hz (some 7)
  refine ⟨labels, t, c, hses, buf, hrestore, hlen, ?_, ?_⟩
  · rw [(hbuf _ (by omega)).1 ((hcovers _ (by omega)).mpr rfl), hbase, Nat.zero_add, WalStream.wal]
    rw [show crossingStream.start = xlogSegSize - 1 by rfl, Nat.sub_self]
    rfl
  · refine (hbuf _ (by omega)).2 (fun hcov => ?_) (.inr le_rfl)
    have := (hcovers _ (by omega)).mp hcov
    omega

end Restoring

end Tiko.Wal

import Tiko.Lib.Hex
import Tiko.Model.Storage

/-!
# WAL segment names

The three modules that write or read the name of an archived WAL segment:

* `walSegName`: the receiver's name, the timeline and the segment number as one 64-bit number;
* `xlogFileName`, `parseWalSegNo`: PostgreSQL's name, with the number split into a log file and a
  segment of it, and the parser of that layout;
* `parseWalKey`: the storage side, which reads the flat 64-bit number back.

The two layouts write the same digits exactly for the segments of log file zero
(`walSegName_eq_xlogFileName_iff`).
-/

namespace Tiko

open Lib

/-- `TimelineId::to_hex`. -/
def TimelineId.toHex (tl : TimelineId) : Str := Hex.fmt 8 tl.toNat

/-- `TimelineId::from_hex`. -/
def TimelineId.fromHex (s : Str) : Option TimelineId := (Hex.fromStr (2 ^ 32) s).map UInt32.ofNat

/-- `XLOG_SEG_SIZE`: 16 MiB. -/
def xlogSegSize : ℕ := 16 * 1024 * 1024

/-- `SEGS_PER_LOGID`. -/
def segsPerLogid : UInt64 := 256

/-- `wal_seg_name`, the receiver's name for a segment. -/
def walSegName (tl : TimelineId) (segNo : UInt64) : Str := tl.toHex ++ Hex.fmt 16 segNo.toNat

/-- `xlog_file_name`, the name PostgreSQL asks for. -/
def xlogFileName (tli : TimelineId) (segNo : UInt64) : Str :=
  Hex.fmt 8 tli.toNat ++ Hex.fmt 8 (segNo / segsPerLogid).toNat ++
    Hex.fmt 8 (segNo % segsPerLogid).toNat

/-- The test that a name is 24 hexadecimal digits. -/
def isSegName (name : Str) : Bool := name.length == 24 && name.all Hex.isDigit

/-- `parse_wal_seg_no`. -/
def parseWalSegNo (name : Str) : Option UInt64 :=
  if isSegName name then do
    let logid ← Hex.fromStr (2 ^ 64) ((name.drop 8).take 8)
    let logseg ← Hex.fromStr (2 ^ 64) ((name.drop 16).take 8)
    some (UInt64.ofNat logid * segsPerLogid + UInt64.ofNat logseg)
  else none

/-- `parse_wal_segment_name`: the timeline of a segment file name. -/
def parseWalSegmentName (name : Str) : Option TimelineId :=
  if isSegName name then TimelineId.fromHex (name.take 8) else none

/-! ## Object keys -/

/-- `str::strip_prefix`. -/
def stripPrefix (s pre : Str) : Option Str :=
  if pre.isPrefixOf s then some (s.drop pre.length) else none

/-- `str::split_once`: the text before and after the first occurrence of a pattern. -/
def splitOnce (pat : Str) : Str → Option (Str × Str)
  | [] => if pat.isPrefixOf [] then some ([], []) else none
  | c :: cs =>
    if pat.isPrefixOf (c :: cs) then some ([], (c :: cs).drop pat.length)
    else (splitOnce pat cs).map fun p => (c :: p.1, p.2)

/-- `.chunks/`, which separates a segment's name from a chunk's offset. -/
def chunksSep : Str := ['.', 'c', 'h', 'u', 'n', 'k', 's', '/']

/-- `Locator::wal_timeline_dir`, for the namespace `ns` of a database. -/
def walTimelineDir (ns : Str) (tl : TimelineId) : Str :=
  ns ++ ['/', 'w', 'a', 'l', '/'] ++ tl.toHex ++ ['/']

/-- `Locator::wal_segment`. -/
def walSegment (ns : Str) (tl : TimelineId) (name : Str) : Str :=
  ns ++ ['/', 'w', 'a', 'l', '/'] ++ tl.toHex ++ ['/'] ++ name

/-- `Locator::wal_chunk_prefix`. -/
def walChunkPrefix (ns : Str) (tl : TimelineId) (name : Str) : Str :=
  ns ++ ['/', 'w', 'a', 'l', '/'] ++ tl.toHex ++ ['/'] ++ name ++ chunksSep

/-- `Locator::wal_chunk_key`. -/
def walChunkKey (ns : Str) (tl : TimelineId) (name : Str) (byteOffset : ℕ) : Str :=
  walChunkPrefix ns tl name ++ ['/'] ++ Hex.fmt 16 byteOffset

/-- `parse_wal_key`: the segment number of a WAL object and, for a chunk, its byte offset. -/
def parseWalKey (key walDir : Str) : Option (UInt64 × Option ℕ) := do
  let rel ← stripPrefix key walDir
  match splitOnce chunksSep rel with
  | some (segname, offpart) =>
    if isSegName segname then
      let segNo ← Hex.fromStr (2 ^ 64) ((segname.drop 8).take 16)
      let off ← Hex.fromStr (2 ^ 64) offpart
      some (UInt64.ofNat segNo, some off)
    else none
  | none =>
    if isSegName rel then
      let segNo ← Hex.fromStr (2 ^ 64) ((rel.drop 8).take 16)
      some (UInt64.ofNat segNo, none)
    else none

/-! ## The digits of a name -/

section Digits

variable (tl : TimelineId) (n : UInt64)

theorem TimelineId.toHex_eq : tl.toHex = Hex.fixed 8 tl.toNat :=
  Hex.fmt_eq_fixed (by decide) (lt_of_lt_of_eq tl.toNat_lt (by decide))

/-- The receiver writes 16 digits of the segment number. -/
theorem walSegName_eq : walSegName tl n = Hex.fixed 8 tl.toNat ++ Hex.fixed 16 n.toNat := by
  rw [walSegName, TimelineId.toHex_eq,
    Hex.fmt_eq_fixed (by decide) (lt_of_lt_of_eq n.toNat_lt (by decide))]

/-- PostgreSQL writes 8 digits of the log file and 8 of the segment in it. -/
theorem xlogFileName_eq (h : n.toNat < 2 ^ 40) :
    xlogFileName tl n = Hex.fixed 8 tl.toNat ++
      Hex.fixed 16 (n.toNat / 256 * 2 ^ 32 + n.toNat % 256) := by
  have hd : (n / segsPerLogid).toNat = n.toNat / 256 := UInt64.toNat_div n 256
  have hm : (n % segsPerLogid).toNat = n.toNat % 256 := UInt64.toNat_mod n 256
  have hhi : (n.toNat / 256 * 2 ^ 32 + n.toNat % 256) / 16 ^ 8 = n.toNat / 256 := by omega
  have hlo : (n.toNat / 256 * 2 ^ 32 + n.toNat % 256) % 16 ^ 8 = n.toNat % 256 := by omega
  rw [xlogFileName, hd, hm, Hex.fmt_eq_fixed (by decide) (lt_of_lt_of_eq tl.toNat_lt (by decide)),
    Hex.fmt_eq_fixed (w := 8) (by decide) (by omega),
    Hex.fmt_eq_fixed (w := 8) (by decide) (by omega), Hex.fixed_add 8 8, hhi,
    ← Hex.fixed_mod 8 (n.toNat / 256 * 2 ^ 32 + n.toNat % 256), hlo, List.append_assoc]

/-- **The receiver's name is PostgreSQL's exactly for the segments of log file zero.** -/
theorem walSegName_eq_xlogFileName_iff (h : n.toNat < 2 ^ 40) :
    walSegName tl n = xlogFileName tl n ↔ n.toNat < 256 := by
  rw [walSegName_eq, xlogFileName_eq tl n h]
  constructor
  · intro he
    have hn := Hex.fixed_inj (w := 16) (by omega) (by omega) (List.append_cancel_left he)
    omega
  · intro hlt
    have hn : n.toNat = n.toNat / 256 * 2 ^ 32 + n.toNat % 256 := by omega
    rw [← hn]

theorem isSegName_walSegName : isSegName (walSegName tl n) = true := by
  rw [walSegName_eq, isSegName, Bool.and_eq_true]
  refine ⟨by simp, List.all_eq_true.mpr fun c hc => ?_⟩
  rcases List.mem_append.mp hc with hc | hc <;> exact Hex.isDigit_of_mem_fixed hc

theorem drop_walSegName : (walSegName tl n).drop 8 = Hex.fixed 16 n.toNat := by
  rw [walSegName_eq, List.drop_left' (by simp)]

/-- The storage side reads the number of every name the receiver writes. -/
theorem fromStr_drop_walSegName :
    Hex.fromStr (2 ^ 64) (((walSegName tl n).drop 8).take 16) = some n.toNat := by
  rw [drop_walSegName, List.take_of_length_le (by simp)]
  exact Hex.fromStr_fixed (by decide) (lt_of_lt_of_eq n.toNat_lt (by decide)) n.toNat_lt

/-- The parser of PostgreSQL's layout reads 32 bits as the log file and 32 as the segment. -/
theorem parseWalSegNo_walSegName : parseWalSegNo (walSegName tl n) =
    some (UInt64.ofNat (n.toNat / 2 ^ 32) * segsPerLogid + UInt64.ofNat (n.toNat % 2 ^ 32)) := by
  have hn := n.toNat_lt
  have hsplit : Hex.fixed 16 n.toNat =
      Hex.fixed 8 (n.toNat / 2 ^ 32) ++ Hex.fixed 8 (n.toNat % 2 ^ 32) := by
    rw [Hex.fixed_add 8 8, ← Hex.fixed_mod 8 n.toNat]
    norm_num
  have hhi : ((walSegName tl n).drop 8).take 8 = Hex.fixed 8 (n.toNat / 2 ^ 32) := by
    rw [drop_walSegName, hsplit, List.take_left' (by simp)]
  have hlo : ((walSegName tl n).drop 16).take 8 = Hex.fixed 8 (n.toNat % 2 ^ 32) := by
    rw [show (16 : ℕ) = 8 + 8 by rfl, ← List.drop_drop, drop_walSegName, hsplit,
      List.drop_left' (by simp), List.take_of_length_le (by simp)]
  rw [parseWalSegNo, if_pos (isSegName_walSegName tl n), hhi, hlo,
    Hex.fromStr_fixed (w := 8) (by decide) (by omega) (by omega),
    Hex.fromStr_fixed (w := 8) (by decide) (by omega) (by omega)]
  rfl

theorem parseWalSegmentName_walSegName : parseWalSegmentName (walSegName tl n) = some tl := by
  have htl := tl.toNat_lt
  rw [parseWalSegmentName, if_pos (isSegName_walSegName tl n), walSegName_eq,
    List.take_left' (by simp), TimelineId.fromHex,
    Hex.fromStr_fixed (w := 8) (by decide) (by omega) htl, Option.map_some, UInt32.ofNat_toNat]

end Digits

/-! ## Keys parse back -/

theorem stripPrefix_append (pre s : Str) : stripPrefix (pre ++ s) pre = some s := by
  rw [stripPrefix, if_pos (List.isPrefixOf_iff_prefix.mpr (List.prefix_append pre s)),
    List.drop_left' rfl]

/-- A text without the pattern's first character does not contain the pattern. -/
theorem splitOnce_eq_none {c : Char} {pat s : Str} (h : c ∉ s) : splitOnce (c :: pat) s = none := by
  induction s with
  | nil => rfl
  | cons a s ih =>
    have hne : c ≠ a := fun e => h (e ▸ List.mem_cons_self)
    have hp : (c :: pat).isPrefixOf (a :: s) = false := by
      simp [List.isPrefixOf, hne]
    rw [splitOnce, hp, ih fun hm => h (List.mem_cons_of_mem _ hm)]
    rfl

theorem dot_notMem_of_isSegName {name : Str} (h : isSegName name = true) : '.' ∉ name := by
  intro hm
  rw [isSegName, Bool.and_eq_true, List.all_eq_true] at h
  exact absurd (h.2 '.' hm) (by decide)

/-- **The key of a sealed segment parses back to its number**, whatever the number. -/
theorem parseWalKey_walSegment (ns : Str) (tl : TimelineId) (n : UInt64) :
    parseWalKey (walSegment ns tl (walSegName tl n)) (walTimelineDir ns tl) = some (n, none) := by
  have hseg := isSegName_walSegName tl n
  have hsplit : splitOnce chunksSep (walSegName tl n) = none :=
    splitOnce_eq_none (dot_notMem_of_isSegName hseg)
  have hrel : stripPrefix (walSegment ns tl (walSegName tl n)) (walTimelineDir ns tl) =
      some (walSegName tl n) := stripPrefix_append _ _
  rw [parseWalKey, hrel, Option.bind_eq_bind, Option.bind_some, hsplit]
  dsimp only
  rw [if_pos hseg, fromStr_drop_walSegName, Option.bind_eq_bind, Option.bind_some,
    UInt64.ofNat_toNat]

end Tiko

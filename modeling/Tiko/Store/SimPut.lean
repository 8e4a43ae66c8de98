import Tiko.Lib.Reach
import Tiko.Pitr.RecoveryWindow

/-!
# A PUT in the middle

`S3Sim::put` replaces an object in its place: it truncates the file, compresses the data and writes it,
some bytes at a time. It can fail or be killed between any two of these operations. `S3Sim::get` takes an
empty file for an empty object.

* `Zstd`: the compression, of which only the round trip and that a cut frame is refused are known;
* `putStep`: the operations of a PUT, `get` what the files say of an object;
* `AllOrNothing`: a later GET returns the old object or the new data;
* `Harmless`: the points at which nothing else can be read.

**`allOrNothing_iff`**: in every state on the way a GET returns the old object or the new data exactly at
the harmless points. With a PUT that is complete the files hold what `S3Sim` models
(`represents_put`).
-/

namespace Tiko.Sim

open Lib

/-- `zstd::encode_all` and `zstd::decode_all`. A frame is not empty, and one that is cut short is
refused. -/
structure Zstd where
  encode : Bytes → Bytes
  decode : Bytes → Option Bytes
  decode_encode : ∀ data, decode (encode data) = some data
  encode_ne_nil : ∀ data, encode data ≠ []
  decode_cut : ∀ data k, 0 < k → k < (encode data).length → decode ((encode data).take k) = none

/-- The files below the root, by path, as they are on the disk. -/
abbrev Files := Str → Option Bytes

/-! ## The code -/

/-- `Path::extension`: what follows the last dot of the file name, if something stands before it. -/
def extension (path : Str) : Option Str :=
  match ((lastComponent path).splitOn '.').reverse with
  | [] => none
  | ext :: before => if before = [] ∨ before = [[]] then none else some ext

/-- `skip_compression`. -/
def skipCompression (path : Str) : Bool :=
  (extension path).any fun ext =>
    ext.map Char.toLower == ['j', 's', 'o', 'n'] || ext.map Char.toLower == ['z', 's', 't']

variable (z : Zstd)

/-- The bytes that `put` writes. -/
def encoded (path : Str) (data : Bytes) : Bytes :=
  if skipCompression path then data else z.encode data

/-- `S3Sim::get`. -/
def get (files : Files) (key : Str) : Except Error Bytes :=
  match files (norm key) with
  | none => .error .notFound
  | some raw =>
    if raw.isEmpty || skipCompression (norm key) then .ok raw
    else
      match z.decode raw with
      | some data => .ok data
      | none => .error .io

/-- Where a PUT is. -/
inductive PutPhase where
  /-- Before `ensure_parent`. -/
  | start
  /-- Before `File::create`. -/
  | parented
  /-- Before the compression, which files of some kinds skip. -/
  | created
  /-- In `write_all`, with `written` bytes in the file. -/
  | writing (written : ℕ)
  | done
  deriving DecidableEq

/-- A PUT on its way, with the files. -/
structure PutState where
  files : Files
  phase : PutPhase

/-- What happens next. -/
inductive PutLabel where
  | next
  /-- The system takes `count` more bytes. -/
  | write (count : ℕ)

/-- `S3Sim::put`, one file operation at a time. It is killed, or returns an error, in any state. -/
def putStep (key : Str) (data : Bytes) (s : PutState) : PutLabel → Option PutState
  | .next =>
    match s.phase with
    | .start => some { s with phase := .parented }
    | .parented => some ⟨Function.update s.files (norm key) (some []), .created⟩
    | .created => some { s with phase := .writing 0 }
    | .writing written =>
      if written = (encoded z (norm key) data).length then some { s with phase := .done } else none
    | .done => none
  | .write count =>
    match s.phase with
    | .writing written =>
      if 0 < count ∧ written + count ≤ (encoded z (norm key) data).length then
        some ⟨Function.update s.files (norm key)
          (some ((s.files (norm key)).getD [] ++
            ((encoded z (norm key) data).drop written).take count)), .writing (written + count)⟩
      else none
    | _ => none

/-- `Store::load_segment`. `fromBytes` stands for `TimelineSegment::from_bytes`. -/
def loadSegment {S : Type} (fromBytes : Bytes → Except Error S) (ns : DbNamespace) (files : Files)
    (id : SegmentId) : Except Error S :=
  (get z files (Pitr.timelineSegment ns id)).bind fromBytes

/-! ## What a PUT promises -/

/-- The object of a key: its contents, or that there is none. -/
def objectOf : Option Bytes → Except Error Bytes
  | some data => .ok data
  | none => .error .notFound

/-- A later GET returns the old object or the new data; so of a segment that is overwritten the
checkpoints of the old or of the new one are read. -/
structure AllOrNothing (key : Str) (old : Option Bytes) (data : Bytes) (files : Files) : Prop where
  object : get z files key = objectOf old ∨ get z files key = .ok data
  segment : ∀ (S : Type) (fromBytes : Bytes → Except Error S) (ns : DbNamespace) (id : SegmentId),
    key = Pitr.timelineSegment ns id →
      loadSegment z fromBytes ns files id = (objectOf old).bind fromBytes ∨
        loadSegment z fromBytes ns files id = fromBytes data

/-- The number of bytes in the file, once it has been truncated. -/
def PutPhase.written (path : Str) (data : Bytes) : PutPhase → Option ℕ
  | start | parented => none
  | created => some 0
  | writing written => some written
  | done => some (encoded z path data).length

/-- The file has not been touched, or is complete; or nothing is in it yet and the old object or the new
data is empty; or it is not compressed and what is in it is the old object. -/
def Harmless (path : Str) (old : Option Bytes) (data : Bytes) (phase : PutPhase) : Prop :=
  ∀ written, phase.written z path data = some written →
    written = (encoded z path data).length ∨ written = 0 ∧ (data = [] ∨ old = some []) ∨
      skipCompression path = true ∧ old = some (data.take written)

/-! ## What is read of a file -/

section Read

variable {z} {files : Files} {key : Str} {old : Option Bytes} {data raw : Bytes}

theorem encoded_of_skip (h : skipCompression (norm key) = true) : encoded z (norm key) data = data := by
  rw [encoded, if_pos h]

theorem encoded_of_not_skip (h : skipCompression (norm key) = false) :
    encoded z (norm key) data = z.encode data := by
  rw [encoded, h]
  rfl

theorem get_of_isEmpty_or_skip (hfile : files (norm key) = some raw)
    (h : (raw.isEmpty || skipCompression (norm key)) = true) : get z files key = .ok raw := by
  rw [get, hfile]
  exact if_pos h

theorem get_of_decode (hfile : files (norm key) = some raw)
    (h : (raw.isEmpty || skipCompression (norm key)) = false) : get z files key =
      (z.decode raw).elim (.error .io) .ok := by
  rw [get, hfile]
  dsimp only
  rw [h]
  cases z.decode raw <;> rfl

/-- **A complete file is read back.** -/
theorem get_encoded (hfile : files (norm key) = some (encoded z (norm key) data)) :
    get z files key = .ok data := by
  cases hskip : skipCompression (norm key) with
  | true =>
    rw [encoded_of_skip hskip] at hfile
    exact get_of_isEmpty_or_skip hfile (by rw [hskip, Bool.or_true])
  | false =>
    rw [encoded_of_not_skip hskip] at hfile
    have hne : (z.encode data).isEmpty = false :=
      List.isEmpty_eq_false_iff.mpr (z.encode_ne_nil data)
    rw [get_of_decode hfile (by rw [hne, hskip]; rfl), z.decode_encode]
    rfl

theorem get_stored (hold : files (norm key) = old.map (encoded z (norm key))) :
    get z files key = objectOf old := by
  cases old with
  | none =>
    rw [Option.map_none] at hold
    rw [get, hold]
    rfl
  | some data => exact get_encoded hold

end Read

/-! ## The states of a PUT -/

section States

variable {z} {files : Files} {key : Str} {old : Option Bytes} {data : Bytes} {s s' : PutState}

/-- The file is as it was, or holds the first bytes of what is written. -/
def At (z : Zstd) (files : Files) (key : Str) (data : Bytes) (s : PutState) : Prop :=
  (s.phase.written z (norm key) data = none → s.files = files) ∧
    ∀ k, s.phase.written z (norm key) data = some k → k ≤ (encoded z (norm key) data).length ∧
      s.files = Function.update files (norm key) (some ((encoded z (norm key) data).take k))

theorem At.of_none (h : s.phase.written z (norm key) data = none) (hfiles : s.files = files) :
    At z files key data s :=
  ⟨fun _ => hfiles, fun k hk => absurd (h.symm.trans hk) (by simp)⟩

theorem At.of_some {k : ℕ} (h : s.phase.written z (norm key) data = some k)
    (hk : k ≤ (encoded z (norm key) data).length)
    (hfiles : s.files = Function.update files (norm key) (some ((encoded z (norm key) data).take k))) :
    At z files key data s := by
  refine ⟨fun hn => absurd (h.symm.trans hn) (by simp), fun k' hk' => ?_⟩
  obtain rfl := Option.some.inj (h.symm.trans hk')
  exact ⟨hk, hfiles⟩

theorem At.step {l : PutLabel} (h : At z files key data s) (hs : putStep z key data s l = some s') :
    At z files key data s' := by
  obtain ⟨files', phase⟩ := s
  cases l with
  | next =>
    cases phase with
    | start =>
      obtain rfl := Option.some.inj hs
      exact At.of_none rfl (h.1 rfl)
    | parented =>
      obtain rfl := Option.some.inj hs
      refine At.of_some rfl (Nat.zero_le _) ?_
      have hfiles : files' = files := h.1 rfl
      rw [hfiles, List.take_zero]
    | created =>
      obtain rfl := Option.some.inj hs
      exact At.of_some rfl (h.2 0 rfl).1 (h.2 0 rfl).2
    | writing k =>
      dsimp only [putStep] at hs
      split_ifs at hs with hk
      obtain rfl := Option.some.inj hs
      refine At.of_some rfl le_rfl ?_
      rw [← hk]
      exact (h.2 k rfl).2
    | done => exact absurd hs (by simp [putStep])
  | write count =>
    cases phase with
    | writing k =>
      dsimp only [putStep] at hs
      split_ifs at hs with hk
      obtain rfl := Option.some.inj hs
      have hfiles : files' = _ := (h.2 k rfl).2
      refine At.of_some rfl hk.2 ?_
      dsimp only
      rw [hfiles, Function.update_self, Option.getD_some, Function.update_idem, ← List.take_add]
    | start | parented | created | done => exact absurd hs (by simp [putStep])

/-- **Every state on the way.** -/
theorem at_of_reaches (h : Reaches (putStep z key data) (fun _ _ => True) ⟨files, .start⟩ s) :
    At z files key data s :=
  h.invariant (At.of_none rfl rfl) fun _ _ _ hat _ hs => hat.step hs

/-! ## When the promise is kept -/

theorem AllOrNothing.of_object
    (h : get z files key = objectOf old ∨ get z files key = .ok data) :
    AllOrNothing z key old data files := by
  refine ⟨h, ?_⟩
  rintro S fromBytes ns id rfl
  unfold loadSegment
  rcases h with h | h
  · exact .inl (by rw [h])
  · exact .inr (by rw [h]; rfl)

/-- What is read when some of the bytes are missing. -/
theorem get_cut {k : ℕ} (hk : k < (encoded z (norm key) data).length)
    (hfile : files (norm key) = some ((encoded z (norm key) data).take k)) :
    get z files key = if skipCompression (norm key) then .ok (data.take k)
      else if k = 0 then .ok [] else .error .io := by
  cases hskip : skipCompression (norm key) with
  | true =>
    rw [encoded_of_skip hskip] at hfile
    rw [get_of_isEmpty_or_skip hfile (by rw [hskip, Bool.or_true])]
    rfl
  | false =>
    rw [encoded_of_not_skip hskip] at hfile hk
    by_cases hk0 : k = 0
    · rw [hk0, List.take_zero] at hfile
      rw [get_of_isEmpty_or_skip hfile rfl, if_pos hk0]
      rfl
    · have hne : ((z.encode data).take k).isEmpty = false := by
        rw [List.isEmpty_eq_false_iff, Ne, List.take_eq_nil_iff]
        rintro (h | h)
        · exact hk0 h
        · exact z.encode_ne_nil data h
      rw [get_of_decode hfile (by rw [hne, hskip]; rfl), z.decode_cut data k (by omega) hk, if_neg hk0]
      rfl

theorem objectOf_eq_ok {d : Bytes} : objectOf old = .ok d ↔ old = some d := by
  cases old <;> simp [objectOf]

theorem objectOf_ne_io : objectOf old ≠ .error .io := by
  cases old <;> simp [objectOf]

/-- **A GET returns the old object or the new data exactly at the harmless points**, in every state that
a PUT passes through. -/
theorem allOrNothing_iff (hold : files (norm key) = old.map (encoded z (norm key)))
    (h : Reaches (putStep z key data) (fun _ _ => True) ⟨files, .start⟩ s) :
    AllOrNothing z key old data s.files ↔ Harmless z (norm key) old data s.phase := by
  have hat := at_of_reaches h
  cases hphase : s.phase.written z (norm key) data with
  | none =>
    rw [hat.1 hphase]
    exact ⟨fun _ k hk => absurd (hphase.symm.trans hk) (by simp),
      fun _ => .of_object (.inl (get_stored hold))⟩
  | some k =>
    obtain ⟨hk, hfiles⟩ := hat.2 k hphase
    have hfile : s.files (norm key) = some ((encoded z (norm key) data).take k) := by
      rw [hfiles, Function.update_self]
    unfold Harmless
    rw [hphase]
    rcases Nat.lt_or_eq_of_le hk with hlt | heq
    · have hget := get_cut hlt hfile
      constructor
      · intro hall k' hk'
        obtain rfl := Option.some.inj hk'
        have hobject := hall.object
        rw [hget] at hobject
        split_ifs at hobject with hskip hk0
        · rcases hobject with ho | ho
          · exact .inr (.inr ⟨hskip, objectOf_eq_ok.mp ho.symm⟩)
          · -- the new data is not cut
            have htake := congrArg List.length (Except.ok.inj ho)
            rw [encoded_of_skip hskip] at hlt
            rw [List.length_take] at htake
            omega
        · rcases hobject with ho | ho
          · exact .inr (.inl ⟨hk0, .inr (objectOf_eq_ok.mp ho.symm)⟩)
          · exact .inr (.inl ⟨hk0, .inl (Except.ok.inj ho).symm⟩)
        · rcases hobject with ho | ho
          · exact absurd ho.symm objectOf_ne_io
          · exact absurd ho (by simp)
      · intro hharmless
        refine .of_object ?_
        rcases hharmless k rfl with hfull | ⟨hk0, hempty⟩ | ⟨hskip, hold'⟩
        · omega
        · rw [hget, hk0, List.take_zero, if_pos rfl, ite_self]
          rcases hempty with hdata | hold'
          · exact .inr (by rw [hdata])
          · exact .inl (by rw [hold']; rfl)
        · rw [hget, if_pos hskip, hold']
          exact .inl rfl
    · rw [heq, List.take_length] at hfile
      exact ⟨fun _ k' hk' => .inl ((Option.some.inj hk').symm.trans heq),
        fun _ => .of_object (.inr (get_encoded hfile))⟩

end States

/-! ## A segment that is truncated -/

/-- The bytes of a frame behind its first one: a mark and the byte for each byte, and an end mark. -/
def frameBody : Bytes → Bytes
  | [] => [0]
  | b :: data => 1 :: b :: frameBody data

/-- The reader of a frame. -/
def parseFrame : Bytes → Option Bytes
  | [] => none
  | [mark] => if mark = 0 then some [] else none
  | mark :: b :: rest => if mark = 1 then (parseFrame rest).map (b :: ·) else none

theorem parseFrame_frameBody (data : Bytes) : parseFrame (frameBody data) = some data := by
  induction data with
  | nil => rfl
  | cons b data ih => rw [frameBody, parseFrame, if_pos rfl, ih, Option.map_some]

theorem parseFrame_take {data : Bytes} {k : ℕ} (hk : k < (frameBody data).length) :
    parseFrame ((frameBody data).take k) = none := by
  induction data generalizing k with
  | nil =>
    obtain rfl : k = 0 := Nat.lt_one_iff.mp hk
    rfl
  | cons b data ih =>
    rcases k with - | - | k
    · rfl
    · rfl
    · have hlt : k < (frameBody data).length := by
        rw [frameBody, List.length_cons, List.length_cons] at hk
        omega
      rw [frameBody, List.take_succ_cons, List.take_succ_cons, parseFrame, if_pos rfl, ih hlt,
        Option.map_none]

/-- Frames that end themselves. -/
def frames : Zstd where
  encode data := 40 :: frameBody data
  decode raw := raw.tail? >>= parseFrame
  decode_encode := parseFrame_frameBody
  encode_ne_nil _ := List.cons_ne_nil _ _
  decode_cut data k h0 hk := by
    obtain ⟨k, rfl⟩ := Nat.exists_eq_add_one_of_ne_zero h0.ne'
    exact parseFrame_take (Nat.lt_of_succ_lt_succ hk)

/-- A second commit into a segment, which writes its six bytes in two parts: what it promises holds before
the file is created and after the last byte, and not between the parts. -/
theorem allOrNothing_iff_overwritten :
    let key := Pitr.timelineSegment ⟨1, 1⟩ ⟨1, 0⟩
    let files : Files := fun path => if path = norm key then some (frames.encode [1]) else none
    let put := run (putStep frames key [1, 2]) ⟨files, .start⟩
    (∃ s, put [.next] = some s ∧ s.phase = .parented ∧ AllOrNothing frames key (some [1]) [1, 2] s.files) ∧
    (∃ s, put [.next, .next, .next, .write 4] = some s ∧ s.phase = .writing 4 ∧
      ¬ AllOrNothing frames key (some [1]) [1, 2] s.files) ∧
    ∃ s, put [.next, .next, .next, .write 4, .write 2] = some s ∧ s.phase = .writing 6 ∧
      AllOrNothing frames key (some [1]) [1, 2] s.files := by
  intro key files put
  have hskip : skipCompression (norm key) = false := by decide
  have hlen : (encoded frames (norm key) [1, 2]).length = 6 := by decide
  have hfile : files (norm key) = (some [1]).map (encoded frames (norm key)) := by
    rw [Option.map_some, encoded_of_not_skip hskip]
    exact if_pos rfl
  have hiff : ∀ ls s, put ls = some s →
      (AllOrNothing frames key (some [1]) [1, 2] s.files ↔
        Harmless frames (norm key) (some [1]) [1, 2] s.phase) := fun ls s hs =>
    allOrNothing_iff hfile (reaches_of_run hs (throughout_true _ _))
  refine ⟨⟨_, rfl, rfl, (hiff [.next] _ rfl).mpr fun k hk => ?_⟩, ⟨_, rfl, rfl, fun h => ?_⟩,
    _, rfl, rfl, (hiff [.next, .next, .next, .write 4, .write 2] _ rfl).mpr fun k hk => ?_⟩
  · cases hk
  · rcases (hiff [.next, .next, .next, .write 4] _ rfl).mp h 4 rfl with hfull | ⟨hzero, -⟩ | ⟨hraw, -⟩
    · omega
    · cases hzero
    · rw [hskip] at hraw
      cases hraw
  · exact .inl ((Option.some.inj hk).symm.trans hlen.symm)

/-- The second commit into a segment is killed when the file has been truncated: the segment is read
as an empty object, and the checkpoints that were in it are gone. -/
theorem truncatedSegment_empty :
    let key := Pitr.timelineSegment ⟨1, 1⟩ ⟨1, 0⟩
    let files : Files := fun path => if path = norm key then some (frames.encode [1]) else none
    get frames files key = .ok [1] ∧
      ∃ s, Reaches (putStep frames key [1, 2]) (fun _ _ => True) ⟨files, .start⟩ s ∧
        get frames s.files key = .ok [] ∧ ¬ AllOrNothing frames key (some [1]) [1, 2] s.files := by
  intro key files
  have hskip : skipCompression (norm key) = false := by decide
  have hfile : files (norm key) = some (encoded frames (norm key) [1]) := by
    rw [encoded_of_not_skip hskip]
    exact if_pos rfl
  have hreach : Reaches (putStep frames key [1, 2]) (fun _ _ => True) ⟨files, .start⟩
      ⟨Function.update files (norm key) (some []), .created⟩ :=
    (Reaches.refl.tail (l := .next) trivial rfl).tail (l := .next) trivial rfl
  have hempty : get frames (Function.update files (norm key) (some [])) key = .ok [] :=
    get_of_isEmpty_or_skip (Function.update_self _ _ _) rfl
  refine ⟨get_encoded hfile, _, hreach, hempty, fun h => ?_⟩
  rcases h.object with ho | ho
  · exact absurd (Except.ok.inj (hempty.symm.trans ho)) (by simp)
  · exact absurd (Except.ok.inj (hempty.symm.trans ho)) (by simp)

/-! ## Complete PUTs -/

/-- The files hold the objects of the store. -/
def Represents (files : Files) (sim : S3Sim) : Prop :=
  ∀ path, files path = (sim.files.lookup path).map (encoded z path)

section Represents

variable {z} {files : Files} {sim : S3Sim} {key : Str} {data : Bytes} {s : PutState}

/-- A GET reads what the store has. -/
theorem get_of_represents (h : Represents z files sim) : get z files key = sim.get key := by
  rw [get_stored (h (norm key)), S3Sim.get]
  cases sim.files.lookup (norm key) <;> rfl

/-- **A PUT that is done is the PUT of the store.** -/
theorem represents_put (h : Represents z files sim)
    (hreach : Reaches (putStep z key data) (fun _ _ => True) ⟨files, .start⟩ s)
    (hdone : s.phase = .done) : Represents z s.files (sim.put key data) := by
  have hwritten : s.phase.written z (norm key) data = some (encoded z (norm key) data).length := by
    rw [hdone]
    rfl
  obtain ⟨-, hfiles⟩ := (at_of_reaches hreach).2 _ hwritten
  intro path
  rw [hfiles, List.take_length, S3Sim.put, SortedMap.lookup_insert]
  by_cases hpath : path = norm key
  · rw [hpath, Function.update_self, if_pos rfl]
    rfl
  · rw [Function.update_of_ne hpath, if_neg hpath]
    exact h path

end Represents

end Tiko.Sim

import Tiko.Lib.Find
import Tiko.Pitr.RecoveryWindow

/-!
# The recovery block of the configuration file

A recovery appends a block of settings between two marker lines to `postgresql.auto.conf`, and removes
it afterwards: the text from the first begin marker to the first end marker behind it, with the newline
that the block put in front. A file that is not UTF-8 is read as an empty one.

* `readToString`: the file as text, empty on any error;
* `writePitrRecoveryConf`, `removeRecoveryConf`: the code;
* `Restores`: the block is behind the prior contents, and removing it gives them back;
* `Removable`: the prior contents are text that does not end with the begin marker's line, and the path
  of the restore command does not have the end marker.

**`restores_iff`**: the block is removed without a trace exactly then. Without a begin marker a file is
left as it is (`removeRecoveryConf_of_no_marker`).
-/

namespace Tiko.Pitr

open Lib

/-! ## Text -/

/-- The UTF-8 bytes of a text. -/
def encodeUtf8 (s : Str) : Bytes := s.flatMap String.utf8EncodeChar

/-- The text of UTF-8 bytes. -/
def decodeUtf8 (b : Bytes) : Option Str := b.toByteArray.utf8Decode?.map Array.toList

theorem decodeUtf8_encodeUtf8 (s : Str) : decodeUtf8 (encodeUtf8 s) = some s := by
  have h : (encodeUtf8 s).toByteArray = s.utf8Encode := rfl
  rw [decodeUtf8, h, List.utf8Decode?_utf8Encode]
  rfl

theorem encodeUtf8_of_decodeUtf8 {b : Bytes} {s : Str} (h : decodeUtf8 b = some s) :
    encodeUtf8 s = b := by
  obtain ⟨a, ha, rfl⟩ := Option.map_eq_some_iff.mp h
  have hsome : (b.toByteArray.utf8Decode?).isSome := by rw [ha]; rfl
  have henc : (b.toByteArray.utf8Decode?.get hsome).toList.utf8Encode = b.toByteArray :=
    ByteArray.utf8Encode_get_utf8Decode?
  have hget : b.toByteArray.utf8Decode?.get hsome = a := Option.get_of_eq_some hsome ha
  rw [hget] at henc
  exact List.toByteArray_inj.mp henc

theorem encodeUtf8_append (s t : Str) : encodeUtf8 (s ++ t) = encodeUtf8 s ++ encodeUtf8 t :=
  List.flatMap_append

theorem encodeUtf8_inj {s t : Str} (h : encodeUtf8 s = encodeUtf8 t) : s = t := by
  have hs := decodeUtf8_encodeUtf8 s
  rw [h, decodeUtf8_encodeUtf8] at hs
  exact (Option.some.inj hs).symm

/-! ## The code -/

/-- `RECOVERY_CONF_BEGIN` without the end of the line. -/
def recoveryConfBeginLine : Str := "# Tiko recovery settings — begin".toList

/-- `RECOVERY_CONF_BEGIN`. -/
def recoveryConfBegin : Str := recoveryConfBeginLine ++ ['\n']

/-- `RECOVERY_CONF_END`. -/
def recoveryConfEnd : Str := "# Tiko recovery settings — end\n".toList

/-- `Lsn::to_pg_string`. -/
def toPgString (lsn : Lsn) : Str :=
  Hex.fmt 0 (lsn.toNat / 2 ^ 32) ++ ['/'] ++ Hex.fmt 0 (lsn.toNat % 2 ^ 32)

/-- `fs::read_to_string(..).unwrap_or_default()`. -/
def readToString (file : Option Bytes) : Str := ((file.bind decodeUtf8)).getD []

section Code

variable (formatTime : ℤ → Option Str)

/-- The line of the target. `formatTime` stands for the `chrono` call of
`format_recovery_target_time`. -/
def targetLine : RecoveryTarget → Except Error Str
  | .lsn lsn => .ok ("recovery_target_lsn = '".toList ++ toPgString lsn ++ "'\n".toList)
  | .time ts =>
    match formatTime ts with
    | some text => .ok ("recovery_target_time = '".toList ++ text ++ "'\n".toList)
    | none => .error .io

/-- The settings behind the path of the restore command. -/
def settings (line : Str) (timeline : TimelineId) (promote : Bool) : Str :=
  " %f %p'\n".toList ++ line ++ "recovery_target_timeline = '".toList ++
    Nat.toDigits 10 timeline.toNat ++ "'\nrecovery_target_inclusive = on\n".toList ++
    "recovery_target_action = '".toList ++
    (if promote then "promote".toList else "shutdown".toList) ++ "'\n".toList

/-- The snippet of `write_pitr_recovery_conf`. `restore` is the path of the restore command as
`Path::display` shows it. -/
def snippet (line : Str) (timeline : TimelineId) (restore : Str) (promote : Bool) : Str :=
  '\n' :: (recoveryConfBegin ++ ("restore_command = '".toList ++
    '"' :: (restore ++ '"' :: (settings line timeline promote ++ recoveryConfEnd))))

/-- `write_pitr_recovery_conf`; the result is what the file holds afterwards. -/
def writePitrRecoveryConf (file : Option Bytes) (timeline : TimelineId) (target : RecoveryTarget)
    (restore : Str) (promote : Bool) : Except Error Bytes := do
  let line ← targetLine formatTime target
  let existing := readToString file
  return encodeUtf8 (existing ++ snippet line timeline restore promote)

end Code

/-- `remove_recovery_conf`. Offsets count characters. -/
def removeRecoveryConf (file : Option Bytes) : Option Bytes :=
  let existing := readToString file
  match find recoveryConfBegin existing with
  | none => file
  | some beginOff =>
    -- the newline that the block put in front
    let start := if 0 < beginOff ∧ existing[beginOff - 1]? = some '\n' then beginOff - 1 else beginOff
    let endOff :=
      match find recoveryConfEnd (existing.drop beginOff) with
      | some p => beginOff + p + recoveryConfEnd.length
      | none => existing.length
    some (encodeUtf8 (existing.take start ++ existing.drop endOff))

/-! ## Reading -/

theorem decodeUtf8_nil : decodeUtf8 [] = some [] := decodeUtf8_encodeUtf8 []

theorem readToString_eq {file : Option Bytes} :
    readToString file = (decodeUtf8 (file.getD [])).getD [] := by
  cases file with
  | none => rw [Option.getD_none, decodeUtf8_nil]; rfl
  | some b => rfl

theorem readToString_encodeUtf8 (s : Str) : readToString (some (encodeUtf8 s)) = s := by
  rw [readToString_eq, Option.getD_some, decodeUtf8_encodeUtf8, Option.getD_some]

theorem infix_encodeUtf8 {s t : Str} (h : s <:+: t) : encodeUtf8 s <:+: encodeUtf8 t := by
  obtain ⟨u, v, rfl⟩ := h
  rw [encodeUtf8_append, encodeUtf8_append]
  exact ⟨_, _, rfl⟩

/-- **A file without the begin marker is left as it is**, be it text or not. -/
theorem removeRecoveryConf_of_no_marker {file : Option Bytes}
    (h : ¬ encodeUtf8 recoveryConfBegin <:+: file.getD []) : removeRecoveryConf file = file := by
  have hfind : find recoveryConfBegin (readToString file) = none := by
    rw [find_eq_none_iff, readToString_eq]
    cases hdec : decodeUtf8 (file.getD []) with
    | none => exact fun hi => absurd (List.infix_nil.mp hi) (by decide)
    | some text =>
      rw [← encodeUtf8_of_decodeUtf8 hdec] at h
      exact fun hi => h (infix_encodeUtf8 hi)
  unfold removeRecoveryConf
  simp only [hfind]

/-! ## The block -/

section Block

variable {formatTime : ℤ → Option Str} {line : Str} {timeline : TimelineId} {restore : Str}
  {promote : Bool}

theorem hash_notMem_append {s t : Str} (hs : '#' ∉ s) (ht : '#' ∉ t) : '#' ∉ s ++ t := by
  rw [List.mem_append, not_or]
  exact ⟨hs, ht⟩

theorem hash_notMem_targetLine {target : RecoveryTarget}
    (hformat : ∀ ts text, formatTime ts = some text → '#' ∉ text)
    (h : targetLine formatTime target = .ok line) : '#' ∉ line := by
  cases target with
  | lsn lsn =>
    obtain rfl := Except.ok.inj h
    have hhex : ∀ n, '#' ∉ Hex.fmt 0 n := fun n hm =>
      absurd (Hex.isDigit_of_mem_fmt hm) (by decide)
    refine hash_notMem_append (hash_notMem_append (by decide) ?_) (by decide)
    exact hash_notMem_append (hash_notMem_append (hhex _) (by decide)) (hhex _)
  | time ts =>
    rw [targetLine] at h
    cases htext : formatTime ts with
    | none =>
      rw [htext] at h
      exact absurd h (by simp)
    | some text =>
      rw [htext] at h
      obtain rfl := Except.ok.inj h
      exact hash_notMem_append (hash_notMem_append (by decide) (hformat ts text htext)) (by decide)

theorem hash_notMem_settings (h : '#' ∉ line) : '#' ∉ settings line timeline promote := by
  have hdec : '#' ∉ Nat.toDigits 10 timeline.toNat := fun hm =>
    absurd (Nat.isDigit_of_mem_toDigits (by decide) (by decide) hm) (by decide)
  have haction : '#' ∉ (if promote then "promote".toList else "shutdown".toList) := by
    cases promote <;> decide
  unfold settings
  exact hash_notMem_append (hash_notMem_append (hash_notMem_append (hash_notMem_append
    (hash_notMem_append (hash_notMem_append (hash_notMem_append (by decide) h) (by decide)) hdec)
    (by decide)) (by decide)) haction) (by decide)

/-- The block from the begin marker on. -/
def block (line : Str) (timeline : TimelineId) (restore : Str) (promote : Bool) : Str :=
  recoveryConfBegin ++ "restore_command = '".toList ++
    '"' :: (restore ++ '"' :: (settings line timeline promote ++ recoveryConfEnd))

theorem snippet_eq : snippet line timeline restore promote =
    '\n' :: block line timeline restore promote := by
  rw [snippet, block, List.append_assoc]

/-- The characters of the block in front of the path. -/
def headLength : ℕ := (recoveryConfBegin ++ "restore_command = '".toList).length

theorem length_block : (block line timeline restore promote).length =
    headLength + 1 + (restore.length + 1 + (settings line timeline promote).length) +
      recoveryConfEnd.length := by
  simp only [block, headLength, List.length_append, List.length_cons]
  omega

variable (timeline restore promote) in
/-- Where the block ends for the code: at an end marker in the path, or at its own. -/
theorem find_end_block (hline : '#' ∉ line) :
    find recoveryConfEnd (block line timeline restore promote) =
      ((find recoveryConfEnd restore).or
        (some (restore.length + 1 + (settings line timeline promote).length))).map
          (· + (headLength + 1)) := by
  have hne : recoveryConfEnd ≠ [] := by decide
  have hquote : '"' ∉ recoveryConfEnd := by decide
  have hhead : find recoveryConfEnd (recoveryConfBegin ++ "restore_command = '".toList) = none := by
    decide
  have hown : find recoveryConfEnd (settings line timeline promote ++ recoveryConfEnd) =
      some (settings line timeline promote).length := by
    have hself : find recoveryConfEnd recoveryConfEnd = some 0 := by decide
    have hend : recoveryConfEnd = '#' :: recoveryConfEnd.tail := by decide
    rw [hend] at hself ⊢
    rw [find_append_of_notMem (hash_notMem_settings hline), hself, Option.map_some, Nat.zero_add]
  rw [block, find_append_cons hne hquote, hhead, Option.none_or, find_append_cons hne hquote, hown,
    Option.map_some, headLength, Nat.add_comm (restore.length + 1)]

/-! ## Removing the block -/

/-- What is left of the block behind the end marker that the code finds. -/
def leftover (line : Str) (timeline : TimelineId) (restore : Str) (promote : Bool) : Str :=
  (block line timeline restore promote).drop
    (((find recoveryConfEnd (block line timeline restore promote)).getD 0) + recoveryConfEnd.length)

/-- Something is left exactly if the path has an end marker. -/
theorem leftover_eq_nil_iff (hline : '#' ∉ line) :
    leftover line timeline restore promote = [] ↔ ¬ recoveryConfEnd <:+: restore := by
  rw [leftover, List.drop_eq_nil_iff, find_end_block _ _ _ hline, length_block, ← find_eq_none_iff]
  cases hrestore : find recoveryConfEnd restore with
  | none =>
    rw [Option.none_or, Option.map_some, Option.getD_some]
    exact ⟨fun _ => rfl, fun _ => by omega⟩
  | some k =>
    have hlen := (prefix_drop_of_find hrestore).length_le
    have hpos : 0 < recoveryConfEnd.length := by decide
    rw [List.length_drop] at hlen
    rw [Option.some_or, Option.map_some, Option.getD_some]
    exact ⟨fun h => absurd h (by omega), fun h => absurd h (by simp)⟩

variable (timeline restore promote) in
/-- The code finds an end marker in the block. -/
theorem find_end_block_eq (hline : '#' ∉ line) : ∃ p,
    find recoveryConfEnd (block line timeline restore promote) = some p ∧
      leftover line timeline restore promote =
        (block line timeline restore promote).drop (p + recoveryConfEnd.length) := by
  have hfind := find_end_block timeline restore promote hline
  cases hp : find recoveryConfEnd (block line timeline restore promote) with
  | none =>
    rw [hp] at hfind
    cases find recoveryConfEnd restore <;> simp at hfind
  | some p => exact ⟨p, rfl, by rw [leftover, hp, Option.getD_some]⟩

/-- The block behind text that does not end with the begin marker's line. -/
theorem removeRecoveryConf_of_not_suffix {text : Str} (hline : '#' ∉ line)
    (hmark : ¬ recoveryConfBegin <:+: text) (hsuffix : ¬ recoveryConfBeginLine <:+ text) :
    removeRecoveryConf (some (encodeUtf8 (text ++ snippet line timeline restore promote))) =
      some (encodeUtf8 (text ++ leftover line timeline restore promote)) := by
  have hbegin : find recoveryConfBegin (block line timeline restore promote) = some 0 := by
    rw [block, List.append_assoc]
    exact find_self_append
  have hfind : find recoveryConfBegin (text ++ '\n' :: block line timeline restore promote) =
      some (text.length + 1) := by
    have hnl : '\n' ∉ recoveryConfBeginLine := by decide
    rw [recoveryConfBegin] at hmark hbegin ⊢
    rw [find_line_of_not_suffix hnl hmark hsuffix, hbegin, Option.map_some, Nat.zero_add]
  obtain ⟨p, hp, hleft⟩ := find_end_block_eq timeline restore promote hline
  have hdrop : (text ++ '\n' :: block line timeline restore promote).drop (text.length + 1) =
      block line timeline restore promote := by
    rw [List.append_cons, List.drop_left' (by simp)]
  have hrest : (text ++ '\n' :: block line timeline restore promote).drop
      (text.length + 1 + p + recoveryConfEnd.length) = leftover line timeline restore promote := by
    rw [hleft, Nat.add_assoc, ← List.drop_drop, hdrop]
  rw [removeRecoveryConf, readToString_encodeUtf8, snippet_eq]
  simp only [hfind, hdrop, hp, hrest]
  rw [if_pos ⟨Nat.succ_pos _, by simp⟩, Nat.add_sub_cancel, List.take_left' rfl]

theorem getLast?_block : (block line timeline restore promote).getLast? = some '\n' := by
  have hend : recoveryConfEnd.getLast? = some '\n' := by decide
  simp [block, List.getLast?_append, List.getLast?_cons, hend]

/-- What is cut out of a text that ends with a newline does not end with the begin marker's line, unless
it is shorter. -/
theorem cut_ne {u text : Str} {start endOff : ℕ} (hstart : start ≤ u.length)
    (hlast : text.getLast? = some '\n') :
    text.take start ++ text.drop endOff ≠ u ++ recoveryConfBeginLine := by
  have hline : recoveryConfBeginLine.getLast? = some 'n' := by decide
  have hpos : 0 < recoveryConfBeginLine.length := by decide
  intro h
  by_cases hle : text.length ≤ endOff
  · have hlen := congrArg List.length h
    rw [List.drop_eq_nil_of_le hle, List.append_nil, List.length_append] at hlen
    have := List.length_take_le start text
    omega
  · have hget := congrArg List.getLast? h
    rw [List.getLast?_append, List.getLast?_append, List.getLast?_drop, if_neg hle, hlast, hline,
      Option.some_or, Option.some_or] at hget
    exact absurd hget (by decide)

variable (line timeline restore promote) in
/-- The block behind text that ends with the begin marker's line: the newline in front of the block
completes the marker, and the code cuts there. -/
theorem removeRecoveryConf_of_suffix {u : Str}
    (hmark : ¬ recoveryConfBegin <:+: u ++ recoveryConfBeginLine) :
    ∃ text, removeRecoveryConf (some (encodeUtf8
        (u ++ recoveryConfBeginLine ++ snippet line timeline restore promote))) =
      some (encodeUtf8 text) ∧ text ≠ u ++ recoveryConfBeginLine := by
  have hfind : find recoveryConfBegin
      (u ++ recoveryConfBeginLine ++ '\n' :: block line timeline restore promote) =
      some u.length := by
    have hnl : '\n' ∉ recoveryConfBeginLine := by decide
    rw [recoveryConfBegin] at hmark ⊢
    exact find_line_of_suffix hnl hmark
  have hlast : (u ++ recoveryConfBeginLine ++ '\n' :: block line timeline restore promote).getLast? =
      some '\n' := by
    rw [List.getLast?_append, List.getLast?_cons, getLast?_block]
    rfl
  rw [removeRecoveryConf, readToString_encodeUtf8, snippet_eq]
  simp only [hfind]
  refine ⟨_, rfl, cut_ne ?_ hlast⟩
  split_ifs
  · exact Nat.sub_le _ _
  · exact le_rfl

/-- Whatever the code leaves is text. -/
theorem exists_removeRecoveryConf (text : Str) :
    ∃ left, removeRecoveryConf (some (encodeUtf8 text)) = some (encodeUtf8 left) := by
  rw [removeRecoveryConf, readToString_encodeUtf8]
  cases hfind : find recoveryConfBegin text with
  | none => exact ⟨text, rfl⟩
  | some beginOff => exact ⟨_, rfl⟩

end Block

/-! ## When the file is restored -/

/-- After the write the file begins with the prior contents, and removing the block gives them back.
A missing file counts as empty. -/
def Restores (prior : Option Bytes) (written : Bytes) : Prop :=
  prior.getD [] <+: written ∧ (removeRecoveryConf (some written)).getD [] = prior.getD []

/-- The prior contents are text that does not end with the begin marker's line, and the path has no end
marker. -/
def Removable (prior : Option Bytes) (restore : Str) : Prop :=
  ∃ text, decodeUtf8 (prior.getD []) = some text ∧ ¬ recoveryConfBeginLine <:+ text ∧
    ¬ recoveryConfEnd <:+: restore

section Restores

variable {formatTime : ℤ → Option Str} {prior : Option Bytes} {timeline : TimelineId}
  {target : RecoveryTarget} {restore : Str} {promote : Bool} {written : Bytes}

theorem restores_snippet_iff {line : Str} (hline : '#' ∉ line)
    (hmark : ¬ encodeUtf8 recoveryConfBegin <:+: prior.getD []) :
    Restores prior (encodeUtf8 (readToString prior ++ snippet line timeline restore promote)) ↔
      Removable prior restore := by
  rw [readToString_eq]
  unfold Restores Removable
  cases hdec : decodeUtf8 (prior.getD []) with
  | none =>
    -- contents that are no text are gone
    rw [Option.getD_none, List.nil_append]
    constructor
    · rintro ⟨-, h⟩
      obtain ⟨left, hleft⟩ := exists_removeRecoveryConf (snippet line timeline restore promote)
      rw [hleft, Option.getD_some] at h
      rw [← h, decodeUtf8_encodeUtf8] at hdec
      exact absurd hdec (by simp)
    · rintro ⟨text, h, -⟩
      exact absurd h (by simp)
  | some text =>
    have henc := encodeUtf8_of_decodeUtf8 hdec
    rw [← henc] at hmark ⊢
    have hmark' : ¬ recoveryConfBegin <:+: text := fun h => hmark (infix_encodeUtf8 h)
    rw [Option.getD_some]
    constructor
    · rintro ⟨-, h⟩
      have hsuffix : ¬ recoveryConfBeginLine <:+ text := by
        rintro ⟨u, rfl⟩
        obtain ⟨left, hleft, hne⟩ := removeRecoveryConf_of_suffix line timeline restore promote hmark'
        rw [hleft, Option.getD_some] at h
        exact hne (encodeUtf8_inj h)
      rw [removeRecoveryConf_of_not_suffix hline hmark' hsuffix, Option.getD_some] at h
      have hnil := List.append_right_eq_self.mp (encodeUtf8_inj h)
      exact ⟨text, rfl, hsuffix, (leftover_eq_nil_iff hline).mp hnil⟩
    · rintro ⟨text', htext, hsuffix, hmark⟩
      obtain rfl := Option.some.inj htext
      rw [removeRecoveryConf_of_not_suffix hline hmark' hsuffix,
        (leftover_eq_nil_iff hline).mpr hmark, List.append_nil, Option.getD_some, encodeUtf8_append]
      exact ⟨List.prefix_append _ _, rfl⟩

/-- **The file is restored exactly if the prior contents are text that does not end with the begin
marker's line and the path has no end marker.** A file without a begin marker is left as it is in any
case. -/
theorem restores_iff (hformat : ∀ ts text, formatTime ts = some text → '#' ∉ text)
    (hmark : ¬ encodeUtf8 recoveryConfBegin <:+: prior.getD [])
    (hwrite : writePitrRecoveryConf formatTime prior timeline target restore promote = .ok written) :
    (Restores prior written ∧ ∀ file : Option Bytes,
      ¬ encodeUtf8 recoveryConfBegin <:+: file.getD [] → removeRecoveryConf file = file) ↔
        Removable prior restore := by
  cases hline : targetLine formatTime target with
  | error e =>
    rw [writePitrRecoveryConf, hline] at hwrite
    exact absurd hwrite (by simp [bind, Except.bind])
  | ok line =>
    rw [writePitrRecoveryConf, hline] at hwrite
    obtain rfl := Except.ok.inj hwrite
    rw [restores_snippet_iff (hash_notMem_targetLine hformat hline) hmark]
    exact ⟨fun h => h.1, fun h => ⟨h, fun file => removeRecoveryConf_of_no_marker⟩⟩

end Restores

/-- The clock of the witness: `chrono` at the epoch. -/
def epochOnly (ts : ℤ) : Option Str :=
  if ts = 0 then some "1970-01-01 00:00:00+00:00".toList else none

theorem hash_notMem_epochOnly (ts : ℤ) (text : Str) (h : epochOnly ts = some text) :
    '#' ∉ text := by
  unfold epochOnly at h
  split_ifs at h
  obtain rfl := Option.some.inj h
  decide

/-- The user's settings. -/
def userSettings : Str := "# tuned\nwork_mem = '64MB'\n".toList

set_option maxRecDepth 4000 in
theorem restores_iff_userSettings : ∃ written,
    writePitrRecoveryConf epochOnly (some (encodeUtf8 userSettings)) 1 (.time 0)
        "/opt/tiko_restore".toList true = .ok written ∧
      Restores (some (encodeUtf8 userSettings)) written ∧
      removeRecoveryConf (some (encodeUtf8 userSettings)) = some (encodeUtf8 userSettings) := by
  have hmark : ¬ encodeUtf8 recoveryConfBegin <:+: (some (encodeUtf8 userSettings)).getD [] := by
    rw [← find_eq_none_iff]
    decide
  have hremovable : Removable (some (encodeUtf8 userSettings)) "/opt/tiko_restore".toList := by
    refine ⟨userSettings, decodeUtf8_encodeUtf8 _, fun h => ?_, ?_⟩
    · exact absurd (List.isSuffixOf_iff_suffix.mpr h) (by decide)
    · rw [← find_eq_none_iff]
      decide
  obtain ⟨written, hwrite⟩ : ∃ written, writePitrRecoveryConf epochOnly
      (some (encodeUtf8 userSettings)) 1 (.time 0) "/opt/tiko_restore".toList true = .ok written :=
    ⟨_, rfl⟩
  have h := (restores_iff hash_notMem_epochOnly hmark hwrite).mpr hremovable
  exact ⟨written, hwrite, h.1, h.2 _ hmark⟩

set_option maxRecDepth 10000 in
/-- A file whose last line is the begin marker without the end of the line: the block is written behind
it, and with it the line is gone. -/
theorem unfinishedMarker_removed :
    let prior : Option Bytes := some (encodeUtf8 recoveryConfBeginLine)
    ¬ encodeUtf8 recoveryConfBegin <:+: prior.getD [] ∧ ∃ written,
      writePitrRecoveryConf epochOnly prior 1 (.time 0) "/opt/tiko_restore".toList true = .ok written ∧
        removeRecoveryConf (some written) = some [] ∧ ¬ Restores prior written := by
  intro prior
  have hprior : readToString prior = recoveryConfBeginLine := readToString_encodeUtf8 _
  have hremoved : removeRecoveryConf (some (encodeUtf8 (recoveryConfBeginLine ++ snippet
      ("recovery_target_time = '".toList ++ "1970-01-01 00:00:00+00:00".toList ++ "'\n".toList) 1
      "/opt/tiko_restore".toList true))) = some [] := by
    rw [removeRecoveryConf, readToString_encodeUtf8]
    decide
  have hmark : ¬ encodeUtf8 recoveryConfBegin <:+: prior.getD [] :=
    fun h => absurd h.length_le (by decide)
  refine ⟨hmark, _, rfl, ?_, fun h => ?_⟩
  · rw [hprior]
    exact hremoved
  · have hrestored := h.2
    rw [hprior] at hrestored
    rw [hremoved] at hrestored
    exact absurd hrestored (by decide)

end Tiko.Pitr

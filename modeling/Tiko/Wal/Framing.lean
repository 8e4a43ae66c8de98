import Tiko.Wal.Receiver

/-!
# Framing of the replication stream

`read_message` takes a header of five bytes and then a body off the socket, each with `read_exact`. The
loop of `run_streaming` waits for it under a timeout; when the timeout fires the future is dropped,
with the bytes it has taken, and the next call starts with a header.

* `MessageLoop`: the messages that the loop has obtained, and how far it is in the next one;
* `kept`: the bytes that are still accounted for. A byte adds at most one, and a timeout inside a
  message takes some away;
* **`obtained_iff_lossless`**: the loop obtains what was sent exactly when every timeout fires between
  two messages.
-/

namespace Tiko.Wal

open Lib Lib.Msgpack

/-! ## Messages -/

/-- A backend message: its type and its body, which is short enough for the length field. -/
structure Message where
  msgType : UInt8
  body : Bytes
  fits : body.length + 4 < 2 ^ 32

namespace Message

/-- The message on the wire: type, length of the rest, body. -/
def encode (m : Message) : Bytes := m.msgType :: (be 4 (m.body.length + 4) ++ m.body)

/-- What `read_message` returns. -/
def read (m : Message) : UInt8 × Bytes := (m.msgType, m.body)

/-- The bytes of a message that was read. -/
def wireLength (p : UInt8 × Bytes) : ℕ := 5 + p.2.length

theorem length_encode (m : Message) : m.encode.length = wireLength m.read := by
  rw [encode, List.length_cons, List.length_append, length_be]
  change 4 + m.body.length + 1 = 5 + m.body.length
  omega

/-- The messages up to the first that is not CopyData (`d`); there the stream ends. -/
def untilEnd : List Message → List Message
  | [] => []
  | m :: ms => if m.msgType = 100 then m :: untilEnd ms else [m]

theorem untilEnd_prefix (ms : List Message) : untilEnd ms <+: ms := by
  induction ms with
  | nil => exact List.prefix_refl _
  | cons m ms ih =>
    rw [untilEnd]
    split_ifs
    · exact (List.prefix_cons_inj m).mpr ih
    · exact ⟨ms, rfl⟩

theorem length_flatMap_encode (ms : List Message) :
    (ms.flatMap encode).length = ((ms.map read).map wireLength).sum := by
  induction ms with
  | nil => rfl
  | cons m ms ih =>
    rw [List.flatMap_cons, List.length_append, length_encode, ih]
    rfl

end Message

open Message

/-! ## The loop -/

/-- How far `read_message` is. -/
inductive Reading where
  | header (got : Bytes)
  | body (msgType : UInt8) (bodyLen : ℕ) (got : Bytes)
  deriving DecidableEq

/-- The bytes that the future of `recv_copy_data` holds. -/
def Reading.taken : Reading → ℕ
  | .header got => got.length
  | .body _ _ got => 5 + got.length

/-- The message loop of `run_streaming`. -/
structure MessageLoop where
  reading : Reading
  obtained : List (UInt8 × Bytes)
  /-- `run_streaming` has returned. -/
  ended : Bool
  deriving DecidableEq

namespace MessageLoop

/-- The loop when streaming starts. -/
def init : MessageLoop := ⟨.header [], [], false⟩

/-- `recv_copy_data` on a whole message: only CopyData keeps the loop going. -/
def deliver (l : MessageLoop) (msgType : UInt8) (body : Bytes) : MessageLoop :=
  ⟨.header [], l.obtained ++ [(msgType, body)], msgType != 100⟩

/-- `read_message` between its two reads. -/
def afterHeader (l : MessageLoop) (msgType : UInt8) (length : ℕ) : MessageLoop :=
  if length < 4 then { l with reading := .header [], ended := true }
  else if length - 4 = 0 then l.deliver msgType []
  else { l with reading := .body msgType (length - 4) [] }

/-- One more byte is read. -/
def readByte (l : MessageLoop) (b : UInt8) : MessageLoop :=
  if l.ended then l
  else
    match l.reading with
    | .header got =>
      if got.length + 1 = 5 then
        l.afterHeader (got.headD 0) (Bytes.ofLe (got ++ [b]).tail.reverse)
      else { l with reading := .header (got ++ [b]) }
    | .body msgType bodyLen got =>
      if got.length + 1 = bodyLen then l.deliver msgType (got ++ [b])
      else { l with reading := .body msgType bodyLen (got ++ [b]) }

/-- Bytes that have arrived are read. -/
def readBytes (l : MessageLoop) (bs : Bytes) : MessageLoop := bs.foldl readByte l

/-- `KEEPALIVE_INTERVAL` has passed: the future is dropped with what it holds. -/
def timeout (l : MessageLoop) : MessageLoop :=
  if l.ended then l else { l with reading := .header [] }

/-- What happens to the loop while it waits. -/
inductive Event where
  | bytes (bs : Bytes)
  | timeout

/-- The loop on an event. -/
def occur (l : MessageLoop) : Event → MessageLoop
  | .bytes bs => l.readBytes bs
  | .timeout => l.timeout

/-- The loop after a sequence of events. -/
def run (evs : List Event) : MessageLoop := evs.foldl occur init

/-- The bytes that have arrived. -/
def received (evs : List Event) : Bytes :=
  evs.flatMap fun
    | .bytes bs => bs
    | .timeout => []

/-- Until the stream ends every timeout fires when a whole number of messages has arrived. -/
def Lossless (ms : List Message) (evs : List Event) : Prop :=
  ∀ pre post, evs = pre ++ .timeout :: post →
    (received pre).length < ((untilEnd ms).flatMap encode).length →
    ∃ k, received pre = (ms.take k).flatMap encode

variable {l : MessageLoop} {ms : List Message} {evs : List Event}

/-! ## Without timeouts -/

theorem readBytes_append (l : MessageLoop) (bs bs' : Bytes) :
    l.readBytes (bs ++ bs') = (l.readBytes bs).readBytes bs' := List.foldl_append

theorem readBytes_of_ended (h : l.ended = true) (bs : Bytes) : l.readBytes bs = l := by
  induction bs with
  | nil => rfl
  | cons b bs ih =>
    have hb : l.readByte b = l := by rw [readByte, if_pos h]
    rw [readBytes, List.foldl_cons, hb]
    exact ih

/-- The rest of a body. -/
theorem readBytes_body {msgType : UInt8} {bodyLen : ℕ} {got bs : Bytes} (hend : l.ended = false)
    (hlen : got.length + bs.length = bodyLen) (hne : bs ≠ []) :
    ({ l with reading := .body msgType bodyLen got } : MessageLoop).readBytes bs =
      l.deliver msgType (got ++ bs) := by
  induction bs generalizing got with
  | nil => exact absurd rfl hne
  | cons b bs ih =>
    rw [List.length_cons] at hlen
    rw [readBytes, List.foldl_cons, readByte, if_neg (by rw [hend]; decide)]
    dsimp only
    cases bs with
    | nil =>
      rw [if_pos (by simpa using hlen)]
      rfl
    | cons b' bs =>
      rw [if_neg (by rw [List.length_cons] at hlen; omega)]
      have hlen' : (got ++ [b]).length + (b' :: bs).length = bodyLen := by
        rw [List.length_append, List.length_singleton]
        omega
      have hrest := ih hlen' (List.cons_ne_nil _ _)
      rw [List.append_assoc] at hrest
      exact hrest

/-- The five bytes of a header. -/
theorem readBytes_header (hread : l.reading = .header []) (hend : l.ended = false)
    (t a b c d : UInt8) :
    l.readBytes [t, a, b, c, d] = l.afterHeader t (Bytes.ofLe [d, c, b, a]) := by
  obtain ⟨reading, obtained, ended⟩ := l
  obtain rfl : reading = .header [] := hread
  obtain rfl : ended = false := hend
  rfl

/-- **A whole message is obtained.** -/
theorem readBytes_encode (hread : l.reading = .header []) (hend : l.ended = false) (m : Message) :
    l.readBytes m.encode = l.deliver m.msgType m.body := by
  have hbe : ∃ a b c d, be 4 (m.body.length + 4) = [a, b, c, d] := ⟨_, _, _, _, rfl⟩
  obtain ⟨a, b, c, d, hbe⟩ := hbe
  have hlength : Bytes.ofLe [d, c, b, a] = m.body.length + 4 := by
    have hrev : [d, c, b, a] = Bytes.le 4 (m.body.length + 4) := by
      rw [← List.reverse_reverse (Bytes.le 4 (m.body.length + 4))]
      exact (congrArg List.reverse hbe).symm
    rw [hrev]
    exact Bytes.ofLe_le (by have := m.fits; omega)
  rw [encode, hbe, ← List.cons_append, readBytes_append, readBytes_header hread hend, hlength,
    afterHeader, if_neg (by omega), Nat.add_sub_cancel]
  by_cases hnil : m.body = []
  · rw [if_pos (by rw [hnil]; rfl), hnil]
    rfl
  · have hpos := List.length_pos_iff.mpr hnil
    rw [if_neg (by omega), readBytes_body hend (by simp) hnil]
    rfl

/-- **Whole messages are obtained**, up to the end of the stream, and nothing is left over. -/
theorem readBytes_flatMap (hread : l.reading = .header []) (hend : l.ended = false) :
    (l.readBytes (ms.flatMap encode)).obtained = l.obtained ++ (untilEnd ms).map read ∧
      (l.readBytes (ms.flatMap encode)).reading = .header [] ∧
      ((l.readBytes (ms.flatMap encode)).ended = false → untilEnd ms = ms) := by
  induction ms generalizing l with
  | nil => exact ⟨(List.append_nil _).symm, hread, fun _ => rfl⟩
  | cons m ms ih =>
    rw [List.flatMap_cons, readBytes_append, readBytes_encode hread hend, untilEnd]
    by_cases hd : m.msgType = 100
    · obtain ⟨hobt, hhead, hall⟩ := ih (l := l.deliver m.msgType m.body) rfl (by simp [deliver, hd])
      rw [if_pos hd]
      refine ⟨?_, hhead, fun he => by rw [hall he]⟩
      rw [hobt, deliver, List.append_assoc]
      rfl
    · have hended : (l.deliver m.msgType m.body).ended = true := by simp [deliver, hd]
      rw [if_neg hd, readBytes_of_ended hended]
      exact ⟨rfl, rfl, fun he => absurd (hended.symm.trans he) (by decide)⟩

/-! ## Bytes that are accounted for -/

/-- The bytes in the messages obtained and in the next one. -/
def kept (l : MessageLoop) : ℕ := (l.obtained.map wireLength).sum + l.reading.taken

theorem kept_deliver (l : MessageLoop) (msgType : UInt8) (body : Bytes) :
    (l.deliver msgType body).kept = (l.obtained.map wireLength).sum + (5 + body.length) := by
  simp [kept, deliver, wireLength, Reading.taken]

/-- A byte is accounted for once, unless the stream has ended. -/
theorem kept_readByte (l : MessageLoop) (b : UInt8) :
    (l.readByte b).kept ≤ l.kept + 1 ∧
      ((l.readByte b).ended = false → (l.readByte b).kept = l.kept + 1) := by
  rw [readByte]
  by_cases hend : l.ended = true
  · rw [if_pos hend]
    exact ⟨Nat.le_succ _, fun h => absurd (hend.symm.trans h) (by decide)⟩
  rw [if_neg hend]
  cases hread : l.reading with
  | header got =>
    have hk : l.kept = (l.obtained.map wireLength).sum + got.length := by
      rw [kept, hread, Reading.taken]
    dsimp only
    by_cases h5 : got.length + 1 = 5
    · rw [if_pos h5, afterHeader]
      split_ifs
      · refine ⟨?_, fun h => absurd h (by simp)⟩
        rw [hk]
        simp only [kept, Reading.taken, List.length_nil]
        omega
      · rw [kept_deliver, hk, List.length_nil]
        exact ⟨by omega, fun _ => by omega⟩
      · rw [hk]
        simp only [kept, Reading.taken, List.length_nil]
        exact ⟨by omega, fun _ => by omega⟩
    · rw [if_neg h5, hk]
      simp only [kept, Reading.taken, List.length_append, List.length_singleton]
      exact ⟨by omega, fun _ => by omega⟩
  | body msgType bodyLen got =>
    have hk : l.kept = (l.obtained.map wireLength).sum + (5 + got.length) := by
      rw [kept, hread, Reading.taken]
    dsimp only
    split_ifs
    · rw [kept_deliver, hk, List.length_append, List.length_singleton]
      exact ⟨by omega, fun _ => by omega⟩
    · rw [hk]
      simp only [kept, Reading.taken, List.length_append, List.length_singleton]
      exact ⟨by omega, fun _ => by omega⟩

theorem ended_of_readBytes {bs : Bytes} (h : (l.readBytes bs).ended = false) : l.ended = false := by
  by_contra hend
  rw [Bool.not_eq_false] at hend
  rw [readBytes_of_ended hend] at h
  exact absurd (hend.symm.trans h) (by decide)

theorem kept_readBytes (l : MessageLoop) (bs : Bytes) :
    (l.readBytes bs).kept ≤ l.kept + bs.length ∧
      ((l.readBytes bs).ended = false → (l.readBytes bs).kept = l.kept + bs.length) := by
  induction bs generalizing l with
  | nil => exact ⟨le_rfl, fun _ => rfl⟩
  | cons b bs ih =>
    obtain ⟨hle, heq⟩ := kept_readByte l b
    obtain ⟨hle', heq'⟩ := ih (l.readByte b)
    rw [List.length_cons]
    change ((l.readByte b).readBytes bs).kept ≤ _ ∧
      (((l.readByte b).readBytes bs).ended = false → ((l.readByte b).readBytes bs).kept = _)
    refine ⟨by omega, fun h => ?_⟩
    have h1 := heq (ended_of_readBytes h)
    have h2 := heq' h
    omega

/-- A timeout adds nothing, and inside a message it takes bytes away. -/
theorem kept_timeout (l : MessageLoop) : l.timeout.kept ≤ l.kept ∧
    (l.ended = false → l.reading.taken ≠ 0 → l.timeout.kept < l.kept) := by
  rw [timeout]
  split_ifs with hend
  · exact ⟨le_rfl, fun h => absurd (hend.symm.trans h) (by decide)⟩
  · simp only [kept, Reading.taken, List.length_nil]
    exact ⟨by omega, fun _ h => by omega⟩

theorem kept_foldl (l : MessageLoop) (evs : List Event) :
    (evs.foldl occur l).kept ≤ l.kept + (received evs).length := by
  induction evs generalizing l with
  | nil => exact le_rfl
  | cons e evs ih =>
    have hrest := ih (l.occur e)
    cases e with
    | bytes bs =>
      have hb := (kept_readBytes l bs).1
      rw [received, List.flatMap_cons, List.length_append, List.foldl_cons]
      change _ ≤ l.kept + (bs.length + (received evs).length)
      change (evs.foldl occur (l.readBytes bs)).kept ≤ (l.readBytes bs).kept + _ at hrest
      exact hrest.trans (by omega)
    | timeout =>
      have ht := (kept_timeout l).1
      rw [received, List.flatMap_cons, List.nil_append, List.foldl_cons]
      change (evs.foldl occur l.timeout).kept ≤ l.timeout.kept + _ at hrest
      exact hrest.trans (Nat.add_le_add_right ht _)

/-- Nothing that was obtained is taken back. -/
theorem obtained_prefix_readByte (l : MessageLoop) (b : UInt8) :
    l.obtained <+: (l.readByte b).obtained := by
  unfold readByte
  split_ifs
  · exact List.prefix_refl _
  · cases l.reading with
    | header got =>
      dsimp only
      unfold afterHeader
      split_ifs <;> first | exact List.prefix_refl _ | exact List.prefix_append _ _
    | body msgType bodyLen got =>
      dsimp only
      split_ifs <;> first | exact List.prefix_refl _ | exact List.prefix_append _ _

theorem obtained_prefix_readBytes (l : MessageLoop) (bs : Bytes) :
    l.obtained <+: (l.readBytes bs).obtained := by
  induction bs generalizing l with
  | nil => exact List.prefix_refl _
  | cons b bs ih => exact (obtained_prefix_readByte l b).trans (ih _)

/-! ## Timeouts between messages -/

theorem received_append (evs evs' : List Event) :
    received (evs ++ evs') = received evs ++ received evs' := List.flatMap_append

theorem run_append (evs evs' : List Event) : run (evs ++ evs') = evs'.foldl occur (run evs) :=
  List.foldl_append

/-- A timeout that takes nothing away. -/
def Harmless (l : MessageLoop) : Prop := l.ended = true ∨ l.reading = .header []

theorem timeout_of_harmless (h : l.Harmless) : l.timeout = l := by
  rw [timeout]
  split_ifs with hend
  · rfl
  · rcases h with h | h
    · exact absurd h hend
    · rw [← h]

theorem taken_ne_zero (h : ¬ l.Harmless) : l.ended = false ∧ l.reading.taken ≠ 0 := by
  rw [Harmless, not_or, Bool.not_eq_true] at h
  refine ⟨h.1, fun hzero => h.2 ?_⟩
  cases hread : l.reading with
  | header got =>
    rw [hread] at hzero
    rw [List.length_eq_zero_iff.mp hzero]
  | body msgType bodyLen got =>
    rw [hread, Reading.taken] at hzero
    omega

/-- Harmless timeouts do not change the run. -/
theorem run_of_harmless (h : ∀ pre post, evs = pre ++ .timeout :: post →
    (init.readBytes (received pre)).Harmless) : run evs = init.readBytes (received evs) := by
  induction evs using List.reverseRecOn with
  | nil => rfl
  | append_singleton evs e ih =>
    have hevs := ih fun pre post he => h pre (post ++ [e]) (by rw [he, List.append_assoc]; rfl)
    rw [run_append, received_append, readBytes_append, hevs]
    cases e with
    | bytes bs =>
      rw [show received [.bytes bs] = bs from List.append_nil bs]
      rfl
    | timeout => exact timeout_of_harmless (h evs [] rfl)

/-- What follows the end of the stream is not read. -/
theorem readBytes_untilEnd (hread : l.reading = .header []) (hend : l.ended = false) :
    l.readBytes ((untilEnd ms).flatMap encode) = l.readBytes (ms.flatMap encode) := by
  induction ms generalizing l with
  | nil => rfl
  | cons m ms ih =>
    rw [untilEnd, List.flatMap_cons, readBytes_append, readBytes_encode hread hend]
    by_cases hd : m.msgType = 100
    · rw [if_pos hd, List.flatMap_cons, readBytes_append, readBytes_encode hread hend]
      exact ih rfl (by simp [deliver, hd])
    · have hended : (l.deliver m.msgType m.body).ended = true := by simp [deliver, hd]
      rw [if_neg hd, List.flatMap_singleton, readBytes_encode hread hend,
        readBytes_of_ended hended]

theorem harmless_of_lossless (hrec : received evs = ms.flatMap encode) (h : Lossless ms evs)
    {pre post : List Event} (he : evs = pre ++ .timeout :: post) :
    (init.readBytes (received pre)).Harmless := by
  by_cases hlt : (received pre).length < ((untilEnd ms).flatMap encode).length
  · obtain ⟨k, hk⟩ := h pre post he hlt
    rw [hk]
    exact .inr (readBytes_flatMap rfl rfl).2.1
  · have hpre : received pre <+: ms.flatMap encode :=
      ⟨received post, by rw [← hrec, he, received_append]; rfl⟩
    obtain ⟨rest, hrest⟩ := untilEnd_prefix ms
    have huntil : (untilEnd ms).flatMap encode <+: ms.flatMap encode :=
      ⟨rest.flatMap encode, by rw [← List.flatMap_append, hrest]⟩
    obtain ⟨r, hr⟩ := List.prefix_of_prefix_length_le huntil hpre (not_lt.mp hlt)
    by_cases hend : (init.readBytes (ms.flatMap encode)).ended = true
    · left
      rw [← hr, readBytes_append, readBytes_untilEnd rfl rfl, readBytes_of_ended hend]
      exact hend
    · -- the stream has no end, so that everything has been received
      have hall : untilEnd ms = ms :=
        (readBytes_flatMap (l := init) rfl rfl).2.2 (by simpa using hend)
      rw [hall] at hlt
      rw [hpre.eq_of_length_le (not_lt.mp hlt)]
      exact .inr (readBytes_flatMap rfl rfl).2.1

/-! ## Timeouts inside messages -/

theorem kept_init_readBytes (bs : Bytes) : (init.readBytes bs).kept ≤ bs.length ∧
    ((init.readBytes bs).ended = false → (init.readBytes bs).kept = bs.length) := by
  have h := kept_readBytes init bs
  rw [show init.kept = 0 from rfl, Nat.zero_add] at h
  exact h

/-- A loop that has obtained everything has lost nothing. -/
theorem le_kept_of_obtained (h : l.obtained = ms.map read) :
    (ms.flatMap encode).length ≤ l.kept := by
  rw [length_flatMap_encode, ← h]
  exact Nat.le_add_right _ _

/-- If everything was obtained, no timeout took bytes away. -/
theorem run_of_obtained (hrec : received evs = ms.flatMap encode)
    (hobt : (run evs).obtained = ms.map read) {pre post : List Event} (he : evs = pre ++ post) :
    run pre = init.readBytes (received pre) := by
  induction pre using List.reverseRecOn generalizing post with
  | nil => rfl
  | append_singleton pre e ih =>
    have hpre := ih (he.trans (List.append_assoc pre [e] post))
    rw [run_append, received_append, readBytes_append, hpre]
    cases e with
    | bytes bs =>
      rw [show received [.bytes bs] = bs from List.append_nil bs]
      rfl
    | timeout =>
      by_contra hne
      have hharm : ¬ (init.readBytes (received pre)).Harmless := fun h =>
        hne (timeout_of_harmless h)
      obtain ⟨hend, htaken⟩ := taken_ne_zero hharm
      have hlost := (kept_timeout (init.readBytes (received pre))).2 hend htaken
      have hbefore := (kept_init_readBytes (received pre)).2 hend
      have hafter := kept_foldl (init.readBytes (received pre)).timeout post
      have hrun : run evs = post.foldl occur (init.readBytes (received pre)).timeout := by
        rw [he, run_append, run_append, hpre]
        rfl
      have htotal := le_kept_of_obtained hobt
      have hlen : (ms.flatMap encode).length = (received pre).length + (received post).length := by
        rw [← hrec, he, received_append, received_append, List.length_append, List.length_append]
        rfl
      rw [hrun] at htotal
      omega

theorem lossless_of_obtained (hall : untilEnd ms = ms) (hrec : received evs = ms.flatMap encode)
    (hobt : (run evs).obtained = ms.map read) : Lossless ms evs := by
  intro pre post he hlt
  rw [hall] at hlt
  have hrun := run_of_obtained hrec hobt he
  have hrun' := run_of_obtained hrec hobt (he.trans (List.append_assoc pre [.timeout] post).symm)
  have hpre : received pre <+: ms.flatMap encode :=
    ⟨received post, by rw [← hrec, he, received_append]; rfl⟩
  have hfull : (init.readBytes (ms.flatMap encode)).obtained = ms.map read := by
    rw [(readBytes_flatMap rfl rfl).1, hall]
    rfl
  obtain ⟨r, hr⟩ := hpre
  -- the stream has not ended
  have hend : (init.readBytes (received pre)).ended = false := by
    by_contra hend
    rw [Bool.not_eq_false] at hend
    rw [← hr, readBytes_append, readBytes_of_ended hend] at hfull
    have h1 := le_kept_of_obtained hfull
    have h2 := (kept_init_readBytes (received pre)).1
    omega
  -- nor has the timeout taken anything away
  have hread : (init.readBytes (received pre)).reading = .header [] := by
    by_contra hne
    have hharm : ¬ (init.readBytes (received pre)).Harmless := by
      rintro (h | h)
      · exact absurd (hend.symm.trans h) (by decide)
      · exact hne h
    obtain ⟨-, htaken⟩ := taken_ne_zero hharm
    have hlost := (kept_timeout (init.readBytes (received pre))).2 hend htaken
    have heq : (init.readBytes (received pre)).timeout = init.readBytes (received pre) := by
      rw [run_append, hrun, received_append, readBytes_append] at hrun'
      exact hrun'
    rw [heq] at hlost
    exact absurd hlost (lt_irrefl _)
  have hpart : (init.readBytes (received pre)).obtained <+: ms.map read := by
    have hmono := obtained_prefix_readBytes (init.readBytes (received pre)) r
    rw [← readBytes_append, hr, hfull] at hmono
    exact hmono
  have hkept := (kept_init_readBytes (received pre)).2 hend
  rw [kept, hread, Reading.taken, List.length_nil, Nat.add_zero,
    List.prefix_iff_eq_take.mp hpart, ← List.map_take, ← length_flatMap_encode] at hkept
  -- both are the first bytes of the stream
  have hmessages : (ms.take (init.readBytes (received pre)).obtained.length).flatMap encode <+:
      ms.flatMap encode := by
    refine ⟨(ms.drop (init.readBytes (received pre)).obtained.length).flatMap encode, ?_⟩
    rw [← List.flatMap_append, List.take_append_drop]
  have hsame := List.prefix_of_prefix_length_le ⟨r, hr⟩ hmessages hkept.ge
  exact ⟨_, hsame.eq_of_length hkept.symm⟩

/-- **Framing under timeouts.** If no timeout fires inside a message, the loop obtains what was sent, up
to the end of the stream. Where the stream ends with what was sent, it obtains exactly that only if no
timeout fires inside a message. -/
theorem obtained_iff_lossless {ms : List Message} {evs : List Event}
    (hrec : received evs = ms.flatMap encode) :
    (Lossless ms evs → (run evs).obtained = (untilEnd ms).map read) ∧
      (untilEnd ms = ms → ((run evs).obtained = ms.map read ↔ Lossless ms evs)) := by
  have hlossless : Lossless ms evs → (run evs).obtained = (untilEnd ms).map read := by
    intro h
    rw [run_of_harmless fun pre post he => harmless_of_lossless hrec h he, hrec,
      (readBytes_flatMap rfl rfl).1]
    rfl
  refine ⟨hlossless, fun hall => ⟨fun hobt => lossless_of_obtained hall hrec hobt, fun h => ?_⟩⟩
  rw [hlossless h, hall]

/-- CopyData with a keepalive, then CopyDone, in three pieces with two timeouts between them. -/
theorem obtained_iff_lossless_pieces :
    (run [.bytes [100, 0, 0], .bytes [0, 5, 107], .timeout, .timeout, .bytes [99, 0, 0, 0, 4]]).obtained =
      [(100, [107]), (99, [])] := by
  have h := (@obtained_iff_lossless [⟨100, [107], by decide⟩, ⟨99, [], by decide⟩]
    [.bytes [100, 0, 0], .bytes [0, 5, 107], .timeout, .timeout, .bytes [99, 0, 0, 0, 4]]
    (by decide)).1
  refine h fun pre post he hlt => ⟨1, ?_⟩
  have hpre : pre = [.bytes [100, 0, 0], .bytes [0, 5, 107]] ∨
      pre = [.bytes [100, 0, 0], .bytes [0, 5, 107], .timeout] := by
    rcases pre with _ | ⟨a, _ | ⟨b, _ | ⟨c, _ | ⟨d, _ | ⟨e, pre⟩⟩⟩⟩⟩ <;> simp at he <;> simp [he]
  rcases hpre with rfl | rfl <;> decide

/-- A timeout behind the header of a CopyData message: its body is read as a header, and the loop
obtains the CopyDone that the body looks like. -/
theorem timeout_inside_message :
    received [.bytes [100, 0, 0, 0, 9], .timeout, .bytes [99, 0, 0, 0, 4]] =
        [(⟨100, [99, 0, 0, 0, 4], by decide⟩ : Message)].flatMap encode ∧
      (run [.bytes [100, 0, 0, 0, 9], .timeout, .bytes [99, 0, 0, 0, 4]]).obtained = [(99, [])] ∧
      (run [.bytes [100, 0, 0, 0, 9], .timeout, .bytes [99, 0, 0, 0, 4]]).obtained ≠
        [(⟨100, [99, 0, 0, 0, 4], by decide⟩ : Message)].map read := by
  refine ⟨?_, ?_, ?_⟩ <;> decide

end MessageLoop

end Tiko.Wal

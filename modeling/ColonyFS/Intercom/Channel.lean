import ColonyFS.Intercom.Connection
import ColonyFS.Lib.Framing

/-!
# Messages over one connection (`connection::async_write`, `handle_read_header`, `handle_read_data`)

One direction of a connection: the sender writes one message after another, the stream hands its
bytes over in pieces, and the receiver reads message after message. The archive of a value is an
opaque text. The machine does what `Framing.Link` does with headers in hexadecimal (`link_step`).
-/

namespace ColonyFS

open Machine Framing

structure Channel where
  sender : Connection
  receiver : Connection
  /-- What `async_write` was called with, oldest first. -/
  called : List Str
  /-- What `async_write` posted to handlers, oldest first. -/
  posted : List ErrorCode
  stream : Str
  inbox : Str
  /-- The read that the receiver has under way. -/
  pending : Pending
  received : List Str

namespace Channel

def init : Channel := ⟨.new, .new, [], [], [], [], .header, []⟩

/-- What the receiver waits for after `handle_read_header`. -/
def ofHeaderRead : HeaderRead → Pending
  | .read size => .data size
  | .handler _ | .lengthError => .stopped

def step (s : Channel) : LinkAct Char → Option Channel
  | .write archive =>
    let (op, sender) := s.sender.asyncWrite archive
    let s := { s with sender, called := s.called ++ [archive] }
    match op with
    | .write header data => some { s with stream := s.stream ++ (header ++ data) }
    | .post e => some { s with posted := s.posted ++ [e] }
  | .arrive k => some { s with inbox := s.inbox ++ s.stream.take k, stream := s.stream.drop k }
  | .complete => match s.pending with
    | .header =>
      if Connection.headerLength ≤ s.inbox.length then
        let receiver :=
          { s.receiver with inboundHeader := s.inbox.take Connection.headerLength }
        let (next, receiver) := receiver.handleReadHeader .success
        some { s with
          receiver, inbox := s.inbox.drop Connection.headerLength
          pending := ofHeaderRead next }
      else none
    | .data size =>
      if size ≤ s.inbox.length then
        let receiver := { s.receiver with inboundData := s.inbox.take size }
        let s := { s with receiver, inbox := s.inbox.drop size }
        match receiver.handleReadData some .success with
        | .ok archive => some { s with pending := .header, received := s.received ++ [archive] }
        | .error _ => some { s with pending := .stopped }
      else none
    | .stopped => none

/-- The header that `async_write` writes and `handle_read_header` reads. -/
def codec : HeaderCodec Char where
  headerLength := Connection.headerLength
  headerLength_pos := by decide
  print size := if (Connection.header size).length = Connection.headerLength then
    some (Connection.header size) else none
  parse header := (Connection.inboundDataSize header).filter (· ≤ Connection.maxSize)
  length_print h := by
    split at h <;> cases h
    assumption
  parse_print h := by
    split at h <;> cases h
    next hlen =>
    have hlt := Connection.length_header.mp hlen
    rw [Connection.inboundDataSize_header hlt, Option.filter_some_pos]
    exact decide_eq_true (Nat.le_of_lt (Nat.lt_of_lt_of_le hlt (by decide)))

/-- A message that a header can announce. -/
def Fits (archive : Str) : Prop := archive.length < 2 ^ 32

instance (archive : Str) : Decidable (Fits archive) := inferInstanceAs (Decidable (_ < _))

/-- The messages that went on the stream. -/
def written (s : Channel) : List Str := s.called.filter Fits

/-- The channel without the buffers. -/
def link (s : Channel) : Link Char := ⟨s.written, s.stream, s.inbox, s.pending, s.received⟩

variable {s s' : Channel} {act : LinkAct Char} {archive : Str} {n : Nat}

theorem print_of_lt (h : n < 2 ^ 32) : codec.print n = some (Connection.header n) :=
  if_pos (Connection.length_header.mpr h)

theorem print_of_le (h : 2 ^ 32 ≤ n) : codec.print n = none :=
  if_neg fun hl => absurd (Connection.length_header.mp hl) (Nat.not_lt.mpr h)

/-- What `handle_read_header` makes of a header is what the codec reads in it. -/
theorem ofHeaderRead_eq (receiver : Connection) :
    ofHeaderRead (receiver.handleReadHeader .success).1 =
      .ofSize (codec.parse receiver.inboundHeader) := by
  simp only [Connection.handleReadHeader, codec]
  cases h : Connection.inboundDataSize receiver.inboundHeader with
  | none => rfl
  | some size =>
    by_cases hlt : Connection.maxSize < size
    · rw [Option.filter_some_neg (by simpa using hlt)]
      simp only [ne_eq, not_true_eq_false, if_false, if_pos hlt]
      rfl
    · rw [Option.filter_some_pos (by simpa using hlt)]
      simp only [ne_eq, not_true_eq_false, if_false, if_neg hlt]
      rfl

/-- A step of the channel is a step of the link. -/
theorem link_step (s : Channel) (act : LinkAct Char) :
    (step s act).map link = Link.step codec s.link act := by
  cases act with
  | write archive =>
    simp only [step, Link.step]
    by_cases hlt : archive.length < 2 ^ 32
    · have hfits : decide (Fits archive) = true := decide_eq_true hlt
      rw [Connection.asyncWrite_of_lt hlt, print_of_lt hlt]
      simp [link, written, List.filter_append, hfits]
    · have hfits : decide (Fits archive) = false := decide_eq_false hlt
      have hle := Nat.not_lt.mp hlt
      rw [Connection.asyncWrite_of_le hle, print_of_le hle]
      simp [link, written, List.filter_append, hfits]
  | arrive k => rfl
  | complete =>
    simp only [step]
    cases hp : s.pending with
    | header =>
      by_cases hlen : Connection.headerLength ≤ s.inbox.length
      · have hr := ofHeaderRead_eq
          { s.receiver with inboundHeader := s.inbox.take Connection.headerLength }
        rw [Link.step_header (s := s.link) hp hlen]
        simp only [if_pos hlen, Option.map_some, link, hr]
        rfl
      · rw [if_neg hlen]
        exact (Link.step_header_none (s := s.link) hp hlen).symm
    | data size =>
      by_cases hlen : size ≤ s.inbox.length
      · rw [Link.step_data (s := s.link) hp hlen]
        simp only [if_pos hlen]
        rfl
      · simp only [if_neg hlen]
        exact (Link.step_data_none (s := s.link) hp hlen).symm
    | stopped => exact (Link.step_stopped (s := s.link) hp).symm

theorem inv_of_reach (h : Reach step ok init s) : Link.Inv codec s.link :=
  Link.Inv.of_reach (h.map link_step)

theorem called_complete (h : step s .complete = some s') :
    s'.called = s.called ∧ s'.posted = s.posted := by
  simp only [step] at h
  split at h
  · split at h <;> cases h
    exact ⟨rfl, rfl⟩
  · split at h
    · split at h <;> cases h <;> exact ⟨rfl, rfl⟩
    · cases h
  · cases h

/-- Every message that does not fit is reported. -/
def Reported (s : Channel) : Prop :=
  s.posted = List.replicate (s.called.countP (¬Fits ·)) .invalidArgument

theorem Reported.step (H : s.Reported) (h : step s act = some s') : s'.Reported := by
  cases act with
  | write archive =>
    simp only [Channel.step] at h
    by_cases hlt : archive.length < 2 ^ 32
    · rw [Connection.asyncWrite_of_lt hlt] at h
      cases h
      have hcount : (s.called ++ [archive]).countP (¬Fits ·) = s.called.countP (¬Fits ·) := by
        rw [List.countP_append, List.countP_singleton, if_neg (by simpa [Fits] using hlt),
          Nat.add_zero]
      rwa [Reported, hcount]
    · rw [Connection.asyncWrite_of_le (Nat.not_lt.mp hlt)] at h
      cases h
      have hcount : (s.called ++ [archive]).countP (¬Fits ·) = s.called.countP (¬Fits ·) + 1 := by
        rw [List.countP_append, List.countP_singleton, if_pos (by simpa [Fits] using hlt)]
      rw [Reported, hcount, List.replicate_succ', ← H]
  | arrive k => cases h; exact H
  | complete =>
    obtain ⟨hc, hp⟩ := called_complete h
    rwa [Reported, hc, hp]

/-- Nothing is under way, and every message that went on the stream was received. -/
structure Drained (s : Channel) : Prop where
  stream : s.stream = []
  inbox : s.inbox = []
  pending : s.pending = .header
  received : s.received = s.written

theorem written_of_reach {t : Channel}
    (h : Reach Channel.step (fun _ act => ∀ archive, act ≠ .write archive) s t) :
    t.written = s.written := by
  refine h.invariant (P := fun t => t.written = s.written) rfl fun s act s' ih hno hstep => ?_
  cases act with
  | write archive => exact (hno archive rfl).elim
  | arrive k => cases hstep; exact ih
  | complete => rw [written, (called_complete hstep).1]; exact ih

/-- A message below the limit goes out as a header of 8 characters and the message, any other is
reported and does not go out. In every run the receiver has the first messages that went out and
never a header that it cannot read; when it waits for more than was sent it has them all, with no
byte left; and it gets there from every state. -/
theorem lossless (conn : Connection) (archive : Str) (h : Reach Channel.step always init s) :
    (archive.length < 2 ^ 32 → ∃ header, header.length = 8 ∧
      (conn.asyncWrite archive).1 = .write header archive) ∧
    (2 ^ 32 ≤ archive.length → (conn.asyncWrite archive).1 = .post .invalidArgument) ∧
    s.Reported ∧ s.received <+: s.written ∧ s.pending ≠ .stopped ∧
    (s.stream = [] → Channel.step s .complete = none → s.Drained) ∧
    ∃ t, Reach Channel.step (fun _ act => ∀ archive, act ≠ .write archive) s t ∧
      t.written = s.written ∧ t.Drained := by
  have H := inv_of_reach h
  refine ⟨fun hlt => ?_, fun hle => ?_, ?_, H.received_prefix, H.pending_ne_stopped, ?_, ?_⟩
  · rw [Connection.asyncWrite_of_lt hlt]
    exact ⟨_, Connection.length_header.mpr hlt, rfl⟩
  · rw [Connection.asyncWrite_of_le hle]
  · exact h.invariant (P := Reported) rfl fun _ _ _ ih _ hstep => ih.step hstep
  · intro hs hstuck
    have hlink := link_step s .complete
    rw [hstuck] at hlink
    obtain ⟨hq, hr⟩ := H.quiet hs hlink.symm
    exact ⟨hs, hq.inbox, hq.pending, hr⟩
  · obtain ⟨l, hreach, hq, hr⟩ := H.drain
    obtain ⟨t, ht, rfl⟩ := hreach.lift link_step
    have hw := written_of_reach ht
    exact ⟨t, ht, hw, hq.stream, hq.inbox, hq.pending, hr.trans hw.symm⟩

/-- Two messages, the second of them empty, that arrive one byte after the other. -/
theorem lossless_example : ∃ s t, s.called = [['a', 'b'], []] ∧ s.received = [] ∧
    Reach Channel.step (fun _ act => ∀ archive, act ≠ .write archive) s t ∧
    t.received = [['a', 'b'], []] := by
  have h : (run step init (.write ['a', 'b'] :: .write [] :: List.replicate 8 (.arrive 1) ++
      [.complete])).map (fun s => (s.called, s.received)) = some ([['a', 'b'], []], []) := by
    decide +kernel
  obtain ⟨s, hs, he⟩ := Option.map_eq_some_iff.mp h
  obtain ⟨hc, hr⟩ := Prod.mk.inj he
  obtain ⟨-, -, -, -, -, -, t, ht, hw, hd⟩ := lossless .new [] (.of_run _ hs)
  refine ⟨s, t, hc, hr, ht, ?_⟩
  rw [hd.received, hw, written, hc]
  rfl

end Channel

end ColonyFS

import Mathlib
import ColonyFS.Lib.Machine

/-!
# Messages on a byte stream

A message goes over a stream as a header of fixed length, which says how long the message is, and
the message. `Link` is one direction of a connection: messages are written to the stream, the stream
hands its bytes over in pieces of any length, and the reader waits for a header, or for the number
of bytes that the last header announced. `Link.Inv` is what the bytes ahead of the reader are.
-/

namespace Framing

open Machine

/-- Headers of fixed length. -/
structure HeaderCodec (α : Type) where
  headerLength : Nat
  headerLength_pos : 0 < headerLength
  /-- `none` for a size that has no header. -/
  print : Nat → Option (List α)
  parse : List α → Option Nat
  length_print : print n = some h → h.length = headerLength
  parse_print : print n = some h → parse h = some n

/-- What the reader waits for. -/
inductive Pending where
  | header
  | data (size : Nat)
  /-- A header could not be read. -/
  | stopped
  deriving DecidableEq, Repr

/-- What it waits for behind a header. -/
def Pending.ofSize : Option Nat → Pending
  | some size => .data size
  | none => .stopped

structure Link (α : Type) where
  /-- The messages written so far, oldest first. -/
  written : List (List α)
  /-- Bytes on their way. -/
  stream : List α
  /-- Bytes that have arrived. -/
  inbox : List α
  pending : Pending
  /-- The messages read so far, oldest first. -/
  received : List (List α)

inductive LinkAct (α : Type) where
  | write (message : List α)
  /-- The next `k` bytes arrive. -/
  | arrive (k : Nat)
  /-- The reader has what it waits for. -/
  | complete

namespace Link

variable {α : Type}

def init : Link α := ⟨[], [], [], .header, []⟩

variable (c : HeaderCodec α)

def step (s : Link α) : LinkAct α → Option (Link α)
  | .write message => match c.print message.length with
    | some h => some { s with
        written := s.written ++ [message], stream := s.stream ++ (h ++ message) }
    | none => some s
  | .arrive k => some { s with inbox := s.inbox ++ s.stream.take k, stream := s.stream.drop k }
  | .complete => match s.pending with
    | .header =>
      if c.headerLength ≤ s.inbox.length then
        some { s with
          inbox := s.inbox.drop c.headerLength
          pending := .ofSize (c.parse (s.inbox.take c.headerLength)) }
      else none
    | .data size =>
      if size ≤ s.inbox.length then
        some { s with
          inbox := s.inbox.drop size, pending := .header
          received := s.received ++ [s.inbox.take size] }
      else none
    | .stopped => none

/-- A message with its header. -/
def frame (message : List α) : List α := (c.print message.length).getD [] ++ message

/-- The bytes ahead of a reader that has still to read the given messages. -/
inductive Ahead : Pending → List (List α) → List α → Prop where
  | header : Ahead .header messages (messages.flatMap (frame c))
  | data : Ahead (.data message.length) (message :: messages)
      (message ++ messages.flatMap (frame c))

/-- The reader is at the boundary of messages it believes to be at. -/
structure Inv (s : Link α) : Prop where
  fits : ∀ message ∈ s.written, (c.print message.length).isSome
  ahead : ∃ rest, s.written = s.received ++ rest ∧ Ahead c s.pending rest (s.inbox ++ s.stream)

/-- Nothing is under way. -/
structure Quiet (s : Link α) : Prop where
  stream : s.stream = []
  inbox : s.inbox = []
  pending : s.pending = .header

variable {c} {s s' : Link α} {act : LinkAct α} {p : Pending} {message inbox stream : List α}
  {messages rest : List (List α)}

theorem step_header (hp : s.pending = .header) (hlen : c.headerLength ≤ s.inbox.length) :
    step c s .complete = some { s with
      inbox := s.inbox.drop c.headerLength
      pending := .ofSize (c.parse (s.inbox.take c.headerLength)) } := by
  simp only [step, hp, if_pos hlen]

theorem step_data (hp : s.pending = .data size) (hlen : size ≤ s.inbox.length) :
    step c s .complete = some { s with
      inbox := s.inbox.drop size, pending := .header
      received := s.received ++ [s.inbox.take size] } := by
  simp only [step, hp, if_pos hlen]

theorem step_header_none (hp : s.pending = .header) (hlen : ¬c.headerLength ≤ s.inbox.length) :
    step c s .complete = none := by
  simp only [step, hp, if_neg hlen]

theorem step_data_none (hp : s.pending = .data size) (hlen : ¬size ≤ s.inbox.length) :
    step c s .complete = none := by
  simp only [step, hp, if_neg hlen]

theorem step_stopped (hp : s.pending = .stopped) : step c s .complete = none := by
  simp only [step, hp]

theorem frame_eq (h : (c.print message.length).isSome) : ∃ hd, c.print message.length = some hd ∧
    hd.length = c.headerLength ∧ frame c message = hd ++ message := by
  obtain ⟨hd, hp⟩ := Option.isSome_iff_exists.mp h
  exact ⟨hd, hp, c.length_print hp, by rw [frame, hp, Option.getD_some]⟩

theorem Ahead.write (h : Ahead c p rest stream) :
    Ahead c p (rest ++ [message]) (stream ++ frame c message) := by
  cases h with
  | header =>
    have h : Ahead c .header (rest ++ [message]) _ := .header
    simpa using h
  | @data m ms =>
    have h : Ahead c (.data m.length) (m :: (ms ++ [message])) _ := .data
    simpa using h

/-- A complete header announces the next message. -/
theorem Ahead.header_complete (h : Ahead c .header rest (inbox ++ stream))
    (hf : ∀ m ∈ rest, (c.print m.length).isSome) (hlen : c.headerLength ≤ inbox.length) :
    ∃ size, c.parse (inbox.take c.headerLength) = some size ∧
      Ahead c (.data size) rest (inbox.drop c.headerLength ++ stream) := by
  cases rest with
  | nil =>
    have hnil : inbox ++ stream = [] := by
      generalize inbox ++ stream = bytes at h
      cases h
      rfl
    have := c.headerLength_pos
    rw [(List.append_eq_nil_iff.mp hnil).1, List.length_nil] at hlen
    omega
  | cons m rest =>
    obtain ⟨hd, hp, hhd, he⟩ := frame_eq (hf m List.mem_cons_self)
    have hs : inbox ++ stream = hd ++ (m ++ rest.flatMap (frame c)) := by
      generalize inbox ++ stream = bytes at h
      cases h
      rw [List.flatMap_cons, he, List.append_assoc]
    have htake : inbox.take c.headerLength = hd := by
      rw [← List.take_append_of_le_length hlen, hs, ← hhd, List.take_left]
    have hdrop : inbox.drop c.headerLength ++ stream = m ++ rest.flatMap (frame c) := by
      rw [← List.drop_append_of_le_length hlen, hs, ← hhd, List.drop_left]
    rw [htake, hdrop]
    exact ⟨m.length, c.parse_print hp, .data⟩

/-- The announced number of bytes is the next message. -/
theorem Ahead.data_complete (h : Ahead c (.data size) rest (inbox ++ stream))
    (hlen : size ≤ inbox.length) : ∃ messages, rest = inbox.take size :: messages ∧
      Ahead c .header messages (inbox.drop size ++ stream) := by
  generalize hs : inbox ++ stream = bytes at h
  cases h with
  | @data m ms =>
    have htake : inbox.take m.length = m := by
      rw [← List.take_append_of_le_length hlen, hs, List.take_left]
    have hdrop : inbox.drop m.length ++ stream = ms.flatMap (frame c) := by
      rw [← List.drop_append_of_le_length hlen, hs, List.drop_left]
    rw [htake, hdrop]
    exact ⟨ms, rfl, .header⟩

theorem Inv.init : Inv c (init : Link α) := by
  refine ⟨nofun, [], rfl, ?_⟩
  exact .header

theorem Inv.step (H : Inv c s) (h : step c s act = some s') : Inv c s' := by
  obtain ⟨hf, rest, hw, ha⟩ := H
  have hrest : ∀ m ∈ rest, (c.print m.length).isSome := fun m hm =>
    hf m (hw ▸ List.mem_append_right _ hm)
  cases act with
  | write message =>
    simp only [Link.step] at h
    split at h
    · next hd hp =>
      cases h
      have hframe : hd ++ message = frame c message := by rw [frame, hp, Option.getD_some]
      refine ⟨List.forall_mem_append.mpr ⟨hf, by simp [hp]⟩, rest ++ [message], ?_, ?_⟩
      · simp only [hw, List.append_assoc]
      · rw [hframe, ← List.append_assoc]
        exact ha.write
    · cases h
      exact ⟨hf, rest, hw, ha⟩
  | arrive k =>
    cases h
    refine ⟨hf, rest, hw, ?_⟩
    rwa [List.append_assoc, List.take_append_drop]
  | complete =>
    simp only [Link.step] at h
    split at h
    · next hp =>
      split at h
      · next hlen =>
        cases h
        rw [hp] at ha
        obtain ⟨size, hparse, ha⟩ := ha.header_complete hrest hlen
        exact ⟨hf, rest, hw, by rw [hparse]; exact ha⟩
      · cases h
    · next size hp =>
      split at h
      · next hlen =>
        cases h
        rw [hp] at ha
        obtain ⟨messages, rfl, hahead⟩ := ha.data_complete hlen
        refine ⟨hf, messages, ?_, hahead⟩
        simpa using hw
      · cases h
    · cases h

theorem Inv.of_reach (h : Reach (Link.step c) ok Link.init s) : Inv c s :=
  h.invariant .init fun _ _ _ H _ hstep => H.step hstep

/-- What was read is the beginning of what was written. -/
theorem Inv.received_prefix (H : Inv c s) : s.received <+: s.written := by
  obtain ⟨rest, hw, _⟩ := H.ahead
  exact ⟨rest, hw.symm⟩

theorem Inv.pending_ne_stopped (H : Inv c s) : s.pending ≠ .stopped := by
  obtain ⟨rest, _, ha⟩ := H.ahead
  intro hp
  rw [hp] at ha
  cases ha

/-- A reader that waits for more than has been sent has read everything. -/
theorem Inv.quiet (H : Inv c s) (hs : s.stream = []) (hstuck : Link.step c s .complete = none) :
    Quiet s ∧ s.received = s.written := by
  obtain ⟨hf, rest, hw, ha⟩ := H
  rw [hs, List.append_nil] at ha
  simp only [Link.step] at hstuck
  cases rest with
  | nil =>
    rw [List.append_nil] at hw
    generalize hp : s.pending = p, hi : s.inbox = inbox at ha
    cases ha
    exact ⟨⟨hs, hi, hp⟩, hw.symm⟩
  | cons m rest =>
    exfalso
    obtain ⟨hd, _, hlen, he⟩ := frame_eq (hf m (hw ▸ by simp))
    generalize hp : s.pending = p, hi : s.inbox = inbox at ha
    rw [hp, hi] at hstuck
    cases ha with
    | header =>
      rw [List.flatMap_cons, he] at hstuck
      simp [← hlen] at hstuck
    | data => simp at hstuck

/-- What a run without writes uses up. -/
def work (s : Link α) : Nat :=
  3 * s.stream.length + 2 * s.inbox.length + if s.pending = .header then 0 else 1

theorem work_arrive (h : s.stream ≠ []) (hstep : Link.step c s (.arrive s.stream.length) = some s') :
    s'.work < s.work := by
  have hpos := List.length_pos_of_ne_nil h
  cases hstep
  simp only [work, List.take_length, List.drop_length, List.length_append, List.length_nil]
  omega

/-- A completion uses up bytes, or reads a message without bytes. -/
theorem work_complete (h : Link.step c s .complete = some s') : s'.work < s.work := by
  have hpos := c.headerLength_pos
  simp only [Link.step] at h
  split at h
  · next hp =>
    split at h
    · next hlen =>
      cases h
      have hflag (p : Pending) : (if p = .header then 0 else 1) ≤ 1 := by split <;> omega
      have := hflag (.ofSize (c.parse (s.inbox.take c.headerLength)))
      simp only [work, hp, List.length_drop, if_true]
      omega
    · cases h
  · next size hp =>
    split at h
    · next hlen =>
      cases h
      simp only [work, hp, List.length_drop, reduceCtorEq, if_true, if_false]
      omega
    · cases h
  · cases h

theorem written_step (h : Link.step c s act = some s') (hw : ∀ m, act ≠ .write m) :
    s'.written = s.written := by
  cases act with
  | write m => exact (hw m rfl).elim
  | arrive k => cases h; rfl
  | complete =>
    simp only [Link.step] at h
    split at h
    · split at h <;> cases h
      rfl
    · split at h <;> cases h
      rfl
    · cases h

/-- From any state of a run, arrivals and completions get every message read. -/
theorem Inv.drain (H : Inv c s) :
    ∃ s', Reach (Link.step c) (fun _ act => ∀ m, act ≠ .write m) s s' ∧
      Quiet s' ∧ s'.received = s.written := by
  generalize hn : s.work = n
  induction n using Nat.strongRecOn generalizing s with
  | ind n ih =>
    subst hn
    have next (act : LinkAct α) (t : Link α) (hact : ∀ m, act ≠ .write m)
        (hstep : Link.step c s act = some t) (hwork : t.work < s.work) :
        ∃ s', Reach (Link.step c) (fun _ act => ∀ m, act ≠ .write m) s s' ∧
          Quiet s' ∧ s'.received = s.written := by
      obtain ⟨s', hreach, hq, hr⟩ := ih t.work hwork (H.step hstep) rfl
      exact ⟨s', .head hact hstep hreach, hq, hr.trans (written_step hstep hact)⟩
    by_cases hs : s.stream = []
    · cases hc : Link.step c s .complete with
      | none =>
        obtain ⟨hq, hr⟩ := H.quiet hs hc
        exact ⟨s, .init, hq, hr⟩
      | some t => exact next .complete t nofun hc (work_complete hc)
    · exact next (.arrive s.stream.length) _ nofun rfl (work_arrive (c := c) hs rfl)

end Link

end Framing

import ColonyFS.Intercom.Chunkserver

/-!
# The user client (`intercom/client_mt.hpp`, `intercom/user_harmony.hpp`)

A client makes a connection for every chunk that it deposits or retrieves, and its handlers go on
from one operation to the next, some of them without a look at the error. `one_operation`: neither a
client nor a chunk server ever has two operations under way on one connection.
-/

namespace ColonyFS

open Machine EventLoop

namespace UserHarmony

/-- Handlers of `async_write`; only `endDeposit` is given the error. -/
inductive WriteHandler where
  | sendMetadata (basicMetadata : ChunkKey)
  | receiveData
  | sendData (chunk : ChunkData)
  | endDeposit
  deriving DecidableEq, Repr

/-- Handlers of `async_connect`; `endpointIterator` is the number of end-points it has left. -/
inductive ConnectHandler where
  | handleConnect (endpointIterator : Nat) (command : Command) (handler : WriteHandler)
  deriving DecidableEq, Repr

/-- Handlers of `async_read`. -/
inductive ReadHandler where
  | endRetrieve
  deriving DecidableEq, Repr

abbrev ClientOp := Op ConnectHandler ReadHandler WriteHandler

/-- The state is what the chunks of the retrievals were read from, newest first. -/
abbrev ClientM :=
  IntercomM (List (Except ErrorCode ChunkArchive)) ConnectHandler ReadHandler WriteHandler

/-- `init_connection`, if the host is resolved. -/
def initConnection (endpointIterator : Nat) (command : Command) (handler : WriteHandler) :
    ClientM Unit :=
  create ⟨.new, [.opening (.handleConnect endpointIterator command handler)]⟩

def retrieveChunk (data : ChunkData) (endpointIterator : Nat) : ClientM Unit :=
  initConnection endpointIterator .retrieveChunk (.sendMetadata data.getKey)

def depositChunk (data : ChunkData) (endpointIterator : Nat) : ClientM Unit :=
  initConnection endpointIterator .depositChunk (.sendData data)

def receiveData (i : Nat) : ClientM Unit := asyncRead i .endRetrieve

def endRetrieve (chunk : Except ErrorCode ChunkArchive) : ClientM Unit :=
  modify fun loop => { loop with state := chunk :: loop.state }

variable [BinaryArchive Command] [BinaryArchive ChunkArchive] [BinaryArchive ChunkKey]

/-- `handle_connect`. The socket it closes has no operation under way. -/
def handleConnect (i endpointIterator : Nat) (command : Command) (handler : WriteHandler)
    (e : ErrorCode) : ClientM Unit :=
  if e = .success then asyncWrite i (BinaryArchive.save command) handler
  else match endpointIterator with
    | endpointIterator + 1 => asyncConnect i (.handleConnect endpointIterator command handler)
    | 0 => pure ()

def sendMetadata (i : Nat) (basicMetadata : ChunkKey) : ClientM Unit :=
  asyncWrite i (BinaryArchive.save basicMetadata) .receiveData

def sendData (i : Nat) (chunk : ChunkData) : ClientM Unit :=
  asyncWrite i (BinaryArchive.save chunk.archive) .endDeposit

def handlers :
    Handlers (List (Except ErrorCode ChunkArchive)) ConnectHandler ReadHandler WriteHandler where
  opened
    | .handleConnect endpointIterator command handler, i, r =>
      handleConnect i endpointIterator command handler r.error
  read
    | .endRetrieve, _, conn, e => endRetrieve (conn.handleReadData BinaryArchive.load e)
  written
    | .sendMetadata basicMetadata, i, _ => sendMetadata i basicMetadata
    | .receiveData, i, _ => receiveData i
    | .sendData chunk, i, _ => sendData i chunk
    | .endDeposit, _, _ => pure ()

end UserHarmony

abbrev UserHarmony :=
  EventLoop.Process Fault (List (Except ErrorCode ChunkArchive)) Connection UserHarmony.ClientOp

namespace UserHarmony

inductive Act where
  | retrieveChunk (data : ChunkData) (endpointIterator : Nat)
  | depositChunk (data : ChunkData) (endpointIterator : Nat)
  | complete (c : Completion Ending)
  deriving DecidableEq, Repr

def init : UserHarmony := ⟨⟨[], []⟩, none⟩

variable [BinaryArchive Command] [BinaryArchive ChunkArchive] [BinaryArchive ChunkKey]

/-- A call of a client that runs, or a step of `io_service::run`. -/
def step (s : UserHarmony) : Act → Option UserHarmony
  | .retrieveChunk data endpointIterator =>
    if s.fault.isSome then none else some (finish (retrieveChunk data endpointIterator s.loop))
  | .depositChunk data endpointIterator =>
    if s.fault.isSome then none else some (finish (depositChunk data endpointIterator s.loop))
  | .complete c => handlers.program.step s c

variable {s s' : UserHarmony} {act : Act}

theorem oneByOne : handlers.program.OneByOne Op.Intact := by
  refine oneByOne_program (fun handler i r loop => ?_) (fun handler i conn e loop => ?_)
    (fun handler i e loop => ?_)
  · cases handler with
    | handleConnect endpointIterator command handler =>
      simp only [handlers, handleConnect]
      split
      · exact chains_asyncWrite
      · cases endpointIterator with
        | zero => exact .refl ..
        | succ endpointIterator => exact chains_asyncConnect
  · cases handler with
    | endRetrieve => exact .refl ..
  · cases handler with
    | sendMetadata key => exact chains_asyncWrite
    | receiveData => exact chains_asyncRead _
    | sendData chunk => exact chains_asyncWrite
    | endDeposit => exact .refl ..

/-- What a call makes is a new connection, on which it connects. -/
theorem step_start (h : step s act = some s') (hact : ∀ c, act ≠ .complete c) :
    ∃ handler, s'.loop.objects = s.loop.objects ++ [⟨.new, [.opening handler]⟩] := by
  cases act with
  | complete c => exact (hact c rfl).elim
  | retrieveChunk data endpointIterator | depositChunk data endpointIterator =>
    simp only [step] at h
    split at h <;> cases h
    exact ⟨_, rfl⟩

theorem single_step (H : ∀ object ∈ s.loop.objects, object.Single Op.Intact)
    (h : step s act = some s') : ∀ object ∈ s'.loop.objects, object.Single Op.Intact := by
  by_cases hact : ∃ c, act = .complete c
  · obtain ⟨c, rfl⟩ := hact
    exact EventLoop.single_step oneByOne H h
  · obtain ⟨handler, heq⟩ := step_start h (not_exists.mp hact)
    rw [heq]
    refine List.forall_mem_append.mpr ⟨H, List.forall_mem_singleton.mpr ?_⟩
    exact single_of_append ⟨.new, []⟩ rfl trivial

theorem frame_step (h : step s act = some s') {j : Nat} {object : Object Connection ClientOp}
    (hact : ∀ c, act = .complete c → j ≠ c.object) (hobj : s.loop.objects[j]? = some object) :
    s'.loop.objects[j]? = some object := by
  by_cases hc : ∃ c, act = .complete c
  · obtain ⟨c, rfl⟩ := hc
    exact EventLoop.frame_step oneByOne h (hact c rfl) hobj
  · obtain ⟨handler, heq⟩ := step_start h (not_exists.mp hc)
    rw [heq, List.getElem?_append_left (List.getElem?_eq_some_iff.mp hobj).1]
    exact hobj

end UserHarmony

section

variable [BinaryArchive Command] [BinaryArchive ChunkArchive] [BinaryArchive ChunkKey]

/-- In every state of a chunk server or of a client every connection has one operation under way at
most, and its buffers are what they were at the start of the operation; a step leaves the
connections alone of which no operation ends in it. -/
theorem one_operation (dirPrefix : Str) (disk : DirTree (List Byte)) :
    (∀ s, Reach (Chunkserver.step dirPrefix) always (Chunkserver.init disk) s →
      (∀ object ∈ s.loop.objects, object.Single Op.Intact) ∧
      ∀ c s' j object, Chunkserver.step dirPrefix s c = some s' → j ≠ c.object →
        s.loop.objects[j]? = some object → s'.loop.objects[j]? = some object) ∧
    ∀ s, Reach UserHarmony.step always UserHarmony.init s →
      (∀ object ∈ s.loop.objects, object.Single Op.Intact) ∧
      ∀ act s' j object, UserHarmony.step s act = some s' →
        (∀ c, act = .complete c → j ≠ c.object) →
        s.loop.objects[j]? = some object → s'.loop.objects[j]? = some object := by
  refine ⟨fun s h => ⟨Chunkserver.single_of_reach h, fun c s' j object hstep hj hobj => ?_⟩,
    fun s h => ⟨?_, fun act s' j object hstep hact hobj => ?_⟩⟩
  · exact EventLoop.frame_step (Chunkserver.oneByOne dirPrefix) hstep hj hobj
  · exact h.invariant
      (P := fun s : UserHarmony => ∀ object ∈ s.loop.objects, object.Single Op.Intact)
      (List.forall_mem_nil _) fun s act s' ih _ hstep => UserHarmony.single_step ih hstep
  · exact UserHarmony.frame_step hstep hact hobj

end

section

open PlainArchive

/-- A server whose peer has sent a command, and a client that has found a host at its second
end-point and now sends the command. -/
theorem one_operation_example : ∃ s t,
    Reach (Chunkserver.step ['/', 'd']) always (Chunkserver.init (.chain [['d']])) s ∧
    Reach UserHarmony.step always UserHarmony.init t ∧
    s.loop.objects.map (·.pending) = [[.readHeader .displayData], [.opening .handleAccept]] ∧
    t.loop.objects.map (·.pending) = [[.write [' ', ' ', ' ', ' ', ' ', ' ', ' ', '1'] ['d']
      (.sendData ⟨['/', 'a'], 0, [7]⟩)]] ∧
    (∀ object ∈ s.loop.objects, object.Single Op.Intact) ∧
    ∀ object ∈ t.loop.objects, object.Single Op.Intact := by
  have hs : (run (Chunkserver.step ['/', 'd']) (Chunkserver.init (.chain [['d']]))
      [⟨0, 0, ⟨.success, [], true⟩⟩,
        ⟨0, 0, ⟨.success, [' ', ' ', ' ', ' ', ' ', ' ', ' ', '1'], true⟩⟩,
        ⟨0, 0, ⟨.success, ['d'], true⟩⟩]).map (·.loop.objects.map (·.pending)) =
      some [[.readHeader .displayData], [.opening .handleAccept]] := by decide +kernel
  have ht : (run UserHarmony.step UserHarmony.init
      [.depositChunk ⟨['/', 'a'], 0, [7]⟩ 1, .complete ⟨0, 0, ⟨.socket, [], true⟩⟩,
        .complete ⟨0, 0, ⟨.success, [], true⟩⟩]).map (·.loop.objects.map (·.pending)) =
      some [[.write [' ', ' ', ' ', ' ', ' ', ' ', ' ', '1'] ['d']
        (.sendData ⟨['/', 'a'], 0, [7]⟩)]] := by decide +kernel
  obtain ⟨s, hrun, hs⟩ := Option.map_eq_some_iff.mp hs
  obtain ⟨t, hrun', ht⟩ := Option.map_eq_some_iff.mp ht
  obtain ⟨hserver, hclient⟩ := one_operation ['/', 'd'] (.chain [['d']])
  exact ⟨s, t, .of_run _ hrun, .of_run _ hrun', hs, ht, (hserver s (.of_run _ hrun)).1,
    (hclient t (.of_run _ hrun')).1⟩

end

end ColonyFS

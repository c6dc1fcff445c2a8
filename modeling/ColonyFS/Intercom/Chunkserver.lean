import ColonyFS.Intercom.Operations
import ColonyFS.Xmlrpc.Values

/-!
# The chunk server (`intercom/server.cpp`, `intercom/chunkserver_harmony.cpp`)

The handlers of the chunk server over any number of connections. `io_service::run` has no handler
for exceptions, so what leaves a handler takes the server down, and so does `exit`. What a peer
sends is arbitrary: any bytes in any number of messages on any connection, and any of the
connections may be closed at any time.
-/

namespace ColonyFS

open Machine EventLoop Pathname

/-- `command_t`; an archive may hold a number that is none of its enumerators. -/
inductive Command where
  | depositChunk
  | retrieveChunk
  | heartbeat
  | lockChunk
  | readRequest
  | other (n : Int)
  deriving DecidableEq, Repr

/-- A `chunk_data` in an archive; `data_ptr_` may be null. -/
structure ChunkArchive where
  uid : Str
  cuid : Int
  data : Option (List Byte)
  deriving DecidableEq, Repr

def ChunkData.archive (chunk : ChunkData) : ChunkArchive := ⟨chunk.uid, chunk.cuid, some chunk.data⟩

namespace Chunkserver

/-- Handlers of `async_accept`. -/
inductive AcceptHandler where
  | handleAccept
  deriving DecidableEq, Repr

/-- Handlers of `async_read`. -/
inductive ReadHandler where
  | processCmd
  | displayData
  | sendData
  deriving DecidableEq, Repr

/-- Handlers of `async_write`. -/
inductive WriteHandler where
  /-- `end`. -/
  | finish
  deriving DecidableEq, Repr

abbrev ServerOp := Op AcceptHandler ReadHandler WriteHandler

abbrev ServerM := IntercomM Storage AcceptHandler ReadHandler WriteHandler

/-- `server::handle_accept`. -/
def handleAccept (i : Nat) (r : Ending) : ServerM Unit :=
  if r.error ≠ .success then pure ()
  else do
    -- The log asks for the remote end-point, and the log is on.
    Exec.require (r.remote = true) .systemError
    asyncRead i .processCmd
    create ⟨.new, [.opening .handleAccept]⟩

def depositChunk (i : Nat) : ServerM Unit := asyncRead i .displayData

def retrieveChunk (i : Nat) : ServerM Unit := asyncRead i .sendData

def processCmd (i : Nat) (command : Except ErrorCode Command) : ServerM Unit :=
  match command with
  | .error _ => pure ()
  | .ok .depositChunk => depositChunk i
  | .ok .retrieveChunk => retrieveChunk i
  | .ok .heartbeat => throw (.exit 1)
  -- `std::runtime_error("invalid command")` is made, and not thrown.
  | .ok .lockChunk | .ok .readRequest | .ok (.other _) => pure ()

variable (dirPrefix : Str)

def displayData (chunk : Except ErrorCode ChunkArchive) : ServerM Unit :=
  match chunk with
  | .error _ => pure ()
  | .ok chunk => fun loop =>
    match Storage.depositChunk dirPrefix chunk.uid chunk.cuid chunk.data loop.state with
    | .ok _ state => .ok () { loop with state }
    | .error e state => .error (.storage e) { loop with state }

variable [BinaryArchive Command] [BinaryArchive ChunkArchive] [BinaryArchive ChunkKey]

def sendData (i : Nat) (metadata : Except ErrorCode ChunkKey) : ServerM Unit :=
  match metadata with
  | .error _ => pure ()
  | .ok key => fun loop =>
    match Storage.retrieveChunk key.uid key.cuid loop.state with
    | .ok chunk state =>
      asyncWrite i (BinaryArchive.save chunk.archive) .finish { loop with state }
    | .error .inexistentFile state => .ok () { loop with state }
    | .error e state => .error (.storage e) { loop with state }

def handlers : Handlers Storage AcceptHandler ReadHandler WriteHandler where
  opened
    | .handleAccept, i, r => handleAccept i r
  read
    | .processCmd, i, conn, e => processCmd i (conn.handleReadData BinaryArchive.load e)
    | .displayData, _, conn, e => displayData dirPrefix (conn.handleReadData BinaryArchive.load e)
    | .sendData, i, conn, e => sendData i (conn.handleReadData BinaryArchive.load e)
  written
    | .finish, _, _ => pure ()

end Chunkserver

abbrev Chunkserver := EventLoop.Process Fault Storage Connection Chunkserver.ServerOp

namespace Chunkserver

/-- The server when it has been constructed. -/
def init (disk : DirTree (List Byte)) : Chunkserver :=
  ⟨⟨[⟨.new, [.opening .handleAccept]⟩], ⟨disk, .empty, []⟩⟩, none⟩

variable (dirPrefix : Str)
  [BinaryArchive Command] [BinaryArchive ChunkArchive] [BinaryArchive ChunkKey]

/-- `io_service::run`. -/
def step (s : Chunkserver) (c : Completion Ending) : Option Chunkserver :=
  (handlers dirPrefix).program.step s c

variable {dirPrefix} {s s' : Chunkserver} {c : Completion Ending}

omit [BinaryArchive Command] [BinaryArchive ChunkArchive] [BinaryArchive ChunkKey] in
theorem chains_handleAccept {i : Nat} {r : Ending} (loop : Loop Storage Connection ServerOp) :
    Chains Op.Intact i loop.objects (Exec.final (handleAccept i r loop)).objects := by
  rw [handleAccept]
  split
  · exact .refl ..
  · by_cases hr : r.remote = true
    · rw [Exec.bind_of_ok (Exec.require_ok hr)]
      have hnew : Object.Single Op.Intact
          (⟨.new, [.opening .handleAccept]⟩ : Object Connection ServerOp) :=
        single_of_append ⟨.new, []⟩ rfl trivial
      exact (chains_asyncRead .processCmd).concat hnew
    · rw [Exec.bind_of_error (Exec.require_error hr)]
      exact .refl ..

omit [BinaryArchive Command] [BinaryArchive ChunkArchive] [BinaryArchive ChunkKey] in
theorem chains_processCmd {i : Nat} (command : Except ErrorCode Command)
    (loop : Loop Storage Connection ServerOp) :
    Chains Op.Intact i loop.objects (Exec.final (processCmd i command loop)).objects := by
  match command with
  | .ok .depositChunk | .ok .retrieveChunk => exact chains_asyncRead _
  | .ok .heartbeat | .ok .lockChunk | .ok .readRequest | .ok (.other _) | .error _ => exact .refl ..

omit [BinaryArchive Command] [BinaryArchive ChunkArchive] [BinaryArchive ChunkKey] in
theorem chains_displayData {i : Nat} (chunk : Except ErrorCode ChunkArchive)
    (loop : Loop Storage Connection ServerOp) :
    Chains Op.Intact i loop.objects (Exec.final (displayData dirPrefix chunk loop)).objects := by
  cases chunk with
  | error _ => exact .refl ..
  | ok chunk =>
    simp only [displayData]
    split <;> exact .refl ..

omit [BinaryArchive Command] [BinaryArchive ChunkKey] in
theorem chains_sendData {i : Nat} (metadata : Except ErrorCode ChunkKey)
    (loop : Loop Storage Connection ServerOp) :
    Chains Op.Intact i loop.objects (Exec.final (sendData i metadata loop)).objects := by
  cases metadata with
  | error _ => exact .refl ..
  | ok key =>
    simp only [sendData]
    split
    · exact chains_asyncWrite
    · exact .refl ..
    · exact .refl ..

theorem oneByOne (dirPrefix : Str) : (handlers dirPrefix).program.OneByOne Op.Intact := by
  refine oneByOne_program (fun _ _ _ => chains_handleAccept) (fun handler i conn e loop => ?_)
    (fun _ _ _ _ => .refl ..)
  cases handler with
  | processCmd => exact chains_processCmd ..
  | displayData => exact chains_displayData ..
  | sendData => exact chains_sendData ..

/-- In every run a connection has one operation under way at most. -/
theorem single_of_reach {disk : DirTree (List Byte)} {ok : Chunkserver → Completion Ending → Prop}
    (h : Reach (step dirPrefix) ok (init disk) s) :
    ∀ object ∈ s.loop.objects, object.Single Op.Intact := by
  refine h.invariant (P := fun s : Chunkserver => ∀ object ∈ s.loop.objects, object.Single Op.Intact)
    (List.forall_mem_singleton.mpr ?_) fun s c s' ih _ hstep => single_step (oneByOne dirPrefix) ih hstep
  exact single_of_append ⟨.new, []⟩ rfl trivial

end Chunkserver

/-! ## Archives for concrete runs -/

namespace PlainArchive

/-- A letter for the command. -/
scoped instance : BinaryArchive Command where
  save
    | .depositChunk => ['d']
    | .retrieveChunk => ['r']
    | .heartbeat => ['h']
    | .lockChunk => ['l']
    | .readRequest => ['q']
    | .other n => 'o' :: List.replicate (Encodable.encode n) 'x'
  load
    | ['d'] => some .depositChunk
    | ['r'] => some .retrieveChunk
    | ['h'] => some .heartbeat
    | ['l'] => some .lockChunk
    | ['q'] => some .readRequest
    | 'o' :: s => (Encodable.decode s.length).map .other
    | _ => none
  load_save command := by
    cases command with
    | other n => simp only [List.length_replicate, Encodable.encodek, Option.map_some]
    | depositChunk | retrieveChunk | heartbeat | lockChunk | readRequest => rfl
  load_nil := rfl

instance encodableUInt8 : Encodable UInt8 :=
  .ofLeftInverse UInt8.toNat UInt8.ofNat fun x => by simp

deriving instance Encodable for ChunkKey

deriving instance Encodable for ChunkArchive

scoped instance : BinaryArchive ChunkKey := unary ChunkKey

scoped instance : BinaryArchive ChunkArchive := unary ChunkArchive

end PlainArchive

end ColonyFS

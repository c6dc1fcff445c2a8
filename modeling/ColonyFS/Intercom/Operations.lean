import ColonyFS.Lib.EventLoop
import ColonyFS.Intercom.Connection
import ColonyFS.Storage.Store

/-!
# Operations of connections (`intercom/connection.hpp`)

The connections of a process with the asynchronous operations under way on them, and what the
members of `connection` do when one of these ends. `α`, `ρ` and `ω` are the handlers that the
process gives to `async_accept` and `async_connect`, to `async_read` and to `async_write`, bound to
their arguments.
-/

namespace ColonyFS

open EventLoop

/-- An asynchronous operation, with its handler. -/
inductive Op (α ρ ω : Type) where
  /-- `async_accept` or `async_connect`. -/
  | opening (handler : α)
  /-- A read of `inbound_header_`, with `handle_read_header` before the handler. -/
  | readHeader (handler : ρ)
  /-- A read of `inbound_data_`, with `handle_read_data` before the handler. -/
  | readData (size : Nat) (handler : ρ)
  /-- A write of `outbound_header_` and `outbound_data_`, which were these at its start. -/
  | write (header data : Str) (handler : ω)
  /-- A handler that was posted to the `io_service`. -/
  | post (e : ErrorCode) (handler : ω)
  deriving DecidableEq, Repr

/-- How an operation ends. -/
structure Ending where
  error : ErrorCode
  /-- What a read has got. -/
  bytes : Str
  /-- `remote_endpoint` finds the other end. -/
  remote : Bool
  deriving DecidableEq, Repr

/-- What stops a process. -/
inductive Fault where
  | exit (status : Int)
  /-- An exception that leaves a handler: `std::length_error`. -/
  | lengthError
  /-- `boost::system::system_error`. -/
  | systemError
  /-- What `storage` throws, or a null pointer that it dereferences. -/
  | storage (e : StorageError)
  deriving DecidableEq, Repr

variable {σ α ρ ω : Type}

abbrev IntercomM (σ α ρ ω : Type) := EStateM Fault (Loop σ Connection (Op α ρ ω))

namespace Op

/-- What an operation can end with: a read without an error has filled its buffer. -/
def admits : Op α ρ ω → Ending → Bool
  | .readHeader _, r => if r.error = .success then r.bytes.length = Connection.headerLength
      else r.bytes.length ≤ Connection.headerLength
  | .readData size _, r => if r.error = .success then r.bytes.length = size
      else r.bytes.length ≤ size
  | .opening _, r | .write .., r | .post .., r => r.bytes = []

/-- A read fills its buffer; `inbound_header_` is an array. -/
def settle (conn : Connection) : Op α ρ ω → Ending → Connection
  | .readHeader _, r =>
    let inboundHeader := r.bytes ++ conn.inboundHeader.drop r.bytes.length
    { conn with inboundHeader := inboundHeader.take Connection.headerLength }
  | .readData .., r => { conn with inboundData := r.bytes ++ conn.inboundData.drop r.bytes.length }
  | .opening _, _ | .write .., _ | .post .., _ => conn

/-- The buffers of the connection are what they were at the start of the operation. -/
def Intact (conn : Connection) : Op α ρ ω → Prop
  | .readData size _ => conn.inboundData.length = size
  | .write header data _ => conn.outboundHeader = header ∧ conn.outboundData = data
  | .opening _ | .readHeader _ | .post .. => True

def isOpening : Op α ρ ω → Bool
  | .opening _ => true
  | .readHeader _ | .readData .. | .write .. | .post .. => false

end Op

/-- `socket().async_connect`. -/
def asyncConnect (i : Nat) (handler : α) : IntercomM σ α ρ ω Unit :=
  change i fun object => { object with pending := object.pending ++ [.opening handler] }

/-- `async_read`. -/
def asyncRead (i : Nat) (handler : ρ) : IntercomM σ α ρ ω Unit :=
  change i fun object => { object with pending := object.pending ++ [.readHeader handler] }

/-- `async_write`. -/
def asyncWrite (i : Nat) (archive : Str) (handler : ω) : IntercomM σ α ρ ω Unit :=
  change i fun object => match object.data.asyncWrite archive with
    | (.post e, conn) => ⟨conn, object.pending ++ [.post e handler]⟩
    | (.write header data, conn) => ⟨conn, object.pending ++ [.write header data handler]⟩

/-- The handlers of a process. -/
structure Handlers (σ α ρ ω : Type) where
  opened : α → Nat → Ending → IntercomM σ α ρ ω Unit
  /-- Behind a read; the data are in `inbound_data_` if there is no error. -/
  read : ρ → Nat → Connection → ErrorCode → IntercomM σ α ρ ω Unit
  written : ω → Nat → ErrorCode → IntercomM σ α ρ ω Unit

/-- What an operation ends with. -/
def Handlers.run (handlers : Handlers σ α ρ ω) (i : Nat) (conn : Connection) (op : Op α ρ ω)
    (r : Ending) : IntercomM σ α ρ ω Unit :=
  match op with
  | .opening handler => handlers.opened handler i r
  | .write _ _ handler => handlers.written handler i r.error
  | .post e handler => handlers.written handler i e
  | .readHeader handler => match conn.handleReadHeader r.error with
    | (.handler e, _) => handlers.read handler i conn e
    | (.lengthError, _) => throw .lengthError
    | (.read size, conn) =>
      change i fun object => ⟨conn, object.pending ++ [.readData size handler]⟩
  | .readData _ handler => handlers.read handler i conn r.error

/-- A process that owns connections. -/
def Handlers.program (handlers : Handlers σ α ρ ω) :
    Program Fault σ Connection (Op α ρ ω) Ending := ⟨Op.admits, Op.settle, handlers.run⟩

variable {handlers : Handlers σ α ρ ω} {loop : Loop σ Connection (Op α ρ ω)} {i : Nat}
  {archive : Str}

/-- One operation on a connection on which there was none. -/
theorem single_of_append (object : Object Connection (Op α ρ ω)) {conn : Connection}
    {op : Op α ρ ω} (h : object.pending = []) (hop : op.Intact conn) :
    Object.Single Op.Intact ⟨conn, object.pending ++ [op]⟩ := by
  rw [h]
  exact ⟨Nat.le_refl 1, List.forall_mem_singleton.mpr hop⟩

theorem chains_asyncConnect {handler : α} :
    Chains Op.Intact i loop.objects (Exec.final (asyncConnect i handler loop)).objects :=
  .of_change fun _ h => single_of_append _ h trivial

theorem chains_asyncRead (handler : ρ) :
    Chains Op.Intact i loop.objects (Exec.final (asyncRead i handler loop)).objects :=
  .of_change fun _ h => single_of_append _ h trivial

theorem chains_asyncWrite {handler : ω} :
    Chains Op.Intact i loop.objects (Exec.final (asyncWrite i archive handler loop)).objects := by
  refine .of_change fun object h => ?_
  by_cases hlt : archive.length < 2 ^ 32
  · rw [Connection.asyncWrite_of_lt hlt]
    exact single_of_append _ h ⟨rfl, rfl⟩
  · rw [Connection.asyncWrite_of_le (Nat.not_lt.mp hlt)]
    exact single_of_append _ h trivial

theorem length_handleReadHeader {conn conn' : Connection} {e : ErrorCode} {size : Nat}
    (h : conn.handleReadHeader e = (.read size, conn')) : conn'.inboundData.length = size := by
  rw [Connection.handleReadHeader] at h
  split at h
  · cases h
  · split at h
    · cases h
    · split at h <;> cases h
      exact Vec.length_resize ..

/-- A process whose handlers chain operations. -/
theorem oneByOne_program
    (hopened : ∀ handler i r (loop : Loop σ Connection (Op α ρ ω)),
      Chains Op.Intact i loop.objects (Exec.final (handlers.opened handler i r loop)).objects)
    (hread : ∀ handler i conn e (loop : Loop σ Connection (Op α ρ ω)),
      Chains Op.Intact i loop.objects (Exec.final (handlers.read handler i conn e loop)).objects)
    (hwritten : ∀ handler i e (loop : Loop σ Connection (Op α ρ ω)),
      Chains Op.Intact i loop.objects (Exec.final (handlers.written handler i e loop)).objects) :
    handlers.program.OneByOne Op.Intact := by
  intro i conn op r loop
  simp only [Handlers.program]
  cases op with
  | opening handler => exact hopened ..
  | readData size handler => exact hread ..
  | write header data handler => exact hwritten ..
  | post e handler => exact hwritten ..
  | readHeader handler =>
    obtain ⟨⟨read, conn'⟩, hr⟩ : ∃ x, conn.handleReadHeader r.error = x := ⟨_, rfl⟩
    simp only [Handlers.run, hr]
    cases read with
    | handler e => exact hread ..
    | lengthError => exact .refl ..
    | read size =>
      exact .of_change fun _ h => single_of_append _ h (length_handleReadHeader hr)

end ColonyFS

import ColonyFS.Lib.Rpc
import ColonyFS.Intercom.UserHarmony

/-!
# Clients and a chunk server on a network

Any number of clients and a chunk server, each with its own event loop, and two streams of bytes for
every connection. What a write starts to send is on its way at once, and arrives in pieces of any
length at any time. A connection may be cut: some of the bytes on their way are lost, with all that
is written later, and what is under way on it may end with an error.

A client that deposits a chunk sends a command and the chunk, and one that retrieves a chunk sends a
command and the metadata, and reads the chunk. `Session` is what the two ends and the two streams of
one connection are to each other. Of a client, only the connections to this server are here.
-/

namespace ColonyFS

open Machine EventLoop Function

/-- The streams between the ends of a connection. -/
structure Wire where
  /-- What the server has still to read. -/
  up : Str
  /-- What the client has still to read. -/
  down : Str
  cut : Bool
  deriving DecidableEq, Repr

/-- A connection is named by its client and the number that it has there. -/
structure Network (κ : Type) where
  server : Chunkserver
  clients : κ → UserHarmony
  wires : κ × Nat → Wire
  /-- The connections that wait to be accepted, oldest first. -/
  backlog : List (κ × Nat)
  /-- What the connections of the server are at the other end. -/
  peers : List (κ × Nat)

/-- What a client asks of a chunk server. -/
inductive Request where
  | deposit (chunk : ChunkData)
  | retrieve (key : ChunkKey)
  deriving DecidableEq, Repr

/-- What is seen of a connection from outside. -/
inductive Seen (κ : Type) where
  | called (p : κ × Nat) (request : Request)
  | returned (p : κ × Nat) (chunk : ChunkArchive)
  deriving DecidableEq, Repr

/-- What is left ahead of an end of a connection when an operation has ended there. -/
def Op.take {α ρ ω : Type} (op : Op α ρ ω) (cut : Bool) (ahead : Str) (r : Ending) : Option Str :=
  match op with
  | .opening _ | .post .. => some ahead
  | .write .. => if r.error = .success ∨ cut then some ahead else none
  | .readHeader _ | .readData .. =>
    if (r.error = .success ∨ cut) ∧ r.bytes.isPrefixOf ahead then some (ahead.drop r.bytes.length)
    else none

/-- What the code that waited for an operation writes on the connection. -/
def written {α ρ ω : Type} (objects : List (Object Connection (Op α ρ ω))) (i : Nat) : Str :=
  match objects[i]? with
  | some ⟨_, [.write header data _]⟩ => header ++ data
  | _ => []

def Wire.putUp (wire : Wire) (bytes : Str) : Wire :=
  if wire.cut then wire else { wire with up := wire.up ++ bytes }

/-- The streams of a connection that is cut. -/
def Wire.lose (wire : Wire) (up down : Nat) : Wire := ⟨wire.up.take up, wire.down.take down, true⟩

def Wire.putDown (wire : Wire) (bytes : Str) : Wire :=
  if wire.cut then wire else { wire with down := wire.down ++ bytes }

namespace UserHarmony

/-- The chunk that `end_retrieve` was given in a step. -/
def received (s s' : UserHarmony) : Option ChunkArchive :=
  match s'.loop.state.take (s'.loop.state.length - s.loop.state.length) with
  | [.ok chunk] => some chunk
  | _ => none

end UserHarmony

namespace Network

variable {κ : Type} [DecidableEq κ] [BinaryArchive Command] [BinaryArchive ChunkArchive]
  [BinaryArchive ChunkKey]

inductive Event (κ : Type) where
  | client (k : κ) (act : UserHarmony.Act)
  | server (c : Completion Ending)
  /-- All but the first bytes on either stream are lost. -/
  | cut (p : κ × Nat) (up down : Nat)
  deriving DecidableEq, Repr

def init (disk : DirTree (List Byte)) : Network κ :=
  ⟨Chunkserver.init disk, fun _ => UserHarmony.init, fun _ => ⟨[], [], false⟩, [], []⟩

/-- An operation of a client ends. -/
def clientComplete (s : Network κ) (k : κ) (c : Completion Ending) :
    Option (Option (Seen κ) × Network κ) :=
  let wire := s.wires (k, c.object)
  ((s.clients k).ending UserHarmony.handlers.program c).bind fun (_, op) =>
    (op.take wire.cut wire.down c.result).bind fun down =>
      (UserHarmony.step (s.clients k) (.complete c)).map fun client =>
        let wire := { wire with down := down }.putUp (written client.loop.objects c.object)
        ((UserHarmony.received (s.clients k) client).map (.returned (k, c.object)),
          { s with
            clients := update s.clients k client
            wires := update s.wires (k, c.object) wire
            backlog := if op.isOpening && c.result.error = .success then
                s.backlog ++ [(k, c.object)]
              else s.backlog })

/-- A call of a client. -/
def clientCall (s : Network κ) (k : κ) (act : UserHarmony.Act) (request : Request) :
    Option (Option (Seen κ) × Network κ) :=
  (UserHarmony.step (s.clients k) act).map fun client =>
    (some (.called (k, (s.clients k).loop.objects.length) request),
      { s with clients := update s.clients k client })

variable (dirPrefix : Str)

/-- An accept of the server ends. -/
def accept (s : Network κ) (c : Completion Ending) : Option (Network κ) :=
  if c.result.error = .success then match s.backlog with
    | p :: backlog =>
      if c.result.remote ∨ (s.wires p).cut then
        (Chunkserver.step dirPrefix s.server c).map fun server =>
          { s with server, backlog, peers := s.peers ++ [p] }
      else none
    | [] => none
  else (Chunkserver.step dirPrefix s.server c).map fun server => { s with server }

/-- An operation of the server ends. -/
def serverComplete (s : Network κ) (c : Completion Ending) : Option (Network κ) :=
  (s.server.ending (Chunkserver.handlers dirPrefix).program c).bind fun (_, op) =>
    if op.isOpening then s.accept dirPrefix c
    else s.peers[c.object]?.bind fun p =>
      (op.take (s.wires p).cut (s.wires p).up c.result).bind fun up =>
        (Chunkserver.step dirPrefix s.server c).map fun server =>
          let wire := { s.wires p with up := up }.putDown (written server.loop.objects c.object)
          { s with server, wires := update s.wires p wire }

/-- An event, and what is seen of it. -/
def call (s : Network κ) : Event κ → Option (Option (Seen κ) × Network κ)
  | .client k act => match act with
    | .complete c => s.clientComplete k c
    | .retrieveChunk data endpointIterator =>
      s.clientCall k (.retrieveChunk data endpointIterator) (.retrieve data.getKey)
    | .depositChunk data endpointIterator =>
      s.clientCall k (.depositChunk data endpointIterator) (.deposit data)
  | .server c => (s.serverComplete dirPrefix c).map fun s' => (none, s')
  | .cut p up down => some (none, { s with wires := update s.wires p ((s.wires p).lose up down) })

end Network

/-! ## Where a connection is with its request -/

section

variable [BinaryArchive Command] [BinaryArchive ChunkArchive] [BinaryArchive ChunkKey]

/-- An archive as `async_write` sends it. -/
def message (archive : Str) : Str :=
  if archive.length < 2 ^ 32 then Connection.header archive.length ++ archive else []

/-- The operation that `async_write` starts. -/
def writeOp {α ρ ω : Type} (archive : Str) (handler : ω) : Op α ρ ω :=
  if archive.length < 2 ^ 32 then .write (Connection.header archive.length) archive handler
  else .post .invalidArgument handler

namespace Request

def command : Request → Command
  | .deposit _ => .depositChunk
  | .retrieve _ => .retrieveChunk

def payload : Request → Str
  | .deposit chunk => BinaryArchive.save chunk.archive
  | .retrieve key => BinaryArchive.save key

/-- The handler of the client that follows the command. -/
def sender : Request → UserHarmony.WriteHandler
  | .deposit chunk => .sendData chunk
  | .retrieve key => .sendMetadata key

/-- The handler of the client that follows the payload. -/
def sent : Request → UserHarmony.WriteHandler
  | .deposit _ => .endDeposit
  | .retrieve _ => .receiveData

/-- The handler of the server that gets the payload. -/
def reader : Request → Chunkserver.ReadHandler
  | .deposit _ => .displayData
  | .retrieve _ => .sendData

/-- All that a client sends. -/
def script (request : Request) : Str :=
  message (BinaryArchive.save request.command) ++ message request.payload

end Request

/-- What the server answers with. -/
def answer : Option ChunkData → Str
  | some chunk => message (BinaryArchive.save chunk.archive)
  | none => []

/-- Where a client is with a request. -/
inductive Stage where
  | connecting (endpointIterator : Nat)
  /-- No end-point has accepted the connection. -/
  | refused
  | command
  | payload
  /-- The whole deposit has been sent. -/
  | deposited
  | header
  | data (size : Nat)
  | done

/-- The connection waits to be accepted, or has been. -/
def Stage.listed : Stage → Bool
  | .connecting _ | .refused => false
  | .command | .payload | .deposited | .header | .data _ | .done => true

/-- What it has under way. -/
def Stage.ops (request : Request) : Stage → List UserHarmony.ClientOp
  | .connecting m => [.opening (.handleConnect m request.command request.sender)]
  | .command => [writeOp (BinaryArchive.save request.command) request.sender]
  | .payload => [writeOp request.payload request.sent]
  | .header => [.readHeader .endRetrieve]
  | .data size => [.readData size .endRetrieve]
  | .refused | .deposited | .done => []

/-- What it has written, as far as it matters. -/
def Stage.sent (request : Request) : Stage → Option Str
  | .connecting _ => some []
  | .command => some (message (BinaryArchive.save request.command))
  | .payload | .deposited | .header | .data _ => some request.script
  | .refused | .done => none

/-- What the server waits for, and what it has read before. -/
inductive Reading (request : Request) : List Chunkserver.ServerOp → Str → Prop where
  | command : Reading request [.readHeader .processCmd] []
  | commandData : Reading request
      [.readData (BinaryArchive.save request.command).length .processCmd]
      (Connection.header (BinaryArchive.save request.command).length)
  | payload : Reading request [.readHeader request.reader]
      (message (BinaryArchive.save request.command))
  | payloadData : request.payload.length < 2 ^ 32 → Reading request
      [.readData request.payload.length request.reader]
      (message (BinaryArchive.save request.command) ++ Connection.header request.payload.length)

/-- The server reads no more. -/
def Finished (ops : List Chunkserver.ServerOp) : Prop :=
  ops = [] ∨ ∃ archive, ops = [writeOp archive .finish]

/-- What the server reads is what the client has written, or the beginning of it. -/
structure Pipe (request : Request) (stage : Stage) (wire : Wire) (before : Str) : Prop where
  begins : before ++ wire.up <+: request.script
  whole : wire.cut = false → ∀ sent, stage.sent request = some sent → before ++ wire.up = sent

/-- Where a request is that may have been executed. -/
abbrev Exchange := Rpc.Caller Request (Option ChunkData)

/-- What the client has still to read is `rest`, or the beginning of it. -/
def Wire.Ahead (wire : Wire) (rest : Str) : Prop :=
  wire.down <+: rest ∧ (wire.cut = false → wire.down = rest)

/-- What the client reads is the answer. -/
def Stage.Receives (request : Request) (caller : Exchange) (wire : Wire) : Stage → Prop
  | .connecting _ => caller = .calling request ∧ wire.down = []
  | .refused => caller = .calling request
  | .deposited => (∃ chunk, request = .deposit chunk) ∧
      (caller = .calling request ∨ ∃ r, caller = .answered request r)
  | .done => wire.cut = false → caller = .idle
  | .data size => ∃ chunk : ChunkData, caller = .answered request (some chunk) ∧
      (BinaryArchive.save chunk.archive).length = size ∧
      wire.Ahead (BinaryArchive.save chunk.archive)
  | .command | .payload | .header => caller = .calling request ∧ wire.down = [] ∨
      ∃ r, caller = .answered request r ∧ wire.Ahead (answer r)

/-- The server has the request of a connection still to execute, or it reads no more from it; `none`
for a connection that has not been accepted. -/
def Serves (request : Request) (stage : Stage) (caller : Exchange) (wire : Wire) :
    Option (List Chunkserver.ServerOp) → Prop
  | none => caller = .calling request ∧ Pipe request stage wire []
  | some ops => Finished ops ∧ (wire.cut = false → caller ≠ .calling request) ∨
      ∃ before, caller = .calling request ∧ Reading request ops before ∧
        Pipe request stage wire before

end

/-! ## Archives for concrete runs -/

namespace ShortArchive

/-- A list with a mark in front of every element, and one behind the last. -/
def saveList (l : Str) : Str := l.flatMap (['1', ·]) ++ ['0']

def loadList : Str → Option (Str × Str)
  | '1' :: c :: s => (loadList s).map fun q => (c :: q.1, q.2)
  | '0' :: s => some ([], s)
  | _ => none

theorem loadList_saveList (l s : Str) : loadList (saveList l ++ s) = some (l, s) := by
  induction l with
  | nil => rfl
  | cons c l ih =>
    have h : loadList (saveList (c :: l) ++ s) =
        (loadList (saveList l ++ s)).map fun q => (c :: q.1, q.2) := rfl
    rw [h, ih]
    rfl

def saveInt (i : Int) : Str :=
  (if i < 0 then '-' else '+') :: saveList (List.replicate i.natAbs 'i')

def loadInt : Str → Option (Int × Str)
  | '-' :: s => (loadList s).map fun q => (-(q.1.length : Int), q.2)
  | '+' :: s => (loadList s).map fun q => ((q.1.length : Int), q.2)
  | _ => none

theorem loadInt_saveInt (i : Int) (s : Str) : loadInt (saveInt i ++ s) = some (i, s) := by
  by_cases hi : i < 0
  · simp only [saveInt, if_pos hi, List.cons_append, loadInt, loadList_saveList, Option.map_some,
      List.length_replicate]
    rw [show -(i.natAbs : Int) = i by omega]
  · simp only [saveInt, if_neg hi, List.cons_append, loadInt, loadList_saveList, Option.map_some,
      List.length_replicate]
    rw [show (i.natAbs : Int) = i by omega]

scoped instance : BinaryArchive Command := open scoped PlainArchive in inferInstance

scoped instance : BinaryArchive ChunkKey where
  save key := saveList key.uid ++ saveInt key.cuid
  load s := (loadList s).bind fun q => (loadInt q.2).map fun q' => ⟨q.1, q'.1⟩
  load_save key := by
    have h := loadInt_saveInt key.cuid []
    rw [List.append_nil] at h
    simp only [loadList_saveList, Option.bind_some, h, Option.map_some]
  load_nil := rfl

/-- A byte as a character. -/
def saveByte (b : Byte) : Char := Char.ofNat b.toNat

def loadByte (c : Char) : Byte := UInt8.ofNat c.toNat

theorem loadByte_saveByte (b : Byte) : loadByte (saveByte b) = b := by
  have h : ∀ n : Fin 256, (Char.ofNat n).toNat = n := by decide +kernel
  have hb : (Char.ofNat b.toNat).toNat = b.toNat := h ⟨b.toNat, b.toNat_lt⟩
  rw [loadByte, saveByte, hb, UInt8.ofNat_toNat]

scoped instance : BinaryArchive ChunkArchive where
  save chunk := saveList chunk.uid ++ (saveInt chunk.cuid ++ match chunk.data with
    | some data => '*' :: data.map saveByte
    | none => ['0'])
  load s := (loadList s).bind fun q => (loadInt q.2).bind fun q' => match q'.2 with
    | '*' :: data => some ⟨q.1, q'.1, some (data.map loadByte)⟩
    | ['0'] => some ⟨q.1, q'.1, none⟩
    | _ => none
  load_save chunk := by
    obtain ⟨uid, cuid, data⟩ := chunk
    simp only [loadList_saveList, Option.bind_some, loadInt_saveInt]
    cases data with
    | none => rfl
    | some data =>
      have h : (data.map saveByte).map loadByte = data := by
        rw [List.map_map]
        exact (List.map_congr_left fun b _ => loadByte_saveByte b).trans (List.map_id data)
      simp only [h]
  load_nil := rfl

end ShortArchive

end ColonyFS

import ColonyFS.Storage.ChunkData
import ColonyFS.Lib.Hex

/-!
# Connections (`intercom/connection.hpp`)

What the members of `connection` do between two asynchronous operations. A message is the archive of
a value behind a header of 8 characters with its length in hexadecimal. A `char` is a `Char` here,
in the archives as well as in the headers.
-/

namespace ColonyFS

/-- A `boost::system::error_code`, as far as a handler looks at it. -/
inductive ErrorCode where
  | success
  | invalidArgument
  /-- An error of the socket. -/
  | socket
  deriving DecidableEq, Repr

structure Connection where
  outboundHeader : Str
  outboundData : Str
  inboundHeader : Str
  inboundData : Str
  deriving DecidableEq, Repr

/-- What `async_write` starts. -/
inductive WriteOp where
  /-- `socket_.io_service().post(boost::bind(handler, error))`. -/
  | post (e : ErrorCode)
  /-- A gather-write of the header and the data. -/
  | write (header data : Str)
  deriving DecidableEq, Repr

/-- What `handle_read_header` ends with. -/
inductive HeaderRead where
  /-- A call of the handler. -/
  | handler (e : ErrorCode)
  /-- `std::length_error` of `inbound_data_.resize`. -/
  | lengthError
  /-- A read of the data. -/
  | read (size : Nat)
  deriving DecidableEq, Repr

namespace Connection

def headerLength : Nat := 8

/-- `std::vector<char>::max_size()`. -/
def maxSize : Nat := 2 ^ 63 - 1

def new : Connection := ⟨[], [], List.replicate headerLength '\x00', []⟩

/-- `header_stream.str()`. -/
def header (size : Nat) : Str := Hex.padded headerLength size

/-- `is >> std::hex >> inbound_data_size`. -/
def inboundDataSize (header : Str) : Option Nat := Hex.read (2 ^ 64) header

/-- `async_write`; `archive` is the value in the archive. -/
def asyncWrite (archive : Str) (conn : Connection) : WriteOp × Connection :=
  let conn := { conn with outboundData := archive }
  let header := header conn.outboundData.length
  if header.length ≠ headerLength then (.post .invalidArgument, conn)
  else
    let conn := { conn with outboundHeader := header }
    (.write conn.outboundHeader conn.outboundData, conn)

/-- `handle_read_header`, with the header read into `inbound_header_`. -/
def handleReadHeader (e : ErrorCode) (conn : Connection) : HeaderRead × Connection :=
  if e ≠ .success then (.handler e, conn)
  else match inboundDataSize conn.inboundHeader with
    | none => (.handler .invalidArgument, conn)
    | some size =>
      if maxSize < size then (.lengthError, conn)
      else (.read size, { conn with inboundData := Vec.resize '\x00' conn.inboundData size })

/-- `handle_read_data`, with the data read into `inbound_data_`: the error for the handler, or the
value; `load` reads it from an archive. -/
def handleReadData {τ : Type} (load : Str → Option τ) (e : ErrorCode) (conn : Connection) :
    Except ErrorCode τ :=
  if e ≠ .success then .error e
  else match load conn.inboundData with
    | none => .error .invalidArgument
    | some t => .ok t

variable {conn : Connection} {archive : Str} {n : Nat}

theorem length_header : (header n).length = headerLength ↔ n < 2 ^ 32 :=
  Hex.length_padded (by decide)

theorem inboundDataSize_header (h : n < 2 ^ 32) : inboundDataSize (header n) = some n :=
  Hex.read_padded (by omega)

theorem asyncWrite_of_lt (h : archive.length < 2 ^ 32) : conn.asyncWrite archive =
    (.write (header archive.length) archive,
      { conn with outboundData := archive, outboundHeader := header archive.length }) := by
  rw [asyncWrite, if_neg (not_not.mpr (length_header.mpr h))]

theorem asyncWrite_of_le (h : 2 ^ 32 ≤ archive.length) : conn.asyncWrite archive =
    (.post .invalidArgument, { conn with outboundData := archive }) := by
  rw [asyncWrite, if_pos]
  exact fun hl => absurd (length_header.mp hl) (Nat.not_lt.mpr h)

theorem handleReadHeader_of_ne {e : ErrorCode} (he : e ≠ .success) :
    conn.handleReadHeader e = (.handler e, conn) := if_pos he

theorem handleReadHeader_success : conn.handleReadHeader .success =
    match inboundDataSize conn.inboundHeader with
    | none => (.handler .invalidArgument, conn)
    | some size => if maxSize < size then (.lengthError, conn)
      else (.read size, { conn with inboundData := Vec.resize '\x00' conn.inboundData size }) := rfl

theorem handleReadData_of_load {τ : Type} {load : Str → Option τ} {t : τ}
    (h : load conn.inboundData = some t) : conn.handleReadData load .success = .ok t := by
  rw [handleReadData, if_neg (not_not.mpr rfl), h]

theorem handleReadData_of_none {τ : Type} {load : Str → Option τ}
    (h : load conn.inboundData = none) :
    conn.handleReadData load .success = .error .invalidArgument := by
  rw [handleReadData, if_neg (not_not.mpr rfl), h]

/-! ## Headers of any peer -/

/-- The handler is told, or the reading goes on with a length that `async_write` can announce. -/
def InRange : HeaderRead → Prop
  | .handler e => e = .invalidArgument
  | .lengthError => False
  | .read size => size < 2 ^ 32

/-- A length that `async_write` cannot announce is a negative one, which no vector has room for. -/
theorem inRange_iff (h : conn.inboundHeader.length = headerLength) :
    InRange (conn.handleReadHeader .success).1 ↔ ¬Hex.Negative conn.inboundHeader := by
  have hpow : 16 ^ conn.inboundHeader.length = 2 ^ 32 := by rw [h]; rfl
  rw [handleReadHeader_success]
  by_cases hneg : Hex.Negative conn.inboundHeader
  · have hsize : 16 ^ conn.inboundHeader.length ≤ 2 ^ 64 := by rw [hpow]; decide
    obtain ⟨n, hpos, hlt, hread⟩ := Hex.read_of_negative hneg hsize
    rw [hpow] at hlt
    have hmax : maxSize < 2 ^ 64 - n := by
      simp only [maxSize]
      omega
    rw [inboundDataSize, hread]
    simp only [if_pos hmax]
    exact iff_of_false id (not_not.mpr hneg)
  · refine iff_of_true ?_ hneg
    cases hread : inboundDataSize conn.inboundHeader with
    | none => rfl
    | some size =>
      have hlt : size < 2 ^ 32 := hpow ▸ Hex.lt_of_read hneg hread
      have hmax : ¬maxSize < size := by
        simp only [maxSize]
        omega
      simp only [if_neg hmax]
      exact hlt

/-- The length 18, with a sign and `0x`. -/
theorem inRange_iff_example : InRange (handleReadHeader .success
    { new with inboundHeader := [' ', ' ', '+', '0', 'x', '0', '1', '2'] }).1 := by
  rw [inRange_iff rfl]
  decide

theorem not_inRange : (handleReadHeader .success
    { new with inboundHeader := [' ', ' ', ' ', ' ', ' ', ' ', '-', '1'] }).1 = .lengthError ∧
    ¬InRange (handleReadHeader .success
      { new with inboundHeader := [' ', ' ', ' ', ' ', ' ', ' ', '-', '1'] }).1 := by
  have h : (handleReadHeader .success
      { new with inboundHeader := [' ', ' ', ' ', ' ', ' ', ' ', '-', '1'] }).1 = .lengthError := by
    decide
  rw [h]
  exact ⟨rfl, id⟩

end Connection

end ColonyFS

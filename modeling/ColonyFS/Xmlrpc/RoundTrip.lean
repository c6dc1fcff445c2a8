import ColonyFS.Xmlrpc.Values

/-!
# DHT values, there and back (`xmlrpc/values.hpp`, `algo/ValueFactory.hpp`)

`base_value` writes the archive of its instruction and the archive of its mapped value, as a string
or as bytes, and `Reconstruct` reads both into a new value. What `serialize` leaves out is what a
new value has.
-/

namespace ColonyFS

/-- A mapped type: default construction, and what `serialize` writes and reads. -/
class Serializable (τ : Type) (ρ : outParam Type) where
  new : τ
  serialize : τ → ρ
  deserialize : τ → ρ → τ

/-- The archive of a string, a number or a vector has all of it. A `size_t` member is not
initialised; it is `0` here. -/
@[reducible] def Serializable.whole {τ : Type} (new : τ) : Serializable τ τ :=
  ⟨new, id, fun _ r => r⟩

instance : Serializable (List Str) (List Str) := .whole []

instance : Serializable UInt64 UInt64 := .whole 0

instance : Serializable Str Str := .whole []

instance : Serializable Fattribute Fattribute.Record :=
  ⟨.new, Fattribute.serialize, Fattribute.deserialize⟩

/-- An archive whose characters are bytes. -/
class ByteArchive (τ : Type) extends BinaryArchive τ where
  lt_of_mem : ∀ (x : τ), ∀ c ∈ save x, c.toNat < 256

abbrev FilenameValue := BaseValue UInt64

abbrev ChunkValue := BaseValue Str

namespace BaseValue

/-- `std::vector<unsigned char>(tmp.begin(), tmp.end())`. -/
def toBytes (tmp : Str) : List Byte := tmp.map fun c => UInt8.ofNat c.toNat

/-- `std::string(value.begin(), value.end())`. -/
def ofBytes (value : List Byte) : Str := value.map fun b => Char.ofNat b.toNat

variable {τ ρ : Type} [Serializable τ ρ] [BinaryArchive Instruction]

/-- Default construction. -/
def new : BaseValue τ := ⟨⟨.noop, []⟩, Serializable.new⟩

def getKey (v : BaseValue τ) : Str := BinaryArchive.save v.instruction

/-- `set_key`; `none` is `archive_exception`. -/
def setKey (v : BaseValue τ) (key : Str) : Option (BaseValue τ) :=
  (BinaryArchive.load key).map fun i => { v with instruction := i }

section

variable [BinaryArchive ρ]

def getValue (v : BaseValue τ) : Str := BinaryArchive.save (Serializable.serialize v.mapped)

def getValuev (v : BaseValue τ) : List Byte := toBytes v.getValue

/-- `set_value`. -/
def setValue (v : BaseValue τ) (value : Str) : Option (BaseValue τ) :=
  (BinaryArchive.load value).map fun r =>
    { v with mapped := Serializable.deserialize v.mapped r }

/-- `ValueFactory<T>::Reconstruct` from a string. -/
def reconstruct (key value : Str) : Option (BaseValue τ) := do
  let result ← new.setKey key
  result.setValue value

/-- `ValueFactory<T>::Reconstruct` from bytes. -/
def reconstructv (key : Str) (value : List Byte) : Option (BaseValue τ) :=
  reconstruct key (ofBytes value)

end

/-! ## The values of the other modules -/

theorem getKey_attribute [BinaryArchive Fattribute.Record] (v : AttributeValue) :
    AttributeValue.getKey v = BaseValue.getKey v := rfl

omit [BinaryArchive Instruction] in
theorem getValue_attribute [BinaryArchive Fattribute.Record] (v : AttributeValue) :
    AttributeValue.getValue v = BaseValue.getValue v := rfl

omit [BinaryArchive Instruction] in
theorem setValue_attribute [BinaryArchive Fattribute.Record] (v : AttributeValue) (value : Str) :
    AttributeValue.setValue v value = BaseValue.setValue v value := rfl

/-! ## Round trips -/

omit [BinaryArchive Instruction] in
theorem ofBytes_toBytes {tmp : Str} (h : ∀ c ∈ tmp, c.toNat < 256) :
    ofBytes (toBytes tmp) = tmp := by
  rw [ofBytes, toBytes, List.map_map, List.map_congr_left, List.map_id]
  intro c hc
  have hb : (UInt8.ofNat c.toNat).toNat = c.toNat := by
    rw [UInt8.toNat_ofNat', Nat.mod_eq_of_lt (h c hc)]
  simp only [Function.comp, hb, Char.ofNat_toNat, id]

theorem reconstruct_eq [BinaryArchive ρ] (v : BaseValue τ) :
    (reconstruct v.getKey v.getValue : Option (BaseValue τ)) = some ⟨v.instruction,
      Serializable.deserialize (Serializable.new : τ) (Serializable.serialize v.mapped)⟩ := by
  simp only [reconstruct, setKey, setValue, getKey, getValue, BinaryArchive.load_save,
    Option.map_some, new]
  rfl

variable [ByteArchive ρ]

/-- The value comes back from the string and from the bytes. -/
def RoundTrips (v : BaseValue τ) : Prop :=
  reconstruct v.getKey v.getValue = some v ∧ reconstructv v.getKey v.getValuev = some v

theorem reconstructv_eq (v : BaseValue τ) :
    (reconstructv v.getKey v.getValuev : Option (BaseValue τ)) = reconstruct v.getKey v.getValue := by
  rw [reconstructv, getValuev, getValue, ofBytes_toBytes (ByteArchive.lt_of_mem _)]

/-- The instruction always comes back, the mapped value if `serialize` has all of it that a new one
has not. -/
theorem roundTrips_iff_deserialize (v : BaseValue τ) : RoundTrips v ↔
    Serializable.deserialize (Serializable.new : τ) (Serializable.serialize v.mapped) =
      v.mapped := by
  rw [RoundTrips, reconstructv_eq, and_self, reconstruct_eq, Option.some.injEq]
  constructor
  · exact congrArg mapped
  · intro h
    rw [h]

end BaseValue

/-- What `serialize` does not write of an attribute. -/
theorem Fattribute.deserialize_serialize_iff (a : Fattribute) :
    Fattribute.new.deserialize a.serialize = a ↔ a.stbuf.blksize = 0 ∧ a.stbuf.atim = ⟨0, 0⟩ := by
  constructor
  · intro h
    rw [← h]
    exact ⟨rfl, rfl⟩
  · rintro ⟨hb, ha⟩
    obtain ⟨list, stbuf⟩ := a
    cases stbuf
    cases hb
    cases ha
    rfl

namespace PlainArchive

@[reducible] def unaryBytes (τ : Type) [Encodable τ] : ByteArchive τ where
  toBinaryArchive := unary τ
  lt_of_mem x c hc := by
    rw [List.eq_of_mem_replicate (n := Encodable.encode x + 1) hc]
    decide

scoped instance : ByteArchive Fattribute.Record := unaryBytes _

scoped instance : ByteArchive (List Str) := unaryBytes _

scoped instance : ByteArchive UInt64 := unaryBytes _

scoped instance : ByteArchive Str := unaryBytes _

end PlainArchive

/-! ## The four values -/

namespace BaseValue

section

variable [BinaryArchive Instruction] [ByteArchive (List Str)] [ByteArchive UInt64]
  [ByteArchive Str] [ByteArchive Fattribute.Record]

/-- Every value but an attribute comes back. An attribute does with the block size and the access
time of a new one. -/
theorem roundTrips_iff : (∀ v : BaseValue (List Str), RoundTrips v) ∧
    (∀ v : FilenameValue, RoundTrips v) ∧ (∀ v : ChunkValue, RoundTrips v) ∧
    ∀ v : AttributeValue, RoundTrips v ↔
      v.mapped.stbuf.blksize = 0 ∧ v.mapped.stbuf.atim = ⟨0, 0⟩ := by
  refine ⟨?_, ?_, ?_, ?_⟩
  · exact fun v => (roundTrips_iff_deserialize v).mpr rfl
  · exact fun v => (roundTrips_iff_deserialize v).mpr rfl
  · exact fun v => (roundTrips_iff_deserialize v).mpr rfl
  · exact fun v => (roundTrips_iff_deserialize v).trans (Fattribute.deserialize_serialize_iff _)

end

open scoped PlainArchive

/-- A list of chunk servers, a number, a location and the attribute of a new link. -/
theorem roundTrips_iff_example :
    RoundTrips (⟨⟨.chunkserver, []⟩, [['b', 'o', 'b']]⟩ : BaseValue (List Str)) ∧
    RoundTrips (⟨⟨.filename, ['/', 'f']⟩, 7⟩ : FilenameValue) ∧
    RoundTrips (⟨⟨.chunk, ['0', '/', 'f']⟩, ['b', 'o', 'b']⟩ : ChunkValue) ∧
    RoundTrips (⟨⟨.attribute, ['/', 'l']⟩, ⟨[], { Stat.zero with mode := S_IFLNK ||| 0o777 }⟩⟩ :
      AttributeValue) := by
  obtain ⟨hlist, hnum, hstr, hattr⟩ := roundTrips_iff
  exact ⟨hlist _, hnum _, hstr _, (hattr _).mpr ⟨rfl, rfl⟩⟩

/-- The attribute that `create` makes of a file has lost its block size. -/
theorem not_roundTrips :
    let v : BaseValue Fattribute := ⟨⟨.attribute, ['/', 'f']⟩,
      ⟨[], { Stat.zero with mode := S_IFREG ||| 0o644, nlink := 1, blksize := CHUNK_SIZE }⟩⟩
    ¬RoundTrips v ∧ (reconstruct v.getKey v.getValue : Option (BaseValue Fattribute)).map
      (·.mapped.stbuf.blksize) = some 0 := by
  intro v
  constructor
  · rw [roundTrips_iff_deserialize]
    intro h
    have hb : (0 : Int) = CHUNK_SIZE := congrArg (·.stbuf.blksize) h
    rw [CHUNK_SIZE_eq] at hb
    exact absurd hb (by decide)
  · rw [reconstruct_eq]
    rfl

end BaseValue

end ColonyFS

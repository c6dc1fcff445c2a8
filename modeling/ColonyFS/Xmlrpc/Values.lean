import ColonyFS.Cache.BasicCache

/-!
# Attributes and DHT values (`xmlrpc/attribute.hpp`, `xmlrpc/values.hpp`)

A DHT value is an instruction, whose archive is the key, and a mapped value, whose archive is the
value. The binary archives of Boost are a parameter: what was saved can be loaded, and the empty
string is not an archive.
-/

namespace ColonyFS

/-- `struct timespec`. -/
structure Timespec where
  sec : Int
  nsec : Int
  deriving DecidableEq, Repr

/-- The fields of `struct stat` that the program uses. -/
structure Stat where
  dev : Nat
  ino : Nat
  mode : UInt32
  nlink : Nat
  uid : UInt32
  gid : UInt32
  size : Int
  blksize : Int
  atim : Timespec
  mtim : Timespec
  deriving DecidableEq, Repr

/-- `memset(&stbuf, 0, sizeof(struct stat))`. -/
def Stat.zero : Stat := ⟨0, 0, 0, 0, 0, 0, 0, 0, ⟨0, 0⟩, ⟨0, 0⟩⟩

def S_IFMT : UInt32 := 0o170000

def S_IFDIR : UInt32 := 0o040000

def S_IFREG : UInt32 := 0o100000

def S_IFLNK : UInt32 := 0o120000

structure Fattribute where
  /-- The names in a directory; the target of a symbolic link. -/
  list : List Str
  stbuf : Stat
  deriving DecidableEq, Repr

namespace Fattribute

def new : Fattribute := ⟨[], .zero⟩

/-- What `serialize` writes, in its order. -/
structure Record where
  dev : Nat
  ino : Nat
  mode : UInt32
  size : Int
  nlink : Nat
  mtim : Timespec
  uid : UInt32
  gid : UInt32
  list : List Str
  deriving DecidableEq, Repr

/-- `serialize` into an output archive. -/
def serialize (a : Fattribute) : Record :=
  ⟨a.stbuf.dev, a.stbuf.ino, a.stbuf.mode, a.stbuf.size, a.stbuf.nlink, a.stbuf.mtim, a.stbuf.uid,
    a.stbuf.gid, a.list⟩

/-- `serialize` from an input archive. The other fields stay as they are. -/
def deserialize (a : Fattribute) (r : Record) : Fattribute :=
  { list := r.list
    stbuf := { a.stbuf with
      dev := r.dev, ino := r.ino, mode := r.mode, size := r.size, nlink := r.nlink,
      mtim := r.mtim, uid := r.uid, gid := r.gid } }

/-- `S_ISDIR(st_mode)`. -/
def IsDir (a : Fattribute) : Prop := a.stbuf.mode &&& S_IFMT = S_IFDIR

instance (a : Fattribute) : Decidable a.IsDir := inferInstanceAs (Decidable (_ = _))

/-- `S_ISLNK(st_mode)`. -/
def IsLnk (a : Fattribute) : Prop := a.stbuf.mode &&& S_IFMT = S_IFLNK

instance (a : Fattribute) : Decidable a.IsLnk := inferInstanceAs (Decidable (_ = _))

end Fattribute

inductive InstructionEnum where
  | noop
  | chunkserver
  | filename
  | chunk
  | attribute
  deriving DecidableEq, Repr

structure Instruction where
  type : InstructionEnum
  argument : Str
  deriving DecidableEq, Repr

/-- `binary_oarchive` and `binary_iarchive`; `none` is `archive_exception`. -/
class BinaryArchive (τ : Type) where
  save : τ → Str
  load : Str → Option τ
  load_save : ∀ x, load (save x) = some x
  load_nil : load [] = none

theorem BinaryArchive.save_injective [BinaryArchive τ] : Function.Injective (save : τ → Str) :=
  fun x y h => Option.some.inj (by rw [← load_save x, h, load_save])

/-- `base_value`, without the buffers for the archives. -/
structure BaseValue (τ : Type) where
  instruction : Instruction
  mapped : τ

abbrev AttributeValue := BaseValue Fattribute

namespace AttributeValue

variable [BinaryArchive Instruction] [BinaryArchive Fattribute.Record]

/-- `ValueFactory<attribute_value>::NewPointer`. -/
def newPointer (key : Str) : AttributeValue := ⟨⟨.attribute, key⟩, .new⟩

def getKey (v : AttributeValue) : Str := BinaryArchive.save v.instruction

def getValue (v : AttributeValue) : Str := BinaryArchive.save v.mapped.serialize

/-- `set_value`; `none` is `archive_exception`. -/
def setValue (v : AttributeValue) (value : Str) : Option AttributeValue :=
  (BinaryArchive.load value).map fun r => { v with mapped := v.mapped.deserialize r }

instance : CacheValue Str AttributeValue := ⟨newPointer, getKey⟩

omit [BinaryArchive Fattribute.Record] in
theorem getKey_newPointer_injective {k k' : Str}
    (h : (newPointer k).getKey = (newPointer k').getKey) : k = k' := by
  cases BinaryArchive.save_injective h; rfl

omit [BinaryArchive Instruction] in
theorem setValue_nil (v : AttributeValue) : v.setValue [] = none := by
  rw [setValue, BinaryArchive.load_nil]; rfl

theorem getKey_of_setValue {v w : AttributeValue} {value : Str} (h : v.setValue value = some w) :
    w.getKey = v.getKey := by
  obtain ⟨r, _, rfl⟩ := Option.map_eq_some_iff.mp h
  rfl

end AttributeValue

/-! ## Archives for concrete runs -/

namespace PlainArchive

/-- A letter for the type, and the argument. -/
scoped instance : BinaryArchive Instruction where
  save i := (match i.type with
    | .noop => 'n'
    | .chunkserver => 's'
    | .filename => 'f'
    | .chunk => 'c'
    | .attribute => 'a') :: i.argument
  load
    | 'n' :: s => some ⟨.noop, s⟩
    | 's' :: s => some ⟨.chunkserver, s⟩
    | 'f' :: s => some ⟨.filename, s⟩
    | 'c' :: s => some ⟨.chunk, s⟩
    | 'a' :: s => some ⟨.attribute, s⟩
    | _ => none
  load_save := by rintro ⟨type, _⟩; cases type <;> rfl
  load_nil := rfl

instance encodableUInt32 : Encodable UInt32 :=
  .ofLeftInverse UInt32.toNat UInt32.ofNat fun x => by simp

instance encodableUInt64 : Encodable UInt64 :=
  .ofLeftInverse UInt64.toNat UInt64.ofNat fun x => by simp

instance encodableChar : Encodable Char :=
  .ofLeftInverse Char.toNat Char.ofNat fun x => by simp

deriving instance Encodable for Timespec

deriving instance Encodable for Fattribute.Record

/-- As many letters as the number of the value, and one. -/
@[reducible] def unary (τ : Type) [Encodable τ] : BinaryArchive τ where
  save x := List.replicate (Encodable.encode x + 1) 'x'
  load s := match s.length with
    | 0 => none
    | n + 1 => Encodable.decode n
  load_save x := by simp
  load_nil := rfl

scoped instance : BinaryArchive Fattribute.Record := unary _

end PlainArchive

end ColonyFS

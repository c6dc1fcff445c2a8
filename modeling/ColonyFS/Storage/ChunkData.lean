import Mathlib
import ColonyFS.Lib.Vec

/-!
# Chunks and their keys (`storage/basic_metadata.hpp`, `chunk_metadata.hpp`, `chunk_data.hpp`)

A chunk is named by the path of its file (`uid`) and its index in the file (`cuid`, a C++ `int`).
`size_t` values are natural numbers; `toInt` is the conversion to `int` that happens when a chunk
index is put in a key.
-/

namespace ColonyFS

/-- A `std::string`, one `Char` for each byte. -/
abbrev Str := List Char

/-- A `char` of a buffer or of a chunk. -/
abbrev Byte := UInt8

/-- `CHUNK_SIZE`, in bytes. -/
@[irreducible] def CHUNK_SIZE : Nat := 1024 * 1024 * 10

theorem CHUNK_SIZE_eq : CHUNK_SIZE = 10485760 := by unfold CHUNK_SIZE; rfl

theorem CHUNK_SIZE_pos : 0 < CHUNK_SIZE := by rw [CHUNK_SIZE_eq]; decide

/-- The position `i` bytes after `x`, in the same chunk. -/
theorem div_mod_of_add_lt (h : x % CHUNK_SIZE + i < CHUNK_SIZE) :
    (x + i) / CHUNK_SIZE = x / CHUNK_SIZE ∧ (x + i) % CHUNK_SIZE = x % CHUNK_SIZE + i := by
  refine (Nat.div_mod_unique CHUNK_SIZE_pos).mpr ⟨?_, h⟩
  have := Nat.mod_add_div x CHUNK_SIZE
  omega

/-- Positions in one chunk are ordered as in the file. -/
theorem sub_mod_of_div_eq (h : x / CHUNK_SIZE = y / CHUNK_SIZE) :
    x % CHUNK_SIZE + y = y % CHUNK_SIZE + x := by
  have hx := Nat.mod_add_div x CHUNK_SIZE
  have hy := Nat.mod_add_div y CHUNK_SIZE
  rw [h] at hx; omega

/-- The conversion of an unsigned integer to a 32-bit `int`. -/
@[irreducible] def toInt (n : Nat) : Int := Int.bmod n (2 ^ 32)

theorem toInt_of_lt (h : n < 2 ^ 31) : toInt n = n := by
  unfold toInt
  rw [Int.bmod_eq_of_le] <;> omega

theorem toInt_inj_of_lt (hm : m < 2 ^ 31) (hn : n < 2 ^ 31) (h : toInt m = toInt n) : m = n := by
  rw [toInt_of_lt hm, toInt_of_lt hn] at h; omega

/-- Consecutive indices have different keys, whatever their size. -/
theorem toInt_succ_ne (n : Nat) : toInt (n + 1) ≠ toInt n := by
  intro h
  unfold toInt at h
  have h1 : ((n + 1 : Nat) : Int) % (2 ^ 32 : Nat) = (n : Int) % (2 ^ 32 : Nat) := by
    rw [← Int.bmod_emod (x := ((n + 1 : Nat) : Int)), ← Int.bmod_emod (x := (n : Int))]
    exact congrArg (· % ((2 ^ 32 : Nat) : Int)) h
  omega

/-- `basic_metadata::key_type`. -/
structure ChunkKey where
  uid : Str
  cuid : Int
  deriving DecidableEq, Repr

namespace ChunkKey

/-- The order of `boost::tuple`s, by which `std::map` keeps its keys. -/
instance : Ord ChunkKey := ⟨compareLex (compareOn uid) (compareOn cuid)⟩

instance : Std.TransOrd ChunkKey :=
  inferInstanceAs (Std.TransCmp (compareLex (compareOn uid) (compareOn cuid)))

instance : Std.LawfulEqOrd ChunkKey where
  eq_of_compare {a b} h := by
    obtain ⟨h1, h2⟩ : compare a.uid b.uid = .eq ∧ compare a.cuid b.cuid = .eq := by
      simpa [compare, compareLex, compareOn, Ordering.then_eq_eq] using h
    cases a; cases b
    cases Std.LawfulEqCmp.eq_of_compare h1
    cases Std.LawfulEqCmp.eq_of_compare h2
    rfl

end ChunkKey

/-- `chunk_data`, with the fields of `chunk_metadata`; `data` is the vector `data_ptr_` owns. -/
structure ChunkData where
  uid : Str
  cuid : Int
  data : List Byte
  deriving DecidableEq, Repr

/-- `chunk_data(key)`: a chunk without any bytes. -/
def ChunkData.ofKey (key : ChunkKey) : ChunkData := ⟨key.uid, key.cuid, []⟩

/-- `basic_metadata::get_key`. -/
def ChunkData.getKey (c : ChunkData) : ChunkKey := ⟨c.uid, c.cuid⟩

end ColonyFS

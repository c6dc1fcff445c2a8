import ColonyFS.Cache.DataOnFlush
import ColonyFS.Cache.MetadataOnFlush
import ColonyFS.Storage.ChunkFile
import ColonyFS.Lib.Machine
import ColonyFS.Xmlrpc.RoundTrip

/-!
# The location of a chunk (`cache/policy/DataOnFlush.hpp`, `xmlrpc/values.hpp`)

The location of a chunk is a `chunk_value` in the DHT. Its key is made of the decimal of the cuid
and of the uid, with nothing in between. A uid begins with `/`, so two chunks have two keys, and
`Net` may keep a location under the key of its chunk: `locates_of_reach`.
-/

namespace ColonyFS

open Pathname (IsAbsolute)
open Storage (decimal)
open Function Machine

namespace ChunkValue

/-- `chunk_value(key)`. -/
def ofKey (key : Str) : ChunkValue := ⟨⟨.chunk, key⟩, Serializable.new⟩

/-- `chunk_value(filename, chunk_num, location)`. -/
def ofLocation (filename : Str) (chunkNum : UInt64) (location : Str) : ChunkValue :=
  ⟨⟨.chunk, decimal chunkNum.toNat ++ filename⟩, location⟩

/-- `ValueFactory<chunk_value>::NewPointer`. -/
def newPointer (key : Str) : ChunkValue := { BaseValue.new with instruction := ⟨.chunk, key⟩ }

end ChunkValue

namespace DataOnFlush

/-- `key`, in `PreRead` and in `OnFlush`. -/
def key (p : ChunkData) : Str := decimal p.cuid ++ p.uid

/-- `cs_info`, which `PreRead` looks up. -/
def csInfo (p : ChunkData) : ChunkValue := .ofKey (key p)

/-- `chunk_info`, which `OnFlush` publishes. -/
def chunkInfo (p : ChunkData) (hostname : Str) : ChunkValue :=
  { ChunkValue.newPointer (key p) with mapped := hostname }

section

variable {δ : Type} [BinaryArchive Instruction] [BinaryArchive Str] (dht : Dht δ)

/-- `DHT::Instance().get_pair(cs_info)` and `get_mapped`. -/
def locate (p : ChunkData) : EStateM Stop δ Str := do
  let rawValue ← dht.get (csInfo p).getKey
  match (csInfo p).setValue rawValue with
  | some value => return value.mapped
  | none => throw (.raised .archiveException)

/-- `DHT::Instance().set_pair(chunk_info)`. -/
def publish (p : ChunkData) (hostname : Str) : EStateM Stop δ Unit := do
  let _ ← dht.put (chunkInfo p hostname).getKey (chunkInfo p hostname).getValue

end

variable {p q : ChunkData} {uid uid' hostname : Str} {cuid cuid' : Int}

/-! ## Keys -/

/-- The decimal is what stands before the first `/`. -/
theorem takeWhile_decimal (h : IsAbsolute uid) :
    (decimal cuid ++ uid).takeWhile (· ≠ '/') = decimal cuid := by
  obtain ⟨s, rfl⟩ := List.head?_eq_some_iff.mp h
  have hslash : '/' ∉ decimal cuid := Storage.not_mem_decimal (by decide) (by decide)
  rw [List.takeWhile_append_of_pos, List.takeWhile_cons_of_neg (by simp), List.append_nil]
  intro c hc
  simpa using fun h : c = '/' => hslash (h ▸ hc)

theorem decimal_append_inj (h : IsAbsolute uid) (h' : IsAbsolute uid')
    (heq : decimal cuid ++ uid = decimal cuid' ++ uid') : cuid = cuid' ∧ uid = uid' := by
  have hdecimal := congrArg (List.takeWhile (· ≠ '/')) heq
  rw [takeWhile_decimal h, takeWhile_decimal h'] at hdecimal
  obtain rfl := Storage.decimal_injective hdecimal
  exact ⟨rfl, List.append_cancel_left heq⟩

theorem key_eq_iff (h : IsAbsolute p.uid) (h' : IsAbsolute q.uid) :
    key p = key q ↔ p.getKey = q.getKey := by
  rw [ChunkData.getKey, ChunkData.getKey, ChunkKey.mk.injEq]
  constructor
  · exact fun heq => (decimal_append_inj h h' heq).symm
  · rintro ⟨huid, hcuid⟩
    rw [key, key, huid, hcuid]

theorem instruction_csInfo (p : ChunkData) (hostname : Str) :
    (csInfo p).instruction = (chunkInfo p hostname).instruction := rfl

/-- A cuid that is not negative is the same `size_t`. -/
theorem instruction_ofLocation (h : 0 ≤ p.cuid) (h' : p.cuid < 2 ^ 31) (location : Str) :
    (ChunkValue.ofLocation p.uid (.ofInt p.cuid) location).instruction =
      (chunkInfo p hostname).instruction := by
  have hnum : ((UInt64.ofInt p.cuid).toNat : Int) = p.cuid := by
    rw [UInt64.ofInt, UInt64.toNat_ofNat']
    omega
  rw [ChunkValue.ofLocation, hnum]
  rfl

variable [BinaryArchive Instruction]

theorem getKey_eq_iff (h : IsAbsolute p.uid) (h' : IsAbsolute q.uid) :
    (csInfo p).getKey = (chunkInfo q hostname).getKey ↔ p.getKey = q.getKey := by
  rw [← key_eq_iff h h']
  constructor
  · intro heq
    have hinstr := BinaryArchive.save_injective heq
    exact congrArg Instruction.argument hinstr
  · intro heq
    rw [csInfo, heq]
    rfl

/-! ## The locations that `Net` keeps -/

section

variable [BinaryArchive Str] {service : Str → Option Str} {location : ChunkKey → Option Str}
  {net : Net}

/-- The DHT keeps the archives of the hosts in `location`, each under the key of its chunk. -/
def Locates (service : Str → Option Str) (location : ChunkKey → Option Str) : Prop :=
  ∀ p, IsAbsolute p.uid → service (csInfo p).getKey = (location p.getKey).map BinaryArchive.save

theorem Locates.locate (h : Locates service location) (hp : IsAbsolute p.uid) :
    locate Dht.table p service = match location p.getKey with
      | some hostname => .ok hostname service
      | none => .error (.raised .keyMissingError) service := by
  have hkey := h p hp
  simp only [DataOnFlush.locate, Dht.table, bind, EStateM.bind]
  cases hl : location p.getKey with
  | none =>
    rw [hl, Option.map_none] at hkey
    rw [hkey]
  | some hostname =>
    rw [hl, Option.map_some] at hkey
    rw [hkey]
    simp only [BaseValue.setValue, BinaryArchive.load_save, Option.map_some]
    rfl

/-- A location is published under the key of its chunk, and under no other. -/
theorem Locates.publish (h : Locates service location) (hq : IsAbsolute q.uid) (hostname : Str) :
    ∃ service', publish Dht.table q hostname service = .ok () service' ∧
      Locates service' (update location q.getKey (some hostname)) := by
  let v := chunkInfo q hostname
  let service' := update service v.getKey (some v.getValue)
  refine ⟨service', rfl, fun p hp => ?_⟩
  have hkey : (csInfo p).getKey = (chunkInfo q hostname).getKey ↔ _ := getKey_eq_iff hp hq
  by_cases hk : p.getKey = q.getKey
  · simp only [service', v]
    rw [hkey.mpr hk, hk, update_self, update_self]
    rfl
  · simp only [service', v]
    rw [update_of_ne (hkey.not.mpr hk), update_of_ne hk]
    exact h p hp

/-- `PreRead` asks the host that the DHT names. -/
theorem Locates.preRead (h : Locates service net.location) (hp : IsAbsolute p.uid) :
    preRead p net = match DataOnFlush.locate Dht.table p service with
      | .ok hostname _ => .ok { p with data := (net.database hostname p.getKey).getD p.data } net
      | .error e _ => .error e net := by
  rw [h.locate hp]
  simp only [DataOnFlush.preRead, bind, EStateM.bind, get, getThe, MonadStateOf.get, EStateM.get]
  cases net.location p.getKey with
  | none => rfl
  | some hostname =>
    simp only
    cases net.database hostname p.getKey <;> rfl

/-- `OnFlush` on `Net` and on the DHT. -/
def flush (s : Net × (Str → Option Str)) (p : ChunkData) : Option (Net × (Str → Option Str)) :=
  match onFlush p s.1, DataOnFlush.publish Dht.table p (s.1.schedule s.1.calls) s.2 with
  | .ok _ net, .ok _ service => some (net, service)
  | _, _ => none

theorem Locates.flush {s s' : Net × (Str → Option Str)} (h : Locates s.2 s.1.location)
    (hp : IsAbsolute p.uid) (hstep : flush s p = some s') : Locates s'.2 s'.1.location := by
  obtain ⟨service', hpublish, hlocates⟩ := h.publish hp (s.1.schedule s.1.calls)
  have hflush : onFlush p s.1 = .ok () _ := rfl
  rw [DataOnFlush.flush, hflush, hpublish] at hstep
  cases hstep
  exact hlocates

/-- The DHT keeps what `Net` keeps, whatever has been flushed. -/
theorem locates_of_reach {s : Net × (Str → Option Str)} (hnet : ∀ k, net.location k = none)
    (h : Reach flush (fun _ p => IsAbsolute p.uid) (net, fun _ => none) s) :
    Locates s.2 s.1.location := by
  refine h.invariant (P := fun s => Locates s.2 s.1.location) ?_ ?_
  · intro p _
    rw [hnet, Option.map_none]
  · exact fun s p s' ih hp hstep => ih.flush hp hstep

end

/-- The key of a location names one chunk, and is made alike by `PreRead`, by `OnFlush` and by the
constructor. -/
theorem keys_agree :
    (∀ cuid cuid' uid uid', IsAbsolute uid → IsAbsolute uid' →
      decimal cuid ++ uid = decimal cuid' ++ uid' → cuid = cuid' ∧ uid = uid') ∧
    ∀ (p : ChunkData) (hostname location : Str), IsAbsolute p.uid → 0 ≤ p.cuid →
      p.cuid < 2 ^ 31 →
      (csInfo p).instruction = (chunkInfo p hostname).instruction ∧
      (ChunkValue.ofLocation p.uid (.ofInt p.cuid) location).instruction =
        (chunkInfo p hostname).instruction ∧
      ∀ q : ChunkData, IsAbsolute q.uid →
        ((csInfo q).getKey = (chunkInfo p hostname).getKey ↔ q.getKey = p.getKey) :=
  ⟨fun _ _ _ _ => decimal_append_inj, fun p hostname location h h0 h1 =>
    ⟨instruction_csInfo p hostname, instruction_ofLocation h0 h1 location,
      fun _ hq => getKey_eq_iff hq h⟩⟩

end DataOnFlush

namespace DataOnFlush

open scoped PlainArchive

/-- The first chunk of a file, and the second. -/
theorem keys_agree_example : let p : ChunkData := ⟨['/', 'f'], 0, [7]⟩
    (csInfo p).instruction = (chunkInfo p ['b', 'o', 'b']).instruction ∧
    (ChunkValue.ofLocation ['/', 'f'] 0 []).instruction =
      (chunkInfo p ['b', 'o', 'b']).instruction ∧
    (csInfo ⟨['/', 'f'], 1, []⟩).getKey ≠ (chunkInfo p ['b', 'o', 'b']).getKey := by
  intro p
  obtain ⟨hlook, hmake, hkey⟩ := keys_agree.2 p ['b', 'o', 'b'] [] rfl (by decide) (by decide)
  refine ⟨hlook, hmake, (hkey ⟨['/', 'f'], 1, []⟩ rfl).not.mpr ?_⟩
  decide

end DataOnFlush

end ColonyFS

import ColonyFS.Cache.Cache
import ColonyFS.Xmlrpc.Harmony
import ColonyFS.Xmlrpc.Values

/-!
# The policy of the metadata cache (`cache/policy/MetadataOnFlush.hpp`)

Attributes are read from the DHT and flushed to it. Erasing one puts the empty string.
-/

namespace ColonyFS

/-- `DHT::Instance()`, an object with two methods. -/
structure Dht (δ : Type) where
  put : Str → Str → EStateM Stop δ Bool
  get : Str → EStateM Stop δ Str

/-- `xmlrpc::harmony`. -/
def Harmony.dht (stringHash : Str → Nat) : Dht Harmony.Service :=
  ⟨Harmony.put stringHash, Harmony.get stringHash⟩

/-- A DHT in which keys do not collide. -/
def Dht.table : Dht (Str → Option Str) where
  put key value := do
    modify fun service => Function.update service key (some value)
    return true
  get key := fun service => match service key with
    | some value => .ok value service
    | none => .error (.raised .keyMissingError) service

theorem Dht.table_put {key value : Str} {service service' : Str → Option Str} {ok : Bool}
    (h : Dht.table.put key value service = .ok ok service') :
    service' = Function.update service key (some value) := by
  cases h; rfl

theorem Dht.table_get {key value : Str} {service service' : Str → Option Str}
    (h : Dht.table.get key service = .ok value service') : service key = some value := by
  simp only [Dht.table] at h
  split at h
  · next hv => cases h; exact hv
  · cases h

namespace MetadataOnFlush

variable {δ : Type} [BinaryArchive Instruction] [BinaryArchive Fattribute.Record] (dht : Dht δ)

/-- `get_pair`. -/
def getPair (value : AttributeValue) : EStateM Stop δ AttributeValue := do
  let rawValue ← dht.get value.getKey
  match value.setValue rawValue with
  | some value => return value
  | none => throw (.raised .archiveException)

/-- `set_pair`. -/
def setPair (value : AttributeValue) : EStateM Stop δ Unit := do
  let _ ← dht.put value.getKey value.getValue

def preRead (value : AttributeValue) : EStateM Stop δ AttributeValue := fun service =>
  match getPair dht value service with
  | .error (.raised .keyMissingError) service => .error (.raised .lookupE) service
  | r => r

def onErase (value : AttributeValue) : EStateM Stop δ Unit := do
  let _ ← dht.put value.getKey []

def onFlush (value : AttributeValue) : EStateM Stop δ Unit := setPair dht value

def policy : Policy AttributeValue δ := ⟨preRead dht, onErase dht, onFlush dht⟩

section

variable {dht} {v w : AttributeValue} {s t : δ} {raw : Str} {e : Stop}

theorem getPair_ok (hg : dht.get v.getKey s = .ok raw t) (hv : v.setValue raw = some w) :
    getPair dht v s = .ok w t := by
  refine (Exec.bind_of_ok hg).trans ?_
  rw [hv]
  rfl

theorem getPair_archive (hg : dht.get v.getKey s = .ok raw t) (hv : v.setValue raw = none) :
    getPair dht v s = .error (.raised .archiveException) t := by
  refine (Exec.bind_of_ok hg).trans ?_
  rw [hv]
  rfl

theorem preRead_ok (h : getPair dht v s = .ok w t) : (policy dht).preRead v s = .ok w t := by
  simp only [policy, preRead, h]

theorem getPair_of_preRead (h : (policy dht).preRead v s = .ok w t) :
    getPair dht v s = .ok w t := by
  simp only [policy, preRead] at h
  split at h
  · cases h
  · exact h

theorem raised_of_preRead {stringHash : Str → Nat} {v : AttributeValue} {s t : Harmony.Service}
    (h : (policy (Harmony.dht stringHash)).preRead v s = .error e t) : ∃ x, e = .raised x := by
  have hraised : ∀ {e t}, getPair (Harmony.dht stringHash) v s = .error e t →
      ∃ x, e = .raised x := by
    intro e t h
    obtain h | ⟨raw, t, _, h⟩ := Exec.bind_eq_error.mp h
    · have h : Harmony.get stringHash v.getKey s = .error e t := h
      rw [Harmony.get_apply] at h
      split at h
      · cases h
      · cases h
        exact ⟨_, rfl⟩
    · cases hv : v.setValue raw with
      | some w => simp only [hv] at h; cases h
      | none => simp only [hv] at h; cases h; exact ⟨_, rfl⟩
  simp only [policy, preRead] at h
  split at h
  · cases h
    exact ⟨_, rfl⟩
  · exact hraised h

/-- Only `key_missing_error` is translated. -/
theorem preRead_error (h : getPair dht v s = .error e t) (he : e ≠ .raised .keyMissingError) :
    (policy dht).preRead v s = .error e t := by
  simp only [policy, preRead, h]
  split
  · next h => cases h; exact (he rfl).elim
  · rfl

end

theorem policy_keepsKey : (policy dht).KeepsKey := by
  intro v w s s' h
  obtain ⟨raw, t, _, h⟩ := Exec.bind_eq_ok.mp (getPair_of_preRead h)
  cases hv : v.setValue raw with
  | none => simp only [hv] at h; cases h
  | some u => simp only [hv] at h; cases h; exact AttributeValue.getKey_of_setValue hv

end MetadataOnFlush

end ColonyFS

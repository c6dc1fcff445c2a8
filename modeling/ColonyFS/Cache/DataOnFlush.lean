import ColonyFS.Cache.Cache

/-!
# The policy of the data cache (`cache/policy/DataOnFlush.hpp`)

The policy with a network that delivers at once: a deposit is in the database of the chunk server
when `OnFlush` returns, and a retrieval has filled the chunk when `PreRead` returns. DHT keys do not
collide, so a location is kept under the key of its chunk. `timed` is the policy with a network that
is not as fast as the reader.
-/

namespace ColonyFS

/-- The DHT and the chunk servers, as far as chunks go. -/
structure Net where
  /-- The hosts that `CSScheduler::GetCS` picks, call by call. -/
  schedule : Nat → Str
  /-- The calls so far. -/
  calls : Nat
  /-- The `chunk_value`s in the DHT. -/
  location : ChunkKey → Option Str
  /-- The database of each chunk server. -/
  database : Str → ChunkKey → Option (List Byte)

namespace Net

/-- `db::save_chunk` on a host. -/
def deposit (net : Net) (host : Str) (v : ChunkData) : Net :=
  { net with
    database := Function.update net.database host
      (Function.update (net.database host) v.getKey (some v.data)) }

/-- `DHT::Instance().set_pair`. -/
def setPair (net : Net) (k : ChunkKey) (host : Str) : Net :=
  { net with location := Function.update net.location k (some host) }

/-- What the chunk servers hold for a chunk: the entry on the host that the DHT names. -/
def stored? (net : Net) (k : ChunkKey) : Option (List Byte) :=
  (net.location k).bind fun host => net.database host k

/-- The byte of a file that the chunk servers hold. -/
def held (net : Net) (f : Str) (x : Nat) : Option Byte :=
  (net.stored? ⟨f, toInt (x / CHUNK_SIZE)⟩).bind (·[x % CHUNK_SIZE]?)

end Net

namespace DataOnFlush

def preRead (v : ChunkData) : EStateM Stop Net ChunkData := do
  let net ← get
  match net.location v.getKey with
  | none => throw (.raised .keyMissingError)
  | some host =>
    match net.database host v.getKey with
    | some data => return { v with data := data }
    | none => return v

def onFlush (v : ChunkData) : EStateM Stop Net Unit :=
  modify fun net =>
    let hostname := net.schedule net.calls
    ({ net with calls := net.calls + 1 }.deposit hostname v).setPair v.getKey hostname

/-- `OnErase` does nothing: the chunks stay on the servers. -/
def policy : Policy ChunkData Net := ⟨preRead, fun _ => pure (), onFlush⟩

/-- `PreRead` returns when the retrieval is started. Of the chunks that it is asked for, the ones in
`arrived` are filled by then. -/
def timed (arrived : ChunkKey → Bool) : Policy ChunkData Net :=
  { policy with preRead := fun v => do
      let w ← preRead v
      return if arrived v.getKey then w else v }

theorem timed_true : timed (fun _ => true) = policy := by
  simp [timed, policy]

/-- `OnFlush` changes what the servers hold for its chunk, and for no other. -/
theorem onFlush_spec (v : ChunkData) (net : Net) :
    ∃ net', policy.onFlush v net = .ok () net' ∧
      ∀ k, net'.stored? k = if k = v.getKey then some v.data else net.stored? k := by
  refine ⟨_, rfl, ?_⟩
  intro k
  simp only [Net.stored?, Net.setPair, Net.deposit]
  by_cases hk : k = v.getKey
  · subst hk; simp
  · rw [if_neg hk, Function.update_of_ne hk]
    cases net.location k with
    | none => rfl
    | some host =>
      by_cases hh : host = net.schedule net.calls
      · subst hh; simp [Function.update_of_ne hk]
      · simp [Function.update_of_ne hh]

section

variable {arrived : ChunkKey → Bool} {v w : ChunkData} {net net' : Net} {e : Stop}

/-- A chunk that the DHT knows no host of. -/
theorem preRead_missing (h : net.location v.getKey = none) :
    policy.preRead v net = .error (.raised .keyMissingError) net := by
  simp only [policy, preRead, bind, EStateM.bind, get, getThe, MonadStateOf.get, EStateM.get, h]
  rfl

/-- A chunk that the DHT knows a host of. -/
theorem preRead_located {host : Str} (h : net.location v.getKey = some host) :
    policy.preRead v net = .ok { v with data := (net.database host v.getKey).getD v.data } net := by
  simp only [policy, preRead, bind, EStateM.bind, get, getThe, MonadStateOf.get, EStateM.get, h]
  cases net.database host v.getKey <;> rfl

theorem timed_preRead_missing (h : net.location v.getKey = none) :
    (timed arrived).preRead v net = .error (.raised .keyMissingError) net := by
  have hP := preRead_missing h
  simp only [policy] at hP
  simp only [timed, bind, EStateM.bind, hP]

theorem timed_preRead_located {host : Str} (h : net.location v.getKey = some host) :
    (timed arrived).preRead v net = .ok (if arrived v.getKey then
      { v with data := (net.database host v.getKey).getD v.data } else v) net := by
  have hP := preRead_located h
  simp only [policy] at hP
  simp only [timed, bind, EStateM.bind, hP]
  rfl

/-- `key_missing_error` is not translated. -/
theorem timed_preRead_error (h : (timed arrived).preRead v net = .error e net') :
    e = .raised .keyMissingError := by
  cases hl : net.location v.getKey with
  | none => cases (timed_preRead_missing hl).symm.trans h; rfl
  | some host => cases (timed_preRead_located hl).symm.trans h

theorem timed_keepsKey : (timed arrived).KeepsKey := by
  intro v w net net' h
  cases hl : net.location v.getKey with
  | none => cases (timed_preRead_missing hl).symm.trans h
  | some host =>
    cases (timed_preRead_located hl).symm.trans h
    split <;> rfl

theorem policy_keepsKey : policy.KeepsKey := timed_true ▸ timed_keepsKey

theorem timed_noLookupE : (timed arrived).NoLookupE := by
  intro v net net' h
  cases timed_preRead_error h

theorem policy_noLookupE : policy.NoLookupE := timed_true ▸ timed_noLookupE

end

end DataOnFlush

end ColonyFS

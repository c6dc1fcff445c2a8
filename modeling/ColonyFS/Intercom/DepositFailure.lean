import ColonyFS.Cache.DataOnFlush

/-!
# Deposits that fail (`intercom/client_mt.hpp`, `intercom/user_harmony.hpp`)

`OnFlush` returns as soon as the deposit is started, and `cache::invalidate(key)`, which a flush
calls for each chunk of its file, clears the dirty mark then. What becomes of the deposit shows in
handlers that nobody waits for: `handle_connect` prints the error when no endpoint is left, the
handler of the command is called without its error code, and `end_deposit` does not look at its
own.

`Outcome` says how every call that can fail turns out.
-/

namespace ColonyFS

structure Outcome where
  /-- Whether each endpoint of the host accepts the connection; `resolve` throws if there is
  none. -/
  endpoints : List Bool
  /-- The server receives the command. -/
  commandReceived : Bool
  /-- The server receives the chunk. -/
  chunkReceived : Bool
  /-- The DHT put succeeds. -/
  put : Bool
  deriving DecidableEq, Repr

/-- The network, with the deposits that were started. -/
structure DepositNet where
  net : Net
  started : List (Str × ChunkData)
  /-- What the servers stored of them. -/
  saved : List ChunkData

namespace DepositFailure

/-- `init_connection`, as far as the caller runs it: it throws, or an `async_connect` is under
way. -/
def initConnection (o : Outcome) (hostname : Str) (v : ChunkData) :
    EStateM Stop DepositNet Unit := do
  Exec.require (o.endpoints ≠ []) (.raised .systemError)
  modify fun s => { s with started := s.started ++ [(hostname, v)] }

/-- `set_pair`. -/
def setPair (o : Outcome) (key : ChunkKey) (hostname : Str) : EStateM Stop DepositNet Unit := do
  Exec.require o.put (.raised .dhtError)
  modify fun s => { s with net := s.net.setPair key hostname }

def onFlush (o : Outcome) (v : ChunkData) : EStateM Stop DepositNet Unit := do
  let net := (← get).net
  let hostname := net.schedule net.calls
  modify fun s => { s with net := { net with calls := net.calls + 1 } }
  initConnection o hostname v
  setPair o v.getKey hostname

def policy (o : Outcome) : Policy ChunkData DepositNet := ⟨pure, fun _ => pure (), onFlush o⟩

/-- `display_data` of the server, if the chunk arrives. -/
def displayData (o : Outcome) (hostname : Str) (v : ChunkData) (s : DepositNet) : DepositNet :=
  if o.chunkReceived then { s with net := s.net.deposit hostname v, saved := s.saved ++ [v] } else s

/-- `send_data`. It is called when the command was written, with or without an error; the server
waits for a chunk only if it has received the command. -/
def sendData (o : Outcome) (hostname : Str) (v : ChunkData) (s : DepositNet) : DepositNet :=
  if o.commandReceived then displayData o hostname v s else s

/-- `handle_connect` after an attempt at an endpoint, with the endpoints that are left. -/
def handleConnect (o : Outcome) (hostname : Str) (v : ChunkData) (s : DepositNet) :
    (connected : Bool) → (endpoints : List Bool) → DepositNet
  | true, _ => sendData o hostname v s
  | false, e :: endpoints => handleConnect o hostname v s e endpoints
  | false, [] => s

/-- The handlers of the deposits that were started. -/
def settle (o : Outcome) (s : DepositNet) : DepositNet :=
  s.started.foldl (fun s d =>
    match o.endpoints with
    | [] => s
    | e :: endpoints => handleConnect o d.1 d.2 s e endpoints) s

/-- `cache::invalidate(key)`, and the state when all its handlers have run. -/
def invalidated (o : Outcome) (key : ChunkKey) (c : Cache ChunkKey ChunkData) (net : Net) :
    Cache ChunkKey ChunkData × DepositNet :=
  match Cache.invalidate (policy o) key (c, ⟨net, [], []⟩) with
  | .ok _ (c, s) => (c, settle o s)
  | .error _ (c, s) => (c, settle o s)

/-- `OnFlush` throws. -/
def Raises (o : Outcome) : Prop := o.endpoints = [] ∨ o.put = false

/-- The deposit gets through. -/
def Delivered (o : Outcome) : Prop :=
  true ∈ o.endpoints ∧ o.commandReceived = true ∧ o.chunkReceived = true

instance (o : Outcome) : Decidable (Raises o) := inferInstanceAs (Decidable (_ ∨ _))

instance (o : Outcome) : Decidable (Delivered o) := inferInstanceAs (Decidable (_ ∧ _))

variable {o : Outcome} {key : ChunkKey} {c : Cache ChunkKey ChunkData} {net : Net}
  {v : ChunkData} {s : DepositNet} {host : Str} {e : Bool} {es : List Bool}

theorem saved_sendData : (sendData o host v s).saved =
    if o.commandReceived ∧ o.chunkReceived then s.saved ++ [v] else s.saved := by
  cases hc : o.commandReceived <;> cases hd : o.chunkReceived <;>
    simp [sendData, displayData, hc, hd]

/-- Some endpoint that accepts is enough. -/
theorem saved_handleConnect : (handleConnect o host v s e es).saved =
    if true ∈ e :: es ∧ o.commandReceived ∧ o.chunkReceived then s.saved ++ [v] else s.saved := by
  induction es generalizing e with
  | nil =>
    cases e with
    | true => rw [handleConnect, saved_sendData]; simp
    | false => simp [handleConnect]
  | cons e' es ih =>
    cases e with
    | true => rw [handleConnect, saved_sendData]; simp
    | false => rw [handleConnect, ih]; simp

/-- The handlers of one deposit. -/
theorem mem_saved_settle (h : s.started = [(host, v)]) (hs : s.saved = []) :
    v ∈ (settle o s).saved ↔ Delivered o := by
  simp only [settle, h, List.foldl_cons, List.foldl_nil, Delivered]
  cases o.endpoints with
  | nil => simp [hs]
  | cons e es =>
    rw [saved_handleConnect, hs]
    split
    · next hd => simpa using hd
    · next hd => simpa using hd

/-- `OnFlush` throws exactly if `Raises` says so; if it returns, one deposit is under way. -/
theorem onFlush_cases (o : Outcome) (v : ChunkData) (net : Net) :
    (Raises o ∧ ∃ e s, onFlush o v ⟨net, [], []⟩ = .error e s) ∨
    (¬Raises o ∧ ∃ s host, onFlush o v ⟨net, [], []⟩ = .ok () s ∧
      s.started = [(host, v)] ∧ s.saved = []) := by
  let host := net.schedule net.calls
  let s : DepositNet := ⟨{ net with calls := net.calls + 1 }, [], []⟩
  have hg : onFlush o v ⟨net, [], []⟩ =
    EStateM.bind (initConnection o host v) (fun _ => setPair o v.getKey host) s := rfl
  rw [hg]
  by_cases he : o.endpoints = []
  · exact .inl ⟨.inl he, _, s, Exec.bind_of_error (Exec.bind_of_error
      (Exec.require_error fun h => h he))⟩
  have hi : initConnection o host v s = .ok () { s with started := [(host, v)] } :=
    Exec.bind_of_ok (Exec.require_ok he)
  by_cases hp : o.put = true
  · exact .inr ⟨by simp [Raises, he, hp], _, host,
      (Exec.bind_of_ok hi).trans (Exec.bind_of_ok (Exec.require_ok hp)), rfl, rfl⟩
  · exact .inl ⟨.inr (by simpa using hp), _, _,
      (Exec.bind_of_ok hi).trans (Exec.bind_of_error (Exec.require_error hp))⟩

/-- The mark stays if `OnFlush` throws, and goes if it returns. -/
theorem invalidated_cases (o : Outcome) (net : Net) (H : c.impl.WF) (hd : c.impl.IsDirty key)
    (hv : c.impl.get? key = some v) :
    (Raises o ∧ (invalidated o key c net).1.impl.IsDirty key) ∨
    (¬Raises o ∧ ¬(invalidated o key c net).1.impl.IsDirty key ∧
      (v ∈ (invalidated o key c net).2.saved ↔ Delivered o)) := by
  obtain ⟨p, hp⟩ := H.read_of_isDirty hd
  obtain ⟨w, hw, hg, -⟩ := H.get?_of_read hp
  cases hg.symm.trans hv
  obtain ⟨hr, e, s, hf⟩ | ⟨hr, s, host, hf, hst, hsv⟩ := onFlush_cases o v net
  · refine .inl ⟨hr, ?_⟩
    rw [invalidated, Cache.invalidate_raised hd hp hw (P := policy o) hf]
    exact hd
  · refine .inr ⟨hr, ?_⟩
    rw [invalidated, Cache.invalidate_dirty hd hp hw (P := policy o) hf]
    refine ⟨fun h => (BasicCache.isDirty_clearDirty.mp h).1 rfl, mem_saved_settle hst hsv⟩

def oneHost : Net := ⟨fun _ => ['h'], 0, fun _ => none, fun _ _ => none⟩

/-- The cache after the byte 7 was written at the start of "/f". -/
def written : Cache ChunkKey ChunkData :=
  let (p, c) := (Cache.empty : Cache ChunkKey ChunkData).subscript ⟨['/', 'f'], 0⟩
  { c with impl := c.impl.assign p ⟨['/', 'f'], 0, [7]⟩ }

theorem written_spec : written.impl.WF ∧ written.impl.IsDirty ⟨['/', 'f'], 0⟩ ∧
    written.impl.get? ⟨['/', 'f'], 0⟩ = some ⟨['/', 'f'], 0, [7]⟩ := by
  have h : (Cache.empty : Cache ChunkKey ChunkData).impl.WF := .empty
  have hs : Cache.Subscripted (Cache.empty : Cache ChunkKey ChunkData) ⟨['/', 'f'], 0⟩ _ _ :=
    Cache.subscript_spec h
  obtain ⟨w, hw, -, hk⟩ := hs.wf.get?_of_read hs.read
  refine ⟨hs.wf.assign hw hk.symm, (hs.isDirty _).mpr (.inl rfl), ?_⟩
  exact (hs.wf.get?_assign hs.read).trans (if_pos rfl)

/-- The only endpoint of the host refuses. -/
def refused : Outcome := ⟨[false], true, true, true⟩

end DepositFailure

end ColonyFS

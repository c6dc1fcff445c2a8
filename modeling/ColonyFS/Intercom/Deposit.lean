import ColonyFS.Cache.BasicCache
import ColonyFS.Lib.Machine

/-!
# Depositing chunks (`cache/policy/DataOnFlush.hpp`, `intercom/user_harmony.hpp`,
`intercom/chunkserver_harmony.cpp`)

`OnFlush` picks a host, starts a deposit there and puts the host into the DHT. The deposit goes on
in handlers, on a connection of its own: the connection, the command, and the chunk, which the
server stores when it has received it. Nothing relates its progress to the DHT or to another
deposit, or to the chunk: a deposit has a pointer to the chunk in the cache, which goes on to be
written and may be freed, and sends the bytes that are there when its turn comes. The machine here
runs any number of flushes and retrievals, without failures.
-/

namespace ColonyFS

/-- The next step of a deposit. -/
inductive DepositStage where
  /-- `handle_connect`. -/
  | connect
  /-- The command is sent; `send_data`. -/
  | command
  /-- The server receives the chunk with these bytes; `display_data`. -/
  | data (bytes : List Byte)
  /-- The server has stored these bytes. -/
  | done (bytes : List Byte)
  /-- `send_data` was called for a chunk that has been freed; its behaviour is undefined. -/
  | dangling
  deriving DecidableEq, Repr

/-- A call of `OnFlush`. -/
structure Flush where
  key : ChunkKey
  /-- The chunk, which `basic_cache::read` has pointed the argument to. -/
  object : Ptr
  /-- What is flushed: the bytes of the chunk at the time of the call. -/
  data : List Byte
  /-- `CSScheduler::GetCS()`. -/
  host : Str
  /-- `set_pair` was called. -/
  published : Bool
  stage : DepositStage
  deriving DecidableEq, Repr

inductive LookupStage where
  /-- `get_pair` of `PreRead`. -/
  | ask
  /-- `retrieve_chunk` of the server. -/
  | serve (host : Str)
  | answered
  /-- `key_missing_error` in `PreRead`. -/
  | missing
  /-- `inexistent_file_e` on the server. -/
  | inexistent
  deriving DecidableEq, Repr

/-- A retrieval of a chunk. -/
structure Lookup where
  key : ChunkKey
  stage : LookupStage
  deriving DecidableEq, Repr

/-- The DHT with its keys `δ`, the databases of the chunk servers, and what is under way. -/
structure Swarm (δ : Type) where
  location : δ → Option Str
  database : Str → ChunkKey → Option (List Byte)
  /-- The chunks in the caches of the clients, by their addresses; `none` if freed. -/
  objects : List (Option ChunkData)
  flushes : List Flush
  lookups : List Lookup
  /-- The hosts and the bytes of the deposits in the order in which they were stored, newest
  first. -/
  delivered : List (Str × List Byte)

inductive SwarmAct where
  /-- A chunk gets into a cache. -/
  | create (chunk : ChunkData)
  /-- A chunk in a cache is written or truncated. -/
  | write (p : Ptr) (bytes : List Byte)
  /-- A chunk is purged from its cache. -/
  | free (p : Ptr)
  /-- `OnFlush` gets as far as `deposit_chunk`. -/
  | flush (p : Ptr) (host : Str)
  /-- The DHT put of a flush. -/
  | publish (t : Nat)
  /-- The next step of its deposit. -/
  | deposit (t : Nat)
  /-- A miss makes a retrieval. -/
  | retrieve (key : ChunkKey)
  /-- The next step of a retrieval. -/
  | lookup (t : Nat)
  deriving DecidableEq, Repr

namespace Swarm

variable {δ : Type} [DecidableEq δ]

def init : Swarm δ := ⟨fun _ => none, fun _ _ => none, [], [], [], []⟩

/-- The chunk at an address. -/
def object? (s : Swarm δ) (p : Ptr) : Option ChunkData := s.objects[p]?.join

/-- `db::save_chunk` on the host of a deposit. -/
def save (s : Swarm δ) (fl : Flush) (bytes : List Byte) : Swarm δ :=
  { s with
    database := Function.update s.database fl.host
      (Function.update (s.database fl.host) fl.key (some bytes))
    delivered := (fl.host, bytes) :: s.delivered }

def setFlush (s : Swarm δ) (t : Nat) (fl : Flush) : Swarm δ :=
  { s with flushes := s.flushes.set t fl }

def setLookup (s : Swarm δ) (t : Nat) (l : Lookup) : Swarm δ :=
  { s with lookups := s.lookups.set t l }

/-- One step; `dhtKey` is the integer that the key of a chunk is sent to the DHT as. -/
def step (dhtKey : ChunkKey → δ) (s : Swarm δ) : SwarmAct → Option (Swarm δ)
  | .create chunk => some { s with objects := s.objects ++ [some chunk] }
  | .write p bytes => do
    let chunk ← s.object? p
    some { s with objects := s.objects.set p (some { chunk with data := bytes }) }
  | .free p => do
    let _ ← s.object? p
    some { s with objects := s.objects.set p none }
  | .flush p host => do
    let chunk ← s.object? p
    some { s with flushes := s.flushes ++ [⟨chunk.getKey, p, chunk.data, host, false, .connect⟩] }
  | .publish t => do
    let fl ← s.flushes[t]?
    if fl.published then none
    else some ({ s with
        location := Function.update s.location (dhtKey fl.key) (some fl.host) }.setFlush
      t { fl with published := true })
  | .deposit t => do
    let fl ← s.flushes[t]?
    match fl.stage with
    | .connect => some (s.setFlush t { fl with stage := .command })
    | .command =>
      match s.object? fl.object with
      | some chunk => some (s.setFlush t { fl with stage := .data chunk.data })
      | none => some (s.setFlush t { fl with stage := .dangling })
    | .data bytes => some ((s.save fl bytes).setFlush t { fl with stage := .done bytes })
    | .done _ | .dangling => none
  | .retrieve key => some { s with lookups := s.lookups ++ [⟨key, .ask⟩] }
  | .lookup t => do
    let l ← s.lookups[t]?
    match l.stage with
    | .ask =>
      match s.location (dhtKey l.key) with
      | some host => some (s.setLookup t { l with stage := .serve host })
      | none => some (s.setLookup t { l with stage := .missing })
    | .serve host =>
      if (s.database host l.key).isSome then some (s.setLookup t { l with stage := .answered })
      else some (s.setLookup t { l with stage := .inexistent })
    | _ => none

/-! ## A published location is backed by data -/

/-- Where the DHT sends a retrieval there is an entry, and no retrieval has met a missing one. -/
def Backed (dhtKey : ChunkKey → δ) (s : Swarm δ) : Prop :=
  (∀ key host, s.location (dhtKey key) = some host → (s.database host key).isSome) ∧
    ∀ l ∈ s.lookups, l.stage ≠ .inexistent

/-- A location is published only when its host has stored the chunk, and any other chunk that has
the same DHT key. -/
def Ok (dhtKey : ChunkKey → δ) (s : Swarm δ) : SwarmAct → Prop
  | .publish t => ∀ fl ∈ s.flushes[t]?, ∀ key, dhtKey key = dhtKey fl.key →
      (s.database fl.host key).isSome
  | _ => True

variable {dhtKey : ChunkKey → δ} {s s' : Swarm δ} {a : SwarmAct} {fl : Flush} {t : Nat}

/-- A location is published only when its host has stored the chunk. -/
def Stored (s : Swarm δ) : SwarmAct → Prop
  | .publish t => ∀ fl ∈ s.flushes[t]?, (s.database fl.host fl.key).isSome
  | _ => True

instance (s : Swarm δ) : DecidablePred s.Stored
  | .publish t => inferInstanceAs (Decidable (∀ fl ∈ s.flushes[t]?, _))
  | .create _ | .write .. | .free _ | .flush .. | .deposit _ | .retrieve _ | .lookup _ =>
    inferInstanceAs (Decidable True)

omit [DecidableEq δ] in
/-- With no two chunks under one DHT key, the condition is about the published chunk alone. -/
theorem ok_iff_stored (hinj : Function.Injective dhtKey) : Ok dhtKey s a ↔ s.Stored a := by
  cases a with
  | publish t =>
    constructor
    · intro h fl hfl
      exact h fl hfl _ rfl
    · intro h fl hfl key hkey
      rw [hinj hkey]; exact h fl hfl
  | _ => exact .rfl

/-- `Backed`, and what a retrieval has learnt stays true. -/
structure Inv (dhtKey : ChunkKey → δ) (s : Swarm δ) : Prop where
  location : ∀ key host, s.location (dhtKey key) = some host → (s.database host key).isSome
  stage : ∀ l ∈ s.lookups, l.stage ≠ .inexistent
  serve : ∀ l ∈ s.lookups, ∀ host, l.stage = .serve host → (s.database host l.key).isSome

omit [DecidableEq δ] in
/-- A stored chunk stays stored. -/
theorem isSome_save {host : Str} {key : ChunkKey} {bytes : List Byte}
    (h : (s.database host key).isSome) : ((s.save fl bytes).database host key).isSome := by
  simp only [save, Function.update_apply]
  split
  · next hh =>
    subst hh
    rw [Function.update_apply]
    split
    · rfl
    · exact h
  · exact h

omit [DecidableEq δ] in
theorem Inv.init : Inv dhtKey (init : Swarm δ) where
  location _ _ h := by cases h
  stage _ h := by cases h
  serve _ h := by cases h

omit [DecidableEq δ] in
theorem Inv.backed (H : Inv dhtKey s) : Backed dhtKey s := ⟨H.location, H.stage⟩

/-- What a step of a deposit does before the server stores it: it changes the stage, to bytes only
if the chunk has these. -/
def Advances (s : Swarm δ) (fl : Flush) (stage : DepositStage) : Prop :=
  fl.stage = .connect ∧ stage = .command ∨ fl.stage = .command ∧
    ((∃ chunk, s.object? fl.object = some chunk ∧ stage = .data chunk.data) ∨
      s.object? fl.object = none ∧ stage = .dangling)

/-- A step of a deposit: a stage, and for the last one the database of its host. -/
theorem deposit_cases (h : step dhtKey s (.deposit t) = some s') :
    ∃ fl, s.flushes[t]? = some fl ∧
      ((∃ stage, s.Advances fl stage ∧ s' = s.setFlush t { fl with stage := stage }) ∨
        ∃ bytes, fl.stage = .data bytes ∧
          s' = (s.save fl bytes).setFlush t { fl with stage := .done bytes }) := by
  obtain ⟨fl, hfl, h⟩ := Option.bind_eq_some_iff.mp h
  refine ⟨fl, hfl, ?_⟩
  cases hs : fl.stage with
  | connect =>
    simp only [hs] at h
    cases h
    exact .inl ⟨.command, .inl ⟨hs, rfl⟩, rfl⟩
  | command =>
    simp only [hs] at h
    cases hobj : s.object? fl.object with
    | some chunk =>
      simp only [hobj] at h
      cases h
      exact .inl ⟨_, .inr ⟨hs, .inl ⟨chunk, hobj, rfl⟩⟩, rfl⟩
    | none =>
      simp only [hobj] at h
      cases h
      exact .inl ⟨_, .inr ⟨hs, .inr ⟨hobj, rfl⟩⟩, rfl⟩
  | data bytes =>
    simp only [hs] at h
    cases h
    exact .inr ⟨bytes, rfl, rfl⟩
  | done | dangling =>
    simp only [hs] at h
    cases h

theorem publish_cases (h : step dhtKey s (.publish t) = some s') :
    ∃ fl, s.flushes[t]? = some fl ∧ fl.published = false ∧
      s' = { s with location := Function.update s.location (dhtKey fl.key) (some fl.host) }.setFlush
        t { fl with published := true } := by
  obtain ⟨fl, hfl, h⟩ := Option.bind_eq_some_iff.mp h
  split at h
  · cases h
  · next hp => cases h; exact ⟨fl, hfl, by simpa using hp, rfl⟩

/-- A step of a retrieval, which changes its stage only. -/
theorem lookup_cases (h : step dhtKey s (.lookup t) = some s') :
    ∃ l stage, s.lookups[t]? = some l ∧ s' = s.setLookup t { l with stage := stage } ∧
      (l.stage = .ask ∧ (∃ host, s.location (dhtKey l.key) = some host ∧ stage = .serve host) ∨
        stage = .missing ∨
        ∃ host, l.stage = .serve host ∧
          ((s.database host l.key).isSome ∧ stage = .answered ∨
            s.database host l.key = none ∧ stage = .inexistent)) := by
  obtain ⟨l, hl, h⟩ := Option.bind_eq_some_iff.mp h
  cases hs : l.stage with
  | ask =>
    simp only [hs] at h
    split at h
    · next host hloc => cases h; exact ⟨l, _, hl, rfl, .inl ⟨hs, host, hloc, rfl⟩⟩
    · cases h; exact ⟨l, _, hl, rfl, .inr (.inl rfl)⟩
  | serve host =>
    simp only [hs] at h
    split at h
    · next hd => cases h; exact ⟨l, _, hl, rfl, .inr (.inr ⟨host, hs, .inl ⟨hd, rfl⟩⟩)⟩
    · next hd =>
      cases h
      exact ⟨l, _, hl, rfl, .inr (.inr ⟨host, hs, .inr ⟨by simpa using hd, rfl⟩⟩)⟩
  | answered | missing | inexistent => simp only [hs] at h; cases h

theorem inv_step (H : Inv dhtKey s) (hok : Ok dhtKey s a) (h : step dhtKey s a = some s') :
    Inv dhtKey s' := by
  cases a with
  | create chunk =>
    cases h
    exact ⟨H.location, H.stage, H.serve⟩
  | write p bytes =>
    obtain ⟨chunk, _, h⟩ := Option.bind_eq_some_iff.mp h
    cases h
    exact ⟨H.location, H.stage, H.serve⟩
  | free p =>
    obtain ⟨chunk, _, h⟩ := Option.bind_eq_some_iff.mp h
    cases h
    exact ⟨H.location, H.stage, H.serve⟩
  | flush p host =>
    obtain ⟨chunk, _, h⟩ := Option.bind_eq_some_iff.mp h
    cases h
    exact ⟨H.location, H.stage, H.serve⟩
  | publish t =>
    obtain ⟨fl, hfl, _, rfl⟩ := publish_cases h
    refine ⟨?_, H.stage, H.serve⟩
    intro key host hloc
    simp only [setFlush, Function.update_apply] at hloc
    split at hloc
    · next hkey => cases hloc; exact hok fl hfl key hkey
    · exact H.location key host hloc
  | deposit t =>
    obtain ⟨fl, _, ⟨_, _, rfl⟩ | ⟨_, _, rfl⟩⟩ := deposit_cases h
    · exact ⟨H.location, H.stage, H.serve⟩
    · exact ⟨fun key host hloc => isSome_save (H.location key host hloc), H.stage,
        fun l hl host hs => isSome_save (H.serve l hl host hs)⟩
  | retrieve key =>
    cases h
    refine ⟨H.location, ?_, ?_⟩
    · intro l hl
      obtain hl | hl := List.mem_append.mp hl
      · exact H.stage l hl
      · cases List.mem_singleton.mp hl; nofun
    · intro l hl host hs
      obtain hl | hl := List.mem_append.mp hl
      · exact H.serve l hl host hs
      · cases List.mem_singleton.mp hl; cases hs
  | lookup t =>
    obtain ⟨l, stage, hl, rfl, hcase⟩ := lookup_cases h
    have hmem := List.mem_of_getElem? hl
    refine ⟨H.location, ?_, ?_⟩
    · intro l' hl'
      obtain hl' | rfl := List.mem_or_eq_of_mem_set hl'
      · exact H.stage l' hl'
      rcases hcase with ⟨_, _, _, rfl⟩ | rfl | ⟨host, hserve, ⟨_, rfl⟩ | ⟨hd, _⟩⟩
      · nofun
      · nofun
      · nofun
      · have := H.serve l hmem host hserve
        rw [hd] at this; cases this
    · intro l' hl' host hs
      obtain hl' | rfl := List.mem_or_eq_of_mem_set hl'
      · exact H.serve l' hl' host hs
      rcases hcase with ⟨_, host', hloc, rfl⟩ | rfl | ⟨_, _, ⟨_, rfl⟩ | ⟨_, rfl⟩⟩ <;> cases hs
      exact H.location l.key host hloc

/-- In the runs that publish a location only after its host has stored the chunk, a published
location is always backed by data; the first publication that comes too early breaks this. -/
theorem backed_iff_ok (dhtKey : ChunkKey → δ) {s : Swarm δ}
    (hs : Machine.Reach (step dhtKey) (Ok dhtKey) init s) :
    Backed dhtKey s ∧ ∀ a s', step dhtKey s a = some s' → (Backed dhtKey s' ↔ Ok dhtKey s a) := by
  have H : Inv dhtKey s := hs.invariant .init fun _ _ _ H hok h => inv_step H hok h
  refine ⟨H.backed, ?_⟩
  intro a s' h
  constructor
  · intro hb
    cases a with
    | publish t =>
      obtain ⟨fl, hfl, _, rfl⟩ := publish_cases h
      intro fl' hfl' key hkey
      cases Option.some.inj (hfl.symm.trans hfl')
      exact hb.1 key fl.host (by simp [setFlush, hkey])
    | _ => trivial
  · intro hok
    exact (inv_step H hok h).backed

/-- A reader gets between the DHT put and the deposit. -/
theorem exists_inexistent : ∃ s : Swarm ChunkKey,
    Machine.Reach (step id) Machine.always init s ∧
      s.location ⟨['/', 'f'], 0⟩ = some ['b', 'o', 'b'] ∧
      s.database ['b', 'o', 'b'] ⟨['/', 'f'], 0⟩ = none ∧
      s.lookups = [⟨⟨['/', 'f'], 0⟩, .inexistent⟩] := by
  refine ⟨_, .of_run [.create ⟨['/', 'f'], 0, [7]⟩, .flush 0 ['b', 'o', 'b'], .publish 0,
    .retrieve ⟨['/', 'f'], 0⟩, .lookup 0, .lookup 0] rfl, ?_, ?_, ?_⟩ <;> decide

/-- A location published after its chunk was stored, and a retrieval that follows it. -/
theorem backed_iff_ok_example : ∃ s : Swarm ChunkKey,
    Machine.Reach (step id) (Ok id) init s ∧ Backed id s ∧
      s.lookups = [⟨⟨['/', 'f'], 0⟩, .answered⟩] := by
  have h : (Machine.run (Machine.guarded (step (id : ChunkKey → ChunkKey)) Stored) init
      [.create ⟨['/', 'f'], 0, [7]⟩, .flush 0 ['b', 'o', 'b'], .deposit 0, .deposit 0, .deposit 0,
        .publish 0, .retrieve ⟨['/', 'f'], 0⟩, .lookup 0, .lookup 0]).map (fun s => s.lookups) =
      some [⟨⟨['/', 'f'], 0⟩, .answered⟩] := by decide
  obtain ⟨s, hs, hl⟩ := Option.map_eq_some_iff.mp h
  have hr : Machine.Reach (step id) (Ok id) init s :=
    (Machine.Reach.of_run_guarded _ hs).mono fun _ _ => (ok_iff_stored Function.injective_id).mpr
  exact ⟨s, hr, (backed_iff_ok id hr).1, hl⟩

end Swarm

end ColonyFS

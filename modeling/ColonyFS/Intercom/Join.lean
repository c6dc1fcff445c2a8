import ColonyFS.Xmlrpc.Harmony
import ColonyFS.Xmlrpc.Values
import ColonyFS.Lib.Machine

/-!
# Joining a swarm (`intercom/chunkserver_harmony.cpp`, `chunkserver_harmony::init`)

A chunk server gets the list of its swarm from the DHT, appends its host name to what it got and puts
the list back. Nothing tells it whether the list has changed in between. The machine interleaves the
gets and puts of any number of servers of one swarm.
-/

namespace ColonyFS

open Std Machine

abbrev ChunkserverValue := BaseValue (List Str)

namespace ChunkserverValue

variable [BinaryArchive Instruction] [BinaryArchive (List Str)]

/-- `ValueFactory<chunkserver_value>::NewPointer`. -/
def newPointer (swarm : Str) : ChunkserverValue := ⟨⟨.chunkserver, swarm⟩, []⟩

def getKey (v : ChunkserverValue) : Str := BinaryArchive.save v.instruction

def getValue (v : ChunkserverValue) : Str := BinaryArchive.save v.mapped

/-- `set_value`; `none` is `archive_exception`. -/
def setValue (v : ChunkserverValue) (value : Str) : Option ChunkserverValue :=
  (BinaryArchive.load value).map fun l => { v with mapped := l }

def append (v : ChunkserverValue) (hostname : Str) : ChunkserverValue :=
  { v with mapped := v.mapped ++ [hostname] }

variable (stringHash : Str → Nat)

/-- `get_pair`. -/
def getPair (pair : ChunkserverValue) : EStateM Stop Harmony.Service ChunkserverValue := do
  let rawValue ← Harmony.get stringHash pair.getKey
  match pair.setValue rawValue with
  | some pair => return pair
  | none => throw (.raised .archiveException)

/-- `set_pair`. -/
def setPair (pair : ChunkserverValue) : EStateM Stop Harmony.Service Unit := do
  let _ ← Harmony.put stringHash pair.getKey pair.getValue

/-- `get_pair` in the `try` block of `init`: a swarm that is missing has no servers yet. -/
def getPairOrNone (pair : ChunkserverValue) : EStateM Stop Harmony.Service ChunkserverValue :=
  fun service => match getPair stringHash pair service with
    | .error (.raised .keyMissingError) service => .ok pair service
    | r => r

end ChunkserverValue

/-- The next step of `init`. -/
inductive JoinPc where
  | getPair
  | setPair
  | joined
  /-- An exception has left `init`. -/
  | raised
  deriving DecidableEq, Repr

/-- A server that runs `init`. -/
structure Joiner where
  hostname : Str
  chunkserverInfo : ChunkserverValue
  pc : JoinPc

structure Joining where
  service : Harmony.Service
  servers : List Joiner

inductive JoinAct where
  | getPair (t : Nat)
  | setPair (t : Nat)
  deriving DecidableEq, Repr

namespace Joining

open ChunkserverValue (newPointer)

variable [BinaryArchive Instruction] [BinaryArchive (List Str)]

def start (swarm : Str) (service : Harmony.Service) (hosts : List Str) : Joining :=
  ⟨service, hosts.map fun hostname => ⟨hostname, newPointer swarm, .getPair⟩⟩

def setServer (s : Joining) (t : Nat) (server : Joiner) : Joining :=
  { s with servers := s.servers.set t server }

def step (stringHash : Str → Nat) (s : Joining) : JoinAct → Option Joining
  | .getPair t => do
    let server ← s.servers[t]?
    if server.pc ≠ .getPair then none
    else match server.chunkserverInfo.getPairOrNone stringHash s.service with
      | .ok info service => some ({ s with service := service }.setServer t
          { server with chunkserverInfo := info.append server.hostname, pc := .setPair })
      | .error _ service =>
        some ({ s with service := service }.setServer t { server with pc := .raised })
  | .setPair t => do
    let server ← s.servers[t]?
    if server.pc ≠ .setPair then none
    else match server.chunkserverInfo.setPair stringHash s.service with
      | .ok _ service =>
        some ({ s with service := service }.setServer t { server with pc := .joined })
      | .error _ service =>
        some ({ s with service := service }.setServer t { server with pc := .raised })

/-- The list that the DHT has for a swarm. -/
def members (stringHash : Str → Nat) (swarm : Str) (service : Harmony.Service) : List Str :=
  ((service[Harmony.hash stringHash (newPointer swarm).getKey]?).bind BinaryArchive.load).getD []

/-- Every name of the initial list is still there, and every server that has joined is there. -/
def NoneLost (stringHash : Str → Nat) (swarm : Str) (initial : List Str) (s : Joining) : Prop :=
  (∀ h ∈ initial, h ∈ members stringHash swarm s.service) ∧
    ∀ server ∈ s.servers, server.pc = .joined →
      server.hostname ∈ members stringHash swarm s.service

/-- The list that is put has every name of the list it replaces. -/
def Ok (stringHash : Str → Nat) (swarm : Str) (s : Joining) : JoinAct → Prop
  | .getPair _ => True
  | .setPair t => ∀ server ∈ s.servers[t]?, ∀ h ∈ members stringHash swarm s.service,
      h ∈ server.chunkserverInfo.mapped

instance (stringHash : Str → Nat) (swarm : Str) (s : Joining) :
    DecidablePred (Ok stringHash swarm s)
  | .getPair _ => inferInstanceAs (Decidable True)
  | .setPair t => inferInstanceAs (Decidable (∀ server ∈ s.servers[t]?, _))

variable {stringHash : Str → Nat} {swarm : Str} {initial hosts : List Str} {s s' : Joining}
  {server : Joiner} {act : JoinAct} {t : Nat} {h : Str}

/-! ## What a step does -/

theorem getPairOrNone_cases (service : Harmony.Service) :
    (newPointer swarm).getPairOrNone stringHash service = .ok
      ⟨⟨.chunkserver, swarm⟩, members stringHash swarm service⟩ service ∨
    (newPointer swarm).getPairOrNone stringHash service =
      .error (.raised .archiveException) service := by
  simp only [ChunkserverValue.getPairOrNone, ChunkserverValue.getPair, members]
  have hget := @Harmony.get_apply stringHash service (newPointer swarm).getKey
  cases hs : service[Harmony.hash stringHash (newPointer swarm).getKey]? with
  | none =>
    rw [hs] at hget
    left
    rw [Exec.bind_of_error hget]
    rfl
  | some value =>
    rw [hs] at hget
    rw [Exec.bind_of_ok hget, ChunkserverValue.setValue, Option.bind_some]
    cases BinaryArchive.load (τ := List Str) value with
    | none => exact .inr rfl
    | some l => exact .inl rfl

theorem members_put (l : List Str) (service : Harmony.Service) :
    members stringHash swarm (service.insert (Harmony.hash stringHash (newPointer swarm).getKey)
      (BinaryArchive.save l)) = l := by
  rw [members, ExtTreeMap.getElem?_insert_self, Option.bind_some, BinaryArchive.load_save]
  rfl

/-- A server that has read the list is done with it when it has put it back. -/
def Joined (s : Joining) (h : Str) : Prop :=
  ∃ server ∈ s.servers, server.pc = .joined ∧ server.hostname = h

/-- What a server is to put: its name, and names of the initial list and of servers that have
joined. -/
structure Pending (swarm : Str) (initial : List Str) (s : Joining) (server : Joiner) : Prop where
  instruction : server.chunkserverInfo.instruction = ⟨.chunkserver, swarm⟩
  own : server.hostname ∈ server.chunkserverInfo.mapped
  known : ∀ h ∈ server.chunkserverInfo.mapped, h = server.hostname ∨ h ∈ initial ∨ s.Joined h

structure Inv (stringHash : Str → Nat) (swarm : Str) (initial hosts : List Str) (s : Joining) :
    Prop where
  names : s.servers.map (·.hostname) = hosts
  fresh : ∀ server ∈ s.servers, server.pc = .getPair → server.chunkserverInfo = newPointer swarm
  pending : ∀ server ∈ s.servers, server.pc = .setPair → Pending swarm initial s server
  known : ∀ h ∈ members stringHash swarm s.service, h ∈ initial ∨ s.Joined h

omit [BinaryArchive Instruction] [BinaryArchive (List Str)] in
theorem Joined.setServer (H : s.Joined h) (ht : s.servers[t]? = some server)
    (hpc : server.pc ≠ .joined) (server' : Joiner) (service : Harmony.Service) :
    ({ s with service := service }.setServer t server').Joined h := by
  obtain ⟨other, hmem, hj, rfl⟩ := H
  obtain ⟨i, hi⟩ := List.mem_iff_getElem?.mp hmem
  have hne : t ≠ i := by
    rintro rfl
    cases ht.symm.trans hi
    exact hpc hj
  refine ⟨other, List.mem_iff_getElem?.mpr ⟨i, ?_⟩, hj, rfl⟩
  exact (List.getElem?_set_ne hne).trans hi

omit [BinaryArchive Instruction] [BinaryArchive (List Str)] in
theorem map_set_hostname (ht : s.servers[t]? = some server) {server' : Joiner}
    (hname : server'.hostname = server.hostname) :
    (s.servers.set t server').map (·.hostname) = s.servers.map (·.hostname) := by
  apply List.ext_getElem?
  intro i
  rw [List.map_set, hname]
  obtain rfl | hi := eq_or_ne t i
  · rw [List.getElem?_set_self', List.getElem?_map, ht]
    rfl
  · rw [List.getElem?_set_ne hi]

/-- A step of one server, seen from the others. -/
theorem Inv.setServer (H : Inv stringHash swarm initial hosts s) (ht : s.servers[t]? = some server)
    (hpc : server.pc ≠ .joined) {server' : Joiner} {service : Harmony.Service}
    (hname : server'.hostname = server.hostname) (hfresh : server'.pc ≠ .getPair)
    (hpending : server'.pc = .setPair → Pending swarm initial s server')
    (hknown : ∀ h ∈ members stringHash swarm service, h ∈ initial ∨ s.Joined h ∨
      server'.pc = .joined ∧ h = server.hostname) :
    Inv stringHash swarm initial hosts ({ s with service := service }.setServer t server') := by
  have keep : ∀ {h}, s.Joined h → ({ s with service := service }.setServer t server').Joined h :=
    fun hj => hj.setServer ht hpc server' service
  have pend : ∀ {x}, Pending swarm initial s x →
      Pending swarm initial ({ s with service := service }.setServer t server') x :=
    fun hx => ⟨hx.instruction, hx.own, fun h hh => (hx.known h hh).imp_right (·.imp_right keep)⟩
  refine ⟨(map_set_hostname ht hname).trans H.names, ?_, ?_, ?_⟩
  · intro x hx hxpc
    obtain hx | rfl := List.mem_or_eq_of_mem_set hx
    · exact H.fresh x hx hxpc
    · exact (hfresh hxpc).elim
  · intro x hx hxpc
    obtain hx | rfl := List.mem_or_eq_of_mem_set hx
    · exact pend (H.pending x hx hxpc)
    · exact pend (hpending hxpc)
  · intro h hh
    obtain hi | hj | ⟨hd, rfl⟩ := hknown h hh
    · exact .inl hi
    · exact .inr (keep hj)
    · obtain ⟨hlt, _⟩ := List.getElem?_eq_some_iff.mp ht
      exact .inr ⟨server', List.mem_set hlt server', hd, hname⟩

/-- What a step does, from a state of a run. -/
inductive Change (stringHash : Str → Nat) (swarm : Str) (s : Joining) : JoinAct → Joining → Prop where
  | read {i : Nat} {x : Joiner} : s.servers[i]? = some x → x.pc = .getPair →
      Change stringHash swarm s (.getPair i) (s.setServer i { x with
        chunkserverInfo := ⟨⟨.chunkserver, swarm⟩, members stringHash swarm s.service ++ [x.hostname]⟩
        pc := .setPair })
  | failed {i : Nat} {x : Joiner} : s.servers[i]? = some x → x.pc = .getPair →
      Change stringHash swarm s (.getPair i) (s.setServer i { x with pc := .raised })
  | wrote {i : Nat} {x : Joiner} {service : Harmony.Service} : s.servers[i]? = some x →
      x.pc = .setPair → members stringHash swarm service = x.chunkserverInfo.mapped →
      Change stringHash swarm s (.setPair i)
        ({ s with service := service }.setServer i { x with pc := .joined })

theorem change_of_step (H : Inv stringHash swarm initial hosts s)
    (hstep : step stringHash s act = some s') : Change stringHash swarm s act s' := by
  cases act with
  | getPair t =>
    obtain ⟨x, ht, hstep⟩ := Option.bind_eq_some_iff.mp hstep
    split at hstep
    · cases hstep
    · next hpc =>
      have hpc := not_not.mp hpc
      have hget : (newPointer swarm).getPairOrNone stringHash s.service = _ ∨ _ = _ :=
        getPairOrNone_cases s.service
      rw [← H.fresh x (List.mem_of_getElem? ht) hpc] at hget
      obtain hget | hget := hget
      · rw [hget] at hstep
        cases hstep
        exact .read ht hpc
      · rw [hget] at hstep
        cases hstep
        exact .failed ht hpc
  | setPair t =>
    obtain ⟨x, ht, hstep⟩ := Option.bind_eq_some_iff.mp hstep
    split at hstep
    · cases hstep
    · next hpc =>
      have hpc := not_not.mp hpc
      have hx := H.pending x (List.mem_of_getElem? ht) hpc
      have hput : x.chunkserverInfo.setPair stringHash s.service = .ok () _ :=
        Exec.bind_of_ok Harmony.put_apply
      rw [hput] at hstep
      cases hstep
      refine .wrote ht hpc ?_
      have hkey : x.chunkserverInfo.getKey = (newPointer swarm).getKey := by
        rw [ChunkserverValue.getKey, hx.instruction]
        rfl
      rw [hkey]
      exact members_put _ _

theorem Inv.step (H : Inv stringHash swarm initial hosts s)
    (hstep : Joining.step stringHash s act = some s') : Inv stringHash swarm initial hosts s' := by
  cases change_of_step H hstep with
  | @read i x ht hpc =>
    refine H.setServer ht (by rw [hpc]; nofun) rfl nofun (fun _ => ⟨rfl, by simp, ?_⟩) ?_
    · intro h hh
      obtain hh | hh := List.mem_append.mp hh
      · exact .inr (H.known h hh)
      · exact .inl (List.mem_singleton.mp hh)
    · exact fun h hh => (H.known h hh).imp_right .inl
  | @failed i x ht hpc =>
    refine H.setServer ht (by rw [hpc]; nofun) rfl nofun nofun ?_
    exact fun h hh => (H.known h hh).imp_right .inl
  | @wrote i x service ht hpc hm =>
    have hx := H.pending x (List.mem_of_getElem? ht) hpc
    refine H.setServer ht (by rw [hpc]; nofun) rfl nofun nofun ?_
    intro h hh
    rw [hm] at hh
    obtain rfl | hi | hj := hx.known h hh
    · exact .inr (.inr ⟨rfl, rfl⟩)
    · exact .inl hi
    · exact .inr (.inl hj)

theorem Inv.start (service : Harmony.Service) :
    Inv stringHash swarm (members stringHash swarm service) hosts (start swarm service hosts) where
  names := by simp [Joining.start, Function.comp_def]
  fresh server hs _ := by
    obtain ⟨h, _, rfl⟩ := List.mem_map.mp hs
    rfl
  pending server hs hpc := by
    obtain ⟨h, _, rfl⟩ := List.mem_map.mp hs
    cases hpc
  known h hh := .inl hh

/-! ## Lost names -/

theorem NoneLost.setServer (H : NoneLost stringHash swarm initial s) (t : Nat)
    (service : Harmony.Service) {server' : Joiner}
    (hs : ∀ h ∈ members stringHash swarm s.service, h ∈ members stringHash swarm service)
    (hj : server'.pc = .joined → server'.hostname ∈ members stringHash swarm service) :
    NoneLost stringHash swarm initial ({ s with service := service }.setServer t server') := by
  refine ⟨fun h hh => hs h (H.1 h hh), fun x hx hpc => ?_⟩
  obtain hx | rfl := List.mem_or_eq_of_mem_set hx
  · exact hs _ (H.2 x hx hpc)
  · exact hj hpc

theorem NoneLost.iff_ok (H : Inv stringHash swarm initial hosts s)
    (hn : NoneLost stringHash swarm initial s) (hstep : Joining.step stringHash s act = some s') :
    NoneLost stringHash swarm initial s' ↔ Ok stringHash swarm s act := by
  cases change_of_step H hstep with
  | @read i | @failed i =>
    exact iff_of_true (hn.setServer i s.service (fun _ h => h) nofun) trivial
  | @wrote i x service ht hpc hm =>
    have hx := H.pending x (List.mem_of_getElem? ht) hpc
    constructor
    · intro hn' y hy h hh
      cases ht.symm.trans hy
      rw [← hm]
      -- a name that was stored is of the initial list or has joined
      obtain hi | hj := H.known h hh
      · exact hn'.1 h hi
      · obtain ⟨z, hz, hzpc, rfl⟩ :=
          hj.setServer ht (by rw [hpc]; nofun) { x with pc := .joined } service
        exact hn'.2 z hz hzpc
    · intro hok
      refine hn.setServer i service ?_ ?_
      · intro h hh
        rw [hm]
        exact hok x ht h hh
      · intro _
        rw [hm]
        exact hx.own

/-- No name is lost in the runs whose puts replace a list by one with the same names at least, and
the first other put loses one. When all servers have joined, all names are stored. -/
theorem noneLost_iff_ok (stringHash : Str → Nat) (swarm : Str) (service : Harmony.Service)
    (hosts : List Str) (hs : Reach (Joining.step stringHash) (Ok stringHash swarm)
      (start swarm service hosts) s) :
    NoneLost stringHash swarm (members stringHash swarm service) s ∧
      ((∀ server ∈ s.servers, server.pc = .joined) →
        ∀ h, h ∈ members stringHash swarm service ∨ h ∈ hosts →
          h ∈ members stringHash swarm s.service) ∧
      ∀ act s', Joining.step stringHash s act = some s' →
        (NoneLost stringHash swarm (members stringHash swarm service) s' ↔
          Ok stringHash swarm s act) := by
  let initial := members stringHash swarm service
  have H : Inv stringHash swarm initial hosts s ∧ NoneLost stringHash swarm initial s := by
    have hstart : ∀ server ∈ (start swarm service hosts).servers, server.pc ≠ .joined := by
      intro server hmem
      obtain ⟨h, _, rfl⟩ := List.mem_map.mp hmem
      nofun
    refine Reach.invariant (P := fun s => Inv stringHash swarm initial hosts s ∧
      NoneLost stringHash swarm initial s) hs ⟨.start service, fun _ h => h, ?_⟩ ?_
    · exact fun server hmem hpc => (hstart server hmem hpc).elim
    · intro s act s' H hok hstep
      exact ⟨H.1.step hstep, (H.2.iff_ok H.1 hstep).mpr hok⟩
  obtain ⟨H, hn⟩ := H
  refine ⟨hn, ?_, fun act s' => hn.iff_ok H⟩
  rintro hall h (hi | hh)
  · exact hn.1 h hi
  · rw [← H.names] at hh
    obtain ⟨server, hmem, rfl⟩ := List.mem_map.mp hh
    exact hn.2 server hmem (hall server hmem)

end Joining

/-! ## Runs -/

namespace PlainArchive

/-- A letter in front of each character, and one at the end of each string. -/
def saveStrings (l : List Str) : Str := l.flatMap fun s => s.flatMap (['c', ·]) ++ ['e']

def loadStrings : Str → Option (List Str)
  | [] => some []
  | 'e' :: rest => (loadStrings rest).map ([] :: ·)
  | 'c' :: c :: rest => match loadStrings rest with
    | some (s :: l) => some ((c :: s) :: l)
    | _ => none
  | _ => none

theorem loadStrings_save (l : List Str) : loadStrings (saveStrings l) = some l := by
  induction l with
  | nil => rfl
  | cons s l ih =>
    rw [saveStrings, List.flatMap_cons, List.append_assoc]
    induction s with
    | nil => exact congrArg (Option.map _) ih
    | cons c s ihs =>
      rw [List.flatMap_cons]
      simp only [List.cons_append, List.nil_append, loadStrings] at ihs ⊢
      rw [ihs]

scoped instance : BinaryArchive (List Str) where
  save l := 'v' :: saveStrings l
  load
    | 'v' :: s => loadStrings s
    | _ => none
  load_save := loadStrings_save
  load_nil := rfl

end PlainArchive

namespace Joining

open ChunkserverValue (newPointer)
open scoped PlainArchive

/-- Both servers get the list before one of them has put it back. -/
theorem exists_overwritten : ∃ s, Reach (step Harmony.boostHash) always
    (start ['s'] ∅ [['a'], ['b']]) s ∧ (∀ server ∈ s.servers, server.pc = .joined) ∧
    members Harmony.boostHash ['s'] s.service = [['b']] := by
  have h : (run (step Harmony.boostHash) (start ['s'] ∅ [['a'], ['b']])
      [.getPair 0, .getPair 1, .setPair 0, .setPair 1]).map
      (fun s => (s.servers.map (·.pc), members Harmony.boostHash ['s'] s.service)) =
      some ([.joined, .joined], [['b']]) := by
    decide +kernel
  obtain ⟨s, hs, he⟩ := Option.map_eq_some_iff.mp h
  obtain ⟨hpc, hm⟩ := Prod.mk.inj he
  refine ⟨s, .of_run _ hs, ?_, hm⟩
  intro server hmem
  have hmem : server.pc ∈ s.servers.map (·.pc) := List.mem_map_of_mem hmem
  rw [hpc] at hmem
  simpa using hmem

/-- Two servers join a swarm of one, one after the other. -/
theorem noneLost_iff_ok_example : ∃ s : Joining,
    s.servers.map (·.pc) = [.joined, .joined] ∧
      NoneLost Harmony.boostHash ['s'] [['c']] s := by
  have h : (run (guarded (step Harmony.boostHash) (Ok Harmony.boostHash ['s']))
      (start ['s'] (ExtTreeMap.empty.insert
        (Harmony.hash Harmony.boostHash (newPointer ['s']).getKey)
        (BinaryArchive.save [(['c'] : Str)])) [['a'], ['b']])
      [.getPair 0, .setPair 0, .getPair 1, .setPair 1]).map (fun s => s.servers.map (·.pc)) =
      some [.joined, .joined] := by
    decide +kernel
  obtain ⟨s, hs, hpc⟩ := Option.map_eq_some_iff.mp h
  refine ⟨s, hpc, ?_⟩
  have hn := (noneLost_iff_ok Harmony.boostHash ['s'] _ _ (.of_run_guarded _ hs)).1
  rwa [members_put] at hn

end Joining

end ColonyFS

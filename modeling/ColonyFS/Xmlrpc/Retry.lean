import ColonyFS.Lib.Rpc
import ColonyFS.Xmlrpc.Harmony

/-!
# The retry loops of `put` and `get` (`xmlrpc/harmony.cpp`)

`client_.call` throws `girerr::error` when it fails, and `put` and `get` go back to `RetryPut` then,
as often as it takes. Nobody knows whether the service has executed the request of a failed call. So
a call may be executed many times, and an overtaken `put` may be executed again. Here is what is left
of the `put` and `get` of a service that is called once.
-/

namespace ColonyFS

open Machine

namespace Harmony

/-- `param_list`, but for the timeout and the commit, which are nil. -/
structure ParamList where
  type : HarmonyOperation
  op : Op

section

variable {σ : Type} (stringHash : Str → Nat)

/-- `put` behind the loop. -/
def returnPut (response : Response) : EStateM Stop σ Bool := do
  Exec.require (response.dhtErrno = 0) (.raised .dhtError)
  Exec.require (response.keyErrno = 0) (.raised .keyMissingError)
  return true

/-- `get` behind the loop. -/
def returnGet (response : Response) : EStateM Stop σ Str := do
  Exec.require (response.dhtErrno = 0) (.raised .dhtError)
  Exec.require (response.keyErrno = 0) (.raised .keyMissingError)
  return response.value.getD []

/-- `put`, with any service at the other end. -/
def putVia (method : HarmonyOperation → Op → EStateM Stop σ Response) (key value : Str) :
    EStateM Stop σ Bool := do
  let response ← method .write (generateOpValue stringHash key value)
  returnPut response

/-- `get`, with any service at the other end. -/
def getVia (method : HarmonyOperation → Op → EStateM Stop σ Response) (key : Str) :
    EStateM Stop σ Str := do
  let response ← method .read (generateOp stringHash key)
  returnGet response

/-- An execution of `METHOD_CALL`. -/
def serveVia (method : HarmonyOperation → Op → EStateM Stop σ Response) (service : σ)
    (p : ParamList) : Option (Response × σ) := Exec.result? (method p.type p.op service)

theorem put_eq (key value : Str) :
    put stringHash key value = putVia stringHash opCreate key value := rfl

theorem get_eq (key : Str) : get stringHash key = getVia stringHash opCreate key := rfl

end

/-- An execution of `METHOD_CALL` at the map. -/
def serve : Service → ParamList → Option (Response × Service) := serveVia opCreate

/-- What a request puts under an integer. -/
def ParamList.effect (h : Int) (p : ParamList) : Option Str :=
  match p.type with
  | .write => if p.op.key = h then some (p.op.value.getD []) else none
  | .read => none

variable (stringHash : Str → Nat)

/-- What `put` hands to `client_.call`. -/
def putParams (key value : Str) : ParamList := ⟨.write, generateOpValue stringHash key value⟩

def getParams (key : Str) : ParamList := ⟨.read, generateOp stringHash key⟩

variable {stringHash} {ι : Type} [DecidableEq ι] {service service' : Service} {p q : ParamList}
  {r : Response} {h : Int} {key value k : Str}
  {s s₀ s₁ s₂ : Rpc.State ι Service ParamList Response} {i : ι}

theorem opCreate_read (op : Op) (service : Service) : opCreate .read op service = .ok
    (match service[op.key]? with
      | some value => ⟨E_SUCCESS, E_SUCCESS, some value⟩
      | none => ⟨E_SUCCESS, E_NOT_FOUND, none⟩) service := by
  simp only [opCreate, bind, EStateM.bind, MonadState.get, getThe, MonadStateOf.get, EStateM.get]
  cases service[op.key]? <;> rfl

/-- An execution changes what is stored under the integer of a write, and nothing else. -/
theorem getElem?_of_serve (h : Int) (service : Service) (p : ParamList) (r : Response)
    (service' : Service) (hs : serve service p = some (r, service')) :
    service'[h]? = (p.effect h).or service[h]? := by
  obtain ⟨type, op⟩ := p
  cases type with
  | write =>
    cases hs
    rw [ParamList.effect, Std.ExtTreeMap.getElem?_insert]
    simp only [Std.compare_eq_iff_eq]
    split
    · rfl
    · rfl
  | read =>
    cases (opCreate_read op service).symm.trans (Exec.eq_ok_of_result? hs)
    rfl

section

variable {σ : Type} {method : HarmonyOperation → Op → EStateM Stop σ Response}
  {u₀ u : Rpc.State ι σ ParamList Response}
  {l : List (Rpc.Event ι ParamList × Option (ParamList × Response))}

/-- At some moment of the run the request of `i` was executed, by a step of the service that `P`
relates the states before and after. -/
def Answered (method : HarmonyOperation → Op → EStateM Stop σ Response) (i : ι)
    (u₀ : Rpc.State ι σ ParamList Response)
    (l : List (Rpc.Event ι ParamList × Option (ParamList × Response)))
    (P : σ → σ → Prop) : Prop :=
  ∃ l₁ t t' l₂, l = l₁ ++ (.serve i, none) :: l₂ ∧
    Trace (Rpc.call (serveVia method)) (fun _ e => e ≠ .finish i) u₀ l₁ t ∧
    Rpc.call (serveVia method) t (.serve i) = some (none, t') ∧ P t.service t'.service

theorem answered_of_trace (h₀ : u₀.callers i = .calling p)
    (h : Trace (Rpc.call (serveVia method)) (fun _ e => e ≠ .finish i) u₀ l u)
    (hi : u.callers i = .answered q r) :
    Answered method i u₀ l fun service service' =>
      method p.type p.op service = .ok r service' := by
  obtain ⟨_, l₁, t, t', l₂, hl, ht, hexec, hserve, _⟩ :=
    Rpc.executed_of_trace h₀ (fun _ hne => hne rfl) h hi
  exact ⟨l₁, t, t', l₂, hl, ht, hserve, Exec.eq_ok_of_result? hexec⟩

theorem Answered.imp {P Q : σ → σ → Prop} (H : Answered method i u₀ l P)
    (h : ∀ service service', P service service' → Q service service') :
    Answered method i u₀ l Q := by
  obtain ⟨l₁, t, t', l₂, hl, ht, hserve, hp⟩ := H
  exact ⟨l₁, t, t', l₂, hl, ht, hserve, h _ _ hp⟩

/-- However often a call is tried, and whatever the others do: what it returns or throws, `put` and
`get` of a service that is called once return or throw at a moment of the run between the call and
its return, and they leave in the service what was left at that moment. This is so of any service. -/
theorem retry_loop_executes (stringHash : Str → Nat)
    (method : HarmonyOperation → Op → EStateM Stop σ Response) (i : ι)
    (h : Trace (Rpc.call (serveVia method)) (fun _ e => e ≠ .finish i) u₀ l u)
    (hi : u.callers i = .answered q r) :
    (∀ key value, u₀.callers i = .calling (putParams stringHash key value) →
      Answered method i u₀ l fun service service' =>
        putVia stringHash method key value service = returnPut r service') ∧
    ∀ key, u₀.callers i = .calling (getParams stringHash key) →
      Answered method i u₀ l fun service service' =>
        getVia stringHash method key service = returnGet r service' := by
  constructor
  · intro key value h₀
    exact (answered_of_trace h₀ h hi).imp fun _ _ hop => Exec.bind_of_ok hop
  · intro key h₀
    exact (answered_of_trace h₀ h hi).imp fun _ _ hop => Exec.bind_of_ok hop

end

/-- The answer to the first attempt of a put is lost. -/
theorem retry_loop_executes_example : ∃ (u : Rpc.State Bool Service ParamList Response)
    (l : List (Rpc.Event Bool ParamList × Option (ParamList × Response))) (r : Response),
    u.callers true = .answered (putParams boostHash ['a'] ['1']) r ∧ u.service.size = 1 ∧
      Answered opCreate true ⟨∅, fun _ => .calling (putParams boostHash ['a'] ['1']), []⟩ l
        fun service service' => put boostHash ['a'] ['1'] service = returnPut r service' := by
  let p := putParams boostHash ['a'] ['1']
  let u₀ : Rpc.State Bool Service ParamList Response := ⟨∅, fun _ => .calling p, []⟩
  let events : List (Rpc.Event Bool ParamList) :=
    [.send true, .serve true, .fail true false, .send true, .serve true]
  obtain ⟨l, u, r, hplay, hr, hsize⟩ : ∃ l u r,
      play (Rpc.call serve) Machine.always u₀ events = some (l, u) ∧
      u.callers true = .answered p r ∧ u.service.size = 1 := ⟨_, _, _, rfl, rfl, rfl⟩
  obtain ⟨htrace, hl⟩ := Trace.of_play hplay
  have hne : Trace (Rpc.call serve) (fun _ e => e ≠ .finish true) u₀ l u :=
    htrace.admit (by simp [hl, events])
  exact ⟨u, l, r, hr, hsize, (retry_loop_executes boostHash opCreate true hne hr).1 ['a'] ['1'] rfl⟩

/-! ## Puts that do not overlap -/

/-- A run in which no put under `h` begins before the last one has returned and its failed attempts
have come to nothing. -/
def SoloPuts (h : Int) : Rpc.State ι Service ParamList Response → Rpc.Event ι ParamList → Prop :=
  Rpc.Solo (ParamList.effect h)

instance [Fintype ι] (h : Int) (s : Rpc.State ι Service ParamList Response)
    (e : Rpc.Event ι ParamList) : Decidable (SoloPuts h s e) :=
  inferInstanceAs (Decidable (Rpc.Solo ..))

/-- No put under `h` begins, and the call of `i` does not return. -/
def NoPut (h : Int) (i : ι) (_ : Rpc.State ι Service ParamList Response)
    (e : Rpc.Event ι ParamList) : Prop :=
  Rpc.Unwritten (ParamList.effect h) e ∧ e ≠ .finish i

/-- What `get` does with the answer to a read. -/
theorem returnGet_of_read (hop : opCreate .read (generateOp stringHash key) service =
    .ok r service') (u : Service) : returnGet r u =
      match service[hash stringHash key]? with
      | some value => .ok value u
      | none => .error (.raised .keyMissingError) u := by
  cases (opCreate_read _ service).symm.trans hop
  cases hv : service[hash stringHash key]? with
  | some value =>
    have hv : service[(generateOp stringHash key).key]? = some value := hv
    rw [hv]
    rfl
  | none =>
    have hv : service[(generateOp stringHash key).key]? = none := hv
    rw [hv]
    rfl

/-- While puts under an integer do not overlap, the service has the value of the last one that has
returned, or of the one that is under way. When none is under way, and until the next one begins,
every `get` returns the value of the last put that has returned. -/
theorem returned_put_stands (stringHash : Str → Nat) (k : Str) (service : Service)
    {l : List (Rpc.Event ι ParamList × Option (ParamList × Response))}
    (h : Trace (Rpc.call serve) (SoloPuts (hash stringHash k)) (Rpc.init service) l s) :
    let last := Rpc.lastReturned (ParamList.effect (hash stringHash k))
      service[hash stringHash k]? l
    (s.service[hash stringHash k]? = last ∨
      ∃ i value, Rpc.Writing (ParamList.effect (hash stringHash k)) s i value ∧
        s.service[hash stringHash k]? = some value) ∧
    (Rpc.Settled (ParamList.effect (hash stringHash k)) s → ∀ i s₁ s₂ r,
      Reach (Rpc.step serve) (fun _ e => Rpc.Unwritten (ParamList.effect (hash stringHash k)) e)
        s s₁ →
      s₁.callers i = .calling (getParams stringHash k) →
      Reach (Rpc.step serve) (NoPut (hash stringHash k) i) s₁ s₂ →
      s₂.callers i = .answered (getParams stringHash k) r → ∀ u : Service, returnGet r u =
        match last with
        | some value => .ok value u
        | none => .error (.raised .keyMissingError) u) := by
  intro last
  have hexec := getElem?_of_serve (hash stringHash k)
  have H := Rpc.regular_of_trace hexec h
  refine ⟨H.value, ?_⟩
  intro hset i s₁ s₂ r h₁ hi h₂ hr u
  obtain ⟨hset₁, hval₁⟩ := Rpc.settled_of_reach hexec (fun _ _ h => h) hset h₁
  obtain ⟨l₂, htrace⟩ := Trace.of_reach h₂
  obtain ⟨_, _, t, t', _, _, ht, hex, _⟩ :=
    Rpc.executed_of_trace hi (fun _ hne => hne.2 rfl) htrace hr
  obtain ⟨_, hvalt⟩ := Rpc.settled_of_reach hexec (fun _ _ h => h.1) hset₁ ht.reach
  have hlast : s.service[hash stringHash k]? = last := by
    rcases H.value with hv | ⟨j, v, hj, _⟩
    · exact hv
    · exact (hset.1 j v hj).elim
  have hget := returnGet_of_read (Exec.eq_ok_of_result? hex) u
  rw [hvalt, hval₁, hlast] at hget
  exact hget

/-- The first attempt of a put comes to nothing, and a get follows the second one. -/
theorem returned_put_stands_example : ∃ (s : Rpc.State Bool Service ParamList Response)
    (r : Response), s.callers false = .answered (getParams boostHash ['a']) r ∧
      ∀ u : Service, returnGet r u = .ok ['1'] u := by
  let p := putParams boostHash ['a'] ['1']
  let puts : List (Rpc.Event Bool ParamList) := [.start true p, .send true, .fail true false,
    .send true, .serve true, .finish true]
  let h := hash boostHash ['a']
  let get := getParams boostHash ['a']
  obtain ⟨l, s, s₁, s₂, r, hplay, h₁, hi, h₂, hr, hlast, hset⟩ : ∃ l s s₁ s₂ r,
      play (Rpc.call serve) (SoloPuts h) (Rpc.init ∅) puts = some (l, s) ∧
        run (Rpc.step serve) s [.start false get] = some s₁ ∧ s₁.callers false = .calling get ∧
        run (Rpc.step serve) s₁ [.send false, .serve false] = some s₂ ∧
        s₂.callers false = .answered get r ∧
        Rpc.lastReturned (ParamList.effect h) none l = some ['1'] ∧
        Rpc.Settled (ParamList.effect h) s :=
    ⟨_, _, _, _, _, rfl, rfl, rfl, rfl, rfl, by decide +kernel, by decide +kernel⟩
  have hnone : ∀ e ∈ ([.start false get] : List (Rpc.Event Bool ParamList)),
      ∀ _ : Rpc.State Bool Service ParamList Response, Rpc.Unwritten (ParamList.effect h) e := by
    simp [Rpc.Unwritten, get, getParams, ParamList.effect]
  have hnone' : ∀ e ∈ ([.send false, .serve false] : List (Rpc.Event Bool ParamList)),
      ∀ s : Rpc.State Bool Service ParamList Response, NoPut h false s e := by
    simp [NoPut, Rpc.Unwritten]
  have hget := (returned_put_stands boostHash ['a'] ∅ (Trace.of_play hplay).1).2 hset false s₁ s₂ r
    (.of_run_forall _ hnone h₁) hi (.of_run_forall _ hnone' h₂) hr
  refine ⟨s₂, r, hr, fun u => ?_⟩
  have hempty : (∅ : Service)[h]? = none := by simp
  have hget := hget u
  rw [hempty, hlast] at hget
  exact hget

end Harmony

end ColonyFS

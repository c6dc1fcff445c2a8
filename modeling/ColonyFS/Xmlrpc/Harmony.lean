import ColonyFS.Cache.Cache

/-!
# The DHT (`xmlrpc/harmony.hpp`, `harmony.cpp`)

`put` and `get` send a key to the Harmony service as an integer, the lower 16 bits of its
`boost::hash`. The service is taken to be a correct map from these integers, so the loops that retry
a call after a network error run once. The hash function is a parameter: what is proved holds for
all of them.
-/

namespace ColonyFS

open Std

namespace Harmony

inductive HarmonyOperation where
  | read
  | write
  deriving DecidableEq, Repr

def E_SUCCESS : Int := 0

def E_NOT_FOUND : Int := 8

/-- The operand of a request: `XML_KEY_TAG`, and `XML_VALUE_TAG` in a write. -/
structure Op where
  key : Int
  value : Option Str

/-- The array that a request is answered with, of which `put` and `get` look at the error of the
request, the `XML_ERROR_TAG` and the `XML_VALUE_TAG` of the operand. -/
structure Response where
  dhtErrno : Int
  keyErrno : Int
  value : Option Str

/-- What the service stores. -/
abbrev Service := ExtTreeMap Int Str

/-- `METHOD_CALL` at the service. -/
def opCreate (type : HarmonyOperation) (op : Op) : EStateM Stop Service Response := do
  match type with
  | .write =>
    modify fun service => service.insert op.key (op.value.getD [])
    return ⟨E_SUCCESS, E_SUCCESS, none⟩
  | .read =>
    match (← get)[op.key]? with
    | some value => return ⟨E_SUCCESS, E_SUCCESS, some value⟩
    | none => return ⟨E_SUCCESS, E_NOT_FOUND, none⟩

variable (stringHash : Str → Nat)

/-- `const int hash = (unsigned short) string_hash(key)`. -/
def hash (key : Str) : Int := (stringHash key % 2 ^ 16 : Nat)

/-- `generate_op(key)`. -/
def generateOp (key : Str) : Op := ⟨hash stringHash key, none⟩

/-- `generate_op(key, value)`. -/
def generateOpValue (key value : Str) : Op := { generateOp stringHash key with value := some value }

def put (key value : Str) : EStateM Stop Service Bool := do
  let response ← opCreate .write (generateOpValue stringHash key value)
  Exec.require (response.dhtErrno = 0) (.raised .dhtError)
  Exec.require (response.keyErrno = 0) (.raised .keyMissingError)
  return true

/-- `get`, and `getv`, which differs in the type of the bytes it returns. -/
def get (key : Str) : EStateM Stop Service Str := do
  let response ← opCreate .read (generateOp stringHash key)
  Exec.require (response.dhtErrno = 0) (.raised .dhtError)
  Exec.require (response.keyErrno = 0) (.raised .keyMissingError)
  return response.value.getD []

variable {stringHash} {service : Service} {key k k' value v' : Str} {puts : List (Str × Str)}

theorem put_apply : put stringHash key value service =
    .ok true (service.insert (hash stringHash key) value) := rfl

theorem get_apply : get stringHash key service =
    match service[hash stringHash key]? with
    | some value => .ok value service
    | none => .error (.raised .keyMissingError) service := by
  have hop : opCreate .read (generateOp stringHash key) service = .ok
      (match service[hash stringHash key]? with
        | some value => ⟨E_SUCCESS, E_SUCCESS, some value⟩
        | none => ⟨E_SUCCESS, E_NOT_FOUND, none⟩) service := by
    simp only [opCreate, bind, EStateM.bind, MonadState.get, getThe, MonadStateOf.get, EStateM.get,
      generateOp]
    cases service[hash stringHash key]? <;> rfl
  rw [get, Exec.bind_of_ok hop]
  cases service[hash stringHash key]? <;> rfl

/-! ## Histories of puts -/

/-- A history of puts, oldest first. -/
def putAll (stringHash : Str → Nat) : List (Str × Str) → EStateM Stop Service Unit
  | [] => pure ()
  | (key, value) :: puts => do
    let _ ← put stringHash key value
    putAll stringHash puts

/-- What `get` answers after a history that starts at an empty service. -/
def answer (stringHash : Str → Nat) (puts : List (Str × Str)) (k : Str) : Except Stop Str :=
  match (do putAll stringHash puts; get stringHash k) ∅ with
  | .ok value _ => .ok value
  | .error e _ => .error e

/-- The newest put of a history under a key with a property. -/
def newest (p : Str → Bool) (puts : List (Str × Str)) : Option (Str × Str) :=
  puts.reverse.find? fun q => p q.1

/-- The newest put under `k` itself. -/
def newestPut (puts : List (Str × Str)) (k : Str) : Option (Str × Str) :=
  newest (fun key => key = k) puts

/-- The newest put under a key that `k` shares its integer with. -/
def newestHashed (stringHash : Str → Nat) (puts : List (Str × Str)) (k : Str) :
    Option (Str × Str) :=
  newest (fun key => hash stringHash key = hash stringHash k) puts

/-- If the newest put that reached the integer of `k` was made under another key, it put the value
that was last put under `k`. -/
def Undisturbed (stringHash : Str → Nat) (puts : List (Str × Str)) (k : Str) : Prop :=
  ∀ q, newestHashed stringHash puts k = some q →
    q.1 ≠ k → (newestPut puts k).map (·.2) = some q.2

theorem newest_concat {p : Str → Bool} :
    newest p (puts ++ [(key, value)]) = if p key then some (key, value) else newest p puts := by
  simp only [newest, List.reverse_append, List.reverse_singleton, List.singleton_append,
    List.find?_cons]
  cases p key <;> rfl

theorem putAll_apply : putAll stringHash puts service =
    .ok () (puts.foldl (fun s q => s.insert (hash stringHash q.1) q.2) service) := by
  induction puts generalizing service with
  | nil => rfl
  | cons q puts ih => exact (Exec.bind_of_ok put_apply).trans ih

/-- The service holds the value of the newest put with that integer. -/
theorem getElem?_foldl_insert : (puts.foldl (fun s q => s.insert (hash stringHash q.1) q.2)
    (∅ : Service))[hash stringHash k]? = (newestHashed stringHash puts k).map (·.2) := by
  induction puts using List.reverseRecOn with
  | nil => simp [newestHashed, newest]
  | append_singleton puts q ih =>
    rw [List.foldl_concat, ExtTreeMap.getElem?_insert, newestHashed, newest_concat]
    simp only [Std.compare_eq_iff_eq, decide_eq_true_eq]
    split
    · rfl
    · exact ih

theorem answer_eq : answer stringHash puts k =
    match (newestHashed stringHash puts k).map (·.2) with
    | some value => .ok value
    | none => .error (.raised .keyMissingError) := by
  rw [answer, Exec.bind_of_ok putAll_apply, get_apply, getElem?_foldl_insert]
  cases newestHashed stringHash puts k <;> rfl

theorem answer_eq_iff {o : Option Str} :
    (answer stringHash puts k = match o with
      | some value => .ok value
      | none => .error (.raised .keyMissingError)) ↔
    (newestHashed stringHash puts k).map (·.2) = o := by
  rw [answer_eq]
  cases (newestHashed stringHash puts k).map (·.2) <;> cases o <;> simp

/-- The newest put that reached the integer of `k` is the newest put under `k`, if it is one. -/
theorem newestPut_of_newestHashed {q : Str × Str} (h : newestHashed stringHash puts k = some q)
    (hk : q.1 = k) : newestPut puts k = some q := by
  induction puts using List.reverseRecOn with
  | nil => cases h
  | append_singleton puts r ih =>
    rw [newestHashed, newest_concat] at h
    rw [newestPut, newest_concat]
    by_cases hr : r.1 = k
    · rw [if_pos (by simp [hr])] at h ⊢; exact h
    · split at h
      · cases h; exact (hr hk).elim
      · rw [if_neg (by simpa using hr)]; exact ih h

theorem newestPut_eq_none (h : newestHashed stringHash puts k = none) :
    newestPut puts k = none := by
  simp only [newestHashed, newestPut, newest, List.find?_eq_none, decide_eq_true_eq] at h ⊢
  exact fun q hq hk => h q hq (hk ▸ rfl)

/-- `get` is the newest put of its key, or `key_missing_error` if there is none, if and only if no
other key with the same integer came in between with another value; and a put leaves what `get`
returns for a key alone if and only if the integers differ or its value is there already. -/
theorem answer_isolated_iff (stringHash : Str → Nat) (puts : List (Str × Str))
    (k k' v' : Str) :
    ((answer stringHash puts k = match (newestPut puts k).map (·.2) with
      | some value => .ok value
      | none => .error (.raised .keyMissingError)) ↔ Undisturbed stringHash puts k) ∧
    (answer stringHash (puts ++ [(k', v')]) k = answer stringHash puts k ↔
      (hash stringHash k' = hash stringHash k →
        (newestHashed stringHash puts k).map (·.2) = some v')) := by
  constructor
  · rw [answer_eq_iff]
    cases h : newestHashed stringHash puts k with
    | none => simp [Undisturbed, h, newestPut_eq_none h]
    | some q =>
      by_cases hk : q.1 = k
      · simp [Undisturbed, h, newestPut_of_newestHashed h hk, hk]
      · simp only [Undisturbed, h, Option.map_some, Option.some.injEq, forall_eq', ne_eq, hk,
          not_false_eq_true, true_imp_iff]
        exact eq_comm
  · have hputs : answer stringHash puts k = _ := answer_eq
    rw [hputs, answer_eq_iff, newestHashed, newest_concat]
    simp only [decide_eq_true_eq]
    split
    · next h => simp [h, eq_comm]
    · next h => simp [h, newestHashed]

/-- `boost::hash<std::string>` where `size_t` has 64 bits. -/
def boostHash (s : Str) : Nat :=
  s.foldl (fun seed c =>
    seed ^^^ ((c.toNat + 0x9e3779b9 + seed * 2 ^ 6 + seed / 2 ^ 2) % 2 ^ 64)) 0

/-- Two keys with the same integer: the second put is what `get` returns for the first key. -/
theorem answer_overwritten :
    answer boostHash [(['a', 'o'], ['1']), (['b', '0'], ['2'])] ['a', 'o'] = .ok ['2'] ∧
      answer boostHash [(['a', 'o'], ['1'])] ['b', '0'] = .ok ['1'] := by
  decide +kernel

end Harmony

end ColonyFS

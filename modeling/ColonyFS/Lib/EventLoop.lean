import Mathlib
import ColonyFS.Lib.Machine
import ColonyFS.Lib.Exec

/-!
# Objects with asynchronous operations

A process owns objects and starts operations on them. When an operation has ended, it is no longer
under way, its result is in the data of the object, and the process runs the code that waited for
it, which may start other operations, make objects, or stop the process. `single_step`: where that
code starts at most one operation, on the object whose operation ended, no object ever has two
operations under way.
-/

namespace EventLoop

/-- An object with its data and the operations under way on it. -/
structure Object (γ ο : Type) where
  data : γ
  pending : List ο

structure Loop (σ γ ο : Type) where
  objects : List (Object γ ο)
  state : σ

/-- A loop that runs, or has been stopped by a fault. -/
structure Process (φ σ γ ο : Type) where
  loop : Loop σ γ ο
  fault : Option φ

/-- Which operation of which object ends, and with what result. -/
structure Completion (ε : Type) where
  object : Nat
  op : Nat
  result : ε
  deriving DecidableEq, Repr

variable {φ σ γ ο ε : Type}

/-- What a type of objects and a program are to the loop. -/
structure Program (φ σ γ ο ε : Type) where
  /-- The results that an operation can have. -/
  admits : ο → ε → Bool
  /-- The data of an object after an operation. -/
  settle : γ → ο → ε → γ
  /-- The code that waited for an operation of an object. -/
  run : Nat → γ → ο → ε → EStateM φ (Loop σ γ ο) Unit

def finish : EStateM.Result φ (Loop σ γ ο) Unit → Process φ σ γ ο
  | .ok _ loop => ⟨loop, none⟩
  | .error fault loop => ⟨loop, some fault⟩

/-- The operation that ends, if there is one with such a result. -/
def Process.ending (prog : Program φ σ γ ο ε) (p : Process φ σ γ ο) (c : Completion ε) :
    Option (Object γ ο × ο) :=
  if p.fault.isSome then none
  else p.loop.objects[c.object]?.bind fun object => (object.pending[c.op]?).bind fun op =>
    if prog.admits op c.result then some (object, op) else none

/-- The loop when the operation is no longer under way. -/
def Process.settled (prog : Program φ σ γ ο ε) (p : Process φ σ γ ο) (c : Completion ε)
    (object : Object γ ο) (op : ο) : Loop σ γ ο :=
  let object := ⟨prog.settle object.data op c.result, object.pending.eraseIdx c.op⟩
  { p.loop with objects := p.loop.objects.set c.object object }

def Program.step (prog : Program φ σ γ ο ε) (p : Process φ σ γ ο) (c : Completion ε) :
    Option (Process φ σ γ ο) :=
  (p.ending prog c).map fun (object, op) =>
    finish (prog.run c.object (prog.settle object.data op c.result) op c.result
      (p.settled prog c object op))

/-- Change an object. -/
def change (i : Nat) (f : Object γ ο → Object γ ο) : EStateM φ (Loop σ γ ο) Unit :=
  modify fun loop => { loop with objects := loop.objects.modify i f }

/-- Make an object. -/
def create (object : Object γ ο) : EStateM φ (Loop σ γ ο) Unit :=
  modify fun loop => { loop with objects := loop.objects ++ [object] }

/-! ## One operation at a time -/

/-- At most one operation is under way, and the data are as it needs them. -/
structure Object.Single (good : γ → ο → Prop) (object : Object γ ο) : Prop where
  length_le : object.pending.length ≤ 1
  good : ∀ op ∈ object.pending, good object.data op

/-- The object has one operation more at most, and the new objects have at most one. -/
def Chains (good : γ → ο → Prop) (i : Nat) (os os' : List (Object γ ο)) : Prop :=
  ∃ f new, os' = os.modify i f ++ new ∧
    (∀ object : Object γ ο, object.pending = [] → (f object).Single good) ∧
    ∀ object ∈ new, object.Single good

variable {prog : Program φ σ γ ο ε} {good : γ → ο → Prop} {p p' : Process φ σ γ ο}
  {c : Completion ε} {i j : Nat} {os os' : List (Object γ ο)} {object : Object γ ο} {op : ο}

theorem Object.Single.of_nil (h : object.pending = []) : object.Single good :=
  ⟨by rw [h]; exact Nat.zero_le 1, by rw [h]; exact List.forall_mem_nil _⟩

theorem Chains.refl (good : γ → ο → Prop) (i : Nat) (os : List (Object γ ο)) :
    Chains good i os os :=
  ⟨id, [], by rw [List.modify_id, List.append_nil], fun _ => .of_nil, List.forall_mem_nil _⟩

theorem Chains.of_change {f : Object γ ο → Object γ ο}
    (h : ∀ object : Object γ ο, object.pending = [] → (f object).Single good) :
    Chains good i os (os.modify i f) :=
  ⟨f, [], (List.append_nil _).symm, h, List.forall_mem_nil _⟩

theorem Chains.concat (h : Chains good i os os') (hs : object.Single good) :
    Chains good i os (os' ++ [object]) := by
  obtain ⟨f, new, rfl, hf, hnew⟩ := h
  refine ⟨f, new ++ [object], List.append_assoc .., hf, ?_⟩
  exact List.forall_mem_append.mpr ⟨hnew, List.forall_mem_singleton.mpr hs⟩

theorem Process.ending_eq_some (h : p.ending prog c = some (object, op)) : p.fault = none ∧
    p.loop.objects[c.object]? = some object ∧ object.pending[c.op]? = some op ∧
    prog.admits op c.result := by
  rw [ending] at h
  split at h
  · cases h
  · next hfault =>
    obtain ⟨o, ho, h⟩ := Option.bind_eq_some_iff.mp h
    obtain ⟨q, hq, h⟩ := Option.bind_eq_some_iff.mp h
    split at h
    · next hadm =>
      cases h
      exact ⟨by simpa using hfault, ho, hq, hadm⟩
    · cases h

/-- An operation that is alone under way can end. -/
theorem Process.ending_of_pending (prog : Program φ σ γ ο ε) {r : ε} (hf : p.fault = none)
    (hobj : p.loop.objects[i]? = some object) (hops : object.pending = [op])
    (hadm : prog.admits op r = true) : p.ending prog ⟨i, 0, r⟩ = some (object, op) := by
  have hop : object.pending[0]? = some op := by rw [hops, List.getElem?_cons_zero]
  simp only [ending, hf, Option.isSome_none, Bool.false_eq_true, if_false, hobj, Option.bind_some,
    hop, if_pos hadm]

/-- What a step does. -/
theorem step_cases (h : prog.step p c = some p') : ∃ object op,
    p.ending prog c = some (object, op) ∧
    p' = finish (prog.run c.object (prog.settle object.data op c.result) op c.result
      (p.settled prog c object op)) := by
  obtain ⟨⟨object, op⟩, hend, rfl⟩ := Option.map_eq_some_iff.mp h
  exact ⟨object, op, hend, rfl⟩

@[simp] theorem loop_finish (r : EStateM.Result φ (Loop σ γ ο) Unit) :
    (finish r).loop = Exec.final r := by cases r <;> rfl

/-- The only operation of an object that has one. -/
theorem Object.Single.eq (h : object.Single good) {n : Nat} (hop : object.pending[n]? = some op) :
    object.pending = [op] ∧ object.pending.eraseIdx n = [] := by
  obtain ⟨hn, hop⟩ := List.getElem?_eq_some_iff.mp hop
  have hlen := h.length_le
  obtain ⟨q, hq⟩ := List.length_eq_one_iff.mp (by omega : object.pending.length = 1)
  have hn : n = 0 := by omega
  subst hn
  simp_all

/-- The code that waited for an operation chains at most one other to it. -/
def Program.OneByOne (prog : Program φ σ γ ο ε) (good : γ → ο → Prop) : Prop :=
  ∀ i data op result loop, Chains good i loop.objects
    (Exec.final (prog.run i data op result loop)).objects

theorem single_step (hprog : prog.OneByOne good) (H : ∀ object ∈ p.loop.objects, object.Single good)
    (h : prog.step p c = some p') : ∀ object ∈ p'.loop.objects, object.Single good := by
  obtain ⟨object, op, hend, rfl⟩ := step_cases h
  obtain ⟨-, hobj, hop, -⟩ := Process.ending_eq_some hend
  obtain ⟨-, herase⟩ := (H object (List.mem_of_getElem? hobj)).eq hop
  obtain ⟨f, new, heq, hf, hnew⟩ := hprog c.object (prog.settle object.data op c.result) op c.result
    (p.settled prog c object op)
  intro x hx
  rw [loop_finish, heq, List.mem_append, Process.settled, herase] at hx
  rcases hx with hx | hx
  · obtain ⟨j, hj⟩ := List.mem_iff_getElem?.mp hx
    rw [List.getElem?_modify, List.getElem?_set] at hj
    by_cases hij : c.object = j
    · have hlt := (List.getElem?_eq_some_iff.mp hobj).1
      simp only [hij, if_true, hij ▸ hlt, Option.map_eq_map, Option.map_some, Option.some_inj] at hj
      rw [← hj]
      exact hf _ rfl
    · simp only [hij, if_false, Option.map_eq_map, Option.map_id'] at hj
      exact H x (List.mem_of_getElem? hj)
  · exact hnew x hx

/-- A step leaves the other objects alone. -/
theorem frame_step (hprog : prog.OneByOne good) (h : prog.step p c = some p')
    (hj : j ≠ c.object) (hobj : p.loop.objects[j]? = some object) :
    p'.loop.objects[j]? = some object := by
  obtain ⟨o, op, -, rfl⟩ := step_cases h
  rw [loop_finish]
  obtain ⟨f, new, heq, -, -⟩ := hprog c.object (prog.settle o.data op c.result) op c.result
    (p.settled prog c o op)
  have hlt := (List.getElem?_eq_some_iff.mp hobj).1
  rw [heq, Process.settled, List.getElem?_append_left (by simpa using hlt), List.getElem?_modify,
    List.getElem?_set, if_neg hj.symm, hobj]
  simp only [if_neg hj.symm, Option.map_eq_map, Option.map_some]

/-! ## How many operations of a kind are under way -/

/-- The number of operations under way that meet `k`. -/
def countPending (k : ο → Bool) (os : List (Object γ ο)) : Nat :=
  (os.map fun object => object.pending.countP k).sum

variable {k : ο → Bool}

theorem countPending_append (os os' : List (Object γ ο)) :
    countPending k (os ++ os') = countPending k os + countPending k os' := by
  rw [countPending, List.map_append, List.sum_append]
  rfl

theorem countPending_set (h : os[i]? = some object) (x : Object γ ο) :
    countPending k (os.set i x) + object.pending.countP k =
      countPending k os + x.pending.countP k := by
  induction os generalizing i with
  | nil => cases h
  | cons o os ih =>
    cases i with
    | zero =>
      cases h
      simp only [List.set_cons_zero, countPending, List.map_cons, List.sum_cons]
      omega
    | succ i =>
      have := ih (i := i) h
      simp only [List.set_cons_succ, countPending, List.map_cons, List.sum_cons] at this ⊢
      omega

theorem countPending_modify {f : Object γ ο → Object γ ο}
    (h : ∀ object : Object γ ο, (f object).pending.countP k = object.pending.countP k) :
    countPending k (os.modify i f) = countPending k os := by
  induction os generalizing i with
  | nil => rw [List.modify_nil]
  | cons o os ih =>
    cases i with
    | zero => simp only [List.modify_zero_cons, countPending, List.map_cons, h]
    | succ i =>
      have := ih (i := i)
      simp only [countPending] at this
      simp only [List.modify_succ_cons, countPending, List.map_cons, List.sum_cons, this]

/-- What is under way when an operation has ended. -/
theorem countPending_settled (hs : object.Single good)
    (hend : p.ending prog c = some (object, op)) :
    countPending k (p.settled prog c object op).objects + (if k op then 1 else 0) =
      countPending k p.loop.objects := by
  obtain ⟨-, hobj, hop, -⟩ := Process.ending_eq_some hend
  obtain ⟨hone, herase⟩ := hs.eq hop
  have hset := countPending_set (k := k) hobj
    ⟨prog.settle object.data op c.result, object.pending.eraseIdx c.op⟩
  rw [herase, hone, List.countP_singleton] at hset
  simpa only [Process.settled, herase, List.countP_nil, Nat.add_zero] using hset

end EventLoop

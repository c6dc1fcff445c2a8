import ColonyFS.Cache.BasicCache
import ColonyFS.Lib.Exec

/-!
# The write-back cache (`cache/cache.hpp`)

`operator()` reads through: on a miss the policy's `PreRead` fetches the value. `operator[]` makes
an empty value on a miss and always marks the entry dirty. `invalidate(key)` hands a dirty entry to
`OnFlush` and clears its mark. A policy acts on an environment `σ` of its own (the DHT, the
network), and each of its methods may throw.

The lock of `mutex_map_` is scoped to one call and does not appear here. The lock that `operator()`
takes through `CV` on a miss is never released, so the state keeps the set of the held ones.
-/

namespace ColonyFS

open Std

/-- The exceptions that can cross a cache (`exceptions.hpp`, `xmlrpc/harmony.hpp`, Boost). -/
inductive Exn where
  | lookupE
  | keyMissingError
  | dhtError
  | archiveException
  | systemError
  deriving DecidableEq, Repr

/-- Why a call does not return. -/
inductive Stop where
  | raised (e : Exn)
  /-- A `BOOST_ASSERT` fails. -/
  | assertion
  /-- The behaviour is undefined: an access outside a buffer or through a dangling pointer. -/
  | undefined
  /-- The thread waits for a mutex that nobody releases. -/
  | blocked
  deriving DecidableEq, Repr

/-- The policy argument of `cache`. `PreRead` fills the value it is given. -/
structure Policy (τ σ : Type) where
  preRead : τ → EStateM Stop σ τ
  onErase : τ → EStateM Stop σ Unit
  onFlush : τ → EStateM Stop σ Unit

/-- `PreRead` fills a value but does not change its key. -/
def Policy.KeepsKey {κ τ σ : Type} [CacheValue κ τ] (P : Policy τ σ) : Prop :=
  ∀ v w s s', P.preRead v s = .ok w s' → CacheValue.getKey w = CacheValue.getKey v

/-- `PreRead` does not throw the `lookup_e` that `truncate` catches. -/
def Policy.NoLookupE {τ σ : Type} (P : Policy τ σ) : Prop :=
  ∀ v s s', P.preRead v s ≠ .error (.raised .lookupE) s'

structure Cache (κ τ : Type) [Ord κ] where
  /-- `cache_impl_`. -/
  impl : BasicCache κ τ
  /-- The keys whose `CV` mutex is held. -/
  cv : ExtTreeSet κ

abbrev CacheM (κ τ σ : Type) [Ord κ] := EStateM Stop (Cache κ τ × σ)

namespace Cache

variable {κ τ σ α : Type} [Ord κ] [TransOrd κ] [CacheValue κ τ]

def empty : Cache κ τ := ⟨.empty, ∅⟩

/-- The key under which `basic_cache` files the value made for `key`. -/
def slot (τ : Type) [CacheValue κ τ] (key : κ) : κ :=
  CacheValue.getKey (CacheValue.newPointer key : τ)

/-- Run a method of the policy. -/
def withEnv (x : EStateM Stop σ α) : CacheM κ τ σ α := fun (c, env) =>
  match x env with
  | .ok a env => .ok a (c, env)
  | .error e env => .error e (c, env)

/-- Dereference a handle. -/
def deref (p : Ptr) : CacheM κ τ σ τ := do
  match (← get).1.impl.heap p with
  | some v => return v
  | none => throw .undefined

/-- Assign through a handle. -/
def assign (p : Ptr) (v : τ) : CacheM κ τ σ Unit :=
  modify fun (c, env) => ({ c with impl := c.impl.assign p v }, env)

/-- `CV::Instance(value).lock()`. -/
def lock (key : κ) : CacheM κ τ σ Unit := do
  if key ∈ (← get).1.cv then throw .blocked
  modify fun (c, env) => ({ c with cv := c.cv.insert key }, env)

/-- `operator()`. -/
def call (P : Policy τ σ) (key : κ) : CacheM κ τ σ Ptr := do
  let value : τ := CacheValue.newPointer key
  match (← get).1.impl.read (CacheValue.getKey value) with
  | some p => return p
  | none =>
    -- Read and then insert. Not the other way around.
    let value ← withEnv (P.preRead value)
    lock (CacheValue.getKey value)
    modifyGet fun (c, env) =>
      let (p, impl) := c.impl.alloc value
      (p, { c with impl := impl.insert (CacheValue.getKey value) p }, env)

/-- `operator[]`. It does not consult the policy. -/
def subscript (c : Cache κ τ) (key : κ) : Ptr × Cache κ τ :=
  let value : τ := CacheValue.newPointer key
  let k := CacheValue.getKey value
  match c.impl.read k with
  | some p => (p, { c with impl := c.impl.setDirty k })
  | none =>
    let (p, impl) := c.impl.alloc value
    (p, { c with impl := (impl.insert k p).setDirty k })

/-- `purge(key)`. -/
def purge (P : Policy τ σ) (key : κ) : CacheM κ τ σ Unit := do
  let value : τ := CacheValue.newPointer key
  modify fun (c, env) => ({ c with impl := c.impl.erase (CacheValue.getKey value) }, env)
  withEnv (P.onErase value)

/-- `purge()`. -/
def purgeAll : CacheM κ τ σ Unit :=
  modify fun (c, env) => ({ c with impl := c.impl.clear }, env)

/-- `cache_impl_.read_dirty(value)`, the first statement of `invalidate`; `none` is
`cache_miss_e`. -/
def readDirty (key : κ) : CacheM κ τ σ (Option Ptr) := do
  return (← get).1.impl.readDirty (slot τ key)

/-- `policy_.OnFlush(value)`, the second statement. -/
def onFlush (P : Policy τ σ) (p : Ptr) : CacheM κ τ σ Unit := do
  withEnv (P.onFlush (← deref p))

/-- `cache_impl_.dirty_.erase(key)`, the third statement. It looks under the argument, not under the
key of the value. -/
def clearDirty (key : κ) : CacheM κ τ σ Unit :=
  modify fun (c, env) => ({ c with impl := c.impl.clearDirty key }, env)

/-- `invalidate(key)`. -/
def invalidate (P : Policy τ σ) (key : κ) : CacheM κ τ σ Unit := do
  match ← readDirty key with
  | none => return ()
  | some p =>
    onFlush P p
    clearDirty key

/-- The loop of `invalidate()` over entries of `dirty_`. Its assertion counts the owners of the
object, the cache and the handle that `lock` makes; a freed object has none. -/
def flushEntries (P : Policy τ σ) : List (κ × Ptr) → CacheM κ τ σ Unit
  | [] => pure ()
  | (_, p) :: entries => do
    match (← get).1.impl.heap p with
    | none => throw .assertion
    | some value => withEnv (P.onFlush value)
    flushEntries P entries

/-- `invalidate()`. `onDone` is the `OnDone` of the policy. -/
def invalidateAll (P : Policy τ σ) (onDone : EStateM Stop σ Unit) : CacheM κ τ σ Unit := do
  flushEntries P (← get).1.impl.dirty.toList
  modify fun (c, env) => ({ c with impl := c.impl.clearAllDirty }, env)
  withEnv onDone

/-! ## Specifications -/

variable {c : Cache κ τ} {env env' : σ} {P : Policy τ σ} {key k : κ} {p : Ptr}
  {v : τ}

omit [TransOrd κ] [CacheValue κ τ] in
theorem withEnv_ok {x : EStateM Stop σ α} {a : α} (h : x env = .ok a env') :
    (withEnv x : CacheM κ τ σ α) (c, env) = .ok a (c, env') := by
  simp only [withEnv, h]

omit [TransOrd κ] [CacheValue κ τ] in
theorem withEnv_error {x : EStateM Stop σ α} {e : Stop} (h : x env = .error e env') :
    (withEnv x : CacheM κ τ σ α) (c, env) = .error e (c, env') := by
  simp only [withEnv, h]

omit [TransOrd κ] [CacheValue κ τ] in
theorem final_withEnv {x : EStateM Stop σ α} :
    (Exec.final ((withEnv x : CacheM κ τ σ α) (c, env))).1 = c := by
  cases h : x env with
  | ok _ _ => rw [withEnv_ok h]; rfl
  | error _ _ => rw [withEnv_error h]; rfl

/-- A hit returns the cached object and changes nothing. -/
theorem call_hit (h : c.impl.read (slot τ key) = some p) :
    call P key (c, env) = .ok p (c, env) := by
  simp only [slot] at h
  simp [call, bind, EStateM.bind, get, getThe, MonadStateOf.get, EStateM.get, h, pure, EStateM.pure]

/-- A miss for which `PreRead` throws inserts nothing. -/
theorem call_raised (h : c.impl.read (slot τ key) = none)
    (hP : P.preRead (CacheValue.newPointer key) env = .error e env') :
    call P key (c, env) = .error e (c, env') := by
  simp only [slot] at h
  simp [call, bind, EStateM.bind, get, getThe, MonadStateOf.get, EStateM.get, h, withEnv, hP]

/-- A miss whose `CV` mutex an earlier one has left locked. -/
theorem call_blocked (h : c.impl.read (slot τ key) = none)
    (hP : P.preRead (CacheValue.newPointer key) env = .ok v env')
    (hcv : CacheValue.getKey v ∈ c.cv) :
    call P key (c, env) = .error .blocked (c, env') := by
  simp only [slot] at h
  simp [call, bind, EStateM.bind, get, getThe, MonadStateOf.get, EStateM.get, h, withEnv, hP, lock,
    hcv, throw, throwThe, MonadExceptOf.throw, EStateM.throw]

/-- A miss inserts what `PreRead` made of the value, and leaves the `CV` mutex locked. -/
theorem call_miss (h : c.impl.read (slot τ key) = none)
    (hP : P.preRead (CacheValue.newPointer key) env = .ok v env')
    (hcv : CacheValue.getKey v ∉ c.cv) :
    call P key (c, env) = .ok c.impl.next
      ({ impl := (c.impl.alloc v).2.insert (CacheValue.getKey v) c.impl.next
         cv := c.cv.insert (CacheValue.getKey v) }, env') := by
  simp only [slot] at h
  simp [call, bind, EStateM.bind, get, getThe, MonadStateOf.get, EStateM.get, h, withEnv, hP, lock,
    hcv, pure, modify, modifyGet, MonadStateOf.modifyGet, EStateM.modifyGet,
    BasicCache.alloc]

/-- What stops `operator()`. -/
theorem call_error {s : Cache κ τ × σ} (h : call P key (c, env) = .error e s) :
    e = .blocked ∨ ∃ env', P.preRead (CacheValue.newPointer key) env = .error e env' := by
  cases hr : c.impl.read (slot τ key) with
  | some p => cases (call_hit hr).symm.trans h
  | none =>
    cases hP : P.preRead (CacheValue.newPointer key) env with
    | error e env' =>
      cases (call_raised hr hP).symm.trans h
      exact .inr ⟨env', rfl⟩
    | ok v env' =>
      by_cases hcv : CacheValue.getKey v ∈ c.cv
      · cases (call_blocked hr hP hcv).symm.trans h
        exact .inl rfl
      · cases (call_miss hr hP hcv).symm.trans h

omit [TransOrd κ] [CacheValue κ τ] in
theorem deref_ok (h : c.impl.heap p = some v) :
    (deref p : CacheM κ τ σ τ) (c, env) = .ok v (c, env) := by
  simp [deref, bind, EStateM.bind, get, getThe, MonadStateOf.get, EStateM.get, h, pure,
    EStateM.pure]

/-- `purge` erases the entry first, whatever `OnErase` does then. -/
theorem purge_apply : purge P key (c, env) = withEnv (P.onErase (CacheValue.newPointer key))
    ({ c with impl := c.impl.erase (slot τ key) }, env) := rfl

theorem purge_ok (h : P.onErase (CacheValue.newPointer key) env = .ok () env') :
    purge P key (c, env) = .ok () ({ c with impl := c.impl.erase (slot τ key) }, env') := by
  rw [purge_apply, withEnv_ok h]

omit [TransOrd κ] [CacheValue κ τ] in
theorem deref_dangling (h : c.impl.heap p = none) :
    (deref p : CacheM κ τ σ τ) (c, env) = .error .undefined (c, env) := by
  simp [deref, bind, EStateM.bind, get, getThe, MonadStateOf.get, EStateM.get, h, throw,
    throwThe, MonadExceptOf.throw, EStateM.throw]

omit [TransOrd κ] [CacheValue κ τ] in
/-- An access through a handle throws nothing. -/
theorem deref_ne_raised {x : Exn} {s : Cache κ τ × σ} :
    (deref p : CacheM κ τ σ τ) (c, env) ≠ .error (.raised x) s := by
  intro h
  cases hv : c.impl.heap p with
  | none => cases (deref_dangling hv).symm.trans h
  | some v => cases (deref_ok hv).symm.trans h

omit [TransOrd κ] [CacheValue κ τ] in
theorem onFlush_apply (h : c.impl.heap p = some v) :
    onFlush P p (c, env) = withEnv (P.onFlush v) (c, env) :=
  Exec.bind_of_ok (deref_ok h)

/-- A clean entry is skipped. -/
theorem invalidate_clean (h : ¬c.impl.IsDirty (slot τ key)) :
    invalidate P key (c, env) = .ok () (c, env) := by
  have h : c.impl.readDirty (slot τ key) = none := if_neg h
  have hr : (readDirty key : CacheM κ τ σ (Option Ptr)) (c, env) = .ok none (c, env) := by
    rw [← h]; rfl
  exact Exec.bind_of_ok hr

/-- A dirty entry is handed over and cleared, if `OnFlush` returns. -/
theorem invalidate_dirty (h : c.impl.IsDirty (slot τ key)) (hp : c.impl.read (slot τ key) = some p)
    (hv : c.impl.heap p = some v) (hP : P.onFlush v env = .ok () env') :
    invalidate P key (c, env) = .ok () ({ c with impl := c.impl.clearDirty key }, env') := by
  have h : c.impl.readDirty (slot τ key) = some p := (if_pos h).trans hp
  have hf : onFlush P p (c, env) = .ok () (c, env') := by
    rw [onFlush_apply hv, withEnv_ok hP]
  have hr : (readDirty key : CacheM κ τ σ (Option Ptr)) (c, env) = .ok (some p) (c, env) := by
    rw [← h]; rfl
  simp only [invalidate]
  rw [Exec.bind_of_ok hr]
  exact Exec.bind_of_ok hf

/-- A dirty entry stays dirty if `OnFlush` throws. -/
theorem invalidate_raised (h : c.impl.IsDirty (slot τ key)) (hp : c.impl.read (slot τ key) = some p)
    (hv : c.impl.heap p = some v) (hP : P.onFlush v env = .error e env') :
    invalidate P key (c, env) = .error e (c, env') := by
  have h : c.impl.readDirty (slot τ key) = some p := (if_pos h).trans hp
  have hf : onFlush P p (c, env) = .error e (c, env') := by
    rw [onFlush_apply hv, withEnv_error hP]
  have hr : (readDirty key : CacheM κ τ σ (Option Ptr)) (c, env) = .ok (some p) (c, env) := by
    rw [← h]; rfl
  simp only [invalidate]
  rw [Exec.bind_of_ok hr]
  exact Exec.bind_of_error hf

/-- Whatever `OnFlush` does, `invalidate` can only clear the mark. -/
theorem invalidate_cache (P : Policy τ σ) (key : κ) (c : Cache κ τ) (env : σ) :
    (Exec.final (invalidate P key (c, env))).1 = c ∨
      (Exec.final (invalidate P key (c, env))).1 = { c with impl := c.impl.clearDirty key } := by
  have hr : (readDirty key : CacheM κ τ σ (Option Ptr)) (c, env) =
      .ok (c.impl.readDirty (slot τ key)) (c, env) := rfl
  simp only [invalidate]
  rw [Exec.bind_of_ok hr]
  cases c.impl.readDirty (slot τ key) with
  | none => exact .inl rfl
  | some p =>
    dsimp only
    cases hv : c.impl.heap p with
    | none =>
      have hf : onFlush P p (c, env) = .error .undefined (c, env) :=
        Exec.bind_of_error (deref_dangling hv)
      rw [Exec.bind_of_error hf]
      exact .inl rfl
    | some v =>
      have hf : onFlush P p (c, env) = withEnv (P.onFlush v) (c, env) := onFlush_apply hv
      cases hP : P.onFlush v env with
      | ok _ env₁ =>
        rw [Exec.bind_of_ok (hf.trans (withEnv_ok hP))]
        exact .inr rfl
      | error e env₁ =>
        rw [Exec.bind_of_error (hf.trans (withEnv_error hP))]
        exact .inl rfl

omit [TransOrd κ] [CacheValue κ τ] in
theorem flushEntries_cons {entry : κ × Ptr} {entries : List (κ × Ptr)}
    (h : c.impl.heap entry.2 = some v) : flushEntries P (entry :: entries) (c, env) =
      (withEnv (P.onFlush v) >>= fun _ => flushEntries P entries) (c, env) := by
  simp only [flushEntries, bind, EStateM.bind, get, getThe, MonadStateOf.get, EStateM.get, h]

omit [TransOrd κ] [CacheValue κ τ] in
theorem flushEntries_dangling {entry : κ × Ptr} {entries : List (κ × Ptr)}
    (h : c.impl.heap entry.2 = none) :
    flushEntries P (entry :: entries) (c, env) = .error .assertion (c, env) := by
  simp [flushEntries, bind, EStateM.bind, get, getThe, MonadStateOf.get, EStateM.get, h, throw,
    throwThe, MonadExceptOf.throw, EStateM.throw]

omit [TransOrd κ] [CacheValue κ τ] in
/-- With live entries only, no assertion fails in the loop of `invalidate()` but one of `OnFlush`. -/
theorem flushEntries_ne_assertion {entries : List (κ × Ptr)}
    (h : ∀ entry ∈ entries, ∃ v, c.impl.heap entry.2 = some v)
    (hP : ∀ v env env', P.onFlush v env ≠ .error .assertion env') {s : Cache κ τ × σ} :
    flushEntries P entries (c, env) ≠ .error .assertion s := by
  induction entries generalizing env with
  | nil => intro he; cases he
  | cons entry entries ih =>
    obtain ⟨v, hv⟩ := h entry (.head _)
    rw [flushEntries_cons hv]
    cases hf : P.onFlush v env with
    | ok _ env₁ =>
      rw [Exec.bind_of_ok (withEnv_ok hf)]
      exact ih fun entry he => h entry (.tail _ he)
    | error e env₁ =>
      rw [Exec.bind_of_error (withEnv_error hf)]
      rintro he
      cases he
      exact hP _ _ _ hf

omit [TransOrd κ] [CacheValue κ τ] in
/-- The loop of `invalidate()` leaves the cache alone. -/
theorem flushEntries_cache (entries : List (κ × Ptr)) :
    (Exec.final (flushEntries P entries (c, env))).1 = c := by
  induction entries generalizing env with
  | nil => rfl
  | cons entry entries ih =>
    cases h : c.impl.heap entry.2 with
    | none => rw [flushEntries_dangling h]; rfl
    | some v =>
      rw [flushEntries_cons h]
      cases hP : P.onFlush v env with
      | ok _ env₁ =>
        rw [Exec.bind_of_ok (withEnv_ok hP)]
        exact ih
      | error e env₁ =>
        rw [Exec.bind_of_error (withEnv_error hP)]
        rfl

omit [CacheValue κ τ] in
theorem invalidateAll_apply {onDone : EStateM Stop σ Unit} :
    invalidateAll P onDone (c, env) = (flushEntries P c.impl.dirty.toList >>= fun _ => do
      modify fun (c, env) => ({ c with impl := c.impl.clearAllDirty }, env)
      withEnv onDone) (c, env) := rfl

omit [CacheValue κ τ] in
theorem invalidateAll_ne_assertion {onDone : EStateM Stop σ Unit} {s : Cache κ τ × σ}
    (h : ∀ s, flushEntries P c.impl.dirty.toList (c, env) ≠ .error .assertion s)
    (hdone : ∀ env env', onDone env ≠ .error .assertion env') :
    invalidateAll P onDone (c, env) ≠ .error .assertion s := by
  rw [invalidateAll_apply]
  cases hf : flushEntries P c.impl.dirty.toList (c, env) with
  | ok _ t =>
    obtain ⟨c₁, env₁⟩ := t
    rw [Exec.bind_of_ok hf, Exec.bind_of_ok (Exec.modify_apply _ _)]
    cases hd : onDone env₁ with
    | ok _ env₂ => rw [withEnv_ok hd]; rintro ⟨⟩
    | error e env₂ =>
      rw [withEnv_error hd]
      rintro he
      cases he
      exact hdone _ _ hd
  | error e t =>
    rw [Exec.bind_of_error hf]
    rintro he
    cases he
    exact h _ hf

omit [CacheValue κ τ] in
/-- `invalidate()` clears the marks when all of `dirty_` was handed over, and none before. -/
theorem invalidateAll_cache [DecidableEq κ] (P : Policy τ σ) (onDone : EStateM Stop σ Unit)
    (c : Cache κ τ)
    (env : σ) : (Exec.final (invalidateAll P onDone (c, env))).1 = c ∨
      (Exec.final (invalidateAll P onDone (c, env))).1 =
        { c with impl := c.impl.clearAllDirty } := by
  have hc : (Exec.final (flushEntries P c.impl.dirty.toList (c, env))).1 = c :=
    flushEntries_cache _
  rw [invalidateAll_apply]
  cases h : flushEntries P c.impl.dirty.toList (c, env) with
  | ok _ s =>
    obtain ⟨c₁, env₁⟩ := s
    rw [h] at hc
    obtain rfl : c₁ = c := hc
    rw [Exec.bind_of_ok h, Exec.bind_of_ok (Exec.modify_apply _ _)]
    cases hd : onDone env₁ with
    | ok _ env₂ => rw [withEnv_ok hd]; exact .inr rfl
    | error e env₂ => rw [withEnv_error hd]; exact .inr rfl
  | error e s =>
    rw [h] at hc
    rw [Exec.bind_of_error h]
    exact .inl hc

/-- What `operator[]` does: the entry exists and is dirty, and holds what it held before, or the
empty value when nothing was cached. -/
structure Subscripted [DecidableEq κ] (c : Cache κ τ) (key : κ) (p : Ptr) (c' : Cache κ τ) :
    Prop where
  wf : c'.impl.WF
  read : c'.impl.read (slot τ key) = some p
  get? : ∀ k, c'.impl.get? k = if slot τ key = k then
    some ((c.impl.get? k).getD (CacheValue.newPointer key)) else c.impl.get? k
  isDirty : ∀ k, c'.impl.IsDirty k ↔ slot τ key = k ∨ c.impl.IsDirty k
  handle : ∀ k p, c.impl.Handle k p → c'.impl.Handle k p
  keep : ∀ k p, c.impl.read k = some p → c'.impl.read k = some p
  cv : c'.cv = c.cv

theorem subscript_hit (h : c.impl.read (slot τ key) = some p) :
    c.subscript key = (p, { c with impl := c.impl.setDirty (slot τ key) }) := by
  simp only [subscript, slot] at h ⊢
  rw [h]

theorem subscript_miss (h : c.impl.read (slot τ key) = none) :
    c.subscript key = (c.impl.next, { c with
      impl := ((c.impl.alloc (CacheValue.newPointer key)).2.insert (slot τ key)
        c.impl.next).setDirty (slot τ key) }) := by
  simp only [subscript, slot, BasicCache.alloc] at h ⊢
  rw [h]

theorem subscript_spec [LawfulEqOrd κ] [DecidableEq κ] (H : c.impl.WF) :
    Subscripted c key (c.subscript key).1 (c.subscript key).2 := by
  cases h : c.impl.read (slot τ key) with
  | some p =>
    rw [subscript_hit h]
    obtain ⟨v, _, hv, _⟩ := H.get?_of_read h
    refine ⟨H.setDirty h, ?_, ?_, fun k => BasicCache.isDirty_setDirty,
      fun k q hq => hq.setDirty h, fun k q hq => (BasicCache.read_setDirty h).trans hq, rfl⟩
    · rw [BasicCache.read_setDirty h]; exact h
    · intro k
      rw [BasicCache.get?_setDirty h]
      split
      · next hk => subst hk; simp [hv]
      · rfl
  | none =>
    let impl := (c.impl.alloc (CacheValue.newPointer key)).2.insert (slot τ key) c.impl.next
    have hnew : impl.WF := H.insert_alloc h rfl
    have hread : impl.read (slot τ key) = some c.impl.next := by
      rw [BasicCache.read_insert, if_pos rfl]
    rw [subscript_miss h]
    refine ⟨hnew.setDirty hread, ?_, ?_, ?_,
      fun k q hq => (hq.insert_alloc h).setDirty hread, ?_, rfl⟩
    · rw [BasicCache.read_setDirty hread]; exact hread
    · intro k
      rw [BasicCache.get?_setDirty hread]
      refine H.get?_insert_alloc.trans ?_
      split
      · next hk => subst hk; simp [H.read_eq_none_iff.mp h]
      · rfl
    · intro k
      simp [BasicCache.isDirty_setDirty]
    · intro k q hq
      rw [BasicCache.read_setDirty hread, BasicCache.read_insert,
        if_neg fun hk => by simp [← hk, h] at hq]
      exact hq

end Cache

end ColonyFS

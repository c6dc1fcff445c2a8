import ColonyFS.Cache.DataOnFlush
import ColonyFS.Cache.MetadataOnFlush
import ColonyFS.Lib.Machine

/-!
# Runs of a cache

Any calls one after the other, each of which returns or throws, and the changes that callers make
to the objects they were handed. A call that ends in any other way has no next state.

A key argument stands for the key of the value that is made for it, `slot`.
-/

namespace ColonyFS

open Std

inductive CacheAct (κ τ : Type) where
  /-- `operator()`. -/
  | call (key : κ)
  /-- `operator[]`. -/
  | subscript (key : κ)
  | purge (key : κ)
  /-- `purge()`. -/
  | purgeAll
  | invalidate (key : κ)
  /-- `invalidate()`. -/
  | invalidateAll
  /-- A caller changes the object at `p`. -/
  | assign (p : Ptr) (v : τ)

structure CallState (κ τ σ : Type) [Ord κ] where
  cache : Cache κ τ
  env : σ
  /-- What was returned for a key since its last purge. -/
  handles : List (κ × Ptr)

namespace CallState

open Cache (slot)
open Machine

variable {κ τ σ α : Type} [Ord κ] [TransOrd κ] [LawfulEqOrd κ] [CacheValue κ τ]

def init (env : σ) : CallState κ τ σ := ⟨.empty, env, []⟩

/-- What a call returned, if it did, and the state, also when it has thrown. -/
def ended {σ : Type} : EStateM.Result Stop σ α → Option (Option α × σ)
  | .ok a s => some (some a, s)
  | .error (.raised _) s => some (none, s)
  | .error _ _ => none

variable [DecidableEq κ] (P : Policy τ σ) (onDone : EStateM Stop σ Unit)

def step (s : CallState κ τ σ) : CacheAct κ τ → Option (CallState κ τ σ)
  | .call key => (ended (Cache.call P key (s.cache, s.env))).map fun (p, c, env) =>
      ⟨c, env, (p.map (slot τ key, ·)).toList ++ s.handles⟩
  | .subscript key =>
    let (p, c) := s.cache.subscript key
    some { s with cache := c, handles := (slot τ key, p) :: s.handles }
  | .purge key => (ended (Cache.purge P key (s.cache, s.env))).map fun (_, c, env) =>
      ⟨c, env, s.handles.filter (·.1 ≠ slot τ key)⟩
  | .purgeAll => (ended (Cache.purgeAll (s.cache, s.env))).map fun (_, c, env) => ⟨c, env, []⟩
  | .invalidate key => (ended (Cache.invalidate P key (s.cache, s.env))).map fun (_, c, env) =>
      ⟨c, env, s.handles⟩
  | .invalidateAll => (ended (Cache.invalidateAll P onDone (s.cache, s.env))).map
      fun (_, c, env) => ⟨c, env, s.handles⟩
  | .assign p v => if (s.cache.impl.heap p).isSome then
      some { s with cache := { s.cache with impl := s.cache.impl.assign p v } } else none

/-- The next states. Of a flush it says only which marks it may clear. -/
inductive Next (s : CallState κ τ σ) : CacheAct κ τ → CallState κ τ σ → Prop where
  | hit {key : κ} {p : Ptr} : s.cache.impl.read (slot τ key) = some p →
      Next s (.call key) { s with handles := (slot τ key, p) :: s.handles }
  | raised {key : κ} {e : Exn} {env : σ} : s.cache.impl.read (slot τ key) = none →
      P.preRead (CacheValue.newPointer key) s.env = .error (.raised e) env →
      Next s (.call key) { s with env := env }
  | miss {key : κ} {v : τ} {env : σ} : s.cache.impl.read (slot τ key) = none →
      P.preRead (CacheValue.newPointer key) s.env = .ok v env → CacheValue.getKey v ∉ s.cache.cv →
      Next s (.call key)
        { cache :=
            { impl := (s.cache.impl.alloc v).2.insert (CacheValue.getKey v) s.cache.impl.next
              cv := s.cache.cv.insert (CacheValue.getKey v) }
          env := env
          handles := (slot τ key, s.cache.impl.next) :: s.handles }
  | subscript {key : κ} : Next s (.subscript key)
      { s with
        cache := (s.cache.subscript key).2
        handles := (slot τ key, (s.cache.subscript key).1) :: s.handles }
  | purge {key : κ} {env : σ} : Next s (.purge key)
      { cache := { s.cache with impl := s.cache.impl.erase (slot τ key) }
        env := env
        handles := s.handles.filter (·.1 ≠ slot τ key) }
  | purgeAll : Next s .purgeAll
      { cache := { s.cache with impl := s.cache.impl.clear }, env := s.env, handles := [] }
  | invalidate {key : κ} {impl : BasicCache κ τ} {env : σ} :
      impl = s.cache.impl ∨ impl = s.cache.impl.clearDirty key →
      Next s (.invalidate key) { s with cache := { s.cache with impl := impl }, env := env }
  | invalidateAll {impl : BasicCache κ τ} {env : σ} :
      impl = s.cache.impl ∨ impl = s.cache.impl.clearAllDirty →
      Next s .invalidateAll { s with cache := { s.cache with impl := impl }, env := env }
  | assign {p : Ptr} {v w : τ} : s.cache.impl.heap p = some w → Next s (.assign p v)
      { s with cache := { s.cache with impl := s.cache.impl.assign p v } }

variable {P onDone} {s s' : CallState κ τ σ} {act : CacheAct κ τ}
  {env : σ}

theorem ended_final {σ : Type} {r : EStateM.Result Stop σ α} {o : Option α} {t : σ}
    (h : ended r = some (o, t)) : Exec.final r = t := by
  rcases r with ⟨_, _⟩ | ⟨⟨_⟩ | _ | _ | _, _⟩ <;> cases h
  · rfl
  · rfl

omit [LawfulEqOrd κ] in
theorem next_of_step (h : step P onDone s act = some s') : Next P s act s' := by
  cases act with
  | call key =>
    obtain ⟨⟨o, c, env⟩, he, rfl⟩ := Option.map_eq_some_iff.mp h
    cases hr : s.cache.impl.read (slot τ key) with
    | some p =>
      rw [Cache.call_hit hr] at he
      cases he
      exact .hit hr
    | none =>
      cases hP : P.preRead (CacheValue.newPointer key) s.env with
      | error e env =>
        rw [Cache.call_raised hr hP] at he
        cases e <;> cases he
        exact .raised hr hP
      | ok v env =>
        by_cases hcv : CacheValue.getKey v ∈ s.cache.cv
        · rw [Cache.call_blocked hr hP hcv] at he
          cases he
        · rw [Cache.call_miss hr hP hcv] at he
          cases he
          exact .miss hr hP hcv
  | subscript key => cases h; exact .subscript
  | purge key =>
    obtain ⟨⟨o, c, env⟩, he, rfl⟩ := Option.map_eq_some_iff.mp h
    have hf := ended_final he
    rw [Cache.purge_apply] at hf
    cases hP : P.onErase (CacheValue.newPointer key) s.env with
    | ok _ env =>
      rw [Cache.withEnv_ok hP] at hf
      cases hf
      exact .purge
    | error e env =>
      rw [Cache.withEnv_error hP] at hf
      cases hf
      exact .purge
  | purgeAll => cases h; exact .purgeAll
  | invalidate key =>
    obtain ⟨⟨o, c, env⟩, he, rfl⟩ := Option.map_eq_some_iff.mp h
    have hc : c = s.cache ∨ c = { s.cache with impl := s.cache.impl.clearDirty key } := by
      have hf := Cache.invalidate_cache P key s.cache s.env
      rwa [ended_final he] at hf
    obtain rfl | rfl := hc
    · exact .invalidate (.inl rfl)
    · exact .invalidate (.inr rfl)
  | invalidateAll =>
    obtain ⟨⟨o, c, env⟩, he, rfl⟩ := Option.map_eq_some_iff.mp h
    have hc : c = s.cache ∨ c = { s.cache with impl := s.cache.impl.clearAllDirty } := by
      have hf := Cache.invalidateAll_cache P onDone s.cache s.env
      rwa [ended_final he] at hf
    obtain rfl | rfl := hc
    · exact .invalidateAll (.inl rfl)
    · exact .invalidateAll (.inr rfl)
  | assign p v =>
    simp only [step] at h
    split at h
    · next hw =>
      obtain ⟨w, hw⟩ := Option.isSome_iff_exists.mp hw
      cases h
      exact .assign hw
    · cases h

/-! ## The representation invariant over runs -/

/-- Callers never change a value's key. -/
def KeepsKeys (s : CallState κ τ σ) : CacheAct κ τ → Prop
  | .assign p v => ∀ w, s.cache.impl.heap p = some w → CacheValue.getKey v = CacheValue.getKey w
  | _ => True

instance {s : CallState κ τ σ} {act : CacheAct κ τ} : Decidable (KeepsKeys s act) :=
  match act with
  | .assign p v => inferInstanceAs (Decidable
      (∀ w ∈ s.cache.impl.heap p, CacheValue.getKey v = CacheValue.getKey w))
  | .call _ | .subscript _ | .purge _ | .purgeAll | .invalidate _ | .invalidateAll =>
    inferInstanceAs (Decidable True)

structure Consistent (s : CallState κ τ σ) : Prop where
  /-- Every key in `dirty_` is in `whole_`. -/
  owned : ∀ k : κ, k ∈ s.cache.impl.dirty → k ∈ s.cache.impl.whole
  /-- `dirty_[k]` refers to the same live object as `whole_[k]`. -/
  same : ∀ (k : κ) (p : Ptr), s.cache.impl.dirty[k]? = some p →
    s.cache.impl.whole[k]? = some p ∧ ∃ v, s.cache.impl.heap p = some v
  /-- The object stored under `k` is live and reports `k`. -/
  key : ∀ (k : κ) (p : Ptr), s.cache.impl.whole[k]? = some p →
    ∃ v, s.cache.impl.heap p = some v ∧ CacheValue.getKey v = k
  /-- A handle refers to the object stored under its key. -/
  handle : ∀ (k : κ) (p : Ptr), (k, p) ∈ s.handles → s.cache.impl.whole[k]? = some p
  /-- The assertion of `basic_cache::read`: the object that is found has an owner. -/
  read : ∀ k, s.cache.impl.read k ≠ some 0

/-- The invariant of the runs. -/
structure Inv (s : CallState κ τ σ) : Prop where
  wf : s.cache.impl.WF
  pos : 0 < s.cache.impl.next
  null : s.cache.impl.heap 0 = none
  handle : ∀ k p, (k, p) ∈ s.handles → s.cache.impl.read k = some p

omit [LawfulEqOrd κ] [DecidableEq κ] in
theorem Inv.start (env : σ) : (init env : CallState κ τ σ).Inv :=
  ⟨.empty, Nat.zero_lt_one, rfl, by simp [CallState.init]⟩

omit [LawfulEqOrd κ] [DecidableEq κ] in
theorem Inv.consistent (H : s.Inv) : s.Consistent where
  owned k hk := by
    obtain ⟨p, hp⟩ := H.wf.read_of_isDirty hk
    exact ExtTreeMap.mem_iff_isSome_getElem?.mpr (Option.isSome_of_eq_some hp)
  same k p hp := by
    obtain ⟨v, hv, _⟩ := H.wf.live (H.wf.dirty hp)
    exact ⟨H.wf.dirty hp, v, hv⟩
  key k p hp := H.wf.live hp
  handle := H.handle
  read k hk := by
    obtain ⟨v, hv, _⟩ := H.wf.live hk
    rw [H.null] at hv
    cases hv

theorem Inv.of_next (H : s.Inv) (hP : P.KeepsKey) (hok : KeepsKeys s act) (h : Next P s act s') :
    s'.Inv := by
  obtain ⟨hwf, hnext, hnull, hhandle⟩ := H
  cases h with
  | @hit key p hr =>
    refine ⟨hwf, hnext, hnull, ?_⟩
    intro k q hq
    obtain hq | hq := List.mem_cons.mp hq
    · cases hq; exact hr
    · exact hhandle k q hq
  | raised => exact ⟨hwf, hnext, hnull, hhandle⟩
  | @miss key v env hr hv _ =>
    have hk : CacheValue.getKey v = slot τ key := hP _ _ _ _ hv
    refine ⟨?_, Nat.succ_pos _, ?_, ?_⟩
    · rw [hk]; exact hwf.insert_alloc hr hk
    · exact (Function.update_of_ne (Nat.ne_of_lt hnext) ..).trans hnull
    · intro k q hq
      simp only [hk, BasicCache.read_insert, BasicCache.read_alloc]
      obtain hq | hq := List.mem_cons.mp hq
      · cases hq; exact if_pos rfl
      · have hq := hhandle k q hq
        rw [if_neg fun he => by simp [← he, hr] at hq]
        exact hq
  | @subscript key =>
    have hs : Cache.Subscripted s.cache key _ _ := Cache.subscript_spec hwf
    have hnew : 0 < (s.cache.subscript key).2.impl.next ∧
        (s.cache.subscript key).2.impl.heap 0 = none := by
      cases hr : s.cache.impl.read (slot τ key) with
      | some p => rw [Cache.subscript_hit hr]; exact ⟨hnext, hnull⟩
      | none =>
        rw [Cache.subscript_miss hr]
        exact ⟨Nat.succ_pos _, (Function.update_of_ne (Nat.ne_of_lt hnext) ..).trans hnull⟩
    refine ⟨hs.wf, hnew.1, hnew.2, ?_⟩
    intro k q hq
    obtain hq | hq := List.mem_cons.mp hq
    · cases hq; exact hs.read
    · exact hs.keep k q (hhandle k q hq)
  | @purge key env =>
    refine ⟨hwf.erase, hnext, by simp [BasicCache.erase, hnull], ?_⟩
    intro k q hq
    obtain ⟨hq, hne⟩ := List.mem_filter.mp hq
    have hne : k ≠ slot τ key := by simpa using hne
    rw [BasicCache.read_erase, if_neg hne.symm]
    exact hhandle k q hq
  | purgeAll => exact ⟨hwf.clear, hnext, by simp [BasicCache.clear, hnull], by simp⟩
  | invalidate hc =>
    obtain rfl | rfl := hc
    · exact ⟨hwf, hnext, hnull, hhandle⟩
    · exact ⟨hwf.clearDirty, hnext, hnull, hhandle⟩
  | invalidateAll hc =>
    obtain rfl | rfl := hc
    · exact ⟨hwf, hnext, hnull, hhandle⟩
    · exact ⟨hwf.clearAllDirty, hnext, hnull, hhandle⟩
  | @assign p v w hw =>
    have hp : p ≠ 0 := by
      rintro rfl
      rw [hnull] at hw
      cases hw
    exact ⟨hwf.assign hw (hok w hw), hnext, (Function.update_of_ne hp.symm ..).trans hnull,
      hhandle⟩

theorem Inv.of_reach (hP : P.KeepsKey) (h : Reach (step P onDone) KeepsKeys (init env) s) :
    s.Inv :=
  h.invariant (.start env) fun _ _ _ H hok hstep => H.of_next hP hok (next_of_step hstep)

/-- After any calls, with throwing policies and changes in place, both maps agree on live objects
under their own keys. So no assertion of the cache fails; `invalidate()` runs into one only in
`OnFlush` or `OnDone`. -/
theorem consistent_of_reach (hP : P.KeepsKey)
    (h : Reach (step P onDone) KeepsKeys (init env) s) :
    s.Consistent ∧ ((∀ v env env', P.onFlush v env ≠ .error .assertion env') →
      (∀ env env', onDone env ≠ .error .assertion env') →
      ∀ t, Cache.invalidateAll P onDone (s.cache, s.env) ≠ .error .assertion t) := by
  have H := Inv.of_reach hP h
  refine ⟨H.consistent, ?_⟩
  intro hflush hdone t
  have hlive : ∀ entry ∈ s.cache.impl.dirty.toList, ∃ v, s.cache.impl.heap entry.2 = some v := by
    intro entry he
    exact (H.consistent.same entry.1 entry.2
      (ExtTreeMap.mem_toList_iff_getElem?_eq_some.mp he)).2
  have hloop : ∀ t, Cache.flushEntries P s.cache.impl.dirty.toList (s.cache, s.env) ≠
      .error .assertion t := fun _ => Cache.flushEntries_ne_assertion hlive hflush
  exact Cache.invalidateAll_ne_assertion hloop hdone

open DataOnFlush (policy) in
/-- A chunk that is flushed, purged, read back, changed in place and flushed again with the rest. -/
theorem consistent_of_reach_example : ∃ s : CallState ChunkKey ChunkData Net,
    s.handles = [(⟨['f'], 0⟩, 2)] ∧ s.cache.impl.heap 2 = some ⟨['f'], 0, [7]⟩ ∧
      s.Consistent := by
  have h : (run (guarded (step policy (pure ())) KeepsKeys)
      (init ⟨fun _ => [], 0, fun _ => none, fun _ _ => none⟩)
      [.subscript ⟨['f'], 0⟩, .invalidate ⟨['f'], 0⟩, .purge ⟨['f'], 0⟩, .call ⟨['f'], 0⟩,
        .assign 2 ⟨['f'], 0, [7]⟩, .invalidateAll]).map
      (fun s => (s.handles, s.cache.impl.heap 2)) =
      some ([(⟨['f'], 0⟩, 2)], some ⟨['f'], 0, [7]⟩) := by
    decide +kernel
  obtain ⟨s, hs, he⟩ := Option.map_eq_some_iff.mp h
  obtain ⟨hh, hv⟩ := Prod.mk.inj he
  exact ⟨s, hh, hv, (consistent_of_reach DataOnFlush.policy_keepsKey (.of_run_guarded _ hs)).1⟩

/-! ## The `CV` mutexes -/

/-- The call of `CV::Instance(value).lock()` is not reached: `operator()` finds the key, or `PreRead`
throws. -/
def LockFree (P : Policy τ σ) (s : CallState κ τ σ) : CacheAct κ τ → Prop
  | .call key => s.cache.impl.read (slot τ key) ≠ none ∨
      ∃ e env, P.preRead (CacheValue.newPointer key) s.env = .error e env
  | _ => True

instance {s : CallState κ τ σ} {act : CacheAct κ τ} : Decidable (LockFree P s act) :=
  match act with
  | .call key => match h : P.preRead (CacheValue.newPointer key) s.env with
    | .ok _ _ => decidable_of_iff (s.cache.impl.read (slot τ key) ≠ none) (by simp [LockFree, h])
    | .error _ _ => .isTrue (.inr ⟨_, _, h⟩)
  | .subscript _ | .purge _ | .purgeAll | .invalidate _ | .invalidateAll | .assign _ _ =>
    inferInstanceAs (Decidable True)

omit [LawfulEqOrd κ] in
/-- A step locks a mutex if it is a miss, and none unlocks one. -/
theorem cv_of_step (h : step P onDone s act = some s') :
    (LockFree P s act ∧ s'.cache.cv = s.cache.cv) ∨
      (¬LockFree P s act ∧ ∃ k, s'.cache.cv = s.cache.cv.insert k) := by
  cases next_of_step h with
  | hit hr => exact .inl ⟨.inl (by simp [hr]), rfl⟩
  | raised hr hP => exact .inl ⟨.inr ⟨_, _, hP⟩, rfl⟩
  | miss hr hP =>
    refine .inr ⟨?_, _, rfl⟩
    rintro (hf | ⟨e, env, he⟩)
    · exact hf hr
    · rw [hP] at he
      cases he
  | @subscript key =>
    refine .inl ⟨trivial, ?_⟩
    cases hr : s.cache.impl.read (slot τ key) with
    | some p => rw [Cache.subscript_hit hr]
    | none => rw [Cache.subscript_miss hr]
  | purge | purgeAll | invalidate | invalidateAll | assign => exact .inl ⟨trivial, rfl⟩

omit [LawfulEqOrd κ] [DecidableEq κ] in
/-- With no mutex held, `operator()` waits for one only in `PreRead`. -/
theorem not_blocked (h : s.cache.cv = ∅) {key : κ} {t : Cache κ τ × σ}
    (hb : Cache.call P key (s.cache, s.env) = .error .blocked t) :
    ∃ env, P.preRead (CacheValue.newPointer key) s.env = .error .blocked env := by
  cases hr : s.cache.impl.read (slot τ key) with
  | some p =>
    rw [Cache.call_hit hr] at hb
    cases hb
  | none =>
    cases hP : P.preRead (CacheValue.newPointer key) s.env with
    | error e env =>
      rw [Cache.call_raised hr hP] at hb
      cases hb
      exact ⟨_, rfl⟩
    | ok v env =>
      rw [Cache.call_miss hr hP (by simp [h])] at hb
      cases hb

open DataOnFlush (policy) in
/-- The mutex of a miss is still held when the key misses again after a purge. -/
theorem exists_blocked : ∃ s : CallState ChunkKey ChunkData Net,
    Reach (step policy (pure ())) always
      (init ⟨fun _ => [], 0, fun _ => none, fun _ _ => none⟩) s ∧
    s.cache.cv ≠ ∅ ∧ ∃ t, Cache.call policy ⟨['f'], 0⟩ (s.cache, s.env) = .error .blocked t := by
  have h : (run (step policy (pure ()))
      (init ⟨fun _ => [], 0, fun _ => none, fun _ _ => none⟩)
      [.subscript ⟨['f'], 0⟩, .invalidate ⟨['f'], 0⟩, .purge ⟨['f'], 0⟩, .call ⟨['f'], 0⟩,
        .purge ⟨['f'], 0⟩]).map
      (fun s => (s.cache.cv.isEmpty,
        Exec.error? (Cache.call policy ⟨['f'], 0⟩ (s.cache, s.env)))) =
      some (false, some .blocked) := by
    decide +kernel
  obtain ⟨s, hs, he⟩ := Option.map_eq_some_iff.mp h
  obtain ⟨hcv, hb⟩ := Prod.mk.inj he
  refine ⟨s, .of_run _ hs, ?_, Exec.of_error? hb⟩
  intro he
  rw [he] at hcv
  cases hcv

omit [LawfulEqOrd κ] in
/-- No mutex outlives a call in runs without a miss that `PreRead` can serve, and the first such miss
leaves one locked. -/
theorem cv_empty_iff (h : Reach (step P onDone) (LockFree P) (init env) s) :
    s.cache.cv = ∅ ∧
      (∀ key t, Cache.call P key (s.cache, s.env) = .error .blocked t →
        ∃ env, P.preRead (CacheValue.newPointer key) s.env = .error .blocked env) ∧
      ∀ act s', step P onDone s act = some s' → (s'.cache.cv = ∅ ↔ LockFree P s act) := by
  have hcv : s.cache.cv = ∅ := by
    refine Reach.invariant (P := fun s => s.cache.cv = ∅) h rfl ?_
    intro s act s' hs hok hstep
    obtain ⟨_, he⟩ | ⟨hno, _⟩ := cv_of_step hstep
    · exact he.trans hs
    · exact (hno hok).elim
  refine ⟨hcv, fun key t hb => not_blocked hcv hb, ?_⟩
  intro act s' hstep
  obtain ⟨hok, he⟩ | ⟨hno, k, he⟩ := cv_of_step hstep
  · exact ⟨fun _ => hok, fun _ => he.trans hcv⟩
  · refine ⟨fun hempty => ?_, fun hok => (hno hok).elim⟩
    have hk : k ∈ s'.cache.cv := by rw [he]; exact ExtTreeSet.mem_insert_self
    rw [hempty] at hk
    simp at hk

open DataOnFlush (policy) in
/-- Hits, a failed retrieval, flushes and a purge. -/
theorem cv_empty_iff_example : ∃ s : CallState ChunkKey ChunkData Net,
    s.handles = [(⟨['f'], 0⟩, 2), (⟨['f'], 0⟩, 2)] ∧ s.cache.cv = ∅ ∧
      (∀ act s', step policy (pure ()) s act = some s' → (s'.cache.cv = ∅ ↔ LockFree policy s act)) := by
  have h : (run (guarded (step policy (pure ())) (LockFree policy))
      (init ⟨fun _ => [], 0, fun _ => none, fun _ _ => none⟩)
      [.call ⟨['f'], 0⟩, .subscript ⟨['f'], 0⟩, .invalidate ⟨['f'], 0⟩, .purge ⟨['f'], 0⟩,
        .subscript ⟨['f'], 0⟩, .call ⟨['f'], 0⟩, .invalidateAll]).map CallState.handles =
      some [(⟨['f'], 0⟩, 2), (⟨['f'], 0⟩, 2)] := by
    decide +kernel
  obtain ⟨s, hs, hh⟩ := Option.map_eq_some_iff.mp h
  have hcv := cv_empty_iff (.of_run_guarded _ hs)
  exact ⟨s, hh, hcv.1, hcv.2.2⟩

end CallState

end ColonyFS

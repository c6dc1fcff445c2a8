import ColonyFS.Cache.DataOnFlush
import ColonyFS.Lib.Relational

/-!
# Caches of one shape

Two caches with the same keys, marks and addresses, whose objects agree on what `shape` tells of them.
A method does the same on both as far as `shape` goes, if the policy does.
-/

namespace ColonyFS

open Exec (Rel)

namespace Cache

variable {κ τ σ γ : Type} [Ord κ] [Std.TransOrd κ]

structure SameShape (shape : τ → γ) (c c' : Cache κ τ) : Prop where
  whole : c'.impl.whole = c.impl.whole
  dirty : c'.impl.dirty = c.impl.dirty
  next : c'.impl.next = c.impl.next
  cv : c'.cv = c.cv
  heap : ∀ p, (c'.impl.heap p).map shape = (c.impl.heap p).map shape

/-- The caches have one shape, and the environments are related. -/
def Alike (shape : τ → γ) (E : σ → σ → Prop) (s t : Cache κ τ × σ) : Prop :=
  SameShape shape s.1 t.1 ∧ E s.2 t.2

/-- The policy does the same on objects of one shape. -/
structure Uniform [CacheValue κ τ] (shape : τ → γ) (E : σ → σ → Prop) (P : Policy τ σ) : Prop where
  getKey : ∀ {v w : τ}, shape v = shape w → CacheValue.getKey v = CacheValue.getKey w
  preRead : ∀ {v w}, shape v = shape w →
    Rel E (fun v w => shape v = shape w) (P.preRead v) (P.preRead w)
  onErase : ∀ {v w}, shape v = shape w → Rel E Eq (P.onErase v) (P.onErase w)
  onFlush : ∀ {v w}, shape v = shape w → Rel E Eq (P.onFlush v) (P.onFlush w)

variable {shape : τ → γ} {E : σ → σ → Prop} {P : Policy τ σ} {c c' : Cache κ τ} {key k : κ} {p : Ptr}
  {v w : τ}

namespace SameShape

theorem read (h : SameShape shape c c') : c'.impl.read k = c.impl.read k := by
  rw [BasicCache.read, BasicCache.read, h.whole]

theorem isDirty (h : SameShape shape c c') : c'.impl.IsDirty k ↔ c.impl.IsDirty k := by
  rw [BasicCache.IsDirty, BasicCache.IsDirty, h.dirty]

omit [Std.TransOrd κ] in
/-- The objects at an address. -/
theorem cases_heap (h : SameShape shape c c') (p : Ptr) :
    (c.impl.heap p = none ∧ c'.impl.heap p = none) ∨
      ∃ v w, c.impl.heap p = some v ∧ c'.impl.heap p = some w ∧ shape v = shape w := by
  have hp := h.heap p
  cases hv : c.impl.heap p with
  | none =>
    rw [hv] at hp
    exact .inl ⟨rfl, Option.map_eq_none_iff.mp hp⟩
  | some v =>
    rw [hv] at hp
    obtain ⟨w, hw, hs⟩ := Option.map_eq_some_iff.mp hp
    exact .inr ⟨v, w, rfl, hw, hs.symm⟩

omit [Std.TransOrd κ] in
theorem assign (h : SameShape shape c c') (hs : shape v = shape w) :
    SameShape shape { c with impl := c.impl.assign p v } { c' with impl := c'.impl.assign p w } where
  whole := h.whole
  dirty := h.dirty
  next := h.next
  cv := h.cv
  heap q := by
    obtain rfl | hq := eq_or_ne q p
    · simp only [BasicCache.assign, Function.update_self, Option.map_some, hs]
    · simp only [BasicCache.assign, Function.update_of_ne hq, h.heap]

/-- A new object is allocated and filed. -/
theorem insert (h : SameShape shape c c') (hs : shape v = shape w) {cv : Std.ExtTreeSet κ} :
    SameShape shape { impl := (c.impl.alloc v).2.insert k c.impl.next, cv := cv }
      { impl := (c'.impl.alloc w).2.insert k c'.impl.next, cv := cv } where
  whole := by simp only [BasicCache.alloc, BasicCache.insert, h.whole, h.next]
  dirty := h.dirty
  next := by simp only [BasicCache.alloc, BasicCache.insert, h.next]
  cv := rfl
  heap q := by
    simp only [BasicCache.alloc, BasicCache.insert, h.next]
    obtain rfl | hq := eq_or_ne q c.impl.next
    · simp only [Function.update_self, Option.map_some, hs]
    · simp only [Function.update_of_ne hq, h.heap]

theorem setDirty (h : SameShape shape c c') :
    SameShape shape { c with impl := c.impl.setDirty k } { c' with impl := c'.impl.setDirty k } where
  whole := by simp only [BasicCache.setDirty, h.whole]
  dirty := by simp only [BasicCache.setDirty, h.whole, h.dirty]
  next := h.next
  cv := h.cv
  heap := h.heap

theorem erase (h : SameShape shape c c') :
    SameShape shape { c with impl := c.impl.erase k } { c' with impl := c'.impl.erase k } where
  whole := by simp only [BasicCache.erase, h.whole]
  dirty := by simp only [BasicCache.erase, h.dirty]
  next := h.next
  cv := h.cv
  heap q := by
    simp only [BasicCache.erase, h.read]
    split
    · rfl
    · exact h.heap q

theorem clearDirty (h : SameShape shape c c') :
    SameShape shape { c with impl := c.impl.clearDirty k }
      { c' with impl := c'.impl.clearDirty k } where
  whole := h.whole
  dirty := by simp only [BasicCache.clearDirty, h.dirty]
  next := h.next
  cv := h.cv
  heap := h.heap

end SameShape

/-! ## The methods -/

omit [Std.TransOrd κ] in
theorem rel_withEnv {α β : Type} {S : α → β → Prop} {x : EStateM Stop σ α} {y : EStateM Stop σ β}
    (h : Rel E S x y) : Rel (Alike shape E) S (withEnv x : CacheM κ τ σ α) (withEnv y) := by
  rintro ⟨c, e⟩ ⟨c', e'⟩ ⟨hc, he⟩
  cases hx : x e with
  | ok a e₁ =>
    obtain ⟨b, e₁', hy, hS, he⟩ := h.ok he hx
    rw [withEnv_ok hx, withEnv_ok hy]
    exact ⟨hS, hc, he⟩
  | error stop e₁ =>
    obtain ⟨e₁', hy, he⟩ := h.error he hx
    rw [withEnv_error hx, withEnv_error hy]
    exact ⟨rfl, hc, he⟩

omit [Std.TransOrd κ] in
theorem rel_deref (p : Ptr) : Rel (Alike shape E) (fun v w => shape v = shape w)
    (deref p : CacheM κ τ σ τ) (deref p) := by
  rintro ⟨c, e⟩ ⟨c', e'⟩ ⟨hc, he⟩
  obtain ⟨hv, hw⟩ | ⟨v, w, hv, hw, hs⟩ := hc.cases_heap p
  · rw [deref_dangling hv, deref_dangling hw]
    exact ⟨rfl, hc, he⟩
  · rw [deref_ok hv, deref_ok hw]
    exact ⟨hs, hc, he⟩

omit [Std.TransOrd κ] in
theorem rel_assign (p : Ptr) (hs : shape v = shape w) :
    Rel (Alike shape E) Eq (assign p v : CacheM κ τ σ Unit) (assign p w) :=
  Rel.modify fun _ _ h => ⟨h.1.assign hs, h.2⟩

variable [CacheValue κ τ]

theorem rel_subscript (key : κ) : Rel (Alike shape E) Eq
    (modifyGet (fun (c, env) => ((c.subscript key).1, (c.subscript key).2, env)) : CacheM κ τ σ Ptr)
    (modifyGet fun (c, env) => ((c.subscript key).1, (c.subscript key).2, env)) := by
  rintro ⟨c, e⟩ ⟨c', e'⟩ ⟨hc, he⟩
  have h : (c.subscript key).1 = (c'.subscript key).1 ∧
      SameShape shape (c.subscript key).2 (c'.subscript key).2 := by
    cases hr : c.impl.read (slot τ key) with
    | some p =>
      rw [subscript_hit hr, subscript_hit (hc.read.trans hr)]
      exact ⟨rfl, hc.setDirty⟩
    | none =>
      rw [subscript_miss hr, subscript_miss (hc.read.trans hr)]
      refine ⟨hc.next.symm, ?_⟩
      rw [hc.cv]
      exact (hc.insert (v := CacheValue.newPointer key) rfl).setDirty
  exact ⟨h.1, h.2, he⟩

theorem rel_call (hP : Uniform shape E P) (key : κ) :
    Rel (Alike shape E) Eq (call P key) (call P key) := by
  rintro ⟨c, e⟩ ⟨c', e'⟩ ⟨hc, he⟩
  cases hr : c.impl.read (slot τ key) with
  | some p =>
    rw [call_hit hr, call_hit (hc.read.trans hr)]
    exact ⟨rfl, hc, he⟩
  | none =>
    have hr' : c'.impl.read (slot τ key) = none := hc.read.trans hr
    cases hv : P.preRead (CacheValue.newPointer key) e with
    | error stop e₁ =>
      obtain ⟨e₁', hw, he⟩ := (hP.preRead rfl).error he hv
      rw [call_raised hr hv, call_raised hr' hw]
      exact ⟨rfl, hc, he⟩
    | ok v e₁ =>
      obtain ⟨w, e₁', hw, hs, he⟩ := (hP.preRead rfl).ok he hv
      have hk : CacheValue.getKey w = CacheValue.getKey v := (hP.getKey hs).symm
      by_cases hcv : CacheValue.getKey v ∈ c.cv
      · rw [call_blocked hr hv hcv, call_blocked hr' hw (by rwa [hk, hc.cv])]
        exact ⟨rfl, hc, he⟩
      · rw [call_miss hr hv hcv, call_miss hr' hw (by rwa [hk, hc.cv]), hk, hc.cv]
        exact ⟨hc.next.symm, hc.insert hs, he⟩

theorem rel_purge (hP : Uniform shape E P) (key : κ) :
    Rel (Alike shape E) Eq (purge P key) (purge P key) := by
  rintro ⟨c, e⟩ ⟨c', e'⟩ ⟨hc, he⟩
  rw [purge_apply, purge_apply]
  exact rel_withEnv (hP.onErase rfl) _ _ ⟨hc.erase, he⟩

theorem rel_invalidate (hP : Uniform shape E P) (key : κ) :
    Rel (Alike shape E) Eq (invalidate P key) (invalidate P key) := by
  have hread : Rel (Alike shape E) Eq (readDirty key : CacheM κ τ σ (Option Ptr)) (readDirty key) := by
    rintro ⟨c, e⟩ ⟨c', e'⟩ ⟨hc, he⟩
    have hd : c'.impl.dirty = c.impl.dirty := hc.dirty
    refine ⟨?_, hc, he⟩
    simp only [BasicCache.readDirty, hd, hc.read]
  refine hread.bind_eq fun r => ?_
  cases r with
  | none => exact .pure rfl
  | some p =>
    refine Rel.bind_eq ((rel_deref p).bind fun v w hs => rel_withEnv (hP.onFlush hs)) fun _ => ?_
    exact Rel.modify fun _ _ h => ⟨h.1.clearDirty, h.2⟩

end Cache

/-! ## Chunks -/

/-- The key and the length of a chunk. -/
def ChunkData.shape (v : ChunkData) : ChunkKey × Nat := (v.getKey, v.data.length)

theorem ChunkData.shape_eq {v w : ChunkData} (h : v.shape = w.shape) :
    v.uid = w.uid ∧ v.cuid = w.cuid ∧ v.data.length = w.data.length := by
  obtain ⟨hk, hl⟩ := Prod.mk.inj h
  exact ⟨congrArg ChunkKey.uid hk, congrArg ChunkKey.cuid hk, hl⟩

/-- The same hosts hold the same chunks, with data of the same lengths. -/
structure Net.SameShape (net net' : Net) : Prop where
  schedule : net'.schedule = net.schedule
  calls : net'.calls = net.calls
  location : net'.location = net.location
  database : ∀ host k, (net'.database host k).map List.length = (net.database host k).map List.length

theorem Net.SameShape.length_stored? {net net' : Net} (h : net.SameShape net') (key : ChunkKey) :
    (net.stored? key).map List.length = (net'.stored? key).map List.length := by
  rw [Net.stored?, Net.stored?, h.location]
  cases net.location key with
  | none => rfl
  | some host => exact (h.database host key).symm

theorem DataOnFlush.rel_preRead {v w : ChunkData} (hs : v.shape = w.shape) :
    Rel Net.SameShape (fun v w => v.shape = w.shape) (policy.preRead v) (policy.preRead w) := by
  intro net net' hn
  obtain ⟨hu, hc, hl⟩ := ChunkData.shape_eq hs
  have hk : w.getKey = v.getKey := (Prod.mk.inj hs).1.symm
  simp only [policy, preRead, bind, EStateM.bind, get, getThe, MonadStateOf.get, EStateM.get, hk,
    hn.location]
  cases net.location v.getKey with
  | none => exact ⟨rfl, hn⟩
  | some host =>
    have hd := hn.database host v.getKey
    cases hv : net.database host v.getKey with
    | none =>
      rw [hv] at hd
      simp only [Option.map_eq_none_iff.mp hd, hv]
      exact ⟨hs, hn⟩
    | some data =>
      rw [hv] at hd
      obtain ⟨data', hd', hlen⟩ := Option.map_eq_some_iff.mp hd
      simp only [hd', hv]
      refine ⟨?_, hn⟩
      simp only [ChunkData.shape, ChunkData.getKey, hu, hc, hlen]

theorem DataOnFlush.rel_onFlush {v w : ChunkData} (hs : v.shape = w.shape) :
    Rel Net.SameShape Eq (policy.onFlush v) (policy.onFlush w) := by
  refine Rel.modify fun net net' hn => ?_
  obtain ⟨_, _, hl⟩ := ChunkData.shape_eq hs
  have hk : w.getKey = v.getKey := (Prod.mk.inj hs).1.symm
  refine ⟨hn.schedule, by simp only [Net.setPair, Net.deposit, hn.calls], ?_, ?_⟩
  · simp only [Net.setPair, Net.deposit, hn.location, hn.schedule, hn.calls, hk]
  · intro host k
    simp only [Net.setPair, Net.deposit, hn.schedule, hn.calls, hk]
    obtain rfl | hh := eq_or_ne host (net.schedule net.calls)
    · rw [Function.update_self, Function.update_self]
      obtain rfl | hkk := eq_or_ne k v.getKey
      · rw [Function.update_self, Function.update_self, Option.map_some, Option.map_some, hl]
      · rw [Function.update_of_ne hkk, Function.update_of_ne hkk, hn.database]
    · rw [Function.update_of_ne hh, Function.update_of_ne hh, hn.database]

theorem DataOnFlush.uniform : Cache.Uniform ChunkData.shape Net.SameShape policy where
  getKey h := (Prod.mk.inj h).1
  preRead := rel_preRead
  onErase _ := .pure rfl
  onFlush := rel_onFlush

end ColonyFS

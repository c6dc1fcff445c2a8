import ColonyFS.Storage.ChunkData

/-!
# The two maps of a cache (`cache/basic_cache.hpp`, `algo/ValueFactory.hpp`)

`whole_` owns the cached objects, `dirty_` refers to the ones a flush has to write back. Callers
get the address of an object and change it in place, so the objects live in a heap next to the
maps. A method of `basic_cache` starts by computing `value->get_key()`; here it takes that key.

`BasicCache.WF` is the representation invariant. Under it a cache is the partial map `get?` and the
set `IsDirty` of keys, and each method is described by its effect on these two.
-/

namespace ColonyFS

open Std

/-- The address of an object; `0` is the null pointer. -/
abbrev Ptr := Nat

/-- `ValueFactory<T>::NewPointer` and `T::get_key`, all that a cache asks of its values. -/
class CacheValue (κ : outParam Type) (τ : Type) where
  newPointer : κ → τ
  getKey : τ → κ

instance : CacheValue ChunkKey ChunkData := ⟨ChunkData.ofKey, ChunkData.getKey⟩

structure BasicCache (κ τ : Type) [Ord κ] where
  whole : ExtTreeMap κ Ptr
  dirty : ExtTreeMap κ Ptr
  /-- The live objects: an address is `none` before its object is allocated and once it is freed. -/
  heap : Ptr → Option τ
  /-- The address of the next allocation. Addresses are not reused. -/
  next : Ptr

namespace BasicCache

variable {κ τ : Type} [Ord κ] [TransOrd κ]

/-- Default construction: both maps empty. -/
def empty : BasicCache κ τ := ⟨∅, ∅, fun _ => none, 1⟩

/-- `new T`. -/
def alloc (c : BasicCache κ τ) (v : τ) : Ptr × BasicCache κ τ :=
  (c.next, { c with heap := Function.update c.heap c.next (some v), next := c.next + 1 })

/-- `insert`: the cache becomes the owner of the object at `p`. -/
def insert (c : BasicCache κ τ) (key : κ) (p : Ptr) : BasicCache κ τ :=
  { c with whole := c.whole.insert key p }

/-- `set_dirty`: `dirty_[key] = whole_[key]`, where `whole_[key]` makes a null entry if there is
none. -/
def setDirty (c : BasicCache κ τ) (key : κ) : BasicCache κ τ :=
  { c with whole := c.whole.insertIfNew key 0, dirty := c.dirty.insert key (c.whole.getD key 0) }

/-- `read`: the address the value is reset to, `none` for `cache_miss_e`. -/
def read (c : BasicCache κ τ) (key : κ) : Option Ptr := c.whole[key]?

/-- `read_dirty`: a miss also when the entry is not dirty. -/
def readDirty (c : BasicCache κ τ) (key : κ) : Option Ptr :=
  if key ∈ c.dirty then c.read key else none

/-- `erase`: both entries go, and with its only owner the object. -/
def erase (c : BasicCache κ τ) (key : κ) : BasicCache κ τ :=
  { c with
    whole := c.whole.erase key
    dirty := c.dirty.erase key
    heap := fun p => if c.read key = some p then none else c.heap p }

/-- `dirty_.erase(key)`, the third statement of `cache::invalidate`. -/
def clearDirty (c : BasicCache κ τ) (key : κ) : BasicCache κ τ :=
  { c with dirty := c.dirty.erase key }

/-- `clear()`: all entries go, and the objects that `whole_` owned. -/
def clear (c : BasicCache κ τ) : BasicCache κ τ :=
  { c with
    whole := ∅
    dirty := ∅
    heap := fun p => if p ∈ c.whole.values then none else c.heap p }

/-- `dirty_.clear()`, at the end of `cache::invalidate()`. -/
def clearAllDirty (c : BasicCache κ τ) : BasicCache κ τ := { c with dirty := ∅ }

/-- An assignment to the object at `p` through a handle. -/
def assign (c : BasicCache κ τ) (p : Ptr) (v : τ) : BasicCache κ τ :=
  { c with heap := Function.update c.heap p (some v) }

/-! ## What a cache holds -/

/-- The object cached under a key. -/
def get? (c : BasicCache κ τ) (key : κ) : Option τ := (c.read key).bind c.heap

/-- The entry of a key has to be written back. -/
def IsDirty (c : BasicCache κ τ) (key : κ) : Prop := key ∈ c.dirty

instance (c : BasicCache κ τ) (key : κ) : Decidable (c.IsDirty key) :=
  inferInstanceAs (Decidable (_ ∈ _))

variable {c : BasicCache κ τ} {k k' : κ} {p : Ptr} {v w : τ}

@[simp] theorem get?_empty : (empty : BasicCache κ τ).get? k = none := by
  simp [empty, get?, read]

@[simp] theorem not_isDirty_empty : ¬(empty : BasicCache κ τ).IsDirty k := by
  simp [empty, IsDirty]

theorem read_setDirty [LawfulEqOrd κ] (h : c.read k = some p) :
    (c.setDirty k).read k' = c.read k' := by
  have hk : k ∈ c.whole := by
    rw [read] at h; exact ExtTreeMap.mem_iff_isSome_getElem?.mpr (by simp [h])
  simp only [read, setDirty, ExtTreeMap.getElem?_insertIfNew]
  split
  · next hc => cases LawfulEqCmp.eq_of_compare hc.1; exact (hc.2 hk).elim
  · rfl

@[simp] theorem read_clearDirty : (c.clearDirty k).read k' = c.read k' := rfl

theorem read_erase [LawfulEqOrd κ] [DecidableEq κ] :
    (c.erase k).read k' = if k = k' then none else c.read k' := by
  simp [read, erase, ExtTreeMap.getElem?_erase]

theorem read_insert [LawfulEqOrd κ] [DecidableEq κ] :
    (c.insert k p).read k' = if k = k' then some p else c.read k' := by
  simp [read, insert, ExtTreeMap.getElem?_insert]

@[simp] theorem read_alloc : (c.alloc v).2.read k = c.read k := rfl

@[simp] theorem read_assign : (c.assign p v).read k = c.read k := rfl

theorem isDirty_setDirty [LawfulEqOrd κ] : (c.setDirty k).IsDirty k' ↔ k = k' ∨ c.IsDirty k' := by
  simp [IsDirty, setDirty, ExtTreeMap.mem_insert]

theorem isDirty_clearDirty [LawfulEqOrd κ] :
    (c.clearDirty k).IsDirty k' ↔ k ≠ k' ∧ c.IsDirty k' := by
  simp [IsDirty, clearDirty, ExtTreeMap.mem_erase]

@[simp] theorem read_clear : c.clear.read k = none := by simp [read, clear]

@[simp] theorem read_clearAllDirty : c.clearAllDirty.read k = c.read k := rfl

@[simp] theorem not_isDirty_clear : ¬c.clear.IsDirty k := by simp [IsDirty, clear]

@[simp] theorem not_isDirty_clearAllDirty : ¬c.clearAllDirty.IsDirty k := by
  simp [IsDirty, clearAllDirty]

theorem isDirty_erase [LawfulEqOrd κ] : (c.erase k).IsDirty k' ↔ k ≠ k' ∧ c.IsDirty k' := by
  simp [IsDirty, erase, ExtTreeMap.mem_erase]

@[simp] theorem isDirty_insert : (c.insert k p).IsDirty k' ↔ c.IsDirty k' := .rfl

@[simp] theorem isDirty_alloc : (c.alloc v).2.IsDirty k' ↔ c.IsDirty k' := .rfl

@[simp] theorem isDirty_assign : (c.assign p v).IsDirty k' ↔ c.IsDirty k' := .rfl

/-! ## The representation invariant -/

variable [CacheValue κ τ]

/-- An entry of `whole_` owns a live object of that very key, no address is used before it is
allocated, and `dirty_` refers to owned objects only. -/
structure WF (c : BasicCache κ τ) : Prop where
  live : ∀ {k : κ} {p : Ptr}, c.read k = some p → ∃ v, c.heap p = some v ∧ CacheValue.getKey v = k
  fresh : ∀ {p : Ptr}, c.next ≤ p → c.heap p = none
  dirty : ∀ {k : κ} {p : Ptr}, c.dirty[k]? = some p → c.read k = some p

namespace WF

theorem empty : (BasicCache.empty : BasicCache κ τ).WF := by
  constructor <;> simp [BasicCache.empty, read]

/-- An object is cached under one key only, its own. -/
theorem inj (H : c.WF) (h : c.read k = some p) (h' : c.read k' = some p) : k = k' := by
  obtain ⟨v, hv, rfl⟩ := H.live h
  obtain ⟨v', hv', rfl⟩ := H.live h'
  rw [hv] at hv'; cases hv'; rfl

theorem lt_next (H : c.WF) (h : c.read k = some p) : p < c.next := by
  obtain ⟨v, hv, _⟩ := H.live h
  by_contra hn
  rw [H.fresh (Nat.not_lt.mp hn)] at hv
  cases hv

theorem get?_of_read (H : c.WF) (h : c.read k = some p) :
    ∃ v, c.heap p = some v ∧ c.get? k = some v ∧ CacheValue.getKey v = k := by
  obtain ⟨v, hv, hk⟩ := H.live h
  exact ⟨v, hv, by simp [get?, h, hv], hk⟩

theorem read_eq_none_iff (H : c.WF) : c.read k = none ↔ c.get? k = none := by
  cases h : c.read k with
  | none => simp [get?, h]
  | some p =>
    obtain ⟨v, _, hv, _⟩ := H.get?_of_read h
    simp [hv]

theorem read_of_isDirty (H : c.WF) (h : c.IsDirty k) : ∃ p, c.read k = some p := by
  have h : k ∈ c.dirty := h
  obtain ⟨p, hp⟩ := Option.isSome_iff_exists.mp (ExtTreeMap.mem_iff_isSome_getElem?.mp h)
  exact ⟨p, H.dirty hp⟩

theorem not_isDirty_of_read (H : c.WF) (h : c.read k = none) : ¬c.IsDirty k := fun hd => by
  obtain ⟨p, hp⟩ := H.read_of_isDirty hd
  simp [h] at hp

theorem setDirty [LawfulEqOrd κ] (H : c.WF) (h : c.read k = some p) : (c.setDirty k).WF where
  live hp := H.live (by rwa [read_setDirty h] at hp)
  fresh hp := H.fresh hp
  dirty {k' q} hq := by
    rw [read_setDirty h]
    simp only [BasicCache.setDirty, ExtTreeMap.getElem?_insert] at hq
    split at hq
    · next he =>
      cases LawfulEqCmp.eq_of_compare he
      rw [ExtTreeMap.getD_eq_getD_getElem?, ← read, h] at hq
      rw [h]; exact hq
    · exact H.dirty hq

theorem clearDirty (H : c.WF) : (c.clearDirty k).WF where
  live := H.live
  fresh := H.fresh
  dirty {k' q} hq := H.dirty (by
    simp only [BasicCache.clearDirty, ExtTreeMap.getElem?_erase] at hq
    split at hq
    · cases hq
    · exact hq)

theorem alloc (H : c.WF) : (c.alloc v).2.WF where
  live {k' q} hq := by
    obtain ⟨w, hw, hk⟩ := H.live hq
    exact ⟨w, by simpa [BasicCache.alloc, Function.update_of_ne (Nat.ne_of_lt (H.lt_next hq))], hk⟩
  fresh {q} hq := by
    simp only [BasicCache.alloc] at hq ⊢
    rw [Function.update_of_ne (Nat.ne_of_gt hq)]
    exact H.fresh (Nat.le_of_succ_le hq)
  dirty := H.dirty

/-- An object goes in under its own key, which nothing was cached under. -/
theorem insert [LawfulEqOrd κ] [DecidableEq κ] (H : c.WF) (h : c.read k = none)
    (hp : c.heap p = some v)
    (hv : CacheValue.getKey v = k) : (c.insert k p).WF where
  live {k' q} hq := by
    rw [read_insert] at hq
    split at hq
    · next he => subst he; cases hq; exact ⟨v, hp, hv⟩
    · exact H.live hq
  fresh := H.fresh
  dirty {k' q} hq := by
    have hq : c.read k' = some q := H.dirty hq
    rw [read_insert, if_neg fun he => by simp [← he, h] at hq]
    exact hq

omit [TransOrd κ] [CacheValue κ τ] in
theorem heap_alloc (c : BasicCache κ τ) (v : τ) : (c.alloc v).2.heap c.next = some v :=
  Function.update_self ..

theorem insert_alloc [LawfulEqOrd κ] [DecidableEq κ] (H : c.WF) (h : c.read k = none)
    (hv : CacheValue.getKey v = k) :
    ((c.alloc v).2.insert k (c.alloc v).1).WF :=
  H.alloc.insert h (heap_alloc c v) hv

theorem erase [LawfulEqOrd κ] [DecidableEq κ] (H : c.WF) : (c.erase k).WF where
  live {k' q} hq := by
    rw [read_erase] at hq
    split at hq
    · cases hq
    next hne =>
      obtain ⟨v, hv, hk⟩ := H.live hq
      have hp : c.read k ≠ some q := fun h => hne (H.inj h hq)
      exact ⟨v, by simpa [BasicCache.erase, hp] using hv, hk⟩
  fresh {q} hq := by
    simp only [BasicCache.erase, H.fresh hq, ite_self]
  dirty {k' q} hq := by
    simp only [BasicCache.erase, ExtTreeMap.getElem?_erase, Std.compare_eq_iff_eq] at hq
    split at hq
    · cases hq
    next hne => rw [read_erase, if_neg hne]; exact H.dirty hq

theorem clear (H : c.WF) : c.clear.WF where
  live hp := by simp at hp
  fresh {q} hq := by simp only [BasicCache.clear, H.fresh hq, ite_self]
  dirty hq := by simp [BasicCache.clear] at hq

theorem clearAllDirty (H : c.WF) : c.clearAllDirty.WF where
  live := H.live
  fresh := H.fresh
  dirty hq := by simp [BasicCache.clearAllDirty] at hq

/-- An object may change in place, but for its key. -/
theorem assign (H : c.WF) (h : c.heap p = some w)
    (hv : CacheValue.getKey v = CacheValue.getKey w) : (c.assign p v).WF where
  live {k' q} hq := by
    obtain ⟨u, hu, hk⟩ := H.live hq
    by_cases he : q = p
    · subst he
      cases Option.some.inj (h.symm.trans hu)
      exact ⟨v, Function.update_self .., hv.trans hk⟩
    · exact ⟨u, by simpa [BasicCache.assign, Function.update_of_ne he] using hu, hk⟩
  fresh {q} hq := by
    simp only [BasicCache.assign] at hq ⊢
    have hne : q ≠ p := fun he => by
      have := H.fresh hq
      rw [he, h] at this; cases this
    rw [Function.update_of_ne hne]
    exact H.fresh hq
  dirty hq := H.dirty hq

end WF

/-! ## Old pointers -/

/-- A pointer that was read under `k` some time ago: its object may be gone by now, but it never
is another one. -/
structure Handle (c : BasicCache κ τ) (k : κ) (p : Ptr) : Prop where
  lt : p < c.next
  read : ∀ v, c.heap p = some v → c.read k = some p

namespace Handle

theorem of_read (H : c.WF) (h : c.read k = some p) : c.Handle k p := ⟨H.lt_next h, fun _ _ => h⟩

omit [CacheValue κ τ] in
theorem setDirty [LawfulEqOrd κ] (H : c.Handle k' p) (h : c.read k = some q) :
    (c.setDirty k).Handle k' p :=
  ⟨H.lt, fun v hv => by rw [read_setDirty h]; exact H.read v hv⟩

omit [CacheValue κ τ] in
theorem insert_alloc [LawfulEqOrd κ] [DecidableEq κ] (H : c.Handle k' p) (h : c.read k = none) :
    ((c.alloc v).2.insert k (c.alloc v).1).Handle k' p where
  lt := Nat.lt_succ_of_lt H.lt
  read w hw := by
    simp only [BasicCache.alloc, BasicCache.insert, Function.update_of_ne (Nat.ne_of_lt H.lt)] at hw
    have hp := H.read w hw
    rw [read_insert, if_neg fun he => by simp [← he, h] at hp]
    exact hp

omit [CacheValue κ τ] in
theorem assign (H : c.Handle k' p) (h : c.heap q = some v) : (c.assign q w).Handle k' p where
  lt := H.lt
  read u hu := by
    by_cases he : p = q
    · subst he; exact H.read v h
    · simp only [BasicCache.assign, Function.update_of_ne he] at hu
      exact H.read u hu

omit [CacheValue κ τ] in
theorem erase [LawfulEqOrd κ] [DecidableEq κ] (H : c.Handle k' p) : (c.erase k).Handle k' p where
  lt := H.lt
  read v hv := by
    simp only [BasicCache.erase] at hv
    split at hv
    · cases hv
    next hne =>
      have hp := H.read v hv
      rw [read_erase, if_neg fun he : k = k' => hne (he ▸ hp)]
      exact hp

end Handle

/-! ## The effect of each method on the cached objects -/

omit [CacheValue κ τ] in
theorem get?_setDirty [LawfulEqOrd κ] (h : c.read k = some p) :
    (c.setDirty k).get? k' = c.get? k' := by
  simp only [get?, read_setDirty h]; rfl

omit [CacheValue κ τ] in
@[simp] theorem get?_clearDirty : (c.clearDirty k).get? k' = c.get? k' := rfl

theorem WF.get?_insert_alloc [LawfulEqOrd κ] [DecidableEq κ] (H : c.WF) :
    ((c.alloc v).2.insert k (c.alloc v).1).get? k' = if k = k' then some v else c.get? k' := by
  simp only [get?, read_insert]
  split
  · simp [BasicCache.alloc, BasicCache.insert]
  · rw [read_alloc]
    cases hq : c.read k' with
    | none => rfl
    | some q =>
      simp [BasicCache.alloc, BasicCache.insert,
        Function.update_of_ne (Nat.ne_of_lt (H.lt_next hq))]

theorem WF.get?_erase [LawfulEqOrd κ] [DecidableEq κ] (H : c.WF) :
    (c.erase k).get? k' = if k = k' then none else c.get? k' := by
  simp only [get?, read_erase]
  split
  · rfl
  next hne =>
    cases hq : c.read k' with
    | none => rfl
    | some q =>
      have hp : c.read k ≠ some q := fun h => hne (H.inj h hq)
      simp [BasicCache.erase, hp]

omit [CacheValue κ τ] in
theorem get?_assign_of_ne (h : c.read k ≠ some p) : (c.assign p v).get? k = c.get? k := by
  simp only [get?, read_assign]
  cases hq : c.read k with
  | none => rfl
  | some q =>
    have hne : q ≠ p := by
      rintro rfl
      exact h hq
    simp only [Option.bind_some, BasicCache.assign, Function.update_of_ne hne]

theorem WF.get?_assign [DecidableEq κ] (H : c.WF) (h : c.read k = some p) :
    (c.assign p v).get? k' = if k = k' then some v else c.get? k' := by
  split
  · next he =>
    subst he
    rw [get?, read_assign, h]
    exact Function.update_self ..
  · next hne => exact get?_assign_of_ne fun h' => hne (H.inj h h')

end BasicCache

end ColonyFS

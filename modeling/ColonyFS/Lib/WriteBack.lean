import Mathlib.Data.Option.Basic

/-!
# Write-back caches

A cache in front of a store. A dirty entry is on its way to the store, so it is the cached value that
counts; of the other keys the stored value does. `Coherent` says that every value that counts meets
a specification of its key. To fetch, to flush and to evict are cases of `Keeps`, which makes no
mention of the specification; a change of a cached value comes with a new one.
-/

variable {κ ν : Type _}

structure WriteBack (κ ν : Type _) where
  cached : κ → Option ν
  Dirty : κ → Prop
  stored : κ → Option ν

namespace WriteBack

variable {w w' w'' : WriteBack κ ν} {Good Good' : κ → Option ν → Prop} {k : κ} {v : ν}

/-- What a reader comes to see of a key. -/
def view (w : WriteBack κ ν) (k : κ) : Option ν := (w.cached k).or (w.stored k)

/-- A dirty key has a value to write back. -/
def Marked (w : WriteBack κ ν) : Prop := ∀ k, w.Dirty k → ∃ v, w.cached k = some v

/-- The cached values meet the specification, and those in the store that are not out of date. -/
structure Coherent (w : WriteBack κ ν) (Good : κ → Option ν → Prop) : Prop where
  cached : ∀ k v, w.cached k = some v → Good k (some v)
  stored : ∀ k, ¬w.Dirty k → Good k (w.stored k)

/-- Nothing new is cached or stored under a key: a clean value is fetched or dropped, and a dirty
one is written back. -/
structure KeepsAt (w w' : WriteBack κ ν) (k : κ) : Prop where
  cached : ∀ v, w'.cached k = some v → w.cached k = some v ∨ ¬w.Dirty k ∧ w.stored k = some v
  dirty : w'.Dirty k → w.Dirty k ∧ w'.cached k = w.cached k
  clean : ¬w.Dirty k → w'.stored k = w.stored k
  stored : w'.stored k = w.stored k ∨ w'.stored k = w.cached k
  written : w.Dirty k → ¬w'.Dirty k → w'.stored k = w.cached k

def Keeps (w w' : WriteBack κ ν) : Prop := ∀ k, KeepsAt w w' k

theorem KeepsAt.of_eq (hc : w'.cached k = w.cached k) (hd : w'.Dirty k ↔ w.Dirty k)
    (hs : w'.stored k = w.stored k) : KeepsAt w w' k where
  cached _ hv := .inl (hc ▸ hv)
  dirty h := ⟨hd.mp h, hc⟩
  clean _ := hs
  stored := .inl hs
  written h h' := (h' (hd.mpr h)).elim

theorem KeepsAt.refl (w : WriteBack κ ν) (k : κ) : KeepsAt w w k := .of_eq rfl Iff.rfl rfl

/-- A value moves between cache and store any number of times. -/
theorem KeepsAt.trans (H : KeepsAt w w' k) (H' : KeepsAt w' w'' k) : KeepsAt w w'' k where
  cached v hv := by
    obtain hv | ⟨hd', hs⟩ := H'.cached v hv
    · exact H.cached v hv
    · by_cases hd : w.Dirty k
      · exact .inl ((H.written hd hd').symm.trans hs)
      · exact .inr ⟨hd, (H.clean hd).symm.trans hs⟩
  dirty h := by
    obtain ⟨hd', hc'⟩ := H'.dirty h
    obtain ⟨hd, hc⟩ := H.dirty hd'
    exact ⟨hd, hc'.trans hc⟩
  clean hd := (H'.clean fun hd' => hd (H.dirty hd').1).trans (H.clean hd)
  stored := by
    by_cases hd' : w'.Dirty k
    · obtain hs | hs := H'.stored
      · exact H.stored.imp hs.trans hs.trans
      · exact .inr (hs.trans (H.dirty hd').2)
    · rw [H'.clean hd']
      exact H.stored
  written hd hd'' := by
    by_cases hd' : w'.Dirty k
    · exact (H'.written hd' hd'').trans (H.dirty hd').2
    · exact (H'.clean hd').trans (H.written hd hd')

theorem Keeps.refl (w : WriteBack κ ν) : Keeps w w := KeepsAt.refl w

theorem Keeps.trans (H : Keeps w w') (H' : Keeps w' w'') : Keeps w w'' := fun k =>
  (H k).trans (H' k)

/-! ## What moves -/

/-- A clean key is read into the cache. -/
theorem KeepsAt.fetched (hd : ¬w.Dirty k) (hd' : ¬w'.Dirty k) (hc : w'.cached k = w.stored k)
    (hs : w'.stored k = w.stored k) : KeepsAt w w' k where
  cached _ hv := .inr ⟨hd, hc ▸ hv⟩
  dirty h := (hd' h).elim
  clean _ := hs
  stored := .inl hs
  written h _ := (hd h).elim

/-- A dirty value is written back, and dropped unless it stays dirty. -/
theorem KeepsAt.flushed (hd : w.Dirty k) (hc : ∀ v, w'.cached k = some v → w.cached k = some v)
    (hc' : w'.Dirty k → w'.cached k = w.cached k) (hs : w'.stored k = w.cached k) :
    KeepsAt w w' k where
  cached v hv := .inl (hc v hv)
  dirty h := ⟨hd, hc' h⟩
  clean h := (h hd).elim
  stored := .inr hs
  written _ _ := hs

/-- A clean value is dropped. -/
theorem KeepsAt.evicted (hd : ¬w.Dirty k) (hd' : ¬w'.Dirty k) (hc : w'.cached k = none)
    (hs : w'.stored k = w.stored k) : KeepsAt w w' k where
  cached v hv := by cases hc.symm.trans hv
  dirty h := (hd' h).elim
  clean _ := hs
  stored := .inl hs
  written h _ := (hd h).elim

/-! ## What stays coherent -/

theorem Coherent.good_of_keepsAt (H : w.Coherent Good) (hm : w.Marked) (h : KeepsAt w w' k) :
    (∀ v, w'.cached k = some v → Good k (some v)) ∧ (¬w'.Dirty k → Good k (w'.stored k)) := by
  constructor
  · intro v hv
    obtain hv | ⟨hd, hs⟩ := h.cached v hv
    · exact H.cached k v hv
    · exact hs ▸ H.stored k hd
  · intro hd'
    by_cases hd : w.Dirty k
    · obtain ⟨v, hv⟩ := hm k hd
      rw [h.written hd hd', hv]
      exact H.cached k v hv
    · exact h.clean hd ▸ H.stored k hd

theorem Coherent.keeps (H : w.Coherent Good) (hm : w.Marked) (h : Keeps w w') :
    w'.Coherent Good where
  cached k := (H.good_of_keepsAt hm (h k)).1
  stored k := (H.good_of_keepsAt hm (h k)).2

/-- Some keys keep their values, which meet the new specification as well. The others get values in
the cache that do, and are dirty. -/
theorem Coherent.overwrite (H : w.Coherent Good) (hm : w.Marked) (h : ∀ k,
    (KeepsAt w w' k ∧ ∀ o, Good k o → Good' k o) ∨
      w'.Dirty k ∧ ∀ v, w'.cached k = some v → Good' k (some v)) : w'.Coherent Good' where
  cached k v hv := by
    obtain ⟨hk, himp⟩ | ⟨_, hnew⟩ := h k
    · exact himp _ ((H.good_of_keepsAt hm hk).1 v hv)
    · exact hnew v hv
  stored k hd := by
    obtain ⟨hk, himp⟩ | ⟨hd', _⟩ := h k
    · exact himp _ ((H.good_of_keepsAt hm hk).2 hd)
    · exact (hd hd').elim

/-- Every reader sees a value that meets the specification. -/
theorem Coherent.view (H : w.Coherent Good) (hm : w.Marked) (k : κ) : Good k (w.view k) := by
  cases hc : w.cached k with
  | some v =>
    rw [WriteBack.view, hc]
    exact H.cached k v hc
  | none =>
    rw [WriteBack.view, hc]
    refine H.stored k ?_
    intro hd
    obtain ⟨v, hv⟩ := hm k hd
    cases hc.symm.trans hv

end WriteBack

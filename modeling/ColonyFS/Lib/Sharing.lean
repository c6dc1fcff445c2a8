import ColonyFS.Lib.WriteBack

/-!
# Write-back caches that share a store

Clients take turns, and none is told what another one writes back. A `Turn` of a client leaves the
value of a key alone: it fetches, flushes and drops. `Turn.published` is what a flush is good for: once
a value is stored and no dirty copy of the key differs from it, the store keeps it in every turn, so
that a client without a copy comes to see no other value. `Turn.sees` bounds what is seen of a key
with one writer: values that were in the store.
-/

variable {ι κ ν : Type _}

/-- One cache for each client, and the store. -/
structure Sharing (ι κ ν : Type _) where
  cached : ι → κ → Option ν
  Dirty : ι → κ → Prop
  stored : κ → Option ν

namespace Sharing

open WriteBack (KeepsAt)

variable {s s' : Sharing ι κ ν} {V V' : ν → Prop} {i j w : ι} {k : κ} {v : ν}

/-- The cache of a client in front of the store. -/
def of (s : Sharing ι κ ν) (i : ι) : WriteBack κ ν := ⟨s.cached i, s.Dirty i, s.stored⟩

/-- Only the client `i` has done something to its copy of the key. -/
def Alone (i : ι) (k : κ) (s s' : Sharing ι κ ν) : Prop :=
  ∀ j ≠ i, s'.cached j k = s.cached j k ∧ (s'.Dirty j k ↔ s.Dirty j k)

/-- A turn of `i` that does not change the value of the key. -/
structure Turn (i : ι) (k : κ) (s s' : Sharing ι κ ν) : Prop where
  own : KeepsAt (s.of i) (s'.of i) k
  others : Alone i k s s'

theorem Turn.dirty (h : Turn i k s s') (hd : s'.Dirty j k) :
    s.Dirty j k ∧ s'.cached j k = s.cached j k := by
  by_cases hj : j = i
  · subst hj
    exact h.own.dirty hd
  · obtain ⟨hc, hiff⟩ := h.others j hj
    exact ⟨hiff.mp hd, hc⟩

/-- A copy was there, or comes from the store. -/
theorem Turn.cached (h : Turn i k s s') (hv : s'.cached j k = some v) :
    s.cached j k = some v ∨ s.stored k = some v := by
  by_cases hj : j = i
  · subst hj
    exact (h.own.cached v hv).imp_right And.right
  · exact .inl ((h.others j hj).1.symm.trans hv)

/-- What the turn of a client with a clean copy is to any client. -/
theorem Turn.keepsAt (h : Turn i k s s') (hd : ¬s.Dirty i k) (j : ι) :
    KeepsAt (s.of j) (s'.of j) k := by
  by_cases hj : j = i
  · exact hj ▸ h.own
  · obtain ⟨hc, hiff⟩ := h.others j hj
    exact .of_eq hc hiff (h.own.clean hd)

/-! ## After a flush -/

/-- The value is stored, and no client has another one to write back. -/
structure Published (k : κ) (v : ν) (s : Sharing ι κ ν) : Prop where
  stored : s.stored k = some v
  dirty : ∀ i, s.Dirty i k → s.cached i k = some v

theorem Turn.published (h : Turn i k s s') (H : Published k v s) : Published k v s' where
  stored := by
    by_cases hd : s.Dirty i k
    · obtain hs | hs := h.own.stored
      · exact hs.trans H.stored
      · exact hs.trans (H.dirty i hd)
    · exact (h.own.clean hd).trans H.stored
  dirty j hd := by
    obtain ⟨hd, hc⟩ := h.dirty hd
    exact hc.trans (H.dirty j hd)

/-- A client keeps the copy that it has, or comes to have the published one. -/
theorem Turn.cached_of_published (h : Turn i k s s') (H : Published k v s) {u : ν}
    (hu : s'.cached j k = some u) : s.cached j k = some u ∨ u = v :=
  (h.cached hu).imp_right fun hs => Option.some.inj (hs.symm.trans H.stored)

/-! ## One writer -/

/-- The client `w` is the only one with a dirty copy, and the store and the other clients have values
of `V`. -/
structure Sees (V : ν → Prop) (w : ι) (k : κ) (s : Sharing ι κ ν) : Prop where
  stored : ∀ v, s.stored k = some v → V v
  cached : ∀ i ≠ w, ∀ v, s.cached i k = some v → V v
  clean : ∀ i ≠ w, ¬s.Dirty i k

theorem Sees.mono (H : Sees V w k s) (h : ∀ v, V v → V' v) : Sees V' w k s where
  stored v hv := h v (H.stored v hv)
  cached i hi v hv := h v (H.cached i hi v hv)
  clean := H.clean

/-- The writer does what it likes to its copy. -/
theorem Sees.write (H : Sees V w k s) (h : Alone w k s s')
    (hs : ∀ v, s'.stored k = some v → V v) : Sees V w k s' where
  stored := hs
  cached i hi v hv := H.cached i hi v ((h i hi).1.symm.trans hv)
  clean i hi hd := H.clean i hi ((h i hi).2.mp hd)

theorem Turn.sees (h : Turn i k s s') (hi : i ≠ w) (H : Sees V w k s) : Sees V w k s' where
  stored v hv := H.stored v ((h.own.clean (H.clean i hi)).symm.trans hv)
  cached j hj v hv := (h.cached hv).elim (H.cached j hj v) (H.stored v)
  clean j hj hd := H.clean j hj (h.dirty hd).1

/-- The writer's flush of a clean key, or of a value that the others may come to see. -/
theorem Sees.published (H : Sees V w k s) (hs : s.stored k = some v)
    (hd : s.Dirty w k → s.cached w k = some v) : Published k v s where
  stored := hs
  dirty i h := by
    by_cases hi : i = w
    · exact hi ▸ hd (hi ▸ h)
    · exact (H.clean i hi h).elim

end Sharing

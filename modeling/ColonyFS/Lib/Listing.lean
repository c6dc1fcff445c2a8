import Mathlib.Data.List.Nodup
import Mathlib.Logic.Function.Basic

/-!
# Directory trees given by listings

A table from paths to nodes, where a node is a directory with the names of its entries or something
else without entries. Nothing in such a table ties a directory to the nodes below it; `IsTree` says
that it describes a tree. A path is the list of its components from the root.

`add` and `remove` are what an update of two entries of the table, the node and its parent, has to
look like to keep a tree a tree. What they need to know about updates stands first, for any table.
-/

namespace Table

open Function

variable {κ α : Type _} [DecidableEq κ] {t : κ → Option α} {k k' : κ} {a b : α} {o : Option α}

/-- An entry that is set makes no other one go. -/
theorem exists_update (h : ∃ b, t k' = some b) : ∃ b, update t k (some a) k' = some b := by
  obtain rfl | hk := eq_or_ne k' k
  · exact ⟨a, update_self ..⟩
  · rwa [update_of_ne hk]

/-- An update of an entry that was there makes no other one appear. -/
theorem exists_of_update (hk : ∃ b, t k = some b) (h : update t k o k' = some b) :
    ∃ b, t k' = some b := by
  obtain rfl | hne := eq_or_ne k' k
  · exact hk
  · rw [update_of_ne hne] at h
    exact ⟨b, h⟩

/-- What holds of all entries holds of those of an updated table if it holds of the new one. -/
theorem forall_update {P : κ → α → Prop} (H : ∀ k' b, t k' = some b → P k' b)
    (ho : ∀ b, o = some b → P k b) (k' : κ) (b : α) (h : update t k o k' = some b) : P k' b := by
  obtain rfl | hk := eq_or_ne k' k
  · rw [update_self] at h
    exact ho b h
  · rw [update_of_ne hk] at h
    exact H k' b h

end Table

/-- The node at each path: `none` is no node, `some none` a node without entries, and
`some (some l)` a directory with the entries `l`. -/
abbrev Listing (ν : Type _) := List ν → Option (Option (List ν))

namespace Listing

open Function

variable {ν : Type _} [DecidableEq ν] [BEq ν] [LawfulBEq ν] {t : Listing ν} {p : List ν} {n : ν}
  {l l' : List ν} {x : Option (List ν)}

/-- Every node but the root is listed once by a directory above it, and every entry of a directory
is the name of a node. -/
structure IsTree (t : Listing ν) : Prop where
  root : ∃ l, t [] = some (some l)
  parent : ∀ {p n x}, t (p ++ [n]) = some x → ∃ l, t p = some (some l) ∧ l.count n = 1
  child : ∀ {p l n}, t p = some (some l) → n ∈ l → ∃ x, t (p ++ [n]) = some x

/-- A node that may be added or removed: nothing is below it. -/
def Bare (x : Option (List ν)) : Prop := x = none ∨ x = some []

namespace IsTree

omit [LawfulBEq ν] in
/-- A root and nothing else. -/
theorem single : IsTree (update (fun _ => none : Listing ν) [] (some (some []))) where
  root := ⟨[], update_self ..⟩
  parent h := by simp at h
  child {p l n} h hn := by
    obtain rfl | hp := eq_or_ne p []
    · rw [update_self] at h
      cases h
      cases hn
    · rw [update_of_ne hp] at h
      cases h

omit [DecidableEq ν] in
/-- What a directory lists is what is there. -/
theorem mem_iff (H : IsTree t) (h : t p = some (some l)) : n ∈ l ↔ ∃ x, t (p ++ [n]) = some x := by
  constructor
  · exact H.child h
  · rintro ⟨x, hx⟩
    obtain ⟨l', hl', hc⟩ := H.parent hx
    cases h.symm.trans hl'
    exact List.count_pos_iff.mp (by omega)

omit [DecidableEq ν] [LawfulBEq ν] in
theorem count_eq (H : IsTree t) (h : t p = some (some l)) (hn : t (p ++ [n]) = some x) :
    l.count n = 1 := by
  obtain ⟨l', hl', hc⟩ := H.parent hn
  cases h.symm.trans hl'
  exact hc

omit [DecidableEq ν] [LawfulBEq ν] in
theorem not_mem (H : IsTree t) (h : t p = some (some l)) (hn : t (p ++ [n]) = none) : n ∉ l := by
  intro hm
  obtain ⟨x, hx⟩ := H.child h hm
  simp [hn] at hx

omit [DecidableEq ν] in
theorem nodup (H : IsTree t) (h : t p = some (some l)) : l.Nodup := by
  apply List.nodup_iff_count_le_one.mpr
  intro n
  cases hn : t (p ++ [n]) with
  | none => simp [List.count_eq_zero_of_not_mem (H.not_mem h hn)]
  | some x => exact Nat.le_of_eq (H.count_eq h hn)

omit [DecidableEq ν] [LawfulBEq ν] in
/-- Nothing is below a bare node. -/
theorem below_bare (H : IsTree t) (h : t p = some x) (hx : Bare x) : t (p ++ [n]) = none := by
  cases hq : t (p ++ [n]) with
  | none => rfl
  | some y =>
    obtain ⟨l, hl, hc⟩ := H.parent hq
    cases h.symm.trans hl
    obtain hx | hx := hx <;> cases hx
    simp at hc

/-- A bare node appears under a new name, and its parent lists it. -/
theorem add (H : IsTree t) (hp : t p = some (some l)) (hq : t (p ++ [n]) = none) (hx : Bare x) :
    IsTree (update (update t (p ++ [n]) (some x)) p (some (some (l ++ [n])))) where
  root := by
    obtain ⟨k, hk⟩ := H.root
    obtain rfl | h := eq_or_ne p []
    · exact ⟨l ++ [n], update_self ..⟩
    · exact ⟨k, by rw [update_of_ne h.symm, update_of_ne (by simp), hk]⟩
  parent {r m y} h := by
    obtain hr | hr := eq_or_ne (r ++ [m]) (p ++ [n])
    · obtain ⟨rfl, hm⟩ := List.append_inj' hr rfl
      cases hm
      refine ⟨l ++ [n], update_self .., ?_⟩
      simp [List.count_eq_zero_of_not_mem (H.not_mem hp hq)]
    -- an old node, whose parent lists it still
    have hp' : ∃ z, update t (p ++ [n]) (some x) p = some z := Table.exists_update ⟨_, hp⟩
    obtain ⟨z, hz⟩ := Table.exists_of_update hp' h
    rw [update_of_ne hr] at hz
    obtain ⟨k, hk, hc⟩ := H.parent hz
    obtain rfl | hrp := eq_or_ne r p
    · cases hp.symm.trans hk
      refine ⟨l ++ [n], update_self .., ?_⟩
      have hne : n ≠ m := fun h => hr (by rw [h])
      rw [List.count_append, hc, List.count_singleton, if_neg (by simpa using hne)]
    · refine ⟨k, ?_, hc⟩
      rw [update_of_ne hrp, update_of_ne, hk]
      intro h
      simp [h, hq] at hk
  child {r k m} h hm := by
    have keep : ∀ {s}, (∃ y, t s = some y) →
        ∃ z, update (update t (p ++ [n]) (some x)) p (some (some (l ++ [n]))) s = some z :=
      fun hs => Table.exists_update (Table.exists_update hs)
    obtain rfl | hr := eq_or_ne r p
    · rw [update_self] at h
      cases h
      rcases List.mem_append.mp hm with hm | hm
      · exact keep (H.child hp hm)
      · cases List.mem_singleton.mp hm
        exact Table.exists_update ⟨x, update_self ..⟩
    · rw [update_of_ne hr] at h
      obtain rfl | hr' := eq_or_ne r (p ++ [n])
      · rw [update_self] at h
        cases h
        obtain hx | hx := hx <;> cases hx
        cases hm
      · rw [update_of_ne hr'] at h
        exact keep (H.child h hm)

/-- A bare node goes, and its parent no longer lists it. -/
theorem remove (H : IsTree t) (hp : t p = some (some l)) (hq : t (p ++ [n]) = some x) (hx : Bare x)
    (hl : ∀ m, l'.count m = if m = n then 0 else l.count m) :
    IsTree (update (update t p (some (some l'))) (p ++ [n]) none) where
  root := by
    obtain ⟨k, hk⟩ := H.root
    rw [update_of_ne (by simp)]
    obtain rfl | h := eq_or_ne p []
    · exact ⟨l', update_self ..⟩
    · exact ⟨k, by rw [update_of_ne h.symm, hk]⟩
  parent {r m y} h := by
    have hr : r ++ [m] ≠ p ++ [n] := fun hr => by simp [hr] at h
    rw [update_of_ne hr] at h
    obtain ⟨y, hy⟩ := Table.exists_of_update ⟨_, hp⟩ h
    obtain ⟨k, hk, hc⟩ := H.parent hy
    have hrq : r ≠ p ++ [n] := by
      rintro rfl
      rw [H.below_bare hq hx] at hy
      cases hy
    rw [update_of_ne hrq]
    obtain rfl | hrp := eq_or_ne r p
    · cases hp.symm.trans hk
      refine ⟨l', update_self .., ?_⟩
      rw [hl, if_neg fun h => hr (by rw [h]), hc]
    · exact ⟨k, by rw [update_of_ne hrp, hk], hc⟩
  child {r k m} h hm := by
    have hrq : r ≠ p ++ [n] := fun hrq => by simp [hrq] at h
    rw [update_of_ne hrq] at h
    have hold : r ++ [m] ≠ p ++ [n] ∧ ∃ y, t (r ++ [m]) = some y := by
      obtain rfl | hr := eq_or_ne r p
      · rw [update_self] at h
        cases h
        have hpos := List.count_pos_iff.mpr hm
        rw [hl] at hpos
        split at hpos
        · omega
        · next hmn => exact ⟨by simpa using hmn, H.child hp (List.count_pos_iff.mp hpos)⟩
      · rw [update_of_ne hr] at h
        exact ⟨fun he => hr (List.append_inj' he rfl).1, H.child h hm⟩
    obtain ⟨hne, hy⟩ := hold
    rw [update_of_ne hne]
    exact Table.exists_update hy

end IsTree

end Listing

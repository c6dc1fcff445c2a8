import Mathlib.Data.List.Basic

/-!
# Growable vectors

A `std::vector` as a list, with `resize`, `memcpy` into a vector, and the growing store that the
two make together. Each operation comes with its length and its elements (`l[i]?`), which is all
that a proof about a vector needs.
-/

namespace Vec

variable {α : Type _} {z : α} {v src : List α} {off len n i : Nat}

/-- The `len` elements from position `off` on. -/
def slice (v : List α) (off len : Nat) : List α := (v.drop off).take len

/-- `v.resize(n)`: the elements past `n` go, new ones are `z`. -/
def resize (z : α) (v : List α) (n : Nat) : List α :=
  v.take n ++ List.replicate (n - v.length) z

/-- `memcpy(&v[off], src, src.size())`, for a source that fits. -/
def memcpy (v : List α) (off : Nat) (src : List α) : List α :=
  v.take off ++ src ++ v.drop (off + src.length)

/-- The store that grows the vector when `src` does not fit. -/
def store (z : α) (v : List α) (off : Nat) (src : List α) : List α :=
  memcpy (if v.length < off + src.length then resize z v (off + src.length) else v) off src

@[simp] theorem length_slice : (slice v off len).length = min len (v.length - off) := by
  simp [slice]

theorem getElem?_slice : (slice v off len)[i]? = if i < len then v[off + i]? else none := by
  simp [slice, List.getElem?_take, List.getElem?_drop]

@[simp] theorem slice_zero : slice v 0 v.length = v := by simp [slice]

theorem slice_empty : slice v off 0 = [] := List.take_zero

theorem slice_one (h : off < v.length) : slice v off 1 = [v[off]] := by
  rw [slice, List.drop_eq_getElem_cons h, List.take_succ_cons, List.take_zero]

@[simp] theorem length_resize : (resize z v n).length = n := by simp [resize]; omega

@[simp] theorem resize_length : resize z v v.length = v := by simp [resize]

theorem getElem?_resize :
    (resize z v n)[i]? = if i < n then (if i < v.length then v[i]? else some z) else none := by
  simp only [resize, List.getElem?_append, List.length_take, List.getElem?_take,
    List.getElem?_replicate]
  by_cases h1 : i < n
  · by_cases h2 : i < v.length
    · rw [if_pos (by omega), if_pos h1, if_pos h1, if_pos h2]
    · rw [if_neg (by omega), if_pos (by omega), if_pos h1, if_neg h2]
  · rw [if_neg (by omega), if_neg (by omega), if_neg h1]

theorem length_memcpy (h : off + src.length ≤ v.length) : (memcpy v off src).length = v.length := by
  simp [memcpy]; omega

theorem getElem?_memcpy (h : off + src.length ≤ v.length) :
    (memcpy v off src)[i]? = if off ≤ i ∧ i < off + src.length then src[i - off]? else v[i]? := by
  have hoff : (v.take off).length = off := by rw [List.length_take]; omega
  simp only [memcpy, List.append_assoc, List.getElem?_append, hoff, List.getElem?_take,
    List.getElem?_drop]
  by_cases h1 : i < off
  · rw [if_pos h1, if_pos h1, if_neg (by omega)]
  · rw [if_neg h1]
    by_cases h2 : i - off < src.length
    · rw [if_pos h2, if_pos (by omega)]
    · rw [if_neg h2, if_neg (by omega)]; congr 1; omega

@[simp] theorem memcpy_nil : memcpy v off [] = v := by simp [memcpy]

theorem length_store : (store z v off src).length = max v.length (off + src.length) := by
  unfold store
  split
  · rw [length_memcpy (by simp), length_resize]; omega
  · rw [length_memcpy (by omega)]; omega

/-- Inside the stored range the source, outside it the old element, and the fill in a gap. -/
theorem getElem?_store : (store z v off src)[i]? =
    if off ≤ i ∧ i < off + src.length then src[i - off]?
    else if i < v.length then v[i]? else if i < off then some z else none := by
  unfold store
  split
  · rw [getElem?_memcpy (by simp), getElem?_resize]
    split
    · rfl
    · by_cases h1 : i < v.length
      · rw [if_pos h1, if_pos h1, if_pos (by omega)]
      · rw [if_neg h1, if_neg h1]
        by_cases h2 : i < off
        · rw [if_pos (by omega), if_pos h2]
        · rw [if_neg (by omega), if_neg h2]
  · rw [getElem?_memcpy (by omega)]
    split
    · rfl
    · by_cases h1 : i < v.length
      · rw [if_pos h1]
      · rw [if_neg h1, if_neg (by omega), List.getElem?_eq_none (by omega)]

@[simp] theorem store_nil : store z v 0 [] = v := by simp [store]

theorem getElem?_store_of_mem (h1 : off ≤ i) (h2 : i < off + src.length) :
    (store z v off src)[i]? = src[i - off]? := by
  rw [getElem?_store, if_pos ⟨h1, h2⟩]

/-- A store never changes an element outside its range. -/
theorem getElem?_store_of_not_mem (h : ¬(off ≤ i ∧ i < off + src.length)) (hi : i < v.length) :
    (store z v off src)[i]? = v[i]? := by
  rw [getElem?_store, if_neg h, if_pos hi]

/-- The stored range is what was stored. -/
theorem slice_store : slice (store z v off src) off src.length = src := by
  apply List.ext_getElem?
  intro i
  rw [getElem?_slice]
  split
  · next hi =>
    rw [getElem?_store_of_mem (Nat.le_add_right _ _) (by omega), Nat.add_sub_cancel_left]
  · next hi => exact (List.getElem?_eq_none (Nat.le_of_not_lt hi)).symm

/-- One element is stored at a time. -/
theorem memcpy_singleton_inj {a b : α} (h : off + 1 ≤ v.length) :
    memcpy v off [a] = memcpy v off [b] ↔ a = b := by
  have hoff : ∀ x : α, (memcpy v off [x])[off]? = some x := by
    intro x
    rw [getElem?_memcpy h, if_pos ⟨Nat.le_refl _, Nat.lt_succ_self _⟩, Nat.sub_self]
    rfl
  constructor
  · intro he
    rw [← Option.some_inj, ← hoff a, ← hoff b, he]
  · rintro rfl
    rfl

/-- A vector that is filled from its start to its end. -/
theorem memcpy_all (h : v.length = src.length) : memcpy v 0 src = src := by
  rw [memcpy, List.take_zero, List.nil_append, Nat.zero_add,
    List.drop_eq_nil_of_le (Nat.le_of_eq h), List.append_nil]

/-! ## Vectors that agree at a position -/

variable {w : List α}

theorem slice_congr (h : ∀ i, off ≤ i → i < off + len → v[i]? = w[i]?) :
    slice v off len = slice w off len := by
  apply List.ext_getElem?
  intro i
  rw [getElem?_slice, getElem?_slice]
  split
  · exact h _ (by omega) (by omega)
  · rfl

theorem getElem?_store_congr (hlen : v.length = w.length)
    (h : v[i]? = w[i]? ∨ off ≤ i ∧ i < off + src.length) :
    (store z v off src)[i]? = (store z w off src)[i]? := by
  rw [getElem?_store, getElem?_store, hlen]
  split
  · rfl
  · next hno => rw [h.resolve_right hno]

theorem getElem?_resize_congr (hlen : v.length = w.length) (h : v[i]? = w[i]? ∨ n ≤ i) :
    (resize z v n)[i]? = (resize z w n)[i]? := by
  rw [getElem?_resize, getElem?_resize, hlen]
  split
  · next hlt => rw [h.resolve_right (by omega)]
  · rfl

end Vec

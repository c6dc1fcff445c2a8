import Mathlib.Order.Basic

/-!
# Stepping through `EStateM` programs

Rules to follow a program of `EStateM` statement by statement, from the result of each statement,
for proofs in which the programs are large and their unfolded form is of no use.
-/

namespace Exec

variable {ε σ α β : Type _} {x : EStateM ε σ α} {f : α → EStateM ε σ β} {s s' : σ}

theorem bind_of_ok (h : x s = .ok a s') : (x >>= f) s = f a s' := by
  simp only [bind, EStateM.bind, h]

theorem bind_of_error (h : x s = .error e s') : (x >>= f) s = .error e s' := by
  simp only [bind, EStateM.bind, h]

/-- A program returns if and only if its first statement and the rest do. -/
theorem bind_eq_ok : (x >>= f) s = .ok b s' ↔ ∃ a t, x s = .ok a t ∧ f a t = .ok b s' := by
  constructor
  · intro h
    simp only [bind, EStateM.bind] at h
    split at h
    · next a t ha => exact ⟨a, t, ha, h⟩
    · cases h
  · rintro ⟨a, t, ha, hb⟩
    rw [bind_of_ok ha, hb]

/-- A program stops if and only if its first statement does, or the rest. -/
theorem bind_eq_error : (x >>= f) s = .error e s' ↔
    x s = .error e s' ∨ ∃ a t, x s = .ok a t ∧ f a t = .error e s' := by
  constructor
  · intro h
    simp only [bind, EStateM.bind] at h
    split at h
    · next a t ha => exact .inr ⟨a, t, ha, h⟩
    · next he => cases h; exact .inl he
  · rintro (he | ⟨a, t, ha, he⟩)
    · exact bind_of_error he
    · rw [bind_of_ok ha, he]

theorem pure_apply (a : α) (s : σ) : (pure a : EStateM ε σ α) s = .ok a s := rfl

theorem modify_apply (g : σ → σ) (s : σ) : (modify g : EStateM ε σ PUnit) s = .ok ⟨⟩ (g s) := rfl

/-- Stop with `e` unless `p` holds. -/
def require (p : Prop) [Decidable p] (e : ε) : EStateM ε σ Unit := fun s =>
  if p then .ok () s else .error e s

variable {p : Prop} [Decidable p] {e : ε}

theorem require_ok (h : p) : (require p e : EStateM ε σ Unit) s = .ok () s := if_pos h

theorem require_error (h : ¬p) : (require p e : EStateM ε σ Unit) s = .error e s := if_neg h

theorem require_eq_ok {u : Unit} (h : (require p e : EStateM ε σ Unit) s = .ok u s') :
    p ∧ s' = s := by
  simp only [require] at h
  split at h
  · next hp => cases h; exact ⟨hp, rfl⟩
  · cases h

theorem require_eq_error {e' : ε} (h : (require p e : EStateM ε σ Unit) s = .error e' s') :
    e' = e := by
  simp only [require] at h
  split at h
  · cases h
  · cases h
    rfl

/-- The state at the end of a program, whether it returns or stops. -/
def final : EStateM.Result ε σ α → σ
  | .ok _ s => s
  | .error _ s => s

@[simp] theorem final_ok {a : α} : final (.ok a s : EStateM.Result ε σ α) = s := rfl

@[simp] theorem final_error : final (.error e s : EStateM.Result ε σ α) = s := rfl

/-- The value and the state of a program that returns. -/
def result? : EStateM.Result ε σ α → Option (α × σ)
  | .ok a s => some (a, s)
  | .error _ _ => none

/-- The state of a program that returns. -/
def state? : EStateM.Result ε σ α → Option σ
  | .ok _ s => some s
  | .error _ _ => none

theorem of_state? {r : EStateM.Result ε σ α} (h : state? r = some s) : ∃ a, r = .ok a s := by
  cases r <;> cases h
  exact ⟨_, rfl⟩

theorem eq_ok_of_result? {r : EStateM.Result ε σ α} (h : result? r = some (a, s)) :
    r = .ok a s := by
  cases r <;> cases h; rfl

/-- What a program stops with. -/
def error? : EStateM.Result ε σ α → Option ε
  | .ok _ _ => none
  | .error e _ => some e

theorem of_error? {r : EStateM.Result ε σ α} (h : error? r = some e) : ∃ s, r = .error e s := by
  cases r <;> cases h
  exact ⟨_, rfl⟩

/-- Run a program on one part of a larger state. -/
def zoom (get : τ → σ) (set : σ → τ → τ) (x : EStateM ε σ α) : EStateM ε τ α := fun t =>
  match x (get t) with
  | .ok a s => .ok a (set s t)
  | .error e s => .error e (set s t)

theorem zoom_ok {get : τ → σ} {set : σ → τ → τ} (h : x (get t) = .ok a s) :
    zoom get set x t = .ok a (set s t) := by simp only [zoom, h]

theorem zoom_error {get : τ → σ} {set : σ → τ → τ} (h : x (get t) = .error e s) :
    zoom get set x t = .error e (set s t) := by simp only [zoom, h]

theorem zoom_eq_ok {get : τ → σ} {set : σ → τ → τ} (h : zoom get set x t = .ok a t') :
    ∃ s, x (get t) = .ok a s ∧ t' = set s t := by
  simp only [zoom] at h
  split at h
  · next b s hs => cases h; exact ⟨s, hs, rfl⟩
  · cases h

theorem zoom_eq_error {get : τ → σ} {set : σ → τ → τ} (h : zoom get set x t = .error e t') :
    ∃ s, x (get t) = .error e s ∧ t' = set s t := by
  simp only [zoom] at h
  split at h
  · cases h
  · next b s hs => cases h; exact ⟨s, hs, rfl⟩

end Exec

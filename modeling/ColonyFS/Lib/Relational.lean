import ColonyFS.Lib.Exec

/-!
# Two runs of `EStateM` programs

`Rel R S x y` says that `x` and `y`, started in states that `R` relates, both return or both stop for
the same reason, in states that `R` relates, and with values that `S` relates. `Keeps` is the case of
one run: an invariant that a program keeps, whether it returns or stops.
-/

namespace Exec

variable {ε σ τ σ' τ' α β γ δ : Type _} {R : σ → τ → Prop} {S : α → β → Prop} {T : γ → δ → Prop}
  {I : σ → Prop} {s s' : σ} {t : τ}

/-- Both results are values, or both are the same exception. -/
def Related (R : σ → τ → Prop) (S : α → β → Prop) :
    EStateM.Result ε σ α → EStateM.Result ε τ β → Prop
  | .ok a s, .ok b t => S a b ∧ R s t
  | .error e s, .error e' t => e = e' ∧ R s t
  | _, _ => False

/-- Whatever the values. -/
def Any (_ : α) (_ : β) : Prop := True

def Rel (R : σ → τ → Prop) (S : α → β → Prop) (x : EStateM ε σ α) (y : EStateM ε τ β) : Prop :=
  ∀ s t, R s t → Related R S (x s) (y t)

variable {x : EStateM ε σ α} {y : EStateM ε τ β} {f : α → EStateM ε σ γ} {g : β → EStateM ε τ δ}

namespace Rel

theorem pure {a : α} {b : β} (h : S a b) :
    Rel R S (pure a : EStateM ε σ α) (pure b : EStateM ε τ β) := fun _ _ hR => ⟨h, hR⟩

theorem throw (e : ε) : Rel R S (throw e : EStateM ε σ α) (throw e : EStateM ε τ β) :=
  fun _ _ hR => ⟨rfl, hR⟩

/-- If the first run returns, so does the second one. -/
theorem ok (h : Rel R S x y) (hR : R s t) {a : α} (hx : x s = .ok a s') :
    ∃ b t', y t = .ok b t' ∧ S a b ∧ R s' t' := by
  have hr := h s t hR
  rw [hx] at hr
  cases hy : y t with
  | ok b t' => rw [hy] at hr; exact ⟨b, t', rfl, hr⟩
  | error e t' => rw [hy] at hr; exact hr.elim

/-- If the first run stops, the second one stops for the same reason. -/
theorem error (h : Rel R S x y) (hR : R s t) {e : ε} (hx : x s = .error e s') :
    ∃ t', y t = .error e t' ∧ R s' t' := by
  have hr := h s t hR
  rw [hx] at hr
  cases hy : y t with
  | ok b t' => rw [hy] at hr; exact hr.elim
  | error e' t' => rw [hy] at hr; exact ⟨t', by rw [hr.1], hr.2⟩

theorem bind (hx : Rel R S x y) (hf : ∀ a b, S a b → Rel R T (f a) (g b)) :
    Rel R T (x >>= f) (y >>= g) := by
  intro s t hR
  cases h : x s with
  | ok a s' =>
    obtain ⟨b, t', hy, hS, hR'⟩ := hx.ok hR h
    rw [bind_of_ok h, bind_of_ok hy]
    exact hf a b hS s' t' hR'
  | error e s' =>
    obtain ⟨t', hy, hR'⟩ := hx.error hR h
    rw [bind_of_error h, bind_of_error hy]
    exact ⟨rfl, hR'⟩

/-- The rest runs on the same value. -/
theorem bind_eq {y : EStateM ε τ α} {g : α → EStateM ε τ δ} (hx : Rel R Eq x y)
    (hf : ∀ a, Rel R T (f a) (g a)) : Rel R T (x >>= f) (y >>= g) :=
  hx.bind fun a _ hab => hab ▸ hf a

theorem mono {S' : α → β → Prop} (h : Rel R S x y) (hS : ∀ a b, S a b → S' a b) :
    Rel R S' x y := by
  intro s t hR
  cases hx : x s with
  | ok a s' =>
    obtain ⟨b, t', hy, hab, hR'⟩ := h.ok hR hx
    rw [hy]
    exact ⟨hS a b hab, hR'⟩
  | error e s' =>
    obtain ⟨t', hy, hR'⟩ := h.error hR hx
    rw [hy]
    exact ⟨rfl, hR'⟩

theorem require {p q : Prop} [Decidable p] [Decidable q] (h : p ↔ q) (e : ε) :
    Rel R Eq (require p e : EStateM ε σ Unit) (Exec.require q e : EStateM ε τ Unit) := by
  intro s t hR
  by_cases hp : p
  · rw [require_ok hp, require_ok (h.mp hp)]
    exact ⟨rfl, hR⟩
  · rw [require_error hp, require_error (mt h.mpr hp)]
    exact ⟨rfl, hR⟩

/-- What follows may rely on what was required. -/
theorem require_bind {p q : Prop} [Decidable p] [Decidable q] {e : ε} (h : p ↔ q)
    (hxy : p → Rel R S x y) : Rel R S (Exec.require p e >>= fun _ => x)
      (Exec.require q e >>= fun _ => y) := by
  intro s t hR
  by_cases hp : p
  · rw [bind_of_ok (require_ok hp), bind_of_ok (require_ok (h.mp hp))]
    exact hxy hp s t hR
  · rw [bind_of_error (require_error hp), bind_of_error (require_error (mt h.mpr hp))]
    exact ⟨rfl, hR⟩

theorem modify {f : σ → σ} {g : τ → τ} (h : ∀ s t, R s t → R (f s) (g t)) :
    Rel R Eq (modify f : EStateM ε σ PUnit) (modify g : EStateM ε τ PUnit) :=
  fun s t hR => ⟨rfl, h s t hR⟩

theorem any (h : Rel R S x y) : Rel R Any x y := h.mono fun _ _ _ => trivial

/-- Programs on related parts of the states. -/
theorem zoom {R' : σ' → τ' → Prop} {x : EStateM ε σ' α} {y : EStateM ε τ' β} {get : σ → σ'}
    {get' : τ → τ'} {set : σ' → σ → σ} {set' : τ' → τ → τ} (h : Rel R' S x y)
    (hget : ∀ s t, R s t → R' (get s) (get' t))
    (hset : ∀ s t u v, R s t → R' u v → R (set u s) (set' v t)) :
    Rel R S (zoom get set x) (Exec.zoom get' set' y) := by
  intro s t hR
  cases hx : x (get s) with
  | ok a u =>
    obtain ⟨b, v, hy, hS, hR'⟩ := h.ok (hget s t hR) hx
    rw [zoom_ok hx, zoom_ok hy]
    exact ⟨hS, hset s t u v hR hR'⟩
  | error e u =>
    obtain ⟨v, hy, hR'⟩ := h.error (hget s t hR) hx
    rw [zoom_error hx, zoom_error hy]
    exact ⟨rfl, hset s t u v hR hR'⟩

end Rel

/-- The run of `x` keeps the invariant `I`. -/
def Keeps (I : σ → Prop) (x : EStateM ε σ α) : Prop := Rel (fun s t => s = t ∧ I s) Eq x x

theorem keeps_iff : Keeps I x ↔ ∀ s, I s → I (final (x s)) := by
  constructor
  · intro h s hs
    have hr := h s s ⟨rfl, hs⟩
    cases hx : x s <;> rw [hx] at hr <;> exact hr.2.2
  · rintro h s _ ⟨rfl, hs⟩
    have hI := h s hs
    cases hx : x s <;> rw [hx] at hI <;> exact ⟨rfl, rfl, hI⟩

theorem Keeps.ok {a : α} (h : Keeps I x) (hs : I s) (hx : x s = .ok a s') : I s' := by
  have hI := keeps_iff.mp h s hs
  rwa [hx] at hI

/-- A program on another part of the state. -/
theorem keeps_zoom {get : σ → τ} {set : τ → σ → σ} {x : EStateM ε τ α}
    (h : ∀ s u, I s → I (set u s)) : Keeps I (zoom get set x) := by
  rw [keeps_iff]
  intro s hs
  cases hx : x (get s) with
  | ok a u => rw [zoom_ok hx]; exact h s u hs
  | error e u => rw [zoom_error hx]; exact h s u hs

end Exec

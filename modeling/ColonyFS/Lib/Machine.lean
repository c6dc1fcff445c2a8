import Mathlib.Order.Basic

/-!
# Runs of a labelled machine

A machine is a partial step function. `Reach step ok s₀` are the states of the runs from `s₀` whose
steps all meet the side condition `ok`; `always` gives all runs. `Reach.invariant` is the one
induction every safety proof goes through, and `Reach.of_run` turns an evaluated trace into a
reachable state.
-/

namespace Machine

variable {σ α : Type _} {step : σ → α → Option σ} {ok ok' : σ → α → Prop}

/-- No condition on the steps of a run. -/
def always : σ → α → Prop := fun _ _ => True

instance (s : σ) (a : α) : Decidable (always s a) := .isTrue trivial

/-- The states reached by runs from `s₀` in which every step meets `ok`. -/
inductive Reach (step : σ → α → Option σ) (ok : σ → α → Prop) (s₀ : σ) : σ → Prop where
  | init : Reach step ok s₀ s₀
  | step : Reach step ok s₀ s → ok s a → step s a = some s' → Reach step ok s₀ s'

/-- A property that holds initially and is kept by every admitted step holds in every state. -/
theorem Reach.invariant {P : σ → Prop} (H : Reach step ok s₀ s) (init : P s₀)
    (keep : ∀ s a s', P s → ok s a → step s a = some s' → P s') : P s := by
  induction H with
  | init => exact init
  | step _ hok hstep ih => exact keep _ _ _ ih hok hstep

theorem Reach.mono (h : ∀ s a, ok s a → ok' s a) (H : Reach step ok s₀ s) :
    Reach step ok' s₀ s := by
  induction H with
  | init => exact .init
  | step _ hok hstep ih => exact .step ih (h _ _ hok) hstep

theorem Reach.trans (H : Reach step ok s₀ s) (H' : Reach step ok s s') : Reach step ok s₀ s' := by
  induction H' with
  | init => exact H
  | step _ hok hstep ih => exact .step ih hok hstep

/-- A step in front of a run. -/
theorem Reach.head (hok : ok s₀ a) (hstep : step s₀ a = some s) (H : Reach step ok s s') :
    Reach step ok s₀ s' := by
  have h1 : Reach step ok s₀ s := .step .init hok hstep
  exact h1.trans H

section Simulation

variable {τ : Type _} {step' : τ → α → Option τ} {ok' : τ → α → Prop} {f : σ → τ}

/-- The runs of a machine are runs of a machine that it does the same steps as. -/
theorem Reach.map (hf : ∀ s a, (step s a).map f = step' (f s) a) (H : Reach step ok s₀ s) :
    Reach step' always (f s₀) (f s) := by
  induction H with
  | init => exact .init
  | step _ _ hstep ih => exact .step ih trivial (by rw [← hf, hstep, Option.map_some])

/-- The other way around, from a state that stands for the first state. -/
theorem Reach.lift (hf : ∀ s a, (step s a).map f = step' (f s) a) (H : Reach step' ok' (f s₀) t) :
    ∃ s, Reach step (fun s a => ok' (f s) a) s₀ s ∧ f s = t := by
  generalize ht : f s₀ = t₀ at H
  induction H with
  | init => exact ⟨s₀, .init, ht⟩
  | step _ hok hstep ih =>
    obtain ⟨s, hs, rfl⟩ := ih
    rw [← hf] at hstep
    obtain ⟨s', hs', rfl⟩ := Option.map_eq_some_iff.mp hstep
    exact ⟨s', .step hs hok hs', rfl⟩

end Simulation

/-- The state after a whole trace, if no step of it is refused. -/
def run (step : σ → α → Option σ) : σ → List α → Option σ
  | s, [] => some s
  | s, a :: as => (step s a).bind fun s' => run step s' as

/-- A trace of labels that are admitted in every state. -/
theorem Reach.of_run_forall (as : List α) (hok : ∀ a ∈ as, ∀ s, ok s a)
    (h : run step s as = some s') : Reach step ok s s' := by
  induction as generalizing s with
  | nil => cases h; exact .init
  | cons a as ih =>
    obtain ⟨t, ht, h⟩ := Option.bind_eq_some_iff.mp h
    exact .head (hok a List.mem_cons_self s) ht (ih (fun b hb => hok b (List.mem_cons_of_mem _ hb)) h)

theorem Reach.of_run (as : List α) (h : run step s as = some s') : Reach step always s s' :=
  .of_run_forall as (fun _ _ _ => trivial) h

/-- The machine that refuses the steps which do not meet `ok`. -/
def guarded (step : σ → α → Option σ) (ok : σ → α → Prop) [∀ s a, Decidable (ok s a)] (s : σ)
    (a : α) : Option σ := if ok s a then step s a else none

theorem Reach.of_run_guarded [∀ s a, Decidable (ok s a)] (as : List α)
    (h : run (guarded step ok) s as = some s') : Reach step ok s s' := by
  induction as generalizing s with
  | nil => cases h; exact .init
  | cons a as ih =>
    obtain ⟨t, ht, h⟩ := Option.bind_eq_some_iff.mp h
    simp only [guarded] at ht
    split at ht
    · next hok => exact .head hok ht (ih h)
    · cases ht

end Machine

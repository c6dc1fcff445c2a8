import ColonyFS.Lib.Machine

/-!
# Machines that answer

A step takes a request to an answer and the next state. A `Trace` is a run with what was asked and
answered in it. `Trace.simulate` is forward simulation: every run of a machine has the answers of a
second machine, but for the requests that are hidden from it.
-/

namespace Machine

variable {σ τ α ρ : Type _} {call : σ → α → Option (ρ × σ)} {spec : τ → α → Option (ρ × τ)}
  {ok ok' : σ → α → Prop} {visible : α → Bool}

/-- The runs from `s₀` in which every request meets `ok`, the newest request last. -/
inductive Trace (call : σ → α → Option (ρ × σ)) (ok : σ → α → Prop) (s₀ : σ) :
    List (α × ρ) → σ → Prop where
  | nil : Trace call ok s₀ [] s₀
  | snoc : Trace call ok s₀ l s → ok s a → call s a = some (r, s') →
    Trace call ok s₀ (l ++ [(a, r)]) s'

variable {l l' : List (α × ρ)}

/-- The requests and answers that are not hidden. -/
def seen (visible : α → Bool) (l : List (α × ρ)) : List (α × ρ) := l.filter fun q => visible q.1

theorem seen_concat {a : α} {r : ρ} : seen visible (l ++ [(a, r)]) =
    if visible a then seen visible l ++ [(a, r)] else seen visible l := by
  rw [seen, List.filter_append, List.filter_cons, List.filter_nil]
  split
  · rfl
  · exact List.append_nil _

theorem map_seen : (seen visible l).map (·.1) = (l.map (·.1)).filter visible := by
  rw [seen, List.filter_map]
  rfl

/-- Without the answers it is a run. -/
theorem Trace.reach (H : Trace call ok s₀ l s) :
    Reach (fun s a => (call s a).map (·.2)) ok s₀ s := by
  induction H with
  | nil => exact .init
  | snoc _ hok hcall ih => exact .step ih hok (by rw [hcall, Option.map_some])

/-- A run has been asked for something, and has answered. -/
theorem Trace.of_reach (H : Reach (fun s a => (call s a).map (·.2)) ok s₀ s) :
    ∃ l, Trace call ok s₀ l s := by
  induction H with
  | init => exact ⟨[], .nil⟩
  | step _ hok hstep ih =>
    obtain ⟨l, hl⟩ := ih
    obtain ⟨⟨r, s'⟩, hcall, rfl⟩ := Option.map_eq_some_iff.mp hstep
    exact ⟨_, hl.snoc hok hcall⟩

/-- Forward simulation along `R`. A hidden request leaves the state of the second machine alone. -/
theorem Trace.simulate {R : σ → τ → Prop} (H : Trace call ok s₀ l s) (init : R s₀ t₀)
    (shown : ∀ {s t a r s'}, R s t → ok s a → call s a = some (r, s') → visible a →
      ∃ t', spec t a = some (r, t') ∧ R s' t')
    (hidden : ∀ {s t a r s'}, R s t → ok s a → call s a = some (r, s') → ¬visible a → R s' t) :
    ∃ t, Trace spec always t₀ (seen visible l) t ∧ R s t := by
  induction H with
  | nil => exact ⟨t₀, .nil, init⟩
  | @snoc l s a r s' _ hok hcall ih =>
    obtain ⟨t, ht, hR⟩ := ih
    rw [seen_concat]
    by_cases ha : visible a
    · obtain ⟨t', hspec, hR'⟩ := shown hR hok hcall ha
      rw [if_pos ha]
      exact ⟨t', ht.snoc trivial hspec, hR'⟩
    · rw [if_neg ha]
      exact ⟨t, ht, hidden hR hok hcall ha⟩

/-- A machine has one answer to each request, so the requests of a trace determine it. -/
theorem Trace.unique (H : Trace call ok s₀ l s) (H' : Trace call ok' s₀ l' s')
    (h : l.map (·.1) = l'.map (·.1)) : l = l' ∧ s = s' := by
  induction H generalizing l' s' with
  | nil =>
    cases H' with
    | nil => exact ⟨rfl, rfl⟩
    | snoc => simp at h
  | @snoc l s a r t _ _ hcall ih =>
    cases H' with
    | nil => simp at h
    | @snoc l' s' a' r' t' H' _ hcall' =>
      simp only [List.map_append, List.map_cons, List.map_nil] at h
      obtain ⟨h, ha⟩ := List.append_inj' h rfl
      obtain ⟨rfl, rfl⟩ := ih H' h
      cases ha
      cases hcall.symm.trans hcall'
      exact ⟨rfl, rfl⟩

/-- Two runs of a machine that simulates another one, with the same requests but for the hidden
ones, have the same answers. -/
theorem Trace.seen_eq {m m' : List (α × ρ)} {t₁ t₂ : τ} (H : Trace spec always t₀ (seen visible m) t₁)
    (H' : Trace spec always t₀ (seen visible m') t₂)
    (h : (m.map (·.1)).filter visible = (m'.map (·.1)).filter visible) :
    seen visible m = seen visible m' ∧ t₁ = t₂ :=
  H.unique H' (by rw [map_seen, map_seen, h])

/-- A request in front of a trace. -/
theorem Trace.head {a : α} {r : ρ} {s₁ : σ} (hok : ok s₀ a) (hcall : call s₀ a = some (r, s₁))
    (H : Trace call ok s₁ l s) : Trace call ok s₀ ((a, r) :: l) s := by
  induction H with
  | nil => exact .snoc .nil hok hcall
  | snoc _ hok' hcall' ih => exact ih.snoc hok' hcall'

theorem Trace.append (H : Trace call ok s₀ l s) {t : σ} (H' : Trace call ok s l' t) :
    Trace call ok s₀ (l ++ l') t := by
  induction H' with
  | nil => rwa [List.append_nil]
  | snoc _ hok hcall ih =>
    rw [← List.append_assoc]
    exact ih.snoc hok hcall

/-- A trace of requests that are admitted in every state. -/
theorem Trace.admit (H : Trace call ok s₀ l s) (h : ∀ a ∈ l.map (·.1), ∀ s, ok' s a) :
    Trace call ok' s₀ l s := by
  induction H with
  | nil => exact .nil
  | snoc _ _ hcall ih =>
    rw [List.map_append, List.forall_mem_append] at h
    exact (ih h.1).snoc (h.2 _ List.mem_cons_self _) hcall

/-- The answers to a list of requests that all meet `ok`, with the last state. -/
def play (call : σ → α → Option (ρ × σ)) (ok : σ → α → Prop) [∀ s a, Decidable (ok s a)] :
    σ → List α → Option (List (α × ρ) × σ)
  | s, [] => some ([], s)
  | s, a :: as => if ok s a then
      (call s a).bind fun q => (play call ok q.2 as).map fun t => ((a, q.1) :: t.1, t.2)
    else none

theorem Trace.of_play [∀ s a, Decidable (ok s a)] {as : List α}
    (h : play call ok s₀ as = some (l, s)) : Trace call ok s₀ l s ∧ l.map (·.1) = as := by
  induction as generalizing s₀ l with
  | nil => cases h; exact ⟨.nil, rfl⟩
  | cons a as ih =>
    rw [play] at h
    split at h
    · next hok =>
      obtain ⟨⟨r, s₁⟩, hcall, h⟩ := Option.bind_eq_some_iff.mp h
      obtain ⟨⟨l₁, t⟩, hplay, h⟩ := Option.map_eq_some_iff.mp h
      cases h
      obtain ⟨htrace, hmap⟩ := ih hplay
      exact ⟨htrace.head hok hcall, congrArg (a :: ·) hmap⟩
    · cases h

end Machine

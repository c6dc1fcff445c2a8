import Mathlib.Data.Fintype.Basic
import ColonyFS.Lib.Answers

/-!
# Calls that are tried until they are answered

Callers send requests to a service over a network that loses requests and replies. A caller whose
attempt fails sends the same request again, and only an answer ends its call. The service may have
seen the request of a failed attempt, or may see it later, as a stray.

`executed_of_trace` finds the moment at which a call that has an answer was executed. `Regular` is what
is left of atomicity when a request may be executed more than once: while the writes to a key do not
overlap, the key has the value of the last write that has returned, or of the one under way.
-/


namespace Rpc

open Function Machine

variable {ι σ α ρ ν : Type _}

/-- Where the call of a caller stands. -/
inductive Caller (α ρ : Type _) where
  | idle
  /-- The request `a` is to be sent, for the first time or again. -/
  | calling (a : α)
  | sent (a : α)
  /-- The service has executed the request, and the reply is on its way. -/
  | answered (a : α) (r : ρ)

def Caller.request? : Caller α ρ → Option α
  | .idle => none
  | .calling a | .sent a | .answered a _ => some a

structure State (ι σ α ρ : Type _) where
  service : σ
  callers : ι → Caller α ρ
  /-- Requests of failed attempts that may still be executed. -/
  strays : List α

inductive Event (ι α : Type _) where
  | start (i : ι) (a : α)
  | send (i : ι)
  /-- The request of `i` is executed. -/
  | serve (i : ι)
  /-- The attempt of `i` fails. -/
  | fail (i : ι) (stray : Bool)
  /-- A request of a failed attempt is executed. -/
  | serveStray (n : Nat)
  | finish (i : ι)

def init (service : σ) : State ι σ α ρ := ⟨service, fun _ => .idle, []⟩

variable [DecidableEq ι]

def State.set (s : State ι σ α ρ) (i : ι) (c : Caller α ρ) : State ι σ α ρ :=
  { s with callers := update s.callers i c }

/-- An event, with the request and the answer when a call is over. -/
def call (exec : σ → α → Option (ρ × σ)) (s : State ι σ α ρ) :
    Event ι α → Option (Option (α × ρ) × State ι σ α ρ)
  | .start i a => match s.callers i with
    | .idle => some (none, s.set i (.calling a))
    | _ => none
  | .send i => match s.callers i with
    | .calling a => some (none, s.set i (.sent a))
    | _ => none
  | .serve i => match s.callers i with
    | .sent a => (exec s.service a).map fun q =>
      (none, { s.set i (.answered a q.1) with service := q.2 })
    | _ => none
  | .fail i stray => match s.callers i with
    | .sent a =>
      some (none, { s.set i (.calling a) with strays := if stray then a :: s.strays else s.strays })
    | .answered a _ => some (none, s.set i (.calling a))
    | _ => none
  | .serveStray n => match s.strays[n]? with
    | some a => (exec s.service a).map fun q =>
      (none, { s with service := q.2, strays := s.strays.eraseIdx n })
    | none => none
  | .finish i => match s.callers i with
    | .answered a r => some (some (a, r), s.set i .idle)
    | _ => none

variable {exec : σ → α → Option (ρ × σ)} {s s' s₀ t : State ι σ α ρ} {e : Event ι α}
  {o : Option (α × ρ)} {i j : ι} {a b : α} {r : ρ} {v w : ν}

@[simp] theorem callers_set_self {c : Caller α ρ} : (s.set i c).callers i = c := update_self ..

theorem callers_set_of_ne {c : Caller α ρ} (h : j ≠ i) : (s.set i c).callers j = s.callers j :=
  update_of_ne h ..

/-- What an event does. -/
inductive Does (exec : σ → α → Option (ρ × σ)) (s : State ι σ α ρ) :
    Event ι α → Option (α × ρ) → State ι σ α ρ → Prop where
  | start {i : ι} {a : α} : s.callers i = .idle →
    Does exec s (.start i a) none (s.set i (.calling a))
  | send {i : ι} {a : α} : s.callers i = .calling a → Does exec s (.send i) none (s.set i (.sent a))
  | serve {i : ι} {a : α} {r : ρ} {service : σ} : s.callers i = .sent a →
    exec s.service a = some (r, service) →
    Does exec s (.serve i) none { s.set i (.answered a r) with service := service }
  | fail {i : ι} {a : α} {stray : Bool} : s.callers i = .sent a →
    Does exec s (.fail i stray) none
      { s.set i (.calling a) with strays := if stray then a :: s.strays else s.strays }
  | failAnswered {i : ι} {a : α} {r : ρ} {stray : Bool} : s.callers i = .answered a r →
    Does exec s (.fail i stray) none (s.set i (.calling a))
  | serveStray {n : Nat} {a : α} {r : ρ} {service : σ} : s.strays[n]? = some a →
    exec s.service a = some (r, service) →
    Does exec s (.serveStray n) none
      { s with service := service, strays := s.strays.eraseIdx n }
  | finish {i : ι} {a : α} {r : ρ} : s.callers i = .answered a r →
    Does exec s (.finish i) (some (a, r)) (s.set i .idle)

theorem does_of_call (h : call exec s e = some (o, s')) : Does exec s e o s' := by
  cases e with
  | start i a =>
    simp only [call] at h
    split at h
    · next hi => cases h; exact .start hi
    · cases h
  | send i =>
    simp only [call] at h
    split at h
    · next hi => cases h; exact .send hi
    · cases h
  | serve i =>
    simp only [call] at h
    split at h
    · next hi =>
      obtain ⟨q, hq, h⟩ := Option.map_eq_some_iff.mp h
      cases h
      exact .serve hi hq
    · cases h
  | fail i stray =>
    simp only [call] at h
    split at h
    · next hi => cases h; exact .fail hi
    · next hi => cases h; exact .failAnswered hi
    · cases h
  | serveStray n =>
    simp only [call] at h
    split at h
    · next hn =>
      obtain ⟨q, hq, h⟩ := Option.map_eq_some_iff.mp h
      cases h
      exact .serveStray hn hq
    · cases h
  | finish i =>
    simp only [call] at h
    split at h
    · next hi => cases h; exact .finish hi
    · cases h

def step (exec : σ → α → Option (ρ × σ)) (s : State ι σ α ρ) (e : Event ι α) :
    Option (State ι σ α ρ) := (call exec s e).map (·.2)

theorem does_of_step (h : step exec s e = some s') : ∃ o, Does exec s e o s' := by
  obtain ⟨⟨o, t⟩, hcall, rfl⟩ := Option.map_eq_some_iff.mp h
  exact ⟨o, does_of_call hcall⟩

/-! ## The moment of execution -/

/-- The call of `i` was executed in the run `l` from `s₀` to `s`, in a step that gave the answer
`r`. -/
def Executed (exec : σ → α → Option (ρ × σ)) (ok : State ι σ α ρ → Event ι α → Prop) (i : ι) (a : α)
    (s₀ : State ι σ α ρ) (r : ρ) (l : List (Event ι α × Option (α × ρ))) (s : State ι σ α ρ) : Prop :=
  ∃ l₁ t t' l₂, l = l₁ ++ (.serve i, none) :: l₂ ∧ Trace (call exec) ok s₀ l₁ t ∧
    exec t.service a = some (r, t'.service) ∧ call exec t (.serve i) = some (none, t') ∧
    Trace (call exec) ok t' l₂ s

variable {ok : State ι σ α ρ → Event ι α → Prop} {l : List (Event ι α × Option (α × ρ))}

theorem Executed.call (h : Executed exec ok i a s₀ r l s) (hok : ok s e)
    (hcall : Rpc.call exec s e = some (o, s')) : Executed exec ok i a s₀ r (l ++ [(e, o)]) s' := by
  obtain ⟨l₁, t, t', l₂, rfl, ht, hexec, hserve, hs⟩ := h
  refine ⟨l₁, t, t', l₂ ++ [(e, o)], ?_, ht, hexec, hserve, hs.snoc hok hcall⟩
  rw [List.append_assoc, List.cons_append]

/-- Where a call can stand that has not returned. -/
inductive Standing (exec : σ → α → Option (ρ × σ)) (ok : State ι σ α ρ → Event ι α → Prop) (i : ι)
    (a : α) (s₀ : State ι σ α ρ) (l : List (Event ι α × Option (α × ρ))) (s : State ι σ α ρ) :
    Prop where
  | calling : s.callers i = .calling a → Standing exec ok i a s₀ l s
  | sent : s.callers i = .sent a → Standing exec ok i a s₀ l s
  | answered {r : ρ} : s.callers i = .answered a r → Executed exec ok i a s₀ r l s →
    Standing exec ok i a s₀ l s

/-- The events of others leave a call where it stands. -/
theorem Standing.other (H : Standing exec ok i a s₀ l s) (hok : ok s e)
    (hcall : Rpc.call exec s e = some (o, s')) (hi : s'.callers i = s.callers i) :
    Standing exec ok i a s₀ (l ++ [(e, o)]) s' := by
  cases H with
  | calling h => exact .calling (hi.trans h)
  | sent h => exact .sent (hi.trans h)
  | answered h hexec => exact .answered (hi.trans h) (hexec.call hok hcall)

theorem Standing.call (H : Standing exec ok i a s₀ l s) (hs : Trace (Rpc.call exec) ok s₀ l s)
    (hok : ok s e) (hfin : e ≠ .finish i) (hcall : Rpc.call exec s e = some (o, s')) :
    Standing exec ok i a s₀ (l ++ [(e, o)]) s' := by
  have hone : ∀ {b : α}, (s.callers i).request? = some b → b = a := by
    intro b hb
    cases H with
    | calling h | sent h | answered h =>
      rw [h] at hb
      exact (Option.some.inj hb).symm
  cases does_of_call hcall with
  | @start j b hj =>
    by_cases hji : j = i
    · subst hji
      cases H with
      | calling h | sent h | answered h => cases hj.symm.trans h
    · exact H.other hok hcall (callers_set_of_ne (Ne.symm hji))
  | @send j b hj =>
    by_cases hji : j = i
    · subst hji
      cases hone (congrArg Caller.request? hj)
      exact .sent callers_set_self
    · exact H.other hok hcall (callers_set_of_ne (Ne.symm hji))
  | @serve j b r service hj hexec =>
    by_cases hji : j = i
    · subst hji
      cases hone (congrArg Caller.request? hj)
      exact .answered callers_set_self ⟨l, s, _, [], rfl, hs, hexec, hcall, .nil⟩
    · exact H.other hok hcall (callers_set_of_ne (Ne.symm hji))
  | @fail j b stray hj =>
    by_cases hji : j = i
    · subst hji
      cases hone (congrArg Caller.request? hj)
      exact .calling callers_set_self
    · exact H.other hok hcall (callers_set_of_ne (Ne.symm hji))
  | @failAnswered j b r stray hj =>
    by_cases hji : j = i
    · subst hji
      cases hone (congrArg Caller.request? hj)
      exact .calling callers_set_self
    · exact H.other hok hcall (callers_set_of_ne (Ne.symm hji))
  | serveStray => exact H.other hok hcall rfl
  | @finish j b r hj =>
    have hji : j ≠ i := fun h => hfin (h ▸ rfl)
    exact H.other hok hcall (callers_set_of_ne hji.symm)

/-- A call that has an answer was executed on the way. -/
theorem executed_of_trace (h₀ : s₀.callers i = .calling a) (hok : ∀ s, ¬ok s (.finish i))
    (h : Trace (call exec) ok s₀ l s) (hi : s.callers i = .answered b r) :
    b = a ∧ Executed exec ok i a s₀ r l s := by
  have H : Standing exec ok i a s₀ l s := by
    clear hi
    induction h with
    | nil => exact .calling h₀
    | @snoc l s e o s' h he hcall ih =>
      exact ih.call h he (fun heq => hok s (heq ▸ he)) hcall
  cases H with
  | calling h | sent h => cases h.symm.trans hi
  | answered h hexec =>
    cases h.symm.trans hi
    exact ⟨rfl, hexec⟩

/-! ## One key -/

section Register

variable {val : σ → Option ν} {eff : α → Option ν} {stable : Option ν}

/-- The call of `i` is to give the key the value `v`. -/
def Writing (eff : α → Option ν) (s : State ι σ α ρ) (i : ι) (v : ν) : Prop :=
  ∃ a, (s.callers i).request? = some a ∧ eff a = some v

/-- No write to the key is under way, or on its way from an attempt that failed. -/
def Settled (eff : α → Option ν) (s : State ι σ α ρ) : Prop :=
  (∀ i v, ¬Writing eff s i v) ∧ ∀ a ∈ s.strays, eff a = none

omit [DecidableEq ι] in
theorem settled_iff : Settled eff s ↔
    (∀ i, ((s.callers i).request?.bind eff).isNone) ∧ ∀ a ∈ s.strays, (eff a).isNone := by
  simp only [Settled, Option.isNone_iff_eq_none]
  refine and_congr_left fun _ => forall_congr' fun i => ?_
  rw [Option.eq_none_iff_forall_ne_some]
  refine forall_congr' fun v => not_congr ?_
  rw [Option.bind_eq_some_iff, Writing]

instance [Fintype ι] (eff : α → Option ν) (s : State ι σ α ρ) : Decidable (Settled eff s) :=
  decidable_of_iff _ settled_iff.symm

/-- A write begins when the key is settled. -/
def Solo (eff : α → Option ν) (s : State ι σ α ρ) : Event ι α → Prop
  | .start _ a => eff a = none ∨ Settled eff s
  | _ => True

instance [Fintype ι] (eff : α → Option ν) (s : State ι σ α ρ) :
    (e : Event ι α) → Decidable (Solo eff s e)
  | .start _ a => decidable_of_iff ((eff a).isNone ∨ Settled eff s)
    (or_congr_left Option.isNone_iff_eq_none)
  | .send _ | .serve _ | .fail .. | .serveStray _ | .finish _ => inferInstanceAs (Decidable True)

/-- The value of the last write that has returned. -/
def lastReturned (eff : α → Option ν) (stable : Option ν) :
    List (Event ι α × Option (α × ρ)) → Option ν
  | [] => stable
  | q :: l => lastReturned eff ((q.2.bind fun p => eff p.1).or stable) l

/-- `stable` was written last by a call that has returned, or no call has. -/
structure Regular (val : σ → Option ν) (eff : α → Option ν) (stable : Option ν)
    (s : State ι σ α ρ) : Prop where
  value : val s.service = stable ∨ ∃ i v, Writing eff s i v ∧ val s.service = some v
  one : ∀ i j v w, Writing eff s i v → Writing eff s j w → i = j
  answered : ∀ i a r v, s.callers i = .answered a r → eff a = some v → val s.service = some v
  strays : ∀ a ∈ s.strays, ∀ v, eff a = some v →
    (∃ i, Writing eff s i v) ∨ (∀ i w, ¬Writing eff s i w) ∧ stable = some v

omit [DecidableEq ι] in
theorem Writing.unique (h : Writing eff s i v) (h' : Writing eff s i w) : v = w := by
  obtain ⟨a, ha, hv⟩ := h
  obtain ⟨b, hb, hw⟩ := h'
  cases ha.symm.trans hb
  exact Option.some.inj (hv.symm.trans hw)

omit [DecidableEq ι] in
theorem writing_congr (h : ∀ j, (s'.callers j).request? = (s.callers j).request?) :
    Writing eff s' i v ↔ Writing eff s i v := by
  rw [Writing, Writing, h]

theorem request?_set {c : Caller α ρ} (h : c.request? = (s.callers i).request?) (j : ι) :
    ((s.set i c).callers j).request? = (s.callers j).request? := by
  by_cases hj : j = i
  · subst hj
    rw [callers_set_self, h]
  · rw [callers_set_of_ne hj]

omit [DecidableEq ι] in
theorem regular_init (service : σ) (h : val service = stable) :
    Regular val eff stable (init service : State ι σ α ρ) where
  value := .inl h
  one i j v w := by
    rintro ⟨a, ha, _⟩
    cases ha
  answered i a r v h := by cases h
  strays a h := by cases h

omit [DecidableEq ι] in
/-- An event that leaves the key alone and ends no call. -/
theorem Regular.quiet (H : Regular val eff stable s) (hval : val s'.service = val s.service)
    (hreq : ∀ j, (s'.callers j).request? = (s.callers j).request?)
    (hans : ∀ j a r, s'.callers j = .answered a r → eff a = none ∨ s.callers j = .answered a r)
    (hstr : ∀ a ∈ s'.strays, a ∈ s.strays ∨ ∃ i, (s.callers i).request? = some a) :
    Regular val eff stable s' where
  value := by
    simp only [writing_congr hreq, hval]
    exact H.value
  one i j v w := by
    rw [writing_congr hreq, writing_congr hreq]
    exact H.one i j v w
  answered i a r v hi hv := by
    rcases hans i a r hi with hnone | hi
    · cases hnone.symm.trans hv
    · exact hval.trans (H.answered i a r v hi hv)
  strays a ha v hv := by
    simp only [writing_congr hreq]
    rcases hstr a ha with ha | ⟨i, hi⟩
    · exact H.strays a ha v hv
    · exact .inl ⟨i, a, hi, hv⟩

omit [DecidableEq ι] in
/-- A request of the key is executed. -/
theorem Regular.executed (H : Regular val eff stable s) {v : ν}
    (ha : (∃ i, Writing eff s i v) ∨ (∀ i w, ¬Writing eff s i w) ∧ stable = some v)
    (hval : val s'.service = some v)
    (hreq : ∀ j, (s'.callers j).request? = (s.callers j).request?)
    (hstr : ∀ a ∈ s'.strays, a ∈ s.strays) : Regular val eff stable s' where
  value := by
    simp only [writing_congr hreq]
    rcases ha with ⟨i, hi⟩ | ⟨_, hst⟩
    · exact .inr ⟨i, v, hi, hval⟩
    · exact .inl (hval.trans hst.symm)
  one i j v w := by
    rw [writing_congr hreq, writing_congr hreq]
    exact H.one i j v w
  answered i b r w hi hw := by
    have hiw : Writing eff s i w := ⟨b, by rw [← hreq, hi]; rfl, hw⟩
    rcases ha with ⟨j, hj⟩ | ⟨hnone, _⟩
    · cases H.one i j w v hiw hj
      exact hval.trans (congrArg some (hj.unique hiw))
    · exact (hnone i w hiw).elim
  strays b hb w hw := by
    simp only [writing_congr hreq]
    exact H.strays b (hstr b hb) w hw

omit [DecidableEq ι] in
/-- A request is executed, and the key has its value if it writes one. -/
theorem Regular.serve (H : Regular val eff stable s)
    (hexec : ∀ service a r service', exec service a = some (r, service') →
      val service' = (eff a).or (val service))
    {service : σ} (ha : exec s.service a = some (r, service)) (hs : s'.service = service)
    (hfrom : ∀ v, eff a = some v →
      (∃ i, Writing eff s i v) ∨ (∀ i w, ¬Writing eff s i w) ∧ stable = some v)
    (hreq : ∀ j, (s'.callers j).request? = (s.callers j).request?)
    (hans : ∀ j b r, s'.callers j = .answered b r → b = a ∨ s.callers j = .answered b r)
    (hstr : ∀ b ∈ s'.strays, b ∈ s.strays) : Regular val eff stable s' := by
  have hval := hexec _ _ _ _ ha
  cases hv : eff a with
  | some v =>
    refine H.executed (hfrom v hv) ?_ hreq hstr
    rw [hs, hval, hv, Option.some_or]
  | none =>
    refine H.quiet ?_ hreq ?_ fun b hb => .inl (hstr b hb)
    · rw [hs, hval, hv, Option.none_or]
    · intro j b r hj
      rcases hans j b r hj with rfl | hj
      · exact .inl hv
      · exact .inr hj

theorem Regular.start (H : Regular val eff stable s) (hi : s.callers i = .idle)
    (hok : eff a = none ∨ Settled eff s) : Regular val eff stable (s.set i (.calling a)) := by
  have hwriting : ∀ {j v}, Writing eff (s.set i (.calling a)) j v →
      Writing eff s j v ∨ j = i ∧ eff a = some v := by
    rintro j v ⟨b, hb, hv⟩
    by_cases hj : j = i
    · subst hj
      rw [callers_set_self] at hb
      cases hb
      exact .inr ⟨rfl, hv⟩
    · rw [callers_set_of_ne hj] at hb
      exact .inl ⟨b, hb, hv⟩
  have hold : ∀ {j v}, Writing eff s j v → Writing eff (s.set i (.calling a)) j v := by
    rintro j v ⟨b, hb, hv⟩
    have hj : j ≠ i := by
      rintro rfl
      rw [hi] at hb
      cases hb
    exact ⟨b, by rw [callers_set_of_ne hj, hb], hv⟩
  refine ⟨?_, ?_, ?_, ?_⟩
  · rcases H.value with h | ⟨j, v, hj, hv⟩
    · exact .inl h
    · exact .inr ⟨j, v, hold hj, hv⟩
  · intro j k v w hj hk
    rcases hwriting hj with hjold | ⟨hji, hv⟩
    · rcases hwriting hk with hkold | ⟨_, hw⟩
      · exact H.one j k v w hjold hkold
      · rcases hok with hnone | hset
        · cases hnone.symm.trans hw
        · exact (hset.1 j v hjold).elim
    · rcases hwriting hk with hkold | ⟨hki, _⟩
      · rcases hok with hnone | hset
        · cases hnone.symm.trans hv
        · exact (hset.1 k w hkold).elim
      · exact hji.trans hki.symm
  · intro j b r v hj hv
    by_cases hji : j = i
    · subst hji
      rw [callers_set_self] at hj
      cases hj
    · rw [callers_set_of_ne hji] at hj
      exact H.answered j b r v hj hv
  · intro b hb v hv
    rcases hok with hnone | hset
    · rcases H.strays b hb v hv with ⟨j, hj⟩ | ⟨hno, hst⟩
      · exact .inl ⟨j, hold hj⟩
      · refine .inr ⟨fun j w hj => ?_, hst⟩
        rcases hwriting hj with hj | ⟨_, hw⟩
        · exact hno j w hj
        · cases hnone.symm.trans hw
    · cases (hset.2 b hb).symm.trans hv

/-- The write that returns is the last one. -/
theorem Regular.finish (H : Regular val eff stable s) (hi : s.callers i = .answered a r) :
    Regular val eff ((eff a).or stable) (s.set i .idle) := by
  have hwriting : ∀ {j v}, Writing eff (s.set i .idle) j v → Writing eff s j v ∧ j ≠ i := by
    rintro j v ⟨b, hb, hv⟩
    by_cases hj : j = i
    · subst hj
      rw [callers_set_self] at hb
      cases hb
    · rw [callers_set_of_ne hj] at hb
      exact ⟨⟨b, hb, hv⟩, hj⟩
  have hold : ∀ {j v}, Writing eff s j v → j ≠ i → Writing eff (s.set i .idle) j v := by
    rintro j v ⟨b, hb, hv⟩ hj
    exact ⟨b, by rw [callers_set_of_ne hj, hb], hv⟩
  have hans : ∀ {j b r}, (s.set i .idle).callers j = .answered b r →
      s.callers j = .answered b r := by
    intro j b r hj
    by_cases hji : j = i
    · subst hji
      rw [callers_set_self] at hj
      cases hj
    · rwa [callers_set_of_ne hji] at hj
  have hone : ∀ j k v w, Writing eff (s.set i .idle) j v → Writing eff (s.set i .idle) k w →
      j = k := fun j k v w hj hk => H.one j k v w (hwriting hj).1 (hwriting hk).1
  cases hv : eff a with
  | none =>
    have hne : ∀ {j v}, Writing eff s j v → j ≠ i := by
      rintro j v ⟨b, hb, hw⟩ rfl
      rw [hi] at hb
      cases hb
      cases hv.symm.trans hw
    rw [Option.none_or]
    refine ⟨?_, hone, fun j b r v hj hv => H.answered j b r v (hans hj) hv, ?_⟩
    · rcases H.value with h | ⟨j, v, hj, hval⟩
      · exact .inl h
      · exact .inr ⟨j, v, hold hj (hne hj), hval⟩
    · intro b hb v hv
      rcases H.strays b hb v hv with ⟨j, hj⟩ | ⟨hno, hst⟩
      · exact .inl ⟨j, hold hj (hne hj)⟩
      · exact .inr ⟨fun j w hj => hno j w (hwriting hj).1, hst⟩
  | some v =>
    have hiw : Writing eff s i v := ⟨a, by rw [hi]; rfl, hv⟩
    have hno : ∀ j w, ¬Writing eff (s.set i .idle) j w := by
      intro j w hj
      obtain ⟨hj, hne⟩ := hwriting hj
      exact hne (H.one j i w v hj hiw)
    rw [Option.some_or]
    refine ⟨.inl (H.answered i a r v hi hv), hone, fun j b r v hj hv =>
      H.answered j b r v (hans hj) hv, ?_⟩
    intro b hb w hw
    refine .inr ⟨hno, ?_⟩
    rcases H.strays b hb w hw with ⟨j, hj⟩ | ⟨hnone, _⟩
    · cases H.one j i w v hj hiw
      exact congrArg some (hiw.unique hj)
    · exact (hnone i v hiw).elim

theorem Regular.does (H : Regular val eff stable s)
    (hexec : ∀ service a r service', exec service a = some (r, service') →
      val service' = (eff a).or (val service))
    (hok : Solo eff s e) (h : Does exec s e o s') :
    Regular val eff ((o.bind fun p => eff p.1).or stable) s' := by
  have hset : ∀ {i a c j b r}, (s.callers i).request? = some a → (∀ b r, c ≠ .answered b r) →
      (s.set i c).callers j = .answered b r → eff b = none ∨ s.callers j = .answered b r := by
    intro i a c j b r _ hc hj
    by_cases hji : j = i
    · subst hji
      rw [callers_set_self] at hj
      exact (hc b r hj).elim
    · rw [callers_set_of_ne hji] at hj
      exact .inr hj
  cases h with
  | start hi => exact H.start hi hok
  | @send i a hi =>
    have hreq : (Caller.sent a : Caller α ρ).request? = (s.callers i).request? := by rw [hi]; rfl
    exact H.quiet rfl (request?_set hreq) (fun j b r => hset (congrArg Caller.request? hi) nofun)
      fun b hb => .inl hb
  | @serve i a r service hi ha =>
    have hreq : (Caller.answered a r).request? = (s.callers i).request? := by rw [hi]; rfl
    refine H.serve hexec ha rfl ?_ (request?_set hreq) ?_ fun b hb => hb
    · intro v hv
      exact .inl ⟨i, a, by rw [hi]; rfl, hv⟩
    · intro j b r' hj
      by_cases hji : j = i
      · subst hji
        have hj : (s.set j (.answered a r)).callers j = .answered b r' := hj
        rw [callers_set_self] at hj
        cases hj
        exact .inl rfl
      · have hj : (s.set i (.answered a r)).callers j = .answered b r' := hj
        rw [callers_set_of_ne hji] at hj
        exact .inr hj
  | @fail i a stray hi =>
    have hreq : (Caller.calling a : Caller α ρ).request? = (s.callers i).request? := by
      rw [hi]; rfl
    refine H.quiet rfl (request?_set hreq)
      (fun j b r => hset (congrArg Caller.request? hi) nofun) ?_
    intro b hb
    dsimp only at hb
    split at hb
    · rcases List.mem_cons.mp hb with rfl | hb
      · exact .inr ⟨i, by rw [hi]; rfl⟩
      · exact .inl hb
    · exact .inl hb
  | @failAnswered i a r stray hi =>
    have hreq : (Caller.calling a : Caller α ρ).request? = (s.callers i).request? := by
      rw [hi]; rfl
    exact H.quiet rfl (request?_set hreq) (fun j b r => hset (congrArg Caller.request? hi) nofun)
      fun b hb => .inl hb
  | @serveStray n a r service hn ha =>
    refine H.serve hexec ha rfl ?_ (fun _ => rfl) (fun j b r hj => .inr hj) ?_
    · intro v hv
      exact H.strays a (List.mem_of_getElem? hn) v hv
    · intro b hb
      exact List.mem_of_mem_eraseIdx hb
  | finish hi => exact H.finish hi

omit [DecidableEq ι] in
theorem lastReturned_concat {l : List (Event ι α × Option (α × ρ))}
    {q : Event ι α × Option (α × ρ)} : lastReturned eff stable (l ++ [q]) =
      (q.2.bind fun p => eff p.1).or (lastReturned eff stable l) := by
  induction l generalizing stable with
  | nil => rfl
  | cons p l ih => exact ih

/-- While writes to the key do not overlap, it has the value of the last one that has returned, or of
the one that is under way. -/
theorem regular_of_trace {service : σ} {l : List (Event ι α × Option (α × ρ))}
    (hexec : ∀ service a r service', exec service a = some (r, service') →
      val service' = (eff a).or (val service))
    (h : Trace (call exec) (Solo eff) (init service) l s) :
    Regular val eff (lastReturned eff (val service) l) s := by
  induction h with
  | nil => exact regular_init service rfl
  | snoc _ hok hcall ih =>
    rw [lastReturned_concat]
    exact ih.does hexec hok (does_of_call hcall)

/-! ### Without writes -/

/-- No write to the key begins. -/
def Unwritten (eff : α → Option ν) : Event ι α → Prop
  | .start _ a => eff a = none
  | _ => True

/-- Where the requests of the callers and the strays come from. -/
theorem Does.requests (h : Does exec s e o s') :
    (∀ j b, (s'.callers j).request? = some b → (s.callers j).request? = some b ∨ e = .start j b) ∧
      ∀ b ∈ s'.strays, b ∈ s.strays ∨ ∃ i, (s.callers i).request? = some b := by
  have hset : ∀ {i c j b}, (∀ b, c.request? = some b → (s.callers i).request? = some b) →
      ((s.set i c).callers j).request? = some b → (s.callers j).request? = some b := by
    intro i c j b hc hb
    by_cases hj : j = i
    · subst hj
      rw [callers_set_self] at hb
      exact hc b hb
    · rwa [callers_set_of_ne hj] at hb
  cases h with
  | @start i a hi =>
    refine ⟨fun j b hb => ?_, fun b hb => .inl hb⟩
    by_cases hj : j = i
    · subst hj
      rw [callers_set_self] at hb
      cases hb
      exact .inr rfl
    · rw [callers_set_of_ne hj] at hb
      exact .inl hb
  | send hi | failAnswered hi =>
    exact ⟨fun j b hb => .inl (hset (fun b hb => by rw [hi]; exact hb) hb), fun b hb => .inl hb⟩
  | @serve i a r service hi ha =>
    refine ⟨fun j b hb => .inl ?_, fun b hb => .inl hb⟩
    exact hset (c := .answered a r) (fun b hb => by rw [hi]; exact hb) hb
  | @fail i a stray hi =>
    refine ⟨fun j b hb => .inl (hset (c := .calling a) (fun b hb => by rw [hi]; exact hb) hb), ?_⟩
    intro b hb
    dsimp only at hb
    split at hb
    · rcases List.mem_cons.mp hb with rfl | hb
      · exact .inr ⟨i, by rw [hi]; rfl⟩
      · exact .inl hb
    · exact .inl hb
  | serveStray hn ha => exact ⟨fun j b hb => .inl hb, fun b hb => .inl (List.mem_of_mem_eraseIdx hb)⟩
  | finish hi => exact ⟨fun j b hb => .inl (hset (fun b hb => by cases hb) hb), fun b hb => .inl hb⟩

/-- What is executed is the request of a caller or a stray. -/
theorem Does.service (h : Does exec s e o s') : s'.service = s.service ∨
    ∃ a r, (a ∈ s.strays ∨ ∃ i, (s.callers i).request? = some a) ∧
      exec s.service a = some (r, s'.service) := by
  cases h with
  | @serve i a r service hi ha => exact .inr ⟨a, r, .inr ⟨i, by rw [hi]; rfl⟩, ha⟩
  | serveStray hn ha => exact .inr ⟨_, _, .inl (List.mem_of_getElem? hn), ha⟩
  | _ => exact .inl rfl

omit [DecidableEq ι] in
theorem Settled.effect (H : Settled eff s)
    (ha : a ∈ s.strays ∨ ∃ i, (s.callers i).request? = some a) : eff a = none := by
  rcases ha with ha | ⟨i, hi⟩
  · exact H.2 a ha
  · cases hv : eff a with
    | none => rfl
    | some v => exact (H.1 i v ⟨a, hi, hv⟩).elim

theorem Settled.does (H : Settled eff s)
    (hexec : ∀ service a r service', exec service a = some (r, service') →
      val service' = (eff a).or (val service))
    (hok : Unwritten eff e) (h : Does exec s e o s') :
    Settled eff s' ∧ val s'.service = val s.service := by
  obtain ⟨hreq, hstr⟩ := h.requests
  refine ⟨⟨?_, ?_⟩, ?_⟩
  · rintro i v ⟨a, ha, hv⟩
    rcases hreq i a ha with ha | rfl
    · exact H.1 i v ⟨a, ha, hv⟩
    · cases (show eff a = none from hok).symm.trans hv
  · intro a ha
    exact H.effect (hstr a ha)
  · rcases h.service with hs | ⟨a, r, ha, hex⟩
    · rw [hs]
    · rw [hexec _ _ _ _ hex, H.effect ha, Option.none_or]

/-- The key keeps its value until the next write begins. -/
theorem settled_of_reach {ok : State ι σ α ρ → Event ι α → Prop}
    (hexec : ∀ service a r service', exec service a = some (r, service') →
      val service' = (eff a).or (val service))
    (hok : ∀ s e, ok s e → Unwritten eff e) (H : Settled eff s₀)
    (h : Reach (step exec) ok s₀ s) : Settled eff s ∧ val s.service = val s₀.service := by
  induction h with
  | init => exact ⟨H, rfl⟩
  | step _ he hstep ih =>
    obtain ⟨o, hdoes⟩ := does_of_step hstep
    obtain ⟨hset, hval⟩ := ih.1.does hexec (hok _ _ he) hdoes
    exact ⟨hset, hval.trans ih.2⟩

end Register

end Rpc

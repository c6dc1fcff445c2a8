import ColonyFS.Fuse.Step

/-!
# The permits of `flush` (`colonyfs_fusexx::flush`, `dht_task::execute`)

`flush` waits until `g_flush_counter` is positive, takes one off it and spawns a `dht_task`, whose
last statement adds it again. The machine interleaves any number of calls of `flush`, each read of
the counter, each decrement, each spawn and each `execute` being one step, with the other callbacks.
-/

namespace ColonyFS

open Machine

/-- The next step of a call of `flush`, and of the task that it spawns. -/
inductive FlushPc where
  /-- `while (g_flush_counter <= 0) {}`. -/
  | wait
  /-- `g_flush_counter.fetch_and_decrement()`. -/
  | decrement
  /-- `root_task->spawn(*sync_task)`. -/
  | spawn
  /-- `dht_task::execute`. -/
  | execute
  | ended
  deriving DecidableEq, Repr

structure FlushCall where
  filepath : Str
  pc : FlushPc
  deriving DecidableEq, Repr

/-- Between the decrement and the end of the task. -/
def FlushCall.Admitted (call : FlushCall) : Prop := call.pc = .spawn ∨ call.pc = .execute

instance (call : FlushCall) : Decidable call.Admitted := inferInstanceAs (Decidable (_ ∨ _))

structure FlushPermits (δ σ : Type) where
  /-- `g_flush_counter`. -/
  flushCounter : Int
  fs : Fs δ σ
  /-- The calls of `flush`, oldest first. -/
  calls : List FlushCall

inductive PermitAct where
  /-- Any other callback. -/
  | callback (act : Act)
  /-- A thread calls `flush`. -/
  | flush (filepath : Str)
  /-- A read of the counter in the busy wait. -/
  | read (t : Nat)
  | decrement (t : Nat)
  | spawn (t : Nat)
  | execute (t : Nat)

/-- The value of a `tbb::atomic<int>`. -/
def atomicInt (n : Int) : Int := n.bmod (2 ^ 32)

/-- A call ends by an exception. -/
def Throws {σ α : Type} (r : EStateM.Result Stop σ α) : Prop :=
  ∃ e, Exec.error? r = some (.raised e)

instance {σ α : Type} (r : EStateM.Result Stop σ α) : Decidable (Throws r) :=
  match h : Exec.error? r with
  | some (.raised e) => .isTrue ⟨e, h⟩
  | some .assertion | some .undefined | some .blocked | none => .isFalse (by simp [Throws, h])

namespace FlushPermits

variable {δ σ : Type} [BinaryArchive Instruction] [BinaryArchive Fattribute.Record]

/-- After the constructor. -/
def init (fs : Fs δ σ) : FlushPermits δ σ := ⟨10, fs, []⟩

def setPc (s : FlushPermits δ σ) (t : Nat) (call : FlushCall) (pc : FlushPc) : FlushPermits δ σ :=
  { s with calls := s.calls.set t { call with pc := pc } }

variable (dht : Dht δ) (P : Policy ChunkData σ) (process : Process)

/-- One step. A task that an exception leaves is at its end, without its last statement. -/
def step (s : FlushPermits δ σ) : PermitAct → Option (FlushPermits δ σ)
  | .callback (.dhtTask _) => none
  | .callback act => (Fs.step dht P process s.fs act).map fun fs => { s with fs := fs }
  | .flush filepath => some { s with calls := s.calls ++ [⟨filepath, .wait⟩] }
  | .read t => do
    let call ← s.calls[t]?
    if call.pc ≠ .wait then none
    else if s.flushCounter ≤ 0 then some s
    else some (s.setPc t call .decrement)
  | .decrement t => do
    let call ← s.calls[t]?
    if call.pc ≠ .decrement then none
    else some { s.setPc t call .spawn with flushCounter := atomicInt (s.flushCounter - 1) }
  | .spawn t => do
    let call ← s.calls[t]?
    if call.pc ≠ .spawn then none else some (s.setPc t call .execute)
  | .execute t => do
    let call ← s.calls[t]?
    if call.pc ≠ .execute then none
    else match Fs.dhtTask dht P call.filepath s.fs with
      | .ok _ fs =>
        some { s.setPc t call .ended with fs := fs, flushCounter := atomicInt (s.flushCounter + 1) }
      | .error (.raised _) fs => some { s.setPc t call .ended with fs := fs }
      | .error _ _ => none

/-- The tasks admitted and not yet ended. -/
def outstanding (s : FlushPermits δ σ) : Nat := s.calls.countP (·.Admitted)

/-- Every permit is with a task or in the counter. -/
def Balanced (s : FlushPermits δ σ) : Prop :=
  s.flushCounter = 10 - s.outstanding ∧ 0 ≤ s.flushCounter

/-- The decrement finds the counter still positive, and no exception of the DHT leaves the task. -/
def Ok (s : FlushPermits δ σ) : PermitAct → Prop
  | .decrement _ => 0 < s.flushCounter
  | .execute t => ∀ call ∈ s.calls[t]?, ¬Throws (Fs.dhtTask dht P call.filepath s.fs)
  | _ => True

instance (s : FlushPermits δ σ) : (act : PermitAct) → Decidable (Ok dht P s act)
  | .decrement _ => inferInstanceAs (Decidable (_ < _))
  | .execute t => inferInstanceAs (Decidable (∀ call ∈ s.calls[t]?, _))
  | .callback _ | .flush _ | .read _ | .spawn _ => inferInstanceAs (Decidable True)

variable {dht P process} {s s' : FlushPermits δ σ} {act : PermitAct} {call : FlushCall} {t : Nat}

omit [BinaryArchive Instruction] [BinaryArchive Fattribute.Record] in
theorem Balanced.outstanding_le (h : s.Balanced) : s.outstanding ≤ 10 := by
  obtain ⟨he, hle⟩ := h
  omega

omit [BinaryArchive Instruction] [BinaryArchive Fattribute.Record] in
/-- What a change of one element does to a count. -/
theorem countP_set_add {α : Type} {p : α → Bool} {l : List α} {x : α} (h : l[t]? = some x) (a : α) :
    (l.set t a).countP p + (if p x then 1 else 0) = l.countP p + if p a then 1 else 0 := by
  obtain ⟨hlt, rfl⟩ := List.getElem?_eq_some_iff.mp h
  rw [List.countP_set hlt]
  by_cases hp : p l[t] = true
  · have hpos : 0 < l.countP p := List.countP_pos_iff.mpr ⟨_, List.getElem_mem hlt, hp⟩
    rw [if_pos hp]
    omega
  · rw [if_neg hp]
    omega

omit [BinaryArchive Instruction] [BinaryArchive Fattribute.Record] in
theorem outstanding_setPc (ht : s.calls[t]? = some call) (pc : FlushPc) :
    (s.setPc t call pc).outstanding + (if call.Admitted then 1 else 0) =
      s.outstanding + if pc = .spawn ∨ pc = .execute then 1 else 0 := by
  have h := countP_set_add (p := fun call : FlushCall => call.Admitted) ht { call with pc := pc }
  simp only [decide_eq_true_eq] at h
  exact h

omit [BinaryArchive Instruction] [BinaryArchive Fattribute.Record] in
theorem atomicInt_eq {n : Int} (h : -1 ≤ n) (h' : n ≤ 11) : atomicInt n = n := by
  rw [atomicInt, Int.bmod_eq_of_le] <;> omega

/-- What a step does to the counter and to the number of outstanding tasks. -/
inductive Change (dht : Dht δ) (P : Policy ChunkData σ) (s : FlushPermits δ σ) :
    PermitAct → FlushPermits δ σ → Prop where
  | idle {a : PermitAct} {r : FlushPermits δ σ} : r.flushCounter = s.flushCounter →
      r.outstanding = s.outstanding → Ok dht P s a → Change dht P s a r
  | admitted {i : Nat} {r : FlushPermits δ σ} : r.flushCounter = atomicInt (s.flushCounter - 1) →
      r.outstanding = s.outstanding + 1 → Change dht P s (.decrement i) r
  | returned {i : Nat} {r : FlushPermits δ σ} : r.flushCounter = atomicInt (s.flushCounter + 1) →
      r.outstanding + 1 = s.outstanding → Ok dht P s (.execute i) → Change dht P s (.execute i) r
  | thrown {i : Nat} {r : FlushPermits δ σ} : r.flushCounter = s.flushCounter →
      r.outstanding + 1 = s.outstanding → ¬Ok dht P s (.execute i) → Change dht P s (.execute i) r

theorem change_of_step (h : step dht P process s act = some s') : Change dht P s act s' := by
  cases act with
  | callback act =>
    have h : ∃ fs, s' = { s with fs := fs } := by
      cases act with
      | dhtTask => cases h
      | _ => obtain ⟨fs, _, rfl⟩ := Option.map_eq_some_iff.mp h; exact ⟨fs, rfl⟩
    obtain ⟨fs, rfl⟩ := h
    exact .idle rfl rfl trivial
  | flush filepath =>
    cases h
    refine .idle rfl ?_ trivial
    rw [outstanding, List.countP_append]
    rfl
  | read t =>
    obtain ⟨call, ht, h⟩ := Option.bind_eq_some_iff.mp h
    split at h
    · cases h
    · next hpc =>
      have hno := outstanding_setPc ht .decrement
      simp only [FlushCall.Admitted, not_not.mp hpc, reduceCtorEq, or_self, if_false] at hno
      split at h <;> cases h
      · exact .idle rfl rfl trivial
      · exact .idle rfl hno trivial
  | decrement t =>
    obtain ⟨call, ht, h⟩ := Option.bind_eq_some_iff.mp h
    split at h
    · cases h
    · next hpc =>
      cases h
      have hadd := outstanding_setPc ht .spawn
      simp only [FlushCall.Admitted, not_not.mp hpc, reduceCtorEq, or_self, or_false, if_false,
        if_true] at hadd
      exact .admitted rfl hadd
  | spawn t =>
    obtain ⟨call, ht, h⟩ := Option.bind_eq_some_iff.mp h
    split at h
    · cases h
    · next hpc =>
      cases h
      have hsame := outstanding_setPc ht .execute
      simp only [FlushCall.Admitted, not_not.mp hpc, reduceCtorEq, or_false, false_or, if_true,
        Nat.add_right_cancel_iff] at hsame
      exact .idle rfl hsame trivial
  | execute t =>
    obtain ⟨call, ht, h⟩ := Option.bind_eq_some_iff.mp h
    split at h
    · cases h
    · next hpc =>
      have hsub := outstanding_setPc ht .ended
      simp only [FlushCall.Admitted, not_not.mp hpc, reduceCtorEq, or_true, or_self, if_true,
        if_false, Nat.add_zero] at hsub
      split at h
      · next fs hrun =>
        cases h
        refine .returned rfl hsub fun call' ht' hthrows => ?_
        cases ht.symm.trans ht'
        obtain ⟨e, he⟩ := hthrows
        rw [hrun] at he
        cases he
      · next e fs hrun =>
        cases h
        exact .thrown rfl hsub fun hok => hok call ht ⟨e, by rw [hrun]; rfl⟩
      · cases h

theorem Balanced.of_change (H : s.Balanced) (hok : Ok dht P s act) (h : Change dht P s act s') :
    s'.Balanced := by
  obtain ⟨he, hle⟩ := H
  cases h with
  | idle hc ho => exact ⟨by rw [hc, ho, he], by rw [hc]; exact hle⟩
  | admitted hc ho =>
    have hpos : 0 < s.flushCounter := hok
    rw [atomicInt_eq (by omega) (by omega)] at hc
    constructor <;> omega
  | returned hc ho =>
    rw [atomicInt_eq (by omega) (by omega)] at hc
    constructor <;> omega
  | thrown _ _ hno => exact (hno hok).elim

theorem Balanced.ok_of_change (H : s.Balanced) (h : Change dht P s act s') (H' : s'.Balanced) :
    Ok dht P s act := by
  obtain ⟨he, hle⟩ := H
  obtain ⟨he', hle'⟩ := H'
  cases h with
  | idle _ _ hok => exact hok
  | admitted hc ho =>
    rw [atomicInt_eq (by omega) (by omega)] at hc
    show 0 < s.flushCounter
    omega
  | returned _ _ hok => exact hok
  | thrown hc ho => omega

/-- The permits are balanced in every run whose decrements find the counter positive and whose tasks
return, and the first step that does neither ends that. -/
theorem balanced_iff_ok (dht : Dht δ) (P : Policy ChunkData σ) (process : Process) {fs : Fs δ σ}
    (h : Reach (step dht P process) (Ok dht P) (init fs) s) :
    s.Balanced ∧ s.outstanding ≤ 10 ∧ ∀ act s', step dht P process s act = some s' → (s'.Balanced ↔ Ok dht P s act) := by
  have H : s.Balanced := h.invariant ⟨rfl, Int.le.intro 10 rfl⟩ fun _ _ _ H hok hstep =>
    H.of_change hok (change_of_step hstep)
  refine ⟨H, H.outstanding_le, fun act s' hstep => ?_⟩
  exact ⟨H.ok_of_change (change_of_step hstep), fun hok => H.of_change hok (change_of_step hstep)⟩

end FlushPermits

namespace FlushPermits

open scoped PlainArchive

/-- A DHT that refuses every put. -/
def refusing : Dht Unit := ⟨fun _ _ => throw (.raised .dhtError), fun _ => return []⟩

/-- Eleven threads read the counter before one of them takes a permit off it; and a task that does
not get its attribute into the DHT keeps its permit. -/
theorem exists_unbalanced :
    (∃ s, Reach (step Dht.table Fs.idle ⟨0, 0⟩) always
      (init (Fs.start ⟨0, 0⟩ (fun _ => none) ())) s ∧ s.flushCounter = -1 ∧ s.outstanding = 11) ∧
    ∃ s, Reach (step refusing Fs.idle ⟨0, 0⟩) always (init (Fs.start ⟨0, 0⟩ () ())) s ∧
      s.flushCounter = 9 ∧ s.calls = [⟨['/', 'f'], .ended⟩] := by
  constructor
  · have h : (run (step Dht.table Fs.idle ⟨0, 0⟩) (init (Fs.start ⟨0, 0⟩ (fun _ => none) ()))
        (List.replicate 11 (.flush ['/', 'f']) ++ (List.range 11).map .read ++
          (List.range 11).map .decrement)).map (fun s => (s.flushCounter, s.outstanding)) =
        some (-1, 11) := by
      decide +kernel
    obtain ⟨s, hs, he⟩ := Option.map_eq_some_iff.mp h
    obtain ⟨hc, ho⟩ := Prod.mk.inj he
    exact ⟨s, .of_run _ hs, hc, ho⟩
  · have h : (run (step refusing Fs.idle ⟨0, 0⟩) (init (Fs.start ⟨0, 0⟩ () ()))
        [.callback (.create ['/', 'f'] 0o644 ⟨1, 0⟩), .flush ['/', 'f'], .read 0, .decrement 0,
          .spawn 0, .execute 0]).map (fun s => (s.flushCounter, s.calls)) =
        some (9, [⟨['/', 'f'], .ended⟩]) := by
      decide +kernel
    obtain ⟨s, hs, he⟩ := Option.map_eq_some_iff.mp h
    obtain ⟨hc, hcalls⟩ := Prod.mk.inj he
    exact ⟨s, .of_run _ hs, hc, hcalls⟩

/-- Two flushes of a new file, of which one has ended. -/
theorem balanced_iff_ok_example : ∃ s : FlushPermits (Str → Option Str) Unit,
    s.calls = [⟨['/', 'f'], .ended⟩, ⟨['/', 'f'], .spawn⟩] ∧ s.flushCounter = 9 ∧ s.Balanced := by
  have h : (run (guarded (step Dht.table Fs.idle ⟨0, 0⟩) (Ok Dht.table Fs.idle))
      (init (Fs.start ⟨0, 0⟩ (fun _ => none) ()))
      [.callback (.create ['/', 'f'] 0o644 ⟨1, 0⟩), .flush ['/', 'f'], .flush ['/', 'f'], .read 0,
        .read 1, .decrement 0, .spawn 0, .execute 0, .decrement 1]).map
      (fun s => (s.calls, s.flushCounter)) =
      some ([⟨['/', 'f'], .ended⟩, ⟨['/', 'f'], .spawn⟩], 9) := by
    decide +kernel
  obtain ⟨s, hs, he⟩ := Option.map_eq_some_iff.mp h
  obtain ⟨hcalls, hc⟩ := Prod.mk.inj he
  exact ⟨s, hcalls, hc, (balanced_iff_ok Dht.table Fs.idle ⟨0, 0⟩ (.of_run_guarded _ hs)).1⟩

end FlushPermits

end ColonyFS

import ColonyFS.Fuse.Contents
import ColonyFS.Fuse.Moves
import ColonyFS.Lib.Sharing

/-!
# Clients that share the DHT and the chunk servers

Any number of processes mount the file system. Each has caches of its own, and their callbacks come
in any order, one at a time. No message tells a client that another one has changed a file: what it
has cached it keeps, and what it has not it takes from the DHT. Here one client writes a file, and the
others read it.
-/

namespace ColonyFS

open Paths Function Machine
open DataOnFlush (policy)
open DataSink (Stores Sane writeBack)
open WriteBack (KeepsAt)
open Sharing (Alone Turn Published Sees)

/-- The sinks of each process, with the DHT and the chunk servers. -/
structure Clients (ι : Type) where
  sinks : ι → Cache Str AttributeValue × DataSink
  dht : Str → Option Str
  chunkservers : Net

namespace Fs

variable [BinaryArchive Instruction] [BinaryArchive Fattribute.Record] {process : Process}
  {c c' : Fs (Str → Option Str) Net} {act : Act} {f : Str}

/-- The chunks of a file that a callback does not edit. -/
theorem data_keepsAt (H : Sane c.data) (hE : ¬act.Edits f)
    (h : step Dht.table policy process c act = some c') (j : Int) :
    KeepsAt (writeBack c.data) (writeBack c'.data) ⟨f, j⟩ := by
  by_cases hact : act.SparesData
  · rw [step_data hact h]
    exact .refl _ _
  cases act with
  | create path mode now =>
    obtain ⟨r, hr⟩ := after_eq_some.mp h
    obtain ⟨_, hd⟩ | ⟨_, hw⟩ := create_data hr
    · rw [hd]
      exact .refl _ _
    · exact (DataSink.keepsAt_write H.wf (fun h => hE (.inl h)) hw).2.2 j
  | write path buffer size offset =>
    obtain ⟨r, hr⟩ := after_eq_some.mp h
    exact (DataSink.keepsAt_write H.wf hE (write_data hr)).2.2 j
  | read path buffer size offset =>
    obtain ⟨r, hr⟩ := after_eq_some.mp h
    obtain hd | ⟨n, hread⟩ := read_data hr
    · rw [hd]
      exact .refl _ _
    · exact (DataSink.keeps_read H.wf H.backed hread).2.2 ⟨f, j⟩
  | truncate path length =>
    obtain ⟨r, hr⟩ := after_eq_some.mp h
    obtain ⟨_, rfl⟩ | ⟨_, m, ht⟩ := truncate_data DataOnFlush.policy_noLookupE hr
    · exact .refl _ _
    · exact (DataSink.keepsAt_truncate H.wf H.backed hE ht).2.2 j
  | dhtTask path =>
    obtain ⟨r, hr⟩ := after_eq_some.mp h
    obtain ⟨s, hinv, hpurge⟩ := dhtTask_data hr
    exact (DataSink.keeps_flush H.wf H.backed hinv hpurge).2.2.1 ⟨f, j⟩
  | _ => exact (hact trivial).elim

end Fs

namespace Clients

variable {ι : Type} [DecidableEq ι] [BinaryArchive Instruction] [BinaryArchive Fattribute.Record]

/-- What a process sees. -/
def fs (s : Clients ι) (i : ι) : Fs (Str → Option Str) Net :=
  ⟨(s.sinks i).1, (s.sinks i).2, s.dht, s.chunkservers⟩

/-- A process has changed what it sees. -/
def put (s : Clients ι) (i : ι) (c : Fs (Str → Option Str) Net) : Clients ι :=
  ⟨update s.sinks i (c.metadataSink, c.dataSink), c.dht, c.chunkservers⟩

/-- A callback of one of the processes. -/
def step (process : ι → Process) (s : Clients ι) (l : ι × Act) : Option (Clients ι) :=
  (Fs.step Dht.table policy (process l.1) (s.fs l.1) l.2).map (s.put l.1)

/-- The same with its answer. -/
def call (process : ι → Process) (s : Clients ι) (l : ι × Act) : Option (Reply × Clients ι) :=
  (Fs.call Dht.table policy (process l.1) (s.fs l.1) l.2).map fun q => (q.1, s.put l.1 q.2)

/-- Every process has run its constructor. -/
def start (now : ι → Timespec) (dht : Str → Option Str) (net : Net) : Clients ι where
  sinks i := ((Fs.start (now i) dht net).metadataSink, (Fs.start (now i) dht net).dataSink)
  dht := dht
  chunkservers := net

/-- The attributes that are cached, in front of the DHT. -/
def records (s : Clients ι) : Sharing ι Str Fattribute.Record where
  cached i := (s.fs i).records.cached
  Dirty i := (s.fs i).records.Dirty
  stored path := (s.dht (Fs.slot path)).bind BinaryArchive.load

/-- The chunks that are cached, in front of the chunk servers. -/
def chunks (s : Clients ι) : Sharing ι ChunkKey (List Byte) where
  cached i := (writeBack (s.fs i).data).cached
  Dirty i := (writeBack (s.fs i).data).Dirty
  stored := s.chunkservers.stored?

variable {process : ι → Process} {s s' s₀ s₁ s₂ : Clients ι} {c : Fs (Str → Option Str) Net}
  {i j w : ι} {l : List ((ι × Act) × Reply)} {act : Act} {f : Str} {flat : List Byte} {a b : Fattribute}
  {reply : Reply}

omit [BinaryArchive Instruction] [BinaryArchive Fattribute.Record] in
@[simp] theorem fs_put_self : (s.put i c).fs i = c := by
  simp [fs, put]

omit [BinaryArchive Instruction] [BinaryArchive Fattribute.Record] in
theorem sinks_put_of_ne (h : j ≠ i) : (s.put i c).sinks j = s.sinks j := update_of_ne h _ _

theorem step_eq_some : step process s (i, act) = some s' ↔
    ∃ c, Fs.step Dht.table policy (process i) (s.fs i) act = some c ∧ s.put i c = s' :=
  Option.map_eq_some_iff

theorem map_call (l : ι × Act) : (call process s l).map (·.2) = step process s l := by
  rw [call, step, ← Fs.map_call, Option.map_map, Option.map_map]
  rfl

/-- The process that takes a step does what it would do alone. -/
theorem step_self (h : step process s (i, act) = some s') :
    Fs.step Dht.table policy (process i) (s.fs i) act = some (s'.fs i) := by
  obtain ⟨c, hc, rfl⟩ := step_eq_some.mp h
  rw [hc, fs_put_self]

/-- The caches of the others stay as they are. -/
theorem step_others (h : step process s (i, act) = some s') (hj : j ≠ i) :
    s'.sinks j = s.sinks j := by
  obtain ⟨c, _, rfl⟩ := step_eq_some.mp h
  exact sinks_put_of_ne hj

/-! ## What a step is to the shared caches -/

/-- The caches are well formed, and what the DHT locates is there. -/
structure Sound (s : Clients ι) : Prop where
  wf : ∀ i, (s.fs i).WF
  sane : ∀ i, Sane (s.fs i).data

theorem Sound.step (H : Sound s) (h : step process s (i, act) = some s') : Sound s' := by
  have hi := step_self h
  constructor
  · intro j
    by_cases hj : j = i
    · subst hj
      exact (Fs.step_moves (H.wf j) hi).wf (H.wf j)
    · have hm : (s'.fs j).metadataSink = (s.fs j).metadataSink :=
        congrArg Prod.fst (step_others h hj)
      rw [Fs.WF, hm]
      exact H.wf j
  · intro j
    have hs := Fs.sane_step (H.sane i) hi
    by_cases hj : j = i
    · exact hj ▸ hs
    · refine ⟨?_, hs.backed⟩
      have hd : (s'.fs j).dataSink = (s.fs j).dataSink := congrArg Prod.snd (step_others h hj)
      rw [Fs.data, hd]
      exact (H.sane j).wf

theorem records_alone (h : step process s (i, act) = some s') :
    Alone i f s.records s'.records := by
  intro j hj
  have hm : (s'.fs j).metadataSink = (s.fs j).metadataSink :=
    congrArg Prod.fst (step_others h hj)
  simp only [records, Fs.records, Fs.cached, Fs.Dirty, hm, and_self]

theorem chunks_alone {k : ChunkKey} (h : step process s (i, act) = some s') :
    Alone i k s.chunks s'.chunks := by
  intro j hj
  have hd : (s'.fs j).dataSink = (s.fs j).dataSink := congrArg Prod.snd (step_others h hj)
  simp only [chunks, writeBack, Fs.data, hd, and_self]

theorem records_turn (H : Sound s) (hE : ¬act.Edits f) (hF : act ≠ .dhtTask (Fs.slot f))
    (h : step process s (i, act) = some s') : Turn i f s.records s'.records :=
  ⟨(Fs.step_moves (H.wf i) (step_self h)).keepsAt (H.wf i) hE hF, records_alone h⟩

theorem chunks_turn (H : Sound s) (hE : ¬act.Edits f)
    (h : step process s (i, act) = some s') (n : Int) : Turn i ⟨f, n⟩ s.chunks s'.chunks :=
  ⟨Fs.data_keepsAt (H.sane i) hE (step_self h) n, chunks_alone h⟩

omit [DecidableEq ι] [BinaryArchive Fattribute.Record] in
theorem fs_start {now : ι → Timespec} {dht : Str → Option Str} {net : Net} :
    (start now dht net).fs i = Fs.start (now i) dht net := by
  have heta : ∀ c : Fs (Str → Option Str) Net, c.dht = dht → c.chunkservers = net →
      (⟨c.metadataSink, c.dataSink, dht, net⟩ : Fs (Str → Option Str) Net) = c := by
    rintro c rfl rfl
    rfl
  exact heta _ (Fs.start_spec (now i) dht net).2.1
    (congrArg Prod.snd (Fs.start_data (now i) dht net))

omit [DecidableEq ι] [BinaryArchive Fattribute.Record] in
theorem sound_start {now : ι → Timespec} {dht : Str → Option Str} {net : Net}
    (hb : net.Backed) : Sound (start now dht net) where
  wf i := by
    rw [fs_start]
    exact (Fs.start_spec (now i) dht net).1
  sane i := by
    rw [fs_start, Fs.start_data]
    exact ⟨DataSink.WF.empty, hb⟩

theorem sound_of_reach {ok : Clients ι → ι × Act → Prop} (H : Sound s₀)
    (h : Reach (step process) ok s₀ s) : Sound s :=
  h.invariant H fun _ _ _ H _ hs => H.step hs

/-! ## The attribute of a file that one client writes -/

/-- Only `w` edits the path. The second condition saves its mark from a flush of something else. -/
def WrittenBy (w : ι) (f : Str) (_ : Clients ι) (l : ι × Act) : Prop :=
  (l.2.Edits f → l.1 = w) ∧ l.2 ≠ .dhtTask (Fs.slot f)

/-- No client edits the path. -/
def Unedited (f : Str) (_ : Clients ι) (l : ι × Act) : Prop :=
  ¬l.2.Edits f ∧ l.2 ≠ .dhtTask (Fs.slot f)

instance (w : ι) (f : Str) (s : Clients ι) (l : ι × Act) : Decidable (WrittenBy w f s l) :=
  inferInstanceAs (Decidable (_ ∧ _))

instance (f : Str) (s : Clients ι) (l : ι × Act) : Decidable (Unedited f s l) :=
  inferInstanceAs (Decidable (_ ∧ _))

/-- A record that was in the DHT at first, or that `w` had cached at one of its flushes of the file in
the given run. -/
def Version (process : ι → Process) (s₀ : Clients ι) (w : ι) (f : Str)
    (l : List ((ι × Act) × Reply)) (r : Fattribute.Record) : Prop :=
  s₀.records.stored f = some r ∨ ∃ l₁ reply l₂ s₁, l = l₁ ++ ((w, .dhtTask f), reply) :: l₂ ∧
    Trace (call process) (WrittenBy w f) s₀ l₁ s₁ ∧ s₁.records.cached w f = some r

theorem Version.concat {r : Fattribute.Record} (H : Version process s₀ w f l r)
    (q : (ι × Act) × Reply) : Version process s₀ w f (l ++ [q]) r := by
  obtain h₀ | ⟨l₁, reply, l₂, s₁, rfl, h₁, hr⟩ := H
  · exact .inl h₀
  · refine .inr ⟨l₁, reply, l₂ ++ [q], s₁, ?_, h₁, hr⟩
    rw [List.append_assoc, List.cons_append]

theorem step_of_call {la : ι × Act} (h : call process s la = some (reply, s')) :
    step process s la = some s' := by
  rw [← map_call, h, Option.map_some]

theorem reach_of_trace {ok : Clients ι → ι × Act → Prop} (h : Trace (call process) ok s₀ l s) :
    Reach (step process) ok s₀ s := by
  have hstep : (fun s l => (call process s l).map (·.2)) = step process :=
    funext fun _ => funext map_call
  exact hstep ▸ h.reach

theorem trace_of_reach {ok : Clients ι → ι × Act → Prop} (h : Reach (step process) ok s₀ s) :
    ∃ l, Trace (call process) ok s₀ l s := by
  have hstep : (fun s l => (call process s l).map (·.2)) = step process :=
    funext fun _ => funext map_call
  exact Trace.of_reach (hstep ▸ h)

/-- What the others see after a step. -/
theorem sees_call (H : Sound s) (h₀ : Trace (call process) (WrittenBy w f) s₀ l s)
    (hsees : Sees (Version process s₀ w f l) w f s.records) (hok : WrittenBy w f s (i, act))
    (h : call process s (i, act) = some (reply, s')) :
    Sees (Version process s₀ w f (l ++ [((i, act), reply)])) w f s'.records := by
  have hmono := hsees.mono fun _ hv => Version.concat hv ((i, act), reply)
  have hstep := step_of_call h
  by_cases hi : i = w
  · subst hi
    refine hmono.write (records_alone hstep) ?_
    intro r hr
    by_cases hact : act = .dhtTask f
    · subst hact
      obtain hs | hs := (records_turn (f := f) H id hok.2 hstep).own.stored
      · exact hmono.stored r (hs.symm.trans hr)
      · exact .inr ⟨l, reply, [], s, rfl, h₀, hs.symm.trans hr⟩
    · exact hmono.stored r ((Fs.step_moves (H.wf i) (step_self hstep)).record? hact hr)
  · exact (records_turn H (fun hE => hi (hok.1 hE)) hok.2 hstep).sees hi hmono

theorem sees_start {now : ι → Timespec} {dht : Str → Option Str} {net : Net} (hf : f ≠ ['/']) :
    Sees (Version process (start now dht net) w f []) w f (start now dht net).records where
  stored r hr := .inl hr
  cached i _ r hr := by
    obtain ⟨_, _, a, _, _, _, hc⟩ := Fs.start_spec (now i) dht net
    simp only [records, fs_start, Fs.records, hc, update_of_ne hf] at hr
    cases hr
  clean i _ hd := by
    simp only [records, fs_start] at hd
    exact Fs.start_clean hf hd

theorem sees_of_trace {now : ι → Timespec} {dht : Str → Option Str} {net : Net}
    (hb : net.Backed) (hf : f ≠ ['/'])
    (h : Trace (call process) (WrittenBy w f) (start now dht net) l s) :
    Sees (Version process (start now dht net) w f l) w f s.records := by
  induction h with
  | nil => exact sees_start hf
  | @snoc l s la reply s' h hok hcall ih =>
    obtain ⟨i, act⟩ := la
    exact sees_call (sound_of_reach (sound_start hb) (reach_of_trace h)) h ih hok hcall

/-- What a client does not edit it does not drop. -/
theorem cached_of_reach {ok : Clients ι → ι × Act → Prop} (H : Sound s)
    (hok : ∀ s l, ok s l → l.1 = i → ¬l.2.Edits f) (ha : (s.fs i).cached f = some a)
    (h : Reach (step process) ok s s') : (s'.fs i).cached f = some a := by
  induction h with
  | init => exact ha
  | @step s₁ l s₂ h hl hstep ih =>
    obtain ⟨j, act⟩ := l
    by_cases hj : i = j
    · subst hj
      have hm := Fs.step_moves ((sound_of_reach H h).wf i) (step_self hstep)
      exact hm.cached (hok _ _ hl rfl) ih
    · have hs : (s₂.fs i).metadataSink = (s₁.fs i).metadataSink :=
        congrArg Prod.fst (step_others hstep hj)
      rw [Fs.cached, hs]
      exact ih

/-- The others see the attribute of a file as its writer had it at one of its flushes, and never
anything in between. The first one that a client sees is the one it keeps. -/
theorem readers_see_versions (process : ι → Process) (now : ι → Timespec)
    (dht : Str → Option Str) (net : Net) (hb : net.Backed) (w : ι) (f : Str) (hf : f ≠ ['/'])
    (h : Trace (call process) (WrittenBy w f) (start now dht net) l s) (i : ι) (hi : i ≠ w)
    (ha : Fs.attr? Dht.table (s.fs i) f = some a) :
    Version process (start now dht net) w f l a.serialize ∧
      ((s.fs i).cached f = some a → ∀ s', Reach (step process) (WrittenBy w f) s s' →
        (s'.fs i).cached f = some a) := by
  have H := sees_of_trace hb hf h
  constructor
  · cases hc : (s.fs i).cached f with
    | some b =>
      cases (Fs.attr?_of_cached hc).symm.trans ha
      refine H.cached i hi _ ?_
      simp only [records, Fs.records, hc, Option.map_some]
    | none => exact H.stored _ (Fs.record?_of_attr? hc ha)
  · intro hc s' hs'
    exact cached_of_reach (sound_of_reach (sound_start hb) (reach_of_trace h))
      (fun _ l hok hl hE => hi (hl.symm.trans (hok.1 hE))) hc hs'

theorem recorded_of_reach {now : ι → Timespec} {dht : Str → Option Str} {net : Net}
    (hb : net.Backed) (hf : f ≠ ['/'])
    (h : Reach (step process) (WrittenBy w f) (start now dht net) s) :
    Fs.Recorded f (s.fs w) := by
  induction h with
  | init =>
    intro r hr
    obtain ⟨_, _, a, _, _, _, hc⟩ := Fs.start_spec (now w) dht net
    simp only [fs_start, Fs.records, hc, update_of_ne hf] at hr
    cases hr
  | @step s₁ l s₂ h hok hstep ih =>
    obtain ⟨i, act⟩ := l
    have H := sound_of_reach (sound_start hb) h
    by_cases hi : i = w
    · subst hi
      exact (Fs.step_moves (H.wf i) (step_self hstep)).recorded (H.wf i) hok.2 ih
    · have ht := records_turn H (fun hE => hi (hok.1 hE)) hok.2 hstep
      obtain ⟨_, htrace⟩ := trace_of_reach h
      exact ih.keepsAt (ht.keepsAt ((sees_of_trace hb hf htrace).clean i hi) w)

/-- When the writer's flush has returned, what it had cached is in the DHT. -/
theorem published_of_flush {now : ι → Timespec} {dht : Str → Option Str} {net : Net}
    (hb : net.Backed) (hf : f ≠ ['/'])
    (h : Reach (step process) (WrittenBy w f) (start now dht net) s₁)
    (ha : (s₁.fs w).cached f = some a) (hslot : f ≠ Fs.slot f)
    (hflush : step process s₁ (w, .dhtTask f) = some s₂) :
    Published f a.serialize s₂.records := by
  have H := sound_of_reach (sound_start hb) h
  have hF : Act.dhtTask f ≠ .dhtTask (Fs.slot f) := fun he => hslot (Act.dhtTask.inj he)
  obtain ⟨_, htrace⟩ := trace_of_reach (h.step ⟨False.elim, hF⟩ hflush)
  have hsees := sees_of_trace hb hf htrace
  have ha₂ : (s₂.fs w).cached f = some a :=
    (Fs.step_moves (H.wf w) (step_self hflush)).cached id ha
  have hr : ∀ {s : Clients ι}, (s.fs w).cached f = some a →
      s.records.cached w f = some a.serialize := fun ha => by
    simp only [records, Fs.records, ha, Option.map_some]
  refine hsees.published ?_ fun _ => hr ha₂
  by_cases hd : (s₁.fs w).Dirty f
  · exact Fs.dhtTask_record? (H.wf w) hd ha (step_self hflush)
  · have ht := records_turn (f := f) H id hF hflush
    exact (ht.own.clean hd).trans ((recorded_of_reach hb hf h _ (hr ha)).resolve_left hd)

theorem published_of_reach {v : Fattribute.Record} (H : Sound s₀)
    (hp : Published f v s₀.records) (h : Reach (step process) (Unedited f) s₀ s) :
    Published f v s.records ∧ ∀ i u, s.records.cached i f = some u →
      s₀.records.cached i f = some u ∨ u = v := by
  induction h with
  | init => exact ⟨hp, fun i u hu => .inl hu⟩
  | @step s₁ l s₂ h hok hstep ih =>
    obtain ⟨i, act⟩ := l
    obtain ⟨ihp, ihc⟩ := ih
    have ht := records_turn (sound_of_reach H h) hok.1 hok.2 hstep
    refine ⟨ht.published ihp, fun j u hu => ?_⟩
    exact (ht.cached_of_published ihp hu).elim (ihc j u) .inr

/-- When the flush of the writer has returned, and as long as nobody edits the file again, each client
that had not looked the file up before looks up what the writer had. The others keep what they have. -/
theorem close_to_open (process : ι → Process) (now : ι → Timespec) (dht : Str → Option Str)
    (net : Net) (hb : net.Backed) (w : ι) (f : Str) (hf : f ≠ ['/']) (hslot : f ≠ Fs.slot f)
    (h₁ : Reach (step process) (WrittenBy w f) (start now dht net) s₁)
    (ha : (s₁.fs w).cached f = some a) (hflush : step process s₁ (w, .dhtTask f) = some s₂)
    (h : Reach (step process) (Unedited f) s₂ s) (i : ι) :
    ((s₂.fs i).cached f = none →
      ∃ b, Fs.attr? Dht.table (s.fs i) f = some b ∧ b.serialize = a.serialize) ∧
    ∀ b, (s₂.fs i).cached f = some b → (s.fs i).cached f = some b := by
  have H₂ := (sound_of_reach (sound_start hb) h₁).step hflush
  obtain ⟨hp, hc⟩ := published_of_reach H₂ (published_of_flush hb hf h₁ ha hslot hflush) h
  refine ⟨fun hnone => ?_, fun b hb' => ?_⟩
  · cases hi : (s.fs i).cached f with
    | some b =>
      refine ⟨b, Fs.attr?_of_cached hi, ?_⟩
      obtain hold | heq := hc i b.serialize (by simp only [records, Fs.records, hi, Option.map_some])
      · simp only [records, Fs.records, hnone] at hold
        cases hold
      · exact heq
    | none => exact ⟨_, Fs.attr?_of_record? hi hp.stored, rfl⟩
  · exact cached_of_reach H₂ (fun _ _ hok _ => hok.1) hb' h

end Clients

namespace Clients

open scoped PlainArchive

/-- One client makes a file, gives it away and flushes it. -/
theorem readers_see_versions_example : ∃ (s : Clients Bool) (l : List ((Bool × Act) × Reply))
    (a b : Fattribute), (s.fs false).cached ['/', 'f'] = some a ∧ a.stbuf.uid = 7 ∧
      Fs.attr? Dht.table (s.fs true) ['/', 'f'] = some b ∧
      Version (fun _ => ⟨0, 0⟩) (start (fun _ => ⟨0, 0⟩) (fun _ => none) Fs.bareNet) false
        ['/', 'f'] l b.serialize := by
  let process : Bool → Process := fun _ => ⟨0, 0⟩
  have h : ((play (call process) (WrittenBy false ['/', 'f'])
      (start (fun _ => ⟨0, 0⟩) (fun _ => none) Fs.bareNet)
      [(false, .create ['/', 'f'] 0o644 ⟨1, 0⟩), (false, .chown ['/', 'f'] 7 7)]).bind fun q =>
      ((q.2.fs false).cached ['/', 'f']).bind fun a =>
        (call process q.2 (false, .dhtTask ['/', 'f'])).bind fun q' =>
          if a.stbuf.uid = 7 ∧ (q'.2.fs false).cached ['/', 'f'] = some a ∧
            (q'.2.fs true).cached ['/', 'f'] = none then some () else none) = some () := by
    decide +kernel
  obtain ⟨⟨l, s₁⟩, hplay, h⟩ := Option.bind_eq_some_iff.mp h
  obtain ⟨a, ha, h⟩ := Option.bind_eq_some_iff.mp h
  obtain ⟨⟨reply, s⟩, hs, h⟩ := Option.bind_eq_some_iff.mp h
  split at h
  case isFalse => cases h
  next hcond =>
  have htrace := (Trace.of_play hplay).1
  have hpub := published_of_flush Fs.backed_bareNet (by decide) (reach_of_trace htrace) ha
    (by decide) (step_of_call hs)
  have hb := Fs.attr?_of_record? (c := s.fs true) hcond.2.2 hpub.stored
  exact ⟨s, _, a, _, hcond.2.1, hcond.1, hb, (readers_see_versions process (fun _ => ⟨0, 0⟩)
    (fun _ => none) Fs.bareNet Fs.backed_bareNet false ['/', 'f'] (by decide)
    (htrace.snoc ⟨False.elim, by decide⟩ hs) true (by decide) hb).1⟩

/-- The other client looks the file up after the flush. -/
theorem close_to_open_example : ∃ (s : Clients Bool) (a b : Fattribute),
    Fs.attr? Dht.table (s.fs true) ['/', 'f'] = some b ∧ a.stbuf.uid = 7 ∧
      b.serialize = a.serialize := by
  let written := run (guarded (step fun _ : Bool => ⟨0, 0⟩) (WrittenBy false ['/', 'f']))
    (start (fun _ => ⟨0, 0⟩) (fun _ => none) Fs.bareNet)
    [(false, .create ['/', 'f'] 0o644 ⟨1, 0⟩), (false, .chown ['/', 'f'] 7 7)]
  let looked (s : Clients Bool) :=
    run (guarded (step fun _ : Bool => ⟨0, 0⟩) (Unedited ['/', 'f'])) s
      [(false, .getattr ['/', 'f'] Stat.zero)]
  have h : (written.bind fun s₁ => ((s₁.fs false).cached ['/', 'f']).bind fun a =>
      (step (fun _ => ⟨0, 0⟩) s₁ (false, .dhtTask ['/', 'f'])).bind fun s₂ => (looked s₂).bind
        fun _ => if a.stbuf.uid = 7 ∧ (s₂.fs true).cached ['/', 'f'] = none then some () else none) =
      some () := by
    decide +kernel
  obtain ⟨s₁, h₁, h⟩ := Option.bind_eq_some_iff.mp h
  obtain ⟨a, ha, h⟩ := Option.bind_eq_some_iff.mp h
  obtain ⟨s₂, h₂, h⟩ := Option.bind_eq_some_iff.mp h
  obtain ⟨s, hs, h⟩ := Option.bind_eq_some_iff.mp h
  split at h
  · next hcond =>
    obtain ⟨hopen, _⟩ := close_to_open (fun _ => ⟨0, 0⟩) (fun _ => ⟨0, 0⟩) (fun _ => none)
      Fs.bareNet Fs.backed_bareNet false ['/', 'f'] (by decide) (by decide)
      (.of_run_guarded _ h₁) ha h₂ (.of_run_guarded _ hs) true
    obtain ⟨b, hb, heq⟩ := hopen hcond.2
    exact ⟨s, a, b, hb, hcond.1, heq⟩
  · cases h

end Clients

end ColonyFS

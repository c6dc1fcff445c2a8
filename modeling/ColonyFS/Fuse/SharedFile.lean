import ColonyFS.Fuse.Clients

/-!
# A file that one client writes and others read

While one client edits a file, the chunks that it has not flushed are its own, and the others have
clean ones. Its flush leaves all chunks of the file on the servers and its attribute in the DHT. From
then on, and until the next edit, whoever has nothing of the file cached reads what was written.
-/

namespace ColonyFS

open Paths Function Machine
open DataOnFlush (policy)
open DataSink (Stores Sane writeBack)
open WriteBack (KeepsAt)
open Sharing (Turn Published)

/-- The callbacks that edit an existing file. -/
def Act.OnFile : Act → Prop
  | .chmod .. | .chown .. | .utime .. | .truncate .. | .write .. => True
  | _ => False

instance : (act : Act) → Decidable act.OnFile
  | .chmod .. | .chown .. | .utime .. | .truncate .. | .write .. => inferInstanceAs (Decidable True)
  | .create .. | .mkdir .. | .symlink .. | .rmdir _ | .unlink .. | .rename .. | .getattr ..
  | .read .. | .readdir _ | .readlink .. | .dhtTask _ => inferInstanceAs (Decidable False)

theorem Act.Spares.of_edits {act : Act} {f : Str} (h : act.Edits f → act.OnFile) :
    act.Spares f := by
  cases act with
  | create | mkdir | symlink | unlink | rmdir => exact fun he => h (.inl he.symm)
  | rename => exact ⟨fun he => h (.inl he.symm), fun he => h (.inr (.inl he.symm))⟩
  | _ => trivial

theorem Act.onContent_of_not_edits {act : Act} {f : Str} {flat : List Byte} (h : ¬act.Edits f) :
    act.onContent f flat = flat := by
  cases act with
  | write => exact if_neg fun he => h he.symm
  | truncate => exact if_neg fun he => h he.1.symm
  | _ => rfl

theorem Act.onSize_of_not_edits {act : Act} {f : Str} {size : Int} (h : ¬act.Edits f) :
    act.onSize f size = size := by
  cases act with
  | write => exact if_neg fun he => h he.1.symm
  | truncate => exact if_neg fun he => h he.1.symm
  | _ => rfl

namespace Fs

variable [BinaryArchive Instruction] [BinaryArchive Fattribute.Record] {process : Process}
  {c c' c₁ : Fs (Str → Option Str) Net} {act : Act} {f : Str} {flat : List Byte} {a : Fattribute}
  {p : Ptr}

/-- A callback on a file edits its cached attribute as it would in a client that is alone. -/
theorem answered_onFile (H : c.WF) (ha : c.cached f = some a) (hE : act.Edits f)
    (hfile : act.OnFile) (h : step Dht.table policy process c act = some c') :
    ∃ reply, Attributes.call process c.cached act = some (reply, c'.cached) := by
  cases act with
  | chmod path mode =>
    obtain ⟨r, hr⟩ := after_eq_some.mp h
    cases hE
    exact ⟨_, (answered_chmod H ha).symm.trans (answered_ok hr)⟩
  | chown path uid gid =>
    obtain ⟨r, hr⟩ := after_eq_some.mp h
    cases hE
    exact ⟨_, (answered_edit H ha).symm.trans (answered_ok hr)⟩
  | utime path actime modtime =>
    obtain ⟨r, hr⟩ := after_eq_some.mp h
    cases hE
    exact ⟨_, (answered_edit H ha).symm.trans (answered_ok hr)⟩
  | truncate path length =>
    obtain ⟨r, hr⟩ := after_eq_some.mp h
    cases hE
    exact ⟨_, call_of_truncate H ha hr⟩
  | write path buffer size offset =>
    obtain ⟨r, hr⟩ := after_eq_some.mp h
    cases hE
    exact ⟨_, call_of_write H ha hr⟩
  | _ => exact hfile.elim

/-- Whatever else is in the DHT, a file that its client has cached is an array of bytes. -/
theorem Carries.step (H : Carries f flat c) (hfile : act.Edits f → act.OnFile)
    (hedit : Edits f c act) (h : Fs.step Dht.table policy process c act = some c') :
    Carries f (act.onContent f flat) c' := by
  have hm := step_moves H.wf h
  refine ⟨hm.wf H.wf, H.step_stores (.of_edits hfile) hedit h, ?_⟩
  obtain ⟨a, ha, hsize⟩ := H.attr
  rw [← H.onSize hedit, ← hsize]
  by_cases hE : act.Edits f
  · obtain ⟨reply, hcall⟩ := answered_onFile H.wf ha hE (hfile hE) h
    exact size_call hcall ha (.of_edits hfile)
  · exact ⟨a, hm.cached hE ha, (Act.onSize_of_not_edits hE).symm⟩

/-! ### A read that looks the file up -/

theorem metadataOf_returns_iff (H : c.WF) (ha : attr? Dht.table c f = some a) :
    (∃ p c₁, metadataOf Dht.table f c = .ok p c₁) ↔
      (c.cached f).isSome ∨ slot f ∉ c.metadataSink.cv := by
  constructor
  · rintro ⟨p, c₁, h⟩
    obtain ⟨_, _, b, hb⟩ | ⟨_, _, _, hcv, _⟩ := metadataOf_returned H readOnly_table h
    · exact .inl (Option.isSome_of_eq_some hb)
    · exact .inr hcv
  · intro h
    cases hc : c.cached f with
    | some b =>
      obtain ⟨p, hp, _⟩ := metadataOf_ok Dht.table hc
      exact ⟨p, c, hp⟩
    | none =>
      rw [hc] at h
      obtain h | hcv := h
      · cases h
      simp only [attr?, hc] at ha
      split at ha
      · next v s hP => exact ⟨_, _, metadataOf_fetched H hc hP hcv⟩
      · cases ha

theorem metadataOf_attr? (H : c.WF) (ha : attr? Dht.table c f = some a)
    (h : metadataOf Dht.table f c = .ok p c₁) :
    c₁.WF ∧ c₁.Pair f p ∧ c₁.cached f = some a ∧ c₁.data = c.data ∧
      c₁.dataSink = c.dataSink := by
  obtain ⟨rfl, hp, b, hb⟩ | ⟨hc, v, hP, _, rfl, rfl⟩ := metadataOf_returned H readOnly_table h
  · cases (attr?_of_cached hb).symm.trans ha
    exact ⟨H, hp, hb, rfl, rfl⟩
  · cases (attr?_of_preRead hc hP).symm.trans ha
    have hk : v.getKey = slot f := MetadataOnFlush.policy_keepsKey _ _ _ _ _ hP
    exact ⟨fetched_wf H hc hk, fetched_pair, by rw [fetched_cached H, update_self], rfl, rfl⟩

/-- The rest of a `read` is the `read` of a client that has the file cached. -/
theorem read_of_metadataOf {dest : List Byte} {size offset : Nat} (H : c.WF)
    (ha : attr? Dht.table c f = some a) (h : metadataOf Dht.table f c = .ok p c₁) :
    read Dht.table policy f dest size offset c = read Dht.table policy f dest size offset c₁ := by
  obtain ⟨_, hp, hc, _⟩ := metadataOf_attr? H ha h
  rw [read, Exec.bind_of_ok h, Exec.bind_of_ok (getMapped_ok hp hc), bind_metadataOf hc]

theorem carries_of_metadataOf (H : c.WF) (hst : Stores f flat c.data)
    (ha : attr? Dht.table c f = some a) (hsize : a.stbuf.size = flat.length)
    (h : metadataOf Dht.table f c = .ok p c₁) : Carries f flat c₁ := by
  obtain ⟨wf, _, hc, hdata, _⟩ := metadataOf_attr? H ha h
  exact ⟨wf, hdata ▸ hst, a, hc, hsize⟩

theorem read_lookedUp_eq {dest : List Byte} {size offset : Nat} {r : Int × List Byte} (H : c.WF)
    (hst : Stores f flat c.data) (ha : attr? Dht.table c f = some a)
    (hsize : a.stbuf.size = flat.length) (hs : size < 2 ^ 31) (ho : offset ≤ flat.length)
    (hin : offset % CHUNK_SIZE + min size (flat.length - offset) ≤ CHUNK_SIZE)
    (h : read Dht.table policy f dest size offset c = .ok r c') :
    r = (((min size (flat.length - offset) : Nat) : Int),
      Vec.memcpy dest 0 (Vec.slice flat offset (min size (flat.length - offset)))) := by
  obtain ⟨p, c₁, h₁, _⟩ := Exec.bind_eq_ok.mp h
  rw [read_of_metadataOf H ha h₁] at h
  exact (carries_of_metadataOf H hst ha hsize h₁).read_eq hs ho hin h

theorem read_lookedUp_returns_iff {dest : List Byte} {size offset : Nat} (H : c.WF)
    (hst : Stores f flat c.data) (ha : attr? Dht.table c f = some a)
    (hsize : a.stbuf.size = flat.length) (hs : size < 2 ^ 31)
    (hn : 0 < min size (flat.length - offset))
    (hin : offset % CHUNK_SIZE + min size (flat.length - offset) < CHUNK_SIZE)
    (hdest : size ≤ dest.length) :
    (∃ r c', read Dht.table policy f dest size offset c = .ok r c') ↔
      ((c.cached f).isSome ∨ slot f ∉ c.metadataSink.cv) ∧
        ((c.dataSink.chunk? f (toInt (offset / CHUNK_SIZE))).isSome ∨
          ⟨f, toInt (offset / CHUNK_SIZE)⟩ ∉ c.dataSink.cache.cv) := by
  have hiff : ∀ {p c₁}, metadataOf Dht.table f c = .ok p c₁ →
      ((∃ r c', read Dht.table policy f dest size offset c = .ok r c') ↔
        (c.dataSink.chunk? f (toInt (offset / CHUNK_SIZE))).isSome ∨
          ⟨f, toInt (offset / CHUNK_SIZE)⟩ ∉ c.dataSink.cache.cv) := by
    intro p c₁ h₁
    obtain ⟨_, _, _, _, hd⟩ := metadataOf_attr? H ha h₁
    rw [read_of_metadataOf H ha h₁, ← hd]
    exact (carries_of_metadataOf H hst ha hsize h₁).read_returns_iff hs hn hin hdest
  rw [← metadataOf_returns_iff H ha]
  constructor
  · rintro ⟨r, c', h⟩
    obtain ⟨p, c₁, h₁, _⟩ := Exec.bind_eq_ok.mp h
    exact ⟨⟨p, c₁, h₁⟩, (hiff h₁).mp ⟨r, c', h⟩⟩
  · rintro ⟨⟨p, c₁, h₁⟩, hfree⟩
    exact (hiff h₁).mpr hfree

end Fs

namespace Clients

variable {ι : Type} [DecidableEq ι] [BinaryArchive Instruction] [BinaryArchive Fattribute.Record]
  {process : ι → Process} {s s' s₀ s₁ s₂ : Clients ι} {i j w : ι} {act : Act} {f : Str}
  {flat : List Byte} {a : Fattribute} {reply : Reply}

/-- Only `w` edits the file, as a file, and leaves it an array of bytes. -/
def Writes (w : ι) (f : Str) (s : Clients ι) (l : ι × Act) : Prop :=
  WrittenBy w f s l ∧ (l.2.Edits f → l.2.OnFile ∧ Fs.Edits f (s.fs w) l.2)

instance (w : ι) (f : Str) (s : Clients ι) (l : ι × Act) : Decidable (Writes w f s l) :=
  inferInstanceAs (Decidable (_ ∧ (_ → _ ∧ _)))

/-- The writer has the content, and the others have nothing to write back. -/
structure Shares (w : ι) (f : Str) (flat : List Byte) (s : Clients ι) : Prop where
  sound : Sound s
  writer : Fs.Carries f flat (s.fs w)
  clean : ∀ i ≠ w, ∀ n, ¬s.chunks.Dirty i ⟨f, n⟩

theorem fsEdits_of_not_edits {c : Fs (Str → Option Str) Net} (h : ¬act.Edits f) :
    Fs.Edits f c act := by
  cases act with
  | write | truncate => exact fun he => (h he.symm).elim
  | _ => trivial

omit [DecidableEq ι] [BinaryArchive Fattribute.Record] in
/-- A turn of a client whose chunks are clean is nothing to the content that another one has. -/
theorem stores_of_turn (H' : Sound s') (hd : ∀ n, ¬s.chunks.Dirty i ⟨f, n⟩)
    (ht : ∀ n, Turn i ⟨f, n⟩ s.chunks s'.chunks) (h : Stores f flat (s.fs j).data) :
    Stores f flat (s'.fs j).data :=
  h.of_keepsAt (H'.sane j).wf (H'.sane j).backed fun n => (ht n).keepsAt (hd n) j

theorem Shares.step (H : Shares w f flat s) (hok : Writes w f s (i, act))
    (h : step process s (i, act) = some s') : Shares w f (act.onContent f flat) s' := by
  obtain ⟨hw, hfile⟩ := hok
  have H' := H.sound.step h
  by_cases hi : i = w
  · subst hi
    refine ⟨H', H.writer.step (fun hE => (hfile hE).1) ?_ (step_self h), fun j hj n hd => ?_⟩
    · by_cases hE : act.Edits f
      · exact (hfile hE).2
      · exact fsEdits_of_not_edits hE
    · exact H.clean j hj n ((chunks_alone h j hj).2.mp hd)
  · have hE : ¬act.Edits f := fun hE => hi (hw.1 hE)
    have ht := chunks_turn H.sound hE h
    refine ⟨H', ⟨H'.wf w, ?_, ?_⟩, fun j hj n hd => ?_⟩
    · rw [Act.onContent_of_not_edits hE]
      exact stores_of_turn H' (H.clean i hi) ht H.writer.stores
    · obtain ⟨a, ha, hsize⟩ := H.writer.attr
      have hm : (s'.fs w).metadataSink = (s.fs w).metadataSink :=
        congrArg Prod.fst (step_others h (Ne.symm hi))
      rw [Act.onContent_of_not_edits hE]
      exact ⟨a, by rw [Fs.cached, hm]; exact ha, hsize⟩
    · exact H.clean j hj n ((ht n).dirty hd).1

theorem Shares.trace {l : List ((ι × Act) × Reply)} (H : Shares w f flat s₀)
    (h : Trace (call process) (Writes w f) s₀ l s) :
    Shares w f ((l.map (·.1.2)).foldl (fun flat act => act.onContent f flat) flat) s := by
  induction h with
  | nil => exact H
  | @snoc l s la r s' _ hok hcall ih =>
    obtain ⟨i, act⟩ := la
    rw [List.map_append, List.foldl_append]
    exact ih.step hok (step_of_call hcall)

/-- The others have no dirty chunk of a file that they do not edit. -/
theorem clean_of_reach {now : ι → Timespec} {dht : Str → Option Str} {net : Net}
    (hb : net.Backed) (h : Reach (step process) (WrittenBy w f) (start now dht net) s) :
    ∀ i ≠ w, ∀ n, ¬s.chunks.Dirty i ⟨f, n⟩ := by
  induction h with
  | init =>
    intro i _ n hd
    simp only [chunks, fs_start, Fs.start_data, writeBack] at hd
    obtain ⟨q, hq⟩ := DataSink.WF.empty.cache.read_of_isDirty hd
    cases hq
  | @step s₁ l s₂ h hok hstep ih =>
    obtain ⟨j, act⟩ := l
    intro i hi n hd
    by_cases hj : j = i
    · subst hj
      have H := sound_of_reach (sound_start hb) h
      exact ih j hi n ((chunks_turn H (fun hE => hi (hok.1 hE)) hstep n).dirty hd).1
    · exact ih i hi n ((chunks_alone hstep i (Ne.symm hj)).2.mp hd)

/-- After the flush nobody has a dirty chunk of the file. -/
theorem Shares.flush (H : Shares w f flat s) (hok : Writes w f s (w, .dhtTask f))
    (h : Clients.step process s (w, .dhtTask f) = some s') :
    Shares w f flat s' ∧ ∀ i n, ¬s'.chunks.Dirty i ⟨f, n⟩ := by
  have H' : Shares w f flat s' := H.step hok h
  refine ⟨H', fun i n => ?_⟩
  by_cases hi : i = w
  · subst hi
    obtain ⟨_, hr⟩ := Fs.after_eq_some.mp (step_self h)
    obtain ⟨t, hinv, hpurge⟩ := Fs.dhtTask_data hr
    exact (DataSink.keeps_flush (H.sound.sane i).wf (H.sound.sane i).backed hinv hpurge).2.2.2 n
  · exact H'.clean i hi n

omit [DecidableEq ι] [BinaryArchive Fattribute.Record] in
/-- A client that has no chunk of the file has the content in front of it. -/
theorem Shares.stores (H : Shares w f flat s) (hd : ∀ i n, ¬s.chunks.Dirty i ⟨f, n⟩)
    (hnone : ∀ n, (s.fs i).dataSink.chunk? f n = none) : Stores f flat (s.fs i).data where
  wf := (H.sound.sane i).wf
  backed := (H.sound.sane i).backed
  coherent := by
    constructor
    · rintro ⟨_, n⟩ v hv rfl
      cases (hnone n).symm.trans hv
    · rintro ⟨_, n⟩ _ rfl
      exact H.writer.stores.coherent.stored ⟨_, n⟩ (hd w n) rfl
  bound := H.writer.stores.bound

theorem stores_of_reach (H : Sound s₀) (hd : ∀ i n, ¬s₀.chunks.Dirty i ⟨f, n⟩)
    (h₀ : Stores f flat (s₀.fs i).data) (h : Reach (step process) (Unedited f) s₀ s) :
    Stores f flat (s.fs i).data ∧ ∀ i n, ¬s.chunks.Dirty i ⟨f, n⟩ := by
  induction h with
  | init => exact ⟨h₀, hd⟩
  | @step s₁ l s₂ h hok hstep ih =>
    obtain ⟨j, act⟩ := l
    obtain ⟨ihs, ihd⟩ := ih
    have H₁ := sound_of_reach H h
    have ht := chunks_turn H₁ hok.1 hstep
    exact ⟨stores_of_turn (H₁.step hstep) (ihd j) ht ihs,
      fun i n hd => ihd i n ((ht n).dirty hd).1⟩

/-- What one client has written the others read. A client writes a file from the time that it is
empty, with any callbacks of any clients in between, and flushes it. As long as nobody edits it again,
the writer and each client that had nothing of it cached read the bytes that were written. A read of
theirs returns if and only if no mutex is in the way that an earlier look-up has taken. -/
theorem written_is_read (process : ι → Process) (now : ι → Timespec) (dht : Str → Option Str)
    (net : Net) (hb : net.Backed) (w : ι) (f : Str) (hf : f ≠ ['/']) (hslot : f ≠ Fs.slot f)
    (h₀ : Reach (step process) (WrittenBy w f) (start now dht net) s₀)
    (ha : (s₀.fs w).cached f = some a) (hempty : a.stbuf.size = 0)
    {l : List ((ι × Act) × Reply)} (h₁ : Trace (call process) (Writes w f) s₀ l s₁)
    (hflush : step process s₁ (w, .dhtTask f) = some s₂)
    (h : Reach (step process) (Unedited f) s₂ s) (i : ι)
    (hi : i = w ∨
      (s₂.fs i).cached f = none ∧ ∀ n, (s₂.fs i).dataSink.chunk? f n = none)
    (dest : List Byte) (size offset : Nat) (hs : size < 2 ^ 31) (hdest : size ≤ dest.length) :
    let flat := Fs.content f (l.map fun q => (q.1.2, q.2))
    offset ≤ flat.length →
    let n := min size (flat.length - offset)
    (offset % CHUNK_SIZE + n ≤ CHUNK_SIZE → ∀ r c',
      Fs.read Dht.table policy f dest size offset (s.fs i) = .ok r c' →
      r = ((n : Int), Vec.memcpy dest 0 (Vec.slice flat offset n))) ∧
    (0 < n → offset % CHUNK_SIZE + n < CHUNK_SIZE →
      ((∃ r c', Fs.read Dht.table policy f dest size offset (s.fs i) = .ok r c') ↔
        (((s.fs i).cached f).isSome ∨ Fs.slot f ∉ (s.fs i).metadataSink.cv) ∧
        (((s.fs i).dataSink.chunk? f (toInt (offset / CHUNK_SIZE))).isSome ∨
          ⟨f, toInt (offset / CHUNK_SIZE)⟩ ∉ (s.fs i).dataSink.cache.cv))) := by
  intro flat ho n
  have H₀ := sound_of_reach (sound_start hb) h₀
  have hnil : Shares w f [] s₀ := ⟨H₀, ⟨H₀.wf w, DataSink.stores_nil (H₀.sane w).wf
    (H₀.sane w).backed, a, ha, by simpa using hempty⟩, clean_of_reach hb h₀⟩
  have hflat : flat = (l.map (·.1.2)).foldl (fun flat act => act.onContent f flat) [] := by
    simp only [flat, Fs.content, List.map_map]
    rfl
  have H₁ : Shares w f flat s₁ := hflat ▸ hnil.trace h₁
  have hF : Act.dhtTask f ≠ .dhtTask (Fs.slot f) := fun he => hslot (Act.dhtTask.inj he)
  obtain ⟨H₂, hclean⟩ := H₁.flush ⟨⟨False.elim, hF⟩, False.elim⟩ hflush
  have hreach : Reach (step process) (WrittenBy w f) (start now dht net) s₁ :=
    h₀.trans ((reach_of_trace h₁).mono fun _ _ hok => hok.1)
  obtain ⟨a₁, ha₁, hsize₁⟩ := H₁.writer.attr
  obtain ⟨hopen, hkeep⟩ := close_to_open process now dht net hb w f hf hslot hreach ha₁ hflush h i
  have hstores₂ : Stores f flat (s₂.fs i).data := by
    obtain rfl | ⟨_, hnone⟩ := hi
    · exact H₂.writer.stores
    · exact H₂.stores hclean hnone
  have hst : Stores f flat (s.fs i).data := (stores_of_reach H₂.sound hclean hstores₂ h).1
  have hattr : ∃ b, Fs.attr? Dht.table (s.fs i) f = some b ∧ b.stbuf.size = flat.length := by
    obtain rfl | ⟨hnone, _⟩ := hi
    · have ha₂ := (Fs.step_moves (H₁.sound.wf i) (step_self hflush)).cached id ha₁
      exact ⟨a₁, Fs.attr?_of_cached (hkeep a₁ ha₂), hsize₁⟩
    · obtain ⟨b, hb, hrec⟩ := hopen hnone
      exact ⟨b, hb, (congrArg Fattribute.Record.size hrec).trans hsize₁⟩
  obtain ⟨b, hb, hsize⟩ := hattr
  have wf := (sound_of_reach H₂.sound h).wf i
  exact ⟨fun hin r c' hr => Fs.read_lookedUp_eq wf hst hb hsize hs ho hin hr,
    fun hn hin => Fs.read_lookedUp_returns_iff wf hst hb hsize hs hn hin hdest⟩

/-- Nothing is done to the sinks of a client that takes no step. -/
theorem sinks_of_trace {ok : Clients ι → ι × Act → Prop} {l : List ((ι × Act) × Reply)}
    (h : Trace (call process) ok s₀ l s) (hl : ∀ la ∈ l.map (·.1), la.1 ≠ i) :
    s.sinks i = s₀.sinks i := by
  induction h with
  | nil => rfl
  | @snoc l s la r s' _ _ hcall ih =>
    rw [List.map_append, List.forall_mem_append] at hl
    have hstep : step process s (la.1, la.2) = some s' := step_of_call hcall
    have hne : la.1 ≠ i := hl.2 la List.mem_cons_self
    exact (step_others hstep hne.symm).trans (ih hl.1)

end Clients

namespace Clients

open scoped PlainArchive

/-- One client writes a file and flushes it, and the other one reads it. -/
theorem written_is_read_example : ∃ (s : Clients Bool) (r : Int × List Byte)
    (c' : Fs (Str → Option Str) Net),
    Fs.read Dht.table policy ['/', 'f'] [0, 0] 2 1 (s.fs true) = .ok r c' ∧ r = (2, [8, 9]) := by
  let f : Str := ['/', 'f']
  let process : Bool → Process := fun _ => ⟨0, 0⟩
  let s : Clients Bool := start (fun _ => ⟨0, 0⟩) (fun _ => none) Fs.bareNet
  let made := play (call process) (WrittenBy false f) s [(false, .create f 0o644 ⟨1, 0⟩)]
  let acts : List (Bool × Act) := [(false, .write f [7, 8, 9, 10] 4 0)]
  have h : (made.bind fun q₀ => ((q₀.2.fs false).cached f).bind fun a =>
      (play (call process) (Writes false f) q₀.2 acts).bind fun q₁ =>
        (step process q₁.2 (false, .dhtTask f)).bind fun s₂ => if a.stbuf.size = 0 ∧
          (s₂.fs true).cached f = none ∧ Fs.slot f ∉ (s₂.fs true).metadataSink.cv ∧
          ⟨f, toInt (1 / CHUNK_SIZE)⟩ ∉ (s₂.fs true).dataSink.cache.cv then some () else none) =
      some () := by
    decide +kernel
  obtain ⟨⟨l₀, s₀⟩, h₀, h⟩ := Option.bind_eq_some_iff.mp h
  obtain ⟨a, ha, h⟩ := Option.bind_eq_some_iff.mp h
  obtain ⟨⟨l, s₁⟩, h₁, h⟩ := Option.bind_eq_some_iff.mp h
  obtain ⟨s₂, h₂, h⟩ := Option.bind_eq_some_iff.mp h
  split at h
  case isFalse => cases h
  next hcond =>
  obtain ⟨hempty, hnone, hcv, hcv'⟩ := hcond
  obtain ⟨ht₀, hl₀⟩ := Trace.of_play h₀
  obtain ⟨ht₁, hl₁⟩ := Trace.of_play h₁
  have hsinks : s₂.sinks true = s.sinks true := by
    rw [step_others h₂ (by decide), sinks_of_trace ht₁ (by rw [hl₁]; decide),
      sinks_of_trace ht₀ (by rw [hl₀]; decide)]
  have hflat : Fs.content f (l.map fun q => (q.1.2, q.2)) = [7, 8, 9, 10] := by
    have hacts : (l.map fun q => (q.1.2, q.2)).map (·.1) = acts.map (·.2) := by
      rw [← hl₁, List.map_map, List.map_map]
      rfl
    rw [Fs.content, hacts]
    decide
  have hdata : (s₂.fs true).dataSink = .empty :=
    (congrArg Prod.snd hsinks).trans
      (congrArg Prod.fst (Fs.start_data ⟨0, 0⟩ (fun _ : Str => (none : Option Str)) Fs.bareNet))
  have hfresh : ∀ n, (s₂.fs true).dataSink.chunk? f n = none := fun n => by
    rw [hdata, DataSink.chunk?_empty]
  obtain ⟨heq, hret⟩ := written_is_read process (fun _ => ⟨0, 0⟩) (fun _ => none) Fs.bareNet
    Fs.backed_bareNet false f (by decide) (by decide) (reach_of_trace ht₀) ha hempty ht₁ h₂
    .init true (.inr ⟨hnone, hfresh⟩) [0, 0] 2 1 (by decide) (by decide) (by rw [hflat]; decide)
  rw [hflat] at heq hret
  obtain ⟨r, c', hr⟩ := (hret (by decide) (by decide +kernel)).mpr ⟨.inr hcv, .inr hcv'⟩
  exact ⟨s₂, r, c', hr, heq (by decide +kernel) r c' hr⟩

end Clients

end ColonyFS

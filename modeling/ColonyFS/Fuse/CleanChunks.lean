import ColonyFS.Api.ExactFlush
import ColonyFS.Fuse.DataCalls

/-!
# Clean chunks and the chunk servers

A chunk that is cached and not dirty should be the one that is stored, since `purge` drops it
without a flush. `write` changes chunks through `operator[]`, which marks them; `truncate` resizes
the chunk it gets from `operator()`, which does not.

Deposits and retrievals complete at once. `Net.Backed` says that those before the run have, too.
-/

namespace ColonyFS

open Machine

/-- Every chunk that the DHT has a location of is in the database of that host. -/
def Net.Backed (net : Net) : Prop :=
  ∀ k host, net.location k = some host → ∃ data, net.database host k = some data

namespace DataOnFlush

variable {v w : ChunkData} {net net' : Net}

theorem preRead_ok (hb : net.Backed) (h : policy.preRead v net = .ok w net') :
    net' = net ∧ net.stored? v.getKey = some w.data := by
  simp only [policy, preRead, bind, EStateM.bind, get, getThe, MonadStateOf.get, EStateM.get] at h
  cases hl : net.location v.getKey with
  | none => simp only [hl] at h; cases h
  | some host =>
    obtain ⟨data, hd⟩ := hb _ _ hl
    simp only [hl, hd] at h
    cases h
    exact ⟨rfl, by simp only [Net.stored?, hl, Option.bind_some, hd]⟩

theorem backed_onFlush (hb : net.Backed) (h : policy.onFlush v net = .ok () net') :
    net'.Backed := by
  cases h
  intro k host hk
  simp only [Net.setPair, Net.deposit] at hk ⊢
  by_cases hkv : k = v.getKey
  · subst hkv
    rw [Function.update_self] at hk
    cases hk
    exact ⟨v.data, by rw [Function.update_self, Function.update_self]⟩
  · rw [Function.update_of_ne hkv] at hk
    obtain ⟨data, hd⟩ := hb k host hk
    refine ⟨data, ?_⟩
    by_cases hh : host = net.schedule net.calls
    · subst hh
      rw [Function.update_self, Function.update_of_ne hkv, hd]
    · rw [Function.update_of_ne hh, hd]

theorem backed_flushEach {vs : List ChunkData} (hb : net.Backed)
    (h : DataSink.flushEach policy vs net = .ok () net') : net'.Backed := by
  induction vs generalizing net with
  | nil => cases h; exact hb
  | cons v vs ih =>
    obtain ⟨_, net₁, h₁, h⟩ := Exec.bind_eq_ok.mp h
    exact ih (backed_onFlush hb h₁) h

end DataOnFlush

namespace DataSink

open DataOnFlush (policy)

/-- Every chunk that is cached and clean has the bytes that the chunk server holds. -/
def CleanMatches (d : DataSink) (net : Net) : Prop :=
  ∀ f i data, d.chunk? f i = some data → ¬d.IsDirty f i → net.stored? ⟨f, i⟩ = some data

structure Clean (s : DataSink × Net) : Prop where
  wf : s.1.WF
  backed : s.2.Backed
  matching : s.1.CleanMatches s.2

variable {d d' d₁ : DataSink} {net net' : Net} {f : Str} {i : Int} {p : Ptr} {n m : Nat}
  {data : List Byte}

theorem Clean.fetched (H : Clean (d, net)) (h : Fetched policy d net f i p d' net') :
    Clean (d', net') := by
  obtain ⟨wf, hb, hm⟩ := H
  obtain ⟨rfl, rfl⟩ | ⟨_, v, hv, hk, hchunk⟩ := h.chunk?_cases wf
  · exact ⟨wf, hb, hm⟩
  obtain ⟨rfl, hstored⟩ := DataOnFlush.preRead_ok hb hv
  refine ⟨h.wf wf, hb, ?_⟩
  intro g j data hdata hclean
  rw [hchunk] at hdata
  split at hdata
  · next hgj =>
    obtain ⟨rfl, rfl⟩ := hgj
    cases hdata
    exact hstored
  · exact hm g j data hdata (mt h.isDirty.mpr hclean)

/-- `write` changes chunks that are dirty afterwards. -/
theorem WroteAll.of_clean {ss : List Store} (h : WroteAll f d ss d') {g : Str} {j : Int}
    (hc : ¬d'.IsDirty g j) : ¬d.IsDirty g j ∧ d'.chunk? g j = d.chunk? g j := by
  induction h with
  | nil => exact ⟨hc, rfl⟩
  | cons h _ ih =>
    obtain ⟨hc₁, heq⟩ := ih hc
    rw [h.isDirty, not_or] at hc₁
    rw [heq, h.chunk?, if_neg hc₁.1]
    exact ⟨hc₁.2, rfl⟩

theorem Clean.wrote (H : Clean (d, net)) {ss : List Store} (h : WroteAll f d ss d')
    (wf : d'.WF) : Clean (d', net) := by
  refine ⟨wf, H.backed, ?_⟩
  intro g j data hdata hc
  obtain ⟨hc, heq⟩ := h.of_clean hc
  exact H.matching g j data (heq ▸ hdata) hc

theorem Clean.read (H : Clean (d, net)) {ss : List Segment} {dest dest' : List Byte}
    (h : copyFrom (raiseIfMissing policy) readFromChunk f ss dest (d, net) =
      .ok dest' (d', net')) : Clean (d', net') := by
  induction ss generalizing d net dest with
  | nil => cases h; exact H
  | cons t ss ih =>
    rw [copyFrom_cons] at h
    obtain ⟨dest₁, ⟨d₁, net₁⟩, hturn, h⟩ := Exec.bind_eq_ok.mp h
    obtain ⟨p, _, hf, _⟩ := readTurn_ok DataOnFlush.policy_keepsKey H.wf hturn
    exact ih (H.fetched hf) h

/-- A flush hands over what is dirty, and what it hands over is what it then leaves clean. -/
theorem Clean.invalidate (H : Clean (d, net))
    (h : DataSink.invalidate policy f (d, net) = .ok () (d', net')) :
    Clean (d', net') ∧ ∀ g, d'.index g = d.index g := by
  obtain ⟨d₁, net₁, hrun, hi⟩ := invalidate_spec (f := f) (e := net) DataOnFlush.onFlush_spec H.wf
  cases hrun.symm.trans h
  obtain ⟨d₂, _, hexact⟩ := invalidate_exact (P := policy) H.wf f
  have he := hexact net
  rw [h] at he
  obtain ⟨net₂, he, heq⟩ := Option.map_eq_some_iff.mp he.symm
  cases heq
  obtain ⟨_, hflush⟩ := Exec.of_state? he
  refine ⟨⟨hi.wf, DataOnFlush.backed_flushEach H.backed hflush, ?_⟩, hi.index⟩
  intro g j data hdata hc
  rw [hi.chunk?] at hdata
  rw [hi.isDirty] at hc
  rw [hi.flushed]
  split
  · exact hdata
  · next hno => exact H.matching g j data hdata fun hd => hc ⟨fun hmem => hno ⟨hmem, hd⟩, hd⟩

theorem Clean.purge (H : Clean (d, net))
    (h : DataSink.purge policy f (d, net) = .ok () (d', net')) : Clean (d', net') := by
  obtain ⟨d₁, hrun, hp⟩ := purge_spec (P := policy) (f := f) (e := net) (fun _ _ => rfl) H.wf
  cases hrun.symm.trans h
  refine ⟨hp.wf, H.backed, ?_⟩
  intro g j data hdata hc
  rw [hp.chunk?] at hdata
  rw [hp.isDirty] at hc
  split at hdata
  · cases hdata
  · next hno => exact H.matching g j data hdata fun hd => hc ⟨hno, hd⟩

/-- `truncate` leaves its chunk as it is, or the chunk is dirty. -/
theorem Clean.truncate_iff (H : Clean (d, net))
    (h : DataSink.truncate policy f n m (d, net) = .ok () (d', net')) :
    (CleanMatches d' net' ↔ d.IsDirty f (toInt (n / CHUNK_SIZE)) ∨
      ∀ data, net.stored? ⟨f, toInt (n / CHUNK_SIZE)⟩ = some data →
        data.length = n % CHUNK_SIZE) ∧ d'.WF ∧ net'.Backed := by
  obtain ⟨p, d₁, data, hf, hdata, wf, hchunk, hdirty, _⟩ :=
    truncate_ok DataOnFlush.policy_keepsKey H.wf h
  have H₁ : Clean (d₁, net') := H.fetched hf
  have hnet : net' = net := by
    cases hf with
    | hit => rfl
    | miss _ _ hv => exact (DataOnFlush.preRead_ok H.backed hv).1
  subst hnet
  refine ⟨?_, wf, H.backed⟩
  have hclean : ¬d.IsDirty f (toInt (n / CHUNK_SIZE)) →
      net'.stored? ⟨f, toInt (n / CHUNK_SIZE)⟩ = some data := by
    intro hd
    exact H₁.matching _ _ _ hdata (mt hf.isDirty.mp hd)
  constructor
  · intro hm
    by_contra hno
    obtain ⟨hd, hlen⟩ := not_or.mp hno
    have hstored := hclean hd
    refine hlen ?_
    intro data' hdata'
    cases hstored.symm.trans hdata'
    have hnew := hm _ _ _ ((hchunk f (toInt (n / CHUNK_SIZE))).trans (if_pos ⟨rfl, rfl⟩))
      (mt (hdirty _ _).mp hd)
    rw [hstored] at hnew
    rw [Option.some.inj hnew, Vec.length_resize]
  · intro hok g j data' hdata' hc
    rw [hdirty] at hc
    rw [hchunk] at hdata'
    split at hdata'
    · next hgj =>
      obtain ⟨rfl, rfl⟩ := hgj
      have hlen := hok.resolve_left hc data (hclean hc)
      rw [← hlen, Vec.resize_length] at hdata'
      cases hdata'
      exact hclean hc
    · exact H₁.matching g j data' hdata' (mt hf.isDirty.mp hc)

end DataSink

namespace Fs

variable {δ : Type} [BinaryArchive Instruction] [BinaryArchive Fattribute.Record]

/-- A `truncate` that is not rejected finds the chunk of the new end marked, or leaves it as long as
it is stored. -/
def KeepsMatch (c : Fs δ Net) : Act → Prop
  | .truncate path length => length < 0 ∨
      c.dataSink.IsDirty path (toInt (toSizeT length / CHUNK_SIZE)) ∨
      ∀ data ∈ c.chunkservers.stored? ⟨path, toInt (toSizeT length / CHUNK_SIZE)⟩,
        data.length = toSizeT length % CHUNK_SIZE
  | _ => True

instance (c : Fs δ Net) : (act : Act) → Decidable (KeepsMatch c act)
  | .truncate .. => inferInstanceAs (Decidable (_ ∨ _))
  | .chmod .. | .chown .. | .create .. | .getattr .. | .mkdir .. | .read .. | .readdir ..
  | .readlink .. | .rename .. | .rmdir .. | .symlink .. | .unlink .. | .utime .. | .write ..
  | .dhtTask _ => inferInstanceAs (Decidable True)

variable {dht : Dht δ} {process : Process} {c c' c₀ : Fs δ Net} {act : Act}

omit [BinaryArchive Instruction] [BinaryArchive Fattribute.Record] in
theorem clean_write {s t : DataSink × Net} {path : Str} {buffer : List Byte} {size offset : Nat}
    (H : DataSink.Clean s) (h : DataSink.write path buffer size offset s = .ok () t) :
    DataSink.Clean t := by
  obtain ⟨d', e'⟩ := t
  obtain ⟨rfl, hw, wf⟩ := DataSink.write_ok H.wf h
  exact DataSink.Clean.wrote H hw wf

/-- What a step does to chunks that match. -/
theorem step_clean (H : DataSink.Clean c.data)
    (h : step dht DataOnFlush.policy process c act = some c') :
    (c'.dataSink.CleanMatches c'.chunkservers ↔ KeepsMatch c act) ∧ c'.dataSink.WF ∧
      c'.chunkservers.Backed := by
  have hclean : DataSink.Clean c'.data → KeepsMatch c act →
      (c'.dataSink.CleanMatches c'.chunkservers ↔ KeepsMatch c act) ∧ c'.dataSink.WF ∧
        c'.chunkservers.Backed :=
    fun H' hk => ⟨iff_of_true H'.matching hk, H'.wf, H'.backed⟩
  by_cases hact : act.SparesData
  · refine hclean ((step_data hact h).symm ▸ H) ?_
    cases act with
    | truncate path length => exact hact.elim
    | _ => trivial
  cases act with
  | create path mode now =>
    obtain ⟨r, hr⟩ := after_eq_some.mp h
    obtain ⟨_, hd⟩ | ⟨_, hw⟩ := create_data hr
    · exact hclean (hd.symm ▸ H) trivial
    · exact hclean (clean_write H hw) trivial
  | write path buffer size offset =>
    obtain ⟨r, hr⟩ := after_eq_some.mp h
    exact hclean (clean_write H (write_data hr)) trivial
  | read path buffer size offset =>
    obtain ⟨r, hr⟩ := after_eq_some.mp h
    obtain hd | ⟨n, hread⟩ := read_data hr
    · exact hclean (hd.symm ▸ H) trivial
    · exact hclean (DataSink.Clean.read H hread) trivial
  | dhtTask path =>
    obtain ⟨r, hr⟩ := after_eq_some.mp h
    obtain ⟨s, hinv, hpurge⟩ := dhtTask_data hr
    exact hclean ((DataSink.Clean.invalidate H hinv).1.purge hpurge) trivial
  | truncate path length =>
    obtain ⟨r, hr⟩ := after_eq_some.mp h
    obtain ⟨hlen, rfl⟩ | ⟨hlen, m, htrunc⟩ := truncate_data DataOnFlush.policy_noLookupE hr
    · exact hclean H (.inl hlen)
    · obtain ⟨hiff, wf, hb⟩ := DataSink.Clean.truncate_iff H htrunc
      exact ⟨hiff.trans (or_iff_right hlen).symm, wf, hb⟩
  | _ => exact (hact trivial).elim

theorem clean_of_reach {now : Timespec} {d : δ} {net : Net} (hb : net.Backed)
    (h : Reach (step dht DataOnFlush.policy process) KeepsMatch (start now d net) c) :
    DataSink.Clean c.data := by
  refine Reach.invariant (P := fun c => DataSink.Clean c.data) h ?_ ?_
  · rw [start_data]
    exact ⟨.empty, hb, fun f i data hdata => by simp at hdata⟩
  · intro s act s' H hok hs
    obtain ⟨hiff, wf, hb⟩ := step_clean H hs
    exact ⟨wf, hb, hiff.mpr hok⟩

/-- The clean chunks are as the servers hold them in every run in which no `truncate` shortens or
grows a clean one, and the first that does breaks this. -/
theorem cleanMatches_iff_keepsMatch {now : Timespec} {d : δ} {net : Net} (hb : net.Backed)
    (h : Reach (step dht DataOnFlush.policy process) KeepsMatch (start now d net) c) :
    c.dataSink.CleanMatches c.chunkservers ∧
      ∀ act c', step dht DataOnFlush.policy process c act = some c' →
        (c'.dataSink.CleanMatches c'.chunkservers ↔ KeepsMatch c act) :=
  ⟨(clean_of_reach hb h).matching, fun _ _ hs => (step_clean (clean_of_reach hb h) hs).1⟩

omit [BinaryArchive Instruction] [BinaryArchive Fattribute.Record] in
/-- Chunk servers that hold nothing. -/
theorem backed_empty (schedule : Nat → Str) :
    Net.Backed ⟨schedule, 0, fun _ => none, fun _ _ => none⟩ := by
  intro k host h
  cases h

end Fs

namespace Fs

open scoped PlainArchive

/-- Three bytes are written and flushed, and the file is cut down to one. -/
theorem exists_unmarked : ∃ c : Fs (Str → Option Str) Net,
    Reach (step Dht.table DataOnFlush.policy ⟨0, 0⟩) always
      (start ⟨0, 0⟩ (fun _ => none) ⟨fun _ => ['b'], 0, fun _ => none, fun _ _ => none⟩) c ∧
    c.dataSink.chunk? ['/', 'f'] 0 = some [1] ∧ ¬c.dataSink.IsDirty ['/', 'f'] 0 ∧
    c.chunkservers.stored? ⟨['/', 'f'], 0⟩ = some [1, 2, 3] ∧
    ¬c.dataSink.CleanMatches c.chunkservers := by
  have h : (run (step Dht.table DataOnFlush.policy ⟨0, 0⟩)
      (start ⟨0, 0⟩ (fun _ => none) ⟨fun _ => ['b'], 0, fun _ => none, fun _ _ => none⟩)
      [.create ['/', 'f'] 0o644 ⟨1, 0⟩, .write ['/', 'f'] [1, 2, 3] 3 0, .dhtTask ['/', 'f'],
        .truncate ['/', 'f'] 1]).map (fun c => (c.dataSink.chunk? ['/', 'f'] 0,
          decide (c.dataSink.IsDirty ['/', 'f'] 0), c.chunkservers.stored? ⟨['/', 'f'], 0⟩)) =
      some (some [1], false, some [1, 2, 3]) := by
    decide +kernel
  obtain ⟨c, hc, h⟩ := Option.map_eq_some_iff.mp h
  obtain ⟨hdata, h⟩ := Prod.mk.inj h
  obtain ⟨hd, hstored⟩ := Prod.mk.inj h
  have hd : ¬c.dataSink.IsDirty ['/', 'f'] 0 := of_decide_eq_false hd
  refine ⟨c, .of_run _ hc, hdata, hd, hstored, ?_⟩
  intro hm
  cases hstored.symm.trans (hm _ _ _ hdata hd)

/-- The cut comes before the flush. -/
theorem cleanMatches_iff_keepsMatch_example : ∃ c : Fs (Str → Option Str) Net,
    c.chunkservers.stored? ⟨['/', 'f'], 0⟩ = some [1] ∧
    c.dataSink.CleanMatches c.chunkservers := by
  have h : (run (guarded (step Dht.table DataOnFlush.policy ⟨0, 0⟩) KeepsMatch)
      (start ⟨0, 0⟩ (fun _ => none) ⟨fun _ => ['b'], 0, fun _ => none, fun _ _ => none⟩)
      [.create ['/', 'f'] 0o644 ⟨1, 0⟩, .write ['/', 'f'] [1, 2, 3] 3 0, .truncate ['/', 'f'] 1,
        .dhtTask ['/', 'f']]).map (fun c => c.chunkservers.stored? ⟨['/', 'f'], 0⟩) =
      some (some [1]) := by
    decide +kernel
  obtain ⟨c, hc, h⟩ := Option.map_eq_some_iff.mp h
  exact ⟨c, h, (cleanMatches_iff_keepsMatch (backed_empty _) (.of_run_guarded _ hc)).1⟩

end Fs

end ColonyFS

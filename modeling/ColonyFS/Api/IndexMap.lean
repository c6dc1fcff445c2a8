import ColonyFS.Api.Bytes
import ColonyFS.Api.ExactFlush
import ColonyFS.Cache.Calls

/-!
# The index and the cache

`index_map_` gets the chunks that `write` makes. A chunk that `read` or `truncate` fetches is cached
without an entry, and `purge` then does not find it.
-/

namespace ColonyFS

open Machine
open DataOnFlush (policy)

namespace DataSink

section

variable {σ : Type} (P : Policy ChunkData σ) (onDone : EStateM Stop σ Unit)

/-- The state after a call that returns or throws. -/
def callStep (s : DataSink × σ) : SinkAct → Option (DataSink × σ)
  | .write f buffer size offset => (CallState.ended (write f buffer size offset s)).map (·.2)
  | .read f buffer size offset => (CallState.ended (read P f buffer size offset s)).map (·.2)
  | .truncate f newSize oldSize => (CallState.ended (truncate P f newSize oldSize s)).map (·.2)
  | .invalidate f => (CallState.ended (invalidate P f s)).map (·.2)
  | .purge f => (CallState.ended (purge P f s)).map (·.2)
  | .invalidateAll => (CallState.ended (invalidateAll P onDone s)).map (·.2)

end

/-- Every cached chunk is in the index of its file. -/
def Indexed (d : DataSink) : Prop := ∀ f i data, d.chunk? f i = some data → i ∈ d.index f

/-- The chunks that a call looks up with `raise_if_missing`, in its order. -/
def lookups : SinkAct → List ChunkKey
  | .read f _ size offset => (segments size offset).map fun s => ⟨f, toInt s.count⟩
  | .truncate f newSize _ => [⟨f, toInt (newSize / CHUNK_SIZE)⟩]
  | .write .. | .invalidate _ | .purge _ | .invalidateAll => []

/-- A lookup returns: the chunk is cached, or the DHT names a host for it. -/
def available (s : DataSink × Net) (key : ChunkKey) : Bool :=
  (s.1.chunk? key.uid key.cuid).isSome || (s.2.location key).isSome

/-- What the call fetches, up to the first lookup that throws, is in the index already. -/
def FetchesIndexed (s : DataSink × Net) (act : SinkAct) : Prop :=
  ∀ key ∈ (lookups act).takeWhile (available s),
    s.1.chunk? key.uid key.cuid = none → key.cuid ∈ s.1.index key.uid

instance (s : DataSink × Net) (act : SinkAct) : Decidable (FetchesIndexed s act) :=
  inferInstanceAs (Decidable (∀ _ ∈ _, _))

variable {d d' d₁ : DataSink} {net net' : Net} {s s' : DataSink × Net} {f : Str} {i : Int}
  {n a b m : Nat} {p : Ptr} {dest : List Byte} {x : Exn}

/-! ## What a call leaves in the cache -/

/-- The call has cached the given chunks, and the index is as it was. -/
structure Cached (keys : List ChunkKey) (d d' : DataSink) : Prop where
  wf : d'.WF
  chunk? : ∀ key : ChunkKey, (d'.chunk? key.uid key.cuid).isSome ↔
    (d.chunk? key.uid key.cuid).isSome ∨ key ∈ keys
  index : ∀ g, d'.index g = d.index g

/-- No entry of the index is missing afterwards if none was before and the chunks are in it. -/
theorem Cached.indexed_iff {keys : List ChunkKey} (h : Cached keys d d') (H : d.Indexed) :
    d'.Indexed ↔ ∀ key ∈ keys, d.chunk? key.uid key.cuid = none → key.cuid ∈ d.index key.uid := by
  constructor
  · intro H' key hkey _
    obtain ⟨data, hdata⟩ := Option.isSome_iff_exists.mp ((h.chunk? key).mpr (.inr hkey))
    have hi := H' _ _ _ hdata
    rwa [h.index] at hi
  · intro hkeys g j data hdata
    rw [h.index]
    cases hd : d.chunk? g j with
    | some data' => exact H _ _ _ hd
    | none =>
      have hmem := (h.chunk? ⟨g, j⟩).mp (Option.isSome_of_eq_some hdata)
      rw [hd] at hmem
      exact hkeys ⟨g, j⟩ (hmem.resolve_left (by simp)) hd

/-- A lookup that returns was of an available chunk, which is cached now. -/
theorem Fetched.cached (h : Fetched policy d net f i p d' net') (H : d.WF) :
    net' = net ∧ available (d, net) ⟨f, i⟩ ∧ Cached [⟨f, i⟩] d d' := by
  obtain ⟨p', hp⟩ : ∃ p', d'.cache.impl.read ⟨f, i⟩ = some p' := ⟨p, h.read⟩
  obtain ⟨v, _, hv, _⟩ := getKey_of_read (h.wf H) hp
  obtain ⟨rfl, rfl⟩ | ⟨hnone, w, hw, hk, hchunk⟩ := h.chunk?_cases H
  · refine ⟨rfl, by simp [available, hv], H, ?_, fun _ => rfl⟩
    intro key
    rw [List.mem_singleton]
    constructor
    · exact .inl
    · rintro (hkey | rfl)
      · exact hkey
      · exact Option.isSome_of_eq_some hv
  · refine ⟨(DataOnFlush.preRead_eq hw).1, ?_, h.wf H, ?_, fun _ => h.index⟩
    · cases hl : net.location ⟨f, i⟩ with
      | none => cases (DataOnFlush.preRead_missing (v := .ofKey ⟨f, i⟩) hl).symm.trans hw
      | some host => simp [available, hl]
    · intro key
      rw [List.mem_singleton, hchunk]
      split
      · next hkey =>
        obtain ⟨huid, hcuid⟩ := hkey
        exact iff_of_true rfl (.inr (by rw [← huid, ← hcuid]))
      · next hkey =>
        refine (or_iff_left ?_).symm
        rintro rfl
        exact hkey ⟨rfl, rfl⟩

/-- A lookup that throws was of a chunk that nobody has, and did nothing. -/
theorem raiseIfMissing_raised {t : DataSink × Net}
    (h : raiseIfMissing policy f n (d, net) = .error (.raised x) t) :
    t = (d, net) ∧ ¬available (d, net) ⟨f, toInt n⟩ := by
  unfold raiseIfMissing at h
  generalize toInt n = i at h ⊢
  obtain ⟨⟨c, net₁⟩, hrun, rfl⟩ := Exec.zoom_eq_error h
  have hslot : Cache.slot ChunkData (⟨f, i⟩ : ChunkKey) = ⟨f, i⟩ := rfl
  cases hr : d.cache.impl.read ⟨f, i⟩ with
  | some q => cases (Cache.call_hit (hslot ▸ hr)).symm.trans hrun
  | none =>
    have hchunk : d.chunk? f i = none := by
      rw [chunk?, BasicCache.get?, hr]
      rfl
    cases hl : net.location ⟨f, i⟩ with
    | none =>
      have hP := DataOnFlush.preRead_missing (v := .ofKey ⟨f, i⟩) hl
      cases (Cache.call_raised (hslot ▸ hr) hP).symm.trans hrun
      exact ⟨rfl, by simp [available, hchunk, hl]⟩
    | some host =>
      have hP := DataOnFlush.preRead_located (v := .ofKey ⟨f, i⟩) hl
      by_cases hcv : ⟨f, i⟩ ∈ d.cache.cv
      · cases (Cache.call_blocked (hslot ▸ hr) hP hcv).symm.trans hrun
      · cases (Cache.call_miss (hslot ▸ hr) hP hcv).symm.trans hrun

theorem readFromChunk_ne_raised {t : DataSink × Net} :
    readFromChunk p dest a b m (d, net) ≠ .error (.raised x) t := by
  intro h
  obtain h | ⟨v, ⟨d₁, net₁⟩, _, h⟩ := Exec.bind_eq_error.mp h
  · exact deref_ne_raised h
  · obtain h | ⟨_, _, _, h⟩ := Exec.bind_eq_error.mp h
    · cases Exec.require_eq_error h
    obtain h | ⟨_, _, _, h⟩ := Exec.bind_eq_error.mp h
    · cases Exec.require_eq_error h
    obtain h | ⟨_, _, _, h⟩ := Exec.bind_eq_error.mp h
    · cases Exec.require_eq_error h
    · cases h

theorem Cached.nil (H : d.WF) : Cached [] d d where
  wf := H
  chunk? key := by simp
  index _ := rfl

theorem Cached.trans {keys keys' : List ChunkKey} (h : Cached keys d d₁) (h' : Cached keys' d₁ d') :
    Cached (keys ++ keys') d d' where
  wf := h'.wf
  chunk? key := by rw [h'.chunk?, h.chunk?, List.mem_append, or_assoc]
  index g := (h'.index g).trans (h.index g)

/-- The chunk that a lookup has cached was available before. -/
theorem Cached.available {key : ChunkKey} (h : Cached [key] d d') (ha : available (d, net) key) :
    available (d', net) = available (d, net) := by
  funext k
  rw [Bool.eq_iff_iff]
  simp only [DataSink.available, Bool.or_eq_true, h.chunk?, List.mem_singleton] at ha ⊢
  constructor
  · rintro ((hk | rfl) | hk)
    · exact .inl hk
    · exact ha
    · exact .inr hk
  · rintro (hk | hk)
    · exact .inl (.inl hk)
    · exact .inr hk

/-- A read that returns or throws has cached what it looked up before the first lookup that
throws. -/
theorem cached_of_read (H : d.WF) {ss : List Segment}
    (h : (CallState.ended (copyFrom (raiseIfMissing policy) readFromChunk f ss dest (d, net))).map
      (·.2) = some (d', net')) : net' = net ∧
    Cached ((ss.map fun s => (⟨f, toInt s.count⟩ : ChunkKey)).takeWhile (available (d, net)))
      d d' := by
  induction ss generalizing d net dest with
  | nil => cases h; exact ⟨rfl, .nil H⟩
  | cons s ss ih =>
    rw [copyFrom_cons] at h
    cases hturn : (raiseIfMissing policy f s.count >>= fun p =>
        readFromChunk p dest s.chunkStart s.bufferStart s.chunkDelta) (d, net) with
    | ok dest₁ t =>
      obtain ⟨d₁, net₁⟩ := t
      rw [Exec.bind_of_ok hturn] at h
      obtain ⟨p, _, hf, _⟩ := readTurn_ok DataOnFlush.policy_keepsKey H hturn
      obtain ⟨rfl, ha, hc⟩ := hf.cached H
      obtain ⟨rfl, hrest⟩ := ih hc.wf h
      rw [hc.available ha] at hrest
      rw [List.map_cons, List.takeWhile_cons_of_pos ha]
      exact ⟨rfl, hc.trans hrest⟩
    | error stop t =>
      rw [Exec.bind_of_error hturn] at h
      cases stop with
      | raised x =>
        cases h
        obtain hturn | ⟨p, ⟨d₁, net₁⟩, _, hturn⟩ := Exec.bind_eq_error.mp hturn
        · obtain ⟨heq, ha⟩ := raiseIfMissing_raised hturn
          cases heq
          rw [List.map_cons, List.takeWhile_cons_of_neg ha]
          exact ⟨rfl, .nil H⟩
        · exact (readFromChunk_ne_raised hturn).elim
      | assertion | undefined | blocked => cases h

/-! ## Each call -/

/-- A call of the machine returned or threw. -/
theorem ended_cases {α : Type} {r : EStateM.Result Stop (DataSink × Net) α}
    (h : (CallState.ended r).map (·.2) = some s') :
    (∃ a, r = .ok a s') ∨ ∃ x, r = .error (.raised x) s' := by
  rcases r with ⟨a, _⟩ | ⟨⟨x⟩ | _ | _ | _, _⟩ <;> cases h
  · exact .inl ⟨a, rfl⟩
  · exact .inr ⟨x, rfl⟩

theorem final_onCache (x : CacheM ChunkKey ChunkData Net Unit) :
    (Exec.final (onCache x (d, net))).1 =
      { d with cache := (Exec.final (x (d.cache, net))).1 } := by
  cases h : x (d.cache, net) with
  | ok u s => rw [onCache_ok h]; rfl
  | error stop s => rw [onCache_error h]; rfl

theorem Indexed.wroteAll (H : d.Indexed) {ss : List Store} (h : WroteAll f d ss d') :
    d'.Indexed := by
  induction h with
  | nil => exact H
  | cons h _ ih =>
    refine ih ?_
    intro g j data hdata
    rw [h.index]
    rw [h.chunk?] at hdata
    split at hdata
    · next hgj => exact .inl hgj
    · exact .inr (H g j data hdata)

theorem indexed_of_write {buffer : List Byte} {size offset : Nat} (H : d.WF) (Hi : d.Indexed)
    (h : (CallState.ended (write f buffer size offset (d, net))).map (·.2) = some (d', net')) :
    d'.WF ∧ d'.Indexed := by
  by_cases hin : ∀ s ∈ segments size offset, s.bufferStart + s.chunkDelta ≤ buffer.length
  · obtain ⟨d₁, hrun, hw, H'⟩ := copyFrom_write_spec (f := f) (e := net) H hin
    have hrun : write f buffer size offset (d, net) = .ok () (d₁, net) := hrun
    rw [hrun] at h
    cases h
    exact ⟨H', Hi.wroteAll hw⟩
  · obtain ⟨d₁, hrun⟩ := copyFrom_write_overrun (f := f) (e := net) H (by simpa using hin)
    have hrun : write f buffer size offset (d, net) = .error .undefined (d₁, net) := hrun
    rw [hrun] at h
    cases h

/-- The chunk that `truncate` resizes is the one it has looked up. -/
theorem cached_of_truncate {newSize oldSize : Nat} (H : d.WF)
    (h : (CallState.ended (truncate policy f newSize oldSize (d, net))).map (·.2) =
      some (d', net')) :
    net' = net ∧ Cached ([(⟨f, toInt (newSize / CHUNK_SIZE)⟩ : ChunkKey)].takeWhile
      (available (d, net))) d d' := by
  obtain ⟨_, h⟩ | ⟨x, h⟩ := ended_cases h
  · obtain ⟨p, d₁, data, hf, hdata, wf, hchunk, _, hindex⟩ :=
      truncate_ok DataOnFlush.policy_keepsKey H h
    obtain ⟨rfl, ha, hc⟩ := hf.cached H
    rw [List.takeWhile_cons_of_pos ha, List.takeWhile_nil]
    refine ⟨rfl, wf, ?_, hindex⟩
    intro key
    rw [← hc.chunk?, hchunk]
    split
    · next hkey =>
      obtain ⟨huid, hcuid⟩ := hkey
      rw [huid, hcuid, hdata]
      rfl
    · rfl
  · obtain h | ⟨p, ⟨d₁, net₁⟩, _, h⟩ := Exec.bind_eq_error.mp h
    · obtain ⟨heq, ha⟩ := raiseIfMissing_raised h
      cases heq
      rw [List.takeWhile_cons_of_neg ha]
      exact ⟨rfl, .nil H⟩
    · obtain h | ⟨v, s₂, _, h⟩ := Exec.bind_eq_error.mp h
      · exact (deref_ne_raised h).elim
      · cases h

/-- A call that caches no more chunks and leaves the index. -/
theorem Indexed.of_fewer (H : d.Indexed) (hi : ∀ g, d'.index g = d.index g)
    (hc : ∀ g j data, d'.chunk? g j = some data → d.chunk? g j = some data) : d'.Indexed := by
  intro g j data hdata
  rw [hi]
  exact H g j data (hc g j data hdata)

/-- `invalidate()` throws with the cache as it was, or clears all marks. -/
theorem sink_of_invalidateAll {onDone : EStateM Stop Net Unit}
    (h : callStep policy onDone (d, net) .invalidateAll = some (d', net')) :
    d' = d ∨ d' = { d with cache := { d.cache with impl := d.cache.impl.clearAllDirty } } := by
  obtain ⟨⟨o, t⟩, he, ht⟩ := Option.map_eq_some_iff.mp h
  have hf : Exec.final (onCache (Cache.invalidateAll policy onDone) (d, net)) = (d', net') :=
    (CallState.ended_final he).trans ht
  have hd := (final_onCache _).symm.trans (congrArg Prod.fst hf)
  obtain hc | hc := Cache.invalidateAll_cache policy onDone d.cache net
  · rw [hc] at hd
    exact .inl hd.symm
  · rw [hc] at hd
    exact .inr hd.symm

/-- A call that looks nothing up fetches nothing. -/
theorem fetchesIndexed_of_nil {act : SinkAct} (h : lookups act = []) : FetchesIndexed s act := by
  intro key hkey
  rw [h] at hkey
  cases hkey

/-- One call keeps the index complete if and only if it fetches indexed chunks only. -/
theorem indexed_iff_of_step {onDone : EStateM Stop Net Unit} {act : SinkAct} (H : s.1.WF)
    (Hi : s.1.Indexed) (h : callStep policy onDone s act = some s') :
    s'.1.WF ∧ (s'.1.Indexed ↔ FetchesIndexed s act) := by
  obtain ⟨d, net⟩ := s
  obtain ⟨d', net'⟩ := s'
  cases act with
  | write f buffer size offset =>
    obtain ⟨H', Hi'⟩ := indexed_of_write H Hi h
    exact ⟨H', iff_of_true Hi' (fetchesIndexed_of_nil rfl)⟩
  | read f buffer size offset =>
    obtain ⟨_, hc⟩ := cached_of_read H h
    exact ⟨hc.wf, hc.indexed_iff Hi⟩
  | truncate f newSize oldSize =>
    obtain ⟨_, hc⟩ := cached_of_truncate H h
    exact ⟨hc.wf, hc.indexed_iff Hi⟩
  | invalidate f =>
    obtain ⟨d₁, net₁, hrun, hi⟩ := invalidate_spec (f := f) (e := net) DataOnFlush.onFlush_spec H
    simp only [callStep, hrun] at h
    cases h
    refine ⟨hi.wf, iff_of_true ?_ (fetchesIndexed_of_nil rfl)⟩
    refine Hi.of_fewer hi.index ?_
    intro g j data hdata
    exact hi.chunk? g j ▸ hdata
  | purge f =>
    obtain ⟨d₁, hrun, hp⟩ := purge_spec (P := policy) (f := f) (e := net) (fun _ _ => rfl) H
    simp only [callStep, hrun] at h
    cases h
    refine ⟨hp.wf, iff_of_true ?_ (fetchesIndexed_of_nil rfl)⟩
    refine Hi.of_fewer hp.index ?_
    intro g j data hdata
    rw [hp.chunk?] at hdata
    split at hdata
    · cases hdata
    · exact hdata
  | invalidateAll =>
    obtain rfl | rfl := sink_of_invalidateAll h
    · exact ⟨H, iff_of_true Hi (fetchesIndexed_of_nil rfl)⟩
    · exact ⟨wf_clearAllDirty H, iff_of_true Hi (fetchesIndexed_of_nil rfl)⟩

/-! ## Runs -/

/-- The buffer after a read of what the chunk servers hold. -/
def serverRead (net : Net) (f : Str) (dest : List Byte) (size offset : Nat) : List Byte :=
  (segments size offset).foldl (fun dest s => Vec.memcpy dest s.bufferStart
    (Vec.slice ((net.stored? ⟨f, toInt s.count⟩).getD []) s.chunkStart s.chunkDelta)) dest

/-- No chunk of the file is cached, and a read gets the bytes of the chunk servers. -/
structure Emptied (f : Str) (s : DataSink × Net) : Prop where
  chunk? : ∀ i, s.1.chunk? f i = none
  read : ∀ dest size offset dest' t, read policy f dest size offset s = .ok dest' t →
    dest' = serverRead s.2 f dest size offset

theorem emptied_of_purge {onDone : EStateM Stop Net Unit} (H : s.1.WF) (Hi : s.1.Indexed)
    (h : callStep policy onDone s (.purge f) = some s') : Emptied f s' := by
  obtain ⟨d, net⟩ := s
  obtain ⟨d₁, hrun, hp⟩ := purge_spec (P := policy) (f := f) (e := net) (fun _ _ => rfl) H
  simp only [callStep, hrun] at h
  cases h
  have hnone : ∀ i, d₁.chunk? f i = none := by
    intro i
    rw [hp.chunk?]
    cases hd : d.chunk? f i with
    | none => simp
    | some data => exact if_pos ⟨rfl, Std.ExtTreeSet.mem_toList.mpr (Hi f i data hd)⟩
  refine ⟨hnone, ?_⟩
  intro dest size offset dest' ⟨d', net'⟩ hread
  obtain ⟨_, _, rfl⟩ := copyFrom_read_bytes hp.wf hread
  simp only [bytes_of_missing (hnone _), serverRead]

/-- If what is fetched is always in the index already, then `purge` empties the cache of a file. The
first call that fetches another chunk ends that. -/
theorem indexed_iff_fetchesIndexed {onDone : EStateM Stop Net Unit} {net : Net}
    (h : Reach (callStep policy onDone) FetchesIndexed (.empty, net) s) :
    s.1.Indexed ∧
      (∀ f s', callStep policy onDone s (.purge f) = some s' → Emptied f s') ∧
      ∀ act s', callStep policy onDone s act = some s' → (s'.1.Indexed ↔ FetchesIndexed s act) := by
  have H : s.1.WF ∧ s.1.Indexed := by
    refine Reach.invariant (P := fun s => s.1.WF ∧ s.1.Indexed) h ⟨.empty, ?_⟩ ?_
    · intro f i data hdata
      rw [chunk?_empty] at hdata
      cases hdata
    · intro s act s' H hok hstep
      obtain ⟨H', hiff⟩ := indexed_iff_of_step H.1 H.2 hstep
      exact ⟨H', hiff.mpr hok⟩
  exact ⟨H.2, fun f s' hstep => emptied_of_purge H.1 H.2 hstep,
    fun act s' hstep => (indexed_iff_of_step H.1 H.2 hstep).2⟩

/-- A file that is written, flushed, read and emptied. -/
theorem indexed_iff_fetchesIndexed_example : ∃ s s' : DataSink × Net,
    s.1.chunk? ['f'] 0 = some [7] ∧ s.2.stored? ⟨['f'], 0⟩ = some [7] ∧ s.1.Indexed ∧
      callStep policy (pure ()) s (.purge ['f']) = some s' ∧ Emptied ['f'] s' := by
  have h : (run (guarded (callStep policy (pure ())) FetchesIndexed)
      (DataSink.empty, (⟨fun _ => [], 0, fun _ => none, fun _ _ => none⟩ : Net))
      [.write ['f'] [7] 1 0, .read ['g'] [0] 1 0, .invalidate ['f'], .purge ['f'],
        .read ['f'] [0] 1 0]).map
      (fun s => (s.1.chunk? ['f'] 0, s.2.stored? ⟨['f'], 0⟩,
        (callStep policy (pure ()) s (.purge ['f'])).isSome)) =
      some (some [7], some [7], true) := by
    decide +kernel
  obtain ⟨s, hs, he⟩ := Option.map_eq_some_iff.mp h
  obtain ⟨hchunk, he⟩ := Prod.mk.inj he
  obtain ⟨hstored, hnext⟩ := Prod.mk.inj he
  obtain ⟨s', hs'⟩ := Option.isSome_iff_exists.mp hnext
  obtain ⟨hi, hpurge, _⟩ := indexed_iff_fetchesIndexed (.of_run_guarded _ hs)
  exact ⟨s, s', hchunk, hstored, hi, hs', hpurge _ _ hs'⟩

/-- A file that is only read: its chunk outlives the purge, and is read again when the chunk servers
hold something else. -/
theorem exists_unindexed : ∃ s s' : DataSink × Net,
    Reach (callStep policy (pure ())) always (.empty, ⟨fun _ => [], 0, fun _ => some ['h'],
      fun _ _ => some [7]⟩) s ∧ ¬s.1.Indexed ∧
    callStep policy (pure ()) s (.purge ['f']) = some s' ∧ s'.1.chunk? ['f'] 0 = some [7] ∧
    ∃ t, read policy ['f'] [0] 1 0 (s'.1, ⟨fun _ => [], 0, fun _ => some ['h'],
      fun _ _ => some [8]⟩) = .ok [7] t := by
  have h : (run (callStep policy (pure ())) (DataSink.empty, (⟨fun _ => [], 0, fun _ => some ['h'],
      fun _ _ => some [7]⟩ : Net)) [.read ['f'] [0] 1 0]).bind (fun s =>
        (callStep policy (pure ()) s (.purge ['f'])).bind fun s' =>
          (Exec.result? (read policy ['f'] [0] 1 0 (s'.1, ⟨fun _ => [], 0, fun _ => some ['h'],
            fun _ _ => some [8]⟩))).map fun r =>
          (s.1.chunk? ['f'] 0, decide (0 ∈ s.1.index ['f']), s'.1.chunk? ['f'] 0, r.1)) =
      some (some [7], false, some [7], [7]) := by
    decide +kernel
  obtain ⟨s, hs, h⟩ := Option.bind_eq_some_iff.mp h
  obtain ⟨s', hs', h⟩ := Option.bind_eq_some_iff.mp h
  obtain ⟨⟨dest, t⟩, hr, he⟩ := Option.map_eq_some_iff.mp h
  obtain ⟨hchunk, he⟩ := Prod.mk.inj he
  obtain ⟨hindex, he⟩ := Prod.mk.inj he
  obtain ⟨hchunk', rfl⟩ := Prod.mk.inj he
  refine ⟨s, s', .of_run _ hs, ?_, hs', hchunk', t, Exec.eq_ok_of_result? hr⟩
  intro hi
  exact of_decide_eq_false hindex (hi _ _ _ hchunk)

end DataSink

end ColonyFS

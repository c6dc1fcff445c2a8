import ColonyFS.Api.Aggregator
import ColonyFS.Cache.DataOnFlush
import ColonyFS.Lib.Machine

/-!
# Retrieving a chunk (`intercom/user_harmony.hpp`, `cache/cache.hpp`)

`PreRead` only starts the retrieval of a chunk: the connection, the command, the metadata and the
chunk follow in handlers that other threads run, and the last one fills the object. `operator()`
hands that object to the reader as soon as `PreRead` returns. The lock it takes in between is taken
by nobody else, so nothing makes the reader wait.

The machine here runs one `aggregator::read` statement by statement against the handlers of the
retrievals that it starts.
-/

namespace ColonyFS

/-- The next step of a retrieval. -/
inductive RetrieveStage where
  /-- `handle_connect`. -/
  | connect
  /-- The command is sent; `send_metadata`. -/
  | command
  /-- The metadata is sent; `receive_data`. -/
  | metadata
  /-- The chunk is received into the object. -/
  | data
  /-- `end_retrieve` was called. -/
  | done
  deriving DecidableEq, Repr

structure Retrieval where
  key : ChunkKey
  host : Str
  /-- The object that `archive >> t` fills. -/
  target : Ptr
  stage : RetrieveStage
  deriving DecidableEq, Repr

/-- The next statement of the reader. -/
inductive ReadPc where
  /-- `cache_impl_.read` of `operator()` for the next turn of `copy`, or its end. -/
  | find
  /-- `PreRead`. -/
  | preRead (p : Ptr)
  /-- `CV::Instance(value).lock()`. -/
  | lock (p : Ptr)
  /-- `cache_impl_.insert`. -/
  | insert (p : Ptr)
  /-- `read_from_chunk`. -/
  | copy (p : Ptr)
  | done
  | stopped (e : Stop)
  deriving DecidableEq, Repr

structure ReadState where
  sink : DataSink
  retrievals : List Retrieval
  /-- The turns of `copy` that are left. -/
  segs : List Segment
  pc : ReadPc
  buffer : List Byte

inductive ReadAct where
  | reader
  /-- The next handler of a retrieval. -/
  | net (t : Nat)
  deriving DecidableEq, Repr

namespace ReadState

/-- `aggregator::read` is called. -/
def init (d : DataSink) (dest : List Byte) (size offset : Nat) : ReadState :=
  ⟨d, [], segments size offset, .find, dest⟩

def setImpl (s : ReadState) (impl : BasicCache ChunkKey ChunkData) : ReadState :=
  { s with sink := { s.sink with cache := { s.sink.cache with impl := impl } } }

end ReadState

namespace Retrieve

def segKey (f : Str) (seg : Segment) : ChunkKey := ⟨f, toInt seg.count⟩

/-- One statement of the reader. -/
def readerStep (net : Net) (f : Str) (s : ReadState) : Option ReadState :=
  match s.pc, s.segs with
  | .find, [] => some { s with pc := .done }
  | .find, seg :: _ =>
    match s.sink.cache.impl.read (segKey f seg) with
    | some p => some { s with pc := .copy p }
    | none =>
      let (p, impl) := s.sink.cache.impl.alloc (.ofKey (segKey f seg))
      some { s.setImpl impl with pc := .preRead p }
  | .preRead p, seg :: _ =>
    match net.location (segKey f seg) with
    | none => some { s with pc := .stopped (.raised .keyMissingError) }
    | some host =>
      some { s with
        retrievals := s.retrievals ++ [⟨segKey f seg, host, p, .connect⟩]
        pc := .lock p }
  | .lock p, seg :: _ =>
    if segKey f seg ∈ s.sink.cache.cv then none
    else some { s with
      sink := { s.sink with
        cache := { s.sink.cache with cv := s.sink.cache.cv.insert (segKey f seg) } }
      pc := .insert p }
  | .insert p, seg :: _ =>
    some { s.setImpl (s.sink.cache.impl.insert (segKey f seg) p) with pc := .copy p }
  | .copy p, seg :: segs =>
    match DataSink.readFromChunk p s.buffer seg.chunkStart seg.bufferStart seg.chunkDelta
        (s.sink, ()) with
    | .ok buffer _ => some { s with segs := segs, pc := .find, buffer := buffer }
    | .error e _ => some { s with pc := .stopped e }
  | _, _ => none

/-- The next handler of a retrieval. A server that does not have the chunk never answers. -/
def netStep (net : Net) (s : ReadState) (t : Nat) : Option ReadState := do
  let r ← s.retrievals[t]?
  let goto (stage : RetrieveStage) (s : ReadState) : ReadState :=
    { s with retrievals := s.retrievals.set t { r with stage := stage } }
  match r.stage with
  | .connect => some (goto .command s)
  | .command => some (goto .metadata s)
  | .metadata => some (goto .data s)
  | .data =>
    let data ← net.database r.host r.key
    some (goto .done (s.setImpl (s.sink.cache.impl.assign r.target ⟨r.key.uid, r.key.cuid, data⟩)))
  | .done => none

def step (net : Net) (f : Str) (s : ReadState) : ReadAct → Option ReadState
  | .reader => readerStep net f s
  | .net t => netStep net s t

/-- The reader passes the lock only when the handler of the retrieval has filled the object. -/
def Ok (s : ReadState) : ReadAct → Prop
  | .reader => ∀ p, s.pc = .lock p → ∀ r ∈ s.retrievals, r.target = p → r.stage = .done
  | .net _ => True

instance (s : ReadState) (a : ReadAct) : Decidable (Ok s a) :=
  match a, hpc : s.pc with
  | .net _, _ => .isTrue trivial
  | .reader, .lock p => decidable_of_iff (∀ r ∈ s.retrievals, r.target = p → r.stage = .done) (by
      simp [Ok, hpc])
  | .reader, .find | .reader, .preRead _ | .reader, .insert _ | .reader, .copy _ | .reader, .done
  | .reader, .stopped _ => .isTrue (by simp [Ok, hpc])

/-- A chunk that was asked for has the bytes that its host stores. -/
def Filled (net : Net) (s : ReadState) (p : Ptr) : Prop :=
  ∀ r ∈ s.retrievals, r.target = p → ∃ v, s.sink.cache.impl.heap p = some v ∧
    net.database r.host r.key = some v.data

/-- What a read has to do: it never copies from a chunk that is not filled yet, and the bytes it
returns are the stored ones. -/
def Good (net : Net) (dest stored : List Byte) (size offset : Nat) (s : ReadState) : Prop :=
  (∀ p, s.pc = .copy p → Filled net s p) ∧
    (s.pc = .done → s.buffer = Vec.memcpy dest 0 (Vec.slice stored (offset % CHUNK_SIZE) size))

/-! ## The invariant -/

variable {net : Net} {f : Str} {d : DataSink} {dest stored : List Byte} {size offset : Nat}
  {s s' : ReadState} {p : Ptr} {t : Nat}

/-- The object at `p` is a chunk with the given key. -/
def Owned (s : ReadState) (p : Ptr) (key : ChunkKey) : Prop :=
  ∃ v, s.sink.cache.impl.heap p = some v ∧ v.getKey = key

/-- A retrieval of the chunk into the object at `p` was started. -/
def Asked (s : ReadState) (p : Ptr) (key : ChunkKey) : Prop :=
  ∃ r ∈ s.retrievals, r.target = p ∧ r.key = key

/-- A retrieval follows the DHT, its object is alive, empty until it is filled, and holds the stored
bytes in the end. -/
def Sound (net : Net) (s : ReadState) (r : Retrieval) : Prop :=
  net.location r.key = some r.host ∧ ∃ v, s.sink.cache.impl.heap r.target = some v ∧
    v.getKey = r.key ∧ (r.stage = .done → net.database r.host r.key = some v.data) ∧
    (r.stage ≠ .done → v.data = [])

/-- What holds at any statement. -/
structure Base (net : Net) (f : Str) (s : ReadState) : Prop where
  wf : s.sink.cache.impl.WF
  distinct : (s.retrievals.map (·.target)).Nodup
  sound : ∀ r ∈ s.retrievals, Sound net s r
  own : ∀ p seg segs, s.pc = .preRead p ∨ s.pc = .lock p ∨ s.pc = .insert p ∨ s.pc = .copy p →
    s.segs = seg :: segs → Owned s p (segKey f seg)
  free : ∀ p seg segs, s.pc = .preRead p ∨ s.pc = .lock p ∨ s.pc = .insert p →
    s.segs = seg :: segs → s.sink.cache.impl.read (segKey f seg) = none
  new : ∀ p, s.pc = .preRead p → (∀ r ∈ s.retrievals, r.target ≠ p) ∧
    (∀ v, s.sink.cache.impl.heap p = some v → v.data = []) ∧
    ∀ key, s.sink.cache.impl.read key ≠ some p
  filled : ∀ p, s.pc = .insert p ∨ s.pc = .copy p → ∀ r ∈ s.retrievals, r.target = p →
    r.stage = .done
  cached : ∀ key p, s.sink.cache.impl.read key = some p → ∀ r ∈ s.retrievals, r.target = p →
    r.stage = .done

/-- Before the turn that copies the bytes. -/
structure First (f : Str) (dest : List Byte) (size offset : Nat) (s : ReadState) : Prop where
  segs : s.segs = segments size offset
  buffer : s.buffer = dest
  cold : s.pc = .find → s.sink.cache.impl.read ⟨f, toInt (offset / CHUNK_SIZE)⟩ = none
  asked : ∀ p, s.pc = .lock p ∨ s.pc = .insert p ∨ s.pc = .copy p →
    Asked s p ⟨f, toInt (offset / CHUNK_SIZE)⟩
  not_done : s.pc ≠ .done

/-- After it: what is left is the empty segment of a range that ends with its chunk. -/
structure Rest (dest stored : List Byte) (size offset : Nat) (s : ReadState) : Prop where
  segs : ∀ seg ∈ s.segs, seg.chunkStart = 0 ∧ seg.bufferStart = size ∧ seg.chunkDelta = 0
  buffer : s.buffer = Vec.memcpy dest 0 (Vec.slice stored (offset % CHUNK_SIZE) size)

def Inv (net : Net) (f : Str) (dest stored : List Byte) (size offset : Nat) (s : ReadState) :
    Prop :=
  Base net f s ∧ (First f dest size offset s ∨ Rest dest stored size offset s)

theorem Base.filled_copy (H : Base net f s) (hpc : s.pc = .copy p) : Filled net s p := by
  intro r hr hp
  obtain ⟨_, v, hv, _, hdone, _⟩ := H.sound r hr
  exact ⟨v, hp ▸ hv, hdone (H.filled p (.inr hpc) r hr hp)⟩

theorem Inv.good (H : Inv net f dest stored size offset s) : Good net dest stored size offset s :=
  ⟨fun _ => H.1.filled_copy, fun hd => H.2.elim (fun h => (h.not_done hd).elim) Rest.buffer⟩

/-! ## The handlers -/

theorem Owned.assign {key : ChunkKey} {q : Ptr} {v w : ChunkData} (H : Owned s p key)
    (hw : s.sink.cache.impl.heap q = some w) (hv : v.getKey = w.getKey) :
    Owned (s.setImpl (s.sink.cache.impl.assign q v)) p key := by
  obtain ⟨u, hu, hk⟩ := H
  by_cases he : p = q
  · subst he
    cases Option.some.inj (hw.symm.trans hu)
    exact ⟨v, Function.update_self .., hv.trans hk⟩
  · exact ⟨u, (Function.update_of_ne he ..).trans hu, hk⟩

/-- The step of one retrieval: its stage, and for the last one its object. -/
theorem netStep_cases (h : netStep net s t = some s') :
    ∃ r stage, s.retrievals[t]? = some r ∧
      s'.retrievals = s.retrievals.set t { r with stage := stage } ∧
      s'.segs = s.segs ∧ s'.pc = s.pc ∧ s'.buffer = s.buffer ∧ r.stage ≠ .done ∧
      (stage ≠ .done ∧ s'.sink = s.sink ∨ ∃ data, net.database r.host r.key = some data ∧
        stage = .done ∧ s'.sink = (s.setImpl (s.sink.cache.impl.assign r.target
          ⟨r.key.uid, r.key.cuid, data⟩)).sink) := by
  obtain ⟨r, hr, h⟩ := Option.bind_eq_some_iff.mp h
  cases hs : r.stage with
  | connect | command | metadata =>
    simp only [hs] at h
    cases h
    exact ⟨r, _, hr, rfl, rfl, rfl, rfl, by simp [hs], .inl ⟨RetrieveStage.noConfusion, rfl⟩⟩
  | data =>
    simp only [hs] at h
    obtain ⟨data, hd, h⟩ := Option.bind_eq_some_iff.mp h
    cases h
    exact ⟨r, _, hr, rfl, rfl, rfl, rfl, by simp [hs], .inr ⟨data, hd, rfl, rfl⟩⟩
  | done => simp only [hs] at h; cases h

theorem Asked.set {key : ChunkKey} {r : Retrieval} {stage : RetrieveStage} (H : Asked s p key)
    (hr : s.retrievals[t]? = some r)
    (hs : s'.retrievals = s.retrievals.set t { r with stage := stage }) : Asked s' p key := by
  obtain ⟨r', hr', hp, hk⟩ := H
  obtain ⟨i, hi⟩ := List.mem_iff_getElem?.mp hr'
  by_cases hit : i = t
  · subst hit
    cases Option.some.inj (hr.symm.trans hi)
    refine ⟨{ r with stage := stage }, ?_, hp, hk⟩
    rw [hs]; exact List.mem_set (List.getElem?_eq_some_iff.mp hr).1 _
  · refine ⟨r', List.mem_iff_getElem?.mpr ⟨i, ?_⟩, hp, hk⟩
    rw [hs, List.getElem?_set_ne (Ne.symm hit), hi]

theorem eq_of_target {r r' : Retrieval} {i : Nat} (h : (s.retrievals.map (·.target)).Nodup)
    (hr : s.retrievals[t]? = some r) (hr' : s.retrievals[i]? = some r')
    (htarget : r'.target = r.target) : i = t := by
  have hlt := (List.getElem?_eq_some_iff.mp hr').1
  refine (List.getElem?_inj (by rwa [List.length_map]) h).mp ?_
  rw [List.getElem?_map, List.getElem?_map, hr, hr', Option.map_some, Option.map_some, htarget]

/-- The retrievals after a step of one of them. -/
theorem forall_mem_set {P : Retrieval → Prop} {r : Retrieval} (hr : s.retrievals[t]? = some r)
    (h : ∀ i r', s.retrievals[i]? = some r' → i ≠ t → P r') {r₁ : Retrieval} (h₁ : P r₁) :
    ∀ r' ∈ s.retrievals.set t r₁, P r' := by
  intro r' hr'
  obtain ⟨i, hi⟩ := List.mem_iff_getElem?.mp hr'
  rcases eq_or_ne t i with rfl | hit
  · rw [List.getElem?_set_self (List.getElem?_eq_some_iff.mp hr).1] at hi
    cases hi
    exact h₁
  · rw [List.getElem?_set_ne hit] at hi
    exact h i r' hi hit.symm

/-- Another retrieval has another object. -/
theorem Sound.assign {r : Retrieval} {q : Ptr} {v : ChunkData} (H : Sound net s r)
    (hq : r.target ≠ q) : Sound net (s.setImpl (s.sink.cache.impl.assign q v)) r := by
  obtain ⟨hloc, w, hw, hk, hdone, hnew⟩ := H
  exact ⟨hloc, w, (Function.update_of_ne hq ..).trans hw, hk, hdone, hnew⟩

/-- A retrieval that goes on. -/
theorem Sound.next {r : Retrieval} {stage : RetrieveStage} (H : Sound net s r)
    (hr : r.stage ≠ .done) (hstage : stage ≠ .done) : Sound net s { r with stage := stage } := by
  obtain ⟨hloc, v, hv, hk, _, hnew⟩ := H
  exact ⟨hloc, v, hv, hk, fun h => (hstage h).elim, fun _ => hnew hr⟩

/-- A retrieval that fills its object. -/
theorem Sound.fill {r : Retrieval} {data : List Byte} (H : Sound net s r)
    (hd : net.database r.host r.key = some data) :
    Sound net (s.setImpl (s.sink.cache.impl.assign r.target ⟨r.key.uid, r.key.cuid, data⟩))
      { r with stage := .done } :=
  ⟨H.1, _, Function.update_self .., rfl, fun _ => hd, fun h => (h rfl).elim⟩

theorem Base.netStep (H : Base net f s) (h : netStep net s t = some s') : Base net f s' := by
  obtain ⟨r, stage, hr, hset, hsegs, hpc, _, hgoes, hsink⟩ := netStep_cases h
  have hmem := List.mem_of_getElem? hr
  have hdistinct : (s'.retrievals.map (·.target)).Nodup := by
    obtain ⟨hlt, rfl⟩ := List.getElem?_eq_some_iff.mp hr
    have hsame : s'.retrievals.map (·.target) = s.retrievals.map (·.target) := by
      have hself := @List.set_getElem_self _ (s.retrievals.map (·.target)) t
        (by rwa [List.length_map])
      rw [List.getElem_map] at hself
      rw [hset, List.map_set, hself]
    rw [hsame]
    exact H.distinct
  have htargets : ∀ p, (∀ r ∈ s.retrievals, r.target ≠ p) → ∀ r ∈ s'.retrievals, r.target ≠ p := by
    intro p hp
    rw [hset]
    exact forall_mem_set hr (fun i r' hi _ => hp r' (List.mem_of_getElem? hi)) (hp r hmem)
  have hfilled : ∀ p, s'.pc = .insert p ∨ s'.pc = .copy p → ∀ r' ∈ s'.retrievals,
      r'.target = p → r'.stage = .done := by
    intro p hp
    rw [hpc] at hp
    rw [hset]
    refine forall_mem_set hr (fun i r' hi _ => H.filled p hp r' (List.mem_of_getElem? hi)) ?_
    exact fun htarget => (hgoes (H.filled p hp r hmem htarget)).elim
  have hcached : ∀ key p, s.sink.cache.impl.read key = some p → ∀ r' ∈ s'.retrievals,
      r'.target = p → r'.stage = .done := by
    intro key p hp
    rw [hset]
    refine forall_mem_set hr (fun i r' hi _ => H.cached key p hp r' (List.mem_of_getElem? hi)) ?_
    exact fun htarget => (hgoes (H.cached key p hp r hmem htarget)).elim
  rcases hsink with ⟨hstage, hsink⟩ | ⟨data, hd, rfl, hsink⟩
  · refine ⟨hsink ▸ H.wf, hdistinct, ?_, ?_, ?_, ?_, hfilled, by rwa [hsink]⟩
    · rw [hset]
      simp only [Sound, hsink]
      exact forall_mem_set hr (fun i r' hi _ => H.sound r' (List.mem_of_getElem? hi))
        ((H.sound r hmem).next hgoes hstage)
    · rw [hpc, hsegs]; simp only [Owned, hsink]; exact H.own
    · rw [hpc, hsegs, hsink]; exact H.free
    · intro p hp
      rw [hsink]
      exact ⟨htargets p (H.new p (hpc ▸ hp)).1, (H.new p (hpc ▸ hp)).2⟩
  · obtain ⟨_, w, hw, hkw, _⟩ := H.sound r hmem
    have hkey : CacheValue.getKey (⟨r.key.uid, r.key.cuid, data⟩ : ChunkData) =
        CacheValue.getKey w := hkw.symm
    refine ⟨by rw [hsink]; exact H.wf.assign hw hkey, hdistinct, ?_, ?_, ?_, ?_, hfilled,
      by rwa [hsink]⟩
    · rw [hset]
      simp only [Sound, hsink]
      refine forall_mem_set hr (fun i r' hi hit => ?_) ((H.sound r hmem).fill hd)
      refine (H.sound r' (List.mem_of_getElem? hi)).assign fun htarget => hit ?_
      exact eq_of_target H.distinct hr hi htarget
    · rw [hpc, hsegs]
      intro p seg segs hp hseg
      have ho := (H.own p seg segs hp hseg).assign hw hkey
      rwa [Owned, ← hsink] at ho
    · rw [hpc, hsegs, hsink]; exact H.free
    · intro p hp
      obtain ⟨hnew, hempty, huncached⟩ := H.new p (hpc ▸ hp)
      refine ⟨htargets p hnew, fun v hv => hempty v ?_, by rwa [hsink]⟩
      rw [hsink] at hv
      exact (Function.update_of_ne (hnew r hmem).symm ..).symm.trans hv

theorem inv_netStep (H : Inv net f dest stored size offset s) (h : netStep net s t = some s') :
    Inv net f dest stored size offset s' := by
  obtain ⟨r, stage, hr, hset, hsegs, hpc, hbuf, _, hsink⟩ := netStep_cases h
  refine ⟨H.1.netStep h, H.2.imp ?_ ?_⟩
  · intro hF
    refine ⟨hsegs ▸ hF.segs, hbuf ▸ hF.buffer, ?_, ?_, hpc ▸ hF.not_done⟩
    · intro hp
      have hcold := hF.cold (hpc ▸ hp)
      rcases hsink with ⟨_, hsink⟩ | ⟨data, _, _, hsink⟩ <;> rw [hsink] <;> exact hcold
    · intro p hp
      exact (hF.asked p (hpc ▸ hp)).set hr hset
  · intro hR
    exact ⟨hsegs ▸ hR.segs, hbuf ▸ hR.buffer⟩

/-! ## The reader -/

variable {seg : Segment} {segs : List Segment}

/-- The turns of a request inside one chunk: all bytes, and then perhaps none. -/
theorem segments_cases (hs : size ≤ CHUNK_SIZE) (ho : size + offset < 2 ^ 64)
    (h : segments size offset = seg :: segs) :
    seg = ⟨offset / CHUNK_SIZE, offset % CHUNK_SIZE, 0, size⟩ ∧
      ∀ seg ∈ segs, seg.chunkStart = 0 ∧ seg.bufferStart = size ∧ seg.chunkDelta = 0 := by
  rw [segments_of_le hs ho] at h
  obtain ⟨rfl, rfl⟩ := List.cons.inj h
  refine ⟨rfl, ?_⟩
  intro seg hseg
  split at hseg
  · cases List.mem_singleton.mp hseg; exact ⟨rfl, rfl, rfl⟩
  · cases hseg

theorem Owned.lt (H : s.sink.cache.impl.WF) {key : ChunkKey} (h : Owned s p key) :
    p < s.sink.cache.impl.next := by
  obtain ⟨v, hv, _⟩ := h
  by_contra hn
  rw [H.fresh (Nat.not_lt.mp hn)] at hv
  cases hv

/-- A statement after which the reader has no pointer. -/
theorem Base.leave (H : Base net f s) {pc : ReadPc}
    (hpc : ∀ p, pc ≠ .preRead p ∧ pc ≠ .lock p ∧ pc ≠ .insert p ∧ pc ≠ .copy p) :
    Base net f { s with pc := pc } where
  wf := H.wf
  distinct := H.distinct
  sound := H.sound
  own p _ _ hp _ := by
    obtain ⟨h1, h2, h3, h4⟩ := hpc p
    exact (hp.elim h1 fun hp => hp.elim h2 fun hp => hp.elim h3 h4).elim
  free p _ _ hp _ := by
    obtain ⟨h1, h2, h3, _⟩ := hpc p
    exact (hp.elim h1 fun hp => hp.elim h2 h3).elim
  new p hp := ((hpc p).1 hp).elim
  filled p hp := (hp.elim (hpc p).2.2.1 (hpc p).2.2.2).elim
  cached := H.cached

/-- `find` on a miss: the new object changes none of the others. -/
theorem Base.alloc (H : Base net f s) (hseg : s.segs = seg :: segs)
    (hmiss : s.sink.cache.impl.read (segKey f seg) = none) :
    Base net f { s.setImpl (s.sink.cache.impl.alloc (.ofKey (segKey f seg))).2 with
      pc := .preRead s.sink.cache.impl.next } where
  wf := H.wf.alloc
  distinct := H.distinct
  sound r hr := by
    obtain ⟨hloc, v, hv, hk, hrest⟩ := H.sound r hr
    have hlt := Owned.lt H.wf ⟨v, hv, hk⟩
    exact ⟨hloc, v, (Function.update_of_ne (Nat.ne_of_lt hlt) ..).trans hv, hk, hrest⟩
  own p seg' segs' hp hseg' := by
    obtain ⟨rfl, rfl⟩ := List.cons.inj (hseg.symm.trans hseg')
    rcases hp with hp | hp | hp | hp <;> cases hp
    exact ⟨_, Function.update_self .., rfl⟩
  free p seg' segs' _ hseg' := by
    obtain ⟨rfl, rfl⟩ := List.cons.inj (hseg.symm.trans hseg')
    exact hmiss
  new p hp := by
    cases hp
    constructor
    · intro r hr
      obtain ⟨_, v, hv, hk, _⟩ := H.sound r hr
      exact Nat.ne_of_lt (Owned.lt H.wf ⟨v, hv, hk⟩)
    · constructor
      · intro v hv
        cases (Function.update_self ..).symm.trans hv
        rfl
      · intro key hkey
        exact (H.wf.lt_next hkey).ne rfl
  filled p hp := by rcases hp with hp | hp <;> cases hp
  cached := H.cached

/-- `find` on a hit. -/
theorem Base.hit (H : Base net f s) (hseg : s.segs = seg :: segs)
    (hhit : s.sink.cache.impl.read (segKey f seg) = some p) :
    Base net f { s with pc := .copy p } where
  wf := H.wf
  distinct := H.distinct
  sound := H.sound
  own q seg' segs' hq hseg' := by
    obtain ⟨rfl, rfl⟩ := List.cons.inj (hseg.symm.trans hseg')
    rcases hq with hq | hq | hq | hq <;> cases hq
    exact H.wf.live hhit
  free q _ _ hq _ := by rcases hq with hq | hq | hq <;> cases hq
  new q hq := by cases hq
  filled q hq := by
    rcases hq with hq | hq <;> cases hq
    exact H.cached _ p hhit
  cached := H.cached

/-- `PreRead` starts a retrieval into the new object. -/
theorem Base.preRead (H : Base net f s) (hpc : s.pc = .preRead p) (hseg : s.segs = seg :: segs)
    {host : Str} (hloc : net.location (segKey f seg) = some host) :
    Base net f { s with
      retrievals := s.retrievals ++ [⟨segKey f seg, host, p, .connect⟩], pc := .lock p } where
  wf := H.wf
  distinct := by
    rw [List.map_append, List.map_singleton, ← List.concat_eq_append]
    refine List.Nodup.concat (fun hmem => ?_) H.distinct
    obtain ⟨r, hr, htarget⟩ := List.mem_map.mp hmem
    exact (H.new p hpc).1 r hr htarget
  sound r hr := by
    obtain hr | hr := List.mem_append.mp hr
    · exact H.sound r hr
    · cases List.mem_singleton.mp hr
      obtain ⟨v, hv, hk⟩ := H.own p seg segs (.inl hpc) hseg
      exact ⟨hloc, v, hv, hk, RetrieveStage.noConfusion, fun _ => (H.new p hpc).2.1 v hv⟩
  own q seg' segs' hq hseg' := by
    rcases hq with hq | hq | hq | hq <;> cases hq
    exact H.own p seg' segs' (.inl hpc) hseg'
  free q seg' segs' hq hseg' := by
    rcases hq with hq | hq | hq <;> cases hq
    exact H.free p seg' segs' (.inl hpc) hseg'
  new q hq := by cases hq
  filled q hq := by rcases hq with hq | hq <;> cases hq
  cached key q hq r hr htarget := by
    obtain hr | hr := List.mem_append.mp hr
    · exact H.cached key q hq r hr htarget
    · cases List.mem_singleton.mp hr
      cases htarget
      exact ((H.new p hpc).2.2 key hq).elim

/-- The lock is passed when the chunk is there. -/
theorem Base.lock (H : Base net f s) (hpc : s.pc = .lock p) (hok : Ok s .reader)
    {cv : Std.ExtTreeSet ChunkKey} :
    Base net f { s with
      sink := { s.sink with cache := { s.sink.cache with cv := cv } }, pc := .insert p } where
  wf := H.wf
  distinct := H.distinct
  sound := H.sound
  own q seg' segs' hq hseg' := by
    rcases hq with hq | hq | hq | hq <;> cases hq
    exact H.own p seg' segs' (.inr (.inl hpc)) hseg'
  free q seg' segs' hq hseg' := by
    rcases hq with hq | hq | hq <;> cases hq
    exact H.free p seg' segs' (.inr (.inl hpc)) hseg'
  new q hq := by cases hq
  filled q hq := by
    rcases hq with hq | hq <;> cases hq
    exact hok p hpc
  cached := H.cached

/-- The pointer of the current turn, before its chunk is in the cache. -/
theorem Base.insert (H : Base net f s) (hpc : s.pc = .insert p) (hseg : s.segs = seg :: segs) :
    Base net f { s.setImpl (s.sink.cache.impl.insert (segKey f seg) p) with pc := .copy p } where
  wf := by
    obtain ⟨v, hv, hk⟩ := H.own p seg segs (.inr (.inr (.inl hpc))) hseg
    exact H.wf.insert (H.free p seg segs (.inr (.inr hpc)) hseg) hv hk
  distinct := H.distinct
  sound := H.sound
  own q seg' segs' hq hseg' := by
    rcases hq with hq | hq | hq | hq <;> cases hq
    exact H.own p seg' segs' (.inr (.inr (.inl hpc))) hseg'
  free q seg' segs' hq _ := by rcases hq with hq | hq | hq <;> cases hq
  new q hq := by cases hq
  filled q hq := by
    rcases hq with hq | hq <;> cases hq
    exact H.filled p (.inl hpc)
  cached key q hq := by
    simp only [ReadState.setImpl, BasicCache.read_insert] at hq
    split at hq
    · cases hq
      exact H.filled p (.inl hpc)
    · exact H.cached key q hq

/-- After a turn, whatever was copied. -/
theorem Base.next (H : Base net f s) (buffer : List Byte) :
    Base net f { s with segs := segs, pc := .find, buffer := buffer } where
  wf := H.wf
  distinct := H.distinct
  sound := H.sound
  own q _ _ hq _ := by rcases hq with hq | hq | hq | hq <;> cases hq
  free q _ _ hq _ := by rcases hq with hq | hq | hq <;> cases hq
  new q hq := by cases hq
  filled q hq := by rcases hq with hq | hq <;> cases hq
  cached := H.cached

/-- A statement between `find` and the copy. -/
theorem Inv.forward (H : Inv net f dest stored size offset s) (hB : Base net f s')
    (hsegs : s'.segs = s.segs) (hbuf : s'.buffer = s.buffer) (hfind : s'.pc ≠ .find)
    (hdone : s'.pc ≠ .done)
    (hasked : First f dest size offset s → ∀ p,
      s'.pc = .lock p ∨ s'.pc = .insert p ∨ s'.pc = .copy p →
        Asked s' p ⟨f, toInt (offset / CHUNK_SIZE)⟩) :
    Inv net f dest stored size offset s' := by
  refine ⟨hB, H.2.imp ?_ ?_⟩
  · intro hF
    exact ⟨hsegs.trans hF.segs, hbuf.trans hF.buffer, fun h => (hfind h).elim, hasked hF, hdone⟩
  · intro hR
    exact ⟨hsegs ▸ hR.segs, hbuf ▸ hR.buffer⟩

/-- In the first turn, the reader has what it asked for. -/
theorem First.data_eq (hF : First f dest size offset s) (hB : Base net f s)
    (hst : net.stored? ⟨f, toInt (offset / CHUNK_SIZE)⟩ = some stored) (hpc : s.pc = .copy p)
    {v : ChunkData} (hv : s.sink.cache.impl.heap p = some v) : v.data = stored := by
  obtain ⟨r, hr, htarget, hk⟩ := hF.asked p (.inr (.inr hpc))
  obtain ⟨w, hw, hdata⟩ := hB.filled_copy hpc r hr htarget
  cases Option.some.inj (hv.symm.trans hw)
  rw [Net.stored?, ← hk, (hB.sound r hr).1, Option.bind_some, hdata] at hst
  exact Option.some.inj hst

/-- One call of `read_from_chunk`. -/
theorem inv_copy (hst : net.stored? ⟨f, toInt (offset / CHUNK_SIZE)⟩ = some stored)
    (hs : size ≤ CHUNK_SIZE) (ho : size + offset < 2 ^ 64)
    (hin : offset % CHUNK_SIZE + size ≤ stored.length) (hbuf : size ≤ dest.length)
    (H : Inv net f dest stored size offset s) (hpc : s.pc = .copy p)
    (hsegs : s.segs = seg :: segs) :
    ∃ buffer, DataSink.readFromChunk p s.buffer seg.chunkStart seg.bufferStart seg.chunkDelta
        (s.sink, ()) = .ok buffer (s.sink, ()) ∧ Inv net f dest stored size offset
      { s with segs := segs, pc := .find, buffer := buffer } := by
  obtain ⟨hB, hP⟩ := H
  obtain ⟨v, hv, hk⟩ := hB.own p seg segs (.inr (.inr (.inr hpc))) hsegs
  have hlen : (Vec.slice stored (offset % CHUNK_SIZE) size).length = size := by
    rw [Vec.length_slice]; omega
  rcases hP with hF | hR
  · obtain ⟨rfl, hrest⟩ := segments_cases hs ho (hF.segs.symm.trans hsegs)
    have hdata := hF.data_eq hB hst hpc hv
    refine ⟨_, DataSink.readFromChunk_ok hv (by rwa [hdata]) (by rw [hF.buffer]; simpa), ?_⟩
    exact ⟨hB.next _, .inr ⟨hrest, by rw [hF.buffer, hdata]⟩⟩
  · obtain ⟨h1, h2, h3⟩ := hR.segs seg (hsegs ▸ List.mem_cons_self)
    rw [h1, h2, h3]
    refine ⟨_, DataSink.readFromChunk_ok hv (Nat.zero_le _) ?_, hB.next _, .inr ⟨?_, ?_⟩⟩
    · rw [hR.buffer, Vec.length_memcpy (by omega)]; exact hbuf
    · intro t ht
      exact hR.segs t (hsegs ▸ List.mem_cons_of_mem _ ht)
    · simpa [Vec.slice] using hR.buffer

theorem inv_readerStep (hst : net.stored? ⟨f, toInt (offset / CHUNK_SIZE)⟩ = some stored)
    (hs : size ≤ CHUNK_SIZE) (ho : size + offset < 2 ^ 64)
    (hin : offset % CHUNK_SIZE + size ≤ stored.length) (hbuf : size ≤ dest.length)
    (H : Inv net f dest stored size offset s) (hok : Ok s .reader)
    (h : readerStep net f s = some s') : Inv net f dest stored size offset s' := by
  have hkey : ∀ {seg segs}, First f dest size offset s → s.segs = seg :: segs →
      segKey f seg = ⟨f, toInt (offset / CHUNK_SIZE)⟩ := by
    intro seg segs hF hseg
    rw [(segments_cases hs ho (hF.segs.symm.trans hseg)).1, segKey]
  have hB := H.1
  obtain ⟨sink, rs, segs, pc, buffer⟩ := s
  -- One case for each statement.
  cases pc with
  | find =>
    cases segs with
    | nil =>
      cases h
      refine ⟨hB.leave fun p => by simp, H.2.imp ?_ fun hR => ⟨hR.segs, hR.buffer⟩⟩
      intro hF
      have hnil := hF.segs.symm
      rw [segments_of_le hs ho] at hnil
      cases hnil
    | cons seg segs =>
      simp only [readerStep] at h
      cases hread : sink.cache.impl.read (segKey f seg) with
      | some p =>
        simp only [hread] at h
        cases h
        apply H.forward (hB.hit rfl hread) rfl rfl (by simp) (by simp)
        intro hF
        rw [hkey hF rfl, hF.cold rfl] at hread
        cases hread
      | none =>
        simp only [hread] at h
        cases h
        apply H.forward (hB.alloc rfl hread) rfl rfl (by simp) (by simp)
        rintro hF q (hq | hq | hq) <;> cases hq
  | preRead p =>
    cases segs with
    | nil => cases h
    | cons seg segs =>
      simp only [readerStep] at h
      cases hloc : net.location (segKey f seg) with
      | none =>
        simp only [hloc] at h
        cases h
        refine H.forward (hB.leave fun p => by simp) rfl rfl (by simp) (by simp) ?_
        rintro hF q (hq | hq | hq) <;> cases hq
      | some host =>
        simp only [hloc] at h
        cases h
        apply H.forward (hB.preRead rfl rfl hloc) rfl rfl (by simp) (by simp)
        rintro hF q (hq | hq | hq) <;> cases hq
        exact ⟨_, List.mem_append_right _ List.mem_cons_self, rfl, hkey hF rfl⟩
  | lock p =>
    cases segs with
    | nil => cases h
    | cons seg segs =>
      simp only [readerStep] at h
      split at h
      · cases h
      cases h
      apply H.forward (hB.lock rfl hok) rfl rfl (by simp) (by simp)
      rintro hF q (hq | hq | hq) <;> cases hq
      exact hF.asked p (.inl rfl)
  | insert p =>
    cases segs with
    | nil => cases h
    | cons seg segs =>
      cases h
      apply H.forward (hB.insert rfl rfl) rfl rfl (by simp) (by simp)
      rintro hF q (hq | hq | hq) <;> cases hq
      exact hF.asked p (.inr (.inl rfl))
  | copy p =>
    cases segs with
    | nil => cases h
    | cons seg segs =>
      obtain ⟨buffer', hrun, hinv⟩ := inv_copy hst hs ho hin hbuf H rfl rfl
      simp only [readerStep, hrun] at h
      cases h
      exact hinv
  | done => cases h
  | stopped e => cases h

/-! ## Runs -/

theorem inv_init (H : d.WF) (hmiss : d.chunk? f (toInt (offset / CHUNK_SIZE)) = none) :
    Inv net f dest stored size offset (.init d dest size offset) := by
  refine ⟨⟨H.cache, List.nodup_nil, ?_, ?_, ?_, ?_, ?_, ?_⟩,
    .inl ⟨rfl, rfl, fun _ => (DataSink.read_eq_none_iff H).mpr hmiss, ?_, ReadPc.noConfusion⟩⟩
  · rintro r ⟨⟩
  · rintro p _ _ (hp | hp | hp | hp) <;> cases hp
  · rintro p _ _ (hp | hp | hp) <;> cases hp
  · rintro p ⟨⟩
  · rintro p (hp | hp) <;> cases hp
  · rintro _ _ _ r ⟨⟩
  · rintro p (hp | hp | hp) <;> cases hp

/-- A reader that passes the lock too early goes on to copy from an empty chunk. -/
theorem Base.not_good_of_not_ok (H : Base net f s) (hok : ¬Ok s .reader)
    (hstored : ∀ r ∈ s.retrievals, net.database r.host r.key ≠ some [])
    (h : step net f s .reader = some s') :
    ∃ s'', step net f s' .reader = some s'' ∧ ¬Good net dest stored size offset s'' := by
  simp only [Ok, not_forall] at hok
  obtain ⟨p, hpc, r, hr, htarget, hstage⟩ := hok
  obtain ⟨_, v, hv, _, _, hempty⟩ := H.sound r hr
  obtain ⟨sink, rs, segs, pc, buffer⟩ := s
  cases hpc
  cases segs with
  | nil => cases h
  | cons seg segs =>
    simp only [step, readerStep] at h
    split at h
    · cases h
    cases h
    refine ⟨_, rfl, ?_⟩
    intro hg
    obtain ⟨w, hw, hdata⟩ := hg.1 p rfl r hr htarget
    cases (htarget ▸ hv).symm.trans hw
    exact hstored r hr (hempty hstage ▸ hdata)

/-- Chunk 0 of `/f`, stored on one host. -/
def oneChunk : Net where
  schedule _ := ['b', 'o', 'b']
  calls := 0
  location key := if key = ⟨['/', 'f'], 0⟩ then some ['b', 'o', 'b'] else none
  database host key :=
    if host = ['b', 'o', 'b'] ∧ key = ⟨['/', 'f'], 0⟩ then some [7] else none

/-- The reader runs ahead of the network: `PreRead` has started the retrieval, `read_from_chunk` is
called on an empty chunk, and its assertion fails. -/
theorem exists_early : oneChunk.stored? ⟨['/', 'f'], 0⟩ = some [7] ∧
    ∃ s s', Machine.Reach (step oneChunk ['/', 'f']) Machine.always (.init .empty [0] 1 0) s ∧
      ¬Good oneChunk [0] [7] 1 0 s ∧ step oneChunk ['/', 'f'] s .reader = some s' ∧
      s'.pc = .stopped .assertion := by
  have h : (Machine.run (step oneChunk ['/', 'f']) (.init .empty [0] 1 0)
      (List.replicate 4 .reader)).map (fun s =>
        (s.pc, s.retrievals, s.sink.cache.impl.heap 1,
          (step oneChunk ['/', 'f'] s .reader).map (·.pc))) =
      some (.copy 1, [⟨⟨['/', 'f'], 0⟩, ['b', 'o', 'b'], 1, .connect⟩],
        some ⟨['/', 'f'], 0, []⟩, some (.stopped .assertion)) := by decide +kernel
  obtain ⟨s, hs, he⟩ := Option.map_eq_some_iff.mp h
  obtain ⟨hpc, hrest⟩ := Prod.mk.inj he
  obtain ⟨hrs, hrest⟩ := Prod.mk.inj hrest
  obtain ⟨hheap, hstep⟩ := Prod.mk.inj hrest
  obtain ⟨s', hs', hstop⟩ := Option.map_eq_some_iff.mp hstep
  refine ⟨by decide +kernel, s, s', .of_run _ hs, ?_, hs', hstop⟩
  intro hg
  obtain ⟨v, hv, hdata⟩ := hg.1 1 hpc _ (hrs ▸ List.mem_cons_self) rfl
  cases hheap.symm.trans hv
  revert hdata
  decide +kernel

/-- A read of a stored chunk that is not cached returns the stored bytes and never copies from an
unfilled chunk, in all runs in which the reader passes each lock after the last handler of its
retrieval. A reader that passes one earlier has an unfilled chunk to copy from if no handler runs
before its next statement. -/
theorem good_of_ok (net : Net) (f : Str) {d : DataSink} (H : d.WF) (dest stored : List Byte)
    (size offset : Nat) (hmiss : d.chunk? f (toInt (offset / CHUNK_SIZE)) = none)
    (hst : net.stored? ⟨f, toInt (offset / CHUNK_SIZE)⟩ = some stored)
    (hchunk : offset % CHUNK_SIZE + size ≤ CHUNK_SIZE) (ho : size + offset < 2 ^ 64)
    (hin : offset % CHUNK_SIZE + size ≤ stored.length) (hbuf : size ≤ dest.length)
    {s : ReadState} (hs : Machine.Reach (step net f) Ok (.init d dest size offset) s) :
    Good net dest stored size offset s ∧
      ((∀ r ∈ s.retrievals, net.database r.host r.key ≠ some []) → ∀ s',
        step net f s .reader = some s' → ¬Ok s .reader →
          ∃ s'', step net f s' .reader = some s'' ∧ ¬Good net dest stored size offset s'') := by
  have hI : Inv net f dest stored size offset s := by
    refine hs.invariant (inv_init H hmiss) ?_
    intro s a s' hI hok h
    cases a with
    | reader => exact inv_readerStep hst (by omega) ho hin hbuf hI hok h
    | net t => exact inv_netStep hI h
  refine ⟨hI.good, ?_⟩
  intro hstored s' h hok
  exact hI.1.not_good_of_not_ok hok hstored h

/-- The same read, with a network that is faster than the reader. -/
theorem good_of_ok_example : ∃ s,
    Machine.Reach (step oneChunk ['/', 'f']) Ok (.init .empty [0] 1 0) s ∧
      s.pc = .done ∧ s.buffer = [7] := by
  have h : (Machine.run (Machine.guarded (step oneChunk ['/', 'f']) Ok) (.init .empty [0] 1 0)
      [.reader, .reader, .net 0, .net 0, .net 0, .net 0, .reader, .reader, .reader, .reader]).map
        (fun s => s.pc) = some .done := by decide +kernel
  obtain ⟨s, hs, hpc⟩ := Option.map_eq_some_iff.mp h
  have hg := (good_of_ok oneChunk ['/', 'f'] DataSink.WF.empty [0] [7] 1 0
    DataSink.chunk?_empty (by decide +kernel) (by simp [CHUNK_SIZE_eq]) (by decide) (by decide)
    (by decide) (.of_run_guarded _ hs)).1
  exact ⟨s, .of_run_guarded _ hs, hpc, (hg.2 hpc).trans (by decide)⟩

end Retrieve

end ColonyFS

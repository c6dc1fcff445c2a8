import ColonyFS.Api.Bytes

/-!
# When a read returns

Each turn of `read` needs its chunk, from the cache or from the servers, and its piece has to be
inside the chunk and inside the buffer. `Served` says so of a turn, and `read` returns if and only
if it holds of all of them. A retrieval that is not complete yet counts as an empty chunk, so to
return whatever the network does is to return when nothing has arrived.
-/

namespace ColonyFS

open DataOnFlush (policy timed timed_true timed_keepsKey)

namespace DataSink

/-- What `raise_if_missing` finds for a chunk. For one that is marked and not cached it waits. -/
def obtain? (arrived : ChunkKey → Bool) (s : DataSink × Net) (f : Str) (i : Int) :
    Option (List Byte) :=
  match s.1.chunk? f i with
  | some data => some data
  | none => if ⟨f, i⟩ ∈ s.1.cache.cv then none else
    (s.2.location ⟨f, i⟩).map fun host =>
      if arrived ⟨f, i⟩ then (s.2.database host ⟨f, i⟩).getD [] else []

/-- The piece of a turn is inside a chunk that can be had and inside a buffer of `n` bytes. -/
def Served (arrived : ChunkKey → Bool) (s : DataSink × Net) (f : Str) (n : Nat) (u : Segment) :
    Prop :=
  u.bufferStart + u.chunkDelta ≤ n ∧
    ∃ data ∈ obtain? arrived s f (toInt u.count), u.chunkStart + u.chunkDelta ≤ data.length

instance (arrived : ChunkKey → Bool) (s : DataSink × Net) (f : Str) (n : Nat) (u : Segment) :
    Decidable (Served arrived s f n u) :=
  inferInstanceAs (Decidable (_ ∧ ∃ data ∈ obtain? arrived s f (toInt u.count), _))

variable {arrived : ChunkKey → Bool} {d d' : DataSink} {net net' : Net} {s s' : DataSink × Net}
  {f : Str} {i : Int} {p : Ptr} {a b n m : Nat} {data dest dest' : List Byte} {u : Segment}
  {ss : List Segment}

theorem obtain?_of_chunk? (h : d.chunk? f i = some data) :
    obtain? arrived (d, net) f i = some data := by
  rw [obtain?, h]

theorem obtain?_of_missing (h : d.chunk? f i = none) (hcv : ⟨f, i⟩ ∉ d.cache.cv) :
    obtain? arrived (d, net) f i = (net.location ⟨f, i⟩).map fun host =>
      if arrived ⟨f, i⟩ then (net.database host ⟨f, i⟩).getD [] else [] := by
  rw [obtain?, h]
  exact if_neg hcv

/-- `PreRead` of a chunk that the DHT knows a host of. -/
theorem preRead_ofKey {host : Str} (h : net.location ⟨f, i⟩ = some host) :
    (timed arrived).preRead (.ofKey ⟨f, i⟩) net = .ok { ChunkData.ofKey ⟨f, i⟩ with
      data := if arrived ⟨f, i⟩ then (net.database host ⟨f, i⟩).getD [] else [] } net := by
  refine (DataOnFlush.timed_preRead_located h).trans ?_
  change EStateM.Result.ok (if arrived ⟨f, i⟩ then _ else _) net = _
  cases arrived ⟨f, i⟩ <;> rfl

/-- To fetch a chunk changes nothing in what can be had. -/
theorem Fetched.obtain? (H : d.WF) (h : Fetched (timed arrived) d net f i p d' net') :
    net' = net ∧ ∀ g j, obtain? arrived (d', net) g j = obtain? arrived (d, net) g j := by
  cases h with
  | hit => exact ⟨rfl, fun _ _ => rfl⟩
  | @miss v _ hr _ hv _ hcv =>
    have hnone : d.chunk? f i = none := (read_eq_none_iff H).mp hr
    cases hloc : net.location ⟨f, i⟩ with
    | none => cases (DataOnFlush.timed_preRead_missing hloc).symm.trans hv
    | some host =>
      cases (preRead_ofKey hloc).symm.trans hv
      refine ⟨rfl, ?_⟩
      intro g j
      by_cases hgj : g = f ∧ j = i
      · obtain ⟨rfl, rfl⟩ := hgj
        rw [obtain?_of_missing hnone hcv, hloc]
        exact obtain?_of_chunk? ((chunk?_insert_alloc H g j).trans (if_pos ⟨rfl, rfl⟩))
      · have hmem : ⟨g, j⟩ ∈ d.cache.cv.insert ⟨f, i⟩ ↔ ⟨g, j⟩ ∈ d.cache.cv := by
          rw [Std.ExtTreeSet.mem_insert, Std.compare_eq_iff_eq]
          exact or_iff_right fun h => hgj (by cases h; exact ⟨rfl, rfl⟩)
        simp only [DataSink.obtain?, chunk?_insert_alloc H, if_neg hgj, hmem]

/-- A chunk that can be had is fetched. -/
theorem raiseIfMissing_of_obtain? (H : d.WF) (h : obtain? arrived (d, net) f (toInt n) = some data) :
    ∃ p d', raiseIfMissing (timed arrived) f n (d, net) = .ok p (d', net) := by
  cases hc : d.chunk? f (toInt n) with
  | some _ =>
    obtain ⟨p, hp⟩ := read_of_chunk? hc
    exact ⟨p, d, raiseIfMissing_hit hp⟩
  | none =>
    rw [DataSink.obtain?, hc] at h
    dsimp only at h
    split at h
    · cases h
    · next hcv =>
      obtain ⟨host, hloc, _⟩ := Option.map_eq_some_iff.mp h
      unfold raiseIfMissing
      generalize toInt n = i at hc hcv hloc
      exact ⟨_, _, onCache_ok (Cache.call_miss ((read_eq_none_iff H).mpr hc) (preRead_ofKey hloc)
        hcv)⟩

/-! ## The turns -/

theorem readTurn_returns_iff (H : d.WF) :
    (∃ dest' s', (raiseIfMissing (timed arrived) f n >>= fun p => readFromChunk p dest a b m) (d, net) =
      .ok dest' s') ↔ Served arrived (d, net) f dest.length ⟨n, a, b, m⟩ := by
  constructor
  · rintro ⟨dest', ⟨d', net'⟩, h⟩
    obtain ⟨p, data, hf, hdata, hin, hout, _⟩ := readTurn_ok timed_keepsKey H h
    refine ⟨hout, data, ?_, hin⟩
    rw [← (hf.obtain? H).2, obtain?_of_chunk? hdata]
    exact Option.mem_some_self data
  · rintro ⟨hout, data, hdata, hin⟩
    obtain ⟨p, d', hraise⟩ := raiseIfMissing_of_obtain? H hdata
    have hf := raiseIfMissing_fetched timed_keepsKey hraise
    obtain ⟨v, hv, hchunk, _⟩ := getKey_of_read (hf.wf H) hf.read
    have hsame := (hf.obtain? H).2 f (toInt n)
    rw [obtain?_of_chunk? hchunk, Option.mem_def.mp hdata] at hsame
    cases hsame
    rw [Exec.bind_of_ok hraise]
    exact ⟨_, _, readFromChunk_ok hv hin hout⟩

/-- What a turn leaves to those after it. -/
theorem Served.of_turn (H : d.WF)
    (h : (raiseIfMissing (timed arrived) f n >>= fun p => readFromChunk p dest a b m) (d, net) =
      .ok dest' (d', net')) :
    d'.WF ∧ dest'.length = dest.length ∧
      ∀ u, Served arrived (d', net') f dest'.length u ↔ Served arrived (d, net) f dest.length u := by
  obtain ⟨p, data, hf, _, hin, hout, rfl⟩ := readTurn_ok timed_keepsKey H h
  obtain ⟨rfl, hobtain⟩ := hf.obtain? H
  have hlen : (Vec.memcpy dest b (Vec.slice data a m)).length = dest.length := by
    apply Vec.length_memcpy
    rw [Vec.length_slice]
    omega
  refine ⟨hf.wf H, hlen, ?_⟩
  intro u
  rw [Served, Served, hlen, hobtain]

/-- `read` returns if and only if all its turns are served. -/
theorem read_returns_iff (H : d.WF) {size offset : Nat} :
    (∃ dest' s', read (timed arrived) f dest size offset (d, net) = .ok dest' s') ↔
      ∀ u ∈ segments size offset, Served arrived (d, net) f dest.length u := by
  rw [read, copy]
  generalize segments size offset = ss
  induction ss generalizing d net dest with
  | nil => exact iff_of_true ⟨dest, (d, net), rfl⟩ (List.forall_mem_nil _)
  | cons u ss ih =>
    rw [copyFrom_cons, List.forall_mem_cons, ← readTurn_returns_iff H]
    constructor
    · rintro ⟨dest', s', h⟩
      obtain ⟨dest₁, ⟨d₁, net₁⟩, hturn, hrest⟩ := Exec.bind_eq_ok.mp h
      obtain ⟨H₁, _, hserved⟩ := Served.of_turn H hturn
      refine ⟨⟨dest₁, _, hturn⟩, ?_⟩
      intro t ht
      exact (hserved t).mp ((ih H₁).mp ⟨dest', s', hrest⟩ t ht)
    · rintro ⟨⟨dest₁, ⟨d₁, net₁⟩, hturn⟩, hall⟩
      obtain ⟨H₁, _, hserved⟩ := Served.of_turn H hturn
      obtain ⟨dest', s', hrest⟩ := (ih H₁).mpr fun t ht => (hserved t).mpr (hall t ht)
      exact ⟨dest', s', (Exec.bind_of_ok hturn).trans hrest⟩

theorem read_policy_returns_iff (H : d.WF) {size offset : Nat} :
    (∃ dest' s', read policy f dest size offset (d, net) = .ok dest' s') ↔
      ∀ u ∈ segments size offset, Served (fun _ => true) (d, net) f dest.length u := by
  rw [← timed_true]
  exact read_returns_iff H

/-- A turn that is served before anything arrives is served in any case. -/
theorem Served.of_nothing (h : Served (fun _ => false) (d, net) f n u) :
    Served arrived (d, net) f n u := by
  obtain ⟨hout, data, hdata, hin⟩ := h
  refine ⟨hout, ?_⟩
  cases hc : d.chunk? f (toInt u.count) with
  | some data' =>
    rw [obtain?_of_chunk? hc] at hdata
    exact ⟨data, obtain?_of_chunk? hc ▸ hdata, hin⟩
  | none =>
    rw [DataSink.obtain?, hc] at hdata
    dsimp only at hdata
    split at hdata
    · cases hdata
    · next hcv =>
      obtain ⟨host, hloc, rfl⟩ := Option.map_eq_some_iff.mp hdata
      rw [obtain?_of_missing hc hcv, hloc]
      exact ⟨_, rfl, hin.trans (Nat.zero_le _)⟩

/-- `read` returns whatever the network does if and only if it returns when nothing arrives. -/
theorem read_always_returns_iff (H : d.WF) {size offset : Nat} :
    (∀ arrived, ∃ dest' s', read (timed arrived) f dest size offset (d, net) = .ok dest' s') ↔
      ∀ u ∈ segments size offset, Served (fun _ => false) (d, net) f dest.length u := by
  constructor
  · intro h
    exact (read_returns_iff H).mp (h fun _ => false)
  · intro h arrived
    exact (read_returns_iff H).mpr fun u hu => (h u hu).of_nothing

end DataSink

end ColonyFS

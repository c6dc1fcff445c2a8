import ColonyFS.Api.Shape

/-!
# What two runs read

`bytes` is what a chunk is read as: the cached bytes, or else what the chunk servers hold. Two stores
of one shape agree at a position of a chunk if both have the same byte there, or none. Every method
keeps what they agree on, and a request makes them agree on what it stores and on what it cuts off.
-/

namespace ColonyFS

open DataOnFlush (policy)

/-- `PreRead` fills the chunk with what the servers hold, or leaves it as it is. -/
theorem DataOnFlush.preRead_eq {v w : ChunkData} {net net' : Net}
    (h : policy.preRead v net = .ok w net') :
    net' = net ∧ w.data = (net.stored? v.getKey).getD v.data := by
  simp only [policy, preRead, bind, EStateM.bind, get, getThe, MonadStateOf.get, EStateM.get] at h
  cases hl : net.location v.getKey with
  | none => simp only [hl] at h; cases h
  | some host =>
    simp only [hl] at h
    rw [Net.stored?, hl, Option.bind_some]
    cases hd : net.database host v.getKey <;> simp only [hd] at h <;> cases h <;> exact ⟨rfl, rfl⟩

namespace DataSink

def bytes (s : DataSink × Net) (f : Str) (i : Int) : List Byte :=
  ((s.1.chunk? f i).or (s.2.stored? ⟨f, i⟩)).getD []

def Agree (s t : DataSink × Net) (f : Str) (i : Int) (k : Nat) : Prop :=
  (bytes s f i)[k]? = (bytes t f i)[k]?

variable {d d' d₁ : DataSink} {net net' net₁ : Net} {s s' t t' : DataSink × Net} {f g : Str}
  {i j : Int} {k n m m' : Nat} {p : Ptr} {data dest dest' : List Byte}

theorem bytes_of_chunk? (h : d.chunk? f i = some data) : bytes (d, net) f i = data := by
  rw [bytes, h]
  rfl

theorem bytes_of_missing (h : d.chunk? f i = none) :
    bytes (d, net) f i = (net.stored? ⟨f, i⟩).getD [] := by
  rw [bytes, h]
  rfl

/-- The cached chunks of the file are as long. -/
def SameLengths (f : Str) (d d' : DataSink) : Prop :=
  ∀ i, (d.chunk? f i).map List.length = (d'.chunk? f i).map List.length

theorem SameShape.length_chunk? (h : SameShape s t) (f : Str) :
    SameLengths f s.1 t.1 := by
  intro i
  have hread := h.cache.1.read (k := ⟨f, i⟩)
  simp only [chunk?, BasicCache.get?, hread]
  cases s.1.cache.impl.read ⟨f, i⟩ with
  | none => rfl
  | some p =>
    have hp := congrArg (Option.map Prod.snd) (h.cache.1.heap p)
    simp only [Option.map_map] at hp
    simp only [Option.bind_some, Option.map_map]
    exact hp.symm

theorem SameShape.length_bytes (h : SameShape s t) (f : Str) (i : Int) :
    (bytes s f i).length = (bytes t f i).length := by
  have hl : ∀ o : Option (List Byte), (o.getD []).length = (o.map List.length).getD 0 := by
    intro o
    cases o <;> rfl
  rw [bytes, bytes, hl, hl, Option.map_or, Option.map_or, h.length_chunk? f i,
    h.cache.2.length_stored?]

/-! ## `read` -/

/-- To fetch a chunk is not to change what it is read as. -/
theorem Fetched.bytes (H : d.WF) (h : Fetched policy d net f i p d' net') :
    net' = net ∧ ∀ g j, bytes (d', net') g j = bytes (d, net) g j := by
  obtain ⟨rfl, rfl⟩ | ⟨hnone, v, hv, _, hchunk⟩ := h.chunk?_cases H
  · exact ⟨rfl, fun _ _ => rfl⟩
  obtain ⟨rfl, hdata⟩ := DataOnFlush.preRead_eq hv
  refine ⟨rfl, ?_⟩
  intro g j
  by_cases hgj : g = f ∧ j = i
  · obtain ⟨rfl, rfl⟩ := hgj
    rw [bytes_of_chunk? ((hchunk g j).trans (if_pos ⟨rfl, rfl⟩)), bytes_of_missing hnone, hdata]
    rfl
  · rw [DataSink.bytes, DataSink.bytes, hchunk, if_neg hgj]

/-- A read that returns has copied its pieces of what the chunks are read as. -/
theorem copyFrom_read_bytes (H : d.WF) {ss : List Segment}
    (h : copyFrom (raiseIfMissing policy) readFromChunk f ss dest (d, net) = .ok dest' (d', net')) :
    d'.WF ∧ (∀ g j, bytes (d', net') g j = bytes (d, net) g j) ∧
      dest' = ss.foldl (fun dest s => Vec.memcpy dest s.bufferStart
        (Vec.slice (bytes (d, net) f (toInt s.count)) s.chunkStart s.chunkDelta)) dest := by
  induction ss generalizing d net dest with
  | nil => cases h; exact ⟨H, fun _ _ => rfl, rfl⟩
  | cons s ss ih =>
    rw [copyFrom_cons] at h
    obtain ⟨dest₁, ⟨d₁, net₁⟩, hturn, h⟩ := Exec.bind_eq_ok.mp h
    obtain ⟨p, data, hf, hdata, _, _, rfl⟩ := readTurn_ok DataOnFlush.policy_keepsKey H hturn
    have hb := (hf.bytes H).2
    obtain ⟨H', hb', rfl⟩ := ih (hf.wf H) h
    refine ⟨H', fun g j => (hb' g j).trans (hb g j), ?_⟩
    rw [List.foldl_cons, ← hb, bytes_of_chunk? hdata]
    simp only [hb]

/-- What a read returns depends on the bytes that its pieces touch. -/
theorem foldl_read_congr (dest : List Byte) {ss : List Segment}
    (h : ∀ u ∈ ss, ∀ k, u.chunkStart ≤ k → k < u.chunkStart + u.chunkDelta →
      Agree s t f (toInt u.count) k) :
    ss.foldl (fun dest u => Vec.memcpy dest u.bufferStart
        (Vec.slice (bytes s f (toInt u.count)) u.chunkStart u.chunkDelta)) dest =
      ss.foldl (fun dest u => Vec.memcpy dest u.bufferStart
        (Vec.slice (bytes t f (toInt u.count)) u.chunkStart u.chunkDelta)) dest := by
  apply List.foldl_ext
  intro dest u hu
  rw [Vec.slice_congr (h u hu)]

/-! ## `write` -/

variable {x x' x₁ : DataSink} {u : Store} {us : List Store}

theorem SameLengths.getD (h : SameLengths f d x) (i : Int) :
    ((d.chunk? f i).getD []).length = ((x.chunk? f i).getD []).length := by
  have hi := h i
  cases hd : d.chunk? f i with
  | none =>
    rw [hd] at hi
    rw [Option.map_eq_none_iff.mp hi.symm]
  | some v =>
    rw [hd] at hi
    obtain ⟨w, hw, hlen⟩ := Option.map_eq_some_iff.mp hi.symm
    rw [hw]
    exact hlen.symm

theorem SameLengths.eq_none (h : SameLengths f d x) (hd : d.chunk? f i = none) :
    x.chunk? f i = none := by
  have hi := h i
  rw [hd] at hi
  exact Option.map_eq_none_iff.mp hi.symm

theorem SameLengths.wrote (h : SameLengths f d x) (hd : Wrote f d u d') (hx : Wrote f x u x') :
    SameLengths f d' x' := by
  intro i
  rw [hd.chunk?, hx.chunk?]
  split
  · rw [Option.map_some, Option.map_some, Vec.length_store, Vec.length_store, h.getD]
  · exact h i

/-- The store decides about the byte: it puts one there, or the chunk has been empty. -/
def Settles (d : DataSink) (f : Str) (i : Int) (k : Nat) (u : Store) : Prop :=
  u.cuid = i ∧ (d.chunk? f i = none ∨ u.start ≤ k ∧ k < u.start + u.bytes.length)

theorem Agree.wrote (hl : SameLengths f d x) (hd : Wrote f d u d') (hx : Wrote f x u x')
    (h : Agree (d, net) (x, net') f i k ∨ Settles d f i k u) :
    Agree (d', net) (x', net') f i k := by
  by_cases hi : u.cuid = i
  · subst hi
    rw [Agree, bytes_of_chunk? ((hd.chunk? f u.cuid).trans (if_pos ⟨rfl, rfl⟩)),
      bytes_of_chunk? ((hx.chunk? f u.cuid).trans (if_pos ⟨rfl, rfl⟩))]
    cases hnone : d.chunk? f u.cuid with
    | none => rw [hl.eq_none hnone]
    | some v =>
      have hlen := hl u.cuid
      rw [hnone] at hlen
      obtain ⟨w, hw, hwl⟩ := Option.map_eq_some_iff.mp hlen.symm
      rw [hw]
      refine Vec.getElem?_store_congr hwl.symm (h.imp (fun h => ?_) fun h => ?_)
      · rwa [Agree, bytes_of_chunk? hnone, bytes_of_chunk? hw] at h
      · refine h.2.resolve_left ?_
        rw [hnone]
        exact Option.some_ne_none _
  · have hne : ¬(f = f ∧ i = u.cuid) := fun h => hi h.2.symm
    have h := h.resolve_right fun h => hi h.1
    rwa [Agree, bytes, bytes, hd.chunk?, hx.chunk?, if_neg hne, if_neg hne]

/-- Induction over the pieces of a write. The first one to come to a chunk that is not cached makes
it. -/
theorem Agree.wroteAll (hl : SameLengths f d x) (hd : WroteAll f d us d') (hx : WroteAll f x us x')
    (h : Agree (d, net) (x, net') f i k ∨ ∃ u ∈ us, Settles d f i k u) :
    Agree (d', net) (x', net') f i k := by
  induction us generalizing d x with
  | nil =>
    cases wroteAll_nil.mp hd
    cases wroteAll_nil.mp hx
    refine h.resolve_right ?_
    rintro ⟨_, hu, _⟩
    cases hu
  | cons v us ih =>
    obtain ⟨d₁, hd₁, hd⟩ := wroteAll_cons.mp hd
    obtain ⟨x₁, hx₁, hx⟩ := wroteAll_cons.mp hx
    refine ih (hl.wrote hd₁ hx₁) hd hx ?_
    by_cases hv : Agree (d, net) (x, net') f i k ∨ Settles d f i k v
    · exact .inl (.wrote hl hd₁ hx₁ hv)
    obtain ⟨hno, hv⟩ := not_or.mp hv
    obtain ⟨u, hu, hi, hs⟩ := h.resolve_left hno
    obtain rfl | hu := List.mem_cons.mp hu
    · exact (hv ⟨hi, hs⟩).elim
    refine .inr ⟨u, hu, hi, hs.imp_left fun hnone => ?_⟩
    rw [hd₁.chunk?, if_neg fun h => hv ⟨h.2.symm, .inl hnone⟩, hnone]

/-- The other files. -/
theorem WroteAll.bytes_of_ne (h : WroteAll f d us d') (hg : g ≠ f) :
    bytes (d', net) g i = bytes (d, net) g i := by
  induction h with
  | nil => rfl
  | cons h _ ih =>
    rw [ih, bytes, bytes, h.chunk?, if_neg fun h => hg h.1]

theorem Agree.write {buf : List Byte} {o : Nat} (hst : SameShape s t) (hs : s.1.WF) (ht : t.1.WF)
    (h : write g buf n o s = .ok () s') (h' : DataSink.write g buf n o t = .ok () t')
    (hk : Agree s t f i k ∨ f = g ∧ ∃ u ∈ (segments n o).map (Segment.store buf),
      s.1.Settles f i k u) : Agree s' t' f i k := by
  obtain ⟨d, net⟩ := s
  obtain ⟨x, net'⟩ := t
  obtain ⟨d', _⟩ := s'
  obtain ⟨x', _⟩ := t'
  obtain ⟨rfl, hw, _⟩ := write_ok hs h
  obtain ⟨rfl, hw', _⟩ := write_ok ht h'
  obtain rfl | hg := eq_or_ne f g
  · exact .wroteAll (hst.length_chunk? f) hw hw' (hk.imp_right And.right)
  · rw [Agree, hw.bytes_of_ne hg, hw'.bytes_of_ne hg]
    exact hk.resolve_right fun h => hg h.1

/-! ## `truncate` -/

theorem truncate_bytes (H : s.1.WF) (h : truncate policy f n m s = .ok () s') :
    s'.1.WF ∧ ∀ g j, bytes s' g j = if g = f ∧ j = toInt (n / CHUNK_SIZE) then
      Vec.resize 0 (bytes s f (toInt (n / CHUNK_SIZE))) (n % CHUNK_SIZE) else bytes s g j := by
  obtain ⟨d, net⟩ := s
  obtain ⟨d', net'⟩ := s'
  obtain ⟨p, d₁, data, hf, hdata, wf, hchunk, _⟩ := truncate_ok DataOnFlush.policy_keepsKey H h
  have hb := (hf.bytes H).2
  refine ⟨wf, ?_⟩
  intro g j
  split
  · next hgj =>
    rw [bytes_of_chunk? ((hchunk g j).trans (if_pos hgj)), ← hb, bytes_of_chunk? hdata]
  · next hgj => rw [← hb, bytes, bytes, hchunk, if_neg hgj]

theorem Agree.truncate (hst : SameShape s t) (hs : s.1.WF) (ht : t.1.WF)
    (h : truncate policy g n m s = .ok () s') (h' : truncate policy g n m' t = .ok () t')
    (hk : Agree s t f i k ∨ f = g ∧ i = toInt (n / CHUNK_SIZE) ∧ n % CHUNK_SIZE ≤ k) :
    Agree s' t' f i k := by
  rw [Agree, (truncate_bytes hs h).2, (truncate_bytes ht h').2]
  split
  · next hgi =>
    obtain ⟨rfl, rfl⟩ := hgi
    exact Vec.getElem?_resize_congr (hst.length_bytes _ _) (hk.imp_right fun h => h.2.2)
  · next hgi => exact hk.resolve_right fun h => hgi ⟨h.1, h.2.1⟩

/-! ## `dht_task` -/

/-- The indexed chunks of the file are gone from the cache. What was dirty is on the servers. -/
theorem flush_bytes (H : s.1.WF) {s₁ : DataSink × Net} (h : invalidate policy f s = .ok () s₁)
    (h' : purge policy f s₁ = .ok () s') : s'.1.WF ∧ ∀ g j, bytes s' g j =
      if g = f ∧ j ∈ s.1.index f ∧ ¬s.1.IsDirty f j then (s.2.stored? ⟨f, j⟩).getD []
      else bytes s g j := by
  obtain ⟨d, net⟩ := s
  obtain ⟨d₁, net₁, hrun, hi⟩ := invalidate_spec (f := f) (e := net) DataOnFlush.onFlush_spec H
  cases hrun.symm.trans h
  obtain ⟨d₂, hrun, hp⟩ :=
    purge_spec (P := policy) (f := f) (e := net₁) (fun _ _ => rfl) hi.wf
  cases hrun.symm.trans h'
  refine ⟨hp.wf, ?_⟩
  intro g j
  rw [bytes, hp.chunk?, hi.flushed, hi.chunk?, hi.index]
  simp only [Std.ExtTreeSet.mem_toList]
  by_cases hmem : g = f ∧ j ∈ d.index f
  · obtain ⟨rfl, hj⟩ := hmem
    rw [if_pos ⟨rfl, hj⟩, Option.none_or]
    by_cases hd : d.IsDirty g j
    · obtain ⟨q, hq⟩ := H.cache.read_of_isDirty hd
      obtain ⟨v, _, hv, _⟩ := getKey_of_read H hq
      rw [if_pos ⟨⟨rfl, hj⟩, hd⟩, if_neg fun h => h.2.2 hd, bytes_of_chunk? hv, hv]
      rfl
    · rw [if_neg fun h => hd h.2, if_pos ⟨rfl, hj, hd⟩]
  · rw [if_neg hmem, if_neg fun h => hmem h.1, if_neg fun h => hmem ⟨h.1, h.2.1⟩]
    rfl

theorem Agree.flush {s₁ t₁ : DataSink × Net} (hst : SameShape s t) (hs : s.1.WF) (ht : t.1.WF)
    (h₁ : invalidate policy g s = .ok () s₁) (h : purge policy g s₁ = .ok () s')
    (h₁' : invalidate policy g t = .ok () t₁) (h' : purge policy g t₁ = .ok () t')
    (hk : Agree s t f i k)
    (hclean : f = g → i ∈ s.1.index f → ¬s.1.IsDirty f i →
      ((s.2.stored? ⟨f, i⟩).getD [])[k]? = ((t.2.stored? ⟨f, i⟩).getD [])[k]?) :
    Agree s' t' f i k := by
  have hindex : t.1.index g = s.1.index g := by rw [index, hst.indexMap, index]
  have hdirty : t.1.IsDirty g i ↔ s.1.IsDirty g i := hst.cache.1.isDirty
  have hif := (flush_bytes ht h₁' h').2 f i
  simp only [hindex, hdirty] at hif
  rw [Agree, (flush_bytes hs h₁ h).2, hif]
  split
  · next hc =>
    obtain ⟨rfl, hi, hd⟩ := hc
    exact hclean rfl hi hd
  · exact hk

end DataSink

end ColonyFS

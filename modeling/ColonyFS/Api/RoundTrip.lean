import ColonyFS.Api.FlatFile

/-!
# Reading back what was written

A `write` of at most `CHUNK_SIZE` bytes leaves every chunk cached that a `read` of the same range
visits, the one with an empty segment included, so the `read` asks the policy for nothing.
-/

namespace ColonyFS

namespace DataSink

variable {σ : Type} {d d' : DataSink} {e : σ} {P : Policy ChunkData σ} {f : Str}
  {buf dest : List Byte} {offset : Nat}

/-- A write has changed bytes at its own positions of the chunk of `offset` only, where zeros lead up
to them if the chunk was shorter; any other chunk it made is empty. -/
structure ChangesOnly (f : Str) (buf : List Byte) (offset : Nat) (d d' : DataSink) : Prop where
  first : ∃ data, d'.chunk? f (toInt (offset / CHUNK_SIZE)) = some data ∧ ∀ k, data[k]? =
    if offset % CHUNK_SIZE ≤ k ∧ k < offset % CHUNK_SIZE + buf.length then
      buf[k - offset % CHUNK_SIZE]?
    else if k < ((d.chunk? f (toInt (offset / CHUNK_SIZE))).getD []).length then
      ((d.chunk? f (toInt (offset / CHUNK_SIZE))).getD [])[k]?
    else if k < offset % CHUNK_SIZE then some 0 else none
  other : ∀ g j, ¬(g = f ∧ j = toInt (offset / CHUNK_SIZE)) → d'.chunk? g j = d.chunk? g j ∨
    g = f ∧ d.chunk? g j = none ∧ d'.chunk? g j = some []

theorem Written.changesOnly (h : Written f buf offset d d') : ChangesOnly f buf offset d d' where
  first := ⟨_, h.first, fun _ => Vec.getElem?_store⟩
  other g j hj := by
    by_cases hv : g = f ∧ Visits buf.length offset j
    · obtain ⟨rfl, rfl | ⟨hcross, rfl⟩⟩ := hv
      · exact (hj ⟨rfl, rfl⟩).elim
      · have hsecond := h.second hcross
        cases hc : d.chunk? g (toInt (offset / CHUNK_SIZE + 1)) with
        | none => exact .inr ⟨rfl, rfl, by rw [hsecond, hc]; rfl⟩
        | some data => exact .inl (by rw [hsecond, hc]; rfl)
    · exact .inl (h.other g j hv)

/-- A second segment finds the chunk that the write made sure of. -/
theorem Written.read (h : Written f buf offset d d') (hs : buf.length ≤ CHUNK_SIZE)
    (ho : buf.length + offset < 2 ^ 64) (hd : dest.length = buf.length) :
    read P f dest buf.length offset (d', e) = .ok buf (d', e) := by
  let c : Segment → List Byte := fun s => (d'.chunk? f (toInt s.count)).getD []
  have hfirst : c ⟨offset / CHUNK_SIZE, offset % CHUNK_SIZE, 0, buf.length⟩ = Vec.store 0
      ((d.chunk? f (toInt (offset / CHUNK_SIZE))).getD []) (offset % CHUNK_SIZE) buf := by
    simp only [c, h.first, Option.getD_some]
  have hin : ∀ s ∈ segments buf.length offset, d'.chunk? f (toInt s.count) = some (c s) ∧
      s.chunkStart + s.chunkDelta ≤ (c s).length ∧ s.bufferStart + s.chunkDelta ≤ dest.length := by
    intro s hmem
    rw [segments_of_le hs ho] at hmem
    obtain rfl | hmem := List.mem_cons.mp hmem
    · refine ⟨by rw [hfirst]; exact h.first, ?_, by rw [hd, Nat.zero_add]⟩
      rw [hfirst, Vec.length_store]
      exact Nat.le_max_right _ _
    · split at hmem
      · next hcross =>
        cases List.mem_singleton.mp hmem
        refine ⟨?_, Nat.zero_le _, by rw [hd]; exact Nat.le_refl _⟩
        simp only [c, h.second hcross, Option.getD_some]
      · cases hmem
  have hbuf : (segments buf.length offset).foldl (fun dest s => Vec.memcpy dest s.bufferStart
      (Vec.slice (c s) s.chunkStart s.chunkDelta)) dest = buf := by
    rw [segments_of_le hs ho, List.foldl_cons, hfirst, Vec.slice_store, Vec.memcpy_all hd]
    split
    · rw [List.foldl_cons, List.foldl_nil, Vec.slice_empty, Vec.memcpy_nil]
    · rfl
  exact (copyFrom_read_spec h.wf hin).trans (by rw [hbuf])

/-- A write returns, a read of the same range returns the buffer from any policy, and the write
changed nothing else. -/
theorem write_read (P : Policy ChunkData σ) (f : Str) (e : σ) (H : d.WF)
    (hs : buf.length ≤ CHUNK_SIZE) (hi : (offset + buf.length) / CHUNK_SIZE < 2 ^ 31) :
    ∃ d', write f buf buf.length offset (d, e) = .ok () (d', e) ∧
      (∀ dest : List Byte, dest.length = buf.length →
        read P f dest buf.length offset (d', e) = .ok buf (d', e)) ∧
      ChangesOnly f buf offset d d' := by
  have ho := add_lt_of_div_lt hi
  obtain ⟨d', hrun, hw⟩ := write_written (f := f) (e := e) H hs ho
  exact ⟨d', hrun, fun dest hd => hw.read hs ho hd, hw.changesOnly⟩

/-- Two bytes over the end of the first chunk of an empty store. -/
theorem write_read_example : ∃ d',
    write ['/', 'f'] [7, 9] 2 (CHUNK_SIZE - 1) (DataSink.empty, ()) = .ok () (d', ()) ∧
      read ⟨pure, fun _ => pure (), fun _ => pure ()⟩ ['/', 'f'] [0, 0] 2 (CHUNK_SIZE - 1) (d', ()) =
        .ok [7, 9] (d', ()) := by
  have hs : ([7, 9] : List Byte).length ≤ CHUNK_SIZE := by rw [CHUNK_SIZE_eq]; decide
  have hi : (CHUNK_SIZE - 1 + ([7, 9] : List Byte).length) / CHUNK_SIZE < 2 ^ 31 := by
    rw [CHUNK_SIZE_eq]; decide
  obtain ⟨d', hw, hr, _⟩ :=
    write_read ⟨pure, fun _ => pure (), fun _ => pure ()⟩ ['/', 'f'] () WF.empty hs hi
  exact ⟨d', hw, hr [0, 0] rfl⟩

end DataSink

end ColonyFS

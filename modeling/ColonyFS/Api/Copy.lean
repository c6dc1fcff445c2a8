import ColonyFS.Storage.ChunkData

/-!
# How a request is split over chunks (`aggregator<chunk_data>::copy`)

The loop of `copy` computes, turn by turn, which part of the request goes to which chunk, and what
it computes does not depend on the two policies it calls. `segments` is that computation.
-/

namespace ColonyFS

/-- One turn of the loop: the arguments of the key policy and of the action policy. -/
structure Segment where
  count : Nat
  chunkStart : Nat
  bufferStart : Nat
  chunkDelta : Nat
  deriving DecidableEq, Repr

/-- `turns` turns of the loop from `count` on, with the loop variables `offset` and
`buffer_start`. -/
def segmentsFrom (size : Nat) : (turns count offset bufferStart : Nat) → List Segment
  | 0, _, _, _ => []
  | turns + 1, count, offset, bufferStart =>
    let remainingSize := size - bufferStart
    let chunkStart := offset % CHUNK_SIZE
    let chunkEnd :=
      if bufferStart + remainingSize > CHUNK_SIZE then CHUNK_SIZE else chunkStart + remainingSize
    let chunkDelta := chunkEnd - chunkStart
    ⟨count, chunkStart, bufferStart, chunkDelta⟩ ::
      segmentsFrom size turns (count + 1) 0 (bufferStart + chunkDelta)

/-- All turns for a request. The sum is a `size_t`; nothing else in the loop can wrap around. -/
def segments (size offset : Nat) : List Segment :=
  let chunkIndexStart := offset / CHUNK_SIZE
  let chunkIndexEnd := (size + offset) % 2 ^ 64 / CHUNK_SIZE
  segmentsFrom size (chunkIndexEnd + 1 - chunkIndexStart) chunkIndexStart offset 0

/-- A piece of a write that lands in one chunk. -/
structure Store where
  cuid : Int
  start : Nat
  bytes : List Byte
  deriving DecidableEq, Repr

/-- What a turn of `copy` stores from the buffer. -/
def Segment.store (buffer : List Byte) (s : Segment) : Store :=
  ⟨toInt s.count, s.chunkStart, Vec.slice buffer s.bufferStart s.chunkDelta⟩

/-- A turn for a request of at most `CHUNK_SIZE` bytes takes all that is left of it. -/
theorem segmentsFrom_succ_of_le (hs : size ≤ CHUNK_SIZE) (hb : bufferStart ≤ size) :
    segmentsFrom size (turns + 1) count offset bufferStart =
      ⟨count, offset % CHUNK_SIZE, bufferStart, size - bufferStart⟩ ::
        segmentsFrom size turns (count + 1) 0 size := by
  have hend : ¬bufferStart + (size - bufferStart) > CHUNK_SIZE := by omega
  simp only [segmentsFrom, if_neg hend, Nat.add_sub_cancel_left]
  rw [show bufferStart + (size - bufferStart) = size by omega]

/-- A request of at most `CHUNK_SIZE` bytes goes to one chunk as a whole; when it reaches the end
of that chunk, the next one is visited with an empty segment. -/
theorem segments_of_le (hs : size ≤ CHUNK_SIZE) (ho : size + offset < 2 ^ 64) :
    segments size offset =
      ⟨offset / CHUNK_SIZE, offset % CHUNK_SIZE, 0, size⟩ ::
        if CHUNK_SIZE ≤ offset % CHUNK_SIZE + size then
          [⟨offset / CHUNK_SIZE + 1, 0, size, 0⟩] else [] := by
  have hpos := CHUNK_SIZE_pos
  have hlt := Nat.mod_lt offset hpos
  have hdiv : (size + offset) / CHUNK_SIZE = offset / CHUNK_SIZE +
      (offset % CHUNK_SIZE + size) / CHUNK_SIZE := by
    conv_lhs => rw [← Nat.div_add_mod offset CHUNK_SIZE]
    rw [show size + (CHUNK_SIZE * (offset / CHUNK_SIZE) + offset % CHUNK_SIZE) =
      offset % CHUNK_SIZE + size + CHUNK_SIZE * (offset / CHUNK_SIZE) by omega,
      Nat.add_mul_div_left _ _ hpos, Nat.add_comm]
  simp only [segments, Nat.mod_eq_of_lt ho, hdiv]
  by_cases h : CHUNK_SIZE ≤ offset % CHUNK_SIZE + size
  · have h1 : (offset % CHUNK_SIZE + size) / CHUNK_SIZE = 1 :=
      Nat.div_eq_of_lt_le (by omega) (by omega)
    rw [h1, if_pos h, show offset / CHUNK_SIZE + 1 + 1 - offset / CHUNK_SIZE = 2 by omega,
      segmentsFrom_succ_of_le hs (Nat.zero_le _), segmentsFrom_succ_of_le hs (Nat.le_refl _)]
    simp [segmentsFrom]
  · have h0 : (offset % CHUNK_SIZE + size) / CHUNK_SIZE = 0 :=
      Nat.div_eq_of_lt (Nat.lt_of_not_le h)
    rw [h0, if_neg h, show offset / CHUNK_SIZE + 0 + 1 - offset / CHUNK_SIZE = 1 by omega,
      segmentsFrom_succ_of_le hs (Nat.zero_le _)]
    simp [segmentsFrom]

/-- The loop never stops short of a boundary in a request longer than a chunk: after `turns` turns
it is at the end of a chunk. -/
theorem exists_mem_segmentsFrom (hs : CHUNK_SIZE < size) (turns count offset bufferStart : Nat) :
    ∃ s ∈ segmentsFrom size (turns + 1) count offset bufferStart,
      s.bufferStart + s.chunkDelta =
        bufferStart + (turns + 1) * CHUNK_SIZE - offset % CHUNK_SIZE := by
  have hlt := Nat.mod_lt offset CHUNK_SIZE_pos
  have hend : bufferStart + (size - bufferStart) > CHUNK_SIZE := by omega
  induction turns generalizing count offset bufferStart with
  | zero =>
    refine ⟨_, List.mem_cons_self, ?_⟩
    simp only [if_pos hend]; omega
  | succ turns ih =>
    obtain ⟨s, hs, he⟩ := ih (count + 1) 0 (bufferStart + (CHUNK_SIZE - offset % CHUNK_SIZE))
      (by simp [CHUNK_SIZE_pos]) (by omega)
    refine ⟨s, ?_, ?_⟩
    · rw [segmentsFrom]
      simp only [if_pos hend]
      exact List.mem_cons_of_mem _ hs
    · rw [he, Nat.zero_mod, Nat.succ_mul (turns + 1)]; omega

/-- A request longer than a chunk makes `copy` run past the end of the caller's buffer. -/
theorem exists_overrun (hs : CHUNK_SIZE < size) (ho : size + offset < 2 ^ 64) :
    ∃ s ∈ segments size offset, size < s.bufferStart + s.chunkDelta := by
  have hpos := CHUNK_SIZE_pos
  have hle : offset / CHUNK_SIZE ≤ (size + offset) / CHUNK_SIZE := Nat.div_le_div_right (by omega)
  obtain ⟨s, hmem, he⟩ := exists_mem_segmentsFrom hs
    ((size + offset) / CHUNK_SIZE - offset / CHUNK_SIZE) (offset / CHUNK_SIZE) offset 0
  refine ⟨s, ?_, ?_⟩
  · simp only [segments, Nat.mod_eq_of_lt ho]
    rwa [show (size + offset) / CHUNK_SIZE + 1 - offset / CHUNK_SIZE =
      (size + offset) / CHUNK_SIZE - offset / CHUNK_SIZE + 1 by omega]
  · have h1 := Nat.lt_mul_div_succ (size + offset) hpos
    have h2 := Nat.div_add_mod offset CHUNK_SIZE
    rw [he, show (size + offset) / CHUNK_SIZE - offset / CHUNK_SIZE + 1 =
      (size + offset) / CHUNK_SIZE + 1 - offset / CHUNK_SIZE by omega, Nat.sub_mul,
      Nat.mul_comm _ CHUNK_SIZE, Nat.mul_comm _ CHUNK_SIZE]
    have h3 : CHUNK_SIZE * (offset / CHUNK_SIZE) ≤
        CHUNK_SIZE * ((size + offset) / CHUNK_SIZE + 1) :=
      Nat.mul_le_mul_left _ (by omega)
    omega

/-! ## Requests that are tiled -/

/-- Each segment begins in the buffer where the one before it ended, and the first at `b`. -/
def Consecutive : Nat → List Segment → Prop
  | _, [] => True
  | b, s :: ss => s.bufferStart = b ∧ Consecutive (b + s.chunkDelta) ss

/-- The segments cover a request, each in the chunk that the position in the file belongs to. -/
structure Tiles (size offset : Nat) (ss : List Segment) : Prop where
  inChunk : ∀ s ∈ ss, s.chunkStart + s.chunkDelta ≤ CHUNK_SIZE
  inBuffer : ∀ s ∈ ss, s.bufferStart + s.chunkDelta ≤ size
  consecutive : Consecutive 0 ss
  position : ∀ s ∈ ss, s.chunkDelta ≠ 0 →
    s.count * CHUNK_SIZE + s.chunkStart = offset + s.bufferStart
  total : (ss.map Segment.chunkDelta).sum = size

/-- Consecutive segments leave no position out. -/
theorem Consecutive.exists_mem {ss : List Segment} (h : Consecutive b ss) (hb : b ≤ i)
    (hi : i < b + (ss.map Segment.chunkDelta).sum) :
    ∃ s ∈ ss, s.bufferStart ≤ i ∧ i < s.bufferStart + s.chunkDelta := by
  induction ss generalizing b with
  | nil => simp at hi; omega
  | cons s ss ih =>
    obtain ⟨rfl, h⟩ := h
    rw [List.map_cons, List.sum_cons] at hi
    by_cases hs : i < s.bufferStart + s.chunkDelta
    · exact ⟨s, List.mem_cons_self, hb, hs⟩
    · obtain ⟨t, ht, hti⟩ := ih h (Nat.le_of_not_lt hs) (by omega)
      exact ⟨t, List.mem_cons_of_mem _ ht, hti⟩

/-- Every byte of a tiled request goes to its place in the chunk that owns its position. -/
theorem Tiles.exists_owner {ss : List Segment} (H : Tiles size offset ss) (hi : i < size) :
    ∃ s ∈ ss, s.bufferStart ≤ i ∧ i < s.bufferStart + s.chunkDelta ∧
      (offset + i) / CHUNK_SIZE = s.count ∧
      (offset + i) % CHUNK_SIZE = s.chunkStart + (i - s.bufferStart) := by
  obtain ⟨s, hs, hb, hlt⟩ := H.consecutive.exists_mem (Nat.zero_le i) (by rw [H.total]; omega)
  have hchunk := H.inChunk s hs
  have hpos := H.position s hs (by omega)
  refine ⟨s, hs, hb, hlt, (Nat.div_mod_unique CHUNK_SIZE_pos).mpr ⟨?_, by omega⟩⟩
  rw [Nat.mul_comm CHUNK_SIZE]
  omega

/-- The first segment of a request of at most `CHUNK_SIZE` bytes takes all of it. -/
theorem first_mem_segments (hs : size ≤ CHUNK_SIZE) (ho : size + offset < 2 ^ 64) :
    ⟨offset / CHUNK_SIZE, offset % CHUNK_SIZE, 0, size⟩ ∈ segments size offset := by
  rw [segments_of_le hs ho]
  exact List.mem_cons_self

theorem le_of_tiles (h : size + offset < 2 ^ 64) (H : Tiles size offset (segments size offset)) :
    offset % CHUNK_SIZE + size ≤ CHUNK_SIZE := by
  by_cases hs : size ≤ CHUNK_SIZE
  · exact H.inChunk _ (first_mem_segments hs h)
  · obtain ⟨s, hmem, hlt⟩ := exists_overrun (Nat.lt_of_not_le hs) h
    have := H.inBuffer s hmem
    omega

/-- `copy` tiles a request if and only if no byte of it is past the end of its first chunk. -/
theorem tiles_iff (h : size + offset < 2 ^ 64) :
    Tiles size offset (segments size offset) ↔ offset % CHUNK_SIZE + size ≤ CHUNK_SIZE := by
  refine ⟨le_of_tiles h, fun hle => ?_⟩
  have hs : size ≤ CHUNK_SIZE := Nat.le_of_add_left_le hle
  have hfirst : offset / CHUNK_SIZE * CHUNK_SIZE + offset % CHUNK_SIZE = offset :=
    Nat.div_add_mod' offset CHUNK_SIZE
  rw [segments_of_le hs h]
  split
  · refine ⟨?_, ?_, ⟨rfl, (Nat.zero_add size).symm, trivial⟩, ?_, by simp⟩ <;>
      simp only [List.forall_mem_cons, List.not_mem_nil, false_imp_iff, implies_true, and_true]
    · exact ⟨hle, by omega⟩
    · exact ⟨by omega, Nat.le_refl _⟩
    · exact ⟨fun _ => hfirst, fun h => (h rfl).elim⟩
  · refine ⟨?_, ?_, ⟨rfl, trivial⟩, ?_, by simp⟩ <;>
      simp only [List.forall_mem_cons, List.not_mem_nil, false_imp_iff, implies_true, and_true]
    · exact hle
    · omega
    · exact fun _ => hfirst

/-- A request that ends on the boundary of its chunk. -/
theorem tiles_iff_example : Tiles 3 (CHUNK_SIZE - 3) (segments 3 (CHUNK_SIZE - 3)) :=
  (tiles_iff (by rw [CHUNK_SIZE_eq]; decide)).mpr (by rw [CHUNK_SIZE_eq])

/-- Two bytes at the last position of a chunk: the second one goes past its end. -/
theorem not_tiles_straddling : ¬Tiles 2 (CHUNK_SIZE - 1) (segments 2 (CHUNK_SIZE - 1)) := by
  intro H
  have hle := H.inChunk _ (first_mem_segments (by rw [CHUNK_SIZE_eq]; decide)
    (by rw [CHUNK_SIZE_eq]; decide))
  rw [CHUNK_SIZE_eq] at hle
  exact absurd hle (by decide)

end ColonyFS

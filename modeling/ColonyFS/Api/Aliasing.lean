import ColonyFS.Api.RoundTrip

/-!
# Chunks that share a key

The index of a chunk is a `size_t`, and an `int` in the key. Indices that differ by a multiple of
`2 ^ 32` are one chunk to the cache.
-/

namespace ColonyFS

theorem toInt_eq_iff : toInt m = toInt n ↔ m % 2 ^ 32 = n % 2 ^ 32 := by
  unfold toInt
  constructor
  · intro h
    have h1 : (m : Int) % (2 ^ 32 : Nat) = (n : Int) % (2 ^ 32 : Nat) := by
      rw [← Int.bmod_emod (x := (m : Int)), ← Int.bmod_emod (x := (n : Int)), h]
    omega
  · intro h
    have h1 : (m : Int) % (2 ^ 32 : Nat) = (n : Int) % (2 ^ 32 : Nat) := by omega
    rw [← Int.emod_bmod (x := (m : Int)), ← Int.emod_bmod (x := (n : Int)), h1]

namespace DataSink

variable {σ : Type} {d d' d₁ : DataSink} {e e₁ : σ} {P : Policy ChunkData σ} {f : Str}
  {dest dest' data : List Byte} {a b : Nat} {v : Byte}

/-- A byte that is cached, together with the chunk after it where a `read` looks that up as well. -/
structure ByteCached (d : DataSink) (f : Str) (b : Nat) (v : Byte) : Prop where
  byte : ∃ data, d.chunk? f (toInt (b / CHUNK_SIZE)) = some data ∧ data[b % CHUNK_SIZE]? = some v
  next : CHUNK_SIZE ≤ b % CHUNK_SIZE + 1 →
    ∃ data, d.chunk? f (toInt (b / CHUNK_SIZE + 1)) = some data

/-- A byte that is cached is read. -/
theorem ByteCached.read (h : ByteCached d f b v) (H : d.WF) (hb : b < 2 ^ 63)
    (hd : 1 ≤ dest.length) :
    read P f dest 1 b (d, e) = .ok (Vec.memcpy dest 0 [v]) (d, e) := by
  have hpos : 1 ≤ CHUNK_SIZE := CHUNK_SIZE_pos
  obtain ⟨⟨data, hdata, hv⟩, hnext⟩ := h
  obtain ⟨hlt, rfl⟩ := List.getElem?_eq_some_iff.mp hv
  let c : Segment → List Byte := fun s => (d.chunk? f (toInt s.count)).getD []
  have hin : ∀ s ∈ segments 1 b, d.chunk? f (toInt s.count) = some (c s) ∧
      s.chunkStart + s.chunkDelta ≤ (c s).length ∧ s.bufferStart + s.chunkDelta ≤ dest.length := by
    intro s hmem
    rw [segments_of_le hpos (by omega)] at hmem
    obtain rfl | hmem := List.mem_cons.mp hmem
    · simp only [c, hdata, Option.getD_some]
      exact ⟨trivial, hlt, hd⟩
    · split at hmem
      · next hcross =>
        cases List.mem_singleton.mp hmem
        obtain ⟨data₂, hdata₂⟩ := hnext (by omega)
        simp only [c, hdata₂, Option.getD_some]
        exact ⟨trivial, Nat.zero_le _, hd⟩
      · cases hmem
  have hbuf : (segments 1 b).foldl (fun dest s => Vec.memcpy dest s.bufferStart
      (Vec.slice (c s) s.chunkStart s.chunkDelta)) dest =
      Vec.memcpy dest 0 [data[b % CHUNK_SIZE]] := by
    rw [segments_of_le hpos (by omega), List.foldl_cons]
    simp only [c, hdata, Option.getD_some, Vec.slice_one hlt]
    split
    · rw [List.foldl_cons, List.foldl_nil, Vec.slice_empty, Vec.memcpy_nil]
    · rfl
  exact (copyFrom_read_spec H hin).trans (by rw [hbuf])

/-- To fetch a chunk is not to lose one. -/
theorem Fetched.keep {i j : Int} {g : Str} {p : Ptr} (h : Fetched P d e f i p d₁ e₁) (H : d.WF)
    (hd : d.chunk? g j = some data) : d₁.chunk? g j = some data := by
  obtain ⟨rfl, rfl⟩ | ⟨hnone, v, _, _, hchunk⟩ := h.chunk?_cases H
  · exact hd
  · rw [hchunk, if_neg]
    · exact hd
    · rintro ⟨rfl, rfl⟩
      rw [hnone] at hd
      cases hd

/-- A byte that was read is cached. -/
theorem byteCached_of_read (hP : P.KeepsKey) (H : d.WF) (hb : b < 2 ^ 63)
    (h : read P f dest 1 b (d, e) = .ok dest' (d₁, e₁)) :
    d₁.WF ∧ 1 ≤ dest.length ∧ ∃ v, ByteCached d₁ f b v ∧ dest' = Vec.memcpy dest 0 [v] := by
  have hpos : 1 ≤ CHUNK_SIZE := CHUNK_SIZE_pos
  rw [read, copy, segments_of_le hpos (by omega), copyFrom_cons] at h
  obtain ⟨dest₂, ⟨d₂, e₂⟩, hturn, hrest⟩ := Exec.bind_eq_ok.mp h
  obtain ⟨p, data, hf, hdata, hin, hout, rfl⟩ := readTurn_ok hP H hturn
  have hlt : b % CHUNK_SIZE < data.length := hin
  rw [Vec.slice_one hlt] at hrest
  split at hrest
  · next hcross =>
    rw [copyFrom_cons] at hrest
    obtain ⟨dest₃, ⟨d₃, e₃⟩, hturn', hrest⟩ := Exec.bind_eq_ok.mp hrest
    obtain ⟨q, data₂, hf', hdata₂, _, _, rfl⟩ := readTurn_ok hP (hf.wf H) hturn'
    cases hrest
    rw [Vec.slice_empty, Vec.memcpy_nil]
    have hkeep := hf'.keep (hf.wf H) hdata
    exact ⟨hf'.wf (hf.wf H), hout, _, ⟨⟨data, hkeep, List.getElem?_eq_getElem hlt⟩,
      fun _ => ⟨data₂, hdata₂⟩⟩, rfl⟩
  · next hcross =>
    cases hrest
    exact ⟨hf.wf H, hout, _, ⟨⟨data, hdata, List.getElem?_eq_getElem hlt⟩,
      fun h => (hcross (by omega)).elim⟩, rfl⟩

/-- Two positions have one place in the cache: the chunks share a key. -/
def SamePlace (a b : Nat) : Prop :=
  a / CHUNK_SIZE % 2 ^ 32 = b / CHUNK_SIZE % 2 ^ 32 ∧ a % CHUNK_SIZE = b % CHUNK_SIZE

instance (a b : Nat) : Decidable (SamePlace a b) := inferInstanceAs (Decidable (_ ∧ _))

/-- A write of one byte leaves the byte at another place, and replaces the one at its own. -/
theorem Written.byteCached {w : Byte} (h : Written f [v] a d d₁) (hc : ByteCached d f b w) :
    ByteCached d₁ f b (if SamePlace a b then v else w) := by
  obtain ⟨⟨data, hdata, hw⟩, hnext⟩ := hc
  obtain ⟨⟨data', hdata', hbytes⟩, hother⟩ := h.changesOnly
  have hkeep : ∀ j data, d.chunk? f j = some data → ∃ data, d₁.chunk? f j = some data := by
    intro j data hj
    by_cases hja : j = toInt (a / CHUNK_SIZE)
    · exact ⟨data', hja ▸ hdata'⟩
    · obtain he | ⟨_, hnone, _⟩ := hother f j fun h => hja h.2
      · exact ⟨data, he.trans hj⟩
      · rw [hnone] at hj
        cases hj
  refine ⟨?_, ?_⟩
  · by_cases hkey : toInt (b / CHUNK_SIZE) = toInt (a / CHUNK_SIZE)
    · have hmod := toInt_eq_iff.mp hkey
      rw [← hkey] at hdata' hbytes
      rw [hdata, Option.getD_some] at hbytes
      refine ⟨data', hdata', ?_⟩
      rw [hbytes, List.length_singleton]
      by_cases hpos : a % CHUNK_SIZE = b % CHUNK_SIZE
      · rw [if_pos (by omega), if_pos ⟨hmod.symm, hpos⟩, hpos, Nat.sub_self]
        rfl
      · rw [if_neg (by omega), if_neg fun h : SamePlace a b => hpos h.2,
          if_pos (List.getElem?_eq_some_iff.mp hw).1]
        exact hw
    · have hplace : ¬SamePlace a b := fun h => hkey (toInt_eq_iff.mpr h.1.symm)
      rw [if_neg hplace]
      obtain he | ⟨_, hnone, _⟩ := hother f _ fun h => hkey h.2
      · exact ⟨data, he.trans hdata, hw⟩
      · rw [hnone] at hdata
        cases hdata
  · intro hcross
    obtain ⟨data₂, hdata₂⟩ := hnext hcross
    exact hkeep _ _ hdata₂

/-- Every write of one byte at `a` leaves the byte at `b`: `dest'` is what a read gets before and
after. -/
def Untouched (P : Policy ChunkData σ) (f : Str) (a b : Nat) (dest dest' : List Byte)
    (s : DataSink × σ) : Prop :=
  ∀ v : Byte, ∃ s', write f [v] 1 a s = .ok () s' ∧ read P f dest 1 b s' = .ok dest' s'

/-- Two chunks have different keys if and only if their indices differ modulo `2 ^ 32`, and only
then are all writes in the one harmless to the other. -/
theorem untouched_iff (hP : P.KeepsKey) (H : d.WF) (ha : a < 2 ^ 63) (hb : b < 2 ^ 63)
    (h : read P f dest 1 b (d, e) = .ok dest' (d₁, e₁)) :
    ((⟨f, toInt (a / CHUNK_SIZE)⟩ : ChunkKey) ≠ ⟨f, toInt (b / CHUNK_SIZE)⟩ ∧
        Untouched P f a b dest dest' (d₁, e₁) ↔
      a / CHUNK_SIZE % 2 ^ 32 ≠ b / CHUNK_SIZE % 2 ^ 32) ∧
    (Untouched P f a b dest dest' (d₁, e₁) ↔ ¬SamePlace a b) := by
  obtain ⟨H₁, hdest, w, hc, rfl⟩ := byteCached_of_read hP H hb h
  have hpos : ∀ v : Byte, [v].length ≤ CHUNK_SIZE := fun _ => CHUNK_SIZE_pos
  have hwrite : ∀ v : Byte, ∃ d₂, write f [v] 1 a (d₁, e₁) = .ok () (d₂, e₁) ∧
      read P f dest 1 b (d₂, e₁) =
        .ok (Vec.memcpy dest 0 [if SamePlace a b then v else w]) (d₂, e₁) := by
    intro v
    obtain ⟨d₂, hrun, hw⟩ := write_written (f := f) (e := e₁) H₁ (hpos v)
      (show [v].length + a < 2 ^ 64 by rw [List.length_singleton]; omega)
    exact ⟨d₂, hrun, (hw.byteCached hc).read hw.wf hb hdest⟩
  have hiff : Untouched P f a b dest (Vec.memcpy dest 0 [w]) (d₁, e₁) ↔ ¬SamePlace a b := by
    constructor
    · intro hu hplace
      obtain ⟨v, hv⟩ : ∃ v : Byte, v ≠ w := ⟨w + 1, by simp⟩
      obtain ⟨s', hrun', hread'⟩ := hu v
      obtain ⟨d₂, hrun, hread⟩ := hwrite v
      cases hrun.symm.trans hrun'
      rw [if_pos hplace] at hread
      have heq := (EStateM.Result.ok.inj (hread'.symm.trans hread)).1
      exact hv ((Vec.memcpy_singleton_inj hdest).mp heq).symm
    · intro hplace v
      obtain ⟨d₂, hrun, hread⟩ := hwrite v
      rw [if_neg hplace] at hread
      exact ⟨_, hrun, hread⟩
  refine ⟨?_, hiff⟩
  rw [hiff, Ne, ChunkKey.mk.injEq, toInt_eq_iff]
  constructor
  · exact fun h hmod => h.1 ⟨rfl, hmod⟩
  · exact fun hmod => ⟨fun h => hmod h.2, fun h => hmod h.1⟩

/-- The first bytes of the chunks 0 and 1. -/
theorem untouched_iff_example : ∃ d : DataSink,
    write ['f'] [9] 1 CHUNK_SIZE (DataSink.empty, ()) = .ok () (d, ()) ∧
      Untouched ⟨pure, fun _ => pure (), fun _ => pure ()⟩ ['f'] 0 CHUNK_SIZE [0] [9] (d, ()) := by
  have ho : CHUNK_SIZE + 1 < 2 ^ 63 := by rw [CHUNK_SIZE_eq]; decide
  have hs : ([9] : List Byte).length + CHUNK_SIZE < 2 ^ 64 := by rw [CHUNK_SIZE_eq]; decide
  obtain ⟨d, hw, hwritten⟩ : ∃ d, write ['f'] [9] ([9] : List Byte).length CHUNK_SIZE
      (DataSink.empty, ()) = .ok () (d, ()) ∧ Written ['f'] [9] CHUNK_SIZE .empty d :=
    write_written WF.empty CHUNK_SIZE_pos hs
  have hr : read ⟨pure, fun _ => pure (), fun _ => pure ()⟩ ['f'] [0] 1 CHUNK_SIZE (d, ()) =
      .ok [9] (d, ()) := hwritten.read CHUNK_SIZE_pos hs rfl
  have H := (write_ok WF.empty hw).2.2
  refine ⟨d, hw, ((untouched_iff ?_ H (by decide) (by omega) hr).2).mpr ?_⟩
  · rintro v _ _ _ ⟨⟩
    rfl
  · rw [SamePlace, CHUNK_SIZE_eq]
    decide

/-- A byte at 0 replaces the one `2 ^ 32` chunks further on. -/
theorem not_untouched : ∃ d d' : DataSink,
    write ['f'] [9] 1 45035996273704960 (DataSink.empty, ()) = .ok () (d, ()) ∧
      write ['f'] [7] 1 0 (d, ()) = .ok () (d', ()) ∧
      45035996273704960 = 2 ^ 32 * CHUNK_SIZE ∧ 45035996273704960 < 2 ^ 63 ∧
      (∃ t, read ⟨pure, fun _ => pure (), fun _ => pure ()⟩ ['f'] [0] 1 45035996273704960 (d, ()) =
        .ok [9] t) ∧
      ∃ t, read ⟨pure, fun _ => pure (), fun _ => pure ()⟩ ['f'] [0] 1 45035996273704960 (d', ()) =
        .ok [7] t := by
  have h : (Exec.state? (write ['f'] [9] 1 45035996273704960 (DataSink.empty, ()))).bind (fun s =>
      (Exec.state? (write ['f'] [7] 1 0 s)).bind fun s' =>
        (Exec.result? (read ⟨pure, fun _ => pure (), fun _ => pure ()⟩ ['f'] [0] 1
          45035996273704960 s)).bind fun r =>
          (Exec.result? (read ⟨pure, fun _ => pure (), fun _ => pure ()⟩ ['f'] [0] 1
            45035996273704960 s')).map fun r' => (r.1, r'.1)) = some ([9], [7]) := by
    decide +kernel
  obtain ⟨⟨d, _⟩, hs, h⟩ := Option.bind_eq_some_iff.mp h
  obtain ⟨⟨d', _⟩, hs', h⟩ := Option.bind_eq_some_iff.mp h
  obtain ⟨⟨_, t⟩, hr, h⟩ := Option.bind_eq_some_iff.mp h
  obtain ⟨⟨_, t'⟩, hr', h⟩ := Option.map_eq_some_iff.mp h
  obtain ⟨rfl, rfl⟩ := Prod.mk.inj h
  obtain ⟨_, hs⟩ := Exec.of_state? hs
  obtain ⟨_, hs'⟩ := Exec.of_state? hs'
  exact ⟨d, d', hs, hs', by norm_num [CHUNK_SIZE_eq], by decide, ⟨t, Exec.eq_ok_of_result? hr⟩,
    t', Exec.eq_ok_of_result? hr'⟩

end DataSink

end ColonyFS

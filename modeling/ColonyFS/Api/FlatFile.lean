import ColonyFS.Api.Aggregator

/-!
# A file as a flat byte array

What the chunks of a file are for: together they are one array of bytes. `FileOp.onArray` is what
`write` and `truncate` mean on that array, `Represents` says that a store holds it, and each method
keeps the relation as long as no gap is made, no range crosses a chunk boundary and the chunk
indices fit in an `int`. The chunks past the end that `truncate` leaves behind are outside the
relation: only their length matters.
-/

namespace ColonyFS

/-- The calls that change the content of a file. -/
inductive FileOp where
  | write (buffer : List Byte) (offset : Nat)
  | truncate (newSize oldSize : Nat)

namespace FileOp

/-- The array after a call. -/
def onArray (flat : List Byte) : FileOp → List Byte
  | write buffer offset => Vec.store 0 flat offset buffer
  | truncate newSize _ => flat.take newSize

/-- The calls that leave no gap and stay in one chunk. -/
def Admissible (flat : List Byte) : FileOp → Prop
  | write buffer offset => offset ≤ flat.length ∧ offset % CHUNK_SIZE + buffer.length ≤ CHUNK_SIZE ∧
      (offset + buffer.length) / CHUNK_SIZE < 2 ^ 31
  | truncate newSize _ => newSize ≤ flat.length

variable {σ : Type}

/-- The call on the chunk store. -/
def onSink (P : Policy ChunkData σ) (filepath : Str) : FileOp → DataM σ Unit
  | write buffer offset => DataSink.write filepath buffer buffer.length offset
  | truncate newSize oldSize => DataSink.truncate P filepath newSize oldSize

end FileOp

/-- A run of calls on one file. -/
def runOps {σ : Type} (P : Policy ChunkData σ) (filepath : Str) :
    List FileOp → DataM σ Unit
  | [] => pure ()
  | op :: ops => do
    op.onSink P filepath
    runOps P filepath ops

/-- Every call of a run is admissible for the array it finds. -/
def AdmissibleRun (flat : List Byte) : List FileOp → Prop
  | [] => True
  | op :: ops => op.Admissible flat ∧ AdmissibleRun (op.onArray flat) ops

namespace DataSink

/-- The cached byte at position `x` of a file. -/
def byte? (d : DataSink) (f : Str) (x : Nat) : Option Byte :=
  ((d.chunk? f (toInt (x / CHUNK_SIZE))).getD [])[x % CHUNK_SIZE]?

/-- The chunks of `f` hold the array `flat`. -/
structure Represents (d : DataSink) (f : Str) (flat : List Byte) : Prop where
  wf : d.WF
  byte? : ∀ x < flat.length, d.byte? f x = flat[x]?
  short : ∀ {i : Int} {v : List Byte}, d.chunk? f i = some v → v.length ≤ CHUNK_SIZE
  bound : flat.length / CHUNK_SIZE < 2 ^ 31

/-- Every chunk up to the one that the end of the file is in is cached. -/
def Covers (d : DataSink) (f : Str) (flat : List Byte) : Prop :=
  ∀ j ≤ flat.length / CHUNK_SIZE, (d.chunk? f (toInt j)).isSome

/-- Between the end `E` of the file and `n`, a position holds a zero byte, or none and is in the
chunk of `n`, where a request at `n` fills it. -/
def ZeroGap (d : DataSink) (f : Str) (E n : Nat) : Prop :=
  ∀ x < n, E ≤ x → d.byte? f x = some 0 ∨ d.byte? f x = none ∧ x / CHUNK_SIZE = n / CHUNK_SIZE

instance (d : DataSink) (f : Str) (E n : Nat) : Decidable (d.ZeroGap f E n) :=
  inferInstanceAs (Decidable (∀ x < n, _ → _ ∨ _ ∧ _))

variable {σ : Type} {d d' : DataSink} {e : σ} {P : Policy ChunkData σ} {f : Str}
  {flat buf data dest : List Byte}
  {i : Int} {x j n m size offset : Nat}

theorem represents_nil (H : d.WF) (h : ∀ i, d.chunk? f i = none) : d.Represents f [] where
  wf := H
  byte? x hx := (Nat.not_lt_zero _ hx).elim
  short h' := by rw [h] at h'; cases h'
  bound := by simp

theorem Represents.div_lt (H : d.Represents f flat) (hx : x ≤ flat.length) :
    x / CHUNK_SIZE < 2 ^ 31 :=
  Nat.lt_of_le_of_lt (Nat.div_le_div_right hx) H.bound

theorem Represents.add_lt (H : d.Represents f flat) (hE : n + m ≤ flat.length) :
    m + n < 2 ^ 64 := by
  have hb := H.bound
  have h1 := Nat.mod_add_div flat.length CHUNK_SIZE
  have h2 := Nat.mod_lt flat.length CHUNK_SIZE_pos
  simp only [CHUNK_SIZE_eq] at hb h1 h2
  omega

/-- A byte of the file is in a chunk that is cached and long enough. -/
theorem Represents.lt_length (H : d.Represents f flat) (hx : x < flat.length) :
    x % CHUNK_SIZE < ((d.chunk? f (toInt (x / CHUNK_SIZE))).getD []).length := by
  by_contra hn
  have h := H.byte? x hx
  rw [DataSink.byte?, List.getElem?_eq_none (Nat.le_of_not_lt hn), List.getElem?_eq_getElem hx] at h
  cases h

theorem ZeroGap.of_le {E : Nat} (h : n ≤ E) : d.ZeroGap f E n := by
  intro x hx hE
  omega

/-- A chunk that is all in the gap is cached. -/
theorem ZeroGap.isSome {E : Nat} (h : d.ZeroGap f E n) (hE : E / CHUNK_SIZE < j)
    (hj : j < n / CHUNK_SIZE) : (d.chunk? f (toInt j)).isSome := by
  have hpos := CHUNK_SIZE_pos
  have hlt : j * CHUNK_SIZE < n := by
    have h1 := Nat.div_mul_le_self n CHUNK_SIZE
    have h2 : (j + 1) * CHUNK_SIZE ≤ n / CHUNK_SIZE * CHUNK_SIZE := Nat.mul_le_mul_right _ hj
    rw [Nat.add_mul] at h2
    omega
  have hle : E ≤ j * CHUNK_SIZE := Nat.le_of_lt ((Nat.div_lt_iff_lt_mul hpos).mp hE)
  obtain hx | ⟨_, hx⟩ := h _ hlt hle
  · cases hc : d.chunk? f (toInt j) with
    | none =>
      rw [DataSink.byte?, Nat.mul_div_cancel _ hpos, hc] at hx
      cases hx
    | some v => rfl
  · rw [Nat.mul_div_cancel _ hpos] at hx
    omega

/-- The chunks before the last one are full. -/
theorem Represents.full (H : d.Represents f flat) (hj : j < flat.length / CHUNK_SIZE) :
    ∃ v, d.chunk? f (toInt j) = some v ∧ v.length = CHUNK_SIZE := by
  have hpos := CHUNK_SIZE_pos
  have hx : j * CHUNK_SIZE + (CHUNK_SIZE - 1) < flat.length := by
    have h1 : (j + 1) * CHUNK_SIZE ≤ flat.length / CHUNK_SIZE * CHUNK_SIZE :=
      Nat.mul_le_mul_right _ hj
    have h2 := Nat.div_mul_le_self flat.length CHUNK_SIZE
    rw [Nat.add_mul] at h1; omega
  have hlt := H.lt_length hx
  rw [Nat.mul_comm j, Nat.mul_add_div hpos, Nat.mul_add_mod,
    Nat.div_eq_of_lt (by omega), Nat.mod_eq_of_lt (by omega), Nat.add_zero] at hlt
  cases hv : d.chunk? f (toInt j) with
  | none => simp [hv] at hlt
  | some v =>
    have h1 := H.short hv
    simp only [hv, Option.getD_some] at hlt
    exact ⟨v, rfl, by omega⟩

/-! ## `write` -/

theorem Written.isSome (h : Written f buf offset d d')
    (hi : Visits buf.length offset i ∨ (d.chunk? f i).isSome) : (d'.chunk? f i).isSome := by
  by_cases hv : Visits buf.length offset i
  · obtain rfl | ⟨hcross, rfl⟩ := hv
    · rw [h.first]; rfl
    · rw [h.second hcross]; rfl
  · rw [h.other f i fun hn => hv hn.2]
    exact hi.resolve_left hv

/-- A chunk other than the first one keeps its bytes. -/
theorem Written.getD_of_ne (h : Written f buf offset d d') (hi : i ≠ toInt (offset / CHUNK_SIZE)) :
    (d'.chunk? f i).getD [] = (d.chunk? f i).getD [] := by
  by_cases hv : Visits buf.length offset i
  · obtain ⟨hcross, rfl⟩ := hv.resolve_left hi
    rw [h.second hcross]; rfl
  · rw [h.other f i fun hn => hv hn.2]

theorem Represents.written (H : d.Represents f flat) (h : Written f buf offset d d')
    (hgap : d.ZeroGap f flat.length offset) (hin : offset % CHUNK_SIZE + buf.length ≤ CHUNK_SIZE)
    (hend : (offset + buf.length) / CHUNK_SIZE < 2 ^ 31) :
    d'.Represents f (Vec.store 0 flat offset buf) where
  wf := h.wf
  byte? x hx := by
    rw [Vec.length_store] at hx
    have hdiv : ∀ y ≤ offset + buf.length, y / CHUNK_SIZE < 2 ^ 31 := fun y hy =>
      Nat.lt_of_le_of_lt (Nat.div_le_div_right hy) hend
    rw [DataSink.byte?]
    by_cases hk : x / CHUNK_SIZE = offset / CHUNK_SIZE
    · have hpos := sub_mod_of_div_eq hk
      rw [hk, h.first, Option.getD_some]
      by_cases hmem : offset ≤ x ∧ x < offset + buf.length
      · rw [Vec.getElem?_store_of_mem hmem.1 hmem.2,
          Vec.getElem?_store_of_mem (by omega) (by omega)]
        congr 1; omega
      by_cases hxE : x < flat.length
      · rw [Vec.getElem?_store_of_not_mem hmem hxE, ← hk,
          Vec.getElem?_store_of_not_mem (by omega) (H.lt_length hxE), ← H.byte? x hxE]
        rfl
      · have hlt : x < offset := by omega
        have hgap := hgap x hlt (by omega)
        rw [DataSink.byte?, hk] at hgap
        rw [Vec.getElem?_store, if_neg (by omega), Vec.getElem?_store, if_neg hmem, if_neg hxE,
          if_pos hlt]
        split
        · next hlt =>
          refine hgap.resolve_right ?_
          rintro ⟨hnone, _⟩
          rw [List.getElem?_eq_getElem hlt] at hnone
          cases hnone
        · rw [if_pos (by omega)]
    · have hmem : ¬(offset ≤ x ∧ x < offset + buf.length) := fun ⟨h1, h2⟩ => by
        refine hk ?_
        obtain ⟨i, rfl⟩ := Nat.exists_eq_add_of_le h1
        exact (div_mod_of_add_lt (by omega)).1
      by_cases hxE : x < flat.length
      · rw [h.getD_of_ne fun he => hk (toInt_inj_of_lt (H.div_lt (Nat.le_of_lt hxE))
            (hdiv _ (by omega)) he),
          Vec.getElem?_store_of_not_mem hmem hxE, ← H.byte? x hxE]
        rfl
      · rw [h.getD_of_ne fun he => hk (toInt_inj_of_lt (hdiv _ (by omega)) (hdiv _ (by omega)) he),
          Vec.getElem?_store, if_neg hmem, if_neg hxE, if_pos (by omega)]
        exact (hgap x (by omega) (by omega)).resolve_right fun hn => hk hn.2
  short {i v} hv := by
    have hold : ((d.chunk? f i).getD []).length ≤ CHUNK_SIZE := by
      cases hv : d.chunk? f i with
      | none => exact Nat.zero_le _
      | some v => exact H.short hv
    by_cases hi : i = toInt (offset / CHUNK_SIZE)
    · subst hi
      cases Option.some.inj (h.first.symm.trans hv)
      rw [Vec.length_store]; omega
    · rw [← h.getD_of_ne hi, hv] at hold
      exact hold
  bound := by
    rw [Vec.length_store]
    rcases Nat.le_total flat.length (offset + buf.length) with hle | hle
    · rwa [Nat.max_eq_right hle]
    · rw [Nat.max_eq_left hle]; exact H.bound

/-- A write inside one chunk reaches no further than the chunk after it. -/
theorem div_add_le (hin : offset % CHUNK_SIZE + m ≤ CHUNK_SIZE) (hj : j ≤ (offset + m) / CHUNK_SIZE)
    (hlt : offset / CHUNK_SIZE < j) :
    j = offset / CHUNK_SIZE + 1 ∧ CHUNK_SIZE ≤ offset % CHUNK_SIZE + m := by
  have hmod := Nat.mod_add_div offset CHUNK_SIZE
  have h1 : j * CHUNK_SIZE ≤ offset + m := (Nat.le_div_iff_mul_le CHUNK_SIZE_pos).mp hj
  have h2 : (offset / CHUNK_SIZE + 1) * CHUNK_SIZE ≤ j * CHUNK_SIZE := Nat.mul_le_mul_right _ hlt
  rw [Nat.add_mul, Nat.mul_comm] at h2
  refine ⟨?_, by omega⟩
  by_contra hne
  have h3 : (offset / CHUNK_SIZE + 2) * CHUNK_SIZE ≤ j * CHUNK_SIZE :=
    Nat.mul_le_mul_right _ (by omega)
  have hpos := CHUNK_SIZE_pos
  rw [Nat.add_mul, Nat.mul_comm] at h3
  omega

theorem covers_written (h : Written f buf offset d d')
    (hcov : ∀ j ≤ flat.length / CHUNK_SIZE, j ≠ offset / CHUNK_SIZE → (d.chunk? f (toInt j)).isSome)
    (hgap : d.ZeroGap f flat.length offset) (hin : offset % CHUNK_SIZE + buf.length ≤ CHUNK_SIZE) :
    d'.Covers f (Vec.store 0 flat offset buf) := by
  intro j hj
  rw [Vec.length_store] at hj
  refine h.isSome ?_
  by_cases hk : j = offset / CHUNK_SIZE
  · exact .inl (.inl (congrArg toInt hk))
  by_cases hjE : j ≤ flat.length / CHUNK_SIZE
  · exact .inr (hcov j hjE hk)
  by_cases hjo : j < offset / CHUNK_SIZE
  · exact .inr (hgap.isSome (by omega) hjo)
  · have hj' : j ≤ (offset + buf.length) / CHUNK_SIZE := by
      rcases Nat.le_total flat.length (offset + buf.length) with hle | hle
      · rwa [Nat.max_eq_right hle] at hj
      · rw [Nat.max_eq_left hle] at hj; exact (hjE hj).elim
    obtain ⟨rfl, hcross⟩ := div_add_le hin hj' (by omega)
    exact .inl (.inr ⟨hcross, rfl⟩)

/-! ## `truncate` -/

/-- The array when the chunk of `n` was resized to end there. -/
theorem Represents.resized (H : d.Represents f flat)
    (hdata : d.chunk? f (toInt (n / CHUNK_SIZE)) = some data) (hwf : d'.WF)
    (hchunk : ∀ g j, d'.chunk? g j = if g = f ∧ j = toInt (n / CHUNK_SIZE) then
      some (Vec.resize 0 data (n % CHUNK_SIZE)) else d.chunk? g j)
    (hgap : d.ZeroGap f flat.length n) (hn : n / CHUNK_SIZE < 2 ^ 31) :
    d'.Represents f (Vec.resize 0 flat n) where
  wf := hwf
  byte? x hx := by
    rw [Vec.length_resize] at hx
    have hdiv : x / CHUNK_SIZE < 2 ^ 31 :=
      Nat.lt_of_le_of_lt (Nat.div_le_div_right (Nat.le_of_lt hx)) hn
    -- In the gap the old byte is a zero, or there is none in the chunk that is resized.
    have hold : x / CHUNK_SIZE ≠ n / CHUNK_SIZE ∨ x % CHUNK_SIZE < data.length →
        d.byte? f x = if x < flat.length then flat[x]? else some 0 := by
      intro hx'
      by_cases hxE : x < flat.length
      · rw [if_pos hxE, H.byte? x hxE]
      · rw [if_neg hxE]
        refine (hgap x hx (by omega)).resolve_right ?_
        rintro ⟨hnone, hk⟩
        rw [DataSink.byte?, hk, hdata, Option.getD_some,
          List.getElem?_eq_getElem (hx'.resolve_left fun h => h hk)] at hnone
        cases hnone
    rw [Vec.getElem?_resize, if_pos hx]
    by_cases hk : x / CHUNK_SIZE = n / CHUNK_SIZE
    · have hpos := sub_mod_of_div_eq hk
      rw [DataSink.byte?, hk, hchunk, if_pos ⟨rfl, rfl⟩, Option.getD_some, Vec.getElem?_resize,
        if_pos (by omega)]
      split
      · next hlt =>
        rw [← hold (.inr hlt), DataSink.byte?, hk, hdata, Option.getD_some]
      · next hlt =>
        have hxE : ¬x < flat.length := by
          intro hxE
          have hl := H.lt_length hxE
          rw [hk, hdata] at hl
          exact hlt hl
        rw [if_neg hxE]
    · rw [← hold (.inl hk), DataSink.byte?, hchunk,
        if_neg fun h => hk (toInt_inj_of_lt hdiv hn h.2)]
      rfl
  short {i v} hv := by
    rw [hchunk] at hv
    split at hv
    · cases hv
      rw [Vec.length_resize]; exact Nat.le_of_lt (Nat.mod_lt _ CHUNK_SIZE_pos)
    · exact H.short hv
  bound := by rw [Vec.length_resize]; exact hn

theorem Covers.resized (hcov : d.Covers f flat)
    (hchunk : ∀ g j, d'.chunk? g j = if g = f ∧ j = toInt (n / CHUNK_SIZE) then
      some (Vec.resize 0 data (n % CHUNK_SIZE)) else d.chunk? g j)
    (hgap : d.ZeroGap f flat.length n) : d'.Covers f (Vec.resize 0 flat n) := by
  intro j hj
  rw [Vec.length_resize] at hj
  rw [hchunk]
  split
  · rfl
  · next hne =>
    have hk : j ≠ n / CHUNK_SIZE := fun hk => hne ⟨rfl, congrArg toInt hk⟩
    by_cases hjE : j ≤ flat.length / CHUNK_SIZE
    · exact hcov j hjE
    · exact hgap.isSome (by omega) (by omega)

theorem Represents.truncate (H : d.Represents f flat) (hcov : d.Covers f flat)
    (hn : n ≤ flat.length) :
    ∃ d', truncate P f n m (d, e) = .ok () (d', e) ∧ d'.Represents f (flat.take n) ∧
      d'.Covers f (flat.take n) := by
  have hle : n / CHUNK_SIZE ≤ flat.length / CHUNK_SIZE := Nat.div_le_div_right hn
  obtain ⟨data, hdata⟩ := Option.isSome_iff_exists.mp (hcov _ hle)
  obtain ⟨d', hrun, hwf, hchunk⟩ := truncate_spec (P := P) (m := m) (e := e) H.wf hdata
  have hgap : d.ZeroGap f flat.length n := .of_le hn
  have htake : Vec.resize 0 flat n = flat.take n := by
    rw [Vec.resize, Nat.sub_eq_zero_of_le hn, List.replicate_zero, List.append_nil]
  rw [← htake]
  exact ⟨d', hrun, H.resized hdata hwf hchunk hgap (H.div_lt hn), hcov.resized hchunk hgap⟩

/-! ## `read` -/

theorem Represents.slice_eq (H : d.Represents f flat)
    (hdata : d.chunk? f (toInt (offset / CHUNK_SIZE)) = some data)
    (hin : offset % CHUNK_SIZE + size ≤ CHUNK_SIZE) (hE : offset + size ≤ flat.length) :
    Vec.slice data (offset % CHUNK_SIZE) size = Vec.slice flat offset size := by
  apply List.ext_getElem?
  intro i
  rw [Vec.getElem?_slice, Vec.getElem?_slice]
  split
  · next hi =>
    obtain ⟨hdiv, hmod⟩ := div_mod_of_add_lt (x := offset) (i := i) (by omega)
    rw [← H.byte? (offset + i) (by omega), DataSink.byte?, hdiv, hmod, hdata]
    rfl
  · rfl

/-- The chunk of a position up to the end of the file reaches to that position. -/
theorem Represents.le_length (H : d.Represents f flat) (hcov : d.Covers f flat)
    (hx : x ≤ flat.length) :
    ∃ v, d.chunk? f (toInt (x / CHUNK_SIZE)) = some v ∧ x % CHUNK_SIZE ≤ v.length := by
  obtain ⟨v, hv⟩ := Option.isSome_iff_exists.mp (hcov _ (Nat.div_le_div_right hx))
  refine ⟨v, hv, ?_⟩
  by_cases h0 : x % CHUNK_SIZE = 0
  · rw [h0]; exact Nat.zero_le _
  · have hpred : (x - 1) / CHUNK_SIZE = x / CHUNK_SIZE ∧
        (x - 1) % CHUNK_SIZE = x % CHUNK_SIZE - 1 := by
      have h1 := Nat.mod_add_div x CHUNK_SIZE
      have h2 := Nat.mod_lt x CHUNK_SIZE_pos
      exact (Nat.div_mod_unique CHUNK_SIZE_pos).mpr ⟨by omega, by omega⟩
    have hpos : 0 < x := by
      by_contra hx0
      rw [Nat.eq_zero_of_not_pos hx0, Nat.zero_mod] at h0
      exact h0 rfl
    have hlt := H.lt_length (x := x - 1) (by omega)
    rw [hpred.1, hpred.2, hv, Option.getD_some] at hlt
    omega

/-- The segments of a read inside the file and one chunk are inside cached chunks. -/
theorem Represents.segment_in (H : d.Represents f flat) (hcov : d.Covers f flat)
    (hin : offset % CHUNK_SIZE + size ≤ CHUNK_SIZE) (hE : offset + size ≤ flat.length)
    (hs : s ∈ segments size offset) :
    ∃ v, d.chunk? f (toInt s.count) = some v ∧ s.chunkStart + s.chunkDelta ≤ v.length := by
  have hdiv : (offset + size) / CHUNK_SIZE ≤ flat.length / CHUNK_SIZE := Nat.div_le_div_right hE
  have ho : size + offset < 2 ^ 64 := H.add_lt hE
  rw [segments_of_le (by omega) ho] at hs
  rcases List.mem_cons.mp hs with rfl | hs
  · obtain ⟨v, hv, hle⟩ := H.le_length hcov (x := offset) (by omega)
    refine ⟨v, hv, ?_⟩
    rcases Nat.eq_zero_or_pos size with rfl | hsize
    · exact hle
    · obtain ⟨hd, hm⟩ := div_mod_of_add_lt (x := offset) (i := size - 1) (by omega)
      have hlast := H.lt_length (x := offset + (size - 1)) (by omega)
      rw [hd, hm, hv, Option.getD_some] at hlast
      simp only
      omega
  · split at hs
    · next hcross =>
      cases List.mem_singleton.mp hs
      have hnext : offset / CHUNK_SIZE + 1 ≤ (offset + size) / CHUNK_SIZE := by
        rw [Nat.le_div_iff_mul_le CHUNK_SIZE_pos, Nat.add_mul, Nat.mul_comm]
        have := Nat.mod_add_div offset CHUNK_SIZE
        omega
      obtain ⟨v, hv⟩ := Option.isSome_iff_exists.mp (hcov _ (Nat.le_trans hnext hdiv))
      exact ⟨v, hv, Nat.zero_le _⟩
    · cases hs

/-- A read inside the file and one chunk copies the bytes of the array, whatever the policy. -/
theorem Represents.read (H : d.Represents f flat) (hcov : d.Covers f flat)
    (hin : offset % CHUNK_SIZE + size ≤ CHUNK_SIZE) (hE : offset + size ≤ flat.length)
    (hbuf : size ≤ dest.length) :
    read P f dest size offset (d, e) =
      .ok (Vec.memcpy dest 0 (Vec.slice flat offset size)) (d, e) := by
  have hsegs := fun s => H.segment_in (s := s) hcov hin hE
  have ho : size + offset < 2 ^ 64 := H.add_lt hE
  obtain ⟨data, hdata⟩ := Option.isSome_iff_exists.mp
    (hcov (offset / CHUNK_SIZE) (Nat.div_le_div_right (by omega)))
  refine (copyFrom_read_spec (c := fun s => (d.chunk? f (toInt s.count)).getD []) H.wf
    fun s hs => ?_).trans ?_
  · obtain ⟨v, hv, hle⟩ := hsegs s hs
    refine ⟨by rw [hv]; rfl, by rwa [hv], ?_⟩
    rw [segments_of_le (by omega) ho] at hs
    rcases List.mem_cons.mp hs with rfl | hs
    · simpa using hbuf
    · split at hs
      · cases List.mem_singleton.mp hs; simpa using hbuf
      · cases hs
  · have hslice := H.slice_eq hdata hin hE
    rw [segments_of_le (by omega) ho, List.foldl_cons, hdata, Option.getD_some, hslice]
    split <;> simp [Vec.slice]

/-! ## Runs -/

theorem add_lt_of_div_lt (h : (n + m) / CHUNK_SIZE < 2 ^ 31) : m + n < 2 ^ 64 := by
  rw [Nat.div_lt_iff_lt_mul CHUNK_SIZE_pos, CHUNK_SIZE_eq] at h
  omega

/-- The first write of a file: it makes the chunk that the end of the empty file is in. -/
theorem Represents.write (H : d.Represents f flat)
    (hcov : ∀ j ≤ flat.length / CHUNK_SIZE, j ≠ offset / CHUNK_SIZE → (d.chunk? f (toInt j)).isSome)
    (hadm : (FileOp.write buf offset).Admissible flat) :
    ∃ d', DataSink.write f buf buf.length offset (d, e) = .ok () (d', e) ∧
      d'.Represents f (Vec.store 0 flat offset buf) ∧
      d'.Covers f (Vec.store 0 flat offset buf) := by
  obtain ⟨hoff, hin, hend⟩ := hadm
  obtain ⟨d', hrun, hw⟩ := write_written (f := f) (e := e) H.wf (by omega)
    (add_lt_of_div_lt hend)
  have hgap : d.ZeroGap f flat.length offset := .of_le hoff
  exact ⟨d', hrun, H.written hw hgap hin hend, covers_written hw hcov hgap hin⟩

/-- Each admissible call returns and keeps the relation. -/
theorem Represents.onSink (H : d.Represents f flat) (hcov : d.Covers f flat) {op : FileOp}
    (hadm : op.Admissible flat) :
    ∃ d', op.onSink P f (d, e) = .ok () (d', e) ∧ d'.Represents f (op.onArray flat) ∧
      d'.Covers f (op.onArray flat) := by
  cases op with
  | write buffer offset => exact H.write (fun j hj _ => hcov j hj) hadm
  | truncate newSize oldSize => exact H.truncate (m := oldSize) hcov hadm

theorem Represents.runOps (H : d.Represents f flat) (hcov : d.Covers f flat) {ops : List FileOp}
    (hadm : AdmissibleRun flat ops) :
    ∃ d', runOps P f ops (d, e) = .ok () (d', e) ∧
      d'.Represents f (ops.foldl FileOp.onArray flat) ∧
      d'.Covers f (ops.foldl FileOp.onArray flat) := by
  induction ops generalizing d flat with
  | nil => exact ⟨d, rfl, H, hcov⟩
  | cons op ops ih =>
    obtain ⟨d₁, hrun, H₁, hcov₁⟩ := H.onSink (P := P) (e := e) hcov hadm.1
    obtain ⟨d₂, hrun', H₂, hcov₂⟩ := ih H₁ hcov₁ hadm.2
    exact ⟨d₂, (Exec.bind_of_ok hrun).trans hrun', H₂, hcov₂⟩

/-- The chunk store refines a flat byte array on the runs without gaps: no call of such a run stops,
the chunks before the end are full, and a read inside the file and one chunk finds its chunks and
returns the bytes of the array, without a word to the policy. -/
theorem runOps_refines_array (P : Policy ChunkData σ) (e : σ) (f : Str) {d : DataSink} (H : d.WF)
    (hnone : ∀ i, d.chunk? f i = none) (first : List Byte) (ops : List FileOp)
    (hadm : AdmissibleRun [] (.write first 0 :: ops)) :
    ∃ d', ColonyFS.runOps P f (.write first 0 :: ops) (d, e) = .ok () (d', e) ∧
      (∀ j < ((FileOp.write first 0 :: ops).foldl FileOp.onArray []).length / CHUNK_SIZE,
        ∃ v, d'.chunk? f (toInt j) = some v ∧ v.length = CHUNK_SIZE) ∧
      ∀ (dest : List Byte) (size offset : Nat), 1 ≤ size → offset % CHUNK_SIZE + size ≤ CHUNK_SIZE →
        offset + size ≤ ((FileOp.write first 0 :: ops).foldl FileOp.onArray []).length →
        size ≤ dest.length →
        (∀ s ∈ segments size offset, ∃ v, d'.chunk? f (toInt s.count) = some v ∧
          s.chunkStart + s.chunkDelta ≤ v.length) ∧
        read P f dest size offset (d', e) = .ok (Vec.memcpy dest 0 (Vec.slice
          ((FileOp.write first 0 :: ops).foldl FileOp.onArray []) offset size)) (d', e) := by
  obtain ⟨d₁, hrun, H₁, hcov₁⟩ := (represents_nil H hnone).write (e := e)
    (fun j hj hne => by simp at hj hne; exact (hne hj).elim) hadm.1
  obtain ⟨d₂, hrun', H₂, hcov₂⟩ := H₁.runOps (P := P) (e := e) hcov₁ hadm.2
  refine ⟨d₂, (Exec.bind_of_ok hrun).trans hrun', fun j hj => H₂.full hj, ?_⟩
  intro dest size offset _ hin hE hbuf
  exact ⟨fun s => H₂.segment_in hcov₂ hin hE, H₂.read hcov₂ hin hE hbuf⟩

/-- Three bytes, cut down to one, and one more written behind it. -/
theorem runOps_refines_array_example :
    ∃ d', ColonyFS.runOps ⟨fun _ => throw (.raised .keyMissingError), fun _ => pure (),
          fun _ => pure ()⟩ ['/', 'f'] [.write [1, 2, 3] 0, .truncate 1 3, .write [9] 1]
          (DataSink.empty, ()) = .ok () (d', ()) ∧
      read ⟨fun _ => throw (.raised .keyMissingError), fun _ => pure (), fun _ => pure ()⟩
        ['/', 'f'] [0, 0] 2 0 (d', ()) = .ok [1, 9] (d', ()) := by
  obtain ⟨d', hrun, _, hread⟩ := runOps_refines_array
    ⟨fun _ => throw (.raised .keyMissingError), fun _ => pure (), fun _ => pure ()⟩ () ['/', 'f']
    WF.empty (fun i => chunk?_empty) [1, 2, 3] [.truncate 1 3, .write [9] 1]
    (by simp [AdmissibleRun, FileOp.Admissible, FileOp.onArray, CHUNK_SIZE_eq, Vec.length_store])
  exact ⟨d', hrun, (hread [0, 0] 2 0 (by decide) (by simp [CHUNK_SIZE_eq]) (by decide)
    (by decide)).2⟩

end DataSink

end ColonyFS

import ColonyFS.Fuse.CleanChunks
import ColonyFS.Lib.WriteBack
import ColonyFS.Api.Reads

/-!
# The content of a file, across flushes

The chunk store with the chunk servers behind it is a write-back cache. `Stores` says that the chunks
that count hold an array of bytes. A read, a flush of any file, and whatever happens to other files,
only moves values between cache and servers; a write that leaves no gap and a cut keep the relation
with the new array, if each chunk that is written to is cached, or has no bytes but those written.
-/

namespace ColonyFS

open DataOnFlush (policy)
open WriteBack (KeepsAt Keeps)

namespace DataSink

variable {d d' : DataSink} {net net' : Net} {s s' s₁ : DataSink × Net} {f g : Str} {i j : Int}
  {k : ChunkKey} {p : Ptr} {flat buf dest dest' : List Byte} {n m offset size x : Nat}

/-- The cached chunks in front of the chunk servers. -/
def writeBack (s : DataSink × Net) : WriteBack ChunkKey (List Byte) where
  cached k := s.1.chunk? k.uid k.cuid
  Dirty k := s.1.IsDirty k.uid k.cuid
  stored k := s.2.stored? k

/-- The piece of the array `flat` that belongs in the chunk `k` of `f`. -/
def Piece (f : Str) (flat : List Byte) (k : ChunkKey) (o : Option (List Byte)) : Prop :=
  k.uid = f → ∀ x < flat.length, toInt (x / CHUNK_SIZE) = k.cuid →
    o.bind (·[x % CHUNK_SIZE]?) = flat[x]?

/-- The chunks of `f` hold the array `flat`. -/
structure Stores (f : Str) (flat : List Byte) (s : DataSink × Net) : Prop where
  wf : s.1.WF
  backed : s.2.Backed
  coherent : (writeBack s).Coherent (Piece f flat)
  bound : flat.length < 2 ^ 31

/-- The chunk is cached, or the range has all the bytes that belong in it of a file that ends at
`E`. -/
def Replaces (d : DataSink) (f : Str) (E offset n : Nat) (j : Int) : Prop :=
  (d.chunk? f j).isSome ∨ ∀ x < E, toInt (x / CHUNK_SIZE) = j → offset ≤ x ∧ x < offset + n

instance (d : DataSink) (f : Str) (E offset n : Nat) (j : Int) :
    Decidable (Replaces d f E offset n j) := inferInstanceAs (Decidable (_ ∨ ∀ x < E, _))

theorem marked (H : s.1.WF) : (writeBack s).Marked := by
  intro k hd
  obtain ⟨q, hq⟩ := H.cache.read_of_isDirty hd
  obtain ⟨v, _, hv, _⟩ := getKey_of_read H hq
  exact ⟨v.data, hv⟩

theorem writeBack_view (s : DataSink × Net) (f : Str) (i : Int) :
    bytes s f i = ((writeBack s).view ⟨f, i⟩).getD [] := rfl

/-- An empty file needs no chunks. -/
theorem stores_nil (H : s.1.WF) (hb : s.2.Backed) : Stores f [] s := by
  have hpiece : ∀ k o, Piece f [] k o := by
    intro k o _ x hx
    cases hx
  exact ⟨H, hb, ⟨fun k v _ => hpiece k v, fun k _ => hpiece k _⟩, by simp⟩

/-- The chunks of other files do not matter. -/
theorem Stores.of_keepsAt (H : Stores f flat s) (wf : s'.1.WF) (hb : s'.2.Backed)
    (h : ∀ j, KeepsAt (writeBack s) (writeBack s') ⟨f, j⟩) : Stores f flat s' where
  wf := wf
  backed := hb
  coherent := by
    have hk : ∀ k : ChunkKey, k.uid = f → KeepsAt (writeBack s) (writeBack s') k := by
      rintro ⟨_, j⟩ rfl
      exact h j
    constructor
    · intro k v hv hf
      exact (H.coherent.good_of_keepsAt (marked H.wf) (hk k hf)).1 v hv hf
    · intro k hd hf
      exact (H.coherent.good_of_keepsAt (marked H.wf) (hk k hf)).2 hd hf
  bound := H.bound

/-- The bytes of the array are those of the chunks. -/
theorem Stores.getElem?_bytes (H : Stores f flat s) (hx : x < flat.length) :
    (bytes s f (toInt (x / CHUNK_SIZE)))[x % CHUNK_SIZE]? = flat[x]? := by
  have h := H.coherent.view (marked H.wf) ⟨f, toInt (x / CHUNK_SIZE)⟩ rfl x hx rfl
  rw [writeBack_view]
  cases hv : (writeBack s).view ⟨f, toInt (x / CHUNK_SIZE)⟩ with
  | some v => rw [hv] at h; exact h
  | none =>
    rw [hv, Option.bind_none, List.getElem?_eq_getElem hx] at h
    cases h

/-! ## What moves chunks -/

theorem keeps_fetched (H : d.WF) (hb : net.Backed) (h : Fetched policy d net f i p d' net') :
    net' = net ∧ Keeps (writeBack (d, net)) (writeBack (d', net')) := by
  obtain ⟨rfl, rfl⟩ | ⟨hnone, v, hv, _, hchunk⟩ := h.chunk?_cases H
  · exact ⟨rfl, .refl _⟩
  obtain ⟨rfl, hstored⟩ := DataOnFlush.preRead_ok hb hv
  refine ⟨rfl, ?_⟩
  rintro ⟨g, j⟩
  by_cases hgj : g = f ∧ j = i
  · obtain ⟨rfl, rfl⟩ := hgj
    have hclean : ¬d.IsDirty g j := by
      intro hd
      obtain ⟨v, hv⟩ := marked (s := (d, net')) H ⟨g, j⟩ hd
      cases hnone.symm.trans hv
    refine .fetched hclean (mt h.isDirty.mp hclean) ?_ rfl
    exact ((hchunk g j).trans (if_pos ⟨rfl, rfl⟩)).trans hstored.symm
  · exact .of_eq ((hchunk g j).trans (if_neg hgj)) h.isDirty rfl

theorem keeps_copyFrom (H : d.WF) (hb : net.Backed) {ss : List Segment}
    (h : copyFrom (raiseIfMissing policy) readFromChunk f ss dest (d, net) =
      .ok dest' (d', net')) : net' = net ∧ Keeps (writeBack (d, net)) (writeBack (d', net')) := by
  induction ss generalizing d net dest with
  | nil => cases h; exact ⟨rfl, .refl _⟩
  | cons t ss ih =>
    rw [copyFrom_cons] at h
    obtain ⟨dest₁, ⟨d₁, net₁⟩, hturn, hrest⟩ := Exec.bind_eq_ok.mp h
    obtain ⟨q, _, hf, _⟩ := readTurn_ok DataOnFlush.policy_keepsKey H hturn
    obtain ⟨rfl, hk⟩ := keeps_fetched H hb hf
    obtain ⟨rfl, hk'⟩ := ih (hf.wf H) hb hrest
    exact ⟨rfl, hk.trans hk'⟩

theorem keeps_read (H : s.1.WF) (hb : s.2.Backed)
    (h : DataSink.read policy g dest n offset s = .ok dest' s') :
    s'.1.WF ∧ s'.2 = s.2 ∧ Keeps (writeBack s) (writeBack s') := by
  obtain ⟨d, net⟩ := s
  obtain ⟨d', net'⟩ := s'
  obtain ⟨wf, _, _⟩ := copyFrom_read_bytes H h
  exact ⟨wf, keeps_copyFrom H hb h⟩

theorem WroteAll.keepsAt_of_ne {us : List Store} (h : WroteAll f d us d') (hg : g ≠ f) :
    KeepsAt (writeBack (d, net)) (writeBack (d', net)) ⟨g, j⟩ := by
  induction h with
  | nil => exact .refl _ _
  | cons h _ ih =>
    have hne : ∀ i, ¬(g = f ∧ j = i) := fun i h => hg h.1
    refine KeepsAt.trans ?_ ih
    exact .of_eq ((h.chunk? g j).trans (if_neg (hne _)))
      ((h.isDirty g j).trans (or_iff_right (hne _))) rfl

/-- A write to another file. -/
theorem keepsAt_write (H : s.1.WF) (hg : f ≠ g)
    (h : DataSink.write g buf n offset s = .ok () s') :
    s'.1.WF ∧ s'.2 = s.2 ∧ ∀ j, KeepsAt (writeBack s) (writeBack s') ⟨f, j⟩ := by
  obtain ⟨d, net⟩ := s
  obtain ⟨d', net'⟩ := s'
  obtain ⟨rfl, hw, wf⟩ := write_ok H h
  exact ⟨wf, rfl, fun j => hw.keepsAt_of_ne hg⟩

/-- A cut of another file. -/
theorem keepsAt_truncate (H : s.1.WF) (hb : s.2.Backed) (hg : f ≠ g)
    (h : DataSink.truncate policy g n m s = .ok () s') :
    s'.1.WF ∧ s'.2 = s.2 ∧ ∀ j, KeepsAt (writeBack s) (writeBack s') ⟨f, j⟩ := by
  obtain ⟨d, net⟩ := s
  obtain ⟨d', net'⟩ := s'
  obtain ⟨p, d₁, data, hf, hdata, wf, hchunk, hdirty, _⟩ :=
    truncate_ok DataOnFlush.policy_keepsKey H h
  obtain ⟨rfl, hk⟩ := keeps_fetched H hb hf
  refine ⟨wf, rfl, fun j => (hk ⟨f, j⟩).trans ?_⟩
  refine .of_eq ((hchunk f j).trans (if_neg fun h => hg h.1)) ?_ rfl
  exact (hdirty f j).trans hf.isDirty.symm

/-- `dht_task` writes the dirty chunks of its file back and drops the chunks that are indexed. -/
theorem keeps_flush (H : s.1.WF) (hb : s.2.Backed) (h : invalidate policy g s = .ok () s₁)
    (h' : purge policy g s₁ = .ok () s') :
    s'.1.WF ∧ s'.2.Backed ∧ Keeps (writeBack s) (writeBack s') ∧ ∀ j, ¬s'.1.IsDirty g j := by
  obtain ⟨d, net⟩ := s
  obtain ⟨d₁, net₁, hrun, hi⟩ := invalidate_spec (f := g) (e := net) DataOnFlush.onFlush_spec H
  cases hrun.symm.trans h
  have hb₁ : net₁.Backed := by
    obtain ⟨d₂, _, hexact⟩ := invalidate_exact (P := policy) H g
    have he := hexact net
    rw [h] at he
    obtain ⟨net₂, he, heq⟩ := Option.map_eq_some_iff.mp he.symm
    cases heq
    obtain ⟨_, hflush⟩ := Exec.of_state? he
    exact DataOnFlush.backed_flushEach hb hflush
  obtain ⟨d₂, hrun, hp⟩ := purge_spec (P := policy) (f := g) (e := net₁) (fun _ _ => rfl) hi.wf
  cases hrun.symm.trans h'
  refine ⟨hp.wf, hb₁, ?_, ?_⟩
  case refine_2 =>
    intro j hd
    obtain ⟨hout, hd⟩ := (hp.isDirty g j).mp hd
    rw [hi.index] at hout
    exact hout ⟨rfl, Std.ExtTreeSet.mem_toList.mpr (H.indexed ((hi.isDirty g j).mp hd).2)⟩
  rintro ⟨f, j⟩
  have hchunk : d₂.chunk? f j = if f = g ∧ j ∈ (d.index g).toList then none else d.chunk? f j := by
    rw [hp.chunk?, hi.index, hi.chunk?]
  have hstored : net₁.stored? ⟨f, j⟩ = if (f = g ∧ j ∈ (d.index g).toList) ∧ d.IsDirty f j then
      d.chunk? f j else net.stored? ⟨f, j⟩ := hi.flushed f j
  have hdirty : d₂.IsDirty f j ↔ ¬(f = g ∧ j ∈ (d.index g).toList) ∧ d.IsDirty f j := by
    rw [hp.isDirty, hi.index, hi.isDirty]
    tauto
  by_cases hin : f = g ∧ j ∈ (d.index g).toList
  · rw [if_pos hin] at hchunk
    have hclean : ¬d₂.IsDirty f j := fun h => (hdirty.mp h).1 hin
    by_cases hd : d.IsDirty f j
    · refine .flushed hd (fun v hv => ?_) (fun h => (hclean h).elim) ?_
      · cases hchunk.symm.trans hv
      · exact hstored.trans (if_pos ⟨hin, hd⟩)
    · exact .evicted hd hclean hchunk (hstored.trans (if_neg fun h => hd h.2))
  · rw [if_neg hin] at hchunk
    refine .of_eq hchunk ?_ (hstored.trans (if_neg fun h => hin h.1))
    exact hdirty.trans (and_iff_right hin)

/-! ## What the content of the file becomes -/

theorem toInt_div_inj (hx : x < 2 ^ 31) {y : Nat} (hy : y < 2 ^ 31)
    (h : toInt (x / CHUNK_SIZE) = toInt (y / CHUNK_SIZE)) : x / CHUNK_SIZE = y / CHUNK_SIZE :=
  toInt_inj_of_lt (Nat.lt_of_le_of_lt (Nat.div_le_self _ _) hx)
    (Nat.lt_of_le_of_lt (Nat.div_le_self _ _) hy) h

/-- A byte in the written range belongs in the chunk that the range starts in. -/
theorem div_eq_of_mem (hin : offset % CHUNK_SIZE + n ≤ CHUNK_SIZE) (hx : offset ≤ x)
    (hlt : x < offset + n) :
    x / CHUNK_SIZE = offset / CHUNK_SIZE ∧ x % CHUNK_SIZE = offset % CHUNK_SIZE + (x - offset) := by
  have h := div_mod_of_add_lt (x := offset) (i := x - offset) (by omega)
  rwa [Nat.add_sub_cancel' hx] at h

/-- What a chunk that was written to holds of the new array. -/
theorem Piece.store {v : List Byte} (hoff : offset ≤ flat.length)
    (hend : offset + buf.length < 2 ^ 31)
    (hbound : flat.length < 2 ^ 31) (hk : k = ⟨f, toInt (offset / CHUNK_SIZE)⟩)
    (hold : Piece f flat k (some v) ∨ ∀ x < flat.length, toInt (x / CHUNK_SIZE) = k.cuid →
      offset ≤ x ∧ x < offset + buf.length) :
    Piece f (Vec.store 0 flat offset buf) k (some (Vec.store 0 v (offset % CHUNK_SIZE) buf)) := by
  subst hk
  intro hf x hx hxk
  rw [Vec.length_store] at hx
  have hdiv := toInt_div_inj (y := offset) (by omega) (by omega) hxk
  have hpos := sub_mod_of_div_eq hdiv
  rw [Option.bind_some]
  by_cases hmem : offset ≤ x ∧ x < offset + buf.length
  · rw [Vec.getElem?_store_of_mem hmem.1 hmem.2, Vec.getElem?_store_of_mem (by omega) (by omega)]
    exact congrArg (buf[·]?) (by omega)
  · have hxE : x < flat.length := by omega
    obtain hold | hold := hold
    · have hv := hold hf x hxE hxk
      rw [Option.bind_some] at hv
      have hlt : x % CHUNK_SIZE < v.length := by
        by_contra hge
        rw [List.getElem?_eq_none (by omega), List.getElem?_eq_getElem hxE] at hv
        cases hv
      rw [Vec.getElem?_store_of_not_mem hmem hxE,
        Vec.getElem?_store_of_not_mem (by omega) hlt, hv]
    · exact (hmem (hold x hxE hxk)).elim

/-- The chunks that a write leaves alone. -/
theorem Piece.store_of_ne {o : Option (List Byte)} (hoff : offset ≤ flat.length)
    (hin : offset % CHUNK_SIZE + buf.length ≤ CHUNK_SIZE)
    (hne : k.uid = f → k.cuid ≠ toInt (offset / CHUNK_SIZE)) (h : Piece f flat k o) :
    Piece f (Vec.store 0 flat offset buf) k o := by
  intro hf x hx hxk
  rw [Vec.length_store] at hx
  have hmem : ¬(offset ≤ x ∧ x < offset + buf.length) := by
    rintro ⟨h₁, h₂⟩
    refine hne hf ?_
    rw [← hxk, (div_eq_of_mem hin h₁ h₂).1]
  have hxE : x < flat.length := by omega
  rw [h hf x hxE hxk, Vec.getElem?_store_of_not_mem hmem hxE]

/-- The second chunk that a write visits gets none of its bytes. -/
theorem Piece.store_next {v : List Byte} (hoff : offset ≤ flat.length)
    (hin : offset % CHUNK_SIZE + buf.length ≤ CHUNK_SIZE)
    (hk : k = ⟨f, toInt (offset / CHUNK_SIZE + 1)⟩)
    (hold : Piece f flat k (some v) ∨ ∀ x < flat.length, toInt (x / CHUNK_SIZE) = k.cuid →
      offset ≤ x ∧ x < offset + buf.length) :
    Piece f (Vec.store 0 flat offset buf) k (some v) := by
  subst hk
  have hne := toInt_succ_ne (offset / CHUNK_SIZE)
  refine Piece.store_of_ne hoff hin (fun _ => hne) ?_
  obtain hold | hold := hold
  · exact hold
  · intro _ x hx hxk
    obtain ⟨h₁, h₂⟩ := hold x hx hxk
    rw [(div_eq_of_mem hin h₁ h₂).1] at hxk
    exact (hne hxk.symm).elim

/-- A chunk that a write visits had its piece in it, or loses none. -/
theorem Stores.replaced (H : Stores f flat s) (h : Replaces s.1 f flat.length offset n j) :
    Piece f flat ⟨f, j⟩ (some ((s.1.chunk? f j).getD [])) ∨
      ∀ x < flat.length, toInt (x / CHUNK_SIZE) = j → offset ≤ x ∧ x < offset + n := by
  refine h.imp_left fun h => ?_
  obtain ⟨v, hv⟩ := Option.isSome_iff_exists.mp h
  rw [hv]
  exact H.coherent.cached ⟨f, j⟩ v hv

theorem Stores.write (H : Stores f flat s) (hoff : offset ≤ flat.length)
    (hin : offset % CHUNK_SIZE + buf.length ≤ CHUNK_SIZE) (hend : offset + buf.length < 2 ^ 31)
    (hrep : ∀ j, Visits buf.length offset j →
      Replaces s.1 f flat.length offset buf.length j)
    (h : DataSink.write f buf buf.length offset s = .ok () s') :
    Stores f (Vec.store 0 flat offset buf) s' := by
  obtain ⟨d, net⟩ := s
  obtain ⟨d', net'⟩ := s'
  obtain ⟨rfl, hw, wf⟩ := write_ok H.wf h
  have hwr : Written f buf offset d d' := .of_wroteAll (by omega) (by omega) hw
  refine ⟨wf, H.backed, ?_, ?_⟩
  · refine H.coherent.overwrite (marked H.wf) ?_
    rintro ⟨g, j⟩
    by_cases hv : g = f ∧ Visits buf.length offset j
    · obtain ⟨rfl, hv⟩ := hv
      refine .inr ⟨(hwr.isDirty g j).mpr (.inl ⟨rfl, hv⟩), ?_⟩
      intro v hv'
      have hold := H.replaced (hrep j hv)
      obtain rfl | ⟨hcross, rfl⟩ := hv
      · cases hwr.first.symm.trans hv'
        exact .store hoff hend H.bound rfl hold
      · cases (hwr.second hcross).symm.trans hv'
        exact .store_next hoff hin rfl hold
    · refine .inl ⟨.of_eq (hwr.other g j hv) ?_ rfl, ?_⟩
      · exact (hwr.isDirty g j).trans (or_iff_right hv)
      · intro o ho
        refine ho.store_of_ne hoff hin ?_
        rintro rfl rfl
        exact hv ⟨rfl, .inl rfl⟩
  · rw [Vec.length_store]
    have := H.bound
    omega

theorem Stores.write_of_ne (H : Stores f flat s) (hg : g ≠ f)
    (h : DataSink.write g buf n offset s = .ok () s') : Stores f flat s' := by
  obtain ⟨wf, hnet, hk⟩ := keepsAt_write H.wf hg.symm h
  exact H.of_keepsAt wf (hnet ▸ H.backed) hk

/-- A cut. The chunk of the new end is cut in place, and stays as it is on the servers. -/
theorem Stores.truncate (H : Stores f flat s) (hn : n ≤ flat.length)
    (h : DataSink.truncate policy f n m s = .ok () s') : Stores f (flat.take n) s' := by
  obtain ⟨d, net⟩ := s
  obtain ⟨d', net'⟩ := s'
  obtain ⟨p, d₁, data, hf, hdata, wf, hchunk, hdirty, _⟩ :=
    truncate_ok DataOnFlush.policy_keepsKey H.wf h
  obtain ⟨rfl, hk⟩ := keeps_fetched H.wf H.backed hf
  have H₁ := H.coherent.keeps (marked H.wf) hk
  have hlen : (flat.take n).length = n := by rw [List.length_take]; omega
  have himp : ∀ k o, Piece f flat k o → Piece f (flat.take n) k o := by
    intro k o ho hkf x hx hxk
    rw [hlen] at hx
    rw [ho hkf x (by omega) hxk, List.getElem?_take, if_pos hx]
  refine ⟨wf, H.backed, ⟨?_, ?_⟩, ?_⟩
  · rintro ⟨g, j⟩ v hv
    have hnew := (hchunk g j).symm.trans hv
    split at hnew
    · next hgj =>
      obtain ⟨rfl, rfl⟩ := hgj
      cases hnew
      intro _ x hx hxk
      have hold := himp _ _ (H₁.cached ⟨g, toInt (n / CHUNK_SIZE)⟩ data hdata) rfl x hx hxk
      rw [hlen] at hx
      have hdiv := toInt_div_inj (by have := H.bound; omega) (by have := H.bound; omega) hxk
      have hpos := sub_mod_of_div_eq hdiv
      rw [Option.bind_some] at hold ⊢
      rw [Vec.getElem?_resize, if_pos (by omega), if_pos, hold]
      by_contra hge
      rw [List.getElem?_eq_none (by omega), List.getElem?_eq_getElem (by omega)] at hold
      cases hold
    · exact himp _ _ (H₁.cached ⟨g, j⟩ v hnew)
  · intro k hd
    refine himp _ _ (H₁.stored k ?_)
    intro hd₁
    exact hd ((hdirty k.uid k.cuid).mpr (hf.isDirty.mp hd₁))
  · have := H.bound
    omega

theorem Stores.truncate_of_ne (H : Stores f flat s) (hg : g ≠ f)
    (h : DataSink.truncate policy g n m s = .ok () s') : Stores f flat s' := by
  obtain ⟨wf, hnet, hk⟩ := keepsAt_truncate H.wf H.backed hg.symm h
  exact H.of_keepsAt wf (hnet ▸ H.backed) hk

theorem Stores.flush (H : Stores f flat s) (h : invalidate policy g s = .ok () s₁)
    (h' : purge policy g s₁ = .ok () s') : Stores f flat s' := by
  obtain ⟨wf, hb, hk, _⟩ := keeps_flush H.wf H.backed h h'
  exact H.of_keepsAt wf hb fun j => hk ⟨f, j⟩

/-- A read of any file keeps the array. -/
theorem Stores.read (H : Stores f flat s) (h : DataSink.read policy g dest n offset s = .ok dest' s') :
    Stores f flat s' := by
  obtain ⟨wf, hnet, hk⟩ := keeps_read H.wf H.backed h
  exact H.of_keepsAt wf (hnet ▸ H.backed) fun j => hk ⟨f, j⟩

theorem Stores.slice_eq (H : Stores f flat s) (hin : offset % CHUNK_SIZE + n ≤ CHUNK_SIZE)
    (hE : offset + n ≤ flat.length) :
    Vec.slice (bytes s f (toInt (offset / CHUNK_SIZE))) (offset % CHUNK_SIZE) n =
      Vec.slice flat offset n := by
  apply List.ext_getElem?
  intro i
  rw [Vec.getElem?_slice, Vec.getElem?_slice]
  split
  · next hi =>
    obtain ⟨hdiv, hmod⟩ := div_mod_of_add_lt (x := offset) (i := i) (by omega)
    rw [← H.getElem?_bytes (x := offset + i) (by omega), hdiv, hmod]
  · rfl

/-- A read inside the file and one chunk copies the bytes of the array. -/
theorem Stores.read_eq (H : Stores f flat s) (hin : offset % CHUNK_SIZE + n ≤ CHUNK_SIZE)
    (hE : offset + n ≤ flat.length)
    (h : DataSink.read policy f dest n offset s = .ok dest' s') :
    dest' = Vec.memcpy dest 0 (Vec.slice flat offset n) := by
  obtain ⟨d, net⟩ := s
  obtain ⟨d', net'⟩ := s'
  obtain ⟨_, _, rfl⟩ := copyFrom_read_bytes H.wf h
  have hbound := H.bound
  rw [segments_of_le (by omega) (by omega), List.foldl_cons, H.slice_eq hin hE]
  split <;> simp [Vec.slice]

/-- A chunk with bytes of the file can be had if it is cached or its mutex is free. -/
theorem Stores.obtain?_iff (H : Stores f flat s) (hx : x < flat.length) :
    (∃ data ∈ obtain? (fun _ => true) s f (toInt (x / CHUNK_SIZE)), x % CHUNK_SIZE < data.length) ↔
      (s.1.chunk? f (toInt (x / CHUNK_SIZE))).isSome ∨
        ⟨f, toInt (x / CHUNK_SIZE)⟩ ∉ s.1.cache.cv := by
  obtain ⟨d, net⟩ := s
  have hlen : ∀ data, Piece f flat ⟨f, toInt (x / CHUNK_SIZE)⟩ (some data) →
      x % CHUNK_SIZE < data.length := by
    intro data h
    have h := h rfl x hx rfl
    by_contra hge
    rw [Option.bind_some, List.getElem?_eq_none (by omega), List.getElem?_eq_getElem hx] at h
    cases h
  cases hc : d.chunk? f (toInt (x / CHUNK_SIZE)) with
  | some data =>
    refine iff_of_true ⟨data, obtain?_of_chunk? hc, ?_⟩ (.inl rfl)
    exact hlen data (H.coherent.cached ⟨f, toInt (x / CHUNK_SIZE)⟩ data hc)
  | none =>
    have hclean : ¬d.IsDirty f (toInt (x / CHUNK_SIZE)) := by
      intro hd
      obtain ⟨v, hv⟩ := marked (s := (d, net)) H.wf ⟨f, toInt (x / CHUNK_SIZE)⟩ hd
      cases hc.symm.trans hv
    have hstored : Piece f flat _ (net.stored? ⟨f, toInt (x / CHUNK_SIZE)⟩) :=
      H.coherent.stored ⟨f, toInt (x / CHUNK_SIZE)⟩ hclean
    constructor
    · rintro ⟨data, hdata, _⟩
      refine .inr fun hcv => ?_
      rw [obtain?, hc] at hdata
      dsimp only at hdata
      rw [if_pos hcv] at hdata
      cases hdata
    · rintro (h | hcv)
      · cases h
      rw [obtain?_of_missing hc hcv]
      cases hs : net.stored? ⟨f, toInt (x / CHUNK_SIZE)⟩ with
      | none =>
        have h := hstored rfl x hx rfl
        rw [hs, Option.bind_none, List.getElem?_eq_getElem hx] at h
        cases h
      | some data =>
        obtain ⟨host, hloc, hd⟩ := Option.bind_eq_some_iff.mp hs
        rw [hloc, Option.map_some, if_pos rfl, hd]
        exact ⟨data, rfl, hlen data (hs ▸ hstored)⟩

/-- A read of some bytes of the file, all of them before the end of their chunk, returns if and only
if the chunk is cached or its mutex is free. -/
theorem Stores.read_returns_iff (H : Stores f flat s) (hn : 0 < n)
    (hin : offset % CHUNK_SIZE + n < CHUNK_SIZE) (hE : offset + n ≤ flat.length)
    (hdest : n ≤ dest.length) :
    (∃ dest' s', DataSink.read policy f dest n offset s = .ok dest' s') ↔
      (s.1.chunk? f (toInt (offset / CHUNK_SIZE))).isSome ∨
        ⟨f, toInt (offset / CHUNK_SIZE)⟩ ∉ s.1.cache.cv := by
  have hlast := div_mod_of_add_lt (x := offset) (i := n - 1) (by omega)
  have hbound := H.bound
  have hsucc : offset % CHUNK_SIZE + n = offset % CHUNK_SIZE + (n - 1) + 1 := by omega
  have hiff := H.obtain?_iff (x := offset + (n - 1)) (by omega)
  rw [hlast.1, hlast.2] at hiff
  obtain ⟨d, net⟩ := s
  rw [DataSink.read_policy_returns_iff H.wf, ← hiff, segments_of_le (by omega) (by omega),
    if_neg (by omega), List.forall_mem_singleton, Served]
  dsimp only
  rw [and_iff_right (by omega), hsucc]
  exact exists_congr fun data => and_congr_right fun _ => Nat.succ_le_iff

/-! ## What holds of any store -/

/-- The cache is well formed, and what the DHT locates is there. -/
structure Sane (s : DataSink × Net) : Prop where
  wf : s.1.WF
  backed : s.2.Backed

theorem Sane.write (H : Sane s) (h : DataSink.write f buf n offset s = .ok () s') : Sane s' := by
  obtain ⟨d', net'⟩ := s'
  obtain ⟨rfl, _, wf⟩ := write_ok H.wf h
  exact ⟨wf, H.backed⟩

theorem Sane.read (H : Sane s) (h : DataSink.read policy f dest n offset s = .ok dest' s') :
    Sane s' := by
  obtain ⟨wf, hnet, _⟩ := keeps_read H.wf H.backed h
  exact ⟨wf, hnet ▸ H.backed⟩

theorem Sane.truncate (H : Sane s) (h : DataSink.truncate policy f n m s = .ok () s') :
    Sane s' := by
  obtain ⟨d', net'⟩ := s'
  obtain ⟨_, _, _, hf, _, wf, _⟩ := truncate_ok DataOnFlush.policy_keepsKey H.wf h
  obtain ⟨rfl, _⟩ := keeps_fetched H.wf H.backed hf
  exact ⟨wf, H.backed⟩

theorem Sane.flush (H : Sane s) (h : invalidate policy f s = .ok () s₁)
    (h' : purge policy f s₁ = .ok () s') : Sane s' := by
  obtain ⟨wf, hb, _, _⟩ := keeps_flush H.wf H.backed h h'
  exact ⟨wf, hb⟩

end DataSink

end ColonyFS

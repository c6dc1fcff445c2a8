import ColonyFS.Api.FlatFile
import ColonyFS.Fuse.DataCalls

/-!
# Bytes that were never written

A client works on a new file and flushes nothing. A request past the end of the file leaves a gap,
of which it fills with zeros what is in its own chunk. The rest of the gap stays as it is: a chunk
that is not there, a chunk that ends early, the bytes that a `truncate` left behind.
-/

namespace ColonyFS

open Function
open Machine

/-- A chunk that the servers do not have was cached. -/
theorem DataSink.Fetched.of_missing {d d' : DataSink} {net net' : Net} {f : Str} {i : Int} {p : Ptr}
    (h : Fetched DataOnFlush.policy d net f i p d' net') (hloc : net.location ⟨f, i⟩ = none) :
    d' = d ∧ net' = net := by
  cases h with
  | hit => exact ⟨rfl, rfl⟩
  | miss _ _ hv => cases (DataOnFlush.preRead_missing hloc).symm.trans hv

/-- A `read` of one byte of a file that is in the cache only. -/
theorem DataSink.byte?_of_read {d d' : DataSink} {net net' : Net} {f : Str} {x : Nat}
    {dest dest' : List Byte} (H : d.WF) (hloc : ∀ i, net.location ⟨f, i⟩ = none)
    (hx : 1 + x < 2 ^ 64)
    (h : read DataOnFlush.policy f dest 1 x (d, net) = .ok dest' (d', net')) :
    ∃ b, d.byte? f x = some b ∧ dest'[0]? = some b := by
  have hpos : 1 ≤ CHUNK_SIZE := CHUNK_SIZE_pos
  rw [read, copy, segments_of_le hpos hx, copyFrom_cons] at h
  obtain ⟨dest₁, ⟨d₁, net₁⟩, hturn, hrest⟩ := Exec.bind_eq_ok.mp h
  obtain ⟨p, data, hf, hdata, hin, hout, rfl⟩ := readTurn_ok DataOnFlush.policy_keepsKey H hturn
  obtain ⟨rfl, rfl⟩ := hf.of_missing (hloc _)
  have hlt : x % CHUNK_SIZE < data.length := hin
  have hout : 0 + 1 ≤ dest.length := hout
  have hbyte : d₁.byte? f x = some data[x % CHUNK_SIZE] := by
    rw [byte?, hdata, Option.getD_some, List.getElem?_eq_getElem hlt]
  have hlen : (Vec.slice data (x % CHUNK_SIZE) 1).length = 1 := by
    rw [Vec.length_slice]
    omega
  have hfirst : (Vec.memcpy dest 0 (Vec.slice data (x % CHUNK_SIZE) 1))[0]? =
      some data[x % CHUNK_SIZE] := by
    rw [Vec.getElem?_memcpy (by omega), if_pos (by omega), Vec.getElem?_slice, if_pos (by omega),
      Nat.sub_zero, Nat.add_zero, List.getElem?_eq_getElem hlt]
  refine ⟨_, hbyte, ?_⟩
  split at hrest
  · rw [copyFrom_cons] at hrest
    obtain ⟨dest₂, ⟨d₂, net₂⟩, hturn, hrest⟩ := Exec.bind_eq_ok.mp hrest
    obtain ⟨_, data₂, _, _, _, _, rfl⟩ := readTurn_ok DataOnFlush.policy_keepsKey H hturn
    cases hrest
    have hnil : Vec.slice data₂ 0 0 = [] := by simp [Vec.slice]
    rw [hnil, Vec.memcpy_nil]
    exact hfirst
  · cases hrest
    exact hfirst

/-- The requests that change the content of a file. -/
inductive Edit where
  | write (buffer : List Byte) (offset : Nat)
  | truncate (length : Int)

namespace Edit

def act (f : Str) : Edit → Act
  | write buffer offset => .write f buffer buffer.length offset
  | truncate length => .truncate f length

/-- The request is inside one chunk and ends below `2 ^ 31`. -/
def Small : Edit → Prop
  | write buffer offset => offset % CHUNK_SIZE + buffer.length ≤ CHUNK_SIZE ∧
      offset + buffer.length < 2 ^ 31
  | truncate length => length < 2 ^ 31

instance : (e : Edit) → Decidable e.Small
  | write .. => inferInstanceAs (Decidable (_ ∧ _))
  | truncate _ => inferInstanceAs (Decidable (_ < _))

/-- Where the bytes of the file come from the request, or end. -/
def start : Edit → Nat
  | write _ offset => offset
  | truncate length => length.toNat

/-- The positions that a write has stored since they were last cut off. A negative length is
rejected. -/
def stored (W : Set Nat) : Edit → Set Nat
  | write buffer offset => W ∪ Set.Ico offset (offset + buffer.length)
  | truncate length => {x ∈ W | length < 0 ∨ (x : Int) < length}

end Edit

/-- A client, and the positions of the file that a write has stored. -/
structure Editing (δ : Type) where
  fs : Fs δ Net
  stored : Set Nat

namespace Fs

variable {δ : Type} [BinaryArchive Instruction]

/-- `st_size` of the cached attribute. -/
def size (c : Fs δ Net) (f : Str) : Nat := ((c.cached f).map fun a => a.stbuf.size.toNat).getD 0

def editStep [BinaryArchive Fattribute.Record] (dht : Dht δ) (process : Process) (f : Str)
    (s : Editing δ) (e : Edit) : Option (Editing δ) :=
  (step dht DataOnFlush.policy process s.fs (e.act f)).map fun c => ⟨c, e.stored s.stored⟩

/-- What the request does not fill in of the gap before it holds zero bytes. -/
def GapZero (f : Str) (s : Editing δ) (e : Edit) : Prop :=
  s.fs.dataSink.ZeroGap f (s.fs.size f) e.start

instance (f : Str) (s : Editing δ) (e : Edit) : Decidable (GapZero f s e) :=
  inferInstanceAs (Decidable (DataSink.ZeroGap ..))

/-- Every `read` inside one chunk and inside `st_size` returns, and the bytes that no write has
stored are zeros. -/
def ReadsZeros [BinaryArchive Fattribute.Record] (dht : Dht δ) (f : Str) (s : Editing δ) : Prop :=
  ∃ a ∈ attr? dht s.fs f, ∀ (buffer : List Byte) (size offset : Nat),
    offset % CHUNK_SIZE + size ≤ CHUNK_SIZE → ((offset + size : Nat) : Int) ≤ a.stbuf.size →
    size ≤ buffer.length → ∃ buffer' c',
      read dht DataOnFlush.policy f buffer size offset s.fs = .ok (size, buffer') c' ∧
      ∀ i < size, offset + i ∉ s.stored → buffer'[i]? = some 0

/-- A client and chunk servers to which `f` is new. -/
structure NewFile (c : Fs δ Net) (f : Str) : Prop where
  wf : c.WF
  sink : c.dataSink.WF
  attr : c.cached f = none
  chunk? : ∀ i, c.dataSink.chunk? f i = none
  location : ∀ i, c.chunkservers.location ⟨f, i⟩ = none

/-- The file is the array `flat`, all in the cache, with zeros wherever nothing was stored. -/
structure Holds (f : Str) (s : Editing δ) (flat : List Byte) : Prop where
  wf : s.fs.WF
  attr : ∃ a, s.fs.cached f = some a ∧ a.stbuf.size = flat.length
  bound : flat.length < 2 ^ 31
  represents : s.fs.dataSink.Represents f flat
  covers : s.fs.dataSink.Covers f flat
  location : ∀ i, s.fs.chunkservers.location ⟨f, i⟩ = none
  zero : ∀ x < flat.length, x ∉ s.stored → flat[x]? = some 0
  stored : ∀ x ∈ s.stored, x < flat.length

variable {dht : Dht δ} {process : Process} {f : Str} {c c' c₀ : Fs δ Net} {s s' : Editing δ}
  {a : Fattribute} {flat buffer : List Byte} {offset : Nat} {length : Int}

theorem Holds.size (H : Holds f s flat) : s.fs.size f = flat.length := by
  obtain ⟨a, ha, hsize⟩ := H.attr
  rw [Fs.size, ha, Option.map_some, Option.getD_some, hsize, Int.toNat_natCast]

/-! ## What the requests do -/

/-- `write` stores its bytes and moves the end of the file, if it reaches past it. -/
theorem write_effect (H : c.WF) (Hd : c.dataSink.WF) (ha : c.cached f = some a)
    (hs : buffer.length ≤ CHUNK_SIZE) (ho : buffer.length + offset < 2 ^ 64) {r : Int}
    (h : write f buffer buffer.length offset c = .ok r c') :
    c'.WF ∧ DataSink.Written f buffer offset c.dataSink c'.dataSink ∧
      c'.chunkservers = c.chunkservers ∧
      ∃ b, c'.cached f = some b ∧
        b.stbuf.size = max a.stbuf.size (toInt (offset + buffer.length)) := by
  obtain ⟨d', hrun, hw⟩ := DataSink.write_written (f := f) (e := c.chunkservers) Hd hs ho
  have hdata : c'.data = (d', c.chunkservers) :=
    (EStateM.Result.ok.inj ((write_data h).symm.trans hrun)).2
  obtain ⟨hsink, hnet⟩ := Prod.mk.inj hdata
  obtain ⟨wf, hattr⟩ := write_attr H ha h
  exact ⟨wf, hsink.symm ▸ hw, hnet, hattr⟩

/-- `create` makes an empty file, with a first chunk if there is none. -/
theorem create_effect {mode : UInt32} {now : Timespec} (H : c.WF) (Hd : c.dataSink.WF)
    (hnone : c.cached f = none) (h : create process f mode now c = .ok 0 c') :
    c'.WF ∧ DataSink.Written f [] 0 c.dataSink c'.dataSink ∧ c'.chunkservers = c.chunkservers ∧
      ∃ a, c'.cached f = some a ∧ a.stbuf.size = 0 := by
  rw [create] at h
  split at h
  · cases h
  obtain ⟨c₁, h₁, H₁⟩ := edit_spec H f fun a => { a with
    stbuf := { a.stbuf with
      mode := S_IFREG ||| mode, nlink := 1, uid := process.uid, gid := process.gid
      blksize := CHUNK_SIZE, mtim := now } }
  obtain ⟨c₂, h₂, H₂⟩ := edit_spec H₁.wf (Paths.parentPath f)
    fun a => { a with list := a.list ++ [Paths.filename f] }
  have hsink : c₂.dataSink = c.dataSink := by rw [H₂.eq, H₁.eq]
  have hnet : c₂.chunkservers = c.chunkservers := by rw [H₂.eq, H₁.eq]
  have Hd₂ : c₂.dataSink.WF := hsink.symm ▸ Hd
  obtain ⟨d', hrun, hw⟩ : ∃ d', DataSink.write f [] ([] : List Byte).length 0 c₂.data =
      .ok () (d', c₂.chunkservers) ∧ DataSink.Written f [] 0 c₂.dataSink d' :=
    DataSink.write_written Hd₂ (Nat.zero_le _) (by decide)
  rw [List.length_nil] at hrun
  rw [Exec.bind_of_ok h₁, Exec.bind_of_ok h₂, Exec.bind_of_ok (onData_ok hrun)] at h
  cases h
  refine ⟨H₂.wf, hsink ▸ hw, hnet, ?_⟩
  have ha : c₂.cached f = _ := congrFun H₂.cached f
  rw [H₁.cached, hnone, Option.getD_none] at ha
  by_cases hp : f = Paths.parentPath f
  · rw [← hp, update_self, update_self] at ha
    exact ⟨_, ha, rfl⟩
  · rw [update_of_ne hp, update_self] at ha
    exact ⟨_, ha, rfl⟩

/-- `truncate` resizes the chunk of the new end, which has to be cached when the servers have
nothing. -/
theorem truncate_effect (H : c.WF) (Hd : c.dataSink.WF) (ha : c.cached f = some a)
    (hloc : ∀ i, c.chunkservers.location ⟨f, i⟩ = none) {r : Int}
    (h : truncate DataOnFlush.policy f length c = .ok r c') :
    (length < 0 ∧ c' = c) ∨ ¬length < 0 ∧ c'.WF ∧
      (∃ data, c.dataSink.chunk? f (toInt (toSizeT length / CHUNK_SIZE)) = some data ∧
        c'.dataSink.WF ∧ ∀ g j, c'.dataSink.chunk? g j =
          if g = f ∧ j = toInt (toSizeT length / CHUNK_SIZE) then
            some (Vec.resize 0 data (toSizeT length % CHUNK_SIZE)) else c.dataSink.chunk? g j) ∧
      c'.chunkservers = c.chunkservers ∧
      ∃ b, c'.cached f = some b ∧ b.stbuf.size = length := by
  obtain ⟨hlen, rfl⟩ | ⟨hlen, m, hdata⟩ := truncate_data DataOnFlush.policy_noLookupE h
  · exact .inl ⟨hlen, rfl⟩
  obtain ⟨p, d₁, data, hf, hchunk, wf, hchunk', _⟩ :=
    DataSink.truncate_ok DataOnFlush.policy_keepsKey Hd hdata
  obtain ⟨rfl, hnet⟩ := hf.of_missing (hloc _)
  obtain ⟨hlen', _⟩ | ⟨_, wf', hattr⟩ := truncate_attr DataOnFlush.policy_noLookupE H ha h
  · exact (hlen hlen').elim
  · exact .inr ⟨hlen, wf', ⟨data, hchunk, wf, hchunk'⟩, hnet, hattr⟩

/-- `read` inside `st_size` is the `read` of the chunk store. -/
theorem read_eq [BinaryArchive Fattribute.Record] {size E : Nat} (ha : c.cached f = some a)
    (hsize : a.stbuf.size = E)
    (hE : offset + size ≤ E) (hb : E < 2 ^ 31) :
    read dht DataOnFlush.policy f buffer size offset c = (do
      let buffer ← onData (DataSink.read DataOnFlush.policy f buffer size offset)
      return ((size : Int), buffer)) c := by
  rw [read, bind_metadataOf ha, hsize, toSizeT_natCast (by omega), if_neg (by omega),
    if_neg (by omega), toInt_of_lt (by omega)]

/-! ## A run -/

theorem holds_of_create {mode : UInt32} {now : Timespec} (hnew : NewFile c₀ f)
    (h : create process f mode now c₀ = .ok 0 c) : Holds f ⟨c, ∅⟩ [] := by
  obtain ⟨wf, hw, hnet, a, ha, hsize⟩ := create_effect hnew.wf hnew.sink hnew.attr h
  have H := DataSink.represents_nil hnew.sink hnew.chunk?
  have hgap : c₀.dataSink.ZeroGap f ([] : List Byte).length 0 := .of_le (Nat.le_refl _)
  have hin : 0 % CHUNK_SIZE + ([] : List Byte).length ≤ CHUNK_SIZE := by
    rw [Nat.zero_mod]
    exact Nat.zero_le _
  refine ⟨wf, ⟨a, ha, hsize⟩, by decide, ?_, ?_, ?_, fun x hx => ?_, fun x hx => hx.elim⟩
  · exact H.written hw hgap hin (by simp)
  · refine DataSink.covers_written hw ?_ hgap hin
    intro j hj hne
    exact (hne (Nat.le_antisymm hj (by simp))).elim
  · intro i
    exact hnet ▸ hnew.location i
  · cases hx

omit [BinaryArchive Instruction] in
/-- The `st_size` of a file that was written to. -/
theorem max_size (hs : offset + buffer.length < 2 ^ 31) :
    max (flat.length : Int) (toInt (offset + buffer.length)) =
      (Vec.store 0 flat offset buffer).length := by
  rw [toInt_of_lt hs, Vec.length_store]
  omega

theorem Holds.write (H : Holds f s flat) (hsmall : (Edit.write buffer offset).Small)
    (hgap : s.fs.dataSink.ZeroGap f flat.length offset) {r : Int}
    (h : write f buffer buffer.length offset s.fs = .ok r c) :
    Holds f ⟨c, (Edit.write buffer offset).stored s.stored⟩ (Vec.store 0 flat offset buffer) := by
  obtain ⟨hin, hend⟩ := hsmall
  obtain ⟨a, ha, hsize⟩ := H.attr
  have hle : buffer.length ≤ CHUNK_SIZE := Nat.le_of_add_left_le hin
  obtain ⟨wf, hw, hnet, b, hb, hbsize⟩ :=
    write_effect H.wf H.represents.wf ha hle (by omega) h
  have hbound := H.bound
  refine ⟨wf, ⟨b, hb, ?_⟩, ?_, ?_, ?_, ?_, ?_, ?_⟩
  · rw [hbsize, hsize, max_size hend]
  · rw [Vec.length_store]
    omega
  · exact H.represents.written hw hgap hin (Nat.lt_of_le_of_lt (Nat.div_le_self _ _) hend)
  · exact DataSink.covers_written hw (fun j hj _ => H.covers j hj) hgap hin
  · intro i
    exact hnet ▸ H.location i
  · intro x hx hno
    simp only [Edit.stored, Set.mem_union, Set.mem_Ico, not_or] at hno
    rw [Vec.length_store] at hx
    rw [Vec.getElem?_store, if_neg hno.2]
    split
    · next hxE => exact H.zero x hxE hno.1
    · rw [if_pos (by omega)]
  · intro x hx
    rw [Vec.length_store]
    obtain hx | hx := hx
    · have := H.stored x hx
      omega
    · have := hx.2
      omega

theorem Holds.truncate (H : Holds f s flat) (hsmall : (Edit.truncate length).Small)
    (hgap : s.fs.dataSink.ZeroGap f flat.length (Edit.truncate length).start) {r : Int}
    (h : truncate DataOnFlush.policy f length s.fs = .ok r c) :
    ∃ flat', Holds f ⟨c, (Edit.truncate length).stored s.stored⟩ flat' := by
  obtain ⟨a, ha, hsize⟩ := H.attr
  obtain ⟨hlen, rfl⟩ | ⟨hlen, wf, ⟨data, hdata, Hd, hchunk⟩, hnet, b, hb, hbsize⟩ :=
    truncate_effect H.wf H.represents.wf ha H.location h
  · refine ⟨flat, { H with zero := ?_, stored := ?_ }⟩
    · intro x hx hno
      exact H.zero x hx fun hmem => hno ⟨hmem, .inl hlen⟩
    · rintro x ⟨hx, _⟩
      exact H.stored x hx
  · obtain ⟨n, rfl⟩ := Int.eq_ofNat_of_zero_le (Int.not_lt.mp hlen)
    have hn : n < 2 ^ 31 := Int.ofNat_lt.mp hsmall
    have hgap : s.fs.dataSink.ZeroGap f flat.length n := hgap
    rw [toSizeT_natCast (by omega)] at hdata hchunk
    refine ⟨Vec.resize 0 flat n, wf, ⟨b, hb, ?_⟩, ?_, ?_, ?_, ?_, ?_, ?_⟩
    · rw [hbsize, Vec.length_resize]
    · rwa [Vec.length_resize]
    · exact H.represents.resized hdata Hd hchunk hgap
        (Nat.lt_of_le_of_lt (Nat.div_le_self _ _) hn)
    · exact H.covers.resized hchunk hgap
    · intro i
      exact hnet ▸ H.location i
    · intro x hx hno
      rw [Vec.length_resize] at hx
      rw [Vec.getElem?_resize, if_pos hx]
      split
      · next hxE =>
        exact H.zero x hxE fun hmem => hno ⟨hmem, .inr (Int.ofNat_lt.mpr hx)⟩
      · rfl
    · rintro x ⟨_, hx⟩
      rw [Vec.length_resize]
      exact Int.ofNat_lt.mp (hx.resolve_left hlen)

/-- A request over a gap of zeros. -/
theorem Holds.edit [BinaryArchive Fattribute.Record] {e : Edit} (H : Holds f s flat) (he : e.Small)
    (hgap : GapZero f s e)
    (hs : editStep dht process f s e = some s') : ∃ flat', Holds f s' flat' := by
  obtain ⟨c, hstep, rfl⟩ := Option.map_eq_some_iff.mp hs
  rw [GapZero, H.size] at hgap
  cases e with
  | write buffer offset =>
    have hstep : after (Fs.write f buffer buffer.length offset) s.fs = some c := hstep
    obtain ⟨r, hr⟩ := after_eq_some.mp hstep
    exact ⟨_, H.write he hgap hr⟩
  | truncate length =>
    have hstep : after (Fs.truncate DataOnFlush.policy f length) s.fs = some c := hstep
    obtain ⟨r, hr⟩ := after_eq_some.mp hstep
    exact H.truncate he hgap hr

/-- What a request leaves in the gap before it. -/
structure Gapped (f : Str) (s : Editing δ) (E n : Nat) (s' : Editing δ) : Prop where
  sink : s'.fs.dataSink.WF
  location : ∀ i, s'.fs.chunkservers.location ⟨f, i⟩ = none
  attr : ∃ a E', s'.fs.cached f = some a ∧ a.stbuf.size = (E' : Nat) ∧ n ≤ E' ∧ E' < 2 ^ 31
  stored : ∀ x < n, E ≤ x → x ∉ s'.stored
  byte? : ∀ x < n, ∀ b, s'.fs.dataSink.byte? f x = some b → s.fs.dataSink.byte? f x = some b ∨
    s.fs.dataSink.byte? f x = none ∧ x / CHUNK_SIZE = n / CHUNK_SIZE

theorem Holds.gapped_write (H : Holds f s flat) (hsmall : (Edit.write buffer offset).Small)
    {r : Int}
    (h : Fs.write f buffer buffer.length offset s.fs = .ok r c) :
    Gapped f s flat.length offset ⟨c, (Edit.write buffer offset).stored s.stored⟩ := by
  obtain ⟨hin, hend⟩ := hsmall
  obtain ⟨a, ha, hsize⟩ := H.attr
  have hle : buffer.length ≤ CHUNK_SIZE := Nat.le_of_add_left_le hin
  obtain ⟨_, hw, hnet, b, hb, hbsize⟩ := write_effect H.wf H.represents.wf ha hle (by omega) h
  have hbound := H.bound
  refine ⟨hw.wf, fun i => hnet ▸ H.location i,
    ⟨b, (Vec.store 0 flat offset buffer).length, hb, ?_, ?_, ?_⟩, ?_, ?_⟩
  · rw [hbsize, hsize, max_size hend]
  · rw [Vec.length_store]
    omega
  · rw [Vec.length_store]
    omega
  · rintro x hx hE (hx' | hx')
    · have := H.stored x hx'
      omega
    · have := hx'.1
      omega
  · intro x hx b hbyte
    have hdiv : ∀ y ≤ offset, y / CHUNK_SIZE < 2 ^ 31 := by
      intro y hy
      exact Nat.lt_of_le_of_lt (Nat.div_le_self _ _) (by omega)
    rw [DataSink.byte?] at hbyte ⊢
    by_cases hk : x / CHUNK_SIZE = offset / CHUNK_SIZE
    · have hpos := sub_mod_of_div_eq hk
      rw [hk] at hbyte ⊢
      rw [hw.first, Option.getD_some, Vec.getElem?_store, if_neg (by omega)] at hbyte
      split at hbyte
      · exact .inl hbyte
      · next hno => exact .inr ⟨List.getElem?_eq_none (Nat.le_of_not_lt hno), rfl⟩
    · rw [hw.getD_of_ne fun h => hk (toInt_inj_of_lt (hdiv x (by omega))
        (hdiv offset (Nat.le_refl _)) h)] at hbyte
      exact .inl hbyte

theorem Holds.gapped_truncate {n : Nat} (H : Holds f s flat)
    (hsmall : (Edit.truncate n).Small) {r : Int}
    (h : Fs.truncate DataOnFlush.policy f n s.fs = .ok r c) :
    Gapped f s flat.length n ⟨c, (Edit.truncate n).stored s.stored⟩ := by
  obtain ⟨a, ha, hsize⟩ := H.attr
  obtain ⟨hlen, _⟩ | ⟨_, _, ⟨data, hdata, Hd, hchunk⟩, hnet, b, hb, hbsize⟩ :=
    truncate_effect H.wf H.represents.wf ha H.location h
  · omega
  have hn : n < 2 ^ 31 := Int.ofNat_lt.mp hsmall
  rw [toSizeT_natCast (by omega)] at hdata hchunk
  refine ⟨Hd, fun i => hnet ▸ H.location i, ⟨b, n, hb, hbsize, Nat.le_refl _, hn⟩, ?_, ?_⟩
  · rintro x hx hE ⟨hx', _⟩
    have := H.stored x hx'
    omega
  · intro x hx b hbyte
    have hdiv : ∀ y ≤ n, y / CHUNK_SIZE < 2 ^ 31 := by
      intro y hy
      exact Nat.lt_of_le_of_lt (Nat.div_le_self _ _) (by omega)
    rw [DataSink.byte?] at hbyte ⊢
    by_cases hk : x / CHUNK_SIZE = n / CHUNK_SIZE
    · rw [hk, hchunk, if_pos ⟨rfl, rfl⟩, Option.getD_some, Vec.getElem?_resize] at hbyte
      rw [hk, hdata, Option.getD_some]
      have hpos := sub_mod_of_div_eq hk
      rw [if_pos (by omega)] at hbyte
      split at hbyte
      · exact .inl hbyte
      · next hno => exact .inr ⟨List.getElem?_eq_none (Nat.le_of_not_lt hno), rfl⟩
    · rw [hchunk, if_neg fun h => hk (toInt_inj_of_lt (hdiv x (by omega))
        (hdiv n (Nat.le_refl _)) h.2)] at hbyte
      exact .inl hbyte

variable [BinaryArchive Fattribute.Record]

/-- One byte after the other, the gap has to be zero. -/
theorem Gapped.zeroGap {E n : Nat} (h : Gapped f s E n s') (hz : ReadsZeros dht f s') :
    s.fs.dataSink.ZeroGap f E n := by
  intro x hx hE
  obtain ⟨a, E', ha, hsize, hn, hE'⟩ := h.attr
  obtain ⟨a', ha', hz⟩ := hz
  rw [attr?, ha] at ha'
  cases ha'
  have hmod := Nat.mod_lt x CHUNK_SIZE_pos
  obtain ⟨buffer', c', hread, hzero⟩ := hz [0] 1 x hmod (by omega) (by decide)
  rw [read_eq ha hsize (by omega) hE'] at hread
  obtain ⟨dest, c₁, hdata, hread⟩ := Exec.bind_eq_ok.mp hread
  cases hread
  obtain ⟨b, hb, hb'⟩ := DataSink.byte?_of_read h.sink h.location (by omega) (onData_data hdata)
  have h0 := hzero 0 (by decide) (h.stored x hx hE)
  rw [hb'] at h0
  cases h0
  exact h.byte? x hx 0 hb

theorem Holds.readsZeros (dht : Dht δ) (H : Holds f s flat) : ReadsZeros dht f s := by
  obtain ⟨a, ha, hsize⟩ := H.attr
  refine ⟨a, by rw [attr?, ha]; rfl, ?_⟩
  intro buffer size offset hin hE hbuf
  have hE : offset + size ≤ flat.length := by omega
  refine ⟨Vec.memcpy buffer 0 (Vec.slice flat offset size), s.fs, ?_, ?_⟩
  · rw [read_eq ha hsize hE H.bound, Exec.bind_of_ok (onData_ok
      (H.represents.read H.covers hin hE hbuf))]
    rfl
  · intro i hi hno
    have hlen : (Vec.slice flat offset size).length = size := by
      rw [Vec.length_slice]
      omega
    rw [Vec.getElem?_memcpy (by omega), if_pos (by omega), Vec.getElem?_slice, if_pos (by omega),
      Nat.sub_zero]
    exact H.zero _ (by omega) hno

theorem Holds.gapZero_of_readsZeros {e : Edit} (H : Holds f s flat) (he : e.Small)
    (hs : editStep dht process f s e = some s') (hz : ReadsZeros dht f s') : GapZero f s e := by
  obtain ⟨c, hstep, rfl⟩ := Option.map_eq_some_iff.mp hs
  rw [GapZero, H.size]
  cases e with
  | write buffer offset =>
    have hstep : after (Fs.write f buffer buffer.length offset) s.fs = some c := hstep
    obtain ⟨r, hr⟩ := after_eq_some.mp hstep
    exact (H.gapped_write he hr).zeroGap hz
  | truncate length =>
    have hstep : after (Fs.truncate DataOnFlush.policy f length) s.fs = some c := hstep
    obtain ⟨r, hr⟩ := after_eq_some.mp hstep
    obtain hlen | hlen := lt_or_ge length 0
    · have hstart : (Edit.truncate length).start = 0 := Int.toNat_of_nonpos (Int.le_of_lt hlen)
      rw [hstart]
      exact .of_le (Nat.zero_le _)
    · obtain ⟨n, rfl⟩ := Int.eq_ofNat_of_zero_le hlen
      exact (H.gapped_truncate he hr).zeroGap hz

/-- What was never stored reads as zero in every run of requests over gaps of zeros, and the first
request over another gap breaks this. -/
theorem readsZeros_iff_gapZero {mode : UInt32} {now : Timespec} (hnew : NewFile c₀ f)
    (hcreate : create process f mode now c₀ = .ok 0 c)
    (h : Reach (editStep dht process f) (fun s e => e.Small ∧ GapZero f s e) ⟨c, ∅⟩ s) :
    ReadsZeros dht f s ∧ ∀ e s', e.Small → editStep dht process f s e = some s' →
      (ReadsZeros dht f s' ↔ GapZero f s e) := by
  obtain ⟨flat, H⟩ : ∃ flat, Holds f s flat := by
    refine Reach.invariant (P := fun s => ∃ flat, Holds f s flat) h ?_ ?_
    · exact ⟨[], holds_of_create hnew hcreate⟩
    · rintro s e s' ⟨flat, H⟩ ⟨he, hgap⟩ hs
      exact H.edit he hgap hs
  refine ⟨H.readsZeros dht, ?_⟩
  intro e s' he hs
  refine ⟨H.gapZero_of_readsZeros he hs, ?_⟩
  intro hgap
  obtain ⟨flat', H'⟩ := H.edit he hgap hs
  exact H'.readsZeros dht

omit [BinaryArchive Fattribute.Record] in
theorem newFile_start {now : Timespec} {d : δ} {net : Net} (hf : f ≠ ['/'])
    (hloc : ∀ i, net.location ⟨f, i⟩ = none) : NewFile (start now d net) f := by
  obtain ⟨wf, _, a, _, _, _, hc⟩ := start_spec now d net
  have hdata := start_data now d net
  have hsink : (start now d net).dataSink = .empty := congrArg Prod.fst hdata
  have hnet : (start now d net).chunkservers = net := congrArg Prod.snd hdata
  refine ⟨wf, hsink ▸ .empty, ?_, ?_, ?_⟩
  · rw [hc, update_of_ne hf]
  · intro i
    rw [hsink, DataSink.chunk?_empty]
  · intro i
    rw [hnet, hloc]

end Fs

namespace Fs

open scoped PlainArchive

/-- One byte is written at the start of the second chunk, and the first byte of the file cannot be
read. -/
theorem exists_unreadable : ∃ (c₀ c : Fs (Str → Option Str) Net) (s : Editing (Str → Option Str)),
    NewFile c₀ ['/', 'f'] ∧ create ⟨0, 0⟩ ['/', 'f'] 0o644 ⟨1, 0⟩ c₀ = .ok 0 c ∧
    Reach (editStep Dht.table ⟨0, 0⟩ ['/', 'f']) (fun _ e => e.Small) ⟨c, ∅⟩ s ∧
    s.fs.size ['/', 'f'] = 10485761 ∧ ¬ReadsZeros Dht.table ['/', 'f'] s := by
  let c₀ : Fs (Str → Option Str) Net :=
    start ⟨0, 0⟩ (fun _ => none) ⟨fun _ => ['b'], 0, fun _ => none, fun _ _ => none⟩
  have h : ((Exec.result? (create ⟨0, 0⟩ ['/', 'f'] 0o644 ⟨1, 0⟩ c₀)).bind fun (r, c) =>
      (run (guarded (editStep Dht.table ⟨0, 0⟩ ['/', 'f']) fun _ e => e.Small) ⟨c, ∅⟩
        [.write [1] 10485760]).map fun s => (r, s.fs.size ['/', 'f'],
          (attr? Dht.table s.fs ['/', 'f']).map (·.stbuf.size),
          (Exec.result? (read Dht.table DataOnFlush.policy ['/', 'f'] [0] 1 0 s.fs)).isSome)) =
      some (0, 10485761, some 10485761, false) := by
    decide +kernel
  obtain ⟨⟨r, c⟩, hc, h⟩ := Option.bind_eq_some_iff.mp h
  obtain ⟨s, hs, h⟩ := Option.map_eq_some_iff.mp h
  obtain ⟨rfl, hvals⟩ := Prod.mk.inj h
  obtain ⟨hsize, hvals⟩ := Prod.mk.inj hvals
  obtain ⟨ha, hread⟩ := Prod.mk.inj hvals
  refine ⟨c₀, c, s, newFile_start (by decide) fun _ => rfl, Exec.eq_ok_of_result? hc,
    .of_run_guarded _ hs, hsize, ?_⟩
  rintro ⟨a, ha', hz⟩
  obtain ⟨b, hb, hbsize⟩ := Option.map_eq_some_iff.mp ha
  obtain rfl : a = b := Option.some.inj (ha'.symm.trans hb)
  obtain ⟨buffer', c', hrun, _⟩ := hz [0] 1 0 (by simp [CHUNK_SIZE_eq]) (by omega) (by decide)
  rw [hrun] at hread
  cases hread

/-- A byte is written behind the end of an empty file, and the file is grown. -/
theorem readsZeros_iff_gapZero_example : ∃ s : Editing (Str → Option Str),
    s.fs.size ['/', 'f'] = 8 ∧ ReadsZeros Dht.table ['/', 'f'] s := by
  let c₀ : Fs (Str → Option Str) Net :=
    start ⟨0, 0⟩ (fun _ => none) ⟨fun _ => ['b'], 0, fun _ => none, fun _ _ => none⟩
  have h : ((Exec.result? (create ⟨0, 0⟩ ['/', 'f'] 0o644 ⟨1, 0⟩ c₀)).bind fun (r, c) =>
      (run (guarded (editStep Dht.table ⟨0, 0⟩ ['/', 'f'])
        fun s e => e.Small ∧ GapZero ['/', 'f'] s e) ⟨c, ∅⟩
        [.write [1] 5, .truncate 8]).map fun s => (r, s.fs.size ['/', 'f'])) =
      some (0, 8) := by
    decide +kernel
  obtain ⟨⟨r, c⟩, hc, h⟩ := Option.bind_eq_some_iff.mp h
  obtain ⟨s, hs, h⟩ := Option.map_eq_some_iff.mp h
  obtain ⟨rfl, hsize⟩ := Prod.mk.inj h
  have hnew : NewFile c₀ ['/', 'f'] := newFile_start (by decide) fun _ => rfl
  exact ⟨s, hsize, (readsZeros_iff_gapZero hnew (Exec.eq_ok_of_result? hc)
    (.of_run_guarded _ hs)).1⟩

end Fs

end ColonyFS

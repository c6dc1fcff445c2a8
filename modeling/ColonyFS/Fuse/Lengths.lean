import ColonyFS.Api.Reads
import ColonyFS.Fuse.Removal
import ColonyFS.Fuse.Zeros

/-!
# The recorded size

`write` computes the end of the range that it has written in an `int`. Next to a client that writes
to a file and truncates it runs the length that the file should have. `st_size` is that length as
long as every write ends below `2 ^ 31` or inside the file, and `read` goes by `st_size`.

The network takes its time here. A request comes with the retrievals that are complete when their
`PreRead` returns, and the others may end between any two requests.
-/

namespace ColonyFS

open Function
open Machine
open DataOnFlush (policy timed timed_keepsKey timed_noLookupE)

theorem toInt_le (n : Nat) : toInt n ≤ n := by
  unfold toInt
  rw [Int.bmod_def]
  omega

theorem toInt_eq_natCast_iff {n : Nat} : toInt n = n ↔ n < 2 ^ 31 := by
  refine ⟨?_, toInt_of_lt⟩
  unfold toInt
  rw [Int.bmod_def]
  omega

namespace Edit

/-- The length of a file of `E` bytes after the request. A negative length is rejected. -/
def lengthAfter (E : Nat) : Edit → Nat
  | write buffer offset => max E (offset + buffer.length)
  | truncate length => if length < 0 then E else length.toNat

def InRange : Edit → Prop
  | write buffer offset => offset + buffer.length < 2 ^ 63
  | truncate length => length < 2 ^ 63

instance : (e : Edit) → Decidable e.InRange
  | write .. => inferInstanceAs (Decidable (_ < _))
  | truncate _ => inferInstanceAs (Decidable (_ < _))

/-- A write ends below `2 ^ 31`, or inside a file of `E` bytes. -/
def Recorded (E : Nat) : Edit → Prop
  | write buffer offset => offset + buffer.length < 2 ^ 31 ∨ offset + buffer.length ≤ E
  | truncate _ => True

instance (E : Nat) : (e : Edit) → Decidable (e.Recorded E)
  | write .. => inferInstanceAs (Decidable (_ ∨ _))
  | truncate _ => inferInstanceAs (Decidable True)

end Edit

/-- A client, and the length that a file should have. -/
structure Measured (δ : Type) where
  fs : Fs δ Net
  length : Nat

/-- What happens to a file. -/
inductive FileEvent where
  | edit (arrived : ChunkKey → Bool) (e : Edit)
  /-- A retrieval into the object at `p` ends. -/
  | arrive (p : Ptr) (data : List Byte)

namespace FileEvent

def InRange : FileEvent → Prop
  | edit _ e => e.InRange
  | arrive .. => True

instance : (ev : FileEvent) → Decidable ev.InRange
  | edit _ e => inferInstanceAs (Decidable e.InRange)
  | arrive .. => inferInstanceAs (Decidable True)

def Recorded (E : Nat) : FileEvent → Prop
  | edit _ e => e.Recorded E
  | arrive .. => True

instance (E : Nat) : (ev : FileEvent) → Decidable (ev.Recorded E)
  | edit _ e => inferInstanceAs (Decidable (e.Recorded E))
  | arrive .. => inferInstanceAs (Decidable True)

end FileEvent

namespace Fs

variable {δ : Type} [BinaryArchive Instruction] [BinaryArchive Fattribute.Record] {dht : Dht δ}
  {process : Process} {f : Str} {c c' : Fs δ Net} {s s' : Measured δ} {a : Fattribute}
  {buffer : List Byte} {size offset E : Nat} {e : Edit} {arrived : ChunkKey → Bool}
  {ev : FileEvent} {P : Policy ChunkData Net}

/-- The bytes of a chunk are received into its object. -/
def arrive (c : Fs δ Net) (p : Ptr) (data : List Byte) : Option (Fs δ Net) :=
  (c.dataSink.cache.impl.heap p).map fun v =>
    { c with dataSink := { c.dataSink with cache := { c.dataSink.cache with
      impl := c.dataSink.cache.impl.assign p { v with data := data } } } }

def measuredStep (dht : Dht δ) (process : Process) (f : Str) (s : Measured δ) :
    FileEvent → Option (Measured δ)
  | .edit arrived e => (step dht (timed arrived) process s.fs (e.act f)).map fun c =>
    ⟨c, e.lengthAfter s.length⟩
  | .arrive p data => (s.fs.arrive p data).map fun c => ⟨c, s.length⟩

/-- `st_size` is the length. -/
def HasLength (dht : Dht δ) (f : Str) (s : Measured δ) : Prop :=
  Has dht s.fs f fun a => a.stbuf.size = s.length

instance (dht : Dht δ) (f : Str) (s : Measured δ) : Decidable (HasLength dht f s) :=
  inferInstanceAs (Decidable (Has ..))

/-- `read` returns how many bytes there are from `offset` on, as far as the buffer goes. -/
def ReadsAll (dht : Dht δ) (arrived : ChunkKey → Bool) (f : Str) (s : Measured δ)
    (buffer : List Byte) (offset : Nat) : Prop :=
  ∃ buffer' c', read dht (timed arrived) f buffer buffer.length offset s.fs = .ok
    (((if offset ≤ s.length then min buffer.length (s.length - offset) else 0 : Nat) : Int),
      buffer') c'

/-- Every piece of a read of what there is from `offset` on is in a chunk that is cached and long
enough. One that is not cached is as good as empty. -/
def AllServed (f : Str) (s : Measured δ) (buffer : List Byte) (offset : Nat) : Prop :=
  offset ≤ s.length → ∀ u ∈ segments (min buffer.length (s.length - offset)) offset,
    DataSink.Served (fun _ => false) s.fs.data f buffer.length u

instance (f : Str) (s : Measured δ) (buffer : List Byte) (offset : Nat) :
    Decidable (AllServed f s buffer offset) := inferInstanceAs (Decidable (_ → ∀ _ ∈ _, _))

/-- A client with a file, the size of which is an `off_t`. -/
structure Measures (f : Str) (s : Measured δ) : Prop where
  wf : s.fs.WF
  sink : s.fs.dataSink.WF
  attr : ∃ a, s.fs.cached f = some a ∧ a.stbuf.size = s.length
  bound : s.length < 2 ^ 63

/-! ## The callbacks -/

/-- `read` goes by `st_size`. -/
theorem read_eq_min (ha : c.cached f = some a) (hsize : a.stbuf.size = E) (hE : E < 2 ^ 63)
    (ho : offset < 2 ^ 63) (hs : size < 2 ^ 31) :
    read dht P f buffer size offset c = if E < offset then .ok (0, buffer) c else (do
      let buffer ← onData (DataSink.read P f buffer (min size (E - offset)) offset)
      return (((min size (E - offset) : Nat) : Int), buffer)) c := by
  rw [read, bind_metadataOf ha, hsize, toSizeT_natCast (by omega)]
  by_cases hoff : E < offset
  · rw [if_pos hoff, if_pos hoff]; rfl
  · have hn : (if E < (offset + size) % 2 ^ 64 then E - offset else size) =
        min size (E - offset) := by
      rw [Nat.mod_eq_of_lt (by omega)]
      split <;> omega
    rw [if_neg hoff, if_neg hoff, hn, toInt_of_lt (by omega)]

/-- A `read` returns what it should if and only if the `read` of the chunk store returns. -/
theorem Measures.readsAll_iff_returns (H : Measures f s) (hs : buffer.length < 2 ^ 31)
    (ho : offset < 2 ^ 63) : ReadsAll dht arrived f s buffer offset ↔ (offset ≤ s.length →
      ∃ buffer' t, DataSink.read (timed arrived) f buffer
        (min buffer.length (s.length - offset)) offset s.fs.data = .ok buffer' t) := by
  obtain ⟨a, ha, hsize⟩ := H.attr
  rw [ReadsAll, read_eq_min ha hsize H.bound ho hs]
  by_cases hoff : s.length < offset
  · rw [if_pos hoff, if_neg (Nat.not_le_of_lt hoff)]
    exact iff_of_true ⟨buffer, s.fs, rfl⟩ fun hle => (Nat.not_le_of_lt hoff hle).elim
  · have hle : offset ≤ s.length := Nat.le_of_not_lt hoff
    rw [if_neg hoff, if_pos hle, forall_prop_of_true hle]
    constructor
    · rintro ⟨buffer', c', h⟩
      obtain ⟨out, c₁, h₁, _⟩ := Exec.bind_eq_ok.mp h
      exact ⟨out, _, onData_data h₁⟩
    · rintro ⟨out, s', h⟩
      exact ⟨out, _, Exec.bind_of_ok (onData_ok h)⟩

theorem Measures.readsAll_iff (H : Measures f s) (hs : buffer.length < 2 ^ 31)
    (ho : offset < 2 ^ 63) :
    (∀ arrived, ReadsAll dht arrived f s buffer offset) ↔ AllServed f s buffer offset := by
  have hread : (∀ arrived, ∃ buffer' t, DataSink.read (timed arrived) f buffer
      (min buffer.length (s.length - offset)) offset s.fs.data = .ok buffer' t) ↔ _ :=
    DataSink.read_always_returns_iff H.sink
  refine Iff.trans ?_ (forall_congr' fun _ : offset ≤ s.length => hread)
  rw [forall_comm]
  exact forall_congr' fun _ => H.readsAll_iff_returns hs ho

/-- What `st_size` is after the request. -/
theorem Measures.attr_of_edit (H : Measures f s)
    (hstep : measuredStep dht process f s (.edit arrived e) = some s') :
    s'.fs.WF ∧ s'.fs.dataSink.WF ∧ s'.length = e.lengthAfter s.length ∧
      ∃ a, s'.fs.cached f = some a ∧ a.stbuf.size = match e with
        | .write buffer offset => max (s.length : Int) (toInt (offset + buffer.length))
        | .truncate _ => (s'.length : Int) := by
  obtain ⟨c', h, rfl⟩ := Option.map_eq_some_iff.mp hstep
  obtain ⟨a, ha, hsize⟩ := H.attr
  cases e with
  | write buffer offset =>
    obtain ⟨r, hr⟩ := after_eq_some.mp h
    obtain ⟨wf, b, hb, hbsize⟩ := write_attr H.wf ha hr
    rw [hsize] at hbsize
    exact ⟨wf, (DataSink.write_ok H.sink (write_data hr)).2.2, rfl, b, hb, hbsize⟩
  | truncate length =>
    obtain ⟨r, hr⟩ := after_eq_some.mp h
    obtain ⟨hlen, rfl⟩ | ⟨hlen, wf, b, hb, hbsize⟩ := truncate_attr timed_noLookupE H.wf ha hr
    · refine ⟨H.wf, H.sink, rfl, a, ha, ?_⟩
      simp only [hsize, Edit.lengthAfter, if_pos hlen]
    · refine ⟨wf, ?_, rfl, b, hb, ?_⟩
      · obtain ⟨hlen', _⟩ | ⟨_, m, htrunc⟩ := truncate_data timed_noLookupE hr
        · exact (hlen hlen').elim
        · obtain ⟨_, _, _, _, _, wf', _⟩ := DataSink.truncate_ok timed_keepsKey H.sink htrunc
          exact wf'
      · simp only [hbsize, Edit.lengthAfter, if_neg hlen]
        omega

/-- The end of a retrieval is about the bytes of one object. -/
theorem Measures.arrive {p : Ptr} {data : List Byte} (H : Measures f s)
    (hstep : measuredStep dht process f s (.arrive p data) = some s') : Measures f s' := by
  obtain ⟨c', h, rfl⟩ := Option.map_eq_some_iff.mp hstep
  obtain ⟨v, hv, rfl⟩ := Option.map_eq_some_iff.mp h
  exact ⟨H.wf, ⟨H.sink.cache.assign hv rfl, H.sink.indexed⟩, H.attr, H.bound⟩

omit [BinaryArchive Instruction] [BinaryArchive Fattribute.Record] in
theorem Edit.max_toInt_iff {n : Nat} : max (E : Int) (toInt n) = (max E n : Nat) ↔
    n < 2 ^ 31 ∨ n ≤ E := by
  have hle := toInt_le n
  have heq := @toInt_eq_natCast_iff n
  omega

/-- The size is recorded as it should be if and only if the write ends where an `int` can say. -/
theorem Measures.hasLength_iff_of_edit (H : Measures f s)
    (hstep : measuredStep dht process f s (.edit arrived e) = some s') :
    HasLength dht f s' ↔ e.Recorded s.length := by
  obtain ⟨_, _, hlen, a, ha, hsize⟩ := H.attr_of_edit hstep
  have hattr : attr? dht s'.fs f = some a := attr?_of_cached ha
  rw [HasLength, Has, hattr]
  cases e with
  | write buffer offset =>
    simp only [Option.mem_some_iff, exists_eq_left', hsize, hlen, Edit.lengthAfter, Edit.Recorded]
    exact Edit.max_toInt_iff
  | truncate length =>
    simp only [Option.mem_some_iff, exists_eq_left', hsize, Edit.Recorded]

theorem Measures.hasLength (H : Measures f s) : HasLength dht f s := by
  obtain ⟨a, ha, hsize⟩ := H.attr
  exact ⟨a, attr?_of_cached ha, hsize⟩

theorem Measures.hasLength_iff (H : Measures f s)
    (hstep : measuredStep dht process f s ev = some s') :
    HasLength dht f s' ↔ ev.Recorded s.length := by
  cases ev with
  | edit arrived e => exact H.hasLength_iff_of_edit hstep
  | arrive p data => exact iff_of_true (H.arrive hstep).hasLength trivial

theorem Measures.step (H : Measures f s) (hi : ev.InRange) (hr : ev.Recorded s.length)
    (hstep : measuredStep dht process f s ev = some s') : Measures f s' := by
  cases ev with
  | arrive p data => exact H.arrive hstep
  | edit arrived e =>
    obtain ⟨wf, sink, hlen, a, ha, _⟩ := H.attr_of_edit hstep
    obtain ⟨b, hb, hsize⟩ := (H.hasLength_iff_of_edit hstep).mpr hr
    rw [attr?_of_cached ha] at hb
    cases hb
    refine ⟨wf, sink, ⟨a, ha, hsize⟩, ?_⟩
    have hbound := H.bound
    rw [hlen]
    cases e with
    | write buffer offset =>
      have hi : offset + buffer.length < 2 ^ 63 := hi
      rw [Edit.lengthAfter]
      omega
    | truncate length =>
      have hi : length < 2 ^ 63 := hi
      rw [Edit.lengthAfter]
      split <;> omega

/-- A file of a client in any run. -/
theorem measures_of_reach {c : Fs (Str → Option Str) Net} {now : Timespec} {net : Net}
    (h : Reach (Fs.step Dht.table policy process) (Issued Dht.table)
      (start now (fun _ => none) net) c)
    (hlen : HasLength Dht.table f ⟨c, E⟩) (hE : E < 2 ^ 63) : Measures f ⟨c, E⟩ := by
  have H : Known c := .of_reach h
  obtain ⟨a, ha, hsize⟩ := H.real.has_iff.mp hlen
  exact ⟨H.wf, sink_wf_of_reach h, ⟨a, ha, hsize⟩, hE⟩

end Fs

namespace Fs

open scoped PlainArchive

end Fs

end ColonyFS

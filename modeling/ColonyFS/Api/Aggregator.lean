import ColonyFS.Api.Copy
import ColonyFS.Cache.Cache
import ColonyFS.Lib.Exec

/-!
# The chunk store (`api/aggregator.hpp`, `aggregator<chunk_data>`)

Files are kept in chunks, and the chunks in a write-back cache. `index_map_` remembers which chunks
of a file were ever written, for `purge` and `invalidate` to walk over.

A `char*` argument is a list here; the buffer of a `read` is threaded through the loop. Accesses
outside a buffer or outside the vector of a chunk are `Stop.undefined`.
-/

namespace ColonyFS

open Std

structure DataSink where
  /-- `index_map_`. A file without an entry and one with an empty set are the same. -/
  indexMap : ExtTreeMap Str (ExtTreeSet Int)
  /-- `cache_`. -/
  cache : Cache ChunkKey ChunkData

/-- A method of the store, with the environment `σ` that the policy of the cache acts on. -/
abbrev DataM (σ : Type) := EStateM Stop (DataSink × σ)

namespace DataSink

variable {σ β : Type}

def empty : DataSink := ⟨∅, .empty⟩

/-- `index_map_[uid]`. -/
def index (d : DataSink) (uid : Str) : ExtTreeSet Int := d.indexMap.getD uid ∅

/-- `index_map_[uid].insert(cuid)`. -/
def indexInsert (d : DataSink) (uid : Str) (cuid : Int) : DataSink :=
  { d with indexMap := d.indexMap.insert uid ((d.index uid).insert cuid) }

/-- A method of `cache_`. -/
def onCache : CacheM ChunkKey ChunkData σ β → DataM σ β :=
  Exec.zoom (fun t => (t.1.cache, t.2)) fun s t => ({ t.1 with cache := s.1 }, s.2)

def createIfMissing (filepath : Str) (count : Nat) : DataM σ Ptr := do
  let result ← onCache (modifyGet fun (c, env) =>
    let (p, c) := c.subscript ⟨filepath, toInt count⟩
    (p, c, env))
  let chunk ← onCache (Cache.deref result)
  modify fun (d, env) => (d.indexInsert chunk.uid chunk.cuid, env)
  return result

def raiseIfMissing (P : Policy ChunkData σ) (filepath : Str) (count : Nat) : DataM σ Ptr :=
  onCache (Cache.call P ⟨filepath, toInt count⟩)

/-- `write_to_chunk`. The vector grows when the bytes do not fit. -/
def writeToChunk (destination : Ptr) (source : List Byte)
    (destinationOffset sourceOffset chunkDelta : Nat) : DataM σ Unit := do
  let chunk ← onCache (Cache.deref destination)
  Exec.require (sourceOffset + chunkDelta ≤ source.length) .undefined
  onCache (Cache.assign destination { chunk with
    data := Vec.store 0 chunk.data destinationOffset (Vec.slice source sourceOffset chunkDelta) })

/-- `read_from_chunk`. The assertion does not look at `source_offset`. -/
def readFromChunk (source : Ptr) (destination : List Byte)
    (sourceOffset destinationOffset chunkDelta : Nat) : DataM σ (List Byte) := do
  let chunk ← onCache (Cache.deref source)
  Exec.require (chunkDelta ≤ chunk.data.length) .assertion
  Exec.require (sourceOffset + chunkDelta ≤ chunk.data.length) .undefined
  Exec.require (destinationOffset + chunkDelta ≤ destination.length) .undefined
  return Vec.memcpy destination destinationOffset (Vec.slice chunk.data sourceOffset chunkDelta)

/-- The loop of `copy` over the given turns. -/
def copyFrom (keyPolicy : Str → Nat → DataM σ Ptr)
    (actionPolicy : Ptr → β → Nat → Nat → Nat → DataM σ β) (filepath : Str) :
    List Segment → β → DataM σ β
  | [], buffer => pure buffer
  | s :: ss, buffer => do
    let chunk ← keyPolicy filepath s.count
    let buffer ← actionPolicy chunk buffer s.chunkStart s.bufferStart s.chunkDelta
    copyFrom keyPolicy actionPolicy filepath ss buffer

def copy (keyPolicy : Str → Nat → DataM σ Ptr)
    (actionPolicy : Ptr → β → Nat → Nat → Nat → DataM σ β)
    (filepath : Str) (buffer : β) (size offset : Nat) : DataM σ β :=
  copyFrom keyPolicy actionPolicy filepath (segments size offset) buffer

def write (filepath : Str) (buffer : List Byte) (size offset : Nat) : DataM σ Unit :=
  copy createIfMissing (fun p (_ : Unit) a b n => writeToChunk p buffer a b n) filepath () size
    offset

/-- `read`. The result is the buffer afterwards. -/
def read (P : Policy ChunkData σ) (filepath : Str) (buffer : List Byte) (size offset : Nat) :
    DataM σ (List Byte) :=
  copy (raiseIfMissing P) readFromChunk filepath buffer size offset

/-- `truncate`. The loop over the chunks past the new end erases nothing. -/
def truncate (P : Policy ChunkData σ) (filepath : Str) (newSize _oldSize : Nat) :
    DataM σ Unit := do
  let p ← raiseIfMissing P filepath (newSize / CHUNK_SIZE)
  let chunk ← onCache (Cache.deref p)
  onCache (Cache.assign p { chunk with data := Vec.resize 0 chunk.data (newSize % CHUNK_SIZE) })

/-- `rename`. The statements of its loop that would move the chunks are commented out. -/
def rename (_oldpath _newpath : Str) (_totalSize : Nat) : DataM σ Unit := pure ()

/-- `erase`. Its loop erases nothing. -/
def erase (_filepath : Str) (_totalSize : Nat) : DataM σ Unit := pure ()

/-- Call a method of the cache for each indexed chunk of a file. -/
def forIndexed (f : ChunkKey → CacheM ChunkKey ChunkData σ Unit) (filename : Str) :
    List Int → DataM σ Unit
  | [] => pure ()
  | i :: is => do
    onCache (f ⟨filename, i⟩)
    forIndexed f filename is

def invalidate (P : Policy ChunkData σ) (filename : Str) : DataM σ Unit := do
  forIndexed (Cache.invalidate P) filename ((← get).1.index filename).toList

def purge (P : Policy ChunkData σ) (filename : Str) : DataM σ Unit := do
  forIndexed (Cache.purge P) filename ((← get).1.index filename).toList

/-- `invalidate()`. -/
def invalidateAll (P : Policy ChunkData σ) (onDone : EStateM Stop σ Unit) : DataM σ Unit :=
  onCache (Cache.invalidateAll P onDone)

/-! ## What the store holds -/

/-- The bytes cached for a chunk. -/
def chunk? (d : DataSink) (uid : Str) (cuid : Int) : Option (List Byte) :=
  (d.cache.impl.get? ⟨uid, cuid⟩).map (·.data)

/-- The chunk has to be written back. -/
def IsDirty (d : DataSink) (uid : Str) (cuid : Int) : Prop := d.cache.impl.IsDirty ⟨uid, cuid⟩

instance (d : DataSink) (uid : Str) (cuid : Int) : Decidable (d.IsDirty uid cuid) :=
  inferInstanceAs (Decidable (BasicCache.IsDirty _ _))

/-- The cache is well formed, and the walk over the index comes past every dirty chunk. -/
structure WF (d : DataSink) : Prop where
  cache : d.cache.impl.WF
  indexed : ∀ {uid : Str} {cuid : Int}, d.IsDirty uid cuid → cuid ∈ d.index uid

/-! ## What its methods do -/

/-- What a walk of `invalidate` does when every `OnFlush` returns: the dirty chunks it visits are
handed over as they are cached, and are clean then. `flushed` is what the environment has got. -/
structure Invalidated {σ : Type} (flushed : σ → ChunkKey → Option (List Byte)) (f : Str)
    (is : List Int) (d : DataSink) (e : σ) (d' : DataSink) (e' : σ) : Prop where
  wf : d'.WF
  chunk? : ∀ g j, d'.chunk? g j = d.chunk? g j
  index : ∀ g, d'.index g = d.index g
  isDirty : ∀ g j, d'.IsDirty g j ↔ ¬(g = f ∧ j ∈ is) ∧ d.IsDirty g j
  flushed : ∀ g j, flushed e' ⟨g, j⟩ =
    if (g = f ∧ j ∈ is) ∧ d.IsDirty g j then d.chunk? g j else flushed e ⟨g, j⟩

/-- What `purge` does: the indexed chunks of the file are gone, and nothing else. -/
structure Purged (f : Str) (is : List Int) (d d' : DataSink) : Prop where
  wf : d'.WF
  chunk? : ∀ g j, d'.chunk? g j = if g = f ∧ j ∈ is then none else d.chunk? g j
  isDirty : ∀ g j, d'.IsDirty g j ↔ ¬(g = f ∧ j ∈ is) ∧ d.IsDirty g j
  index : ∀ g, d'.index g = d.index g
  handle : ∀ k p, d.cache.impl.Handle k p → d'.cache.impl.Handle k p

/-- What one turn of `write` does: the bytes are in the chunk, which exists, is dirty and indexed
now, and nothing else is touched. -/
structure Wrote (f : Str) (d : DataSink) (s : Store) (d' : DataSink) : Prop where
  wf : d'.WF
  chunk? : ∀ g j, d'.chunk? g j = if g = f ∧ j = s.cuid then
    some (Vec.store 0 ((d.chunk? f s.cuid).getD []) s.start s.bytes) else d.chunk? g j
  isDirty : ∀ g j, d'.IsDirty g j ↔ (g = f ∧ j = s.cuid) ∨ d.IsDirty g j
  index : ∀ g j, j ∈ d'.index g ↔ (g = f ∧ j = s.cuid) ∨ j ∈ d.index g
  handle : ∀ k p, d.cache.impl.Handle k p → d'.cache.impl.Handle k p

/-- The turns of a `write` one after the other. -/
inductive WroteAll (f : Str) : DataSink → List Store → DataSink → Prop where
  | nil : WroteAll f d [] d
  | cons : Wrote f d s d₁ → WroteAll f d₁ ss d₂ → WroteAll f d (s :: ss) d₂

/-- What `create_if_missing` does: the chunk is there, dirty and indexed, as it was or empty. -/
structure Created (d : DataSink) (f : Str) (i : Int) (p : Ptr) (d' : DataSink) : Prop where
  wf : d'.WF
  read : d'.cache.impl.read ⟨f, i⟩ = some p
  chunk? : ∀ g j, d'.chunk? g j = if g = f ∧ j = i then
    some ((d.chunk? f i).getD []) else d.chunk? g j
  isDirty : ∀ g j, d'.IsDirty g j ↔ (g = f ∧ j = i) ∨ d.IsDirty g j
  index : ∀ g j, j ∈ d'.index g ↔ (g = f ∧ j = i) ∨ j ∈ d.index g
  handle : ∀ k p, d.cache.impl.Handle k p → d'.cache.impl.Handle k p

/-- What `raise_if_missing` does when it returns: the chunk is there, as it was or as `PreRead` made
it, and clean or dirty as before. -/
inductive Fetched {σ : Type} (P : Policy ChunkData σ) (d : DataSink) (e : σ) (f : Str) (i : Int)
    (p : Ptr) : DataSink → σ → Prop
  | hit : d.cache.impl.read ⟨f, i⟩ = some p → Fetched P d e f i p d e
  | miss {v : ChunkData} {e' : σ} : d.cache.impl.read ⟨f, i⟩ = none → p = d.cache.impl.next →
      P.preRead (.ofKey ⟨f, i⟩) e = .ok v e' → v.getKey = ⟨f, i⟩ → ⟨f, i⟩ ∉ d.cache.cv →
      Fetched P d e f i p
        { d with cache :=
          { impl := (d.cache.impl.alloc v).2.insert ⟨f, i⟩ (d.cache.impl.alloc v).1
            cv := d.cache.cv.insert ⟨f, i⟩ } } e'

/-- The chunks that a write of at most `CHUNK_SIZE` bytes visits. -/
def Visits (size offset : Nat) (j : Int) : Prop :=
  j = toInt (offset / CHUNK_SIZE) ∨
    CHUNK_SIZE ≤ offset % CHUNK_SIZE + size ∧ j = toInt (offset / CHUNK_SIZE + 1)

instance (size offset : Nat) (j : Int) : Decidable (Visits size offset j) :=
  inferInstanceAs (Decidable (_ ∨ _))

/-- What a write of at most `CHUNK_SIZE` bytes does. All bytes go to the first chunk; a second one
that it visits is only created. -/
structure Written (f : Str) (buf : List Byte) (offset : Nat) (d d' : DataSink) : Prop where
  wf : d'.WF
  first : d'.chunk? f (toInt (offset / CHUNK_SIZE)) = some (Vec.store 0
    ((d.chunk? f (toInt (offset / CHUNK_SIZE))).getD []) (offset % CHUNK_SIZE) buf)
  second : CHUNK_SIZE ≤ offset % CHUNK_SIZE + buf.length →
    d'.chunk? f (toInt (offset / CHUNK_SIZE + 1)) =
      some ((d.chunk? f (toInt (offset / CHUNK_SIZE + 1))).getD [])
  other : ∀ g j, ¬(g = f ∧ Visits buf.length offset j) → d'.chunk? g j = d.chunk? g j
  isDirty : ∀ g j, d'.IsDirty g j ↔ (g = f ∧ Visits buf.length offset j) ∨ d.IsDirty g j
  index : ∀ g j, j ∈ d'.index g ↔ (g = f ∧ Visits buf.length offset j) ∨ j ∈ d.index g

variable {d d' d₁ d₂ : DataSink} {e : σ} {P : Policy ChunkData σ} {f g : Str} {i j : Int}
  {p : Ptr} {v : ChunkData} {data src buf dest : List Byte} {n off a b m size offset : Nat}

@[simp] theorem chunk?_empty : empty.chunk? f i = none := by simp [empty, chunk?, Cache.empty]

theorem WF.empty : DataSink.empty.WF where
  cache := BasicCache.WF.empty
  indexed h := (BasicCache.not_isDirty_empty h).elim

theorem mem_index_indexInsert :
    j ∈ (d.indexInsert f i).index g ↔ (g = f ∧ j = i) ∨ j ∈ d.index g := by
  simp only [indexInsert, index, ExtTreeMap.getD_insert, Std.compare_eq_iff_eq]
  split
  · next h =>
    subst h
    simp only [ExtTreeSet.mem_insert, Std.compare_eq_iff_eq, true_and, eq_comm (a := j)]
  · next h => simp [Ne.symm h]

theorem getKey_of_read (H : d.WF) (h : d.cache.impl.read ⟨f, i⟩ = some p) :
    ∃ v, d.cache.impl.heap p = some v ∧ d.chunk? f i = some v.data ∧ v.uid = f ∧ v.cuid = i := by
  obtain ⟨v, hv, hget, hk⟩ := H.cache.get?_of_read h
  cases hk
  exact ⟨v, hv, by simp [chunk?, hget], rfl, rfl⟩

/-- A cached chunk has an address. -/
theorem read_of_chunk? (h : d.chunk? f i = some data) :
    ∃ p, d.cache.impl.read ⟨f, i⟩ = some p := by
  obtain ⟨v, hv, _⟩ := Option.map_eq_some_iff.mp h
  obtain ⟨p, hp, _⟩ := Option.bind_eq_some_iff.mp hv
  exact ⟨p, hp⟩

theorem read_eq_none_iff (H : d.WF) :
    d.cache.impl.read ⟨f, i⟩ = none ↔ d.chunk? f i = none := by
  rw [H.cache.read_eq_none_iff, chunk?, Option.map_eq_none_iff]

variable {x : CacheM ChunkKey ChunkData σ β} {c : Cache ChunkKey ChunkData} {r : β} {e' : σ}

theorem onCache_ok (h : x (d.cache, e) = .ok r (c, e')) :
    onCache x (d, e) = .ok r ({ d with cache := c }, e') :=
  Exec.zoom_ok (s := (c, e')) h

theorem onCache_error {stop : Stop} (h : x (d.cache, e) = .error stop (c, e')) :
    onCache x (d, e) = .error stop ({ d with cache := c }, e') :=
  Exec.zoom_error (s := (c, e')) h

theorem deref_ok (h : d.cache.impl.heap p = some v) :
    (onCache (Cache.deref p) : DataM σ ChunkData) (d, e) = .ok v (d, e) :=
  onCache_ok (Cache.deref_ok h)

theorem deref_ne_raised {x : Exn} {s : DataSink × σ} :
    (onCache (Cache.deref p) : DataM σ ChunkData) (d, e) ≠ .error (.raised x) s := by
  intro h
  obtain ⟨_, h, _⟩ := Exec.zoom_eq_error h
  exact Cache.deref_ne_raised h

theorem assign_apply : (onCache (Cache.assign p v) : DataM σ Unit) (d, e) =
    .ok () ({ d with cache := { d.cache with impl := d.cache.impl.assign p v } }, e) := rfl

theorem copyFrom_cons {keyPolicy : Str → Nat → DataM σ Ptr}
    {actionPolicy : Ptr → β → Nat → Nat → Nat → DataM σ β} {s : Segment} {ss : List Segment}
    {buffer : β} :
    copyFrom keyPolicy actionPolicy f (s :: ss) buffer = (do
      let buffer ← keyPolicy f s.count >>= fun chunk =>
        actionPolicy chunk buffer s.chunkStart s.bufferStart s.chunkDelta
      copyFrom keyPolicy actionPolicy f ss buffer) := by
  rw [copyFrom, bind_assoc]

/-! ## `write`, turn by turn -/

theorem createIfMissing_spec (H : d.WF) :
    ∃ p d', (createIfMissing f n : DataM σ Ptr) (d, e) = .ok p (d', e) ∧
      Created d f (toInt n) p d' := by
  unfold createIfMissing
  generalize toInt n = i
  let key : ChunkKey := ⟨f, i⟩
  have hs : Cache.Subscripted d.cache key _ _ := Cache.subscript_spec H.cache
  have hslot : Cache.slot ChunkData key = key := rfl
  generalize hp : (d.cache.subscript key).1 = p at hs
  generalize hc : (d.cache.subscript key).2 = c at hs
  have hread : c.impl.read key = some p := hs.read
  obtain ⟨v, hv, _, hk⟩ := hs.wf.get?_of_read hread
  refine ⟨p, { d with cache := c }.indexInsert v.uid v.cuid, ?_, ?_⟩
  · have hsub : (onCache (modifyGet fun (c, env) =>
        let (p, c) := c.subscript key
        (p, c, env)) : DataM σ Ptr) (d, e) = .ok p ({ d with cache := c }, e) := by
      simp only [onCache, Exec.zoom, modifyGet, MonadStateOf.modifyGet, EStateM.modifyGet,
        ← hp, ← hc, key]
    rw [Exec.bind_of_ok hsub, Exec.bind_of_ok (deref_ok hv)]
    rfl
  · have hf : v.uid = f := congrArg ChunkKey.uid hk
    have hi : v.cuid = i := congrArg ChunkKey.cuid hk
    have hdirty : ∀ g j, c.impl.IsDirty ⟨g, j⟩ ↔ (g = f ∧ j = i) ∨ d.IsDirty g j := by
      intro g j
      rw [hs.isDirty, hslot, ChunkKey.mk.injEq, eq_comm (b := g), eq_comm (b := j)]
      rfl
    have hindex : ∀ g j, j ∈ ({ d with cache := c }.indexInsert v.uid v.cuid).index g ↔
        (g = f ∧ j = i) ∨ j ∈ d.index g := by
      intro g j; rw [mem_index_indexInsert, hf, hi]; rfl
    refine ⟨⟨hs.wf, ?_⟩, hread, ?_, hdirty, hindex, hs.handle⟩
    · intro g j h
      rw [hindex]
      exact ((hdirty g j).mp h).imp_right H.indexed
    · intro g j
      simp only [DataSink.chunk?, indexInsert, hs.get?, hslot]
      split
      · next h =>
        obtain ⟨rfl, rfl⟩ : f = g ∧ i = j := ChunkKey.mk.inj h
        rw [if_pos ⟨rfl, rfl⟩]
        cases d.cache.impl.get? key <;> rfl
      · next h => rw [if_neg fun hgj : g = f ∧ j = i => h (by rw [hgj.1, hgj.2])]

/-- A store through the handle of a cached chunk. -/
theorem wf_assign (H : d.WF) (h : d.cache.impl.read ⟨f, i⟩ = some p) (hf : v.uid = f)
    (hi : v.cuid = i) :
    WF { d with cache := { d.cache with impl := d.cache.impl.assign p v } } where
  cache := by
    obtain ⟨w, hw, hk⟩ := H.cache.live h
    exact H.cache.assign hw (by rw [hk, ← hf, ← hi]; rfl)
  indexed h := H.indexed h

theorem chunk?_assign (H : d.WF) (h : d.cache.impl.read ⟨f, i⟩ = some p) :
    chunk? { d with cache := { d.cache with impl := d.cache.impl.assign p v } } g j =
      if g = f ∧ j = i then some v.data else d.chunk? g j := by
  simp only [chunk?, H.cache.get?_assign h, ChunkKey.mk.injEq, eq_comm (b := g), eq_comm (b := j)]
  split <;> rfl

/-- Bytes stored through the handle that `create_if_missing` returned. -/
theorem Created.wrote (hcr : Created d f i p d₁) (a : Nat) (src : List Byte) :
    ∃ v, d₁.cache.impl.heap p = some v ∧
      Wrote f d ⟨i, a, src⟩ { d₁ with cache := { d₁.cache with
        impl := d₁.cache.impl.assign p { v with data := Vec.store 0 v.data a src } } } := by
  obtain ⟨v, hv, hdata, hf, hi⟩ := getKey_of_read hcr.wf hcr.read
  rw [hcr.chunk?, if_pos ⟨rfl, rfl⟩] at hdata
  refine ⟨v, hv, wf_assign hcr.wf hcr.read hf hi, ?_, hcr.isDirty, hcr.index, ?_⟩
  · intro g j
    rw [chunk?_assign hcr.wf hcr.read, Option.some.inj hdata]
    split
    · rfl
    · next h => rw [hcr.chunk?, if_neg h]
  · intro k q hq
    exact (hcr.handle k q hq).assign hv

/-- A turn of `write` whose bytes are all in the buffer. -/
theorem writeTurn_spec (H : d.WF) (hin : b + m ≤ src.length) :
    ∃ d', (createIfMissing f n >>= fun p => writeToChunk p src a b m : DataM σ Unit) (d, e) =
      .ok () (d', e) ∧ Wrote f d ⟨toInt n, a, Vec.slice src b m⟩ d' := by
  obtain ⟨p, d₁, hrun, hcr⟩ := createIfMissing_spec (f := f) (n := n) (e := e) H
  obtain ⟨v, hv, hw⟩ := hcr.wrote a (Vec.slice src b m)
  refine ⟨_, ?_, hw⟩
  rw [Exec.bind_of_ok hrun, writeToChunk, Exec.bind_of_ok (deref_ok hv),
    Exec.bind_of_ok (Exec.require_ok hin), assign_apply]

/-- A turn of `write` that would read past the end of the buffer. -/
theorem writeTurn_overrun (H : d.WF) (hin : src.length < b + m) :
    ∃ d', (createIfMissing f n >>= fun p => writeToChunk p src a b m : DataM σ Unit) (d, e) =
      .error .undefined (d', e) := by
  obtain ⟨p, d₁, hrun, hcr⟩ := createIfMissing_spec (f := f) (n := n) (e := e) H
  obtain ⟨v, hv, _⟩ := getKey_of_read hcr.wf hcr.read
  refine ⟨d₁, ?_⟩
  rw [Exec.bind_of_ok hrun, writeToChunk, Exec.bind_of_ok (deref_ok hv)]
  exact Exec.bind_of_error (Exec.require_error (Nat.not_le_of_lt hin))

theorem copyFrom_write_spec (H : d.WF) {ss : List Segment}
    (hin : ∀ s ∈ ss, s.bufferStart + s.chunkDelta ≤ buf.length) :
    ∃ d', (copyFrom createIfMissing (fun p (_ : Unit) a b n => writeToChunk p buf a b n) f ss ()
      : DataM σ Unit) (d, e) = .ok () (d', e) ∧
      WroteAll f d (ss.map (Segment.store buf)) d' ∧ d'.WF := by
  induction ss generalizing d with
  | nil => exact ⟨d, rfl, .nil, H⟩
  | cons s ss ih =>
    obtain ⟨d₁, hrun, h1⟩ := writeTurn_spec (f := f) (n := s.count) (a := s.chunkStart) (e := e) H
      (hin s List.mem_cons_self)
    obtain ⟨d₂, hrun', h2, H'⟩ := ih h1.wf fun t ht => hin t (List.mem_cons_of_mem _ ht)
    exact ⟨d₂, by rw [copyFrom_cons, Exec.bind_of_ok hrun, hrun'], .cons h1 h2, H'⟩

theorem copyFrom_write_overrun (H : d.WF) {ss : List Segment}
    (hout : ∃ s ∈ ss, buf.length < s.bufferStart + s.chunkDelta) :
    ∃ d', (copyFrom createIfMissing (fun p (_ : Unit) a b n => writeToChunk p buf a b n) f ss ()
      : DataM σ Unit) (d, e) = .error .undefined (d', e) := by
  induction ss generalizing d with
  | nil => obtain ⟨_, h, _⟩ := hout; cases h
  | cons s ss ih =>
    rw [copyFrom_cons]
    by_cases hs : buf.length < s.bufferStart + s.chunkDelta
    · obtain ⟨d', hrun⟩ := writeTurn_overrun (f := f) (n := s.count) (a := s.chunkStart)
        (e := e) H hs
      exact ⟨d', Exec.bind_of_error hrun⟩
    · obtain ⟨d₁, hrun, h1⟩ := writeTurn_spec (f := f) (n := s.count) (a := s.chunkStart)
        (e := e) H (Nat.le_of_not_lt hs)
      obtain ⟨t, ht, hlt⟩ := hout
      obtain rfl | ht := List.mem_cons.mp ht
      · exact (hs hlt).elim
      obtain ⟨d', hrun'⟩ := ih h1.wf ⟨t, ht, hlt⟩
      exact ⟨d', by rw [Exec.bind_of_ok hrun, hrun']⟩

/-- A write of at most `CHUNK_SIZE` bytes returns, and has stored every segment. -/
theorem write_spec (H : d.WF) (hs : buf.length ≤ CHUNK_SIZE) (ho : buf.length + offset < 2 ^ 64) :
    ∃ d', (write f buf buf.length offset : DataM σ Unit) (d, e) = .ok () (d', e) ∧
      WroteAll f d ((segments buf.length offset).map (Segment.store buf)) d' ∧ d'.WF := by
  apply copyFrom_write_spec H
  intro s hmem
  rw [segments_of_le hs ho] at hmem
  rcases List.mem_cons.mp hmem with rfl | hmem
  · simp
  · split at hmem
    · cases List.mem_singleton.mp hmem; simp
    · cases hmem

/-- A write that returns has stored all its segments, and did not touch the environment. -/
theorem write_ok (H : d.WF) (h : write f buf n offset (d, e) = .ok () (d', e')) :
    e' = e ∧ WroteAll f d ((segments n offset).map (Segment.store buf)) d' ∧ d'.WF := by
  by_cases hin : ∀ s ∈ segments n offset, s.bufferStart + s.chunkDelta ≤ buf.length
  · obtain ⟨d₁, hrun, hw, H'⟩ := copyFrom_write_spec (f := f) (e := e) H hin
    cases hrun.symm.trans h
    exact ⟨rfl, hw, H'⟩
  · obtain ⟨d₁, hrun⟩ := copyFrom_write_overrun (f := f) (e := e) H (by simpa using hin)
    cases hrun.symm.trans h

theorem WroteAll.handle {ss : List Store} (h : WroteAll f d ss d') (k : ChunkKey) (p : Ptr)
    (hp : d.cache.impl.Handle k p) : d'.cache.impl.Handle k p := by
  induction h with
  | nil => exact hp
  | cons h _ ih => exact ih (h.handle k p hp)

theorem wroteAll_nil : WroteAll f d [] d' ↔ d' = d := by
  constructor
  · rintro ⟨⟩; rfl
  · rintro rfl; exact .nil

theorem wroteAll_cons {s : Store} {ss : List Store} :
    WroteAll f d (s :: ss) d' ↔ ∃ d₁, Wrote f d s d₁ ∧ WroteAll f d₁ ss d' := by
  constructor
  · rintro ⟨⟩; exact ⟨_, ‹_›, ‹_›⟩
  · rintro ⟨d₁, h, h'⟩; exact .cons h h'

theorem Written.of_wroteAll (hs : buf.length ≤ CHUNK_SIZE) (ho : buf.length + offset < 2 ^ 64)
    (h : WroteAll f d ((segments buf.length offset).map (Segment.store buf)) d') :
    Written f buf offset d d' := by
  have hne := toInt_succ_ne (offset / CHUNK_SIZE)
  rw [segments_of_le hs ho, List.map_cons, wroteAll_cons] at h
  obtain ⟨d₁, h1, h⟩ := h
  simp only [Segment.store, Vec.slice_zero] at h1
  by_cases hcross : CHUNK_SIZE ≤ offset % CHUNK_SIZE + buf.length
  · rw [if_pos hcross, List.map_cons, wroteAll_cons] at h
    obtain ⟨d₂, h2, h⟩ := h
    cases wroteAll_nil.mp h
    have hnil : Vec.slice buf buf.length 0 = [] := by simp [Vec.slice]
    simp only [Segment.store, hnil] at h2
    refine ⟨h2.wf, ?_, ?_, ?_, ?_, ?_⟩
    · rw [h2.chunk?, if_neg fun h => hne h.2.symm, h1.chunk?, if_pos ⟨rfl, rfl⟩]
    · intro _
      rw [h2.chunk?, if_pos ⟨rfl, rfl⟩, h1.chunk?, if_neg fun h => hne h.2, Vec.store_nil]
    · intro g j hv
      rw [h2.chunk?, if_neg fun h => hv ⟨h.1, .inr ⟨hcross, h.2⟩⟩, h1.chunk?,
        if_neg fun h => hv ⟨h.1, .inl h.2⟩]
    · intro g j
      rw [h2.isDirty, h1.isDirty, Visits]
      tauto
    · intro g j
      rw [h2.index, h1.index, Visits]
      tauto
  · rw [if_neg hcross, List.map_nil, wroteAll_nil] at h
    cases h
    refine ⟨h1.wf, ?_, fun h => (hcross h).elim, ?_, ?_, ?_⟩
    · rw [h1.chunk?, if_pos ⟨rfl, rfl⟩]
    · intro g j hv
      rw [h1.chunk?, if_neg fun h => hv ⟨h.1, .inl h.2⟩]
    · intro g j
      rw [h1.isDirty, Visits]
      tauto
    · intro g j
      rw [h1.index, Visits]
      tauto

theorem write_written (H : d.WF) (hs : buf.length ≤ CHUNK_SIZE)
    (ho : buf.length + offset < 2 ^ 64) :
    ∃ d', (write f buf buf.length offset : DataM σ Unit) (d, e) = .ok () (d', e) ∧
      Written f buf offset d d' := by
  obtain ⟨d', hrun, hw, _⟩ := write_spec H hs ho
  exact ⟨d', hrun, .of_wroteAll hs ho hw⟩

/-- A write of more than `CHUNK_SIZE` bytes reads past the end of the caller's buffer. -/
theorem write_overrun (H : d.WF) (hs : CHUNK_SIZE < buf.length)
    (ho : buf.length + offset < 2 ^ 64) :
    ∃ d', (write f buf buf.length offset : DataM σ Unit) (d, e) =
      .error .undefined (d', e) :=
  copyFrom_write_overrun H (exists_overrun hs ho)

/-! ## `read` and `truncate` on cached chunks -/

/-- `raise_if_missing` finds a cached chunk without a word to the policy. -/
theorem raiseIfMissing_hit (h : d.cache.impl.read ⟨f, toInt n⟩ = some p) :
    raiseIfMissing P f n (d, e) = .ok p (d, e) := by
  unfold raiseIfMissing
  generalize toInt n = i at h ⊢
  exact onCache_ok (Cache.call_hit h)

theorem raiseIfMissing_error {stop : Stop} {s t : DataSink × σ}
    (h : raiseIfMissing P f n s = .error stop t) :
    stop = .blocked ∨ ∃ e', P.preRead (.ofKey ⟨f, toInt n⟩) s.2 = .error stop e' := by
  unfold raiseIfMissing at h
  generalize toInt n = i at h ⊢
  obtain ⟨s₁, hcall, _⟩ := Exec.zoom_eq_error h
  exact Cache.call_error hcall

theorem raiseIfMissing_fetched (hP : P.KeepsKey)
    (h : raiseIfMissing P f n (d, e) = .ok p (d', e')) : Fetched P d e f (toInt n) p d' e' := by
  unfold raiseIfMissing at h
  generalize toInt n = i at h ⊢
  obtain ⟨⟨c, e₁⟩, hrun, heq⟩ := Exec.zoom_eq_ok h
  cases heq
  have hslot : Cache.slot ChunkData (⟨f, i⟩ : ChunkKey) = ⟨f, i⟩ := rfl
  cases hr : d.cache.impl.read ⟨f, i⟩ with
  | some q =>
    rw [Cache.call_hit (hslot ▸ hr)] at hrun
    cases hrun
    exact .hit hr
  | none =>
    cases hv : P.preRead (CacheValue.newPointer (⟨f, i⟩ : ChunkKey)) e with
    | error stop e₂ =>
      rw [Cache.call_raised (hslot ▸ hr) hv] at hrun
      cases hrun
    | ok v e₂ =>
      have hk : CacheValue.getKey v = (⟨f, i⟩ : ChunkKey) := hP _ _ _ _ hv
      by_cases hcv : (⟨f, i⟩ : ChunkKey) ∈ d.cache.cv
      · rw [Cache.call_blocked (hslot ▸ hr) hv (hk ▸ hcv)] at hrun
        cases hrun
      · rw [Cache.call_miss (hslot ▸ hr) hv (hk ▸ hcv), hk] at hrun
        cases hrun
        exact .miss hr rfl hv hk hcv

/-- The chunks when `v` has been put in the cache. -/
theorem chunk?_insert_alloc (H : d.WF) {cv : ExtTreeSet ChunkKey} (g : Str) (j : Int) :
    chunk? { d with cache :=
      { impl := (d.cache.impl.alloc v).2.insert ⟨f, i⟩ (d.cache.impl.alloc v).1, cv := cv } } g j =
      if g = f ∧ j = i then some v.data else d.chunk? g j := by
  simp only [DataSink.chunk?, H.cache.get?_insert_alloc, ChunkKey.mk.injEq, eq_comm (b := g),
    eq_comm (b := j)]
  split <;> rfl

namespace Fetched

theorem wf (h : Fetched P d e f i p d' e') (H : d.WF) : d'.WF := by
  cases h with
  | hit => exact H
  | miss hr _ _ hk => exact ⟨H.cache.insert_alloc hr hk, H.indexed⟩

theorem read (h : Fetched P d e f i p d' e') : d'.cache.impl.read ⟨f, i⟩ = some p := by
  cases h with
  | hit hr => exact hr
  | miss _ hp => rw [BasicCache.read_insert, if_pos rfl, hp]; rfl

theorem isDirty (h : Fetched P d e f i p d' e') : d'.IsDirty g j ↔ d.IsDirty g j := by
  cases h <;> rfl

theorem index (h : Fetched P d e f i p d' e') : d'.index g = d.index g := by
  cases h <;> rfl

/-- The chunks afterwards. -/
theorem chunk?_cases (h : Fetched P d e f i p d' e') (H : d.WF) : (d' = d ∧ e' = e) ∨
    d.chunk? f i = none ∧ ∃ v, P.preRead (.ofKey ⟨f, i⟩) e = .ok v e' ∧ v.getKey = ⟨f, i⟩ ∧
      ∀ g j, d'.chunk? g j = if g = f ∧ j = i then some v.data else d.chunk? g j := by
  cases h with
  | hit => exact .inl ⟨rfl, rfl⟩
  | miss hr _ hv hk =>
    exact .inr ⟨(read_eq_none_iff H).mp hr, _, hv, hk, fun g j => chunk?_insert_alloc H g j⟩

end Fetched

/-- `read_from_chunk` inside a chunk and the buffer. -/
theorem readFromChunk_ok (hv : d.cache.impl.heap p = some v) (hin : a + m ≤ v.data.length)
    (hout : b + m ≤ dest.length) :
    (readFromChunk p dest a b m : DataM σ (List Byte)) (d, e) =
      .ok (Vec.memcpy dest b (Vec.slice v.data a m)) (d, e) := by
  rw [readFromChunk, Exec.bind_of_ok (deref_ok hv),
    Exec.bind_of_ok (Exec.require_ok (Nat.le_of_add_left_le hin)),
    Exec.bind_of_ok (Exec.require_ok hin), Exec.bind_of_ok (Exec.require_ok hout),
    Exec.pure_apply]

/-- A turn of `read` inside a cached chunk. -/
theorem readTurn_spec (H : d.WF) (h : d.chunk? f (toInt n) = some data) (hin : a + m ≤ data.length)
    (hout : b + m ≤ dest.length) :
    (raiseIfMissing P f n >>= fun p => readFromChunk p dest a b m) (d, e) =
      .ok (Vec.memcpy dest b (Vec.slice data a m)) (d, e) := by
  obtain ⟨p, hp⟩ := read_of_chunk? h
  obtain ⟨v, hv, hdata, _⟩ := getKey_of_read H hp
  cases Option.some.inj (h.symm.trans hdata)
  rw [Exec.bind_of_ok (raiseIfMissing_hit hp), readFromChunk_ok hv hin hout]

/-- A read whose segments are all inside cached chunks and the buffer asks the policy for nothing
and changes nothing; `buffers` is the buffer turn by turn. -/
theorem copyFrom_read_spec (H : d.WF) {ss : List Segment} {c : Segment → List Byte}
    (hin : ∀ s ∈ ss, d.chunk? f (toInt s.count) = some (c s) ∧
      s.chunkStart + s.chunkDelta ≤ (c s).length ∧
      s.bufferStart + s.chunkDelta ≤ dest.length) :
    copyFrom (raiseIfMissing P) readFromChunk f ss dest (d, e) =
      .ok (ss.foldl (fun dest s => Vec.memcpy dest s.bufferStart
        (Vec.slice (c s) s.chunkStart s.chunkDelta)) dest) (d, e) := by
  induction ss generalizing dest with
  | nil => rfl
  | cons s ss ih =>
    obtain ⟨hdata, hle, hbuf⟩ := hin s List.mem_cons_self
    have hlen : (Vec.slice (c s) s.chunkStart s.chunkDelta).length = s.chunkDelta := by
      rw [Vec.length_slice]; omega
    rw [copyFrom_cons, Exec.bind_of_ok (readTurn_spec H hdata hle hbuf), List.foldl_cons]
    apply ih
    intro t ht
    rw [Vec.length_memcpy (by omega)]
    exact hin t (List.mem_cons_of_mem _ ht)

theorem truncate_spec (H : d.WF) (h : d.chunk? f (toInt (n / CHUNK_SIZE)) = some data) :
    ∃ d', truncate P f n m (d, e) = .ok () (d', e) ∧ d'.WF ∧ ∀ g j, d'.chunk? g j =
      if g = f ∧ j = toInt (n / CHUNK_SIZE) then some (Vec.resize 0 data (n % CHUNK_SIZE))
      else d.chunk? g j := by
  obtain ⟨p, hp⟩ := read_of_chunk? h
  obtain ⟨v, hv, hdata, hf, hi⟩ := getKey_of_read H hp
  cases Option.some.inj (h.symm.trans hdata)
  let w : ChunkData := { v with data := Vec.resize 0 v.data (n % CHUNK_SIZE) }
  refine ⟨_, ?_, wf_assign (v := w) H hp hf hi, fun g j => chunk?_assign H hp⟩
  rw [truncate, Exec.bind_of_ok (raiseIfMissing_hit hp), Exec.bind_of_ok (deref_ok hv),
    assign_apply]

/-- A `truncate` that returns found its chunk or fetched it, and resized it in place. -/
theorem truncate_ok (hP : P.KeepsKey) (H : d.WF) (h : truncate P f n m (d, e) = .ok () (d', e')) :
    ∃ p d₁ data, Fetched P d e f (toInt (n / CHUNK_SIZE)) p d₁ e' ∧
      d₁.chunk? f (toInt (n / CHUNK_SIZE)) = some data ∧ d'.WF ∧
      (∀ g j, d'.chunk? g j = if g = f ∧ j = toInt (n / CHUNK_SIZE) then
        some (Vec.resize 0 data (n % CHUNK_SIZE)) else d₁.chunk? g j) ∧
      (∀ g j, d'.IsDirty g j ↔ d.IsDirty g j) ∧ ∀ g, d'.index g = d.index g := by
  obtain ⟨p, ⟨d₁, e₁⟩, hraise, hrest⟩ := Exec.bind_eq_ok.mp h
  have hf := raiseIfMissing_fetched hP hraise
  obtain ⟨v, hv, hdata, huid, hcuid⟩ := getKey_of_read (hf.wf H) hf.read
  rw [Exec.bind_of_ok (deref_ok hv), assign_apply] at hrest
  cases hrest
  let w : ChunkData := { v with data := Vec.resize 0 v.data (n % CHUNK_SIZE) }
  exact ⟨p, d₁, v.data, hf, hdata, wf_assign (v := w) (hf.wf H) hf.read huid hcuid,
    fun g j => chunk?_assign (hf.wf H) hf.read, fun g j => hf.isDirty, fun g => hf.index⟩

/-- A turn of `read` that returns has changed nothing but for the chunk it fetched, and was inside
that chunk and the buffer. -/
theorem readTurn_ok (hP : P.KeepsKey) (H : d.WF) {dest' : List Byte}
    (h : (raiseIfMissing P f n >>= fun p => readFromChunk p dest a b m) (d, e) =
      .ok dest' (d', e')) :
    ∃ p data, Fetched P d e f (toInt n) p d' e' ∧ d'.chunk? f (toInt n) = some data ∧
      a + m ≤ data.length ∧ b + m ≤ dest.length ∧
      dest' = Vec.memcpy dest b (Vec.slice data a m) := by
  obtain ⟨p, ⟨d₁, e₁⟩, hraise, hrest⟩ := Exec.bind_eq_ok.mp h
  have hf := raiseIfMissing_fetched hP hraise
  obtain ⟨v, hv, hdata, _⟩ := getKey_of_read (hf.wf H) hf.read
  rw [readFromChunk, Exec.bind_of_ok (deref_ok hv)] at hrest
  obtain ⟨_, _, h1, hrest⟩ := Exec.bind_eq_ok.mp hrest
  obtain ⟨_, _, h2, hrest⟩ := Exec.bind_eq_ok.mp hrest
  obtain ⟨_, _, h3, hrest⟩ := Exec.bind_eq_ok.mp hrest
  obtain ⟨_, rfl⟩ := Exec.require_eq_ok h1
  obtain ⟨hin, rfl⟩ := Exec.require_eq_ok h2
  obtain ⟨hout, rfl⟩ := Exec.require_eq_ok h3
  cases hrest
  exact ⟨p, v.data, hf, hdata, hin, hout, rfl⟩

/-! ## `purge` -/

theorem isDirty_erase :
    IsDirty { d with cache := { d.cache with impl := d.cache.impl.erase ⟨f, i⟩ } } g j ↔
      ¬(g = f ∧ j = i) ∧ d.IsDirty g j := by
  refine BasicCache.isDirty_erase.trans (and_congr_left fun _ => ?_)
  rw [Ne, ChunkKey.mk.injEq, eq_comm (b := g), eq_comm (b := j)]

theorem chunk?_erase (H : d.WF) :
    chunk? { d with cache := { d.cache with impl := d.cache.impl.erase ⟨f, i⟩ } } g j =
      if g = f ∧ j = i then none else d.chunk? g j := by
  simp only [chunk?, H.cache.get?_erase, ChunkKey.mk.injEq, eq_comm (b := g), eq_comm (b := j)]
  split <;> rfl

theorem wf_erase (H : d.WF) :
    WF { d with cache := { d.cache with impl := d.cache.impl.erase ⟨f, i⟩ } } where
  cache := H.cache.erase
  indexed h := H.indexed (isDirty_erase.mp h).2

/-- A walk takes off the first chunk and then the rest. -/
theorem not_mem_walk {is : List Int} {D : Prop} :
    (¬(g = f ∧ j ∈ is) ∧ ¬(g = f ∧ j = i) ∧ D) ↔ ¬(g = f ∧ j ∈ i :: is) ∧ D := by
  rw [← and_assoc, ← not_or, ← and_or_left, List.mem_cons, or_comm (a := j ∈ is)]

theorem forIndexed_purge_spec (hP : ∀ v e, P.onErase v e = .ok () e) (H : d.WF) (is : List Int) :
    ∃ d', forIndexed (Cache.purge P) f is (d, e) = .ok () (d', e) ∧ Purged f is d d' := by
  induction is generalizing d with
  | nil => exact ⟨d, rfl, H, by simp, by simp, fun _ => rfl, fun _ _ h => h⟩
  | cons i is ih =>
    let d₁ : DataSink := { d with cache := { d.cache with impl := d.cache.impl.erase ⟨f, i⟩ } }
    have hrun : onCache (Cache.purge P ⟨f, i⟩) (d, e) = .ok () (d₁, e) :=
      onCache_ok (Cache.purge_ok (hP _ _))
    obtain ⟨d', hrun', h⟩ := ih (d := d₁) (wf_erase H)
    refine ⟨d', (Exec.bind_of_ok hrun).trans hrun', h.wf, ?_, ?_, h.index, ?_⟩
    · intro g j
      rw [h.chunk?, chunk?_erase H, ← ite_or]
      refine if_congr ?_ rfl rfl
      rw [← and_or_left, List.mem_cons, or_comm]
    · intro g j
      rw [h.isDirty, isDirty_erase, not_mem_walk]
    · intro k p hp
      exact h.handle k p hp.erase

theorem purge_spec (hP : ∀ v e, P.onErase v e = .ok () e) (H : d.WF) :
    ∃ d', purge P f (d, e) = .ok () (d', e) ∧ Purged f (d.index f).toList d d' :=
  forIndexed_purge_spec hP H _

/-! ## `invalidate` -/

theorem isDirty_clearDirty :
    IsDirty { d with cache := { d.cache with impl := d.cache.impl.clearDirty ⟨f, i⟩ } } g j ↔
      ¬(g = f ∧ j = i) ∧ d.IsDirty g j := by
  refine BasicCache.isDirty_clearDirty.trans (and_congr_left fun _ => ?_)
  rw [Ne, ChunkKey.mk.injEq, eq_comm (b := g), eq_comm (b := j)]

theorem wf_clearDirty (H : d.WF) :
    WF { d with cache := { d.cache with impl := d.cache.impl.clearDirty ⟨f, i⟩ } } where
  cache := H.cache.clearDirty
  indexed h := H.indexed (isDirty_clearDirty.mp h).2

/-- A walk that starts with a clean chunk comes past the same dirty ones. -/
theorem mem_walk_of_isDirty {is : List Int} (hi : ¬d.IsDirty f i) (hg : d.IsDirty g j) :
    (g = f ∧ j ∈ i :: is) ↔ (g = f ∧ j ∈ is) := by
  apply and_congr_right
  rintro rfl
  rw [List.mem_cons, or_iff_right]
  rintro rfl
  exact hi hg

theorem forIndexed_invalidate_spec {flushed : σ → ChunkKey → Option (List Byte)}
    (hP : ∀ v e, ∃ e', P.onFlush v e = .ok () e' ∧
      ∀ k, flushed e' k = if k = v.getKey then some v.data else flushed e k)
    (H : d.WF) (is : List Int) :
    ∃ d' e', forIndexed (Cache.invalidate P) f is (d, e) = .ok () (d', e') ∧
      Invalidated flushed f is d e d' e' := by
  induction is generalizing d e with
  | nil => exact ⟨d, e, rfl, H, fun _ _ => rfl, fun _ => rfl, by simp, by simp⟩
  | cons i is ih =>
    by_cases hi : d.IsDirty f i
    · obtain ⟨p, hp⟩ := H.cache.read_of_isDirty hi
      obtain ⟨v, hv, hdata, huid, hcuid⟩ := getKey_of_read H hp
      obtain ⟨e₁, hflush, hnet⟩ := hP v e
      let d₁ : DataSink :=
        { d with cache := { d.cache with impl := d.cache.impl.clearDirty ⟨f, i⟩ } }
      have hrun : onCache (Cache.invalidate P ⟨f, i⟩) (d, e) = .ok () (d₁, e₁) :=
        onCache_ok (Cache.invalidate_dirty hi hp hv hflush)
      obtain ⟨d', e', hrun', h⟩ := ih (d := d₁) (e := e₁) (wf_clearDirty H)
      refine ⟨d', e', (Exec.bind_of_ok hrun).trans hrun', h.wf, h.chunk?, h.index, ?_, ?_⟩
      · intro g j
        rw [h.isDirty, isDirty_clearDirty, not_mem_walk]
      · intro g j
        have hkey : (⟨g, j⟩ : ChunkKey) = v.getKey ↔ g = f ∧ j = i := by
          simp [ChunkData.getKey, huid, hcuid]
        rw [h.flushed, hnet]
        by_cases hgj : g = f ∧ j = i
        · obtain ⟨rfl, rfl⟩ := hgj
          rw [if_neg fun h => (isDirty_clearDirty.mp h.2).1 ⟨rfl, rfl⟩,
            if_pos (hkey.mpr ⟨rfl, rfl⟩), if_pos ⟨⟨rfl, List.mem_cons_self⟩, hi⟩, hdata]
        · rw [if_neg fun h => hgj (hkey.mp h)]
          have hmem : (g = f ∧ j ∈ is) ∧ d₁.IsDirty g j ↔
              (g = f ∧ j ∈ i :: is) ∧ d.IsDirty g j := by
            rw [isDirty_clearDirty, List.mem_cons]; tauto
          simp only [hmem]; rfl
    · have hrun : onCache (Cache.invalidate P ⟨f, i⟩) (d, e) = .ok () (d, e) :=
        onCache_ok (Cache.invalidate_clean hi)
      obtain ⟨d', e', hrun', h⟩ := ih (e := e) H
      refine ⟨d', e', (Exec.bind_of_ok hrun).trans hrun', h.wf, h.chunk?, h.index, ?_, ?_⟩
      · intro g j
        rw [h.isDirty]
        exact and_congr_left fun hg => not_congr (mem_walk_of_isDirty hi hg).symm
      · intro g j
        rw [h.flushed]
        refine if_congr ?_ rfl rfl
        exact and_congr_left fun hg => (mem_walk_of_isDirty hi hg).symm

theorem invalidate_spec {flushed : σ → ChunkKey → Option (List Byte)}
    (hP : ∀ v e, ∃ e', P.onFlush v e = .ok () e' ∧
      ∀ k, flushed e' k = if k = v.getKey then some v.data else flushed e k) (H : d.WF) :
    ∃ d' e', invalidate P f (d, e) = .ok () (d', e') ∧
      Invalidated flushed f (d.index f).toList d e d' e' :=
  forIndexed_invalidate_spec hP H _

end DataSink

end ColonyFS

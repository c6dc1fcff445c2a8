import ColonyFS.Api.Aggregator
import ColonyFS.Cache.Shape

/-!
# Chunk stores of one shape

Which chunks a method visits, fetches, stores and drops, and whether it returns, does not depend on
the bytes of the files, but for their number.
-/

namespace ColonyFS

open Exec (Rel Related)

namespace DataSink

/-- Two stores, each with its chunk servers, that differ in bytes only. -/
structure SameShape (s t : DataSink × Net) : Prop where
  indexMap : t.1.indexMap = s.1.indexMap
  cache : Cache.Alike ChunkData.shape Net.SameShape (s.1.cache, s.2) (t.1.cache, t.2)

/-- Two buffers of one length. -/
def SameLength (b b' : List Byte) : Prop := b.length = b'.length

variable {β β' γ γ' : Type} {S : β → β' → Prop} {s t : DataSink × Net} {f : Str} {i : Int} {n : Nat}
  {b b' : List Byte} {p : Ptr} {data : List Byte}

theorem rel_onCache {x : CacheM ChunkKey ChunkData Net β} {y : CacheM ChunkKey ChunkData Net β'}
    (h : Rel (Cache.Alike ChunkData.shape Net.SameShape) S x y) :
    Rel SameShape S (onCache x) (onCache y) :=
  h.zoom (fun _ _ h => h.cache) fun _ _ _ _ h h' => ⟨h.indexMap, h'⟩

theorem rel_createIfMissing : Rel SameShape Eq (createIfMissing f n) (createIfMissing f n) := by
  refine (rel_onCache (Cache.rel_subscript _)).bind_eq fun p => ?_
  refine (rel_onCache (Cache.rel_deref p)).bind fun v w hs => ?_
  obtain ⟨hu, hc, _⟩ := ChunkData.shape_eq hs
  refine Rel.bind_eq (Rel.modify fun s t h => ⟨?_, h.cache⟩) fun _ => .pure rfl
  simp only [indexInsert, index, h.indexMap, hu, hc]

theorem rel_raiseIfMissing : Rel SameShape Eq (raiseIfMissing DataOnFlush.policy f n)
    (raiseIfMissing DataOnFlush.policy f n) :=
  rel_onCache (Cache.rel_call DataOnFlush.uniform _)

theorem rel_writeToChunk (hb : SameLength b b') {x y m : Nat} :
    Rel SameShape Eq (writeToChunk p b x y m) (writeToChunk p b' x y m) := by
  refine (rel_onCache (Cache.rel_deref p)).bind fun v w hs => ?_
  obtain ⟨hu, hc, hl⟩ := ChunkData.shape_eq hs
  have hb : b.length = b'.length := hb
  refine (Rel.require (by rw [hb]) _).bind_eq fun _ => rel_onCache (Cache.rel_assign p ?_)
  simp only [ChunkData.shape, ChunkData.getKey, hu, hc, Vec.length_store, hl, Vec.length_slice, hb]

theorem rel_readFromChunk (hb : SameLength b b') {x y m : Nat} :
    Rel SameShape SameLength (readFromChunk p b x y m) (readFromChunk p b' x y m) := by
  refine (rel_onCache (Cache.rel_deref p)).bind fun v w hs => ?_
  obtain ⟨_, _, hl⟩ := ChunkData.shape_eq hs
  have hb : b.length = b'.length := hb
  refine .require_bind (by rw [hl]) fun _ => .require_bind (by rw [hl]) fun hin =>
    .require_bind (by rw [hb]) fun hout => .pure ?_
  rw [SameLength, Vec.length_memcpy (by rw [Vec.length_slice]; omega),
    Vec.length_memcpy (by rw [Vec.length_slice]; omega), hb]

theorem rel_copyFrom {T : γ → γ' → Prop} {key : Str → Nat → DataM Net Ptr}
    (act : Ptr → γ → Nat → Nat → Nat → DataM Net γ)
    (act' : Ptr → γ' → Nat → Nat → Nat → DataM Net γ')
    (hkey : ∀ n, Rel SameShape Eq (key f n) (key f n))
    (hact : ∀ p c c' x y m, T c c' → Rel SameShape T (act p c x y m) (act' p c' x y m))
    (ss : List Segment) {c : γ} {c' : γ'} (hc : T c c') :
    Rel SameShape T (copyFrom key act f ss c) (copyFrom key act' f ss c') := by
  induction ss generalizing c c' with
  | nil => exact .pure hc
  | cons s ss ih =>
    exact (hkey _).bind_eq fun p => (hact p _ _ _ _ _ hc).bind fun _ _ hc => ih hc

/-- Two writes of as many bytes. -/
theorem rel_write (hb : SameLength b b') {size offset : Nat} :
    Rel SameShape Eq (write f b size offset) (write f b' size offset) :=
  rel_copyFrom (fun p _ x y m => writeToChunk p b x y m) (fun p _ x y m => writeToChunk p b' x y m)
    (fun _ => rel_createIfMissing) (fun _ _ _ _ _ _ _ => rel_writeToChunk hb) _ rfl

theorem rel_read (hb : SameLength b b') {size offset : Nat} : Rel SameShape SameLength
    (read DataOnFlush.policy f b size offset) (read DataOnFlush.policy f b' size offset) :=
  rel_copyFrom readFromChunk readFromChunk (fun _ => rel_raiseIfMissing) (fun _ _ _ _ _ _ h => rel_readFromChunk h) _ hb

theorem rel_truncate {m : Nat} : Rel SameShape Eq (truncate DataOnFlush.policy f n m)
    (truncate DataOnFlush.policy f n m) := by
  refine rel_raiseIfMissing.bind_eq fun p => ?_
  refine (rel_onCache (Cache.rel_deref p)).bind fun v w hs => rel_onCache (Cache.rel_assign p ?_)
  obtain ⟨hu, hc, _⟩ := ChunkData.shape_eq hs
  simp only [ChunkData.shape, ChunkData.getKey, hu, hc, Vec.length_resize]

theorem rel_forIndexed {g : ChunkKey → CacheM ChunkKey ChunkData Net Unit}
    (hg : ∀ k, Rel (Cache.Alike ChunkData.shape Net.SameShape) Eq (g k) (g k)) (is : List Int) :
    Rel SameShape Eq (forIndexed g f is) (forIndexed g f is) := by
  induction is with
  | nil => exact .pure rfl
  | cons i is ih => exact (rel_onCache (hg _)).bind_eq fun _ => ih

/-- The walks of `invalidate` and `purge`. -/
theorem rel_walk {g : ChunkKey → CacheM ChunkKey ChunkData Net Unit}
    (hg : ∀ k, Rel (Cache.Alike ChunkData.shape Net.SameShape) Eq (g k) (g k)) :
    Rel SameShape Eq (do forIndexed g f ((← get).1.index f).toList)
      (do forIndexed g f ((← get).1.index f).toList) := by
  intro s t h
  have hindex : t.1.index f = s.1.index f := by rw [index, h.indexMap, index]
  have hrun : Related SameShape Eq (forIndexed g f (s.1.index f).toList s)
      (forIndexed g f (t.1.index f).toList t) := by
    rw [hindex]
    exact rel_forIndexed hg _ s t h
  exact hrun

theorem rel_invalidate : Rel SameShape Eq (invalidate DataOnFlush.policy f)
    (invalidate DataOnFlush.policy f) :=
  rel_walk (Cache.rel_invalidate DataOnFlush.uniform)

theorem rel_purge : Rel SameShape Eq (purge DataOnFlush.policy f) (purge DataOnFlush.policy f) :=
  rel_walk (Cache.rel_purge DataOnFlush.uniform)

end DataSink

end ColonyFS

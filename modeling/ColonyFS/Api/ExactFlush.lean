import ColonyFS.Api.Aggregator
import ColonyFS.Cache.DataOnFlush
import ColonyFS.Lib.Machine

/-!
# Which chunks a flush hands over

`invalidate(filename)` walks over the index of the file, `invalidate()` over `dirty_`. In every
state of a run of returning calls the two agree: the index of a file has every dirty chunk of it,
and what it has besides is skipped.
-/

namespace ColonyFS

open Std
open Machine

/-- The calls on the chunk store. -/
inductive SinkAct where
  | write (f : Str) (buffer : List Byte) (size offset : Nat)
  | read (f : Str) (buffer : List Byte) (size offset : Nat)
  | truncate (f : Str) (newSize oldSize : Nat)
  | invalidate (f : Str)
  | purge (f : Str)
  | invalidateAll

namespace DataSink

variable {σ : Type} (P : Policy ChunkData σ) (onDone : EStateM Stop σ Unit)

/-- The state after a call that returns. -/
def step (s : DataSink × σ) : SinkAct → Option (DataSink × σ)
  | .write f buffer size offset => Exec.state? (write f buffer size offset s)
  | .read f buffer size offset => Exec.state? (read P f buffer size offset s)
  | .truncate f newSize oldSize => Exec.state? (truncate P f newSize oldSize s)
  | .invalidate f => Exec.state? (invalidate P f s)
  | .purge f => Exec.state? (purge P f s)
  | .invalidateAll => Exec.state? (invalidateAll P onDone s)

/-- Call `OnFlush` for one chunk after the other. -/
def flushEach : List ChunkData → EStateM Stop σ Unit
  | [] => pure ()
  | v :: vs => do
    P.onFlush v
    flushEach vs

/-- The chunks of `f` that have to be written back, in increasing order. -/
structure DirtyChunks (d : DataSink) (f : Str) (vs : List ChunkData) : Prop where
  increasing : (vs.map ChunkData.cuid).Pairwise (· < ·)
  mem : ∀ v, v ∈ vs ↔ v.uid = f ∧ d.IsDirty f v.cuid ∧ d.chunk? f v.cuid = some v.data

variable {P onDone} {d d' : DataSink} {e e' : σ} {s s' : DataSink × σ} {f g : Str} {i j : Int}
  {act : SinkAct} {v : ChunkData}

/-! ## Every call keeps the invariant -/

theorem wf_of_read (hP : P.KeepsKey) (H : d.WF) {ss : List Segment} {dest dest' : List Byte}
    (h : copyFrom (raiseIfMissing P) readFromChunk f ss dest (d, e) = .ok dest' (d', e')) :
    d'.WF := by
  induction ss generalizing d e dest with
  | nil => cases h; exact H
  | cons t ss ih =>
    rw [copyFrom_cons] at h
    obtain ⟨dest₁, ⟨d₁, e₁⟩, hturn, h⟩ := Exec.bind_eq_ok.mp h
    obtain ⟨p, _, hf, _⟩ := readTurn_ok hP H hturn
    exact ih (hf.wf H) h

theorem wf_clearAllDirty (H : d.WF) :
    WF { d with cache := { d.cache with impl := d.cache.impl.clearAllDirty } } where
  cache := H.cache.clearAllDirty
  indexed h := (BasicCache.not_isDirty_clearAllDirty h).elim

theorem wf_forIndexed {x : ChunkKey → CacheM ChunkKey ChunkData σ Unit}
    (hx : ∀ i d e d' e', WF d → onCache (x ⟨f, i⟩) (d, e) = .ok () (d', e') → WF d') (H : d.WF)
    {is : List Int} (h : forIndexed x f is (d, e) = .ok () (d', e')) : d'.WF := by
  induction is generalizing d e with
  | nil => cases h; exact H
  | cons i is ih =>
    obtain ⟨_, ⟨d₁, e₁⟩, hrun, h⟩ := Exec.bind_eq_ok.mp h
    exact ih (hx i d e d₁ e₁ H hrun) h

theorem onCache_final {x : CacheM ChunkKey ChunkData σ Unit}
    (h : onCache x (d, e) = .ok () (d', e')) :
    d' = { d with cache := (Exec.final (x (d.cache, e))).1 } := by
  obtain ⟨⟨c, e₁⟩, hrun, heq⟩ := Exec.zoom_eq_ok h
  cases heq
  rw [hrun]
  rfl

theorem wf_of_invalidate (i : Int) (H : d.WF)
    (h : onCache (Cache.invalidate P ⟨f, i⟩) (d, e) = .ok () (d', e')) : d'.WF := by
  obtain hc | hc := Cache.invalidate_cache P (⟨f, i⟩ : ChunkKey) d.cache e
  · rw [onCache_final h, hc]
    exact H
  · rw [onCache_final h, hc]
    exact wf_clearDirty H

theorem wf_of_purge (i : Int) (H : d.WF)
    (h : onCache (Cache.purge P ⟨f, i⟩) (d, e) = .ok () (d', e')) : d'.WF := by
  have hc : (Exec.final (Cache.purge P ⟨f, i⟩ (d.cache, e))).1 =
      { d.cache with impl := d.cache.impl.erase ⟨f, i⟩ } := by
    rw [Cache.purge_apply]
    exact Cache.final_withEnv
  rw [onCache_final h, hc]
  exact wf_erase H

theorem wf_of_step (hP : P.KeepsKey) (H : s.1.WF) (h : step P onDone s act = some s') :
    s'.1.WF := by
  obtain ⟨d, e⟩ := s
  obtain ⟨d', e'⟩ := s'
  cases act with
  | write f buffer size offset =>
    obtain ⟨_, h⟩ := Exec.of_state? h
    exact (write_ok H h).2.2
  | read f buffer size offset =>
    obtain ⟨_, h⟩ := Exec.of_state? h
    exact wf_of_read hP H h
  | truncate f newSize oldSize =>
    obtain ⟨_, h⟩ := Exec.of_state? h
    obtain ⟨_, _, _, _, _, hwf, _⟩ := truncate_ok hP H h
    exact hwf
  | invalidate f =>
    obtain ⟨_, h⟩ := Exec.of_state? h
    exact wf_forIndexed (fun i _ _ _ _ H h => wf_of_invalidate i H h) H h
  | purge f =>
    obtain ⟨_, h⟩ := Exec.of_state? h
    exact wf_forIndexed (fun i _ _ _ _ H h => wf_of_purge i H h) H h
  | invalidateAll =>
    obtain ⟨_, h⟩ := Exec.of_state? h
    obtain hc | hc := Cache.invalidateAll_cache P onDone d.cache e
    · rw [onCache_final h, hc]
      exact H
    · rw [onCache_final h, hc]
      exact wf_clearAllDirty H

theorem wf_of_reach (hP : P.KeepsKey) (H : d.WF) (h : Reach (step P onDone) always (d, e) s) :
    s.1.WF :=
  Reach.invariant (P := fun s => s.1.WF) h H fun _ _ _ H _ hstep => wf_of_step hP H hstep

/-! ## A walk over the index -/

/-- The cached chunk, if it has to be written back. -/
def dirtyChunk? (d : DataSink) (f : Str) (i : Int) : Option ChunkData :=
  if d.IsDirty f i then d.cache.impl.get? ⟨f, i⟩ else none

theorem dirtyChunk?_eq_some (H : d.WF) : d.dirtyChunk? f i = some v ↔
    v.uid = f ∧ v.cuid = i ∧ d.IsDirty f i ∧ d.chunk? f i = some v.data := by
  have hkey : ∀ w, d.cache.impl.get? ⟨f, i⟩ = some w → w.uid = f ∧ w.cuid = i := by
    intro w hw
    obtain ⟨p, hp, hw⟩ := Option.bind_eq_some_iff.mp hw
    obtain ⟨u, hu, hk⟩ := H.cache.live hp
    cases hw.symm.trans hu
    cases hk
    exact ⟨rfl, rfl⟩
  simp only [dirtyChunk?, chunk?]
  constructor
  · intro h
    split at h
    · next hd => exact ⟨(hkey v h).1, (hkey v h).2, hd, by rw [h]; rfl⟩
    · cases h
  · rintro ⟨hf, hi, hd, hv⟩
    obtain ⟨w, hw, hdata⟩ := Option.map_eq_some_iff.mp hv
    obtain ⟨hwf, hwi⟩ := hkey w hw
    rw [if_pos hd, hw]
    cases v; cases w
    simp only at hf hi hwf hwi hdata
    rw [hf, hi, hwf, hwi, hdata]

theorem dirtyChunk?_of_isDirty (H : d.WF) (h : d.IsDirty f i) :
    ∃ v, d.dirtyChunk? f i = some v := by
  obtain ⟨p, hp⟩ := H.cache.read_of_isDirty h
  obtain ⟨v, _, hv, _⟩ := H.cache.get?_of_read hp
  exact ⟨v, (if_pos h).trans hv⟩

/-- The dirty chunks among those with the given indices. -/
def dirtyAmong (d : DataSink) (f : Str) (is : List Int) : List ChunkData :=
  is.filterMap (d.dirtyChunk? f)

theorem map_cuid_dirtyAmong (H : d.WF) (is : List Int) :
    (d.dirtyAmong f is).map ChunkData.cuid = is.filter (fun i => d.IsDirty f i) := by
  rw [dirtyAmong, List.map_filterMap, ← List.filterMap_eq_filter]
  refine List.filterMap_congr ?_
  intro i _
  by_cases hd : d.IsDirty f i
  · obtain ⟨v, hv⟩ := dirtyChunk?_of_isDirty H hd
    rw [hv, Option.map_some, ((dirtyChunk?_eq_some H).mp hv).2.1]
    simp [Option.guard, hd]
  · simp [dirtyChunk?, Option.guard, hd]

/-- The index of a file has all its dirty chunks. -/
theorem dirtyChunks_dirtyAmong (H : d.WF) :
    DirtyChunks d f (d.dirtyAmong f (d.index f).toList) where
  increasing := by
    rw [map_cuid_dirtyAmong H]
    refine List.Pairwise.filter _ (ExtTreeSet.ordered_toList.imp ?_)
    intro i j hij
    exact Int.compare_eq_lt.mp hij
  mem v := by
    rw [dirtyAmong, List.mem_filterMap]
    constructor
    · rintro ⟨i, _, hv⟩
      obtain ⟨hf, rfl, hd, hdata⟩ := (dirtyChunk?_eq_some H).mp hv
      exact ⟨hf, hd, hdata⟩
    · rintro ⟨hf, hd, hdata⟩
      exact ⟨v.cuid, ExtTreeSet.mem_toList.mpr (H.indexed hd),
        (dirtyChunk?_eq_some H).mpr ⟨hf, rfl, hd, hdata⟩⟩

/-- What a walk of `invalidate` does to the store if it comes to its end. -/
structure Cleaned (f : Str) (is : List Int) (d d' : DataSink) : Prop where
  wf : d'.WF
  chunk? : ∀ g j, d'.chunk? g j = d.chunk? g j
  isDirty : ∀ g j, d'.IsDirty g j ↔ ¬(g = f ∧ j ∈ is) ∧ d.IsDirty g j

/-- A walk calls `OnFlush` for the dirty chunks it comes past, in its order, and stops when one
throws. -/
theorem forIndexed_invalidate_exact (H : d.WF) {is : List Int} (hnd : is.Nodup) :
    ∃ d', Cleaned f is d d' ∧ ∀ e, Exec.state? (forIndexed (Cache.invalidate P) f is (d, e)) =
      (Exec.state? (flushEach P (d.dirtyAmong f is) e)).map fun e' => (d', e') := by
  induction is generalizing d with
  | nil => exact ⟨d, ⟨H, fun _ _ => rfl, by simp⟩, fun e => rfl⟩
  | cons i is ih =>
    obtain ⟨hi, hnd⟩ := List.nodup_cons.mp hnd
    by_cases hd : d.IsDirty f i
    · obtain ⟨p, hp⟩ := H.cache.read_of_isDirty hd
      obtain ⟨v, hv, hget, _⟩ := H.cache.get?_of_read hp
      let d₁ : DataSink :=
        { d with cache := { d.cache with impl := d.cache.impl.clearDirty ⟨f, i⟩ } }
      obtain ⟨d', hc, hrun⟩ := ih (d := d₁) (wf_clearDirty H) hnd
      refine ⟨d', ⟨hc.wf, hc.chunk?, ?_⟩, ?_⟩
      · intro g j
        rw [hc.isDirty, isDirty_clearDirty, not_mem_walk]
      · intro e
        have hrest : d₁.dirtyAmong f is = d.dirtyAmong f is := by
          refine List.filterMap_congr ?_
          intro j hj
          have hij : d₁.IsDirty f j ↔ d.IsDirty f j := by
            refine isDirty_clearDirty.trans (and_iff_right ?_)
            rintro ⟨_, rfl⟩
            exact hi hj
          simp only [dirtyChunk?, hij]
          rfl
        have hhead : d.dirtyAmong f (i :: is) = v :: d.dirtyAmong f is :=
          List.filterMap_cons_some ((if_pos hd).trans hget)
        rw [hhead]
        simp only [forIndexed, flushEach]
        cases hP : P.onFlush v e with
        | ok _ e₁ =>
          have hi : onCache (Cache.invalidate P ⟨f, i⟩) (d, e) = .ok () (d₁, e₁) :=
            onCache_ok (Cache.invalidate_dirty hd hp hv hP)
          rw [Exec.bind_of_ok hi, Exec.bind_of_ok hP, ← hrest]
          exact hrun e₁
        | error stop e₁ =>
          have hi : onCache (Cache.invalidate P ⟨f, i⟩) (d, e) = .error stop (d, e₁) :=
            onCache_error (Cache.invalidate_raised hd hp hv hP)
          rw [Exec.bind_of_error hi, Exec.bind_of_error hP]
          rfl
    · obtain ⟨d', hc, hrun⟩ := ih H hnd
      refine ⟨d', ⟨hc.wf, hc.chunk?, ?_⟩, ?_⟩
      · intro g j
        rw [hc.isDirty]
        exact and_congr_left fun hg => not_congr (mem_walk_of_isDirty hd hg).symm
      · intro e
        have hskip : d.dirtyAmong f (i :: is) = d.dirtyAmong f is :=
          List.filterMap_cons_none (if_neg hd)
        rw [hskip, ← hrun e]
        have hi : onCache (Cache.invalidate P ⟨f, i⟩) (d, e) = .ok () (d, e) :=
          onCache_ok (Cache.invalidate_clean hd)
        simp only [forIndexed]
        rw [Exec.bind_of_ok hi]

theorem invalidate_exact (H : d.WF) (f : Str) :
    ∃ d', Cleaned f (d.index f).toList d d' ∧ ∀ e, Exec.state? (invalidate P f (d, e)) =
      (Exec.state? (flushEach P (d.dirtyAmong f (d.index f).toList) e)).map fun e' => (d', e') := by
  refine forIndexed_invalidate_exact H ?_
  refine ExtTreeSet.distinct_toList.imp ?_
  rintro i j hij rfl
  exact hij Std.compare_self

/-- With the whole index walked, no chunk of the file is dirty. -/
theorem Cleaned.isDirty_of_index (h : Cleaned f (d.index f).toList d d') (H : d.WF) (g : Str)
    (j : Int) : d'.IsDirty g j ↔ g ≠ f ∧ d.IsDirty g j := by
  rw [h.isDirty]
  refine and_congr_left ?_
  intro hd
  constructor
  · rintro hn rfl
    exact hn ⟨rfl, ExtTreeSet.mem_toList.mpr (H.indexed hd)⟩
  · rintro hne ⟨hg, _⟩
    exact hne hg

/-! ## One file after the other -/

theorem flushEach_append (vs ws : List ChunkData) (e : σ) :
    flushEach P (vs ++ ws) e = (flushEach P vs >>= fun _ => flushEach P ws) e := by
  induction vs generalizing e with
  | nil => rfl
  | cons v vs ih =>
    rw [List.cons_append, flushEach, flushEach, bind_assoc]
    cases hP : P.onFlush v e with
    | ok _ e₁ => rw [Exec.bind_of_ok hP, Exec.bind_of_ok hP, ih]
    | error stop e₁ => rw [Exec.bind_of_error hP, Exec.bind_of_error hP]

/-- The chunks that `invalidate` hands over, file by file: the dirty ones of these files, each once. -/
theorem run_invalidate_exact (P : Policy ChunkData σ) (onDone : EStateM Stop σ Unit) (H : d.WF)
    (fs : List Str) :
    ∃ vs : List ChunkData, vs.Nodup ∧
      (∀ v, v ∈ vs ↔ v.uid ∈ fs ∧ d.IsDirty v.uid v.cuid ∧ d.chunk? v.uid v.cuid = some v.data) ∧
      ∀ e, (run (step P onDone) (d, e) (fs.map .invalidate)).map (·.2) =
        Exec.state? (flushEach P vs e) := by
  induction fs generalizing d with
  | nil => exact ⟨[], .nil, by simp, fun e => rfl⟩
  | cons f fs ih =>
    have hvs := dirtyChunks_dirtyAmong (f := f) H
    obtain ⟨d', hc, hrun⟩ := invalidate_exact (P := P) H f
    obtain ⟨ws, hnd, hmem, hrest⟩ := ih hc.wf
    generalize d.dirtyAmong f (d.index f).toList = vs at hvs hrun
    refine ⟨vs ++ ws, ?_, ?_, ?_⟩
    · refine List.Nodup.append ?_ hnd ?_
      · refine List.Nodup.of_map ChunkData.cuid ?_
        exact hvs.increasing.imp fun hlt => hlt.ne
      · intro v hv hw
        obtain ⟨hf, _⟩ := (hvs.mem v).mp hv
        obtain ⟨_, hd, _⟩ := (hmem v).mp hw
        exact ((hc.isDirty_of_index H _ _).mp hd).1 hf
    · intro v
      rw [List.mem_append, hvs.mem, hmem, hc.isDirty_of_index H, hc.chunk?, List.mem_cons]
      constructor
      · rintro (⟨rfl, hd, hv⟩ | ⟨hf, ⟨_, hd⟩, hv⟩)
        · exact ⟨.inl rfl, hd, hv⟩
        · exact ⟨.inr hf, hd, hv⟩
      · rintro ⟨hf, hd, hv⟩
        by_cases he : v.uid = f
        · subst he
          exact .inl ⟨rfl, hd, hv⟩
        · exact .inr ⟨hf.resolve_left he, ⟨he, hd⟩, hv⟩
    · intro e
      rw [flushEach_append, List.map_cons, run]
      have hstep : step P onDone (d, e) (.invalidate f) =
          (Exec.state? (flushEach P vs e)).map fun e' => (d', e') := hrun e
      rw [hstep]
      cases hv : flushEach P vs e with
      | ok _ e₁ =>
        rw [Exec.bind_of_ok hv]
        exact hrest e₁
      | error stop e₁ =>
        rw [Exec.bind_of_error hv]
        rfl

/-! ## All chunks at once -/

/-- The loop of `invalidate()` over entries that refer to live objects. -/
theorem flushEntries_exact {c : Cache ChunkKey ChunkData} {entries : List (ChunkKey × Ptr)}
    {vs : List ChunkData} (h : entries.map (fun entry => c.impl.heap entry.2) = vs.map some) (e : σ) :
    Cache.flushEntries P entries (c, e) = Cache.withEnv (flushEach P vs) (c, e) := by
  induction entries generalizing vs e with
  | nil =>
    cases vs with
    | nil => rfl
    | cons => cases h
  | cons entry entries ih =>
    cases vs with
    | nil => cases h
    | cons v vs =>
      obtain ⟨hv, h⟩ := List.cons.inj h
      rw [Cache.flushEntries_cons hv]
      cases hP : P.onFlush v e with
      | ok _ e₁ =>
        rw [Exec.bind_of_ok (Cache.withEnv_ok hP), ih h]
        simp only [Cache.withEnv, flushEach]
        rw [Exec.bind_of_ok hP]
      | error stop e₁ =>
        rw [Exec.bind_of_error (Cache.withEnv_error hP)]
        simp only [Cache.withEnv, flushEach]
        rw [Exec.bind_of_error hP]

/-- The objects that `dirty_` refers to. -/
def dirtyAll (d : DataSink) : List ChunkData :=
  d.cache.impl.dirty.toList.filterMap fun entry => d.cache.impl.heap entry.2

theorem heap_of_mem_dirty (H : d.WF) {entry : ChunkKey × Ptr}
    (h : entry ∈ d.cache.impl.dirty.toList) : ∃ v, d.cache.impl.heap entry.2 = some v ∧
      v.getKey = entry.1 ∧ d.cache.impl.get? entry.1 = some v := by
  have hr := H.cache.dirty (ExtTreeMap.mem_toList_iff_getElem?_eq_some.mp h)
  obtain ⟨v, hv, hget, hk⟩ := H.cache.get?_of_read hr
  exact ⟨v, hv, hk, hget⟩

theorem mem_dirtyAll (H : d.WF) : v ∈ d.dirtyAll ↔
    d.IsDirty v.uid v.cuid ∧ d.chunk? v.uid v.cuid = some v.data := by
  rw [dirtyAll, List.mem_filterMap]
  constructor
  · rintro ⟨entry, he, hv⟩
    obtain ⟨w, hw, hk, hget⟩ := heap_of_mem_dirty H he
    cases hw.symm.trans hv
    have hd : entry.1 ∈ d.cache.impl.dirty :=
      ExtTreeMap.mem_iff_isSome_getElem?.mpr
        (Option.isSome_of_eq_some (ExtTreeMap.mem_toList_iff_getElem?_eq_some.mp he))
    rw [← hk] at hd hget
    exact ⟨hd, congrArg (Option.map ChunkData.data) hget⟩
  · rintro ⟨hd, hdata⟩
    obtain ⟨p, hp⟩ := Option.isSome_iff_exists.mp (ExtTreeMap.mem_iff_isSome_getElem?.mp hd)
    have hmem : (⟨v.uid, v.cuid⟩, p) ∈ d.cache.impl.dirty.toList :=
      ExtTreeMap.mem_toList_iff_getElem?_eq_some.mpr hp
    refine ⟨_, hmem, ?_⟩
    obtain ⟨w, hw, hk, hget⟩ := heap_of_mem_dirty H hmem
    have hv : d.dirtyChunk? v.uid v.cuid = some v := (dirtyChunk?_eq_some H).mpr ⟨rfl, rfl, hd, hdata⟩
    rw [dirtyChunk?, if_pos hd, hget] at hv
    exact hw.trans hv

theorem nodup_dirtyAll (H : d.WF) : d.dirtyAll.Nodup := by
  have hkeys : d.dirtyAll.map ChunkData.getKey = d.cache.impl.dirty.toList.map Prod.fst := by
    rw [dirtyAll, List.map_filterMap, ← List.filterMap_eq_map]
    refine List.filterMap_congr ?_
    intro entry he
    obtain ⟨w, hw, hk, _⟩ := heap_of_mem_dirty H he
    rw [hw, Option.map_some, hk]
    rfl
  refine List.Nodup.of_map ChunkData.getKey ?_
  rw [hkeys]
  refine List.pairwise_map.mpr (ExtTreeMap.distinct_keys_toList.imp ?_)
  intro a b hab he
  exact hab (by rw [he]; exact Std.compare_self)

theorem invalidateAll_exact (H : d.WF) (e : σ) :
    (step P onDone (d, e) .invalidateAll).map (·.2) =
      Exec.state? ((flushEach P d.dirtyAll >>= fun _ => onDone) e) := by
  have hlive : d.cache.impl.dirty.toList.map (fun entry => d.cache.impl.heap entry.2) =
      d.dirtyAll.map some := by
    rw [dirtyAll, List.map_filterMap_some_eq_filter_map_isSome, List.filter_eq_self.mpr]
    intro o ho
    obtain ⟨entry, he, rfl⟩ := List.mem_map.mp ho
    obtain ⟨w, hw, _⟩ := heap_of_mem_dirty H he
    rw [hw]
    rfl
  have hloop := flushEntries_exact (P := P) hlive e
  simp only [step, invalidateAll, onCache, Exec.zoom, Cache.invalidateAll_apply]
  cases hv : flushEach P d.dirtyAll e with
  | error stop e₁ =>
    rw [Exec.bind_of_error (hloop.trans (Cache.withEnv_error hv)), Exec.bind_of_error hv]
    rfl
  | ok _ e₁ =>
    rw [Exec.bind_of_ok (hloop.trans (Cache.withEnv_ok hv)), Exec.bind_of_ok hv,
      Exec.bind_of_ok (Exec.modify_apply _ _)]
    cases hd : onDone e₁ with
    | ok _ e₂ => rw [Cache.withEnv_ok hd]; rfl
    | error stop e₂ => rw [Cache.withEnv_error hd]; rfl

/-- After any returning calls, `invalidate(f)` calls `OnFlush` for the dirty chunks of `f`, each once
and in increasing order, and for nothing else; it cleans them and leaves the cached bytes and the
marks of other files alone. Flushing every file this way hands over the chunks that one
`invalidate()` hands over. -/
theorem flush_exact (hP : P.KeepsKey) {e₀ : σ}
    (h : Reach (step P onDone) always (.empty, e₀) s) :
    (∀ f, ∃ vs, DirtyChunks s.1 f vs ∧
      (step P onDone s (.invalidate f)).map (·.2) = Exec.state? (flushEach P vs s.2) ∧
      ∀ s', step P onDone s (.invalidate f) = some s' →
        (∀ i, ¬s'.1.IsDirty f i) ∧ (∀ g i, s'.1.chunk? g i = s.1.chunk? g i) ∧
        ∀ g, g ≠ f → ∀ i, s'.1.IsDirty g i ↔ s.1.IsDirty g i) ∧
    ∀ fs : List Str, (∀ g i, s.1.IsDirty g i → g ∈ fs) → ∃ vs ws : List ChunkData, vs.Perm ws ∧
      (run (step P onDone) s (fs.map .invalidate)).map (·.2) = Exec.state? (flushEach P vs s.2) ∧
      (step P onDone s .invalidateAll).map (·.2) =
        Exec.state? ((flushEach P ws >>= fun _ => onDone) s.2) := by
  have H := wf_of_reach hP .empty h
  obtain ⟨d, e⟩ := s
  constructor
  · intro f
    obtain ⟨d', hc, hrun⟩ := invalidate_exact (P := P) H f
    have hstep : step P onDone (d, e) (.invalidate f) = _ := hrun e
    refine ⟨_, dirtyChunks_dirtyAmong H, ?_, ?_⟩
    · rw [hstep, Option.map_map]
      exact Option.map_id'
    · intro s' hs'
      rw [hstep] at hs'
      obtain ⟨e', _, rfl⟩ := Option.map_eq_some_iff.mp hs'
      refine ⟨fun i hi => ((hc.isDirty_of_index H f i).mp hi).1 rfl, hc.chunk?, ?_⟩
      intro g hg i
      rw [hc.isDirty_of_index H]
      exact and_iff_right hg
  · intro fs hfs
    obtain ⟨vs, hnd, hmem, hrun⟩ := run_invalidate_exact P onDone H fs
    refine ⟨vs, d.dirtyAll, ?_, hrun e, invalidateAll_exact H e⟩
    rw [List.perm_ext_iff_of_nodup hnd (nodup_dirtyAll H)]
    intro v
    rw [hmem, mem_dirtyAll H]
    exact and_iff_right_of_imp fun hv => hfs _ _ hv.1

open DataOnFlush (policy) in
/-- Two dirty chunks of one file, and a flushed chunk of another that a read has seen. -/
theorem flush_exact_example : ∃ s s' : DataSink × Net,
    s.1.IsDirty ['f'] 0 ∧ s.1.IsDirty ['f'] 1 ∧ ¬s.1.IsDirty ['g'] 0 ∧
      step policy (pure ()) s (.invalidate ['f']) = some s' ∧ ∀ i, ¬s'.1.IsDirty ['f'] i := by
  have h : (run (step policy (pure ()))
      (DataSink.empty, (⟨fun _ => [], 0, fun _ => none, fun _ _ => none⟩ : Net))
      [.write ['f'] [1] 1 0, .write ['g'] [2] 1 0, .invalidate ['g'], .write ['f'] [3] 1 10485760,
        .read ['g'] [0] 1 0]).map (fun s => (decide (s.1.IsDirty ['f'] 0 ∧ s.1.IsDirty ['f'] 1 ∧
          ¬s.1.IsDirty ['g'] 0), (step policy (pure ()) s (.invalidate ['f'])).isSome)) =
      some (true, true) := by
    decide +kernel
  obtain ⟨s, hs, he⟩ := Option.map_eq_some_iff.mp h
  obtain ⟨hd, hnext⟩ := Prod.mk.inj he
  obtain ⟨h0, h1, hg⟩ := of_decide_eq_true hd
  obtain ⟨s', hs'⟩ := Option.isSome_iff_exists.mp hnext
  obtain ⟨vs, _, _, hclean⟩ :=
    (flush_exact DataOnFlush.policy_keepsKey (.of_run _ hs)).1 ['f']
  exact ⟨s, s', h0, h1, hg, hs', (hclean s' hs').1⟩

end DataSink

end ColonyFS

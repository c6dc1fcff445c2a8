import ColonyFS.Fuse.RenameTree

/-!
# Looking up a deleted path

A path is deleted by a `purge` of its attribute, which puts the empty string in the DHT. From then
on the DHT has a value under the key of the path, so a look-up does not end in
`key_missing_error`, the one exception that `PreRead` turns into `lookup_e` and `getattr` into
`-ENOENT`; the empty string is not an archive.
-/

namespace ColonyFS

open Paths Function
open Machine

namespace Fs

variable {σ : Type} [BinaryArchive Instruction] [BinaryArchive Fattribute.Record]
  {P : Policy ChunkData σ} {process : Process} {c c' c₁ c₂ : Fs (Str → Option Str) σ}
  {path key : Str} {act : Act} {stat : Stat}

/-- A call that deletes `path` and returns 0. -/
inductive Deleted (process : Process) (c : Fs (Str → Option Str) σ) (path : Str)
    (c' : Fs (Str → Option Str) σ) : Prop
  | unlink {freed : Int} : Issued Dht.table c (.unlink path freed) →
      unlink Dht.table process path freed c = .ok 0 c' → Deleted process c path c'
  | rmdir : Issued Dht.table c (.rmdir path) → rmdir Dht.table path c = .ok 0 c' →
      Deleted process c path c'
  | rename {new : Str} : Issued Dht.table c (.rename path new) →
      rename Dht.table path new c = .ok 0 c' → Deleted process c path c'

/-- The path has gone from the cache, and the DHT has the empty string for it. -/
structure Tombstone (c : Fs (Str → Option Str) σ) (path : Str) : Prop where
  cached : c.cached path = none
  dht : c.dht (slot path) = some []

omit [BinaryArchive Fattribute.Record] in
theorem tombstone_of_put {ok : Bool} {dht : Str → Option Str}
    (hput : Dht.table.put (slot path) [] dht = .ok ok c.dht) (hc : c.cached path = none) :
    Tombstone c path :=
  ⟨hc, by rw [Dht.table_put hput, update_self]⟩

theorem Deleted.tombstone (H : Known c) (h : Deleted process c path c') : Tombstone c' path := by
  cases h with
  | @unlink freed hi hr =>
    obtain ⟨a, ha, _⟩ := H.real.has_iff.mp hi
    obtain ⟨r, c₁, hr', H₁⟩ := unlink_spec process freed H.wf Known.puts ha
    cases hr.symm.trans hr'
    obtain ⟨hneg, _⟩ | ⟨_, ⟨ok, hput⟩, hc⟩ := H₁
    · exact (Int.lt_irrefl 0 hneg).elim
    · exact tombstone_of_put hput (by rw [hc, update_self])
  | rmdir hi hr =>
    obtain ⟨a, ha, _⟩ := H.real.has_iff.mp hi.2
    obtain ⟨c₁, hr', _, ⟨ok, hput⟩, hc⟩ :=
      rmdir_spec H.wf Known.puts ((H.sound.canonical path a ha).parentPath_ne hi.1)
    cases hr.symm.trans hr'
    exact tombstone_of_put hput (by rw [hc, update_self])
  | rename hi hr =>
    obtain ⟨_, _, _, _, _, _, ⟨ok, hput⟩, hc⟩ :=
      renamed_of_ok H.wf H.real Known.puts H.sound.canonical hi hr
    exact tombstone_of_put hput (by rw [hc, update_self])

/-- A deletion is a step of a run. -/
theorem Deleted.step (P : Policy ChunkData σ) (h : Deleted process c path c') :
    ∃ act, Issued Dht.table c act ∧ Fs.step Dht.table P process c act = some c' := by
  cases h with
  | unlink hi hr => exact ⟨_, hi, after_eq_some.mpr ⟨_, hr⟩⟩
  | rmdir hi hr => exact ⟨_, hi, after_eq_some.mpr ⟨_, hr⟩⟩
  | rename hi hr => exact ⟨_, hi, after_eq_some.mpr ⟨_, hr⟩⟩

omit [BinaryArchive Instruction] [BinaryArchive Fattribute.Record] in
/-- A value stays in the DHT or is replaced by another one. -/
theorem bound_of_put {ok : Bool} {value : Str} {dht dht' : Str → Option Str}
    (hput : Dht.table.put key value dht = .ok ok dht') {k : Str} (h : dht k ≠ none) :
    dht' k ≠ none := by
  rw [Dht.table_put hput]
  obtain rfl | hk := eq_or_ne k key
  · rw [update_self]
    exact Option.some_ne_none _
  · rwa [update_of_ne hk]

theorem bound_of_step (H : Known c) (hi : Issued Dht.table c act)
    (hs : Fs.step Dht.table P process c act = some c') (h : c.dht key ≠ none) :
    c'.dht key ≠ none := by
  cases step_change H.wf H.real Known.puts H.sound.canonical hi hs with
  | same => exact h
  | retouched hr => rw [hr.dht]; exact h
  | added _ _ _ ha => rw [ha.dht]; exact h
  | unlinked _ _ hr =>
    obtain ⟨ok, hput⟩ := hr.dht
    exact bound_of_put hput h
  | removed _ _ hr =>
    obtain ⟨ok, hput⟩ := hr.dht
    exact bound_of_put hput h
  | renamed _ _ _ _ _ _ hr =>
    obtain ⟨ok, hput⟩ := hr.dht
    exact bound_of_put hput h
  | flushed _ _ hdht =>
    obtain hdht | ⟨a, ok, _, hput⟩ := hdht
    · rw [hdht]; exact h
    · exact bound_of_put hput h

/-- A look-up that misses a value which is no archive. -/
theorem metadataOf_raised (H : c.WF) (hc : c.cached path = none) (hd : c.dht (slot path) = some []) :
    metadataOf Dht.table path c = .error (.raised .archiveException) c := by
  have hr : c.metadataSink.impl.read (slot path) = none := by
    rw [BasicCache.WF.read_eq_none_iff H]
    exact Option.map_eq_none_iff.mp hc
  have hget : Dht.table.get (slot path) c.dht = .ok [] c.dht := by
    simp only [Dht.table, hd]
  have hpre : (MetadataOnFlush.policy Dht.table).preRead (CacheValue.newPointer path) c.dht =
      .error (.raised .archiveException) c.dht :=
    MetadataOnFlush.preRead_error (MetadataOnFlush.getPair_archive hget (AttributeValue.setValue_nil _))
      (by decide)
  exact onMetadata_error (Cache.call_raised hr hpre)

omit [BinaryArchive Fattribute.Record] in
/-- The value in the DHT for a path that does not exist. -/
theorem Known.dht_eq_nil (H : Known c) (hc : c.cached path = none)
    (hd : c.dht (slot path) ≠ none) : c.dht (slot path) = some [] := by
  obtain ⟨value, hvalue⟩ := Option.ne_none_iff_exists'.mp hd
  obtain rfl | ⟨q, a, hq, ha⟩ := H.kept _ _ hvalue
  · exact hvalue
  · cases slot_inj.mp hq
    rw [hc] at ha
    cases ha

theorem getattr_tombstone (H : Known c) (hc : c.cached path = none)
    (hd : c.dht (slot path) ≠ none) : getattr Dht.table path stat c =
      if ¬validatePath (filename path) then .ok (-ENAMETOOLONG, stat) c
      else .error (.raised .archiveException) c := by
  rw [getattr]
  split
  · rfl
  · rw [catchLookup, Exec.bind_of_error (metadataOf_raised H.wf hc (H.dht_eq_nil hc hd))]

/-- With a value under its key in the DHT, a path is not reported as missing. -/
theorem getattr_of_bound (H : Known c) (hd : c.dht (slot path) ≠ none) {r : Int × Stat}
    (h : getattr Dht.table path stat c = .ok r c') : r.1 ≠ -ENOENT := by
  have hlong : -ENAMETOOLONG ≠ -ENOENT := by decide
  have hzero : 0 ≠ -ENOENT := by decide
  cases hc : c.cached path with
  | some a =>
    rw [getattr_eq hc] at h
    split at h
    · cases h; exact hlong
    · split at h
      · cases h; exact hzero
      · cases h
  | none =>
    rw [getattr_tombstone H hc hd] at h
    split at h
    · cases h; exact hlong
    · cases h

/-- After a deletion, `getattr` never returns `-ENOENT` again; while the path does not exist, it
ends in an `archive_exception`. -/
theorem getattr_of_deleted {now : Timespec} {e : σ}
    (h : Reach (step Dht.table P process) (Issued Dht.table) (start now (fun _ => none) e) c)
    (hd : Deleted process c path c₁)
    (h₂ : Reach (step Dht.table P process) (Issued Dht.table) c₁ c₂) :
    (∀ stat r c', getattr Dht.table path stat c₂ = .ok r c' → r.1 ≠ -ENOENT) ∧
      (validatePath (filename path) → attr? Dht.table c₂ path = none →
        ∀ stat, getattr Dht.table path stat c₂ = .error (.raised .archiveException) c₂) := by
  have H := Known.of_reach h
  obtain ⟨act, hi, hs⟩ := hd.step P
  have hinv : Known c₂ ∧ c₂.dht (slot path) ≠ none := by
    refine Reach.invariant (P := fun c => Known c ∧ c.dht (slot path) ≠ none) h₂ ?_ ?_
    · exact ⟨H.step hi hs, by rw [(hd.tombstone H).dht]; exact Option.some_ne_none _⟩
    · rintro s act s' ⟨H, hb⟩ hi hs
      exact ⟨H.step hi hs, bound_of_step H hi hs hb⟩
  obtain ⟨H₂, hb⟩ := hinv
  refine ⟨fun stat r c' hr => getattr_of_bound H₂ hb hr, ?_⟩
  intro hv hnone stat
  rw [H₂.real.attr?] at hnone
  rw [getattr_tombstone H₂ hnone hb, if_neg (not_not.mpr hv)]

end Fs

namespace Fs

open scoped PlainArchive

/-- A file is created and unlinked. -/
theorem exists_deleted : ∃ c c₁ : Fs (Str → Option Str) Unit,
    Reach (step Dht.table idle ⟨0, 0⟩) (Issued Dht.table) (start ⟨0, 0⟩ (fun _ => none) ()) c ∧
      (attr? Dht.table c ['/', 'f']).isSome ∧ Deleted ⟨0, 0⟩ c ['/', 'f'] c₁ := by
  have h : (run (guarded (step Dht.table idle ⟨0, 0⟩) (Issued Dht.table))
      (start ⟨0, 0⟩ (fun _ => none) ()) [.create ['/', 'f'] 0o644 ⟨1, 0⟩]).map (fun c =>
        ((attr? Dht.table c ['/', 'f']).isSome,
          decide (Issued Dht.table c (.unlink ['/', 'f'] 0)),
          (Exec.result? (unlink Dht.table ⟨0, 0⟩ ['/', 'f'] 0 c)).map (·.1))) =
      some (true, true, some 0) := by
    decide +kernel
  obtain ⟨c, hc, h⟩ := Option.map_eq_some_iff.mp h
  simp only [Prod.mk.injEq, decide_eq_true_eq] at h
  obtain ⟨ha, hi, h⟩ := h
  obtain ⟨⟨r, c₁⟩, hr, rfl⟩ := Option.map_eq_some_iff.mp h
  exact ⟨c, c₁, .of_run_guarded _ hc, ha, .unlink hi (Exec.eq_ok_of_result? hr)⟩

/-- Looking up the file that was unlinked ends in an exception. -/
theorem exists_getattr_raised : ∃ c c₁ : Fs (Str → Option Str) Unit,
    Reach (step Dht.table idle ⟨0, 0⟩) (Issued Dht.table) (start ⟨0, 0⟩ (fun _ => none) ()) c ∧
      (attr? Dht.table c ['/', 'f']).isSome ∧ Deleted ⟨0, 0⟩ c ['/', 'f'] c₁ ∧
      getattr Dht.table ['/', 'f'] Stat.zero c₁ = .error (.raised .archiveException) c₁ := by
  obtain ⟨c, c₁, hreach, ha, hd⟩ := exists_deleted
  refine ⟨c, c₁, hreach, ha, hd, ?_⟩
  have H := Known.of_reach hreach
  have T := hd.tombstone H
  obtain ⟨act, hi, hs⟩ := hd.step idle
  rw [getattr_tombstone (H.step hi hs) T.cached (by rw [T.dht]; exact Option.some_ne_none _)]
  exact if_neg (by decide)

/-- The state right after the file was unlinked. -/
theorem getattr_of_deleted_example : ∃ c₁ : Fs (Str → Option Str) Unit,
    (∃ c, Deleted ⟨0, 0⟩ c ['/', 'f'] c₁) ∧ ∀ stat r c',
      getattr Dht.table ['/', 'f'] stat c₁ = .ok r c' → r.1 ≠ -ENOENT := by
  obtain ⟨c, c₁, hreach, _, hd⟩ := exists_deleted
  exact ⟨c₁, ⟨c, hd⟩, (getattr_of_deleted hreach hd .init).1⟩

end Fs

end ColonyFS

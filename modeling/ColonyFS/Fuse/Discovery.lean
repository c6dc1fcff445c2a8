import ColonyFS.Fuse.RenameTree

/-!
# Finding a file through the DHT

A second client has no cache to start from. It reads the attribute that the DHT has for `/`, looks
for the next name in its list, and goes on with the attribute of that path.
-/

namespace ColonyFS

open Paths Function
open Machine

namespace Fs

variable {σ : Type} [BinaryArchive Instruction] [BinaryArchive Fattribute.Record]
  {P : Policy ChunkData σ} {process : Process} {c c' : Fs (Str → Option Str) σ} {path : Str}
  {act : Act}

/-- The attribute that the DHT has for a path. -/
def published (dht : Str → Option Str) (path : Str) : Option Fattribute :=
  (dht (slot path)).bind fun value =>
    ((AttributeValue.newPointer path).setValue value).map (·.mapped)

/-- The second client gets from the directory at `ds` to the path that the names `es` lead to. -/
def Walk (dht : Str → Option Str) : List Str → List Str → Prop
  | _, [] => True
  | ds, n :: es => (∃ a, published dht (render ds) = some a ∧ a.IsDir ∧ n ∈ a.list) ∧
      Walk dht (ds ++ [n]) es

/-- The path of a task. -/
def taskPath : Act → Option Str
  | .dhtTask path => some path
  | _ => none

/-- `flush` is called when an open file is closed, and a directory is not opened that way: the path
of a task is not `/`. -/
def FileFlush (c : Fs (Str → Option Str) σ) (act : Act) : Prop :=
  Issued Dht.table c act ∧ taskPath act ≠ some ['/']

instance (c : Fs (Str → Option Str) σ) (act : Act) : Decidable (FileFlush c act) :=
  inferInstanceAs (Decidable (_ ∧ _))

/-- The root has not been put in the DHT. -/
theorem rootless_step (H : Known c) (hi : FileFlush c act)
    (hs : step Dht.table P process c act = some c') (h : c.dht (slot ['/']) = none) :
    c'.dht (slot ['/']) = none := by
  have hput : ∀ {path : Str} {value : Str} {ok : Bool} {dht : Str → Option Str}, path ≠ ['/'] →
      Dht.table.put (slot path) value c.dht = .ok ok dht → dht (slot ['/']) = none := by
    intro path value ok dht hne hput
    rw [Dht.table_put hput, update_of_ne fun he => hne (slot_inj.mp he).symm]
    exact h
  cases step_change H.wf H.real Known.puts H.sound.canonical hi.1 hs with
  | same => exact h
  | retouched hr => rw [hr.dht]; exact h
  | added _ _ _ ha => rw [ha.dht]; exact h
  | unlinked ha hd hr =>
    obtain ⟨ok, hp⟩ := hr.dht
    exact hput (H.ne_root ha hd) hp
  | removed hne _ hr =>
    obtain ⟨ok, hp⟩ := hr.dht
    exact hput hne hp
  | renamed _ _ _ _ _ _ hr =>
    obtain ⟨ok, hp⟩ := hr.dht
    exact hput hi.1.1 hp
  | @flushed path _ _ _ hdht =>
    obtain hdht | ⟨a, ok, _, hp⟩ := hdht
    · rw [hdht]; exact h
    · refine hput ?_ hp
      rintro rfl
      exact hi.2 rfl

theorem rootless_of_reach {now : Timespec} {e : σ}
    (h : Reach (step Dht.table P process) FileFlush (start now (fun _ => none) e) c) :
    Known c ∧ c.dht (slot ['/']) = none := by
  refine Reach.invariant (P := fun c => Known c ∧ c.dht (slot ['/']) = none) h ?_ ?_
  · have hdht := (start_spec now (fun _ : Str => (none : Option Str)) e).2.1
    exact ⟨.init now e, by rw [hdht]⟩
  · rintro s act s' ⟨H, hroot⟩ hi hs
    exact ⟨H.step hi.1 hs, rootless_step H hi hs hroot⟩

/-- The walk ends at `/`. -/
theorem not_walk_of_rootless {dht : Str → Option Str} {cs : List Str}
    (h : dht (slot ['/']) = none) (hne : cs ≠ []) : ¬Walk dht [] cs := by
  cases cs with
  | nil => exact (hne rfl).elim
  | cons n es =>
    rintro ⟨⟨a, ha, _⟩, _⟩
    have hroot : published dht (render []) = none := by
      rw [published, show dht (slot (render [])) = none from h]
      rfl
    rw [hroot] at ha
    cases ha

/-- Whatever was created and flushed before, and whatever file a task flushes: a client that knows
the DHT only does not find that file, as nothing puts the attribute of `/` there. -/
theorem not_walk_of_flushed {now : Timespec} {e : σ}
    (h : Reach (step Dht.table P process) FileFlush (start now (fun _ => none) e) c)
    {cs : List Str} (hcs : Valid cs) (hne : cs ≠ [])
    (hflush : step Dht.table P process c (.dhtTask (render cs)) = some c') :
    ¬Walk c'.dht [] cs := by
  have hroot : render cs ≠ ['/'] := by
    intro he
    exact hne (render_injOn hcs (by simp [Valid]) (he.trans rfl))
  have hi : FileFlush c (.dhtTask (render cs)) := by
    refine ⟨trivial, ?_⟩
    intro he
    exact hroot (Option.some.inj he)
  exact not_walk_of_rootless (rootless_of_reach (h.step hi hflush)).2 hne

end Fs

namespace Fs

open scoped PlainArchive

/-- A file in a new directory is created and flushed. -/
theorem exists_flushed : ∃ c c' : Fs (Str → Option Str) Unit,
    Reach (step Dht.table idle ⟨0, 0⟩) FileFlush (start ⟨0, 0⟩ (fun _ => none) ()) c ∧
      (attr? Dht.table c ['/', 'd', '/', 'f']).isSome ∧
      step Dht.table idle ⟨0, 0⟩ c (.dhtTask ['/', 'd', '/', 'f']) = some c' := by
  have h : (run (guarded (step Dht.table idle ⟨0, 0⟩) FileFlush)
      (start ⟨0, 0⟩ (fun _ => none) ()) [.mkdir ['/', 'd'] 0o755 ⟨1, 0⟩,
        .create ['/', 'd', '/', 'f'] 0o644 ⟨2, 0⟩]).map (fun c =>
        ((attr? Dht.table c ['/', 'd', '/', 'f']).isSome,
          (step Dht.table idle ⟨0, 0⟩ c (.dhtTask ['/', 'd', '/', 'f'])).isSome)) =
      some (true, true) := by
    decide +kernel
  obtain ⟨c, hc, h⟩ := Option.map_eq_some_iff.mp h
  obtain ⟨ha, hs⟩ := Prod.mk.inj h
  obtain ⟨c', hs⟩ := Option.isSome_iff_exists.mp hs
  exact ⟨c, c', .of_run_guarded _ hc, ha, hs⟩

/-- A second client does not find it. -/
theorem exists_not_found : ∃ c c' : Fs (Str → Option Str) Unit,
    Reach (step Dht.table idle ⟨0, 0⟩) FileFlush (start ⟨0, 0⟩ (fun _ => none) ()) c ∧
      (attr? Dht.table c ['/', 'd', '/', 'f']).isSome ∧
      step Dht.table idle ⟨0, 0⟩ c (.dhtTask ['/', 'd', '/', 'f']) = some c' ∧
      ¬Walk c'.dht [] [['d'], ['f']] := by
  obtain ⟨c, c', hreach, ha, hs⟩ := exists_flushed
  have hi : FileFlush c (.dhtTask ['/', 'd', '/', 'f']) := ⟨trivial, by decide⟩
  exact ⟨c, c', hreach, ha, hs,
    not_walk_of_rootless (rootless_of_reach (hreach.step hi hs)).2 (by decide)⟩

theorem not_walk_of_flushed_example : ∃ c' : Fs (Str → Option Str) Unit,
    (∃ c, step Dht.table idle ⟨0, 0⟩ c (.dhtTask ['/', 'd', '/', 'f']) = some c') ∧
      ¬Walk c'.dht [] [['d'], ['f']] := by
  obtain ⟨c, c', hreach, _, hs⟩ := exists_flushed
  exact ⟨c', ⟨c, hs⟩, not_walk_of_flushed hreach (by decide) (by decide) hs⟩

end Fs

end ColonyFS

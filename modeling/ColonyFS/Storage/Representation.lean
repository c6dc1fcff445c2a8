import ColonyFS.Storage.ChunkFile

/-!
# The path of a file determines its chunk (`storage/util.cpp`)

The database notes the normal form of the path, and two chunks that have the same normal form have
the same file. So it determines the chunk wherever `location_injective` holds: below every `prefix`
but `/`, which makes a network name of the uid, or an escape.
-/

namespace ColonyFS.Storage

open Pathname
open Paths (Canonical IsName render)

variable {dirPrefix uid uid' s : Str} {cuid cuid' : Int}

theorem representation_injective (hp : Plain dirPrefix) (hroot : dirPrefix ≠ ['/'])
    (huid : Canonical uid) (huid' : Canonical uid') (h0 : '\x00' ∉ uid) (h0' : '\x00' ∉ uid')
    (h : representation dirPrefix uid cuid = representation dirPrefix uid' cuid') :
    uid = uid' ∧ cuid = cuid' := by
  obtain ⟨cs, hcs, rfl⟩ := huid
  obtain ⟨cs', hcs', rfl⟩ := huid'
  have hf := proper_filepath hp hroot hcs h0
  have hf' := proper_filepath hp hroot hcs' h0'
  have hloc : location dirPrefix (render cs) cuid [] =
      location dirPrefix (render cs') cuid' [] := by
    rw [location_eq_foldl hf, location_eq_foldl hf', h]
  exact location_injective hp hroot hcs h0 hcs' h0' hloc

/-! ## What `/=` does not see -/

theorem operand_append_of_null (h0 : '\x00' ∈ s) (t : Str) : operand (s ++ t) = operand s := by
  have htake (r : Str) (h0 : '\x00' ∈ r) :
      (r ++ t).takeWhile (· ≠ '\x00') = r.takeWhile (· ≠ '\x00') := by
    refine (takeWhile_append_of_ne (fun hnil => ?_) t).1
    simpa using List.dropWhile_eq_nil_iff.mp hnil _ h0
  by_cases hesc : ['/', '/', ':'] <+: s
  · obtain ⟨r, rfl⟩ := hesc
    exact htake r (by simpa using h0)
  · have hno : ¬['/', '/', ':'] <+: s ++ t := by
      intro h
      rcases List.prefix_or_prefix_of_prefix h (List.prefix_append s t) with h | h
      · exact hesc h
      · exact absurd (h.subset h0) (by decide)
    rw [operand, operand, if_neg (by simpa using hno), if_neg (by simpa using hesc), htake s h0]

/-- Whatever is in a directory with a null character in its path has one file. -/
theorem exists_of_null (huid : Canonical uid) (h0 : '\x00' ∈ uid) (dirPrefix : Str) :
    ∃ uid', Canonical uid' ∧ uid ≠ uid' ∧
      ∀ cuid, representation dirPrefix uid cuid = representation dirPrefix uid' cuid := by
  obtain ⟨cs, hcs, rfl⟩ := huid
  have hne : cs ≠ [] := by
    rintro rfl
    exact absurd h0 (by decide)
  have hname : IsName ['a'] := by decide
  have happ : render (cs ++ [['a']]) = render cs ++ ['/', 'a'] := by
    rw [Paths.render_concat, render, if_neg hne]
  refine ⟨render (cs ++ [['a']]), ⟨_, Paths.valid_concat.mpr ⟨hcs, hname⟩, rfl⟩, ?_, fun cuid => ?_⟩
  · rw [happ]
    exact fun h => by simpa using congrArg List.length h
  · have hpath : filepath dirPrefix (render (cs ++ [['a']])) = filepath dirPrefix (render cs) := by
      rw [filepath, filepath, append, append, happ, operand_append_of_null h0]
    rw [representation, representation, rawRepresentation, rawRepresentation, hpath]

/-! ## The root as `prefix` -/

/-- `//:` is skipped as an escape, and `//__y` is a root name, whose leaf is the whole of it. -/
theorem representation_root : Canonical ['/', ':', '_', '_', '/', 'y'] ∧
    Canonical ['/', '_', '_', 'y'] ∧
    representation ['/'] ['/', ':', '_', '_', '/', 'y'] 0 =
      representation ['/'] ['/', '_', '_', 'y'] 0 :=
  ⟨⟨[[':', '_', '_'], ['y']], by decide, rfl⟩, ⟨[['_', '_', 'y']], by decide, rfl⟩,
    by decide +kernel⟩

/-- Below every `prefix` but `/` the path of the file determines the uid and the cuid, as long as
there is no null character in the uid. What follows one is lost below every `prefix`. -/
theorem representation_injective_iff (hp : Plain dirPrefix) :
    ((∀ uid uid' cuid cuid', Canonical uid → Canonical uid' → '\x00' ∉ uid → '\x00' ∉ uid' →
        representation dirPrefix uid cuid = representation dirPrefix uid' cuid' →
        uid = uid' ∧ cuid = cuid') ↔ dirPrefix ≠ ['/']) ∧
    ∀ uid, Canonical uid → '\x00' ∈ uid → ∃ uid', Canonical uid' ∧ uid ≠ uid' ∧
      ∀ cuid, representation dirPrefix uid cuid = representation dirPrefix uid' cuid := by
  refine ⟨⟨?_, ?_⟩, fun uid huid h0 => exists_of_null huid h0 dirPrefix⟩
  · rintro hall rfl
    obtain ⟨huid, huid', hrep⟩ := representation_root
    exact absurd (hall _ _ 0 0 huid huid' (by decide) (by decide) hrep).1 (by decide)
  · intro hroot uid uid' cuid cuid' huid huid' h0 h0' h
    exact representation_injective hp hroot huid huid' h0 h0' h

theorem representation_injective_iff_example : ['/', 'd'] ≠ ['/'] ∧
    ∀ uid uid' cuid cuid', Canonical uid → Canonical uid' → '\x00' ∉ uid → '\x00' ∉ uid' →
      representation ['/', 'd'] uid cuid = representation ['/', 'd'] uid' cuid' →
      uid = uid' ∧ cuid = cuid' :=
  have hroot : ['/', 'd'] ≠ ['/'] := by decide
  ⟨hroot, (representation_injective_iff ⟨by decide, by decide⟩).1.mpr hroot⟩

/-- Below the root, chunks of two uids share a path. -/
theorem representation_not_injective : Plain ['/'] ∧
    (Canonical ['/', ':', '_', '_', '/', 'y'] ∧ Canonical ['/', '_', '_', 'y'] ∧
      representation ['/'] ['/', ':', '_', '_', '/', 'y'] 0 =
        representation ['/'] ['/', '_', '_', 'y'] 0) ∧
    ['/', ':', '_', '_', '/', 'y'] ≠ ['/', '_', '_', 'y'] :=
  ⟨⟨by decide, by decide⟩, representation_root, by decide⟩

end ColonyFS.Storage

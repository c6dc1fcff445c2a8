import ColonyFS.Storage.ChunkFile

/-!
# Where a deposit writes (`storage/util.cpp`)

`prefix` is the "directory prefix that will be used for all I/O operations", but `deposit_chunk`
appends the uid as it is. A uid with a `..` may lead out of the directory, and so does an empty one,
whose leaf is the name of the directory itself.
-/

namespace ColonyFS.Storage

open Pathname DirTree

variable {dirPrefix uid p : Str} {cuid : Int} {data : Option (List Byte)} {s st : Storage}
  {l : Location}

/-- An absolute path without `..`. -/
structure Rooted (p : Str) : Prop where
  plain : Plain p
  absolute : IsAbsolute (afterRoot p)
  dots : ['.', '.'] ∉ components p

/-- The directory that such a path names. -/
def base (p : Str) : Location := (components p).filter (· ≠ ['.'])

/-- A place in a directory, or one of those above it. -/
def Within (base l : Location) : Prop := base <+: l ∨ l <+: base

instance (base l : Location) : Decidable (Within base l) := inferInstanceAs (Decidable (_ ∨ _))

/-- Every place that the path of the file steps on by a name is in `prefix` or above it. -/
def Confined (dirPrefix uid : Str) (cuid : Int) : Prop :=
  ∀ l, OnWay [] (rawRepresentation dirPrefix uid cuid) l → Within (base dirPrefix) l

instance (dirPrefix uid : Str) (cuid : Int) : Decidable (Confined dirPrefix uid cuid) :=
  decidable_of_iff _ forall_onWay.symm

/-! ## The directory -/

theorem Rooted.isAbsolute (h : Rooted p) : IsAbsolute p := by
  have happ := rootName_append_afterRoot p
  rcases rootName_cases p with hr | ⟨⟨n, hn⟩, -⟩
  · rw [hr, List.nil_append] at happ
    exact happ ▸ h.absolute
  · rw [← happ, hn]
    rfl

theorem Rooted.ne_nil (h : Rooted p) : p ≠ [] := by
  rintro rfl
  cases h.isAbsolute

theorem Rooted.named (h : Rooted p) (hb : base p ≠ []) : Named p := by
  refine ⟨h.plain, fun hc => hb ?_, fun ha => ?_⟩
  · rw [base, hc]
    rfl
  · cases (ha ▸ h.absolute : IsAbsolute [])

theorem Rooted.isDir (h : Rooted p) (hs : setPrefix p s = .ok p s) : s.disk.IsDir (base p) := by
  simp only [setPrefix] at hs
  split at hs
  · cases hs
  · cases hs
  · next hdir =>
    obtain ⟨l, hl, hd⟩ := Option.bind_eq_some_iff.mp hdir
    rw [locate, if_neg h.ne_nil] at hl
    have hbase := eq_foldl_of_walk hl
    rw [start_of_isAbsolute h.isAbsolute, foldl_move_filter h.dots, List.nil_append] at hbase
    rwa [hbase] at hd

/-- The smallest disk on which `prefix` can be set. -/
theorem Rooted.setPrefix_chain (h : Rooted p) (database : Db) :
    setPrefix p ⟨chain (base p), database, []⟩ = .ok p ⟨chain (base p), database, []⟩ := by
  have hwalk := walk_chain (β := List Byte) (m := base p) (l := []) h.dots (by rw [List.nil_append]; rfl)
  have hlook : (chain (base p) : DirTree (List Byte)).lookup p = some .dir := by
    rw [lookup, locate, if_neg h.ne_nil, start_of_isAbsolute h.isAbsolute, hwalk, Option.bind_some,
      List.nil_append]
    exact isDir_chain.mpr (List.prefix_refl _)
  simp only [setPrefix, hlook]

/-! ## The path of the file -/

theorem not_mem_filename_of_components (h : components (afterRoot p) ≠ []) : '/' ∉ filename p := by
  have hne : afterRoot p ≠ [] := fun hnil => h (by rw [hnil, components_nil])
  rw [filename, if_neg hne]
  split
  · simp
  · exact fun hc => by simpa using List.mem_rtakeWhile_imp hc

/-- The components of the path of the file: a name in the directory of the uid, or, if the uid is
nothing but separators behind a root name, the two parts of `__/__<cuid>` in `prefix`. -/
theorem Rooted.raw (h : Rooted dirPrefix) (hb : base dirPrefix ≠ []) (uid : Str) (cuid : Int) :
    IsAbsolute (parentPath (filepath dirPrefix uid)) ∧
    ((∃ f, components (rawRepresentation dirPrefix uid cuid) =
        components (parentPath (filepath dirPrefix uid)) ++ [f] ∧ f ≠ ['.'] ∧ f ≠ ['.', '.']) ∨
      ∃ d f, components (rawRepresentation dirPrefix uid cuid) = components dirPrefix ++ [d] ++ [f] ∧
        d ≠ ['.', '.'] ∧ f ≠ ['.'] ∧ f ≠ ['.', '.']) := by
  have hp := h.named hb
  have habs : IsAbsolute (filepath dirPrefix uid) := (isAbsolute_append h.ne_nil).mpr h.isAbsolute
  have hf := hp.proper uid
  have ha := hf.afterRoot_ne
  rw [components_raw hf]
  by_cases hc : components (afterRoot (filepath dirPrefix uid)) = []
  · obtain ⟨-, hpar, hname⟩ := of_components_eq_nil ha hc
    obtain ⟨t, ht, -⟩ := filepath_eq dirPrefix uid
    have hsame : components (filepath dirPrefix uid) = components dirPrefix := by
      obtain ⟨hroot, hafter⟩ := afterRoot_append hp.components_ne hp.afterRoot_ne t
      rw [← ht] at hroot hafter
      have hslash := components_eq_nil hc
      rw [hafter] at hslash
      have hnil : components (afterRoot dirPrefix) = [] :=
        components_of_slashes fun c hmem => hslash c (List.mem_append_left _ hmem)
      rw [components_root, hc, hroot, components_root dirPrefix, hnil]
    constructor
    · rcases parentPath_cases (filepath dirPrefix uid) with ⟨hnil, -⟩ | ⟨-, hiff, -⟩
      · rw [hnil, components_nil, hsame] at hpar
        exact (hp.components_ne hpar.symm).elim
      · exact hiff.mpr habs
    · right
      refine ⟨['_', '_'], ['_', '_'] ++ decimal cuid, ?_, nofun, nofun, nofun⟩
      rw [hpar, hsame, hname, components_fileName_slash, List.append_assoc]
      rfl
  · refine ⟨(isAbsolute_parentPath hc).mpr habs,
      .inl ⟨fileName (filename (filepath dirPrefix uid)) cuid, ?_, nofun, nofun⟩⟩
    rw [components_fileName (not_mem_filename_of_components hc)]

theorem Rooted.isAbsolute_parent (h : Rooted dirPrefix) (hb : base dirPrefix ≠ []) (uid : Str) :
    IsAbsolute (parentPath (filepath dirPrefix uid)) ∧ parentPath (filepath dirPrefix uid) ≠ [] := by
  have habs := (h.raw hb uid 0).1
  refine ⟨habs, fun hnil => ?_⟩
  rw [hnil] at habs
  cases habs

theorem Rooted.isAbsolute_raw (h : Rooted dirPrefix) (hb : base dirPrefix ≠ []) (uid : Str)
    (cuid : Int) : IsAbsolute (rawRepresentation dirPrefix uid cuid) := by
  obtain ⟨hpar, hne⟩ := h.isAbsolute_parent hb uid
  rw [rawRepresentation_eq ((h.named hb).proper uid), isAbsolute_append hne]
  exact hpar

/-- No `..` leads out of `prefix`. -/
theorem confined_of_not_mem (h : Rooted dirPrefix) (hb : base dirPrefix ≠ [])
    (hpre : components dirPrefix <+: components (rawRepresentation dirPrefix uid cuid))
    (hdots : ['.', '.'] ∉ components (rawRepresentation dirPrefix uid cuid)) :
    Confined dirPrefix uid cuid := by
  rintro l ⟨es, n, hes, -, -, rfl⟩
  rw [start_of_isAbsolute (h.isAbsolute_raw hb uid cuid),
    foldl_move_filter fun hmem => hdots (hes.subset hmem), List.nil_append]
  exact (List.prefix_or_prefix_of_prefix hpre hes).imp (·.filter _) (·.filter _)

/-! ## What a deposit touches -/

theorem touched_of_error {e : StorageError}
    (hm : makeDirectory (parentPath (filepath dirPrefix uid)) s = .error e st) :
    (Exec.final (depositChunk dirPrefix uid cuid data s)).touched = st.touched := by
  rw [depositChunk, Exec.bind_of_error hm]
  rfl

/-- The file, if the stream is open, and the directories. -/
theorem mem_touched_of_ok (hm : makeDirectory (parentPath (filepath dirPrefix uid)) s = .ok () st) :
    l ∈ (Exec.final (depositChunk dirPrefix uid cuid data s)).touched ↔
      l ∈ st.touched ∨ st.disk.locate (append [] (representation dirPrefix uid cuid)) = some l ∧
        ¬st.disk.IsDir l := by
  rw [depositChunk, Exec.bind_of_ok hm]
  rcases openStream_cases (append [] (representation dirPrefix uid cuid)) st with
    ⟨hopen, hdir⟩ | ⟨k, disk, hk, hput, hopen⟩
  · have hno : ¬(st.disk.locate (append [] (representation dirPrefix uid cuid)) = some l ∧
        ¬st.disk.IsDir l) := fun h => h.2 (hdir l h.1)
    rw [or_iff_left hno, Exec.bind_of_ok hopen]
    cases data <;> rfl
  · have hiff : (st.disk.locate (append [] (representation dirPrefix uid cuid)) = some l ∧
        ¬st.disk.IsDir l) ↔ l = k := by
      rw [hk, Option.some_inj]
      exact ⟨fun h => h.1.symm, fun h => ⟨h.symm, h ▸ (DirTree.put_eq_some hput).2.2.1⟩⟩
    rw [hiff, or_comm, ← List.mem_cons, Exec.bind_of_ok hopen]
    cases data with
    | none => exact Iff.rfl
    | some data =>
      obtain ⟨disk', hwrite, -, -⟩ := writeStream_put hput data (k :: st.touched)
      simp only
      rw [Exec.bind_of_ok hwrite]
      exact Iff.rfl

theorem locate_makeDirectory (h : makeDirectory p s = .ok () st)
    (hno : ∀ v, s.disk.lookup p ≠ some (.file v)) (hp : p ≠ []) :
    ∃ l, st.disk.locate p = some l ∧ st.disk.IsDir l := by
  rw [makeDirectory] at h
  split at h
  · rcases createDirectoriesFuel_cases (Nat.le_refl p.length) s with
      ⟨-, e, st', he⟩ | ⟨-, st', hok, hdir⟩
    · cases he.symm.trans h
    · cases hok.symm.trans h
      exact hdir.resolve_left hp
  · next hsome =>
    cases h
    obtain ⟨v, hv⟩ := Option.ne_none_iff_exists'.mp hsome
    cases v with
    | dir => exact Option.bind_eq_some_iff.mp hv
    | file v => exact (hno v hv).elim

/-- When the directory of the file is there, so is every place on the way, the file apart. -/
theorem isDir_or_locate (h : Rooted dirPrefix) (hb : base dirPrefix ≠ []) {f : Str} {m : Location}
    (hc : components (rawRepresentation dirPrefix uid cuid) =
      components (parentPath (filepath dirPrefix uid)) ++ [f])
    (hloc : st.disk.locate (parentPath (filepath dirPrefix uid)) = some m) (hm : st.disk.IsDir m)
    (hway : OnWay [] (rawRepresentation dirPrefix uid cuid) l) : st.disk.IsDir l ∨
      st.disk.locate (append [] (representation dirPrefix uid cuid)) = some l := by
  have hp := h.named hb
  have habs := h.isAbsolute_raw hb uid cuid
  obtain ⟨hdirabs, hdirne⟩ := h.isAbsolute_parent hb uid
  obtain ⟨es, n, hes, hdot, hdots, hl⟩ := hway
  rw [hc] at hes
  rcases List.prefix_concat_iff.mp hes with heq | hes
  · right
    have hwalk : walk st.disk.IsDir (start st.disk.cwd (rawRepresentation dirPrefix uid cuid))
        (components (rawRepresentation dirPrefix uid cuid)) = some l := by
      rw [locate, if_neg hdirne, start_of_isAbsolute hdirabs] at hloc
      rw [start_of_isAbsolute habs, hc, walk_append, hloc, Option.bind_some, walk, if_pos hm, walk,
        hl, start_of_isAbsolute habs, heq, List.foldl_append, ← eq_foldl_of_walk hloc]
      rfl
    have hne : representation dirPrefix uid cuid ≠ [] :=
      normalize_ne_nil (by rw [hc]; exact List.concat_ne_nil _ _)
    have hf := hp.proper uid
    rw [append_nil_of_plain (plain_representation hf cuid), locate, if_neg hne]
    exact walk_normalize (plain_raw hf cuid).1 (plain_raw hf cuid).2 st.disk.node_cwd hwalk
  · left
    refine isDir_of_onWay hloc hm ((onWay_of_isAbsolute hdirabs).mpr ⟨es, n, hes, hdot, hdots, ?_⟩)
    rw [hl, start_of_isAbsolute habs, start_of_isAbsolute hdirabs]

/-- On the smallest disk every place on the way is made, unless it is `prefix` or above it. -/
theorem within_of_chain (h : Rooted dirPrefix) (hb : base dirPrefix ≠ []) {f : Str}
    (hc : components (rawRepresentation dirPrefix uid cuid) =
      components (parentPath (filepath dirPrefix uid)) ++ [f])
    (hall : ∀ l ∈ (Exec.final (depositChunk dirPrefix uid cuid (some [])
      ⟨chain (base dirPrefix), .empty, []⟩)).touched, base dirPrefix <+: l)
    (hway : OnWay [] (rawRepresentation dirPrefix uid cuid) l) : Within (base dirPrefix) l := by
  let s : Storage := ⟨chain (base dirPrefix), .empty, []⟩
  obtain ⟨st, hm⟩ := makeDirectory_eq_ok.mpr (.inr fun _ v _ => node_chain v :
    s.disk.lookup (parentPath (filepath dirPrefix uid)) ≠ none ∨ s.disk.Clear _)
  have hmakes := makeDirectory_makes (parentPath (filepath dirPrefix uid)) s
  rw [hm, Exec.final_ok] at hmakes
  have hno (v : List Byte) :
      s.disk.lookup (parentPath (filepath dirPrefix uid)) ≠ some (.file v) := by
    intro hv
    obtain ⟨k, -, hk⟩ := Option.bind_eq_some_iff.mp hv
    exact node_chain v hk
  obtain ⟨m, hloc, hdir⟩ := locate_makeDirectory hm hno (h.isAbsolute_parent hb uid).2
  have htouched (hl : l ∈ st.touched ∨
      st.disk.locate (append [] (representation dirPrefix uid cuid)) = some l ∧
        ¬st.disk.IsDir l) : Within (base dirPrefix) l :=
    .inl (hall l ((mem_touched_of_ok hm).mpr hl))
  by_cases hd : st.disk.IsDir l
  · obtain ⟨ls, ht, -, hn⟩ := hmakes.touched
    by_cases hmem : l ∈ ls
    · exact htouched (.inl (ht ▸ List.mem_append_left _ hmem))
    · rw [IsDir, hn l hmem] at hd
      exact .inr (isDir_chain.mp hd)
  · exact htouched (.inr ⟨(isDir_or_locate h hb hc hloc hdir hway).resolve_left hd, hd⟩)

/-- What a deposit touches is on the way of its file, and was not a directory before, while the
directory of `prefix` was. -/
theorem onWay_of_touched (h : Rooted dirPrefix) (hb : base dirPrefix ≠ [])
    (hbase : s.disk.IsDir (base dirPrefix)) (htouched : s.touched = [])
    (hl : l ∈ (Exec.final (depositChunk dirPrefix uid cuid data s)).touched) :
    OnWay [] (rawRepresentation dirPrefix uid cuid) l ∧
      ∃ t : DirTree (List Byte), t.IsDir (base dirPrefix) ∧ ¬t.IsDir l := by
  have hp := h.named hb
  have habs := h.isAbsolute_raw hb uid cuid
  have hdirabs := (h.isAbsolute_parent hb uid).1
  have hmakes := makeDirectory_makes (parentPath (filepath dirPrefix uid)) s
  have hpre : components (parentPath (filepath dirPrefix uid)) <+:
      components (rawRepresentation dirPrefix uid cuid) := by
    rw [components_raw (hp.proper uid)]
    exact List.prefix_append _ _
  have hmade (st : Storage) (hm : Makes (parentPath (filepath dirPrefix uid)) s st)
      (hl : l ∈ st.touched) : OnWay [] (rawRepresentation dirPrefix uid cuid) l ∧
      ∃ t : DirTree (List Byte), t.IsDir (base dirPrefix) ∧ ¬t.IsDir l := by
    obtain ⟨ls, ht, hls, -⟩ := hm.touched
    rw [ht, htouched, List.append_nil] at hl
    obtain ⟨hnone, hway, -⟩ := hls l hl
    refine ⟨?_, s.disk, hbase, fun hd => by cases hd.symm.trans hnone⟩
    exact ((onWay_of_isAbsolute hdirabs).mp hway).of_isPrefix hpre (iff_of_true hdirabs habs)
  cases hm : makeDirectory (parentPath (filepath dirPrefix uid)) s with
  | error e st =>
    rw [hm] at hmakes
    exact hmade st hmakes (touched_of_error hm ▸ hl)
  | ok u st =>
    rw [hm] at hmakes
    rcases (mem_touched_of_ok hm).mp hl with hl | ⟨hl, hnd⟩
    · exact hmade st hmakes hl
    · have hway : OnWay st.disk.cwd (rawRepresentation dirPrefix uid cuid) l := by
        rw [eq_location_of_locate hp hl]
        rcases (h.raw hb uid cuid).2 with ⟨f, hc, hdot, hdots⟩ | ⟨d, f, hc, -, hdot, hdots⟩
        · exact ⟨_, f, by rw [hc], hdot, hdots, by rw [location, hc]⟩
        · exact ⟨_, f, by rw [hc], hdot, hdots, by rw [location, hc]⟩
      exact ⟨(onWay_of_isAbsolute habs).mp hway, st.disk, hmakes.disk.grows.dir _ hbase, hnd⟩

/-- The file that `deposit_chunk` opens and the directories that it makes are in `prefix` on every
disk on which `prefix` can be set, if and only if the path of the file is confined. -/
theorem confined_iff (h : Rooted dirPrefix) :
    (∀ (s : Storage) data, setPrefix dirPrefix s = .ok dirPrefix s → s.touched = [] →
      ∀ l ∈ (Exec.final (depositChunk dirPrefix uid cuid data s)).touched,
        base dirPrefix <+: l) ↔ Confined dirPrefix uid cuid := by
  by_cases hb : base dirPrefix = []
  · rw [hb, Confined, hb]
    exact iff_of_true (fun _ _ _ _ _ _ => List.nil_prefix) fun _ _ => .inl List.nil_prefix
  constructor
  · intro hall
    rcases (h.raw hb uid cuid).2 with ⟨f, hc, -, -⟩ | ⟨d, f, hc, hd, -, hf⟩
    · intro l hway
      exact within_of_chain h hb hc (hall _ (some []) (h.setPrefix_chain .empty) rfl) hway
    · refine confined_of_not_mem h hb ?_ ?_
      · rw [hc, List.append_assoc]
        exact List.prefix_append _ _
      · rw [hc]
        simp only [List.mem_append, List.mem_singleton, not_or]
        exact ⟨⟨h.dots, Ne.symm hd⟩, Ne.symm hf⟩
  · intro hconf s data hs htouched l hl
    obtain ⟨hway, t, hbase, hno⟩ := onWay_of_touched h hb (h.isDir hs) htouched hl
    exact (hconf l hway).resolve_right fun hpre => hno (hbase.of_isPrefix hpre)

theorem rooted_example : Rooted ['/', 'd'] := ⟨⟨by decide, by decide⟩, by decide, by decide⟩

theorem confined_iff_example : Confined ['/', 'd'] ['/', 'a', '/', 'b'] 0 ∧
    ∀ (s : Storage) data, setPrefix ['/', 'd'] s = .ok ['/', 'd'] s → s.touched = [] →
      ∀ l ∈ (Exec.final (depositChunk ['/', 'd'] ['/', 'a', '/', 'b'] 0 data s)).touched,
        [['d']] <+: l :=
  have hconf : Confined ['/', 'd'] ['/', 'a', '/', 'b'] 0 := by decide +kernel
  ⟨hconf, (confined_iff rooted_example).mpr hconf⟩

/-- A uid with a `..` behind the root leads out. -/
theorem escapes_prefix : ∃ s : Storage, Rooted ['/', 'd'] ∧
    setPrefix ['/', 'd'] s = .ok ['/', 'd'] s ∧ s.touched = [] ∧
    ∃ l ∈ (Exec.final (depositChunk ['/', 'd'] ['/', '.', '.', '/', 'x'] 0 (some [7]) s)).touched,
      ¬base ['/', 'd'] <+: l := by
  refine ⟨⟨chain (base ['/', 'd']), .empty, []⟩, rooted_example, rooted_example.setPrefix_chain _,
    rfl, [fileName ['x'] 0], ?_, by decide⟩
  decide +kernel

end ColonyFS.Storage

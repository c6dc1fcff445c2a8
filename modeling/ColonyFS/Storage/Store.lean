import ColonyFS.Storage.ChunkData
import ColonyFS.Lib.DirTree
import ColonyFS.Lib.Normalize
import ColonyFS.Lib.Exec

/-!
# The store of a chunk server (`storage/file.cpp`, `storage/db.cpp`, `storage/util.cpp`)

`deposit_chunk` writes the bytes of a chunk into a file below `prefix` and notes the path of the
file in the database, where `retrieve_chunk` finds it. The disk is a tree of directories and
regular files on which the only failures are those of paths: a file cannot be opened if its path is
a directory or its parent is not one. `prefix` is a variable of the code, and a parameter here; what
`set_prefix` returns is what it sets the variable to. `touched` records what `deposit_chunk` does to
the disk.
-/

namespace ColonyFS

open Pathname

/-- `storage::file`: the paths of the files by `cuid`. -/
structure File where
  cuidMap : Int → Option Str
  /-- Undefined, `none`, from the moment that `cuid + 1` has overflowed. -/
  numOfChunks : Option Int

def File.new : File := ⟨fun _ => none, some 0⟩

/-- `cuid + 1`, an `int`. -/
def File.next (cuid : Int) : Option Int := if cuid + 1 < 2 ^ 31 then some (cuid + 1) else none

/-- `file[cuid]`, and what is done to the path behind the reference. -/
def File.subscript (cuid : Int) (assign : Str → Str) (file : File) : File where
  cuidMap := Function.update file.cuidMap cuid (some (assign ((file.cuidMap cuid).getD [])))
  numOfChunks := do
    let next ← File.next cuid
    let numOfChunks ← file.numOfChunks
    return if next > numOfChunks then next else numOfChunks

/-- `file[cuid] = representation`. -/
def File.set (cuid : Int) (representation : Str) : File → File :=
  File.subscript cuid fun _ => representation

/-- `storage::db`. -/
structure Db where
  uidMap : Str → Option File

@[simp] theorem File.cuidMap_set (cuid : Int) (p : Str) (file : File) :
    (file.set cuid p).cuidMap = Function.update file.cuidMap cuid (some p) := rfl

def Db.empty : Db := ⟨fun _ => none⟩

/-- `db::save_chunk`. -/
def Db.saveChunk (uid : Str) (cuid : Int) (representation : Str) (db : Db) : Db where
  uidMap := Function.update db.uidMap uid
    (some (((db.uidMap uid).getD .new).set cuid representation))

/-- `database(uid)(cuid)`; `none` is `inexistent_file_e`. -/
def Db.loadChunk (db : Db) (uid : Str) (cuid : Int) : Option Str :=
  (db.uidMap uid).bind fun file => file.cuidMap cuid

theorem Db.loadChunk_saveChunk (db : Db) (uid uid' : Str) (cuid cuid' : Int) (p : Str) :
    (db.saveChunk uid cuid p).loadChunk uid' cuid' =
      if uid' = uid ∧ cuid' = cuid then some p else db.loadChunk uid' cuid' := by
  simp only [loadChunk, saveChunk, Function.update_apply]
  by_cases hu : uid' = uid
  · rw [if_pos hu, Option.bind_some, File.cuidMap_set, Function.update_apply, hu]
    by_cases hc : cuid' = cuid
    · rw [if_pos hc, if_pos ⟨rfl, hc⟩]
    · rw [if_neg hc, if_neg fun h => hc h.2]
      cases db.uidMap uid <;> rfl
  · rw [if_neg hu, if_neg fun h => hu h.1]

/-- The disk and the database of a chunk server. -/
structure Storage where
  disk : DirTree (List Byte)
  database : Db
  /-- The directories created and the files opened for writing, newest first. -/
  touched : List Location

inductive StorageError where
  | inexistentFile
  | invalidFile
  /-- `boost::filesystem::filesystem_error`. -/
  | filesystemError
  /-- A null pointer is dereferenced. -/
  | assertion
  /-- A value is read that an overflow has left undefined. -/
  | undefined
  deriving DecidableEq, Repr

abbrev StorageM := EStateM StorageError Storage

namespace Storage

/-- `set_prefix`. -/
def setPrefix (path : Str) : StorageM Str := fun s =>
  match s.disk.lookup path with
  | none => .error .inexistentFile s
  | some (.file _) => .error .invalidFile s
  | some .dir => .ok path s

/-- `boost::lexical_cast<std::string>(cuid)`. -/
def decimal (cuid : Int) : Str :=
  if cuid < 0 then '-' :: Nat.toDigits 10 cuid.natAbs else Nat.toDigits 10 cuid.natAbs

/-- `boost::filesystem::create_directory`. -/
def createDirectory (p : Str) : StorageM Unit := fun s =>
  match s.disk.locate p with
  | none => .error .filesystemError s
  | some l => match s.disk.node l with
    | some .dir => .ok () s
    | some (.file _) => .error .filesystemError s
    | none => match s.disk.put l .dir with
      | some disk => .ok () { s with disk, touched := l :: s.touched }
      | none => .error .filesystemError s

/-- `boost::filesystem::create_directories`, for a path of at most `k` characters. -/
def createDirectoriesFuel : Nat → Str → StorageM Unit
  | 0, _ => pure ()
  | k + 1, p => fun s =>
    if p = [] then .ok () s
    else match s.disk.lookup p with
      | some .dir => .ok () s
      | some (.file _) => .error .filesystemError s
      | none => (createDirectoriesFuel k (parentPath p) >>= fun _ => createDirectory p) s

def createDirectories (p : Str) : StorageM Unit := createDirectoriesFuel p.length p

/-- `if( !exists(dir) ) create_directories(dir)`. -/
def makeDirectory (dir : Str) : StorageM Unit := fun s =>
  if s.disk.lookup dir = none then createDirectories dir s else .ok () s

/-- `boost::filesystem::ofstream stream(p, out | binary)`: the file, if the stream is open. -/
def openStream (p : Str) : StorageM (Option Location) := fun s =>
  match s.disk.locate p with
  | none => .ok none s
  | some l => match s.disk.put l (.file []) with
    | some disk => .ok (some l) { s with disk, touched := l :: s.touched }
    | none => .ok none s

/-- `stream.write` and `stream.close`, which do nothing to a stream that is not open. -/
def writeStream (stream : Option Location) (data : List Byte) : StorageM Unit := fun s =>
  match stream.bind fun l => s.disk.put l (.file data) with
  | some disk => .ok () { s with disk }
  | none => .ok () s

/-- `filepath`. -/
def filepath (dirPrefix uid : Str) : Str := append dirPrefix uid

/-- `representation`, before the line that normalizes it. -/
def rawRepresentation (dirPrefix uid : Str) (cuid : Int) : Str :=
  let destination := append []
    (['_', '_'] ++ filename (filepath dirPrefix uid) ++ ['_', '_'] ++ decimal cuid)
  append (parentPath (filepath dirPrefix uid)) destination

def representation (dirPrefix uid : Str) (cuid : Int) : Str :=
  normalize (rawRepresentation dirPrefix uid cuid)

/-- `deposit_chunk`; `data` is `none` for a null pointer. -/
def depositChunk (dirPrefix uid : Str) (cuid : Int) (data : Option (List Byte)) : StorageM Unit := do
  makeDirectory (parentPath (filepath dirPrefix uid))
  let stream ← openStream (append [] (representation dirPrefix uid cuid))
  match data with
  | none => throw .assertion
  | some data =>
    writeStream stream data
    modify fun s =>
      { s with database := s.database.saveChunk uid cuid (representation dirPrefix uid cuid) }

/-- `retrieve_chunk`. -/
def retrieveChunk (uid : Str) (cuid : Int) : StorageM ChunkData := fun s =>
  match s.database.loadChunk uid cuid with
  | none => .error .inexistentFile s
  | some p => match s.disk.lookup (append [] p) with
    | some (.file data) => .ok ⟨uid, cuid, data⟩ s
    | some .dir | none => .error .filesystemError s

/-! ## What making directories does -/

variable {p q dirPrefix uid : Str} {cuid : Int} {data : Option (List Byte)} {s st s' : Storage}
  {l : Location} {k : Nat}

/-- Directories were made on the way of a path, and nothing else. -/
structure Makes (p : Str) (s st : Storage) : Prop where
  disk : s.disk.Extends st.disk
  database : st.database = s.database
  touched : ∃ ls, st.touched = ls ++ s.touched ∧
    (∀ l ∈ ls, s.disk.node l = none ∧ DirTree.OnWay s.disk.cwd p l ∧ st.disk.IsDir l) ∧
    ∀ l, l ∉ ls → st.disk.node l = s.disk.node l

theorem Makes.refl (p : Str) (s : Storage) : Makes p s s :=
  ⟨.refl _, rfl, [], rfl, List.forall_mem_nil _, fun _ _ => rfl⟩

theorem Makes.trans (hq : ∀ l, DirTree.OnWay s.disk.cwd q l → DirTree.OnWay s.disk.cwd p l)
    (h : Makes q s st) (h' : Makes p st s') : Makes p s s' := by
  obtain ⟨ls, ht, hls, hn⟩ := h.touched
  obtain ⟨ls', ht', hls', hn'⟩ := h'.touched
  refine ⟨h.disk.trans h'.disk, h'.database.trans h.database, ls' ++ ls, ?_, ?_, fun l hl => ?_⟩
  · rw [ht', ht, List.append_assoc]
  · intro l hl
    by_cases hmem : l ∈ ls
    · obtain ⟨hnone, hway, hdir⟩ := hls l hmem
      exact ⟨hnone, hq l hway, h'.disk.node l .dir hdir⟩
    · obtain ⟨hnone, hway, hdir⟩ := hls' l ((List.mem_append.mp hl).resolve_right hmem)
      rw [hn l hmem] at hnone
      rw [h.disk.cwd] at hway
      exact ⟨hnone, hway, hdir⟩
  · obtain ⟨hl', hl⟩ := not_or.mp (fun h => hl (List.mem_append.mpr h))
    rw [hn' l hl', hn l hl]

theorem createDirectory_makes (p : Str) (s : Storage) : Makes p s (Exec.final (createDirectory p s)) := by
  rw [createDirectory]
  split
  · exact .refl p s
  · next l hl =>
    split
    · exact .refl p s
    · exact .refl p s
    · next hnone =>
      split
      · next disk hput =>
        obtain ⟨-, -, -, hnode, -⟩ := DirTree.put_eq_some hput
        have hway : DirTree.OnWay s.disk.cwd p l := by
          refine ((DirTree.locate_cases hl).resolve_left fun hd => ?_).2
          cases hd.symm.trans hnone
        have hdir : disk.IsDir l := by rw [DirTree.IsDir, hnode, Function.update_self]
        refine ⟨.of_put hput hnone, rfl, [l], rfl, by simpa using ⟨hnone, hway, hdir⟩,
          fun k hk => ?_⟩
        rw [Exec.final_ok]
        exact (congrFun hnode k).trans (Function.update_of_ne (by simpa using hk) _ _)
      · exact .refl p s

theorem onWay_parentPath (h : DirTree.OnWay s.disk.cwd (parentPath p) l) :
    DirTree.OnWay s.disk.cwd p l := by
  rcases parentPath_cases p with ⟨hnil, -⟩ | ⟨-, habs, tail, -, hc⟩
  · exact (DirTree.not_onWay_nil (hnil ▸ h)).elim
  · exact h.of_isPrefix (hc ▸ List.prefix_append _ tail) habs

theorem createDirectoriesFuel_makes (k : Nat) (p : Str) (s : Storage) :
    Makes p s (Exec.final (createDirectoriesFuel k p s)) := by
  induction k generalizing p s with
  | zero => exact .refl p s
  | succ k ih =>
    simp only [createDirectoriesFuel]
    split
    · exact .refl p s
    split
    · exact .refl p s
    · exact .refl p s
    · have h := ih (parentPath p) s
      cases hr : createDirectoriesFuel k (parentPath p) s with
      | ok a st =>
        rw [hr] at h
        rw [Exec.bind_of_ok hr]
        exact h.trans (fun _ => onWay_parentPath) (createDirectory_makes p st)
      | error e st =>
        rw [hr] at h
        rw [Exec.bind_of_error hr]
        exact h.trans (fun _ => onWay_parentPath) (.refl p st)

theorem Makes.node_file (h : Makes p s st) {data : List Byte} :
    st.disk.node l = some (.file data) ↔ s.disk.node l = some (.file data) := by
  obtain ⟨ls, -, hls, hn⟩ := h.touched
  refine ⟨fun hl => ?_, h.disk.node l _⟩
  by_cases hmem : l ∈ ls
  · cases (hls l hmem).2.2.symm.trans hl
  · rwa [← hn l hmem]

theorem createDirectory_cases (h : s.disk.locate p = some l) :
    (∃ data, s.disk.node l = some (.file data) ∧ DirTree.OnWay s.disk.cwd p l ∧
      createDirectory p s = .error .filesystemError s) ∨
    ∃ st, createDirectory p s = .ok () st ∧ st.disk.IsDir l := by
  have hcases := DirTree.locate_cases h
  simp only [createDirectory, h]
  split
  · next hdir => exact .inr ⟨s, rfl, hdir⟩
  · next data hfile =>
    refine .inl ⟨data, hfile, (hcases.resolve_left fun hd => ?_).2, rfl⟩
    cases hd.symm.trans hfile
  · next hnone =>
    have hnd : ¬s.disk.IsDir l := fun hd => by cases hd.symm.trans hnone
    obtain ⟨⟨m, n, rfl, hm⟩, -⟩ := hcases.resolve_left hnd
    obtain ⟨disk, hput⟩ := DirTree.exists_put (v := .dir) hm hnd
    obtain ⟨-, -, -, hnode, -⟩ := DirTree.put_eq_some hput
    refine .inr ⟨{ s with disk, touched := (m ++ [n]) :: s.touched }, by rw [hput], ?_⟩
    rw [DirTree.IsDir, hnode, Function.update_self]

/-- The path leads to a directory in the end, so no file was on its way. -/
theorem Makes.clear (h : Makes p s st) (hl : st.disk.locate p = some l) (hd : st.disk.IsDir l) :
    s.disk.Clear p := by
  intro m data hway hfile
  rw [← h.node_file] at hfile
  rw [← h.disk.cwd] at hway
  cases (DirTree.isDir_of_onWay hl hd hway).symm.trans hfile

/-- The directories of a path can be made if and only if no file is on the way. -/
theorem createDirectoriesFuel_cases (hk : p.length ≤ k) (s : Storage) :
    (¬s.disk.Clear p ∧ ∃ e st, createDirectoriesFuel k p s = .error e st) ∨
    s.disk.Clear p ∧ ∃ st, createDirectoriesFuel k p s = .ok () st ∧
      (p = [] ∨ ∃ l, st.disk.locate p = some l ∧ st.disk.IsDir l) := by
  induction k generalizing p s with
  | zero =>
    have hnil := List.length_eq_zero_iff.mp (Nat.le_zero.mp hk)
    exact .inr ⟨hnil ▸ s.disk.clear_nil, s, rfl, .inl hnil⟩
  | succ k ih =>
    by_cases hp : p = []
    · exact .inr ⟨hp ▸ s.disk.clear_nil, s, if_pos hp, .inl hp⟩
    have hmakes := createDirectoriesFuel_makes (k + 1) p s
    rw [createDirectoriesFuel] at hmakes ⊢
    simp only [if_neg hp] at hmakes ⊢
    cases hlook : s.disk.lookup p with
    | some v =>
      obtain ⟨l, hl, hv⟩ := Option.bind_eq_some_iff.mp hlook
      cases v with
      | dir => exact .inr ⟨(Makes.refl p s).clear hl hv, s, rfl, .inr ⟨l, hl, hv⟩⟩
      | file data =>
        refine .inl ⟨fun hclear => ?_, _, _, rfl⟩
        refine hclear l data ((DirTree.locate_cases hl).resolve_left fun hd => ?_).2 hv
        cases hd.symm.trans hv
    | none =>
      rw [hlook] at hmakes
      have hshort := length_parentPath_lt hp
      simp only at hmakes ⊢
      rcases ih (p := parentPath p) (by omega) s with
        ⟨hclear, e, st, he⟩ | ⟨hclear, st, hok, hdir⟩
      · refine .inl ⟨fun hc => hclear fun l data hway => hc l data (onWay_parentPath hway), e, st, ?_⟩
        exact Exec.bind_of_error he
      · rw [Exec.bind_of_ok hok] at hmakes ⊢
        have hloc : ∃ l, st.disk.locate p = some l := by
          rcases parentPath_cases p with ⟨-, hlen⟩ | ⟨hne, habs, tail, hlen, hc⟩
          · exact DirTree.locate_of_length_le hp hlen
          · obtain ⟨m, hm, hd⟩ := hdir.resolve_left hne
            exact DirTree.locate_of_parent hm hd habs hc hlen hp
        obtain ⟨l, hl⟩ := hloc
        rcases createDirectory_cases hl with ⟨data, hfile, hway, herr⟩ | ⟨st', hok', hd⟩
        · refine .inl ⟨fun hc => ?_, _, _, herr⟩
          rw [herr] at hmakes
          have hfile' := hmakes.node_file.mp hfile
          have hcwd : st.disk.cwd = s.disk.cwd := hmakes.disk.cwd
          exact hc l data (hcwd ▸ hway) hfile'
        · have hgrows := (createDirectory_makes p st).disk.grows
          rw [hok'] at hmakes hgrows
          have hl' := hgrows.locate hl
          exact .inr ⟨hmakes.clear hl' hd, st', hok', .inr ⟨l, hl', hd⟩⟩

theorem makeDirectory_makes (p : Str) (s : Storage) :
    Makes p s (Exec.final (makeDirectory p s)) := by
  rw [makeDirectory]
  split
  · exact createDirectoriesFuel_makes _ p s
  · exact .refl p s

theorem makeDirectory_eq_ok : (∃ st, makeDirectory p s = .ok () st) ↔
    s.disk.lookup p ≠ none ∨ s.disk.Clear p := by
  rw [makeDirectory]
  split
  · next hnone =>
    rcases createDirectoriesFuel_cases (Nat.le_refl p.length) s with
      ⟨hclear, e, st, he⟩ | ⟨hclear, st, hok, -⟩
    · refine iff_of_false ?_ (not_or.mpr ⟨not_not.mpr hnone, hclear⟩)
      rintro ⟨st', hok⟩
      cases he.symm.trans hok
    · exact iff_of_true ⟨st, hok⟩ (.inr hclear)
  · next hsome => exact iff_of_true ⟨s, rfl⟩ (.inl hsome)

/-- The directories there are then. -/
theorem isDir_makeDirectory (h : makeDirectory p s = .ok () st) :
    st.disk.IsDir l ↔ s.disk.Made p l := by
  have hmakes := makeDirectory_makes p s
  rw [h, Exec.final_ok] at hmakes
  constructor
  · intro hd
    obtain ⟨ls, -, hls, hn⟩ := hmakes.touched
    by_cases hmem : l ∈ ls
    · refine .inr ⟨?_, (hls l hmem).2.1⟩
      by_contra hsome
      rw [makeDirectory, if_neg hsome] at h
      cases h
      cases hd.symm.trans (hls l hmem).1
    · left
      rwa [DirTree.IsDir, ← hn l hmem]
  · rintro (hd | ⟨hnone, hway⟩)
    · exact hmakes.disk.node l .dir hd
    · rw [makeDirectory, if_pos hnone] at h
      rcases createDirectoriesFuel_cases (Nat.le_refl p.length) s with
        ⟨-, e, st', he⟩ | ⟨-, st', hok, hdir⟩
      · cases he.symm.trans h
      · cases hok.symm.trans h
        rcases hdir with rfl | ⟨m, hm, hd⟩
        · exact (DirTree.not_onWay_nil hway).elim
        · rw [← hmakes.disk.cwd] at hway
          exact DirTree.isDir_of_onWay hm hd hway

/-! ## What opening and writing a file does -/

theorem openStream_cases (p : Str) (s : Storage) :
    openStream p s = .ok none s ∧ (∀ l, s.disk.locate p = some l → s.disk.IsDir l) ∨
    ∃ l disk, s.disk.locate p = some l ∧ s.disk.put l (.file []) = some disk ∧
      openStream p s = .ok (some l) { s with disk, touched := l :: s.touched } := by
  rw [openStream]
  cases hl : s.disk.locate p with
  | none => exact .inl ⟨rfl, nofun⟩
  | some l =>
    cases hput : s.disk.put l (.file []) with
    | some disk => exact .inr ⟨l, disk, rfl, hput, by simp only [hput]⟩
    | none =>
      left
      refine ⟨by simp only [hput], ?_⟩
      rintro _ ⟨⟩
      by_contra hd
      obtain ⟨⟨m, n, rfl, hm⟩, -⟩ := (DirTree.locate_cases hl).resolve_left hd
      obtain ⟨t, ht⟩ := DirTree.exists_put (v := .file []) hm hd
      cases ht.symm.trans hput

/-- The write fills the file that was opened. -/
theorem writeStream_put {disk : DirTree (List Byte)} (hput : s.disk.put l (.file []) = some disk)
    (data : List Byte) (touched : List Location) : ∃ disk',
    writeStream (some l) data { s with disk, touched } = .ok () { s with disk := disk', touched } ∧
      disk'.node = Function.update s.disk.node l (some (.file data)) ∧ disk'.cwd = s.disk.cwd := by
  obtain ⟨hne, hdir, hl, hn, hc⟩ := DirTree.put_eq_some hput
  have hput' : ∃ disk', disk.put l (.file data) = some disk' := by
    refine ⟨_, dif_pos ⟨hne, (DirTree.Grows.of_put hput).dir _ hdir, ?_⟩⟩
    rw [DirTree.IsDir, hn, Function.update_self]
    rintro ⟨⟩
  obtain ⟨disk', hd⟩ := hput'
  obtain ⟨-, -, -, hn', hc'⟩ := DirTree.put_eq_some hd
  refine ⟨disk', ?_, ?_, hc'.trans hc⟩
  · simp only [writeStream, Option.bind_some, hd]
  · rw [hn', hn, Function.update_idem]

/-- What `deposit_chunk` does: it fails when the directories cannot be made, notes the path although
the stream is not open, or writes the file. -/
theorem depositChunk_cases (dirPrefix uid : Str) (cuid : Int) (data : List Byte) (s : Storage) :
    let r := representation dirPrefix uid cuid
    let made := makeDirectory (parentPath (filepath dirPrefix uid)) s
    let r' := depositChunk dirPrefix uid cuid (some data) s
    (∃ e st, made = .error e st ∧ r' = .error e st) ∨
    ∃ st, made = .ok () st ∧
      ((∀ l, st.disk.locate (append [] r) = some l → st.disk.IsDir l) ∧
          r' = .ok () { st with database := st.database.saveChunk uid cuid r } ∨
        ∃ l disk, st.disk.locate (append [] r) = some l ∧ ¬st.disk.IsDir l ∧
          disk.node = Function.update st.disk.node l (some (.file data)) ∧
          disk.cwd = st.disk.cwd ∧ r' = .ok () {
            disk, database := st.database.saveChunk uid cuid r, touched := l :: st.touched }) := by
  intro r made r'
  simp only [r', depositChunk]
  cases hm : made with
  | error e st => exact .inl ⟨e, st, rfl, Exec.bind_of_error hm⟩
  | ok a st =>
    refine .inr ⟨st, rfl, ?_⟩
    rw [Exec.bind_of_ok hm]
    rcases openStream_cases (append [] r) st with ⟨hopen, hdir⟩ | ⟨l, disk, hl, hput, hopen⟩
    · left
      refine ⟨hdir, ?_⟩
      rw [Exec.bind_of_ok hopen]
      rfl
    · right
      obtain ⟨disk', hwrite, hnode, hcwd⟩ := writeStream_put hput data (l :: st.touched)
      refine ⟨l, disk', hl, (DirTree.put_eq_some hput).2.2.1, hnode, hcwd, ?_⟩
      rw [Exec.bind_of_ok hopen]
      exact Exec.bind_of_ok hwrite

/-- A deposit returns if and only if it has data and its directories can be made. -/
theorem depositChunk_eq_ok : (∃ st, depositChunk dirPrefix uid cuid data s = .ok () st) ↔
    data ≠ none ∧ (s.disk.lookup (parentPath (filepath dirPrefix uid)) ≠ none ∨
      s.disk.Clear (parentPath (filepath dirPrefix uid))) := by
  rw [← makeDirectory_eq_ok]
  cases data with
  | none =>
    refine iff_of_false ?_ fun h => h.1 rfl
    rintro ⟨st, h⟩
    obtain ⟨_, st', -, h⟩ := Exec.bind_eq_ok.mp h
    obtain ⟨_, _, -, h⟩ := Exec.bind_eq_ok.mp h
    cases h
  | some data =>
    rw [and_iff_right (Option.some_ne_none data)]
    rcases depositChunk_cases dirPrefix uid cuid data s with
      ⟨e, st, hm, hr⟩ | ⟨st, hm, ⟨-, hr⟩ | ⟨l, disk, -, -, -, -, hr⟩⟩
    · exact iff_of_false (by rw [hr]; nofun) (by rw [hm]; nofun)
    · exact iff_of_true ⟨_, hr⟩ ⟨st, hm⟩
    · exact iff_of_true ⟨_, hr⟩ ⟨st, hm⟩

end Storage

end ColonyFS

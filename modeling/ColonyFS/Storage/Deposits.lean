import ColonyFS.Storage.ChunkFile
import ColonyFS.Lib.Machine

/-!
# What the store returns (`storage/util.cpp`)

Any sequence of calls of `deposit_chunk` on a disk that may hold other files and directories. The
file of a chunk may have the place of a directory, since the names of chunk files may occur as names
in other uids; the stream is then not open, the result of the write is not looked at, and the
database is updated regardless.
-/

namespace ColonyFS

open Machine Pathname Storage

structure Deposits where
  storage : Storage
  /-- The deposits that did not raise, newest first. -/
  completed : List ChunkData

namespace Deposits

def init (disk : DirTree (List Byte)) : Deposits := ⟨⟨disk, .empty, []⟩, []⟩

variable (dirPrefix : Str)

/-- A call of `deposit_chunk`. -/
def step (s : Deposits) (chunk : ChunkData) : Option Deposits :=
  match depositChunk dirPrefix chunk.uid chunk.cuid (some chunk.data) s.storage with
  | .ok _ storage => some ⟨storage, chunk :: s.completed⟩
  | .error _ storage => some ⟨storage, s.completed⟩

/-- The bytes of the last completed deposit of a chunk. -/
def last (s : Deposits) (uid : Str) (cuid : Int) : Option (List Byte) :=
  (s.completed.find? fun c => c.uid = uid ∧ c.cuid = cuid).map (·.data)

/-- `retrieve_chunk` returns what was deposited last. -/
def Served (s : Deposits) : Prop := ∀ uid cuid,
  retrieveChunk uid cuid s.storage = match s.last uid cuid with
    | some data => .ok ⟨uid, cuid, data⟩ s.storage
    | none => .error .inexistentFile s.storage

/-- The path of the file of a chunk, as the streams get it. -/
def file (chunk : ChunkData) : Str := append [] (representation dirPrefix chunk.uid chunk.cuid)

/-- The path of the directory of that file. -/
def dir (chunk : ChunkData) : Str := parentPath (filepath dirPrefix chunk.uid)

/-- The directories of a chunk can be made. -/
def Starts (s : Deposits) (chunk : ChunkData) : Prop :=
  s.storage.disk.lookup (dir dirPrefix chunk) ≠ none ∨ s.storage.disk.Clear (dir dirPrefix chunk)

/-- The path of the file leads through directories, and not to one of them. -/
def Opens (s : Deposits) (chunk : ChunkData) : Prop :=
  ∃ l, s.storage.disk.locateMade (dir dirPrefix chunk) (file dirPrefix chunk) = some l ∧
    ¬s.storage.disk.Made (dir dirPrefix chunk) l

/-- No other chunk with other bytes has the same file. -/
def Apart (s : Deposits) (chunk : ChunkData) : Prop :=
  ∀ uid cuid p l data, ¬(uid = chunk.uid ∧ cuid = chunk.cuid) →
    s.storage.database.loadChunk uid cuid = some p → s.last uid cuid = some data →
    s.storage.disk.locate (append [] p) = some l →
    s.storage.disk.locateMade (dir dirPrefix chunk) (file dirPrefix chunk) = some l →
    data = chunk.data

/-- If the directories can be made, then the stream opens a file that no other chunk is in. -/
def Ok (s : Deposits) (chunk : ChunkData) : Prop :=
  Starts dirPrefix s chunk → Opens dirPrefix s chunk ∧ Apart dirPrefix s chunk

variable {dirPrefix} {s s' : Deposits} {chunk : ChunkData} {uid : Str} {cuid : Int}

theorem last_cons (s : Deposits) (storage : Storage) (chunk : ChunkData) (uid : Str) (cuid : Int) :
    (⟨storage, chunk :: s.completed⟩ : Deposits).last uid cuid =
      if uid = chunk.uid ∧ cuid = chunk.cuid then some chunk.data else s.last uid cuid := by
  simp only [last, List.find?_cons]
  by_cases h : uid = chunk.uid ∧ cuid = chunk.cuid
  · rw [if_pos h, decide_eq_true ⟨h.1.symm, h.2.symm⟩]
    rfl
  · rw [if_neg h, decide_eq_false fun h' => h ⟨h'.1.symm, h'.2.symm⟩]

/-- What the disk and the database hold of a chunk. -/
def Held (s : Deposits) (uid : Str) (cuid : Int) : Prop :=
  match s.last uid cuid with
  | some data => ∃ p l, s.storage.database.loadChunk uid cuid = some p ∧
      s.storage.disk.locate (append [] p) = some l ∧ s.storage.disk.node l = some (.file data)
  | none => s.storage.database.loadChunk uid cuid = none

theorem held_iff : Held s uid cuid ↔
    retrieveChunk uid cuid s.storage = match s.last uid cuid with
      | some data => .ok ⟨uid, cuid, data⟩ s.storage
      | none => .error .inexistentFile s.storage := by
  rw [Held, retrieveChunk]
  cases s.last uid cuid with
  | none =>
    cases s.storage.database.loadChunk uid cuid with
    | none => simp
    | some p =>
      simp only [reduceCtorEq, false_iff]
      cases s.storage.disk.lookup (append [] p) with
      | none => simp
      | some v => cases v <;> simp
  | some data =>
    cases s.storage.database.loadChunk uid cuid with
    | none => simp
    | some p =>
      simp only [DirTree.lookup]
      cases hl : s.storage.disk.locate (append [] p) with
      | none => simp [hl]
      | some l =>
        simp only [Option.bind_some]
        cases hn : s.storage.disk.node l with
        | none => simp [hl, hn]
        | some v => cases v <;> simp [hl, hn, eq_comm]

theorem served_iff : Served s ↔ ∀ uid cuid, Held s uid cuid :=
  forall_congr' fun _ => forall_congr' fun _ => held_iff.symm

theorem Held.of_last {data : List Byte} (h : Held s uid cuid) (hd : s.last uid cuid = some data) :
    ∃ p l, s.storage.database.loadChunk uid cuid = some p ∧
      s.storage.disk.locate (append [] p) = some l ∧
      s.storage.disk.node l = some (.file data) := by
  rwa [Held, hd] at h

/-- A chunk is still held when directories were made. -/
theorem Held.of_makes {st : Storage} (h : Held s uid cuid) (hm : Makes p s.storage st) :
    Held ⟨st, s.completed⟩ uid cuid := by
  have hlast : (⟨st, s.completed⟩ : Deposits).last uid cuid = s.last uid cuid := rfl
  rw [Held] at h ⊢
  rw [hlast]
  split at h
  · obtain ⟨p, l, hp, hl, hn⟩ := h
    exact ⟨p, l, by rwa [hm.database], hm.disk.grows.locate hl, hm.disk.node l _ hn⟩
  · simp only
    rwa [hm.database]

/-- The chunk of a deposit is held if its path leads to a file with its bytes. -/
theorem held_cons_self {disk : DirTree (List Byte)} {db : Db} {p : Str} {touched : List Location} :
    Held ⟨⟨disk, db.saveChunk chunk.uid chunk.cuid p, touched⟩, chunk :: s.completed⟩ chunk.uid
      chunk.cuid ↔
    ∃ l, disk.locate (append [] p) = some l ∧ disk.node l = some (.file chunk.data) := by
  simp only [Held, last_cons, true_and, if_true, Db.loadChunk_saveChunk]
  constructor
  · rintro ⟨_, l, ⟨⟩, hl, hn⟩
    exact ⟨l, hl, hn⟩
  · rintro ⟨l, hl, hn⟩
    exact ⟨p, l, rfl, hl, hn⟩

/-- A deposit notes nothing of another chunk. -/
theorem held_cons_of_ne {disk : DirTree (List Byte)} {db : Db} {p : Str} {touched : List Location}
    (h : ¬(uid = chunk.uid ∧ cuid = chunk.cuid)) :
    Held ⟨⟨disk, db.saveChunk chunk.uid chunk.cuid p, touched⟩, chunk :: s.completed⟩ uid cuid ↔
      Held ⟨⟨disk, db, touched⟩, s.completed⟩ uid cuid := by
  have hlast : (⟨⟨disk, db, touched⟩, s.completed⟩ : Deposits).last uid cuid = s.last uid cuid :=
    rfl
  simp only [Held, last_cons, if_neg h, Db.loadChunk_saveChunk, hlast]

/-- A chunk is still held when directories were made and a file was written, if the file was not its
own or the bytes are the same. -/
theorem Held.of_written {st : Storage} {disk : DirTree (List Byte)} {l : Location}
    {bytes : List Byte} {p : Str} {touched : List Location} (h : Held s uid cuid)
    (hm : Makes p s.storage st) (hgrows : st.disk.Grows disk)
    (hnode : disk.node = Function.update st.disk.node l (some (.file bytes)))
    (hsame : ∀ q data, s.storage.database.loadChunk uid cuid = some q →
      s.last uid cuid = some data → s.storage.disk.locate (append [] q) = some l → data = bytes) :
    Held ⟨⟨disk, st.database, touched⟩, s.completed⟩ uid cuid := by
  have hlast : (⟨⟨disk, st.database, touched⟩, s.completed⟩ : Deposits).last uid cuid =
      s.last uid cuid := rfl
  rw [Held] at h ⊢
  rw [hlast]
  cases hd : s.last uid cuid with
  | none =>
    rw [hd] at h
    exact (congrArg (·.loadChunk uid cuid) hm.database).trans h
  | some data =>
    rw [hd] at h
    obtain ⟨q, k, hq, hk, hn⟩ := h
    refine ⟨q, k, by rwa [hm.database], hgrows.locate (hm.disk.grows.locate hk), ?_⟩
    obtain rfl | hkl := eq_or_ne k l
    · rw [hnode, Function.update_self, hsame q data hq hd hk]
    · rw [hnode, Function.update_of_ne hkl]
      exact hm.disk.node k _ hn

/-- One deposit keeps the promise if and only if it meets the condition. -/
theorem served_step (H : Served s) (h : step dirPrefix s chunk = some s') :
    Served s' ↔ Ok dirPrefix s chunk := by
  rw [served_iff] at H ⊢
  have hmakes := makeDirectory_makes (dir dirPrefix chunk) s.storage
  have hstarts := makeDirectory_eq_ok (p := dir dirPrefix chunk) (s := s.storage)
  simp only [step] at h
  rcases depositChunk_cases dirPrefix chunk.uid chunk.cuid chunk.data s.storage with
    ⟨e, st, hm, hr⟩ | ⟨st, hm, hcase⟩
  · -- Nothing is noted.
    rw [hr] at h
    cases h
    have hm : makeDirectory (dir dirPrefix chunk) s.storage = .error e st := hm
    rw [hm, Exec.final_error] at hmakes
    refine ⟨fun _ hs => ?_, fun _ uid cuid => (H uid cuid).of_makes hmakes⟩
    obtain ⟨st', hst⟩ := hstarts.mpr hs
    cases hm.symm.trans hst
  have hm : makeDirectory (dir dirPrefix chunk) s.storage = .ok () st := hm
  rw [hm, Exec.final_ok] at hmakes
  have hs : Starts dirPrefix s chunk := hstarts.mp ⟨st, hm⟩
  have hmade (l : Location) := isDir_makeDirectory (l := l) hm
  have hloc := DirTree.locateMade_eq hmakes.disk.cwd hmade (file dirPrefix chunk)
  rcases hcase with ⟨hdir, hr⟩ | ⟨l, disk, hl, hnd, hnode, hcwd, hr⟩
  · -- The path is noted, and leads nowhere or to a directory.
    rw [hr] at h
    cases h
    refine ⟨fun hheld => ?_, fun hok => ?_⟩
    · obtain ⟨l, hl, hn⟩ := held_cons_self.mp (hheld chunk.uid chunk.cuid)
      cases (hdir l hl).symm.trans hn
    · obtain ⟨l, hl, hnd⟩ := (hok hs).1
      exact (hnd ((hmade l).mp (hdir l (hloc ▸ hl)))).elim
  · -- The file is written.
    rw [hr] at h
    cases h
    have hl' : s.storage.disk.locateMade (dir dirPrefix chunk) (file dirPrefix chunk) = some l :=
      hloc.trans hl
    have hgrows : st.disk.Grows disk := .of_update hnd hnode hcwd
    refine ⟨fun hheld _ => ⟨⟨l, hl', fun hd => hnd ((hmade l).mpr hd)⟩, ?_⟩,
      fun hok uid cuid => ?_⟩
    · intro uid cuid p k data hne hp hlast hk hkl
      cases hl'.symm.trans hkl
      obtain ⟨q, m, hq, hm', hn⟩ := ((held_cons_of_ne hne).mp (hheld uid cuid)).of_last hlast
      cases hp.symm.trans ((congrArg (·.loadChunk uid cuid) hmakes.database).symm.trans hq)
      cases (hgrows.locate (hmakes.disk.grows.locate hk)).symm.trans hm'
      rw [hnode, Function.update_self] at hn
      cases hn
      rfl
    · by_cases hkey : uid = chunk.uid ∧ cuid = chunk.cuid
      · obtain ⟨rfl, rfl⟩ := hkey
        exact held_cons_self.mpr ⟨l, hgrows.locate hl, by rw [hnode, Function.update_self]⟩
      · refine (held_cons_of_ne hkey).mpr ((H uid cuid).of_written hmakes hgrows hnode ?_)
        intro q data hq hlast hk
        exact (hok hs).2 uid cuid q l data hkey hq hlast hk hl'

/-- The database has the paths of deposits that did not raise. -/
def Noted (dirPrefix : Str) (s : Deposits) : Prop := ∀ uid cuid p,
  s.storage.database.loadChunk uid cuid = some p →
    p = representation dirPrefix uid cuid ∧ ∃ c ∈ s.completed, c.uid = uid

theorem Noted.step (H : Noted dirPrefix s) (h : step dirPrefix s chunk = some s') :
    Noted dirPrefix s' := by
  have hmakes := makeDirectory_makes (dir dirPrefix chunk) s.storage
  have hsave {st st' : Storage} (hm : makeDirectory (dir dirPrefix chunk) s.storage = .ok () st)
      (hdb : st'.database = st.database.saveChunk chunk.uid chunk.cuid
        (representation dirPrefix chunk.uid chunk.cuid)) :
      Noted dirPrefix ⟨st', chunk :: s.completed⟩ := by
    rw [hm, Exec.final_ok] at hmakes
    intro uid cuid p hp
    rw [hdb, Db.loadChunk_saveChunk, hmakes.database] at hp
    split at hp
    · next hkey =>
      cases hp
      rw [hkey.1, hkey.2]
      exact ⟨rfl, chunk, List.mem_cons_self, rfl⟩
    · obtain ⟨hrep, c, hc, huid⟩ := H uid cuid p hp
      exact ⟨hrep, c, List.mem_cons_of_mem _ hc, huid⟩
  simp only [Deposits.step] at h
  rcases depositChunk_cases dirPrefix chunk.uid chunk.cuid chunk.data s.storage with
    ⟨e, st, hm, hr⟩ | ⟨st, hm, ⟨-, hr⟩ | ⟨l, disk, -, -, -, -, hr⟩⟩
  · rw [hr] at h
    cases h
    rw [dir, hm, Exec.final_error] at hmakes
    intro uid cuid p hp
    exact H uid cuid p (hmakes.database ▸ hp)
  · rw [hr] at h
    cases h
    exact hsave hm rfl
  · rw [hr] at h
    cases h
    exact hsave hm rfl

/-- Chunks of different uids or cuids have different files. -/
theorem Noted.apart (H : Noted dirPrefix s) (hp : Named dirPrefix)
    (huids : ∀ c ∈ chunk :: s.completed, Paths.Canonical c.uid ∧ '\x00' ∉ c.uid) :
    Apart dirPrefix s chunk := by
  intro uid cuid p l data hne hload _ hl hl'
  obtain ⟨rfl, c, hmem, rfl⟩ := H uid cuid p hload
  have heq := (eq_location_of_locate hp hl).symm.trans (eq_location_of_locateMade hp hl')
  obtain ⟨⟨cs, hcs, huid⟩, h0⟩ := huids c (List.mem_cons_of_mem _ hmem)
  obtain ⟨⟨cs', hcs', huid'⟩, h0'⟩ := huids chunk List.mem_cons_self
  rw [huid] at heq h0 hne
  rw [huid'] at heq h0' hne
  have hroot : dirPrefix ≠ ['/'] := fun h => hp.components_ne (h ▸ rfl)
  exact (hne (location_injective hp.plain hroot hcs h0 hcs' h0' heq)).elim

/-- The store returns what was deposited last, in every run whose deposits open a file that no
other chunk is in, and not a step further. Below a directory with a name chunks never share a file
if their uids are paths as the kernel writes them, without null characters. -/
theorem served_of_reach {disk : DirTree (List Byte)}
    (h : Reach (step dirPrefix) (Ok dirPrefix) (init disk) s) :
    Served s ∧
    (∀ chunk s', step dirPrefix s chunk = some s' → (Served s' ↔ Ok dirPrefix s chunk)) ∧
    (Named dirPrefix → ∀ chunk,
      (∀ c ∈ chunk :: s.completed, Paths.Canonical c.uid ∧ '\x00' ∉ c.uid) →
      Apart dirPrefix s chunk) := by
  have hserved : Served s := by
    refine h.invariant (P := Served) (fun uid cuid => rfl) fun s chunk s' ih hok hstep => ?_
    exact (served_step ih hstep).mpr hok
  have hnoted : Noted dirPrefix s :=
    h.invariant (P := Noted dirPrefix) nofun fun s chunk s' ih _ hstep => ih.step hstep
  exact ⟨hserved, fun chunk s' => served_step hserved,
    fun hp chunk huids => hnoted.apart hp huids⟩

theorem served_of_reach_example : ∃ s,
    Reach (step ['/', 'd']) (Ok ['/', 'd']) (init (.chain [['d']])) s ∧
    retrieveChunk ['/', 'a'] 0 s.storage = .ok ⟨['/', 'a'], 0, [7]⟩ s.storage := by
  obtain ⟨s, hs⟩ : ∃ s, step ['/', 'd'] (init (.chain [['d']])) ⟨['/', 'a'], 0, [7]⟩ = some s := by
    rw [step]
    split
    · exact ⟨_, rfl⟩
    · exact ⟨_, rfl⟩
  have hok : Ok ['/', 'd'] (init (.chain [['d']])) ⟨['/', 'a'], 0, [7]⟩ := fun _ =>
    ⟨⟨[['d'], fileName ['a'] 0], by decide +kernel, by decide +kernel⟩, nofun⟩
  have hreach := Reach.step .init hok hs
  refine ⟨s, hreach, (served_of_reach hreach).1 ['/', 'a'] 0 |>.trans ?_⟩
  have hlast : (step ['/', 'd'] (init (.chain [['d']])) ⟨['/', 'a'], 0, [7]⟩).map (·.last ['/', 'a'] 0) =
      some (some [7]) := by decide +kernel
  rw [hs] at hlast
  have hlast : s.last ['/', 'a'] 0 = some [7] := Option.some.inj hlast
  rw [hlast]

/-- The directory of the second chunk is the file of the first; its bytes go nowhere, and its path
is noted. -/
theorem not_served : ∃ s, run (step ['/', 'd']) (init (.chain [['d']]))
      [⟨['/', 'a'], 0, [7]⟩, ⟨['/', '_', '_', 'a', '_', '_', '0', '/', 'b'], 0, [8]⟩] = some s ∧
    (∀ c ∈ s.completed, Paths.Canonical c.uid) ∧
    s.last ['/', '_', '_', 'a', '_', '_', '0', '/', 'b'] 0 = some [8] ∧
    Exec.error? (retrieveChunk ['/', '_', '_', 'a', '_', '_', '0', '/', 'b'] 0 s.storage) =
      some .filesystemError ∧ ¬Served s := by
  have h : (run (step ['/', 'd']) (init (.chain [['d']]))
      [⟨['/', 'a'], 0, [7]⟩, ⟨['/', '_', '_', 'a', '_', '_', '0', '/', 'b'], 0, [8]⟩]).map
      (fun s => (s.completed, s.last ['/', '_', '_', 'a', '_', '_', '0', '/', 'b'] 0,
        Exec.error? (retrieveChunk ['/', '_', '_', 'a', '_', '_', '0', '/', 'b'] 0 s.storage))) =
      some ([⟨['/', '_', '_', 'a', '_', '_', '0', '/', 'b'], 0, [8]⟩, ⟨['/', 'a'], 0, [7]⟩],
        some [8], some .filesystemError) := by decide +kernel
  obtain ⟨s, hs, he⟩ := Option.map_eq_some_iff.mp h
  simp only [Prod.mk.injEq] at he
  obtain ⟨hc, hlast, hr⟩ := he
  refine ⟨s, hs, ?_, hlast, hr, fun hserved => ?_⟩
  · rw [hc]
    decide
  · have hget := hserved ['/', '_', '_', 'a', '_', '_', '0', '/', 'b'] 0
    rw [hlast] at hget
    rw [hget] at hr
    cases hr

end Deposits

end ColonyFS

import ColonyFS.Storage.Store

/-!
# The chunk database (`storage/db.cpp`, `storage/file.cpp`)

A map from uids to files, and in each file a map from cuids to paths. `operator[]` inserts what is
missing on both levels, `operator()` throws. What `load_chunk` returns is what was saved last, and
`get_num_of_chunks` is one more than the largest cuid as long as that is an `int`.
-/

namespace ColonyFS

abbrev DbM := EStateM StorageError Db

namespace File

/-- `file(cuid)`. -/
def call {σ : Type} (file : File) (cuid : Int) : EStateM StorageError σ Str :=
  match file.cuidMap cuid with
  | none => throw .inexistentFile
  | some representation => pure representation

/-- The file after `operator[]` has been called for each cuid. -/
def used (uses : List (Int × (Str → Str))) : File :=
  uses.foldl (fun file use => file.subscript use.1 use.2) .new

end File

namespace DbM

/-- `db(uid)`. -/
def call (uid : Str) : DbM File := do
  match (← get).uidMap uid with
  | none => throw .inexistentFile
  | some file => pure file

/-- `db[uid]`, and what is done to the file behind the reference. -/
def subscript (uid : Str) (assign : File → File) : DbM Unit :=
  modify fun db =>
    { db with uidMap :=
        Function.update db.uidMap uid (some (assign ((db.uidMap uid).getD .new))) }

def saveChunk (metadata : ChunkKey) (representation : Str) : DbM Unit :=
  subscript metadata.uid (File.subscript metadata.cuid fun _ => representation)

def loadChunk (uid : Str) (cuid : Int) : DbM Str := do
  let file ← call uid
  file.call cuid

/-- The other `load_chunk`. -/
def loadChunkOf (metadata : ChunkKey) : DbM Str := do
  let file ← call metadata.uid
  file.call metadata.cuid

def getNumOfChunks (uid : Str) : DbM Int := do
  let file ← call uid
  match file.numOfChunks with
  | none => throw .undefined
  | some numOfChunks => return numOfChunks

end DbM

inductive DbAct where
  | saveChunk (metadata : ChunkKey) (representation : Str)
  | loadChunk (uid : Str) (cuid : Int)
  | loadChunkOf (metadata : ChunkKey)
  | getNumOfChunks (uid : Str)

namespace Db

/-- The database after a call that returns or throws. -/
def step (db : Db) : DbAct → Db
  | .saveChunk metadata representation => Exec.final (DbM.saveChunk metadata representation db)
  | .loadChunk uid cuid => Exec.final (DbM.loadChunk uid cuid db)
  | .loadChunkOf metadata => Exec.final (DbM.loadChunkOf metadata db)
  | .getNumOfChunks uid => Exec.final (DbM.getNumOfChunks uid db)

def run (acts : List DbAct) : Db := acts.foldl step .empty

/-- What a call saves for a pair. -/
def saved? (key : ChunkKey) : DbAct → Option Str
  | .saveChunk metadata representation => if metadata = key then some representation else none
  | .loadChunk .. | .loadChunkOf _ | .getNumOfChunks _ => none

/-- The last path that was saved for a pair. -/
def lastSaved (acts : List DbAct) (key : ChunkKey) : Option Str :=
  acts.reverse.findSome? (saved? key)

/-- Both overloads of `load_chunk` return the path, or throw `inexistent_file_e` if there is none,
and leave the database. -/
def Loads (db : Db) (uid : Str) (cuid : Int) (found : Option Str) : Prop :=
  let result := match found with
    | some representation => .ok representation db
    | none => .error .inexistentFile db
  DbM.loadChunk uid cuid db = result ∧ DbM.loadChunkOf ⟨uid, cuid⟩ db = result

variable {db : Db} {acts : List DbAct} {uid : Str} {cuid : Int} {key metadata : ChunkKey}
  {representation : Str} {act : DbAct}

/-! ## One call -/

theorem call_apply (uid : Str) (db : Db) : DbM.call uid db = match db.uidMap uid with
    | some file => .ok file db
    | none => .error .inexistentFile db := by
  have hget : DbM.call uid db = (match db.uidMap uid with
    | none => throw .inexistentFile
    | some file => pure file : DbM File) db := rfl
  rw [hget]
  cases db.uidMap uid <;> rfl

theorem loadChunk_apply (uid : Str) (cuid : Int) (db : Db) :
    DbM.loadChunk uid cuid db = match db.loadChunk uid cuid with
      | some representation => .ok representation db
      | none => .error .inexistentFile db := by
  have hcall := call_apply uid db
  rw [DbM.loadChunk, loadChunk]
  cases hu : db.uidMap uid with
  | none =>
    rw [hu] at hcall
    rw [Exec.bind_of_error hcall, Option.bind_none]
  | some file =>
    rw [hu] at hcall
    rw [Exec.bind_of_ok hcall, Option.bind_some, File.call]
    cases file.cuidMap cuid <;> rfl

theorem getNumOfChunks_apply (uid : Str) (db : Db) :
    DbM.getNumOfChunks uid db = match db.uidMap uid with
      | some file => match file.numOfChunks with
        | some numOfChunks => .ok numOfChunks db
        | none => .error .undefined db
      | none => .error .inexistentFile db := by
  have hcall := call_apply uid db
  rw [DbM.getNumOfChunks]
  cases hu : db.uidMap uid with
  | none =>
    rw [hu] at hcall
    rw [Exec.bind_of_error hcall]
  | some file =>
    rw [hu] at hcall
    rw [Exec.bind_of_ok hcall]
    dsimp only
    cases file.numOfChunks <;> rfl

theorem loads_iff {found : Option Str} : Loads db uid cuid found ↔
    db.loadChunk uid cuid = found := by
  have hof : DbM.loadChunkOf ⟨uid, cuid⟩ = DbM.loadChunk uid cuid := rfl
  simp only [Loads, hof, and_self, loadChunk_apply]
  cases db.loadChunk uid cuid with
  | none => cases found <;> simp
  | some r => cases found <;> simp

theorem step_saveChunk : db.step (.saveChunk metadata representation) =
    db.saveChunk metadata.uid metadata.cuid representation := rfl

/-- Only a save changes the database. -/
theorem step_lookup (h : ∀ metadata representation, act ≠ .saveChunk metadata representation) :
    db.step act = db := by
  have hload : ∀ uid cuid, Exec.final (DbM.loadChunk uid cuid db) = db := by
    intro uid cuid
    rw [loadChunk_apply]
    cases db.loadChunk uid cuid <;> rfl
  cases act with
  | saveChunk metadata representation => exact (h _ _ rfl).elim
  | loadChunk uid cuid => exact hload uid cuid
  | loadChunkOf metadata => exact hload metadata.uid metadata.cuid
  | getNumOfChunks uid =>
    rw [step, getNumOfChunks_apply]
    cases db.uidMap uid with
    | none => rfl
    | some file => cases h : file.numOfChunks <;> simp only [h] <;> rfl

/-- A call changes what is loaded for the pair that it saves. -/
theorem loadChunk_step (db : Db) (act : DbAct) (uid : Str) (cuid : Int) :
    (db.step act).loadChunk uid cuid = (saved? ⟨uid, cuid⟩ act).or (db.loadChunk uid cuid) := by
  cases act with
  | saveChunk metadata representation =>
    rw [step_saveChunk, loadChunk_saveChunk, saved?]
    by_cases hkey : metadata = ⟨uid, cuid⟩
    · cases hkey
      rw [if_pos ⟨rfl, rfl⟩, if_pos rfl, Option.some_or]
    · rw [if_neg hkey, if_neg, Option.none_or]
      rintro ⟨rfl, rfl⟩
      exact hkey rfl
  | _ =>
    rw [step_lookup (by simp)]
    rfl

/-! ## Runs -/

theorem run_concat (acts : List DbAct) (act : DbAct) : run (acts ++ [act]) = (run acts).step act :=
  List.foldl_concat ..

theorem lastSaved_concat (acts : List DbAct) (act : DbAct) (key : ChunkKey) :
    lastSaved (acts ++ [act]) key = (saved? key act).or (lastSaved acts key) := by
  rw [lastSaved, List.reverse_concat, List.findSome?_cons, lastSaved]
  cases saved? key act <;> rfl

theorem loadChunk_run (acts : List DbAct) (uid : Str) (cuid : Int) :
    (run acts).loadChunk uid cuid = lastSaved acts ⟨uid, cuid⟩ := by
  induction acts using List.reverseRecOn with
  | nil => rfl
  | append_singleton acts act ih => rw [run_concat, loadChunk_step, lastSaved_concat, ih]

theorem lastSaved_eq_none : lastSaved acts key = none ↔
    ∀ representation, .saveChunk key representation ∉ acts := by
  rw [lastSaved, List.findSome?_eq_none_iff]
  constructor
  · intro h representation hmem
    have hnone := h _ (List.mem_reverse.mpr hmem)
    rw [saved?, if_pos rfl] at hnone
    cases hnone
  · intro h act hmem
    cases act with
    | saveChunk metadata representation =>
      rw [saved?, if_neg]
      rintro rfl
      exact h representation (List.mem_reverse.mp hmem)
    | _ => rfl

/-- What is loaded is what was saved last for exactly that pair. -/
theorem loads_lastSaved (acts : List DbAct) (uid : Str) (cuid : Int) :
    Loads (run acts) uid cuid (lastSaved acts ⟨uid, cuid⟩) ∧
    (lastSaved acts ⟨uid, cuid⟩ = none ↔
      ∀ representation, .saveChunk ⟨uid, cuid⟩ representation ∉ acts) ∧
    (∀ metadata representation found, metadata ≠ ⟨uid, cuid⟩ → Loads (run acts) uid cuid found →
      Loads ((run acts).step (.saveChunk metadata representation)) uid cuid found) ∧
    ∀ act, (∀ metadata representation, act ≠ .saveChunk metadata representation) →
      (run acts).step act = run acts := by
  refine ⟨loads_iff.mpr (loadChunk_run acts uid cuid), lastSaved_eq_none, ?_,
    fun act h => step_lookup h⟩
  intro metadata representation found hne hfound
  rw [loads_iff] at hfound ⊢
  rw [loadChunk_step, saved?, if_neg hne, Option.none_or, hfound]

end Db

/-! ## The number of chunks -/

namespace File

/-- The values of an `int`. -/
def InInt (cuid : Int) : Prop := -2 ^ 31 ≤ cuid ∧ cuid < 2 ^ 31

instance (cuid : Int) : Decidable (InInt cuid) := inferInstanceAs (Decidable (_ ∧ _))

/-- The counter is the maximum of 0 and one more than the largest cuid used, it has not decreased,
and it is `n` if exactly the first `n` cuids were used. -/
structure Counts (uses : List (Int × (Str → Str))) : Prop where
  greatest : ∃ n, (used uses).numOfChunks = some n ∧
    IsGreatest {n | n = 0 ∨ ∃ use ∈ uses, n = use.1 + 1} n
  mono : ∀ earlier, earlier <+: uses → ∃ m n, (used earlier).numOfChunks = some m ∧
    (used uses).numOfChunks = some n ∧ m ≤ n
  dense : ∀ n : Nat, (∀ i : Int, (∃ use ∈ uses, use.1 = i) ↔ 0 ≤ i ∧ i < n) →
    (used uses).numOfChunks = some (n : Int)

variable {uses earlier : List (Int × (Str → Str))} {use : Int × (Str → Str)} {cuid : Int}

theorem used_concat (uses : List (Int × (Str → Str))) (use : Int × (Str → Str)) :
    used (uses ++ [use]) = (used uses).subscript use.1 use.2 := List.foldl_concat ..

theorem numOfChunks_subscript (cuid : Int) (assign : Str → Str) (file : File) :
    (file.subscript cuid assign).numOfChunks =
      (next cuid).bind fun next => file.numOfChunks.map (max · next) := by
  have hmax (n m : Int) : (if m > n then m else n) = max n m := by
    split <;> omega
  simp only [subscript, hmax]
  cases next cuid with
  | none => rfl
  | some next => cases file.numOfChunks <;> rfl

theorem next_eq_none (h : InInt cuid) : next cuid = none ↔ cuid = 2 ^ 31 - 1 := by
  obtain ⟨-, hlt⟩ := h
  rw [next, ite_eq_right_iff]
  simp only [reduceCtorEq, imp_false]
  omega

/-- The counter is lost with the largest `int`, and for good. -/
theorem numOfChunks_eq_none (h : ∀ use ∈ uses, InInt use.1) :
    (used uses).numOfChunks = none ↔ ∃ use ∈ uses, use.1 = 2 ^ 31 - 1 := by
  induction uses using List.reverseRecOn with
  | nil => exact iff_of_false (Option.some_ne_none _) fun ⟨_, hmem, _⟩ => List.not_mem_nil hmem
  | append_singleton uses use ih =>
    obtain ⟨huses, huse⟩ := List.forall_mem_append.mp h
    have hnext := next_eq_none (huse use (List.mem_singleton_self use))
    have ih := ih huses
    rw [used_concat, numOfChunks_subscript, Option.bind_eq_none_iff]
    simp only [Option.map_eq_none_iff, List.mem_append, List.mem_singleton, or_and_right,
      exists_or, exists_eq_left]
    rw [← hnext, ← ih]
    cases next use.1 with
    | none => exact iff_of_true nofun (.inr rfl)
    | some m => exact ⟨fun h => .inl (h m rfl), fun h _ _ => h.resolve_right (Option.some_ne_none m)⟩

theorem isGreatest_used {n : Int} (h : (used uses).numOfChunks = some n) :
    IsGreatest {n | n = 0 ∨ ∃ use ∈ uses, n = use.1 + 1} n := by
  induction uses using List.reverseRecOn generalizing n with
  | nil =>
    cases h
    refine ⟨.inl rfl, ?_⟩
    rintro m (rfl | ⟨use, hmem, -⟩)
    · exact le_rfl
    · cases hmem
  | append_singleton uses use ih =>
    rw [used_concat, numOfChunks_subscript] at h
    obtain ⟨m, hm, h⟩ := Option.bind_eq_some_iff.mp h
    obtain ⟨k, hk, rfl⟩ := Option.map_eq_some_iff.mp h
    obtain rfl : use.1 + 1 = m := by
      rw [next] at hm
      split at hm
      · exact Option.some.inj hm
      · cases hm
    obtain ⟨hmem, hle⟩ := ih hk
    constructor
    · rcases max_choice k (use.1 + 1) with hmax | hmax
      · rw [hmax]
        exact hmem.imp_right fun ⟨u, hu, hn⟩ => ⟨u, List.mem_append_left _ hu, hn⟩
      · rw [hmax]
        exact .inr ⟨use, List.mem_append_right _ (List.mem_singleton_self use), rfl⟩
    · rintro n (hn | ⟨u, hu, hn⟩)
      · exact (hle (.inl hn)).trans (le_max_left _ _)
      · rcases List.mem_append.mp hu with hu | hu
        · exact (hle (.inr ⟨u, hu, hn⟩)).trans (le_max_left _ _)
        · rw [hn, List.mem_singleton.mp hu]
          exact le_max_right _ _

/-- The cuids from 0 up to `n`. -/
theorem isGreatest_of_dense {n : Nat}
    (h : ∀ i : Int, (∃ use ∈ uses, use.1 = i) ↔ 0 ≤ i ∧ i < n) :
    IsGreatest {m : Int | m = 0 ∨ ∃ use ∈ uses, m = use.1 + 1} n := by
  constructor
  · cases n with
    | zero => exact .inl rfl
    | succ n =>
      obtain ⟨use, hmem, huse⟩ := (h n).mpr (by omega)
      exact .inr ⟨use, hmem, by rw [huse]; rfl⟩
  · rintro m (rfl | ⟨use, hmem, rfl⟩)
    · exact Int.natCast_nonneg n
    · have hlt := (h use.1).mp ⟨use, hmem, rfl⟩
      omega

/-- The counter tracks the largest cuid if and only if that is not the largest `int`. -/
theorem counts_iff (h : ∀ use ∈ uses, InInt use.1) :
    Counts uses ↔ ∀ use ∈ uses, use.1 ≠ 2 ^ 31 - 1 := by
  have hlost := numOfChunks_eq_none h
  constructor
  · intro hcounts use hmem hmax
    obtain ⟨n, hn, _⟩ := hcounts.greatest
    exact Option.some_ne_none n (hn.symm.trans (hlost.mpr ⟨use, hmem, hmax⟩))
  · intro hne
    have hsome : ∀ earlier, earlier <+: uses → ∃ n, (used earlier).numOfChunks = some n := by
      intro earlier hpre
      have hmem {use} (hu : use ∈ earlier) : use ∈ uses := hpre.subset hu
      refine Option.ne_none_iff_exists'.mp fun hnone => ?_
      obtain ⟨use, hu, hmax⟩ :=
        (numOfChunks_eq_none fun use hu => h use (hmem hu)).mp hnone
      exact hne use (hmem hu) hmax
    obtain ⟨n, hn⟩ := hsome uses (List.prefix_refl uses)
    have hgreatest := isGreatest_used hn
    refine ⟨⟨n, hn, hgreatest⟩, fun earlier hpre => ?_, fun k hk => ?_⟩
    · obtain ⟨m, hm⟩ := hsome earlier hpre
      refine ⟨m, n, hm, hn, hgreatest.2 ?_⟩
      exact (isGreatest_used hm).1.imp_right fun ⟨u, hu, he⟩ => ⟨u, hpre.subset hu, he⟩
    · rw [hn, hgreatest.unique (isGreatest_of_dense hk)]

/-- The cuids 1, -5, 0 and 1 again. -/
theorem counts_iff_example : Counts [(1, id), (-5, id), (0, fun _ => ['p']), (1, id)] :=
  (counts_iff (by decide)).mpr (by decide)

/-- The largest `int` has no successor. -/
theorem not_counts : ¬Counts [(2 ^ 31 - 1, id)] := by
  intro h
  obtain ⟨n, hn, _⟩ := h.greatest
  cases hn

end File

namespace Db

variable {uid : Str}

/-- How the saves use `operator[]` of the file of a uid. -/
def usesOf (uid : Str) (acts : List DbAct) : List (Int × (Str → Str)) :=
  acts.filterMap fun
    | .saveChunk metadata representation =>
      if metadata.uid = uid then some (metadata.cuid, fun _ => representation) else none
    | .loadChunk .. | .loadChunkOf _ | .getNumOfChunks _ => none

/-- A uid has a file if something was saved for it. -/
theorem uidMap_run (uid : Str) (acts : List DbAct) : (run acts).uidMap uid =
    if usesOf uid acts = [] then none else some (File.used (usesOf uid acts)) := by
  induction acts using List.reverseRecOn with
  | nil => rfl
  | append_singleton acts act ih =>
    rw [run_concat, usesOf, List.filterMap_append, ← usesOf]
    cases act with
    | saveChunk metadata representation =>
      rw [step_saveChunk, saveChunk]
      by_cases hu : metadata.uid = uid
      · subst hu
        simp only [Function.update_self, List.filterMap_cons, List.filterMap_nil, if_true,
          List.concat_ne_nil, if_false, File.used_concat, ih]
        split
        · next hnil => rw [hnil]; rfl
        · rfl
      · simp only [Function.update_of_ne (Ne.symm hu), List.filterMap_cons, List.filterMap_nil,
          if_neg hu, List.append_nil, ih]
    | _ =>
      rw [step_lookup (by simp), ih]
      simp

/-- The counter that a client of the database sees. -/
theorem getNumOfChunks_run (uid : Str) (acts : List DbAct) :
    DbM.getNumOfChunks uid (run acts) =
      if usesOf uid acts = [] then .error .inexistentFile (run acts)
      else match (File.used (usesOf uid acts)).numOfChunks with
        | some numOfChunks => .ok numOfChunks (run acts)
        | none => .error .undefined (run acts) := by
  rw [getNumOfChunks_apply, uidMap_run]
  by_cases h : usesOf uid acts = []
  · rw [if_pos h, if_pos h]
  · rw [if_neg h, if_neg h]

end Db

end ColonyFS

import ColonyFS.Fuse.RenameOnto
import ColonyFS.Fuse.Reuse

/-!
# What a removal leaves

`rmdir` purges the attribute of the directory whatever is in it. What is below stays behind without
a directory above it. A removal right after the creation takes both entries back, if it is permitted
to and if there are not more.
-/

namespace ColonyFS

open Paths Function
open Machine

namespace Fs

/-! ## `rmdir` of a directory with entries -/

section

variable {σ : Type} [BinaryArchive Instruction] [BinaryArchive Fattribute.Record]
  {c c' : Fs (Str → Option Str) σ} {d path : Str} {a : Fattribute} {cs ds : List Str} {l : List Str}

/-- An `rmdir` with the result `r` leaves nothing without a directory above it, and does nothing to
a directory with entries. -/
structure NoOrphans (c : Fs (Str → Option Str) σ) (d : Str) (r : Int)
    (c' : Fs (Str → Option Str) σ) : Prop where
  removed : r = 0 → ∀ path, Below d path → attr? Dht.table c' path = none
  refused : c.listed d ≠ [] → r < 0 ∧ ∀ path, attr? Dht.table c' path = attr? Dht.table c path

/-- If each child is listed, nothing is below a directory without entries. -/
theorem ListedOnce.attr?_below (hl : ListedOnce c) (hv : Valid (ds ++ cs))
    (hlist : c.listed (render ds) = []) (hne : cs ≠ []) :
    attr? Dht.table c (render (ds ++ cs)) = none := by
  induction cs using List.reverseRecOn with
  | nil => exact (hne rfl).elim
  | append_singleton cs n ih =>
    rw [← List.append_assoc] at hv ⊢
    obtain ⟨hvs, hn⟩ := valid_concat.mp hv
    cases h : attr? Dht.table c (render (ds ++ cs ++ [n])) with
    | none => rfl
    | some a =>
      obtain ⟨⟨b, hb, _⟩, hcount⟩ := hl _ a h (render_concat_ne hn)
      rw [parentPath_render hn] at hb hcount
      obtain rfl | hcs := eq_or_ne cs []
      · rw [List.append_nil, hlist] at hcount
        cases hcount
      · rw [ih hvs hcs] at hb
        cases hb

/-- A removal leaves the attributes below the path alone. -/
theorem Removed.attr?_below (h : Removed Dht.table c d (c.branchOf d) l c') (H : Known c)
    (ha : c.cached d = some a) (hne : d ≠ ['/']) (hb : Below d path) :
    attr? Dht.table c' path = attr? Dht.table c path := by
  have hp : path ≠ parentPath d := by
    rintro rfl
    exact (H.sound.canonical d a ha).not_below_parentPath hne hb
  rw [(H.removed ha hne h).real.attr?, H.real.attr?, h.cached, update_of_ne hb.ne, update_of_ne hp]

/-- `rmdir` orphans nothing if and only if the directory has no entries and nothing is below it. -/
theorem rmdir_noOrphans_iff (P : Policy ChunkData σ) (process : Process) (now : Timespec) (e : σ)
    (hreach : Reach (step Dht.table P process) (Issued Dht.table) (start now (fun _ => none) e) c)
    (hne : d ≠ ['/']) (hd : Has Dht.table c d Fattribute.IsDir) :
    (∀ r c', rmdir Dht.table d c = .ok r c' → NoOrphans c d r c') ↔
      c.listed d = [] ∧ ∀ path, Below d path → attr? Dht.table c path = none := by
  have H : Known c := .of_reach hreach
  obtain ⟨a, ha, _⟩ := H.real.has_iff.mp hd
  obtain ⟨c', hr, h⟩ :=
    rmdir_spec H.wf Known.puts ((H.sound.canonical d a ha).parentPath_ne hne)
  constructor
  · intro hall
    have hno : NoOrphans c d 0 c' := hall 0 c' hr
    constructor
    · by_contra hlist
      exact absurd (hno.refused hlist).1 (by decide)
    · intro path hb
      rw [← h.attr?_below H ha hne hb]
      exact hno.removed rfl path hb
  · rintro ⟨hlist, hnone⟩ r c₁ hr'
    cases hr.symm.trans hr'
    refine ⟨fun _ path hb => ?_, fun h => (h hlist).elim⟩
    rw [h.attr?_below H ha hne hb]
    exact hnone path hb

end

section

open scoped PlainArchive

/-- A file whose directory is removed is still there. -/
theorem exists_orphan : ∃ c c' : Fs (Str → Option Str) Unit,
    Reach (step Dht.table idle ⟨0, 0⟩) (Issued Dht.table) (start ⟨0, 0⟩ (fun _ => none) ()) c ∧
    Has Dht.table c ['/', 'd'] Fattribute.IsDir ∧ rmdir Dht.table ['/', 'd'] c = .ok 0 c' ∧
    attr? Dht.table c' ['/', 'd'] = none ∧ (attr? Dht.table c' ['/', 'd', '/', 'f']).isSome ∧
    ¬NoOrphans c ['/', 'd'] 0 c' := by
  have h : (run (guarded (step Dht.table idle ⟨0, 0⟩) (Issued Dht.table))
      (start ⟨0, 0⟩ (fun _ => none) ())
      [.mkdir ['/', 'd'] 0o755 ⟨1, 0⟩, .create ['/', 'd', '/', 'f'] 0o644 ⟨2, 0⟩]).map (fun c =>
        (decide (Has Dht.table c ['/', 'd'] Fattribute.IsDir),
          (Exec.result? (rmdir Dht.table ['/', 'd'] c)).map fun (r, c') =>
            (r, attr? Dht.table c' ['/', 'd'],
              (attr? Dht.table c' ['/', 'd', '/', 'f']).isSome))) =
      some (true, some (0, none, true)) := by
    decide +kernel
  obtain ⟨c, hc, h⟩ := Option.map_eq_some_iff.mp h
  simp only [Prod.mk.injEq, decide_eq_true_eq] at h
  obtain ⟨hd, h⟩ := h
  obtain ⟨⟨r, c'⟩, hr, h⟩ := Option.map_eq_some_iff.mp h
  simp only [Prod.mk.injEq] at h
  obtain ⟨rfl, hnone, hf⟩ := h
  refine ⟨c, c', .of_run_guarded _ hc, hd, Exec.eq_ok_of_result? hr, hnone, hf, ?_⟩
  intro hno
  rw [hno.removed rfl ['/', 'd', '/', 'f'] ⟨['f'], rfl⟩] at hf
  cases hf

/-- An empty directory is removed. -/
theorem rmdir_noOrphans_iff_example : ∃ c : Fs (Str → Option Str) Unit,
    Has Dht.table c ['/', 'd'] Fattribute.IsDir ∧
      ∀ r c', rmdir Dht.table ['/', 'd'] c = .ok r c' → NoOrphans c ['/', 'd'] r c' := by
  have h : (run (guarded (step Dht.table idle ⟨0, 0⟩) Adds) (start ⟨0, 0⟩ (fun _ => none) ())
      [.mkdir ['/', 'd'] 0o755 ⟨1, 0⟩]).map (fun c =>
        (decide (Has Dht.table c ['/', 'd'] Fattribute.IsDir),
          decide (c.listed ['/', 'd'] = []))) = some (true, true) := by
    decide +kernel
  obtain ⟨c, hc, h⟩ := Option.map_eq_some_iff.mp h
  simp only [Prod.mk.injEq, decide_eq_true_eq] at h
  obtain ⟨hd, hlist⟩ := h
  have hreach := Reach.of_run_guarded _ hc
  have H : Known c := .of_reach (hreach.mono fun _ _ h => h.1)
  refine ⟨c, hd, (rmdir_noOrphans_iff idle ⟨0, 0⟩ ⟨0, 0⟩ () (hreach.mono fun _ _ h => h.1)
    (by decide) hd).mpr ⟨hlist, ?_⟩⟩
  intro path hb
  by_contra hne
  obtain ⟨a, ha⟩ := Option.ne_none_iff_exists'.mp hne
  rw [H.real.attr?] at ha
  have hv : Valid [['d']] := by decide
  obtain ⟨cs, hcs, hvs, rfl⟩ := (H.sound.canonical path a ha).exists_of_below hv (by decide) hb
  have hl : ListedOnce c := .of_adds hreach
  exact hne (hl.attr?_below (valid_append.mpr ⟨hv, hvs⟩) hlist hcs)

end

/-! ## A removal right after the creation -/

/-- The callbacks that make a node, with their other arguments. -/
inductive Creation where
  | create (mode : UInt32) (now : Timespec)
  | symlink (target : Str) (now : Timespec)
  | mkdir (mode : UInt32) (now : Timespec)

namespace Creation

variable {δ σ : Type} [BinaryArchive Instruction] [BinaryArchive Fattribute.Record]

def run (process : Process) (path : Str) : Creation → FuseM δ σ Int
  | create mode now => Fs.create process path mode now
  | symlink target now => Fs.symlink target path now
  | mkdir mode now => Fs.mkdir process path mode now

/-- The removal of what has been made. -/
def undo (dht : Dht δ) (process : Process) (path : Str) (freed : Int) : Creation → FuseM δ σ Int
  | create .. | symlink .. => unlink dht process path freed
  | mkdir .. => rmdir dht path

/-- The user that the new node belongs to. `symlink` does not set it. -/
def owner (process : Process) : Creation → UInt32
  | create .. | mkdir .. => process.uid
  | symlink .. => 0

/-- The daemon that made the node may remove it. -/
def Permitted (process : Process) : Creation → Prop
  | create .. | mkdir .. => True
  | symlink .. => process.uid = 0

instance (process : Process) : (k : Creation) → Decidable (k.Permitted process)
  | create .. | mkdir .. => inferInstanceAs (Decidable True)
  | symlink .. => inferInstanceAs (Decidable (_ = _))

end Creation

section

variable [BinaryArchive Instruction] [BinaryArchive Fattribute.Record] {process : Process}
  {c c' c₁ c₂ : Fs (Str → Option Str) Net} {path : Str} {a b : Fattribute} {k : Creation}

/-- The directory lists are as they were, and the same paths have an attribute. -/
structure Restored (c c' : Fs (Str → Option Str) Net) : Prop where
  listed : ∀ path, c'.listed path = c.listed path
  isSome : ∀ path, (attr? Dht.table c' path).isSome = (attr? Dht.table c path).isSome

/-- The creation of `path` and its removal return 0, and everything is as it was. -/
def Undone (process : Process) (c : Fs (Str → Option Str) Net) (path : Str) (freed : Int)
    (k : Creation) : Prop :=
  ∃ c₁ c₂, k.run process path c = .ok 0 c₁ ∧
    k.undo Dht.table process path freed c₁ = .ok 0 c₂ ∧ Restored c c₂

omit [BinaryArchive Fattribute.Record] in
theorem Creation.run_placed (process : Process) (k : Creation) (H : c.WF) (Hd : c.dataSink.WF)
    (hne : parentPath path ≠ path) (hp : c.cached path = none)
    (hb : c.cached (parentPath path) = some b) (hv : validatePath (filename path)) :
    ∃ a c₁, k.run process path c = .ok 0 c₁ ∧ Placed c path a b c₁ ∧ Fresh a ∧
      a.stbuf.uid = k.owner process := by
  cases k with
  | create mode now =>
    obtain ⟨c₁, c₂, h₁, h₂, H₂⟩ := edit_placed H hne hp hb fun a => { a with
      stbuf := { a.stbuf with
        mode := S_IFREG ||| mode, nlink := 1, uid := process.uid, gid := process.gid
        blksize := CHUNK_SIZE, mtim := now } }
    have hsink : c₂.dataSink = c.dataSink :=
      congrArg Prod.fst ((edit_data h₂).trans (edit_data h₁))
    obtain ⟨d, hrun, _⟩ : ∃ d, DataSink.write path [] ([] : List Byte).length 0 c₂.data =
        .ok () (d, c₂.chunkservers) ∧ DataSink.Written path [] 0 c₂.dataSink d :=
      DataSink.write_written (hsink.symm ▸ Hd) (Nat.zero_le _) (by decide)
    have hfile : (S_IFREG ||| mode) &&& S_IFMT ≠ S_IFDIR := not_isDir_or (by decide)
    refine ⟨_, { c₂ with dataSink := d }, ?_, ⟨H₂.wf, H₂.dht, H₂.cached⟩, fun h => (hfile h).elim,
      rfl⟩
    rw [run, Fs.create, if_neg (not_not.mpr hv), Exec.bind_of_ok h₁, Exec.bind_of_ok h₂]
    exact Exec.bind_of_ok (onData_ok hrun)
  | symlink target now =>
    obtain ⟨c₁, h₁, H₁⟩ := symlink_placed target now H hne hp hb
    exact ⟨_, c₁, h₁, H₁, fun h => (not_isDir_of_isLnk link_isLnk h).elim, rfl⟩
  | mkdir mode now =>
    obtain ⟨c₁, c₂, h₁, h₂, H₂⟩ := edit_placed H hne hp hb fun a => { a with
      stbuf := { Stat.zero with
        mode := S_IFDIR ||| mode, nlink := 1, uid := process.uid, gid := process.gid
        mtim := now } }
    refine ⟨_, c₂, ?_, H₂, fun _ => ⟨rfl, Nat.one_ne_zero⟩, rfl⟩
    rw [run, Fs.mkdir, if_neg (not_not.mpr hv), Exec.bind_of_ok h₁, Exec.bind_of_ok h₂]
    rfl

theorem Creation.undo_permitted (freed : Int) (H : c.WF) (hne : parentPath path ≠ path)
    (ha : c.cached path = some a) (hv : validatePath (filename path))
    (huid : a.stbuf.uid = k.owner process) (hk : k.Permitted process) :
    ∃ c', k.undo Dht.table process path freed c = .ok 0 c' ∧ Removed Dht.table c path
      (c.branchOf path) ((c.branchOf path).list.filter (· ≠ filename path)) c' := by
  cases k with
  | create mode now =>
    exact unlink_permitted freed H Known.puts ha hv fun h => h.1 huid
  | symlink target now =>
    exact unlink_permitted freed H Known.puts ha hv fun h => h.2 hk
  | mkdir mode now => exact rmdir_spec H Known.puts hne

/-- A symbolic link belongs to root. -/
theorem Creation.undo_refused (freed : Int) (H : c.WF) (ha : c.cached path = some a)
    (hv : validatePath (filename path)) (huid : a.stbuf.uid = k.owner process)
    (hk : ¬k.Permitted process) :
    ∃ c', k.undo Dht.table process path freed c = .ok (-EACCES) c' := by
  cases k with
  | create mode now => exact (hk trivial).elim
  | symlink target now =>
    have huid : a.stbuf.uid = 0 := huid
    obtain ⟨c', h, _⟩ : ∃ c', unlink Dht.table process path freed c = .ok (-EACCES) c' ∧
        Retouched c path c' :=
      unlink_refused freed H ha hv ⟨fun h => hk (h.symm.trans huid), hk⟩
    exact ⟨c', h⟩
  | mkdir mode now => exact (hk trivial).elim

omit [BinaryArchive Fattribute.Record] in
/-- What is left of the creation and the removal of a path. -/
theorem Placed.cached_removed (h₁ : Placed c path a b c₁) (hne : parentPath path ≠ path)
    (hp : c.cached path = none) (h₂ : Removed Dht.table c₁ path (c₁.branchOf path)
      ((c₁.branchOf path).list.filter (· ≠ filename path)) c₂) :
    c₂.cached = update c.cached (parentPath path)
      (some { b with list := b.list.filter (· ≠ filename path) }) := by
  have hbranch : c₁.branchOf path = { b with list := b.list ++ [filename path] } := by
    rw [branchOf, h₁.cached, update_self, Option.getD_some]
  have hlist : (b.list ++ [filename path]).filter (· ≠ filename path) =
      b.list.filter (· ≠ filename path) := by
    simp [List.filter_append]
  have hnone : update c.cached path none = c.cached := by rw [← hp, update_eq_self]
  rw [h₂.cached, hbranch, h₁.cached, update_idem, update_comm hne.symm, update_idem,
    update_comm hne, hnone]
  simp only [hlist]

theorem restored_iff (H : Known c) (H' : Known c') (hb : c.cached (parentPath path) = some b)
    (hc : c'.cached = update c.cached (parentPath path)
      (some { b with list := b.list.filter (· ≠ filename path) })) :
    Restored c c' ↔ filename path ∉ c.listed (parentPath path) := by
  have hpar : c'.cached (parentPath path) =
      some { b with list := b.list.filter (· ≠ filename path) } := by
    rw [hc, update_self]
  constructor
  · intro h
    have hlist := h.listed (parentPath path)
    rw [← hlist, listed_of_cached H' hpar]
    simp
  · intro hnot
    rw [listed_of_cached H hb] at hnot
    have hkeep : b.list.filter (· ≠ filename path) = b.list := by
      rw [List.filter_eq_self]
      intro n hn
      exact decide_eq_true fun h => hnot (h ▸ hn)
    have hsame : c'.cached = c.cached := by
      rw [hc, hkeep, ← hb, update_eq_self]
    refine ⟨fun q => ?_, fun q => ?_⟩
    · rw [listed_eq H', listed_eq H, hsame]
    · rw [H'.real.attr?, H.real.attr?, hsame]

theorem sink_wf_of_reach {now : Timespec} {net : Net}
    (h : Reach (step Dht.table DataOnFlush.policy process) (Issued Dht.table)
      (start now (fun _ => none) net) c) : c.dataSink.WF := by
  refine h.invariant ?_ fun s act s' H _ hs => sink_wf_of_step H hs
  have hsink : (start now (fun _ : Str => (none : Option Str)) net).dataSink = .empty :=
    congrArg Prod.fst (start_data now (fun _ : Str => (none : Option Str)) net)
  rw [hsink]
  exact .empty

/-- The removal undoes the creation if and only if it is permitted and the parent has not listed the
name before. -/
theorem undone_iff (process : Process) (now : Timespec) (net : Net) (freed : Int) (k : Creation)
    (hreach : Reach (step Dht.table DataOnFlush.policy process) (Issued Dht.table)
      (start now (fun _ => none) net) c)
    (hnew : New Dht.table c path) (hleaf : (filename path).length ≤ 255) :
    Undone process c path freed k ↔
      k.Permitted process ∧ filename path ∉ c.listed (parentPath path) := by
  have H : Known c := .of_reach hreach
  obtain ⟨hcan, hroot, hnone, hpar⟩ := id hnew
  obtain ⟨b, hb, _⟩ := H.real.has_iff.mp hpar
  rw [H.real.attr?] at hnone
  have hne : parentPath path ≠ path := hcan.parentPath_ne hroot
  have hv : validatePath (filename path) := decide_eq_true hleaf
  obtain ⟨a, c₁, h₁, H₁, hfresh, huid⟩ := k.run_placed process H.wf
    (sink_wf_of_reach hreach) hne hnone hb hv
  have ha : c₁.cached path = some a := by
    rw [H₁.cached, update_of_ne hne.symm, update_self]
  have hK₁ : Known c₁ := H.added hnew hb (H₁.added hfresh)
  by_cases hk : k.Permitted process
  · obtain ⟨c₂, h₂, H₂⟩ := Creation.undo_permitted freed hK₁.wf hne ha hv huid hk
    have hK₂ : Known c₂ := hK₁.removed ha hroot H₂
    have hiff := restored_iff H hK₂ hb (H₁.cached_removed hne hnone H₂)
    constructor
    · rintro ⟨d₁, d₂, hd₁, hd₂, hr⟩
      cases h₁.symm.trans hd₁
      cases h₂.symm.trans hd₂
      exact ⟨hk, hiff.mp hr⟩
    · rintro ⟨_, hnot⟩
      exact ⟨c₁, c₂, h₁, h₂, hiff.mpr hnot⟩
  · obtain ⟨c₂, h₂⟩ := Creation.undo_refused freed hK₁.wf ha hv huid hk
    constructor
    · rintro ⟨d₁, d₂, hd₁, hd₂, _⟩
      cases h₁.symm.trans hd₁
      cases h₂.symm.trans hd₂
    · rintro ⟨hk', _⟩
      exact (hk hk').elim

end

section

open scoped PlainArchive

/-- A daemon that is not run by root cannot remove the symbolic link it has made. -/
theorem exists_not_undone : ∃ c : Fs (Str → Option Str) Net,
    Reach (step Dht.table DataOnFlush.policy ⟨1000, 1000⟩) (Issued Dht.table)
      (start ⟨0, 0⟩ (fun _ => none) ⟨fun _ => [], 0, fun _ => none, fun _ _ => none⟩) c ∧
    New Dht.table c ['/', 'l'] ∧ (filename ['/', 'l']).length ≤ 255 ∧
    (∃ c₁ c₂, symlink ['t'] ['/', 'l'] ⟨1, 0⟩ c = .ok 0 c₁ ∧
      unlink Dht.table ⟨1000, 1000⟩ ['/', 'l'] 0 c₁ = .ok (-EACCES) c₂) ∧
    ¬Undone ⟨1000, 1000⟩ c ['/', 'l'] 0 (.symlink ['t'] ⟨1, 0⟩) := by
  let c : Fs (Str → Option Str) Net :=
    start ⟨0, 0⟩ (fun _ => none) ⟨fun _ => [], 0, fun _ => none, fun _ _ => none⟩
  have hnew : New Dht.table c ['/', 'l'] := by decide +kernel
  have h : ((Exec.result? (symlink ['t'] ['/', 'l'] ⟨1, 0⟩ c)).bind fun (r, c₁) =>
      (Exec.result? (unlink Dht.table ⟨1000, 1000⟩ ['/', 'l'] 0 c₁)).map fun (r', _) => (r, r')) =
      some (0, -EACCES) := by
    decide +kernel
  obtain ⟨⟨r, c₁⟩, h₁, h⟩ := Option.bind_eq_some_iff.mp h
  obtain ⟨⟨r', c₂⟩, h₂, h⟩ := Option.map_eq_some_iff.mp h
  obtain ⟨rfl, rfl⟩ := Prod.mk.inj h
  have h₁ := Exec.eq_ok_of_result? h₁
  have h₂ := Exec.eq_ok_of_result? h₂
  refine ⟨c, .init, hnew, by decide, ⟨c₁, c₂, h₁, h₂⟩, ?_⟩
  rintro ⟨d₁, d₂, hd₁, hd₂, _⟩
  cases h₁.symm.trans hd₁
  cases h₂.symm.trans hd₂

/-- The same daemon can remove a file. -/
theorem undone_iff_example : ∃ c : Fs (Str → Option Str) Net,
    New Dht.table c ['/', 'f'] ∧ Undone ⟨1000, 1000⟩ c ['/', 'f'] 0 (.create 0o644 ⟨1, 0⟩) := by
  let c : Fs (Str → Option Str) Net :=
    start ⟨0, 0⟩ (fun _ => none) ⟨fun _ => [], 0, fun _ => none, fun _ _ => none⟩
  have hnew : New Dht.table c ['/', 'f'] := by decide +kernel
  have hnot : filename ['/', 'f'] ∉ c.listed (parentPath ['/', 'f']) := by decide +kernel
  exact ⟨c, hnew, (undone_iff ⟨1000, 1000⟩ ⟨0, 0⟩ _ 0 _ .init hnew (by decide)).mpr
    ⟨trivial, hnot⟩⟩

end

end Fs

end ColonyFS

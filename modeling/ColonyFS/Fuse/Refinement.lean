import ColonyFS.Fuse.Attributes

/-!
# The callbacks refine the map of attributes

`Fs.call` is a step of a client with what the callback answers, and `answered` is the answer with
the attributes that the metadata cache holds then. A callback that stays away from the chunks returns if
and only if the machine of `Attributes` does, and with the same answer. The others may stop in the
chunk store, and have the same answer if they return.
-/

namespace ColonyFS

open Paths Function Machine

namespace Fs

variable {δ σ α : Type} [BinaryArchive Instruction]

/-- The answer and the state when a callback has returned. -/
def replied (f : α → Reply) (x : FuseM δ σ α) (c : Fs δ σ) : Option (Reply × Fs δ σ) :=
  match x c with
  | .ok a c => some (f a, c)
  | .error _ _ => none

/-- A callback with its answer. -/
def call [BinaryArchive Fattribute.Record] (dht : Dht δ) (P : Policy ChunkData σ)
    (process : Process) (c : Fs δ σ) : Act → Option (Reply × Fs δ σ)
  | .chmod filename mode => replied .code (chmod process filename mode) c
  | .chown filepath uid gid => replied .code (chown filepath uid gid) c
  | .create filepath mode now => replied .code (create process filepath mode now) c
  | .getattr filepath stat => replied (fun r => .stat r.1 r.2) (getattr dht filepath stat) c
  | .mkdir filepath mode now => replied .code (mkdir process filepath mode now) c
  | .read filepath buffer size offset =>
    replied (fun r => .code r.1) (read dht P filepath buffer size offset) c
  | .readdir filepath => replied (fun r => .names r.1 r.2) (readdir dht filepath) c
  | .readlink linkname buffer size =>
    replied (fun r => .target r.1 r.2) (readlink dht linkname buffer size) c
  | .rename oldpath newpath => replied .code (rename dht oldpath newpath) c
  | .rmdir filepath => replied .code (rmdir dht filepath) c
  | .symlink target link now => replied .code (symlink target link now) c
  | .truncate filepath length => replied .code (truncate P filepath length) c
  | .unlink filepath freed => replied .code (unlink dht process filepath freed) c
  | .utime filepath actime modtime => replied .code (utime filepath actime modtime) c
  | .write filepath buffer size offset => replied .code (write filepath buffer size offset) c
  | .dhtTask filename => replied (fun _ => .code 0) (dhtTask dht P filename) c

variable {dht : Dht δ} {P : Policy ChunkData σ} {process : Process} {c c' : Fs δ σ} {path : Str}
  {a : Fattribute} {reply : Reply}

omit [BinaryArchive Instruction] in
theorem replied_eq_some {f : α → Reply} {x : FuseM δ σ α} :
    replied f x c = some (reply, c') ↔ ∃ r, x c = .ok r c' ∧ f r = reply := by
  rw [replied]
  cases x c <;> simp [and_comm, eq_comm]

omit [BinaryArchive Instruction] in
theorem map_replied {f : α → Reply} {x : FuseM δ σ α} :
    (replied f x c).map (·.2) = after x c := by
  rw [replied, after]
  cases x c <;> rfl

/-- Without its answer, a callback is a step. -/
theorem map_call [BinaryArchive Fattribute.Record] (act : Act) :
    (call dht P process c act).map (·.2) = step dht P process c act := by
  cases act <;> exact map_replied

/-- Only the flush is hidden from the caller. -/
def visible : Act → Bool
  | .dhtTask _ => false
  | _ => true

/-- The answer of a callback that returns, with the attributes that are cached then. -/
def answered (f : α → Reply) (x : FuseM δ σ α) (c : Fs δ σ) : Option (Reply × Attributes) :=
  (replied f x c).map fun q => (q.1, q.2.cached)

theorem answered_ok {f : α → Reply} {x : FuseM δ σ α} {r : α} (h : x c = .ok r c') :
    answered f x c = some (f r, c'.cached) := by
  rw [answered, replied, h]
  rfl

theorem answered_error {f : α → Reply} {x : FuseM δ σ α} {e : Stop} (h : x c = .error e c') :
    answered f x c = none := by
  rw [answered, replied, h]
  rfl

/-! ## Callbacks about one attribute -/

variable {b : Fattribute} {f : Fattribute → Option (Reply × Fattribute)}

theorem onPath_some (ha : c.cached path = some a) (hf : f a = some (reply, b)) :
    Attributes.onPath c.cached path f = some (reply, update c.cached path (some b)) := by
  rw [Attributes.onPath, ha, Option.bind_some, hf]
  rfl

theorem onPath_none (ha : c.cached path = some a) (hf : f a = none) :
    Attributes.onPath c.cached path f = none := by
  rw [Attributes.onPath, ha, Option.bind_some, hf]
  rfl

/-- The attribute is only looked at. -/
theorem onPath_same (ha : c.cached path = some a) (hf : f a = some (reply, a)) :
    Attributes.onPath c.cached path f = some (reply, c.cached) := by
  rw [onPath_some ha hf, ← ha, update_eq_self]

theorem answered_edit (H : c.WF) (ha : c.cached path = some a) {f : Fattribute → Fattribute}
    {r : Int} : answered .code (do edit path f; return r) c =
      Attributes.onPath c.cached path fun a => some (.code r, f a) := by
  obtain ⟨c', h, H'⟩ := edit_spec H path f
  rw [ha, Option.getD_some] at H'
  have hrun : (do edit path f; return r : FuseM δ σ Int) c = .ok r c' := Exec.bind_of_ok h
  rw [answered_ok hrun, H'.cached]
  exact (onPath_some ha rfl).symm

theorem answered_chmod {mode : UInt32} (H : c.WF) (ha : c.cached path = some a) :
    answered .code (chmod process path mode) c =
      Attributes.call process c.cached (.chmod path mode) := by
  obtain ⟨p, c₁, h₁, hp, ha₁, H₁⟩ := metadataAt_hit H ha
  have hrun : chmod process path mode c = _ :=
    (Exec.bind_of_ok h₁).trans (Exec.bind_of_ok (getMapped_ok hp ha₁))
  by_cases hu : a.stbuf.uid = process.uid ∨ process.uid = 0
  · obtain ⟨c₂, h₂, H₂⟩ := modifyMapped_spec H₁.wf hp ha₁
      fun a => { a with stbuf := { a.stbuf with mode := mode } }
    rw [if_pos hu] at hrun
    rw [answered_ok (hrun.trans (Exec.bind_of_ok h₂)), H₂.cached, H₁.cached]
    exact (onPath_some ha (if_pos hu)).symm
  · rw [if_neg hu] at hrun
    rw [answered_ok hrun, H₁.cached]
    exact (onPath_same ha (if_neg hu)).symm

section Lookups

variable [BinaryArchive Fattribute.Record]

theorem answered_getattr {stat : Stat} (ha : c.cached path = some a) :
    answered (fun r => .stat r.1 r.2) (getattr dht path stat) c =
      Attributes.call process c.cached (.getattr path stat) := by
  have hrun : getattr dht path stat c = _ := getattr_eq ha
  by_cases hv : validatePath (filename path)
  · rw [if_neg (not_not.mpr hv)] at hrun
    by_cases hn : a.stbuf.nlink ≠ 0
    · rw [if_pos hn] at hrun
      rw [answered_ok hrun]
      exact (onPath_same ha (by rw [if_neg (not_not.mpr hv), if_pos hn])).symm
    · rw [if_neg hn] at hrun
      rw [answered_error hrun]
      exact (onPath_none ha (by rw [if_neg (not_not.mpr hv), if_neg hn])).symm
  · rw [if_pos hv] at hrun
    rw [answered_ok hrun]
    exact (onPath_same ha (if_pos hv)).symm

theorem answered_readdir (ha : c.cached path = some a) :
    answered (fun r => .names r.1 r.2) (readdir dht path) c =
      Attributes.call process c.cached (.readdir path) := by
  rw [answered_ok (readdir_eq ha)]
  refine Eq.symm (onPath_same ha ?_)
  split <;> rfl

theorem answered_readlink {buffer : Str} {size : Nat} (ha : c.cached path = some a) :
    answered (fun r => .target r.1 r.2) (readlink dht path buffer size) c =
      Attributes.call process c.cached (.readlink path buffer size) := by
  have hrun : readlink dht path buffer size c = _ := bind_metadataOf ha
  by_cases hl : a.IsLnk
  · rw [if_neg (not_not.mpr hl)] at hrun
    cases hlist : a.list with
    | nil =>
      rw [hlist] at hrun
      rw [answered_error hrun]
      exact (onPath_none ha (by simp only [if_neg (not_not.mpr hl), hlist])).symm
    | cons target _ =>
      rw [hlist] at hrun
      let terminated := target ++ [Char.ofNat 0]
      by_cases hle : size ≤ buffer.length ∧ terminated.length ≤ buffer.length
      · rw [answered_ok (hrun.trans (Exec.bind_of_ok (Exec.require_ok hle)))]
        refine Eq.symm (onPath_same ha ?_)
        simp only [if_neg (not_not.mpr hl), hlist]
        exact if_pos hle
      · rw [answered_error (hrun.trans (Exec.bind_of_error (Exec.require_error hle)))]
        refine Eq.symm (onPath_none ha ?_)
        simp only [if_neg (not_not.mpr hl), hlist]
        exact if_neg hle
  · rw [if_pos hl] at hrun
    rw [answered_ok hrun]
    exact (onPath_same ha (if_pos hl)).symm

/-! ### Callbacks that come to the chunks -/

theorem call_of_read {buffer : List Byte} {size offset : Nat} {r : Int × List Byte}
    (ha : c.cached path = some a) (h : read dht P path buffer size offset c = .ok r c') :
    Attributes.call process c.cached (.read path buffer size offset) =
      some (.code r.1, c'.cached) := by
  have hcall : Attributes.call process c.cached (.read path buffer size offset) =
      some (.code (Attributes.available a size offset), c.cached) := onPath_same ha rfl
  rw [read, bind_metadataOf ha] at h
  rw [hcall, Attributes.available]
  by_cases hlen : toSizeT a.stbuf.size < offset
  · rw [if_pos hlen] at h
    cases h
    rw [if_pos hlen]
  · rw [if_neg hlen] at h
    obtain ⟨_, c₁, h₁, h⟩ := Exec.bind_eq_ok.mp h
    obtain ⟨d, e, rfl⟩ := onData_cases h₁
    cases h
    rw [if_neg hlen]
    rfl

end Lookups

theorem call_of_write {buffer : List Byte} {size offset : Nat} {r : Int} (H : c.WF)
    (ha : c.cached path = some a) (h : write path buffer size offset c = .ok r c') :
    Attributes.call process c.cached (.write path buffer size offset) =
      some (.code r, c'.cached) := by
  obtain ⟨_, c₁, h₁, h⟩ := Exec.bind_eq_ok.mp h
  obtain ⟨d, e, rfl⟩ := onData_cases h₁
  have hanswer := answered_ok (f := .code) h
  exact (answered_edit (c := { c with dataSink := d, chunkservers := e }) H ha).symm.trans hanswer

theorem call_of_truncate {c c' : Fs δ Net} {length r : Int} (H : c.WF)
    (ha : c.cached path = some a)
    (h : truncate DataOnFlush.policy path length c = .ok r c') :
    Attributes.call process c.cached (.truncate path length) = some (.code r, c'.cached) := by
  rw [Attributes.call]
  obtain ⟨hlen, rfl, rfl⟩ | ⟨hlen, rfl, hx⟩ := truncate_eq DataOnFlush.policy_noLookupE h
  · exact onPath_same ha (if_pos hlen)
  obtain ⟨p, c₁, h₁, hp, ha₁, H₁⟩ := metadataAt_hit H ha
  rw [Exec.bind_of_ok h₁, Exec.bind_of_ok (getMapped_ok hp ha₁)] at hx
  obtain ⟨_, c₂, h₂, hx⟩ := Exec.bind_eq_ok.mp hx
  obtain ⟨d, e, rfl⟩ := onData_cases h₂
  obtain ⟨c₃, h₃, H₃⟩ := modifyMapped_spec (c := { c₁ with dataSink := d, chunkservers := e })
    H₁.wf hp ha₁ fun a => { a with stbuf := { a.stbuf with size := length } }
  cases h₃.symm.trans hx
  have hc₁ : Fs.cached { c₁ with dataSink := d, chunkservers := e } = c.cached := H₁.cached
  rw [onPath_some ha (if_neg hlen), H₃.cached, hc₁]

/-! ## Callbacks that add or remove a path -/

theorem Placed.cached_eq {b : Fattribute} (H : Placed c path a b c')
    (hne : parentPath path ≠ path) (hb : c.cached (parentPath path) = some b) :
    c'.cached = Attributes.add c.cached path a := by
  rw [H.cached, Attributes.add, Attributes.relist, Attributes.subscript, update_of_ne hne, hb]
  rfl

theorem Removed.cached_eq (H : Removed dht c path (c.branchOf path)
    ((c.branchOf path).list.filter (· ≠ filename path)) c') :
    c'.cached = Attributes.remove c.cached path := H.cached

theorem Renamed.cached_eq {old new : Str} (H : Renamed dht c old new a c')
    (ha : c.cached old = some a) : c'.cached = Attributes.move c.cached old new := by
  rw [H.cached, ← ha]
  rfl

theorem call_of_create {mode : UInt32} {now : Timespec} {r : Int} (H : c.WF)
    (hne : parentPath path ≠ path) (hp : c.cached path = none)
    (hb : c.cached (parentPath path) = some a) (h : create process path mode now c = .ok r c') :
    Attributes.call process c.cached (.create path mode now) = some (.code r, c'.cached) := by
  rw [create] at h
  rw [Attributes.call]
  split at h
  · next hv =>
    cases h
    rw [if_pos hv]
  next hv =>
  obtain ⟨c₁, c₂, h₁, h₂, H₂⟩ := edit_placed H hne hp hb fun a => { a with
    stbuf := { a.stbuf with
      mode := S_IFREG ||| mode, nlink := 1, uid := process.uid, gid := process.gid
      blksize := CHUNK_SIZE, mtim := now } }
  rw [Exec.bind_of_ok h₁, Exec.bind_of_ok h₂] at h
  obtain ⟨_, c₃, h₃, h⟩ := Exec.bind_eq_ok.mp h
  obtain ⟨d, e, rfl⟩ := onData_cases h₃
  cases h
  rw [if_neg hv]
  exact congrArg (fun m => some (Reply.code 0, m)) (H₂.cached_eq hne hb).symm

theorem answered_mkdir {mode : UInt32} {now : Timespec} (H : c.WF) (hne : parentPath path ≠ path)
    (hp : c.cached path = none) (hb : c.cached (parentPath path) = some a) :
    answered .code (mkdir process path mode now) c =
      Attributes.call process c.cached (.mkdir path mode now) := by
  rw [Attributes.call]
  by_cases hv : validatePath (filename path)
  · obtain ⟨c₁, c₂, h₁, h₂, H₂⟩ := edit_placed H hne hp hb fun a => { a with
      stbuf := { Stat.zero with
        mode := S_IFDIR ||| mode, nlink := 1, uid := process.uid, gid := process.gid
        mtim := now } }
    have hrun : mkdir process path mode now c = .ok 0 c₂ := by
      rw [mkdir, if_neg (not_not.mpr hv), Exec.bind_of_ok h₁, Exec.bind_of_ok h₂]
      rfl
    rw [answered_ok hrun, if_neg (not_not.mpr hv)]
    exact congrArg (fun m => some (Reply.code 0, m)) (H₂.cached_eq hne hb)
  · have hrun : mkdir process path mode now c = .ok (-ENAMETOOLONG) c := by
      rw [mkdir, if_pos hv]
      rfl
    rw [answered_ok hrun, if_pos hv]

theorem answered_symlink {target : Str} {now : Timespec} (H : c.WF)
    (hne : parentPath path ≠ path) (hp : c.cached path = none)
    (hb : c.cached (parentPath path) = some a) : answered .code (symlink target path now) c =
      Attributes.call process c.cached (.symlink target path now) := by
  obtain ⟨c', h, H'⟩ := symlink_placed target now H hne hp hb
  rw [answered_ok h, H'.cached_eq hne hb]
  rfl

variable [BinaryArchive Fattribute.Record]

theorem answered_unlink {freed : Int} (H : c.WF) (hput : Puts dht) (ha : c.cached path = some a) :
    answered .code (unlink dht process path freed) c =
      Attributes.call process c.cached (.unlink path freed) := by
  have hsub : Attributes.subscript c.cached path = a := by rw [Attributes.subscript, ha]; rfl
  rw [Attributes.call, hsub]
  by_cases hv : validatePath (filename path)
  · rw [if_neg (not_not.mpr hv)]
    by_cases hperm : a.stbuf.uid ≠ process.uid ∧ process.uid ≠ 0
    · obtain ⟨p, c₁, h₁, hp, ha₁, H₁⟩ := metadataAt_hit H ha
      have h : unlink dht process path freed c = .ok (-EACCES) c₁ := by
        rw [unlink, if_neg (not_not.mpr hv), Exec.bind_of_ok h₁,
          Exec.bind_of_ok (getMapped_ok hp ha₁), if_pos hperm]
        rfl
      rw [if_pos hperm, answered_ok h, H₁.cached]
    · obtain ⟨c', h, H'⟩ := unlink_permitted freed H hput ha hv hperm
      rw [if_neg hperm, answered_ok h, H'.cached_eq]
  · rw [if_pos hv]
    have h : unlink dht process path freed c = .ok (-ENAMETOOLONG) c := by
      rw [unlink, if_pos hv]
      rfl
    exact answered_ok h

theorem answered_rmdir (H : c.WF) (hput : Puts dht) (hne : parentPath path ≠ path) :
    answered .code (rmdir dht path) c = Attributes.call process c.cached (.rmdir path) := by
  obtain ⟨c', h, H'⟩ := rmdir_spec H hput hne
  rw [answered_ok h, H'.cached_eq]
  rfl

theorem answered_rename {old new : Str} (H : c.WF) (hput : Puts dht) (hne : old ≠ new)
    (ha : c.cached old = some a) (h₁ : parentPath old ≠ old) (h₂ : parentPath new ≠ old) :
    answered .code (rename dht old new) c =
      Attributes.call process c.cached (.rename old new) := by
  have hsub : Attributes.subscript c.cached (parentPath old) = c.branchOf old := rfl
  rw [Attributes.call, hsub]
  by_cases hlist : filename old ∈ (c.branchOf old).list
  · obtain ⟨c', h, H'⟩ := rename_spec H hput hne hlist ((relisted_eq h₁ h₂).trans ha)
    rw [if_pos (List.contains_iff_mem.mpr hlist), answered_ok h, H'.cached_eq ha]
  · obtain ⟨c', h⟩ := rename_unlisted dht new H hlist
    rw [if_neg (mt List.contains_iff_mem.mp hlist), answered_error h]

/-! ## Steps and runs -/

variable {c c' : Fs (Str → Option Str) Net} {act : Act}

/-- A callback that comes to the chunks is answered as the machine answers, if it returns. -/
theorem call_of_call (H : Known c) (hi : Issued Dht.table c act) (hv : visible act)
    (hact : ¬act.SparesData)
    (h : call Dht.table DataOnFlush.policy process c act = some (reply, c')) :
    Attributes.call process c.cached act = some (reply, c'.cached) := by
  cases act with
  | create path mode now =>
    obtain ⟨r, hr, rfl⟩ := replied_eq_some.mp h
    obtain ⟨hcan, hne, hnone, hb⟩ := hi
    obtain ⟨b, hb, _⟩ := H.real.has_iff.mp hb
    rw [H.real.attr?] at hnone
    exact call_of_create H.wf (hcan.parentPath_ne hne) hnone hb hr
  | read path buffer size offset =>
    obtain ⟨r, hr, rfl⟩ := replied_eq_some.mp h
    obtain ⟨a, ha, _⟩ := H.real.has_iff.mp hi
    exact call_of_read ha hr
  | truncate path length =>
    obtain ⟨r, hr, rfl⟩ := replied_eq_some.mp h
    obtain ⟨a, ha, _⟩ := H.real.has_iff.mp hi
    exact call_of_truncate H.wf ha hr
  | write path buffer size offset =>
    obtain ⟨r, hr, rfl⟩ := replied_eq_some.mp h
    obtain ⟨a, ha, _⟩ := H.real.has_iff.mp hi
    exact call_of_write H.wf ha hr
  | dhtTask path => cases hv
  | _ => exact (hact trivial).elim

/-- Any other callback is answered if and only if the machine answers. -/
theorem map_call_eq (H : Known c) (hi : Issued Dht.table c act) (hact : act.SparesData) :
    (call Dht.table DataOnFlush.policy process c act).map (fun q => (q.1, q.2.cached)) =
      Attributes.call process c.cached act := by
  have added : ∀ {path}, New Dht.table c path → parentPath path ≠ path ∧ c.cached path = none ∧
      ∃ b, c.cached (parentPath path) = some b := by
    intro path ⟨hcan, hne, hnone, hb⟩
    obtain ⟨b, hb, _⟩ := H.real.has_iff.mp hb
    exact ⟨hcan.parentPath_ne hne, H.real.attr? path ▸ hnone, b, hb⟩
  cases act with
  | chmod path mode =>
    obtain ⟨a, ha, _⟩ := H.real.has_iff.mp hi
    exact answered_chmod H.wf ha
  | chown path uid gid =>
    obtain ⟨a, ha, _⟩ := H.real.has_iff.mp hi
    exact answered_edit H.wf ha
  | utime path actime modtime =>
    obtain ⟨a, ha, _⟩ := H.real.has_iff.mp hi
    exact answered_edit H.wf ha
  | getattr path stat =>
    obtain ⟨a, ha, _⟩ := H.real.has_iff.mp hi
    exact answered_getattr ha
  | readdir path =>
    obtain ⟨a, ha, _⟩ := H.real.has_iff.mp hi
    exact answered_readdir ha
  | readlink path buffer size =>
    obtain ⟨a, ha, _⟩ := H.real.has_iff.mp hi
    exact answered_readlink ha
  | mkdir path mode now =>
    obtain ⟨hne, hnone, b, hb⟩ := added hi.1
    exact answered_mkdir H.wf hne hnone hb
  | symlink target path now =>
    obtain ⟨hne, hnone, b, hb⟩ := added hi
    exact answered_symlink H.wf hne hnone hb
  | unlink path freed =>
    obtain ⟨a, ha, _⟩ := H.real.has_iff.mp hi
    exact answered_unlink H.wf Known.puts ha
  | rmdir path =>
    obtain ⟨hne, ha⟩ := hi
    obtain ⟨a, ha, _⟩ := H.real.has_iff.mp ha
    exact answered_rmdir H.wf Known.puts ((H.sound.canonical path a ha).parentPath_ne hne)
  | rename old new =>
    obtain ⟨hold, ha, hnew, hnew', hb, hne, hbelow⟩ := hi
    obtain ⟨a, ha, _⟩ := H.real.has_iff.mp ha
    have hparent := (H.sound.canonical old a ha).parentPath_ne hold
    refine answered_rename H.wf Known.puts hne ha hparent ?_
    rintro rfl
    exact hbelow (hnew.parentPath_isPrefix hnew' hold)
  | _ => exact hact.elim

theorem Known.call (H : Known c) (hi : Issued Dht.table c act)
    (h : Fs.call Dht.table DataOnFlush.policy process c act = some (reply, c')) : Known c' :=
  H.step hi (by rw [← map_call, h, Option.map_some])

omit [BinaryArchive Fattribute.Record] in
theorem cached_start {now : Timespec} {d : Str → Option Str} {net : Net} :
    (start now d net).cached = Attributes.init now := by
  obtain ⟨c', h, H⟩ := edit_spec (c := empty d net) wf_empty ['/'] fun a => { a with
    stbuf := { a.stbuf with mode := S_IFDIR ||| 0o777, nlink := 1, mtim := now } }
  have hs : start now d net = c' := by
    have h : colonyfsFusexx now (empty d net) = .ok () c' := h
    rw [start, after, h]
    rfl
  have hc : (empty d net).cached = fun _ => none := funext fun _ => cached_empty
  rw [hs, H.cached, hc]
  rfl

theorem trace_attributes {now : Timespec} {net : Net} {l : List (Act × Reply)}
    (h : Trace (call Dht.table DataOnFlush.policy process) (Issued Dht.table)
      (start now (fun _ => none) net) l c) :
    Trace (Attributes.call process) always (Attributes.init now) (seen visible l) c.cached ∧
      Known c := by
  let R : Fs (Str → Option Str) Net → Attributes → Prop := fun c m => Known c ∧ c.cached = m
  have shown : ∀ {s m act r s'}, R s m → Issued Dht.table s act →
      call Dht.table DataOnFlush.policy process s act = some (r, s') → visible act →
      ∃ m', Attributes.call process m act = some (r, m') ∧ R s' m' := by
    rintro s m act r s' ⟨H, rfl⟩ hi hcall hv
    refine ⟨s'.cached, ?_, H.call hi hcall, rfl⟩
    by_cases hact : act.SparesData
    · rw [← map_call_eq H hi hact, hcall, Option.map_some]
    · exact call_of_call H hi hv hact hcall
  have hidden : ∀ {s m act r s'}, R s m → Issued Dht.table s act →
      call Dht.table DataOnFlush.policy process s act = some (r, s') → ¬visible act → R s' m := by
    rintro s m act r s' ⟨H, rfl⟩ hi hcall hv
    refine ⟨H.call hi hcall, ?_⟩
    cases act with
    | dhtTask path =>
      obtain ⟨_, hr, _⟩ := replied_eq_some.mp hcall
      exact (dhtTask_cases H.wf hr).2.1
    | _ => exact (hv rfl).elim
  obtain ⟨m, hm, H, rfl⟩ := h.simulate (R := R) ⟨.init now net, cached_start⟩ shown hidden
  exact ⟨hm, H⟩

/-- A client refines the map of attributes. In every run that the kernel issues, the flushes left
out, the callbacks have the answers of that machine, and the metadata cache has its attributes in
the end; and there, a callback that stays away from the chunks is answered if and only if the
machine answers. -/
theorem refines_attributes (process : Process) (now : Timespec) (net : Net)
    {l : List (Act × Reply)} (h : Trace (call Dht.table DataOnFlush.policy process)
      (Issued Dht.table) (start now (fun _ => none) net) l c) :
    Trace (Attributes.call process) always (Attributes.init now) (seen visible l) c.cached ∧
      ∀ act, Issued Dht.table c act → act.SparesData →
        (call Dht.table DataOnFlush.policy process c act).map (fun q => (q.1, q.2.cached)) =
          Attributes.call process c.cached act := by
  obtain ⟨hspec, H⟩ := trace_attributes h
  exact ⟨hspec, fun act hi hact => map_call_eq H hi hact⟩

/-- Two runs with the same callbacks have the same answers, but for the bytes that `read` copies, and
leave the same attributes, wherever files are flushed in them and whatever the chunk servers hold. -/
theorem same_answers (process : Process) (now : Timespec) (net net' : Net)
    {l l' : List (Act × Reply)} (h : Trace (call Dht.table DataOnFlush.policy process)
      (Issued Dht.table) (start now (fun _ => none) net) l c)
    (h' : Trace (call Dht.table DataOnFlush.policy process) (Issued Dht.table)
      (start now (fun _ => none) net') l' c')
    (hreq : (l.map (·.1)).filter visible = (l'.map (·.1)).filter visible) :
    seen visible l = seen visible l' ∧ c.cached = c'.cached :=
  (trace_attributes h).1.seen_eq (trace_attributes h').1 hreq

end Fs

namespace Fs

open scoped PlainArchive

/-- No chunk server, and nothing stored. -/
def bareNet : Net := ⟨fun _ => [], 0, fun _ => none, fun _ _ => none⟩

/-- A directory is listed with a flush in between and after the file in it is gone. -/
theorem refines_attributes_example : ∃ (l : List (Act × Reply)) (c : Fs (Str → Option Str) Net),
    l.map (·.2) = [.code 0, .code 0, .code 0, .names 0 [['.'], ['.', '.'], ['f']], .code 0] ∧
      Trace (Attributes.call ⟨0, 0⟩) always (Attributes.init ⟨0, 0⟩) (seen visible l) c.cached := by
  have h : (play (call Dht.table DataOnFlush.policy ⟨0, 0⟩) (Issued Dht.table)
      (start ⟨0, 0⟩ (fun _ => none) bareNet)
      [.mkdir ['/', 'd'] 0o755 ⟨1, 0⟩, .create ['/', 'd', '/', 'f'] 0o644 ⟨2, 0⟩,
        .dhtTask ['/', 'd', '/', 'f'], .readdir ['/', 'd'],
        .unlink ['/', 'd', '/', 'f'] 0]).map (fun q => q.1.map (·.2)) =
      some [.code 0, .code 0, .code 0, .names 0 [['.'], ['.', '.'], ['f']], .code 0] := by
    decide +kernel
  obtain ⟨⟨l, c⟩, hplay, hl⟩ := Option.map_eq_some_iff.mp h
  exact ⟨l, c, hl, (refines_attributes ⟨0, 0⟩ ⟨0, 0⟩ bareNet (Trace.of_play hplay).1).1⟩

/-- One client flushes the directory it has made, the other one does not. -/
theorem same_answers_example : ∃ (l l' : List (Act × Reply)) (c c' : Fs (Str → Option Str) Net),
    l.length = 3 ∧ l'.length = 2 ∧ seen visible l = seen visible l' ∧ c.cached = c'.cached := by
  let run (acts : List Act) := play (call Dht.table DataOnFlush.policy ⟨0, 0⟩) (Issued Dht.table)
    (start ⟨0, 0⟩ (fun _ => none) bareNet) acts
  have h : (run [.mkdir ['/', 'd'] 0o755 ⟨1, 0⟩, .dhtTask ['/', 'd'], .readdir ['/', 'd']]).isSome ∧
      (run [.mkdir ['/', 'd'] 0o755 ⟨1, 0⟩, .readdir ['/', 'd']]).isSome := by
    decide +kernel
  obtain ⟨⟨l, c⟩, hl⟩ := Option.isSome_iff_exists.mp h.1
  obtain ⟨⟨l', c'⟩, hl'⟩ := Option.isSome_iff_exists.mp h.2
  obtain ⟨ht, hm⟩ := Trace.of_play hl
  obtain ⟨ht', hm'⟩ := Trace.of_play hl'
  have hsame := same_answers ⟨0, 0⟩ ⟨0, 0⟩ bareNet bareNet ht ht' (by rw [hm, hm']; rfl)
  refine ⟨l, l', c, c', ?_, ?_, hsame⟩
  · rw [← List.length_map (·.1), hm]; rfl
  · rw [← List.length_map (·.1), hm']; rfl

end Fs

end ColonyFS

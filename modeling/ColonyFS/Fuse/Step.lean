import ColonyFS.Fuse.Effects
import ColonyFS.Lib.Machine

/-!
# Runs of a client

One callback after the other, and the task that flushes a file. An exception that leaves a callback
ends the process, so a step that raises one has no next state. `Issued` says which callbacks the
kernel sends: it looks a path up before it hands it to the file system, and does not create what is
there.
-/

namespace ColonyFS

open Paths Function

inductive Act where
  | chmod (filename : Str) (mode : UInt32)
  | chown (filepath : Str) (uid gid : UInt32)
  | create (filepath : Str) (mode : UInt32) (now : Timespec)
  | getattr (filepath : Str) (stat : Stat)
  | mkdir (filepath : Str) (mode : UInt32) (now : Timespec)
  | read (filepath : Str) (buffer : List Byte) (size offset : Nat)
  | readdir (filepath : Str)
  | readlink (linkname buffer : Str) (size : Nat)
  | rename (oldpath newpath : Str)
  | rmdir (filepath : Str)
  | symlink (target link : Str) (now : Timespec)
  | truncate (filepath : Str) (length : Int)
  | unlink (filepath : Str) (freed : Int)
  | utime (filepath : Str) (actime modtime : Int)
  | write (filepath : Str) (buffer : List Byte) (size offset : Nat)
  | dhtTask (filename : Str)

namespace Fs

variable {δ σ α : Type} [BinaryArchive Instruction] [BinaryArchive Fattribute.Record]

/-- The state when a callback has returned. -/
def after (x : FuseM δ σ α) (c : Fs δ σ) : Option (Fs δ σ) :=
  match x c with
  | .ok _ c => some c
  | .error _ _ => none

/-- What the constructor makes of the empty sinks. -/
def start (now : Timespec) (dht : δ) (chunkservers : σ) : Fs δ σ :=
  ((after (colonyfsFusexx now)) (empty dht chunkservers)).getD (empty dht chunkservers)

variable (dht : Dht δ) (P : Policy ChunkData σ) (process : Process)

def step (c : Fs δ σ) : Act → Option (Fs δ σ)
  | .chmod filename mode => after (chmod process filename mode) c
  | .chown filepath uid gid => after (chown filepath uid gid) c
  | .create filepath mode now => after (create process filepath mode now) c
  | .getattr filepath stat => after (getattr dht filepath stat) c
  | .mkdir filepath mode now => after (mkdir process filepath mode now) c
  | .read filepath buffer size offset => after (read dht P filepath buffer size offset) c
  | .readdir filepath => after (readdir dht filepath) c
  | .readlink linkname buffer size => after (readlink dht linkname buffer size) c
  | .rename oldpath newpath => after (rename dht oldpath newpath) c
  | .rmdir filepath => after (rmdir dht filepath) c
  | .symlink target link now => after (symlink target link now) c
  | .truncate filepath length => after (truncate P filepath length) c
  | .unlink filepath freed => after (unlink dht process filepath freed) c
  | .utime filepath actime modtime => after (utime filepath actime modtime) c
  | .write filepath buffer size offset => after (write filepath buffer size offset) c
  | .dhtTask filename => after (dhtTask dht P filename) c

/-- The attribute that `metadata_sink_(path)` would yield, from the cache or the DHT. -/
def attr? (dht : Dht δ) (c : Fs δ σ) (path : Str) : Option Fattribute :=
  match c.cached path with
  | some a => some a
  | none => match MetadataOnFlush.preRead dht (AttributeValue.newPointer path) c.dht with
    | .ok v _ => some v.mapped
    | .error _ _ => none

/-- `path` has an attribute with the property `p`. -/
def Has (c : Fs δ σ) (path : Str) (p : Fattribute → Prop) : Prop := ∃ a ∈ attr? dht c path, p a

instance (c : Fs δ σ) (path : Str) (p : Fattribute → Prop) [DecidablePred p] :
    Decidable (Has dht c path p) := inferInstanceAs (Decidable (∃ a ∈ attr? dht c path, p a))

/-- A path for a new node. -/
def New (c : Fs δ σ) (path : Str) : Prop :=
  Canonical path ∧ path ≠ ['/'] ∧ attr? dht c path = none ∧
    Has dht c (parentPath path) Fattribute.IsDir

instance (c : Fs δ σ) (path : Str) : Decidable (New dht c path) :=
  inferInstanceAs (Decidable (_ ∧ _))

/-- What the kernel has checked when it calls. A `rename` may be onto a path that exists, and a
flush of a path that no longer does. -/
def Issued (c : Fs δ σ) : Act → Prop
  | .create path _ _ | .symlink _ path _ => New dht c path
  | .mkdir path mode _ => New dht c path ∧ (mode &&& S_IFMT = 0 ∨ mode &&& S_IFMT = S_IFDIR)
  | .unlink path _ => Has dht c path fun a => ¬a.IsDir
  | .rmdir path => path ≠ ['/'] ∧ Has dht c path Fattribute.IsDir
  | .rename old new => old ≠ ['/'] ∧ Has dht c old (fun _ => True) ∧ Canonical new ∧ new ≠ ['/'] ∧
      Has dht c (parentPath new) Fattribute.IsDir ∧ old ≠ new ∧ ¬(old ++ ['/']) <+: new
  | .chmod path mode => Has dht c path fun a => mode &&& S_IFMT = a.stbuf.mode &&& S_IFMT
  | .chown path _ _ | .getattr path _ | .read path _ _ _ | .readdir path | .readlink path _ _
  | .truncate path _ | .utime path _ _ | .write path _ _ _ => Has dht c path fun _ => True
  | .dhtTask _ => True

instance (c : Fs δ σ) : (act : Act) → Decidable (Issued dht c act)
  | .create .. | .symlink .. => inferInstanceAs (Decidable (New ..))
  | .mkdir .. | .rmdir .. | .rename .. => inferInstanceAs (Decidable (_ ∧ _))
  | .unlink .. | .chmod .. | .chown .. | .getattr .. | .read .. | .readdir .. | .readlink ..
  | .truncate .. | .utime .. | .write .. => inferInstanceAs (Decidable (Has ..))
  | .dhtTask _ => inferInstanceAs (Decidable True)

variable {dht P process} {c c' : Fs δ σ} {path : Str} {a : Fattribute}

omit [BinaryArchive Instruction] [BinaryArchive Fattribute.Record] in
theorem after_eq_some {x : FuseM δ σ α} : after x c = some c' ↔ ∃ r, x c = .ok r c' := by
  rw [after]
  cases x c <;> simp

omit [BinaryArchive Instruction] [BinaryArchive Fattribute.Record] in
theorem after_ok {x : FuseM δ σ α} {c₁ : Fs δ σ} {r : α} (h : x c = .ok r c₁)
    (ha : after x c = some c') : c' = c₁ := by
  rw [after, h] at ha
  exact (Option.some.inj ha).symm

/-- No attribute is in the DHT only. -/
def Real (dht : Dht δ) (c : Fs δ σ) : Prop :=
  ∀ path, c.cached path = none → attr? dht c path = none

theorem Real.attr? (H : Real dht c) (path : Str) : attr? dht c path = c.cached path := by
  cases h : c.cached path with
  | none => exact H path h
  | some a => simp only [Fs.attr?, h]

theorem Real.has_iff (H : Real dht c) {p : Fattribute → Prop} :
    Has dht c path p ↔ ∃ a, c.cached path = some a ∧ p a := by
  simp only [Has, H.attr?, Option.mem_def]

/-- A look-up that does not find a value in the DHT yields nothing. -/
theorem attr?_eq_none (h : c.cached path = none) (hget : ∀ s value,
      dht.get (slot path) c.dht = .ok value s → value = []) : attr? dht c path = none := by
  simp only [attr?, h]
  cases hg : dht.get (slot path) c.dht with
  | ok value s =>
    cases hget s value hg
    have hp : MetadataOnFlush.getPair dht (AttributeValue.newPointer path) c.dht =
        .error (.raised .archiveException) s := by
      refine (Exec.bind_of_ok hg).trans ?_
      rw [AttributeValue.setValue_nil]; rfl
    simp only [MetadataOnFlush.preRead, hp]
  | error e s =>
    have hp : MetadataOnFlush.getPair dht (AttributeValue.newPointer path) c.dht = .error e s :=
      Exec.bind_of_error hg
    simp only [MetadataOnFlush.preRead, hp]
    split
    · next h => split at h <;> cases h
    · rfl

omit [BinaryArchive Fattribute.Record] in
theorem start_spec (now : Timespec) (d : δ) (e : σ) : (start now d e).WF ∧
    (start now d e).dht = d ∧ ∃ a, a.IsDir ∧ a.list = [] ∧ a.stbuf.nlink ≠ 0 ∧
      (start now d e).cached = update (fun _ => none) ['/'] (some a) := by
  obtain ⟨c', h, H⟩ := edit_spec (c := empty d e) wf_empty ['/'] fun a => { a with
    stbuf := { a.stbuf with mode := S_IFDIR ||| 0o777, nlink := 1, mtim := now } }
  have hs : start now d e = c' := by
    have h : colonyfsFusexx now (empty d e) = .ok () c' := h
    rw [start, after, h]; rfl
  have hc : (empty d e).cached = fun _ => none := funext fun _ => cached_empty
  rw [hc, Option.getD_none] at H
  rw [hs]
  refine ⟨H.wf, H.dht_eq, _, ?_, rfl, Nat.one_ne_zero, H.cached⟩
  show (S_IFDIR ||| 0o777) &&& S_IFMT = S_IFDIR
  decide

/-! ## What a step can do -/

/-- The next states of an act that the kernel issued. -/
inductive Change (dht : Dht δ) (c : Fs δ σ) : Act → Fs δ σ → Prop where
  | same {act : Act} : Change dht c act c
  | retouched {act : Act} {path : Str} {c' : Fs δ σ} :
      Retouched c path c' → Change dht c act c'
  | added {act : Act} {path : Str} {b : Fattribute} {c' : Fs δ σ} :
      New dht c path → c.cached (parentPath path) = some b → b.IsDir →
      Added c path b c' → Change dht c act c'
  | unlinked {path : Str} {freed : Int} {a : Fattribute} {c' : Fs δ σ} :
      c.cached path = some a → ¬a.IsDir →
      Removed dht c path (c.branchOf path) ((c.branchOf path).list.filter (· ≠ filename path)) c' →
      Change dht c (.unlink path freed) c'
  | removed {path : Str} {a : Fattribute} {c' : Fs δ σ} :
      path ≠ ['/'] → c.cached path = some a →
      Removed dht c path (c.branchOf path) ((c.branchOf path).list.filter (· ≠ filename path)) c' →
      Change dht c (.rmdir path) c'
  | renamed {old new : Str} {a b : Fattribute} {c' : Fs δ σ} :
      old ≠ new → c.cached old = some a → Canonical new → new ≠ ['/'] →
      c.cached (parentPath new) = some b → b.IsDir →
      Renamed dht c old new a c' → Change dht c (.rename old new) c'
  | flushed {path : Str} {c' : Fs δ σ} :
      c'.WF → c'.cached = c.cached →
      (c'.dht = c.dht ∨ ∃ a ok, c.cached path = some a ∧
        dht.put (slot path) (BinaryArchive.save a.serialize) c.dht = .ok ok c'.dht) →
      Change dht c (.dhtTask path) c'

omit [BinaryArchive Fattribute.Record] in
/-- The attribute that moves is the one that was there. -/
theorem relisted_eq {old new : Str} (h₁ : parentPath old ≠ old) (h₂ : parentPath new ≠ old) :
    c.relisted old new old = c.cached old := by
  rw [relisted, update_of_ne h₂.symm, unlisted, update_of_ne h₁.symm]

theorem Change.of_added (hreal : Real dht c) {act : Act} (hi : New dht c path)
    (hadd : ∀ b, parentPath path ≠ path → c.cached path = none →
      c.cached (parentPath path) = some b → c' = c ∨ Added c path b c') : Change dht c act c' := by
  obtain ⟨hcan, hne, hnone, hb⟩ := id hi
  obtain ⟨b, hb, hd⟩ := hreal.has_iff.mp hb
  rw [hreal.attr?] at hnone
  obtain rfl | hadd := hadd b (hcan.parentPath_ne hne) hnone hb
  · exact .same
  · exact .added hi hb hd hadd

theorem renamed_of_ok (H : c.WF) (hreal : Real dht c) (hput : Puts dht)
    (hcan : ∀ path a, c.cached path = some a → Canonical path) {old new : Str}
    (hi : Issued dht c (.rename old new)) {r : Int} (h : rename dht old new c = .ok r c') :
    ∃ a b, c.cached old = some a ∧ c.cached (parentPath new) = some b ∧ b.IsDir ∧
      Renamed dht c old new a c' := by
  obtain ⟨hold, ha, hnew, hnew', hb, hne, hbelow⟩ := hi
  obtain ⟨a, ha, _⟩ := hreal.has_iff.mp ha
  obtain ⟨b, hb, hd⟩ := hreal.has_iff.mp hb
  have h₁ : parentPath old ≠ old := (hcan old a ha).parentPath_ne hold
  have h₂ : parentPath new ≠ old := fun h => by
    subst h
    exact hbelow (hnew.parentPath_isPrefix hnew' hold)
  by_cases hlist : filename old ∈ (c.branchOf old).list
  · obtain ⟨c₁, hr, H₁⟩ := rename_spec H hput hne hlist ((relisted_eq h₁ h₂).trans ha)
    cases hr.symm.trans h
    exact ⟨a, b, ha, hb, hd, H₁⟩
  · obtain ⟨c₁, hr⟩ := rename_unlisted dht new H hlist
    cases hr.symm.trans h

theorem step_change (H : c.WF) (hreal : Real dht c) (hput : Puts dht)
    (hcan : ∀ path a, c.cached path = some a → Canonical path) {act : Act}
    (hi : Issued dht c act) (h : step dht P process c act = some c') : Change dht c act c' := by
  cases act with
  | chmod path mode =>
    obtain ⟨a, ha, hm⟩ := hreal.has_iff.mp hi
    obtain ⟨r, c₁, hr, H₁⟩ := chmod_spec H ha hm
    cases after_ok hr h
    exact .retouched H₁
  | chown path uid gid =>
    obtain ⟨a, ha, _⟩ := hreal.has_iff.mp hi
    obtain ⟨c₁, hr, H₁⟩ := chown_spec H ha
    cases after_ok hr h
    exact .retouched H₁
  | utime path actime modtime =>
    obtain ⟨a, ha, _⟩ := hreal.has_iff.mp hi
    obtain ⟨c₁, hr, H₁⟩ := utime_spec H ha
    cases after_ok hr h
    exact .retouched H₁
  | write path buffer size offset =>
    obtain ⟨a, ha, _⟩ := hreal.has_iff.mp hi
    obtain ⟨r, hr⟩ := after_eq_some.mp h
    exact .retouched (write_cases H ha hr)
  | truncate path length =>
    obtain ⟨a, ha, _⟩ := hreal.has_iff.mp hi
    obtain ⟨r, hr⟩ := after_eq_some.mp h
    exact .retouched (truncate_cases H ha hr)
  | read path buffer size offset =>
    obtain ⟨a, ha, _⟩ := hreal.has_iff.mp hi
    obtain ⟨r, hr⟩ := after_eq_some.mp h
    exact .retouched (read_cases H ha hr)
  | getattr path stat =>
    obtain ⟨a, ha, _⟩ := hreal.has_iff.mp hi
    obtain ⟨r, hr⟩ := after_eq_some.mp h
    cases getattr_cases ha hr
    exact .same
  | readdir path =>
    obtain ⟨a, ha, _⟩ := hreal.has_iff.mp hi
    cases after_ok (readdir_eq ha) h
    exact .same
  | readlink path buffer size =>
    obtain ⟨a, ha, _⟩ := hreal.has_iff.mp hi
    obtain ⟨r, hr⟩ := after_eq_some.mp h
    cases readlink_cases ha hr
    exact .same
  | create path mode now =>
    obtain ⟨r, hr⟩ := after_eq_some.mp h
    exact .of_added hreal hi fun b hne hp hb => create_cases H hne hp hb hr
  | mkdir path mode now =>
    obtain ⟨r, hr⟩ := after_eq_some.mp h
    exact .of_added hreal hi.1 fun b hne hp hb => mkdir_cases H hne hp hb hr
  | symlink target path now =>
    apply Change.of_added hreal hi
    intro b hne hp hb
    obtain ⟨c₁, hr, H₁⟩ := symlink_spec H hne hp hb
    cases after_ok hr h
    exact .inr H₁
  | unlink path freed =>
    obtain ⟨a, ha, hd⟩ := hreal.has_iff.mp hi
    obtain ⟨r, c₁, hr, H₁⟩ := unlink_spec process freed H hput ha
    cases after_ok hr h
    obtain ⟨_, H₁⟩ | H₁ := H₁
    · exact .retouched H₁
    · exact .unlinked ha hd H₁
  | rmdir path =>
    obtain ⟨hne, ha⟩ := hi
    obtain ⟨a, ha, hd⟩ := hreal.has_iff.mp ha
    obtain ⟨c₁, hr, H₁⟩ := rmdir_spec H hput ((hcan path a ha).parentPath_ne hne)
    cases after_ok hr h
    exact .removed hne ha H₁
  | rename old new =>
    obtain ⟨r, hr⟩ := after_eq_some.mp h
    obtain ⟨a, b, ha, hb, hd, H₁⟩ := renamed_of_ok H hreal hput hcan hi hr
    obtain ⟨_, _, hnew, hnew', _, hne, _⟩ := hi
    exact .renamed hne ha hnew hnew' hb hd H₁
  | dhtTask path =>
    obtain ⟨_, hr⟩ := after_eq_some.mp h
    obtain ⟨wf, hc, hdht⟩ := dhtTask_cases H hr
    exact .flushed wf hc hdht

/-- A policy for data that never leaves the cache. -/
def idle : Policy ChunkData Unit := ⟨pure, fun _ => pure (), fun _ => pure ()⟩

end Fs

end ColonyFS

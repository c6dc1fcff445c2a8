import ColonyFS.Fuse.Step
import ColonyFS.Lib.Relational

/-!
# Two runs of a callback

What a relation on the states has to respect, statement by statement, so that the callbacks respect
it. `SparingSizes` has the statements on the metadata cache that move no end of a file, `OnAttributes`
all of them; `OnChunks` has those on the chunk store. The runs may ask different DHTs, about the
paths in `U`. An invariant is the case of one run.
-/

namespace ColonyFS

open Exec (Rel Keeps Any)

/-- The acts after which the chunks are as before. -/
def Act.SparesData : Act → Prop
  | .create .. | .read .. | .truncate .. | .write .. | .dhtTask _ => False
  | _ => True

/-- The acts that do not assign to `st_size`. -/
def Act.SparesSizes : Act → Prop
  | .rename .. | .truncate .. | .write .. => False
  | _ => True

/-- The paths under whose keys the DHT is read or written. -/
def Act.asked : Act → List Str
  | .getattr path _ | .read path .. | .readdir path | .readlink path .. | .rename path _
  | .rmdir path | .unlink path _ | .dhtTask path => [path]
  | .chmod .. | .chown .. | .create .. | .mkdir .. | .symlink .. | .truncate .. | .utime ..
  | .write .. => []

/-- The size is as before, or zero. -/
def Fattribute.SparesSize (f : Fattribute → Fattribute) : Prop :=
  ∀ a, (f a).stbuf.size = a.stbuf.size ∨ (f a).stbuf.size = 0

namespace Fs

variable {δ δ' σ α β : Type}

section

variable {R : Fs δ σ → Fs δ' σ → Prop}

theorem rel_catchLookup {S : α → β → Prop} {x h : FuseM δ σ α} {y k : FuseM δ' σ β}
    (hx : Rel R S x y) (hh : Rel R S h k) : Rel R S (catchLookup x h) (catchLookup y k) := by
  intro c d hR
  rw [catchLookup, catchLookup]
  cases hc : x c with
  | ok a c' =>
    obtain ⟨b, d', hd, hS, hR'⟩ := hx.ok hR hc
    rw [hd]
    exact ⟨hS, hR'⟩
  | error e c' =>
    obtain ⟨d', hd, hR'⟩ := hx.error hR hc
    rw [hd]
    by_cases he : e = .raised .lookupE
    · subst he
      exact hh c' d' hR'
    · cases e with
      | raised e =>
        cases e with
        | lookupE => exact (he rfl).elim
        | _ => exact ⟨rfl, hR'⟩
      | _ => exact ⟨rfl, hR'⟩

theorem rel_after {S : α → β → Prop} {x : FuseM δ σ α} {y : FuseM δ' σ β} {c c' : Fs δ σ}
    {d : Fs δ' σ} (h : Rel R S x y) (hR : R c d) (hx : after x c = some c') :
    ∃ d', after y d = some d' ∧ R c' d' := by
  obtain ⟨r, hr⟩ := after_eq_some.mp hx
  obtain ⟨_, d', hd, _, hR'⟩ := h.ok hR hr
  exact ⟨d', after_eq_some.mpr ⟨_, hd⟩, hR'⟩

end

variable [BinaryArchive Instruction] [BinaryArchive Fattribute.Record]

/-- The statements on the attributes that move no end of a file respect `R`. -/
structure SparingSizes (dht : Dht δ) (dht' : Dht δ') (U : Set Str) (R : Fs δ σ → Fs δ' σ → Prop) :
    Prop where
  metadataAt : ∀ path, Rel R Eq (metadataAt path) (metadataAt path)
  getMapped : ∀ p, Rel R Eq (getMapped p) (getMapped p)
  spare : ∀ p {f}, Fattribute.SparesSize f → Rel R Eq (modifyMapped p f) (modifyMapped p f)
  metadataOf : ∀ path ∈ U, Rel R Eq (metadataOf dht path) (metadataOf dht' path)
  purgeMetadata : ∀ path ∈ U, Rel R Eq (purgeMetadata dht path) (purgeMetadata dht' path)

/-- The statements on the attributes respect `R`. -/
structure OnAttributes (dht : Dht δ) (dht' : Dht δ') (U : Set Str) (R : Fs δ σ → Fs δ' σ → Prop) :
    Prop extends SparingSizes dht dht' U R where
  modifyMapped : ∀ p f, Rel R Eq (modifyMapped p f) (modifyMapped p f)

variable {dht : Dht δ} {dht' : Dht δ'} {U : Set Str} {P : Policy ChunkData σ} {process : Process}
  {R : Fs δ σ → Fs δ' σ → Prop} {path old new : Str} {mode uid gid : UInt32} {now : Timespec}
  {freed freed' : Int}

namespace SparingSizes

variable (H : SparingSizes dht dht' U R)

include H

theorem modify (p : Ptr) {f : Fattribute → Fattribute}
    (hf : Fattribute.SparesSize f := by exact fun _ => .inl rfl) :
    Rel R Eq (Fs.modifyMapped p f) (Fs.modifyMapped p f) := H.spare p hf

theorem edit (path : Str) {f : Fattribute → Fattribute}
    (hf : Fattribute.SparesSize f := by exact fun _ => .inl rfl) :
    Rel R Eq (Fs.edit path f) (Fs.edit path f) :=
  (H.metadataAt path).bind_eq fun p => H.spare p hf

/-- Statements on the attribute that a look-up yields. -/
theorem lookup {S : α → β → Prop} {k : Fattribute → FuseM δ σ α} {k' : Fattribute → FuseM δ' σ β}
    (hp : path ∈ U) (hk : ∀ a, Rel R S (k a) (k' a)) :
    Rel R S (Fs.metadataOf dht path >>= fun p => Fs.getMapped p >>= k)
      (Fs.metadataOf dht' path >>= fun p => Fs.getMapped p >>= k') :=
  (H.metadataOf path hp).bind_eq fun p => (H.getMapped p).bind_eq hk

theorem chmod : Rel R Eq (chmod process path mode) (chmod process path mode) := by
  refine (H.metadataAt _).bind_eq fun p => (H.getMapped p).bind_eq fun a => ?_
  split
  · exact (H.modify _).bind_eq fun _ => .pure rfl
  · exact .pure rfl

theorem chown : Rel R Eq (chown path uid gid) (chown path uid gid) :=
  (H.edit _).bind_eq fun _ => .pure rfl

theorem getattr {stat : Stat} (hp : path ∈ U) :
    Rel R Eq (getattr dht path stat) (getattr dht' path stat) := by
  rw [Fs.getattr, Fs.getattr]
  split
  · exact .pure rfl
  · exact rel_catchLookup
      (H.lookup hp fun _ => (Rel.require .rfl _).bind_eq fun _ => .pure rfl) (.pure rfl)

theorem mkdir : Rel R Eq (mkdir process path mode now) (mkdir process path mode now) := by
  rw [Fs.mkdir, Fs.mkdir]
  split
  · exact .pure rfl
  · exact (H.edit _ (by exact fun _ => .inr rfl)).bind_eq fun _ =>
      (H.edit _).bind_eq fun _ => .pure rfl

theorem readdir (hp : path ∈ U) : Rel R Eq (readdir dht path) (readdir dht' path) := by
  refine rel_catchLookup (H.lookup hp fun a => ?_) (.pure rfl)
  split <;> exact .pure rfl

theorem readlink {buffer : Str} {size : Nat} (hp : path ∈ U) :
    Rel R Eq (readlink dht path buffer size) (readlink dht' path buffer size) := by
  refine H.lookup hp fun a => ?_
  split
  · exact .pure rfl
  · cases a.list with
    | nil => exact .throw _
    | cons target _ => exact (Rel.require .rfl _).bind_eq fun _ => .pure rfl

theorem rmdir (hp : path ∈ U) : Rel R Eq (rmdir dht path) (rmdir dht' path) :=
  (H.purgeMetadata _ hp).bind_eq fun _ =>
    rel_catchLookup ((H.edit _).bind_eq fun _ => .pure rfl) (.pure rfl)

theorem symlink {target : Str} : Rel R Eq (symlink target path now) (symlink target path now) :=
  (H.edit _).bind_eq fun _ =>
    (H.edit _).bind_eq fun _ => .pure rfl

/-- The chunks of a file that is deleted stay where they are, whatever its size is taken for. -/
theorem unlink (hp : path ∈ U) :
    Rel R Eq (unlink dht process path freed) (unlink dht' process path freed') := by
  have hdata : Rel R Eq (onData (DataSink.erase path (toSizeT freed)) : FuseM δ σ Unit)
      (onData (DataSink.erase path (toSizeT freed')) : FuseM δ' σ Unit) :=
    fun _ _ hR => ⟨rfl, hR⟩
  rw [Fs.unlink, Fs.unlink]
  split
  · exact .pure rfl
  refine (H.metadataAt _).bind_eq fun _ => (H.getMapped _).bind_eq fun _ => ?_
  split
  · exact .pure rfl
  · exact (H.edit _).bind_eq fun _ => (H.purgeMetadata _ hp).bind_eq fun _ =>
      hdata.bind_eq fun _ => .pure rfl

theorem utime {actime modtime : Int} :
    Rel R Eq (utime path actime modtime) (utime path actime modtime) :=
  (H.edit _).bind_eq fun _ => .pure rfl

/-- The same step on the attributes in the second run. -/
theorem step {c c' : Fs δ σ} {d : Fs δ' σ} {act : Act} (hdata : act.SparesData)
    (hsize : act.SparesSizes) (hU : ∀ q ∈ act.asked, q ∈ U) (hR : R c d)
    (hs : step dht P process c act = some c') :
    ∃ d', Fs.step dht' P process d act = some d' ∧ R c' d' := by
  cases act with
  | chmod path mode => exact rel_after H.chmod hR hs
  | chown path uid gid => exact rel_after H.chown hR hs
  | getattr path stat => exact rel_after (H.getattr (hU path List.mem_cons_self)) hR hs
  | mkdir path mode now => exact rel_after H.mkdir hR hs
  | readdir path => exact rel_after (H.readdir (hU path List.mem_cons_self)) hR hs
  | readlink path buffer size => exact rel_after (H.readlink (hU path List.mem_cons_self)) hR hs
  | rmdir path => exact rel_after (H.rmdir (hU path List.mem_cons_self)) hR hs
  | symlink target path now => exact rel_after H.symlink hR hs
  | unlink path freed => exact rel_after (H.unlink (hU path List.mem_cons_self)) hR hs
  | utime path actime modtime => exact rel_after H.utime hR hs
  | rename old new => exact hsize.elim
  | create path mode now => exact hdata.elim
  | read path buffer size offset => exact hdata.elim
  | truncate path length => exact hdata.elim
  | write path buffer size offset => exact hdata.elim
  | dhtTask path => exact hdata.elim

end SparingSizes

namespace OnAttributes

variable (H : OnAttributes dht dht' U R)

include H

/-- The chunks of a file that is renamed stay where they are, too. -/
theorem rename (hp : old ∈ U) : Rel R Eq (rename dht old new) (rename dht' old new) := by
  have hdata : ∀ n, Rel R Eq (onData (DataSink.rename old new n) : FuseM δ σ Unit)
      (onData (DataSink.rename old new n) : FuseM δ' σ Unit) := fun _ _ _ hR => ⟨rfl, hR⟩
  refine (H.metadataAt _).bind_eq fun _ => (H.getMapped _).bind_eq fun _ => ?_
  refine (Rel.require .rfl _).bind_eq fun _ => (H.modifyMapped _ _).bind_eq fun _ => ?_
  refine (H.edit _).bind_eq fun _ => (H.metadataOf _ hp).bind_eq fun _ => ?_
  refine (H.metadataAt _).bind_eq fun _ => (H.getMapped _).bind_eq fun _ => ?_
  refine (H.modifyMapped _ _).bind_eq fun _ => (H.purgeMetadata _ hp).bind_eq fun _ => ?_
  exact (H.getMapped _).bind_eq fun _ => (hdata _).bind_eq fun _ => .pure rfl

theorem write {buffer buffer' : List Byte} {size offset : Nat}
    (hw : Rel R Eq (onData (DataSink.write path buffer size offset))
      (onData (DataSink.write path buffer' size offset))) :
    Rel R Eq (write path buffer size offset) (write path buffer' size offset) :=
  hw.bind_eq fun _ => Rel.bind_eq ((H.metadataAt _).bind_eq fun _ => H.modifyMapped _ _) fun _ =>
    .pure rfl

theorem step {c c' : Fs δ σ} {d : Fs δ' σ} {act : Act} (hdata : act.SparesData)
    (hU : ∀ q ∈ act.asked, q ∈ U) (hR : R c d) (hs : step dht P process c act = some c') :
    ∃ d', Fs.step dht' P process d act = some d' ∧ R c' d' := by
  cases act with
  | rename old new => exact rel_after (H.rename (hU old List.mem_cons_self)) hR hs
  | truncate path length => exact hdata.elim
  | write path buffer size offset => exact hdata.elim
  | _ => exact H.toSparingSizes.step hdata trivial hU hR hs

end OnAttributes

/-- The statements on the chunks respect `R`. -/
structure OnChunks (P : Policy ChunkData σ) (R : Fs δ σ → Fs δ' σ → Prop) : Prop where
  write : ∀ path buffer size offset, Rel R Eq (onData (DataSink.write path buffer size offset))
    (onData (DataSink.write path buffer size offset))
  read : ∀ path buffer size offset, Rel R Any (onData (DataSink.read P path buffer size offset))
    (onData (DataSink.read P path buffer size offset))
  truncate : ∀ path n m, Rel R Eq (onData (DataSink.truncate P path n m))
    (onData (DataSink.truncate P path n m))
  invalidate : ∀ path, Rel R Eq (onData (DataSink.invalidate P path))
    (onData (DataSink.invalidate P path))
  purge : ∀ path, Rel R Eq (onData (DataSink.purge P path)) (onData (DataSink.purge P path))

/-- A flush of the attribute of a path in `U` respects `R`. -/
def OnFlushes (dht : Dht δ) (dht' : Dht δ') (U : Set Str) (R : Fs δ σ → Fs δ' σ → Prop) : Prop :=
  ∀ path ∈ U, Rel R Eq (onMetadata (Cache.invalidate (MetadataOnFlush.policy dht) path))
    (onMetadata (Cache.invalidate (MetadataOnFlush.policy dht') path))

namespace OnChunks

variable (H : OnChunks P R)

include H

theorem create (A : SparingSizes dht dht' U R) :
    Rel R Eq (create process path mode now) (create process path mode now) := by
  rw [Fs.create, Fs.create]
  split
  · exact .pure rfl
  · exact (A.edit _).bind_eq fun _ =>
      (A.edit _).bind_eq fun _ =>
        (H.write _ _ _ _).bind_eq fun _ => .pure rfl

/-- What a read returns, but for the bytes that it copies. -/
theorem rel_read (A : SparingSizes dht dht' U R) (hp : path ∈ U) {buffer : List Byte}
    {size offset : Nat} : Rel R (fun r r' => r.1 = r'.1) (Fs.read dht P path buffer size offset)
      (Fs.read dht' P path buffer size offset) := by
  refine A.lookup hp fun a => ?_
  dsimp only
  split
  · exact .pure rfl
  · exact (H.read _ _ _ _).bind fun _ _ _ => .pure rfl

theorem rel_truncate (A : OnAttributes dht dht' U R) {length : Int} :
    Rel R Eq (Fs.truncate P path length) (Fs.truncate P path length) := by
  refine rel_catchLookup ?_ (.pure rfl)
  split
  · exact .pure rfl
  · exact (A.metadataAt _).bind_eq fun _ => (A.getMapped _).bind_eq fun _ =>
      (H.truncate _ _ _).bind_eq fun _ => (A.modifyMapped _ _).bind_eq fun _ => .pure rfl

theorem dhtTask (hflush : OnFlushes dht dht' U R) (hp : path ∈ U) :
    Rel R Eq (dhtTask dht P path) (dhtTask dht' P path) :=
  (hflush _ hp).bind_eq fun _ => (H.invalidate _).bind_eq fun _ => H.purge _

/-- The same step in the second run, if it moves no end of a file. -/
theorem step {c c' : Fs δ σ} {d : Fs δ' σ} {act : Act} (A : SparingSizes dht dht' U R)
    (hflush : OnFlushes dht dht' U R) (hsize : act.SparesSizes) (hU : ∀ q ∈ act.asked, q ∈ U)
    (hR : R c d) (hs : step dht P process c act = some c') :
    ∃ d', Fs.step dht' P process d act = some d' ∧ R c' d' := by
  by_cases hdata : act.SparesData
  · exact A.step hdata hsize hU hR hs
  cases act with
  | create path mode now => exact rel_after (H.create A) hR hs
  | read path buffer size offset =>
    exact rel_after (H.rel_read A (hU path List.mem_cons_self)) hR hs
  | dhtTask path => exact rel_after (H.dhtTask hflush (hU path List.mem_cons_self)) hR hs
  | truncate path length => exact hsize.elim
  | write path buffer size offset => exact hsize.elim
  | _ => exact (hdata trivial).elim

end OnChunks

/-- The same step in the second run. -/
theorem OnAttributes.step_all {c c' : Fs δ σ} {d : Fs δ' σ} {act : Act}
    (A : OnAttributes dht dht' U R) (H : OnChunks P R) (hflush : OnFlushes dht dht' U R)
    (hU : ∀ q ∈ act.asked, q ∈ U) (hR : R c d) (hs : Fs.step dht P process c act = some c') :
    ∃ d', Fs.step dht' P process d act = some d' ∧ R c' d' := by
  cases act with
  | write path buffer size offset => exact rel_after (A.write (H.write _ _ _ _)) hR hs
  | rename old new => exact rel_after (A.rename (hU old List.mem_cons_self)) hR hs
  | truncate path length => exact rel_after (H.rel_truncate A) hR hs
  | _ => exact H.step A.toSparingSizes hflush trivial hU hR hs

end Fs

end ColonyFS

import ColonyFS.Api.Aggregator
import ColonyFS.Cache.MetadataOnFlush
import ColonyFS.Fuse.Path

/-!
# The callbacks (`fuse/colonyfs_fusexx.cpp`)

A callback works on the two static sinks of the class and, through their policies, on the DHT and
the chunk servers. What the process asks its environment for is passed to it: the user of the
daemon, the time that `clock_gettime` reads. Output parameters are returned next to the result.
`open`, `access` and the other callbacks that only write a log entry are left out.
-/

namespace ColonyFS

open Paths

/-- The static members of `colonyfs_fusexx`, with what their policies act on. -/
structure Fs (δ σ : Type) where
  metadataSink : Cache Str AttributeValue
  dataSink : DataSink
  dht : δ
  chunkservers : σ

/-- What `getuid` and `getgid` return. -/
structure Process where
  uid : UInt32
  gid : UInt32

abbrev FuseM (δ σ : Type) := EStateM Stop (Fs δ σ)

def EACCES : Int := 13

def ENODEV : Int := 19

def ENOENT : Int := 2

def ENOTDIR : Int := 20

def EINVAL : Int := 22

def ENAMETOOLONG : Int := 36

/-- The conversion of an `off_t` to `size_t`. -/
def toSizeT (x : Int) : Nat := (x % 2 ^ 64).toNat

namespace Fs

variable {δ σ α : Type} [BinaryArchive Instruction] [BinaryArchive Fattribute.Record]

/-- Both sinks empty. -/
def empty (dht : δ) (chunkservers : σ) : Fs δ σ := ⟨.empty, .empty, dht, chunkservers⟩

def onMetadata : CacheM Str AttributeValue δ α → FuseM δ σ α :=
  Exec.zoom (fun c => (c.metadataSink, c.dht)) fun s c =>
    { c with metadataSink := s.1, dht := s.2 }

def onData : DataM σ α → FuseM δ σ α :=
  Exec.zoom (fun c => (c.dataSink, c.chunkservers)) fun s c =>
    { c with dataSink := s.1, chunkservers := s.2 }

/-- `metadata_sink_[path]`. -/
def metadataAt (path : Str) : FuseM δ σ Ptr :=
  onMetadata (modifyGet fun (m, dht) =>
    let (p, m) := m.subscript path
    (p, m, dht))

/-- `pair->get_mapped()`. -/
def getMapped (pair : Ptr) : FuseM δ σ Fattribute := do
  return (← onMetadata (Cache.deref pair)).mapped

/-- Assignments to members of `pair->get_mapped()`. -/
def modifyMapped (pair : Ptr) (f : Fattribute → Fattribute) : FuseM δ σ Unit := do
  let value ← onMetadata (Cache.deref pair)
  onMetadata (Cache.assign pair { value with mapped := f value.mapped })

/-- `metadata_sink_[path]`, and assignments to members of its attribute. -/
def edit (path : Str) (f : Fattribute → Fattribute) : FuseM δ σ Unit := do
  let pair ← metadataAt path
  modifyMapped pair f

/-- `try { x } catch (lookup_e&) { handler }`. -/
def catchLookup (x handler : FuseM δ σ α) : FuseM δ σ α := fun c =>
  match x c with
  | .error (.raised .lookupE) c => handler c
  | r => r

section Callbacks

variable (dht : Dht δ) (P : Policy ChunkData σ) (process : Process)

/-- `metadata_sink_(path)`. -/
def metadataOf (path : Str) : FuseM δ σ Ptr :=
  onMetadata (Cache.call (MetadataOnFlush.policy dht) path)

/-- `metadata_sink_.purge(path)`. -/
def purgeMetadata (path : Str) : FuseM δ σ Unit :=
  onMetadata (Cache.purge (MetadataOnFlush.policy dht) path)

/-- The constructor. -/
def colonyfsFusexx (now : Timespec) : FuseM δ σ Unit :=
  edit ['/'] fun a => { a with
    stbuf := { a.stbuf with mode := S_IFDIR ||| 0o777, nlink := 1, mtim := now } }

def validatePath (path : Str) : Bool := path.length ≤ 255

def chmod (filename : Str) (mode : UInt32) : FuseM δ σ Int := do
  let pair ← metadataAt filename
  let attr ← getMapped pair
  if attr.stbuf.uid = process.uid ∨ process.uid = 0 then
    modifyMapped pair fun a => { a with stbuf := { a.stbuf with mode := mode } }
    return 0
  else
    return -EACCES

def chown (filepath : Str) (uid gid : UInt32) : FuseM δ σ Int := do
  edit filepath fun a => { a with stbuf := { a.stbuf with uid := uid, gid := gid } }
  return 0

def create (filepath : Str) (mode : UInt32) (now : Timespec) : FuseM δ σ Int := do
  let branch := parentPath filepath
  let leaf := filename filepath
  if ¬validatePath leaf then return -ENAMETOOLONG
  edit filepath fun a => { a with
    stbuf := { a.stbuf with
      mode := S_IFREG ||| mode, nlink := 1, uid := process.uid, gid := process.gid
      blksize := CHUNK_SIZE, mtim := now } }
  edit branch fun a => { a with list := a.list ++ [leaf] }
  onData (DataSink.write filepath [] 0 0)
  return 0

def getattr (filepath : Str) (stat : Stat) : FuseM δ σ (Int × Stat) := do
  if ¬validatePath (filename filepath) then return (-ENAMETOOLONG, stat)
  catchLookup
    (do
      let pair ← metadataOf dht filepath
      let attr ← getMapped pair
      Exec.require (attr.stbuf.nlink ≠ 0) .assertion
      return (0, attr.stbuf))
    (return (-ENOENT, stat))

def mkdir (filepath : Str) (mode : UInt32) (now : Timespec) : FuseM δ σ Int := do
  let branch := parentPath filepath
  let leaf := filename filepath
  if ¬validatePath leaf then return -ENAMETOOLONG
  edit filepath fun a => { a with
    stbuf := { Stat.zero with
      mode := S_IFDIR ||| mode, nlink := 1, uid := process.uid, gid := process.gid, mtim := now } }
  edit branch fun a => { a with list := a.list ++ [leaf] }
  return 0

def read (filepath : Str) (buffer : List Byte) (size offset : Nat) :
    FuseM δ σ (Int × List Byte) := do
  let pair ← metadataOf dht filepath
  let attr ← getMapped pair
  let length := toSizeT attr.stbuf.size
  if length < offset then return (0, buffer)
  let size := if length < (offset + size) % 2 ^ 64 then length - offset else size
  let buffer ← onData (DataSink.read P filepath buffer size offset)
  return (toInt size, buffer)

/-- The names are those `filler` is called with. -/
def readdir (filepath : Str) : FuseM δ σ (Int × List Str) :=
  catchLookup
    (do
      let pair ← metadataOf dht filepath
      let attr ← getMapped pair
      if ¬attr.IsDir then return (-ENOTDIR, [])
      return (0, ['.'] :: ['.', '.'] :: attr.list))
    (return (-ENOENT, []))

/-- The target goes into the buffer with its terminator, whatever `size` is. -/
def readlink (linkname : Str) (buffer : Str) (size : Nat) : FuseM δ σ (Int × Str) := do
  let pair ← metadataOf dht linkname
  let attr ← getMapped pair
  if ¬attr.IsLnk then return (-EINVAL, buffer)
  match attr.list with
  | [] => throw .undefined
  | targetpath :: _ =>
    let terminated := targetpath ++ [Char.ofNat 0]
    Exec.require (size ≤ buffer.length ∧ terminated.length ≤ buffer.length) .undefined
    return (0, Vec.memcpy (Vec.memcpy buffer 0 (List.replicate size (Char.ofNat 0))) 0 terminated)

/-- `list.erase` gets the end of the list if `std::find` finds nothing. -/
def rename (oldpath newpath : Str) : FuseM δ σ Int := do
  let oldbranch := parentPath oldpath
  let oldleaf := filename oldpath
  let newbranch := parentPath newpath
  let newleaf := filename newpath
  let oldbranchPair ← metadataAt oldbranch
  let oldbranchAttr ← getMapped oldbranchPair
  Exec.require (oldleaf ∈ oldbranchAttr.list) .undefined
  modifyMapped oldbranchPair fun a => { a with list := a.list.erase oldleaf }
  edit newbranch fun a => { a with list := a.list ++ [newleaf] }
  let oldfullPair ← metadataOf dht oldpath
  let newfullPair ← metadataAt newpath
  let attr ← getMapped oldfullPair
  modifyMapped newfullPair fun _ => attr
  purgeMetadata dht oldpath
  let attr ← getMapped newfullPair
  onData (DataSink.rename oldpath newpath (toSizeT attr.stbuf.size))
  return 0

def rmdir (filepath : Str) : FuseM δ σ Int := do
  let branch := parentPath filepath
  let leaf := filename filepath
  purgeMetadata dht filepath
  catchLookup
    (do
      edit branch fun a => { a with list := a.list.filter (· ≠ leaf) }
      return 0)
    (return -ENODEV)

def symlink (target link : Str) (now : Timespec) : FuseM δ σ Int := do
  let branch := parentPath link
  let leaf := filename link
  edit link fun a =>
    { list := a.list ++ [target]
      stbuf := { a.stbuf with mode := S_IFLNK ||| 0o777, mtim := now } }
  edit branch fun a => { a with list := a.list ++ [leaf] }
  return 0

def truncate (filepath : Str) (length : Int) : FuseM δ σ Int :=
  catchLookup
    (do
      if length < 0 then return -EINVAL
      let pair ← metadataAt filepath
      let attr ← getMapped pair
      onData (DataSink.truncate P filepath (toSizeT length) (toSizeT attr.stbuf.size))
      modifyMapped pair fun a => { a with stbuf := { a.stbuf with size := length } }
      return 0)
    (return -ENODEV)

/-- `freed` is the size that is read from the attribute after `purge` has freed it. -/
def unlink (filepath : Str) (freed : Int) : FuseM δ σ Int := do
  let branch := parentPath filepath
  let leaf := filename filepath
  if ¬validatePath leaf then return -ENAMETOOLONG
  let pair ← metadataAt filepath
  let attr ← getMapped pair
  if attr.stbuf.uid ≠ process.uid ∧ process.uid ≠ 0 then return -EACCES
  edit branch fun a => { a with list := a.list.filter (· ≠ leaf) }
  purgeMetadata dht filepath
  onData (DataSink.erase filepath (toSizeT freed))
  return 0

def utime (filepath : Str) (actime modtime : Int) : FuseM δ σ Int := do
  edit filepath fun a => { a with
    stbuf := { a.stbuf with
      atim := { a.stbuf.atim with sec := actime }, mtim := { a.stbuf.mtim with sec := modtime } } }
  return 0

def write (filepath : Str) (buffer : List Byte) (size offset : Nat) : FuseM δ σ Int := do
  onData (DataSink.write filepath buffer size offset)
  let endPointer := toInt (offset + size)
  edit filepath fun a =>
    if a.stbuf.size < endPointer then { a with stbuf := { a.stbuf with size := endPointer } } else a
  return toInt size

/-- `dht_task::execute`, without the permit. -/
def dhtTask (filename : Str) : FuseM δ σ Unit := do
  onMetadata (Cache.invalidate (MetadataOnFlush.policy dht) filename)
  onData (DataSink.invalidate P filename)
  onData (DataSink.purge P filename)

end Callbacks

end Fs

end ColonyFS

import ColonyFS.Fuse.DataCalls
import ColonyFS.Fuse.RenameTree
import ColonyFS.Lib.Answers

/-!
# The file system as a map of attributes

What the callbacks are for, apart from the bytes of the files: `Attributes` maps a path to its
attribute, and `Attributes.call` says how a callback is answered and what the attributes are then.
There are no cache, no addresses, no dirty marks and no DHT in it. A client does what this machine
does, callback by callback, whatever is flushed in between.
-/

namespace ColonyFS

open Paths Function

/-- What a callback answers, but for the bytes that `read` copies. -/
inductive Reply where
  | code (r : Int)
  | stat (r : Int) (stat : Stat)
  | names (r : Int) (names : List Str)
  | target (r : Int) (buffer : Str)
  deriving DecidableEq, Repr

/-- The attribute at each path. -/
abbrev Attributes := Str → Option Fattribute

namespace Attributes

variable (process : Process) (m : Attributes)

/-- A request about a path that has an attribute. -/
def onPath (path : Str) (f : Fattribute → Option (Reply × Fattribute)) :
    Option (Reply × Attributes) :=
  (m path).bind fun a => (f a).map fun (r, b) => (r, update m path (some b))

/-- The attribute that `operator[]` yields. -/
def subscript (path : Str) : Fattribute := (m path).getD .new

/-- The attributes when the list of a directory has changed. -/
def relist (branch : Str) (f : List Str → List Str) : Attributes :=
  update m branch (some { m.subscript branch with list := f (m.subscript branch).list })

/-- A new node, last in the list of its parent. -/
def add (path : Str) (a : Fattribute) : Attributes :=
  relist (update m path (some a)) (parentPath path) (· ++ [filename path])

/-- A path that goes, and every entry of that name with it. -/
def remove (path : Str) : Attributes :=
  update (m.relist (parentPath path) fun l => l.filter (· ≠ filename path)) path none

/-- An attribute that goes from one path to another. -/
def move (old new : Str) : Attributes :=
  let m' := relist (m.relist (parentPath old) fun l => l.erase (filename old)) (parentPath new)
    (· ++ [filename new])
  update (update m' new (m old)) old none

/-- The bytes that a `read` returns are as many as there are. -/
def available (a : Fattribute) (size offset : Nat) : Int :=
  let length := toSizeT a.stbuf.size
  if length < offset then 0
  else toInt (if length < (offset + size) % 2 ^ 64 then length - offset else size)

/-- The directory that the constructor makes. -/
def init (now : Timespec) : Attributes :=
  update (fun _ => none) ['/'] (some
    { list := []
      stbuf := { Stat.zero with mode := S_IFDIR ||| 0o777, nlink := 1, mtim := now } })

def call : Act → Option (Reply × Attributes)
  | .chmod path mode => m.onPath path fun a =>
    if a.stbuf.uid = process.uid ∨ process.uid = 0 then
      some (.code 0, { a with stbuf := { a.stbuf with mode := mode } })
    else some (.code (-EACCES), a)
  | .chown path uid gid => m.onPath path fun a =>
    some (.code 0, { a with stbuf := { a.stbuf with uid := uid, gid := gid } })
  | .create path mode now =>
    if ¬Fs.validatePath (filename path) then some (.code (-ENAMETOOLONG), m)
    else some (.code 0, m.add path
      { list := []
        stbuf := { Stat.zero with
          mode := S_IFREG ||| mode, nlink := 1, uid := process.uid, gid := process.gid
          blksize := CHUNK_SIZE, mtim := now } })
  | .getattr path stat => m.onPath path fun a =>
    if ¬Fs.validatePath (filename path) then some (.stat (-ENAMETOOLONG) stat, a)
    else if a.stbuf.nlink ≠ 0 then some (.stat 0 a.stbuf, a) else none
  | .mkdir path mode now =>
    if ¬Fs.validatePath (filename path) then some (.code (-ENAMETOOLONG), m)
    else some (.code 0, m.add path
      { list := []
        stbuf := { Stat.zero with
          mode := S_IFDIR ||| mode, nlink := 1, uid := process.uid, gid := process.gid
          mtim := now } })
  | .read path _ size offset => m.onPath path fun a => some (.code (available a size offset), a)
  | .readdir path => m.onPath path fun a =>
    some (if a.IsDir then .names 0 (['.'] :: ['.', '.'] :: a.list) else .names (-ENOTDIR) [], a)
  | .readlink path buffer size => m.onPath path fun a =>
    if ¬a.IsLnk then some (.target (-EINVAL) buffer, a)
    else match a.list with
      | [] => none
      | target :: _ =>
        let terminated := target ++ [Char.ofNat 0]
        if size ≤ buffer.length ∧ terminated.length ≤ buffer.length then
          some (.target 0 (Vec.memcpy (Vec.memcpy buffer 0 (List.replicate size (Char.ofNat 0))) 0
            terminated), a)
        else none
  | .rename old new =>
    if (m.subscript (parentPath old)).list.contains (filename old) then
      some (.code 0, m.move old new)
    else none
  | .rmdir path => some (.code 0, m.remove path)
  | .symlink target path now => some (.code 0, m.add path (Fs.link target now))
  | .truncate path length => m.onPath path fun a =>
    if length < 0 then some (.code (-EINVAL), a)
    else some (.code 0, { a with stbuf := { a.stbuf with size := length } })
  | .unlink path _ =>
    if ¬Fs.validatePath (filename path) then some (.code (-ENAMETOOLONG), m)
    else if (m.subscript path).stbuf.uid ≠ process.uid ∧ process.uid ≠ 0 then
      some (.code (-EACCES), m)
    else some (.code 0, m.remove path)
  | .utime path actime modtime => m.onPath path fun a =>
    some (.code 0, { a with
      stbuf := { a.stbuf with
        atim := { a.stbuf.atim with sec := actime }
        mtim := { a.stbuf.mtim with sec := modtime } } })
  | .write path _ size offset => m.onPath path fun a =>
    some (.code (toInt size), if a.stbuf.size < toInt (offset + size) then
      { a with stbuf := { a.stbuf with size := toInt (offset + size) } } else a)
  | .dhtTask _ => none

end Attributes

end ColonyFS

import ColonyFS.Fuse.Step

/-!
# Exceptions that leave a callback

The sinks raise what their policies do not translate. `Callback.statements` are the statements of a
callback without its `catch` clause, so an exception of theirs comes from a lower layer; `getattr`,
`readdir`, `rmdir` and `truncate` have such a clause, and all of them are for `lookup_e`.
-/

namespace ColonyFS

open Paths

inductive Callback where
  | getattr (filepath : Str) (stat : Stat)
  | read (filepath : Str) (buffer : List Byte) (size offset : Nat)
  | readdir (filepath : Str)
  | readlink (linkname buffer : Str) (size : Nat)
  | rename (oldpath newpath : Str)
  | rmdir (filepath : Str)
  | truncate (filepath : Str) (length : Int)
  | unlink (filepath : Str) (freed : Int)
  | write (filepath : Str) (buffer : List Byte) (size offset : Nat)

namespace Callback

open Fs

variable {δ σ α : Type} [BinaryArchive Instruction] [BinaryArchive Fattribute.Record]
  (dht : Dht δ) (P : Policy ChunkData σ) (process : Process)

/-- The number that libfuse gets. -/
def run : Callback → FuseM δ σ Int
  | getattr filepath stat => do return (← Fs.getattr dht filepath stat).1
  | read filepath buffer size offset => do return (← Fs.read dht P filepath buffer size offset).1
  | readdir filepath => do return (← Fs.readdir dht filepath).1
  | readlink linkname buffer size => do return (← Fs.readlink dht linkname buffer size).1
  | rename oldpath newpath => Fs.rename dht oldpath newpath
  | rmdir filepath => Fs.rmdir dht filepath
  | truncate filepath length => Fs.truncate P filepath length
  | unlink filepath freed => Fs.unlink dht process filepath freed
  | write filepath buffer size offset => Fs.write filepath buffer size offset

/-- What the callback does, without its `catch` clause. -/
def statements : Callback → FuseM δ σ Int
  | getattr filepath _ => do
    if ¬validatePath (filename filepath) then return -ENAMETOOLONG
    let pair ← metadataOf dht filepath
    let attr ← getMapped pair
    Exec.require (attr.stbuf.nlink ≠ 0) .assertion
    return 0
  | readdir filepath => do
    let pair ← metadataOf dht filepath
    let attr ← getMapped pair
    if ¬attr.IsDir then return -ENOTDIR
    return 0
  | rmdir filepath => do
    purgeMetadata dht filepath
    edit (parentPath filepath) fun a => { a with list := a.list.filter (· ≠ filename filepath) }
    return 0
  | truncate filepath length => do
    if length < 0 then return -EINVAL
    let pair ← metadataAt filepath
    let attr ← getMapped pair
    onData (DataSink.truncate P filepath (toSizeT length) (toSizeT attr.stbuf.size))
    modifyMapped pair fun a => { a with stbuf := { a.stbuf with size := length } }
    return 0
  | callback => callback.run dht P process

/-- The `catch` clause is around everything that can throw. -/
def Catches : Callback → Prop
  | getattr .. | readdir .. | truncate .. => True
  | _ => False

variable {dht P process} {c c' c₁ : Fs δ σ} {e : Exn}

/-! ## The callbacks -/

omit [BinaryArchive Instruction] [BinaryArchive Fattribute.Record] in
theorem negative_iff {x : FuseM δ σ Int} {n : Int}
    (h : x c = if e = .lookupE then .ok n c₁ else .error (.raised e) c₁) (hn : n < 0) :
    (∃ r c', x c = .ok r c' ∧ r < 0) ↔ e = .lookupE := by
  rw [h]
  by_cases he : e = .lookupE
  · rw [if_pos he]
    exact ⟨fun _ => he, fun _ => ⟨n, c₁, rfl, hn⟩⟩
  · rw [if_neg he]
    refine ⟨?_, fun h => (he h).elim⟩
    rintro ⟨_, _, h, _⟩
    cases h

omit [BinaryArchive Instruction] [BinaryArchive Fattribute.Record] in
theorem not_negative {x : FuseM δ σ Int} (h : x c = .error (.raised e) c₁) :
    ¬∃ r c', x c = .ok r c' ∧ r < 0 := by
  rintro ⟨r, c', hr, _⟩
  cases h.symm.trans hr

/-- A look-up, and statements on the attribute that raise nothing. -/
theorem metadataOf_of_raised {path : Str} {k : Fattribute → FuseM δ σ α}
    (hk : ∀ a t, k a t ≠ .error (.raised e) c₁)
    (h : (metadataOf dht path >>= fun p => getMapped p >>= k) c = .error (.raised e) c₁) :
    metadataOf dht path c = .error (.raised e) c₁ := by
  obtain h | ⟨p, t, _, h⟩ := Exec.bind_eq_error.mp h
  · exact h
  · obtain h | ⟨a, t, _, h⟩ := Exec.bind_eq_error.mp h
    · exact (getMapped_ne_raised h).elim
    · exact (hk a t h).elim

theorem catchLookup_metadataOf {path : Str} {k : Ptr → FuseM δ σ α} {handler : α} {n : α → Int}
    (h : metadataOf dht path c = .error (.raised e) c₁) :
    (catchLookup (metadataOf dht path >>= k) (pure handler) >>= fun r => pure (n r)) c =
      if e = .lookupE then .ok (n handler) c₁ else .error (.raised e) c₁ := by
  have hc : catchLookup (metadataOf dht path >>= k) (pure handler) c = _ :=
    catchLookup_raised (Exec.bind_of_error h)
  by_cases he : e = .lookupE
  · rw [if_pos he] at hc ⊢
    exact Exec.bind_of_ok hc
  · rw [if_neg he] at hc ⊢
    exact Exec.bind_of_error hc

theorem getattr_raised {filepath : Str} {stat : Stat}
    (h : (getattr filepath stat).statements dht P process c = .error (.raised e) c₁) :
    (getattr filepath stat).run dht P process c =
      if e = .lookupE then .ok (-ENOENT) c₁ else .error (.raised e) c₁ := by
  simp only [statements] at h
  simp only [run, Fs.getattr]
  split at h
  · cases h
  · next hv =>
    rw [if_neg hv]
    refine catchLookup_metadataOf (n := Prod.fst) (metadataOf_of_raised ?_ h)
    intro a t ht
    obtain ht | ⟨_, _, _, ht⟩ := Exec.bind_eq_error.mp ht
    · exact require_ne_raised (by rintro ⟨⟩) ht
    · cases ht

theorem readdir_raised {filepath : Str}
    (h : (readdir filepath).statements dht P process c = .error (.raised e) c₁) :
    (readdir filepath).run dht P process c =
      if e = .lookupE then .ok (-ENOENT) c₁ else .error (.raised e) c₁ := by
  simp only [statements] at h
  simp only [run, Fs.readdir]
  refine catchLookup_metadataOf (n := Prod.fst) (metadataOf_of_raised ?_ h)
  intro a t ht
  split at ht <;> cases ht

theorem truncate_raised {filepath : Str} {length : Int}
    (h : (truncate filepath length).statements dht P process c = .error (.raised e) c₁) :
    (truncate filepath length).run dht P process c =
      if e = .lookupE then .ok (-ENODEV) c₁ else .error (.raised e) c₁ :=
  catchLookup_raised h

/-- The attribute is purged outside of the `try` block, and nothing in it throws. -/
theorem rmdir_raised {filepath : Str}
    (h : (rmdir filepath).statements dht P process c = .error (.raised e) c₁) :
    (rmdir filepath).run dht P process c = .error (.raised e) c₁ := by
  obtain h | ⟨_, t, _, h⟩ := Exec.bind_eq_error.mp h
  · exact Exec.bind_of_error h
  · obtain h | ⟨_, t, _, h⟩ := Exec.bind_eq_error.mp h
    · exact (edit_ne_raised h).elim
    · cases h

/-- A callback turns an exception of a lower layer into a negative number if it is `lookup_e` and
the callback has a `catch` clause around the call that raises it. -/
theorem returns_negative_iff (callback : Callback)
    (h : callback.statements dht P process c = .error (.raised e) c₁) :
    (∃ r c', callback.run dht P process c = .ok r c' ∧ r < 0) ↔
      e = .lookupE ∧ callback.Catches := by
  have hnone : ¬callback.Catches → callback.run dht P process c = .error (.raised e) c₁ →
      ((∃ r c', callback.run dht P process c = .ok r c' ∧ r < 0) ↔
        e = .lookupE ∧ callback.Catches) := by
    intro hc hr
    exact ⟨fun hn => (not_negative hr hn).elim, fun hn => (hc hn.2).elim⟩
  cases callback with
  | getattr filepath stat =>
    rw [negative_iff (getattr_raised h) (by decide)]
    exact (and_iff_left trivial).symm
  | readdir filepath =>
    rw [negative_iff (readdir_raised h) (by decide)]
    exact (and_iff_left trivial).symm
  | truncate filepath length =>
    rw [negative_iff (truncate_raised h) (by decide)]
    exact (and_iff_left trivial).symm
  | rmdir filepath => exact hnone id (rmdir_raised h)
  | read | readlink | rename | unlink | write => exact hnone id h

end Callback

namespace Callback

open Fs
open scoped PlainArchive

/-- The link does not exist, and `readlink` has no `catch` clause. -/
theorem exists_escape : ∃ c₁ : Fs (Str → Option Str) Unit,
    (readlink ['/', 'l'] [] 0).statements Dht.table idle ⟨0, 0⟩
      (start ⟨0, 0⟩ (fun _ => none) ()) = .error (.raised .lookupE) c₁ ∧
    ¬∃ r c', (readlink ['/', 'l'] [] 0).run Dht.table idle ⟨0, 0⟩
      (start ⟨0, 0⟩ (fun _ => none) ()) = .ok r c' ∧ r < 0 := by
  have h : Exec.error? ((readlink ['/', 'l'] [] 0).statements Dht.table idle ⟨0, 0⟩
      (start ⟨0, 0⟩ (fun _ => none) ())) = some (.raised .lookupE) := by
    decide +kernel
  obtain ⟨c₁, hc⟩ := Exec.of_error? h
  exact ⟨c₁, hc, not_negative hc⟩

/-- The path does not exist, and `getattr` says so. -/
theorem returns_negative_iff_example : ∃ c₁ : Fs (Str → Option Str) Unit,
    (getattr ['/', 'f'] .zero).statements Dht.table idle ⟨0, 0⟩
      (start ⟨0, 0⟩ (fun _ => none) ()) = .error (.raised .lookupE) c₁ ∧
    ∃ r c', (getattr ['/', 'f'] .zero).run Dht.table idle ⟨0, 0⟩
      (start ⟨0, 0⟩ (fun _ => none) ()) = .ok r c' ∧ r < 0 := by
  have h : Exec.error? ((getattr ['/', 'f'] .zero).statements Dht.table idle ⟨0, 0⟩
      (start ⟨0, 0⟩ (fun _ => none) ())) = some (.raised .lookupE) := by
    decide +kernel
  obtain ⟨c₁, hc⟩ := Exec.of_error? h
  exact ⟨c₁, hc, (returns_negative_iff _ hc).mpr ⟨rfl, trivial⟩⟩

end Callback

end ColonyFS

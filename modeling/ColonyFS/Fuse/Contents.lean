import ColonyFS.Api.Contents
import ColonyFS.Api.Reads
import ColonyFS.Fuse.Lengths
import ColonyFS.Fuse.Refinement

/-!
# A file is an array of bytes

What the callbacks are for, on one file: `Act.onContent` is the array of bytes after a callback. In
the runs of `Admissible` a client keeps to it through every flush, of this file or another one. A
write leaves no gap and stays in one chunk below `2 ^ 31`; the chunk is cached, or has no bytes but
those written; and a cut does not extend the file.
-/

namespace ColonyFS

open Paths Function Machine
open DataOnFlush (policy)
open DataSink (Stores Replaces)

/-- The content of `f` after a callback. -/
def Act.onContent (f : Str) (flat : List Byte) : Act → List Byte
  | .write path buffer _ offset => if path = f then Vec.store 0 flat offset buffer else flat
  | .truncate path length => if path = f ∧ 0 ≤ length then flat.take length.toNat else flat
  | _ => flat

/-- The callbacks that neither make nor remove `f`. -/
def Act.Spares (f : Str) : Act → Prop
  | .create path _ _ | .mkdir path _ _ | .symlink _ path _ | .unlink path _ | .rmdir path =>
    path ≠ f
  | .rename old new => old ≠ f ∧ new ≠ f
  | _ => True

instance (f : Str) : (act : Act) → Decidable (act.Spares f)
  | .create .. | .mkdir .. | .symlink .. | .unlink .. | .rmdir _ =>
    inferInstanceAs (Decidable (_ ≠ _))
  | .rename .. => inferInstanceAs (Decidable (_ ∧ _))
  | .chmod .. | .chown .. | .getattr .. | .read .. | .readdir .. | .readlink .. | .truncate ..
  | .utime .. | .write .. | .dhtTask _ => inferInstanceAs (Decidable True)

/-- `st_size` of `f` after a callback. -/
def Act.onSize (f : Str) (size : Int) : Act → Int
  | .write path _ n offset =>
    if path = f ∧ size < toInt (offset + n) then toInt (offset + n) else size
  | .truncate path length => if path = f ∧ 0 ≤ length then length else size
  | _ => size

theorem Act.onContent_of_sparesData {f : Str} {flat : List Byte} {act : Act}
    (h : act.SparesData) : act.onContent f flat = flat := by
  cases act with
  | write | truncate => exact h.elim
  | _ => rfl

namespace Fs

variable {process : Process} {c c' c₀ : Fs (Str → Option Str) Net} {f path : Str} {act : Act}
  {flat : List Byte} {a : Fattribute} {m m' : Attributes} {reply : Reply}

/-! ## The size -/

theorem onPath_cases {g : Fattribute → Option (Reply × Fattribute)}
    (h : Attributes.onPath m path g = some (reply, m')) (ha : m f = some a) :
    ∃ b, m' f = some b ∧ (path ≠ f ∧ b = a ∨ path = f ∧ g a = some (reply, b)) := by
  obtain ⟨a₁, ha₁, h⟩ := Option.bind_eq_some_iff.mp h
  obtain ⟨⟨r, b⟩, hg, h⟩ := Option.map_eq_some_iff.mp h
  cases h
  obtain rfl | hne := eq_or_ne path f
  · cases ha.symm.trans ha₁
    exact ⟨b, update_self .., .inr ⟨rfl, hg⟩⟩
  · exact ⟨a, by rw [update_of_ne hne.symm, ha], .inl ⟨hne, rfl⟩⟩

/-- A callback about one attribute that does not assign to its size. -/
theorem size_onPath {g : Fattribute → Option (Reply × Fattribute)}
    (h : Attributes.onPath m path g = some (reply, m')) (ha : m f = some a)
    (hg : ∀ r b, g a = some (r, b) → b.stbuf.size = a.stbuf.size) :
    ∃ b, m' f = some b ∧ b.stbuf.size = a.stbuf.size := by
  obtain ⟨b, hb, ⟨_, rfl⟩ | ⟨_, hb'⟩⟩ := onPath_cases h ha
  · exact ⟨b, hb, rfl⟩
  · exact ⟨b, hb, hg _ _ hb'⟩

/-- A change to the list of a directory. -/
theorem size_relist {branch : Str} {g : List Str → List Str} (ha : m f = some a) :
    ∃ b, Attributes.relist m branch g f = some b ∧ b.stbuf.size = a.stbuf.size := by
  obtain rfl | hne := eq_or_ne f branch
  · refine ⟨_, update_self .., ?_⟩
    rw [Attributes.subscript, ha]
    rfl
  · exact ⟨a, by rw [Attributes.relist, update_of_ne hne, ha], rfl⟩

theorem size_add (ha : m f = some a) (hne : path ≠ f) (b : Fattribute) :
    ∃ b', Attributes.add m path b f = some b' ∧ b'.stbuf.size = a.stbuf.size :=
  size_relist (by rw [update_of_ne hne.symm, ha])

theorem size_remove (ha : m f = some a) (hne : path ≠ f) :
    ∃ b, Attributes.remove m path f = some b ∧ b.stbuf.size = a.stbuf.size := by
  rw [Attributes.remove, update_of_ne hne.symm]
  exact size_relist ha

theorem size_move {old new : Str} (ha : m f = some a) (ho : old ≠ f) (hn : new ≠ f) :
    ∃ b, Attributes.move m old new f = some b ∧ b.stbuf.size = a.stbuf.size := by
  have hlist : ∀ (branch : Str) (g : List Str → List Str) {m : Attributes} {a : Fattribute},
      m f = some a → ∃ b, Attributes.relist m branch g f = some b ∧
        b.stbuf.size = a.stbuf.size := fun _ _ _ _ ha => size_relist ha
  obtain ⟨b, hb, hsize⟩ := hlist (parentPath old) (fun l => l.erase (filename old)) ha
  obtain ⟨b', hb', hsize'⟩ := hlist (parentPath new) (· ++ [filename new]) hb
  refine ⟨b', ?_, hsize'.trans hsize⟩
  rw [Attributes.move]
  simp only [update_of_ne ho.symm, update_of_ne hn.symm]
  exact hb'

/-- The size of a file goes by `write` and `truncate`. -/
theorem size_call (h : Attributes.call process m act = some (reply, m')) (ha : m f = some a)
    (hs : act.Spares f) : ∃ b, m' f = some b ∧ b.stbuf.size = act.onSize f a.stbuf.size := by
  cases act with
  | chmod path mode =>
    refine size_onPath h ha fun r b hb => ?_
    split at hb <;> cases hb <;> rfl
  | chown path uid gid => exact size_onPath h ha fun r b hb => by cases hb; rfl
  | utime path actime modtime => exact size_onPath h ha fun r b hb => by cases hb; rfl
  | getattr path stat =>
    refine size_onPath h ha fun r b hb => ?_
    split at hb
    · cases hb; rfl
    · split at hb <;> cases hb
      rfl
  | read path buffer size offset => exact size_onPath h ha fun r b hb => by cases hb; rfl
  | readdir path => exact size_onPath h ha fun r b hb => by cases hb; rfl
  | readlink path buffer size =>
    refine size_onPath h ha fun r b hb => ?_
    split at hb
    · cases hb; rfl
    · split at hb
      · cases hb
      · dsimp only at hb
        split at hb <;> cases hb
        rfl
  | create path mode now =>
    rw [Attributes.call] at h
    split at h <;> cases h
    · exact ⟨a, ha, rfl⟩
    · exact size_add ha hs _
  | mkdir path mode now =>
    rw [Attributes.call] at h
    split at h <;> cases h
    · exact ⟨a, ha, rfl⟩
    · exact size_add ha hs _
  | symlink target path now =>
    cases h
    exact size_add ha hs _
  | unlink path freed =>
    rw [Attributes.call] at h
    split at h
    · cases h; exact ⟨a, ha, rfl⟩
    · split at h <;> cases h
      · exact ⟨a, ha, rfl⟩
      · exact size_remove ha hs
  | rmdir path =>
    cases h
    exact size_remove ha hs
  | rename old new =>
    rw [Attributes.call] at h
    split at h <;> cases h
    exact size_move ha hs.1 hs.2
  | truncate path length =>
    obtain ⟨b, hb, ⟨hne, rfl⟩ | ⟨rfl, hb'⟩⟩ := onPath_cases h ha
    · exact ⟨b, hb, (if_neg fun h => hne h.1).symm⟩
    · split at hb' <;> cases hb'
      · next hlen => exact ⟨_, hb, (if_neg fun h => absurd h.2 (by omega)).symm⟩
      · next hlen => exact ⟨_, hb, (if_pos ⟨rfl, by omega⟩).symm⟩
  | write path buffer size offset =>
    obtain ⟨b, hb, ⟨hne, rfl⟩ | ⟨rfl, hb'⟩⟩ := onPath_cases h ha
    · exact ⟨b, hb, (if_neg fun h => hne h.1).symm⟩
    · cases hb'
      refine ⟨_, hb, ?_⟩
      simp only [Act.onSize, true_and]
      split <;> rfl
  | dhtTask path => cases h

/-! ## Requests that keep an array -/

variable [BinaryArchive Instruction] [BinaryArchive Fattribute.Record]

/-- A write of this size leaves no gap in `f` and loses no bytes of it. -/
structure WritesInto (f : Str) (size offset : Nat) (c : Fs (Str → Option Str) Net) : Prop where
  noGap : offset ≤ c.endOf f
  inChunk : offset % CHUNK_SIZE + size ≤ CHUNK_SIZE
  inRange : offset + size < 2 ^ 31
  first : Replaces c.dataSink f (c.endOf f) offset size (toInt (offset / CHUNK_SIZE))
  second : CHUNK_SIZE ≤ offset % CHUNK_SIZE + size →
    Replaces c.dataSink f (c.endOf f) offset size (toInt (offset / CHUNK_SIZE + 1))

instance (f : Str) (size offset : Nat) (c : Fs (Str → Option Str) Net) :
    Decidable (WritesInto f size offset c) :=
  decidable_of_iff (offset ≤ c.endOf f ∧ offset % CHUNK_SIZE + size ≤ CHUNK_SIZE ∧
    offset + size < 2 ^ 31 ∧
    Replaces c.dataSink f (c.endOf f) offset size (toInt (offset / CHUNK_SIZE)) ∧
    (CHUNK_SIZE ≤ offset % CHUNK_SIZE + size →
      Replaces c.dataSink f (c.endOf f) offset size (toInt (offset / CHUNK_SIZE + 1))))
    ⟨fun ⟨h₁, h₂, h₃, h₄, h₅⟩ => ⟨h₁, h₂, h₃, h₄, h₅⟩,
      fun ⟨h₁, h₂, h₃, h₄, h₅⟩ => ⟨h₁, h₂, h₃, h₄, h₅⟩⟩

/-- A callback that changes the content of `f` leaves it an array of bytes. -/
def Edits (f : Str) (c : Fs (Str → Option Str) Net) : Act → Prop
  | .write path buffer size offset => path = f → size = buffer.length ∧ WritesInto f size offset c
  | .truncate path length => path = f → length ≤ c.endOf f
  | _ => True

instance (f : Str) (c : Fs (Str → Option Str) Net) : (act : Act) → Decidable (Edits f c act)
  | .write .. => inferInstanceAs (Decidable (_ → _ ∧ _))
  | .truncate .. => inferInstanceAs (Decidable (_ → _ ≤ _))
  | .chmod .. | .chown .. | .create .. | .getattr .. | .mkdir .. | .read .. | .readdir ..
  | .readlink .. | .rename .. | .rmdir .. | .symlink .. | .unlink .. | .utime .. | .dhtTask _ =>
    inferInstanceAs (Decidable True)

/-- The callbacks that the kernel issues and that keep `f` an array of bytes. Those on other files
are free. -/
def Admissible (f : Str) (c : Fs (Str → Option Str) Net) (act : Act) : Prop :=
  Issued Dht.table c act ∧ act.Spares f ∧ Edits f c act

instance (f : Str) (c : Fs (Str → Option Str) Net) (act : Act) : Decidable (Admissible f c act) :=
  inferInstanceAs (Decidable (_ ∧ _ ∧ _))

/-- `f` has the content `flat`, of which the size is on record. -/
structure Carries (f : Str) (flat : List Byte) (c : Fs (Str → Option Str) Net) : Prop where
  wf : c.WF
  stores : Stores f flat c.data
  attr : ∃ a, c.cached f = some a ∧ a.stbuf.size = flat.length

/-- The same of a client that is alone. -/
structure Contains (f : Str) (flat : List Byte) (c : Fs (Str → Option Str) Net) : Prop extends
    Carries f flat c where
  known : Known c

theorem Carries.endOf (H : Carries f flat c) : c.endOf f = flat.length := by
  obtain ⟨a, ha, hsize⟩ := H.attr
  have hb := H.stores.bound
  rw [Fs.endOf, attr?_of_cached ha, Option.map_some, Option.getD_some, hsize,
    toSizeT_natCast (by omega)]

/-! ## The bytes -/

theorem Carries.write_stores {buffer : List Byte} {size offset : Nat} {r : Int}
    (H : Carries f flat c) (hok : path = f → size = buffer.length ∧ WritesInto f size offset c)
    (h : write path buffer size offset c = .ok r c') :
    Stores f ((Act.write path buffer size offset).onContent f flat) c'.data := by
  have hw := write_data h
  obtain rfl | hne := eq_or_ne path f
  · obtain ⟨rfl, hinto⟩ := hok rfl
    have hend := H.endOf
    rw [Act.onContent, if_pos rfl]
    refine H.stores.write (hend ▸ hinto.noGap) hinto.inChunk hinto.inRange ?_ hw
    rintro j (rfl | ⟨hcross, rfl⟩)
    · exact hend ▸ hinto.first
    · exact hend ▸ hinto.second hcross
  · rw [Act.onContent, if_neg hne]
    exact H.stores.write_of_ne hne hw

theorem Carries.truncate_stores {length r : Int} (H : Carries f flat c)
    (hok : path = f → length ≤ c.endOf f) (h : truncate policy path length c = .ok r c') :
    Stores f ((Act.truncate path length).onContent f flat) c'.data := by
  rw [Act.onContent]
  obtain ⟨hlen, rfl⟩ | ⟨hlen, m, ht⟩ := truncate_data DataOnFlush.policy_noLookupE h
  · rw [if_neg fun h => absurd h.2 (by omega)]
    exact H.stores
  obtain rfl | hne := eq_or_ne path f
  · have hle := hok rfl
    rw [H.endOf] at hle
    have hb := H.stores.bound
    have hn : toSizeT length = length.toNat := by
      unfold toSizeT
      omega
    rw [if_pos ⟨rfl, by omega⟩]
    exact H.stores.truncate (by omega) (hn ▸ ht)
  · rw [if_neg fun h => hne h.1]
    exact H.stores.truncate_of_ne hne ht

theorem Carries.step_stores (H : Carries f flat c) (hs : act.Spares f) (hedit : Edits f c act)
    (h : step Dht.table policy process c act = some c') :
    Stores f (act.onContent f flat) c'.data := by
  by_cases hact : act.SparesData
  · rw [Act.onContent_of_sparesData hact, step_data hact h]
    exact H.stores
  cases act with
  | create path mode now =>
    obtain ⟨r, hr⟩ := after_eq_some.mp h
    obtain ⟨_, hd⟩ | ⟨_, hw⟩ := create_data hr
    · exact hd.symm ▸ H.stores
    · exact H.stores.write_of_ne hs hw
  | write path buffer size offset =>
    obtain ⟨r, hr⟩ := after_eq_some.mp h
    exact H.write_stores hedit hr
  | read path buffer size offset =>
    obtain ⟨r, hr⟩ := after_eq_some.mp h
    obtain hd | ⟨n, hread⟩ := read_data hr
    · exact hd.symm ▸ H.stores
    · exact H.stores.read hread
  | truncate path length =>
    obtain ⟨r, hr⟩ := after_eq_some.mp h
    exact H.truncate_stores hedit hr
  | dhtTask path =>
    obtain ⟨r, hr⟩ := after_eq_some.mp h
    obtain ⟨s, hinv, hpurge⟩ := dhtTask_data hr
    exact H.stores.flush hinv hpurge
  | _ => exact (hact trivial).elim

/-- The size that is recorded is the length of the array. -/
theorem Carries.onSize (H : Carries f flat c) (hedit : Edits f c act) :
    act.onSize f flat.length = (act.onContent f flat).length := by
  cases act with
  | write path buffer size offset =>
    rw [Act.onSize, Act.onContent]
    obtain rfl | hne := eq_or_ne path f
    · obtain ⟨rfl, hinto⟩ := hedit rfl
      have hrange := hinto.inRange
      rw [toInt_of_lt hrange, if_pos rfl, Vec.length_store]
      simp only [true_and]
      split <;> omega
    · rw [if_neg fun h => hne h.1, if_neg hne]
  | truncate path length =>
    rw [Act.onSize, Act.onContent]
    split
    · next h =>
      have hle := hedit h.1
      rw [H.endOf] at hle
      rw [List.length_take]
      omega
    · rfl
  | _ => rfl

theorem Contains.step (H : Contains f flat c) (hok : Admissible f c act)
    (h : call Dht.table policy process c act = some (reply, c')) :
    Contains f (act.onContent f flat) c' := by
  obtain ⟨hi, hs, hedit⟩ := hok
  have hstep : Fs.step Dht.table policy process c act = some c' := by
    rw [← map_call, h, Option.map_some]
  have hknown := H.known.step hi hstep
  refine ⟨⟨hknown.wf, H.step_stores hs hedit hstep, ?_⟩, hknown⟩
  obtain ⟨a, ha, hsize⟩ := H.attr
  rw [← H.onSize hedit, ← hsize]
  by_cases hv : visible act
  · have hcall : Attributes.call process c.cached act = some (reply, c'.cached) := by
      by_cases hact : act.SparesData
      · rw [← map_call_eq H.known hi hact, h, Option.map_some]
      · exact call_of_call H.known hi hv hact h
    exact size_call hcall ha hs
  · cases act with
    | dhtTask path =>
      obtain ⟨_, hr, _⟩ := replied_eq_some.mp h
      exact ⟨a, by rw [(dhtTask_cases H.known.wf hr).2.1, ha], rfl⟩
    | _ => exact (hv rfl).elim

theorem Contains.trace {l : List (Act × Reply)} (H : Contains f flat c₀)
    (h : Trace (call Dht.table policy process) (Admissible f) c₀ l c) :
    Contains f ((l.map (·.1)).foldl (fun flat act => act.onContent f flat) flat) c := by
  induction h with
  | nil => exact H
  | snoc _ hok hcall ih =>
    rw [List.map_append, List.foldl_append]
    exact ih.step hok hcall

/-! ## What a caller sees -/

theorem Carries.read_eq {dest : List Byte} {size offset : Nat} {r : Int × List Byte}
    (H : Carries f flat c) (hs : size < 2 ^ 31) (ho : offset ≤ flat.length)
    (hin : offset % CHUNK_SIZE + min size (flat.length - offset) ≤ CHUNK_SIZE)
    (h : read Dht.table policy f dest size offset c = .ok r c') :
    r = (((min size (flat.length - offset) : Nat) : Int),
      Vec.memcpy dest 0 (Vec.slice flat offset (min size (flat.length - offset)))) := by
  obtain ⟨a, ha, hsize⟩ := H.attr
  have hb := H.stores.bound
  rw [read_eq_min ha hsize (by omega) (by omega) hs, if_neg (by omega)] at h
  obtain ⟨dest', c₁, hread, h⟩ := Exec.bind_eq_ok.mp h
  cases h
  rw [H.stores.read_eq hin (by omega) (onData_data hread)]

/-- A read of bytes of the file that are all in one chunk, and not the last ones of it. -/
theorem Carries.read_returns_iff {dest : List Byte} {size offset : Nat} (H : Carries f flat c)
    (hs : size < 2 ^ 31) (hn : 0 < min size (flat.length - offset))
    (hin : offset % CHUNK_SIZE + min size (flat.length - offset) < CHUNK_SIZE)
    (hdest : size ≤ dest.length) :
    (∃ r c', read Dht.table policy f dest size offset c = .ok r c') ↔
      (c.dataSink.chunk? f (toInt (offset / CHUNK_SIZE))).isSome ∨
        ⟨f, toInt (offset / CHUNK_SIZE)⟩ ∉ c.dataSink.cache.cv := by
  obtain ⟨a, ha, hsize⟩ := H.attr
  have hb := H.stores.bound
  have hn' : min size (flat.length - offset) ≤ dest.length := by omega
  have hiff := H.stores.read_returns_iff hn hin (by omega) hn'
  rw [read_eq_min ha hsize (by omega) (by omega) hs, if_neg (by omega)]
  refine Iff.trans ?_ hiff
  constructor
  · rintro ⟨r, c', h⟩
    obtain ⟨dest', c₁, hread, _⟩ := Exec.bind_eq_ok.mp h
    exact ⟨dest', _, onData_data hread⟩
  · rintro ⟨dest', s', h⟩
    exact ⟨_, _, Exec.bind_of_ok (onData_ok h)⟩

theorem sane_step {dht : Dht (Str → Option Str)} (H : DataSink.Sane c.data)
    (h : step dht policy process c act = some c') : DataSink.Sane c'.data := by
  by_cases hact : act.SparesData
  · rw [step_data hact h]
    exact H
  cases act with
  | create path mode now =>
    obtain ⟨r, hr⟩ := after_eq_some.mp h
    obtain ⟨_, hd⟩ | ⟨_, hw⟩ := create_data hr
    · exact hd.symm ▸ H
    · exact H.write hw
  | write path buffer size offset =>
    obtain ⟨r, hr⟩ := after_eq_some.mp h
    exact H.write (write_data hr)
  | read path buffer size offset =>
    obtain ⟨r, hr⟩ := after_eq_some.mp h
    obtain hd | ⟨n, hread⟩ := read_data hr
    · exact hd.symm ▸ H
    · exact H.read hread
  | truncate path length =>
    obtain ⟨r, hr⟩ := after_eq_some.mp h
    obtain ⟨_, rfl⟩ | ⟨_, m, ht⟩ := truncate_data DataOnFlush.policy_noLookupE hr
    · exact H
    · exact H.truncate ht
  | dhtTask path =>
    obtain ⟨r, hr⟩ := after_eq_some.mp h
    obtain ⟨s, hinv, hpurge⟩ := dhtTask_data hr
    exact H.flush hinv hpurge
  | _ => exact (hact trivial).elim

theorem sane_of_reach {now : Timespec} {net : Net} (hb : net.Backed)
    (h : Reach (step Dht.table policy process) (Issued Dht.table) (start now (fun _ => none) net) c) :
    DataSink.Sane c.data := by
  refine h.invariant ?_ fun _ _ _ H _ hs => sane_step H hs
  rw [start_data]
  exact ⟨DataSink.WF.empty, hb⟩

omit [BinaryArchive Instruction] [BinaryArchive Fattribute.Record] in
theorem backed_bareNet : bareNet.Backed := by
  intro _ _ h
  cases h

/-- The content that a run of callbacks gives to a file that was empty. -/
def content (f : Str) (l : List (Act × Reply)) : List Byte :=
  (l.map (·.1)).foldl (fun flat act => act.onContent f flat) []

/-- A file is an array of bytes. From the time that it is empty, and as long as no write makes a gap
or comes to a chunk that is stored only, `st_size` is the length of the array and `read` returns its
bytes, whatever is flushed in between and done to other files. A read returns if and only if its
chunk is cached or the mutex of the chunk was never taken. -/
theorem file_is_array (process : Process) (now : Timespec) (net : Net) (hb : net.Backed) (f : Str)
    (h₀ : Reach (step Dht.table policy process) (Issued Dht.table)
      (start now (fun _ => none) net) c₀)
    (hempty : Has Dht.table c₀ f fun a => a.stbuf.size = 0) {l : List (Act × Reply)}
    (h : Trace (call Dht.table policy process) (Admissible f) c₀ l c) :
    (Has Dht.table c f fun a => a.stbuf.size = (content f l).length) ∧
      ∀ (dest : List Byte) (size offset : Nat), size < 2 ^ 31 → size ≤ dest.length →
        offset ≤ (content f l).length →
        let n := min size ((content f l).length - offset)
        (offset % CHUNK_SIZE + n ≤ CHUNK_SIZE → ∀ r c',
          read Dht.table policy f dest size offset c = .ok r c' →
          r = ((n : Int), Vec.memcpy dest 0 (Vec.slice (content f l) offset n))) ∧
        (0 < n → offset % CHUNK_SIZE + n < CHUNK_SIZE →
          ((∃ r c', read Dht.table policy f dest size offset c = .ok r c') ↔
            (c.dataSink.chunk? f (toInt (offset / CHUNK_SIZE))).isSome ∨
              ⟨f, toInt (offset / CHUNK_SIZE)⟩ ∉ c.dataSink.cache.cv)) := by
  have H₀ := Known.of_reach h₀
  have hsane := sane_of_reach hb h₀
  obtain ⟨a, ha, hsize⟩ := H₀.real.has_iff.mp hempty
  have H : Contains f (content f l) c :=
    Contains.trace ⟨⟨H₀.wf, DataSink.stores_nil hsane.wf hsane.backed, a, ha,
      by simpa using hsize⟩, H₀⟩ h
  refine ⟨H.known.real.has_iff.mpr H.attr, ?_⟩
  intro dest size offset hs hdest ho n
  exact ⟨fun hin r c' hr => H.read_eq hs ho hin hr,
    fun hn hin => H.read_returns_iff hs hn hin hdest⟩

end Fs

namespace Fs

open scoped PlainArchive

/-- A new file is written, flushed, and overwritten as a whole. -/
theorem file_is_array_example : ∃ (l : List (Act × Reply)) (c : Fs (Str → Option Str) Net),
    content ['/', 'f'] l = [7, 8, 9, 10] ∧
      ∃ r c', read Dht.table policy ['/', 'f'] [0, 0] 2 1 c = .ok r c' ∧ r = (2, [8, 9]) := by
  let create := Machine.run (guarded (step Dht.table policy ⟨0, 0⟩) (Issued Dht.table))
    (start ⟨0, 0⟩ (fun _ => none) bareNet) [.create ['/', 'f'] 0o644 ⟨1, 0⟩]
  let acts : List Act := [.write ['/', 'f'] [1, 2, 3] 3 0, .dhtTask ['/', 'f'],
    .write ['/', 'f'] [7, 8, 9, 10] 4 0]
  have h : (create.bind fun c₀ => if Has Dht.table c₀ ['/', 'f'] (fun a => a.stbuf.size = 0) then
      (play (call Dht.table policy ⟨0, 0⟩) (Admissible ['/', 'f']) c₀ acts).map fun q =>
        (q.2.dataSink.chunk? ['/', 'f'] (toInt (1 / CHUNK_SIZE))).isSome else none) = some true := by
    decide +kernel
  obtain ⟨c₀, h₀, h⟩ := Option.bind_eq_some_iff.mp h
  split at h
  · next hempty =>
    obtain ⟨⟨l, c⟩, hplay, hcached⟩ := Option.map_eq_some_iff.mp h
    obtain ⟨htrace, hacts⟩ := Trace.of_play hplay
    have hcontent : content ['/', 'f'] l = [7, 8, 9, 10] := by
      rw [content, hacts]
      decide
    obtain ⟨_, hread⟩ := file_is_array ⟨0, 0⟩ ⟨0, 0⟩ bareNet backed_bareNet ['/', 'f']
      (.of_run_guarded _ h₀) hempty htrace
    rw [hcontent] at hread
    obtain ⟨heq, hret⟩ := hread [0, 0] 2 1 (by decide) (by decide) (by decide)
    obtain ⟨r, c', hr⟩ := (hret (by decide) (by decide +kernel)).mpr (.inl hcached)
    exact ⟨l, c, hcontent, r, c', hr, heq (by decide +kernel) r c' hr⟩
  · cases h

end Fs

end ColonyFS

import ColonyFS.Fuse.RenameTree

/-!
# Reading symbolic links

The target of a link is the first entry of its list, and goes with the attribute where the link
goes. `readlink` copies it with its terminator, whether the buffer has the room or not.
-/

namespace ColonyFS

open Paths Function
open Machine

namespace Fs

variable {σ : Type} [BinaryArchive Instruction] [BinaryArchive Fattribute.Record]
  {P : Policy ChunkData σ} {process : Process} {c c' : Fs (Str → Option Str) σ}
  {path target l : Str} {act : Act} {a b : Fattribute} {n : Nat}

/-- `readlink` fills a buffer of `n` bytes with the target, cut off if need be, and a terminator. -/
def ReadsTarget (c : Fs (Str → Option Str) σ) (l target : Str) (n : Nat) : Prop :=
  ∀ buffer : Str, buffer.length = n → ∃ out c', readlink Dht.table l buffer n c = .ok (0, out) c' ∧
    out.length = n ∧ target.take (n - 1) ++ [Char.ofNat 0] <+: out

/-- A client, and the path at which a link is. -/
structure Following (σ : Type) where
  fs : Fs (Str → Option Str) σ
  path : Str

/-- Where a path is after a `rename` of it. -/
def destination (path : Str) : Act → Str
  | .rename _ new => new
  | _ => path

def follow (P : Policy ChunkData σ) (process : Process) (s : Following σ) (act : Act) :
    Option (Following σ) :=
  (step Dht.table P process s.fs act).map fun c => ⟨c, destination s.path act⟩

/-- No path goes. -/
def KeepsPaths : Act → Prop
  | .unlink .. | .rmdir .. | .rename .. => False
  | _ => True

/-- No path goes but that of the link, in a `rename` to a path that does not exist. -/
def KeepsLink (s : Following σ) (act : Act) : Prop :=
  Issued Dht.table s.fs act ∧ (KeepsPaths act ∨
    ∃ new, act = .rename s.path new ∧ attr? Dht.table s.fs new = none)

/-- The link and its target. -/
structure IsLink (target : Str) (s : Following σ) : Prop where
  known : Known s.fs
  attr : ∃ a, s.fs.cached s.path = some a ∧ a.IsLnk ∧ a.list = [target]

/-! ## One callback -/

theorem readlink_eq (ha : c.cached l = some a) (hl : a.IsLnk) (hlist : a.list = [target])
    {buffer : Str} (hb : buffer.length = n) : readlink Dht.table l buffer n c =
      if target.length < n then
        .ok (0, target ++ List.replicate (n - target.length) (Char.ofNat 0)) c
      else .error .undefined c := by
  rw [readlink, bind_metadataOf ha, if_neg (not_not.mpr hl), hlist]
  dsimp only
  by_cases hn : target.length < n
  · have hfits : n ≤ buffer.length ∧ (target ++ [Char.ofNat 0]).length ≤ buffer.length := by
      rw [List.length_append, List.length_singleton]
      omega
    have hzeros : Vec.memcpy buffer 0 (List.replicate n (Char.ofNat 0)) =
        List.replicate n (Char.ofNat 0) := Vec.memcpy_all (by rw [hb, List.length_replicate])
    have hrest : n - target.length = 1 + (n - (target.length + 1)) := by omega
    rw [if_pos hn, Exec.bind_of_ok (Exec.require_ok hfits), hzeros, Vec.memcpy, List.drop_replicate,
      hrest, List.replicate_add]
    simp
    rfl
  · rw [if_neg hn]
    refine Exec.bind_of_error (Exec.require_error ?_)
    rw [List.length_append, List.length_singleton]
    omega

/-- The target has to be shorter than the buffer. -/
theorem IsLink.reads_iff {s : Following σ} (H : IsLink target s) (hn : 1 ≤ n) :
    ReadsTarget s.fs s.path target n ↔ target.length < n := by
  obtain ⟨a, ha, hl, hlist⟩ := H.attr
  constructor
  · intro h
    obtain ⟨out, c', hr, _⟩ := h (List.replicate n 'x') List.length_replicate
    rw [readlink_eq ha hl hlist List.length_replicate] at hr
    by_contra hlt
    rw [if_neg hlt] at hr
    cases hr
  · intro hlt buffer hb
    refine ⟨_, s.fs, (readlink_eq ha hl hlist hb).trans (if_pos hlt), ?_, ?_⟩
    · rw [List.length_append, List.length_replicate]
      omega
    · have hrest : n - target.length = 1 + (n - (target.length + 1)) := by omega
      rw [List.take_of_length_le (by omega), hrest, List.replicate_add, ← List.append_assoc]
      exact List.prefix_append ..

/-! ## Runs -/

omit [BinaryArchive Instruction] [BinaryArchive Fattribute.Record] in
theorem destination_of_keepsPaths (h : KeepsPaths act) : destination path act = path := by
  cases act with
  | rename => exact h.elim
  | _ => rfl

theorem IsLink.keep {s : Following σ} (H : IsLink target s) (H' : Known c')
    (hk : KeepsPaths act) (h : Change Dht.table s.fs act c') : IsLink target ⟨c', s.path⟩ := by
  obtain ⟨a, ha, hl, hlist⟩ := H.attr
  refine ⟨H', ?_⟩
  cases h with
  | same => exact ⟨a, ha, hl, hlist⟩
  | @retouched _ path _ h =>
    obtain ⟨x, y, hx, hxy, hc⟩ := h.attr
    obtain rfl | hne := eq_or_ne s.path path
    · cases ha.symm.trans hx
      refine ⟨y, by rw [hc, update_self], ?_, by rw [hxy.list, hlist]⟩
      exact hxy.type.trans hl
    · exact ⟨a, by rw [hc, update_of_ne hne, ha], hl, hlist⟩
  | @added _ path b _ hnew hb hd h =>
    obtain ⟨x, _, hc⟩ := h.attr
    have hnone := hnew.2.2.1
    rw [H.known.real.attr?] at hnone
    have h₁ : s.path ≠ path := by
      rintro rfl
      cases ha.symm.trans hnone
    have h₂ : s.path ≠ parentPath path := by
      intro he
      rw [← he, ha] at hb
      cases hb
      exact not_isDir_of_isLnk hl hd
    exact ⟨a, by rw [hc, update_of_ne h₂, update_of_ne h₁, ha], hl, hlist⟩
  | unlinked => exact hk.elim
  | removed => exact hk.elim
  | renamed => exact hk.elim
  | flushed _ hc _ => exact ⟨a, by rw [hc, ha], hl, hlist⟩

theorem IsLink.renamed {s : Following σ} {new : Str} {r : Int} (H : IsLink target s)
    (hi : Issued Dht.table s.fs (.rename s.path new)) (H' : Known c')
    (h : rename Dht.table s.path new s.fs = .ok r c') : IsLink target ⟨c', new⟩ := by
  obtain ⟨a, ha, hl, hlist⟩ := H.attr
  obtain ⟨x, _, hx, _, _, hc⟩ :=
    renamed_of_ok H.known.wf H.known.real Known.puts H.known.sound.canonical hi h
  cases ha.symm.trans hx
  have hne : s.path ≠ new := hi.2.2.2.2.2.1
  exact ⟨H', a, by rw [hc.cached, update_of_ne hne.symm, update_self], hl, hlist⟩

theorem IsLink.follow {s s' : Following σ} (H : IsLink target s) (hk : KeepsLink s act)
    (hs : follow P process s act = some s') : IsLink target s' := by
  obtain ⟨c', hstep, rfl⟩ := Option.map_eq_some_iff.mp hs
  obtain ⟨hi, hk⟩ := hk
  have H' : Known c' := H.known.step hi hstep
  obtain hk | ⟨new, rfl, _⟩ := hk
  · rw [destination_of_keepsPaths hk]
    exact H.keep H' hk
      (step_change H.known.wf H.known.real Known.puts H.known.sound.canonical hi hstep)
  · obtain ⟨r, hr⟩ := after_eq_some.mp hstep
    exact H.renamed hi H' hr

/-- After `symlink` and whatever may follow it, `readlink` does what its interface says if and only
if the target is shorter than the buffer. -/
theorem readsTarget_iff (P : Policy ChunkData σ) (process : Process) (now : Timespec) (e : σ)
    (hreach : Reach (step Dht.table P process) (Issued Dht.table) (start now (fun _ => none) e) c)
    (hnew : New Dht.table c l) (target : Str) (linked : Timespec) (hn : 1 ≤ n) :
    (∀ c', symlink target l linked c = .ok 0 c' →
      ∀ s, Reach (follow P process) KeepsLink ⟨c', l⟩ s → ReadsTarget s.fs s.path target n) ↔
      target.length < n := by
  have H : Known c := .of_reach hreach
  obtain ⟨hcan, hroot, hnone, hpar⟩ := id hnew
  obtain ⟨b, hb, _⟩ := H.real.has_iff.mp hpar
  rw [H.real.attr?] at hnone
  have hne : parentPath l ≠ l := hcan.parentPath_ne hroot
  obtain ⟨c₁, h₁, H₁⟩ := symlink_placed target linked H.wf hne hnone hb
  have hadd : Added c l b c₁ := H₁.added fun hd => (not_isDir_of_isLnk link_isLnk hd).elim
  have hlink : IsLink target (⟨c₁, l⟩ : Following σ) := by
    refine ⟨H.added hnew hb hadd, link target linked, ?_, link_isLnk, rfl⟩
    rw [H₁.cached, update_of_ne hne.symm, update_self]
  constructor
  · intro h
    exact (hlink.reads_iff hn).mp (h c₁ h₁ ⟨c₁, l⟩ .init)
  · intro hlt c' hr s hs
    cases h₁.symm.trans hr
    have H₂ : IsLink target s :=
      hs.invariant hlink fun _ _ _ H hk hs => H.follow hk hs
    exact (H₂.reads_iff hn).mpr hlt

end Fs

namespace Fs

open scoped PlainArchive

/-- A target of two bytes and its terminator do not fit in a buffer of two. -/
theorem exists_unread_target : ∃ c c₁ : Fs (Str → Option Str) Unit,
    Reach (step Dht.table idle ⟨0, 0⟩) (Issued Dht.table) (start ⟨0, 0⟩ (fun _ => none) ()) c ∧
    New Dht.table c ['/', 'l'] ∧ symlink ['t', 'u'] ['/', 'l'] ⟨1, 0⟩ c = .ok 0 c₁ ∧
    ¬ReadsTarget c₁ ['/', 'l'] ['t', 'u'] 2 := by
  let c : Fs (Str → Option Str) Unit := start ⟨0, 0⟩ (fun _ => none) ()
  have hnew : New Dht.table c ['/', 'l'] := by decide +kernel
  have h : (Exec.result? (symlink ['t', 'u'] ['/', 'l'] ⟨1, 0⟩ c)).map (fun (r, c₁) =>
      (r, (Exec.result? (readlink Dht.table ['/', 'l'] ['x', 'x'] 2 c₁)).isNone)) =
      some (0, true) := by
    decide +kernel
  obtain ⟨⟨r, c₁⟩, hr, h⟩ := Option.map_eq_some_iff.mp h
  obtain ⟨rfl, hnone⟩ := Prod.mk.inj h
  refine ⟨c, c₁, .init, hnew, Exec.eq_ok_of_result? hr, ?_⟩
  intro hread
  obtain ⟨out, c', hok, _⟩ := hread ['x', 'x'] rfl
  rw [hok] at hnone
  cases hnone

/-- The target is read at the path that the link was renamed to. -/
theorem readsTarget_iff_example : ∃ c₁ c₂ : Fs (Str → Option Str) Unit,
    symlink ['t', 'u'] ['/', 'l'] ⟨1, 0⟩ (start ⟨0, 0⟩ (fun _ => none) ()) = .ok 0 c₁ ∧
    rename Dht.table ['/', 'l'] ['/', 'm'] c₁ = .ok 0 c₂ ∧
    ReadsTarget c₂ ['/', 'm'] ['t', 'u'] 3 := by
  let c : Fs (Str → Option Str) Unit := start ⟨0, 0⟩ (fun _ => none) ()
  have hnew : New Dht.table c ['/', 'l'] := by decide +kernel
  have h : ((Exec.result? (symlink ['t', 'u'] ['/', 'l'] ⟨1, 0⟩ c)).bind fun (r, c₁) =>
      (Exec.result? (rename Dht.table ['/', 'l'] ['/', 'm'] c₁)).map fun (r', _) =>
        (r, r', decide (Issued Dht.table c₁ (.rename ['/', 'l'] ['/', 'm'])),
          attr? Dht.table c₁ ['/', 'm'])) = some (0, 0, true, none) := by
    decide +kernel
  obtain ⟨⟨r, c₁⟩, h₁, h⟩ := Option.bind_eq_some_iff.mp h
  obtain ⟨⟨r', c₂⟩, h₂, h⟩ := Option.map_eq_some_iff.mp h
  simp only [Prod.mk.injEq, decide_eq_true_eq] at h
  obtain ⟨rfl, rfl, hi, hnone⟩ := h
  have h₁ := Exec.eq_ok_of_result? h₁
  have h₂ := Exec.eq_ok_of_result? h₂
  have hfollow : follow idle ⟨0, 0⟩ ⟨c₁, ['/', 'l']⟩ (.rename ['/', 'l'] ['/', 'm']) =
      some ⟨c₂, ['/', 'm']⟩ :=
    Option.map_eq_some_iff.mpr ⟨c₂, after_eq_some.mpr ⟨0, h₂⟩, rfl⟩
  exact ⟨c₁, c₂, h₁, h₂, (readsTarget_iff idle ⟨0, 0⟩ ⟨0, 0⟩ () .init hnew ['t', 'u'] ⟨1, 0⟩
    (by decide)).mpr (by decide) c₁ h₁ ⟨c₂, ['/', 'm']⟩
    (.step .init ⟨hi, .inr ⟨_, rfl, hnone⟩⟩ hfollow)⟩

end Fs

end ColonyFS

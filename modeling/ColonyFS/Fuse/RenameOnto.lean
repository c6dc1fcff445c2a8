import ColonyFS.Fuse.RenameTree

/-!
# Renaming a file onto another one

`rename` does not look whether the new path exists: the leaf goes to the end of the list of its
parent in any case. A file that was there is replaced, and its name is in the list twice.
-/

namespace ColonyFS

open Paths Function

namespace Fs

variable {σ : Type} [BinaryArchive Instruction] [BinaryArchive Fattribute.Record]
  {P : Policy ChunkData σ} {process : Process} {c c' : Fs (Str → Option Str) σ}
  {path old new n : Str} {a b : Fattribute}

/-- Each child is listed exactly once by its parent. -/
def ListedOnce (c : Fs (Str → Option Str) σ) : Prop :=
  ∀ path a, attr? Dht.table c path = some a → path ≠ ['/'] →
    Has Dht.table c (parentPath path) Fattribute.IsDir ∧
      (c.listed (parentPath path)).count (filename path) = 1

/-- Two files. -/
structure Files (c : Fs (Str → Option Str) σ) (old new : Str) : Prop where
  ne : old ≠ new
  old : Has Dht.table c old fun a => ¬a.IsDir
  new : Has Dht.table c new fun a => ¬a.IsDir

/-- `new` has the attribute that `old` had, its parent lists it `k` times, and nothing else has
changed. -/
structure TakenOver (c c' : Fs (Str → Option Str) σ) (old new : Str) (k : Nat) : Prop where
  count_new : (c'.listed (parentPath new)).count (filename new) = k
  not_mem_old : filename old ∉ c'.listed (parentPath old)
  attr_new : attr? Dht.table c' new = attr? Dht.table c old
  attr_old : attr? Dht.table c' old = none
  attr : ∀ path, path ≠ old → path ≠ new → path ≠ parentPath old → path ≠ parentPath new →
    attr? Dht.table c' path = attr? Dht.table c path
  stbuf : ∀ path, path ≠ old → path ≠ new →
    (attr? Dht.table c' path).map (·.stbuf) = (attr? Dht.table c path).map (·.stbuf)
  /-- The other entries of the two parents, and the lists of all other paths. -/
  count : ∀ path n, path ≠ old → path ≠ new → (path = parentPath old → n ≠ filename old) →
    (path = parentPath new → n ≠ filename new) →
    (c'.listed path).count n = (c.listed path).count n

/-- The new path is listed exactly once. -/
def Replaced (c c' : Fs (Str → Option Str) σ) (old new : Str) : Prop := TakenOver c c' old new 1

/-! ## Lists -/

theorem listed_eq (H : Known c) : c.listed path = ((c.cached path).getD .new).list := by
  rw [listed, H.real.attr?]

theorem listed_of_cached (H : Known c) (ha : c.cached path = some a) : c.listed path = a.list := by
  rw [listed_eq H, ha, Option.getD_some]

omit [BinaryArchive Fattribute.Record] in
/-- The list of a path when the entries of `rename` have been made. -/
theorem list_relisted (c : Fs (Str → Option Str) σ) (old new path : Str) :
    ((c.relisted old new path).getD .new).list =
      (if path = parentPath old then ((c.cached path).getD .new).list.erase (filename old)
        else ((c.cached path).getD .new).list) ++
      if path = parentPath new then [filename new] else [] := by
  have hu : ((c.unlisted old path).getD .new).list =
      if path = parentPath old then ((c.cached path).getD .new).list.erase (filename old)
      else ((c.cached path).getD .new).list := by
    obtain rfl | hp := eq_or_ne path (parentPath old)
    · rw [unlisted, update_self, if_pos rfl]; rfl
    · rw [unlisted, update_of_ne hp, if_neg hp]
  rw [← hu]
  obtain rfl | hp := eq_or_ne path (parentPath new)
  · rw [relisted, update_self, if_pos rfl]; rfl
  · rw [relisted, update_of_ne hp, if_neg hp, List.append_nil]

omit [BinaryArchive Fattribute.Record] in
/-- No entries but the two have changed. -/
theorem count_relisted (c : Fs (Str → Option Str) σ) (h₁ : path = parentPath old → n ≠ filename old)
    (h₂ : path = parentPath new → n ≠ filename new) :
    ((c.relisted old new path).getD .new).list.count n =
      ((c.cached path).getD .new).list.count n := by
  rw [list_relisted, List.count_append]
  have hadded : (if path = parentPath new then [filename new] else []).count n = 0 := by
    split
    · next hp => exact List.count_eq_zero_of_not_mem (by simpa using h₂ hp)
    · rfl
  rw [hadded, Nat.add_zero]
  split
  · next hp => exact List.count_erase_of_ne (h₁ hp)
  · rfl

omit [BinaryArchive Fattribute.Record] in
/-- The new entry is at the end, after those of its name that were there. -/
theorem count_relisted_new (c : Fs (Str → Option Str) σ)
    (hn : parentPath old = parentPath new → filename old ≠ filename new) :
    ((c.relisted old new (parentPath new)).getD .new).list.count (filename new) =
      ((c.cached (parentPath new)).getD .new).list.count (filename new) + 1 := by
  rw [list_relisted, if_pos rfl, List.count_append, List.count_singleton_self]
  split
  · next hp => rw [List.count_erase_of_ne (hn hp.symm).symm]
  · rfl

omit [BinaryArchive Fattribute.Record] in
/-- An entry that was there once is gone. -/
theorem not_mem_relisted_old
    (h : ((c.cached (parentPath old)).getD .new).list.count (filename old) = 1)
    (hn : parentPath old = parentPath new → filename old ≠ filename new) :
    filename old ∉ ((c.relisted old new (parentPath old)).getD .new).list := by
  rw [list_relisted, if_pos rfl]
  intro hm
  obtain hm | hm := List.mem_append.mp hm
  · have hpos := List.count_pos_iff.mpr hm
    rw [List.count_erase_self, h] at hpos
    cases hpos
  · split at hm
    · next hp => exact hn hp (List.mem_singleton.mp hm)
    · cases hm

omit [BinaryArchive Fattribute.Record] in
/-- The two parents keep their `stbuf`. -/
theorem stbuf_relisted (hb : ∃ b, c.cached (parentPath old) = some b)
    (hd : ∃ d, c.cached (parentPath new) = some d) (path : Str) :
    (c.relisted old new path).map (·.stbuf) = (c.cached path).map (·.stbuf) := by
  obtain ⟨b, hb⟩ := hb
  have hu : ∀ path, (c.unlisted old path).map (·.stbuf) = (c.cached path).map (·.stbuf) := by
    intro path
    obtain rfl | hp := eq_or_ne path (parentPath old)
    · rw [unlisted, update_self, branchOf, hb]; rfl
    · rw [unlisted, update_of_ne hp]
  obtain rfl | hp := eq_or_ne path (parentPath new)
  · obtain ⟨d, hd⟩ := hd
    have h := hu (parentPath new)
    rw [← h, relisted, update_self]
    cases hx : c.unlisted old (parentPath new) with
    | none =>
      rw [hx, hd] at h
      cases h
    | some x => rfl
  · rw [relisted, update_of_ne hp, hu]

/-! ## Two files -/

namespace Files

theorem cached (hf : Files c old new) (H : Known c) : ∃ a b, c.cached old = some a ∧
    c.cached new = some b ∧ ¬a.IsDir ∧ ¬b.IsDir := by
  obtain ⟨a, ha, hna⟩ := H.real.has_iff.mp hf.old
  obtain ⟨b, hb, hnb⟩ := H.real.has_iff.mp hf.new
  exact ⟨a, b, ha, hb, hna, hnb⟩

/-- A directory is neither of them. -/
theorem dir_ne (hf : Files c old new) (hd : Has Dht.table c path Fattribute.IsDir) :
    path ≠ old ∧ path ≠ new := by
  obtain ⟨a, ha, hd⟩ := hd
  constructor
  · rintro rfl
    obtain ⟨b, hb, hnb⟩ := hf.old
    cases (Option.mem_def.mp ha).symm.trans hb
    exact hnb hd
  · rintro rfl
    obtain ⟨b, hb, hnb⟩ := hf.new
    cases (Option.mem_def.mp ha).symm.trans hb
    exact hnb hd

end Files

/-- `rename` returns 0 and does everything but take the entry of the file that it replaces off the
list. -/
theorem rename_onto (H : Known c) (hl : ListedOnce c) (hf : Files c old new) :
    ∃ c', rename Dht.table old new c = .ok 0 c' ∧ TakenOver c c' old new 2 := by
  obtain ⟨a, b, ha, hb, hna, hnb⟩ := hf.cached H
  have hold : old ≠ ['/'] := H.ne_root ha hna
  have hnew : new ≠ ['/'] := H.ne_root hb hnb
  obtain ⟨hdo, hco⟩ := hl old a (by rw [H.real.attr?, ha]) hold
  obtain ⟨hdn, hcn⟩ := hl new b (by rw [H.real.attr?, hb]) hnew
  obtain ⟨hoo, hon⟩ := hf.dir_ne hdo
  obtain ⟨hno, hnn⟩ := hf.dir_ne hdn
  have hmem : filename old ∈ (c.branchOf old).list := by
    rw [branchOf_list H]
    exact List.count_pos_iff.mp (by rw [hco]; exact Nat.one_pos)
  obtain ⟨c', hr, h⟩ := rename_spec H.wf Known.puts hf.ne hmem ((relisted_eq hoo hno).trans ha)
  have H' : Known c' := H.renamed hold ha (H.sound.canonical new b hb) hnew h
  have hc : ∀ path, path ≠ old → path ≠ new → c'.cached path = c.relisted old new path := by
    intro path h₁ h₂
    rw [h.cached, update_of_ne h₁, update_of_ne h₂]
  have hlist : ∀ path, path ≠ old → path ≠ new →
      c'.listed path = ((c.relisted old new path).getD .new).list := by
    intro path h₁ h₂
    rw [listed_eq H', hc path h₁ h₂]
  have hleaf : parentPath old = parentPath new → filename old ≠ filename new := by
    intro hp
    exact (H.sound.canonical old a ha).filename_ne (H.sound.canonical new b hb) hold hnew hp hf.ne
  refine ⟨c', hr, ?_, ?_, ?_, ?_, ?_, ?_, ?_⟩
  · rw [hlist _ hno hnn, count_relisted_new c hleaf, ← listed_eq H, hcn]
  · rw [hlist _ hoo hon]
    exact not_mem_relisted_old (by rw [← listed_eq H, hco]) hleaf
  · rw [H'.real.attr?, H.real.attr?, h.cached, update_of_ne hf.ne.symm, update_self, ha]
  · rw [H'.real.attr?, h.cached, update_self]
  · intro path h₁ h₂ h₃ h₄
    rw [H'.real.attr?, H.real.attr?, hc path h₁ h₂, relisted, update_of_ne h₄, unlisted,
      update_of_ne h₃]
  · intro path h₁ h₂
    rw [H'.real.attr?, H.real.attr?, hc path h₁ h₂]
    obtain ⟨d, hd, _⟩ := H.real.has_iff.mp hdo
    obtain ⟨g, hg, _⟩ := H.real.has_iff.mp hdn
    exact stbuf_relisted ⟨d, hd⟩ ⟨g, hg⟩ path
  · intro path n h₁ h₂ h₃ h₄
    rw [hlist path h₁ h₂, listed_eq H]
    exact count_relisted c h₃ h₄

/-- A `rename` onto an existing file never leaves its parent with one entry for it. -/
theorem rename_not_replaced (P : Policy ChunkData σ) (process : Process) (now : Timespec) (e : σ)
    (hreach : Machine.Reach (step Dht.table P process) (Issued Dht.table)
      (start now (fun _ => none) e) c) (hl : ListedOnce c) (hf : Files c old new) :
    ¬∀ c', rename Dht.table old new c = .ok 0 c' → Replaced c c' old new := by
  intro hrep
  obtain ⟨c', hr, h⟩ := rename_onto (.of_reach hreach) hl hf
  have hone := (hrep c' hr).count_new
  rw [h.count_new] at hone
  cases hone

/-! ## Namespaces in which each child is listed once -/

theorem ListedOnce.start (now : Timespec) (e : σ) : ListedOnce (start now (fun _ => none) e) := by
  intro path a ha hne
  obtain ⟨_, _, _, _, _, _, hc⟩ := start_spec now (fun _ : Str => (none : Option Str)) e
  rw [(Known.init now e).real.attr?, hc, update_of_ne hne] at ha
  cases ha

/-- A new path that its parent does not list yet. -/
theorem ListedOnce.added (hl : ListedOnce c) (H : Known c) (H' : Known c')
    (hnew : New Dht.table c path) (hnot : filename path ∉ c.listed (parentPath path))
    (hb : c.cached (parentPath path) = some b) (hd : b.IsDir) (h : Added c path b c') :
    ListedOnce c' := by
  obtain ⟨hcan, hne, hnone, _⟩ := hnew
  rw [H.real.attr?] at hnone
  obtain ⟨-, -, a, -, hc⟩ := h
  have hpar : c'.cached (parentPath path) = some { b with list := b.list ++ [filename path] } := by
    rw [hc, update_self]
  rw [listed_of_cached H hb] at hnot
  intro q x hx hq
  rw [H'.real.attr?] at hx
  obtain rfl | hqp := eq_or_ne q path
  · refine ⟨H'.real.has_iff.mpr ⟨_, hpar, hd⟩, ?_⟩
    rw [listed_of_cached H' hpar, List.count_append, List.count_singleton_self,
      List.count_eq_zero_of_not_mem hnot]
  -- The path had an attribute before, so its parent listed it.
  obtain ⟨y, hy⟩ : ∃ y, c.cached q = some y := by
    rw [hc] at hx
    obtain rfl | hqb := eq_or_ne q (parentPath path)
    · exact ⟨b, hb⟩
    · rw [update_of_ne hqb, update_of_ne hqp] at hx
      exact ⟨x, hx⟩
  obtain ⟨hdir, hcount⟩ := hl q y (by rw [H.real.attr?, hy]) hq
  obtain ⟨d, hpd, hdd⟩ := H.real.has_iff.mp hdir
  by_cases hsame : parentPath q = parentPath path
  · rw [hsame] at hpd hcount ⊢
    cases hb.symm.trans hpd
    rw [listed_of_cached H hb] at hcount
    refine ⟨H'.real.has_iff.mpr ⟨_, hpar, hd⟩, ?_⟩
    have hleaf := (H.sound.canonical q y hy).filename_ne hcan hq hne hsame hqp
    rw [listed_of_cached H' hpar, List.count_append, hcount,
      List.count_eq_zero_of_not_mem (by simpa using hleaf)]
  · have hother : c'.cached (parentPath q) = some d := by
      rw [hc, update_of_ne hsame, update_of_ne, hpd]
      intro h
      rw [h, hnone] at hpd
      cases hpd
    rw [listed_of_cached H hpd] at hcount
    exact ⟨H'.real.has_iff.mpr ⟨d, hother, hdd⟩, by rw [listed_of_cached H' hother, hcount]⟩

/-- The act adds a path that the parent does not list. -/
def Adds (c : Fs (Str → Option Str) σ) (act : Act) : Prop :=
  Issued Dht.table c act ∧ match act with
    | .create path _ _ | .mkdir path _ _ | .symlink _ path _ =>
      filename path ∉ c.listed (parentPath path)
    | _ => False

instance (c : Fs (Str → Option Str) σ) : (act : Act) → Decidable (Adds c act)
  | .create .. | .mkdir .. | .symlink .. => inferInstanceAs (Decidable (_ ∧ _ ∉ _))
  | .chmod .. | .chown .. | .getattr .. | .read .. | .readdir .. | .readlink .. | .rename ..
  | .rmdir .. | .truncate .. | .unlink .. | .utime .. | .write .. | .dhtTask .. =>
    inferInstanceAs (Decidable (_ ∧ False))

/-- A callback that adds the path, or does nothing. -/
theorem ListedOnce.of_new (hl : ListedOnce c) (H : Known c) (H' : Known c')
    (hnew : New Dht.table c path) (hnot : filename path ∉ c.listed (parentPath path))
    (hadd : ∀ b, parentPath path ≠ path → c.cached path = none →
      c.cached (parentPath path) = some b → c' = c ∨ Added c path b c') : ListedOnce c' := by
  obtain ⟨hcan, hne, hnone, hpar⟩ := id hnew
  obtain ⟨b, hb, hd⟩ := H.real.has_iff.mp hpar
  rw [H.real.attr?] at hnone
  obtain rfl | hadd := hadd b (hcan.parentPath_ne hne) hnone hb
  · exact hl
  · exact hl.added H H' hnew hnot hb hd hadd

theorem ListedOnce.of_adds {now : Timespec} {e : σ}
    (h : Machine.Reach (step Dht.table P process) Adds (Fs.start now (fun _ => none) e) c) :
    ListedOnce c := by
  suffices hboth : Known c ∧ ListedOnce c from hboth.2
  refine Machine.Reach.invariant (P := fun c => Known c ∧ ListedOnce c) h
    ⟨.init now e, .start now e⟩ ?_
  rintro s act s' ⟨H, hl⟩ ⟨hi, hnot⟩ hs
  have H' : Known s' := H.step hi hs
  refine ⟨H', ?_⟩
  cases act with
  | create path mode now =>
    obtain ⟨r, hr⟩ := after_eq_some.mp hs
    exact hl.of_new H H' hi hnot fun b hne hp hb => create_cases H.wf hne hp hb hr
  | mkdir path mode now =>
    obtain ⟨r, hr⟩ := after_eq_some.mp hs
    exact hl.of_new H H' hi.1 hnot fun b hne hp hb => mkdir_cases H.wf hne hp hb hr
  | symlink target path now =>
    refine hl.of_new H H' hi hnot ?_
    intro b hne hp hb
    obtain ⟨c₁, hr, H₁⟩ := symlink_spec H.wf hne hp hb
    cases after_ok hr hs
    exact .inr H₁
  | _ => exact hnot.elim

end Fs

namespace Fs

open scoped PlainArchive

/-- Of two files, one is renamed onto the other. -/
theorem exists_files : ∃ c : Fs (Str → Option Str) Unit,
    Machine.Reach (step Dht.table idle ⟨0, 0⟩) (Issued Dht.table)
      (start ⟨0, 0⟩ (fun _ => none) ()) c ∧
    ListedOnce c ∧ Files c ['/', 'a'] ['/', 'b'] ∧
    ∃ c', rename Dht.table ['/', 'a'] ['/', 'b'] c = .ok 0 c' ∧
      c'.listed ['/'] = [['b'], ['b']] := by
  have h : (Machine.run (Machine.guarded (step Dht.table idle ⟨0, 0⟩) Adds)
      (start ⟨0, 0⟩ (fun _ => none) ())
      [.create ['/', 'a'] 0o644 ⟨1, 0⟩, .create ['/', 'b'] 0o644 ⟨2, 0⟩]).map (fun c =>
        (decide (Has Dht.table c ['/', 'a'] fun a => ¬a.IsDir),
          decide (Has Dht.table c ['/', 'b'] fun a => ¬a.IsDir),
          (Exec.result? (rename Dht.table ['/', 'a'] ['/', 'b'] c)).map
            fun (r, c') => (r, decide (c'.listed ['/'] = [['b'], ['b']])))) =
      some (true, true, some (0, true)) := by
    decide +kernel
  obtain ⟨c, hc, h⟩ := Option.map_eq_some_iff.mp h
  simp only [Prod.mk.injEq, decide_eq_true_eq] at h
  obtain ⟨ha, hb, h⟩ := h
  obtain ⟨⟨r, c'⟩, hr, h⟩ := Option.map_eq_some_iff.mp h
  simp only [Prod.mk.injEq, decide_eq_true_eq] at h
  obtain ⟨rfl, hlist⟩ := h
  have hreach := Machine.Reach.of_run_guarded _ hc
  exact ⟨c, hreach.mono fun _ _ h => h.1, .of_adds hreach, ⟨by decide, ha, hb⟩, c',
    Exec.eq_ok_of_result? hr, hlist⟩

/-- The name of the file that was there stays next to the new one. -/
theorem rename_lists_twice : ∃ c c' : Fs (Str → Option Str) Unit,
    Machine.Reach (step Dht.table idle ⟨0, 0⟩) (Issued Dht.table)
      (start ⟨0, 0⟩ (fun _ => none) ()) c ∧
    ListedOnce c ∧ Files c ['/', 'a'] ['/', 'b'] ∧
    rename Dht.table ['/', 'a'] ['/', 'b'] c = .ok 0 c' ∧ c'.listed ['/'] = [['b'], ['b']] ∧
    ¬Replaced c c' ['/', 'a'] ['/', 'b'] := by
  obtain ⟨c, hreach, hl, hf, c', hr, hlist⟩ := exists_files
  refine ⟨c, c', hreach, hl, hf, hr, hlist, ?_⟩
  intro hrep
  have hone : (c'.listed ['/']).count ['b'] = 1 := hrep.count_new
  rw [hlist] at hone
  exact absurd hone (by decide)

theorem rename_not_replaced_example : ∃ c : Fs (Str → Option Str) Unit,
    ¬∀ c', rename Dht.table ['/', 'a'] ['/', 'b'] c = .ok 0 c' →
      Replaced c c' ['/', 'a'] ['/', 'b'] := by
  obtain ⟨c, hreach, hl, hf, _⟩ := exists_files
  exact ⟨c, rename_not_replaced idle ⟨0, 0⟩ ⟨0, 0⟩ () hreach hl hf⟩

end Fs

end ColonyFS

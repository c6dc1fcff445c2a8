import ColonyFS.Fuse.Step
import ColonyFS.Lib.Listing

/-!
# Renaming a directory

`rename` moves the attribute of its own path. The attributes of the descendants are filed under
their full paths, which `rename` does not look for.

The DHT is one whose keys do not collide, so that no path gets an attribute by the flush of another
one. `Known` is what holds of a client in any run, directories renamed and flushes included.
-/

namespace ColonyFS

open Paths Function

namespace Fs

variable {σ : Type} [BinaryArchive Instruction] [BinaryArchive Fattribute.Record]
  {P : Policy ChunkData σ} {process : Process} {c c' : Fs (Str → Option Str) σ}
  {path old new : Str} {a b : Fattribute} {ds es xs : List Str} {m : Str → Option Fattribute}

/-- The attributes of a client, in any run. -/
structure Sound (m : Str → Option Fattribute) : Prop where
  root : ∃ a, m ['/'] = some a ∧ a.IsDir
  canonical : ∀ path a, m path = some a → Canonical path
  nlink : ∀ path a, m path = some a → a.IsDir → a.stbuf.nlink ≠ 0

namespace Sound

omit [BinaryArchive Instruction] [BinaryArchive Fattribute.Record] in
theorem set (H : Sound m) (hp : Canonical path) (hn : a.IsDir → a.stbuf.nlink ≠ 0)
    (hr : path = ['/'] → a.IsDir) : Sound (update m path (some a)) where
  root := by
    obtain rfl | h := eq_or_ne path ['/']
    · exact ⟨a, update_self .., hr rfl⟩
    · rw [update_of_ne h.symm]; exact H.root
  canonical := Table.forall_update H.canonical fun _ _ => hp
  nlink := Table.forall_update H.nlink fun b hb => Option.some.inj hb ▸ hn

omit [BinaryArchive Instruction] [BinaryArchive Fattribute.Record] in
/-- A change to the list of a path, which may get an attribute by it. -/
theorem relist (H : Sound m) (hp : Canonical path) (l : List Str) :
    Sound (update m path (some { (m path).getD .new with list := l })) := by
  cases h : m path with
  | none =>
    have hzero : ¬((0 : UInt32) &&& S_IFMT = S_IFDIR) := by decide
    refine H.set hp (fun hd => (hzero hd).elim) ?_
    intro he
    obtain ⟨r, hr, _⟩ := H.root
    rw [he, hr] at h
    cases h
  | some b =>
    refine H.set hp (H.nlink path b h) ?_
    intro he
    obtain ⟨r, hr, hd⟩ := H.root
    rw [he, hr] at h
    cases h
    exact hd

omit [BinaryArchive Instruction] [BinaryArchive Fattribute.Record] in
theorem erase (H : Sound m) (hne : path ≠ ['/']) : Sound (update m path none) where
  root := by rw [update_of_ne hne.symm]; exact H.root
  canonical := Table.forall_update H.canonical fun _ hb => nomatch hb
  nlink := Table.forall_update H.nlink fun _ hb => nomatch hb

end Sound

/-- The values in the DHT are of attributes that are still cached, apart from the empty string. -/
structure Known (c : Fs (Str → Option Str) σ) : Prop where
  wf : c.WF
  sound : Sound c.cached
  kept : ∀ key value, c.dht key = some value → value = [] ∨
    ∃ path a, key = slot path ∧ c.cached path = some a

namespace Known

theorem real (H : Known c) : Real Dht.table c := by
  intro path h
  apply attr?_eq_none h
  intro s value hget
  obtain hv | ⟨q, a, hq, ha⟩ := H.kept _ _ (Dht.table_get hget)
  · exact hv
  · cases slot_inj.mp hq
    rw [h] at ha
    cases ha

omit [BinaryArchive Instruction] [BinaryArchive Fattribute.Record] in
theorem puts : Puts Dht.table := fun _ _ _ => ⟨_, _, rfl⟩

omit [BinaryArchive Fattribute.Record] in
/-- No attribute goes from the cache. -/
theorem kept_of_exists (H : Known c) (hc : ∀ q, (∃ a, c.cached q = some a) → ∃ b, m q = some b)
    (key value : Str) (h : c.dht key = some value) :
    value = [] ∨ ∃ path a, key = slot path ∧ m path = some a := by
  obtain hv | ⟨q, a, hq, ha⟩ := H.kept key value h
  · exact .inl hv
  · obtain ⟨b, hb⟩ := hc q ⟨a, ha⟩
    exact .inr ⟨q, b, hq, hb⟩

omit [BinaryArchive Fattribute.Record] in
/-- A path is removed from the cache together with its value. -/
theorem kept_erase (H : Known c) {ok : Bool} {dht : Str → Option Str}
    (hput : Dht.table.put (slot path) [] c.dht = .ok ok dht)
    (hc : ∀ q, (∃ a, c.cached q = some a) → ∃ b, m q = some b)
    (key value : Str) (h : dht key = some value) :
    value = [] ∨ ∃ q a, key = slot q ∧ update m path none q = some a := by
  rw [Dht.table_put hput] at h
  obtain rfl | hk := eq_or_ne key (slot path)
  · rw [update_self] at h
    exact .inl (Option.some.inj h).symm
  · rw [update_of_ne hk] at h
    obtain hv | ⟨q, b, hq, hb⟩ := H.kept_of_exists hc key value h
    · exact .inl hv
    · refine .inr ⟨q, b, hq, ?_⟩
      rw [update_of_ne, hb]
      rintro rfl
      exact hk hq

omit [BinaryArchive Fattribute.Record] in
theorem retouched (H : Known c) (h : Retouched c path c') : Known c' := by
  obtain ⟨wf, hdht, a, b, ha, hab, hc⟩ := h
  have hdir : b.IsDir ↔ a.IsDir := by rw [Fattribute.IsDir, hab.type, Fattribute.IsDir]
  refine ⟨wf, ?_, ?_⟩
  · rw [hc]
    apply H.sound.set (H.sound.canonical path a ha)
    · intro hd
      rw [hab.nlink]; exact H.sound.nlink path a ha (hdir.mp hd)
    · intro he
      obtain ⟨r, hr, hd⟩ := H.sound.root
      rw [he, hr] at ha
      cases ha
      exact hdir.mpr hd
  · rw [hdht, hc]
    exact H.kept_of_exists fun q hq => Table.exists_update hq

theorem added (H : Known c) (hnew : New Dht.table c path) (hb : c.cached (parentPath path) = some b)
    (h : Added c path b c') : Known c' := by
  obtain ⟨wf, hdht, a, hfresh, hc⟩ := h
  obtain ⟨hcan, hne, hnone, _⟩ := hnew
  rw [H.real.attr?] at hnone
  have hbranch : update c.cached path (some a) (parentPath path) = some b := by
    rw [update_of_ne (hcan.parentPath_ne hne), hb]
  have hset : Sound (update c.cached path (some a)) :=
    H.sound.set hcan (fun hd => (hfresh hd).2) fun he => (hne he).elim
  have hlist := hset.relist (hcan.parent hne) (b.list ++ [filename path])
  rw [hbranch, Option.getD_some, ← hc] at hlist
  refine ⟨wf, hlist, ?_⟩
  rw [hdht, hc]
  exact H.kept_of_exists fun q hq => Table.exists_update (Table.exists_update hq)

omit [BinaryArchive Fattribute.Record] in
theorem removed (H : Known c) (ha : c.cached path = some a) (hne : path ≠ ['/']) {l : List Str}
    (h : Removed Dht.table c path (c.branchOf path) l c') : Known c' := by
  obtain ⟨wf, ⟨ok, hput⟩, hc⟩ := h
  refine ⟨wf, ?_, ?_⟩ <;> rw [hc]
  · exact (H.sound.relist ((H.sound.canonical path a ha).parent hne) l).erase hne
  · exact H.kept_erase hput fun q hq => Table.exists_update hq

omit [BinaryArchive Fattribute.Record] in
theorem ne_root (H : Known c) (ha : c.cached path = some a) (hna : ¬a.IsDir) : path ≠ ['/'] := by
  rintro rfl
  obtain ⟨r, hr, hd⟩ := H.sound.root
  cases ha.symm.trans hr
  exact hna hd

omit [BinaryArchive Fattribute.Record] in
theorem renamed (H : Known c) (hold : old ≠ ['/']) (ha : c.cached old = some a)
    (hcan : Canonical new) (hne : new ≠ ['/']) (h : Renamed Dht.table c old new a c') :
    Known c' := by
  obtain ⟨wf, ⟨ok, hput⟩, hc⟩ := h
  have hrelisted : Sound (c.relisted old new) :=
    (H.sound.relist ((H.sound.canonical old a ha).parent hold) _).relist (hcan.parent hne) _
  refine ⟨wf, ?_, ?_⟩ <;> rw [hc]
  · exact (hrelisted.set hcan (H.sound.nlink old a ha) fun he => (hne he).elim).erase hold
  · apply H.kept_erase hput
    intro q hq
    have h₁ : ∃ b, c.unlisted old q = some b := Table.exists_update hq
    have h₂ : ∃ b, c.relisted old new q = some b := Table.exists_update h₁
    exact Table.exists_update h₂

theorem flushed (H : Known c) (wf : c'.WF) (hc : c'.cached = c.cached) (hdht : c'.dht = c.dht ∨
    ∃ a ok, c.cached path = some a ∧
      Dht.table.put (slot path) (BinaryArchive.save a.serialize) c.dht = .ok ok c'.dht) :
    Known c' := by
  refine ⟨wf, hc ▸ H.sound, ?_⟩
  intro key value hv
  rw [hc]
  obtain hdht | ⟨a, ok, ha, hput⟩ := hdht
  · exact H.kept key value (hdht ▸ hv)
  · rw [Dht.table_put hput] at hv
    obtain rfl | hk := eq_or_ne key (slot path)
    · exact .inr ⟨path, a, rfl, ha⟩
    · rw [update_of_ne hk] at hv
      exact H.kept key value hv

omit [BinaryArchive Fattribute.Record] in
theorem init (now : Timespec) (e : σ) : Known (start now (fun _ => none) e) := by
  obtain ⟨wf, hdht, a, hd, _, hn, hc⟩ := start_spec now (fun _ : Str => (none : Option Str)) e
  refine ⟨wf, ?_, fun key value h => by rw [hdht] at h; cases h⟩
  rw [hc]
  refine ⟨⟨a, update_self .., hd⟩, ?_, ?_⟩
  · exact Table.forall_update nofun fun _ _ => ⟨[], by simp [Valid], rfl⟩
  · exact Table.forall_update nofun fun b hb _ => Option.some.inj hb ▸ hn

theorem step {act : Act} (H : Known c) (hi : Issued Dht.table c act)
    (h : Fs.step Dht.table P process c act = some c') : Known c' := by
  cases step_change H.wf H.real puts H.sound.canonical hi h with
  | same => exact H
  | retouched h => exact H.retouched h
  | added hnew hb _ h => exact H.added hnew hb h
  | unlinked ha hd h => exact H.removed ha (H.ne_root ha hd) h
  | removed hne ha h => exact H.removed ha hne h
  | renamed _ ha hcan hne _ _ h => exact H.renamed hi.1 ha hcan hne h
  | flushed wf hc hdht => exact H.flushed wf hc hdht

theorem of_reach {now : Timespec} {e : σ} (h : Machine.Reach (Fs.step Dht.table P process)
    (Issued Dht.table) (start now (fun _ => none) e) c) : Known c :=
  h.invariant (.init now e) fun _ _ _ H hi hs => H.step hi hs

end Known

/-- The names in the list of a path. -/
def listed (c : Fs (Str → Option Str) σ) (path : Str) : List Str :=
  ((attr? Dht.table c path).getD .new).list

/-- What was at and below `d` is at and below `e`. -/
structure Moved (c c' : Fs (Str → Option Str) σ) (ds es : List Str) : Prop where
  getattr : ∀ xs a stat, Valid xs → attr? Dht.table c (render (ds ++ xs)) = some a →
    ∃ c'', getattr Dht.table (render (es ++ xs)) stat c' = .ok (0, a.stbuf) c''
  readdir : ∀ xs r c₁, Valid xs → (attr? Dht.table c (render (ds ++ xs))).isSome →
    readdir Dht.table (render (ds ++ xs)) c = .ok r c₁ →
    ∃ c'', readdir Dht.table (render (es ++ xs)) c' = .ok r c''
  gone : ∀ xs, Valid xs → attr? Dht.table c' (render (ds ++ xs)) = none

theorem branchOf_list (H : Known c) : (c.branchOf path).list = c.listed (parentPath path) := by
  rw [listed, H.real.attr?]; rfl

/-- What a directory and the path it is renamed to have to do with each other. -/
structure Apart (c : Fs (Str → Option Str) σ) (ds es : List Str) : Prop where
  source : Valid ds
  target : Valid es
  dir : Has Dht.table c (render ds) Fattribute.IsDir
  new : attr? Dht.table c (render es) = none
  parent : Has Dht.table c (parentPath (render es)) Fattribute.IsDir
  notBelow : ¬ds <+: es

namespace Apart

theorem source_ne (A : Apart c ds es) : render ds ≠ ['/'] := by
  intro h
  have : ds = [] := render_injOn A.source (by simp [Valid] : Valid []) h
  exact A.notBelow (this ▸ List.nil_prefix)

theorem target_ne (A : Apart c ds es) (H : Known c) : render es ≠ ['/'] := by
  intro h
  obtain ⟨r, hr, _⟩ := H.sound.root
  have := A.new
  rw [H.real.attr?, h, hr] at this
  cases this

/-- No path at or below the source is the target or its parent. -/
theorem below_ne (A : Apart c ds es) (H : Known c) (hxs : Valid xs) :
    render (ds ++ xs) ≠ render es ∧ render (ds ++ xs) ≠ parentPath (render es) := by
  have hv : Valid (ds ++ xs) := valid_append.mpr ⟨A.source, hxs⟩
  have h₁ : ds ++ xs ≠ es := fun h => A.notBelow ⟨xs, h⟩
  constructor
  · intro h
    exact h₁ (render_injOn hv A.target h)
  · intro h
    obtain ⟨qs, n, he, hq⟩ := Canonical.cases ⟨es, A.target, rfl⟩ (A.target_ne H)
    obtain ⟨hqs, hn⟩ := valid_concat.mp hq
    rw [he, parentPath_render hn] at h
    have h := render_injOn hv hqs h
    have he := render_injOn A.target hq he
    exact A.notBelow ⟨xs ++ [n], by rw [he, ← h, List.append_assoc]⟩

/-- A path below the source is not the source, nor its parent. -/
theorem below_source (A : Apart c ds es) (hxs : Valid xs) :
    render (ds ++ xs) ≠ parentPath (render ds) ∧ (xs ≠ [] → render (ds ++ xs) ≠ render ds) := by
  have hv : Valid (ds ++ xs) := valid_append.mpr ⟨A.source, hxs⟩
  constructor
  · intro h
    obtain ⟨qs, n, hd, hq⟩ := Canonical.cases ⟨ds, A.source, rfl⟩ A.source_ne
    obtain ⟨hqs, hn⟩ := valid_concat.mp hq
    have he := render_injOn A.source hq hd
    rw [hd, parentPath_render hn] at h
    have h := congrArg List.length (render_injOn hv hqs h)
    rw [he] at h
    simp at h
  · intro hne h
    exact hne (by simpa using render_injOn hv A.source h)

/-- Below the source, the attributes stay where they are. -/
theorem cached_below (A : Apart c ds es) (H : Known c)
    (h : Renamed Dht.table c (render ds) (render es) a c') (hxs : Valid xs) (hne : xs ≠ []) :
    c'.cached (render (ds ++ xs)) = c.cached (render (ds ++ xs)) := by
  obtain ⟨h₁, h₂⟩ := A.below_ne H hxs
  obtain ⟨h₃, h₄⟩ := A.below_source hxs
  rw [h.cached, update_of_ne (h₄ hne), update_of_ne h₁, relisted, update_of_ne h₂, unlisted,
    update_of_ne h₃]

theorem cached_target (A : Apart c ds es) (H : Known c)
    (h : Renamed Dht.table c (render ds) (render es) a c') : c'.cached (render es) = some a := by
  have hne := (A.below_ne H (show Valid [] by simp [Valid])).1
  rw [List.append_nil] at hne
  rw [h.cached, update_of_ne hne.symm, update_self]

theorem rename_listed (A : Apart c ds es) (H : Known c)
    (hlist : filename (render ds) ∈ c.listed (parentPath (render ds))) :
    ∃ a c', c.cached (render ds) = some a ∧ a.IsDir ∧
      rename Dht.table (render ds) (render es) c = .ok 0 c' ∧
      Renamed Dht.table c (render ds) (render es) a c' ∧ Known c' := by
  obtain ⟨a, ha, hd⟩ := H.real.has_iff.mp A.dir
  obtain ⟨h₁, h₂⟩ := A.below_ne H (show Valid [] by simp [Valid])
  obtain ⟨h₃, _⟩ := A.below_source (show Valid [] by simp [Valid])
  rw [List.append_nil] at h₁ h₂ h₃
  rw [← branchOf_list H] at hlist
  obtain ⟨c', hr, h⟩ := rename_spec H.wf Known.puts h₁ hlist
    ((relisted_eq h₃.symm h₂.symm).trans ha)
  exact ⟨a, c', ha, hd, hr, h, H.renamed A.source_ne ha ⟨es, A.target, rfl⟩ (A.target_ne H) h⟩

theorem moved (A : Apart c ds es) (H : Known c) (H' : Known c') (ha : c.cached (render ds) = some a)
    (hd : a.IsDir) (h : Renamed Dht.table c (render ds) (render es) a c')
    (hlen : (filename (render es)).length ≤ 255)
    (hnone : ∀ xs, xs ≠ [] → Valid xs → attr? Dht.table c (render (ds ++ xs)) = none) :
    Moved c c' ds es where
  getattr xs b stat hxs hb := by
    cases xs with
    | nil =>
      rw [List.append_nil, H.real.attr?, ha] at hb
      cases hb
      rw [List.append_nil, getattr_eq (A.cached_target H h), validatePath, decide_eq_true hlen,
        if_neg (by simp), if_pos (H.sound.nlink _ a ha hd)]
      exact ⟨c', rfl⟩
    | cons x xs =>
      rw [hnone _ (by simp) hxs] at hb
      cases hb
  readdir xs r c₁ hxs hb hr := by
    cases xs with
    | nil =>
      rw [List.append_nil, readdir_eq ha] at hr
      cases hr
      rw [List.append_nil, readdir_eq (A.cached_target H h)]
      exact ⟨c', rfl⟩
    | cons x xs =>
      rw [hnone _ (by simp) hxs] at hb
      cases hb
  gone xs hxs := by
    rw [H'.real.attr?]
    obtain rfl | hne := eq_or_ne xs []
    · rw [List.append_nil, h.cached, update_self]
    · rw [A.cached_below H h hxs hne, ← H.real.attr?, hnone xs hne hxs]

end Apart

/-- `rename` moves a directory as a whole if and only if nothing is below it and the new name is
short enough for `getattr`, or it does not return, its parent having no entry for it. -/
theorem rename_moves_iff (P : Policy ChunkData σ) (process : Process) (now : Timespec) (e : σ)
    (hreach : Machine.Reach (step Dht.table P process) (Issued Dht.table)
      (start now (fun _ => none) e) c) (A : Apart c ds es) :
    (∀ c', rename Dht.table (render ds) (render es) c = .ok 0 c' → Moved c c' ds es) ↔
      filename (render ds) ∉ c.listed (parentPath (render ds)) ∨
      (filename (render es)).length ≤ 255 ∧
        ∀ xs, xs ≠ [] → Valid xs → attr? Dht.table c (render (ds ++ xs)) = none := by
  have H : Known c := .of_reach hreach
  by_cases hlist : filename (render ds) ∈ c.listed (parentPath (render ds))
  · obtain ⟨a, c', ha, hd, hr, h, H'⟩ := A.rename_listed H hlist
    simp only [hlist, not_true_eq_false, false_or]
    constructor
    · intro hmoved
      have hm : Moved c c' ds es := hmoved c' hr
      constructor
      · obtain ⟨c'', hg⟩ := hm.getattr [] a .zero (by simp [Valid])
          (by rw [List.append_nil, H.real.attr?, ha])
        rw [List.append_nil, getattr_eq (A.cached_target H h)] at hg
        by_contra hlen
        rw [validatePath, decide_eq_false hlen, if_pos (by simp)] at hg
        cases hg
      · intro xs hne hxs
        have hgone := hm.gone xs hxs
        rw [H'.real.attr?, A.cached_below H h hxs hne, ← H.real.attr?] at hgone
        exact hgone
    · rintro ⟨hlen, hnone⟩ c'' hr'
      cases hr.symm.trans hr'
      exact A.moved H H' ha hd h hlen hnone
  · simp only [hlist, not_false_eq_true, true_or, iff_true]
    intro c' hr
    rw [← branchOf_list H] at hlist
    obtain ⟨c₁, hu⟩ := rename_unlisted Dht.table (render es) H.wf hlist
    cases hu.symm.trans hr

instance : Decidable (Apart c ds es) :=
  decidable_of_iff (Valid ds ∧ Valid es ∧ Has Dht.table c (render ds) Fattribute.IsDir ∧
      attr? Dht.table c (render es) = none ∧
      Has Dht.table c (parentPath (render es)) Fattribute.IsDir ∧ ¬ds <+: es)
    ⟨fun ⟨h₁, h₂, h₃, h₄, h₅, h₆⟩ => ⟨h₁, h₂, h₃, h₄, h₅, h₆⟩,
      fun ⟨h₁, h₂, h₃, h₄, h₅, h₆⟩ => ⟨h₁, h₂, h₃, h₄, h₅, h₆⟩⟩

end Fs

namespace Fs

open scoped PlainArchive

/-- A file stays behind when its directory is renamed. -/
theorem exists_left_behind : ∃ c c' : Fs (Str → Option Str) Unit,
    Machine.Reach (step Dht.table idle ⟨0, 0⟩) (Issued Dht.table)
      (start ⟨0, 0⟩ (fun _ => none) ()) c ∧
      Apart c [['d']] [['e']] ∧ rename Dht.table ['/', 'd'] ['/', 'e'] c = .ok 0 c' ∧
      (attr? Dht.table c' ['/', 'd', '/', 'f']).isSome ∧
      attr? Dht.table c' ['/', 'e', '/', 'f'] = none ∧ ¬Moved c c' [['d']] [['e']] := by
  have h : (Machine.run (Machine.guarded (step Dht.table idle ⟨0, 0⟩) (Issued Dht.table))
      (start ⟨0, 0⟩ (fun _ => none) ())
      [.mkdir ['/', 'd'] 0o755 ⟨1, 0⟩, .create ['/', 'd', '/', 'f'] 0o644 ⟨2, 0⟩]).map
      (fun c => (decide (Apart c [['d']] [['e']]),
        (Exec.result? (rename Dht.table ['/', 'd'] ['/', 'e'] c)).map fun (r, c') =>
          (r, (attr? Dht.table c' ['/', 'd', '/', 'f']).isSome,
            attr? Dht.table c' ['/', 'e', '/', 'f']))) = some (true, some (0, true, none)) := by
    decide +kernel
  obtain ⟨c, hc, h⟩ := Option.map_eq_some_iff.mp h
  simp only [Prod.mk.injEq, decide_eq_true_eq] at h
  obtain ⟨hapart, h⟩ := h
  obtain ⟨⟨r, c'⟩, hr, h⟩ := Option.map_eq_some_iff.mp h
  simp only [Prod.mk.injEq] at h
  obtain ⟨rfl, hf, he⟩ := h
  refine ⟨c, c', .of_run_guarded _ hc, hapart, Exec.eq_ok_of_result? hr, hf, he, ?_⟩
  intro hm
  have hgone := hm.gone [['f']] (by decide)
  rw [show render ([['d']] ++ [['f']]) = ['/', 'd', '/', 'f'] from rfl] at hgone
  rw [hgone] at hf
  cases hf

/-- An empty directory is renamed. -/
theorem rename_moves_iff_example : ∃ c : Fs (Str → Option Str) Unit,
    Apart c [['d']] [['e']] ∧
      ∀ c', rename Dht.table ['/', 'd'] ['/', 'e'] c = .ok 0 c' → Moved c c' [['d']] [['e']] := by
  have h : (Machine.run (Machine.guarded (step Dht.table idle ⟨0, 0⟩) (Issued Dht.table))
      (start ⟨0, 0⟩ (fun _ => none) ()) [.mkdir ['/', 'd'] 0o755 ⟨1, 0⟩]).map
      (fun c => decide (Apart c [['d']] [['e']])) = some true := by
    decide +kernel
  obtain ⟨c, hc, h⟩ := Option.map_eq_some_iff.mp h
  have A : Apart c [['d']] [['e']] := of_decide_eq_true h
  have hreach := Machine.Reach.of_run_guarded _ hc
  refine ⟨c, A, (rename_moves_iff idle ⟨0, 0⟩ ⟨0, 0⟩ () hreach A).mpr
    (.inr ⟨by decide, ?_⟩)⟩
  intro xs hne hxs
  -- the state after `mkdir` has attributes for two paths
  have hrun : Machine.guarded (step Dht.table idle ⟨0, 0⟩) (Issued Dht.table)
      (start ⟨0, 0⟩ (fun _ => none) ()) (.mkdir ['/', 'd'] 0o755 ⟨1, 0⟩) = some c := by
    obtain ⟨_, hs, hc⟩ := Option.bind_eq_some_iff.mp hc
    cases hc
    exact hs
  rw [Machine.guarded, if_pos (by decide +kernel)] at hrun
  have hrun : after (mkdir ⟨0, 0⟩ ['/', 'd'] 0o755 ⟨1, 0⟩) (start ⟨0, 0⟩ (fun _ => none) ()) =
    some c := hrun
  obtain ⟨r, hr⟩ := after_eq_some.mp hrun
  obtain ⟨wf, -, a, -, -, -, hroot⟩ := start_spec ⟨0, 0⟩ (fun _ : Str => (none : Option Str)) ()
  have hv : Valid ([['d']] ++ xs) := valid_append.mpr ⟨by decide, hxs⟩
  have h₁ : render ([['d']] ++ xs) ≠ render [] := fun h => by
    simpa using render_injOn hv (by decide) h
  have h₂ : render ([['d']] ++ xs) ≠ render [['d']] := fun h => by
    simpa [hne] using render_injOn hv (by decide) h
  rw [(Known.of_reach hreach).real.attr?]
  obtain rfl | ⟨_, _, b, _, hb⟩ := mkdir_cases wf (by decide) (by rw [hroot]; rfl)
    (by rw [hroot]; rfl) hr
  · rw [hroot]; exact update_of_ne h₁ ..
  · rw [hb, hroot]
    exact (update_of_ne h₁ ..).trans ((update_of_ne h₂ ..).trans (update_of_ne h₁ ..))

end Fs

end ColonyFS

import ColonyFS.Storage.ChunkData

/-!
# Paths (`boost::filesystem::path`, as far as the callbacks use it)

The kernel hands a callback an absolute path without empty, `.` or `..` components and without a
trailing separator, and the callbacks take it apart with `parent_path` and `filename`. Such a path
is `render` of the list of its components.
-/

namespace ColonyFS.Paths

/-- `parent_path().string()`. -/
def parentPath (path : Str) : Str :=
  if path = ['/'] then []
  else match path.reverse.dropWhile (· ≠ '/') with
    | [] => []
    | [_] => ['/']
    | _ :: rest => rest.reverse

/-- `filename().string()`. -/
def filename (path : Str) : Str :=
  if path = ['/'] then ['/'] else (path.reverse.takeWhile (· ≠ '/')).reverse

/-- What may stand between two separators. -/
def IsName (n : Str) : Prop := n ≠ [] ∧ '/' ∉ n ∧ n ≠ ['.'] ∧ n ≠ ['.', '.']

instance (n : Str) : Decidable (IsName n) := inferInstanceAs (Decidable (_ ∧ _))

/-- The components of a path. -/
def Valid (cs : List Str) : Prop := ∀ n ∈ cs, IsName n

instance (cs : List Str) : Decidable (Valid cs) := inferInstanceAs (Decidable (∀ n ∈ cs, IsName n))

def join (cs : List Str) : Str := cs.flatMap ('/' :: ·)

/-- The path with the given components. -/
def render (cs : List Str) : Str := if cs = [] then ['/'] else join cs

def components (path : Str) : List Str := (path.splitOn '/').filter (· ≠ [])

/-- A path as the kernel writes it. -/
def Canonical (path : Str) : Prop := ∃ cs, Valid cs ∧ path = render cs

variable {cs ds : List Str} {n m path : Str}

theorem valid_append : Valid (cs ++ ds) ↔ Valid cs ∧ Valid ds := List.forall_mem_append

theorem valid_concat : Valid (cs ++ [n]) ↔ Valid cs ∧ IsName n :=
  valid_append.trans (and_congr_right fun _ => List.forall_mem_singleton)

@[simp] theorem join_concat : join (cs ++ [n]) = join cs ++ '/' :: n := by
  simp [join]

theorem render_concat : render (cs ++ [n]) = join cs ++ '/' :: n := by
  rw [render, if_neg (by simp), join_concat]

theorem render_concat_ne (hn : IsName n) : render (cs ++ [n]) ≠ ['/'] := by
  rw [render_concat]
  intro h
  have h := congrArg List.length h
  have := List.length_pos_of_ne_nil hn.1
  simp only [List.length_append, List.length_cons, List.length_nil] at h
  omega

theorem render_ne_nil (cs : List Str) : render cs ≠ [] := by
  cases cs <;> simp [render, join]

theorem reverse_render_concat :
    (render (cs ++ [n])).reverse = n.reverse ++ '/' :: (join cs).reverse := by
  simp [render_concat]

theorem filename_render (hn : IsName n) : filename (render (cs ++ [n])) = n := by
  have hslash : ∀ c ∈ n.reverse, decide (c ≠ '/') = true := fun c hc => by
    simpa using fun h : c = '/' => hn.2.1 (h ▸ List.mem_reverse.mp hc)
  rw [filename, if_neg (render_concat_ne hn), reverse_render_concat,
    List.takeWhile_append_of_pos hslash]
  simp

theorem parentPath_render (hn : IsName n) : parentPath (render (cs ++ [n])) = render cs := by
  have hslash : ∀ c ∈ n.reverse, decide (c ≠ '/') = true := fun c hc => by
    simpa using fun h : c = '/' => hn.2.1 (h ▸ List.mem_reverse.mp hc)
  rw [parentPath, if_neg (render_concat_ne hn), reverse_render_concat,
    List.dropWhile_append_of_pos hslash, List.dropWhile_cons_of_neg (by simp)]
  cases cs using List.reverseRecOn with
  | nil => rfl
  | append_singleton cs m =>
    have hne : (join (cs ++ [m])).reverse ≠ [] := by simp
    rw [render, if_neg (by simp)]
    cases h : (join (cs ++ [m])).reverse with
    | nil => exact (hne h).elim
    | cons c rest => rw [← List.reverse_reverse (join (cs ++ [m])), h]

/-- Different components make different paths. -/
theorem render_injOn (hc : Valid cs) (hd : Valid ds) (h : render cs = render ds) : cs = ds := by
  induction cs using List.reverseRecOn generalizing ds with
  | nil =>
    cases ds using List.reverseRecOn with
    | nil => rfl
    | append_singleton ds m => exact (render_concat_ne (valid_concat.mp hd).2 h.symm).elim
  | append_singleton cs n ih =>
    obtain ⟨hc, hn⟩ := valid_concat.mp hc
    cases ds using List.reverseRecOn with
    | nil => exact (render_concat_ne hn h).elim
    | append_singleton ds m =>
      obtain ⟨hd, hm⟩ := valid_concat.mp hd
      have hp := congrArg parentPath h
      have hf := congrArg filename h
      rw [parentPath_render hn, parentPath_render hm] at hp
      rw [filename_render hn, filename_render hm] at hf
      rw [ih hc hd hp, hf]

theorem render_eq_iff (hc : Valid cs) (hd : Valid ds) : render cs = render ds ↔ cs = ds :=
  ⟨render_injOn hc hd, fun h => h ▸ rfl⟩

theorem Canonical.cases (h : Canonical path) (hne : path ≠ ['/']) :
    ∃ cs n, path = render (cs ++ [n]) ∧ Valid (cs ++ [n]) := by
  obtain ⟨cs, hcs, rfl⟩ := h
  cases cs using List.reverseRecOn with
  | nil => exact (hne rfl).elim
  | append_singleton cs n => exact ⟨cs, n, rfl, hcs⟩

theorem Canonical.parentPath_ne (h : Canonical path) (hne : path ≠ ['/']) :
    parentPath path ≠ path := by
  obtain ⟨cs, n, rfl, hcs⟩ := h.cases hne
  obtain ⟨hc, hn⟩ := valid_concat.mp hcs
  rw [parentPath_render hn]
  intro he
  simpa using render_injOn hc hcs he

theorem parentPath_ne_of_canonical (h : Canonical (parentPath path)) : parentPath path ≠ path := by
  intro he
  obtain rfl | hne := eq_or_ne path ['/']
  · cases he
  · exact (he ▸ h : Canonical path).parentPath_ne hne he

theorem Canonical.parent (h : Canonical path) (hne : path ≠ ['/']) :
    Canonical (parentPath path) := by
  obtain ⟨cs, n, rfl, hcs⟩ := h.cases hne
  obtain ⟨hc, hn⟩ := valid_concat.mp hcs
  exact ⟨cs, hc, parentPath_render hn⟩

/-- A path is below its parent. -/
theorem Canonical.parentPath_isPrefix (h : Canonical path) (hne : path ≠ ['/'])
    (hp : parentPath path ≠ ['/']) : parentPath path ++ ['/'] <+: path := by
  obtain ⟨cs, n, rfl, hcs⟩ := h.cases hne
  rw [parentPath_render (valid_concat.mp hcs).2] at hp ⊢
  rw [render] at hp ⊢
  split at hp
  · exact (hp rfl).elim
  · next hnil => rw [if_neg hnil, render_concat]; exact ⟨n, by simp⟩

/-- The path of a name in a directory. -/
def entry (dir n : Str) : Str := if dir = ['/'] then '/' :: n else dir ++ '/' :: n

theorem entry_render (h : Valid cs) : entry (render cs) n = render (cs ++ [n]) := by
  rw [render_concat, entry]
  cases cs using List.reverseRecOn with
  | nil => rfl
  | append_singleton cs m =>
    rw [if_neg (render_concat_ne (valid_concat.mp h).2), render_concat, join_concat]

theorem Canonical.parentPath_entry (h : Canonical path) (hn : IsName n) :
    parentPath (entry path n) = path := by
  obtain ⟨cs, hcs, rfl⟩ := h
  rw [entry_render hcs, parentPath_render hn]

theorem Canonical.filename_entry (h : Canonical path) (hn : IsName n) :
    filename (entry path n) = n := by
  obtain ⟨cs, hcs, rfl⟩ := h
  rw [entry_render hcs, filename_render hn]

theorem Canonical.entry_filename (h : Canonical path) (hne : path ≠ ['/']) :
    IsName (filename path) ∧ entry (parentPath path) (filename path) = path := by
  obtain ⟨cs, n, rfl, hcs⟩ := h.cases hne
  obtain ⟨hc, hn⟩ := valid_concat.mp hcs
  rw [filename_render hn, parentPath_render hn, entry_render hc]
  exact ⟨hn, rfl⟩

/-- Different paths in one directory have different leaves. -/
theorem Canonical.filename_ne {path' : Str} (h : Canonical path) (h' : Canonical path')
    (hne : path ≠ ['/']) (hne' : path' ≠ ['/']) (hp : parentPath path = parentPath path')
    (hd : path ≠ path') : filename path ≠ filename path' := by
  intro hn
  have he := (h.entry_filename hne).2
  rw [hp, hn, (h'.entry_filename hne').2] at he
  exact hd he.symm

theorem components_append (path rest : Str) :
    components (path ++ '/' :: rest) = components path ++ components rest := by
  rw [components, List.splitOn_append_cons_self, List.filter_append]; rfl

theorem components_of_isName (hn : IsName n) : components n = [n] := by
  rw [components, List.splitOn_eq_singleton hn.2.1, List.filter_cons_of_pos (by simpa using hn.1),
    List.filter_nil]

theorem components_join (h : Valid cs) : components (join cs) = cs := by
  induction cs using List.reverseRecOn with
  | nil => rfl
  | append_singleton cs n ih =>
    obtain ⟨hc, hn⟩ := valid_concat.mp h
    rw [join_concat, components_append, ih hc, components_of_isName hn]

theorem components_render (h : Valid cs) : components (render cs) = cs := by
  rw [render]
  split
  · next hnil => subst hnil; rfl
  · exact components_join h

/-- `path` is below `dir`, a directory other than the root. -/
def Below (dir path : Str) : Prop := dir ++ ['/'] <+: path

/-- What is below a directory has its components and more. -/
theorem Canonical.exists_of_below (h : Canonical path) (hc : Valid cs) (hne : cs ≠ [])
    (hb : Below (render cs) path) : ∃ ds, ds ≠ [] ∧ Valid ds ∧ path = render (cs ++ ds) := by
  obtain ⟨ps, hps, rfl⟩ := h
  obtain ⟨rest, hrest⟩ := hb
  have hrest : join cs ++ '/' :: rest = render ps := by
    rw [← hrest, render, if_neg hne, List.append_assoc]; rfl
  have hcomp := congrArg components hrest
  rw [components_append, components_join hc, components_render hps] at hcomp
  subst hcomp
  refine ⟨components rest, ?_, (valid_append.mp hps).2, rfl⟩
  intro hnil
  rw [hnil, List.append_nil, render, if_neg hne] at hrest
  simpa using congrArg List.length hrest

/-- A parent is not below its child. -/
theorem Canonical.not_below_parentPath (h : Canonical path) (hne : path ≠ ['/']) :
    ¬Below path (parentPath path) := by
  obtain ⟨cs, n, rfl, hcs⟩ := h.cases hne
  obtain ⟨hc, hn⟩ := valid_concat.mp hcs
  rw [parentPath_render hn]
  intro hb
  obtain ⟨ds, hds, hd, he⟩ :=
    Canonical.exists_of_below ⟨cs, hc, rfl⟩ hcs (by simp) hb
  have hlen := congrArg List.length (render_injOn hc (valid_append.mpr ⟨hcs, hd⟩) he)
  simp at hlen

theorem Below.ne {dir : Str} (hb : Below dir path) : path ≠ dir := by
  rintro rfl
  have := hb.length_le
  simp at this

instance (path : Str) : Decidable (Canonical path) :=
  decidable_of_iff (Valid (components path) ∧ path = render (components path))
    ⟨fun h => ⟨_, h⟩, fun ⟨cs, hc, h⟩ => by subst h; rw [components_render hc]; exact ⟨hc, rfl⟩⟩

end ColonyFS.Paths

import ColonyFS.Lib.Pathname

/-!
# `normalize` does not change where a path leads

`walk_normalize`: where a path leads through directories, its normal form leads, too, and
`foldl_move_normalize`: also where there are no directories to go through. Links are not modelled.
-/

namespace Pathname

variable {d : List (List Char) → Prop} [DecidablePred d] {l m cwd : List (List Char)}
  {n p s e temp : List Char} {es : List (List Char)}

theorem Removable.not_dots (h : Removable n) : n ≠ ['.'] ∧ n ≠ ['.', '.'] ∧ n ≠ ['/'] := by
  obtain ⟨-, h1, h2⟩ := h
  refine ⟨?_, ?_, ?_⟩
  · rintro rfl
    exact (h1.resolve_left (fun h => h rfl)).1 rfl
  · rintro rfl
    exact (h2.resolve_left (fun h => h rfl)).1 rfl
  · rintro rfl
    exact (h1.resolve_left (fun h => h rfl)).2 rfl

/-- A removable name is the last component of its path. -/
theorem components_of_removable (h : Removable (filename temp)) (ht : afterRoot temp ≠ []) :
    (afterRoot temp).getLast? ≠ some '/' := by
  intro hl
  rw [filename, if_neg ht, if_pos hl] at h
  split at h
  · exact h.not_dots.2.2 rfl
  · exact h.not_dots.1 rfl

theorem walk_start_append (ht : temp = [] ∨ afterRoot temp ≠ []) (he : IsComponent e) :
    start cwd (append temp e) = start cwd temp := by
  rcases ht with rfl | ht
  · have hrel : ¬IsAbsolute (append [] e) := by
      simp only [append, ne_eq, not_true_eq_false, false_and, if_false, List.nil_append,
        he.operand]
      exact fun h => he.slash (List.mem_of_mem_head? h)
    rw [start, if_neg hrel]
    rfl
  · have hne : temp ≠ [] := fun h => ht (by rw [h]; rfl)
    simp only [start, isAbsolute_append hne]

/-- The loop keeps where the path so far and the elements to come lead. -/
theorem walk_normalizeFrom (hes : ∀ e ∈ es, IsComponent e)
    (ht : temp = [] ∨ afterRoot temp ≠ [])
    (hw : walk d (start cwd temp) (components temp) = some m) (h : walk d m es = some l) :
    walk d (start cwd (normalizeFrom temp es)) (components (normalizeFrom temp es)) = some l := by
  induction es generalizing temp m with
  | nil => cases h; exact hw
  | cons e es ih =>
    obtain ⟨he, hrest⟩ := List.forall_mem_cons.mp hes
    obtain ⟨hd, h⟩ := walk_cons_eq_some h
    rw [normalizeFrom]
    split
    · next hdot =>
      rw [move, if_pos hdot.1] at h
      exact ih hrest ht hw h
    split
    · next hdots =>
      obtain ⟨hne, rfl, hrem⟩ := hdots
      have hroot := ht.resolve_left hne
      have hlast := components_of_removable hrem hroot
      obtain ⟨hcomp, hca⟩ := components_of_name hlast hroot
      have hstart : start cwd (parentPath temp) = start cwd temp := by
        simp only [start, isAbsolute_parentPath hca]
      rw [hcomp, walk_append, Option.bind_eq_some_iff, ← hstart] at hw
      obtain ⟨k, hk, hname⟩ := hw
      obtain ⟨hdk, hname⟩ := walk_cons_eq_some hname
      cases hname
      have hback : move (move k (filename temp)) ['.', '.'] = k := by
        obtain ⟨h1, h2, -⟩ := hrem.not_dots
        rw [move, if_neg (by decide), if_pos rfl, move, if_neg h1, if_neg h2,
          List.dropLast_concat]
      rw [hback] at h
      simp only
      split
      · next hlone =>
        obtain ⟨hnil, rfl⟩ := hlone
        obtain ⟨_, h⟩ := walk_cons_eq_some h
        cases h
        refine ih (m := k) hrest (.inr (by decide)) ?_ (by simp only [walk, if_pos hdk])
        rw [hnil, components_nil, walk] at hk
        cases hk
        have hcwd : start cwd ['.'] = start cwd [] := rfl
        rw [hcwd, components_of_not_mem (by decide) (by decide), walk, if_pos hdk]
        rfl
      · exact ih hrest (afterRoot_parentPath hca) hk h
    · refine ih hrest (.inr (afterRoot_append_ne_nil ht he)) ?_ h
      rw [walk_start_append ht he, components_append_path, he.operand,
        components_of_not_mem he.ne_nil he.slash, walk_append, hw, Option.bind_some, walk,
        if_pos hd]
      rfl

/-- A path that `path(string)` takes as it is. -/
structure Plain (p : List Char) : Prop where
  null : '\x00' ∉ p
  escape : ¬['/', '/', ':'] <+: p

theorem Plain.of_isPrefix (h : Plain p) (hs : s <+: p) : Plain s :=
  ⟨fun h0 => h.null (hs.subset h0), fun he => h.escape (he.trans hs)⟩

theorem append_nil_of_plain (h : Plain p) : append [] p = p := by
  rw [append, operand_of h.null h.escape]
  simp

theorem IsComponent.plain (h : IsComponent n) : Plain n :=
  ⟨h.null, fun he => h.slash (he.subset List.mem_cons_self)⟩

theorem Plain.append (hp : Plain temp) (ht : temp ≠ ['/', '/']) (h0 : '\x00' ∉ e)
    (hhead : e.head? ≠ some '/') : Plain (append temp e) := by
  have hesc : ¬['/', '/', ':'] <+: e := by
    rintro ⟨t, rfl⟩
    exact hhead rfl
  rw [Pathname.append, operand_of h0 hesc]
  constructor
  · have h0 : '\x00' ∉ temp ++ e := by
      rw [List.mem_append]
      exact not_or.mpr ⟨hp.null, h0⟩
    split
    · rw [List.append_cons, List.mem_append, List.mem_append] at *
      simpa using h0
    · exact h0
  · intro happ
    have hcases : temp = [] ∨ temp = ['/'] ∨ temp = ['/', '/'] := by
      split at happ
      · exact escape_append hp.escape happ
      · exact escape_append hp.escape happ
    rcases hcases with rfl | rfl | rfl
    · exact hesc happ
    · rw [if_neg fun h => h.2.2.2 rfl] at happ
      obtain ⟨t, ht⟩ := happ
      have he : '/' :: ':' :: t = e := (List.cons.inj ht).2
      exact hhead (he ▸ rfl)
    · exact ht rfl

theorem plain_normalizeFrom (hes : ∀ e ∈ es, IsComponent e) (hp : Plain temp)
    (ht : temp = [] ∨ afterRoot temp ≠ []) : Plain (normalizeFrom temp es) := by
  induction es generalizing temp with
  | nil => exact hp
  | cons e es ih =>
    obtain ⟨he, hrest⟩ := List.forall_mem_cons.mp hes
    rw [normalizeFrom]
    split
    · exact ih hrest hp ht
    split
    · next hdots =>
      obtain ⟨hne, -, hrem⟩ := hdots
      have hroot := ht.resolve_left hne
      simp only
      split
      · exact ih hrest (IsComponent.plain ⟨by decide, by decide, by decide⟩) (.inr (by decide))
      · exact ih hrest (hp.of_isPrefix (parentPath_isPrefix temp))
          (afterRoot_parentPath (components_of_name (components_of_removable hrem hroot) hroot).2)
    · have hne : temp ≠ ['/', '/'] := by
        rintro rfl
        exact ht.elim (List.cons_ne_nil _ _) fun h => h rfl
      exact ih hrest (hp.append hne he.null he.head?_ne) (.inr (afterRoot_append_ne_nil ht he))

/-- `normalize` runs its loop with `temp` as the path so far and `es` as the elements to come. -/
structure Loops (p temp : List Char) (es : List (List Char)) : Prop where
  plain : Plain temp
  root : temp = [] ∨ afterRoot temp ≠ []
  isComponent : ∀ e ∈ es, IsComponent e
  isAbsolute : IsAbsolute temp ↔ IsAbsolute p
  components : components temp ++ es = components p
  normalize : normalize p = if normalizeFrom temp es = [] then ['.'] else normalizeFrom temp es

theorem elements_of_rootName_nil (hr : rootName p = []) (hlast : p.getLast? ≠ some '/') :
    elements p = (if IsAbsolute p then [['/']] else []) ++ components p := by
  have hafter : afterRoot p = p := by
    have := rootName_append_afterRoot p
    rwa [hr, List.nil_append] at this
  have hno : ¬(p.getLast? = some '/' ∧ components p ≠ []) := fun h => hlast h.1
  rw [elements, hafter, if_pos hr, if_neg hno, List.nil_append, List.append_nil]

theorem elements_of_isAbsolute (hr : rootName p ≠ []) (ha : IsAbsolute (afterRoot p))
    (hlast : p.getLast? ≠ some '/') :
    elements p = rootName p :: ['/'] :: components (afterRoot p) := by
  have hno : ¬((afterRoot p).getLast? = some '/' ∧ components (afterRoot p) ≠ []) := by
    rintro ⟨hl, -⟩
    refine hlast ?_
    rw [← rootName_append_afterRoot p, List.getLast?_append, hl]
    rfl
  rw [elements, if_neg hr, if_pos ha, if_neg hno, List.append_nil]
  rfl

/-- A path without a root name. The first element is the root or the first component. -/
theorem loops_of_rootName_nil (hp : Plain p) (hr : rootName p = [])
    (hlast : p.getLast? ≠ some '/') : normalize p = p ∨ ∃ temp es, Loops p temp es := by
  have hcomp : ∀ e ∈ components p, IsComponent e := fun e he => isComponent_of_mem hp.null he
  have hel := elements_of_rootName_nil hr hlast
  by_cases habs : IsAbsolute p
  · rw [if_pos habs] at hel
    refine .inr ⟨['/'], components p, ⟨by decide, by decide⟩, .inr (by decide), hcomp, ?_, rfl, ?_⟩
    · exact ⟨fun _ => habs, fun _ => rfl⟩
    · rw [normalize, hel]
      rfl
  · rw [if_neg habs, List.nil_append] at hel
    cases hc : components p with
    | nil =>
      left
      have hnil : p = [] := by
        cases p with
        | nil => rfl
        | cons c s =>
          have := components_eq_nil hc c List.mem_cons_self
          exact (habs (by rw [this]; rfl)).elim
      rw [hnil]
      rfl
    | cons e es =>
      rw [hc] at hcomp hel
      obtain ⟨he, hes⟩ := List.forall_mem_cons.mp hcomp
      refine .inr ⟨e, es, he.plain, .inr ?_, hes, ?_, ?_, ?_⟩
      · have := afterRoot_append_ne_nil (.inl rfl) he
        rwa [append_nil_of_plain he.plain] at this
      · exact ⟨fun h => (he.slash (List.mem_of_mem_head? h)).elim, fun h => (habs h).elim⟩
      · rw [components_of_not_mem he.ne_nil he.slash, hc]
        rfl
      · rw [normalize, hel]
        simp only [append_nil_of_plain he.plain]

/-- A path with a root name and a root. The two make the path so far. -/
theorem loops_of_isAbsolute {n : List Char} (hp : Plain p) (hr : rootName p = '/' :: '/' :: n)
    (ha : IsAbsolute (afterRoot p)) (hlast : p.getLast? ≠ some '/') :
    Loops p (rootName p ++ ['/']) (components (afterRoot p)) := by
  have hne : rootName p ≠ [] := by rw [hr]; exact List.cons_ne_nil _ _
  have hplain := hp.of_isPrefix ⟨afterRoot p, rootName_append_afterRoot p⟩
  have hslash : operand ['/'] = ['/'] := by decide
  have happ : append (rootName p) ['/'] = rootName p ++ ['/'] := by
    rw [append, hslash]
    simp
  obtain ⟨q, hq⟩ := List.head?_eq_some_iff.mp ha
  have hpre : rootName p ++ ['/'] <+: p := by
    conv_rhs => rw [← rootName_append_afterRoot p, hq]
    exact (List.prefix_append_right_inj _).mpr ⟨q, rfl⟩
  refine ⟨hp.of_isPrefix hpre, .inr ?_, ?_, ?_, ?_, ?_⟩
  · rw [Ne, afterRoot_eq_nil, hr]
    rintro (h0 | ⟨m, hm, hslash⟩)
    · cases h0
    · simp only [List.cons_append, List.cons.injEq, true_and] at hm
      exact hslash (hm ▸ by simp)
  · intro e he
    refine isComponent_of_mem (fun h0 => hp.null ?_) he
    rw [← rootName_append_afterRoot p]
    exact List.mem_append_right _ h0
  · conv_rhs => rw [← rootName_append_afterRoot p]
    rw [hr]
    exact Iff.rfl
  · rw [components_append_slash, components_nil, List.append_nil, ← components_root]
  · have hstep : normalizeFrom (rootName p) (['/'] :: components (afterRoot p)) =
        normalizeFrom (append (rootName p) ['/']) (components (afterRoot p)) := by
      rw [normalizeFrom, if_neg (by simp), if_neg (by simp)]
    rw [normalize, elements_of_isAbsolute hne ha hlast]
    simp only [append_nil_of_plain hplain, hstep, happ]

/-- What `normalize` makes of the first elements and of the loop over the others. -/
theorem normalize_cases (hp : Plain p) (hlast : p.getLast? ≠ some '/') :
    normalize p = p ∨ ∃ temp es, Loops p temp es := by
  rcases rootName_cases p with hr | ⟨⟨n, hr⟩, hnil | ha⟩
  · exact loops_of_rootName_nil hp hr hlast
  · -- The path is its root name.
    left
    have hne : rootName p ≠ [] := by rw [hr]; exact List.cons_ne_nil _ _
    have hpr := rootName_append_afterRoot p
    rw [hnil, List.append_nil] at hpr
    have hel : elements p = [rootName p] := by
      rw [elements, hnil, if_neg hne]
      rfl
    rw [normalize, hel]
    simp only [normalizeFrom, append_nil_of_plain (hpr.symm ▸ hp)]
    rw [if_neg hne, hpr]
  · exact .inr ⟨_, _, loops_of_isAbsolute hp hr ha hlast⟩

theorem normalize_ne_nil (h : components p ≠ []) : normalize p ≠ [] := by
  rw [normalize]
  split
  · next hel =>
    simp only [elements, List.append_eq_nil_iff] at hel
    obtain ⟨⟨⟨hroot, -⟩, hcomp⟩, -⟩ := hel
    split at hroot
    · next hnil =>
      rw [components_root, hnil, hcomp] at h
      exact (h rfl).elim
    · cases hroot
  · simp only
    split
    · exact List.cons_ne_nil _ _
    · next hne => exact hne

theorem plain_normalize (hp : Plain p) (hlast : p.getLast? ≠ some '/') : Plain (normalize p) := by
  rcases normalize_cases hp hlast with h | ⟨temp, es, htemp, ht, hes, -, -, h⟩
  · rwa [h]
  · rw [h]
    split
    · exact IsComponent.plain ⟨by decide, by decide, by decide⟩
    · exact plain_normalizeFrom hes htemp ht

theorem walk_normalize (hp : Plain p) (hlast : p.getLast? ≠ some '/') (hcwd : d cwd)
    (h : walk d (start cwd p) (components p) = some l) :
    walk d (start cwd (normalize p)) (components (normalize p)) = some l := by
  rcases normalize_cases hp hlast with hn | ⟨temp, es, -, ht, hes, habs, hcomp, hn⟩
  · rwa [hn]
  · have hstart : start cwd p = start cwd temp := by simp only [start, habs]
    rw [← hcomp, walk_append, Option.bind_eq_some_iff, hstart] at h
    obtain ⟨m, hm, h⟩ := h
    have hloop := walk_normalizeFrom hes ht hm h
    rw [hn]
    split
    · next hnil =>
      rw [hnil] at hloop
      cases hloop
      have hs : start cwd ['.'] = start cwd [] := rfl
      rw [hs, components_of_not_mem (by decide) (by decide), walk]
      exact if_pos hcwd
    · exact hloop

/-- Where components lead when nothing is in the way. -/
theorem walk_true : walk (fun _ => True) l es = some (es.foldl move l) := by
  induction es generalizing l with
  | nil => rfl
  | cons e es ih =>
    rw [walk, if_pos trivial]
    exact ih

theorem foldl_move_normalize (hp : Plain p) (hlast : p.getLast? ≠ some '/') :
    (components (normalize p)).foldl move (start cwd (normalize p)) =
      (components p).foldl move (start cwd p) := by
  have h : walk (fun _ => True) (start cwd (normalize p)) (components (normalize p)) = some _ :=
    walk_normalize hp hlast trivial walk_true
  exact Option.some.inj (walk_true.symm.trans h)

end Pathname

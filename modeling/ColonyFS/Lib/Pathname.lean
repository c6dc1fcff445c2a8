import Mathlib

/-!
# Path names

The lexical operations of Boost.Filesystem on POSIX path names, in the version where a path is a
string and `filename` gives one. `elements` is the iteration over a path: a root name (`//net`), the
root directory, the names, and `.` for a trailing separator. `components` is what the system makes
of a path: the texts between separators.
-/

namespace Pathname

/-- What stands between the separators. -/
def components (p : List Char) : List (List Char) := (p.splitOn '/').filter (· ≠ [])

def IsAbsolute (p : List Char) : Prop := p.head? = some '/'

instance (p : List Char) : Decidable (IsAbsolute p) := inferInstanceAs (Decidable (_ = _))

/-- What `/=` takes of a string: it skips the escape `//:` and stops at a null character. -/
def operand (s : List Char) : List Char :=
  (if ['/', '/', ':'].isPrefixOf s then s.drop 3 else s).takeWhile (· ≠ '\x00')

/-- `p /= s`. -/
def append (p s : List Char) : List Char :=
  if p ≠ [] ∧ operand s ≠ [] ∧ (operand s).head? ≠ some '/' ∧ p.getLast? ≠ some '/' then
    p ++ '/' :: operand s
  else p ++ operand s

/-- The root name of a path, and the rest. -/
def splitRoot : List Char → List Char × List Char
  | '/' :: '/' :: s =>
    if s.head? = some '/' then ([], '/' :: '/' :: s)
    else ('/' :: '/' :: s.takeWhile (· ≠ '/'), s.dropWhile (· ≠ '/'))
  | p => ([], p)

def rootName (p : List Char) : List Char := (splitRoot p).1

def afterRoot (p : List Char) : List Char := (splitRoot p).2

/-- `p.filename()`. -/
def filename (p : List Char) : List Char :=
  if afterRoot p = [] then rootName p
  else if (afterRoot p).getLast? = some '/' then
    if components (afterRoot p) = [] then ['/'] else ['.']
  else (afterRoot p).rtakeWhile (· ≠ '/')

/-- `parent_path` of a path without a root name. -/
def parentAfterRoot (s : List Char) : List Char :=
  let dir := (s.rdropWhile (· ≠ '/')).rdropWhile (· = '/')
  if dir = [] ∧ IsAbsolute s ∧ components s ≠ [] then ['/'] else dir

/-- `p.parent_path()`, but that the result is not taken for a path with an escape again. -/
def parentPath (p : List Char) : List Char :=
  if afterRoot p = [] then [] else rootName p ++ parentAfterRoot (afterRoot p)

/-- `p.begin()` to `p.end()`. -/
def elements (p : List Char) : List (List Char) :=
  (if rootName p = [] then [] else [rootName p]) ++
  (if IsAbsolute (afterRoot p) then [['/']] else []) ++ components (afterRoot p) ++
  if (afterRoot p).getLast? = some '/' ∧ components (afterRoot p) ≠ [] then [['.']] else []

/-- A name that `normalize` drops together with a `..` behind it. -/
def Removable (name : List Char) : Prop :=
  0 < name.length ∧ (name.length ≠ 1 ∨ name ≠ ['.'] ∧ name ≠ ['/']) ∧
  (name.length ≠ 2 ∨ name[0]? ≠ some '.' ∧ name[1]? ≠ some '.')

instance (name : List Char) : Decidable (Removable name) :=
  inferInstanceAs (Decidable (_ ∧ _ ∧ _))

/-- The loop of `normalize` behind the first element. -/
def normalizeFrom (temp : List Char) : List (List Char) → List Char
  | [] => temp
  | e :: es =>
    if e = ['.'] ∧ es ≠ [] then normalizeFrom temp es
    else if temp ≠ [] ∧ e = ['.', '.'] ∧ Removable (filename temp) then
      let temp := parentPath temp
      normalizeFrom (if temp = [] ∧ es = [['.']] then ['.'] else temp) es
    else normalizeFrom (append temp e) es

/-- `p.normalize()`. -/
def normalize (p : List Char) : List Char :=
  match elements p with
  | [] => []
  | e :: es =>
    let temp := normalizeFrom (append [] e) es
    if temp = [] then ['.'] else temp

variable {p s a n : List Char} {c : Char}

/-- What is taken and what is left of a longer text, when the shorter is not taken whole. -/
theorem takeWhile_append_of_ne {f : Char → Bool} (h : p.dropWhile f ≠ []) (s : List Char) :
    (p ++ s).takeWhile f = p.takeWhile f ∧ (p ++ s).dropWhile f = p.dropWhile f ++ s := by
  constructor
  · rw [List.takeWhile_append, if_neg]
    intro hlen
    have hp := (List.takeWhile_prefix f).eq_of_length hlen
    exact h (List.dropWhile_eq_nil_iff.mpr (List.takeWhile_eq_self_iff.mp hp))
  · rw [List.dropWhile_append, if_neg (by simpa using h)]

/-- An escape that appending makes is one of two separators at most and what follows them. -/
theorem escape_append (h : ¬['/', '/', ':'] <+: p) (happ : ['/', '/', ':'] <+: p ++ s) :
    p = [] ∨ p = ['/'] ∨ p = ['/', '/'] := by
  have hp := (List.prefix_or_prefix_of_prefix happ (List.prefix_append p s)).resolve_left h
  simp only [List.prefix_cons_iff, List.prefix_nil] at hp
  rcases hp with hp | ⟨q, rfl, hq | ⟨r, rfl, hr | ⟨t, rfl, rfl⟩⟩⟩
  · exact .inl hp
  · exact .inr (.inl (hq ▸ rfl))
  · exact .inr (.inr (hr ▸ rfl))
  · exact (h (List.prefix_refl _)).elim

/-! ## Components -/

@[simp] theorem components_nil : components [] = [] := rfl

theorem components_append_slash (p s : List Char) :
    components (p ++ '/' :: s) = components p ++ components s := by
  rw [components, List.splitOn_append_cons_self, List.filter_append]
  rfl

@[simp] theorem components_slash_cons (s : List Char) : components ('/' :: s) = components s :=
  components_append_slash [] s

theorem components_append (h : p = [] ∨ s = [] ∨ IsAbsolute s ∨ p.getLast? = some '/') :
    components (p ++ s) = components p ++ components s := by
  rcases h with rfl | rfl | h | h
  · rfl
  · rw [List.append_nil, components_nil, List.append_nil]
  · obtain ⟨t, rfl⟩ := List.head?_eq_some_iff.mp h
    rw [components_append_slash, components_slash_cons]
  · obtain ⟨q, rfl⟩ := List.getLast?_eq_some_iff.mp h
    rw [List.append_assoc, List.singleton_append, components_append_slash, components_append_slash,
      components_nil, List.append_nil]

theorem components_of_not_mem (hne : n ≠ []) (h : '/' ∉ n) : components n = [n] := by
  rw [components, List.splitOn_eq_singleton h, List.filter_cons_of_pos (by simpa using hne),
    List.filter_nil]

theorem components_of_slashes (h : ∀ c ∈ s, c = '/') : components s = [] := by
  induction s with
  | nil => rfl
  | cons c s ih =>
    obtain ⟨rfl, hs⟩ := List.forall_mem_cons.mp h
    rw [components_slash_cons, ih hs]

theorem components_eq_nil (h : components s = []) : ∀ c ∈ s, c = '/' := by
  induction s with
  | nil => exact List.forall_mem_nil _
  | cons c s ih =>
    by_cases hc : c = '/'
    · rw [hc, components_slash_cons] at h
      exact List.forall_mem_cons.mpr ⟨hc, ih h⟩
    · obtain ⟨m, ms, hs⟩ := List.exists_cons_of_ne_nil (List.splitOn_ne_nil '/' s)
      rw [components, List.splitOn_cons_eq_if_modifyHead, if_neg (by simpa using hc), hs,
        List.modifyHead_cons, List.filter_cons_of_pos (by simp)] at h
      cases h

theorem mem_splitOn (h : n ∈ s.splitOn '/') : '/' ∉ n ∧ n ⊆ s := by
  induction s generalizing n with
  | nil =>
    rw [List.splitOn_nil, List.mem_singleton] at h
    rw [h]
    exact ⟨List.not_mem_nil, List.Subset.refl []⟩
  | cons c s ih =>
    rw [List.splitOn_cons_eq_if_modifyHead] at h
    split at h
    · rcases List.mem_cons.mp h with rfl | h
      · exact ⟨List.not_mem_nil, List.nil_subset _⟩
      · exact ⟨(ih h).1, List.subset_cons_of_subset c (ih h).2⟩
    · next hc =>
      have hc : c ≠ '/' := by simpa using hc
      obtain ⟨m, ms, hs⟩ := List.exists_cons_of_ne_nil (List.splitOn_ne_nil '/' s)
      rw [hs, List.modifyHead_cons] at h
      rcases List.mem_cons.mp h with rfl | h
      · obtain ⟨hm, hsub⟩ := ih (n := m) (by rw [hs]; exact List.mem_cons_self)
        exact ⟨by simpa using ⟨hc.symm, hm⟩, List.cons_subset_cons c hsub⟩
      · obtain ⟨hm, hsub⟩ := ih (n := n) (by rw [hs]; exact List.mem_cons_of_mem m h)
        exact ⟨hm, List.subset_cons_of_subset c hsub⟩

/-- A text that names something in a directory. -/
structure IsComponent (n : List Char) : Prop where
  ne_nil : n ≠ []
  slash : '/' ∉ n
  null : '\x00' ∉ n

theorem isComponent_of_mem (hp : '\x00' ∉ p) (h : n ∈ components p) : IsComponent n := by
  obtain ⟨hmem, hne⟩ := List.mem_filter.mp h
  obtain ⟨hslash, hsub⟩ := mem_splitOn hmem
  exact ⟨by simpa using hne, hslash, fun h0 => hp (hsub h0)⟩

/-- An appended path leads on from where the first leads. -/
theorem components_append_path (p s : List Char) :
    components (append p s) = components p ++ components (operand s) := by
  rw [append]
  split
  · exact components_append_slash p _
  · next h =>
    refine components_append ?_
    rw [IsAbsolute]
    tauto

theorem isAbsolute_append (h : p ≠ []) : IsAbsolute (append p s) ↔ IsAbsolute p := by
  obtain ⟨c, q, rfl⟩ := List.exists_cons_of_ne_nil h
  rw [append]
  split <;> rfl

theorem operand_of (h0 : '\x00' ∉ s) (h1 : ¬['/', '/', ':'] <+: s) : operand s = s := by
  rw [operand, if_neg (by simpa using h1), List.takeWhile_eq_self_iff]
  intro c hc
  simpa using fun h : c = '\x00' => h0 (h ▸ hc)

theorem IsComponent.operand (h : IsComponent n) : operand n = n :=
  operand_of h.null fun hp => h.slash (hp.subset (List.mem_cons_self))

theorem IsComponent.head?_ne (h : IsComponent n) : n.head? ≠ some '/' :=
  fun hs => h.slash (List.mem_of_mem_head? hs)

/-! ## Root names -/

theorem rootName_append_afterRoot (p : List Char) : rootName p ++ afterRoot p = p := by
  fun_cases splitRoot p with
  | case1 s h => simp [rootName, afterRoot, splitRoot, h]
  | case2 s h => simp [rootName, afterRoot, splitRoot, h]
  | case3 p h => simp [rootName, afterRoot, splitRoot]

/-- A root name begins with two separators, and ends at one. -/
theorem rootName_cases (p : List Char) : rootName p = [] ∨
    (∃ m, rootName p = '/' :: '/' :: m) ∧ (afterRoot p = [] ∨ IsAbsolute (afterRoot p)) := by
  fun_cases splitRoot p with
  | case1 s h => simp [rootName, splitRoot, h]
  | case2 s h =>
    refine .inr ⟨⟨s.takeWhile (· ≠ '/'), by simp [rootName, splitRoot, h]⟩, ?_⟩
    have ha : afterRoot ('/' :: '/' :: s) = s.dropWhile (· ≠ '/') := by
      simp [afterRoot, splitRoot, h]
    rw [ha]
    cases hd : s.dropWhile (· ≠ '/') with
    | nil => exact .inl rfl
    | cons c q =>
      right
      have hc := List.head?_dropWhile_not (fun c : Char => decide (c ≠ '/')) s
      rw [hd] at hc
      simpa [IsAbsolute] using hc
  | case3 p h => simp [rootName, splitRoot]

theorem afterRoot_eq_nil : afterRoot p = [] ↔ p = [] ∨ ∃ n, p = '/' :: '/' :: n ∧ '/' ∉ n := by
  fun_cases splitRoot p with
  | case1 s h =>
    simp only [afterRoot, splitRoot, h, if_true, List.cons_ne_nil, false_or, List.cons.injEq,
      true_and, false_iff, not_exists, not_and, not_not]
    rintro n rfl
    exact List.mem_of_mem_head? h
  | case2 s h =>
    simp only [afterRoot, splitRoot, h, if_false, List.cons_ne_nil, false_or, List.cons.injEq,
      true_and, exists_eq_left', List.dropWhile_eq_nil_iff]
    constructor
    · intro hall hmem
      simpa using hall '/' hmem
    · intro hmem c hc
      simpa using fun he : c = '/' => hmem (he ▸ hc)
  | case3 p h =>
    simp only [afterRoot, splitRoot]
    constructor
    · exact .inl
    · rintro (hp | ⟨n, hp, _⟩)
      · exact hp
      · exact (h n hp).elim

theorem components_root (p : List Char) :
    components p = components (rootName p) ++ components (afterRoot p) := by
  conv_lhs => rw [← rootName_append_afterRoot p]
  refine components_append ?_
  rcases rootName_cases p with h | ⟨_, h | h⟩
  · exact .inl h
  · exact .inr (.inl h)
  · exact .inr (.inr (.inl h))

/-! ## Parents -/

theorem getLast?_rdropWhile (s : List Char) : (s.rdropWhile (· = '/')).getLast? ≠ some '/' := by
  intro h
  have hne : s.rdropWhile (· = '/') ≠ [] := by
    rintro hnil
    rw [hnil] at h
    cases h
  have hlast := List.rdropWhile_last_not _ _ hne
  rw [List.getLast?_eq_some_getLast hne, Option.some_inj] at h
  exact hlast (decide_eq_true h)

theorem components_rdropWhile (s : List Char) :
    components (s.rdropWhile (· = '/')) = components s := by
  have hs : s.rdropWhile (· = '/') ++ s.rtakeWhile (· = '/') = s :=
    List.rdropWhile_append_rtakeWhile
  have hall : ∀ c ∈ s.rtakeWhile (· = '/'), c = '/' := fun c hc => by
    simpa using List.mem_rtakeWhile_imp hc
  conv_rhs => rw [← hs]
  rw [components_append, components_of_slashes hall, List.append_nil]
  cases h : s.rtakeWhile (· = '/') with
  | nil => exact .inr (.inl rfl)
  | cons c t =>
    right; right; left
    rw [IsAbsolute, List.head?_cons, hall c (h ▸ List.mem_cons_self)]

theorem components_parentAfterRoot (s : List Char) :
    components (parentAfterRoot s) = components (s.rdropWhile (· ≠ '/')) := by
  have h := components_rdropWhile (s.rdropWhile (· ≠ '/'))
  rw [parentAfterRoot]
  split
  · next hdir => rw [← h, hdir.1]; rfl
  · exact h

theorem parentAfterRoot_cases (s : List Char) : parentAfterRoot s = [] ∨
    (parentAfterRoot s).head? = s.head? := by
  rw [parentAfterRoot]
  split
  · next h => exact .inr h.2.1.symm
  · cases hd : (s.rdropWhile (· ≠ '/')).rdropWhile (· = '/') with
    | nil => exact .inl rfl
    | cons c t =>
      right
      obtain ⟨q, hq⟩ := (List.rdropWhile_prefix _ _).trans (List.rdropWhile_prefix _ s)
      rw [hd] at hq
      rw [← hq]
      rfl

theorem isAbsolute_parentAfterRoot (h : components s ≠ []) :
    IsAbsolute (parentAfterRoot s) ↔ IsAbsolute s := by
  rcases parentAfterRoot_cases s with hnil | hhead
  · rw [hnil]
    refine ⟨nofun, fun hs => ?_⟩
    rw [parentAfterRoot] at hnil
    split at hnil
    · cases hnil
    · next hno => exact (hno ⟨hnil, hs, h⟩).elim
  · rw [IsAbsolute, hhead, IsAbsolute]

theorem components_parentPath (h : afterRoot p ≠ []) : components (parentPath p) =
    components (rootName p) ++ components ((afterRoot p).rdropWhile (· ≠ '/')) := by
  rw [parentPath, if_neg h, components_append, components_parentAfterRoot]
  rcases rootName_cases p with hr | ⟨_, hr | hr⟩
  · exact .inl hr
  · exact (h hr).elim
  · rcases parentAfterRoot_cases (afterRoot p) with hnil | hhead
    · exact .inr (.inl hnil)
    · exact .inr (.inr (.inl (hhead.trans hr)))

theorem isAbsolute_parentPath (h : components (afterRoot p) ≠ []) :
    IsAbsolute (parentPath p) ↔ IsAbsolute p := by
  have hne : afterRoot p ≠ [] := fun hnil => h (by rw [hnil, components_nil])
  rw [parentPath, if_neg hne]
  conv_rhs => rw [← rootName_append_afterRoot p]
  cases hr : rootName p with
  | nil => exact isAbsolute_parentAfterRoot h
  | cons c r => rfl

/-- A path that ends in a name. -/
theorem components_of_name (h : (afterRoot p).getLast? ≠ some '/') (hne : afterRoot p ≠ []) :
    components p = components (parentPath p) ++ [filename p] ∧ components (afterRoot p) ≠ [] := by
  have hs : (afterRoot p).rdropWhile (· ≠ '/') ++ (afterRoot p).rtakeWhile (· ≠ '/') =
      afterRoot p := List.rdropWhile_append_rtakeWhile
  have hname : (afterRoot p).rtakeWhile (· ≠ '/') ≠ [] := by
    intro hnil
    have hlast := List.rtakeWhile_eq_nil_iff.mp hnil hne
    rw [List.getLast?_eq_some_getLast hne] at h
    simp only [decide_not, Bool.not_eq_true', decide_eq_false_iff_not, not_not] at hlast
    exact h (congrArg some hlast)
  have hmem : '/' ∉ (afterRoot p).rtakeWhile (· ≠ '/') := fun hc => by
    simpa using List.mem_rtakeWhile_imp hc
  have hc : components (afterRoot p) = components ((afterRoot p).rdropWhile (· ≠ '/')) ++
      [(afterRoot p).rtakeWhile (· ≠ '/')] := by
    conv_lhs => rw [← hs]
    rw [components_append, components_of_not_mem hname hmem]
    by_cases hd : (afterRoot p).rdropWhile (· ≠ '/') = []
    · exact .inl hd
    · right; right; right
      have hlast := List.rdropWhile_last_not _ _ hd
      rw [List.getLast?_eq_some_getLast hd]
      simpa using hlast
  refine ⟨?_, by rw [hc]; exact List.concat_ne_nil _ _⟩
  rw [components_root p, components_parentPath hne, hc, filename, if_neg hne, if_neg h,
    List.append_assoc]

/-- A path that ends in a separator behind a name. -/
theorem components_of_slash (h : (afterRoot p).getLast? = some '/')
    (hc : components (afterRoot p) ≠ []) :
    components (parentPath p) = components p ∧ filename p = ['.'] := by
  have hne : afterRoot p ≠ [] := fun hnil => hc (by rw [hnil, components_nil])
  have hd : (afterRoot p).rdropWhile (· ≠ '/') = afterRoot p := by
    rw [List.rdropWhile_eq_self_iff]
    intro hl
    rw [List.getLast?_eq_some_getLast hl] at h
    simpa using h
  refine ⟨?_, ?_⟩
  · rw [components_parentPath hne, hd, ← components_root]
  · rw [filename, if_neg hne, if_pos h, if_neg hc]

/-! ## Where a path leads -/

/-- The step from a directory, given by the names from the root on, to a name in it. -/
def move (l : List (List Char)) (e : List Char) : List (List Char) :=
  if e = ['.'] then l else if e = ['.', '.'] then l.dropLast else l ++ [e]

/-- Where components lead, as long as the places on the way are directories. -/
def walk (d : List (List Char) → Prop) [DecidablePred d] (l : List (List Char)) :
    List (List Char) → Option (List (List Char))
  | [] => some l
  | e :: es => if d l then walk d (move l e) es else none

/-- Where a path begins. -/
def start (cwd : List (List Char)) (p : List Char) : List (List Char) :=
  if IsAbsolute p then [] else cwd

variable {d : List (List Char) → Prop} [DecidablePred d] {l m cwd : List (List Char)}
  {e temp : List Char} {es fs : List (List Char)}

theorem walk_append : walk d l (es ++ fs) = (walk d l es).bind (walk d · fs) := by
  induction es generalizing l with
  | nil => rfl
  | cons e es ih =>
    simp only [List.cons_append, walk]
    split
    · exact ih
    · rfl

theorem walk_cons_eq_some (h : walk d l (e :: es) = some m) : d l ∧ walk d (move l e) es = some m := by
  simp only [walk] at h
  split at h
  · next hd => exact ⟨hd, h⟩
  · cases h

theorem walk_mono {d' : List (List Char) → Prop} [DecidablePred d'] (hd : ∀ l, d l → d' l)
    (h : walk d l es = some m) : walk d' l es = some m := by
  induction es generalizing l with
  | nil => exact h
  | cons e es ih =>
    obtain ⟨hl, h⟩ := walk_cons_eq_some h
    rw [walk, if_pos (hd l hl)]
    exact ih h

/-- Where components lead does not depend on the directories. -/
theorem eq_foldl_of_walk (h : walk d l es = some m) : m = es.foldl move l := by
  induction es generalizing l with
  | nil => exact (Option.some.inj h).symm
  | cons e es ih => exact ih (walk_cons_eq_some h).2

/-- A path that is more than a root name remains so. -/
theorem afterRoot_append_ne_nil (ht : temp = [] ∨ afterRoot temp ≠ []) (he : IsComponent e) :
    afterRoot (append temp e) ≠ [] := by
  have hhead := he.head?_ne
  rw [Ne, afterRoot_eq_nil, append, he.operand]
  match temp with
  | [] =>
    simp only [ne_eq, not_true_eq_false, false_and, if_false, List.nil_append]
    rintro (h | ⟨n, rfl, _⟩)
    · exact he.ne_nil h
    · exact hhead rfl
  | [c] =>
    split
    · next h =>
      rintro (h' | ⟨n, hn, _⟩)
      · exact absurd h' (by simp)
      · simp only [List.cons_append, List.nil_append, List.cons.injEq] at hn
        exact h.2.2.2 (by rw [hn.1]; rfl)
    · rintro (h' | ⟨n, hn, _⟩)
      · exact absurd h' (by simp)
      · simp only [List.cons_append, List.nil_append, List.cons.injEq] at hn
        exact hhead (by rw [hn.2]; rfl)
  | c :: b :: q =>
    have hroot : ¬(c = '/' ∧ b = '/' ∧ '/' ∉ q) := by
      rintro ⟨rfl, rfl, hq⟩
      exact ht.resolve_left (List.cons_ne_nil _ _) (afterRoot_eq_nil.mpr (.inr ⟨q, rfl, hq⟩))
    split
    · rintro (h' | ⟨n, hn, hslash⟩)
      · exact absurd h' (by simp)
      · simp only [List.cons_append, List.cons.injEq] at hn
        exact hslash (hn.2.2 ▸ by simp)
    · rintro (h' | ⟨n, hn, hslash⟩)
      · exact absurd h' (by simp)
      · simp only [List.cons_append, List.cons.injEq] at hn
        exact hroot ⟨hn.1, hn.2.1, fun h => hslash (hn.2.2 ▸ List.mem_append_left _ h)⟩

theorem parentPath_isPrefix (p : List Char) : parentPath p <+: p := by
  rw [parentPath]
  split
  · exact List.nil_prefix
  · conv_rhs => rw [← rootName_append_afterRoot p]
    refine (List.prefix_append_right_inj _).mpr ?_
    rw [parentAfterRoot]
    split
    · next h =>
      obtain ⟨q, hq⟩ := List.head?_eq_some_iff.mp h.2.1
      exact hq ▸ ⟨q, rfl⟩
    · exact (List.rdropWhile_prefix _ _).trans (List.rdropWhile_prefix _ _)

theorem parentPath_ne (h : p ≠ []) : parentPath p ≠ p := by
  intro he
  rw [parentPath] at he
  split at he
  · exact h he.symm
  · next hne =>
    conv at he => rhs; rw [← rootName_append_afterRoot p]
    have he := List.append_cancel_left he
    by_cases hlast : (afterRoot p).getLast? = some '/'
    · rw [parentAfterRoot] at he
      split at he
      · next hc => exact hc.2.2 (by rw [← he]; rfl)
      · have hno := getLast?_rdropWhile ((afterRoot p).rdropWhile (· ≠ '/'))
        rw [he] at hno
        exact hno hlast
    · have hc := (components_of_name hlast hne).1
      have hc' := congrArg List.length (congrArg components he)
      rw [components_parentAfterRoot] at hc'
      rw [components_root, components_parentPath hne, List.append_assoc] at hc
      have := congrArg List.length (List.append_cancel_left hc)
      simp only [List.length_append, List.length_singleton] at this
      omega

/-- A parent path is shorter. -/
theorem length_parentPath_lt (h : p ≠ []) : (parentPath p).length < p.length :=
  lt_of_le_of_ne (parentPath_isPrefix p).length_le fun he =>
    parentPath_ne h ((parentPath_isPrefix p).eq_of_length he)

theorem parentAfterRoot_of_slashes (h : ∀ c ∈ s, c = '/') : parentAfterRoot s = [] := by
  have hdir : (s.rdropWhile (· ≠ '/')).rdropWhile (· = '/') = [] := by
    rw [List.rdropWhile_eq_nil_iff]
    intro c hc
    simpa using h c ((List.rdropWhile_prefix _ s).subset hc)
  rw [parentAfterRoot, if_neg fun hno => hno.2.2 (components_of_slashes h)]
  exact hdir

/-- A path leads at most one component further than its parent. -/
theorem parentPath_cases (p : List Char) :
    parentPath p = [] ∧ (components p).length ≤ 1 ∨
    parentPath p ≠ [] ∧ (IsAbsolute (parentPath p) ↔ IsAbsolute p) ∧
      ∃ tail, tail.length ≤ 1 ∧ components p = components (parentPath p) ++ tail := by
  by_cases hne : afterRoot p = []
  · left
    refine ⟨if_pos hne, ?_⟩
    rcases afterRoot_eq_nil.mp hne with rfl | ⟨n, rfl, hn⟩
    · exact Nat.zero_le 1
    · rw [components_slash_cons, components_slash_cons]
      by_cases hnil : n = []
      · rw [hnil]; exact Nat.zero_le 1
      · rw [components_of_not_mem hnil hn]; exact Nat.le_refl 1
  by_cases hlast : (afterRoot p).getLast? = some '/'
  · by_cases hc : components (afterRoot p) = []
    · have hpar : parentPath p = rootName p := by
        rw [parentPath, if_neg hne, parentAfterRoot_of_slashes (components_eq_nil hc),
          List.append_nil]
      have hcomp : components p = components (rootName p) := by
        rw [components_root, hc, List.append_nil]
      rw [hpar, hcomp]
      rcases rootName_cases p with hr | ⟨⟨n, hn⟩, _⟩
      · rw [hr]
        exact .inl ⟨rfl, Nat.zero_le 1⟩
      · refine .inr ⟨by rw [hn]; exact List.cons_ne_nil _ _, ?_, [], Nat.zero_le 1, by simp⟩
        conv_rhs => rw [← rootName_append_afterRoot p]
        rw [hn]
        rfl
    · obtain ⟨hcomp, -⟩ := components_of_slash hlast hc
      refine .inr ⟨?_, isAbsolute_parentPath hc, [], Nat.zero_le 1, by rw [hcomp, List.append_nil]⟩
      rintro hnil
      rw [hnil, components_nil, components_root] at hcomp
      exact hc (List.append_eq_nil_iff.mp hcomp.symm).2
  · obtain ⟨hcomp, hc⟩ := components_of_name hlast hne
    by_cases hnil : parentPath p = []
    · left
      refine ⟨hnil, ?_⟩
      rw [hcomp, hnil]
      exact Nat.le_refl 1
    · exact .inr ⟨hnil, isAbsolute_parentPath hc, [filename p], Nat.le_refl 1, hcomp⟩

/-- A directory in front of names is not a root name either. -/
theorem afterRoot_parentPath (hc : components (afterRoot p) ≠ []) :
    parentPath p = [] ∨ afterRoot (parentPath p) ≠ [] := by
  have hne : afterRoot p ≠ [] := fun hnil => hc (by rw [hnil, components_nil])
  by_contra hno
  obtain ⟨hnil, hroot⟩ := not_or.mp hno
  obtain ⟨n, hn, hslash⟩ := (afterRoot_eq_nil.mp (not_not.mp hroot)).resolve_left hnil
  rw [parentPath, if_neg hne] at hn
  have hp := rootName_append_afterRoot p
  rcases rootName_cases p with hr | ⟨⟨m, hm⟩, ha⟩
  · rw [hr, List.nil_append] at hn hp
    rw [hp, parentAfterRoot] at hn
    split at hn
    · simp at hn
    · -- The directory is the beginning of the path, and does not end in a separator.
      obtain ⟨t, ht⟩ := (List.rdropWhile_prefix (· = '/') _).trans
        (List.rdropWhile_prefix (· ≠ '/') p)
      rw [hn] at ht
      cases n with
      | nil =>
        have hlast := getLast?_rdropWhile (p.rdropWhile (· ≠ '/'))
        rw [hn] at hlast
        exact hlast rfl
      | cons c n =>
        have hcs : c ≠ '/' := fun he => hslash (he ▸ List.mem_cons_self)
        rw [← ht] at hr
        simp [rootName, splitRoot, hcs] at hr
  · have ha := ha.resolve_left hne
    have hpar := (isAbsolute_parentAfterRoot hc).mpr ha
    obtain ⟨q, hq⟩ := List.head?_eq_some_iff.mp hpar
    rw [hq, hm] at hn
    simp only [List.cons_append, List.cons.injEq, true_and] at hn
    exact hslash (hn ▸ by simp)

/-- A path behind whose root name there are separators only. -/
theorem of_components_eq_nil (ha : afterRoot p ≠ []) (h : components (afterRoot p) = []) :
    parentPath p = rootName p ∧ components (parentPath p) = components p ∧ filename p = ['/'] := by
  have hall := components_eq_nil h
  have hlast : (afterRoot p).getLast? = some '/' := by
    rw [List.getLast?_eq_some_getLast ha, hall _ (List.getLast_mem ha)]
  have hpar : parentPath p = rootName p := by
    rw [parentPath, if_neg ha, parentAfterRoot_of_slashes hall, List.append_nil]
  refine ⟨hpar, ?_, by rw [filename, if_neg ha, if_pos hlast, if_pos h]⟩
  rw [hpar, components_root p, h, List.append_nil]

theorem parentPath_ne_slashes (ha : afterRoot p ≠ []) : parentPath p ≠ ['/', '/'] := by
  intro h
  by_cases hc : components (afterRoot p) = []
  · obtain ⟨c, s, hs⟩ := List.exists_cons_of_ne_nil ha
    rw [(of_components_eq_nil ha hc).1] at h
    have happ := rootName_append_afterRoot p
    rw [h, hs, components_eq_nil hc c (hs ▸ List.mem_cons_self)] at happ
    have hroot : rootName (['/', '/'] ++ '/' :: s) = [] := rfl
    rw [← happ, hroot] at h
    cases h
  · rcases afterRoot_parentPath hc with hnil | hroot
    · rw [h] at hnil
      cases hnil
    · exact hroot (by rw [h]; rfl)

theorem foldl_move_names (h : ∀ n ∈ es, n ≠ ['.'] ∧ n ≠ ['.', '.']) : es.foldl move l = l ++ es := by
  induction es generalizing l with
  | nil => exact (List.append_nil l).symm
  | cons e es ih =>
    obtain ⟨⟨h1, h2⟩, hes⟩ := List.forall_mem_cons.mp h
    rw [List.foldl_cons, move, if_neg h1, if_neg h2, ih hes, List.append_assoc]
    rfl

theorem move_append_filter (h : e ≠ ['.', '.']) (es : List (List Char)) :
    move l e ++ es.filter (· ≠ ['.']) = l ++ (e :: es).filter (· ≠ ['.']) := by
  rw [move]
  by_cases hdot : e = ['.']
  · rw [if_pos hdot, List.filter_cons_of_neg (by simpa using hdot)]
  · rw [if_neg hdot, if_neg h, List.filter_cons_of_pos (by simpa using hdot), List.append_assoc]
    rfl

/-- Without `..` all that is dropped is `.`. -/
theorem foldl_move_filter (h : ['.', '.'] ∉ es) :
    es.foldl move l = l ++ es.filter (· ≠ ['.']) := by
  induction es generalizing l with
  | nil => exact (List.append_nil l).symm
  | cons e es ih =>
    obtain ⟨he, hes⟩ := List.ne_and_not_mem_of_not_mem_cons h
    rw [List.foldl_cons, ih hes, move_append_filter (Ne.symm he)]

theorem start_of_isAbsolute (h : IsAbsolute p) : start cwd p = [] := if_pos h

theorem afterRoot_append (hc : components p ≠ []) (ha : afterRoot p ≠ []) (s : List Char) :
    rootName (p ++ s) = rootName p ∧ afterRoot (p ++ s) = afterRoot p ++ s := by
  fun_cases splitRoot p with
  | case1 q h =>
    have h' : (q ++ s).head? = some '/' := by
      obtain ⟨t, rfl⟩ := List.head?_eq_some_iff.mp h
      rfl
    simp [rootName, afterRoot, splitRoot, h, h']
  | case2 q h =>
    have hd : q.dropWhile (· ≠ '/') ≠ [] := by
      rwa [afterRoot, splitRoot, if_neg h] at ha
    obtain ⟨htake, hdrop⟩ := takeWhile_append_of_ne hd s
    have h' : (q ++ s).head? ≠ some '/' := by
      cases q with
      | nil => exact (hd rfl).elim
      | cons c q => exact h
    simp only [rootName, afterRoot, splitRoot, List.cons_append, if_neg h, if_neg h', htake, hdrop,
      and_self]
  | case3 p h =>
    have hsplit : splitRoot (p ++ s) = ([], p ++ s) := by
      match p, h, hc with
      | [], _, hc => exact (hc rfl).elim
      | [c], _, hc =>
        have hcs : c ≠ '/' := by
          rintro rfl
          exact hc rfl
        rw [splitRoot.eq_def]
        split
        · next heq => exact (hcs (List.cons.inj heq).1).elim
        · rfl
      | c :: b :: q, h, _ =>
        rw [splitRoot.eq_def]
        split
        · next heq =>
          simp only [List.cons_append, List.cons.injEq] at heq
          exact (h q (by rw [heq.1, heq.2.1])).elim
        · rfl
    have hp : splitRoot p = ([], p) := by
      rw [splitRoot.eq_def]
      split
      · next q => exact (h q rfl).elim
      · rfl
    rw [rootName, rootName, afterRoot, afterRoot, hsplit, hp]
    exact ⟨rfl, rfl⟩

/-- One separator behind a path does not reach into its root name, unless the path is the root. -/
theorem afterRoot_append_slash (hp : p ≠ ['/']) (hs : s.head? ≠ some '/') :
    ∃ q, afterRoot (p ++ '/' :: s) = q ++ '/' :: s := by
  match p, hp with
  | [], _ =>
    refine ⟨[], ?_⟩
    rw [List.nil_append, afterRoot, splitRoot.eq_def]
    split
    · next heq =>
      rw [(List.cons.inj heq).2] at hs
      exact (hs rfl).elim
    · rfl
  | [c], hp =>
    have hc : c ≠ '/' := fun h => hp (h ▸ rfl)
    refine ⟨[c], ?_⟩
    rw [List.singleton_append, afterRoot, splitRoot.eq_def]
    split
    · next heq => exact (hc (List.cons.inj heq).1).elim
    · rfl
  | c :: b :: q, _ =>
    rw [List.cons_append, List.cons_append, afterRoot, splitRoot.eq_def]
    split
    · next r heq =>
      obtain ⟨rfl, rfl, rfl⟩ : c = '/' ∧ b = '/' ∧ q ++ '/' :: s = r := by simpa using heq
      split
      · exact ⟨'/' :: '/' :: q, rfl⟩
      · simp only [List.dropWhile_append]
        split
        · exact ⟨[], rfl⟩
        · exact ⟨_, rfl⟩
    · exact ⟨c :: b :: q, rfl⟩

end Pathname

import ColonyFS.Lib.Pathname

/-!
# A tree of directories and regular files

What a process sees of a disk: the nodes of the tree, named by the names from the root on, and the
current directory. Nothing in the tree is removed, and a node is put only where there is no
directory, so a tree only `Grows`.
-/

open Pathname

/-- The names from the root on. -/
abbrev Location := List (List Char)

inductive Node (β : Type) where
  | dir
  | file (data : β)
  deriving DecidableEq, Repr

structure DirTree (β : Type) where
  node : Location → Option (Node β)
  root : node [] = some .dir
  parent : ∀ l n, node (l ++ [n]) ≠ none → node l = some .dir
  cwd : Location
  node_cwd : node cwd = some .dir

namespace DirTree

variable {β : Type}

def IsDir (t : DirTree β) (l : Location) : Prop := t.node l = some .dir

instance (t : DirTree β) : DecidablePred t.IsDir := fun l =>
  match h : t.node l with
  | some .dir => .isTrue h
  | some (.file _) => .isFalse fun hd => by cases h.symm.trans hd
  | none => .isFalse fun hd => by cases h.symm.trans hd

/-- A directory and those above it, with nothing else in them. -/
def chain (base : Location) : DirTree β where
  node l := if l <+: base then some .dir else none
  root := if_pos List.nil_prefix
  parent l n h := by
    have hpre : l ++ [n] <+: base := by
      by_contra hno
      exact h (if_neg hno)
    exact if_pos ((List.prefix_append l [n]).trans hpre)
  cwd := []
  node_cwd := if_pos List.nil_prefix

/-- Where a path leads, if it leads anywhere; there may be nothing yet. -/
def locate (t : DirTree β) (p : List Char) : Option Location :=
  if p = [] then none else walk t.IsDir (start t.cwd p) (components p)

/-- What is found under a path. -/
def lookup (t : DirTree β) (p : List Char) : Option (Node β) := (t.locate p).bind t.node

/-- A new directory, a new file or a new content of a file. -/
def put (t : DirTree β) (l : Location) (v : Node β) : Option (DirTree β) :=
  if h : l ≠ [] ∧ t.IsDir l.dropLast ∧ ¬t.IsDir l then
    some {
      node := Function.update t.node l (some v)
      root := by rw [Function.update_of_ne h.1.symm, t.root]
      parent := fun k n hk => by
        have hkl : t.node k = some .dir → k ≠ l := fun hd he => h.2.2 (he ▸ hd)
        have hdir : t.node k = some .dir := by
          by_cases he : k ++ [n] = l
          · have hd := h.2.1
            rwa [← he, List.dropLast_concat] at hd
          · rw [Function.update_of_ne he] at hk
            exact t.parent k n hk
        rw [Function.update_of_ne (hkl hdir), hdir]
      cwd := t.cwd
      node_cwd := by
        have hne : t.cwd ≠ l := fun he => h.2.2 (he ▸ t.node_cwd)
        rw [Function.update_of_ne hne, t.node_cwd] }
  else none

/-- What was a directory still is one. -/
structure Grows (t t' : DirTree β) : Prop where
  dir : ∀ l, t.IsDir l → t'.IsDir l
  cwd : t'.cwd = t.cwd

variable {t t' t'' : DirTree β} {l m k cwd : Location} {n p q : List Char} {es : List (List Char)}
  {v : Node β}

theorem put_eq_some (h : t.put l v = some t') : l ≠ [] ∧ t.IsDir l.dropLast ∧ ¬t.IsDir l ∧
    t'.node = Function.update t.node l (some v) ∧ t'.cwd = t.cwd := by
  rw [put] at h
  split at h
  · next hc =>
    cases h
    exact ⟨hc.1, hc.2.1, hc.2.2, rfl, rfl⟩
  · cases h

theorem exists_put (hd : t.IsDir m) (hl : ¬t.IsDir (m ++ [n])) : ∃ t', t.put (m ++ [n]) v = some t' :=
  ⟨_, dif_pos ⟨List.concat_ne_nil _ _, by rwa [List.dropLast_concat], hl⟩⟩

theorem Grows.of_update (hl : ¬t.IsDir l) (hn : t'.node = Function.update t.node l (some v))
    (hc : t'.cwd = t.cwd) : Grows t t' := by
  refine ⟨fun k hk => ?_, hc⟩
  have hne : k ≠ l := fun he => hl (he ▸ hk)
  rwa [IsDir, hn, Function.update_of_ne hne]

theorem Grows.of_put (h : t.put l v = some t') : Grows t t' := by
  obtain ⟨-, -, hl, hn, hc⟩ := put_eq_some h
  exact .of_update hl hn hc

theorem Grows.locate (h : Grows t t') (hl : t.locate p = some l) : t'.locate p = some l := by
  rw [DirTree.locate] at hl ⊢
  split at hl
  · cases hl
  · next hp =>
    rw [if_neg hp, h.cwd]
    exact walk_mono h.dir hl

/-- Something was put where there was nothing. -/
structure Extends (t t' : DirTree β) : Prop where
  node : ∀ l v, t.node l = some v → t'.node l = some v
  cwd : t'.cwd = t.cwd

theorem Extends.refl (t : DirTree β) : Extends t t := ⟨fun _ _ h => h, rfl⟩

theorem Extends.trans (h : Extends t t') (h' : Extends t' t'') : Extends t t'' :=
  ⟨fun l v hl => h'.node l v (h.node l v hl), h'.cwd.trans h.cwd⟩

theorem Extends.grows (h : Extends t t') : Grows t t' := ⟨fun l hl => h.node l .dir hl, h.cwd⟩

theorem Extends.of_put (h : t.put l v = some t') (hl : t.node l = none) : Extends t t' := by
  obtain ⟨-, -, -, hn, hc⟩ := put_eq_some h
  refine ⟨fun k w hk => ?_, hc⟩
  have hne : k ≠ l := fun he => by cases (he ▸ hk).symm.trans hl
  rwa [hn, Function.update_of_ne hne]

theorem isDir_of_node (h : t.node (l ++ [n]) ≠ none) : t.IsDir l := t.parent l n h

/-- The directories above a directory. -/
theorem IsDir.of_isPrefix (h : t.IsDir l) (hm : m <+: l) : t.IsDir m := by
  induction l using List.reverseRecOn with
  | nil => rwa [List.prefix_nil.mp hm]
  | append_singleton l n ih =>
    rcases List.prefix_concat_iff.mp hm with rfl | hm
    · exact h
    · refine ih (isDir_of_node (n := n) ?_) hm
      rw [show t.node (l ++ [n]) = some .dir from h]
      exact Option.some_ne_none _

theorem start_isDir (t : DirTree β) (p : List Char) : t.IsDir (start t.cwd p) := by
  rw [start]
  split
  · exact t.root
  · exact t.node_cwd

/-- A place that a path steps on by a name. -/
def OnWay (cwd : Location) (p : List Char) (l : Location) : Prop :=
  ∃ es n, es ++ [n] <+: components p ∧ n ≠ ['.'] ∧ n ≠ ['.', '.'] ∧
    l = (es ++ [n]).foldl move (start cwd p)

theorem not_onWay_nil : ¬OnWay cwd [] l := by
  rintro ⟨es, n, hpre, -⟩
  rw [components_nil, List.prefix_nil] at hpre
  exact absurd hpre (List.concat_ne_nil _ _)

theorem OnWay.of_isPrefix (h : OnWay cwd q l) (hpre : components q <+: components p)
    (habs : IsAbsolute q ↔ IsAbsolute p) : OnWay cwd p l := by
  obtain ⟨es, n, hes, hdot, hdots, rfl⟩ := h
  exact ⟨es, n, hes.trans hpre, hdot, hdots, by simp only [start, habs]⟩

theorem onWay_of_isAbsolute (h : IsAbsolute p) : OnWay cwd p l ↔ OnWay [] p l := by
  simp only [OnWay, start_of_isAbsolute h]

/-- A step from a directory leads to a directory, or to a name in it. -/
theorem isDir_move (h : t.IsDir l) :
    t.IsDir (move l n) ∨ move l n = l ++ [n] ∧ n ≠ ['.'] ∧ n ≠ ['.', '.'] := by
  rw [move]
  split
  · exact .inl h
  split
  · exact .inl (h.of_isPrefix (List.dropLast_prefix l))
  · next h1 h2 => exact .inr ⟨rfl, h1, h2⟩

/-- A path leads to a directory, or to a name in one. -/
theorem locate_cases (h : t.locate p = some l) :
    t.IsDir l ∨ (∃ m n, l = m ++ [n] ∧ t.IsDir m) ∧ OnWay t.cwd p l := by
  rw [locate] at h
  split at h
  · cases h
  · have hstart := t.start_isDir p
    cases hc : components p using List.reverseRecOn with
    | nil =>
      rw [hc] at h
      cases h
      exact .inl hstart
    | append_singleton es e =>
      have hl := eq_foldl_of_walk h
      rw [hc] at hl
      rw [hc, walk_append, Option.bind_eq_some_iff] at h
      obtain ⟨m, _, he⟩ := h
      obtain ⟨hm, he⟩ := walk_cons_eq_some he
      cases he
      refine (isDir_move hm).imp_right ?_
      rintro ⟨hname, hdot, hdots⟩
      exact ⟨⟨m, e, hname, hm⟩, es, e, by rw [hc], hdot, hdots, hl⟩

instance (cwd : Location) (p : List Char) : DecidablePred (OnWay cwd p) := fun l =>
  decidable_of_iff (∃ es ∈ (components p).inits, ∃ n ∈ components p, es.getLast? = some n ∧
    n ≠ ['.'] ∧ n ≠ ['.', '.'] ∧ l = es.foldl move (start cwd p)) <| by
  constructor
  · rintro ⟨es, hes, n, -, hlast, hdot, hdots, hl⟩
    obtain ⟨es, rfl⟩ := List.getLast?_eq_some_iff.mp hlast
    exact ⟨es, n, (List.mem_inits _ _).mp hes, hdot, hdots, hl⟩
  · rintro ⟨es, n, hpre, hdot, hdots, hl⟩
    exact ⟨es ++ [n], (List.mem_inits _ _).mpr hpre, n, hpre.subset (by simp), by simp, hdot, hdots, hl⟩

theorem forall_onWay {P : Location → Prop} : (∀ l, OnWay cwd p l → P l) ↔
    ∀ es ∈ (components p).inits, ∀ n ∈ components p, es.getLast? = some n → n ≠ ['.'] →
      n ≠ ['.', '.'] → P (es.foldl move (start cwd p)) := by
  constructor
  · intro h es hes n _ hlast hdot hdots
    obtain ⟨es, rfl⟩ := List.getLast?_eq_some_iff.mp hlast
    exact h _ ⟨es, n, (List.mem_inits _ _).mp hes, hdot, hdots, rfl⟩
  · rintro h l ⟨es, n, hpre, hdot, hdots, rfl⟩
    exact h _ ((List.mem_inits _ _).mpr hpre) n (hpre.subset (by simp)) (by simp) hdot hdots

/-- What a path steps on, if it leads to a directory. -/
theorem isDir_of_onWay (h : t.locate p = some l) (hd : t.IsDir l) (hm : OnWay t.cwd p m) :
    t.IsDir m := by
  obtain ⟨es, n, ⟨rest, hrest⟩, -, -, rfl⟩ := hm
  rw [locate] at h
  split at h
  · cases h
  · rw [← hrest, walk_append, Option.bind_eq_some_iff] at h
    obtain ⟨k, hk, h⟩ := h
    rw [← eq_foldl_of_walk hk]
    cases rest with
    | nil => cases h; exact hd
    | cons e rest => exact (walk_cons_eq_some h).1

/-- A component behind a path that leads to a directory. -/
theorem locate_of_parent {tail : List (List Char)} (hq : t.locate q = some m) (hd : t.IsDir m)
    (habs : IsAbsolute q ↔ IsAbsolute p) (hc : components p = components q ++ tail)
    (hlen : tail.length ≤ 1) (hp : p ≠ []) : ∃ l, t.locate p = some l := by
  rw [locate] at hq ⊢
  split at hq
  · cases hq
  · have hstart : start t.cwd p = start t.cwd q := by simp only [start, habs]
    rw [if_neg hp, hc, walk_append, hstart, hq, Option.bind_some]
    cases tail with
    | nil => exact ⟨m, rfl⟩
    | cons e rest =>
      obtain rfl : rest = [] := List.eq_nil_of_length_eq_zero (by simpa using hlen)
      exact ⟨move m e, if_pos hd⟩

theorem locate_of_length_le (hp : p ≠ []) (hlen : (components p).length ≤ 1) :
    ∃ l, t.locate p = some l := by
  rw [locate, if_neg hp]
  match components p, hlen with
  | [], _ => exact ⟨_, rfl⟩
  | [e], _ => exact ⟨_, if_pos (t.start_isDir p)⟩

/-! ## The chain of a directory -/

theorem isDir_chain : (chain m : DirTree β).IsDir l ↔ l <+: m := by
  simp only [IsDir, chain]
  split <;> simp [*]

theorem node_chain (v : β) : (chain m : DirTree β).node l ≠ some (.file v) := by
  simp only [chain]
  split <;> simp

theorem walk_chain (h : ['.', '.'] ∉ es) (hl : l ++ es.filter (· ≠ ['.']) <+: m) :
    walk (chain m : DirTree β).IsDir l es = some (l ++ es.filter (· ≠ ['.'])) := by
  induction es generalizing l with
  | nil =>
    rw [walk]
    simp
  | cons e es ih =>
    obtain ⟨he, hes⟩ := List.ne_and_not_mem_of_not_mem_cons h
    have hmove := move_append_filter (l := l) (Ne.symm he) es
    rw [walk, if_pos (isDir_chain.mpr ((List.prefix_append l _).trans hl)), ← hmove]
    exact ih hes (hmove ▸ hl)

/-! ## Making the directories of a path -/

/-- No file is on the way of a path. -/
def Clear (t : DirTree β) (p : List Char) : Prop :=
  ∀ l data, OnWay t.cwd p l → t.node l ≠ some (.file data)

theorem clear_nil (t : DirTree β) : t.Clear [] := fun _ _ h => (not_onWay_nil h).elim

/-- The directories there are when those of the path `dir` have been made, if it leads to nothing. -/
def Made (t : DirTree β) (dir : List Char) (l : Location) : Prop :=
  t.IsDir l ∨ t.lookup dir = none ∧ OnWay t.cwd dir l

instance (t : DirTree β) (dir : List Char) : DecidablePred (t.Made dir) := fun _ =>
  inferInstanceAs (Decidable (_ ∨ _ ∧ _))

/-- Where a path leads then. -/
def locateMade (t : DirTree β) (dir p : List Char) : Option Location :=
  if p = [] then none else walk (t.Made dir) (start t.cwd p) (components p)

theorem walk_congr {d d' : Location → Prop} [DecidablePred d] [DecidablePred d']
    (h : ∀ l, d l ↔ d' l) : walk d l es = walk d' l es := by
  induction es generalizing l with
  | nil => rfl
  | cons e es ih => simp only [walk, h, ih]

theorem locateMade_eq (hcwd : t'.cwd = t.cwd) (h : ∀ l, t'.IsDir l ↔ t.Made q l)
    (p : List Char) : t.locateMade q p = t'.locate p := by
  rw [locateMade, locate, hcwd]
  split
  · rfl
  · exact walk_congr fun l => (h l).symm

end DirTree

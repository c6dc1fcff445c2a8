import ColonyFS.Storage.Store
import ColonyFS.Fuse.Path

/-!
# The file of a chunk

Where the path that `deposit_chunk` makes of a uid and a cuid leads: to the name
`__<leaf>__<cuid>` in the directory of the uid below `prefix`. `location_injective`: unless `prefix`
is `/`, two chunks with different uids or cuids never share a file, as long as their uids are paths
as the kernel writes them, without null characters.
-/

namespace ColonyFS.Storage

open Pathname

variable {dirPrefix uid uid' : Str} {cuid cuid' : Int} {c : Char} {n : Nat} {cs cs' : List Str}

/-! ## `boost::lexical_cast` -/

theorem mem_decimal (h : c ∈ decimal cuid) : c = '-' ∨ c.isDigit := by
  have hdigits : c ∈ Nat.toDigits 10 cuid.natAbs → c.isDigit :=
    Nat.isDigit_of_mem_toDigits (by decide) (Nat.le_refl 10)
  rw [decimal] at h
  split at h
  · exact (List.mem_cons.mp h).imp_right hdigits
  · exact .inr (hdigits h)

theorem not_mem_decimal (hc : c ≠ '-') (hd : c.isDigit = false) : c ∉ decimal cuid := fun h => by
  rcases mem_decimal h with rfl | h
  · exact hc rfl
  · rw [hd] at h
    cases h

theorem decimal_ne_nil (cuid : Int) : decimal cuid ≠ [] := by
  rw [decimal]
  split
  · exact List.cons_ne_nil _ _
  · exact Nat.toDigits_ne_nil

theorem toDigits_injective (h : Nat.toDigits 10 m = Nat.toDigits 10 n) : m = n := by
  rw [← Nat.ofDigitChars_ten_toDigits (n := m), h, Nat.ofDigitChars_ten_toDigits]

theorem decimal_injective (h : decimal cuid = decimal cuid') : cuid = cuid' := by
  have hdash (k n : Nat) (t : Str) (h : '-' :: t = Nat.toDigits 10 n) : False := by
    have hd := Nat.isDigit_of_mem_toDigits (b := 10) (c := '-') (n := n) (by decide) (by decide)
      (h ▸ List.mem_cons_self)
    exact absurd hd (by decide)
  rw [decimal, decimal] at h
  split at h <;> split at h
  · have := toDigits_injective (List.cons.inj h).2
    omega
  · exact (hdash 0 _ _ h).elim
  · exact (hdash 0 _ _ h.symm).elim
  · have := toDigits_injective h
    omega

/-! ## The name of the file -/

/-- `"__" + leaf + "__" + cuid`. -/
def fileName (leaf : Str) (cuid : Int) : Str := ['_', '_'] ++ leaf ++ ['_', '_'] ++ decimal cuid

/-- Texts are equal if they are split at the last `_` in equal parts. -/
theorem append_cons_inj {a b x y : Str} (hx : '_' ∉ x) (hy : '_' ∉ y)
    (h : a ++ '_' :: x = b ++ '_' :: y) : a = b ∧ x = y := by
  rcases List.append_eq_append_iff.mp h with ⟨t, rfl, ht⟩ | ⟨t, rfl, ht⟩
  · cases t with
    | nil => simpa using ht
    | cons c t =>
      rw [List.cons_append, List.cons.injEq] at ht
      exact (hx (ht.2 ▸ by simp)).elim
  · cases t with
    | nil => simpa [eq_comm] using ht
    | cons c t =>
      rw [List.cons_append, List.cons.injEq] at ht
      exact (hy (ht.2 ▸ by simp)).elim

theorem fileName_injective {leaf leaf' : Str} (h : fileName leaf cuid = fileName leaf' cuid') :
    leaf = leaf' ∧ cuid = cuid' := by
  have hunder (cuid : Int) : '_' ∉ decimal cuid := not_mem_decimal (by decide) (by decide)
  have hsplit (leaf : Str) (cuid : Int) :
      fileName leaf cuid = (['_', '_'] ++ leaf ++ ['_']) ++ '_' :: decimal cuid := by
    simp [fileName]
  rw [hsplit, hsplit] at h
  obtain ⟨hleaf, hc⟩ := append_cons_inj (hunder _) (hunder _) h
  exact ⟨List.append_cancel_left (List.append_cancel_right hleaf), decimal_injective hc⟩

theorem not_mem_fileName {leaf : Str} (h : c ∉ leaf) (hu : c ≠ '_') (hd : c ≠ '-')
    (hn : c.isDigit = false) : c ∉ fileName leaf cuid := by
  simp only [fileName, List.mem_append, List.mem_cons, List.not_mem_nil, or_false, not_or]
  exact ⟨⟨⟨⟨hu, hu⟩, h⟩, hu, hu⟩, not_mem_decimal hd hn⟩

theorem getLast?_fileName (leaf : Str) (cuid : Int) : (fileName leaf cuid).getLast? ≠ some '/' := by
  rw [fileName, List.getLast?_append_of_ne_nil _ (decimal_ne_nil cuid)]
  exact fun h => not_mem_decimal (by decide) (by decide) (List.mem_of_getLast? h)

/-- It is not the end of `__/__<cuid>`, which the leaf `/` leaves. -/
theorem fileName_ne (leaf : Str) (cuid cuid' : Int) :
    fileName leaf cuid ≠ ['_', '_'] ++ decimal cuid' := by
  intro h
  rw [fileName, List.append_assoc, List.append_assoc] at h
  have hdecimal := List.append_cancel_left h
  have hmem : '_' ∈ decimal cuid' := hdecimal ▸ by simp
  exact not_mem_decimal (by decide) (by decide) hmem

theorem components_fileName {leaf : Str} (h : '/' ∉ leaf) (cuid : Int) :
    components (fileName leaf cuid) = [fileName leaf cuid] :=
  components_of_not_mem (List.cons_ne_nil _ _)
    (not_mem_fileName h (by decide) (by decide) (by decide))

theorem components_fileName_slash (cuid : Int) :
    components (fileName ['/'] cuid) = [['_', '_'], ['_', '_'] ++ decimal cuid] := by
  have hsplit : fileName ['/'] cuid = ['_', '_'] ++ '/' :: (['_', '_'] ++ decimal cuid) := rfl
  have hslash : '/' ∉ ['_', '_'] ++ decimal cuid := by
    rw [List.mem_append, not_or]
    exact ⟨by decide, not_mem_decimal (by decide) (by decide)⟩
  have hne : ['_', '_'] ++ decimal cuid ≠ [] := List.cons_ne_nil _ _
  rw [hsplit, components_append_slash, components_of_not_mem hne hslash]
  rfl

/-! ## The path of the file -/

/-- A path with a name in it, that is more than a root name. -/
structure Named (p : Str) : Prop where
  plain : Plain p
  components_ne : components p ≠ []
  afterRoot_ne : afterRoot p ≠ []

/-- The path of a file that `deposit_chunk` takes apart without loss. -/
structure Proper (p : Str) : Prop where
  plain : Plain p
  afterRoot_ne : afterRoot p ≠ []

theorem filepath_eq (dirPrefix uid : Str) : ∃ t, filepath dirPrefix uid = dirPrefix ++ t ∧
    '\x00' ∉ t := by
  have h0 : '\x00' ∉ operand uid := fun h => by simpa using List.mem_takeWhile_imp h
  rw [filepath, append]
  split
  · exact ⟨_, rfl, by simpa using h0⟩
  · exact ⟨_, rfl, h0⟩

theorem Named.proper (hp : Named dirPrefix) (uid : Str) : Proper (filepath dirPrefix uid) := by
  obtain ⟨t, ht, h0⟩ := filepath_eq dirPrefix uid
  rw [ht]
  refine ⟨⟨?_, ?_⟩, fun h => ?_⟩
  · rw [List.mem_append]
    exact not_or.mpr ⟨hp.plain.null, h0⟩
  · intro happ
    rcases escape_append hp.plain.escape happ with h | h | h <;>
    · have hc := hp.components_ne
      rw [h] at hc
      exact hc rfl
  · rw [(afterRoot_append hp.components_ne hp.afterRoot_ne t).2] at h
    exact hp.afterRoot_ne (List.append_eq_nil_iff.mp h).1

theorem not_mem_filename {p : Str} (h : c ∉ p) (hs : c ≠ '/') (hd : c ≠ '.') : c ∉ filename p := by
  have happ := rootName_append_afterRoot p
  rw [filename]
  split
  · exact fun hm => h (happ ▸ List.mem_append_left _ hm)
  split
  · split <;> simpa
  · exact fun hm => h (happ ▸ List.mem_append_right _ ((List.rtakeWhile_suffix _ _).subset hm))

theorem plain_fileName (hf : Proper (filepath dirPrefix uid)) (cuid : Int) :
    Plain (fileName (filename (filepath dirPrefix uid)) cuid) := by
  refine ⟨not_mem_fileName ?_ (by decide) (by decide) (by decide), ?_⟩
  · exact not_mem_filename hf.plain.null (by decide) (by decide)
  · rintro ⟨t, ht⟩
    cases ht

theorem rawRepresentation_eq (hf : Proper (filepath dirPrefix uid)) (cuid : Int) :
    rawRepresentation dirPrefix uid cuid = append (parentPath (filepath dirPrefix uid))
      (fileName (filename (filepath dirPrefix uid)) cuid) := by
  rw [rawRepresentation, ← append_nil_of_plain (plain_fileName hf cuid)]
  rfl

theorem plain_raw (hf : Proper (filepath dirPrefix uid)) (cuid : Int) :
    Plain (rawRepresentation dirPrefix uid cuid) ∧
      (rawRepresentation dirPrefix uid cuid).getLast? ≠ some '/' := by
  have hfile := plain_fileName hf cuid
  have hhead : (fileName (filename (filepath dirPrefix uid)) cuid).head? ≠
      some '/' := nofun
  rw [rawRepresentation_eq hf cuid]
  refine ⟨Plain.append (hf.plain.of_isPrefix (parentPath_isPrefix _))
    (parentPath_ne_slashes hf.afterRoot_ne) hfile.null hhead, ?_⟩
  have hne : fileName (filename (filepath dirPrefix uid)) cuid ≠ [] := nofun
  rw [append, operand_of hfile.null hfile.escape]
  split
  · rw [List.getLast?_append_of_ne_nil _ (List.cons_ne_nil _ _),
      List.getLast?_cons_of_ne_nil hne]
    exact getLast?_fileName _ _
  · rw [List.getLast?_append_of_ne_nil _ hne]
    exact getLast?_fileName _ _

theorem components_raw (hf : Proper (filepath dirPrefix uid)) (cuid : Int) :
    components (rawRepresentation dirPrefix uid cuid) =
      components (parentPath (filepath dirPrefix uid)) ++
      components (fileName (filename (filepath dirPrefix uid)) cuid) := by
  have hfile := plain_fileName hf cuid
  rw [rawRepresentation_eq hf cuid, components_append_path, operand_of hfile.null hfile.escape]

theorem plain_representation (hf : Proper (filepath dirPrefix uid)) (cuid : Int) :
    Plain (representation dirPrefix uid cuid) :=
  plain_normalize (plain_raw hf cuid).1 (plain_raw hf cuid).2

/-- Where the path of the file leads, before it is normalized. -/
def location (dirPrefix uid : Str) (cuid : Int) (cwd : Location) : Location :=
  (components (rawRepresentation dirPrefix uid cuid)).foldl move
    (start cwd (rawRepresentation dirPrefix uid cuid))

/-- The normal form leads there. -/
theorem location_eq_foldl (hf : Proper (filepath dirPrefix uid)) (cuid : Int)
    (cwd : Location) : location dirPrefix uid cuid cwd =
      (components (representation dirPrefix uid cuid)).foldl move
        (start cwd (representation dirPrefix uid cuid)) :=
  (foldl_move_normalize (plain_raw hf cuid).1 (plain_raw hf cuid).2).symm

/-- The path that the stream gets leads there, too. -/
theorem eq_location_of_walk (hp : Named dirPrefix) {d : Location → Prop} [DecidablePred d]
    {l cwd : Location} (h : walk d (start cwd (append [] (representation dirPrefix uid cuid)))
      (components (append [] (representation dirPrefix uid cuid))) = some l) :
    l = location dirPrefix uid cuid cwd := by
  have hf := hp.proper uid
  rw [append_nil_of_plain (plain_representation hf cuid)] at h
  rw [eq_foldl_of_walk h, location_eq_foldl hf]

theorem eq_location_of_locate (hp : Named dirPrefix) {t : DirTree (List Byte)} {l : Location}
    (h : t.locate (append [] (representation dirPrefix uid cuid)) = some l) :
    l = location dirPrefix uid cuid t.cwd := by
  rw [DirTree.locate] at h
  split at h
  · cases h
  · exact eq_location_of_walk hp h

theorem eq_location_of_locateMade (hp : Named dirPrefix) {t : DirTree (List Byte)} {dir : Str}
    {l : Location} (h : t.locateMade dir (append [] (representation dirPrefix uid cuid)) = some l) :
    l = location dirPrefix uid cuid t.cwd := by
  rw [DirTree.locateMade] at h
  split at h
  · cases h
  · exact eq_location_of_walk hp h

/-! ## The file of a path as the kernel writes it -/

open Paths (Valid IsName render)

theorem render_eq_cons (hcs : Valid cs) : ∃ s, render cs = '/' :: s ∧ s.head? ≠ some '/' := by
  cases cs with
  | nil => exact ⟨[], rfl, nofun⟩
  | cons n cs =>
    have hn := hcs n List.mem_cons_self
    obtain ⟨c, n, rfl⟩ := List.exists_cons_of_ne_nil hn.1
    refine ⟨c :: n ++ Paths.join cs, rfl, fun h => hn.2.1 ?_⟩
    rw [← Option.some.inj h]
    exact List.mem_cons_self

theorem eq_of_dropLast_of_getLastD (hcs : Valid cs) (hcs' : Valid cs')
    (hdir : cs.dropLast = cs'.dropLast) (hleaf : cs.getLastD ['.'] = cs'.getLastD ['.']) :
    cs = cs' := by
  cases cs using List.reverseRecOn with
  | nil =>
    cases cs' using List.reverseRecOn with
    | nil => rfl
    | append_singleton cs' n =>
      refine ((Paths.valid_concat.mp hcs').2.2.2.1 ?_).elim
      simpa using hleaf.symm
  | append_singleton cs m =>
    cases cs' using List.reverseRecOn with
    | nil =>
      refine ((Paths.valid_concat.mp hcs).2.2.2.1 ?_).elim
      simpa using hleaf
    | append_singleton cs' n =>
      simp only [List.dropLast_concat, List.getLastD_concat] at hdir hleaf
      rw [hdir, hleaf]

theorem filepath_render (hcs : Valid cs) (h0 : '\x00' ∉ render cs) (dirPrefix : Str) :
    filepath dirPrefix (render cs) = dirPrefix ++ render cs := by
  obtain ⟨s, hs, hhead⟩ := render_eq_cons hcs
  have hop : operand (render cs) = render cs := by
    refine operand_of h0 ?_
    rintro ⟨t, ht⟩
    rw [hs] at ht
    exact hhead ((List.cons.inj ht).2 ▸ rfl)
  rw [filepath, append, hop, if_neg fun h => h.2.2.1 (hs ▸ rfl)]

section

variable (hp : Plain dirPrefix) (hroot : dirPrefix ≠ ['/'])
include hroot

theorem afterRoot_filepath (hcs : Valid cs) (h0 : '\x00' ∉ render cs) :
    ∃ q, afterRoot (filepath dirPrefix (render cs)) = q ++ render cs := by
  obtain ⟨s, hs, hhead⟩ := render_eq_cons hcs
  rw [filepath_render hcs h0, hs]
  exact afterRoot_append_slash hroot hhead

theorem components_afterRoot_ne (hcs : Valid cs) (h0 : '\x00' ∉ render cs) (hne : cs ≠ []) :
    components (afterRoot (filepath dirPrefix (render cs))) ≠ [] := by
  obtain ⟨q, hq⟩ := afterRoot_filepath hroot hcs h0
  obtain ⟨s, hs, -⟩ := render_eq_cons hcs
  have hrender : components (render cs) = cs := Paths.components_render hcs
  rw [hq, components_append (.inr (.inr (.inl (hs ▸ rfl)))), hrender]
  exact fun h => hne (List.append_eq_nil_iff.mp h).2

include hp

theorem proper_filepath (hcs : Valid cs) (h0 : '\x00' ∉ render cs) :
    Proper (filepath dirPrefix (render cs)) := by
  obtain ⟨s, hs, hhead⟩ := render_eq_cons hcs
  refine ⟨⟨?_, ?_⟩, ?_⟩
  · rw [filepath_render hcs h0, List.mem_append]
    exact not_or.mpr ⟨hp.null, h0⟩
  · rw [filepath_render hcs h0, hs]
    intro happ
    rcases escape_append hp.escape happ with rfl | h | rfl
    · obtain ⟨t, ht⟩ := happ
      exact hhead ((List.cons.inj ht).2 ▸ rfl)
    · exact hroot h
    · obtain ⟨t, ht⟩ := happ
      simp at ht
  · obtain ⟨q, hq⟩ := afterRoot_filepath hroot hcs h0
    rw [hq, hs]
    exact List.append_ne_nil_of_right_ne_nil _ (List.cons_ne_nil _ _)

/-- The directory of the file and the leaf. -/
theorem parent_filepath_render (hcs : Valid cs) (h0 : '\x00' ∉ render cs)
    (hc : components (afterRoot (filepath dirPrefix (render cs))) ≠ []) :
    components (parentPath (filepath dirPrefix (render cs))) = components dirPrefix ++ cs.dropLast ∧
      filename (filepath dirPrefix (render cs)) = cs.getLastD ['.'] := by
  obtain ⟨q, hq⟩ := afterRoot_filepath hroot hcs h0
  have heq := filepath_render hcs h0 dirPrefix
  cases cs using List.reverseRecOn with
  | nil =>
    have hlast : (afterRoot (filepath dirPrefix (render []))).getLast? = some '/' := by
      rw [hq]
      exact List.getLast?_concat
    obtain ⟨hpar, hname⟩ := components_of_slash hlast hc
    refine ⟨?_, hname⟩
    rw [hpar, heq]
    exact components_append_slash dirPrefix []
  | append_singleton cs n =>
    have hn := (Paths.valid_concat.mp hcs).2
    have hr : render (cs ++ [n]) = Paths.join cs ++ '/' :: n := Paths.render_concat
    have hlast : (afterRoot (filepath dirPrefix (render (cs ++ [n])))).getLast? ≠ some '/' := by
      rw [hq, hr, List.getLast?_append_of_ne_nil _ (by simp),
        List.getLast?_append_of_ne_nil _ (List.cons_ne_nil _ _), List.getLast?_cons_of_ne_nil hn.1]
      exact fun h => hn.2.1 (List.mem_of_getLast? h)
    have hcomp := (components_of_name hlast (proper_filepath hp hroot hcs h0).afterRoot_ne).1
    have hall : components (filepath dirPrefix (render (cs ++ [n]))) =
        components dirPrefix ++ cs ++ [n] := by
      obtain ⟨s, hs, -⟩ := render_eq_cons hcs
      rw [heq, components_append (.inr (.inr (.inl (hs ▸ rfl)))), List.append_assoc]
      exact congrArg _ (Paths.components_render hcs)
    rw [hall] at hcomp
    obtain ⟨hpar, hname⟩ := List.append_inj' hcomp rfl
    refine ⟨?_, ?_⟩
    · rw [← hpar, List.dropLast_concat]
    · rw [← List.singleton_inj.mp hname]
      simp

theorem start_raw (hcs : Valid cs) (h0 : '\x00' ∉ render cs)
    (hc : components (afterRoot (filepath dirPrefix (render cs))) ≠ []) (cuid : Int)
    (cwd : Location) :
    start cwd (rawRepresentation dirPrefix (render cs) cuid) = start cwd (dirPrefix ++ ['/']) := by
  have hf := proper_filepath hp hroot hcs h0
  have hpar := isAbsolute_parentPath hc
  have habs : IsAbsolute (filepath dirPrefix (render cs)) ↔ IsAbsolute (dirPrefix ++ ['/']) := by
    obtain ⟨s, hs, -⟩ := render_eq_cons hcs
    rw [filepath_render hcs h0, hs]
    cases dirPrefix <;> rfl
  have hraw : IsAbsolute (rawRepresentation dirPrefix (render cs) cuid) ↔
      IsAbsolute (parentPath (filepath dirPrefix (render cs))) := by
    rw [rawRepresentation_eq hf]
    by_cases hnil : parentPath (filepath dirPrefix (render cs)) = []
    · rw [hnil, append_nil_of_plain (plain_fileName hf cuid)]
      exact ⟨nofun, nofun⟩
    · exact isAbsolute_append hnil
  simp only [start, hraw.trans (hpar.trans habs)]

/-- Where the file of such a path is. -/
theorem location_render (hcs : Valid cs) (h0 : '\x00' ∉ render cs)
    (hc : components (afterRoot (filepath dirPrefix (render cs))) ≠ []) (cuid : Int)
    (cwd : Location) :
    location dirPrefix (render cs) cuid cwd =
      (components dirPrefix).foldl move (start cwd (dirPrefix ++ ['/'])) ++ cs.dropLast ++
        [fileName (cs.getLastD ['.']) cuid] := by
  have hf := proper_filepath hp hroot hcs h0
  obtain ⟨hpar, hname⟩ := parent_filepath_render hp hroot hcs h0 hc
  have hleaf : '/' ∉ cs.getLastD ['.'] := by
    cases cs using List.reverseRecOn with
    | nil => decide
    | append_singleton cs n => simpa using (Paths.valid_concat.mp hcs).2.2.1
  have hdot (n : Str) (hn : n ∈ cs.dropLast ++ [fileName (cs.getLastD ['.']) cuid]) :
      n ≠ ['.'] ∧ n ≠ ['.', '.'] := by
    rcases List.mem_append.mp hn with hn | hn
    · exact (hcs n (List.mem_of_mem_dropLast hn)).2.2
    · rw [List.mem_singleton.mp hn]
      exact ⟨by rintro ⟨⟩, by rintro ⟨⟩⟩
  rw [location, start_raw hp hroot hcs h0 hc, components_raw hf, hpar, hname,
    components_fileName hleaf, List.append_assoc, List.foldl_append, foldl_move_names hdot,
    List.append_assoc]

/-- Where it is when there are only separators behind the root name, as for `/` below `//net`. -/
theorem location_render_of_eq_nil (hcs : Valid cs) (h0 : '\x00' ∉ render cs)
    (hc : components (afterRoot (filepath dirPrefix (render cs))) = []) (cuid : Int)
    (cwd : Location) : cs = [] ∧
    ∃ l, location dirPrefix (render cs) cuid cwd = l ++ [['_', '_'] ++ decimal cuid] := by
  have hf := proper_filepath hp hroot hcs h0
  obtain ⟨-, -, hname⟩ := of_components_eq_nil hf.afterRoot_ne hc
  refine ⟨by_contra fun hne => components_afterRoot_ne hroot hcs h0 hne hc, ?_⟩
  rw [location, components_raw hf, hname, components_fileName_slash, List.foldl_append]
  exact ⟨_, rfl⟩

/-- Two chunks with different uids or cuids never share a file. -/
theorem location_injective (hcs : Valid cs) (h0 : '\x00' ∉ render cs) (hcs' : Valid cs')
    (h0' : '\x00' ∉ render cs') {cwd : Location}
    (h : location dirPrefix (render cs) cuid cwd = location dirPrefix (render cs') cuid' cwd) :
    render cs = render cs' ∧ cuid = cuid' := by
  by_cases hc : components (afterRoot (filepath dirPrefix (render cs))) = [] <;>
    by_cases hc' : components (afterRoot (filepath dirPrefix (render cs'))) = []
  · obtain ⟨rfl, l, hl⟩ := location_render_of_eq_nil hp hroot hcs h0 hc cuid cwd
    obtain ⟨rfl, l', hl'⟩ := location_render_of_eq_nil hp hroot hcs' h0' hc' cuid' cwd
    rw [hl, hl'] at h
    obtain ⟨-, hname⟩ := List.append_inj' h rfl
    exact ⟨rfl, decimal_injective (List.append_cancel_left (List.singleton_inj.mp hname))⟩
  · obtain ⟨-, l, hl⟩ := location_render_of_eq_nil hp hroot hcs h0 hc cuid cwd
    rw [hl, location_render hp hroot hcs' h0' hc'] at h
    obtain ⟨-, hname⟩ := List.append_inj' h rfl
    exact (fileName_ne _ _ _ (List.singleton_inj.mp hname).symm).elim
  · obtain ⟨-, l, hl⟩ := location_render_of_eq_nil hp hroot hcs' h0' hc' cuid' cwd
    rw [hl, location_render hp hroot hcs h0 hc] at h
    obtain ⟨-, hname⟩ := List.append_inj' h rfl
    exact (fileName_ne _ _ _ (List.singleton_inj.mp hname)).elim
  · rw [location_render hp hroot hcs h0 hc, location_render hp hroot hcs' h0' hc',
      List.append_assoc, List.append_assoc] at h
    obtain ⟨hdir, hname⟩ := List.append_inj' (List.append_cancel_left h) rfl
    obtain ⟨hleaf, hcuid⟩ := fileName_injective (List.singleton_inj.mp hname)
    refine ⟨?_, hcuid⟩
    rw [eq_of_dropLast_of_getLastD hcs hcs' hdir hleaf]

end

end ColonyFS.Storage

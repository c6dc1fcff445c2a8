import ColonyFS.Fuse.Step
import ColonyFS.Lib.Listing

/-!
# The namespace

The attributes of a client and the lists in them describe a tree as long as directories stay where
they are: `Inv` says so in terms of `Listing.IsTree`, and every callback keeps it.
-/

namespace ColonyFS

open Paths Function

/-- The kind of a node, for a listing. -/
def Fattribute.entries (a : Fattribute) : Option (List Str) := if a.IsDir then some a.list else none

theorem Fattribute.entries_of_isDir {a : Fattribute} (h : a.IsDir) : a.entries = some a.list :=
  if_pos h

theorem Fattribute.entries_of_not {a : Fattribute} (h : ¬a.IsDir) : a.entries = none := if_neg h

theorem Fattribute.isDir_of_entries {a : Fattribute} {l : List Str} (h : a.entries = some l) :
    a.IsDir ∧ a.list = l := by
  rw [entries] at h
  split at h
  · next hd => exact ⟨hd, Option.some.inj h⟩
  · cases h

theorem Fattribute.Alike.entries {a b : Fattribute} (h : a.Alike b) : b.entries = a.entries := by
  have hd : b.IsDir ↔ a.IsDir := by rw [IsDir, h.type, IsDir]
  simp only [Fattribute.entries, hd, h.list]

namespace Fs

variable {δ σ : Type} {stringHash : Str → Nat} {P : Policy ChunkData σ} {process : Process}
  {c c' : Fs Harmony.Service σ} {path old new n : Str} {a b : Fattribute} {cs ds : List Str}
  {m : Str → Option Fattribute} {l : List Str}

/-- The listing that the attributes amount to. -/
def nodes (m : Str → Option Fattribute) : Listing Str := fun cs =>
  if Valid cs then (m (render cs)).map Fattribute.entries else none

theorem nodes_of_valid (h : Valid cs) : nodes m cs = (m (render cs)).map Fattribute.entries :=
  if_pos h

theorem valid_of_nodes {x : Option (List Str)} (h : nodes m cs = some x) : Valid cs := by
  rw [nodes] at h
  split at h
  · assumption
  · cases h

theorem nodes_eq_some (ha : m (render cs) = some a) (h : Valid cs) :
    nodes m cs = some a.entries := by
  rw [nodes_of_valid h, ha]; rfl

/-- A directory of the listing is one among the attributes. -/
theorem exists_of_nodes (h : nodes m cs = some (some l)) :
    ∃ a, m (render cs) = some a ∧ a.IsDir ∧ a.list = l := by
  rw [nodes_of_valid (valid_of_nodes h), Option.map_eq_some_iff] at h
  obtain ⟨a, ha, he⟩ := h
  exact ⟨a, ha, Fattribute.isDir_of_entries he⟩

theorem nodes_update {x : Option Fattribute} (h : Valid cs) :
    nodes (update m (render cs) x) = update (nodes m) cs (x.map Fattribute.entries) := by
  funext ds
  by_cases hd : Valid ds
  · rw [nodes_of_valid hd]
    obtain rfl | he := eq_or_ne ds cs
    · rw [update_self, update_self]
    · rw [update_of_ne fun hr => he (render_injOn hd h hr), update_of_ne he, nodes_of_valid hd]
  · rw [nodes, if_neg hd, update_of_ne fun he => hd (by rw [he]; exact h), nodes, if_neg hd]

variable [BinaryArchive Instruction]

/-- The attributes make a tree: every path that has one is listed once by its parent, and what a
directory lists is there. -/
structure IsNamespace [BinaryArchive Fattribute.Record] (dht : Dht δ) (c : Fs δ σ) : Prop where
  root : ∃ a, attr? dht c ['/'] = some a ∧ a.IsDir
  parent : ∀ path a, attr? dht c path = some a → path ≠ ['/'] →
    ∃ b, attr? dht c (parentPath path) = some b ∧ b.IsDir ∧ b.list.count (filename path) = 1
  child : ∀ path b n, attr? dht c path = some b → b.IsDir → n ∈ b.list →
    ∃ q a, parentPath q = path ∧ filename q = n ∧ attr? dht c q = some a
  /-- `readdir` lists exactly the children, each once. -/
  readdir : ∀ path b, attr? dht c path = some b → b.IsDir →
    ∃ l, readdir dht path c = .ok (0, ['.'] :: ['.', '.'] :: l) c ∧ l.Nodup ∧
      ∀ n, n ∈ l ↔ ∃ q, parentPath q = path ∧ filename q = n ∧ (attr? dht c q).isSome

structure Inv (c : Fs Harmony.Service σ) : Prop where
  wf : c.WF
  tombstones : ∀ (k : Int) (value : Str), c.dht[k]? = some value → value = []
  canonical : ∀ path a, c.cached path = some a → Canonical path
  tree : (nodes c.cached).IsTree

namespace Inv

theorem real [BinaryArchive Fattribute.Record] (H : Inv c) : Real (Harmony.dht stringHash) c := by
  intro path h
  apply attr?_eq_none h
  intro s value hget
  have hget : Harmony.get stringHash (slot path) c.dht = .ok value s := hget
  rw [Harmony.get_apply] at hget
  split at hget
  · next v hv => cases hget; exact H.tombstones _ _ hv
  · cases hget

theorem tombstones_put (H : Inv c) {ok : Bool} {service : Harmony.Service}
    (h : Harmony.put stringHash path [] c.dht = .ok ok service) (k : Int) (value : Str)
    (hv : service[k]? = some value) : value = [] := by
  cases Harmony.put_apply.symm.trans h
  rw [Std.ExtTreeMap.getElem?_insert] at hv
  split at hv
  · exact (Option.some.inj hv).symm
  · exact H.tombstones k value hv

/-- The components of a path that has an attribute, and its parent. -/
theorem components (H : Inv c) (ha : c.cached path = some a) (hne : path ≠ ['/']) :
    ∃ qs n b, path = render (qs ++ [n]) ∧ Valid (qs ++ [n]) ∧ c.cached (render qs) = some b ∧
      b.IsDir ∧ nodes c.cached qs = some (some b.list) ∧
      nodes c.cached (qs ++ [n]) = some a.entries := by
  obtain ⟨qs, n, rfl, hcs⟩ := (H.canonical path a ha).cases hne
  have hn := nodes_eq_some ha hcs
  obtain ⟨l, hl, _⟩ := H.tree.parent hn
  obtain ⟨b, hb, hd, rfl⟩ := exists_of_nodes hl
  exact ⟨qs, n, b, rfl, hcs, hb, hd, hl, hn⟩

omit [BinaryArchive Instruction] in
theorem canonical_update {x : Option Fattribute}
    (H : ∀ path a, m path = some a → Canonical path) (hcs : Valid cs) (path : Str) (a : Fattribute)
    (h : update m (render cs) x path = some a) : Canonical path :=
  Table.forall_update H (fun _ _ => ⟨cs, hcs, rfl⟩) path a h

theorem retouched (H : Inv c) (h : Retouched c path c') : Inv c' := by
  obtain ⟨wf, hdht, a, b, ha, hab, hc⟩ := h
  obtain ⟨cs, hcs, rfl⟩ := H.canonical path a ha
  refine ⟨wf, hdht ▸ H.tombstones, hc ▸ canonical_update H.canonical hcs, ?_⟩
  have hn := nodes_eq_some ha hcs
  rw [hc, nodes_update hcs, Option.map_some, hab.entries, ← hn, update_eq_self]
  exact H.tree

omit [BinaryArchive Instruction] in
theorem bare (h : a.IsDir → a.list = []) : Listing.Bare a.entries := by
  by_cases hd : a.IsDir
  · exact .inr (by rw [Fattribute.entries_of_isDir hd, h hd])
  · exact .inl (Fattribute.entries_of_not hd)

omit [BinaryArchive Instruction] in
theorem entries_list (hd : b.IsDir) : Fattribute.entries { b with list := l } = some l :=
  Fattribute.entries_of_isDir hd

theorem added (H : Inv c) (hcs : Valid (cs ++ [n])) (hp : c.cached (render (cs ++ [n])) = none)
    (hb : c.cached (render cs) = some b) (hd : b.IsDir)
    (h : Added c (render (cs ++ [n])) b c') : Inv c' := by
  obtain ⟨wf, hdht, a, hfresh, hc⟩ := h
  obtain ⟨hq, hn⟩ := valid_concat.mp hcs
  rw [parentPath_render hn, filename_render hn] at hc
  refine ⟨wf, hdht ▸ H.tombstones,
    hc ▸ canonical_update (canonical_update H.canonical hcs) hq, ?_⟩
  have hl := nodes_eq_some hb hq
  rw [Fattribute.entries_of_isDir hd] at hl
  have hnone : nodes c.cached (cs ++ [n]) = none := by rw [nodes_of_valid hcs, hp]; rfl
  rw [hc, nodes_update hq, nodes_update hcs, Option.map_some, Option.map_some, entries_list hd]
  exact H.tree.add hl hnone (bare fun hd => (hfresh hd).1)

omit [BinaryArchive Instruction] in
theorem count_filter_ne (l : List Str) (n m : Str) :
    (l.filter (· ≠ n)).count m = if m = n then 0 else l.count m := by
  split
  · next h => subst h; exact List.count_eq_zero_of_not_mem (by simp)
  · next h => exact List.count_filter (by simpa using h)

omit [BinaryArchive Instruction] in
theorem count_erase_of_nodup (hl : l.Nodup) (n m : Str) :
    (l.erase n).count m = if m = n then 0 else l.count m := by
  split
  · next h => subst h; exact List.count_eq_zero_of_not_mem hl.not_mem_erase
  · next h => exact List.count_erase_of_ne h

theorem ne_root (H : Inv c) (ha : c.cached path = some a) (hna : ¬a.IsDir) : path ≠ ['/'] := by
  rintro rfl
  obtain ⟨l, hl⟩ := H.tree.root
  obtain ⟨r, hr, hdir, _⟩ := exists_of_nodes hl
  cases ha.symm.trans hr
  exact hna hdir

/-- A bare node goes. -/
theorem removed (H : Inv c) (ha : c.cached path = some a) (hne : path ≠ ['/'])
    (hbare : Listing.Bare a.entries)
    (h : Removed (Harmony.dht stringHash) c path (c.branchOf path)
      ((c.branchOf path).list.filter (· ≠ filename path)) c') : Inv c' := by
  obtain ⟨qs, n, b, rfl, hcs, hb, hd, hl, hn⟩ := H.components ha hne
  obtain ⟨wf, ⟨ok, hput⟩, hc⟩ := h
  obtain ⟨hq, hname⟩ := valid_concat.mp hcs
  have hbranch : c.branchOf (render (qs ++ [n])) = b := by
    rw [branchOf, parentPath_render hname, hb]; rfl
  rw [hbranch, parentPath_render hname, filename_render hname] at hc
  refine ⟨wf, tombstones_put H hput,
    hc ▸ canonical_update (canonical_update H.canonical hq) hcs, ?_⟩
  rw [hc, nodes_update hcs, nodes_update hq, Option.map_some, entries_list hd, Option.map_none]
  exact H.tree.remove hl hn hbare (count_filter_ne _ _)

/-- A node without entries moves: as far as the tree goes it is removed and then added. -/
theorem renamed (H : Inv c) (ha : c.cached old = some a) (hna : ¬a.IsDir) (hnew : Valid (ds ++ [n]))
    (hnone : c.cached (render (ds ++ [n])) = none) (hp : c.cached (render ds) = some b)
    (hd : b.IsDir) (h : Renamed (Harmony.dht stringHash) c old (render (ds ++ [n])) a c') :
    Inv c' := by
  obtain ⟨qs, k, e, rfl, hcs, he, hde, hl, hn⟩ := H.components ha (H.ne_root ha hna)
  obtain ⟨wf, ⟨ok, hput⟩, hc⟩ := h
  obtain ⟨hq, hk⟩ := valid_concat.mp hcs
  obtain ⟨hds, hname⟩ := valid_concat.mp hnew
  have hbare : Listing.Bare a.entries := bare fun h => (hna h).elim
  have hbranch : c.branchOf (render (qs ++ [k])) = e := by
    rw [branchOf, parentPath_render hk, he]; rfl
  -- the two parents, when the old one no longer lists the node
  let t₁ := update (nodes c.cached) qs (some (some (e.list.erase k)))
  have hu : nodes (c.unlisted (render (qs ++ [k]))) = t₁ := by
    rw [unlisted, hbranch, parentPath_render hk, filename_render hk, nodes_update hq,
      Option.map_some, entries_list hde]
  have hpar : ∃ g, c.unlisted (render (qs ++ [k])) (render ds) = some g ∧ g.IsDir := by
    rw [unlisted, parentPath_render hk, hbranch]
    obtain rfl | hsame := eq_or_ne ds qs
    · exact ⟨_, update_self .., hde⟩
    · exact ⟨b, by rw [update_of_ne fun h => hsame (render_injOn hds hq h), hp], hd⟩
  obtain ⟨g, hg, hdg⟩ := hpar
  have hg' : t₁ ds = some (some g.list) := by
    rw [← hu, nodes_eq_some hg hds, Fattribute.entries_of_isDir hdg]
  have hdq : ds ≠ qs ++ [k] := fun h => by
    subst h
    cases ha.symm.trans hp
    exact hna hd
  have hdn : nodes c.cached (ds ++ [n]) = none := by rw [nodes_of_valid hnew, hnone]; rfl
  have hnq : ds ++ [n] ≠ qs ++ [k] := fun h => by rw [h, hn] at hdn; cases hdn
  have hnp : ds ++ [n] ≠ qs := fun h => by rw [h, hl] at hdn; cases hdn
  have hself : ds ≠ ds ++ [n] := by simp
  have H₁ : Listing.IsTree (update t₁ (qs ++ [k]) none) :=
    H.tree.remove hl hn hbare (count_erase_of_nodup (H.tree.nodup hl) k)
  have H₂ := H₁.add (p := ds) (n := n) (l := g.list) (by rw [update_of_ne hdq, hg'])
    (by rw [update_of_ne hnq]; exact (update_of_ne hnp ..).trans hdn) hbare
  have hrel : c.relisted (render (qs ++ [k])) (render (ds ++ [n])) =
      update (c.unlisted (render (qs ++ [k]))) (render ds)
        (some { g with list := g.list ++ [n] }) := by
    rw [relisted, parentPath_render hname, filename_render hname, hg]; rfl
  rw [hrel] at hc
  refine ⟨wf, tombstones_put H hput, ?_, ?_⟩
  · rw [hc, unlisted, parentPath_render hk]
    exact canonical_update (canonical_update (canonical_update
      (canonical_update H.canonical hq) hds) hnew) hcs
  · rw [hc, nodes_update hcs, nodes_update hnew, nodes_update hds, hu, Option.map_some,
      Option.map_some, entries_list hdg, Option.map_none, update_comm hnq, update_comm hdq,
      update_comm hself]
    exact H₂

theorem init (now : Timespec) (e : σ) : Inv (start now ∅ e) := by
  obtain ⟨wf, hdht, a, hd, hlist, _, hc⟩ := start_spec now (∅ : Harmony.Service) e
  have hvalid : Valid [] := by simp [Valid]
  refine ⟨wf, fun k value h => by simp [hdht] at h, ?_, ?_⟩
  · rw [hc]
    exact canonical_update (by simp) hvalid
  · have hroot : nodes (start now (∅ : Harmony.Service) e).cached =
        update (fun _ => none) [] (some (some [])) := by
      rw [hc, show ['/'] = render [] from rfl, nodes_update hvalid, Option.map_some,
        Fattribute.entries_of_isDir hd, hlist]
      congr 1
      funext cs
      simp [nodes]
    rw [hroot]
    exact .single

end Inv

variable [BinaryArchive Fattribute.Record]

/-- A directory is removed when it is empty only, and is not renamed; nothing is renamed onto a path
that exists. There is no flush. -/
def TreeOp (stringHash : Str → Nat) (c : Fs Harmony.Service σ) (act : Act) : Prop :=
  Issued (Harmony.dht stringHash) c act ∧ match act with
    | .rmdir path => Has (Harmony.dht stringHash) c path (·.list = [])
    | .rename old new => Has (Harmony.dht stringHash) c old (fun a => ¬a.IsDir) ∧
        attr? (Harmony.dht stringHash) c new = none
    | .dhtTask _ => False
    | _ => True

theorem inv_step {act : Act} (H : Inv c) (hop : TreeOp stringHash c act)
    (h : step (Harmony.dht stringHash) P process c act = some c') : Inv c' := by
  obtain ⟨hi, hop⟩ := hop
  have hreal : Real (Harmony.dht stringHash) c := H.real
  cases step_change H.wf hreal (puts_harmony stringHash) H.canonical hi h with
  | same => exact H
  | retouched h => exact H.retouched h
  | added hnew hb hd h =>
    obtain ⟨hcan, hne, hnone, _⟩ := hnew
    obtain ⟨cs, n, rfl, hcs⟩ := hcan.cases hne
    rw [hreal.attr?] at hnone
    rw [parentPath_render (valid_concat.mp hcs).2] at hb
    exact H.added hcs hnone hb hd h
  | unlinked ha hd h =>
    exact H.removed ha (H.ne_root ha hd) (Inv.bare fun h => (hd h).elim) h
  | removed hne ha h =>
    obtain ⟨a, ha', hlist⟩ := hreal.has_iff.mp hop
    cases ha.symm.trans ha'
    exact H.removed ha hne (Inv.bare fun _ => hlist) h
  | renamed _ ha hcan hne hb hd h =>
    obtain ⟨hold, hnone⟩ := hop
    obtain ⟨a, ha', hna⟩ := hreal.has_iff.mp hold
    cases ha.symm.trans ha'
    obtain ⟨cs, n, rfl, hcs⟩ := hcan.cases hne
    rw [hreal.attr?] at hnone
    rw [parentPath_render (valid_concat.mp hcs).2] at hb
    exact H.renamed ha hna hcs hnone hb hd h
  | flushed => exact hop.elim

theorem Inv.isNamespace (H : Inv c) : IsNamespace (Harmony.dht stringHash) c := by
  have hreal : Real (Harmony.dht stringHash) c := H.real
  -- the children of a directory, in terms of the listing
  have hchild : ∀ path b n, c.cached path = some b → b.IsDir → (n ∈ b.list ↔
      ∃ q, parentPath q = path ∧ filename q = n ∧ (c.cached q).isSome) := by
    intro path b n hb hd
    obtain ⟨cs, hcs, rfl⟩ := H.canonical path b hb
    have hl := nodes_eq_some hb hcs
    rw [Fattribute.entries_of_isDir hd] at hl
    rw [H.tree.mem_iff hl]
    constructor
    · rintro ⟨x, hx⟩
      have hv := valid_of_nodes hx
      have hn := (valid_concat.mp hv).2
      rw [nodes_of_valid hv] at hx
      obtain ⟨a, ha, _⟩ := Option.map_eq_some_iff.mp hx
      exact ⟨_, parentPath_render hn, filename_render hn, by rw [ha]; rfl⟩
    · rintro ⟨q, hp, rfl, hq⟩
      obtain ⟨a, ha⟩ := Option.isSome_iff_exists.mp hq
      have hne : q ≠ ['/'] := by
        rintro rfl
        exact render_ne_nil cs hp.symm
      obtain ⟨qs, n, rfl, hqs⟩ := (H.canonical q a ha).cases hne
      obtain ⟨hqs', hn⟩ := valid_concat.mp hqs
      rw [parentPath_render hn, render_eq_iff hqs' hcs] at hp
      subst hp
      exact ⟨_, by rw [filename_render hn]; exact nodes_eq_some ha hqs⟩
  constructor
  · obtain ⟨l, hl⟩ := H.tree.root
    obtain ⟨a, ha, hd, _⟩ := exists_of_nodes hl
    exact ⟨a, (hreal.attr? _).trans ha, hd⟩
  · intro path a ha hne
    rw [hreal.attr?] at ha
    obtain ⟨qs, n, b, rfl, hcs, hb, hd, hl, hn⟩ := H.components ha hne
    have hname := (valid_concat.mp hcs).2
    rw [parentPath_render hname, filename_render hname, hreal.attr?]
    exact ⟨b, hb, hd, H.tree.count_eq hl hn⟩
  · intro path b n hb hd hn
    rw [hreal.attr?] at hb
    obtain ⟨q, hp, hf, hq⟩ := (hchild path b n hb hd).mp hn
    obtain ⟨a, ha⟩ := Option.isSome_iff_exists.mp hq
    exact ⟨q, a, hp, hf, (hreal.attr? q).trans ha⟩
  · intro path b hb hd
    rw [hreal.attr?] at hb
    obtain ⟨cs, hcs, rfl⟩ := H.canonical path b hb
    have hl := nodes_eq_some hb hcs
    rw [Fattribute.entries_of_isDir hd] at hl
    refine ⟨b.list, by rw [readdir_eq hb, if_pos hd], H.tree.nodup hl, ?_⟩
    intro n
    simp only [hreal.attr?]
    exact hchild _ b n hb hd

/-- In every run, the attributes and the lists in them describe a tree. -/
theorem isNamespace_of_reach (stringHash : Str → Nat) (P : Policy ChunkData σ) (process : Process)
    (now : Timespec) (chunkservers : σ) (h : Machine.Reach
      (step (Harmony.dht stringHash) P process) (TreeOp stringHash) (start now ∅ chunkservers) c) :
    IsNamespace (Harmony.dht stringHash) c :=
  Inv.isNamespace (h.invariant (.init now chunkservers) fun _ _ _ H hop hs => inv_step H hop hs)

instance (c : Fs Harmony.Service σ) : (act : Act) → Decidable (TreeOp stringHash c act)
  | .rmdir _ | .rename .. | .dhtTask _ | .create .. | .symlink .. | .mkdir .. | .unlink ..
  | .chmod .. | .chown .. | .getattr .. | .read .. | .readdir .. | .readlink .. | .truncate ..
  | .utime .. | .write .. => inferInstanceAs (Decidable (_ ∧ _))

end Fs

namespace Fs

open scoped PlainArchive

/-- A file is created in a new directory and moved out of it, and the directory is removed. -/
theorem isNamespace_of_reach_example : ∃ c : Fs Harmony.Service Unit,
    (attr? (Harmony.dht Harmony.boostHash) c ['/', 'g']).isSome ∧
      IsNamespace (Harmony.dht Harmony.boostHash) c := by
  have h : (Machine.run (Machine.guarded (step (Harmony.dht Harmony.boostHash) idle ⟨0, 0⟩)
      (TreeOp Harmony.boostHash)) (start ⟨0, 0⟩ ∅ ())
      [.mkdir ['/', 'd'] 0o755 ⟨1, 0⟩, .create ['/', 'd', '/', 'f'] 0o644 ⟨2, 0⟩,
        .rename ['/', 'd', '/', 'f'] ['/', 'g'], .rmdir ['/', 'd']]).map
      (fun c => (attr? (Harmony.dht Harmony.boostHash) c ['/', 'g']).isSome) = some true := by
    decide +kernel
  obtain ⟨c, hc, hg⟩ := Option.map_eq_some_iff.mp h
  exact ⟨c, hg, isNamespace_of_reach Harmony.boostHash idle ⟨0, 0⟩ ⟨0, 0⟩ () (.of_run_guarded _ hc)⟩

end Fs

end ColonyFS

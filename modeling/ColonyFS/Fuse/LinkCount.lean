import ColonyFS.Fuse.Lookup
import ColonyFS.Lib.Listing

/-!
# The link count

`getattr` asserts that `st_nlink` is not 0. An attribute that `operator[]` makes has the count 0
until its callback sets it: `create` and `mkdir` do, `symlink` does not. `Linked` says that every
attribute has a count, and that the names in it are there.
-/

namespace ColonyFS

open Paths Function
open Machine

/-- The attribute has a link count, and the names in it are such that `getattr` looks them up. -/
structure Fattribute.Counted (a : Fattribute) : Prop where
  nlink : a.stbuf.nlink ≠ 0
  names : ∀ n ∈ a.list, IsName n ∧ Fs.validatePath n

/-- The paths that a callback hands to `operator[]` and does not give a link count there. Root takes
an attribute that `unlink` has made away with it. -/
def Act.subscripted (process : Process) : Act → List Str
  | .chmod path _ | .chown path _ _ | .utime path _ _ | .write path _ _ _ => [path]
  | .truncate path length => if length < 0 then [] else [path]
  | .create path _ _ | .mkdir path _ _ =>
    if Fs.validatePath (filename path) then [parentPath path] else []
  | .symlink _ path _ => [path, parentPath path]
  | .unlink path _ => if ¬Fs.validatePath (filename path) then []
    else if process.uid = 0 then [parentPath path] else [path, parentPath path]
  | .rmdir path => [parentPath path]
  | .rename old new => [parentPath old, parentPath new]
  | .getattr .. | .read .. | .readdir _ | .readlink .. | .dhtTask _ => []

namespace Fs

variable {σ : Type} {stringHash : Str → Nat} {P : Policy ChunkData σ} {process : Process}
  {c c' c₁ : Fs Harmony.Service σ} {path old new n : Str} {a b : Fattribute}
  {m : Str → Option Fattribute} {l : List Str} {stat : Stat} {act : Act}

section Requests

variable [BinaryArchive Instruction] [BinaryArchive Fattribute.Record]

/-- What `a` lists is in the metadata cache below `path`. -/
def Complete (c : Fs Harmony.Service σ) (path : Str) (a : Fattribute) : Prop :=
  ∀ n ∈ a.list, (c.cached (entry path n)).isSome

instance : Decidable (Complete c path a) := inferInstanceAs (Decidable (∀ n ∈ a.list, _))

/-- `operator[]` finds what it is asked for; and a directory that moves, or whose attribute only the
DHT has, lists nothing that is missing. A new name is short enough for `getattr`, and the old one is
listed once. -/
def Counting (stringHash : Str → Nat) (process : Process) (c : Fs Harmony.Service σ) (act : Act) :
    Prop :=
  Issued (Harmony.dht stringHash) c act ∧ (∀ q ∈ act.subscripted process, (c.cached q).isSome) ∧
    match act with
    | .getattr path _ | .read path _ _ _ | .readdir path | .readlink path _ _ => Canonical path ∧
        (c.cached path = none → ∀ a ∈ attr? (Harmony.dht stringHash) c path, Complete c path a)
    | .rename old new => Canonical old ∧ validatePath (filename new) ∧
        (c.branchOf old).list.count (filename old) ≤ 1 ∧
        ∀ a ∈ c.cached old, Complete c new a ∧ ∀ n ∈ a.list, entry new n ≠ old
    | _ => True

instance (c : Fs Harmony.Service σ) : (act : Act) → Decidable (Counting stringHash process c act)
  | .getattr .. | .read .. | .readdir _ | .readlink .. | .rename .. | .chmod .. | .chown ..
  | .create .. | .mkdir .. | .rmdir _ | .symlink .. | .truncate .. | .unlink .. | .utime ..
  | .write .. | .dhtTask _ => inferInstanceAs (Decidable (_ ∧ _ ∧ _))

end Requests

/-! ## Attributes -/

/-- Every attribute has a link count, and what is listed is there. -/
structure Linked (m : Str → Option Fattribute) : Prop where
  canonical : ∀ path a, m path = some a → Canonical path
  counted : ∀ path a, m path = some a → a.Counted
  child : ∀ path a n, m path = some a → n ∈ a.list → ∃ b, m (entry path n) = some b

namespace Linked

theorem set (H : Linked m) (hp : Canonical path) (ha : a.Counted)
    (hl : ∀ n ∈ a.list, ∃ b, m (entry path n) = some b) :
    Linked (update m path (some a)) where
  canonical := Table.forall_update H.canonical fun _ _ => hp
  counted := Table.forall_update H.counted fun _ h => by cases h; exact ha
  child q b n hq hn := by
    apply Table.exists_update
    obtain rfl | hne := eq_or_ne q path
    · rw [update_self] at hq
      cases hq
      exact hl n hn
    · rw [update_of_ne hne] at hq
      exact H.child q b n hq hn

theorem alike (H : Linked m) (ha : m path = some a) (hab : a.Alike b) :
    Linked (update m path (some b)) := by
  have hc := H.counted path a ha
  apply H.set (H.canonical path a ha)
  · exact ⟨hab.nlink ▸ hc.nlink, hab.list ▸ hc.names⟩
  · rw [hab.list]
    exact fun n hn => H.child path a n ha hn

/-- A directory drops some of its entries. -/
theorem sublist (H : Linked m) (ha : m path = some a) (hl : ∀ n ∈ l, n ∈ a.list) :
    Linked (update m path (some { a with list := l })) := by
  have hc := H.counted path a ha
  apply H.set (H.canonical path a ha)
  · exact ⟨hc.nlink, fun n hn => hc.names n (hl n hn)⟩
  · exact fun n hn => H.child path a n ha (hl n hn)

/-- A directory gets an entry for a path that is there. -/
theorem enter (H : Linked m) (hcan : Canonical path) (hne : path ≠ ['/'])
    (hv : validatePath (filename path)) (ha : m path = some a) (hb : m (parentPath path) = some b) :
    Linked (update m (parentPath path) (some { b with list := b.list ++ [filename path] })) := by
  have hc := H.counted _ b hb
  obtain ⟨hname, he⟩ := hcan.entry_filename hne
  apply H.set (H.canonical _ b hb)
  · refine ⟨hc.nlink, ?_⟩
    intro n hn
    obtain hn | hn := List.mem_append.mp hn
    · exact hc.names n hn
    · rw [List.mem_singleton.mp hn]
      exact ⟨hname, hv⟩
  · intro n hn
    obtain hn | hn := List.mem_append.mp hn
    · exact H.child _ b n hb hn
    · rw [List.mem_singleton.mp hn, he]
      exact ⟨a, ha⟩

/-- A path goes that its parent does not list. -/
theorem erase (H : Linked m) (h : ∀ b, m (parentPath path) = some b → filename path ∉ b.list) :
    Linked (update m path none) where
  canonical := Table.forall_update H.canonical fun _ h => by cases h
  counted := Table.forall_update H.counted fun _ h => by cases h
  child q b n hq hn := by
    have hqp : q ≠ path := fun he => by
      rw [he, update_self] at hq
      cases hq
    rw [update_of_ne hqp] at hq
    have hname := ((H.counted q b hq).names n hn).1
    have hcan := H.canonical q b hq
    rw [update_of_ne fun he => ?_]
    · exact H.child q b n hq hn
    · refine h b ?_ ?_
      · rw [← he, hcan.parentPath_entry hname, hq]
      · rw [← he, hcan.filename_entry hname]
        exact hn

theorem placed (H : Linked m) (hcan : Canonical path) (hne : path ≠ ['/'])
    (hv : validatePath (filename path)) (hb : m (parentPath path) = some b) (hlist : a.list = [])
    (hn : a.stbuf.nlink ≠ 0) : Linked (update (update m path (some a)) (parentPath path)
      (some { b with list := b.list ++ [filename path] })) := by
  have H₁ : Linked (update m path (some a)) :=
    H.set hcan ⟨hn, by simp [hlist]⟩ (by simp [hlist])
  refine H₁.enter hcan hne hv (update_self ..) ?_
  rw [update_of_ne (hcan.parentPath_ne hne), hb]

theorem removed (H : Linked m) (hb : m (parentPath path) = some b) :
    Linked (update (update m (parentPath path)
      (some { b with list := b.list.filter (· ≠ filename path) })) path none) := by
  refine (H.sublist hb fun n hn => (List.mem_filter.mp hn).1).erase ?_
  intro b' hb'
  rw [update_self] at hb'
  cases hb'
  simp

variable [BinaryArchive Instruction]

/-- The parent of a path that it lists. -/
theorem exists_branch (hlist : filename old ∈ (c.branchOf old).list) :
    ∃ e, c.cached (parentPath old) = some e ∧ c.branchOf old = e := by
  cases he : c.cached (parentPath old) with
  | some e => exact ⟨e, rfl, by rw [branchOf, he]; rfl⟩
  | none => simp [branchOf, he, Fattribute.new] at hlist

/-- A node moves whose attribute lists nothing that is missing at its new place. -/
theorem renamed (H : Linked c.cached) (ha : c.cached old = some a) (hroot : old ≠ ['/'])
    (hlist : filename old ∈ (c.branchOf old).list)
    (hcount : (c.branchOf old).list.count (filename old) ≤ 1)
    (hnew : Canonical new) (hne : new ≠ ['/']) (hv : validatePath (filename new))
    (hb : c.cached (parentPath new) = some b) (hno : old ≠ new)
    (hc : Complete c new a) (hmoved : ∀ n ∈ a.list, entry new n ≠ old) :
    Linked (update (update (c.relisted old new) new (some a)) old none) := by
  obtain ⟨e, he, hbranch⟩ := exists_branch hlist
  rw [hbranch] at hlist hcount
  have hgone : filename old ∉ e.list.erase (filename old) := by
    rw [← List.count_eq_zero, List.count_erase_self]
    omega
  -- first off the list of the old parent, then there, then on the list of the new parent
  have hx : c.unlisted old = update c.cached (parentPath old)
      (some { e with list := e.list.erase (filename old) }) := by
    rw [unlisted, hbranch]
  have H₁ : Linked (c.unlisted old) := by
    rw [hx]
    exact H.sublist he fun n hn => List.mem_of_mem_erase hn
  have hthere : ∀ q, (∃ b, c.cached q = some b) → ∃ b, c.unlisted old q = some b := by
    intro q hq
    rw [hx]
    exact Table.exists_update hq
  have H₂ : Linked (update (c.unlisted old) new (some a)) :=
    H₁.set hnew (H.counted old a ha) fun n hn => hthere _ (Option.isSome_iff_exists.mp (hc n hn))
  obtain ⟨b₁, hb₁⟩ := hthere _ ⟨b, hb⟩
  have hpn : parentPath new ≠ new := hnew.parentPath_ne hne
  have H₃ := H₂.enter hnew hne hv (update_self ..) (by rw [update_of_ne hpn, hb₁])
  have hrel : update (c.relisted old new) new (some a) = update
      (update (c.unlisted old) new (some a)) (parentPath new)
      (some { b₁ with list := b₁.list ++ [filename new] }) := by
    rw [relisted, hb₁, Option.getD_some, update_comm hpn]
  rw [hrel]
  apply H₃.erase
  intro b' hb' hmem
  have heold := ((H.canonical old a ha).entry_filename hroot).2
  obtain hp | hp := eq_or_ne (parentPath old) (parentPath new)
  · rw [hp, update_self] at hb'
    cases hb'
    rw [hx, ← hp, update_self] at hb₁
    cases hb₁
    obtain hmem | hmem := List.mem_append.mp hmem
    · exact hgone hmem
    · exact (H.canonical old a ha).filename_ne hnew hroot hne hp hno (List.mem_singleton.mp hmem)
  · rw [update_of_ne hp] at hb'
    obtain hq | hq := eq_or_ne (parentPath old) new
    · rw [hq, update_self] at hb'
      cases hb'
      exact hmoved _ hmem (by rw [← hq, heold])
    · rw [update_of_ne hq, hx, update_self] at hb'
      cases hb'
      exact hgone hmem

end Linked

/-! ## The DHT -/

variable [BinaryArchive Fattribute.Record]

/-- What the DHT has for a path is the archive of an attribute with a link count, or none. -/
def Stored (service : Harmony.Service) : Prop := ∀ (k : Int) value r, service[k]? = some value →
  BinaryArchive.load value = some r → (Fattribute.new.deserialize r).Counted

theorem Stored.put {service service' : Harmony.Service} {key value : Str} {ok : Bool}
    (H : Stored service)
    (hv : ∀ r, BinaryArchive.load value = some r → (Fattribute.new.deserialize r).Counted)
    (h : (Harmony.dht stringHash).put key value service = .ok ok service') : Stored service' := by
  cases Harmony.put_apply.symm.trans h
  intro k value' r hk hr
  rw [Std.ExtTreeMap.getElem?_insert] at hk
  split at hk
  · cases hk
    exact hv r hr
  · exact H k value' r hk hr

theorem Stored.erase {service service' : Harmony.Service} {key : Str} {ok : Bool}
    (H : Stored service) (h : (Harmony.dht stringHash).put key [] service = .ok ok service') :
    Stored service' := by
  refine H.put ?_ h
  intro r hr
  rw [BinaryArchive.load_nil] at hr
  cases hr

theorem Stored.flush {service service' : Harmony.Service} {key : Str} {ok : Bool}
    (H : Stored service) (ha : a.Counted)
    (h : (Harmony.dht stringHash).put key (BinaryArchive.save a.serialize) service =
      .ok ok service') : Stored service' := by
  refine H.put ?_ h
  intro r hr
  rw [BinaryArchive.load_save] at hr
  cases hr
  exact ⟨ha.nlink, ha.names⟩

variable [BinaryArchive Instruction]

structure Counted (c : Fs Harmony.Service σ) : Prop where
  wf : c.WF
  stored : Stored c.dht
  linked : Linked c.cached

/-- What `PreRead` makes of the value in the DHT. -/
theorem Stored.preRead {service t : Harmony.Service} {v : AttributeValue} (H : Stored service)
    (h : (MetadataOnFlush.policy (Harmony.dht stringHash)).preRead (AttributeValue.newPointer path)
      service = .ok v t) : v.mapped.Counted := by
  obtain ⟨value, s, hg, hv⟩ := Exec.bind_eq_ok.mp (MetadataOnFlush.getPair_of_preRead h)
  have hg : Harmony.get stringHash (slot path) service = .ok value s := hg
  rw [Harmony.get_apply] at hg
  split at hg
  · next hk =>
    cases hg
    cases hr : (BinaryArchive.load value : Option Fattribute.Record) with
    | none =>
      simp only [AttributeValue.setValue, hr, Option.map_none] at hv
      cases hv
    | some r =>
      simp only [AttributeValue.setValue, hr, Option.map_some] at hv
      cases hv
      exact H _ _ r hk hr
  · cases hg

theorem Counted.attr? (H : Counted c) (ha : attr? (Harmony.dht stringHash) c path = some a) :
    a.Counted := by
  simp only [Fs.attr?] at ha
  split at ha
  · next hc =>
    cases ha
    exact H.linked.counted path _ hc
  · split at ha
    · next hP =>
      cases ha
      exact H.stored.preRead hP
    · cases ha

/-! ## Look-ups -/

theorem Counted.metadataOf {p : Ptr} (H : Counted c) (hcan : Canonical path)
    (hl : c.cached path = none → ∀ a ∈ Fs.attr? (Harmony.dht stringHash) c path,
      Complete c path a) (h : metadataOf (Harmony.dht stringHash) path c = .ok p c') :
    Counted c' := by
  obtain ⟨e, he⟩ | ⟨_, c₁, a, hm, ha, wf, _, hc, hdht⟩ :=
    metadataOf_cases H.wf (readOnly_harmony stringHash) path
  · cases he.symm.trans h
  cases hm.symm.trans h
  refine ⟨wf, hdht ▸ H.stored, ?_⟩
  rw [hc]
  refine H.linked.set hcan (H.attr? ha) ?_
  intro n hn
  cases hp : c.cached path with
  | none => exact Option.isSome_iff_exists.mp (hl hp a ha n hn)
  | some b =>
    cases (attr?_of_cached hp).symm.trans ha
    exact H.linked.child path a n hp hn

/-- The assertion of `getattr` holds. -/
theorem Counted.getattr_ne_assertion (H : Counted c) :
    getattr (Harmony.dht stringHash) path stat c ≠ .error .assertion c' := by
  intro h
  rw [getattr] at h
  split at h
  · cases h
  rw [catchLookup] at h
  split at h
  · cases h
  obtain ⟨e, hm⟩ | ⟨p, c₁, a, hm, ha, _, hp, hc, _⟩ :=
    metadataOf_cases H.wf (readOnly_harmony stringHash) path
  · cases (Exec.bind_of_error hm).symm.trans h
    obtain ⟨s, _, hP | ⟨hb, _⟩⟩ := metadataOf_stopped H.wf hm
    · obtain ⟨x, hx⟩ := MetadataOnFlush.raised_of_preRead hP
      cases hx
    · cases hb
  · rw [Exec.bind_of_ok hm, Exec.bind_of_ok (getMapped_ok hp (by rw [hc, update_self])),
      Exec.bind_of_ok (Exec.require_ok (H.attr? ha).nlink)] at h
    cases h

/-- What `readdir` reports is looked up by `getattr`. -/
theorem Counted.getattr_of_readdir (H : Counted c)
    (hop : Counting stringHash process c (.readdir path))
    (h : readdir (Harmony.dht stringHash) path c = .ok (0, ['.'] :: ['.', '.'] :: l) c')
    (hn : n ∈ l) :
    ∃ st, getattr (Harmony.dht stringHash) (entry path n) stat c' = .ok (0, st) c' := by
  obtain ⟨_, _, hcan, hl⟩ := hop
  obtain ⟨p, a, hm, ha, hnames⟩ := readdir_ok H.wf (readOnly_harmony stringHash) h
  cases hnames
  have H' : Counted c' := H.metadataOf hcan hl hm
  obtain ⟨b, hb⟩ := H'.linked.child path a n ha hn
  obtain ⟨hname, hv⟩ := (H'.linked.counted path a ha).names n hn
  refine ⟨b.stbuf, ?_⟩
  rw [getattr_eq hb, (H'.linked.canonical path a ha).filename_entry hname, if_neg (not_not.mpr hv),
    if_pos (H'.linked.counted _ b hb).nlink]

/-! ## Runs -/

namespace Counted

theorem retouched (H : Counted c) (h : Retouched c path c') : Counted c' := by
  obtain ⟨wf, hdht, a, b, ha, hab, hc⟩ := h
  exact ⟨wf, hdht ▸ H.stored, hc ▸ H.linked.alike ha hab⟩

theorem placed (H : Counted c) (hi : New (Harmony.dht stringHash) c path)
    (hv : validatePath (filename path)) (hb : c.cached (parentPath path) = some b)
    (hlist : a.list = []) (hn : a.stbuf.nlink ≠ 0) (h : Placed c path a b c') : Counted c' :=
  ⟨h.wf, h.dht ▸ H.stored, h.cached ▸ H.linked.placed hi.1 hi.2.1 hv hb hlist hn⟩

theorem removed (H : Counted c) (hb : ∃ b, c.cached (parentPath path) = some b)
    (h : Removed (Harmony.dht stringHash) c path (c.branchOf path)
      ((c.branchOf path).list.filter (· ≠ filename path)) c') : Counted c' := by
  obtain ⟨b, hb⟩ := hb
  obtain ⟨wf, ⟨ok, hput⟩, hc⟩ := h
  have hbranch : c.branchOf path = b := by rw [branchOf, hb]; rfl
  rw [hbranch] at hc
  exact ⟨wf, H.stored.erase hput, hc ▸ H.linked.removed hb⟩

theorem parentPath_ne (H : Counted c) (hb : ∃ b, c.cached (parentPath path) = some b) :
    parentPath path ≠ path := by
  obtain ⟨b, hb⟩ := hb
  exact parentPath_ne_of_canonical (H.linked.canonical _ b hb)

theorem unlink {freed r : Int} (H : Counted c)
    (hp : ∀ q ∈ (Act.unlink path freed).subscripted process, ∃ a, c.cached q = some a)
    (h : unlink (Harmony.dht stringHash) process path freed c = .ok r c') : Counted c' := by
  by_cases hv : validatePath (filename path)
  · simp only [Act.subscripted, hv, not_true_eq_false, if_false] at hp
    by_cases hroot : process.uid = 0
    · rw [if_pos hroot] at hp
      have hb := hp (parentPath path) (by simp)
      obtain ⟨c₁, hr, H₁⟩ := unlink_root freed H.wf (puts_harmony stringHash) (H.parentPath_ne hb) hv hroot
      cases hr.symm.trans h
      exact H.removed hb H₁
    · rw [if_neg hroot] at hp
      obtain ⟨a, ha⟩ := hp path (by simp)
      obtain ⟨r, c₁, hr, H₁⟩ := unlink_spec process freed H.wf (puts_harmony stringHash) ha
      cases hr.symm.trans h
      obtain ⟨_, H₁⟩ | H₁ := H₁
      · exact H.retouched H₁
      · exact H.removed (hp (parentPath path) (by simp)) H₁
  · rw [Fs.unlink, if_pos hv] at h
    cases h
    exact H

theorem rename {r : Int} (H : Counted c)
    (hop : Counting stringHash process c (.rename old new))
    (h : rename (Harmony.dht stringHash) old new c = .ok r c') : Counted c' := by
  obtain ⟨⟨hroot, _, hnew, hne, _, hno, hbelow⟩, hp, hold, hv, hcount, hlists⟩ := hop
  have h₁ : parentPath old ≠ old := hold.parentPath_ne hroot
  have h₂ : parentPath new ≠ old := fun h => by
    subst h
    exact hbelow (hnew.parentPath_isPrefix hne hroot)
  obtain ⟨b, hb⟩ := Option.isSome_iff_exists.mp (hp (parentPath new) (by simp [Act.subscripted]))
  by_cases hlist : filename old ∈ (c.branchOf old).list
  · -- the parent lists the path, so its attribute is in the cache
    obtain ⟨e, he, hbranch⟩ := Linked.exists_branch hlist
    rw [hbranch] at hlist
    obtain ⟨a, ha⟩ := H.linked.child _ e _ he hlist
    rw [(hold.entry_filename hroot).2] at ha
    obtain ⟨hc, hmoved⟩ := hlists a ha
    rw [← hbranch] at hlist
    obtain ⟨c₁, hr, wf, ⟨ok, hput⟩, hcached⟩ :=
      rename_spec H.wf (puts_harmony stringHash) hno hlist ((relisted_eq h₁ h₂).trans ha)
    cases hr.symm.trans h
    refine ⟨wf, H.stored.erase hput, ?_⟩
    rw [hcached]
    exact H.linked.renamed ha hroot hlist hcount hnew hne hv hb hno hc hmoved
  · obtain ⟨c₁, hr⟩ := rename_unlisted (Harmony.dht stringHash) new H.wf hlist
    cases hr.symm.trans h

theorem read {buffer : List Byte} {size offset : Nat} {r : Int × List Byte} (H : Counted c)
    (hop : Counting stringHash process c (.read path buffer size offset))
    (h : read (Harmony.dht stringHash) P path buffer size offset c = .ok r c') : Counted c' := by
  obtain ⟨p, c₁, hm, h⟩ := Exec.bind_eq_ok.mp h
  obtain ⟨a, s, hg, h⟩ := Exec.bind_eq_ok.mp h
  cases getMapped_state hg
  have H₁ : Counted c₁ := H.metadataOf hop.2.2.1 hop.2.2.2 hm
  split at h
  · cases h
    exact H₁
  · obtain ⟨_, c₂, h₂, h⟩ := Exec.bind_eq_ok.mp h
    obtain ⟨d, e, rfl⟩ := onData_cases h₂
    cases h
    exact ⟨H₁.wf, H₁.stored, H₁.linked⟩

theorem dhtTask (H : Counted c)
    (h : dhtTask (Harmony.dht stringHash) P path c = .ok () c') : Counted c' := by
  obtain ⟨wf, hc, hdht⟩ := dhtTask_cases H.wf h
  refine ⟨wf, ?_, hc ▸ H.linked⟩
  obtain hdht | ⟨a, ok, ha, hput⟩ := hdht
  · exact hdht ▸ H.stored
  · exact H.stored.flush (H.linked.counted path a ha) hput

theorem step (H : Counted c) (hop : Counting stringHash process c act)
    (h : step (Harmony.dht stringHash) P process c act = some c') : Counted c' := by
  have hp : ∀ q ∈ act.subscripted process, ∃ a, c.cached q = some a :=
    fun q hq => Option.isSome_iff_exists.mp (hop.2.1 q hq)
  have hi := hop.1
  cases act with
  | chmod path mode =>
    obtain ⟨a, ha⟩ := hp path (by simp [Act.subscripted])
    obtain ⟨b, hb, hm⟩ := hi
    cases (attr?_of_cached ha).symm.trans hb
    obtain ⟨r, c₁, hr, H₁⟩ := chmod_spec H.wf ha hm
    cases after_ok hr h
    exact H.retouched H₁
  | chown path uid gid =>
    obtain ⟨a, ha⟩ := hp path (by simp [Act.subscripted])
    obtain ⟨c₁, hr, H₁⟩ := chown_spec H.wf ha
    cases after_ok hr h
    exact H.retouched H₁
  | utime path actime modtime =>
    obtain ⟨a, ha⟩ := hp path (by simp [Act.subscripted])
    obtain ⟨c₁, hr, H₁⟩ := utime_spec H.wf ha
    cases after_ok hr h
    exact H.retouched H₁
  | write path buffer size offset =>
    obtain ⟨a, ha⟩ := hp path (by simp [Act.subscripted])
    obtain ⟨r, hr⟩ := after_eq_some.mp h
    exact H.retouched (write_cases H.wf ha hr)
  | truncate path length =>
    obtain ⟨r, hr⟩ := after_eq_some.mp h
    by_cases hlen : length < 0
    · rw [truncate, catchLookup, if_pos hlen] at hr
      cases hr
      exact H
    · obtain ⟨a, ha⟩ := hp path (by simp [Act.subscripted, hlen])
      exact H.retouched (truncate_cases H.wf ha hr)
  | create path mode now =>
    obtain ⟨r, hr⟩ := after_eq_some.mp h
    by_cases hv : validatePath (filename path)
    · obtain ⟨b, hb⟩ := hp (parentPath path) (by simp [Act.subscripted, hv])
      obtain rfl | ⟨_, a, _, hlist, hn, H₁⟩ := create_placed H.wf (hi.1.parentPath_ne hi.2.1)
        (cached_of_attr?_none hi.2.2.1) hb hr
      · exact H
      · exact H.placed hi hv hb hlist hn H₁
    · rw [create, if_pos hv] at hr
      cases hr
      exact H
  | mkdir path mode now =>
    obtain ⟨r, hr⟩ := after_eq_some.mp h
    obtain ⟨hi, _⟩ := hi
    by_cases hv : validatePath (filename path)
    · obtain ⟨b, hb⟩ := hp (parentPath path) (by simp [Act.subscripted, hv])
      obtain rfl | ⟨_, a, hlist, hn, H₁⟩ := mkdir_placed H.wf (hi.1.parentPath_ne hi.2.1)
        (cached_of_attr?_none hi.2.2.1) hb hr
      · exact H
      · exact H.placed hi hv hb hlist hn H₁
    · rw [mkdir, if_pos hv] at hr
      cases hr
      exact H
  | symlink target path now =>
    -- the link is new, so `operator[]` does not find it
    obtain ⟨a, ha⟩ := hp path (by simp [Act.subscripted])
    cases (cached_of_attr?_none hi.2.2.1).symm.trans ha
  | getattr path stat =>
    obtain ⟨r, hr⟩ := after_eq_some.mp h
    obtain rfl | ⟨_, p, hm⟩ := getattr_returned H.wf (readOnly_harmony stringHash) hr
    · exact H
    · exact H.metadataOf hop.2.2.1 hop.2.2.2 hm
  | readdir path =>
    obtain ⟨r, hr⟩ := after_eq_some.mp h
    obtain rfl | ⟨p, hm⟩ := readdir_returned H.wf (readOnly_harmony stringHash) hr
    · exact H
    · exact H.metadataOf hop.2.2.1 hop.2.2.2 hm
  | readlink path buffer size =>
    obtain ⟨r, hr⟩ := after_eq_some.mp h
    obtain ⟨p, hm⟩ := readlink_returned hr
    exact H.metadataOf hop.2.2.1 hop.2.2.2 hm
  | read path buffer size offset =>
    obtain ⟨r, hr⟩ := after_eq_some.mp h
    exact H.read hop hr
  | unlink path freed =>
    obtain ⟨r, hr⟩ := after_eq_some.mp h
    exact H.unlink hp hr
  | rmdir path =>
    have hb := hp (parentPath path) (by simp [Act.subscripted])
    obtain ⟨c₁, hr, H₁⟩ := rmdir_spec H.wf (puts_harmony stringHash) (H.parentPath_ne hb)
    cases after_ok hr h
    exact H.removed hb H₁
  | rename old new =>
    obtain ⟨r, hr⟩ := after_eq_some.mp h
    exact H.rename hop hr
  | dhtTask path =>
    obtain ⟨_, hr⟩ := after_eq_some.mp h
    exact H.dhtTask hr

end Counted

theorem start_counted (now : Timespec) (e : σ) : Counted (start now ∅ e) := by
  obtain ⟨wf, hdht, a, _, hlist, hn, hc⟩ := start_spec now (∅ : Harmony.Service) e
  refine ⟨wf, fun k value r h => by simp [hdht] at h, ?_⟩
  have hnone : Linked fun _ => none := ⟨by simp, by simp, by simp⟩
  rw [hc]
  exact hnone.set ⟨[], by simp [Valid], rfl⟩ ⟨hn, by simp [hlist]⟩ (by simp [hlist])

/-- In runs in which `operator[]` finds what it is asked for, every attribute has a link count, the
assertion of `getattr` holds, and `getattr` returns 0 for the names that `readdir` reports. The
kernel resolves `.` and `..` itself. -/
theorem counted_of_reach (stringHash : Str → Nat) (P : Policy ChunkData σ) (process : Process)
    (now : Timespec) (chunkservers : σ) (h : Reach (step (Harmony.dht stringHash) P process)
      (Counting stringHash process) (start now ∅ chunkservers) c) :
    (∀ path a, attr? (Harmony.dht stringHash) c path = some a → a.stbuf.nlink ≠ 0) ∧
    (∀ path stat c', getattr (Harmony.dht stringHash) path stat c ≠ .error .assertion c') ∧
    ∀ dir, Counting stringHash process c (.readdir dir) → ∀ l c',
      readdir (Harmony.dht stringHash) dir c = .ok (0, ['.'] :: ['.', '.'] :: l) c' →
      ∀ n ∈ l, ∀ stat, ∃ st,
        getattr (Harmony.dht stringHash) (entry dir n) stat c' = .ok (0, st) c' := by
  have H : Counted c :=
    h.invariant (start_counted now chunkservers) fun _ _ _ H hop hs => H.step hop hs
  refine ⟨fun path a ha => (H.attr? ha).nlink, fun _ _ _ => H.getattr_ne_assertion, ?_⟩
  intro dir hop l c' hr n hn stat
  exact H.getattr_of_readdir hop hr hn

end Fs

namespace Fs

open scoped PlainArchive

/-- A symbolic link is made, reported by `readdir`, and looked up. -/
theorem exists_assertion : ∃ c c₁ c₂ : Fs Harmony.Service Unit,
    Reach (step (Harmony.dht Harmony.boostHash) idle ⟨0, 0⟩) (Issued (Harmony.dht Harmony.boostHash))
      (start ⟨0, 0⟩ ∅ ()) c ∧
    (∃ a, attr? (Harmony.dht Harmony.boostHash) c ['/', 'l'] = some a ∧ a.stbuf.nlink = 0) ∧
    readdir (Harmony.dht Harmony.boostHash) ['/'] c = .ok (0, [['.'], ['.', '.'], ['l']]) c₁ ∧
    getattr (Harmony.dht Harmony.boostHash) ['/', 'l'] .zero c₁ = .error .assertion c₂ := by
  have h : (run (guarded (step (Harmony.dht Harmony.boostHash) idle ⟨0, 0⟩)
      (Issued (Harmony.dht Harmony.boostHash))) (start ⟨0, 0⟩ ∅ ())
      [.symlink ['t'] ['/', 'l'] ⟨1, 0⟩]).map (fun c =>
        ((attr? (Harmony.dht Harmony.boostHash) c ['/', 'l']).map (·.stbuf.nlink),
          (Exec.result? (readdir (Harmony.dht Harmony.boostHash) ['/'] c)).map fun (r, c₁) =>
            (decide (r = (0, [['.'], ['.', '.'], ['l']])),
              Exec.error? (getattr (Harmony.dht Harmony.boostHash) ['/', 'l'] .zero c₁)))) =
      some (some 0, some (true, some .assertion)) := by
    decide +kernel
  obtain ⟨c, hc, h⟩ := Option.map_eq_some_iff.mp h
  obtain ⟨ha, h⟩ := Prod.mk.inj h
  obtain ⟨⟨r, c₁⟩, hr, h⟩ := Option.map_eq_some_iff.mp h
  obtain ⟨hnames, he⟩ := Prod.mk.inj h
  cases of_decide_eq_true hnames
  obtain ⟨c₂, hg⟩ := Exec.of_error? he
  exact ⟨c, c₁, c₂, .of_run_guarded _ hc, Option.map_eq_some_iff.mp ha, Exec.eq_ok_of_result? hr, hg⟩

/-- A file is created in a new directory, moved out of it and flushed, and the root is read. -/
theorem counted_of_reach_example : ∃ c c' : Fs Harmony.Service Unit,
    readdir (Harmony.dht Harmony.boostHash) ['/'] c = .ok (0, [['.'], ['.', '.'], ['d'], ['g']]) c' ∧
    ∀ n ∈ [['d'], ['g']], ∀ stat, ∃ st,
      getattr (Harmony.dht Harmony.boostHash) (entry ['/'] n) stat c' = .ok (0, st) c' := by
  have h : (run (guarded (step (Harmony.dht Harmony.boostHash) idle ⟨0, 0⟩)
      (Counting Harmony.boostHash ⟨0, 0⟩)) (start ⟨0, 0⟩ ∅ ())
      [.mkdir ['/', 'd'] 0o755 ⟨1, 0⟩, .create ['/', 'd', '/', 'f'] 0o644 ⟨2, 0⟩,
        .rename ['/', 'd', '/', 'f'] ['/', 'g'], .dhtTask ['/', 'g']]).map (fun c =>
        (decide (Counting Harmony.boostHash ⟨0, 0⟩ c (.readdir ['/'])),
          (Exec.result? (readdir (Harmony.dht Harmony.boostHash) ['/'] c)).map fun (r, _) =>
            decide (r = (0, [['.'], ['.', '.'], ['d'], ['g']])))) = some (true, some true) := by
    decide +kernel
  obtain ⟨c, hc, h⟩ := Option.map_eq_some_iff.mp h
  obtain ⟨hop, h⟩ := Prod.mk.inj h
  obtain ⟨⟨r, c'⟩, hr, hnames⟩ := Option.map_eq_some_iff.mp h
  cases of_decide_eq_true hnames
  have hr := Exec.eq_ok_of_result? hr
  exact ⟨c, c', hr, (counted_of_reach Harmony.boostHash idle ⟨0, 0⟩ ⟨0, 0⟩ () (.of_run_guarded _ hc)
    |>.2.2 _ (of_decide_eq_true hop) _ _ hr)⟩

end Fs

end ColonyFS

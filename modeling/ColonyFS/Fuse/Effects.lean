import ColonyFS.Fuse.Callbacks

/-!
# What the callbacks do to the attributes

The metadata cache of a client is described by `cached`, the attribute at each path. `Becomes` says
that a callback changed the metadata cache only, and what the attributes are now; every statement of
a callback and then every callback gets a rule in these terms.
-/

namespace ColonyFS

open Paths Function

namespace Fs

variable {δ σ α : Type} {dht : Dht δ} {c c' c₁ : Fs δ σ} {path q : Str} {p : Ptr} {a : Fattribute}
  {m m' : Str → Option Fattribute}

/-! ## The statements -/

theorem onMetadata_ok {x : CacheM Str AttributeValue δ α} {y : α} {s}
    (h : x (c.metadataSink, c.dht) = .ok y s) :
    onMetadata x c = .ok y { c with metadataSink := s.1, dht := s.2 } :=
  Exec.zoom_ok h

theorem onMetadata_error {x : CacheM Str AttributeValue δ α} {e : Stop} {s}
    (h : x (c.metadataSink, c.dht) = .error e s) :
    onMetadata x c = .error e { c with metadataSink := s.1, dht := s.2 } :=
  Exec.zoom_error h

theorem onData_ok {x : DataM σ α} {y : α} {s} (h : x (c.dataSink, c.chunkservers) = .ok y s) :
    onData x c = .ok y { c with dataSink := s.1, chunkservers := s.2 } :=
  Exec.zoom_ok h

theorem onData_error {x : DataM σ α} {e : Stop} {s}
    (h : x (c.dataSink, c.chunkservers) = .error e s) :
    onData x c = .error e { c with dataSink := s.1, chunkservers := s.2 } :=
  Exec.zoom_error h

/-- The data sink and the chunk servers are all that a data operation touches. -/
theorem onData_cases {x : DataM σ α} {y : α} (h : onData x c = .ok y c') :
    ∃ d e, c' = { c with dataSink := d, chunkservers := e } := by
  obtain ⟨s, _, rfl⟩ := Exec.zoom_eq_ok h
  exact ⟨_, _, rfl⟩

/-! ## The attributes that are cached -/

variable [BinaryArchive Instruction]

/-- The key of the attribute of a path. -/
abbrev slot (path : Str) : Str := Cache.slot AttributeValue path

theorem slot_inj : slot path = slot q ↔ path = q :=
  ⟨AttributeValue.getKey_newPointer_injective, fun h => h ▸ rfl⟩

/-- The attribute in the metadata cache. -/
def cached (c : Fs δ σ) (path : Str) : Option Fattribute :=
  (c.metadataSink.impl.get? (slot path)).map (·.mapped)

/-- `p` is what the metadata cache answers for `path`. -/
def Pair (c : Fs δ σ) (path : Str) (p : Ptr) : Prop :=
  c.metadataSink.impl.read (slot path) = some p

def WF (c : Fs δ σ) : Prop := c.metadataSink.impl.WF

/-- `c'` is `c` but for the metadata cache, where the attributes are `m` and no entry went. -/
structure Becomes (c : Fs δ σ) (m : Str → Option Fattribute) (c' : Fs δ σ) : Prop where
  wf : c'.WF
  cached : c'.cached = m
  eq : c' = { c with metadataSink := c'.metadataSink }
  pair : ∀ {q r}, c.Pair q r → c'.Pair q r

theorem Becomes.dht_eq (H : Becomes c m c') : c'.dht = c.dht := by rw [H.eq]

theorem Becomes.trans (H : Becomes c m c') (H' : Becomes c' m' c₁) : Becomes c m' c₁ :=
  ⟨H'.wf, H'.cached, by rw [H'.eq, H.eq], fun h => H'.pair (H.pair h)⟩

theorem cached_empty {dht : δ} {chunkservers : σ} :
    (empty dht chunkservers).cached path = none := by
  simp [empty, cached, Cache.empty]

theorem wf_empty {dht : δ} {chunkservers : σ} : (empty dht chunkservers).WF := BasicCache.WF.empty

theorem exists_pair (ha : c.cached path = some a) : ∃ p, c.Pair path p := by
  simp only [cached, Option.map_eq_some_iff] at ha
  obtain ⟨v, hv, _⟩ := ha
  obtain ⟨p, hp, _⟩ := Option.bind_eq_some_iff.mp hv
  exact ⟨p, hp⟩

theorem Pair.heap (hp : c.Pair path p) (ha : c.cached path = some a) :
    ∃ v, c.metadataSink.impl.heap p = some v ∧ v.mapped = a := by
  have hp : c.metadataSink.impl.read (slot path) = some p := hp
  simp only [cached, BasicCache.get?, hp, Option.bind_some, Option.map_eq_some_iff] at ha
  exact ha

/-- The attributes after a change of one entry of the metadata cache. -/
theorem cached_eq_update {o : Option AttributeValue} (h : ∀ k, c'.metadataSink.impl.get? k =
      if slot path = k then o else c.metadataSink.impl.get? k) :
    c'.cached = update c.cached path (o.map (·.mapped)) := by
  funext q
  rw [cached, h]
  obtain rfl | hq := eq_or_ne q path
  · rw [if_pos rfl, update_self]
  · rw [if_neg fun h => hq (slot_inj.mp h).symm, update_of_ne hq]; rfl

/-- `operator[]` yields the attribute of the path, a new one if there is none. -/
theorem metadataAt_spec (H : c.WF) (path : Str) : ∃ p c', metadataAt path c = .ok p c' ∧
    c'.Pair path p ∧ c'.cached path = some ((c.cached path).getD .new) ∧
    Becomes c (update c.cached path (some ((c.cached path).getD .new))) c' := by
  have hs : Cache.Subscripted c.metadataSink path _ _ := Cache.subscript_spec H
  obtain ⟨wf, read, get?, _, _, keep, _⟩ := hs
  let c' : Fs δ σ := { c with metadataSink := (c.metadataSink.subscript path).2 }
  have h : metadataAt path c = .ok (c.metadataSink.subscript path).1 c' := rfl
  have hc : c'.cached = update c.cached path (some ((c.cached path).getD .new)) := by
    have hslot : ∀ k, c'.metadataSink.impl.get? k = if slot path = k then
        some ((c.metadataSink.impl.get? (slot path)).getD (CacheValue.newPointer path))
        else c.metadataSink.impl.get? k := by
      intro k
      refine (get? k).trans ?_
      split
      · next hk => rw [← hk]
      · rfl
    rw [cached_eq_update hslot, Option.map_some, cached]
    cases c.metadataSink.impl.get? (slot path) <;> rfl
  refine ⟨_, c', h, read, ?_, wf, hc, rfl, ?_⟩
  · rw [hc, update_self]
  · intro q r hq
    exact keep _ _ hq

theorem getMapped_ok (hp : c.Pair path p) (ha : c.cached path = some a) :
    getMapped p c = .ok a c := by
  obtain ⟨v, hv, rfl⟩ := hp.heap ha
  exact Exec.bind_of_ok (onMetadata_ok (Cache.deref_ok hv))

theorem modifyMapped_spec (H : c.WF) (hp : c.Pair path p) (ha : c.cached path = some a)
    (f : Fattribute → Fattribute) :
    ∃ c', modifyMapped p f c = .ok () c' ∧ Becomes c (update c.cached path (some (f a))) c' := by
  obtain ⟨v, hv, rfl⟩ := hp.heap ha
  let w : AttributeValue := { v with mapped := f v.mapped }
  have hk : w.getKey = v.getKey := rfl
  let c' : Fs δ σ := { c with
    metadataSink := { c.metadataSink with impl := c.metadataSink.impl.assign p w } }
  have h : onMetadata (Cache.assign p w) c = .ok () c' := rfl
  refine ⟨c', (Exec.bind_of_ok (onMetadata_ok (Cache.deref_ok hv))).trans h,
    BasicCache.WF.assign H hv hk, ?_, rfl, fun h => h⟩
  exact cached_eq_update (o := some w) fun k => BasicCache.WF.get?_assign H hp

theorem edit_spec (H : c.WF) (path : Str) (f : Fattribute → Fattribute) :
    ∃ c', edit path f c = .ok () c' ∧
      Becomes c (update c.cached path (some (f ((c.cached path).getD .new)))) c' := by
  obtain ⟨p, c₁, h₁, hp, ha, H₁⟩ := metadataAt_spec H path
  obtain ⟨c₂, h₂, H₂⟩ := modifyMapped_spec H₁.wf hp ha f
  rw [H₁.cached, update_idem] at H₂
  exact ⟨c₂, (Exec.bind_of_ok h₁).trans h₂, H₁.trans H₂⟩

/-- `operator[]` on a path that has an attribute. -/
theorem metadataAt_hit (H : c.WF) (ha : c.cached path = some a) : ∃ p c', metadataAt path c =
    .ok p c' ∧ c'.Pair path p ∧ c'.cached path = some a ∧ Becomes c c.cached c' := by
  obtain ⟨p, c', h, hp, ha', H'⟩ := metadataAt_spec H path
  rw [ha, Option.getD_some] at ha' H'
  rw [← ha, update_eq_self] at H'
  exact ⟨p, c', h, hp, ha', H'⟩

variable [BinaryArchive Fattribute.Record]

theorem metadataOf_ok (dht : Dht δ) (ha : c.cached path = some a) :
    ∃ p, metadataOf dht path c = .ok p c ∧ c.Pair path p := by
  obtain ⟨p, hp⟩ := exists_pair ha
  exact ⟨p, onMetadata_ok (Cache.call_hit hp), hp⟩

/-- `purge` takes the attribute out of the cache and puts the empty string in the DHT. -/
theorem purgeMetadata_spec (H : c.WF) {dht' : δ} {ok : Bool}
    (hput : dht.put (slot path) [] c.dht = .ok ok dht') :
    ∃ c', purgeMetadata dht path c = .ok () c' ∧ c'.WF ∧ c'.cached = update c.cached path none ∧
      c' = { c with metadataSink := c'.metadataSink, dht := dht' } ∧
      ∀ {q r}, q ≠ path → c.Pair q r → c'.Pair q r := by
  let c' : Fs δ σ := { c with
    metadataSink := { c.metadataSink with impl := c.metadataSink.impl.erase (slot path) }
    dht := dht' }
  have h : (MetadataOnFlush.policy dht).onErase (CacheValue.newPointer path) c.dht = .ok () dht' :=
    Exec.bind_of_ok hput
  refine ⟨c', onMetadata_ok (Cache.purge_ok h),
    BasicCache.WF.erase H, ?_, rfl, ?_⟩
  · exact cached_eq_update (o := none) fun k => BasicCache.WF.get?_erase H
  · intro q r hq hp
    rw [Pair, BasicCache.read_erase, if_neg fun h => hq (slot_inj.mp h).symm]
    exact hp

/-! ## The callbacks -/

end Fs

/-- `b` describes a node as `a` does: of the same type, with the same entries. -/
structure Fattribute.Alike (a b : Fattribute) : Prop where
  list : b.list = a.list
  type : b.stbuf.mode &&& S_IFMT = a.stbuf.mode &&& S_IFMT
  nlink : b.stbuf.nlink = a.stbuf.nlink

namespace Fs

variable {δ σ α : Type} [BinaryArchive Instruction]
  {dht : Dht δ} {P : Policy ChunkData σ} {process : Process} {c c' : Fs δ σ}
  {path old new : Str} {a b : Fattribute} {f : Fattribute → Fattribute} {mode : UInt32}
  {now : Timespec}

/-- The attribute at `path` was replaced by one like it. -/
structure Retouched (c : Fs δ σ) (path : Str) (c' : Fs δ σ) : Prop where
  wf : c'.WF
  dht : c'.dht = c.dht
  attr : ∃ a b, c.cached path = some a ∧ a.Alike b ∧ c'.cached = update c.cached path (some b)

theorem Retouched.of_eq (H : c'.WF) (hm : c'.cached = c.cached) (hd : c'.dht = c.dht)
    (ha : c.cached path = some a) : Retouched c path c' :=
  ⟨H, hd, a, a, ha, ⟨rfl, rfl, rfl⟩, by rw [hm, ← ha, update_eq_self]⟩

theorem Becomes.retouched (H : Becomes c (update c.cached path (some b)) c')
    (ha : c.cached path = some a) (hb : a.Alike b) : Retouched c path c' :=
  ⟨H.wf, H.dht_eq, a, b, ha, hb, H.cached⟩

theorem edit_retouched (H : c.WF) (ha : c.cached path = some a) (hf : a.Alike (f a)) :
    ∃ c', edit path f c = .ok () c' ∧ Retouched c path c' := by
  obtain ⟨c', h, H'⟩ := edit_spec H path f
  rw [ha, Option.getD_some] at H'
  exact ⟨c', h, H'.retouched ha hf⟩

theorem chmod_spec (H : c.WF) (ha : c.cached path = some a)
    (hm : mode &&& S_IFMT = a.stbuf.mode &&& S_IFMT) :
    ∃ r c', chmod process path mode c = .ok r c' ∧ Retouched c path c' := by
  obtain ⟨p, c₁, h₁, hp, ha₁, H₁⟩ := metadataAt_hit H ha
  rw [chmod, Exec.bind_of_ok h₁, Exec.bind_of_ok (getMapped_ok hp ha₁)]
  split
  · obtain ⟨c₂, h₂, H₂⟩ := modifyMapped_spec H₁.wf hp ha₁
      fun a => { a with stbuf := { a.stbuf with mode := mode } }
    rw [Exec.bind_of_ok h₂]
    rw [H₁.cached] at H₂
    exact ⟨_, _, rfl, (H₁.trans H₂).retouched ha ⟨rfl, hm, rfl⟩⟩
  · exact ⟨_, _, rfl, .of_eq H₁.wf H₁.cached H₁.dht_eq ha⟩

theorem chown_spec {uid gid : UInt32} (H : c.WF) (ha : c.cached path = some a) :
    ∃ c', chown path uid gid c = .ok 0 c' ∧ Retouched c path c' := by
  obtain ⟨c', h, H'⟩ := edit_retouched H ha (f := fun a => { a with
    stbuf := { a.stbuf with uid := uid, gid := gid } }) ⟨rfl, rfl, rfl⟩
  exact ⟨c', Exec.bind_of_ok h, H'⟩

theorem utime_spec {actime modtime : Int} (H : c.WF) (ha : c.cached path = some a) :
    ∃ c', utime path actime modtime c = .ok 0 c' ∧ Retouched c path c' := by
  obtain ⟨c', h, H'⟩ := edit_retouched H ha (f := fun a => { a with
    stbuf := { a.stbuf with
      atim := { a.stbuf.atim with sec := actime }
      mtim := { a.stbuf.mtim with sec := modtime } } }) ⟨rfl, rfl, rfl⟩
  exact ⟨c', Exec.bind_of_ok h, H'⟩

/-- Nothing but the data sink and the chunk servers changed. -/
theorem Retouched.of_data (H : c.WF) (ha : c.cached path = some a) (d : DataSink) (e : σ) :
    Retouched c path { c with dataSink := d, chunkservers := e } :=
  .of_eq H rfl rfl ha

theorem edit_size_retouched (H : c.WF) (ha : c.cached path = some a) (endPointer : Int) :
    ∃ c', edit path (fun a => if a.stbuf.size < endPointer then
      { a with stbuf := { a.stbuf with size := endPointer } } else a) c = .ok () c' ∧
      Retouched c path c' :=
  edit_retouched H ha (by split <;> exact ⟨rfl, rfl, rfl⟩)

theorem write_cases {buffer : List Byte} {size offset : Nat} {r : Int} (H : c.WF)
    (ha : c.cached path = some a) (h : write path buffer size offset c = .ok r c') :
    Retouched c path c' := by
  obtain ⟨_, c₁, h₁, h⟩ := Exec.bind_eq_ok.mp h
  obtain ⟨d, e, rfl⟩ := onData_cases h₁
  obtain ⟨c₂, h₂, H₂⟩ := edit_size_retouched (c := { c with dataSink := d, chunkservers := e }) H ha
    (toInt (offset + size))
  cases (Exec.bind_of_ok h₂).symm.trans h
  exact ⟨H₂.wf, H₂.dht, H₂.attr⟩

omit [BinaryArchive Instruction] in
theorem catchLookup_ok {x handler : FuseM δ σ α} {y : α} (h : x c = .ok y c') :
    catchLookup x handler c = .ok y c' := by
  rw [catchLookup, h]

/-- Whether `data_sink_.truncate` throws or not, the attribute is still there. -/
theorem truncate_cases {length : Int} {r : Int} (H : c.WF) (ha : c.cached path = some a)
    (h : truncate P path length c = .ok r c') : Retouched c path c' := by
  rw [truncate, catchLookup] at h
  by_cases hlen : length < 0
  · rw [if_pos hlen] at h
    cases h
    exact .of_eq H rfl rfl ha
  obtain ⟨p, c₁, h₁, hp, ha₁, H₁⟩ := metadataAt_hit H ha
  rw [if_neg hlen, Exec.bind_of_ok h₁, Exec.bind_of_ok (getMapped_ok hp ha₁)] at h
  cases hx : DataSink.truncate P path (toSizeT length) (toSizeT a.stbuf.size)
      (c₁.dataSink, c₁.chunkservers) with
  | ok _ s =>
    let c₂ : Fs δ σ := { c₁ with dataSink := s.1, chunkservers := s.2 }
    obtain ⟨c₃, h₃, H₃⟩ := modifyMapped_spec (c := c₂) H₁.wf hp ha₁
      fun a => { a with stbuf := { a.stbuf with size := length } }
    have hd : c₂.cached = c.cached := H₁.cached
    rw [Exec.bind_of_ok (onData_ok hx), Exec.bind_of_ok h₃] at h
    cases h
    rw [hd] at H₃
    refine ⟨H₃.wf, H₃.dht_eq.trans H₁.dht_eq, a, _, ha, ?_, H₃.cached⟩
    exact ⟨rfl, rfl, rfl⟩
  | error e s =>
    rw [Exec.bind_of_error (onData_error hx)] at h
    split at h
    · next he =>
      cases he
      cases h
      exact .of_eq H₁.wf H₁.cached H₁.dht_eq ha
    · cases h

/-! ### Exceptions -/

omit [BinaryArchive Instruction] in
theorem deref_ne_raised {p : Ptr} :
    onMetadata (Cache.deref p) c ≠ .error (.raised e) c₁ := by
  intro h
  obtain ⟨_, h, _⟩ := Exec.zoom_eq_error h
  exact Cache.deref_ne_raised h

omit [BinaryArchive Instruction] in
theorem getMapped_ne_raised {p : Ptr} : getMapped p c ≠ .error (.raised e) c₁ := by
  intro h
  obtain h | ⟨v, t, _, h⟩ := Exec.bind_eq_error.mp h
  · exact deref_ne_raised h
  · cases h

omit [BinaryArchive Instruction] in
theorem getMapped_state {p : Ptr} (h : getMapped p c = .ok a c') : c' = c := by
  obtain ⟨v, s, hv, h⟩ := Exec.bind_eq_ok.mp h
  cases h
  cases hp : c.metadataSink.impl.heap p with
  | none => cases (onMetadata_error (Cache.deref_dangling hp)).symm.trans hv
  | some w =>
    cases (onMetadata_ok (Cache.deref_ok hp)).symm.trans hv
    rfl

omit [BinaryArchive Instruction] in
theorem modifyMapped_ne_raised {p : Ptr} {f : Fattribute → Fattribute} :
    modifyMapped p f c ≠ .error (.raised e) c₁ := by
  intro h
  obtain h | ⟨v, t, _, h⟩ := Exec.bind_eq_error.mp h
  · exact deref_ne_raised h
  · cases h

/-- `operator[]` does not ask the policy. -/
theorem edit_ne_raised {path : Str} {f : Fattribute → Fattribute} :
    edit path f c ≠ .error (.raised e) c₁ := by
  intro h
  obtain h | ⟨p, t, _, h⟩ := Exec.bind_eq_error.mp h
  · cases h
  · exact modifyMapped_ne_raised h

omit [BinaryArchive Instruction] in
theorem require_ne_raised {p : Prop} [Decidable p] {stop : Stop} (hs : stop ≠ .raised e) :
    (Exec.require p stop : FuseM δ σ Unit) c ≠ .error (.raised e) c₁ := by
  intro h
  simp only [Exec.require] at h
  split at h
  · cases h
  · cases h; exact hs rfl

omit [BinaryArchive Instruction] in
theorem catchLookup_raised {x handler : FuseM δ σ α} (h : x c = .error (.raised e) c₁) :
    catchLookup x handler c = if e = .lookupE then handler c₁ else .error (.raised e) c₁ := by
  rw [catchLookup, h]
  cases e <;> rfl

/-! ### Callbacks that look at one attribute -/

section Lookups

variable [BinaryArchive Fattribute.Record]

theorem bind_metadataOf {k : Fattribute → FuseM δ σ α} (ha : c.cached path = some a) :
    (metadataOf dht path >>= fun p => getMapped p >>= k) c = k a c := by
  obtain ⟨p, h, hp⟩ := metadataOf_ok dht ha
  rw [Exec.bind_of_ok h, Exec.bind_of_ok (getMapped_ok hp ha)]

theorem getattr_eq {stat : Stat} (ha : c.cached path = some a) : getattr dht path stat c =
    if ¬validatePath (filename path) then .ok (-ENAMETOOLONG, stat) c
    else if a.stbuf.nlink ≠ 0 then .ok (0, a.stbuf) c else .error .assertion c := by
  rw [getattr]
  split
  · rfl
  rw [catchLookup, bind_metadataOf ha]
  by_cases hn : a.stbuf.nlink ≠ 0
  · rw [if_pos hn, Exec.bind_of_ok (Exec.require_ok hn)]; rfl
  · rw [if_neg hn, Exec.bind_of_error (Exec.require_error hn)]

theorem getattr_cases {stat : Stat} {r : Int × Stat} (ha : c.cached path = some a)
    (h : getattr dht path stat c = .ok r c') : c' = c := by
  rw [getattr_eq ha] at h
  split at h
  · cases h; rfl
  · split at h
    · cases h; rfl
    · cases h

theorem readdir_eq (ha : c.cached path = some a) : readdir dht path c =
    .ok (if a.IsDir then (0, ['.'] :: ['.', '.'] :: a.list) else (-ENOTDIR, [])) c := by
  rw [readdir, catchLookup, bind_metadataOf ha]
  by_cases hd : a.IsDir
  · rw [if_neg (not_not.mpr hd), if_pos hd]; rfl
  · rw [if_pos hd, if_neg hd]; rfl

theorem readlink_cases {buffer : Str} {size : Nat} {r : Int × Str} (ha : c.cached path = some a)
    (h : readlink dht path buffer size c = .ok r c') : c' = c := by
  rw [readlink, bind_metadataOf ha] at h
  by_cases hl : a.IsLnk
  · rw [if_neg (not_not.mpr hl)] at h
    cases hlist : a.list with
    | nil =>
      rw [hlist] at h
      cases h
    | cons target _ =>
      rw [hlist] at h
      obtain ⟨_, c₁, h₁, h⟩ := Exec.bind_eq_ok.mp h
      cases h
      simp only [Exec.require] at h₁
      split at h₁
      · cases h₁; rfl
      · cases h₁
  · rw [if_pos hl] at h
    cases h; rfl

theorem read_cases {buffer : List Byte} {size offset : Nat} {r : Int × List Byte} (H : c.WF)
    (ha : c.cached path = some a) (h : read dht P path buffer size offset c = .ok r c') :
    Retouched c path c' := by
  rw [read, bind_metadataOf ha] at h
  by_cases hlen : toSizeT a.stbuf.size < offset
  · rw [if_pos hlen] at h
    cases h
    exact .of_eq H rfl rfl ha
  · rw [if_neg hlen] at h
    obtain ⟨_, c₁, h₁, h⟩ := Exec.bind_eq_ok.mp h
    obtain ⟨d, e, rfl⟩ := onData_cases h₁
    cases h
    exact .of_data H ha d e

end Lookups

/-! ### Callbacks that add a path -/

/-- The attribute of a new node, which has no entries if it is a directory. -/
def Fresh (a : Fattribute) : Prop := a.IsDir → a.list = [] ∧ a.stbuf.nlink ≠ 0

/-- `path` has appeared in its parent, whose attribute was `b`. -/
structure Added (c : Fs δ σ) (path : Str) (b : Fattribute) (c' : Fs δ σ) : Prop where
  wf : c'.WF
  dht : c'.dht = c.dht
  attr : ∃ a, Fresh a ∧ c'.cached = update (update c.cached path (some a)) (parentPath path)
    (some { b with list := b.list ++ [filename path] })

/-- `path` has appeared with the attribute `a` in its parent, whose attribute was `b`. -/
structure Placed (c : Fs δ σ) (path : Str) (a b : Fattribute) (c' : Fs δ σ) : Prop where
  wf : c'.WF
  dht : c'.dht = c.dht
  cached : c'.cached = update (update c.cached path (some a)) (parentPath path)
    (some { b with list := b.list ++ [filename path] })

theorem Placed.added (H : Placed c path a b c') (ha : Fresh a) : Added c path b c' :=
  ⟨H.wf, H.dht, a, ha, H.cached⟩

theorem edit_placed (H : c.WF) (hne : parentPath path ≠ path) (hp : c.cached path = none)
    (hb : c.cached (parentPath path) = some b) (f : Fattribute → Fattribute) :
    ∃ c₁ c₂, edit path f c = .ok () c₁ ∧
      edit (parentPath path) (fun b => { b with list := b.list ++ [filename path] }) c₁ =
        .ok () c₂ ∧
      Placed c path (f .new) b c₂ := by
  obtain ⟨c₁, h₁, H₁⟩ := edit_spec H path f
  obtain ⟨c₂, h₂, H₂⟩ := edit_spec H₁.wf (parentPath path)
    fun b => { b with list := b.list ++ [filename path] }
  refine ⟨c₁, c₂, h₁, h₂, H₂.wf, H₂.dht_eq.trans H₁.dht_eq, ?_⟩
  rw [H₂.cached, H₁.cached, hp, update_of_ne hne, hb]
  rfl

omit [BinaryArchive Instruction] in
theorem not_isDir_or {m : UInt32} (h : m.toNat.testBit 15) :
    (m ||| mode) &&& S_IFMT ≠ S_IFDIR := fun he => by
  have he := congrArg (·.toNat.testBit 15) he
  simp [h, S_IFMT, S_IFDIR] at he
  exact absurd he (by decide)

theorem create_placed {r : Int} (H : c.WF) (hne : parentPath path ≠ path)
    (hp : c.cached path = none) (hb : c.cached (parentPath path) = some b)
    (h : create process path mode now c = .ok r c') : c' = c ∨ validatePath (filename path) ∧
      ∃ a, ¬a.IsDir ∧ a.list = [] ∧ a.stbuf.nlink ≠ 0 ∧ Placed c path a b c' := by
  rw [create] at h
  split at h
  · cases h; exact .inl rfl
  next hv =>
  obtain ⟨c₁, c₂, h₁, h₂, H₂⟩ := edit_placed H hne hp hb fun a => { a with
    stbuf := { a.stbuf with
      mode := S_IFREG ||| mode, nlink := 1, uid := process.uid, gid := process.gid
      blksize := CHUNK_SIZE, mtim := now } }
  rw [Exec.bind_of_ok h₁, Exec.bind_of_ok h₂] at h
  obtain ⟨_, c₃, h₃, h⟩ := Exec.bind_eq_ok.mp h
  obtain ⟨d, e, rfl⟩ := onData_cases h₃
  cases h
  have hna : (S_IFREG ||| mode) &&& S_IFMT ≠ S_IFDIR := not_isDir_or (by decide)
  refine .inr ⟨not_not.mp hv, _, ?_, ?_, ?_, H₂.wf, H₂.dht, H₂.cached⟩
  · exact hna
  · rfl
  · exact Nat.one_ne_zero

theorem create_cases {r : Int} (H : c.WF) (hne : parentPath path ≠ path)
    (hp : c.cached path = none) (hb : c.cached (parentPath path) = some b)
    (h : create process path mode now c = .ok r c') : c' = c ∨ Added c path b c' := by
  obtain h | ⟨_, a, hna, _, _, h⟩ := create_placed H hne hp hb h
  · exact .inl h
  · exact .inr (h.added fun hd => (hna hd).elim)

theorem mkdir_placed {r : Int} (H : c.WF) (hne : parentPath path ≠ path)
    (hp : c.cached path = none) (hb : c.cached (parentPath path) = some b)
    (h : mkdir process path mode now c = .ok r c') : c' = c ∨ validatePath (filename path) ∧
      ∃ a, a.list = [] ∧ a.stbuf.nlink ≠ 0 ∧ Placed c path a b c' := by
  rw [mkdir] at h
  split at h
  · cases h; exact .inl rfl
  next hv =>
  obtain ⟨c₁, c₂, h₁, h₂, H₂⟩ := edit_placed H hne hp hb fun a => { a with
    stbuf := { Stat.zero with
      mode := S_IFDIR ||| mode, nlink := 1, uid := process.uid, gid := process.gid
      mtim := now } }
  rw [Exec.bind_of_ok h₁, Exec.bind_of_ok h₂] at h
  cases h
  exact .inr ⟨not_not.mp hv, _, rfl, Nat.one_ne_zero, H₂⟩

theorem mkdir_cases {r : Int} (H : c.WF) (hne : parentPath path ≠ path)
    (hp : c.cached path = none) (hb : c.cached (parentPath path) = some b)
    (h : mkdir process path mode now c = .ok r c') : c' = c ∨ Added c path b c' := by
  obtain h | ⟨_, a, hlist, hn, h⟩ := mkdir_placed H hne hp hb h
  · exact .inl h
  · exact .inr (h.added fun _ => ⟨hlist, hn⟩)

/-- The attribute of a new symbolic link. -/
def link (target : Str) (now : Timespec) : Fattribute where
  list := [target]
  stbuf := { Stat.zero with mode := S_IFLNK ||| 0o777, mtim := now }

omit [BinaryArchive Instruction] in
theorem link_isLnk {target : Str} : (link target now).IsLnk := by
  show (S_IFLNK ||| 0o777) &&& S_IFMT = S_IFLNK
  decide

omit [BinaryArchive Instruction] in
theorem not_isDir_of_isLnk (h : a.IsLnk) : ¬a.IsDir := by
  intro hd
  have hne : S_IFLNK ≠ S_IFDIR := by decide
  exact hne (h.symm.trans hd)

theorem symlink_placed (target : Str) (now : Timespec) (H : c.WF) (hne : parentPath path ≠ path)
    (hp : c.cached path = none) (hb : c.cached (parentPath path) = some b) :
    ∃ c', symlink target path now c = .ok 0 c' ∧ Placed c path (link target now) b c' := by
  obtain ⟨c₁, c₂, h₁, h₂, H₂⟩ := edit_placed H hne hp hb fun a =>
    { list := a.list ++ [target]
      stbuf := { a.stbuf with mode := S_IFLNK ||| 0o777, mtim := now } }
  refine ⟨c₂, ?_, H₂⟩
  rw [symlink, Exec.bind_of_ok h₁, Exec.bind_of_ok h₂]
  rfl

theorem symlink_spec {target : Str} (H : c.WF) (hne : parentPath path ≠ path)
    (hp : c.cached path = none) (hb : c.cached (parentPath path) = some b) :
    ∃ c', symlink target path now c = .ok 0 c' ∧ Added c path b c' := by
  obtain ⟨c', h, H'⟩ := symlink_placed target now H hne hp hb
  exact ⟨c', h, H'.added fun hd => (not_isDir_of_isLnk link_isLnk hd).elim⟩

/-! ### Callbacks that remove a path -/

/-- A put always gets through. -/
def Puts (dht : Dht δ) : Prop := ∀ key value s, ∃ ok s', dht.put key value s = .ok ok s'

omit [BinaryArchive Instruction] in
theorem puts_harmony (stringHash : Str → Nat) : Puts (Harmony.dht stringHash) :=
  fun _ _ _ => ⟨_, _, Harmony.put_apply⟩

/-- `path` has gone, and its parent, whose attribute was `b`, has the entries `l`. -/
structure Removed (dht : Dht δ) (c : Fs δ σ) (path : Str) (b : Fattribute) (l : List Str)
    (c' : Fs δ σ) : Prop where
  wf : c'.WF
  dht : ∃ ok, dht.put (slot path) [] c.dht = .ok ok c'.dht
  cached : c'.cached = update (update c.cached (parentPath path) (some { b with list := l })) path
    none

/-- An attribute that is not cached is made anew by `operator[]`. -/
def branchOf (c : Fs δ σ) (path : Str) : Fattribute := (c.cached (parentPath path)).getD .new

variable [BinaryArchive Fattribute.Record]

/-- The rest of `unlink`, when the caller may unlink the path. -/
theorem unlink_rest (path : Str) (freed : Int) (H : c.WF) (hput : Puts dht) : ∃ c', (do
      edit (parentPath path) fun b => { b with list := b.list.filter (· ≠ filename path) }
      purgeMetadata dht path
      onData (DataSink.erase path (toSizeT freed))
      return (0 : Int)) c = .ok 0 c' ∧
    Removed dht c path (c.branchOf path)
      ((c.branchOf path).list.filter (· ≠ filename path)) c' := by
  obtain ⟨c₂, h₂, H₂⟩ := edit_spec H (parentPath path)
    fun b => { b with list := b.list.filter (· ≠ filename path) }
  obtain ⟨ok, dht', hdht⟩ := hput (slot path) [] c₂.dht
  obtain ⟨c₃, h₃, wf, hcached, heq, _⟩ := purgeMetadata_spec H₂.wf hdht
  rw [H₂.dht_eq] at hdht
  refine ⟨c₃, ?_, wf, ⟨ok, by rw [heq]; exact hdht⟩, ?_⟩
  · rw [Exec.bind_of_ok h₂, Exec.bind_of_ok h₃]; rfl
  · rw [hcached, H₂.cached]; rfl

/-- The file belongs to another user. -/
theorem unlink_refused (freed : Int) (H : c.WF) (ha : c.cached path = some a)
    (hv : validatePath (filename path)) (hperm : a.stbuf.uid ≠ process.uid ∧ process.uid ≠ 0) :
    ∃ c', unlink dht process path freed c = .ok (-EACCES) c' ∧ Retouched c path c' := by
  obtain ⟨p, c₁, h₁, hp, ha₁, H₁⟩ := metadataAt_hit H ha
  rw [unlink, if_neg (not_not.mpr hv), Exec.bind_of_ok h₁, Exec.bind_of_ok (getMapped_ok hp ha₁),
    if_pos hperm]
  exact ⟨c₁, rfl, .of_eq H₁.wf H₁.cached H₁.dht_eq ha⟩

theorem unlink_permitted (freed : Int) (H : c.WF) (hput : Puts dht) (ha : c.cached path = some a)
    (hv : validatePath (filename path)) (hperm : ¬(a.stbuf.uid ≠ process.uid ∧ process.uid ≠ 0)) :
    ∃ c', unlink dht process path freed c = .ok 0 c' ∧ Removed dht c path (c.branchOf path)
      ((c.branchOf path).list.filter (· ≠ filename path)) c' := by
  obtain ⟨p, c₁, h₁, hp, ha₁, H₁⟩ := metadataAt_hit H ha
  rw [unlink, if_neg (not_not.mpr hv), Exec.bind_of_ok h₁, Exec.bind_of_ok (getMapped_ok hp ha₁),
    if_neg hperm]
  obtain ⟨c₂, h₂, H₂⟩ := unlink_rest path freed H₁.wf hput
  have hbranch : c₁.branchOf path = c.branchOf path := by rw [branchOf, H₁.cached]; rfl
  refine ⟨c₂, h₂, H₂.wf, H₁.dht_eq ▸ H₂.dht, ?_⟩
  rw [H₂.cached, hbranch, H₁.cached]

theorem unlink_spec (process : Process) (freed : Int) (H : c.WF) (hput : Puts dht)
    (ha : c.cached path = some a) : ∃ r c', unlink dht process path freed c = .ok r c' ∧
      (r < 0 ∧ Retouched c path c' ∨ Removed dht c path (c.branchOf path)
        ((c.branchOf path).list.filter (· ≠ filename path)) c') := by
  by_cases hv : validatePath (filename path)
  · by_cases hperm : a.stbuf.uid ≠ process.uid ∧ process.uid ≠ 0
    · obtain ⟨c', h, H'⟩ := unlink_refused freed H ha hv hperm
      exact ⟨_, c', h, .inl ⟨by decide, H'⟩⟩
    · obtain ⟨c', h, H'⟩ := unlink_permitted freed H hput ha hv hperm
      exact ⟨0, c', h, .inr H'⟩
  · rw [unlink, if_pos hv]
    exact ⟨_, c, rfl, .inl ⟨by decide, .of_eq H rfl rfl ha⟩⟩

/-- Root needs no attribute to unlink the path. -/
theorem unlink_root (freed : Int) (H : c.WF) (hput : Puts dht) (hne : parentPath path ≠ path)
    (hv : validatePath (filename path)) (hroot : process.uid = 0) :
    ∃ c', unlink dht process path freed c = .ok 0 c' ∧ Removed dht c path (c.branchOf path)
      ((c.branchOf path).list.filter (· ≠ filename path)) c' := by
  obtain ⟨p, c₁, h₁, hp, ha₁, H₁⟩ := metadataAt_spec H path
  rw [unlink, if_neg (not_not.mpr hv), Exec.bind_of_ok h₁, Exec.bind_of_ok (getMapped_ok hp ha₁),
    if_neg fun h => h.2 hroot]
  obtain ⟨c₂, h₂, H₂⟩ := unlink_rest path freed H₁.wf hput
  have hbranch : c₁.branchOf path = c.branchOf path := by
    rw [branchOf, H₁.cached, update_of_ne hne]; rfl
  refine ⟨c₂, h₂, H₂.wf, H₁.dht_eq ▸ H₂.dht, ?_⟩
  rw [H₂.cached, hbranch, H₁.cached, update_comm hne.symm, update_idem]

theorem rmdir_spec (H : c.WF) (hput : Puts dht) (hne : parentPath path ≠ path) :
    ∃ c', rmdir dht path c = .ok 0 c' ∧ Removed dht c path (c.branchOf path)
      ((c.branchOf path).list.filter (· ≠ filename path)) c' := by
  obtain ⟨ok, dht', hdht⟩ := hput (slot path) [] c.dht
  obtain ⟨c₁, h₁, wf, hcached, heq, _⟩ := purgeMetadata_spec H hdht
  obtain ⟨c₂, h₂, H₂⟩ := edit_spec wf (parentPath path)
    fun b => { b with list := b.list.filter (· ≠ filename path) }
  refine ⟨c₂, ?_, H₂.wf, ⟨ok, by rw [H₂.dht_eq, heq]; exact hdht⟩, ?_⟩
  · rw [rmdir, Exec.bind_of_ok h₁]
    exact catchLookup_ok (Exec.bind_of_ok h₂)
  · rw [H₂.cached, hcached, update_of_ne hne, update_comm hne]; rfl

/-! ### `rename` -/

/-- The attributes when `old` is off the list of its parent. -/
def unlisted (c : Fs δ σ) (old : Str) : Str → Option Fattribute :=
  update c.cached (parentPath old)
    (some { c.branchOf old with list := (c.branchOf old).list.erase (filename old) })

/-- The attributes when `new` is on the list of its parent, too. -/
def relisted (c : Fs δ σ) (old new : Str) : Str → Option Fattribute :=
  let b := (c.unlisted old (parentPath new)).getD .new
  update (c.unlisted old) (parentPath new) (some { b with list := b.list ++ [filename new] })

/-- The attribute `a` has gone from `old` to `new`, and nothing below `old` has moved. -/
structure Renamed (dht : Dht δ) (c : Fs δ σ) (old new : Str) (a : Fattribute) (c' : Fs δ σ) :
    Prop where
  wf : c'.WF
  dht : ∃ ok, dht.put (slot old) [] c.dht = .ok ok c'.dht
  cached : c'.cached = update (update (c.relisted old new) new (some a)) old none

theorem rename_spec (H : c.WF) (hput : Puts dht) (hne : old ≠ new)
    (hlist : filename old ∈ (c.branchOf old).list) (ha : c.relisted old new old = some a) :
    ∃ c', rename dht old new c = .ok 0 c' ∧ Renamed dht c old new a c' := by
  obtain ⟨p, c₁, h₁, hp, hb, H₁⟩ := metadataAt_spec H (parentPath old)
  rw [← branchOf] at hb
  obtain ⟨c₂, h₂, H₂⟩ := modifyMapped_spec H₁.wf hp hb
    fun b => { b with list := b.list.erase (filename old) }
  have hc₂ : c₂.cached = c.unlisted old := by
    rw [H₂.cached, H₁.cached, update_idem]; rfl
  obtain ⟨c₃, h₃, H₃⟩ := edit_spec H₂.wf (parentPath new)
    fun b => { b with list := b.list ++ [filename new] }
  have hc₃ : c₃.cached = c.relisted old new := by rw [H₃.cached, hc₂]; rfl
  rw [← hc₃] at ha
  obtain ⟨q, h₄, hq⟩ := metadataOf_ok dht ha
  obtain ⟨r, c₅, h₅, hr, hn, H₅⟩ := metadataAt_spec H₃.wf new
  have ha₅ : c₅.cached old = some a := by rw [H₅.cached, update_of_ne hne, ha]
  obtain ⟨c₆, h₆, H₆⟩ := modifyMapped_spec H₅.wf hr hn fun _ => a
  have hc₆ : c₆.cached = update (c.relisted old new) new (some a) := by
    rw [H₆.cached, H₅.cached, update_idem, hc₃]
  obtain ⟨ok, dht', hdht⟩ := hput (slot old) [] c₆.dht
  obtain ⟨c₇, h₇, wf, hcached, heq, hpair⟩ := purgeMetadata_spec H₆.wf hdht
  have ha₇ : c₇.cached new = some a := by
    rw [hcached, update_of_ne hne.symm, hc₆, update_self]
  refine ⟨c₇, ?_, wf, ⟨ok, ?_⟩, by rw [hcached, hc₆]⟩
  · rw [rename, Exec.bind_of_ok h₁, Exec.bind_of_ok (getMapped_ok hp hb),
      Exec.bind_of_ok (Exec.require_ok hlist), Exec.bind_of_ok h₂, Exec.bind_of_ok h₃,
      Exec.bind_of_ok h₄, Exec.bind_of_ok h₅, Exec.bind_of_ok (getMapped_ok (H₅.pair hq) ha₅),
      Exec.bind_of_ok h₆, Exec.bind_of_ok h₇,
      Exec.bind_of_ok (getMapped_ok (hpair hne.symm (H₆.pair hr)) ha₇)]
    rfl
  · rw [H₆.dht_eq, H₅.dht_eq, H₃.dht_eq, H₂.dht_eq, H₁.dht_eq] at hdht
    rw [heq]; exact hdht

/-- `std::find` finds nothing. -/
theorem rename_unlisted (dht : Dht δ) (new : Str) (H : c.WF)
    (hlist : filename old ∉ (c.branchOf old).list) :
    ∃ c', rename dht old new c = .error .undefined c' := by
  obtain ⟨p, c₁, h₁, hp, hb, H₁⟩ := metadataAt_spec H (parentPath old)
  rw [← branchOf] at hb
  refine ⟨c₁, ?_⟩
  rw [rename, Exec.bind_of_ok h₁, Exec.bind_of_ok (getMapped_ok hp hb),
    Exec.bind_of_error (Exec.require_error hlist)]

/-! ### `dht_task` -/

/-- A flush leaves the attributes alone, and puts the one of its path if it is dirty. -/
theorem dhtTask_cases (H : c.WF) (h : dhtTask dht P path c = .ok () c') :
    c'.WF ∧ c'.cached = c.cached ∧ (c'.dht = c.dht ∨ ∃ a ok, c.cached path = some a ∧
      dht.put (slot path) (BinaryArchive.save a.serialize) c.dht = .ok ok c'.dht) := by
  obtain ⟨_, c₁, h₁, h⟩ := Exec.bind_eq_ok.mp h
  obtain ⟨_, c₂, h₂, h₃⟩ := Exec.bind_eq_ok.mp h
  obtain ⟨d, e, rfl⟩ := onData_cases h₂
  obtain ⟨d, e, rfl⟩ := onData_cases h₃
  obtain ⟨s, hs, rfl⟩ := Exec.zoom_eq_ok h₁
  by_cases hd : c.metadataSink.impl.IsDirty (slot path)
  · obtain ⟨p, hp⟩ := BasicCache.WF.read_of_isDirty H hd
    obtain ⟨v, hv, hget, hk⟩ := BasicCache.WF.get?_of_read H hp
    have ha : c.cached path = some v.mapped := by simp only [cached, hget, Option.map_some]
    cases hf : (MetadataOnFlush.policy dht).onFlush v c.dht with
    | ok _ dht' =>
      cases (Cache.invalidate_dirty hd hp hv hf).symm.trans hs
      obtain ⟨ok, t, hput, ht⟩ := Exec.bind_eq_ok.mp hf
      cases ht
      refine ⟨BasicCache.WF.clearDirty H, rfl, .inr ⟨_, ok, ha, ?_⟩⟩
      rw [← hk]; exact hput
    | error e dht' => cases (Cache.invalidate_raised hd hp hv hf).symm.trans hs
  · cases (Cache.invalidate_clean hd).symm.trans hs
    exact ⟨H, rfl, .inl rfl⟩

end Fs

end ColonyFS

import ColonyFS.Fuse.DataCalls
import ColonyFS.Fuse.Lookup

/-!
# What a failed callback leaves behind

`operator[]` marks its entry dirty, and makes one if there is none, before the callback knows
whether it will go on. An observer sees the attributes that look-ups yield, the DHT, and what a
flush of a path would put in it.
-/

namespace ColonyFS

open Paths Function

/-- A DHT that only notes down what is put. -/
def Dht.recorder : Dht (List (Str × Str)) where
  put key value := do
    modify fun puts => puts ++ [(key, value)]
    return true
  get _ := throw (.raised .keyMissingError)

/-- The callbacks that check something first. -/
inductive Attempt where
  | chmod (filename : Str) (mode : UInt32)
  | unlink (filepath : Str) (freed : Int)
  | create (filepath : Str) (mode : UInt32) (now : Timespec)
  | mkdir (filepath : Str) (mode : UInt32) (now : Timespec)
  | getattr (filepath : Str) (stat : Stat)
  | readdir (filepath : Str)
  | readlink (linkname buffer : Str) (size : Nat)
  | truncate (filepath : Str) (length : Int)

namespace Fs

variable {δ σ α : Type} [BinaryArchive Instruction] [BinaryArchive Fattribute.Record]

/-- The number that libfuse gets. -/
def attempt (dht : Dht δ) (P : Policy ChunkData σ) (process : Process) : Attempt → FuseM δ σ Int
  | .chmod filename mode => chmod process filename mode
  | .unlink filepath freed => unlink dht process filepath freed
  | .create filepath mode now => create process filepath mode now
  | .mkdir filepath mode now => mkdir process filepath mode now
  | .getattr filepath stat => do return (← getattr dht filepath stat).1
  | .readdir filepath => do return (← readdir dht filepath).1
  | .readlink linkname buffer size => do return (← readlink dht linkname buffer size).1
  | .truncate filepath length => truncate P filepath length

/-- What a look-up of a path yields: its attribute, with the list of a directory, or an exception. -/
def lookup (dht : Dht δ) (c : Fs δ σ) (path : Str) : Except Stop Fattribute :=
  match (do getMapped (← metadataOf dht path)) c with
  | .ok a _ => .ok a
  | .error e _ => .error e

/-- The puts of a flush of a path. -/
def written (c : Fs δ σ) (path : Str) : List (Str × Str) :=
  (Exec.final (Cache.invalidate (MetadataOnFlush.policy Dht.recorder) path
    (c.metadataSink, []))).2

/-- No observer sees a difference. -/
structure Unchanged (dht : Dht δ) (c c' : Fs δ σ) : Prop where
  lookup : ∀ path, lookup dht c' path = lookup dht c path
  written : ∀ path, written c' path = written c path
  dht : c'.dht = c.dht
  dataSink : c'.dataSink = c.dataSink
  chunkservers : c'.chunkservers = c.chunkservers

/-- The mark of the path is set already when `operator[]` sets it. -/
def Harmless (c : Fs δ σ) : Attempt → Prop
  | .chmod path _ => c.metadataSink.impl.IsDirty (slot path)
  | .unlink path _ => ¬validatePath (filename path) ∨ c.metadataSink.impl.IsDirty (slot path)
  | _ => True

variable {dht : Dht δ} {P : Policy ChunkData σ} {process : Process} {c c' c₁ : Fs δ σ}
  {path q : Str} {p : Ptr} {a : Fattribute} {v w : AttributeValue} {s t : δ} {e : Stop}

/-! ## What the observer sees -/

/-- A look-up takes the cached attribute, or what `PreRead` makes of an empty one. -/
theorem lookup_hit (ha : c.cached path = some a) : lookup dht c path = .ok a := by
  obtain ⟨p, h, hp⟩ := metadataOf_ok dht ha
  rw [lookup, Exec.bind_of_ok h, getMapped_ok hp ha]

theorem lookup_miss (H : c.WF) (hc : c.cached path = none) : lookup dht c path =
    match (MetadataOnFlush.policy dht).preRead (AttributeValue.newPointer path) c.dht with
    | .error e _ => .error e
    | .ok v _ => if slot path ∈ c.metadataSink.cv then .error .blocked else .ok v.mapped := by
  rw [lookup]
  cases hP : (MetadataOnFlush.policy dht).preRead (AttributeValue.newPointer path) c.dht with
  | error e s =>
    have h : metadataOf dht path c = .error e { c with dht := s } :=
      onMetadata_error (Cache.call_raised (read_eq_none H hc) hP)
    rw [Exec.bind_of_error h]
  | ok v s =>
    have hk : CacheValue.getKey v = slot path := MetadataOnFlush.policy_keepsKey dht _ _ _ _ hP
    by_cases hcv : slot path ∈ c.metadataSink.cv
    · have h : metadataOf dht path c = .error .blocked { c with dht := s } :=
        onMetadata_error (Cache.call_blocked (read_eq_none H hc) hP (hk ▸ hcv))
      rw [Exec.bind_of_error h]
      exact (if_pos hcv).symm
    · have ha : (c.fetched path v s).cached path = some v.mapped := by
        rw [fetched_cached H, update_self]
      rw [Exec.bind_of_ok (metadataOf_fetched H hc hP hcv), getMapped_ok fetched_pair ha]
      exact (if_neg hcv).symm

/-- A flush writes a dirty attribute. -/
theorem written_eq (H : c.WF) : written c path =
    if c.metadataSink.impl.IsDirty (slot path) then
      (c.cached path).toList.map fun a => (slot path, BinaryArchive.save a.serialize) else [] := by
  rw [written]
  split
  · next hd =>
    obtain ⟨p, hp⟩ := BasicCache.WF.read_of_isDirty H hd
    obtain ⟨v, hv, hget, hk⟩ := BasicCache.WF.get?_of_read H hp
    have hk : v.getKey = slot path := hk
    have ha : c.cached path = some v.mapped := by rw [cached, hget]; rfl
    have hflush : (MetadataOnFlush.policy Dht.recorder).onFlush v [] =
        .ok () [(v.getKey, v.getValue)] := rfl
    rw [Cache.invalidate_dirty hd hp hv hflush, ha, ← hk]
    rfl
  · next hd =>
    rw [Cache.invalidate_clean hd]
    rfl

/-- Equal attributes and marks look the same. -/
theorem Unchanged.of_eq (H : c.WF) (H' : c'.WF) (hc : c'.cached = c.cached)
    (hd : ∀ k, c'.metadataSink.impl.IsDirty k ↔ c.metadataSink.impl.IsDirty k)
    (hcv : c'.metadataSink.cv = c.metadataSink.cv) (hdht : c'.dht = c.dht)
    (hdata : c'.dataSink = c.dataSink) (hcs : c'.chunkservers = c.chunkservers) :
    Unchanged dht c c' where
  lookup path := by
    cases ha : c.cached path with
    | some a => rw [lookup_hit ha, lookup_hit (by rw [hc, ha])]
    | none => rw [lookup_miss H ha, lookup_miss H' (by rw [hc, ha]), hdht, hcv]
  written path := by
    rw [written_eq H, written_eq H', hc]
    exact if_congr (hd _) rfl rfl
  dht := hdht
  dataSink := hdata
  chunkservers := hcs

theorem Unchanged.refl (H : c.WF) : Unchanged dht c c :=
  .of_eq H H rfl (fun _ => .rfl) rfl rfl rfl rfl

/-- A look-up that misses brings in what the next one would. -/
theorem unchanged_fetched (H : c.WF) (hdht : ReadOnly dht) (hc : c.cached path = none)
    (hP : (MetadataOnFlush.policy dht).preRead (AttributeValue.newPointer path) c.dht = .ok v s)
    (hcv : slot path ∉ c.metadataSink.cv) : Unchanged dht c (c.fetched path v s) := by
  have hk : CacheValue.getKey v = slot path := MetadataOnFlush.policy_keepsKey dht _ _ _ _ hP
  have H' : (c.fetched path v s).WF := fetched_wf H hc hk
  have hs : s = c.dht := by
    have hf := final_preRead (v := AttributeValue.newPointer path) (s := c.dht) hdht
    rwa [hP] at hf
  refine ⟨?_, ?_, hs, rfl, rfl⟩
  · intro q
    obtain rfl | hq := eq_or_ne q path
    · have ha : (c.fetched q v s).cached q = some v.mapped := by
        rw [fetched_cached H, update_self]
      rw [lookup_hit ha, lookup_miss H hc, hP]
      exact (if_neg hcv).symm
    · have ha : (c.fetched path v s).cached q = c.cached q := by
        rw [fetched_cached H, update_of_ne hq]
      cases hq' : c.cached q with
      | some a => rw [lookup_hit hq', lookup_hit (by rw [ha, hq'])]
      | none =>
        have hmem : slot q ∈ (c.fetched path v s).metadataSink.cv ↔
            slot q ∈ c.metadataSink.cv := by
          simp only [fetched, Std.ExtTreeSet.mem_insert, Std.compare_eq_iff_eq]
          exact or_iff_right fun he => hq (slot_inj.mp he).symm
        rw [lookup_miss H hq', lookup_miss H' (by rw [ha, hq'])]
        simp only [hmem]
        rw [show (c.fetched path v s).dht = c.dht from hs]
  · intro q
    have hd : (c.fetched path v s).metadataSink.impl.IsDirty (slot q) ↔
        c.metadataSink.impl.IsDirty (slot q) := .rfl
    rw [written_eq H, written_eq H', fetched_cached H]
    obtain rfl | hq := eq_or_ne q path
    · have hno : ¬c.metadataSink.impl.IsDirty (slot q) :=
        BasicCache.WF.not_isDirty_of_read H (read_eq_none H hc)
      rw [if_neg hno, if_neg (mt hd.mp hno)]
    · rw [update_of_ne hq]
      exact if_congr hd rfl rfl

theorem metadataOf_unchanged (H : c.WF) (hdht : ReadOnly dht)
    (h : metadataOf dht path c = .ok p c₁) : Unchanged dht c c₁ := by
  obtain ⟨rfl, _⟩ | ⟨hc, v, hP, hcv, rfl, rfl⟩ := metadataOf_returned H hdht h
  · exact .refl H
  · exact unchanged_fetched H hdht hc hP hcv

/-- A callback that goes no further than `operator[]`. -/
theorem unchanged_metadataAt_iff (H : c.WF) (h : metadataAt path c = .ok p c₁) :
    Unchanged dht c c₁ ↔ c.metadataSink.impl.IsDirty (slot path) := by
  obtain ⟨_, _, h', _, ha, B⟩ := metadataAt_spec H path
  cases h'.symm.trans h
  have hd : ∀ k, c₁.metadataSink.impl.IsDirty k ↔
      slot path = k ∨ c.metadataSink.impl.IsDirty k := by
    cases h
    exact (Cache.subscript_spec H).isDirty
  have hcv : c₁.metadataSink.cv = c.metadataSink.cv := by
    cases h
    exact (Cache.subscript_spec H).cv
  constructor
  · intro hu
    by_contra hno
    have hw := hu.written path
    rw [written_eq H, written_eq B.wf, if_neg hno, if_pos ((hd _).mpr (.inl rfl)), ha] at hw
    cases hw
  · intro hdirty
    obtain ⟨p, hp⟩ := BasicCache.WF.read_of_isDirty H hdirty
    obtain ⟨v, _, hget, _⟩ := BasicCache.WF.get?_of_read H hp
    have hc : c.cached path = some v.mapped := by rw [cached, hget]; rfl
    refine .of_eq H B.wf ?_ ?_ hcv B.dht_eq (by rw [B.eq]) (by rw [B.eq])
    · rw [B.cached, hc, Option.getD_some, ← hc, update_eq_self]
    · intro k
      rw [hd]
      exact or_iff_right_of_imp fun hk => hk ▸ hdirty

/-! ## The callbacks -/

theorem chmod_negative {mode : UInt32} {r : Int} (H : c.WF)
    (h : chmod process path mode c = .ok r c') (hr : r < 0) :
    Unchanged dht c c' ↔ c.metadataSink.impl.IsDirty (slot path) := by
  obtain ⟨p, c₁, h₁, hp, ha, _⟩ := metadataAt_spec H path
  rw [chmod, Exec.bind_of_ok h₁, Exec.bind_of_ok (getMapped_ok hp ha)] at h
  split at h
  · obtain ⟨_, _, _, h⟩ := Exec.bind_eq_ok.mp h
    cases h
    exact (Int.lt_irrefl 0 hr).elim
  · cases h
    exact unchanged_metadataAt_iff H h₁

theorem unlink_negative {freed r : Int} (H : c.WF)
    (h : unlink dht process path freed c = .ok r c') (hr : r < 0) : Unchanged dht c c' ↔
      ¬validatePath (filename path) ∨ c.metadataSink.impl.IsDirty (slot path) := by
  rw [unlink] at h
  split at h
  · next hv =>
    cases h
    exact ⟨fun _ => .inl hv, fun _ => .refl H⟩
  next hv =>
  obtain ⟨p, c₁, h₁, hp, ha, _⟩ := metadataAt_spec H path
  rw [Exec.bind_of_ok h₁, Exec.bind_of_ok (getMapped_ok hp ha)] at h
  rw [or_iff_right hv]
  split at h
  · cases h
    exact unchanged_metadataAt_iff H h₁
  · obtain ⟨_, _, _, h⟩ := Exec.bind_eq_ok.mp h
    obtain ⟨_, _, _, h⟩ := Exec.bind_eq_ok.mp h
    obtain ⟨_, _, _, h⟩ := Exec.bind_eq_ok.mp h
    cases h
    exact (Int.lt_irrefl 0 hr).elim

theorem create_negative {mode : UInt32} {now : Timespec} {r : Int} (H : c.WF)
    (h : create process path mode now c = .ok r c') (hr : r < 0) : Unchanged dht c c' := by
  rw [create] at h
  split at h
  · cases h
    exact .refl H
  · obtain ⟨_, _, _, h⟩ := Exec.bind_eq_ok.mp h
    obtain ⟨_, _, _, h⟩ := Exec.bind_eq_ok.mp h
    obtain ⟨_, _, _, h⟩ := Exec.bind_eq_ok.mp h
    cases h
    exact (Int.lt_irrefl 0 hr).elim

theorem mkdir_negative {mode : UInt32} {now : Timespec} {r : Int} (H : c.WF)
    (h : mkdir process path mode now c = .ok r c') (hr : r < 0) : Unchanged dht c c' := by
  rw [mkdir] at h
  split at h
  · cases h
    exact .refl H
  · obtain ⟨_, _, _, h⟩ := Exec.bind_eq_ok.mp h
    obtain ⟨_, _, _, h⟩ := Exec.bind_eq_ok.mp h
    cases h
    exact (Int.lt_irrefl 0 hr).elim

theorem getattr_negative {stat : Stat} {r : Int × Stat} (H : c.WF) (hdht : ReadOnly dht)
    (h : getattr dht path stat c = .ok r c') (hr : r.1 < 0) : Unchanged dht c c' := by
  obtain rfl | ⟨hzero, _⟩ := getattr_returned H hdht h
  · exact .refl H
  · rw [hzero] at hr
    exact (Int.lt_irrefl 0 hr).elim

theorem readdir_unchanged {r : Int × List Str} (H : c.WF) (hdht : ReadOnly dht)
    (h : readdir dht path c = .ok r c') : Unchanged dht c c' := by
  obtain rfl | ⟨p, hm⟩ := readdir_returned H hdht h
  · exact .refl H
  · exact metadataOf_unchanged H hdht hm

theorem readlink_unchanged {buffer : Str} {size : Nat} {r : Int × Str} (H : c.WF)
    (hdht : ReadOnly dht) (h : readlink dht path buffer size c = .ok r c') :
    Unchanged dht c c' := by
  obtain ⟨p, hm⟩ := readlink_returned h
  exact metadataOf_unchanged H hdht hm

theorem truncate_negative {c c' : Fs δ Net} {length r : Int} (H : c.WF)
    (h : truncate DataOnFlush.policy path length c = .ok r c') (hr : r < 0) :
    Unchanged dht c c' := by
  obtain ⟨_, _, rfl⟩ | ⟨_, rfl, _⟩ := truncate_eq DataOnFlush.policy_noLookupE h
  · exact .refl H
  · exact (Int.lt_irrefl 0 hr).elim

/-- A callback that returns a negative number has changed nothing to be seen, but for a `chmod` or
an `unlink` that is denied when the attribute of its path is not dirty already. -/
theorem unchanged_iff_harmless (stringHash : Str → Nat) {c c' : Fs Harmony.Service Net} (H : c.WF)
    (x : Attempt) {r : Int}
    (h : attempt (Harmony.dht stringHash) DataOnFlush.policy process x c = .ok r c') (hr : r < 0) :
    Unchanged (Harmony.dht stringHash) c c' ↔ Harmless c x := by
  have hdht := readOnly_harmony stringHash
  cases x with
  | chmod path mode => exact chmod_negative H h hr
  | unlink path freed => exact unlink_negative H h hr
  | create path mode now => exact iff_of_true (create_negative H h hr) trivial
  | mkdir path mode now => exact iff_of_true (mkdir_negative H h hr) trivial
  | getattr path stat =>
    obtain ⟨_, _, hx, h⟩ := Exec.bind_eq_ok.mp h
    cases h
    exact iff_of_true (getattr_negative H hdht hx hr) trivial
  | readdir path =>
    obtain ⟨_, _, hx, h⟩ := Exec.bind_eq_ok.mp h
    cases h
    exact iff_of_true (readdir_unchanged H hdht hx) trivial
  | readlink path buffer size =>
    obtain ⟨_, _, hx, h⟩ := Exec.bind_eq_ok.mp h
    cases h
    exact iff_of_true (readlink_unchanged H hdht hx) trivial
  | truncate path length => exact iff_of_true (truncate_negative H h hr) trivial

/-- A look-up of a path that is only in the DHT. -/
theorem lookup_harmony {stringHash : Str → Nat} {c : Fs Harmony.Service σ} {r : Fattribute.Record}
    (H : c.WF) (hc : c.cached path = none) (hcv : slot path ∉ c.metadataSink.cv)
    (hr : c.dht[Harmony.hash stringHash (slot path)]? = some (BinaryArchive.save r)) :
    lookup (Harmony.dht stringHash) c path = .ok (Fattribute.new.deserialize r) := by
  have hget : (Harmony.dht stringHash).get (AttributeValue.newPointer path).getKey c.dht =
      .ok (BinaryArchive.save r) c.dht := by
    refine Harmony.get_apply.trans ?_
    have hr : c.dht[Harmony.hash stringHash (AttributeValue.newPointer path).getKey]? = _ := hr
    rw [hr]
  have hset : (AttributeValue.newPointer path).setValue (BinaryArchive.save r) =
      some ⟨⟨.attribute, path⟩, Fattribute.new.deserialize r⟩ := by
    rw [AttributeValue.setValue, BinaryArchive.load_save]
    rfl
  rw [lookup_miss H hc, MetadataOnFlush.preRead_ok (MetadataOnFlush.getPair_ok hget hset)]
  exact if_neg hcv

omit [BinaryArchive Fattribute.Record] in
/-- `operator[]` makes an attribute of user 0 for a path that is not cached, and the check is made on
that one. -/
theorem chmod_uncached {mode : UInt32} (H : c.WF) (hc : c.cached path = none)
    (hp : process.uid ≠ 0) : ∃ c', chmod process path mode c = .ok (-EACCES) c' := by
  obtain ⟨p, c₁, h₁, hpair, ha, _⟩ := metadataAt_spec H path
  have huid : (Fattribute.new).stbuf.uid = 0 := rfl
  refine ⟨c₁, ?_⟩
  rw [chmod, Exec.bind_of_ok h₁, Exec.bind_of_ok (getMapped_ok hpair ha), hc, Option.getD_none,
    if_neg (by rw [huid]; rintro (h | h) <;> exact hp (by simp [h]))]
  rfl

end Fs

namespace Fs

open scoped PlainArchive

/-- The owner of a file that another client has put in the DHT changes its mode: the call is denied,
and a flush would now overwrite the file's attribute with an empty one. -/
theorem exists_denied_change : ∃ (c c' : Fs Harmony.Service Net) (a : Fattribute),
    c.WF ∧ lookup (Harmony.dht Harmony.boostHash) c ['/', 'f'] = .ok a ∧ a.stbuf.uid = 5 ∧
      attempt (Harmony.dht Harmony.boostHash) DataOnFlush.policy ⟨5, 5⟩
        (.chmod ['/', 'f'] 0o600) c = .ok (-EACCES) c' ∧
      ¬Unchanged (Harmony.dht Harmony.boostHash) c c' := by
  let r : Fattribute.Record := { Fattribute.new.serialize with uid := 5 }
  let c : Fs Harmony.Service Net := empty ((∅ : Harmony.Service).insert
    (Harmony.hash Harmony.boostHash (slot ['/', 'f'])) (BinaryArchive.save r))
    ⟨fun _ => [], 0, fun _ => none, fun _ _ => none⟩
  have h : ∃ c', chmod ⟨5, 5⟩ ['/', 'f'] 0o600 c = .ok (-EACCES) c' :=
    chmod_uncached wf_empty cached_empty (by decide)
  obtain ⟨c', h⟩ := h
  refine ⟨c, c', _, wf_empty, lookup_harmony wf_empty cached_empty Std.ExtTreeSet.not_mem_empty
    Std.ExtTreeMap.getElem?_insert_self, rfl, h, ?_⟩
  rw [chmod_negative wf_empty h (by decide)]
  exact BasicCache.not_isDirty_empty

/-- The attribute of `/` is dirty from the start, so a `chmod` that is denied leaves no trace. -/
theorem unchanged_iff_harmless_example : ∃ c' : Fs Harmony.Service Net,
    attempt (Harmony.dht Harmony.boostHash) DataOnFlush.policy ⟨5, 5⟩ (.chmod ['/'] 0o600)
      (start ⟨0, 0⟩ ∅ ⟨fun _ => [], 0, fun _ => none, fun _ _ => none⟩) = .ok (-EACCES) c' ∧
    Unchanged (Harmony.dht Harmony.boostHash)
      (start ⟨0, 0⟩ ∅ ⟨fun _ => [], 0, fun _ => none, fun _ _ => none⟩) c' := by
  have h : (Exec.result? (attempt (Harmony.dht Harmony.boostHash) DataOnFlush.policy ⟨5, 5⟩
      (.chmod ['/'] 0o600) (start ⟨0, 0⟩ ∅ ⟨fun _ => [], 0, fun _ => none, fun _ _ => none⟩ :
        Fs Harmony.Service Net))).map (·.1) = some (-EACCES) := by
    decide +kernel
  have hd : Harmless (start ⟨0, 0⟩ ∅ ⟨fun _ => [], 0, fun _ => none, fun _ _ => none⟩ :
      Fs Harmony.Service Net) (.chmod ['/'] 0o600) := by
    show BasicCache.IsDirty _ _
    decide +kernel
  obtain ⟨⟨r, c'⟩, hr, rfl⟩ := Option.map_eq_some_iff.mp h
  have hrun := Exec.eq_ok_of_result? hr
  exact ⟨c', hrun, (unchanged_iff_harmless Harmony.boostHash (start_spec _ _ _).1 _ hrun
    (by decide)).mpr hd⟩

end Fs

end ColonyFS

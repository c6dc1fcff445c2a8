import ColonyFS.Fuse.Step

/-!
# Look-ups

`metadata_sink_(path)` answers with the attribute in the cache, or with what `PreRead` makes of the
value in the DHT. That one goes into the cache.
-/

namespace ColonyFS

open Paths Function

namespace Fs

variable {δ σ α : Type} [BinaryArchive Instruction] [BinaryArchive Fattribute.Record]
  {dht : Dht δ} {c c' c₁ : Fs δ σ} {path : Str} {p : Ptr} {a : Fattribute} {v w : AttributeValue}
  {s t : δ} {e : Stop}

/-- A DHT that a `get` does not change. -/
def ReadOnly (dht : Dht δ) : Prop := ∀ key s, Exec.final (dht.get key s) = s

omit [BinaryArchive Instruction] [BinaryArchive Fattribute.Record] in
theorem readOnly_harmony (stringHash : Str → Nat) : ReadOnly (Harmony.dht stringHash) := by
  intro key s
  show Exec.final (Harmony.get stringHash key s) = s
  rw [Harmony.get_apply]
  split <;> rfl

omit [BinaryArchive Instruction] [BinaryArchive Fattribute.Record] in
theorem readOnly_table : ReadOnly Dht.table := by
  intro key s
  simp only [Dht.table]
  split <;> rfl

theorem final_getPair (hdht : ReadOnly dht) :
    Exec.final (MetadataOnFlush.getPair dht v s) = s := by
  have hs := hdht v.getKey s
  cases hg : dht.get v.getKey s with
  | ok raw t =>
    rw [hg] at hs
    obtain rfl : t = s := hs
    cases hv : v.setValue raw with
    | some w => rw [MetadataOnFlush.getPair_ok hg hv]; rfl
    | none => rw [MetadataOnFlush.getPair_archive hg hv]; rfl
  | error e t =>
    rw [hg] at hs
    obtain rfl : t = s := hs
    rw [MetadataOnFlush.getPair, Exec.bind_of_error hg]
    rfl

theorem final_preRead (hdht : ReadOnly dht) :
    Exec.final ((MetadataOnFlush.policy dht).preRead v s) = s := by
  have hs := final_getPair (v := v) (s := s) hdht
  simp only [MetadataOnFlush.policy, MetadataOnFlush.preRead]
  split
  · next h => rw [h] at hs; exact hs
  · exact hs

/-- The state after a look-up that missed, and for which `PreRead` made `v`. -/
def fetched (c : Fs δ σ) (path : Str) (v : AttributeValue) (s : δ) : Fs δ σ :=
  { c with
    metadataSink :=
      { impl := (c.metadataSink.impl.alloc v).2.insert (slot path) (c.metadataSink.impl.alloc v).1
        cv := c.metadataSink.cv.insert (slot path) }
    dht := s }

omit [BinaryArchive Fattribute.Record] in
theorem read_eq_none (H : c.WF) (hc : c.cached path = none) :
    c.metadataSink.impl.read (slot path) = none := by
  rw [BasicCache.WF.read_eq_none_iff H]
  exact Option.map_eq_none_iff.mp hc

theorem metadataOf_fetched (H : c.WF) (hc : c.cached path = none)
    (hP : (MetadataOnFlush.policy dht).preRead (AttributeValue.newPointer path) c.dht = .ok v s)
    (hcv : slot path ∉ c.metadataSink.cv) :
    metadataOf dht path c = .ok c.metadataSink.impl.next (c.fetched path v s) := by
  have hk : CacheValue.getKey v = slot path := MetadataOnFlush.policy_keepsKey dht _ _ _ _ hP
  have h : metadataOf dht path c = _ :=
    onMetadata_ok (Cache.call_miss (read_eq_none H hc) hP (hk ▸ hcv))
  rw [h, hk]
  rfl

omit [BinaryArchive Fattribute.Record] in
theorem fetched_pair : (c.fetched path v s).Pair path c.metadataSink.impl.next := by
  rw [Pair, fetched, BasicCache.read_insert, if_pos rfl]
  rfl

omit [BinaryArchive Fattribute.Record] in
theorem fetched_wf (H : c.WF) (hc : c.cached path = none) (hk : v.getKey = slot path) :
    (c.fetched path v s).WF :=
  BasicCache.WF.insert_alloc H (read_eq_none H hc) hk

omit [BinaryArchive Fattribute.Record] in
theorem fetched_cached (H : c.WF) :
    (c.fetched path v s).cached = update c.cached path (some v.mapped) :=
  cached_eq_update (o := some v) fun _ => BasicCache.WF.get?_insert_alloc H

theorem attr?_of_cached (ha : c.cached path = some a) : attr? dht c path = some a := by
  simp only [attr?, ha]

theorem cached_of_attr?_none (h : attr? dht c path = none) : c.cached path = none := by
  cases hc : c.cached path with
  | none => rfl
  | some a => cases (attr?_of_cached hc).symm.trans h

theorem attr?_of_preRead (hc : c.cached path = none)
    (hP : (MetadataOnFlush.policy dht).preRead (AttributeValue.newPointer path) c.dht = .ok v s) :
    attr? dht c path = some v.mapped := by
  have hP : MetadataOnFlush.preRead dht (AttributeValue.newPointer path) c.dht = .ok v s := hP
  simp only [attr?, hc, hP]

/-- A look-up does not return because the policy does not, or a mutex is locked. -/
theorem metadataOf_stopped (H : c.WF) (h : metadataOf dht path c = .error e c₁) :
    ∃ s, c₁ = { c with dht := s } ∧
      ((MetadataOnFlush.policy dht).preRead (AttributeValue.newPointer path) c.dht = .error e s ∨
        e = .blocked ∧ ∃ v,
          (MetadataOnFlush.policy dht).preRead (AttributeValue.newPointer path) c.dht = .ok v s) := by
  cases hc : c.cached path with
  | some a =>
    obtain ⟨q, hq, _⟩ := metadataOf_ok dht hc
    cases hq.symm.trans h
  | none =>
    have hr := read_eq_none H hc
    cases hP : (MetadataOnFlush.policy dht).preRead (AttributeValue.newPointer path) c.dht with
    | error e s =>
      cases (onMetadata_error (Cache.call_raised hr hP)).symm.trans h
      exact ⟨s, rfl, .inl rfl⟩
    | ok v s =>
      have hk : CacheValue.getKey v = slot path := MetadataOnFlush.policy_keepsKey dht _ _ _ _ hP
      by_cases hcv : slot path ∈ c.metadataSink.cv
      · cases (onMetadata_error (Cache.call_blocked hr hP (hk ▸ hcv))).symm.trans h
        exact ⟨s, rfl, .inr ⟨rfl, v, rfl⟩⟩
      · cases (metadataOf_fetched H hc hP hcv).symm.trans h

theorem metadataOf_error (H : c.WF) (hdht : ReadOnly dht)
    (h : metadataOf dht path c = .error e c₁) : c₁ = c := by
  obtain ⟨s, rfl, hP⟩ := metadataOf_stopped H h
  have hs := final_preRead (v := AttributeValue.newPointer path) (s := c.dht) hdht
  obtain hP | ⟨_, v, hP⟩ := hP
  · rw [hP] at hs
    obtain rfl : s = c.dht := hs
    rfl
  · rw [hP] at hs
    obtain rfl : s = c.dht := hs
    rfl

/-- A look-up returns because the cache has the attribute, or the policy. -/
theorem metadataOf_returned (H : c.WF) (hdht : ReadOnly dht)
    (h : metadataOf dht path c = .ok p c₁) :
    (c₁ = c ∧ c.Pair path p ∧ ∃ a, c.cached path = some a) ∨ c.cached path = none ∧ ∃ v,
      (MetadataOnFlush.policy dht).preRead (AttributeValue.newPointer path) c.dht = .ok v c.dht ∧
        slot path ∉ c.metadataSink.cv ∧ p = c.metadataSink.impl.next ∧
        c₁ = c.fetched path v c.dht := by
  cases hc : c.cached path with
  | some a =>
    obtain ⟨q, hq, hp⟩ := metadataOf_ok dht hc
    cases hq.symm.trans h
    exact .inl ⟨rfl, hp, a, rfl⟩
  | none =>
    have hr := read_eq_none H hc
    have hs := final_preRead (v := AttributeValue.newPointer path) (s := c.dht) hdht
    cases hP : (MetadataOnFlush.policy dht).preRead (AttributeValue.newPointer path) c.dht with
    | error e s => cases (onMetadata_error (Cache.call_raised hr hP)).symm.trans h
    | ok v s =>
      rw [hP] at hs
      obtain rfl : s = c.dht := hs
      have hk : CacheValue.getKey v = slot path := MetadataOnFlush.policy_keepsKey dht _ _ _ _ hP
      by_cases hcv : slot path ∈ c.metadataSink.cv
      · cases (onMetadata_error (Cache.call_blocked hr hP (hk ▸ hcv))).symm.trans h
      · cases (metadataOf_fetched H hc hP hcv).symm.trans h
        exact .inr ⟨rfl, v, rfl, hcv, rfl, rfl⟩

/-- What a look-up leads to. -/
theorem metadataOf_cases (H : c.WF) (hdht : ReadOnly dht) (path : Str) :
    (∃ e, metadataOf dht path c = .error e c) ∨
    ∃ p c' a, metadataOf dht path c = .ok p c' ∧ attr? dht c path = some a ∧ c'.WF ∧
      c'.Pair path p ∧ c'.cached = update c.cached path (some a) ∧ c'.dht = c.dht := by
  cases h : metadataOf dht path c with
  | error e c₁ =>
    obtain rfl := metadataOf_error H hdht h
    exact .inl ⟨e, rfl⟩
  | ok p c₁ =>
    refine .inr ⟨p, c₁, ?_⟩
    obtain ⟨rfl, hp, a, ha⟩ | ⟨hc, v, hP, _, rfl, rfl⟩ := metadataOf_returned H hdht h
    · exact ⟨a, rfl, attr?_of_cached ha, H, hp, by rw [← ha, update_eq_self], rfl⟩
    · have hk : v.getKey = slot path := MetadataOnFlush.policy_keepsKey dht _ _ _ _ hP
      exact ⟨v.mapped, rfl, attr?_of_preRead hc hP, fetched_wf H hc hk, fetched_pair,
        fetched_cached H, rfl⟩

/-! ## Callbacks that look at one attribute -/

/-- A look-up in a `try` block, and statements on the attribute that raise nothing: the handler runs
in the state before. -/
theorem catchLookup_metadataOf_ok {k : Fattribute → FuseM δ σ α} {handler x : α} (H : c.WF)
    (hdht : ReadOnly dht) (hk : ∀ a s e t, k a s ≠ .error (.raised e) t)
    (h : catchLookup (metadataOf dht path >>= fun p => getMapped p >>= k) (pure handler) c =
      .ok x c') : c' = c ∨ ∃ p c₁ a, metadataOf dht path c = .ok p c₁ ∧ k a c₁ = .ok x c' := by
  cases hm : metadataOf dht path c with
  | error e s =>
    obtain rfl := metadataOf_error H hdht hm
    have hx := Exec.bind_of_error (f := fun p => getMapped p >>= k) hm
    rw [catchLookup, hx] at h
    split at h
    · next he => cases he; cases h; exact .inl rfl
    · cases h
  | ok p c₁ =>
    rw [catchLookup, Exec.bind_of_ok hm] at h
    cases hb : (getMapped p >>= k) c₁ with
    | error e s =>
      rw [hb] at h
      split at h
      · next he =>
        cases he
        obtain hb | ⟨a, t, _, hb⟩ := Exec.bind_eq_error.mp hb
        · exact (getMapped_ne_raised hb).elim
        · exact (hk a t _ _ hb).elim
      · cases h
    | ok y s =>
      rw [hb] at h
      cases h
      obtain ⟨a, t, hg, hka⟩ := Exec.bind_eq_ok.mp hb
      cases getMapped_state hg
      exact .inr ⟨p, c₁, a, rfl, hka⟩

theorem getattr_returned {stat : Stat} {r : Int × Stat} (H : c.WF) (hdht : ReadOnly dht)
    (h : getattr dht path stat c = .ok r c') :
    c' = c ∨ r.1 = 0 ∧ ∃ p, metadataOf dht path c = .ok p c' := by
  rw [getattr] at h
  split at h
  · cases h
    exact .inl rfl
  · have hk : ∀ (a : Fattribute) (s : Fs δ σ) e t, (do
        Exec.require (a.stbuf.nlink ≠ 0) .assertion
        return (0, a.stbuf) : FuseM δ σ (Int × Stat)) s ≠ .error (.raised e) t := by
      intro a s e t he
      obtain he | ⟨_, _, _, he⟩ := Exec.bind_eq_error.mp he
      · exact require_ne_raised (by rintro ⟨⟩) he
      · cases he
    obtain h | ⟨p, c₁, a, hm, hka⟩ := catchLookup_metadataOf_ok H hdht hk h
    · exact .inl h
    · obtain ⟨_, _, h₁, hka⟩ := Exec.bind_eq_ok.mp hka
      cases hka
      obtain ⟨_, rfl⟩ := Exec.require_eq_ok h₁
      exact .inr ⟨rfl, p, hm⟩

theorem readdir_returned {r : Int × List Str} (H : c.WF) (hdht : ReadOnly dht)
    (h : readdir dht path c = .ok r c') :
    c' = c ∨ ∃ p, metadataOf dht path c = .ok p c' := by
  have hk : ∀ (a : Fattribute) (s : Fs δ σ) e t, (do
      if ¬a.IsDir then return (-ENOTDIR, [])
      return (0, ['.'] :: ['.', '.'] :: a.list) : FuseM δ σ (Int × List Str)) s ≠
        .error (.raised e) t := by
    intro a s e t he
    split at he <;> cases he
  obtain h | ⟨p, c₁, a, hm, hka⟩ := catchLookup_metadataOf_ok H hdht hk h
  · exact .inl h
  · refine .inr ⟨p, ?_⟩
    split at hka <;> cases hka <;> exact hm

/-- The names are those of the attribute that the look-up has left in the cache. -/
theorem readdir_ok {names : List Str} (H : c.WF) (hdht : ReadOnly dht)
    (h : readdir dht path c = .ok (0, names) c') : ∃ p a, metadataOf dht path c = .ok p c' ∧
      c'.cached path = some a ∧ names = ['.'] :: ['.', '.'] :: a.list := by
  rw [readdir, catchLookup] at h
  obtain ⟨e, he⟩ | ⟨p, c₁, a, hm, _, _, hp, hc, _⟩ := metadataOf_cases H hdht path
  · rw [Exec.bind_of_error he] at h
    split at h <;> cases h
  · have ha : c₁.cached path = some a := by rw [hc, update_self]
    rw [Exec.bind_of_ok hm, Exec.bind_of_ok (getMapped_ok hp ha)] at h
    by_cases hd : a.IsDir
    · rw [if_neg (not_not.mpr hd)] at h
      cases h
      exact ⟨p, a, hm, ha, rfl⟩
    · rw [if_pos hd] at h
      cases h

theorem readlink_returned {buffer : Str} {size : Nat} {r : Int × Str}
    (h : readlink dht path buffer size c = .ok r c') : ∃ p, metadataOf dht path c = .ok p c' := by
  obtain ⟨p, c₁, hm, h⟩ := Exec.bind_eq_ok.mp h
  obtain ⟨a, s, hg, h⟩ := Exec.bind_eq_ok.mp h
  cases getMapped_state hg
  refine ⟨p, ?_⟩
  split at h
  · cases h
    exact hm
  · cases hl : a.list with
    | nil =>
      rw [hl] at h
      cases h
    | cons target _ =>
      rw [hl] at h
      obtain ⟨_, _, h₁, h⟩ := Exec.bind_eq_ok.mp h
      cases h
      obtain ⟨_, rfl⟩ := Exec.require_eq_ok h₁
      exact hm

end Fs

end ColonyFS

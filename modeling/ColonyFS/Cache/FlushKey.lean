import ColonyFS.Cache.Calls

/-!
# Flushing one key

`invalidate(key)` looks an entry up under the key that its value reports and clears the mark of the
key it was called with. The two agree for chunks. An attribute reports the archive of its
instruction, so its mark stays.
-/

namespace ColonyFS

open Std

namespace Cache

variable {κ τ σ : Type} [Ord κ] [TransOrd κ] [LawfulEqOrd κ] [CacheValue κ τ]
  {P : Policy τ σ} {c c' : Cache κ τ} {env env' : σ} {key k : κ} {keys : List κ}

/-- What a call that returns has done to the marks. -/
theorem isDirty_of_invalidate (H : c.impl.WF)
    (h : invalidate P key (c, env) = .ok () (c', env')) :
    c'.impl.WF ∧ ∀ k, c'.impl.IsDirty k ↔
      c.impl.IsDirty k ∧ (c.impl.IsDirty (slot τ key) → key ≠ k) := by
  by_cases hd : c.impl.IsDirty (slot τ key)
  · obtain ⟨p, hp⟩ := H.read_of_isDirty hd
    obtain ⟨v, hv, _⟩ := H.live hp
    cases hP : P.onFlush v env with
    | ok _ env₁ =>
      cases (invalidate_dirty hd hp hv hP).symm.trans h
      refine ⟨H.clearDirty, ?_⟩
      intro k
      rw [BasicCache.isDirty_clearDirty]
      exact ⟨fun hk => ⟨hk.2, fun _ => hk.1⟩, fun hk => ⟨hk.2 hd, hk.1⟩⟩
    | error e env₁ => cases (invalidate_raised hd hp hv hP).symm.trans h
  · cases (invalidate_clean hd).symm.trans h
    exact ⟨H, fun k => ⟨fun hk => ⟨hk, fun h => (hd h).elim⟩, And.left⟩⟩

/-- Every call is for a key that its value reports: the loop clears what it names. -/
theorem clean_of_forM (H : c.impl.WF) (h : keys.forM (invalidate P) (c, env) = .ok () (c', env'))
    (hkeys : ∀ k, c.impl.IsDirty k → slot τ k = k ∧ k ∈ keys) : ∀ k, ¬c'.impl.IsDirty k := by
  induction keys generalizing c env with
  | nil =>
    cases h
    intro k hk
    exact List.not_mem_nil (hkeys k hk).2
  | cons key keys ih =>
    obtain ⟨_, ⟨c₁, env₁⟩, h₁, h⟩ := Exec.bind_eq_ok.mp h
    obtain ⟨H₁, hd⟩ := isDirty_of_invalidate H h₁
    refine ih H₁ h ?_
    intro k hk
    obtain ⟨hk, hne⟩ := (hd k).mp hk
    obtain ⟨hslot, hmem⟩ := hkeys k hk
    refine ⟨hslot, ?_⟩
    obtain rfl | hmem := List.mem_cons.mp hmem
    · exact (hne (hslot.symm ▸ hk) rfl).elim
    · exact hmem

/-- Whatever the calls are for: the last mark can only go by a call for the very key of its value,
and so the one before it. -/
theorem slot_eq_of_forM (hinj : Function.Injective (slot τ)) (H : c.impl.WF)
    (h : keys.forM (invalidate P) (c, env) = .ok () (c', env'))
    (hclean : ∀ k, ¬c'.impl.IsDirty k) : ∀ k, c.impl.IsDirty k → slot τ k = k := by
  induction keys generalizing c env with
  | nil =>
    cases h
    intro k hk
    exact (hclean k hk).elim
  | cons key keys ih =>
    obtain ⟨_, ⟨c₁, env₁⟩, h₁, h⟩ := Exec.bind_eq_ok.mp h
    obtain ⟨H₁, hd⟩ := isDirty_of_invalidate H h₁
    have ih := ih H₁ h
    intro k hk
    by_contra hne
    -- The mark of `k` did not last, so the first call took it.
    have hgone : ¬c₁.impl.IsDirty k := fun hk₁ => hne (ih k hk₁)
    have hkey : c.impl.IsDirty (slot τ key) ∧ key = k := by
      by_contra hno
      exact hgone ((hd k).mpr ⟨hk, fun h he => hno ⟨h, he⟩⟩)
    obtain ⟨hdirty, rfl⟩ := hkey
    -- The mark of its value is still there, and that value reports itself.
    have hleft : c₁.impl.IsDirty (slot τ key) := (hd _).mpr ⟨hdirty, fun _ he => hne he.symm⟩
    exact hne (hinj (ih _ hleft))

end Cache

namespace CallState

open Cache (slot)
open Machine

variable {κ τ σ : Type} [Ord κ] [TransOrd κ] [LawfulEqOrd κ] [DecidableEq κ] [CacheValue κ τ]
  (P : Policy τ σ) (onDone : EStateM Stop σ Unit)

/-- What `invalidate(key)` should leave behind. -/
structure Cleared (s : CallState κ τ σ) (key : κ) (c : Cache κ τ) (env : σ) : Prop where
  clean : ¬c.impl.IsDirty (slot τ key)
  cached : c.impl.get? (slot τ key) = s.cache.impl.get? (slot τ key)
  /-- Until the next `operator[]` for the key, flushing it again calls no `OnFlush`: the call
  returns whatever the policy is. -/
  idle : ∀ t, Reach (step P onDone) (fun _ act => act ≠ .subscript key) ⟨c, env, s.handles⟩ t →
    ∀ (Q : Policy τ σ) env, Cache.invalidate Q key (t.cache, env) = .ok () (t.cache, env)

variable {P onDone} {s s' : CallState κ τ σ} {act : CacheAct κ τ} {env : σ} {key : κ}

/-- A mark appears in `operator[]` only. -/
theorem not_isDirty_of_step (hinj : Function.Injective (slot τ)) (hact : act ≠ .subscript key)
    (hstep : step P onDone s act = some s') (h : ¬s.cache.impl.IsDirty (slot τ key)) :
    ¬s'.cache.impl.IsDirty (slot τ key) := by
  cases next_of_step hstep with
  | hit | raised | miss | assign => exact h
  | @subscript k =>
    have hne : slot τ k ≠ slot τ key := fun he => hact (by rw [hinj he])
    cases hr : s.cache.impl.read (slot τ k) with
    | some p =>
      rw [Cache.subscript_hit hr]
      exact fun hd => (BasicCache.isDirty_setDirty.mp hd).elim hne h
    | none =>
      rw [Cache.subscript_miss hr]
      exact fun hd => (BasicCache.isDirty_setDirty.mp hd).elim hne h
  | purge => exact fun hd => h (BasicCache.isDirty_erase.mp hd).2
  | purgeAll => exact BasicCache.not_isDirty_clear
  | invalidate hc =>
    obtain rfl | rfl := hc
    · exact h
    · exact fun hd => h (BasicCache.isDirty_clearDirty.mp hd).2
  | invalidateAll hc =>
    obtain rfl | rfl := hc
    · exact h
    · exact BasicCache.not_isDirty_clearAllDirty

theorem not_isDirty_of_reach {ok : CallState κ τ σ → CacheAct κ τ → Prop}
    (hinj : Function.Injective (slot τ)) (hok : ∀ s act, ok s act → act ≠ .subscript key)
    (hs : Reach (step P onDone) ok s s') (h : ¬s.cache.impl.IsDirty (slot τ key)) :
    ¬s'.cache.impl.IsDirty (slot τ key) :=
  hs.invariant (P := fun s => ¬s.cache.impl.IsDirty (slot τ key)) h
    fun _ _ _ hclean hact hstep => not_isDirty_of_step hinj (hok _ _ hact) hstep hclean

/-- Flushing by key clears the marks of the keys that are `good`, and of no others. -/
structure FlushesKeys (P : Policy τ σ) (onDone : EStateM Stop σ Unit) (s : CallState κ τ σ)
    (good : κ → Prop) : Prop where
  one : ∀ key c env, Cache.invalidate P key (s.cache, s.env) = .ok () (c, env) →
    (Cleared P onDone s key c env ↔ (s.cache.impl.IsDirty (slot τ key) → good key))
  /-- One call for every dirty key. -/
  each : ∀ (keys : List κ) c env, (∀ k, s.cache.impl.IsDirty k → ∃ key ∈ keys, slot τ key = k) →
    keys.forM (Cache.invalidate P) (s.cache, s.env) = .ok () (c, env) →
    (c.impl.dirty = ∅ ↔ ∀ key ∈ keys, s.cache.impl.IsDirty (slot τ key) → good key)
  /-- `invalidate()`. -/
  whole : ∀ c env, Cache.invalidateAll P onDone (s.cache, s.env) = .ok () (c, env) →
    c.impl.dirty = ∅

theorem cleared_iff (hinj : Function.Injective (slot τ)) (H : s.cache.impl.WF) {c : Cache κ τ}
    {env' : σ} (h : Cache.invalidate P key (s.cache, s.env) = .ok () (c, env')) :
    Cleared P onDone s key c env' ↔ (s.cache.impl.IsDirty (slot τ key) → slot τ key = key) := by
  obtain ⟨H', hd⟩ := Cache.isDirty_of_invalidate H h
  constructor
  · intro hcl hdirty
    by_contra hne
    exact hcl.clean ((hd _).mpr ⟨hdirty, fun _ he => hne he.symm⟩)
  · intro hgood
    have hclean : ¬c.impl.IsDirty (slot τ key) := by
      intro hk
      obtain ⟨hk, hne⟩ := (hd _).mp hk
      exact hne hk (hgood hk).symm
    refine ⟨hclean, ?_, ?_⟩
    · have hc := Cache.invalidate_cache P key s.cache s.env
      rw [h] at hc
      obtain rfl | rfl := hc
      · rfl
      · exact BasicCache.get?_clearDirty
    · intro t ht Q env''
      exact Cache.invalidate_clean (not_isDirty_of_reach hinj (fun _ _ h => h) ht hclean)

theorem flushesKeys (hinj : Function.Injective (slot τ)) (H : s.cache.impl.WF) :
    FlushesKeys P onDone s fun key => slot τ key = key where
  one _ _ _ h := cleared_iff hinj H h
  each keys c env' hcover h := by
    rw [ExtTreeMap.eq_empty_iff_forall_not_mem]
    constructor
    · intro hclean key _ hdirty
      exact hinj (Cache.slot_eq_of_forM hinj H h hclean _ hdirty)
    · intro hgood
      refine Cache.clean_of_forM H h ?_
      intro k hk
      obtain ⟨key, hmem, rfl⟩ := hcover k hk
      have hslot := hgood key hmem hk
      rw [hslot]
      exact ⟨hslot, hmem⟩
  whole c env' h := by
    rw [Cache.invalidateAll_apply] at h
    obtain ⟨_, ⟨c₁, env₁⟩, _, h⟩ := Exec.bind_eq_ok.mp h
    rw [Exec.bind_of_ok (Exec.modify_apply _ _)] at h
    cases hdone : onDone env₁ with
    | ok _ env₂ => cases (Cache.withEnv_ok hdone).symm.trans h; rfl
    | error e env₂ => cases (Cache.withEnv_error hdone).symm.trans h

omit [LawfulEqOrd κ] in
theorem FlushesKeys.congr {good good' : κ → Prop} (h : ∀ key, good key ↔ good' key)
    (H : FlushesKeys P onDone s good) : FlushesKeys P onDone s good' := by
  have he : good = good' := funext fun key => propext (h key)
  rw [← he]
  exact H

/-! ## The two caches of the program -/

section

variable [BinaryArchive Instruction] [BinaryArchive Fattribute.Record]

/-- A chunk reports the key that it was made for, so flushing a chunk clears its mark. The mark of
an attribute goes only if its path is the archive of its own instruction. -/
theorem flushesKeys_iff {σ δ : Type} {P : Policy ChunkData σ} {onDone : EStateM Stop σ Unit}
    {env : σ} {s : CallState ChunkKey ChunkData σ} {dht : Dht δ} {onDone' : EStateM Stop δ Unit}
    {service : δ} {t : CallState Str AttributeValue δ} (hP : P.KeepsKey)
    (hs : Reach (step P onDone) KeepsKeys (init env) s)
    (ht : Reach (step (MetadataOnFlush.policy dht) onDone') KeepsKeys (init service) t) :
    FlushesKeys P onDone s (fun _ => True) ∧
      FlushesKeys (MetadataOnFlush.policy dht) onDone' t
        (fun path => BinaryArchive.save (⟨.attribute, path⟩ : Instruction) = path) := by
  have hchunk : ∀ key, slot ChunkData key = key := fun _ => rfl
  constructor
  · refine (flushesKeys ?_ (Inv.of_reach hP hs).wf).congr fun key => iff_of_true (hchunk key) trivial
    intro key key' h
    exact h
  · exact flushesKeys (fun _ _ h => AttributeValue.getKey_newPointer_injective h)
      (Inv.of_reach (MetadataOnFlush.policy_keepsKey dht) ht).wf

end

open scoped PlainArchive

/-- A dirty chunk and a dirty attribute. -/
theorem flushesKeys_iff_example :
    ∃ (s : CallState ChunkKey ChunkData Net)
      (t : CallState Str AttributeValue (Str → Option Str)),
      s.cache.impl.IsDirty ⟨['f'], 0⟩ ∧ t.cache.impl.IsDirty ['a', 'f'] ∧
      FlushesKeys DataOnFlush.policy (pure ()) s (fun _ => True) ∧
      FlushesKeys (MetadataOnFlush.policy .table) (pure ()) t
        (fun path => BinaryArchive.save (⟨.attribute, path⟩ : Instruction) = path) := by
  have hs : (run (guarded (step DataOnFlush.policy (pure ())) KeepsKeys)
      (init ⟨fun _ => [], 0, fun _ => none, fun _ _ => none⟩) [.subscript ⟨['f'], 0⟩]).map
      (fun s => decide (s.cache.impl.IsDirty ⟨['f'], 0⟩)) = some true := by
    decide +kernel
  have ht : (run (guarded (step (MetadataOnFlush.policy .table) (pure ())) KeepsKeys)
      (init fun _ => none) [.subscript ['f']]).map
      (fun t => decide (t.cache.impl.IsDirty ['a', 'f'])) = some true := by
    decide +kernel
  obtain ⟨s, hs, hs'⟩ := Option.map_eq_some_iff.mp hs
  obtain ⟨t, ht, ht'⟩ := Option.map_eq_some_iff.mp ht
  exact ⟨s, t, of_decide_eq_true hs', of_decide_eq_true ht',
    flushesKeys_iff DataOnFlush.policy_keepsKey (.of_run_guarded _ hs) (.of_run_guarded _ ht)⟩

/-- A flushed attribute is as dirty as before. -/
theorem exists_marked : ∃ t : CallState Str AttributeValue (Str → Option Str),
    Reach (step (MetadataOnFlush.policy .table) (pure ())) KeepsKeys (init fun _ => none) t ∧
    ∃ c service, Cache.invalidate (MetadataOnFlush.policy .table) ['f'] (t.cache, t.env) =
        .ok () (c, service) ∧
      c.impl.IsDirty (slot AttributeValue ['f']) ∧
      ¬Cleared (MetadataOnFlush.policy .table) (pure ()) t ['f'] c service := by
  have h : (run (guarded (step (MetadataOnFlush.policy .table) (pure ())) KeepsKeys)
      (init fun _ => none) [.subscript ['f']]).bind (fun t =>
        (Exec.state? (Cache.invalidate (MetadataOnFlush.policy .table) ['f']
          (t.cache, t.env))).map fun s =>
          decide (s.1.impl.IsDirty (slot AttributeValue ['f']))) = some true := by
    decide +kernel
  obtain ⟨t, ht, h⟩ := Option.bind_eq_some_iff.mp h
  obtain ⟨⟨c, service⟩, hi, hd⟩ := Option.map_eq_some_iff.mp h
  obtain ⟨_, hi⟩ := Exec.of_state? hi
  have hd := of_decide_eq_true hd
  exact ⟨t, .of_run_guarded _ ht, c, service, hi, hd, fun hcl => hcl.clean hd⟩

end CallState

end ColonyFS

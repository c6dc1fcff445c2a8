import ColonyFS.Fuse.Refinement
import ColonyFS.Fuse.TwoRuns

/-!
# A DHT without collisions

`Dht.table` keeps a value for every key, harmony one for every 16 bits of a hash. A client cannot tell
them apart as long as no two of the paths that the DHT is asked about share these bits: `Tabled` ties
the client of one to a client of the other, and `tabled_of_trace` follows a run of the first with a
run of the second, answer by answer.
-/

namespace ColonyFS

open Exec (Rel Any)
open Machine

namespace Cache

open Std

variable {κ τ σ σ' : Type} [Ord κ] [TransOrd κ] [CacheValue κ τ] {E : σ → σ' → Prop} {K : Set κ}
  {P : Policy τ σ} {P' : Policy τ σ'} {key : κ}

/-- One cache over related environments. -/
structure Beside (E : σ → σ' → Prop) (s : Cache κ τ × σ) (t : Cache κ τ × σ') : Prop where
  cache : t.1 = s.1
  wf : s.1.impl.WF
  env : E s.2 t.2

/-- The policies do the same with the values whose keys are in `K`. -/
structure Matches (E : σ → σ' → Prop) (K : Set κ) (P : Policy τ σ) (P' : Policy τ σ') : Prop where
  preRead : ∀ v, CacheValue.getKey v ∈ K → Rel E Eq (P.preRead v) (P'.preRead v)
  onErase : ∀ v, CacheValue.getKey v ∈ K → Rel E Eq (P.onErase v) (P'.onErase v)
  onFlush : ∀ v, CacheValue.getKey v ∈ K → Rel E Eq (P.onFlush v) (P'.onFlush v)

theorem rel_call_beside [LawfulEqOrd κ] [DecidableEq κ] (hP : Matches E K P P')
    (hkeep : P.KeepsKey) (hK : slot τ key ∈ K) : Rel (Beside E) Eq (call P key) (call P' key) := by
  rintro ⟨_, e⟩ ⟨c, e'⟩ ⟨rfl, wf, he⟩
  cases hr : c.impl.read (slot τ key) with
  | some p =>
    rw [call_hit hr, call_hit hr]
    exact ⟨rfl, rfl, wf, he⟩
  | none =>
    have hpre := hP.preRead (CacheValue.newPointer key) hK
    cases hv : P.preRead (CacheValue.newPointer key) e with
    | error stop e₁ =>
      obtain ⟨e₁', hv', he₁⟩ := hpre.error he hv
      rw [call_raised hr hv, call_raised hr hv']
      exact ⟨rfl, rfl, wf, he₁⟩
    | ok v e₁ =>
      obtain ⟨_, e₁', hv', rfl, he₁⟩ := hpre.ok he hv
      by_cases hcv : CacheValue.getKey v ∈ c.cv
      · rw [call_blocked hr hv hcv, call_blocked hr hv' hcv]
        exact ⟨rfl, rfl, wf, he₁⟩
      · rw [call_miss hr hv hcv, call_miss hr hv' hcv]
        have hslot : CacheValue.getKey v = slot τ key := hkeep _ _ _ _ hv
        exact ⟨rfl, rfl, wf.insert_alloc (by rw [hslot, hr]) rfl, he₁⟩

theorem rel_purge_beside [LawfulEqOrd κ] [DecidableEq κ] (hP : Matches E K P P')
    (hK : slot τ key ∈ K) : Rel (Beside E) Eq (purge P key) (purge P' key) := by
  rintro ⟨_, e⟩ ⟨c, e'⟩ ⟨rfl, wf, he⟩
  have herase := hP.onErase (CacheValue.newPointer key) hK
  rw [purge_apply, purge_apply]
  cases hv : P.onErase (CacheValue.newPointer key) e with
  | error stop e₁ =>
    obtain ⟨e₁', hv', he₁⟩ := herase.error he hv
    rw [withEnv_error hv, withEnv_error hv']
    exact ⟨rfl, rfl, wf.erase, he₁⟩
  | ok r e₁ =>
    obtain ⟨_, e₁', hv', rfl, he₁⟩ := herase.ok he hv
    rw [withEnv_ok hv, withEnv_ok hv']
    exact ⟨rfl, rfl, wf.erase, he₁⟩

theorem rel_subscript_beside [LawfulEqOrd κ] [DecidableEq κ] (key : κ) : Rel (Beside E) Eq
    (modifyGet (fun (c, env) => ((c.subscript key).1, (c.subscript key).2, env)) : CacheM κ τ σ Ptr)
    (modifyGet fun (c, env) => ((c.subscript key).1, (c.subscript key).2, env)) := by
  rintro ⟨_, e⟩ ⟨c, e'⟩ ⟨rfl, wf, he⟩
  exact ⟨rfl, rfl, (subscript_spec wf).wf, he⟩

theorem rel_deref_beside (p : Ptr) :
    Rel (Beside E) Eq (deref p : CacheM κ τ σ τ) (deref p) := by
  rintro ⟨_, e⟩ ⟨c, e'⟩ ⟨rfl, wf, he⟩
  cases hv : c.impl.heap p with
  | none =>
    rw [deref_dangling hv, deref_dangling hv]
    exact ⟨rfl, rfl, wf, he⟩
  | some v =>
    rw [deref_ok hv, deref_ok hv]
    exact ⟨rfl, rfl, wf, he⟩

/-- The value that is flushed has the key that it is filed under. -/
theorem rel_invalidate_beside (hP : Matches E K P P') (hK : slot τ key ∈ K) :
    Rel (Beside E) Eq (invalidate P key) (invalidate P' key) := by
  rintro ⟨_, e⟩ ⟨c, e'⟩ ⟨rfl, wf, he⟩
  by_cases hd : c.impl.IsDirty (slot τ key)
  · obtain ⟨p, hp⟩ := wf.read_of_isDirty hd
    obtain ⟨v, hv, hkey⟩ := wf.live hp
    have hflush := hP.onFlush v (hkey ▸ hK)
    cases hf : P.onFlush v e with
    | error stop e₁ =>
      obtain ⟨e₁', hf', he₁⟩ := hflush.error he hf
      rw [invalidate_raised hd hp hv hf, invalidate_raised hd hp hv hf']
      exact ⟨rfl, rfl, wf, he₁⟩
    | ok r e₁ =>
      obtain ⟨_, e₁', hf', rfl, he₁⟩ := hflush.ok he hf
      rw [invalidate_dirty hd hp hv hf, invalidate_dirty hd hp hv hf']
      exact ⟨rfl, rfl, wf.clearDirty, he₁⟩
  · rw [invalidate_clean hd, invalidate_clean hd]
    exact ⟨rfl, rfl, wf, he⟩

end Cache

/-! ## The two services -/

namespace Harmony

variable {stringHash : Str → Nat} {K : Set Str} {service : Service} {table : Str → Option Str}
  {key value : Str}

/-- The table has what harmony has under the keys in `K`. -/
def Filed (stringHash : Str → Nat) (K : Set Str) (service : Service) (table : Str → Option Str) :
    Prop :=
  ∀ key ∈ K, table key = service[hash stringHash key]?

theorem rel_get (hkey : key ∈ K) :
    Rel (Filed stringHash K) Eq ((dht stringHash).get key) (Dht.table.get key) := by
  intro service table H
  have hkey := H key hkey
  have hget : (dht stringHash).get key service = _ := get_apply
  rw [hget]
  cases hs : service[hash stringHash key]? with
  | none =>
    have ht : Dht.table.get key table = .error (.raised .keyMissingError) table := by
      simp only [Dht.table, hkey, hs]
    rw [ht]
    exact ⟨rfl, H⟩
  | some value =>
    have ht : Dht.table.get key table = .ok value table := by
      simp only [Dht.table, hkey, hs]
    rw [ht]
    exact ⟨rfl, H⟩

/-- A value that is put reaches no other key in `K`. -/
theorem rel_put (hK : K.InjOn (hash stringHash)) (hkey : key ∈ K) :
    Rel (Filed stringHash K) Eq ((dht stringHash).put key value) (Dht.table.put key value) := by
  intro service table H
  refine ⟨rfl, ?_⟩
  intro k hk
  show Function.update table key (some value) k =
    (service.insert (hash stringHash key) value)[hash stringHash k]?
  rw [Std.ExtTreeMap.getElem?_insert]
  obtain rfl | hne := eq_or_ne k key
  · rw [Function.update_self, if_pos (by simp)]
  · rw [Function.update_of_ne hne, if_neg, H k hk]
    rw [Std.compare_eq_iff_eq]
    exact fun he => hne (hK hkey hk he).symm

end Harmony

namespace MetadataOnFlush

open Harmony (Filed)

variable [BinaryArchive Instruction] [BinaryArchive Fattribute.Record] {stringHash : Str → Nat}
  {K : Set Str} {v : AttributeValue}

theorem rel_preRead (hv : v.getKey ∈ K) :
    Rel (Filed stringHash K) Eq (preRead (Harmony.dht stringHash) v) (preRead Dht.table v) := by
  have hpair : Rel (Filed stringHash K) Eq (getPair (Harmony.dht stringHash) v)
      (getPair Dht.table v) := by
    refine (Harmony.rel_get hv).bind_eq fun raw => ?_
    cases v.setValue raw with
    | none => exact .throw _
    | some w => exact .pure rfl
  intro service table H
  rw [preRead, preRead]
  cases hs : getPair (Harmony.dht stringHash) v service with
  | ok w service' =>
    obtain ⟨_, table', ht, rfl, H'⟩ := hpair.ok H hs
    rw [ht]
    exact ⟨rfl, H'⟩
  | error e service' =>
    obtain ⟨table', ht, H'⟩ := hpair.error H hs
    rw [ht]
    cases e with
    | raised e => cases e <;> exact ⟨rfl, H'⟩
    | _ => exact ⟨rfl, H'⟩

theorem matches_table (hK : K.InjOn (Harmony.hash stringHash)) :
    Cache.Matches (Filed stringHash K) K (policy (Harmony.dht stringHash)) (policy Dht.table) where
  preRead _ hv := rel_preRead hv
  onErase _ hv := (Harmony.rel_put hK hv).bind_eq fun _ => .pure rfl
  onFlush _ hv := (Harmony.rel_put hK hv).bind_eq fun _ => .pure rfl

end MetadataOnFlush

/-! ## A client -/

/-- The paths that the kernel looks up before it calls. -/
def Act.lookedUp : Act → List Str
  | .create path .. | .mkdir path .. | .symlink _ path _ => [path, Paths.parentPath path]
  | .rename old new => [old, Paths.parentPath new]
  | .chmod path _ | .chown path .. | .getattr path _ | .read path .. | .readdir path
  | .readlink path .. | .rmdir path | .truncate path _ | .unlink path _ | .utime path ..
  | .write path .. => [path]
  | .dhtTask _ => []

namespace Fs

section

variable {σ α β : Type} [BinaryArchive Instruction] {stringHash : Str → Nat} {U : Set Str}
  {c c' : Fs Harmony.Service σ} {t : Fs (Str → Option Str) σ}

/-- A client of harmony and one of the table, which have the same for the paths in `U`. -/
structure Tabled (stringHash : Str → Nat) (U : Set Str) (c : Fs Harmony.Service σ)
    (t : Fs (Str → Option Str) σ) : Prop where
  metadata : Cache.Beside (Harmony.Filed stringHash (slot '' U)) (c.metadataSink, c.dht)
    (t.metadataSink, t.dht)
  data : t.data = c.data

theorem rel_onMetadata_tabled {S : α → β → Prop} {x : CacheM Str AttributeValue Harmony.Service α}
    {y : CacheM Str AttributeValue (Str → Option Str) β}
    (h : Rel (Cache.Beside (Harmony.Filed stringHash (slot '' U))) S x y) :
    Rel (Tabled stringHash U) S (onMetadata x : FuseM Harmony.Service σ α) (onMetadata y) :=
  h.zoom (fun _ _ H => H.metadata) fun _ _ _ _ H H' => ⟨H', H.data⟩

theorem rel_onData_tabled (x : DataM σ α) :
    Rel (Tabled stringHash U) Eq (onData x : FuseM Harmony.Service σ α) (onData x) := by
  have hx : Rel Eq Eq x x := by
    rintro s _ rfl
    cases x s <;> exact ⟨rfl, rfl⟩
  refine hx.zoom (fun _ _ H => H.data.symm) ?_
  rintro c t d _ H rfl
  exact ⟨H.metadata, rfl⟩

theorem rel_modifyMapped_tabled (p : Ptr) (f : Fattribute → Fattribute) :
    Rel (Tabled stringHash U) Eq (modifyMapped p f : FuseM Harmony.Service σ Unit)
      (modifyMapped p f) := by
  rintro ⟨m, d, service, e⟩ ⟨_, _, table, _⟩ ⟨⟨hm, wf, hdht⟩, hdata⟩
  cases hm
  cases hdata
  cases hv : m.impl.heap p with
  | none =>
    have hc : modifyMapped p f (⟨m, d, service, e⟩ : Fs Harmony.Service σ) = .error .undefined _ :=
      Exec.bind_of_error (onMetadata_error (Cache.deref_dangling hv))
    have ht : modifyMapped p f (⟨m, d, table, e⟩ : Fs (Str → Option Str) σ) = .error .undefined _ :=
      Exec.bind_of_error (onMetadata_error (Cache.deref_dangling hv))
    rw [hc, ht]
    exact ⟨rfl, ⟨rfl, wf, hdht⟩, rfl⟩
  | some v =>
    have hc : modifyMapped p f (⟨m, d, service, e⟩ : Fs Harmony.Service σ) = _ :=
      Exec.bind_of_ok (onMetadata_ok (Cache.deref_ok hv))
    have ht : modifyMapped p f (⟨m, d, table, e⟩ : Fs (Str → Option Str) σ) = _ :=
      Exec.bind_of_ok (onMetadata_ok (Cache.deref_ok hv))
    rw [hc, ht]
    exact ⟨rfl, ⟨rfl, BasicCache.WF.assign wf hv rfl, hdht⟩, rfl⟩

end

variable {σ : Type} [BinaryArchive Instruction] [BinaryArchive Fattribute.Record]
  {stringHash : Str → Nat} {U : Set Str} {P : Policy ChunkData σ} {process : Process}
  {c c' : Fs Harmony.Service σ} {t : Fs (Str → Option Str) σ} {path : Str} {act : Act}
  {reply : Reply}

theorem onAttributes_tabled (hU : (slot '' U).InjOn (Harmony.hash stringHash)) :
    OnAttributes (σ := σ) (Harmony.dht stringHash) Dht.table U (Tabled stringHash U) where
  metadataAt _ := rel_onMetadata_tabled (Cache.rel_subscript_beside _)
  getMapped p := Rel.bind_eq (rel_onMetadata_tabled (Cache.rel_deref_beside p)) fun _ => .pure rfl
  modifyMapped := rel_modifyMapped_tabled
  spare p _ _ := rel_modifyMapped_tabled p _
  metadataOf _ hp := rel_onMetadata_tabled (Cache.rel_call_beside
    (MetadataOnFlush.matches_table hU) (MetadataOnFlush.policy_keepsKey _) (Set.mem_image_of_mem _ hp))
  purgeMetadata _ hp := rel_onMetadata_tabled (Cache.rel_purge_beside
    (MetadataOnFlush.matches_table hU) (Set.mem_image_of_mem _ hp))

omit [BinaryArchive Fattribute.Record] in
theorem onChunks_tabled (P : Policy ChunkData σ) : OnChunks P (Tabled stringHash U) where
  write _ _ _ _ := rel_onData_tabled _
  read _ _ _ _ := (rel_onData_tabled _).any
  truncate _ _ _ := rel_onData_tabled _
  invalidate _ := rel_onData_tabled _
  purge _ := rel_onData_tabled _

theorem onFlushes_tabled (hU : (slot '' U).InjOn (Harmony.hash stringHash)) :
    OnFlushes (σ := σ) (Harmony.dht stringHash) Dht.table U (Tabled stringHash U) := fun _ hp =>
  rel_onMetadata_tabled (Cache.rel_invalidate_beside (MetadataOnFlush.matches_table hU)
    (Set.mem_image_of_mem _ hp))

namespace Tabled

omit [BinaryArchive Fattribute.Record] in
theorem cached_eq (H : Tabled stringHash U c t) : c.cached = t.cached := by
  have hm : t.metadataSink = c.metadataSink := H.metadata.cache
  funext path
  rw [cached, cached, hm]

theorem attr?_eq (H : Tabled stringHash U c t) (hp : path ∈ U) :
    attr? (Harmony.dht stringHash) c path = attr? Dht.table t path := by
  have hm : t.metadataSink = c.metadataSink := H.metadata.cache
  rw [attr?, attr?, cached, cached, hm]
  cases (c.metadataSink.impl.get? (slot path)).map (·.mapped) with
  | some a => rfl
  | none =>
    have hpre : Rel (Harmony.Filed stringHash (slot '' U)) Eq
        (MetadataOnFlush.preRead (Harmony.dht stringHash) (AttributeValue.newPointer path))
        (MetadataOnFlush.preRead Dht.table (AttributeValue.newPointer path)) :=
      MetadataOnFlush.rel_preRead (Set.mem_image_of_mem slot hp)
    cases hv : MetadataOnFlush.preRead (Harmony.dht stringHash) (AttributeValue.newPointer path)
      c.dht with
    | ok v service =>
      obtain ⟨_, table, hv', rfl, _⟩ := hpre.ok H.metadata.env hv
      simp only [hv']
    | error e service =>
      obtain ⟨table, hv', _⟩ := hpre.error H.metadata.env hv
      simp only [hv']

theorem has_iff (H : Tabled stringHash U c t) (hp : path ∈ U) (p : Fattribute → Prop) :
    Has (Harmony.dht stringHash) c path p ↔ Has Dht.table t path p := by
  rw [Has, Has, H.attr?_eq hp]

/-- The kernel sees the same of the paths that it looks up. -/
theorem issued_iff (H : Tabled stringHash U c t) (hU : ∀ q ∈ act.lookedUp, q ∈ U) :
    Issued (Harmony.dht stringHash) c act ↔ Issued Dht.table t act := by
  have hhas {q : Str} (hq : q ∈ act.lookedUp) := H.has_iff (hU q hq)
  have hattr {q : Str} (hq : q ∈ act.lookedUp) := H.attr?_eq (hU q hq)
  cases act <;> simp [Act.lookedUp] at hhas hattr <;> simp [Issued, New, hhas, hattr]

omit [BinaryArchive Fattribute.Record] in
/-- A callback that returns does so in the other client too, with the same answer. -/
theorem rel_replied {α β : Type} {S : α → β → Prop} {x : FuseM Harmony.Service σ α}
    {y : FuseM (Str → Option Str) σ β} {f : α → Reply} {g : β → Reply}
    (h : Rel (Tabled stringHash U) S x y) (hf : ∀ r r', S r r' → f r = g r')
    (H : Tabled stringHash U c t) (hx : replied f x c = some (reply, c')) :
    ∃ t', replied g y t = some (reply, t') ∧ Tabled stringHash U c' t' := by
  obtain ⟨r, hr, rfl⟩ := replied_eq_some.mp hx
  obtain ⟨r', t', ht, hS, H'⟩ := h.ok H hr
  exact ⟨t', replied_eq_some.mpr ⟨r', ht, (hf r r' hS).symm⟩, H'⟩

theorem call (hU : (slot '' U).InjOn (Harmony.hash stringHash)) (hasked : ∀ q ∈ act.asked, q ∈ U)
    (H : Tabled stringHash U c t)
    (h : Fs.call (Harmony.dht stringHash) P process c act = some (reply, c')) :
    ∃ t', Fs.call Dht.table P process t act = some (reply, t') ∧ Tabled stringHash U c' t' := by
  have A := onAttributes_tabled (σ := σ) hU
  have C : OnChunks P (Tabled stringHash U) := onChunks_tabled P
  have hreply {α : Type} {x : FuseM Harmony.Service σ α} {y : FuseM (Str → Option Str) σ α}
      {f : α → Reply} (hxy : Rel (Tabled stringHash U) Eq x y)
      (hx : replied f x c = some (reply, c')) :=
    rel_replied (g := f) hxy (fun _ _ he => congrArg f he) H hx
  cases act with
  | chmod path mode => exact hreply A.chmod h
  | chown path uid gid => exact hreply A.chown h
  | create path mode now => exact hreply (C.create A.toSparingSizes) h
  | getattr path stat => exact hreply (A.getattr (hasked path List.mem_cons_self)) h
  | mkdir path mode now => exact hreply A.mkdir h
  | read path buffer size offset =>
    exact rel_replied (C.rel_read A.toSparingSizes (hasked path List.mem_cons_self))
      (fun _ _ he => congrArg Reply.code he) H h
  | readdir path => exact hreply (A.readdir (hasked path List.mem_cons_self)) h
  | readlink path buffer size => exact hreply (A.readlink (hasked path List.mem_cons_self)) h
  | rename old new => exact hreply (A.rename (hasked old List.mem_cons_self)) h
  | rmdir path => exact hreply (A.rmdir (hasked path List.mem_cons_self)) h
  | symlink target path now => exact hreply A.symlink h
  | truncate path length => exact hreply (C.rel_truncate A) h
  | unlink path freed => exact hreply (A.unlink (hasked path List.mem_cons_self)) h
  | utime path actime modtime => exact hreply A.utime h
  | write path buffer size offset => exact hreply (A.write (C.write _ _ _ _)) h
  | dhtTask path =>
    exact hreply (C.dhtTask (onFlushes_tabled hU) (hasked path List.mem_cons_self)) h

omit [BinaryArchive Fattribute.Record] in
/-- Nothing has been put into either service. -/
theorem init (now : Timespec) (e : σ) :
    Tabled stringHash U (start now ∅ e) (start now (fun _ => none) e) := by
  obtain ⟨H, hdht, _⟩ := start_spec now (∅ : Harmony.Service) e
  obtain ⟨_, hdht', _⟩ := start_spec now (fun _ => none : Str → Option Str) e
  refine ⟨⟨rfl, H, ?_⟩, (start_data now _ e).trans (start_data now _ e).symm⟩
  rw [hdht, hdht']
  intro key _
  rfl

end Tabled

/-- The kernel issues the callback, and looks up paths in `U` only. -/
def IssuedIn (U : Set Str) (dht : Dht Harmony.Service) (c : Fs Harmony.Service σ) (act : Act) :
    Prop :=
  Issued dht c act ∧ ∀ q ∈ act.lookedUp ++ act.asked, q ∈ U

/-- A run over harmony is one over the table, with the same answers, if no two of the paths in it
share the bits of their hash. -/
theorem trace_table (hU : (slot '' U).InjOn (Harmony.hash stringHash)) {now : Timespec} {e : σ}
    {l : List (Act × Reply)} (h : Trace (call (Harmony.dht stringHash) P process)
      (IssuedIn U (Harmony.dht stringHash)) (start now ∅ e) l c) :
    ∃ t, Trace (call Dht.table P process) (Issued Dht.table) (start now (fun _ => none) e) l t ∧
      Tabled stringHash U c t := by
  induction h with
  | nil => exact ⟨_, .nil, .init now e⟩
  | @snoc l c act reply c' _ hok hcall ih =>
    obtain ⟨t, ht, H⟩ := ih
    obtain ⟨hlook, hasked⟩ := List.forall_mem_append.mp hok.2
    obtain ⟨t', hcall', H'⟩ := H.call hU hasked hcall
    exact ⟨t', ht.snoc ((H.issued_iff hlook).mp hok.1) hcall', H'⟩

/-- What is reached over harmony is reached over the table, but for the DHT. -/
theorem reach_table (hU : (slot '' U).InjOn (Harmony.hash stringHash)) {now : Timespec} {e : σ}
    (h : Reach (step (Harmony.dht stringHash) P process) (IssuedIn U (Harmony.dht stringHash))
      (start now ∅ e) c) :
    ∃ t, Reach (step Dht.table P process) (Issued Dht.table) (start now (fun _ => none) e) t ∧
      Tabled stringHash U c t := by
  have hstep : (fun c act => (call (Harmony.dht stringHash) P process c act).map (·.2)) =
      step (Harmony.dht stringHash) P process := funext fun _ => funext map_call
  have hstep' : (fun t act => (call Dht.table P process t act).map (·.2)) =
      step Dht.table P process := funext fun _ => funext map_call
  obtain ⟨l, hl⟩ := Trace.of_reach (hstep ▸ h)
  obtain ⟨t, ht, H⟩ := trace_table hU hl
  exact ⟨t, hstep' ▸ ht.reach, H⟩

/-- So a client of harmony refines the map of attributes, too. -/
theorem trace_attributes_harmony (hU : (slot '' U).InjOn (Harmony.hash stringHash))
    {now : Timespec} {net : Net} {l : List (Act × Reply)} {c : Fs Harmony.Service Net}
    (h : Trace (call (Harmony.dht stringHash) DataOnFlush.policy process)
      (IssuedIn U (Harmony.dht stringHash)) (start now ∅ net) l c) :
    Trace (Attributes.call process) always (Attributes.init now) (seen visible l) c.cached := by
  obtain ⟨t, ht, H⟩ := trace_table hU h
  rw [H.cached_eq]
  exact (trace_attributes ht).1

end Fs

end ColonyFS

import ColonyFS.Fuse.DataCalls
import ColonyFS.Fuse.Lookup

/-!
# The end of a file

`endOf` is the `st_size` that a look-up yields, from the cache or the DHT. Only `write`, `truncate`
and `rename` move it forward, and `grownTo` is how far.
-/

namespace ColonyFS

open Exec (Rel Keeps)
open Function

namespace Fs

section

variable {σ : Type} [BinaryArchive Instruction] [BinaryArchive Fattribute.Record]
  {c c' : Fs (Str → Option Str) σ} {path q : Str} {p : Ptr} {a b : Fattribute} {E : Nat}
  {f : Fattribute → Fattribute}

/-- `st_size` as `read` sees it. -/
def endOf (c : Fs (Str → Option Str) σ) (path : Str) : Nat :=
  ((attr? Dht.table c path).map fun a => toSizeT a.stbuf.size).getD 0

/-- Where an act may move the end of `path` to. -/
def grownTo (c : Fs (Str → Option Str) σ) (path : Str) : Act → Nat
  | .write q _ size offset =>
    if q = path ∧ ((c.cached path).getD .new).stbuf.size < toInt (offset + size) then
      toSizeT (toInt (offset + size)) else 0
  | .truncate q length => if q = path ∧ 0 ≤ length then toSizeT length else 0
  | .rename old new => if new = path then c.endOf old else 0
  | _ => 0

/-- No look-up of `path` finds it to end behind `E`. -/
structure EndsBy (path : Str) (E : Nat) (c : Fs (Str → Option Str) σ) : Prop where
  wf : c.WF
  le : ∀ a, attr? Dht.table c path = some a → toSizeT a.stbuf.size ≤ E

theorem endsBy_endOf (H : c.WF) (path : Str) : EndsBy path (c.endOf path) c where
  wf := H
  le a ha := by rw [endOf, ha]; rfl

theorem EndsBy.endOf_le (H : EndsBy path E c) : c.endOf path ≤ E := by
  rw [endOf]
  cases ha : attr? Dht.table c path with
  | none => exact Nat.zero_le _
  | some a => exact H.le a ha

theorem EndsBy.mono {E' : Nat} (H : EndsBy path E c) (hE : E ≤ E') : EndsBy path E' c :=
  ⟨H.wf, fun a ha => Nat.le_trans (H.le a ha) hE⟩

/-- What a look-up yields depends on the entry and on the value in the DHT. -/
theorem attr?_table : attr? Dht.table c path = (c.cached path).or
    ((c.dht (slot path)).bind fun raw =>
      ((AttributeValue.newPointer path).setValue raw).map (·.mapped)) := by
  rw [attr?]
  cases hc : c.cached path with
  | some a => rfl
  | none =>
    have hslot : slot path = (AttributeValue.newPointer path).getKey := rfl
    simp only [MetadataOnFlush.preRead, MetadataOnFlush.getPair, bind, EStateM.bind, Dht.table]
    rw [hslot]
    cases hd : c.dht (AttributeValue.newPointer path).getKey with
    | none => rfl
    | some raw =>
      cases hv : (AttributeValue.newPointer path).setValue raw with
      | none => simp [hv]; rfl
      | some v => simp [hv]; rfl

/-- The entry is as before, or new and within the bound. -/
theorem EndsBy.of_cached (H : EndsBy path E c) (wf : c'.WF)
    (hc : c'.cached path = c.cached path ∧ c'.dht (slot path) = c.dht (slot path) ∨
      ∃ a, c'.cached path = some a ∧ toSizeT a.stbuf.size ≤ E) : EndsBy path E c' := by
  refine ⟨wf, ?_⟩
  intro a ha
  rw [attr?_table] at ha
  obtain ⟨hc, hd⟩ | ⟨b, hb, hle⟩ := hc
  · rw [hc, hd, ← attr?_table] at ha
    exact H.le a ha
  · rw [hb] at ha
    cases ha
    exact hle

theorem EndsBy.cached_le (H : EndsBy path E c) (ha : c.cached path = some a) :
    toSizeT a.stbuf.size ≤ E :=
  H.le a (by rw [attr?_table, ha]; rfl)

/-- An entry that is made anew has no size. -/
theorem EndsBy.getD_le (H : EndsBy path E c) :
    toSizeT ((c.cached path).getD .new).stbuf.size ≤ E := by
  cases hc : c.cached path with
  | none => exact Nat.zero_le _
  | some a => exact H.cached_le hc

theorem EndsBy.of_becomes (H : EndsBy path E c) (h : Becomes c (update c.cached q (some b)) c')
    (hb : q = path → toSizeT b.stbuf.size ≤ E) : EndsBy path E c' := by
  refine H.of_cached h.wf ?_
  obtain rfl | hq := eq_or_ne path q
  · exact .inr ⟨b, by rw [h.cached, update_self], hb rfl⟩
  · exact .inl ⟨by rw [h.cached, update_of_ne hq], by rw [h.dht_eq]⟩

/-! ## The statements -/

theorem keeps_metadataAt : Keeps (EndsBy path E) (metadataAt q : FuseM (Str → Option Str) σ Ptr) := by
  rw [Exec.keeps_iff]
  intro c H
  obtain ⟨p, c', h, _, _, H'⟩ := metadataAt_spec H.wf q
  rw [h]
  refine H.of_becomes H' ?_
  rintro rfl
  exact H.getD_le

theorem keeps_deref : Keeps (EndsBy path E)
    (onMetadata (Cache.deref p) : FuseM (Str → Option Str) σ AttributeValue) := by
  rw [Exec.keeps_iff]
  intro c H
  cases hv : c.metadataSink.impl.heap p with
  | none => rw [onMetadata_error (Cache.deref_dangling hv)]; exact H
  | some v => rw [onMetadata_ok (Cache.deref_ok hv)]; exact H

theorem keeps_getMapped :
    Keeps (EndsBy path E) (getMapped p : FuseM (Str → Option Str) σ Fattribute) :=
  Rel.bind_eq keeps_deref fun _ => .pure rfl

theorem keeps_modifyMapped (hf : Fattribute.SparesSize f) :
    Keeps (EndsBy path E) (modifyMapped p f : FuseM (Str → Option Str) σ Unit) := by
  rw [Exec.keeps_iff]
  intro c H
  cases hv : c.metadataSink.impl.heap p with
  | none =>
    have h : onMetadata (Cache.deref p) c = _ := onMetadata_error (Cache.deref_dangling hv)
    rw [modifyMapped, Exec.bind_of_error h]
    exact H
  | some v =>
    have h : onMetadata (Cache.deref p) c = _ := onMetadata_ok (Cache.deref_ok hv)
    rw [modifyMapped, Exec.bind_of_ok h]
    let w : AttributeValue := { v with mapped := f v.mapped }
    refine H.of_cached (BasicCache.WF.assign (v := w) H.wf hv rfl) ?_
    by_cases hp : c.Pair path p
    · have ha : c.cached path = some v.mapped := by
        obtain ⟨u, hu, hget, _⟩ := BasicCache.WF.get?_of_read H.wf hp
        cases hv.symm.trans hu
        rw [cached, hget, Option.map_some]
      refine .inr ⟨f v.mapped, ?_, ?_⟩
      · have hget : (c.metadataSink.impl.assign p w).get? (slot path) = some w :=
          (BasicCache.WF.get?_assign H.wf hp).trans (if_pos rfl)
        exact congrArg (Option.map fun v : AttributeValue => v.mapped) hget
      · obtain hs | hs := hf v.mapped <;> rw [hs]
        · exact H.cached_le ha
        · exact Nat.zero_le _
    · have hget := BasicCache.get?_assign_of_ne (v := w) (k := slot path) hp
      exact .inl ⟨congrArg (Option.map fun v : AttributeValue => v.mapped) hget, rfl⟩

theorem keeps_metadataOf :
    Keeps (EndsBy path E) (metadataOf Dht.table q : FuseM (Str → Option Str) σ Ptr) := by
  rw [Exec.keeps_iff]
  intro c H
  obtain ⟨e, h⟩ | ⟨p, c', a, h, ha, wf, _, hc, hd⟩ := metadataOf_cases H.wf readOnly_table q
  · rw [h]
    exact H
  · rw [h, Exec.final_ok]
    refine H.of_cached wf ?_
    obtain rfl | hq := eq_or_ne path q
    · exact .inr ⟨a, by rw [hc, update_self], H.le a ha⟩
    · exact .inl ⟨by rw [hc, update_of_ne hq], by rw [hd]⟩

theorem purgeMetadata_table (H : c.WF) (q : Str) : ∃ c', purgeMetadata Dht.table q c = .ok () c' ∧
    c'.WF ∧ c'.cached = update c.cached q none ∧ c'.dht = update c.dht (slot q) (some []) := by
  have hput : Dht.table.put (slot q) [] c.dht = .ok true (update c.dht (slot q) (some [])) := rfl
  obtain ⟨c', h, wf, hc, heq, _⟩ := purgeMetadata_spec H hput
  exact ⟨c', h, wf, hc, by rw [heq]⟩

/-- No look-up finds the path. -/
theorem endsBy_of_purge (H : c.WF) (h : purgeMetadata Dht.table path c = .ok () c') :
    EndsBy path 0 c' := by
  obtain ⟨c₁, h₁, wf, hc, hd⟩ := purgeMetadata_table H path
  cases h₁.symm.trans h
  refine ⟨wf, ?_⟩
  intro a ha
  rw [attr?_table, hc, hd, update_self, update_self, Option.bind_some,
    AttributeValue.setValue_nil] at ha
  cases ha

theorem keeps_purgeMetadata :
    Keeps (EndsBy path E) (purgeMetadata Dht.table q : FuseM (Str → Option Str) σ Unit) := by
  rw [Exec.keeps_iff]
  intro c H
  obtain ⟨c', h, wf, hc, hd⟩ := purgeMetadata_table H.wf q
  rw [h, Exec.final_ok]
  obtain rfl | hq := eq_or_ne path q
  · exact (endsBy_of_purge H.wf h).mono (Nat.zero_le E)
  · exact H.of_cached wf
      (.inl ⟨by rw [hc, update_of_ne hq], by rw [hd, update_of_ne fun h => hq (slot_inj.mp h)]⟩)

/-- A flush puts the attribute of an entry, which stays. -/
theorem keeps_flush : Keeps (EndsBy path E)
    (onMetadata (Cache.invalidate (MetadataOnFlush.policy Dht.table) q) :
      FuseM (Str → Option Str) σ Unit) := by
  rw [Exec.keeps_iff]
  intro c H
  by_cases hd : c.metadataSink.impl.IsDirty (slot q)
  · obtain ⟨p, hp⟩ := BasicCache.WF.read_of_isDirty H.wf hd
    obtain ⟨v, hv, hget, hk⟩ := BasicCache.WF.get?_of_read H.wf hp
    have hf : (MetadataOnFlush.policy Dht.table).onFlush v c.dht =
        .ok () (update c.dht v.getKey (some v.getValue)) := rfl
    rw [onMetadata_ok (Cache.invalidate_dirty hd hp hv hf)]
    refine H.of_cached (BasicCache.WF.clearDirty H.wf) ?_
    obtain rfl | hq := eq_or_ne path q
    · have ha : c.cached path = some v.mapped := by rw [cached, hget, Option.map_some]
      exact .inr ⟨v.mapped, ha, H.cached_le ha⟩
    · have hne : slot path ≠ v.getKey := by
        intro h
        exact hq (slot_inj.mp (h.trans hk))
      exact .inl ⟨rfl, update_of_ne hne ..⟩
  · rw [onMetadata_ok (Cache.invalidate_clean hd)]
    exact H

theorem sparing_endsBy : SparingSizes Dht.table Dht.table Set.univ
    fun c c' : Fs (Str → Option Str) σ => c = c' ∧ EndsBy path E c where
  metadataAt _ := keeps_metadataAt
  getMapped _ := keeps_getMapped
  spare _ _ hf := keeps_modifyMapped hf
  metadataOf _ _ := keeps_metadataOf
  purgeMetadata _ _ := keeps_purgeMetadata

/-- The chunks have no part in it. -/
theorem keeps_onData {α : Type} (x : DataM σ α) :
    Keeps (EndsBy path E) (onData x : FuseM (Str → Option Str) σ α) :=
  Exec.keeps_zoom fun _ _ H => ⟨H.wf, H.le⟩

theorem onChunks_endsBy (P : Policy ChunkData σ) :
    OnChunks P fun c c' : Fs (Str → Option Str) σ => c = c' ∧ EndsBy path E c where
  write _ _ _ _ := keeps_onData _
  read _ _ _ _ := Rel.any (keeps_onData _)
  truncate _ _ _ := keeps_onData _
  invalidate _ := keeps_onData _
  purge _ := keeps_onData _

end

/-! ## The callbacks -/

variable [BinaryArchive Instruction] [BinaryArchive Fattribute.Record] {process : Process}
  {c c' : Fs (Str → Option Str) Net} {path q old new : Str} {act : Act} {E : Nat} {r : Int}

/-- After an `unlink` that returns 0. -/
theorem endsBy_of_unlink {freed : Int} (H : c.WF)
    (h : unlink Dht.table process path freed c = .ok 0 c') : EndsBy path 0 c' := by
  rw [unlink] at h
  split at h
  · cases h
  obtain ⟨p, c₁, h₁, h⟩ := Exec.bind_eq_ok.mp h
  obtain ⟨a, c₂, h₂, h⟩ := Exec.bind_eq_ok.mp h
  split at h
  · cases h
  obtain ⟨_, c₃, h₃, h⟩ := Exec.bind_eq_ok.mp h
  obtain ⟨_, c₄, h₄, h⟩ := Exec.bind_eq_ok.mp h
  obtain ⟨_, c₅, h₅, h⟩ := Exec.bind_eq_ok.mp h
  cases h
  obtain ⟨d, e, rfl⟩ := onData_cases h₅
  have H₂ := keeps_getMapped.ok (keeps_metadataAt.ok (endsBy_endOf H path) h₁) h₂
  have H₄ := endsBy_of_purge (Keeps.ok (sparing_endsBy.edit _) H₂ h₃).wf h₄
  exact ⟨H₄.wf, H₄.le⟩

theorem EndsBy.write {buffer : List Byte} {size offset : Nat} (H : EndsBy path E c)
    (h : write q buffer size offset c = .ok r c') :
    EndsBy path (max E (c.grownTo path (.write q buffer size offset))) c' := by
  obtain ⟨_, c₁, h₁, h⟩ := Exec.bind_eq_ok.mp h
  obtain ⟨d, e, rfl⟩ := onData_cases h₁
  obtain ⟨c₂, h₂, H₂⟩ := edit_spec (c := { c with dataSink := d, chunkservers := e }) H.wf q
    fun a => if a.stbuf.size < toInt (offset + size) then
      { a with stbuf := { a.stbuf with size := toInt (offset + size) } } else a
  cases (Exec.bind_of_ok h₂).symm.trans h
  have H₁ : EndsBy path (max E (c.grownTo path (.write q buffer size offset)))
      ({ c with dataSink := d, chunkservers := e } : Fs (Str → Option Str) Net) :=
    ⟨H.wf, fun a ha => le_max_of_le_left (H.le a ha)⟩
  refine H₁.of_becomes H₂ ?_
  rintro rfl
  split
  · next hlt =>
    refine le_max_of_le_right ?_
    rw [grownTo, if_pos ⟨rfl, hlt⟩]
  · exact le_max_of_le_left H.getD_le

theorem EndsBy.truncate {length : Int} (H : EndsBy path E c)
    (h : truncate DataOnFlush.policy q length c = .ok r c') :
    EndsBy path (max E (c.grownTo path (.truncate q length))) c' := by
  obtain ⟨_, _, rfl⟩ | ⟨hlen, _, h⟩ := truncate_eq DataOnFlush.policy_noLookupE h
  · exact H.mono (Nat.le_max_left ..)
  obtain ⟨p, c₁, h₁, hp, ha, H₁⟩ := metadataAt_spec H.wf q
  rw [Exec.bind_of_ok h₁, Exec.bind_of_ok (getMapped_ok hp ha)] at h
  obtain ⟨_, c₂, h₂, h⟩ := Exec.bind_eq_ok.mp h
  obtain ⟨d, e, rfl⟩ := onData_cases h₂
  obtain ⟨c₃, h₃, H₃⟩ := modifyMapped_spec (c := { c₁ with dataSink := d, chunkservers := e }) H₁.wf
    hp ha fun a => { a with stbuf := { a.stbuf with size := length } }
  cases h₃.symm.trans h
  have H₂ : EndsBy path E c₁ := keeps_metadataAt.ok H h₁
  have H₂ : EndsBy path (max E (c.grownTo path (.truncate q length)))
      ({ c₁ with dataSink := d, chunkservers := e } : Fs (Str → Option Str) Net) :=
    ⟨H₂.wf, fun a ha => le_max_of_le_left (H₂.le a ha)⟩
  refine H₂.of_becomes H₃ ?_
  rintro rfl
  refine le_max_of_le_right ?_
  rw [grownTo, if_pos ⟨rfl, Int.not_lt.mp hlen⟩]

/-- `rename` assigns the attribute that a look-up of the old path yields. -/
theorem EndsBy.rename (H : EndsBy path E c) (h : rename Dht.table old new c = .ok r c') :
    EndsBy path (max E (c.grownTo path (.rename old new))) c' := by
  obtain ⟨_, c₁, h₁, h⟩ := Exec.bind_eq_ok.mp h
  obtain ⟨b, c₂, h₂, h⟩ := Exec.bind_eq_ok.mp h
  obtain ⟨_, c₃, h₃, h⟩ := Exec.bind_eq_ok.mp h
  obtain ⟨_, c₄, h₄, h⟩ := Exec.bind_eq_ok.mp h
  obtain ⟨_, c₅, h₅, h⟩ := Exec.bind_eq_ok.mp h
  obtain ⟨p, c₆, h₆, h⟩ := Exec.bind_eq_ok.mp h
  obtain ⟨s, c₇, h₇, h⟩ := Exec.bind_eq_ok.mp h
  obtain ⟨a, c₈, h₈, h⟩ := Exec.bind_eq_ok.mp h
  obtain ⟨_, c₉, h₉, h⟩ := Exec.bind_eq_ok.mp h
  obtain ⟨_, c₁₀, h₁₀, h⟩ := Exec.bind_eq_ok.mp h
  obtain ⟨_, c₁₁, h₁₁, h⟩ := Exec.bind_eq_ok.mp h
  obtain ⟨_, c₁₂, h₁₂, h⟩ := Exec.bind_eq_ok.mp h
  cases h
  obtain ⟨_, rfl⟩ := Exec.require_eq_ok h₃
  cases getMapped_state h₁₁
  have hlists : ∀ {q : Str} {E : Nat}, EndsBy q E c → EndsBy q E c₅ := by
    intro q E H
    have H₂ := keeps_getMapped.ok (keeps_metadataAt.ok H h₁) h₂
    have H₄ := Keeps.ok (sparing_endsBy.modify _) H₂ h₄
    exact Keeps.ok (sparing_endsBy.edit _) H₄ h₅
  have hold : EndsBy old (c.endOf old) c₅ := hlists (endsBy_endOf H.wf old)
  obtain ⟨e, h₆'⟩ | ⟨_, _, b, h₆', hb, wf, hp, hc, _⟩ := metadataOf_cases hold.wf readOnly_table old
  · cases h₆'.symm.trans h₆
  cases h₆'.symm.trans h₆
  obtain ⟨_, _, h₇', hs, hnew, H₇⟩ := metadataAt_spec wf new
  cases h₇'.symm.trans h₇
  -- The entry of the old path is still the one that the look-up has found.
  have hb₇ : c₇.cached old = some b := by
    rw [H₇.cached, hc]
    obtain rfl | hne := eq_or_ne old new
    · rw [update_self, update_self, Option.getD_some]
    · rw [update_of_ne hne, update_self]
  cases (getMapped_ok (H₇.pair hp) hb₇).symm.trans h₈
  obtain ⟨_, h₉', H₉⟩ := modifyMapped_spec H₇.wf hs hnew fun _ => a
  cases h₉'.symm.trans h₉
  have H₇' : EndsBy path (max E (c.grownTo path (.rename old new))) c₇ :=
    (keeps_metadataAt.ok (keeps_metadataOf.ok (hlists H) h₆) h₇).mono (Nat.le_max_left ..)
  have H₉' := H₇'.of_becomes H₉ fun hn => by
    refine le_max_of_le_right ?_
    rw [grownTo, if_pos hn]
    exact hold.le a hb
  obtain ⟨d, e, rfl⟩ := onData_cases h₁₂
  have H₁₀ := keeps_purgeMetadata.ok H₉' h₁₀
  exact ⟨H₁₀.wf, H₁₀.le⟩

theorem EndsBy.step (H : EndsBy path E c)
    (h : step Dht.table DataOnFlush.policy process c act = some c') :
    EndsBy path (max E (c.grownTo path act)) c' := by
  by_cases hact : act.SparesSizes
  · obtain ⟨_, _, rfl, H'⟩ := (onChunks_endsBy DataOnFlush.policy).step sparing_endsBy
      (fun _ _ => keeps_flush) hact (fun _ _ => trivial) ⟨rfl, H⟩ h
    exact H'.mono (Nat.le_max_left ..)
  · cases act with
    | write q buffer size offset =>
      obtain ⟨r, hr⟩ := after_eq_some.mp h
      exact H.write hr
    | truncate q length =>
      obtain ⟨r, hr⟩ := after_eq_some.mp h
      exact H.truncate hr
    | rename old new =>
      obtain ⟨r, hr⟩ := after_eq_some.mp h
      exact H.rename hr
    | _ => exact (hact trivial).elim

end Fs

end ColonyFS

import ColonyFS.Cache.DataOnFlush
import ColonyFS.Fuse.TwoRuns

/-!
# What the callbacks do to the chunks

The chunk store and the chunk servers see a callback through the calls of `data_sink_` in it.
-/

namespace ColonyFS

open Exec (Rel Keeps)

namespace Fs

variable {δ σ α : Type}
  {dht : Dht δ} {P : Policy ChunkData σ} {c c' : Fs δ σ} {path : Str} {p : Ptr} {a : α}

/-- The chunk store, with what its policy acts on. -/
def data (c : Fs δ σ) : DataSink × σ := (c.dataSink, c.chunkservers)

theorem onData_data {x : DataM σ α} (h : onData x c = .ok a c') : x c.data = .ok a c'.data := by
  obtain ⟨s, hs, rfl⟩ := Exec.zoom_eq_ok h
  exact hs

theorem keeps_onMetadata_data (x : CacheM Str AttributeValue δ α) (d : DataSink × σ) :
    Keeps (fun c : Fs δ σ => c.data = d) (onMetadata x) := Exec.keeps_zoom fun _ _ h => h

theorem onMetadata_data {x : CacheM Str AttributeValue δ α} (h : onMetadata x c = .ok a c') :
    c'.data = c.data :=
  (keeps_onMetadata_data x _).ok rfl h

theorem getMapped_data {b : Fattribute} (h : getMapped p c = .ok b c') : c'.data = c.data := by
  rw [getMapped_state h]

theorem modifyMapped_data {f : Fattribute → Fattribute} (h : modifyMapped p f c = .ok () c') :
    c'.data = c.data := by
  obtain ⟨_, _, h₁, h⟩ := Exec.bind_eq_ok.mp h
  exact (onMetadata_data h).trans (onMetadata_data h₁)

variable [BinaryArchive Instruction]

theorem edit_data {f : Fattribute → Fattribute} (h : edit path f c = .ok () c') :
    c'.data = c.data := by
  obtain ⟨_, _, h₁, h⟩ := Exec.bind_eq_ok.mp h
  exact (modifyMapped_data h).trans (onMetadata_data h₁)

/-- The statements on the attributes leave the chunks alone. -/
theorem onAttributes_data [BinaryArchive Fattribute.Record] (dht : Dht δ) (d : DataSink × σ) :
    OnAttributes dht dht Set.univ fun c c' : Fs δ σ => c = c' ∧ c.data = d where
  metadataAt _ := keeps_onMetadata_data _ d
  getMapped _ := Rel.bind_eq (keeps_onMetadata_data _ d) fun _ => .pure rfl
  modifyMapped _ _ := Rel.bind_eq (keeps_onMetadata_data _ d) fun _ => keeps_onMetadata_data _ d
  spare _ _ _ := Rel.bind_eq (keeps_onMetadata_data _ d) fun _ => keeps_onMetadata_data _ d
  metadataOf _ _ := keeps_onMetadata_data _ d
  purgeMetadata _ _ := keeps_onMetadata_data _ d

theorem step_data [BinaryArchive Fattribute.Record] {process : Process} {act : Act}
    (hact : act.SparesData) (h : step dht P process c act = some c') : c'.data = c.data := by
  obtain ⟨_, _, _, hd⟩ := (onAttributes_data dht c.data).step hact (fun _ _ => trivial)
    ⟨rfl, rfl⟩ h
  exact hd

/-! ## The callbacks on the chunks -/

omit [BinaryArchive Instruction] in
theorem toSizeT_natCast {n : Nat} (h : n < 2 ^ 64) : toSizeT n = n := by
  unfold toSizeT
  omega

theorem create_data {process : Process} {mode : UInt32} {now : Timespec} {r : Int}
    (h : create process path mode now c = .ok r c') :
    (¬validatePath (Paths.filename path) ∧ c'.data = c.data) ∨
      (validatePath (Paths.filename path) ∧ DataSink.write path [] 0 0 c.data = .ok () c'.data) := by
  rw [create] at h
  split at h
  · next hv =>
    cases h
    exact .inl ⟨hv, rfl⟩
  next hv =>
  obtain ⟨_, c₁, h₁, h⟩ := Exec.bind_eq_ok.mp h
  obtain ⟨_, c₂, h₂, h⟩ := Exec.bind_eq_ok.mp h
  obtain ⟨_, c₃, h₃, h⟩ := Exec.bind_eq_ok.mp h
  cases h
  have hc : c₂.data = c.data := (edit_data h₂).trans (edit_data h₁)
  exact .inr ⟨not_not.mp hv, hc ▸ onData_data h₃⟩

theorem write_data {buffer : List Byte} {size offset : Nat} {r : Int}
    (h : write path buffer size offset c = .ok r c') :
    DataSink.write path buffer size offset c.data = .ok () c'.data := by
  obtain ⟨_, c₁, h₁, h⟩ := Exec.bind_eq_ok.mp h
  obtain ⟨_, c₂, h₂, h⟩ := Exec.bind_eq_ok.mp h
  cases h
  rw [edit_data h₂]
  exact onData_data h₁

theorem read_data [BinaryArchive Fattribute.Record] {buffer : List Byte} {size offset : Nat}
    {r : Int × List Byte}
    (h : read dht P path buffer size offset c = .ok r c') : c'.data = c.data ∨
      ∃ n, DataSink.read P path buffer n offset c.data = .ok r.2 c'.data := by
  obtain ⟨_, c₁, h₁, h⟩ := Exec.bind_eq_ok.mp h
  obtain ⟨_, c₂, h₂, h⟩ := Exec.bind_eq_ok.mp h
  have hc : c₂.data = c.data := (getMapped_data h₂).trans (onMetadata_data h₁)
  split at h
  · cases h
    exact .inl hc
  · obtain ⟨_, c₃, h₃, h⟩ := Exec.bind_eq_ok.mp h
    cases h
    exact .inr ⟨_, hc ▸ onData_data h₃⟩

theorem dhtTask_data [BinaryArchive Fattribute.Record] (h : dhtTask dht P path c = .ok () c') : ∃ s,
    DataSink.invalidate P path c.data = .ok () s ∧ DataSink.purge P path s = .ok () c'.data := by
  obtain ⟨_, c₁, h₁, h⟩ := Exec.bind_eq_ok.mp h
  obtain ⟨_, c₂, h₂, h₃⟩ := Exec.bind_eq_ok.mp h
  exact ⟨c₂.data, onMetadata_data h₁ ▸ onData_data h₂, onData_data h₃⟩

/-! ## `truncate` -/

omit [BinaryArchive Instruction] in
theorem sink_truncate_ne_lookupE (hP : P.NoLookupE) {n m : Nat} {s t : DataSink × σ} :
    DataSink.truncate P path n m s ≠ .error (.raised .lookupE) t := by
  intro h
  obtain h | ⟨p, s₁, _, h⟩ := Exec.bind_eq_error.mp h
  · obtain h | ⟨_, h⟩ := DataSink.raiseIfMissing_error h
    · cases h
    · exact hP _ _ _ h
  · obtain h | ⟨v, s₂, _, h⟩ := Exec.bind_eq_error.mp h
    · exact DataSink.deref_ne_raised h
    · cases h

/-- The `catch` clause of `truncate` is for an exception that the chunk store does not raise. -/
theorem truncate_eq (hP : P.NoLookupE) {length r : Int}
    (h : truncate P path length c = .ok r c') :
    (length < 0 ∧ r = -EINVAL ∧ c' = c) ∨ (¬length < 0 ∧ r = 0 ∧ (do
      let pair ← metadataAt path
      let attr ← getMapped pair
      onData (DataSink.truncate P path (toSizeT length) (toSizeT attr.stbuf.size))
      modifyMapped pair fun a => { a with stbuf := { a.stbuf with size := length } }) c =
        .ok () c') := by
  rw [truncate, catchLookup] at h
  by_cases hlen : length < 0
  · rw [if_pos hlen] at h
    cases h
    exact .inl ⟨hlen, rfl, rfl⟩
  · rw [if_neg hlen] at h
    split at h
    · next c₂ hx =>
      obtain hx | ⟨p, c₁, _, hx⟩ := Exec.bind_eq_error.mp hx
      · cases hx
      obtain hx | ⟨a, c₂, _, hx⟩ := Exec.bind_eq_error.mp hx
      · exact (getMapped_ne_raised hx).elim
      obtain hx | ⟨_, t, _, hx⟩ := Exec.bind_eq_error.mp hx
      · obtain ⟨_, hx, _⟩ := Exec.zoom_eq_error hx
        exact (sink_truncate_ne_lookupE hP hx).elim
      obtain hx | ⟨_, t, _, hx⟩ := Exec.bind_eq_error.mp hx
      · exact (modifyMapped_ne_raised hx).elim
      · cases hx
    · obtain ⟨p, c₁, h₁, h⟩ := Exec.bind_eq_ok.mp h
      obtain ⟨a, c₂, h₂, h⟩ := Exec.bind_eq_ok.mp h
      obtain ⟨_, c₃, h₃, h⟩ := Exec.bind_eq_ok.mp h
      obtain ⟨_, c₄, h₄, h⟩ := Exec.bind_eq_ok.mp h
      cases h
      refine .inr ⟨hlen, rfl, ?_⟩
      rw [Exec.bind_of_ok h₁, Exec.bind_of_ok h₂, Exec.bind_of_ok h₃, h₄]

theorem truncate_data (hP : P.NoLookupE) {length r : Int}
    (h : truncate P path length c = .ok r c') :
    (length < 0 ∧ c' = c) ∨ (¬length < 0 ∧ ∃ m,
      DataSink.truncate P path (toSizeT length) m c.data = .ok () c'.data) := by
  obtain ⟨hlen, _, rfl⟩ | ⟨hlen, _, h⟩ := truncate_eq hP h
  · exact .inl ⟨hlen, rfl⟩
  · obtain ⟨p, c₁, h₁, h⟩ := Exec.bind_eq_ok.mp h
    obtain ⟨a, c₂, h₂, h⟩ := Exec.bind_eq_ok.mp h
    obtain ⟨_, c₃, h₃, h⟩ := Exec.bind_eq_ok.mp h
    have hc : c₂.data = c.data := (getMapped_data h₂).trans (onMetadata_data h₁)
    refine .inr ⟨hlen, toSizeT a.stbuf.size, ?_⟩
    rw [← hc, modifyMapped_data h]
    exact onData_data h₃

/-! ## The size -/

/-- `write` moves the end of the file, if it reaches past it. -/
theorem write_attr {c c' : Fs δ σ} {b : Fattribute} {buffer : List Byte} {size offset : Nat}
    {r : Int} (H : c.WF) (hb : c.cached path = some b)
    (h : write path buffer size offset c = .ok r c') :
    c'.WF ∧ ∃ b', c'.cached path = some b' ∧
      b'.stbuf.size = max b.stbuf.size (toInt (offset + size)) := by
  obtain ⟨_, c₁, h₁, h⟩ := Exec.bind_eq_ok.mp h
  obtain ⟨d, e, rfl⟩ := onData_cases h₁
  let c₁ : Fs δ σ := { c with dataSink := d, chunkservers := e }
  have hc : c₁.cached path = some b := hb
  obtain ⟨c₂, h₂, H₂⟩ := edit_spec (c := c₁) H path fun a =>
    if a.stbuf.size < toInt (offset + size) then
      { a with stbuf := { a.stbuf with size := toInt (offset + size) } } else a
  rw [hc, Option.getD_some] at H₂
  cases (Exec.bind_of_ok h₂).symm.trans h
  refine ⟨H₂.wf, _, by rw [H₂.cached, Function.update_self], ?_⟩
  split
  · next hlt => exact (max_eq_right (Int.le_of_lt hlt)).symm
  · next hle => exact (max_eq_left (Int.not_lt.mp hle)).symm

/-- `truncate` sets the end of the file, unless the length is negative. -/
theorem truncate_attr (hP : P.NoLookupE) {b : Fattribute} {length r : Int} (H : c.WF)
    (hb : c.cached path = some b) (h : truncate P path length c = .ok r c') :
    (length < 0 ∧ c' = c) ∨ ¬length < 0 ∧ c'.WF ∧
      ∃ b', c'.cached path = some b' ∧ b'.stbuf.size = length := by
  obtain ⟨hlen, _, rfl⟩ | ⟨hlen, _, h⟩ := truncate_eq hP h
  · exact .inl ⟨hlen, rfl⟩
  obtain ⟨p, c₁, h₁, hp, hb₁, H₁⟩ := metadataAt_hit H hb
  rw [Exec.bind_of_ok h₁, Exec.bind_of_ok (getMapped_ok hp hb₁)] at h
  obtain ⟨_, c₂, h₂, h⟩ := Exec.bind_eq_ok.mp h
  obtain ⟨d, e, rfl⟩ := onData_cases h₂
  obtain ⟨c₃, h₃, H₃⟩ := modifyMapped_spec (c := { c₁ with dataSink := d, chunkservers := e }) H₁.wf
    hp hb₁ fun a => { a with stbuf := { a.stbuf with size := length } }
  cases h₃.symm.trans h
  exact .inr ⟨hlen, H₃.wf, _, by rw [H₃.cached, Function.update_self], rfl⟩

theorem start_data (now : Timespec) (d : δ) (e : σ) :
    (start now d e).data = (.empty, e) := by
  rw [start]
  cases h : after (colonyfsFusexx now) (empty d e) with
  | none => rfl
  | some c =>
    obtain ⟨r, hr⟩ := after_eq_some.mp h
    exact edit_data hr

end Fs

end ColonyFS

import ColonyFS.Api.Bytes
import ColonyFS.Fuse.Sizes

/-!
# The chunks of a deleted file

`unlink` leaves the chunks of its file where they are, and a file that is created under the same path
finds them there. Two runs that have written different bytes before the deletion tell what shows.
-/

namespace ColonyFS

open Exec (Rel Any)
open Machine
open DataOnFlush (policy)

/-- The same act in two runs. What `unlink` reads from freed memory may differ. -/
inductive Act.Same : Act → Act → Prop where
  | refl {act : Act} : Same act act
  | unlink {path : Str} {freed freed' : Int} : Same (.unlink path freed) (.unlink path freed')

/-- The same act, but for the bytes that are written to `path`. -/
inductive Act.SameButBytes (path : Str) : Act → Act → Prop where
  | same {act act' : Act} : Act.Same act act' → SameButBytes path act act'
  | write {buffer buffer' : List Byte} {size offset : Nat} : buffer.length = buffer'.length →
      SameButBytes path (.write path buffer size offset) (.write path buffer' size offset)

/-- A request within the first `E` bytes of a file touches this position of this chunk. -/
def Readable (E : Nat) (i : Int) (k : Nat) : Prop :=
  ∃ size offset, offset + size ≤ E ∧ ∃ u ∈ segments size offset,
    toInt u.count = i ∧ u.chunkStart ≤ k ∧ k < u.chunkStart + u.chunkDelta

section

variable {E E' k : Nat} {i : Int}

theorem Readable.of_max (h : Readable (max E E') i k) : Readable E i k ∨ Readable E' i k := by
  obtain ⟨size, offset, hle, hu⟩ := h
  exact (le_max_iff.mp hle).imp (fun hle => ⟨size, offset, hle, hu⟩)
    fun hle => ⟨size, offset, hle, hu⟩

theorem Readable.mono (h : Readable E i k) (hE : E ≤ E') : Readable E' i k := by
  obtain ⟨size, offset, hle, hu⟩ := h
  exact ⟨size, offset, Nat.le_trans hle hE, hu⟩

/-- Nothing can be read of an empty file. -/
theorem not_readable_zero : ¬Readable 0 i k := by
  rintro ⟨size, offset, hle, u, hu, _, hk, hk'⟩
  obtain ⟨rfl, rfl⟩ := Nat.add_eq_zero_iff.mp (Nat.le_zero.mp hle)
  rw [segments_of_le (Nat.zero_le _) (by decide), if_neg (by simp [CHUNK_SIZE_eq])] at hu
  cases List.mem_singleton.mp hu
  exact Nat.not_lt_of_le hk hk'

/-- A file that ends in its first chunk. -/
theorem Readable.of_le (hE : E ≤ CHUNK_SIZE) (h : Readable E i k) : i = 0 ∧ k < E := by
  obtain ⟨size, offset, hle, u, hu, rfl, hk, hk'⟩ := h
  have hC := CHUNK_SIZE_eq
  rw [segments_of_le (by omega) (by omega)] at hu
  obtain rfl | hu := List.mem_cons.mp hu
  · have hlt : offset < CHUNK_SIZE := by
      have := Nat.mod_lt offset CHUNK_SIZE_pos
      simp only at hk hk'
      omega
    simp only [Nat.div_eq_of_lt hlt, Nat.mod_eq_of_lt hlt] at hk' ⊢
    exact ⟨toInt_of_lt (by decide), by omega⟩
  · split at hu
    · cases List.mem_singleton.mp hu
      exact (Nat.not_lt_of_le hk hk').elim
    · cases hu

theorem Readable.of_lt (hE : E ≤ CHUNK_SIZE) (hk : k < E) : Readable E 0 k := by
  have hC := CHUNK_SIZE_eq
  refine ⟨1, k, by omega, ⟨k / CHUNK_SIZE, k % CHUNK_SIZE, 0, 1⟩, ?_, ?_, ?_⟩
  · rw [segments_of_le (by omega) (by omega)]
    exact List.mem_cons_self
  · rw [Nat.div_eq_of_lt (by omega)]
    exact toInt_of_lt (Nat.two_pow_pos 31)
  · rw [Nat.mod_eq_of_lt (by omega)]
    exact ⟨Nat.le_refl k, Nat.lt_succ_self k⟩

end

namespace Fs

variable [BinaryArchive Instruction] [BinaryArchive Fattribute.Record]

/-- Two clients side by side, each with its DHT and its chunk servers. -/
abbrev Runs := Fs (Str → Option Str) Net × Fs (Str → Option Str) Net

variable {process : Process} {c c' d d' : Fs (Str → Option Str) Net} {path q : Str}
  {act act' : Act} {i : Int} {k : Nat}

/-- The same attributes, and chunks of one shape. -/
structure Alike (c c' : Fs (Str → Option Str) Net) : Prop where
  metadataSink : c'.metadataSink = c.metadataSink
  dht : c'.dht = c.dht
  data : DataSink.SameShape c.data c'.data

omit [BinaryArchive Instruction] [BinaryArchive Fattribute.Record] in
theorem rel_onMetadata {α : Type} (x : CacheM Str AttributeValue (Str → Option Str) α) :
    Rel Alike Eq (onMetadata x : FuseM _ Net α) (onMetadata x) := by
  have hx : Rel Eq Eq x x := by
    rintro s _ rfl
    cases x s <;> exact ⟨rfl, rfl⟩
  refine hx.zoom ?_ ?_
  · intro c c' h
    rw [h.metadataSink, h.dht]
  · rintro c c' s _ h rfl
    exact ⟨rfl, rfl, h.data⟩

omit [BinaryArchive Instruction] [BinaryArchive Fattribute.Record] in
theorem rel_onData {α β : Type} {S : α → β → Prop} {x : DataM Net α} {y : DataM Net β}
    (h : Rel DataSink.SameShape S x y) :
    Rel Alike S (onData x : FuseM (Str → Option Str) Net α) (onData y) :=
  h.zoom (fun _ _ h => h.data) fun _ _ _ _ h h' => ⟨h.metadataSink, h.dht, h'⟩

theorem onAttributes_alike : OnAttributes Dht.table Dht.table Set.univ Alike where
  metadataAt _ := rel_onMetadata _
  getMapped _ := Rel.bind_eq (rel_onMetadata _) fun _ => .pure rfl
  modifyMapped _ _ := Rel.bind_eq (rel_onMetadata _) fun _ => rel_onMetadata _
  spare _ _ _ := Rel.bind_eq (rel_onMetadata _) fun _ => rel_onMetadata _
  metadataOf _ _ := rel_onMetadata _
  purgeMetadata _ _ := rel_onMetadata _

omit [BinaryArchive Instruction] [BinaryArchive Fattribute.Record] in
theorem onChunks_alike : OnChunks policy Alike where
  write _ _ _ _ := rel_onData (DataSink.rel_write rfl)
  read _ _ _ _ := (rel_onData (DataSink.rel_read rfl)).any
  truncate _ _ _ := rel_onData DataSink.rel_truncate
  invalidate _ := rel_onData DataSink.rel_invalidate
  purge _ := rel_onData DataSink.rel_purge

/-- What was written to a file does not decide what a step does next. -/
theorem Alike.step (H : Alike c c') (hacts : act.SameButBytes path act')
    (h : step Dht.table policy process c act = some d)
    (h' : Fs.step Dht.table policy process c' act' = some d') : Alike d d' := by
  have hd : ∃ d₁, Fs.step Dht.table policy process c' act' = some d₁ ∧ Alike d d₁ := by
    cases hacts with
    | same hacts =>
      cases hacts with
      | refl =>
        exact onAttributes_alike.step_all onChunks_alike (fun _ _ => rel_onMetadata _)
          (fun _ _ => trivial) H h
      | unlink => exact rel_after (onAttributes_alike.unlink trivial) H h
    | write hlen =>
      exact rel_after (onAttributes_alike.write (rel_onData (DataSink.rel_write hlen))) H h
  obtain ⟨d₁, h₁, H₁⟩ := hd
  cases h₁.symm.trans h'
  exact H₁

/-! ## One step -/

theorem sink_wf_of_step (H : c.dataSink.WF) (h : step Dht.table policy process c act = some d) :
    d.dataSink.WF := by
  have hsame : d.data = c.data → d.dataSink.WF := by
    intro hd
    have hs : d.dataSink = c.dataSink := congrArg Prod.fst hd
    rwa [hs]
  by_cases hact : act.SparesData
  · exact hsame (step_data hact h)
  have hwrite : ∀ {path : Str} {buffer : List Byte} {size offset : Nat},
      DataSink.write path buffer size offset c.data = .ok () d.data → d.dataSink.WF :=
    fun h => (DataSink.write_ok H h).2.2
  cases act with
  | create path mode now =>
    obtain ⟨r, hr⟩ := after_eq_some.mp h
    obtain ⟨_, hd⟩ | ⟨_, hw⟩ := create_data hr
    · exact hsame hd
    · exact hwrite hw
  | write path buffer size offset =>
    obtain ⟨r, hr⟩ := after_eq_some.mp h
    exact hwrite (write_data hr)
  | read path buffer size offset =>
    obtain ⟨r, hr⟩ := after_eq_some.mp h
    obtain hd | ⟨n, hread⟩ := read_data hr
    · exact hsame hd
    · exact (DataSink.copyFrom_read_bytes H hread).1
  | truncate path length =>
    obtain ⟨r, hr⟩ := after_eq_some.mp h
    obtain ⟨_, rfl⟩ | ⟨_, m, htrunc⟩ := truncate_data DataOnFlush.policy_noLookupE hr
    · exact H
    · exact (DataSink.truncate_bytes H htrunc).1
  | dhtTask path =>
    obtain ⟨r, hr⟩ := after_eq_some.mp h
    obtain ⟨s, hinv, hpurge⟩ := dhtTask_data hr
    exact (DataSink.flush_bytes H hinv hpurge).1
  | _ => exact (hact trivial).elim

/-- What an act stores in a chunk of `path`, or cuts off. -/
def Settled (c : Fs (Str → Option Str) Net) (path : Str) (i : Int) (k : Nat) : Act → Prop
  | .write q buffer size offset => q = path ∧
      ∃ u ∈ (segments size offset).map (Segment.store buffer), c.dataSink.Settles path i k u
  | .truncate q length => q = path ∧ 0 ≤ length ∧ i = toInt (toSizeT length / CHUNK_SIZE) ∧
      toSizeT length % CHUNK_SIZE ≤ k
  | _ => False

/-- The two runs hold the same byte at a position of a chunk. -/
abbrev Agree (path : Str) (s : Runs) : Int → Nat → Prop := DataSink.Agree s.1.data s.2.data path

/-- A flush drops the clean chunks that are indexed, and the servers have another version. -/
def Reverts (path : Str) (s : Runs) (i : Int) (k : Nat) : Act → Prop
  | .dhtTask q => q = path ∧ i ∈ s.1.dataSink.index path ∧ ¬s.1.dataSink.IsDirty path i ∧
      ((s.1.chunkservers.stored? ⟨path, i⟩).getD [])[k]? ≠
        ((s.2.chunkservers.stored? ⟨path, i⟩).getD [])[k]?
  | _ => False

/-- Two runs that have differed in bytes only. -/
structure Twins (s : Runs) : Prop where
  alike : Alike s.1 s.2
  wf : s.1.WF
  sink : s.1.dataSink.WF
  sink' : s.2.dataSink.WF

variable {s s' : Runs}

theorem bytes_of_read {buffer : List Byte} {size offset : Nat} {r : Int × List Byte}
    (H : c.dataSink.WF) (h : read Dht.table policy q buffer size offset c = .ok r d) :
    DataSink.bytes d.data path i = DataSink.bytes c.data path i := by
  obtain hd | ⟨n, hread⟩ := read_data h
  · rw [hd]
  · exact (DataSink.copyFrom_read_bytes H hread).2.1 path i

omit [BinaryArchive Instruction] [BinaryArchive Fattribute.Record] in
theorem agree_of_data (h : s'.1.data = s.1.data) (h' : s'.2.data = s.2.data)
    (hk : Agree path s i k) : Agree path s' i k := by
  rwa [Agree, h, h']

/-- One step keeps what the runs agree on, apart from what a flush reverts. -/
theorem agree_step (H : Twins s) (hacts : act.Same act')
    (h : step Dht.table policy process s.1 act = some s'.1)
    (h' : step Dht.table policy process s.2 act' = some s'.2)
    (hk : Agree path s i k ∨ Settled s.1 path i k act) (hrev : ¬Reverts path s i k act) :
    Agree path s' i k := by
  obtain ⟨hal, _, hsink, hsink'⟩ := H
  cases hacts with
  | @unlink q freed freed' =>
    have hk := hk.resolve_right fun h => h.elim
    have hspare : ∀ freed, (Act.unlink q freed).SparesData := fun _ => trivial
    exact agree_of_data (step_data (hspare _) h) (step_data (hspare _) h') hk
  | refl =>
    by_cases hact : act.SparesData
    · have hk : Agree path s i k := by
        refine hk.resolve_right ?_
        cases act with
        | write => exact hact.elim
        | truncate => exact hact.elim
        | _ => exact id
      exact agree_of_data (step_data hact h) (step_data hact h') hk
    cases act with
    | create q mode now =>
      have hk := hk.resolve_right fun h => h.elim
      obtain ⟨r, hr⟩ := after_eq_some.mp h
      obtain ⟨r', hr'⟩ := after_eq_some.mp h'
      obtain ⟨hv, hd⟩ | ⟨hv, hw⟩ := create_data hr <;>
        obtain ⟨hv', hd'⟩ | ⟨hv', hw'⟩ := create_data hr'
      · exact agree_of_data hd hd' hk
      · exact (hv hv').elim
      · exact (hv' hv).elim
      · exact .write hal.data hsink hsink' hw hw' (.inl hk)
    | write q buffer size offset =>
      obtain ⟨r, hr⟩ := after_eq_some.mp h
      obtain ⟨r', hr'⟩ := after_eq_some.mp h'
      exact .write hal.data hsink hsink' (write_data hr) (write_data hr')
        (hk.imp_right fun h => ⟨h.1.symm, h.2⟩)
    | read q buffer size offset =>
      have hk := hk.resolve_right fun h => h.elim
      obtain ⟨r, hr⟩ := after_eq_some.mp h
      obtain ⟨r', hr'⟩ := after_eq_some.mp h'
      rwa [Agree, DataSink.Agree, bytes_of_read hsink hr, bytes_of_read hsink' hr']
    | truncate q length =>
      obtain ⟨r, hr⟩ := after_eq_some.mp h
      obtain ⟨r', hr'⟩ := after_eq_some.mp h'
      obtain ⟨hlen, hd⟩ | ⟨hlen, m, ht⟩ := truncate_data DataOnFlush.policy_noLookupE hr <;>
        obtain ⟨hlen', hd'⟩ | ⟨hlen', m', ht'⟩ := truncate_data DataOnFlush.policy_noLookupE hr'
      · have hk := hk.resolve_right fun h => Int.not_lt.mpr h.2.1 hlen
        exact agree_of_data (by rw [hd]) (by rw [hd']) hk
      · exact (hlen' hlen).elim
      · exact (hlen hlen').elim
      · exact .truncate hal.data hsink hsink' ht ht' (hk.imp_right fun h => ⟨h.1.symm, h.2.2⟩)
    | dhtTask q =>
      have hk := hk.resolve_right fun h => h.elim
      obtain ⟨_, hr⟩ := after_eq_some.mp h
      obtain ⟨_, hr'⟩ := after_eq_some.mp h'
      obtain ⟨t, hinv, hpurge⟩ := dhtTask_data hr
      obtain ⟨t', hinv', hpurge'⟩ := dhtTask_data hr'
      refine .flush hal.data hsink hsink' hinv hpurge hinv' hpurge' hk ?_
      rintro rfl hi hd
      by_contra hne
      exact hrev ⟨rfl, hi, hd, hne⟩
    | _ => exact (hact trivial).elim

/-! ## Runs -/

/-- The two runs take a step each. -/
def stepBoth (process : Process) (s : Runs) (acts : Act × Act) : Option Runs :=
  (step Dht.table policy process s.1 acts.1).bind fun c =>
    (step Dht.table policy process s.2 acts.2).map fun c' => (c, c')

/-- Every byte that an act makes readable is one that it stores, or the two runs hold the same, and
no flush brings back bytes in which they differ. -/
def Hides (path : Str) (s : Runs) (act : Act) : Prop :=
  ∀ i k, (Readable (s.1.grownTo path act) i k → Readable (s.1.endOf path) i k ∨
      Agree path s i k ∨ Settled s.1 path i k act) ∧
    (Readable (s.1.endOf path) i k → ¬Reverts path s i k act)

/-- Every read of the file returns the same in both runs. -/
def SameReads (path : Str) (s : Runs) : Prop :=
  ∀ (buffer : List Byte) (size offset : Nat) (r : Int × List Byte), offset + size < 2 ^ 64 →
    ((∃ c, read Dht.table policy path buffer size offset s.1 = .ok r c) ↔
      ∃ c, read Dht.table policy path buffer size offset s.2 = .ok r c)

/-- The runs agree on all that can be read of the file. -/
structure Concealed (path : Str) (s : Runs) : Prop where
  twins : Twins s
  agree : ∀ i k, Readable (s.1.endOf path) i k → Agree path s i k

theorem stepBoth_eq_some {acts : Act × Act} : stepBoth process s acts = some s' ↔
    step Dht.table policy process s.1 acts.1 = some s'.1 ∧
      step Dht.table policy process s.2 acts.2 = some s'.2 := by
  obtain ⟨d, d'⟩ := s'
  simp only [stepBoth, Option.bind_eq_some_iff, Option.map_eq_some_iff, Prod.mk.injEq]
  constructor
  · rintro ⟨_, h, _, h', rfl, rfl⟩
    exact ⟨h, h'⟩
  · rintro ⟨h, h'⟩
    exact ⟨_, h, _, h', rfl, rfl⟩

theorem Twins.step {acts : Act × Act} (H : Twins s) (hacts : acts.1.SameButBytes path acts.2)
    (hs : stepBoth process s acts = some s') : Twins s' := by
  obtain ⟨h, h'⟩ := stepBoth_eq_some.mp hs
  exact ⟨H.alike.step hacts h h', ((endsBy_endOf H.wf path).step h).wf,
    sink_wf_of_step H.sink h, sink_wf_of_step H.sink' h'⟩

/-- The same acts in both runs. -/
theorem Twins.same {acts : Act × Act} (H : Twins s) (hacts : acts.1.Same acts.2)
    (hs : stepBoth process s acts = some s') : Twins s' := by
  have hacts : acts.1.SameButBytes [] acts.2 := .same hacts
  exact H.step hacts hs

theorem Concealed.step {acts : Act × Act} (H : Concealed path s) (hacts : acts.1.Same acts.2)
    (hhides : Hides path s acts.1) (hs : stepBoth process s acts = some s') :
    Concealed path s' := by
  obtain ⟨h, h'⟩ := stepBoth_eq_some.mp hs
  refine ⟨H.twins.same hacts hs, ?_⟩
  intro i k hread
  have hend := ((endsBy_endOf H.twins.wf path).step h).endOf_le
  obtain ⟨hgrow, hrev⟩ := hhides i k
  obtain hread | hread := (hread.mono hend).of_max
  · exact agree_step H.twins hacts h h' (.inl (H.agree i k hread)) (hrev hread)
  obtain hold | hk := hgrow hread
  · exact agree_step H.twins hacts h h' (.inl (H.agree i k hold)) (hrev hold)
  · refine agree_step H.twins hacts h h' hk ?_
    cases hact : acts.1 with
    | dhtTask q =>
      rw [hact] at hread
      exact (not_readable_zero hread).elim
    | _ => exact id

/-! ## Reads -/

theorem Concealed.read {buffer : List Byte} {size offset : Nat} {r : Int × List Byte}
    (H : Concealed path s) (hlt : offset + size < 2 ^ 64)
    (h : read Dht.table policy path buffer size offset s.1 = .ok r c) :
    ∃ c', Fs.read Dht.table policy path buffer size offset s.2 = .ok r c' := by
  obtain ⟨p, c₁, h₁, h⟩ := Exec.bind_eq_ok.mp h
  obtain ⟨a, c₂, h₂, h⟩ := Exec.bind_eq_ok.mp h
  obtain ⟨_, c₁', h₁', rfl, A₁⟩ := (onAttributes_alike.metadataOf path trivial).ok H.twins.alike h₁
  obtain ⟨_, c₂', h₂', rfl, A₂⟩ := (onAttributes_alike.getMapped _).ok A₁ h₂
  have hd : c₂.data = s.1.data := (getMapped_data h₂).trans (onMetadata_data h₁)
  have hd' : c₂'.data = s.2.data := (getMapped_data h₂').trans (onMetadata_data h₁')
  have hend : toSizeT a.stbuf.size ≤ s.1.endOf path := by
    obtain ⟨e, he⟩ | ⟨_, _, b, hb, hattr, _, hp, hc, _⟩ := metadataOf_cases H.twins.wf readOnly_table path
    · cases he.symm.trans h₁
    · cases hb.symm.trans h₁
      cases (getMapped_ok hp (by rw [hc, Function.update_self])).symm.trans h₂
      exact (endsBy_endOf H.twins.wf path).le _ hattr
  rw [Fs.read, Exec.bind_of_ok h₁', Exec.bind_of_ok h₂']
  dsimp only at h ⊢
  by_cases hoff : toSizeT a.stbuf.size < offset
  · rw [if_pos hoff] at h ⊢
    cases h
    exact ⟨c₂', rfl⟩
  rw [if_neg hoff] at h ⊢
  have hclip : offset + (if toSizeT a.stbuf.size < (offset + size) % 2 ^ 64 then
      toSizeT a.stbuf.size - offset else size) ≤ s.1.endOf path := by
    rw [Nat.mod_eq_of_lt hlt]
    split <;> omega
  generalize (if toSizeT a.stbuf.size < (offset + size) % 2 ^ 64 then
      toSizeT a.stbuf.size - offset else size) = n at h hclip ⊢
  obtain ⟨buf, c₃, h₃, h⟩ := Exec.bind_eq_ok.mp h
  obtain ⟨buf', c₃', h₃', _⟩ := (rel_onData (DataSink.rel_read rfl)).ok A₂ h₃
  have hdata : DataSink.read policy path buffer n offset s.1.data = .ok buf c₃.data :=
    hd ▸ onData_data h₃
  have hdata' : DataSink.read policy path buffer n offset s.2.data = .ok buf' c₃'.data :=
    hd' ▸ onData_data h₃'
  obtain ⟨_, _, hbuf⟩ := DataSink.copyFrom_read_bytes H.twins.sink hdata
  obtain ⟨_, _, hbuf'⟩ := DataSink.copyFrom_read_bytes H.twins.sink' hdata'
  have hsame := DataSink.foldl_read_congr (s := s.1.data) (t := s.2.data) (f := path) buffer
    fun u hu k hk hk' => H.agree (toInt u.count) k ⟨n, offset, hclip, u, hu, rfl, hk, hk'⟩
  cases h
  rw [hbuf.trans (hsame.trans hbuf'.symm)]
  exact ⟨c₃', by rw [Exec.bind_of_ok h₃']; rfl⟩

theorem Concealed.sameReads (H : Concealed path s) : SameReads path s := by
  intro buffer size offset r hlt
  cases hx : Fs.read Dht.table policy path buffer size offset s.1 with
  | ok r₁ c =>
    obtain ⟨c', hy⟩ := H.read hlt hx
    rw [hy]
    constructor
    · rintro ⟨_, h⟩
      cases h
      exact ⟨c', rfl⟩
    · rintro ⟨_, h⟩
      cases h
      exact ⟨c, rfl⟩
  | error e c =>
    obtain ⟨c', hy, _⟩ := (onChunks_alike.rel_read onAttributes_alike.toSparingSizes
      trivial).error H.twins.alike hx
    rw [hy]
    constructor
    · rintro ⟨_, h⟩
      cases h
    · rintro ⟨_, h⟩
      cases h

/-- The new file is empty, and nothing shows yet. -/
theorem concealed_of_create {mode : UInt32} {now : Timespec} {freed freed' : Int} {s₁ : Runs}
    (H : Twins s) (h : unlink Dht.table process path freed s.1 = .ok 0 s₁.1)
    (h' : unlink Dht.table process path freed' s.2 = .ok 0 s₁.2)
    (hc : stepBoth process s₁ (.create path mode now, .create path mode now) = some s') :
    Concealed path s' := by
  have hs : stepBoth process s (.unlink path freed, .unlink path freed') = some s₁ :=
    stepBoth_eq_some.mpr ⟨after_eq_some.mpr ⟨_, h⟩, after_eq_some.mpr ⟨_, h'⟩⟩
  have H₁ : Twins s₁ := H.same .unlink hs
  refine ⟨H₁.same .refl hc, ?_⟩
  intro i k hread
  have hend := ((endsBy_of_unlink H.wf h).step (stepBoth_eq_some.mp hc).1).endOf_le
  exact (not_readable_zero (hread.mono hend)).elim

omit [BinaryArchive Fattribute.Record] in
theorem twins_start (now : Timespec) (dht : Str → Option Str) (net : Net) :
    Twins (start now dht net, start now dht net) := by
  have hsink : (start now dht net).dataSink = .empty := congrArg Prod.fst (start_data now dht net)
  have wf : (start now dht net).dataSink.WF := by
    rw [hsink]
    exact .empty
  refine ⟨⟨rfl, rfl, rfl, ?_, ?_⟩, (start_spec now dht net).1, wf, wf⟩
  · exact ⟨rfl, rfl, rfl, rfl, fun _ => rfl⟩
  · exact ⟨rfl, rfl, rfl, fun _ _ => rfl⟩

/-- A new file does not show the data of the deleted one in two runs in which every step hides it. -/
theorem sameReads_of_hides {now now' : Timespec} {dht : Str → Option Str} {net : Net} {mode : UInt32}
    {freed freed' : Int} {s₁ s₂ s₃ : Runs}
    (h : Reach (stepBoth process) (fun _ acts => acts.1.SameButBytes path acts.2)
      (start now dht net, start now dht net) s)
    (hu : unlink Dht.table process path freed s.1 = .ok 0 s₁.1)
    (hu' : unlink Dht.table process path freed' s.2 = .ok 0 s₁.2)
    (hc : stepBoth process s₁ (.create path mode now', .create path mode now') = some s₂)
    (h₂ : Reach (stepBoth process) (fun s acts => acts.1.Same acts.2 ∧ Hides path s acts.1) s₂ s₃) :
    SameReads path s₃ := by
  have H : Twins s := by
    refine Reach.invariant (P := fun s => Twins s) h ?_ ?_
    · exact twins_start now dht net
    · intro s acts s' H hacts hs
      exact H.step hacts hs
  refine Concealed.sameReads ?_
  refine Reach.invariant (P := fun s => Concealed path s) h₂ (concealed_of_create H hu hu' hc) ?_
  rintro s acts s' H ⟨hacts, hhides⟩ hs
  exact H.step hacts hhides hs

/-- A write in the first chunk that leaves no gap. -/
theorem hides_write {buffer : List Byte} {offset : Nat} (hend : offset ≤ s.1.endOf path)
    (hin : offset + buffer.length ≤ CHUNK_SIZE) :
    Hides path s (.write path buffer buffer.length offset) := by
  refine fun i k => ⟨?_, fun _ => id⟩
  have hC := CHUNK_SIZE_eq
  have hgrown : s.1.grownTo path (.write path buffer buffer.length offset) ≤
      offset + buffer.length := by
    rw [grownTo, toInt_of_lt (by omega)]
    split
    · exact Nat.le_of_eq (toSizeT_natCast (by omega))
    · exact Nat.zero_le _
  intro hread
  obtain ⟨rfl, hk⟩ := (hread.mono hgrown).of_le hin
  by_cases hold : k < offset
  · exact .inl ((Readable.of_lt (by omega) hold).mono hend)
  · have hseg : ⟨offset / CHUNK_SIZE, offset % CHUNK_SIZE, 0, buffer.length⟩ ∈
        segments buffer.length offset := by
      rw [segments_of_le (by omega) (by omega)]
      exact List.mem_cons_self
    refine .inr (.inr ⟨rfl, _, List.mem_map_of_mem hseg, ?_, .inr ?_⟩)
    · rw [Segment.store, Nat.div_eq_of_lt (by omega)]
      exact toInt_of_lt (Nat.two_pow_pos 31)
    · simp only [Segment.store, Vec.slice_zero, Nat.mod_eq_of_lt (show offset < CHUNK_SIZE by omega)]
      omega

end Fs

namespace Fs

open scoped PlainArchive

/-- One byte is written to a file, which is deleted and created again. -/
structure Reused (s s₁ s₂ : Runs) : Prop where
  reach : Reach (stepBoth ⟨0, 0⟩) (fun _ acts => acts.1.SameButBytes ['/', 'f'] acts.2)
    (start ⟨0, 0⟩ (fun _ => none) ⟨fun _ => ['b'], 0, fun _ => none, fun _ _ => none⟩,
      start ⟨0, 0⟩ (fun _ => none) ⟨fun _ => ['b'], 0, fun _ => none, fun _ _ => none⟩) s
  unlink : Fs.unlink Dht.table ⟨0, 0⟩ ['/', 'f'] 0 s.1 = .ok 0 s₁.1
  unlink' : Fs.unlink Dht.table ⟨0, 0⟩ ['/', 'f'] 0 s.2 = .ok 0 s₁.2
  create : stepBoth ⟨0, 0⟩ s₁
    (.create ['/', 'f'] 0o644 ⟨1, 0⟩, .create ['/', 'f'] 0o644 ⟨1, 0⟩) = some s₂

/-- The first byte of the file. -/
def firstByte (c : Fs (Str → Option Str) Net) : Option (Int × List Byte) :=
  (Exec.result? (read Dht.table policy ['/', 'f'] [0] 1 0 c)).map (·.1)

/-- Another byte is then written over the first one, or behind it. -/
theorem exists_reused : ∃ s s₁ s₂ s₃ s₄ : Runs, Reused s s₁ s₂ ∧
    stepBoth ⟨0, 0⟩ s₂ (.write ['/', 'f'] [1] 1 0, .write ['/', 'f'] [1] 1 0) = some s₃ ∧
    firstByte s₃.1 = some (1, [1]) ∧
    stepBoth ⟨0, 0⟩ s₂ (.write ['/', 'f'] [1] 1 1, .write ['/', 'f'] [1] 1 1) = some s₄ ∧
    firstByte s₄.1 = some (1, [7]) ∧ firstByte s₄.2 = some (1, [8]) := by
  let c₀ : Fs (Str → Option Str) Net :=
    start ⟨0, 0⟩ (fun _ => none) ⟨fun _ => ['b'], 0, fun _ => none, fun _ _ => none⟩
  have h : ((run (stepBoth ⟨0, 0⟩) (c₀, c₀)
      [(.create ['/', 'f'] 0o644 ⟨1, 0⟩, .create ['/', 'f'] 0o644 ⟨1, 0⟩),
        (.write ['/', 'f'] [7] 1 0, .write ['/', 'f'] [8] 1 0)]).bind fun s =>
      (Exec.result? (unlink Dht.table ⟨0, 0⟩ ['/', 'f'] 0 s.1)).bind fun r =>
      (Exec.result? (unlink Dht.table ⟨0, 0⟩ ['/', 'f'] 0 s.2)).bind fun r' =>
      (stepBoth ⟨0, 0⟩ (r.2, r'.2)
        (.create ['/', 'f'] 0o644 ⟨1, 0⟩, .create ['/', 'f'] 0o644 ⟨1, 0⟩)).bind fun s₂ =>
      (stepBoth ⟨0, 0⟩ s₂ (.write ['/', 'f'] [1] 1 0, .write ['/', 'f'] [1] 1 0)).bind fun s₃ =>
      (stepBoth ⟨0, 0⟩ s₂ (.write ['/', 'f'] [1] 1 1, .write ['/', 'f'] [1] 1 1)).map fun s₄ =>
        [some (r.1, []), some (r'.1, []), firstByte s₃.1, firstByte s₄.1, firstByte s₄.2]) =
      some [some (0, []), some (0, []), some (1, [1]), some (1, [7]), some (1, [8])] := by
    decide +kernel
  obtain ⟨s, hs, h⟩ := Option.bind_eq_some_iff.mp h
  obtain ⟨⟨r, c₁⟩, hu, h⟩ := Option.bind_eq_some_iff.mp h
  obtain ⟨⟨r', c₁'⟩, hu', h⟩ := Option.bind_eq_some_iff.mp h
  obtain ⟨s₂, hc, h⟩ := Option.bind_eq_some_iff.mp h
  obtain ⟨s₃, h₃, h⟩ := Option.bind_eq_some_iff.mp h
  obtain ⟨s₄, h₄, h⟩ := Option.map_eq_some_iff.mp h
  simp only [List.cons.injEq, Option.some.injEq, Prod.mk.injEq, and_true] at h
  obtain ⟨rfl, rfl, hb₃, hb₄, hb₄'⟩ := h
  refine ⟨s, (c₁, c₁'), s₂, s₃, s₄, ⟨.of_run_forall _ ?_ hs, Exec.eq_ok_of_result? hu,
    Exec.eq_ok_of_result? hu', hc⟩, h₃, hb₃, h₄, hb₄, hb₄'⟩
  intro acts hacts s
  simp only [List.mem_cons, List.not_mem_nil, or_false] at hacts
  obtain rfl | rfl := hacts
  · exact .same .refl
  · exact .write rfl

/-- Behind the byte that is written, the one of the deleted file can be read. -/
theorem exists_leak : ∃ s s₁ s₂ s₃ : Runs, Reused s s₁ s₂ ∧
    Reach (stepBoth ⟨0, 0⟩) (fun _ acts => acts.1.Same acts.2) s₂ s₃ ∧
    ¬SameReads ['/', 'f'] s₃ := by
  obtain ⟨s, s₁, s₂, _, s₄, H, _, _, h₄, hb, hb'⟩ := exists_reused
  refine ⟨s, s₁, s₂, s₄, H, .step .init .refl h₄, ?_⟩
  intro hsame
  obtain ⟨⟨_, c⟩, hr, hv⟩ := Option.map_eq_some_iff.mp hb
  obtain ⟨⟨_, c'⟩, hr', hv'⟩ := Option.map_eq_some_iff.mp hb'
  cases hv
  cases hv'
  obtain ⟨_, h⟩ := (hsame [0] 1 0 (1, [7]) (by decide)).mp ⟨c, Exec.eq_ok_of_result? hr⟩
  cases (Exec.eq_ok_of_result? hr').symm.trans h

/-- The byte is written over the old one. -/
theorem sameReads_of_hides_example : ∃ s s₁ s₂ s₃ : Runs, Reused s s₁ s₂ ∧
    firstByte s₃.1 = some (1, [1]) ∧ SameReads ['/', 'f'] s₃ := by
  obtain ⟨s, s₁, s₂, s₃, _, H, h₃, hb, _⟩ := exists_reused
  have hhides : Hides ['/', 'f'] s₂ (.write ['/', 'f'] [1] ([1] : List Byte).length 0) :=
    hides_write (Nat.zero_le _) (by simp [CHUNK_SIZE_eq])
  exact ⟨s, s₁, s₂, s₃, H, hb, sameReads_of_hides H.reach H.unlink H.unlink' H.create
    (.step .init ⟨.refl, hhides⟩ h₃)⟩

end Fs

end ColonyFS

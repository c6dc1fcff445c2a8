import ColonyFS.Api.Aggregator
import ColonyFS.Cache.DataOnFlush

/-!
# Writing into a file that was flushed

A `dht_task` drops the chunks of its file after it has flushed them. The next write finds nothing
cached, and `operator[]` starts over with an empty chunk instead of fetching the stored one, so what
the second flush stores is the written range and zeros before it.
-/

namespace ColonyFS

open DataSink

/-- `dht_task::execute` on the data cache, with nothing in between. -/
def execute {σ : Type} (P : Policy ChunkData σ) (filename : Str) : DataM σ Unit := do
  DataSink.invalidate P filename
  DataSink.purge P filename

/-- Some writes to a file, each with its buffer and offset. -/
def writeAll {σ : Type} (f : Str) : List (List Byte × Nat) → DataM σ Unit
  | [] => pure ()
  | (buf, offset) :: ws => do
    DataSink.write f buf buf.length offset
    writeAll f ws

/-- A new file: some writes and a flush. -/
def buildFile (f : Str) (ws : List (List Byte × Nat)) : DataM Net Unit := do
  writeAll f ws
  execute DataOnFlush.policy f

/-- A later write, and a flush. -/
def rewriteFile (f : Str) (buf : List Byte) (offset : Nat) : DataM Net Unit := do
  DataSink.write f buf buf.length offset
  execute DataOnFlush.policy f

/-- Chunk servers without a chunk. -/
def emptyNet : Net := ⟨fun _ => ['b', 'o', 'b'], 0, fun _ => none, fun _ _ => none⟩

/-- The end of a file built by writes. -/
def fileEnd (ws : List (List Byte × Nat)) : Nat :=
  ws.foldl (fun E w => max E (w.2 + w.1.length)) 0

/-- `purge` will come past all cached chunks of the file. -/
def AllIndexed (d : DataSink) (f : Str) : Prop :=
  ∀ i, (d.chunk? f i).isSome → i ∈ d.index f

variable {σ : Type} {P : Policy ChunkData σ} {f : Str} {d d' : DataSink} {e e' : σ}

theorem AllIndexed.wroteAll {ss : List Store} (H : AllIndexed d f) (h : WroteAll f d ss d') :
    AllIndexed d' f := by
  induction h with
  | nil => exact H
  | cons h _ ih =>
    refine ih fun i hi => (h.index f i).mpr ?_
    rw [h.chunk?] at hi
    split at hi
    · next hc => exact .inl hc
    · exact .inr (H i hi)

theorem writeAll_ok {ws : List (List Byte × Nat)} (H : d.WF) (hall : AllIndexed d f)
    (h : writeAll f ws (d, e) = .ok () (d', e')) : d'.WF ∧ AllIndexed d' f ∧ e' = e := by
  induction ws generalizing d e with
  | nil => cases h; exact ⟨H, hall, rfl⟩
  | cons w ws ih =>
    obtain ⟨_, ⟨d₁, e₁⟩, hw, hrest⟩ := Exec.bind_eq_ok.mp h
    obtain ⟨rfl, hw, H₁⟩ := write_ok H hw
    exact ih H₁ (hall.wroteAll hw) hrest

/-- A task stores the dirty chunks of its file and leaves nothing of it in the cache. -/
theorem execute_spec {flushed : σ → ChunkKey → Option (List Byte)}
    (hF : ∀ v e, ∃ e', P.onFlush v e = .ok () e' ∧
      ∀ k, flushed e' k = if k = v.getKey then some v.data else flushed e k)
    (hE : ∀ v e, P.onErase v e = .ok () e) (H : d.WF) (hall : AllIndexed d f) :
    ∃ d' e', execute P f (d, e) = .ok () (d', e') ∧ d'.WF ∧ (∀ i, d'.chunk? f i = none) ∧
      ∀ i, flushed e' ⟨f, i⟩ = if d.IsDirty f i then d.chunk? f i else flushed e ⟨f, i⟩ := by
  obtain ⟨d₁, e₁, hinv, h₁⟩ := invalidate_spec (f := f) (e := e) hF H
  obtain ⟨d₂, hpur, h₂⟩ := purge_spec (f := f) (e := e₁) hE h₁.wf
  refine ⟨d₂, e₁, (Exec.bind_of_ok hinv).trans hpur, h₂.wf, ?_, ?_⟩
  · intro i
    rw [h₂.chunk?, h₁.index, h₁.chunk?]
    split
    · rfl
    next hn =>
      cases hc : d.chunk? f i with
      | none => rfl
      | some v => exact (hn ⟨rfl, Std.ExtTreeSet.mem_toList.mpr (hall i (by simp [hc]))⟩).elim
  · intro i
    rw [h₁.flushed]
    refine if_congr (and_iff_right_of_imp fun hd => ⟨rfl, ?_⟩) rfl rfl
    exact Std.ExtTreeSet.mem_toList.mpr (H.indexed hd)

/-! ## The second flush -/

variable {ws : List (List Byte × Nat)} {buf : List Byte} {offset x : Nat} {b : Byte}
  {net₀ net₁ : Net}

/-- After the first flush nothing of the file is cached. -/
theorem flushed_ok
    (h : buildFile f ws (.empty, net₀) = .ok () (d, net₁)) :
    d.WF ∧ ∀ i, d.chunk? f i = none := by
  obtain ⟨_, ⟨d₁, e₁⟩, hw, hx⟩ := Exec.bind_eq_ok.mp h
  obtain ⟨H₁, hall, rfl⟩ := writeAll_ok .empty (fun i hi => by simp at hi) hw
  obtain ⟨d₂, e₂, hx', H₂, hnone, _⟩ := execute_spec (f := f) (e := e₁)
    DataOnFlush.onFlush_spec (fun _ _ => rfl) H₁ hall
  cases hx.symm.trans hx'
  exact ⟨H₂, hnone⟩

/-- What the servers hold after a write that finds nothing cached, and its flush. -/
theorem rewrite_ok (H : d.WF) (hnone : ∀ i, d.chunk? f i = none) (hs : buf.length ≤ CHUNK_SIZE)
    (ho : buf.length + offset < 2 ^ 64) :
    ∃ d' net', rewriteFile f buf offset (d, net₁) = .ok () (d', net') ∧
      ∀ x, net'.held f x =
        if toInt (x / CHUNK_SIZE) = toInt (offset / CHUNK_SIZE) then
          (Vec.store 0 [] (offset % CHUNK_SIZE) buf)[x % CHUNK_SIZE]?
        else if Visits buf.length offset (toInt (x / CHUNK_SIZE)) then none
        else net₁.held f x := by
  obtain ⟨d₁, hw, h⟩ := write_written (f := f) (e := net₁) H hs ho
  have hall : AllIndexed d₁ f := by
    intro i hi
    apply (h.index f i).mpr
    by_cases hv : Visits buf.length offset i
    · exact .inl ⟨rfl, hv⟩
    · rw [h.other f i fun hn => hv hn.2, hnone] at hi
      cases hi
  have hdirty : ∀ i, d₁.IsDirty f i ↔ Visits buf.length offset i := by
    intro i
    rw [h.isDirty]
    constructor
    · rintro (⟨_, hv⟩ | hd)
      · exact hv
      · exact (H.cache.not_isDirty_of_read ((read_eq_none_iff H).mpr (hnone i)) hd).elim
    · intro hv
      exact .inl ⟨rfl, hv⟩
  obtain ⟨d₂, e₂, hx, _, _, hnet⟩ := execute_spec (f := f) (e := net₁)
    DataOnFlush.onFlush_spec (fun _ _ => rfl) h.wf hall
  refine ⟨d₂, e₂, (Exec.bind_of_ok hw).trans hx, ?_⟩
  intro x
  rw [Net.held, hnet]
  simp only [hdirty]
  by_cases hk : toInt (x / CHUNK_SIZE) = toInt (offset / CHUNK_SIZE)
  · rw [if_pos hk, if_pos (.inl hk), hk, h.first, hnone]; rfl
  rw [if_neg hk]
  by_cases hv : Visits buf.length offset (toInt (x / CHUNK_SIZE))
  · obtain ⟨hcross, hk'⟩ := hv.resolve_left hk
    rw [if_pos hv, if_pos hv, hk', h.second hcross, hnone]; rfl
  · rw [if_neg hv, if_neg hv]; rfl

/-- The second flush leaves a byte `b` at position `x` alone: in the written chunk it is a zero
before the range, and it is not in a next chunk that the range reaches. (The other case is a chunk
`2 ^ 32` chunks away, which has the same key.) -/
def Survives (buf : List Byte) (offset x : Nat) (b : Byte) : Prop :=
  (toInt (x / CHUNK_SIZE) = toInt (offset / CHUNK_SIZE) →
    x % CHUNK_SIZE < offset % CHUNK_SIZE ∧ b = 0 ∨
      offset % CHUNK_SIZE ≤ x % CHUNK_SIZE ∧
        buf[x % CHUNK_SIZE - offset % CHUNK_SIZE]? = some b) ∧
  (CHUNK_SIZE ≤ offset % CHUNK_SIZE + buf.length →
    toInt (x / CHUNK_SIZE) ≠ toInt (offset / CHUNK_SIZE + 1))

theorem survives_iff : Survives buf offset x b ↔
    (toInt (x / CHUNK_SIZE) = toInt (offset / CHUNK_SIZE) →
      (Vec.store 0 [] (offset % CHUNK_SIZE) buf)[x % CHUNK_SIZE]? = some b) ∧
    (toInt (x / CHUNK_SIZE) ≠ toInt (offset / CHUNK_SIZE) →
      ¬Visits buf.length offset (toInt (x / CHUNK_SIZE))) := by
  have hne := toInt_succ_ne (offset / CHUNK_SIZE)
  apply and_congr
  · apply imp_congr_right
    intro hk
    rw [Vec.getElem?_store]
    by_cases hx : x % CHUNK_SIZE < offset % CHUNK_SIZE
    · rw [if_neg fun h => Nat.not_le_of_lt hx h.1, if_neg (by simp), if_pos hx]
      simp [hx, eq_comm]
    · have hx := Nat.le_of_not_lt hx
      by_cases hin : x % CHUNK_SIZE < offset % CHUNK_SIZE + buf.length
      · rw [if_pos ⟨hx, hin⟩]
        simp [hx, Nat.not_lt_of_le hx]
      · rw [if_neg fun h => hin h.2, if_neg (by simp), if_neg (Nat.not_lt_of_le hx),
          List.getElem?_eq_none (by omega)]
        simp [Nat.not_lt_of_le hx]
  · by_cases hk : toInt (x / CHUNK_SIZE) = toInt (offset / CHUNK_SIZE)
    · simp [hk, hne.symm]
    · simp [hk, Visits]

/-- A write into a file that was flushed, and the second flush, keep what the servers held of the
rest of the file if and only if the write fits in a chunk and the rest survives it. -/
theorem partial_write_keeps_iff (f : Str) (ws : List (List Byte × Nat)) {d₁ : DataSink}
    {net₀ net₁ : Net}
    (h : buildFile f ws (.empty, net₀) = .ok () (d₁, net₁))
    (buf : List Byte) (offset : Nat) (ho : buf.length + offset < 2 ^ 64) :
    (∃ d₂ net₂, rewriteFile f buf offset (d₁, net₁) = .ok () (d₂, net₂) ∧
      ∀ x < fileEnd ws, ¬(offset ≤ x ∧ x < offset + buf.length) →
        ∀ b, net₁.held f x = some b → net₂.held f x = some b) ↔
    buf.length ≤ CHUNK_SIZE ∧ ∀ x < fileEnd ws, ¬(offset ≤ x ∧ x < offset + buf.length) →
      ∀ b, net₁.held f x = some b → Survives buf offset x b := by
  obtain ⟨H, hnone⟩ := flushed_ok h
  by_cases hs : buf.length ≤ CHUNK_SIZE
  · obtain ⟨d₂, net₂, hrun, hheld⟩ : ∃ d₂ net₂,
        rewriteFile f buf offset (d₁, net₁) = .ok () (d₂, net₂) ∧ _ := rewrite_ok H hnone hs ho
    have hiff : ∀ x b, net₁.held f x = some b →
        (net₂.held f x = some b ↔ Survives buf offset x b) := by
      intro x b hb
      rw [hheld, survives_iff]
      split
      · next hk => simp [hk]
      · next hk => split <;> simp_all
    constructor
    · rintro ⟨d₃, net₃, hrun', hkeep⟩
      cases hrun.symm.trans hrun'
      exact ⟨hs, fun x hx hout b hb => (hiff x b hb).mp (hkeep x hx hout b hb)⟩
    · rintro ⟨_, hkeep⟩
      exact ⟨d₂, net₂, hrun, fun x hx hout b hb => (hiff x b hb).mpr (hkeep x hx hout b hb)⟩
  · refine iff_of_false ?_ fun h => hs h.1
    rintro ⟨d₂, net₂, hrun, _⟩
    obtain ⟨d', hover⟩ := write_overrun (f := f) (e := net₁) H (Nat.lt_of_not_le hs) ho
    cases (Exec.bind_of_error hover).symm.trans hrun

/-- Two bytes, a zero first, and a later write of the second one: the zero survives. -/
theorem partial_write_keeps_iff_example : ∃ d₁ net₁,
    buildFile ['/', 'f'] [([0, 5], 0)] (.empty, emptyNet) = .ok () (d₁, net₁) ∧
    ∃ d₂ net₂, rewriteFile ['/', 'f'] [9] 1 (d₁, net₁) = .ok () (d₂, net₂) ∧
      ∀ x < 2, ¬(1 ≤ x ∧ x < 2) → ∀ b, net₁.held ['/', 'f'] x = some b →
        net₂.held ['/', 'f'] x = some b := by
  have h : (Exec.result? (buildFile ['/', 'f'] [([0, 5], 0)] (.empty, emptyNet))).map
      (fun r => r.2.2.held ['/', 'f'] 0) = some (some 0) := by decide +kernel
  obtain ⟨⟨_, d₁, net₁⟩, hrun, hb⟩ := Option.map_eq_some_iff.mp h
  have hrun := Exec.eq_ok_of_result? hrun
  refine ⟨d₁, net₁, hrun, (partial_write_keeps_iff _ _ hrun [9] 1 (by decide)).mpr
    ⟨by simp [CHUNK_SIZE_eq], ?_⟩⟩
  intro x hx hout b hx'
  have hx : x < 2 := hx
  obtain rfl : x = 0 := by simp only [List.length_singleton] at hout; omega
  cases Option.some.inj (hb.symm.trans hx')
  constructor <;> simp [CHUNK_SIZE_eq]

/-- Three bytes, and a later write of the second one: the first one is a zero now. -/
theorem exists_rest_lost : ∃ d₁ net₁ d₂ net₂,
    buildFile ['/', 'f'] [([1, 2, 3], 0)] (.empty, emptyNet) = .ok () (d₁, net₁) ∧
    rewriteFile ['/', 'f'] [9] 1 (d₁, net₁) = .ok () (d₂, net₂) ∧
    net₁.held ['/', 'f'] 0 = some 1 ∧ net₂.held ['/', 'f'] 0 = some 0 := by
  have h : (Exec.result? (buildFile ['/', 'f'] [([1, 2, 3], 0)] (.empty, emptyNet))).map
      (fun r => r.2.2.held ['/', 'f'] 0) = some (some 1) := by decide +kernel
  have h' : (Exec.result? ((buildFile ['/', 'f'] [([1, 2, 3], 0)] >>= fun _ =>
      rewriteFile ['/', 'f'] [9] 1) (.empty, emptyNet))).map
      (fun r => r.2.2.held ['/', 'f'] 0) = some (some 0) := by decide +kernel
  obtain ⟨⟨_, d₁, net₁⟩, hrun, hb⟩ := Option.map_eq_some_iff.mp h
  have hrun := Exec.eq_ok_of_result? hrun
  rw [Exec.bind_of_ok hrun] at h'
  obtain ⟨⟨_, d₂, net₂⟩, hrun', hb'⟩ := Option.map_eq_some_iff.mp h'
  exact ⟨d₁, net₁, d₂, net₂, hrun, Exec.eq_ok_of_result? hrun', hb, hb'⟩

end ColonyFS

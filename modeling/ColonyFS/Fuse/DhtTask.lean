import ColonyFS.Api.Aggregator
import ColonyFS.Lib.Machine

/-!
# Background flushes (`fuse/colonyfs_fusexx.hpp`, `dht_task`)

`flush` starts a `dht_task` and returns. The task walks over the chunks of its file, hands the dirty
ones to `OnFlush`, and drops the chunks from the cache at the end, while further writes go on. Each
call of the cache is atomic for one statement only: `invalidate` and `purge` do not take the mutex
of the entry that `operator()` and `operator[]` take.

The machine here interleaves writes on one file with any number of tasks for it. Its state keeps a
log, newest event first, of what was stored and of what was handed to `OnFlush`.
-/

namespace ColonyFS

open Std

/-- What matters for the question whether a byte is lost. -/
inductive Event where
  /-- A completed write put bytes into a chunk. -/
  | stored (s : Store)
  /-- `OnFlush` got the chunk with this content. -/
  | handed (cuid : Int) (copy : List Byte)
  deriving DecidableEq, Repr

/-- Where a task is in `execute`. -/
inductive Pc where
  /-- Before the loop of `data_sink_.invalidate`. -/
  | start
  /-- The iterator is at chunk `i`; `read_dirty` is next. -/
  | visit (i : Int)
  /-- `OnFlush` is next, for the object at `p`. -/
  | flush (i : Int) (p : Ptr)
  /-- `dirty_.erase` is next. -/
  | clear (i : Int)
  /-- The iterator is incremented next. -/
  | advance (i : Int)
  /-- `data_sink_.purge` is next. -/
  | purge
  | done
  deriving DecidableEq, Repr

structure FlushState where
  sink : DataSink
  log : List Event
  /-- The tasks in the order in which `flush` made them. -/
  tasks : List Pc

namespace FlushState

def init : FlushState := ⟨.empty, [], []⟩

end FlushState

inductive FlushAct where
  | write (buffer : List Byte) (offset : Nat)
  /-- `flush` makes a task. -/
  | spawn
  /-- The next step of a task. -/
  | task (t : Nat)
  deriving DecidableEq, Repr

namespace DhtTask

/-- The policy of the data cache, reduced to what `OnFlush` is called with. -/
def handOver : Policy ChunkData (List Event) where
  preRead v := pure v
  onErase _ := pure ()
  onFlush v := modify (.handed v.cuid v.data :: ·)

/-- What follows a call that returns. One through a dangling pointer is undefined and has no
successor. -/
def after {α : Type} (pc : Pc) : EStateM.Result Stop (DataSink × List Event) α →
    Option (DataSink × List Event × Pc)
  | .ok _ (d, log) => some (d, log, pc)
  | .error .. => none

/-- The iterator of the walk over the index: its position, or the end of the loop. -/
def position : Option Int → Pc
  | some i => .visit i
  | none => .purge

/-- One step of `execute`. The loop runs over the live set, which writes may add to. -/
def taskStep (f : Str) (d : DataSink) (log : List Event) : Pc → Option (DataSink × List Event × Pc)
  | .start => some (d, log, position (d.index f).toList.head?)
  | .visit i =>
    match d.cache.impl.readDirty ⟨f, i⟩ with
    | none => some (d, log, .advance i)
    | some p => some (d, log, .flush i p)
  | .flush i p => after (.clear i) (DataSink.onCache (Cache.onFlush handOver p) (d, log))
  | .clear i => after (.advance i) (DataSink.onCache (Cache.clearDirty ⟨f, i⟩) (d, log))
  | .advance i => some (d, log, position ((d.index f).toList.find? (i < ·)))
  | .purge => after .done (DataSink.purge handOver f (d, log))
  | .done => none

/-- One step of the machine. A write whose behaviour is undefined has no successor. -/
def step (f : Str) (s : FlushState) : FlushAct → Option FlushState
  | .write buffer offset =>
    match DataSink.write f buffer buffer.length offset (s.sink, s.log) with
    | .ok _ (d, log) => some { s with
        sink := d
        log := ((segments buffer.length offset).map (Segment.store buffer)).foldl
          (fun log st => .stored st :: log) log }
    | .error _ _ => none
  | .spawn => some { s with tasks := s.tasks ++ [.start] }
  | .task t => do
    let (d, log, pc) ← taskStep f s.sink s.log (← s.tasks[t]?)
    some ⟨d, log, s.tasks.set t pc⟩

end DhtTask

/-! ## Lost and kept bytes -/

/-- The byte that a store puts at position `x` of chunk `i`. -/
def Store.byteAt (s : Store) (i : Int) (x : Nat) : Option Byte :=
  if s.cuid = i ∧ s.start ≤ x then s.bytes[x - s.start]? else none

/-- `b` was stored at position `x` of chunk `i` and not overwritten; `since` is what happened
later. -/
def Live (log : List Event) (i : Int) (x : Nat) (b : Byte) (since : List Event) : Prop :=
  ∃ s before, log = since ++ .stored s :: before ∧ s.byteAt i x = some b ∧
    ∀ s', .stored s' ∈ since → s'.byteAt i x = none

/-- A copy of chunk `i` with `b` at position `x` was handed over. -/
def HandedByte (i : Int) (x : Nat) (b : Byte) (since : List Event) : Prop :=
  ∃ copy, .handed i copy ∈ since ∧ copy[x]? = some b

/-- No byte is lost: each live one is in a copy handed over after the write, or in a cached chunk
that is marked dirty. -/
def Kept (f : Str) (d : DataSink) (log : List Event) : Prop :=
  ∀ i x b since, Live log i x b since → HandedByte i x b since ∨
    d.IsDirty f i ∧ ∃ v, d.chunk? f i = some v ∧ v[x]? = some b

/-- Chunk `i` was handed over after the last time bytes were stored in it. -/
def Flushed (i : Int) : List Event → Prop
  | [] => True
  | .stored s :: log => ¬(s.cuid = i ∧ s.bytes ≠ []) ∧ Flushed i log
  | .handed j _ :: log => j = i ∨ Flushed i log

instance decidableFlushed (i : Int) : (log : List Event) → Decidable (Flushed i log)
  | [] => inferInstanceAs (Decidable True)
  | .stored s :: log =>
    have := decidableFlushed i log
    inferInstanceAs (Decidable (¬(s.cuid = i ∧ s.bytes ≠ []) ∧ Flushed i log))
  | .handed j _ :: log =>
    have := decidableFlushed i log
    inferInstanceAs (Decidable (j = i ∨ Flushed i log))

variable {f : Str} {d d' : DataSink} {log since : List Event} {i j : Int} {x : Nat} {b : Byte}
  {s : Store} {copy : List Byte} {e : Event}

/-- A live byte of a longer log was put there by the newest event, or was live before it. -/
theorem live_cons : Live (e :: log) i x b since ↔
    (since = [] ∧ ∃ s, e = .stored s ∧ s.byteAt i x = some b) ∨
      ∃ since', since = e :: since' ∧ Live log i x b since' ∧
        ∀ s, e = .stored s → s.byteAt i x = none := by
  constructor
  · rintro ⟨s, before, he, hb, hnone⟩
    cases since with
    | nil =>
      obtain ⟨rfl, rfl⟩ := List.cons.inj he
      exact .inl ⟨rfl, s, rfl, hb⟩
    | cons e' since' =>
      obtain ⟨rfl, rfl⟩ := List.cons.inj he
      refine .inr ⟨since', rfl, ⟨s, before, rfl, hb, ?_⟩, ?_⟩
      · intro s' hs'
        exact hnone s' (List.mem_cons_of_mem _ hs')
      · rintro s' rfl
        exact hnone s' List.mem_cons_self
  · rintro (⟨rfl, s, rfl, hb⟩ | ⟨since', rfl, ⟨s, before, rfl, hb, hnone⟩, he⟩)
    · exact ⟨s, log, rfl, hb, by simp⟩
    · refine ⟨s, before, rfl, hb, ?_⟩
      intro s' hs'
      obtain h | hs' := List.mem_cons.mp hs'
      · exact he s' h.symm
      · exact hnone s' hs'

theorem HandedByte.cons (h : HandedByte i x b since) : HandedByte i x b (e :: since) :=
  h.imp fun _ h => ⟨List.mem_cons_of_mem _ h.1, h.2⟩

theorem Live.stored (h : Live log i x b since) :
    ∃ s, .stored s ∈ log ∧ s.byteAt i x = some b := by
  obtain ⟨s, before, rfl, hb, _⟩ := h
  exact ⟨s, by simp, hb⟩

theorem Store.byteAt_eq_some (h : s.byteAt i x = some b) :
    s.cuid = i ∧ s.start ≤ x ∧ x < s.start + s.bytes.length ∧ s.bytes[x - s.start]? = some b := by
  simp only [Store.byteAt] at h
  split at h
  · next hc =>
    have := (List.getElem?_eq_some_iff.mp h).1
    exact ⟨hc.1, hc.2, by omega, h⟩
  · cases h

theorem Store.byteAt_eq_none (h : ¬(s.cuid = i ∧ s.bytes ≠ [])) : s.byteAt i x = none := by
  cases hb : s.byteAt i x with
  | none => rfl
  | some b =>
    obtain ⟨hi, _, _, hx⟩ := Store.byteAt_eq_some hb
    refine (h ⟨hi, ?_⟩).elim
    intro hn
    rw [hn] at hx; cases hx

/-- A flushed chunk was handed over after each of its writes. -/
theorem Flushed.handed (hf : Flushed i log) (h : Live log i x b since) :
    ∃ copy, .handed i copy ∈ since := by
  induction log generalizing since with
  | nil => obtain ⟨s, hs, _⟩ := h.stored; cases hs
  | cons e log ih =>
    obtain ⟨rfl, s, rfl, hb⟩ | ⟨since', rfl, hl, _⟩ := live_cons.mp h
    · rw [Store.byteAt_eq_none hf.1] at hb; cases hb
    · cases e with
      | stored s =>
        obtain ⟨copy, hc⟩ := ih hf.2 hl
        exact ⟨copy, List.mem_cons_of_mem _ hc⟩
      | handed j copy =>
        rcases hf with rfl | hf
        · exact ⟨copy, List.mem_cons_self⟩
        · obtain ⟨copy, hc⟩ := ih hf hl
          exact ⟨copy, List.mem_cons_of_mem _ hc⟩

/-- A chunk that is not flushed has a live byte that was not handed over since. -/
theorem exists_live_of_not_flushed (hf : ¬Flushed i log) :
    ∃ x b since, Live log i x b since ∧ ∀ copy, .handed i copy ∉ since := by
  induction log with
  | nil => exact (hf trivial).elim
  | cons e log ih =>
    cases e with
    | stored s =>
      by_cases hs : s.cuid = i ∧ s.bytes ≠ []
      · obtain ⟨b, bs, hb⟩ := List.exists_cons_of_ne_nil hs.2
        refine ⟨s.start, b, [], live_cons.mpr (.inl ⟨rfl, s, rfl, ?_⟩), by simp⟩
        simp [Store.byteAt, hs.1, hb]
      · obtain ⟨x, b, since, h, hno⟩ := ih fun hlog => hf ⟨hs, hlog⟩
        refine ⟨x, b, .stored s :: since, live_cons.mpr (.inr ⟨since, rfl, h, ?_⟩), ?_⟩
        · rintro _ ⟨⟩; exact Store.byteAt_eq_none hs
        · intro copy hc
          exact hno copy ((List.mem_cons.mp hc).resolve_left nofun)
    | handed j copy =>
      obtain ⟨hj, hlog⟩ := not_or.mp hf
      obtain ⟨x, b, since, h, hno⟩ := ih hlog
      refine ⟨x, b, .handed j copy :: since, live_cons.mpr (.inr ⟨since, rfl, h, nofun⟩), ?_⟩
      intro copy' hc
      obtain hc | hc := List.mem_cons.mp hc
      · cases hc; exact hj rfl
      · exact hno copy' hc

/-! ## The invariant -/

/-- A live byte whose chunk was handed over since is in one of the copies. With `Kept` it carries
the induction: a hand-over then leaves nothing behind that it should have taken along. -/
def Complete (log : List Event) : Prop :=
  ∀ i x b since, Live log i x b since → (∃ copy, .handed i copy ∈ since) → HandedByte i x b since

/-- What holds of the store and the log between any two steps. -/
structure Durable (f : Str) (d : DataSink) (log : List Event) : Prop where
  wf : d.WF
  indexed : ∀ s, .stored s ∈ log → s.cuid ∈ d.index f
  kept : Kept f d log
  complete : Complete log

namespace Durable

theorem empty : Durable f .empty [] where
  wf := .empty
  indexed _ h := by cases h
  kept _ _ _ _ h := by obtain ⟨s, hs, _⟩ := h.stored; cases hs
  complete _ _ _ _ h := by obtain ⟨s, hs, _⟩ := h.stored; cases hs

/-- A turn of `write`: the new bytes are in a dirty chunk, and so are the old ones next to them. -/
theorem wrote (H : Durable f d log) (h : DataSink.Wrote f d s d') :
    Durable f d' (.stored s :: log) where
  wf := h.wf
  indexed t ht := by
    obtain ht | ht := List.mem_cons.mp ht
    · cases ht; exact (h.index f s.cuid).mpr (.inl ⟨rfl, rfl⟩)
    · exact (h.index f t.cuid).mpr (.inr (H.indexed t ht))
  kept i x b since hl := by
    obtain ⟨rfl, t, ht, hb⟩ | ⟨since', rfl, hl, hnone⟩ := live_cons.mp hl
    · cases ht
      obtain ⟨rfl, hle, hlt, hx⟩ := Store.byteAt_eq_some hb
      have hnew := (h.chunk? f s.cuid).trans (if_pos ⟨rfl, rfl⟩)
      refine .inr ⟨(h.isDirty f s.cuid).mpr (.inl ⟨rfl, rfl⟩), _, hnew, ?_⟩
      rw [Vec.getElem?_store_of_mem hle hlt, hx]
    · rcases H.kept i x b since' hl with hh | ⟨hd, v, hv, hx⟩
      · exact .inl hh.cons
      refine .inr ⟨(h.isDirty f i).mpr (.inr hd), ?_⟩
      obtain rfl | hi := eq_or_ne i s.cuid
      · have hout := hnone s rfl
        refine ⟨_, (h.chunk? f s.cuid).trans (if_pos ⟨rfl, rfl⟩), ?_⟩
        have hlen := (List.getElem?_eq_some_iff.mp hx).1
        rw [hv, Option.getD_some, Vec.getElem?_store_of_not_mem _ hlen]
        · exact hx
        · rintro ⟨hle, hlt⟩
          rw [Store.byteAt, if_pos ⟨rfl, hle⟩, List.getElem?_eq_none_iff] at hout
          omega
      · exact ⟨v, by rw [h.chunk?, if_neg fun hc => hi hc.2]; exact hv, hx⟩
  complete i x b since hl := by
    obtain ⟨rfl, t, ht, hb⟩ | ⟨since', rfl, hl, hnone⟩ := live_cons.mp hl
    · rintro ⟨_, hc⟩; cases hc
    · rintro ⟨copy, hc⟩
      exact (H.complete i x b since' hl ⟨copy, (List.mem_cons.mp hc).resolve_left nofun⟩).cons

theorem wroteAll {ss : List Store} (H : Durable f d log) (h : DataSink.WroteAll f d ss d') :
    Durable f d' (ss.foldl (fun log s => .stored s :: log) log) := by
  induction h generalizing log with
  | nil => exact H
  | cons h _ ih => exact ih (H.wrote h)

/-- A hand-over of the chunk as it is cached. -/
theorem handed (H : Durable f d log) {v : List Byte} (hv : d.chunk? f j = some v) :
    Durable f d (.handed j v :: log) where
  wf := H.wf
  indexed s hs := H.indexed s ((List.mem_cons.mp hs).resolve_left nofun)
  kept i x b since hl := by
    obtain ⟨_, t, ht, _⟩ | ⟨since', rfl, hl, _⟩ := live_cons.mp hl
    · cases ht
    · exact (H.kept i x b since' hl).imp_left HandedByte.cons
  complete i x b since hl := by
    obtain ⟨_, t, ht, _⟩ | ⟨since', rfl, hl, _⟩ := live_cons.mp hl
    · cases ht
    rintro ⟨copy, hc⟩
    rcases H.kept i x b since' hl with hh | ⟨_, w, hw, hx⟩
    · exact hh.cons
    obtain hc | hc := List.mem_cons.mp hc
    · cases hc
      cases Option.some.inj (hv.symm.trans hw)
      exact ⟨_, List.mem_cons_self, hx⟩
    · exact (H.complete i x b since' hl ⟨copy, hc⟩).cons

/-- A step that takes away marks or chunks, of flushed chunks only. -/
theorem dropped (H : Durable f d log) (wf : d'.WF) (index : ∀ i, i ∈ d'.index f ↔ i ∈ d.index f)
    (drop : ∀ i, (d'.IsDirty f i ↔ d.IsDirty f i) ∧ d'.chunk? f i = d.chunk? f i ∨ Flushed i log) :
    Durable f d' log where
  wf := wf
  indexed s hs := (index _).mpr (H.indexed s hs)
  kept i x b since hl := by
    rcases drop i with ⟨hd, hc⟩ | hf
    · rw [hd, hc]; exact H.kept i x b since hl
    · exact .inl (H.complete i x b since hl (hf.handed hl))
  complete := H.complete

end Durable

/-- A chunk that is neither flushed nor dirty has lost a byte. -/
theorem not_kept (hf : ¬Flushed i log) (hd : ¬d.IsDirty f i) : ¬Kept f d log := by
  intro hk
  obtain ⟨x, b, since, hl, hno⟩ := exists_live_of_not_flushed hf
  rcases hk i x b since hl with ⟨copy, hc, _⟩ | ⟨hd', _⟩
  · exact hno copy hc
  · exact hd hd'

/-! ## Steps -/

namespace DhtTask

/-- When a task clears a mark or drops the chunks, what it clears or drops is flushed. -/
def taskOk (f : Str) (d : DataSink) (log : List Event) : Pc → Prop
  | .clear i => Flushed i log
  | .purge => ∀ i ∈ (d.index f).toList, Flushed i log
  | _ => True

/-- The condition on the steps of a run. -/
def Ok (f : Str) (s : FlushState) : FlushAct → Prop
  | .task t => ∀ pc ∈ s.tasks[t]?, taskOk f s.sink s.log pc
  | _ => True

instance (f : Str) (d : DataSink) (log : List Event) : DecidablePred (taskOk f d log)
  | .clear i => inferInstanceAs (Decidable (Flushed i log))
  | .purge => inferInstanceAs (Decidable (∀ i ∈ (d.index f).toList, Flushed i log))
  | .start | .visit _ | .flush _ _ | .advance _ | .done => inferInstanceAs (Decidable True)

instance (f : Str) (s : FlushState) : DecidablePred (Ok f s)
  | .task t => inferInstanceAs (Decidable (∀ pc ∈ s.tasks[t]?, taskOk f s.sink s.log pc))
  | .write _ _ | .spawn => inferInstanceAs (Decidable True)

/-- A task that is about to call `OnFlush` has the chunk, or a dangling pointer. -/
def HasHandle (f : Str) (d : DataSink) (pc : Pc) : Prop :=
  ∀ i p, pc = .flush i p → d.cache.impl.Handle ⟨f, i⟩ p

/-- What holds between any two steps of a run that meets the condition. -/
structure Inv (f : Str) (s : FlushState) : Prop where
  durable : Durable f s.sink s.log
  handle : ∀ pc ∈ s.tasks, HasHandle f s.sink pc

theorem HasHandle.mono {pc : Pc} (H : HasHandle f d pc)
    (h : ∀ k p, d.cache.impl.Handle k p → d'.cache.impl.Handle k p) : HasHandle f d' pc :=
  fun i p hpc => h _ _ (H i p hpc)

theorem hasHandle_of_ne {pc : Pc} (h : ∀ i p, pc ≠ .flush i p) : HasHandle f d pc :=
  fun i p hpc => (h i p hpc).elim

theorem hasHandle_position {o : Option Int} : HasHandle f d (position o) := by
  cases o <;> rintro i p ⟨⟩

variable {log' : List Event} {pc pc' : Pc} {p : Ptr}

/-- `OnFlush` hands over the chunk. -/
theorem after_onFlush (H : d.WF) (h : d.cache.impl.Handle ⟨f, i⟩ p)
    (hrun : after pc (DataSink.onCache (Cache.onFlush handOver p) (d, log)) = some (d', log', pc')) :
    pc' = pc ∧ d' = d ∧ ∃ v, d.chunk? f i = some v ∧ log' = .handed i v :: log := by
  cases hv : d.cache.impl.heap p with
  | none =>
    have hderef : (Cache.deref p : CacheM _ _ _ _) (d.cache, log) =
        .error .undefined (d.cache, log) := by
      simp [Cache.deref, bind, EStateM.bind, get, getThe, MonadStateOf.get, EStateM.get, hv]; rfl
    have hf : Cache.onFlush handOver p (d.cache, log) = .error .undefined (d.cache, log) :=
      Exec.bind_of_error hderef
    rw [DataSink.onCache_error hf] at hrun
    cases hrun
  | some v =>
    obtain ⟨w, hw, hdata, _, hi⟩ := DataSink.getKey_of_read H (h.read v hv)
    cases Option.some.inj (hv.symm.trans hw)
    have hf : Cache.onFlush handOver p (d.cache, log) =
        .ok () (d.cache, .handed v.cuid v.data :: log) := Cache.onFlush_apply hv
    rw [DataSink.onCache_ok hf, after, hi] at hrun
    cases hrun
    exact ⟨rfl, rfl, v.data, hdata, rfl⟩

/-- A step of a task that meets the condition. -/
theorem taskStep_durable (H : Durable f d log) (hp : HasHandle f d pc) (hok : taskOk f d log pc)
    (h : taskStep f d log pc = some (d', log', pc')) :
    Durable f d' log' ∧ HasHandle f d' pc' ∧
      ∀ k p, d.cache.impl.Handle k p → d'.cache.impl.Handle k p := by
  cases pc with
  | start =>
    cases h
    exact ⟨H, hasHandle_position, fun _ _ h => h⟩
  | visit i =>
    simp only [taskStep] at h
    split at h
    · cases h
      exact ⟨H, hasHandle_of_ne (by simp), fun _ _ h => h⟩
    · next p hr =>
      cases h
      refine ⟨H, ?_, fun _ _ h => h⟩
      rintro j q ⟨⟩
      simp only [BasicCache.readDirty] at hr
      split at hr
      · exact .of_read H.wf.cache hr
      · cases hr
  | flush i p =>
    obtain ⟨rfl, rfl, v, hv, rfl⟩ := after_onFlush H.wf (hp i p rfl) h
    exact ⟨H.handed hv, hasHandle_of_ne (by simp), fun _ _ h => h⟩
  | clear i =>
    cases h
    refine ⟨H.dropped (DataSink.wf_clearDirty H.wf) (fun _ => .rfl) ?_, hasHandle_of_ne (by simp),
      ?_⟩
    · intro j
      obtain rfl | hij := eq_or_ne i j
      · exact .inr hok
      · have hother : ¬(f = f ∧ j = i) := fun h => hij h.2.symm
        exact .inl ⟨DataSink.isDirty_clearDirty.trans (and_iff_right hother), rfl⟩
    · intro k q hq
      exact ⟨hq.lt, hq.read⟩
  | advance i =>
    cases h
    exact ⟨H, hasHandle_position, fun _ _ h => h⟩
  | purge =>
    obtain ⟨d₁, hrun, hpur⟩ := DataSink.purge_spec (P := handOver) (f := f) (e := log)
      (fun _ _ => rfl) H.wf
    simp only [taskStep, hrun, after] at h
    cases h
    refine ⟨H.dropped hpur.wf ?_ ?_, hasHandle_of_ne (by simp), hpur.handle⟩
    · intro i
      rw [hpur.index]
    · intro i
      by_cases hi : i ∈ d.index f
      · exact .inr (hok i (ExtTreeSet.mem_toList.mpr hi))
      · have hi : ¬(f = f ∧ i ∈ (d.index f).toList) := by simpa using hi
        refine .inl ⟨(hpur.isDirty f i).trans (and_iff_right hi), ?_⟩
        rw [hpur.chunk?, if_neg hi]
  | done => cases h

/-- A step of a task that does not meet the condition loses a byte. -/
theorem taskStep_not_kept (H : d.WF) (hok : ¬taskOk f d log pc)
    (h : taskStep f d log pc = some (d', log', pc')) : ¬Kept f d' log' := by
  cases pc with
  | clear i =>
    cases h
    exact not_kept hok fun hd => (BasicCache.isDirty_clearDirty.mp hd).1 rfl
  | purge =>
    obtain ⟨d₁, hrun, hpur⟩ := DataSink.purge_spec (P := handOver) (f := f) (e := log)
      (fun _ _ => rfl) H
    simp only [taskStep, hrun, after] at h
    cases h
    simp only [taskOk, not_forall] at hok
    obtain ⟨i, hi, hf⟩ := hok
    exact not_kept hf fun hd => ((hpur.isDirty f i).mp hd).1 ⟨rfl, hi⟩
  | _ => exact (hok trivial).elim

variable {s s' : FlushState} {a : FlushAct}

/-- What a step can be. -/
theorem step_cases (H : s.sink.WF) (h : step f s a = some s') :
    (∃ buf offset, a = .write buf offset ∧ s'.tasks = s.tasks ∧
      DataSink.WroteAll f s.sink ((segments buf.length offset).map (Segment.store buf)) s'.sink ∧
      s'.log = ((segments buf.length offset).map (Segment.store buf)).foldl
        (fun log st => .stored st :: log) s.log) ∨
    (a = .spawn ∧ s' = { s with tasks := s.tasks ++ [.start] }) ∨
    (∃ t pc pc', a = .task t ∧ s.tasks[t]? = some pc ∧
      taskStep f s.sink s.log pc = some (s'.sink, s'.log, pc') ∧ s'.tasks = s.tasks.set t pc') := by
  cases a with
  | write buf offset =>
    simp only [step] at h
    split at h
    · next d' log' hw =>
      cases h
      obtain ⟨rfl, hall, _⟩ := DataSink.write_ok H hw
      exact .inl ⟨buf, offset, rfl, rfl, hall, rfl⟩
    · cases h
  | spawn => cases h; exact .inr (.inl ⟨rfl, rfl⟩)
  | task t =>
    obtain ⟨pc, hpc, h⟩ := Option.bind_eq_some_iff.mp h
    obtain ⟨⟨d', log', pc'⟩, hstep, h⟩ := Option.bind_eq_some_iff.mp h
    cases h
    exact .inr (.inr ⟨t, pc, pc', rfl, hpc, hstep, rfl⟩)

theorem inv_init : Inv f .init := ⟨.empty, fun _ h => nomatch h⟩

theorem inv_step (H : Inv f s) (hok : Ok f s a) (h : step f s a = some s') : Inv f s' := by
  obtain ⟨buf, offset, rfl, ht, hw, hlog⟩ | ⟨rfl, rfl⟩ | ⟨t, pc, pc', rfl, hpc, hstep, ht⟩ :=
    step_cases H.durable.wf h
  · refine ⟨hlog ▸ H.durable.wroteAll hw, ?_⟩
    intro pc hpc
    exact (H.handle pc (ht ▸ hpc)).mono hw.handle
  · refine ⟨H.durable, ?_⟩
    intro pc hpc
    obtain hpc | hpc := List.mem_append.mp hpc
    · exact H.handle pc hpc
    · cases List.mem_singleton.mp hpc; rintro i p ⟨⟩
  · obtain ⟨hd, hh, hmono⟩ := taskStep_durable H.durable
      (H.handle pc (List.mem_of_getElem? hpc)) (hok pc hpc) hstep
    refine ⟨hd, ?_⟩
    intro pc'' hpc''
    rw [ht] at hpc''
    obtain hpc'' | rfl := List.mem_or_eq_of_mem_set hpc''
    · exact (H.handle pc'' hpc'').mono hmono
    · exact hh

theorem inv_of_reach (h : Machine.Reach (step f) (Ok f) .init s) : Inv f s :=
  h.invariant inv_init fun _ _ _ H hok hstep => inv_step H hok hstep

/-- A write between `OnFlush` and the statement that clears the mark: its byte is neither handed
over nor dirty. -/
theorem exists_lost : ∃ s, Machine.Reach (step ['/', 'f']) Machine.always .init s ∧
    ¬Kept ['/', 'f'] s.sink s.log := by
  have h : (Machine.run (step ['/', 'f']) .init [.write [1] 0, .spawn, .task 0, .task 0, .task 0,
      .write [2] 0, .task 0]).map (fun s => (s.log, decide (s.sink.IsDirty ['/', 'f'] 0))) =
      some ([.stored ⟨0, 0, [2]⟩, .handed 0 [1], .stored ⟨0, 0, [1]⟩], false) := by
    decide +kernel
  obtain ⟨s, hs, hlog⟩ := Option.map_eq_some_iff.mp h
  obtain ⟨hlog, hd⟩ := Prod.mk.inj hlog
  refine ⟨s, .of_run _ hs, not_kept (i := 0) ?_ (of_decide_eq_false hd)⟩
  rw [hlog]; decide

/-- No byte is lost in a run in which marks are cleared and chunks dropped only when the chunk was
handed over after its last write, and the first step that does not meet this loses one. -/
theorem kept_iff_ok (f : Str) {s : FlushState} (hs : Machine.Reach (step f) (Ok f) .init s) :
    Kept f s.sink s.log ∧
      ∀ a s', step f s a = some s' → (Kept f s'.sink s'.log ↔ Ok f s a) := by
  have H := inv_of_reach hs
  refine ⟨H.durable.kept, ?_⟩
  intro a s' hstep
  constructor
  · intro hk
    by_contra hok
    obtain ⟨_, _, rfl, _⟩ | ⟨rfl, _⟩ | ⟨t, pc, pc', rfl, hpc, htask, _⟩ :=
      step_cases H.durable.wf hstep
    · exact hok trivial
    · exact hok trivial
    · apply taskStep_not_kept H.durable.wf _ htask hk
      intro h
      apply hok
      intro pc₁ hpc₁
      cases Option.some.inj (hpc.symm.trans hpc₁)
      exact h
  · intro hok
    exact (inv_step H hok hstep).durable.kept

/-- One write, flushed by one task that nothing interferes with. -/
theorem kept_iff_ok_example : ∃ s, Machine.Reach (step ['/', 'f']) (Ok ['/', 'f']) .init s ∧
    s.tasks = [.done] ∧ Kept ['/', 'f'] s.sink s.log := by
  have h : (Machine.run (Machine.guarded (step ['/', 'f']) (Ok ['/', 'f'])) .init
      [.write [1] 0, .spawn, .task 0, .task 0, .task 0, .task 0, .task 0, .task 0]).map
        (fun s => s.tasks) = some [.done] := by
    decide +kernel
  obtain ⟨s, hs, htasks⟩ := Option.map_eq_some_iff.mp h
  exact ⟨s, .of_run_guarded _ hs, htasks, (kept_iff_ok _ (.of_run_guarded _ hs)).1⟩

end DhtTask

end ColonyFS

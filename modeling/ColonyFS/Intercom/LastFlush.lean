import ColonyFS.Intercom.Deposit

/-!
# Flushing one chunk again and again

One client flushes the same chunk several times, and writes it in between. The DHT puts are made in
order, so the DHT names the host of the last flush in the end. The deposits are on connections of
their own and reach the servers in any order, and a server keeps what it stored last. What a deposit
sends is what the chunk holds when it is sent, which may be what was flushed, or something newer, or
no chunk at all.
-/

namespace ColonyFS

namespace Flush

/-- The bytes that the server is to receive. -/
def arriving? (fl : Flush) : Option (List Byte) :=
  match fl.stage with
  | .data bytes => some bytes
  | .connect | .command | .done _ | .dangling => none

/-- The bytes that the server has stored. -/
def stored? (fl : Flush) : Option (List Byte) :=
  match fl.stage with
  | .done bytes => some bytes
  | .connect | .command | .data _ | .dangling => none

end Flush

namespace Swarm

variable {δ : Type}

/-- One client flushes one chunk: each `OnFlush` returns before the next one is called. -/
def OneClient (k : ChunkKey) (s : Swarm δ) : SwarmAct → Prop
  | .flush p _ => (∀ chunk ∈ s.object? p, chunk.getKey = k) ∧ ∀ fl ∈ s.flushes, fl.published
  | _ => True

instance (k : ChunkKey) (s : Swarm δ) : DecidablePred (OneClient k s)
  | .flush p _ => inferInstanceAs
      (Decidable ((∀ chunk ∈ s.object? p, chunk.getKey = k) ∧ ∀ fl ∈ s.flushes, fl.published))
  | .create _ | .write .. | .free _ | .publish _ | .deposit _ | .retrieve _ | .lookup _ =>
    inferInstanceAs (Decidable True)

/-- A chunk is sent while it is alive and, unless there has been a newer flush, as it was flushed. -/
def InTime (s : Swarm δ) : SwarmAct → Prop
  | .deposit t => ∀ fl ∈ s.flushes[t]?, fl.stage = .command → ∃ chunk ∈ s.object? fl.object,
      t + 1 = s.flushes.length → chunk.data = fl.data
  | _ => True

instance (s : Swarm δ) : DecidablePred s.InTime
  | .deposit t => inferInstanceAs (Decidable (∀ fl ∈ s.flushes[t]?, _ → ∃ chunk ∈ _, _))
  | .create _ | .write .. | .free _ | .flush .. | .publish _ | .retrieve _ | .lookup _ =>
    inferInstanceAs (Decidable True)

/-- A server does not receive a chunk after a newer flush of it with other bytes. -/
def InOrder (s : Swarm δ) : SwarmAct → Prop
  | .deposit t => ∀ fl ∈ s.flushes[t]?, ∀ bytes ∈ fl.arriving?, ∀ u < s.flushes.length, t < u →
      ∀ newer ∈ s.flushes[u]?, newer.host = fl.host → ∀ stored ∈ newer.stored?, stored = bytes
  | _ => True

instance (s : Swarm δ) : DecidablePred s.InOrder
  | .deposit t =>
    inferInstanceAs (Decidable (∀ fl ∈ s.flushes[t]?, ∀ bytes ∈ fl.arriving?,
      ∀ u < s.flushes.length, t < u → ∀ newer ∈ s.flushes[u]?, newer.host = fl.host →
        ∀ stored ∈ newer.stored?, stored = bytes))
  | .create _ | .write .. | .free _ | .flush .. | .publish _ | .retrieve _ | .lookup _ =>
    inferInstanceAs (Decidable True)

/-- No flush is under way. -/
def Quiet (s : Swarm δ) : Prop :=
  ∀ fl ∈ s.flushes, fl.published ∧ (fl.stored?.isSome ∨ fl.stage = .dangling)

instance (s : Swarm δ) : Decidable s.Quiet :=
  inferInstanceAs (Decidable (∀ fl ∈ s.flushes, _))

/-- No chunk was freed before it was sent. -/
def Defined (s : Swarm δ) : Prop := ∀ fl ∈ s.flushes, fl.stage ≠ .dangling

/-- The hosts that were published, oldest first. -/
def publishedHosts (s : Swarm δ) : List Str :=
  ((s.flushes.map fun fl => (fl.published, fl.host)).filter (·.1)).map (·.2)

/-- Every deposit has sent a chunk, and the host that the DHT names holds what `last` flushed. -/
def Wins (dhtKey : ChunkKey → δ) (k : ChunkKey) (last : Flush) (s : Swarm δ) : Prop :=
  s.Defined ∧ ∃ host, s.location (dhtKey k) = some host ∧ s.database host k = some last.data

/-- The newest flush that a host has stored is what it holds. -/
def Newest (k : ChunkKey) (s : Swarm δ) : Prop :=
  ∀ (t : Nat) (fl : Flush) (bytes : List Byte), s.flushes[t]? = some fl → fl.stored? = some bytes →
    (∀ (u : Nat) (newer : Flush), t < u → s.flushes[u]? = some newer → newer.host = fl.host →
      newer.stored? = none) →
    s.database fl.host k = some bytes

/-- What a deposit sends that no newer flush has followed, if it was sent in time. -/
structure Sent (s : Swarm δ) : Prop where
  defined : s.Defined
  last : ∀ (t : Nat) (fl : Flush) (bytes : List Byte), s.flushes[t]? = some fl →
    fl.arriving? = some bytes ∨ fl.stored? = some bytes → t + 1 = s.flushes.length → bytes = fl.data

/-- What holds while one client flushes one chunk: all but the newest flush are published, the DHT
names the host published last, and a host holds what it stored last. -/
structure Sequential (dhtKey : ChunkKey → δ) (k : ChunkKey) (s : Swarm δ) : Prop where
  key : ∀ fl ∈ s.flushes, fl.key = k
  published : ∀ t fl, s.flushes[t]? = some fl → t + 1 < s.flushes.length → fl.published
  location : s.location (dhtKey k) = s.publishedHosts.getLast?
  database : ∀ host, s.database host k = (s.delivered.find? (·.1 = host)).map (·.2)

variable {dhtKey : ChunkKey → δ} {k : ChunkKey} {s s' : Swarm δ} {a : SwarmAct} {fl : Flush}
  {t : Nat} {bytes : List Byte} {stage : DepositStage}

theorem Advances.stage_ne (h : s.Advances fl stage) : fl.arriving? = none ∧ fl.stored? = none ∧
    (∀ bytes, stage ≠ .done bytes) := by
  rcases h with ⟨hs, rfl⟩ | ⟨hs, ⟨chunk, _, rfl⟩ | ⟨_, rfl⟩⟩
  · exact ⟨by rw [Flush.arriving?, hs], by rw [Flush.stored?, hs], fun _ => DepositStage.noConfusion⟩
  · exact ⟨by rw [Flush.arriving?, hs], by rw [Flush.stored?, hs], fun _ => DepositStage.noConfusion⟩
  · exact ⟨by rw [Flush.arriving?, hs], by rw [Flush.stored?, hs], fun _ => DepositStage.noConfusion⟩

/-! ## One client -/

theorem Sequential.init : Sequential dhtKey k (init : Swarm δ) where
  key _ h := by cases h
  published _ _ h := by cases h
  location := rfl
  database _ := rfl

/-- Progress of a deposit does not change which hosts are published. -/
theorem publishedHosts_setFlush (h : s.flushes[t]? = some fl) :
    (s.setFlush t { fl with stage := stage }).publishedHosts = s.publishedHosts := by
  obtain ⟨ht, rfl⟩ := List.getElem?_eq_some_iff.mp h
  simp only [publishedHosts, setFlush, List.map_set]
  congr 2
  apply List.ext_getElem (by simp)
  intro i h1 h2
  rw [List.getElem_set]
  split
  · next hi => subst hi; simp
  · rfl

theorem Sequential.setStage (H : Sequential dhtKey k s) (h : s.flushes[t]? = some fl) :
    Sequential dhtKey k (s.setFlush t { fl with stage := stage }) where
  key fl' hfl' := by
    obtain hfl' | rfl := List.mem_or_eq_of_mem_set hfl'
    · exact H.key fl' hfl'
    · exact H.key fl (List.mem_of_getElem? h)
  published i fl' hi hlt := by
    simp only [setFlush, List.length_set] at hi hlt
    by_cases hit : t = i
    · subst hit
      rw [List.getElem?_set_self (by omega)] at hi
      cases hi
      exact H.published t fl h hlt
    · rw [List.getElem?_set_ne hit] at hi
      exact H.published i fl' hi hlt
  location := H.location.trans (by rw [publishedHosts_setFlush h])
  database := H.database

theorem Sequential.save (H : Sequential dhtKey k s) (h : s.flushes[t]? = some fl) :
    Sequential dhtKey k (s.save fl bytes) where
  key := H.key
  published := H.published
  location := H.location
  database host := by
    have hk := H.key fl (List.mem_of_getElem? h)
    simp only [Swarm.save, List.find?_cons]
    by_cases hh : host = fl.host
    · subst hh; simp [hk]
    · rw [Function.update_of_ne hh, H.database]; simp [Ne.symm hh]

/-- Only the newest flush can be published next. -/
theorem Sequential.publish [DecidableEq δ] (H : Sequential dhtKey k s) (h : s.flushes[t]? = some fl)
    (hp : fl.published = false) : Sequential dhtKey k
      ({ s with location := Function.update s.location (dhtKey fl.key) (some fl.host) }.setFlush t
        { fl with published := true }) := by
  have hlt := (List.getElem?_eq_some_iff.mp h).1
  have hlast : t + 1 = s.flushes.length := by
    by_contra hne
    rw [H.published t fl h (by omega)] at hp
    cases hp
  have hset : s.flushes.set t { fl with published := true } =
      s.flushes.take t ++ [{ fl with published := true }] := by
    rw [List.set_eq_take_append_cons_drop, if_pos hlt, List.drop_of_length_le (by omega)]
  refine ⟨?_, ?_, ?_, H.database⟩
  · intro fl' hfl'
    obtain hfl' | rfl := List.mem_or_eq_of_mem_set hfl'
    · exact H.key fl' hfl'
    · exact H.key fl (List.mem_of_getElem? h)
  · intro i fl' hi hlt'
    simp only [setFlush, List.length_set] at hi hlt'
    rw [List.getElem?_set_ne (by omega)] at hi
    exact H.published i fl' hi hlt'
  · rw [publishedHosts, setFlush, hset]
    simp [H.key fl (List.mem_of_getElem? h)]

/-- A new flush, behind flushes that are all published. -/
theorem Sequential.flush (H : Sequential dhtKey k s) (hall : ∀ fl ∈ s.flushes, fl.published)
    (hkey : fl.key = k) (hp : fl.published = false) :
    Sequential dhtKey k { s with flushes := s.flushes ++ [fl] } where
  key fl' hfl' := by
    rcases List.mem_append.mp hfl' with hfl' | hfl'
    · exact H.key fl' hfl'
    · rw [List.mem_singleton.mp hfl']
      exact hkey
  published i fl' hi hlt := by
    simp only [List.length_append, List.length_singleton] at hlt
    rw [List.getElem?_append_left (by omega)] at hi
    exact hall fl' (List.mem_of_getElem? hi)
  location := H.location.trans (by simp [publishedHosts, hp])
  database := H.database

theorem sequential_step [DecidableEq δ] (H : Sequential dhtKey k s) (hok : OneClient k s a)
    (h : step dhtKey s a = some s') : Sequential dhtKey k s' := by
  cases a with
  | create chunk =>
    cases h
    exact ⟨H.key, H.published, H.location, H.database⟩
  | write p bytes =>
    obtain ⟨chunk, _, h⟩ := Option.bind_eq_some_iff.mp h
    cases h
    exact ⟨H.key, H.published, H.location, H.database⟩
  | free p =>
    obtain ⟨chunk, _, h⟩ := Option.bind_eq_some_iff.mp h
    cases h
    exact ⟨H.key, H.published, H.location, H.database⟩
  | flush p host =>
    obtain ⟨chunk, hchunk, h⟩ := Option.bind_eq_some_iff.mp h
    cases h
    exact H.flush hok.2 (hok.1 chunk hchunk) rfl
  | publish t =>
    obtain ⟨fl, hfl, hp, rfl⟩ := publish_cases h
    exact H.publish hfl hp
  | deposit t =>
    obtain ⟨fl, hfl, ⟨_, _, rfl⟩ | ⟨_, _, rfl⟩⟩ := deposit_cases h
    · exact H.setStage hfl
    · exact (H.save hfl).setStage hfl
  | retrieve key =>
    cases h
    exact ⟨H.key, H.published, H.location, H.database⟩
  | lookup t =>
    obtain ⟨l, stage, _, rfl, _⟩ := lookup_cases h
    exact ⟨H.key, H.published, H.location, H.database⟩

/-! ## Deposits in time -/

/-- A change to a flush after which it has still sent the same. -/
theorem Sent.setFlush (H : Sent s) (h : s.flushes[t]? = some fl) {fl' : Flush}
    (hdangling : fl'.stage ≠ .dangling)
    (hsent : ∀ bytes, fl'.arriving? = some bytes ∨ fl'.stored? = some bytes →
      t + 1 = s.flushes.length → bytes = fl'.data) : Sent (s.setFlush t fl') where
  defined g hg := by
    rcases List.mem_or_eq_of_mem_set hg with hg | rfl
    · exact H.defined g hg
    · exact hdangling
  last i g bytes hi hb hlast := by
    simp only [Swarm.setFlush, List.length_set] at hi hlast
    rcases eq_or_ne t i with rfl | hit
    · rw [List.getElem?_set_self (List.getElem?_eq_some_iff.mp h).1] at hi
      cases hi
      exact hsent bytes hb hlast
    · rw [List.getElem?_set_ne hit] at hi
      exact H.last i g bytes hi hb hlast

theorem sent_step [DecidableEq δ] (H : Sent s) (hok : InTime s a) (h : step dhtKey s a = some s') :
    Sent s' := by
  cases a with
  | create chunk =>
    cases h
    exact ⟨H.defined, H.last⟩
  | write p bytes =>
    obtain ⟨chunk, _, h⟩ := Option.bind_eq_some_iff.mp h
    cases h
    exact ⟨H.defined, H.last⟩
  | free p =>
    obtain ⟨chunk, _, h⟩ := Option.bind_eq_some_iff.mp h
    cases h
    exact ⟨H.defined, H.last⟩
  | flush p host =>
    obtain ⟨chunk, hchunk, h⟩ := Option.bind_eq_some_iff.mp h
    cases h
    constructor
    · intro fl hfl
      rcases List.mem_append.mp hfl with hfl | hfl
      · exact H.defined fl hfl
      · rw [List.mem_singleton.mp hfl]
        exact DepositStage.noConfusion
    · intro i g bytes hi hb hlast
      rw [List.length_append, List.length_singleton] at hlast
      rw [List.getElem?_append_right (by omega), Nat.sub_eq_zero_of_le (by omega)] at hi
      cases hi
      rcases hb with hb | hb <;> cases hb
  | publish t =>
    obtain ⟨fl, hfl, _, rfl⟩ := publish_cases h
    have H' : Sent { s with
      location := Function.update s.location (dhtKey fl.key) (some fl.host) } := ⟨H.defined, H.last⟩
    exact H'.setFlush hfl (H.defined fl (List.mem_of_getElem? hfl)) fun bytes => H.last t fl bytes hfl
  | deposit t =>
    obtain ⟨fl, hfl, ⟨stage, hadv, rfl⟩ | ⟨bytes, hs, rfl⟩⟩ := deposit_cases h
    · rcases hadv with ⟨_, rfl⟩ | ⟨hs, hobj⟩
      · refine H.setFlush hfl DepositStage.noConfusion fun bytes hb => ?_
        rcases hb with hb | hb <;> cases hb
      · obtain ⟨chunk, hchunk, hdata⟩ := hok fl hfl hs
        rcases hobj with ⟨chunk', hchunk', rfl⟩ | ⟨hnone, _⟩
        · cases hchunk.symm.trans hchunk'
          refine H.setFlush hfl DepositStage.noConfusion fun bytes hb hlast => ?_
          rcases hb with hb | hb <;> cases hb
          exact hdata hlast
        · cases hchunk.symm.trans hnone
    · have H' : Sent (s.save fl bytes) := ⟨H.defined, H.last⟩
      refine H'.setFlush hfl DepositStage.noConfusion fun b hb hlast => ?_
      rcases hb with hb | hb <;> cases hb
      exact H.last t fl bytes hfl (.inl (by rw [Flush.arriving?, hs])) hlast
  | retrieve key =>
    cases h
    exact ⟨H.defined, H.last⟩
  | lookup t =>
    obtain ⟨l, stage, _, rfl, _⟩ := lookup_cases h
    exact ⟨H.defined, H.last⟩

/-! ## Deposits in order -/

/-- A change to a flush that leaves alone what it has stored, and where. -/
theorem Newest.setFlush (H : Newest k s) (h : s.flushes[t]? = some fl) {fl' : Flush}
    (hhost : fl'.host = fl.host) (hstored : fl'.stored? = fl.stored?) :
    Newest k (s.setFlush t fl') := by
  have hlt := (List.getElem?_eq_some_iff.mp h).1
  intro i g bytes hi hdone hnew
  simp only [Swarm.setFlush] at hi hnew ⊢
  obtain rfl | hit := eq_or_ne t i
  · rw [List.getElem?_set_self hlt] at hi
    cases hi
    rw [hhost]
    apply H t fl bytes h (hstored ▸ hdone)
    intro u newer hu hnewer hh
    exact hnew u newer hu (by rwa [List.getElem?_set_ne (Nat.ne_of_lt hu)]) (hh.trans hhost.symm)
  · rw [List.getElem?_set_ne hit] at hi
    apply H i g bytes hi hdone
    intro u newer hu hnewer hh
    obtain rfl | hut := eq_or_ne t u
    · cases Option.some.inj (h.symm.trans hnewer)
      exact hstored ▸ hnew t fl' hu (List.getElem?_set_self hlt) (hhost.trans hh)
    · exact hnew u newer hu (by rwa [List.getElem?_set_ne hut]) hh

/-- A host stores a chunk that is the newest it has got, or has the bytes of the newest. -/
theorem Newest.save (H : Newest k s) (hkey : fl.key = k) (h : s.flushes[t]? = some fl)
    (hok : ∀ (u : Nat) (newer : Flush), t < u → s.flushes[u]? = some newer → newer.host = fl.host →
      ∀ stored ∈ newer.stored?, stored = bytes) :
    Newest k ((s.save fl bytes).setFlush t { fl with stage := .done bytes }) := by
  have hlt := (List.getElem?_eq_some_iff.mp h).1
  intro i g stored hi hdone hnew
  simp only [Swarm.setFlush, Swarm.save] at hi hnew ⊢
  obtain hh | hh := eq_or_ne g.host fl.host
  · have hg : stored = bytes := by
      rcases Nat.lt_trichotomy i t with hit | rfl | hit
      · cases hnew t _ hit (List.getElem?_set_self hlt) hh.symm
      · rw [List.getElem?_set_self hlt] at hi
        cases hi
        cases hdone
        rfl
      · rw [List.getElem?_set_ne (Nat.ne_of_lt hit)] at hi
        exact hok i g hit hi hh stored hdone
    rw [hh, hg, Function.update_self, hkey, Function.update_self]
  · have hit : t ≠ i := by
      rintro rfl
      rw [List.getElem?_set_self hlt] at hi
      cases hi
      exact hh rfl
    rw [List.getElem?_set_ne hit] at hi
    rw [Function.update_of_ne hh]
    apply H i g stored hi hdone
    intro u newer hu hnewer hhost
    have hut : t ≠ u := by
      rintro rfl
      cases Option.some.inj (h.symm.trans hnewer)
      exact hh hhost.symm
    exact hnew u newer hu (by rwa [List.getElem?_set_ne hut]) hhost

/-- A new flush has stored nothing. -/
theorem Newest.flush (H : Newest k s) (hfl : fl.stored? = none) :
    Newest k { s with flushes := s.flushes ++ [fl] } := by
  intro i g bytes hi hdone hnew
  have hlt : i < s.flushes.length := by
    by_contra hn
    rw [List.getElem?_append_right (Nat.le_of_not_lt hn)] at hi
    rw [List.mem_singleton.mp (List.mem_of_getElem? hi), hfl] at hdone
    cases hdone
  rw [List.getElem?_append_left hlt] at hi
  apply H i g bytes hi hdone
  intro u newer hu hnewer hh
  have hu' := (List.getElem?_eq_some_iff.mp hnewer).1
  exact hnew u newer hu (by rwa [List.getElem?_append_left hu']) hh

theorem newest_step [DecidableEq δ] (H : Newest k s) (hkey : ∀ fl ∈ s.flushes, fl.key = k)
    (hok : InOrder s a)
    (h : step dhtKey s a = some s') : Newest k s' := by
  cases a with
  | create chunk =>
    cases h
    exact H
  | write p bytes =>
    obtain ⟨chunk, _, h⟩ := Option.bind_eq_some_iff.mp h
    cases h
    exact H
  | free p =>
    obtain ⟨chunk, _, h⟩ := Option.bind_eq_some_iff.mp h
    cases h
    exact H
  | flush p host =>
    obtain ⟨chunk, _, h⟩ := Option.bind_eq_some_iff.mp h
    cases h
    exact H.flush rfl
  | publish t =>
    obtain ⟨fl, hfl, _, rfl⟩ := publish_cases h
    have H' : Newest k { s with
      location := Function.update s.location (dhtKey fl.key) (some fl.host) } := H
    exact H'.setFlush hfl rfl rfl
  | deposit t =>
    obtain ⟨fl, hfl, ⟨stage, hadv, rfl⟩ | ⟨bytes, hs, rfl⟩⟩ := deposit_cases h
    · obtain ⟨_, hnone, hne⟩ := hadv.stage_ne
      have hstored : Flush.stored? { fl with stage := stage } = none := by
        cases stage with
        | done bytes => exact (hne bytes rfl).elim
        | connect | command | data | dangling => rfl
      exact H.setFlush hfl rfl (hstored.trans hnone.symm)
    · apply H.save (hkey fl (List.mem_of_getElem? hfl)) hfl
      intro u newer hu hnewer
      exact hok fl hfl bytes (by rw [Flush.arriving?, hs]; rfl) u
        (List.getElem?_eq_some_iff.mp hnewer).1 hu newer hnewer
  | retrieve key =>
    cases h
    exact H
  | lookup t =>
    obtain ⟨l, stage, _, rfl, _⟩ := lookup_cases h
    exact H

/-! ## Runs -/

theorem sent_of_reach [DecidableEq δ] (h : Machine.Reach (step dhtKey)
    (fun s a => OneClient k s a ∧ InTime s a ∧ InOrder s a) init s) : Sent s ∧ Newest k s := by
  have H : Sequential dhtKey k s ∧ Sent s ∧ Newest k s := by
    induction h with
    | init => exact ⟨.init, ⟨nofun, nofun⟩, nofun⟩
    | step _ hok hs ih =>
      exact ⟨sequential_step ih.1 hok.1 hs, sent_step ih.2.1 hok.2.1 hs,
        newest_step ih.2.2 ih.1.key hok.2.2 hs⟩
  exact H.2

end Swarm

end ColonyFS

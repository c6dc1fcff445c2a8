import ColonyFS.Intercom.Sessions

/-!
# Requests over the network

The machine of event loops and byte streams does what a service does that executes a request in one
step: `Inv` ties the two together, and `Inv.step` finds the steps of the service for an event on the
network. A request is executed when the server has read its payload, and returns when the client has
read the whole answer. Nothing is asked of the network but that bytes stay in order.
-/

namespace ColonyFS

open Machine EventLoop Function

namespace Network

variable {κ : Type} [DecidableEq κ] {n n' : Network κ} {k : κ} {i j : Nat} {p q : κ × Nat}
  {client : UserHarmony} {cobject cobject' : Object Connection UserHarmony.ClientOp}

/-- The connections of other clients, and the other connections of a client. -/
theorem getElem?_update (hclients : n'.clients = update n.clients k client)
    (hobjs : client.loop.objects = (n.clients k).loop.objects.set i cobject')
    (hp : p ≠ (k, i)) :
    (n'.clients p.1).loop.objects[p.2]? = (n.clients p.1).loop.objects[p.2]? := by
  rw [hclients]
  by_cases hk : p.1 = k
  · have hi : i ≠ p.2 := fun hi => hp (Prod.ext hk hi.symm)
    rw [hk, update_self, hobjs, List.getElem?_set_ne hi]
  · rw [update_of_ne hk]

theorem length_update (hclients : n'.clients = update n.clients k client)
    (hobjs : client.loop.objects = (n.clients k).loop.objects.set i cobject') (k' : κ) :
    (n'.clients k').loop.objects.length = (n.clients k').loop.objects.length := by
  rw [hclients]
  by_cases hk : k' = k
  · rw [hk, update_self, hobjs, List.length_set]
  · rw [update_of_ne hk]

variable [BinaryArchive Command] [BinaryArchive ChunkArchive] [BinaryArchive ChunkKey]

/-- The connections of clients as callers of a service. -/
abbrev Calls (κ : Type) := Rpc.State (κ × Nat) Storage Request (Option ChunkData)

/-- What the server has under way on a connection, if it has accepted it. -/
def At (n : Network κ) (p : κ × Nat) : Option (List Chunkserver.ServerOp) → Prop
  | none => p ∉ n.peers
  | some ops => ∃ (j : Nat) (object : Object Connection Chunkserver.ServerOp),
    n.peers[j]? = some p ∧ n.server.loop.objects[j]? = some object ∧ object.pending = ops

/-- The network, and a service that executes a request in one step. -/
structure Inv (n : Network κ) (s : Calls κ) : Prop where
  service : n.server.fault = none → s.service = n.server.loop.state
  running : ∀ k, (n.clients k).fault = none
  client : ∀ k, ∀ object ∈ (n.clients k).loop.objects, object.Single Op.Intact
  server : ∀ object ∈ n.server.loop.objects, object.Single Op.Intact
  fresh : ∀ k i, (n.clients k).loop.objects.length ≤ i →
    s.callers (k, i) = .idle ∧ (n.wires (k, i)).up = [] ∧ (n.wires (k, i)).down = []
  nodup : (n.peers ++ n.backlog).Nodup
  connected : ∀ p ∈ n.peers ++ n.backlog, p.2 < (n.clients p.1).loop.objects.length
  accepted : n.server.fault = none → n.peers.length ≤ n.server.loop.objects.length
  accepting : n.server.fault = none → ∀ j object, n.server.loop.objects[j]? = some object →
    n.peers.length ≤ j → object.pending = [] ∨ object.pending = [.opening .handleAccept] ∧
      j = n.peers.length ∧ n.server.loop.objects.length = j + 1
  session : ∀ p object, (n.clients p.1).loop.objects[p.2]? = some object → ∃ request stage,
    object.pending = stage.ops request ∧ (stage.listed = true ↔ p ∈ n.peers ++ n.backlog) ∧
      stage.Receives request (s.callers p) (n.wires p) ∧
      (n.server.fault = none → ∀ v, n.At p v → Serves request stage (s.callers p) (n.wires p) v)

variable {s s' : Calls κ} {sobject sobject' : Object Connection Chunkserver.ServerOp} {wire : Wire}
  {server : Chunkserver} {dirPrefix : Str} {request : Request} {stage stage' : Stage}
  {caller caller' : Exchange} {v : Option (List Chunkserver.ServerOp)}

/-- An operation of a client has ended. -/
theorem Inv.clientUpdate (H : Inv n s) (hserver : n'.server = n.server) (hpeers : n'.peers = n.peers)
    (hclients : n'.clients = update n.clients k client)
    (hwires : n'.wires = update n.wires (k, i) wire)
    (hobjs : client.loop.objects = (n.clients k).loop.objects.set i cobject')
    (hlt : i < (n.clients k).loop.objects.length) (hfault : client.fault = none)
    (hsingle : ∀ object ∈ client.loop.objects, object.Single Op.Intact)
    (hbacklog : n'.backlog = n.backlog ∨
      n'.backlog = n.backlog ++ [(k, i)] ∧ (k, i) ∉ n.peers ++ n.backlog)
    (hservice : s'.service = s.service) (hcallers : ∀ q, q ≠ (k, i) → s'.callers q = s.callers q)
    (hops : cobject'.pending = stage.ops request)
    (hlisted : stage.listed = true ↔ (k, i) ∈ n.peers ++ n'.backlog)
    (hrec : stage.Receives request (s'.callers (k, i)) wire)
    (hserves : n.server.fault = none → ∀ v, n.At (k, i) v →
      Serves request stage (s'.callers (k, i)) wire v) : Inv n' s' where
  service hf := by
    rw [hserver] at hf ⊢
    exact hservice.trans (H.service hf)
  running k' := by
    rw [hclients]
    by_cases hk : k' = k
    · subst hk
      rw [update_self, hfault]
    · rw [update_of_ne hk]
      exact H.running k'
  client k' := by
    rw [hclients]
    by_cases hk : k' = k
    · subst hk
      rw [update_self]
      exact hsingle
    · rw [update_of_ne hk]
      exact H.client k'
  server := by
    rw [hserver]
    exact H.server
  fresh k' i' hi := by
    rw [length_update hclients hobjs] at hi
    have hne : (k', i') ≠ (k, i) := by
      rintro ⟨⟩
      omega
    rw [hwires, update_of_ne hne, hcallers _ hne]
    exact H.fresh k' i' hi
  nodup := by
    rw [hpeers]
    rcases hbacklog with hb | ⟨hb, hnew⟩
    · rw [hb]
      exact H.nodup
    · rw [hb, ← List.append_assoc]
      refine List.nodup_append.mpr ⟨H.nodup, List.nodup_singleton _, ?_⟩
      rintro a ha b hb rfl
      cases List.mem_singleton.mp hb
      exact hnew ha
  connected p hp := by
    rw [hpeers] at hp
    rw [length_update hclients hobjs]
    rcases hbacklog with hb | ⟨hb, _⟩
    · exact H.connected p (hb ▸ hp)
    · rw [hb, ← List.append_assoc] at hp
      rcases List.mem_append.mp hp with hp | hp
      · exact H.connected p hp
      · rw [List.mem_singleton.mp hp]
        exact hlt
  accepted := by
    rw [hserver, hpeers]
    exact H.accepted
  accepting := by
    rw [hserver, hpeers]
    exact H.accepting
  session p object hobj := by
    have hat : n'.At p = n.At p := by
      funext v
      cases v with
      | none => simp only [At, hpeers]
      | some ops => simp only [At, hpeers, hserver]
    rw [hserver, hat]
    by_cases hpk : p = (k, i)
    · subst hpk
      rw [hclients, update_self, hobjs, List.getElem?_set_self hlt] at hobj
      cases hobj
      rw [hwires, update_self, hpeers]
      exact ⟨request, stage, hops, hlisted, hrec, hserves⟩
    · rw [getElem?_update hclients hobjs hpk] at hobj
      rw [hwires, update_of_ne hpk, hcallers p hpk, hpeers]
      obtain ⟨request, stage, hops, hlisted, hrec, hserves⟩ := H.session p object hobj
      refine ⟨request, stage, hops, hlisted.trans ?_, hrec, hserves⟩
      rcases hbacklog with hb | ⟨hb, _⟩
      · rw [hb]
      · rw [hb, ← List.append_assoc, List.mem_append (t := [(k, i)]), List.mem_singleton]
        exact ⟨.inl, fun h => h.resolve_right hpk⟩

/-! ## An event of a client -/

/-- A service that executes a request once, at most. -/
def Once : Calls κ → Rpc.Event (κ × Nat) Request → Prop
  | _, .fail .. | _, .serveStray _ => False
  | _, .start .. | _, .send _ | _, .serve _ | _, .finish _ => True

/-- What is seen of an event of the service. -/
def seenOf : Rpc.Event (κ × Nat) Request × Option (Request × Option ChunkData) → Option (Seen κ)
  | (.start p request, _) => some (.called p request)
  | (.finish p, some (_, some chunk)) => some (.returned p chunk.archive)
  | (.finish _, some (_, none)) | (.finish _, none) => none
  | (.send _, _) | (.serve _, _) | (.fail .., _) | (.serveStray _, _) => none

/-- Steps of the service for an event on the network. -/
def Answers (dirPrefix : Str) (n' : Network κ) (s : Calls κ) (o : Option (Seen κ)) : Prop :=
  ∃ m s', Trace (Rpc.call (Request.exec dirPrefix)) Once s m s' ∧
    m.filterMap seenOf = o.toList ∧ Inv n' s'

theorem Inv.answers (H : Inv n' s) : Answers dirPrefix n' s none := ⟨[], s, .nil, rfl, H⟩

omit [BinaryArchive Command] [BinaryArchive ChunkArchive] [BinaryArchive ChunkKey] in
theorem received_eq {c c' : UserHarmony} {news : Option (Except ErrorCode ChunkArchive)}
    (h : c'.loop.state = news.toList ++ c.loop.state) :
    UserHarmony.received c c' = news.bind fun x => x.toOption := by
  have hlen : c'.loop.state.length - c.loop.state.length = news.toList.length := by
    rw [h, List.length_append]
    omega
  rw [UserHarmony.received, hlen, h, List.take_left]
  cases news with
  | none => rfl
  | some x => cases x <;> rfl

theorem Inv.clientComplete (H : Inv n s) {c : Completion Ending} {o : Option (Seen κ)}
    (h : n.clientComplete k c = some (o, n')) : Answers dirPrefix n' s o := by
  obtain ⟨⟨object, op⟩, hend, h⟩ := Option.bind_eq_some_iff.mp h
  obtain ⟨down, htake, h⟩ := Option.bind_eq_some_iff.mp h
  obtain ⟨client, hstep, h⟩ := Option.map_eq_some_iff.mp h
  obtain ⟨object₀, op₀, hend', -, hobj, hone, -, -, -⟩ := complete_cases (H.client k) hstep
  obtain ⟨rfl, rfl⟩ := Prod.ext_iff.mp (Option.some.inj (hend.symm.trans hend'))
  obtain ⟨request, stage, hops, hlisted, hrec, hserves⟩ := H.session (k, c.object) object hobj
  have hop : [op] = stage.ops request := hone.symm.trans hops
  have hleft : Left stage c.result (n.wires (k, c.object)) down := by
    cases stage with
    | connecting m =>
      cases hop
      exact .inr ⟨rfl, (Option.some.inj htake).symm⟩
    | command | payload =>
      cases hop
      exact .inr ⟨rfl, take_writeOp htake⟩
    | header =>
      cases hop
      exact .inl ⟨rfl, take_read (.inl ⟨_, rfl⟩) htake⟩
    | data size =>
      cases hop
      exact .inl ⟨rfl, take_read (.inr ⟨_, _, rfl⟩) htake⟩
    | refused | deposited | done => cases hop
  obtain ⟨object', stage', w, news, hobjs, hops', hfault, hstate, hw, hmoves⟩ :=
    moves_of_step (H.client k) hstep hobj hops hrec hleft
  cases h
  have hlt := (List.getElem?_eq_some_iff.mp hobj).1
  have hsingle := UserHarmony.single_step (H.client k) hstep
  have hnew : op.isOpening = true → (k, c.object) ∉ n.peers ++ n.backlog := by
    intro hopen hmem
    have hmem' : op ∈ stage.ops request := hop ▸ List.mem_singleton_self op
    have hclosed := Stage.not_opening (hlisted.mpr hmem) op hmem'
    exact Bool.false_ne_true (hclosed.symm.trans hopen)
  have hinv : ∀ s' : Calls κ, s'.service = s.service →
      (∀ q, q ≠ (k, c.object) → s'.callers q = s.callers q) →
      stage'.Receives request (s'.callers (k, c.object)) { n.wires (k, c.object) with down := down } →
      (∀ v, Serves request stage (s.callers (k, c.object)) (n.wires (k, c.object)) v →
        Serves request stage' (s'.callers (k, c.object))
          ({ n.wires (k, c.object) with down := down }.putUp w) v) →
      Inv { n with
        clients := update n.clients k client
        wires := update n.wires (k, c.object) ({ n.wires (k, c.object) with down := down }.putUp w)
        backlog := if op.isOpening && c.result.error = .success then n.backlog ++ [(k, c.object)]
          else n.backlog } s' := by
    intro s' hservice hcallers hrec' hserves'
    refine H.clientUpdate rfl rfl rfl rfl hobjs hlt hfault hsingle ?_ hservice hcallers hops' ?_
      (Stage.Receives.congr hrec' putUp_down putUp_cut) fun hf v hv => hserves' v (hserves hf v hv)
    · split
      · next hsucc => exact .inr ⟨rfl, hnew (Bool.and_elim_left hsucc)⟩
      · exact .inl rfl
    · rw [hmoves.listed, hlisted, ← hop, List.forall_mem_singleton]
      dsimp only
      split
      · next hsucc =>
        rw [Bool.and_eq_true, decide_eq_true_eq] at hsucc
        rw [← List.append_assoc]
        exact iff_of_true (.inr ⟨hsucc.2, hsucc.1⟩)
          (List.mem_append_right _ (List.mem_singleton_self _))
      · next hsucc =>
        rw [Bool.and_eq_true, decide_eq_true_eq] at hsucc
        exact ⟨fun h => h.resolve_right fun h => hsucc ⟨h.2, h.1⟩, .inl⟩
  rw [received_eq hstate, hw]
  rcases hmoves.received with hnone | ⟨rfl, chunk, rfl, hcaller⟩
  · rw [hnone]
    refine Inv.answers (hinv s rfl (fun _ _ => rfl) (hmoves.receives hleft hrec hnone) fun v hv => ?_)
    exact Serves.move hv (fun hc => by rwa [putUp_cut] at hc)
      fun before hp => hmoves.pipe (hp.congr rfl rfl)
  · -- The call returns.
    refine ⟨[(.finish (k, c.object), some (request, some chunk))], s.set (k, c.object) .idle,
      .snoc .nil trivial ?_, rfl, hinv _ rfl (fun q hq => Rpc.callers_set_of_ne hq)
        (fun _ => Rpc.callers_set_self) ?_⟩
    · simp only [Rpc.call, hcaller]
    · intro v hv
      refine Serves.finished hv ?_ ?_
      · rw [hcaller]
        rintro ⟨⟩
      · rw [Rpc.callers_set_self]
        rintro ⟨⟩

omit [DecidableEq κ] in
/-- A connection that is still to be made is on no list. -/
theorem Inv.not_mem (H : Inv n s) (hi : (n.clients k).loop.objects.length ≤ i) :
    (k, i) ∉ n.peers ++ n.backlog := by
  exact fun hmem => absurd (H.connected _ hmem) (Nat.not_lt.mpr hi)

theorem Inv.clientStart (H : Inv n s) (request : Request) {m : Nat}
    (hobjs : client.loop.objects = (n.clients k).loop.objects ++
      [⟨.new, [.opening (.handleConnect m request.command request.sender)]⟩])
    (hfault : client.fault = none) :
    Answers dirPrefix { n with clients := update n.clients k client } s
      (some (.called (k, (n.clients k).loop.objects.length) request)) := by
  obtain ⟨hidle, hup, hdown⟩ := H.fresh k _ (Nat.le_refl _)
  have hnew := H.not_mem (k := k) (Nat.le_refl _)
  generalize hp : (k, (n.clients k).loop.objects.length) = p at *
  have hget : ∀ q : κ × Nat, q ≠ p → (update n.clients k client q.1).loop.objects[q.2]? =
      (n.clients q.1).loop.objects[q.2]? := by
    intro q hq
    by_cases hk : q.1 = k
    · have hi : q.2 ≠ (n.clients k).loop.objects.length := by
        intro hi
        exact hq ((Prod.ext hk hi : q = (k, _)).trans hp)
      rw [hk, update_self, hobjs]
      rcases Nat.lt_or_gt_of_ne hi with hi | hi
      · rw [List.getElem?_append_left hi]
      · rw [List.getElem?_eq_none (by simpa using hi), List.getElem?_eq_none (Nat.le_of_lt hi)]
    · rw [update_of_ne hk]
  refine ⟨[(.start p request, none)], s.set p (.calling request), .snoc .nil trivial ?_, rfl, ?_⟩
  · simp only [Rpc.call, hidle]
  refine ⟨H.service, ?_, ?_, H.server, ?_, H.nodup, ?_, H.accepted, H.accepting, ?_⟩
  · intro k'
    dsimp only
    by_cases hk : k' = k
    · subst hk
      rw [update_self, hfault]
    · rw [update_of_ne hk]
      exact H.running k'
  · intro k'
    dsimp only
    by_cases hk : k' = k
    · subst hk
      rw [update_self, hobjs]
      refine List.forall_mem_append.mpr ⟨H.client k', List.forall_mem_singleton.mpr ?_⟩
      exact single_of_append ⟨.new, []⟩ rfl trivial
    · rw [update_of_ne hk]
      exact H.client k'
  · intro k' i' hi
    dsimp only at hi
    have hlen : (n.clients k').loop.objects.length ≤ i' ∧ (k', i') ≠ p := by
      by_cases hk : k' = k
      · subst hk
        rw [update_self, hobjs, List.length_append, List.length_singleton] at hi
        refine ⟨by omega, ?_⟩
        rw [← hp]
        rintro ⟨⟩
        omega
      · rw [update_of_ne hk] at hi
        refine ⟨hi, ?_⟩
        rw [← hp]
        rintro ⟨⟩
        exact hk rfl
    rw [Rpc.callers_set_of_ne hlen.2]
    exact H.fresh k' i' hlen.1
  · intro q hq
    dsimp only
    refine Nat.lt_of_lt_of_le (H.connected q hq) ?_
    by_cases hk : q.1 = k
    · rw [hk, update_self, hobjs, List.length_append]
      exact Nat.le_add_right ..
    · rw [update_of_ne hk]
  · intro q object hobj
    dsimp only at hobj
    by_cases hq : q = p
    · subst hq
      rw [← hp, update_self, hobjs, List.getElem?_concat_length] at hobj
      cases hobj
      refine ⟨request, .connecting m, rfl, iff_of_false Bool.false_ne_true hnew, ⟨Rpc.callers_set_self, hdown⟩,
        fun _ v hv => ?_⟩
      cases v with
      | none =>
        refine ⟨Rpc.callers_set_self, ?_, ?_⟩
        · rw [hup]
          exact List.nil_prefix
        · rintro _ sent ⟨⟩
          exact hup
      | some ops =>
        obtain ⟨j, _, hj, _⟩ := hv
        exact (hnew (List.mem_append_left _ (List.mem_of_getElem? hj))).elim
    · rw [hget q hq] at hobj
      rw [Rpc.callers_set_of_ne hq]
      exact H.session q object hobj

/-! ## A connection fails -/

theorem Inv.cut (H : Inv n s) (p : κ × Nat) (up down : Nat) :
    Inv { n with wires := update n.wires p ((n.wires p).lose up down) } s where
  service := H.service
  running := H.running
  client := H.client
  server := H.server
  fresh k i hi := by
    obtain ⟨hidle, hup, hdown⟩ := H.fresh k i hi
    dsimp only
    by_cases hp : (k, i) = p
    · subst hp
      rw [update_self]
      exact ⟨hidle, by rw [Wire.lose, hup, List.take_nil], by rw [Wire.lose, hdown, List.take_nil]⟩
    · rw [update_of_ne hp]
      exact ⟨hidle, hup, hdown⟩
  nodup := H.nodup
  connected := H.connected
  accepted := H.accepted
  accepting := H.accepting
  session q object hobj := by
    obtain ⟨request, stage, hops, hlisted, hrec, hserves⟩ := H.session q object hobj
    refine ⟨request, stage, hops, hlisted, ?_⟩
    dsimp only
    by_cases hq : q = p
    · subst hq
      rw [update_self]
      refine ⟨Stage.Receives.lose hrec up down, fun hf v hv => ?_⟩
      exact Serves.move (hserves hf v hv) (fun hc => (Bool.false_ne_true hc.symm).elim)
        fun before hp => hp.lose up down
    · rw [update_of_ne hq]
      exact ⟨hrec, hserves⟩

/-! ## An event of the server -/

omit [DecidableEq κ] in
theorem Inv.peers_inj (H : Inv n s) {l : Nat} (hj : n.peers[j]? = some p)
    (hl : n.peers[l]? = some p) : l = j := by
  have hlt := (List.getElem?_eq_some_iff.mp hl).1
  exact (List.getElem?_inj hlt (List.nodup_append.mp H.nodup).1).mp (hl.trans hj.symm)

/-- An operation of the server has ended on a connection that it has accepted. -/
theorem Inv.serverUpdate (H : Inv n s) (hp : n.peers[j]? = some p)
    (hlt : j < n.server.loop.objects.length) (hf : n.server.fault = none)
    (hobjs : server.loop.objects = n.server.loop.objects.set j sobject')
    (hsingle : ∀ object ∈ server.loop.objects, object.Single Op.Intact)
    (hservice : server.fault = none → s'.service = server.loop.state)
    (hcallers : ∀ q, q ≠ p → s'.callers q = s.callers q)
    (hsession : ∀ object, (n.clients p.1).loop.objects[p.2]? = some object → ∃ request stage,
      object.pending = stage.ops request ∧ (stage.listed = true ↔ p ∈ n.peers ++ n.backlog) ∧
        stage.Receives request (s'.callers p) wire ∧
        (server.fault = none →
          Serves request stage (s'.callers p) wire (some sobject'.pending))) :
    Inv { n with server, wires := update n.wires p wire } s' where
  service := hservice
  running := H.running
  client := H.client
  server := hsingle
  fresh k i hi := by
    dsimp only at hi ⊢
    have hne : (k, i) ≠ p := by
      rintro rfl
      exact H.not_mem hi (List.mem_append_left _ (List.mem_of_getElem? hp))
    rw [update_of_ne hne, hcallers _ hne]
    exact H.fresh k i hi
  nodup := H.nodup
  connected := H.connected
  accepted _ := by
    rw [hobjs, List.length_set]
    exact H.accepted hf
  accepting _ l object hobj hl := by
    dsimp only at hobj hl ⊢
    have hne : j ≠ l := by
      have := (List.getElem?_eq_some_iff.mp hp).1
      omega
    rw [hobjs, List.getElem?_set_ne hne] at hobj
    rw [hobjs, List.length_set]
    exact H.accepting hf l object hobj hl
  session q object hobj := by
    dsimp only at hobj ⊢
    by_cases hq : q = p
    · subst hq
      obtain ⟨request, stage, hops, hlisted, hrec, hserves⟩ := hsession object hobj
      rw [update_self]
      refine ⟨request, stage, hops, hlisted, hrec, fun hf' v hv => ?_⟩
      cases v with
      | none => exact (hv (List.mem_of_getElem? hp)).elim
      | some ops =>
        obtain ⟨l, object', hl, hobj', rfl⟩ := hv
        dsimp only at hl hobj'
        cases H.peers_inj hp hl
        rw [hobjs, List.getElem?_set_self hlt] at hobj'
        cases hobj'
        exact hserves hf'
    · obtain ⟨request, stage, hops, hlisted, hrec, hserves⟩ := H.session q object hobj
      rw [update_of_ne hq, hcallers q hq]
      refine ⟨request, stage, hops, hlisted, hrec, fun _ v hv => hserves hf v ?_⟩
      cases v with
      | none => exact hv
      | some ops =>
        obtain ⟨l, object', hl, hobj', hops'⟩ := hv
        dsimp only at hl hobj'
        have hne : j ≠ l := by
          rintro rfl
          exact hq (Option.some.inj (hl.symm.trans hp))
        rw [hobjs, List.getElem?_set_ne hne] at hobj'
        exact ⟨l, object', hl, hobj', hops'⟩

omit [DecidableEq κ] in
/-- An accept has ended. -/
theorem Inv.acceptUpdate (H : Inv n s) {peers backlog : List (κ × Nat)}
    {new : List (Object Connection Chunkserver.ServerOp)} (hf : n.server.fault = none)
    (hlen : n.server.loop.objects.length = n.peers.length + 1)
    (hobjs : server.loop.objects = n.server.loop.objects.set n.peers.length sobject' ++ new)
    (hsingle : ∀ object ∈ server.loop.objects, object.Single Op.Intact)
    (hstate : server.fault = none → server.loop.state = n.server.loop.state)
    (hlists : peers ++ backlog = n.peers ++ n.backlog)
    (hnew : server.fault = none → peers = n.peers ∧ sobject'.pending = [] ∧ new = [] ∨
      (∃ p, peers = n.peers ++ [p]) ∧ sobject'.pending = [.readHeader .processCmd] ∧
        new = [⟨.new, [.opening .handleAccept]⟩]) :
    Inv { n with server, peers, backlog } s where
  service hf' := (H.service hf).trans (hstate hf').symm
  running := H.running
  client := H.client
  server := hsingle
  fresh := H.fresh
  nodup := hlists ▸ H.nodup
  connected q hq := H.connected q (hlists ▸ hq)
  accepted hf' := by
    dsimp only
    rw [hobjs, List.length_append, List.length_set, hlen]
    rcases hnew hf' with ⟨rfl, _⟩ | ⟨⟨p, rfl⟩, _, rfl⟩
    · omega
    · rw [List.length_append, List.length_singleton]
      omega
  accepting hf' l object hobj hl := by
    dsimp only at hobj hl ⊢
    have hl' := (List.getElem?_eq_some_iff.mp hobj).1
    rw [hobjs, List.length_append, List.length_set, hlen] at hl'
    rw [hobjs] at hobj ⊢
    rcases hnew hf' with ⟨rfl, hops, rfl⟩ | ⟨⟨p, rfl⟩, hops, rfl⟩
    · rw [List.length_nil] at hl'
      have hl : l = n.peers.length := by omega
      subst hl
      rw [List.append_nil, List.getElem?_set_self (by omega)] at hobj
      cases hobj
      exact .inl hops
    · rw [List.length_append, List.length_singleton] at hl
      rw [List.length_singleton] at hl'
      have hlen' : (n.server.loop.objects.set n.peers.length sobject').length = l := by
        rw [List.length_set]
        omega
      rw [← hlen', List.getElem?_concat_length] at hobj
      cases hobj
      refine .inr ⟨rfl, ?_, ?_⟩
      · rw [List.length_append, List.length_singleton]
        omega
      · rw [List.length_append, hlen']
        rfl
  session q object hobj := by
    obtain ⟨request, stage, hops, hlisted, hrec, hserves⟩ := H.session q object hobj
    refine ⟨request, stage, hops, hlists ▸ hlisted, hrec, fun hf' v hv => ?_⟩
    have hold : ∀ l object', l < n.peers.length → peers[l]? = some q →
        server.loop.objects[l]? = some object' → n.At q (some object'.pending) := by
      intro l object' hl hq hobj'
      have hlt : l < (n.server.loop.objects.set n.peers.length sobject').length := by
        rw [List.length_set]
        omega
      rw [hobjs, List.getElem?_append_left hlt, List.getElem?_set_ne (by omega)] at hobj'
      refine ⟨l, object', ?_, hobj', rfl⟩
      rcases hnew hf' with ⟨rfl, _⟩ | ⟨⟨p, rfl⟩, _⟩
      · exact hq
      · rwa [List.getElem?_append_left hl] at hq
    cases v with
    | none =>
      refine hserves hf none fun hmem => hv ?_
      rcases hnew hf' with ⟨rfl, _⟩ | ⟨⟨p, rfl⟩, _⟩
      · exact hmem
      · exact List.mem_append_left _ hmem
    | some ops =>
      obtain ⟨l, object', hl, hobj', rfl⟩ := hv
      dsimp only at hl hobj'
      by_cases hlt : l < n.peers.length
      · exact hserves hf _ (hold l object' hlt hl hobj')
      · rcases hnew hf' with ⟨rfl, _⟩ | ⟨⟨p, rfl⟩, hops', rfl⟩
        · exact (hlt (List.getElem?_eq_some_iff.mp hl).1).elim
        · -- The connection that has been accepted.
          have hl' := (List.getElem?_eq_some_iff.mp hl).1
          rw [List.length_append, List.length_singleton] at hl'
          have hl₀ : l = n.peers.length := by omega
          subst hl₀
          have hlt' :
              n.peers.length < (n.server.loop.objects.set n.peers.length sobject').length := by
            rw [List.length_set]
            omega
          rw [hobjs, List.getElem?_append_left hlt', List.getElem?_set_self (by omega)] at hobj'
          cases hobj'
          rw [List.getElem?_concat_length] at hl
          cases hl
          have hnot : q ∉ n.peers := by
            intro hmem
            have hnd := hlists ▸ H.nodup
            have hnd := (List.nodup_append.mp hnd).1
            exact (List.nodup_append.mp hnd).2.2 q hmem q (List.mem_singleton_self q) rfl
          obtain ⟨hcaller, hpipe⟩ := hserves hf none hnot
          rw [hops']
          exact .inr ⟨[], hcaller, .command, hpipe⟩

omit [DecidableEq κ] in
/-- What the server does with a connection that it has accepted. -/
theorem Inv.serving (H : Inv n s) (hf : n.server.fault = none) (hp : n.peers[j]? = some p)
    (hobj : n.server.loop.objects[j]? = some sobject) : ∃ request stage,
      (∀ object, (n.clients p.1).loop.objects[p.2]? = some object →
        object.pending = stage.ops request) ∧
      (stage.listed = true ↔ p ∈ n.peers ++ n.backlog) ∧
      stage.Receives request (s.callers p) (n.wires p) ∧
      Serves request stage (s.callers p) (n.wires p) (some sobject.pending) := by
  have hcobj := List.getElem?_eq_getElem
    (H.connected p (List.mem_append_left _ (List.mem_of_getElem? hp)))
  obtain ⟨request, stage, hops, hlisted, hrec, hserves⟩ := H.session p _ hcobj
  refine ⟨request, stage, ?_, hlisted, hrec, hserves hf _ ⟨j, sobject, hp, hobj, rfl⟩⟩
  intro object' hcobj'
  cases hcobj.symm.trans hcobj'
  exact hops

theorem Inv.serverComplete (H : Inv n s) {c : Completion Ending}
    (hcmd : ∀ request : Request, (BinaryArchive.save request.command : Str).length < 2 ^ 32)
    (h : n.serverComplete dirPrefix c = some n') : Answers dirPrefix n' s none := by
  obtain ⟨⟨object, op⟩, hend, h⟩ := Option.bind_eq_some_iff.mp h
  obtain ⟨hf, hobj, hop, -⟩ := Process.ending_eq_some hend
  have hone := ((H.server object (List.mem_of_getElem? hobj)).eq hop).1
  have hlt := (List.getElem?_eq_some_iff.mp hobj).1
  dsimp only at h
  split at h
  · next hopen =>
    have hge : n.peers.length ≤ c.object := by
      by_contra hlt'
      obtain ⟨request, stage, _, _, _, hserves⟩ :=
        H.serving hf (List.getElem?_eq_getElem (Nat.not_le.mp hlt')) hobj
      rw [hone] at hserves
      exact Bool.false_ne_true (hserves.not_opening.symm.trans hopen)
    obtain hnil | ⟨hops, heq, hlen⟩ := H.accepting hf c.object object hobj hge
    · cases hone.symm.trans hnil
    rw [heq] at hlen
    rw [accept] at h
    split at h
    · next he =>
      split at h
      · next p backlog hbacklog =>
        split at h
        · obtain ⟨server, hstep, h⟩ := Option.map_eq_some_iff.mp h
          cases h
          have hsingle := single_step (Chunkserver.oneByOne dirPrefix) H.server hstep
          have hlists : n.peers ++ [p] ++ backlog = n.peers ++ n.backlog := by
            rw [hbacklog, List.append_assoc]
            rfl
          obtain ⟨conn', hcase⟩ := Chunkserver.accept_of_step H.server hstep hobj hops
          rw [heq] at hcase
          rcases hcase with ⟨hno, _⟩ | ⟨_, hf', hstate, hobjs⟩ | ⟨_, hf', hobjs⟩
          · exact (hno he).elim
          · exact Inv.answers (H.acceptUpdate hf hlen hobjs hsingle (fun _ => hstate) hlists
              fun _ => .inr ⟨⟨p, rfl⟩, rfl, rfl⟩)
          · exact Inv.answers (H.acceptUpdate hf hlen
              (hobjs.trans (List.append_nil _).symm) hsingle (fun hno => (hf' hno).elim) hlists
              fun hno => (hf' hno).elim)
        · cases h
      · cases h
    · next he =>
      obtain ⟨server, hstep, h⟩ := Option.map_eq_some_iff.mp h
      cases h
      have hsingle := single_step (Chunkserver.oneByOne dirPrefix) H.server hstep
      obtain ⟨conn', hcase⟩ := Chunkserver.accept_of_step H.server hstep hobj hops
      rw [heq] at hcase
      rcases hcase with ⟨_, hf', hstate, hobjs⟩ | ⟨hyes, _⟩ | ⟨hyes, _⟩
      · exact Inv.answers (H.acceptUpdate hf hlen
          (hobjs.trans (List.append_nil _).symm) hsingle (fun _ => hstate) rfl
          fun _ => .inl ⟨rfl, rfl, rfl⟩)
      · exact (he hyes).elim
      · exact (he hyes).elim
  · obtain ⟨p, hp, h⟩ := Option.bind_eq_some_iff.mp h
    obtain ⟨up, htake, h⟩ := Option.bind_eq_some_iff.mp h
    obtain ⟨server, hstep, h⟩ := Option.map_eq_some_iff.mp h
    have hsingle := single_step (Chunkserver.oneByOne dirPrefix) H.server hstep
    obtain ⟨request, stage, hops, hlisted, hrec, hserves⟩ := H.serving hf hp hobj
    cases h
    rcases hserves with ⟨hfin, hexec⟩ | ⟨before, hcaller, hreading, hpipe⟩
    · -- The answer has been sent.
      obtain ⟨conn', hobjs, hf', hstate⟩ := Chunkserver.finished_of_step H.server hstep hobj hfin
      rw [hone] at hfin
      obtain ⟨archive, hfin⟩ := hfin.resolve_left (List.cons_ne_nil _ _)
      cases hfin
      have hw : written server.loop.objects c.object = [] := by rw [hobjs, written_set hlt]
      rw [take_writeOp htake, hw, putDown_nil]
      refine Inv.answers (H.serverUpdate hp hlt hf hobjs hsingle (fun _ => ?_) (fun _ _ => rfl)
        fun object' hobj' => ⟨request, stage, hops object' hobj', hlisted, hrec.congr rfl rfl,
          fun _ => .inl ⟨.inl rfl, hexec⟩⟩)
      exact (H.service hf).trans hstate.symm
    · have htake' : c.result.bytes <+: (n.wires p).up ∧
          (c.result.error = .success ∨ (n.wires p).cut = true) ∧
          up = (n.wires p).up.drop c.result.bytes.length := by
        rw [hone] at hreading
        exact take_read hreading.isRead htake
      obtain ⟨hbytes, hcut, rfl⟩ := htake'
      obtain ⟨⟨conn', ops'⟩, hobjs, hreads⟩ := Chunkserver.reads_of_step (hcmd request) H.server
        hstep hobj hreading hpipe hbytes
      cases hreads with
      | failed he hf' hstate =>
        rw [hobjs, written_set hlt, putDown_nil]
        refine Inv.answers (H.serverUpdate hp hlt hf hobjs hsingle (fun _ => ?_) (fun _ _ => rfl)
          fun object' hobj' => ⟨request, stage, hops object' hobj', hlisted, hrec.congr rfl rfl,
            fun _ => .inl ⟨.inl rfl, fun hc => ?_⟩⟩)
        · exact (H.service hf).trans hstate.symm
        · exact (Bool.false_ne_true (hc.symm.trans (hcut.resolve_left he))).elim
      | further hf' hstate hreading' =>
        rw [hobjs, hreading'.written_set hlt, putDown_nil]
        refine Inv.answers (H.serverUpdate hp hlt hf hobjs hsingle (fun _ => ?_) (fun _ _ => rfl)
          fun object' hobj' => ⟨request, stage, hops object' hobj', hlisted, hrec.congr rfl rfl,
            fun _ => .inr ?_⟩)
        · exact (H.service hf).trans hstate.symm
        · exact ⟨_, hcaller, hreading', hpipe.take hbytes⟩
      | @executed _ ops' r hf' hexec hops' =>
        subst hops'
        rw [hobjs, Chunkserver.written_answerOps hlt]
        have hserve : Rpc.call (Request.exec dirPrefix) (s.set p (.sent request)) (.serve p) =
            some (none, { (s.set p (.sent request)).set p (.answered request r) with
              service := server.loop.state }) := by
          have hservice : (s.set p (.sent request)).service = n.server.loop.state := H.service hf
          simp only [Rpc.call, Rpc.callers_set_self, hservice, hexec, Option.map_some]
        refine ⟨[(.send p, none), (.serve p, none)], _,
          (Trace.snoc .nil trivial ?_).snoc trivial hserve, rfl, ?_⟩
        · simp only [Rpc.call, hcaller]
        · refine H.serverUpdate hp hlt hf hobjs hsingle (fun _ => rfl) (fun q hq => ?_)
            fun object' hobj' => ⟨request, stage, hops object' hobj', hlisted, ?_,
              fun _ => .inl ⟨Chunkserver.finished_answerOps, fun _ => ?_⟩⟩
          · exact (Rpc.callers_set_of_ne hq).trans (Rpc.callers_set_of_ne hq)
          · rw [hcaller] at hrec
            have hset : ((s.set p (.sent request)).set p (.answered request r)).callers p = _ :=
              Rpc.callers_set_self
            rw [hset]
            exact Stage.Receives.answered (hrec.congr rfl rfl)
              (hlisted.mpr (List.mem_append_left _ (List.mem_of_getElem? hp)))
          · rw [show ((s.set p (.sent request)).set p (.answered request r)).callers p = _ from
              Rpc.callers_set_self]
            rintro ⟨⟩
      | down hf' =>
        rw [hobjs, written_set hlt, putDown_nil]
        exact Inv.answers (H.serverUpdate hp hlt hf hobjs hsingle (fun hno => (hf' hno).elim)
          (fun _ _ => rfl) fun object' hobj' =>
            ⟨request, stage, hops object' hobj', hlisted, hrec.congr rfl rfl,
              fun hno => (hf' hno).elim⟩)

/-! ## Runs -/

omit [DecidableEq κ] in
theorem Inv.init (disk : DirTree (List Byte)) :
    Inv (init disk : Network κ) (Rpc.init ⟨disk, .empty, []⟩) where
  service _ := rfl
  running _ := rfl
  client _ := List.forall_mem_nil _
  server := List.forall_mem_singleton.mpr (single_of_append ⟨.new, []⟩ rfl trivial)
  fresh _ _ _ := ⟨rfl, rfl, rfl⟩
  nodup := List.nodup_nil
  connected _ h := (List.not_mem_nil h).elim
  accepted _ := Nat.zero_le _
  accepting _ j object hobj _ := by
    cases j with
    | zero =>
      cases hobj
      exact .inr ⟨rfl, rfl, rfl⟩
    | succ j => cases hobj
  session _ _ hobj := by cases hobj

theorem Inv.call (H : Inv n s) {e : Event κ} {o : Option (Seen κ)}
    (hcmd : ∀ request : Request, (BinaryArchive.save request.command : Str).length < 2 ^ 32)
    (h : n.call dirPrefix e = some (o, n')) : Answers dirPrefix n' s o := by
  cases e with
  | client k act =>
    cases act with
    | complete c => exact H.clientComplete h
    | retrieveChunk data m =>
      obtain ⟨client, hstep, h⟩ := Option.map_eq_some_iff.mp h
      cases h
      rw [UserHarmony.step, if_neg (by rw [H.running k]; exact Bool.false_ne_true)] at hstep
      cases hstep
      exact H.clientStart (.retrieve data.getKey) rfl rfl
    | depositChunk data m =>
      obtain ⟨client, hstep, h⟩ := Option.map_eq_some_iff.mp h
      cases h
      rw [UserHarmony.step, if_neg (by rw [H.running k]; exact Bool.false_ne_true)] at hstep
      cases hstep
      exact H.clientStart (.deposit data) rfl rfl
  | server c =>
    obtain ⟨n', hstep, h⟩ := Option.map_eq_some_iff.mp h
    cases h
    exact H.serverComplete hcmd hstep
  | cut p up down =>
    cases h
    exact Inv.answers (H.cut p up down)

theorem Inv.of_trace {disk : DirTree (List Byte)} {l : List (Event κ × Option (Seen κ))}
    (hcmd : ∀ request : Request, (BinaryArchive.save request.command : Str).length < 2 ^ 32)
    (h : Trace (Network.call dirPrefix) always (Network.init disk) l n) : ∃ m s,
      Trace (Rpc.call (Request.exec dirPrefix)) Once (Rpc.init ⟨disk, .empty, []⟩) m s ∧
        m.filterMap seenOf = l.filterMap (·.2) ∧ Inv n s := by
  induction h with
  | nil => exact ⟨[], _, .nil, rfl, .init disk⟩
  | @snoc l n e o n' _ _ hcall ih =>
    obtain ⟨m, s, htrace, hseen, H⟩ := ih
    obtain ⟨m', s', htrace', hseen', H'⟩ := H.call hcmd hcall
    refine ⟨m ++ m', s', htrace.append htrace', ?_, H'⟩
    rw [List.filterMap_append, List.filterMap_append, hseen, hseen']
    cases o <;> rfl

end Network

namespace Network

open ShortArchive

theorem length_save_command (request : Request) :
    (BinaryArchive.save request.command : Str).length < 2 ^ 32 := by
  have h : (BinaryArchive.save Command.depositChunk : Str).length < 2 ^ 32 ∧
      (BinaryArchive.save Command.retrieveChunk : Str).length < 2 ^ 32 := by decide
  cases request with
  | deposit => exact h.1
  | retrieve => exact h.2

/-- A client deposits a chunk, and retrieves it on another connection. -/
def depositAndRetrieve (chunk : ChunkData) : List (Event Unit) :=
  let command (c : Command) : Str := BinaryArchive.save c
  let archive : Str := BinaryArchive.save chunk.archive
  let key : Str := BinaryArchive.save chunk.getKey
  let client (i : Nat) (bytes : Str) : Event Unit :=
    .client () (.complete ⟨i, 0, .success, bytes, true⟩)
  let server (j : Nat) (bytes : Str) : Event Unit := .server ⟨j, 0, .success, bytes, true⟩
  let read (end_ : Str → Event Unit) (bytes : Str) : List (Event Unit) :=
    [end_ (Connection.header bytes.length), end_ bytes]
  [.client () (.depositChunk chunk 0), client 0 [], server 0 []] ++
    read (server 0) (command .depositChunk) ++ [client 0 []] ++ read (server 0) archive ++
    [.client () (.retrieveChunk chunk 0), client 1 [], server 1 [], client 1 []] ++
    read (server 1) (command .retrieveChunk) ++ read (server 1) key ++ [client 1 []] ++
    read (client 1) archive

end Network

end ColonyFS

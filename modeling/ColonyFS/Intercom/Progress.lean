import ColonyFS.Intercom.Calls

/-!
# Connections do not get stuck

As long as a connection is not cut and the server runs and accepts, its request goes on: there is an
operation that can end without an error, at one of its ends or for the accept, until nothing is left
to do for the request.
-/

namespace ColonyFS.Network

open Machine EventLoop Function

/-! ## Operations that can end -/

/-- The result of an operation without an error. -/
def fine (bytes : Str) : Ending := ⟨.success, bytes, true⟩

section Operations

variable {α ρ ω : Type} {op : Op α ρ ω} {wire : Wire} {bytes ahead archive : Str} {cut : Bool}

/-- An operation that can end, with what it then has read. -/
def Ends (op : Op α ρ ω) (cut : Bool) (ahead bytes : Str) : Prop :=
  op.admits (fine bytes) = true ∧ (op.take cut ahead (fine bytes)).isSome

theorem ends_opening {handler : α} : Ends (.opening handler : Op α ρ ω) cut ahead [] := ⟨rfl, rfl⟩

theorem ends_writeOp {handler : ω} :
    Ends (writeOp archive handler : Op α ρ ω) cut ahead [] := by
  rw [writeOp]
  split
  · exact ⟨rfl, by rw [Op.take, if_pos (.inl rfl), Option.isSome_some]⟩
  · exact ⟨rfl, rfl⟩

theorem ends_readHeader {handler : ρ} (h : bytes <+: ahead)
    (hlen : bytes.length = Connection.headerLength) :
    Ends (.readHeader handler : Op α ρ ω) cut ahead bytes :=
  ⟨decide_eq_true hlen, by
    rw [Op.take, if_pos ⟨.inl rfl, List.isPrefixOf_iff_prefix.mpr h⟩, Option.isSome_some]⟩

theorem ends_readData {handler : ρ} (h : bytes <+: ahead) :
    Ends (.readData bytes.length handler : Op α ρ ω) cut ahead bytes :=
  ⟨decide_eq_true rfl, by
    rw [Op.take, if_pos ⟨.inl rfl, List.isPrefixOf_iff_prefix.mpr h⟩, Option.isSome_some]⟩

end Operations

/-! ## Connections -/

variable {κ : Type} [DecidableEq κ] [BinaryArchive Command] [BinaryArchive ChunkArchive]
  [BinaryArchive ChunkKey] {n : Network κ} {s : Calls κ} {k : κ} {p : κ × Nat} {dirPrefix : Str}
  {request : Request} {stage : Stage}

/-- An operation at an end of a connection ends without an error, or the accept it waits for. -/
def AtEnd (n : Network κ) (p : κ × Nat) : Event κ → Prop
  | .client k (.complete c) => (k, c.object) = p ∧ c.result.error = .success
  | .server c => c.result.error = .success ∧ c.result.remote = true ∧
      (n.peers[c.object]? = some p ∨ p ∈ n.backlog ∧ n.peers.length ≤ c.object)
  | .client _ (.retrieveChunk ..) | .client _ (.depositChunk ..) | .cut .. => False

/-- The server waits for connections. -/
def Accepting (n : Network κ) : Prop :=
  ∃ object ∈ n.server.loop.objects, object.pending = [.opening .handleAccept]

/-- The request of a connection can go on. -/
def Goes (dirPrefix : Str) (n : Network κ) (p : κ × Nat) : Prop :=
  ∃ e, AtEnd n p e ∧ (n.call dirPrefix e).isSome

/-- No end-point has accepted the connection, and none is left. -/
def Refused (n : Network κ) (p : κ × Nat) : Prop :=
  p ∉ n.peers ++ n.backlog ∧
    ∀ object, (n.clients p.1).loop.objects[p.2]? = some object → object.pending = []

/-- Nothing is left to do for the call on a connection: a chunk has been returned or deposited, or
there is none; or a message cannot be announced, or the host cannot be reached. -/
def Settled (n : Network κ) (s : Calls κ) (p : κ × Nat) : Prop :=
  match s.callers p with
  | .idle | .answered (.deposit _) _ | .answered (.retrieve _) none => True
  | .answered (.retrieve _) (some chunk) => 2 ^ 32 ≤ (BinaryArchive.save chunk.archive : Str).length
  | .calling request => 2 ^ 32 ≤ request.payload.length ∨ Refused n p
  | .sent _ => False

/-- The service is as the server is. A call waits in it until the server has read the request, and it
is answered with what the client has still to read. -/
structure Mirrors (n : Network κ) (s : Calls κ) : Prop where
  service : s.service = n.server.loop.state
  waiting : ∀ p : κ × Nat, p.2 < (n.clients p.1).loop.objects.length → p ∉ n.peers →
    ∃ request, s.callers p = .calling request
  accepted : ∀ (j : Nat) (p : κ × Nat) (object : Object Connection Chunkserver.ServerOp),
    n.peers[j]? = some p → n.server.loop.objects[j]? = some object → (n.wires p).cut = false →
      ((∃ request, s.callers p = .calling request) ↔ ¬Finished object.pending)
  answered : ∀ (p : κ × Nat) (key : ChunkKey) (r : Option ChunkData),
    s.callers p = .answered (.retrieve key) r → (n.wires p).cut = false →
      (n.wires p).down = answer r ∨
        ∃ chunk, r = some chunk ∧ (n.wires p).down = BinaryArchive.save chunk.archive

theorem goes_client {object : Object Connection UserHarmony.ClientOp} {op : UserHarmony.ClientOp}
    {bytes : Str} (hf : (n.clients p.1).fault = none)
    (hobj : (n.clients p.1).loop.objects[p.2]? = some object) (hops : object.pending = [op])
    (hop : Ends op (n.wires p).cut (n.wires p).down bytes) : Goes dirPrefix n p := by
  obtain ⟨k, i⟩ := p
  have hend := Process.ending_of_pending UserHarmony.handlers.program hf hobj hops hop.1
  obtain ⟨down, hdown⟩ := Option.isSome_iff_exists.mp hop.2
  refine ⟨.client k (.complete ⟨i, 0, fine bytes⟩), ⟨rfl, rfl⟩, ?_⟩
  have hstep : UserHarmony.step (n.clients k) (.complete ⟨i, 0, fine bytes⟩) = some _ :=
    congrArg (Option.map _) hend
  simp only [call, clientComplete, hend, Option.bind_some, hdown, hstep, Option.map_some,
    Option.isSome_some]

theorem goes_server {object : Object Connection Chunkserver.ServerOp} {op : Chunkserver.ServerOp}
    {j : Nat} {bytes : Str} (hf : n.server.fault = none)
    (hobj : n.server.loop.objects[j]? = some object) (hops : object.pending = [op])
    (hp : n.peers[j]? = some p) (hopen : op.isOpening = false)
    (hop : Ends op (n.wires p).cut (n.wires p).up bytes) : Goes dirPrefix n p := by
  have hend := Process.ending_of_pending (Chunkserver.handlers dirPrefix).program hf hobj
    hops hop.1
  obtain ⟨up, hup⟩ := Option.isSome_iff_exists.mp hop.2
  refine ⟨.server ⟨j, 0, fine bytes⟩, ⟨rfl, rfl, .inl hp⟩, ?_⟩
  have hstep : Chunkserver.step dirPrefix n.server ⟨j, 0, fine bytes⟩ = some _ :=
    congrArg (Option.map _) hend
  simp only [call, serverComplete, hend, Option.bind_some, hopen, Bool.false_eq_true, if_false, hp,
    hup, hstep, Option.map_some, Option.isSome_some]

theorem goes_accept {object : Object Connection Chunkserver.ServerOp} {j : Nat}
    (hf : n.server.fault = none) (hobj : n.server.loop.objects[j]? = some object)
    (hops : object.pending = [.opening .handleAccept]) (hj : n.peers.length ≤ j)
    (hp : p ∈ n.backlog) : Goes dirPrefix n p := by
  have hend := Process.ending_of_pending (Chunkserver.handlers dirPrefix).program
    (r := fine []) hf hobj hops rfl
  refine ⟨.server ⟨j, 0, fine []⟩, ⟨rfl, rfl, .inr ⟨hp, hj⟩⟩, ?_⟩
  have hstep : Chunkserver.step dirPrefix n.server ⟨j, 0, fine []⟩ = some _ :=
    congrArg (Option.map _) hend
  obtain ⟨q, backlog, hq⟩ := List.exists_cons_of_ne_nil (List.ne_nil_of_mem hp)
  have haccept : (n.accept dirPrefix ⟨j, 0, fine []⟩).isSome := by
    simp only [accept, hq, hstep, Option.map_some]
    rfl
  obtain ⟨n', hn'⟩ := Option.isSome_iff_exists.mp haccept
  have hopen : (Op.opening .handleAccept : Chunkserver.ServerOp).isOpening = true := rfl
  simp only [call, serverComplete, hend, Option.bind_some, hopen, if_true, hn', Option.map_some,
    Option.isSome_some]

/-! ## The two ends of a connection -/

omit [DecidableEq κ] in
theorem Reading.not_finished {ops : List Chunkserver.ServerOp} {before : Str}
    (H : Reading request ops before) : ¬Finished ops := by
  rintro (rfl | ⟨archive, rfl⟩)
  · cases H
  · obtain ⟨_, h⟩ | ⟨_, _, h⟩ := H.isRead
    all_goals
      rw [writeOp] at h
      split at h <;> cases h

omit [BinaryArchive Command] [BinaryArchive ChunkKey] in
theorem Stage.Receives.calling {request' : Request} {wire : Wire}
    (H : stage.Receives request (.calling request') wire) (hcut : wire.cut = false) :
    request' = request := by
  cases stage with
  | connecting => cases H.1; rfl
  | refused => cases H; rfl
  | command | payload | header =>
    obtain ⟨h, _⟩ | ⟨_, h, _⟩ := H <;> cases h
    rfl
  | deposited =>
    obtain ⟨_, h | ⟨_, h⟩⟩ := H <;> cases h
    rfl
  | data => obtain ⟨_, h, _⟩ := H; cases h
  | done => cases H hcut

omit [BinaryArchive Command] [BinaryArchive ChunkKey] in
/-- The chunk for a retrieval is on its way, with the header or without. -/
theorem Stage.Receives.down_eq {key : ChunkKey} {r : Option ChunkData} {wire : Wire}
    (H : stage.Receives request (.answered (.retrieve key) r) wire) (hcut : wire.cut = false) :
    wire.down = answer r ∨
      ∃ chunk, r = some chunk ∧ wire.down = BinaryArchive.save chunk.archive := by
  cases stage with
  | connecting => cases H.1
  | refused => cases H
  | command | payload | header =>
    obtain ⟨h, _⟩ | ⟨r', h, hahead⟩ := H
    · cases h
    · cases h
      exact .inl (hahead.2 hcut)
  | deposited =>
    obtain ⟨⟨_, rfl⟩, h | ⟨_, h⟩⟩ := H <;> cases h
  | data =>
    obtain ⟨chunk, h, _, hahead⟩ := H
    cases h
    exact .inr ⟨chunk, rfl, hahead.2 hcut⟩
  | done => cases H hcut

omit [DecidableEq κ] in
theorem Inv.mirrors (H : Inv n s) (hf : n.server.fault = none) : Mirrors n s where
  service := H.service hf
  waiting p hp hnot := by
    obtain ⟨request, _, _, _, _, hserves⟩ := H.session p _ (List.getElem?_eq_getElem hp)
    exact ⟨request, (hserves hf none hnot).1⟩
  answered p key r hr hcut := by
    have hp : p.2 < (n.clients p.1).loop.objects.length := by
      by_contra hlt
      cases (H.fresh p.1 p.2 (Nat.not_lt.mp hlt)).1.symm.trans hr
    obtain ⟨_, _, _, _, hrec, _⟩ := H.session p _ (List.getElem?_eq_getElem hp)
    rw [hr] at hrec
    exact Stage.Receives.down_eq hrec hcut
  accepted j p object hp hobj hcut := by
    obtain ⟨request, _, _, _, hrec, hserves⟩ := H.serving hf hp hobj
    rcases hserves with ⟨hfin, hexec⟩ | ⟨before, hcaller, hreading, _⟩
    · refine iff_of_false ?_ (not_not.mpr hfin)
      rintro ⟨request', hcaller⟩
      rw [hcaller] at hrec
      cases Stage.Receives.calling hrec hcut
      exact hexec hcut hcaller
    · exact iff_of_true ⟨request, hcaller⟩ (Reading.not_finished hreading)

/-- What comes next is there for the server to read. -/
theorem ends_of_reading {ops : List Chunkserver.ServerOp} {before up : Str} {cut : Bool}
    (hcmd : (BinaryArchive.save request.command : Str).length < 2 ^ 32)
    (hfit : request.payload.length < 2 ^ 32) (H : Reading request ops before)
    (hwhole : before ++ up = request.script) :
    ∃ op bytes, ops = [op] ∧ op.isOpening = false ∧ Ends op cut up bytes := by
  rw [Request.script, message, message, if_pos hcmd, if_pos hfit] at hwhole
  cases H with
  | command =>
    rw [List.nil_append, List.append_assoc] at hwhole
    refine ⟨_, _, rfl, rfl, ends_readHeader ?_ (Connection.length_header.mpr hcmd)⟩
    exact ⟨_, hwhole.symm⟩
  | commandData =>
    rw [List.append_assoc, List.append_cancel_left_eq] at hwhole
    exact ⟨_, _, rfl, rfl, ends_readData ⟨_, hwhole.symm⟩⟩
  | payload =>
    rw [message, if_pos hcmd, List.append_cancel_left_eq] at hwhole
    refine ⟨_, _, rfl, rfl, ends_readHeader ?_ (Connection.length_header.mpr hfit)⟩
    exact ⟨_, hwhole.symm⟩
  | payloadData =>
    rw [message, if_pos hcmd, List.append_assoc, List.append_cancel_left_eq,
      List.append_cancel_left_eq] at hwhole
    exact ⟨_, _, rfl, rfl, ends_readData ⟨[], by rw [List.append_nil, hwhole]⟩⟩

/-- A request goes on when the client has written all of it. -/
theorem Inv.goes_of_calling (H : Inv n s)
    (hcmd : (BinaryArchive.save request.command : Str).length < 2 ^ 32)
    (hf : n.server.fault = none) (haccept : p ∈ n.backlog → Accepting n)
    (hlisted : p ∈ n.peers ++ n.backlog) (hcaller : s.callers p = .calling request)
    (hcut : (n.wires p).cut = false) (hsent : stage.sent request = some request.script)
    (hserves : ∀ v, n.At p v → Serves request stage (s.callers p) (n.wires p) v) :
    Goes dirPrefix n p ∨ Settled n s p := by
  rw [Settled, hcaller]
  rcases Nat.lt_or_ge request.payload.length (2 ^ 32) with hfit | hfit
  · left
    rcases List.mem_append.mp hlisted with hp | hp
    · obtain ⟨j, hj⟩ := List.mem_iff_getElem?.mp hp
      have hlt := Nat.lt_of_lt_of_le (List.getElem?_eq_some_iff.mp hj).1 (H.accepted hf)
      have hobj := List.getElem?_eq_getElem hlt
      rcases hserves (some _) ⟨j, _, hj, hobj, rfl⟩ with ⟨_, hexec⟩ | ⟨before, _, hreading, hpipe⟩
      · exact (hexec hcut hcaller).elim
      · obtain ⟨op, bytes, hops, hopen, hends⟩ :=
          ends_of_reading hcmd hfit hreading (hpipe.whole hcut _ hsent)
        exact goes_server hf hobj hops hj hopen hends
    · obtain ⟨object, hmem, hops⟩ := haccept hp
      obtain ⟨j, hobj⟩ := List.mem_iff_getElem?.mp hmem
      refine goes_accept hf hobj hops (Nat.not_lt.mp fun hlt => ?_) hp
      obtain ⟨request', stage', _, _, _, hserves'⟩ :=
        H.serving hf (List.getElem?_eq_getElem hlt) hobj
      rw [hops] at hserves'
      cases hserves'.not_opening
  · exact .inr (.inl hfit)

theorem Inv.goes (H : Inv n s)
    (hcmd : ∀ request : Request, (BinaryArchive.save request.command : Str).length < 2 ^ 32)
    (hf : n.server.fault = none) (haccept : p ∈ n.backlog → Accepting n)
    (hp : p.2 < (n.clients p.1).loop.objects.length) (hcut : (n.wires p).cut = false) :
    Goes dirPrefix n p ∨ Settled n s p := by
  have hobj := List.getElem?_eq_getElem hp
  obtain ⟨request, stage, hops, hlisted, hrec, hserves⟩ := H.session p _ hobj
  cases stage with
  | connecting m => exact .inl (goes_client (H.running p.1) hobj hops ends_opening)
  | command | payload => exact .inl (goes_client (H.running p.1) hobj hops ends_writeOp)
  | refused =>
    right
    rw [Settled, hrec]
    refine .inr ⟨fun hmem => Bool.false_ne_true (hlisted.mpr hmem), fun object hobj' => ?_⟩
    cases hobj.symm.trans hobj'
    exact hops
  | deposited =>
    obtain ⟨⟨chunk, rfl⟩, hcaller | ⟨r, hcaller⟩⟩ := hrec
    · exact H.goes_of_calling (hcmd _) hf haccept (hlisted.mp rfl) hcaller hcut rfl (hserves hf)
    · right
      rw [Settled, hcaller]
      trivial
  | header =>
    rcases hrec with ⟨hcaller, _⟩ | ⟨r, hcaller, hahead⟩
    · exact H.goes_of_calling (hcmd _) hf haccept (hlisted.mp rfl) hcaller hcut rfl (hserves hf)
    · cases r with
      | none =>
        right
        rw [Settled, hcaller]
        cases request <;> trivial
      | some chunk =>
        have hdown := hahead.2 hcut
        rw [answer, message] at hdown
        split at hdown
        · next hfit =>
          left
          refine goes_client (H.running p.1) hobj hops
            (ends_readHeader ?_ (Connection.length_header.mpr hfit))
          exact ⟨_, hdown.symm⟩
        · next hfit =>
          right
          rw [Settled, hcaller]
          cases request with
          | deposit => trivial
          | retrieve => exact Nat.not_lt.mp hfit
  | data size =>
    obtain ⟨chunk, _, rfl, hahead⟩ := hrec
    left
    refine goes_client (H.running p.1) hobj hops (ends_readData ?_)
    rw [hahead.2 hcut]
  | done =>
    right
    rw [Settled, hrec hcut]
    trivial

end ColonyFS.Network

namespace ColonyFS.Network

open Machine ShortArchive

end ColonyFS.Network

import ColonyFS.Intercom.Network
import ColonyFS.Intercom.StaysUp

/-!
# One request at its two ends

What the operations of `Network` end in: what a client or the server has under way afterwards, what
it has read, and what it has written. `Pipe` and `Wire.Ahead` say what is still on the streams of a
connection, `Stage.Receives` and `Serves` where its request is. `reads_of_step` is about a read of
the server, `moves_of_step` about an operation of a client. Other connections are not looked at.
-/

namespace ColonyFS

open Machine EventLoop Function

/-! ## What an operation ends in -/

theorem modify_set {α : Type} (l : List α) (i : Nat) (a : α) (f : α → α) :
    (l.set i a).modify i f = l.set i (f a) := by
  induction l generalizing i with
  | nil => rw [List.set_nil, List.set_nil, List.modify_nil]
  | cons b l ih =>
    cases i with
    | zero => rfl
    | succ i => exact congrArg (b :: ·) (ih i)

section Operations

variable {σ α ρ ω : Type} {objects : List (Object Connection (Op α ρ ω))} {state : σ} {i : Nat}
  {conn : Connection} {archive : Str} {handler : ω} {r : Ending} {op : Op α ρ ω}

theorem change_apply {φ : Type} (f : Object Connection (Op α ρ ω) → Object Connection (Op α ρ ω))
    (object : Object Connection (Op α ρ ω)) :
    (change i f : EStateM φ _ Unit) (⟨objects.set i object, state⟩ : Loop σ Connection (Op α ρ ω)) =
      .ok () ⟨objects.set i (f object), state⟩ := by
  rw [change, Exec.modify_apply, modify_set]

theorem asyncRead_apply {handler : ρ} :
    asyncRead i handler (⟨objects.set i ⟨conn, []⟩, state⟩ : Loop σ Connection (Op α ρ ω)) =
      .ok () ⟨objects.set i ⟨conn, [.readHeader handler]⟩, state⟩ := change_apply ..

theorem asyncConnect_apply {handler : α} :
    asyncConnect i handler (⟨objects.set i ⟨conn, []⟩, state⟩ : Loop σ Connection (Op α ρ ω)) =
      .ok () ⟨objects.set i ⟨conn, [.opening handler]⟩, state⟩ := change_apply ..

theorem asyncWrite_apply (objects : List (Object Connection (Op α ρ ω))) (state : σ) (i : Nat)
    (conn : Connection) (archive : Str) (handler : ω) : ∃ conn',
    asyncWrite i archive handler (⟨objects.set i ⟨conn, []⟩, state⟩ : Loop σ Connection (Op α ρ ω)) =
      .ok () ⟨objects.set i ⟨conn', [writeOp archive handler]⟩, state⟩ := by
  refine ⟨(conn.asyncWrite archive).2, ?_⟩
  rw [asyncWrite, change_apply]
  by_cases hlt : archive.length < 2 ^ 32
  · simp only [Connection.asyncWrite_of_lt hlt, writeOp, if_pos hlt, List.nil_append]
  · simp only [Connection.asyncWrite_of_le (Nat.not_lt.mp hlt), writeOp, if_neg hlt,
      List.nil_append]

theorem run_writeOp (handlers : Handlers σ α ρ ω) (i : Nat) (conn : Connection) (archive : Str)
    (handler : ω) (r : Ending) : ∃ e,
    handlers.run i conn (writeOp archive handler) r = handlers.written handler i e := by
  rw [writeOp]
  split
  · exact ⟨r.error, rfl⟩
  · exact ⟨.invalidArgument, rfl⟩

theorem settle_writeOp : (writeOp archive handler : Op α ρ ω).settle conn r = conn := by
  rw [writeOp]
  split <;> rfl

theorem isOpening_writeOp : (writeOp archive handler : Op α ρ ω).isOpening = false := by
  rw [writeOp]
  split <;> rfl

theorem take_writeOp {cut : Bool} {ahead left : Str}
    (h : (writeOp archive handler : Op α ρ ω).take cut ahead r = some left) : left = ahead := by
  rw [writeOp] at h
  split at h
  · simp only [Op.take] at h
    split at h
    · exact (Option.some.inj h).symm
    · cases h
  · exact (Option.some.inj h).symm

/-- A read takes what it has got off the stream. -/
theorem take_read {cut : Bool} {ahead left : Str}
    (hop : (∃ handler, op = .readHeader handler) ∨ ∃ size handler, op = .readData size handler)
    (h : op.take cut ahead r = some left) :
    r.bytes <+: ahead ∧ (r.error = .success ∨ cut = true) ∧ left = ahead.drop r.bytes.length := by
  rcases hop with ⟨handler, rfl⟩ | ⟨size, handler, rfl⟩ <;>
  · simp only [Op.take] at h
    split at h
    · next hr => exact ⟨List.isPrefixOf_iff_prefix.mp hr.2, hr.1, (Option.some.inj h).symm⟩
    · cases h

theorem written_set (h : i < objects.length) {ops : List (Op α ρ ω)} :
    written (objects.set i ⟨conn, ops⟩) i = match ops with
      | [.write header data _] => header ++ data
      | _ => [] := by
  rw [written, List.getElem?_set_self h]
  split
  · next heq =>
    cases heq
    rfl
  · next hne =>
    split
    · exact (hne _ _ _ _ rfl).elim
    · rfl

theorem written_writeOp (h : i < objects.length) :
    written (objects.set i ⟨conn, [writeOp archive handler]⟩) i = message archive := by
  rw [written_set h, writeOp, message]
  split
  · next heq =>
    split at heq
    · next hlt =>
      cases heq
      rw [if_pos hlt]
    · cases heq
  · next hne =>
    split at hne
    · exact (hne _ _ _ rfl).elim
    · next hlt => rw [if_neg hlt]

/-- What a process with one operation at a time does when one ends. -/
theorem complete_cases {handlers : Handlers σ α ρ ω} {s s' : EventLoop.Process Fault σ Connection (Op α ρ ω)}
    {c : Completion Ending} (H : ∀ object ∈ s.loop.objects, object.Single Op.Intact)
    (h : handlers.program.step s c = some s') : ∃ object op,
      s.ending handlers.program c = some (object, op) ∧ s.fault = none ∧
      s.loop.objects[c.object]? = some object ∧ object.pending = [op] ∧
      op.admits c.result ∧ op.Intact object.data ∧
      s' = finish (handlers.run c.object (op.settle object.data c.result) op c.result
        ⟨s.loop.objects.set c.object ⟨op.settle object.data c.result, []⟩, s.loop.state⟩) := by
  obtain ⟨object, op, hend, rfl⟩ := step_cases h
  obtain ⟨hfault, hobj, hop, hadm⟩ := Process.ending_eq_some hend
  have hsingle := H object (List.mem_of_getElem? hobj)
  obtain ⟨hone, herase⟩ := hsingle.eq hop
  refine ⟨object, op, hend, hfault, hobj, hone, hadm, hsingle.good op (List.mem_of_getElem? hop), ?_⟩
  rw [Process.settled, herase]
  rfl

/-- A header that `async_write` has made, when it is read. -/
theorem run_readHeader (handlers : Handlers σ α ρ ω) {handler : ρ} {n : Nat} {conn₀ : Connection}
    (hn : n < 2 ^ 32) (he : r.error = .success) (hbytes : r.bytes = Connection.header n) :
    ∃ conn', handlers.run i ((Op.readHeader handler : Op α ρ ω).settle conn r) (.readHeader handler) r
        ⟨objects.set i ⟨conn₀, []⟩, state⟩ =
      .ok () ⟨objects.set i ⟨conn', [.readData n handler]⟩, state⟩ := by
  have hlen := Connection.length_header.mpr hn
  have hheader : ((Op.readHeader handler : Op α ρ ω).settle conn r).inboundHeader =
      Connection.header n := by
    rw [Op.settle, hbytes, ← hlen, List.take_left]
  have hmax : ¬Connection.maxSize < n := by
    simp only [Connection.maxSize]
    omega
  have hread : ∃ conn', ((Op.readHeader handler : Op α ρ ω).settle conn r).handleReadHeader .success =
      (.read n, conn') := by
    rw [Connection.handleReadHeader_success, hheader, Connection.inboundDataSize_header hn]
    exact ⟨_, if_neg hmax⟩
  obtain ⟨conn', hread⟩ := hread
  refine ⟨conn', ?_⟩
  simp only [Handlers.run, he, hread, change_apply, List.nil_append]

/-- The data that a read has filled the buffer with. -/
theorem inboundData_settle {handler : ρ} {size : Nat}
    (hop : (Op.readData size handler : Op α ρ ω).Intact conn) (hlen : r.bytes.length = size) :
    ((Op.readData size handler : Op α ρ ω).settle conn r).inboundData = r.bytes := by
  have hdrop : conn.inboundData.drop r.bytes.length = [] :=
    List.drop_eq_nil_of_le (by rw [hlen]; exact Nat.le_of_eq hop)
  rw [Op.settle, hdrop, List.append_nil]

theorem length_of_admits {handler : ρ} {size : Nat} (he : r.error = .success)
    (hop : op = .readHeader handler ∧ size = Connection.headerLength ∨ op = .readData size handler)
    (h : op.admits r) : r.bytes.length = size := by
  rcases hop with ⟨rfl, rfl⟩ | rfl <;>
  · simpa [Op.admits, he] using h

end Operations

/-! ## What is on the streams -/

theorem append_drop_of_prefix {bytes more : Str} (h : bytes <+: more) :
    bytes ++ more.drop bytes.length = more := by
  obtain ⟨rest, rfl⟩ := h
  rw [List.drop_left]

theorem putUp_nil {wire : Wire} : wire.putUp [] = wire := by
  rw [Wire.putUp, List.append_nil]
  split <;> rfl

theorem putDown_nil {wire : Wire} : wire.putDown [] = wire := by
  rw [Wire.putDown, List.append_nil]
  split <;> rfl

theorem putUp_down {wire : Wire} {w : Str} : (wire.putUp w).down = wire.down := by
  rw [Wire.putUp]
  split <;> rfl

theorem putUp_cut {wire : Wire} {w : Str} : (wire.putUp w).cut = wire.cut := by
  rw [Wire.putUp]
  split <;> rfl

theorem Wire.Ahead.congr {wire wire' : Wire} {rest : Str} (H : wire.Ahead rest)
    (hdown : wire'.down = wire.down) (hcut : wire'.cut = wire.cut) : wire'.Ahead rest := by
  rw [Wire.Ahead, hdown, hcut]
  exact H

/-- The client reads. -/
theorem Wire.Ahead.take {wire : Wire} {bytes rest : Str} (H : wire.Ahead (bytes ++ rest))
    (h : bytes <+: wire.down) :
    Wire.Ahead { wire with down := wire.down.drop bytes.length } rest := by
  obtain ⟨hpre, hwhole⟩ := H
  refine ⟨?_, fun hc => ?_⟩
  · obtain ⟨more, hmore⟩ := h
    rw [← hmore] at hpre ⊢
    rw [List.drop_left]
    exact (List.prefix_append_right_inj bytes).mp hpre
  · dsimp only
    rw [hwhole hc, List.drop_left]

theorem Wire.Ahead.lose {wire : Wire} {rest : Str} (H : wire.Ahead rest) (up down : Nat) :
    (wire.lose up down).Ahead rest :=
  ⟨(List.take_prefix down wire.down).trans H.1, nofun⟩

section Streams

variable [BinaryArchive Command] [BinaryArchive ChunkArchive] [BinaryArchive ChunkKey]
  {request : Request} {stage stage' : Stage} {wire wire' : Wire} {before bytes next more w : Str}

theorem Pipe.congr (H : Pipe request stage wire before) (hup : wire'.up = wire.up)
    (hcut : wire'.cut = wire.cut) : Pipe request stage wire' before :=
  ⟨hup ▸ H.begins, fun hc => hup ▸ H.whole (hcut ▸ hc)⟩

/-- The client goes on to write `w`. -/
theorem Pipe.put (H : Pipe request stage wire before) {a : Str} (ha : stage.sent request = some a)
    (hb : stage'.sent request = some (a ++ w)) (hw : a ++ w <+: request.script) :
    Pipe request stage' (wire.putUp w) before := by
  rw [Wire.putUp]
  split
  · next hcut => exact ⟨H.begins, fun hc => (Bool.false_ne_true (hc.symm.trans hcut)).elim⟩
  · next hcut =>
    have hwhole : before ++ (wire.up ++ w) = a ++ w := by
      rw [← List.append_assoc, H.whole (Bool.eq_false_iff.mpr hcut) a ha]
    refine ⟨hwhole ▸ hw, fun _ sent hs => ?_⟩
    cases hb.symm.trans hs
    exact hwhole

/-- The client goes on and writes nothing. -/
theorem Pipe.silent (H : Pipe request stage wire before)
    (h : ∀ sent, stage'.sent request = some sent → stage.sent request = some sent) :
    Pipe request stage' wire before :=
  ⟨H.begins, fun hc sent hs => H.whole hc sent (h sent hs)⟩

/-- The server reads. -/
theorem Pipe.take (H : Pipe request stage wire before) (h : bytes <+: wire.up) :
    Pipe request stage { wire with up := wire.up.drop bytes.length } (before ++ bytes) := by
  have heq : before ++ bytes ++ wire.up.drop bytes.length = before ++ wire.up := by
    rw [List.append_assoc, append_drop_of_prefix h]
  exact ⟨heq ▸ H.begins, fun hc sent hs => heq.trans (H.whole hc sent hs)⟩

theorem Pipe.lose (H : Pipe request stage wire before) (up down : Nat) :
    Pipe request stage (wire.lose up down) before := by
  refine ⟨List.IsPrefix.trans ?_ H.begins, nofun⟩
  exact (List.prefix_append_right_inj before).mpr (List.take_prefix up wire.up)

/-- What the server reads is what comes next. -/
theorem Pipe.reads (H : Pipe request stage wire before)
    (hs : request.script = before ++ (next ++ more)) (hb : bytes <+: wire.up)
    (hlen : bytes.length = next.length) : bytes = next := by
  have hpre : wire.up <+: next ++ more :=
    (List.prefix_append_right_inj before).mp (hs ▸ H.begins)
  have h : bytes <+: next ++ more := hb.trans hpre
  have hnext := List.prefix_of_prefix_length_le h (List.prefix_append next more) (Nat.le_of_eq hlen)
  exact hnext.eq_of_length hlen

variable {caller caller' : Exchange} {v : Option (List Chunkserver.ServerOp)}
  {ops : List Chunkserver.ServerOp} {objects : List (Object Connection Chunkserver.ServerOp)}
  {conn : Connection} {i : Nat}

theorem Serves.move (H : Serves request stage caller wire v)
    (hcut : wire'.cut = false → wire.cut = false)
    (hpipe : ∀ before, Pipe request stage wire before → Pipe request stage' wire' before) :
    Serves request stage' caller wire' v := by
  cases v with
  | none => exact ⟨H.1, hpipe _ H.2⟩
  | some ops =>
    rcases H with ⟨hfin, hexec⟩ | ⟨before, hcaller, hreading, hp⟩
    · exact .inl ⟨hfin, fun hc => hexec (hcut hc)⟩
    · exact .inr ⟨before, hcaller, hreading, hpipe before hp⟩

/-- A request that has been executed. -/
theorem Serves.finished (H : Serves request stage caller wire v) (hne : caller ≠ .calling request)
    (hne' : caller' ≠ .calling request) : Serves request stage' caller' wire' v := by
  cases v with
  | none => exact (hne H.1).elim
  | some ops =>
    rcases H with ⟨hfin, _⟩ | ⟨before, hcaller, _⟩
    · exact .inl ⟨hfin, fun _ => hne'⟩
    · exact (hne hcaller).elim

theorem Reading.isRead {op : Chunkserver.ServerOp} (h : Reading request [op] before) :
    (∃ handler, op = .readHeader handler) ∨ ∃ size handler, op = .readData size handler := by
  cases h with
  | command | payload => exact .inl ⟨_, rfl⟩
  | commandData | payloadData => exact .inr ⟨_, _, rfl⟩

theorem Reading.written_set (h : Reading request ops before) (hi : i < objects.length) :
    written (objects.set i ⟨conn, ops⟩) i = [] := by
  rw [ColonyFS.written_set hi]
  cases h <;> rfl

theorem Serves.not_opening {op : Chunkserver.ServerOp}
    (h : Serves request stage caller wire (some [op])) : op.isOpening = false := by
  rcases h with ⟨hnil | ⟨archive, hops⟩, _⟩ | ⟨before, _, hreading, _⟩
  · cases hnil
  · cases hops
    exact isOpening_writeOp
  · rcases hreading.isRead with ⟨_, rfl⟩ | ⟨_, _, rfl⟩
    · rfl
    · rfl

omit [BinaryArchive Command] [BinaryArchive ChunkKey] in
/-- The server has answered. -/
theorem Stage.Receives.answered {r : Option ChunkData}
    (H : stage.Receives request (.calling request) wire) (hlisted : stage.listed = true) :
    stage.Receives request (.answered request r) (wire.putDown (answer r)) := by
  have hahead : wire.down = [] → (wire.putDown (answer r)).Ahead (answer r) := by
    intro hnil
    rw [Wire.putDown]
    split
    · next hcut =>
      refine ⟨?_, fun hc => (Bool.false_ne_true (hc.symm.trans hcut)).elim⟩
      rw [hnil]
      exact List.nil_prefix
    · rw [hnil]
      exact ⟨List.prefix_refl _, fun _ => rfl⟩
  cases stage with
  | command | payload | header =>
    rcases H with ⟨_, hnil⟩ | ⟨_, hc, _⟩
    · exact .inr ⟨r, rfl, hahead hnil⟩
    · cases hc
  | data size =>
    obtain ⟨_, hc, _⟩ := H
    cases hc
  | done =>
    intro hc
    have hcut : wire.cut = false := by
      rw [← hc, Wire.putDown]
      split <;> rfl
    cases H hcut
  | connecting | refused => cases hlisted
  | deposited => exact ⟨H.1, .inr ⟨r, rfl⟩⟩

omit [BinaryArchive Command] [BinaryArchive ChunkKey] in
theorem Stage.Receives.congr (H : stage.Receives request caller wire)
    (hdown : wire'.down = wire.down) (hcut : wire'.cut = wire.cut) :
    stage.Receives request caller wire' := by
  cases stage with
  | connecting => exact ⟨H.1, hdown.trans H.2⟩
  | command | payload | header =>
    rcases H with ⟨hc, hnil⟩ | ⟨r, hc, hd⟩
    · exact .inl ⟨hc, hdown.trans hnil⟩
    · exact .inr ⟨r, hc, hd.congr hdown hcut⟩
  | data size =>
    obtain ⟨chunk, hc, hsize, hd⟩ := H
    exact ⟨chunk, hc, hsize, hd.congr hdown hcut⟩
  | done => exact fun hc => H (hcut ▸ hc)
  | refused | deposited => exact H

omit [BinaryArchive Command] [BinaryArchive ChunkKey] in
theorem Stage.Receives.lose (H : stage.Receives request caller wire) (up down : Nat) :
    stage.Receives request caller (wire.lose up down) := by
  cases stage with
  | connecting => exact ⟨H.1, by rw [Wire.lose, H.2, List.take_nil]⟩
  | command | payload | header =>
    rcases H with ⟨hc, hnil⟩ | ⟨r, hc, hd⟩
    · exact .inl ⟨hc, by rw [Wire.lose, hnil, List.take_nil]⟩
    · exact .inr ⟨r, hc, hd.lose up down⟩
  | data size =>
    obtain ⟨chunk, hc, hsize, hd⟩ := H
    exact ⟨chunk, hc, hsize, hd.lose up down⟩
  | done => nofun
  | refused | deposited => exact H

end Streams

/-! ## What the server does with a request -/

/-- A request in one step, with its answer; `none` if it takes the server down. -/
def Request.exec (dirPrefix : Str) (storage : Storage) :
    Request → Option (Option ChunkData × Storage)
  | .deposit chunk =>
    (Exec.state? (Storage.depositChunk dirPrefix chunk.uid chunk.cuid (some chunk.data) storage)).map
      fun storage => (none, storage)
  | .retrieve key => match Storage.retrieveChunk key.uid key.cuid storage with
    | .ok chunk storage => some (some chunk, storage)
    | .error .inexistentFile storage => some (none, storage)
    | .error _ _ => none

namespace Chunkserver

variable [BinaryArchive Command] [BinaryArchive ChunkArchive] [BinaryArchive ChunkKey]
  {dirPrefix : Str} {request : Request} {objects : List (Object Connection ServerOp)}
  {storage : Storage} {i : Nat} {conn conn₀ : Connection} {before : Str} {s s' : Chunkserver}
  {c : Completion Ending} {object : Object Connection ServerOp}

/-- What the server has under way when it has executed a request. -/
def answerOps : Option ChunkData → List ServerOp
  | some chunk => [writeOp (BinaryArchive.save chunk.archive) .finish]
  | none => []

omit [BinaryArchive Command] [BinaryArchive ChunkKey] in
theorem finished_answerOps {r : Option ChunkData} : Finished (answerOps r) := by
  cases r with
  | none => exact .inl rfl
  | some chunk => exact .inr ⟨_, rfl⟩

omit [BinaryArchive Command] [BinaryArchive ChunkKey] in
theorem written_answerOps {r : Option ChunkData} (hi : i < objects.length) :
    written (objects.set i ⟨conn, answerOps r⟩) i = answer r := by
  cases r with
  | none => exact written_set hi
  | some chunk => exact written_writeOp hi

theorem run_reader (dirPrefix : Str) (objects : List (Object Connection ServerOp)) (i : Nat)
    (storage : Storage) (conn₀ : Connection) (hdata : conn.inboundData = request.payload) : ∃ conn',
    (∃ r storage', request.exec dirPrefix storage = some (r, storage') ∧
      (handlers dirPrefix).read request.reader i conn .success ⟨objects.set i ⟨conn₀, []⟩, storage⟩ =
        .ok () ⟨objects.set i ⟨conn', answerOps r⟩, storage'⟩) ∨
    ∃ e storage', (handlers dirPrefix).read request.reader i conn .success
        ⟨objects.set i ⟨conn₀, []⟩, storage⟩ =
      .error e ⟨objects.set i ⟨conn₀, []⟩, storage'⟩ := by
  cases request with
  | deposit chunk =>
    have hload : BinaryArchive.load conn.inboundData = some chunk.archive := by
      rw [hdata]
      exact BinaryArchive.load_save _
    simp only [Request.reader, handlers, Connection.handleReadData_of_load hload, displayData,
      Request.exec, ChunkData.archive]
    cases hd : Storage.depositChunk dirPrefix chunk.uid chunk.cuid (some chunk.data) storage with
    | ok _ storage' => exact ⟨conn₀, .inl ⟨none, storage', rfl, rfl⟩⟩
    | error e storage' => exact ⟨conn₀, .inr ⟨.storage e, storage', rfl⟩⟩
  | retrieve key =>
    have hload : BinaryArchive.load conn.inboundData = some key := by
      rw [hdata]
      exact BinaryArchive.load_save _
    simp only [Request.reader, handlers, Connection.handleReadData_of_load hload, sendData,
      Request.exec]
    cases hd : Storage.retrieveChunk key.uid key.cuid storage with
    | ok chunk storage' =>
      obtain ⟨conn', hw⟩ := asyncWrite_apply (α := AcceptHandler) (ρ := ReadHandler) objects
        storage' i conn₀ (BinaryArchive.save chunk.archive) WriteHandler.finish
      exact ⟨conn', .inl ⟨some chunk, storage', rfl, hw⟩⟩
    | error e storage' =>
      cases e with
      | inexistentFile => exact ⟨conn₀, .inl ⟨none, storage', rfl, rfl⟩⟩
      | _ => exact ⟨conn₀, .inr ⟨_, storage', rfl⟩⟩

theorem run_of_ne {op : ServerOp} {r : Ending} {loop : Loop Storage Connection ServerOp}
    (hop : (∃ handler, op = .readHeader handler) ∨ ∃ size handler, op = .readData size handler)
    (he : r.error ≠ .success) : (handlers dirPrefix).run i conn op r loop = .ok () loop := by
  rcases hop with ⟨handler, rfl⟩ | ⟨size, handler, rfl⟩
  · simp only [Handlers.run, Connection.handleReadHeader_of_ne he, read_of_ne he]
    rfl
  · simp only [Handlers.run, read_of_ne he]
    rfl

theorem accept_of_step (H : ∀ object ∈ s.loop.objects, object.Single Op.Intact)
    (h : step dirPrefix s c = some s') (hobj : s.loop.objects[c.object]? = some object)
    (hops : object.pending = [.opening .handleAccept]) : ∃ conn',
      (c.result.error ≠ .success ∧ s'.fault = none ∧ s'.loop.state = s.loop.state ∧
        s'.loop.objects = s.loop.objects.set c.object ⟨conn', []⟩) ∨
      (c.result.error = .success ∧ s'.fault = none ∧ s'.loop.state = s.loop.state ∧
        s'.loop.objects = s.loop.objects.set c.object ⟨conn', [.readHeader .processCmd]⟩ ++
          [⟨.new, [.opening .handleAccept]⟩]) ∨
      (c.result.error = .success ∧ s'.fault ≠ none ∧
        s'.loop.objects = s.loop.objects.set c.object ⟨conn', []⟩) := by
  obtain ⟨_, op, -, -, hobj', hone, -, -, rfl⟩ := complete_cases H h
  cases hobj.symm.trans hobj'
  cases hone.symm.trans hops
  simp only [Handlers.run, handlers, handleAccept, Op.settle]
  by_cases he : c.result.error = .success
  · rw [if_neg (not_not.mpr he)]
    by_cases hr : c.result.remote = true
    · rw [Exec.bind_of_ok (Exec.require_ok hr), Exec.bind_of_ok asyncRead_apply]
      exact ⟨_, .inr (.inl ⟨he, rfl, rfl, rfl⟩)⟩
    · rw [Exec.bind_of_error (Exec.require_error hr)]
      exact ⟨_, .inr (.inr ⟨he, Option.some_ne_none _, rfl⟩)⟩
  · rw [if_pos he]
    exact ⟨_, .inl ⟨he, rfl, rfl, rfl⟩⟩

/-- When the answer has been sent, the server does nothing more. -/
theorem finished_of_step (H : ∀ object ∈ s.loop.objects, object.Single Op.Intact)
    (h : step dirPrefix s c = some s') (hobj : s.loop.objects[c.object]? = some object)
    (hfin : Finished object.pending) : ∃ conn',
      s'.loop.objects = s.loop.objects.set c.object ⟨conn', []⟩ ∧ s'.fault = none ∧
        s'.loop.state = s.loop.state := by
  obtain ⟨_, op, -, -, hobj', hone, -, -, rfl⟩ := complete_cases H h
  cases hobj.symm.trans hobj'
  rw [hone] at hfin
  obtain ⟨archive, hfin⟩ := hfin.resolve_left (List.cons_ne_nil _ _)
  cases hfin
  obtain ⟨e, hrun⟩ :=
    run_writeOp (handlers dirPrefix) c.object object.data archive .finish c.result
  rw [settle_writeOp, hrun]
  exact ⟨_, rfl, rfl, rfl⟩

/-- What a read of the server ends in, if the bytes it has got are those that come next. -/
inductive Reads (dirPrefix : Str) (request : Request) (storage : Storage) (r : Ending)
    (before : Str) : List ServerOp → Chunkserver → Prop where
  | failed {s : Chunkserver} : r.error ≠ .success → s.fault = none → s.loop.state = storage →
    Reads dirPrefix request storage r before [] s
  | further {s : Chunkserver} {ops : List ServerOp} : s.fault = none → s.loop.state = storage →
    Reading request ops before → Reads dirPrefix request storage r before ops s
  | executed {s : Chunkserver} {ops : List ServerOp} {a : Option ChunkData} : s.fault = none →
    request.exec dirPrefix storage = some (a, s.loop.state) → ops = answerOps a →
    Reads dirPrefix request storage r before ops s
  | down {s : Chunkserver} : s.fault ≠ none → Reads dirPrefix request storage r before [] s

theorem reads_of_step (hcmd : (BinaryArchive.save request.command : Str).length < 2 ^ 32)
    (H : ∀ object ∈ s.loop.objects, object.Single Op.Intact) (h : step dirPrefix s c = some s')
    (hobj : s.loop.objects[c.object]? = some object) (hR : Reading request object.pending before)
    {stage : Stage} {wire : Wire} (hpipe : Pipe request stage wire before)
    (hbytes : c.result.bytes <+: wire.up) : ∃ object',
      s'.loop.objects = s.loop.objects.set c.object object' ∧
      Reads dirPrefix request s.loop.state c.result (before ++ c.result.bytes) object'.pending
        s' := by
  obtain ⟨_, op, -, -, hobj', hone, hadm, hint, rfl⟩ := complete_cases H h
  cases hobj.symm.trans hobj'
  rw [hone] at hR
  by_cases he : c.result.error = .success
  · cases hR with
    | command =>
      have hlen := length_of_admits he (.inl ⟨rfl, rfl⟩) hadm
      have hs : request.script = [] ++ (Connection.header (BinaryArchive.save request.command).length ++
          (BinaryArchive.save request.command ++ message request.payload)) := by
        rw [Request.script, message, if_pos hcmd, List.append_assoc, List.nil_append]
      have hb := hpipe.reads hs hbytes (by rw [hlen, Connection.length_header.mpr hcmd])
      obtain ⟨conn', hrun⟩ := run_readHeader (handlers dirPrefix) hcmd he hb
      rw [hrun]
      refine ⟨⟨conn', _⟩, rfl, .further rfl rfl ?_⟩
      rw [hb]
      exact .commandData
    | commandData =>
      have hlen := length_of_admits he (.inr rfl) hadm
      have hs : request.script = Connection.header (BinaryArchive.save request.command).length ++
          (BinaryArchive.save request.command ++ message request.payload) := by
        rw [Request.script, message, if_pos hcmd, List.append_assoc]
      have hb := hpipe.reads hs hbytes hlen
      have hdata := inboundData_settle hint hlen
      rw [hb] at hdata
      have hrun : ∀ conn : Connection, conn.inboundData = BinaryArchive.save request.command →
          (handlers dirPrefix).read .processCmd c.object conn .success =
            asyncRead c.object request.reader := by
        intro conn hconn
        have hload : BinaryArchive.load conn.inboundData = some request.command := by
          rw [hconn]
          exact BinaryArchive.load_save _
        simp only [handlers, Connection.handleReadData_of_load hload]
        cases request with
        | deposit chunk => rfl
        | retrieve key => rfl
      simp only [Handlers.run, he, hrun _ hdata, asyncRead_apply]
      refine ⟨⟨_, _⟩, rfl, .further rfl rfl ?_⟩
      rw [hb]
      have hmsg : Connection.header (BinaryArchive.save request.command).length ++
          BinaryArchive.save request.command = message (BinaryArchive.save request.command) :=
        (if_pos hcmd).symm
      rw [hmsg]
      exact .payload
    | payload =>
      have hlen := length_of_admits he (.inl ⟨rfl, rfl⟩) hadm
      by_cases hfit : request.payload.length < 2 ^ 32
      · have hs : request.script = message (BinaryArchive.save request.command) ++
            (Connection.header request.payload.length ++ request.payload) := by
          rw [Request.script, message, message, if_pos hfit]
        have hb := hpipe.reads hs hbytes (by rw [hlen, Connection.length_header.mpr hfit])
        obtain ⟨conn', hrun⟩ := run_readHeader (handlers dirPrefix) hfit he hb
        rw [hrun]
        refine ⟨⟨conn', _⟩, rfl, .further rfl rfl ?_⟩
        rw [hb]
        exact .payloadData hfit
      · -- There is nothing to read.
        have hs : request.script = message (BinaryArchive.save request.command) ++ ([] ++ []) := by
          rw [Request.script, message, message, if_neg hfit]
          rfl
        have hup : wire.up <+: [] := (List.prefix_append_right_inj _).mp (hs ▸ hpipe.begins)
        have hle := (hbytes.trans hup).length_le
        rw [hlen] at hle
        cases hle
    | payloadData hfit =>
      have hlen := length_of_admits he (.inr rfl) hadm
      have hs : request.script = message (BinaryArchive.save request.command) ++
          Connection.header request.payload.length ++ (request.payload ++ []) := by
        rw [Request.script, message, message, if_pos hfit, List.append_nil, List.append_assoc]
      have hb := hpipe.reads hs hbytes hlen
      have hdata := inboundData_settle hint hlen
      rw [hb] at hdata
      obtain ⟨conn', hrun | hrun⟩ := run_reader dirPrefix s.loop.objects c.object s.loop.state
        (Op.settle object.data (.readData request.payload.length request.reader) c.result) hdata
      · obtain ⟨r, storage', hexec, hrun⟩ := hrun
        simp only [Handlers.run, he]
        rw [hrun]
        exact ⟨⟨conn', _⟩, rfl, .executed rfl hexec rfl⟩
      · obtain ⟨e, storage', hrun⟩ := hrun
        simp only [Handlers.run, he]
        rw [hrun]
        exact ⟨⟨_, []⟩, rfl, .down (Option.some_ne_none _)⟩
  · rw [run_of_ne hR.isRead he]
    exact ⟨⟨_, []⟩, rfl, .failed he rfl rfl⟩

end Chunkserver

/-! ## What a client does -/

section Client

variable [BinaryArchive Command] [BinaryArchive ChunkArchive] [BinaryArchive ChunkKey]
  {request : Request} {caller : Exchange} {wire : Wire} {r : Ending} {stage : Stage}
  {s s' : UserHarmony} {c : Completion Ending} {object : Object Connection UserHarmony.ClientOp}

def Stage.reads : Stage → Bool
  | .header | .data _ => true
  | .connecting _ | .refused | .command | .payload | .deposited | .done => false

/-- What is left ahead of a client behind the operation of a stage. -/
def Left (stage : Stage) (r : Ending) (wire : Wire) (left : Str) : Prop :=
  stage.reads = true ∧ r.bytes <+: wire.down ∧ (r.error = .success ∨ wire.cut = true) ∧
      left = wire.down.drop r.bytes.length ∨
    stage.reads = false ∧ left = wire.down

/-- How a client goes on with a request when an operation has ended with `r`, what it writes then,
and what it has received. -/
inductive Moves (request : Request) (caller : Exchange) (wire : Wire) (r : Ending) :
    Stage → Stage → Str → Option (Except ErrorCode ChunkArchive) → Prop where
  | connected {m : Nat} : r.error = .success → Moves request caller wire r (.connecting m) .command
    (message (BinaryArchive.save request.command)) none
  | again {m : Nat} : r.error ≠ .success →
    Moves request caller wire r (.connecting (m + 1)) (.connecting m) [] none
  | refused : r.error ≠ .success → Moves request caller wire r (.connecting 0) .refused [] none
  | command : Moves request caller wire r .command .payload (message request.payload) none
  | deposited : (∃ chunk, request = .deposit chunk) →
    Moves request caller wire r .payload .deposited [] none
  | waits : Moves request caller wire r .payload .header [] none
  | header {chunk : ChunkData} : caller = .answered request (some chunk) →
    wire.Ahead (BinaryArchive.save chunk.archive) →
    Moves request caller wire r .header (.data (BinaryArchive.save chunk.archive).length) [] none
  | returned {chunk : ChunkData} {size : Nat} : caller = .answered request (some chunk) →
    Moves request caller wire r (.data size) .done [] (some (.ok chunk.archive))
  | failed {stage₀ : Stage} {e : ErrorCode} : stage₀.reads = true → wire.cut = true →
    Moves request caller wire r stage₀ .done [] (some (.error e))

omit [BinaryArchive Command] [BinaryArchive ChunkKey] in
/-- A header that the client reads is the one of the answer. -/
theorem Stage.Receives.header (H : Stage.header.Receives request caller wire)
    (hb : r.bytes <+: wire.down) (hlen : r.bytes.length = Connection.headerLength) :
    ∃ chunk : ChunkData, caller = .answered request (some chunk) ∧
      (BinaryArchive.save chunk.archive).length < 2 ^ 32 ∧
      r.bytes = Connection.header (BinaryArchive.save chunk.archive).length ∧
      Wire.Ahead { wire with down := wire.down.drop r.bytes.length }
        (BinaryArchive.save chunk.archive) := by
  have hne : wire.down ≠ [] := by
    intro hnil
    rw [hnil] at hb
    rw [List.prefix_nil.mp hb] at hlen
    cases hlen
  rcases H with ⟨_, hd⟩ | ⟨a, hc, hd⟩
  · exact (hne hd).elim
  · cases a with
    | none => exact (hne (List.prefix_nil.mp hd.1)).elim
    | some chunk =>
      rw [answer, message] at hd
      split at hd
      · next hfit =>
        have hh := Connection.length_header.mpr hfit
        have heq : r.bytes = Connection.header (BinaryArchive.save chunk.archive).length :=
          (List.prefix_of_prefix_length_le (hb.trans hd.1) (List.prefix_append ..)
            (by rw [hlen, hh])).eq_of_length (hlen.trans hh.symm)
        refine ⟨chunk, hc, hfit, heq, ?_⟩
        rw [← heq] at hd
        exact hd.take hb
      · exact (hne (List.prefix_nil.mp hd.1)).elim

omit [BinaryArchive Command] [BinaryArchive ChunkArchive] [BinaryArchive ChunkKey] in
theorem Left.of_reads {left : Str} (h : Left stage r wire left) (hs : stage.reads = true) :
    r.bytes <+: wire.down ∧ (r.error = .success ∨ wire.cut = true) ∧
      left = wire.down.drop r.bytes.length := by
  rcases h with ⟨_, h⟩ | ⟨hno, _⟩
  · exact h
  · exact (Bool.false_ne_true (hno.symm.trans hs)).elim

omit [BinaryArchive Command] [BinaryArchive ChunkArchive] [BinaryArchive ChunkKey] in
theorem Left.of_not_reads {left : Str} (h : Left stage r wire left) (hs : stage.reads = false) :
    left = wire.down := by
  rcases h with ⟨hyes, _⟩ | ⟨_, h⟩
  · exact (Bool.false_ne_true (hs.symm.trans hyes)).elim
  · exact h

theorem moves_of_step (H : ∀ object ∈ s.loop.objects, object.Single Op.Intact)
    (h : UserHarmony.step s (.complete c) = some s')
    (hobj : s.loop.objects[c.object]? = some object) (hops : object.pending = stage.ops request)
    (hrec : stage.Receives request caller wire) {left : Str}
    (hleft : Left stage c.result wire left) :
    ∃ object' stage' w news, s'.loop.objects = s.loop.objects.set c.object object' ∧
      object'.pending = stage'.ops request ∧ s'.fault = none ∧
      s'.loop.state = Option.toList news ++ s.loop.state ∧
      written s'.loop.objects c.object = w ∧
      Moves request caller { wire with down := left } c.result stage stage' w news := by
  obtain ⟨_, op, -, -, hobj', hone, hadm, hint, rfl⟩ := complete_cases H h
  cases hobj.symm.trans hobj'
  have hlt := (List.getElem?_eq_some_iff.mp hobj).1
  rw [hone] at hops
  cases stage with
  | connecting m =>
    cases hops
    simp only [Handlers.run, UserHarmony.handlers, UserHarmony.handleConnect, Op.settle]
    by_cases he : c.result.error = .success
    · obtain ⟨conn', hw⟩ := asyncWrite_apply (α := UserHarmony.ConnectHandler)
        (ρ := UserHarmony.ReadHandler) s.loop.objects s.loop.state c.object object.data
        (BinaryArchive.save request.command) request.sender
      rw [if_pos he, hw]
      exact ⟨_, .command, _, none, rfl, rfl, rfl, rfl, written_writeOp hlt, .connected he⟩
    · rw [if_neg he]
      cases m with
      | zero => exact ⟨_, .refused, _, none, rfl, rfl, rfl, rfl, written_set hlt, .refused he⟩
      | succ m =>
        simp only [asyncConnect_apply]
        exact ⟨_, .connecting m, _, none, rfl, rfl, rfl, rfl, written_set hlt, .again he⟩
  | command =>
    cases hops
    obtain ⟨e, hrun⟩ := run_writeOp UserHarmony.handlers c.object object.data
      (BinaryArchive.save request.command) request.sender c.result
    rw [settle_writeOp, hrun]
    obtain ⟨conn', hw⟩ := asyncWrite_apply (α := UserHarmony.ConnectHandler)
      (ρ := UserHarmony.ReadHandler) s.loop.objects s.loop.state c.object object.data
      request.payload request.sent
    have hsend : UserHarmony.handlers.written request.sender c.object e =
        asyncWrite c.object request.payload request.sent := by
      cases request <;> rfl
    rw [hsend, hw]
    exact ⟨_, .payload, _, none, rfl, rfl, rfl, rfl, written_writeOp hlt, .command⟩
  | payload =>
    cases hops
    obtain ⟨e, hrun⟩ := run_writeOp UserHarmony.handlers c.object object.data request.payload
      request.sent c.result
    rw [settle_writeOp, hrun]
    cases request with
    | deposit chunk =>
      exact ⟨_, .deposited, _, none, rfl, rfl, rfl, rfl, written_set hlt, .deposited ⟨chunk, rfl⟩⟩
    | retrieve key =>
      have hwait : UserHarmony.handlers.written (Request.retrieve key).sent c.object e =
          asyncRead c.object .endRetrieve := rfl
      rw [hwait, asyncRead_apply]
      exact ⟨_, .header, _, none, rfl, rfl, rfl, rfl, written_set hlt, .waits⟩
  | refused | deposited => cases hops
  | header =>
    cases hops
    by_cases he : c.result.error = .success
    · obtain ⟨hb, _, rfl⟩ := hleft.of_reads rfl
      obtain ⟨chunk, hcaller, hfit, heq, hleft⟩ :=
        hrec.header hb (length_of_admits he (.inl ⟨rfl, rfl⟩) hadm)
      obtain ⟨conn', hrun⟩ := run_readHeader UserHarmony.handlers hfit he heq
      rw [hrun]
      exact ⟨_, .data _, _, none, rfl, rfl, rfl, rfl, written_set hlt, .header hcaller hleft⟩
    · simp only [Handlers.run, Connection.handleReadHeader_of_ne he, UserHarmony.handlers,
        Connection.handleReadData, if_pos he]
      exact ⟨_, .done, _, some (.error _), rfl, rfl, rfl, rfl, written_set hlt,
        .failed rfl ((hleft.of_reads rfl).2.1.resolve_left he)⟩
  | data size =>
    cases hops
    by_cases he : c.result.error = .success
    · obtain ⟨chunk, hcaller, hsize, hdown⟩ := hrec
      have hlen := length_of_admits he (.inr rfl) hadm
      have hdata := inboundData_settle hint hlen
      have hbytes : c.result.bytes = BinaryArchive.save chunk.archive :=
        ((hleft.of_reads rfl).1.trans hdown.1).eq_of_length (hlen.trans hsize.symm)
      have hload : BinaryArchive.load c.result.bytes = some chunk.archive := by
        rw [hbytes]
        exact BinaryArchive.load_save _
      simp only [Handlers.run, UserHarmony.handlers, he, Connection.handleReadData_of_load
        (hdata ▸ hload)]
      exact ⟨_, .done, _, some (.ok chunk.archive), rfl, rfl, rfl, rfl, written_set hlt,
        .returned hcaller⟩
    · simp only [Handlers.run, UserHarmony.handlers, Connection.handleReadData, if_pos he]
      exact ⟨_, .done, _, some (.error _), rfl, rfl, rfl, rfl, written_set hlt,
        .failed rfl ((hleft.of_reads rfl).2.1.resolve_left he)⟩
  | done => cases hops

variable {stage' : Stage} {w before : Str} {news : Option (Except ErrorCode ChunkArchive)}

theorem Moves.pipe (H : Moves request caller wire r stage stage' w news)
    (hp : Pipe request stage wire before) : Pipe request stage' (wire.putUp w) before := by
  cases H with
  | connected => exact hp.put rfl rfl (List.prefix_append ..)
  | command => exact hp.put rfl rfl (List.prefix_refl _)
  | again | deposited | waits | header =>
    rw [putUp_nil]
    exact hp.silent fun sent hs => hs
  | refused | returned | failed =>
    rw [putUp_nil]
    exact hp.silent nofun

theorem Moves.receives {left : Str}
    (H : Moves request caller { wire with down := left } r stage stage' w news)
    (hleft : Left stage r wire left) (hrec : stage.Receives request caller wire)
    (hnews : (news.bind fun x => x.toOption) = none) :
    stage'.Receives request caller { wire with down := left } := by
  cases H with
  | again | command | waits =>
    rw [hleft.of_not_reads rfl]
    exact hrec
  | connected =>
    rw [hleft.of_not_reads rfl]
    exact .inl hrec
  | header hcaller hahead => exact ⟨_, hcaller, rfl, hahead⟩
  | refused => exact hrec.1
  | deposited hdep =>
    refine ⟨hdep, ?_⟩
    rcases hrec with ⟨hc, _⟩ | ⟨a, hc, _⟩
    · exact .inl hc
    · exact .inr ⟨a, hc⟩
  | returned => cases hnews
  | failed _ hcut => exact fun hc => (Bool.false_ne_true (hc.symm.trans hcut)).elim

/-- What a client receives is the answer. -/
theorem Moves.received (H : Moves request caller wire r stage stage' w news) :
    (news.bind fun x => x.toOption) = none ∨ stage' = .done ∧
      ∃ chunk : ChunkData, news = some (.ok chunk.archive) ∧
        caller = .answered request (some chunk) := by
  cases H with
  | returned hcaller => exact .inr ⟨rfl, _, rfl, hcaller⟩
  | _ => exact .inl rfl

/-- A connection that has been made is not made again. -/
theorem Stage.not_opening (h : stage.listed = true) :
    ∀ op ∈ stage.ops request, op.isOpening = false := by
  intro op hop
  cases stage with
  | connecting | refused => cases h
  | command | payload => rw [List.mem_singleton.mp hop, isOpening_writeOp]
  | header | data => rw [List.mem_singleton.mp hop, Op.isOpening]
  | deposited | done => cases hop

theorem Moves.listed (H : Moves request caller wire r stage stage' w news) :
    stage'.listed = true ↔ stage.listed = true ∨
      r.error = .success ∧ ∀ op ∈ stage.ops request, op.isOpening = true := by
  cases H with
  | connected he => exact iff_of_true rfl (.inr ⟨he, List.forall_mem_singleton.mpr rfl⟩)
  | again he | refused he =>
    refine iff_of_false nofun ?_
    rintro (h | ⟨he', _⟩)
    · cases h
    · exact he he'
  | failed hreads =>
    cases stage with
    | header | data => exact iff_of_true rfl (.inl rfl)
    | _ => cases hreads
  | _ => exact iff_of_true rfl (.inl rfl)

end Client

end ColonyFS

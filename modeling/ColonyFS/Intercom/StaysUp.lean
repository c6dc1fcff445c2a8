import ColonyFS.Intercom.Chunkserver

/-!
# What takes the chunk server down

The server keeps accepting as long as every operation that ends is `Harmless`, and not a step
further. The handlers do not look at what they get from a peer: a header may announce more than a
vector can hold, `HEARTBEAT` calls `exit`, the pointer to the bytes of a chunk may be null, a file
may stand where a directory is needed, and a peer may be gone when its end-point is logged.
-/

namespace ColonyFS.Chunkserver

open Machine EventLoop Pathname

variable {dirPrefix : Str} {s s' : Chunkserver} {c : Completion Ending} {i : Nat} {r : Ending}
  {conn : Connection} {loop : Loop Storage Connection ServerOp}

/-- The server runs, and one accept is under way. -/
structure Up (s : Chunkserver) : Prop where
  fault : s.fault = none
  accepts : countPending Op.isOpening s.loop.objects = 1

theorem up_finish {x : EStateM.Result Fault (Loop Storage Connection ServerOp) Unit} :
    Up (finish x) ↔
      ∃ loop', x = .ok () loop' ∧ countPending Op.isOpening loop'.objects = 1 := by
  cases x with
  | ok u loop' =>
    refine ⟨fun h => ⟨loop', rfl, h.accepts⟩, ?_⟩
    rintro ⟨_, ⟨⟩, h⟩
    exact ⟨rfl, h⟩
  | error fault loop' => exact ⟨fun h => (nomatch h.fault), fun ⟨_, h, _⟩ => (nomatch h)⟩

/-- `x` returns, with `n` more accepts under way. -/
def Accepts (n : Nat) (x : ServerM Unit) (loop : Loop Storage Connection ServerOp) : Prop :=
  ∃ loop', x loop = .ok () loop' ∧
    countPending Op.isOpening loop'.objects = countPending Op.isOpening loop.objects + n

theorem accepts_pure : Accepts 0 (pure ()) loop := ⟨loop, rfl, rfl⟩

theorem accepts_change {f : Object Connection ServerOp → Object Connection ServerOp}
    (h : ∀ object : Object Connection ServerOp,
      (f object).pending.countP Op.isOpening = object.pending.countP Op.isOpening) :
    Accepts 0 (change i f) loop := ⟨_, rfl, countPending_modify h⟩

theorem accepts_asyncRead (handler : ReadHandler) : Accepts 0 (asyncRead i handler) loop :=
  accepts_change fun object => by rw [List.countP_append]; rfl

theorem accepts_asyncWrite {archive : Str} {handler : WriteHandler} :
    Accepts 0 (asyncWrite i archive handler) loop := by
  refine accepts_change fun object => ?_
  rcases object.data.asyncWrite archive with ⟨⟨e⟩ | ⟨header, data⟩, conn⟩ <;>
  · simp only [List.countP_append]
    rfl

theorem handleAccept_iff : Accepts 1 (handleAccept i r) loop ↔
    r.error = .success ∧ r.remote = true := by
  rw [handleAccept]
  by_cases he : r.error = .success
  · rw [if_neg (not_not.mpr he), and_iff_right he]
    by_cases hr : r.remote = true
    · refine iff_of_true ?_ hr
      have hread : Accepts 0 (asyncRead i .processCmd) loop := accepts_asyncRead _
      obtain ⟨loop', hread, hcount⟩ := hread
      refine ⟨{ loop' with objects := loop'.objects ++ [⟨.new, [.opening .handleAccept]⟩] }, ?_, ?_⟩
      · rw [Exec.bind_of_ok (Exec.require_ok hr), Exec.bind_of_ok hread]
        rfl
      · rw [countPending_append, hcount]
        rfl
    · refine iff_of_false ?_ hr
      rintro ⟨loop', h, -⟩
      rw [Exec.bind_of_error (Exec.require_error hr)] at h
      cases h
  · rw [if_pos he]
    refine iff_of_false ?_ fun h => he h.1
    rintro ⟨loop', h, hcount⟩
    cases h
    omega

theorem processCmd_iff {command : Command} :
    Accepts 0 (processCmd i (.ok command)) loop ↔ command ≠ .heartbeat := by
  cases command with
  | depositChunk | retrieveChunk => exact iff_of_true (accepts_asyncRead _) nofun
  | heartbeat => exact iff_of_false (by rintro ⟨_, h, -⟩; cases h) fun h => h rfl
  | lockChunk | readRequest | other n => exact iff_of_true accepts_pure nofun

theorem displayData_iff {chunk : ChunkArchive} :
    Accepts 0 (displayData dirPrefix (.ok chunk)) loop ↔ chunk.data ≠ none ∧
      (loop.state.disk.lookup (parentPath (Storage.filepath dirPrefix chunk.uid)) ≠ none ∨
        loop.state.disk.Clear (parentPath (Storage.filepath dirPrefix chunk.uid))) := by
  have hdeposit : (∃ st, Storage.depositChunk dirPrefix chunk.uid chunk.cuid chunk.data loop.state =
      .ok () st) ↔ _ := Storage.depositChunk_eq_ok
  rw [← hdeposit, Accepts]
  simp only [displayData]
  cases hd : Storage.depositChunk dirPrefix chunk.uid chunk.cuid chunk.data loop.state with
  | ok u state => exact iff_of_true ⟨_, rfl, rfl⟩ ⟨state, rfl⟩
  | error e state => exact iff_of_false (by rintro ⟨_, h, -⟩; cases h) (by rintro ⟨_, h⟩; cases h)

theorem sendData_iff [BinaryArchive ChunkArchive] {key : ChunkKey} : Accepts 0 (sendData i (.ok key)) loop ↔
    ∀ p, loop.state.database.loadChunk key.uid key.cuid = some p →
      ∃ data, loop.state.disk.lookup (append [] p) = some (.file data) := by
  simp only [Accepts, sendData, Storage.retrieveChunk]
  cases hdb : loop.state.database.loadChunk key.uid key.cuid with
  | none => exact iff_of_true ⟨_, rfl, rfl⟩ (by rintro _ ⟨⟩)
  | some p =>
    simp only [Option.some_inj, forall_eq']
    cases hlook : loop.state.disk.lookup (append [] p) with
    | none => exact iff_of_false (by rintro ⟨_, h, -⟩; cases h) (by rintro ⟨_, h⟩; cases h)
    | some v =>
      cases v with
      | dir => exact iff_of_false (by rintro ⟨_, h, -⟩; cases h) (by rintro ⟨_, h⟩; cases h)
      | file data => exact iff_of_true accepts_asyncWrite ⟨data, rfl⟩

variable [BinaryArchive Command] [BinaryArchive ChunkArchive] [BinaryArchive ChunkKey]

/-- Handlers do nothing when a read has failed. -/
theorem read_of_ne {handler : ReadHandler} {e : ErrorCode} (he : e ≠ .success) :
    (handlers dirPrefix).read handler i conn e = pure () := by
  cases handler <;>
  · simp only [handlers, Connection.handleReadData, if_pos he]
    rfl

/-- What an operation may end with. -/
def Harmless (dirPrefix : Str) (state : Storage) : ServerOp → Ending → Prop
  | .opening .handleAccept, r => r.error = .success ∧ r.remote = true
  | .readHeader _, r => r.error = .success →
    ∀ size, Connection.inboundDataSize r.bytes = some size → size ≤ Connection.maxSize
  | .readData _ .processCmd, r => r.error = .success →
    BinaryArchive.load r.bytes ≠ some Command.heartbeat
  | .readData _ .displayData, r => r.error = .success → ∀ chunk : ChunkArchive,
    BinaryArchive.load r.bytes = some chunk → chunk.data ≠ none ∧
      (state.disk.lookup (parentPath (Storage.filepath dirPrefix chunk.uid)) ≠ none ∨
        state.disk.Clear (parentPath (Storage.filepath dirPrefix chunk.uid)))
  | .readData _ .sendData, r => r.error = .success → ∀ (key : ChunkKey) p,
    BinaryArchive.load r.bytes = some key → state.database.loadChunk key.uid key.cuid = some p →
      ∃ data, state.disk.lookup (append [] p) = some (.file data)
  | .write .., _ | .post .., _ => True

def Ok (dirPrefix : Str) (s : Chunkserver) (c : Completion Ending) : Prop := ∀ object op,
  s.ending (handlers dirPrefix).program c = some (object, op) →
    Harmless dirPrefix s.loop.state op c.result

/-- What waited for a message gets it from the buffer. -/
theorem readData_iff {handler : ReadHandler} {size : Nat} (he : r.error = .success)
    (hdata : conn.inboundData = r.bytes) :
    Accepts 0 ((handlers dirPrefix).read handler i conn .success) loop ↔
      Harmless dirPrefix loop.state (.readData size handler) r := by
  cases handler with
  | processCmd =>
    rw [Harmless, imp_iff_right he]
    cases hl : (BinaryArchive.load r.bytes : Option Command) with
    | none =>
      simp only [handlers, Connection.handleReadData_of_none (hdata ▸ hl)]
      exact iff_of_true accepts_pure nofun
    | some command =>
      simp only [handlers, Connection.handleReadData_of_load (hdata ▸ hl), processCmd_iff]
      exact not_congr (Option.some_inj).symm
  | displayData =>
    rw [Harmless, imp_iff_right he]
    cases hl : (BinaryArchive.load r.bytes : Option ChunkArchive) with
    | none =>
      simp only [handlers, Connection.handleReadData_of_none (hdata ▸ hl)]
      exact iff_of_true accepts_pure nofun
    | some chunk =>
      simp only [handlers, Connection.handleReadData_of_load (hdata ▸ hl), displayData_iff, Option.some_inj,
        forall_eq']
  | sendData =>
    rw [Harmless, imp_iff_right he]
    cases hl : (BinaryArchive.load r.bytes : Option ChunkKey) with
    | none =>
      simp only [handlers, Connection.handleReadData_of_none (hdata ▸ hl)]
      exact iff_of_true accepts_pure nofun
    | some key =>
      simp only [handlers, Connection.handleReadData_of_load (hdata ▸ hl), sendData_iff, Option.some_inj]
      exact ⟨fun h _ p hk hp => h p (hk ▸ hp), fun h p hp => h key p rfl hp⟩

/-- An operation ends in peace if and only if its end is harmless. -/
theorem run_iff {op : ServerOp} (hop : op.Intact conn) (hadm : op.admits r = true) :
    Accepts (if op.isOpening then 1 else 0)
        ((handlers dirPrefix).program.run i ((handlers dirPrefix).program.settle conn op r) op r)
        loop ↔
      Harmless dirPrefix loop.state op r := by
  cases op with
  | opening handler => exact handleAccept_iff
  | write header data handler => exact iff_of_true accepts_pure trivial
  | post e handler => exact iff_of_true accepts_pure trivial
  | readData size handler =>
    by_cases he : r.error = .success
    · have hlen : r.bytes.length = size := by simpa [Op.admits, he] using hadm
      have hdrop : conn.inboundData.drop r.bytes.length = [] :=
        List.drop_eq_nil_of_le (by rw [hlen]; exact Nat.le_of_eq hop)
      have hdata : ((Op.readData size handler : ServerOp).settle conn r).inboundData = r.bytes := by
        rw [Op.settle, hdrop, List.append_nil]
      rw [← readData_iff he hdata, ← he]
      exact Iff.rfl
    · refine iff_of_true ?_ (by cases handler <;> exact fun h => (he h).elim)
      simp only [Handlers.program, Handlers.run, read_of_ne he]
      exact accepts_pure
  | readHeader handler =>
    by_cases he : r.error = .success
    · have hlen : r.bytes.length = Connection.headerLength := by simpa [Op.admits, he] using hadm
      have hheader : ((Op.readHeader handler : ServerOp).settle conn r).inboundHeader = r.bytes := by
        rw [Op.settle, ← hlen, List.take_left]
      rw [Harmless, imp_iff_right he]
      simp only [Handlers.program, Handlers.run, he, Connection.handleReadHeader_success, hheader]
      cases hsize : Connection.inboundDataSize r.bytes with
      | none =>
        have hne : ErrorCode.invalidArgument ≠ .success := by rintro ⟨⟩
        simp only [read_of_ne hne]
        exact iff_of_true accepts_pure (by rintro _ ⟨⟩)
      | some size =>
        simp only [Option.some_inj, forall_eq']
        by_cases hlt : Connection.maxSize < size
        · rw [if_pos hlt]
          exact iff_of_false (by rintro ⟨_, h, -⟩; cases h) (Nat.not_le.mpr hlt)
        · rw [if_neg hlt]
          exact iff_of_true (accepts_change fun object => by rw [List.countP_append]; rfl)
            (Nat.not_lt.mp hlt)
    · refine iff_of_true ?_ fun h => (he h).elim
      simp only [Handlers.program, Handlers.run, Connection.handleReadHeader_of_ne he,
        read_of_ne he]
      exact accepts_pure

theorem up_step (H : ∀ object ∈ s.loop.objects, object.Single Op.Intact) (hup : Up s)
    (h : step dirPrefix s c = some s') : Up s' ↔ Ok dirPrefix s c := by
  obtain ⟨object, op, hend, rfl⟩ := step_cases h
  obtain ⟨-, hobj, hop, hadm⟩ := EventLoop.Process.ending_eq_some hend
  have hs := H object (List.mem_of_getElem? hobj)
  have hcount := countPending_settled (k := Op.isOpening) hs hend
  rw [hup.accepts] at hcount
  have hok : Ok dirPrefix s c ↔ Harmless dirPrefix s.loop.state op c.result := by
    refine ⟨fun h => h object op hend, fun h object' op' hend' => ?_⟩
    cases hend.symm.trans hend'
    exact h
  let loop := s.settled (handlers dirPrefix).program c object op
  have hrun : Accepts (if op.isOpening then 1 else 0) ((handlers dirPrefix).program.run c.object
      ((handlers dirPrefix).program.settle object.data op c.result) op c.result) loop ↔
      Harmless dirPrefix loop.state op c.result :=
    run_iff (hs.good op (List.mem_of_getElem? hop)) hadm
  have hstate : (s.settled (handlers dirPrefix).program c object op).state = s.loop.state := rfl
  rw [up_finish, hok, ← hstate, ← hrun]
  exact exists_congr fun loop' => and_congr_right fun _ => by rw [hcount]

/-- The server runs and has one accept under way, in every run in which every operation that ends is
harmless; and what is not harmless takes it down, or leaves it without an accept. -/
theorem up_of_reach {disk : DirTree (List Byte)}
    (h : Reach (step dirPrefix) (Ok dirPrefix) (init disk) s) :
    Up s ∧ ∀ c s', step dirPrefix s c = some s' → (Up s' ↔ Ok dirPrefix s c) := by
  have hup : Up s ∧ ∀ object ∈ s.loop.objects, object.Single Op.Intact := by
    refine h.invariant
      (P := fun s : Chunkserver => Up s ∧ ∀ object ∈ s.loop.objects, object.Single Op.Intact)
      ⟨⟨rfl, rfl⟩, single_of_reach (.init : Reach (step dirPrefix) (Ok dirPrefix) (init disk) _)⟩ ?_
    rintro s c s' ⟨hup, hs⟩ hok hstep
    exact ⟨(up_step hs hup hstep).mpr hok, single_step (oneByOne dirPrefix) hs hstep⟩
  exact ⟨hup.1, fun c s' => up_step hup.2 hup.1⟩

end ColonyFS.Chunkserver

namespace ColonyFS.Chunkserver

open Machine EventLoop PlainArchive

/-- A peer connects and sends a command to deposit a chunk. -/
theorem up_of_reach_example : ∃ s, Reach (step ['/', 'd']) (Ok ['/', 'd']) (init (.chain [['d']])) s ∧
    s.loop.objects.length = 2 ∧ Up s := by
  have h1 : Reach (step ['/', 'd']) (Ok ['/', 'd']) (init (.chain [['d']])) _ :=
    .step .init (a := ⟨0, 0, ⟨.success, [], true⟩⟩)
      (fun object op h => by cases h; exact ⟨rfl, rfl⟩) rfl
  have h2 : Reach (step ['/', 'd']) (Ok ['/', 'd']) (init (.chain [['d']])) _ :=
    .step h1 (a := ⟨0, 0, ⟨.success, [' ', ' ', ' ', ' ', ' ', ' ', ' ', '1'], true⟩⟩)
      (fun object op h => by
        cases h
        intro _ size hsize
        cases hsize
        decide) rfl
  have h3 : Reach (step ['/', 'd']) (Ok ['/', 'd']) (init (.chain [['d']])) _ :=
    .step h2 (a := ⟨0, 0, ⟨.success, ['d'], true⟩⟩)
      (fun object op h => by
        cases h
        intro _
        decide) rfl
  exact ⟨_, h3, rfl, (up_of_reach h3).1⟩

/-- The header of a length beyond that of any vector takes the server down. -/
theorem not_up : ∃ s, run (step ['/', 'd']) (init (.chain [['d']]))
      [⟨0, 0, ⟨.success, [], true⟩⟩,
        ⟨0, 0, ⟨.success, [' ', ' ', ' ', ' ', ' ', ' ', '-', '1'], true⟩⟩] = some s ∧
    s.fault = some .lengthError := by
  have h : (run (step ['/', 'd']) (init (.chain [['d']]))
      [⟨0, 0, ⟨.success, [], true⟩⟩,
        ⟨0, 0, ⟨.success, [' ', ' ', ' ', ' ', ' ', ' ', '-', '1'], true⟩⟩]).map (·.fault) =
      some (some .lengthError) := by decide +kernel
  exact Option.map_eq_some_iff.mp h

end ColonyFS.Chunkserver

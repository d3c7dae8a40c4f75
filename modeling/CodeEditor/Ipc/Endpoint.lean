import CodeEditor.Foundation.SequenceNumbers
import CodeEditor.Ipc.PersistentProtocol

/-!
# One endpoint of the persistent protocol

What an endpoint keeps true of itself, and what it writes. Every method of an
endpoint is a move: its messages are genuine, the numbers of its regular messages
leave no gap for the other side, and behind them the other side has seen all that
was sent unless a reconnection is under way.
-/

namespace CodeEditor.Ipc

open SequenceNumbers Framing List Nat

/-! ## Writers -/

namespace ProtocolWriter

/-- The bytes a writer has taken on that are not on the pipe. -/
def unsent (w : ProtocolWriter) : Bytes := w.socket.flatten ++ w.data.flatten

/-- A writer in use. -/
structure Ready (w : ProtocolWriter) : Prop where
  active : w.isDisposed = false
  total : w.totalLength = w.data.flatten.length

variable {w : ProtocolWriter}

theorem ready_new : Ready .new := ⟨rfl, rfl⟩

theorem Ready.write (ready : w.Ready) (msg : ProtocolMessage) :
    (w.write msg).Ready ∧ (w.write msg).unsent = w.unsent ++ msg.encode := by
  have added : Ready (w.bufferAdd (header msg.type msg.id msg.ack msg.data.length) msg.data).1 := by
    refine ⟨ready.active, ?_⟩
    simp [bufferAdd, ready.total]
  have unsent : (w.bufferAdd (header msg.type msg.id msg.ack msg.data.length)
      msg.data).1.unsent = w.unsent ++ msg.encode := by
    simp [bufferAdd, ProtocolWriter.unsent, ProtocolMessage.encode]
  simp only [ProtocolWriter.write, ready.active, Bool.false_eq_true, if_false]
  split
  · exact ⟨⟨added.active, added.total⟩, unsent⟩
  · exact ⟨added, unsent⟩

theorem Ready.writeAll (ready : w.Ready) (msgs : List UnackMsg) :
    (msgs.foldl (fun w u => w.write u.msg) w).Ready ∧
      (msgs.foldl (fun w u => w.write u.msg) w).unsent =
        w.unsent ++ (msgs.map (·.msg)).flatMap ProtocolMessage.encode := by
  induction msgs generalizing w with
  | nil => simp [ready]
  | cons u msgs ih =>
    obtain ⟨first, unsent⟩ := ready.write u.msg
    obtain ⟨all, rest⟩ := ih first
    refine ⟨all, ?_⟩
    rw [foldl_cons, rest, unsent]
    simp

theorem Ready.writeNow (ready : w.Ready) : w.writeNow.Ready ∧ w.writeNow.unsent = w.unsent := by
  rw [ProtocolWriter.writeNow]
  split
  · exact ⟨ready, rfl⟩
  · split
    · exact ⟨ready, rfl⟩
    · refine ⟨⟨ready.active, rfl⟩, ?_⟩
      simp [unsent]

theorem Ready.timeout (ready : w.Ready) : w.timeout.Ready ∧ w.timeout.unsent = w.unsent := by
  rw [ProtocolWriter.timeout]
  split
  · have cleared : Ready { w with writeNowTimeout := false } := ⟨ready.active, ready.total⟩
    exact cleared.writeNow
  · exact ⟨ready, rfl⟩

end ProtocolWriter

/-! ## Genuine messages -/

/-- The ids of the regular messages among some messages. -/
def regularIds (msgs : List ProtocolMessage) : List Nat :=
  (msgs.filter (·.type = ProtocolMessageType.regular)).map (·.id)

@[simp] theorem regularIds_append (first second : List ProtocolMessage) :
    regularIds (first ++ second) = regularIds first ++ regularIds second := by
  simp [regularIds]

theorem regularIds_of_ne {msg : ProtocolMessage}
    (other : msg.type ≠ ProtocolMessageType.regular) : regularIds [msg] = [] := by
  simp [regularIds, other]

namespace PersistentProtocol

/-- A message an endpoint may have written: its acknowledgement is no promise, and
a regular message carries what was passed to `send`. -/
structure Genuine (p : PersistentProtocol) (msg : ProtocolMessage) : Prop where
  valid : msg.Valid
  ack : msg.ack ≤ p.incomingMsgId
  regular : msg.type = ProtocolMessageType.regular →
    1 ≤ msg.id ∧ p.sent[msg.id - 1]? = some msg.data

/-- What an endpoint keeps true. -/
structure Ok (p : PersistentProtocol) : Prop where
  count : p.outgoingMsgId = p.sent.length
  few : p.sent.length < 2 ^ 32
  fewIncoming : p.incomingMsgId < 2 ^ 32
  acked : p.outgoingAckId ≤ p.outgoingMsgId
  unackIds : p.outgoingUnackMsg.map (·.msg.id) =
    List.range' (p.outgoingAckId + 1) (p.outgoingMsgId - p.outgoingAckId)
  unackGenuine : ∀ u ∈ p.outgoingUnackMsg,
    u.msg.type = ProtocolMessageType.regular ∧ p.Genuine u.msg
  writer : p.socketWriter.Ready
  reader : ReaderOk p.socketReader
  readerShort : p.socketReader.incomingData.bytes.length <
    frameReader.need p.socketReader.state

variable {p p' p'' peer : PersistentProtocol}

theorem Genuine.id_le (genuine : p.Genuine msg)
    (regular : msg.type = ProtocolMessageType.regular) : msg.id ≤ p.sent.length := by
  obtain ⟨positive, data⟩ := genuine.regular regular
  have bound := (List.getElem?_eq_some_iff.mp data).1
  omega

theorem Genuine.mono (genuine : p.Genuine msg)
    (sent : p.sent <+: p'.sent) (incoming : p.incomingMsgId ≤ p'.incomingMsgId) :
    p'.Genuine msg where
  valid := genuine.valid
  ack := le_trans genuine.ack incoming
  regular isRegular := by
    obtain ⟨positive, data⟩ := genuine.regular isRegular
    refine ⟨positive, ?_⟩
    obtain ⟨more, extended⟩ := sent
    rw [← extended, List.getElem?_append_left (List.getElem?_eq_some_iff.mp data).1]
    exact data

theorem regularIds_le {msgs : List ProtocolMessage} (genuine : ∀ msg ∈ msgs, p.Genuine msg) :
    ∀ id ∈ regularIds msgs, id ≤ p.sent.length := by
  intro id member
  simp only [regularIds, mem_map, mem_filter, decide_eq_true_eq] at member
  obtain ⟨msg, ⟨among, isRegular⟩, rfl⟩ := member
  exact (genuine msg among).id_le isRegular

theorem readerShort_new : ProtocolReader.new.incomingData.bytes.length <
    frameReader.need ProtocolReader.new.state := by
  decide

theorem ok_new (env : Surroundings) : (PersistentProtocol.new env).Ok where
  count := rfl
  few := by simp [PersistentProtocol.new]
  fewIncoming := by simp [PersistentProtocol.new]
  acked := le_refl _
  unackIds := rfl
  unackGenuine u member := absurd member (by simp [PersistentProtocol.new])
  writer := ProtocolWriter.ready_new
  reader := readerOk_new
  readerShort := readerShort_new

/-! ## Moves -/

/-- Where the other side may be when an endpoint writes: it has seen no less than
it counts and no more than was sent, and exactly that unless the endpoint is
reconnecting. -/
structure Position (peer p : PersistentProtocol) (counter : Nat) : Prop where
  seen : peer.incomingMsgId ≤ counter
  sent : counter ≤ p.outgoingMsgId
  all : p.isReconnecting = false → counter = p.outgoingMsgId

/-- A method of an endpoint that writes some messages, while the other endpoint is
`peer`. -/
structure Moves (peer p p' : PersistentProtocol) (written : List ProtocolMessage) :
    Prop where
  ok : p'.Ok
  sent : p.sent <+: p'.sent
  incoming : p.incomingMsgId ≤ p'.incomingMsgId
  within : p.incomingMsgId ≤ peer.sent.length → p'.incomingMsgId ≤ peer.sent.length
  acked : p'.outgoingAckId ≤ peer.incomingMsgId
  reader : p'.socketReader = p.socketReader
  unsent : p'.socketWriter.unsent =
    p.socketWriter.unsent ++ written.flatMap ProtocolMessage.encode
  genuine : ∀ msg ∈ written, p'.Genuine msg
  gapFree : ∀ counter, Position peer p counter → GapFree counter (regularIds written)
  reaches : p'.isReconnecting = false → ∀ counter, Position peer p counter →
    reach counter (regularIds written) = p'.outgoingMsgId
  fired : p.fired = peer.sent.take p.incomingMsgId →
    p'.fired = peer.sent.take p'.incomingMsgId

/-- The other side behind the messages of a move. -/
theorem Moves.position (ok : p.Ok)
    (moves : Moves peer p p' written) (position : Position peer p counter) :
    Position peer p' (reach counter (regularIds written)) where
  seen := le_trans position.seen (le_reach _ _)
  sent := by
    rw [moves.ok.count]
    apply reach_le
    · have longer := moves.sent.length_le
      have bound := position.sent
      rw [ok.count] at bound
      omega
    · exact regularIds_le moves.genuine
  all still := moves.reaches still counter position

theorem Moves.trans (ok : p.Ok)
    (first : Moves peer p p' written) (second : Moves peer p' p'' more) :
    Moves peer p p'' (written ++ more) where
  ok := second.ok
  sent := first.sent.trans second.sent
  incoming := le_trans first.incoming second.incoming
  within := second.within ∘ first.within
  acked := second.acked
  reader := second.reader.trans first.reader
  unsent := by
    rw [second.unsent, first.unsent, flatMap_append, append_assoc]
  genuine msg member := by
    obtain member | member := mem_append.mp member
    · exact (first.genuine msg member).mono second.sent second.incoming
    · exact second.genuine msg member
  gapFree counter position := by
    rw [regularIds_append, gapFree_append]
    exact ⟨first.gapFree counter position, second.gapFree _ (first.position ok position)⟩
  reaches still counter position := by
    rw [regularIds_append, reach_append]
    exact second.reaches still _ (first.position ok position)
  fired := second.fired ∘ first.fired

/-- Two states of an endpoint that differ in nothing the other side can see. -/
structure Quiet (p p' : PersistentProtocol) : Prop where
  sent : p'.sent = p.sent
  outgoingMsgId : p'.outgoingMsgId = p.outgoingMsgId
  outgoingAckId : p'.outgoingAckId = p.outgoingAckId
  unack : p'.outgoingUnackMsg.map (·.msg) = p.outgoingUnackMsg.map (·.msg)
  incomingMsgId : p'.incomingMsgId = p.incomingMsgId
  isReconnecting : p'.isReconnecting = p.isReconnecting
  reader : p'.socketReader = p.socketReader
  fired : p'.fired = p.fired

theorem Quiet.refl (p : PersistentProtocol) : Quiet p p :=
  ⟨rfl, rfl, rfl, rfl, rfl, rfl, rfl, rfl⟩

theorem Quiet.trans (first : Quiet p p') (second : Quiet p' p'') : Quiet p p'' where
  sent := second.sent.trans first.sent
  outgoingMsgId := second.outgoingMsgId.trans first.outgoingMsgId
  outgoingAckId := second.outgoingAckId.trans first.outgoingAckId
  unack := second.unack.trans first.unack
  incomingMsgId := second.incomingMsgId.trans first.incomingMsgId
  isReconnecting := second.isReconnecting.trans first.isReconnecting
  reader := second.reader.trans first.reader
  fired := second.fired.trans first.fired

theorem mem_unack (same : p'.outgoingUnackMsg.map (·.msg) = p.outgoingUnackMsg.map (·.msg))
    {u : UnackMsg} (member : u ∈ p'.outgoingUnackMsg) :
    ∃ v ∈ p.outgoingUnackMsg, v.msg = u.msg := by
  have mapped : u.msg ∈ p'.outgoingUnackMsg.map (·.msg) := mem_map_of_mem member
  rw [same] at mapped
  exact mem_map.mp mapped

theorem Quiet.ok (quiet : Quiet p p') (ok : p.Ok) (ready : p'.socketWriter.Ready) : p'.Ok where
  count := by rw [quiet.outgoingMsgId, quiet.sent, ok.count]
  few := by rw [quiet.sent]; exact ok.few
  fewIncoming := by rw [quiet.incomingMsgId]; exact ok.fewIncoming
  acked := by rw [quiet.outgoingAckId, quiet.outgoingMsgId]; exact ok.acked
  unackIds := by
    have ids := congrArg (List.map ProtocolMessage.id) quiet.unack
    rw [map_map, map_map] at ids
    rw [quiet.outgoingAckId, quiet.outgoingMsgId, ← ok.unackIds]
    exact ids
  unackGenuine u member := by
    obtain ⟨v, among, same⟩ := mem_unack quiet.unack member
    rw [← same]
    obtain ⟨regular, genuine⟩ := ok.unackGenuine v among
    refine ⟨regular, genuine.mono ?_ ?_⟩
    · simp [quiet.sent]
    · simp [quiet.incomingMsgId]
  writer := ready
  reader := by rw [quiet.reader]; exact ok.reader
  readerShort := by rw [quiet.reader]; exact ok.readerShort

section

variable (quiet : Quiet p p') (ok : p.Ok) (acked : p.outgoingAckId ≤ peer.incomingMsgId)
  (ready : p'.socketWriter.Ready)

include quiet ok acked ready

/-- A method that writes no regular message and changes nothing else the other side
can see. -/
theorem Quiet.moves {written : List ProtocolMessage} (unsent : p'.socketWriter.unsent =
      p.socketWriter.unsent ++ written.flatMap ProtocolMessage.encode)
    (irregular : ∀ msg ∈ written, msg.type ≠ ProtocolMessageType.regular ∧
      msg.Valid ∧ msg.ack ≤ p.incomingMsgId) : Moves peer p p' written := by
  have none : regularIds written = [] := by
    simp only [regularIds, map_eq_nil_iff, filter_eq_nil_iff, decide_eq_true_eq]
    intro msg member
    exact (irregular msg member).1
  exact
    { ok := quiet.ok ok ready
      sent := by simp [quiet.sent]
      incoming := by simp [quiet.incomingMsgId]
      within := by rw [quiet.incomingMsgId]; exact id
      acked := by rw [quiet.outgoingAckId]; exact acked
      reader := quiet.reader
      unsent := unsent
      genuine := by
        intro msg member
        obtain ⟨other, valid, ack⟩ := irregular msg member
        refine ⟨valid, ?_, fun isRegular => absurd isRegular other⟩
        rw [quiet.incomingMsgId]
        exact ack
      gapFree := by
        intro counter _
        rw [none]
        trivial
      reaches := by
        intro still counter position
        rw [none, reach_nil, quiet.outgoingMsgId]
        rw [quiet.isReconnecting] at still
        exact position.all still
      fired := by rw [quiet.fired, quiet.incomingMsgId]; exact id }

/-- A method that writes nothing and changes nothing the other side can see. -/
theorem Quiet.still (unsent : p'.socketWriter.unsent = p.socketWriter.unsent) :
    Moves peer p p' [] :=
  quiet.moves ok acked ready (by simpa using unsent) (by simp)

end

/-! ## Acknowledgements -/

theorem write_quiet (p : PersistentProtocol) (msg : ProtocolMessage) : Quiet p (p.write msg) :=
  ⟨rfl, rfl, rfl, rfl, rfl, rfl, rfl, rfl⟩

/-- Writing a message that is not regular. -/
theorem Moves.write (ok : p.Ok) (acked : p.outgoingAckId ≤ peer.incomingMsgId)
    {msg : ProtocolMessage} (other : msg.type ≠ ProtocolMessageType.regular)
    (valid : msg.Valid) (ack : msg.ack ≤ p.incomingMsgId) :
    Moves peer p (p.write msg) [msg] := by
  obtain ⟨ready, unsent⟩ := ok.writer.write msg
  refine (write_quiet p msg).moves ok acked ready ?_ ?_
  · simpa [PersistentProtocol.write] using unsent
  · intro written member
    rw [mem_singleton] at member
    subst member
    exact ⟨other, valid, ack⟩

theorem valid_empty {type : ProtocolMessageType} {ack : Nat} (bound : ack < 2 ^ 32) :
    ProtocolMessage.Valid ⟨type, 0, ack, []⟩ :=
  ⟨Nat.two_pow_pos 32, bound, Nat.two_pow_pos 32⟩

/-- Writing a message without data that acknowledges nothing. -/
theorem Moves.writeEmpty (ok : p.Ok) (acked : p.outgoingAckId ≤ peer.incomingMsgId)
    (type : ProtocolMessageType) (other : type ≠ ProtocolMessageType.regular) :
    Moves peer p (p.write ⟨type, 0, 0, []⟩) [⟨type, 0, 0, []⟩] :=
  Moves.write ok acked other (valid_empty (Nat.two_pow_pos 32)) (Nat.zero_le _)

theorem Moves.sendAck (ok : p.Ok) (acked : p.outgoingAckId ≤ peer.incomingMsgId) :
    ∃ written, Moves peer p p.sendAck written := by
  rw [PersistentProtocol.sendAck]
  split
  · exact ⟨[], (Quiet.refl p).still ok acked ok.writer rfl⟩
  · have noted : Quiet p { p with incomingAckId := p.incomingMsgId } :=
      ⟨rfl, rfl, rfl, rfl, rfl, rfl, rfl, rfl⟩
    have still := noted.still ok acked ok.writer rfl
    refine ⟨_, still.trans ok (Moves.write still.ok acked ?_ ?_ ?_)⟩
    · change ProtocolMessageType.ack ≠ ProtocolMessageType.regular
      decide
    · exact valid_empty ok.fewIncoming
    · exact le_refl _

theorem Moves.sendAckCheck (env : Surroundings) (ok : p.Ok)
    (acked : p.outgoingAckId ≤ peer.incomingMsgId) :
    ∃ written, Moves peer p (p.sendAckCheck env) written := by
  have same : Moves peer p p [] := (Quiet.refl p).still ok acked ok.writer rfl
  have armed : Quiet p { p with incomingAckTimeout := true } :=
    ⟨rfl, rfl, rfl, rfl, rfl, rfl, rfl, rfl⟩
  rw [PersistentProtocol.sendAckCheck]
  split
  · exact ⟨[], same⟩
  split
  · exact ⟨[], same⟩
  split
  · exact Moves.sendAck ok acked
  · exact ⟨[], armed.still ok acked ok.writer rfl⟩

theorem fire_quiet (p : PersistentProtocol) {event : ProtocolEvent}
    (other : event.message? = none) : Quiet p (p.fire event) where
  sent := rfl
  outgoingMsgId := rfl
  outgoingAckId := rfl
  unack := rfl
  incomingMsgId := rfl
  isReconnecting := rfl
  reader := rfl
  fired := by simp [fired, fire, other]

theorem recvAckCheck_quiet (env : Surroundings) (p : PersistentProtocol) :
    Quiet p (p.recvAckCheck env) ∧ (p.recvAckCheck env).socketWriter = p.socketWriter := by
  have same := Quiet.refl p
  rw [PersistentProtocol.recvAckCheck]
  split
  · exact ⟨same, rfl⟩
  split
  · exact ⟨same, rfl⟩
  split
  · exact ⟨same, rfl⟩
  split
  · exact ⟨same, rfl⟩
  dsimp only
  split
  · have noted : Quiet p { p with lastSocketTimeoutTime := env.now } :=
      ⟨rfl, rfl, rfl, rfl, rfl, rfl, rfl, rfl⟩
    exact ⟨noted.trans (fire_quiet _ rfl), rfl⟩
  · exact ⟨⟨rfl, rfl, rfl, rfl, rfl, rfl, rfl, rfl⟩, rfl⟩

theorem Moves.recvAckCheck (env : Surroundings) (ok : p.Ok)
    (acked : p.outgoingAckId ≤ peer.incomingMsgId) :
    Moves peer p (p.recvAckCheck env) [] := by
  obtain ⟨quiet, writer⟩ := recvAckCheck_quiet env p
  apply quiet.still ok acked
  · rw [writer]
    exact ok.writer
  · rw [writer]

/-! ## Sending -/

/-- The message of a `send`. -/
def nextMsg (p : PersistentProtocol) (buffer : Bytes) : ProtocolMessage :=
  ⟨ProtocolMessageType.regular, p.outgoingMsgId + 1, p.incomingMsgId, buffer⟩

/-- The part of `send` before the message is written. -/
def push (p : PersistentProtocol) (buffer : Bytes) (writtenTime : Nat) :
    PersistentProtocol :=
  { p with
    outgoingMsgId := p.outgoingMsgId + 1
    incomingAckId := p.incomingMsgId
    outgoingUnackMsg := p.outgoingUnackMsg ++ [⟨p.nextMsg buffer, writtenTime⟩]
    sent := p.sent ++ [buffer] }

theorem send_eq (env : Surroundings) (p : PersistentProtocol) (buffer : Bytes) : p.send env buffer =
      if p.isReconnecting then p.push buffer 0
      else ((p.push buffer env.now).write (p.nextMsg buffer)).recvAckCheck env := by
  cases h : p.isReconnecting <;> simp [send, push, nextMsg, h]

theorem Ok.push (ok : p.Ok) {buffer : Bytes} (few : p.sent.length + 1 < 2 ^ 32)
    (short : buffer.length < 2 ^ 32) (writtenTime : Nat) :
    (p.push buffer writtenTime).Ok ∧ (p.push buffer writtenTime).Genuine (p.nextMsg buffer) := by
  have count := ok.count
  have genuine : (p.push buffer writtenTime).Genuine (p.nextMsg buffer) := by
    refine ⟨⟨?_, ok.fewIncoming, short⟩, le_refl _, ?_⟩
    · simp only [nextMsg]
      omega
    · intro _
      simp [nextMsg, PersistentProtocol.push, count]
  have extended : p.sent <+: (p.push buffer writtenTime).sent :=
    prefix_append p.sent [buffer]
  refine ⟨?_, genuine⟩
  exact
    { ok with
      count := by simp [PersistentProtocol.push, count]
      few := by simpa [PersistentProtocol.push] using few
      acked := le_succ_of_le ok.acked
      unackIds := by
        have acked := ok.acked
        simp only [PersistentProtocol.push, map_append, map_cons, map_nil, ok.unackIds, nextMsg]
        rw [succ_sub acked, range'_1_concat]
        congr 2
        omega
      unackGenuine := by
        intro u member
        simp only [PersistentProtocol.push, mem_append, mem_singleton] at member
        obtain member | rfl := member
        · obtain ⟨regular, was⟩ := ok.unackGenuine u member
          exact ⟨regular, was.mono extended (le_refl _)⟩
        · exact ⟨rfl, genuine⟩ }

section

variable (env : Surroundings) (ok : p.Ok) (acked : p.outgoingAckId ≤ peer.incomingMsgId)

include env ok acked

theorem Moves.send {buffer : Bytes} (few : p.sent.length + 1 < 2 ^ 32)
    (short : buffer.length < 2 ^ 32) : ∃ written, Moves peer p (p.send env buffer) written := by
  rw [send_eq]
  cases reconnecting : p.isReconnecting with
  | true =>
    obtain ⟨pushed, -⟩ := ok.push few short 0
    refine ⟨[], ?_⟩
    exact
      { ok := pushed
        sent := prefix_append _ _
        incoming := le_refl _
        within := id
        acked := acked
        reader := rfl
        unsent := by simp [PersistentProtocol.push]
        genuine := by simp
        gapFree := fun _ _ => trivial
        reaches := by
          intro still
          exact absurd (reconnecting.symm.trans still) (by decide)
        fired := id }
  | false =>
    obtain ⟨pushed, genuine⟩ := ok.push few short env.now
    obtain ⟨ready, unsent⟩ := pushed.writer.write (p.nextMsg buffer)
    have written : ((p.push buffer env.now).write (p.nextMsg buffer)).Ok :=
      (write_quiet _ _).ok pushed ready
    have ids : regularIds [p.nextMsg buffer] = [p.outgoingMsgId + 1] := rfl
    have first : Moves peer p ((p.push buffer env.now).write (p.nextMsg buffer))
        [p.nextMsg buffer] :=
      { ok := written
        sent := prefix_append _ _
        incoming := le_refl _
        within := id
        acked := acked
        reader := rfl
        unsent := by simpa [PersistentProtocol.write, PersistentProtocol.push] using unsent
        genuine := by
          intro msg member
          rw [mem_singleton] at member
          subst member
          exact genuine.mono (prefix_refl _) (le_refl _)
        gapFree := by
          intro counter position
          rw [ids, position.all reconnecting]
          exact ⟨le_refl _, trivial⟩
        reaches := by
          intro _ counter position
          rw [ids, position.all reconnecting, reach_cons, reach_nil]
          exact max_eq_right (le_succ _)
        fired := id }
    exact ⟨_, first.trans ok (Moves.recvAckCheck env written acked)⟩

/-- The unacknowledged messages are written again. -/
theorem Moves.sendAgain : Moves peer p (p.sendAgain env) (p.outgoingUnackMsg.map (·.msg)) ∧
      ∀ counter, peer.incomingMsgId ≤ counter → counter ≤ p.outgoingMsgId →
        GapFree counter (regularIds (p.outgoingUnackMsg.map (·.msg))) ∧
        reach counter (regularIds (p.outgoingUnackMsg.map (·.msg))) = p.outgoingMsgId := by
  obtain ⟨ready, unsent⟩ := ok.writer.writeAll p.outgoingUnackMsg
  have ids : regularIds (p.outgoingUnackMsg.map (·.msg)) =
      List.range' (p.outgoingAckId + 1) (p.outgoingMsgId - p.outgoingAckId) := by
    rw [← ok.unackIds, regularIds, filter_eq_self.mpr, map_map]
    · rfl
    · intro msg member
      obtain ⟨u, among, rfl⟩ := mem_map.mp member
      exact decide_eq_true (ok.unackGenuine u among).1
  have reached : ∀ counter, peer.incomingMsgId ≤ counter → counter ≤ p.outgoingMsgId →
      GapFree counter (regularIds (p.outgoingUnackMsg.map (·.msg))) ∧
      reach counter (regularIds (p.outgoingUnackMsg.map (·.msg))) = p.outgoingMsgId := by
    intro counter seen sent
    obtain ⟨gapFree, reached⟩ := gapFree_range' (le_trans acked seen)
      (p.outgoingMsgId - p.outgoingAckId)
    rw [ids, reached]
    exact ⟨gapFree, by omega⟩
  have again : Quiet p { p with
      socketWriter :=
        p.outgoingUnackMsg.foldl (fun w u => w.write u.msg) p.socketWriter
      outgoingUnackMsg :=
        p.outgoingUnackMsg.map fun u => { u with writtenTime := env.now } } :=
    ⟨rfl, rfl, rfl, by simp, rfl, rfl, rfl, rfl⟩
  have first : Moves peer p _ (p.outgoingUnackMsg.map (·.msg)) :=
    { ok := again.ok ok ready
      sent := prefix_refl _
      incoming := le_refl _
      within := id
      acked := acked
      reader := rfl
      unsent := unsent
      genuine := by
        intro msg member
        obtain ⟨u, among, rfl⟩ := mem_map.mp member
        exact (ok.unackGenuine u among).2.mono (prefix_refl _) (le_refl _)
      gapFree := fun counter position => (reached counter position.seen position.sent).1
      reaches := fun _ counter position => (reached counter position.seen position.sent).2
      fired := id }
  refine ⟨?_, reached⟩
  have both := first.trans ok (Moves.recvAckCheck env first.ok acked)
  rw [append_nil] at both
  exact both

/-- The end of a reconnection: afterwards all that was sent is on its way. -/
theorem Moves.endAcceptReconnection :
    ∃ written, Moves peer p (p.endAcceptReconnection env) written := by
  let ended : PersistentProtocol :=
    { p with isReconnecting := false, incomingAckId := p.incomingMsgId }
  let ackMsg : ProtocolMessage := ⟨ProtocolMessageType.ack, 0, p.incomingMsgId, []⟩
  have other : ackMsg.type ≠ ProtocolMessageType.regular := by
    change ProtocolMessageType.ack ≠ ProtocolMessageType.regular
    decide
  have endedOk : ended.Ok :=
    { ok with
      unackGenuine := by
        intro u member
        obtain ⟨regular, genuine⟩ := ok.unackGenuine u member
        exact ⟨regular, genuine.mono (prefix_refl _) (le_refl _)⟩ }
  have ack : Moves peer ended (ended.write ackMsg) [ackMsg] :=
    Moves.write endedOk acked other (valid_empty ok.fewIncoming) (le_refl _)
  obtain ⟨again, reached⟩ := Moves.sendAgain env ack.ok acked
  have both := ack.trans endedOk again
  have ids : regularIds ([ackMsg] ++ p.outgoingUnackMsg.map (·.msg)) =
      regularIds (p.outgoingUnackMsg.map (·.msg)) := by
    rw [regularIds_append, regularIds_of_ne other, nil_append]
  have kept : (p.endAcceptReconnection env).outgoingMsgId = p.outgoingMsgId :=
    (recvAckCheck_quiet env _).1.outgoingMsgId
  refine ⟨[ackMsg] ++ p.outgoingUnackMsg.map (·.msg), { both with gapFree := ?_, reaches := ?_ }⟩
  · intro counter position
    exact (reached counter position.seen position.sent).1
  · intro _ counter position
    rw [ids, kept]
    exact (reached counter position.seen position.sent).2

end

/-! ## Receiving -/

theorem dropWhile_range' {start bound count : Nat} (above : start ≤ bound)
    (within : bound ≤ start + count) :
    (List.range' (start + 1) count).dropWhile (· ≤ bound) =
      List.range' (bound + 1) (start + count - bound) := by
  induction count generalizing start with
  | zero =>
    have done : start + 0 - bound = 0 := by omega
    rw [done]
    rfl
  | succ count ih =>
    rw [range'_succ]
    by_cases next : start + 1 ≤ bound
    · rw [dropWhile_cons_of_pos (by simpa using next), ih next (by omega)]
      congr 1
      omega
    · have same : start = bound := by omega
      rw [dropWhile_cons_of_neg (by simpa using next), same, Nat.add_sub_cancel_left, range'_succ]

/-- What is left of the unacknowledged messages behind an acknowledgement. -/
theorem Ok.unackIds_dropWhile (ok : p.Ok) {ack : Nat} (newer : p.outgoingAckId ≤ ack)
    (within : ack ≤ p.outgoingMsgId) :
    (p.outgoingUnackMsg.dropWhile fun u => u.msg.id ≤ ack).map (·.msg.id) =
      List.range' (ack + 1) (p.outgoingMsgId - ack) := by
  have dropped : (p.outgoingUnackMsg.map (·.msg.id)).dropWhile (· ≤ ack) =
      (p.outgoingUnackMsg.dropWhile fun u => u.msg.id ≤ ack).map (·.msg.id) :=
    dropWhile_map
  rw [ok.unackIds, dropWhile_range' newer (by omega)] at dropped
  rw [← dropped]
  congr 1
  omega

theorem Moves.receiveAck (ok : p.Ok) (acked : p.outgoingAckId ≤ peer.incomingMsgId)
    (within : peer.incomingMsgId ≤ p.outgoingMsgId) {ack : Nat}
    (bound : ack ≤ peer.incomingMsgId) : Moves peer p (p.receiveAck ack) [] := by
  rw [PersistentProtocol.receiveAck]
  split
  · next newer =>
      exact
        { ok :=
            { ok with
              acked := le_trans bound within
              unackIds := ok.unackIds_dropWhile (le_of_lt newer) (le_trans bound within)
              unackGenuine := by
                intro u member
                obtain ⟨regular, genuine⟩ :=
                  ok.unackGenuine u (dropWhile_subset _ member)
                exact ⟨regular, genuine.mono (prefix_refl _) (le_refl _)⟩ }
          sent := prefix_refl _
          incoming := le_refl _
          within := id
          acked := bound
          reader := rfl
          unsent := by simp
          genuine := by simp
          gapFree := fun _ _ => trivial
          reaches := fun still counter position => position.all still
          fired := id }
  · exact (Quiet.refl p).still ok acked ok.writer rfl

theorem fire_sendAckCheck (env : Surroundings) (p : PersistentProtocol) (event : ProtocolEvent) :
    (p.sendAckCheck env).fire event = (p.fire event).sendAckCheck env := by
  by_cases nothing : p.incomingMsgId ≤ p.incomingAckId
  · simp [PersistentProtocol.sendAckCheck, fire, nothing]
  · by_cases armed : p.incomingAckTimeout = true
    · simp [PersistentProtocol.sendAckCheck, fire, nothing, armed]
    · by_cases late : (env.now : Int) - p.incomingMsgLastTime ≥ acknowledgeTime
      · simp [PersistentProtocol.sendAckCheck, PersistentProtocol.sendAck,
          PersistentProtocol.write, fire, nothing, armed, late]
      · simp [PersistentProtocol.sendAckCheck, fire, nothing, armed, late]

theorem sendAckCheck_incomingMsgId (env : Surroundings) (p : PersistentProtocol) :
    (p.sendAckCheck env).incomingMsgId = p.incomingMsgId := by
  simp only [PersistentProtocol.sendAckCheck, PersistentProtocol.sendAck, PersistentProtocol.write]
  split_ifs <;> rfl

section

variable (env : Surroundings) (ok : p.Ok) (acked : p.outgoingAckId ≤ peer.incomingMsgId)
  (genuine : peer.Genuine msg) (regular : msg.type = ProtocolMessageType.regular)

include env ok acked genuine regular

/-- The next regular message: it is counted and fired. -/
theorem Moves.receiveNext (next : msg.id = p.incomingMsgId + 1) : Moves peer p ({ p with
      incomingMsgId := msg.id, incomingMsgLastTime := env.now }.fire (.message msg.data))
      [] := by
  have later : p.incomingMsgId ≤ msg.id := by omega
  exact
    { ok :=
        { ok with
          fewIncoming := genuine.valid.id
          unackGenuine := by
            intro u member
            obtain ⟨isRegular, was⟩ := ok.unackGenuine u member
            exact ⟨isRegular, was.mono (prefix_refl _) later⟩ }
      sent := prefix_refl _
      incoming := later
      within := fun _ => genuine.id_le regular
      acked := acked
      reader := rfl
      unsent := by simp [fire]
      genuine := by simp
      gapFree := fun _ _ => trivial
      reaches := fun still counter position => position.all still
      fired := by
        intro before
        obtain ⟨-, data⟩ := genuine.regular regular
        rw [next, Nat.add_sub_cancel] at data
        have fired : ({ p with
            incomingMsgId := msg.id, incomingMsgLastTime := env.now }.fire
              (.message msg.data)).fired = p.fired ++ [msg.data] := by
          simp [PersistentProtocol.fired, fire, ProtocolEvent.message?]
        rw [fired, before]
        simp only [fire]
        rw [next, take_add_one, data]
        rfl }

theorem Moves.receiveRegular (near : msg.id ≤ p.incomingMsgId + 1) :
    ∃ written, Moves peer p (p.receiveRegular env msg) written ∧
      (p.receiveRegular env msg).incomingMsgId = max p.incomingMsgId msg.id := by
  rw [PersistentProtocol.receiveRegular]
  by_cases newer : msg.id > p.incomingMsgId
  · have next : msg.id = p.incomingMsgId + 1 := by omega
    rw [if_pos newer, if_neg (by simpa using next), fire_sendAckCheck]
    have first := Moves.receiveNext env ok acked genuine regular next
    obtain ⟨written, second⟩ := Moves.sendAckCheck env first.ok first.acked
    refine ⟨written, ?_, ?_⟩
    · have both := first.trans ok second
      rwa [nil_append] at both
    · rw [sendAckCheck_incomingMsgId]
      simp only [fire]
      omega
  · rw [if_neg newer]
    refine ⟨[], (Quiet.refl p).still ok acked ok.writer rfl, ?_⟩
    omega

end

theorem sent_send (env : Surroundings) (p : PersistentProtocol) (buffer : Bytes) :
    (p.send env buffer).sent = p.sent ++ [buffer] := by
  rw [send_eq]
  split
  · rfl
  · exact (recvAckCheck_quiet env _).1.sent

theorem sent_receiveMessage (env : Surroundings) (p : PersistentProtocol)
    (msg : ProtocolMessage) : (p.receiveMessage env msg).sent = p.sent := by
  have acked : (p.receiveAck msg.ack).sent = p.sent := by
    rw [PersistentProtocol.receiveAck]
    split <;> rfl
  have checked : ∀ q : PersistentProtocol, (q.sendAckCheck env).sent = q.sent := by
    intro q
    simp only [PersistentProtocol.sendAckCheck, PersistentProtocol.sendAck,
      PersistentProtocol.write]
    split_ifs <;> rfl
  have regular : ∀ q : PersistentProtocol, (q.receiveRegular env msg).sent = q.sent := by
    intro q
    simp only [PersistentProtocol.receiveRegular, fire, PersistentProtocol.write]
    split_ifs
    · rfl
    · rfl
    · exact checked _
    · rfl
  simp only [PersistentProtocol.receiveMessage]
  split_ifs
  · rw [regular, acked]
  · exact acked
  · exact acked
  · exact (recvAckCheck_quiet env _).1.sent.trans acked
  · exact acked
  · exact acked
  · exact acked

theorem receiveAck_incomingMsgId (p : PersistentProtocol) (ack : Nat) :
    (p.receiveAck ack).incomingMsgId = p.incomingMsgId := by
  rw [PersistentProtocol.receiveAck]
  split <;> rfl

/-- A genuine message that does not run ahead is received. -/
theorem Moves.receiveMessage (env : Surroundings) (ok : p.Ok)
    (acked : p.outgoingAckId ≤ peer.incomingMsgId) (within : peer.incomingMsgId ≤ p.outgoingMsgId)
    (genuine : peer.Genuine msg)
    (near : GapFree p.incomingMsgId (regularIds [msg])) :
    ∃ written, Moves peer p (p.receiveMessage env msg) written ∧
      (p.receiveMessage env msg).incomingMsgId = reach p.incomingMsgId (regularIds [msg]) := by
  have first := Moves.receiveAck ok acked within genuine.ack
  have incoming := receiveAck_incomingMsgId p msg.ack
  have chain : ∀ {q : PersistentProtocol} {written : List ProtocolMessage},
      Moves peer (p.receiveAck msg.ack) q written → Moves peer p q written := by
    intro q written second
    have both := first.trans ok second
    rwa [nil_append] at both
  by_cases regular : msg.type = ProtocolMessageType.regular
  · have ids : regularIds [msg] = [msg.id] := by simp [regularIds, regular]
    rw [ids] at near ⊢
    obtain ⟨written, moves, counted⟩ := Moves.receiveRegular env first.ok first.acked
      genuine regular (incoming ▸ near.1)
    rw [PersistentProtocol.receiveMessage]
    simp only [regular, if_true]
    exact ⟨written, chain moves, counted.trans (by rw [incoming]; rfl)⟩
  · rw [regularIds_of_ne regular, reach_nil]
    -- what is left is quiet, or sends everything again
    have still : ∀ {q : PersistentProtocol}, Quiet (p.receiveAck msg.ack) q →
        q.socketWriter.Ready → q.socketWriter.unsent = (p.receiveAck msg.ack).socketWriter.unsent →
        ∃ written, Moves peer p q written ∧ q.incomingMsgId = p.incomingMsgId := by
      intro q quiet ready unsent
      exact ⟨[], chain (quiet.still first.ok first.acked ready unsent),
        quiet.incomingMsgId.trans incoming⟩
    have ready := first.ok.writer
    simp only [PersistentProtocol.receiveMessage, regular, if_false]
    split_ifs with control disconnect replay pause resume
    · exact still (fire_quiet _ rfl) ready rfl
    · exact still (fire_quiet _ rfl) ready rfl
    · have again := (Moves.sendAgain env first.ok first.acked).1
      refine ⟨_, chain again, ?_⟩
      exact (recvAckCheck_quiet env _).1.incomingMsgId.trans incoming
    · exact still ⟨rfl, rfl, rfl, rfl, rfl, rfl, rfl, rfl⟩ ⟨ready.active, ready.total⟩ rfl
    · exact still ⟨rfl, rfl, rfl, rfl, rfl, rfl, rfl, rfl⟩ ⟨ready.active, ready.total⟩ rfl
    · exact still (Quiet.refl _) ready rfl

theorem Moves.flush (ok : p.Ok) (acked : p.outgoingAckId ≤ peer.incomingMsgId) :
    Moves peer p p.flush [] := by
  obtain ⟨ready, unsent⟩ := ok.writer.writeNow
  exact Quiet.still ⟨rfl, rfl, rfl, rfl, rfl, rfl, rfl, rfl⟩ ok acked ready unsent

/-- The payload of a local action fits into a message, and ids stay below
`2 ^ 32`. -/
def Sendable (p : PersistentProtocol) : LocalAction → Prop
  | .send buffer => p.sent.length + 1 < 2 ^ 32 ∧ buffer.length < 2 ^ 32
  | .sendControl buffer => buffer.length < 2 ^ 32
  | _ => True

theorem Moves.act (env : Surroundings) (ok : p.Ok) (acked : p.outgoingAckId ≤ peer.incomingMsgId)
    (sendable : p.Sendable action) (acted : p.act env action = some p') :
    ∃ written, Moves peer p p' written := by
  have still : ∀ {q : PersistentProtocol}, Quiet p q → q.socketWriter.Ready →
      q.socketWriter.unsent = p.socketWriter.unsent → ∃ written, Moves peer p q written :=
    fun quiet ready unsent => ⟨[], quiet.still ok acked ready unsent⟩
  cases action with
  | send buffer =>
    cases acted
    exact Moves.send env ok acked sendable.1 sendable.2
  | sendControl buffer =>
    cases acted
    refine ⟨_, Moves.write ok acked ?_ ?_ (Nat.zero_le _)⟩
    · change ProtocolMessageType.control ≠ ProtocolMessageType.regular
      decide
    · exact ⟨Nat.two_pow_pos 32, Nat.two_pow_pos 32, sendable⟩
  | sendKeepAlive =>
    cases acted
    have noted : Quiet p { p with incomingAckId := p.incomingMsgId } :=
      ⟨rfl, rfl, rfl, rfl, rfl, rfl, rfl, rfl⟩
    have first := noted.still ok acked ok.writer rfl
    refine ⟨_, first.trans ok (Moves.write first.ok acked ?_ ?_ (Nat.le_refl _))⟩
    · change ProtocolMessageType.keepAlive ≠ ProtocolMessageType.regular
      decide
    · exact valid_empty ok.fewIncoming
  | sendPause =>
    cases acted
    exact ⟨_, Moves.writeEmpty ok acked _ (by decide)⟩
  | sendResume =>
    cases acted
    exact ⟨_, Moves.writeEmpty ok acked _ (by decide)⟩
  | sendDisconnect =>
    cases acted
    rw [PersistentProtocol.sendDisconnect]
    split
    · exact still (Quiet.refl p) ok.writer rfl
    · have noted : Quiet p { p with didSendDisconnect := true } :=
        ⟨rfl, rfl, rfl, rfl, rfl, rfl, rfl, rfl⟩
      have first := noted.still ok acked ok.writer rfl
      have second := first.trans ok
        (Moves.writeEmpty first.ok first.acked ProtocolMessageType.disconnect (by decide))
      exact ⟨_, second.trans ok (Moves.flush second.ok second.acked)⟩
  | pauseSocketWriting =>
    cases acted
    exact still ⟨rfl, rfl, rfl, rfl, rfl, rfl, rfl, rfl⟩ ⟨ok.writer.active, ok.writer.total⟩ rfl
  | flush =>
    cases acted
    exact ⟨[], Moves.flush ok acked⟩
  | writeNowTimeout =>
    rw [PersistentProtocol.act, Option.ite_none_right_eq_some] at acted
    obtain ⟨-, acted⟩ := acted
    cases acted
    exact still ⟨rfl, rfl, rfl, rfl, rfl, rfl, rfl, rfl⟩ ok.writer.timeout.1 ok.writer.timeout.2
  | incomingAckTimeout =>
    rw [PersistentProtocol.act, Option.ite_none_right_eq_some] at acted
    obtain ⟨-, acted⟩ := acted
    cases acted
    have noted : Quiet p { p with incomingAckTimeout := false } :=
      ⟨rfl, rfl, rfl, rfl, rfl, rfl, rfl, rfl⟩
    have first := noted.still ok acked ok.writer rfl
    obtain ⟨written, second⟩ := Moves.sendAckCheck env first.ok first.acked
    exact ⟨_, first.trans ok second⟩
  | outgoingAckTimeout =>
    rw [PersistentProtocol.act, Option.ite_none_right_eq_some] at acted
    obtain ⟨-, acted⟩ := acted
    cases acted
    have noted : Quiet p { p with outgoingAckTimeout := false } :=
      ⟨rfl, rfl, rfl, rfl, rfl, rfl, rfl, rfl⟩
    have first := noted.still ok acked ok.writer rfl
    exact ⟨_, first.trans ok (Moves.recvAckCheck env first.ok first.acked)⟩
  | endAcceptReconnection =>
    cases acted
    exact Moves.endAcceptReconnection env ok acked

end PersistentProtocol

end CodeEditor.Ipc

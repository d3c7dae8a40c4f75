import CodeEditor.Foundation.Simulation
import CodeEditor.Ipc.Endpoint

/-!
# Delivery over pipes that may be cut

Two endpoints of the persistent protocol. For each side and each pipe that it is
on or has not used yet, the messages that will still be read from the pipe are
those the other side has written to it. They leave no gap, and while the other
side is on a pipe that is not cut and not reconnecting, they end with everything
that was sent.
-/

namespace CodeEditor.Ipc

open SequenceNumbers Framing Simulation PersistentProtocol Option Nat
open List hiding count

/-! ## One direction of a pipe -/

/-- What is on its way to a reader that counts to `counter`. `unread` are messages
the reader has taken off the pipe that are still to be received, `msgs` those it
will take off; `stream` is what it has yet to read, of which `arriving` is on the
pipe. The pipe is `live` when the other side writes to it. -/
structure LinkOf (peer : PersistentProtocol) (counter : Nat) (reader : ProtocolReader)
    (arriving : Bytes) (joined : Bool) (live : Prop) (unread msgs : List ProtocolMessage)
    (stream : Bytes) : Prop where
  drains : frameReader.Drains reader.state (reader.incomingData.bytes ++ stream)
    .awaitHead [] msgs
  genuine : ∀ msg ∈ unread ++ msgs, peer.Genuine msg
  gapFree : GapFree counter (regularIds (unread ++ msgs))
  onPipe : arriving <+: stream
  written : live → stream = arriving ++ peer.socketWriter.unsent
  reaches : live → peer.isReconnecting = false →
    reach counter (regularIds (unread ++ msgs)) = peer.outgoingMsgId
  fresh : joined = false → unread = [] ∧ msgs = [] ∧ stream = []

def Link (peer : PersistentProtocol) (counter : Nat) (reader : ProtocolReader)
    (arriving : Bytes) (joined : Bool) (live : Prop) (unread : List ProtocolMessage) : Prop :=
  ∃ msgs stream, LinkOf peer counter reader arriving joined live unread msgs stream

section Link

variable {peer peer' p : PersistentProtocol} {counter counter' : Nat}
  {reader : ProtocolReader} {arriving : Bytes} {joined : Bool} {live : Prop}
  {unread unread' : List ProtocolMessage}

/-- The reader receives, or its counter moves on elsewhere. -/
theorem Link.receive (link : Link peer counter reader arriving joined live unread)
    (some_read : ∀ msg ∈ unread', msg ∈ unread)
    (counted : ∀ msgs, GapFree counter (regularIds (unread ++ msgs)) →
      GapFree counter' (regularIds (unread' ++ msgs)) ∧
      (reach counter (regularIds (unread ++ msgs)) = peer.outgoingMsgId →
        reach counter' (regularIds (unread' ++ msgs)) = peer.outgoingMsgId)) :
    Link peer counter' reader arriving joined live unread' := by
  obtain ⟨msgs, stream, link⟩ := link
  obtain ⟨gapFree, reaches⟩ := counted msgs link.gapFree
  refine ⟨msgs, stream, { link with
    genuine := ?_, gapFree := gapFree, reaches := ?_, fresh := ?_ }⟩
  · intro msg member
    apply link.genuine
    simp only [mem_append] at member ⊢
    exact member.imp_left (some_read msg)
  · intro isLive still
    exact reaches (link.reaches isLive still)
  · intro notJoined
    obtain ⟨none, rest⟩ := link.fresh notJoined
    refine ⟨?_, rest⟩
    rw [eq_nil_iff_forall_not_mem]
    intro msg member
    have was := some_read msg member
    rw [none] at was
    exact absurd was (by simp)

/-- The counter moves on elsewhere. -/
theorem Link.mono (link : Link peer counter reader arriving joined live unread)
    (ahead : counter ≤ counter') (within : counter' ≤ peer.outgoingMsgId) :
    Link peer counter' reader arriving joined live unread := by
  apply link.receive (fun _ member => member)
  intro msgs gapFree
  exact ⟨gapFree.mono ahead, reach_of_le ahead within⟩

theorem LinkOf.position
    (link : LinkOf peer p.incomingMsgId reader arriving joined live unread msgs stream)
    (peerOk : peer.Ok) (within : p.incomingMsgId ≤ peer.sent.length) (isLive : live) :
    Position p peer (reach p.incomingMsgId (regularIds (unread ++ msgs))) where
  seen := le_reach _ _
  sent := by
    rw [peerOk.count]
    exact reach_le within (regularIds_le link.genuine)
  all still := link.reaches isLive still

/-- The other side makes a move. -/
theorem Link.send (link : Link peer p.incomingMsgId reader arriving joined live unread)
    (peerOk : peer.Ok) (within : p.incomingMsgId ≤ peer.sent.length)
    (liveJoined : live → joined = true) (moves : Moves p peer peer' written) :
    Link peer' p.incomingMsgId reader arriving joined live unread := by
  obtain ⟨msgs, stream, link⟩ := link
  have genuine : ∀ msg ∈ unread ++ msgs, peer'.Genuine msg := fun msg member =>
    (link.genuine msg member).mono moves.sent moves.incoming
  by_cases isLive : live
  · have position := link.position peerOk within isLive
    have all := drains_encode_all fun msg member => (moves.genuine msg member).valid
    have longer := link.drains.append frameReader_bounded (by rw [nil_append]; exact all)
    rw [append_assoc] at longer
    have ids : regularIds (unread ++ (msgs ++ written)) =
        regularIds (unread ++ msgs) ++ regularIds written := by
      rw [← append_assoc, regularIds_append]
    refine ⟨msgs ++ written, stream ++ written.flatMap ProtocolMessage.encode, ?_⟩
    exact
      { drains := longer
        genuine := by
          intro msg member
          rw [← append_assoc, mem_append] at member
          obtain member | member := member
          · exact genuine msg member
          · exact moves.genuine msg member
        gapFree := by
          rw [ids, gapFree_append]
          exact ⟨link.gapFree, moves.gapFree _ position⟩
        onPipe := link.onPipe.trans (prefix_append _ _)
        written := by
          intro _
          rw [link.written isLive, moves.unsent, append_assoc]
        reaches := by
          intro _ still
          rw [ids, reach_append]
          exact moves.reaches still _ position
        fresh := by
          intro notJoined
          exact absurd ((liveJoined isLive).symm.trans notJoined) (by decide) }
  · exact ⟨msgs, stream,
      { drains := link.drains
        genuine := genuine
        gapFree := link.gapFree
        onPipe := link.onPipe
        written := fun now => absurd now isLive
        reaches := fun now => absurd now isLive
        fresh := link.fresh }⟩

/-- Two states of an endpoint that give its messages the same meaning. -/
structure SameVoice (p p' : PersistentProtocol) : Prop where
  sent : p'.sent = p.sent
  outgoingMsgId : p'.outgoingMsgId = p.outgoingMsgId
  incomingMsgId : p'.incomingMsgId = p.incomingMsgId
  isReconnecting : p'.isReconnecting = p.isReconnecting

/-- The other side in a state that differs in nothing visible, and that has put some
of what it wrote onto the pipe. -/
theorem Link.transmit (link : Link peer counter reader arriving joined live unread)
    (quiet : SameVoice peer peer') {onto arriving' : Bytes}
    (unsent : peer.socketWriter.unsent = onto ++ peer'.socketWriter.unsent)
    (grown : live → arriving' = arriving ++ onto) (same : ¬ live → arriving' = arriving) :
    Link peer' counter reader arriving' joined live unread := by
  obtain ⟨msgs, stream, link⟩ := link
  have written : live → stream = arriving' ++ peer'.socketWriter.unsent := by
    intro isLive
    rw [link.written isLive, unsent, grown isLive, append_assoc]
  refine ⟨msgs, stream, { link with
    genuine := ?_, onPipe := ?_, written := written, reaches := ?_ }⟩
  · intro msg member
    apply (link.genuine msg member).mono
    · simp [quiet.sent]
    · simp [quiet.incomingMsgId]
  · by_cases isLive : live
    · rw [written isLive]
      exact prefix_append _ _
    · rw [same isLive]
      exact link.onPipe
  · rw [quiet.isReconnecting, quiet.outgoingMsgId]
    exact link.reaches

/-- The pipe is no longer written to. -/
theorem Link.die (link : Link peer counter reader arriving joined live unread)
    (sent : peer'.sent = peer.sent) (incoming : peer'.incomingMsgId = peer.incomingMsgId)
    {arriving' : Bytes} (kept : arriving' <+: arriving) {live' : Prop}
    (dead : ¬ live') : Link peer' counter reader arriving' joined live' unread := by
  obtain ⟨msgs, stream, link⟩ := link
  refine ⟨msgs, stream, { link with
    genuine := ?_
    onPipe := kept.trans link.onPipe
    written := fun now => absurd now dead
    reaches := fun now => absurd now dead }⟩
  intro msg member
  apply (link.genuine msg member).mono
  · simp [sent]
  · simp [incoming]

/-- The other side comes to the pipe with a new writer. -/
theorem Link.join (link : Link peer counter reader arriving false live unread)
    (reconnecting : peer'.isReconnecting = true) (unsent : peer'.socketWriter.unsent = []) :
    Link peer' counter reader arriving true live' unread := by
  obtain ⟨msgs, stream, link⟩ := link
  obtain ⟨noUnread, noMsgs, noStream⟩ := link.fresh rfl
  have nothing : arriving = [] := by
    have onPipe := link.onPipe
    rwa [noStream, prefix_nil] at onPipe
  subst noUnread noMsgs
  exact ⟨[], stream,
    { drains := link.drains
      genuine := by simp
      gapFree := trivial
      onPipe := link.onPipe
      written := by
        intro _
        rw [noStream, nothing, unsent]
        rfl
      reaches := by
        intro _ still
        exact absurd (reconnecting.symm.trans still) (by decide)
      fresh := fun notJoined => absurd notJoined (by decide) }⟩

/-- The messages that a chunk completes are the next ones on the link. -/
theorem Link.read {chunk : Bytes}
    (link : Link peer counter reader (chunk ++ arriving) joined live [])
    (ok : ReaderOk reader)
    (short : reader.incomingData.bytes.length < frameReader.need reader.state) :
    ∃ reader' fired, reader.acceptChunk keepsReading chunk = some (reader', fired) ∧
      ReaderOk reader' ∧
      reader'.incomingData.bytes.length < frameReader.need reader'.state ∧
      Link peer counter reader' arriving joined live fired := by
  by_cases nothing : chunk = []
  · subst nothing
    exact ⟨reader, [], rfl, ok, short, link⟩
  obtain ⟨msgs, stream, link⟩ := link
  obtain ⟨behind, whole⟩ := link.onPipe
  obtain ⟨reader', fired, accepted, ok', drained⟩ := ok.acceptChunk nothing
  have rest : frameReader.Drains reader'.state
      (reader'.incomingData.bytes ++ (arriving ++ behind)) _ _ _ :=
    Reader.drains_drain frameReader_bounded frameReader_progresses (lt_succ_self _)
  have both := drained.append frameReader_bounded rest
  have same : reader.incomingData.bytes ++ chunk ++ (arriving ++ behind) =
      reader.incomingData.bytes ++ stream := by
    rw [← whole]
    simp
  rw [same] at both
  obtain ⟨stateEq, restEq, msgsEq⟩ := both.unique link.drains
  rw [stateEq, restEq] at rest
  refine ⟨reader', fired, accepted, ok', drained.short, _, arriving ++ behind,
    { drains := rest
      genuine := ?_, gapFree := ?_, onPipe := ?_, written := ?_, reaches := ?_,
      fresh := ?_ }⟩
  · intro msg member
    rw [msgsEq] at member
    exact link.genuine msg member
  · rw [msgsEq]
    exact link.gapFree
  · exact prefix_append _ _
  · intro isLive
    have all := link.written isLive
    rw [← whole, append_assoc, append_assoc] at all
    exact append_cancel_left all
  · rw [msgsEq]
    exact link.reaches
  · intro notJoined
    obtain ⟨-, noMsgs, noStream⟩ := link.fresh notJoined
    rw [noMsgs] at msgsEq
    obtain ⟨noFired, noRest⟩ := append_eq_nil_iff.mp msgsEq
    rw [noStream] at whole
    refine ⟨noFired, noRest, ?_⟩
    simp only [append_eq_nil_iff] at whole ⊢
    exact ⟨whole.1.2, whole.2⟩

end Link

/-! ## Networks -/

@[simp] theorem Side.other_other (side : Side) : side.other.other = side := by
  cases side <;> rfl

theorem Side.other_ne (side : Side) : side.other ≠ side := by
  cases side <;> decide

/-- There are two sides. -/
theorem Side.eq_or_eq_other (side s : Side) : side = s ∨ s = side.other := by
  cases s <;> cases side <;> simp [Side.other]

namespace Network

/-- The link towards a side on a pipe, for a reader of that side. -/
def Linked (n : Network) (side : Side) (number : Nat) (reader : ProtocolReader)
    (unread : List ProtocolMessage) : Prop :=
  Link (n.protocol side.other) (n.protocol side).incomingMsgId reader
    ((n.pipes number).bytes side) ((n.pipes number).joined side.other)
    (n.pipe side.other = number ∧ (n.pipes number).isCut = false) unread

/-- An endpoint and what it knows of the other one. -/
structure Agrees (p peer : PersistentProtocol) : Prop where
  ok : p.Ok
  acked : p.outgoingAckId ≤ peer.incomingMsgId
  within : p.incomingMsgId ≤ peer.sent.length
  fired : p.fired = peer.sent.take p.incomingMsgId

/-- The invariant of one side, which has taken some messages off its pipe that it
has not received yet. -/
structure SideOk (n : Network) (side : Side) (unread : List ProtocolMessage) : Prop where
  agrees : Agrees (n.protocol side) (n.protocol side.other)
  joined : (n.pipes (n.pipe side)).joined side = true
  current : n.Linked side (n.pipe side) (n.protocol side).socketReader unread
  coming : ∀ number, (n.pipes number).joined side = false → n.Linked side number .new []

/-- The invariant of a network. -/
def Ok (n : Network) (unread : Side → List ProtocolMessage) : Prop :=
  ∀ side, n.SideOk side (unread side)

variable {n : Network} {unread : Side → List ProtocolMessage}

section

variable (n : Network) (side : Side) (p : PersistentProtocol)

@[simp] theorem setProtocol_pipe : (n.setProtocol side p).pipe = n.pipe := rfl

@[simp] theorem setProtocol_pipes : (n.setProtocol side p).pipes = n.pipes := rfl

@[simp] theorem setProtocol_self : (n.setProtocol side p).protocol side = p := by
  simp [setProtocol]

@[simp] theorem setProtocol_other :
    (n.setProtocol side p).protocol side.other = n.protocol side.other := by
  simp [setProtocol, side.other_ne]

end

theorem take_of_prefix {first second : List Bytes} (extended : first <+: second)
    {count : Nat} (within : count ≤ first.length) : second.take count = first.take count := by
  obtain ⟨more, rfl⟩ := extended
  exact take_append_of_le_length within

/-- One side makes a move, with which it receives some of its unread messages. -/
theorem Ok.move (ok : n.Ok unread) (side : Side)
    (moves : Moves (n.protocol side.other) (n.protocol side) p' written)
    {unread' : List ProtocolMessage} (some_read : ∀ msg ∈ unread', msg ∈ unread side)
    (counted : ∀ msgs, GapFree (n.protocol side).incomingMsgId (regularIds (unread side ++ msgs)) →
      GapFree p'.incomingMsgId (regularIds (unread' ++ msgs)) ∧
      (reach (n.protocol side).incomingMsgId (regularIds (unread side ++ msgs)) =
          (n.protocol side.other).outgoingMsgId →
        reach p'.incomingMsgId (regularIds (unread' ++ msgs)) =
          (n.protocol side.other).outgoingMsgId)) :
    (n.setProtocol side p').Ok (Function.update unread side unread') := by
  have own := ok side
  have others := ok side.other
  have within := moves.within own.agrees.within
  have peerWithin := others.agrees.within
  rw [Side.other_other] at peerWithin
  -- towards the other side, the moving side is the writer
  have sends : ∀ number reader waiting, n.Linked side.other number reader waiting →
      (n.setProtocol side p').Linked side.other number reader waiting := by
    intro number reader waiting linked
    unfold Linked at linked ⊢
    simp only [Side.other_other, setProtocol_self, setProtocol_other, setProtocol_pipes,
      setProtocol_pipe] at linked ⊢
    apply linked.send own.agrees.ok peerWithin _ moves
    rintro ⟨rfl, -⟩
    exact own.joined
  intro s
  obtain rfl | rfl := side.eq_or_eq_other s
  · rw [Function.update_self]
    refine ⟨?_, own.joined, ?_, ?_⟩
    · rw [setProtocol_self, setProtocol_other]
      exact ⟨moves.ok, moves.acked, within, moves.fired own.agrees.fired⟩
    · have linked := own.current
      unfold Linked at linked ⊢
      simp only [setProtocol_self, setProtocol_other, setProtocol_pipes, setProtocol_pipe,
        moves.reader]
      exact linked.receive some_read counted
    · intro number notJoined
      have linked := own.coming number notJoined
      unfold Linked at linked ⊢
      simp only [setProtocol_self, setProtocol_other, setProtocol_pipes, setProtocol_pipe]
      apply linked.mono moves.incoming
      rw [others.agrees.ok.count]
      exact within
  · rw [Function.update_of_ne side.other_ne]
    refine ⟨?_, others.joined, ?_, ?_⟩
    · have before := others.agrees
      rw [Side.other_other] at before
      rw [Side.other_other, setProtocol_self, setProtocol_other]
      refine ⟨before.ok, le_trans before.acked moves.incoming,
        le_trans before.within moves.sent.length_le, ?_⟩
      rw [before.fired, take_of_prefix moves.sent before.within]
    · rw [setProtocol_other]
      exact sends _ _ _ others.current
    · intro number notJoined
      exact sends _ _ _ (others.coming number notJoined)

/-! ## Putting bytes onto a pipe -/

/-- An endpoint whose socket has passed on what it was given. -/
def passedOn (p : PersistentProtocol) : PersistentProtocol :=
  { p with socketWriter := { p.socketWriter with socket := [] } }

theorem passedOn_quiet (p : PersistentProtocol) : Quiet p (passedOn p) :=
  ⟨rfl, rfl, rfl, rfl, rfl, rfl, rfl, rfl⟩

/-- The pipe of a side behind what its socket passes on. -/
theorem transmit_eq (n : Network) (side : Side) : (n.transmit side).pipe = n.pipe ∧
      (n.transmit side).protocol = Function.update n.protocol side (passedOn (n.protocol side)) ∧
      ∀ number, ((n.transmit side).pipes number).joined = (n.pipes number).joined ∧
        ((n.transmit side).pipes number).isCut = (n.pipes number).isCut ∧
        ((n.transmit side).pipes number).bytes side = (n.pipes number).bytes side ∧
        ((n.transmit side).pipes number).bytes side.other =
          if n.pipe side = number ∧ (n.pipes number).isCut = false then
            (n.pipes number).bytes side.other ++ (n.protocol side).socketWriter.socket.flatten
          else (n.pipes number).bytes side.other := by
  cases cut : (n.pipes (n.pipe side)).isCut with
  | true =>
    have same : n.transmit side = n.setProtocol side (passedOn (n.protocol side)) := by
      simp [transmit, cut, passedOn]
    rw [same]
    refine ⟨rfl, rfl, ?_⟩
    intro number
    refine ⟨rfl, rfl, rfl, ?_⟩
    rw [if_neg]
    · rfl
    · rintro ⟨rfl, notCut⟩
      exact absurd (cut.symm.trans notCut) (by decide)
  | false =>
    have grown : n.transmit side =
        (n.setProtocol side (passedOn (n.protocol side))).setPipe (n.pipe side)
          { n.pipes (n.pipe side) with
            bytes := Function.update (n.pipes (n.pipe side)).bytes side.other
              ((n.pipes (n.pipe side)).bytes side.other ++
                (n.protocol side).socketWriter.socket.flatten) } := by
      simp [transmit, cut, passedOn]
    rw [grown]
    refine ⟨rfl, rfl, ?_⟩
    intro number
    by_cases own : n.pipe side = number
    · subst own
      simp [setPipe, cut, side.other_ne.symm]
    · simp [setPipe, own, Ne.symm own]

theorem Ok.transmit (ok : n.Ok unread) (side : Side) : (n.transmit side).Ok unread := by
  obtain ⟨pipeEq, protocolEq, pipesEq⟩ := transmit_eq n side
  have quiet := passedOn_quiet (n.protocol side)
  have voice : SameVoice (n.protocol side) (passedOn (n.protocol side)) :=
    ⟨rfl, rfl, rfl, rfl⟩
  have self : (n.transmit side).protocol side = passedOn (n.protocol side) := by
    rw [protocolEq, Function.update_self]
  have other : (n.transmit side).protocol side.other = n.protocol side.other := by
    rw [protocolEq, Function.update_of_ne side.other_ne]
  have ready : (passedOn (n.protocol side)).socketWriter.Ready :=
    ⟨(ok side).agrees.ok.writer.active, (ok side).agrees.ok.writer.total⟩
  have unsent : (n.protocol side).socketWriter.unsent =
      (n.protocol side).socketWriter.socket.flatten ++
        (passedOn (n.protocol side)).socketWriter.unsent := by
    simp [ProtocolWriter.unsent, passedOn]
  have towards : ∀ number reader others, n.Linked side number reader others →
      (n.transmit side).Linked side number reader others := by
    intro number reader others linked
    obtain ⟨joinedEq, cutEq, bytesEq, -⟩ := pipesEq number
    unfold Linked at linked ⊢
    rw [self, other, pipeEq, joinedEq, cutEq, bytesEq]
    exact linked
  have away : ∀ number reader others, n.Linked side.other number reader others →
      (n.transmit side).Linked side.other number reader others := by
    intro number reader others linked
    obtain ⟨joinedEq, cutEq, -, bytesEq⟩ := pipesEq number
    unfold Linked at linked ⊢
    rw [Side.other_other] at linked ⊢
    rw [self, other, pipeEq, joinedEq, cutEq, bytesEq]
    apply linked.transmit voice unsent
    · intro isLive
      rw [if_pos isLive]
    · intro notLive
      rw [if_neg notLive]
  intro s
  have before := ok s
  have agrees := before.agrees
  obtain rfl | rfl := side.eq_or_eq_other s
  · refine ⟨?_, ?_, ?_, ?_⟩
    · rw [self, other]
      exact ⟨quiet.ok agrees.ok ready, agrees.acked, agrees.within, agrees.fired⟩
    · rw [pipeEq, (pipesEq _).1]
      exact before.joined
    · rw [pipeEq, self]
      exact towards _ _ _ before.current
    · intro number notJoined
      rw [(pipesEq number).1] at notJoined
      exact towards _ _ _ (before.coming number notJoined)
  · refine ⟨?_, ?_, ?_, ?_⟩
    · rw [Side.other_other] at agrees ⊢
      rw [self, other]
      exact ⟨agrees.ok, agrees.acked, agrees.within, agrees.fired⟩
    · rw [pipeEq, (pipesEq _).1]
      exact before.joined
    · rw [pipeEq, other]
      exact away _ _ _ before.current
    · intro number notJoined
      rw [(pipesEq number).1] at notJoined
      exact away _ _ _ (before.coming number notJoined)

/-! ## Receiving -/

/-- A move that receives nothing. -/
theorem Ok.moveOnly (ok : n.Ok unread) (side : Side)
    (moves : Moves (n.protocol side.other) (n.protocol side) p' written) :
    (n.setProtocol side p').Ok unread := by
  have moved : (n.setProtocol side p').Ok (Function.update unread side (unread side)) := by
    apply ok.move side moves (fun _ member => member)
    intro msgs gapFree
    refine ⟨gapFree.mono moves.incoming, reach_of_le moves.incoming ?_⟩
    rw [(ok side.other).agrees.ok.count]
    exact moves.within (ok side).agrees.within
  rwa [Function.update_eq_self] at moved

theorem Ok.peerWithin (ok : n.Ok unread) (side : Side) :
    (n.protocol side.other).incomingMsgId ≤ (n.protocol side).outgoingMsgId := by
  have within := (ok side.other).agrees.within
  rw [Side.other_other] at within
  rw [(ok side).agrees.ok.count]
  exact within

/-- The first of the unread messages is received. -/
theorem Ok.receiveMessage (ok : n.Ok unread) {msg : ProtocolMessage}
    {rest : List ProtocolMessage} (next : unread side = msg :: rest) (env : Surroundings) :
    (n.setProtocol side ((n.protocol side).receiveMessage env msg)).Ok
      (Function.update unread side rest) := by
  obtain ⟨msgs, stream, link⟩ := (ok side).current
  have split : ∀ more, regularIds (unread side ++ more) =
      regularIds [msg] ++ regularIds (rest ++ more) := by
    intro more
    rw [next, ← regularIds_append]
    rfl
  have genuine : (n.protocol side.other).Genuine msg :=
    link.genuine msg (by simp [next])
  have near := link.gapFree
  rw [split, gapFree_append] at near
  obtain ⟨written, moves, counted⟩ := Moves.receiveMessage env (ok side).agrees.ok
    (ok side).agrees.acked (ok.peerWithin side) genuine near.1
  apply ok.move side moves
  · intro other member
    rw [next]
    exact mem_cons_of_mem _ member
  · intro more gapFree
    rw [split, gapFree_append] at gapFree
    rw [split, reach_append, counted]
    exact ⟨gapFree.2, id⟩

/-- The listeners of a message send. -/
theorem Ok.sendAll (ok : n.Ok unread) (side : Side) (env : Surroundings) {buffers : List Bytes}
    (few : (n.protocol side).sent.length + buffers.length < 2 ^ 32)
    (short : ∀ buffer ∈ buffers, buffer.length < 2 ^ 32) :
    (n.setProtocol side (buffers.foldl (PersistentProtocol.send env) (n.protocol side))).Ok unread ∧
      (buffers.foldl (PersistentProtocol.send env) (n.protocol side)).sent.length =
        (n.protocol side).sent.length + buffers.length := by
  induction buffers generalizing n with
  | nil =>
    refine ⟨?_, rfl⟩
    simpa [setProtocol] using ok
  | cons buffer buffers ih =>
    rw [length_cons] at few
    have shortFirst := short buffer (by simp)
    obtain ⟨written, moves⟩ := Moves.send env (ok side).agrees.ok
      (ok side).agrees.acked (by omega) shortFirst
    have sent := sent_send env (n.protocol side) buffer
    have length : ((n.protocol side).send env buffer).sent.length =
        (n.protocol side).sent.length + 1 := by
      rw [sent, length_append, length_singleton]
    have rest := ih (ok.moveOnly side moves) (by rw [setProtocol_self, length]; omega)
      (fun other member => short other (by simp [member]))
    simp only [setProtocol_self, length] at rest
    rw [foldl_cons, length_cons]
    refine ⟨?_, by omega⟩
    simpa [setProtocol] using rest.1

@[simp] theorem setProtocol_setProtocol (n : Network) (side : Side)
    (p p' : PersistentProtocol) :
    (n.setProtocol side p).setProtocol side p' = n.setProtocol side p' := by
  simp [setProtocol]

/-- Replies that fit into messages and into the ids. -/
structure Repliable (p : PersistentProtocol) (replies : List (List Bytes)) : Prop where
  few : p.sent.length + replies.flatten.length < 2 ^ 32
  short : ∀ buffer ∈ replies.flatten, buffer.length < 2 ^ 32

instance (p : PersistentProtocol) (replies : List (List Bytes)) :
    Decidable (Repliable p replies) :=
  decidable_of_iff (p.sent.length + replies.flatten.length < 2 ^ 32 ∧
    ∀ buffer ∈ replies.flatten, buffer.length < 2 ^ 32)
    ⟨fun ⟨few, short⟩ => ⟨few, short⟩, fun ⟨few, short⟩ => ⟨few, short⟩⟩

/-- All unread messages are received, with the replies of their listeners. -/
theorem Ok.receiveAll (env : Surroundings) {msgs : List ProtocolMessage} :
    ∀ {n : Network} {unread : Side → List ProtocolMessage} {replies : List (List Bytes)},
      n.Ok unread → unread side = msgs → Repliable (n.protocol side) replies →
      (n.setProtocol side (PersistentProtocol.receiveAll env replies msgs (n.protocol side))).Ok
          (Function.update unread side []) := by
  induction msgs with
  | nil =>
    intro n unread replies ok none _
    have same : Function.update unread side [] = unread := by
      rw [← none, Function.update_eq_self]
    rw [same, PersistentProtocol.receiveAll]
    simpa [setProtocol] using ok
  | cons msg msgs ih =>
    intro n unread replies ok next repliable
    have split : replies.flatten = replies.headD [] ++ replies.tail.flatten := by
      cases replies <;> simp
    have few := repliable.few
    rw [split, length_append] at few
    have received := ok.receiveMessage next env
    have sent := sent_receiveMessage env (n.protocol side) msg
    have shortFirst : ∀ buffer ∈ replies.headD [], buffer.length < 2 ^ 32 := by
      intro buffer member
      apply repliable.short
      rw [split]
      exact mem_append_left _ member
    have shortRest : ∀ buffer ∈ replies.tail.flatten, buffer.length < 2 ^ 32 := by
      intro buffer member
      apply repliable.short
      rw [split]
      exact mem_append_right _ member
    obtain ⟨replied, length⟩ := received.sendAll side env
      (by rw [setProtocol_self, sent]; omega) shortFirst
    rw [setProtocol_self, setProtocol_setProtocol] at replied
    rw [setProtocol_self, sent] at length
    have rest := ih replied (by simp) ⟨by rw [setProtocol_self, length]; omega, shortRest⟩
    rw [setProtocol_self, setProtocol_setProtocol, Function.update_idem] at rest
    exact rest

/-- An endpoint whose reader has taken a chunk. -/
def reading (p : PersistentProtocol) (env : Surroundings) (chunk : Bytes)
    (reader : ProtocolReader) : PersistentProtocol :=
  { p with
    socketReader := reader
    lastReadTime := if chunk.length = 0 then p.lastReadTime else env.now }

/-- A side takes bytes off its pipe. -/
def takeOff (n : Network) (side : Side) (count : Nat) (p : PersistentProtocol) : Network :=
  let pipe := n.pipes (n.pipe side)
  (n.setProtocol side p).setPipe (n.pipe side) { pipe with
    bytes := Function.update pipe.bytes side ((pipe.bytes side).drop count) }

@[simp] theorem takeOff_self (n : Network) (side : Side) (count : Nat)
    (p : PersistentProtocol) : (n.takeOff side count p).protocol side = p :=
  setProtocol_self n side p

theorem setProtocol_takeOff (n : Network) (side : Side) (count : Nat) (p p' : PersistentProtocol) :
    (n.takeOff side count p).setProtocol side p' = n.takeOff side count p' := by
  simp [takeOff, setPipe, setProtocol]

/-- The reader of a side takes bytes off its pipe. -/
theorem Ok.takeOff (ok : n.Ok unread) (none : unread side = []) (env : Surroundings) (count : Nat) :
    let chunk := ((n.pipes (n.pipe side)).bytes side).take count
    ∃ reader fired,
      (n.protocol side).socketReader.acceptChunk keepsReading chunk = some (reader, fired) ∧
      (n.takeOff side count (reading (n.protocol side) env chunk reader)).Ok
        (Function.update unread side fired) := by
  intro chunk
  have link := (ok side).current
  unfold Linked at link
  rw [none, ← take_append_drop count ((n.pipes (n.pipe side)).bytes side)] at link
  obtain ⟨reader, fired, accepted, readerOk, short, link'⟩ :=
    link.read (ok side).agrees.ok.reader (ok side).agrees.ok.readerShort
  refine ⟨reader, fired, accepted, ?_⟩
  let p : PersistentProtocol := reading (n.protocol side) env chunk reader
  let taken : Network := n.takeOff side count p
  have pipesEq : ∀ number, (taken.pipes number).joined = (n.pipes number).joined ∧
      (taken.pipes number).isCut = (n.pipes number).isCut ∧
      (taken.pipes number).bytes side.other = (n.pipes number).bytes side.other := by
    intro number
    by_cases own : n.pipe side = number
    · subst own
      simp [taken, Network.takeOff, setPipe, side.other_ne]
    · simp [taken, Network.takeOff, setPipe, Ne.symm own]
  have self : taken.protocol side = p := setProtocol_self n side p
  have other : taken.protocol side.other = n.protocol side.other :=
    setProtocol_other n side p
  have pipeEq : taken.pipe = n.pipe := rfl
  have voice : SameVoice (n.protocol side) p := ⟨rfl, rfl, rfl, rfl⟩
  have away : ∀ number reader waiting, n.Linked side.other number reader waiting →
      taken.Linked side.other number reader waiting := by
    intro number reader waiting linked
    obtain ⟨joinedEq, cutEq, bytesEq⟩ := pipesEq number
    unfold Linked at linked ⊢
    rw [Side.other_other] at linked ⊢
    rw [self, other, joinedEq, cutEq, bytesEq, pipeEq]
    have nothing : (n.protocol side).socketWriter.unsent = [] ++ p.socketWriter.unsent := rfl
    apply linked.transmit voice nothing
    · intro _
      rw [append_nil]
    · intro _
      rfl
  change taken.Ok (Function.update unread side fired)
  intro s
  have before := ok s
  have agrees := before.agrees
  obtain rfl | rfl := side.eq_or_eq_other s
  · rw [Function.update_self]
    refine ⟨?_, ?_, ?_, ?_⟩
    · rw [self, other]
      have pOk : p.Ok :=
        { agrees.ok with
          unackGenuine := by
            intro u member
            obtain ⟨regular, genuine⟩ := agrees.ok.unackGenuine u member
            exact ⟨regular, genuine.mono (prefix_refl _) (le_refl _)⟩
          reader := readerOk
          readerShort := short }
      exact ⟨pOk, agrees.acked, agrees.within, agrees.fired⟩
    · rw [(pipesEq _).1]
      exact before.joined
    · obtain ⟨joinedEq, cutEq, -⟩ := pipesEq (n.pipe side)
      have bytesEq : (taken.pipes (n.pipe side)).bytes side =
          ((n.pipes (n.pipe side)).bytes side).drop count := by
        simp [taken, Network.takeOff, setPipe]
      unfold Linked
      rw [self, other, pipeEq, joinedEq, cutEq, bytesEq]
      exact link'
    · intro number notJoined
      obtain ⟨joinedEq, cutEq, -⟩ := pipesEq number
      rw [joinedEq] at notJoined
      have elsewhere : number ≠ n.pipe side := by
        rintro rfl
        exact absurd (before.joined.symm.trans notJoined) (by decide)
      have bytesEq : (taken.pipes number).bytes side = (n.pipes number).bytes side := by
        simp [taken, Network.takeOff, setPipe, elsewhere]
      have linked := before.coming number notJoined
      unfold Linked at linked ⊢
      rw [self, other, pipeEq, joinedEq, cutEq, bytesEq]
      exact linked
  · rw [Function.update_of_ne side.other_ne]
    refine ⟨?_, ?_, ?_, ?_⟩
    · rw [Side.other_other] at agrees ⊢
      rw [self, other]
      exact ⟨agrees.ok, agrees.acked, agrees.within, agrees.fired⟩
    · rw [(pipesEq _).1]
      exact before.joined
    · rw [pipeEq, other]
      exact away _ _ _ before.current
    · intro number notJoined
      rw [(pipesEq number).1] at notJoined
      exact away _ _ _ (before.coming number notJoined)

/-- The bytes that arrive are read, and the messages they complete received. -/
theorem Ok.deliver (ok : n.Ok unread) (none : unread side = []) (env : Surroundings) (count : Nat)
    (repliable : Repliable (n.protocol side) replies) :
    ∃ n', n.deliver side env count replies = some n' ∧ n'.Ok unread := by
  obtain ⟨reader, fired, accepted, taken⟩ := ok.takeOff none env count
  have repliable' : Repliable ((n.takeOff side count (reading (n.protocol side) env
      (((n.pipes (n.pipe side)).bytes side).take count) reader)).protocol side) replies := by
    rw [takeOff_self]
    exact ⟨repliable.few, repliable.short⟩
  have received := Ok.receiveAll env taken (Function.update_self ..) repliable'
  rw [Function.update_idem, ← none, Function.update_eq_self, takeOff_self,
    setProtocol_takeOff] at received
  refine ⟨_, ?_, received.transmit side⟩
  rw [Network.deliver, PersistentProtocol.acceptChunk, accepted]
  rfl

/-! ## Pipes -/

theorem Ok.new (env : Side → Surroundings) : (Network.new env).Ok fun _ => [] := by
  have linked : ∀ side number, (Network.new env).Linked side number .new [] := by
    intro side number
    refine ⟨[], [], ?_⟩
    exact
      { drains := .wait readerShort_new
        genuine := by simp
        gapFree := trivial
        onPipe := prefix_refl _
        written := fun _ => rfl
        reaches := fun _ _ => rfl
        fresh := fun _ => ⟨rfl, rfl, rfl⟩ }
  intro side
  exact
    { agrees := ⟨ok_new (env side), le_refl _, zero_le _, rfl⟩
      joined := rfl
      current := linked side _
      coming := fun number _ => linked side number }

theorem Ok.cut (ok : n.Ok unread) (number : Nat) (keep : Side → Nat) :
    (n.setPipe number { n.pipes number with
      bytes := fun side => ((n.pipes number).bytes side).take (keep side)
      isCut := true }).Ok unread := by
  let after : Network := n.setPipe number { n.pipes number with
    bytes := fun side => ((n.pipes number).bytes side).take (keep side)
    isCut := true }
  have joinedEq : ∀ other, (after.pipes other).joined = (n.pipes other).joined := by
    intro other
    by_cases same : other = number
    · subst same
      simp [after, setPipe]
    · simp [after, setPipe, same]
  have linked : ∀ side other reader waiting, n.Linked side other reader waiting →
      after.Linked side other reader waiting := by
    intro side other reader waiting before
    unfold Linked at before ⊢
    rw [joinedEq]
    by_cases same : other = number
    · subst same
      apply before.die rfl rfl
      · simpa [after, setPipe] using take_prefix _ _
      · simp [after, setPipe]
    · have pipe : after.pipes other = n.pipes other := by simp [after, setPipe, same]
      rw [pipe]
      exact before
  intro side
  have before := ok side
  exact
    { agrees := before.agrees
      joined := by
        rw [show (Network.setPipe n number _).pipes = after.pipes from rfl, joinedEq]
        exact before.joined
      current := linked _ _ _ _ before.current
      coming := by
        intro other notJoined
        rw [show (Network.setPipe n number _).pipes = after.pipes from rfl, joinedEq] at notJoined
        exact linked _ _ _ _ (before.coming other notJoined) }

/-- The network behind a switch to another pipe, once the old writer is flushed. -/
def switched (n : Network) (side : Side) (env : Surroundings) (number : Nat) : Network :=
  let n := n.setProtocol side ((n.protocol side).switchSocket env)
  let pipe := n.pipes number
  { n.setPipe number { pipe with joined := Function.update pipe.joined side true } with
    pipe := Function.update n.pipe side number }

/-- The old writer is not used any more, so only its last flush counts. -/
theorem switchSocket_eq (n : Network) (side : Side) (env : Surroundings) (number : Nat) :
    n.switchSocket side env number =
      ((n.setProtocol side (n.protocol side).flush).transmit side).switched side env
        number := by
  cases cut : (n.pipes (n.pipe side)).isCut <;>
    simp [Network.switchSocket, switched, transmit, setProtocol, setPipe, cut,
      PersistentProtocol.flush, ProtocolWriter.dispose, PersistentProtocol.switchSocket]

section

variable (ok : n.Ok unread) (none : unread side = []) (env : Surroundings)
  (unused : (n.pipes number).joined side = false)

include ok none env unused

theorem Ok.switched : (n.switched side env number).Ok unread := by
  let p : PersistentProtocol := (n.protocol side).switchSocket env
  let after : Network := n.switched side env number
  have self : after.protocol side = p := setProtocol_self n side p
  have other : after.protocol side.other = n.protocol side.other :=
    setProtocol_other n side p
  have pipeSelf : after.pipe side = number := by simp [after, Network.switched, setProtocol]
  have pipeOther : after.pipe side.other = n.pipe side.other := by
    simp [after, Network.switched, setProtocol, side.other_ne]
  have pipesEq : ∀ m, (after.pipes m).bytes = (n.pipes m).bytes ∧
      (after.pipes m).isCut = (n.pipes m).isCut ∧
      (after.pipes m).joined side.other = (n.pipes m).joined side.other ∧
      (after.pipes m).joined side = (decide (m = number) || (n.pipes m).joined side) := by
    intro m
    by_cases same : m = number
    · subst same
      simp [after, Network.switched, setPipe, setProtocol, side.other_ne]
    · simp [after, Network.switched, setPipe, setProtocol, same]
  change after.Ok unread
  intro s
  have before := ok s
  have agrees := before.agrees
  obtain rfl | rfl := side.eq_or_eq_other s
  · have towards : ∀ m, n.Linked side m .new [] → after.Linked side m .new [] := by
      intro m linked
      obtain ⟨bytesEq, cutEq, joinedEq, -⟩ := pipesEq m
      unfold Linked at linked ⊢
      rw [self, other, bytesEq, cutEq, joinedEq, pipeOther]
      exact linked
    rw [none]
    refine ⟨?_, ?_, ?_, ?_⟩
    · rw [self, other]
      have pOk : p.Ok :=
        { agrees.ok with
          unackGenuine := by
            intro u member
            obtain ⟨regular, genuine⟩ := agrees.ok.unackGenuine u member
            exact ⟨regular, genuine.mono (prefix_refl _) (le_refl _)⟩
          writer := ProtocolWriter.ready_new
          reader := readerOk_new
          readerShort := readerShort_new }
      exact ⟨pOk, agrees.acked, agrees.within, agrees.fired⟩
    · rw [pipeSelf, (pipesEq number).2.2.2]
      simp
    · rw [pipeSelf, self]
      exact towards number (before.coming number unused)
    · intro m notJoined
      rw [(pipesEq m).2.2.2, Bool.or_eq_false_iff] at notJoined
      exact towards m (before.coming m notJoined.2)
  · have away : ∀ m reader waiting, n.Linked side.other m reader waiting →
        after.Linked side.other m reader waiting := by
      intro m reader waiting linked
      obtain ⟨bytesEq, cutEq, -, joinedEq⟩ := pipesEq m
      unfold Linked at linked ⊢
      rw [Side.other_other] at linked ⊢
      rw [self, other, bytesEq, joinedEq]
      by_cases same : m = number
      · subst same
        rw [unused] at linked
        simpa using linked.join rfl rfl
      · simp only [same, decide_false, Bool.false_or]
        have sent : p.sent = (n.protocol side).sent := rfl
        have incoming : p.incomingMsgId = (n.protocol side).incomingMsgId := rfl
        apply linked.die sent incoming (prefix_refl _)
        rw [pipeSelf]
        exact fun ⟨here, _⟩ => same here.symm
    refine ⟨?_, ?_, ?_, ?_⟩
    · rw [Side.other_other] at agrees ⊢
      rw [self, other]
      exact ⟨agrees.ok, agrees.acked, agrees.within, agrees.fired⟩
    · rw [pipeOther, (pipesEq _).2.2.1]
      exact before.joined
    · rw [pipeOther, other]
      exact away _ _ _ before.current
    · intro m notJoined
      rw [(pipesEq m).2.2.1] at notJoined
      exact away _ _ _ (before.coming m notJoined)

theorem Ok.switchSocket : (n.switchSocket side env number).Ok unread := by
  rw [switchSocket_eq]
  have flushed := (ok.moveOnly side
    (Moves.flush (ok side).agrees.ok (ok side).agrees.acked)).transmit side
  apply flushed.switched none env
  rw [((transmit_eq _ side).2.2 number).1]
  exact unused

end

/-! ## Runs -/

/-- Payloads fit into messages, and each side sends fewer than `2 ^ 32`
messages. -/
def Permitted (n : Network) : NetworkAction → Prop
  | .act side _ action => (n.protocol side).Sendable action
  | .receive side _ _ replies => Repliable (n.protocol side) replies
  | .beginAcceptReconnection side _ _ _ replies => Repliable (n.protocol side) replies
  | .cut _ _ => True

instance (n : Network) : ∀ action, Decidable (n.Permitted action)
  | .act _ _ action =>
    match action with
    | .send _ => (inferInstance : Decidable (_ ∧ _))
    | .sendControl _ => (inferInstance : Decidable (_ < _))
    | .sendKeepAlive | .sendPause | .sendResume | .sendDisconnect | .pauseSocketWriting
    | .flush | .writeNowTimeout | .incomingAckTimeout | .outgoingAckTimeout
    | .endAcceptReconnection => isTrue trivial
  | .receive side _ _ replies =>
    (inferInstance : Decidable (Repliable (n.protocol side) replies))
  | .beginAcceptReconnection side _ _ _ replies =>
    (inferInstance : Decidable (Repliable (n.protocol side) replies))
  | .cut _ _ => isTrue trivial

theorem Ok.step {n' : Network} {action : NetworkAction} (ok : n.Ok fun _ => [])
    (permitted : n.Permitted action) (taken : n.step action = some n') :
    n'.Ok fun _ => [] := by
  cases action with
  | act side env action =>
    rw [Network.step, map_eq_some_iff] at taken
    obtain ⟨p, acted, rfl⟩ := taken
    obtain ⟨written, moves⟩ := Moves.act env (ok side).agrees.ok
      (ok side).agrees.acked permitted acted
    exact (ok.moveOnly side moves).transmit side
  | receive side env count replies =>
    obtain ⟨after, delivered, afterOk⟩ := ok.deliver rfl env count permitted
    rw [Network.step, delivered] at taken
    cases taken
    exact afterOk
  | beginAcceptReconnection side env number count replies =>
    rw [Network.step] at taken
    cases unused : (n.pipes number).joined side with
    | true => simp [unused] at taken
    | false =>
      have switched := ok.switchSocket rfl env unused
      have sent : ((n.switchSocket side env number).protocol side).sent =
          (n.protocol side).sent := by
        rw [switchSocket_eq, Network.switched]
        simp [setPipe, transmit_eq, PersistentProtocol.switchSocket, passedOn,
          PersistentProtocol.flush]
      obtain ⟨after, delivered, afterOk⟩ := switched.deliver rfl env count
        ⟨by rw [sent]; exact permitted.few, permitted.short⟩
      simp only [unused, Bool.false_eq_true, if_false, delivered] at taken
      cases taken
      exact afterOk
  | cut number keep =>
    cases taken
    exact ok.cut number keep

/-- Between two steps no socket holds anything back. -/
def PassedOn (n : Network) : Prop :=
  ∀ side, (n.protocol side).socketWriter.socket = []

theorem PassedOn.transmit {side : Side} (other : (n.protocol side.other).socketWriter.socket = []) :
    (n.transmit side).PassedOn := by
  intro s
  rw [(transmit_eq n side).2.1]
  obtain rfl | rfl := side.eq_or_eq_other s
  · rw [Function.update_self]
    rfl
  · rw [Function.update_of_ne side.other_ne]
    exact other

theorem PassedOn.deliver {count : Nat} (passed : n.PassedOn)
    (delivered : n.deliver side env count replies = some n') : n'.PassedOn := by
  rw [Network.deliver, map_eq_some_iff] at delivered
  obtain ⟨p, -, rfl⟩ := delivered
  apply PassedOn.transmit
  exact (congrArg (·.socketWriter.socket) (setProtocol_other n side p)).trans (passed side.other)

theorem PassedOn.switchSocket (passed : n.PassedOn) (side : Side) (env : Surroundings)
    (number : Nat) : (n.switchSocket side env number).PassedOn := by
  intro s
  rw [switchSocket_eq, switched]
  obtain rfl | rfl := side.eq_or_eq_other s
  · simp [setPipe, PersistentProtocol.switchSocket, ProtocolWriter.new]
  · simp [setPipe, transmit_eq, side.other_ne, passed side.other]

theorem PassedOn.step {n' : Network} {action : NetworkAction} (passed : n.PassedOn)
    (taken : n.step action = some n') : n'.PassedOn := by
  cases action with
  | act side env action =>
    rw [Network.step, map_eq_some_iff] at taken
    obtain ⟨p, -, rfl⟩ := taken
    apply PassedOn.transmit
    rw [setProtocol_other]
    exact passed side.other
  | receive side env count replies => exact passed.deliver taken
  | beginAcceptReconnection side env number count replies =>
    rw [Network.step] at taken
    split at taken
    · cases taken
    · exact (passed.switchSocket side env number).deliver taken
  | cut number keep =>
    cases taken
    exact passed

/-- No side is reconnecting, both are on a pipe that is not cut, and nothing is on
its way. -/
structure AtRest (n : Network) : Prop where
  connected : ∀ side, (n.protocol side).isReconnecting = false
  samePipe : n.pipe .near = n.pipe .far
  notCut : (n.pipes (n.pipe .near)).isCut = false
  nothingInFlight : ∀ side, (n.pipes (n.pipe side)).bytes side = []
  nothingBuffered : ∀ side, (n.protocol side).socketWriter.data = []

theorem AtRest.live (rest : n.AtRest) (side : Side) :
    n.pipe side.other = n.pipe side ∧ (n.pipes (n.pipe side)).isCut = false := by
  cases side with
  | near => exact ⟨rest.samePipe.symm, rest.notCut⟩
  | far => exact ⟨rest.samePipe, rest.samePipe ▸ rest.notCut⟩

/-- At rest, all that was sent has been received. -/
theorem Ok.atRest (ok : n.Ok fun _ => []) (passed : n.PassedOn) (rest : n.AtRest)
    (side : Side) : (n.protocol side).fired = (n.protocol side.other).sent := by
  obtain ⟨msgs, stream, link⟩ := (ok side).current
  have noStream : stream = [] := by
    rw [link.written (rest.live side), rest.nothingInFlight side]
    simp [ProtocolWriter.unsent, passed side.other, rest.nothingBuffered side.other]
  have noMsgs : msgs = [] := by
    have drains := link.drains
    rw [noStream, append_nil] at drains
    exact (drains.unique (.wait (ok side).agrees.ok.readerShort)).2.2
  have all := link.reaches (rest.live side) (rest.connected side.other)
  rw [noMsgs, (ok side.other).agrees.ok.count] at all
  have counted : (n.protocol side).incomingMsgId = (n.protocol side.other).sent.length :=
    all
  rw [(ok side).agrees.fired, counted, take_length]

/-- Every message is delivered exactly once and in order, over every run of two
endpoints. -/
theorem delivers_exactly_once_in_order (env : Side → Surroundings)
    (actions : List NetworkAction)
    (permitted : PermittedRun Network.step Permitted (Network.new env) actions)
    (reached : run Network.step (Network.new env) actions = some n) (side : Side) :
    (n.protocol side).fired <+: (n.protocol side.other).sent ∧
      (n.protocol side).outgoingUnackMsg.map (·.msg.id) =
        List.range' ((n.protocol side).outgoingAckId + 1)
          ((n.protocol side).outgoingMsgId - (n.protocol side).outgoingAckId) ∧
      (∀ u ∈ (n.protocol side).outgoingUnackMsg,
        u.msg.type = ProtocolMessageType.regular ∧
          (n.protocol side).sent[u.msg.id - 1]? = some u.msg.data) ∧
      (n.protocol side).outgoingMsgId = (n.protocol side).sent.length ∧
      (n.protocol side).outgoingAckId ≤ (n.protocol side.other).incomingMsgId ∧
      (n.AtRest → (n.protocol side).fired = (n.protocol side.other).sent) := by
  have keeps : ∀ (s : Network) action s', (s.Ok fun _ => []) ∧ s.PassedOn →
      s.Permitted action → s.step action = some s' → (s'.Ok fun _ => []) ∧ s'.PassedOn :=
    fun s action s' ⟨ok, passed⟩ allowed taken => ⟨ok.step allowed taken, passed.step taken⟩
  have start : ((Network.new env).Ok fun _ => []) ∧ (Network.new env).PassedOn :=
    ⟨Ok.new env, fun _ => rfl⟩
  obtain ⟨ok, passed⟩ := run_keeps keeps start permitted reached
  have agrees := (ok side).agrees
  refine ⟨?_, agrees.ok.unackIds, ?_, agrees.ok.count, agrees.acked,
    fun rest => ok.atRest passed rest side⟩
  · rw [agrees.fired]
    exact take_prefix _ _
  · intro u member
    obtain ⟨regular, genuine⟩ := agrees.ok.unackGenuine u member
    exact ⟨regular, (genuine.regular regular).2⟩

/-- A message is cut off on its way and sent again over a new pipe. -/
def resentRun : List NetworkAction :=
  let env : Surroundings := ⟨7, false⟩
  [.act .near env (.send [5, 6]), .act .near env .writeNowTimeout, .cut 0 fun _ => 3,
    .receive .far env 2 [], .beginAcceptReconnection .near env 1 0 [],
    .act .near env (.send [8]), .act .near env .endAcceptReconnection,
    .act .near env .writeNowTimeout, .beginAcceptReconnection .far env 1 20 [],
    .act .far env .endAcceptReconnection, .receive .far env 100 [[[9]]],
    .act .far env .writeNowTimeout, .receive .near env 100 []]

theorem delivers_exactly_once_in_order_sample :
    ∃ n, run Network.step (Network.new fun _ => ⟨0, false⟩) resentRun = some n ∧
      (n.protocol .far).fired = [[5, 6], [8]] ∧
      (n.protocol .near).fired <+: (n.protocol .far).sent := by
  have permitted : PermittedRun Network.step Permitted (Network.new fun _ => ⟨0, false⟩)
      resentRun := by
    decide +kernel
  have through : (run Network.step (Network.new fun _ => ⟨0, false⟩) resentRun).isSome := by
    decide +kernel
  obtain ⟨n, reached⟩ := isSome_iff_exists.mp through
  refine ⟨n, reached, ?_, ?_⟩
  · have fired : (run Network.step (Network.new fun _ => ⟨0, false⟩) resentRun).map
        (fun n => (n.protocol .far).fired) = some [[5, 6], [8]] := by
      decide +kernel
    rw [reached] at fired
    exact Option.some.inj fired
  · exact (delivers_exactly_once_in_order _ resentRun permitted reached .near).1

end Network

end CodeEditor.Ipc

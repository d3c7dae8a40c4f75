import CodeEditor.Ipc.Protocol

/-!
# The persistent protocol

`PersistentProtocol` of `ipc.net.ts`: regular messages are numbered and kept until
the other side has acknowledged them, and are sent again over a new socket after a
reconnection. Two endpoints talk over pairs of byte pipes that may be cut and
replaced.
-/

namespace CodeEditor.Ipc

/-! ## One endpoint -/

/-- `ProtocolConstants.AcknowledgeTime`. -/
def acknowledgeTime : Int := 2000

/-- `ProtocolConstants.TimeoutTime`. -/
def timeoutTime : Int := 20000

/-- What an endpoint asks its surroundings for: the clock and the load of the
machine. -/
structure Surroundings where
  now : Nat
  hasHighLoad : Bool
  deriving DecidableEq, Repr

/-- A message of `_outgoingUnackMsg`, with the time it was last written. -/
structure UnackMsg where
  msg : ProtocolMessage
  writtenTime : Nat
  deriving DecidableEq, Repr

/-- What an endpoint fires. -/
inductive ProtocolEvent where
  | message (data : Bytes)
  | controlMessage (data : Bytes)
  | didDispose
  | socketTimeout (unacknowledgedMsgCount : Nat)
      (timeSinceOldestUnacknowledgedMsg timeSinceLastReceivedSomeData : Int)
  deriving DecidableEq, Repr

/-- The payload fired on `onMessage`. -/
def ProtocolEvent.message? : ProtocolEvent → Option Bytes
  | .message data => some data
  | _ => none

/-- An endpoint. The two timeouts are `true` while their timer is armed;
`lastReadTime` is the one of the reader; `sent` are the payloads passed to `send`
and `events` what was fired, from the start. -/
structure PersistentProtocol where
  isReconnecting : Bool
  didSendDisconnect : Bool
  outgoingUnackMsg : List UnackMsg
  outgoingMsgId : Nat
  outgoingAckId : Nat
  outgoingAckTimeout : Bool
  incomingMsgId : Nat
  incomingAckId : Nat
  incomingMsgLastTime : Nat
  incomingAckTimeout : Bool
  lastReplayRequestTime : Nat
  lastSocketTimeoutTime : Nat
  lastReadTime : Nat
  socketWriter : ProtocolWriter
  socketReader : ProtocolReader
  sent : List Bytes
  events : List ProtocolEvent
  deriving DecidableEq, Repr

namespace PersistentProtocol

/-- The constructor, without an initial chunk. -/
def new (env : Surroundings) : PersistentProtocol where
  isReconnecting := false
  didSendDisconnect := false
  outgoingUnackMsg := []
  outgoingMsgId := 0
  outgoingAckId := 0
  outgoingAckTimeout := false
  incomingMsgId := 0
  incomingAckId := 0
  incomingMsgLastTime := 0
  incomingAckTimeout := false
  lastReplayRequestTime := 0
  lastSocketTimeoutTime := env.now
  lastReadTime := env.now
  socketWriter := .new
  socketReader := .new
  sent := []
  events := []

/-- The payloads fired on `onMessage`. -/
def fired (p : PersistentProtocol) : List Bytes :=
  p.events.filterMap ProtocolEvent.message?

def fire (p : PersistentProtocol) (event : ProtocolEvent) : PersistentProtocol :=
  { p with events := p.events ++ [event] }

/-- `this._socketWriter.write(msg)`. -/
def write (p : PersistentProtocol) (msg : ProtocolMessage) : PersistentProtocol :=
  { p with socketWriter := p.socketWriter.write msg }

def sendAck (p : PersistentProtocol) : PersistentProtocol :=
  if p.incomingMsgId ≤ p.incomingAckId then p
  else
    { p with incomingAckId := p.incomingMsgId }.write
      ⟨ProtocolMessageType.ack, 0, p.incomingMsgId, []⟩

def sendAckCheck (env : Surroundings) (p : PersistentProtocol) : PersistentProtocol :=
  if p.incomingMsgId ≤ p.incomingAckId then p
  else if p.incomingAckTimeout then p
  else if (env.now : Int) - p.incomingMsgLastTime ≥ acknowledgeTime then p.sendAck
  else { p with incomingAckTimeout := true }

/-- `_recvAckCheck()`. Without an unacknowledged message `peek()!` is `null` and
its use throws; there always is one. -/
def recvAckCheck (env : Surroundings) (p : PersistentProtocol) : PersistentProtocol :=
  if p.outgoingMsgId ≤ p.outgoingAckId then p
  else if p.outgoingAckTimeout then p
  else if p.isReconnecting then p
  else
    match p.outgoingUnackMsg with
    | [] => p
    | oldest :: _ =>
      let sinceOldest := (env.now : Int) - oldest.writtenTime
      let sinceData := (env.now : Int) - p.lastReadTime
      let sinceTimeout := (env.now : Int) - p.lastSocketTimeoutTime
      if sinceOldest ≥ timeoutTime ∧ sinceData ≥ timeoutTime ∧
          sinceTimeout ≥ timeoutTime ∧ env.hasHighLoad = false then
        { p with lastSocketTimeoutTime := env.now }.fire
          (.socketTimeout p.outgoingUnackMsg.length sinceOldest sinceData)
      else { p with outgoingAckTimeout := true }

/-- `_sendKeepAlive()`. -/
def sendKeepAlive (p : PersistentProtocol) : PersistentProtocol :=
  { p with incomingAckId := p.incomingMsgId }.write
    ⟨ProtocolMessageType.keepAlive, 0, p.incomingMsgId, []⟩

def send (env : Surroundings) (p : PersistentProtocol) (buffer : Bytes) :
    PersistentProtocol :=
  let myId := p.outgoingMsgId + 1
  let msg : ProtocolMessage :=
    ⟨ProtocolMessageType.regular, myId, p.incomingMsgId, buffer⟩
  let writtenTime := if p.isReconnecting then 0 else env.now
  let p : PersistentProtocol := { p with
    outgoingMsgId := myId
    incomingAckId := p.incomingMsgId
    outgoingUnackMsg := p.outgoingUnackMsg ++ [⟨msg, writtenTime⟩]
    sent := p.sent ++ [buffer] }
  if p.isReconnecting then p else (p.write msg).recvAckCheck env

def sendControl (p : PersistentProtocol) (buffer : Bytes) : PersistentProtocol :=
  p.write ⟨ProtocolMessageType.control, 0, 0, buffer⟩

def sendPause (p : PersistentProtocol) : PersistentProtocol :=
  p.write ⟨ProtocolMessageType.pause, 0, 0, []⟩

def sendResume (p : PersistentProtocol) : PersistentProtocol :=
  p.write ⟨ProtocolMessageType.resume, 0, 0, []⟩

def sendDisconnect (p : PersistentProtocol) : PersistentProtocol :=
  if p.didSendDisconnect then p
  else
    let p := { p with didSendDisconnect := true }.write
      ⟨ProtocolMessageType.disconnect, 0, 0, []⟩
    { p with socketWriter := p.socketWriter.flush }

def pauseSocketWriting (p : PersistentProtocol) : PersistentProtocol :=
  { p with socketWriter := p.socketWriter.pause }

def flush (p : PersistentProtocol) : PersistentProtocol :=
  { p with socketWriter := p.socketWriter.flush }

/-- Send again all unacknowledged messages. -/
def sendAgain (env : Surroundings) (p : PersistentProtocol) : PersistentProtocol :=
  let toSend := p.outgoingUnackMsg
  let p : PersistentProtocol := { p with
    socketWriter := toSend.foldl (fun w u => w.write u.msg) p.socketWriter
    outgoingUnackMsg := toSend.map fun u => { u with writtenTime := env.now } }
  p.recvAckCheck env

def endAcceptReconnection (env : Surroundings) (p : PersistentProtocol) :
    PersistentProtocol :=
  let p := { p with isReconnecting := false, incomingAckId := p.incomingMsgId }
  (p.write ⟨ProtocolMessageType.ack, 0, p.incomingAckId, []⟩).sendAgain env

/-- The acknowledgement that every message carries. -/
def receiveAck (p : PersistentProtocol) (ack : Nat) : PersistentProtocol :=
  if ack > p.outgoingAckId then
    { p with
      outgoingAckId := ack
      outgoingUnackMsg := p.outgoingUnackMsg.dropWhile fun u => u.msg.id ≤ ack }
  else p

/-- The case of a regular message in `_receiveMessage`. -/
def receiveRegular (env : Surroundings) (p : PersistentProtocol) (msg : ProtocolMessage) :
    PersistentProtocol :=
  if msg.id > p.incomingMsgId then
    if msg.id ≠ p.incomingMsgId + 1 then
      -- in case we missed some messages we ask the other party to resend them
      if (env.now : Int) - p.lastReplayRequestTime > 10000 then
        { p with lastReplayRequestTime := env.now }.write
          ⟨ProtocolMessageType.replayRequest, 0, 0, []⟩
      else p
    else
      ({ p with incomingMsgId := msg.id, incomingMsgLastTime := env.now }.sendAckCheck
        env).fire (.message msg.data)
  else p

def receiveMessage (env : Surroundings) (p : PersistentProtocol) (msg : ProtocolMessage) :
    PersistentProtocol :=
  let p := p.receiveAck msg.ack
  if msg.type = ProtocolMessageType.regular then p.receiveRegular env msg
  else if msg.type = ProtocolMessageType.control then p.fire (.controlMessage msg.data)
  else if msg.type = ProtocolMessageType.disconnect then p.fire .didDispose
  else if msg.type = ProtocolMessageType.replayRequest then p.sendAgain env
  else if msg.type = ProtocolMessageType.pause then
    { p with socketWriter := p.socketWriter.pause }
  else if msg.type = ProtocolMessageType.resume then
    { p with socketWriter := p.socketWriter.resume }
  else p

/-- The messages of a chunk are received one after the other; the listeners of
each may call `send`. -/
def receiveAll (env : Surroundings) :
    (replies : List (List Bytes)) → List ProtocolMessage → PersistentProtocol →
      PersistentProtocol
  | _, [], p => p
  | replies, msg :: msgs, p =>
    receiveAll env replies.tail msgs
      ((replies.headD []).foldl (send env) (p.receiveMessage env msg))

/-- The reader is given a chunk; `none` is an exception. -/
def acceptChunk (env : Surroundings) (replies : List (List Bytes))
    (p : PersistentProtocol) (data : Bytes) : Option PersistentProtocol :=
  (p.socketReader.acceptChunk keepsReading data).map fun (reader, msgs) =>
    receiveAll env replies msgs
      { p with
        socketReader := reader
        lastReadTime := if data.length = 0 then p.lastReadTime else env.now }

/-- `beginAcceptReconnection`, up to the initial chunk: a new reader and a new
writer. The old writer is disposed; what its last flush writes goes to the old
socket. -/
def switchSocket (env : Surroundings) (p : PersistentProtocol) : PersistentProtocol :=
  { p with
    isReconnecting := true
    lastReplayRequestTime := 0
    lastSocketTimeoutTime := env.now
    lastReadTime := env.now
    socketWriter := .new
    socketReader := .new }

end PersistentProtocol

/-- What an endpoint does on its own. -/
inductive LocalAction where
  | send (buffer : Bytes)
  | sendControl (buffer : Bytes)
  | sendKeepAlive
  | sendPause
  | sendResume
  | sendDisconnect
  | pauseSocketWriting
  | flush
  | writeNowTimeout
  | incomingAckTimeout
  | outgoingAckTimeout
  | endAcceptReconnection
  deriving DecidableEq, Repr

namespace PersistentProtocol

/-- One local action; `none` when a timer that is not armed is to fire. -/
def act (env : Surroundings) (p : PersistentProtocol) :
    LocalAction → Option PersistentProtocol
  | .send buffer => some (p.send env buffer)
  | .sendControl buffer => some (p.sendControl buffer)
  | .sendKeepAlive => some p.sendKeepAlive
  | .sendPause => some p.sendPause
  | .sendResume => some p.sendResume
  | .sendDisconnect => some p.sendDisconnect
  | .pauseSocketWriting => some p.pauseSocketWriting
  | .flush => some p.flush
  | .writeNowTimeout =>
    if p.socketWriter.writeNowTimeout then
      some { p with socketWriter := p.socketWriter.timeout }
    else none
  | .incomingAckTimeout =>
    if p.incomingAckTimeout then
      some ({ p with incomingAckTimeout := false }.sendAckCheck env)
    else none
  | .outgoingAckTimeout =>
    if p.outgoingAckTimeout then
      some ({ p with outgoingAckTimeout := false }.recvAckCheck env)
    else none
  | .endAcceptReconnection => some (p.endAcceptReconnection env)

end PersistentProtocol

/-! ## Two endpoints -/

inductive Side where
  | near
  | far
  deriving DecidableEq, Repr

def Side.other : Side → Side
  | .near => .far
  | .far => .near

/-- A pair of byte pipes: the bytes on their way to each side, and which sides have
used it. -/
structure Pipe where
  bytes : Side → Bytes
  isCut : Bool
  joined : Side → Bool

/-- Two endpoints, the pipe each of them is on, and all pipes. -/
structure Network where
  protocol : Side → PersistentProtocol
  pipe : Side → Nat
  pipes : Nat → Pipe

inductive NetworkAction where
  | act (side : Side) (env : Surroundings) (action : LocalAction)
  /-- The next `count` bytes of the pipe arrive. -/
  | receive (side : Side) (env : Surroundings) (count : Nat) (replies : List (List Bytes))
  /-- `beginAcceptReconnection` with a new pipe, of which `count` bytes were read
  before. -/
  | beginAcceptReconnection (side : Side) (env : Surroundings) (pipe count : Nat)
      (replies : List (List Bytes))
  /-- The pipe is cut, and only some bytes still arrive. -/
  | cut (pipe : Nat) (keep : Side → Nat)

namespace Network

/-- Both constructors, on the ends of the first pipe. -/
def new (env : Side → Surroundings) : Network where
  protocol side := .new (env side)
  pipe _ := 0
  pipes n := ⟨fun _ => [], false, fun _ => n = 0⟩

def setProtocol (n : Network) (side : Side) (p : PersistentProtocol) : Network :=
  { n with protocol := Function.update n.protocol side p }

def setPipe (n : Network) (number : Nat) (pipe : Pipe) : Network :=
  { n with pipes := Function.update n.pipes number pipe }

/-- What a writer has handed to its socket goes onto the pipe, unless that is
cut. -/
def transmit (n : Network) (side : Side) : Network :=
  let p := n.protocol side
  let pipe := n.pipes (n.pipe side)
  let n := n.setProtocol side { p with socketWriter := { p.socketWriter with socket := [] } }
  if pipe.isCut then n
  else
    n.setPipe (n.pipe side) { pipe with
      bytes := Function.update pipe.bytes side.other
        (pipe.bytes side.other ++ p.socketWriter.socket.flatten) }

/-- An endpoint takes the next bytes off its pipe. -/
def deliver (n : Network) (side : Side) (env : Surroundings) (count : Nat)
    (replies : List (List Bytes)) : Option Network :=
  let pipe := n.pipes (n.pipe side)
  ((n.protocol side).acceptChunk env replies ((pipe.bytes side).take count)).map fun p =>
    ((n.setProtocol side p).setPipe (n.pipe side) { pipe with
      bytes := Function.update pipe.bytes side ((pipe.bytes side).drop count) }).transmit
        side

/-- The endpoint leaves its pipe for another one, which it has not used before. -/
def switchSocket (n : Network) (side : Side) (env : Surroundings) (number : Nat) :
    Network :=
  let p := n.protocol side
  let n := (n.setProtocol side { p with
    socketWriter := p.socketWriter.dispose }).transmit side
  let n := n.setProtocol side ((n.protocol side).switchSocket env)
  let pipe := n.pipes number
  { n.setPipe number { pipe with joined := Function.update pipe.joined side true } with
    pipe := Function.update n.pipe side number }

def step (n : Network) : NetworkAction → Option Network
  | .act side env action =>
    ((n.protocol side).act env action).map fun p => (n.setProtocol side p).transmit side
  | .receive side env count replies => n.deliver side env count replies
  | .beginAcceptReconnection side env number count replies =>
    if (n.pipes number).joined side then none
    else (n.switchSocket side env number).deliver side env count replies
  | .cut number keep =>
    let pipe := n.pipes number
    some (n.setPipe number { pipe with
      bytes := fun side => (pipe.bytes side).take (keep side)
      isCut := true })

end Network

end CodeEditor.Ipc

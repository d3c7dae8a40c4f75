import CodeEditor.Foundation.Framing
import CodeEditor.Ipc.ChunkStream

/-!
# The message protocol

`ProtocolReader` and `ProtocolWriter` of `ipc.net.ts`. A message is a header of
thirteen bytes, type, id, acknowledged id and length, with the data behind it.
-/

namespace CodeEditor.Ipc

open Framing List Option

/-! ## Messages -/

/-- The type of a message is one byte, and the reader checks no more. -/
abbrev ProtocolMessageType := UInt8

namespace ProtocolMessageType

def none : ProtocolMessageType := 0
def regular : ProtocolMessageType := 1
def control : ProtocolMessageType := 2
def ack : ProtocolMessageType := 3
def disconnect : ProtocolMessageType := 5
def replayRequest : ProtocolMessageType := 6
def pause : ProtocolMessageType := 7
def resume : ProtocolMessageType := 8
def keepAlive : ProtocolMessageType := 9

end ProtocolMessageType

/-- `ProtocolConstants.HeaderLength`. -/
def headerLength : Nat := 13

structure ProtocolMessage where
  type : ProtocolMessageType
  id : Nat
  ack : Nat
  data : Bytes
  deriving DecidableEq, Repr

/-- The numbers of a message fit into its header. -/
structure ProtocolMessage.Valid (msg : ProtocolMessage) : Prop where
  id : msg.id < 2 ^ 32
  ack : msg.ack < 2 ^ 32
  data : msg.data.length < 2 ^ 32

/-- The header that the writer allocates and fills. -/
def header (type : ProtocolMessageType) (id ack length : Nat) : Bytes :=
  let header := List.replicate headerLength 0
  let header := writeUInt8 header type.toNat 0
  let header := writeUInt32BE header id 1
  let header := writeUInt32BE header ack 5
  writeUInt32BE header length 9

/-- The bytes of a message on the wire. -/
def ProtocolMessage.encode (msg : ProtocolMessage) : Bytes :=
  header msg.type msg.id msg.ack msg.data.length ++ msg.data

/-! ## The reader -/

/-- The `_state` of a reader. -/
structure ReaderState where
  readHead : Bool
  readLen : Nat
  messageType : ProtocolMessageType
  id : Nat
  ack : Nat
  deriving DecidableEq, Repr

namespace ReaderState

/-- The reader waits for a header. -/
def awaitHead : ReaderState :=
  { readHead := true, readLen := headerLength,
    messageType := ProtocolMessageType.none, id := 0, ack := 0 }

/-- What the reader does with the bytes it waited for. -/
def accept (state : ReaderState) (buff : Bytes) :
    ReaderState × Option ProtocolMessage :=
  if state.readHead then
    -- save new state => next time will read the body
    ({ readHead := false
       readLen := readUInt32BE buff 9
       messageType := UInt8.ofNat (readUInt8 buff 0)
       id := readUInt32BE buff 1
       ack := readUInt32BE buff 5 }, none)
  else
    -- save new state => next time will read the header
    (awaitHead, some ⟨state.messageType, state.id, state.ack, buff⟩)

/-- The header that has been read while its data is still awaited. -/
def heldHeader (state : ReaderState) : Bytes :=
  if state.readHead then []
  else header state.messageType state.id state.ack state.readLen

end ReaderState

structure ProtocolReader where
  isDisposed : Bool
  incomingData : ChunkStream
  state : ReaderState
  deriving DecidableEq, Repr

namespace ProtocolReader

def new : ProtocolReader := ⟨false, .new, .awaitHead⟩

/-- The loop of `acceptChunk`, with the messages it fires. `disposes` tells
whether the listeners of `onMessage` lead to the disposal of the reader. -/
def readLoop (disposes : ProtocolMessage → Bool) :
    (fuel : Nat) → ProtocolReader → Option (ProtocolReader × List ProtocolMessage)
  | 0, r => some (r, [])
  | fuel + 1, r =>
    if r.incomingData.byteLength ≥ r.state.readLen then do
      let (buff, incomingData) ← r.incomingData.read r.state.readLen
      match r.state.accept buff with
      | (state, none) => readLoop disposes fuel { r with incomingData, state }
      | (state, some msg) =>
        let r := { r with
          incomingData, state, isDisposed := r.isDisposed || disposes msg }
        if r.isDisposed then some (r, [msg])
        else do
          let (r, more) ← readLoop disposes fuel r
          some (r, msg :: more)
    else some (r, [])

/-- `acceptChunk(data)`; `none` is an exception. Every turn of the loop takes
bytes off or goes on to the next header, so the fuel is enough. -/
def acceptChunk (disposes : ProtocolMessage → Bool) (r : ProtocolReader)
    (data : Bytes) : Option (ProtocolReader × List ProtocolMessage) :=
  if data.length = 0 then some (r, [])
  else
    let r := { r with incomingData := r.incomingData.acceptChunk data }
    readLoop disposes (r.incomingData.byteLength + 2) r

/-- Chunks that arrive one after the other, and all messages fired. -/
def acceptChunks (disposes : ProtocolMessage → Bool) :
    ProtocolReader → List Bytes → Option (ProtocolReader × List ProtocolMessage)
  | r, [] => some (r, [])
  | r, chunk :: chunks => do
      let (r, fired) ← r.acceptChunk disposes chunk
      let (r, more) ← acceptChunks disposes r chunks
      some (r, fired ++ more)

end ProtocolReader

/-! ## The writer -/

structure ProtocolWriter where
  isDisposed : Bool
  isPaused : Bool
  data : List Bytes
  totalLength : Nat
  /-- The timeout of `_scheduleWriting` is pending. -/
  writeNowTimeout : Bool
  /-- The buffers handed to the socket so far. -/
  socket : List Bytes
  deriving DecidableEq, Repr

namespace ProtocolWriter

def new : ProtocolWriter := ⟨false, false, [], 0, false, []⟩

def writeNow (w : ProtocolWriter) : ProtocolWriter :=
  if w.totalLength = 0 then w
  else if w.isPaused then w
  else
    { w with data := [], totalLength := 0, socket := w.socket ++ [w.data.flatten] }

def flush (w : ProtocolWriter) : ProtocolWriter := w.writeNow

def pause (w : ProtocolWriter) : ProtocolWriter := { w with isPaused := true }

def scheduleWriting (w : ProtocolWriter) : ProtocolWriter :=
  { w with writeNowTimeout := true }

/-- The timeout of `_scheduleWriting` fires. -/
def timeout (w : ProtocolWriter) : ProtocolWriter :=
  if w.writeNowTimeout then { w with writeNowTimeout := false }.writeNow else w

def resume (w : ProtocolWriter) : ProtocolWriter :=
  { w with isPaused := false }.scheduleWriting

def dispose (w : ProtocolWriter) : ProtocolWriter :=
  { w.flush with isDisposed := true }

/-- `_bufferAdd`, with its answer whether nothing was buffered before. -/
def bufferAdd (w : ProtocolWriter) (head body : Bytes) : ProtocolWriter × Bool :=
  ({ w with
    data := w.data ++ [head, body]
    totalLength := w.totalLength + (head.length + body.length) },
    w.totalLength == 0)

def write (w : ProtocolWriter) (msg : ProtocolMessage) : ProtocolWriter :=
  if w.isDisposed then w
  else
    let (w, wasEmpty) :=
      w.bufferAdd (header msg.type msg.id msg.ack msg.data.length) msg.data
    if wasEmpty then w.scheduleWriting else w

end ProtocolWriter

/-- The calls of a writer whose socket is not paused. -/
inductive WriterCall
  | write (msg : ProtocolMessage)
  | flush
  | timeout
  deriving DecidableEq, Repr

namespace WriterCall

def step (w : ProtocolWriter) : WriterCall → ProtocolWriter
  | write msg => w.write msg
  | flush => w.flush
  | timeout => w.timeout

def message? : WriterCall → Option ProtocolMessage
  | write msg => some msg
  | flush | timeout => none

end WriterCall

/-- The bytes that reach the socket from a list of calls and a last flush. -/
def streamOf (calls : List WriterCall) : Bytes :=
  (calls.foldl WriterCall.step ProtocolWriter.new).flush.socket.flatten

/-- The messages among the calls. -/
def messagesOf (calls : List WriterCall) : List ProtocolMessage :=
  calls.filterMap WriterCall.message?

/-! ## Headers -/

theorem header_eq (type : ProtocolMessageType) (id ack length : Nat) : header type id ack length =
      type :: (bytesBE 4 id ++ (bytesBE 4 ack ++ bytesBE 4 length)) := by
  simp only [bytesBE_four]
  simp [header, headerLength, writeUInt8, writeUInt32BE, List.replicate]

@[simp] theorem length_header (type : ProtocolMessageType) (id ack length : Nat) :
    (header type id ack length).length = headerLength := by
  simp [header_eq, headerLength]

/-!
## Framing of the message protocol

The reader is an instance of a frame reader, so it fires the same messages
however the stream is cut. What it has not fired yet is what it holds.
-/

/-! ## The reader as a frame reader -/

/-- The machine behind `ProtocolReader`. -/
def frameReader : Reader UInt8 ReaderState ProtocolMessage where
  need state := if state.readHead then headerLength else state.readLen
  step state buff := ((state.accept buff).1,
    if state.readHead then headerLength else state.readLen,
    (state.accept buff).2.toList)

theorem frameReader_bounded : frameReader.Bounded := by
  intro state buff next count events _ taken
  simp only [frameReader, Prod.mk.injEq] at taken ⊢
  omega

/-- A header takes bytes off, and behind a body comes a header. -/
def readRank (state : ReaderState) : Nat := if state.readHead then 0 else 1

theorem frameReader_progresses : frameReader.Progresses readRank 1 := by
  intro state buff next count events _ taken
  obtain ⟨rfl, rfl, -⟩ := taken
  cases head : state.readHead with
  | true => simp [readRank, ReaderState.accept, head, headerLength]
  | false => simp [readRank, ReaderState.accept, head, ReaderState.awaitHead]

/-- A state that waits for a header is the fresh one. -/
def StateOk (state : ReaderState) : Prop :=
  state.readHead = true → state = .awaitHead

theorem StateOk.readLen (ok : StateOk state) : frameReader.need state = state.readLen := by
  simp only [frameReader]
  split
  · rename_i head
    rw [ok head]
    rfl
  · rfl

theorem stateOk_accept (state : ReaderState) (buff : Bytes) : StateOk (state.accept buff).1 := by
  unfold ReaderState.accept
  split
  · intro head
    exact absurd head (by simp)
  · intro _
    rfl

/-- A reader that listens and whose stream is in order. -/
structure ReaderOk (r : ProtocolReader) : Prop where
  active : r.isDisposed = false
  stream : r.incomingData.LengthOk
  state : StateOk r.state

theorem readerOk_new : ReaderOk .new :=
  ⟨rfl, ChunkStream.lengthOk_new, fun _ => rfl⟩

/-- No listener disposes the reader. -/
def keepsReading : ProtocolMessage → Bool := fun _ => false

/-- The loop of `acceptChunk` does what the machine does. -/
theorem ReaderOk.readLoop (ok : ReaderOk r) (fuel : Nat) : ∃ r', r.readLoop keepsReading fuel =
        some (r', (frameReader.drain fuel r.state r.incomingData.bytes).2.2) ∧
      ReaderOk r' ∧
      r'.state = (frameReader.drain fuel r.state r.incomingData.bytes).1 ∧
      r'.incomingData.bytes = (frameReader.drain fuel r.state r.incomingData.bytes).2.1 := by
  induction fuel generalizing r with
  | zero => exact ⟨r, rfl, ok, rfl, rfl⟩
  | succ fuel ih =>
    have length := ok.stream.length_bytes
    rw [ProtocolReader.readLoop, Reader.drain, ok.state.readLen]
    by_cases enough : r.state.readLen ≤ r.incomingData.byteLength
    · obtain ⟨stream, read, streamOk, left⟩ :=
        ChunkStream.readCore_eq ok.stream enough true
      rw [if_pos enough, if_pos (length ▸ enough)]
      have count : (if r.state.readHead = true then headerLength
          else r.state.readLen) = r.state.readLen := ok.state.readLen
      simp only [ChunkStream.read, read, bind_eq_bind, bind_some, frameReader, count]
      have nextOk := stateOk_accept r.state (r.incomingData.bytes.take r.state.readLen)
      cases accepted : r.state.accept (r.incomingData.bytes.take r.state.readLen) with
      | mk state msg =>
        rw [accepted] at nextOk
        have later : ReaderOk { r with incomingData := stream, state } :=
          ⟨ok.active, streamOk, nextOk⟩
        obtain ⟨r', looped, ok', stateEq, bytesEq⟩ := ih later
        rw [left] at looped stateEq bytesEq
        cases msg with
        | none =>
          refine ⟨r', ?_, ok', stateEq, bytesEq⟩
          exact looped
        | some msg =>
          refine ⟨r', ?_, ok', stateEq, bytesEq⟩
          simp only [keepsReading, ok.active, Bool.or_false,
            Bool.false_eq_true, if_false, toList_some]
          rw [show ProtocolReader.mk false stream state =
            { r with incomingData := stream, state } by rw [ok.active]]
          change ((ProtocolReader.readLoop keepsReading fuel _).bind _) = _
          rw [looped]
          rfl
    · rw [if_neg enough, if_neg (length ▸ enough)]
      exact ⟨r, rfl, ok, rfl, rfl⟩

/-- One chunk drains the bytes held together with its own. -/
theorem ReaderOk.acceptChunk (ok : ReaderOk r) {data : Bytes} (nonempty : data ≠ []) :
    ∃ r' fired, r.acceptChunk keepsReading data = some (r', fired) ∧ ReaderOk r' ∧
      frameReader.Drains r.state (r.incomingData.bytes ++ data) r'.state
        r'.incomingData.bytes fired := by
  have grown : ReaderOk { r with incomingData := r.incomingData.acceptChunk data } :=
    ⟨ok.active, ok.stream.acceptChunk data, ok.state⟩
  have length := grown.stream.length_bytes
  obtain ⟨r', looped, ok', stateEq, bytesEq⟩ := grown.readLoop
    ((r.incomingData.acceptChunk data).byteLength + 2)
  have drains := Reader.drains_drain frameReader_bounded frameReader_progresses
    (show 1 * (r.incomingData.acceptChunk data).bytes.length + readRank r.state <
      (r.incomingData.acceptChunk data).byteLength + 2 by
        have rank : readRank r.state ≤ 1 := by
          unfold readRank
          split <;> omega
        simp only at length
        omega)
  have accepted := looped
  rw [show ProtocolReader.readLoop keepsReading _ _ = r.acceptChunk keepsReading data by
    rw [ProtocolReader.acceptChunk,
      if_neg (fun zero => nonempty (eq_nil_of_length_eq_zero zero))]] at accepted
  refine ⟨r', _, accepted, ok', ?_⟩
  · rw [stateEq, bytesEq, ← ChunkStream.bytes_acceptChunk]
    exact drains

/-- Chunks feed the machine. -/
theorem ReaderOk.acceptChunks (ok : ReaderOk r)
    {chunks : List Bytes} (nonempty : ∀ chunk ∈ chunks, chunk ≠ []) :
    ∃ r' fired, r.acceptChunks keepsReading chunks = some (r', fired) ∧ ReaderOk r' ∧
      frameReader.Feeds r.state r.incomingData.bytes chunks r'.state
        r'.incomingData.bytes fired := by
  induction chunks generalizing r with
  | nil => exact ⟨r, [], rfl, ok, .nil⟩
  | cons chunk chunks ih =>
    obtain ⟨r₁, fired, accepted, ok₁, drains⟩ :=
      ok.acceptChunk (nonempty chunk (by simp))
    obtain ⟨r₂, more, later, ok₂, feeds⟩ :=
      ih ok₁ fun c member => nonempty c (by simp [member])
    refine ⟨r₂, fired ++ more, ?_, ok₂, .cons drains feeds⟩
    simp [ProtocolReader.acceptChunks, accepted, later]

/-! ## Messages on the wire -/

/-- The header is read back. -/
theorem accept_header (type : ProtocolMessageType) {id ack length : Nat}
    (idBound : id < 2 ^ 32) (ackBound : ack < 2 ^ 32) (lengthBound : length < 2 ^ 32) :
    ReaderState.awaitHead.accept (header type id ack length) =
      ({ readHead := false, readLen := length, messageType := type, id, ack }, none) := by
  have readId : readUInt32BE (header type id ack length) 1 = id := by
    rw [header_eq]
    have read := @readUInt32BE_append [type] (bytesBE 4 id)
      (bytesBE 4 ack ++ bytesBE 4 length) (by simp)
    rw [natBE_bytesBE idBound] at read
    simpa using read
  have readAck : readUInt32BE (header type id ack length) 5 = ack := by
    rw [header_eq]
    have read := @readUInt32BE_append (type :: bytesBE 4 id) (bytesBE 4 ack)
      (bytesBE 4 length) (by simp)
    rw [natBE_bytesBE ackBound] at read
    simpa using read
  have readLength : readUInt32BE (header type id ack length) 9 = length := by
    rw [header_eq]
    have read := @readUInt32BE_append (type :: (bytesBE 4 id ++ bytesBE 4 ack))
      (bytesBE 4 length) [] (by simp)
    rw [natBE_bytesBE lengthBound] at read
    simpa using read
  have readType : UInt8.ofNat (readUInt8 (header type id ack length) 0) = type := by
    rw [header_eq]
    simp [readUInt8]
  simp [ReaderState.accept, ReaderState.awaitHead, readId, readAck, readLength, readType]

/-- The reader takes a whole message off the front of its input. -/
theorem drains_encode {msg : ProtocolMessage} (valid : msg.Valid) {rest left : Bytes}
    (later : frameReader.Drains .awaitHead rest state left fired) :
    frameReader.Drains .awaitHead (msg.encode ++ rest) state left (msg :: fired) := by
  have accepted := accept_header msg.type valid.id valid.ack valid.data
  have body : frameReader.Drains
      { readHead := false, readLen := msg.data.length, messageType := msg.type,
        id := msg.id, ack := msg.ack } (msg.data ++ rest) state left
      ([msg] ++ fired) := by
    refine Reader.Drains.frame ?_ ?_ later
    · simp [frameReader]
    · simp [frameReader, ReaderState.accept]
  have head : frameReader.Drains .awaitHead
      (header msg.type msg.id msg.ack msg.data.length ++ (msg.data ++ rest)) state left
      ([] ++ ([msg] ++ fired)) := by
    refine Reader.Drains.frame ?_ ?_ body
    · rw [length_header]
      rfl
    · simp only [frameReader, accepted, length_header]
      rfl
  rw [ProtocolMessage.encode, append_assoc]
  exact head

theorem drains_encode_all {msgs : List ProtocolMessage} (valid : ∀ msg ∈ msgs, msg.Valid) :
    frameReader.Drains .awaitHead (msgs.flatMap ProtocolMessage.encode) .awaitHead []
      msgs := by
  induction msgs with
  | nil => exact .wait (by decide)
  | cons msg msgs ih =>
    exact drains_encode (valid msg (by simp)) (ih fun m member => valid m (by simp [member]))

/-- Thirteen bytes are the header that is read from them. -/
theorem heldHeader_accept {buff : Bytes} (thirteen : buff.length = headerLength) :
    (ReaderState.awaitHead.accept buff).1.heldHeader = buff := by
  obtain ⟨type, ids, acks, lengths, rfl, four, four', four''⟩ :
      ∃ type ids acks lengths, buff = type :: (ids ++ (acks ++ lengths)) ∧
        ids.length = 4 ∧ acks.length = 4 ∧ lengths.length = 4 := by
    match buff, thirteen with
    | [t, a, b, c, d, e, f, g, h, i, j, k, l], _ =>
      exact ⟨t, [a, b, c, d], [e, f, g, h], [i, j, k, l], rfl, rfl, rfl, rfl⟩
  have readId := @readUInt32BE_append [type] ids (acks ++ lengths) four
  have readAck := @readUInt32BE_append (type :: ids) acks lengths four'
  have readLength := @readUInt32BE_append (type :: (ids ++ acks)) lengths [] four''
  simp only [length_cons, length_append, four, four', length_nil,
    cons_append, nil_append, append_assoc, append_nil,
    Nat.zero_add, Nat.reduceAdd] at readId readAck readLength
  have readType : UInt8.ofNat (readUInt8 (type :: (ids ++ (acks ++ lengths))) 0) = type := by
    simp [readUInt8]
  have sameId := bytesBE_natBE ids
  have sameAck := bytesBE_natBE acks
  have sameLength := bytesBE_natBE lengths
  rw [four] at sameId
  rw [four'] at sameAck
  rw [four''] at sameLength
  simp only [ReaderState.accept, ReaderState.awaitHead, if_true, ReaderState.heldHeader,
    Bool.false_eq_true, if_false, header_eq, readId, readAck, readLength, readType,
    sameId, sameAck, sameLength]

/-- What has not been fired is what is held: the header in the state and the
bytes of the stream. -/
theorem drains_held {state final : ReaderState} {input rest : Bytes}
    {fired : List ProtocolMessage} (ok : StateOk state)
    (drains : frameReader.Drains state input final rest fired) :
    state.heldHeader ++ input =
      fired.flatMap ProtocolMessage.encode ++ final.heldHeader ++ rest := by
  induction drains with
  | wait short => simp
  | @step state next final input rest count events more enough taken later
      ih =>
      have size := length_take_of_le enough
      cases head : state.readHead with
      | true =>
        obtain rfl := ok head
        obtain ⟨rfl, rfl, rfl⟩ : (ReaderState.awaitHead.accept (input.take headerLength)).1 = next ∧
              headerLength = count ∧ [] = events := by
          simpa [frameReader, ReaderState.accept, ReaderState.awaitHead] using taken
        have rest := ih (stateOk_accept _ _)
        rw [heldHeader_accept (show (input.take headerLength).length = headerLength
          from size), take_append_drop] at rest
        exact rest
      | false =>
        have needed : frameReader.need state = state.readLen := by
          simp [frameReader, head]
        rw [needed] at taken size
        obtain ⟨rfl, rfl, rfl⟩ : ReaderState.awaitHead = next ∧ state.readLen = count ∧
            [⟨state.messageType, state.id, state.ack, input.take state.readLen⟩] = events := by
          simpa [frameReader, ReaderState.accept, head] using taken
        have rest := ih fun _ => rfl
        have held : state.heldHeader =
            header state.messageType state.id state.ack state.readLen := by
          simp [ReaderState.heldHeader, head]
        have nothing : ReaderState.awaitHead.heldHeader = [] := rfl
        rw [nothing, nil_append] at rest
        rw [singleton_append, flatMap_cons, ProtocolMessage.encode, size,
          ← held, append_assoc, append_assoc, append_assoc,
          ← append_assoc (more.flatMap _), ← rest, take_append_drop]

/-! ## The writer -/

/-- What a writer that is neither paused nor disposed has taken on. -/
structure WriterOk (w : ProtocolWriter) (msgs : List ProtocolMessage) : Prop where
  active : w.isDisposed = false
  running : w.isPaused = false
  total : w.totalLength = w.data.flatten.length
  content : w.socket.flatten ++ w.data.flatten =
    msgs.flatMap ProtocolMessage.encode

variable {w : ProtocolWriter} {msgs : List ProtocolMessage}

theorem writerOk_new : WriterOk .new [] := ⟨rfl, rfl, rfl, rfl⟩

section

variable (ok : WriterOk w msgs)

include ok

theorem WriterOk.writeNow : WriterOk w.writeNow msgs := by
  unfold ProtocolWriter.writeNow
  rw [if_neg (by rw [ok.running]; simp : ¬w.isPaused = true)]
  split
  · exact ok
  · exact ⟨ok.active, ok.running, rfl, by simpa using ok.content⟩

theorem WriterOk.write (msg : ProtocolMessage) : WriterOk (w.write msg) (msgs ++ [msg]) := by
  have content := congrArg (· ++ msg.encode) ok.content
  have added : WriterOk (w.bufferAdd (header msg.type msg.id msg.ack msg.data.length) msg.data).1
      (msgs ++ [msg]) := by
    refine ⟨ok.active, ok.running, ?_, ?_⟩
    · simp [ProtocolWriter.bufferAdd, ok.total]
    · simpa [ProtocolWriter.bufferAdd, ProtocolMessage.encode] using content
  unfold ProtocolWriter.write
  rw [if_neg (by rw [ok.active]; simp : ¬w.isDisposed = true)]
  simp only
  split
  · exact ⟨added.active, added.running, added.total, added.content⟩
  · exact added

theorem WriterOk.step (call : WriterCall) :
    WriterOk (call.step w) (msgs ++ call.message?.toList) := by
  cases call with
  | write msg => exact ok.write msg
  | flush =>
    rw [WriterCall.message?, toList_none, append_nil]
    exact ok.writeNow
  | timeout =>
    simp only [WriterCall.step, ProtocolWriter.timeout, WriterCall.message?,
      toList_none, append_nil]
    split
    · have cleared : WriterOk { w with writeNowTimeout := false } msgs :=
        ⟨ok.active, ok.running, ok.total, ok.content⟩
      exact cleared.writeNow
    · exact ok

theorem WriterOk.run (calls : List WriterCall) :
    WriterOk (calls.foldl WriterCall.step w) (msgs ++ messagesOf calls) := by
  induction calls generalizing w msgs with
  | nil => simpa [messagesOf] using ok
  | cons call calls ih =>
    have later := ih (ok.step call)
    cases h : call.message? <;> simpa [messagesOf, h] using later

/-- A flush leaves nothing behind. -/
theorem WriterOk.flush_socket : w.flush.socket.flatten = msgs.flatMap ProtocolMessage.encode := by
  have content := ok.content
  unfold ProtocolWriter.flush ProtocolWriter.writeNow
  rw [if_neg (by rw [ok.running]; simp : ¬w.isPaused = true)]
  split
  · rename_i zero
    have empty : w.data.flatten = [] :=
      eq_nil_of_length_eq_zero (ok.total ▸ zero)
    rw [empty, append_nil] at content
    exact content
  · simpa using content

end

/-- The stream of a list of calls is the encoding of their messages. -/
theorem streamOf_eq (calls : List WriterCall) :
    streamOf calls = (messagesOf calls).flatMap ProtocolMessage.encode := by
  have ok := writerOk_new.run calls
  exact ok.flush_socket

/-! ## The round trip -/

/-- However the writer is flushed and however its stream is cut, the reader
fires the messages written. At every point the bytes that have arrived are
those of the messages fired, of the header held and of the stream. -/
theorem framing_round_trip {calls : List WriterCall} {chunks : List Bytes}
    (valid : ∀ msg ∈ messagesOf calls, msg.Valid)
    (nonempty : ∀ chunk ∈ chunks, chunk ≠ [])
    (cut : chunks.flatten = streamOf calls) :
    (∃ r, ProtocolReader.new.acceptChunks keepsReading chunks =
      some (r, messagesOf calls)) ∧
    ∀ arrived coming, chunks = arrived ++ coming →
      ∃ r fired, ProtocolReader.new.acceptChunks keepsReading arrived =
          some (r, fired) ∧
        arrived.flatten = fired.flatMap ProtocolMessage.encode ++ r.state.heldHeader ++
          r.incomingData.chunks.flatten ∧
        r.incomingData.byteLength = (r.incomingData.chunks.map List.length).sum := by
  constructor
  · obtain ⟨r, fired, accepted, -, feeds⟩ := readerOk_new.acceptChunks nonempty
    have drains := feeds.drains frameReader_bounded (by decide)
    have all := drains_encode_all valid
    rw [← streamOf_eq, ← cut] at all
    obtain ⟨-, -, rfl⟩ := drains.unique all
    exact ⟨r, accepted⟩
  · rintro arrived coming rfl
    obtain ⟨r, fired, accepted, ok, feeds⟩ := readerOk_new.acceptChunks
      fun chunk member => nonempty chunk (mem_append_left _ member)
    have drains := feeds.drains frameReader_bounded (by decide)
    exact ⟨r, fired, accepted, drains_held (fun _ => rfl) drains, ok.stream⟩

/-- Two messages, the first without data, in chunks that cut both headers. -/
theorem framing_round_trip_sample :
    (∃ r, ProtocolReader.new.acceptChunks keepsReading
      [[1, 0, 0, 0], [1, 0, 0, 0, 2, 0, 0, 0, 0, 9, 0],
        [0, 0, 0, 0, 0, 0, 0, 0, 0, 0, 1, 42]] =
      some (r, [⟨1, 1, 2, []⟩, ⟨9, 0, 0, [42]⟩])) :=
  (@framing_round_trip [.write ⟨1, 1, 2, []⟩, .flush, .write ⟨9, 0, 0, [42]⟩, .timeout]
    [[1, 0, 0, 0], [1, 0, 0, 0, 2, 0, 0, 0, 0, 9, 0],
      [0, 0, 0, 0, 0, 0, 0, 0, 0, 0, 1, 42]]
    (by
      intro msg member
      simp only [messagesOf, filterMap_cons, WriterCall.message?,
        filterMap_nil, mem_cons, not_mem_nil, or_false] at member
      rcases member with rfl | rfl <;> exact ⟨by decide, by decide, by decide⟩)
    (by decide) (by decide)).1

end CodeEditor.Ipc

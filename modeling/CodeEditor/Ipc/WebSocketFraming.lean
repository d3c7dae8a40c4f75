import CodeEditor.Foundation.Framing
import CodeEditor.Ipc.WebSocket

/-!
# Framing of WebSocket streams

A stream of frames as the protocol allows it, and what the socket makes of it
however it is cut.
-/

namespace CodeEditor.Ipc

open Framing List Option Nat

/-! ## Frames -/

inductive Opcode
  | continuation
  | text
  | binary
  | close
  | ping
  | pong
  deriving DecidableEq, Repr

def Opcode.code : Opcode → Nat
  | continuation => 0x0
  | text => 0x1
  | binary => 0x2
  | close => 0x8
  | ping => 0x9
  | pong => 0xA

def Opcode.isControl : Opcode → Bool
  | continuation | text | binary => false
  | close | ping | pong => true

/-- The socket tells the kinds of frames apart by their codes. -/
theorem Opcode.dispatch (opcode : Opcode) (data pong : List FlowEvent) :
    (if opcode.code ≤ 0x02 then data else if opcode.code = 0x09 then pong else []) =
      if opcode.isControl then if opcode = .ping then pong else [] else data := by
  cases opcode <;> simp [Opcode.code, Opcode.isControl]

/-- A frame on the wire; a masked one carries its key of four bytes. -/
structure Frame where
  fin : Bool
  rsv1 : Bool
  opcode : Opcode
  key : Option Bytes
  payload : Bytes
  deriving DecidableEq, Repr

namespace Frame

def firstByte (f : Frame) : Nat :=
  (if f.fin then 0b10000000 else 0) + (if f.rsv1 then 0b01000000 else 0) +
    f.opcode.code

/-- The length in seven bits, or the mark of a longer encoding. -/
def shortLength (f : Frame) : Nat :=
  if f.payload.length < 126 then f.payload.length
  else if f.payload.length < 2 ^ 16 then 126 else 127

def secondByte (f : Frame) : Nat :=
  (if f.key.isSome then 0b10000000 else 0) + f.shortLength

/-- The length behind the two bytes, in its shortest encoding. -/
def longLength (f : Frame) : Bytes :=
  if f.payload.length < 126 then []
  else if f.payload.length < 2 ^ 16 then bytesBE 2 f.payload.length
  else bytesBE 8 f.payload.length

def header (f : Frame) : Bytes :=
  UInt8.ofNat f.firstByte :: UInt8.ofNat f.secondByte ::
    (f.longLength ++ f.key.getD [])

/-- The payload as it is sent. -/
def body (f : Frame) : Bytes :=
  match f.key with
  | none => f.payload
  | some key => maskWith key f.payload

def encode (f : Frame) : Bytes := f.header ++ f.body

/-- What holds for every single frame. -/
structure Valid (f : Frame) : Prop where
  key : ∀ key, f.key = some key → key.length = 4
  length : f.payload.length < 2 ^ 32

end Frame

/-- The frames follow each other as the protocol allows: control frames are
whole, short and uncompressed and may stand anywhere; a message starts with a
text or binary frame and goes on in continuation frames, which carry no RSV1 bit
of their own, up to the first final one. `inside` tells that a message is
open. -/
def Legal : (inside : Bool) → List Frame → Prop
  | _, [] => True
  | inside, f :: frames =>
    f.Valid ∧
      if f.opcode.isControl then
        f.fin = true ∧ f.rsv1 = false ∧ f.payload.length < 126 ∧ Legal inside frames
      else
        (f.opcode = .continuation ↔ inside = true) ∧
          (inside = true → f.rsv1 = false) ∧ Legal (!f.fin) frames

/-- The RSV1 bit of the first frame of the message that is open behind a
frame, if one is. -/
def openMessage (current : Option Bool) (f : Frame) : Option Bool :=
  if f.opcode.isControl then current
  else if f.fin then none
  else some (current.getD f.rsv1)

/-- What the flow manager has to be handed: the payloads of the data frames,
each with its FIN bit and the RSV1 bit of the first frame of its message, and a
pong for every ping. -/
def expectedEvents : (current : Option Bool) → List Frame → List FlowEvent
  | _, [] => []
  | current, f :: frames =>
    (if f.opcode.isControl then
      if f.opcode = .ping then [FlowEvent.writeMessage f.payload false 0x0A] else []
    else [FlowEvent.acceptFrame f.payload (current.getD f.rsv1) f.fin]) ++
      expectedEvents (openMessage current f) frames

/-! ## The socket as a frame reader -/

/-- The machine behind `_acceptChunk`. -/
def socketReader : Reader UInt8 FrameState FlowEvent where
  need s := match s.state with
    | .peekHeader => minHeaderByteSize
    | .readHeader => max minHeaderByteSize s.readLen
    | .readBody => s.readLen
  step s buff := match s.state with
    | .peekHeader => (s.acceptPeek buff, 0, [])
    | .readHeader => (s.acceptHeader buff, max minHeaderByteSize s.readLen, [])
    | .readBody => ((s.acceptBody buff).1, s.readLen, (s.acceptBody buff).2)

theorem socketReader_bounded : socketReader.Bounded := by
  intro s buff next count events _ taken
  cases state : s.state <;> simp only [socketReader, state, Prod.mk.injEq] at taken ⊢ <;> omega

/-- A body is followed by a peek, and a peek by a header, which takes bytes
off. -/
def frameRank (s : FrameState) : Nat :=
  match s.state with
  | .peekHeader => 1
  | .readHeader => 0
  | .readBody => 2

theorem frameRank_le (s : FrameState) : frameRank s ≤ 2 := by
  unfold frameRank
  split <;> omega

theorem socketReader_progresses : socketReader.Progresses frameRank 2 := by
  intro s buff next count events _ taken
  cases state : s.state <;> simp only [socketReader, state, Prod.mk.injEq] at taken <;>
    obtain ⟨rfl, rfl, -⟩ := taken
  · simp [frameRank, state, FrameState.acceptPeek]
  · simp only [frameRank, state, FrameState.acceptHeader, minHeaderByteSize]
    omega
  · simp [frameRank, state, FrameState.acceptBody]

/-- The lengths that the socket waits for. -/
def FrameStateOk (s : FrameState) : Prop :=
  match s.state with
  | .peekHeader => s.readLen = minHeaderByteSize
  | .readHeader => minHeaderByteSize ≤ s.readLen
  | .readBody => True

theorem FrameStateOk.need (ok : FrameStateOk s) : socketReader.need s = s.readLen := by
  unfold FrameStateOk at ok
  cases state : s.state <;> simp only [socketReader, state] at ok ⊢
  · exact ok.symm
  · exact max_eq_right ok

theorem frameStateOk_acceptPeek (s : FrameState) (buff : Bytes) :
    FrameStateOk (s.acceptPeek buff) := by
  simp only [FrameStateOk, FrameState.acceptPeek]
  omega

/-- A socket whose stream is in order. -/
structure SocketOk (r : WebSocketReader) : Prop where
  stream : r.incomingData.LengthOk
  state : FrameStateOk r.state

theorem socketOk_new : SocketOk .new := ⟨ChunkStream.lengthOk_new, rfl⟩

/-- The loop of `_acceptChunk` does what the machine does. -/
theorem SocketOk.acceptLoop (ok : SocketOk r) (fuel : Nat) : ∃ r', r.acceptLoop fuel =
        some (r', (socketReader.drain fuel r.state r.incomingData.bytes).2.2) ∧
      SocketOk r' ∧
      r'.state = (socketReader.drain fuel r.state r.incomingData.bytes).1 ∧
      r'.incomingData.bytes = (socketReader.drain fuel r.state r.incomingData.bytes).2.1 := by
  induction fuel generalizing r with
  | zero => exact ⟨r, rfl, ok, rfl, rfl⟩
  | succ fuel ih =>
    have length := ok.stream.length_bytes
    have need := ok.state.need
    rw [WebSocketReader.acceptLoop, Reader.drain, need]
    by_cases enough : r.state.readLen ≤ r.incomingData.byteLength
    · obtain ⟨stream, read, streamOk, left⟩ :=
        ChunkStream.readCore_eq ok.stream enough true
      obtain ⟨same, peeked, -, -⟩ := ChunkStream.readCore_eq ok.stream enough false
      rw [if_pos enough, if_pos (length ▸ enough)]
      cases state : r.state.state with
      | peekHeader =>
        obtain ⟨r', looped, ok', stateEq, bytesEq⟩ := @ih
          { r with state :=
            r.state.acceptPeek (r.incomingData.bytes.take r.state.readLen) }
          ⟨ok.stream, frameStateOk_acceptPeek _ _⟩
        refine ⟨r', ?_, ok', ?_, ?_⟩
        · simpa [ChunkStream.peek, peeked, socketReader, state] using looped
        · simpa [socketReader, state] using stateEq
        · simpa [socketReader, state] using bytesEq
      | readHeader =>
        obtain ⟨r', looped, ok', stateEq, bytesEq⟩ := @ih
          ⟨stream, r.state.acceptHeader (r.incomingData.bytes.take r.state.readLen)⟩
          ⟨streamOk, trivial⟩
        simp only [socketReader, state] at need
        simp only [left] at looped stateEq bytesEq
        refine ⟨r', ?_, ok', ?_, ?_⟩
        · simpa [ChunkStream.read, read, socketReader, state, need] using looped
        · simpa [socketReader, state, need] using stateEq
        · simpa [socketReader, state, need] using bytesEq
      | readBody =>
        obtain ⟨r', looped, ok', stateEq, bytesEq⟩ := @ih ⟨stream, (r.state.acceptBody
            (r.incomingData.bytes.take r.state.readLen)).1⟩ ⟨streamOk, rfl⟩
        simp only [left] at looped stateEq bytesEq
        refine ⟨r', ?_, ok', ?_, ?_⟩
        · simp [ChunkStream.read, read, socketReader, state, looped]
        · simpa [socketReader, state] using stateEq
        · simpa [socketReader, state] using bytesEq
    · rw [if_neg enough, if_neg (length ▸ enough)]
      exact ⟨r, rfl, ok, rfl, rfl⟩

/-- One chunk drains the bytes held together with its own. -/
theorem SocketOk.acceptChunk (ok : SocketOk r) {data : Bytes} (nonempty : data ≠ []) :
    ∃ r' events, r.acceptChunk data = some (r', events) ∧ SocketOk r' ∧
      socketReader.Drains r.state (r.incomingData.bytes ++ data) r'.state
        r'.incomingData.bytes events := by
  have grown : SocketOk { r with incomingData := r.incomingData.acceptChunk data } :=
    ⟨ok.stream.acceptChunk data, ok.state⟩
  have length := grown.stream.length_bytes
  obtain ⟨r', looped, ok', stateEq, bytesEq⟩ := grown.acceptLoop
    (2 * (r.incomingData.acceptChunk data).byteLength + 3)
  have drains := Reader.drains_drain socketReader_bounded socketReader_progresses
    (show 2 * (r.incomingData.acceptChunk data).bytes.length + frameRank r.state <
      2 * (r.incomingData.acceptChunk data).byteLength + 3 by
        have rank := frameRank_le r.state
        simp only at length
        omega)
  have accepted := looped
  rw [show WebSocketReader.acceptLoop _ _ = r.acceptChunk data by
    rw [WebSocketReader.acceptChunk,
      if_neg (fun zero => nonempty (eq_nil_of_length_eq_zero zero))]] at accepted
  refine ⟨r', _, accepted, ok', ?_⟩
  rw [stateEq, bytesEq, ← ChunkStream.bytes_acceptChunk]
  exact drains

/-- Chunks feed the machine. -/
theorem SocketOk.acceptChunks (ok : SocketOk r)
    {chunks : List Bytes} (nonempty : ∀ chunk ∈ chunks, chunk ≠ []) :
    ∃ r' events, r.acceptChunks chunks = some (r', events) ∧ SocketOk r' ∧
      socketReader.Feeds r.state r.incomingData.bytes chunks r'.state
        r'.incomingData.bytes events := by
  induction chunks generalizing r with
  | nil => exact ⟨r, [], rfl, ok, .nil⟩
  | cons chunk chunks ih =>
    obtain ⟨r₁, events, accepted, ok₁, drains⟩ :=
      ok.acceptChunk (nonempty chunk (by simp))
    obtain ⟨r₂, more, later, ok₂, feeds⟩ :=
      ih ok₁ fun c member => nonempty c (by simp [member])
    refine ⟨r₂, events ++ more, ?_, ok₂, .cons drains feeds⟩
    simp [WebSocketReader.acceptChunks, accepted, later]

/-! ## One frame -/

namespace Frame

theorem bits_firstByte (f : Frame) : f.firstByte < 256 ∧
      (f.firstByte &&& 0b10000000) >>> 7 = (if f.fin then 1 else 0) ∧
      (f.firstByte &&& 0b01000000) >>> 6 = (if f.rsv1 then 1 else 0) ∧
      f.firstByte &&& 0b00001111 = f.opcode.code := by
  unfold firstByte
  cases f.fin <;> cases f.rsv1 <;> cases f.opcode <;> decide

theorem shortLength_lt (f : Frame) : f.shortLength < 128 := by
  unfold shortLength
  split
  · omega
  · split <;> omega

theorem bits_secondByte (f : Frame) : f.secondByte < 256 ∧
      (f.secondByte &&& 0b10000000) >>> 7 = (if f.key.isSome then 1 else 0) ∧
      f.secondByte &&& 0b01111111 = f.shortLength := by
  have all : ∀ n < 128, ∀ masked : Bool, (if masked then 0b10000000 else 0) + n < 256 ∧
      (((if masked then 0b10000000 else 0) + n) &&& 0b10000000) >>> 7 = (if masked then 1 else 0) ∧
      ((if masked then 0b10000000 else 0) + n) &&& 0b01111111 = n := by
    decide
  exact all f.shortLength f.shortLength_lt f.key.isSome

@[simp] theorem length_body (f : Frame) : f.body.length = f.payload.length := by
  unfold body
  split <;> simp

theorem readUInt8_firstByte (f : Frame) (rest : Bytes) :
    readUInt8 (UInt8.ofNat f.firstByte :: rest) 0 = f.firstByte := by
  exact mod_eq_of_lt f.bits_firstByte.1

theorem readUInt8_secondByte (f : Frame) (first : UInt8) (rest : Bytes) :
    readUInt8 (first :: UInt8.ofNat f.secondByte :: rest) 1 = f.secondByte := by
  exact mod_eq_of_lt f.bits_secondByte.1

/-- The three encodings of a length. -/
theorem length_cases (f : Frame) :
    (f.payload.length < 126 ∧ f.shortLength = f.payload.length ∧ f.longLength = []) ∨
    (f.payload.length < 2 ^ 16 ∧ f.shortLength = 126 ∧ f.longLength = bytesBE 2 f.payload.length) ∨
    (f.shortLength = 127 ∧ f.longLength = bytesBE 8 f.payload.length) := by
  unfold shortLength longLength
  by_cases short : f.payload.length < 126
  · exact .inl ⟨short, if_pos short, if_pos short⟩
  · by_cases middle : f.payload.length < 2 ^ 16
    · refine .inr (.inl ⟨middle, ?_, ?_⟩) <;> rw [if_neg short, if_pos middle]
    · refine .inr (.inr ⟨?_, ?_⟩) <;> rw [if_neg short, if_neg middle]

/-- The state of the socket behind the peek of a frame. -/
def peeked (s : FrameState) (f : Frame) : FrameState :=
  { state := .readHeader
    readLen := f.header.length
    fin := if f.fin then 1 else 0
    compressed := if s.firstFrameOfMessage then f.rsv1 else s.compressed
    firstFrameOfMessage := f.fin
    mask := 0
    opcode := f.opcode.code }

variable {f : Frame}

theorem acceptPeek_header (valid : f.Valid) (s : FrameState) :
    s.acceptPeek (f.header.take minHeaderByteSize) = peeked s f := by
  obtain ⟨-, finBit, rsv1Bit, opcode⟩ := f.bits_firstByte
  obtain ⟨-, maskBit, short⟩ := f.bits_secondByte
  have keyLength : (f.key.getD []).length = if f.key.isSome then 4 else 0 := by
    cases key : f.key with
    | none => rfl
    | some k => exact valid.key k key
  have bytes : f.header.take minHeaderByteSize =
      [UInt8.ofNat f.firstByte, UInt8.ofNat f.secondByte] := rfl
  have size : minHeaderByteSize + (if f.key.isSome then 4 else 0) +
      (if f.shortLength = 126 then 2 else 0) + (if f.shortLength = 127 then 8 else 0) =
      f.header.length := by
    rw [header, length_cons, length_cons, length_append, keyLength]
    rcases f.length_cases with ⟨small, same, long⟩ | ⟨-, same, long⟩ | ⟨same, long⟩
    · rw [same, long, if_neg (by omega : ¬f.payload.length = 126),
        if_neg (by omega : ¬f.payload.length = 127)]
      simp [minHeaderByteSize]
      omega
    · rw [same, long, length_bytesBE, if_pos rfl, if_neg (by decide : ¬(126 : Nat) = 127)]
      unfold minHeaderByteSize
      omega
    · rw [same, long, length_bytesBE, if_pos rfl, if_neg (by decide : ¬(127 : Nat) = 126)]
      unfold minHeaderByteSize
      omega
  simp only [FrameState.acceptPeek, bytes, readUInt8_firstByte, readUInt8_secondByte,
    finBit, rsv1Bit, opcode, maskBit, short, peeked]
  rw [← size]
  cases f.fin <;> cases f.rsv1 <;> cases f.key.isSome <;> simp

/-- The number that unmasks the payload. -/
def maskNumber (f : Frame) : Nat := natBE (f.key.getD [])

/-- A byte of the header behind its first two. -/
theorem readUInt8_header (f : Frame) (i : Nat) :
    readUInt8 f.header (i + 2) = readUInt8 (f.longLength ++ f.key.getD []) i := by
  simp [readUInt8, header]

/-- The key is read from behind the length. -/
theorem readUInt8_key (i : Nat) :
    readUInt8 (f.longLength ++ f.key.getD []) (f.longLength.length + i) =
      readUInt8 (f.key.getD []) i := by
  simp only [readUInt8, getD_eq_getElem?_getD]
  rw [getElem?_append_right (Nat.le_add_right _ _), Nat.add_sub_cancel_left]

theorem maskBehind_header (valid : f.Valid) :
    FrameState.maskBehind f.header (f.longLength.length + 1) = f.maskNumber := by
  have second : readUInt8 f.header 1 = f.secondByte := f.readUInt8_secondByte _ _
  have read : ∀ i, readUInt8 f.header (f.longLength.length + 1 + (i + 1)) =
      readUInt8 (f.key.getD []) i := by
    intro i
    rw [show f.longLength.length + 1 + (i + 1) = f.longLength.length + i + 2 by omega,
      readUInt8_header, readUInt8_key]
  simp only [FrameState.maskBehind, second, f.bits_secondByte.2.1]
  rw [read 0, read 1, read 2, read 3, maskNumber]
  cases key : f.key with
  | none => rfl
  | some k =>
    match k, valid.key k key with
    | [a, b, c, d], _ =>
      simp only [isSome_some, if_true, getD_some, readUInt8, natBE,
        foldl_cons, foldl_nil, getD_cons_zero, getD_cons_succ]
      rw [if_pos (by decide)]
      omega

theorem bodyLength_header (valid : f.Valid) :
    FrameState.bodyLength f.header = (f.payload.length, f.longLength.length + 1) := by
  have lengthBound := valid.length
  have second : readUInt8 f.header 1 = f.secondByte := f.readUInt8_secondByte _ _
  simp only [FrameState.bodyLength, second, f.bits_secondByte.2.2]
  rcases f.length_cases with ⟨small, same, long⟩ | ⟨small, same, long⟩ | ⟨same, long⟩
  · rw [same, if_neg (by omega : ¬f.payload.length = 126),
      if_neg (by omega : ¬f.payload.length = 127), long]
    rfl
  · have read := f.readUInt8_header
    rw [same, if_pos rfl, read 0, read 1, long, length_bytesBE]
    simp only [bytesBE, nil_append, cons_append, readUInt8,
      getD_cons_zero, getD_cons_succ, UInt8.toNat_ofNat', Prod.mk.injEq]
    refine ⟨?_, trivial⟩
    omega
  · have read := f.readUInt8_header
    rw [same, if_neg (by decide : ¬(127 : Nat) = 126), if_pos rfl, read 0, read 1, read 2,
      read 3, read 4, read 5, read 6, read 7, long, length_bytesBE]
    simp only [bytesBE, nil_append, cons_append, readUInt8,
      getD_cons_zero, getD_cons_succ, UInt8.toNat_ofNat', Prod.mk.injEq]
    refine ⟨?_, trivial⟩
    omega

/-- The payload is unmasked. -/
theorem unmask_body (valid : f.Valid) : unmask f.body f.maskNumber = f.payload := by
  rw [maskNumber, body]
  cases key : f.key with
  | none => simp [unmask]
  | some k => exact (unmask_eq (valid.key k key) _).trans (maskWith_maskWith k _)

/-- The state of the socket behind a frame. -/
def consumed (s : FrameState) (f : Frame) : FrameState :=
  { peeked s f with state := .peekHeader, readLen := minHeaderByteSize }

/-- What the socket hands on for a frame. -/
def reported (s : FrameState) (f : Frame) : List FlowEvent :=
  if f.opcode.isControl then
    if f.opcode = .ping then [.writeMessage f.payload false 0x0A] else []
  else [.acceptFrame f.payload (peeked s f).compressed f.fin]

/-- The socket takes a whole frame off the front of its input. -/
theorem drains_encode (valid : f.Valid) {s final : FrameState} (waits : s.state = .peekHeader)
    {rest left : Bytes} (later : socketReader.Drains (consumed s f) rest final left events) :
    socketReader.Drains s (f.encode ++ rest) final left (reported s f ++ events) := by
  have body : socketReader.Drains
      { peeked s f with
        state := .readBody, readLen := f.payload.length, mask := f.maskNumber }
      (f.body ++ rest) final left (reported s f ++ events) := by
    refine Reader.Drains.frame ?_ ?_ later
    · exact f.length_body
    · have last : ((if f.fin then 1 else 0) != 0) = f.fin := by
        cases f.fin <;> rfl
      simp only [socketReader, FrameState.acceptBody, unmask_body valid, length_body, Prod.mk.injEq]
      refine ⟨rfl, trivial, ?_⟩
      simp only [peeked, reported, last]
      exact f.opcode.dispatch _ _
  have twoBytes : minHeaderByteSize ≤ f.header.length := by
    simp [header, minHeaderByteSize]
  have header : socketReader.Drains (peeked s f) (f.header ++ (f.body ++ rest)) final left
      ([] ++ (reported s f ++ events)) := by
    refine Reader.Drains.frame ?_ ?_ body
    · exact (max_eq_right twoBytes).symm
    · simp only [socketReader, peeked, max_eq_right twoBytes, Prod.mk.injEq, and_true]
      simp only [FrameState.acceptHeader, bodyLength_header valid, maskBehind_header valid]
  have need : socketReader.need s = minHeaderByteSize := by
    simp only [socketReader, waits]
  have peek : socketReader.step s ((f.encode ++ rest).take (socketReader.need s)) =
      (peeked s f, 0, []) := by
    rw [need, encode, append_assoc, take_append_of_le_length twoBytes]
    simp only [socketReader, waits, acceptPeek_header valid]
  have enough : socketReader.need s ≤ (f.encode ++ rest).length := by
    rw [need, encode, append_assoc, length_append]
    omega
  have whole := Reader.Drains.step enough peek (by
    rw [drop_zero, encode, append_assoc]
    exact header)
  exact whole

end Frame

/-! ## Streams of frames -/

/-- What the socket hands on for a stream of frames. -/
def reportedAll : FrameState → List Frame → List FlowEvent
  | _, [] => []
  | s, f :: frames => f.reported s ++ reportedAll (f.consumed s) frames

theorem drains_frames {frames : List Frame} (valid : ∀ f ∈ frames, f.Valid)
    {s : FrameState} (waits : s.state = .peekHeader) :
    ∃ final, socketReader.Drains s (frames.flatMap Frame.encode) final []
      (reportedAll s frames) := by
  induction frames generalizing s with
  | nil =>
    refine ⟨s, .wait ?_⟩
    simp [socketReader, waits, minHeaderByteSize]
  | cons f frames ih =>
    obtain ⟨final, later⟩ := @ih (fun g member => valid g (by simp [member])) (f.consumed s) rfl
    refine ⟨final, ?_⟩
    exact Frame.drains_encode (valid f (by simp)) waits later

theorem Legal.valid (legal : Legal inside frames) : ∀ f ∈ frames, f.Valid := by
  induction frames generalizing inside with
  | nil => simp
  | cons f frames ih =>
    obtain ⟨valid, rest⟩ := legal
    intro g member
    rcases mem_cons.mp member with rfl | later
    · exact valid
    · split at rest
      · exact ih rest.2.2.2 g later
      · exact ih rest.2.2 g later

/-- A fragment of a message whose first frame has the RSV1 bit comes right
behind a control frame. -/
def Interrupted (current : Option Bool) (frames : List Frame) : Prop :=
  ∃ before control fragment after,
    frames = before ++ control :: fragment :: after ∧
    control.opcode.isControl = true ∧ fragment.opcode.isControl = false ∧
    before.foldl openMessage current = some true

/-- The same, when a control frame has just been read. -/
def InterruptedBehind (current : Option Bool) (afterControl : Bool)
    (frames : List Frame) : Prop :=
  (afterControl = true ∧ current = some true ∧
    ∃ f rest, frames = f :: rest ∧ f.opcode.isControl = false) ∨
  Interrupted current frames

theorem interruptedBehind_cons (current : Option Bool) (afterControl : Bool) (f : Frame)
    (frames : List Frame) :
    InterruptedBehind current afterControl (f :: frames) ↔
      (f.opcode.isControl = false ∧ afterControl = true ∧ current = some true) ∨
        InterruptedBehind (openMessage current f) f.opcode.isControl frames := by
  constructor
  · rintro (⟨after, isOpen, g, rest, same, data⟩ |
      ⟨before, control, fragment, after, same, isControl, data, isOpen⟩)
    · obtain ⟨rfl, rfl⟩ := List.cons.inj same
      exact .inl ⟨data, after, isOpen⟩
    · cases before with
      | nil =>
        obtain ⟨rfl, rfl⟩ := List.cons.inj same
        refine .inr (.inl ⟨isControl, ?_, fragment, after, rfl, data⟩)
        rw [openMessage, if_pos isControl]
        exact isOpen
      | cons g before =>
        obtain ⟨rfl, rfl⟩ := List.cons.inj same
        exact .inr (.inr ⟨before, control, fragment, after, rfl, isControl, data, isOpen⟩)
  · rintro (⟨data, after, isOpen⟩ | ⟨isControl, isOpen, g, rest, rfl, data⟩ |
      ⟨before, control, fragment, after, rfl, isControl, data, isOpen⟩)
    · exact .inl ⟨after, isOpen, f, frames, rfl, data⟩
    · rw [openMessage, if_pos isControl] at isOpen
      exact .inr ⟨[], f, g, rest, rfl, isControl, data, isOpen⟩
    · exact .inr ⟨f :: before, control, fragment, after, rfl, isControl, data, isOpen⟩

/-- How the flags of the socket stand to the message that is open. -/
def Follows (s : FrameState) (current : Option Bool) (afterControl : Bool) : Prop :=
  match current with
  | none => s.firstFrameOfMessage = true
  | some flag =>
    if afterControl then s.firstFrameOfMessage = true
    else s.firstFrameOfMessage = false ∧ s.compressed = flag

/-- The socket reports what it has to unless a message is interrupted. -/
theorem reportedAll_iff {frames : List Frame} {current : Option Bool}
    {afterControl : Bool} {s : FrameState} (legal : Legal current.isSome frames)
    (follows : Follows s current afterControl) :
    reportedAll s frames = expectedEvents current frames ↔
      ¬InterruptedBehind current afterControl frames := by
  induction frames generalizing current afterControl s with
  | nil =>
    refine iff_of_true rfl ?_
    rintro (⟨-, -, f, rest, same, -⟩ | ⟨before, control, fragment, after, same, -⟩) <;> simp at same
  | cons f frames ih =>
    rw [interruptedBehind_cons, reportedAll, expectedEvents]
    obtain ⟨-, rest⟩ := legal
    cases isControl : f.opcode.isControl with
    | true =>
      rw [isControl] at rest
      obtain ⟨fin, -, -, rest⟩ := rest
      have same : openMessage current f = current := by
        rw [openMessage, if_pos isControl]
      have next : Follows (f.consumed s) current true := by
        unfold Follows
        cases current <;> exact fin
      rw [Frame.reported, isControl, same, if_pos rfl, if_pos rfl, append_right_inj, ih rest next]
      simp
    | false =>
      rw [isControl] at rest
      obtain ⟨-, plain, rest⟩ := rest
      have reported : f.reported s = [.acceptFrame f.payload (f.peeked s).compressed f.fin] := by
        rw [Frame.reported, isControl]
        rfl
      rw [reported, if_neg (by simp), singleton_append, singleton_append, List.cons.injEq]
      by_cases cut : afterControl = true ∧ current = some true
      · obtain ⟨rfl, rfl⟩ := cut
        have first : s.firstFrameOfMessage = true := follows
        have lost : (f.peeked s).compressed = false := by
          rw [Frame.peeked, first, if_pos rfl]
          exact plain rfl
        rw [lost]
        simp
      · have flag : (f.peeked s).compressed = current.getD f.rsv1 := by
          simp only [Frame.peeked]
          cases current with
          | none =>
            have first : s.firstFrameOfMessage = true := follows
            rw [if_pos first]
            rfl
          | some flag =>
            cases afterControl with
            | false =>
              obtain ⟨notFirst, same⟩ : _ ∧ _ := follows
              rw [notFirst, same]
              rfl
            | true =>
              have first : s.firstFrameOfMessage = true := follows
              have off : flag = false := by
                simpa using cut
              rw [if_pos first, plain rfl, off]
              rfl
        have isOpen : (openMessage current f).isSome = !f.fin := by
          rw [openMessage, isControl]
          cases f.fin <;> rfl
        have next : Follows (f.consumed s) (openMessage current f) false := by
          rw [openMessage, isControl]
          cases fin : f.fin with
          | true => exact fin
          | false => exact ⟨fin, flag⟩
        rw [← isOpen] at rest
        rw [flag, ih rest next]
        simp [cut]

/-! ## Writing -/

theorem and_255 (byte : UInt8) : byte &&& 0b11111111 = byte := by
  apply UInt8.toNat_inj.mp
  rw [UInt8.toNat_and, show (0b11111111 : UInt8).toNat = 2 ^ 8 - 1 from rfl,
    and_two_pow_sub_one_eq_mod]
  exact mod_eq_of_lt byte.toNat_lt

/-- `_write` writes one final frame without a mask. -/
theorem writeFrame_eq {payload : Bytes} (bounded : payload.length < 2 ^ 32)
    (compressed : Bool) (opcode : Opcode) :
    writeFrame payload compressed opcode.code =
      Frame.encode ⟨true, compressed, opcode, none, payload⟩ := by
  have first : 0b10000000 ||| (if compressed then 0b01000000 else 0) |||
      (opcode.code &&& 0b00001111) =
      0b10000000 + (if compressed then 0b01000000 else 0) + opcode.code := by
    cases compressed <;> cases opcode <;> decide
  simp only [writeFrame, first, Frame.encode, Frame.header, Frame.body, Frame.firstByte,
    Frame.secondByte, Frame.shortLength, Frame.longLength]
  by_cases short : payload.length < 126
  · simp [short, minHeaderByteSize, writeUInt8, List.replicate]
  · by_cases middle : payload.length < 2 ^ 16
    · simp only [if_neg short, if_pos middle]
      simp [minHeaderByteSize, writeUInt8, writeBytes, List.replicate, and_255,
        bytesBE, Nat.shiftRight_eq_div_pow]
    · have zero : ∀ d, 2 ^ 32 ≤ d → payload.length / d = 0 := fun d large =>
        Nat.div_eq_of_lt (by omega)
      simp only [if_neg short, if_neg middle]
      simp [minHeaderByteSize, writeUInt8, writeBytes, List.replicate, and_255,
        bytesBE, Nat.shiftRight_eq_div_pow, Nat.div_div_eq_div_mul, zero]

/-- The frame that `_write` makes of a message. -/
def writtenFrame (message : Bytes × Bool × Opcode) : Frame :=
  ⟨true, message.2.1, message.2.2, none, message.1⟩

section Written

variable {messages : List (Bytes × Bool × Opcode)}
  (bounded : ∀ m ∈ messages, m.1.length < 2 ^ 32)
  (opcodes : ∀ m ∈ messages, m.2.2 = .text ∨ m.2.2 = .binary)

include bounded in
theorem written_eq : (messages.flatMap fun m => writeFrame m.1 m.2.1 m.2.2.code) =
      (messages.map writtenFrame).flatMap Frame.encode := by
  rw [flatMap_map, flatMap_def, flatMap_def]
  congr 1
  apply map_congr_left
  intro m member
  exact writeFrame_eq (bounded m member) m.2.1 m.2.2

include opcodes in
theorem isControl_written {m : Bytes × Bool × Opcode} (member : m ∈ messages) :
    m.2.2.isControl = false ∧ m.2.2 ≠ .continuation := by
  rcases opcodes m member with isText | isBinary
  · rw [isText]
    decide
  · rw [isBinary]
    decide

include bounded opcodes in
theorem legal_written : Legal false (messages.map writtenFrame) := by
  induction messages with
  | nil => trivial
  | cons m messages ih =>
    have later := ih (fun m' member => bounded m' (by simp [member]))
      fun m' member => opcodes m' (by simp [member])
    obtain ⟨data, first⟩ := isControl_written opcodes (mem_cons_self)
    refine ⟨⟨fun key none => by simp [writtenFrame] at none, bounded m (by simp)⟩, ?_⟩
    rw [show (writtenFrame m).opcode.isControl = false from data, if_neg (by simp)]
    refine ⟨iff_of_false first (by simp), by simp, later⟩

include opcodes in
theorem expected_written : expectedEvents none (messages.map writtenFrame) =
      messages.map fun m => .acceptFrame m.1 m.2.1 true := by
  induction messages with
  | nil => rfl
  | cons m messages ih =>
    have later := ih fun m' member => opcodes m' (by simp [member])
    obtain ⟨data, -⟩ := isControl_written opcodes (mem_cons_self)
    have closed : openMessage none (writtenFrame m) = none := by
      rw [openMessage, show (writtenFrame m).opcode.isControl = false from data]
      rfl
    rw [map_cons, expectedEvents, closed, later,
      show (writtenFrame m).opcode.isControl = false from data]
    rfl

include opcodes in
theorem not_interrupted_written : ¬Interrupted none (messages.map writtenFrame) := by
  rintro ⟨before, control, fragment, after, same, isControl, -, -⟩
  have member : control ∈ messages.map writtenFrame := by
    rw [same]
    simp
  obtain ⟨m, inside, rfl⟩ := mem_map.mp member
  rw [show (writtenFrame m).opcode.isControl = false from
    (isControl_written opcodes inside).1] at isControl
  exact absurd isControl (by simp)

end Written

/-! ## The round trip -/

/-- However a legal stream of frames is cut, the socket reads it, and hands on
what it has to exactly when no message is interrupted. -/
theorem acceptChunks_frames {chunks : List Bytes}
    (legal : Legal false frames) (nonempty : ∀ chunk ∈ chunks, chunk ≠ [])
    (cut : chunks.flatten = frames.flatMap Frame.encode) :
    ∃ r events, WebSocketReader.new.acceptChunks chunks = some (r, events) ∧
      (events = expectedEvents none frames ↔ ¬Interrupted none frames) := by
  obtain ⟨r, events, accepted, -, feeds⟩ := socketOk_new.acceptChunks nonempty
  have drains := feeds.drains socketReader_bounded (by decide)
  obtain ⟨final, all⟩ := @drains_frames frames legal.valid FrameState.start rfl
  rw [← cut] at all
  obtain ⟨-, -, rfl⟩ := drains.unique all
  refine ⟨r, _, accepted, ?_⟩
  have reported := @reportedAll_iff frames none false FrameState.start legal rfl
  rw [reported, InterruptedBehind]
  simp

/-- Legal streams are read right exactly when no compressed message is
interrupted by a control frame; what `_write` has written is always read back. -/
theorem socket_reads_frames (frames : List Frame) (chunks : List Bytes)
    (nonempty : ∀ chunk ∈ chunks, chunk ≠ []) :
    (Legal false frames → chunks.flatten = frames.flatMap Frame.encode →
      ((∃ r, WebSocketReader.new.acceptChunks chunks =
        some (r, expectedEvents none frames)) ↔ ¬Interrupted none frames)) ∧
    ∀ messages : List (Bytes × Bool × Opcode),
      (∀ m ∈ messages, m.1.length < 2 ^ 32) →
      (∀ m ∈ messages, m.2.2 = .text ∨ m.2.2 = .binary) →
      chunks.flatten = (messages.flatMap fun m => writeFrame m.1 m.2.1 m.2.2.code) →
      ∃ r, WebSocketReader.new.acceptChunks chunks =
        some (r, messages.map fun m => .acceptFrame m.1 m.2.1 true) := by
  constructor
  · intro legal cut
    obtain ⟨r, events, accepted, right⟩ := acceptChunks_frames legal nonempty cut
    rw [← right]
    constructor
    · rintro ⟨r', same⟩
      rw [accepted, Option.some.injEq, Prod.mk.injEq] at same
      exact same.2
    · rintro rfl
      exact ⟨r, accepted⟩
  · intro messages bounded opcodes cut
    rw [written_eq bounded] at cut
    obtain ⟨r, events, accepted, right⟩ :=
      acceptChunks_frames (legal_written bounded opcodes) nonempty cut
    obtain rfl := right.mpr (not_interrupted_written opcodes)
    rw [expected_written opcodes] at accepted
    exact ⟨r, accepted⟩

/-- A compressed message of two fragments with a ping between them. -/
def interruptedFrames : List Frame :=
  [⟨false, true, .text, none, [1]⟩, ⟨true, false, .ping, none, []⟩,
    ⟨true, false, .continuation, some [1, 2, 3, 4], [2]⟩]

theorem legal_interruptedFrames : Legal false interruptedFrames := by
  refine ⟨⟨by simp, by decide⟩, ?_⟩
  refine ⟨by simp, by simp, ⟨by simp, by decide⟩, ?_⟩
  refine ⟨rfl, rfl, by decide, ⟨?_, by decide⟩, ?_⟩
  · intro key same
    obtain rfl := Option.some.inj same
    rfl
  · exact ⟨by simp, by simp, trivial⟩

/-- Behind the ping the second fragment counts as uncompressed. -/
theorem socket_loses_compression :
    ¬∀ (frames : List Frame) (chunks : List Bytes), Legal false frames →
      (∀ chunk ∈ chunks, chunk ≠ []) →
      chunks.flatten = frames.flatMap Frame.encode →
      ∃ r, WebSocketReader.new.acceptChunks chunks =
        some (r, expectedEvents none frames) := by
  intro always
  obtain ⟨r, accepted⟩ := always interruptedFrames
    [interruptedFrames.flatMap Frame.encode] legal_interruptedFrames
    (by decide) (by simp)
  have events : (WebSocketReader.new.acceptChunks
      [interruptedFrames.flatMap Frame.encode]).map Prod.snd =
      some (expectedEvents none interruptedFrames) := by
    rw [accepted, map_some]
  exact absurd events (by decide)

/-- The same frames without the ping. -/
theorem socket_reads_frames_sample :
    ∃ r, WebSocketReader.new.acceptChunks [[0x41, 1], [1, 0x80, 1, 2]] =
      some (r, [.acceptFrame [1] true false, .acceptFrame [2] true true]) :=
  ((socket_reads_frames
    [⟨false, true, .text, none, [1]⟩, ⟨true, false, .continuation, none, [2]⟩]
    [[0x41, 1], [1, 0x80, 1, 2]] (by decide)).1
    ⟨⟨by simp, by decide⟩, by simp, by simp, ⟨by simp, by decide⟩, by simp, by simp,
      trivial⟩
    (by decide)).mpr (by
      rintro ⟨before, control, fragment, after, same, isControl, -, -⟩
      have member : control ∈ [⟨false, true, .text, none, [1]⟩,
          ⟨true, false, .continuation, none, [2]⟩] := by
        rw [same]
        simp
      simp only [mem_cons, not_mem_nil, or_false] at member
      rcases member with rfl | rfl <;> exact absurd isControl (by decide))

end CodeEditor.Ipc

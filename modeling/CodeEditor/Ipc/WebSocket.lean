import CodeEditor.Ipc.ChunkStream

/-!
# WebSocket frames

`WebSocketNodeSocket` of `node/ipc.net.ts`: writing a frame, and reading frames
from the chunks of the underlying socket. What the flow manager is handed is
reported as events.
-/

namespace CodeEditor.Ipc

open List Nat

/-! ## Unmasking -/

/-- The loop of `unmask` over whole words. -/
def unmaskWords (mask cnt : Nat) (buffer : Bytes) : Bytes :=
  (List.range cnt).foldl (fun buffer i =>
    writeUInt32BE buffer (readUInt32BE buffer (i * 4) ^^^ mask) (i * 4)) buffer

def unmask (buffer : Bytes) (mask : Nat) : Bytes :=
  if mask = 0 then buffer
  else
    let cnt := buffer.length >>> 2
    let buffer := unmaskWords mask cnt buffer
    let offset := cnt * 4
    let bytesLeft := buffer.length - offset
    let m3 := (mask >>> 24) &&& 0b11111111
    let m2 := (mask >>> 16) &&& 0b11111111
    let m1 := (mask >>> 8) &&& 0b11111111
    let buffer :=
      if bytesLeft ≥ 1 then writeUInt8 buffer (readUInt8 buffer offset ^^^ m3) offset
      else buffer
    let buffer :=
      if bytesLeft ≥ 2 then
        writeUInt8 buffer (readUInt8 buffer (offset + 1) ^^^ m2) (offset + 1)
      else buffer
    if bytesLeft ≥ 3 then
      writeUInt8 buffer (readUInt8 buffer (offset + 2) ^^^ m1) (offset + 2)
    else buffer

/-! ## Writing -/

/-- `Constants.MinHeaderByteSize`. -/
def minHeaderByteSize : Nat := 2

/-- Write bytes one behind the other, from an offset on. -/
def writeBytes (destination : Bytes) (offset : Nat) : List Nat → Bytes
  | [] => destination
  | value :: values => writeBytes (writeUInt8 destination value offset) (offset + 1) values

/-- The frame that `_write(buffer, { compressed, opcode })` hands to the
socket. -/
def writeFrame (buffer : Bytes) (compressed : Bool) (opcode : Nat) : Bytes :=
  let byteLength := buffer.length
  let headerLen := minHeaderByteSize +
    if byteLength < 126 then 0 else if byteLength < 2 ^ 16 then 2 else 8
  let header := List.replicate headerLen 0
  -- The RSV1 bit indicates a compressed frame
  let compressedFlag := if compressed then 0b01000000 else 0
  let opcodeFlag := opcode &&& 0b00001111
  let header := writeUInt8 header (0b10000000 ||| compressedFlag ||| opcodeFlag) 0
  let header :=
    if byteLength < 126 then writeUInt8 header byteLength 1
    else if byteLength < 2 ^ 16 then
      writeBytes header 1 [126, (byteLength >>> 8) &&& 0b11111111,
        (byteLength >>> 0) &&& 0b11111111]
    else
      writeBytes header 1 [127, 0, 0, 0, 0, (byteLength >>> 24) &&& 0b11111111,
        (byteLength >>> 16) &&& 0b11111111, (byteLength >>> 8) &&& 0b11111111,
        (byteLength >>> 0) &&& 0b11111111]
  header ++ buffer

/-! ## Reading -/

inductive ReadState
  | peekHeader
  | readHeader
  | readBody
  deriving DecidableEq, Repr

/-- The `_state` of the socket. -/
structure FrameState where
  state : ReadState
  readLen : Nat
  fin : Nat
  compressed : Bool
  firstFrameOfMessage : Bool
  mask : Nat
  opcode : Nat
  deriving DecidableEq, Repr

/-- What the flow manager is asked to do. -/
inductive FlowEvent
  | acceptFrame (data : Bytes) (isCompressed isLastFrameOfMessage : Bool)
  | writeMessage (data : Bytes) (compressed : Bool) (opcode : Nat)
  deriving DecidableEq, Repr

namespace FrameState

def start : FrameState :=
  { state := .peekHeader, readLen := minHeaderByteSize, fin := 0, compressed := false,
    firstFrameOfMessage := true, mask := 0, opcode := 0 }

/-- The branch for `PeekHeader`. -/
def acceptPeek (s : FrameState) (peekHeader : Bytes) : FrameState :=
  let firstByte := readUInt8 peekHeader 0
  let finBit := (firstByte &&& 0b10000000) >>> 7
  let rsv1Bit := (firstByte &&& 0b01000000) >>> 6
  let opcode := firstByte &&& 0b00001111
  let secondByte := readUInt8 peekHeader 1
  let hasMask := (secondByte &&& 0b10000000) >>> 7
  let len := secondByte &&& 0b01111111
  { state := .readHeader
    readLen := minHeaderByteSize + (if hasMask ≠ 0 then 4 else 0) +
      (if len = 126 then 2 else 0) + (if len = 127 then 8 else 0)
    fin := finBit
    -- if the frame is compressed, the RSV1 bit is set only for the first frame of the message
    compressed := if s.firstFrameOfMessage then rsv1Bit != 0 else s.compressed
    firstFrameOfMessage := finBit != 0
    mask := 0
    opcode }

/-- The length of the body, and the offset of the last byte that tells it. -/
def bodyLength (header : Bytes) : Nat × Nat :=
  let len := readUInt8 header 1 &&& 0b01111111
  if len = 126 then (readUInt8 header 2 * 2 ^ 8 + readUInt8 header 3, 3)
  else if len = 127 then
    (readUInt8 header 2 * 0 + readUInt8 header 3 * 0 + readUInt8 header 4 * 0 +
      readUInt8 header 5 * 0 + readUInt8 header 6 * 2 ^ 24 +
      readUInt8 header 7 * 2 ^ 16 + readUInt8 header 8 * 2 ^ 8 +
      readUInt8 header 9, 9)
  else (len, 1)

/-- The mask behind an offset, if there is one. -/
def maskBehind (header : Bytes) (offset : Nat) : Nat :=
  let hasMask := (readUInt8 header 1 &&& 0b10000000) >>> 7
  if hasMask ≠ 0 then
    readUInt8 header (offset + 1) * 2 ^ 24 + readUInt8 header (offset + 2) * 2 ^ 16 +
      readUInt8 header (offset + 3) * 2 ^ 8 + readUInt8 header (offset + 4)
  else 0

/-- The branch for `ReadHeader`. -/
def acceptHeader (s : FrameState) (header : Bytes) : FrameState :=
  let (len, offset) := bodyLength header
  { s with state := .readBody, readLen := len, mask := maskBehind header offset }

/-- The branch for `ReadBody`. -/
def acceptBody (s : FrameState) (body : Bytes) : FrameState × List FlowEvent :=
  let body := unmask body s.mask
  ({ s with state := .peekHeader, readLen := minHeaderByteSize, mask := 0 },
    if s.opcode ≤ 0x02 then
      -- Continuation frame or Text frame or binary frame
      [.acceptFrame body s.compressed (s.fin != 0)]
    else if s.opcode = 0x09 then
      -- Ping frames could be send by some browsers e.g. Firefox
      [.writeMessage body false 0x0A]
    else [])

end FrameState

structure WebSocketReader where
  incomingData : ChunkStream
  state : FrameState
  deriving DecidableEq, Repr

namespace WebSocketReader

def new : WebSocketReader := ⟨.new, .start⟩

/-- The loop of `_acceptChunk`. -/
def acceptLoop : (fuel : Nat) → WebSocketReader →
    Option (WebSocketReader × List FlowEvent)
  | 0, r => some (r, [])
  | fuel + 1, r =>
    if r.incomingData.byteLength ≥ r.state.readLen then
      match r.state.state with
      | .peekHeader => do
          let (peekHeader, _) ← r.incomingData.peek r.state.readLen
          acceptLoop fuel { r with state := r.state.acceptPeek peekHeader }
      | .readHeader => do
          let (header, incomingData) ← r.incomingData.read r.state.readLen
          acceptLoop fuel ⟨incomingData, r.state.acceptHeader header⟩
      | .readBody => do
          let (body, incomingData) ← r.incomingData.read r.state.readLen
          let (state, events) := r.state.acceptBody body
          let (r, more) ← acceptLoop fuel ⟨incomingData, state⟩
          some (r, events ++ more)
    else some (r, [])

/-- `_acceptChunk(data)`; `none` is an exception. -/
def acceptChunk (r : WebSocketReader) (data : Bytes) :
    Option (WebSocketReader × List FlowEvent) :=
  if data.length = 0 then some (r, [])
  else
    let r := { r with incomingData := r.incomingData.acceptChunk data }
    acceptLoop (2 * r.incomingData.byteLength + 3) r

/-- Chunks that arrive one after the other. -/
def acceptChunks : WebSocketReader → List Bytes →
    Option (WebSocketReader × List FlowEvent)
  | r, [] => some (r, [])
  | r, chunk :: chunks => do
      let (r, events) ← r.acceptChunk chunk
      let (r, more) ← acceptChunks r chunks
      some (r, events ++ more)

end WebSocketReader

/-!
## Masked payloads

`unmask` works on whole words and finishes the rest byte by byte; together this
is the cyclic exclusive or of the payload with the key.
-/

/-- The payload with every byte combined with the key byte of its position. -/
def maskWith (key payload : Bytes) : Bytes :=
  payload.mapIdx fun i byte => byte ^^^ key.getD (i % 4) 0

@[simp] theorem length_maskWith (key payload : Bytes) :
    (maskWith key payload).length = payload.length := by
  simp [maskWith]

theorem maskWith_maskWith (key payload : Bytes) :
    maskWith key (maskWith key payload) = payload := by
  apply ext_getElem?
  intro i
  simp [maskWith, Function.comp_def]

/-- Whole words do not shift the key. -/
theorem maskWith_append {key front back : Bytes} (words : front.length % 4 = 0) :
    maskWith key (front ++ back) = maskWith key front ++ maskWith key back := by
  simp only [maskWith, mapIdx_append]
  congr 2
  funext i byte
  rw [add_mod, words, add_zero, mod_mod]

/-! ## Exclusive or of numbers and of their bytes -/

theorem xor_mul_add {a b c d : Nat} (small : b < 256) (small' : d < 256) :
    (a * 256 + b) ^^^ (c * 256 + d) = (a ^^^ c) * 256 + (b ^^^ d) := by
  have bound : b ^^^ d < 2 ^ 8 := xor_lt_two_pow small small'
  apply eq_of_testBit_eq
  intro i
  rw [testBit_xor, show a * 256 = 2 ^ 8 * a by omega, show c * 256 = 2 ^ 8 * c by omega,
    show (a ^^^ c) * 256 = 2 ^ 8 * (a ^^^ c) by omega,
    testBit_two_pow_mul_add a small, testBit_two_pow_mul_add c small',
    testBit_two_pow_mul_add (a ^^^ c) bound]
  split <;> rw [testBit_xor]

theorem natBE_xor {first second : Bytes} (same : first.length = second.length) :
    natBE (List.zipWith (· ^^^ ·) first second) = natBE first ^^^ natBE second := by
  induction first using List.reverseRecOn generalizing second with
  | nil =>
    obtain rfl : second = [] := eq_nil_of_length_eq_zero same.symm
    rfl
  | append_singleton first byte ih =>
    rcases eq_nil_or_concat' second with rfl | ⟨second, last, rfl⟩
    · simp at same
    · have lengths : first.length = second.length := by simpa using same
      rw [zipWith_append lengths, zipWith_cons_cons,
        zipWith_nil_left, natBE_concat, natBE_concat, natBE_concat,
        ih lengths, UInt8.toNat_xor,
        xor_mul_add byte.toNat_lt last.toNat_lt]

/-! ## Words -/

/-- Four bytes of a buffer written as one number. -/
theorem writeUInt32BE_append {front middle back : Bytes} (four : middle.length = 4) (value : Nat) :
    writeUInt32BE (front ++ middle ++ back) value front.length =
      front ++ bytesBE 4 value ++ back := by
  obtain ⟨a, b, c, d, rfl⟩ : ∃ a b c d, middle = [a, b, c, d] := by
    match middle, four with
    | [a, b, c, d], _ => exact ⟨a, b, c, d, rfl⟩
  rw [bytesBE_four]
  simp [writeUInt32BE, writeUInt8]

variable {key : Bytes}

/-- One turn of the loop over the words. -/
theorem unmask_word (four : key.length = 4) {front word back : Bytes} (wordFour : word.length = 4) :
    writeUInt32BE (front ++ word ++ back)
        (readUInt32BE (front ++ word ++ back) front.length ^^^ natBE key)
        front.length =
      front ++ maskWith key word ++ back := by
  have bytes : bytesBE 4 (natBE word ^^^ natBE key) = maskWith key word := by
    rw [← natBE_xor (wordFour.trans four.symm)]
    have same := bytesBE_natBE (List.zipWith (· ^^^ ·) word key)
    rw [length_zipWith, wordFour, four] at same
    rw [show min 4 4 = 4 from rfl] at same
    rw [same]
    match word, wordFour, key, four with
    | [a, b, c, d], _, [p, q, r, s], _ => rfl
  rw [readUInt32BE_append wordFour, writeUInt32BE_append wordFour, bytes]

/-- The loop over the words. -/
theorem unmaskWords_eq (four : key.length = 4) {cnt : Nat} {payload : Bytes}
    (enough : cnt * 4 ≤ payload.length) :
    unmaskWords (natBE key) cnt payload =
      maskWith key (payload.take (cnt * 4)) ++ payload.drop (cnt * 4) := by
  induction cnt with
  | zero => simp [unmaskWords, maskWith]
  | succ cnt ih =>
    have done := ih (by omega)
    obtain ⟨front, word, back, rfl, frontLength, wordLength⟩ :
        ∃ front word back, payload = front ++ (word ++ back) ∧
          front.length = cnt * 4 ∧ word.length = 4 := by
      refine ⟨payload.take (cnt * 4), (payload.drop (cnt * 4)).take 4,
        (payload.drop (cnt * 4)).drop 4, ?_, ?_, ?_⟩
      · rw [take_append_drop, take_append_drop]
      · rw [length_take]
        omega
      · rw [length_take, length_drop]
        omega
    have step : unmaskWords (natBE key) (cnt + 1) (front ++ (word ++ back)) =
        writeUInt32BE (unmaskWords (natBE key) cnt (front ++ (word ++ back)))
          (readUInt32BE (unmaskWords (natBE key) cnt (front ++ (word ++ back)))
            (cnt * 4) ^^^ natBE key) (cnt * 4) := by
      simp [unmaskWords, range_succ]
    have masked := @unmask_word key four (maskWith key front) word back wordLength
    rw [length_maskWith, frontLength] at masked
    rw [step, done, take_left' frontLength, drop_left' frontLength,
      ← append_assoc, masked, ← append_assoc front,
      take_left' (by rw [length_append]; omega),
      drop_left' (by rw [length_append]; omega),
      maskWith_append (by omega)]

/-- The key bytes as `unmask` takes them from the mask. -/
theorem key_bytes {a b c d : UInt8} : (natBE [a, b, c, d] >>> 24) &&& 0b11111111 = a.toNat ∧
      (natBE [a, b, c, d] >>> 16) &&& 0b11111111 = b.toNat ∧
      (natBE [a, b, c, d] >>> 8) &&& 0b11111111 = c.toNat := by
  have ha := a.toNat_lt
  have hb := b.toNat_lt
  have hc := c.toNat_lt
  have hd := d.toNat_lt
  simp only [natBE, foldl_cons, foldl_nil,
    show (0b11111111 : Nat) = 2 ^ 8 - 1 from rfl, and_two_pow_sub_one_eq_mod,
    shiftRight_eq_div_pow]
  omega

/-- One byte behind the words. -/
theorem unmask_byte {front back : Bytes} {byte keyByte : UInt8} : writeUInt8 (front ++ byte :: back)
        (readUInt8 (front ++ byte :: back) front.length ^^^ keyByte.toNat)
        front.length =
      front ++ (byte ^^^ keyByte) :: back := by
  have read : readUInt8 (front ++ byte :: back) front.length = byte.toNat := by
    simp [readUInt8]
  have value : UInt8.ofNat (byte.toNat ^^^ keyByte.toNat) = byte ^^^ keyByte := by
    apply UInt8.toNat_inj.mp
    exact mod_eq_of_lt (xor_lt_two_pow byte.toNat_lt keyByte.toNat_lt)
  rw [read, writeUInt8, value]
  simp

/-- `unmask` is the cyclic exclusive or with the key. -/
theorem unmask_eq (four : key.length = 4) (payload : Bytes) :
    unmask payload (natBE key) = maskWith key payload := by
  unfold unmask
  split
  · rename_i zero
    have zeros : key = [0, 0, 0, 0] := by
      have same := bytesBE_natBE key
      rw [zero, four] at same
      exact same.symm
    apply ext_getElem?
    intro i
    have keyByte : key.getD (i % 4) 0 = 0 := by
      rw [zeros]
      match i % 4, Nat.mod_lt i (by decide : 4 > 0) with
      | 0, _ => rfl
      | 1, _ => rfl
      | 2, _ => rfl
      | 3, _ => rfl
    simp only [maskWith, getElem?_mapIdx, keyByte, UInt8.xor_zero]
    simp
  · have size : payload.length >>> 2 = payload.length / 4 := Nat.shiftRight_eq_div_pow _ 2
    obtain ⟨front, tail, rfl, frontLength, tailLength⟩ : ∃ front tail, payload = front ++ tail ∧
          front.length = payload.length / 4 * 4 ∧ tail.length < 4 := by
      refine ⟨payload.take (payload.length / 4 * 4), payload.drop (payload.length / 4 * 4),
        (take_append_drop _ _).symm, ?_, ?_⟩
      · rw [length_take]
        omega
      · rw [length_drop]
        omega
    have words := @unmaskWords_eq key four ((front ++ tail).length / 4) (front ++ tail) (by omega)
    rw [take_left' frontLength, drop_left' frontLength] at words
    simp only [size, words]
    rw [maskWith_append (by omega), ← frontLength]
    simp only [length_append, length_maskWith, Nat.add_sub_cancel_left]
    match key, four with
    | [a, b, c, d], _ =>
      obtain ⟨first, second, third⟩ := @key_bytes a b c d
      rw [first, second, third]
      have byte0 := fun x (rest : Bytes) =>
        @unmask_byte (maskWith [a, b, c, d] front) rest x a
      have byte1 := fun x y (rest : Bytes) =>
        @unmask_byte (maskWith [a, b, c, d] front ++ [x]) rest y b
      have byte2 := fun x y z (rest : Bytes) =>
        @unmask_byte (maskWith [a, b, c, d] front ++ [x, y]) rest z c
      simp only [length_maskWith, length_append, length_cons, length_nil,
        append_assoc, cons_append, nil_append, Nat.zero_add]
        at byte0 byte1 byte2
      match tail, tailLength with
      | [], _ => simp [maskWith]
      | [x], _ =>
        simp only [length_singleton, ge_iff_le, le_refl, if_true, Nat.reduceLeDiff, if_false, byte0]
        rfl
      | [x, y], _ =>
        simp only [length_cons, length_nil, Nat.zero_add, Nat.reduceAdd,
          ge_iff_le, Nat.reduceLeDiff, if_true, if_false, byte0, byte1]
        rfl
      | [x, y, z], _ =>
        simp only [length_cons, length_nil, Nat.zero_add, Nat.reduceAdd,
          ge_iff_le, Nat.reduceLeDiff, if_true, byte0, byte1, byte2]
        rfl

end CodeEditor.Ipc

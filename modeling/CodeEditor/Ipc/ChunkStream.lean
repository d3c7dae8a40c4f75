import CodeEditor.Foundation.Bytes

/-!
# Buffers and chunk streams

`VSBuffer` reads and writes of `buffer.ts`, and `ChunkStream` of `ipc.net.ts`: a
rope of received chunks from which bytes are read or peeked.
-/

namespace CodeEditor.Ipc

open List

/-! ## Buffers -/

/-- `readUInt8(source, offset)`. -/
def readUInt8 (source : Bytes) (offset : Nat) : Nat := (source.getD offset 0).toNat

/-- `writeUInt8(destination, value, offset)`; a byte keeps the last eight
bits. -/
def writeUInt8 (destination : Bytes) (value offset : Nat) : Bytes :=
  destination.set offset (UInt8.ofNat value)

/-- `readUInt32BE(source, offset)`. -/
def readUInt32BE (source : Bytes) (offset : Nat) : Nat :=
  readUInt8 source offset * 2 ^ 24 + readUInt8 source (offset + 1) * 2 ^ 16 +
    readUInt8 source (offset + 2) * 2 ^ 8 + readUInt8 source (offset + 3)

/-- `writeUInt32BE(destination, value, offset)` for a value below `2 ^ 32`. -/
def writeUInt32BE (destination : Bytes) (value offset : Nat) : Bytes :=
  let destination := writeUInt8 destination value (offset + 3)
  let value := value >>> 8
  let destination := writeUInt8 destination value (offset + 2)
  let value := value >>> 8
  let destination := writeUInt8 destination value (offset + 1)
  let value := value >>> 8
  writeUInt8 destination value offset

theorem bytesBE_four (value : Nat) : bytesBE 4 value = [UInt8.ofNat (value >>> 8 >>> 8 >>> 8),
      UInt8.ofNat (value >>> 8 >>> 8), UInt8.ofNat (value >>> 8),
      UInt8.ofNat value] := by
  simp [bytesBE, Nat.shiftRight_eq_div_pow]

/-- Four bytes of a buffer read as one number. -/
theorem readUInt32BE_append {front middle back : Bytes} (four : middle.length = 4) :
    readUInt32BE (front ++ middle ++ back) front.length = natBE middle := by
  obtain ⟨a, b, c, d, rfl⟩ : ∃ a b c d, middle = [a, b, c, d] := by
    match middle, four with
    | [a, b, c, d], _ => exact ⟨a, b, c, d, rfl⟩
  simp only [readUInt32BE, readUInt8, natBE, foldl_cons, foldl_nil,
    append_assoc, getD_eq_getElem?_getD]
  simp
  omega

/-! ## Chunk streams -/

structure ChunkStream where
  chunks : List Bytes
  totalLength : Nat
  deriving DecidableEq, Repr

namespace ChunkStream

def new : ChunkStream := ⟨[], 0⟩

def byteLength (s : ChunkStream) : Nat := s.totalLength

def acceptChunk (s : ChunkStream) (buff : Bytes) : ChunkStream :=
  ⟨s.chunks ++ [buff], s.totalLength + buff.length⟩

/-- The loop of `_read` over the chunks: the bytes read and the chunks that
survive. Running out of chunks is a read of `undefined`, which throws. -/
def readChunks : List Bytes → (byteCount : Nat) → Option (Bytes × List Bytes)
  | chunks, 0 => some ([], chunks)
  | [], _ + 1 => none
  | chunk :: chunks, byteCount + 1 =>
    if chunk.length > byteCount + 1 then
      some (chunk.take (byteCount + 1), chunk.drop (byteCount + 1) :: chunks)
    else
      (readChunks chunks (byteCount + 1 - chunk.length)).map
        fun (result, survivors) => (chunk ++ result, survivors)

/-- `_read(byteCount, advance)`; `none` is an exception. -/
def readCore (s : ChunkStream) (byteCount : Nat) (advance : Bool) :
    Option (Bytes × ChunkStream) :=
  if byteCount = 0 then some ([], s)
  else if byteCount > s.totalLength then none
  else
    match s.chunks with
    | [] => none
    | chunk :: chunks =>
      if chunk.length = byteCount then
        -- super fast path, precisely first chunk must be returned
        some (chunk,
          if advance then ⟨chunks, s.totalLength - byteCount⟩ else s)
      else if chunk.length > byteCount then
        -- fast path, the reading is entirely within the first chunk
        some (chunk.take byteCount,
          if advance then
            ⟨chunk.drop byteCount :: chunks, s.totalLength - byteCount⟩
          else s)
      else
        (readChunks s.chunks byteCount).map fun (result, survivors) =>
          (result,
            if advance then ⟨survivors, s.totalLength - byteCount⟩ else s)

def read (s : ChunkStream) (byteCount : Nat) : Option (Bytes × ChunkStream) :=
  s.readCore byteCount true

def peek (s : ChunkStream) (byteCount : Nat) : Option (Bytes × ChunkStream) :=
  s.readCore byteCount false

/-- The bytes that are held. -/
def bytes (s : ChunkStream) : Bytes := s.chunks.flatten

/-- The stored length is the sum of the chunk lengths. -/
def LengthOk (s : ChunkStream) : Prop :=
  s.byteLength = (s.chunks.map List.length).sum

theorem lengthOk_new : new.LengthOk := rfl

variable {s : ChunkStream}

theorem LengthOk.length_bytes (ok : s.LengthOk) : s.byteLength = s.bytes.length := by
  rw [ok, bytes, length_flatten]

@[simp] theorem bytes_acceptChunk (s : ChunkStream) (buff : Bytes) :
    (s.acceptChunk buff).bytes = s.bytes ++ buff := by
  simp [bytes, acceptChunk]

theorem LengthOk.acceptChunk (ok : s.LengthOk) (buff : Bytes) : (s.acceptChunk buff).LengthOk := by
  have total : s.totalLength = (s.chunks.map List.length).sum := ok
  simp [LengthOk, byteLength, ChunkStream.acceptChunk, total]

theorem readChunks_eq {chunks : List Bytes} {byteCount : Nat}
    (enough : byteCount ≤ chunks.flatten.length) :
    ∃ survivors, readChunks chunks byteCount = some (chunks.flatten.take byteCount, survivors) ∧
      survivors.flatten = chunks.flatten.drop byteCount := by
  induction chunks generalizing byteCount with
  | nil =>
    obtain rfl : byteCount = 0 := by simpa using enough
    exact ⟨[], rfl, rfl⟩
  | cons chunk chunks ih =>
    cases byteCount with
    | zero => exact ⟨chunk :: chunks, rfl, rfl⟩
    | succ byteCount =>
      rw [flatten_cons, length_append] at enough
      rw [readChunks, flatten_cons]
      split
      · rename_i inside
        refine ⟨chunk.drop (byteCount + 1) :: chunks, ?_, ?_⟩
        · rw [take_append_of_le_length (by omega)]
        · rw [drop_append_of_le_length (by omega), flatten_cons]
      · rename_i whole
        obtain ⟨survivors, result, rest⟩ := ih
          (show byteCount + 1 - chunk.length ≤ chunks.flatten.length by omega)
        refine ⟨survivors, ?_, ?_⟩
        · have start : chunk.take (byteCount + 1) = chunk :=
            take_of_length_le (by omega)
          rw [result, Option.map_some, take_append, start]
        · have nothing : chunk.drop (byteCount + 1) = [] :=
            drop_of_length_le (by omega)
          rw [rest, drop_append, nothing, nil_append]

/-- Both reads return the first bytes; `read` takes them off. -/
theorem readCore_eq (ok : s.LengthOk) {byteCount : Nat} (enough : byteCount ≤ s.byteLength)
    (advance : Bool) : ∃ s', s.readCore byteCount advance = some (s.bytes.take byteCount, s') ∧
      s'.LengthOk ∧
      s'.bytes = if advance then s.bytes.drop byteCount else s.bytes := by
  have total := ok.length_bytes
  suffices result : ∃ survivors, s.readCore byteCount advance = some (s.bytes.take byteCount,
        if advance then ⟨survivors, s.totalLength - byteCount⟩ else s) ∧
      survivors.flatten = s.bytes.drop byteCount by
    obtain ⟨survivors, result, rest⟩ := result
    refine ⟨_, result, ?_, ?_⟩
    · cases advance with
      | false => exact ok
      | true =>
        simp only [if_true, LengthOk, byteLength]
        rw [← length_flatten, rest, length_drop]
        exact congrArg (· - byteCount) total
    · cases advance with
      | false => rfl
      | true => exact rest
  rw [readCore]
  split
  · rename_i zero
    subst zero
    refine ⟨s.chunks, ?_, rfl⟩
    cases advance <;> rfl
  · rename_i some
    rw [if_neg (Nat.not_lt.mpr enough : ¬byteCount > s.totalLength)]
    rw [bytes] at total ⊢
    obtain ⟨survivors, result, rest⟩ := readChunks_eq (total ▸ enough)
    split
    · rename_i none
      rw [none, flatten_nil, length_nil] at total
      omega
    · rename_i chunk chunks split_
      rw [split_, flatten_cons] at rest result ⊢
      split
      · rename_i whole
        refine ⟨chunks, ?_, ?_⟩
        · rw [take_left' whole]
        · rw [drop_left' whole]
      · split
        · rename_i inside
          refine ⟨chunk.drop byteCount :: chunks, ?_, ?_⟩
          · rw [take_append_of_le_length (by omega)]
          · rw [drop_append_of_le_length (by omega), flatten_cons]
        · exact ⟨survivors, by rw [result, Option.map_some], rest⟩

end ChunkStream

end CodeEditor.Ipc

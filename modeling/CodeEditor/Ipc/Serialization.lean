import CodeEditor.Foundation.Bytes
import CodeEditor.Foundation.Text

/-!
# Serialized values

`serialize` and `deserialize` of `ipc.ts`: a value is written as the byte of its
type, followed for most types by a variable-length quantity (the value itself, a
byte length or a number of elements) and by the bytes or the elements.

Converting between strings and UTF-8 and between objects and JSON is done by the
platform; both come in as the parameter `Platform`.
-/

namespace CodeEditor.Ipc

open List

/-! ## Readers and writers -/

/-- `VSBuffer.slice(start, end)`, which is `Uint8Array.subarray`: an end below zero
counts from the end of the buffer, and both ends are clamped to it. -/
def slice (buffer : Bytes) (start : Nat) (stop : Int) : Bytes :=
  let last := if stop < 0 then (buffer.length + stop).toNat else stop.toNat
  (buffer.take last).drop start

structure BufferReader where
  buffer : Bytes
  pos : Nat
  deriving DecidableEq, Repr

namespace BufferReader

def new (buffer : Bytes) : BufferReader := ⟨buffer, 0⟩

def read (reader : BufferReader) (bytes : Int) : Bytes × BufferReader :=
  let result := slice reader.buffer reader.pos (reader.pos + bytes)
  (result, ⟨reader.buffer, reader.pos + result.length⟩)

/-- How many bytes are still to be read. -/
def left (reader : BufferReader) : Nat := reader.buffer.length - reader.pos

theorem left_read_le (reader : BufferReader) (bytes : Int) :
    (reader.read bytes).2.left ≤ reader.left := by
  simp only [left, read]
  omega

theorem left_read_lt {reader : BufferReader} (some_read : (reader.read bytes).1 ≠ []) :
    (reader.read bytes).2.left < reader.left := by
  simp only [left, read] at some_read ⊢
  have positive := length_pos_iff.mpr some_read
  have bounded : (slice reader.buffer reader.pos (reader.pos + bytes)).length ≤
      reader.buffer.length - reader.pos := by
    simp only [slice, length_drop, length_take]
    omega
  omega

end BufferReader

/-- The buffers written so far. -/
structure BufferWriter where
  buffers : List Bytes
  deriving DecidableEq, Repr

namespace BufferWriter

def new : BufferWriter := ⟨[]⟩

def buffer (writer : BufferWriter) : Bytes := writer.buffers.flatten

def write (writer : BufferWriter) (buffer : Bytes) : BufferWriter :=
  ⟨writer.buffers ++ [buffer]⟩

@[simp] theorem buffer_new : new.buffer = [] := rfl

@[simp] theorem buffer_write (writer : BufferWriter) (bytes : Bytes) :
    (writer.write bytes).buffer = writer.buffer ++ bytes := by
  simp [buffer, write]

end BufferWriter

/-! ## Variable-length quantities -/

/-- The loop of `readIntVQL`. Behind the end of the buffer the byte is
`undefined`, which counts as zero and ends the loop; a shift by `n` is a shift by
`n` modulo 32. -/
def readIntVQLFrom (reader : BufferReader) (value : BitVec 32) (n : Nat) :
    BitVec 32 × BufferReader :=
  let byte := (reader.read 1).1.getD 0 0
  let value := value ||| ((byte &&& 0b01111111).toBitVec.setWidth 32 <<< (n % 32))
  if h : byte &&& 0b10000000 = 0 then (value, (reader.read 1).2)
  else readIntVQLFrom (reader.read 1).2 value (n + 7)
termination_by reader.left
decreasing_by
  apply BufferReader.left_read_lt
  intro nothing
  simp [byte, nothing] at h

def readIntVQL (reader : BufferReader) : BitVec 32 × BufferReader :=
  readIntVQLFrom reader 0 0

variable {value : BitVec 32}

theorem ushiftRight_seven_lt (nonzero : value ≠ 0) : (value >>> 7).toNat < value.toNat := by
  have positive : 0 < value.toNat := by
    rw [pos_iff_ne_zero]
    intro zero
    exact nonzero (BitVec.eq_of_toNat_eq (by simpa using zero))
  rw [BitVec.toNat_ushiftRight, Nat.shiftRight_eq_div_pow]
  exact Nat.div_lt_self positive (by decide)

/-- The number of groups of seven bits, counted by the first loop of
`writeInt32VQL`. -/
def lengthVQL (v2 : BitVec 32) : Nat :=
  if h : v2 = 0 then 0 else lengthVQL (v2 >>> 7) + 1
termination_by v2.toNat
decreasing_by exact ushiftRight_seven_lt h

/-- The second loop of `writeInt32VQL`, from index `i` on. -/
def fillVQL (scratch : Bytes) (i : Nat) (value : BitVec 32) : Bytes :=
  if h : value = 0 then scratch
  else
    let rest := value >>> 7
    let group := UInt8.ofBitVec ((value &&& 0b01111111).setWidth 8)
    fillVQL (scratch.set i (if rest = 0 then group else group ||| 0b10000000))
      (i + 1) rest
termination_by value.toNat
decreasing_by exact ushiftRight_seven_lt h

/-- `writeInt32VQL(writer, value)`. The source only uses the last 32 bits of the
number. -/
def writeInt32VQL (writer : BufferWriter) (value : BitVec 32) : BufferWriter :=
  if value = 0 then writer.write [0]
  else writer.write (fillVQL (List.replicate (lengthVQL value) 0) 0 value)

/-! ## Values -/

/-- The values that are sent. `Object` stands for everything that is sent as
JSON: plain objects, and the numbers that are no 32-bit integers, `null` and
Booleans. -/
inductive Value (Object : Type) where
  | undefined
  | string (text : Text)
  | buffer (bytes : Bytes)
  | vsBuffer (bytes : Bytes)
  | array (elements : List (Value Object))
  | int (value : Int32)
  | object (object : Object)

/-- The conversions done by the platform. `parse` is `none` where `JSON.parse`
throws. -/
structure Platform (Object : Type) where
  fromString : Text → Bytes
  toString : Bytes → Text
  stringify : Object → Text
  parse : Text → Option Object

inductive DataType where
  | undefined
  | string
  | buffer
  | vsBuffer
  | array
  | object
  | int
  deriving DecidableEq, Repr

def DataType.toByte : DataType → UInt8
  | .undefined => 0
  | .string => 1
  | .buffer => 2
  | .vsBuffer => 3
  | .array => 4
  | .object => 5
  | .int => 6

/-- The type named by a byte that was read; there may be none to read. -/
def DataType.ofByte? : Option UInt8 → Option DataType
  | some 0 => some .undefined
  | some 1 => some .string
  | some 2 => some .buffer
  | some 3 => some .vsBuffer
  | some 4 => some .array
  | some 5 => some .object
  | some 6 => some .int
  | _ => none

@[simp] theorem DataType.ofByte?_toByte (type : DataType) :
    DataType.ofByte? (some type.toByte) = some type := by
  cases type <;> rfl

variable {Object : Type}

/-- A type byte, the length of a buffer and the buffer. -/
def writeBuffer (writer : BufferWriter) (type : DataType) (buffer : Bytes) :
    BufferWriter :=
  let writer := writer.write [type.toByte]
  let writer := writeInt32VQL writer (BitVec.ofNat 32 buffer.length)
  writer.write buffer

mutual

def serialize (platform : Platform Object) (writer : BufferWriter) :
    Value Object → BufferWriter
  | .undefined => writer.write [DataType.undefined.toByte]
  | .string text => writeBuffer writer .string (platform.fromString text)
  | .buffer bytes => writeBuffer writer .buffer bytes
  | .vsBuffer bytes => writeBuffer writer .vsBuffer bytes
  | .array elements =>
    let writer := writer.write [DataType.array.toByte]
    let writer := writeInt32VQL writer (BitVec.ofNat 32 elements.length)
    serializeAll platform writer elements
  | .int value =>
    let writer := writer.write [DataType.int.toByte]
    writeInt32VQL writer value.toBitVec
  | .object object =>
    writeBuffer writer .object (platform.fromString (platform.stringify object))

def serializeAll (platform : Platform Object) (writer : BufferWriter) :
    List (Value Object) → BufferWriter
  | [] => writer
  | element :: elements =>
    serializeAll platform (serialize platform writer element) elements

end

/-- Why `deserialize` gives no value: `JSON.parse` threw, or the recursion of the
model was cut off, which never happens from `deserialize` itself. -/
inductive Failure where
  | syntaxError
  | exhausted
  deriving DecidableEq, Repr

/-- `reader.read(readIntVQL(reader))`. -/
def readBuffer (reader : BufferReader) : Bytes × BufferReader :=
  let (length, reader) := readIntVQL reader
  reader.read length.toInt

/-- The loop that reads the elements of an array. -/
def deserializeAll (one : BufferReader → Except Failure (Value Object × BufferReader)) :
    Nat → BufferReader → Except Failure (List (Value Object) × BufferReader)
  | 0, reader => .ok ([], reader)
  | count + 1, reader => do
      let (element, reader) ← one reader
      let (elements, reader) ← deserializeAll one count reader
      .ok (element :: elements, reader)

/-- `deserialize` with a bound on how deep arrays are nested. -/
def deserializeFrom (platform : Platform Object) :
    (depth : Nat) → BufferReader → Except Failure (Value Object × BufferReader)
  | 0, _ => .error .exhausted
  | depth + 1, reader =>
    let (type, reader) := reader.read 1
    match DataType.ofByte? type.head? with
    | some .undefined => .ok (.undefined, reader)
    | some .string =>
      let (bytes, reader) := readBuffer reader
      .ok (.string (platform.toString bytes), reader)
    | some .buffer =>
      let (bytes, reader) := readBuffer reader
      .ok (.buffer bytes, reader)
    | some .vsBuffer =>
      let (bytes, reader) := readBuffer reader
      .ok (.vsBuffer bytes, reader)
    | some .array => do
        let (length, reader) := readIntVQL reader
        let (elements, reader) ← deserializeAll (deserializeFrom platform depth)
          length.toInt.toNat reader
        .ok (.array elements, reader)
    | some .object =>
      let (bytes, reader) := readBuffer reader
      match platform.parse (platform.toString bytes) with
      | some object => .ok (.object object, reader)
      | none => .error .syntaxError
    | some .int =>
      let (value, reader) := readIntVQL reader
      .ok (.int (Int32.ofBitVec value), reader)
    | none => .ok (.undefined, reader)

/-- `deserialize(reader)`. Every array reads the byte of its type before its
elements, so arrays cannot be nested deeper than there are bytes left. -/
def deserialize (platform : Platform Object) (reader : BufferReader) :
    Except Failure (Value Object × BufferReader) :=
  deserializeFrom platform (reader.left + 1) reader

/-! ## Reading at a position -/

namespace BufferReader

/-- The bytes that are still to be read. -/
def unread (reader : BufferReader) : Bytes := reader.buffer.drop reader.pos

/-- The reader some bytes later. -/
def advance (reader : BufferReader) (count : Nat) : BufferReader :=
  ⟨reader.buffer, reader.pos + count⟩

@[simp] theorem advance_advance (reader : BufferReader) (first second : Nat) :
    (reader.advance first).advance second = reader.advance (first + second) := by
  simp [advance, add_assoc]

variable {reader : BufferReader}

theorem unread_advance {bytes rest : Bytes} (next : reader.unread = bytes ++ rest) :
    (reader.advance bytes.length).unread = rest := by
  rw [unread, advance, ← drop_drop]
  rw [unread] at next
  simp [next]

theorem left_eq (reader : BufferReader) : reader.left = reader.unread.length := by
  simp [left, unread]

theorem read_of_unread {bytes rest : Bytes} (next : reader.unread = bytes ++ rest) :
    reader.read (bytes.length : Int) = (bytes, reader.advance bytes.length) := by
  have nonneg : ¬ (reader.pos : Int) + (bytes.length : Int) < 0 := by omega
  have toNat : ((reader.pos : Int) + (bytes.length : Int)).toNat =
      reader.pos + bytes.length := by omega
  have sliced : slice reader.buffer reader.pos
      ((reader.pos : Int) + (bytes.length : Int)) = bytes := by
    simp only [slice, nonneg, if_false, toNat]
    rw [drop_take, Nat.add_sub_cancel_left, ← unread, next]
    simp
  simp [read, advance, sliced]

theorem read_one_of_unread {byte : UInt8} {rest : Bytes} (next : reader.unread = byte :: rest) :
    reader.read 1 = ([byte], reader.advance 1) :=
  @read_of_unread reader [byte] rest next

end BufferReader

/-! ## Quantities read back -/

/-- The bytes of a quantity that is not zero: seven bits each, the lowest first,
with the high bit set in all bytes but the last. -/
def groupsVQL (value : BitVec 32) : Bytes :=
  if h : value = 0 then []
  else
    let rest := value >>> 7
    let group := UInt8.ofBitVec ((value &&& 0b01111111).setWidth 8)
    (if rest = 0 then group else group ||| 0b10000000) :: groupsVQL rest
termination_by value.toNat
decreasing_by exact ushiftRight_seven_lt h

theorem fillVQL_eq (value : BitVec 32) (done : Bytes) :
    fillVQL (done ++ List.replicate (lengthVQL value) 0) done.length value =
      done ++ groupsVQL value := by
  fun_induction groupsVQL value generalizing done with
  | case1 =>
    rw [fillVQL, lengthVQL]
    simp
  | case2 value nonzero rest group ih =>
    rw [fillVQL, lengthVQL]
    simp only [nonzero, dif_neg, not_false_eq_true]
    have step := ih (done ++ [if rest = 0 then group else group ||| 0b10000000])
    rw [length_append, length_singleton, append_assoc, append_assoc] at step
    rw [replicate_succ, set_append_right _ _ (le_refl _), Nat.sub_self, set_cons_zero]
    exact step

/-- The bytes of a quantity. -/
def encodedVQL (value : BitVec 32) : Bytes :=
  if value = 0 then [0] else groupsVQL value

theorem buffer_writeInt32VQL (writer : BufferWriter) (value : BitVec 32) :
    (writeInt32VQL writer value).buffer = writer.buffer ++ encodedVQL value := by
  have filled := fillVQL_eq value []
  rw [nil_append, length_nil, nil_append] at filled
  rw [writeInt32VQL, encodedVQL]
  split <;> simp [filled]

theorem groupsVQL_of_ne_zero (nonzero : value ≠ 0) : groupsVQL value =
      (if value >>> 7 = 0 then UInt8.ofBitVec ((value &&& 0b01111111).setWidth 8)
        else UInt8.ofBitVec ((value &&& 0b01111111).setWidth 8) ||| 0b10000000) ::
        groupsVQL (value >>> 7) := by
  rw [groupsVQL]
  simp only [nonzero, dif_neg, not_false_eq_true]

theorem getLsbD_low (i : Nat) : (0b01111111 : BitVec 32).getLsbD i = decide (i < 7) := by
  change (BitVec.ofNat 32 (2 ^ 7 - 1)).getLsbD i = _
  rw [BitVec.getLsbD_ofNat, Nat.testBit_two_pow_sub_one]
  by_cases small : i < 7
  · simp [small, show i < 32 by omega]
  · simp [small]

theorem low_or_high (value : BitVec 32) (n : Nat) :
    (value &&& 0b01111111) <<< n ||| (value >>> 7) <<< (n + 7) = value <<< n := by
  apply BitVec.eq_of_getLsbD_eq
  intro i bound
  simp only [BitVec.getLsbD_or, BitVec.getLsbD_shiftLeft, BitVec.getLsbD_and,
    BitVec.getLsbD_ushiftRight, getLsbD_low, bound, decide_true, Bool.true_and]
  by_cases below : i < n
  · simp [below, show i < n + 7 by omega]
  · by_cases low : i < n + 7
    · simp [below, low, show i - n < 7 by omega]
    · simp [below, low, show ¬ i - n < 7 by omega, show 7 + (i - (n + 7)) = i - n by omega]

theorem getLsbD_low_byte (i : Nat) : (0b01111111 : BitVec 8).getLsbD i = decide (i < 7) := by
  change (BitVec.ofNat 8 (2 ^ 7 - 1)).getLsbD i = _
  rw [BitVec.getLsbD_ofNat, Nat.testBit_two_pow_sub_one]
  by_cases small : i < 7
  · simp [small, show i < 8 by omega]
  · simp [small]

/-- The seven bits of a group, read back from its byte. -/
theorem low_of_group (value : BitVec 32) :
    (UInt8.ofBitVec ((value &&& 0b01111111).setWidth 8) &&& 0b01111111).toBitVec.setWidth
      32 = value &&& 0b01111111 := by
  apply BitVec.eq_of_getLsbD_eq
  intro i bound
  rw [UInt8.toBitVec_and]
  simp only [BitVec.getLsbD_setWidth, BitVec.getLsbD_and, getLsbD_low]
  change (decide (i < 32) && (decide (i < 8) && (value.getLsbD i && decide (i < 7)) &&
    (0b01111111 : BitVec 8).getLsbD i)) = _
  rw [getLsbD_low_byte]
  by_cases low : i < 7
  · simp [low, bound, show i < 8 by omega]
  · simp [low]

theorem last_flag (value : BitVec 32) :
    UInt8.ofBitVec ((value &&& 0b01111111).setWidth 8) &&& 0b10000000 = 0 := by
  have all : ∀ byte : BitVec 8, byte &&& 0b01111111 &&& 0b10000000 = 0 := by decide
  apply UInt8.eq_of_toBitVec_eq
  change (value &&& 0b01111111).setWidth 8 &&& 0b10000000 = 0
  rw [BitVec.setWidth_and]
  exact all (value.setWidth 8)

theorem low_of_flagged (group : UInt8) :
    (group ||| 0b10000000) &&& 0b01111111 = group &&& 0b01111111 := by
  have all : ∀ byte : BitVec 8,
      (byte ||| 0b10000000) &&& 0b01111111 = byte &&& 0b01111111 := by decide
  exact UInt8.eq_of_toBitVec_eq (all group.toBitVec)

theorem flagged_flag (group : UInt8) : (group ||| 0b10000000) &&& 0b10000000 ≠ 0 := by
  have all : ∀ byte : BitVec 8, (byte ||| 0b10000000) &&& 0b10000000 ≠ 0 := by decide
  intro zero
  exact all group.toBitVec (congrArg UInt8.toBitVec zero)

variable {rest : Bytes}

/-- The loop reads the groups of a quantity that fits above the bits read so
far. -/
theorem readIntVQLFrom_groupsVQL (nonzero : value ≠ 0) {reader : BufferReader}
    (next : reader.unread = groupsVQL value ++ rest) (acc : BitVec 32) {n : Nat}
    (fits : value.toNat * 2 ^ n < 2 ^ 32) : readIntVQLFrom reader acc n =
      (acc ||| value <<< n, reader.advance (groupsVQL value).length) := by
  induction h : value.toNat using Nat.strong_induction_on generalizing value reader acc n with
  | _ size ih =>
    subst h
    have positive : 0 < value.toNat := by
      have := ushiftRight_seven_lt nonzero
      omega
    have small : n < 32 := by
      have pow : 2 ^ n < 2 ^ 32 := by
        refine lt_of_le_of_lt ?_ fits
        exact Nat.le_mul_of_pos_left _ positive
      exact (Nat.pow_lt_pow_iff_right (by decide)).mp pow
    rw [groupsVQL_of_ne_zero nonzero] at next ⊢
    have read := BufferReader.read_one_of_unread next
    rw [readIntVQLFrom, read]
    simp only [getD_cons_zero, Nat.mod_eq_of_lt small]
    by_cases last : value >>> 7 = 0
    · have none : groupsVQL (value >>> 7) = [] := by
        rw [last, groupsVQL]
        simp
      have whole := low_or_high value n
      rw [last] at whole
      have low : (value &&& 0b01111111) <<< n = value <<< n := by
        rw [← whole]
        simp
      simp only [last_flag, low_of_group, low, last, if_true, dif_pos]
      rw [← last, none]
      rfl
    · simp only [last, if_false, flagged_flag, dif_neg, not_false_eq_true,
        low_of_flagged, low_of_group, length_cons]
      have unread := @BufferReader.unread_advance reader [_] _ next
      rw [length_singleton] at unread
      have shifted : (value >>> 7).toNat * 2 ^ (n + 7) < 2 ^ 32 := by
        rw [BitVec.toNat_ushiftRight, Nat.shiftRight_eq_div_pow]
        calc value.toNat / 2 ^ 7 * 2 ^ (n + 7)
            = value.toNat / 2 ^ 7 * 2 ^ 7 * 2 ^ n := by rw [Nat.pow_add]; ac_rfl
          _ ≤ value.toNat * 2 ^ n := Nat.mul_le_mul_right _ (Nat.div_mul_le_self _ _)
          _ < 2 ^ 32 := fits
      rw [ih _ (ushiftRight_seven_lt nonzero) last unread _ shifted rfl]
      rw [BitVec.or_assoc, low_or_high, BufferReader.advance_advance, Nat.add_comm]

theorem readIntVQL_of_unread {reader : BufferReader}
    (next : reader.unread = encodedVQL value ++ rest) :
    readIntVQL reader = (value, reader.advance (encodedVQL value).length) := by
  by_cases zero : value = 0
  · rw [encodedVQL, if_pos zero] at next ⊢
    have read := BufferReader.read_one_of_unread next
    rw [readIntVQL, readIntVQLFrom, read]
    simp [zero]
  · rw [encodedVQL, if_neg zero] at next ⊢
    have fits : value.toNat * 2 ^ 0 < 2 ^ 32 := by simpa using value.isLt
    rw [readIntVQL, readIntVQLFrom_groupsVQL zero next _ fits]
    simp

/-! ## Values read back -/

def encodedBuffer (type : DataType) (buffer : Bytes) : Bytes :=
  type.toByte :: encodedVQL (BitVec.ofNat 32 buffer.length) ++ buffer

theorem buffer_writeBuffer (writer : BufferWriter) (type : DataType) (buffer : Bytes) :
    (writeBuffer writer type buffer).buffer = writer.buffer ++ encodedBuffer type buffer := by
  simp [writeBuffer, encodedBuffer, buffer_writeInt32VQL]

mutual

/-- The bytes of a value, as `serialize` writes them to an empty writer. -/
def Value.encoded (platform : Platform Object) : Value Object → Bytes
  | .undefined => [DataType.undefined.toByte]
  | .string text => encodedBuffer .string (platform.fromString text)
  | .buffer bytes => encodedBuffer .buffer bytes
  | .vsBuffer bytes => encodedBuffer .vsBuffer bytes
  | .array elements =>
    DataType.array.toByte :: encodedVQL (BitVec.ofNat 32 elements.length) ++
      Value.encodedAll platform elements
  | .int value => DataType.int.toByte :: encodedVQL value.toBitVec
  | .object json =>
    encodedBuffer .object (platform.fromString (platform.stringify json))

def Value.encodedAll (platform : Platform Object) : List (Value Object) → Bytes
  | [] => []
  | element :: elements =>
    element.encoded platform ++ Value.encodedAll platform elements

end

mutual

theorem buffer_serialize (platform : Platform Object) (writer : BufferWriter) :
    (value : Value Object) →
    (serialize platform writer value).buffer = writer.buffer ++ value.encoded platform
  | .undefined => by simp [serialize, Value.encoded]
  | .string text => by simp [serialize, Value.encoded, buffer_writeBuffer]
  | .buffer bytes => by simp [serialize, Value.encoded, buffer_writeBuffer]
  | .vsBuffer bytes => by simp [serialize, Value.encoded, buffer_writeBuffer]
  | .array elements => by
      rw [serialize, buffer_serializeAll platform _ elements]
      simp [Value.encoded, buffer_writeInt32VQL]
  | .int value => by simp [serialize, Value.encoded, buffer_writeInt32VQL]
  | .object json => by simp [serialize, Value.encoded, buffer_writeBuffer]

theorem buffer_serializeAll (platform : Platform Object) (writer : BufferWriter) :
    (elements : List (Value Object)) →
    (serializeAll platform writer elements).buffer =
      writer.buffer ++ Value.encodedAll platform elements
  | [] => by simp [serializeAll, Value.encodedAll]
  | element :: elements => by
      rw [serializeAll, buffer_serializeAll platform _ elements,
        buffer_serialize platform writer element]
      simp [Value.encodedAll]

end

mutual

/-- What is assumed of the values that are sent: the platform undoes its own
conversions on them, and every length that is written is below `2 ^ 31`. -/
def Value.Sendable (platform : Platform Object) : Value Object → Prop
  | .undefined => True
  | .string text =>
    platform.toString (platform.fromString text) = text ∧
      (platform.fromString text).length < 2 ^ 31
  | .buffer bytes => bytes.length < 2 ^ 31
  | .vsBuffer bytes => bytes.length < 2 ^ 31
  | .array elements =>
    elements.length < 2 ^ 31 ∧ Value.AllSendable platform elements
  | .int _ => True
  | .object json =>
    platform.toString (platform.fromString (platform.stringify json)) =
        platform.stringify json ∧
      platform.parse (platform.stringify json) = some json ∧
      (platform.fromString (platform.stringify json)).length < 2 ^ 31

def Value.AllSendable (platform : Platform Object) : List (Value Object) → Prop
  | [] => True
  | element :: elements =>
    element.Sendable platform ∧ Value.AllSendable platform elements

end

theorem toInt_ofNat_of_lt {length : Nat} (bound : length < 2 ^ 31) :
    (BitVec.ofNat 32 length).toInt = (length : Int) := by
  have toNat : (BitVec.ofNat 32 length).toNat = length := by
    rw [BitVec.toNat_ofNat, Nat.mod_eq_of_lt (by omega)]
  rw [BitVec.toInt_eq_toNat_of_lt (by omega), toNat]

theorem readBuffer_of_unread {reader : BufferReader} {buffer rest : Bytes}
    (bound : buffer.length < 2 ^ 31)
    (next : reader.unread = encodedVQL (BitVec.ofNat 32 buffer.length) ++ (buffer ++ rest)) :
    readBuffer reader = (buffer, reader.advance
      ((encodedVQL (BitVec.ofNat 32 buffer.length)).length + buffer.length)) := by
  have unread := BufferReader.unread_advance next
  rw [readBuffer, readIntVQL_of_unread next]
  simp only [toInt_ofNat_of_lt bound]
  rw [BufferReader.read_of_unread unread, BufferReader.advance_advance]

variable {platform : Platform Object}

/-- The type byte of a value is read, and the rest stays for the value. -/
theorem deserializeFrom_type {reader : BufferReader} {type : DataType}
    (next : reader.unread = type.toByte :: rest) :
    DataType.ofByte? (reader.read 1).1.head? = some type ∧
      (reader.read 1).2 = reader.advance 1 ∧ (reader.advance 1).unread = rest := by
  have read := BufferReader.read_one_of_unread next
  refine ⟨?_, ?_, ?_⟩
  · rw [read]
    exact DataType.ofByte?_toByte type
  · rw [read]
  · exact @BufferReader.unread_advance reader [_] _ next

theorem readBuffer_behind_type {reader : BufferReader}
    {buffer rest : Bytes} (bound : buffer.length < 2 ^ 31)
    (next : reader.unread = encodedBuffer type buffer ++ rest) :
    DataType.ofByte? (reader.read 1).1.head? = some type ∧ readBuffer (reader.read 1).2 =
        (buffer, reader.advance (encodedBuffer type buffer).length) := by
  rw [encodedBuffer, cons_append, cons_append, append_assoc] at next
  obtain ⟨typed, moved, unread⟩ := deserializeFrom_type next
  refine ⟨typed, ?_⟩
  rw [moved, readBuffer_of_unread bound unread, BufferReader.advance_advance]
  congr 2
  simp [encodedBuffer]
  omega

mutual

/-- A value is read back from the front of the unread bytes, whatever comes
behind it. -/
theorem deserializeFrom_encoded : (value : Value Object) → (sendable : value.Sendable platform) →
    {depth : Nat} → (deep : (value.encoded platform).length < depth) →
    {reader : BufferReader} → {rest : Bytes} →
    (next : reader.unread = value.encoded platform ++ rest) →
    deserializeFrom platform depth reader =
      .ok (value, reader.advance (value.encoded platform).length)
  | _, _, 0, deep, _, _, _ => absurd deep (Nat.not_lt_zero _)
  | .undefined, _, depth + 1, _, reader, rest, next => by
      obtain ⟨typed, moved, -⟩ := deserializeFrom_type next
      simp only [deserializeFrom, typed, moved, Value.encoded, length_singleton]
  | .string text, sendable, depth + 1, _, reader, rest, next => by
      obtain ⟨same, bound⟩ := sendable
      obtain ⟨typed, read⟩ := readBuffer_behind_type bound next
      simp only [deserializeFrom, typed, read, same, Value.encoded]
  | .buffer bytes, sendable, depth + 1, _, reader, rest, next => by
      obtain ⟨typed, read⟩ := readBuffer_behind_type sendable next
      simp only [deserializeFrom, typed, read, Value.encoded]
  | .vsBuffer bytes, sendable, depth + 1, _, reader, rest, next => by
      obtain ⟨typed, read⟩ := readBuffer_behind_type sendable next
      simp only [deserializeFrom, typed, read, Value.encoded]
  | .array elements, sendable, depth + 1, deep, reader, rest, next => by
      obtain ⟨bound, all⟩ := sendable
      rw [Value.encoded, cons_append, cons_append, append_assoc] at next
      obtain ⟨typed, moved, unread⟩ := deserializeFrom_type next
      have counted := readIntVQL_of_unread unread
      have count : (BitVec.ofNat 32 elements.length).toInt.toNat = elements.length := by
        rw [toInt_ofNat_of_lt bound, Int.toNat_natCast]
      have behind := BufferReader.unread_advance unread
      have shorter : (Value.encodedAll platform elements).length < depth := by
        simp only [Value.encoded, length_cons, length_append] at deep
        omega
      have read := deserializeAll_encoded elements all shorter behind
      simp only [deserializeFrom, typed, moved, counted, count]
      rw [read]
      simp only [bind, Except.bind, Value.encoded, length_cons, length_append,
        BufferReader.advance_advance]
      congr 3
      omega
  | .int value, _, depth + 1, _, reader, rest, next => by
      obtain ⟨typed, moved, unread⟩ := deserializeFrom_type next
      have read := readIntVQL_of_unread unread
      simp only [deserializeFrom, typed, moved, read, Value.encoded, length_cons,
        BufferReader.advance_advance, Int32.ofBitVec_toBitVec]
      congr 3
      omega
  | .object json, sendable, depth + 1, _, reader, rest, next => by
      obtain ⟨same, parsed, bound⟩ := sendable
      obtain ⟨typed, read⟩ := readBuffer_behind_type bound next
      simp only [deserializeFrom, typed, read, same, parsed, Value.encoded]

theorem deserializeAll_encoded :
    (elements : List (Value Object)) →
    (sendable : Value.AllSendable platform elements) →
    {depth : Nat} → (deep : (Value.encodedAll platform elements).length < depth) →
    {reader : BufferReader} → {rest : Bytes} →
    (next : reader.unread = Value.encodedAll platform elements ++ rest) →
    deserializeAll (deserializeFrom platform depth) elements.length reader =
      .ok (elements, reader.advance (Value.encodedAll platform elements).length)
  | [], _, _, _, reader, rest, next => by
      simp [deserializeAll, Value.encodedAll, BufferReader.advance]
  | element :: elements, sendable, depth, deep, reader, rest, next => by
      obtain ⟨first, others⟩ := sendable
      rw [Value.encodedAll, length_append] at deep
      rw [Value.encodedAll, append_assoc] at next
      have short : (element.encoded platform).length < depth := by omega
      have shortAll : (Value.encodedAll platform elements).length < depth := by omega
      have read := deserializeFrom_encoded element first short next
      have readAll := deserializeAll_encoded elements others shortAll
        (BufferReader.unread_advance next)
      rw [length_cons, deserializeAll, read]
      simp only [bind, Except.bind, readAll, BufferReader.advance_advance,
        Value.encodedAll, length_append]

end

theorem deserialize_encoded {value : Value Object} (sendable : value.Sendable platform)
    {reader : BufferReader} (next : reader.unread = value.encoded platform ++ rest) :
    deserialize platform reader = .ok (value, reader.advance (value.encoded platform).length) := by
  have deep : (value.encoded platform).length < reader.left + 1 := by
    rw [BufferReader.left_eq, next, length_append]
    omega
  exact deserializeFrom_encoded value sendable deep next

/-! ## The depth suffices -/

theorem left_readIntVQLFrom_le (reader : BufferReader) (value : BitVec 32) (n : Nat) :
    (readIntVQLFrom reader value n).2.left ≤ reader.left := by
  fun_induction readIntVQLFrom reader value n with
  | case1 reader => exact reader.left_read_le 1
  | case2 reader _ _ _ _ _ ih => exact le_trans ih (reader.left_read_le 1)

theorem left_readBuffer_le (reader : BufferReader) : (readBuffer reader).2.left ≤ reader.left :=
  le_trans (BufferReader.left_read_le _ _) (left_readIntVQLFrom_le reader 0 0)

/-- A read that does not run out of depth, and only moves forward. -/
def Settles {α : Type} (reader : BufferReader)
    (result : Except Failure (α × BufferReader)) : Prop :=
  match result with
  | .ok (_, behind) => behind.left ≤ reader.left
  | .error failure => failure = .syntaxError

theorem Settles.of_le {α : Type} {reader behind : BufferReader}
    {result : Except Failure (α × BufferReader)} (settles : Settles behind result)
    (later : behind.left ≤ reader.left) : Settles reader result := by
  match result, settles with
  | .ok _, settles => exact le_trans settles later
  | .error _, settles => exact settles

theorem Settles.bind {α β : Type} {reader : BufferReader}
    {result : Except Failure (α × BufferReader)} (settles : Settles reader result)
    {next : α × BufferReader → Except Failure (β × BufferReader)}
    (settlesNext : ∀ value behind, behind.left ≤ reader.left →
      Settles behind (next (value, behind))) :
    Settles reader (result >>= next) := by
  match result, settles with
  | .ok (value, behind), settles => exact (settlesNext value behind settles).of_le settles
  | .error _, settles => exact settles

theorem deserializeAll_settles
    {one : BufferReader → Except Failure (Value Object × BufferReader)} {bound : Nat}
    (settles : ∀ reader, reader.left < bound → Settles reader (one reader)) :
    ∀ (count : Nat) (reader : BufferReader), reader.left < bound →
      Settles reader (deserializeAll one count reader) := by
  intro count
  induction count with
  | zero =>
    intro reader _
    exact le_refl reader.left
  | succ count ih =>
    intro reader within
    apply (settles reader within).bind
    intro element behind moved
    apply (ih behind (lt_of_le_of_lt moved within)).bind
    intro elements last _
    exact le_refl last.left

/-- A byte that names a type is a byte that was read. -/
theorem left_behind_type_lt {reader : BufferReader}
    (typed : DataType.ofByte? (reader.read 1).1.head? = some type) :
    (reader.read 1).2.left < reader.left := by
  apply BufferReader.left_read_lt
  intro nothing
  rw [nothing] at typed
  exact absurd typed (by simp [DataType.ofByte?])

theorem deserializeFrom_settles (depth : Nat) : ∀ reader : BufferReader, reader.left < depth →
      Settles reader (deserializeFrom platform depth reader) := by
  induction depth with
  | zero =>
    intro reader within
    exact absurd within (Nat.not_lt_zero _)
  | succ depth ih =>
    intro reader within
    have typeRead := reader.left_read_le 1
    have bufferRead := le_trans (left_readBuffer_le (reader.read 1).2) typeRead
    have intRead := le_trans (left_readIntVQLFrom_le (reader.read 1).2 0 0) typeRead
    simp only [deserializeFrom]
    split
    · exact typeRead
    · exact bufferRead
    · exact bufferRead
    · exact bufferRead
    · next typed =>
        have shorter := left_behind_type_lt typed
        have counted := left_readIntVQLFrom_le (reader.read 1).2 0 0
        have inside : (readIntVQL (reader.read 1).2).2.left < depth := by
          rw [readIntVQL]
          omega
        apply Settles.of_le _ intRead
        apply (deserializeAll_settles ih _ _ inside).bind
        intro elements behind _
        exact le_refl behind.left
    · split
      · exact bufferRead
      · exact rfl
    · exact intRead
    · exact typeRead

/-- `deserialize` only fails where `JSON.parse` throws, as far as the memory and the stack reach:
neither is bounded here. -/
theorem deserialize_settles (reader : BufferReader) :
    Settles reader (deserialize platform reader) :=
  deserializeFrom_settles _ reader (Nat.lt_succ_self _)

/-! ## The round trip -/

theorem unread_append (front bytes rest : Bytes) :
    (BufferReader.mk (front ++ bytes ++ rest) front.length).unread = bytes ++ rest := by
  simp [BufferReader.unread]

/-- Written values are read back, and exactly their bytes are consumed: a value
anywhere in a buffer, and a header with a body behind it in one message. -/
theorem serialized_values_are_read {header body : Value Object}
    (sendableHeader : header.Sendable platform) (sendableBody : body.Sendable platform)
    (front rest : Bytes) :
    let bytes := (serialize platform BufferWriter.new header).buffer
    let message :=
      (serialize platform (serialize platform BufferWriter.new header) body).buffer
    deserialize platform ⟨front ++ bytes ++ rest, front.length⟩ =
        .ok (header, ⟨front ++ bytes ++ rest, (front ++ bytes).length⟩) ∧
      deserialize platform (BufferReader.new message) =
        .ok (header, ⟨message, bytes.length⟩) ∧
      deserialize platform ⟨message, bytes.length⟩ =
        .ok (body, ⟨message, message.length⟩) := by
  intro bytes message
  have written : bytes = header.encoded platform := by
    simp [bytes, buffer_serialize]
  have writtenBoth : message = header.encoded platform ++ body.encoded platform := by
    simp [message, buffer_serialize]
  refine ⟨?_, ?_, ?_⟩
  · rw [written, deserialize_encoded sendableHeader (unread_append _ _ _)]
    simp [BufferReader.advance]
  · have next : (BufferReader.new message).unread =
        header.encoded platform ++ body.encoded platform := by
      simp [BufferReader.unread, BufferReader.new, writtenBoth]
    rw [deserialize_encoded sendableHeader next, written]
    simp [BufferReader.advance, BufferReader.new]
  · have next : (BufferReader.mk message bytes.length).unread =
        body.encoded platform ++ [] := by
      simp [BufferReader.unread, written, writtenBoth]
    rw [deserialize_encoded sendableBody next, written, writtenBoth]
    simp [BufferReader.advance]

/-- A platform for ASCII strings and Booleans. -/
def asciiPlatform : Platform Bool where
  fromString text := text.map UInt16.toUInt8
  toString bytes := bytes.map UInt8.toUInt16
  stringify value :=
    if value then [116, 114, 117, 101] else [102, 97, 108, 115, 101]
  parse text :=
    if text = [116, 114, 117, 101] then some true
    else if text = [102, 97, 108, 115, 101] then some false
    else none

theorem serialized_values_are_read_sample :
    let header := Value.array [.undefined, .int (-1), .array [.string [97]], .object true]
    let body : Value Bool := .vsBuffer [255]
    let bytes := (serialize asciiPlatform BufferWriter.new header).buffer
    let message :=
      (serialize asciiPlatform (serialize asciiPlatform BufferWriter.new header) body).buffer
    deserialize asciiPlatform ⟨[7] ++ bytes ++ [128], 1⟩ =
        .ok (header, ⟨[7] ++ bytes ++ [128], ([7] ++ bytes).length⟩) ∧
      deserialize asciiPlatform (BufferReader.new message) =
        .ok (header, ⟨message, bytes.length⟩) ∧
      deserialize asciiPlatform ⟨message, bytes.length⟩ =
        .ok (body, ⟨message, message.length⟩) := by
  apply serialized_values_are_read
  · simp [Value.Sendable, Value.AllSendable, asciiPlatform]
  · simp [Value.Sendable]

end CodeEditor.Ipc

import CodeEditor.Foundation.Surrogates

/-!
# The serialized edit stack

Model of `SingleModelEditStackData` (`editStack.ts`) and of the reading and writing parts of
`TextChange` (`textChange.ts`), `decodeUTF16LE` (`stringBuilder.ts`) and `buffer.ts`. A read
outside of the array and a typed array that cannot be made give `none`.
-/

namespace CodeEditor.EditStack

/-! ## Numbers in byte arrays -/

def writeUInt8 (destination : Bytes) (value offset : Nat) : Bytes :=
  destination.set offset (UInt8.ofNat value)

def readUInt8 (source : Bytes) (offset : Nat) : Option Nat := do
  let byte ← source[offset]?
  some byte.toNat

def writeUInt16LE (destination : Bytes) (value offset : Nat) : Bytes :=
  (destination.set (offset + 0) (UInt8.ofNat (value &&& 0b11111111))).set (offset + 1)
    (UInt8.ofNat ((value >>> 8) &&& 0b11111111))

def readUInt16LE (source : Bytes) (offset : Nat) : Option Nat := do
  let low ← source[offset + 0]?
  let high ← source[offset + 1]?
  some ((low.toNat <<< 0) ||| (high.toNat <<< 8))

def writeUInt32BE (destination : Bytes) (value offset : Nat) : Bytes :=
  (((destination.set (offset + 3) (UInt8.ofNat value)).set (offset + 2)
    (UInt8.ofNat (value >>> 8))).set (offset + 1)
    (UInt8.ofNat (value >>> 8 >>> 8))).set offset (UInt8.ofNat (value >>> 8 >>> 8 >>> 8))

def readUInt32BE (source : Bytes) (offset : Nat) : Option Nat := do
  let first ← source[offset]?
  let second ← source[offset + 1]?
  let third ← source[offset + 2]?
  let fourth ← source[offset + 3]?
  some (first.toNat * 2 ^ 24 + second.toNat * 2 ^ 16 + third.toNat * 2 ^ 8 + fourth.toNat)

/-! ## Strings -/

/-- `compatDecodeUTF16LE`. -/
def compatDecodeUTF16LE (source : Bytes) : (offset len : Nat) → Option Text
  | _, 0 => some []
  | offset, len + 1 => do
      let charCode ← readUInt16LE source offset
      let rest ← compatDecodeUTF16LE source (offset + 2) len
      some (UInt16.ofNat charCode :: rest)

/-- The first element of a `Uint16Array`, in the byte order of the platform. -/
def viewFirst (isLittleEndian : Bool) (source : Bytes) (offset : Nat) : Option Nat := do
  let first ← source[offset]?
  let second ← source[offset + 1]?
  some (if isLittleEndian then first.toNat + 256 * second.toNat
    else second.toNat + 256 * first.toNat)

/-- `new Uint16Array(buffer, offset, len)` needs an even offset and the bytes to be there. -/
def decodeUTF16LE (isLittleEndian : Bool) (source : Bytes) (offset len : Nat) : Option Text :=
  if offset % 2 ≠ 0 ∨ source.length < offset + 2 * len then none
  else if len > 0 ∧ (viewFirst isLittleEndian source offset = some 0xFEFF ∨
      viewFirst isLittleEndian source offset = some 0xFFFE) then
    compatDecodeUTF16LE source offset len
  else some (decodeTextUTF16LE ((source.drop offset).take (2 * len)))

/-! ## Text changes -/

structure TextChange where
  oldPosition : Nat
  oldText : Text
  newPosition : Nat
  newText : Text
  deriving DecidableEq

namespace TextChange

def writeStringSize (str : Text) : Nat := 4 + 2 * str.length

def writeString (b : Bytes) (str : Text) (offset : Nat) : Bytes × Nat :=
  str.foldl
    (fun (state : Bytes × Nat) unit =>
      (writeUInt16LE state.1 unit.toNat state.2, state.2 + 2))
    (writeUInt32BE b str.length offset, offset + 4)

def readString (isLittleEndian : Bool) (b : Bytes) (offset : Nat) : Option Text := do
  let len ← readUInt32BE b offset
  decodeUTF16LE isLittleEndian b (offset + 4) len

def writeSize (c : TextChange) : Nat :=
  4 + 4 + writeStringSize c.oldText + writeStringSize c.newText

def write (c : TextChange) (b : Bytes) (offset : Nat) : Bytes × Nat :=
  let b := writeUInt32BE b c.oldPosition offset
  let offset := offset + 4
  let b := writeUInt32BE b c.newPosition offset
  let offset := offset + 4
  let (b, offset) := writeString b c.oldText offset
  writeString b c.newText offset

def read (isLittleEndian : Bool) (b : Bytes) (offset : Nat) : Option (TextChange × Nat) := do
  let oldPosition ← readUInt32BE b offset
  let offset := offset + 4
  let newPosition ← readUInt32BE b offset
  let offset := offset + 4
  let oldText ← readString isLittleEndian b offset
  let offset := offset + writeStringSize oldText
  let newText ← readString isLittleEndian b offset
  let offset := offset + writeStringSize newText
  some (⟨oldPosition, oldText, newPosition, newText⟩, offset)

end TextChange

/-! ## The data of the edit stack -/

structure Selection where
  selectionStartLineNumber : Nat
  selectionStartColumn : Nat
  positionLineNumber : Nat
  positionColumn : Nat
  deriving DecidableEq

inductive EndOfLineSequence
  | lf
  | crlf
  deriving DecidableEq

def EndOfLineSequence.toNat : EndOfLineSequence → Nat
  | lf => 0
  | crlf => 1

/-- Other numbers are no sequence. -/
def EndOfLineSequence.ofNat? : Nat → Option EndOfLineSequence
  | 0 => some lf
  | 1 => some crlf
  | _ => none

structure SingleModelEditStackData where
  beforeVersionId : Nat
  afterVersionId : Nat
  beforeEOL : EndOfLineSequence
  afterEOL : EndOfLineSequence
  beforeCursorState : Option (List Selection)
  afterCursorState : Option (List Selection)
  changes : List TextChange
  deriving DecidableEq

namespace SingleModelEditStackData

def writeSelectionsSize (selections : Option (List Selection)) : Nat :=
  4 + 4 * 4 * (selections.map List.length).getD 0

/-- One turn of the loop of `_writeSelections`. -/
def writeSelection (selection : Selection) (b : Bytes) (offset : Nat) : Bytes × Nat :=
  let b := writeUInt32BE b selection.selectionStartLineNumber offset
  let offset := offset + 4
  let b := writeUInt32BE b selection.selectionStartColumn offset
  let offset := offset + 4
  let b := writeUInt32BE b selection.positionLineNumber offset
  let offset := offset + 4
  let b := writeUInt32BE b selection.positionColumn offset
  let offset := offset + 4
  (b, offset)

def writeSelections (selections : Option (List Selection)) (b : Bytes) (offset : Nat) :
    Bytes × Nat :=
  let b := writeUInt32BE b ((selections.map List.length).getD 0) offset
  let offset := offset + 4
  match selections with
  | none => (b, offset)
  | some selections =>
    selections.foldl (fun (state : Bytes × Nat) selection =>
      writeSelection selection state.1 state.2) (b, offset)

/-- The loop of `_readSelections`. -/
def readSelectionsLoop (b : Bytes) : (count offset : Nat) → Option (List Selection × Nat)
  | 0, offset => some ([], offset)
  | count + 1, offset => do
      let selectionStartLineNumber ← readUInt32BE b offset
      let offset := offset + 4
      let selectionStartColumn ← readUInt32BE b offset
      let offset := offset + 4
      let positionLineNumber ← readUInt32BE b offset
      let offset := offset + 4
      let positionColumn ← readUInt32BE b offset
      let offset := offset + 4
      let (rest, offset) ← readSelectionsLoop b count offset
      some (⟨selectionStartLineNumber, selectionStartColumn, positionLineNumber,
        positionColumn⟩ :: rest, offset)

def readSelections (b : Bytes) (offset : Nat) : Option (List Selection × Nat) := do
  let count ← readUInt32BE b offset
  readSelectionsLoop b count (offset + 4)

/-- The loop of `deserialize` over the changes. -/
def readChanges (isLittleEndian : Bool) (b : Bytes) :
    (count offset : Nat) → Option (List TextChange × Nat)
  | 0, offset => some ([], offset)
  | count + 1, offset => do
      let (change, offset) ← TextChange.read isLittleEndian b offset
      let (rest, offset) ← readChanges isLittleEndian b count offset
      some (change :: rest, offset)

def necessarySize (d : SingleModelEditStackData) : Nat :=
  d.changes.foldl (fun size change => size + change.writeSize)
    (4 + 4 + 1 + 1 + writeSelectionsSize d.beforeCursorState +
      writeSelectionsSize d.afterCursorState + 4)

/-- The array `serialize` fills and the offset behind the last change. -/
def writeAll (d : SingleModelEditStackData) (b : Bytes) (offset : Nat) : Bytes × Nat :=
  let b := writeUInt32BE b d.beforeVersionId offset
  let offset := offset + 4
  let b := writeUInt32BE b d.afterVersionId offset
  let offset := offset + 4
  let b := writeUInt8 b d.beforeEOL.toNat offset
  let offset := offset + 1
  let b := writeUInt8 b d.afterEOL.toNat offset
  let offset := offset + 1
  let (b, offset) := writeSelections d.beforeCursorState b offset
  let (b, offset) := writeSelections d.afterCursorState b offset
  let b := writeUInt32BE b d.changes.length offset
  let offset := offset + 4
  d.changes.foldl (fun (state : Bytes × Nat) change => change.write state.1 state.2) (b, offset)

def serialize (d : SingleModelEditStackData) : Bytes :=
  (d.writeAll (List.replicate d.necessarySize 0) 0).1

def deserialize (isLittleEndian : Bool) (b : Bytes) : Option SingleModelEditStackData := do
  let offset := 0
  let beforeVersionId ← readUInt32BE b offset
  let offset := offset + 4
  let afterVersionId ← readUInt32BE b offset
  let offset := offset + 4
  let beforeEOL ← readUInt8 b offset
  let beforeEOL ← EndOfLineSequence.ofNat? beforeEOL
  let offset := offset + 1
  let afterEOL ← readUInt8 b offset
  let afterEOL ← EndOfLineSequence.ofNat? afterEOL
  let offset := offset + 1
  let (beforeCursorState, offset) ← readSelections b offset
  let (afterCursorState, offset) ← readSelections b offset
  let changeCount ← readUInt32BE b offset
  let offset := offset + 4
  let (changes, _) ← readChanges isLittleEndian b changeCount offset
  some
    { beforeVersionId, afterVersionId, beforeEOL, afterEOL
      beforeCursorState := some beforeCursorState
      afterCursorState := some afterCursorState
      changes }

end SingleModelEditStackData

end CodeEditor.EditStack

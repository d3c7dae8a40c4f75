import CodeEditor.TextBuffer.TextBuffer

/-!
# Building a text buffer from chunks

Model of `createLineStarts` in `pieceTreeBase.ts` and of `PieceTreeTextBufferBuilder` and
`PieceTreeTextBufferFactory` in `pieceTreeTextBufferBuilder.ts`. A chunk that ends in `\r`
or in a high surrogate is kept back by one character.
-/

namespace CodeEditor.TextBuffer

open PieceTree

/-! ## Line starts -/

structure LineStarts where
  lineStarts : List Nat
  cr : Nat
  lf : Nat
  crlf : Nat
  isBasicASCII : Bool
  deriving DecidableEq

namespace LineStarts

def addCR (r : LineStarts) (start : Nat) : LineStarts :=
  { r with lineStarts := start :: r.lineStarts, cr := r.cr + 1 }

def addLF (r : LineStarts) (start : Nat) : LineStarts :=
  { r with lineStarts := start :: r.lineStarts, lf := r.lf + 1 }

def addCRLF (r : LineStarts) (start : Nat) : LineStarts :=
  { r with lineStarts := start :: r.lineStarts, crlf := r.crlf + 1 }

/-- A character that is no line break. -/
def addChar (r : LineStarts) (chr : CodeUnit) : LineStarts :=
  if chr ≠ 9 ∧ (chr < 32 ∨ chr > 126) then { r with isBasicASCII := false } else r

end LineStarts

/-- The loop of `createLineStarts` from an index on. -/
def createLineStartsFrom : (i : Nat) → Text → LineStarts
  | _, [] => ⟨[], 0, 0, 0, true⟩
  | i, [chr] =>
    let r : LineStarts := ⟨[], 0, 0, 0, true⟩
    if chr = CR then r.addCR (i + 1)
    else if chr = LF then r.addLF (i + 1)
    else r.addChar chr
  | i, chr :: following :: rest =>
    if chr = CR then
      if following = LF then (createLineStartsFrom (i + 2) rest).addCRLF (i + 2)
      else (createLineStartsFrom (i + 1) (following :: rest)).addCR (i + 1)
    else if chr = LF then (createLineStartsFrom (i + 1) (following :: rest)).addLF (i + 1)
    else (createLineStartsFrom (i + 1) (following :: rest)).addChar chr

def createLineStarts (str : Text) : LineStarts :=
  let r := createLineStartsFrom 0 str
  { r with lineStarts := 0 :: r.lineStarts }

/-! ## The factory -/

def UTF8_BOM : CodeUnit := 0xFEFF

def startsWithUTF8BOM (str : Text) : Bool := str.head? = some UTF8_BOM

structure PieceTreeTextBufferFactory where
  chunks : List StringBuffer
  bom : Text
  cr : Nat
  lf : Nat
  crlf : Nat
  containsRTL : Bool
  containsUnusualLineTerminators : Bool
  isBasicASCII : Bool
  normalizeEOL : Bool

namespace PieceTreeTextBufferFactory

def getEOL (f : PieceTreeTextBufferFactory) (defaultEOL : EOL) : EOL :=
  let totalEOLCount := f.cr + f.lf + f.crlf
  let totalCRCount := f.cr + f.crlf
  if totalEOLCount = 0 then defaultEOL
  else if 2 * totalCRCount > totalEOLCount then .crlf
  else .lf

/-- The chunks with the line breaks that `create` asks for. -/
def createChunks (f : PieceTreeTextBufferFactory) (eol : EOL) : List StringBuffer :=
  if f.normalizeEOL ∧ (eol = .crlf ∧ (f.cr > 0 ∨ f.lf > 0) ∨
      eol = .lf ∧ (f.cr > 0 ∨ f.crlf > 0)) then
    f.chunks.map fun chunk =>
      let str := replaceEOL eol.text chunk.buffer
      ⟨str, createLineStartsFast str⟩
  else f.chunks

def create (f : PieceTreeTextBufferFactory) (defaultEOL : EOL) : Option PieceTreeTextBuffer :=
  let eol := f.getEOL defaultEOL
  PieceTreeTextBuffer.new (f.createChunks eol) f.bom eol f.containsRTL
    f.containsUnusualLineTerminators f.isBasicASCII f.normalizeEOL

end PieceTreeTextBufferFactory

/-! ## The builder -/

structure PieceTreeTextBufferBuilder where
  chunks : List StringBuffer
  BOM : Text
  hasPreviousChar : Bool
  previousChar : CodeUnit
  cr : Nat
  lf : Nat
  crlf : Nat
  containsRTL : Bool
  containsUnusualLineTerminators : Bool
  isBasicASCII : Bool

namespace PieceTreeTextBufferBuilder

/-- The constructor. -/
def new : PieceTreeTextBufferBuilder where
  chunks := []
  BOM := []
  hasPreviousChar := false
  previousChar := 0
  cr := 0
  lf := 0
  crlf := 0
  containsRTL := false
  containsUnusualLineTerminators := false
  isBasicASCII := true

def acceptChunk2 (b : PieceTreeTextBufferBuilder) (chunk : Text) : PieceTreeTextBufferBuilder :=
  let lineStarts := createLineStarts chunk
  let b := { b with
    chunks := b.chunks ++ [⟨chunk, lineStarts.lineStarts⟩]
    cr := b.cr + lineStarts.cr
    lf := b.lf + lineStarts.lf
    crlf := b.crlf + lineStarts.crlf }
  if lineStarts.isBasicASCII then b
  else
    { b with
      isBasicASCII := false
      containsRTL := if b.containsRTL then true else TextBuffer.containsRTL chunk
      containsUnusualLineTerminators :=
        if b.containsUnusualLineTerminators then true
        else TextBuffer.containsUnusualLineTerminators chunk }

def acceptChunk1 (b : PieceTreeTextBufferBuilder) (chunk : Text) (allowEmptyStrings : Bool) :
    PieceTreeTextBufferBuilder :=
  if !allowEmptyStrings && chunk.length = 0 then b
  else if b.hasPreviousChar then b.acceptChunk2 (b.previousChar :: chunk)
  else b.acceptChunk2 chunk

/-- The last character is `\r` or a high surrogate and is kept back. -/
def keptBack (lastChar : CodeUnit) : Bool :=
  lastChar = CR || 0xD800 ≤ lastChar && lastChar ≤ 0xDBFF

/-- The part of `acceptChunk` behind the byte order mark; the last character of an empty
chunk is no number, and is not kept back. -/
def acceptRest (b : PieceTreeTextBufferBuilder) (chunk : Text) : PieceTreeTextBufferBuilder :=
  let lastChar := chunk.getLastD 0
  if keptBack lastChar then
    { b.acceptChunk1 chunk.dropLast false with
      hasPreviousChar := true
      previousChar := lastChar }
  else
    { b.acceptChunk1 chunk false with
      hasPreviousChar := false
      previousChar := lastChar }

def acceptChunk (b : PieceTreeTextBufferBuilder) (chunk : Text) : PieceTreeTextBufferBuilder :=
  if chunk.length = 0 then b
  else if b.chunks.length = 0 && startsWithUTF8BOM chunk then
    { b with BOM := [UTF8_BOM] }.acceptRest (chunk.drop 1)
  else b.acceptRest chunk

/-- The last chunk with one more character. -/
def recreateLastChunk (chunks : List StringBuffer) (chr : CodeUnit) : List StringBuffer :=
  chunks.modify (chunks.length - 1) fun lastChunk =>
    ⟨lastChunk.buffer ++ [chr], createLineStartsFast (lastChunk.buffer ++ [chr])⟩

/-- The second part of `_finish`: the last chunk is made anew with the character that was
kept back. -/
def putBack (b : PieceTreeTextBufferBuilder) : PieceTreeTextBufferBuilder :=
  if b.hasPreviousChar then
    { b with
      hasPreviousChar := false
      chunks := recreateLastChunk b.chunks b.previousChar
      cr := if b.previousChar = CR then b.cr + 1 else b.cr }
  else b

/-- `_finish`. -/
def finishChunks (b : PieceTreeTextBufferBuilder) : PieceTreeTextBufferBuilder :=
  if b.chunks.length = 0 then (b.acceptChunk1 [] true).putBack else b.putBack

def finish (b : PieceTreeTextBufferBuilder) (normalizeEOL : Bool) : PieceTreeTextBufferFactory :=
  let b := b.finishChunks
  { chunks := b.chunks, bom := b.BOM, cr := b.cr, lf := b.lf, crlf := b.crlf,
    containsRTL := b.containsRTL,
    containsUnusualLineTerminators := b.containsUnusualLineTerminators,
    isBasicASCII := b.isBasicASCII, normalizeEOL }

/-- The builder behind a sequence of chunks. -/
def acceptAll (chunks : List Text) : PieceTreeTextBufferBuilder :=
  chunks.foldl acceptChunk new

end PieceTreeTextBufferBuilder

end CodeEditor.TextBuffer

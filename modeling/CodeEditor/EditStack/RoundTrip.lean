import CodeEditor.EditStack.EditStackData

/-!
# Reading a serialized edit stack back

What `serialize` writes is the concatenation of its fields, and all fields but the end of
line sequences have an even size. Texts come back unless the platform decoder replaces a
surrogate in them.
-/

namespace CodeEditor.EditStack

open List Option Nat

/-! ## Numbers -/

theorem writes_uint32BE (value : Nat) :
    Writes (fun b offset => (writeUInt32BE b value offset, offset + 4)) (bytesBE 4 value) := by
  intro written rest room
  obtain _ | ⟨first, _ | ⟨second, _ | ⟨third, _ | ⟨fourth, rest⟩⟩⟩⟩ := rest
  · simp at room
  · simp at room
  · simp at room
  · simp at room
  · have shift : ∀ n : Nat, n >>> 8 = n / 256 := fun n => shiftRight_eq_div_pow n 8
    simp [writeUInt32BE, bytesBE, shift]

theorem writes_uint8 (value : Nat) :
    Writes (fun b offset => (writeUInt8 b value offset, offset + 1)) [UInt8.ofNat value] := by
  intro written rest room
  cases rest with
  | nil => simp at room
  | cons first rest => simp [writeUInt8]

theorem writes_uint16LE (unit : CodeUnit) :
    Writes (fun b offset => (writeUInt16LE b unit.toNat offset, offset + 2))
      [UInt8.ofNat unit.toNat, UInt8.ofNat (unit.toNat / 256)] := by
  intro written rest room
  obtain _ | ⟨first, _ | ⟨second, rest⟩⟩ := rest
  · simp at room
  · simp at room
  · have low : ∀ n : Nat, UInt8.ofNat (n &&& 255) = UInt8.ofNat n := by
      intro n
      apply UInt8.toNat_inj.mp
      rw [UInt8.toNat_ofNat', UInt8.toNat_ofNat', and_two_pow_sub_one_eq_mod n 8]
      omega
    have shift : unit.toNat >>> 8 = unit.toNat / 256 := shiftRight_eq_div_pow _ 8
    simp [writeUInt16LE, low, shift]

variable {source back : Bytes} {text : Text}

theorem readUInt32BE_of_drop {offset value : Nat}
    (unread : source.drop offset = bytesBE 4 value ++ back) :
    readUInt32BE source offset = some (value % 2 ^ 32) := by
  have at0 := getElem?_of_drop unread 0
  have at1 := getElem?_of_drop unread 1
  have at2 := getElem?_of_drop unread 2
  have at3 := getElem?_of_drop unread 3
  simp only [bytesBE, nil_append, cons_append, getElem?_cons_zero,
    getElem?_cons_succ, add_zero] at at0 at1 at2 at3
  simp only [readUInt32BE, at0, at1, at2, at3, bind_eq_bind, bind_some, UInt8.toNat_ofNat']
  congr 1
  omega

theorem readUInt8_of_drop {offset value : Nat} (small : value < 256)
    (unread : source.drop offset = [UInt8.ofNat value] ++ back) :
    readUInt8 source offset = some value := by
  have at0 := getElem?_of_drop unread 0
  simp only [singleton_append, getElem?_cons_zero, add_zero] at at0
  simp only [readUInt8, at0, bind_eq_bind, bind_some, UInt8.toNat_ofNat']
  congr 1
  omega

theorem EndOfLineSequence.toNat_lt (eol : EndOfLineSequence) : eol.toNat < 256 := by
  cases eol <;> decide

theorem EndOfLineSequence.ofNat?_toNat (eol : EndOfLineSequence) : ofNat? eol.toNat = some eol := by
  cases eol <;> rfl

/-! ## Strings -/

/-- The text starts with a byte order mark, in one of the two byte orders. -/
def isMarked (text : Text) : Bool :=
  text.head? == some 0xFEFF || text.head? == some 0xFFFE

/-- What `decodeUTF16LE` makes of the code units of a text. -/
def decoded (text : Text) : Text := if isMarked text then text else replaceUnpaired text

theorem length_decoded (text : Text) : (decoded text).length = text.length := by
  rw [decoded]
  split
  · rfl
  · exact length_replaceUnpaired text

theorem decoded_eq_self_iff :
    decoded text = text ↔ isMarked text = true ∨ isWellFormed text = true := by
  rw [decoded]
  split
  · simp_all
  · simp_all [replaceUnpaired_eq_self_iff]

theorem compatDecodeUTF16LE_of_drop (unread : source.drop offset = bytesLE text ++ back) :
    compatDecodeUTF16LE source offset text.length = some text := by
  induction text generalizing offset with
  | nil => rfl
  | cons unit text ih =>
    have low := getElem?_of_drop unread 0
    have high := getElem?_of_drop unread 1
    have rest := @ih (offset + 2)
      (@drop_add_of_drop _ [UInt8.ofNat unit.toNat, UInt8.ofNat (unit.toNat / 256)] _ _ unread)
    simp only [bytesLE_cons, cons_append, getElem?_cons_zero, getElem?_cons_succ] at low high
    have joined : (UInt8.ofNat unit.toNat).toNat <<< 0 |||
        (UInt8.ofNat (unit.toNat / 256)).toNat <<< 8 =
        (UInt8.ofNat unit.toNat).toNat + 256 * (UInt8.ofNat (unit.toNat / 256)).toNat := by
      have below := (UInt8.ofNat unit.toNat).toNat_lt
      rw [Nat.shiftLeft_zero, Nat.or_comm, Nat.shiftLeft_eq, Nat.mul_comm,
        ← Nat.two_pow_add_eq_or_of_lt below, Nat.add_comm]
    rw [length_cons, compatDecodeUTF16LE, readUInt16LE, low, high]
    simp only [bind_eq_bind, bind_some, rest]
    rw [joined, unit_of_bytes]

/-- Both byte orders see a byte order mark. -/
theorem viewFirst_marked {unit : CodeUnit}
    (isLittleEndian : Bool) (unread : source.drop offset = bytesLE (unit :: text) ++ back) :
    (viewFirst isLittleEndian source offset = some 0xFEFF ∨
      viewFirst isLittleEndian source offset = some 0xFFFE) ↔
      unit = 0xFEFF ∨ unit = 0xFFFE := by
  have low := getElem?_of_drop unread 0
  have high := getElem?_of_drop unread 1
  simp only [bytesLE_cons, cons_append, getElem?_cons_zero,
    getElem?_cons_succ, add_zero] at low high
  have bound := unit.toNat_lt
  have mark : unit = 0xFEFF ↔ unit.toNat = 0xFEFF := UInt16.toNat_inj.symm
  have mark' : unit = 0xFFFE ↔ unit.toNat = 0xFFFE := UInt16.toNat_inj.symm
  rw [mark, mark']
  simp only [viewFirst, low, high, bind_eq_bind, bind_some, UInt8.toNat_ofNat', Option.some.injEq]
  cases isLittleEndian
  · simp only [Bool.false_eq_true, if_false]
    omega
  · simp only [if_true]
    omega

theorem decodeUTF16LE_of_drop {offset : Nat}
    (isLittleEndian : Bool) (even : offset % 2 = 0) (inside : offset ≤ source.length)
    (unread : source.drop offset = bytesLE text ++ back) :
    decodeUTF16LE isLittleEndian source offset text.length = some (decoded text) := by
  have length : source.length = offset + (2 * text.length + back.length) := by
    have both := congrArg List.length unread
    rw [length_drop, length_append, length_bytesLE] at both
    omega
  have fits : ¬(offset % 2 ≠ 0 ∨ source.length < offset + 2 * text.length) := by omega
  have bytes : (source.drop offset).take (2 * text.length) = bytesLE text := by
    rw [unread, ← length_bytesLE, take_left]
  have compat := compatDecodeUTF16LE_of_drop unread
  rw [decodeUTF16LE, if_neg fits, bytes, decodeTextUTF16LE, unitsLE_bytesLE]
  cases text with
  | nil =>
    rfl
  | cons unit text =>
    have marked := viewFirst_marked isLittleEndian unread
    by_cases isMark : unit = 0xFEFF ∨ unit = 0xFFFE
    · have seen : isMarked (unit :: text) = true := by simpa [isMarked] using isMark
      rw [if_pos ⟨by simp, marked.mpr isMark⟩, compat, decoded, if_pos seen]
    · have unseen : isMarked (unit :: text) = false := by simpa [isMarked] using isMark
      have noMark : ¬((unit :: text).head? = some byteOrderMark) := by
        simp only [head?_cons, Option.some.injEq, byteOrderMark]
        exact fun isFirst => isMark (.inl isFirst)
      rw [if_neg fun both => isMark (marked.mp both.2), decoded, unseen]
      simp only [noMark, if_false, Bool.false_eq_true]

/-- The part of a text that its written length tells of. -/
def counted (text : Text) : Text := text.take (text.length % 2 ^ 32)

/-- What comes back when a text is written and read. -/
def recovered (text : Text) : Text := decoded (counted text)

theorem length_recovered (text : Text) : (recovered text).length = text.length % 2 ^ 32 := by
  rw [recovered, length_decoded, counted, length_take]
  exact min_eq_left (mod_le _ _)

/-- The text is short enough for its length to be written, and the decoder leaves it alone. -/
def Recoverable (text : Text) : Prop :=
  text.length < 2 ^ 32 ∧ (isMarked text = true ∨ isWellFormed text = true)

instance (text : Text) : Decidable (Recoverable text) := inferInstanceAs (Decidable (_ ∧ _))

theorem recovered_eq_self_iff : recovered text = text ↔ Recoverable text := by
  constructor
  · intro same
    have length := length_recovered text
    rw [same] at length
    have short : text.length < 2 ^ 32 := by omega
    refine ⟨short, ?_⟩
    rw [recovered, counted, mod_eq_of_lt short, take_length] at same
    exact decoded_eq_self_iff.mp same
  · rintro ⟨short, decodes⟩
    rw [recovered, counted, mod_eq_of_lt short, take_length]
    exact decoded_eq_self_iff.mpr decodes

namespace TextChange

def encodedString (str : Text) : Bytes := bytesBE 4 str.length ++ bytesLE str

@[simp] theorem length_encodedString (str : Text) :
    (encodedString str).length = writeStringSize str := by
  simp [encodedString, writeStringSize]

theorem writes_writeString (str : Text) :
    Writes (fun b offset => writeString b str offset) (encodedString str) :=
  (writes_uint32BE str.length).seq (Writes.foldl writes_uint16LE str)

variable {source back : Bytes} {c : TextChange}

theorem readString_of_drop {offset : Nat} (isLittleEndian : Bool) (even : offset % 2 = 0)
    (unread : source.drop offset = encodedString str ++ back) :
    readString isLittleEndian source offset = some (recovered str) := by
  rw [encodedString, append_assoc] at unread
  have len := readUInt32BE_of_drop unread
  have rest := drop_add_of_drop unread
  have inside : offset + 4 ≤ source.length := by
    have both := congrArg List.length unread
    rw [length_drop, length_append, length_bytesBE] at both
    omega
  have length : (counted str).length = str.length % 2 ^ 32 := by
    rw [counted, length_take]
    exact min_eq_left (mod_le _ _)
  have parts : bytesLE str = bytesLE (counted str) ++
      (bytesLE str).drop (2 * (counted str).length) := by
    have taken := take_bytesLE str (counted str).length
    nth_rewrite 2 [length] at taken
    rw [← counted] at taken
    rw [← taken, take_append_drop]
  rw [length_bytesBE, parts, append_assoc] at rest
  rw [readString, len]
  rw [← length]
  exact decodeUTF16LE_of_drop isLittleEndian (by omega) inside rest

def encoded (c : TextChange) : Bytes :=
  bytesBE 4 c.oldPosition ++ (bytesBE 4 c.newPosition ++
    (encodedString c.oldText ++ encodedString c.newText))

@[simp] theorem length_encoded (c : TextChange) : c.encoded.length = c.writeSize := by
  simp only [encoded, length_append, length_bytesBE, length_encodedString, writeSize]
  omega

theorem writes_write (c : TextChange) : Writes c.write c.encoded :=
  (writes_uint32BE c.oldPosition).seq ((writes_uint32BE c.newPosition).seq
    ((writes_writeString c.oldText).seq (writes_writeString c.newText)))

/-- The old text comes first; the new text is looked for behind what was read of it. -/
theorem read_of_drop {offset : Nat} (isLittleEndian : Bool) (even : offset % 2 = 0)
    (oldPosition : c.oldPosition < 2 ^ 32) (newPosition : c.newPosition < 2 ^ 32)
    (unread : source.drop offset = c.encoded ++ back) :
    read isLittleEndian source offset = (readString isLittleEndian source
        (offset + 4 + 4 + writeStringSize (recovered c.oldText))).bind fun newText =>
          some (⟨c.oldPosition, recovered c.oldText, c.newPosition, newText⟩,
            offset + 4 + 4 + writeStringSize (recovered c.oldText) + writeStringSize newText) := by
  simp only [encoded, append_assoc] at unread
  have first := readUInt32BE_of_drop unread
  have unread1 := drop_add_of_drop unread
  rw [length_bytesBE] at unread1
  have second := readUInt32BE_of_drop unread1
  have unread2 := drop_add_of_drop unread1
  rw [length_bytesBE] at unread2
  have old := readString_of_drop isLittleEndian (by omega) unread2
  rw [mod_eq_of_lt oldPosition] at first
  rw [mod_eq_of_lt newPosition] at second
  simp only [read, first, second, old, bind_eq_bind, bind_some]

theorem read_newText_of_drop {offset : Nat}
    (isLittleEndian : Bool) (even : offset % 2 = 0) (short : c.oldText.length < 2 ^ 32)
    (unread : source.drop offset = c.encoded ++ back) :
    readString isLittleEndian source
        (offset + 4 + 4 + writeStringSize (recovered c.oldText)) = some (recovered c.newText) ∧
      writeStringSize (recovered c.oldText) = writeStringSize c.oldText := by
  simp only [encoded, append_assoc] at unread
  have unread1 := drop_add_of_drop unread
  have unread2 := drop_add_of_drop unread1
  have unread3 := drop_add_of_drop unread2
  have same : writeStringSize (recovered c.oldText) = writeStringSize c.oldText := by
    rw [writeStringSize, length_recovered, mod_eq_of_lt short, writeStringSize]
  rw [length_bytesBE, length_bytesBE, length_encodedString] at unread3
  rw [same]
  refine ⟨readString_of_drop isLittleEndian ?_ unread3, rfl⟩
  rw [writeStringSize]
  omega

/-- A change whose texts have a length that can be written is read from its own bytes. -/
theorem read_short {offset : Nat} (isLittleEndian : Bool) (even : offset % 2 = 0)
    (oldPosition : c.oldPosition < 2 ^ 32) (newPosition : c.newPosition < 2 ^ 32)
    (oldShort : c.oldText.length < 2 ^ 32) (newShort : c.newText.length < 2 ^ 32)
    (unread : source.drop offset = c.encoded ++ back) :
    read isLittleEndian source offset =
      some (⟨c.oldPosition, recovered c.oldText, c.newPosition, recovered c.newText⟩,
        offset + c.writeSize) := by
  obtain ⟨new, same⟩ := read_newText_of_drop isLittleEndian even oldShort unread
  have same' : writeStringSize (recovered c.newText) = writeStringSize c.newText := by
    rw [writeStringSize, length_recovered, mod_eq_of_lt newShort, writeStringSize]
  rw [read_of_drop isLittleEndian even oldPosition newPosition unread, new, bind_some,
    same, same', writeSize]
  congr 2
  omega

/-- A change that is read as it was has recoverable texts. -/
theorem recoverable_of_read {offset next : Nat} (even : offset % 2 = 0)
    (oldPosition : c.oldPosition < 2 ^ 32) (newPosition : c.newPosition < 2 ^ 32)
    (unread : source.drop offset = c.encoded ++ back)
    (same : read isLittleEndian source offset = some (c, next)) :
    Recoverable c.oldText ∧ Recoverable c.newText := by
  rw [read_of_drop isLittleEndian even oldPosition newPosition unread] at same
  obtain ⟨newText, isNew, pair⟩ := bind_eq_some_iff.mp same
  have fields := congrArg Prod.fst (Option.some.inj pair)
  have old : recovered c.oldText = c.oldText := congrArg TextChange.oldText fields
  have new : newText = c.newText := congrArg TextChange.newText fields
  have oldRecoverable := recovered_eq_self_iff.mp old
  refine ⟨oldRecoverable, ?_⟩
  rw [(read_newText_of_drop isLittleEndian even oldRecoverable.1 unread).1, new] at isNew
  exact recovered_eq_self_iff.mp (Option.some.inj isNew)

end TextChange

namespace SingleModelEditStackData

/-! ## Selections -/

def encodedSelection (s : Selection) : Bytes :=
  bytesBE 4 s.selectionStartLineNumber ++ (bytesBE 4 s.selectionStartColumn ++
    (bytesBE 4 s.positionLineNumber ++ bytesBE 4 s.positionColumn))

theorem writes_writeSelection (s : Selection) : Writes (writeSelection s) (encodedSelection s) :=
  (writes_uint32BE s.selectionStartLineNumber).seq ((writes_uint32BE s.selectionStartColumn).seq
      ((writes_uint32BE s.positionLineNumber).seq (writes_uint32BE s.positionColumn)))

def encodedSelections (selections : Option (List Selection)) : Bytes :=
  bytesBE 4 (selections.getD []).length ++ (selections.getD []).flatMap encodedSelection

theorem length_flatMap_encodedSelection (selections : List Selection) :
    (selections.flatMap encodedSelection).length = 16 * selections.length := by
  induction selections with
  | nil => rfl
  | cons s selections ih =>
    rw [flatMap_cons, length_append, ih, length_cons]
    simp only [encodedSelection, length_append, length_bytesBE]
    omega

theorem length_encodedSelections (selections : Option (List Selection)) :
    (encodedSelections selections).length = writeSelectionsSize selections := by
  rw [encodedSelections, length_append, length_bytesBE, length_flatMap_encodedSelection,
    writeSelectionsSize]
  cases selections <;> rfl

theorem writes_writeSelections (selections : Option (List Selection)) :
    Writes (writeSelections selections) (encodedSelections selections) := by
  cases selections with
  | none => exact (writes_uint32BE 0).seq Writes.nil
  | some selections =>
    exact (writes_uint32BE selections.length).seq (Writes.foldl writes_writeSelection selections)

/-- The coordinates fit in 32 bits. -/
def SelectionFits (s : Selection) : Prop :=
  s.selectionStartLineNumber < 2 ^ 32 ∧ s.selectionStartColumn < 2 ^ 32 ∧
    s.positionLineNumber < 2 ^ 32 ∧ s.positionColumn < 2 ^ 32

instance (s : Selection) : Decidable (SelectionFits s) :=
  inferInstanceAs (Decidable (_ ∧ _ ∧ _ ∧ _))

variable {source back : Bytes}

theorem readSelectionsLoop_of_drop {selections : List Selection}
    (fits : ∀ s ∈ selections, SelectionFits s)
    (unread : source.drop offset = selections.flatMap encodedSelection ++ back) :
    readSelectionsLoop source selections.length offset =
      some (selections, offset + 16 * selections.length) := by
  induction selections generalizing offset with
  | nil => rfl
  | cons s selections ih =>
    obtain ⟨startLine, startColumn, line, column⟩ := fits s (by simp)
    rw [flatMap_cons] at unread
    simp only [encodedSelection, append_assoc] at unread
    have first := readUInt32BE_of_drop unread
    have unread1 := drop_add_of_drop unread
    have second := readUInt32BE_of_drop unread1
    have unread2 := drop_add_of_drop unread1
    have third := readUInt32BE_of_drop unread2
    have unread3 := drop_add_of_drop unread2
    have fourth := readUInt32BE_of_drop unread3
    have unread4 := drop_add_of_drop unread3
    simp only [length_bytesBE] at second third fourth unread4
    have rest := ih (fun other member => fits other (mem_cons_of_mem _ member)) unread4
    rw [mod_eq_of_lt startLine] at first
    rw [mod_eq_of_lt startColumn] at second
    rw [mod_eq_of_lt line] at third
    rw [mod_eq_of_lt column] at fourth
    simp only [length_cons, readSelectionsLoop, first, second, third, fourth, rest,
      bind_eq_bind, bind_some]
    congr 2
    omega

theorem readSelections_of_drop {selections : Option (List Selection)}
    (count : (selections.getD []).length < 2 ^ 32)
    (fits : ∀ s ∈ selections.getD [], SelectionFits s)
    (unread : source.drop offset = encodedSelections selections ++ back) :
    readSelections source offset =
      some (selections.getD [], offset + (encodedSelections selections).length) := by
  rw [encodedSelections, append_assoc] at unread
  have len := readUInt32BE_of_drop unread
  have rest := drop_add_of_drop unread
  rw [length_bytesBE] at rest
  rw [readSelections, len, mod_eq_of_lt count]
  simp only [bind_eq_bind, bind_some]
  rw [readSelectionsLoop_of_drop fits rest, encodedSelections, length_append,
    length_bytesBE, length_flatMap_encodedSelection, add_assoc]

/-! ## The whole -/

def header (d : SingleModelEditStackData) : Bytes :=
  bytesBE 4 d.beforeVersionId ++ (bytesBE 4 d.afterVersionId ++
    ([UInt8.ofNat d.beforeEOL.toNat] ++ ([UInt8.ofNat d.afterEOL.toNat] ++
      (encodedSelections d.beforeCursorState ++ (encodedSelections d.afterCursorState ++
        bytesBE 4 d.changes.length)))))

theorem length_header (d : SingleModelEditStackData) :
    d.header.length = 4 + 4 + 1 + 1 + writeSelectionsSize d.beforeCursorState +
      writeSelectionsSize d.afterCursorState + 4 := by
  simp only [header, length_append, length_bytesBE, length_encodedSelections, length_singleton]
  omega

def encoded (d : SingleModelEditStackData) : Bytes :=
  d.header ++ d.changes.flatMap TextChange.encoded

theorem length_flatMap_encoded (changes : List TextChange) :
    (changes.flatMap TextChange.encoded).length = (changes.map TextChange.writeSize).sum := by
  induction changes with
  | nil => rfl
  | cons c changes ih =>
    rw [flatMap_cons, length_append, ih, TextChange.length_encoded, map_cons, sum_cons]

theorem length_encoded (d : SingleModelEditStackData) : d.encoded.length = d.necessarySize := by
  have loop : ∀ (changes : List TextChange) (size : Nat),
      changes.foldl (fun size change => size + change.writeSize) size =
        size + (changes.map TextChange.writeSize).sum := by
    intro changes
    induction changes with
    | nil => simp
    | cons c changes ih =>
      intro size
      rw [foldl_cons, ih, map_cons, sum_cons, add_assoc]
  rw [encoded, length_append, length_header, length_flatMap_encoded, necessarySize, loop]

theorem writes_writeAll (d : SingleModelEditStackData) : Writes d.writeAll d.encoded := by
  have fields := (writes_uint32BE d.beforeVersionId).seq ((writes_uint32BE d.afterVersionId).seq
    ((writes_uint8 d.beforeEOL.toNat).seq ((writes_uint8 d.afterEOL.toNat).seq
      ((writes_writeSelections d.beforeCursorState).seq
        ((writes_writeSelections d.afterCursorState).seq (writes_uint32BE d.changes.length))))))
  exact fields.seq (Writes.foldl TextChange.writes_write d.changes)

/-- The fields one after the other, without a gap. -/
theorem serialize_eq (d : SingleModelEditStackData) : d.serialize = d.encoded :=
  d.writes_writeAll.whole d.length_encoded

/-- The positions fit in 32 bits. -/
def ChangeFits (c : TextChange) : Prop := c.oldPosition < 2 ^ 32 ∧ c.newPosition < 2 ^ 32

instance (c : TextChange) : Decidable (ChangeFits c) := inferInstanceAs (Decidable (_ ∧ _))

/-- The platform decoder does not change the texts of the change. -/
def ChangeRecoverable (c : TextChange) : Prop := Recoverable c.oldText ∧ Recoverable c.newText

instance (c : TextChange) : Decidable (ChangeRecoverable c) :=
  inferInstanceAs (Decidable (_ ∧ _))

theorem writeSize_even (c : TextChange) : c.writeSize % 2 = 0 := by
  simp only [TextChange.writeSize, TextChange.writeStringSize]
  omega

/-- The changes come back exactly when all their texts are recoverable. -/
theorem readChanges_iff {changes : List TextChange} {offset : Nat} {isLittleEndian : Bool}
    (even : offset % 2 = 0) (fits : ∀ c ∈ changes, ChangeFits c)
    (unread : source.drop offset = changes.flatMap TextChange.encoded ++ back) :
    (∃ next, readChanges isLittleEndian source changes.length offset = some (changes, next)) ↔
      ∀ c ∈ changes, ChangeRecoverable c := by
  induction changes generalizing offset with
  | nil => simp [readChanges]
  | cons c changes ih =>
    obtain ⟨oldPosition, newPosition⟩ := fits c (by simp)
    have fits' : ∀ other ∈ changes, ChangeFits other := fun other member =>
      fits other (mem_cons_of_mem _ member)
    rw [flatMap_cons, append_assoc] at unread
    have unread' := drop_add_of_drop unread
    rw [TextChange.length_encoded] at unread'
    have even' : (offset + c.writeSize) % 2 = 0 := by
      have size := writeSize_even c
      omega
    have rest := @ih (offset + c.writeSize) even' fits' unread'
    have restored : ChangeRecoverable c →
        TextChange.read isLittleEndian source offset = some (c, offset + c.writeSize) := by
      rintro ⟨old, new⟩
      rw [TextChange.read_short isLittleEndian even oldPosition newPosition old.1 new.1 unread,
        recovered_eq_self_iff.mpr old, recovered_eq_self_iff.mpr new]
    rw [forall_mem_cons, ← rest]
    constructor
    · rintro ⟨next, whole⟩
      obtain ⟨⟨change, offset'⟩, isFirst, later⟩ := bind_eq_some_iff.mp whole
      obtain ⟨⟨others, offset''⟩, isRest, list⟩ := bind_eq_some_iff.mp later
      have same : change :: others = c :: changes :=
        congrArg Prod.fst (Option.some.inj list)
      obtain ⟨rfl, rfl⟩ := cons_eq_cons.mp same
      have recoverable := TextChange.recoverable_of_read even oldPosition newPosition unread isFirst
      refine ⟨recoverable, ?_⟩
      rw [restored recoverable] at isFirst
      cases isFirst
      exact ⟨offset'', isRest⟩
    · rintro ⟨recoverable, next, isRest⟩
      refine ⟨next, ?_⟩
      rw [length_cons, readChanges, restored recoverable]
      simp only [bind_eq_bind, bind_some, isRest]

/-- All numbers fit in 32 bits; an array of the language has fewer than `2 ^ 32` elements. -/
structure Fits (d : SingleModelEditStackData) : Prop where
  beforeVersionId : d.beforeVersionId < 2 ^ 32
  afterVersionId : d.afterVersionId < 2 ^ 32
  beforeCount : (d.beforeCursorState.getD []).length < 2 ^ 32
  beforeSelections : ∀ s ∈ d.beforeCursorState.getD [], SelectionFits s
  afterCount : (d.afterCursorState.getD []).length < 2 ^ 32
  afterSelections : ∀ s ∈ d.afterCursorState.getD [], SelectionFits s
  changeCount : d.changes.length < 2 ^ 32
  positions : ∀ c ∈ d.changes, ChangeFits c

/-- The data with the empty list for a missing cursor state. -/
def withCursorStates (d : SingleModelEditStackData) : SingleModelEditStackData :=
  { d with
    beforeCursorState := some (d.beforeCursorState.getD [])
    afterCursorState := some (d.afterCursorState.getD []) }

/-- The offset of a change behind other changes. -/
def changeOffset (d : SingleModelEditStackData) (before : List TextChange) : Nat :=
  4 + 4 + 1 + 1 + writeSelectionsSize d.beforeCursorState +
    writeSelectionsSize d.afterCursorState + 4 + (before.map TextChange.writeSize).sum

/-- What is asked of writing and reading an edit stack. -/
structure RoundTrips (isLittleEndian : Bool) (d : SingleModelEditStackData) : Prop where
  restored : deserialize isLittleEndian d.serialize = some d.withCursorStates
  /-- Exactly the bytes of a change are consumed. -/
  consumed : ∀ before c behind, d.changes = before ++ c :: behind →
    ∃ change, TextChange.read isLittleEndian d.serialize (d.changeOffset before) =
      some (change, d.changeOffset before + c.writeSize)
  /-- The offsets of the old text and of the new text of a change are even. -/
  aligned : ∀ before c behind, d.changes = before ++ c :: behind →
    2 ∣ d.changeOffset before + 4 + 4 + 4 ∧
      2 ∣ d.changeOffset before + 4 + 4 + TextChange.writeStringSize c.oldText + 4

variable {d : SingleModelEditStackData}

theorem deserialize_header (fits : d.Fits) (isLittleEndian : Bool) :
    deserialize isLittleEndian d.serialize =
      (readChanges isLittleEndian d.serialize d.changes.length d.header.length).bind
        fun read => some { d.withCursorStates with changes := read.1 } := by
  have unread : d.serialize.drop 0 = d.header ++ d.changes.flatMap TextChange.encoded := by
    rw [drop_zero, serialize_eq, encoded]
  simp only [header, append_assoc] at unread
  have before := readUInt32BE_of_drop unread
  have unread1 := drop_add_of_drop unread
  have after := readUInt32BE_of_drop unread1
  have unread2 := drop_add_of_drop unread1
  have beforeEOL := readUInt8_of_drop d.beforeEOL.toNat_lt unread2
  have unread3 := drop_add_of_drop unread2
  have afterEOL := readUInt8_of_drop d.afterEOL.toNat_lt unread3
  have unread4 := drop_add_of_drop unread3
  have beforeCursor := readSelections_of_drop fits.beforeCount fits.beforeSelections unread4
  have unread5 := drop_add_of_drop unread4
  have afterCursor := readSelections_of_drop fits.afterCount fits.afterSelections unread5
  have unread6 := drop_add_of_drop unread5
  have count := readUInt32BE_of_drop unread6
  rw [mod_eq_of_lt fits.beforeVersionId] at before
  rw [mod_eq_of_lt fits.afterVersionId] at after
  rw [mod_eq_of_lt fits.changeCount] at count
  simp only [length_bytesBE, length_singleton, zero_add]
    at after beforeEOL afterEOL beforeCursor afterCursor count
  have size : d.header.length = 4 + 4 + 1 + 1 + (encodedSelections d.beforeCursorState).length +
      (encodedSelections d.afterCursorState).length + 4 := by
    simp only [length_header, length_encodedSelections]
  simp only [deserialize, before, after, beforeEOL, afterEOL, beforeCursor, afterCursor, count,
    EndOfLineSequence.ofNat?_toNat, bind_eq_bind, bind_some, zero_add, size]
  rfl

theorem changeOffset_even (d : SingleModelEditStackData) (before : List TextChange) :
    d.changeOffset before % 2 = 0 := by
  have sum : (before.map TextChange.writeSize).sum % 2 = 0 := by
    induction before with
    | nil => rfl
    | cons c before ih =>
      have size := writeSize_even c
      rw [map_cons, sum_cons]
      omega
  simp only [changeOffset, writeSelectionsSize]
  omega

/-- The bytes at the offset of a change are its own. -/
theorem unread_change {before behind : List TextChange} {c : TextChange}
    (split : d.changes = before ++ c :: behind) : d.serialize.drop (d.changeOffset before) =
      c.encoded ++ behind.flatMap TextChange.encoded := by
  have front : d.changeOffset before = (d.header ++ before.flatMap TextChange.encoded).length := by
    rw [length_append, length_header, length_flatMap_encoded, changeOffset]
  rw [serialize_eq, encoded, split, flatMap_append, flatMap_cons, ← append_assoc, front, drop_left]

/-- An edit stack comes back exactly when the platform decoder changes none of its texts. -/
theorem roundTrips_iff (isLittleEndian : Bool) {d : SingleModelEditStackData}
    (fits : d.Fits) :
    d.RoundTrips isLittleEndian ↔ ∀ c ∈ d.changes, ChangeRecoverable c := by
  have even : d.header.length % 2 = 0 := by
    rw [length_header]
    simp only [writeSelectionsSize]
    omega
  have unread : d.serialize.drop d.header.length =
      d.changes.flatMap TextChange.encoded ++ [] := by
    rw [serialize_eq, encoded, drop_left, append_nil]
  have iff := @readChanges_iff _ _ d.changes _ isLittleEndian even fits.positions unread
  have header := deserialize_header fits isLittleEndian
  rw [← iff]
  constructor
  · rintro ⟨restored, -, -⟩
    rw [header] at restored
    obtain ⟨⟨changes, next⟩, isRead, whole⟩ := bind_eq_some_iff.mp restored
    have same : changes = d.changes :=
      congrArg SingleModelEditStackData.changes (Option.some.inj whole)
    rw [same] at isRead
    exact ⟨next, isRead⟩
  · rintro ⟨next, isRead⟩
    have recoverable := iff.mp ⟨next, isRead⟩
    refine ⟨?_, ?_, ?_⟩
    · rw [header, isRead]
      rfl
    · intro before c behind split
      have member : c ∈ d.changes := by
        rw [split]
        simp
      obtain ⟨oldPosition, newPosition⟩ := fits.positions c member
      obtain ⟨old, new⟩ := recoverable c member
      exact ⟨_, TextChange.read_short isLittleEndian (d.changeOffset_even before) oldPosition
        newPosition old.1 new.1 (unread_change split)⟩
    · intro before c behind split
      have isEven := d.changeOffset_even before
      rw [TextChange.writeStringSize]
      omega

/-- A version before and after an insertion of one letter. -/
def sampleData : SingleModelEditStackData :=
  ⟨1, 2, .lf, .crlf, none, some [⟨1, 1, 1, 2⟩], [⟨0, [], 0, [97]⟩]⟩

theorem roundTrips_iff_sample : sampleData.RoundTrips true := by
  apply (roundTrips_iff true _).mpr
  · decide
  · exact ⟨by decide, by decide, by decide, by decide, by decide, by decide, by decide, by decide⟩

/-- A deleted half of a surrogate pair does not come back. -/
theorem unpaired_surrogate_is_lost :
    ∃ d : SingleModelEditStackData, d.Fits ∧ ¬d.RoundTrips true := by
  refine ⟨{ sampleData with changes := [⟨0, [0xD83D], 0, []⟩] }, ?_, ?_⟩
  · exact ⟨by decide, by decide, by decide, by decide, by decide, by decide, by decide, by decide⟩
  · rintro ⟨restored, -, -⟩
    revert restored
    decide

end SingleModelEditStackData

end CodeEditor.EditStack

import CodeEditor.Foundation.Bytes
import CodeEditor.Foundation.Text

/-!
# Surrogates and the UTF-16LE decoder

The decoder of the platform as its standard describes it: a leading byte order mark is
removed, and every surrogate without a partner becomes a replacement character.
-/

namespace CodeEditor

open List

def isHighSurrogate (unit : CodeUnit) : Bool := 0xD800 ≤ unit && unit ≤ 0xDBFF

def isLowSurrogate (unit : CodeUnit) : Bool := 0xDC00 ≤ unit && unit ≤ 0xDFFF

/-- The replacement character. -/
def replacementCharacter : CodeUnit := 0xFFFD

/-- The byte order mark. -/
def byteOrderMark : CodeUnit := 0xFEFF

/-- Every surrogate has its partner. -/
def isWellFormed : Text → Bool
  | [] => true
  | [unit] => !isHighSurrogate unit && !isLowSurrogate unit
  | unit :: next :: text =>
    if isHighSurrogate unit then isLowSurrogate next && isWellFormed text
    else !isLowSurrogate unit && isWellFormed (next :: text)

/-- The decoder behind the byte order mark. -/
def replaceUnpaired : Text → Text
  | [] => []
  | [unit] =>
    if isHighSurrogate unit || isLowSurrogate unit then [replacementCharacter] else [unit]
  | unit :: next :: text =>
    if isHighSurrogate unit then
      if isLowSurrogate next then unit :: next :: replaceUnpaired text
      else replacementCharacter :: replaceUnpaired (next :: text)
    else if isLowSurrogate unit then replacementCharacter :: replaceUnpaired (next :: text)
    else unit :: replaceUnpaired (next :: text)

/-- The code units of bytes in little-endian order; a single last byte is an error. -/
def unitsLE : Bytes → Text
  | [] => []
  | [_] => [replacementCharacter]
  | low :: high :: bytes => UInt16.ofNat (low.toNat + 256 * high.toNat) :: unitsLE bytes

/-- `new TextDecoder('UTF-16LE').decode(bytes)`. -/
def decodeTextUTF16LE (bytes : Bytes) : Text :=
  let units := unitsLE bytes
  replaceUnpaired (if units.head? = some byteOrderMark then units.tail else units)

theorem length_replaceUnpaired (text : Text) : (replaceUnpaired text).length = text.length := by
  fun_induction replaceUnpaired text <;> simp_all

theorem replacementCharacter_ne
    (surrogate : isHighSurrogate unit = true ∨ isLowSurrogate unit = true) :
    replacementCharacter ≠ unit := by
  rintro rfl
  revert surrogate
  decide

/-- The decoder leaves a text alone when every surrogate has its partner, and only then. -/
theorem replaceUnpaired_eq_self_iff {text : Text} :
    replaceUnpaired text = text ↔ isWellFormed text = true := by
  fun_induction replaceUnpaired text with
  | case1 => simp [isWellFormed]
  | case2 unit surrogate =>
    rw [Bool.or_eq_true] at surrogate
    have differs := replacementCharacter_ne surrogate
    simp only [List.cons.injEq, and_true, isWellFormed]
    rcases surrogate with high | low
    · simp [differs, high]
    · simp [differs, low]
  | case3 unit plain => simpa [isWellFormed] using plain
  | case4 unit next text high low ih =>
    simp [isWellFormed, high, low, ih]
  | case5 unit next text high low ih =>
    have differs := replacementCharacter_ne (.inl high)
    simp [isWellFormed, high, low, differs]
  | case6 unit next text high low ih =>
    have differs := replacementCharacter_ne (.inr low)
    simp [isWellFormed, high, low, differs]
  | case7 unit next text high low ih =>
    simp [isWellFormed, high, low, ih]

/-- The bytes of a text in little-endian order. -/
def bytesLE (text : Text) : Bytes :=
  text.flatMap fun unit => [UInt8.ofNat unit.toNat, UInt8.ofNat (unit.toNat / 256)]

@[simp] theorem bytesLE_nil : bytesLE [] = [] := rfl

@[simp] theorem bytesLE_cons (unit : CodeUnit) (text : Text) :
    bytesLE (unit :: text) =
      UInt8.ofNat unit.toNat :: UInt8.ofNat (unit.toNat / 256) :: bytesLE text := rfl

@[simp] theorem length_bytesLE (text : Text) : (bytesLE text).length = 2 * text.length := by
  induction text with
  | nil => rfl
  | cons unit text ih =>
    rw [bytesLE_cons, length_cons, length_cons, ih, length_cons]
    omega

theorem unit_of_bytes (unit : CodeUnit) : UInt16.ofNat ((UInt8.ofNat unit.toNat).toNat +
      256 * (UInt8.ofNat (unit.toNat / 256)).toNat) = unit := by
  have bound := unit.toNat_lt
  apply UInt16.toNat_inj.mp
  rw [UInt8.toNat_ofNat', UInt8.toNat_ofNat', UInt16.toNat_ofNat']
  omega

theorem unitsLE_bytesLE (text : Text) : unitsLE (bytesLE text) = text := by
  induction text with
  | nil => rfl
  | cons unit text ih =>
    rw [bytesLE_cons, unitsLE, unit_of_bytes, ih]

theorem take_bytesLE (text : Text) (count : Nat) :
    (bytesLE text).take (2 * count) = bytesLE (text.take count) := by
  induction text generalizing count with
  | nil => simp
  | cons unit text ih =>
    cases count with
    | zero => simp
    | succ count =>
      rw [take_succ_cons, bytesLE_cons, bytesLE_cons, ← ih,
        Nat.mul_succ, take_succ_cons, take_succ_cons]

end CodeEditor

import Mathlib

/-!
# Arrays of unsigned 32-bit integers

A `Uint32Array` is the list of its elements. An index is any integer: what stands outside the
array is read as `undefined` and written nowhere. A number that may be `undefined` or `NaN` is
an optional integer, and `NaN` is stored as zero. What throws a `RangeError` is `none`.
-/

namespace CodeEditor.TypedArrays

open List Int

/-- `array[index]`. -/
def read (array : List UInt32) (index : Int) : Option Int :=
  if 0 ≤ index then array[index.toNat]?.map fun element => (element.toNat : Int) else none

/-- The element that holds a number. -/
def stored : Option Int → UInt32
  | none => 0
  | some number => UInt32.ofInt number

/-- `array[index] = number`. -/
def write (array : List UInt32) (index : Int) (number : Option Int) : List UInt32 :=
  if 0 ≤ index then array.set index.toNat (stored number) else array

/-- `new Uint32Array(length)`. -/
def zeros (length : Nat) : List UInt32 := List.replicate length 0

/-- An index that counts from the end when it is negative, within the array. -/
def relativeIndex (length : Nat) (index : Int) : Nat :=
  if index < 0 then (length + index).toNat else min index.toNat length

/-- `array.subarray(begin, end)`. -/
def subarray (array : List UInt32) (start stop : Int) : List UInt32 :=
  (array.take (relativeIndex array.length stop)).drop (relativeIndex array.length start)

/-- `array.subarray(begin)`. -/
def subarrayFrom (array : List UInt32) (start : Int) : List UInt32 :=
  array.drop (relativeIndex array.length start)

/-- `target.set(source, offset)`. -/
def overwrite (target source : List UInt32) (offset : Int) : Option (List UInt32) :=
  if 0 ≤ offset ∧ offset + source.length ≤ target.length then
    some (target.take offset.toNat ++ source ++ target.drop (offset.toNat + source.length))
  else none

variable {array target source : List UInt32}

@[simp]
theorem length_zeros (length : Nat) : (zeros length).length = length :=
  length_replicate

@[simp]
theorem length_write (index : Int) (number : Option Int) :
    (write array index number).length = array.length := by
  unfold write
  split
  · rw [length_set]
  · rfl

theorem read_natCast (i : Nat) :
    read array i = array[i]?.map fun element => (element.toNat : Int) := by
  unfold read
  rw [if_pos (natCast_nonneg i), toNat_natCast]

variable {i : Nat}

theorem read_of_lt (inside : i < array.length) : read array i = some (array[i].toNat : Int) := by
  rw [read_natCast, getElem?_eq_getElem inside]
  rfl

theorem write_natCast (i : Nat) (number : Option Int) :
    write array i number = array.set i (stored number) := by
  unfold write
  rw [if_pos (natCast_nonneg i), toNat_natCast]

/-- Of a natural number the low 32 bits are stored. -/
theorem toNat_stored_natCast (n : Nat) : (stored (some (n : Int))).toNat = n % 2 ^ 32 := by
  change (UInt32.ofNat (Int.toNat ((n : Int) % 2 ^ 32))).toNat = n % 2 ^ 32
  exact Nat.mod_mod _ _

theorem relativeIndex_natCast {length i : Nat} (inside : i ≤ length) :
    relativeIndex length i = i := by
  unfold relativeIndex
  rw [if_neg (by omega), toNat_natCast]
  omega

theorem subarray_zero (inside : i ≤ array.length) : subarray array 0 i = array.take i := by
  unfold subarray
  rw [relativeIndex_natCast inside]
  exact drop_zero

theorem subarrayFrom_natCast (inside : i ≤ array.length) : subarrayFrom array i = array.drop i := by
  unfold subarrayFrom
  rw [relativeIndex_natCast inside]

theorem overwrite_natCast (fits : i + source.length ≤ target.length) : overwrite target source i =
      some (target.take i ++ source ++ target.drop (i + source.length)) := by
  unfold overwrite
  rw [if_pos (by omega), toNat_natCast]

/-- What was overwritten at the front is a front. -/
theorem overwrite_zero (fits : source.length ≤ target.length) :
    overwrite target source 0 = some (source ++ target.drop source.length) := by
  have overwritten : overwrite target source 0 =
      some (target.take 0 ++ source ++ target.drop (0 + source.length)) :=
    overwrite_natCast (i := 0) (by omega)
  rw [take_zero, nil_append, Nat.zero_add] at overwritten
  exact overwritten

/-- What is overwritten behind a front. -/
theorem overwrite_append (first second rest : List UInt32) (fits : second.length ≤ rest.length) :
    overwrite (first ++ rest) second first.length =
      some (first ++ second ++ rest.drop second.length) := by
  rw [overwrite_natCast (by rw [length_append]; omega), take_left,
    drop_append, drop_eq_nil_of_le (by omega), nil_append, Nat.add_sub_cancel_left]

/-- What is overwritten behind a front, up to the end. -/
theorem overwrite_back (first second rest : List UInt32) (fits : second.length = rest.length) :
    overwrite (first ++ rest) second first.length = some (first ++ second) := by
  rw [overwrite_append first second rest (by omega), drop_eq_nil_of_le (by omega), append_nil]

/-- The front of an array is copied into a new one. -/
theorem overwrite_zeros {i length : Nat} (inside : i ≤ array.length) (fits : i ≤ length) :
    overwrite (zeros length) (subarray array 0 i) 0 =
      some (array.take i ++ zeros (length - i)) := by
  rw [subarray_zero inside, overwrite_zero (by rw [length_take, length_zeros]; omega),
    length_take, Nat.min_eq_left inside]
  unfold zeros
  rw [drop_replicate]

end CodeEditor.TypedArrays

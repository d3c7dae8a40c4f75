import CodeEditor.Foundation.TypedArrays
import CodeEditor.ViewLayout.PrefixSums

/-!
# Prefix sums of a changing list

Model of `PrefixSumComputer` and `ConstantTimePrefixSumComputer` in `prefixSumComputer.ts`.
Numbers are integers, and `undefined` and `NaN` are `none`. An operation that throws, or whose
loop goes on for more rounds than there are values, is `none`.
-/

namespace CodeEditor.PrefixSum

open TypedArrays ViewLayout

/-- `toUint32` of `uint.ts`. -/
def toUint32 (v : Int) : Int :=
  if v < 0 then 0 else if v > 4294967295 then 4294967295 else toInt32 v

/-- The answer of `getIndexOf`. -/
structure PrefixSumIndexOfResult where
  index : Option Int
  remainder : Option Int
deriving DecidableEq, Repr

/-- The sum of two numbers. -/
def plus (a b : Option Int) : Option Int := do return (← a) + (← b)

/-- The difference of two numbers. -/
def minus (a b : Option Int) : Option Int := do return (← a) - (← b)

/-! ## The lazily valid prefix sums -/

structure PrefixSumComputer where
  values : List UInt32
  prefixSum : List UInt32
  prefixSumValidIndex : Int
deriving DecidableEq, Repr

namespace PrefixSumComputer

/-- The constructor. -/
def new (values : List UInt32) : PrefixSumComputer := ⟨values, zeros values.length, -1⟩

/-- The index of a cell of an `Int32Array`, lowered to `index`. -/
def lowered (prefixSumValidIndex index : Int) : Int :=
  if index < prefixSumValidIndex then toInt32 index else prefixSumValidIndex

/-- A new array of prefix sums, with those up to the valid index copied. -/
def copied (oldPrefixSum : List UInt32) (length : Nat) (prefixSumValidIndex : Int) :
    Option (List UInt32) :=
  if prefixSumValidIndex ≥ 0 then
    overwrite (zeros length) (subarray oldPrefixSum 0 (prefixSumValidIndex + 1)) 0
  else some (zeros length)

/-- The new array of `insertValues`. -/
def inserted (oldValues : List UInt32) (insertIndex : Int) (insertValues : List UInt32) :
    Option (List UInt32) := do
  let values := zeros (oldValues.length + insertValues.length)
  let values ← overwrite values (subarray oldValues 0 insertIndex) 0
  let values ← overwrite values (subarrayFrom oldValues insertIndex)
    (insertIndex + insertValues.length)
  overwrite values insertValues insertIndex

def insertValues (insertIndex : Int) (insertValues : List UInt32) (computer : PrefixSumComputer) :
    Option (Bool × PrefixSumComputer) :=
  let insertIndex := toUint32 insertIndex
  if insertValues.length = 0 then some (false, computer)
  else do
    let values ← inserted computer.values insertIndex insertValues
    let prefixSumValidIndex := lowered computer.prefixSumValidIndex (insertIndex - 1)
    let prefixSum ← copied computer.prefixSum values.length prefixSumValidIndex
    return (true, ⟨values, prefixSum, prefixSumValidIndex⟩)

def setValue (index value : Int) (computer : PrefixSumComputer) : Bool × PrefixSumComputer :=
  let index := toUint32 index
  let value := toUint32 value
  if read computer.values index = some value then (false, computer)
  else
    (true, { computer with
      values := write computer.values index (some value)
      prefixSumValidIndex := lowered computer.prefixSumValidIndex (index - 1) })

/-- The new array of `removeValues`. -/
def remaining (oldValues : List UInt32) (startIndex count : Int) : Option (List UInt32) := do
  let values := zeros (oldValues.length - count).toNat
  let values ← overwrite values (subarray oldValues 0 startIndex) 0
  overwrite values (subarrayFrom oldValues (startIndex + count)) startIndex

def removeValues (startIndex count : Int) (computer : PrefixSumComputer) :
    Option (Bool × PrefixSumComputer) :=
  let startIndex := toUint32 startIndex
  let count := toUint32 count
  let oldValues := computer.values
  if startIndex ≥ oldValues.length then some (false, computer)
  else
    let maxCount := oldValues.length - startIndex
    let count := if count ≥ maxCount then maxCount else count
    if count = 0 then some (false, computer)
    else do
      let values ← remaining oldValues startIndex count
      let prefixSumValidIndex := lowered computer.prefixSumValidIndex (startIndex - 1)
      let prefixSum ← copied computer.prefixSum values.length prefixSumValidIndex
      return (true, ⟨values, prefixSum, prefixSumValidIndex⟩)

/-- The loop of `_getPrefixSum`, for some rounds from an index on. -/
def sumLoop (values : List UInt32) : Nat → Int → List UInt32 → List UInt32
  | 0, _, prefixSum => prefixSum
  | rounds + 1, i, prefixSum =>
    sumLoop values rounds (i + 1)
      (write prefixSum i (plus (read prefixSum (i - 1)) (read values i)))

/-- The private `_getPrefixSum`. -/
def getValidPrefixSum (index : Int) (computer : PrefixSumComputer) :
    Option Int × PrefixSumComputer :=
  if index ≤ computer.prefixSumValidIndex then (read computer.prefixSum index, computer)
  else
    let start := computer.prefixSumValidIndex + 1
    let (startIndex, prefixSum) :=
      if start = 0 then (start + 1, write computer.prefixSum 0 (read computer.values 0))
      else (start, computer.prefixSum)
    let length : Int := computer.values.length
    let index := if index ≥ length then length - 1 else index
    let prefixSum := sumLoop computer.values (index + 1 - startIndex).toNat startIndex prefixSum
    (read prefixSum index, { computer with
      prefixSum := prefixSum
      prefixSumValidIndex := toInt32 (max computer.prefixSumValidIndex index) })

def getTotalSum (computer : PrefixSumComputer) : Option Int × PrefixSumComputer :=
  if computer.values.length = 0 then (some 0, computer)
  else computer.getValidPrefixSum (computer.values.length - 1)

def getPrefixSum (index : Int) (computer : PrefixSumComputer) : Option Int × PrefixSumComputer :=
  if index < 0 then (some 0, computer) else computer.getValidPrefixSum (toUint32 index)

/-- The loop of `getIndexOf`: the last `mid` and `midStart`. The half of a number is rounded
with the sum, which is not negative where the array is read. -/
def searchLoop (values prefixSum : List UInt32) (sum : Int) :
    Nat → Int → Int → Int × Option Int → Option (Int × Option Int)
  | 0, low, high, found => if low ≤ high then none else some found
  | rounds + 1, low, high, found =>
    if low ≤ high then
      let mid := toInt32 (low + (high - low) / 2)
      let midStop := read prefixSum mid
      let midStart := minus midStop (read values mid)
      if midStart.any fun midStart => sum < midStart then
        searchLoop values prefixSum sum rounds low (mid - 1) (mid, midStart)
      else if midStop.any fun midStop => sum ≥ midStop then
        searchLoop values prefixSum sum rounds (mid + 1) high (mid, midStart)
      else some (mid, midStart)
    else some found

def getIndexOf (sum : Int) (computer : PrefixSumComputer) :
    Option (PrefixSumIndexOfResult × PrefixSumComputer) := do
  let computer := computer.getTotalSum.2
  let length := computer.values.length
  let (mid, midStart) ←
    searchLoop computer.values computer.prefixSum sum length 0 (length - 1) (0, some 0)
  return (⟨some mid, minus (some sum) midStart⟩, computer)

end PrefixSumComputer

/-! ## The table of all sums -/

/-- An element of an array with holes. -/
def element (array : List (Option Nat)) (index : Int) : Option Nat :=
  if 0 ≤ index then (array[index.toNat]?).join else none

/-- `array[index] = number`, which may make the array longer. -/
def assign (array : List (Option Nat)) (index : Nat) (number : Option Nat) : List (Option Nat) :=
  if index < array.length then array.set index number
  else array ++ List.replicate (index - array.length) none ++ [number]

/-- `array.length = length`, for the length of an array. -/
def resized (array : List (Option Nat)) (length : Nat) : List (Option Nat) :=
  array.take length ++ List.replicate (length - array.length) none

/-- `array.length = length`, for any number. -/
def withLength (array : List (Option Nat)) (length : Option Nat) : Option (List (Option Nat)) := do
  let length ← length
  if length < 2 ^ 32 then some (resized array length) else none

structure ConstantTimePrefixSumComputer where
  values : List Nat
  isValid : Bool
  validEndIndex : Int
  prefixSum : List (Option Nat)
  indexBySum : List (Option Nat)
deriving DecidableEq, Repr

namespace ConstantTimePrefixSumComputer

/-- The constructor. -/
def new (values : List Nat) : ConstantTimePrefixSumComputer := ⟨values, false, -1, [], []⟩

/-- The private `_invalidate`. -/
def invalidate (index : Nat) (computer : ConstantTimePrefixSumComputer) :
    ConstantTimePrefixSumComputer :=
  { computer with isValid := false, validEndIndex := min computer.validEndIndex (index - 1) }

def removeValues (start deleteCount : Nat) (computer : ConstantTimePrefixSumComputer) :
    ConstantTimePrefixSumComputer :=
  { computer with
    values := computer.values.take start ++ computer.values.drop (start + deleteCount)
    }.invalidate start

def insertValues (insertIndex : Nat) (insertArr : List Nat)
    (computer : ConstantTimePrefixSumComputer) : ConstantTimePrefixSumComputer :=
  { computer with
    values := computer.values.take insertIndex ++ insertArr ++ computer.values.drop insertIndex
    }.invalidate insertIndex

def setValue (index value : Nat) (computer : ConstantTimePrefixSumComputer) :
    ConstantTimePrefixSumComputer :=
  if computer.values[index]? = some value then computer
  else { computer with values := computer.values.set index value }.invalidate index

/-- The loop over `j` of `_ensureValid`. -/
def indexLoop (sumAbove i : Nat) : Nat → List (Option Nat) → List (Option Nat)
  | 0, indexBySum => indexBySum
  | value + 1, indexBySum =>
    assign (indexLoop sumAbove i value indexBySum) (sumAbove + value) (some i)

/-- The loop over `i` of `_ensureValid`, for some rounds from an index on. -/
def validLoop (values : List Nat) : Nat → Nat → List (Option Nat) → List (Option Nat) →
    List (Option Nat) × List (Option Nat)
  | 0, _, prefixSum, indexBySum => (prefixSum, indexBySum)
  | rounds + 1, i, prefixSum, indexBySum =>
    let value := values[i]?
    let sumAbove := if i > 0 then element prefixSum (i - 1) else some 0
    let total := do return (← sumAbove) + (← value)
    let indexBySum := match sumAbove, value with
      | some sumAbove, some value => indexLoop sumAbove i value indexBySum
      | _, _ => indexBySum  -- `NaN` is not an index
    validLoop values rounds (i + 1) (assign prefixSum i total) indexBySum

/-- The private `_ensureValid`. -/
def ensureValid (computer : ConstantTimePrefixSumComputer) :
    Option ConstantTimePrefixSumComputer :=
  if computer.isValid then some computer
  else do
    let start := (computer.validEndIndex + 1).toNat
    let length := computer.values.length
    let (prefixSum, indexBySum) := validLoop computer.values (length - start) start
      computer.prefixSum computer.indexBySum
    let prefixSum := resized prefixSum length
    let indexBySum ← withLength indexBySum (element prefixSum (prefixSum.length - 1))
    return ⟨computer.values, true, length - 1, prefixSum, indexBySum⟩

def getTotalSum (computer : ConstantTimePrefixSumComputer) :
    Option (Option Int × ConstantTimePrefixSumComputer) := do
  let computer ← computer.ensureValid
  return (some computer.indexBySum.length, computer)

def getPrefixSum (count : Nat) (computer : ConstantTimePrefixSumComputer) :
    Option (Option Int × ConstantTimePrefixSumComputer) := do
  let computer ← computer.ensureValid
  if count = 0 then return (some 0, computer)
  else return ((element computer.prefixSum (count - 1)).map Int.ofNat, computer)

def getIndexOf (sum : Int) (computer : ConstantTimePrefixSumComputer) :
    Option (PrefixSumIndexOfResult × ConstantTimePrefixSumComputer) := do
  let computer ← computer.ensureValid
  let idx := element computer.indexBySum sum
  let viewLinesAbove := if idx.any fun idx => idx > 0 then
      idx.bind fun idx => element computer.prefixSum (idx - 1)
    else some 0
  return (⟨idx.map Int.ofNat, minus (some sum) (viewLinesAbove.map Int.ofNat)⟩, computer)

end ConstantTimePrefixSumComputer

end CodeEditor.PrefixSum

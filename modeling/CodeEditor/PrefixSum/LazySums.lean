import CodeEditor.PrefixSum.PrefixSumComputer

/-!
# The lazily valid prefix sums

The sums up to the valid index are right. An edit changes the values from an index on and lowers
the valid index below it, and a question makes more of them valid.
-/

namespace CodeEditor.PrefixSum

open TypedArrays ViewLayout List Option

/-! ## Plain sums -/

/-- The sum of the values in front of an index. -/
def sumBefore (values : List Nat) (i : Nat) : Nat := (values.take i).sum

/-- The index of a sum: the values in front of it are at most the sum, and with its own value
they are more. -/
def IsIndexOf (values : List Nat) (sum i : Nat) : Prop :=
  i < values.length ∧ sumBefore values i ≤ sum ∧ sum < sumBefore values (i + 1)

section Sums

variable {values others : List Nat} {i j k sum : Nat}

theorem sumBefore_succ (inside : i < values.length) :
    sumBefore values (i + 1) = sumBefore values i + values[i] := by
  unfold sumBefore
  rw [take_add_one, getElem?_eq_getElem inside, sum_append]
  simp

theorem sumBefore_length : sumBefore values values.length = values.sum := by
  unfold sumBefore
  rw [take_length]

theorem sumBefore_mono (values : List Nat) (ordered : i ≤ j) :
    sumBefore values i ≤ sumBefore values j := by
  unfold sumBefore
  rw [← take_append_drop i (values.take j), take_take, Nat.min_eq_left ordered, sum_append]
  exact Nat.le_add_right _ _

theorem sumBefore_le (values : List Nat) (i : Nat) : sumBefore values i ≤ values.sum := by
  rw [← sumBefore_length]
  rcases Nat.le_total i values.length with inside | outside
  · exact sumBefore_mono values inside
  · unfold sumBefore
    rw [take_of_length_le outside, take_length]

theorem sumBefore_congr (same : values.take k = others.take k) (within : i ≤ k) :
    sumBefore values i = sumBefore others i := by
  unfold sumBefore
  rw [← Nat.min_eq_left within, ← take_take, same, take_take]

theorem exists_isIndexOf_lt (inside : j ≤ values.length) (below : sum < sumBefore values j) :
    ∃ i, IsIndexOf values sum i := by
  induction j with
  | zero => exact absurd below (Nat.not_lt_zero sum)
  | succ j ih =>
    rcases Nat.lt_or_ge sum (sumBefore values j) with less | notLess
    · exact ih (by omega) less
    · exact ⟨j, by omega, notLess, below⟩

/-- A sum below the total has an index. -/
theorem exists_isIndexOf (below : sum < values.sum) : ∃ i, IsIndexOf values sum i :=
  exists_isIndexOf_lt (Nat.le_refl _) (by rwa [sumBefore_length])

/-- An index with a greater sum in front of it is greater. -/
theorem IsIndexOf.lt_of_lt (isIndex : IsIndexOf values sum i) (greater : sum < sumBefore values j) :
    i < j := by
  by_contra notLess
  have := sumBefore_mono values (Nat.le_of_not_lt notLess)
  have := isIndex.2.1
  omega

/-- An index with a sum in front of it that is not greater is not greater. -/
theorem IsIndexOf.le_of_le (isIndex : IsIndexOf values sum i)
    (notGreater : sumBefore values j ≤ sum) : j ≤ i := by
  by_contra greater
  have := sumBefore_mono values (show i + 1 ≤ j by omega)
  have := isIndex.2.2
  omega

end Sums

/-! ## The lazily valid prefix sums -/

/-- The values as numbers. -/
def numbers (values : List UInt32) : List Nat := values.map UInt32.toNat

@[simp]
theorem length_numbers (values : List UInt32) : (numbers values).length = values.length :=
  length_map _

theorem toUint32_eq {v : Int} (nonnegative : 0 ≤ v) (small : v < 2 ^ 31) : toUint32 v = v := by
  unfold toUint32
  rw [if_neg (by omega), if_neg (by omega)]
  exact toInt32_eq (by omega) small

/-- A value is stored as it is, though `toUint32` may make it negative. -/
theorem ofInt_toUint32 (value : UInt32) : UInt32.ofInt (toUint32 value.toNat) = value := by
  have small := value.toNat_lt
  unfold toUint32 toInt32 UInt32.ofInt
  have same : Int.bmod value.toNat (2 ^ 32) % 2 ^ 32 = (value.toNat : Int) % 2 ^ 32 :=
    Int.bmod_emod
  apply UInt32.toNat.inj
  rw [UInt32.toNat_ofNat']
  omega

namespace PrefixSumComputer

/-- The sums up to the valid index are right, up to multiples of `2 ^ 32`. -/
structure Valid (computer : PrefixSumComputer) (values : List UInt32) : Prop where
  isValues : computer.values = values
  isLength : computer.prefixSum.length = values.length
  low : -1 ≤ computer.prefixSumValidIndex
  high : computer.prefixSumValidIndex < values.length
  small : computer.prefixSumValidIndex < 2 ^ 31
  sums : ∀ i : Nat, (i : Int) ≤ computer.prefixSumValidIndex →
    read computer.prefixSum i = some ((sumBefore (numbers values) (i + 1) % 2 ^ 32 : Nat) : Int)

variable {computer : PrefixSumComputer} {values : List UInt32} {i rounds : Nat}

theorem valid_new (values : List UInt32) : (new values).Valid values where
  isValues := rfl
  isLength := length_zeros _
  low := Int.le_refl _
  high := by change (-1 : Int) < values.length; omega
  small := show (-1 : Int) < 2 ^ 31 by decide
  sums i within := by
    change (i : Int) ≤ -1 at within
    omega

theorem lowered_eq (valid : Int) (small : i < 2 ^ 31) :
    lowered valid ((i : Int) - 1) = min valid (i - 1) := by
  unfold lowered
  split
  · rw [toInt32_eq (by omega) (by omega)]
    omega
  · omega

/-- The edited values agree with the old ones in front of the index, and so do the sums. -/
theorem Valid.edited (isValid : computer.Valid values) {edited prefixSum : List UInt32}
    (same : edited.take i = values.take i) (inside : i ≤ edited.length) (small : i < 2 ^ 31)
    (length : prefixSum.length = edited.length)
    (copied : ∀ j : Nat, (j : Int) ≤ lowered computer.prefixSumValidIndex ((i : Int) - 1) →
      read prefixSum j = read computer.prefixSum j) :
    Valid ⟨edited, prefixSum, lowered computer.prefixSumValidIndex ((i : Int) - 1)⟩ edited := by
  rw [lowered_eq _ small] at copied ⊢
  have low := isValid.low
  refine ⟨rfl, length, by dsimp only; omega, by dsimp only; omega, by dsimp only; omega, ?_⟩
  intro j within
  dsimp only at within ⊢
  rw [copied j within, isValid.sums j (by omega)]
  have sameNumbers : (numbers edited).take i = (numbers values).take i := by
    unfold numbers
    rw [← map_take, ← map_take, same]
  rw [sumBefore_congr sameNumbers (by omega)]

/-- The sums up to the valid index are copied. -/
theorem exists_copied (oldPrefixSum : List UInt32) (length : Nat) {valid : Int}
    (low : -1 ≤ valid) (old : valid < oldPrefixSum.length) (high : valid < length) :
    ∃ prefixSum, copied oldPrefixSum length valid = some prefixSum ∧ prefixSum.length = length ∧
      ∀ j : Nat, (j : Int) ≤ valid → read prefixSum j = read oldPrefixSum j := by
  unfold copied
  split
  next nonnegative =>
    obtain ⟨k, rfl⟩ := Int.eq_ofNat_of_zero_le nonnegative
    have part : subarray oldPrefixSum 0 ((k : Int) + 1) = oldPrefixSum.take (k + 1) :=
      subarray_zero (i := k + 1) (by omega)
    have lengthPart : (oldPrefixSum.take (k + 1)).length = k + 1 := by
      rw [length_take]
      omega
    rw [part, overwrite_zero (by rw [lengthPart, length_zeros]; omega)]
    refine ⟨_, rfl, ?_, ?_⟩
    · rw [length_append, length_drop, lengthPart, length_zeros]
      omega
    · intro j within
      rw [read_natCast, read_natCast, getElem?_append_left (by omega),
        getElem?_take_of_lt (by omega)]
  next negative =>
    refine ⟨_, rfl, length_zeros _, ?_⟩
    intro j within
    omega

/-- The values behind an edit get a new array of sums. -/
theorem Valid.exists_edited (isValid : computer.Valid values) {edited : List UInt32}
    (same : edited.take i = values.take i) (inside : i ≤ edited.length) (small : i < 2 ^ 31) :
    ∃ answer, (do
        let prefixSumValidIndex := lowered computer.prefixSumValidIndex ((i : Int) - 1)
        let prefixSum ← copied computer.prefixSum edited.length prefixSumValidIndex
        return (true, (⟨edited, prefixSum, prefixSumValidIndex⟩ : PrefixSumComputer))) =
          some answer ∧ answer.2.Valid edited := by
  have isLowered := lowered_eq computer.prefixSumValidIndex small
  have low := isValid.low
  have high := isValid.high
  have isLength := isValid.isLength
  obtain ⟨prefixSum, isCopied, length, sums⟩ := exists_copied computer.prefixSum edited.length
    (show -1 ≤ lowered computer.prefixSumValidIndex ((i : Int) - 1) by omega) (by omega) (by omega)
  dsimp only
  rw [isCopied]
  exact ⟨_, rfl, isValid.edited same inside small length sums⟩

theorem inserted_eq (inside : i ≤ values.length) (insertValues : List UInt32) :
    inserted values i insertValues = some (values.take i ++ insertValues ++ values.drop i) := by
  have lengthTake : (values.take i).length = i := by
    rw [length_take]
    omega
  have front : values.length + insertValues.length - i =
      insertValues.length + (values.length - i) := by omega
  have back := overwrite_back (values.take i ++ zeros insertValues.length) (values.drop i)
    (zeros (values.length - i)) (by rw [length_drop, length_zeros])
  have middle := overwrite_append (values.take i) insertValues
    (zeros insertValues.length ++ values.drop i)
    (by rw [length_append, length_zeros]; omega)
  rw [length_append, length_zeros, lengthTake, Int.natCast_add, append_assoc, append_assoc] at back
  rw [lengthTake, drop_left' (length_zeros _)] at middle
  unfold inserted
  dsimp only
  rw [overwrite_zeros inside (by omega), front, subarrayFrom_natCast inside]
  unfold zeros at back middle ⊢
  rw [← replicate_append_replicate, bind_eq_bind, bind_some, back, bind_some, middle]

theorem Valid.insertValues (isValid : computer.Valid values) (inside : i ≤ values.length)
    (small : i < 2 ^ 31) (insertValues : List UInt32) :
    ∃ answer, computer.insertValues i insertValues = some answer ∧
      answer.2.Valid (values.take i ++ insertValues ++ values.drop i) := by
  unfold PrefixSumComputer.insertValues
  rw [toUint32_eq (by omega) (by omega), isValid.isValues]
  dsimp only
  split
  next isEmpty =>
    rw [length_eq_zero_iff] at isEmpty
    subst isEmpty
    rw [append_nil, take_append_drop]
    exact ⟨_, rfl, isValid⟩
  next nonempty =>
    rw [inserted_eq inside, bind_eq_bind, bind_some]
    apply isValid.exists_edited _ _ small
    · rw [append_assoc, take_append_of_le_length (by rw [length_take]; omega),
        take_take, Nat.min_self]
    · rw [append_assoc, length_append, length_take]
      omega

theorem Valid.setValue (isValid : computer.Valid values) (inside : i < values.length)
    (small : i < 2 ^ 31) (value : UInt32) :
    (computer.setValue i value.toNat).2.Valid (values.set i value) := by
  unfold PrefixSumComputer.setValue
  have isStored : stored (some (toUint32 value.toNat)) = value := ofInt_toUint32 value
  rw [toUint32_eq (by omega) (by omega), isValid.isValues]
  dsimp only
  rw [read_of_lt inside, write_natCast, isStored]
  split
  next same =>
    have isValue : values[i] = value := by
      rw [← isStored, ← Option.some.inj same]
      apply UInt32.toNat.inj
      rw [toNat_stored_natCast]
      exact (Nat.mod_eq_of_lt values[i].toNat_lt).symm
    rw [← isValue, set_getElem_self]
    exact isValid
  next changed =>
    apply isValid.edited
    · exact take_set_of_le (Nat.le_refl i)
    · rw [length_set]
      omega
    · exact small
    · rw [isValid.isLength, length_set]
    · intro j within
      rfl

theorem remaining_eq {count : Nat} (within : i + count ≤ values.length) :
    remaining values i count = some (values.take i ++ values.drop (i + count)) := by
  have lengthZeros : ((values.length : Int) - count).toNat = values.length - count := by omega
  have back := overwrite_back (values.take i) (values.drop (i + count))
    (zeros (values.length - count - i)) (by rw [length_drop, length_zeros]; omega)
  rw [length_take, Nat.min_eq_left (by omega)] at back
  unfold remaining
  dsimp only
  rw [lengthZeros, overwrite_zeros (by omega) (by omega), bind_eq_bind, bind_some,
    ← Int.natCast_add, subarrayFrom_natCast within, back]

theorem Valid.removeValues {count : Nat} (isValid : computer.Valid values)
    (small : i < 2 ^ 31) (smallCount : count < 2 ^ 31) :
    ∃ answer, computer.removeValues i count = some answer ∧
      answer.2.Valid (values.take i ++ values.drop (i + count)) := by
  unfold PrefixSumComputer.removeValues
  rw [toUint32_eq (by omega) (by omega), toUint32_eq (by omega) (by omega), isValid.isValues]
  dsimp only
  split
  next outside =>
    refine ⟨_, rfl, ?_⟩
    rw [take_of_length_le (by omega), drop_eq_nil_of_le (by omega), append_nil]
    exact isValid
  next inside =>
    obtain ⟨removed, isRemoved, within, sameRest⟩ : ∃ removed : Nat,
        (if (count : Int) ≥ values.length - i then (values.length : Int) - i else count) = removed ∧
          i + removed ≤ values.length ∧
          values.drop (i + count) = values.drop (i + removed) := by
      split
      next more =>
        refine ⟨values.length - i, by omega, by omega, ?_⟩
        rw [drop_eq_nil_of_le (by omega), drop_eq_nil_of_le (by omega)]
      next fewer => exact ⟨count, rfl, by omega, rfl⟩
    rw [isRemoved, sameRest]
    split
    next isZero =>
      refine ⟨_, rfl, ?_⟩
      rw [show removed = 0 by omega, Nat.add_zero, take_append_drop]
      exact isValid
    next positive =>
      rw [remaining_eq within, bind_eq_bind, bind_some]
      apply isValid.exists_edited _ _ small
      · rw [take_append_of_le_length (by rw [length_take]; omega), take_take, Nat.min_self]
      · rw [length_append, length_take]
        omega

/-! ### Reads -/

/-- Every sum in front of an index has been stored. -/
def SumsBelow (values prefixSum : List UInt32) (i : Nat) : Prop :=
  prefixSum.length = values.length ∧
    ∀ j < i, read prefixSum j = some ((sumBefore (numbers values) (j + 1) % 2 ^ 32 : Nat) : Int)

theorem sumBefore_numbers_succ (inside : i < values.length) :
    sumBefore (numbers values) (i + 1) = sumBefore (numbers values) i + values[i].toNat := by
  rw [sumBefore_succ (by rwa [length_numbers])]
  exact congrArg _ (getElem_map _)

variable {prefixSum : List UInt32}

/-- One sum more is stored. -/
theorem SumsBelow.write (sums : SumsBelow values prefixSum i) (inside : i < values.length)
    {sum : Option Int} (isSum : (stored sum).toNat = sumBefore (numbers values) (i + 1) % 2 ^ 32) :
    SumsBelow values (write prefixSum i sum) (i + 1) := by
  refine ⟨by rw [length_write, sums.1], ?_⟩
  intro j below
  rw [write_natCast, read_natCast, getElem?_set]
  split
  next isIndex =>
    subst isIndex
    rw [if_pos (by rw [sums.1]; exact inside), map_some, isSum]
  next other =>
    rw [← read_natCast, sums.2 j (by omega)]

theorem SumsBelow.sumLoop (sums : SumsBelow values prefixSum i) (positive : 0 < i) (rounds : Nat)
    (within : i + rounds ≤ values.length) :
    SumsBelow values (sumLoop values rounds i prefixSum) (i + rounds) := by
  induction rounds generalizing i prefixSum with
  | zero => exact sums
  | succ rounds ih =>
    have isPrevious : ((i : Int) - 1) = ((i - 1 : Nat) : Int) := by omega
    have previous := sums.2 (i - 1) (by omega)
    have next : SumsBelow values
        (TypedArrays.write prefixSum i (plus (read prefixSum (i - 1)) (read values i)))
        (i + 1) := by
      apply sums.write (by omega)
      rw [isPrevious, previous, read_of_lt (show i < values.length by omega)]
      change (stored (some (_ + _))).toNat = _
      rw [← Int.natCast_add, toNat_stored_natCast, Nat.sub_add_cancel positive,
        sumBefore_numbers_succ (by omega), Nat.mod_add_mod]
    have done := ih next (by omega) (by omega)
    rw [show i + (rounds + 1) = i + 1 + rounds by omega]
    exact done

/-- The sums up to an index are computed where they are not valid. -/
theorem Valid.getValidPrefixSum (isValid : computer.Valid values) (inside : i < values.length)
    (small : i < 2 ^ 31) :
    (computer.getValidPrefixSum i).1 =
        some ((sumBefore (numbers values) (i + 1) % 2 ^ 32 : Nat) : Int) ∧
      (computer.getValidPrefixSum i).2.Valid values ∧
      (i : Int) ≤ (computer.getValidPrefixSum i).2.prefixSumValidIndex := by
  have low := isValid.low
  unfold PrefixSumComputer.getValidPrefixSum
  split
  next valid => exact ⟨isValid.sums i valid, isValid, valid⟩
  next beyond =>
    obtain ⟨start, isStart⟩ := Int.eq_ofNat_of_zero_le
      (show 0 ≤ computer.prefixSumValidIndex + 1 by omega)
    have sums : SumsBelow values computer.prefixSum start :=
      ⟨isValid.isLength, fun j below => isValid.sums j (by omega)⟩
    obtain ⟨startIndex, prefixSum, isFirst, positive, notBeyond, first⟩ : ∃ startIndex prefixSum,
          (if computer.prefixSumValidIndex + 1 = 0 then
              (computer.prefixSumValidIndex + 1 + 1,
                TypedArrays.write computer.prefixSum 0 (read computer.values 0))
            else (computer.prefixSumValidIndex + 1, computer.prefixSum)) =
              (((startIndex : Nat) : Int), prefixSum) ∧
          0 < startIndex ∧ startIndex ≤ i + 1 ∧ SumsBelow values prefixSum startIndex := by
      split
      next isZero =>
        obtain rfl : start = 0 := by omega
        refine ⟨1, _, by rw [isZero]; rfl, by omega, by omega, ?_⟩
        apply SumsBelow.write (i := 0) sums (by omega)
        have nonempty : 0 < values.length := by omega
        have firstRead : read values 0 = some (values[0].toNat : Int) := read_of_lt nonempty
        rw [isValid.isValues, firstRead, toNat_stored_natCast, sumBefore_numbers_succ nonempty,
          show sumBefore (numbers values) 0 = 0 from rfl, Nat.zero_add]
      next notZero => exact ⟨start, _, by rw [isStart], by omega, by omega, sums⟩
    have done := first.sumLoop positive (i + 1 - startIndex) (by omega)
    have rounds : ((i : Int) + 1 - startIndex).toNat = i + 1 - startIndex := by omega
    have newValid : toInt32 (max computer.prefixSumValidIndex i) = i := by
      rw [max_eq_right (by omega)]
      exact toInt32_eq (by omega) (by omega)
    dsimp only
    rw [isFirst, isValid.isValues, if_neg (by omega), newValid]
    rw [rounds]
    refine ⟨done.2 i (by omega), ⟨rfl, done.1, ?_, ?_, ?_, ?_⟩, Int.le_refl _⟩
    · dsimp only; omega
    · dsimp only; omega
    · dsimp only; omega
    · intro j within
      dsimp only at within
      exact done.2 j (by omega)

/-- The search stays around the index of the sum, and ends there. -/
theorem searchLoop_eq {sum k : Nat} {low high : Int}
    (sums : SumsBelow values prefixSum values.length) (total : (numbers values).sum < 2 ^ 32)
    (small : values.length ≤ 2 ^ 31) (isIndex : IsIndexOf (numbers values) sum k)
    (nonnegative : 0 ≤ low) (notAbove : low ≤ k) (notBelow : k ≤ high)
    (inside : high < values.length) (enough : high - low < rounds) (found : Int × Option Int) :
    searchLoop values prefixSum sum rounds low high found =
      some ((k : Int), some (sumBefore (numbers values) k : Int)) := by
  induction rounds generalizing low high found with
  | zero => omega
  | succ rounds ih =>
    obtain ⟨mid, isMid⟩ := Int.eq_ofNat_of_zero_le (show 0 ≤ low + (high - low) / 2 by omega)
    have midInside : mid < values.length := by omega
    have same : toInt32 (low + (high - low) / 2) = mid := by
      rw [isMid]
      exact toInt32_eq (by omega) (by omega)
    have isSum := sums.2 mid midInside
    rw [Nat.mod_eq_of_lt (Nat.lt_of_le_of_lt (sumBefore_le _ _) total)] at isSum
    have isStop := sumBefore_numbers_succ midInside
    have isStart : minus (some ((sumBefore (numbers values) (mid + 1) : Nat) : Int))
        (some (values[mid].toNat : Int)) = some (sumBefore (numbers values) mid : Int) := by
      change some (_ - _) = _
      congr 1
      omega
    unfold searchLoop
    rw [if_pos (by omega), same]
    dsimp only
    rw [isSum, read_of_lt midInside, isStart]
    dsimp only [any_some]
    split
    next before =>
      have less := isIndex.lt_of_lt (Int.ofNat_lt.mp (of_decide_eq_true before))
      exact ih nonnegative notAbove (by omega) (by omega) (by omega) _
    next notBefore =>
      split
      next behind =>
        have greater := isIndex.le_of_le (Int.ofNat_le.mp (of_decide_eq_true behind))
        exact ih (by omega) (by omega) notBelow inside (by omega) _
      next notBehind =>
        have notLess : ¬k < mid := by
          intro less
          have := sumBefore_mono (numbers values) (show k + 1 ≤ mid by omega)
          have := isIndex.2.2
          rw [decide_eq_true_eq] at notBefore
          omega
        have notGreater : ¬mid < k := by
          intro greater
          have := sumBefore_mono (numbers values) (show mid + 1 ≤ k by omega)
          have := isIndex.2.1
          rw [decide_eq_true_eq] at notBehind
          omega
        rw [show mid = k by omega]

theorem Valid.getTotalSum (isValid : computer.Valid values) (small : values.length ≤ 2 ^ 31) :
    computer.getTotalSum.1 = some (((numbers values).sum % 2 ^ 32 : Nat) : Int) ∧
      computer.getTotalSum.2.Valid values ∧
      (values.length : Int) - 1 ≤ computer.getTotalSum.2.prefixSumValidIndex := by
  unfold PrefixSumComputer.getTotalSum
  rw [isValid.isValues]
  split
  next isEmpty =>
    have low := isValid.low
    rw [length_eq_zero_iff] at isEmpty
    subst isEmpty
    exact ⟨rfl, isValid, low⟩
  next nonempty =>
    have isLast : (values.length : Int) - 1 = ((values.length - 1 : Nat) : Int) := by omega
    have answers := isValid.getValidPrefixSum (i := values.length - 1) (by omega) (by omega)
    rw [Nat.sub_add_cancel (by omega), ← length_numbers values, sumBefore_length,
      length_numbers] at answers
    rw [isLast]
    exact answers

theorem Valid.getPrefixSum (isValid : computer.Valid values) (inside : i < values.length)
    (small : i < 2 ^ 31) :
    (computer.getPrefixSum i).1 = some ((sumBefore (numbers values) (i + 1) % 2 ^ 32 : Nat) : Int) ∧
      (computer.getPrefixSum i).2.Valid values := by
  have answers := isValid.getValidPrefixSum inside small
  unfold PrefixSumComputer.getPrefixSum
  rw [if_neg (by omega), toUint32_eq (by omega) (by omega)]
  exact ⟨answers.1, answers.2.1⟩

/-- The index of a sum is found, and what remains of the sum there. -/
theorem Valid.getIndexOf {sum k : Nat} (isValid : computer.Valid values)
    (small : values.length ≤ 2 ^ 31) (total : (numbers values).sum < 2 ^ 32)
    (isIndex : IsIndexOf (numbers values) sum k) :
    ∃ after, computer.getIndexOf sum =
        some (⟨some k, some ((sum : Int) - sumBefore (numbers values) k)⟩, after) ∧
      after.Valid values := by
  obtain ⟨-, isValidAfter, upTo⟩ := isValid.getTotalSum small
  have inside : k < values.length := by
    rw [← length_numbers values]
    exact isIndex.1
  have sums : SumsBelow values computer.getTotalSum.2.prefixSum values.length :=
    ⟨isValidAfter.isLength, fun j below => isValidAfter.sums j (by omega)⟩
  have found : searchLoop values computer.getTotalSum.2.prefixSum sum values.length 0
      (values.length - 1) (0, some 0) =
        some ((k : Int), some (sumBefore (numbers values) k : Int)) :=
    searchLoop_eq sums total small isIndex (by omega) (by omega) (by omega) (by omega) (by omega) _
  unfold PrefixSumComputer.getIndexOf
  dsimp only
  rw [isValidAfter.isValues, found]
  exact ⟨_, rfl, isValidAfter⟩

end PrefixSumComputer

end CodeEditor.PrefixSum

import CodeEditor.Foundation.Reads
import CodeEditor.ViewLayout.Queries
import CodeEditor.ViewLayout.VerticalLayout

/-!
# Prefix sums

The prefix sums up to `prefixSumValidIndex` are right. Whoever asks for another one moves this
index, and nothing else that a question can see.
-/

namespace CodeEditor.ViewLayout

open Reads Thresholds List Nat

theorem toInt32_eq {value : Int} (low : -2 ^ 31 ≤ value) (high : value < 2 ^ 31) :
    toInt32 value = value := by
  unfold toInt32
  apply Int.bmod_eq_of_le <;> omega

theorem toInt32_toInt32 (value : Int) : toInt32 (toInt32 value) = toInt32 value :=
  Int.bmod_bmod

theorem toInt32_truncate (value : Rat) : toInt32 (truncate value) = truncate value :=
  toInt32_toInt32 _

theorem truncate_intCast (value : Int) : truncate value = toInt32 value := by
  unfold truncate
  simp

/-- The zone of a whitespace. -/
def EditorWhitespace.zone (whitespace : EditorWhitespace) : Zone :=
  ⟨whitespace.id, whitespace.afterLineNumber, whitespace.height⟩

/-- A whitespace without its prefix sum. -/
def EditorWhitespace.withoutSum (whitespace : EditorWhitespace) : EditorWhitespace :=
  { whitespace with prefixSum := 0 }

/-- The prefix sums up to an index are the heights of the whitespaces up to there. -/
def SumsTo (arr : List EditorWhitespace) (prefixSumValidIndex : Int) : Prop :=
  ∀ (i : Nat) whitespace, (i : Int) ≤ prefixSumValidIndex → arr[i]? = some whitespace →
    whitespace.prefixSum = totalHeight ((arr.map EditorWhitespace.zone).take (i + 1))

variable {arr changed : List EditorWhitespace}

theorem map_zone_of_withoutSum
    (same : changed.map EditorWhitespace.withoutSum = arr.map EditorWhitespace.withoutSum) :
    changed.map EditorWhitespace.zone = arr.map EditorWhitespace.zone := by
  have zones := congrArg (List.map EditorWhitespace.zone) same
  rw [map_map, map_map] at zones
  exact zones

/-- A whitespace gets its prefix sum. -/
theorem sumsTo_set {i : Nat} (sum : Int)
    (isHere : arr[i]? = some whitespace) (sums : SumsTo arr (i - 1))
    (isSum : sum = totalHeight ((arr.map EditorWhitespace.zone).take (i + 1))) :
    (arr.set i { whitespace with prefixSum := sum }).map EditorWhitespace.withoutSum =
        arr.map EditorWhitespace.withoutSum ∧
      SumsTo (arr.set i { whitespace with prefixSum := sum }) i := by
  have same : (arr.set i { whitespace with prefixSum := sum }).map EditorWhitespace.withoutSum =
      arr.map EditorWhitespace.withoutSum := by
    apply ext_getElem?
    intro j
    rw [getElem?_map, getElem?_map, getElem?_set]
    split_ifs with isIndex inside
    · subst isIndex
      rw [isHere]
      rfl
    · subst isIndex
      rw [getElem?_eq_none (by omega)]
    · rfl
  refine ⟨same, ?_⟩
  intro j other upTo isOther
  rw [map_zone_of_withoutSum same]
  rw [getElem?_set] at isOther
  split_ifs at isOther with isIndex inside
  · subst isIndex
    obtain rfl := Option.some.inj isOther
    exact isSum
  · exact sums j other (by omega) isOther

theorem totalHeight_take_succ {i : Nat} (isHere : arr[i]? = some whitespace) :
    totalHeight ((arr.map EditorWhitespace.zone).take (i + 1)) =
      totalHeight ((arr.map EditorWhitespace.zone).take i) + whitespace.height := by
  rw [take_add_one, getElem?_map, isHere, totalHeight_append]
  simp [totalHeight, EditorWhitespace.zone]

namespace LinesLayout

theorem accumulateLoop_spec {count i : Nat} (positive : 1 ≤ i) (sums : SumsTo arr (i - 1))
    (isResult : accumulateLoop count i arr = some changed) :
    changed.map EditorWhitespace.withoutSum = arr.map EditorWhitespace.withoutSum ∧
      SumsTo changed (i + count - 1) := by
  induction count generalizing i arr with
  | zero =>
    obtain rfl := Option.some.inj isResult
    exact ⟨rfl, by simpa using sums⟩
  | succ count ih =>
    obtain ⟨previous, isPrevious, isResult⟩ := Option.bind_eq_some_iff.mp isResult
    obtain ⟨whitespace, isHere, isResult⟩ := Option.bind_eq_some_iff.mp isResult
    have previousSum := sums (i - 1) previous (by omega) isPrevious
    rw [Nat.sub_add_cancel positive] at previousSum
    obtain ⟨same, sumsHere⟩ := sumsTo_set (previous.prefixSum + whitespace.height) isHere
      sums (by rw [totalHeight_take_succ isHere, previousSum])
    obtain ⟨sameRest, sumsRest⟩ := ih (Nat.le_add_left 1 i) (by simpa using sumsHere) isResult
    refine ⟨sameRest.trans same, ?_⟩
    have bound : ((i + 1 : Nat) : Int) + count - 1 = i + (count + 1 : Nat) - 1 := by omega
    rwa [bound] at sumsRest

theorem accumulateLoop_isSome {count i : Nat} (positive : 1 ≤ i) (inside : i + count ≤ arr.length) :
    (accumulateLoop count i arr).isSome := by
  induction count generalizing i arr with
  | zero => rfl
  | succ count ih =>
    rw [accumulateLoop, getElem?_eq_getElem (by omega : i - 1 < arr.length),
      getElem?_eq_getElem (by omega : i < arr.length)]
    apply ih (le_add_left 1 i)
    rw [length_set]
    omega

theorem accumulate_spec {valid : Int} (low : -1 ≤ valid) (sums : SumsTo arr valid)
    (isResult : accumulate arr valid index = some changed) :
    changed.map EditorWhitespace.withoutSum = arr.map EditorWhitespace.withoutSum ∧
      SumsTo changed (max valid index) := by
  unfold accumulate at isResult
  by_cases isStart : max 0 (valid + 1) = 0
  · rw [if_pos isStart] at isResult
    obtain ⟨first, isFirst, isResult⟩ := Option.bind_eq_some_iff.mp isResult
    obtain ⟨same, sumsHere⟩ := sumsTo_set first.height isFirst
      (fun i _ negative => absurd negative (by omega))
      (by rw [totalHeight_take_succ isFirst]; simp [totalHeight])
    obtain ⟨sameRest, sumsRest⟩ := accumulateLoop_spec le_rfl (by simpa using sumsHere) isResult
    refine ⟨sameRest.trans same, ?_⟩
    have bound : ((1 : Nat) : Int) + index - 1 = max valid index := by omega
    rwa [bound] at sumsRest
  · rw [if_neg isStart] at isResult
    obtain ⟨start, isNat⟩ := Int.eq_ofNat_of_zero_le (show 0 ≤ max 0 (valid + 1) by omega)
    rw [isNat, Int.toNat_natCast] at isResult
    have bound : (start : Int) - 1 = valid := by omega
    obtain ⟨same, sumsRest⟩ := accumulateLoop_spec (by omega) (by rwa [bound]) isResult
    refine ⟨same, ?_⟩
    have bound : (start : Int) + (index + 1 - start : Nat) - 1 = max valid index := by omega
    rwa [bound] at sumsRest

theorem accumulate_isSome (valid : Int) {index : Nat} (inside : index < arr.length) :
    (accumulate arr valid index).isSome := by
  unfold accumulate
  dsimp only
  split_ifs with isStart
  · rw [getElem?_eq_getElem (by omega : 0 < arr.length)]
    apply accumulateLoop_isSome le_rfl
    rw [length_set]
    omega
  · by_cases isKnown : index + 1 ≤ (max 0 (valid + 1)).toNat
    · rw [Nat.sub_eq_zero_of_le isKnown]
      rfl
    · exact accumulateLoop_isSome (by omega) (by omega)

end LinesLayout

/-!
## Changes of the array of whitespaces

Every change lowers `prefixSumValidIndex` below the first whitespace it touches, and keeps the
whitespaces in the order of their lines.
-/

/-- The whitespaces stand in the order of their lines, and the prefix sums up to the index are
right. -/
structure Kept (arr : List EditorWhitespace) (prefixSumValidIndex : Int) : Prop where
  sorted : arr.Pairwise fun a b => a.afterLineNumber ≤ b.afterLineNumber
  sums : SumsTo arr prefixSumValidIndex
  low : -1 ≤ prefixSumValidIndex

variable {prefixSumValidIndex : Int}

/-- The sums below the first change stay right. -/
theorem SumsTo.of_take (same : changed.take k = arr.take k)
    (sums : SumsTo arr prefixSumValidIndex) : SumsTo changed (min prefixSumValidIndex (k - 1)) := by
  intro i whitespace upTo isHere
  have inFront : i < k := by omega
  have isOld : arr[i]? = some whitespace := by
    rw [← getElem?_take_of_lt inFront, ← same, getElem?_take_of_lt inFront, isHere]
  rw [sums i whitespace (by omega) isOld, ← map_take, ← map_take]
  have front : ∀ list : List EditorWhitespace, list.take (i + 1) = (list.take k).take (i + 1) := by
    intro list
    rw [take_take, min_eq_left inFront]
  rw [front arr, front changed, same]

/-- The search for an index goes to the left of a whitespace. -/
def SearchesLeft (afterLineNumber ordinal : Int) (whitespace : EditorWhitespace) : Prop :=
  afterLineNumber < whitespace.afterLineNumber ∨
    afterLineNumber = whitespace.afterLineNumber ∧ ordinal < whitespace.ordinal

/-- What the search knows of a whitespace on its one side holds of all of them there. -/
theorem findInsertionIndexLoop_spec {lower upper : EditorWhitespace → Prop}
    (lowers : ∀ other, ¬SearchesLeft afterLineNumber ordinal other → lower other)
    (uppers : ∀ other, SearchesLeft afterLineNumber ordinal other → upper other)
    (falls : arr.Pairwise fun a b => lower b → lower a)
    (rises : arr.Pairwise fun a b => upper a → upper b)
    {low high : Nat} (ordered : low ≤ high) (inside : high ≤ arr.length)
    (before : ∀ i other, i < low → arr[i]? = some other → lower other)
    (behind : ∀ i other, high ≤ i → arr[i]? = some other → upper other) :
    findInsertionIndexLoop arr afterLineNumber ordinal low high ≤ arr.length ∧
      (∀ i other, i < findInsertionIndexLoop arr afterLineNumber ordinal low high →
        arr[i]? = some other → lower other) ∧
      (∀ i other, findInsertionIndexLoop arr afterLineNumber ordinal low high ≤ i →
        arr[i]? = some other → upper other) := by
  have spreads : ∀ {R : EditorWhitespace → EditorWhitespace → Prop}, arr.Pairwise R →
      (∀ a, R a a) → ∀ {i j : Nat} {a b : EditorWhitespace}, i ≤ j → arr[i]? = some a →
      arr[j]? = some b → R a b := by
    intro R pairwise reflexive i j a b upTo isFirst isSecond
    obtain ⟨inFirst, rfl⟩ := List.getElem?_eq_some_iff.mp isFirst
    obtain ⟨inSecond, rfl⟩ := List.getElem?_eq_some_iff.mp isSecond
    rcases eq_or_lt_of_le upTo with rfl | less
    · exact reflexive _
    · exact List.pairwise_iff_getElem.mp pairwise i j inFirst inSecond less
  have left : ∀ {mid whitespace}, arr[mid]? = some whitespace →
      SearchesLeft afterLineNumber ordinal whitespace →
      ∀ i other, mid ≤ i → arr[i]? = some other → upper other :=
    fun isHere isLeft i other above isOther =>
      spreads rises (fun _ => id) above isHere isOther (uppers _ isLeft)
  have right : ∀ {mid whitespace}, arr[mid]? = some whitespace →
      ¬SearchesLeft afterLineNumber ordinal whitespace →
      ∀ i other, i < mid + 1 → arr[i]? = some other → lower other :=
    fun isHere isRight i other below isOther =>
      spreads falls (fun _ => id) (le_of_lt_succ below) isOther isHere (lowers _ isRight)
  unfold SearchesLeft at left right
  fun_induction findInsertionIndexLoop arr afterLineNumber ordinal low high with
  | case1 low high less mid isNone =>
    rw [List.getElem?_eq_none_iff] at isNone
    omega
  | case2 low high less mid whitespace isHere same smaller ih =>
    exact ih (by omega) (by omega) before (left isHere (by omega))
  | case3 low high less mid whitespace isHere same notSmaller ih =>
    exact ih (by omega) inside (right isHere (by omega)) behind
  | case4 low high less mid whitespace isHere differs smaller ih =>
    exact ih (by omega) (by omega) before (left isHere (by omega))
  | case5 low high less mid whitespace isHere differs notSmaller ih =>
    exact ih (by omega) inside (right isHere (by omega)) behind
  | case6 low high notLess =>
    have same : low = high := by omega
    subst same
    exact ⟨inside, before, behind⟩

theorem insertIdx_eq_take_append_drop (whitespace : EditorWhitespace) {k : Nat}
    (inside : k ≤ arr.length) :
    arr.insertIdx k whitespace = arr.take k ++ whitespace :: arr.drop k := by
  induction arr generalizing k with
  | nil =>
    obtain rfl := le_zero.mp inside
    rfl
  | cons first arr ih =>
    cases k with
    | zero => rfl
    | succ k =>
      rw [insertIdx_succ_cons, ih (le_of_succ_le_succ inside)]
      rfl

/-- Inserting keeps every order that the search goes by. -/
theorem pairwise_insert {R : EditorWhitespace → EditorWhitespace → Prop}
    (transitive : ∀ {a b c}, R a b → R b c → R a c) (sorted : arr.Pairwise R)
    {whitespace : EditorWhitespace}
    (lowers : ∀ other,
      ¬SearchesLeft whitespace.afterLineNumber whitespace.ordinal other → R other whitespace)
    (uppers : ∀ other,
      SearchesLeft whitespace.afterLineNumber whitespace.ordinal other → R whitespace other) :
    let index := findInsertionIndex arr whitespace.afterLineNumber whitespace.ordinal
    index ≤ arr.length ∧ (arr.insertIdx index whitespace).Pairwise R := by
  intro index
  obtain ⟨inside, before, behind⟩ : index ≤ arr.length ∧
      (∀ i other, i < index → arr[i]? = some other → R other whitespace) ∧
      (∀ i other, index ≤ i → arr[i]? = some other → R whitespace other) :=
    findInsertionIndexLoop_spec lowers uppers (sorted.imp fun ordered => transitive ordered)
      (sorted.imp fun ordered isBefore => transitive isBefore ordered) (zero_le _) le_rfl
      (fun i _ isNegative => absurd isNegative (not_lt_zero i)) fun i other outside isOther => by
        rw [getElem?_eq_none outside] at isOther
        simp at isOther
  refine ⟨inside, ?_⟩
  rw [insertIdx_eq_take_append_drop whitespace inside]
  have front : ∀ other ∈ arr.take index, R other whitespace := by
    intro other isMember
    obtain ⟨i, isOther⟩ := mem_iff_getElem?.mp isMember
    rw [getElem?_take] at isOther
    split_ifs at isOther with less
    exact before i other less isOther
  have back : ∀ other ∈ arr.drop index, R whitespace other := by
    intro other isMember
    obtain ⟨i, isOther⟩ := mem_iff_getElem?.mp isMember
    rw [getElem?_drop] at isOther
    exact behind _ other (le_add_right index i) isOther
  refine pairwise_append.mpr ⟨sorted.sublist (take_sublist index arr),
    pairwise_cons.mpr ⟨back, sorted.sublist (drop_sublist index arr)⟩, ?_⟩
  intro first isFirst second isSecond
  rcases mem_cons.mp isSecond with rfl | isBehind
  · exact front first isFirst
  · exact transitive (front first isFirst) (back second isBehind)

/-- Nothing but the height changes. -/
theorem map_changeHeight {B : Type} {field : EditorWhitespace → B}
    (frame : ∀ whitespace newHeight, field { whitespace with height := newHeight } =
      field whitespace) (index : Nat) (newHeight : Int) :
    (arr.modify index fun whitespace => { whitespace with height := newHeight }).map field =
      arr.map field := by
  apply ext_getElem?
  intro i
  rw [getElem?_map, getElem?_map, getElem?_modify]
  cases arr[i]? with
  | none => rfl
  | some whitespace =>
    by_cases isHere : index = i
    · simp [isHere, frame]
    · simp [isHere]

theorem pairwise_sort (list : List EditorWhitespace) :
    (list.mergeSort sortsBefore).Pairwise fun a b => sortsBefore a b := by
  apply pairwise_mergeSort
  · intro a b c first second
    unfold sortsBefore at *
    split_ifs at * <;> simp only [decide_eq_true_eq] at * <;> omega
  · intro a b
    unfold sortsBefore
    split_ifs <;> simp only [Bool.or_eq_true, decide_eq_true_eq] <;> omega

namespace Kept

section

variable (kept : Kept arr prefixSumValidIndex)

include kept

theorem insert (whitespace : EditorWhitespace) :
    let index := findInsertionIndex arr whitespace.afterLineNumber whitespace.ordinal
    Kept (arr.insertIdx index whitespace) (min prefixSumValidIndex (index - 1)) ∧
      (arr.insertIdx index whitespace).Perm (whitespace :: arr) := by
  intro index
  obtain ⟨inside, sorted⟩ := @pairwise_insert arr
    (fun a b => a.afterLineNumber ≤ b.afterLineNumber) le_trans kept.sorted whitespace
    (fun other notLeft => not_lt.mp fun less => notLeft (.inl less))
    (fun other isLeft => isLeft.elim le_of_lt fun same => same.1.le)
  refine ⟨⟨sorted, ?_, ?_⟩, perm_insertIdx whitespace arr inside⟩
  · apply SumsTo.of_take _ kept.sums
    exact take_insertIdx_eq_take_of_le arr whitespace index index le_rfl
  · have := kept.low
    omega

theorem remove (index : Nat) : Kept (arr.eraseIdx index) (min prefixSumValidIndex (index - 1)) := by
  refine ⟨kept.sorted.sublist (eraseIdx_sublist arr index), ?_, ?_⟩
  · apply SumsTo.of_take _ kept.sums
    exact take_eraseIdx_eq_take_of_le arr index index le_rfl
  · have := kept.low
    omega

theorem changeHeight (index : Nat) (newHeight : Int) :
    Kept (arr.modify index fun whitespace => { whitespace with height := newHeight })
      (min prefixSumValidIndex (index - 1)) := by
  refine ⟨?_, ?_, ?_⟩
  · have sorted := pairwise_map.mpr kept.sorted
    rw [← map_changeHeight (fun _ _ => rfl) index newHeight] at sorted
    exact pairwise_map.mp sorted
  · apply SumsTo.of_take _ kept.sums
    rw [take_modify]
    apply modify_eq_self
    rw [length_take]
    exact min_le_left _ _
  · have := kept.low
    omega

/-- Lines move without changing places. -/
theorem moveLines {line : Int → Int} (monotone : ∀ a b, a ≤ b → line a ≤ line b) :
    Kept (arr.map (.moveLine line)) prefixSumValidIndex := by
  refine ⟨?_, ?_, kept.low⟩
  · apply pairwise_map.mpr
    exact kept.sorted.imp fun ordered => monotone _ _ ordered
  · intro i whitespace upTo isHere
    rw [getElem?_map] at isHere
    obtain ⟨old, isOld, rfl⟩ := Option.map_eq_some_iff.mp isHere
    have sum := kept.sums i old upTo isOld
    have heights : ∀ list : List EditorWhitespace,
        totalHeight ((list.map (.moveLine line)).map EditorWhitespace.zone) =
          totalHeight (list.map EditorWhitespace.zone) := by
      intro list
      unfold totalHeight
      rw [map_map, map_map, map_map]
      rfl
    rw [← map_take] at sum
    rw [← map_take, ← map_take, heights]
    exact sum

end

theorem sort (list : List EditorWhitespace) : Kept (list.mergeSort sortsBefore) (-1) := by
  refine ⟨?_, fun i _ isNegative => by omega, le_rfl⟩
  apply (pairwise_sort list).imp
  intro a b isBefore
  unfold sortsBefore at isBefore
  split_ifs at isBefore with same
  · exact same.le
  · simpa using isBefore

end Kept

end CodeEditor.ViewLayout

import CodeEditor.Foundation.RunLength
import CodeEditor.Tokens.ContiguousTokens

/-!
# Tokens that cover their line

A token array is a list of runs: it gives each character of its line the metadata of a token.
The operations on arrays delete, insert and append characters in this list.
-/

namespace CodeEditor.Tokens

open ContiguousTokensEditing List Option Nat

/-! ## Finding tokens -/

/-- Where an index lies in a token array: the tokens in front of the found one end at the index or
in front of it, and the found one ends behind it unless it is the last one. -/
structure FoundAt (tokens : List Token) (desiredIndex index : Nat) : Prop where
  inside : index < tokens.length
  before : ∀ k (_ : k < index), (tokens.getD k (0, 0)).1 ≤ desiredIndex
  behind : index + 1 < tokens.length → desiredIndex < (tokens.getD index (0, 0)).1

variable {tokens : List Token} {start : Nat}

theorem Rising.getD_lt (rising : Rising start tokens) {i j : Nat} (lt : i < j)
    (inside : j < tokens.length) : (tokens.getD i (0, 0)).1 < (tokens.getD j (0, 0)).1 := by
  have apart := pairwise_iff_getElem.mp rising.2 i j (by omega) inside lt
  rwa [getD_eq_getElem?_getD, getD_eq_getElem?_getD,
    getElem?_eq_getElem (by omega), getElem?_eq_getElem inside]

theorem foundAt_findIndexLoop (rising : Rising start tokens) (desiredIndex fuel : Nat)
    {low high : Nat} (ordered : low ≤ high) (inside : high < tokens.length)
    (enough : high - low ≤ fuel)
    (before : ∀ k (_ : k < low), (tokens.getD k (0, 0)).1 ≤ desiredIndex)
    (behind : high + 1 < tokens.length → desiredIndex < (tokens.getD high (0, 0)).1) :
    FoundAt tokens desiredIndex (findIndexLoop tokens desiredIndex fuel low high) := by
  induction fuel generalizing low high with
  | zero =>
    obtain rfl : low = high := by omega
    exact ⟨inside, before, behind⟩
  | succ fuel ih =>
    unfold findIndexLoop
    by_cases search : low < high
    · rw [if_pos search]
      have midLow : low ≤ low + (high - low) / 2 := le_add_right _ _
      have midHigh : low + (high - low) / 2 < high := by omega
      generalize low + (high - low) / 2 = mid at *
      have upTo : ∀ bound, (tokens.getD mid (0, 0)).1 ≤ bound →
          ∀ k (_ : k < mid + 1), (tokens.getD k (0, 0)).1 ≤ bound := by
        intro bound le k lt
        by_cases same : k = mid
        · rwa [same]
        · have apart := Rising.getD_lt rising (show k < mid by omega) (by omega)
          omega
      by_cases here : (tokens.getD mid (0, 0)).1 = desiredIndex
      · rw [if_pos here]
        refine ⟨by omega, upTo desiredIndex here.le, ?_⟩
        intro next
        rw [← here]
        exact Rising.getD_lt rising (lt_succ_self mid) (by omega)
      · rw [if_neg here]
        by_cases less : (tokens.getD mid (0, 0)).1 < desiredIndex
        · rw [if_pos less]
          exact ih (by omega) inside (by omega) (upTo desiredIndex less.le) behind
        · rw [if_neg less]
          exact ih midLow (by omega) (by omega) before (fun _ => by omega)
    · rw [if_neg search]
      obtain rfl : low = high := by omega
      exact ⟨inside, before, behind⟩

theorem foundAt_findIndexInTokensArray (rising : Rising start tokens) (nonempty : tokens ≠ [])
    (desiredIndex : Nat) :
    FoundAt tokens desiredIndex (findIndexInTokensArray tokens desiredIndex) := by
  have positive : 0 < tokens.length := length_pos_iff.mpr nonempty
  unfold findIndexInTokensArray
  by_cases short : tokens.length ≤ 1
  · rw [if_pos short]
    exact ⟨positive, fun k lt => by omega, fun lt => by omega⟩
  · rw [if_neg short]
    exact foundAt_findIndexLoop rising desiredIndex tokens.length (zero_le _) (by omega)
      (by omega) (fun k lt => by omega) (fun lt => by omega)

/-- The tokens around the found one. -/
theorem FoundAt.split (found : FoundAt tokens desiredIndex index) :
    ∃ front token back, tokens = front ++ token :: back ∧ front.length = index ∧
      tokens.take index = front ∧ tokens.getD index (0, 0) = token ∧
      tokens.drop index = token :: back ∧ tokens.drop (index + 1) = back ∧
      (∀ t ∈ front, t.1 ≤ desiredIndex) ∧ (back ≠ [] → desiredIndex < token.1) := by
  have inside := found.inside
  refine ⟨tokens.take index, tokens[index], tokens.drop (index + 1), ?_, ?_, rfl, ?_, ?_, rfl,
    ?_, ?_⟩
  · rw [← List.drop_eq_getElem_cons inside, List.take_append_drop]
  · rw [List.length_take, min_eq_left inside.le]
  · rw [List.getD_eq_getElem?_getD, List.getElem?_eq_getElem inside, getD_some]
  · exact List.drop_eq_getElem_cons inside
  · intro t member
    obtain ⟨k, isElement⟩ := List.mem_iff_getElem?.mp member
    have bound : k < index := by
      have lt := (List.getElem?_eq_some_iff.mp isElement).1
      rw [List.length_take] at lt
      omega
    have le := found.before k bound
    rw [List.getElem?_take_of_lt bound] at isElement
    rwa [List.getD_eq_getElem?_getD, isElement, getD_some] at le
  · intro some
    have next : index + 1 < tokens.length := by
      by_contra last
      exact some (List.drop_eq_nil_of_le (by omega))
    have lt := found.behind next
    rwa [List.getD_eq_getElem?_getD, List.getElem?_eq_getElem inside, getD_some] at lt

theorem stopOf_le {bound : Nat} (le : ∀ t ∈ tokens, t.1 ≤ bound) : stopOf 0 tokens ≤ bound := by
  unfold stopOf
  cases last : tokens.getLast? with
  | none => exact zero_le _
  | some t => exact le t (mem_of_getLast? last)

theorem lastEndOffset_eq (tokens : List Token) : lastEndOffset tokens = stopOf 0 tokens := by
  unfold lastEndOffset stopOf
  rw [getLastD_eq_getLast?]
  cases tokens.getLast? <;> rfl

/-! ## Runs under edits -/

theorem take_replicate_append {n m : Nat} (le : n ≤ m) (a : UInt32) (rest : List UInt32) :
    (List.replicate m a ++ rest).take n = List.replicate n a := by
  rw [take_append_of_le_length (by simpa using le), take_replicate, min_eq_left le]

theorem drop_replicate_append {n m : Nat} (le : n ≤ m) (a : UInt32) (rest : List UInt32) :
    (List.replicate m a ++ rest).drop n = List.replicate (m - n) a ++ rest := by
  rw [drop_append_of_le_length (by simpa using le), drop_replicate]

/-- The characters that a token and the tokens around it describe. -/
theorem expand_split (front : List Token) (token : Token) (back : List Token) :
    expand (front ++ token :: back) =
      expand front ++ (List.replicate (token.1 - stopOf 0 front) token.2 ++
        expandFrom token.1 back) := by
  unfold expand
  rw [expandFrom_append, expandFrom]

variable {index : Nat} {token : Token} {front : List Token}

theorem take_expand_split (rising : Rising 0 front) (start : stopOf 0 front ≤ index)
    (stop : index ≤ token.1) (back : List Token) : (expand (front ++ token :: back)).take index =
      expand front ++ List.replicate (index - stopOf 0 front) token.2 := by
  rw [expand_split, take_append, rising.length_expand,
    take_of_length_le (by rw [rising.length_expand]; exact start),
    take_replicate_append (by omega)]

theorem drop_expand_split (rising : Rising 0 front) (start : stopOf 0 front ≤ index)
    (stop : index ≤ token.1) (back : List Token) : (expand (front ++ token :: back)).drop index =
      List.replicate (token.1 - index) token.2 ++ expandFrom token.1 back := by
  rw [expand_split, drop_append, rising.length_expand,
    drop_of_length_le (by rw [rising.length_expand]; exact start), nil_append,
    drop_replicate_append (by omega)]
  congr 2
  omega

theorem drop_expand_split_of_le (rising : Rising 0 front) (start : stopOf 0 front ≤ token.1)
    (stop : token.1 ≤ index) (back : List Token) :
    (expand (front ++ token :: back)).drop index =
      (expandFrom token.1 back).drop (index - token.1) := by
  rw [expand_split, drop_append, rising.length_expand,
    drop_of_length_le (by rw [rising.length_expand]; omega), nil_append,
    drop_append, length_replicate,
    drop_of_length_le (by rw [length_replicate]; omega), nil_append]
  congr 1
  omega

theorem moveDown_of_rising {delta start : Nat} (rising : Rising (start + 1) tokens)
    (le : delta ≤ start) : moveDown delta (start - delta) tokens = moveRuns (· - delta) tokens := by
  induction tokens generalizing start with
  | nil => rfl
  | cons token tokens ih =>
    obtain ⟨first, rest⟩ := rising_cons.mp rising
    unfold moveDown
    rw [if_pos (by omega), ih rest (by omega)]
    rfl

/-- The tokens behind the first one that is touched, with the characters up to `toCh` deleted. -/
theorem moveDown_spec {fromCh toCh start : Nat} (ordered : fromCh ≤ toCh)
    (rising : Rising (start + 1) tokens) (le : start ≤ toCh) :
    expandFrom fromCh (moveDown (toCh - fromCh) fromCh tokens) =
        (expandFrom start tokens).drop (toCh - start) ∧
      Rising (fromCh + 1) (moveDown (toCh - fromCh) fromCh tokens) := by
  induction tokens generalizing start with
  | nil => exact ⟨by simp [moveDown, expandFrom], rising_nil _⟩
  | cons token tokens ih =>
    obtain ⟨first, rest⟩ := rising_cons.mp rising
    unfold moveDown
    by_cases isBehind : token.1 - (toCh - fromCh) > fromCh
    · have moved := moveDown_of_rising rest (show toCh - fromCh ≤ token.1 by omega)
      have movedRising := rest.sub (show toCh - fromCh ≤ token.1 + 1 by omega)
      rw [if_pos isBehind, moved, expandFrom, expandFrom]
      constructor
      · simp only
        rw [expandFrom_sub (by omega) (rest.le (le_succ _)), drop_replicate_append (by omega)]
        congr 2
        omega
      · refine rising_cons.mpr ⟨by simp only; omega, ?_⟩
        exact movedRising.le (by simp only; omega)
    · rw [if_neg isBehind]
      obtain ⟨expanded, isRising⟩ := ih rest (show token.1 ≤ toCh by omega)
      refine ⟨?_, isRising⟩
      have dropped : (List.replicate (token.1 - start) token.2).drop (toCh - start) = [] :=
        drop_of_length_le (by rw [length_replicate]; omega)
      rw [expanded, expandFrom, drop_append, length_replicate, dropped, nil_append]
      congr 1
      omega

/-- Deleting characters that are not all characters of the line. -/
theorem delete_runs (rising : Rising 0 tokens) (nonempty : tokens ≠ []) {fromCh toCh : Nat}
    (ordered : fromCh < toCh) (bound : toCh ≤ stopOf 0 tokens)
    (notAll : ¬ (fromCh = 0 ∧ stopOf 0 tokens = toCh)) :
    ∃ remaining, delete (.tokens tokens) fromCh toCh = .tokens remaining ∧ Rising 0 remaining ∧
      (Rising 1 tokens → Rising 1 remaining) ∧
      expand remaining = (expand tokens).take fromCh ++ (expand tokens).drop toCh := by
  have found := foundAt_findIndexInTokensArray rising nonempty fromCh
  unfold delete
  dsimp only
  rw [if_neg ordered.ne, if_neg (by rw [lastEndOffset_eq]; exact notAll)]
  generalize findIndexInTokensArray tokens fromCh = index at found
  obtain ⟨front, token, back, rfl, isIndex, isFront, isToken, isDrop, isBack, inFront, isBehind⟩ :=
    found.split
  have isStart : (if index > 0 then ((front ++ token :: back).getD (index - 1) (0, 0)).1 else 0) =
      stopOf 0 front := by
    obtain rfl | ⟨initial, last, rfl⟩ := eq_nil_or_concat' front
    · simp [← isIndex]
    · rw [if_pos (by rw [← isIndex]; simp), ← isIndex, stopOf_append, getD_eq_getElem?_getD]
      simp
  simp only [isStart, isFront, isToken, isDrop, isBack]
  obtain ⟨frontRising, restRising, apart⟩ := rising_append.mp rising
  obtain ⟨_, backRising⟩ := rising_cons.mp restRising
  have startLe : stopOf 0 front ≤ fromCh := stopOf_le inFront
  have startToken : stopOf 0 front ≤ token.1 := by
    apply stopOf_le
    intro t member
    exact (apart t member token mem_cons_self).le
  have insideToken : fromCh < token.1 := by
    by_cases isLast : back = []
    · rw [isLast, stopOf_append, stopOf_cons, stopOf_nil] at bound
      omega
    · exact isBehind isLast
  rw [take_expand_split frontRising startLe insideToken.le]
  by_cases inside : toCh < token.1
  · rw [if_pos inside]
    have moved := (rising_cons.mpr ⟨le_refl token.1, backRising⟩ :
      Rising token.1 (token :: back)).sub (show toCh - fromCh ≤ token.1 by omega)
    have cross : ∀ t ∈ front, ∀ other ∈ moveRuns (· - (toCh - fromCh)) (token :: back),
        t.1 < other.1 := by
      intro t isBefore other member
      have low := inFront t isBefore
      have high := moved.1 other member
      omega
    refine ⟨_, rfl, rising_append.mpr ⟨frontRising, moved.le (zero_le _), cross⟩, ?_, ?_⟩
    · intro positive
      exact rising_append.mpr ⟨(rising_append.mp positive).1, moved.le (by omega), cross⟩
    · rw [drop_expand_split frontRising (by omega) inside.le, map_cons]
      have tail := expandFrom_sub (show toCh - fromCh ≤ token.1 by omega)
        (backRising.le (le_succ _))
      unfold moveRuns at tail
      rw [expand_split]
      have lengths : token.1 - (toCh - fromCh) - stopOf 0 front =
          fromCh - stopOf 0 front + (token.1 - toCh) := by omega
      rw [tail, lengths, replicate_add]
      simp only [append_assoc]
  · rw [if_neg inside, drop_expand_split_of_le frontRising startToken (by omega)]
    obtain ⟨expanded, movedRising⟩ := moveDown_spec ordered.le backRising (not_lt.mp inside)
    by_cases atStart : stopOf 0 front = fromCh
    · rw [if_neg (by simpa using atStart), atStart]
      have cross : ∀ t ∈ front, ∀ other ∈ moveDown (toCh - fromCh) fromCh back, t.1 < other.1 := by
        intro t isBefore other member
        have low := inFront t isBefore
        have high := movedRising.1 other member
        omega
      refine ⟨_, rfl, rising_append.mpr ⟨frontRising, movedRising.le (zero_le _), cross⟩, ?_, ?_⟩
      · intro positive
        exact rising_append.mpr ⟨(rising_append.mp positive).1, movedRising.le (by omega), cross⟩
      · unfold expand
        rw [expandFrom_append, atStart, expanded]
        simp
    · rw [if_pos atStart]
      have cross : ∀ t ∈ front, ∀ other ∈ (fromCh, token.2) :: moveDown (toCh - fromCh) fromCh back,
            t.1 < other.1 := by
        intro t isBefore other member
        have low := frontRising.le_stopOf t isBefore
        rcases mem_cons.mp member with rfl | isMoved
        · simp only
          omega
        · have high := movedRising.1 other isMoved
          omega
      refine ⟨_, rfl, rising_append.mpr ⟨frontRising,
        rising_cons.mpr ⟨zero_le _, movedRising⟩, cross⟩, ?_, ?_⟩
      · intro positive
        exact rising_append.mpr ⟨(rising_append.mp positive).1,
          rising_cons.mpr ⟨by simp only; omega, movedRising⟩, cross⟩
      · rw [expand_split, expanded, append_assoc]

/-- Inserting characters in front of, inside or behind a token. -/
theorem moveRuns_insert {front back : List Token} (rising : Rising 0 (front ++ token :: back))
    (start : stopOf 0 front ≤ index) (stop : index ≤ token.1) (textLength : Nat) :
    Rising 0 (front ++ moveRuns (· + textLength) (token :: back)) ∧
      expand (front ++ moveRuns (· + textLength) (token :: back)) =
        (expand (front ++ token :: back)).take index ++ List.replicate textLength token.2 ++
          (expand (front ++ token :: back)).drop index := by
  obtain ⟨frontRising, restRising, apart⟩ := rising_append.mp rising
  constructor
  · refine rising_append.mpr ⟨frontRising, (restRising.add textLength).le (zero_le _), ?_⟩
    intro t isBefore other member
    obtain ⟨old, isOld, rfl⟩ := mem_map.mp member
    have lower := apart t isBefore old isOld
    simp only
    omega
  · rw [take_expand_split frontRising start stop, drop_expand_split frontRising start stop]
    have tail := expandFrom_add textLength token.1 back
    unfold moveRuns at tail ⊢
    rw [map_cons, expand_split]
    have lengths : token.1 + textLength - stopOf 0 front =
        index - stopOf 0 front + textLength + (token.1 - index) := by omega
    rw [tail, lengths, replicate_add, replicate_add]
    simp only [append_assoc]

theorem insert_runs (rising : Rising 0 tokens) (nonempty : tokens ≠ [])
    (bound : index ≤ stopOf 0 tokens) (textLength : Nat) :
    ∃ inserted metadata, ContiguousTokensEditing.insert (.tokens tokens) index textLength =
      .tokens inserted ∧
      Rising 0 inserted ∧ inserted ≠ [] ∧
      expand inserted = (expand tokens).take index ++ List.replicate textLength metadata ++
        (expand tokens).drop index := by
  have found := foundAt_findIndexInTokensArray rising nonempty index
  unfold ContiguousTokensEditing.insert
  simp only
  generalize findIndexInTokensArray tokens index = i at found
  obtain ⟨front, token, back, rfl, isIndex, isFront, isToken, isDrop, isBack, inFront, isBehind⟩ :=
    found.split
  by_cases atStart : i > 0 ∧ ((front ++ token :: back).getD (i - 1) (0, 0)).1 = index
  · -- the text continues the token that ends at the index
    rw [if_pos atStart]
    obtain rfl | ⟨initial, last, rfl⟩ := eq_nil_or_concat' front
    · rw [length_nil] at isIndex
      omega
    · have isLast : last.1 = index := by
        rw [← atStart.2, ← isIndex, getD_eq_getElem?_getD]
        simp
      have shape : initial ++ [last] ++ token :: back = initial ++ last :: token :: back := by
        rw [append_assoc, singleton_append]
      have isInitial : i - 1 = initial.length := by
        rw [← isIndex, length_append, length_singleton, Nat.add_sub_cancel]
      rw [shape] at rising ⊢
      obtain ⟨_, _, apart⟩ := rising_append.mp rising
      have startLe : stopOf 0 initial ≤ index := by
        apply stopOf_le
        intro t member
        rw [← isLast]
        exact (apart t member last mem_cons_self).le
      obtain ⟨movedRising, expanded⟩ := moveRuns_insert rising startLe isLast.ge textLength
      refine ⟨_, last.2, ?_, movedRising, by simp [moveRuns], expanded⟩
      rw [isInitial, take_left', drop_left'] <;> rfl
  · rw [if_neg atStart, isFront, isDrop]
    have stop : index ≤ token.1 := by
      by_cases isLast : back = []
      · rw [isLast, stopOf_append, stopOf_cons, stopOf_nil] at bound
        exact bound
      · exact (isBehind isLast).le
    obtain ⟨movedRising, expanded⟩ :=
      moveRuns_insert rising (stopOf_le inFront) stop textLength
    exact ⟨_, token.2, rfl, movedRising, by simp, expanded⟩

/-! ## Reading tokens -/

/-- The metadata of the character at an offset, as line tokens read it. -/
def metadataAt (tokens : List Token) (offset : Nat) : UInt32 :=
  (tokens.getD (findIndexInTokensArray tokens offset) (0, 0)).2

theorem getElem?_expand (rising : Rising 0 tokens) (nonempty : tokens ≠ []) {offset : Nat}
    (inside : offset < stopOf 0 tokens) :
    (expand tokens)[offset]? = some (metadataAt tokens offset) := by
  have found := foundAt_findIndexInTokensArray rising nonempty offset
  unfold metadataAt
  obtain ⟨front, token, back, rfl, _, _, isToken, _, _, inFront, isBehind⟩ := found.split
  have startLe : stopOf 0 front ≤ offset := stopOf_le inFront
  have insideToken : offset < token.1 := by
    by_cases isLast : back = []
    · rwa [isLast, stopOf_append, stopOf_cons, stopOf_nil] at inside
    · exact isBehind isLast
  have frontRising := (rising_append.mp rising).1
  rw [isToken, expand_split, getElem?_append_right
    (by rw [frontRising.length_expand]; exact startLe),
    frontRising.length_expand, getElem?_append_left (by simp; omega), getElem?_replicate,
    if_pos (by omega)]

end CodeEditor.Tokens

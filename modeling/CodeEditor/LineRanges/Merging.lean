import CodeEditor.LineRanges.Operations

/-!
# Unions and intersections

Two loops over two sets at once. The union takes the ranges of both in the order of their
starts; the intersection moves on in the set whose range ends first.
-/

namespace CodeEditor.LineRanges

open LineRangeSet List

variable {ranges1 ranges2 rest1 rest2 result : List LineRange} {next : LineRange}
variable {current : Option LineRange} {line : Int}

/-! ## Unions -/

/-- What is taken starts first, and nothing gets lost. -/
structure Taken (ranges1 ranges2 : List LineRange) (next : LineRange)
    (rest1 rest2 : List LineRange) : Prop where
  sublist1 : rest1.Sublist ranges1
  sublist2 : rest2.Sublist ranges2
  isMember : next ∈ ranges1 ++ ranges2
  first : ∀ r ∈ rest1 ++ rest2, next.startLineNumber ≤ r.startLineNumber
  covers_iff : ∀ line, Covers (ranges1 ++ ranges2) line ↔
    (next.startLineNumber ≤ line ∧ line < next.endLineNumberExclusive) ∨
      Covers (rest1 ++ rest2) line

/-- A range starts before those behind it. -/
theorem Normalized.head_le (normalized : Normalized (next :: rest1)) :
    ∀ r ∈ rest1, next.startLineNumber ≤ r.startLineNumber := by
  intro r isMember
  have apart := (normalized_cons.mp normalized).2.1 r isMember
  have := next.ordered
  unfold Apart at apart
  omega

theorem takeNext_taken (normalized1 : Normalized ranges1) (normalized2 : Normalized ranges2)
    (taken : takeNext ranges1 ranges2 = some (next, rest1, rest2)) :
    Taken ranges1 ranges2 next rest1 rest2 := by
  unfold takeNext at taken
  split at taken
  · cases taken
  · cases taken
    exact ⟨by simp, by simp, by simp, by simpa using normalized1.head_le, by simp⟩
  · cases taken
    exact ⟨by simp, by simp, by simp, by simpa using normalized2.head_le, by simp⟩
  next lineRange1 left1 lineRange2 left2 =>
    split_ifs at taken with less
    · cases taken
      refine ⟨by simp, List.Sublist.refl _, by simp, ?_, by simp⟩
      intro r isMember
      rcases mem_append.mp isMember with isLeft | isRight
      · exact normalized1.head_le r isLeft
      · rcases mem_cons.mp isRight with rfl | isRight
        · exact less.le
        · exact less.le.trans (normalized2.head_le r isRight)
    · cases taken
      refine ⟨List.Sublist.refl _, by simp, by simp, ?_, ?_⟩
      · intro r isMember
        rcases mem_append.mp isMember with isLeft | isRight
        · rcases mem_cons.mp isLeft with rfl | isLeft
          · exact not_lt.mp less
          · exact (not_lt.mp less).trans (normalized1.head_le r isLeft)
        · exact normalized2.head_le r isRight
      · intro line
        simp only [covers_append, covers_cons]
        tauto

/-- What the loop has built starts before all that is left. -/
structure Merged (ranges1 ranges2 : List LineRange) (current : Option LineRange)
    (result : List LineRange) : Prop where
  normalized1 : Normalized ranges1
  normalized2 : Normalized ranges2
  built : Normalized (result ++ current.toList)
  first : ∀ c ∈ current, ∀ r ∈ ranges1 ++ ranges2, c.startLineNumber ≤ r.startLineNumber
  fresh : current = none → result = []

namespace Merged

theorem proper_next (merged : Merged ranges1 ranges2 current result)
    (taken : Taken ranges1 ranges2 next rest1 rest2) : Proper next := by
  rcases mem_append.mp taken.isMember with isLeft | isRight
  · exact merged.normalized1.proper next isLeft
  · exact merged.normalized2.proper next isRight

theorem start (merged : Merged ranges1 ranges2 none result)
    (taken : Taken ranges1 ranges2 next rest1 rest2) : Merged rest1 rest2 (some next) result where
  normalized1 := merged.normalized1.sublist taken.sublist1
  normalized2 := merged.normalized2.sublist taken.sublist2
  built := by
    rw [merged.fresh rfl]
    exact normalized_singleton (merged.proper_next taken)
  first := by simpa using taken.first
  fresh := by simp

/-- A range that the current one reaches is joined to it. -/
theorem merge {c grown : LineRange} (merged : Merged ranges1 ranges2 (some c) result)
    (taken : Taken ranges1 ranges2 next rest1 rest2)
    (startEq : grown.startLineNumber = c.startLineNumber)
    (endEq : grown.endLineNumberExclusive =
      max c.endLineNumberExclusive next.endLineNumberExclusive) :
    Merged rest1 rest2 (some grown) result where
  normalized1 := merged.normalized1.sublist taken.sublist1
  normalized2 := merged.normalized2.sublist taken.sublist2
  built := by
    obtain ⟨pushed, single, apart⟩ := normalized_append.mp merged.built
    have proper := single.proper c (by simp)
    refine normalized_concat pushed ?_ fun r isMember => ?_
    · rw [Proper, startEq, endEq]
      exact lt_max_of_lt_left proper
    · rw [Apart, startEq]
      exact apart r isMember c (by simp)
  first := by
    intro g isGrown r isMember
    obtain rfl := Option.some.inj isGrown
    rw [startEq]
    exact (merged.first c rfl next taken.isMember).trans (taken.first r isMember)
  fresh := by simp

/-- A range that the current one does not reach comes after it. -/
theorem push {c : LineRange} (merged : Merged ranges1 ranges2 (some c) result)
    (taken : Taken ranges1 ranges2 next rest1 rest2) (apart : Apart c next) :
    Merged rest1 rest2 (some next) (result ++ [c]) where
  normalized1 := merged.normalized1.sublist taken.sublist1
  normalized2 := merged.normalized2.sublist taken.sublist2
  built := by
    refine normalized_concat merged.built (merged.proper_next taken) fun r isMember => ?_
    rcases mem_append.mp isMember with isPushed | isCurrent
    · have before := (normalized_append.mp merged.built).2.2 r isPushed c (by simp)
      have := c.ordered
      unfold Apart at *
      omega
    · rwa [mem_singleton.mp isCurrent]
  first := by simpa using taken.first
  fresh := by simp

end Merged

/-- The loop ends with the normalized ranges of all lines. -/
theorem getUnionLoop_spec (merged : Merged ranges1 ranges2 current result) :
    Normalized (getUnionLoop ranges1 ranges2 current result) ∧
      ∀ line, Covers (getUnionLoop ranges1 ranges2 current result) line ↔
        Covers (result ++ current.toList) line ∨ Covers (ranges1 ++ ranges2) line := by
  fun_induction getUnionLoop ranges1 ranges2 current result with
  | case1 ranges1 ranges2 current result taken =>
    refine ⟨merged.built, fun line => (or_iff_left ?_).symm⟩
    unfold takeNext at taken
    split at taken
    · simp
    · cases taken
    · cases taken
    · split_ifs at taken
  | case2 ranges1 ranges2 result next rest1 rest2 taken shorter ih =>
    have isTaken := takeNext_taken merged.normalized1 merged.normalized2 taken
    obtain ⟨normalized, covers⟩ := ih (merged.start isTaken)
    refine ⟨normalized, fun line => (covers line).trans ?_⟩
    rw [isTaken.covers_iff, merged.fresh rfl]
    simp
  | case3 ranges1 ranges2 result next rest1 rest2 taken shorter c reaches ih =>
    have isTaken := takeNext_taken merged.normalized1 merged.normalized2 taken
    obtain ⟨normalized, covers⟩ := ih (merged.merge isTaken rfl rfl)
    refine ⟨normalized, fun line => (covers line).trans ?_⟩
    have starts := merged.first c rfl next isTaken.isMember
    have grown : (c.startLineNumber ≤ line ∧
        line < max c.endLineNumberExclusive next.endLineNumberExclusive) ↔
        (c.startLineNumber ≤ line ∧ line < c.endLineNumberExclusive) ∨
          (next.startLineNumber ≤ line ∧ line < next.endLineNumberExclusive) := by
      omega
    rw [isTaken.covers_iff]
    simp only [Option.toList_some, covers_append, covers_cons, covers_nil, or_false, grown,
      or_assoc]
  | case4 ranges1 ranges2 result next rest1 rest2 taken shorter c notReaches
      ih =>
      have isTaken := takeNext_taken merged.normalized1 merged.normalized2 taken
      obtain ⟨normalized, covers⟩ :=
        ih (merged.push isTaken (not_le.mp notReaches))
      refine ⟨normalized, fun line => (covers line).trans ?_⟩
      rw [isTaken.covers_iff]
      simp only [Option.toList_some, covers_append, covers_cons, covers_nil, or_false, or_assoc]

variable {set other : LineRangeSet}

theorem LineRangeSet.unionOf_spec (normalized : Normalized set.normalizedRanges)
    (normalizedOther : Normalized other.normalizedRanges) :
    Normalized (set.unionOf other).normalizedRanges ∧
      ∀ line, Covers (set.unionOf other).normalizedRanges line ↔
        Covers set.normalizedRanges line ∨ Covers other.normalizedRanges line := by
  have merged : Merged set.normalizedRanges other.normalizedRanges none [] :=
    ⟨normalized, normalizedOther, normalized_nil, by simp, fun _ => rfl⟩
  obtain ⟨isNormalized, covers⟩ := getUnionLoop_spec merged
  refine ⟨isNormalized, fun line => (covers line).trans ?_⟩
  simp

/-! ## Intersections -/

theorem LineRange.intersect_bounds {a b both : LineRange} (meets : a.intersect b = some both) :
    both.startLineNumber = max a.startLineNumber b.startLineNumber ∧
      both.endLineNumberExclusive = min a.endLineNumberExclusive b.endLineNumberExclusive := by
  simp only [LineRange.intersect] at meets
  split_ifs at meets
  cases meets
  exact ⟨rfl, rfl⟩

/-- What is pushed for a pair of ranges: the lines that both have. -/
theorem normalized_intersect {a b : LineRange} (normalized : Normalized result)
    (ends : ∀ r ∈ result, r.endLineNumberExclusive < max a.startLineNumber b.startLineNumber) :
    Normalized (pushIntersection a b result) ∧
      (∀ r ∈ pushIntersection a b result, r ∈ result ∨ r.endLineNumberExclusive =
        min a.endLineNumberExclusive b.endLineNumberExclusive) ∧
      ∀ line, Covers (pushIntersection a b result) line ↔ Covers result line ∨
        ((a.startLineNumber ≤ line ∧ line < a.endLineNumberExclusive) ∧
          b.startLineNumber ≤ line ∧ line < b.endLineNumberExclusive) := by
  have inBoth : ∀ line, ((a.startLineNumber ≤ line ∧ line < a.endLineNumberExclusive) ∧
      b.startLineNumber ≤ line ∧ line < b.endLineNumberExclusive) ↔
      max a.startLineNumber b.startLineNumber ≤ line ∧
        line < min a.endLineNumberExclusive b.endLineNumberExclusive := by
    intro line
    rw [max_le_iff, lt_min_iff]
    tauto
  unfold pushIntersection
  cases meets : a.intersect b with
  | none =>
    refine ⟨normalized, fun r => Or.inl, fun line => (or_iff_left ?_).symm⟩
    simp only [LineRange.intersect] at meets
    split_ifs at meets with ordered
    omega
  | some both =>
    obtain ⟨startEq, endEq⟩ := LineRange.intersect_bounds meets
    have := both.ordered
    simp only [inBoth, ← startEq, ← endEq]
    by_cases empty : both.isEmpty = true
    · simp only [empty, if_true]
      refine ⟨normalized, fun r => Or.inl, fun line => (or_iff_left ?_).symm⟩
      have := of_decide_eq_true empty
      omega
    · simp only [empty]
      have notEmpty : ¬both.startLineNumber = both.endLineNumberExclusive := by
        simpa [LineRange.isEmpty] using empty
      refine ⟨normalized_concat normalized (by unfold Proper; omega) ?_, ?_, by simp⟩
      · intro r isMember
        rw [Apart, startEq]
        exact ends r isMember
      · intro r isMember
        rcases mem_append.mp isMember with isPushed | isNew
        · exact Or.inl isPushed
        · exact Or.inr (by rw [mem_singleton.mp isNew])

/-- The loop adds the lines that both lists have. -/
theorem getIntersectionLoop_spec (normalized1 : Normalized ranges1)
    (normalized2 : Normalized ranges2) (pushed : Normalized result)
    (ends : ∀ r ∈ result, ∀ a ∈ ranges1, ∀ b ∈ ranges2,
      r.endLineNumberExclusive < max a.startLineNumber b.startLineNumber) :
    Normalized (getIntersectionLoop ranges1 ranges2 result) ∧
      ∀ line, Covers (getIntersectionLoop ranges1 ranges2 result) line ↔
        Covers result line ∨ (Covers ranges1 line ∧ Covers ranges2 line) := by
  fun_induction getIntersectionLoop ranges1 ranges2 result with
  | case1 ranges2 result => exact ⟨pushed, by simp⟩
  | case2 result first rest => exact ⟨pushed, by simp⟩
  | case3 r1 rest1 r2 rest2 result grown less ih =>
    obtain ⟨_, behind1, normalizedRest⟩ := normalized_cons.mp normalized1
    obtain ⟨isNormalized, isPushed, pushedCovers⟩ := normalized_intersect pushed
      fun r isMember => ends r isMember r1 (by simp) r2 (by simp)
    obtain ⟨all, covers⟩ := ih normalizedRest normalized2 isNormalized (by
        intro r isMember a isRest b isSecond
        rcases isPushed r isMember with isOld | endEq
        · exact ends r isOld a (by simp [isRest]) b isSecond
        · have := behind1 a isRest
          unfold Apart at this
          rw [endEq, min_eq_left less.le]
          exact lt_max_of_lt_left this)
    refine ⟨all, fun line => (covers line).trans ?_⟩
    rw [pushedCovers, covers_cons, covers_cons]
    have notRest : line < r1.endLineNumberExclusive → ¬Covers rest2 line := by
      rintro before ⟨r, isMember, starts, -⟩
      have := (normalized_cons.mp normalized2).2.1 r isMember
      unfold Apart at this
      omega
    tauto
  | case4 r1 rest1 r2 rest2 result grown notLess ih =>
    obtain ⟨_, behind2, normalizedRest⟩ := normalized_cons.mp normalized2
    obtain ⟨isNormalized, isPushed, pushedCovers⟩ := normalized_intersect pushed
      fun r isMember => ends r isMember r1 (by simp) r2 (by simp)
    obtain ⟨all, covers⟩ := ih normalized1 normalizedRest isNormalized (by
        intro r isMember a isFirst b isRest
        rcases isPushed r isMember with isOld | endEq
        · exact ends r isOld a isFirst b (by simp [isRest])
        · have := behind2 b isRest
          unfold Apart at this
          rw [endEq, min_eq_right (not_lt.mp notLess)]
          exact lt_max_of_lt_right this)
    refine ⟨all, fun line => (covers line).trans ?_⟩
    rw [pushedCovers, covers_cons, covers_cons]
    have notRest : line < r2.endLineNumberExclusive → ¬Covers rest1 line := by
      rintro before ⟨r, isMember, starts, -⟩
      have := (normalized_cons.mp normalized1).2.1 r isMember
      unfold Apart at this
      omega
    tauto

theorem LineRangeSet.getIntersection_spec (normalized : Normalized set.normalizedRanges)
    (normalizedOther : Normalized other.normalizedRanges) :
    Normalized (set.getIntersection other).normalizedRanges ∧
      ∀ line, Covers (set.getIntersection other).normalizedRanges line ↔
        Covers set.normalizedRanges line ∧ Covers other.normalizedRanges line := by
  obtain ⟨isNormalized, covers⟩ :=
    getIntersectionLoop_spec normalized normalizedOther normalized_nil (by simp)
  refine ⟨isNormalized, fun line => (covers line).trans ?_⟩
  simp

end CodeEditor.LineRanges

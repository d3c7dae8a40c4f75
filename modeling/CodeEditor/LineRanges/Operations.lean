import CodeEditor.LineRanges.LineRangeSet

/-!
# What the operations do to the lines

Each operation keeps the ranges normalized, and the lines of its result are the union, the
intersection, the difference or the shift of the lines that it is given.
-/

namespace CodeEditor.LineRanges

open List

variable {ranges front touching back ranges1 ranges2 result : List LineRange}
variable {range : LineRange} {line : Int}

@[simp] theorem LineRange.contains_iff :
    range.contains line = true ↔
      range.startLineNumber ≤ line ∧ line < range.endLineNumberExclusive := by
  simp [LineRange.contains]

/-! ## The ranges that a range touches -/

/-- The ranges before `range`, those that it touches, and those after it. -/
structure Surrounds (range : LineRange) (front touching back : List LineRange) : Prop where
  before : ∀ r ∈ front, Apart r range
  touch : ∀ r ∈ touching, ¬Apart r range ∧ ¬Apart range r
  after : ∀ r ∈ back, Apart range r

theorem Normalized.exists_surrounds (normalized : Normalized ranges) (range : LineRange) :
    ∃ front touching back, ranges = front ++ touching ++ back ∧
      Surrounds range front touching back := by
  obtain ⟨front, rest, eqFront, before, notBefore⟩ :=
    exists_cut ranges (fun r => r.endLineNumberExclusive < range.startLineNumber) <|
      normalized.apart.imp fun {a b} apart ends => by
        have := b.ordered
        unfold Apart at apart
        omega
  have normalizedRest : Normalized rest := by
    rw [eqFront] at normalized
    exact (normalized_append.mp normalized).2.1
  obtain ⟨touching, back, eqBack, notAfter, after⟩ :=
    exists_cut rest (fun r => r.startLineNumber ≤ range.endLineNumberExclusive) <|
      normalizedRest.apart.imp fun {a b} apart starts => by
        have := a.ordered
        unfold Apart at apart
        omega
  refine ⟨front, touching, back, by rw [eqFront, eqBack, append_assoc], before, ?_, ?_⟩
  · intro r isMember
    exact ⟨notBefore r (by simp [eqBack, isMember]), not_lt.mpr (notAfter r isMember)⟩
  · intro r isMember
    exact not_le.mp (after r isMember)

namespace Surrounds

variable {set : LineRangeSet}

section

variable (surrounds : Surrounds range front touching back)
  (eq : set.normalizedRanges = front ++ touching ++ back)

include surrounds eq

theorem joinRangeStartIdx_eq : set.joinRangeStartIdx range = front.length := by
  rw [LineRangeSet.joinRangeStartIdx, eq, append_assoc]
  apply findFirstIdxMonotonousOrArrLen_append
  · intro r isMember
    exact decide_eq_false (not_le.mpr (surrounds.before r isMember))
  · intro r isMember
    apply decide_eq_true
    rcases mem_append.mp isMember with isTouching | isBack
    · exact not_lt.mp (surrounds.touch r isTouching).1
    · have after := surrounds.after r isBack
      have := range.ordered
      have := r.ordered
      unfold Apart at after
      omega

theorem joinRangeEndIdxExclusive_eq :
    set.joinRangeEndIdxExclusive range = front.length + touching.length := by
  have search : findLastIdxMonotonous (front ++ touching ++ back)
      (fun r => decide (r.startLineNumber ≤ range.endLineNumberExclusive)) =
        ((front ++ touching).length : Int) - 1 := by
    apply findLastIdxMonotonous_append
    · intro r isMember
      apply decide_eq_true
      rcases mem_append.mp isMember with isFront | isTouching
      · have before := surrounds.before r isFront
        have := range.ordered
        have := r.ordered
        unfold Apart at before
        omega
      · exact not_lt.mp (surrounds.touch r isTouching).2
    · intro r isMember
      exact decide_eq_false (not_le.mpr (surrounds.after r isMember))
  rw [LineRangeSet.joinRangeEndIdxExclusive, eq, search, length_append]
  omega

end

end Surrounds

/-! ## Adding a range -/

/-- The range from the first start to the last end of `range` and what it touches. -/
structure Hull (range : LineRange) (touching : List LineRange) (hull : LineRange) : Prop where
  start_le : ∀ r ∈ range :: touching, hull.startLineNumber ≤ r.startLineNumber
  le_end : ∀ r ∈ range :: touching, r.endLineNumberExclusive ≤ hull.endLineNumberExclusive
  exists_start : ∃ r ∈ range :: touching, hull.startLineNumber = r.startLineNumber
  exists_end : ∃ r ∈ range :: touching,
    hull.endLineNumberExclusive = r.endLineNumberExclusive

theorem hull_nil : Hull range [] range := by
  constructor <;> simp

theorem LineRange.join_start_mem (a b : LineRange) :
    (a.join b).startLineNumber = a.startLineNumber ∨
      (a.join b).startLineNumber = b.startLineNumber :=
  min_choice _ _

theorem LineRange.join_end_mem (a b : LineRange) :
    (a.join b).endLineNumberExclusive = a.endLineNumberExclusive ∨
      (a.join b).endLineNumberExclusive = b.endLineNumberExclusive :=
  max_choice _ _

theorem LineRange.join_bounds (a b : LineRange) : (a.join b).startLineNumber ≤ a.startLineNumber ∧
      (a.join b).startLineNumber ≤ b.startLineNumber ∧
      a.endLineNumberExclusive ≤ (a.join b).endLineNumberExclusive ∧
      b.endLineNumberExclusive ≤ (a.join b).endLineNumberExclusive :=
  ⟨min_le_left _ _, min_le_right _ _, le_max_left _ _, le_max_right _ _⟩

/-- A join of members that reaches from the first to the last of them. -/
theorem hull_join {members : LineRange}
    (start_le : ∀ r ∈ touching, members.startLineNumber ≤ r.startLineNumber)
    (le_end : ∀ r ∈ touching, r.endLineNumberExclusive ≤ members.endLineNumberExclusive)
    (exists_start : ∃ r ∈ touching, members.startLineNumber = r.startLineNumber)
    (exists_end : ∃ r ∈ touching, members.endLineNumberExclusive = r.endLineNumberExclusive) :
    Hull range touching (members.join range) := by
  obtain ⟨startLeft, startRight, endLeft, endRight⟩ := members.join_bounds range
  constructor
  · intro r isMember
    rcases mem_cons.mp isMember with rfl | isMember
    · exact startRight
    · exact startLeft.trans (start_le r isMember)
  · intro r isMember
    rcases mem_cons.mp isMember with rfl | isMember
    · exact endRight
    · exact (le_end r isMember).trans endLeft
  · rcases members.join_start_mem range with isLeft | isRight
    · obtain ⟨r, isMember, eq⟩ := exists_start
      exact ⟨r, by simp [isMember], isLeft.trans eq⟩
    · exact ⟨range, by simp, isRight⟩
  · rcases members.join_end_mem range with isLeft | isRight
    · obtain ⟨r, isMember, eq⟩ := exists_end
      exact ⟨r, by simp [isMember], isLeft.trans eq⟩
    · exact ⟨range, by simp, isRight⟩

theorem hull_singleton (only : LineRange) : Hull range [only] (only.join range) := by
  apply hull_join <;> simp

theorem hull_ends {first last : LineRange} {middle : List LineRange}
    (normalized : Normalized (first :: (middle ++ [last]))) :
    Hull range (first :: (middle ++ [last])) ((first.join last).join range) := by
  obtain ⟨_, behindFirst, normalizedRest⟩ := normalized_cons.mp normalized
  have beforeLast := (normalized_append.mp normalizedRest).2.2
  have apart := behindFirst last (by simp)
  have startEq : (first.join last).startLineNumber = first.startLineNumber := by
    have := first.ordered
    unfold Apart at apart
    exact min_eq_left (by omega)
  have endEq : (first.join last).endLineNumberExclusive = last.endLineNumberExclusive := by
    have := last.ordered
    unfold Apart at apart
    exact max_eq_right (by omega)
  apply hull_join
  · intro r isMember
    rw [startEq]
    rcases mem_cons.mp isMember with rfl | isBehind
    · exact le_rfl
    · have behind := behindFirst r isBehind
      have := first.ordered
      unfold Apart at behind
      omega
  · intro r isMember
    rw [endEq]
    have := last.ordered
    rcases mem_cons.mp isMember with rfl | isBehind
    · unfold Apart at apart
      omega
    · rcases mem_append.mp isBehind with isMiddle | isLast
      · have := beforeLast r isMiddle last (by simp)
        unfold Apart at this
        omega
      · rw [mem_singleton.mp isLast]
  · exact ⟨first, by simp, startEq⟩
  · exact ⟨last, by simp, endEq⟩

variable {set : LineRangeSet}

/-- The code replaces what the range touches by the hull. -/
theorem LineRangeSet.addRange_eq (proper : Proper range)
    (normalized : Normalized (front ++ touching ++ back))
    (eq : set.normalizedRanges = front ++ touching ++ back)
    (surrounds : Surrounds range front touching back) :
    ∃ hull, Hull range touching hull ∧ set.addRange range = some ⟨front ++ hull :: back⟩ := by
  have notEmpty : ¬range.length = 0 := by
    unfold Proper at proper
    unfold LineRange.length
    omega
  rw [LineRangeSet.addRange, if_neg notEmpty, surrounds.joinRangeStartIdx_eq eq,
    surrounds.joinRangeEndIdxExclusive_eq eq, eq]
  cases touching with
  | nil =>
    refine ⟨range, hull_nil, ?_⟩
    simp [LineRangeSet.spliceRange]
  | cons first rest =>
    rcases eq_nil_or_concat rest with rfl | ⟨middle, last, rfl⟩
    · refine ⟨first.join range, hull_singleton first, ?_⟩
      simp
    · rw [concat_eq_append] at *
      have normalizedTouching := (normalized_append.mp (normalized_append.mp normalized).1).2.1
      refine ⟨(first.join last).join range, hull_ends normalizedTouching, ?_⟩
      simp [LineRangeSet.spliceRange]

theorem LineRangeSet.addRange_spec (normalized : Normalized set.normalizedRanges)
    (range : LineRange) :
    ∃ changed, set.addRange range = some changed ∧ Normalized changed.normalizedRanges ∧
      ∀ line, Covers changed.normalizedRanges line ↔
        Covers set.normalizedRanges line ∨ range.contains line = true := by
  by_cases empty : range.length = 0
  · refine ⟨set, by rw [LineRangeSet.addRange, if_pos empty], normalized, fun line => ?_⟩
    rw [LineRange.contains_iff]
    unfold LineRange.length at empty
    constructor
    · exact Or.inl
    · rintro (covers | inside)
      · exact covers
      · omega
  · have proper : Proper range := by
      have := range.ordered
      unfold LineRange.length at empty
      unfold Proper
      omega
    obtain ⟨front, touching, back, eq, surrounds⟩ := normalized.exists_surrounds range
    rw [eq] at normalized
    obtain ⟨hull, isHull, changes⟩ := LineRangeSet.addRange_eq proper normalized eq surrounds
    obtain ⟨normalizedFront, normalizedBack, apartBack⟩ := normalized_append.mp normalized
    obtain ⟨front_ok, touching_ok, apartFront⟩ := normalized_append.mp normalizedFront
    refine ⟨_, changes, ?_, fun line => ?_⟩
    · refine normalized_append.mpr ⟨front_ok, normalized_cons.mpr ⟨?_, ?_, normalizedBack⟩, ?_⟩
      · have := isHull.start_le range (by simp)
        have := isHull.le_end range (by simp)
        unfold Proper at *
        omega
      · intro r isBack
        obtain ⟨reaching, isMember, endEq⟩ := isHull.exists_end
        rw [Apart, endEq]
        rcases mem_cons.mp isMember with rfl | isTouching
        · exact surrounds.after r isBack
        · exact apartBack reaching (by simp [isTouching]) r isBack
      · intro r isFront r' isRest
        obtain ⟨starting, isMember, startEq⟩ := isHull.exists_start
        rcases mem_cons.mp isRest with rfl | isBack
        · rw [Apart, startEq]
          rcases mem_cons.mp isMember with rfl | isTouching
          · exact surrounds.before r isFront
          · exact apartFront r isFront starting isTouching
        · exact apartBack r (by simp [isFront]) r' isBack
    · have inHull : (hull.startLineNumber ≤ line ∧ line < hull.endLineNumberExclusive) ↔
          Covers touching line ∨ range.contains line = true := by
        rw [LineRange.contains_iff]
        constructor
        · rintro ⟨starts, ends⟩
          obtain ⟨starting, isMember, startEq⟩ := isHull.exists_start
          obtain ⟨reaching, isMember', endEq⟩ := isHull.exists_end
          by_cases before : line < range.startLineNumber
          · rcases mem_cons.mp isMember with rfl | isTouching
            · omega
            · have := (surrounds.touch starting isTouching).1
              unfold Apart at this
              exact Or.inl ⟨starting, isTouching, by omega, by omega⟩
          · by_cases behind : range.endLineNumberExclusive ≤ line
            · rcases mem_cons.mp isMember' with rfl | isTouching
              · omega
              · have := (surrounds.touch reaching isTouching).2
                unfold Apart at this
                exact Or.inl ⟨reaching, isTouching, by omega, by omega⟩
            · exact Or.inr (by omega)
        · rintro (⟨r, isTouching, starts, ends⟩ | ⟨starts, ends⟩)
          · have := isHull.start_le r (by simp [isTouching])
            have := isHull.le_end r (by simp [isTouching])
            omega
          · have := isHull.start_le range (by simp)
            have := isHull.le_end range (by simp)
            omega
      rw [eq]
      simp only [covers_append, covers_cons, inHull]
      tauto

/-! ## Subtracting from a range -/

theorem normalized_concat (normalized : Normalized result)
    (proper : Proper last) (apart : ∀ r ∈ result, Apart r last) :
    Normalized (result ++ [last]) :=
  normalized_append.mpr ⟨normalized, normalized_singleton proper, by simpa using apart⟩

/-- What is pushed for the gap in front of a range. -/
theorem normalized_gap (start stop : Int) (normalized : Normalized result)
    (ends : ∀ r ∈ result, r.endLineNumberExclusive < start) :
    Normalized (if less : start < stop then result ++ [⟨start, stop, less.le⟩] else result) ∧
      ∀ line, Covers
        (if less : start < stop then result ++ [⟨start, stop, less.le⟩] else result) line ↔
          Covers result line ∨ (start ≤ line ∧ line < stop) := by
  split_ifs with less
  · exact ⟨normalized_concat normalized less ends, fun line => by simp⟩
  · refine ⟨normalized, fun line => ?_⟩
    constructor
    · exact Or.inl
    · rintro (covers | ⟨starts, stops⟩)
      · exact covers
      · omega

/-- The loop leaves the lines from its start on that the remaining ranges do not have. -/
theorem subtractLoop_spec (range : LineRange) (start : Int) (normalized : Normalized touching)
    (reach : ∀ r ∈ touching, start ≤ r.endLineNumberExclusive)
    (touch : ∀ r ∈ touching, ¬Apart range r)
    (pushed : Normalized result) (ends : ∀ r ∈ result, r.endLineNumberExclusive < start) :
    Normalized (LineRangeSet.subtractLoop range touching start result) ∧
      ∀ line, Covers (LineRangeSet.subtractLoop range touching start result) line ↔
        Covers result line ∨
          ((start ≤ line ∧ line < range.endLineNumberExclusive) ∧ ¬Covers touching line) := by
  induction touching generalizing start result with
  | nil =>
    obtain ⟨isNormalized, covers⟩ := normalized_gap start range.endLineNumberExclusive pushed ends
    refine ⟨isNormalized, fun line => (covers line).trans ?_⟩
    simp
  | cons r touching ih =>
    obtain ⟨proper, behind, normalizedRest⟩ := normalized_cons.mp normalized
    have reaches := reach r (by simp)
    have startsInside := touch r (by simp)
    obtain ⟨gapNormalized, gapCovers⟩ :=
      normalized_gap start r.startLineNumber pushed ends
    obtain ⟨isNormalized, covers⟩ :=
      ih r.endLineNumberExclusive normalizedRest (fun r' isMember => by
        have := behind r' isMember
        have := r'.ordered
        unfold Apart at *
        omega)
      (fun r' isMember => touch r' (by simp [isMember])) gapNormalized
      (fun p isMember => by
        unfold Proper at proper
        split_ifs at isMember with less
        · rcases mem_append.mp isMember with isPushed | isGap
          · have := ends p isPushed
            omega
          · rw [mem_singleton.mp isGap]
            exact proper
        · have := ends p isMember
          omega)
    refine ⟨isNormalized, fun line => (covers line).trans ?_⟩
    rw [gapCovers, covers_cons]
    have restBehind : Covers touching line → r.endLineNumberExclusive < line := by
      rintro ⟨r', isMember, starts, -⟩
      have := behind r' isMember
      unfold Apart at this
      omega
    unfold Proper at proper
    unfold Apart at startsInside
    constructor
    · rintro ((covers | ⟨starts, stops⟩) | ⟨⟨starts, stops⟩, uncovered⟩)
      · exact Or.inl covers
      · refine Or.inr ⟨⟨starts, by omega⟩, ?_⟩
        rintro (inside | coversRest)
        · omega
        · have := restBehind coversRest
          omega
      · refine Or.inr ⟨⟨by omega, stops⟩, ?_⟩
        rintro (inside | coversRest)
        · omega
        · exact uncovered coversRest
    · rintro (covers | ⟨⟨starts, stops⟩, uncovered⟩)
      · exact Or.inl (Or.inl covers)
      · rw [not_or] at uncovered
        by_cases before : line < r.startLineNumber
        · exact Or.inl (Or.inr ⟨starts, before⟩)
        · exact Or.inr ⟨⟨by omega, stops⟩, uncovered.2⟩

theorem LineRangeSet.subtractFrom_spec (normalized : Normalized set.normalizedRanges)
    (proper : Proper range) : Normalized (set.subtractFrom range).normalizedRanges ∧
      ∀ line, Covers (set.subtractFrom range).normalizedRanges line ↔
        range.contains line = true ∧ ¬Covers set.normalizedRanges line := by
  obtain ⟨front, touching, back, eq, surrounds⟩ := normalized.exists_surrounds range
  have notFront : ∀ line, range.contains line = true → ¬Covers front line := by
    rintro line inside ⟨r, isFront, -, ends⟩
    have := surrounds.before r isFront
    rw [LineRange.contains_iff] at inside
    unfold Apart at this
    omega
  have notBack : ∀ line, range.contains line = true → ¬Covers back line := by
    rintro line inside ⟨r, isBack, starts, -⟩
    have := surrounds.after r isBack
    rw [LineRange.contains_iff] at inside
    unfold Apart at this
    omega
  have onlyTouching : ∀ line, (range.contains line = true ∧ ¬Covers set.normalizedRanges line) ↔
      range.contains line = true ∧ ¬Covers touching line := by
    intro line
    rw [eq]
    apply and_congr_right
    intro inside
    simp [notFront line inside, notBack line inside]
  rw [LineRangeSet.subtractFrom, surrounds.joinRangeStartIdx_eq eq,
    surrounds.joinRangeEndIdxExclusive_eq eq]
  simp only [onlyTouching]
  by_cases empty : touching = []
  · subst empty
    simp [normalized_singleton proper]
  · have isBehind : ¬front.length = front.length + touching.length := by
      have := length_pos_iff.mpr empty
      omega
    have taken : (set.normalizedRanges.drop front.length).take
        (front.length + touching.length - front.length) = touching := by
      rw [eq]
      simp
    rw [if_neg isBehind, taken]
    rw [eq] at normalized
    obtain ⟨isNormalized, covers⟩ := subtractLoop_spec range range.startLineNumber
      (normalized_append.mp (normalized_append.mp normalized).1).2.1
      (fun r isMember => not_lt.mp (surrounds.touch r isMember).1)
      (fun r isMember => (surrounds.touch r isMember).2) normalized_nil (by simp)
    refine ⟨isNormalized, fun line => (covers line).trans ?_⟩
    simp

/-! ## Shifting -/

theorem LineRangeSet.getWithDelta_spec (normalized : Normalized set.normalizedRanges)
    (value : Int) : Normalized (set.getWithDelta value).normalizedRanges ∧
      ∀ line, Covers (set.getWithDelta value).normalizedRanges line ↔
        Covers set.normalizedRanges (line - value) := by
  constructor
  · constructor
    · intro r isMember
      obtain ⟨kept, isKept, rfl⟩ := mem_map.mp isMember
      exact Int.add_lt_add_right (normalized.proper kept isKept) value
    · exact List.Pairwise.map _ (fun a b apart => Int.add_lt_add_right apart value) normalized.apart
  · intro line
    simp only [Covers, LineRangeSet.getWithDelta, mem_map, exists_exists_and_eq_and,
      LineRange.delta]
    apply exists_congr
    intro r
    apply and_congr_right
    intro _
    omega

end CodeEditor.LineRanges

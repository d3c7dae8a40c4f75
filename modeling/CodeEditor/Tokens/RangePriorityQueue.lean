import CodeEditor.Edits.OffsetEdit

/-!
# Ranges of invalid lines

Model of `RangePriorityQueueImpl` in `textModelTokens.ts` and of `OffsetRange.addRange` in
`offsetRange.ts`. The queue keeps its ranges sorted and apart from each other; what an
operation does is stated for the set of the numbers in its ranges.
-/

namespace CodeEditor.Tokens

open Edits List Option

/-! ## The queue -/

/-- The ranges of a queue that end before `range`. -/
def rangesBefore (range : OffsetRange) (ranges : List OffsetRange) : List OffsetRange :=
  ranges.takeWhile fun r => r.endExclusive < range.start

/-- The ranges of a queue from the first one on that does not end before `range`. -/
def rangesFrom (range : OffsetRange) (ranges : List OffsetRange) : List OffsetRange :=
  ranges.dropWhile fun r => r.endExclusive < range.start

/-- The ranges of a queue that intersect or touch `range`. -/
def rangesTouching (range : OffsetRange) (ranges : List OffsetRange) : List OffsetRange :=
  (rangesFrom range ranges).takeWhile fun r => r.start ≤ range.endExclusive

/-- The ranges of a queue that start behind `range`. -/
def rangesAfter (range : OffsetRange) (ranges : List OffsetRange) : List OffsetRange :=
  (rangesFrom range ranges).dropWhile fun r => r.start ≤ range.endExclusive

def addRange (range : OffsetRange) (sortedRanges : List OffsetRange) :
    Option (List OffsetRange) :=
  match rangesTouching range sortedRanges with
  | [] => some (rangesBefore range sortedRanges ++ range :: rangesAfter range sortedRanges)
  | first :: rest => do
      let last := (first :: rest).getLastD first
      let joined ← OffsetRange.new (min range.start first.start)
        (max range.endExclusive last.endExclusive)
      some (rangesBefore range sortedRanges ++ joined :: rangesAfter range sortedRanges)

/-- The smallest number in the queue. -/
def queueMin (ranges : List OffsetRange) : Option Int := ranges.head?.map (·.start)

def contains (range : OffsetRange) (offset : Int) : Bool :=
  range.start ≤ offset && offset < range.endExclusive

def isEmptyRange (range : OffsetRange) : Bool := range.start = range.endExclusive

/-- What is left of a range without one of its numbers. -/
def rangeWithout (value : Int) (range : OffsetRange) : Option (List OffsetRange) :=
  if range.start = value then
    if range.endExclusive = value + 1 then some []
    else do
      let right ← OffsetRange.new (value + 1) range.endExclusive
      some [right]
  else if range.endExclusive = value + 1 then do
    let left ← OffsetRange.new range.start value
    some [left]
  else do
    let left ← OffsetRange.new range.start value
    let right ← OffsetRange.new (value + 1) range.endExclusive
    some [left, right]

def deleteFrom (value : Int) : List OffsetRange → Option (List OffsetRange)
  | [] => some []
  | range :: ranges =>
    if contains range value then do
      let left ← rangeWithout value range
      some (left ++ ranges)
    else do
      let others ← deleteFrom value ranges
      some (range :: others)

/-- `range` in a list, unless it is empty. -/
def unlessEmpty (range : OffsetRange) : List OffsetRange :=
  if isEmptyRange range then [] else [range]

def addRangeAndResize (range : OffsetRange) (newLength : Int) (ranges : List OffsetRange) :
    Option (List OffsetRange) := do
  let delta := newLength - range.length
  let after ← (rangesAfter range ranges).mapM fun r => r.delta delta
  match rangesTouching range ranges with
  | [] => do
      let newRange ← OffsetRange.new range.start (range.start + newLength)
      some (rangesBefore range ranges ++ unlessEmpty newRange ++ after)
  | first :: rest => do
      let last := (first :: rest).getLastD first
      let start := min range.start first.start
      let endEx := max range.endExclusive last.endExclusive
      let newRange ← OffsetRange.new start (endEx + delta)
      some (rangesBefore range ranges ++ unlessEmpty newRange ++ after)

/-! ## Separated ranges -/

/-- No range is empty, and each ends before the next one starts. -/
def Separated (ranges : List OffsetRange) : Prop :=
  (∀ r ∈ ranges, r.start < r.endExclusive) ∧
    ranges.Pairwise fun r s => r.endExclusive < s.start

/-- A range of the queue contains the number. -/
def Covers (ranges : List OffsetRange) (x : Int) : Prop :=
  ∃ r ∈ ranges, r.start ≤ x ∧ x < r.endExclusive

@[simp] theorem not_covers_nil (x : Int) : ¬ Covers [] x := by
  rintro ⟨r, member, _⟩
  cases member

variable {ranges : List OffsetRange}

theorem covers_cons {r : OffsetRange} :
    Covers (r :: ranges) x ↔ (r.start ≤ x ∧ x < r.endExclusive) ∨ Covers ranges x := by
  unfold Covers
  rw [exists_mem_cons_iff]

variable {first second : List OffsetRange}

theorem covers_append : Covers (first ++ second) x ↔ Covers first x ∨ Covers second x := by
  unfold Covers
  simp only [mem_append, or_and_right, exists_or]

theorem separated_nil : Separated [] := ⟨by simp, List.Pairwise.nil⟩

theorem separated_cons {r : OffsetRange} : Separated (r :: ranges) ↔
      r.start < r.endExclusive ∧ (∀ s ∈ ranges, r.endExclusive < s.start) ∧ Separated ranges := by
  unfold Separated
  rw [forall_mem_cons, pairwise_cons]
  tauto

theorem separated_append : Separated (first ++ second) ↔ Separated first ∧ Separated second ∧
        ∀ r ∈ first, ∀ s ∈ second, r.endExclusive < s.start := by
  unfold Separated
  rw [forall_mem_append, pairwise_append]
  tauto

/-- Everything that separated ranges contain lies behind a number they all start behind. -/
theorem le_of_covers {x bound : Int} (behind : ∀ r ∈ ranges, bound < r.start)
    (covered : Covers ranges x) : bound < x := by
  obtain ⟨r, member, start, _⟩ := covered
  exact (behind r member).trans_le start

theorem lt_of_covers {x bound : Int} (inFront : ∀ r ∈ ranges, r.endExclusive < bound)
    (covered : Covers ranges x) : x < bound := by
  obtain ⟨r, member, _, stop⟩ := covered
  exact stop.trans (inFront r member)

/-! ## The ranges around a range -/

/-- How a separated queue lies around a range. -/
structure Around (range : OffsetRange) (before touching after : List OffsetRange) : Prop where
  before_end : ∀ r ∈ before, r.endExclusive < range.start
  touching_end : ∀ r ∈ touching, range.start ≤ r.endExclusive
  touching_start : ∀ r ∈ touching, r.start ≤ range.endExclusive
  after_start : ∀ r ∈ after, range.endExclusive < r.start

theorem ranges_eq (range : OffsetRange) (ranges : List OffsetRange) :
    ranges = rangesBefore range ranges ++ (rangesTouching range ranges ++
      rangesAfter range ranges) := by
  unfold rangesBefore rangesTouching rangesAfter rangesFrom
  rw [takeWhile_append_dropWhile, takeWhile_append_dropWhile]

/-- In a sorted queue a condition that later ranges inherit holds from the first range on. -/
theorem forall_mem_dropWhile {p : OffsetRange → Bool}
    (sorted : ranges.Pairwise fun r s => p r = false → p s = false) :
    ∀ r ∈ ranges.dropWhile p, p r = false := by
  induction ranges with
  | nil => simp
  | cons r ranges ih =>
    rw [pairwise_cons] at sorted
    by_cases holds : p r = true
    · rw [dropWhile_cons_of_pos holds]
      exact ih sorted.2
    · rw [dropWhile_cons_of_neg holds]
      have first : p r = false := by simpa using holds
      intro s member
      rcases mem_cons.mp member with rfl | member
      · exact first
      · exact sorted.1 s member first

theorem Separated.around (range : OffsetRange) (separated : Separated ranges) :
    Around range (rangesBefore range ranges) (rangesTouching range ranges)
      (rangesAfter range ranges) := by
  have sortedEnds : ranges.Pairwise fun r s =>
      decide (r.endExclusive < range.start) = false →
        decide (s.endExclusive < range.start) = false := by
    apply separated.2.imp
    intro r s apart notBefore
    have ordered := s.ordered
    simp only [decide_eq_false_iff_not] at notBefore ⊢
    omega
  have fromEnds := forall_mem_dropWhile sortedEnds
  have tail : (rangesFrom range ranges).Pairwise fun r s => r.endExclusive < s.start :=
    separated.2.sublist (dropWhile_sublist _)
  have sortedStarts : (rangesFrom range ranges).Pairwise fun r s =>
      decide (r.start ≤ range.endExclusive) = false →
        decide (s.start ≤ range.endExclusive) = false := by
    apply tail.imp
    intro r s apart isAfter
    have ordered := r.ordered
    simp only [decide_eq_false_iff_not] at isAfter ⊢
    omega
  constructor
  · intro r member
    simpa using mem_takeWhile_imp member
  · intro r member
    have isFrom := (takeWhile_sublist _).subset member
    simpa using fromEnds r isFrom
  · intro r member
    simpa using mem_takeWhile_imp member
  · intro r member
    simpa using forall_mem_dropWhile sortedStarts r member

/-- The three parts of a separated queue. -/
structure Parts (range : OffsetRange) (before touching after : List OffsetRange) : Prop
    extends Around range before touching after where
  before_separated : Separated before
  touching_separated : Separated touching
  after_separated : Separated after
  before_touching : ∀ r ∈ before, ∀ s ∈ touching, r.endExclusive < s.start
  touching_after : ∀ r ∈ touching, ∀ s ∈ after, r.endExclusive < s.start

theorem Separated.parts (range : OffsetRange) (separated : Separated ranges) :
    Parts range (rangesBefore range ranges) (rangesTouching range ranges)
      (rangesAfter range ranges) := by
  have isSeparated := separated
  rw [ranges_eq range ranges, separated_append, separated_append] at isSeparated
  obtain ⟨before, ⟨touching, after, touchingAfter⟩, beforeRest⟩ := isSeparated
  exact {
    toAround := separated.around range
    before_separated := before
    touching_separated := touching
    after_separated := after
    before_touching := fun r inBefore s inTouching =>
      beforeRest r inBefore s (mem_append_left _ inTouching)
    touching_after := touchingAfter }

theorem covers_parts (range : OffsetRange) (ranges : List OffsetRange) (x : Int) :
    Covers ranges x ↔ Covers (rangesBefore range ranges) x ∨
      Covers (rangesTouching range ranges) x ∨ Covers (rangesAfter range ranges) x := by
  conv_lhs => rw [ranges_eq range ranges]
  rw [covers_append, covers_append]

/-- The first range starts first, and the last one ends last. -/
theorem Separated.bounds {first : OffsetRange} {rest : List OffsetRange}
    (separated : Separated (first :: rest)) :
    ((first :: rest).getLastD first) ∈ first :: rest ∧ ∀ r ∈ first :: rest, first.start ≤ r.start ∧
        r.endExclusive ≤ ((first :: rest).getLastD first).endExclusive := by
  obtain ⟨front, last, equal⟩ :=
    (eq_nil_or_concat' (first :: rest)).resolve_left (cons_ne_nil first rest)
  have isLast : (first :: rest).getLastD first = last := by rw [equal, getLastD_concat]
  rw [isLast]
  refine ⟨by rw [equal]; simp, ?_⟩
  intro r member
  constructor
  · rcases mem_cons.mp member with rfl | isRest
    · exact le_refl _
    · have apart := (separated_cons.mp separated).2.1 r isRest
      have ordered := first.ordered
      omega
  · rw [equal] at member separated
    rcases mem_append.mp member with isFront | isLast
    · have apart := (separated_append.mp separated).2.2 r isFront last (by simp)
      have ordered := last.ordered
      omega
    · obtain rfl : r = last := by simpa using isLast
      exact le_refl _

/-- The range from the first to the last touching one is the union of them and `range`. -/
theorem Parts.covers_joined {range first : OffsetRange} {before rest after : List OffsetRange}
    (parts : Parts range before (first :: rest) after) (x : Int) :
    (min range.start first.start ≤ x ∧
        x < max range.endExclusive ((first :: rest).getLastD first).endExclusive) ↔
      Covers (first :: rest) x ∨ (range.start ≤ x ∧ x < range.endExclusive) := by
  obtain ⟨isLast, bounds⟩ := parts.touching_separated.bounds
  have firstEnd := parts.touching_end first mem_cons_self
  have lastStart := parts.touching_start _ isLast
  constructor
  · rintro ⟨start, stop⟩
    by_cases inFront : x < range.start
    · exact .inl ⟨first, mem_cons_self, by omega, by omega⟩
    · by_cases isBehind : range.endExclusive ≤ x
      · exact .inl ⟨_, isLast, by omega, by omega⟩
      · exact .inr ⟨by omega, by omega⟩
  · rintro (⟨r, member, start, stop⟩ | ⟨start, stop⟩)
    · have bound := bounds r member
      omega
    · omega

/-! ## The operations -/

theorem separated_insert {before after : List OffsetRange} {range : OffsetRange}
    (left : Separated before) (right : Separated after)
    (inFront : ∀ r ∈ before, r.endExclusive < range.start)
    (isBehind : ∀ r ∈ after, range.endExclusive < r.start) :
    Separated (before ++ unlessEmpty range ++ after) := by
  have ordered := range.ordered
  have cross : ∀ r ∈ before, ∀ s ∈ after, r.endExclusive < s.start := by
    intro r inBefore s inAfter
    have first := inFront r inBefore
    have second := isBehind s inAfter
    omega
  unfold unlessEmpty isEmptyRange
  by_cases empty : range.start = range.endExclusive
  · rw [if_pos (by simpa using empty), append_nil, separated_append]
    exact ⟨left, right, cross⟩
  · rw [if_neg (by simpa using empty), append_assoc, separated_append]
    refine ⟨left, separated_cons.mpr ⟨by omega, isBehind, right⟩, ?_⟩
    intro r inBefore s member
    rcases mem_cons.mp member with rfl | inAfter
    · exact inFront r inBefore
    · exact cross r inBefore s inAfter

theorem unlessEmpty_of_lt {range : OffsetRange} (marks : range.start < range.endExclusive) :
    unlessEmpty range = [range] := by
  unfold unlessEmpty isEmptyRange
  rw [if_neg (by simp; omega)]

theorem covers_unlessEmpty (range : OffsetRange) (x : Int) :
    Covers (unlessEmpty range) x ↔ range.start ≤ x ∧ x < range.endExclusive := by
  unfold unlessEmpty isEmptyRange
  by_cases empty : range.start = range.endExclusive
  · rw [if_pos (by simpa using empty)]
    simp only [not_covers_nil, false_iff]
    omega
  · rw [if_neg (by simpa using empty), covers_cons]
    simp

theorem new_eq {start endExclusive : Int} (ordered : start ≤ endExclusive) :
    OffsetRange.new start endExclusive = some ⟨start, endExclusive, ordered⟩ :=
  dif_pos ordered

/-- Adding a range that is not empty, or that touches the queue, adds its numbers. -/
theorem addRange_spec {range : OffsetRange} (separated : Separated ranges)
    (marks : range.start < range.endExclusive ∨ rangesTouching range ranges ≠ []) :
    ∃ added, addRange range ranges = some added ∧ Separated added ∧
      ∀ x, Covers added x ↔ Covers ranges x ∨ (range.start ≤ x ∧ x < range.endExclusive) := by
  have parts := separated.parts range
  unfold addRange
  cases touching : rangesTouching range ranges with
  | nil =>
    have nonempty := marks.resolve_right (fun differs => differs touching)
    refine ⟨_, rfl, ?_, ?_⟩
    · have inserted := separated_insert parts.before_separated parts.after_separated
        parts.before_end parts.after_start
      rwa [unlessEmpty_of_lt nonempty, append_assoc] at inserted
    · intro x
      rw [covers_parts range ranges, touching, covers_append, covers_cons]
      simp only [not_covers_nil, false_or]
      tauto
  | cons first rest =>
    rw [touching] at parts
    obtain ⟨isLast, bounds⟩ := parts.touching_separated.bounds
    have lastBound := bounds _ isLast
    have lastNonempty := parts.touching_separated.1 _ isLast
    simp only [bind_eq_bind]
    rw [new_eq (by omega), bind_some]
    refine ⟨_, rfl, ?_, ?_⟩
    · have inserted := @separated_insert _ _ ⟨min range.start first.start,
          max range.endExclusive ((first :: rest).getLastD first).endExclusive, by omega⟩
        parts.before_separated parts.after_separated
        (fun r member => lt_min (parts.before_end r member)
          (parts.before_touching r member first mem_cons_self))
        (fun s member => max_lt (parts.after_start s member)
          (parts.touching_after _ isLast s member))
      rwa [unlessEmpty_of_lt (by simp only; omega), append_assoc] at inserted
    · intro x
      rw [covers_parts range ranges, touching, covers_append, covers_cons, parts.covers_joined]
      tauto

theorem rangeWithout_spec {value : Int} {range : OffsetRange} (start : range.start ≤ value)
    (stop : value < range.endExclusive) :
    ∃ left, rangeWithout value range = some left ∧ Separated left ∧
      (∀ r ∈ left, range.start ≤ r.start ∧ r.endExclusive ≤ range.endExclusive) ∧
      ∀ x, Covers left x ↔ (range.start ≤ x ∧ x < range.endExclusive) ∧ x ≠ value := by
  unfold rangeWithout
  by_cases atStart : range.start = value
  · by_cases atEnd : range.endExclusive = value + 1
    · rw [if_pos atStart, if_pos atEnd]
      refine ⟨[], rfl, separated_nil, by simp, ?_⟩
      intro x
      simp only [not_covers_nil, false_iff]
      omega
    · rw [if_pos atStart, if_neg atEnd, new_eq (by omega)]
      refine ⟨_, rfl, separated_cons.mpr ⟨?_, by simp, separated_nil⟩, ?_, ?_⟩
      · dsimp only
        omega
      · simp only [mem_singleton, forall_eq]
        omega
      · intro x
        simp only [covers_cons, not_covers_nil, or_false]
        omega
  · by_cases atEnd : range.endExclusive = value + 1
    · rw [if_neg atStart, if_pos atEnd, new_eq start]
      refine ⟨_, rfl, separated_cons.mpr ⟨?_, by simp, separated_nil⟩, ?_, ?_⟩
      · dsimp only
        omega
      · simp only [mem_singleton, forall_eq]
        omega
      · intro x
        simp only [covers_cons, not_covers_nil, or_false]
        omega
    · rw [if_neg atStart, if_neg atEnd, new_eq start, new_eq (by omega)]
      refine ⟨_, rfl, separated_cons.mpr ⟨?_, ?_, separated_cons.mpr ⟨?_, by simp,
        separated_nil⟩⟩, ?_, ?_⟩
      · dsimp only
        omega
      · simp only [mem_singleton, forall_eq]
        omega
      · dsimp only
        omega
      · simp only [mem_cons, not_mem_nil, or_false, forall_eq_or_imp, forall_eq]
        omega
      · intro x
        simp only [covers_cons, not_covers_nil, or_false]
        omega

/-- Deleting a number takes it out of the queue. -/
theorem deleteFrom_spec (value : Int) (separated : Separated ranges) :
    ∃ remaining, deleteFrom value ranges = some remaining ∧ Separated remaining ∧
      (∀ bound, (∀ r ∈ ranges, bound < r.start) → ∀ r ∈ remaining, bound < r.start) ∧
      ∀ x, Covers remaining x ↔ Covers ranges x ∧ x ≠ value := by
  induction ranges with
  | nil => exact ⟨[], rfl, separated_nil, by simp, by simp⟩
  | cons range ranges ih =>
    obtain ⟨nonempty, apart, others⟩ := separated_cons.mp separated
    unfold deleteFrom
    by_cases inside : contains range value = true
    · rw [if_pos inside]
      simp only [contains, Bool.and_eq_true, decide_eq_true_eq] at inside
      obtain ⟨left, isLeft, leftSeparated, within, leftCovers⟩ :=
        rangeWithout_spec inside.1 inside.2
      rw [isLeft]
      refine ⟨left ++ ranges, rfl, separated_append.mpr ⟨leftSeparated, others, ?_⟩, ?_, ?_⟩
      · intro r inLeft s inRest
        exact (within r inLeft).2.trans_lt (apart s inRest)
      · intro bound starts r member
        rcases mem_append.mp member with inLeft | inRest
        · exact (starts range mem_cons_self).trans_le (within r inLeft).1
        · exact starts r (mem_cons_of_mem _ inRest)
      · intro x
        have behind : Covers ranges x → x ≠ value := by
          intro covered
          have isBehind := le_of_covers apart covered
          omega
        rw [covers_append, covers_cons, leftCovers]
        tauto
    · rw [if_neg inside]
      simp only [contains, Bool.and_eq_true, decide_eq_true_eq] at inside
      obtain ⟨remaining, isRemaining, remainingSeparated, bounded, remainingCovers⟩ :=
        ih others
      rw [isRemaining]
      refine ⟨range :: remaining, rfl,
        separated_cons.mpr ⟨nonempty, bounded _ apart, remainingSeparated⟩, ?_, ?_⟩
      · intro bound starts
        rw [forall_mem_cons] at starts ⊢
        exact ⟨starts.1, bounded bound starts.2⟩
      · intro x
        have outside : range.start ≤ x ∧ x < range.endExclusive → x ≠ value := by
          rintro isFirst rfl
          exact inside isFirst
        rw [covers_cons, covers_cons, remainingCovers]
        tauto

/-! ### Resizing -/

def shift (offset : Int) (range : OffsetRange) : OffsetRange :=
  ⟨range.start + offset, range.endExclusive + offset, by have := range.ordered; omega⟩

theorem delta_eq (offset : Int) (range : OffsetRange) :
    range.delta offset = some (shift offset range) :=
  new_eq (by have := range.ordered; omega)

theorem mapM_delta (offset : Int) (ranges : List OffsetRange) :
    (ranges.mapM fun r => r.delta offset) = some (ranges.map (shift offset)) := by
  induction ranges with
  | nil => rfl
  | cons range ranges ih =>
    rw [mapM_cons, delta_eq, ih]
    rfl

theorem covers_shift (offset : Int) (ranges : List OffsetRange) (x : Int) :
    Covers (ranges.map (shift offset)) x ↔ Covers ranges (x - offset) := by
  constructor
  · rintro ⟨s, member, start, stop⟩
    obtain ⟨r, inRanges, rfl⟩ := mem_map.mp member
    simp only [shift] at start stop
    exact ⟨r, inRanges, by omega, by omega⟩
  · rintro ⟨r, member, start, stop⟩
    refine ⟨shift offset r, mem_map_of_mem member, ?_⟩
    simp only [shift]
    omega

theorem Separated.shift (separated : Separated ranges)
    (offset : Int) : Separated (ranges.map (shift offset)) := by
  constructor
  · intro r member
    obtain ⟨s, inRanges, rfl⟩ := mem_map.mp member
    have nonempty := separated.1 s inRanges
    simp only [Tokens.shift]
    omega
  · rw [pairwise_map]
    apply separated.2.imp
    intro r s apart
    simp only [Tokens.shift]
    omega

/-- The numbers of a range are replaced by `newLength` numbers that are all in the queue; the
numbers behind the range move. -/
theorem addRangeAndResize_spec (range : OffsetRange) {newLength : Int} (nonneg : 0 ≤ newLength)
    (separated : Separated ranges) :
    ∃ resized, addRangeAndResize range newLength ranges = some resized ∧ Separated resized ∧
      ∀ x, Covers resized x ↔ (x < range.start ∧ Covers ranges x) ∨
        (range.start ≤ x ∧ x < range.start + newLength) ∨
        (range.start + newLength ≤ x ∧ Covers ranges (x - (newLength - range.length))) := by
  have parts := separated.parts range
  have ordered := range.ordered
  have isLength : range.length = range.endExclusive - range.start := rfl
  have beforeStart : ∀ y, Covers (rangesBefore range ranges) y → y < range.start :=
    fun y => lt_of_covers parts.before_end
  have afterEnd : ∀ y, Covers (rangesAfter range ranges) y → range.endExclusive < y :=
    fun y => le_of_covers parts.after_start
  unfold addRangeAndResize
  simp only [mapM_delta]
  generalize isDelta : newLength - range.length = delta at *
  have shiftedAfter : ∀ s ∈ (rangesAfter range ranges).map (shift delta),
      range.endExclusive + delta < s.start := by
    intro s member
    obtain ⟨r, inAfter, rfl⟩ := mem_map.mp member
    have start := parts.after_start r inAfter
    simp only [shift]
    omega
  cases touching : rangesTouching range ranges with
  | nil =>
    simp only [bind_eq_bind, bind_some]
    rw [new_eq (by omega), bind_some]
    refine ⟨_, rfl, separated_insert parts.before_separated
      (parts.after_separated.shift delta) parts.before_end ?_, ?_⟩
    · intro s member
      have start := shiftedAfter s member
      simp only
      omega
    · intro x
      rw [covers_append, covers_append, covers_unlessEmpty, covers_shift,
        covers_parts range ranges x, covers_parts range ranges (x - delta), touching]
      simp only [not_covers_nil, false_or]
      grind
  | cons first rest =>
    rw [touching] at parts
    obtain ⟨isLast, bounds⟩ := parts.touching_separated.bounds
    have joined := parts.covers_joined
    simp only [bind_eq_bind, bind_some]
    rw [new_eq (by omega), bind_some]
    refine ⟨_, rfl, separated_insert parts.before_separated
      (parts.after_separated.shift delta) ?_ ?_, ?_⟩
    · intro r member
      exact lt_min (parts.before_end r member) (parts.before_touching r member first mem_cons_self)
    · intro s member
      obtain ⟨r, inAfter, rfl⟩ := mem_map.mp member
      have start := parts.after_start r inAfter
      have apart := parts.touching_after _ isLast r inAfter
      simp only [shift]
      omega
    · intro x
      rw [covers_append, covers_append, covers_unlessEmpty, covers_shift,
        covers_parts range ranges x, covers_parts range ranges (x - delta), touching]
      grind

end CodeEditor.Tokens

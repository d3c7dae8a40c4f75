import CodeEditor.Foundation.Arrays

/-!
# Sets of line numbers

Model of `LineRange` and `LineRangeSet` in `lineRange.ts`. A range that was built carries
that it does not end before it starts; the ranges that these operations build are never
reversed, so none of their constructor calls throws. Reading past an array throws when the
item is used, which is `none`.
-/

namespace CodeEditor.LineRanges

open List hiding set

/-! ## Ranges -/

structure LineRange where
  startLineNumber : Int
  endLineNumberExclusive : Int
  ordered : startLineNumber ≤ endLineNumberExclusive

namespace LineRange

instance : DecidableEq LineRange := fun a b =>
  decidable_of_iff (a.startLineNumber = b.startLineNumber ∧
    a.endLineNumberExclusive = b.endLineNumberExclusive) (by cases a; cases b; simp)

def contains (range : LineRange) (lineNumber : Int) : Bool :=
  range.startLineNumber ≤ lineNumber && lineNumber < range.endLineNumberExclusive

def isEmpty (range : LineRange) : Bool :=
  range.startLineNumber = range.endLineNumberExclusive

def length (range : LineRange) : Int := range.endLineNumberExclusive - range.startLineNumber

def delta (range : LineRange) (offset : Int) : LineRange :=
  ⟨range.startLineNumber + offset, range.endLineNumberExclusive + offset,
    Int.add_le_add_right range.ordered offset⟩

def join (range other : LineRange) : LineRange :=
  ⟨min range.startLineNumber other.startLineNumber,
    max range.endLineNumberExclusive other.endLineNumberExclusive,
    (min_le_left _ _).trans (range.ordered.trans (le_max_left _ _))⟩

def intersect (range other : LineRange) : Option LineRange :=
  let startLineNumber := max range.startLineNumber other.startLineNumber
  let endLineNumberExclusive := min range.endLineNumberExclusive other.endLineNumberExclusive
  if ordered : startLineNumber ≤ endLineNumberExclusive then
    some ⟨startLineNumber, endLineNumberExclusive, ordered⟩
  else none

end LineRange

/-! ## Sets -/

structure LineRangeSet where
  normalizedRanges : List LineRange
  deriving DecidableEq

namespace LineRangeSet

/-- `array.splice(start, deleteCount, item)`. -/
def spliceRange (ranges : List LineRange) (start deleteCount : Nat) (range : LineRange) :
    List LineRange :=
  ranges.take start ++ range :: ranges.drop (start + deleteCount)

/-- The index of the first range that touches `range` or is after it. -/
def joinRangeStartIdx (set : LineRangeSet) (range : LineRange) : Nat :=
  findFirstIdxMonotonousOrArrLen set.normalizedRanges
    fun r => r.endLineNumberExclusive ≥ range.startLineNumber

/-- The index behind the last range that touches `range` or is before it. -/
def joinRangeEndIdxExclusive (set : LineRangeSet) (range : LineRange) : Nat :=
  (findLastIdxMonotonous set.normalizedRanges
    (fun r => r.startLineNumber ≤ range.endLineNumberExclusive) + 1).toNat

def addRange (set : LineRangeSet) (range : LineRange) : Option LineRangeSet :=
  if range.length = 0 then some set
  else
    let startIdx := set.joinRangeStartIdx range
    let endIdxExclusive := set.joinRangeEndIdxExclusive range
    if startIdx = endIdxExclusive then
      some ⟨spliceRange set.normalizedRanges startIdx 0 range⟩
    else if startIdx + 1 = endIdxExclusive then do
      let joinRange ← set.normalizedRanges[startIdx]?
      some ⟨set.normalizedRanges.set startIdx (joinRange.join range)⟩
    else do
      let first ← set.normalizedRanges[startIdx]?
      let last ← set.normalizedRanges[endIdxExclusive - 1]?
      some ⟨spliceRange set.normalizedRanges startIdx (endIdxExclusive - startIdx)
        ((first.join last).join range)⟩

def contains (set : LineRangeSet) (lineNumber : Int) : Bool :=
  match findLastMonotonous set.normalizedRanges fun r => r.startLineNumber ≤ lineNumber with
  | none => false
  | some rangeThatStartsBeforeEnd => rangeThatStartsBeforeEnd.endLineNumberExclusive > lineNumber

def intersects (set : LineRangeSet) (range : LineRange) : Bool :=
  match findLastMonotonous set.normalizedRanges
      fun r => r.startLineNumber < range.endLineNumberExclusive with
  | none => false
  | some rangeThatStartsBeforeEnd =>
    rangeThatStartsBeforeEnd.endLineNumberExclusive > range.startLineNumber

/-- The choice of the next range in the loop of `getUnion`, with what is left of both sets. -/
def takeNext : (ranges1 ranges2 : List LineRange) →
    Option (LineRange × List LineRange × List LineRange)
  | [], [] => none
  | lineRange1 :: rest1, [] => some (lineRange1, rest1, [])
  | [], lineRange2 :: rest2 => some (lineRange2, [], rest2)
  | lineRange1 :: rest1, lineRange2 :: rest2 =>
    if lineRange1.startLineNumber < lineRange2.startLineNumber then
      some (lineRange1, rest1, lineRange2 :: rest2)
    else some (lineRange2, lineRange1 :: rest1, rest2)

/-- One range is taken off. -/
theorem takeNext_length {ranges1 ranges2 rest1 rest2 : List LineRange} {next : LineRange}
    (taken : takeNext ranges1 ranges2 = some (next, rest1, rest2)) :
    rest1.length + rest2.length + 1 = ranges1.length + ranges2.length := by
  unfold takeNext at taken
  split at taken
  · cases taken
  · cases taken
    simp
  · cases taken
    simp
  · split_ifs at taken <;> cases taken <;> simp <;> omega

/-- The loop of `getUnion`, with the ranges pushed so far. -/
def getUnionLoop (ranges1 ranges2 : List LineRange) (current : Option LineRange)
    (result : List LineRange) : List LineRange :=
  match taken : takeNext ranges1 ranges2 with
  | none => result ++ current.toList
  | some (next, rest1, rest2) =>
    have := takeNext_length taken
    match current with
    | none => getUnionLoop rest1 rest2 (some next) result
    | some current =>
      if current.endLineNumberExclusive ≥ next.startLineNumber then
        -- merge
        getUnionLoop rest1 rest2
          (some ⟨current.startLineNumber,
            max current.endLineNumberExclusive next.endLineNumberExclusive,
            current.ordered.trans (le_max_left _ _)⟩) result
      else
        -- push
        getUnionLoop rest1 rest2 (some next) (result ++ [current])
termination_by ranges1.length + ranges2.length

/-- `getUnion` where neither set is empty. -/
def unionOf (set other : LineRangeSet) : LineRangeSet :=
  ⟨getUnionLoop set.normalizedRanges other.normalizedRanges none []⟩

/-- The loop of `subtractFrom` over the ranges that touch, with the line to go on from. -/
def subtractLoop (range : LineRange) : (touching : List LineRange) → (startLineNumber : Int) →
    (result : List LineRange) → List LineRange
  | [], startLineNumber, result =>
    if less : startLineNumber < range.endLineNumberExclusive then
      result ++ [⟨startLineNumber, range.endLineNumberExclusive, less.le⟩]
    else result
  | r :: touching, startLineNumber, result =>
    subtractLoop range touching r.endLineNumberExclusive
      (if greater : r.startLineNumber > startLineNumber then
        result ++ [⟨startLineNumber, r.startLineNumber, greater.le⟩]
      else result)

/-- Subtracts all ranges in this set from `range` and returns the result. -/
def subtractFrom (set : LineRangeSet) (range : LineRange) : LineRangeSet :=
  let startIdx := set.joinRangeStartIdx range
  let endIdxExclusive := set.joinRangeEndIdxExclusive range
  if startIdx = endIdxExclusive then ⟨[range]⟩
  else
    ⟨subtractLoop range
      ((set.normalizedRanges.drop startIdx).take (endIdxExclusive - startIdx))
      range.startLineNumber []⟩

/-- The push in the loop of `getIntersection`. -/
def pushIntersection (r1 r2 : LineRange) (result : List LineRange) : List LineRange :=
  match r1.intersect r2 with
  | none => result
  | some i => if i.isEmpty then result else result ++ [i]

/-- The loop of `getIntersection`, with the ranges pushed so far. -/
def getIntersectionLoop : (ranges1 ranges2 : List LineRange) → (result : List LineRange) →
    List LineRange
  | [], _, result => result
  | _ :: _, [], result => result
  | r1 :: rest1, r2 :: rest2, result =>
    let result := pushIntersection r1 r2 result
    if r1.endLineNumberExclusive < r2.endLineNumberExclusive then
      getIntersectionLoop rest1 (r2 :: rest2) result
    else getIntersectionLoop (r1 :: rest1) rest2 result
termination_by ranges1 ranges2 => ranges1.length + ranges2.length

def getIntersection (set other : LineRangeSet) : LineRangeSet :=
  ⟨getIntersectionLoop set.normalizedRanges other.normalizedRanges []⟩

def getWithDelta (set : LineRangeSet) (value : Int) : LineRangeSet :=
  ⟨set.normalizedRanges.map (·.delta value)⟩

end LineRangeSet

/-! ## Objects

`addRange` changes its set in place, and `getUnion` may return one of its two sets itself.
So a run works on a list of set objects, and what an operation returns is an index. -/

abbrev Heap := List LineRangeSet

/-- The calls; sets are given by their indices. -/
inductive Call where
  | empty
  | addRange (set : Nat) (range : LineRange)
  | getUnion (set other : Nat)
  | getIntersection (set other : Nat)
  | subtractFrom (set : Nat) (range : LineRange)
  | getWithDelta (set : Nat) (value : Int)

namespace Heap

/-- Put a new object on the heap. -/
def alloc (heap : Heap) (set : LineRangeSet) : Heap × Nat := (heap ++ [set], heap.length)

/-- `set.getUnion(other)`, which returns `other` or `set` when the one beside it is empty. -/
def getUnion (heap : Heap) (set other : Nat) : Option (Heap × Nat) := do
  let ranges ← heap[set]?
  let otherRanges ← heap[other]?
  if ranges.normalizedRanges.length = 0 then some (heap, other)
  else if otherRanges.normalizedRanges.length = 0 then some (heap, set)
  else some (heap.alloc (ranges.unionOf otherRanges))

/-- Run a call: the objects behind it, and the index of the set that it returns (the one
that it changed for `addRange`). -/
def run (heap : Heap) : Call → Option (Heap × Nat)
  | .empty => some (heap.alloc ⟨[]⟩)
  | .addRange set range => do
      let changed ← (← heap[set]?).addRange range
      some (heap.set set changed, set)
  | .getUnion set other => heap.getUnion set other
  | .getIntersection set other => do
      some (heap.alloc ((← heap[set]?).getIntersection (← heap[other]?)))
  | .subtractFrom set range => do some (heap.alloc ((← heap[set]?).subtractFrom range))
  | .getWithDelta set value => do some (heap.alloc ((← heap[set]?).getWithDelta value))

end Heap

/-!
## Normalized ranges

The ranges of a set are kept sorted, non-empty and apart from each other. What a line set is
about is the lines that its ranges cover.
-/

/-- A range without a line is not stored. -/
def Proper (range : LineRange) : Prop := range.startLineNumber < range.endLineNumberExclusive

/-- The first range ends, with at least one line between them, before the second starts. -/
def Apart (range other : LineRange) : Prop :=
  range.endLineNumberExclusive < other.startLineNumber

/-- Sorted, non-empty and pairwise non-touching. -/
structure Normalized (ranges : List LineRange) : Prop where
  proper : ∀ range ∈ ranges, Proper range
  apart : ranges.Pairwise Apart

/-- Some range has the line. -/
def Covers (ranges : List LineRange) (line : Int) : Prop :=
  ∃ range ∈ ranges, range.startLineNumber ≤ line ∧ line < range.endLineNumberExclusive

variable {ranges front back : List LineRange} {range other : LineRange} {line : Int}

@[simp] theorem covers_nil : ¬Covers [] line := by simp [Covers]

@[simp] theorem covers_cons :
    Covers (range :: ranges) line ↔
      (range.startLineNumber ≤ line ∧ line < range.endLineNumberExclusive) ∨
        Covers ranges line := by
  simp [Covers]

@[simp] theorem covers_append :
    Covers (front ++ back) line ↔ Covers front line ∨ Covers back line := by
  simp [Covers, or_and_right, exists_or]

theorem normalized_nil : Normalized [] := ⟨by simp, List.Pairwise.nil⟩

theorem normalized_cons : Normalized (range :: ranges) ↔
      Proper range ∧ (∀ r ∈ ranges, Apart range r) ∧ Normalized ranges := by
  constructor
  · rintro ⟨proper, apart⟩
    obtain ⟨first, rest⟩ := pairwise_cons.mp apart
    exact ⟨proper range (by simp), first, fun r isMember => proper r (by simp [isMember]), rest⟩
  · rintro ⟨properFirst, first, proper, rest⟩
    refine ⟨fun r isMember => ?_, pairwise_cons.mpr ⟨first, rest⟩⟩
    rcases mem_cons.mp isMember with rfl | isMember
    · exact properFirst
    · exact proper r isMember

theorem normalized_singleton (proper : Proper range) : Normalized [range] :=
  normalized_cons.mpr ⟨proper, by simp, normalized_nil⟩

theorem normalized_append : Normalized (front ++ back) ↔
      Normalized front ∧ Normalized back ∧ ∀ a ∈ front, ∀ b ∈ back, Apart a b := by
  constructor
  · rintro ⟨proper, apart⟩
    obtain ⟨apartFront, apartBack, between⟩ := pairwise_append.mp apart
    exact ⟨⟨fun r isMember => proper r (by simp [isMember]), apartFront⟩,
      ⟨fun r isMember => proper r (by simp [isMember]), apartBack⟩, between⟩
  · rintro ⟨⟨properFront, apartFront⟩, ⟨properBack, apartBack⟩, between⟩
    refine ⟨fun r isMember => ?_, pairwise_append.mpr ⟨apartFront, apartBack, between⟩⟩
    rcases mem_append.mp isMember with isFront | isBack
    · exact properFront r isFront
    · exact properBack r isBack

theorem Normalized.sublist (normalized : Normalized ranges) {kept : List LineRange}
    (part : kept.Sublist ranges) : Normalized kept :=
  ⟨fun r isMember => normalized.proper r (part.subset isMember), normalized.apart.sublist part⟩

/-- Two stored ranges are apart from each other. -/
theorem Normalized.apart_or_apart (normalized : Normalized ranges) (isMember : range ∈ ranges)
    (isMember' : other ∈ ranges) (different : range ≠ other) :
    Apart range other ∨ Apart other range := by
  have : Std.Symm fun a b : LineRange => Apart a b ∨ Apart b a := ⟨fun a b => Or.symm⟩
  have apart : ranges.Pairwise fun a b => Apart a b ∨ Apart b a := normalized.apart.imp Or.inl
  exact apart.forall isMember isMember' different

/-! ## Where the searches end -/

/-- A property that no later range has once a range fails it cuts the ranges in two. -/
theorem exists_cut (ranges : List LineRange) (p : LineRange → Prop) [DecidablePred p]
    (falls : ranges.Pairwise fun a b => p b → p a) :
    ∃ front back, ranges = front ++ back ∧ (∀ r ∈ front, p r) ∧ ∀ r ∈ back, ¬p r := by
  refine ⟨ranges.takeWhile p, ranges.dropWhile p, takeWhile_append_dropWhile.symm, ?_, ?_⟩
  · intro r isMember
    simpa using mem_takeWhile_imp isMember
  · induction ranges with
    | nil => simp
    | cons first ranges ih =>
      obtain ⟨fallsFirst, fallsRest⟩ := pairwise_cons.mp falls
      by_cases holds : p first
      · rw [dropWhile_cons_of_pos (by simpa using holds)]
        exact ih fallsRest
      · rw [dropWhile_cons_of_neg (by simpa using holds)]
        intro r isMember holdsLater
        rcases mem_cons.mp isMember with rfl | isMember
        · exact holds holdsLater
        · exact holds (fallsFirst r isMember holdsLater)

/-- The ranges up to the last one that starts before a bound, and those behind it. -/
theorem Normalized.exists_cut_start (normalized : Normalized ranges) (bound : Int) :
    ∃ front back, ranges = front ++ back ∧ (∀ r ∈ front, r.startLineNumber < bound) ∧
      ∀ r ∈ back, bound ≤ r.startLineNumber := by
  obtain ⟨front, back, eq, before, behind⟩ :=
    exists_cut ranges (fun r => r.startLineNumber < bound) <|
      normalized.apart.imp_of_mem fun {a b} isFirst _ apart starts => by
        have := normalized.proper a isFirst
        unfold Apart at apart
        unfold Proper at this
        omega
  exact ⟨front, back, eq, before, fun r isMember => not_lt.mp (behind r isMember)⟩

/-- The last range is the one that reaches furthest. -/
theorem Normalized.reaches_iff_last (normalized : Normalized (front ++ [other])) {bound : Int} :
    (∃ r ∈ front ++ [other], bound < r.endLineNumberExclusive) ↔
      bound < other.endLineNumberExclusive := by
  constructor
  · rintro ⟨r, isMember, reaches⟩
    rcases mem_append.mp isMember with isFront | isLast
    · have apart := (normalized_append.mp normalized).2.2 r isFront other (by simp)
      have := other.ordered
      unfold Apart at apart
      omega
    · rwa [mem_singleton.mp isLast] at reaches
  · exact fun reaches => ⟨other, by simp, reaches⟩

theorem LineRangeSet.contains_iff {set : LineRangeSet}
    (normalized : Normalized set.normalizedRanges) :
    set.contains line = true ↔ Covers set.normalizedRanges line := by
  obtain ⟨front, back, eq, before, behind⟩ := normalized.exists_cut_start (line + 1)
  have search : findLastMonotonous set.normalizedRanges
      (fun r => decide (r.startLineNumber ≤ line)) = front.getLast? := by
    rw [eq]
    apply findLastMonotonous_append
    · intro r isMember
      exact decide_eq_true (Int.lt_add_one_iff.mp (before r isMember))
    · intro r isMember
      have := behind r isMember
      exact decide_eq_false (by omega)
  have notBehind : ¬Covers back line := by
    rintro ⟨r, isMember, starts, -⟩
    have := behind r isMember
    omega
  rw [LineRangeSet.contains, search, eq, covers_append, or_iff_left notBehind]
  rcases eq_nil_or_concat front with rfl | ⟨init, last, rfl⟩
  · simp
  · rw [concat_eq_append] at *
    rw [eq] at normalized
    rw [getLast?_concat, decide_eq_true_iff, gt_iff_lt,
      ← (normalized_append.mp normalized).1.reaches_iff_last]
    apply exists_congr
    intro r
    apply and_congr_right
    intro isMember
    have := before r isMember
    omega

/-- A range meets a set where a stored range starts before its end and ends behind its start. -/
theorem LineRangeSet.intersects_iff {set : LineRangeSet}
    (normalized : Normalized set.normalizedRanges) :
    set.intersects range = true ↔
      ∃ r ∈ set.normalizedRanges, r.startLineNumber < range.endLineNumberExclusive ∧
        range.startLineNumber < r.endLineNumberExclusive := by
  obtain ⟨front, back, eq, before, behind⟩ :=
    normalized.exists_cut_start range.endLineNumberExclusive
  have search : findLastMonotonous set.normalizedRanges
      (fun r => decide (r.startLineNumber < range.endLineNumberExclusive)) = front.getLast? := by
    rw [eq]
    apply findLastMonotonous_append
    · intro r isMember
      exact decide_eq_true (before r isMember)
    · intro r isMember
      exact decide_eq_false (not_lt.mpr (behind r isMember))
  have inFront : (∃ r ∈ set.normalizedRanges, r.startLineNumber < range.endLineNumberExclusive ∧
        range.startLineNumber < r.endLineNumberExclusive) ↔
      ∃ r ∈ front, range.startLineNumber < r.endLineNumberExclusive := by
    rw [eq]
    constructor
    · rintro ⟨r, isMember, starts, reaches⟩
      rcases mem_append.mp isMember with isFront | isBack
      · exact ⟨r, isFront, reaches⟩
      · exact absurd starts (not_lt.mpr (behind r isBack))
    · rintro ⟨r, isFront, reaches⟩
      exact ⟨r, by simp [isFront], before r isFront, reaches⟩
  rw [LineRangeSet.intersects, search, inFront]
  rcases eq_nil_or_concat front with rfl | ⟨init, last, rfl⟩
  · simp
  · rw [concat_eq_append] at *
    rw [eq] at normalized
    rw [getLast?_concat, decide_eq_true_iff, gt_iff_lt,
      (normalized_append.mp normalized).1.reaches_iff_last]

end CodeEditor.LineRanges

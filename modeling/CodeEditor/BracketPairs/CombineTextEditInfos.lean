import CodeEditor.BracketPairs.Length

/-!
# Combined edits

Model of `combineTextEditInfos` (`combineTextEditInfos.ts`). The first edits are a queue of
mappings from `s0` to `s1`, which is cut at the borders of the second edits.
-/

namespace CodeEditor.BracketPairs

open ExtentEdit List

/-- When `modified` is false, the two lengths are equal. -/
structure LengthMapping where
  modified : Bool
  lengthBefore : Length
  lengthAfter : Length
  deriving DecidableEq

def LengthMapping.splitAt (mapping : LengthMapping) (lengthAfter : Length) :
    LengthMapping × Option LengthMapping :=
  let remainingLengthAfter := lengthDiffNonNegative lengthAfter mapping.lengthAfter
  if lengthEquals remainingLengthAfter lengthZero then (mapping, none)
  else if mapping.modified then
    (⟨mapping.modified, mapping.lengthBefore, lengthAfter⟩,
      some ⟨mapping.modified, lengthZero, remainingLengthAfter⟩)
  else
    (⟨mapping.modified, lengthAfter, lengthAfter⟩,
      some ⟨mapping.modified, remainingLengthAfter, remainingLengthAfter⟩)

/-- The loop of `toLengthMapping`. -/
def toLengthMappingFrom : (lastOffset : Length) → List TextEditInfo → List LengthMapping
  | _, [] => []
  | lastOffset, textEditInfo :: textEditInfos =>
    let spaceLength := lengthDiffNonNegative lastOffset textEditInfo.startOffset
    let space := if lengthIsZero spaceLength then [] else [⟨false, spaceLength, spaceLength⟩]
    let lengthBefore := lengthDiffNonNegative textEditInfo.startOffset textEditInfo.endOffset
    space ++ ⟨true, lengthBefore, textEditInfo.newLength⟩ ::
      toLengthMappingFrom textEditInfo.endOffset textEditInfos

def toLengthMapping (textEditInfos : List TextEditInfo) : List LengthMapping :=
  toLengthMappingFrom lengthZero textEditInfos

/-- `nextS0ToS1MapWithS1LengthOf` for a length: the mappings that make it up, and the current
item with the queue behind it after the call. -/
def nextS0ToS1MapWithS1LengthOf :
    (items : List LengthMapping) → (s1Length : Length) → List LengthMapping × List LengthMapping
  | [], s1Length =>
    (if lengthIsZero s1Length then [] else [⟨false, s1Length, s1Length⟩], [])
  | curItem :: queue, s1Length =>
    if lengthIsZero s1Length then ([], curItem :: queue)
    else
      match curItem.splitAt s1Length with
      -- the item has the length that was asked for, and the loop ends
      | (item, some remainingItem) => ([item], remainingItem :: queue)
      | (item, none) =>
        let (result, items) := nextS0ToS1MapWithS1LengthOf queue
          (lengthDiffNonNegative item.lengthAfter s1Length)
        (item :: result, items)

def pushEdit (result : List TextEditInfo) (startOffset endOffset newLength : Length) :
    List TextEditInfo :=
  match result.getLast? with
  | some lastResult =>
    if lengthEquals lastResult.endOffset startOffset then
      result.dropLast ++
        [⟨lastResult.startOffset, endOffset, lengthAdd lastResult.newLength newLength⟩]
    else result ++ [⟨startOffset, endOffset, newLength⟩]
  | none => result ++ [⟨startOffset, endOffset, newLength⟩]

/-- The loop over the mappings of a part that the second edits copy. -/
def copyMappings : (s0ToS1Map : List LengthMapping) → (s0offset : Length) →
    (result : List TextEditInfo) → Length × List TextEditInfo
  | [], s0offset, result => (s0offset, result)
  | s1 :: s0ToS1Map, s0startOffset, result =>
    let s0offset := lengthAdd s0startOffset s1.lengthBefore
    copyMappings s0ToS1Map s0offset
      (if s1.modified then pushEdit result s0startOffset s0offset s1.lengthAfter else result)

/-- The loop over the mappings of the second edits, and the last step, which copies
everything that is left. -/
def combineLoop : (s1ToS2Map : List LengthMapping) → (items : List LengthMapping) →
    (s0offset : Length) → (result : List TextEditInfo) → List TextEditInfo
  | [], items, s0offset, result => (copyMappings items s0offset result).2
  | s1ToS2 :: s1ToS2Map, items, s0offset, result =>
    let (s0ToS1Map, items) := nextS0ToS1MapWithS1LengthOf items s1ToS2.lengthBefore
    if s1ToS2.modified then
      let s0Length := sumLengths s0ToS1Map LengthMapping.lengthBefore
      let s0EndOffset := lengthAdd s0offset s0Length
      combineLoop s1ToS2Map items s0EndOffset
        (pushEdit result s0offset s0EndOffset s1ToS2.lengthAfter)
    else
      let (s0offset, result) := copyMappings s0ToS1Map s0offset result
      combineLoop s1ToS2Map items s0offset result

def combineTextEditInfos (textEditInfoFirst textEditInfoSecond : List TextEditInfo) :
    List TextEditInfo :=
  if textEditInfoFirst.length = 0 then textEditInfoSecond
  else if textEditInfoSecond.length = 0 then textEditInfoFirst
  else
    combineLoop (toLengthMapping textEditInfoSecond) (toLengthMapping textEditInfoFirst)
      lengthZero []

/-!
## Combined edits compose

While the two lists are read, what is left of each of them relates places as the whole list
does. The result so far keeps no place but those that both lists keep, one after the other.
-/

section Relations

variable {within : Extent → Extent → Prop} {items : List LengthMapping}
  {x y z old new : Extent}

/-! ## Mappings -/

/-- The places that mappings keep; behind the last of them everything is kept. -/
def KeptIn (within : Extent → Extent → Prop) :
    List LengthMapping → (x y old new : Extent) → Prop
  | [], x, y, old, new => ∃ rest, old = x + rest ∧ new = y + rest
  | m :: items, x, y, old, new =>
    (m.modified = false ∧ ∃ rest, within rest m.lengthAfter ∧ old = x + rest ∧ new = y + rest) ∨
      KeptIn within items (x + m.lengthBefore) (y + m.lengthAfter) old new

/-- Unmodified parts are as long before as after. -/
def Even (items : List LengthMapping) : Prop :=
  ∀ m ∈ items, m.modified = false → m.lengthBefore = m.lengthAfter

def sumBefore (items : List LengthMapping) : Extent := (items.map LengthMapping.lengthBefore).sum

def sumAfter (items : List LengthMapping) : Extent := (items.map LengthMapping.lengthAfter).sum

@[simp] theorem sumBefore_nil : sumBefore [] = 0 := rfl

@[simp] theorem sumAfter_nil : sumAfter [] = 0 := rfl

@[simp] theorem sumBefore_cons (m : LengthMapping) (items : List LengthMapping) :
    sumBefore (m :: items) = m.lengthBefore + sumBefore items := by
  rw [sumBefore, map_cons, sum_cons, sumBefore]

@[simp] theorem sumAfter_cons (m : LengthMapping) (items : List LengthMapping) :
    sumAfter (m :: items) = m.lengthAfter + sumAfter items := by
  rw [sumAfter, map_cons, sum_cons, sumAfter]

variable {m : LengthMapping}

theorem Even.tail (even : Even (m :: items)) : Even items :=
  fun other member => even other (mem_cons_of_mem _ member)

/-- What later mappings keep is kept. -/
theorem KeptIn.append
    (kept : KeptIn within items (x + sumBefore front) (y + sumAfter front) old new) :
    KeptIn within (front ++ items) x y old new := by
  induction front generalizing x y with
  | nil => simpa using kept
  | cons m front ih =>
    rw [sumBefore_cons, sumAfter_cons, ← add_assoc, ← add_assoc] at kept
    exact .inr (ih kept)

/-- The mappings of edits keep what the edits keep, and they are as long. -/
theorem toLengthMappingFrom_spec (isWithin : IsWithin within) {edits : List TextEditInfo}
    {stop newStop : Extent} (sorted : SortedFrom stop edits) :
    (∀ old new, KeptIn within (toLengthMappingFrom stop edits) stop newStop old new →
        KeptFrom within stop newStop edits old new) ∧
      Even (toLengthMappingFrom stop edits) ∧
      endsFrom stop newStop edits = (stop + sumBefore (toLengthMappingFrom stop edits),
        newStop + sumAfter (toLengthMappingFrom stop edits)) := by
  induction edits generalizing stop newStop with
  | nil =>
    refine ⟨fun _ _ kept => kept, ?_, ?_⟩
    · intro m member
      cases member
    · simp [toLengthMappingFrom, endsFrom]
  | cons e edits ih =>
    obtain ⟨start, ordered, later⟩ := sorted
    obtain ⟨kept, even, ends⟩ := @ih e.endOffset (newEnd stop newStop e) later
    have space := lengthDiffNonNegative_of_le start
    have before := lengthDiffNonNegative_of_le ordered
    have toStart := Extent.add_sub_of_le start
    have toEnd := Extent.add_sub_of_le ordered
    rw [toLengthMappingFrom]
    simp only [space, before]
    by_cases touches : e.startOffset - stop = 0
    · rw [if_pos (lengthIsZero_iff.mpr touches), nil_append]
      rw [touches, add_zero] at toStart
      have newStarts : newEnd stop newStop e = newStop + e.newLength := by
        rw [newEnd, newStart, touches, add_zero]
      rw [← toStart] at toEnd ⊢
      refine ⟨?_, ?_, ?_⟩
      · rintro old new (⟨isUnmodified, -⟩ | keptBehind)
        · cases isUnmodified
        · rw [toEnd, ← newStarts] at keptBehind
          exact .inr (kept old new keptBehind)
      · intro m member unmodified
        rcases mem_cons.mp member with rfl | member
        · cases unmodified
        · exact even m member unmodified
      · rw [endsFrom, ends, sumBefore_cons, sumAfter_cons, ← add_assoc, ← add_assoc, toEnd,
          ← newStarts]
    · rw [if_neg (mt lengthIsZero_iff.mp touches)]
      have newStarts : newEnd stop newStop e = newStop + (e.startOffset - stop) + e.newLength := rfl
      refine ⟨?_, ?_, ?_⟩
      · rintro old new (⟨-, rest, inGap, rfl, rfl⟩ | ⟨isUnmodified, -⟩ | keptBehind)
        · refine .inl ⟨rest, ?_, rfl, rfl⟩
          rw [← toStart]
          exact isWithin.add_iff.mpr inGap
        · cases isUnmodified
        · rw [toStart, toEnd, ← newStarts] at keptBehind
          exact .inr (kept old new keptBehind)
      · intro m member unmodified
        rcases mem_append.mp member with member | member
        · rw [mem_singleton.mp member]
        · rcases mem_cons.mp member with rfl | member
          · cases unmodified
          · exact even m member unmodified
      · rw [endsFrom, ends, cons_append, nil_append, sumBefore_cons, sumAfter_cons,
          sumBefore_cons, sumAfter_cons]
        simp only [← add_assoc]
        rw [toStart, toEnd, ← newStarts]

/-! ## Parts of mappings -/

variable {length : Length}

theorem splitAt_of_le (whole : m.lengthAfter ≤ length) : m.splitAt length = (m, none) := by
  rw [LengthMapping.splitAt, lengthDiffNonNegative_of_ge whole]
  rfl

theorem splitAt_of_lt (part : length < m.lengthAfter) : m.splitAt length =
      if m.modified then
        (⟨m.modified, m.lengthBefore, length⟩, some ⟨m.modified, 0, m.lengthAfter - length⟩)
      else
        (⟨m.modified, length, length⟩,
          some ⟨m.modified, m.lengthAfter - length, m.lengthAfter - length⟩) := by
  have remains : ¬m.lengthAfter - length = 0 := by
    intro nothing
    have sum := Extent.add_sub_of_le part.le
    rw [nothing, add_zero] at sum
    exact part.ne sum
  rw [LengthMapping.splitAt, lengthDiffNonNegative_of_le part.le]
  simp [remains]

/-- The mappings `taken` make up a length; with those behind them, they keep what the mappings
keep. They are longer only when nothing is left. -/
structure Takes (within : Extent → Extent → Prop) (items : List LengthMapping)
    (length : Length) (taken rest : List LengthMapping) : Prop where
  length_eq : sumAfter taken = length
  even : Even taken
  evenRest : Even rest
  kept : ∀ x y old new, KeptIn within (taken ++ rest) x y old new → KeptIn within items x y old new
  sums : ∃ more, sumBefore taken + sumBefore rest = sumBefore items + more ∧
    sumAfter taken + sumAfter rest = sumAfter items + more ∧ (more = 0 ∨ rest = [])
  nothing : items = [] → rest = []

theorem Takes.cons {taken rest : List LengthMapping} (even : Even (m :: items))
    (whole : m.lengthAfter ≤ length)
    (takes : Takes within items (length - m.lengthAfter) taken rest) :
    Takes within (m :: items) length (m :: taken) rest := by
  obtain ⟨length_eq, evenTaken, evenRest, kept, ⟨more, before, after, last⟩, -⟩ := takes
  constructor
  · rw [sumAfter_cons, length_eq, Extent.add_sub_of_le whole]
  · intro other member
    rcases mem_cons.mp member with rfl | member
    · exact even other (by simp)
    · exact evenTaken other member
  · exact evenRest
  · rintro x y old new (own | behind)
    · exact .inl own
    · exact .inr (kept _ _ _ _ behind)
  · refine ⟨more, ?_, ?_, last⟩
    · rw [sumBefore_cons, sumBefore_cons, add_assoc, before, add_assoc]
    · rw [sumAfter_cons, sumAfter_cons, add_assoc, after, add_assoc]
  · intro empty
    cases empty

theorem Takes.split (isWithin : IsWithin within) (even : Even (m :: items))
    (part : length < m.lengthAfter) : ∃ item remaining, m.splitAt length = (item, some remaining) ∧
      Takes within (m :: items) length [item] (remaining :: items) := by
  have whole := Extent.add_sub_of_le part.le
  rw [splitAt_of_lt part]
  cases modified : m.modified with
  | true =>
    refine ⟨_, _, rfl, ?_⟩
    constructor
    · simp
    · intro other member
      rw [mem_singleton.mp member]
      simp
    · intro other member
      rcases mem_cons.mp member with rfl | member
      · simp
      · exact even other (mem_cons_of_mem _ member)
    · rintro x y old new (⟨isUnmodified, -⟩ | ⟨isUnmodified, -⟩ | behind)
      · cases isUnmodified
      · cases isUnmodified
      · simp only [add_zero, add_assoc, whole] at behind
        exact .inr behind
    · refine ⟨0, ?_, ?_, .inl rfl⟩
      · simp
      · simp [← add_assoc, whole]
    · intro empty
      cases empty
  | false =>
    have same := even m (by simp) modified
    refine ⟨_, _, rfl, ?_⟩
    constructor
    · simp
    · intro other member _
      rw [mem_singleton.mp member]
    · intro other member unmodified
      rcases mem_cons.mp member with rfl | member
      · rfl
      · exact even other (mem_cons_of_mem _ member) unmodified
    · rintro x y old new (⟨-, rest, inFirst, place⟩ | ⟨-, rest, inSecond, rfl, rfl⟩ | behind)
      · exact .inl ⟨modified, rest, isWithin.trans_le inFirst part.le, place⟩
      · refine .inl ⟨modified, length + rest, ?_, add_assoc _ _ _, add_assoc _ _ _⟩
        rw [← whole]
        exact isWithin.add_iff.mpr inSecond
      · simp only [add_assoc, whole] at behind
        refine .inr ?_
        rw [same]
        exact behind
    · refine ⟨0, ?_, ?_, .inl rfl⟩
      · simp [← add_assoc, whole, same]
      · simp [← add_assoc, whole]
    · intro empty
      cases empty

theorem nextS0ToS1Map_takes (isWithin : IsWithin within) (even : Even items) (length : Length) :
    Takes within items length (nextS0ToS1MapWithS1LengthOf items length).1
      (nextS0ToS1MapWithS1LengthOf items length).2 := by
  induction items generalizing length with
  | nil =>
    rw [nextS0ToS1MapWithS1LengthOf]
    by_cases nothing : length = 0
    · rw [if_pos (lengthIsZero_iff.mpr nothing)]
      refine ⟨nothing.symm, even, even, fun _ _ _ _ kept => kept, ⟨0, ?_, ?_, .inl rfl⟩,
        fun _ => rfl⟩
      · simp
      · simp
    · rw [if_neg (mt lengthIsZero_iff.mp nothing)]
      refine ⟨?_, ?_, even, ?_, ⟨length, ?_, ?_, .inr rfl⟩, fun _ => rfl⟩
      · simp
      · intro m member _
        rw [mem_singleton.mp member]
      · rintro x y old new (⟨-, rest, -, place⟩ | ⟨rest, rfl, rfl⟩)
        · exact ⟨rest, place⟩
        · exact ⟨length + rest, add_assoc _ _ _, add_assoc _ _ _⟩
      · simp
      · simp
  | cons m items ih =>
    rw [nextS0ToS1MapWithS1LengthOf]
    by_cases nothing : length = 0
    · rw [if_pos (lengthIsZero_iff.mpr nothing)]
      refine ⟨nothing.symm, ?_, even, fun _ _ _ _ kept => kept, ⟨0, ?_, ?_, .inl rfl⟩, ?_⟩
      · intro other member
        cases member
      · simp
      · simp
      · intro empty
        cases empty
    · rw [if_neg (mt lengthIsZero_iff.mp nothing)]
      rcases le_or_gt m.lengthAfter length with whole | part
      · rw [splitAt_of_le whole]
        simp only [lengthDiffNonNegative_of_le whole]
        exact (ih even.tail _).cons even whole
      · obtain ⟨item, remaining, isSplit, takes⟩ := Takes.split isWithin even part
        rw [isSplit]
        exact takes

end Relations

/-! ## The result so far -/

section Output

variable {within Good : Extent → Extent → Prop} {result : List TextEditInfo} {x y z : Extent}

/-- The edits so far, up to the place `x` that goes to `z`: every place that they keep is good.
A gap that has no length yet need not be: an edit may follow that touches the last one. -/
structure Output (within Good : Extent → Extent → Prop) (result : List TextEditInfo)
    (x z : Extent) : Prop where
  sorted : Sorted result
  gaps : ∀ old new, GapFrom within 0 0 result old new → Good old new
  upTo : (endsFrom 0 0 result).1 ≤ x
  target : z = (endsFrom 0 0 result).2 + (x - (endsFrom 0 0 result).1)
  lastGap : result = [] ∨ (endsFrom 0 0 result).1 < x → ∀ rest,
    within ((endsFrom 0 0 result).1 + rest) x →
      Good ((endsFrom 0 0 result).1 + rest) ((endsFrom 0 0 result).2 + rest)

theorem Output.start (isWithin : IsWithin within) (good : within 0 0 → Good 0 0) :
    Output within Good [] 0 0 := by
  refine ⟨trivial, fun _ _ gap => gap.elim, le_refl _, rfl, ?_⟩
  intro _ rest inGap
  have nothing : rest = 0 := by
    have le := isWithin.le inGap
    simp only [endsFrom, zero_add] at le
    exact le_antisymm le (Extent.zero_le rest)
  rw [nothing] at inGap ⊢
  exact good (by rwa [add_zero] at inGap)

/-- A place behind the last edit is in front of `x`, or as far behind it as behind `z`. -/
theorem Output.early_or_late (output : Output within Good result x z) (rest : Extent) :
    (endsFrom 0 0 result).1 + rest < x ∨ ∃ more, (endsFrom 0 0 result).1 + rest = x + more ∧
        (endsFrom 0 0 result).2 + rest = z + more := by
  rcases lt_or_ge ((endsFrom 0 0 result).1 + rest) x with early | late
  · exact .inl early
  · have toX := Extent.add_sub_of_le output.upTo
    obtain ⟨more, isMore⟩ := Extent.le_iff_exists_add.mp late
    refine .inr ⟨more, isMore, ?_⟩
    rw [← toX, add_assoc] at isMore
    rw [Extent.add_left_cancel isMore, output.target, add_assoc]

/-- A part that is kept by both lists. -/
theorem Output.copy (isWithin : IsWithin within) (output : Output within Good result x z)
    {length : Extent} (good : ∀ rest, within rest length → Good (x + rest) (z + rest)) :
    Output within Good result (x + length) (z + length) := by
  obtain ⟨sorted, gaps, upTo, target, lastGap⟩ := output
  have toX := Extent.add_sub_of_le upTo
  have longer : x + length - (endsFrom 0 0 result).1 = x - (endsFrom 0 0 result).1 + length := by
    conv_lhs => rw [← toX, add_assoc, Extent.add_sub_cancel]
  refine ⟨sorted, gaps, upTo.trans (Extent.le_add _ _), ?_, ?_⟩
  · rw [longer, ← add_assoc, ← target]
  · intro isOpen rest inGap
    -- a place of the gap is in front of `x`, or in the part that is new
    rcases Output.early_or_late ⟨sorted, gaps, upTo, target, lastGap⟩ rest with
      early | ⟨more, isMore, isTarget⟩
    · apply lastGap _ rest (isWithin.of_lt early)
      exact .inr (lt_of_le_of_lt (Extent.le_add _ _) early)
    · rw [isMore] at inGap ⊢
      rw [isTarget]
      exact good more (isWithin.add_iff.mp inGap)

/-- A part that is replaced. -/
theorem Output.push (output : Output within Good result x z) {stop : Extent} (le : x ≤ stop)
    (newLength : Extent) :
    Output within Good (pushEdit result x stop newLength) stop (z + newLength) := by
  obtain ⟨sorted, gaps, upTo, target, lastGap⟩ := output
  have separate : result = [] ∨ (endsFrom 0 0 result).1 < x →
      Output within Good (result ++ [⟨x, stop, newLength⟩]) stop (z + newLength) := by
    intro isOpen
    have ends : endsFrom 0 0 (result ++ [⟨x, stop, newLength⟩]) = (stop, z + newLength) := by
      rw [endsFrom_concat, newEnd, newStart, target]
    constructor
    · exact (@sortedFrom_concat 0 0 result _).mpr ⟨sorted, upTo, le⟩
    · intro old new gap
      rcases (gapFrom_concat _).mp gap with gap | ⟨rest, inGap, rfl, rfl⟩
      · exact gaps old new gap
      · exact lastGap isOpen rest inGap
    · rw [ends]
    · rw [ends, Extent.sub_self, add_zero]
    · rw [ends]
      rintro (empty | less)
      · simp at empty
      · exact absurd less (lt_irrefl _)
  rcases eq_nil_or_concat' result with rfl | ⟨front, last, rfl⟩
  · exact separate (.inl rfl)
  · have isLast : (front ++ [last]).getLast? = some last := by simp
    have isFront : (front ++ [last]).dropLast = front := by simp
    have ends : endsFrom 0 0 (front ++ [last]) =
        (last.endOffset, newEnd (endsFrom 0 0 front).1 (endsFrom 0 0 front).2 last) :=
      endsFrom_concat last
    rw [pushEdit, isLast]
    simp only [isFront, lengthAdd_eq]
    by_cases touches : last.endOffset = x
    · -- the edit is joined to the last one
      rw [if_pos (lengthEquals_iff.mpr touches)]
      rw [ends, ← touches, Extent.sub_self, add_zero] at target
      have joined : endsFrom 0 0 (front ++ [⟨last.startOffset, stop, last.newLength + newLength⟩]) =
          (stop, z + newLength) := by
        rw [endsFrom_concat, newEnd, newStart, target, newEnd, newStart, ← add_assoc]
      obtain ⟨sortedFront, start, ordered⟩ := (@sortedFrom_concat 0 0 front last).mp sorted
      constructor
      · refine (@sortedFrom_concat 0 0 front _).mpr ⟨sortedFront, start, ?_⟩
        exact ordered.trans (touches.trans_le le)
      · intro old new gap
        rw [gapFrom_concat] at gap
        exact gaps old new ((gapFrom_concat last).mpr gap)
      · rw [joined]
      · rw [joined, Extent.sub_self, add_zero]
      · rw [joined]
        rintro (empty | less)
        · simp at empty
        · exact absurd less (lt_irrefl _)
    · rw [if_neg (mt lengthEquals_iff.mp touches)]
      rw [ends] at upTo
      apply separate
      rw [ends]
      exact .inr (lt_of_le_of_ne upTo touches)

/-- When everything behind is good, all that the result keeps is good. -/
theorem Output.finish (output : Output within Good result x z) (isWithin : IsWithin within)
    (good : ∀ rest, Good (x + rest) (z + rest)) {old new : Extent}
    (kept : KeptFrom within 0 0 result old new) : Good old new := by
  rcases keptFrom_iff.mp kept with gap | ⟨rest, rfl, rfl⟩
  · exact output.gaps old new gap
  · rcases output.early_or_late rest with early | ⟨more, isMore, isTarget⟩
    · apply output.lastGap _ rest (isWithin.of_lt early)
      exact .inr (lt_of_le_of_lt (Extent.le_add _ _) early)
    · rw [isMore, isTarget]
      exact good more

end Output

/-! ## The loops -/

section Loops

variable {within First Second : Extent → Extent → Prop}

/-- A place that goes through both lists. -/
def Through (First Second : Extent → Extent → Prop) (old new : Extent) : Prop :=
  ∃ middle, First old middle ∧ Second middle new

theorem copyMappings_spec (isWithin : IsWithin within) {taken rest : List LengthMapping}
    {result : List TextEditInfo} {x y z : Extent}
    (output : Output within (Through First Second) result x z) (even : Even taken)
    (first : ∀ old middle, KeptIn within (taken ++ rest) x y old middle → First old middle)
    (second : ∀ more, within more (sumAfter taken) → Second (y + more) (z + more)) :
    (copyMappings taken x result).1 = x + sumBefore taken ∧
      Output within (Through First Second) (copyMappings taken x result).2
        (x + sumBefore taken) (z + sumAfter taken) := by
  induction taken generalizing result x y z with
  | nil =>
    exact ⟨rfl, output⟩
  | cons m taken ih =>
    have firstRest : ∀ old middle, KeptIn within (taken ++ rest) (x + m.lengthBefore)
        (y + m.lengthAfter) old middle → First old middle :=
      fun old middle kept => first old middle (.inr kept)
    have secondRest : ∀ more, within more (sumAfter taken) →
        Second (y + m.lengthAfter + more) (z + m.lengthAfter + more) := by
      intro more inRest
      rw [add_assoc, add_assoc]
      exact second _ (isWithin.add_iff.mpr inRest)
    rw [copyMappings, sumBefore_cons, sumAfter_cons, ← add_assoc, ← add_assoc]
    simp only [lengthAdd_eq]
    cases modified : m.modified with
    | true =>
      have pushed := output.push (Extent.le_add x m.lengthBefore) m.lengthAfter
      exact ih pushed even.tail firstRest secondRest
    | false =>
      have same := even m (by simp) modified
      have copied : Output within (Through First Second) result (x + m.lengthBefore)
          (z + m.lengthAfter) := by
        rw [same]
        apply output.copy isWithin
        intro more inPart
        refine ⟨y + more, ?_, ?_⟩
        · exact first _ _ (.inl ⟨modified, more, inPart, rfl, rfl⟩)
        · exact second more (isWithin.trans_le inPart (Extent.le_add _ _))
      exact ih copied even.tail firstRest secondRest

/-- The loop has read both lists up to a place of each document: what is left relates places as
the lists do, and ends where they end, or behind. -/
structure Reads (within First Second : Extent → Extent → Prop) (ends1 ends2 : Extent × Extent)
    (s1ToS2Map items : List LengthMapping) (x y z : Extent) : Prop where
  evenItems : Even items
  evenMap : Even s1ToS2Map
  first : ∀ old middle, KeptIn within items x y old middle → First old middle
  second : ∀ middle new, KeptIn within s1ToS2Map y z middle new → Second middle new
  firstEnd : ∃ more, x + sumBefore items = ends1.1 + more ∧
    y + sumAfter items = ends1.2 + more ∧ (more = 0 ∨ items = [])
  secondEnd : y + sumBefore s1ToS2Map = ends2.1 ∧ z + sumAfter s1ToS2Map = ends2.2

variable {ends1 ends2 : Extent × Extent} {x y z : Extent}
  {s1ToS2Map items taken rest : List LengthMapping} {m : LengthMapping}

/-- One mapping of the second edits, with the mappings of the first that it covers. -/
theorem Reads.step (reads : Reads within First Second ends1 ends2 (m :: s1ToS2Map) items x y z)
    (takes : Takes within items m.lengthBefore taken rest) :
    Reads within First Second ends1 ends2 s1ToS2Map rest (x + sumBefore taken)
      (y + m.lengthBefore) (z + m.lengthAfter) := by
  obtain ⟨evenItems, evenMap, first, second, ⟨more, before, after, last⟩, ends⟩ := reads
  obtain ⟨length_eq, -, evenRest, kept, ⟨longer, sumsBefore, sumsAfter, noRest⟩, nothing⟩ := takes
  refine ⟨evenRest, evenMap.tail, ?_, ?_, ⟨more + longer, ?_, ?_, ?_⟩, ?_, ?_⟩
  · intro old middle keptRest
    rw [← length_eq] at keptRest
    exact first old middle (kept _ _ _ _ keptRest.append)
  · intro middle new keptRest
    exact second middle new (.inr keptRest)
  · rw [add_assoc, sumsBefore, ← add_assoc, before, add_assoc]
  · rw [← length_eq, add_assoc, sumsAfter, ← add_assoc, after, add_assoc]
  · rcases noRest with rfl | noRest
    · rcases last with rfl | empty
      · exact .inl (add_zero 0)
      · exact .inr (nothing empty)
    · exact .inr noRest
  · rw [add_assoc, ← sumBefore_cons]
    exact ends.1
  · rw [add_assoc, ← sumAfter_cons]
    exact ends.2

/-- What the loop gives, and where it ends. -/
theorem combineLoop_spec (isWithin : IsWithin within)
    (reads : Reads within First Second ends1 ends2 s1ToS2Map items x y z)
    (output : Output within (Through First Second) result x z) :
    ∃ x' y' z', Output within (Through First Second) (combineLoop s1ToS2Map items x result) x' z' ∧
      (∀ more, Through First Second (x' + more) (z' + more)) ∧
      (∃ more, x' = ends1.1 + more ∧ y' = ends1.2 + more ∧ (more = 0 ∨ y' = ends2.1)) ∧
      ∃ more, y' = ends2.1 + more ∧ z' = ends2.2 + more := by
  induction s1ToS2Map generalizing items x y z result with
  | nil =>
    obtain ⟨evenItems, -, first, second, ⟨more, before, after, last⟩, ends⟩ := reads
    rw [sumBefore_nil, sumAfter_nil, add_zero, add_zero] at ends
    have secondAll : ∀ more, Second (y + more) (z + more) :=
      fun more => second _ _ ⟨more, rfl, rfl⟩
    obtain ⟨-, copied⟩ := @copyMappings_spec within First Second isWithin items [] result x y z
      output evenItems (by rwa [append_nil]) fun more _ => secondAll more
    refine ⟨x + sumBefore items, y + sumAfter items, z + sumAfter items, copied, ?_,
      ⟨more, before, after, ?_⟩, sumAfter items, ?_, ?_⟩
    · intro more
      refine ⟨y + sumAfter items + more, ?_, ?_⟩
      · have tail : KeptIn within (items ++ []) x y (x + sumBefore items + more)
            (y + sumAfter items + more) := KeptIn.append ⟨more, rfl, rfl⟩
        rw [append_nil] at tail
        exact first _ _ tail
      · rw [add_assoc, add_assoc]
        exact secondAll _
    · rcases last with isZero | rfl
      · exact .inl isZero
      · rw [sumAfter_nil, add_zero]
        exact .inr ends.1
    · rw [ends.1]
    · rw [ends.2]
  | cons m s1ToS2Map ih =>
    have takes := nextS0ToS1Map_takes isWithin reads.evenItems m.lengthBefore
    have next := reads.step takes
    rw [combineLoop]
    generalize nextS0ToS1MapWithS1LengthOf items m.lengthBefore = parts at takes next ⊢
    obtain ⟨taken, rest⟩ := parts
    cases modified : m.modified with
    | true =>
      simp only [sumLengths_eq, lengthAdd_eq, if_true]
      exact ih next (output.push (Extent.le_add _ _) m.lengthAfter)
    | false =>
      have same := reads.evenMap m (by simp) modified
      have lengths := takes.length_eq
      obtain ⟨isOffset, copied⟩ := @copyMappings_spec within First Second isWithin taken rest
        result x y z output takes.even
        (fun old middle kept => reads.first old middle (takes.kept _ _ _ _ kept))
        (fun more inPart => reads.second _ _ (.inl ⟨modified, more,
          by rwa [lengths, same] at inPart, rfl, rfl⟩))
      rw [lengths, same] at copied
      simp only [Bool.false_eq_true, if_false]
      rw [isOffset]
      exact ih next copied

end Loops

/-! ## The combined edits -/

/-- The edits keep what both lists keep, and take a document to the same length. -/
structure Combines (within : Extent → Extent → Prop) (first second combined : List TextEditInfo) :
    Prop where
  sorted : Sorted combined
  kept : ∀ old new, KeptFrom within 0 0 combined old new →
    Through (KeptFrom within 0 0 first) (KeptFrom within 0 0 second) old new
  total : ∀ length, (endsFrom 0 0 first).1 ≤ length →
    (endsFrom 0 0 second).1 ≤ newTotal first length →
      (endsFrom 0 0 combined).1 ≤ length ∧
        newTotal combined length = newTotal second (newTotal first length)

section Combined

variable {within : Extent → Extent → Prop} {first second : List TextEditInfo}

/-- A document that begins with a gap keeps its start. -/
theorem keptFrom_zero (isWithin : IsWithin within) (edits : List TextEditInfo)
    (inGap : within 0 0) : KeptFrom within 0 0 edits 0 0 := by
  cases edits with
  | nil => exact ⟨0, rfl, rfl⟩
  | cons e edits => exact .inl ⟨0, isWithin.trans_le inGap (Extent.zero_le _), rfl, rfl⟩

theorem combineLoop_combines (isWithin : IsWithin within) (sortedFirst : Sorted first)
    (sortedSecond : Sorted second) :
    Combines within first second
      (combineLoop (toLengthMapping second) (toLengthMapping first) lengthZero []) := by
  rw [lengthZero_eq]
  obtain ⟨keptFirst, evenFirst, endsFirst⟩ :=
    @toLengthMappingFrom_spec within isWithin first 0 0 sortedFirst
  obtain ⟨keptSecond, evenSecond, endsSecond⟩ :=
    @toLengthMappingFrom_spec within isWithin second 0 0 sortedSecond
  have reads : Reads within (KeptFrom within 0 0 first) (KeptFrom within 0 0 second)
      (endsFrom 0 0 first) (endsFrom 0 0 second) (toLengthMapping second)
      (toLengthMapping first) 0 0 0 := by
    refine ⟨evenFirst, evenSecond, keptFirst, keptSecond, ⟨0, ?_, ?_, .inl rfl⟩, ?_⟩
    · rw [endsFirst, add_zero]
      rfl
    · rw [endsFirst, add_zero]
      rfl
    · rw [endsSecond]
      exact ⟨rfl, rfl⟩
  have start := @Output.start within
    (Through (KeptFrom within 0 0 first) (KeptFrom within 0 0 second)) isWithin fun inGap =>
      ⟨0, keptFrom_zero isWithin first inGap, keptFrom_zero isWithin second inGap⟩
  obtain ⟨x, y, z, output, good, ⟨more, isX, isY, last⟩, more', isY', isZ⟩ :=
    combineLoop_spec isWithin reads start
  refine ⟨output.sorted, fun old new kept => output.finish isWithin good kept, ?_⟩
  intro length inFirst inSecond
  -- the loop ends at a place of the document
  have inside : x ≤ length := by
    have toLength := Extent.add_sub_of_le inFirst
    rw [isX, ← toLength, Extent.add_le_add_iff_left]
    rcases last with rfl | atEnd
    · exact Extent.zero_le _
    · rw [← atEnd, isY, newTotal, Extent.add_le_add_iff_left] at inSecond
      exact inSecond
  obtain ⟨rest, rfl⟩ := Extent.le_iff_exists_add.mp inside
  refine ⟨output.upTo.trans (Extent.le_add _ _), ?_⟩
  have toX := Extent.add_sub_of_le output.upTo
  have throughFirst : newTotal first (x + rest) = y + rest := by
    rw [isY, add_assoc]
    apply newTotal_of_eq
    rw [isX, add_assoc]
  have throughSecond : newTotal second (y + rest) = z + rest := by
    rw [isZ, add_assoc]
    apply newTotal_of_eq
    rw [isY', add_assoc]
  rw [throughFirst, throughSecond, output.target, add_assoc]
  apply newTotal_of_eq
  rw [← add_assoc, toX]

theorem combineTextEditInfos_combines (isWithin : IsWithin within) (sortedFirst : Sorted first)
    (sortedSecond : Sorted second) :
    Combines within first second (combineTextEditInfos first second) := by
  have identity : ∀ place, KeptFrom within 0 0 [] place place :=
    fun place => ⟨place, (zero_add place).symm, (zero_add place).symm⟩
  rw [combineTextEditInfos]
  by_cases noFirst : first.length = 0
  · rw [if_pos noFirst]
    rw [length_eq_zero_iff] at noFirst
    subst noFirst
    refine ⟨sortedSecond, fun old new kept => ⟨old, identity old, kept⟩, ?_⟩
    intro length _ inSecond
    rw [newTotal_nil] at inSecond ⊢
    exact ⟨inSecond, rfl⟩
  · rw [if_neg noFirst]
    by_cases noSecond : second.length = 0
    · rw [if_pos noSecond]
      rw [length_eq_zero_iff] at noSecond
      subst noSecond
      refine ⟨sortedFirst, fun old new kept => ⟨new, kept, identity new⟩, ?_⟩
      intro length inFirst _
      exact ⟨inFirst, (newTotal_nil _).symm⟩
    · rw [if_neg noSecond]
      exact combineLoop_combines isWithin sortedFirst sortedSecond

end Combined

/-- The combined edits are sorted, and every place outside of them goes where the first and then
the second edits take it; of what they keep, these make nothing else. They take the
document to the length to which the two lists take it. -/
theorem combineTextEditInfos_composes (first second : List TextEditInfo) (length0 : Length)
    (sortedFirst : Sorted first) (inFirst : (endsFrom 0 0 first).1 ≤ length0)
    (sortedSecond : Sorted second)
    (inSecond : (endsFrom 0 0 second).1 ≤ newTotal first length0) :
    let combined := combineTextEditInfos first second
    Sorted combined ∧ (endsFrom 0 0 combined).1 ≤ length0 ∧
      (∀ old, (∀ e ∈ combined, ¬(e.startOffset < old ∧ old < e.endOffset)) →
        ∃ new, Kept combined old new) ∧
      (∀ old new, Kept combined old new → Through (Kept first) (Kept second) old new) ∧
      (∀ old new, Keeps combined old new →
        ∀ other, Through (Keeps first) (Keeps second) old other ↔ other = new) ∧
      newTotal combined length0 = newTotal second (newTotal first length0) := by
  have closed := combineTextEditInfos_combines isWithin_le sortedFirst sortedSecond
  have half := combineTextEditInfos_combines isWithin_lt sortedFirst sortedSecond
  obtain ⟨inside, total⟩ := closed.total length0 inFirst inSecond
  refine ⟨closed.sorted, inside, ?_, closed.kept, ?_, total⟩
  · intro old outside
    exact exists_keptFrom closed.sorted (Extent.zero_le old) outside
  · intro old new keeps other
    obtain ⟨middle, first', second'⟩ := half.kept old new keeps
    constructor
    · rintro ⟨middle', otherFirst, otherSecond⟩
      rw [KeptFrom.unique sortedFirst otherFirst first'] at otherSecond
      exact KeptFrom.unique sortedSecond otherSecond second'
    · rintro rfl
      exact ⟨middle, first', second'⟩

/-- A deletion, and an insertion with a line break at its place and behind it. -/
theorem combineTextEditInfos_composes_sample :
    let first : List TextEditInfo := [⟨⟨0, 1⟩, ⟨0, 3⟩, ⟨0, 0⟩⟩]
    let second : List TextEditInfo := [⟨⟨0, 1⟩, ⟨0, 2⟩, ⟨1, 4⟩⟩]
    let combined := combineTextEditInfos first second
    Sorted combined ∧ (endsFrom 0 0 combined).1 ≤ ⟨0, 9⟩ ∧
      (∀ old, (∀ e ∈ combined, ¬(e.startOffset < old ∧ old < e.endOffset)) →
        ∃ new, Kept combined old new) ∧
      (∀ old new, Kept combined old new → Through (Kept first) (Kept second) old new) ∧
      (∀ old new, Keeps combined old new →
        ∀ other, Through (Keeps first) (Keeps second) old other ↔ other = new) ∧
      newTotal combined ⟨0, 9⟩ = newTotal second (newTotal first ⟨0, 9⟩) := by
  apply combineTextEditInfos_composes
  · simp [Sorted, SortedFrom, Extent.le_def]
  · simp [endsFrom, Extent.le_def]
  · simp [Sorted, SortedFrom, Extent.le_def]
  · decide

end CodeEditor.BracketPairs

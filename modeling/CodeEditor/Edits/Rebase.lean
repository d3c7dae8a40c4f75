import CodeEditor.Edits.Composition

/-!
# Rebasing offset edits

Model of `OffsetEdit.tryRebase` in `offsetEdit.ts` and of `OffsetRange.intersects`. The sweep
takes our edits and those of the base in the order of their starts; what it has to give is
what all edits do to the text at once.
-/

namespace CodeEditor.Edits

open List

def OffsetRange.intersects (range other : OffsetRange) : Bool :=
  max range.start other.start < min range.endExclusive other.endExclusive

/-- The loop of `tryRebase`. -/
def tryRebaseLoop : (baseEdits ourEdits : List SingleOffsetEdit) → (offset : Int) →
    Option (List SingleOffsetEdit)
  | _, [], _ => some [] -- We processed all our edits
  | [], ourEdit :: ourEdits, offset => do
      -- no more edits from base
      let range ← ourEdit.replaceRange.delta offset
      let newEdits ← tryRebaseLoop [] ourEdits offset
      some (⟨range, ourEdit.newText⟩ :: newEdits)
  | baseEdit :: baseEdits, ourEdit :: ourEdits, offset =>
    if ourEdit.replaceRange.intersects baseEdit.replaceRange then
      -- Don't take our edit, as it is conflicting -> skip
      tryRebaseLoop (baseEdit :: baseEdits) ourEdits offset
    else if ourEdit.replaceRange.start < baseEdit.replaceRange.start then do
      -- Our edit starts first
      let range ← ourEdit.replaceRange.delta offset
      let newEdits ← tryRebaseLoop (baseEdit :: baseEdits) ourEdits offset
      some (⟨range, ourEdit.newText⟩ :: newEdits)
    else tryRebaseLoop baseEdits (ourEdit :: ourEdits) (offset + baseEdit.growth)
termination_by baseEdits ourEdits => baseEdits.length + ourEdits.length

def OffsetEdit.tryRebase (ours base : OffsetEdit) : Option OffsetEdit := do
  OffsetEdit.new (← tryRebaseLoop base.edits ours.edits 0)

/-! ## What rebasing is for -/

/-- All edits of both lists made in the text at once, with the order of insertions at one
place left open. -/
def Simultaneous (base ours : OffsetEdit) (str result : Text) : Prop :=
  ∃ merged, Interleaves base.edits ours.edits merged ∧
    (asPatch merged).Pairwise Replacement.Before ∧ result = weave str 0 (asPatch merged)

/-- Rebasing does not throw, and our rebased edits make, after those of the base, what both
make at once. -/
def OffsetEdit.Merges (ours base : OffsetEdit) (str : Text) : Prop :=
  ∃ rebased, ours.tryRebase base = some rebased ∧
    Simultaneous base ours str (rebased.apply (base.apply str))

/-- The sweep gets along with our edit and a base edit that do not intersect: neither is an
insertion strictly inside the other range (unless the base inserts nothing), and ours is no
insertion at the start of a range whose length the base changes. -/
structure GetsAlong (ours base : SingleOffsetEdit) : Prop where
  notInside : ¬(ours.replaceRange.start = ours.replaceRange.endExclusive ∧
    base.replaceRange.start < ours.replaceRange.start ∧
    ours.replaceRange.start < base.replaceRange.endExclusive)
  notAround : base.replaceRange.start = base.replaceRange.endExclusive →
    ours.replaceRange.start < base.replaceRange.start →
    base.replaceRange.start < ours.replaceRange.endExclusive → base.newText = []
  notAtStart : ours.replaceRange.start = ours.replaceRange.endExclusive →
    ours.replaceRange.start = base.replaceRange.start →
    base.replaceRange.start < base.replaceRange.endExclusive → base.growth = 0

/-- The condition on two edits. -/
def OffsetEdit.GetsAlong (ours base : OffsetEdit) : Prop :=
  ∀ o ∈ ours.edits, ∀ b ∈ base.edits, Edits.GetsAlong o b

/-! ## The sweep -/

variable {o b : SingleOffsetEdit} {baseEdits ourEdits : List SingleOffsetEdit}
variable {rest : Text} {position offset : Int}

theorem delta_eq (range : OffsetRange) (offset : Int) :
    range.delta offset = some ⟨range.start + offset, range.endExclusive + offset,
      Int.add_le_add_right range.ordered offset⟩ :=
  OffsetRange.new_eq _

/-- Our edit, moved. -/
def SingleOffsetEdit.shift (edit : SingleOffsetEdit) (offset : Int) : SingleOffsetEdit :=
  ⟨⟨edit.replaceRange.start + offset, edit.replaceRange.endExclusive + offset,
    Int.add_le_add_right edit.replaceRange.ordered offset⟩, edit.newText⟩

theorem tryRebaseLoop_ours (apart : o.replaceRange.intersects b.replaceRange = false)
    (first : o.replaceRange.start < b.replaceRange.start) :
    tryRebaseLoop (b :: baseEdits) (o :: ourEdits) offset =
      (tryRebaseLoop (b :: baseEdits) ourEdits offset).map (o.shift offset :: ·) := by
  rw [tryRebaseLoop, apart, if_neg (by simp), if_pos first, delta_eq]
  cases tryRebaseLoop (b :: baseEdits) ourEdits offset <;> rfl

theorem tryRebaseLoop_last : tryRebaseLoop [] (o :: ourEdits) offset =
      (tryRebaseLoop [] ourEdits offset).map (o.shift offset :: ·) := by
  rw [tryRebaseLoop, delta_eq]
  cases tryRebaseLoop [] ourEdits offset <;> rfl

theorem tryRebaseLoop_base (apart : o.replaceRange.intersects b.replaceRange = false)
    (notFirst : ¬o.replaceRange.start < b.replaceRange.start) :
    tryRebaseLoop (b :: baseEdits) (o :: ourEdits) offset =
      tryRebaseLoop baseEdits (o :: ourEdits) (offset + b.growth) := by
  rw [tryRebaseLoop, apart, if_neg (by simp), if_neg notFirst]

/-- What is left of both lists, in the rest of the text from a position on. Base edits in
front of the position do nothing. -/
structure Sweep (baseEdits ourEdits : List SingleOffsetEdit) (rest : Text) (position : Int) :
    Prop where
  ours : Within (position + rest.length) position (asPatch ourEdits)
  base : ∃ start, Within (position + rest.length) start (asPatch baseEdits)
  clear : ∀ b ∈ baseEdits, position ≤ b.replaceRange.start ∨ b.replacement.Idle
  apart : ∀ o ∈ ourEdits, ∀ b ∈ baseEdits,
    o.replaceRange.intersects b.replaceRange = false ∧ GetsAlong o b

/-- The rebased edits, made in what the base makes of the rest. -/
structure Rebased (baseEdits ourEdits : List SingleOffsetEdit) (rest : Text)
    (position offset : Int) (newEdits merged : List SingleOffsetEdit) : Prop where
  runs : tryRebaseLoop baseEdits ourEdits offset = some newEdits
  interleaves : Interleaves baseEdits ourEdits merged
  ordered : (asPatch merged).Pairwise Replacement.Before
  within : Within (position + offset + (weave rest position (asPatch baseEdits)).length)
    (position + offset) (asPatch newEdits)
  same : patch (weave rest position (asPatch baseEdits)) (position + offset)
    (asPatch newEdits) = weave rest position (asPatch merged)

theorem pairwise_before {edits : List (Replacement CodeUnit)} {last : Int}
    (within : Within last position edits) : edits.Pairwise Replacement.Before := by
  induction edits generalizing position with
  | nil => exact List.Pairwise.nil
  | cons e edits ih =>
    have ⟨start, ordered, later⟩ := within
    refine List.Pairwise.cons (fun other isMember => ?_) (ih later)
    have := (later.bounds_of_mem isMember).1
    unfold Replacement.Before
    omega

theorem mem_asPatch {e : Replacement CodeUnit} :
    e ∈ asPatch edits ↔ ∃ edit ∈ edits, edit.replacement = e := mem_map

/-- When our edits are used up, the base edits are left. -/
theorem rebased_nil (sweep : Sweep baseEdits [] rest position) :
    Rebased baseEdits [] rest position offset [] baseEdits where
  runs := by cases baseEdits <;> rw [tryRebaseLoop]
  interleaves := Interleaves.nil_right _
  ordered := by
    obtain ⟨start, within⟩ := sweep.base
    exact pairwise_before within
  within := by
    rw [asPatch_nil, Within]
    omega
  same := rfl

/-- Our edit is pushed, where it has to be made first. -/
theorem Rebased.push {newEdits merged : List SingleOffsetEdit}
    (sweep : Sweep baseEdits (o :: ourEdits) rest position)
    (runs : tryRebaseLoop baseEdits (o :: ourEdits) offset =
      (tryRebaseLoop baseEdits ourEdits offset).map (o.shift offset :: ·))
    (first : ∀ b ∈ baseEdits, o.replacement.Before b.replacement)
    (clear : ∀ b ∈ baseEdits, o.replaceRange.endExclusive ≤ b.replaceRange.start ∨
      b.replacement.Idle)
    (rebased : Rebased baseEdits ourEdits
      (rest.drop (o.replaceRange.endExclusive - position).toNat) o.replaceRange.endExclusive
      offset newEdits merged) :
    Rebased baseEdits (o :: ourEdits) rest position offset (o.shift offset :: newEdits)
      (o :: merged) := by
  have ⟨start, ordered, later⟩ := sweep.ours
  simp only [replacement_start, replacement_stop] at start ordered later
  have inside := later.le
  have baseOrdered : ∀ e ∈ asPatch baseEdits, e.start ≤ e.stop := by
    obtain ⟨_, within⟩ := sweep.base
    exact fun e isMember => (within.bounds_of_mem isMember).2.1
  generalize toEnd : (o.replaceRange.endExclusive - position).toNat = count at rebased
  have split := @weave_drop _ rest position (asPatch baseEdits) count (by omega) (by
      intro e isMember
      obtain ⟨b, isMember', rfl⟩ := mem_asPatch.mp isMember
      refine (clear b isMember').imp_left fun behind => ⟨?_, baseOrdered _ isMember⟩
      rw [replacement_start]
      omega)
  have atEnd : position + (count : Int) = o.replaceRange.endExclusive := by omega
  rw [atEnd] at split
  have long : count ≤ rest.length := by omega
  have lengths : ((weave rest position (asPatch baseEdits)).length : Int) =
      count + (weave (rest.drop count) o.replaceRange.endExclusive (asPatch baseEdits)).length := by
    rw [split, length_append, length_take, min_eq_left long]
    omega
  refine ⟨by rw [runs, rebased.runs]; rfl, rebased.interleaves.right, ?_, ?_, ?_⟩
  · refine List.Pairwise.cons (fun e isMember => ?_) rebased.ordered
    obtain ⟨edit, isMember', rfl⟩ := mem_asPatch.mp isMember
    rcases rebased.interleaves.mem_iff.mp isMember' with isBase | isOurs
    · exact first edit isBase
    · have own := pairwise_before sweep.ours
      rw [asPatch_cons, pairwise_cons] at own
      exact own.1 _ (mem_asPatch.mpr ⟨edit, isOurs, rfl⟩)
  · refine ⟨?_, ?_, ?_⟩
    · simp only [replacement_start, SingleOffsetEdit.shift]
      omega
    · simp only [replacement_start, replacement_stop, SingleOffsetEdit.shift]
      omega
    · have sameLast : position + offset + (weave rest position (asPatch baseEdits)).length =
          o.replaceRange.endExclusive + offset + (weave (rest.drop count)
            o.replaceRange.endExclusive (asPatch baseEdits)).length := by omega
      rw [sameLast]
      exact rebased.within
  · have toStart : ((o.shift offset).replacement.start - (position + offset)).toNat ≤ count := by
      simp only [replacement_start, SingleOffsetEdit.shift]
      omega
    have toStop : ((o.shift offset).replacement.stop - (position + offset)).toNat = count := by
      simp only [replacement_stop, SingleOffsetEdit.shift]
      omega
    have sameStart : ((o.shift offset).replacement.start - (position + offset)).toNat =
        (o.replacement.start - position).toNat := by
      simp only [replacement_start, SingleOffsetEdit.shift]
      omega
    have atStop : (o.shift offset).replacement.stop = o.replaceRange.endExclusive + offset := rfl
    have drops : (weave rest position (asPatch baseEdits)).drop count =
        weave (rest.drop count) o.replaceRange.endExclusive (asPatch baseEdits) := by
      rw [split, drop_append_of_le_length (by rw [length_take]; omega),
        drop_eq_nil_of_le (by rw [length_take]; omega), nil_append]
    rw [asPatch_cons, patch_cons, toStop, drops, atStop, rebased.same, asPatch_cons, weave_cons]
    have takes : (weave rest position (asPatch baseEdits)).take
        ((o.shift offset).replacement.start - (position + offset)).toNat =
        rest.take (o.replacement.start - position).toNat := by
      rw [split, take_append_of_le_length (by rw [length_take]; omega), sameStart,
        take_take, min_eq_left (by omega)]
    rw [takes, replacement_stop, toEnd, max_eq_right (by omega)]
    rfl

/-- A base edit is passed, where it has to be made first. -/
theorem Rebased.pass (sweep : Sweep (b :: baseEdits) (o :: ourEdits) rest position)
    (runs : tryRebaseLoop (b :: baseEdits) (o :: ourEdits) offset =
      tryRebaseLoop baseEdits (o :: ourEdits) (offset + b.growth))
    (first : b.replacement.Before o.replacement)
    (rebased : Rebased baseEdits (o :: ourEdits)
      (rest.drop (b.replaceRange.endExclusive - position).toNat)
      (max position b.replaceRange.endExclusive) (offset + b.growth) newEdits merged) :
    Rebased (b :: baseEdits) (o :: ourEdits) rest position offset newEdits (b :: merged) := by
  obtain ⟨_, within⟩ := sweep.base
  have inside := within.2.2.le
  simp only [replacement_stop] at inside
  have ordered := b.replaceRange.ordered
  -- What the base edit and the text in front of it become.
  have moved : position + offset +
      (rest.take (b.replaceRange.start - position).toNat ++ b.newText).length =
        max position b.replaceRange.endExclusive + (offset + b.growth) := by
    rw [length_append, length_take, SingleOffsetEdit.growth_eq]
    rcases sweep.clear b mem_cons_self with behind | ⟨single, noText⟩
    · omega
    · simp only [replacement_start, replacement_stop, replacement_text] at single noText
      omega
  have becomes : weave rest position (asPatch (b :: baseEdits)) =
      (rest.take (b.replaceRange.start - position).toNat ++ b.newText) ++
        weave (rest.drop (b.replaceRange.endExclusive - position).toNat)
          (max position b.replaceRange.endExclusive) (asPatch baseEdits) := by
    rw [asPatch_cons, weave_cons, append_assoc]
    rfl
  have within' := rebased.within
  rw [← moved] at within'
  refine ⟨by rw [runs, rebased.runs], rebased.interleaves.left, ?_, ?_, ?_⟩
  · refine List.Pairwise.cons (fun e isMember => ?_) rebased.ordered
    obtain ⟨edit, isMember', rfl⟩ := mem_asPatch.mp isMember
    rcases rebased.interleaves.mem_iff.mp isMember' with isBase | isOurs
    · have own := pairwise_before within
      rw [asPatch_cons, pairwise_cons] at own
      exact own.1 _ (mem_asPatch.mpr ⟨edit, isBase, rfl⟩)
    · have own := pairwise_before sweep.ours
      rw [asPatch_cons, pairwise_cons] at own
      rcases mem_cons.mp isOurs with rfl | isOurs
      · exact first
      · have later := own.1 _ (mem_asPatch.mpr ⟨edit, isOurs, rfl⟩)
        unfold Replacement.Before at *
        simp only [replacement_start, replacement_stop] at *
        omega
  · rw [becomes, length_append, Int.natCast_add, ← Int.add_assoc]
    exact within'.of_le (by omega)
  · rw [becomes, patch_append within', moved, rebased.same, asPatch_cons, weave_cons, append_assoc]
    rfl

/-- An insertion of ours at the start of a base range that keeps its length: the sweep passes
the base edit first, to no effect. -/
theorem tryRebaseLoop_atStart (sweep : Sweep (b :: baseEdits) (o :: ourEdits) rest position)
    (single : o.replaceRange.start = o.replaceRange.endExclusive)
    (atStart : o.replaceRange.start = b.replaceRange.start)
    (proper : b.replaceRange.start < b.replaceRange.endExclusive) :
    tryRebaseLoop (b :: baseEdits) (o :: ourEdits) offset =
      (tryRebaseLoop (b :: baseEdits) ourEdits offset).map (o.shift offset :: ·) := by
  have ⟨apart, along⟩ := sweep.apart o mem_cons_self b mem_cons_self
  have keeps := along.notAtStart single atStart proper
  obtain ⟨_, within⟩ := sweep.base
  have ours := sweep.ours
  have passed : tryRebaseLoop baseEdits (o :: ourEdits) offset =
      (tryRebaseLoop baseEdits ourEdits offset).map (o.shift offset :: ·) := by
    cases baseEdits with
    | nil => exact tryRebaseLoop_last
    | cons next baseEdits =>
      have behind := within.2.2.1
      simp only [replacement_start, replacement_stop] at behind
      exact tryRebaseLoop_ours (sweep.apart o mem_cons_self next (by simp)).1 (by omega)
  have skipped : tryRebaseLoop (b :: baseEdits) ourEdits offset =
      tryRebaseLoop baseEdits ourEdits offset := by
    cases ourEdits with
    | nil => cases baseEdits <;> rw [tryRebaseLoop, tryRebaseLoop]
    | cons next ourEdits =>
      have behind := ours.2.2.1
      simp only [replacement_start, replacement_stop] at behind
      rw [tryRebaseLoop_base (sweep.apart next (by simp) b mem_cons_self).1 (by omega),
        keeps, Int.add_zero]
  rw [tryRebaseLoop_base apart (by omega), keeps, Int.add_zero, passed, skipped]

/-- Behind our first edit. -/
theorem Sweep.ours_tail (sweep : Sweep baseEdits (o :: ourEdits) rest position)
    (clear : ∀ b ∈ baseEdits, o.replaceRange.endExclusive ≤ b.replaceRange.start ∨
      b.replacement.Idle) :
    Sweep baseEdits ourEdits (rest.drop (o.replaceRange.endExclusive - position).toNat)
      o.replaceRange.endExclusive := by
  have ⟨start, ordered, later⟩ := sweep.ours
  have inside := later.le
  simp only [replacement_start, replacement_stop] at start ordered later inside
  have last : o.replaceRange.endExclusive +
      ((rest.drop (o.replaceRange.endExclusive - position).toNat).length : Int) =
        position + rest.length := by
    rw [length_drop]
    omega
  exact ⟨by rwa [last], by rw [last]; exact sweep.base, clear,
    fun o' isMember b isMember' => sweep.apart o' (mem_cons_of_mem _ isMember) b isMember'⟩

/-- Behind the first base edit. -/
theorem Sweep.base_tail (sweep : Sweep (b :: baseEdits) ourEdits rest position)
    (behind : ∀ o ∈ ourEdits, b.replaceRange.endExclusive ≤ o.replaceRange.start) :
    Sweep baseEdits ourEdits (rest.drop (b.replaceRange.endExclusive - position).toNat)
      (max position b.replaceRange.endExclusive) := by
  obtain ⟨_, within⟩ := sweep.base
  have later := within.2.2
  have inside := later.le
  simp only [replacement_stop] at later inside
  have last : max position b.replaceRange.endExclusive +
      ((rest.drop (b.replaceRange.endExclusive - position).toNat).length : Int) =
        position + rest.length := by
    rw [length_drop]
    omega
  refine ⟨?_, ⟨_, by rw [last]; exact later⟩, ?_, ?_⟩
  · rw [last]
    refine sweep.ours.of_starts (by omega) fun e isMember => ?_
    obtain ⟨edit, isMember', rfl⟩ := mem_asPatch.mp isMember
    have := (sweep.ours.bounds_of_mem isMember).1
    have := behind edit isMember'
    simp only [replacement_start] at *
    omega
  · intro b' isMember
    refine (sweep.clear b' (mem_cons_of_mem _ isMember)).imp_left fun start => ?_
    have := (later.bounds_of_mem (mem_asPatch.mpr ⟨b', isMember, rfl⟩)).1
    simp only [replacement_start] at this
    omega
  · exact fun o isMember b' isMember' =>
      sweep.apart o isMember b' (mem_cons_of_mem _ isMember')

theorem intersects_eq_false {range other : OffsetRange} : range.intersects other = false ↔
      min range.endExclusive other.endExclusive ≤ max range.start other.start := by
  rw [OffsetRange.intersects, decide_eq_false_iff_not, not_lt]

/-- The whole sweep. -/
theorem exists_rebased (sweep : Sweep baseEdits ourEdits rest position) (offset : Int) :
    ∃ newEdits merged, Rebased baseEdits ourEdits rest position offset newEdits merged := by
  generalize size : baseEdits.length + ourEdits.length = n
  induction n using Nat.strong_induction_on generalizing baseEdits ourEdits rest position offset
  next n ih =>
    cases ourEdits with
    | nil => exact ⟨_, _, rebased_nil sweep⟩
    | cons o ourEdits =>
      cases baseEdits with
      | nil =>
        have ⟨newEdits, merged, rebased⟩ := ih _ (by simp at size ⊢; omega)
          (sweep.ours_tail (by simp)) offset rfl
        exact ⟨_, _, rebased.push sweep tryRebaseLoop_last (by simp) (by simp)⟩
      | cons b baseEdits =>
        have ⟨apart, along⟩ := sweep.apart o mem_cons_self b mem_cons_self
        have ours := sweep.ours
        obtain ⟨_, within⟩ := sweep.base
        have behindBase : ∀ b' ∈ baseEdits,
            b.replaceRange.endExclusive ≤ b'.replaceRange.start := fun b' isMember =>
          (within.2.2.bounds_of_mem (mem_asPatch.mpr ⟨b', isMember, rfl⟩)).1
        have behindOurs : ∀ o' ∈ ourEdits,
            o.replaceRange.endExclusive ≤ o'.replaceRange.start := fun o' isMember =>
          (ours.2.2.bounds_of_mem (mem_asPatch.mpr ⟨o', isMember, rfl⟩)).1
        have orderedOurs := o.replaceRange.ordered
        have orderedBase := b.replaceRange.ordered
        by_cases starts : o.replaceRange.start < b.replaceRange.start
        · -- Our edit starts first, and ends before what the base does.
          have clear : ∀ b' ∈ b :: baseEdits, o.replaceRange.endExclusive ≤ b'.replaceRange.start ∨
                b'.replacement.Idle := by
            intro b' isMember
            have ⟨apart', along'⟩ := sweep.apart o mem_cons_self b' isMember
            have later : b.replaceRange.start ≤ b'.replaceRange.start := by
              rcases mem_cons.mp isMember with rfl | isMember
              · exact le_rfl
              · exact orderedBase.trans (behindBase b' isMember)
            have ordered' := b'.replaceRange.ordered
            rw [intersects_eq_false] at apart'
            by_cases before : o.replaceRange.endExclusive ≤ b'.replaceRange.start
            · exact Or.inl before
            · have single : b'.replaceRange.start = b'.replaceRange.endExclusive := by omega
              exact Or.inr ⟨single, along'.notAround single (by omega) (by omega)⟩
          have first : ∀ b' ∈ b :: baseEdits, o.replacement.Before b'.replacement := by
            intro b' isMember
            refine Or.inl ?_
            simp only [replacement_start]
            rcases mem_cons.mp isMember with rfl | isMember
            · exact starts
            · have := behindBase b' isMember
              omega
          have ⟨newEdits, merged, rebased⟩ := ih _ (by simp only [length_cons] at size ⊢; omega)
            (sweep.ours_tail clear) offset rfl
          exact ⟨_, _, rebased.push sweep (tryRebaseLoop_ours apart starts) first clear⟩
        · rw [intersects_eq_false] at apart
          by_cases behind : b.replaceRange.endExclusive ≤ o.replaceRange.start
          · -- The base edit comes first as a whole.
            have ⟨newEdits, merged, rebased⟩ := ih _ (by simp only [length_cons] at size ⊢; omega)
              (sweep.base_tail fun o' isMember => by
                rcases mem_cons.mp isMember with rfl | isMember
                · exact behind
                · exact behind.trans (orderedOurs.trans (behindOurs o' isMember)))
              (offset + b.growth) rfl
            refine ⟨_, _, rebased.pass sweep
              (tryRebaseLoop_base (intersects_eq_false.mpr apart) starts) ?_⟩
            unfold Replacement.Before
            simp only [replacement_start, replacement_stop]
            omega
          · -- Our insertion is at the start of the base range.
            have single : o.replaceRange.start = o.replaceRange.endExclusive := by omega
            have notInside := along.notInside
            have atStart : o.replaceRange.start = b.replaceRange.start := by omega
            have clear : ∀ b' ∈ b :: baseEdits,
                o.replaceRange.endExclusive ≤ b'.replaceRange.start ∨ b'.replacement.Idle := by
              intro b' isMember
              refine Or.inl ?_
              rcases mem_cons.mp isMember with rfl | isMember
              · omega
              · have := behindBase b' isMember
                omega
            have ⟨newEdits, merged, rebased⟩ := ih _ (by simp only [length_cons] at size ⊢; omega)
              (sweep.ours_tail clear) offset rfl
            refine ⟨_, _, rebased.push sweep
              (tryRebaseLoop_atStart sweep single atStart (by omega)) ?_ clear⟩
            intro b' isMember
            unfold Replacement.Before
            simp only [replacement_start, replacement_stop]
            rcases mem_cons.mp isMember with rfl | isMember
            · omega
            · have := behindBase b' isMember
              omega

/-! ## Rebasing merges -/

/-- Rebasing edits that do not intersect and get along merges them. -/
theorem OffsetEdit.tryRebase_merges (str : Text) (base ours : OffsetEdit)
    (baseValid : base.ValidOn str) (oursValid : ours.ValidOn str)
    (apart : ∀ o ∈ ours.edits, ∀ b ∈ base.edits,
      o.replaceRange.intersects b.replaceRange = false)
    (along : ours.GetsAlong base) : ours.Merges base str := by
  have withinBase := baseValid.within
  have sweep : Sweep base.edits ours.edits str 0 :=
    ⟨by simpa using oursValid.within, ⟨0, by simpa using withinBase⟩,
      fun b isMember => Or.inl (baseValid b isMember).1,
      fun o isMember b isMember' => ⟨apart o isMember b isMember', along o isMember b isMember'⟩⟩
  have ⟨newEdits, merged, rebased⟩ := exists_rebased sweep 0
  have within := rebased.within
  have same := rebased.same
  rw [weave_eq_patch withinBase, ← OffsetEdit.apply_eq withinBase, Int.zero_add] at within same
  rw [Int.zero_add] at within
  obtain ⟨e, isNew, rfl⟩ := OffsetEdit.new_of_within within
  refine ⟨e, by rw [OffsetEdit.tryRebase, rebased.runs]; exact isNew, merged,
    rebased.interleaves, rebased.ordered, ?_⟩
  rw [OffsetEdit.apply_eq within, same]

/-- `abcdef`, of which the base replaces `bc` by `x`; ours inserts `y` in front of `e` and
deletes `f`. -/
theorem tryRebase_merges_sample :
    let str : Text := [97, 98, 99, 100, 101, 102]
    let base : OffsetEdit := ⟨[⟨⟨1, 3, by decide⟩, [120]⟩], by decide⟩
    let ours : OffsetEdit := ⟨[⟨⟨4, 4, by decide⟩, [121]⟩, ⟨⟨5, 6, by decide⟩, []⟩], by decide⟩
    ours.Merges base str := by
  refine OffsetEdit.tryRebase_merges [97, 98, 99, 100, 101, 102]
    ⟨[⟨⟨1, 3, by decide⟩, [120]⟩], by decide⟩
    ⟨[⟨⟨4, 4, by decide⟩, [121]⟩, ⟨⟨5, 6, by decide⟩, []⟩], by decide⟩
    (by unfold OffsetEdit.ValidOn; decide) (by unfold OffsetEdit.ValidOn; decide) (by decide) ?_
  intro o isOurs b isBase
  simp only [mem_cons, not_mem_nil, or_false] at isOurs isBase
  rcases isOurs with rfl | rfl <;> rcases isBase with rfl <;> constructor <;> decide

/-- The base deletes `cd` of `abcd`, and we insert `x` in front of it: rebased, the insertion
goes to the front of the text. -/
theorem tryRebase_misplaces :
    ¬∀ (str : Text) (base ours : OffsetEdit), base.ValidOn str → ours.ValidOn str →
      (∀ o ∈ ours.edits, ∀ b ∈ base.edits,
        o.replaceRange.intersects b.replaceRange = false) → ours.Merges base str := by
  intro claim
  let deletion : SingleOffsetEdit := ⟨⟨2, 4, by decide⟩, []⟩
  let insertion : SingleOffsetEdit := ⟨⟨2, 2, by decide⟩, [120]⟩
  obtain ⟨rebased, runs, merged, interleaves, ordered, same⟩ :=
    claim [97, 98, 99, 100] ⟨[deletion], by decide⟩ ⟨[insertion], by decide⟩
      (by unfold OffsetEdit.ValidOn; decide) (by unfold OffsetEdit.ValidOn; decide) (by decide)
  have loop : tryRebaseLoop [deletion] [insertion] 0 = some [insertion.shift (-2)] := by
    rw [tryRebaseLoop_base (by decide) (by decide), tryRebaseLoop_last, tryRebaseLoop]
    rfl
  have isRebased : rebased = ⟨[insertion.shift (-2)], by decide⟩ := by
    rw [OffsetEdit.tryRebase, loop] at runs
    exact (Option.some.inj runs).symm
  rw [isRebased] at same
  cases interleaves with
  | left interleaves =>
    -- The insertion cannot come after the deletion that starts with it.
    cases interleaves with
    | right interleaves =>
      cases interleaves
      have := (pairwise_cons.mp ordered).1 insertion.replacement (by simp)
      unfold Replacement.Before at this
      exact absurd this (by decide)
  | right interleaves =>
    cases interleaves with
    | left interleaves =>
      cases interleaves
      exact absurd same (by decide)

end CodeEditor.Edits

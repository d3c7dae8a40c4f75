import CodeEditor.Edits.OffsetEdit

/-!
# Composing offset edits

An offset edit is a patch of its text. Joining two edits walks through the second edit
with a queue of first edits; at every point the rest of the queue, made in the rest of
the original text, gives the rest of the text that the second edit is made in.
-/

namespace CodeEditor.Edits

open List Option Int

def SingleOffsetEdit.replacement (edit : SingleOffsetEdit) : Replacement CodeUnit where
  start := edit.replaceRange.start
  stop := edit.replaceRange.endExclusive
  text := edit.newText

/-- The edits as replacements. -/
def asPatch (edits : List SingleOffsetEdit) : List (Replacement CodeUnit) :=
  edits.map (·.replacement)

@[simp] theorem asPatch_nil : asPatch [] = [] := rfl

@[simp] theorem asPatch_cons (edit : SingleOffsetEdit) (edits : List SingleOffsetEdit) :
    asPatch (edit :: edits) = edit.replacement :: asPatch edits := rfl

@[simp] theorem asPatch_append (first second : List SingleOffsetEdit) :
    asPatch (first ++ second) = asPatch first ++ asPatch second := map_append

@[simp] theorem replacement_start (edit : SingleOffsetEdit) :
    edit.replacement.start = edit.replaceRange.start := rfl

@[simp] theorem replacement_stop (edit : SingleOffsetEdit) :
    edit.replacement.stop = edit.replaceRange.endExclusive := rfl

@[simp] theorem replacement_text (edit : SingleOffsetEdit) :
    edit.replacement.text = edit.newText := rfl

theorem SingleOffsetEdit.growth_eq (edit : SingleOffsetEdit) :
    edit.growth = edit.newText.length -
      (edit.replaceRange.endExclusive - edit.replaceRange.start) := rfl

variable {start endExclusive : Int}

theorem OffsetRange.new_eq (ordered : start ≤ endExclusive) :
    OffsetRange.new start endExclusive = some ⟨start, endExclusive, ordered⟩ :=
  dif_pos ordered

theorem OffsetRange.exists_new (ordered : start ≤ endExclusive) :
    ∃ range, OffsetRange.new start endExclusive = some range ∧ range.start = start ∧
      range.endExclusive = endExclusive :=
  ⟨_, OffsetRange.new_eq ordered, rfl, rfl⟩

/-! ## Applying -/

/-- All ranges of the edit are ranges of the text. -/
def OffsetEdit.ValidOn (e : OffsetEdit) (str : Text) : Prop :=
  ∀ edit ∈ e.edits, 0 ≤ edit.replaceRange.start ∧ edit.replaceRange.endExclusive ≤ str.length

theorem within_of_sorted {position last : Int} (sorted : Sorted position edits)
    (bounds : ∀ edit ∈ edits, edit.replaceRange.endExclusive ≤ last) (le : position ≤ last) :
    Within last position (asPatch edits) := by
  induction edits generalizing position with
  | nil => exact le
  | cons edit edits ih =>
    refine ⟨sorted.1, edit.replaceRange.ordered, ?_⟩
    apply ih sorted.2
    · intro other member
      exact bounds other (mem_cons_of_mem _ member)
    · exact bounds edit mem_cons_self

variable {e : OffsetEdit}

theorem OffsetEdit.ValidOn.within (valid : e.ValidOn str) :
    Within str.length 0 (asPatch e.edits) := by
  have sorted : Sorted 0 e.edits := by
    have sorted := e.sorted
    unfold OffsetEdit.ValidOn at valid
    cases edits : e.edits with
    | nil => trivial
    | cons edit rest =>
      rw [edits] at sorted valid
      exact ⟨(valid edit mem_cons_self).1, sorted.2⟩
  exact within_of_sorted sorted (fun edit member => (valid edit member).2) (by omega)

theorem sorted_of_within {last position lastEndEx : Int}
    (within : Within last position (asPatch edits)) (le : lastEndEx ≤ position) :
    Sorted lastEndEx edits := by
  induction edits generalizing position lastEndEx with
  | nil => trivial
  | cons edit edits ih =>
    exact ⟨le_trans le within.1, ih within.2.2 (le_refl _)⟩

theorem OffsetEdit.new_of_within {edits : List SingleOffsetEdit} {last : Int}
    (within : Within last 0 (asPatch edits)) :
    ∃ e, OffsetEdit.new edits = some e ∧ e.edits = edits :=
  ⟨⟨edits, sorted_of_within within (by omega)⟩, dif_pos _, rfl⟩

theorem substringBetween_eq {start stop : Int} (nonneg : 0 ≤ start) (ordered : start ≤ stop) :
    substringBetween str start stop = (str.drop start.toNat).take (stop - start).toNat := by
  rw [substringBetween, substring_of_le _ (by omega), drop_take]
  congr 1
  omega

variable {str : Text}

/-- What `apply` adds to the text so far. -/
theorem applyLoop_eq {pos : Int} (nonneg : 0 ≤ pos)
    (within : Within str.length pos (asPatch edits)) (resultText : Text) :
    OffsetEdit.applyLoop str edits resultText pos =
      resultText ++ patch (str.drop pos.toNat) pos (asPatch edits) := by
  induction edits generalizing resultText pos with
  | nil =>
    have bounded : pos ≤ str.length := within
    rw [OffsetEdit.applyLoop, substringBetween_eq nonneg bounded, asPatch_nil, patch_nil,
      take_of_length_le]
    rw [length_drop]
    omega
  | cons edit edits ih =>
    obtain ⟨start, ordered, later⟩ := within
    simp only [replacement_start, replacement_stop] at start ordered later
    rw [OffsetEdit.applyLoop, ih (by omega) later,
      substringBetween_eq nonneg start, asPatch_cons, patch_cons, drop_drop]
    have toStop : pos.toNat + (edit.replaceRange.endExclusive - pos).toNat =
        edit.replaceRange.endExclusive.toNat := by omega
    simp [toStop]

theorem OffsetEdit.apply_eq (within : Within str.length 0 (asPatch e.edits)) :
    e.apply str = patch str 0 (asPatch e.edits) :=
  applyLoop_eq (le_refl 0) within []

/-! ## Normalizing -/

theorem OffsetRange.join_eq {first second : OffsetRange}
    (touch : first.endExclusive = second.start) :
    first.join second = some ⟨first.start, second.endExclusive,
      le_trans first.ordered (touch ▸ second.ordered)⟩ := by
  have left := first.ordered
  have right := second.ordered
  have start : min first.start second.start = first.start := by omega
  have stop : max first.endExclusive second.endExclusive = second.endExclusive := by omega
  rw [OffsetRange.join, start, stop, OffsetRange.new_eq]

/-- The loop of `normalize` never throws, and what it builds can take the place of the
edits that it has seen. -/
theorem normalizeLoop_spec (rest edits : List SingleOffsetEdit)
    (lastEdit : Option SingleOffsetEdit) :
    ∃ normalized, OffsetEdit.normalizeLoop rest edits lastEdit = some normalized ∧
      Interchangeable (asPatch (edits ++ (lastEdit.toList ++ rest))) (asPatch normalized) := by
  induction rest generalizing edits lastEdit with
  | nil =>
    cases lastEdit with
    | none => exact ⟨edits, rfl, by simpa using Interchangeable.refl _⟩
    | some last => exact ⟨edits ++ [last], rfl, by simpa using Interchangeable.refl _⟩
  | cons edit rest ih =>
    unfold OffsetEdit.normalizeLoop
    split
    · rename_i isEmpty
      simp only [OffsetRange.length, Bool.and_eq_true, decide_eq_true_eq,
        length_eq_zero_iff] at isEmpty
      obtain ⟨normalized, built, exchange⟩ := ih edits lastEdit
      refine ⟨normalized, built, .trans ?_ exchange⟩
      simp only [asPatch_append, asPatch_cons]
      apply Interchangeable.append
      apply Interchangeable.append
      apply Interchangeable.skip
      · exact isEmpty.1
      · have point := of_decide_eq_true isEmpty.2
        simp only [replacement_start, replacement_stop]
        omega
    · cases lastEdit with
      | none => exact ih edits (some edit)
      | some last =>
        simp only
        split
        · rename_i touch
          rw [OffsetRange.join_eq touch]
          obtain ⟨normalized, built, exchange⟩ := ih edits
            (some ⟨⟨last.replaceRange.start, edit.replaceRange.endExclusive, _⟩,
              last.newText ++ edit.newText⟩)
          refine ⟨normalized, built, .trans ?_ exchange⟩
          simp only [asPatch_append, toList_some]
          apply Interchangeable.append
          exact Interchangeable.join touch (asPatch rest)
        · obtain ⟨normalized, built, exchange⟩ :=
            ih (edits ++ [last]) (some edit)
          refine ⟨normalized, built, ?_⟩
          simpa using exchange

theorem OffsetEdit.normalize_spec (within : Within str.length 0 (asPatch e.edits)) :
    ∃ e', e.normalize = some e' ∧ Within str.length 0 (asPatch e'.edits) ∧
      patch str 0 (asPatch e'.edits) = patch str 0 (asPatch e.edits) := by
  obtain ⟨edits, built, exchange⟩ := normalizeLoop_spec e.edits [] none
  have exchanged := exchange str 0 (by simpa using within)
  rw [Int.zero_add] at exchanged
  obtain ⟨e', isNew, rfl⟩ := OffsetEdit.new_of_within exchanged.1
  exact ⟨e', by simp [OffsetEdit.normalize, built, isNew], exchanged.1, exchanged.2.symm⟩

/-! ## Inverting -/

theorem inverseLoop_spec {edits : List SingleOffsetEdit} {pos : Int} (nonneg : 0 ≤ pos)
    (within : Within str.length pos (asPatch edits)) (offset : Int) :
    ∃ inverted, OffsetEdit.inverseLoop str edits offset = some inverted ∧
      Within (pos + offset + (patch (str.drop pos.toNat) pos (asPatch edits)).length)
        (pos + offset) (asPatch inverted) ∧
      patch (patch (str.drop pos.toNat) pos (asPatch edits)) (pos + offset)
        (asPatch inverted) = str.drop pos.toNat := by
  induction edits generalizing pos offset with
  | nil => exact ⟨[], rfl, Int.le_add_of_nonneg_right (by omega), rfl⟩
  | cons edit edits ih =>
    obtain ⟨start, ordered, later⟩ := within
    simp only [replacement_start, replacement_stop] at start ordered later
    have bounded := later.le
    obtain ⟨inverted, built, within', patched⟩ :=
      ih (by omega) later (offset + edit.growth)
    have range : OffsetRange.ofStartAndLength (edit.replaceRange.start + offset)
        edit.newText.length = some ⟨edit.replaceRange.start + offset,
          edit.replaceRange.start + offset + edit.newText.length, by omega⟩ :=
      OffsetRange.new_eq _
    -- the text in front of the edit, what the edit replaced, and the rest
    have toStop := drop_toNat str nonneg (Int.le_trans start ordered)
    have front : (((str.drop pos.toNat).take (edit.replaceRange.start - pos).toNat).length :
        Int) = edit.replaceRange.start - pos := by
      rw [length_take, length_drop]
      omega
    have moved : edit.replaceRange.endExclusive + (offset + edit.growth) =
        edit.replaceRange.start + offset + edit.newText.length := by
      rw [SingleOffsetEdit.growth_eq]
      omega
    rw [asPatch_cons, patch_cons]
    simp only [replacement_start, replacement_stop, replacement_text]
    rw [← toStop]
    rw [moved] at within' patched
    refine ⟨_, by simp [OffsetEdit.inverseLoop, range, built]; rfl, ?_, ?_⟩
    · refine ⟨?_, ?_, ?_⟩
      · simp only [replacement_start]
        omega
      · simp only [replacement_start, replacement_stop]
        omega
      · simp only [replacement_stop]
        have length : pos + offset + (((str.drop pos.toNat).take
            (edit.replaceRange.start - pos).toNat ++ (edit.newText ++
              patch (str.drop edit.replaceRange.endExclusive.toNat)
                edit.replaceRange.endExclusive (asPatch edits))).length : Int) =
            edit.replaceRange.start + offset + edit.newText.length +
              (patch (str.drop edit.replaceRange.endExclusive.toNat)
                edit.replaceRange.endExclusive (asPatch edits)).length := by
          rw [length_append, length_append]
          omega
        rw [length]
        exact within'
    · rw [asPatch_cons, patch_parts]
      · simp only [replacement_stop, replacement_text]
        rw [patched, substringBetween_eq (by omega) ordered]
        rw [drop_toNat str (Int.le_trans nonneg start) ordered, take_append_drop,
          drop_toNat str nonneg start, take_append_drop]
      · simp only [replacement_start]
        omega
      · rfl

/-! ## Joining -/

section Joining

variable {edit2 : SingleOffsetEdit} {queue : List SingleOffsetEdit} {delta position : Int}
  {rest : Text}

/-- Edits that are copied are made in both texts, up to the same place. -/
theorem copyUntouched_spec (within : Within (position + rest.length) position (asPatch queue))
    (before : position + delta ≤ edit2.replaceRange.start) :
    ∃ copied queue' delta' written rest' position',
      copyUntouched edit2 queue delta = (copied, queue', delta') ∧ queue = copied ++ queue' ∧
      Emits (asPatch copied) rest position written rest' position' ∧
      (written.length : Int) = position' + delta' - (position + delta) ∧
      position' + delta' ≤ edit2.replaceRange.start ∧
      Within (position + rest.length) position' (asPatch queue') ∧
      ∀ edit1 ∈ queue'.head?, edit2.replaceRange.start ≤
        edit1.replaceRange.start + delta' + edit1.newText.length := by
  induction queue generalizing delta position rest with
  | nil =>
    refine ⟨[], [], delta, [], rest, position, rfl, rfl, .nil rest position, ?_, before,
      within, by simp⟩
    simp
  | cons edit1 queue ih =>
    rw [copyUntouched]
    split
    · rename_i touches
      refine ⟨[], edit1 :: queue, delta, [], rest, position, rfl, rfl, .nil rest position, ?_,
        before, within, ?_⟩
      · simp
      · intro first isFirst
        cases isFirst
        exact touches
    · rename_i apart
      obtain ⟨start, ordered, later⟩ := within
      have bounded := later.le
      simp only [replacement_start, replacement_stop] at start ordered later bounded
      have growth := edit1.growth_eq
      have emits := @Emits.single CodeUnit edit1.replacement rest position start ordered bounded
      simp only [replacement_start, replacement_stop, replacement_text] at emits
      obtain ⟨copied, queue', delta', written, rest', position', taken, split, emits', length,
        upTo, within', touch⟩ := ih (emits.length.symm ▸ later)
          (show edit1.replaceRange.endExclusive + (delta + edit1.growth) ≤
            edit2.replaceRange.start by omega)
      refine ⟨edit1 :: copied, queue', delta', _, rest', position', ?_, ?_,
        emits.append emits', ?_, upTo, ?_, touch⟩
      · simp [taken]
      · simp [split]
      · rw [length_append, length_append, length_take]
        omega
      · rw [emits.length] at within'
        exact within'

/-- Nothing more is taken off the queue: what the last edit inserted behind the second
edit goes back to it. -/
theorem requeueSuffix_spec {last : SingleOffsetEdit}
    (within : Within (position + rest.length) position (asPatch queue))
    (isLast : last.replaceRange.endExclusive = position)
    (reaches : position + delta ≤ last.newText.length + edit2.replaceRange.endExclusive)
    (bounded : edit2.replaceRange.endExclusive ≤ position + delta + rest.length)
    (apart : Within (position + rest.length) (edit2.replaceRange.endExclusive - delta)
      (asPatch queue) ∨ edit2.replaceRange.endExclusive ≤ position + delta) :
    ∃ queue' delta', requeueSuffix edit2 last queue delta = some (queue', delta') ∧
      position ≤ edit2.replaceRange.endExclusive - delta' ∧
      Within (position + rest.length) (edit2.replaceRange.endExclusive - delta') (asPatch queue') ∧
      patch (rest.drop (edit2.replaceRange.endExclusive - delta' - position).toNat)
          (edit2.replaceRange.endExclusive - delta') (asPatch queue') =
        (last.newText ++ patch rest position (asPatch queue)).drop
          (last.newText.length + edit2.replaceRange.endExclusive - (position + delta)).toNat := by
  unfold requeueSuffix
  simp only
  split
  · rename_i suffix
    have range : OffsetRange.ofStartAndLength last.replaceRange.endExclusive 0 =
        some ⟨last.replaceRange.endExclusive, last.replaceRange.endExclusive + 0, by omega⟩ :=
      OffsetRange.new_eq _
    simp only [range, bind_eq_bind, bind_some]
    have length : ((last.newText.drop (last.newText.length - (last.replaceRange.endExclusive +
        delta - edit2.replaceRange.endExclusive).toNat)).length : Int) =
        position + delta - edit2.replaceRange.endExclusive := by
      rw [length_drop]
      omega
    have stop : edit2.replaceRange.endExclusive - (delta - SingleOffsetEdit.growth
        ⟨⟨last.replaceRange.endExclusive, last.replaceRange.endExclusive + 0, by omega⟩,
          last.newText.drop (last.newText.length - (last.replaceRange.endExclusive + delta -
            edit2.replaceRange.endExclusive).toNat)⟩) = position := by
      rw [SingleOffsetEdit.growth_eq]
      simp only
      omega
    refine ⟨_, _, rfl, Int.le_of_eq stop.symm, ?_, ?_⟩
    · rw [stop]
      refine ⟨?_, ?_, ?_⟩
      · simp only [replacement_start]
        omega
      · simp only [replacement_start, replacement_stop]
        omega
      · simp only [replacement_stop]
        rw [isLast, Int.add_zero]
        exact within
    · rw [stop, asPatch_cons, patch_cons]
      simp only [replacement_start, replacement_stop, replacement_text]
      rw [isLast, Int.add_zero, Int.sub_self, drop_append_of_le_length (by omega)]
      simp only [Int.toNat_zero, drop_zero, take_zero, nil_append]
      congr 2
      omega
  · rename_i noSuffix
    have within' : Within (position + rest.length) (edit2.replaceRange.endExclusive - delta)
        (asPatch queue) := by
      obtain apart | touches := apart
      · exact apart
      · have same : edit2.replaceRange.endExclusive - delta = position := by omega
        rw [same]
        exact within
    refine ⟨queue, delta, rfl, by omega, within', ?_⟩
    have skipped : (last.newText.length + edit2.replaceRange.endExclusive -
        (position + delta)).toNat = last.newText.length +
          (edit2.replaceRange.endExclusive - delta - position).toNat := by omega
    rw [skipped, drop_length_add_append, drop_patch (by omega) (by omega) within']

/-- All edits that the second edit touches are taken off the queue. -/
theorem takeIntersecting_spec {first last : SingleOffsetEdit}
    (within : Within (position + rest.length) position (asPatch queue))
    (isLast : last.replaceRange.endExclusive = position)
    (reaches : position + delta ≤ last.newText.length + edit2.replaceRange.endExclusive)
    (bounded : edit2.replaceRange.endExclusive ≤
      position + delta + (patch rest position (asPatch queue)).length) :
    ∃ last' queue' delta' queue'' delta'', takeIntersecting edit2 queue delta (some (first, last)) =
        (some (first, last'), queue', delta') ∧
      requeueSuffix edit2 last' queue' delta' = some (queue'', delta'') ∧
      position ≤ edit2.replaceRange.endExclusive - delta'' ∧
      Within (position + rest.length) (edit2.replaceRange.endExclusive - delta'')
        (asPatch queue'') ∧
      patch (rest.drop (edit2.replaceRange.endExclusive - delta'' - position).toNat)
          (edit2.replaceRange.endExclusive - delta'') (asPatch queue'') =
        (last.newText ++ patch rest position (asPatch queue)).drop
          (last.newText.length + edit2.replaceRange.endExclusive - (position + delta)).toNat := by
  induction queue generalizing delta position rest last with
  | nil =>
    obtain ⟨queue'', delta'', requeued, after, within', patched⟩ :=
      requeueSuffix_spec within isLast reaches bounded (by simp [Within] at bounded ⊢; omega)
    exact ⟨last, [], delta, queue'', delta'', rfl, requeued, after, within', patched⟩
  | cons edit1 queue ih =>
    have head := within
    obtain ⟨start, ordered, later⟩ := head
    have stop := later.le
    simp only [replacement_start, replacement_stop] at start ordered later stop
    rw [takeIntersecting]
    split
    · rename_i apart
      have within' : Within (position + rest.length)
          (edit2.replaceRange.endExclusive - delta) (asPatch (edit1 :: queue)) :=
        ⟨by simp only [replacement_start]; omega, ordered, later⟩
      obtain ⟨queue'', delta'', requeued, after, within'', patched⟩ :=
        requeueSuffix_spec within isLast reaches (by omega) (.inl within')
      exact ⟨last, edit1 :: queue, delta, queue'', delta'', rfl, requeued, after, within'', patched⟩
    · rename_i touches
      have growth := edit1.growth_eq
      have emits := @Emits.single CodeUnit edit1.replacement rest position start ordered stop
      have length := emits.length
      have written := emits.patch_eq (asPatch queue)
      simp only [replacement_start, replacement_stop, replacement_text,
        singleton_append] at length written
      have front : ((rest.take (edit1.replaceRange.start - position).toNat).length : Int) =
          edit1.replaceRange.start - position := by
        rw [length_take]
        omega
      rw [asPatch_cons, written, length_append, length_append] at bounded
      obtain ⟨last', queue', delta', queue'', delta'', taken, requeued, after, within',
        patched⟩ := ih (length.symm ▸ later) rfl
          (show edit1.replaceRange.endExclusive + (delta + edit1.growth) ≤
            edit1.newText.length + edit2.replaceRange.endExclusive by omega) (by omega)
      refine ⟨last', queue', delta', queue'', delta'', taken, requeued, by omega, ?_, ?_⟩
      · rw [length] at within'
        exact within'
      · rw [drop_drop] at patched
        have dropped : (edit1.replaceRange.endExclusive - position).toNat +
            (edit2.replaceRange.endExclusive - delta'' - edit1.replaceRange.endExclusive).toNat =
            (edit2.replaceRange.endExclusive - delta'' - position).toNat := by omega
        have skipped : (last.newText.length + edit2.replaceRange.endExclusive -
            (position + delta)).toNat = last.newText.length +
              ((rest.take (edit1.replaceRange.start - position).toNat).length +
                (edit1.newText.length + edit2.replaceRange.endExclusive -
                  (edit1.replaceRange.endExclusive + (delta + edit1.growth))).toNat) := by
          omega
        rw [dropped] at patched
        rw [patched, asPatch_cons, written, skipped, append_assoc,
          drop_length_add_append, drop_length_add_append]

/-- What stands in front of the second edit: text of the original, and the beginning of
what the first touching edit inserts. -/
theorem keptPrefix_spec {first : SingleOffsetEdit}
    (within : Within (position + rest.length) position (asPatch (first :: queue)))
    (before : position + delta ≤ edit2.replaceRange.start)
    (touch : edit2.replaceRange.start ≤ first.replaceRange.start + delta + first.newText.length) :
    (patch rest position (asPatch (first :: queue))).take
        (edit2.replaceRange.start - (position + delta)).toNat =
      rest.take (min first.replaceRange.start (edit2.replaceRange.start - delta) -
        position).toNat ++ keptPrefix edit2 first delta := by
  obtain ⟨start, ordered, later⟩ := within
  have bounded := later.le
  simp only [replacement_start, replacement_stop] at start ordered bounded
  have front : ((rest.take (first.replaceRange.start - position).toNat).length : Int) =
      first.replaceRange.start - position := by
    rw [length_take]
    omega
  rw [asPatch_cons, patch_cons, keptPrefix]
  simp only [replacement_start, replacement_stop, replacement_text]
  split
  · rename_i longer
    have isStart : min first.replaceRange.start (edit2.replaceRange.start - delta) =
        first.replaceRange.start := by omega
    have taken : (edit2.replaceRange.start - (position + delta)).toNat =
        (rest.take (first.replaceRange.start - position).toNat).length +
          (edit2.replaceRange.start - (first.replaceRange.start + delta)).toNat := by omega
    rw [isStart, taken, take_length_add_append, take_append_of_le_length (by omega)]
  · rename_i shorter
    have isStart : min first.replaceRange.start (edit2.replaceRange.start - delta) =
        edit2.replaceRange.start - delta := by omega
    rw [isStart, take_append_of_le_length (by omega), take_take, append_nil]
    congr 1
    omega

/-- Joining a second edit with the rest of the queue: the pushed edit writes what the
second edit leaves of the text in front of its end, and the queue is ready for the text
behind it. -/
def Joined (edit2 : SingleOffsetEdit) (queue : List SingleOffsetEdit) (delta position : Int)
    (rest : Text) (pushed queue' : List SingleOffsetEdit) (delta' : Int) : Prop :=
  ∃ rest', Emits (asPatch pushed) rest position
      ((patch rest position (asPatch queue)).take
        (edit2.replaceRange.start - (position + delta)).toNat ++ edit2.newText)
      rest' (edit2.replaceRange.endExclusive - delta') ∧
    Within (position + rest.length) (edit2.replaceRange.endExclusive - delta')
      (asPatch queue') ∧
    patch rest' (edit2.replaceRange.endExclusive - delta') (asPatch queue') =
      (patch rest position (asPatch queue)).drop
        (edit2.replaceRange.endExclusive - (position + delta)).toNat

theorem joined_of_apart (before : position + delta ≤ edit2.replaceRange.start)
    (bounded : edit2.replaceRange.endExclusive - delta ≤ position + rest.length)
    (within : Within (position + rest.length) (edit2.replaceRange.endExclusive - delta)
      (asPatch queue)) {range : OffsetRange}
    (start : range.start = edit2.replaceRange.start + -delta)
    (stop : range.endExclusive = edit2.replaceRange.endExclusive + -delta) :
    Joined edit2 queue delta position rest [⟨range, edit2.newText⟩] queue delta := by
  have ordered := edit2.replaceRange.ordered
  have isStop : range.endExclusive = edit2.replaceRange.endExclusive - delta := by omega
  have emits := @Emits.single CodeUnit (SingleOffsetEdit.replacement ⟨range, edit2.newText⟩) rest
    position (by simp only [replacement_start]; omega) range.ordered
    (by simp only [replacement_stop]; omega)
  simp only [replacement_start, replacement_stop, replacement_text] at emits
  rw [isStop] at emits
  have toStart : (edit2.replaceRange.start - (position + delta)).toNat =
      (range.start - position).toNat := by omega
  have toStop : (edit2.replaceRange.endExclusive - (position + delta)).toNat =
      (edit2.replaceRange.endExclusive - delta - position).toNat := by omega
  refine ⟨rest.drop (edit2.replaceRange.endExclusive - delta - position).toNat, ?_, within, ?_⟩
  · rw [toStart, take_patch (by omega) (by omega) (within.of_le (by omega))]
    exact emits
  · rw [toStop, drop_patch (by omega) bounded within]

theorem joinTouching_spec (within : Within (position + rest.length) position (asPatch queue))
    (before : position + delta ≤ edit2.replaceRange.start)
    (touch : ∀ edit1 ∈ queue.head?, edit2.replaceRange.start ≤
      edit1.replaceRange.start + delta + edit1.newText.length)
    (bounded : edit2.replaceRange.endExclusive ≤
      position + delta + (patch rest position (asPatch queue)).length) :
    ∃ joined queue' delta', joinTouching edit2 queue delta = some (joined, queue', delta') ∧
      Joined edit2 queue delta position rest [joined] queue' delta' := by
  have ordered := edit2.replaceRange.ordered
  obtain ⟨range, shifted, rangeStart, rangeStop⟩ :
      ∃ range, edit2.replaceRange.delta (-delta) = some range ∧
        range.start = edit2.replaceRange.start + -delta ∧
        range.endExclusive = edit2.replaceRange.endExclusive + -delta :=
    OffsetRange.exists_new (by omega)
  unfold joinTouching
  cases queue with
  | nil =>
    rw [asPatch_nil, patch_nil] at bounded
    have upTo : edit2.replaceRange.endExclusive - delta ≤ position + rest.length := by omega
    exact ⟨⟨range, edit2.newText⟩, [], delta, by simp [takeIntersecting, shifted],
      joined_of_apart before upTo (by exact upTo) rangeStart rangeStop⟩
  | cons edit1 queue =>
    obtain ⟨start, ordered1, later⟩ := within
    have stop := later.le
    simp only [replacement_start, replacement_stop] at start ordered1 later stop
    by_cases apart : edit1.replaceRange.start + delta > edit2.replaceRange.endExclusive
    · have apart' : Within (position + rest.length)
          (edit2.replaceRange.endExclusive - delta) (asPatch (edit1 :: queue)) :=
        ⟨by simp only [replacement_start]; omega, ordered1, later⟩
      exact ⟨⟨range, edit2.newText⟩, edit1 :: queue, delta,
        by simp [takeIntersecting, apart, shifted],
        joined_of_apart before (by omega) apart' rangeStart rangeStop⟩
    · have touches := touch edit1 (by simp)
      have growth := edit1.growth_eq
      have emits := @Emits.single CodeUnit edit1.replacement rest position start ordered1 stop
      have length := emits.length
      have written := emits.patch_eq (asPatch queue)
      simp only [replacement_start, replacement_stop, replacement_text,
        singleton_append] at length written
      have front : ((rest.take (edit1.replaceRange.start - position).toNat).length : Int) =
          edit1.replaceRange.start - position := by
        rw [length_take]
        omega
      have bounded' := bounded
      rw [asPatch_cons, written, length_append, length_append] at bounded'
      obtain ⟨last', queue', delta', queue'', delta'', taken, requeued, after, within',
        patched⟩ := @takeIntersecting_spec edit2 queue (delta + edit1.growth) _ _ edit1 edit1
          (length.symm ▸ later) rfl (by omega) (by omega)
      obtain ⟨newRange, built, newStart, newStop⟩ := OffsetRange.exists_new
        (show min edit1.replaceRange.start (edit2.replaceRange.start - delta) ≤
          edit2.replaceRange.endExclusive - delta'' by omega)
      refine ⟨⟨newRange, keptPrefix edit2 edit1 delta ++ edit2.newText⟩, queue'', delta'',
        by simp [takeIntersecting, apart, taken, requeued, built], ?_⟩
      refine ⟨rest.drop (edit2.replaceRange.endExclusive - delta'' - position).toNat,
        ?_, length ▸ within', ?_⟩
      · rw [keptPrefix_spec ⟨start, ordered1, later⟩ before touches, append_assoc,
          ← newStart, ← newStop]
        have upTo := within'.le
        apply Emits.single
        · simp only [replacement_start]
          omega
        · exact newRange.ordered
        · simp only [replacement_stop]
          omega
      · have dropped : (edit1.replaceRange.endExclusive - position).toNat +
            (edit2.replaceRange.endExclusive - delta'' - edit1.replaceRange.endExclusive).toNat =
            (edit2.replaceRange.endExclusive - delta'' - position).toNat := by omega
        have skipped : (edit2.replaceRange.endExclusive - (position + delta)).toNat =
            (rest.take (edit1.replaceRange.start - position).toNat).length +
              (edit1.newText.length + edit2.replaceRange.endExclusive -
                (edit1.replaceRange.endExclusive + (delta + edit1.growth))).toNat := by
          omega
        rw [drop_drop, dropped] at patched
        rw [patched, asPatch_cons, written, skipped, append_assoc, drop_length_add_append]

theorem joinEdit_spec (within : Within (position + rest.length) position (asPatch queue))
    (before : position + delta ≤ edit2.replaceRange.start)
    (bounded : edit2.replaceRange.endExclusive ≤
      position + delta + (patch rest position (asPatch queue)).length) :
    ∃ pushed queue' delta', joinEdit edit2 queue delta = some (pushed, queue', delta') ∧
      Joined edit2 queue delta position rest pushed queue' delta' := by
  have ordered := edit2.replaceRange.ordered
  obtain ⟨copied, queue₁, delta₁, written, rest₁, position₁, copies, split, emits, length,
    before₁, within₁, touch⟩ := copyUntouched_spec within before
  have patched := emits.patch_eq (asPatch queue₁)
  rw [← asPatch_append, ← split] at patched
  have whole : ((patch rest position (asPatch queue)).length : Int) =
      written.length + (patch rest₁ position₁ (asPatch queue₁)).length := by
    rw [patched, length_append]
    omega
  obtain ⟨joined, queue', delta', joins, rest', emits', within', patched'⟩ :=
    joinTouching_spec (emits.length.symm ▸ within₁) before₁ touch (by omega)
  refine ⟨copied ++ [joined], queue', delta', by simp [joinEdit, copies, joins], rest', ?_,
    emits.length ▸ within', ?_⟩
  · have toStart : (edit2.replaceRange.start - (position + delta)).toNat =
        written.length + (edit2.replaceRange.start - (position₁ + delta₁)).toNat := by omega
    rw [asPatch_append, patched, toStart, take_length_add_append, append_assoc]
    exact emits.append emits'
  · have toStop : (edit2.replaceRange.endExclusive - (position + delta)).toNat =
        written.length + (edit2.replaceRange.endExclusive - (position₁ + delta₁)).toNat := by
      omega
    rw [patched', patched, toStop, drop_length_add_append]

/-- The joined edits do what the queue and then the second edits do. -/
theorem joinLoop_spec {edits2 : List SingleOffsetEdit}
    (within : Within (position + rest.length) position (asPatch queue))
    (within2 : Within (position + delta + (patch rest position (asPatch queue)).length)
      (position + delta) (asPatch edits2)) :
    ∃ result, joinLoop edits2 queue delta = some result ∧
      Within (position + rest.length) position (asPatch result) ∧
      patch rest position (asPatch result) =
        patch (patch rest position (asPatch queue)) (position + delta) (asPatch edits2) := by
  induction edits2 generalizing queue delta position rest with
  | nil => exact ⟨queue, rfl, within, rfl⟩
  | cons edit2 edits2 ih =>
    obtain ⟨start, ordered, later⟩ := within2
    have bounded := later.le
    simp only [replacement_start, replacement_stop] at start ordered later bounded
    obtain ⟨pushed, queue', delta', joins, rest', emits, within', patched⟩ :=
      joinEdit_spec within start bounded
    have here : edit2.replaceRange.endExclusive - delta' + delta' =
        edit2.replaceRange.endExclusive := by omega
    have whole : edit2.replaceRange.endExclusive - delta' + delta' +
        ((patch rest' (edit2.replaceRange.endExclusive - delta') (asPatch queue')).length :
          Int) = position + delta + (patch rest position (asPatch queue)).length := by
      rw [patched, length_drop]
      omega
    obtain ⟨result, joined, withinResult, same⟩ :=
      ih (emits.length.symm ▸ within') (by rw [whole, here]; exact later)
    refine ⟨pushed ++ result, by simp [joinLoop, joins, joined], ?_, ?_⟩
    · rw [asPatch_append]
      rw [emits.length] at withinResult
      exact emits.within _ _ withinResult
    · rw [asPatch_append, emits.patch_eq, same, here, patched, asPatch_cons, patch_cons,
        append_assoc]
      rfl

end Joining

theorem joinEdits_spec {edits1 edits2 : OffsetEdit}
    (within1 : Within str.length 0 (asPatch edits1.edits))
    (within2 : Within (patch str 0 (asPatch edits1.edits)).length 0 (asPatch edits2.edits)) :
    ∃ e, joinEdits edits1 edits2 = some e ∧ Within str.length 0 (asPatch e.edits) ∧
      patch str 0 (asPatch e.edits) =
        patch (patch str 0 (asPatch edits1.edits)) 0 (asPatch edits2.edits) := by
  obtain ⟨first, isFirst, withinFirst, sameFirst⟩ := OffsetEdit.normalize_spec within1
  obtain ⟨second, isSecond, withinSecond, sameSecond⟩ := OffsetEdit.normalize_spec within2
  rw [← sameFirst] at withinSecond sameSecond ⊢
  rw [← sameSecond]
  simp only [joinEdits, isFirst, isSecond, bind_eq_bind, bind_some]
  split
  · rename_i isEmpty
    have none : first.edits = [] := by simpa [OffsetEdit.isEmpty] using isEmpty
    rw [none, asPatch_nil, patch_nil] at withinSecond ⊢
    exact ⟨second, rfl, withinSecond, rfl⟩
  · split
    · rename_i isEmpty
      have none : second.edits = [] := by simpa [OffsetEdit.isEmpty] using isEmpty
      rw [none]
      exact ⟨first, rfl, withinFirst, rfl⟩
    · obtain ⟨result, joined, within, same⟩ :=
        @joinLoop_spec first.edits 0 0 str second.edits (by simpa using withinFirst)
          (by simpa using withinSecond)
      rw [Int.zero_add] at within
      obtain ⟨e, isNew, rfl⟩ := OffsetEdit.new_of_within within
      obtain ⟨e', isNormal, within', same'⟩ := OffsetEdit.normalize_spec within
      refine ⟨e', by simp [joined, isNew, isNormal], within', ?_⟩
      rw [same', same, Int.zero_add]

/-- Composing edits is applying one after the other; inverting an edit takes it back; and
normalizing does not change what it does. -/
theorem offset_edit_laws (str : Text) (e₁ e₂ : OffsetEdit) (valid₁ : e₁.ValidOn str)
    (valid₂ : e₂.ValidOn (e₁.apply str)) :
    (∃ e, e₁.compose e₂ = some e ∧ e.apply str = e₂.apply (e₁.apply str)) ∧
      (∃ e, e₁.inverse str = some e ∧ e.apply (e₁.apply str) = str) ∧
      ∃ e, e₁.normalize = some e ∧ e.apply str = e₁.apply str := by
  have within₁ := valid₁.within
  have within₂ := valid₂.within
  rw [OffsetEdit.apply_eq within₂]
  rw [OffsetEdit.apply_eq within₁] at within₂ ⊢
  refine ⟨?_, ?_, ?_⟩
  · obtain ⟨e, joined, within, same⟩ := joinEdits_spec within₁ within₂
    exact ⟨e, joined, by rw [OffsetEdit.apply_eq within, same]⟩
  · obtain ⟨inverted, built, within, same⟩ :=
      @inverseLoop_spec str e₁.edits 0 (Int.le_refl 0) within₁ 0
    simp only [Int.toNat_zero, drop_zero, Int.zero_add] at within same
    obtain ⟨e, isNew, rfl⟩ := OffsetEdit.new_of_within within
    exact ⟨e, by simp [OffsetEdit.inverse, built, isNew], by rw [OffsetEdit.apply_eq within, same]⟩
  · obtain ⟨e, normal, within, same⟩ := OffsetEdit.normalize_spec within₁
    exact ⟨e, normal, by rw [OffsetEdit.apply_eq within, same]⟩

/-- `abc` becomes `axyzc`, and the second edit deletes `zc`. -/
theorem offset_edit_laws_sample :
    let str : Text := [97, 98, 99]
    let e₁ : OffsetEdit := ⟨[⟨⟨1, 2, by decide⟩, [120, 121, 122]⟩], by decide⟩
    let e₂ : OffsetEdit := ⟨[⟨⟨3, 5, by decide⟩, []⟩], by decide⟩
    (∃ e, e₁.compose e₂ = some e ∧ e.apply str = e₂.apply (e₁.apply str)) ∧
      (∃ e, e₁.inverse str = some e ∧ e.apply (e₁.apply str) = str) ∧
      ∃ e, e₁.normalize = some e ∧ e.apply str = e₁.apply str :=
  offset_edit_laws [97, 98, 99] ⟨[⟨⟨1, 2, by decide⟩, [120, 121, 122]⟩], by decide⟩
    ⟨[⟨⟨3, 5, by decide⟩, []⟩], by decide⟩
    (by unfold OffsetEdit.ValidOn; decide) (by unfold OffsetEdit.ValidOn; decide)

end CodeEditor.Edits

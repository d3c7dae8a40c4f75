import Mathlib

/-!
# Extents

How far a list reaches when some of its elements end lines: the number of its lines, and
the columns behind the last of them. Extents add up as lists are written one behind the
other, and they are ordered as positions are.
-/

namespace CodeEditor

open List Nat

/-- A number of complete lines, and columns behind them. -/
@[ext] structure Extent where
  lines : Nat
  columns : Nat
  deriving DecidableEq, Repr

namespace Extent

variable {a b c : Extent}

instance : Zero Extent := ⟨⟨0, 0⟩⟩

/-- The columns of the first extent do not count when the second has lines. -/
instance : Add Extent where
  add a b :=
    if b.lines = 0 then ⟨a.lines, a.columns + b.columns⟩ else ⟨a.lines + b.lines, b.columns⟩

instance : Sub Extent where
  sub a b :=
    if a.lines = b.lines then ⟨0, a.columns - b.columns⟩ else ⟨a.lines - b.lines, a.columns⟩

@[simp] theorem lines_zero : (0 : Extent).lines = 0 := rfl

@[simp] theorem columns_zero : (0 : Extent).columns = 0 := rfl

theorem add_def (a b : Extent) : a + b =
    if b.lines = 0 then ⟨a.lines, a.columns + b.columns⟩ else ⟨a.lines + b.lines, b.columns⟩ :=
  rfl

theorem sub_def (a b : Extent) : a - b =
    if a.lines = b.lines then ⟨0, a.columns - b.columns⟩ else ⟨a.lines - b.lines, a.columns⟩ :=
  rfl

@[simp] theorem lines_add (a b : Extent) : (a + b).lines = a.lines + b.lines := by
  rw [add_def]
  split <;> simp_all

theorem columns_add (a b : Extent) :
    (a + b).columns = if b.lines = 0 then a.columns + b.columns else b.columns := by
  rw [add_def]
  split <;> rfl

theorem columns_add_of_eq (a : Extent) (single : b.lines = 0) :
    (a + b).columns = a.columns + b.columns := by
  rw [columns_add, if_pos single]

theorem columns_add_of_ne (a : Extent) (several : b.lines ≠ 0) : (a + b).columns = b.columns := by
  rw [columns_add, if_neg several]

instance : AddMonoid Extent where
  add_assoc a b c := by
    apply Extent.ext
    · simp only [lines_add, Nat.add_assoc]
    · simp only [columns_add, lines_add]
      by_cases noLines : c.lines = 0
      · simp only [noLines, Nat.add_zero, if_true]
        split
        · exact Nat.add_assoc _ _ _
        · rfl
      · simp [noLines]
  zero_add a := by
    apply Extent.ext
    · simp
    · rw [columns_add]
      split <;> simp
  add_zero a := by
    apply Extent.ext
    · simp
    · simp [columns_add]
  nsmul := nsmulRec

/-- What is added behind an extent can be told from the sum. -/
protected theorem add_left_cancel (equal : a + b = a + c) : b = c := by
  have lines := congrArg Extent.lines equal
  have columns := congrArg Extent.columns equal
  rw [lines_add, lines_add] at lines
  rw [columns_add, columns_add] at columns
  apply Extent.ext
  · omega
  · split at columns <;> split at columns <;> omega

/-! ## The order -/

/-- Lines first, then columns. -/
instance : LinearOrder Extent :=
  LinearOrder.lift' (fun e => toLex (e.lines, e.columns)) fun a b equal => by
    have pairs : (a.lines, a.columns) = (b.lines, b.columns) := equal
    rw [Prod.mk.injEq] at pairs
    exact Extent.ext pairs.1 pairs.2

theorem le_def : a ≤ b ↔ a.lines < b.lines ∨ a.lines = b.lines ∧ a.columns ≤ b.columns :=
  Prod.Lex.le_iff

theorem lt_def : a < b ↔ a.lines < b.lines ∨ a.lines = b.lines ∧ a.columns < b.columns :=
  Prod.Lex.lt_iff

theorem zero_le (a : Extent) : 0 ≤ a := by
  rw [le_def]
  simp
  omega

theorem le_add (a b : Extent) : a ≤ a + b := by
  rw [le_def, lines_add, columns_add]
  split <;> omega

theorem lt_add (a : Extent) (pos : b ≠ 0) : a < a + b := by
  apply lt_of_le_of_ne (le_add a b)
  intro equal
  apply pos
  exact Extent.add_left_cancel (a := a) (equal.symm.trans (add_zero a).symm)

protected theorem add_le_add_iff_left : a + b ≤ a + c ↔ b ≤ c := by
  rw [le_def, le_def, lines_add, lines_add, columns_add, columns_add]
  split <;> split <;> omega

protected theorem add_lt_add_iff_left : a + b < a + c ↔ b < c := by
  rw [← not_le, ← not_le]
  exact not_congr Extent.add_le_add_iff_left

protected theorem add_le_add_right (c : Extent) (le : a ≤ b) : a + c ≤ b + c := by
  rw [le_def] at le ⊢
  rw [lines_add, lines_add, columns_add, columns_add]
  split <;> omega

/-- The difference is what has to be added. -/
theorem add_sub_of_le (le : a ≤ b) : a + (b - a) = b := by
  rw [le_def] at le
  rw [sub_def]
  split
  · rename_i same
    rw [add_def, if_pos rfl]
    apply Extent.ext <;> simp <;> omega
  · rename_i differ
    rw [add_def, if_neg (show b.lines - a.lines ≠ 0 by omega)]
    apply Extent.ext <;> simp
    omega

@[simp] theorem add_sub_cancel (a b : Extent) : a + b - a = b :=
  Extent.add_left_cancel (add_sub_of_le (le_add a b))

@[simp] protected theorem sub_self (a : Extent) : a - a = 0 := by
  have cancelled := add_sub_cancel a 0
  rwa [add_zero] at cancelled

theorem le_iff_exists_add : a ≤ b ↔ ∃ rest, b = a + rest := by
  constructor
  · intro le
    exact ⟨b - a, (add_sub_of_le le).symm⟩
  · rintro ⟨rest, rfl⟩
    exact le_add a rest

end Extent

/-! ## Extents of lists -/

section Lists

variable {α : Type} (isBreak : α → Bool)

/-- The extent of one element. -/
def unitExtent (isBreak : Bool) : Extent := if isBreak then ⟨1, 0⟩ else ⟨0, 1⟩

/-- The extent of a list in which some elements end lines. -/
def extent : List α → Extent
  | [] => 0
  | x :: xs => unitExtent (isBreak x) + extent xs

@[simp] theorem extent_nil : extent isBreak [] = 0 := rfl

@[simp] theorem extent_cons (x : α) (xs : List α) :
    extent isBreak (x :: xs) = unitExtent (isBreak x) + extent isBreak xs := rfl

theorem unitExtent_ne_zero (isBreak : Bool) : unitExtent isBreak ≠ 0 := by
  cases isBreak <;> decide

theorem extent_append (xs ys : List α) :
    extent isBreak (xs ++ ys) = extent isBreak xs + extent isBreak ys := by
  induction xs with
  | nil => simp
  | cons x xs ih =>
    rw [cons_append, extent_cons, ih, extent_cons, add_assoc]

variable {xs : List α}

theorem extent_ne_zero (nonempty : xs ≠ []) : extent isBreak xs ≠ 0 := by
  cases xs with
  | nil => contradiction
  | cons x xs =>
    intro isZero
    have below := Extent.le_add (unitExtent (isBreak x)) (extent isBreak xs)
    rw [← extent_cons, isZero] at below
    exact unitExtent_ne_zero _ (le_antisymm below (Extent.zero_le _))

theorem columns_extent_le (xs : List α) : (extent isBreak xs).columns ≤ xs.length := by
  induction xs with
  | nil => simp
  | cons x xs ih =>
    have first : (unitExtent (isBreak x)).columns ≤ 1 := by
      cases isBreak x <;> decide
    rw [extent_cons, Extent.columns_add, length_cons]
    split <;> omega

/-- A list in one line has a column for each element. -/
theorem columns_extent_of_lines (single : (extent isBreak xs).lines = 0) :
    (extent isBreak xs).columns = xs.length := by
  induction xs with
  | nil => rfl
  | cons x xs ih =>
    rw [extent_cons, Extent.lines_add, Nat.add_eq_zero_iff] at single
    obtain ⟨first, rest⟩ := single
    cases breaks : isBreak x with
    | true =>
      rw [breaks] at first
      contradiction
    | false =>
      rw [extent_cons, Extent.columns_add_of_eq _ rest, ih rest, breaks, length_cons, Nat.add_comm]
      rfl

variable {first last : Nat}

/-- The extent of the part of a list between two places. -/
theorem extent_take_add (xs : List α) (ordered : first ≤ last) :
    extent isBreak (xs.take first) + extent isBreak ((xs.take last).drop first) =
      extent isBreak (xs.take last) := by
  rw [← extent_append]
  congr 1
  conv_rhs => rw [← take_append_drop first (xs.take last)]
  rw [take_take, min_eq_left ordered]

theorem extent_take_mono (xs : List α) (ordered : first ≤ last) :
    extent isBreak (xs.take first) ≤ extent isBreak (xs.take last) := by
  rw [← extent_take_add isBreak xs ordered]
  exact Extent.le_add _ _

theorem extent_take_strictMono (ordered : first < last) (inside : last ≤ xs.length) :
    extent isBreak (xs.take first) < extent isBreak (xs.take last) := by
  rw [← extent_take_add isBreak xs (le_of_lt ordered)]
  apply Extent.lt_add
  apply extent_ne_zero
  rw [Ne, drop_eq_nil_iff, length_take]
  omega

theorem extent_take_le_iff (inside : first ≤ xs.length) :
    extent isBreak (xs.take first) ≤ extent isBreak (xs.take last) ↔ first ≤ last := by
  constructor
  · intro le
    by_contra! behind
    exact absurd (extent_take_strictMono isBreak behind inside) (not_lt.mpr le)
  · exact extent_take_mono isBreak xs

end Lists

/-!
## Edits between extents

Edits that say where they start and end, and how far the text reaches that they put there.
The document itself is out of sight: what is known of it are its places. A place between
two edits is kept, and `Kept` relates it to the place where it is after the edits.
-/

/-- An edit, with its offsets before all edits. -/
structure ExtentEdit where
  startOffset : Extent
  endOffset : Extent
  newLength : Extent
  deriving DecidableEq, Repr

namespace ExtentEdit

/-- The edits are sorted behind an offset, and do not overlap. -/
def SortedFrom : (stop : Extent) → List ExtentEdit → Prop
  | _, [] => True
  | stop, e :: edits =>
    stop ≤ e.startOffset ∧ e.startOffset ≤ e.endOffset ∧ SortedFrom e.endOffset edits

/-- Where the new text of an edit starts, when `stop` has moved to `newStop`. -/
def newStart (stop newStop : Extent) (e : ExtentEdit) : Extent :=
  newStop + (e.startOffset - stop)

/-- Where the new text of an edit ends. -/
def newEnd (stop newStop : Extent) (e : ExtentEdit) : Extent :=
  newStart stop newStop e + e.newLength

/-- The place `old` is between edits, and `new` is the same place after the edits. The
places of a gap are those that are `within` it: with `≤` its end counts, with `<` it does
not. -/
def KeptFrom (within : Extent → Extent → Prop) :
    (stop newStop : Extent) → List ExtentEdit → (old new : Extent) → Prop
  | stop, newStop, [], old, new => ∃ rest, old = stop + rest ∧ new = newStop + rest
  | stop, newStop, e :: edits, old, new =>
    (∃ rest, within (stop + rest) e.startOffset ∧ old = stop + rest ∧ new = newStop + rest) ∨
      KeptFrom within e.endOffset (newEnd stop newStop e) edits old new

/-- A place after the edits is strictly inside of a new text. -/
def InsideFrom : (stop newStop : Extent) → List ExtentEdit → (new : Extent) → Prop
  | _, _, [], _ => False
  | stop, newStop, e :: edits, new =>
    newStart stop newStop e < new ∧ new < newEnd stop newStop e ∨
      InsideFrom e.endOffset (newEnd stop newStop e) edits new

/-- The edits are sorted and do not overlap. -/
def Sorted (edits : List ExtentEdit) : Prop := SortedFrom 0 edits

/-- The place `old` is `new` after the edits. -/
def Kept (edits : List ExtentEdit) (old new : Extent) : Prop :=
  KeptFrom (· ≤ ·) 0 0 edits old new

/-- What stands behind the place `old` is kept, and is behind `new` after the edits. -/
def Keeps (edits : List ExtentEdit) (old new : Extent) : Prop :=
  KeptFrom (· < ·) 0 0 edits old new

def Inside (edits : List ExtentEdit) (new : Extent) : Prop := InsideFrom 0 0 edits new

/-- The two ways to count the places of a gap, with its end or without it. -/
structure IsWithin (within : Extent → Extent → Prop) : Prop where
  le : ∀ {a b}, within a b → a ≤ b
  of_lt : ∀ {a b}, a < b → within a b
  add_iff : ∀ {a b c}, within (a + b) (a + c) ↔ within b c

theorem isWithin_le : IsWithin (· ≤ ·) where
  le le := le
  of_lt := le_of_lt
  add_iff := Extent.add_le_add_iff_left

theorem isWithin_lt : IsWithin (· < ·) where
  le := le_of_lt
  of_lt less := less
  add_iff := Extent.add_lt_add_iff_left

theorem IsWithin.trans_le {within : Extent → Extent → Prop} (isWithin : IsWithin within)
    {a b c : Extent} (first : within a b) (le : b ≤ c) : within a c := by
  rcases (isWithin.le first).lt_or_eq with less | rfl
  · exact isWithin.of_lt (lt_of_lt_of_le less le)
  · rcases le.lt_or_eq with less | rfl
    · exact isWithin.of_lt less
    · exact first

/-! ## The place that is kept -/

/-- Where a place was before the edits: behind the edits that end at or before it. -/
def placeFrom : (stop newStop : Extent) → List ExtentEdit → (new : Extent) → Extent
  | stop, newStop, [], new => stop + (new - newStop)
  | stop, newStop, e :: edits, new =>
    if newEnd stop newStop e ≤ new then
      placeFrom e.endOffset (newEnd stop newStop e) edits new
    else stop + (new - newStop)

/-- The start of the first edit that is not entirely at or before a place, after the edits. -/
def nextStartFrom : (stop newStop : Extent) → List ExtentEdit → (new : Extent) → Option Extent
  | _, _, [], _ => none
  | stop, newStop, e :: edits, new =>
    if newEnd stop newStop e ≤ new then
      nextStartFrom e.endOffset (newEnd stop newStop e) edits new
    else some (newStart stop newStop e)

variable {within : Extent → Extent → Prop} {stop newStop old new : Extent}
  {edits : List ExtentEdit}

theorem newStop_le_newEnd (e : ExtentEdit) : newStop ≤ newEnd stop newStop e := by
  rw [newEnd, newStart, add_assoc]
  exact Extent.le_add _ _

section

variable (sorted : SortedFrom stop edits)

include sorted

/-- Nothing is kept in front of the place where the edits begin. -/
theorem KeptFrom.le (kept : KeptFrom within stop newStop edits old new) :
    stop ≤ old ∧ newStop ≤ new := by
  induction edits generalizing stop newStop with
  | nil =>
    obtain ⟨rest, rfl, rfl⟩ := kept
    exact ⟨Extent.le_add _ _, Extent.le_add _ _⟩
  | cons e edits ih =>
    obtain ⟨start, ordered, later⟩ := sorted
    rcases kept with ⟨rest, -, rfl, rfl⟩ | kept
    · exact ⟨Extent.le_add _ _, Extent.le_add _ _⟩
    · obtain ⟨behind, newBehind⟩ := ih later kept
      exact ⟨start.trans (ordered.trans behind), (newStop_le_newEnd e).trans newBehind⟩

/-- What is kept goes to one place. -/
theorem KeptFrom.unique (keeps : KeptFrom (· < ·) stop newStop edits old new)
    (keeps' : KeptFrom (· < ·) stop newStop edits old other) : new = other := by
  induction edits generalizing stop newStop with
  | nil =>
    obtain ⟨rest, rfl, rfl⟩ := keeps
    obtain ⟨rest', same, rfl⟩ := keeps'
    rw [Extent.add_left_cancel same]
  | cons e edits ih =>
    obtain ⟨-, ordered, later⟩ := sorted
    rcases keeps with ⟨rest, before, rfl, rfl⟩ | keeps
    · rcases keeps' with ⟨rest', -, same, rfl⟩ | keeps'
      · rw [Extent.add_left_cancel same]
      · exact absurd (ordered.trans (keeps'.le later).1) (not_le.mpr before)
    · rcases keeps' with ⟨rest', before, rfl, -⟩ | keeps'
      · exact absurd (ordered.trans (keeps.le later).1) (not_le.mpr before)
      · exact ih later keeps keeps'

/-- Outside of the edits every place is kept. -/
theorem exists_keptFrom (behind : stop ≤ old)
    (outside : ∀ e ∈ edits, ¬(e.startOffset < old ∧ old < e.endOffset)) :
    ∃ new, KeptFrom (· ≤ ·) stop newStop edits old new := by
  induction edits generalizing stop newStop with
  | nil => exact ⟨_, old - stop, (Extent.add_sub_of_le behind).symm, rfl⟩
  | cons e edits ih =>
    obtain ⟨-, -, later⟩ := sorted
    rw [forall_mem_cons] at outside
    rcases le_or_gt old e.startOffset with before | inOrBehind
    · refine ⟨_, .inl ⟨old - stop, ?_, (Extent.add_sub_of_le behind).symm, rfl⟩⟩
      rw [Extent.add_sub_of_le behind]
      exact before
    · have ends : e.endOffset ≤ old := not_lt.mp fun inside => outside.1 ⟨inOrBehind, inside⟩
      obtain ⟨new, kept⟩ := @ih e.endOffset (newEnd stop newStop e) later ends outside.2
      exact ⟨new, .inr kept⟩

theorem placeFrom_ge : stop ≤ placeFrom stop newStop edits new := by
  induction edits generalizing stop newStop with
  | nil => exact Extent.le_add _ _
  | cons e edits ih =>
    obtain ⟨start, ordered, later⟩ := sorted
    rw [placeFrom]
    split
    · exact start.trans (ordered.trans (ih later))
    · exact Extent.le_add _ _

end

/-- Behind an edit's new text there are the places that later edits keep. -/
theorem newEnd_le_of_rest {e : ExtentEdit} {rest : Extent} (before : stop + rest ≤ e.startOffset)
    (behind : stop ≤ e.startOffset) (ends : newEnd stop newStop e ≤ newStop + rest) :
    stop + rest = e.startOffset ∧ newEnd stop newStop e = newStop + rest := by
  rw [← Extent.add_sub_of_le behind, Extent.add_le_add_iff_left] at before
  have upTo : newStop + rest ≤ newEnd stop newStop e := by
    exact (Extent.add_le_add_iff_left.mpr before).trans (Extent.le_add _ _)
  have equal := le_antisymm ends upTo
  refine ⟨?_, equal⟩
  have starts : newStop + (e.startOffset - stop) ≤ newStop + rest := by
    rw [← equal, newEnd, newStart]
    exact Extent.le_add _ _
  rw [Extent.add_le_add_iff_left] at starts
  rw [le_antisymm before starts, Extent.add_sub_of_le behind]

/-- Of the places that are taken to `new`, the place found is the last. -/
theorem KeptFrom.le_placeFrom (sorted : SortedFrom stop edits)
    (kept : KeptFrom (· ≤ ·) stop newStop edits old new) :
    old ≤ placeFrom stop newStop edits new := by
  induction edits generalizing stop newStop with
  | nil =>
    obtain ⟨rest, rfl, rfl⟩ := kept
    rw [placeFrom, Extent.add_sub_cancel]
  | cons e edits ih =>
    obtain ⟨start, ordered, later⟩ := sorted
    rw [placeFrom]
    rcases kept with ⟨rest, before, rfl, rfl⟩ | kept
    · split
      · rename_i ends
        rw [(newEnd_le_of_rest before start ends).1]
        exact ordered.trans (placeFrom_ge later)
      · rw [Extent.add_sub_cancel]
    · rw [if_pos (kept.le later).2]
      exact ih later kept

/-- What is kept behind a place is found there. -/
theorem KeptFrom.eq_placeFrom (sorted : SortedFrom stop edits)
    (keeps : KeptFrom (· < ·) stop newStop edits old new) :
    old = placeFrom stop newStop edits new := by
  induction edits generalizing stop newStop with
  | nil =>
    obtain ⟨rest, rfl, rfl⟩ := keeps
    rw [placeFrom, Extent.add_sub_cancel]
  | cons e edits ih =>
    obtain ⟨start, ordered, later⟩ := sorted
    rw [placeFrom]
    rcases keeps with ⟨rest, before, rfl, rfl⟩ | keeps
    · rw [if_neg, Extent.add_sub_cancel]
      intro ends
      exact before.ne (newEnd_le_of_rest before.le start ends).1
    · rw [if_pos (keeps.le later).2]
      exact ih later keeps

/-- Outside of the new texts the place found is kept. -/
theorem keptFrom_placeFrom (sorted : SortedFrom stop edits) (behind : newStop ≤ new)
    (outside : ¬InsideFrom stop newStop edits new) :
    KeptFrom (· ≤ ·) stop newStop edits (placeFrom stop newStop edits new) new := by
  induction edits generalizing stop newStop with
  | nil => exact ⟨new - newStop, rfl, (Extent.add_sub_of_le behind).symm⟩
  | cons e edits ih =>
    obtain ⟨start, ordered, later⟩ := sorted
    rw [InsideFrom, not_or, not_and_or, not_lt, not_lt] at outside
    rw [placeFrom]
    split
    · rename_i ends
      exact .inr (ih later ends outside.2)
    · rename_i notEnds
      have before := outside.1.resolve_right notEnds
      refine .inl ⟨new - newStop, ?_, rfl, (Extent.add_sub_of_le behind).symm⟩
      rw [newStart, ← Extent.add_sub_of_le behind, Extent.add_le_add_iff_left] at before
      have moved : stop + (new - newStop) ≤ stop + (e.startOffset - stop) :=
        Extent.add_le_add_iff_left.mpr before
      rwa [Extent.add_sub_of_le start] at moved

/-! ## Edits pushed at the end -/

/-- Where the last edit ends, before the edits and after them. -/
def endsFrom : (stop newStop : Extent) → List ExtentEdit → Extent × Extent
  | stop, newStop, [] => (stop, newStop)
  | stop, newStop, e :: edits => endsFrom e.endOffset (newEnd stop newStop e) edits

/-- The place is in a gap in front of an edit. -/
def GapFrom (within : Extent → Extent → Prop) :
    (stop newStop : Extent) → List ExtentEdit → (old new : Extent) → Prop
  | _, _, [], _, _ => False
  | stop, newStop, e :: edits, old, new =>
    (∃ rest, within (stop + rest) e.startOffset ∧ old = stop + rest ∧ new = newStop + rest) ∨
      GapFrom within e.endOffset (newEnd stop newStop e) edits old new

/-- How long a document of some length is after the edits. -/
def newTotal (edits : List ExtentEdit) (length : Extent) : Extent :=
  (endsFrom 0 0 edits).2 + (length - (endsFrom 0 0 edits).1)

theorem newTotal_of_eq {length rest : Extent} (isLength : length = (endsFrom 0 0 edits).1 + rest) :
    newTotal edits length = (endsFrom 0 0 edits).2 + rest := by
  rw [newTotal, isLength, Extent.add_sub_cancel]

@[simp] theorem newTotal_nil (length : Extent) : newTotal [] length = length :=
  Extent.add_sub_of_le (Extent.zero_le length)

theorem keptFrom_iff : KeptFrom within stop newStop edits old new ↔
    GapFrom within stop newStop edits old new ∨
      ∃ rest, old = (endsFrom stop newStop edits).1 + rest ∧
        new = (endsFrom stop newStop edits).2 + rest := by
  induction edits generalizing stop newStop with
  | nil => simp [KeptFrom, GapFrom, endsFrom]
  | cons e edits ih =>
    rw [KeptFrom, GapFrom, endsFrom, ih, or_assoc]

theorem endsFrom_concat (e : ExtentEdit) : endsFrom stop newStop (edits ++ [e]) =
    (e.endOffset, newEnd (endsFrom stop newStop edits).1 (endsFrom stop newStop edits).2 e) := by
  induction edits generalizing stop newStop with
  | nil => rfl
  | cons other edits ih =>
    rw [cons_append, endsFrom, ih, endsFrom]

theorem gapFrom_concat (e : ExtentEdit) : GapFrom within stop newStop (edits ++ [e]) old new ↔
    GapFrom within stop newStop edits old new ∨
      ∃ rest, within ((endsFrom stop newStop edits).1 + rest) e.startOffset ∧
        old = (endsFrom stop newStop edits).1 + rest ∧
        new = (endsFrom stop newStop edits).2 + rest := by
  induction edits generalizing stop newStop with
  | nil => simp [GapFrom, endsFrom]
  | cons other edits ih =>
    rw [cons_append, GapFrom, ih, GapFrom, or_assoc, endsFrom]

theorem sortedFrom_concat (e : ExtentEdit) : SortedFrom stop (edits ++ [e]) ↔
    SortedFrom stop edits ∧ (endsFrom stop newStop edits).1 ≤ e.startOffset ∧
      e.startOffset ≤ e.endOffset := by
  induction edits generalizing stop newStop with
  | nil => simp [SortedFrom, endsFrom]
  | cons other edits ih =>
    rw [cons_append, SortedFrom,
      @ih other.endOffset (newEnd stop newStop other), SortedFrom, endsFrom,
      and_assoc, and_assoc]

end ExtentEdit

end CodeEditor

import CodeEditor.Foundation.Text
import CodeEditor.Foundation.Patch

/-!
# Offset edits

Model of `OffsetRange` and `OffsetEdit` in `offsetRange.ts` and `offsetEdit.ts`. The two
constructors throw on reversed ranges and on edits that are not sorted; a throw is
`none`, and a range or an edit that was built carries the fact.
-/

namespace CodeEditor.Edits

/-! ## Ranges -/

structure OffsetRange where
  start : Int
  endExclusive : Int
  ordered : start ≤ endExclusive
  deriving DecidableEq

namespace OffsetRange

/-- The constructor. -/
def new (start endExclusive : Int) : Option OffsetRange :=
  if ordered : start ≤ endExclusive then some ⟨start, endExclusive, ordered⟩ else none

def ofStartAndLength (start length : Int) : Option OffsetRange := new start (start + length)

def delta (range : OffsetRange) (offset : Int) : Option OffsetRange :=
  new (range.start + offset) (range.endExclusive + offset)

def length (range : OffsetRange) : Int := range.endExclusive - range.start

def join (range other : OffsetRange) : Option OffsetRange :=
  new (min range.start other.start) (max range.endExclusive other.endExclusive)

end OffsetRange

/-! ## Edits -/

structure SingleOffsetEdit where
  replaceRange : OffsetRange
  newText : Text
  deriving DecidableEq

/-- `newText.length - replaceRange.length`. -/
def SingleOffsetEdit.growth (edit : SingleOffsetEdit) : Int :=
  edit.newText.length - edit.replaceRange.length

/-- No edit starts before the end of the one before it. -/
def Sorted : (lastEndEx : Int) → List SingleOffsetEdit → Prop
  | _, [] => True
  | lastEndEx, edit :: edits =>
    edit.replaceRange.start ≥ lastEndEx ∧ Sorted edit.replaceRange.endExclusive edits

instance decidableSorted : ∀ lastEndEx edits, Decidable (Sorted lastEndEx edits)
  | _, [] => isTrue trivial
  | _, edit :: edits =>
    have := decidableSorted edit.replaceRange.endExclusive edits
    inferInstanceAs (Decidable (_ ∧ _))

structure OffsetEdit where
  edits : List SingleOffsetEdit
  sorted : Sorted (-1) edits
  deriving DecidableEq

/-- `str.substring(start, stop)`; a negative offset counts as 0. -/
def substringBetween (str : Text) (start stop : Int) : Text :=
  substring str start.toNat stop.toNat

namespace OffsetEdit

/-- The constructor. -/
def new (edits : List SingleOffsetEdit) : Option OffsetEdit :=
  if sorted : Sorted (-1) edits then some ⟨edits, sorted⟩ else none

def isEmpty (e : OffsetEdit) : Bool := e.edits.length = 0

/-- The loop of `normalize`, with the edits pushed so far. -/
def normalizeLoop : List SingleOffsetEdit → (edits : List SingleOffsetEdit) →
    (lastEdit : Option SingleOffsetEdit) → Option (List SingleOffsetEdit)
  | [], edits, none => some edits
  | [], edits, some lastEdit => some (edits ++ [lastEdit])
  | edit :: rest, edits, lastEdit =>
    if edit.newText.length = 0 && edit.replaceRange.length = 0 then
      normalizeLoop rest edits lastEdit
    else
      match lastEdit with
      | none => normalizeLoop rest edits (some edit)
      | some last =>
        if last.replaceRange.endExclusive = edit.replaceRange.start then do
          let joined ← last.replaceRange.join edit.replaceRange
          normalizeLoop rest edits (some ⟨joined, last.newText ++ edit.newText⟩)
        else normalizeLoop rest (edits ++ [last]) (some edit)

def normalize (e : OffsetEdit) : Option OffsetEdit := do
  new (← normalizeLoop e.edits [] none)

/-- The loop of `apply`, with the text so far. -/
def applyLoop (str : Text) : List SingleOffsetEdit → (resultText : Text) → (pos : Int) → Text
  | [], resultText, pos => resultText ++ substringBetween str pos str.length
  | edit :: edits, resultText, pos =>
    applyLoop str edits
      (resultText ++ substringBetween str pos edit.replaceRange.start ++ edit.newText)
      edit.replaceRange.endExclusive

def apply (e : OffsetEdit) (str : Text) : Text := applyLoop str e.edits [] 0

/-- The loop of `inverse`, which shifts the edits by `offset`. -/
def inverseLoop (originalStr : Text) :
    List SingleOffsetEdit → (offset : Int) → Option (List SingleOffsetEdit)
  | [], _ => some []
  | e :: edits, offset => do
      let range ← OffsetRange.ofStartAndLength (e.replaceRange.start + offset)
        e.newText.length
      let rest ← inverseLoop originalStr edits (offset + e.growth)
      some (⟨range, substringBetween originalStr e.replaceRange.start
        e.replaceRange.endExclusive⟩ :: rest)

def inverse (e : OffsetEdit) (originalStr : Text) : Option OffsetEdit := do
  new (← inverseLoop originalStr e.edits 0)

end OffsetEdit

/-! ## Composition -/

/-- Copy over edits of the queue unmodified until one touches the second edit. -/
def copyUntouched (edit2 : SingleOffsetEdit) : (edit1Queue : List SingleOffsetEdit) →
    (edit1ToEdit2 : Int) → List SingleOffsetEdit × List SingleOffsetEdit × Int
  | [], edit1ToEdit2 => ([], [], edit1ToEdit2)
  | edit1 :: queue, edit1ToEdit2 =>
    if edit1.replaceRange.start + edit1ToEdit2 + edit1.newText.length ≥
        edit2.replaceRange.start then
      ([], edit1 :: queue, edit1ToEdit2)
    else
      let (copied, queue, edit1ToEdit2) :=
        copyUntouched edit2 queue (edit1ToEdit2 + edit1.growth)
      (edit1 :: copied, queue, edit1ToEdit2)

/-- Take the edits that the second edit touches off the queue, and remember the first
and the last of them. -/
def takeIntersecting (edit2 : SingleOffsetEdit) : (edit1Queue : List SingleOffsetEdit) →
    (edit1ToEdit2 : Int) → (intersecting : Option (SingleOffsetEdit × SingleOffsetEdit)) →
    Option (SingleOffsetEdit × SingleOffsetEdit) × List SingleOffsetEdit × Int
  | [], edit1ToEdit2, intersecting => (intersecting, [], edit1ToEdit2)
  | edit1 :: queue, edit1ToEdit2, intersecting =>
    if edit1.replaceRange.start + edit1ToEdit2 > edit2.replaceRange.endExclusive then
      (intersecting, edit1 :: queue, edit1ToEdit2)
    else
      takeIntersecting edit2 queue (edit1ToEdit2 + edit1.growth)
        (some (match intersecting with
          | none => (edit1, edit1)
          | some (first, _) => (first, edit1)))

/-- The part of the last edit behind the second edit goes back to the queue. -/
def requeueSuffix (edit2 last : SingleOffsetEdit) (edit1Queue : List SingleOffsetEdit)
    (edit1ToEdit2 : Int) : Option (List SingleOffsetEdit × Int) := do
  let suffixLength :=
    last.replaceRange.endExclusive + edit1ToEdit2 - edit2.replaceRange.endExclusive
  if suffixLength > 0 then
    let range ← OffsetRange.ofStartAndLength last.replaceRange.endExclusive 0
    let e : SingleOffsetEdit :=
      ⟨range, last.newText.drop (last.newText.length - suffixLength.toNat)⟩
    some (e :: edit1Queue, edit1ToEdit2 - e.growth)
  else some (edit1Queue, edit1ToEdit2)

/-- What the first edit inserts in front of the second edit. -/
def keptPrefix (edit2 first : SingleOffsetEdit) (firstEdit1ToEdit2 : Int) : Text :=
  let prefixLength := edit2.replaceRange.start - (first.replaceRange.start + firstEdit1ToEdit2)
  if prefixLength > 0 then first.newText.take prefixLength.toNat else []

/-- The edit that is pushed for a second edit, together with the edits that it touches. -/
def joinTouching (edit2 : SingleOffsetEdit) (edit1Queue : List SingleOffsetEdit)
    (firstEdit1ToEdit2 : Int) :
    Option (SingleOffsetEdit × List SingleOffsetEdit × Int) := do
  let (intersecting, edit1Queue, edit1ToEdit2) :=
    takeIntersecting edit2 edit1Queue firstEdit1ToEdit2 none
  match intersecting with
  | none =>
    let range ← edit2.replaceRange.delta (-edit1ToEdit2)
    some (⟨range, edit2.newText⟩, edit1Queue, edit1ToEdit2)
  | some (first, last) =>
    let kept := keptPrefix edit2 first firstEdit1ToEdit2
    let (edit1Queue, edit1ToEdit2) ← requeueSuffix edit2 last edit1Queue edit1ToEdit2
    let newReplaceRange ← OffsetRange.new
      (min first.replaceRange.start (edit2.replaceRange.start - firstEdit1ToEdit2))
      (edit2.replaceRange.endExclusive - edit1ToEdit2)
    some (⟨newReplaceRange, kept ++ edit2.newText⟩, edit1Queue, edit1ToEdit2)

/-- The body of the loop over the second edits: what is pushed, and the queue after. -/
def joinEdit (edit2 : SingleOffsetEdit) (edit1Queue : List SingleOffsetEdit)
    (edit1ToEdit2 : Int) :
    Option (List SingleOffsetEdit × List SingleOffsetEdit × Int) := do
  let (copied, edit1Queue, edit1ToEdit2) := copyUntouched edit2 edit1Queue edit1ToEdit2
  let (joined, edit1Queue, edit1ToEdit2) ← joinTouching edit2 edit1Queue edit1ToEdit2
  some (copied ++ [joined], edit1Queue, edit1ToEdit2)

/-- The loop over the second edits; what is left of the queue goes to the end. -/
def joinLoop : (edits2 : List SingleOffsetEdit) → (edit1Queue : List SingleOffsetEdit) →
    (edit1ToEdit2 : Int) → Option (List SingleOffsetEdit)
  | [], edit1Queue, _ => some edit1Queue
  | edit2 :: edits2, edit1Queue, edit1ToEdit2 => do
      let (pushed, edit1Queue, edit1ToEdit2) ← joinEdit edit2 edit1Queue edit1ToEdit2
      let rest ← joinLoop edits2 edit1Queue edit1ToEdit2
      some (pushed ++ rest)

def joinEdits (edits1 edits2 : OffsetEdit) : Option OffsetEdit := do
  let edits1 ← edits1.normalize
  let edits2 ← edits2.normalize
  if edits1.isEmpty then some edits2
  else if edits2.isEmpty then some edits1
  else
    let result ← OffsetEdit.new (← joinLoop edits2.edits edits1.edits 0)
    result.normalize

def OffsetEdit.compose (e other : OffsetEdit) : Option OffsetEdit := joinEdits e other

end CodeEditor.Edits

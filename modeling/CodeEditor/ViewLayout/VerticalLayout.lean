import CodeEditor.Foundation.Thresholds

/-!
# Vertical layouts

Lines of one height below a padding, with zones between them. A zone stands behind the line
`afterLineNumber` and pushes down what follows it.
-/

namespace CodeEditor.ViewLayout

open Thresholds List

/-- A view zone. -/
structure Zone where
  id : Nat
  afterLineNumber : Int
  height : Int
deriving DecidableEq, Repr

/-- The height of some zones together. -/
def totalHeight (zones : List Zone) : Int := (zones.map Zone.height).sum

/-- The height of the zones in front of a line. -/
def heightBefore (zones : List Zone) (lineNumber : Int) : Int :=
  totalHeight (zones.filter fun zone => zone.afterLineNumber < lineNumber)

/-- Zones from top to bottom, and the lines between them. -/
structure VerticalLayout where
  zones : List Zone
  sorted : zones.Pairwise fun a b => a.afterLineNumber ≤ b.afterLineNumber
  nonnegative : ∀ zone ∈ zones, 0 ≤ zone.afterLineNumber ∧ 0 ≤ zone.height
  lineCount : Int
  lineCount_nonnegative : 0 ≤ lineCount
  lineHeight : Int
  lineHeight_positive : 0 < lineHeight
  paddingTop : Int
  paddingBottom : Int

theorem totalHeight_append (first second : List Zone) :
    totalHeight (first ++ second) = totalHeight first + totalHeight second := by
  unfold totalHeight
  rw [map_append, sum_append]

theorem totalHeight_nonnegative {zones : List Zone}
    (nonnegative : ∀ zone ∈ zones, 0 ≤ zone.height) :
    0 ≤ totalHeight zones := by
  apply sum_nonneg
  intro height isMember
  obtain ⟨zone, isZone, rfl⟩ := mem_map.mp isMember
  exact nonnegative zone isZone

theorem totalHeight_perm {first second : List Zone} (same : first.Perm second) :
    totalHeight first = totalHeight second :=
  (same.map Zone.height).sum_eq

theorem heightBefore_perm {first second : List Zone} (same : first.Perm second)
    (lineNumber : Int) : heightBefore first lineNumber = heightBefore second lineNumber :=
  totalHeight_perm (same.filter _)

namespace VerticalLayout

variable (layout : VerticalLayout)

/-- The offset of a line: what stands above it. -/
def offset (lineNumber : Int) : Int :=
  layout.paddingTop + (lineNumber - 1) * layout.lineHeight +
    heightBefore layout.zones lineNumber

/-- The offset of a line, where the lines above the first one have no height. -/
def lineTop (lineNumber : Int) : Int :=
  layout.paddingTop + (if lineNumber > 1 then layout.lineHeight * (lineNumber - 1) else 0) +
    heightBefore layout.zones lineNumber

/-- The height of the first zones. -/
def heightOfFirst (count : Nat) : Int := totalHeight (layout.zones.take count)

/-- The offset of a zone with a number of zones above it. -/
def zoneTop (index : Nat) (zone : Zone) : Int :=
  layout.paddingTop + zone.afterLineNumber * layout.lineHeight + layout.heightOfFirst index

variable {layout} {lineNumber : Int}

theorem lineTop_eq_offset (isLine : 1 ≤ lineNumber) :
    layout.lineTop lineNumber = layout.offset lineNumber := by
  unfold lineTop offset
  split_ifs
  · ring
  · have isFirst : lineNumber = 1 := by omega
    subst isFirst
    ring

theorem heightOfFirst_succ {index : Nat} (isZone : layout.zones[index]? = some zone) :
    layout.heightOfFirst (index + 1) = layout.heightOfFirst index + zone.height := by
  unfold heightOfFirst
  rw [take_add_one, isZone, totalHeight_append]
  simp [totalHeight]

theorem heightOfFirst_mono {i j : Nat} (ordered : i ≤ j) :
    layout.heightOfFirst i ≤ layout.heightOfFirst j := by
  unfold heightOfFirst
  obtain ⟨count, rfl⟩ := Nat.exists_eq_add_of_le ordered
  rw [take_add, totalHeight_append]
  have : 0 ≤ totalHeight ((layout.zones.drop i).take count) :=
    totalHeight_nonnegative fun zone isZone =>
      (layout.nonnegative zone (mem_of_mem_drop (mem_of_mem_take isZone))).2
  omega

theorem heightOfFirst_nonnegative (count : Nat) : 0 ≤ layout.heightOfFirst count := by
  have := layout.heightOfFirst_mono (Nat.zero_le count)
  simpa [heightOfFirst, totalHeight] using this

theorem heightOfFirst_le (count : Nat) : layout.heightOfFirst count ≤ totalHeight layout.zones := by
  have := layout.heightOfFirst_mono (Nat.le_max_left count layout.zones.length)
  rwa [heightOfFirst, heightOfFirst,
    take_of_length_le (Nat.le_max_right count layout.zones.length)] at this

/-- The zones in front of a line come first. -/
theorem heightBefore_eq
    (splits : SplitsAt (fun zone : Zone => zone.afterLineNumber < lineNumber) layout.zones k) :
    heightBefore layout.zones lineNumber = layout.heightOfFirst k := by
  unfold heightBefore heightOfFirst
  rw [splits.filter_eq_take]

theorem afterLineNumber_le {i j : Nat} (ordered : i ≤ j)
    (isFirst : layout.zones[i]? = some first) (isSecond : layout.zones[j]? = some second) :
    first.afterLineNumber ≤ second.afterLineNumber := by
  obtain ⟨inFirst, rfl⟩ := List.getElem?_eq_some_iff.mp isFirst
  obtain ⟨inSecond, rfl⟩ := List.getElem?_eq_some_iff.mp isSecond
  rcases Nat.eq_or_lt_of_le ordered with rfl | before
  · exact le_rfl
  · exact List.pairwise_iff_getElem.mp layout.sorted i j inFirst inSecond before

variable (layout)

/-- Some number of zones stands in front of a line. -/
theorem exists_splitsAt (lineNumber : Int) : ∃ k ≤ layout.zones.length,
      SplitsAt (fun zone : Zone => zone.afterLineNumber < lineNumber) layout.zones k := by
  apply Thresholds.exists_splitsAt
  apply layout.sorted.imp
  intro a b ordered before
  omega

variable {layout}

theorem heightBefore_mono {first second : Int} (ordered : first ≤ second) :
    heightBefore layout.zones first ≤ heightBefore layout.zones second := by
  obtain ⟨k, insideFirst, splitsFirst⟩ := layout.exists_splitsAt first
  obtain ⟨l, _, splitsSecond⟩ := layout.exists_splitsAt second
  rw [heightBefore_eq splitsFirst, heightBefore_eq splitsSecond]
  apply heightOfFirst_mono
  by_contra behind
  have inside : l < layout.zones.length := by omega
  have isZone := getElem?_eq_getElem inside
  have isBefore := (splitsFirst l _ isZone).mpr (by omega)
  have := (splitsSecond l _ isZone).mp (by omega)
  omega

theorem heightBefore_nonnegative (lineNumber : Int) : 0 ≤ heightBefore layout.zones lineNumber := by
  obtain ⟨k, _, splits⟩ := layout.exists_splitsAt lineNumber
  rw [heightBefore_eq splits]
  exact heightOfFirst_nonnegative k

theorem heightBefore_le (lineNumber : Int) :
    heightBefore layout.zones lineNumber ≤ totalHeight layout.zones := by
  obtain ⟨k, _, splits⟩ := layout.exists_splitsAt lineNumber
  rw [heightBefore_eq splits]
  exact heightOfFirst_le k

/-- A line ends above the next one. -/
theorem offset_add_lineHeight_le {first second : Int} (before : first < second) :
    layout.offset first + layout.lineHeight ≤ layout.offset second := by
  have heights := layout.heightBefore_mono before.le
  have lines : (first - 1 + 1) * layout.lineHeight ≤ (second - 1) * layout.lineHeight :=
    mul_le_mul_of_nonneg_right (by omega) layout.lineHeight_positive.le
  rw [add_mul, one_mul] at lines
  unfold offset
  omega

/-- A zone ends above the next one. -/
theorem zoneTop_add_height_le {i j : Nat} (before : i < j)
    (isFirst : layout.zones[i]? = some first) (isSecond : layout.zones[j]? = some second) :
    layout.zoneTop i first + first.height ≤ layout.zoneTop j second := by
  have heights := layout.heightOfFirst_mono before
  rw [heightOfFirst_succ isFirst] at heights
  have lines : first.afterLineNumber * layout.lineHeight ≤
      second.afterLineNumber * layout.lineHeight :=
    mul_le_mul_of_nonneg_right (afterLineNumber_le before.le isFirst isSecond)
      layout.lineHeight_positive.le
  unfold zoneTop
  omega

/-- Behind the zones of a line comes the next line. -/
theorem offset_succ
    (splits : SplitsAt (fun zone : Zone => zone.afterLineNumber < lineNumber) layout.zones k)
    (splitsNext : SplitsAt (fun zone : Zone => zone.afterLineNumber < lineNumber + 1)
      layout.zones l) :
    layout.offset (lineNumber + 1) = layout.offset lineNumber + layout.lineHeight +
      (layout.heightOfFirst l - layout.heightOfFirst k) := by
  unfold offset
  rw [heightBefore_eq splits, heightBefore_eq splitsNext]
  ring

/-! ## Lines and zones at an offset -/

/-- The first line that ends behind an offset, or the last one. -/
def IsLineAt (layout : VerticalLayout) (verticalOffset lineNumber : Int) : Prop :=
  (1 ≤ lineNumber ∧ lineNumber ≤ layout.lineCount) ∧
    (∀ n, 1 ≤ n → n < lineNumber → layout.offset n + layout.lineHeight ≤ verticalOffset) ∧
    (verticalOffset < layout.offset lineNumber + layout.lineHeight ∨
      lineNumber = layout.lineCount)

/-- The numbers that the layout computes with are 32-bit integers. -/
structure Fits (layout : VerticalLayout) : Prop where
  lineCount : layout.lineCount < 2 ^ 31
  lines : ∀ zone ∈ layout.zones, zone.afterLineNumber < 2 ^ 31
  paddingTop : -2 ^ 31 ≤ layout.paddingTop
  heights : totalHeight layout.zones < 2 ^ 31
  total : layout.paddingTop + layout.lineHeight * layout.lineCount +
    totalHeight layout.zones < 2 ^ 31

end VerticalLayout

end CodeEditor.ViewLayout

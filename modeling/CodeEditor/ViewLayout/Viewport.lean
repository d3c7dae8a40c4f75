import CodeEditor.ViewLayout.PrefixSums

/-!
# Offsets of lines and zones

What the layout answers when nothing is pending, as offsets in the vertical layout that it shows.
-/

namespace CodeEditor.ViewLayout

open Reads Thresholds List Option

/-- Nothing is pending, and the zones, the lines and the paddings are those of a vertical
layout. -/
structure Shows (layout : VerticalLayout) (s : LinesLayout) : Prop where
  noPending : s.pendingChanges.hasPending = false
  zones : s.arr.map EditorWhitespace.zone = layout.zones
  sums : SumsTo s.arr s.prefixSumValidIndex
  low : -1 ≤ s.prefixSumValidIndex
  lineCount : s.lineCount = layout.lineCount
  lineHeight : s.lineHeight = layout.lineHeight
  paddingTop : s.paddingTop = layout.paddingTop
  paddingBottom : s.paddingBottom = layout.paddingBottom

variable {layout : VerticalLayout} {s : LinesLayout}

theorem Shows.checkPendingChanges (shows : Shows layout s) : s.checkPendingChanges = s := by
  exact if_neg (by simp [shows.noPending])

theorem Shows.length_arr (shows : Shows layout s) : s.arr.length = layout.zones.length := by
  rw [← shows.zones, length_map]

variable {index : Nat}

theorem Shows.getElem?_arr (shows : Shows layout s) (isZone : layout.zones[index]? = some zone) :
    ∃ whitespace, s.arr[index]? = some whitespace ∧ whitespace.zone = zone := by
  rw [← shows.zones, getElem?_map] at isZone
  exact map_eq_some_iff.mp isZone

/-- Prefix sums up to another index. -/
theorem Shows.accumulated (shows : Shows layout s)
    (isResult : LinesLayout.accumulate s.arr s.prefixSumValidIndex index = some changed) :
    Shows layout { s with
      arr := changed, prefixSumValidIndex := max s.prefixSumValidIndex index } := by
  obtain ⟨same, sums⟩ := LinesLayout.accumulate_spec shows.low shows.sums isResult
  exact { shows with
    zones := (map_zone_of_withoutSum same).trans shows.zones
    sums := sums
    low := shows.low.trans (le_max_left _ _) }

namespace LinesLayout

theorem yields_check : Yields (Shows layout) check () := by
  intro s shows
  refine ⟨s, ?_, shows⟩
  show some ((), s.checkPendingChanges) = some ((), s)
  rw [shows.checkPendingChanges]

section

variable {index : Nat} (isZone : layout.zones[index]? = some zone)

include isZone

/-- A property of a whitespace that its zone has. -/
theorem yields_whitespaceAt {A : Type} {read : EditorWhitespace → A} {value : Zone → A}
    (same : ∀ whitespace, read whitespace = value whitespace.zone) : Yields (Shows layout) (do
      check
      let whitespace ← whitespaceAt index
      return read whitespace) (value zone) := by
  apply yields_check.bind
  intro s shows
  obtain ⟨whitespace, isHere, rfl⟩ := shows.getElem?_arr isZone
  refine ⟨s, ?_, shows⟩
  rw [← same]
  simp [whitespaceAt, isHere]

theorem yields_getHeightForWhitespaceIndex :
    Yields (Shows layout) (getHeightForWhitespaceIndex index) zone.height :=
  yields_whitespaceAt isZone fun _ => rfl

theorem yields_getAfterLineNumberForWhitespaceIndex :
    Yields (Shows layout) (getAfterLineNumberForWhitespaceIndex index) zone.afterLineNumber :=
  yields_whitespaceAt isZone fun _ => rfl

theorem yields_getIdForWhitespaceIndex :
    Yields (Shows layout) (getIdForWhitespaceIndex index) zone.id :=
  yields_whitespaceAt isZone fun _ => rfl

end

theorem yields_getWhitespacesCount :
    Yields (Shows layout) getWhitespacesCount layout.zones.length := by
  apply yields_check.bind
  apply Yields.get_bind
  intro s shows
  rw [← shows.length_arr]
  exact Yields.pure _

theorem yields_getWhitespacesAccumulatedHeight (inside : index < layout.zones.length) :
    Yields (Shows layout) (getWhitespacesAccumulatedHeight index)
      (layout.heightOfFirst (index + 1)) := by
  apply yields_check.bind
  intro s shows
  have insideArr : index < s.arr.length := by rwa [shows.length_arr]
  obtain ⟨changed, isResult⟩ := isSome_iff_exists.mp
    (accumulate_isSome s.prefixSumValidIndex insideArr)
  have showsNow := shows.accumulated isResult
  obtain ⟨whitespace, isHere, _⟩ :=
    showsNow.getElem?_arr (getElem?_eq_getElem inside)
  refine ⟨_, ?_, showsNow⟩
  have sum := showsNow.sums index whitespace (le_max_right _ _) isHere
  rw [showsNow.zones] at sum
  simp [isResult, whitespaceAt, isHere, sum, VerticalLayout.heightOfFirst]

end LinesLayout

/-! ## The zones in front of a line -/

variable {arr : List EditorWhitespace}

theorem findLastWhitespaceLoop_spec {lineNumber : Int}
    (splits : SplitsAt (fun zone : Zone => zone.afterLineNumber < lineNumber)
      (arr.map EditorWhitespace.zone) k) (inside : k ≤ arr.length) {low stop : Nat}
    (lowIsBefore : low = 0 ∨ low < k) (stopIsBehind : k ≤ stop) (stopInside : stop ≤ arr.length) :
    findLastWhitespaceLoop arr lineNumber low stop = if k = 0 then none else some (k - 1) := by
  have isBefore : ∀ i whitespace, arr[i]? = some whitespace →
      (whitespace.afterLineNumber < lineNumber ↔ i < k) := by
    intro i whitespace isHere
    exact splits i whitespace.zone (by rw [getElem?_map, isHere]; rfl)
  fun_induction findLastWhitespaceLoop arr lineNumber low stop with
  | case1 low stop less mid isNone =>
    rw [getElem?_eq_none_iff] at isNone
    omega
  | case2 low stop less mid whitespace isHere before isLast =>
    rw [getElem?_eq_none_iff] at isLast
    have := (isBefore mid whitespace isHere).mp before
    rw [if_neg (by omega)]
    congr 1
    omega
  | case3 low stop less mid whitespace isHere before following isNext behind =>
    have := (isBefore mid whitespace isHere).mp before
    have := (isBefore (mid + 1) following isNext).not.mp (by omega)
    rw [if_neg (by omega)]
    congr 1
    omega
  | case4 low stop less mid whitespace isHere before following isNext notBehind ih =>
    apply ih _ stopIsBehind stopInside
    exact .inr ((isBefore (mid + 1) following isNext).mp (by omega))
  | case5 low stop less mid whitespace isHere notBefore ih =>
    have := (isBefore mid whitespace isHere).not.mp notBefore
    exact ih lowIsBefore (by omega) (by omega)
  | case6 low stop notLess =>
    rw [if_pos (by omega)]

theorem findLastWhitespaceBeforeLineNumber_spec (isInt : toInt32 lineNumber = lineNumber)
    (splits : SplitsAt (fun zone : Zone => zone.afterLineNumber < lineNumber)
      (arr.map EditorWhitespace.zone) k) (inside : k ≤ arr.length) :
    findLastWhitespaceBeforeLineNumber arr lineNumber =
      if k = 0 then none else some (k - 1) := by
  unfold findLastWhitespaceBeforeLineNumber
  rw [isInt]
  exact findLastWhitespaceLoop_spec splits inside (.inl rfl) inside le_rfl

namespace LinesLayout

theorem yields_getWhitespaceAccumulatedHeightBeforeLineNumber (layout : VerticalLayout)
    (isInt : toInt32 lineNumber = lineNumber) :
    Yields (Shows layout) (getWhitespaceAccumulatedHeightBeforeLineNumber lineNumber)
      (heightBefore layout.zones lineNumber) := by
  obtain ⟨k, inside, splits⟩ := layout.exists_splitsAt lineNumber
  apply yields_check.bind
  apply Yields.get_bind
  intro s shows
  rw [VerticalLayout.heightBefore_eq splits, isInt,
    findLastWhitespaceBeforeLineNumber_spec isInt (by rwa [shows.zones])
      (by rwa [shows.length_arr])]
  cases k with
  | zero => exact Yields.pure 0
  | succ k => exact yields_getWhitespacesAccumulatedHeight inside

/-- The offset of a line is where it stands in the vertical layout. -/
theorem yields_getVerticalOffsetForLineNumber (layout : VerticalLayout)
    (isInt : toInt32 lineNumber = lineNumber) :
    Yields (Shows layout) (getVerticalOffsetForLineNumber lineNumber false)
      (layout.lineTop lineNumber) := by
  apply yields_check.bind
  apply Yields.get_bind
  intro s shows
  simp only [isInt, Bool.false_eq_true, if_false, sub_zero]
  apply (yields_getWhitespaceAccumulatedHeightBeforeLineNumber layout isInt).bind
  have sum : (if lineNumber > 1 then s.lineHeight * (lineNumber - 1) else 0) +
      heightBefore layout.zones lineNumber + s.paddingTop = layout.lineTop lineNumber := by
    rw [shows.lineHeight, shows.paddingTop, VerticalLayout.lineTop]
    ring
  rw [← sum]
  exact Yields.pure _

theorem yields_getFirstWhitespaceIndexAfterLineNumber (isInt : toInt32 lineNumber = lineNumber)
    (splits : SplitsAt (fun zone : Zone => zone.afterLineNumber < lineNumber) layout.zones k)
    (inside : k ≤ layout.zones.length) :
    Yields (Shows layout) (getFirstWhitespaceIndexAfterLineNumber lineNumber)
      (if k < layout.zones.length then some k else none) := by
  apply yields_check.bind
  apply Yields.get_bind
  intro s shows
  have isFirst : findFirstWhitespaceAfterLineNumber s.arr lineNumber =
      if k < layout.zones.length then some k else none := by
    unfold findFirstWhitespaceAfterLineNumber
    rw [isInt, findLastWhitespaceBeforeLineNumber_spec isInt (by rwa [shows.zones])
      (by rwa [shows.length_arr]), shows.length_arr]
    cases k with
    | zero => rfl
    | succ k => rfl
  rw [isInt, isFirst]
  exact Yields.pure _

theorem yields_previousWhitespacesHeight (inside : index ≤ layout.zones.length) :
    Yields (Shows layout) (previousWhitespacesHeight index) (layout.heightOfFirst index) := by
  cases index with
  | zero =>
    exact Yields.pure 0
  | succ index => exact yields_getWhitespacesAccumulatedHeight inside

/-- The offset of a zone is where it stands in the vertical layout. -/
theorem yields_getVerticalOffsetForWhitespaceIndex (isZone : layout.zones[index]? = some zone) :
    Yields (Shows layout) (getVerticalOffsetForWhitespaceIndex index)
      (layout.zoneTop index zone) := by
  have inside := (List.getElem?_eq_some_iff.mp isZone).1
  apply yields_check.bind
  apply Yields.get_bind
  intro s shows
  apply (yields_getAfterLineNumberForWhitespaceIndex isZone).bind
  apply (yields_previousWhitespacesHeight inside.le).bind
  have sum : (if zone.afterLineNumber ≥ 1 then s.lineHeight * zone.afterLineNumber else 0) +
      layout.heightOfFirst index + s.paddingTop = layout.zoneTop index zone := by
    rw [shows.lineHeight, shows.paddingTop, VerticalLayout.zoneTop]
    split_ifs with isBehind
    · ring
    · have low := (layout.nonnegative zone (List.mem_of_getElem? isZone)).1
      have isZero : zone.afterLineNumber = 0 := by omega
      rw [isZero]
      ring
  rw [← sum]
  exact Yields.pure _

end LinesLayout

/-!
## Searching for an offset

The line and the zones at an offset. Zones without a height are in the searched list as well.
-/

variable {layout : VerticalLayout}

namespace LinesLayout

/-- The search finds the threshold of the slots that end above the offset. -/
theorem yields_searchSlot {invariant : LinesLayout → Prop} {slot : Nat → Reading (Int × Int)}
    {top height : Nat → Int} {verticalOffset : Int} {low high m : Nat}
    (isSlot : ∀ i, low ≤ i → i < high → Yields invariant (slot i) (top i, height i))
    (ordered : ∀ i j, low ≤ i → i < j → j < high → top i + height i ≤ top j)
    (threshold : ∀ i, low ≤ i → i < high → (top i + height i ≤ verticalOffset ↔ i < m))
    (isLow : low ≤ m) (isHigh : m ≤ high) :
    Yields invariant (searchSlot slot verticalOffset low high) m := by
  induction size : high - low using Nat.strong_induction_on generalizing low high with
  | _ size ih =>
    rw [searchSlot]
    by_cases less : low < high
    · rw [if_pos less]
      have isMid := threshold ((low + high) / 2) (by omega) (by omega)
      apply (isSlot ((low + high) / 2) (by omega) (by omega)).bind
      dsimp only
      split_ifs with isBehind isInside
      · apply ih (high - ((low + high) / 2 + 1)) (by omega) _ _ _ (isMid.mp isBehind) isHigh rfl
        · intro i above below
          exact isSlot i (by omega) below
        · intro i j above before below
          exact ordered i j (by omega) before below
        · intro i above below
          exact threshold i (by omega) below
      · have isHit : m = (low + high) / 2 := by
          by_contra differs
          have before : m < (low + high) / 2 := by
            omega
          have ends := ordered m ((low + high) / 2) isLow before (by omega)
          have := (threshold m isLow (by omega)).mp (by omega)
          omega
        rw [isHit]
        exact Yields.pure _
      · apply ih ((low + high) / 2 - low) (by omega) _ _ _ isLow
          (by have := isMid.not.mp isBehind; omega) rfl
        · intro i above below
          exact isSlot i above (by omega)
        · intro i j above before below
          exact ordered i j above before (by omega)
        · intro i above below
          exact threshold i above (by omega)
    · rw [if_neg less]
      have same : low = m := by omega
      rw [same]
      exact Yields.pure m

/-! ## Lines -/

theorem toInt32_lineTop (fits : layout.Fits) {lineNumber : Int}
    (isLast : lineNumber ≤ max 1 layout.lineCount) :
    toInt32 (layout.lineTop lineNumber) = layout.lineTop lineNumber := by
  have heights := layout.heightBefore_nonnegative lineNumber
  have total := layout.heightBefore_le lineNumber
  have low := fits.paddingTop
  have high := fits.total
  have positive := layout.lineHeight_positive
  have nonnegative := mul_nonneg positive.le layout.lineCount_nonnegative
  unfold VerticalLayout.lineTop
  split_ifs with isLater
  · have above : 0 ≤ layout.lineHeight * (lineNumber - 1) := mul_nonneg positive.le (by omega)
    have below : layout.lineHeight * (lineNumber - 1) ≤ layout.lineHeight * layout.lineCount :=
      mul_le_mul_of_nonneg_left (by omega) positive.le
    apply toInt32_eq <;> omega
  · apply toInt32_eq <;> omega

/-- The first line that ends behind the offset. -/
theorem yields_getLineNumberAtOrAfterVerticalOffset (fits : layout.Fits)
    (isNonempty : 1 ≤ layout.lineCount) (nonnegative : 0 ≤ truncate verticalOffset) :
    ∃ lineNumber, layout.IsLineAt (truncate verticalOffset) lineNumber ∧
      Yields (Shows layout) (getLineNumberAtOrAfterVerticalOffset verticalOffset) lineNumber := by
  have small := fits.lineCount
  obtain ⟨count, isCount⟩ := Int.eq_ofNat_of_zero_le layout.lineCount_nonnegative
  have falls : ∀ i j : Nat, 1 ≤ i → i < j → j < count →
      layout.offset j + layout.lineHeight ≤ truncate verticalOffset →
      layout.offset i + layout.lineHeight ≤ truncate verticalOffset := by
    intro i j _ before _ ends
    have := layout.offset_add_lineHeight_le (Int.ofNat_lt.mpr before)
    have := layout.lineHeight_positive
    omega
  obtain ⟨m, isLow, isHigh, threshold⟩ := exists_threshold (by omega) falls
  refine ⟨m, ⟨⟨by omega, by omega⟩, ?_, ?_⟩, ?_⟩
  · intro n isFirst before
    lift n to Nat using by omega
    exact (threshold n (by omega) (by omega)).mpr (by omega)
  · by_cases isLast : m = count
    · exact .inr (by omega)
    · have := (threshold m isLow (by omega)).not.mpr (lt_irrefl m)
      exact .inl (by omega)
  · apply yields_check.bind
    apply Yields.get_bind
    intro s shows
    have sameCount : toInt32 s.lineCount = (count : Int) := by
      rw [shows.lineCount, isCount, toInt32_eq (by omega) (by omega)]
    rw [if_neg (by omega), sameCount]
    have search : Yields (Shows layout) (searchSlot (lineSlot s.lineHeight)
        (truncate verticalOffset) 1 (count : Int).toNat) m := by
      apply @yields_searchSlot _ _ (fun i => layout.offset i) (fun _ => layout.lineHeight) _ _ _ _
        _ _ threshold isLow isHigh
      · intro i above below
        have isOffset := yields_getVerticalOffsetForLineNumber layout
          (toInt32_eq (show -2 ^ 31 ≤ (i : Int) by omega) (by omega))
        rw [shows.lineHeight]
        apply isOffset.bind
        rw [toInt32_lineTop fits (by omega), VerticalLayout.lineTop_eq_offset (by omega)]
        exact Yields.pure _
      · intro i j above before below
        exact layout.offset_add_lineHeight_le (Int.ofNat_lt.mpr before)
    apply search.bind
    rw [if_neg (by omega)]
    exact Yields.pure _

end LinesLayout

/-! ## Zones -/

/-- The zones with their offsets. -/
def VerticalLayout.placed (layout : VerticalLayout) : List ViewWhitespaceViewportData :=
  layout.zones.mapIdx fun index zone =>
    ⟨zone.id, zone.afterLineNumber, layout.zoneTop index zone, zone.height⟩

theorem getElem?_placed {index : Nat} (isData : layout.placed[index]? = some data) :
    ∃ zone, layout.zones[index]? = some zone ∧
      data = ⟨zone.id, zone.afterLineNumber, layout.zoneTop index zone, zone.height⟩ := by
  unfold VerticalLayout.placed at isData
  rw [getElem?_mapIdx] at isData
  obtain ⟨zone, isZone, rfl⟩ := map_eq_some_iff.mp isData
  exact ⟨zone, isZone, rfl⟩

theorem length_placed : layout.placed.length = layout.zones.length := length_mapIdx

/-- Zones end above the zones behind them. -/
theorem pairwise_placed : layout.placed.Pairwise fun a b =>
    a.verticalOffset + a.height ≤ b.verticalOffset ∧ 0 ≤ a.height ∧ 0 ≤ b.height := by
  apply pairwise_iff_getElem.mpr
  intro i j insideFirst insideSecond before
  obtain ⟨first, isFirst, sameFirst⟩ := getElem?_placed (getElem?_eq_getElem insideFirst)
  obtain ⟨second, isSecond, sameSecond⟩ := getElem?_placed (getElem?_eq_getElem insideSecond)
  rw [sameFirst, sameSecond]
  exact ⟨layout.zoneTop_add_height_le before isFirst isSecond,
    (layout.nonnegative first (mem_of_getElem? isFirst)).2,
    (layout.nonnegative second (mem_of_getElem? isSecond)).2⟩

theorem exists_splitsAt_placed (layout : VerticalLayout) (verticalOffset : Int) :
    ∃ k ≤ layout.zones.length, SplitsAt (fun data : ViewWhitespaceViewportData =>
        data.verticalOffset + data.height ≤ verticalOffset) layout.placed k := by
  rw [← length_placed]
  apply exists_splitsAt
  apply pairwise_placed.imp
  intro a b ordered ends
  omega

namespace LinesLayout

theorem yields_whitespaceSlot {index : Nat} (isData : layout.placed[index]? = some data) :
    Yields (Shows layout) (whitespaceSlot index) (data.verticalOffset, data.height) := by
  obtain ⟨zone, isZone, rfl⟩ := getElem?_placed isData
  apply (yields_getVerticalOffsetForWhitespaceIndex isZone).bind
  apply (yields_getHeightForWhitespaceIndex isZone).bind
  exact Yields.pure _

theorem yields_viewportDataAt {index : Nat} (isData : layout.placed[index]? = some data) :
    Yields (Shows layout) (viewportDataAt index) data := by
  obtain ⟨zone, isZone, rfl⟩ := getElem?_placed isData
  apply (yields_getVerticalOffsetForWhitespaceIndex isZone).bind
  apply (yields_getHeightForWhitespaceIndex isZone).bind
  apply (yields_getIdForWhitespaceIndex isZone).bind
  apply (yields_getAfterLineNumberForWhitespaceIndex isZone).bind
  exact Yields.pure _

/-- The first zone that ends behind the offset. -/
theorem yields_getWhitespaceIndexAtOrAfterVerticallOffset
    (splits : SplitsAt (fun data : ViewWhitespaceViewportData =>
      data.verticalOffset + data.height ≤ truncate verticalOffset) layout.placed k)
    (inside : k ≤ layout.zones.length) :
    Yields (Shows layout) (getWhitespaceIndexAtOrAfterVerticallOffset verticalOffset)
      (if k < layout.zones.length then some k else none) := by
  apply yields_check.bind
  apply yields_getWhitespacesCount.bind
  by_cases isEmpty : layout.zones.length = 0
  · rw [if_pos isEmpty, if_neg (by omega)]
    exact Yields.pure none
  · rw [if_neg isEmpty]
    have isData : ∀ i, i < layout.zones.length → ∃ data, layout.placed[i]? = some data := by
      intro i isInside
      rw [← length_placed] at isInside
      exact ⟨_, List.getElem?_eq_getElem isInside⟩
    obtain ⟨last, isLast⟩ := isData (layout.zones.length - 1) (by omega)
    apply (yields_whitespaceSlot isLast).bind
    dsimp only
    by_cases allAbove : truncate verticalOffset ≥ last.verticalOffset + last.height
    · have := (splits _ last isLast).mp allAbove
      rw [if_pos allAbove, if_neg (by omega)]
      exact Yields.pure none
    · have lastIsBehind := (splits _ last isLast).not.mp allAbove
      rw [if_neg allAbove, if_pos (by omega)]
      have search : Yields (Shows layout) (searchSlot whitespaceSlot (truncate verticalOffset) 0
          (layout.zones.length - 1)) k := by
        have at' : ∀ i, i < layout.zones.length → layout.placed[i]? =
            some (layout.placed.getD i ⟨0, 0, 0, 0⟩) := by
          intro i isInside
          obtain ⟨data, isHere⟩ := isData i isInside
          rw [List.getD_eq_getElem?_getD, isHere]
          rfl
        apply @yields_searchSlot _ _ (fun i => (layout.placed.getD i ⟨0, 0, 0, 0⟩).verticalOffset)
          (fun i => (layout.placed.getD i ⟨0, 0, 0, 0⟩).height)
          _ _ _ _ _ _ _ (Nat.zero_le k) (by omega)
        · intro i _ below
          exact yields_whitespaceSlot (at' i (by omega))
        · intro i j _ before below
          obtain ⟨insideFirst, isFirst⟩ := List.getElem?_eq_some_iff.mp (at' i (by omega))
          obtain ⟨insideSecond, isSecond⟩ := List.getElem?_eq_some_iff.mp (at' j (by omega))
          rw [← isFirst, ← isSecond]
          exact (List.pairwise_iff_getElem.mp pairwise_placed i j insideFirst insideSecond before).1
        · intro i _ below
          exact splits i _ (at' i (by omega))
      apply search.bind
      exact Yields.pure _

theorem yields_whitespacesFrom {count i : Nat} (inside : i + count = layout.zones.length) :
    Yields (Shows layout) (whitespacesFrom verticalOffset2 count i)
      ((layout.placed.drop i).takeWhile fun data => data.verticalOffset < verticalOffset2) := by
  induction count generalizing i with
  | zero =>
    rw [drop_of_length_le (by rw [length_placed]; omega)]
    exact Yields.pure []
  | succ count ih =>
    have insideHere : i < layout.placed.length := by rw [length_placed]; omega
    rw [drop_eq_getElem_cons insideHere, whitespacesFrom]
    apply (yields_viewportDataAt (getElem?_eq_getElem insideHere)).bind
    by_cases isBelow : layout.placed[i].verticalOffset ≥ verticalOffset2
    · rw [if_pos isBelow, takeWhile_cons_of_neg (by simpa using isBelow)]
      exact Yields.pure []
    · rw [if_neg isBelow, takeWhile_cons_of_pos (by simpa using isBelow)]
      apply (ih (by omega)).bind
      exact Yields.pure _

/-- The zones between two offsets. -/
theorem yields_getWhitespaceViewportData (verticalOffset1 verticalOffset2 : Rat) :
    Yields (Shows layout) (getWhitespaceViewportData verticalOffset1 verticalOffset2)
      (layout.placed.filter fun data =>
        ¬data.verticalOffset + data.height ≤ truncate verticalOffset1 ∧
          data.verticalOffset < truncate verticalOffset2) := by
  obtain ⟨k, inside, splits⟩ := exists_splitsAt_placed layout (truncate verticalOffset1)
  rw [splits.filter_not_and, ← takeWhile_eq_filter]
  · apply yields_check.bind
    apply (yields_getWhitespaceIndexAtOrAfterVerticallOffset (by rwa [truncate_intCast,
      toInt32_truncate]) inside).bind
    apply yields_getWhitespacesCount.bind
    by_cases less : k < layout.zones.length
    · rw [if_pos less]
      exact yields_whitespacesFrom (by omega)
    · rw [if_neg less, drop_of_length_le (by rw [length_placed]; omega)]
      exact Yields.pure []
  · apply (pairwise_placed.drop).imp
    intro a b ordered isAbove
    omega

end LinesLayout

end CodeEditor.ViewLayout

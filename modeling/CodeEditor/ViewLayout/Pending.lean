import CodeEditor.ViewLayout.PrefixSums

/-!
# Pending changes

A batch of pending changes does to the zones what its calls do one after the other, whether it
is applied to the array or the array is built anew.
-/

namespace CodeEditor.ViewLayout

open List

/-! ## Changes of zones -/

def settleZone (changes : List PendingChange) (zone : Zone) : Zone :=
  match changeOf changes zone.id with
  | none => zone
  | some change => { zone with
      afterLineNumber := change.newAfterLineNumber, height := change.newHeight }

/-- The zones when a batch has been applied. -/
def settle (changes : List PendingChange) (removes : List PendingRemove) (zones : List Zone) :
    List Zone :=
  (zones.filter fun zone => !removes.any fun remove => remove.id == zone.id).map
    (settleZone changes)

/-- One change of one zone. -/
def changeZone (change : PendingChange) (zone : Zone) : Zone :=
  if zone.id = change.id then { zone with
    afterLineNumber := change.newAfterLineNumber, height := change.newHeight }
  else zone

variable {changes : List PendingChange} {removes : List PendingRemove} {zones : List Zone}

theorem map_zone_applyRemoveAndChange (whitespaces : List EditorWhitespace) :
    (applyRemoveAndChange changes removes whitespaces).map EditorWhitespace.zone =
      settle changes removes (whitespaces.map EditorWhitespace.zone) := by
  unfold applyRemoveAndChange settle
  rw [filter_map, map_map, map_map]
  apply map_congr_left
  intro whitespace _
  unfold Function.comp applyChange settleZone EditorWhitespace.zone
  cases changeOf changes whitespace.id <;> rfl

theorem settle_nil (zones : List Zone) : settle [] [] zones = zones := by
  unfold settle
  rw [filter_eq_self.mpr (by simp)]
  exact map_id zones

theorem settle_append (first second : List Zone) : settle changes removes (first ++ second) =
      settle changes removes first ++ settle changes removes second := by
  unfold settle
  rw [filter_append, map_append]

theorem settleZone_id (zone : Zone) : (settleZone changes zone).id = zone.id := by
  unfold settleZone
  cases changeOf changes zone.id <;> rfl

theorem changeOf_append (change : PendingChange) (id : Nat) :
    changeOf (changes ++ [change]) id = if change.id = id then some change
      else changeOf changes id := by
  unfold changeOf
  rw [reverse_append, reverse_singleton, singleton_append, find?_cons]
  by_cases same : change.id = id
  · simp [same]
  · have differs : (change.id == id) = false := by simpa using same
    rw [differs, if_neg same]

theorem settleZone_append (change : PendingChange) (zone : Zone) :
    settleZone (changes ++ [change]) zone = changeZone change (settleZone changes zone) := by
  unfold changeZone
  rw [settleZone_id]
  unfold settleZone
  rw [changeOf_append]
  by_cases same : change.id = zone.id
  · rw [if_pos same, if_pos same.symm]
  · rw [if_neg same, if_neg (Ne.symm same)]

/-- One more change. -/
theorem settle_change (change : PendingChange) : settle (changes ++ [change]) removes zones =
      (settle changes removes zones).map (changeZone change) := by
  unfold settle
  rw [map_map]
  apply map_congr_left
  intro zone _
  exact settleZone_append change zone

/-- One more removal. -/
theorem settle_remove (remove : PendingRemove) : settle changes (removes ++ [remove]) zones =
      (settle changes removes zones).filter fun zone => zone.id ≠ remove.id := by
  unfold settle
  rw [filter_map, filter_filter]
  congr 1
  apply filter_congr
  intro zone _
  rw [any_append, Bool.not_or, Bool.and_comm]
  congr 1
  show (!([remove].any fun remove => remove.id == zone.id)) =
    decide ((settleZone changes zone).id ≠ remove.id)
  rw [settleZone_id]
  by_cases same : remove.id = zone.id
  · simp [same]
  · simp [same, Ne.symm same]

/-- A zone that no change names is inserted. -/
theorem settle_fresh {zone : Zone} (notChanged : ∀ change ∈ changes, change.id ≠ zone.id)
    (notRemoved : ∀ remove ∈ removes, remove.id ≠ zone.id) :
    settle changes removes [zone] = [zone] := by
  have kept : (!removes.any fun remove => remove.id == zone.id) = true := by
    simpa using notRemoved
  have unchanged : changeOf changes zone.id = none := by
    unfold changeOf
    rw [find?_eq_none]
    intro change isMember
    simpa using notChanged change (mem_reverse.mp isMember)
  unfold settle
  rw [filter_singleton, kept]
  simp [settleZone, unchanged]

/-! ## One change of the array -/

variable {arr : List EditorWhitespace} {index id : Nat}

theorem findWhitespaceIndex_none (isNone : findWhitespaceIndex arr id = none) :
    ∀ zone ∈ arr.map EditorWhitespace.zone, zone.id ≠ id := by
  intro zone isZone
  obtain ⟨whitespace, isMember, rfl⟩ := mem_map.mp isZone
  have differs : whitespace.id ≠ id := by
    simpa using findIdx?_eq_none_iff.mp isNone whitespace isMember
  exact differs

/-- The whitespace with an id, and all the others. -/
theorem findWhitespaceIndex_some (ids : (arr.map EditorWhitespace.id).Nodup)
    (isIndex : findWhitespaceIndex arr id = some index) :
    ∃ whitespace, arr[index]? = some whitespace ∧ whitespace.id = id ∧
      arr.Perm (whitespace :: arr.eraseIdx index) ∧
      ∀ zone ∈ (arr.eraseIdx index).map EditorWhitespace.zone, zone.id ≠ id := by
  obtain ⟨inside, isId, _⟩ := findIdx?_eq_some_iff_getElem.mp isIndex
  have same : arr[index].id = id := by simpa using isId
  have isPerm : arr.Perm (arr[index] :: arr.eraseIdx index) :=
    (getElem_cons_eraseIdx_perm inside).symm
  refine ⟨arr[index], getElem?_eq_getElem inside, same, isPerm, ?_⟩
  intro zone isZone
  obtain ⟨whitespace, isMember, rfl⟩ := mem_map.mp isZone
  have distinct := ((isPerm.map EditorWhitespace.id).nodup_iff.mp ids)
  rw [map_cons, nodup_cons, same] at distinct
  intro isSame
  exact distinct.1 (isSame ▸ mem_map_of_mem isMember)

theorem map_changeZone_of_ne {change : PendingChange}
    (differ : ∀ zone ∈ zones, zone.id ≠ change.id) :
    zones.map (changeZone change) = zones := by
  conv_rhs => rw [← map_id zones]
  apply map_congr_left
  intro zone isMember
  exact if_neg (differ zone isMember)

/-- The layout with another array of whitespaces. -/
structure Rearranged (layout changed : LinesLayout) (zones : List Zone) : Prop where
  frame : changed = { layout with
    arr := changed.arr, prefixSumValidIndex := changed.prefixSumValidIndex,
    minWidth := changed.minWidth }
  kept : Kept changed.arr changed.prefixSumValidIndex
  zones : (changed.arr.map EditorWhitespace.zone).Perm zones

namespace LinesLayout

variable {layout : LinesLayout}

section

variable (kept : Kept layout.arr layout.prefixSumValidIndex)

include kept

theorem insertWhitespace_rearranged (whitespace : EditorWhitespace) :
    Rearranged layout (layout.insertWhitespace whitespace)
      (whitespace.zone :: layout.arr.map EditorWhitespace.zone) := by
  obtain ⟨keptNow, isPerm⟩ := kept.insert whitespace
  exact ⟨rfl, keptNow, isPerm.map EditorWhitespace.zone⟩

theorem removeOneWhitespace_rearranged (ids : (layout.arr.map EditorWhitespace.id).Nodup)
    (remove : PendingRemove) : Rearranged layout (layout.removeOneWhitespace remove)
      ((layout.arr.map EditorWhitespace.zone).filter fun zone => zone.id ≠ remove.id) := by
  unfold removeOneWhitespace
  cases found : findWhitespaceIndex layout.arr remove.id with
  | none =>
    refine ⟨rfl, kept, ?_⟩
    rw [filter_eq_self.mpr]
    intro zone isZone
    simpa using findWhitespaceIndex_none found zone isZone
  | some index =>
    obtain ⟨whitespace, _, isId, isPerm, others⟩ := findWhitespaceIndex_some ids found
    refine ⟨rfl, kept.remove index, ?_⟩
    have zones := (isPerm.map EditorWhitespace.zone).filter fun zone => zone.id ≠ remove.id
    have rest : (((layout.arr.eraseIdx index).map EditorWhitespace.zone).filter
        fun zone => zone.id ≠ remove.id) =
        (layout.arr.eraseIdx index).map EditorWhitespace.zone :=
      filter_eq_self.mpr (by simpa using others)
    rw [map_cons, filter_cons_of_neg (by simp [EditorWhitespace.zone, isId]), rest] at zones
    exact zones.symm

/-- The first half of `_changeOneWhitespace`. -/
theorem resize_rearranged {index : Nat} (isHere : layout.arr[index]? = some whitespace)
    (newHeight : Int) :
    let resized := if whitespace.height ≠ newHeight then layout.changeHeight index newHeight
      else layout
    Rearranged layout resized ({ whitespace.zone with height := newHeight } ::
        (layout.arr.eraseIdx index).map EditorWhitespace.zone) ∧
      resized.arr.eraseIdx index = layout.arr.eraseIdx index := by
  obtain ⟨inside, rfl⟩ := List.getElem?_eq_some_iff.mp isHere
  intro resized
  by_cases differs : layout.arr[index].height ≠ newHeight
  · have isResized : resized = layout.changeHeight index newHeight := if_pos differs
    rw [isResized]
    have parts : (layout.changeHeight index newHeight).arr = layout.arr.take index ++
        { layout.arr[index] with height := newHeight } :: layout.arr.drop (index + 1) :=
      List.modify_eq_take_cons_drop inside
    have erased : (layout.changeHeight index newHeight).arr.eraseIdx index =
        layout.arr.eraseIdx index :=
      List.eraseIdx_modify_of_eq _ index layout.arr
    refine ⟨⟨rfl, kept.changeHeight index newHeight, ?_⟩, erased⟩
    rw [parts, List.eraseIdx_eq_take_drop_succ]
    exact List.perm_middle.map EditorWhitespace.zone
  · have isResized : resized = layout := if_neg differs
    rw [isResized]
    refine ⟨⟨rfl, kept, ?_⟩, rfl⟩
    have same : ({ layout.arr[index].zone with height := newHeight } : Zone) =
        layout.arr[index].zone := by
      rw [← not_not.mp differs]
      rfl
    rw [same]
    exact (List.getElem_cons_eraseIdx_perm inside).symm.map EditorWhitespace.zone

theorem changeOneWhitespace_rearranged (ids : (layout.arr.map EditorWhitespace.id).Nodup)
    (change : PendingChange) : Rearranged layout (layout.changeOneWhitespace change)
      ((layout.arr.map EditorWhitespace.zone).map (changeZone change)) := by
  unfold changeOneWhitespace
  cases found : findWhitespaceIndex layout.arr change.id with
  | none =>
    refine ⟨rfl, kept, ?_⟩
    rw [map_changeZone_of_ne (findWhitespaceIndex_none found)]
  | some index =>
    obtain ⟨whitespace, isHere, isId, isPerm, others⟩ := findWhitespaceIndex_some ids found
    have zones := (isPerm.map EditorWhitespace.zone).map (changeZone change)
    rw [map_cons, map_cons, map_changeZone_of_ne others] at zones
    have isChanged : changeZone change whitespace.zone =
        ⟨whitespace.id, change.newAfterLineNumber, change.newHeight⟩ := if_pos isId
    rw [isChanged] at zones
    have resize := resize_rearranged kept isHere change.newHeight
    dsimp only at resize ⊢
    rw [isHere]
    dsimp only
    generalize (if whitespace.height ≠ change.newHeight then
      layout.changeHeight index change.newHeight else layout) = next at resize ⊢
    obtain ⟨resized, erased⟩ := resize
    by_cases differs : whitespace.afterLineNumber ≠ change.newAfterLineNumber
    · rw [if_pos differs]
      have removed : Kept (next.removeWhitespace index).arr
          (next.removeWhitespace index).prefixSumValidIndex := resized.kept.remove index
      have inserted := insertWhitespace_rearranged removed { whitespace with
        height := change.newHeight, afterLineNumber := change.newAfterLineNumber }
      refine ⟨?_, inserted.kept, ?_⟩
      · rw [resized.frame]
        rfl
      · apply inserted.zones.trans
        rw [show (next.removeWhitespace index).arr = layout.arr.eraseIdx index from erased]
        exact zones.symm
    · rw [if_neg differs]
      refine ⟨resized.frame, resized.kept, resized.zones.trans ?_⟩
      rw [← not_not.mp differs] at zones
      exact zones.symm

end

end LinesLayout

/-!
## Commits

A commit keeps the zones that the layout stands for, whichever way it takes.
-/

/-- The layout stands for some zones: those of the array, when the pending changes have been
made. -/
structure Represents (zones : List Zone) (layout : LinesLayout) : Prop where
  kept : Kept layout.arr layout.prefixSumValidIndex
  noPending : layout.pendingChanges.hasPending = false → layout.pendingChanges = .empty
  ids : ((layout.arr ++ layout.pendingChanges.inserts).map EditorWhitespace.id).Nodup
  ids_le : ∀ id ∈ (layout.arr ++ layout.pendingChanges.inserts).map EditorWhitespace.id,
    id ≤ layout.lastWhitespaceId
  changes_le : ∀ change ∈ layout.pendingChanges.changes, change.id ≤ layout.lastWhitespaceId
  removes_le : ∀ remove ∈ layout.pendingChanges.removes, remove.id ≤ layout.lastWhitespaceId
  zones : (settle layout.pendingChanges.changes layout.pendingChanges.removes
    ((layout.arr ++ layout.pendingChanges.inserts).map EditorWhitespace.zone)).Perm zones

theorem map_id_zone (whitespaces : List EditorWhitespace) :
    (whitespaces.map EditorWhitespace.zone).map Zone.id = whitespaces.map EditorWhitespace.id := by
  rw [map_map]
  rfl

/-- A batch has no new ids. -/
theorem map_id_settle (changes : List PendingChange) (removes : List PendingRemove)
    (zones : List Zone) :
    ((settle changes removes zones).map Zone.id).Sublist (zones.map Zone.id) := by
  have ids : (settle changes removes zones).map Zone.id =
      (zones.filter fun zone => !removes.any fun remove => remove.id == zone.id).map Zone.id := by
    unfold settle
    rw [map_map]
    apply map_congr_left
    intro zone _
    exact settleZone_id zone
  rw [ids]
  exact filter_sublist.map Zone.id

namespace LinesLayout

variable {layout : LinesLayout} {inserts : List EditorWhitespace} {changes : List PendingChange}
  {removes : List PendingRemove}

theorem commitOne_rearranged (kept : Kept layout.arr layout.prefixSumValidIndex)
    (ids : ((layout.arr ++ inserts).map EditorWhitespace.id).Nodup)
    (single : inserts.length + changes.length + removes.length ≤ 1) :
    Rearranged layout (layout.commitOne inserts changes removes)
      (settle changes removes ((layout.arr ++ inserts).map EditorWhitespace.zone)) := by
  have idsOfArr : (layout.arr.map EditorWhitespace.id).Nodup := by
    rw [map_append] at ids
    exact ids.of_append_left
  rcases inserts with _ | ⟨whitespace, _ | _⟩ <;> rcases changes with _ | ⟨change, _ | _⟩ <;>
    rcases removes with _ | ⟨remove, _ | _⟩ <;>
    try (simp only [length_cons, length_nil] at single; omega)
  · refine ⟨rfl, kept, ?_⟩
    rw [settle_nil, append_nil]
    exact List.Perm.refl _
  · have removed := removeOneWhitespace_rearranged kept idsOfArr remove
    rw [append_nil, ← nil_append [remove], settle_remove, settle_nil]
    exact removed
  · have changed := changeOneWhitespace_rearranged kept idsOfArr change
    rw [append_nil, ← nil_append [change], settle_change, settle_nil]
    exact changed
  · have inserted := insertWhitespace_rearranged kept whitespace
    refine ⟨inserted.frame, inserted.kept, inserted.zones.trans ?_⟩
    rw [settle_nil, map_append]
    exact (perm_append_singleton _ _).symm

theorem rebuild_rearranged (layout : LinesLayout) (inserts : List EditorWhitespace)
    (changes : List PendingChange) (removes : List PendingRemove) :
    Rearranged layout (layout.rebuild inserts changes removes)
      (settle changes removes ((layout.arr ++ inserts).map EditorWhitespace.zone)) := by
  refine ⟨rfl, Kept.sort _, ?_⟩
  rw [map_append, settle_append, ← map_zone_applyRemoveAndChange,
    ← map_zone_applyRemoveAndChange, ← map_append]
  exact (mergeSort_perm _ _).map EditorWhitespace.zone

theorem commitPendingChanges_rearranged (kept : Kept layout.arr layout.prefixSumValidIndex)
    (ids : ((layout.arr ++ inserts).map EditorWhitespace.id).Nodup) :
    Rearranged layout (layout.commitPendingChanges inserts changes removes)
      (settle changes removes ((layout.arr ++ inserts).map EditorWhitespace.zone)) := by
  unfold commitPendingChanges
  have noWidth : ∀ {changed : LinesLayout} {zones : List Zone},
      Rearranged { layout with minWidth := -1 } changed zones →
        Rearranged layout changed zones :=
    fun rearranged => ⟨rearranged.frame, rearranged.kept, rearranged.zones⟩
  dsimp only
  split_ifs with single isWider isWider
  · have rearranged := @commitOne_rearranged { layout with minWidth := -1 } _ _ _ kept ids single
    exact noWidth rearranged
  · exact commitOne_rearranged kept ids single
  · exact noWidth (rebuild_rearranged { layout with minWidth := -1 } inserts changes removes)
  · exact rebuild_rearranged layout inserts changes removes

theorem checkPendingChanges_of_not (noPending : layout.pendingChanges.hasPending = false) :
    layout.checkPendingChanges = layout :=
  if_neg (by simp [noPending])

/-- The commit leaves nothing pending, and the zones as they are. -/
theorem checkPendingChanges_represents (represents : Represents zones layout) :
    Represents zones layout.checkPendingChanges ∧ layout.checkPendingChanges = { layout with
        pendingChanges := .empty
        arr := layout.checkPendingChanges.arr
        prefixSumValidIndex := layout.checkPendingChanges.prefixSumValidIndex
        minWidth := layout.checkPendingChanges.minWidth } := by
  cases hasPending : layout.pendingChanges.hasPending with
  | false =>
    rw [checkPendingChanges_of_not hasPending]
    refine ⟨represents, ?_⟩
    rw [← represents.noPending hasPending]
  | true =>
    have isCommit : layout.checkPendingChanges =
        { layout with pendingChanges := .empty }.commitPendingChanges
          layout.pendingChanges.inserts layout.pendingChanges.changes
          layout.pendingChanges.removes := if_pos hasPending
    have rearranged := @commitPendingChanges_rearranged
      { layout with pendingChanges := .empty } layout.pendingChanges.inserts
      layout.pendingChanges.changes layout.pendingChanges.removes represents.kept represents.ids
    rw [← isCommit] at rearranged
    have frame := rearranged.frame
    have ids := rearranged.zones.map Zone.id
    rw [map_id_zone] at ids
    have fewer := map_id_settle layout.pendingChanges.changes layout.pendingChanges.removes
      ((layout.arr ++ layout.pendingChanges.inserts).map EditorWhitespace.zone)
    rw [map_id_zone] at fewer
    refine ⟨?_, frame⟩
    rw [frame]
    refine ⟨rearranged.kept, fun _ => rfl, ?_, ?_, ?_, ?_, ?_⟩
    · dsimp only [PendingChanges.empty]
      rw [append_nil]
      exact ids.nodup_iff.mpr (represents.ids.sublist fewer)
    · intro id isMember
      dsimp only [PendingChanges.empty] at isMember
      rw [append_nil] at isMember
      exact represents.ids_le id (fewer.subset (ids.subset isMember))
    · intro change isMember
      exact absurd isMember not_mem_nil
    · intro remove isMember
      exact absurd isMember not_mem_nil
    · dsimp only [PendingChanges.empty]
      rw [settle_nil, append_nil]
      exact rearranged.zones.trans represents.zones

end LinesLayout

end CodeEditor.ViewLayout

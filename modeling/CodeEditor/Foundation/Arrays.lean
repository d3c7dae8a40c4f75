import Mathlib

/-!
# Checks and searches in arrays

`checkAdjacentItems` of `assert.ts`, and the binary searches `findLastIdxMonotonous` and
`findFirstIdxMonotonousOrArrLen` of `arraysFind.ts`.
-/

namespace CodeEditor

open List Option

/-- Every item and the item behind it meet the predicate. -/
def checkAdjacentItems {α : Type} (predicate : α → α → Bool) : List α → Bool
  | [] => true
  | [_] => true
  | a :: b :: items => predicate a b && checkAdjacentItems predicate (b :: items)

variable {α : Type}

theorem checkAdjacentItems_iff {predicate : α → α → Bool} {items : List α} :
    checkAdjacentItems predicate items = true ↔ items.IsChain fun a b => predicate a b = true := by
  induction items with
  | nil => simp [checkAdjacentItems]
  | cons a items ih =>
    cases items with
    | nil => simp [checkAdjacentItems]
    | cons b items =>
      rw [checkAdjacentItems, Bool.and_eq_true, ih, isChain_cons_cons]

/-- The loop of `findLastIdxMonotonous`: the index behind the last item that matches. -/
def findIdxBehindLast {α : Type} (array : List α) (predicate : α → Bool) (i j : Nat) : Nat :=
  if i < j then
    let k := (i + j) / 2
    if (array[k]?).any predicate then findIdxBehindLast array predicate (k + 1) j
    else findIdxBehindLast array predicate i k
  else i
termination_by j - i

/-- `findLastIdxMonotonous`, from the start to the end of the array. -/
def findLastIdxMonotonous {α : Type} (array : List α) (predicate : α → Bool) : Int :=
  findIdxBehindLast array predicate 0 array.length - 1

/-- The search finds the boundary of a predicate that holds in front of it only. -/
theorem findIdxBehindLast_eq {array : List α} {predicate : α → Bool} {bound : Nat}
    (holds : ∀ k < bound, (array[k]?).any predicate = true)
    (fails : ∀ k, bound ≤ k → (array[k]?).any predicate = false) {i j : Nat} (before : i ≤ bound)
    (behind : bound ≤ j) : findIdxBehindLast array predicate i j = bound := by
  fun_induction findIdxBehindLast array predicate i j with
  | case1 i j less k matching ih =>
    apply ih _ behind
    by_contra beyond
    have fail := fails k (by omega)
    rw [matching] at fail
    cases fail
  | case2 i j less k failing ih =>
    apply ih before
    by_contra short
    exact failing (holds k (by omega))
  | case3 i j notLess => omega

/-- `findLastMonotonous`: the last item that matches. -/
def findLastMonotonous {α : Type} (array : List α) (predicate : α → Bool) : Option α :=
  let idx := findLastIdxMonotonous array predicate
  if idx = -1 then none else array[idx.toNat]?

/-- The loop of `findFirstIdxMonotonousOrArrLen`. -/
def findIdxOfFirst {α : Type} (array : List α) (predicate : α → Bool) (i j : Nat) : Nat :=
  if i < j then
    let k := (i + j) / 2
    if (array[k]?).any predicate then findIdxOfFirst array predicate i k
    else findIdxOfFirst array predicate (k + 1) j
  else i
termination_by j - i

/-- `findFirstIdxMonotonousOrArrLen`, from the start to the end of the array. -/
def findFirstIdxMonotonousOrArrLen {α : Type} (array : List α) (predicate : α → Bool) : Nat :=
  findIdxOfFirst array predicate 0 array.length

/-- The search finds the boundary of a predicate that fails in front of it only. -/
theorem findIdxOfFirst_eq {array : List α} {predicate : α → Bool} {bound : Nat}
    (fails : ∀ k < bound, (array[k]?).any predicate = false)
    (holds : ∀ k < array.length, bound ≤ k → (array[k]?).any predicate = true) {i j : Nat}
    (before : i ≤ bound) (behind : bound ≤ j) (inside : j ≤ array.length) :
    findIdxOfFirst array predicate i j = bound := by
  fun_induction findIdxOfFirst array predicate i j with
  | case1 i j less k matching ih =>
    apply ih before _ (by omega)
    by_contra short
    rw [fails k (by omega)] at matching
    cases matching
  | case2 i j less k failing ih =>
    apply ih _ behind inside
    by_contra beyond
    exact failing (holds k (by omega) (by omega))
  | case3 i j notLess => omega

section Splits

variable {α : Type} {front back : List α} {predicate : α → Bool}

/-- The search for the first match in an array that is split at it. -/
theorem findFirstIdxMonotonousOrArrLen_append (fails : ∀ a ∈ front, predicate a = false)
    (holds : ∀ a ∈ back, predicate a = true) :
    findFirstIdxMonotonousOrArrLen (front ++ back) predicate = front.length := by
  apply findIdxOfFirst_eq _ _ (Nat.zero_le _) (by simp) (Nat.le_refl _)
  · intro k isFront
    rw [getElem?_append_left isFront, getElem?_eq_getElem isFront, any_some]
    exact fails _ (getElem_mem _)
  · intro k inside isBack
    rw [length_append] at inside
    rw [getElem?_append_right isBack, getElem?_eq_getElem (by omega), any_some]
    exact holds _ (getElem_mem _)

/-- The search for the last match in an array that is split behind it. -/
theorem findLastIdxMonotonous_append (holds : ∀ a ∈ front, predicate a = true)
    (fails : ∀ a ∈ back, predicate a = false) :
    findLastIdxMonotonous (front ++ back) predicate = (front.length : Int) - 1 := by
  rw [findLastIdxMonotonous, @findIdxBehindLast_eq _ _ _ front.length _ _ 0 _ (Nat.zero_le _)
    (by simp)]
  · intro k isFront
    rw [getElem?_append_left isFront, getElem?_eq_getElem isFront, any_some]
    exact holds _ (getElem_mem _)
  · intro k isBack
    rw [getElem?_append_right isBack]
    cases found : back[k - front.length]? with
    | none => rfl
    | some a => exact fails a (mem_of_getElem? found)

/-- The last match is the last item of the matching front. -/
theorem findLastMonotonous_append (holds : ∀ a ∈ front, predicate a = true)
    (fails : ∀ a ∈ back, predicate a = false) :
    findLastMonotonous (front ++ back) predicate = front.getLast? := by
  rw [findLastMonotonous, findLastIdxMonotonous_append holds fails]
  rcases eq_nil_or_concat front with rfl | ⟨init, last, rfl⟩
  · rfl
  · simp [concat_eq_append]

end Splits

/-- Change the last item. -/
theorem modify_concat (init : List α) (last : α) (f : α → α) :
    (init ++ [last]).modify ((init ++ [last]).length - 1) f = init ++ [f last] := by
  rw [length_append, length_singleton, Nat.add_sub_cancel]
  induction init with
  | nil => rfl
  | cons other init ih =>
    rw [cons_append, length_cons, modify_succ_cons, ih]
    rfl

end CodeEditor

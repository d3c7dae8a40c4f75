import Mathlib

/-!
# Searching for bytes

Model of `binaryIndexOf` of `buffer.ts`, which finds the splitter in a stream of bytes. The
skip distances are kept in bytes, so that those of a long needle are too small; then less
is skipped than could be, but nothing is missed.
-/

namespace CodeEditor.Streams

open List

/-- `Uint8Array.prototype.indexOf`, from the start. -/
def indexOf (haystack : List UInt8) (byte : UInt8) : Int :=
  match haystack.idxOf? byte with
  | some i => i
  | none => -1

/-- The loop that fills `table`, from the index `i` of the needle on. -/
def fillTable (needleLength : Nat) : Nat → List UInt8 → (UInt8 → UInt8) → UInt8 → UInt8
  | _, [], table => table
  | i, byte :: rest, table =>
    fillTable needleLength (i + 1) rest
      (Function.update table byte (UInt8.ofNat (needleLength - i - 1)))

/-- The main loop. Neither index gets below zero, and `j` is behind the needle only in the
first turn of a search that starts at a positive offset. -/
def searchLoop (haystack needle : List UInt8) (table : UInt8 → UInt8)
    (pos : 0 < needle.length) (i j : Nat) : Int :=
  match read : haystack[i]? with
  | none => -1
  | some byte =>
    if same : needle[j]? = some byte then
      if j = 0 then i else searchLoop haystack needle table pos (i - 1) (j - 1)
    else
      searchLoop haystack needle table pos (i + max (needle.length - j) (table byte).toNat)
        (needle.length - 1)
termination_by (if j < needle.length then 0 else 1,
  haystack.length + needle.length - (i + (needle.length - 1 - j)), j)
decreasing_by
  all_goals have bound := (List.getElem?_eq_some_iff.mp read).1
  · have inside := (List.getElem?_eq_some_iff.mp same).1
    rw [Prod.lex_def, Prod.lex_def, if_pos inside, if_pos (by omega)]
    dsimp only
    omega
  · rw [Prod.lex_def, Prod.lex_def]
    dsimp only
    by_cases inside : j < needle.length
    · rw [if_pos inside, if_pos (by omega)]
      omega
    · rw [if_neg inside, if_pos (by omega)]
      omega

def binaryIndexOf (haystack needle : List UInt8) (offset : Nat) : Int :=
  if empty : needle.length = 0 then 0
  else if needle.length = 1 then indexOf haystack needle[0]
  else if (needle.length : Int) > haystack.length - offset then -1
  else
    -- The table is shared by all calls, and each fills all of it.
    let table := fillTable needle.length 0 needle fun _ => UInt8.ofNat needle.length
    let i := offset + needle.length - 1
    searchLoop haystack needle table (Nat.pos_of_ne_zero empty) i i

/-! ## What is searched for -/

/-- The needle stands at an index of the haystack. -/
def OccursAt (haystack needle : List UInt8) (index : Nat) : Prop :=
  needle <+: haystack.drop index

/-- The least index from the offset on at which the needle stands, or `-1` for none. -/
def IsIndexOf (haystack needle : List UInt8) (offset : Nat) (result : Int) : Prop :=
  (∃ i : Nat, result = i ∧ offset ≤ i ∧ OccursAt haystack needle i ∧
    ∀ k, offset ≤ k → OccursAt haystack needle k → i ≤ k) ∨
  result = -1 ∧ ∀ k, offset ≤ k → ¬OccursAt haystack needle k

/-- Every skip distance reaches at most to the last place of its byte in the needle. -/
structure SafeTable (needle : List UInt8) (table : UInt8 → UInt8) : Prop where
  present : ∀ {k byte}, needle[k]? = some byte → (table byte).toNat + k < needle.length
  absent : ∀ byte, (table byte).toNat ≤ needle.length

/-- The search stands at `i` and `j`: the needle agrees behind `j`, and does not stand at any
index from the offset on that has been passed. -/
structure Searched (haystack needle : List UInt8) (offset i j : Nat) : Prop where
  inside : j < needle.length
  start : offset + j ≤ i
  agrees : ∀ {k byte}, j < k → needle[k]? = some byte → haystack[i - j + k]? = some byte
  passed : ∀ {s}, offset ≤ s → OccursAt haystack needle s → i ≤ s + j

variable {haystack needle : List UInt8} {table : UInt8 → UInt8} {offset i j k s : Nat}
  {byte : UInt8}

theorem OccursAt.get (occurs : OccursAt haystack needle s) (here : needle[k]? = some byte) :
    haystack[s + k]? = some byte := by
  obtain ⟨rest, equal⟩ := occurs
  rw [← List.getElem?_drop, ← equal,
    List.getElem?_append_left (List.getElem?_eq_some_iff.mp here).1, here]

theorem occursAt_singleton : OccursAt haystack [byte] s ↔ haystack[s]? = some byte := by
  rw [OccursAt, prefix_iff_getElem?]
  simp

/-- The numbers that the table holds are taken modulo 256, which makes them smaller only. -/
theorem fillTable_safe (rest : List UInt8) (i : Nat) (table : UInt8 → UInt8)
    (suffix : needle.drop i = rest)
    (present : ∀ {k byte}, k < i → needle[k]? = some byte → (table byte).toNat + k < needle.length)
    (absent : ∀ byte, (table byte).toNat ≤ needle.length) :
    SafeTable needle (fillTable needle.length i rest table) := by
  induction rest generalizing i table with
  | nil =>
    refine ⟨fun here => present ?_ here, absent⟩
    exact Nat.lt_of_lt_of_le (List.getElem?_eq_some_iff.mp here).1 (List.drop_eq_nil_iff.mp suffix)
  | cons byte rest ih =>
    have read : needle[i]? = some byte := by
      rw [← Nat.add_zero i, ← List.getElem?_drop, suffix]
      rfl
    have bound := (List.getElem?_eq_some_iff.mp read).1
    have small : (UInt8.ofNat (needle.length - i - 1)).toNat ≤ needle.length - i - 1 :=
      Nat.mod_le _ _
    refine ih (i + 1) _ (by rw [← List.drop_drop, suffix, List.drop_one, List.tail_cons]) ?_ ?_
    · intro k other before here
      by_cases same : other = byte
      · rw [same, Function.update_self]
        omega
      · rw [Function.update_of_ne same]
        refine present (Nat.lt_of_le_of_ne (Nat.le_of_lt_succ before) ?_) here
        rintro rfl
        exact same (Option.some.inj (here.symm.trans read))
    · intro other
      by_cases same : other = byte
      · rw [same, Function.update_self]
        omega
      · rw [Function.update_of_ne same]
        exact absent other

/-- What a needle that ends at or behind `i` allows to skip there. -/
theorem SafeTable.skip (safe : SafeTable needle table) (read : haystack[i]? = some byte)
    (occurs : OccursAt haystack needle s) (reach : i < s + needle.length) :
    i + (table byte).toNat < s + needle.length := by
  by_cases before : i < s
  · have bounded := safe.absent byte
    omega
  · have here : needle[i - s]? = some byte := by
      rw [getElem?_eq_getElem (by omega), ← occurs.get (getElem?_eq_getElem _), ← read]
      congr 1
      omega
    have distance := safe.present here
    omega

/-- A search begins to compare at the end of the needle. -/
theorem Searched.fresh (pos : 0 < needle.length) (start : offset + (needle.length - 1) ≤ i)
    (passed : ∀ {s}, offset ≤ s → OccursAt haystack needle s → i < s + needle.length) :
    Searched haystack needle offset i (needle.length - 1) where
  inside := by omega
  start := start
  agrees behind here := by
    have bound := (List.getElem?_eq_some_iff.mp here).1
    omega
  passed after occurs := by
    have bound := passed after occurs
    omega

theorem searchLoop_isIndexOf (safe : SafeTable needle table) (pos : 0 < needle.length)
    (state : Searched haystack needle offset i j) :
    IsIndexOf haystack needle offset (searchLoop haystack needle table pos i j) := by
  fun_induction searchLoop haystack needle table pos i j with
  | case1 i j read =>
    refine .inr ⟨rfl, fun s after occurs => ?_⟩
    have none := List.getElem?_eq_none_iff.mp read
    have last := occurs.get (List.getElem?_eq_getElem state.inside)
    have bound := (List.getElem?_eq_some_iff.mp last).1
    have passed := state.passed after occurs
    omega
  | case2 i byte read same =>
    refine .inl ⟨i, rfl, state.start, ?_, fun k => state.passed⟩
    rw [OccursAt, List.prefix_iff_getElem?]
    intro k inside
    rw [List.getElem?_drop]
    rcases Nat.eq_zero_or_pos k with rfl | behind
    · rw [Nat.add_zero, read, ← same, List.getElem?_eq_getElem]
    · exact state.agrees behind (List.getElem?_eq_getElem inside)
  | case3 i j byte read same more ih =>
    have start := state.start
    have inside := state.inside
    refine ih ⟨by omega, by omega, ?_, fun after occurs => ?_⟩
    · intro k other behind here
      rw [show i - 1 - (j - 1) = i - j by omega]
      rcases Nat.eq_or_lt_of_le (show j ≤ k by omega) with rfl | behind
      · rw [Nat.sub_add_cancel (by omega), read, ← same, here]
      · exact state.agrees behind here
    · have passed := state.passed after occurs
      omega
  | case4 i j byte read differ ih =>
    have start := state.start
    have inside := state.inside
    refine ih (.fresh pos (by omega) fun {s} after occurs => ?_)
    have passed := state.passed after occurs
    have skipped := safe.skip read occurs (by omega)
    have apart : i ≠ s + j := by
      rintro rfl
      apply differ
      rw [List.getElem?_eq_getElem inside, ← occurs.get (List.getElem?_eq_getElem inside), read]
    omega

theorem isIndexOf_zero : IsIndexOf haystack [] offset 0 ↔ offset = 0 := by
  constructor
  · rintro (⟨i, isZero, after, -⟩ | ⟨wrong, -⟩)
    · omega
    · cases wrong
  · rintro rfl
    exact .inl ⟨0, rfl, Nat.le_refl 0, nil_prefix, fun k _ _ => Nat.zero_le k⟩

theorem isIndexOf_indexOf :
    IsIndexOf haystack [byte] offset (indexOf haystack byte) ↔ byte ∉ haystack.take offset := by
  have early : byte ∈ haystack.take offset ↔ ∃ k, k < offset ∧ haystack[k]? = some byte := by
    rw [List.mem_iff_getElem?]
    refine exists_congr fun k => ?_
    rw [List.getElem?_take]
    by_cases before : k < offset <;> simp [before]
  simp only [IsIndexOf, occursAt_singleton, indexOf, early]
  cases found : haystack.idxOf? byte with
  | none =>
    have absent : ∀ k, haystack[k]? ≠ some byte := fun k here =>
      List.idxOf?_eq_none_iff.mp found (List.mem_of_getElem? here)
    exact iff_of_true (.inr ⟨rfl, fun k _ => absent k⟩) fun ⟨k, _, here⟩ => absent k here
  | some i =>
    obtain ⟨inside, here, first⟩ := List.idxOf?_eq_some_iff.mp found
    have least : ∀ {k}, haystack[k]? = some byte → i ≤ k := fun {k} there => by
      obtain ⟨bound, equal⟩ := List.getElem?_eq_some_iff.mp there
      exact Nat.le_of_not_lt fun before => first k before equal
    constructor
    · rintro (⟨j, same, after, -⟩ | ⟨wrong, -⟩) ⟨k, before, there⟩
      · have same : i = j := Int.ofNat.inj same
        have bound := least there
        omega
      · cases wrong
    · intro none
      refine .inl ⟨i, rfl, Nat.le_of_not_lt fun before => none ⟨i, before, ?_⟩, ?_, ?_⟩
      · rw [List.getElem?_eq_getElem inside, here]
      · rw [List.getElem?_eq_getElem inside, here]
      · exact fun k _ there => least there

/-- Longer needles are found as they should be, from every offset on. -/
theorem binaryIndexOf_of_one_lt (long : 1 < needle.length) :
    IsIndexOf haystack needle offset (binaryIndexOf haystack needle offset) := by
  have safe := @fillTable_safe needle needle 0 (fun _ => UInt8.ofNat needle.length) rfl
    (by intro k _ below; omega) fun _ => Nat.mod_le _ _
  rw [binaryIndexOf, dif_neg (by omega), if_neg (by omega)]
  split
  · refine .inr ⟨rfl, fun s after occurs => ?_⟩
    have last := (List.getElem?_eq_some_iff.mp
      (occurs.get (List.getElem?_eq_getElem (Nat.sub_lt (by omega) Nat.one_pos)))).1
    omega
  · dsimp only
    have pos : 0 < needle.length := by omega
    by_cases atStart : offset = 0
    · subst atStart
      rw [Nat.zero_add]
      exact searchLoop_isIndexOf safe pos (.fresh pos (by omega) fun _ _ => by omega)
    · -- The first turn compares with nothing, and skips as after a byte that differs.
      have inside : offset + needle.length - 1 < haystack.length := by omega
      have read := List.getElem?_eq_getElem inside
      rw [searchLoop]
      split
      next none => rw [read] at none; cases none
      next byte isByte =>
        rw [dif_neg (by rw [List.getElem?_eq_none (by omega)]; nofun)]
        refine searchLoop_isIndexOf safe pos (.fresh pos (by omega) fun after occurs => ?_)
        have skipped := safe.skip isByte occurs (by omega)
        omega

/-- The result is right but for two cases. An empty needle is found at zero, and a needle of
one byte before the offset. -/
theorem binaryIndexOf_exact (haystack needle : List UInt8) (offset : Nat) :
    IsIndexOf haystack needle offset (binaryIndexOf haystack needle offset) ↔
      (needle = [] → offset = 0) ∧ ∀ byte, needle = [byte] → byte ∉ haystack.take offset := by
  match needle with
  | [] => simpa [binaryIndexOf] using isIndexOf_zero
  | [byte] => simpa [binaryIndexOf] using isIndexOf_indexOf
  | first :: second :: rest => simpa using binaryIndexOf_of_one_lt (by simp)

/-- An empty needle is not found at the offset, and a byte is found in front of it. -/
theorem binaryIndexOf_ignores_offset :
    ¬IsIndexOf [7] [] 1 (binaryIndexOf [7] [] 1) ∧
      ¬IsIndexOf [7, 8, 7] [7] 1 (binaryIndexOf [7, 8, 7] [7] 1) := by
  constructor
  · rw [show binaryIndexOf [7] [] 1 = 0 from rfl, isIndexOf_zero]
    decide
  · rw [show binaryIndexOf [7, 8, 7] [7] 1 = indexOf [7, 8, 7] 7 from rfl, isIndexOf_indexOf]
    decide

end CodeEditor.Streams

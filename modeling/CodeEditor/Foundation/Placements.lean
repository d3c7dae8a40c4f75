import Mathlib

/-!
# Copies of an item in several places

An item is kept in several places, and each place has several sides. The item is settled when
each of its places has one copy, all of them on one side, except for the places that it is
recorded to have left. An operation may take copies away as long as it records the place, or
leaves no copy at all.
-/

namespace CodeEditor

/-- Where the copies of one item are, the places it belongs to, and those it has left. -/
structure Placement (ρ σ : Type*) where
  copies : ρ → σ → ℕ
  home : Set ρ
  left : Set ρ

namespace Placement

variable {ρ σ : Type*}

/-- Some place has a copy. -/
def Found (item : Placement ρ σ) : Prop := ∃ place side, 0 < item.copies place side

structure Settled (item : Placement ρ σ) : Prop where
  inside : ∀ place side, 0 < item.copies place side → place ∈ item.home
  present : item.Found → ∀ place ∈ item.home, place ∉ item.left →
    ∃ side, 0 < item.copies place side
  oneSide : ∀ place side otherPlace otherSide, 0 < item.copies place side →
    0 < item.copies otherPlace otherSide → side = otherSide
  once : ∀ place side, item.copies place side ≤ 1

/-- A settled item that is found has exactly one copy in each place it has not left. -/
theorem Settled.exactly {item : Placement ρ σ} (settled : item.Settled) (found : item.Found) :
    ∃ side, ∀ place ∈ item.home, place ∉ item.left → item.copies place side = 1 ∧
        ∀ otherSide, otherSide ≠ side → item.copies place otherSide = 0 := by
  obtain ⟨foundPlace, side, copy⟩ := found
  refine ⟨side, fun place home stays => ?_⟩
  have other : ∀ otherSide, 0 < item.copies place otherSide → otherSide = side := by
    intro otherSide otherCopy
    exact settled.oneSide place otherSide foundPlace side otherCopy copy
  constructor
  · obtain ⟨placeSide, placeCopy⟩ := settled.present ⟨foundPlace, side, copy⟩ place home stays
    have atMost := settled.once place side
    rw [other placeSide placeCopy] at placeCopy
    omega
  · intro otherSide different
    by_contra copied
    exact different (other otherSide (Nat.pos_of_ne_zero copied))

/-- An item with one copy in each of its places, all on one side, is settled. -/
theorem Settled.of_copies {item : Placement ρ σ} (side : σ)
    (copied : ∀ place ∈ item.home, item.copies place side = 1)
    (none : ∀ place otherSide, place ∉ item.home ∨ otherSide ≠ side →
      item.copies place otherSide = 0) : item.Settled := by
  have placed : ∀ place otherSide, 0 < item.copies place otherSide →
      place ∈ item.home ∧ otherSide = side := by
    intro place otherSide copy
    by_contra elsewhere
    have := none place otherSide (not_and_or.mp elsewhere)
    omega
  refine ⟨fun place otherSide copy => (placed place otherSide copy).1,
    fun _ place home _ => ⟨side, by simp [copied place home]⟩,
    fun place one otherPlace other oneCopy otherCopy => ?_, fun place otherSide => ?_⟩
  · rw [(placed place one oneCopy).2, (placed otherPlace other otherCopy).2]
  · by_cases home : place ∈ item.home ∧ otherSide = side
    · rw [home.2, copied place home.1]
    · rw [none place otherSide (not_and_or.mp home)]
      exact Nat.zero_le 1

/-! ## Taking copies away -/

/-- Copies are only taken away, and a place that loses its copies is recorded unless no copy is
left anywhere. -/
structure Thins (item thinner : Placement ρ σ) : Prop where
  home : thinner.home = item.home
  left : ∀ place ∈ item.left, place ∈ thinner.left
  copies : ∀ place side, thinner.copies place side ≤ item.copies place side
  recorded : thinner.Found → ∀ place ∈ item.home, place ∉ thinner.left →
    (∃ side, 0 < item.copies place side) → ∃ side, 0 < thinner.copies place side

variable {item thinner : Placement ρ σ}

theorem Thins.found (thins : item.Thins thinner) (found : thinner.Found) : item.Found := by
  obtain ⟨place, side, copy⟩ := found
  exact ⟨place, side, lt_of_lt_of_le copy (thins.copies place side)⟩

/-- Nothing is taken away when the copies stay. -/
theorem Thins.of_copies_eq (home : thinner.home = item.home)
    (left : ∀ place ∈ item.left, place ∈ thinner.left)
    (copies : ∀ place side, thinner.copies place side = item.copies place side) :
    item.Thins thinner where
  home := home
  left := left
  copies place side := (copies place side).le
  recorded _ place _ _ copied := by
    obtain ⟨side, copy⟩ := copied
    exact ⟨side, by rwa [copies]⟩

theorem Thins.refl (item : Placement ρ σ) : item.Thins item :=
  .of_copies_eq rfl (fun _ member => member) fun _ _ => rfl

theorem Thins.trans {first second third : Placement ρ σ} (earlier : first.Thins second)
    (later : second.Thins third) : first.Thins third where
  home := later.home.trans earlier.home
  left place member := later.left place (earlier.left place member)
  copies place side := (later.copies place side).trans (earlier.copies place side)
  recorded found place home stays copied := by
    have between : place ∉ second.left := fun member => stays (later.left place member)
    apply later.recorded found place (earlier.home ▸ home) stays
    exact earlier.recorded (later.found found) place home between copied

theorem Settled.thins (settled : item.Settled) (thins : item.Thins thinner) : thinner.Settled where
  inside place side copy := by
    rw [thins.home]
    exact settled.inside place side (lt_of_lt_of_le copy (thins.copies place side))
  present found place home stays := by
    rw [thins.home] at home
    have stayed : place ∉ item.left := fun member => stays (thins.left place member)
    apply thins.recorded found place home stays
    exact settled.present (thins.found found) place home stayed
  oneSide place side otherPlace otherSide copy otherCopy :=
    settled.oneSide place side otherPlace otherSide (lt_of_lt_of_le copy (thins.copies place side))
      (lt_of_lt_of_le otherCopy (thins.copies otherPlace otherSide))
  once place side := (thins.copies place side).trans (settled.once place side)

/-- One copy is taken out of one side of each chosen place. Nothing is left behind, provided
that no other place has a copy when a chosen place loses one that is not recorded. -/
theorem Settled.thins_of_chosen (settled : item.Settled)
    (chosen : Set ρ) (side : σ) (home : thinner.home = item.home)
    (left : thinner.left = item.left)
    (taken : ∀ place ∈ chosen, thinner.copies place side = item.copies place side - 1)
    (kept : ∀ place otherSide, place ∉ chosen ∨ otherSide ≠ side →
      thinner.copies place otherSide = item.copies place otherSide)
    (noneElse : ∀ place ∈ chosen, place ∉ item.left → 0 < item.copies place side →
      ∀ other ∈ item.home, other ∉ chosen → ∀ otherSide, item.copies other otherSide = 0) :
    item.Thins thinner := by
  have copies : ∀ place otherSide,
      thinner.copies place otherSide ≤ item.copies place otherSide := by
    intro place otherSide
    by_cases both : place ∈ chosen ∧ otherSide = side
    · rw [both.2, taken place both.1]
      exact Nat.sub_le _ 1
    · exact (kept place otherSide (not_and_or.mp both)).le
  refine ⟨home, fun place member => left ▸ member, copies, ?_⟩
  rintro ⟨foundPlace, foundSide, found⟩ place isHome stays ⟨placeSide, copy⟩
  by_cases both : place ∈ chosen ∧ placeSide = side
  · -- the copy that is found would be on the same side of a chosen place, and is taken
    exfalso
    obtain ⟨isChosen, rfl⟩ := both
    have foundCopy := lt_of_lt_of_le found (copies foundPlace foundSide)
    have sameSide := settled.oneSide foundPlace foundSide place placeSide foundCopy copy
    have foundHome := settled.inside foundPlace foundSide foundCopy
    have none := noneElse place isChosen (left ▸ stays) copy foundPlace foundHome
    by_cases foundChosen : foundPlace ∈ chosen
    · rw [sameSide, taken foundPlace foundChosen] at found
      have atMost := settled.once foundPlace placeSide
      omega
    · have := none foundChosen foundSide
      omega
  · exact ⟨placeSide, by rwa [kept place placeSide (not_and_or.mp both)]⟩

end Placement

end CodeEditor

import Mathlib

/-!
# Patching a list

Replacements of ranges of a list, from left to right. What they leave of a list is
described from a position on, so that the part that has been dealt with is out of sight.
-/

namespace CodeEditor

open List Int

/-- Put a text in the place of the elements from `start` up to `stop`. -/
structure Replacement (α : Type) where
  start : Int
  stop : Int
  text : List α
  deriving DecidableEq, Repr

variable {α : Type}

/-- How much longer a list gets. -/
def Replacement.growth (e : Replacement α) : Int := e.text.length - (e.stop - e.start)

/-- The replacements made in the rest of a list, which starts at a position. -/
def patch : (rest : List α) → (position : Int) → List (Replacement α) → List α
  | rest, _, [] => rest
  | rest, position, e :: edits =>
    rest.take (e.start - position).toNat ++
      (e.text ++ patch (rest.drop (e.stop - position).toNat) e.stop edits)

/-- The replacements are made from left to right, between two positions. -/
def Within (last : Int) : (position : Int) → List (Replacement α) → Prop
  | position, [] => position ≤ last
  | position, e :: edits =>
    position ≤ e.start ∧ e.start ≤ e.stop ∧ Within last e.stop edits

@[simp] theorem patch_nil (rest : List α) (position : Int) : patch rest position [] = rest :=
  rfl

theorem patch_cons (rest : List α) (position : Int) (e : Replacement α)
    (edits : List (Replacement α)) :
    patch rest position (e :: edits) =
      rest.take (e.start - position).toNat ++
        (e.text ++ patch (rest.drop (e.stop - position).toNat) e.stop edits) := rfl

theorem drop_toNat (rest : List α) {start stop : Int} (nonneg : 0 ≤ start)
    (ordered : start ≤ stop) :
    rest.drop stop.toNat = (rest.drop start.toNat).drop (stop - start).toNat := by
  rw [drop_drop]
  congr 1
  omega

namespace Within

variable {last position : Int} {edits : List (Replacement α)}

section

variable (within : Within last position edits)

include within

theorem le : position ≤ last := by
  induction edits generalizing position with
  | nil => exact within
  | cons e edits ih =>
    have rest := ih within.2.2
    have first := within.1
    have second := within.2.1
    omega

theorem bounds_of_mem {e : Replacement α} (member : e ∈ edits) :
    position ≤ e.start ∧ e.start ≤ e.stop ∧ e.stop ≤ last := by
  induction edits generalizing position with
  | nil => cases member
  | cons other edits ih =>
    obtain ⟨start, ordered, later⟩ := within
    obtain rfl | member := mem_cons.mp member
    · exact ⟨start, ordered, later.le⟩
    · have rest := ih later member
      omega

/-- The replacements may start later than they have to. -/
theorem of_le {earlier : Int} (le : earlier ≤ position) : Within last earlier edits := by
  cases edits with
  | nil => exact le_trans le within
  | cons e edits => exact ⟨le_trans le within.1, within.2⟩

/-- The replacements may have to stop earlier, when they do. -/
theorem of_stops {earlier : Int} (le : position ≤ earlier) (stops : ∀ e ∈ edits, e.stop ≤ earlier) :
    Within earlier position edits := by
  induction edits generalizing position with
  | nil => exact le
  | cons e edits ih =>
    refine ⟨within.1, within.2.1, ?_⟩
    apply ih within.2.2 (stops e (by simp))
    intro other member
    exact stops other (mem_cons_of_mem _ member)

/-- The replacements may stop later than they have to. -/
theorem of_last {later : Int} (le : last ≤ later) : Within later position edits := by
  induction edits generalizing position with
  | nil => exact le_trans within le
  | cons e edits ih =>
    exact ⟨within.1, within.2.1, ih within.2.2⟩

/-- The replacements may have to start later, when they do. -/
theorem of_starts {later : Int} (le : later ≤ last) (starts : ∀ e ∈ edits, later ≤ e.start) :
    Within last later edits := by
  cases edits with
  | nil => exact le
  | cons e edits => exact ⟨starts e (by simp), within.2⟩

end

theorem of_append {first second : List (Replacement α)}
    (within : Within last position (first ++ second)) :
    Within last position first ∧ Within last position second := by
  induction first generalizing position with
  | nil => exact ⟨within.le, within⟩
  | cons e first ih =>
    have later := ih within.2.2
    have start := within.1
    have ordered := within.2.1
    exact ⟨⟨start, ordered, later.1⟩, later.2.of_le (le_trans start ordered)⟩

theorem split {first second : List (Replacement α)} {e : Replacement α}
    (within : Within last position (first ++ e :: second)) :
    Within e.start position first ∧ e.start ≤ e.stop ∧ Within last e.stop second := by
  induction first generalizing position with
  | nil => exact within
  | cons other first ih =>
    have later := ih within.2.2
    exact ⟨⟨within.1, within.2.1, later.1⟩, later.2⟩

end Within

/-- What lies in front of all replacements stays. -/
theorem patch_append {front rest : List α} {last position : Int}
    {edits : List (Replacement α)} (within : Within last (position + front.length) edits) :
    patch (front ++ rest) position edits = front ++ patch rest (position + front.length) edits := by
  cases edits with
  | nil => rfl
  | cons e edits =>
    have start := within.1
    have stop := within.2.1
    have toStart : (e.start - position).toNat =
        front.length + (e.start - (position + front.length)).toNat := by omega
    have toStop : (e.stop - position).toNat =
        front.length + (e.stop - (position + front.length)).toNat := by omega
    rw [patch_cons, patch_cons, toStart, toStop, take_length_add_append,
      drop_length_add_append, append_assoc]

/-- A replacement of a part of a list that is given in parts. -/
theorem patch_parts {front old rest : List α} {position : Int} {e : Replacement α}
    (edits : List (Replacement α)) (start : e.start = position + front.length)
    (stop : e.stop = e.start + old.length) :
    patch (front ++ (old ++ rest)) position (e :: edits) =
      front ++ (e.text ++ patch rest e.stop edits) := by
  have toStart : (e.start - position).toNat = front.length := by omega
  have toStop : (e.stop - position).toNat = front.length + old.length := by omega
  rw [patch_cons, toStart, toStop, take_left, drop_length_add_append, drop_left]

/-- One replacement in parts, in front of others. -/
theorem patch_step {front old rest : List α} {position last : Int} {e : Replacement α}
    {edits : List (Replacement α)} (start : e.start = position + front.length)
    (stop : e.stop = e.start + old.length) (within : Within last e.stop edits) :
    Within last position (e :: edits) ∧ patch (front ++ (old ++ rest)) position (e :: edits) =
        front ++ (e.text ++ patch rest e.stop edits) :=
  ⟨⟨by omega, by omega, within⟩, patch_parts edits start stop⟩

/-- Replacements of nothing at one position. -/
theorem patch_points {rest : List α} {position : Int} {points : List (Replacement α)}
    (later : List (Replacement α))
    (arePoints : ∀ e ∈ points, e.start = position ∧ e.stop = position) :
    patch rest position (points ++ later) =
      points.flatMap (·.text) ++ patch rest position later := by
  induction points with
  | nil => rfl
  | cons e points ih =>
    obtain ⟨start, stop⟩ := arePoints e (by simp)
    have others := ih fun other member =>
      arePoints other (mem_cons_of_mem _ member)
    rw [cons_append, patch_cons, start, stop, Int.sub_self, Int.toNat_zero, drop_zero, others]
    simp

variable {last position next : Int} {rest : List α} {edits : List (Replacement α)}

section

variable (le : position ≤ next) (bounded : next ≤ position + rest.length)
  (within : Within last next edits)

include le bounded within

/-- Move on to a position in front of all replacements. -/
theorem patch_eq_take : patch rest position edits = rest.take (next - position).toNat ++
        patch (rest.drop (next - position).toNat) next edits := by
  have length : position + (rest.take (next - position).toNat).length = next := by
    rw [length_take]
    omega
  have split := @patch_append α (rest.take (next - position).toNat)
    (rest.drop (next - position).toNat) last position edits (length.symm ▸ within)
  rw [take_append_drop, length] at split
  exact split

theorem drop_patch : (patch rest position edits).drop (next - position).toNat =
      patch (rest.drop (next - position).toNat) next edits := by
  have length : (next - position).toNat = (rest.take (next - position).toNat).length := by
    rw [length_take]
    omega
  rw [patch_eq_take le bounded within]
  nth_rewrite 1 [length]
  exact drop_left

theorem take_patch : (patch rest position edits).take (next - position).toNat =
      rest.take (next - position).toNat := by
  have length : (next - position).toNat = (rest.take (next - position).toNat).length := by
    rw [length_take]
    omega
  rw [patch_eq_take le bounded within]
  nth_rewrite 1 [length]
  exact take_left

end

/-- What lies behind all replacements stays. -/
theorem patch_concat {front : List α} (back : List α) {position : Int}
    (within : Within (position + front.length) position edits) :
    patch (front ++ back) position edits = patch front position edits ++ back := by
  induction edits generalizing front position with
  | nil => rfl
  | cons e edits ih =>
    obtain ⟨start, ordered, within⟩ := within
    have last := within.le
    have rest : Within (e.stop + (front.drop (e.stop - position).toNat).length) e.stop edits := by
      rw [length_drop]
      have same : e.stop + ((front.length - (e.stop - position).toNat : Nat) : Int) =
          position + front.length := by omega
      rw [same]
      exact within
    rw [patch_cons, patch_cons, take_append_of_le_length (by omega),
      drop_append_of_le_length (by omega), ih rest, append_assoc,
      append_assoc]

/-- The last replacement stands behind what the others make of its front. -/
theorem patch_snoc
    {e : Replacement α} (within : Within e.start position edits) (ordered : e.start ≤ e.stop)
    (bounded : e.start ≤ position + rest.length) :
    patch rest position (edits ++ [e]) =
      patch (rest.take (e.start - position).toNat) position edits ++
        (e.text ++ rest.drop (e.stop - position).toNat) := by
  induction edits generalizing rest position with
  | nil => rfl
  | cons first edits ih =>
    obtain ⟨start, firstOrdered, within⟩ := within
    have le := within.le
    have bounded' : e.start ≤ first.stop + (rest.drop (first.stop - position).toNat).length := by
      rw [length_drop]
      omega
    have rounds := ih within bounded'
    have toStart : (e.start - first.stop).toNat =
        (e.start - position).toNat - (first.stop - position).toNat := by omega
    have toStop : (first.stop - position).toNat + (e.stop - first.stop).toNat =
        (e.stop - position).toNat := by omega
    rw [cons_append, patch_cons, patch_cons, rounds, toStart, drop_drop, toStop,
      take_take, Nat.min_eq_left (by omega), drop_take, append_assoc,
      append_assoc]

/-- Making some replacements writes a text and moves on to a later position. -/
structure Emits (edits : List (Replacement α)) (rest : List α) (position : Int)
    (written rest' : List α) (position' : Int) : Prop where
  patch_eq : ∀ later, patch rest position (edits ++ later) = written ++ patch rest' position' later
  within : ∀ last later, Within last position' later → Within last position (edits ++ later)
  length : position' + rest'.length = position + rest.length

namespace Emits

theorem nil (rest : List α) (position : Int) : Emits [] rest position [] rest position :=
  ⟨fun _ => rfl, fun _ _ within => within, rfl⟩

theorem append {first second : List (Replacement α)} {rest rest' rest'' : List α}
    {position position' position'' : Int} {written written' : List α}
    (emits : Emits first rest position written rest' position')
    (emits' : Emits second rest' position' written' rest'' position'') :
    Emits (first ++ second) rest position (written ++ written') rest'' position'' where
  patch_eq later := by
    rw [append_assoc, emits.patch_eq, emits'.patch_eq, append_assoc]
  within last later within := by
    rw [append_assoc]
    exact emits.within last _ (emits'.within last later within)
  length := by rw [emits'.length, emits.length]

theorem single {e : Replacement α} {rest : List α} {position : Int}
    (start : position ≤ e.start) (ordered : e.start ≤ e.stop)
    (bounded : e.stop ≤ position + rest.length) :
    Emits [e] rest position (rest.take (e.start - position).toNat ++ e.text)
      (rest.drop (e.stop - position).toNat) e.stop where
  patch_eq later := by rw [singleton_append, patch_cons, append_assoc]
  within last later within := ⟨start, ordered, within⟩
  length := by
    rw [length_drop]
    omega

end Emits

/-- Two lists of replacements that can be exchanged wherever the first one fits. -/
def Interchangeable (first second : List (Replacement α)) : Prop :=
  ∀ (rest : List α) (position : Int), Within (position + rest.length) position first →
    Within (position + rest.length) position second ∧
      patch rest position first = patch rest position second

namespace Interchangeable

theorem refl (edits : List (Replacement α)) : Interchangeable edits edits :=
  fun _ _ within => ⟨within, rfl⟩

theorem trans {first second third : List (Replacement α)}
    (left : Interchangeable first second) (right : Interchangeable second third) :
    Interchangeable first third := by
  intro rest position within
  have exchanged := left rest position within
  have again := right rest position exchanged.1
  exact ⟨again.1, exchanged.2.trans again.2⟩

theorem cons {first second : List (Replacement α)} (e : Replacement α)
    (exchange : Interchangeable first second) :
    Interchangeable (e :: first) (e :: second) := by
  intro rest position within
  obtain ⟨start, ordered, later⟩ := within
  have bounded := later.le
  have length : e.stop + ((rest.drop (e.stop - position).toNat).length : Int) =
      position + rest.length := by
    rw [length_drop]
    omega
  have exchanged := exchange (rest.drop (e.stop - position).toNat) e.stop (length.symm ▸ later)
  rw [length] at exchanged
  refine ⟨⟨start, ordered, exchanged.1⟩, ?_⟩
  rw [patch_cons, patch_cons, exchanged.2]

theorem append {first second : List (Replacement α)} (front : List (Replacement α))
    (exchange : Interchangeable first second) :
    Interchangeable (front ++ first) (front ++ second) := by
  induction front with
  | nil => exact exchange
  | cons e front ih => exact ih.cons e

/-- A replacement of nothing by nothing can be left out. -/
theorem skip {e : Replacement α} (nothing : e.text = []) (point : e.start = e.stop)
    (edits : List (Replacement α)) : Interchangeable (e :: edits) edits := by
  intro rest position within
  obtain ⟨start, ordered, later⟩ := within
  refine ⟨later.of_le (by omega), ?_⟩
  rw [patch_eq_take (by omega) later.le later, patch_cons, nothing, point]
  rfl

/-- Replacements that touch can be made as one. -/
theorem join {first second : Replacement α} (touch : first.stop = second.start)
    (edits : List (Replacement α)) :
    Interchangeable (first :: second :: edits)
      (⟨first.start, second.stop, first.text ++ second.text⟩ :: edits) := by
  intro rest position within
  obtain ⟨start, ordered, -, ordered', later⟩ := within
  refine ⟨⟨start, by simp only; omega, later⟩, ?_⟩
  have none : (second.start - first.stop).toNat = 0 := by omega
  have toStop : (first.stop - position).toNat + (second.stop - first.stop).toNat =
      (second.stop - position).toNat := by omega
  rw [patch_cons, patch_cons, patch_cons, none, drop_drop, toStop]
  simp

end Interchangeable

theorem length_patch {rest : List α} {position : Int} {edits : List (Replacement α)}
    (within : Within (position + rest.length) position edits) :
    ((patch rest position edits).length : Int) =
      rest.length + (edits.map Replacement.growth).sum := by
  induction edits generalizing rest position with
  | nil => simp
  | cons e edits ih =>
    obtain ⟨start, stop, later⟩ := within
    have bound := later.le
    have dropped : e.stop + ((rest.drop (e.stop - position).toNat).length : Int) =
        position + rest.length := by
      rw [length_drop]
      omega
    have grown := ih (dropped.symm ▸ later)
    rw [patch_cons, length_append, length_append, length_take, map_cons, sum_cons]
    simp only [Replacement.growth] at grown ⊢
    omega

/-- Replacements cannot take away more than there is. -/
theorem sum_growth_ge {last position : Int} (within : Within last position edits) :
    position - last ≤ (edits.map Replacement.growth).sum := by
  induction edits generalizing position with
  | nil =>
    have le : position ≤ last := within
    simp only [map_nil, sum_nil]
    omega
  | cons e edits ih =>
    have later := ih within.2.2
    have start := within.1
    rw [map_cons, sum_cons, Replacement.growth]
    omega

theorem within_append {last position middle : Int} {first second : List (Replacement α)}
    (within : Within middle position first) (later : Within last middle second) :
    Within last position (first ++ second) := by
  induction first generalizing position with
  | nil => exact later.of_le within
  | cons e first ih =>
    exact ⟨within.1, within.2.1, ih within.2.2⟩

/-- The replacements in front of a position write a text of their own. -/
theorem exists_front {position next : Int}
    (within : Within next position first) (bounded : next ≤ position + rest.length) :
    ∃ front, (front.length : Int) = next - position + (first.map Replacement.growth).sum ∧
      ∀ last later, Within last next later → patch rest position (first ++ later) =
        front ++ patch (rest.drop (next - position).toNat) next later := by
  induction first generalizing rest position with
  | nil =>
    have le : position ≤ next := within
    refine ⟨rest.take (next - position).toNat, ?_, ?_⟩
    · rw [length_take, map_nil, sum_nil]
      omega
    · intro last later within'
      exact patch_eq_take le bounded within'
  | cons e first ih =>
    obtain ⟨start, ordered, within'⟩ := within
    have stop := within'.le
    have length : ((rest.drop (e.stop - position).toNat).length : Int) =
        rest.length - (e.stop - position) := by
      rw [length_drop]
      omega
    obtain ⟨front, frontLength, written⟩ := ih within' (show next ≤ e.stop +
      (rest.drop (e.stop - position).toNat).length by omega)
    refine ⟨rest.take (e.start - position).toNat ++ (e.text ++ front), ?_, ?_⟩
    · rw [length_append, length_append, length_take, map_cons, sum_cons, Replacement.growth]
      omega
    · intro last later within''
      have moved : (rest.drop (e.stop - position).toNat).drop (next - e.stop).toNat =
          rest.drop (next - position).toNat := by
        rw [drop_drop]
        congr 1
        omega
      rw [cons_append, patch_cons, written last later within'', moved]
      simp

/-- What the replacements behind a position see, when those in front of it are made. -/
theorem drop_patch_append (within : Within next position first)
    (bounded : next ≤ position + rest.length) (later : Within last next second) :
    (patch rest position (first ++ second)).drop
        (next - position + (first.map Replacement.growth).sum).toNat =
      patch (rest.drop (next - position).toNat) next second := by
  obtain ⟨front, length, written⟩ := exists_front within bounded
  have isFront : (next - position + (first.map Replacement.growth).sum).toNat =
      front.length := by omega
  rw [written last second later, isFront, drop_left]

/-- A list with a replacement made in it and the same list without: the text of the
replacement stands where the replaced elements stood. -/
theorem exists_parts {rest : List α} {last position : Int}
    {first second : List (Replacement α)} {e : Replacement α}
    (before : Within e.start position first) (ordered : e.start ≤ e.stop)
    (behind : Within last e.stop second) (bounded : e.stop ≤ position + rest.length) :
    ∃ front back, (front.length : Int) = e.start - position + (first.map Replacement.growth).sum ∧
      back = patch (rest.drop (e.stop - position).toNat) e.stop second ∧
      patch rest position (first ++ e :: second) = front ++ (e.text ++ back) ∧
      patch rest position (first ++ second) =
        front ++ ((rest.drop (e.start - position).toNat).take (e.stop - e.start).toNat ++
          back) := by
  have start := before.le
  obtain ⟨front, length, written⟩ := exists_front before (show e.start ≤ position + rest.length
    by omega)
  have dropped : ((rest.drop (e.start - position).toNat).length : Int) =
      rest.length - (e.start - position) := by
    rw [length_drop]
    omega
  have moved : (rest.drop (e.start - position).toNat).drop (e.stop - e.start).toNat =
      rest.drop (e.stop - position).toNat := by
    rw [drop_drop]
    congr 1
    omega
  refine ⟨front, _, length, rfl, ?_, ?_⟩
  · rw [written last (e :: second) ⟨Int.le_refl _, ordered, behind⟩, patch_cons, Int.sub_self,
      moved]
    simp
  · rw [written last second (behind.of_le ordered), patch_eq_take ordered (by omega) behind, moved]

/-! ## Replacements with unchanged elements in their text -/

/-- The elements between two positions, in the rest of a list. -/
def between (rest : List α) (position first last : Int) : List α :=
  (rest.drop (first - position).toNat).take (last - first).toNat

theorem between_drop {text : List α} {position first : Int} (nonneg : 0 ≤ position)
    (start : position ≤ first) (last : Int) :
    between (text.drop position.toNat) position first last = between text 0 first last := by
  have sum : position.toNat + (first - position).toNat = (first - 0).toNat := by omega
  rw [between, between, drop_drop, sum]

/-- A replacement that also writes what stands around the replaced part. -/
theorem patch_widen {rest : List α} {position last : Int} {e wide : Replacement α}
    {edits : List (Replacement α)} (first : position ≤ wide.start)
    (start : wide.start ≤ e.start) (ordered : e.start ≤ e.stop) (stop : e.stop ≤ wide.stop)
    (within : Within last wide.stop edits) (bounded : wide.stop ≤ position + rest.length)
    (text : wide.text = between rest position wide.start e.start ++ e.text ++
      between rest position e.stop wide.stop) :
    patch rest position (e :: edits) = patch rest position (wide :: edits) := by
  have moved : (rest.drop (e.stop - position).toNat).drop (wide.stop - e.stop).toNat =
      rest.drop (wide.stop - position).toNat := by
    rw [drop_drop]
    congr 1
    omega
  have length : ((rest.drop (e.stop - position).toNat).length : Int) =
      position + rest.length - e.stop := by
    rw [length_drop]
    omega
  have taken : rest.take (wide.start - position).toNat ++
      between rest position wide.start e.start = rest.take (e.start - position).toNat := by
    have sum : (e.start - position).toNat =
        (wide.start - position).toNat + (e.start - wide.start).toNat := by omega
    rw [between, sum, take_add]
  rw [patch_cons, patch_cons, patch_eq_take stop (by omega) within, moved, text, ← taken]
  simp only [between, append_assoc]

/-- Two replacements as one that also writes what stands between them. -/
theorem patch_join {rest : List α} {position : Int} {first second : Replacement α}
    {edits : List (Replacement α)} (start : position ≤ first.start)
    (ordered : first.start ≤ first.stop) (gap : first.stop ≤ second.start)
    (ordered' : second.start ≤ second.stop) :
    patch rest position (first :: second :: edits) = patch rest position (⟨first.start, second.stop,
        first.text ++ (between rest position first.stop second.start ++ second.text)⟩ ::
          edits) := by
  have toStop : (rest.drop (first.stop - position).toNat).drop (second.stop - first.stop).toNat =
      rest.drop (second.stop - position).toNat := by
    rw [drop_drop]
    congr 1
    omega
  rw [patch_cons, patch_cons, patch_cons, toStop]
  simp only [between, append_assoc]

theorem mem_patch {a : α}
    (member : a ∈ patch rest position edits) : a ∈ rest ∨ ∃ e ∈ edits, a ∈ e.text := by
  induction edits generalizing rest position with
  | nil => exact .inl member
  | cons e edits ih =>
    rw [patch_cons, mem_append, mem_append] at member
    rcases member with before | inText | later
    · exact .inl (mem_of_mem_take before)
    · exact .inr ⟨e, by simp, inText⟩
    · rcases ih later with inRest | ⟨other, inEdits, inText⟩
      · exact .inl (mem_of_mem_drop inRest)
      · exact .inr ⟨other, mem_cons_of_mem _ inEdits, inText⟩

theorem mem_patch_of_mem_text
    {e : Replacement α} {a : α} (inEdits : e ∈ edits) (inText : a ∈ e.text) :
    a ∈ patch rest position edits := by
  induction edits generalizing rest position with
  | nil => cases inEdits
  | cons other edits ih =>
    rw [patch_cons, mem_append, mem_append]
    obtain rfl | inEdits := mem_cons.mp inEdits
    · exact .inr (.inl inText)
    · exact .inr (.inr (ih inEdits))

/-- A replacement may leave out a first element that it writes again. -/
theorem patch_shift {position : Int} {start stop : Int} {text : List α} (first : position ≤ start)
    (here : rest[(start - position).toNat]? = some a) :
    patch rest position (⟨start, stop, a :: text⟩ :: edits) =
      patch rest position (⟨start + 1, stop, text⟩ :: edits) := by
  have sum : (start + 1 - position).toNat = (start - position).toNat + 1 := by omega
  rw [patch_cons, patch_cons]
  simp only [sum, take_add_one, here]
  simp

/-- A replacement may leave out a last element that it writes again. -/
theorem patch_pop {position last : Int} {start stop : Int}
    {text : List α} (first : position ≤ start)
    (ordered : start < stop) (within : Within last stop edits)
    (bounded : stop ≤ position + rest.length)
    (here : rest[(stop - 1 - position).toNat]? = some a) :
    patch rest position (⟨start, stop, text ++ [a]⟩ :: edits) =
      patch rest position (⟨start, stop - 1, text⟩ :: edits) := by
  symm
  apply @patch_widen _ rest position last ⟨start, stop - 1, text⟩ ⟨start, stop, text ++ [a]⟩
    edits first (le_refl _) (show start ≤ stop - 1 by omega)
    (show stop - 1 ≤ stop by omega) within bounded
  have none : (start - start).toNat = 0 := by omega
  have one : (stop - (stop - 1)).toNat = 1 := by omega
  have isHere : (rest.drop (stop - 1 - position).toNat).take 1 = [a] := by
    rw [take_one, head?_drop, here]
    rfl
  simp only [between, none, one, isHere, take_zero, nil_append]

end CodeEditor

/-!
## Making replacements of two lists at once

Replacements of one list that come from two sources are woven in the order of their places.
An insertion may stand inside a range that another replacement takes away; the elements that
are taken away are skipped, and every text is put at its place.
-/

namespace CodeEditor

open List Int

variable {α : Type}

/-- A list that has the elements of two lists, each in its order. -/
inductive Interleaves {β : Type} : (first second merged : List β) → Prop
  | nil : Interleaves [] [] []
  | left {b : β} {first second merged : List β} : Interleaves first second merged →
      Interleaves (b :: first) second (b :: merged)
  | right {b : β} {first second merged : List β} : Interleaves first second merged →
      Interleaves first (b :: second) (b :: merged)

namespace Interleaves

variable {β : Type} {first second merged : List β}

theorem mem_iff (interleaves : Interleaves first second merged) {b : β} :
    b ∈ merged ↔ b ∈ first ∨ b ∈ second := by
  induction interleaves with
  | nil => simp
  | left _ ih => simp [ih, or_assoc]
  | right _ ih => simp [ih, or_left_comm]

theorem nil_right (list : List β) : Interleaves list [] list := by
  induction list with
  | nil => exact nil
  | cons b list ih => exact left ih

end Interleaves

namespace Replacement

/-- The replacement that has to be made first: the one that starts first, and of two that
start together one that takes nothing away. -/
def Before (first second : Replacement α) : Prop :=
  first.start < second.start ∨ (first.start = second.start ∧ first.start = first.stop)

/-- Nothing happens. -/
def Idle (e : Replacement α) : Prop := e.start = e.stop ∧ e.text = []

end Replacement

/-- The replacements made in the rest of a list, which starts at a position; what was taken
away stays away. -/
def weave : (rest : List α) → (position : Int) → List (Replacement α) → List α
  | rest, _, [] => rest
  | rest, position, e :: edits =>
    rest.take (e.start - position).toNat ++
      (e.text ++ weave (rest.drop (e.stop - position).toNat) (max position e.stop) edits)

variable {rest : List α} {position last : Int} {edits : List (Replacement α)}

theorem weave_cons (e : Replacement α) : weave rest position (e :: edits) =
      rest.take (e.start - position).toNat ++
        (e.text ++ weave (rest.drop (e.stop - position).toNat) (max position e.stop) edits) :=
  rfl

/-- Replacements that do not overlap. -/
theorem weave_eq_patch (within : Within last position edits) :
    weave rest position edits = patch rest position edits := by
  induction edits generalizing rest position with
  | nil => rfl
  | cons e edits ih =>
    have ⟨start, ordered, later⟩ := within
    rw [weave_cons, patch_cons, max_eq_right (le_trans start ordered), ih later]

/-- An idle replacement only cuts the list. -/
theorem weave_idle {e : Replacement α} (idle : e.Idle) : weave rest position (e :: edits) =
      rest.take (e.start - position).toNat ++
        weave (rest.drop (e.start - position).toNat) (max position e.start) edits := by
  rw [weave_cons, idle.2, nil_append, idle.1]

/-- What lies in front of all replacements that do something stays. -/
theorem weave_drop {count : Nat} (bound : count ≤ rest.length)
    (clear : ∀ e ∈ edits, position + count ≤ e.start ∧ e.start ≤ e.stop ∨ e.Idle) :
    weave rest position edits =
      rest.take count ++ weave (rest.drop count) (position + count) edits := by
  induction edits generalizing rest position count with
  | nil => exact (take_append_drop count rest).symm
  | cons e edits ih =>
    have clearRest : ∀ e ∈ edits, position + count ≤ e.start ∧ e.start ≤ e.stop ∨ e.Idle :=
      fun other isMember => clear other (mem_cons_of_mem _ isMember)
    by_cases behind : position + count ≤ e.start ∧ e.start ≤ e.stop
    · have toStart : (e.start - position).toNat =
          count + (e.start - (position + count)).toNat := by omega
      have toStop : (e.stop - position).toNat =
          count + (e.stop - (position + count)).toNat := by omega
      rw [weave_cons, weave_cons, toStart, toStop, take_add, drop_drop,
        max_eq_right (show position ≤ e.stop by omega),
        max_eq_right (show position + count ≤ e.stop by omega), append_assoc]
    · have idle := (clear e mem_cons_self).resolve_left behind
      have single := idle.1
      have nothing : (e.start - (position + count)).toNat = 0 := by omega
      have atEnd : max (position + count) e.start = position + count :=
        max_eq_left (by omega)
      rw [weave_idle idle, weave_idle idle, nothing, take_zero, nil_append, drop_zero, atEnd]
      -- The cut at the place of the idle replacement is inside the part that stays.
      generalize cut : (e.start - position).toNat = n
      obtain ⟨more, rfl⟩ := Nat.exists_eq_add_of_le (show n ≤ count by omega)
      have middle : max position e.start + (more : Int) = position + (n + more : Nat) := by
        omega
      have shifted := @ih (rest.drop n) (max position e.start) more
        (by rw [length_drop]; omega) (by rwa [middle])
      rw [shifted, middle, drop_drop, take_add, append_assoc]

end CodeEditor

import Mathlib

/-!
# Small immutable sets

Model of `smallImmutableSet.ts`. A set is known by the number of its instance: the cache
gives one instance to several callers. The members are the keys that `IDenseKeyProvider` counts
out.
-/

namespace CodeEditor.BracketPairs

open List Nat

abbrev Word := BitVec 32

/-- An array that is not written to any more: its length, and what its indices hold, zero
where they hold nothing. It can be the one array `emptyArr`. -/
structure WordArray where
  length : Nat
  word : Int → Word
  isEmptyArr : Bool

def emptyArr : WordArray := ⟨0, fun _ => 0#32, true⟩

structure SmallImmutableSet where
  items : Word
  additionalItems : WordArray

/-- The instances that were created, and the one that the cache holds for a word of items. -/
structure Instances where
  count : Nat
  get : Nat → SmallImmutableSet
  cache : Word → Option Nat

namespace SmallImmutableSet

/-- `new SmallImmutableSet(items, additionalItems)`. -/
def construct (s : Instances) (value : SmallImmutableSet) : Instances :=
  ⟨s.count + 1, Function.update s.get s.count value, s.cache⟩

def create (s : Instances) (items : Word) (additionalItems : WordArray) : Instances × Nat :=
  let constructed := construct s ⟨items, additionalItems⟩
  if items.toInt ≤ 128 ∧ additionalItems.length = 0 then
    match s.cache items with
    | some cached => (s, cached)
    | none =>
      ({ constructed with cache := Function.update s.cache items (some s.count) }, s.count)
  else (constructed, s.count)

/-- `SmallImmutableSet.empty` is the instance zero. -/
def initial : Instances :=
  (create ⟨0, fun _ => ⟨0#32, emptyArr⟩, fun _ => none⟩ 0#32 emptyArr).1

/-- `key >> 5`, which reads the key as a signed number of 32 bits. -/
def wordIndex (key : Nat) : Int := ((BitVec.ofNat 32 key).sshiftRight 5).toInt

/-- `1 << key`. -/
def keyBit (key : Nat) : Word := 1#32 <<< (key % 32)

def add (s : Instances) (set key : Nat) : Instances × Nat :=
  let value := s.get set
  let idx := wordIndex key
  if idx = 0 then
    let newItem := keyBit key ||| value.items
    if newItem = value.items then (s, set) else create s newItem value.additionalItems
  else
    let idx := idx - 1
    let items := value.additionalItems
    -- A copy keeps what stands at natural indices.
    let copy := fun i : Int => if 0 ≤ i then items.word i else 0#32
    let newItems := Function.update copy idx (copy idx ||| keyBit key)
    create s value.items ⟨max items.length (idx + 1).toNat, newItems, false⟩

def has (value : SmallImmutableSet) (key : Nat) : Bool :=
  let idx := wordIndex key
  if idx = 0 then value.items &&& keyBit key ≠ 0#32
  else value.additionalItems.word (idx - 1) &&& keyBit key ≠ 0#32

def merge (s : Instances) (set other : Nat) : Instances × Nat :=
  let value := s.get set
  let merged := value.items ||| (s.get other).items
  let items1 := value.additionalItems
  let items2 := (s.get other).additionalItems
  if items1.isEmptyArr ∧ items2.isEmptyArr then
    if merged = value.items then (s, set)
    else if merged = (s.get other).items then (s, other)
    else create s merged emptyArr
  else
    let length := max items1.length items2.length
    let newItems := fun i : Int =>
      if 0 ≤ i ∧ i < length then items1.word i ||| items2.word i else 0#32
    create s merged ⟨length, newItems, false⟩

def intersects (value other : SmallImmutableSet) : Bool :=
  value.items &&& other.items ≠ 0#32 ||
    (List.range (min value.additionalItems.length other.additionalItems.length)).any fun i =>
      value.additionalItems.word i &&& other.additionalItems.word i ≠ 0#32

def equals (value other : SmallImmutableSet) : Bool :=
  value.items = other.items && value.additionalItems.length = other.additionalItems.length &&
    (List.range value.additionalItems.length).all fun i =>
      value.additionalItems.word i = other.additionalItems.word i

/-- Instances, and the sets that were built, each with its members. -/
abbrev State := Instances × List (Nat × Finset Nat)

def start : State := (initial, [(0, ∅)])

/-- One call on sets that were built before; keys are below `2 ^ 31`. -/
inductive Step : State → State → Prop
  | add (s : Instances) (sets : List (Nat × Finset Nat)) {set key : Nat} {members : Finset Nat}
      (built : (set, members) ∈ sets) (dense : key < 2 ^ 31) :
      Step (s, sets) ((add s set key).1, ((add s set key).2, insert key members) :: sets)
  | merge (s : Instances) (sets : List (Nat × Finset Nat)) {set other : Nat}
      {members others : Finset Nat} (built : (set, members) ∈ sets)
      (built' : (other, others) ∈ sets) :
      Step (s, sets) ((merge s set other).1, ((merge s set other).2, members ∪ others) :: sets)

/-! ## What an instance represents -/

/-- The words of an instance, its items first. -/
def wordAt (value : SmallImmutableSet) : Nat → Word
  | 0 => value.items
  | i + 1 => value.additionalItems.word i

/-- The bits of an instance are the members, and its last word is not zero. -/
structure Represents (value : SmallImmutableSet) (members : Finset Nat) : Prop where
  bit : ∀ {i k}, k < 32 → ((wordAt value i).getLsbD k = true ↔ 32 * i + k ∈ members)
  beyond : ∀ {i}, value.additionalItems.length < i → wordAt value i = 0#32
  last : value.additionalItems.length ≠ 0 → wordAt value value.additionalItems.length ≠ 0#32
  array : value.additionalItems.isEmptyArr = true ∨ value.additionalItems.length = 0 →
    value.additionalItems = emptyArr

variable {value value' other : SmallImmutableSet} {members others : Finset Nat}
  {s s' : Instances} {key k set : Nat}

theorem wordIndex_of_lt (dense : key < 2 ^ 31) : wordIndex key = (key / 32 : Nat) := by
  have same : (BitVec.ofNat 32 key).toNat = key := mod_eq_of_lt (by omega)
  rw [wordIndex, BitVec.toInt_sshiftRight, BitVec.toInt_eq_toNat_of_lt (by omega), same]
  exact congrArg Int.ofNat (shiftRight_eq_div_pow key 5)

theorem getLsbD_keyBit (below : k < 32) : (keyBit key).getLsbD k = true ↔ k = key % 32 := by
  have bit : (keyBit key).getLsbD k = (BitVec.twoPow 32 (key % 32)).getLsbD k := rfl
  rw [bit, BitVec.getLsbD_twoPow]
  simp
  omega

theorem and_ne_zero_iff {a b : Word} :
    a &&& b ≠ 0#32 ↔ ∃ k < 32, a.getLsbD k = true ∧ b.getLsbD k = true := by
  constructor
  · intro some
    by_contra none
    refine some (BitVec.eq_of_getLsbD_eq fun k below => ?_)
    rw [BitVec.getLsbD_and, BitVec.getLsbD_zero]
    exact Bool.eq_false_iff.mpr fun both => none ⟨k, below, Bool.and_eq_true_iff.mp both⟩
  · rintro ⟨k, -, both⟩ none
    have bit := congrArg (BitVec.getLsbD · k) none
    simp [both] at bit

theorem and_keyBit_ne_zero {a : Word} : a &&& keyBit key ≠ 0#32 ↔ a.getLsbD (key % 32) = true := by
  have below := mod_lt key (show 0 < 32 by omega)
  rw [and_ne_zero_iff]
  constructor
  · rintro ⟨k, below, here, inKey⟩
    rwa [← (getLsbD_keyBit below).mp inKey]
  · intro here
    exact ⟨_, below, here, (getLsbD_keyBit below).mpr rfl⟩

/-- Two instances of the same members hold the same words. -/
theorem Represents.wordAt_eq (holds : Represents value members)
    (holds' : Represents other members) (i : Nat) : wordAt value i = wordAt other i :=
  BitVec.eq_of_getLsbD_eq fun _ below =>
    Bool.eq_iff_iff.mpr ((holds.bit below).trans (holds'.bit below).symm)

theorem Represents.length_le (holds : Represents value members)
    (holds' : Represents other members) :
    value.additionalItems.length ≤ other.additionalItems.length := by
  by_contra short
  refine holds.last (by omega) ?_
  rw [holds.wordAt_eq holds', holds'.beyond (by omega)]

theorem has_iff (holds : Represents value members) (dense : key < 2 ^ 31) :
    has value key = true ↔ key ∈ members := by
  have word : has value key = decide (wordAt value (key / 32) &&& keyBit key ≠ 0#32) := by
    rw [has, wordIndex_of_lt dense]
    cases key / 32 with
    | zero => rfl
    | succ i => rw [if_neg (by omega), wordAt, show ((i + 1 : Nat) : Int) - 1 = i by omega]
  rw [word, decide_eq_true_iff, and_keyBit_ne_zero,
    holds.bit (mod_lt key (show 0 < 32 by omega)), div_add_mod]

theorem intersects_iff (holds : Represents value members) (holds' : Represents other others) :
    intersects value other = true ↔ ∃ key, key ∈ members ∧ key ∈ others := by
  have words : intersects value other = true ↔ ∃ i, wordAt value i &&& wordAt other i ≠ 0#32 := by
    rw [intersects, Bool.or_eq_true, decide_eq_true_iff, any_eq_true]
    constructor
    · rintro (items | ⟨i, -, word⟩)
      · exact ⟨0, items⟩
      · exact ⟨i + 1, of_decide_eq_true word⟩
    · rintro ⟨i | i, word⟩
      · exact .inl word
      · refine .inr ⟨i, mem_range.mpr ?_, decide_eq_true word⟩
        by_contra outside
        rcases lt_or_ge value.additionalItems.length (i + 1) with beyond | inside
        · simp [holds.beyond beyond] at word
        · simp [holds'.beyond (show _ < i + 1 by omega)] at word
  rw [words]
  constructor
  · rintro ⟨i, word⟩
    obtain ⟨k, below, first, second⟩ := and_ne_zero_iff.mp word
    exact ⟨_, (holds.bit below).mp first, (holds'.bit below).mp second⟩
  · rintro ⟨key, first, second⟩
    have below := mod_lt key (show 0 < 32 by omega)
    rw [← div_add_mod key 32] at first second
    exact ⟨key / 32, and_ne_zero_iff.mpr
      ⟨_, below, (holds.bit below).mpr first, (holds'.bit below).mpr second⟩⟩

theorem equals_iff (holds : Represents value members) (holds' : Represents other others) :
    equals value other = true ↔ members = others := by
  simp only [equals, Bool.and_eq_true, decide_eq_true_eq, all_eq_true, mem_range]
  constructor
  · rintro ⟨⟨items, length⟩, words⟩
    have same : ∀ i, wordAt value i = wordAt other i := by
      rintro (_ | i)
      · exact items
      · by_cases inside : i < value.additionalItems.length
        · exact words i inside
        · rw [holds.beyond (by omega), holds'.beyond (by omega)]
    ext key
    have below := mod_lt key (show 0 < 32 by omega)
    rw [← div_add_mod key 32, ← holds.bit below, ← holds'.bit below, same]
  · rintro rfl
    have same := holds.wordAt_eq holds'
    exact ⟨⟨same 0, le_antisymm (holds.length_le holds') (holds'.length_le holds)⟩,
      fun i _ => same (i + 1)⟩

/-! ## Building -/

theorem represents_empty : Represents ⟨0#32, emptyArr⟩ ∅ where
  bit {i _} _ := by cases i <;> simp [wordAt, emptyArr]
  beyond {i} _ := by cases i <;> rfl
  last none := absurd rfl none
  array _ := rfl

theorem Represents.add (holds : Represents value members) (words : ∀ i, wordAt value' i =
      if i = key / 32 then wordAt value i ||| keyBit key else wordAt value i)
    (length : value'.additionalItems.length = max value.additionalItems.length (key / 32))
    (array : value'.additionalItems.isEmptyArr = true ∨ value'.additionalItems.length = 0 →
      value'.additionalItems = emptyArr) : Represents value' (insert key members) := by
  have bit : ∀ {i k}, k < 32 →
      ((wordAt value' i).getLsbD k = true ↔ 32 * i + k ∈ insert key members) := by
    intro i k below
    rw [words, Finset.mem_insert, ← holds.bit below]
    split
    · rw [BitVec.getLsbD_or, Bool.or_eq_true, getLsbD_keyBit below, or_comm]
      exact or_congr_left ⟨fun _ => by omega, fun _ => by omega⟩
    · exact (or_iff_right (by omega)).symm
  refine ⟨bit, fun {i} outside => ?_, fun some => ?_, array⟩
  · rw [words, if_neg (by omega), holds.beyond (by omega)]
  · rw [length] at some ⊢
    intro zero
    by_cases own : value.additionalItems.length ≤ key / 32
    · have here := (@bit (key / 32) _ (mod_lt key (show 0 < 32 by omega))).mpr
        (by rw [div_add_mod]; exact Finset.mem_insert_self key members)
      rw [max_eq_right own] at zero
      simp [zero] at here
    · rw [max_eq_left (by omega), words, if_neg (by omega)] at zero
      exact holds.last (by omega) zero

theorem Represents.merge (holds : Represents value members) (holds' : Represents other others)
    (words : ∀ i, wordAt value' i = wordAt value i ||| wordAt other i)
    (length : value'.additionalItems.length =
      max value.additionalItems.length other.additionalItems.length)
    (array : value'.additionalItems.isEmptyArr = true ∨ value'.additionalItems.length = 0 →
      value'.additionalItems = emptyArr) : Represents value' (members ∪ others) := by
  refine ⟨fun below => ?_, fun {i} outside => ?_, fun some zero => ?_, array⟩
  · rw [words, BitVec.getLsbD_or, Bool.or_eq_true, holds.bit below, holds'.bit below,
      Finset.mem_union]
  · rw [words, holds.beyond (by omega), holds'.beyond (by omega), BitVec.or_self]
  · rw [words, BitVec.or_eq_zero_iff, length] at zero
    rcases le_total value.additionalItems.length other.additionalItems.length with le | le
    · rw [max_eq_right le] at zero
      exact holds'.last (by omega) zero.2
    · rw [max_eq_left le] at zero
      exact holds.last (by omega) zero.1

/-- The instance with a number represents the members. -/
def Holds (s : Instances) (set : Nat) (members : Finset Nat) : Prop :=
  set < s.count ∧ Represents (s.get set) members

/-- What the cache holds for some items has these items and `emptyArr`. -/
def Coherent (s : Instances) : Prop :=
  ∀ items cached, s.cache items = some cached →
    cached < s.count ∧ s.get cached = ⟨items, emptyArr⟩

/-- Instances are added, and none is changed. -/
def Grows (s s' : Instances) : Prop :=
  s.count ≤ s'.count ∧ ∀ set < s.count, s'.get set = s.get set

/-- A call gives an instance with these members. -/
structure Builds (s : Instances) (result : Instances × Nat) (members : Finset Nat) : Prop where
  coherent : Coherent result.1
  grows : Grows s result.1
  holds : Holds result.1 result.2 members

theorem Grows.refl (s : Instances) : Grows s s := ⟨le_refl _, fun _ _ => rfl⟩

theorem Grows.keeps (grows : Grows s s') (here : set < s.count ∧ s.get set = value) :
    set < s'.count ∧ s'.get set = value :=
  ⟨lt_of_lt_of_le here.1 grows.1, (grows.2 set here.1).trans here.2⟩

theorem Holds.mono (holds : Holds s set members) (grows : Grows s s') : Holds s' set members := by
  obtain ⟨before, same⟩ := grows.keeps ⟨holds.1, rfl⟩
  exact ⟨before, same ▸ holds.2⟩

theorem grows_construct (s : Instances) (value : SmallImmutableSet) : Grows s (construct s value) :=
  ⟨le_succ _, fun _ before => Function.update_of_ne before.ne _ _⟩

theorem get_construct (s : Instances) (value : SmallImmutableSet) :
    (construct s value).get s.count = value := Function.update_self ..

/-- The cache gives the instance that would be built anew. -/
theorem create_builds {word : Word} {array : WordArray} (coherent : Coherent s)
    (represents : Represents ⟨word, array⟩ members) : Builds s (create s word array) members := by
  have grows := grows_construct s ⟨word, array⟩
  have here := get_construct s ⟨word, array⟩
  have holds : Holds (construct s ⟨word, array⟩) s.count members :=
    ⟨lt_succ_self _, here.symm ▸ represents⟩
  rw [create]
  split
  next small =>
    obtain rfl : array = emptyArr := represents.array (.inr small.2)
    split
    next cached isCached =>
      obtain ⟨before, same⟩ := coherent _ _ isCached
      exact ⟨coherent, .refl s, before, same.symm ▸ represents⟩
    next =>
      refine ⟨fun items cached isCached => ?_, grows, holds⟩
      by_cases same : items = word
      · subst same
        obtain rfl : s.count = cached := by simpa using isCached
        exact ⟨lt_succ_self _, here⟩
      · exact grows.keeps (coherent _ _ (by simpa [same] using isCached))
  next => exact ⟨fun _ _ isCached => grows.keeps (coherent _ _ isCached), grows, holds⟩

theorem add_builds (coherent : Coherent s) (holds : Holds s set members) (dense : key < 2 ^ 31) :
    Builds s (add s set key) (insert key members) := by
  obtain ⟨here, represents⟩ := holds
  rw [add, wordIndex_of_lt dense]
  split
  next small =>
    have inserted : Represents ⟨keyBit key ||| (s.get set).items, (s.get set).additionalItems⟩
        (insert key members) := by
      refine represents.add (fun i => ?_) (by simp; omega) represents.array
      cases i with
      | zero => rw [if_pos (by omega), BitVec.or_comm]; rfl
      | succ i => rw [if_neg (by omega)]; rfl
    dsimp only
    split
    next same => exact ⟨coherent, .refl s, here, by rwa [same] at inserted⟩
    next => exact create_builds coherent inserted
  next large =>
    refine create_builds coherent (represents.add (fun i => ?_) (by simp; omega) fun short => ?_)
    · cases i with
      | zero => rw [if_neg (by omega)]; rfl
      | succ i =>
        rw [wordAt, wordAt]
        simp only [Function.update_apply,
          show ((i : Int) = (key / 32 : Nat) - 1) ↔ i + 1 = key / 32 by omega]
        split
        next same =>
          rw [show ((key / 32 : Nat) : Int) - 1 = i by omega, if_pos (Int.natCast_nonneg i)]
        next => rw [if_pos (Int.natCast_nonneg i)]
    · simp at short
      omega

theorem merge_builds {other : Nat} (coherent : Coherent s) (holds : Holds s set members)
    (holds' : Holds s other others) : Builds s (merge s set other) (members ∪ others) := by
  rw [merge]
  dsimp only
  split
  next both =>
    have first := holds.2.array (.inl both.1)
    have second := holds'.2.array (.inl both.2)
    have union : Represents ⟨(s.get set).items ||| (s.get other).items, emptyArr⟩
        (members ∪ others) := by
      refine holds.2.merge holds'.2 (fun i => ?_) (by simp [first, second]) fun _ => rfl
      cases i with
      | zero => rfl
      | succ i => simp [wordAt, first, second, emptyArr]
    split
    next same =>
      rw [same, ← first] at union
      exact ⟨coherent, .refl s, holds.1, union⟩
    next =>
      split
      next same =>
        rw [same, ← second] at union
        exact ⟨coherent, .refl s, holds'.1, union⟩
      next => exact create_builds coherent union
  next some =>
    refine create_builds coherent (holds.2.merge holds'.2 (fun i => ?_) rfl fun short => ?_)
    · cases i with
      | zero => rfl
      | succ i =>
        rw [wordAt]
        dsimp only
        split
        · rfl
        · rw [holds.2.beyond (by omega), holds'.2.beyond (by omega), BitVec.or_self]
    · have none : max _ _ = 0 := short.resolve_left Bool.false_ne_true
      have first := holds.2.array (.inr (by omega))
      have second := holds'.2.array (.inr (by omega))
      exact absurd ⟨congrArg WordArray.isEmptyArr first, congrArg WordArray.isEmptyArr second⟩ some

/-! ## Runs -/

/-- All sets that were built represent their members. -/
structure Agrees (state : State) : Prop where
  coherent : Coherent state.1
  holds : ∀ set ∈ state.2, Holds state.1 set.1 set.2

variable {state later : State}

theorem Agrees.step (agrees : Agrees state) (step : Step state later) :
    Agrees later ∧ Grows state.1 later.1 := by
  have both : ∀ {s : Instances} {sets : List (Nat × Finset Nat)} {result : Instances × Nat}
      {members}, Agrees (s, sets) → Builds s result members →
        Agrees (result.1, (result.2, members) :: sets) ∧ Grows s result.1 :=
    fun agrees builds => ⟨⟨builds.coherent, forall_mem_cons.mpr ⟨builds.holds,
      fun set built => (agrees.holds set built).mono builds.grows⟩⟩, builds.grows⟩
  cases step with
  | add s sets built dense =>
    exact both agrees (add_builds agrees.coherent (agrees.holds _ built) dense)
  | merge s sets built built' =>
    exact both agrees (merge_builds agrees.coherent (agrees.holds _ built) (agrees.holds _ built'))

theorem Agrees.steps (agrees : Agrees state) (steps : Relation.ReflTransGen Step state later) :
    Agrees later ∧ Grows state.1 later.1 := by
  induction steps with
  | refl => exact ⟨agrees, .refl _⟩
  | tail _ step ih =>
    have next := ih.1.step step
    refine ⟨next.1, ih.2.1.trans next.2.1, fun set before => ?_⟩
    rw [next.2.2 set (lt_of_lt_of_le before ih.2.1), ih.2.2 set before]

theorem agrees_start : Agrees start := by
  have empty : Coherent ⟨0, fun _ => ⟨0#32, emptyArr⟩, fun _ => none⟩ := nofun
  have built := create_builds empty represents_empty
  exact ⟨built.coherent, forall_mem_singleton.mpr built.holds⟩

/-- In a run with keys below `2 ^ 31`, `has` is membership, `intersects` finds common members
and `equals` is equality of members, and no later call changes an instance. -/
theorem sets_are_faithful (run : Relation.ReflTransGen Step start state)
    (more : Relation.ReflTransGen Step state later) :
    (∀ set members, (set, members) ∈ state.2 →
      (∀ key < 2 ^ 31, has (state.1.get set) key = true ↔ key ∈ members) ∧
      ∀ other others, (other, others) ∈ state.2 →
        (intersects (state.1.get set) (state.1.get other) = true ↔
          ∃ key, key ∈ members ∧ key ∈ others) ∧
        (equals (state.1.get set) (state.1.get other) = true ↔ members = others)) ∧
    ∀ set < state.1.count, later.1.get set = state.1.get set := by
  have agrees := (agrees_start.steps run).1
  refine ⟨fun set members built => ?_, (agrees.steps more).2.2⟩
  have represents := (agrees.holds _ built).2
  refine ⟨fun key small => has_iff represents small, fun other others built' => ?_⟩
  have represents' := (agrees.holds _ built').2
  exact ⟨intersects_iff represents represents', equals_iff represents represents'⟩

/-- Two sets of one key each, in words of their own, and their union. -/
theorem sets_are_faithful_sample :
    let one := add initial 0 3
    let two := add one.1 0 40
    let both := merge two.1 one.2 two.2
    has (both.1.get both.2) 40 = true ∧
      equals (both.1.get both.2) (both.1.get two.2) = false ∧
      intersects (both.1.get one.2) (both.1.get two.2) = false := by
  intro one two both
  have first : Step start (one.1, [(one.2, insert 3 ∅), (0, ∅)]) :=
    .add initial _ mem_cons_self (by decide)
  have second : Step _ (two.1, [(two.2, insert 40 ∅), (one.2, insert 3 ∅), (0, ∅)]) :=
    .add one.1 _ (mem_cons_of_mem _ mem_cons_self) (by decide)
  have third : Step (two.1, [(two.2, insert 40 ∅), (one.2, insert 3 ∅), (0, ∅)]) (both.1, _) :=
    .merge two.1 _ (mem_cons_of_mem _ mem_cons_self) mem_cons_self
  obtain ⟨faithful, -⟩ := sets_are_faithful (((Relation.ReflTransGen.refl.tail first).tail
    second).tail third) .refl
  obtain ⟨isMember, isSet⟩ := faithful both.2 _ mem_cons_self
  obtain ⟨-, differs⟩ := isSet two.2 (insert 40 ∅) (by simp)
  obtain ⟨meets, -⟩ := (faithful one.2 (insert 3 ∅) (by simp)).2 two.2 (insert 40 ∅) (by simp)
  refine ⟨(isMember 40 (by decide)).mpr (by decide), ?_, ?_⟩
  · exact Bool.eq_false_iff.mpr (mt differs.mp (by decide))
  · exact Bool.eq_false_iff.mpr (mt meets.mp (by simp))

/-- Keys are read as signed numbers of 32 bits: a set of `2 ^ 32` has zero, and one of
`2 ^ 31` has nothing. -/
theorem large_keys_are_lost :
    has ((add initial 0 (2 ^ 32)).1.get (add initial 0 (2 ^ 32)).2) 0 = true ∧
      has ((add initial 0 (2 ^ 31)).1.get (add initial 0 (2 ^ 31)).2) (2 ^ 31) = false := by
  decide +kernel

end SmallImmutableSet
end CodeEditor.BracketPairs

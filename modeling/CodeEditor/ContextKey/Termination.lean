import CodeEditor.ContextKey.Soundness

/-!
# Building and negating expressions terminates

Distributing a disjunction makes the product of the weights of the elements smaller. Negating
goes down a level: the terminals of a negation hold no disjunction that the expression does not
hold deeper inside, so the checks for opposite elements negate expressions of a lower level.
-/

namespace CodeEditor.ContextKey
namespace Expression

open List Nat

variable {α : Type}

/-! ## Levels -/

/-- No atom is above level 0, no conjunction of atoms above level 1; a known negation is on a
lower level than its expression. No array is empty. -/
inductive LevelLE : Nat → Expression α → Prop
  | falseExpr {k : Nat} : LevelLE k falseExpr
  | trueExpr {k : Nat} : LevelLE k trueExpr
  | atom {k : Nat} {a : α} : LevelLE k (atom a)
  | and {k : Nat} {expr : List (Expression α)} {negated : Option (Expression α)}
      (nonempty : expr ≠ []) (elements : ∀ e ∈ expr, LevelLE (k + 1) e)
      (known : ∀ n, negated = some n → LevelLE k n) : LevelLE (k + 1) (and expr negated)
  | or {k : Nat} {expr : List (Expression α)} {negated : Option (Expression α)}
      (nonempty : expr ≠ []) (elements : ∀ e ∈ expr, LevelLE (k + 2) e)
      (known : ∀ n, negated = some n → LevelLE (k + 1) n) : LevelLE (k + 2) (or expr negated)

variable {e : Expression α}

theorem LevelLE.mono {k m : Nat} (level : LevelLE k e) (le : k ≤ m) : LevelLE m e := by
  induction level generalizing m with
  | falseExpr => exact .falseExpr
  | trueExpr => exact .trueExpr
  | atom => exact .atom
  | @and k expr negated nonempty elements known elementsHypothesis knownHypothesis =>
    obtain ⟨m, rfl⟩ : ∃ m', m = m' + 1 := ⟨m - 1, by omega⟩
    exact .and nonempty (fun e member => elementsHypothesis e member le)
      (fun n isNegated => knownHypothesis n isNegated (by omega))
  | @or k expr negated nonempty elements known elementsHypothesis knownHypothesis =>
    obtain ⟨m, rfl⟩ : ∃ m', m = m' + 2 := ⟨m - 2, by omega⟩
    exact .or nonempty (fun e member => elementsHypothesis e member le)
      (fun n isNegated => knownHypothesis n isNegated (by omega))

variable {expr : List (Expression α)}

theorem exists_level_of_forall (elements : ∀ e ∈ expr, ∃ k, LevelLE k e) :
    ∃ k, ∀ e ∈ expr, LevelLE k e := by
  induction expr with
  | nil => exact ⟨0, by simp⟩
  | cons e expr ih =>
    obtain ⟨first, isFirst⟩ := elements e mem_cons_self
    obtain ⟨rest, isRest⟩ := ih fun e member => elements e (mem_cons_of_mem _ member)
    refine ⟨max first rest, ?_⟩
    intro other member
    obtain rfl | member := mem_cons.mp member
    · exact isFirst.mono (le_max_left _ _)
    · exact (isRest other member).mono (le_max_right _ _)

/-- Every valid expression is on some level. -/
theorem exists_level {value : α → Bool} (valid : Valid admissible value e) : ∃ k, LevelLE k e := by
  have forOption : ∀ negated : Option (Expression α),
      (∀ n, negated = some n → ∃ k, LevelLE k n) → ∃ k, ∀ n, negated = some n → LevelLE k n := by
    intro negated levels
    cases negated with
    | none => exact ⟨0, by simp⟩
    | some n =>
      obtain ⟨k, isLevel⟩ := levels n rfl
      exact ⟨k, by rintro _ ⟨⟩; exact isLevel⟩
  induction valid with
  | falseExpr => exact ⟨0, .falseExpr⟩
  | trueExpr => exact ⟨0, .trueExpr⟩
  | atom isAdmissible => exact ⟨0, .atom⟩
  | and nonempty elements known isNegation elementsHypothesis knownHypothesis =>
    obtain ⟨k, elements⟩ := exists_level_of_forall elementsHypothesis
    obtain ⟨m, known⟩ := forOption _ knownHypothesis
    exact ⟨max k m + 1, .and nonempty (fun e member => (elements e member).mono (by omega))
      (fun n isNegated => (known n isNegated).mono (by omega))⟩
  | or nonempty elements known isNegation elementsHypothesis knownHypothesis =>
    obtain ⟨k, elements⟩ := exists_level_of_forall elementsHypothesis
    obtain ⟨m, known⟩ := forOption _ knownHypothesis
    exact ⟨max k m + 2, .or nonempty (fun e member => (elements e member).mono (by omega))
      (fun n isNegated => (known n isNegated).mono (by omega))⟩

/-! ## Weights -/

mutual

/-- A conjunction weighs the product of its elements, a disjunction more than their sum. -/
def weight : Expression α → Nat
  | falseExpr => 1
  | trueExpr => 1
  | atom _ => 1
  | and expr _ => weightProduct expr
  | or expr _ => weightSum expr + 1

def weightProduct : List (Expression α) → Nat
  | [] => 1
  | e :: expr => weight e * weightProduct expr

def weightSum : List (Expression α) → Nat
  | [] => 0
  | e :: expr => weight e + weightSum expr

end

theorem weightProduct_eq (expr : List (Expression α)) :
    weightProduct expr = (expr.map weight).prod := by
  induction expr with
  | nil => simp [weightProduct]
  | cons e expr ih => simp [weightProduct, ih]

theorem weightSum_eq (expr : List (Expression α)) : weightSum expr = (expr.map weight).sum := by
  induction expr with
  | nil => simp [weightSum]
  | cons e expr ih => simp [weightSum, ih]

theorem weight_pos (e : Expression α) : 0 < weight e := by
  match e with
  | .falseExpr => simp [weight]
  | .trueExpr => simp [weight]
  | .atom a => simp [weight]
  | .and expr negated =>
    rw [weight, weightProduct_eq]
    apply prod_pos
    intro n member
    obtain ⟨e, inExpr, rfl⟩ := mem_map.mp member
    exact weight_pos e
  | .or expr negated =>
    rw [weight]
    omega
termination_by sizeOf e
decreasing_by
  have smaller := sizeOf_lt_of_mem inExpr
  simp_wf
  omega

/-- The product of the weights. -/
def product (expr : List (Expression α)) : Nat := (expr.map weight).prod

/-- The sum of the weights. -/
def sum (expr : List (Expression α)) : Nat := (expr.map weight).sum

/-- The expressions of an array. -/
def present (arr : List (Option (Expression α))) : List (Expression α) := arr.filterMap id

@[simp] theorem weight_and (expr : List (Expression α)) (negated : Option (Expression α)) :
    weight (and expr negated) = product expr := by
  rw [weight, weightProduct_eq, product]

@[simp] theorem weight_or (expr : List (Expression α)) (negated : Option (Expression α)) :
    weight (or expr negated) = sum expr + 1 := by
  rw [weight, weightSum_eq, sum]

theorem product_pos (expr : List (Expression α)) : 0 < product expr := by
  apply prod_pos
  intro n member
  obtain ⟨e, -, rfl⟩ := mem_map.mp member
  exact weight_pos e

theorem product_append (first second : List (Expression α)) :
    product (first ++ second) = product first * product second := by
  simp [product]

theorem sum_append (first second : List (Expression α)) :
    sum (first ++ second) = sum first + sum second := by
  simp [sum]

theorem product_cons (e : Expression α) (expr : List (Expression α)) :
    product (e :: expr) = weight e * product expr := by
  simp [product]

theorem sum_cons (e : Expression α) (expr : List (Expression α)) :
    sum (e :: expr) = weight e + sum expr := by
  simp [sum]

theorem product_le_of_sublist {first second : List (Expression α)}
    (sublist : first.Sublist second) : product first ≤ product second := by
  induction sublist with
  | slnil => exact le_refl _
  | cons e sublist ih =>
    exact ih.trans (Nat.le_mul_of_pos_left _ (weight_pos e))
  | cons_cons e sublist ih =>
    exact Nat.mul_le_mul_left _ ih

theorem sum_le_of_sublist {first second : List (Expression α)}
    (sublist : first.Sublist second) : sum first ≤ sum second := by
  induction sublist with
  | slnil => exact le_refl _
  | cons e sublist ih =>
    rw [sum_cons]
    omega
  | cons_cons e sublist ih =>
    rw [sum_cons, sum_cons]
    omega

theorem weight_le_product (member : e ∈ expr) : weight e ≤ product expr := by
  have single := product_le_of_sublist (singleton_sublist.mpr member)
  simpa [product] using single

theorem weight_le_sum (member : e ∈ expr) : weight e ≤ sum expr := by
  have single := sum_le_of_sublist (singleton_sublist.mpr member)
  simpa [sum] using single

theorem eliminateDuplicates_sublist (A : Atoms α) (expr : List (Expression α)) :
    (eliminateDuplicates A expr).Sublist expr := by
  induction expr using eliminateDuplicates.induct (A := A) with
  | case1 first second expr equal ih =>
    rw [eliminateDuplicates, if_pos equal]
    apply ih.trans
    exact (sublist_cons_self second expr).cons_cons first
  | case2 first second expr differ ih =>
    rw [eliminateDuplicates, if_neg differ]
    exact ih.cons_cons first
  | case3 expr short =>
    rw [eliminateDuplicates]
    exact short

/-! ## What is gathered -/

section Gather

variable {A : Atoms α} {isNeutral isAbsorbing : Expression α → Bool}
  {nested : Expression α → Option (List (Expression α))} {neutral absorbing : Expression α}
  {arr : List (Option (Expression α))}

def Gathered.elements : Gathered α → List (Expression α)
  | .done result => result.toList
  | .terms expr => expr

/-- What is gathered are constants and parts of the array. -/
theorem mem_gather
    (member : e ∈ (gather A isNeutral isAbsorbing nested neutral absorbing arr).elements) :
    e = neutral ∨ e = absorbing ∨ ∃ x, some x ∈ arr ∧ e ∈ (nested x).getD [x] := by
  unfold gather at member
  split at member
  · simp only [Gathered.elements, Option.toList_some, mem_singleton] at member
    exact .inr (.inl member)
  · split at member
    · simp only [Gathered.elements, Option.toList_some, mem_singleton] at member
      exact .inl member
    · cases member
  · rename_i x hasNeutral collected
    obtain ⟨elements, -⟩ := mem_collect collected
    obtain inEmpty | ⟨other, inArray, -, isPart⟩ := (elements e).mp member
    · cases inEmpty
    · exact .inr (.inr ⟨other, inArray, isPart⟩)
  · rename_i expr hasNeutral _ _ collected
    obtain ⟨elements, -⟩ := mem_collect collected
    have ofExpr : ∀ x ∈ eliminateDuplicates A (A.sort (cmp A) expr),
        ∃ other, some other ∈ arr ∧ x ∈ (nested other).getD [other] := by
      intro x stays
      have inExpr := (A.sort_perm (cmp A) expr).mem_iff.mp (mem_of_mem_eliminateDuplicates stays)
      obtain inEmpty | ⟨other, inArray, -, isPart⟩ := (elements x).mp inExpr
      · cases inEmpty
      · exact ⟨other, inArray, isPart⟩
    split at member
    · rename_i x isSingle
      simp only [Gathered.elements, Option.toList_some, mem_singleton] at member
      apply Or.inr ∘ Or.inr
      apply ofExpr
      rw [isSingle, member]
      exact mem_cons_self
    · exact .inr (.inr (ofExpr e member))

theorem eliminateDuplicates_ne_nil (nonempty : expr ≠ []) : eliminateDuplicates A expr ≠ [] := by
  induction expr using eliminateDuplicates.induct (A := A) with
  | case1 first second expr equal ih =>
    rw [eliminateDuplicates, if_pos equal]
    exact ih (cons_ne_nil _ _)
  | case2 first second expr differ ih =>
    rw [eliminateDuplicates, if_neg differ]
    exact cons_ne_nil _ _
  | case3 expr short =>
    rwa [eliminateDuplicates]
    exact short

theorem exists_collected
    (gathered : gather A isNeutral isAbsorbing nested neutral absorbing arr = .terms expr) :
    ∃ collected hasNeutral,
      collect isNeutral isAbsorbing nested arr [] false = some (collected, hasNeutral) ∧
      collected ≠ [] ∧ expr = eliminateDuplicates A (A.sort (cmp A) collected) := by
  unfold gather at gathered
  split at gathered
  · cases gathered
  · cases gathered
  · cases gathered
  · rename_i collected hasNeutral notEmpty _ isCollected
    split at gathered
    · cases gathered
    · cases gathered
      exact ⟨collected, hasNeutral, isCollected, fun isEmpty => notEmpty isEmpty, rfl⟩

theorem gather_terms_ne_nil
    (gathered : gather A isNeutral isAbsorbing nested neutral absorbing arr = .terms expr) :
    expr ≠ [] := by
  obtain ⟨collected, hasNeutral, -, nonempty, rfl⟩ := exists_collected gathered
  apply eliminateDuplicates_ne_nil
  intro isEmpty
  have perm := A.sort_perm (cmp A) collected
  rw [isEmpty] at perm
  exact nonempty perm.symm.eq_nil

/-- There is no result only where there is nothing. -/
theorem notMem_of_gather_none (parts : ∀ e, some e ∈ arr → (nested e).getD [e] ≠ [])
    (gathered : gather A isNeutral isAbsorbing nested neutral absorbing arr = .done none)
    (e : Expression α) : some e ∉ arr := by
  intro member
  unfold gather at gathered
  split at gathered
  · cases gathered
  · rename_i hasNeutral collected
    obtain ⟨elements, neutrals⟩ := mem_collect collected
    by_cases isNeutral : isNeutral e = true
    · have found := neutrals.mpr (.inr ⟨e, member, isNeutral⟩)
      simp [found] at gathered
    · obtain ⟨x, isPart⟩ := exists_mem_of_ne_nil _ (parts e member)
      have inEmpty := (elements x).mpr (.inr ⟨e, member, by simpa using isNeutral, isPart⟩)
      cases inEmpty
  · cases gathered
  · split at gathered <;> cases gathered

variable {before expr : List (Expression α)}

theorem product_collect {hadTrue hasTrue : Bool}
    (collected : collect isTrue isFalse conjuncts arr before hadTrue = some (expr, hasTrue)) :
    product expr ≤ product before * product (present arr) := by
  induction arr generalizing before hadTrue with
  | nil =>
    cases collected
    simp [present, product]
  | cons element arr ih =>
    cases element with
    | none => exact ih collected
    | some e =>
      rw [collect] at collected
      split at collected
      · apply (ih collected).trans
        apply Nat.mul_le_mul_left
        exact Nat.le_mul_of_pos_left _ (weight_pos e)
      · split at collected
        · cases collected
        · have isWeight : product ((conjuncts e).getD [e]) = weight e := by
            cases e <;> simp [conjuncts, product]
          have rest := ih collected
          rwa [product_append, isWeight, Nat.mul_assoc] at rest

theorem sum_collect {hadFalse hasFalse : Bool}
    (collected : collect isFalse isTrue disjuncts arr before hadFalse = some (expr, hasFalse)) :
    sum expr ≤ sum before + sum (present arr) := by
  induction arr generalizing before hadFalse with
  | nil =>
    cases collected
    simp [present, sum]
  | cons element arr ih =>
    cases element with
    | none => exact ih collected
    | some e =>
      have isPresent : sum (present (some e :: arr)) = weight e + sum (present arr) := by
        rfl
      rw [collect] at collected
      split at collected
      · have rest := ih collected
        omega
      · split at collected
        · cases collected
        · have isWeight : sum ((disjuncts e).getD [e]) ≤ weight e := by
            cases e <;> simp [disjuncts, sum]
          have rest := ih collected
          rw [sum_append] at rest
          omega

/-- Gathering a conjunction does not make it heavier. -/
theorem product_gatherAnd (arr : List (Option (Expression α))) :
    product (gatherAnd A arr).elements ≤ product (present arr) := by
  have one : 1 ≤ product (present arr) := product_pos _
  have weights : ∀ {expr : List (Expression α)} {hasTrue : Bool},
      collect isTrue isFalse conjuncts arr [] false = some (expr, hasTrue) →
        product expr ≤ product (present arr) := by
    intro expr hasTrue collected
    simpa [product] using product_collect collected
  unfold gatherAnd gather
  split
  · simpa [Gathered.elements, product, weight] using one
  · split
    · simpa [Gathered.elements, product, weight] using one
    · simpa [Gathered.elements, product] using one
  · rename_i e hasTrue collected
    exact weights collected
  · rename_i expr hasTrue _ _ collected
    have sorted : product (A.sort (cmp A) expr) = product expr :=
      ((A.sort_perm (cmp A) expr).map weight).prod_eq
    have lighter := product_le_of_sublist (eliminateDuplicates_sublist A (A.sort (cmp A) expr))
    rw [sorted] at lighter
    split
    · rename_i e isSingle
      rw [isSingle] at lighter
      exact lighter.trans (weights collected)
    · exact lighter.trans (weights collected)

theorem sum_gatherOr (arr : List (Option (Expression α))) :
    match gatherOr A arr with
    | .done result => ∀ e, result = some e → weight e ≤ sum (present arr) + 1
    | .terms expr => sum expr ≤ sum (present arr) := by
  have weights : ∀ {expr : List (Expression α)} {hasFalse : Bool},
      collect isFalse isTrue disjuncts arr [] false = some (expr, hasFalse) →
        sum expr ≤ sum (present arr) := by
    intro expr hasFalse collected
    simpa [sum] using sum_collect collected
  unfold gatherOr gather
  split
  · rename_i absorbed
    split at absorbed
    · cases absorbed
      rintro e ⟨⟩
      simp [weight]
    · cases absorbed
      intro e isNeutral
      split at isNeutral
      · cases isNeutral
        simp [weight]
      · cases isNeutral
    · rename_i x hasFalse collected
      cases absorbed
      rintro e ⟨⟩
      have lighter := weights collected
      rw [sum_cons] at lighter
      omega
    · rename_i expr hasFalse _ _ collected
      have sorted : sum (A.sort (cmp A) expr) = sum expr :=
        ((A.sort_perm (cmp A) expr).map weight).sum_eq
      have lighter := sum_le_of_sublist (eliminateDuplicates_sublist A (A.sort (cmp A) expr))
      have bound := weights collected
      split at absorbed
      · rename_i x isSingle
        cases absorbed
        rintro e ⟨⟩
        rw [isSingle, sum_cons] at lighter
        omega
      · cases absorbed
  · rename_i terms isTerms
    obtain ⟨collected, hasFalse, isCollected, -, rfl⟩ := exists_collected isTerms
    have sorted : sum (A.sort (cmp A) collected) = sum collected :=
      ((A.sort_perm (cmp A) collected).map weight).sum_eq
    have lighter := sum_le_of_sublist (eliminateDuplicates_sublist A (A.sort (cmp A) collected))
    have bound := weights isCollected
    omega

end Gather

/-! ## Running the functions -/

section Returns

variable {A : Atoms α}

theorem mapM_returns {β γ : Type} {f : β → Option γ} {list : List β} {P : γ → Prop}
    (returns : ∀ a ∈ list, ∃ b, f a = some b ∧ P b) :
    ∃ results, list.mapM f = some results ∧ ∀ b ∈ results, P b := by
  induction list with
  | nil => exact ⟨[], rfl, by simp⟩
  | cons a list ih =>
    obtain ⟨b, isFirst, first⟩ := returns a mem_cons_self
    obtain ⟨results, isRest, rest⟩ := ih fun a member => returns a (mem_cons_of_mem _ member)
    refine ⟨b :: results, ?_, ?_⟩
    · rw [mapM_cons, isFirst, isRest]
      rfl
    · intro other member
      obtain rfl | member := mem_cons.mp member
      · exact first
      · exact rest other member

/-- `negate` returns for everything on a level. -/
def NegateReturns (A : Atoms α) (k : Nat) : Prop :=
  ∀ e, LevelLE k e → ∃ r, negate A e = some r

theorem hasNegation_returns (returns : NegateReturns A k) (levels : ∀ e ∈ expr, LevelLE k e) :
    ∃ found, hasNegation A expr = some found := by
  induction expr with
  | nil => exact ⟨false, by rw [Atoms.hasNegation.eq_def]⟩
  | cons first expr ih =>
    have rest := ih fun e member => levels e (mem_cons_of_mem _ member)
    cases expr with
    | nil => exact ⟨false, by rw [Atoms.hasNegation.eq_def]⟩
    | cons second expr =>
      obtain ⟨negated, isNegated⟩ := returns first (levels first mem_cons_self)
      obtain ⟨found, isFound⟩ := rest
      rw [Atoms.hasNegation.eq_def]
      simp only [isNegated, Option.bind_eq_bind, Option.bind_some, isFound]
      split
      · exact ⟨true, rfl⟩
      · exact ⟨found, rfl⟩

theorem isRedundant_returns (returns : NegateReturns A k) (check : Bool)
    (levels : ∀ e ∈ expr, LevelLE k e) : ∃ found, isRedundant A check expr = some found := by
  rw [Atoms.isRedundant.eq_def]
  split
  · exact hasNegation_returns returns levels
  · exact ⟨false, rfl⟩

/-- There are terminals, and all of them are on a level. -/
def TerminalsLE (k : Nat) (e : Expression α) : Prop :=
  getTerminals e ≠ [] ∧ ∀ t ∈ getTerminals e, LevelLE k t

variable {k : Nat}

theorem LevelLE.terminals (level : LevelLE k e) : TerminalsLE k e := by
  cases level with
  | or nonempty elements known => exact ⟨nonempty, elements⟩
  | falseExpr =>
    exact ⟨by simp [getTerminals, disjuncts], by simp [getTerminals, disjuncts, LevelLE.falseExpr]⟩
  | trueExpr =>
    exact ⟨by simp [getTerminals, disjuncts], by simp [getTerminals, disjuncts, LevelLE.trueExpr]⟩
  | atom =>
    exact ⟨by simp [getTerminals, disjuncts], by simp [getTerminals, disjuncts, LevelLE.atom]⟩
  | and nonempty elements known =>
    refine ⟨by simp [getTerminals, disjuncts], ?_⟩
    intro t member
    exact mem_singleton.mp member ▸ .and nonempty elements known

theorem levels_gatherOr {arr : List (Option (Expression α))}
    (levels : ∀ e, some e ∈ arr → TerminalsLE k e) :
    ∀ e ∈ (gatherOr A arr).elements, LevelLE k e := by
  intro e member
  obtain rfl | rfl | ⟨x, inArray, isPart⟩ := mem_gather member
  · exact .falseExpr
  · exact .trueExpr
  · exact (levels x inArray).2 e isPart

/-- `orCreate` returns, and its terminals come from the array. -/
theorem orCreate_returns (returns : NegateReturns A k) {arr : List (Option (Expression α))}
    (levels : ∀ e, some e ∈ arr → TerminalsLE k e) (negated : Option (Expression α))
    (check : Bool) : ∃ r, orCreate A arr negated check = some r ∧ (r = none → ∀ e, some e ∉ arr) ∧
      ∀ e, r = some e → TerminalsLE k e ∧ weight e ≤ sum (present arr) + 1 ∧
        (LevelLE k e ∨ ∃ expr, e = or expr negated ∧ expr ≠ [] ∧ ∀ x ∈ expr, LevelLE k x) := by
  have gathered := @levels_gatherOr _ A _ _ levels
  have weights := @sum_gatherOr _ A arr
  rw [Atoms.orCreate.eq_def]
  cases found : gatherOr A arr with
  | done result =>
    rw [found] at gathered weights
    refine ⟨result, rfl, ?_, ?_⟩
    · rintro rfl
      exact notMem_of_gather_none (fun e member => (levels e member).1) found
    · rintro e rfl
      have level := gathered e (by simp [Gathered.elements])
      exact ⟨level.terminals, weights e rfl, .inl level⟩
  | terms expr =>
    rw [found] at gathered weights
    change ∀ e ∈ expr, LevelLE k e at gathered
    have nonempty := gather_terms_ne_nil found
    obtain ⟨isTrue, checked⟩ := isRedundant_returns returns check gathered
    refine ⟨_, by simp only [checked, Option.bind_eq_bind, Option.bind_some]; rfl, ?_, ?_⟩
    · intro isNone
      split at isNone <;> cases isNone
    · intro e isResult
      split at isResult
      · cases isResult
        exact ⟨LevelLE.trueExpr.terminals, by simp [weight], .inl .trueExpr⟩
      · cases isResult
        exact ⟨⟨nonempty, gathered⟩, by simpa using weights, .inr ⟨expr, rfl, nonempty, gathered⟩⟩

theorem mapM_weights {f : Expression α → Option (Option (Expression α))} {P : Expression α → Prop}
    {w : Nat} (returns : ∀ el ∈ expr, ∃ e, f el = some (some e) ∧ P e ∧ weight e ≤ weight el * w) :
    ∃ results : List (Expression α), expr.mapM f = some (results.map some) ∧
      (expr ≠ [] → results ≠ []) ∧ (∀ e ∈ results, P e) ∧ sum results ≤ sum expr * w := by
  induction expr with
  | nil => exact ⟨[], rfl, id, by simp, by simp [sum]⟩
  | cons el expr ih =>
    obtain ⟨e, isFirst, first, weightLE⟩ := returns el mem_cons_self
    obtain ⟨results, isRest, -, rest, weights⟩ := ih
      fun el member => returns el (mem_cons_of_mem _ member)
    refine ⟨e :: results, ?_, fun _ => cons_ne_nil _ _, ?_, ?_⟩
    · rw [mapM_cons, isFirst, isRest]
      rfl
    · intro other member
      obtain rfl | member := mem_cons.mp member
      · exact first
      · exact rest other member
    · rw [sum_cons, sum_cons, add_mul]
      omega

theorem present_map_some (expr : List (Expression α)) : present (expr.map some) = expr := by
  simp [present]

/-- `andCreate` returns for arrays lighter than `bound`. -/
def AndCreateReturns (A : Atoms α) (k bound : Nat) : Prop :=
  ∀ arr : List (Option (Expression α)), product (present arr) < bound →
    (∀ e, some e ∈ arr → LevelLE k e) → ∀ check, ∃ r, andCreate A arr none check = some r ∧
      (r = none → ∀ e, some e ∉ arr) ∧
      ∀ e, r = some e → LevelLE k e ∧ weight e ≤ product (present arr)

/-- One disjunction is distributed over one element. -/
theorem distribute_pair {k bound : Nat} (returns : NegateReturns A (k + 1))
    (andReturns : AndCreateReturns A (k + 1) bound)
    (levelLast : LevelLE (k + 1) (or lastElement negated)) (levelSecond : LevelLE (k + 1) second)
    (light : weight (or lastElement negated) * weight second ≤ bound)
    (check isFinished : Bool) :
    ∃ elements resultElement,
      (lastElement.mapM fun el => andCreate A [some el, some second] none check) = some elements ∧
      orCreate A elements none isFinished = some (some resultElement) ∧
      LevelLE (k + 1) resultElement ∧
        weight resultElement ≤ weight (or lastElement negated) * weight second := by
  have secondPos := weight_pos second
  have elementsReturn : ∀ el ∈ lastElement,
      ∃ e, andCreate A [some el, some second] none check = some (some e) ∧
        LevelLE (k + 1) e ∧ weight e ≤ weight el * weight second := by
    intro el member
    have isProduct : product (present [some el, some second]) = weight el * weight second := by
      simp [present, product]
    obtain ⟨r, isResult, notNone, result⟩ := andReturns [some el, some second] (by
      rw [isProduct]
      apply lt_of_lt_of_le _ light
      rw [weight_or]
      apply mul_lt_mul_of_pos_right _ secondPos
      exact lt_succ_of_le (weight_le_sum member)) (by
      intro e inPair
      simp only [mem_cons, Option.some.injEq, not_mem_nil, or_false] at inPair
      obtain rfl | rfl := inPair
      · exact levelLast.terminals.2 e member
      · exact levelSecond) check
    cases r with
    | none => exact absurd mem_cons_self (notNone rfl el)
    | some e => exact ⟨e, isResult, isProduct ▸ result e rfl⟩
  obtain ⟨elements, isElements, nonempty, levels, weights⟩ := mapM_weights elementsReturn
  obtain ⟨r, isResult, notNone, result⟩ := @orCreate_returns _ A _ returns (elements.map some)
    (fun e member => (levels e (by simpa using member)).terminals) none isFinished
  cases r with
  | none =>
    obtain ⟨e, member⟩ := exists_mem_of_ne_nil _ (nonempty levelLast.terminals.1)
    exact absurd (mem_map_of_mem member) (notNone rfl e)
  | some resultElement =>
    obtain ⟨-, weightLE, level⟩ := result resultElement rfl
    rw [present_map_some] at weightLE
    refine ⟨elements.map some, resultElement, isElements, isResult, ?_, ?_⟩
    · obtain level | ⟨expr, rfl, nonempty, levels⟩ := level
      · exact level
      · -- a disjunction is built only where there is one
        cases levelLast with
        | or _ _ _ => exact .or nonempty levels (by simp)
    · rw [weight_or, add_mul, one_mul]
      omega

theorem distribute_returns {k bound : Nat} (returns : NegateReturns A (k + 1))
    (andReturns : AndCreateReturns A (k + 1) bound) (check : Bool) (expr : List (Expression α))
    (nonempty : expr ≠ []) (levels : ∀ e ∈ expr, LevelLE (k + 1) e)
    (light : product expr ≤ bound) :
    ∃ result, distribute A check expr = some result ∧ result ≠ [] ∧
      (∀ e ∈ result, LevelLE (k + 1) e) ∧ product result ≤ product expr := by
  induction isSize : expr.length using Nat.strong_induction_on generalizing expr with
  | _ size ih =>
  subst isSize
  rw [Atoms.distribute.eq_def]
  have isProduct : product expr.reverse = product expr :=
    ((reverse_perm expr).map weight).prod_eq
  have isLength : expr.reverse.length = expr.length := length_reverse
  split
  · rename_i lastElement negated second rest isReverse
    rw [isReverse, product_cons, product_cons, ← Nat.mul_assoc] at isProduct
    have inExpr : ∀ e ∈ or lastElement negated :: second :: rest, LevelLE (k + 1) e := by
      intro e member
      apply levels
      rw [← mem_reverse, isReverse]
      exact member
    obtain ⟨elements, both, isElements, isResult, level, weightLE⟩ := distribute_pair returns
      andReturns (inExpr _ (by simp)) (inExpr second (by simp))
      (le_trans (Nat.le_mul_of_pos_right _ (product_pos rest)) (isProduct.le.trans light)) check
      rest.isEmpty
    simp only [isElements, isResult, Option.bind_eq_bind, Option.bind_some]
    have sorted : (A.sort (cmp A) (rest.reverse ++ [both])).Perm (both :: rest) := by
      apply (A.sort_perm (cmp A) _).trans
      apply (perm_append_singleton both rest.reverse).trans
      exact (reverse_perm rest).cons both
    have lighter : product (A.sort (cmp A) (rest.reverse ++ [both])) ≤ product expr := by
      have isNext : product (A.sort (cmp A) (rest.reverse ++ [both])) = product (both :: rest) :=
        (sorted.map weight).prod_eq
      rw [isNext, product_cons, ← isProduct]
      exact Nat.mul_le_mul_right _ weightLE
    have shorter : (A.sort (cmp A) (rest.reverse ++ [both])).length < expr.length := by
      rw [sorted.length_eq, ← isLength, isReverse]
      simp
    obtain ⟨final, isFinal, nonempty, finalLevels, finalLight⟩ := ih _ shorter
      (A.sort (cmp A) (rest.reverse ++ [both]))
      (ne_nil_of_mem (sorted.mem_iff.mpr mem_cons_self)) (by
        intro e member
        obtain rfl | member := mem_cons.mp (sorted.mem_iff.mp member)
        · exact level
        · exact inExpr e (by simp [member])) (lighter.trans light) rfl
    exact ⟨final, isFinal, nonempty, finalLevels, finalLight.trans lighter⟩
  · exact ⟨expr, rfl, nonempty, levels, le_refl _⟩

theorem levels_gatherAnd {arr : List (Option (Expression α))}
    (levels : ∀ e, some e ∈ arr → LevelLE k e) : ∀ e ∈ (gatherAnd A arr).elements, LevelLE k e := by
  intro e member
  obtain rfl | rfl | ⟨x, inArray, isPart⟩ := mem_gather member
  · exact .trueExpr
  · exact .falseExpr
  · cases levels x inArray with
    | and nonempty elements known => exact elements e isPart
    | falseExpr => exact mem_singleton.mp isPart ▸ .falseExpr
    | trueExpr => exact mem_singleton.mp isPart ▸ .trueExpr
    | atom => exact mem_singleton.mp isPart ▸ .atom
    | or nonempty elements known =>
      exact mem_singleton.mp isPart ▸ .or nonempty elements known

theorem andCreate_returns (returns : NegateReturns A (k + 1)) (bound : Nat) :
    AndCreateReturns A (k + 1) bound := by
  induction bound with
  | zero =>
    intro arr light
    exact absurd light (not_lt_zero _)
  | succ bound ih =>
    intro arr light levels check
    have gathered := @levels_gatherAnd _ A _ _ levels
    have weights := @product_gatherAnd _ A arr
    rw [Atoms.andCreate.eq_def]
    cases found : gatherAnd A arr with
    | done result =>
      rw [found] at gathered weights
      refine ⟨result, rfl, ?_, ?_⟩
      · rintro rfl
        apply notMem_of_gather_none _ found
        intro e member
        cases levels e member with
        | and nonempty elements known => exact nonempty
        | _ => simp [conjuncts]
      · rintro e rfl
        refine ⟨gathered e (by simp [Gathered.elements]), ?_⟩
        simpa [Gathered.elements, product] using weights
    | terms expr =>
      rw [found] at gathered weights
      change ∀ e ∈ expr, LevelLE (k + 1) e at gathered
      change product expr ≤ product (present arr) at weights
      obtain ⟨distributed, isDistributed, nonempty, distributedLevels, lighter⟩ :=
        distribute_returns returns ih check expr (gather_terms_ne_nil found) gathered (by omega)
      obtain ⟨isFalse, checked⟩ := isRedundant_returns returns check distributedLevels
      simp only [isDistributed, checked, Option.bind_eq_bind, Option.bind_some]
      cases isSingle : single? distributed with
      | some e =>
        have member : e ∈ distributed := by
          unfold single? at isSingle
          split at isSingle <;> simp_all
        refine ⟨some e, rfl, by simp, ?_⟩
        rintro _ ⟨⟩
        exact ⟨distributedLevels e member, (weight_le_product member).trans (lighter.trans weights)⟩
      | none =>
        refine ⟨_, rfl, ?_, ?_⟩
        · intro isNone
          split at isNone <;> cases isNone
        · intro e isResult
          split at isResult
          · cases isResult
            exact ⟨.falseExpr, product_pos _⟩
          · cases isResult
            refine ⟨.and nonempty distributedLevels (by simp), ?_⟩
            rw [weight_and]
            exact lighter.trans weights

/-! ## Negating -/

theorem distributeNegated_returns (returns : NegateReturns A (k + 1))
    (result : List (Expression α)) (levels : ∀ e ∈ result, TerminalsLE (k + 1) e) :
    ∃ r, distributeNegated A result = some r ∧ (result ≠ [] → r ≠ []) ∧
      ∀ e ∈ r, TerminalsLE (k + 1) e := by
  induction isSize : result.length using Nat.strong_induction_on generalizing result with
  | _ size ih =>
  subst isSize
  rw [Atoms.distributeNegated.eq_def]
  split
  · rename_i left right rest
    have leftLevels := levels left (by simp)
    have rightLevels := levels right (by simp)
    have allReturn : ∀ pair ∈ (getTerminals left).flatMap (fun left =>
        (getTerminals right).map fun right => [some left, some right]),
        ∃ r, andCreate A pair none false = some r ∧
          ((∃ e, r = some e) ∧ ∀ e, r = some e → LevelLE (k + 1) e) := by
      intro pair isPair
      simp only [mem_flatMap, mem_map] at isPair
      obtain ⟨l, inLeft, r, inRight, rfl⟩ := isPair
      obtain ⟨x, isX, notNone, result⟩ := andCreate_returns returns _ [some l, some r]
        (Nat.lt_succ_self _) (by
          intro e inPair
          simp only [mem_cons, Option.some.injEq, not_mem_nil, or_false] at inPair
          obtain rfl | rfl := inPair
          · exact leftLevels.2 e inLeft
          · exact rightLevels.2 e inRight) false
      refine ⟨x, isX, ?_, fun e isE => (result e isE).1⟩
      cases x with
      | none => exact absurd mem_cons_self (notNone rfl l)
      | some e => exact ⟨e, rfl⟩
    obtain ⟨all, isAll, allLevels⟩ := mapM_returns allReturn
    obtain ⟨r, isFirst, notNone, first⟩ := @orCreate_returns _ A _ returns all
      (fun e member => ((allLevels _ member).2 e rfl).terminals) none false
    simp only [isAll, isFirst, Option.bind_eq_bind, Option.bind_some]
    cases r with
    | none =>
      obtain ⟨l, inLeft⟩ := exists_mem_of_ne_nil _ leftLevels.1
      obtain ⟨r, inRight⟩ := exists_mem_of_ne_nil _ rightLevels.1
      obtain ⟨x, inAll, -⟩ := (mem_of_mapM isAll).1 [some l, some r] (by
        simp only [mem_flatMap, mem_map]
        exact ⟨l, inLeft, r, inRight, rfl⟩)
      obtain ⟨e, rfl⟩ := (allLevels x inAll).1
      exact absurd inAll (notNone rfl e)
    | some first' =>
      obtain ⟨final, isFinal, nonempty, finalLevels⟩ := ih _ (by simp) (first' :: rest) (by
          intro e member
          obtain rfl | member := mem_cons.mp member
          · exact (first e rfl).1
          · exact levels e (by simp [member])) rfl
      exact ⟨final, isFinal, fun _ => nonempty (cons_ne_nil _ _), finalLevels⟩
  · exact ⟨result, rfl, id, levels⟩

/-- A disjunction that is built as a negation. -/
theorem orCreate_returns_some (returns : NegateReturns A k)
    {terms : List (Expression α)} (nonempty : terms ≠ [])
    (levels : ∀ e ∈ terms, TerminalsLE k e) (negated : Option (Expression α)) :
    ∃ r, orCreate A (terms.map some) negated true = some (some r) ∧ TerminalsLE k r := by
  obtain ⟨r, isResult, notNone, result⟩ := @orCreate_returns _ A _ returns (terms.map some)
    (fun e member => levels e (by simpa using member)) negated true
  cases r with
  | none =>
    obtain ⟨e, member⟩ := exists_mem_of_ne_nil _ nonempty
    exact absurd (mem_map_of_mem member) (notNone rfl e)
  | some r => exact ⟨r, isResult, (result r rfl).1⟩

theorem mapM_ne_nil {β γ : Type} {f : β → Option γ} {list : List β} {results : List γ}
    (mapped : list.mapM f = some results) (nonempty : list ≠ []) : results ≠ [] := by
  obtain ⟨a, member⟩ := exists_mem_of_ne_nil _ nonempty
  obtain ⟨b, inResults, -⟩ := (mem_of_mapM mapped).1 a member
  exact ne_nil_of_mem inResults

/-- Negating goes down a level. -/
theorem negate_terminals (returns : NegateReturns A k) (level : LevelLE (k + 1) e) :
    ∃ r, negate A e = some r ∧ TerminalsLE k r := by
  generalize isLevel : k + 1 = m at level
  induction level with
  | falseExpr => exact ⟨trueExpr, by rw [negate.eq_def], LevelLE.trueExpr.terminals⟩
  | trueExpr => exact ⟨falseExpr, by rw [negate.eq_def], LevelLE.falseExpr.terminals⟩
  | @atom m a => exact ⟨atom (A.negate a), by rw [negate.eq_def], LevelLE.atom.terminals⟩
  | @and m expr negated nonempty elements known elementsHypothesis knownHypothesis =>
    cases isLevel
    rw [negate.eq_def]
    cases negated with
    | some n => exact ⟨n, rfl, (known n rfl).terminals⟩
    | none =>
      obtain ⟨negations, mapped, levels⟩ :=
        mapM_returns fun e member => elementsHypothesis e member rfl
      obtain ⟨r, isResult, terminals⟩ := orCreate_returns_some returns
        (mapM_ne_nil mapped nonempty) levels (some (and expr none))
      refine ⟨r, ?_, terminals⟩
      simp only [mapped, isResult, Option.bind_eq_bind, Option.bind_some]
  | @or m expr negated nonempty elements known elementsHypothesis knownHypothesis =>
    cases isLevel
    rw [negate.eq_def]
    cases negated with
    | some n => exact ⟨n, rfl, (known n rfl).terminals⟩
    | none =>
      obtain ⟨negations, mapped, levels⟩ :=
        mapM_returns fun e member => elementsHypothesis e member rfl
      obtain ⟨terms, isTerms, nonemptyTerms, termLevels⟩ :=
        distributeNegated_returns returns negations levels
      obtain ⟨r, isResult, terminals⟩ := orCreate_returns_some returns
        (nonemptyTerms (mapM_ne_nil mapped nonempty)) termLevels (some (or expr none))
      refine ⟨r, ?_, terminals⟩
      simp only [mapped, isTerms, isResult, Option.bind_eq_bind, Option.bind_some]

theorem negateReturns (A : Atoms α) (k : Nat) : NegateReturns A k := by
  induction k with
  | zero =>
    intro e level
    cases level with
    | falseExpr => exact ⟨trueExpr, by rw [negate.eq_def]⟩
    | trueExpr => exact ⟨falseExpr, by rw [negate.eq_def]⟩
    | @atom _ a => exact ⟨atom (A.negate a), by rw [negate.eq_def]⟩
  | succ k ih =>
    intro e level
    obtain ⟨r, isResult, -⟩ := negate_terminals ih level
    exact ⟨r, isResult⟩

end Returns

/-! ## Results -/

section Results

variable {A : Atoms α} {admissible : α → Prop} {value : α → Bool}

/-- Negating a valid expression returns its negation. -/
theorem negate_valid (sound : SoundAtoms A admissible value)
    (valid : Valid admissible value e) : ∃ r, negate A e = some r ∧
      Valid admissible value r ∧ evaluate value r = !evaluate value e := by
  obtain ⟨k, level⟩ := exists_level valid
  obtain ⟨r, isResult⟩ := negateReturns A k e level
  exact ⟨r, isResult, (returns_sound sound).1 e r isResult valid⟩

section

variable {expr : List (Expression α)} (sound : SoundAtoms A admissible value) (nonempty : expr ≠ [])
  (valid : ∀ e ∈ expr, Valid admissible value e) (check : Bool)

include sound nonempty valid check

/-- The conjunction of valid expressions. -/
theorem andCreate_valid :
    ∃ r, andCreate A (expr.map some) none check = some (some r) ∧ Valid admissible value r ∧
      evaluate value r = expr.all (evaluate value) := by
  obtain ⟨k, levels⟩ := exists_level_of_forall fun e member => exists_level (valid e member)
  obtain ⟨r, isResult, notNone, -⟩ := andCreate_returns (negateReturns A (k + 1)) _
    (expr.map some) (lt_succ_self _)
    (fun e member => (levels e (by simpa using member)).mono (le_succ k)) check
  have built := (returns_sound sound).2.2.2.2.2.1 _ _ _ _ isResult (by simpa using valid) (by simp)
  cases r with
  | none =>
    obtain ⟨e, member⟩ := exists_mem_of_ne_nil _ nonempty
    exact absurd (mem_map_of_mem member) (notNone rfl e)
  | some r =>
    refine ⟨r, isResult, built.1, ?_⟩
    have isFalse : evaluate value r = false ↔ expr.all (evaluate value) = false := by
      rw [built.2, all_eq_false]
      simp [OccursIn]
    revert isFalse
    cases evaluate value r <;> cases expr.all (evaluate value) <;> simp

/-- The disjunction of valid expressions. -/
theorem orCreate_valid :
    ∃ r, orCreate A (expr.map some) none check = some (some r) ∧ Valid admissible value r ∧
      evaluate value r = expr.any (evaluate value) := by
  obtain ⟨k, levels⟩ := exists_level_of_forall fun e member => exists_level (valid e member)
  obtain ⟨r, isResult, notNone, -⟩ := @orCreate_returns _ A _ (negateReturns A k)
    (expr.map some) (fun e member => (levels e (by simpa using member)).terminals) none check
  have built := (returns_sound sound).2.2.1 _ _ _ _ isResult (by simpa using valid) (by simp)
  cases r with
  | none =>
    obtain ⟨e, member⟩ := exists_mem_of_ne_nil _ nonempty
    exact absurd (mem_map_of_mem member) (notNone rfl e)
  | some r =>
    refine ⟨r, isResult, built.1, ?_⟩
    have isTrue : evaluate value r = true ↔ expr.any (evaluate value) = true := by
      rw [built.2, any_eq_true]
      simp [OccursIn]
    revert isTrue
    cases evaluate value r <;> cases expr.any (evaluate value) <;> simp

end

end Results

end Expression
end CodeEditor.ContextKey

import CodeEditor.PieceTree.Balance

/-!
# The tree as a sequence of pieces

To the rest of the program the tree is a sequence of entries, each a node
identity with its piece. `Holds t es` says that `t` is a red-black tree with
right metadata for the sequence `es`; the lemmas give every tree operation its
meaning on the sequence, and that it succeeds.
-/

namespace CodeEditor.PieceTree

open CodeEditor.BinaryTree TreePath RedBlack List

/-- The identities of a sequence of entries. -/
def ids (es : List Entry) : List Nat := es.map (·.1)

@[simp] theorem ids_nil : ids [] = [] := rfl

@[simp] theorem ids_cons (e : Entry) (es : List Entry) :
    ids (e :: es) = e.1 :: ids es := rfl

@[simp] theorem ids_append (es fs : List Entry) :
    ids (es ++ fs) = ids es ++ ids fs := by
  simp [ids]

/-- A red-black tree with right metadata that holds the sequence `es` of
distinct nodes. -/
structure Holds (t : Tree) (es : List Entry) : Prop where
  entries_eq : entries t = es
  metadata : MetadataOk t
  redBlack : IsRedBlack isRed t
  distinct : (ids es).Nodup

theorem holds_leaf : Holds .leaf [] :=
  ⟨rfl, trivial, ⟨trivial, 0, rfl⟩, .nil⟩

theorem Holds.eq_leaf_iff (holds : Holds t es) : t = .leaf ↔ es = [] := by
  rw [← holds.entries_eq, entries_eq_nil_iff]

theorem Holds.inorder_length (holds : Holds t es) : t.inorder.length = es.length := by
  rw [← holds.entries_eq]
  simp [entries]

theorem Holds.calculateSize_eq (holds : Holds t es) : calculateSize t = totalLength es := by
  rw [PieceTree.calculateSize_eq holds.metadata, holds.entries_eq]

theorem Holds.calculateLF_eq (holds : Holds t es) : calculateLF t = totalLF es := by
  rw [PieceTree.calculateLF_eq holds.metadata, holds.entries_eq]

/-! ## Dereferencing -/

variable {es fs : List Entry}

theorem not_mem_ids_of_distinct {e : Entry} (distinct : (ids (es ++ e :: fs)).Nodup) :
    e.1 ∉ ids es ∧ e.1 ∉ ids fs := by
  rw [ids_append, ids_cons, nodup_append] at distinct
  exact ⟨fun member => distinct.2.2 _ member _ mem_cons_self rfl, (nodup_cons.mp distinct.2.1).1⟩

variable {id : Nat}

/-- A node of the sequence is found, and its focus splits the sequence there. -/
theorem focus_of_entries {p : Piece} (order : entries t = es ++ (id, p) :: fs)
    (distinct : (ids (es ++ (id, p) :: fs)).Nodup) :
    ∃ l n r path, focus t id = some (l, n, r, path) ∧
      (BinaryTree.node l n r).plug path = t ∧ entry n = (id, p) ∧
      entriesBefore path ++ entries l = es ∧
      entries r ++ entriesAfter path = fs := by
  obtain ⟨first, rest, split, firstEq, restEq⟩ := map_eq_append_iff.mp order
  obtain ⟨n, last, rfl, nodeEq, lastEq⟩ := map_eq_cons_iff.mp restEq
  have nodeId : n.id = id := congrArg Prod.fst nodeEq
  obtain ⟨notLeft, notRight⟩ := not_mem_ids_of_distinct distinct
  have differs : ∀ {part : List TreeNode}, id ∉ ids (part.map entry) →
      ∀ m ∈ part, (m.id == id) = false := by
    intro part missing m member
    refine beq_false_of_ne fun equal => missing ?_
    exact mem_map.mpr ⟨entry m, mem_map_of_mem member, equal⟩
  obtain ⟨l, r, path, located, plugged, before, after⟩ :=
    @locate_of_inorder _ _ (fun n => n.id == id) t _ _ split (by simp [nodeId])
      (differs (firstEq ▸ notLeft)) (differs (lastEq ▸ notRight))
  refine ⟨l, n, r, path, located, plugged, nodeEq, ?_, ?_⟩
  · rw [← firstEq, ← before]
    simp [entriesBefore, entries]
  · rw [← lastEq, ← after]
    simp [entriesAfter, entries]

theorem Holds.focus {p : Piece} (holds : Holds t (es ++ (id, p) :: fs)) :
    ∃ l n r path, focus t id = some (l, n, r, path) ∧
      (BinaryTree.node l n r).plug path = t ∧ entry n = (id, p) ∧
      entriesBefore path ++ entries l = es ∧
      entries r ++ entriesAfter path = fs :=
  focus_of_entries holds.entries_eq holds.distinct

theorem focus_eq_none_of_not_mem (missing : id ∉ ids (entries t)) : focus t id = none := by
  cases found : focus t id with
  | none => rfl
  | some result =>
    obtain ⟨l, n, r, path⟩ := result
    obtain ⟨test, rfl⟩ := locate_some found
    have same : n.id = id := by simpa using test
    refine absurd ?_ missing
    simp [entries_plug, entry, same]

/-! ## Neighbours -/

theorem Holds.next {p : Piece} (holds : Holds t (es ++ (id, p) :: fs)) :
    next t id = fs.head?.map (·.1) := by
  obtain ⟨l, n, r, path, found, -, -, -, rfl⟩ := holds.focus
  simp only [PieceTree.next, found, Option.bind_eq_bind, Option.bind_some,
    leftmost?_eq_head?, climbRight_eq_head?]
  cases order : r.inorder with
  | nil => simp [entries, entriesAfter, order, entry, Function.comp_def]
  | cons m rest => simp [entries, order, entry]

theorem Holds.prev {p : Piece} (holds : Holds t (es ++ (id, p) :: fs)) :
    prev t id = es.getLast?.map (·.1) := by
  obtain ⟨l, n, r, path, found, -, -, rfl, -⟩ := holds.focus
  simp only [PieceTree.prev, found, Option.bind_eq_bind, Option.bind_some,
    rightmost?_eq_getLast?, climbLeft_eq_getLast?]
  rcases eq_nil_or_concat' l.inorder with order | ⟨first, m, order⟩
  · simp [entries, entriesBefore, order, entry, Function.comp_def]
  · simp [entries, order, entry]

/-! ## Insertion -/

theorem SamePath.colours (same : SamePath p q) :
    List.Forall₂ (fun crumb other => isRed crumb.value = isRed other.value ∧
      sibling crumb = sibling other) p q := by
  refine same.imp ?_
  intro crumb other sameCrumb
  cases sameCrumb with
  | left r node => exact ⟨by simp [isRed, node.color], rfl⟩
  | right l node => exact ⟨by simp [isRed, node.color], rfl⟩

theorem SamePath.pathBalanced (same : SamePath p q)
    (ok : PathBalanced isRed p height) : PathBalanced isRed q height :=
  pathBalanced_congr same.colours ok

theorem SamePath.parentBlack (same : SamePath p q)
    (black : ParentBlack isRed p) : ParentBlack isRed q := by
  cases same with
  | nil => exact black
  | cons head _ =>
    cases head with
    | left r node => simpa [isRed, node.color] using black
    | right l node => simpa [isRed, node.color] using black

/-- `fixInsert` links a fresh red node in at the end of a path. -/
theorem fixInsert_holds (path : Path) (id : Nat) (p : Piece)
    (metadata : MetadataOk ((leaf : Tree).plug path))
    (redBlack : IsRedBlack isRed ((leaf : Tree).plug path))
    (distinct : (ids (entriesBefore path ++ (id, p) :: entriesAfter path)).Nodup) :
    ∃ t, fixInsert (.node .leaf (newNode id p) .leaf) path = some t ∧
      Holds t (entriesBefore path ++ (id, p) :: entriesAfter path) := by
  obtain ⟨-, pathOk⟩ := metadataOk_plug_iff.mp metadata
  obtain ⟨height, zero, pathBalanced, -⟩ := isRedBlack_plug_iff.mp redBlack
  subst zero
  have same := recomputeTreeMetadata_same (.node .leaf (newNode id p) .leaf) path
  have corrected := recomputeTreeMetadata_ok
    (x := .node .leaf (newNode id p) .leaf) (by simp) pathOk
  obtain ⟨t, fixed, balanced, rearranged⟩ := fixInsertLoop_spec
    (x := .node .leaf (newNode id p) .leaf) rfl
    ((balanced_red rfl).mpr ⟨trivial, trivial, rfl, rfl⟩)
    (same.pathBalanced pathBalanced)
  refine ⟨setColor .Black t, by simp [fixInsert, fixed], ?_, ?_, balanced, distinct⟩
  · rw [rearranged.entries_eq, entries_plug, ← same.entriesBefore_eq, ← same.entriesAfter_eq]
    simp [entry, newNode]
  · refine rearranged.metadata (metadataOk_plug_iff.mpr ⟨?_, ?_⟩)
    · exact ⟨rfl, rfl, trivial, trivial⟩
    · simpa [calculateSize, calculateLF, newNode, entry] using corrected

theorem fixInsert_root (id : Nat) (p : Piece) :
    ∃ t, fixInsert (.node .leaf { newNode id p with color := .Black } .leaf) [] =
      some t ∧ Holds t [(id, p)] := by
  refine ⟨_, rfl, rfl, ⟨rfl, rfl, trivial, trivial⟩, ⟨rfl, 1, ?_⟩, by simp [ids]⟩
  exact (balanced_black_succ rfl).mpr ⟨rfl, rfl⟩

theorem rbInsertLeft_empty (node : Option Nat) (id : Nat) (p : Piece) :
    ∃ t, rbInsertLeft .leaf node (newNode id p) = some t ∧ Holds t [(id, p)] :=
  fixInsert_root id p

theorem distinct_insert {p : Piece} (distinct : (ids (es ++ fs)).Nodup)
    (fresh : id ∉ ids (es ++ fs)) : (ids (es ++ (id, p) :: fs)).Nodup := by
  rw [ids_append] at distinct fresh
  rw [ids_append, ids_cons]
  exact nodup_middle.mpr (nodup_cons.mpr ⟨fresh, distinct⟩)

/-- `rbInsertRight` puts the new piece right behind the node. -/
theorem Holds.rbInsertRight {node id : Nat} {q p : Piece}
    (holds : Holds t (es ++ (node, q) :: fs)) (fresh : id ∉ ids (es ++ (node, q) :: fs)) :
    ∃ t', rbInsertRight t (some node) (newNode id p) = some t' ∧
      Holds t' (es ++ (node, q) :: (id, p) :: fs) := by
  obtain ⟨l, n, r, path, found, plugged, nodeEq, rfl, rfl⟩ := holds.focus
  have whole : (leaf : Tree).plug (descendLeft r (.right l n :: path)) = t := by
    rw [plug_descendLeft, ← plugged]
    rfl
  have beforeEq : entriesBefore (descendLeft r (.right l n :: path)) =
      entriesBefore path ++ entries l ++ [(node, q)] := by
    rw [entriesBefore, before_descendLeft, ← entriesBefore]
    simp [nodeEq]
  have afterEq : entriesAfter (descendLeft r (.right l n :: path)) =
      entries r ++ entriesAfter path := by
    simp [entriesAfter, after_descendLeft, entries]
  have inserted := fixInsert_holds (descendLeft r (.right l n :: path))
    id p (whole ▸ holds.metadata) (whole ▸ holds.redBlack) (by
      rw [beforeEq, afterEq]
      refine distinct_insert ?_ ?_
      · simpa using holds.distinct
      · simpa using fresh)
  obtain ⟨t', fixed, result⟩ := inserted
  refine ⟨t', ?_, by simpa [beforeEq, afterEq] using result⟩
  cases t with
  | leaf => simpa using congrArg List.length holds.entries_eq
  | node a b c =>
    simp only [PieceTree.rbInsertRight, found, Option.bind_eq_bind, Option.bind_some, fixed]

/-- `rbInsertLeft` puts the new piece right before the node. -/
theorem Holds.rbInsertLeft {node id : Nat} {q p : Piece} (holds : Holds t (es ++ (node, q) :: fs))
    (fresh : id ∉ ids (es ++ (node, q) :: fs)) :
    ∃ t', rbInsertLeft t (some node) (newNode id p) = some t' ∧
      Holds t' (es ++ (id, p) :: (node, q) :: fs) := by
  obtain ⟨l, n, r, path, found, plugged, nodeEq, rfl, rfl⟩ := holds.focus
  have whole : (leaf : Tree).plug (descendRight l (.left n r :: path)) = t := by
    rw [plug_descendRight, ← plugged]
    rfl
  have beforeEq : entriesBefore (descendRight l (.left n r :: path)) =
      entriesBefore path ++ entries l := by
    simp [entriesBefore, before_descendRight, entries]
  have afterEq : entriesAfter (descendRight l (.left n r :: path)) =
      (node, q) :: (entries r ++ entriesAfter path) := by
    rw [entriesAfter, after_descendRight, ← entriesAfter]
    simp [nodeEq]
  have inserted := fixInsert_holds (descendRight l (.left n r :: path))
    id p (whole ▸ holds.metadata) (whole ▸ holds.redBlack) (by
      rw [beforeEq, afterEq]
      exact distinct_insert holds.distinct fresh)
  obtain ⟨t', fixed, result⟩ := inserted
  refine ⟨t', ?_, by simpa [beforeEq, afterEq] using result⟩
  cases t with
  | leaf => simpa using congrArg List.length holds.entries_eq
  | node a b c =>
    simp only [PieceTree.rbInsertLeft, found, Option.bind_eq_bind, Option.bind_some, fixed]

/-! ## Deletion -/

/-- The first metadata update of `rbDelete`, with `x` in the place of the
removed node. When `x` is the sentinel below a childless parent, the update
takes it for a right child and changes nothing. -/
theorem recomputeTreeMetadata_cases {size lf : Nat}
    (focusOk : MetadataOk x) (ok : PathMetadataOk path size lf) :
    PathMetadataOk (recomputeTreeMetadata x path) (totalLength (entries x)) (totalLF (entries x)) ∨
      recomputeTreeMetadata x path = path ∧ ∃ n r up, path = .left n r :: up := by
  rw [← calculateSize_eq focusOk, ← calculateLF_eq focusOk]
  by_cases sentinel : x = .leaf
  · subst sentinel
    match path with
    | [] => exact .inl trivial
    | .right l n :: up =>
      obtain ⟨nodeSize, nodeLF, leftOk, upOk⟩ := ok
      have rest := recomputeTreeMetadata_ok (x := .node l n .leaf) (by simp) upOk
      refine .inl ⟨nodeSize, nodeLF, leftOk, ?_⟩
      simpa only [Crumb.fill, calculateSize, calculateLF, nodeSize, nodeLF]
        using rest
    | .left n .leaf :: up =>
      refine .inr ⟨?_, n, .leaf, up, rfl⟩
      obtain ⟨nodeSize, nodeLF, -, upOk⟩ := ok
      have unchanged : recomputeTreeMetadata (.node .leaf n .leaf) up = up := by
        refine recomputeTreeMetadata_of_ok ?_
        simpa [calculateSize, calculateLF, nodeSize, nodeLF] using upOk
      simp [recomputeTreeMetadata, isRightChild, Crumb.fill, unchanged]
    | .left n (.node a m b) :: up =>
      obtain ⟨nodeSize, nodeLF, rightOk, upOk⟩ := ok
      refine .inl ⟨addMetadata_sizeLeft _, addMetadata_lfLeft _, rightOk, ?_⟩
      split
      · refine updateTreeMetadata_ok upOk ?_ ?_ <;> simp only [addMetadata] <;> omega
      · rename_i unchanged
        have sizeSame : calculateSize .leaf = size := by omega
        have lfSame : calculateLF .leaf = lf := by omega
        simpa only [addMetadata, sizeSame, lfSame] using upOk
  · exact .inl (recomputeTreeMetadata_ok sentinel ok)

theorem recomputeFromParent_of_ok (focusOk : MetadataOk x)
    (ok : PathMetadataOk path (totalLength (entries x)) (totalLF (entries x))) :
    recomputeFromParent x path = path := by
  cases path with
  | nil => rfl
  | cons crumb up =>
    have whole : MetadataOk (x.plug (crumb :: up)) :=
      metadataOk_plug_iff.mpr ⟨focusOk, ok⟩
    rw [plug_cons] at whole
    obtain ⟨fillOk, upOk⟩ := metadataOk_plug_iff.mp whole
    rw [← calculateSize_eq fillOk, ← calculateLF_eq fillOk] at upOk
    rw [recomputeFromParent, recomputeTreeMetadata_of_ok upOk]

/-- The common end of `rbDelete`. -/
theorem finishDelete_spec {size lf height : Nat} {yColor : NodeColor} (focusOk : MetadataOk x)
    (ok : PathMetadataOk path size lf)
    (state : (size = totalLength (entries x) ∧ lf = totalLF (entries x)) ∨
      ∃ n r up, path = .left n r :: up)
    (balanced : Balanced isRed x height)
    (shape : (yColor = .Red ∧ RootBlack isRed x ∧ PathBalanced isRed path height) ∨
      (yColor = .Black ∧ PathBalanced isRed path (height + 1))) :
    ∃ t, finishDelete yColor x path = some t ∧ MetadataOk t ∧ IsRedBlack isRed t ∧
      entries t = entriesBefore path ++ entries x ++ entriesAfter path := by
  have same := refreshParent_same x path
  have refreshed := refreshParent_ok focusOk ok state
  -- the last update finds nothing to correct
  have settled := recomputeFromParent_of_ok focusOk refreshed
  have wholeOk : MetadataOk (x.plug (refreshParent x path)) :=
    metadataOk_plug_iff.mpr ⟨focusOk, refreshed⟩
  have wholeEntries : entries (x.plug (refreshParent x path)) =
      entriesBefore path ++ entries x ++ entriesAfter path := by
    rw [entries_plug, same.entriesBefore_eq, same.entriesAfter_eq]
  simp only [finishDelete, settled]
  rcases shape with ⟨rfl, rootBlack, pathBalanced⟩ | ⟨rfl, pathBalanced⟩
  · exact ⟨_, rfl, wholeOk, isRedBlack_plug_iff.mpr ⟨height, balanced,
      same.pathBalanced pathBalanced, .inl rootBlack⟩, wholeEntries⟩
  · obtain ⟨t, fixed, redBlack, rearranged⟩ :=
      fixup_spec balanced (same.pathBalanced pathBalanced)
    exact ⟨t, fixed, rearranged.metadata wholeOk, redBlack,
      rearranged.entries_eq.trans wholeEntries⟩

theorem entriesBefore_append (p q : Path) :
    entriesBefore (p ++ q) = entriesBefore q ++ entriesBefore p := by
  simp [entriesBefore, before_append]

theorem entriesAfter_append (p q : Path) :
    entriesAfter (p ++ q) = entriesAfter p ++ entriesAfter q := by
  simp [entriesAfter, after_append]

/-- What remains of a focus when its node is removed and `x` is one of the two
subtrees: its height, and how the path fits it. -/
theorem balanced_remove {l r x : Tree} {y : TreeNode} {path : Path}
    {height : Nat} (child : x = l ∨ x = r)
    (focusOk : Balanced isRed (.node l y r) height)
    (pathOk : PathBalanced isRed path height) :
    ∃ below, Balanced isRed x below ∧
      ((y.color = .Red ∧ RootBlack isRed x ∧ PathBalanced isRed path below) ∨
        (y.color = .Black ∧ PathBalanced isRed path (below + 1))) := by
  rcases focusOk with
    ⟨red, leftBlack, rightBlack, leftOk, rightOk⟩ |
    ⟨black, below, rfl, leftOk, rightOk⟩
  · refine ⟨height, ?_, .inl ⟨isRed_eq_true.mp red, ?_, pathOk⟩⟩
    · rcases child with rfl | rfl <;> assumption
    · rcases child with rfl | rfl <;> assumption
  · refine ⟨below, ?_, .inr ⟨isRed_eq_false.mp black, pathOk⟩⟩
    rcases child with rfl | rfl <;> assumption

/-- Removing a node with at most one child `x`. -/
theorem deleteWithChild_spec {l r x : Tree} {z : TreeNode} {path : Path} (child : x = l ∨ x = r)
    (metadata : MetadataOk ((BinaryTree.node l z r).plug path))
    (redBlack : IsRedBlack isRed ((BinaryTree.node l z r).plug path)) :
    ∃ t, deleteWithChild z x path = some t ∧ MetadataOk t ∧ IsRedBlack isRed t ∧
      entries t = entriesBefore path ++ entries x ++ entriesAfter path := by
  obtain ⟨⟨-, -, leftOk, rightOk⟩, pathOk⟩ := metadataOk_plug_iff.mp metadata
  obtain ⟨height, balanced, pathBalanced, -⟩ := isRedBlack_plug_iff.mp redBlack
  have focusOk : MetadataOk x := by rcases child with rfl | rfl <;> assumption
  obtain ⟨below, focusBalanced, shape⟩ :=
    balanced_remove child balanced pathBalanced
  cases path with
  | nil =>
    exact ⟨_, rfl, (metadataOk_setColor _).mpr focusOk, isRedBlack_setColor focusBalanced, by simp⟩
  | cons crumb up =>
    have same := recomputeTreeMetadata_same x (crumb :: up)
    have shape' : (z.color = .Red ∧ RootBlack isRed x ∧
        PathBalanced isRed (recomputeTreeMetadata x (crumb :: up)) below) ∨
        (z.color = .Black ∧ PathBalanced isRed (recomputeTreeMetadata x (crumb :: up))
            (below + 1)) :=
      shape.imp (fun ⟨red, black, ok⟩ => ⟨red, black, same.pathBalanced ok⟩)
        (fun ⟨black, ok⟩ => ⟨black, same.pathBalanced ok⟩)
    rw [same.entriesBefore_eq, same.entriesAfter_eq]
    simp only [deleteWithChild]
    rcases recomputeTreeMetadata_cases focusOk pathOk with
      corrected | ⟨unchanged, leftChild⟩
    · exact finishDelete_spec focusOk corrected (.inl ⟨rfl, rfl⟩) focusBalanced shape'
    · rw [unchanged]
      exact finishDelete_spec focusOk pathOk (.inr leftChild) focusBalanced shape

/-- `leftest` finds the first node, below left turns only. -/
theorem leftestFrom_spec {t : Tree} {path : Path} (nonempty : t ≠ .leaf) :
    ∃ y r inner, leftestFrom t path = some (y, r, inner ++ path) ∧
      (BinaryTree.node .leaf y r).plug inner = t ∧ entriesBefore inner = [] := by
  induction t generalizing path with
  | leaf => exact absurd rfl nonempty
  | node l n r leftHypothesis _ =>
    cases l with
    | leaf => exact ⟨n, r, [], rfl, rfl, rfl⟩
    | node a m b =>
      obtain ⟨y, x, inner, found, plugged, before⟩ :=
        @leftHypothesis (.left n r :: path) (by simp)
      refine ⟨y, x, inner ++ [.left n r], by simp [leftestFrom, found], ?_, ?_⟩
      · rw [plug_append, plugged]
        rfl
      · simp [entriesBefore_append, before]

/-- The total a stale subtree reports. The metadata above `x` is right for
`size` and `lf`; either these are the totals of `x`, or `x` is a left child,
so that its parent hides it. -/
theorem calculate_plug {size lf : Nat} (focusOk : MetadataOk x) (ok : PathMetadataOk path size lf)
    (state : (size = totalLength (entries x) ∧ lf = totalLF (entries x)) ∨
      ∃ n r up, path = .left n r :: up) :
    calculateSize (x.plug path) = totalLength (entriesBefore path) + size +
        totalLength (entriesAfter path) ∧
      calculateLF (x.plug path) = totalLF (entriesBefore path) + lf +
        totalLF (entriesAfter path) := by
  have real : ∀ {x : Tree} {path : Path}, PathMetadataOk path (calculateSize x) (calculateLF x) →
      calculateSize (x.plug path) = totalLength (entriesBefore path) +
          calculateSize x + totalLength (entriesAfter path) ∧
        calculateLF (x.plug path) = totalLF (entriesBefore path) +
          calculateLF x + totalLF (entriesAfter path) := by
    intro x path ok
    induction path generalizing x with
    | nil => simp
    | cons crumb path ih =>
      cases crumb with
      | left n r =>
        obtain ⟨nodeSize, nodeLF, rightOk, pathOk⟩ := ok
        have rest := ih (x := .node x n r) (by
          simpa [calculateSize, calculateLF, nodeSize, nodeLF,
            calculateSize_eq rightOk, calculateLF_eq rightOk] using pathOk)
        simp [Crumb.fill, rest, calculateSize, calculateLF, nodeSize, nodeLF,
          calculateSize_eq rightOk, calculateLF_eq rightOk, entry]
        omega
      | right l n =>
        obtain ⟨nodeSize, nodeLF, leftOk, pathOk⟩ := ok
        have rest := ih (x := .node l n x) (by
          simpa [calculateSize, calculateLF, nodeSize, nodeLF] using pathOk)
        simp [Crumb.fill, rest, calculateSize, calculateLF, nodeSize, nodeLF,
          entry]
        omega
  rcases state with ⟨rfl, rfl⟩ | ⟨n, r, up, rfl⟩
  · rw [← calculateSize_eq focusOk, ← calculateLF_eq focusOk] at ok ⊢
    exact real ok
  · obtain ⟨nodeSize, nodeLF, rightOk, upOk⟩ := ok
    have rest := @real (.node x n r) up (by
      simpa [calculateSize, calculateLF, nodeSize, nodeLF,
        calculateSize_eq rightOk, calculateLF_eq rightOk] using upOk)
    simp [Crumb.fill, rest, calculateSize, calculateLF, nodeSize, nodeLF,
      calculateSize_eq rightOk, calculateLF_eq rightOk, entry]
    omega

/-- Putting the successor `y` in the place of `z` keeps colours and siblings. -/
theorem pathBalanced_replace {inner inner' path path' : Path} {zl : Tree}
    {z y : TreeNode} {height : Nat}
    (ok : PathBalanced isRed (inner ++ .right zl z :: path) height)
    (innerSame : SamePath inner inner') (pathSame : SamePath path path')
    (colour : y.color = z.color) :
    PathBalanced isRed (inner' ++ .right zl y :: path') height := by
  refine pathBalanced_congr ?_ ok
  refine rel_append innerSame.colours (.cons ⟨?_, rfl⟩ pathSame.colours)
  simp [isRed, colour]

/-- The end of `rbDelete` once the successor has taken the place of the removed
node, as `y`, and `x` the place of the successor. -/
theorem finishSuccessor_spec {inner : Path} (y : TreeNode)
    {yColor : NodeColor} {size lf oldSize oldLF height : Nat}
    (focusOk : MetadataOk x) (innerOk : PathMetadataOk inner size lf)
    (state : (size = totalLength (entries x) ∧ lf = totalLF (entries x)) ∨
      ∃ n r up, inner = .left n r :: up)
    (leftOk : MetadataOk zl)
    (sizeEq : y.sizeLeft = totalLength (entries zl))
    (lfEq : y.lfLeft = totalLF (entries zl))
    (pathOk : PathMetadataOk path oldSize oldLF)
    (balanced : Balanced isRed x height)
    (shape : (yColor = .Red ∧ RootBlack isRed x ∧
        PathBalanced isRed (inner ++ .right zl y :: path) height) ∨
      (yColor = .Black ∧ PathBalanced isRed (inner ++ .right zl y :: path) (height + 1))) :
    ∃ t, finishDelete yColor x (inner ++ .right zl y ::
        recomputeTreeMetadata (.node zl y (x.plug inner)) path) = some t ∧
      MetadataOk t ∧ IsRedBlack isRed t ∧
      entries t = entriesBefore path ++ entries zl ++ entry y ::
        (entriesBefore inner ++ entries x ++ entriesAfter inner) ++
        entriesAfter path := by
  have same := recomputeTreeMetadata_same (.node zl y (x.plug inner)) path
  have corrected := recomputeTreeMetadata_ok (x := .node zl y (x.plug inner)) (by simp) pathOk
  obtain ⟨reportedSize, reportedLF⟩ := calculate_plug focusOk innerOk state
  have wholeOk : PathMetadataOk (inner ++ .right zl y ::
      recomputeTreeMetadata (.node zl y (x.plug inner)) path) size lf := by
    refine pathMetadataOk_append.mpr ⟨innerOk, sizeEq, lfEq, leftOk, ?_⟩
    rw [calculateSize, calculateLF, reportedSize, reportedLF, sizeEq, lfEq]
      at corrected
    exact corrected
  have balancedPath : ∀ {height}, PathBalanced isRed (inner ++ .right zl y :: path)
      height → PathBalanced isRed (inner ++ .right zl y ::
        recomputeTreeMetadata (.node zl y (x.plug inner)) path) height :=
    fun ok => pathBalanced_replace ok (.refl inner) same rfl
  have state' : (size = totalLength (entries x) ∧ lf = totalLF (entries x)) ∨
      ∃ n r up, inner ++ .right zl y :: recomputeTreeMetadata (.node zl y (x.plug inner)) path =
          .left n r :: up := by
    refine state.imp_right ?_
    rintro ⟨n, r, up, rfl⟩
    exact ⟨n, r, _, rfl⟩
  obtain ⟨t, finished, metadata, redBlack, order⟩ := finishDelete_spec focusOk
    wholeOk state' balanced
    (shape.imp (And.imp_right (And.imp_right balancedPath)) (And.imp_right balancedPath))
  refine ⟨t, finished, metadata, redBlack, ?_⟩
  rw [order, entriesBefore_append, entriesAfter_append, entriesBefore_right,
    entriesAfter_right, ← same.entriesBefore_eq, ← same.entriesAfter_eq]
  simp

/-- The metadata update below a node `z` splits at `z`. -/
theorem recomputeTreeMetadata_split (x : Tree) (inner path : Path) (zl : Tree) (z : TreeNode) :
    ∃ inner' z' path', recomputeTreeMetadata x (inner ++ .right zl z :: path) =
        inner' ++ .right zl z' :: path' ∧
      SamePath inner inner' ∧ SameNode z z' ∧ SamePath path path' := by
  have same := recomputeTreeMetadata_same x (inner ++ .right zl z :: path)
  have front := forall₂_take inner.length same
  have back := forall₂_drop inner.length same
  rw [take_left] at front
  rw [drop_left] at back
  cases tail : (recomputeTreeMetadata x (inner ++ .right zl z :: path)).drop inner.length with
  | nil => simp [tail] at back
  | cons crumb path' =>
    rw [tail] at back
    cases back with
    | cons head rest =>
      cases head with
      | right _ node =>
        refine ⟨_, _, path', ?_, front, node, rest⟩
        rw [← tail, take_append_drop]

/-- Removing a node with two children. -/
theorem deleteBySuccessor_spec {zl zr : Tree} {z : TreeNode} {path : Path} (nonempty : zr ≠ .leaf)
    (metadata : MetadataOk ((BinaryTree.node zl z zr).plug path))
    (redBlack : IsRedBlack isRed ((BinaryTree.node zl z zr).plug path)) :
    ∃ t, deleteBySuccessor zl z zr path = some t ∧ MetadataOk t ∧ IsRedBlack isRed t ∧
      entries t = entriesBefore path ++ entries zl ++ entries zr ++
        entriesAfter path := by
  obtain ⟨y, x, inner, found, rfl, before⟩ := @leftestFrom_spec zr [] nonempty
  rw [append_nil] at found
  -- the same tree, focused at the successor
  have whole : (BinaryTree.node zl z ((BinaryTree.node .leaf y x).plug inner)).plug
      path = (BinaryTree.node .leaf y x).plug (inner ++ .right zl z :: path) := by
    rw [plug_append]
    rfl
  rw [whole] at metadata redBlack
  obtain ⟨⟨-, -, -, focusOk⟩, pathOk⟩ := metadataOk_plug_iff.mp metadata
  obtain ⟨height, balanced, pathBalanced, -⟩ := isRedBlack_plug_iff.mp redBlack
  simp only [deleteBySuccessor, found, Option.bind_eq_bind, Option.bind_some]
  obtain ⟨below, focusBalanced, shape⟩ :=
    balanced_remove (.inr rfl) balanced pathBalanced
  cases inner with
  | nil =>
    obtain ⟨nodeSize, nodeLF, leftOk, outerOk⟩ := pathOk
    have sizeSame : (calculateSize zl : Int) - z.sizeLeft = 0 := by
      rw [calculateSize_eq leftOk, nodeSize]
      omega
    have lfSame : (calculateLF zl : Int) - z.lfLeft = 0 := by
      rw [calculateLF_eq leftOk, nodeLF]
      omega
    have unchanged : addMetadata z 0 0 = z := by simp [addMetadata]
    simp only [sizeSame, lfSame, unchanged, ne_eq, not_true_eq_false, or_self, if_false]
    have innerOk : PathMetadataOk [] (totalLength (entries x)) (totalLF (entries x)) := trivial
    obtain ⟨t, finished, metadata', redBlack', order⟩ :=
      finishSuccessor_spec { y with
          color := z.color, sizeLeft := z.sizeLeft, lfLeft := z.lfLeft }
        focusOk innerOk (.inl ⟨rfl, rfl⟩) leftOk
        nodeSize nodeLF outerOk focusBalanced
        (by
          rcases shape with ⟨red, black, ok⟩ | ⟨black, ok⟩
          · exact .inl ⟨red, black, pathBalanced_replace ok .nil (.refl path) rfl⟩
          · exact .inr ⟨black, pathBalanced_replace ok .nil (.refl path) rfl⟩)
    exact ⟨t, finished, metadata', redBlack', by simp [order, entry]⟩
  | cons crumb up =>
    obtain ⟨inner', z', path', recomputed, innerSame, nodeSame, pathSame⟩ :=
      recomputeTreeMetadata_split x (crumb :: up) path zl z
    obtain ⟨size, lf, wholeOk, state⟩ : ∃ size lf,
        PathMetadataOk (inner' ++ .right zl z' :: path') size lf ∧
        ((size = totalLength (entries x) ∧ lf = totalLF (entries x)) ∨
          ∃ n r rest, inner' = .left n r :: rest) := by
      rw [← recomputed]
      rcases recomputeTreeMetadata_cases focusOk pathOk with
        corrected | ⟨unchanged, n, r, rest, leftChild⟩
      · exact ⟨_, _, corrected, .inl ⟨rfl, rfl⟩⟩
      · refine ⟨_, _, unchanged ▸ pathOk, .inr ?_⟩
        rw [unchanged] at recomputed
        cases innerSame with
        | cons head tail =>
          simp only [cons_append, List.cons.injEq] at recomputed leftChild
          exact ⟨n, r, _, by rw [← recomputed.1, leftChild.1]⟩
    obtain ⟨innerOk, nodeSize, nodeLF, leftOk, outerOk⟩ :=
      pathMetadataOk_append.mp wholeOk
    simp only [recomputed, innerSame.length_eq, take_left, drop_left]
    obtain ⟨t, finished, metadata', redBlack', order⟩ :=
      finishSuccessor_spec { y with
          color := z.color, sizeLeft := z'.sizeLeft, lfLeft := z'.lfLeft }
        focusOk innerOk state leftOk nodeSize nodeLF outerOk focusBalanced
        (by
          rcases shape with ⟨red, black, ok⟩ | ⟨black, ok⟩
          · exact .inl ⟨red, black, pathBalanced_replace ok innerSame pathSame rfl⟩
          · exact .inr ⟨black, pathBalanced_replace ok innerSame pathSame rfl⟩)
    refine ⟨t, finished, metadata', redBlack', ?_⟩
    rw [order, ← pathSame.entriesBefore_eq, ← pathSame.entriesAfter_eq,
      ← innerSame.entriesBefore_eq, ← innerSame.entriesAfter_eq, before,
      entries_plug, before]
    simp [entry]

/-- `rbDelete` removes the node from the sequence. -/
theorem Holds.rbDelete {p : Piece} (holds : Holds t (es ++ (id, p) :: fs)) :
    ∃ t', rbDelete t id = some t' ∧ Holds t' (es ++ fs) := by
  obtain ⟨l, n, r, path, found, plugged, -, rfl, rfl⟩ := holds.focus
  have metadata : MetadataOk ((BinaryTree.node l n r).plug path) :=
    plugged ▸ holds.metadata
  have redBlack : IsRedBlack isRed ((BinaryTree.node l n r).plug path) :=
    plugged ▸ holds.redBlack
  have distinct : (ids (entriesBefore path ++ entries l ++
      (entries r ++ entriesAfter path))).Nodup := by
    refine holds.distinct.sublist ?_
    rw [ids_append, ids_append _ (_ :: _), ids_cons]
    exact (List.Sublist.refl _).append (sublist_cons_self _ _)
  suffices result : ∃ t', PieceTree.rbDelete t id = some t' ∧ MetadataOk t' ∧
      IsRedBlack isRed t' ∧ entries t' = entriesBefore path ++ entries l ++
        (entries r ++ entriesAfter path) by
    obtain ⟨t', deleted, metadata', redBlack', order⟩ := result
    exact ⟨t', deleted, order, metadata', redBlack', distinct⟩
  simp only [PieceTree.rbDelete, found, Option.bind_eq_bind, Option.bind_some]
  match l, r with
  | .leaf, r =>
    obtain ⟨t', deleted, rest⟩ :=
      deleteWithChild_spec (.inr rfl) metadata redBlack
    exact ⟨t', deleted, by simpa using rest⟩
  | .node a b c, .leaf =>
    obtain ⟨t', deleted, rest⟩ :=
      deleteWithChild_spec (.inl rfl) metadata redBlack
    exact ⟨t', deleted, by simpa using rest⟩
  | .node a b c, .node d e f =>
    obtain ⟨t', deleted, rest⟩ :=
      deleteBySuccessor_spec (by simp) metadata redBlack
    exact ⟨t', deleted, by simpa using rest⟩

end CodeEditor.PieceTree

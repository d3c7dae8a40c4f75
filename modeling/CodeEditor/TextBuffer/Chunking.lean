import CodeEditor.TextBuffer.Loading

/-!
# Loading a text in chunks

A character that is kept back is lost when the next chunk is kept back as a whole, and is
written twice when there is nothing else. A byte order mark is taken off every chunk as
long as nothing has been pushed.
-/

namespace CodeEditor.TextBuffer

open PieceTree PieceTreeTextBufferBuilder List

/-- One character that is kept back. -/
def IsKept (chunk : Text) : Prop := chunk.length = 1 ∧ keptBack (chunk.getLastD 0) = true

instance (chunk : Text) : Decidable (IsKept chunk) := inferInstanceAs (Decidable (_ ∧ _))

/-- A chunk that is kept back as a whole comes behind a chunk that ends in a character that
is kept back. -/
def Overwrites : List Text → Prop
  | first :: second :: rest =>
    keptBack (first.getLastD 0) = true ∧ IsKept second ∨ Overwrites (second :: rest)
  | _ => False

/-- A chunk starts with a byte order mark, and all chunks in front of it are kept back. -/
def LateMark : List Text → Prop
  | [] => False
  | chunk :: rest => startsWithUTF8BOM chunk = true ∨ IsKept chunk ∧ LateMark rest

/-- The chunks give the text. -/
def GivesText (parts : List Text) : Prop :=
  ¬Overwrites parts ∧ ¬(∃ part, parts = [part] ∧ IsKept part) ∨
    ∃ part, parts = [part, part] ∧ IsKept part

/-! ## One chunk -/

/-- All that a builder has seen, without what it lost. -/
def pending (b : PieceTreeTextBufferBuilder) : Text := chunkText b.chunks ++ b.held

theorem not_pushes_iff {chunk : Text} (nonempty : chunk ≠ []) : ¬Pushes chunk ↔ IsKept chunk := by
  rw [Pushes, IsKept]
  tauto

variable {b : PieceTreeTextBufferBuilder}

theorem acceptRest_pushed {chunk : Text} (pushes : Pushes chunk) :
    pending (b.acceptRest chunk) = pending b ++ chunk ∧ (b.acceptRest chunk).chunks ≠ [] ∧
      (b.acceptRest chunk).BOM = b.BOM ∧
      (b.acceptRest chunk).hasPreviousChar = keptBack (chunk.getLastD 0) := by
  obtain ⟨rest, split, -, accepted⟩ := @acceptRest_eq b chunk pushes
  obtain ⟨chunks, -, -, -, -, bom, -⟩ := b.acceptChunk2_fields (b.held ++ rest)
  have isChunks : (b.acceptRest chunk).chunks =
      b.chunks ++ [⟨b.held ++ rest, createLineStartsFast (b.held ++ rest)⟩] := by
    rw [accepted]
    exact chunks
  refine ⟨?_, ?_, ?_, ?_⟩
  · calc pending (b.acceptRest chunk)
      _ = pending b ++ (rest ++ (b.acceptRest chunk).held) := by
        rw [pending, isChunks, chunkText_append]
        simp [chunkText, pending]
      _ = pending b ++ chunk := by rw [← split]
  · simp [isChunks]
  · rw [accepted]
    exact bom
  · rw [accepted]

theorem acceptRest_kept {chunk : Text} (kept : IsKept chunk) :
    (b.acceptRest chunk).chunks = b.chunks ∧ (b.acceptRest chunk).held = chunk ∧
      (b.acceptRest chunk).BOM = b.BOM ∧ (b.acceptRest chunk).hasPreviousChar = true := by
  have nonempty : chunk ≠ [] := by
    intro empty
    rw [empty] at kept
    exact absurd kept.1 (by decide)
  rw [acceptRest_of_not_pushes ((not_pushes_iff nonempty).mpr kept)]
  refine ⟨rfl, ?_, rfl, kept.2⟩
  obtain ⟨unit, rfl⟩ := length_eq_one_iff.mp kept.1
  have isKept : keptBack unit = true := kept.2
  simp [held, isKept]

theorem acceptChunk_of_chunks {chunk : Text} (nonempty : chunk ≠ [])
    (plain : b.chunks ≠ [] ∨ startsWithUTF8BOM chunk = false) :
    b.acceptChunk chunk = b.acceptRest chunk := by
  have some : ¬(chunk.length = 0) := by simpa using nonempty
  rw [acceptChunk, if_neg some, if_neg]
  rw [Bool.and_eq_true, decide_eq_true_eq, length_eq_zero_iff]
  rintro ⟨none, marked⟩
  rcases plain with pushed | notMarked
  · exact pushed none
  · rw [notMarked] at marked
    cases marked

theorem acceptChunk_marked (none : b.chunks = []) (marked : startsWithUTF8BOM chunk = true) :
    b.acceptChunk chunk = acceptRest { b with BOM := [UTF8_BOM] } (chunk.drop 1) := by
  have some : ¬(chunk.length = 0) := by
    intro empty
    rw [length_eq_zero_iff] at empty
    rw [empty] at marked
    exact absurd marked (by decide)
  rw [acceptChunk, if_neg some, if_pos]
  rw [Bool.and_eq_true, decide_eq_true_eq, length_eq_zero_iff]
  exact ⟨none, marked⟩

/-! ## Chunks behind a pushed chunk -/

variable {chunks : List Text}

/-- Once a chunk has been pushed, the chunks that follow are kept unless one of them
overwrites a character that was kept back; then the text stays too short. -/
theorem foldl_pushed {last : Text} (nonempty : ∀ chunk ∈ chunks, chunk ≠ [])
    (pushed : b.chunks ≠ []) (has : b.hasPreviousChar = keptBack (last.getLastD 0)) :
    (chunks.foldl acceptChunk b).chunks ≠ [] ∧ (chunks.foldl acceptChunk b).BOM = b.BOM ∧
      (pending (chunks.foldl acceptChunk b)).length ≤ (pending b).length + chunks.flatten.length ∧
      (pending (chunks.foldl acceptChunk b) = pending b ++ chunks.flatten ↔
        ¬Overwrites (last :: chunks)) := by
  induction chunks generalizing b last with
  | nil => simp [pushed, Overwrites]
  | cons chunk chunks ih =>
    have some := nonempty chunk (by simp)
    have later : ∀ other ∈ chunks, other ≠ [] := fun other member =>
      nonempty other (mem_cons_of_mem _ member)
    rw [foldl_cons, acceptChunk_of_chunks some (.inl pushed), flatten_cons,
      length_append, Overwrites]
    by_cases kept : IsKept chunk
    · obtain ⟨sameChunks, isHeld, bom, isHas⟩ := @acceptRest_kept b chunk kept
      obtain ⟨still, bom', short, same⟩ := @ih (b.acceptRest chunk) chunk later
        (by rw [sameChunks]; exact pushed) (by rw [isHas, kept.2])
      have isPending : pending (b.acceptRest chunk) = chunkText b.chunks ++ chunk := by
        rw [pending, sameChunks, isHeld]
      have own : pending b = chunkText b.chunks ++ b.held := rfl
      rw [isPending, length_append] at short
      rw [isPending] at same
      refine ⟨still, by rw [bom', bom], ?_, ?_⟩
      · rw [own, length_append]
        omega
      · cases isBefore : keptBack (last.getLastD 0) with
        | true =>
          -- the character that was kept back is lost
          rw [isBefore] at has
          have one : b.held.length = 1 := by rw [held, if_pos has]; rfl
          constructor
          · intro equal
            have lengths := congrArg List.length equal
            rw [own, length_append, length_append, length_append] at lengths
            omega
          · intro keeps
            exact absurd (.inl ⟨rfl, kept⟩) keeps
        | false =>
          rw [isBefore] at has
          have nothing : b.held = [] := by rw [held, has]; rfl
          rw [own, nothing, append_nil, ← append_assoc, same]
          simp
    · have pushes : Pushes chunk := by
        by_contra notPushes
        exact kept ((not_pushes_iff some).mp notPushes)
      obtain ⟨isPending, still, bom, isHas⟩ := @acceptRest_pushed b chunk pushes
      obtain ⟨still', bom', short, same⟩ := @ih (b.acceptRest chunk) chunk later still isHas
      rw [isPending] at short same
      refine ⟨still', by rw [bom', bom], ?_, ?_⟩
      · rw [length_append] at short
        omega
      · rw [← append_assoc, same]
        simp [kept]

/-! ## Chunks in front of the first pushed chunk -/

theorem finalText_of_pushed (pushed : b.chunks ≠ []) : finalText b = pending b := by
  rw [finalText, if_neg pushed]
  rfl

theorem finalText_of_none (none : b.chunks = []) : finalText b = b.held ++ b.held := by
  rw [finalText, if_pos none]

/-- A chunk that comes as long as nothing was pushed, without a byte order mark. -/
theorem acceptChunk_none {chunk : Text} (none : b.chunks = []) (nonempty : chunk ≠ [])
    (plain : startsWithUTF8BOM chunk = false) : (b.acceptChunk chunk).BOM = b.BOM ∧
      (IsKept chunk ∧ (b.acceptChunk chunk).chunks = [] ∧ (b.acceptChunk chunk).held = chunk ∨
        ¬IsKept chunk ∧ (b.acceptChunk chunk).chunks ≠ [] ∧
          pending (b.acceptChunk chunk) = b.held ++ chunk ∧
          (b.acceptChunk chunk).hasPreviousChar = keptBack (chunk.getLastD 0)) := by
  rw [acceptChunk_of_chunks nonempty (.inr plain)]
  by_cases kept : IsKept chunk
  · obtain ⟨sameChunks, isHeld, bom, -⟩ := @acceptRest_kept b chunk kept
    exact ⟨bom, .inl ⟨kept, by rw [sameChunks, none], isHeld⟩⟩
  · have pushes : Pushes chunk := by
      by_contra notPushes
      exact kept ((not_pushes_iff nonempty).mp notPushes)
    obtain ⟨isPending, still, bom, isHas⟩ := @acceptRest_pushed b chunk pushes
    refine ⟨bom, .inr ⟨kept, still, ?_, isHas⟩⟩
    rw [isPending, pending, none]
    rfl

/-- As long as something was kept back and more chunks come, nothing is written twice. -/
theorem length_finalText_le (nonempty : ∀ chunk ∈ chunks, chunk ≠ []) (none : b.chunks = [])
    (late : ¬LateMark chunks) (has : b.held.length = 1) (more : chunks ≠ []) :
    (finalText (chunks.foldl acceptChunk b)).length ≤ 1 + chunks.flatten.length := by
  induction chunks generalizing b with
  | nil => contradiction
  | cons chunk chunks ih =>
    have later : ∀ other ∈ chunks, other ≠ [] := fun other member =>
      nonempty other (mem_cons_of_mem _ member)
    rw [LateMark, not_or, Bool.not_eq_true, not_and] at late
    rw [foldl_cons, flatten_cons, length_append]
    obtain ⟨-, ⟨kept, still, isHeld⟩ | ⟨notKept, pushed, isPending, isHas⟩⟩ :=
      @acceptChunk_none b chunk none (nonempty chunk (by simp)) late.1
    · have one := kept.1
      by_cases last : chunks = []
      · subst last
        rw [foldl_nil, finalText_of_none still, isHeld, length_append]
        omega
      · have short := ih later still (late.2 kept) (by rw [isHeld, one]) last
        omega
    · obtain ⟨still, -, short, -⟩ := foldl_pushed later pushed isHas
      rw [finalText_of_pushed still]
      rw [isPending, length_append] at short
      omega

/-- The character that was kept back as a chunk, if there is one. -/
def heldParts (b : PieceTreeTextBufferBuilder) (chunks : List Text) : List Text :=
  if b.held = [] then chunks else b.held :: chunks

theorem givesText_of_pushes (notKept : ¬IsKept chunk) :
    GivesText (chunk :: chunks) ↔ ¬Overwrites (chunk :: chunks) := by
  constructor
  · rintro (⟨keeps, -⟩ | ⟨part, isPart, kept⟩)
    · exact keeps
    · rw [List.cons.injEq] at isPart
      exact absurd (isPart.1 ▸ kept) notKept
  · intro keeps
    refine .inl ⟨keeps, ?_⟩
    rintro ⟨part, isPart, kept⟩
    rw [List.cons.injEq] at isPart
    exact notKept (isPart.1 ▸ kept)

theorem givesText_of_kept (kept : IsKept first) (kept' : IsKept second) :
    GivesText (first :: second :: chunks) ↔ first = second ∧ chunks = [] := by
  constructor
  · rintro (⟨keeps, -⟩ | ⟨part, isPart, -⟩)
    · exact absurd (.inl ⟨kept.2, kept'⟩) keeps
    · simp only [List.cons.injEq] at isPart
      exact ⟨isPart.1.trans isPart.2.1.symm, isPart.2.2⟩
  · rintro ⟨rfl, rfl⟩
    exact .inr ⟨first, rfl, kept⟩

theorem givesText_cons_of_pushes {first second : Text} (notKept : ¬IsKept second) :
    GivesText (first :: second :: chunks) ↔ GivesText (second :: chunks) := by
  rw [givesText_of_pushes notKept, GivesText, Overwrites]
  constructor
  · rintro (⟨keeps, -⟩ | ⟨part, isPart, kept⟩)
    · exact fun overwrites => keeps (.inr overwrites)
    · simp only [List.cons.injEq] at isPart
      exact absurd (isPart.2.1 ▸ kept) notKept
  · intro keeps
    refine .inl ⟨?_, by simp⟩
    rintro (⟨-, kept⟩ | overwrites)
    · exact notKept kept
    · exact keeps overwrites

/-- As long as nothing was pushed. -/
theorem foldl_none (ok : b.Ok) (nonempty : ∀ chunk ∈ chunks, chunk ≠ []) (none : b.chunks = [])
    (late : ¬LateMark chunks) : (chunks.foldl acceptChunk b).BOM = b.BOM ∧
      (finalText (chunks.foldl acceptChunk b) = b.held ++ chunks.flatten ↔
        GivesText (heldParts b chunks)) := by
  induction chunks generalizing b with
  | nil =>
    refine ⟨rfl, ?_⟩
    rw [foldl_nil, finalText_of_none none, heldParts, flatten_nil, append_nil]
    split
    · rename_i nothing
      simp [nothing, GivesText, Overwrites]
    · rename_i some
      have has : b.hasPreviousChar = true := by
        by_contra notHas
        exact some (by rw [held, if_neg notHas])
      have kept : IsKept b.held := by
        rw [held, if_pos has]
        exact ⟨rfl, ok.kept has⟩
      simp [some, GivesText, kept]
  | cons chunk chunks ih =>
    have later : ∀ other ∈ chunks, other ≠ [] := fun other member =>
      nonempty other (mem_cons_of_mem _ member)
    have ok' := acceptChunk_ok ok chunk
    rw [LateMark, not_or, Bool.not_eq_true, not_and] at late
    rw [foldl_cons, flatten_cons]
    obtain ⟨bom, ⟨kept, still, isHeld⟩ | ⟨notKept, pushed, isPending, isHas⟩⟩ :=
      @acceptChunk_none b chunk none (nonempty chunk (by simp)) late.1
    · have some := nonempty chunk (by simp)
      obtain ⟨bom', same⟩ := ih ok' later still (late.2 kept)
      refine ⟨by rw [bom', bom], ?_⟩
      rw [heldParts, isHeld, if_neg some] at same
      rw [heldParts]
      split
      · rename_i nothing
        rw [nothing, nil_append]
        exact same
      · rename_i some'
        have has : b.hasPreviousChar = true := by
          by_contra notHas
          exact some' (by rw [held, if_neg notHas])
        have keptHeld : IsKept b.held := by
          rw [held, if_pos has]
          exact ⟨rfl, ok.kept has⟩
        rw [givesText_of_kept keptHeld kept]
        by_cases last : chunks = []
        · subst last
          rw [foldl_nil, finalText_of_none still, isHeld, flatten_nil,
            append_nil, append_cancel_right_eq]
          simp [eq_comm]
        · have short := length_finalText_le later still (late.2 kept) (by rw [isHeld, kept.1]) last
          constructor
          · intro equal
            have lengths := congrArg List.length equal
            rw [length_append, length_append, keptHeld.1, kept.1] at lengths
            omega
          · exact fun both => absurd both.2 last
    · obtain ⟨still, bom', -, same⟩ := foldl_pushed later pushed isHas
      refine ⟨by rw [bom', bom], ?_⟩
      rw [finalText_of_pushed still, ← append_assoc, ← isPending, same, heldParts]
      split
      · rw [givesText_of_pushes notKept]
      · rw [givesText_cons_of_pushes notKept, givesText_of_pushes notKept]

/-! ## Byte order marks -/

/-- How many byte order marks stand in a text. -/
def countMarks (text : Text) : Nat := text.count UTF8_BOM

theorem countMarks_append (first second : Text) :
    countMarks (first ++ second) = countMarks first + countMarks second :=
  count_append

theorem countMarks_of_marked (marked : startsWithUTF8BOM chunk = true) :
    countMarks chunk = countMarks (chunk.drop 1) + 1 := by
  cases chunk with
  | nil => exact absurd marked (by decide)
  | cons unit rest =>
    have isMark : unit = UTF8_BOM := by simpa [startsWithUTF8BOM] using marked
    rw [countMarks, isMark, count_cons_self]
    rfl

theorem countMarks_acceptRest_le (b : PieceTreeTextBufferBuilder) (chunk : Text) :
    countMarks (pending (b.acceptRest chunk)) ≤ countMarks (pending b) + countMarks chunk := by
  by_cases pushes : Pushes chunk
  · rw [(acceptRest_pushed pushes).1, countMarks_append]
  · have isPending : pending b = chunkText b.chunks ++ b.held := rfl
    have after : pending (b.acceptRest chunk) = chunkText b.chunks ++ chunk := by
      by_cases empty : chunk = []
      · rw [acceptRest_of_not_pushes pushes, empty]
        rfl
      · obtain ⟨sameChunks, isHeld, -⟩ := @acceptRest_kept b chunk
          ((not_pushes_iff empty).mp pushes)
        rw [pending, sameChunks, isHeld]
    rw [after, isPending, countMarks_append, countMarks_append]
    omega

theorem countMarks_acceptChunk_le (b : PieceTreeTextBufferBuilder) (chunk : Text) :
    countMarks (pending (b.acceptChunk chunk)) ≤ countMarks (pending b) + countMarks chunk := by
  by_cases empty : chunk = []
  · subst empty
    exact Nat.le_add_right _ _
  · by_cases strips : b.chunks = [] ∧ startsWithUTF8BOM chunk = true
    · have rest := countMarks_acceptRest_le { b with BOM := [UTF8_BOM] } (chunk.drop 1)
      have own : pending { b with BOM := [UTF8_BOM] } = pending b := rfl
      rw [acceptChunk_marked strips.1 strips.2, countMarks_of_marked strips.2]
      rw [own] at rest
      omega
    · rw [acceptChunk_of_chunks empty (by
        rw [← Bool.not_eq_true]
        tauto)]
      exact countMarks_acceptRest_le b chunk

theorem countMarks_foldl_le (chunks : List Text) (b : PieceTreeTextBufferBuilder) :
    countMarks (pending (chunks.foldl acceptChunk b)) ≤
      countMarks (pending b) + countMarks chunks.flatten := by
  induction chunks generalizing b with
  | nil => exact Nat.le_add_right _ _
  | cons chunk chunks ih =>
    have first := countMarks_acceptChunk_le b chunk
    have rest := ih (b.acceptChunk chunk)
    rw [foldl_cons, flatten_cons, countMarks_append]
    omega

theorem countMarks_finalText_le (ok : b.Ok) :
    countMarks (finalText b) ≤ countMarks (pending b) := by
  by_cases none : b.chunks = []
  · have noMark : countMarks b.held = 0 := by
      rw [held]
      split
      · rename_i has
        have kept := ok.kept has
        have notMark : b.previousChar ≠ UTF8_BOM := by
          intro isMark
          rw [isMark] at kept
          revert kept
          decide
        simp [countMarks, notMark]
      · rfl
    rw [finalText_of_none none, countMarks_append, noMark]
    exact Nat.zero_le _
  · rw [finalText_of_pushed none]

/-- A byte order mark inside the text is lost. -/
theorem countMarks_lt_of_lateMark (nonempty : ∀ chunk ∈ chunks, chunk ≠ []) (none : b.chunks = [])
    (late : LateMark chunks) : countMarks (pending (chunks.foldl acceptChunk b)) <
      countMarks (pending b) + countMarks chunks.flatten := by
  induction chunks generalizing b with
  | nil => cases late
  | cons chunk chunks ih =>
    rw [foldl_cons, flatten_cons, countMarks_append]
    cases marked : startsWithUTF8BOM chunk with
    | true =>
      have first := countMarks_acceptRest_le { b with BOM := [UTF8_BOM] } (chunk.drop 1)
      have own : pending { b with BOM := [UTF8_BOM] } = pending b := rfl
      have rest := countMarks_foldl_le chunks (b.acceptChunk chunk)
      rw [own] at first
      rw [acceptChunk_marked none marked] at rest ⊢
      rw [countMarks_of_marked marked]
      omega
    | false =>
      obtain ⟨kept, late'⟩ : IsKept chunk ∧ LateMark chunks := by
        rcases late with isMarked | both
        · rw [marked] at isMarked
          cases isMarked
        · exact both
      have first := countMarks_acceptChunk_le b chunk
      obtain ⟨-, ⟨-, still, -⟩ | ⟨notKept, -⟩⟩ :=
        @acceptChunk_none b chunk none (nonempty chunk (by simp)) marked
      · have rest := @ih (b.acceptChunk chunk)
          (fun other member => nonempty other (mem_cons_of_mem _ member)) still late'
        omega
      · exact absurd kept notKept

/-! ## All chunks -/

/-- The text that the chunks stand for, and the byte order mark in front of it. -/
def splitBOM (text : Text) : Text × Text :=
  if startsWithUTF8BOM text then (text.drop 1, [UTF8_BOM]) else (text, [])

/-- A chunk without the byte order mark in front. -/
def stripUTF8BOM (chunk : Text) : Text :=
  if startsWithUTF8BOM chunk then chunk.drop 1 else chunk

/-- The chunks, in which a byte order mark only stands in front of the first one, give the
text. -/
def LosesNothing (chunks : List Text) : Prop :=
  match chunks.filter (· ≠ []) with
  | [] => True
  | first :: rest =>
    ¬(¬Pushes (stripUTF8BOM first) ∧ LateMark rest) ∧
      GivesText ((stripUTF8BOM first :: rest).filter (· ≠ []))

theorem foldl_filter (chunks : List Text) (b : PieceTreeTextBufferBuilder) :
    (chunks.filter (· ≠ [])).foldl acceptChunk b = chunks.foldl acceptChunk b := by
  induction chunks generalizing b with
  | nil => rfl
  | cons chunk chunks ih =>
    by_cases empty : chunk = []
    · subst empty
      rw [filter_cons_of_neg (by simp), ih]
      rfl
    · rw [filter_cons_of_pos (by simpa using empty), foldl_cons, foldl_cons, ih]

theorem flatten_filter (chunks : List Text) :
    (chunks.filter (· ≠ [])).flatten = chunks.flatten := by
  induction chunks with
  | nil => rfl
  | cons chunk chunks ih =>
    by_cases empty : chunk = []
    · subst empty
      rw [filter_cons_of_neg (by simp), ih]
      rfl
    · rw [filter_cons_of_pos (by simpa using empty), flatten_cons, flatten_cons, ih]

/-- The first chunk that is not empty. -/
theorem acceptChunk_first {first : Text} (nonempty : first ≠ []) :
    new.acceptChunk first = acceptRest { new with
      BOM := if startsWithUTF8BOM first then [UTF8_BOM] else [] } (stripUTF8BOM first) := by
  rw [stripUTF8BOM]
  cases marked : startsWithUTF8BOM first with
  | true => rw [acceptChunk_marked rfl marked]; rfl
  | false => rw [acceptChunk_of_chunks nonempty (.inr marked)]; rfl

theorem splitBOM_cons {first : Text} (nonempty : first ≠ []) (rest : Text) :
    splitBOM (first ++ rest) = (stripUTF8BOM first ++ rest,
      if startsWithUTF8BOM first then [UTF8_BOM] else []) := by
  cases first with
  | nil => contradiction
  | cons unit units =>
    have same : startsWithUTF8BOM (unit :: units ++ rest) = startsWithUTF8BOM (unit :: units) :=
      rfl
    rw [splitBOM, stripUTF8BOM, same]
    split <;> rfl

/-- The first chunk, without its byte order mark, and the others. -/
theorem foldl_start (ok : b.Ok) (none : b.chunks = []) (nothing : b.held = []) {start : Text}
    {rest : List Text} (nonempty : ∀ chunk ∈ rest, chunk ≠ []) :
    finalText (rest.foldl acceptChunk (b.acceptRest start)) = start ++ rest.flatten ∧
        (rest.foldl acceptChunk (b.acceptRest start)).BOM = b.BOM ↔
      ¬(¬Pushes start ∧ LateMark rest) ∧ GivesText ((start :: rest).filter (· ≠ [])) := by
  have ok' : (b.acceptRest start).Ok := acceptRest_ok ok fun _ => none
  have restFilter : rest.filter (· ≠ []) = rest := by
    rw [filter_eq_self]
    intro chunk member
    simpa using nonempty chunk member
  by_cases pushes : Pushes start
  · obtain ⟨isPending, pushed, bom, isHas⟩ := @acceptRest_pushed b start pushes
    obtain ⟨still, bom', -, same⟩ := foldl_pushed nonempty pushed isHas
    have own : pending b = [] := by
      rw [pending, none, nothing]
      rfl
    have notKept : ¬IsKept start := fun kept => pushes.2 kept
    rw [own, nil_append] at isPending
    rw [isPending] at same
    rw [finalText_of_pushed still, same, bom', bom, filter_cons_of_pos
      (by simpa using pushes.1), restFilter, givesText_of_pushes notKept]
    simp [pushes]
  · have isNone : (b.acceptRest start).chunks = [] := by
      rw [acceptRest_of_not_pushes pushes, none]
    have isHeld : (b.acceptRest start).held = start := by
      by_cases empty : start = []
      · rw [acceptRest_of_not_pushes pushes, empty]
        rfl
      · exact (acceptRest_kept ((not_pushes_iff empty).mp pushes)).2.1
    have bom : (b.acceptRest start).BOM = b.BOM := by rw [acceptRest_of_not_pushes pushes]
    by_cases late : LateMark rest
    · have fewer := countMarks_lt_of_lateMark nonempty isNone late
      have final := countMarks_finalText_le (foldl_ok ok' rest)
      have isPending : pending (b.acceptRest start) = start := by
        rw [pending, isNone, isHeld]
        rfl
      rw [isPending] at fewer
      constructor
      · rintro ⟨same, -⟩
        rw [same, countMarks_append] at final
        omega
      · exact fun both => absurd ⟨pushes, late⟩ both.1
    · obtain ⟨bom', same⟩ := foldl_none ok' nonempty isNone late
      have parts : heldParts (b.acceptRest start) rest = (start :: rest).filter (· ≠ []) := by
        rw [heldParts, isHeld, filter_cons, restFilter]
        by_cases empty : start = []
        · simp [empty]
        · simp [empty]
      rw [isHeld, parts] at same
      rw [same, bom', bom]
      simp [late]

/-- The builder has seen the whole text exactly when the chunks lose nothing. -/
theorem finalText_iff (chunks : List Text) :
    (finalText (acceptAll chunks), (acceptAll chunks).BOM) = splitBOM chunks.flatten ↔
      LosesNothing chunks := by
  rw [acceptAll, ← foldl_filter, ← flatten_filter, LosesNothing]
  have nonempty : ∀ chunk ∈ chunks.filter (· ≠ []), chunk ≠ [] := by
    intro chunk member
    simpa using (mem_filter.mp member).2
  cases parts : chunks.filter (· ≠ []) with
  | nil => exact ⟨fun _ => trivial, fun _ => rfl⟩
  | cons first rest =>
    rw [parts] at nonempty
    have some := nonempty first (by simp)
    have own : Ok { new with BOM := if startsWithUTF8BOM first then [UTF8_BOM] else [] } :=
      { ok_new with }
    rw [foldl_cons, flatten_cons, splitBOM_cons some, Prod.mk.injEq, acceptChunk_first some]
    exact foldl_start own rfl rfl fun other member =>
      nonempty other (mem_cons_of_mem _ member)

/-- Loading a text in chunks gives the text, its byte order mark and the right counters
exactly when the chunks lose nothing. -/
theorem loading_loses_nothing_iff (chunks : List Text) (defaultEOL : EOL) :
    (∃ buffer, ((acceptAll chunks).finish false).create defaultEOL = some buffer ∧
      (buffer.pieceTree.getLinesRawContent, buffer.BOM) = splitBOM chunks.flatten ∧
      ((acceptAll chunks).finish false).cr =
        countBreaks [CR] buffer.pieceTree.getLinesRawContent ∧
      ((acceptAll chunks).finish false).lf =
        countBreaks [LF] buffer.pieceTree.getLinesRawContent ∧
      ((acceptAll chunks).finish false).crlf =
        countBreaks [CR, LF] buffer.pieceTree.getLinesRawContent) ↔
      LosesNothing chunks := by
  obtain ⟨buffer, created, represents, bom, -⟩ := create_spec chunks false defaultEOL
  obtain ⟨finished, -, -⟩ := finishChunks_spec (acceptAll_ok chunks)
  have text : buffer.pieceTree.getLinesRawContent = finalText (acceptAll chunks) :=
    represents.getLinesRawContent
  rw [← finalText_iff]
  constructor
  · rintro ⟨other, isOther, same, -⟩
    rw [created] at isOther
    cases isOther
    rw [text, bom] at same
    exact same
  · intro same
    refine ⟨buffer, created, ?_, ?_, ?_, ?_⟩
    · rw [text, bom, same]
    · rw [text]
      exact finished.cr
    · rw [text]
      exact finished.lf
    · rw [text]
      exact finished.crlf

/-- A `\r` alone is loaded as `\r\r`. -/
theorem lone_return_is_doubled :
    ∃ buffer, ((acceptAll [[CR]]).finish false).create .lf = some buffer ∧
      buffer.pieceTree.getLinesRawContent = [CR, CR] ∧
      splitBOM [[CR]].flatten = ([CR], []) := by
  obtain ⟨buffer, created, represents, -⟩ := create_spec [[CR]] false .lf
  refine ⟨buffer, created, ?_, rfl⟩
  rw [represents.getLinesRawContent]
  rfl

end CodeEditor.TextBuffer

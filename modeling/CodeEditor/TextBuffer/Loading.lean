import CodeEditor.Foundation.Arrays
import CodeEditor.PieceTree.Runs
import CodeEditor.TextBuffer.Builder

/-!
# What a builder has accepted

The chunks of a builder fit for a piece tree: no `\r\n` is cut between two of them, and the
counters and the flag for basic ASCII are those of the text of the chunks.
-/

namespace CodeEditor.TextBuffer

open PieceTree List

/-! ## Line starts -/

/-- How often a line break stands in a text. -/
def countBreaks (lineBreak text : Text) : Nat := (lineBreaks text).count lineBreak

theorem countBreaks_append (whole : splitsCRLF first second = false) (lineBreak : Text) :
    countBreaks lineBreak (first ++ second) =
      countBreaks lineBreak first + countBreaks lineBreak second := by
  rw [countBreaks, lineBreaks_append whole, count_append]
  rfl

theorem isBasicASCII_append (first second : Text) :
    isBasicASCII (first ++ second) = (isBasicASCII first && isBasicASCII second) :=
  all_append

theorem addChar_eq {chr : CodeUnit} (notCR : chr ≠ CR) (notLF : chr ≠ LF) (r : LineStarts) :
    r.addChar chr = { r with isBasicASCII := isBasicUnit chr && r.isBasicASCII } := by
  rw [LineStarts.addChar]
  have isBasic : isBasicUnit chr = !decide (chr ≠ 9 ∧ (chr < 32 ∨ chr > 126)) := by
    have lower : (32 ≤ chr) = ¬(chr < 32) := by rw [UInt16.not_lt]
    have upper : (chr ≤ 126) = ¬(chr > 126) := by rw [gt_iff_lt, UInt16.not_lt]
    simp only [isBasicUnit, notCR, notLF, lower, upper]
    by_cases isTab : chr = 9
    · simp [isTab]
    · by_cases less : chr < 32
      · simp [isTab, less]
      · by_cases greater : chr > 126
        · simp [isTab, less, greater]
        · simp [isTab, less, greater]
  by_cases unusual : chr ≠ 9 ∧ (chr < 32 ∨ chr > 126)
  · rw [if_pos unusual, isBasic, decide_eq_true unusual]
    rfl
  · rw [if_neg unusual, isBasic, decide_eq_false unusual]
    rfl

theorem createLineStartsFrom_eq (text : Text) (i : Nat) :
    createLineStartsFrom i text = ⟨lineStartsFrom i text, countBreaks [CR] text,
      countBreaks [LF] text, countBreaks [CR, LF] text, isBasicASCII text⟩ := by
  induction i, text using createLineStartsFrom.induct with
  | case1 i => rfl
  | case2 i => rfl
  | case3 i notCR => rfl
  | case4 i chr notCR notLF =>
    rw [createLineStartsFrom, if_neg notCR, if_neg notLF, addChar_eq notCR notLF]
    simp [lineStartsFrom, countBreaks, lineBreaks, notCR, notLF, isBasicASCII]
  | case5 i rest ih =>
    rw [createLineStartsFrom, ih]
    simp only [if_true, LineStarts.addCRLF, lineStartsFrom, countBreaks, lineBreaks,
      isBasicASCII, all_cons]
    rw [count_cons, count_cons, count_cons]
    rfl
  | case6 i following rest notLF ih =>
    rw [createLineStartsFrom, ih]
    simp only [if_true, if_neg notLF, LineStarts.addCR, lineStartsFrom, countBreaks, lineBreaks,
      isBasicASCII, all_cons]
    rw [count_cons, count_cons, count_cons]
    rfl
  | case7 i following rest notCR ih =>
    rw [createLineStartsFrom, ih]
    simp only [if_true, if_neg notCR, LineStarts.addLF, lineStartsFrom, countBreaks, lineBreaks,
      isBasicASCII, all_cons]
    rw [count_cons, count_cons, count_cons]
    rfl
  | case8 i chr following rest notCR notLF ih =>
    rw [createLineStartsFrom, if_neg notCR, if_neg notLF, ih, addChar_eq notCR notLF]
    simp [lineStartsFrom, countBreaks, lineBreaks, notCR, notLF, isBasicASCII]

theorem createLineStarts_eq (text : Text) :
    createLineStarts text = ⟨createLineStartsFast text, countBreaks [CR] text,
      countBreaks [LF] text, countBreaks [CR, LF] text, isBasicASCII text⟩ := by
  rw [createLineStarts, createLineStartsFrom_eq]
  rfl

/-! ## The chunks of a builder -/

/-- The text of chunks. -/
def chunkText (chunks : List StringBuffer) : Text := chunks.flatMap (·.buffer)

theorem chunkText_append (first second : List StringBuffer) :
    chunkText (first ++ second) = chunkText first ++ chunkText second :=
  flatMap_append

namespace PieceTreeTextBufferBuilder

/-- What holds of a builder behind every chunk. -/
structure Ok (b : PieceTreeTextBufferBuilder) : Prop where
  lineStarts : ∀ chunk ∈ b.chunks, chunk.lineStarts = createLineStartsFast chunk.buffer
  nonempty : ∀ chunk ∈ b.chunks, chunk.buffer ≠ []
  whole : Whole (b.chunks.map (·.buffer))
  /-- A `\r` at the end is followed by the character that was kept back. -/
  ends : endsWithCR (chunkText b.chunks) = true → b.hasPreviousChar = true
  kept : b.hasPreviousChar = true → keptBack b.previousChar = true
  cr : b.cr = countBreaks [CR] (chunkText b.chunks)
  lf : b.lf = countBreaks [LF] (chunkText b.chunks)
  crlf : b.crlf = countBreaks [CR, LF] (chunkText b.chunks)
  basic : b.isBasicASCII = TextBuffer.isBasicASCII (chunkText b.chunks)

theorem ok_new : new.Ok where
  lineStarts := by simp [new]
  nonempty := by simp [new]
  whole := trivial
  ends := by simp [new, chunkText, endsWithCR]
  kept := by simp [new]
  cr := rfl
  lf := rfl
  crlf := rfl
  basic := rfl

/-- The character that was kept back. -/
def held (b : PieceTreeTextBufferBuilder) : Text :=
  if b.hasPreviousChar then [b.previousChar] else []

theorem acceptChunk2_fields (b : PieceTreeTextBufferBuilder) (chunk : Text) :
    (b.acceptChunk2 chunk).chunks = b.chunks ++ [⟨chunk, createLineStartsFast chunk⟩] ∧
      (b.acceptChunk2 chunk).cr = b.cr + countBreaks [CR] chunk ∧
      (b.acceptChunk2 chunk).lf = b.lf + countBreaks [LF] chunk ∧
      (b.acceptChunk2 chunk).crlf = b.crlf + countBreaks [CR, LF] chunk ∧
      (b.acceptChunk2 chunk).isBasicASCII = (b.isBasicASCII && TextBuffer.isBasicASCII chunk) ∧
      (b.acceptChunk2 chunk).BOM = b.BOM ∧
      (b.acceptChunk2 chunk).hasPreviousChar = b.hasPreviousChar ∧
      (b.acceptChunk2 chunk).previousChar = b.previousChar := by
  rw [acceptChunk2, createLineStarts_eq]
  cases basic : TextBuffer.isBasicASCII chunk with
  | true => simp
  | false => simp

variable {b : PieceTreeTextBufferBuilder}

/-- The joint of what is there and a chunk with the character that was kept back. -/
theorem Ok.joint (ok : b.Ok) (chunk : Text) :
    splitsCRLF (chunkText b.chunks) (b.held ++ chunk) = false := by
  rw [splitsCRLF, held]
  cases has : b.hasPreviousChar with
  | true =>
    have kept := ok.kept has
    have notLF : b.previousChar ≠ LF := by
      intro isLF
      rw [isLF] at kept
      revert kept
      decide
    simp [startsWithLF, notLF]
  | false =>
    have noCR : endsWithCR (chunkText b.chunks) = false := by
      rw [Bool.eq_false_iff]
      intro ends
      rw [ok.ends ends] at has
      cases has
    simp [noCR]

/-- A chunk is pushed, with the character that was kept back in front of it. -/
theorem Ok.push (ok : b.Ok) {chunk : Text} (nonempty : b.held ++ chunk ≠ []) {has : Bool}
    {previous : CodeUnit} (ends : endsWithCR (b.held ++ chunk) = true → has = true)
    (kept : has = true → keptBack previous = true) : Ok { b.acceptChunk2 (b.held ++ chunk) with
      hasPreviousChar := has, previousChar := previous } := by
  obtain ⟨chunks, cr, lf, crlf, basic, -⟩ := b.acceptChunk2_fields (b.held ++ chunk)
  have joint := ok.joint chunk
  have text : chunkText (b.acceptChunk2 (b.held ++ chunk)).chunks =
      chunkText b.chunks ++ (b.held ++ chunk) := by
    rw [chunks, chunkText_append]
    simp [chunkText]
  constructor
  · intro other member
    simp only [chunks, mem_append, mem_singleton] at member
    rcases member with old | rfl
    · exact ok.lineStarts other old
    · rfl
  · intro other member
    simp only [chunks, mem_append, mem_singleton] at member
    rcases member with old | rfl
    · exact ok.nonempty other old
    · exact nonempty
  · simp only [chunks, map_append, map_singleton]
    rw [whole_append]
    refine ⟨ok.whole, by simp, ?_⟩
    rw [flatten_singleton, ← flatMap_def]
    exact joint
  · intro endsWith
    simp only [text] at endsWith
    rw [endsWithCR_append_of_ne_nil _ nonempty] at endsWith
    exact ends endsWith
  · exact kept
  · simp only [cr, text, countBreaks_append joint, ok.cr]
  · simp only [lf, text, countBreaks_append joint, ok.lf]
  · simp only [crlf, text, countBreaks_append joint, ok.crlf]
  · simp only [basic, text, isBasicASCII_append, ok.basic]

/-- A chunk of which something is left when its last character is kept back. -/
def Pushes (chunk : Text) : Prop :=
  chunk ≠ [] ∧ ¬(chunk.length = 1 ∧ keptBack (chunk.getLastD 0) = true)

/-- What `acceptRest` does with the parts of a chunk that is pushed. -/
theorem acceptRest_eq {chunk : Text} (pushes : Pushes chunk) :
    ∃ rest, chunk = rest ++ (b.acceptRest chunk).held ∧ rest ≠ [] ∧
      b.acceptRest chunk = { b.acceptChunk2 (b.held ++ rest) with
        hasPreviousChar := keptBack (chunk.getLastD 0), previousChar := chunk.getLastD 0 } := by
  have pushed : ∀ rest : Text, rest ≠ [] →
      b.acceptChunk1 rest false = b.acceptChunk2 (b.held ++ rest) := by
    intro rest nonempty
    have some : ¬(rest.length = 0) := by simpa using nonempty
    rw [acceptChunk1, held]
    cases b.hasPreviousChar with
    | true => simp [some]
    | false => simp [some]
  obtain ⟨nonempty, more⟩ := pushes
  rw [acceptRest]
  cases kept : keptBack (chunk.getLastD 0) with
  | true =>
    have split : chunk.dropLast ++ [chunk.getLastD 0] = chunk := by
      rw [getLastD_eq_getLast?, getLast?_eq_some_getLast nonempty, Option.getD_some]
      exact dropLast_append_getLast nonempty
    have rest : chunk.dropLast ≠ [] := by
      intro none
      rw [none] at split
      apply more
      rw [← split]
      exact ⟨rfl, by rw [split, kept]⟩
    refine ⟨chunk.dropLast, ?_, rest, ?_⟩
    · simp only [if_true, held]
      exact split.symm
    · simp only [if_true, pushed _ rest]
  | false =>
    refine ⟨chunk, ?_, nonempty, ?_⟩
    · simp [held]
    · simp only [Bool.false_eq_true, if_false, pushed _ nonempty]

/-- Of other chunks only the last character is kept back. -/
theorem acceptRest_of_not_pushes (skips : ¬Pushes chunk) : b.acceptRest chunk = { b with
      hasPreviousChar := keptBack (chunk.getLastD 0), previousChar := chunk.getLastD 0 } := by
  have nothing : b.acceptChunk1 [] false = b := rfl
  rw [acceptRest]
  match chunk with
  | [] =>
    have notKept : keptBack (([] : Text).getLastD 0) = false := rfl
    simp only [notKept, Bool.false_eq_true, if_false, nothing]
  | [unit] =>
    have kept : keptBack (([unit] : Text).getLastD 0) = true := by
      by_contra notKept
      exact skips ⟨by simp, fun both => notKept both.2⟩
    simp only [kept, if_true, dropLast_singleton, nothing]
  | first :: second :: rest => exact absurd ⟨by simp, by simp⟩ skips

theorem acceptRest_ok (ok : b.Ok) {chunk : Text} (fits : chunk = [] → b.chunks = []) :
    (b.acceptRest chunk).Ok := by
  by_cases pushes : Pushes chunk
  · obtain ⟨rest, split, nonempty, accepted⟩ := @acceptRest_eq b chunk pushes
    rw [accepted] at split ⊢
    apply ok.push
    · simp [nonempty]
    · intro ends
      by_contra notKept
      simp only [held, notKept, if_false, append_nil] at split
      rw [endsWithCR_append_of_ne_nil _ nonempty, ← split] at ends
      obtain ⟨initial, isChunk⟩ := endsWithCR_iff.mp ends
      rw [isChunk] at notKept
      revert notKept
      simp [keptBack]
    · exact id
  · rw [acceptRest_of_not_pushes pushes]
    refine { ok with ends := ?_, kept := id }
    intro ends
    by_cases empty : chunk = []
    · simp [fits empty, chunkText, endsWithCR] at ends
    · by_contra notKept
      exact pushes ⟨empty, fun both => notKept both.2⟩

theorem acceptChunk_ok (ok : b.Ok) (chunk : Text) : (b.acceptChunk chunk).Ok := by
  rw [acceptChunk]
  split
  · exact ok
  · rename_i some
    split
    · rename_i marked
      rw [Bool.and_eq_true, decide_eq_true_eq, length_eq_zero_iff] at marked
      have own : Ok { b with BOM := [UTF8_BOM] } := { ok with }
      exact acceptRest_ok own fun _ => marked.1
    · apply acceptRest_ok ok
      intro empty
      rw [empty] at some
      exact absurd rfl some

theorem foldl_ok (ok : b.Ok) (chunks : List Text) : (chunks.foldl acceptChunk b).Ok := by
  induction chunks generalizing b with
  | nil => exact ok
  | cons chunk chunks ih => exact ih (acceptChunk_ok ok chunk)

theorem acceptAll_ok (chunks : List Text) : (acceptAll chunks).Ok := foldl_ok ok_new chunks

/-! ## The finished chunks -/

/-- The text that a finished builder stands for: what was kept back comes at the end, and
twice when it is all there is. -/
def finalText (b : PieceTreeTextBufferBuilder) : Text :=
  if b.chunks = [] then b.held ++ b.held else chunkText b.chunks ++ b.held

/-- Chunks that fit for a piece tree, with the right counters. -/
structure Finished (b : PieceTreeTextBufferBuilder) (text : Text) : Prop where
  lineStarts : ∀ chunk ∈ b.chunks, chunk.lineStarts = createLineStartsFast chunk.buffer
  nonempty : (∀ chunk ∈ b.chunks, chunk.buffer ≠ []) ∨ b.chunks = [⟨[], [0]⟩]
  whole : Whole (b.chunks.map (·.buffer))
  text_eq : chunkText b.chunks = text
  cr : b.cr = countBreaks [CR] text
  lf : b.lf = countBreaks [LF] text
  crlf : b.crlf = countBreaks [CR, LF] text

theorem countBreaks_singleton {unit : CodeUnit} (notLF : unit ≠ LF) (lineBreak : Text) :
    countBreaks lineBreak [unit] = if unit = CR ∧ lineBreak = [CR] then 1 else 0 := by
  by_cases isCR : unit = CR
  · subst isCR
    by_cases same : lineBreak = [CR]
    · subst same
      rfl
    · have other : lineBreak ≠ [CR] := same
      simp [countBreaks, lineBreaks, other, Ne.symm other]
  · simp [countBreaks, lineBreaks, isCR, notLF]

/-- The last chunk is made longer by the character that was kept back. -/
theorem finished_recreate (ok : b.Ok) (some : b.chunks ≠ []) (has : b.hasPreviousChar = true) :
    Finished b.putBack (chunkText b.chunks ++ [b.previousChar]) := by
  rw [putBack, if_pos has]
  have kept := ok.kept has
  have joint : splitsCRLF (chunkText b.chunks) [b.previousChar] = false := by
    have joint := ok.joint []
    rwa [held, has, if_pos rfl, append_nil] at joint
  have notLF : b.previousChar ≠ LF := by
    intro isLF
    rw [isLF] at kept
    revert kept
    decide
  have grown : ∀ lineBreak, countBreaks lineBreak (chunkText b.chunks ++ [b.previousChar]) =
      countBreaks lineBreak (chunkText b.chunks) +
        if b.previousChar = CR ∧ lineBreak = [CR] then 1 else 0 := by
    intro lineBreak
    rw [countBreaks_append joint, countBreaks_singleton notLF]
  have lineStarts := ok.lineStarts
  have nonempty := ok.nonempty
  have whole := ok.whole
  have cr := ok.cr
  have lf := ok.lf
  have crlf := ok.crlf
  cases chunks : b.chunks using List.reverseRecOn with
  | nil => contradiction
  | append_singleton init last =>
    rw [chunks] at lineStarts nonempty whole cr lf crlf grown
    have recreated := modify_concat init last fun lastChunk =>
      (⟨lastChunk.buffer ++ [b.previousChar],
        createLineStartsFast (lastChunk.buffer ++ [b.previousChar])⟩ : StringBuffer)
    have text : chunkText (recreateLastChunk (init ++ [last]) b.previousChar) =
        chunkText (init ++ [last]) ++ [b.previousChar] := by
      rw [recreateLastChunk, recreated, chunkText_append, chunkText_append]
      simp [chunkText]
    constructor
    · intro chunk member
      simp only [recreateLastChunk, recreated, mem_append, mem_singleton] at member
      rcases member with old | rfl
      · exact lineStarts chunk (mem_append_left _ old)
      · rfl
    · left
      intro chunk member
      simp only [recreateLastChunk, recreated, mem_append, mem_singleton] at member
      rcases member with old | rfl
      · exact nonempty chunk (mem_append_left _ old)
      · simp
    · simp only [recreateLastChunk, recreated]
      rw [map_append, whole_append] at whole ⊢
      refine ⟨whole.1, by simp, ?_⟩
      simp only [map_singleton, flatten_singleton] at whole ⊢
      have some := nonempty last (by simp)
      rw [splitsCRLF_append_right _ _ some]
      exact whole.2.2
    · exact text
    · rw [grown, cr]
      simp only [and_true]
      split <;> rfl
    · rw [grown, lf]
      simp
    · rw [grown, crlf]
      simp

theorem putBack_spec (ok : b.Ok) (some : b.chunks ≠ []) :
    Finished b.putBack (chunkText b.chunks ++ b.held) ∧ b.putBack.BOM = b.BOM ∧
      b.putBack.isBasicASCII = b.isBasicASCII := by
  cases has : b.hasPreviousChar with
  | true =>
    have finished := finished_recreate ok some has
    rw [held, if_pos has]
    refine ⟨finished, ?_, ?_⟩
    · rw [putBack, if_pos has]
    · rw [putBack, if_pos has]
  | false =>
    have same : b.putBack = b := by
      rw [putBack, has]
      rfl
    have nothing : b.held = [] := by
      rw [held, has]
      rfl
    rw [same, nothing, append_nil]
    exact ⟨⟨ok.lineStarts, .inl ok.nonempty, ok.whole, rfl, ok.cr, ok.lf, ok.crlf⟩, rfl, rfl⟩

/-- Nothing was pushed, and the character that was kept back is all there is. -/
theorem ok_acceptChunk2_held (ok : b.Ok) (has : b.hasPreviousChar = true) :
    (b.acceptChunk2 b.held).Ok := by
  have pushed := @Ok.push b ok [] (by simp [held, has]) b.hasPreviousChar b.previousChar
    (fun _ => has) ok.kept
  rw [append_nil] at pushed
  obtain ⟨-, -, -, -, -, -, sameHas, samePrevious⟩ := b.acceptChunk2_fields b.held
  rw [← sameHas, ← samePrevious] at pushed
  exact pushed

/-- What `_finish` makes of a builder; the flag is that of the chunks before the last
character was put back. -/
theorem finishChunks_spec (ok : b.Ok) :
    Finished b.finishChunks b.finalText ∧ b.finishChunks.BOM = b.BOM ∧ b.finishChunks.isBasicASCII =
        TextBuffer.isBasicASCII (if b.chunks = [] then b.held else chunkText b.chunks) := by
  rw [finishChunks, finalText]
  by_cases empty : b.chunks = []
  · have none : b.chunks.length = 0 := by rw [empty, length_nil]
    have accepted : b.acceptChunk1 [] true = b.acceptChunk2 b.held := by
      rw [acceptChunk1, held]
      cases b.hasPreviousChar <;> rfl
    obtain ⟨chunks, cr, lf, crlf, basic, sameBOM, sameHas, samePrevious⟩ :=
      b.acceptChunk2_fields b.held
    have sameHeld : (b.acceptChunk2 b.held).held = b.held := by
      rw [held, sameHas, samePrevious]
      rfl
    have text : chunkText (b.acceptChunk2 b.held).chunks = b.held := by
      rw [chunks, empty]
      simp [chunkText]
    have isBasic : (b.acceptChunk2 b.held).isBasicASCII = TextBuffer.isBasicASCII b.held := by
      rw [basic, ok.basic, empty]
      rfl
    rw [if_pos none, if_pos empty, if_pos empty, accepted]
    cases has : b.hasPreviousChar with
    | true =>
      obtain ⟨finished, sameBOM', sameBasic⟩ := putBack_spec (ok_acceptChunk2_held ok has)
        (by simp [chunks])
      rw [text, sameHeld] at finished
      exact ⟨finished, by rw [sameBOM', sameBOM], by rw [sameBasic, isBasic]⟩
    | false =>
      have nothing : b.held = [] := by
        rw [held, has]
        rfl
      have same : (b.acceptChunk2 b.held).putBack = b.acceptChunk2 b.held := by
        rw [putBack, sameHas, has]
        rfl
      have isEmpty : (b.acceptChunk2 b.held).chunks = [⟨[], [0]⟩] := by
        rw [chunks, empty, nothing]
        rfl
      rw [nothing] at cr lf crlf
      rw [same]
      refine ⟨⟨?_, .inr isEmpty, ?_, ?_, ?_, ?_, ?_⟩, sameBOM, isBasic⟩
      · rw [isEmpty]
        intro chunk member
        rw [mem_singleton] at member
        rw [member]
        rfl
      · rw [isEmpty]
        simp
      · rw [text, nothing]
        rfl
      · rw [nothing, cr, ok.cr, empty]
        rfl
      · rw [nothing, lf, ok.lf, empty]
        rfl
      · rw [nothing, crlf, ok.crlf, empty]
        rfl
  · have some : ¬(b.chunks.length = 0) := by simpa using empty
    rw [if_neg some, if_neg empty, if_neg empty, ← ok.basic]
    exact putBack_spec ok empty

end PieceTreeTextBufferBuilder

/-! ## The buffer of the chunks -/

open PieceTreeTextBufferBuilder

/-- `\r` and `\n` are counted, so that all line breaks are known. -/
theorem allBreaksAre_of_counts {eol : EOL} {text : Text}
    (counts : ¬(eol = .crlf ∧ (countBreaks [CR] text > 0 ∨ countBreaks [LF] text > 0) ∨
      eol = .lf ∧ (countBreaks [CR] text > 0 ∨ countBreaks [CR, LF] text > 0))) :
    AllBreaksAre eol text := by
  intro lineBreak member
  have present := count_pos_iff.mpr member
  cases eol with
  | lf =>
    rcases mem_lineBreaks member with rfl | rfl | rfl
    · exact absurd (.inr ⟨rfl, .inl present⟩) counts
    · rfl
    · exact absurd (.inr ⟨rfl, .inr present⟩) counts
  | crlf =>
    rcases mem_lineBreaks member with rfl | rfl | rfl
    · exact absurd (.inl ⟨rfl, .inl present⟩) counts
    · exact absurd (.inl ⟨rfl, .inr present⟩) counts
    · rfl

/-- The chunks with their line breaks replaced. -/
theorem initialChunks_replace {chunks : List StringBuffer} (eol : EOL) (eolNormalized : Bool)
    (nonempty : ∀ chunk ∈ chunks, chunk.buffer ≠ [])
    (whole : Whole (chunks.map (·.buffer))) :
    InitialChunks (chunks.map fun chunk => ⟨replaceEOL eol.text chunk.buffer,
      createLineStartsFast (replaceEOL eol.text chunk.buffer)⟩) eol eolNormalized ∧
    (chunks.map fun chunk => (⟨replaceEOL eol.text chunk.buffer,
      createLineStartsFast (replaceEOL eol.text chunk.buffer)⟩ : StringBuffer)).flatMap
        (·.buffer) = replaceEOL eol.text (chunkText chunks) := by
  have text : (chunks.map fun chunk => (⟨replaceEOL eol.text chunk.buffer,
      createLineStartsFast (replaceEOL eol.text chunk.buffer)⟩ : StringBuffer)).flatMap
        (·.buffer) = replaceEOL eol.text (chunkText chunks) := by
    rw [chunkText, flatMap_def, flatMap_def, replaceEOL_flatten _ whole, map_map, map_map]
    rfl
  refine ⟨⟨?_, ?_, ?_, ?_⟩, text⟩
  · intro chunk member
    obtain ⟨old, -, rfl⟩ := mem_map.mp member
    rfl
  · intro chunk member
    obtain ⟨old, isOld, rfl⟩ := mem_map.mp member
    exact replaceEOL_ne_nil eol (nonempty old isOld)
  · apply whole_of_not_endsWithCR
    intro part member
    rw [map_map] at member
    obtain ⟨old, -, rfl⟩ := mem_map.mp member
    exact endsWithCR_replaceEOL eol old.buffer
  · intro _
    rw [text]
    exact allBreaksAre_replaceEOL eol _

/-- The factory makes a buffer of the text, with one kind of line breaks if it is asked to
normalize them. -/
theorem create_finished {text : Text} (finished : Finished b text) (f : PieceTreeTextBufferFactory)
    (chunks : f.chunks = b.chunks) (counters : f.cr = b.cr ∧ f.lf = b.lf ∧ f.crlf = b.crlf)
    (defaultEOL : EOL) :
    ∃ buffer, f.create defaultEOL = some buffer ∧ Represents buffer.pieceTree
        (if f.normalizeEOL then replaceEOL (f.getEOL defaultEOL).text text else text) ∧
      buffer.pieceTree.eol = f.getEOL defaultEOL ∧ buffer.BOM = f.bom ∧
      buffer.mightContainNonBasicASCII = !f.isBasicASCII := by
  obtain ⟨sameCR, sameLF, sameCRLF⟩ := counters
  generalize isEOL : f.getEOL defaultEOL = eol
  have made : ∃ tree, PieceTreeBase.create 0 (f.createChunks eol) eol f.normalizeEOL = some tree ∧
      Represents tree (if f.normalizeEOL then replaceEOL eol.text text else text) ∧
      tree.eol = eol := by
    rw [PieceTreeTextBufferFactory.createChunks, chunks, sameCR, sameLF, sameCRLF, finished.cr,
      finished.lf, finished.crlf]
    rcases finished.nonempty with nonempty | empty
    · split
      · rename_i replaces
        obtain ⟨initial, isText⟩ := initialChunks_replace eol f.normalizeEOL nonempty finished.whole
        rw [if_pos replaces.1, ← finished.text_eq, ← isText]
        exact create_represents 0 initial
      · rename_i keeps
        have allBreaks : f.normalizeEOL = true → AllBreaksAre eol text := by
          intro normalizes
          apply allBreaksAre_of_counts
          intro counts
          exact keeps ⟨normalizes, counts⟩
        have initial : InitialChunks b.chunks eol f.normalizeEOL := by
          refine ⟨finished.lineStarts, nonempty, finished.whole, ?_⟩
          intro normalizes
          have same : b.chunks.flatMap (·.buffer) = text := finished.text_eq
          rw [same]
          exact allBreaks normalizes
        obtain ⟨tree, created, represents, sameEOL⟩ := create_represents 0 initial
        refine ⟨tree, created, ?_, sameEOL⟩
        have same : b.chunks.flatMap (·.buffer) = text := finished.text_eq
        rw [same] at represents
        split
        · rename_i normalizes
          rw [replaceEOL_eq_self (allBreaks normalizes)]
          exact represents
        · exact represents
    · have noText : text = [] := by
        rw [← finished.text_eq, empty]
        rfl
      have noBreaks : ∀ lineBreak, countBreaks lineBreak [] = 0 := fun _ => rfl
      subst noText
      simp only [noBreaks, gt_iff_lt, Nat.lt_irrefl, or_self, and_false, if_false, empty]
      have initial : InitialChunks [] eol f.normalizeEOL := by
        refine ⟨by simp, by simp, by simp, ?_⟩
        intro _ lineBreak member
        cases member
      obtain ⟨tree, created, represents, sameEOL⟩ := create_represents 0 initial
      refine ⟨tree, created, ?_, sameEOL⟩
      have same : replaceEOL eol.text [] = [] := rfl
      rw [same, ite_self]
      exact represents
  obtain ⟨tree, created, represents, sameEOL⟩ := made
  refine ⟨⟨tree, f.bom, f.containsRTL, f.containsUnusualLineTerminators, !f.isBasicASCII⟩, ?_,
    represents, sameEOL, rfl, rfl⟩
  rw [PieceTreeTextBufferFactory.create]
  simp only [isEOL]
  rw [PieceTreeTextBuffer.new, created]
  rfl

/-- What the builder makes of a sequence of chunks. -/
theorem create_spec (chunks : List Text) (normalizeEOL : Bool) (defaultEOL : EOL) :
    ∃ buffer, ((acceptAll chunks).finish normalizeEOL).create defaultEOL = some buffer ∧
      Represents buffer.pieceTree (if normalizeEOL then
        replaceEOL (((acceptAll chunks).finish normalizeEOL).getEOL defaultEOL).text
          (acceptAll chunks).finalText
        else (acceptAll chunks).finalText) ∧
      buffer.BOM = (acceptAll chunks).BOM ∧
      buffer.mightContainNonBasicASCII = !TextBuffer.isBasicASCII
        (if (acceptAll chunks).chunks = [] then (acceptAll chunks).held
          else chunkText (acceptAll chunks).chunks) := by
  obtain ⟨finished, bom, basic⟩ := finishChunks_spec (acceptAll_ok chunks)
  obtain ⟨buffer, created, represents, -, sameBOM, flag⟩ := create_finished finished
    ((acceptAll chunks).finish normalizeEOL) rfl ⟨rfl, rfl, rfl⟩ defaultEOL
  refine ⟨buffer, created, represents, ?_, ?_⟩
  · rw [sameBOM]
    exact bom
  · rw [flag, ← basic]
    rfl

end CodeEditor.TextBuffer

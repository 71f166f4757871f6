import OutOfLine.Proofs.RecognisedComments

/-!
# The places of code tokens

Code tokens are read in two ways: by a stream, which passes over comments from line to line, and line by
line with byte offsets. Both give the same tokens on the same lines, except that a stream also yields the
ends of comments that were not opened. The text of each token stands in the document at its offset.
-/

namespace OutOfLine

/-- The located code tokens of consecutive lines, each with its line. -/
def locatedOnLines (inComment : Bool) : List Line → List (Line × Located)
  | [] => []
  | line :: rest =>
    let code := line.located inComment
    code.1.map (fun located => (line, located)) ++ locatedOnLines code.2 rest

theorem map_snd_locatedOnLines (inComment : Bool) (lines : List Line) :
    (locatedOnLines inComment lines).map Prod.snd = locateLines inComment lines := by
  induction lines generalizing inComment with
  | nil => rfl
  | cons line lines ih =>
    rw [locatedOnLines, locateLines, List.map_append, List.map_map, ih]
    exact congrArg (List.append · _) (List.map_id _)

/-- The tokens located on a line are those that a stream shows, without stray comment ends. -/
theorem map_token_located (inComment : Bool) (line : Line) :
    (line.located inComment).1.map Located.token =
      ((dropComments inComment (line.tokens inComment).1).filter (Stream.shows false)).filter
        fun t => t ≠ .commentClose := by
  have hsolid : (fun t => decide (t ≠ .commentClose) && Stream.shows false t) = Token.isSolid := by
    funext t
    cases t <;> rfl
  have hnewline (inside : Bool) : (dropComments inside [.newline]).filter Token.isSolid = [] := by
    cases inside <;> rfl
  rw [List.filter_filter, hsolid, Line.located, map_token_locate]
  simp only [Line.tokens]
  split
  · rfl
  · rw [dropComments_append, List.filter_append, hnewline, List.append_nil]

/-- From the lines it has not lexed, a stream without spaces yields the located tokens and stray comment
ends, and it reports the line of each. -/
theorem map_locatedOnLines (s : Stream) (h : s.withSpaces = false) (lines : List Line) :
    (locatedOnLines s.inComment lines).map (fun p => (p.2.token, s.numberOf? p.1)) =
      (s.numberedCode lines).filter fun pair => pair.1 ≠ .commentClose := by
  induction lines generalizing s with
  | nil => rfl
  | cons line lines ih =>
    have hrest := ih { s with inComment := (line.tokens s.inComment).2, current := some line } h
    have hline : ((line.located s.inComment).1.map fun located => (line, located)).map
        (fun p => (p.2.token, s.numberOf? p.1)) =
          ((line.located s.inComment).1.map Located.token).map fun t => (t, s.numberOf? line) := by
      rw [List.map_map, List.map_map]
      rfl
    rw [locatedOnLines, List.map_append, hline, map_token_located, Stream.numberedCode_cons,
      List.filter_append, ← hrest, List.filter_map, h]
    rfl

/-- A located token stands on its line: its text is the part of the content at its offset. -/
theorem exists_of_mem_locatedOnLines {inComment : Bool} {lines : List Line} {p : Line × Located}
    (h : p ∈ locatedOnLines inComment lines) :
    p.1 ∈ lines ∧ ∃ a b, p.1.content = a ++ p.2.token.text ++ b ∧ p.2.offset = p.1.start + a.byteLength := by
  induction lines generalizing inComment with
  | nil => simp [locatedOnLines] at h
  | cons line lines ih =>
    rcases List.mem_append.mp h with h | h
    · obtain ⟨located, hlocated, rfl⟩ := List.mem_map.mp h
      obtain ⟨us, vs, htokens, hoffset, -⟩ := exists_of_mem_locate hlocated
      have hconcat := concat_tokenize inComment line.content
      rw [htokens, Token.concat_append, Token.concat_cons, ← List.append_assoc] at hconcat
      exact ⟨List.mem_cons_self, _, _, hconcat.symm, hoffset⟩
    · obtain ⟨hmem, hplace⟩ := ih h
      exact ⟨List.mem_cons_of_mem _ hmem, hplace⟩

namespace Document

theorem between_of_lineCount_le (doc : Document) (first : Nat) {last : Nat} (h : doc.lineCount ≤ last + 1) :
    doc.between first last = doc.linesFrom first := by
  rw [between, linesFrom, List.take_of_length_le h]

theorem between_last (doc : Document) (i : Nat) : doc.between i (doc.lineCount - 1) = doc.linesFrom i :=
  doc.between_of_lineCount_le i (by omega)

theorem line?_of_mem_linesFrom {doc : Document} {i : Nat} {line : Line} (h : line ∈ doc.linesFrom i) :
    doc.line? (line.number - 1) = some line := by
  obtain ⟨k, hk⟩ := List.getElem?_of_mem (List.mem_of_mem_drop h)
  rw [number_of_getElem?_lines hk]
  exact hk

/-- The two readings of a document from a line on give the same tokens on the same lines, once the stray
comment ends of the stream are left out. Each token stands on its line, and the bytes of the document at its
offset are its text. -/
theorem locatedOnLines_eq_numbered (doc : Document) (i : Nat) :
    (locatedOnLines false (doc.linesFrom i)).map Prod.snd = locateLines false (doc.linesFrom i) ∧
    (locatedOnLines false (doc.linesFrom i)).map (fun p => (p.2.token, some p.1.number)) =
      ((Stream.ofDocument doc i (doc.lineCount - 1)).numbered.filter fun pair => pair.1 ≠ .commentClose) ∧
    ∀ p ∈ locatedOnLines false (doc.linesFrom i),
      p.1 ∈ doc.linesFrom i ∧ doc.line? (p.1.number - 1) = some p.1 ∧
        doc.lineStart (p.1.number - 1) ≤ p.2.offset ∧
        p.2.offset + p.2.token.text.byteLength ≤ doc.lineStop (p.1.number - 1) ∧
        doc.text.slice? p.2.offset (p.2.offset + p.2.token.text.byteLength) = some p.2.token.text := by
  refine ⟨map_snd_locatedOnLines false _, ?_, fun p hp => ?_⟩
  · have hsynced : (Stream.ofDocument doc i (doc.lineCount - 1)).Synced := rfl
    rw [Stream.numbered_eq_numberedRest hsynced, Stream.ofDocument, between_last]
    exact map_locatedOnLines (.ofLines (doc.linesFrom i) true) rfl (doc.linesFrom i)
  · obtain ⟨hmem, a, b, hcontent, hoffset⟩ := exists_of_mem_locatedOnLines hp
    have hline := line?_of_mem_linesFrom hmem
    obtain ⟨front, back, htext, hstart⟩ :=
      Text.content_of_mem_linesAt (show p.1 ∈ Text.linesAt 1 0 doc.text from List.mem_of_mem_drop hmem)
    have hslice := Text.slice?_append (front ++ a) p.2.token.text (b ++ back)
    have hplace : (front ++ a).byteLength = p.2.offset := by
      rw [Text.byteLength_append, hoffset, hstart, Nat.zero_add]
    have hparts : front ++ a ++ p.2.token.text ++ (b ++ back) = doc.text := by
      rw [htext, hcontent]
      simp only [List.append_assoc]
    rw [hparts, hplace] at hslice
    refine ⟨hmem, hline, ?_, ?_, hslice⟩
    · rw [lineStart, hline, hoffset]
      exact Nat.le_add_right _ _
    · rw [lineStop, hline, hoffset]
      simp only [Option.elim_some, Line.stop, hcontent, Text.byteLength_append]
      omega

/-- A stray comment end, letters of two bytes in a comment that goes on to the next line and in a literal, and
both kinds of line ending. -/
def accentedDocument : Document := ⟨"a */ b /* é\r\né */ s = \"ü*/\"; // c\nd".toList⟩

theorem locatedOnLines_accentedDocument :
    ((Stream.ofDocument accentedDocument 0 2).numbered.filter fun pair => pair.1 ≠ .commentClose) =
      [(.word ['a'], some 1), (.word ['b'], some 1), (.word ['s'], some 2), (.delimiter '=', some 2),
        (.literal "\"ü*/\"".toList, some 2), (.delimiter ';', some 2), (.word ['d'], some 3)] ∧
    (⟨2, 14, "é */ s = \"ü*/\"; // c".toList, .lf⟩, ⟨24, .literal "\"ü*/\"".toList⟩) ∈
      locatedOnLines false (accentedDocument.linesFrom 0) ∧
    accentedDocument.text.slice? 24 30 = some "\"ü*/\"".toList := by
  have hmem : (⟨2, 14, "é */ s = \"ü*/\"; // c".toList, .lf⟩, ⟨24, .literal "\"ü*/\"".toList⟩) ∈
      locatedOnLines false (accentedDocument.linesFrom 0) := by decide +kernel
  obtain ⟨-, hstream, hplaces⟩ := locatedOnLines_eq_numbered accentedDocument 0
  have hlast : accentedDocument.lineCount - 1 = 2 := by decide +kernel
  rw [hlast] at hstream
  exact ⟨hstream.symm.trans (by decide +kernel), hmem, (hplaces _ hmem).2.2.2.2⟩

end Document
end OutOfLine

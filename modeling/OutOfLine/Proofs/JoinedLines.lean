import OutOfLine.Statement
import OutOfLine.Proofs.Reader
import OutOfLine.Proofs.Words

/-!
# Declarations read from lines and from joined lines

A declaration can be read from the lines of a document, each lexed on its own, or from the text of some of
those lines joined by newlines. Both readings see the same code tokens as far as the joined text goes, so
they give the same record as soon as the joined text reaches the end of the document or of the
declaration.
-/

namespace OutOfLine

theorem Text.join_singleton (separator a : Text) : join separator [a] = a := by
  simp [join, List.intercalate]

theorem Text.join_cons_of_ne_nil (separator a : Text) {parts : List Text} (h : parts ≠ []) :
    join separator (a :: parts) = a ++ separator ++ join separator parts := by
  cases parts with
  | nil => exact absurd rfl h
  | cons b parts => exact join_cons_cons separator a b parts

/-- The code tokens around a newline are those of the two texts it stands between. -/
theorem dropComments_run_newline (inComment : Bool) (a b : Text) :
    dropComments inComment (tokenize inComment (a ++ '\n' :: b)).1 =
      dropComments inComment ((tokenize inComment a).1 ++ [.newline]) ++
        dropComments (tokenize inComment a).2 (tokenize (tokenize inComment a).2 b).1 := by
  have hinside : insideAfter inComment ((tokenize inComment a).1 ++ [.newline]) =
      (tokenize inComment a).2 := by
    rw [insideAfter_append, insideAfter_tokenize]
    rfl
  have hrun : (tokenize inComment (a ++ '\n' :: b)).1 = (tokenize inComment a).1 ++ [.newline] ++
      (tokenize (tokenize inComment a).2 b).1 := by
    simp [tokenize, Lexer.run_newline]
  rw [hrun, dropComments_append, hinside]

/-- Lines that other lines follow have the code tokens of their contents joined by newlines. The newline
at the end of the last of them comes after those tokens, unless a block comment takes it in. -/
theorem codeOfLines_join (inComment : Bool) {lines : List Line} (last : Line)
    (h : ∀ line ∈ lines, line.ending ≠ .none) :
    ∃ newline, (codeOfLines inComment (lines ++ [last])).map Placed.token =
        dropComments inComment
          (tokenize inComment (Text.join ['\n'] ((lines ++ [last]).map Line.content))).1 ++ newline ∧
      (last.ending = .none → newline = []) := by
  induction lines generalizing inComment with
  | nil =>
    have hplaced (ts : List Token) : (ts.map fun t => Placed.mk t last).map Placed.token = ts := by
      rw [List.map_map]
      exact List.map_id _
    simp only [List.nil_append, codeOfLines, List.append_nil, hplaced, List.map_cons, List.map_nil,
      Text.join_singleton, Line.tokens]
    split
    · exact ⟨[], by simp, fun _ => rfl⟩
    · next hending =>
      rw [dropComments_append]
      exact ⟨_, rfl, fun hnone => absurd hnone hending⟩
  | cons line lines ih =>
    have hending := h line List.mem_cons_self
    obtain ⟨newline, htokens, hnone⟩ :=
      ih (tokenize inComment line.content).2 fun l hl => h l (List.mem_cons_of_mem _ hl)
    refine ⟨newline, ?_, hnone⟩
    rw [List.cons_append, List.map_cons, Text.join_cons_of_ne_nil _ _ (by simp), List.append_assoc,
      List.singleton_append, dropComments_run_newline, List.append_assoc, ← htokens]
    simp only [codeOfLines, Line.tokens, hending, if_false, List.map_append, List.map_map]
    exact congrArg (List.append · _) (List.map_id _)

/-- The last line, and only the last line, has no ending. -/
theorem Text.ending_of_getElem?_linesAt {t : Text} {number start k : Nat} {line : Line}
    (h : (linesAt number start t)[k]? = some line) :
    line.ending = .none ↔ k + 1 = (linesAt number start t).length := by
  induction t using Text.line_induction generalizing number start k with
  | last content hnl =>
    rw [linesAt_last _ _ hnl] at h ⊢
    cases k with
    | zero => simp at h; simp [← h]
    | succ k => simp at h
  | line content ending rest hended ih =>
    rw [linesAt_line _ _ hended] at h ⊢
    cases k with
    | zero =>
      have hrest : linesAt (number + 1) (start + byteLength content + byteLength ending.text) rest ≠ [] := by
        simp [linesAt, Line.index]
      have hline : line.ending = ending := by simp at h; simp [← h]
      simp [hline, hended.ending_ne, hrest]
    | succ k =>
      rw [List.getElem?_cons_succ] at h
      rw [ih h, List.length_cons]
      omega

namespace Statement

/-- A statement is made up of the first lines, at least one of them and at most as many as its bound. -/
theorem exists_gather_eq_take {bound : Nat} {lines : List Line} (hbound : 1 ≤ bound) (hne : lines ≠ [])
    (inComment : Bool) (depth : Int) (first : Bool) :
    ∃ k, 1 ≤ k ∧ k ≤ bound ∧ k ≤ lines.length ∧
      gather inComment depth first bound lines = (lines.take k).map Line.content := by
  induction bound generalizing inComment depth first lines with
  | zero => omega
  | succ bound ih =>
    cases lines with
    | nil => exact absurd rfl hne
    | cons line rest =>
      rw [gather]
      split
      · exact ⟨1, by omega, by omega, by simp, by simp⟩
      · by_cases hmore : 1 ≤ bound ∧ rest ≠ []
        · obtain ⟨k, -, hk, hlen, hgather⟩ := ih hmore.1 hmore.2 (line.located inComment).2
            (depth + opening (line.located inComment).1) false
          refine ⟨k + 1, by omega, by omega, by simpa using hlen, ?_⟩
          rw [hgather, List.take_succ_cons, List.map_cons]
        · have hnil : gather (line.located inComment).2 (depth + opening (line.located inComment).1) false
              bound rest = [] := by
            rw [not_and_or, not_le, Nat.lt_one_iff, not_not] at hmore
            rcases hmore with rfl | rfl
            · rw [gather]
            · cases bound <;> rw [gather]
          exact ⟨1, by omega, by omega, by simp, by simp [hnil]⟩

end Statement

namespace Document

/-- The contents of so many lines from an index on, joined by newlines. -/
def joinedLines (doc : Document) (i count : Nat) : Text :=
  Text.join ['\n'] (((doc.linesFrom i).take count).map Line.content)

/-- The code tokens of a line and the lines after it start with those of the joined lines, and are no
others when these reach the end. -/
theorem exists_code_joinedLines (doc : Document) {i count : Nat} (hcount : 1 ≤ count)
    (hend : i + count ≤ doc.lineCount) :
    ∃ rest, (codeOfLines false (doc.linesFrom i)).map Placed.token = (doc.joinedLines i count).code ++ rest ∧
      (i + count = doc.lineCount → rest = []) := by
  obtain ⟨n, rfl⟩ : ∃ n, count = n + 1 := ⟨count - 1, by omega⟩
  have hlen : (doc.linesFrom i).length = doc.lineCount - i := List.length_drop
  have hlt : n < (doc.linesFrom i).length := by omega
  have hending {k : Nat} {line : Line} (hk : (doc.linesFrom i)[k]? = some line) :
      line.ending = .none ↔ i + k + 1 = doc.lineCount := by
    rw [linesFrom, List.getElem?_drop] at hk
    exact Text.ending_of_getElem?_linesAt (hk : (Text.linesAt 1 0 doc.text)[i + k]? = some line)
  have hlines : ∀ line ∈ (doc.linesFrom i).take n, line.ending ≠ .none := by
    intro line hline
    obtain ⟨k, hk⟩ := List.getElem?_of_mem hline
    rw [List.getElem?_take] at hk
    split at hk
    · rw [ne_eq, hending hk]
      omega
    · simp at hk
  obtain ⟨newline, htokens, hnone⟩ := codeOfLines_join false (doc.linesFrom i)[n] hlines
  obtain ⟨inside, hcode⟩ :=
    exists_codeOfLines_append false ((doc.linesFrom i).take (n + 1)) ((doc.linesFrom i).drop (n + 1))
  rw [List.take_append_drop] at hcode
  have htake : (doc.linesFrom i).take (n + 1) = (doc.linesFrom i).take n ++ [(doc.linesFrom i)[n]] :=
    List.take_succ_eq_append_getElem hlt
  refine ⟨newline ++ (codeOfLines inside ((doc.linesFrom i).drop (n + 1))).map Placed.token, ?_, ?_⟩
  · rw [hcode, List.map_append, joinedLines, htake, htokens, List.append_assoc]
    rfl
  · intro hlast
    have hdrop : (doc.linesFrom i).drop (n + 1) = [] := List.drop_eq_nil_of_le (by omega)
    have hget := (hending (List.getElem?_eq_getElem hlt)).mpr hlast
    simp [hnone hget, hdrop, codeOfLines]

/-- A declaration read from the joined lines is the one read from the document, once the reader is done
with them or they reach the last line. The statement at a line is such a text. -/
theorem parse_joinedLines (doc : Document) {i : Nat} (hi : i < doc.lineCount) :
    (∀ count, 1 ≤ count → i + count ≤ doc.lineCount →
      (Draft.readAll (doc.joinedLines i count).code).stage = .done ∨ i + count = doc.lineCount →
        Declaration.parse (doc.joinedLines i count) = .parseAt doc i) ∧
      ∀ bound, 1 ≤ bound → ∃ count, 1 ≤ count ∧ count ≤ bound ∧ i + count ≤ doc.lineCount ∧
        doc.statementAt i bound = doc.joinedLines i count := by
  have hlen : (doc.linesFrom i).length = doc.lineCount - i := List.length_drop
  constructor
  · intro count hcount hend h
    obtain ⟨rest, htokens, hrest⟩ := doc.exists_code_joinedLines hcount hend
    rw [Declaration.parseAt, htokens, Declaration.parse, Declaration.ofTokens, Declaration.ofTokens,
      List.foldl_append]
    rcases h with hdone | hlast
    · exact congrArg Draft.finish (Draft.foldl_feed_done hdone rest).symm
    · rw [hrest hlast, List.foldl_nil]
  · intro bound hbound
    have hne : doc.linesFrom i ≠ [] := by
      rw [← List.length_pos_iff]
      omega
    obtain ⟨count, hcount, hle, hlines, hgather⟩ :=
      Statement.exists_gather_eq_take hbound hne false 0 true
    exact ⟨count, hcount, hle, by omega, congrArg (Text.join ['\n']) hgather⟩

/-- A declaration over three lines with both kinds of ending, a comment from one line to the next and a
quote in a literal. -/
def splitDocument : Document :=
  ⟨"int f( // first\r\n  char c = '\"') /* x;\n y */ const;\r\nint g();".toList⟩

theorem parse_joinedLines_splitDocument :
    (Draft.readAll (splitDocument.joinedLines 0 3).code).stage = .done ∧
      splitDocument.statementAt 0 32 = splitDocument.joinedLines 0 3 ∧
      Declaration.parse (splitDocument.joinedLines 0 3) = .parseAt splitDocument 0 ∧
      (Declaration.parseAt splitDocument 0).parameters = " \n  char c = '\"'".toList ∧
      ∃ count, 1 ≤ count ∧ count ≤ 2 ∧ 0 + count ≤ splitDocument.lineCount ∧
        splitDocument.statementAt 0 2 = splitDocument.joinedLines 0 count := by
  have hdone : (Draft.readAll (splitDocument.joinedLines 0 3).code).stage = .done := by decide +kernel
  have hagree := parse_joinedLines splitDocument (i := 0) (by decide +kernel)
  exact ⟨hdone, by decide +kernel, hagree.1 3 (by decide) (by decide +kernel) (.inl hdone),
    by decide +kernel, hagree.2 2 (by decide)⟩

end Document
end OutOfLine

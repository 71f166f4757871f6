import OutOfLine.Proofs.Lines

/-!
# Lines and columns

A byte offset of a document is a line and a column. Every offset of the content of a line is at that line,
and so is the one just past it, since the next line starts behind the ending.
-/

namespace OutOfLine

theorem Text.exists_linesAt_eq_cons (number start : Nat) (t : Text) :
    ∃ line rest, linesAt number start t = line :: rest ∧ line.start = start :=
  ⟨_, _, rfl, rfl⟩

theorem LineEnd.byteLength_text_pos {ending : LineEnd} (h : ending ≠ .none) : 0 < ending.text.byteLength := by
  cases ending with
  | none => exact absurd rfl h
  | lf => decide
  | crlf => decide

/-- The lines that start at or before an offset of a line, or its end, are the lines through that one. -/
theorem Text.length_takeWhile_linesAt {t : Text} {number start k offset : Nat} {line : Line}
    (h : (linesAt number start t)[k]? = some line) (hstart : line.start ≤ offset) (hstop : offset ≤ line.stop) :
    ((linesAt number start t).takeWhile fun l => l.start ≤ offset).length = k + 1 := by
  induction t using Text.line_induction generalizing number start k with
  | last content hnl =>
    rw [linesAt_last _ _ hnl] at h ⊢
    cases k with
    | zero =>
      obtain rfl : _ = line := by simpa using h
      rw [List.takeWhile_cons_of_pos (by simpa using hstart)]
      rfl
    | succ k => simp at h
  | line content ending rest hended ih =>
    obtain ⟨front, -, -, hfront⟩ := content_of_mem_linesAt (List.mem_of_getElem? h)
    rw [linesAt_line _ _ hended] at h ⊢
    rw [List.takeWhile_cons_of_pos (by simp; omega), List.length_cons]
    cases k with
    | zero =>
      obtain rfl : _ = line := by simpa using h
      obtain ⟨next, later, hlater, hnext⟩ :=
        exists_linesAt_eq_cons (number + 1) (start + byteLength content + byteLength ending.text) rest
      have hpos := LineEnd.byteLength_text_pos hended.ending_ne
      simp only [Line.stop] at hstop
      rw [hlater, List.takeWhile_cons_of_neg (by simp; omega)]
      rfl
    | succ k => rw [ih (by simpa using h)]

namespace Document

/-- The line of an offset and its column, both counted from 0. -/
def position (doc : Document) (offset : Nat) : Nat × Nat :=
  (doc.lineAt offset, offset - doc.lineStart (doc.lineAt offset))

variable {doc : Document}

theorem position_of_line? {k : Nat} {line : Line} (h : doc.line? k = some line) {column : Nat}
    (hcolumn : column ≤ line.content.byteLength) : doc.position (line.start + column) = (k, column) := by
  have hlength := Text.length_takeWhile_linesAt (h : (Text.linesAt 1 0 doc.text)[k]? = some line)
    (Nat.le_add_right line.start column) (Nat.add_le_add_left hcolumn _)
  have hline : doc.lineAt (line.start + column) = k := by
    rw [lineAt, lines_eq, hlength, Nat.add_sub_cancel]
  rw [position, hline, lineStart, h, Option.elim_some, Nat.add_sub_cancel_left]

theorem lineStart_lineAt_le (offset : Nat) : doc.lineStart (doc.lineAt offset) ≤ offset := by
  obtain ⟨rest, hrest⟩ := List.takeWhile_prefix (p := fun line : Line => line.start ≤ offset) (l := doc.lines)
  rcases List.eq_nil_or_concat (doc.lines.takeWhile fun line => line.start ≤ offset) with hnil | ⟨init, line, hline⟩
  · obtain ⟨first, later, hlines, hstart⟩ := Text.exists_linesAt_eq_cons 1 0 doc.text
    rw [lines_eq, hlines, List.takeWhile_cons_of_pos (by simp [hstart])] at hnil
    simp at hnil
  · have hmem : line ∈ doc.lines.takeWhile fun line => line.start ≤ offset := by simp [hline]
    rw [List.concat_eq_append] at hline
    have hget : doc.line? (doc.lineAt offset) = some line := by
      rw [line?, lineAt, hline, ← hrest, hline]
      simp
    rw [lineStart, hget]
    simpa using List.mem_takeWhile_imp hmem

/-- Different offsets are at different positions. -/
theorem position_injective (doc : Document) : Function.Injective doc.position := by
  intro offset other h
  obtain ⟨hline, hcolumn⟩ := Prod.mk.inj h
  have hle := doc.lineStart_lineAt_le offset
  have hle' := doc.lineStart_lineAt_le other
  rw [hline] at hle hcolumn
  omega

end Document
end OutOfLine

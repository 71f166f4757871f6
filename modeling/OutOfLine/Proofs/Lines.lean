import OutOfLine.Document
import OutOfLine.Proofs.ByteOffsets

/-!
# The lines of a text

A text is its first line followed by a text, until a line has no ending. This gives an induction over
the lines of a text, and cuts a document before any of its lines: what stands before the cut decides
the lines before it, and the lines from there on are those of the rest.
-/

namespace OutOfLine

/-- The content and the ending of a line that other lines follow. -/
structure Line.Ended (content : Text) (ending : LineEnd) : Prop where
  no_newline : '\n' ∉ content
  ending_ne : ending ≠ .none
  no_return : ending = .lf → content.getLast? ≠ some '\r'

/-- A text is a last line, or a line with its ending before a text. -/
theorem Text.line_induction {P : Text → Prop} (last : ∀ content, '\n' ∉ content → P content)
    (line : ∀ content ending rest, Line.Ended content ending → P rest →
      P (content ++ ending.text ++ rest)) (t : Text) : P t := by
  generalize hn : t.length = n
  induction n using Nat.strong_induction_on generalizing t with
  | _ n ih =>
    by_cases hmem : '\n' ∈ t
    · obtain ⟨front, rest, rfl, hfront⟩ := List.eq_append_cons_of_mem hmem
      have hrest : P rest := ih rest.length (by simp at hn; omega) rest rfl
      by_cases hcr : front.getLast? = some '\r'
      · obtain ⟨content, rfl⟩ := List.getLast?_eq_some_iff.mp hcr
        have hended : Line.Ended content .crlf := ⟨by simp_all, by simp, by simp⟩
        simpa [LineEnd.text] using line content .crlf rest hended hrest
      · have hended : Line.Ended front .lf := ⟨hfront, by simp, fun _ => hcr⟩
        simpa [LineEnd.text] using line front .lf rest hended hrest
    · exact last t hmem

/-- A text is a last line, or starts with a line and its ending. -/
theorem Text.line_cases (t : Text) : '\n' ∉ t ∨
    ∃ content ending rest, Line.Ended content ending ∧ t = content ++ ending.text ++ rest := by
  induction t using Text.line_induction with
  | last content hnl => exact .inl hnl
  | line content ending rest hended _ => exact .inr ⟨content, ending, rest, hended, rfl⟩

namespace Line

private theorem foldr_addChar {content : Text} {ending : LineEnd}
    (others : List (Text × LineEnd)) (hnl : '\n' ∉ content)
    (hcr : ending = .lf → content.getLast? ≠ some '\r') :
    content.foldr addChar (([], ending), others) = ((content, ending), others) := by
  induction content with
  | nil => rfl
  | cons c cs ih =>
    have hc : c ≠ '\n' := fun h => hnl (by simp [h])
    have hcs : ending = .lf → cs.getLast? ≠ some '\r' := by
      intro hlf hlast
      exact hcr hlf (by rw [List.getLast?_cons, hlast]; rfl)
    rw [List.foldr_cons, ih (fun h => hnl (List.mem_cons_of_mem _ h)) hcs, addChar, if_neg hc, if_neg]
    rintro ⟨rfl, heq⟩
    obtain ⟨rfl, rfl⟩ := Prod.mk.inj heq
    exact hcr rfl rfl

theorem split_last {content : Text} (h : '\n' ∉ content) : split content = ((content, .none), []) :=
  foldr_addChar [] h (by simp)

theorem split_line {content : Text} {ending : LineEnd} (h : Ended content ending) (rest : Text) :
    split (content ++ ending.text ++ rest) = ((content, ending), (split rest).1 :: (split rest).2) := by
  have hend : (ending.text ++ rest).foldr addChar (([], .none), []) =
      (([], ending), (split rest).1 :: (split rest).2) := by
    cases ending with
    | none => exact absurd rfl h.ending_ne
    | lf => simp [LineEnd.text, split, addChar]
    | crlf => simp [LineEnd.text, split, addChar]
  rw [split, List.append_assoc, List.foldr_append, hend]
  exact foldr_addChar _ h.no_newline h.no_return

end Line

namespace Text

/-- The lines of a text that starts at a byte, numbered from `number` on. -/
def linesAt (number start : Nat) (t : Text) : List Line :=
  Line.index number start ((Line.split t).1 :: (Line.split t).2)

theorem linesAt_last {content : Text} (number start : Nat) (h : '\n' ∉ content) :
    linesAt number start content = [⟨number, start, content, .none⟩] := by
  simp [linesAt, Line.split_last h, Line.index]

theorem linesAt_line {content : Text} {ending : LineEnd} (number start : Nat)
    (h : Line.Ended content ending) (rest : Text) :
    linesAt number start (content ++ ending.text ++ rest) =
      ⟨number, start, content, ending⟩ ::
        linesAt (number + 1) (start + byteLength content + byteLength ending.text) rest := by
  rw [linesAt, Line.split_line h]
  rfl

theorem map_content_linesAt (t : Text) (number start number' start' : Nat) :
    (t.linesAt number start).map Line.content = (t.linesAt number' start').map Line.content := by
  have hindex (parts : List (Text × LineEnd)) (number start : Nat) :
      (Line.index number start parts).map Line.content = parts.map Prod.fst := by
    induction parts generalizing number start with
    | nil => rfl
    | cons part parts ih => exact congrArg (List.cons _) (ih _ _)
  rw [linesAt, hindex, linesAt, hindex]

/-- The line numbers count up. -/
theorem number_of_getElem?_linesAt {t : Text} {number start k : Nat} {line : Line}
    (h : (linesAt number start t)[k]? = some line) : line.number = number + k := by
  induction t using Text.line_induction generalizing number start k with
  | last content hnl =>
    rw [linesAt_last _ _ hnl] at h
    cases k with
    | zero => simp at h; simp [← h]
    | succ k => simp at h
  | line content ending rest hended ih =>
    rw [linesAt_line _ _ hended] at h
    cases k with
    | zero => simp at h; simp [← h]
    | succ k =>
      have := ih (by simpa using h)
      omega

/-- A line lies inside its text: its content stands between two other parts of it. -/
theorem content_of_mem_linesAt {t : Text} {number start : Nat} {line : Line}
    (h : line ∈ linesAt number start t) :
    ∃ a b, t = a ++ line.content ++ b ∧ line.start = start + byteLength a := by
  induction t using Text.line_induction generalizing number start with
  | last content hnl =>
    rw [linesAt_last _ _ hnl, List.mem_singleton] at h
    exact ⟨[], [], by simp [h], by simp [h]⟩
  | line content ending rest hended ih =>
    rw [linesAt_line _ _ hended] at h
    rcases List.mem_cons.mp h with rfl | h
    · exact ⟨[], ending.text ++ rest, by simp, by simp⟩
    · obtain ⟨a, b, rfl, hstart⟩ := ih h
      refine ⟨content ++ ending.text ++ a, b, by simp, ?_⟩
      simp only [byteLength_append] at hstart ⊢
      omega

/-- Cuts a text before one of its lines. The part before the cut decides the lines before it, whatever
text follows. -/
theorem exists_cut_before_line {t : Text} {number start k : Nat}
    (h : k < (linesAt number start t).length) :
    ∃ front rest, t = front ++ rest ∧ ∀ tail,
      (linesAt number start (front ++ tail)).take k = (linesAt number start t).take k ∧
        (linesAt number start (front ++ tail)).drop k =
          linesAt (number + k) (start + byteLength front) tail := by
  induction k generalizing t number start with
  | zero => exact ⟨[], t, rfl, by simp⟩
  | succ k ih =>
    induction t using Text.line_induction with
    | last content hnl =>
      rw [linesAt_last _ _ hnl] at h
      simp at h
    | line content ending rest hended _ =>
      rw [linesAt_line _ _ hended] at h ⊢
      obtain ⟨front, rest, rfl, hcut⟩ := ih (by simpa using h)
      refine ⟨content ++ ending.text ++ front, rest, by simp, ?_⟩
      intro tail
      obtain ⟨htake, hdrop⟩ := hcut tail
      rw [List.append_assoc _ front tail, linesAt_line _ _ hended]
      constructor
      · simp only [List.take_succ_cons, htake]
      · simp only [List.drop_succ_cons, hdrop, byteLength_append]
        congr 1 <;> omega

end Text

namespace Document

theorem lines_eq (doc : Document) : doc.lines = Text.linesAt 1 0 doc.text := rfl

theorem number_of_getElem?_lines {doc : Document} {k : Nat} {line : Line}
    (h : doc.lines[k]? = some line) : line.number = k + 1 := by
  have := Text.number_of_getElem?_linesAt (h : (Text.linesAt 1 0 doc.text)[k]? = some line)
  omega

theorem number_of_mem_take {doc : Document} {i : Nat} {line : Line} (h : line ∈ doc.lines.take i) :
    line.number ≤ i := by
  obtain ⟨k, hk⟩ := List.getElem?_of_mem h
  rw [List.getElem?_take] at hk
  split at hk
  · next hlt =>
    have := number_of_getElem?_lines hk
    omega
  · simp at hk

theorem number_of_mem_linesFrom {doc : Document} {i : Nat} {line : Line} (h : line ∈ doc.linesFrom i) :
    i < line.number := by
  obtain ⟨k, hk⟩ := List.getElem?_of_mem h
  rw [linesFrom, List.getElem?_drop] at hk
  have := number_of_getElem?_lines hk
  omega

/-- Cuts a document before one of its lines. -/
theorem exists_cut (doc : Document) {i : Nat} (h : i < doc.lineCount) :
    ∃ front rest, doc.text = front ++ rest ∧ doc.lineStart i = front.byteLength ∧
      ∀ tail, (Document.mk (front ++ tail)).lines.take i = doc.lines.take i ∧
        (Document.mk (front ++ tail)).linesFrom i =
          Text.linesAt (i + 1) front.byteLength tail := by
  obtain ⟨front, rest, htext, hcut⟩ := Text.exists_cut_before_line (t := doc.text) h
  refine ⟨front, rest, htext, ?_, ?_⟩
  · have hdrop := (hcut rest).2
    rw [← htext] at hdrop
    have hget : doc.line? i = (Text.linesAt (1 + i) (0 + front.byteLength) rest)[0]? := by
      rw [line?, lines_eq, ← hdrop, List.getElem?_drop, Nat.add_zero]
    rw [lineStart, hget]
    simp [Text.linesAt, Line.index]
  · intro tail
    obtain ⟨htake, hdrop⟩ := hcut tail
    refine ⟨htake, ?_⟩
    rw [linesFrom, lines_eq, hdrop, Nat.add_comm, Nat.zero_add]

theorem lineStart_of_linesFrom {doc : Document} {i number start : Nat} {rest : Text}
    (h : doc.linesFrom i = rest.linesAt number start) : doc.lineStart i = start := by
  have hget : doc.line? i = (rest.linesAt number start)[0]? := by
    rw [← h, linesFrom, List.getElem?_drop, Nat.add_zero, line?]
  rw [lineStart, hget]
  simp [Text.linesAt, Line.index]

theorem linesFrom_of_le (doc : Document) {i : Nat} (h : doc.lineCount ≤ i) : doc.linesFrom i = [] :=
  List.drop_eq_nil_of_le h

/-- The end of a line is a place of the text. -/
theorem stop_of_mem_lines {doc : Document} {line : Line} (h : line ∈ doc.lines) :
    ∃ a b, doc.text = a ++ b ∧ line.stop = a.byteLength := by
  obtain ⟨a, b, htext, hstart⟩ := Text.content_of_mem_linesAt h
  exact ⟨a ++ line.content, b, htext, by simp [Line.stop, hstart]⟩

end Document
end OutOfLine

import OutOfLine.Proofs.Positions
import Mathlib.Order.Monotone.Basic

/-!
# The line index

The lines of a document with their endings are its text, cut behind every newline. Each line starts behind the
ending of the line before, so the starts increase, and every offset lies on exactly one line: the last one
that starts at it or before.
-/

namespace OutOfLine

namespace Text

/-- The UTF-8 encoding of a text. -/
def bytes (t : Text) : List UInt8 := t.flatMap String.utf8EncodeChar

theorem length_bytes (t : Text) : t.bytes.length = t.byteLength := by
  induction t with
  | nil => rfl
  | cons c t ih =>
    rw [bytes, List.flatMap_cons, List.length_append, String.length_utf8EncodeChar, byteLength_cons, ← ih, bytes]

theorem bytes_append (a b : Text) : (a ++ b).bytes = a.bytes ++ b.bytes := List.flatMap_append

/-- The part between two offsets has the bytes between them. -/
theorem bytes_of_slice? {t part : Text} {start stop : Nat} (h : t.slice? start stop = some part) :
    (t.bytes.drop start).take (stop - start) = part.bytes := by
  obtain ⟨a, b, rfl, rfl, rfl⟩ := slice?_eq_some_iff.mp h
  rw [byteLength_append, Nat.add_sub_cancel_left, List.append_assoc, bytes_append, bytes_append, ← length_bytes,
    ← length_bytes, List.drop_left, List.take_left]

/-- The byte of a newline is in no other encoding. -/
theorem newline_not_mem_utf8EncodeChar {c : Char} (h : c ≠ '\n') : 10 ∉ String.utf8EncodeChar c := by
  have hbyte {n : Nat} (hn : n % 256 ≠ 10) : (10 : UInt8) ≠ UInt8.ofNat n := by
    intro heq
    have hnat := congrArg UInt8.toNat heq
    simp only [UInt8.toNat_ofNat', UInt8.reduceToNat] at hnat
    omega
  have hval : c.val.toNat ≠ 10 := fun hval => h (Char.ext (UInt32.toNat_inj.mp hval))
  simp only [String.utf8EncodeChar]
  split_ifs <;> simp only [List.mem_cons, List.not_mem_nil, or_false, not_or]
  · exact hbyte (by omega)
  · exact ⟨hbyte (by omega), hbyte (by omega)⟩
  · exact ⟨hbyte (by omega), hbyte (by omega), hbyte (by omega)⟩
  · exact ⟨hbyte (by omega), hbyte (by omega), hbyte (by omega), hbyte (by omega)⟩

/-- The newline bytes of a text are those of its newlines. -/
theorem count_bytes (t : Text) : t.bytes.count 10 = t.count '\n' := by
  induction t with
  | nil => rfl
  | cons c t ih =>
    rw [bytes, List.flatMap_cons, List.count_append, ← bytes, ih, List.count_cons, Nat.add_comm]
    congr 1
    by_cases hc : c = '\n'
    · subst hc
      decide
    · rw [List.count_eq_zero.mpr (newline_not_mem_utf8EncodeChar hc), if_neg (by simpa using hc)]

theorem length_linesAt (number start : Nat) (t : Text) : (t.linesAt number start).length = t.count '\n' + 1 := by
  induction t using line_induction generalizing number start with
  | last content hnl => rw [linesAt_last _ _ hnl, List.count_eq_zero.mpr hnl, List.length_singleton]
  | line content ending rest hended ih =>
    have hending : ending.text.count '\n' = 1 := by
      cases ending with
      | none => exact absurd rfl hended.ending_ne
      | lf => rfl
      | crlf => rfl
    rw [linesAt_line _ _ hended, List.length_cons, ih, List.count_append, List.count_append, hending,
      List.count_eq_zero.mpr hended.no_newline]
    omega

theorem flatMap_linesAt (number start : Nat) (t : Text) :
    ((t.linesAt number start).flatMap fun line => line.content ++ line.ending.text) = t := by
  induction t using line_induction generalizing number start with
  | last content hnl =>
    rw [linesAt_last _ _ hnl]
    simp [LineEnd.text]
  | line content ending rest hended ih => rw [linesAt_line _ _ hended, List.flatMap_cons, ih]

end Text

namespace Document

variable {doc : Document}

theorem lineStart_of_line? {i : Nat} {line : Line} (h : doc.line? i = some line) : doc.lineStart i = line.start := by
  rw [lineStart, h, Option.elim_some]

theorem lineStop_of_line? {i : Nat} {line : Line} (h : doc.line? i = some line) : doc.lineStop i = line.stop := by
  rw [lineStop, h, Option.elim_some]

theorem exists_line? {i : Nat} (h : i < doc.lineCount) : ∃ line, doc.line? i = some line :=
  ⟨_, List.getElem?_eq_getElem h⟩

/-- A line stands between the lines before it and its ending, and the next line starts behind that ending. -/
theorem exists_parts {i : Nat} {line : Line} (h : doc.line? i = some line) :
    ∃ front after, doc.text = front ++ line.content ++ after ∧ '\n' ∉ line.content ∧
      line.start = front.byteLength ∧
      (after = [] ∧ i + 1 = doc.lineCount ∨
        ∃ rest next, after = line.ending.text ++ rest ∧ Line.Ended line.content line.ending ∧
          doc.line? (i + 1) = some next ∧ next.start = (front ++ line.content ++ line.ending.text).byteLength) := by
  obtain ⟨hi, -⟩ := List.getElem?_eq_some_iff.mp h
  obtain ⟨front, rest, htext, -, hcut⟩ := doc.exists_cut hi
  have hlines := (hcut rest).2
  rw [← htext] at hlines
  have hget (k : Nat) : doc.line? (i + k) = (doc.linesFrom i)[k]? := by rw [linesFrom, List.getElem?_drop, line?]
  have hlength : (doc.linesFrom i).length = doc.lineCount - i := List.length_drop
  rcases rest.line_cases with hnl | ⟨content, ending, rest, hended, rfl⟩
  · rw [Text.linesAt_last _ _ hnl] at hlines
    rw [hlines, List.length_singleton] at hlength
    obtain rfl : _ = line := Option.some.inj ((hlines ▸ hget 0).symm.trans h)
    exact ⟨front, [], by simpa using htext, hnl, rfl, .inl ⟨rfl, by omega⟩⟩
  · rw [Text.linesAt_line _ _ hended] at hlines
    obtain rfl : _ = line := Option.some.inj ((hlines ▸ hget 0).symm.trans h)
    obtain ⟨next, later, hlater, hnext⟩ :=
      Text.exists_linesAt_eq_cons (i + 1 + 1) (front.byteLength + content.byteLength + ending.text.byteLength) rest
    refine ⟨front, ending.text ++ rest, by rw [htext]; simp, hended.no_newline, rfl,
      .inr ⟨rest, next, rfl, hended, ?_, ?_⟩⟩
    · rw [hget 1, hlines, hlater]
      rfl
    · rw [hnext, Text.byteLength_append, Text.byteLength_append]

theorem lineStart_le_lineStop {i : Nat} (h : i < doc.lineCount) : doc.lineStart i ≤ doc.lineStop i := by
  obtain ⟨line, hline⟩ := exists_line? h
  rw [lineStart_of_line? hline, lineStop_of_line? hline]
  exact Nat.le_add_right _ _

/-- The next line starts behind an ending. -/
theorem lineStop_lt_lineStart {i : Nat} (h : i + 1 < doc.lineCount) : doc.lineStop i < doc.lineStart (i + 1) := by
  obtain ⟨line, hline⟩ := exists_line? (Nat.lt_of_succ_lt h)
  obtain ⟨front, -, -, -, hstart, ⟨-, hlast⟩ | ⟨rest, next, -, hended, hnext, hbehind⟩⟩ := exists_parts hline
  · omega
  · have hpos := LineEnd.byteLength_text_pos hended.ending_ne
    rw [lineStop_of_line? hline, lineStart_of_line? hnext, hbehind, Line.stop, hstart]
    simp only [Text.byteLength_append]
    omega

theorem lineStart_lt_lineStart {i j : Nat} (h : i < j) (hj : j < doc.lineCount) :
    doc.lineStart i < doc.lineStart j := by
  induction j, h using Nat.le_induction with
  | base => exact (lineStart_le_lineStop (by omega)).trans_lt (lineStop_lt_lineStart hj)
  | succ j _ ih =>
    calc doc.lineStart i < doc.lineStart j := ih (by omega)
      _ ≤ doc.lineStop j := lineStart_le_lineStop (by omega)
      _ < doc.lineStart (j + 1) := lineStop_lt_lineStart hj

theorem lineStart_le_lineStart {i j : Nat} (h : i ≤ j) (hj : j < doc.lineCount) :
    doc.lineStart i ≤ doc.lineStart j := by
  rcases h.eq_or_lt with rfl | hlt
  · exact Nat.le_refl _
  · exact (lineStart_lt_lineStart hlt hj).le

/-- Whether an offset belongs to a line: the line starts there or before, and the next line, if there is one,
starts later. -/
def Holds (doc : Document) (i offset : Nat) : Prop :=
  i < doc.lineCount ∧ doc.lineStart i ≤ offset ∧ (i + 1 = doc.lineCount ∨ offset < doc.lineStart (i + 1))

theorem holds_lineAt (doc : Document) (offset : Nat) : doc.Holds (doc.lineAt offset) offset := by
  have hparts := List.takeWhile_append_dropWhile (p := fun line : Line => line.start ≤ offset) (l := doc.lines)
  have hcount : doc.lineCount = (doc.lines.takeWhile fun line => line.start ≤ offset).length +
      (doc.lines.dropWhile fun line => line.start ≤ offset).length := by
    rw [← List.length_append, hparts, lineCount]
  have hpos : 0 < (doc.lines.takeWhile fun line => line.start ≤ offset).length := by
    obtain ⟨first, later, hlines, hstart⟩ := Text.exists_linesAt_eq_cons 1 0 doc.text
    rw [lines_eq, hlines, List.takeWhile_cons_of_pos (by simp [hstart])]
    exact Nat.succ_pos _
  refine ⟨by rw [lineAt]; omega, lineStart_lineAt_le offset, ?_⟩
  have hnext : doc.lineAt offset + 1 = (doc.lines.takeWhile fun line => line.start ≤ offset).length := by
    rw [lineAt]
    omega
  rw [hnext]
  cases hlater : doc.lines.dropWhile fun line => line.start ≤ offset with
  | nil =>
    rw [hlater] at hcount
    exact .inl hcount.symm
  | cons line later =>
    refine .inr ?_
    have hline : (doc.lines.takeWhile (fun line => line.start ≤ offset) ++ line :: later)[
        (doc.lines.takeWhile fun line => line.start ≤ offset).length]? = some line := by
      rw [List.getElem?_append_right (Nat.le_refl _), Nat.sub_self]
      rfl
    rw [← hlater, hparts] at hline
    have hstart := List.head?_dropWhile_not (fun line : Line => decide (line.start ≤ offset)) doc.lines
    rw [hlater] at hstart
    rw [lineStart_of_line? hline]
    simpa using hstart

/-- An offset belongs to one line only. -/
theorem Holds.unique {i j offset : Nat} (hi : doc.Holds i offset) (hj : doc.Holds j offset) : i = j := by
  -- The line that comes first would end behind the start of the other.
  have hle {i j : Nat} (hi : doc.Holds i offset) (hj : doc.Holds j offset) : j ≤ i := by
    by_contra hlt
    have hstart := lineStart_le_lineStart (show i + 1 ≤ j by omega) hj.1
    have hbefore := hi.2.2
    have hlast := hj.1
    have hoffset := hj.2.1
    omega
  exact Nat.le_antisymm (hle hj hi) (hle hi hj)

theorem lineAt_eq_iff {i offset : Nat} : doc.lineAt offset = i ↔ doc.Holds i offset :=
  ⟨fun h => h ▸ doc.holds_lineAt offset, fun h => (doc.holds_lineAt offset).unique h⟩

theorem monotone_lineAt (doc : Document) : Monotone doc.lineAt := by
  intro a b hab
  by_contra hlt
  obtain ⟨hline, hstart, -⟩ := doc.holds_lineAt a
  obtain ⟨-, -, hnext⟩ := doc.holds_lineAt b
  have hle := lineStart_le_lineStart (show doc.lineAt b + 1 ≤ doc.lineAt a by omega) hline
  omega

/-- What the index of a document says about its text. -/
structure Indexed (doc : Document) : Prop where
  /-- There is one line more than there are newline bytes. -/
  lineCount_eq : doc.lineCount = doc.text.bytes.count 10 + 1
  start_first : doc.lineStart 0 = 0
  stop_last : doc.lineStop (doc.lineCount - 1) = doc.size
  /-- The content is what stands between the offsets of a line. -/
  content : ∀ i line, doc.line? i = some line → line.start ≤ line.stop ∧
    doc.text.slice? line.start line.stop = some line.content ∧ '\n' ∉ line.content
  /-- The ending is what stands before the next line, and a carriage return before the newline belongs to it. -/
  ending : ∀ i line next, doc.line? i = some line → doc.line? (i + 1) = some next →
    doc.text.slice? line.stop next.start = some line.ending.text ∧
    (doc.text.bytes.drop line.stop).take (next.start - line.stop) = line.ending.text.bytes ∧
    (line.ending = .crlf ∨ line.ending = .lf ∧ line.content.getLast? ≠ some '\r')
  text_eq : (doc.lines.flatMap fun line => line.content ++ line.ending.text) = doc.text

theorem indexed (doc : Document) : doc.Indexed where
  lineCount_eq := by rw [Text.count_bytes, lineCount, lines_eq, Text.length_linesAt]
  start_first := by
    obtain ⟨first, later, hlines, hstart⟩ := Text.exists_linesAt_eq_cons 1 0 doc.text
    have hline : doc.line? 0 = some first := by
      rw [line?, lines_eq, hlines]
      rfl
    rw [lineStart_of_line? hline, hstart]
  stop_last := by
    have hpos : 0 < doc.lineCount := (Nat.zero_le _).trans_lt (doc.holds_lineAt 0).1
    obtain ⟨line, hline⟩ := exists_line? (show doc.lineCount - 1 < doc.lineCount by omega)
    obtain ⟨front, after, htext, -, hstart, ⟨rfl, -⟩ | ⟨-, next, -, -, hnext, -⟩⟩ := exists_parts hline
    · rw [lineStop_of_line? hline, size, htext, Line.stop, hstart]
      simp
    · obtain ⟨hlast, -⟩ := List.getElem?_eq_some_iff.mp hnext
      have hcount : doc.lineCount = doc.lines.length := rfl
      omega
  content := by
    intro i line hline
    obtain ⟨front, after, htext, hnl, hstart, -⟩ := exists_parts hline
    refine ⟨Nat.le_add_right _ _, ?_, hnl⟩
    rw [htext, Line.stop, hstart]
    exact Text.slice?_append front line.content after
  ending := by
    intro i line next hline hnext
    obtain ⟨front, after, htext, -, hstart, ⟨-, hlast⟩ | ⟨rest, other, rfl, hended, hother, hbehind⟩⟩ :=
      exists_parts hline
    · have hlt : i + 1 < doc.lineCount := (List.getElem?_eq_some_iff.mp hnext).1
      omega
    · obtain rfl := Option.some.inj (hother.symm.trans hnext)
      have hslice : doc.text.slice? line.stop other.start = some line.ending.text := by
        rw [htext, ← List.append_assoc, Line.stop, hstart, hbehind, Text.byteLength_append _ line.ending.text,
          ← Text.byteLength_append]
        exact Text.slice?_append _ _ rest
      refine ⟨hslice, Text.bytes_of_slice? hslice, ?_⟩
      cases hending : line.ending with
      | none => exact absurd hending hended.ending_ne
      | lf => exact .inr ⟨rfl, hended.no_return hending⟩
      | crlf => exact .inl rfl
  text_eq := Text.flatMap_linesAt 1 0 doc.text

/-- The index of a document divides its text into lines and endings. Every offset is on one line, later offsets
are on later lines, and the offsets of a line are on that line. -/
theorem lines_partition (doc : Document) :
    doc.Indexed ∧
    (∀ offset i, doc.lineAt offset = i ↔ i < doc.lineCount ∧ doc.lineStart i ≤ offset ∧
      (i + 1 = doc.lineCount ∨ offset < doc.lineStart (i + 1))) ∧
    Monotone doc.lineAt ∧
    ∀ i < doc.lineCount, doc.lineAt (doc.lineStart i) = i ∧ doc.lineAt (doc.lineStop i) = i := by
  refine ⟨doc.indexed, fun _ _ => lineAt_eq_iff, doc.monotone_lineAt, fun i hi => ?_⟩
  have hstop := lineStart_le_lineStop hi
  have hnext : i + 1 = doc.lineCount ∨ doc.lineStop i < doc.lineStart (i + 1) := by
    rcases Nat.lt_or_ge (i + 1) doc.lineCount with hlt | hge
    · exact .inr (lineStop_lt_lineStart hlt)
    · exact .inl (by omega)
  exact ⟨lineAt_eq_iff.mpr ⟨hi, Nat.le_refl _, by omega⟩, lineAt_eq_iff.mpr ⟨hi, hstop, hnext⟩⟩

/-- Two carriage returns before a newline, an empty line, and a last line without an ending that starts and ends
in a carriage return; letters of two and four bytes. -/
def returnDocument : Document := ⟨"é\r\r\n\n\r𝔸\r".toList⟩

theorem lines_partition_returnDocument :
    returnDocument.lines.map (fun line => (line.start, line.stop)) = [(0, 3), (5, 5), (6, 12)] ∧
    returnDocument.Indexed ∧ returnDocument.lineAt 4 = 0 ∧ returnDocument.lineAt 5 = 1 ∧
    returnDocument.lineAt (returnDocument.lineStop 1) = 1 ∧ returnDocument.lineAt 100 = 2 := by
  obtain ⟨hindexed, hat, -, hends⟩ := lines_partition returnDocument
  exact ⟨by decide, hindexed, (hat 4 0).mpr (by decide), (hat 5 1).mpr (by decide), (hends 1 (by decide)).2,
    (hat 100 2).mpr (by decide)⟩

end Document
end OutOfLine

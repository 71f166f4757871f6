import OutOfLine.Proofs.RelocatedPlans
import OutOfLine.Proofs.RecognisedComments

/-!
# Lines inside a block comment

The scopes around a line are read from the start of the document, and what stands at the line is read as code.
A line that begins inside a block comment therefore has the plans it would have if the comment were closed at
the end of the line before it, and nothing is offered at it exactly when nothing would be offered then.
-/

namespace OutOfLine

/-- A `*/` behind a text that ends inside a block comment closes the comment and adds nothing to the code. -/
theorem tokenize_closed {inComment : Bool} {content : Text} (h : (tokenize inComment content).2) :
    (tokenize inComment (content ++ ['*', '/'])).2 = false ∧
      dropComments inComment (tokenize inComment (content ++ ['*', '/'])).1 =
        dropComments inComment (tokenize inComment content).1 := by
  have hmode : (Lexer.read (.start inComment) content).2.inComment := by
    simpa [tokenize, Lexer.run_eq_read] using h
  have htokens : (tokenize inComment (content ++ ['*', '/'])).1 =
      (tokenize inComment content).1 ++ [.commentClose] := by
    simp only [tokenize, Lexer.run_append, Lexer.run_close hmode, Lexer.run_eq_read _ content,
      List.append_assoc]
    rfl
  constructor
  · rw [← insideAfter_tokenize, htokens, insideAfter_append]
    rfl
  · rw [htokens, dropComments_append, insideAfter_tokenize, h]
    exact List.append_nil _

/-- The line with a `*/` at the end of its content. -/
def Line.closed (line : Line) : Line := { line with content := line.content ++ ['*', '/'] }

namespace Resolver

theorem State.step_congr (s : State) {placed other : Placed} (htoken : placed.token = other.token)
    (hnumber : placed.line.number = other.line.number) : s.step placed = s.step other := by
  simp only [State.step, htoken, hnumber]

/-- The resolver reads the tokens and the numbers of their lines. -/
theorem foldl_step_congr {tokens others : List Placed}
    (h : tokens.map (fun placed => (placed.token, placed.line.number)) =
      others.map fun placed => (placed.token, placed.line.number)) (s : State) :
    tokens.foldl State.step s = others.foldl State.step s := by
  induction tokens generalizing others s with
  | nil =>
    obtain rfl : others = [] := by simpa using h.symm
    rfl
  | cons placed tokens ih =>
    cases others with
    | nil => simp at h
    | cons other others =>
      obtain ⟨hplaced, hrest⟩ := List.cons.inj h
      obtain ⟨htoken, hnumber⟩ := Prod.mk.inj hplaced
      rw [List.foldl_cons, List.foldl_cons, s.step_congr htoken hnumber, ih hrest]

end Resolver

/-- What the resolver reads of one line. -/
theorem withoutSpaces_line (inComment : Bool) (line : Line) :
    (withoutSpaces (codeOfLines inComment [line])).map (fun placed => (placed.token, placed.line.number)) =
      ((dropComments inComment (tokenize inComment line.content).1).filter fun token => !token.isSpace).map
        fun token => (token, line.number) := by
  have hnewline : (dropComments inComment (line.tokens inComment).1).filter (fun token => !token.isSpace) =
      (dropComments inComment (tokenize inComment line.content).1).filter fun token => !token.isSpace := by
    unfold Line.tokens
    split
    · rfl
    · rw [dropComments_append, List.filter_append]
      cases insideAfter inComment (tokenize inComment line.content).1 <;> exact List.append_nil _
  rw [← hnewline, codeOfLines, codeOfLines, List.append_nil, withoutSpaces, List.filter_map, List.map_map]
  rfl

/-- Closing a comment at the end of the last of some lines does not change what the resolver reads. -/
theorem withoutSpaces_closed {lines : List Line} {line : Line} (h : commentAfter false (lines ++ [line])) :
    (withoutSpaces (codeOfLines false (lines ++ [line.closed]))).map
        (fun placed => (placed.token, placed.line.number)) =
      (withoutSpaces (codeOfLines false (lines ++ [line]))).map
        fun placed => (placed.token, placed.line.number) := by
  rw [commentAfter_append] at h
  have hparts (last : Line) : withoutSpaces (codeOfLines false (lines ++ [last])) =
      withoutSpaces (codeOfLines false lines) ++
        withoutSpaces (codeOfLines (commentAfter false lines) [last]) := by
    rw [codeOfLines_append, withoutSpaces, List.filter_append]
    rfl
  rw [hparts, hparts, List.map_append, List.map_append, withoutSpaces_line, withoutSpaces_line]
  simp only [Line.closed, (tokenize_closed h).2]

theorem Line.Ended.closed {content : Text} {ending : LineEnd} (h : Line.Ended content ending) :
    Line.Ended (content ++ ['*', '/']) ending :=
  ⟨by simp [h.no_newline], h.ending_ne, by simp⟩

namespace Document

/-- Whether the line at an index begins inside a block comment. -/
def startsInComment (doc : Document) (i : Nat) : Bool := commentAfter false (doc.lines.take i)

/-- The document with a `*/` at the end of the line before an index. -/
def closedBefore (doc : Document) (i : Nat) : Document :=
  match doc.text.splitAtByte? (doc.lineStop (i - 1)) with
  | some (front, rest) => ⟨front ++ '*' :: '/' :: rest⟩
  | none => doc

/-- A document in which a `*/` stands at the end of the line before an index of another document. -/
structure Closes (i : Nat) (doc doc' : Document) (before : List Line) (line : Line) : Prop where
  lines_eq : doc.lines.take i = before ++ [line]
  lines_closed : doc'.lines.take i = before ++ [line.closed]
  rest : doc.SameRest i 2 doc'

section Closes

variable {doc doc' : Document} {i : Nat} {before : List Line} {line : Line}

theorem Closes.sameFrom (h : doc.Closes i doc' before line) (hstarts : doc.startsInComment i) :
    doc.SameFrom i 2 doc' := by
  rw [startsInComment, h.lines_eq] at hstarts
  have hresolver : doc'.resolver i = doc.resolver i := by
    simp only [resolver, h.lines_eq, h.lines_closed, List.length_append, List.length_singleton,
      Resolver.foldl_step_congr (withoutSpaces_closed hstarts)]
  refine ⟨?_, h.rest⟩
  rw [scopeContext, hresolver]
  rfl

theorem Closes.startsInComment_eq (h : doc.Closes i doc' before line) (hstarts : doc.startsInComment i) :
    doc'.startsInComment i = false := by
  rw [startsInComment, h.lines_eq, commentAfter_append] at hstarts
  rw [startsInComment, h.lines_closed, commentAfter_append]
  exact (tokenize_closed hstarts).1

theorem closedBefore_of_text {front rest : Text} (htext : doc.text = front ++ rest)
    (hstop : doc.lineStop (i - 1) = front.byteLength) :
    doc.closedBefore i = ⟨front ++ '*' :: '/' :: rest⟩ := by
  rw [closedBefore, hstop, htext, Text.splitAtByte?_append]

/-- The lines of every text that starts with a front part are some lines and those of what follows it. -/
def Fronts (front : Text) (before : List Line) : Prop :=
  ∀ tail, (Document.mk (front ++ tail)).lines = before ++ tail.linesAt (before.length + 1) front.byteLength

theorem Fronts.lines_eq {front rest : Text} (h : Fronts front before) (htext : doc.text = front ++ rest) :
    doc.lines = before ++ rest.linesAt (before.length + 1) front.byteLength := by
  rw [← h, ← htext]

theorem exists_fronts {k : Nat} (hk : k < doc.lineCount) :
    ∃ front rest before, doc.text = front ++ rest ∧ before.length = k ∧ Fronts front before := by
  obtain ⟨front, rest, htext, -, hcut⟩ := doc.exists_cut hk
  have hlen : (doc.lines.take k).length = k := List.length_take_of_le (Nat.le_of_lt hk)
  refine ⟨front, rest, doc.lines.take k, htext, hlen, fun tail => ?_⟩
  rw [hlen, ← (hcut tail).1, ← (hcut tail).2, linesFrom, List.take_append_drop]

/-- The comment is closed at the end of the document. -/
theorem closes_last {front content : Text} (hfront : Fronts front before)
    (htext : doc.text = front ++ content) (hnl : '\n' ∉ content) (hi : before.length + 1 ≤ i) :
    doc.Closes i (doc.closedBefore i) before ⟨before.length + 1, front.byteLength, content, .none⟩ := by
  have hlines := hfront.lines_eq htext
  rw [Text.linesAt_last _ _ hnl] at hlines
  have hstop : doc.lineStop (i - 1) = (front ++ content).byteLength := by
    rw [lineStop, line?, hlines]
    rcases Nat.lt_or_eq_of_le hi with hlt | rfl
    · rw [List.getElem?_eq_none (by simp; omega)]
      exact congrArg Text.byteLength htext
    · simp [Line.stop]
  have hclosed : (doc.closedBefore i).lines =
      before ++ [⟨before.length + 1, front.byteLength, content ++ ['*', '/'], .none⟩] := by
    rw [closedBefore_of_text (htext.trans (List.append_nil _).symm) hstop, List.append_assoc, hfront,
      Text.linesAt_last _ _ (by simp [hnl])]
  refine ⟨?_, ?_, .inl ⟨?_, ?_⟩⟩
  · rw [hlines, List.take_of_length_le (by simp [hi])]
  · rw [hclosed, List.take_of_length_le (by simp [hi])]
    rfl
  · rw [linesFrom, hlines, List.drop_eq_nil_of_le (by simp [hi])]
  · rw [linesFrom, hclosed, List.drop_eq_nil_of_le (by simp [hi])]

/-- The comment is closed before the ending of a line that other lines follow. -/
theorem closes_line {front content rest : Text} {ending : LineEnd} (hfront : Fronts front before)
    (htext : doc.text = front ++ (content ++ ending.text ++ rest)) (hended : Line.Ended content ending) :
    doc.Closes (before.length + 1) (doc.closedBefore (before.length + 1)) before
      ⟨before.length + 1, front.byteLength, content, ending⟩ := by
  have hlines := hfront.lines_eq htext
  rw [Text.linesAt_line _ _ hended, List.append_cons] at hlines
  have hstop : doc.lineStop (before.length + 1 - 1) = (front ++ content).byteLength := by
    rw [lineStop, line?, hlines]
    simp [Line.stop]
  have htext' : doc.text = front ++ content ++ (ending.text ++ rest) := by simp [htext]
  have hclosed : doc.closedBefore (before.length + 1) =
      ⟨front ++ (content ++ ['*', '/'] ++ ending.text ++ rest)⟩ := by
    rw [closedBefore_of_text htext' hstop]
    simp
  have hlines' := hfront (content ++ ['*', '/'] ++ ending.text ++ rest)
  rw [← hclosed, Text.linesAt_line _ _ hended.closed, List.append_cons] at hlines'
  have hsize (x : Line) : (before ++ [x]).length = before.length + 1 := by simp
  refine ⟨?_, ?_, .inr ⟨front ++ content ++ ending.text, front ++ (content ++ ['*', '/']) ++ ending.text,
    rest, ?_, ?_, ?_, ?_, ?_⟩⟩
  · rw [hlines, List.take_left' (hsize _)]
  · rw [hlines', List.take_left' (hsize _)]
    rfl
  · simp [htext]
  · simp [hclosed]
  · have hclose : ('*' : Char).utf8Size = 1 ∧ ('/' : Char).utf8Size = 1 := ⟨rfl, rfl⟩
    simp only [Text.byteLength_append, Text.byteLength_cons, Text.byteLength_nil, hclose]
    omega
  · rw [linesFrom, hlines, List.drop_left' (hsize _)]
    simp only [Text.byteLength_append]
  · rw [linesFrom, hlines', List.drop_left' (hsize _)]
    simp only [Text.byteLength_append]

/-- A block comment that goes on over the start of a line can be closed before it. -/
theorem exists_closes (h : doc.startsInComment i) :
    ∃ before line, doc.Closes i (doc.closedBefore i) before line := by
  have hpos : 0 < i := by
    cases i with
    | zero => simp [startsInComment, commentAfter] at h
    | succ i => omega
  have hcount : 0 < doc.lineCount := by simp [lineCount, lines, Line.index]
  -- The line that ends inside the comment: the one before, or the last one if the index is past the end.
  obtain ⟨k, hk, hki, hlast⟩ : ∃ k, k < doc.lineCount ∧ k + 1 ≤ i ∧ (k + 1 < doc.lineCount → i = k + 1) :=
    ⟨min (i - 1) (doc.lineCount - 1), by omega, by omega, by omega⟩
  obtain ⟨front, rest, before, htext, rfl, hfront⟩ := exists_fronts hk
  rcases Text.line_cases rest with hnl | ⟨content, ending, rest, hended, rfl⟩
  · exact ⟨before, _, closes_last hfront htext hnl hki⟩
  · obtain rfl : i = before.length + 1 := by
      refine hlast ?_
      rw [lineCount, hfront.lines_eq htext, Text.linesAt_line _ _ hended]
      simp [Text.linesAt, Line.index]
    exact ⟨before, _, closes_line hfront htext hended⟩

end Closes

end Document

namespace Site

/-- No plan is offered at the line, and no intent can be carried out there. -/
def OffersNothing (site : Site) : Prop :=
  site.available.value = [] ∧ ∀ intent plan, (site.plan? intent).value ≠ .ok plan

theorem offersNothing_of_map {site other : Site} {f : Plan → Plan}
    (havailable : other.available.value = site.available.value.map f)
    (hplan : ∀ intent, (other.plan? intent).value = (site.plan? intent).value.map f) :
    site.OffersNothing ↔ other.OffersNothing := by
  unfold OffersNothing
  rw [havailable, List.map_eq_nil_iff]
  refine and_congr_right fun _ => forall_congr' fun intent => ?_
  rw [hplan]
  cases (site.plan? intent).value with
  | error e => simp [Except.map]
  | ok plan => simp [Except.map]

/-- A line inside a block comment is served as if the comment were closed at the end of the line before it. -/
theorem offersNothing_iff_closedBefore {site : Site} (h : site.active.startsInComment site.line) :
    (site.active.closedBefore site.line).startsInComment site.line = false ∧
      (site.OffersNothing ↔
        ({ site with active := site.active.closedBefore site.line } : Site).OffersNothing) ∧
      ({ site with active := site.active.closedBefore site.line } : Site).available.value =
        site.available.value.map (Plan.shift 2) ∧
      ∀ intent, (({ site with active := site.active.closedBefore site.line } : Site).plan? intent).value =
        (site.plan? intent).value.map (Plan.shift 2) := by
  obtain ⟨before, line, hcloses⟩ := Document.exists_closes h
  have havailable := available_of_sameFrom (hcloses.sameFrom h)
  have hplan := plan?_of_sameFrom (hcloses.sameFrom h)
  exact ⟨hcloses.startsInComment_eq h, offersNothing_of_map havailable hplan, havailable, hplan⟩

/-- A class with a constructor in a comment that opens on the line before it. -/
def commentedConstructor : Site where
  role := .header
  active := ⟨"struct A \x7b\r\n  int a; /* it's:\r\n  A() : a(1) \x7b f(); \x7d\r\n*/\r\n\x7d;\r\n".toList⟩
  line := 2
  counterpart := some ⟨[]⟩
  counterpartName := "a.cpp".toList
  config := {}

theorem offersNothing_iff_commentedConstructor :
    commentedConstructor.active.startsInComment 2 ∧
      (commentedConstructor.active.closedBefore 2).text =
        "struct A \x7b\r\n  int a; /* it's:*/\r\n  A() : a(1) \x7b f(); \x7d\r\n*/\r\n\x7d;\r\n".toList ∧
      ¬ ({ commentedConstructor with active := commentedConstructor.active.closedBefore 2 } : Site).OffersNothing ∧
      ¬ commentedConstructor.OffersNothing := by
  have h : commentedConstructor.active.startsInComment 2 := by decide +kernel
  have hoffers : ¬ ({ commentedConstructor with
      active := commentedConstructor.active.closedBefore 2 } : Site).OffersNothing :=
    fun hnothing => absurd hnothing.1 (by decide +kernel)
  exact ⟨h, by decide +kernel, hoffers, mt (offersNothing_iff_closedBefore h).2.1.mp hoffers⟩

/-- A comment that holds a declaration. -/
def commentedDeclaration : Site where
  role := .header
  active := ⟨"/*\nint f();\n*/\n".toList⟩
  line := 1
  counterpart := some ⟨[]⟩
  counterpartName := "a.cpp".toList
  config := {}

theorem not_offersNothing_commentedDeclaration :
    commentedDeclaration.active.startsInComment 1 ∧ ¬ commentedDeclaration.OffersNothing ∧
      (commentedDeclaration.plan? .declareInSource).value = .ok
        ⟨.declareInSource, "Declare in a.cpp".toList,
          [⟨.counterpart, 0, 0, "\n\nint f()\n\x7b\n    \n\x7d\n".toList⟩]⟩ := by
  have hplan : (commentedDeclaration.plan? .declareInSource).value = .ok
      ⟨.declareInSource, "Declare in a.cpp".toList,
        [⟨.counterpart, 0, 0, "\n\nint f()\n\x7b\n    \n\x7d\n".toList⟩]⟩ := by
    decide +kernel
  exact ⟨by decide +kernel, fun h => h.2 _ _ hplan, hplan⟩

end Site

end OutOfLine

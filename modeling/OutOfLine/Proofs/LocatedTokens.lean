import OutOfLine.Proofs.CodeTokens

/-!
# Located code tokens

A located token carries the byte offset at which its text stands. The located tokens of the lines of a
text are its code tokens without spaces and stray comment ends, and they divide with the text at every
plain delimiter in code.
-/

namespace OutOfLine

/-- The code tokens that are located: no space, and no end of a comment that was not opened. -/
def Token.isSolid : Token → Bool
  | space _ => false
  | commentClose => false
  | _ => true

theorem locate_append (inside : Bool) (offset : Nat) (ts us : List Token) :
    locate inside offset (ts ++ us) = locate inside offset ts ++
      locate (insideAfter inside ts) (offset + (Token.concat ts).byteLength) us := by
  induction ts generalizing inside offset with
  | nil => rfl
  | cons t ts ih =>
    rw [Token.concat_cons, Text.byteLength_append, ← Nat.add_assoc]
    cases t with
    | commentOpen => exact ih true _
    | commentClose => exact ih false _
    | lineComment text => exact ih inside _
    | space c => exact ih inside _
    | word text =>
      cases inside with
      | true => exact ih true _
      | false => exact congrArg (List.cons _) (ih false _)
    | delimiter c =>
      cases inside with
      | true => exact ih true _
      | false => exact congrArg (List.cons _) (ih false _)
    | literal text =>
      cases inside with
      | true => exact ih true _
      | false => exact congrArg (List.cons _) (ih false _)

theorem map_token_locate (inside : Bool) (offset : Nat) (ts : List Token) :
    (locate inside offset ts).map Located.token = (dropComments inside ts).filter Token.isSolid := by
  induction ts generalizing inside offset with
  | nil => rfl
  | cons t ts ih =>
    cases inside with
    | true => cases t <;> exact ih _ _
    | false =>
      cases t with
      | commentOpen => exact ih true _
      | commentClose => exact ih false _
      | lineComment text => exact ih false _
      | space c => exact ih false _
      | _ => exact congrArg (List.cons _) (ih false _)

namespace Text

/-- The located code tokens of a text that starts at a byte. -/
def locatedFrom (inComment : Bool) (start : Nat) (t : Text) : List Located :=
  locateLines inComment (t.linesAt 1 start)

theorem locateLines_linesAt (inComment : Bool) (number start : Nat) (t : Text) :
    locateLines inComment (t.linesAt number start) = t.locatedFrom inComment start := by
  suffices h : ∀ n m, locateLines inComment (t.linesAt n start) =
      locateLines inComment (t.linesAt m start) from h number 1
  induction t using Text.line_induction generalizing inComment start with
  | last content hnl =>
    intro n m
    rw [linesAt_last _ _ hnl, linesAt_last _ _ hnl]
    rfl
  | line content ending rest hended ih =>
    intro n m
    rw [linesAt_line _ _ hended, linesAt_line _ _ hended]
    exact congrArg (List.append _) (ih _ _ (n + 1) (m + 1))

theorem locatedFrom_last {content : Text} (h : '\n' ∉ content) (inComment : Bool) (start : Nat) :
    locatedFrom inComment start content =
      locate inComment start (tokenize inComment content).1 := by
  rw [locatedFrom, linesAt_last _ _ h]
  exact List.append_nil _

theorem locatedFrom_line {content : Text} {ending : LineEnd} (h : Line.Ended content ending)
    (inComment : Bool) (start : Nat) (rest : Text) :
    locatedFrom inComment start (content ++ ending.text ++ rest) =
      locate inComment start (tokenize inComment content).1 ++
        locatedFrom (tokenize inComment content).2
          (start + byteLength content + byteLength ending.text) rest := by
  rw [locatedFrom, linesAt_line _ _ h]
  exact congrArg (List.append _) (locateLines_linesAt _ _ _ _)

/-- The located tokens of a text are its code tokens without spaces and stray comment ends. -/
theorem map_token_locatedFrom (inComment : Bool) (start : Nat) (t : Text) :
    (t.locatedFrom inComment start).map Located.token =
      (t.codeFrom inComment).filter Token.isSolid := by
  induction t using Text.line_induction generalizing inComment start with
  | last content hnl =>
    rw [locatedFrom_last hnl, map_token_locate, codeFrom, lineFeeds_of_not_mem hnl]
  | line content ending rest hended ih =>
    have hinside := Lexer.insideAfter_run (.start inComment) content
    rw [Lexer.inComment_start] at hinside
    rw [locatedFrom_line hended, List.map_append, map_token_locate, ih]
    simp only [codeFrom, lineFeeds_line hended, tokenize, Lexer.run_newline, dropComments_append,
      List.filter_append, hinside]
    congr 1
    cases (Lexer.run (.start inComment) content).2 <;> rfl

private theorem locate_plain {c : Char} (hc : Lexer.isPlain c) {inComment : Bool} {a : Text}
    (hnl : '\n' ∉ a) (ha : a.endsInCode inComment) (start : Nat) (b : Text) :
    locate inComment start (tokenize inComment (a ++ c :: b)).1 =
        locate inComment start (tokenize inComment a).1 ++ ⟨start + byteLength a, .delimiter c⟩ ::
          locate false (start + byteLength a + 1) (tokenize false b).1 ∧
      (tokenize inComment (a ++ c :: b)).2 = (tokenize false b).2 := by
  rw [endsInCode, lineFeeds_of_not_mem hnl, Lexer.Mode.inCode, Bool.and_eq_true,
    Bool.not_eq_true', Bool.not_eq_true'] at ha
  have hin : (Lexer.run (.start inComment) a).2 = false := by rw [Lexer.run_eq_read]; exact ha.2
  have hinside := Lexer.insideAfter_run (.start inComment) a
  rw [Lexer.inComment_start, hin] at hinside
  have hone : byteLength [c] = 1 := by simp [(Lexer.isPlain_ne hc).2.2.2]
  rw [tokenize, Lexer.run_plain ha.1 hc, hin]
  refine ⟨?_, rfl⟩
  rw [locate_append, hinside, Lexer.concat_run, Lexer.finish_start, Token.concat_nil, List.nil_append]
  refine congrArg (List.append _) (congrArg (List.cons _) ?_)
  change locate false (start + byteLength a + byteLength [c]) _ = _
  rw [hone]
  rfl

/-- The located tokens around a plain delimiter in code are those of the two texts. -/
theorem locatedFrom_plain {c : Char} (hc : Lexer.isPlain c) {inComment : Bool} {a : Text}
    (ha : a.endsInCode inComment) (start : Nat) (b : Text) :
    (a ++ c :: b).locatedFrom inComment start =
      a.locatedFrom inComment start ++ ⟨start + byteLength a, .delimiter c⟩ ::
        b.locatedFrom false (start + byteLength a + 1) := by
  obtain ⟨hn, hr, -, hone⟩ := Lexer.isPlain_ne hc
  induction a using Text.line_induction generalizing inComment start with
  | last content hnl =>
    have hcut := locate_plain hc hnl ha start
    -- The line of the delimiter goes on to the end of the first line of the text after it.
    induction b using Text.line_induction with
    | last b hb =>
      have hline : '\n' ∉ content ++ c :: b := by simp [hnl, hb, hn.symm]
      rw [locatedFrom_last hline, locatedFrom_last hnl, locatedFrom_last hb, (hcut b).1]
    | line b ending rest hended _ =>
      have hline : Line.Ended (content ++ c :: b) ending := by
        refine ⟨by simp [hnl, hended.no_newline, hn.symm], hended.ending_ne, ?_⟩
        intro hlf hlast
        rw [List.getLast?_append, List.getLast?_cons] at hlast
        cases hb : b.getLast? with
        | none => simp [hb, hr] at hlast
        | some d => exact hended.no_return hlf (by simpa [hb] using hlast)
      have hassoc : content ++ c :: (b ++ ending.text ++ rest) =
          content ++ c :: b ++ ending.text ++ rest := by simp
      rw [hassoc, locatedFrom_line hline, locatedFrom_last hnl, locatedFrom_line hended, (hcut b).1,
        (hcut b).2, List.append_assoc, List.cons_append]
      congr 4
      simp only [byteLength_append, byteLength_cons, hone]
      omega
  | line content ending rest hended ih =>
    have ha' : rest.endsInCode (tokenize inComment content).2 := by
      rw [endsInCode, lineFeeds_line hended, Lexer.read_append, Lexer.read, Lexer.step_newline] at ha
      simpa [endsInCode, tokenize, Lexer.run_eq_read, Lexer.after] using ha
    rw [List.append_assoc _ rest, locatedFrom_line hended, locatedFrom_line hended, ih ha',
      List.append_assoc]
    simp only [byteLength_append, Nat.add_assoc]

/-- Where a plain delimiter is located in a text, the text divides there, and the offset is the length
of what stands before it. -/
theorem exists_cut_of_locatedFrom {inComment : Bool} {t : Text} {start : Nat} {c : Char}
    {before rest : List Located} {located : Located} (hc : Lexer.isPlain c)
    (h : t.locatedFrom inComment start = before ++ located :: rest)
    (htoken : located.token = .delimiter c) :
    ∃ a b : Text, t = a ++ c :: b ∧ a.endsInCode inComment ∧
      located.offset = start + byteLength a ∧ before = a.locatedFrom inComment start ∧
      rest = b.locatedFrom false (start + byteLength a + 1) := by
  have htokens := map_token_locatedFrom inComment start t
  rw [h, List.map_append, List.map_cons, htoken] at htokens
  obtain ⟨xs, ys, hcode, hxs, hys⟩ := List.filter_eq_append_iff.mp htokens.symm
  obtain ⟨us, vs, rfl, hus, -, hvs⟩ := List.filter_eq_cons_iff.mp hys
  rw [← List.append_assoc] at hcode
  obtain ⟨a, b, rfl, ha, hbefore, -⟩ := exists_cut_of_codeFrom hc hcode
  have hlength : before.length = (a.locatedFrom inComment start).length := by
    have hmap := congrArg List.length (map_token_locatedFrom inComment start a)
    have hnone : us.filter Token.isSolid = [] := List.filter_eq_nil_iff.mpr hus
    have hsome := congrArg List.length hxs
    rw [hbefore, List.filter_append, hnone, List.append_nil] at hmap
    simp only [List.length_map] at hmap hsome
    omega
  rw [locatedFrom_plain hc ha] at h
  obtain ⟨hfront, hback⟩ := List.append_inj h hlength.symm
  obtain ⟨rfl, hrest⟩ := List.cons.inj hback
  exact ⟨a, b, rfl, ha, rfl, hfront.symm, hrest.symm⟩

end Text
end OutOfLine

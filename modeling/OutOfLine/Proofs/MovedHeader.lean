import OutOfLine.Proofs.PlanSafety
import OutOfLine.Proofs.KeptDeclaration

/-!
# The header that a move leaves behind

A move keeps the text before the body, or before the colon of the initializers, without its last blanks,
and puts a semicolon behind it. The header then holds the declaration exactly when that cut was clean: the
kept text ends in code and outside groups, the reader ends its source where the text was cut, and no
`const` was joined with the blanks. A line comment at the end of the kept text hides the semicolon, and
the lines that follow decide.
-/

namespace OutOfLine

namespace Text

/-- The colons of the code before an initializer list open none. -/
theorem ListCut.opensAt_eq_false {t head tail : Text} (h : ListCut t head tail) {sig more : List Token}
    (hcode : head.codeFrom false = sig ++ .delimiter ':' :: more) :
    Signature.opensAt (Parens.after {} sig) sig.reverse (.delimiter ':') (more ++ [.delimiter ':']) = false := by
  obtain ⟨a, b, hab, ha, rfl, rfl⟩ := exists_cut_of_codeFrom rfl hcode
  rw [Bool.eq_false_iff]
  intro hopens
  simp only [Signature.opensAt, Bool.and_eq_true, decide_eq_true_eq] at hopens
  obtain ⟨⟨⟨⟨-, hdepth⟩, hclosed⟩, hbefore⟩, hafter⟩ := hopens
  refine h.first a b hab ⟨ha, hdepth, hclosed, fun hlast => hbefore ?_, fun hhead => hafter ?_⟩
  · obtain ⟨a', rfl⟩ := List.getLast?_eq_some_iff.mp hlast
    have hnil : codeFrom false [] = [] := rfl
    rw [codeFrom_plain rfl (endsInCode_of_plain rfl ha), hnil]
    simp
  · cases b with
    | nil => rfl
    | cons c b =>
      obtain rfl : c = ':' := by simpa using hhead
      rw [codeFrom_cons_plain rfl]
      rfl

end Text

namespace Declaration

/-- A cut behind which a semicolon ends the declaration: the kept text ends in code and outside groups,
the source ends at the cut, and no `const` is set free there. -/
structure CleanCut (d : Declaration) (before : Text) : Prop where
  inCode : before.trimEnd.endsInCode false
  atTop : (Draft.readAll (before.trimEnd.codeFrom false)).stage.atTop
  source : d.SourceEndsAt (Token.concat (before.codeFrom false))
  not_glued : ¬ Draft.Glued (before.trimEnd.codeFrom false) (before.codeFrom false)

/-- A cut behind a line comment, which hides the semicolon: if the source ends there, the lines after the
body have to bring another one, and otherwise they have to complete the source. -/
structure CommentCut (d : Declaration) (before tail : Text) : Prop where
  inLineComment : before.trimEnd.endsInLineComment
  semicolon : d.SourceEndsAt (Token.concat (before.codeFrom false)) →
    (Draft.readAll (before.trimEnd.codeFrom false)).stage.atTop ∧
      ∃ z more, (∀ t ∈ z, t.isBlank) ∧
        Text.codeFrom false (tail.dropWhile (· ≠ '\n')) = z ++ .delimiter ';' :: more
  completed : ¬ d.SourceEndsAt (Token.concat (before.codeFrom false)) →
    d.CompletedBy (before.trimEnd.codeFrom false) (Text.codeFrom false (tail.dropWhile (· ≠ '\n')))

section Header

variable {d e : Declaration} {before tail : Text} {c : Char} {us : List Token}

theorem trimEnd_getLast?_ne (t : Text) : t.trimEnd.getLast? ≠ some '\r' := by
  obtain ⟨_, -, -, hlast⟩ := Text.exists_trimEnd t
  exact fun hr => hlast '\r' hr (by decide)

theorem keeps_iff_cleanCut (hcut : d.CutAt (before.codeFrom false) c us)
    (he : e = .ofTokens ((before.trimEnd ++ ';' :: tail).codeFrom false))
    (hkept : before.trimEnd.endsInCode false) : d.Keeps e ↔ d.CleanCut before := by
  obtain ⟨w, hw, hblank, -⟩ := Text.exists_trimEnd before
  obtain ⟨front, word, b, rest, hb, hrest, hkeptCode, hcode⟩ :=
    Text.exists_codeFrom_blank hkept (trimEnd_getLast?_ne before) hblank
  rw [← hw, List.append_assoc] at hcode
  have hlexed := Text.isLexed_codeFrom false (before.trimEnd ++ ';' :: tail)
  rw [Text.codeFrom_plain rfl hkept, hkeptCode, List.append_assoc] at he hlexed
  rw [hcode] at hcut
  constructor
  · intro h
    obtain ⟨htop, hsource⟩ := Draft.clean_of_keeps hb hrest hcut he h hlexed
    have hglued := (Draft.keeps_iff_not_glued hb hrest hcut he htop hsource).mp h
    rw [← hcode] at hsource hglued
    rw [← hkeptCode] at htop hglued
    exact ⟨hkept, htop, hsource, hglued⟩
  · rintro ⟨-, htop, hsource, hglued⟩
    rw [hcode] at hsource hglued
    rw [hkeptCode] at htop hglued
    exact (Draft.keeps_iff_not_glued hb hrest hcut he htop hsource).mpr hglued

theorem keeps_iff_commentCut (hcut : d.CutAt (before.codeFrom false) c us)
    (he : e = .ofTokens ((before.trimEnd ++ ';' :: tail).codeFrom false))
    (hkept : before.trimEnd.endsInLineComment) : d.Keeps e ↔ d.CommentCut before tail := by
  obtain ⟨w, hw, hblank, -⟩ := Text.exists_trimEnd before
  have hcode : (before.trimEnd ++ w).codeFrom false =
      before.trimEnd.codeFrom false ++ Text.codeFrom false (w.dropWhile (· ≠ '\n')) :=
    Text.codeFrom_lineComment hkept (.inl (trimEnd_getLast?_ne before))
  rw [← hw] at hcode
  have hxs : ∀ t ∈ Text.codeFrom false (w.dropWhile (· ≠ '\n')), t.isBlank :=
    Text.isBlank_codeFrom fun c hc => hblank c ((List.dropWhile_sublist _).mem hc)
  have hlexed := Text.isLexed_codeFrom false (before.trimEnd ++ ';' :: tail)
  have hheader : (before.trimEnd ++ ';' :: tail).codeFrom false =
      before.trimEnd.codeFrom false ++ Text.codeFrom false (tail.dropWhile (· ≠ '\n')) := by
    rw [Text.codeFrom_lineComment hkept (.inr (by simp)), List.dropWhile_cons_of_pos (by simp)]
  rw [hheader] at he hlexed
  rw [hcode] at hcut
  have hparted := Text.lastParted_of_endsInLineComment hkept
  -- Before an `=` the header is in code, so no literal is open there.
  have hassign (z more : List Token)
      (hz : Text.codeFrom false (tail.dropWhile (· ≠ '\n')) = z ++ .delimiter '=' :: more) :
      Lexer.LastParted (before.trimEnd.codeFrom false ++ z) := by
    rw [hz, ← List.append_assoc] at hheader
    obtain ⟨a, b, -, ha, hcode, -⟩ := Text.exists_cut_of_codeFrom rfl hheader
    rw [← hcode]
    exact Text.lastParted_of_endsInCode ha
  have hcompleted := Draft.keeps_iff_completedBy hcut he hlexed hassign
  constructor
  · intro h
    refine ⟨hkept, fun hsource => ?_, fun _ => hcompleted.mp h⟩
    rw [hcode] at hsource
    exact (Draft.keeps_iff_semicolon hxs hcut he hlexed hparted hsource).mp h
  · rintro ⟨-, hsemicolon, hfollowing⟩
    by_cases hsource : d.SourceEndsAt (Token.concat (before.codeFrom false))
    · have hnext := hsemicolon hsource
      rw [hcode] at hsource
      exact (Draft.keeps_iff_semicolon hxs hcut he hlexed hparted hsource).mpr hnext
    · exact hcompleted.mpr (hfollowing hsource)

end Header

end Declaration

namespace Site

namespace MoveCut

variable {site : Site} {front before list block tail : Text}

theorem before_inCode (h : MoveCut site front before list block tail) : before.endsInCode false := by
  have hlist := h.list_eq
  cases hinit : (Declaration.parseAt site.active site.line).initializers with
  | none =>
    simp only [hinit] at hlist
    have hcode := h.body.head_inCode
    rwa [hlist, List.append_nil] at hcode
  | some l =>
    simp only [hinit] at hlist
    obtain ⟨_, -, hcut⟩ := hlist
    exact hcut.colon.inCode

/-- The code of the declaration is cut where its text is. -/
theorem exists_cutAt (h : MoveCut site front before list block tail)
    (hvalid : (Declaration.parseAt site.active site.line).valid)
    (hbody : (Declaration.parseAt site.active site.line).hasBody) :
    ∃ c us, (Declaration.parseAt site.active site.line).CutAt (before.codeFrom false) c us := by
  have hlexed := Text.isLexed_codeFrom false (before ++ list ++ '{' :: (block ++ '}' :: tail))
  have hparse := h.parseAt_eq
  have hlist := h.list_eq
  cases hinit : (Declaration.parseAt site.active site.line).initializers with
  | none =>
    simp only [hinit] at hlist
    rw [hlist, List.append_nil, Text.codeFrom_plain rfl h.before_inCode] at hparse hlexed
    exact ⟨'{', _, hparse, hvalid, hbody, by rw [hinit]; rfl, by simp, hlexed⟩
  | some l =>
    simp only [hinit] at hlist
    obtain ⟨m, rfl, hcut⟩ := hlist
    rw [List.append_assoc, List.cons_append, Text.codeFrom_plain rfl h.before_inCode] at hparse hlexed
    exact ⟨':', _, hparse, hvalid, hbody, by rw [hinit]; rfl,
      fun _ sig more hcode => hcut.opensAt_eq_false hcode, hlexed⟩

theorem parseAt_header (h : MoveCut site front before list block tail) (rest : Text) :
    Declaration.parseAt ⟨front ++ rest⟩ site.line = .ofTokens (rest.codeFrom false) := by
  rw [Declaration.parseAt, h.linesFrom_eq, codeOfLines_linesAt]

/-- The header keeps the declaration at a clean cut, or if the lines that follow a comment complete it. -/
theorem keeps_iff (h : MoveCut site front before list block tail)
    (hvalid : (Declaration.parseAt site.active site.line).valid)
    (hbody : (Declaration.parseAt site.active site.line).hasBody) :
    (Declaration.parseAt site.active site.line).Keeps
        (.parseAt ⟨front ++ (before.trimEnd ++ ';' :: tail)⟩ site.line) ↔
      (Declaration.parseAt site.active site.line).CleanCut before ∨
        (Declaration.parseAt site.active site.line).CommentCut before tail := by
  obtain ⟨c, us, hcut⟩ := h.exists_cutAt hvalid hbody
  obtain ⟨w, hw, hblank, -⟩ := Text.exists_trimEnd before
  have he := h.parseAt_header (before.trimEnd ++ ';' :: tail)
  constructor
  · intro hkeeps
    have hinCode := h.before_inCode
    rw [hw] at hinCode
    rcases Text.trimmed_cases hblank (Declaration.trimEnd_getLast?_ne before) hinCode with
      hkept | hkept | ⟨fore, text, v, rest, hv, hrest, hcode, hliteral⟩
    · exact .inl ((Declaration.keeps_iff_cleanCut hcut he hkept).mp hkeeps)
    · exact .inr ((Declaration.keeps_iff_commentCut hcut he hkept).mp hkeeps)
    · obtain ⟨v', rest', hheader⟩ := hliteral tail
      have hlexed := Text.isLexed_codeFrom false (before.trimEnd ++ ';' :: tail)
      rw [← hw] at hcode
      rw [hcode] at hcut
      rw [hheader] at he hlexed
      exact absurd hkeeps (Draft.not_keeps_of_literal hv hrest hcut he hlexed)
  · rintro (hclean | hcomment)
    · exact (Declaration.keeps_iff_cleanCut hcut he hclean.inCode).mpr hclean
    · exact (Declaration.keeps_iff_commentCut hcut he hcomment.inLineComment).mpr hcomment

end MoveCut

/-- The plan that moves a body away leaves a header that keeps the declaration exactly at a clean cut, or
where the lines that follow a comment complete it. -/
theorem movedHeader_keeps_iff {site : Site} {counterpart : Document} {plan : Plan}
    (h : (site.moveImplementation counterpart).value = some plan) :
    ∃ front before list block tail, MoveCut site front before list block tail ∧
      plan.applyTo .active site.active.text = some (front ++ (before.trimEnd ++ ';' :: tail)) ∧
      ((Declaration.parseAt site.active site.line).Keeps
          (.parseAt ⟨front ++ (before.trimEnd ++ ';' :: tail)⟩ site.line) ↔
        (Declaration.parseAt site.active site.line).CleanCut before ∨
          (Declaration.parseAt site.active site.line).CommentCut before tail) := by
  obtain ⟨start, stop, cut, body, definition, hvalid, hbody, hrange, hcut, -, hedits⟩ :=
    exists_of_moveImplementation h
  obtain ⟨front, before, list, block, tail, hmove, hstart, hstop, hend⟩ := exists_moveCut hrange hcut
  obtain ⟨part, hedit, -⟩ := hmove.replaces hvalid hstart hstop hend
  have hone : editsOf .active plan.edits = [⟨.active, cut, stop, [';']⟩] := by
    simp [editsOf, hedits, insertion]
  refine ⟨front, before, list, block, tail, hmove, ?_, hmove.keeps_iff hvalid hbody⟩
  rw [Plan.applyTo, applyEdits_of_editsOf hone, hedit.applyTo_eq]
  simp

theorem movedHeader_constructorSite :
    (constructorSite.moveImplementation ⟨"struct A;\n".toList⟩).value = some constructorPlan ∧
      ∃ front before list block tail, MoveCut constructorSite front before list block tail ∧
        (Declaration.parseAt constructorSite.active 1).Keeps
          (.parseAt ⟨front ++ (before.trimEnd ++ ';' :: tail)⟩ 1) ∧
        ((Declaration.parseAt constructorSite.active 1).CleanCut before ∨
          (Declaration.parseAt constructorSite.active 1).CommentCut before tail) := by
  have hplan : (constructorSite.moveImplementation ⟨"struct A;\n".toList⟩).value = some constructorPlan := by
    decide +kernel
  have happly : constructorPlan.applyTo .active constructorSite.active.text =
      some "struct A \x7b\r\n  A(int x);\r\n\x7d;\r\n".toList := by decide +kernel
  obtain ⟨front, before, list, block, tail, hmove, hheader, hiff⟩ := movedHeader_keeps_iff hplan
  have hkeeps : (Declaration.parseAt constructorSite.active 1).Keeps
      (.parseAt ⟨"struct A \x7b\r\n  A(int x);\r\n\x7d;\r\n".toList⟩ 1) := by
    decide +kernel
  rw [happly, Option.some.injEq] at hheader
  rw [hheader] at hkeeps
  exact ⟨hplan, front, before, list, block, tail, hmove, hkeeps, hiff.mp hkeeps⟩

/-- A function whose signature is followed by a line comment. -/
def commentSite : Site where
  role := .header
  active := ⟨"int f() // c\n\x7b return 1; \x7d\n".toList⟩
  line := 0
  counterpart := some ⟨[]⟩
  counterpartName := "a.cpp".toList
  config := {}

theorem not_keeps_commentSite : ∃ plan header,
    (commentSite.moveImplementation ⟨[]⟩).value = some plan ∧
      plan.applyTo .active commentSite.active.text = some header ∧
      header = "int f() // c;\n".toList ∧
      (Declaration.parseAt commentSite.active 0).valid ∧
      ¬ (Declaration.parseAt commentSite.active 0).Keeps (.parseAt ⟨header⟩ 0) := by
  refine ⟨⟨.moveImplementationToSource, "Move implementation to a.cpp".toList,
    [⟨.active, 12, 26, [';']⟩, ⟨.counterpart, 0, 0, "\n\nint f()\n\x7b return 1; \x7d\n".toList⟩]⟩,
    "int f() // c;\n".toList, by decide +kernel, by decide +kernel, rfl, by decide +kernel,
    by decide +kernel⟩

end Site
end OutOfLine

import OutOfLine.Proofs.JoinedLines
import OutOfLine.Proofs.KeptDeclaration
import OutOfLine.Proofs.PlanSafety
import OutOfLine.Proofs.TokenShapes

/-!
# What is offered at a line

A plan can be asked for by its intent, or found among all plans of a line; both ways lead to the same plans. An
empty definition is written for a statement that ends in a semicolon, and an implementation is moved out of a
declaration with a body. Where all literals are closed, that semicolon ended the declaration, so that the lines
after the statement cannot add a body to it: at most one of the two is offered.
-/

namespace OutOfLine

namespace Draft

/-- A valid record was read to its end, unless all tokens went to its source. -/
theorem done_or_atTop_of_valid {ts : List Token} (h : (Declaration.ofTokens ts).valid) :
    (readAll ts).stage = .done ∨
      (readAll ts).stage.atTop ∧ (Declaration.ofTokens ts).sourceText = Token.concat ts := by
  obtain ⟨source, rest, signature, text, body, rfl, htop, -, hends, -, hrecord⟩ := exists_ends_of_valid h
  rw [hrecord]
  cases hends with
  | atEnd => exact .inr (by simpa using ⟨htop, rfl⟩)
  | semicolon rest =>
    refine .inl ?_
    rw [readAll_append, List.foldl_cons, feed_semicolon htop, foldl_feed_done rfl]
  | assign rest =>
    refine .inl ?_
    rw [readAll_append, List.foldl_cons, feed_assign htop, foldl_feed_done rfl]
  | body block rest hblock =>
    refine .inl ?_
    rw [readAll_append, foldl_feed_block htop hblock]

end Draft

/-- Where all literals are closed, a valid record whose source ends in a semicolon was read to its end. -/
theorem Text.done_of_semicolon {t : Text} (hclosed : ∀ token ∈ t.code, token.isClosed)
    (hvalid : (Declaration.parse t).valid) (hlast : (Declaration.parse t).sourceText.getLast? = some ';') :
    (Draft.readAll t.code).stage = .done := by
  refine (Draft.done_or_atTop_of_valid hvalid).resolve_right fun ⟨htop, hsource⟩ => ?_
  have hsource : (Declaration.parse t).sourceText = Token.concat t.code := hsource
  rw [hsource] at hlast
  have hlexed : Lexed t.code := fun token htoken =>
    Lexer.isLexed_run (by simp) t token (mem_of_mem_dropComments htoken)
  refine Draft.getLast?_concat_ne htop hlexed (fun token htoken => ?_) hlast
  have hmem : token ∈ t.code := List.mem_of_getLast? htoken
  refine Token.eq_semicolon_of_getLast? (shaped_tokenize false t token (mem_of_mem_dropComments hmem))
    (hclosed token hmem) ?_
  rintro text rfl
  exact lineComment_not_mem_dropComments false text _ hmem

namespace Document

/-- The code of a document from a line on starts with that of the statement at the line. -/
theorem exists_code_statementAt (doc : Document) (i bound : Nat) :
    ∃ rest, (codeOfLines false (doc.linesFrom i)).map Placed.token = (doc.statementAt i bound).code ++ rest := by
  rcases Nat.eq_zero_or_pos bound with rfl | hbound
  · exact ⟨_, rfl⟩
  rcases eq_or_ne (doc.linesFrom i) [] with hnil | hne
  · have hempty : doc.statementAt i bound = [] := by
      obtain ⟨n, rfl⟩ : ∃ n, bound = n + 1 := ⟨bound - 1, by omega⟩
      rw [statementAt, hnil]
      rfl
    exact ⟨_, by rw [hempty]; rfl⟩
  · obtain ⟨count, hcount, -, hle, hgather⟩ := Statement.exists_gather_eq_take hbound hne false 0 true
    have hlen : (doc.linesFrom i).length = doc.lineCount - i := List.length_drop
    have hpos := List.length_pos_iff.mpr hne
    obtain ⟨rest, hrest, -⟩ := doc.exists_code_joinedLines hcount (i := i) (by omega)
    exact ⟨rest, by rw [hrest, statementAt, hgather, joinedLines]⟩

/-- Whether all literals from a line on are closed. -/
def closedFrom (doc : Document) (i : Nat) : Bool :=
  (codeOfLines false (doc.linesFrom i)).all fun placed => placed.token.isClosed

theorem isClosed_of_mem_statementAt {doc : Document} {i bound : Nat} (h : doc.closedFrom i) {token : Token}
    (htoken : token ∈ (doc.statementAt i bound).code) : token.isClosed := by
  obtain ⟨rest, hcode⟩ := doc.exists_code_statementAt i bound
  have hmem : token ∈ (codeOfLines false (doc.linesFrom i)).map Placed.token :=
    hcode ▸ List.mem_append_left _ htoken
  obtain ⟨placed, hplaced, rfl⟩ := List.mem_map.mp hmem
  exact List.all_eq_true.mp h placed hplaced

end Document

namespace Site

variable {site : Site} {counterpart : Document} {intent : Intent} {plan : Plan}

theorem intent_of_handle (h : (site.handle counterpart intent).value = some plan) : plan.intent = intent := by
  cases intent with
  | declareInSource =>
    obtain ⟨-, -, -, rfl⟩ := declareInSource_eq_some_iff.mp h
    rfl
  | moveImplementationToSource =>
    obtain ⟨-, -, _, _, _, _, -, -, -, rfl⟩ := moveImplementation_eq_some_iff.mp h
    rfl

/-- Both intents read the same record where an empty definition can be written. -/
theorem declaration_eq_of_semicolon (hclosed : site.active.closedFrom site.line)
    (hvalid : (site.declaration .declareInSource).valid)
    (hlast : (site.declaration .declareInSource).sourceText.getLast? = some ';') :
    site.declaration .declareInSource = site.declaration .moveImplementationToSource := by
  obtain ⟨rest, hcode⟩ := site.active.exists_code_statementAt site.line site.config.maxStatementLines
  have hdone := Text.done_of_semicolon (fun _ => Document.isClosed_of_mem_statementAt hclosed) hvalid hlast
  rw [declaration, declaration, Declaration.parse, Declaration.parseAt, hcode, Declaration.ofTokens,
    Declaration.ofTokens, List.foldl_append]
  exact congrArg Draft.finish (Draft.foldl_feed_done hdone rest).symm

/-- Where all literals are closed, no line has both plans. -/
theorem handle_exclusive {declare move : Plan} (hclosed : site.active.closedFrom site.line)
    (hdeclare : (site.handle counterpart .declareInSource).value = some declare) :
    (site.handle counterpart .moveImplementationToSource).value ≠ some move := by
  intro hmove
  obtain ⟨hadmits, hbody, hlast, -⟩ := declareInSource_eq_some_iff.mp hdeclare
  obtain ⟨-, hhas, -⟩ := moveImplementation_eq_some_iff.mp hmove
  rw [← declaration_eq_of_semicolon hclosed hadmits.valid hlast, hbody] at hhas
  exact Bool.false_ne_true hhas

/-- The plan of an intent is the plan with that intent among all plans of the line. Where all literals from
the line on are closed, a line has at most one plan. -/
theorem plan?_iff_mem_available (site : Site) :
    (∀ intent plan, (site.plan? intent).value = .ok plan ↔
      plan ∈ site.available.value ∧ plan.intent = intent) ∧
    (site.active.closedFrom site.line → site.available.value.length ≤ 1 ∧
      ¬ ∃ declare move, (site.plan? .declareInSource).value = .ok declare ∧
        (site.plan? .moveImplementationToSource).value = .ok move) := by
  have hiff (intent : Intent) (plan : Plan) : (site.plan? intent).value = .ok plan ↔
      plan ∈ site.available.value ∧ plan.intent = intent := by
    rw [plan?_eq_ok_iff, mem_available_iff]
    constructor
    · rintro ⟨counterpart, hcounterpart, hrole, hplan⟩
      exact ⟨⟨counterpart, hcounterpart, intent, hrole, hplan⟩, intent_of_handle hplan⟩
    · rintro ⟨⟨counterpart, hcounterpart, other, hrole, hplan⟩, rfl⟩
      rw [intent_of_handle hplan]
      exact ⟨counterpart, hcounterpart, hrole, hplan⟩
  refine ⟨hiff, fun hclosed => ⟨?_, ?_⟩⟩
  · cases hcounterpart : site.counterpart with
    | none => simp [available, hcounterpart]
    | some counterpart =>
      rw [available_eq hcounterpart]
      refine (List.filter_sublist.filterMap _).length_le.trans ?_
      simp only [Intent.all, List.filterMap_cons, List.filterMap_nil]
      cases hdeclare : (site.handle counterpart .declareInSource).value with
      | none => cases (site.handle counterpart .moveImplementationToSource).value <;> simp
      | some declare =>
        cases hmove : (site.handle counterpart .moveImplementationToSource).value with
        | none => simp
        | some move => exact absurd hmove (handle_exclusive hclosed hdeclare)
  · rintro ⟨declare, move, hdeclare, hmove⟩
    obtain ⟨counterpart, hcounterpart, -, hdeclare⟩ := plan?_eq_ok_iff.mp hdeclare
    obtain ⟨other, hother, -, hmove⟩ := plan?_eq_ok_iff.mp hmove
    obtain rfl := Option.some.inj (hcounterpart.symm.trans hother)
    exact handle_exclusive hclosed hdeclare hmove

/-- A constructor with quotes in its parameters and in a comment; its body is on the next line. -/
def quotedSite : Site where
  role := .header
  active := ⟨"class A \x7b\n  A(char q = '\"', text s = \"a\\\";\") : q(q) // \"\n  \x7b s; \x7d\n\x7d;".toList⟩
  line := 1
  counterpart := some ⟨[]⟩
  counterpartName := "a.cpp".toList
  config := {}

theorem available_quotedSite : quotedSite.active.closedFrom quotedSite.line ∧
    quotedSite.available.value.map Plan.intent = [.moveImplementationToSource] ∧
    quotedSite.available.value.length ≤ 1 ∧
    ¬ ∃ declare move, (quotedSite.plan? .declareInSource).value = .ok declare ∧
      (quotedSite.plan? .moveImplementationToSource).value = .ok move := by
  have hclosed : quotedSite.active.closedFrom quotedSite.line := by decide +kernel
  exact ⟨hclosed, by decide +kernel, (plan?_iff_mem_available quotedSite).2 hclosed⟩

-- An open quote ends with its line: the statement of that one line ends in a semicolon, while the declaration
-- goes on to a body.
example : (Site.mk .header ⟨"int f() const \";\n\x7b \x7d".toList⟩ 0 (some ⟨[]⟩) []
    { maxStatementLines := 1 }).available.value.map Plan.intent =
      [.declareInSource, .moveImplementationToSource] := by decide +kernel

end Site
end OutOfLine

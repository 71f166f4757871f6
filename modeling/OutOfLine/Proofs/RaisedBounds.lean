import OutOfLine.Proofs.OfferedIntents

/-!
# Raised bounds on statements

The bound on the lines of a statement only cuts it off: where a statement ends by itself, the bound has no
part in it. A cut statement can still hold a declaration that is complete. Where all literals are closed, the
semicolon behind that declaration is the end of what is read, so the lines that a higher bound adds do not
change the plan.
-/

namespace OutOfLine

namespace Statement

/-- Whether a statement ends with a line, and how it goes on, is decided without its bound. -/
theorem gather_cons (inComment : Bool) (depth : Int) (first : Bool) (line : Line) (rest : List Line) :
    (∀ bound, gather inComment depth first (bound + 1) (line :: rest) = [line.content]) ∨
    ∃ inComment' depth', ∀ bound, gather inComment depth first (bound + 1) (line :: rest) =
      line.content :: gather inComment' depth' false bound rest := by
  simp only [gather]
  split
  · exact .inl fun _ => rfl
  · exact .inr ⟨_, _, fun _ => rfl⟩

/-- A statement is made up of the first lines, as far as its bound allows. -/
theorem gather_isPrefix_contents (inComment : Bool) (depth : Int) (first : Bool) (bound : Nat) (lines : List Line) :
    gather inComment depth first bound lines <+: (lines.take bound).map Line.content := by
  by_cases hsome : 1 ≤ bound ∧ lines ≠ []
  · obtain ⟨k, -, hk, -, hgather⟩ := exists_gather_eq_take hsome.1 hsome.2 inComment depth first
    rw [hgather]
    exact (List.take_prefix_take_left hk).map _
  · have hnil : gather inComment depth first bound lines = [] := by
      match bound, lines with
      | 0, _ => rw [gather]
      | bound + 1, [] => rw [gather]
      | bound + 1, line :: lines => simp at hsome
    rw [hnil]
    exact List.nil_prefix

/-- The bound only cuts a statement off. -/
theorem gather_eq_take (inComment : Bool) (depth : Int) (first : Bool) {m n : Nat} (h : m ≤ n)
    (lines : List Line) :
    gather inComment depth first m lines = (gather inComment depth first n lines).take m := by
  induction m generalizing inComment depth first n lines with
  | zero => rw [gather, List.take_zero]
  | succ m ih =>
    obtain ⟨n, rfl⟩ : ∃ k, n = k + 1 := ⟨n - 1, by omega⟩
    cases lines with
    | nil => simp [gather]
    | cons line rest =>
      rcases gather_cons inComment depth first line rest with hlast | ⟨inComment', depth', hmore⟩
      · simp [hlast]
      · rw [hmore, hmore, List.take_succ_cons, ih inComment' depth' false (Nat.le_of_succ_le_succ h) rest]

theorem gather_isPrefix (inComment : Bool) (depth : Int) (first : Bool) {m n : Nat} (h : m ≤ n)
    (lines : List Line) :
    gather inComment depth first m lines <+: gather inComment depth first n lines := by
  rw [gather_eq_take inComment depth first h]
  exact List.take_prefix ..

theorem gather_eq_of_length_lt (inComment : Bool) (depth : Int) (first : Bool) {m n : Nat} (h : m ≤ n)
    {lines : List Line} (hlt : (gather inComment depth first m lines).length < m) :
    gather inComment depth first m lines = gather inComment depth first n lines := by
  rw [gather_eq_take inComment depth first h] at hlt ⊢
  rw [List.length_take] at hlt
  exact List.take_of_length_le (by omega)

end Statement

namespace Text

theorem join_append (separator : Text) {a b : List Text} (ha : a ≠ []) (hb : b ≠ []) :
    join separator (a ++ b) = join separator a ++ separator ++ join separator b := by
  induction a with
  | nil => exact absurd rfl ha
  | cons part a ih =>
    rw [List.cons_append, join_cons_of_ne_nil _ _ (by simp [hb])]
    rcases eq_or_ne a [] with rfl | hne
    · rw [List.nil_append, join_singleton]
    · rw [ih hne, join_cons_of_ne_nil _ _ hne]
      simp only [List.append_assoc]

/-- Lines joined behind others do not change how those are lexed. -/
theorem code_join_isPrefix {a b : List Text} (h : a <+: b) : (join ['\n'] a).code <+: (join ['\n'] b).code := by
  obtain ⟨more, rfl⟩ := h
  rcases eq_or_ne a [] with rfl | ha
  · exact List.nil_prefix
  rcases eq_or_ne more [] with rfl | hmore
  · simp
  · rw [join_append _ ha hmore, List.append_assoc, List.singleton_append, code, code, dropComments_run_newline,
      dropComments_append, List.append_assoc]
    exact List.prefix_append _ _

end Text

namespace Document

/-- The contents of the lines that make up the statement at a line. -/
def statementLines (doc : Document) (i bound : Nat) : List Text :=
  Statement.gather false 0 true bound (doc.linesFrom i)

/-- A declaration that ends in a statement is the one of every longer statement. -/
theorem parse_statementAt_of_le {doc : Document} {i m n : Nat} (h : m ≤ n) (hclosed : doc.closedFrom i)
    (hvalid : (Declaration.parse (doc.statementAt i m)).valid)
    (hlast : (Declaration.parse (doc.statementAt i m)).sourceText.getLast? = some ';') :
    Declaration.parse (doc.statementAt i n) = .parse (doc.statementAt i m) := by
  have hdone := Text.done_of_semicolon (fun _ => isClosed_of_mem_statementAt hclosed) hvalid hlast
  obtain ⟨more, hcode⟩ : (doc.statementAt i m).code <+: (doc.statementAt i n).code :=
    Text.code_join_isPrefix (Statement.gather_isPrefix false 0 true h _)
  rw [Declaration.parse, Declaration.parse, ← hcode, Declaration.ofTokens, Declaration.ofTokens, List.foldl_append]
  exact congrArg Draft.finish (Draft.foldl_feed_done hdone more)

end Document

namespace Site

/-- The site with another bound on the lines of a statement. -/
def bounded (site : Site) (bound : Nat) : Site :=
  { site with config := { site.config with maxStatementLines := bound } }

/-- A statement joins the first lines, as far as its bound allows. A higher bound only adds lines to it, and
none if the statement did not reach its bound. Where all literals from the line on are closed, it leaves every
plan for an empty definition as it was. -/
theorem declareInSource_bounded (site : Site) (counterpart : Document) {m n : Nat} (h : m ≤ n) :
    (∀ bound, site.active.statementAt site.line bound =
        Text.join ['\n'] (site.active.statementLines site.line bound) ∧
      site.active.statementLines site.line bound <+:
        ((site.active.linesFrom site.line).take bound).map Line.content) ∧
    site.active.statementLines site.line m <+: site.active.statementLines site.line n ∧
    ((site.active.statementLines site.line m).length < m →
      site.active.statementAt site.line m = site.active.statementAt site.line n) ∧
    (site.active.closedFrom site.line → ∀ plan,
      ((site.bounded m).declareInSource counterpart).value = some plan →
        ((site.bounded n).declareInSource counterpart).value = some plan) := by
  refine ⟨fun bound => ⟨rfl, Statement.gather_isPrefix_contents false 0 true bound _⟩,
    Statement.gather_isPrefix false 0 true h _, fun hlt => ?_, fun hclosed plan hplan => ?_⟩
  · exact congrArg (Text.join ['\n']) (Statement.gather_eq_of_length_lt false 0 true h hlt)
  · obtain ⟨hadmits, hbody, hlast, rfl⟩ := declareInSource_eq_some_iff.mp hplan
    have hsame : (site.bounded n).declaration .declareInSource = (site.bounded m).declaration .declareInSource :=
      Document.parse_statementAt_of_le h hclosed hadmits.valid hlast
    refine declareInSource_eq_some_iff.mpr ⟨⟨hadmits.1, ?_⟩, ?_, ?_, ?_⟩
    · rw [hsame]
      exact hadmits.2
    · rw [hsame, hbody]
    · rw [hsame, hlast]
    · rw [definitionEdit, definitionEdit, hsame]
      rfl

/-- A declaration that ends on the first line of a statement, which goes on behind it and into another line. -/
def crowdedSite : Site where
  role := .header
  active := ⟨"struct A \x7b\n  int f(char c = ';') const; int g( /* ;\n */ int b);\n\x7d;".toList⟩
  line := 1
  counterpart := some ⟨[]⟩
  counterpartName := "a.cpp".toList
  config := {}

theorem declareInSource_crowdedSite :
    crowdedSite.active.closedFrom crowdedSite.line ∧
    crowdedSite.active.statementLines crowdedSite.line 1 ≠ crowdedSite.active.statementLines crowdedSite.line 32 ∧
    ∃ plan, ((crowdedSite.bounded 1).declareInSource ⟨[]⟩).value = some plan ∧
      ((crowdedSite.bounded 32).declareInSource ⟨[]⟩).value = some plan ∧
      plan.edits = [⟨.counterpart, 0, 0, "\n\nint A::f(char c) const\n\x7b\n    \n\x7d\n".toList⟩] := by
  have hclosed : crowdedSite.active.closedFrom crowdedSite.line := by decide +kernel
  have hedits : ((crowdedSite.bounded 1).declareInSource ⟨[]⟩).value.map Plan.edits =
      some [⟨.counterpart, 0, 0, "\n\nint A::f(char c) const\n\x7b\n    \n\x7d\n".toList⟩] := by decide +kernel
  obtain ⟨plan, hplan, hedits⟩ := Option.map_eq_some_iff.mp hedits
  have hraised := declareInSource_bounded crowdedSite ⟨[]⟩ (show 1 ≤ 32 by decide)
  exact ⟨hclosed, by decide +kernel, plan, hplan, hraised.2.2.2 hclosed plan hplan, hedits⟩

-- With an open quote the semicolon at the end of a cut statement need not end the declaration.
example : let site : Site := ⟨.header, ⟨"int f() const \";\n\x7b \x7d".toList⟩, 0, none, [], {}⟩
    ((site.bounded 1).declareInSource ⟨[]⟩).value.isSome ∧ ((site.bounded 2).declareInSource ⟨[]⟩).value = none := by
  decide +kernel

end Site
end OutOfLine

import OutOfLine.Proofs.PlanSafety

/-!
# Plans are relative to the line

What stands at a line is read off the text from the line on, and what a plan changes in the active file is
relative to the start of the line. So two documents with the same scopes around a line and the same text from
the line on have the same plans there, up to the place of that text.
-/

namespace OutOfLine

namespace Statement

theorem opening_congr {tokens others : List Located}
    (h : tokens.map Located.token = others.map Located.token) : opening tokens = opening others := by
  have hmap (l : List Located) : opening l = (l.map Located.token).foldl (fun depth token =>
      if token = .delimiter '{' then depth + 1 else if token = .delimiter '}' then depth - 1 else depth) 0 := by
    rw [List.foldl_map]
    rfl
  rw [hmap, hmap, h]

theorem canEnd_congr {tokens others : List Located}
    (h : tokens.map Located.token = others.map Located.token) : canEnd tokens = canEnd others := by
  have hmap (l : List Located) : canEnd l = (l.map Located.token).getLast?.any fun token =>
      token = .delimiter ';' || token = .delimiter '}' := by
    rw [List.getLast?_map, Option.any_map]
    rfl
  rw [hmap, hmap, h]

/-- The text of a statement depends on the contents of the lines only. -/
theorem gather_congr {lines others : List Line} (h : lines.map Line.content = others.map Line.content)
    (inComment : Bool) (depth : Int) (first : Bool) (bound : Nat) :
    gather inComment depth first bound lines = gather inComment depth first bound others := by
  induction bound generalizing inComment depth first lines others with
  | zero => rw [gather, gather]
  | succ bound ih =>
    cases lines with
    | nil =>
      obtain rfl : others = [] := by simpa using h.symm
      rfl
    | cons line lines =>
      cases others with
      | nil => simp at h
      | cons other others =>
        obtain ⟨hcontent, hrest⟩ := List.cons.inj h
        have htokens : (line.located inComment).1.map Located.token =
            (other.located inComment).1.map Located.token := by
          simp only [Line.located, map_token_locate, hcontent]
        have hempty : (line.located inComment).1.isEmpty = (other.located inComment).1.isEmpty := by
          rw [← List.isEmpty_map (f := Located.token), htokens, List.isEmpty_map]
        have hstate : (line.located inComment).2 = (other.located inComment).2 := by
          simp only [Line.located, hcontent]
        simp only [gather, hempty, opening_congr htokens, canEnd_congr htokens, hcontent, hstate, ih hrest]

end Statement

namespace Site

variable {site : Site} {counterpart : Document} {plan : Plan}

/-- The record at a line, read off the text from there on. -/
theorem declaration_of_linesFrom {number start : Nat} {rest : Text}
    (hlines : site.active.linesFrom site.line = rest.linesAt number start) :
    site.declaration .moveImplementationToSource = .ofTokens (rest.codeFrom false) := by
  rw [declaration, Declaration.parseAt, hlines, codeOfLines_linesAt]

/-- The signature ends before the brace of the body, or before the colon of the initializers. -/
theorem signatureEnd?_eq {d : Declaration} {front rest signature list block tail : Text} {number : Nat}
    (htext : site.active.text = front ++ rest)
    (hlines : site.active.linesFrom site.line = rest.linesAt number front.byteLength)
    (h : InlineBody d rest signature list block tail) :
    site.signatureEnd? d (front.byteLength + (signature ++ list).byteLength) =
      some (front ++ signature).trimEnd.byteLength := by
  have hsplit {a b : Text} (hrest : rest = a ++ b) :
      site.active.text.splitAtByte? (front.byteLength + a.byteLength) = some (front ++ a, b) := by
    rw [htext, hrest, ← Text.byteLength_append, ← List.append_assoc, Text.splitAtByte?_append]
  obtain ⟨hbody, hlist⟩ := h
  unfold signatureEnd?
  cases hinit : d.initializers with
  | none =>
    simp only [hinit] at hlist
    subst hlist
    rw [List.append_nil] at hbody ⊢
    simp [hsplit hbody.text_eq]
  | some l =>
    simp only [hinit] at hlist
    obtain ⟨l, rfl, hcut⟩ := hlist
    have hcolon : site.active.initializerStart site.line = some (front.byteLength + signature.byteLength) := by
      rw [Document.initializerStart_of_linesFrom hlines, Text.findInitializers_locatedFrom_iff]
      exact ⟨signature, _, hcut, rfl⟩
    simp [hcolon, hsplit hcut.text_eq]

/-- Trimming the signature does not reach into the lines above. -/
theorem trimEnd_of_inlineBody {front rest signature list block tail : Text}
    (h : InlineBody (.ofTokens (rest.codeFrom false)) rest signature list block tail)
    (hvalid : (Declaration.ofTokens (rest.codeFrom false)).valid) :
    (front ++ signature).trimEnd.byteLength = front.byteLength + signature.trimEnd.byteLength := by
  obtain ⟨c, hc, hblank⟩ := h.exists_not_blank hvalid
  rw [(Text.trimEnd_append_of_not_blank hc hblank).1, Text.byteLength_append]

/-- What is found of an inline body is a division of the text from the line on. -/
theorem exists_inlineBody_iff {front rest : Text} {number cut stop : Nat} {body : Text}
    (htext : site.active.text = front ++ rest)
    (hlines : site.active.linesFrom site.line = rest.linesAt number front.byteLength)
    (hvalid : (site.declaration .moveImplementationToSource).valid) :
    (∃ start, site.active.bodyRange site.line = some (start, stop) ∧
      site.signatureEnd? (site.declaration .moveImplementationToSource) start = some cut ∧
      site.active.text.slice? start stop = some body) ↔
    ∃ signature list block tail,
      InlineBody (site.declaration .moveImplementationToSource) rest signature list block tail ∧
        cut = front.byteLength + signature.trimEnd.byteLength ∧
        stop = front.byteLength + (signature ++ list).byteLength + block.byteLength + 2 ∧
        body = '{' :: (block ++ ['}']) := by
  have hrecord := declaration_of_linesFrom hlines
  constructor
  · rintro ⟨start, hrange, hcut, hbody⟩
    obtain ⟨front', signature, list, block, tail, hmove, hstart, hstop, hend⟩ :=
      exists_moveCut hrange hcut
    have hfront : front.byteLength = front'.byteLength :=
      (Document.lineStart_of_linesFrom hlines).symm.trans hmove.lineStart_eq
    obtain ⟨rfl, rfl⟩ := Text.append_inj_of_byteLength (htext.symm.trans hmove.text_eq) hfront
    have hinline : InlineBody (site.declaration .moveImplementationToSource) _ signature list block tail :=
      ⟨hmove.body, hmove.list_eq⟩
    refine ⟨signature, list, block, tail, hinline, ?_, ?_, ?_⟩
    · rw [hrecord] at hinline hvalid
      exact hend.trans (trimEnd_of_inlineBody hinline hvalid)
    · rw [hstop, hstart, Text.byteLength_append front]
    · rw [htext, hstop, hstart, Nat.add_assoc, ← List.append_assoc, Text.slice?_block] at hbody
      exact (Option.some.inj hbody).symm
  · rintro ⟨signature, list, block, tail, hinline, rfl, rfl, rfl⟩
    refine ⟨front.byteLength + (signature ++ list).byteLength, ?_, ?_, ?_⟩
    · rw [Document.bodyRange_of_linesFrom hlines, Text.findBody_locatedFrom_iff]
      exact ⟨_, block, tail, hinline.body, rfl, rfl⟩
    · rw [signatureEnd?_eq htext hlines hinline]
      rw [hrecord] at hinline hvalid
      rw [trimEnd_of_inlineBody hinline hvalid]
    · rw [htext, hinline.body.text_eq, ← Text.byteLength_append, ← List.append_assoc, Nat.add_assoc]
      exact Text.slice?_block _ _ _

/-- The plan that moves a body, read off the text from the line on. -/
theorem moveImplementation_iff {front rest : Text} {number : Nat}
    (htext : site.active.text = front ++ rest)
    (hlines : site.active.linesFrom site.line = rest.linesAt number front.byteLength) :
    (site.moveImplementation counterpart).value = some plan ↔
      site.Admits .moveImplementationToSource ∧
        (site.declaration .moveImplementationToSource).hasBody ∧
        ∃ signature list block tail,
          InlineBody (site.declaration .moveImplementationToSource) rest signature list block tail ∧
          plan = site.plan .moveImplementationToSource
            [⟨.active, front.byteLength + signature.trimEnd.byteLength,
                front.byteLength + (signature ++ list).byteLength + block.byteLength + 2, [';']⟩,
              site.definitionEdit counterpart .moveImplementationToSource
                (some ('{' :: (block ++ ['}'])))] := by
  rw [moveImplementation_eq_some_iff]
  refine and_congr_right fun hadmits => and_congr_right fun _ => ⟨?_, ?_⟩
  · rintro ⟨start, stop, cut, body, hrange, hcut, hslice, rfl⟩
    obtain ⟨signature, list, block, tail, hinline, rfl, rfl, rfl⟩ :=
      (exists_inlineBody_iff htext hlines hadmits.valid).mp ⟨start, hrange, hcut, hslice⟩
    exact ⟨signature, list, block, tail, hinline, rfl⟩
  · rintro ⟨signature, list, block, tail, hinline, rfl⟩
    obtain ⟨start, hrange, hcut, hslice⟩ := (exists_inlineBody_iff htext hlines hadmits.valid).mpr
      ⟨signature, list, block, tail, hinline, rfl, rfl, rfl⟩
    exact ⟨start, _, _, _, hrange, hcut, hslice, rfl⟩

end Site

/-- An edit of the active file so many bytes further on. -/
def Edit.shift (n : Nat) (edit : Edit) : Edit :=
  if edit.target = .active then { edit with start := edit.start + n, stop := edit.stop + n } else edit

def Plan.shift (n : Nat) (plan : Plan) : Plan := { plan with edits := plan.edits.map (Edit.shift n) }

namespace Document

/-- The text from a line on is the same in two documents, and stands so many bytes further on in the second. -/
def SameRest (i n : Nat) (doc doc' : Document) : Prop :=
  doc.linesFrom i = [] ∧ doc'.linesFrom i = [] ∨ ∃ front front' rest : Text,
    doc.text = front ++ rest ∧ doc'.text = front' ++ rest ∧
      front'.byteLength = front.byteLength + n ∧
      doc.linesFrom i = rest.linesAt (i + 1) front.byteLength ∧
      doc'.linesFrom i = rest.linesAt (i + 1) front'.byteLength

/-- Two documents that differ only before a line, around which both have the same scopes. -/
structure SameFrom (i n : Nat) (doc doc' : Document) : Prop where
  scopes_eq : doc'.scopeContext i = doc.scopeContext i
  rest : doc.SameRest i n doc'

end Document

namespace Site

section Shifted

variable {site : Site} {doc : Document} {n : Nat}

theorem contents_of_sameFrom (h : site.active.SameFrom site.line n doc) :
    (doc.linesFrom site.line).map Line.content = (site.active.linesFrom site.line).map Line.content := by
  rcases h.rest with ⟨hnil, hnil'⟩ | ⟨front, front', rest, -, -, -, hlines, hlines'⟩
  · rw [hnil, hnil']
  · rw [hlines, hlines', Text.map_content_linesAt]

theorem declaration_of_sameFrom (h : site.active.SameFrom site.line n doc) (intent : Intent) :
    ({ site with active := doc } : Site).declaration intent = site.declaration intent := by
  cases intent with
  | declareInSource =>
    simp only [declaration, Document.statementAt, Statement.gather_congr (contents_of_sameFrom h)]
  | moveImplementationToSource =>
    rcases h.rest with ⟨hnil, hnil'⟩ | ⟨front, front', rest, -, -, -, hlines, hlines'⟩
    · simp only [declaration, Declaration.parseAt, hnil, hnil']
    · rw [declaration_of_linesFrom hlines, @declaration_of_linesFrom { site with active := doc } _ _ _ hlines']

theorem admits_of_sameFrom (h : site.active.SameFrom site.line n doc) (intent : Intent) :
    ({ site with active := doc } : Site).Admits intent ↔ site.Admits intent := by
  simp only [Admits, inBlock, chain, h.scopes_eq, declaration_of_sameFrom h]

theorem definitionEdit_of_sameFrom (h : site.active.SameFrom site.line n doc) (counterpart : Document)
    (intent : Intent) (body : Option Text) :
    ({ site with active := doc } : Site).definitionEdit counterpart intent body =
      site.definitionEdit counterpart intent body := by
  simp only [definitionEdit, chain, h.scopes_eq, declaration_of_sameFrom h]

theorem declareInSource_of_sameFrom (h : site.active.SameFrom site.line n doc) (counterpart : Document) :
    (({ site with active := doc } : Site).declareInSource counterpart).value =
      (site.declareInSource counterpart).value.map (Plan.shift n) := by
  ext plan
  rw [Option.map_eq_some_iff]
  simp only [declareInSource_eq_some_iff, admits_of_sameFrom h, declaration_of_sameFrom h,
    definitionEdit_of_sameFrom h]
  constructor
  · rintro ⟨hadmits, hbody, hlast, rfl⟩
    exact ⟨_, ⟨hadmits, hbody, hlast, rfl⟩, rfl⟩
  · rintro ⟨_, ⟨hadmits, hbody, hlast, rfl⟩, rfl⟩
    exact ⟨hadmits, hbody, hlast, rfl⟩

theorem moveImplementation_of_sameFrom (h : site.active.SameFrom site.line n doc) (counterpart : Document) :
    (({ site with active := doc } : Site).moveImplementation counterpart).value =
      (site.moveImplementation counterpart).value.map (Plan.shift n) := by
  rcases h.rest with ⟨hnil, hnil'⟩ | ⟨front, front', rest, htext, htext', hlen, hlines, hlines'⟩
  · -- Past the end there is no body to find.
    have hnone {s : Site} (hs : s.active.linesFrom s.line = []) :
        (s.moveImplementation counterpart).value = none := by
      refine Option.eq_none_iff_forall_ne_some.mpr fun plan hplan => ?_
      obtain ⟨-, -, start, stop, -, -, hrange, -⟩ := moveImplementation_eq_some_iff.mp hplan
      simp [Document.bodyRange, hs, locateLines, Statement.findBody] at hrange
    rw [hnone hnil, hnone hnil']
    rfl
  · ext plan
    rw [Option.map_eq_some_iff, moveImplementation_iff htext' hlines']
    simp only [moveImplementation_iff htext hlines, admits_of_sameFrom h, declaration_of_sameFrom h,
      definitionEdit_of_sameFrom h, hlen]
    have hshift (signature list block : Text) (edit : Edit) (hedit : edit.target = .counterpart) :
        (site.plan .moveImplementationToSource
          [⟨.active, front.byteLength + signature.trimEnd.byteLength,
            front.byteLength + (signature ++ list).byteLength + block.byteLength + 2, [';']⟩, edit]).shift n =
        site.plan .moveImplementationToSource
          [⟨.active, front.byteLength + n + signature.trimEnd.byteLength,
            front.byteLength + n + (signature ++ list).byteLength + block.byteLength + 2, [';']⟩, edit] := by
      have hcut : front.byteLength + signature.trimEnd.byteLength + n =
          front.byteLength + n + signature.trimEnd.byteLength := by omega
      have hstop : front.byteLength + (signature ++ list).byteLength + block.byteLength + 2 + n =
          front.byteLength + n + (signature ++ list).byteLength + block.byteLength + 2 := by omega
      simp only [Site.plan, Plan.shift, List.map_cons, List.map_nil, Edit.shift, hedit, if_true,
        reduceCtorEq, if_false, hcut, hstop]
    constructor
    · rintro ⟨hadmits, hbody, signature, list, block, tail, hinline, rfl⟩
      exact ⟨_, ⟨hadmits, hbody, signature, list, block, tail, hinline, rfl⟩, hshift _ _ _ _ rfl⟩
    · rintro ⟨_, ⟨hadmits, hbody, signature, list, block, tail, hinline, rfl⟩, rfl⟩
      exact ⟨hadmits, hbody, signature, list, block, tail, hinline, hshift _ _ _ _ rfl⟩

theorem handle_of_sameFrom (h : site.active.SameFrom site.line n doc) (counterpart : Document)
    (intent : Intent) :
    (({ site with active := doc } : Site).handle counterpart intent).value =
      (site.handle counterpart intent).value.map (Plan.shift n) := by
  cases intent with
  | declareInSource => exact declareInSource_of_sameFrom h counterpart
  | moveImplementationToSource => exact moveImplementation_of_sameFrom h counterpart

/-- The plans at a line are those at the line of a document that differs only before it. -/
theorem available_of_sameFrom (h : site.active.SameFrom site.line n doc) :
    ({ site with active := doc } : Site).available.value = site.available.value.map (Plan.shift n) := by
  rcases Option.eq_none_or_eq_some site.counterpart with hnone | ⟨counterpart, hcounterpart⟩
  · simp [available, hnone]
  · rw [available_eq hcounterpart, @available_eq { site with active := doc } _ hcounterpart, List.map_filterMap]
    simp only [handle_of_sameFrom h]

theorem plan?_of_sameFrom (h : site.active.SameFrom site.line n doc) (intent : Intent) :
    (({ site with active := doc } : Site).plan? intent).value =
      (site.plan? intent).value.map (Plan.shift n) := by
  unfold plan?
  dsimp only
  split
  · rfl
  · split
    · rfl
    · next counterpart _ =>
      simp only [Logged.value_bind, handle_of_sameFrom h]
      cases (site.handle counterpart intent).value <;> rfl

end Shifted

end Site
end OutOfLine

import OutOfLine.Proofs.CommentedLines
import OutOfLine.Proofs.OfferedIntents
import OutOfLine.Proofs.Positions
import Mathlib.Data.List.Forall2

/-!
# Line endings do not matter

Two documents with the same contents line by line differ in their line endings only. Their offsets differ,
but the offsets of corresponding places have the same line and column. What reads contents gives equal
answers, and what gives offsets gives the same positions. This is shown for lines and tokens that agree in any
coordinates of their offsets, and then used with positions. The scopes around a line depend on less still: on the
contents of the lines above it.
-/

namespace OutOfLine

section Coordinates

variable {α : Type} {f g : Nat → α}

/-- A token at offsets with the same coordinates; so are the offsets one byte further on. -/
structure Located.SameAt (f g : Nat → α) (located other : Located) : Prop where
  token_eq : located.token = other.token
  offset_eq : f located.offset = g other.offset
  next_eq : f (located.offset + 1) = g (other.offset + 1)

/-- A line that is the same up to its ending; offsets of the same column have the same coordinates. -/
structure Line.SameAt (f g : Nat → α) (line other : Line) : Prop where
  number_eq : line.number = other.number
  content_eq : line.content = other.content
  ending_iff : line.ending = .none ↔ other.ending = .none
  column_eq : ∀ column ≤ line.content.byteLength, f (line.start + column) = g (other.start + column)

structure Placed.SameAt (f g : Nat → α) (placed other : Placed) : Prop where
  token_eq : placed.token = other.token
  line : placed.line.SameAt f g other.line

namespace Statement

theorem closeBody_sameAt {tokens others : List Located} (h : List.Forall₂ (Located.SameAt f g) tokens others)
    (depth : Nat) : (closeBody depth tokens).map f = (closeBody depth others).map g := by
  induction h generalizing depth with
  | nil => rfl
  | cons hlocated _ ih =>
    simp only [closeBody, hlocated.token_eq]
    split
    · exact ih _
    · split
      · split
        · exact congrArg some hlocated.next_eq
        · exact ih _
      · exact ih _

theorem findBody_sameAt {tokens others : List Located} (h : List.Forall₂ (Located.SameAt f g) tokens others)
    (p : Parens) :
    (findBody p.depth tokens).map (Prod.map f f) = (findBody p.depth others).map (Prod.map g g) := by
  induction h generalizing p with
  | nil => rfl
  | @cons located other _ _ hlocated hrest ih =>
    rw [findBody_cons, findBody_cons, hlocated.token_eq]
    split
    · have hrange (k : Nat → α) (offset : Nat) (stop : Option Nat) :
          (stop.map fun stop => (offset, stop)).map (Prod.map k k) = (stop.map k).map fun stop => (k offset, stop) := by
        cases stop <;> rfl
      rw [hrange, hrange, closeBody_sameAt hrest, hlocated.offset_eq]
    · split
      · rfl
      · exact ih _

theorem isPair_sameAt (hf : Function.Injective f) (hg : Function.Injective g) {a a' b b' : Located}
    (ha : a.SameAt f g a') (hb : b.SameAt f g b') : isPair a b = isPair a' b' := by
  have hoffset : a.offset + 1 = b.offset ↔ a'.offset + 1 = b'.offset := by
    rw [← hf.eq_iff, ha.next_eq, hb.offset_eq, hg.eq_iff]
  simp only [isPair, ha.token_eq, hb.token_eq, hoffset]

theorem findInitializers_sameAt (hf : Function.Injective f) (hg : Function.Injective g)
    {tokens others : List Located} (h : List.Forall₂ (Located.SameAt f g) tokens others) (p : Parens)
    {previous previous' : Option Located} (hprevious : Option.Rel (Located.SameAt f g) previous previous') :
    (findInitializers p.depth p.closed previous tokens).map f =
      (findInitializers p.depth p.closed previous' others).map g := by
  induction h generalizing p previous previous' with
  | nil => rfl
  | @cons located other rest rest' hlocated hrest ih =>
    have hbefore : previous.any (isPair · located) = previous'.any (isPair · other) := by
      cases hprevious with
      | none => rfl
      | some hprevious => exact isPair_sameAt hf hg hprevious hlocated
    have hbehind : rest.head?.any (isPair located) = rest'.head?.any (isPair other) := by
      cases hrest with
      | nil => rfl
      | cons hnext _ => exact isPair_sameAt hf hg hlocated hnext
    have hopens : opensList p previous located rest.head? = opensList p previous' other rest'.head? := by
      rw [opensList, opensList, hlocated.token_eq, hbefore, hbehind]
    rw [findInitializers_cons, findInitializers_cons, hopens, hlocated.token_eq]
    split
    · rfl
    · split
      · exact congrArg some hlocated.offset_eq
      · exact ih _ (.some hlocated)

end Statement

/-- Tokens at the same column of two lines. -/
theorem locate_sameAt {start start' size : Nat}
    (h : ∀ column ≤ size, f (start + column) = g (start' + column)) {ts : List Token}
    (hts : ∀ t ∈ ts, t.text ≠ []) (inside : Bool) {column : Nat}
    (hcolumn : column + (Token.concat ts).byteLength ≤ size) :
    List.Forall₂ (Located.SameAt f g) (locate inside (start + column) ts) (locate inside (start' + column) ts) := by
  induction ts generalizing inside column with
  | nil => exact .nil
  | cons t ts ih =>
    have htext : 0 < t.text.byteLength := by
      rw [Nat.pos_iff_ne_zero, ne_eq, Text.byteLength_eq_zero]
      exact hts t List.mem_cons_self
    rw [Token.concat_cons, Text.byteLength_append, ← Nat.add_assoc] at hcolumn
    have hrest (inside : Bool) := ih (fun u hu => hts u (List.mem_cons_of_mem _ hu)) inside hcolumn
    simp only [← Nat.add_assoc] at hrest
    have hhere : Located.SameAt f g ⟨start + column, t⟩ ⟨start' + column, t⟩ :=
      ⟨rfl, h column (by omega), h (column + 1) (by omega)⟩
    cases inside with
    | true => cases t <;> exact hrest _
    | false =>
      cases t with
      | commentOpen => exact hrest true
      | commentClose => exact hrest false
      | lineComment text => exact hrest false
      | space c => exact hrest false
      | _ => exact .cons hhere (hrest false)

theorem located_sameAt {line other : Line} (h : line.SameAt f g other) (inComment : Bool) :
    List.Forall₂ (Located.SameAt f g) (line.located inComment).1 (other.located inComment).1 := by
  have hlexed : ∀ t ∈ (tokenize inComment line.content).1, t.text ≠ [] :=
    fun t ht => Token.text_ne_nil (Lexer.isLexed_run (by simp) line.content t ht)
  have hsize : 0 + (Token.concat (tokenize inComment line.content).1).byteLength ≤ line.content.byteLength := by
    rw [concat_tokenize, Nat.zero_add]
  have hlocate := locate_sameAt h.column_eq hlexed inComment hsize
  simp only [Line.located, ← h.content_eq]
  exact hlocate

theorem locateLines_sameAt {lines others : List Line} (h : List.Forall₂ (Line.SameAt f g) lines others)
    (inComment : Bool) :
    List.Forall₂ (Located.SameAt f g) (locateLines inComment lines) (locateLines inComment others) := by
  induction h generalizing inComment with
  | nil => exact .nil
  | @cons line other _ _ hline _ ih =>
    have hstate : (line.located inComment).2 = (other.located inComment).2 := by
      simp only [Line.located, hline.content_eq]
    rw [locateLines, locateLines]
    refine List.rel_append (located_sameAt hline inComment) ?_
    rw [hstate]
    exact ih _

theorem Line.SameAt.tokens_eq {line other : Line} (h : line.SameAt f g other) (inComment : Bool) :
    line.tokens inComment = other.tokens inComment := by
  simp only [Line.tokens, h.content_eq, h.ending_iff]

theorem codeOfLines_sameAt {lines others : List Line} (h : List.Forall₂ (Line.SameAt f g) lines others)
    (inComment : Bool) :
    List.Forall₂ (Placed.SameAt f g) (codeOfLines inComment lines) (codeOfLines inComment others) := by
  induction h generalizing inComment with
  | nil => exact .nil
  | cons hline _ ih =>
    rw [codeOfLines, codeOfLines, hline.tokens_eq]
    refine List.rel_append ?_ (ih _)
    rw [List.forall₂_map_left_iff, List.forall₂_map_right_iff, List.forall₂_same]
    exact fun t _ => ⟨rfl, hline⟩

theorem map_numbers_sameAt {tokens others : List Placed} (h : List.Forall₂ (Placed.SameAt f g) tokens others) :
    tokens.map (fun placed => (placed.token, placed.line.number)) =
      others.map fun placed => (placed.token, placed.line.number) := by
  induction h with
  | nil => rfl
  | cons hplaced _ ih => rw [List.map_cons, List.map_cons, hplaced.token_eq, hplaced.line.number_eq, ih]

theorem withoutSpaces_sameAt {tokens others : List Placed}
    (h : List.Forall₂ (Placed.SameAt f g) tokens others) :
    List.Forall₂ (Placed.SameAt f g) (withoutSpaces tokens) (withoutSpaces others) :=
  List.rel_filter (fun _ _ hplaced => by simp only [hplaced.token_eq]) h

namespace Locator

/-- States in which the search has not ended, or has ended at offsets with the same coordinates. -/
inductive State.SameAt (f g : Nat → α) : State → State → Prop
  | going (s : State) (h : ∀ offset, s ≠ .done offset) : SameAt f g s s
  | done {offset offset' : Nat} (h : f offset = g offset') : SameAt f g (.done offset) (.done offset')

theorem step_sameAt (frame : Frame) {s s' : State} (hs : s.SameAt f g s') {placed other : Placed}
    (h : placed.SameAt f g other) : (step frame s placed).SameAt f g (step frame s' other) := by
  have hstop : f placed.line.stop = g other.line.stop := by
    rw [Line.stop, Line.stop, ← h.line.content_eq]
    exact h.line.column_eq _ le_rfl
  cases hs with
  | done hoffset => exact .done hoffset
  | going s hgoing =>
    cases s with
    | done offset => exact absurd rfl (hgoing offset)
    | outside previous =>
      simp only [step, h.token_eq]
      exact .going _ (by split <;> simp)
    | header keyword state =>
      simp only [step, h.token_eq]
      refine .going _ ?_
      split
      · simp
      · split <;> simp
      · simp
      · simp
    | block keyword depth =>
      simp only [step, h.token_eq]
      refine .going _ ?_
      split
      · simp
      · split
        · split <;> simp
        · simp
    | inside depth =>
      simp only [step, h.token_eq]
      split
      · exact .going _ (by simp)
      · split
        · split
          · split
            · exact .going _ (by simp)
            · exact .done hstop
          · exact .going _ (by simp)
        · exact .going _ (by simp)
    | terminator =>
      simp only [step, h.token_eq]
      split
      · exact .done hstop
      · exact .going _ (by simp)

theorem foldl_sameAt (frame : Frame) {tokens others : List Placed}
    (h : List.Forall₂ (Placed.SameAt f g) tokens others) {s s' : State} (hs : s.SameAt f g s') :
    (tokens.foldl (step frame) s).SameAt f g (others.foldl (step frame) s') := by
  induction h generalizing s s' with
  | nil => exact hs
  | cons hplaced _ ih => exact ih (step_sameAt frame hs hplaced)

theorem State.SameAt.boundary {s s' : State} (h : s.SameAt f g s') :
    s.boundary.offset?.map f = s'.boundary.offset?.map g := by
  cases h with
  | done hoffset => exact congrArg some hoffset
  | going s hgoing =>
    cases s with
    | done offset => exact absurd rfl (hgoing offset)
    | _ => rfl

end Locator

theorem withoutSpaces_cons (inComment : Bool) (line : Line) (lines : List Line) :
    (withoutSpaces (codeOfLines inComment (line :: lines))).map (fun placed => (placed.token, placed.line.number)) =
      ((dropComments inComment (tokenize inComment line.content).1).filter fun token => !token.isSpace).map
          (fun token => (token, line.number)) ++
        (withoutSpaces (codeOfLines (tokenize inComment line.content).2 lines)).map
          fun placed => (placed.token, placed.line.number) := by
  have hparts : withoutSpaces (codeOfLines inComment ([line] ++ lines)) =
      withoutSpaces (codeOfLines inComment [line]) ++
        withoutSpaces (codeOfLines (tokenize inComment line.content).2 lines) := by
    rw [codeOfLines_append, withoutSpaces, List.filter_append]
    rfl
  rw [← List.singleton_append, hparts, List.map_append, withoutSpaces_line]

/-- What the resolver reads of some lines is in their contents and numbers. Whether a line has an ending shows in
spaces only. -/
theorem withoutSpaces_of_contents {lines others : List Line}
    (h : lines.map (fun line => (line.content, line.number)) =
      others.map fun line => (line.content, line.number)) (inComment : Bool) :
    (withoutSpaces (codeOfLines inComment lines)).map (fun placed => (placed.token, placed.line.number)) =
      (withoutSpaces (codeOfLines inComment others)).map fun placed => (placed.token, placed.line.number) := by
  induction lines generalizing others inComment with
  | nil =>
    obtain rfl : others = [] := by simpa using h.symm
    rfl
  | cons line lines ih =>
    cases others with
    | nil => simp at h
    | cons other others =>
      obtain ⟨hline, hrest⟩ := List.cons.inj h
      obtain ⟨hcontent, hnumber⟩ := Prod.mk.inj hline
      rw [withoutSpaces_cons, withoutSpaces_cons, hcontent, hnumber, ih hrest]

theorem Access.nearest_congr {lines others : List Line}
    (h : lines.map Line.content = others.map Line.content) (depth : Int) :
    nearest depth lines = nearest depth others := by
  induction lines generalizing others depth with
  | nil =>
    obtain rfl : others = [] := by simpa using h.symm
    rfl
  | cons line lines ih =>
    cases others with
    | nil => simp at h
    | cons other others =>
      obtain ⟨hcontent, hrest⟩ := List.cons.inj h
      simp only [nearest, hcontent, ih hrest]

end Coordinates

namespace Document

variable {doc doc' : Document}

/-- Lines with the same contents have corresponding places at the same positions. -/
theorem sameAt_lines (h : doc.lines.map Line.content = doc'.lines.map Line.content) :
    List.Forall₂ (Line.SameAt doc.position doc'.position) doc.lines doc'.lines := by
  have hlength : doc.lineCount = doc'.lineCount := by
    have := congrArg List.length h
    rwa [List.length_map, List.length_map] at this
  refine List.forall₂_iff_get.mpr ⟨hlength, fun k hk hk' => ?_⟩
  have hline : doc.lines[k]? = some (doc.lines.get ⟨k, hk⟩) := List.getElem?_eq_getElem hk
  have hline' : doc'.lines[k]? = some (doc'.lines.get ⟨k, hk'⟩) := List.getElem?_eq_getElem hk'
  have hcontent : (doc.lines.get ⟨k, hk⟩).content = (doc'.lines.get ⟨k, hk'⟩).content := by
    have := congrArg (fun contents => contents[k]?) h
    simpa [List.getElem?_map, hline, hline'] using this
  refine ⟨?_, hcontent, ?_, fun column hcolumn => ?_⟩
  · rw [number_of_getElem?_lines hline, number_of_getElem?_lines hline']
  · rw [ending_of_getElem? hline, ending_of_getElem? hline', hlength]
  · rw [position_of_line? hline hcolumn, position_of_line? hline' (hcontent ▸ hcolumn)]

/-- The lines above an index are numbered from 1 on. -/
theorem map_numbers_take (doc : Document) (i : Nat) :
    (doc.lines.take i).map (fun line => (line.content, line.number)) =
      ((doc.lines.take i).map Line.content).zipIdx 1 := by
  apply List.ext_getElem?
  intro k
  rw [List.getElem?_zipIdx, List.getElem?_map, List.getElem?_map, Option.map_map]
  cases hline : (doc.lines.take i)[k]? with
  | none => rfl
  | some line =>
    have hmem : doc.lines[k]? = some line := by
      rw [List.getElem?_take] at hline
      split at hline
      · exact hline
      · simp at hline
    have hnumber := number_of_getElem?_lines hmem
    simp [hnumber, Nat.add_comm]

/-- The resolver at a line has read nothing but the contents of the lines above it. -/
theorem resolver_of_linesAbove {i : Nat}
    (h : (doc.lines.take i).map Line.content = (doc'.lines.take i).map Line.content) :
    doc.resolver i = doc'.resolver i := by
  have hnumbered : (doc.lines.take i).map (fun line => (line.content, line.number)) =
      (doc'.lines.take i).map fun line => (line.content, line.number) := by
    rw [map_numbers_take, map_numbers_take, h]
  have hlength : (doc.lines.take i).length = (doc'.lines.take i).length := by
    simpa using congrArg List.length h
  simp only [resolver, Resolver.foldl_step_congr (withoutSpaces_of_contents hnumbered false), hlength]

section SameContents

variable (h : doc.lines.map Line.content = doc'.lines.map Line.content) (i : Nat)
include h

theorem scopeContext_of_contents : doc.scopeContext i = doc'.scopeContext i := by
  have habove : (doc.lines.take i).map Line.content = (doc'.lines.take i).map Line.content := by
    rw [List.map_take, List.map_take, h]
  rw [scopeContext, resolver_of_linesAbove habove]
  rfl

theorem statementAt_of_contents (bound : Nat) : doc.statementAt i bound = doc'.statementAt i bound := by
  have hdrop : (doc.linesFrom i).map Line.content = (doc'.linesFrom i).map Line.content := by
    rw [linesFrom, linesFrom, List.map_drop, List.map_drop, h]
  rw [statementAt, statementAt, Statement.gather_congr hdrop]

theorem parseAt_of_contents : Declaration.parseAt doc i = .parseAt doc' i := by
  have hcode := map_numbers_sameAt (codeOfLines_sameAt (List.forall₂_drop i (sameAt_lines h)) false)
  have htokens := congrArg (List.map Prod.fst) hcode
  rw [List.map_map, List.map_map] at htokens
  exact congrArg Declaration.ofTokens htokens

theorem accessAt_of_contents : doc.accessAt i = doc'.accessAt i := by
  have htake : (doc.lines.take i).reverse.map Line.content = (doc'.lines.take i).reverse.map Line.content := by
    rw [List.map_reverse, List.map_reverse, List.map_take, List.map_take, h]
  rw [accessAt, accessAt, Access.nearest_congr htake, lineCount, lineCount, (sameAt_lines h).length_eq]

theorem bodyRange_of_contents : (doc.bodyRange i).map (Prod.map doc.position doc.position) =
    (doc'.bodyRange i).map (Prod.map doc'.position doc'.position) :=
  Statement.findBody_sameAt (locateLines_sameAt (List.forall₂_drop i (sameAt_lines h)) false) {}

theorem initializerStart_of_contents :
    (doc.initializerStart i).map doc.position = (doc'.initializerStart i).map doc'.position :=
  Statement.findInitializers_sameAt doc.position_injective doc'.position_injective
    (locateLines_sameAt (List.forall₂_drop i (sameAt_lines h)) false) {} .none

theorem boundary_of_contents (frame : Frame) :
    (doc.boundary frame).offset?.map doc.position = (doc'.boundary frame).offset?.map doc'.position := by
  have hstart : Locator.State.SameAt doc.position doc'.position (.outside none) (.outside none) :=
    .going _ (by simp)
  have htokens := withoutSpaces_sameAt (codeOfLines_sameAt (sameAt_lines h) false)
  exact (Locator.foldl_sameAt frame htokens hstart).boundary

end SameContents

end Document

namespace Site

variable {site : Site} {counterpart : Document}

/-- A body can be moved where the locators find it, with the initializers if the record has some. -/
theorem isSome_moveImplementation_iff : (site.moveImplementation counterpart).value.isSome ↔
    site.Admits .moveImplementationToSource ∧ (site.declaration .moveImplementationToSource).hasBody ∧
      (site.active.bodyRange site.line).isSome ∧
      ((site.declaration .moveImplementationToSource).initializers.isSome →
        (site.active.initializerStart site.line).isSome) := by
  rw [Option.isSome_iff_exists]
  constructor
  · rintro ⟨plan, hplan⟩
    obtain ⟨hadmits, hbody, start, stop, cut, body, hrange, hcut, -, -⟩ :=
      moveImplementation_eq_some_iff.mp hplan
    refine ⟨hadmits, hbody, by rw [hrange]; rfl, fun hinit => ?_⟩
    obtain ⟨list, hlist⟩ := Option.isSome_iff_exists.mp hinit
    cases hcolon : site.active.initializerStart site.line with
    | some offset => rfl
    | none => simp [signatureEnd?, hlist, hcolon] at hcut
  · rintro ⟨hadmits, hbody, hrange, hinit⟩
    obtain ⟨⟨start, stop⟩, hrange⟩ := Option.isSome_iff_exists.mp hrange
    obtain ⟨front, rest, htext, -, hcut⟩ :=
      site.active.exists_cut (Document.lt_lineCount_of_bodyRange hrange)
    have hlines := (hcut rest).2
    rw [← htext] at hlines
    have hplan {signature list block tail : Text} (hinline : InlineBody
        (site.declaration .moveImplementationToSource) rest signature list block tail) :
        ∃ plan, (site.moveImplementation counterpart).value = some plan :=
      ⟨_, (moveImplementation_iff htext hlines).mpr ⟨hadmits, hbody, _, _, _, _, hinline, rfl⟩⟩
    rw [Document.bodyRange_of_linesFrom hlines, Text.findBody_locatedFrom_iff] at hrange
    obtain ⟨head, block, tail, hcutBody, -, -⟩ := hrange
    cases hlist : (site.declaration .moveImplementationToSource).initializers with
    | none =>
      exact hplan ⟨(List.append_nil head).symm ▸ hcutBody, by rw [hlist]⟩
    | some list =>
      obtain ⟨offset, hcolon⟩ := Option.isSome_iff_exists.mp (hinit (by rw [hlist]; rfl))
      rw [Document.initializerStart_of_linesFrom hlines, Text.findInitializers_locatedFrom_iff] at hcolon
      obtain ⟨signature, after, hcutList, -⟩ := hcolon
      obtain ⟨l, rfl⟩ := hcutList.exists_before_body hcutBody
      obtain rfl : after = l ++ '{' :: (block ++ '}' :: tail) := by
        simpa using hcutList.text_eq.symm.trans hcutBody.text_eq
      exact hplan ⟨hcutBody, by rw [hlist]; exact ⟨l, rfl, hcutList⟩⟩

theorem map_intent_available (hcounterpart : site.counterpart = some counterpart) :
    site.available.value.map Plan.intent =
      (Intent.offeredIn site.role).filter fun intent => (site.handle counterpart intent).value.isSome := by
  rw [available_eq hcounterpart]
  induction Intent.offeredIn site.role with
  | nil => rfl
  | cons intent intents ih =>
    rw [List.filterMap_cons, List.filter_cons]
    cases hplan : (site.handle counterpart intent).value with
    | none => exact ih
    | some plan => exact congrArg₂ List.cons (intent_of_handle hplan) ih

variable {doc : Document}

theorem declaration_of_contents (h : site.active.lines.map Line.content = doc.lines.map Line.content)
    (intent : Intent) : ({ site with active := doc } : Site).declaration intent = site.declaration intent := by
  cases intent with
  | declareInSource => exact congrArg Declaration.parse (Document.statementAt_of_contents h _ _).symm
  | moveImplementationToSource => exact (Document.parseAt_of_contents h _).symm

theorem isSome_handle_of_contents (h : site.active.lines.map Line.content = doc.lines.map Line.content)
    (intent : Intent) : (({ site with active := doc } : Site).handle counterpart intent).value.isSome =
      (site.handle counterpart intent).value.isSome := by
  have hrecord := declaration_of_contents h
  have hscope := Document.scopeContext_of_contents h site.line
  have hadmits (intent : Intent) : ({ site with active := doc } : Site).Admits intent ↔ site.Admits intent := by
    simp only [Admits, inBlock, chain, hrecord, hscope]
  rw [Bool.eq_iff_iff]
  cases intent with
  | declareInSource =>
    simp only [handle, Option.isSome_iff_exists, declareInSource_eq_some_iff, hadmits, hrecord,
      exists_and_left, exists_eq]
  | moveImplementationToSource =>
    have hrange := congrArg Option.isSome (Document.bodyRange_of_contents h site.line)
    have hcolon := congrArg Option.isSome (Document.initializerStart_of_contents h site.line)
    rw [Option.isSome_map, Option.isSome_map] at hrange hcolon
    simp only [handle, isSome_moveImplementation_iff, hadmits, hrecord, hrange, hcolon]

theorem intents_of_contents (h : site.active.lines.map Line.content = doc.lines.map Line.content) :
    ({ site with active := doc } : Site).available.value.map Plan.intent =
      site.available.value.map Plan.intent := by
  rcases Option.eq_none_or_eq_some site.counterpart with hnone | ⟨counterpart, hcounterpart⟩
  · simp only [available, hnone]
  · rw [map_intent_available hcounterpart, @map_intent_available { site with active := doc } _ hcounterpart]
    simp only [isSome_handle_of_contents h]

end Site

namespace Document

/-- Documents with the same contents line by line have the same scopes, statements, records and access labels
at every line, bodies, initializer lists and scope ends at the same positions, and the same intents. -/
theorem same_of_contents {doc doc' : Document}
    (h : doc.lines.map Line.content = doc'.lines.map Line.content) (i : Nat) :
    doc.scopeContext i = doc'.scopeContext i ∧
    (∀ bound, doc.statementAt i bound = doc'.statementAt i bound) ∧
    Declaration.parseAt doc i = .parseAt doc' i ∧
    doc.accessAt i = doc'.accessAt i ∧
    (doc.bodyRange i).map (Prod.map doc.position doc.position) =
      (doc'.bodyRange i).map (Prod.map doc'.position doc'.position) ∧
    (doc.initializerStart i).map doc.position = (doc'.initializerStart i).map doc'.position ∧
    (∀ frame, (doc.boundary frame).offset?.map doc.position =
      (doc'.boundary frame).offset?.map doc'.position) ∧
    ∀ role counterpart name config,
      (Site.mk role doc i counterpart name config).available.value.map Plan.intent =
        (Site.mk role doc' i counterpart name config).available.value.map Plan.intent :=
  ⟨scopeContext_of_contents h i, statementAt_of_contents h i, parseAt_of_contents h i, accessAt_of_contents h i,
    bodyRange_of_contents h i, initializerStart_of_contents h i, boundary_of_contents h,
    fun role counterpart name config =>
      (@Site.intents_of_contents ⟨role, doc, i, counterpart, name, config⟩ doc' h).symm⟩

/-- A constructor with a body on its own line; the lines end in newlines only. -/
def plainDocument : Document := ⟨"struct A \x7b\n  A() : a(0)\n  \x7b f(); \x7d\n\x7d;\n".toList⟩

/-- The same lines, two of them with a carriage return. -/
def mixedDocument : Document := ⟨"struct A \x7b\r\n  A() : a(0)\r\n  \x7b f(); \x7d\n\x7d;\n".toList⟩

theorem same_of_contents_mixedDocument :
    plainDocument.lines.map Line.content = mixedDocument.lines.map Line.content ∧
    plainDocument.bodyRange 1 = some (26, 34) ∧ mixedDocument.bodyRange 1 = some (28, 36) ∧
    (mixedDocument.bodyRange 1).map (Prod.map mixedDocument.position mixedDocument.position) =
      some ((2, 2), (2, 10)) ∧
    (Site.mk .header mixedDocument 1 (some ⟨[]⟩) [] {}).available.value.map Plan.intent =
      [.moveImplementationToSource] := by
  have h : plainDocument.lines.map Line.content = mixedDocument.lines.map Line.content := by decide +kernel
  obtain ⟨-, -, -, -, hrange, -, -, hintents⟩ := same_of_contents h 1
  refine ⟨h, by decide +kernel, by decide +kernel, hrange.symm.trans (by decide +kernel), ?_⟩
  exact (hintents .header (some ⟨[]⟩) [] {}).symm.trans (by decide +kernel)

/-- The scopes around a line depend on the contents of the lines above it only, and not on their endings, on the
line itself or on anything below it, nor on whether there is such a line. -/
theorem scopeContext_of_linesAbove {doc doc' : Document} {i : Nat}
    (h : (doc.lines.take i).map Line.content = (doc'.lines.take i).map Line.content) :
    doc.scopeContext i = doc'.scopeContext i := by
  rw [scopeContext, resolver_of_linesAbove h]
  rfl

/-- The document ends inside the header of a class. -/
def headerDocument : Document := ⟨"namespace N \x7b\nclass A :".toList⟩

/-- The header goes on below, and all its lines have other endings. -/
def continuedDocument : Document := ⟨"namespace N \x7b\r\nclass A :\r\nB \x7b int f(); \x7d;\n\x7d".toList⟩

theorem scopeContext_continuedDocument :
    (headerDocument.lines.take 2).map Line.content = (continuedDocument.lines.take 2).map Line.content ∧
      continuedDocument.scopeContext 2 =
        { chain := [⟨.namespaceScope, ['N']⟩], inBlock := false, bodyless := [⟨2, .classScope⟩] } := by
  have h : (headerDocument.lines.take 2).map Line.content = (continuedDocument.lines.take 2).map Line.content := by
    decide +kernel
  exact ⟨h, (scopeContext_of_linesAbove h).symm.trans (by decide +kernel)⟩

end Document
end OutOfLine

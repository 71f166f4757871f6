import OutOfLine.Plan
import OutOfLine.Proofs.Reader

/-!
# Plans are safe to apply

An intent has a plan under conditions on the scopes around the line and on the record at the line, and the
plan is then determined. An edit of a plan lies inside its text, between two places of it, and the plan has one
edit at most for each of the two files. The edit of the active file starts after the start of the cursor's
line, so what stands above that line is not touched.
-/

namespace OutOfLine

namespace Logged

@[simp] theorem value_bind {α β : Type} (x : Logged α) (f : α → Logged β) :
    (x >>= f).value = (f x.value).value := rfl

@[simp] theorem value_pure {α : Type} (a : α) : (pure a : Logged α).value = a := rfl

end Logged

/-- An edit that replaces one part of a text. -/
structure Edit.Replaces (edit : Edit) (text before part after : Text) : Prop where
  text_eq : text = before ++ part ++ after
  start_eq : edit.start = before.byteLength
  stop_eq : edit.stop = (before ++ part).byteLength

namespace Edit.Replaces

variable {edit : Edit} {text before part after : Text}

theorem start_le_stop (h : edit.Replaces text before part after) : edit.start ≤ edit.stop := by
  rw [h.start_eq, h.stop_eq, Text.byteLength_append]
  omega

theorem stop_le_length (h : edit.Replaces text before part after) : edit.stop ≤ text.byteLength := by
  rw [h.stop_eq, h.text_eq, Text.byteLength_append _ after]
  omega

theorem splitAtByte?_start (h : edit.Replaces text before part after) :
    text.splitAtByte? edit.start = some (before, part ++ after) := by
  rw [h.start_eq, h.text_eq, List.append_assoc, Text.splitAtByte?_append]

theorem splitAtByte?_stop (h : edit.Replaces text before part after) :
    text.splitAtByte? edit.stop = some (before ++ part, after) := by
  rw [h.stop_eq, h.text_eq, Text.splitAtByte?_append]

/-- Such an edit is applied as it stands. -/
theorem applyTo_eq (h : edit.Replaces text before part after) :
    edit.applyTo text = some (before ++ edit.replacement ++ after) := by
  simp [applyTo, Nat.min_eq_left h.stop_le_length, Nat.min_eq_left h.start_le_stop,
    h.splitAtByte?_start, h.splitAtByte?_stop]

end Edit.Replaces

theorem applyEdits_of_editsOf {target : EditTarget} {edits : List Edit} {edit : Edit}
    (h : editsOf target edits = [edit]) (text : Text) :
    applyEdits target edits text = edit.applyTo text := by
  simp [applyEdits, h, Edit.sort, Edit.insert, Edit.applyAll]

theorem applyEdits_of_untouched {target : EditTarget} {edits : List Edit}
    (h : editsOf target edits = []) (text : Text) : applyEdits target edits text = some text := by
  simp [applyEdits, h, Edit.sort, Edit.applyAll]

namespace Locator

theorem done_of_step {frame : Frame} {s : State} {placed : Placed} {offset : Nat}
    (h : step frame s placed = .done offset) : s = .done offset ∨ offset = placed.line.stop := by
  cases s with
  | outside previous =>
    simp only [step] at h
    split at h <;> simp at h
  | header keyword state =>
    simp only [step] at h
    split at h
    · simp at h
    · split at h <;> simp at h
    · simp at h
    · simp at h
  | block keyword depth =>
    simp only [step] at h
    split at h
    · simp at h
    · split at h
      · split at h <;> simp at h
      · simp at h
  | inside depth =>
    simp only [step] at h
    split at h
    · simp at h
    · split at h
      · split at h
        · split at h
          · simp at h
          · exact .inr (by simpa using h.symm)
        · simp at h
      · simp at h
  | terminator =>
    simp only [step] at h
    split at h
    · exact .inr (by simpa using h.symm)
    · simp at h
  | done stop => exact .inl h

theorem done_of_run {frame : Frame} {s : State} {tokens : List Placed} {offset : Nat}
    (h : tokens.foldl (step frame) s = .done offset) :
    s = .done offset ∨ ∃ placed ∈ tokens, offset = placed.line.stop := by
  induction tokens generalizing s with
  | nil => exact .inl h
  | cons placed tokens ih =>
    rcases ih h with hs | ⟨other, hmem, hstop⟩
    · rcases done_of_step hs with hs | hstop
      · exact .inl hs
      · exact .inr ⟨placed, List.mem_cons_self, hstop⟩
    · exact .inr ⟨other, List.mem_cons_of_mem _ hmem, hstop⟩

end Locator

namespace Document

/-- A scope ends at the end of a line. -/
theorem exists_line_of_boundary {doc : Document} {frame : Frame} {offset : Nat}
    (h : doc.boundary frame = .ends offset) : ∃ line ∈ doc.lines, offset = line.stop := by
  have hdone : (withoutSpaces (codeOfLines false doc.lines)).foldl (Locator.step frame)
      (.outside none) = .done offset := by
    unfold boundary at h
    cases hs : (withoutSpaces (codeOfLines false doc.lines)).foldl (Locator.step frame)
      (.outside none) <;> simp_all [Locator.State.boundary]
  rcases Locator.done_of_run hdone with h | ⟨placed, hmem, rfl⟩
  · simp at h
  · exact ⟨placed.line, line_mem_of_mem_codeOfLines (List.mem_filter.mp hmem).1, rfl⟩

/-- A body is found only from a line of the document on. -/
theorem lt_lineCount_of_bodyRange {doc : Document} {i : Nat} {range : Nat × Nat}
    (h : doc.bodyRange i = some range) : i < doc.lineCount := by
  by_contra hline
  rw [bodyRange, linesFrom_of_le _ (Nat.le_of_not_lt hline)] at h
  simp [locateLines, Statement.findBody] at h

end Document

namespace Site

/-- A definition goes to a place of the text. -/
theorem exists_cut_at_firstEnd (doc : Document) (frames : List Frame) :
    ∃ a b, doc.text = a ++ b ∧ (firstEnd doc frames).value = a.byteLength := by
  induction frames with
  | nil => exact ⟨doc.text, [], by simp, rfl⟩
  | cons frame frames ih =>
    simp only [firstEnd, Logged.value_bind]
    cases hscope : (locateScope doc frame).value with
    | none => exact ih
    | some offset =>
      have hends : doc.boundary frame = .ends offset := by
        unfold locateScope at hscope
        split at hscope <;> simp_all
      obtain ⟨line, hline, rfl⟩ := Document.exists_line_of_boundary hends
      exact Document.stop_of_mem_lines hline

section Inversion

/-- The named scopes around the line. -/
def chain (site : Site) : Chain := (site.active.scopeContext site.line).chain

def inBlock (site : Site) : Bool := (site.active.scopeContext site.line).inBlock

/-- The record that an intent works on. -/
def declaration (site : Site) : Intent → Declaration
  | .declareInSource => .parse (site.active.statementAt site.line site.config.maxStatementLines)
  | .moveImplementationToSource => .parseAt site.active site.line

/-- The insertion of the definition of that record, with the given body or an empty one. -/
def definitionEdit (site : Site) (counterpart : Document) (intent : Intent) (body : Option Text) : Edit :=
  insertion site.config (insertionPoint counterpart site.chain).value
    ((site.declaration intent).definitionIn site.chain site.config body)

/-- Whether a definition can be written for the record at the line. -/
def Admits (site : Site) (intent : Intent) : Prop :=
  site.inBlock = false ∧ definable (site.declaration intent) site.chain

theorem Admits.valid {site : Site} {intent : Intent} (h : site.Admits intent) :
    (site.declaration intent).valid := by
  have hdef := h.2
  simp only [definable, Bool.and_eq_true] at hdef
  exact hdef.1.1

variable {site : Site} {counterpart : Document} {plan : Plan}

theorem declareInSource_eq_some_iff :
    (site.declareInSource counterpart).value = some plan ↔
      site.Admits .declareInSource ∧ (site.declaration .declareInSource).hasBody = false ∧
        (site.declaration .declareInSource).sourceText.getLast? = some ';' ∧
        plan = site.plan .declareInSource [site.definitionEdit counterpart .declareInSource none] := by
  unfold declareInSource
  rw [Logged.value_bind]
  split
  · next hblock => simp [Admits, inBlock, show (site.active.scopeContext site.line).inBlock from hblock]
  · next hblock =>
    have hblock : site.inBlock = false := Bool.eq_false_iff.mpr hblock
    rw [Logged.value_bind]
    split
    · next hdef =>
      refine ⟨by simp, fun ⟨hadmits, hbody, hlast, _⟩ => ?_⟩
      simp_all [Admits, declaration, chain, examine, scopes]
    · next hdef =>
      simp only [Bool.or_eq_true, Bool.not_eq_true', not_or, Bool.not_eq_false, decide_eq_true_eq,
        not_not, Bool.not_eq_true] at hdef
      obtain ⟨⟨hdefinable, hbody⟩, hlast⟩ := hdef
      refine ⟨fun h => ⟨⟨hblock, hdefinable⟩, hbody, hlast, ?_⟩, fun h => ?_⟩
      · exact (Option.some.inj h).symm
      · exact congrArg some h.2.2.2.symm

theorem moveImplementation_eq_some_iff :
    (site.moveImplementation counterpart).value = some plan ↔
      site.Admits .moveImplementationToSource ∧
        (site.declaration .moveImplementationToSource).hasBody ∧
        ∃ start stop cut body, site.active.bodyRange site.line = some (start, stop) ∧
          site.signatureEnd? (site.declaration .moveImplementationToSource) start = some cut ∧
          site.active.text.slice? start stop = some body ∧
          plan = site.plan .moveImplementationToSource [⟨.active, cut, stop, [';']⟩,
            site.definitionEdit counterpart .moveImplementationToSource (some body)] := by
  unfold moveImplementation
  rw [Logged.value_bind]
  split
  · next hblock => simp [Admits, inBlock, show (site.active.scopeContext site.line).inBlock from hblock]
  · next hblock =>
    have hblock : site.inBlock = false := Bool.eq_false_iff.mpr hblock
    rw [Logged.value_bind]
    split
    · next hdef =>
      refine ⟨by simp, fun ⟨hadmits, hbody, _⟩ => ?_⟩
      simp_all [Admits, declaration, chain, examine, scopes]
    · next hdef =>
      simp only [Bool.or_eq_true, Bool.not_eq_true', not_or, Bool.not_eq_false] at hdef
      obtain ⟨hdefinable, hbody⟩ := hdef
      have hadmits : site.Admits .moveImplementationToSource := ⟨hblock, hdefinable⟩
      split
      · next hrange => simp [hrange]
      · next start stop hrange =>
        split
        · next cut body hcut hslice =>
          refine ⟨fun h => ⟨hadmits, hbody, start, stop, cut, body, hrange, hcut, hslice, ?_⟩, ?_⟩
          · exact (Option.some.inj h).symm
          · rintro ⟨-, -, start', stop', cut', body', hrange', hcut', hslice', rfl⟩
            obtain ⟨rfl, rfl⟩ := Prod.mk.inj (Option.some.inj (hrange.symm.trans hrange'))
            obtain rfl := Option.some.inj (hcut.symm.trans hcut')
            obtain rfl := Option.some.inj (hslice.symm.trans hslice')
            rfl
        · next hnone =>
          refine ⟨by simp, ?_⟩
          rintro ⟨-, -, start', stop', cut', body', hrange', hcut', hslice', -⟩
          obtain ⟨rfl, rfl⟩ := Prod.mk.inj (Option.some.inj (hrange.symm.trans hrange'))
          exact absurd hslice' (hnone cut' body' hcut')

/-- What a plan that moves a body was made from. -/
theorem exists_of_moveImplementation (h : (site.moveImplementation counterpart).value = some plan) :
    ∃ start stop cut body definition, (Declaration.parseAt site.active site.line).valid ∧
      (Declaration.parseAt site.active site.line).hasBody ∧
      site.active.bodyRange site.line = some (start, stop) ∧
      site.signatureEnd? (.parseAt site.active site.line) start = some cut ∧
      site.active.text.slice? start stop = some body ∧
      plan.edits = [⟨.active, cut, stop, [';']⟩,
        insertion site.config
          (insertionPoint counterpart (site.active.scopeContext site.line).chain).value definition] := by
  obtain ⟨hadmits, hbody, start, stop, cut, body, hrange, hcut, hslice, rfl⟩ :=
    moveImplementation_eq_some_iff.mp h
  exact ⟨start, stop, cut, body, _, hadmits.valid, hbody, hrange, hcut, hslice, rfl⟩

theorem exists_of_declareInSource (h : (site.declareInSource counterpart).value = some plan) :
    ∃ definition, plan.edits = [insertion site.config
      (insertionPoint counterpart (site.active.scopeContext site.line).chain).value definition] := by
  obtain ⟨-, -, -, rfl⟩ := declareInSource_eq_some_iff.mp h
  exact ⟨_, rfl⟩

end Inversion

section Offered

variable {site : Site} {counterpart : Document} {intent : Intent} {plan : Plan}

theorem plan?_eq_ok_iff : (site.plan? intent).value = .ok plan ↔
    ∃ counterpart, site.counterpart = some counterpart ∧ intent ∈ Intent.offeredIn site.role ∧
      (site.handle counterpart intent).value = some plan := by
  unfold plan?
  split
  · next hrole => simp [hrole]
  · next hrole =>
    rw [not_not] at hrole
    split
    · next hnone => simp [hnone]
    · next counterpart hsome =>
      rw [Logged.value_bind]
      cases hplan : (site.handle counterpart intent).value <;> simp [hsome, hrole, hplan]

theorem handleAll_eq_filterMap (intents : List Intent) : (site.handleAll counterpart intents).value =
    intents.filterMap fun intent => (site.handle counterpart intent).value := by
  induction intents with
  | nil => rfl
  | cons intent intents ih =>
    rw [handleAll, Logged.value_bind, Logged.value_bind, Logged.value_pure, ih, List.filterMap_cons]
    cases (site.handle counterpart intent).value <;> rfl

theorem available_eq (hcounterpart : site.counterpart = some counterpart) : site.available.value =
    (Intent.offeredIn site.role).filterMap fun intent => (site.handle counterpart intent).value := by
  rw [available, hcounterpart]
  exact handleAll_eq_filterMap _

theorem mem_available_iff : plan ∈ site.available.value ↔
    ∃ counterpart, site.counterpart = some counterpart ∧
      ∃ intent ∈ Intent.offeredIn site.role, (site.handle counterpart intent).value = some plan := by
  rcases Option.eq_none_or_eq_some site.counterpart with hnone | ⟨counterpart, hcounterpart⟩
  · simp [available, hnone]
  · simp [available_eq hcounterpart, hcounterpart]

theorem exists_handle_of_plan? (h : (site.plan? intent).value = .ok plan) :
    ∃ counterpart, site.counterpart = some counterpart ∧
      (site.handle counterpart intent).value = some plan := by
  obtain ⟨counterpart, hcounterpart, -, hplan⟩ := plan?_eq_ok_iff.mp h
  exact ⟨counterpart, hcounterpart, hplan⟩

theorem exists_handle_of_available (h : plan ∈ site.available.value) :
    ∃ counterpart intent, site.counterpart = some counterpart ∧
      (site.handle counterpart intent).value = some plan := by
  obtain ⟨counterpart, hcounterpart, intent, -, hplan⟩ := mem_available_iff.mp h
  exact ⟨counterpart, intent, hcounterpart, hplan⟩

end Offered

/-- How a declaration with an inline body divides the text it starts: the signature, the initializer
list with its colon, the block of the body, and what follows it. -/
structure InlineBody (d : Declaration) (rest signature list block tail : Text) : Prop where
  body : Text.BodyCut rest (signature ++ list) block tail
  list_eq : match d.initializers with
    | none => list = []
    | some _ => ∃ l, list = ':' :: l ∧ Text.ListCut rest signature (l ++ '{' :: (block ++ '}' :: tail))

/-- A record that is valid has something in its signature. -/
theorem InlineBody.exists_not_blank {rest signature list block tail : Text}
    (h : InlineBody (.ofTokens (rest.codeFrom false)) rest signature list block tail)
    (hvalid : (Declaration.ofTokens (rest.codeFrom false)).valid) : ∃ c ∈ signature, ¬ isBlankChar c := by
  obtain ⟨hbody, hlist⟩ := h
  cases hinit : (Declaration.ofTokens (rest.codeFrom false)).initializers with
  | none =>
    simp only [hinit] at hlist
    rw [hlist, List.append_nil] at hbody
    rw [hbody.text_eq] at hvalid
    exact Draft.exists_not_blank_of_valid hbody.head_inCode hvalid
  | some l =>
    simp only [hinit] at hlist
    obtain ⟨_, -, hcut⟩ := hlist
    have hmem := Parens.mem_of_closed rfl hcut.colon.closed
    exact ⟨')', Text.mem_of_mem_codeFrom hmem (by simp [Token.text]), by decide⟩

/-- Where a body is cut out of a text: the lines before the cursor, the signature, the initializer
list with its colon, the block of the body, and what follows it. -/
structure MoveCut (site : Site) (front signature list block tail : Text) : Prop where
  text_eq : site.active.text = front ++ (signature ++ list ++ '{' :: (block ++ '}' :: tail))
  lineStart_eq : site.active.lineStart site.line = front.byteLength
  lines_eq : ∀ rest, (Document.mk (front ++ rest)).lines.take site.line =
    site.active.lines.take site.line
  linesFrom_eq : ∀ rest, (Document.mk (front ++ rest)).linesFrom site.line =
    rest.linesAt (site.line + 1) front.byteLength
  body : Text.BodyCut (signature ++ list ++ '{' :: (block ++ '}' :: tail)) (signature ++ list) block tail
  list_eq : match (Declaration.parseAt site.active site.line).initializers with
    | none => list = []
    | some _ => ∃ l, list = ':' :: l ∧
      Text.ListCut (signature ++ list ++ '{' :: (block ++ '}' :: tail)) signature
        (l ++ '{' :: (block ++ '}' :: tail))

theorem exists_moveCut {site : Site} {start stop cut : Nat}
    (hrange : site.active.bodyRange site.line = some (start, stop))
    (hcut : site.signatureEnd? (.parseAt site.active site.line) start = some cut) :
    ∃ front signature list block tail, MoveCut site front signature list block tail ∧
      start = (front ++ (signature ++ list)).byteLength ∧ stop = start + block.byteLength + 2 ∧
      cut = (front ++ signature).trimEnd.byteLength := by
  obtain ⟨front, rest, htext, hstart, hlines⟩ :=
    site.active.exists_cut (Document.lt_lineCount_of_bodyRange hrange)
  have hfrom : site.active.linesFrom site.line = rest.linesAt (site.line + 1) front.byteLength := by
    have := (hlines rest).2
    rwa [← htext] at this
  rw [Document.bodyRange_of_linesFrom hfrom, Text.findBody_locatedFrom_iff] at hrange
  obtain ⟨head, block, tail, hbody, hs, he⟩ := hrange
  simp only at hs he
  have hrest := hbody.text_eq
  subst hrest
  -- What is kept ends before the brace, or before the colon of the initializers.
  have hmove (signature list : Text) (hhead : head = signature ++ list)
      (hlist : match (Declaration.parseAt site.active site.line).initializers with
        | none => list = []
        | some _ => ∃ l, list = ':' :: l ∧
          Text.ListCut (signature ++ list ++ '{' :: (block ++ '}' :: tail)) signature
            (l ++ '{' :: (block ++ '}' :: tail))) :
      MoveCut site front signature list block tail := by
    subst hhead
    exact ⟨htext, hstart, fun rest => (hlines rest).1, fun rest => (hlines rest).2, hbody, hlist⟩
  unfold signatureEnd? at hcut
  cases hinit : (Declaration.parseAt site.active site.line).initializers with
  | none =>
    simp only [hinit, Option.bind_eq_bind, Option.bind_some] at hcut hmove
    have hsplit : site.active.text.splitAtByte? start =
        some (front ++ head, '{' :: (block ++ '}' :: tail)) := by
      rw [htext, hs, ← Text.byteLength_append, ← List.append_assoc, Text.splitAtByte?_append]
    rw [hsplit, Option.bind_some] at hcut
    exact ⟨front, head, [], block, tail, hmove head [] (by simp) rfl,
      by simp [hs], he, by simpa using hcut.symm⟩
  | some l =>
    simp only [hinit, Option.bind_eq_bind] at hcut hmove
    cases hcolon : site.active.initializerStart site.line with
    | none => simp [hcolon] at hcut
    | some o =>
      rw [hcolon, Option.bind_some] at hcut
      rw [Document.initializerStart_of_linesFrom hfrom, Text.findInitializers_locatedFrom_iff] at hcolon
      obtain ⟨signature, after, hlist, rfl⟩ := hcolon
      obtain ⟨l, rfl⟩ := hlist.exists_before_body hbody
      have hsplit : site.active.text.splitAtByte? (front.byteLength + signature.byteLength) =
          some (front ++ signature, ':' :: after) := by
        rw [htext, hlist.text_eq, ← Text.byteLength_append, ← List.append_assoc,
          Text.splitAtByte?_append]
      rw [hsplit, Option.bind_some] at hcut
      have hafter : after = l ++ '{' :: (block ++ '}' :: tail) := by
        have := hlist.text_eq
        simpa using this.symm
      subst hafter
      exact ⟨front, signature, ':' :: l, block, tail, hmove signature (':' :: l) rfl ⟨l, rfl, hlist⟩,
        by rw [hs, Text.byteLength_append front], he, by simpa using hcut.symm⟩

namespace MoveCut

variable {site : Site} {front signature list block tail : Text}

theorem parseAt_eq (h : MoveCut site front signature list block tail) :
    Declaration.parseAt site.active site.line = .ofTokens
      ((signature ++ list ++ '{' :: (block ++ '}' :: tail)).codeFrom false) := by
  have hlines := h.linesFrom_eq (signature ++ list ++ '{' :: (block ++ '}' :: tail))
  rw [← h.text_eq] at hlines
  rw [Declaration.parseAt, hlines, codeOfLines_linesAt]

/-- Something of the cursor's line is kept. -/
theorem exists_not_blank (h : MoveCut site front signature list block tail)
    (hvalid : (Declaration.parseAt site.active site.line).valid) :
    ∃ c ∈ signature, ¬ isBlankChar c := by
  have hlist := h.list_eq
  rw [h.parseAt_eq] at hlist hvalid
  exact InlineBody.exists_not_blank ⟨h.body, hlist⟩ hvalid

/-- The edit that leaves a semicolon for the body. -/
theorem replaces (h : MoveCut site front signature list block tail)
    (hvalid : (Declaration.parseAt site.active site.line).valid) {start stop cut : Nat}
    (hstart : start = (front ++ (signature ++ list)).byteLength)
    (hstop : stop = start + block.byteLength + 2)
    (hcut : cut = (front ++ signature).trimEnd.byteLength) :
    ∃ part, (⟨.active, cut, stop, [';']⟩ : Edit).Replaces site.active.text
      (front ++ signature.trimEnd) part tail ∧ signature.trimEnd ≠ [] := by
  obtain ⟨c, hc, hblank⟩ := h.exists_not_blank hvalid
  obtain ⟨htrim, hne⟩ := Text.trimEnd_append_of_not_blank (a := front) hc hblank
  obtain ⟨w, hw, -, -⟩ := Text.exists_trimEnd signature
  have htext : site.active.text = front ++ signature.trimEnd ++
      (w ++ list ++ '{' :: (block ++ ['}'])) ++ tail := by
    rw [h.text_eq]
    conv => lhs; rw [hw]
    simp
  refine ⟨w ++ list ++ '{' :: (block ++ ['}']), ⟨htext, by rw [hcut, htrim], ?_⟩, hne⟩
  have hlen := congrArg Text.byteLength hw
  have hbrace : ('{' : Char).utf8Size = 1 ∧ ('}' : Char).utf8Size = 1 := ⟨rfl, rfl⟩
  simp only [Text.byteLength_append, Text.byteLength_cons, Text.byteLength_nil, hbrace] at hlen hstart ⊢
  omega

end MoveCut

/-- The text of one of the two files. -/
def textOf? (site : Site) : EditTarget → Option Text
  | .active => some site.active.text
  | .counterpart => site.counterpart.map Document.text

section Edits

variable {plan : Plan} {active : Option Edit} {insert : Edit} (hedits : plan.edits = active.toList ++ [insert])
  (htarget : insert.target = .counterpart) (hactive : ∀ edit ∈ active, edit.target = .active)

include hedits htarget hactive

theorem editsOf_counterpart_of_edits : editsOf .counterpart plan.edits = [insert] := by
  cases active with
  | none => simp [editsOf, hedits, htarget]
  | some edit => simp [editsOf, hedits, htarget, hactive edit rfl]

theorem editsOf_active_of_edits : editsOf .active plan.edits = active.toList := by
  cases active with
  | none => simp [editsOf, hedits, htarget]
  | some edit => simp [editsOf, hedits, htarget, hactive edit rfl]

end Edits

/-- What makes the edits of a plan at a site safe: one insertion into the paired file, and at most one
edit of the active file, after the start of the cursor's line. -/
theorem exists_replaces_of_handle {site : Site} {counterpart : Document} {intent : Intent} {plan : Plan}
    (h : (site.handle counterpart intent).value = some plan) :
    ∃ active : Option Edit, ∃ insert a b, plan.edits = active.toList ++ [insert] ∧
      insert.target = .counterpart ∧ insert.Replaces counterpart.text a [] b ∧
      ∀ edit ∈ active, edit.target = .active ∧ ∃ front kept part tail,
        edit.Replaces site.active.text (front ++ kept) part tail ∧ kept ≠ [] ∧
        site.active.lineStart site.line = front.byteLength ∧
        ∀ rest, (Document.mk (front ++ rest)).lines.take site.line =
          site.active.lines.take site.line := by
  have hinsert (definition : Text) : ∃ a b, (insertion site.config
      (insertionPoint counterpart (site.active.scopeContext site.line).chain).value
      definition).Replaces counterpart.text a [] b := by
    obtain ⟨a, b, htext, hoffset⟩ := exists_cut_at_firstEnd counterpart
      (site.active.scopeContext site.line).chain.reverse
    exact ⟨a, b, by simp [htext], hoffset, by simpa [insertion, insertionPoint] using hoffset⟩
  cases intent with
  | declareInSource =>
    obtain ⟨definition, hedits⟩ := exists_of_declareInSource h
    obtain ⟨a, b, hreplaces⟩ := hinsert definition
    exact ⟨none, _, a, b, hedits, rfl, hreplaces, by simp⟩
  | moveImplementationToSource =>
    obtain ⟨start, stop, cut, body, definition, hvalid, -, hrange, hcut, -, hedits⟩ :=
      exists_of_moveImplementation h
    obtain ⟨a, b, hreplaces⟩ := hinsert definition
    obtain ⟨front, signature, list, block, tail, hmove, hstart, hstop, hend⟩ :=
      exists_moveCut hrange hcut
    obtain ⟨part, hedit, hne⟩ := hmove.replaces hvalid hstart hstop hend
    refine ⟨some ⟨.active, cut, stop, [';']⟩, _, a, b, hedits, rfl, hreplaces, ?_⟩
    rintro edit ⟨⟩
    exact ⟨rfl, front, _, part, tail, hedit, hne, hmove.lineStart_eq, hmove.lines_eq⟩

/-- The only edit of a text in a plan is applied as it stands. -/
theorem applyTo_of_replaces {site : Site} {plan : Plan} {edit : Edit} {text before part after : Text}
    (hone : editsOf edit.target plan.edits = [edit]) (htext : site.textOf? edit.target = some text)
    (h : edit.Replaces text before part after) :
    ∃ text before after, site.textOf? edit.target = some text ∧
      edit.start ≤ edit.stop ∧ edit.stop ≤ text.byteLength ∧
      (text.splitAtByte? edit.start).map Prod.fst = some before ∧
      (text.splitAtByte? edit.stop).map Prod.snd = some after ∧
      plan.applyTo edit.target text = some (before ++ edit.replacement ++ after) := by
  refine ⟨text, before, after, htext, h.start_le_stop, h.stop_le_length, ?_, ?_, ?_⟩
  · rw [h.splitAtByte?_start, Option.map_some]
  · rw [h.splitAtByte?_stop, Option.map_some]
  · rw [Plan.applyTo, applyEdits_of_editsOf hone, h.applyTo_eq]

/-- Every plan is safe to apply and touches nothing else. -/
theorem plan_safe {site : Site} {plan : Plan}
    (h : (∃ intent, (site.plan? intent).value = .ok plan) ∨ plan ∈ site.available.value) :
    (∀ target, (editsOf target plan.edits).length ≤ 1) ∧
    (∀ edit ∈ plan.edits, ∃ text before after, site.textOf? edit.target = some text ∧
      edit.start ≤ edit.stop ∧ edit.stop ≤ text.byteLength ∧
      (text.splitAtByte? edit.start).map Prod.fst = some before ∧
      (text.splitAtByte? edit.stop).map Prod.snd = some after ∧
      plan.applyTo edit.target text = some (before ++ edit.replacement ++ after)) ∧
    (∀ target text, plan.touches target = false → plan.applyTo target text = some text) ∧
    (∃ edit ∈ plan.edits, edit.target = .counterpart) ∧
    (∀ edit ∈ plan.edits, edit.target = .counterpart → edit.start = edit.stop) ∧
    (∀ edit ∈ plan.edits, edit.target = .active → site.active.lineStart site.line < edit.start) ∧
    (∃ changed, plan.applyTo .active site.active.text = some changed ∧
      (Document.mk changed).lines.take site.line = site.active.lines.take site.line) := by
  obtain ⟨counterpart, intent, hcounterpart, hplan⟩ : ∃ counterpart intent,
      site.counterpart = some counterpart ∧ (site.handle counterpart intent).value = some plan := by
    rcases h with ⟨intent, h⟩ | h
    · obtain ⟨counterpart, hcounterpart, hplan⟩ := exists_handle_of_plan? h
      exact ⟨counterpart, intent, hcounterpart, hplan⟩
    · exact exists_handle_of_available h
  obtain ⟨active, insert, a, b, hedits, htarget, hinsert, hactive⟩ := exists_replaces_of_handle hplan
  have hcounter := editsOf_counterpart_of_edits hedits htarget fun edit hedit => (hactive edit hedit).1
  have hone := editsOf_active_of_edits hedits htarget fun edit hedit => (hactive edit hedit).1
  have hmem (e : Edit) (he : e ∈ plan.edits) : e ∈ active ∨ e = insert := by simpa [hedits] using he
  have hpoint : insert.start = insert.stop := by rw [hinsert.start_eq, hinsert.stop_eq, List.append_nil]
  refine ⟨?_, ?_, ?_, ⟨insert, by simp [hedits], htarget⟩, ?_, ?_, ?_⟩
  · rintro (_ | _)
    · cases active <;> simp [hone]
    · simp [hcounter]
  · intro e he
    rcases hmem e he with he | rfl
    · obtain ⟨htarget', _, _, _, _, hedit, -⟩ := hactive e he
      obtain rfl := he
      exact applyTo_of_replaces (by rw [htarget', hone]; rfl) (by rw [htarget']; rfl) hedit
    · refine applyTo_of_replaces (by rw [htarget, hcounter]) ?_ hinsert
      rw [htarget, textOf?, hcounterpart, Option.map_some]
  · intro target text h
    refine applyEdits_of_untouched ?_ text
    simpa [editsOf, Plan.touches, List.filter_eq_nil_iff] using h
  · intro e he hcounterpart
    rcases hmem e he with he | rfl
    · rw [(hactive e he).1] at hcounterpart
      simp at hcounterpart
    · exact hpoint
  · intro e he htarget'
    rcases hmem e he with he | rfl
    · obtain ⟨-, front, kept, _, _, hedit, hkept, hline, -⟩ := hactive e he
      have hpos := Nat.pos_of_ne_zero (mt Text.byteLength_eq_zero.mp hkept)
      rw [hline, hedit.start_eq, Text.byteLength_append]
      omega
    · rw [htarget] at htarget'
      simp at htarget'
  · cases active with
    | none => exact ⟨site.active.text, applyEdits_of_untouched hone _, rfl⟩
    | some edit =>
      obtain ⟨-, front, _, _, _, hedit, -, -, hlines⟩ := hactive edit rfl
      refine ⟨_, (applyEdits_of_editsOf hone _).trans hedit.applyTo_eq, ?_⟩
      rw [List.append_assoc, List.append_assoc]
      exact hlines _

/-- A constructor with a member initializer, and a comment with a brace before its body. -/
def constructorSite : Site where
  role := .header
  active := ⟨"struct A \x7b\r\n  A(int x) : a(x) /* \x7b */ \x7b f(); \x7d\r\n\x7d;\r\n".toList⟩
  line := 1
  counterpart := some ⟨"struct A;\n".toList⟩
  counterpartName := "a.cpp".toList
  config := {}

def constructorPlan : Plan where
  intent := .moveImplementationToSource
  caption := "Move implementation to a.cpp".toList
  edits := [⟨.active, 22, 46, [';']⟩,
    ⟨.counterpart, 10, 10, "\n\nA::A(int x) : a(x)\n\x7b f(); \x7d\n".toList⟩]

theorem constructorPlan_safe :
    constructorPlan ∈ constructorSite.available.value ∧
      (∀ target, (editsOf target constructorPlan.edits).length ≤ 1) ∧
      ∃ changed, constructorPlan.applyTo .active constructorSite.active.text = some changed ∧
        (Document.mk changed).lines.take 1 = constructorSite.active.lines.take 1 := by
  have h : constructorPlan ∈ constructorSite.available.value := by decide +kernel
  have hsafe := plan_safe (.inr h)
  exact ⟨h, hsafe.1, hsafe.2.2.2.2.2.2⟩

end Site
end OutOfLine

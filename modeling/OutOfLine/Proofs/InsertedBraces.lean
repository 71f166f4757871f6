import OutOfLine.Proofs.JoinedLines
import OutOfLine.Proofs.RelocatedPlans
import OutOfLine.Proofs.SeparatedText

/-!
# Braces of an inserted definition

The text that a plan inserts into the paired file is what stands before the body, the body and the newlines
around it. The body is always balanced, whether it is empty or moved from the active file, so the text is
balanced exactly when what stands before the body is, unless that ends inside a block comment and takes the
start of the body in. What stands before the body is put together from parts of the record; when each of them is
lexed by itself, its braces are those of the parts, one after the other.
-/

namespace OutOfLine

/-- Whether a token is a brace. -/
def Token.isBrace (t : Token) : Bool := t = .delimiter '{' || t = .delimiter '}'

/-- Only the braces are counted. -/
theorem Brackets.balanced_filter_isBrace {ts : List Token} :
    Balanced '{' '}' (ts.filter Token.isBrace) ↔ Balanced '{' '}' ts := by
  rw [Balanced, after_filter rfl rfl, Balanced]

namespace Text

/-- The braces of a text that starts inside a block comment or not, comments and literals set aside. -/
def braces (inComment : Bool) (t : Text) : List Token :=
  (dropComments inComment (tokenize inComment t).1).filter Token.isBrace

theorem bracesMatch_code_iff {t : Text} :
    Brackets.Matched '{' '}' t.code ↔ Brackets.Balanced '{' '}' (t.braces false) :=
  (Brackets.matched_iff_balanced (by decide)).trans Brackets.balanced_filter_isBrace.symm

theorem braces_newline (inComment : Bool) (a b : Text) :
    braces inComment (a ++ '\n' :: b) = braces inComment a ++ braces (tokenize inComment a).2 b := by
  rw [braces, dropComments_run_newline, List.filter_append, dropComments_append, List.filter_append]
  cases insideAfter inComment (tokenize inComment a).1 <;> simp [braces, dropComments, Token.isBrace, Token.newline]

/-- The braces of a text are characters of it. -/
theorem braces_eq_nil {inComment : Bool} {t : Text} (hopen : '{' ∉ t) (hclose : '}' ∉ t) :
    braces inComment t = [] := by
  rw [braces, List.filter_eq_nil_iff]
  intro token htoken hbrace
  have hmem (c : Char) (hc : c ∈ token.text) : c ∈ t := by
    rw [← concat_tokenize inComment t]
    exact List.mem_flatMap.mpr ⟨token, mem_of_mem_dropComments htoken, hc⟩
  simp only [Token.isBrace, Bool.or_eq_true, decide_eq_true_eq] at hbrace
  rcases hbrace with rfl | rfl
  · exact hopen (hmem _ (by simp [Token.text]))
  · exact hclose (hmem _ (by simp [Token.text]))

/-- Without a star nothing closes a block comment. -/
theorem braces_comment {t : Text} (h : '*' ∉ t) : braces true t = [] := by
  have hclose : .commentClose ∉ (tokenize true t).1 := by
    intro hmem
    refine h ?_
    rw [← concat_tokenize true t]
    exact List.mem_flatMap.mpr ⟨_, hmem, by simp [Token.text]⟩
  rw [braces, dropComments_of_not_mem hclose]
  rfl

end Text

namespace Lexer

theorem braces_flush (inComment : Bool) (word : Text) :
    (dropComments inComment (flush word)).filter Token.isBrace = [] := by
  unfold flush
  split
  · rfl
  · cases inComment <;> simp [dropComments, Token.isBrace]

/-- A carriage return changes nothing about braces and comments. -/
theorem braces_return (mode : Mode) :
    (dropComments mode.inComment (run mode ['\r']).1).filter Token.isBrace =
        (dropComments mode.inComment mode.finish).filter Token.isBrace ∧
      (run mode ['\r']).2 = mode.inComment := by
  have hcode (word : Text) : readCode word '\r' = ([], .code ('\r' :: word)) := by
    simp [readCode, isQuote, isDelimiter, delimiters]
  have hcomment (word : Text) : readComment word '\r' = ([], .comment ('\r' :: word)) := by
    simp [readComment, isDelimiter, delimiters]
  cases mode with
  | code word => simp [run, step, hcode, Mode.finish, Mode.inComment, braces_flush]
  | slash word => simp [run, step, hcode, Mode.finish, Mode.inComment, braces_flush]
  | star => simp [run, step, hcode, after, Mode.finish, Mode.inComment, flush, dropComments, Token.isBrace]
  | starSlash => simp [run, step, hcode, after, Mode.finish, Mode.inComment, flush, dropComments, Token.isBrace]
  | lineComment text => simp [run, step, Mode.finish, Mode.inComment, dropComments]
  | literal quote escaped text =>
    by_cases hquote : '\r' = quote ∧ escaped = false
    · obtain ⟨rfl, rfl⟩ := hquote
      simp [run, step, Mode.finish, Mode.inComment, flush, dropComments, Token.isBrace]
    · simp [run, step, hquote, Mode.finish, Mode.inComment, dropComments, Token.isBrace]
  | comment word => simp [run, step, hcomment, Mode.finish, Mode.inComment, braces_flush]
  | commentStar => simp [run, step, hcomment, after, Mode.finish, Mode.inComment, flush, dropComments]

/-- Blanks do not open a comment. -/
theorem run_blank_inComment {w : Text} (hw : ∀ c ∈ w, isBlankChar c) (word : Text) :
    (run (.code word) w).2 = false := by
  induction w generalizing word with
  | nil => rfl
  | cons c w ih =>
    have hrest := ih fun d hd => hw d (List.mem_cons_of_mem _ hd)
    rw [run, step_code_blank (hw c List.mem_cons_self)]
    split
    · exact hrest _
    · exact hrest _

end Lexer

namespace Text

theorem braces_append_return (inComment : Bool) (content : Text) :
    braces inComment (content ++ ['\r']) = braces inComment content ∧
      (tokenize inComment (content ++ ['\r'])).2 = (tokenize inComment content).2 := by
  have hinside := Lexer.insideAfter_read (.start inComment) content
  rw [Lexer.inComment_start] at hinside
  obtain ⟨hbraces, hreturn⟩ := Lexer.braces_return (Lexer.read (.start inComment) content).2
  constructor
  · simp only [braces, tokenize, Lexer.run_append, Lexer.run_eq_read _ content, dropComments_append,
      List.filter_append, hinside, hbraces]
  · simp only [tokenize, Lexer.run_append, Lexer.run_eq_read _ content, hreturn]

/-- Carriage returns at line ends do not matter to the braces. -/
theorem braces_lineFeeds (inComment : Bool) (t : Text) :
    braces inComment t.lineFeeds = braces inComment t := by
  induction t using Text.line_induction generalizing inComment with
  | last content hnl => rw [lineFeeds_of_not_mem hnl]
  | line content ending rest hended ih =>
    rw [lineFeeds_line hended, braces_newline, ih]
    cases ending with
    | none => exact absurd rfl hended.ending_ne
    | lf => simp [LineEnd.text, braces_newline]
    | crlf =>
      obtain ⟨hbraces, hinside⟩ := braces_append_return inComment content
      have htext : content ++ LineEnd.crlf.text ++ rest = content ++ ['\r'] ++ '\n' :: rest := by
        simp [LineEnd.text]
      rw [htext, braces_newline, hbraces, hinside]

/-- The text is lexed by itself, and these are its braces. -/
def HasBraces (t : Text) (bs : List Token) : Prop := t.Closed ∧ t.braces false = bs

theorem Closed.hasBraces {t : Text} (h : t.Closed) : t.HasBraces (t.braces false) := ⟨h, rfl⟩

theorem hasBraces_nil : HasBraces [] [] := ⟨closed_nil, rfl⟩

theorem HasBraces.append {a b : Text} {c : Char} {bs cs : List Token} (ha : a.HasBraces bs) (hb : b.HasBraces cs)
    (hc : Lexer.isSeparator c) (hbrace : (Token.ofDelimiter c).isBrace = false) :
    HasBraces (a ++ c :: b) (bs ++ cs) := by
  refine ⟨ha.1.append_separator hc hb.1, ?_⟩
  change ((a ++ c :: b).code).filter Token.isBrace = _
  rw [ha.1.code_append hc, List.filter_append, List.filter_cons_of_neg (by simp [hbrace]), ← ha.2, ← hb.2]
  rfl

theorem HasBraces.cons {b : Text} {c : Char} {cs : List Token} (hb : b.HasBraces cs) (hc : Lexer.isSeparator c)
    (hbrace : (Token.ofDelimiter c).isBrace = false) : HasBraces (c :: b) cs :=
  hasBraces_nil.append hb hc hbrace

/-- An inline body is balanced. -/
theorem BodyCut.bracesMatch {t head block tail : Text} (h : BodyCut t head block tail) :
    Brackets.Matched '{' '}' (code ('{' :: (block ++ ['}']))) := by
  have hcode : codeFrom false ('{' :: (block ++ ['}'])) =
      .delimiter '{' :: (block.codeFrom false ++ [.delimiter '}']) := by
    rw [codeFrom_cons_plain rfl, codeFrom_plain rfl h.block_inCode]
    rfl
  have hblock : Brackets.Balanced '{' '}' (block.codeFrom false) := h.closes
  rw [bracesMatch_code_iff, ← braces_lineFeeds, braces, Brackets.balanced_filter_isBrace]
  change Brackets.Balanced '{' '}' (codeFrom false ('{' :: (block ++ ['}'])))
  rw [hcode]
  exact Brackets.balanced_block hblock (by decide)

end Text

namespace Config

variable {config : Config}

theorem not_mem_bodyIndent (h : config.bodyIndent.isBlank) {c : Char} (hc : isBlankChar c = false) :
    c ∉ config.bodyIndent := by
  intro hmem
  rw [List.all_eq_true.mp h c hmem] at hc
  simp at hc

/-- An empty body is balanced. -/
theorem bracesMatch_emptyBody (h : config.bodyIndent.isBlank) : Brackets.Matched '{' '}' config.emptyBody.code := by
  have hbody : config.emptyBody = ['{'] ++ '\n' :: (config.bodyIndent ++ '\n' :: ['}']) := by
    simp [emptyBody]
  have hinside : (tokenize false config.bodyIndent).2 = false :=
    Lexer.run_blank_inComment (List.all_eq_true.mp h) []
  have hindent : config.bodyIndent.braces false = [] :=
    Text.braces_eq_nil (not_mem_bodyIndent h (by decide)) (not_mem_bodyIndent h (by decide))
  rw [Text.bracesMatch_code_iff, hbody, Text.braces_newline, show (tokenize false ['{']).2 = false from rfl,
    Text.braces_newline, hinside, hindent]
  decide

/-- An empty body that a comment takes in has no braces. -/
theorem braces_emptyBody (h : config.bodyIndent.isBlank) : config.emptyBody.braces true = [] := by
  have hstar := not_mem_bodyIndent h (c := '*') (by decide)
  exact Text.braces_comment (by simp [emptyBody, hstar])

end Config

/-- The braces of a definition are those before its body and those of the body. -/
theorem bracesMatch_definition_iff {lead body : Text} :
    Brackets.Matched '{' '}' (lead ++ '\n' :: (body ++ ['\n'])).code ↔
      Brackets.Balanced '{' '}' (lead.braces false ++ body.braces (tokenize false lead).2) := by
  have hlast (inComment : Bool) : Text.braces inComment (body ++ ['\n']) = Text.braces inComment body := by
    rw [Text.braces_newline, Text.braces_eq_nil (t := []) (by simp) (by simp), List.append_nil]
  rw [Text.bracesMatch_code_iff, Text.braces_newline, hlast]

namespace Site

/-- What stands before the body in the definition that an intent inserts. -/
def lead (site : Site) (intent : Intent) : Text :=
  site.config.definitionSpacing ++ (site.declaration intent).signatureIn site.chain site.config ++
    (site.declaration intent).initializers.elim [] fun list => " : ".toList ++ list

/-- The parts of the record and of the chain that stand before the body. -/
def leadParts (site : Site) (intent : Intent) : List Text :=
  let d := site.declaration intent
  [Declaration.withoutSpecifiers d.returnType,
    d.indirection.elim [] Indirection.text ++ site.chain.qualifier site.config.scopeSeparator ++ d.name,
    d.templateArgs.getD [], Parameters.stripDefaults d.parameters, d.definitionQualifiers, d.initializers.getD []]

/-- The parts before the body are lexed by themselves, and only blanks stand before the first of them. -/
structure LeadApart (site : Site) (intent : Intent) : Prop where
  spacing_blank : site.config.definitionSpacing.isBlank
  spacing_last : ∀ c ∈ site.config.definitionSpacing.getLast?, isSpace c
  closed : ∀ part ∈ site.leadParts intent, part.Closed

namespace LeadApart

open Text (HasBraces)

/-- Blanks before a text do not change its braces. -/
theorem hasBraces_spacing {spacing t : Text} {bs : List Token} (hblank : spacing.isBlank)
    (hlast : ∀ c ∈ spacing.getLast?, isSpace c) (ht : t.HasBraces bs) : HasBraces (spacing ++ t) bs := by
  rcases List.eq_nil_or_concat spacing with rfl | ⟨front, c, rfl⟩
  · exact ht
  · have hspace : isSpace c := hlast c (by simp)
    have hmem (d : Char) (hd : isBlankChar d = false) : d ∉ front := by
      intro hfront
      rw [List.all_eq_true.mp hblank d (by simp [hfront])] at hd
      simp at hd
    have hfront : HasBraces front [] :=
      ⟨Draft.closed_blank (List.all_eq_true.mpr fun d hd => List.all_eq_true.mp hblank d (by simp [hd])),
        Text.braces_eq_nil (hmem _ (by decide)) (hmem _ (by decide))⟩
    rw [List.concat_eq_append, List.append_assoc]
    exact hfront.append ht (by simp [Lexer.isSeparator, hspace]) (by simp [Token.ofDelimiter, hspace, Token.isBrace])

/-- What follows the parameter list: qualifiers and member initializers, each behind a space. -/
theorem hasBraces_tail {qualifiers : Text} {list : Option Text} (hqualifiers : qualifiers.Closed)
    (hlist : (list.getD []).Closed) :
    HasBraces ((if qualifiers.isEmpty then [] else [' '] ++ qualifiers) ++ list.elim [] (" : ".toList ++ ·))
      (qualifiers.braces false ++ (list.getD []).braces false) := by
  cases list with
  | none =>
    rw [Option.elim_none, List.append_nil, Option.getD_none, Text.hasBraces_nil.2, List.append_nil]
    split
    · next hnil =>
      rw [List.isEmpty_iff.mp hnil]
      exact Text.hasBraces_nil
    · exact hqualifiers.hasBraces.cons rfl rfl
  | some list =>
    have hrest : HasBraces (':' :: ' ' :: list) (list.braces false) :=
      (hlist.hasBraces.cons rfl rfl).cons rfl rfl
    split
    · next hnil =>
      rw [List.isEmpty_iff.mp hnil]
      exact hrest.cons rfl rfl
    · exact (hqualifiers.hasBraces.append hrest rfl rfl).cons rfl rfl

/-- The path before the parameter list, with or without template arguments between them. -/
theorem hasBraces_path {path tail : Text} {args : Option Text} {bs : List Token} (hpath : path.Closed)
    (hargs : (args.getD []).Closed) (htail : tail.HasBraces bs) :
    HasBraces (path ++ (args.elim [] (['<'] ++ · ++ ['>']) ++ '(' :: tail))
      (path.braces false ++ ((args.getD []).braces false ++ bs)) := by
  cases args with
  | none => exact hpath.hasBraces.append htail rfl rfl
  | some args =>
    have hrest := hargs.hasBraces.append (htail.cons (c := '(') rfl rfl) (c := '>') rfl rfl
    simpa using hpath.hasBraces.append hrest (c := '<') rfl rfl

/-- The return type and the words before it. -/
theorem hasBraces_type (constant : Bool) {type tail : Text} {bs : List Token} (htype : type.Closed)
    (htail : tail.HasBraces bs) :
    HasBraces ((if constant then "const ".toList else []) ++ ((if type.isEmpty then [] else type ++ [' ']) ++ tail))
      (type.braces false ++ bs) := by
  have hreturned : HasBraces ((if type.isEmpty then [] else type ++ [' ']) ++ tail) (type.braces false ++ bs) := by
    split
    · next hnil =>
      rw [List.isEmpty_iff.mp hnil]
      exact htail
    · rw [List.append_assoc]
      exact htype.hasBraces.append htail rfl rfl
  cases constant with
  | false => exact hreturned
  | true =>
    have hconst : HasBraces "const".toList [] := ⟨by decide, by decide⟩
    exact hconst.append hreturned (c := ' ') rfl rfl

/-- The braces before the body are those of the parts. -/
theorem hasBraces_lead {site : Site} {intent : Intent} (h : site.LeadApart intent) :
    HasBraces (site.lead intent) ((site.leadParts intent).flatMap (Text.braces false)) := by
  have hclosed := h.closed
  simp only [leadParts, List.forall_mem_cons] at hclosed
  obtain ⟨htype, hpath, hargs, hparameters, hqualifiers, hlist, -⟩ := hclosed
  have htail := hparameters.hasBraces.append (hasBraces_tail hqualifiers hlist) (c := ')') rfl rfl
  have hlead := hasBraces_spacing h.spacing_blank h.spacing_last
    (hasBraces_type (site.declaration intent).constReturn htype (hasBraces_path hpath hargs htail))
  simpa only [lead, leadParts, Declaration.signatureIn, List.append_assoc, List.cons_append, List.nil_append,
    List.flatMap_cons, List.flatMap_nil, List.append_nil] using hlead

theorem matched_lead_iff {site : Site} {intent : Intent} (h : site.LeadApart intent) :
    Brackets.Matched '{' '}' (site.lead intent).code ↔
      Brackets.Matched '{' '}' ((site.leadParts intent).flatMap Text.code) := by
  have hparts : (site.leadParts intent).flatMap (Text.braces false) =
      ((site.leadParts intent).flatMap Text.code).filter Token.isBrace := List.filter_flatMap.symm
  rw [Text.bracesMatch_code_iff, h.hasBraces_lead.2, hparts, Brackets.balanced_filter_isBrace,
    Brackets.matched_iff_balanced (by decide)]

end LeadApart

theorem replacement_definitionEdit (site : Site) (counterpart : Document) (intent : Intent)
    (body : Option Text) : (site.definitionEdit counterpart intent body).replacement =
      site.lead intent ++ '\n' :: (body.getD site.config.emptyBody ++ ['\n']) := by
  simp [definitionEdit, insertion, Declaration.definitionIn, lead]

/-- The body of an inserted definition is balanced, and a comment takes in all of an empty one. -/
theorem exists_body_of_plan? {site : Site} {intent : Intent} {plan : Plan} {edit : Edit}
    (hindent : site.config.bodyIndent.isBlank) (h : (site.plan? intent).value = .ok plan)
    (hedit : edit ∈ plan.edits) (htarget : edit.target = .counterpart) :
    ∃ body : Text, edit.replacement = site.lead intent ++ '\n' :: (body ++ ['\n']) ∧
      Brackets.Matched '{' '}' body.code ∧ (intent = .declareInSource → body.braces true = []) := by
  obtain ⟨counterpart, -, hhandle⟩ := exists_handle_of_plan? h
  cases intent with
  | declareInSource =>
    obtain ⟨-, -, -, rfl⟩ := declareInSource_eq_some_iff.mp hhandle
    obtain rfl := List.mem_singleton.mp hedit
    exact ⟨_, replacement_definitionEdit .., Config.bracesMatch_emptyBody hindent,
      fun _ => Config.braces_emptyBody hindent⟩
  | moveImplementationToSource =>
    obtain ⟨hadmits, -, start, stop, cut, body, hrange, hcut, hslice, rfl⟩ :=
      moveImplementation_eq_some_iff.mp hhandle
    obtain ⟨front, signature, list, block, tail, hmove, -⟩ := exists_moveCut hrange hcut
    have hlines := hmove.linesFrom_eq (signature ++ list ++ '{' :: (block ++ '}' :: tail))
    rw [← hmove.text_eq] at hlines
    obtain ⟨_, _, block, _, hinline, -, -, rfl⟩ :=
      (exists_inlineBody_iff hmove.text_eq hlines hadmits.valid).mp ⟨start, hrange, hcut, hslice⟩
    obtain rfl : edit = site.definitionEdit counterpart .moveImplementationToSource
        (some ('{' :: (block ++ ['}']))) := by
      rcases List.mem_cons.mp hedit with rfl | hedit
      · simp at htarget
      · exact List.mem_singleton.mp hedit
    exact ⟨_, replacement_definitionEdit .., hinline.body.bracesMatch, by simp⟩

/-- The braces of an inserted definition match exactly when those before its body do. Only a body that is moved
behind text which ends inside a block comment counts as well, as far as it is read from that comment. When the parts
of the record are lexed by themselves, the braces before the body are those of the return type, the qualified name,
the template arguments, the parameters, the qualifiers and the member initializers. -/
theorem bracesMatch_insertion_iff {site : Site} {intent : Intent} {plan : Plan} {edit : Edit}
    (hindent : site.config.bodyIndent.isBlank) (h : (site.plan? intent).value = .ok plan)
    (hedit : edit ∈ plan.edits) (htarget : edit.target = .counterpart) :
    (∃ body : Text, edit.replacement = site.lead intent ++ '\n' :: (body ++ ['\n']) ∧
      Brackets.Matched '{' '}' body.code ∧
      (Brackets.Matched '{' '}' edit.replacement.code ↔ Brackets.Matched '{' '}'
        (if (tokenize false (site.lead intent)).2 ∧ intent = .moveImplementationToSource
          then (site.lead intent ++ '\n' :: body).code else (site.lead intent).code))) ∧
    (site.LeadApart intent → (Brackets.Matched '{' '}' edit.replacement.code ↔
      Brackets.Matched '{' '}' ((site.leadParts intent).flatMap Text.code))) := by
  obtain ⟨body, hreplacement, hbody, hempty⟩ := exists_body_of_plan? hindent h hedit htarget
  have hiff : Brackets.Matched '{' '}' edit.replacement.code ↔ Brackets.Matched '{' '}'
      (if (tokenize false (site.lead intent)).2 ∧ intent = .moveImplementationToSource
        then (site.lead intent ++ '\n' :: body).code else (site.lead intent).code) := by
    rw [hreplacement, bracesMatch_definition_iff]
    cases hin : (tokenize false (site.lead intent)).2 with
    | true =>
      cases intent with
      | declareInSource =>
        rw [if_neg (by simp), Text.bracesMatch_code_iff, hempty rfl, List.append_nil]
      | moveImplementationToSource =>
        rw [if_pos ⟨rfl, rfl⟩, Text.bracesMatch_code_iff, Text.braces_newline, hin]
    | false =>
      rw [if_neg (by simp), Text.bracesMatch_code_iff,
        Brackets.balanced_append_iff (Text.bracesMatch_code_iff.mp hbody)]
  refine ⟨⟨body, hreplacement, hbody, hiff⟩, fun hapart => ?_⟩
  rw [hiff, if_neg (by simp [hapart.hasBraces_lead.1.tokenize_outside]), hapart.matched_lead_iff]

/-- A function with braces in a default argument, in a literal and in the blocks of its body. -/
def bracedFunction : Site where
  role := .header
  active := ⟨"int f(int x = \x7b1\x7d) \x7b\r\n  if (x) \x7b g('\x7d'); \x7d\r\n\x7d\r\n".toList⟩
  line := 0
  counterpart := some ⟨[]⟩
  counterpartName := "a.cpp".toList
  config := {}

def bracedInsertion : Edit :=
  ⟨.counterpart, 0, 0, "\n\nint f(int x)\n\x7b\r\n  if (x) \x7b g('\x7d'); \x7d\r\n\x7d\n".toList⟩

theorem bracesMatch_bracedFunction :
    bracedFunction.LeadApart .moveImplementationToSource ∧
      bracedFunction.lead .moveImplementationToSource = "\n\nint f(int x)".toList ∧
      Brackets.Matched '{' '}' bracedInsertion.replacement.code := by
  have hplan : (bracedFunction.plan? .moveImplementationToSource).value = .ok
      ⟨.moveImplementationToSource, "Move implementation to a.cpp".toList,
        [⟨.active, 18, 45, [';']⟩, bracedInsertion]⟩ := by
    decide +kernel
  have hparts : bracedFunction.leadParts .moveImplementationToSource =
      ["int".toList, "f".toList, [], "int x".toList, [], []] := by
    decide +kernel
  have hlast : bracedFunction.config.definitionSpacing.getLast? = some '\n' := by decide
  have hapart : bracedFunction.LeadApart .moveImplementationToSource :=
    ⟨by decide, by simp [hlast, isSpace], by rw [hparts]; decide⟩
  have hedit : bracedInsertion ∈ [⟨.active, 18, 45, [';']⟩, bracedInsertion] := by simp
  have hindent : bracedFunction.config.bodyIndent.isBlank := by decide
  have hiff := (bracesMatch_insertion_iff hindent hplan hedit rfl).2 hapart
  refine ⟨hapart, by decide +kernel, hiff.mpr ?_⟩
  rw [hparts, Brackets.matched_iff_balanced (by decide)]
  decide

/-- A declaration behind the brace that closes a namespace. -/
def closingSite : Site where
  role := .header
  active := ⟨"namespace N \x7b\nvoid g();\n\x7d void f();\n".toList⟩
  line := 2
  counterpart := some ⟨[]⟩
  counterpartName := "a.cpp".toList
  config := {}

def closingInsertion : Edit :=
  ⟨.counterpart, 0, 0, "\n\n\x7d void N::f()\n\x7b\n    \n\x7d\n".toList⟩

theorem not_bracesMatch_closingSite :
    closingSite.config.definitionSpacing.isBlank ∧ closingSite.config.bodyIndent.isBlank ∧
      (closingSite.plan? .declareInSource).value = .ok
        ⟨.declareInSource, "Declare in a.cpp".toList, [closingInsertion]⟩ ∧
      ¬ Brackets.Matched '{' '}' closingInsertion.replacement.code := by
  refine ⟨by decide, by decide, by decide +kernel, ?_⟩
  rw [Brackets.matched_iff_balanced (by decide)]
  decide +kernel

end Site

end OutOfLine

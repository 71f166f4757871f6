import OutOfLine.Proofs.Prototypes
import OutOfLine.Proofs.ReturnTypes
import OutOfLine.Proofs.StrippedParameters

/-!
# Reading back a rendered definition

The definition of a member outside its class is a prototype again: the specifiers of its type are dropped,
its name is qualified by the enclosing scopes and its parameters are spaced anew. It is therefore read back
as the member it was rendered from, unless its type still starts with a storage keyword.
-/

namespace OutOfLine

theorem Signature.TypeTokens.dropWhile_isSpace {ts : List Token} (h : TypeTokens ts) :
    TypeTokens (ts.dropWhile Token.isSpace) := by
  induction h with
  | nil => exact .nil
  | word hw hts => exact .word hw hts
  | space _ ih => exact ih
  | star hts => exact .star hts
  | commentClose hts => exact .commentClose hts
  | pair hts => exact .pair hts
  | arguments hinner hts => exact .arguments hinner hts

namespace Prototype

section Taken

variable {p : Prototype} {storage : Storage} {ts : List Token}

/-- The tokens between a storage keyword at the start of the type and the name. -/
def takenTokens (p : Prototype) (ts : List Token) : List Token :=
  ts ++ p.gap.tokens ++ stars p.mark ++ pathTokens p.pathWords

theorem typeTokens_eq_taken (hconstant : p.constant = false)
    (hcode : p.type.code = .word storage.keyword :: ts) :
    p.typeTokens = .word storage.keyword :: p.takenTokens ts := by
  simp [typeTokens, constantTokens, hconstant, hcode, takenTokens]

theorem typeTokens_takenTokens (hconstant : p.constant = false)
    (hcode : p.type.code = .word storage.keyword :: ts) : Signature.TypeTokens (p.takenTokens ts) := by
  have htype := p.typeTokens_typeTokens
  rw [typeTokens_eq_taken hconstant hcode] at htype
  cases htype with
  | word _ hts => exact hts

theorem exists_head_taken (hconstant : p.constant = false)
    (hcode : p.type.code = .word storage.keyword :: ts) (rest : List Token) :
    ∃ t, ((p.takenTokens ts).dropWhile Token.isSpace ++ .word p.nameWord :: rest).head? = some t ∧
      t.isSpace = false ∧ t ≠ .word "const".toList := by
  have htokens := (typeTokens_takenTokens hconstant hcode).dropWhile_isSpace
  have hfirst := List.head?_dropWhile_not Token.isSpace (p.takenTokens ts)
  cases hdrop : (p.takenTokens ts).dropWhile Token.isSpace with
  | nil => exact ⟨_, rfl, rfl, fun heq => p.parts.not_const (Token.word.inj heq)⟩
  | cons t more =>
    rw [hdrop] at hfirst htokens
    refine ⟨t, rfl, by simpa using hfirst, ?_⟩
    rintro rfl
    cases htokens with
    | word hw _ => exact hw rfl

/-- A storage keyword at the start of the type is read as storage. -/
def taken (hconstant : p.constant = false) (hcode : p.type.code = .word storage.keyword :: ts) :
    Draft.Written where
  specifiers :=
    { lead := p.lead.tokens
      storage := some storage
      gap := (p.takenTokens ts).takeWhile Token.isSpace
      constant := false
      lead_space := p.lead_space
      gap_space := fun _ ht => List.mem_takeWhile_imp ht }
  parts :=
    { p.parts with
      type := (p.takenTokens ts).dropWhile Token.isSpace
      type_tokens := (typeTokens_takenTokens hconstant hcode).dropWhile_isSpace }
  qualifiers := p.qualifiers.code
  qualifiers_apart := p.qualifiers_code
  starts := by
    obtain ⟨t, hhead, hspace, hconst⟩ := exists_head_taken hconstant hcode _
    exact ⟨t, hhead, .inr ⟨hspace, hconst, by simp⟩⟩
  not_final := p.nameWord_ne_final

theorem tokens_taken (hstorage : p.storage = none) (hconstant : p.constant = false)
    (hcode : p.type.code = .word storage.keyword :: ts) : (taken hconstant hcode).tokens = p.tokens := by
  have hparts : p.parts.tokens = .word storage.keyword :: (p.takenTokens ts ++ .word p.nameWord ::
      (Signature.argumentTokens p.parts.args ++ .delimiter '(' :: (p.parts.params ++ [.delimiter ')']))) := by
    have htype := typeTokens_eq_taken hconstant hcode
    simp only [Signature.Parts.tokens, parts, htype, List.cons_append]
  have hspecifiers : p.specifiers.tokens = p.lead.tokens := by
    simp [specifiers, Draft.Specifiers.tokens, Draft.Specifiers.storageTokens, hstorage, hconstant]
  have htaken : (taken hconstant hcode).tokens = p.lead.tokens ++ [.word storage.keyword] ++
      (p.takenTokens ts).takeWhile Token.isSpace ++ [] ++ ((p.takenTokens ts).dropWhile Token.isSpace ++
        .word p.nameWord :: (Signature.argumentTokens p.parts.args ++ .delimiter '(' ::
          (p.parts.params ++ [.delimiter ')']))) ++ p.qualifiers.code := rfl
  have hdivide (rest : List Token) : (p.takenTokens ts).takeWhile Token.isSpace ++
      ((p.takenTokens ts).dropWhile Token.isSpace ++ rest) = p.takenTokens ts ++ rest := by
    rw [← List.append_assoc, List.takeWhile_append_dropWhile]
  rw [htaken, tokens, hparts, hspecifiers]
  simp only [List.append_assoc, List.cons_append, List.nil_append, hdivide]

section Unqualified

variable (hscope : p.scope = []) (hgap : p.gap.text ≠ [])

/-- The tokens of the type that remain. -/
def leftTokens (p : Prototype) (ts : List Token) : List Token := (ts ++ p.gap.tokens).dropWhile Token.isSpace

include hscope in
theorem dropWhile_takenTokens :
    (p.takenTokens ts).dropWhile Token.isSpace = p.leftTokens ts ++ stars p.mark := by
  have hstars : (stars p.mark).dropWhile Token.isSpace = stars p.mark := by
    unfold stars
    split <;> rfl
  have htokens : p.takenTokens ts = ts ++ p.gap.tokens ++ stars p.mark := by
    simp [takenTokens, pathWords, hscope, pathTokens]
  rw [htokens, List.dropWhile_append, hstars, leftTokens]
  split
  · next hempty => rw [List.isEmpty_iff.mp hempty, List.nil_append]
  · rfl

include hgap in
theorem getLast?_leftTokens : (p.leftTokens ts).getLast? ≠ some (.delimiter '*') := by
  intro hlast
  obtain ⟨front, hfront⟩ := List.dropWhile_suffix (l := ts ++ p.gap.tokens) Token.isSpace
  refine p.gap.getLast?_append_tokens hgap ts ?_
  rw [← hfront, List.getLast?_append, ← leftTokens, hlast]
  rfl

theorem trim_leftTokens (hlexed : ∀ t ∈ ts, t.isLexed) :
    (Token.concat (p.leftTokens ts)).trim = (Token.concat ts).trim := by
  have hblank : ∀ c ∈ Token.concat ((ts ++ p.gap.tokens).takeWhile Token.isSpace), isBlankChar c := by
    intro c hc
    obtain ⟨t, ht, hct⟩ := List.mem_flatMap.mp hc
    have hspace := List.mem_takeWhile_imp ht
    rcases List.mem_append.mp ((List.takeWhile_prefix _).subset ht) with hts | hgap
    · have hlex := hlexed t hts
      cases t with
      | space d =>
        obtain rfl : c = d := by simpa [Token.text] using hct
        exact hlex
      | _ => simp [Token.isSpace] at hspace
    · refine p.gap.isBlankChar_of_mem c ?_
      rw [← p.gap.concat_tokens]
      exact List.mem_flatMap.mpr ⟨t, hgap, hct⟩
  rw [← Text.trim_append_blank p.gap.isBlankChar_of_mem (Token.concat ts), ← p.gap.concat_tokens,
    ← Token.concat_append, ← List.takeWhile_append_dropWhile (p := Token.isSpace) (l := ts ++ p.gap.tokens),
    Token.concat_append, Text.trim_blank_append hblank]
  rfl

include hscope hgap in
theorem record_taken (hconstant : p.constant = false) (hcode : p.type.code = .word storage.keyword :: ts)
    (hlexed : ∀ t ∈ ts, t.isLexed) (source : Text) (body : Option Text) :
    (taken hconstant hcode).record source body =
      { p.record source body with storage := some storage, returnType := (Token.concat ts).trim } := by
  have hname : p.nameWord = ampersands p.mark ++ p.name := by simp [nameWord, hscope]
  have hmarked : Signature.marked p.nameWord ((p.takenTokens ts).dropWhile Token.isSpace).reverse =
      (p.mark, (p.leftTokens ts).reverse) := by
    rw [dropWhile_takenTokens hscope, hname]
    exact marked_ampersands p.name_identifier p.mark (getLast?_leftTokens hgap)
  have htype : (taken hconstant hcode).parts.signature.returnType = (Token.concat ts).trim := by
    change (Signature.textOf (Signature.marked p.nameWord
      ((p.takenTokens ts).dropWhile Token.isSpace).reverse).2).trim = _
    rw [hmarked, Signature.textOf, List.reverse_reverse, trim_leftTokens hlexed]
  have hmark : (taken hconstant hcode).parts.signature.indirection = p.mark := by
    change (Signature.marked p.nameWord ((p.takenTokens ts).dropWhile Token.isSpace).reverse).1 = _
    rw [hmarked]
  have harguments : (taken hconstant hcode).parts.signature.templateArgs = p.arguments := p.arguments_signature
  have hparameters : (taken hconstant hcode).parts.signature.parameters = p.parameters :=
    p.parameters_closed.concat_code
  have hname' : (taken hconstant hcode).parts.signature.name = p.name := p.takeReference_nameWord
  have hqualifiers := addendumText_code p.wordy_qualifiers
  simp only [Draft.Layout.record, Draft.recordOf, htype, hmark, harguments, hparameters, hname']
  simp only [taken, hqualifiers, record, hscope, hconstant, if_true]
  rfl

end Unqualified

end Taken

theorem exists_code_of_not_startsPlain {p : Prototype} (h : ¬ p.startsPlain) :
    p.storage = none ∧ p.constant = false ∧
      ∃ (storage : Storage) (ts : List Token), p.type.code = .word storage.keyword :: ts := by
  simp only [startsPlain, not_forall, not_not] at h
  obtain ⟨hstorage, hconstant, storage, hhead⟩ := h
  obtain ⟨ts, hts⟩ := List.head?_eq_some_iff.mp hhead
  exact ⟨hstorage, hconstant, storage, ts, hts⟩

/-- A prototype without qualification is read as its record, up to a storage keyword that its type starts
with. -/
theorem exists_parse_semicolon (p : Prototype) (hscope : p.scope = [])
    (hspaces : ∀ c ∈ p.text, isBlankChar c → isSpace c) :
    ∃ storage type, Text.IsType type ∧ Declaration.parse (p.text ++ [';']) =
      { p.record (p.text ++ [';']) none with storage := storage, returnType := type } := by
  have htype : p.type.IsType :=
    ⟨p.type_closed, p.type_tokens, p.type_trim, fun c hc => hspaces c (by simp [text, hc])⟩
  by_cases h : p.startsPlain
  · refine ⟨p.storage, p.type, htype, ?_⟩
    rw [parse_semicolon (w := p.written h) rfl, p.record_written h]
    simp [record, hscope]
  · -- No space need stand after the keyword, so what is read is not a prototype with that storage.
    obtain ⟨hstorage, hconstant, storage, ts, hcode⟩ := exists_code_of_not_startsPlain h
    have hnumber : Lexer.inNumber storage.keyword.reverse = false := by cases storage <;> decide
    have htext : p.type = storage.keyword ++ Token.concat ts := by
      rw [← p.type_closed.concat_code, hcode]
      rfl
    have hgap : p.gap.text ≠ [] := by
      rw [Ne, p.gap_iff, htext]
      simp [storage.keyword_ne_nil]
    have hlexed : ∀ t ∈ ts, t.isLexed :=
      fun t ht => p.isLexed_type t (by rw [hcode]; exact List.mem_cons_of_mem _ ht)
    have hhead : (storage.keyword ++ Token.concat ts).code.head? = some (.word storage.keyword) := by
      rw [← htext, hcode]
      rfl
    rw [htext] at htype
    obtain ⟨-, -, hrest⟩ := htype.drop_word storage.isWordy_keyword hnumber storage.keyword_ne_nil hhead
    refine ⟨some storage, (Token.concat ts).trim, ?_, ?_⟩
    · rw [hrest.trim_eq]
      exact hrest
    · rw [parse_semicolon (tokens_taken hstorage hconstant hcode), record_taken hscope hgap hconstant hcode hlexed]

end Prototype

namespace Text

/-- A name written as identifiers with pairs of colons between them. -/
def IsPath (t : Text) : Prop :=
  ∃ names : List Text, names ≠ [] ∧ (∀ name ∈ names, name.isIdentifier ∧ name ∉ specifierWords) ∧
    t = join [':', ':'] names

theorem join_append_pair {names : List Text} (h : names ≠ []) :
    join [':', ':'] names ++ [':', ':'] = names.flatMap (· ++ [':', ':']) := by
  induction names with
  | nil => exact absurd rfl h
  | cons name names ih =>
    cases names with
    | nil => simp [join, List.intercalate]
    | cons next names =>
      rw [join_cons_cons, List.append_assoc, ih (by simp)]
      simp

end Text

/-- The qualifier of a chain of paths is made of the names of the paths. -/
theorem Chain.exists_names {chain : Chain} (h : ∀ frame ∈ chain, frame.name.IsPath) :
    ∃ names : List Text, (∀ name ∈ names, name.isIdentifier ∧ name ∉ specifierWords) ∧
      (names = [] ↔ chain = []) ∧ chain.qualifier [':', ':'] = names.flatMap (· ++ [':', ':']) := by
  induction chain with
  | nil => exact ⟨[], by simp, by simp, rfl⟩
  | cons frame chain ih =>
    rw [List.forall_mem_cons] at h
    obtain ⟨⟨path, hne, hpath, hname⟩, hrest⟩ := h
    obtain ⟨names, hnames, -, hqualifier⟩ := ih hrest
    refine ⟨path ++ names, ?_, by simp [hne], ?_⟩
    · intro name hmem
      rcases List.mem_append.mp hmem with hmem | hmem
      · exact hpath name hmem
      · exact hnames name hmem
    · have hcons : Chain.qualifier [':', ':'] (frame :: chain) =
          frame.name ++ [':', ':'] ++ Chain.qualifier [':', ':'] chain := rfl
      rw [hcons, hname, Text.join_append_pair hne, hqualifier, List.flatMap_append]

namespace Declaration

/-- A record whose definition is a prototype. -/
structure Renderable (d : Declaration) : Prop where
  type : d.returnType.IsType
  name_identifier : d.name.isIdentifier
  name_not_mem : d.name ∉ Signature.statementKeywords ∧ d.name ∉ specifierWords ∧ d.name ≠ "final".toList
  arguments : ∀ list ∈ d.templateArgs, list.Closed ∧ Signature.Arguments list.code
  parameters_closed : d.parameters.Closed
  parameters_balanced : Brackets.Balanced '(' ')' d.parameters.code
  parameters_assign : '=' ∉ d.parameters
  parameters_unquoted : ∀ c ∈ d.parameters, Lexer.isQuote c = false
  addendum : ∀ c ∈ d.addendum.getD [], isWordChar c ∨ isSpace c
  initializers : d.initializers = none

/-- The words of the qualifiers of the definition. -/
def qualifierWords (d : Declaration) : List Text := (d.addendum.getD []).words.filter (· ∉ classOnlyQualifiers)

theorem definitionQualifiers_eq (d : Declaration) : d.definitionQualifiers = Text.join [' '] d.qualifierWords := rfl

theorem words_definitionQualifiers (d : Declaration) : d.definitionQualifiers.words = d.qualifierWords :=
  Text.words_join fun _ hword => Text.ne_nil_and_not_blank_of_mem_words (List.mem_filter.mp hword).1

theorem definitionQualifiers_isEmpty (d : Declaration) :
    d.definitionQualifiers.isEmpty = d.qualifierWords.isEmpty := by
  rw [← d.words_definitionQualifiers]
  cases hempty : d.definitionQualifiers with
  | nil => rfl
  | cons c rest =>
    have hwords : Text.words (c :: rest) ≠ [] := by
      rw [← hempty, words_definitionQualifiers]
      rintro hnil
      rw [definitionQualifiers_eq, hnil] at hempty
      simp [Text.join, List.intercalate] at hempty
    simpa [List.isEmpty_iff] using hwords

/-- What stands between the parameters of the definition and its body. -/
def qualifierText (d : Declaration) : Text :=
  (if d.definitionQualifiers.isEmpty then [] else [' '] ++ d.definitionQualifiers) ++ ['\n']

theorem words_qualifierText (d : Declaration) : d.qualifierText.words = d.qualifierWords := by
  rw [qualifierText, Text.words_append_blank (List.all_eq_true.mp (by decide)), ← words_definitionQualifiers]
  split
  · next hempty => rw [List.isEmpty_iff.mp hempty]
  · exact Text.words_cons_blank (by decide) _

theorem Renderable.mem_qualifierText {d : Declaration} (h : d.Renderable) :
    ∀ c ∈ d.qualifierText, isWordChar c ∨ isSpace c := by
  have hqualifiers : ∀ c ∈ d.definitionQualifiers, isWordChar c ∨ isSpace c := by
    intro c hc
    rcases Text.mem_join hc with ⟨word, hword, hcword⟩ | hc
    · exact h.addendum c (Text.subset_of_mem_words (List.mem_filter.mp hword).1 hcword)
    · obtain rfl := List.mem_singleton.mp hc
      exact .inr rfl
  intro c hc
  rcases List.mem_append.mp hc with hc | hc
  · split at hc
    · simp at hc
    · rcases List.mem_cons.mp hc with rfl | hc
      · exact .inr rfl
      · exact hqualifiers c hc
  · obtain rfl := List.mem_singleton.mp hc
    exact .inr rfl

/-- The space between the type of the definition and its name. -/
def typeGap (d : Declaration) : Gap :=
  if withoutSpecifiers d.returnType = [] then ⟨[], by simp⟩ else ⟨[' '], by decide⟩

theorem append_typeGap (d : Declaration) : withoutSpecifiers d.returnType ++ d.typeGap.text =
    if withoutSpecifiers d.returnType = [] then [] else withoutSpecifiers d.returnType ++ [' '] := by
  rw [typeGap]
  split
  · next hempty => rw [hempty, List.nil_append]
  · rfl

/-- The definition of a record as a prototype, its name qualified by the names of the enclosing scopes. -/
def Renderable.prototype {d : Declaration} (h : d.Renderable) {names : List Text}
    (hnames : ∀ name ∈ names, name.isIdentifier ∧ name ∉ specifierWords) : Prototype where
  lead := ⟨[], by simp⟩
  storage := none
  storageGap := ⟨[], by simp⟩
  constant := d.constReturn
  constantGap := ⟨[' '], by decide⟩
  type := withoutSpecifiers d.returnType
  gap := d.typeGap
  mark := d.indirection
  scope := names
  name := d.name
  arguments := d.templateArgs
  parameters := Parameters.stripDefaults d.parameters
  qualifiers := d.qualifierText
  storageGap_ne := Prototype.gap_ne_of_absent
  constantGap_ne := by simp
  gap_iff := by
    rw [typeGap]
    split <;> simp_all
  type_closed := (isType_withoutSpecifiers h.type).closed
  type_tokens := (isType_withoutSpecifiers h.type).tokens
  type_trim := (isType_withoutSpecifiers h.type).trimmed
  scope_names := hnames
  name_identifier := h.name_identifier
  name_not_mem := h.name_not_mem
  arguments_closed := h.arguments
  parameters_closed :=
    Parameters.closed_stripDefaults h.parameters_assign h.parameters_unquoted h.parameters_closed
  parameters_balanced :=
    Parameters.balanced_stripDefaults h.parameters_assign h.parameters_unquoted h.parameters_closed
      h.parameters_balanced
  qualifiers_words := h.mem_qualifierText

/-- The record of the definition of a member. The qualification of its name and the mark before it belong to
its type. -/
def definitionRecord (d : Declaration) (chain : Chain) (config : Config) (body : Text) : Declaration where
  constReturn := d.constReturn
  returnType :=
    let type := withoutSpecifiers d.returnType
    if chain = [] then type
    else (if type = [] then [] else type ++ [' ']) ++ d.indirection.elim [] Indirection.text ++
      chain.qualifier config.scopeSeparator
  templateArgs := d.templateArgs
  indirection := if chain = [] then d.indirection else none
  name := d.name
  parameters := Parameters.stripDefaults d.parameters
  addendum := if d.definitionQualifiers.isEmpty then none else some d.definitionQualifiers
  body := some body
  sourceText := d.signatureIn chain config ++ ['\n']
  valid := true

/-- No word that is read as storage is left at the start of the definition. -/
def DropsStorage (d : Declaration) : Prop :=
  d.constReturn ∨ ∀ storage : Storage,
    (withoutSpecifiers d.returnType).code.head? ≠ some (.word storage.keyword)

section Rendering

variable {d : Declaration} (h : d.Renderable) {names : List Text}
  (hnames : ∀ name ∈ names, name.isIdentifier ∧ name ∉ specifierWords) {chain : Chain} {config : Config}

theorem Renderable.startsPlain_iff : (h.prototype hnames).startsPlain ↔ d.DropsStorage := by
  change (none = none → d.constReturn = false → ∀ storage : Storage,
    (withoutSpecifiers d.returnType).code.head? ≠ some (.word storage.keyword)) ↔ _
  rw [DropsStorage]
  cases d.constReturn <;> simp

variable (hqualifier : chain.qualifier config.scopeSeparator = names.flatMap (· ++ [':', ':']))

include hqualifier

theorem Renderable.text_prototype : (h.prototype hnames).text = d.signatureIn chain config ++ ['\n'] := by
  have hconstant : (if d.constReturn then "const".toList ++ [' '] else []) =
      if d.constReturn then "const ".toList else [] := by
    cases d.constReturn <;> rfl
  have htext : (h.prototype hnames).text =
      [] ++ [] ++ (if d.constReturn then "const".toList ++ [' '] else []) ++ withoutSpecifiers d.returnType ++
        d.typeGap.text ++ d.indirection.elim [] Indirection.text ++ names.flatMap (· ++ [':', ':']) ++ d.name ++
        d.templateArgs.elim [] (fun list => ['<'] ++ list ++ ['>']) ++ ['('] ++
        Parameters.stripDefaults d.parameters ++ [')'] ++ d.qualifierText := rfl
  rw [htext, hconstant]
  simp only [signatureIn, qualifierText, hqualifier, List.isEmpty_iff, ← d.append_typeGap, List.append_assoc,
    List.nil_append]

theorem Renderable.record_prototype (hempty : names = [] ↔ chain = []) (body : Text) :
    (h.prototype hnames).record (d.signatureIn chain config ++ ['\n']) (some body) =
      d.definitionRecord chain config body := by
  have hwords : d.qualifierText.words.isEmpty = d.definitionQualifiers.isEmpty := by
    rw [words_qualifierText, definitionQualifiers_isEmpty]
  have hjoin : Text.join [' '] d.qualifierText.words = d.definitionQualifiers := by
    rw [words_qualifierText, definitionQualifiers_eq]
  simp only [Prototype.record, Renderable.prototype, definitionRecord, hwords, hjoin, hempty, hqualifier,
    Prototype.markText, Prototype.scopeText, d.append_typeGap]

end Rendering

section Definition

variable {d : Declaration} (h : d.Renderable) {chain : Chain} (hchain : ∀ frame ∈ chain, frame.name.IsPath)
  {config : Config} (hseparator : config.scopeSeparator = [':', ':']) {block : Text} (hclosed : block.Closed)
  (hbalanced : Brackets.Balanced '{' '}' block.code)

include h hchain hseparator

/-- A definition is a prototype with a body. -/
theorem Renderable.exists_prototype :
    ∃ p : Prototype, (p.startsPlain ↔ d.DropsStorage) ∧
      (∀ body, d.definitionIn chain config (some body) = p.text ++ body) ∧
      ∀ body, p.record p.text (some body) = d.definitionRecord chain config body := by
  obtain ⟨names, hnames, hempty, hpath⟩ := Chain.exists_names hchain
  have hqualifier : chain.qualifier config.scopeSeparator = names.flatMap (· ++ [':', ':']) := by
    rw [hseparator, hpath]
  have htext := h.text_prototype hnames hqualifier
  refine ⟨h.prototype hnames, h.startsPlain_iff hnames, fun body => ?_, fun body => ?_⟩
  · rw [htext]
    simp [definitionIn, h.initializers]
  · rw [htext, h.record_prototype hnames hqualifier hempty]

include hclosed hbalanced

theorem Renderable.parse_definitionIn (hdrops : d.DropsStorage) :
    parse (d.definitionIn chain config (some ('{' :: (block ++ ['}'])))) =
      d.definitionRecord chain config ('{' :: (block ++ ['}'])) := by
  obtain ⟨p, hstarts, htext, hrecord⟩ := h.exists_prototype hchain hseparator
  have hplain := hstarts.mpr hdrops
  rw [htext, ← hrecord, ← p.record_written hplain]
  exact Prototype.parse_block (w := p.written hplain) rfl hclosed hbalanced []

theorem Renderable.storage_definitionIn (hkeeps : ¬ d.DropsStorage) :
    (parse (d.definitionIn chain config (some ('{' :: (block ++ ['}']))))).storage ≠ none := by
  obtain ⟨p, hstarts, htext, -⟩ := h.exists_prototype hchain hseparator
  obtain ⟨hnone, hconstant, storage, ts, hcode⟩ :=
    Prototype.exists_code_of_not_startsPlain (mt hstarts.mp hkeeps)
  have hparse := Prototype.parse_block (Prototype.tokens_taken hnone hconstant hcode) hclosed hbalanced []
  rw [htext, hparse]
  simp [Draft.Layout.record, Draft.recordOf, Prototype.taken]

end Definition

end Declaration

/-- The record of a prototype can be rendered. -/
theorem Prototype.renderable_parse (p : Prototype) (hscope : p.scope = [])
    (hspaces : ∀ c ∈ p.text, isBlankChar c → isSpace c) (hassign : '=' ∉ p.parameters)
    (hquote : ∀ c ∈ p.parameters, Lexer.isQuote c = false) :
    (Declaration.parse (p.text ++ [';'])).Renderable := by
  obtain ⟨storage, type, htype, hparse⟩ := p.exists_parse_semicolon hscope hspaces
  rw [hparse]
  refine ⟨htype, p.name_identifier, p.name_not_mem, p.arguments_closed, p.parameters_closed,
    p.parameters_balanced, hassign, hquote, ?_, rfl⟩
  intro c hc
  simp only [record] at hc
  split at hc
  · simp at hc
  · rcases Text.mem_join hc with ⟨word, hword, hcword⟩ | hc
    · exact p.qualifiers_words c (Text.subset_of_mem_words hword hcword)
    · obtain rfl := List.mem_singleton.mp hc
      exact .inr rfl

/-- A rendered definition is read back as the member it was rendered from, with no storage, exactly when no
storage keyword is left at its start; otherwise that keyword is read as storage. No prototype is called `final`:
the reader passes over that word and looks for the name before it. -/
theorem Declaration.parse_definitionIn_iff (p : Prototype) (hscope : p.scope = [])
    (hspaces : ∀ c ∈ p.text, isBlankChar c → isSpace c) (hassign : '=' ∉ p.parameters)
    (hquote : ∀ c ∈ p.parameters, Lexer.isQuote c = false) (chain : Chain)
    (hchain : ∀ frame ∈ chain, frame.name.IsPath) (config : Config)
    (hseparator : config.scopeSeparator = [':', ':']) (block : Text) (hclosed : block.Closed)
    (hbalanced : Brackets.Balanced '{' '}' block.code) :
    let d := parse (p.text ++ [';'])
    let body := '{' :: (block ++ ['}'])
    let e := parse (d.definitionIn chain config (some body))
    (e = d.definitionRecord chain config body ∧ Parameters.split e.parameters = Parameters.split d.parameters ↔
        d.DropsStorage) ∧
      (e.storage = none ↔ d.DropsStorage) := by
  intro d body e
  have hd : d.Renderable := p.renderable_parse hscope hspaces hassign hquote
  clear_value d
  by_cases hdrops : d.DropsStorage
  · have hrecord : e = d.definitionRecord chain config body :=
      hd.parse_definitionIn hchain hseparator hclosed hbalanced hdrops
    have hsplit := Parameters.split_stripDefaults hd.parameters_assign hd.parameters_unquoted
    rw [hrecord]
    exact ⟨iff_of_true ⟨rfl, hsplit⟩ hdrops, iff_of_true rfl hdrops⟩
  · have hstorage : e.storage ≠ none := hd.storage_definitionIn hchain hseparator hclosed hbalanced hdrops
    refine ⟨iff_of_false (fun hrecord => hstorage ?_) hdrops, iff_of_false hstorage hdrops⟩
    rw [hrecord.1]
    rfl

/-- A member with specifiers, a spaced type and qualifiers of which one stays in the class. -/
def Prototype.accessor : Prototype where
  lead := .blank
  storage := some .virtual
  storageGap := .blank
  constant := false
  constantGap := ⟨[], by simp⟩
  type := "inline\tns::Map<K, (V)> *".toList
  gap := .blank
  mark := some .reference
  scope := []
  name := "at".toList
  arguments := some "A".toList
  parameters := "Key key ,int (*f)(char,T)".toList
  qualifiers := " const override\nnoexcept".toList
  storageGap_ne := by decide
  constantGap_ne := by decide
  gap_iff := by decide
  type_closed := by decide +kernel
  type_tokens := by
    have hcode : Text.code "inline\tns::Map<K, (V)> *".toList =
        .word "inline".toList :: .space '\t' :: .word "ns".toList :: .delimiter ':' :: .delimiter ':' ::
          .word "Map".toList :: .delimiter '<' :: ([.word "K,".toList, .space ' ', .delimiter '(',
            .word "V".toList, .delimiter ')'] ++ .delimiter '>' :: [.space ' ', .delimiter '*']) := by
      decide +kernel
    rw [hcode]
    refine .word (by decide) (.space (.word (by decide) (.pair (.word (by decide)
      (.arguments ?_ (.space (.star .nil)))))))
    exact ⟨by decide, by decide, Signature.paired_of_not_mem (by decide)⟩
  type_trim := by decide +kernel
  scope_names := scope_names_nil
  name_identifier := by decide +kernel
  name_not_mem := by decide
  arguments_closed := by
    intro list hlist
    obtain rfl : "A".toList = list := Option.some.inj hlist
    exact ⟨by decide +kernel, by decide +kernel, by decide +kernel,
      Signature.paired_of_not_mem (by decide +kernel)⟩
  parameters_closed := by decide +kernel
  parameters_balanced := by decide +kernel
  qualifiers_words := by
    have hwords : " const override\nnoexcept".toList.all fun c => isSpace c || isWordChar c := by decide +kernel
    intro c hc
    simpa [or_comm] using List.all_eq_true.mp hwords c hc

theorem Declaration.parse_definitionIn_accessor :
    let d := parse (" virtual inline\tns::Map<K, (V)> * &at<A>".toList ++
      "(Key key ,int (*f)(char,T)) const override\nnoexcept;".toList)
    let chain : Chain := [⟨.namespaceScope, "ns::detail".toList⟩, ⟨.classScope, "Table".toList⟩]
    d.DropsStorage ∧
      parse (d.definitionIn chain {} (some "\x7b return \"\x7d\"; \x7d".toList)) =
        { returnType := "ns::Map<K, (V)> * &ns::detail::Table::".toList
          templateArgs := some "A".toList
          name := "at".toList
          parameters := "Key key, int (*f)(char,T)".toList
          addendum := some "const noexcept".toList
          body := some "\x7b return \"\x7d\"; \x7d".toList
          sourceText := "ns::Map<K, (V)> * &ns::detail::Table::at<A>".toList ++
            "(Key key, int (*f)(char,T)) const noexcept\n".toList
          valid := true } := by
  have htext : Prototype.accessor.text ++ [';'] = " virtual inline\tns::Map<K, (V)> * &at<A>".toList ++
      "(Key key ,int (*f)(char,T)) const override\nnoexcept;".toList := by decide +kernel
  have hchain : ∀ frame ∈ ([⟨.namespaceScope, "ns::detail".toList⟩, ⟨.classScope, "Table".toList⟩] : Chain),
      frame.name.IsPath := by
    rw [List.forall_mem_cons, List.forall_mem_singleton]
    exact ⟨⟨["ns".toList, "detail".toList], by decide, by decide +kernel, by decide⟩,
      ⟨["Table".toList], by decide, by decide +kernel, by decide⟩⟩
  have hspaces : Prototype.accessor.text.all fun c => !isBlankChar c || isSpace c := by decide +kernel
  have hquote : Prototype.accessor.parameters.all (!Lexer.isQuote ·) := by decide +kernel
  have hread := parse_definitionIn_iff Prototype.accessor rfl
    (fun c hc hblank => by simpa [hblank] using List.all_eq_true.mp hspaces c hc) (by decide)
    (fun c hc => by simpa using List.all_eq_true.mp hquote c hc) _ hchain {} rfl
    " return \"\x7d\"; ".toList (by decide +kernel) (by decide +kernel)
  have hparse : parse (" virtual inline\tns::Map<K, (V)> * &at<A>".toList ++
      "(Key key ,int (*f)(char,T)) const override\nnoexcept;".toList) =
        { storage := some .virtual
          returnType := "inline\tns::Map<K, (V)> *".toList
          templateArgs := some "A".toList
          indirection := some .reference
          name := "at".toList
          parameters := "Key key ,int (*f)(char,T)".toList
          addendum := some "const override noexcept".toList
          sourceText := Prototype.accessor.text ++ [';']
          valid := true } := by decide +kernel
  have htype : withoutSpecifiers "inline\tns::Map<K, (V)> *".toList = "ns::Map<K, (V)> *".toList := by
    decide +kernel
  rw [htext, hparse] at hread
  rw [hparse]
  intro d chain
  have hdrops : d.DropsStorage := by
    refine .inr fun storage => ?_
    change (withoutSpecifiers "inline\tns::Map<K, (V)> *".toList).code.head? ≠ _
    rw [htype]
    cases storage <;> decide +kernel
  exact ⟨hdrops, (hread.1.mpr hdrops).1.trans (by decide +kernel)⟩

/-- A type that names its namespace from the outermost scope on, written right after `static`. -/
def Prototype.globalType : Prototype where
  lead := ⟨[], by simp⟩
  storage := none
  storageGap := ⟨[], by simp⟩
  constant := false
  constantGap := ⟨[], by simp⟩
  type := "inline static::ns::T".toList
  gap := .blank
  mark := none
  scope := []
  name := "f".toList
  arguments := none
  parameters := []
  qualifiers := []
  storageGap_ne := gap_ne_of_absent
  constantGap_ne := gap_ne_of_absent
  gap_iff := by decide
  type_closed := by decide +kernel
  type_tokens := by
    have hcode : Text.code "inline static::ns::T".toList =
        [.word "inline".toList, .space ' ', .word "static".toList, .delimiter ':', .delimiter ':',
          .word "ns".toList, .delimiter ':', .delimiter ':', .word "T".toList] := by decide +kernel
    rw [hcode]
    exact .word (by decide) (.space (.word (by decide) (.pair (.word (by decide) (.pair (.word (by decide)
      .nil))))))
  type_trim := by decide +kernel
  scope_names := scope_names_nil
  name_identifier := by decide +kernel
  name_not_mem := by decide
  arguments_closed := arguments_closed_none
  parameters_closed := by decide +kernel
  parameters_balanced := by decide +kernel
  qualifiers_words := by simp

/-- The keyword before the colons is taken for a part of the type and stays, and then it is read as storage. -/
theorem Declaration.storage_definitionIn_globalType :
    Prototype.globalType.text ++ [';'] = "inline static::ns::T f();".toList ∧
      let d := parse "inline static::ns::T f();".toList
      let definition := d.definitionIn [⟨.classScope, "C".toList⟩] {} (some "\x7b return x; \x7d".toList)
      definition = "static::ns::T C::f()\n\x7b return x; \x7d".toList ∧
        (parse definition).storage = some .static := by
  decide +kernel

end OutOfLine

import OutOfLine.Proofs.SeparatedText

/-!
# Prototypes

A prototype is a function signature as it is written: specifiers, a type, a marked and possibly qualified
name, template arguments, parameters and qualifiers. Whatever ends it, the parser recovers each of these
parts.
-/

namespace OutOfLine

/-- Classes whose ranges lie apart have no character in common. -/
theorem CharClass.has_eq_false {a b : CharClass} {c : Char}
    (h : a.all fun r => b.all fun s => r.2 < s.1 || s.2 < r.1) (hc : a.has c) : b.has c = false := by
  rw [CharClass.has, List.any_eq_true] at hc
  obtain ⟨r, hr, hrange⟩ := hc
  rw [List.all_eq_true] at h
  have hapart := List.all_eq_true.mp (h r hr)
  rw [CharClass.has, List.any_eq_false]
  intro s hs
  have hrs := hapart s hs
  simp only [Bool.and_eq_true, Bool.or_eq_true, decide_eq_true_eq] at hrange hrs ⊢
  omega

theorem not_blank_of_isWordChar {c : Char} (h : isWordChar c) : ¬ isBlankChar c := by
  have hapart : wordChars.all fun r => blanks.all fun s => r.2 < s.1 || s.2 < r.1 := by decide +kernel
  have hblank : isBlankChar c = false := CharClass.has_eq_false hapart h
  simp [hblank]

namespace Text

/-- A word of letters, digits and underscores, or of what counts as such. -/
def isIdentifier (t : Text) : Bool := !t.isEmpty && t.all isWordChar

variable {t : Text}

theorem ne_nil_of_isIdentifier (h : t.isIdentifier) : t ≠ [] := by
  rintro rfl
  simp [isIdentifier] at h

theorem isWordChar_of_isIdentifier (h : t.isIdentifier) : ∀ c ∈ t, isWordChar c := by
  simp only [isIdentifier, Bool.and_eq_true, List.all_eq_true] at h
  exact h.2

theorem isWordy_of_isIdentifier (h : t.isIdentifier) : ∀ c ∈ t, Lexer.isWordy c :=
  fun c hc => isWordy_of_isWordChar (isWordChar_of_isIdentifier h c hc)

end Text

/-- Spaces, tabs and newlines. -/
structure Gap where
  text : Text
  all_isSpace : text.all isSpace

namespace Gap

def blank : Gap := ⟨" ".toList, by decide⟩

theorem isSpace_of_mem (g : Gap) : ∀ c ∈ g.text, isSpace c := List.all_eq_true.mp g.all_isSpace

def tokens (g : Gap) : List Token := g.text.map Token.space

theorem isBlankChar_of_mem (g : Gap) : ∀ c ∈ g.text, isBlankChar c :=
  fun c hc => Draft.isBlankChar_of_isSpace (g.isSpace_of_mem c hc)

theorem isSpace_of_mem_tokens (g : Gap) : ∀ t ∈ g.tokens, t.isSpace := by
  intro t ht
  obtain ⟨c, -, rfl⟩ := List.mem_map.mp ht
  rfl

@[simp] theorem concat_tokens (g : Gap) : Token.concat g.tokens = g.text := by
  simp [tokens, Token.concat, List.flatMap_map, Token.text]

theorem code_append (g : Gap) (b : Text) : (g.text ++ b).code = g.tokens ++ b.code :=
  Text.code_spaces g.isSpace_of_mem b

/-- No star ends in a gap. -/
theorem getLast?_append_tokens (g : Gap) (h : g.text ≠ []) (front : List Token) :
    (front ++ g.tokens).getLast? ≠ some (.delimiter '*') := by
  intro hlast
  have hne : g.tokens ≠ [] := by simpa [tokens] using h
  obtain ⟨t, ht⟩ := Option.isSome_iff_exists.mp (List.getLast?_isSome.mpr hne)
  have hspace := g.isSpace_of_mem_tokens t (List.mem_of_getLast? ht)
  rw [List.getLast?_append, ht, Option.some_or, Option.some.injEq] at hlast
  simp [hlast, Token.isSpace] at hspace

theorem typeTokens (g : Gap) : Signature.TypeTokens g.tokens := by
  have hall (w : Text) : Signature.TypeTokens (w.map Token.space) := by
    induction w with
    | nil => exact .nil
    | cons c w ih => exact .space ih
  exact hall g.text

end Gap

theorem Storage.keyword_ne_nil (storage : Storage) : storage.keyword ≠ [] := by cases storage <;> decide

theorem Storage.isWordy_keyword (storage : Storage) : ∀ c ∈ storage.keyword, Lexer.isWordy c := by
  cases storage <;> exact List.all_eq_true.mp (by decide)

/-- Words that are read as specifiers. -/
def specifierWords : List Text := ["const".toList, "static".toList, "virtual".toList]

/-- A function signature as it is written. -/
structure Prototype where
  lead : Gap
  storage : Option Storage
  storageGap : Gap
  constant : Bool
  constantGap : Gap
  type : Text
  gap : Gap
  mark : Option Indirection
  /-- The names that qualify the name. -/
  scope : List Text
  name : Text
  arguments : Option Text
  parameters : Text
  qualifiers : Text
  storageGap_ne : storage.isSome → storageGap.text ≠ []
  constantGap_ne : constant → constantGap.text ≠ []
  gap_iff : gap.text = [] ↔ type = []
  type_closed : type.Closed
  type_tokens : Signature.TypeTokens type.code
  type_trim : type.trim = type
  scope_names : ∀ word ∈ scope, word.isIdentifier ∧ word ∉ specifierWords
  name_identifier : name.isIdentifier
  name_not_mem : name ∉ Signature.statementKeywords ∧ name ∉ specifierWords ∧ name ≠ "final".toList
  arguments_closed : ∀ list ∈ arguments, list.Closed ∧ Signature.Arguments list.code
  parameters_closed : parameters.Closed
  parameters_balanced : Brackets.Balanced '(' ')' parameters.code
  qualifiers_words : ∀ c ∈ qualifiers, isWordChar c ∨ isSpace c

namespace Prototype

theorem gap_ne_of_absent : false = true → ¬ ([] : Text) = [] := by simp

theorem scope_names_nil : ∀ word ∈ ([] : List Text), word.isIdentifier ∧ word ∉ specifierWords := by simp

theorem arguments_closed_none : ∀ list ∈ (none : Option Text), list.Closed ∧ Signature.Arguments list.code := by
  simp

theorem lead_space (p : Prototype) : ∀ t ∈ p.lead.tokens, t.isSpace := p.lead.isSpace_of_mem_tokens

def specifierText (p : Prototype) : Text :=
  p.lead.text ++ p.storage.elim [] (fun storage => storage.keyword ++ p.storageGap.text) ++
    if p.constant then "const".toList ++ p.constantGap.text else []

def scopeText (p : Prototype) : Text := p.scope.flatMap fun word => word ++ [':', ':']

def markText (p : Prototype) : Text := p.mark.elim [] Indirection.text

def argumentText (p : Prototype) : Text := p.arguments.elim [] fun list => ['<'] ++ list ++ ['>']

def text (p : Prototype) : Text :=
  p.specifierText ++ p.type ++ p.gap.text ++ p.markText ++ p.scopeText ++ p.name ++ p.argumentText ++
    ['('] ++ p.parameters ++ [')'] ++ p.qualifiers

/-- The record of a prototype. The qualification of a name and a mark before it count as type. -/
def record (p : Prototype) (source : Text) (body : Option Text) : Declaration where
  storage := p.storage
  constReturn := p.constant
  returnType := if p.scope = [] then p.type else p.type ++ p.gap.text ++ p.markText ++ p.scopeText
  templateArgs := p.arguments
  indirection := if p.scope = [] then p.mark else none
  name := p.name
  parameters := p.parameters
  addendum := if p.qualifiers.words.isEmpty then none else some (Text.join [' '] p.qualifiers.words)
  body := body
  sourceText := source
  valid := true

/-- The type does not start with a word that is read as storage. -/
def startsPlain (p : Prototype) : Prop :=
  p.storage = none → p.constant = false → ∀ storage : Storage,
    p.type.code.head? ≠ some (.word storage.keyword)

/-- What a mark adds to the word after it. -/
def ampersands : Option Indirection → Text
  | some .reference => ['&']
  | some .rvalueReference => ['&', '&']
  | _ => []

/-- What a mark adds to the tokens before that word. -/
def stars : Option Indirection → List Token
  | some .pointer => [.delimiter '*']
  | _ => []

/-- The words of the qualification, the mark joined to the first of them. -/
def pathWords (p : Prototype) : List Text :=
  match p.scope with
  | [] => []
  | word :: rest => (ampersands p.mark ++ word) :: rest

/-- The word of the name, the mark joined to it when there is no qualification. -/
def nameWord (p : Prototype) : Text :=
  match p.scope with
  | [] => ampersands p.mark ++ p.name
  | _ :: _ => p.name

def pathTokens (words : List Text) : List Token :=
  words.flatMap fun word => [.word word, .delimiter ':', .delimiter ':']

/-- A word that a name can start with. -/
def IsWord (w : Text) : Prop := w ≠ [] ∧ (∀ c ∈ w, Lexer.isWordy c) ∧ w ∉ specifierWords

theorem isWord_of_identifier {w : Text} (h : w.isIdentifier) (hw : w ∉ specifierWords)
    (mark : Option Indirection) : IsWord (ampersands mark ++ w) := by
  have hwordy := Text.isWordy_of_isIdentifier h
  have hne := Text.ne_nil_of_isIdentifier h
  have hmark : Lexer.isWordy '&' := by decide
  refine ⟨by simp [hne], ?_, ?_⟩
  · intro c hc
    rcases List.mem_append.mp hc with hc | hc
    · obtain rfl : c = '&' := by
        unfold ampersands at hc
        split at hc <;> simp_all
      exact hmark
    · exact hwordy c hc
  · unfold ampersands
    split
    · simp [specifierWords]
    · simp [specifierWords]
    · exact hw

theorem isWord_nameWord (p : Prototype) : IsWord p.nameWord := by
  have hname := isWord_of_identifier p.name_identifier p.name_not_mem.2.1
  unfold nameWord
  split
  · exact hname p.mark
  · exact hname none

theorem isWord_pathWords (p : Prototype) : ∀ word ∈ p.pathWords, IsWord word := by
  have hscope := p.scope_names
  unfold pathWords
  split
  · simp
  · next word rest hs =>
    rw [hs] at hscope
    intro w hw
    rcases List.mem_cons.mp hw with rfl | hw
    · obtain ⟨hid, hnot⟩ := hscope word List.mem_cons_self
      exact isWord_of_identifier hid hnot p.mark
    · obtain ⟨hid, hnot⟩ := hscope w (List.mem_cons_of_mem _ hw)
      exact isWord_of_identifier hid hnot none

theorem code_word_append {w : Text} (h : IsWord w) {c : Char} (hc : Lexer.isSeparator c) (b : Text) :
    (w ++ c :: b).code = .word w :: Text.code (c :: b) := by
  rw [(Text.closed_word h.2.1).code_append hc, Text.code_word h.1 h.2.1, Text.code_separator hc]
  rfl

theorem code_path {words : List Text} (h : ∀ w ∈ words, IsWord w) (b : Text) :
    Text.code (words.flatMap (· ++ [':', ':']) ++ b) = pathTokens words ++ b.code := by
  induction words with
  | nil => rfl
  | cons w words ih =>
    rw [List.forall_mem_cons] at h
    have hcolon : Lexer.isSeparator ':' := by decide
    have htext : (w :: words).flatMap (· ++ [':', ':']) ++ b =
        w ++ ':' :: ':' :: (words.flatMap (· ++ [':', ':']) ++ b) := by simp
    rw [htext, code_word_append h.1 hcolon, Text.code_separator hcolon, Text.code_separator hcolon, ih h.2]
    rfl

theorem declarator_eq (p : Prototype) :
    p.markText ++ p.scopeText ++ p.name =
      Token.concat (stars p.mark) ++ (p.pathWords.flatMap (· ++ [':', ':']) ++ p.nameWord) := by
  have hmark : p.markText = Token.concat (stars p.mark) ++ ampersands p.mark := by
    unfold markText stars ampersands
    cases p.mark with
    | none => rfl
    | some mark => cases mark <;> rfl
  rw [hmark, scopeText, pathWords, nameWord]
  cases p.scope <;> simp

/-- The qualified name starts with the character of a word. -/
theorem exists_head_path (p : Prototype) (b : Text) :
    ∃ d rest, Lexer.isWordy d ∧ p.pathWords.flatMap (· ++ [':', ':']) ++ (p.nameWord ++ b) = d :: rest := by
  have hword {w : Text} (h : IsWord w) (more : Text) : ∃ d rest, Lexer.isWordy d ∧ w ++ more = d :: rest := by
    obtain ⟨hne, hwordy, -⟩ := h
    cases w with
    | nil => exact absurd rfl hne
    | cons d w => exact ⟨d, w ++ more, hwordy d List.mem_cons_self, rfl⟩
  cases hpath : p.pathWords with
  | nil => exact hword p.isWord_nameWord b
  | cons w words =>
    have hw := p.isWord_pathWords w (by simp [hpath])
    simpa using hword hw (':' :: ':' :: (words.flatMap (· ++ [':', ':']) ++ (p.nameWord ++ b)))

theorem code_declarator (p : Prototype) {c : Char} (hc : Lexer.isSeparator c) (b : Text) :
    (p.markText ++ p.scopeText ++ p.name ++ c :: b).code =
      stars p.mark ++ (pathTokens p.pathWords ++ .word p.nameWord :: Text.code (c :: b)) := by
  have hpath := code_path p.isWord_pathWords (p.nameWord ++ c :: b)
  rw [code_word_append p.isWord_nameWord hc] at hpath
  rw [p.declarator_eq, List.append_assoc, List.append_assoc, ← hpath]
  unfold stars
  split
  · obtain ⟨d, rest, hd, htext⟩ := p.exists_head_path (c :: b)
    have hslash : d ≠ '/' := by
      rintro rfl
      revert hd
      decide
    rw [htext]
    exact Text.code_star hslash rest
  · rfl

/-- Text before a gap is lexed by itself. -/
theorem code_gap {a : Text} (ha : a.Closed) {g : Gap} (hg : g.text ≠ []) (b : Text) :
    (a ++ (g.text ++ b)).code = a.code ++ (g.tokens ++ b.code) := by
  rw [← g.code_append]
  obtain ⟨c, w, htext⟩ := List.exists_cons_of_ne_nil hg
  have hc : Lexer.isSeparator c := by
    have hspace := g.isSpace_of_mem c (by simp [htext])
    simp [Lexer.isSeparator, hspace]
  rw [htext, List.cons_append, ha.code_append hc, Text.code_separator hc]

def specifiers (p : Prototype) : Draft.Specifiers where
  lead := p.lead.tokens
  storage := p.storage
  gap := if p.storage.isSome then p.storageGap.tokens else []
  constant := p.constant
  lead_space := p.lead_space
  gap_space := by
    split
    · exact p.storageGap.isSpace_of_mem_tokens
    · simp

/-- The blanks after `const`, which the reader counts as type. -/
def constantTokens (p : Prototype) : List Token := if p.constant then p.constantGap.tokens else []

theorem code_specifierText (p : Prototype) (b : Text) :
    (p.specifierText ++ b).code = p.specifiers.tokens ++ (p.constantTokens ++ b.code) := by
  have hconstant : Text.code ((if p.constant then "const".toList ++ p.constantGap.text else []) ++ b) =
      (if p.constant then [.word "const".toList] else []) ++ (p.constantTokens ++ b.code) := by
    rw [constantTokens]
    split
    · next hc =>
      have hword : ∀ c ∈ "const".toList, Lexer.isWordy c := List.all_eq_true.mp (by decide)
      rw [List.append_assoc, code_gap (Text.closed_word hword) (p.constantGap_ne hc),
        Text.code_word (by simp) hword]
    · rfl
  have hstorage (b : Text) : Text.code (p.storage.elim [] (fun s => s.keyword ++ p.storageGap.text) ++ b) =
      p.storage.toList.map (.word ·.keyword) ++
        ((if p.storage.isSome then p.storageGap.tokens else []) ++ b.code) := by
    cases hs : p.storage with
    | none => rfl
    | some storage =>
      have hword := storage.isWordy_keyword
      rw [Option.elim_some, List.append_assoc,
        code_gap (Text.closed_word hword) (p.storageGap_ne (by simp [hs])),
        Text.code_word storage.keyword_ne_nil hword]
      rfl
  rw [specifierText, List.append_assoc, List.append_assoc, p.lead.code_append, hstorage, hconstant,
    Draft.Specifiers.tokens]
  simp only [List.append_assoc]
  rfl

theorem code_type (p : Prototype) (b : Text) :
    (p.type ++ (p.gap.text ++ b)).code = p.type.code ++ (p.gap.tokens ++ b.code) := by
  by_cases hgap : p.gap.text = []
  · have htype := p.gap_iff.mp hgap
    simp [hgap, htype, Gap.tokens, Text.code, tokenize, Lexer.run, dropComments, Lexer.Mode.start,
      Lexer.Mode.finish, Lexer.flush]
  · exact code_gap p.type_closed hgap b

theorem wordy_qualifiers (p : Prototype) : ∀ c ∈ p.qualifiers, Lexer.isWordy c ∨ isSpace c :=
  fun c hc => (p.qualifiers_words c hc).imp_left Text.isWordy_of_isWordChar

/-- Parameters and qualifiers are lexed by themselves. -/
theorem code_parens {parameters qualifiers : Text} (hclosed : parameters.Closed)
    (hwordy : ∀ c ∈ qualifiers, Lexer.isWordy c ∨ isSpace c) {c : Char} (hc : Lexer.isSeparator c) (b : Text) :
    Text.code ('(' :: (parameters ++ ')' :: (qualifiers ++ c :: b))) =
      .delimiter '(' :: (parameters.code ++ .delimiter ')' :: (qualifiers.code ++ .ofDelimiter c :: b.code)) := by
  rw [Text.code_separator (by decide), hclosed.code_append (by decide),
    (Draft.closed_qualifiers hwordy).code_append hc]
  rfl

theorem code_parameters (p : Prototype) {c : Char} (hc : Lexer.isSeparator c) (b : Text) :
    Text.code (p.argumentText ++ '(' :: (p.parameters ++ ')' :: (p.qualifiers ++ c :: b))) =
      Signature.argumentTokens (p.arguments.map Text.code) ++ .delimiter '(' :: (p.parameters.code ++
        .delimiter ')' :: (p.qualifiers.code ++ .ofDelimiter c :: b.code)) := by
  rw [← code_parens p.parameters_closed p.wordy_qualifiers hc, argumentText]
  cases hargs : p.arguments with
  | none => rfl
  | some list =>
    have hangle : Lexer.isSeparator '<' := by decide
    have hangle' : Lexer.isSeparator '>' := by decide
    obtain ⟨hclosed, -⟩ := p.arguments_closed list hargs
    have htext (b : Text) : ['<'] ++ list ++ ['>'] ++ b = '<' :: (list ++ '>' :: b) := by simp
    rw [Option.elim_some, htext, Text.code_separator hangle, hclosed.code_append hangle']
    simp [Signature.argumentTokens, Token.ofDelimiter, isSpace]

/-- The tokens before the name. -/
def typeTokens (p : Prototype) : List Token :=
  p.constantTokens ++ p.type.code ++ p.gap.tokens ++ stars p.mark ++ pathTokens p.pathWords

theorem typeTokens_path {words : List Text} (h : ∀ w ∈ words, IsWord w) :
    Signature.TypeTokens (pathTokens words) := by
  induction words with
  | nil => exact .nil
  | cons w words ih =>
    rw [List.forall_mem_cons] at h
    refine .word ?_ (.pair (ih h.2))
    rintro rfl
    exact h.1.2.2 (by simp [specifierWords])

theorem typeTokens_typeTokens (p : Prototype) : Signature.TypeTokens p.typeTokens := by
  have hconstant : Signature.TypeTokens p.constantTokens := by
    rw [constantTokens]
    split
    · exact p.constantGap.typeTokens
    · exact .nil
  have hstars : Signature.TypeTokens (stars p.mark) := by
    unfold stars
    split
    · exact .star .nil
    · exact .nil
  exact (((hconstant.append p.type_tokens).append p.gap.typeTokens).append hstars).append
    (typeTokens_path p.isWord_pathWords)

theorem ne_ampersand_of_isIdentifier {t : Text} (h : t.isIdentifier) :
    ∃ c rest, t = c :: rest ∧ c ≠ '&' := by
  obtain ⟨c, rest, rfl⟩ := List.exists_cons_of_ne_nil (Text.ne_nil_of_isIdentifier h)
  refine ⟨c, rest, rfl, ?_⟩
  rintro rfl
  have hword := Text.isWordChar_of_isIdentifier h '&' List.mem_cons_self
  revert hword
  decide +kernel

/-- A reference mark is taken off the name it is written against. -/
theorem takeReference_ampersands {t : Text} (h : t.isIdentifier) (mark : Option Indirection) :
    Signature.takeReference (ampersands mark ++ t) =
      (if mark = some .pointer then none else mark, t) := by
  obtain ⟨c, rest, rfl, hc⟩ := ne_ampersand_of_isIdentifier h
  cases mark with
  | none => simp [ampersands, Signature.takeReference, hc]
  | some mark => cases mark <;> simp [ampersands, Signature.takeReference, hc]

theorem takeReference_nameWord (p : Prototype) : (Signature.takeReference p.nameWord).2 = p.name := by
  unfold nameWord
  split
  · rw [takeReference_ampersands p.name_identifier]
  · exact congrArg Prod.snd (takeReference_ampersands p.name_identifier none)

theorem nameWord_ne_final (p : Prototype) : p.nameWord ≠ "final".toList := by
  unfold nameWord
  split
  · unfold ampersands
    split
    · simp
    · simp
    · exact p.name_not_mem.2.2
  · exact p.name_not_mem.2.2

def parts (p : Prototype) : Signature.Parts where
  type := p.typeTokens
  word := p.nameWord
  args := p.arguments.map Text.code
  params := p.parameters.code
  type_tokens := p.typeTokens_typeTokens
  not_const := fun h => p.isWord_nameWord.2.2 (by simp [h, specifierWords])
  name_ne := by
    rw [p.takeReference_nameWord]
    exact Text.ne_nil_of_isIdentifier p.name_identifier
  name_not_mem := by
    rw [p.takeReference_nameWord]
    exact p.name_not_mem.1
  arguments := by
    intro inner hinner
    obtain ⟨list, hlist, rfl⟩ := Option.map_eq_some_iff.mp hinner
    exact (p.arguments_closed list hlist).2
  balanced := p.parameters_balanced

theorem isLexed_type (p : Prototype) : ∀ t ∈ p.type.code, t.isLexed := by
  rw [p.type_closed.code_eq]
  exact Lexer.isLexed_run (by simp [Lexer.Mode.finish, Lexer.flush]) p.type

/-- The first token of a type is no space, for the type is trimmed, and no `const`. -/
theorem head_type (p : Prototype) {t : Token} {ts : List Token} (h : p.type.code = t :: ts) :
    t.isSpace = false ∧ t ≠ .word "const".toList := by
  have htokens := p.type_tokens
  have hconcat := p.type_closed.concat_code
  have hlexed := p.isLexed_type
  rw [h] at htokens hconcat hlexed
  cases htokens with
  | word hw _ => exact ⟨rfl, by simpa using hw⟩
  | @space c =>
    have hblank : isBlankChar c := hlexed (.space c) List.mem_cons_self
    have hhead : p.type.head? = some c := by
      rw [← hconcat]
      rfl
    exact absurd hblank ((Text.trim_eq_self_iff.mp p.type_trim).1 c hhead)
  | star _ => exact ⟨rfl, by simp⟩
  | commentClose _ => exact ⟨rfl, by simp⟩
  | pair _ => exact ⟨rfl, by simp⟩
  | arguments _ _ => exact ⟨rfl, by simp⟩

theorem startsAt_word (s : Draft.Specifiers) {w : Text} (h : IsWord w) : s.startsAt (.word w) := by
  have hne (v : Text) (hv : v ∈ specifierWords) : Token.word w ≠ .word v := by
    rintro heq
    rw [Token.word.inj heq] at h
    exact h.2.2 hv
  refine .inr ⟨rfl, hne _ (by simp [specifierWords]), fun _ storage => hne _ ?_⟩
  cases storage <;> decide

/-- The declarator starts with a star or with a word of the name. -/
theorem exists_starts_declarator (p : Prototype) (rest : List Token) :
    ∃ t, (stars p.mark ++ (pathTokens p.pathWords ++ .word p.nameWord :: rest)).head? = some t ∧
      p.specifiers.startsAt t := by
  unfold stars
  split
  · exact ⟨_, rfl, .inr ⟨rfl, by simp, by simp⟩⟩
  · cases hpath : p.pathWords with
    | nil => exact ⟨_, rfl, startsAt_word _ p.isWord_nameWord⟩
    | cons w words => exact ⟨_, rfl, startsAt_word _ (p.isWord_pathWords w (by simp [hpath]))⟩

theorem exists_starts (p : Prototype) (h : p.startsPlain) :
    ∃ t, p.parts.tokens.head? = some t ∧ p.specifiers.startsAt t := by
  cases hconstant : p.constant with
  | true =>
    obtain ⟨t, ts, htokens⟩ : ∃ t ts, p.parts.tokens = t :: ts :=
      List.exists_cons_of_ne_nil (by simp [Signature.Parts.tokens])
    exact ⟨t, by rw [htokens]; rfl, .inl hconstant⟩
  | false =>
    have hparts : p.parts.tokens = p.type.code ++ (p.gap.tokens ++ (stars p.mark ++
        (pathTokens p.pathWords ++ .word p.nameWord :: (Signature.argumentTokens p.parts.args ++
          .delimiter '(' :: (p.parts.params ++ [.delimiter ')']))))) := by
      simp [Signature.Parts.tokens, parts, typeTokens, constantTokens, hconstant]
    rw [hparts]
    cases htype : p.type.code with
    | nil =>
      have hempty : p.type = [] := by rw [← p.type_closed.concat_code, htype]; rfl
      have hgap : p.gap.tokens = [] := by simp [Gap.tokens, p.gap_iff.mpr hempty]
      rw [hgap]
      exact p.exists_starts_declarator _
    | cons t ts =>
      obtain ⟨hspace, hconst⟩ := p.head_type htype
      refine ⟨t, rfl, .inr ⟨hspace, hconst, fun hstorage storage heq => ?_⟩⟩
      exact h hstorage hconstant storage (by rw [htype, heq]; rfl)

/-- The tokens of a prototype. -/
def tokens (p : Prototype) : List Token := p.specifiers.tokens ++ p.parts.tokens ++ p.qualifiers.code

theorem code_text (p : Prototype) {c : Char} (hc : Lexer.isSeparator c) (b : Text) :
    (p.text ++ c :: b).code = p.tokens ++ .ofDelimiter c :: b.code := by
  have hseparator : ∃ d rest, Lexer.isSeparator d ∧ d :: rest =
      p.argumentText ++ '(' :: (p.parameters ++ ')' :: (p.qualifiers ++ c :: b)) := by
    rw [argumentText]
    cases p.arguments with
    | none => exact ⟨_, _, by decide, rfl⟩
    | some list => exact ⟨_, _, by decide, rfl⟩
  obtain ⟨d, rest, hd, hrest⟩ := hseparator
  have htext : p.text ++ c :: b = p.specifierText ++ (p.type ++ (p.gap.text ++
      (p.markText ++ p.scopeText ++ p.name ++ d :: rest))) := by
    simp [text, hrest]
  rw [htext, p.code_specifierText, p.code_type, p.code_declarator hd, hrest, p.code_parameters hc]
  simp [tokens, Signature.Parts.tokens, parts, typeTokens]

theorem concat_path (words : List Text) :
    Token.concat (pathTokens words) = words.flatMap (· ++ [':', ':']) := by
  induction words with
  | nil => rfl
  | cons w words ih =>
    have htokens : pathTokens (w :: words) =
        [.word w, .delimiter ':', .delimiter ':'] ++ pathTokens words := rfl
    rw [htokens, Token.concat_append, ih]
    simp [Token.text]

theorem concat_constantTokens (p : Prototype) :
    Token.concat p.constantTokens = if p.constant then p.constantGap.text else [] := by
  rw [constantTokens]
  split <;> simp

/-- The tokens of a prototype spell it. -/
theorem concat_tokens (p : Prototype) : Token.concat p.tokens = p.text := by
  have hspecifiers : Token.concat p.specifiers.tokens ++ Token.concat p.constantTokens = p.specifierText := by
    have hstorage : Token.concat (p.storage.toList.map (.word ·.keyword)) ++
        Token.concat (if p.storage.isSome then p.storageGap.tokens else []) =
          p.storage.elim [] fun storage => storage.keyword ++ p.storageGap.text := by
      cases p.storage <;> simp [Token.text]
    have hconstant : Token.concat (if p.constant then [.word "const".toList] else []) ++
        Token.concat p.constantTokens = if p.constant then "const".toList ++ p.constantGap.text else [] := by
      rw [concat_constantTokens]
      cases p.constant <;> simp [Token.text]
    have htokens : p.specifiers.tokens = p.lead.tokens ++ p.storage.toList.map (.word ·.keyword) ++
        (if p.storage.isSome then p.storageGap.tokens else []) ++
          if p.constant then [.word "const".toList] else [] := rfl
    rw [specifierText, ← hstorage, ← hconstant, htokens]
    simp only [Token.concat_append, Gap.concat_tokens, List.append_assoc]
  have hdeclarator : Token.concat (stars p.mark) ++ (Token.concat (pathTokens p.pathWords) ++ p.nameWord) =
      p.markText ++ p.scopeText ++ p.name := by
    rw [concat_path, p.declarator_eq]
  have harguments : Token.concat (Signature.argumentTokens (p.arguments.map Text.code)) = p.argumentText := by
    rw [argumentText]
    cases hargs : p.arguments with
    | none => rfl
    | some list =>
      have hlist := (p.arguments_closed list hargs).1.concat_code
      simp [Signature.argumentTokens, Token.text, hlist]
  have hqualifiers : Token.concat p.qualifiers.code = p.qualifiers :=
    (Draft.closed_qualifiers p.wordy_qualifiers).concat_code
  have htokens : Token.concat p.tokens =
      Token.concat p.specifiers.tokens ++ Token.concat p.constantTokens ++ (p.type ++ (p.gap.text ++
        (Token.concat (stars p.mark) ++ (Token.concat (pathTokens p.pathWords) ++ p.nameWord) ++
          (p.argumentText ++ '(' :: (p.parameters ++ ')' :: p.qualifiers))))) := by
    simp [tokens, Signature.Parts.tokens, parts, typeTokens, Token.text, harguments, hqualifiers,
      p.type_closed.concat_code, p.parameters_closed.concat_code]
  rw [htokens, hspecifiers, hdeclarator]
  simp [text]

/-- The tokens of the type without its qualification. -/
def bareTokens (p : Prototype) : List Token := p.constantTokens ++ p.type.code ++ p.gap.tokens

theorem isBlankChar_constantTokens (p : Prototype) : ∀ c ∈ Token.concat p.constantTokens, isBlankChar c := by
  rw [concat_constantTokens]
  split
  · exact p.constantGap.isBlankChar_of_mem
  · simp

theorem trim_bareTokens (p : Prototype) : (Token.concat p.bareTokens).trim = p.type := by
  rw [bareTokens, Token.concat_append, Token.concat_append, Gap.concat_tokens,
    p.type_closed.concat_code, Text.trim_append_blank p.gap.isBlankChar_of_mem,
    Text.trim_blank_append p.isBlankChar_constantTokens, p.type_trim]

/-- No star stands right before a name that has no mark. -/
theorem getLast?_bareTokens (p : Prototype) : p.bareTokens.getLast? ≠ some (.delimiter '*') := by
  by_cases hgap : p.gap.text = []
  · have htype : p.type.code = [] := by
      rw [p.gap_iff.mp hgap]
      rfl
    have hbare : p.bareTokens = p.constantTokens := by simp [bareTokens, htype, Gap.tokens, hgap]
    rw [hbare, constantTokens]
    split
    · next hconstant => exact p.constantGap.getLast?_append_tokens (p.constantGap_ne hconstant) []
    · simp
  · exact p.gap.getLast?_append_tokens hgap _

theorem marked_of_ne {word : Text} {before : List Token}
    (h : (Signature.takeReference word).1 ≠ none ∨ before.head? ≠ some (.delimiter '*')) :
    Signature.marked word before = ((Signature.takeReference word).1, before) := by
  unfold Signature.marked
  split
  · next hnone => simp [hnone] at h
  · rfl

/-- A mark right before a name is told from the type. -/
theorem marked_ampersands {name : Text} (hname : name.isIdentifier) (mark : Option Indirection)
    {front : List Token} (hlast : front.getLast? ≠ some (.delimiter '*')) :
    Signature.marked (ampersands mark ++ name) (front ++ stars mark).reverse = (mark, front.reverse) := by
  have hreference := takeReference_ampersands hname mark
  cases mark with
  | none =>
    have hhead : (front ++ stars none).reverse.head? ≠ some (.delimiter '*') := by simpa [stars] using hlast
    rw [marked_of_ne (.inr hhead), hreference]
    simp [stars]
  | some mark =>
    cases mark with
    | pointer => simp [stars, Signature.marked, hreference]
    | _ =>
      rw [marked_of_ne (.inl (by simp [hreference])), hreference]
      simp [stars]

theorem marked_of_scope_eq_nil (p : Prototype) (h : p.scope = []) :
    Signature.marked p.nameWord p.typeTokens.reverse = (p.mark, p.bareTokens.reverse) := by
  have htype : p.typeTokens = p.bareTokens ++ stars p.mark := by
    simp [typeTokens, bareTokens, pathWords, h, pathTokens]
  have hname : p.nameWord = ampersands p.mark ++ p.name := by simp [nameWord, h]
  rw [htype, hname]
  exact marked_ampersands p.name_identifier p.mark p.getLast?_bareTokens

theorem getLast?_pathTokens {words : List Text} (h : words ≠ []) :
    (pathTokens words).getLast? = some (.delimiter ':') := by
  obtain ⟨front, w, rfl⟩ : ∃ front w, words = front ++ [w] :=
    ⟨words.dropLast, words.getLast h, (List.dropLast_concat_getLast h).symm⟩
  simp [pathTokens]

section Qualified

variable {p : Prototype} (h : p.scope ≠ [])

include h

theorem nameWord_of_scope : p.nameWord = p.name := by
  unfold nameWord
  split
  · next hs => exact absurd hs h
  · rfl

/-- A mark before a qualified name belongs to the type. -/
theorem marked_of_scope :
    Signature.marked p.nameWord p.typeTokens.reverse = (none, p.typeTokens.reverse) := by
  have hpath : p.pathWords ≠ [] := by
    unfold pathWords
    split
    · next hs => exact absurd hs h
    · simp
  have hlast : p.typeTokens.reverse.head? ≠ some (.delimiter '*') := by
    rw [List.head?_reverse, typeTokens, List.getLast?_append, getLast?_pathTokens hpath]
    simp
  have hreference := takeReference_ampersands p.name_identifier none
  rw [marked_of_ne (.inr hlast), nameWord_of_scope h]
  exact congrArg (·.1, _) hreference

theorem concat_typeTokens :
    Token.concat p.typeTokens =
      Token.concat p.constantTokens ++ (p.type ++ p.gap.text ++ p.markText ++ p.scopeText) := by
  have hdeclarator : Token.concat (stars p.mark) ++ Token.concat (pathTokens p.pathWords) =
      p.markText ++ p.scopeText := by
    have heq := p.declarator_eq
    rw [nameWord_of_scope h, ← List.append_assoc, ← concat_path] at heq
    exact (List.append_cancel_right heq).symm
  rw [typeTokens, Token.concat_append, Token.concat_append, List.append_assoc, hdeclarator]
  simp [p.type_closed.concat_code]

theorem not_blank_head_scope {c : Char} (hc : (p.markText ++ p.scopeText).head? = some c) :
    ¬ isBlankChar c := by
  have hstar : ¬ isBlankChar '*' := by decide
  have hampersand : ¬ isBlankChar '&' := by decide
  rw [markText] at hc
  cases hmark : p.mark with
  | none =>
    obtain ⟨word, rest, hscope⟩ := List.exists_cons_of_ne_nil h
    have hid := (p.scope_names word (by simp [hscope])).1
    obtain ⟨d, w, rfl⟩ := List.exists_cons_of_ne_nil (Text.ne_nil_of_isIdentifier hid)
    obtain rfl : d = c := by simpa [hmark, scopeText, hscope] using hc
    exact not_blank_of_isWordChar (Text.isWordChar_of_isIdentifier hid d List.mem_cons_self)
  | some mark =>
    rw [hmark] at hc
    cases mark with
    | pointer =>
      obtain rfl : '*' = c := by simpa [Indirection.text] using hc
      exact hstar
    | _ =>
      obtain rfl : '&' = c := by simpa [Indirection.text] using hc
      exact hampersand

theorem trim_typeTokens :
    (Token.concat p.typeTokens).trim = p.type ++ p.gap.text ++ p.markText ++ p.scopeText := by
  rw [concat_typeTokens h, Text.trim_blank_append p.isBlankChar_constantTokens, Text.trim_eq_self_iff]
  constructor
  · intro c hc
    cases htype : p.type with
    | nil =>
      rw [htype, p.gap_iff.mpr htype, List.append_nil, List.nil_append] at hc
      exact not_blank_head_scope h hc
    | cons d type =>
      refine (Text.trim_eq_self_iff.mp p.type_trim).1 c ?_
      rw [htype] at hc ⊢
      exact hc
  · intro c hc
    have hcolon : ¬ isBlankChar ':' := by decide
    obtain ⟨front, w, hscope⟩ : ∃ front w, p.scope = front ++ [w] :=
      ⟨p.scope.dropLast, p.scope.getLast h, (List.dropLast_concat_getLast h).symm⟩
    obtain rfl : ':' = c := by simpa [scopeText, hscope] using hc
    exact hcolon

end Qualified

theorem qualifiers_code (p : Prototype) : Draft.Qualifiers p.qualifiers.code :=
  Draft.qualifiers_code p.wordy_qualifiers

/-- The parts of a prototype as tokens. -/
def written (p : Prototype) (h : p.startsPlain) : Draft.Written where
  specifiers := p.specifiers
  parts := p.parts
  qualifiers := p.qualifiers.code
  qualifiers_apart := p.qualifiers_code
  starts := p.exists_starts h
  not_final := p.nameWord_ne_final

theorem arguments_signature (p : Prototype) : p.parts.signature.templateArgs = p.arguments := by
  change (p.arguments.map Text.code).map Token.concat = _
  cases hargs : p.arguments with
  | none => rfl
  | some list => simp [(p.arguments_closed list hargs).1.concat_code]

theorem addendumText_code {qualifiers : Text} (h : ∀ c ∈ qualifiers, Lexer.isWordy c ∨ isSpace c) :
    Draft.addendumText qualifiers.code.reverse =
      if qualifiers.words.isEmpty then none else some (Text.join [' '] qualifiers.words) := by
  rw [Draft.addendumText, Signature.textOf, List.reverse_reverse, (Draft.closed_qualifiers h).concat_code]

theorem record_written (p : Prototype) (h : p.startsPlain) (source : Text) (body : Option Text) :
    (p.written h).record source body = p.record source body := by
  have htype : p.parts.signature.returnType =
      if p.scope = [] then p.type else p.type ++ p.gap.text ++ p.markText ++ p.scopeText := by
    change (Signature.textOf (Signature.marked p.nameWord p.typeTokens.reverse).2).trim = _
    split
    · next hscope =>
      rw [p.marked_of_scope_eq_nil hscope, Signature.textOf, List.reverse_reverse, trim_bareTokens]
    · next hscope =>
      rw [marked_of_scope hscope, Signature.textOf, List.reverse_reverse, trim_typeTokens hscope]
  have hmark : p.parts.signature.indirection = if p.scope = [] then p.mark else none := by
    change (Signature.marked p.nameWord p.typeTokens.reverse).1 = _
    split
    · next hscope => rw [p.marked_of_scope_eq_nil hscope]
    · next hscope => rw [marked_of_scope hscope]
  have hparameters : p.parts.signature.parameters = p.parameters := p.parameters_closed.concat_code
  have hname : p.parts.signature.name = p.name := p.takeReference_nameWord
  simp only [Draft.Layout.record, written, Draft.recordOf, htype, hmark, p.arguments_signature, hparameters,
    addendumText_code p.wordy_qualifiers, hname]
  rfl

section Parsing

variable {p : Prototype} {w : Draft.Written} (h : w.tokens = p.tokens)

include h

theorem parse_semicolon (rest : Text) :
    Declaration.parse (p.text ++ ';' :: rest) = w.record (p.text ++ [';']) none := by
  rw [Declaration.parse, p.code_text (by decide), ← p.concat_tokens, ← h]
  exact w.ofTokens_eq (.semicolon _) (by simp)

theorem parse_assign (rest : Text) : Declaration.parse (p.text ++ '=' :: rest) = w.record p.text none := by
  rw [Declaration.parse, p.code_text (by decide), ← p.concat_tokens, ← h]
  exact w.ofTokens_eq (.assign _) (by simp)

theorem parse_block {block : Text} (hclosed : block.Closed) (hbalanced : Brackets.Balanced '{' '}' block.code)
    (rest : Text) :
    Declaration.parse (p.text ++ '{' :: (block ++ '}' :: rest)) =
      w.record p.text (some ('{' :: (block ++ ['}']))) := by
  rw [Declaration.parse, p.code_text (by decide), hclosed.code_append (by decide), ← p.concat_tokens, ← h]
  have hends : Draft.Ends w.tokens (.delimiter '{' :: (block.code ++ .delimiter '}' :: rest.code))
      (Token.concat w.tokens) (some ('{' :: (Token.concat block.code ++ ['}']))) :=
    .body _ _ hbalanced
  rw [hclosed.concat_code] at hends
  exact w.ofTokens_eq hends (by simp)

theorem exists_parse_brace (rest : Text) :
    ∃ body valid issue, Declaration.parse (p.text ++ '{' :: rest) =
      { w.record p.text body with valid := valid, issue := issue } := by
  rw [Declaration.parse, p.code_text (by decide), ← p.concat_tokens, ← h]
  exact w.exists_ofTokens_brace rest.code

end Parsing

end Prototype

/-- The parser recovers every component of a prototype, whatever ends it and whatever follows: a semicolon,
an initializer, a body, or a brace that need not be closed. -/
theorem Declaration.parse_prototype (p : Prototype) (h : p.startsPlain) (rest : Text) :
    parse (p.text ++ ';' :: rest) = p.record (p.text ++ [';']) none ∧
      parse (p.text ++ '=' :: rest) = p.record p.text none ∧
      (∀ block : Text, block.Closed → Brackets.Balanced '{' '}' block.code →
        parse (p.text ++ '{' :: (block ++ '}' :: rest)) =
          p.record p.text (some ('{' :: (block ++ ['}'])))) ∧
      ∃ body valid issue, parse (p.text ++ '{' :: rest) =
        { p.record p.text body with valid := valid, issue := issue } := by
  have htokens : (p.written h).tokens = p.tokens := rfl
  simp only [← p.record_written h]
  exact ⟨Prototype.parse_semicolon htokens rest, Prototype.parse_assign htokens rest,
    fun _ hclosed hbalanced => Prototype.parse_block htokens hclosed hbalanced rest,
    Prototype.exists_parse_brace htokens rest⟩

/-- A member with every part, and with delimiters inside its parameters. -/
def Prototype.getter : Prototype where
  lead := ⟨"\n\t".toList, by decide⟩
  storage := some .static
  storageGap := .blank
  constant := true
  constantGap := ⟨"\t".toList, by decide⟩
  type := "std::map<T, (U)> *".toList
  gap := ⟨" \n".toList, by decide⟩
  mark := some .reference
  scope := []
  name := "get".toList
  arguments := some "A<B>".toList
  parameters := "int (*f)(char), T x = \x7b1; \")\"\x7d".toList
  qualifiers := " const\nnoexcept".toList
  storageGap_ne := by decide
  constantGap_ne := by decide
  gap_iff := by decide
  type_closed := by decide +kernel
  type_tokens := by
    have hcode : Text.code "std::map<T, (U)> *".toList =
        .word "std".toList :: .delimiter ':' :: .delimiter ':' :: .word "map".toList :: .delimiter '<' ::
          ([.word "T,".toList, .space ' ', .delimiter '(', .word "U".toList, .delimiter ')'] ++
            .delimiter '>' :: [.space ' ', .delimiter '*']) := by decide +kernel
    rw [hcode]
    refine .word (by decide) (.pair (.word (by decide) (.arguments ?_ (.space (.star .nil)))))
    exact ⟨by decide, by decide, Signature.paired_of_not_mem (by decide)⟩
  type_trim := by decide +kernel
  scope_names := scope_names_nil
  name_identifier := by decide +kernel
  name_not_mem := by decide
  arguments_closed := by
    intro list hlist
    obtain rfl : "A<B>".toList = list := Option.some.inj hlist
    exact ⟨by decide +kernel, by decide +kernel, by decide +kernel,
      Signature.paired_of_not_mem (by decide +kernel)⟩
  parameters_closed := by decide +kernel
  parameters_balanced := by decide +kernel
  qualifiers_words := by
    have hwords : " const\nnoexcept".toList.all fun c => isSpace c || isWordChar c := by decide +kernel
    intro c hc
    simpa [or_comm] using List.all_eq_true.mp hwords c hc

theorem Declaration.parse_getter :
    Prototype.getter.startsPlain ∧
      parse ("\n\tstatic const\tstd::map<T, (U)> * \n&get<A<B>>".toList ++
        "(int (*f)(char), T x = \x7b1; \")\"\x7d) const\nnoexcept; int x;".toList) =
        { storage := some .static
          constReturn := true
          returnType := "std::map<T, (U)> *".toList
          templateArgs := some "A<B>".toList
          indirection := some .reference
          name := "get".toList
          parameters := "int (*f)(char), T x = \x7b1; \")\"\x7d".toList
          addendum := some "const noexcept".toList
          sourceText := Prototype.getter.text ++ [';']
          valid := true } := by
  have hstarts : Prototype.getter.startsPlain := fun hstorage => absurd hstorage (by decide)
  refine ⟨hstarts, ?_⟩
  have hparse := (parse_prototype Prototype.getter hstarts " int x;".toList).1
  exact (congrArg parse (by decide +kernel)).trans (hparse.trans (by decide +kernel))

end OutOfLine

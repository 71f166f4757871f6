import OutOfLine.Proofs.Prototypes

/-!
# Member initializers

A constructor may have a list of member initializers between its qualifiers and its body. The reader takes the list
for a part of the signature, in which a brace outside parentheses ends the signature. Members that are initialized
with parentheses are therefore read to the last one, and the list is everything behind the colon. The first member
that is initialized with braces ends the list in the middle, which makes the record invalid. So does the name `final`,
which is passed over as if it stood behind the name.
-/

namespace OutOfLine

namespace Text

/-- Words and separators are read in code. -/
theorem closed_of_wordy_or_separator {t : Text} (h : ∀ c ∈ t, Lexer.isWordy c ∨ Lexer.isSeparator c) :
    t.Closed := by
  -- The characters of the word that is being read are held in front of the text.
  have hall (w : Text) (hw : ∀ c ∈ w, Lexer.isWordy c) : (w ++ t).Closed := by
    induction t generalizing w with
    | nil =>
      rw [List.append_nil]
      exact closed_word hw
    | cons c t ih =>
      rw [List.forall_mem_cons] at h
      rcases h.1 with hc | hc
      · rw [← List.singleton_append, ← List.append_assoc]
        apply ih h.2
        intro d hd
        rcases List.mem_append.mp hd with hd | hd
        · exact hw d hd
        · rwa [List.mem_singleton.mp hd]
      · exact (closed_word hw).append_separator hc (ih h.2 [] (by simp))
  exact hall [] (by simp)

end Text

/-- A member of an initializer list, with its path. -/
structure Member where
  /-- The names that qualify the name. -/
  scope : List Text
  name : Text
  /-- Whether the value stands in braces rather than in parentheses. -/
  braced : Bool
  value : Text
  scope_names : ∀ word ∈ scope, word.isIdentifier ∧ word ∉ specifierWords
  name_identifier : name.isIdentifier
  name_not_mem : name ∉ specifierWords
  value_closed : value.Closed
  value_balanced : Brackets.Balanced '(' ')' value.code

/-- The comma between two members. -/
structure Comma where
  before : Gap
  after : Gap

def Comma.text (c : Comma) : Text := c.before.text ++ ',' :: c.after.text

namespace Member

def path (m : Member) : Text := m.scope.flatMap (· ++ [':', ':']) ++ m.name

def opener (m : Member) : Char := if m.braced then '{' else '('

def closer (m : Member) : Char := if m.braced then '}' else ')'

def text (m : Member) : Text := m.path ++ m.opener :: (m.value ++ [m.closer])

/-- The words of the path, of which the first starts with what is written against it. -/
def words (mark : Text) (m : Member) : List Text × Text :=
  match m.scope with
  | [] => ([], mark ++ m.name)
  | word :: rest => ((mark ++ word) :: rest, m.name)

theorem path_eq (mark : Text) (m : Member) :
    mark ++ m.path = (m.words mark).1.flatMap (· ++ [':', ':']) ++ (m.words mark).2 := by
  rw [path, words]
  cases m.scope with
  | nil => rfl
  | cons word rest => simp

theorem isWord_words {mark : Text} (hmark : mark = [] ∨ mark = [',']) (m : Member) :
    (∀ word ∈ (m.words mark).1, Prototype.IsWord word) ∧ Prototype.IsWord (m.words mark).2 := by
  have hword {w : Text} (hid : w.isIdentifier) (hnot : w ∉ specifierWords) : Prototype.IsWord w :=
    Prototype.isWord_of_identifier hid hnot none
  have hmarked {w : Text} (hid : w.isIdentifier) (hnot : w ∉ specifierWords) : Prototype.IsWord (mark ++ w) := by
    rcases hmark with rfl | rfl
    · exact hword hid hnot
    · refine ⟨by simp, ?_, by simp [specifierWords]⟩
      intro c hc
      rcases List.mem_cons.mp hc with rfl | hc
      · decide
      · exact (hword hid hnot).2.1 c hc
  have hscope := m.scope_names
  rw [words]
  split
  · exact ⟨by simp, hmarked m.name_identifier m.name_not_mem⟩
  · next word rest hs =>
    rw [hs, List.forall_mem_cons] at hscope
    refine ⟨?_, hword m.name_identifier m.name_not_mem⟩
    intro w hw
    rcases List.mem_cons.mp hw with rfl | hw
    · exact hmarked hscope.1.1 hscope.1.2
    · exact hword (hscope.2 w hw).1 (hscope.2 w hw).2

theorem code_path {mark : Text} (hmark : mark = [] ∨ mark = [',']) (m : Member) :
    (mark ++ m.path).code = Prototype.pathTokens (m.words mark).1 ++ [.word (m.words mark).2] := by
  obtain ⟨hscope, hname⟩ := m.isWord_words hmark
  rw [path_eq, Prototype.code_path hscope, Text.code_word hname.1 hname.2.1]

theorem typeTokens_path {mark : Text} (hmark : mark = [] ∨ mark = [',']) (m : Member) :
    Signature.TypeTokens (mark ++ m.path).code := by
  obtain ⟨hscope, hname⟩ := m.isWord_words hmark
  rw [code_path hmark]
  apply (Prototype.typeTokens_path hscope).append
  apply Signature.TypeTokens.word _ .nil
  intro hconst
  exact hname.2.2 (by simp [hconst, specifierWords])

theorem exists_head_path (m : Member) : ∃ c rest, m.path = c :: rest ∧ isWordChar c := by
  have hhead {w : Text} (hid : w.isIdentifier) (b : Text) : ∃ c rest, w ++ b = c :: rest ∧ isWordChar c := by
    obtain ⟨c, w, rfl⟩ := List.exists_cons_of_ne_nil (Text.ne_nil_of_isIdentifier hid)
    exact ⟨c, w ++ b, rfl, Text.isWordChar_of_isIdentifier hid c List.mem_cons_self⟩
  cases hscope : m.scope with
  | nil => simpa [path, hscope] using hhead m.name_identifier []
  | cons word rest =>
    have hword := (m.scope_names word (by simp [hscope])).1
    simpa [path, hscope] using hhead hword (':' :: ':' :: (rest.flatMap (· ++ [':', ':']) ++ m.name))

theorem exists_getLast?_path (m : Member) : ∃ c, m.path.getLast? = some c ∧ isWordChar c := by
  obtain ⟨c, hc⟩ := Option.isSome_iff_exists.mp
    (List.getLast?_isSome.mpr (Text.ne_nil_of_isIdentifier m.name_identifier))
  refine ⟨c, ?_, Text.isWordChar_of_isIdentifier m.name_identifier c (List.mem_of_getLast? hc)⟩
  rw [path, List.getLast?_append, hc, Option.some_or]

theorem wordy_path (m : Member) : ∀ c ∈ m.path, Lexer.isWordy c ∨ Lexer.isSeparator c := by
  intro c hc
  rcases List.mem_append.mp hc with hc | hc
  · obtain ⟨word, hword, hmem⟩ := List.mem_flatMap.mp hc
    rcases List.mem_append.mp hmem with hmem | hmem
    · exact .inl (Text.isWordy_of_isIdentifier (m.scope_names word hword).1 c hmem)
    · obtain rfl : c = ':' := by simpa using hmem
      exact .inr (by decide)
  · exact .inl (Text.isWordy_of_isIdentifier m.name_identifier c hc)

/-- A text that leaves the path of a member behind it to be read in words. -/
structure Leads (lead : Text) : Prop where
  plain : ∀ c ∈ lead, Lexer.isWordy c ∨ isSpace c
  tokens : ∀ m : Member, Signature.TypeTokens (lead ++ m.path).code

theorem leads_gap (g : Gap) : Leads g.text where
  plain := fun c hc => .inr (g.isSpace_of_mem c hc)
  tokens := by
    intro m
    rw [g.code_append]
    exact g.typeTokens.append (m.typeTokens_path (.inl rfl))

/-- A comma belongs to the word after it, unless there is a gap between them. -/
theorem leads_comma (c : Comma) : Leads c.text where
  plain := by
    intro d hd
    rcases List.mem_append.mp hd with hd | hd
    · exact .inr (c.before.isSpace_of_mem d hd)
    · rcases List.mem_cons.mp hd with rfl | hd
      · exact .inl (by decide)
      · exact .inr (c.after.isSpace_of_mem d hd)
  tokens := by
    intro m
    rw [Comma.text, List.append_assoc, c.before.code_append]
    apply c.before.typeTokens.append
    by_cases hgap : c.after.text = []
    · rw [hgap]
      exact m.typeTokens_path (.inr rfl)
    · have hword : ∀ d ∈ [','], Lexer.isWordy d := List.all_eq_true.mp (by decide)
      have hcode := Prototype.code_gap (Text.closed_word hword) hgap m.path
      rw [Text.code_word (by simp) hword] at hcode
      change Signature.TypeTokens (Text.code ([','] ++ (c.after.text ++ m.path)))
      rw [hcode]
      exact .word (by simp) (c.after.typeTokens.append (m.typeTokens_path (.inl rfl)))

end Member

/-- A member and what stands before it in the list. -/
structure ListedMember where
  lead : Text
  member : Member
  leads : Member.Leads lead

namespace ListedMember

def front (e : ListedMember) : Text := e.lead ++ e.member.path

def text (e : ListedMember) : Text := e.lead ++ e.member.text

/-- The tokens of a member that is initialized with parentheses. -/
def tokens (e : ListedMember) : List Token :=
  e.front.code ++ .delimiter '(' :: (e.member.value.code ++ [.delimiter ')'])

theorem closed_front (e : ListedMember) : e.front.Closed := by
  apply Text.closed_of_wordy_or_separator
  intro c hc
  rcases List.mem_append.mp hc with hc | hc
  · apply (e.leads.plain c hc).imp_right
    intro hspace
    simp [Lexer.isSeparator, hspace]
  · exact e.member.wordy_path c hc

/-- No member starts with a colon. -/
theorem exists_head_front (e : ListedMember) : ∃ t, e.front.code.head? = some t ∧ t ≠ .delimiter ':' := by
  have hcolon : ¬ (Lexer.isWordy ':' ∨ isSpace ':') := by decide
  have hhead : ∃ c rest, e.front = c :: rest ∧ c ≠ ':' := by
    cases hlead : e.lead with
    | nil =>
      obtain ⟨c, rest, hpath, hc⟩ := e.member.exists_head_path
      refine ⟨c, rest, by rw [front, hlead, hpath]; rfl, ?_⟩
      rintro rfl
      exact hcolon (.inl (Text.isWordy_of_isWordChar hc))
    | cons c lead =>
      refine ⟨c, lead ++ e.member.path, by rw [front, hlead]; rfl, ?_⟩
      rintro rfl
      exact hcolon (e.leads.plain ':' (by simp [hlead]))
  obtain ⟨c, rest, hfront, hc⟩ := hhead
  have hconcat := e.closed_front.concat_code
  cases hcode : e.front.code with
  | nil =>
    rw [hcode, hfront] at hconcat
    simp at hconcat
  | cons t ts =>
    refine ⟨t, rfl, ?_⟩
    rintro rfl
    rw [hcode, hfront] at hconcat
    exact hc (List.cons.inj hconcat).1.symm

section Parenthesised

variable {e : ListedMember} (h : e.member.braced = false)
include h

theorem text_append (b : Text) : e.text ++ b = e.front ++ '(' :: (e.member.value ++ ')' :: b) := by
  simp [text, front, Member.text, Member.opener, Member.closer, h]

theorem code_append (b : Text) : (e.text ++ b).code = e.tokens ++ b.code := by
  rw [text_append h, e.closed_front.code_append (by decide), e.member.value_closed.code_append (by decide), tokens]
  simp [Token.ofDelimiter, isSpace]

theorem concat_tokens : Token.concat e.tokens = e.text := by
  have htext := text_append h []
  rw [List.append_nil] at htext
  rw [htext, tokens]
  simp [e.closed_front.concat_code, e.member.value_closed.concat_code, Token.text]

end Parenthesised

theorem passes_tokens (e : ListedMember) : Draft.Passes e.tokens :=
  (Draft.passes_typeTokens (e.leads.tokens e.member)).append (Draft.passes_group false e.member.value_balanced)

end ListedMember

/-- A list of members as it is written. -/
def listText (entries : List ListedMember) : Text := entries.flatMap ListedMember.text

def listTokens (entries : List ListedMember) : List Token := entries.flatMap ListedMember.tokens

theorem passes_listTokens (entries : List ListedMember) : Draft.Passes (listTokens entries) := by
  induction entries with
  | nil => exact fun d hd => hd
  | cons e entries ih => exact e.passes_tokens.append ih

/-- A list of members does not start with a colon. -/
theorem head?_listTokens_cons (e : ListedMember) (entries : List ListedMember) (rest : List Token) :
    (listTokens (e :: entries) ++ rest).head? ≠ some (.delimiter ':') := by
  obtain ⟨t, ht, hne⟩ := e.exists_head_front
  have htokens : listTokens (e :: entries) ++ rest = e.front.code ++
      (.delimiter '(' :: (e.member.value.code ++ [.delimiter ')']) ++ (listTokens entries ++ rest)) := by
    simp [listTokens, ListedMember.tokens]
  rw [htokens, List.head?_append, ht]
  simpa using hne

section Parenthesised

variable {entries : List ListedMember} (h : ∀ e ∈ entries, e.member.braced = false)
include h

theorem code_listText (b : Text) : (listText entries ++ b).code = listTokens entries ++ b.code := by
  induction entries with
  | nil => rfl
  | cons e entries ih =>
    rw [List.forall_mem_cons] at h
    have htext : listText (e :: entries) ++ b = e.text ++ (listText entries ++ b) := by simp [listText]
    have htokens : listTokens (e :: entries) = e.tokens ++ listTokens entries := rfl
    rw [htext, ListedMember.code_append h.1, ih h.2, htokens, List.append_assoc]

theorem concat_listTokens : Token.concat (listTokens entries) = listText entries := by
  induction entries with
  | nil => rfl
  | cons e entries ih =>
    rw [List.forall_mem_cons] at h
    have htokens : listTokens (e :: entries) = e.tokens ++ listTokens entries := rfl
    rw [htokens, Token.concat_append, ListedMember.concat_tokens h.1, ih h.2]
    rfl

end Parenthesised

namespace Signature

/-- A colon that touches no other one and stands behind a closed group opens a list of members. -/
theorem Tight.splitInitializers_colon {head after : List Token} (h : Tight head)
    (hclosed : (Parens.after {} head).closed) (hlast : head.getLast? ≠ some (.delimiter ':'))
    (hafter : after.head? ≠ some (.delimiter ':')) :
    splitInitializers 0 false [] (head ++ .delimiter ':' :: after) = some (head.reverse, after) := by
  apply (splitInitializers_eq_some_iff (p := {})).mpr
  refine ⟨head, .delimiter ':', rfl, by simp, ?_, ?_⟩
  · have hdepth : (Parens.after {} head).depth = 0 := h.depth_eq {}
    simp [opensAt, hdepth, hclosed, hlast, hafter]
  · intro a x b hab
    by_cases hx : x = .delimiter ':'
    · subst hx
      by_cases hdepth : (Parens.after {} a).depth = 0
      · rcases h.paired a b hab hdepth with hbefore | hbehind
        · simp [opensAt, hbefore]
        · obtain ⟨rest, rfl⟩ := List.head?_eq_some_iff.mp hbehind
          simp [opensAt]
      · simp [opensAt, hdepth]
    · simp [opensAt, hx]

theorem Parts.tokens_eq_concat (s : Parts) :
    s.tokens = s.front ++ .delimiter '(' :: s.params ++ [.delimiter ')'] := by
  simp [s.tokens_eq]

theorem Parts.closed (s : Parts) : (Parens.after {} s.tokens).closed := by
  have hdepth := s.tight.depth_eq {}
  rw [s.tokens_eq_concat, Parens.after_append, Parens.after_cons, Parens.after_nil] at hdepth ⊢
  have hlast : (Parens.after {} (s.front ++ .delimiter '(' :: s.params)).depth - 1 = 0 := hdepth
  simp [Parens.step, hlast]

end Signature

/-- Qualifiers without `const` are read as words. -/
theorem Draft.Qualifiers.typeTokens {ts : List Token} (h : Draft.Qualifiers ts)
    (hconst : .word "const".toList ∉ ts) : Signature.TypeTokens ts := by
  have hplain := h.plain
  clear h
  induction ts with
  | nil => exact .nil
  | cons t ts ih =>
    rw [List.forall_mem_cons] at hplain
    rw [List.mem_cons, not_or] at hconst
    have hrest := ih hconst.2 hplain.2
    cases t with
    | word w => exact .word (fun hw => hconst.1 (by rw [hw])) hrest
    | space c => exact .space hrest
    | _ => simp [Token.isWord, Token.isSpace] at hplain

theorem Draft.Qualifiers.delimiter_not_mem {ts : List Token} (h : Draft.Qualifiers ts) (c : Char) :
    .delimiter c ∉ ts := by
  intro hmem
  have hplain := h.plain _ hmem
  simp [Token.isWord, Token.isSpace] at hplain

namespace Draft.Layout

/-- The tokens before the colon of an initializer list, the specifiers apart. -/
def headTokens (w : Layout) : List Token := w.parts.tokens ++ w.qualifiers

theorem tokens_eq (w : Layout) : w.tokens = w.specifiers.tokens ++ w.headTokens := List.append_assoc ..

theorem ofLatest_headTokens (w : Layout) : Signature.ofLatest w.headTokens.reverse =
    (Signature.ofLatest w.parts.tokens.reverse).map fun s =>
      { s with trailing := s.trailing ++ w.qualifiers } := by
  have hclose : .delimiter ')' ∉ w.qualifiers.reverse := by
    rw [List.mem_reverse]
    exact w.qualifiers_apart.delimiter_not_mem ')'
  rw [headTokens, List.reverse_append, Signature.ofLatest_append hclose, List.reverse_reverse]

section Members

variable {w : Layout} {list : List Token}

section Split

variable (hlist : list.head? ≠ some (.delimiter ':'))
include hlist

/-- The colon after the qualifiers opens the list. -/
theorem splitInitializers_members :
    Signature.splitInitializers 0 false [] (w.headTokens ++ .delimiter ':' :: list) =
      some (w.headTokens.reverse, list) := by
  have hdelimiter := w.qualifiers_apart.delimiter_not_mem
  apply Signature.Tight.splitInitializers_colon _ _ _ hlist
  · exact w.parts.tight.append (Signature.tight_of_not_mem (hdelimiter '(') (hdelimiter ')') (hdelimiter ':'))
  · rw [headTokens, Parens.after_append, Parens.after_of_not_mem (hdelimiter '(') (hdelimiter ')')]
    exact w.parts.closed
  · intro hlast
    rw [headTokens, List.getLast?_append] at hlast
    cases hqualifiers : w.qualifiers.getLast? with
    | none =>
      rw [hqualifiers, Option.none_or, w.parts.tokens_eq_concat, List.getLast?_concat] at hlast
      simp at hlast
    | some t =>
      rw [hqualifiers, Option.some_or, Option.some.injEq] at hlast
      rw [hlast] at hqualifiers
      exact hdelimiter ':' (List.mem_of_getLast? hqualifiers)

/-- Any other list than one that ends with a parenthesis is taken for one that ends at a brace. -/
theorem ofTokens_of_not_parenthesis (hlast : (Token.concat list).trim.getLast? ≠ some ')') :
    Signature.ofTokens (w.headTokens ++ .delimiter ':' :: list) = .error .braceInitializer := by
  simp only [Signature.ofTokens, splitInitializers_members hlist]
  rw [if_pos hlast]
  rfl

/-- A list that ends with a parenthesis is kept, if there is a name before it. -/
theorem ofTokens_of_parenthesis (hlast : (Token.concat list).trim.getLast? = some ')') :
    Signature.ofTokens (w.headTokens ++ .delimiter ':' :: list) =
      (Signature.ofLatest w.parts.tokens.reverse).map fun s =>
        { s with trailing := s.trailing ++ w.qualifiers, initializers := some (Token.concat list).trim } := by
  simp only [Signature.ofTokens, splitInitializers_members hlist]
  rw [if_neg (not_not.mpr hlast), w.ofLatest_headTokens]
  cases Signature.ofLatest w.parts.tokens.reverse <;> rfl

end Split

section Read

variable (hconst : .word "const".toList ∉ w.qualifiers) (hpass : Passes list)
include hconst hpass

theorem readAll_members :
    readAll (w.tokens ++ .delimiter ':' :: list) =
      { stage := .type none
        storage := w.specifiers.storage
        constReturn := w.specifiers.constant
        type := (w.headTokens ++ .delimiter ':' :: list).reverse
        source := (w.tokens ++ .delimiter ':' :: list).reverse } := by
  have hcolon : Passes [.delimiter ':'] := passes_singleton (by simp) (by simp) rfl
  have hhead : Passes w.headTokens :=
    (passes_parts w.parts).append (passes_typeTokens (w.qualifiers_apart.typeTokens hconst))
  have hall : Passes (w.headTokens ++ .delimiter ':' :: list) := hhead.append (hcolon.append hpass)
  obtain ⟨t, ht, hstart⟩ := w.starts
  have hfirst : (w.headTokens ++ .delimiter ':' :: list).head? = some t := by
    rw [headTokens, List.append_assoc, List.head?_append, ht]
    rfl
  have hread := readAll_signature w.specifiers hall ⟨t, hfirst, hstart⟩
  rw [← List.append_assoc, ← w.tokens_eq] at hread
  exact hread

theorem ended_members : (readAll (w.tokens ++ .delimiter ':' :: list)).ended =
    { readAll (w.tokens ++ .delimiter ':' :: list) with
      signature := some (Signature.ofTokens (w.headTokens ++ .delimiter ':' :: list))
      addendum := trailingOf (w.headTokens ++ .delimiter ':' :: list) } := by
  have hread := readAll_members hconst hpass
  rw [ended_of_ne_addendum (by rw [hread]; simp), hread, List.reverse_reverse]

/-- Up to its brace a list that is kept is the initializer list of the record. -/
theorem ofTokens_members (hlist : list.head? ≠ some (.delimiter ':')) (hfinal : w.parts.word ≠ "final".toList)
    {rest : List Token} {source : Text} {body : Option Text} (hlast : (Token.concat list).trim.getLast? = some ')')
    (hends : Ends (w.tokens ++ .delimiter ':' :: list) rest source body) (hrest : rest ≠ []) :
    Declaration.ofTokens (w.tokens ++ .delimiter ':' :: list ++ rest) =
      { w.record source body with initializers := some (Token.concat list).trim } := by
  have hread := readAll_members hconst hpass
  have hsignature : Signature.ofTokens (w.headTokens ++ .delimiter ':' :: list) =
      .ok { w.parts.signature with
        trailing := w.qualifiers
        initializers := some (Token.concat list).trim } := by
    rw [ofTokens_of_parenthesis hlist hlast, (Signature.ofLatest_of_ok (w.parts.ofTokens_eq hfinal) rfl).2]
    rfl
  have hended := ended_members hconst hpass
  rw [hsignature, trailingOf_of_ok hsignature] at hended
  have hfinish := finish_of_ends (by rw [hread]; rfl) (by rw [hended]) hends fun h => absurd h hrest
  rw [Declaration.ofTokens, ← readAll, hfinish, hended, hread]
  rfl

/-- What keeps the signature from being split makes the record invalid at its brace, whatever follows. -/
theorem issue_of_error {issue : Issue}
    (hsignature : Signature.ofTokens (w.headTokens ++ .delimiter ':' :: list) = .error issue) (rest : List Token) :
    let record := Declaration.ofTokens (w.tokens ++ .delimiter ':' :: list ++ .delimiter '{' :: rest)
    record.valid = false ∧ record.issue = some issue := by
  have htop : (readAll (w.tokens ++ .delimiter ':' :: list)).stage.atTop := by
    rw [readAll_members hconst hpass]
    rfl
  have hended : (readAll (w.tokens ++ .delimiter ':' :: list)).ended.signature = some (.error issue) := by
    rw [ended_members hconst hpass, hsignature]
  obtain ⟨stage, body, hbody⟩ := exists_foldl_feed_block
    (d := { (readAll (w.tokens ++ .delimiter ':' :: list)).ended with
      stage := .body 1, body := some [.delimiter '{'] }) rfl rest
  rw [Declaration.ofTokens, ← readAll, readAll_append, List.foldl_cons, feed_brace htop, hbody, finish]
  simp only [hended]
  exact ⟨trivial, trivial⟩

end Read

end Members

end Draft.Layout

/-- A trimmed text ends with the last character that is no blank. -/
theorem Text.getLast?_trim {t : Text} {c : Char} (h : t.getLast? = some c) (hc : ¬ isBlankChar c) :
    t.trim.getLast? = some c := by
  obtain ⟨w, w', ht, hw, hw'⟩ := t.exists_trim
  rw [ht, List.getLast?_append, List.getLast?_append] at h
  cases hlast : w'.getLast? with
  | some d =>
    obtain rfl : d = c := by simpa [hlast] using h
    exact absurd (hw' d (List.mem_of_getLast? hlast)) hc
  | none =>
    cases htrim : t.trim.getLast? with
    | some d => simpa [hlast, htrim] using h
    | none =>
      rw [hlast, htrim, Option.none_or, Option.none_or] at h
      exact absurd (hw c (List.mem_of_getLast? h)) hc

/-- A constructor with member initializers as it is written, up to its body. -/
structure Constructor where
  lead : Gap
  name : Text
  parameters : Text
  qualifiers : Text
  /-- What stands behind the colon. -/
  gap : Gap
  first : Member
  others : List (Comma × Member)
  bodyGap : Gap
  name_identifier : name.isIdentifier
  name_not_mem : name ∉ Signature.statementKeywords ∧ name ∉ specifierWords
  parameters_closed : parameters.Closed
  parameters_balanced : Brackets.Balanced '(' ')' parameters.code
  qualifiers_words : ∀ c ∈ qualifiers, isWordChar c ∨ isSpace c
  qualifiers_const : .word "const".toList ∉ qualifiers.code

namespace Constructor

def members (c : Constructor) : List Member := c.first :: c.others.map Prod.snd

/-- The text from the first member through the last. -/
def initializers (c : Constructor) : Text :=
  c.first.text ++ c.others.flatMap fun other => other.1.text ++ other.2.text

def text (c : Constructor) : Text :=
  c.lead.text ++ c.name ++ '(' :: c.parameters ++ ')' :: c.qualifiers ++ ':' :: c.gap.text ++ c.initializers ++
    c.bodyGap.text

/-- The text before the colon. -/
def head (c : Constructor) : Text := c.lead.text ++ c.name ++ '(' :: c.parameters ++ ')' :: c.qualifiers

theorem isWord_name (c : Constructor) : Prototype.IsWord c.name :=
  Prototype.isWord_of_identifier c.name_identifier c.name_not_mem.2 none

theorem takeReference_name (c : Constructor) : Signature.takeReference c.name = (none, c.name) :=
  Prototype.takeReference_ampersands c.name_identifier none

theorem wordy_qualifiers (c : Constructor) : ∀ d ∈ c.qualifiers, Lexer.isWordy d ∨ isSpace d :=
  fun d hd => (c.qualifiers_words d hd).imp_left Text.isWordy_of_isWordChar

/-- The parts before the colon as tokens. -/
def layout (c : Constructor) : Draft.Layout where
  specifiers :=
    { lead := c.lead.tokens
      storage := none
      gap := []
      constant := false
      lead_space := c.lead.isSpace_of_mem_tokens
      gap_space := by simp }
  parts :=
    { type := []
      word := c.name
      args := none
      params := c.parameters.code
      type_tokens := .nil
      not_const := fun h => c.isWord_name.2.2 (by simp [h, specifierWords])
      name_ne := by
        rw [c.takeReference_name]
        exact Text.ne_nil_of_isIdentifier c.name_identifier
      name_not_mem := by
        rw [c.takeReference_name]
        exact c.name_not_mem.1
      arguments := by simp
      balanced := c.parameters_balanced }
  qualifiers := c.qualifiers.code
  qualifiers_apart := Draft.qualifiers_code c.wordy_qualifiers
  starts := ⟨.word c.name, rfl, Prototype.startsAt_word _ c.isWord_name⟩

theorem tokens_layout (c : Constructor) : c.layout.tokens =
    c.lead.tokens ++ .word c.name :: .delimiter '(' :: (c.parameters.code ++ .delimiter ')' :: c.qualifiers.code) := by
  simp [Draft.Layout.tokens, layout, Draft.Specifiers.tokens, Draft.Specifiers.storageTokens,
    Signature.Parts.tokens, Signature.argumentTokens]

theorem code_head (c : Constructor) (b : Text) :
    (c.head ++ ':' :: b).code = c.layout.tokens ++ .delimiter ':' :: b.code := by
  have htext : c.head ++ ':' :: b =
      c.lead.text ++ (c.name ++ '(' :: (c.parameters ++ ')' :: (c.qualifiers ++ ':' :: b))) := by
    simp [head]
  have hopen : Lexer.isSeparator '(' := by decide
  have hcolon : Lexer.isSeparator ':' := by decide
  rw [htext, c.lead.code_append, Prototype.code_word_append c.isWord_name hopen,
    Prototype.code_parens c.parameters_closed c.wordy_qualifiers hcolon, c.tokens_layout]
  simp [Token.ofDelimiter, isSpace]

/-- The tokens before the colon spell the text before it. -/
theorem concat_layout (c : Constructor) : Token.concat c.layout.tokens = c.head := by
  rw [c.tokens_layout]
  simp [head, Token.text, c.parameters_closed.concat_code,
    (Draft.closed_qualifiers c.wordy_qualifiers).concat_code]

theorem record_layout (c : Constructor) (source : Text) (body : Option Text) :
    c.layout.record source body =
      { name := c.name
        parameters := c.parameters
        addendum := if c.qualifiers.words.isEmpty then none else some (Text.join [' '] c.qualifiers.words)
        body := body
        sourceText := source
        valid := true } := by
  have hparameters : c.layout.parts.signature.parameters = c.parameters := c.parameters_closed.concat_code
  have hname : c.layout.parts.signature.name = c.name := congrArg Prod.snd c.takeReference_name
  have hmarked : Signature.marked c.name [] = (none, []) :=
    @Prototype.marked_ampersands _ c.name_identifier none [] (by simp)
  have hmark : c.layout.parts.signature.indirection = none := congrArg Prod.fst hmarked
  have htype : c.layout.parts.signature.returnType = [] := by
    change (Signature.textOf (Signature.marked c.name []).2).trim = _
    rw [hmarked]
    rfl
  have haddendum := Prototype.addendumText_code c.wordy_qualifiers
  simp only [Draft.Layout.record, Draft.recordOf, hparameters, hname, hmark, htype]
  simp only [layout, haddendum]
  rfl

def entries (c : Constructor) : List ListedMember :=
  ⟨c.gap.text, c.first, Member.leads_gap c.gap⟩ ::
    c.others.map fun other => ⟨other.1.text, other.2, Member.leads_comma other.1⟩

theorem map_member_entries (c : Constructor) : c.entries.map ListedMember.member = c.members := by
  simp [entries, members]

theorem listText_entries (c : Constructor) : listText c.entries = c.gap.text ++ c.initializers := by
  simp [listText, entries, initializers, ListedMember.text, List.flatMap_map]

theorem text_append (c : Constructor) (b : Text) :
    c.text ++ b = c.head ++ ':' :: (listText c.entries ++ (c.bodyGap.text ++ b)) := by
  rw [listText_entries]
  simp [text, head]

theorem exists_head_initializers (c : Constructor) : ∃ d rest, c.initializers = d :: rest ∧ isWordChar d := by
  obtain ⟨d, rest, hpath, hd⟩ := c.first.exists_head_path
  have htext : c.first.text = d :: (rest ++ c.first.opener :: (c.first.value ++ [c.first.closer])) := by
    rw [Member.text, hpath]
    rfl
  exact ⟨d, _, by rw [initializers, htext, List.cons_append], hd⟩

theorem getLast?_initializers (c : Constructor) (h : ∀ m ∈ c.members, m.braced = false) :
    c.initializers.getLast? = some ')' := by
  obtain ⟨front, last, hentries⟩ : ∃ front last, c.entries = front ++ [last] := by
    have hne : c.entries ≠ [] := List.cons_ne_nil _ _
    exact ⟨c.entries.dropLast, c.entries.getLast hne, (List.dropLast_concat_getLast hne).symm⟩
  have hlast : last.member.braced = false := by
    apply h
    rw [← c.map_member_entries, hentries]
    simp
  have htext : (listText c.entries).getLast? = some ')' := by
    have hconcat : listText c.entries =
        listText front ++ last.lead ++ last.member.path ++ '(' :: last.member.value ++ [')'] := by
      simp [hentries, listText, ListedMember.text, Member.text, Member.opener, Member.closer, hlast]
    rw [hconcat, List.getLast?_concat]
  obtain ⟨d, rest, hinitializers, -⟩ := c.exists_head_initializers
  rw [listText_entries, hinitializers, List.getLast?_append_cons] at htext
  rwa [hinitializers]

/-- The tokens behind the colon, if no member has braces. -/
def list (c : Constructor) : List Token := listTokens c.entries ++ c.bodyGap.tokens

theorem passes_list (c : Constructor) : Draft.Passes c.list :=
  (passes_listTokens _).append (Draft.passes_typeTokens c.bodyGap.typeTokens)

theorem head?_list (c : Constructor) : c.list.head? ≠ some (.delimiter ':') := head?_listTokens_cons _ _ _

section Parenthesised

variable {c : Constructor} (h : ∀ m ∈ c.members, m.braced = false)
include h

theorem braced_entries : ∀ e ∈ c.entries, e.member.braced = false := by
  intro e he
  apply h
  rw [← c.map_member_entries]
  exact List.mem_map_of_mem he

/-- In parentheses, the initializers have no brace that could be taken for the body. -/
theorem code_text (b : Text) :
    (c.text ++ '{' :: b).code = c.layout.tokens ++ .delimiter ':' :: c.list ++ .delimiter '{' :: b.code := by
  rw [c.text_append, c.code_head, code_listText (braced_entries h), c.bodyGap.code_append,
    Text.code_separator (by decide)]
  simp [list, Token.ofDelimiter, isSpace]

theorem concat_list : Token.concat c.list = listText c.entries ++ c.bodyGap.text := by
  simp [list, concat_listTokens (braced_entries h)]

/-- The list is what stands between the colon and the body without the gaps around it. -/
theorem trim_list : (Token.concat c.list).trim = c.initializers := by
  have hparenthesis : ¬ isBlankChar ')' := by decide
  rw [concat_list h, listText_entries, List.append_assoc, Text.trim_blank_append c.gap.isBlankChar_of_mem,
    Text.trim_append_blank c.bodyGap.isBlankChar_of_mem]
  apply Text.trim_eq_self_iff.mpr
  constructor
  · intro d hd
    obtain ⟨e, rest, hinitializers, he⟩ := c.exists_head_initializers
    rw [hinitializers] at hd
    obtain rfl : e = d := by simpa using hd
    exact not_blank_of_isWordChar he
  · intro d hd
    rw [c.getLast?_initializers h] at hd
    obtain rfl : ')' = d := by simpa using hd
    exact hparenthesis

theorem getLast?_trim_list : (Token.concat c.list).trim.getLast? = some ')' := by
  rw [trim_list h]
  exact c.getLast?_initializers h

end Parenthesised

/-- The first member with braces ends what is read of the list at its path. -/
theorem exists_braced (c : Constructor) (h : ∃ m ∈ c.members, m.braced) :
    ∃ front e back, c.entries = front ++ e :: back ∧ (∀ other ∈ front, other.member.braced = false) ∧
      e.member.braced := by
  obtain ⟨m, hm, hbraced⟩ := h
  rw [← c.map_member_entries] at hm
  obtain ⟨e, he, rfl⟩ := List.mem_map.mp hm
  have hfind : (c.entries.find? fun e => e.member.braced).isSome := List.find?_isSome.mpr ⟨e, he, hbraced⟩
  obtain ⟨first, hfirst⟩ := Option.isSome_iff_exists.mp hfind
  obtain ⟨hbraced', front, back, hentries, hfront⟩ := List.find?_eq_some_iff_append.mp hfirst
  exact ⟨front, first, back, hentries, by simpa using hfront, hbraced'⟩

end Constructor

namespace Declaration

section Constructor

variable (c : Constructor) (block rest : Text)

theorem parse_constructor_of_parentheses (hclosed : block.Closed)
    (hbalanced : Brackets.Balanced '{' '}' block.code) (h : ∀ m ∈ c.members, m.braced = false)
    (hfinal : c.name ≠ "final".toList) :
    parse (c.text ++ '{' :: (block ++ '}' :: rest)) =
      { name := c.name
        parameters := c.parameters
        addendum := if c.qualifiers.words.isEmpty then none else some (Text.join [' '] c.qualifiers.words)
        initializers := some c.initializers
        body := some ('{' :: (block ++ ['}']))
        sourceText := c.text
        valid := true } := by
  have hsource : Token.concat (c.layout.tokens ++ .delimiter ':' :: c.list) = c.text := by
    have htext := c.text_append []
    rw [List.append_nil, List.append_nil] at htext
    rw [htext, Token.concat_append, c.concat_layout, Token.concat_cons, Constructor.concat_list h]
    rfl
  have hends : Draft.Ends (c.layout.tokens ++ .delimiter ':' :: c.list)
      (.delimiter '{' :: (block.code ++ .delimiter '}' :: rest.code)) c.text (some ('{' :: (block ++ ['}']))) := by
    have hbody : Draft.Ends (c.layout.tokens ++ .delimiter ':' :: c.list) _ _ _ :=
      .body block.code rest.code hbalanced
    rwa [hsource, hclosed.concat_code] at hbody
  have hblock : Text.code (block ++ '}' :: rest) = block.code ++ .delimiter '}' :: rest.code := by
    rw [hclosed.code_append (by decide)]
    simp [Token.ofDelimiter, isSpace]
  rw [parse, Constructor.code_text h, hblock, Draft.Layout.ofTokens_members c.qualifiers_const c.passes_list
    c.head?_list hfinal (Constructor.getLast?_trim_list h) hends (by simp), c.record_layout, Constructor.trim_list h]

/-- The name `final` is passed over, and nothing else can be the name. -/
theorem parse_constructor_of_final (h : ∀ m ∈ c.members, m.braced = false) (hfinal : c.name = "final".toList) :
    (parse (c.text ++ '{' :: rest)).valid = false ∧ (parse (c.text ++ '{' :: rest)).issue = some .missingName := by
  have hsignature : Signature.ofTokens (c.layout.headTokens ++ .delimiter ':' :: c.list) = .error .missingName := by
    rw [Draft.Layout.ofTokens_of_parenthesis c.head?_list (Constructor.getLast?_trim_list h),
      c.layout.parts.ofLatest_of_final hfinal rfl rfl]
    rfl
  rw [parse, Constructor.code_text h]
  exact Draft.Layout.issue_of_error c.qualifiers_const c.passes_list hsignature rest.code

theorem parse_constructor_of_braces (h : ∃ m ∈ c.members, m.braced) :
    (parse (c.text ++ rest)).valid = false ∧ (parse (c.text ++ rest)).issue = some .braceInitializer := by
  obtain ⟨front, e, back, hentries, hfront, hbraced⟩ := c.exists_braced h
  obtain ⟨tail, htext⟩ : ∃ tail : Text, listText c.entries ++ (c.bodyGap.text ++ rest) =
      listText front ++ (e.front ++ '{' :: tail) := by
    refine ⟨e.member.value ++ '}' :: (listText back ++ (c.bodyGap.text ++ rest)), ?_⟩
    simp [hentries, listText, ListedMember.text, ListedMember.front, Member.text, Member.opener, Member.closer,
      hbraced]
  have hcode : (c.text ++ rest).code = c.layout.tokens ++
      .delimiter ':' :: (listTokens front ++ e.front.code) ++ .delimiter '{' :: tail.code := by
    rw [c.text_append, c.code_head, htext, code_listText hfront, e.closed_front.code_append (by decide)]
    simp [Token.ofDelimiter, isSpace]
  have hpass : Draft.Passes (listTokens front ++ e.front.code) :=
    (passes_listTokens front).append (Draft.passes_typeTokens (e.leads.tokens e.member))
  have hhead : (listTokens front ++ e.front.code).head? ≠ some (.delimiter ':') := by
    cases front with
    | nil =>
      obtain ⟨t, ht, hne⟩ := e.exists_head_front
      simpa [listTokens, ht] using hne
    | cons first front => exact head?_listTokens_cons first front _
  have hlast : (Token.concat (listTokens front ++ e.front.code)).trim.getLast? ≠ some ')' := by
    obtain ⟨d, hd, hword⟩ := e.member.exists_getLast?_path
    have hconcat : (Token.concat (listTokens front ++ e.front.code)).getLast? = some d := by
      rw [Token.concat_append, e.closed_front.concat_code, List.getLast?_append, ListedMember.front,
        List.getLast?_append, hd]
      rfl
    rw [Text.getLast?_trim hconcat (not_blank_of_isWordChar hword)]
    rintro heq
    obtain rfl : d = ')' := by simpa using heq
    revert hword
    decide +kernel
  rw [parse, hcode]
  exact Draft.Layout.issue_of_error c.qualifiers_const hpass
    (Draft.Layout.ofTokens_of_not_parenthesis hhead hlast) tail.code

/-- A constructor whose members are all initialized with parentheses is read whole, with the list from its first
member through its last, unless it is called `final`: that word is passed over, and the record has no name. A single
member with braces makes the record invalid, whatever the name. -/
theorem parse_constructor :
    let record := parse (c.text ++ '{' :: (block ++ '}' :: rest))
    (block.Closed → Brackets.Balanced '{' '}' block.code → (∀ m ∈ c.members, m.braced = false) →
      c.name ≠ "final".toList →
      record =
        { name := c.name
          parameters := c.parameters
          addendum := if c.qualifiers.words.isEmpty then none else some (Text.join [' '] c.qualifiers.words)
          initializers := some c.initializers
          body := some ('{' :: (block ++ ['}']))
          sourceText := c.text
          valid := true }) ∧
      ((∀ m ∈ c.members, m.braced = false) → c.name = "final".toList →
        record.valid = false ∧ record.issue = some .missingName) ∧
      ((∃ m ∈ c.members, m.braced) → record.valid = false ∧ record.issue = some .braceInitializer) :=
  ⟨parse_constructor_of_parentheses c block rest, parse_constructor_of_final c _, parse_constructor_of_braces c _⟩

end Constructor

/-- A base class with a path and a call in its value. -/
def baseMember : Member where
  scope := ["ui".toList]
  name := "Base".toList
  braced := false
  value := "a, f(\")\")".toList
  scope_names := by
    intro word hword
    obtain rfl : word = "ui".toList := by simpa using hword
    exact ⟨by decide +kernel, by decide⟩
  name_identifier := by decide +kernel
  name_not_mem := by decide
  value_closed := by decide +kernel
  value_balanced := by decide +kernel

/-- A field with a lone angle bracket and a colon in its value. -/
def fieldMember (braced : Bool) : Member where
  scope := []
  name := "size_".toList
  braced := braced
  value := "b < 0 ? 1 : b".toList
  scope_names := Prototype.scope_names_nil
  name_identifier := by decide +kernel
  name_not_mem := by decide
  value_closed := by decide +kernel
  value_balanced := by decide +kernel

def widget (braced : Bool) : Constructor where
  lead := ⟨"  ".toList, by decide⟩
  name := "Widget".toList
  parameters := "int a, int b = (2)".toList
  qualifiers := " noexcept ".toList
  gap := .blank
  first := baseMember
  others := [(⟨⟨[], by decide⟩, ⟨[], by decide⟩⟩, fieldMember braced)]
  bodyGap := ⟨"\n".toList, by decide⟩
  name_identifier := by decide +kernel
  name_not_mem := by decide
  parameters_closed := by decide +kernel
  parameters_balanced := by decide +kernel
  qualifiers_words := by
    have hwords : " noexcept ".toList.all fun c => isSpace c || isWordChar c := by decide +kernel
    intro c hc
    simpa [or_comm] using List.all_eq_true.mp hwords c hc
  qualifiers_const := by decide +kernel

/-- A constructor whose name is passed over. -/
def finalConstructor : Constructor where
  lead := ⟨[], by decide⟩
  name := "final".toList
  parameters := "int x".toList
  qualifiers := " ".toList
  gap := .blank
  first :=
    { scope := []
      name := "a".toList
      braced := false
      value := "x".toList
      scope_names := Prototype.scope_names_nil
      name_identifier := by decide +kernel
      name_not_mem := by decide
      value_closed := by decide +kernel
      value_balanced := by decide +kernel }
  others := []
  bodyGap := .blank
  name_identifier := by decide +kernel
  name_not_mem := by decide
  parameters_closed := by decide +kernel
  parameters_balanced := by decide +kernel
  qualifiers_words := fun c hc => .inr (List.all_eq_true.mp (by decide) c hc)
  qualifiers_const := by decide +kernel

theorem parse_widget :
    (∀ m ∈ (widget false).members, m.braced = false) ∧ (∃ m ∈ (widget true).members, m.braced) ∧
      parse ("  Widget(int a, int b = (2)) noexcept : ui::Base(a, f(\")\")),size_(b < 0 ? 1 : b)\n".toList ++
        "\x7b go(\x7b\x7d); \x7d".toList) =
        { name := "Widget".toList
          parameters := "int a, int b = (2)".toList
          addendum := some "noexcept".toList
          initializers := some "ui::Base(a, f(\")\")),size_(b < 0 ? 1 : b)".toList
          body := some "\x7b go(\x7b\x7d); \x7d".toList
          sourceText := (widget false).text
          valid := true } ∧
      (parse (finalConstructor.text ++ "\x7b go(\x7b\x7d); \x7d".toList)).issue = some .missingName ∧
      (parse ("  Widget(int a, int b = (2)) noexcept : ui::Base(a, f(\")\")),size_\x7bb < 0 ? 1 : b\x7d\n".toList ++
        "\x7b go(\x7b\x7d); \x7d".toList)).issue = some .braceInitializer := by
  have hplain : ∀ m ∈ (widget false).members, m.braced = false := by
    simp [widget, Constructor.members, baseMember, fieldMember]
  have hfinal : ∀ m ∈ finalConstructor.members, m.braced = false := by
    simp [finalConstructor, Constructor.members]
  have hbraced : ∃ m ∈ (widget true).members, m.braced :=
    ⟨fieldMember true, by simp [widget, Constructor.members], rfl⟩
  have hblock : Text.Closed " go(\x7b\x7d); ".toList := by decide +kernel
  have hread := (parse_constructor (widget false) " go(\x7b\x7d); ".toList []).1 hblock (by decide +kernel) hplain
    (by decide)
  have hname := (parse_constructor finalConstructor " go(\x7b\x7d); ".toList []).2.1 hfinal rfl
  have hissue := (parse_constructor (widget true) " go(\x7b\x7d); ".toList []).2.2 hbraced
  refine ⟨hplain, hbraced, ?_, ?_, ?_⟩
  · exact (congrArg parse (by decide +kernel)).trans (hread.trans (by decide +kernel))
  · exact (congrArg (fun text => (parse text).issue) (by decide +kernel)).trans hname.2
  · exact (congrArg (fun text => (parse text).issue) (by decide +kernel)).trans hissue.2

/-- All members of this constructor are initialized with parentheses, and still it is not read. -/
theorem issue_finalConstructor :
    finalConstructor.text ++ "\x7b \x7d".toList = "final(int x) : a(x) \x7b \x7d".toList ∧
      finalConstructor.members.all (·.braced == false) ∧
      (parse "final(int x) : a(x) \x7b \x7d".toList).valid = false ∧
      (parse "final(int x) : a(x) \x7b \x7d".toList).issue = some .missingName := by
  decide +kernel

end Declaration
end OutOfLine

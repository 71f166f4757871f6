import OutOfLine.Proofs.JoinedLines
import OutOfLine.Proofs.SeparatedText
import OutOfLine.Proofs.TokenShapes

/-!
# Consistent records

A record is valid exactly if it names no issue, and an issue of the signature leaves nothing of it in the
record. The name of a valid record comes from a word among the tokens, the parameters are what the backward
search for their parenthesis passes, and the body is what is read until its brace is closed. Where no comment
is left out, the parameters and the body are lexed again as they were, so they are balanced as texts too.
-/

namespace OutOfLine

theorem insideAfter_plain {ts : List Token} (h : ∀ t ∈ ts, t.opensComment = false) :
    insideAfter false ts = false := by
  induction ts with
  | nil => rfl
  | cons t ts ih =>
    rw [List.forall_mem_cons] at h
    cases t with
    | lineComment text => simp [Token.opensComment] at h
    | commentOpen => simp [Token.opensComment] at h
    | _ => exact ih h.2

namespace Text

/-- A text in which no comment is opened does not end in one. -/
theorem CommentFree.outside {t : Text} (h : CommentFree t) : (tokenize false t).2 = false := by
  rw [← insideAfter_tokenize, insideAfter_plain h]

theorem commentFree_newline {a b : Text} (ha : CommentFree a) (hb : CommentFree b) :
    CommentFree (a ++ '\n' :: b) := by
  have hrun : (tokenize false (a ++ '\n' :: b)).1 =
      (tokenize false a).1 ++ .newline :: (tokenize false b).1 := by
    have hsplit := congrArg Prod.fst (Lexer.run_newline (.start false) a b)
    rwa [show (Lexer.run (.start false) a).2 = false from ha.outside] at hsplit
  intro token htoken
  rw [hrun, List.mem_append, List.mem_cons] at htoken
  rcases htoken with htoken | rfl | htoken
  · exact ha token htoken
  · rfl
  · exact hb token htoken

theorem commentFree_join {parts : List Text} (h : ∀ part ∈ parts, CommentFree part) :
    CommentFree (join ['\n'] parts) := by
  induction parts with
  | nil => decide
  | cons part parts ih =>
    rw [List.forall_mem_cons] at h
    cases parts with
    | nil => simpa [join, List.intercalate] using h.1
    | cons next parts =>
      rw [join_cons_cons, List.append_assoc]
      exact commentFree_newline h.1 (ih h.2)

/-- What stands between two plain delimiters of a text without comments is lexed by itself. -/
theorem CommentFree.closed_between {t : Text} (h : CommentFree t) {c d : Char} (hc : Lexer.isPlain c)
    (hd : Lexer.isPlain d) {before inner rest : List Token}
    (htext : t.code = before ++ .delimiter c :: (inner ++ .delimiter d :: rest)) :
    (Token.concat inner).Closed ∧ (Token.concat inner).code = inner := by
  have htokens := h.code_eq.symm.trans htext
  have hplain (ts : List Token) (hts : ts ⊆ (tokenize false t).1) : ∀ t ∈ ts, t.opensComment = false :=
    fun token htoken => h token (hts htoken)
  have hrun : Lexer.run (.start false) t =
      (before ++ .delimiter c :: (inner ++ .delimiter d :: rest), (tokenize false t).2) :=
    Prod.ext htokens rfl
  obtain ⟨a, z, -, -, hbefore, hz⟩ := Lexer.exists_cut_of_run hc hrun
  have ha : CommentFree a := hplain _ (by rw [htokens, ← hbefore]; exact List.subset_append_left ..)
  rw [show (Lexer.run (.start false) a).2 = false from ha.outside] at hz
  obtain ⟨b, _, -, hverbatim, hinner, -⟩ := Lexer.exists_cut_of_run hd hz
  have hb : CommentFree b := hplain _ fun token htoken => by
    rw [show (tokenize false b).1 = inner from hinner] at htoken
    rw [htokens]
    simp [htoken]
  have hconcat : Token.concat inner = b := by
    rw [← hinner]
    exact concat_tokenize false b
  have hcomment : (Lexer.read (.start false) b).2.inComment = false := by
    have hend := congrArg Prod.snd (Lexer.run_eq_read (.start false) b)
    exact hend.symm.trans hb.outside
  have hcode : (Lexer.read (.start false) b).2.inCode := by
    rw [Lexer.Mode.inCode, hverbatim, hcomment]
    rfl
  rw [hconcat]
  exact ⟨⟨hcode, hb⟩, hb.code_eq.trans hinner⟩

/-- Blanks are single spaces. -/
def SingleSpaced (t : Text) : Prop :=
  (∀ c ∈ t, isBlankChar c → c = ' ') ∧ t.IsChain fun a b => isBlankChar a → ¬ isBlankChar b

/-- Some words, one space between each two. -/
structure Neat (t : Text) : Prop where
  ne_nil : t ≠ []
  trimmed : t.trim = t
  singleSpaced : t.SingleSpaced

theorem neat_of_not_blank {word : Text} (hne : word ≠ []) (h : ∀ c ∈ word, ¬ isBlankChar c) : Neat word where
  ne_nil := hne
  trimmed := trim_eq_self_iff.mpr ⟨fun c hc => h c (List.mem_of_head? hc),
    fun c hc => h c (List.mem_of_getLast? hc)⟩
  singleSpaced := by
    refine ⟨fun c hc hblank => absurd hblank (h c hc), ?_⟩
    rw [List.isChain_iff_getElem]
    exact fun i hi hblank => absurd hblank (h _ (List.getElem_mem _))

theorem Neat.cons_word {word t : Text} (ht : Neat t) (hne : word ≠ []) (h : ∀ c ∈ word, ¬ isBlankChar c) :
    Neat (word ++ ' ' :: t) := by
  have hword := neat_of_not_blank hne h
  obtain ⟨hstart, hend⟩ := trim_eq_self_iff.mp ht.trimmed
  refine ⟨by simp, trim_eq_self_iff.mpr ⟨fun c hc => ?_, fun c hc => ?_⟩, fun c hc hblank => ?_, ?_⟩
  · rw [List.head?_append_of_ne_nil _ hne] at hc
    exact h c (List.mem_of_head? hc)
  · refine hend c ?_
    rw [List.getLast?_append_of_ne_nil _ (by simp)] at hc
    rwa [List.getLast?_cons_of_ne_nil ht.ne_nil] at hc
  · rcases List.mem_append.mp hc with hc | hc
    · exact absurd hblank (h c hc)
    · rcases List.mem_cons.mp hc with rfl | hc
      · rfl
      · exact ht.singleSpaced.1 c hc hblank
  · refine List.isChain_append.mpr ⟨hword.singleSpaced.2, ?_, fun c hc _ _ hblank => ?_⟩
    · exact List.isChain_cons.mpr ⟨fun c hc _ => hstart c hc, ht.singleSpaced.2⟩
    · exact absurd hblank (h c (List.mem_of_getLast? hc))

theorem neat_join {words : List Text} (hne : words ≠ [])
    (h : ∀ word ∈ words, word ≠ [] ∧ ∀ c ∈ word, ¬ isBlankChar c) : Neat (join [' '] words) := by
  induction words with
  | nil => exact absurd rfl hne
  | cons word words ih =>
    rw [List.forall_mem_cons] at h
    cases words with
    | nil =>
      have hjoin : join [' '] [word] = word := by simp [join, List.intercalate]
      rw [hjoin]
      exact neat_of_not_blank h.1.1 h.1.2
    | cons next words =>
      rw [join_cons_cons, List.append_assoc]
      exact (ih (by simp) h.2).cons_word h.1.1 h.1.2

end Text

namespace Signature

/-- What the parts of a signature are among the tokens it is found in. -/
structure FoundIn (s : Signature) (ts : List Token) : Prop where
  group : ∃ front params back, ts = front ++ .delimiter '(' :: (params ++ .delimiter ')' :: back) ∧
    Brackets.Balanced '(' ')' params ∧ s.parameters = Token.concat params
  name_word : ∃ word, .word word ∈ ts ∧ s.name ⊆ word
  name_ne_nil : s.name ≠ []
  name_not_keyword : s.name ∉ statementKeywords

theorem FoundIn.of_isInfix {s : Signature} {ts us : List Token} (h : FoundIn s ts) (hts : ts <:+: us) :
    FoundIn s us := by
  obtain ⟨a, b, rfl⟩ := hts
  obtain ⟨front, params, back, rfl, hparams⟩ := h.group
  obtain ⟨word, hword, hname⟩ := h.name_word
  exact ⟨⟨a ++ front, params, back ++ b, by simp, hparams⟩,
    ⟨word, List.mem_append_left _ (List.mem_append_right _ hword), hname⟩, h.name_ne_nil, h.name_not_keyword⟩

theorem takeReference_subset (word : Text) : (takeReference word).2 ⊆ word := by
  have hword := takeReference_text word
  intro c hc
  rw [← hword]
  exact List.mem_append_right _ hc

theorem foundIn_of_ofLatest {latest : List Token} {s : Signature} (h : ofLatest latest = .ok s) :
    FoundIn s latest.reverse := by
  obtain ⟨params, rest, args, word, before, hgroup, hargs, hname, hkeyword, rfl⟩ := exists_of_ofLatest h
  have hlatest := eq_of_unwind_drop hgroup
  obtain ⟨between, rfl, -⟩ := takeTemplateArgs_eq_some hargs
  refine ⟨⟨(between ++ .word word :: before).reverse, params.reverse, (afterClose latest).reverse, ?_,
    Signature.after_of_unwind (by decide) (le_refl 1) hgroup, rfl⟩, ⟨word, ?_, takeReference_subset word⟩,
    hname, hkeyword⟩
  · have hreverse := congrArg List.reverse hlatest
    simpa using hreverse
  · rw [hlatest]
    simp

theorem foundIn_of_ofTokens {ts : List Token} {s : Signature} (h : ofTokens ts = .ok s) : FoundIn s ts := by
  rcases ofTokens_eq_ok_iff.mp h with ⟨-, hs⟩ | ⟨before, after, s', hsplit, hs, -, rfl⟩
  · have hfound := foundIn_of_ofLatest hs
    rwa [List.reverse_reverse] at hfound
  · obtain ⟨head, colon, rfl, rfl, -⟩ := (splitInitializers_eq_some_iff (p := {})).mp hsplit
    have hfound := foundIn_of_ofLatest hs
    rw [List.append_nil, List.reverse_reverse] at hfound
    obtain ⟨hgroup, hword, hname, hkeyword⟩ := hfound.of_isInfix (List.prefix_append head (colon :: after)).isInfix
    exact ⟨hgroup, hword, hname, hkeyword⟩

end Signature

namespace Declaration

/-- Nothing of a signature is in the record. -/
structure Cleared (d : Declaration) : Prop where
  returnType_eq : d.returnType = []
  templateArgs_eq : d.templateArgs = none
  indirection_eq : d.indirection = none
  name_eq : d.name = []
  parameters_eq : d.parameters = []
  addendum_eq : d.addendum = none
  initializers_eq : d.initializers = none
  body_eq : d.body = none

/-- The fields of a record agree with each other. -/
structure Consistent (d : Declaration) : Prop where
  valid_iff : d.valid ↔ d.issue = none
  cleared : ∀ issue, d.issue = some issue → issue ≠ .unterminatedBody → d.Cleared
  name_ne_nil : d.valid → d.name ≠ []
  name_delimiter : d.valid → ∀ c ∈ d.name, isDelimiter c = false
  name_not_keyword : d.valid → d.name ∉ Signature.statementKeywords
  addendum_neat : d.valid → ∀ addendum, d.addendum = some addendum → addendum.Neat

/-- The parameters close every parenthesis that they open, and a body ends where its brace is closed. -/
structure Nested (d : Declaration) : Prop where
  parameters_matched : Brackets.Matched '(' ')' d.parameters.code
  body_encloses : ∀ body, d.body = some body → Brackets.Encloses '{' '}' body.code

end Declaration

namespace Draft

theorem valid_finish_iff (d : Draft) : d.finish.valid ↔ d.finish.issue = none := by
  unfold finish
  split
  · simp
  · simp
  · cases d.stage <;> simp

theorem cleared_finish {d : Draft} {issue : Issue} (h : d.finish.issue = some issue)
    (hne : issue ≠ .unterminatedBody) : d.finish.Cleared := by
  unfold finish at h ⊢
  split at h
  · exact ⟨rfl, rfl, rfl, rfl, rfl, rfl, rfl, rfl⟩
  · exact ⟨rfl, rfl, rfl, rfl, rfl, rfl, rfl, rfl⟩
  · simp only [Bool.cond_eq_ite, Option.ite_none_left_eq_some, Option.some.injEq] at h
    exact absurd h.2.symm hne

theorem addendum_finish {d : Draft} {addendum : Text} (h : d.finish.addendum = some addendum) :
    addendum.Neat := by
  unfold finish at h
  split at h
  · simp at h
  · simp at h
  · simp only [Option.ite_none_left_eq_some, Option.some.injEq, List.isEmpty_iff] at h
    obtain ⟨hne, rfl⟩ := h
    exact Text.neat_join hne fun word hword => Text.ne_nil_and_not_blank_of_mem_words hword

end Draft

namespace Declaration

variable {ts : List Token}

/-- The name and the parameters of a valid record are those of a signature among its tokens. -/
theorem exists_foundIn_of_valid (h : (ofTokens ts).valid) :
    ∃ signature : Signature, signature.FoundIn ts ∧ (ofTokens ts).name = signature.name ∧
      (ofTokens ts).parameters = signature.parameters := by
  obtain ⟨source, rest, signature, text, body, rfl, htop, hsig, -, -, hrecord⟩ :=
    Draft.exists_ends_of_valid h
  have hread := Draft.Stage.reading_of_atTop htop
  obtain ⟨lead, type, tail, hparts, hdivides⟩ := Draft.exists_divides hread
  obtain ⟨hended, -⟩ := hdivides.ended_eq hread
  have hok : Signature.ofTokens type = .ok signature := Option.some.inj (hended.symm.trans hsig)
  refine ⟨signature, (Signature.foundIn_of_ofTokens hok).of_isInfix ⟨lead, tail ++ rest, ?_⟩, ?_, ?_⟩
  · rw [hparts, List.append_assoc _ tail rest]
  · rw [hrecord]
    rfl
  · rw [hrecord]
    rfl

/-- The body of a valid record is what stands from a brace to the one that closes it. -/
theorem exists_block_of_valid {body : Text} (h : (ofTokens ts).valid) (hbody : (ofTokens ts).body = some body) :
    ∃ front block back, ts = front ++ .delimiter '{' :: (block ++ .delimiter '}' :: back) ∧
      Brackets.Balanced '{' '}' block ∧ body = '{' :: (Token.concat block ++ ['}']) := by
  obtain ⟨source, rest, signature, text, body', rfl, -, -, hends, -, hrecord⟩ := Draft.exists_ends_of_valid h
  have heq : body' = some body := by
    rw [hrecord] at hbody
    exact hbody
  cases hends with
  | body block rest hcloses =>
    obtain rfl := Option.some.inj heq
    exact ⟨source, block, rest, rfl, hcloses, rfl⟩
  | _ => simp at heq

theorem consistent_ofTokens (hshaped : ∀ t ∈ ts, t.Shaped) : (ofTokens ts).Consistent where
  valid_iff := Draft.valid_finish_iff _
  cleared _ := Draft.cleared_finish
  name_ne_nil h := by
    obtain ⟨signature, hfound, hname, -⟩ := exists_foundIn_of_valid h
    rw [hname]
    exact hfound.name_ne_nil
  name_delimiter h := by
    obtain ⟨signature, hfound, hname, -⟩ := exists_foundIn_of_valid h
    obtain ⟨word, hword, hsubset⟩ := hfound.name_word
    have hchars := (hshaped _ hword).2
    rw [hname]
    exact fun c hc => hchars c (hsubset hc)
  name_not_keyword h := by
    obtain ⟨signature, hfound, hname, -⟩ := exists_foundIn_of_valid h
    rw [hname]
    exact hfound.name_not_keyword
  addendum_neat _ _ := Draft.addendum_finish

theorem consistent_of_text (text : Text) : (parse text).Consistent :=
  consistent_ofTokens fun t ht => shaped_tokenize false text t (mem_of_mem_dropComments ht)

theorem nested_of_text {text : Text} (hfree : text.CommentFree) (h : (parse text).valid) :
    (parse text).Nested where
  parameters_matched := by
    obtain ⟨signature, hfound, -, hparameters⟩ := exists_foundIn_of_valid h
    obtain ⟨front, params, back, hcode, hbalanced, hparams⟩ := hfound.group
    have hlexed := (hfree.closed_between (by decide) (by decide) hcode).2
    have hrecord : (parse text).parameters = Token.concat params := hparameters.trans hparams
    rw [hrecord, hlexed]
    exact (Brackets.matched_iff_balanced (by decide)).mpr hbalanced
  body_encloses body hbody := by
    obtain ⟨front, block, back, hcode, hbalanced, rfl⟩ := exists_block_of_valid h hbody
    obtain ⟨hclosed, hlexed⟩ := hfree.closed_between (by decide) (by decide) hcode
    have hbody : Text.code ('{' :: (Token.concat block ++ ['}'])) =
        .delimiter '{' :: (block ++ [.delimiter '}']) := by
      rw [Text.code_separator (by decide), hclosed.code_append (by decide), hlexed]
      rfl
    rw [hbody]
    exact Brackets.encloses_block hbalanced (by decide)

/-- The declaration at a line is read from the joined text of the lines that start there. -/
theorem parseAt_eq_parse (doc : Document) (i : Nat) :
    parseAt doc i = parse (doc.joinedLines i (doc.lineCount - i)) := by
  by_cases hi : i < doc.lineCount
  · have hcount : 1 ≤ doc.lineCount - i := by omega
    have hend : i + (doc.lineCount - i) = doc.lineCount := by omega
    obtain ⟨rest, htokens, hrest⟩ := doc.exists_code_joinedLines hcount hend.le
    rw [parseAt, htokens, hrest hend, List.append_nil]
    rfl
  · rw [parseAt, Document.joinedLines, Document.linesFrom_of_le _ (Nat.le_of_not_lt hi), List.take_nil]
    rfl

theorem commentFree_joinedLines {doc : Document} {i : Nat}
    (h : ∀ line ∈ doc.linesFrom i, line.content.CommentFree) (count : Nat) :
    (doc.joinedLines i count).CommentFree := by
  refine Text.commentFree_join fun part hpart => ?_
  obtain ⟨line, hline, rfl⟩ := List.mem_map.mp hpart
  exact h line (List.mem_of_mem_take hline)

/-- Records are consistent, and those of texts without comments are nested, whether they are read from a
text or at a line of a document. -/
theorem consistent_parse :
    (∀ text, (parse text).Consistent ∧
      (text.CommentFree → (parse text).valid → (parse text).Nested)) ∧
    ∀ doc i, (parseAt doc i).Consistent ∧
      ((∀ line ∈ doc.linesFrom i, line.content.CommentFree) → (parseAt doc i).valid →
        (parseAt doc i).Nested) := by
  refine ⟨fun text => ⟨consistent_of_text text, nested_of_text⟩, fun doc i => ?_⟩
  rw [parseAt_eq_parse]
  exact ⟨consistent_of_text _, fun hfree => nested_of_text (commentFree_joinedLines hfree _)⟩

/-- A member over three lines, below a comment, with brackets in literals and blanks before `override`. -/
def nestingDocument : Document :=
  ⟨("class A \x7b // (\n  B<C> *g(int x = h(1), char c = ')') const \t override \x7b\n" ++
    "  if (x) \x7b puts(\"\x7d\"); \x7d\r\n\x7d int y;\n\x7d;\n").toList⟩

theorem consistent_nestingDocument :
    (∀ line ∈ nestingDocument.linesFrom 1, line.content.CommentFree) ∧
      ((parseAt nestingDocument 1).valid ∧
        (parseAt nestingDocument 1).parameters = "int x = h(1), char c = ')'".toList ∧
        (parseAt nestingDocument 1).addendum = some "const override".toList) ∧
      (parseAt nestingDocument 1).Consistent ∧ (parseAt nestingDocument 1).Nested := by
  have hfree : ∀ line ∈ nestingDocument.linesFrom 1, line.content.CommentFree := by decide +kernel
  have hrecord : (parseAt nestingDocument 1).valid ∧
      (parseAt nestingDocument 1).parameters = "int x = h(1), char c = ')'".toList ∧
      (parseAt nestingDocument 1).addendum = some "const override".toList := by decide +kernel
  obtain ⟨hconsistent, hnested⟩ := consistent_parse.2 nestingDocument 1
  exact ⟨hfree, hrecord, hconsistent, hnested hfree hrecord.1⟩

end Declaration
end OutOfLine

import OutOfLine.Proofs.Reader

/-!
# Where the locators and the reader agree

The reader and the two locators find the body and the member initializers of a declaration
independently. They agree at the body of the record exactly when its head is aligned: outside
parentheses there is no brace or semicolon, every parenthesis is closed, and the first lone colon
after a closed group is the one at which the initializers of the record start.
-/

namespace OutOfLine

namespace Text

/-- A head whose body and initializer list are found by counting parentheses alone. -/
structure Aligned (head : Text) (initializers : Option Text) : Prop where
  guards : Parens.guards {} (head.codeFrom false)
  depth_eq : (Parens.after {} (head.codeFrom false)).depth = 0
  list_eq : ∀ list, initializers = some list → ∃ sig part : Text, head = sig ++ ':' :: part ∧
    ListColon sig (part ++ ['{']) ∧
    (∀ a b : Text, sig = a ++ ':' :: b → ¬ ListColon a (b ++ ':' :: part)) ∧
    (Token.concat (part.codeFrom false)).trim = list

/-- A block of a text with the head before it, both ending in code. -/
structure BlockCut (t head block tail : Text) : Prop where
  text_eq : t = head ++ '{' :: (block ++ '}' :: tail)
  head_inCode : head.endsInCode false
  block_inCode : block.endsInCode false
  closes : Brackets.after '{' '}' 1 (block.codeFrom false) = some 1

theorem bodyCut_iff {t head block tail : Text} : BodyCut t head block tail ↔
    BlockCut t head block tail ∧ Parens.guards {} (head.codeFrom false) ∧
      (Parens.after {} (head.codeFrom false)).depth = 0 := by
  constructor
  · rintro ⟨htext, hhead, hblock, hguards, hdepth, hcloses⟩
    exact ⟨⟨htext, hhead, hblock, hcloses⟩, hguards, hdepth⟩
  · rintro ⟨⟨htext, hhead, hblock, hcloses⟩, hguards, hdepth⟩
    exact ⟨htext, hhead, hblock, hguards, hdepth, hcloses⟩

/-- Of what follows a colon only the first character matters. -/
theorem ListColon.congr {before rest rest' : Text} (h : rest.head? = rest'.head?) :
    ListColon before rest ↔ ListColon before rest' := by
  constructor
  · rintro ⟨hcode, hdepth, hclosed, hbefore, hrest⟩
    exact ⟨hcode, hdepth, hclosed, hbefore, h ▸ hrest⟩
  · rintro ⟨hcode, hdepth, hclosed, hbefore, hrest⟩
    exact ⟨hcode, hdepth, hclosed, hbefore, h ▸ hrest⟩

/-- The list before a brace is cut off at the first colon that can open one. -/
theorem listCut_iff {sig part more : Text}
    (hguards : Parens.guards {} ((sig ++ ':' :: part).codeFrom false)) :
    ListCut (sig ++ ':' :: part ++ '{' :: more) sig (part ++ '{' :: more) ↔
      ListColon sig (part ++ ['{']) ∧
        ∀ a b : Text, sig = a ++ ':' :: b → ¬ ListColon a (b ++ ':' :: part) := by
  have hnext : (part ++ '{' :: more).head? = (part ++ ['{']).head? := by cases part <;> rfl
  have hbefore (b : Text) : (b ++ ':' :: (part ++ '{' :: more)).head? = (b ++ ':' :: part).head? := by
    cases b <;> rfl
  constructor
  · rintro ⟨-, hcolon, -, hfirst⟩
    exact ⟨(ListColon.congr hnext).mp hcolon,
      fun a b hab hlist => hfirst a b hab ((ListColon.congr (hbefore b)).mpr hlist)⟩
  · rintro ⟨hcolon, hfirst⟩
    refine ⟨by simp, (ListColon.congr hnext).mpr hcolon, ?_,
      fun a b hab hlist => hfirst a b hab ((ListColon.congr (hbefore b)).mp hlist)⟩
    rw [codeFrom_plain rfl hcolon.inCode, Parens.guards_append, Bool.and_eq_true] at hguards
    exact hguards.1

theorem concat_codeFrom_block {block : Text} (h : block.endsInCode false) :
    Token.concat (codeFrom false ('{' :: (block ++ ['}']))) =
      '{' :: (Token.concat (block.codeFrom false) ++ ['}']) := by
  have hnil : codeFrom false [] = [] := rfl
  rw [codeFrom_cons_plain rfl, codeFrom_plain rfl h, hnil]
  simp [Token.text]

end Text

namespace Document

/-- The located body and initializer list are those of the record: the code between the two places of
the range is the body, and the code between a colon and the range is the list. -/
def LocatorsAgree (doc : Document) (i : Nat) (range : Nat × Nat) : Prop :=
  doc.bodyRange i = some range ∧
  (∃ part, doc.text.slice? range.1 range.2 = some part ∧
    (Declaration.parseAt doc i).body = some (Token.concat (part.codeFrom false))) ∧
  ∀ list, (Declaration.parseAt doc i).initializers = some list →
    ∃ o part, doc.initializerStart i = some o ∧ o < range.1 ∧
      doc.text.slice? o (o + 1) = some [':'] ∧ doc.text.slice? (o + 1) range.1 = some part ∧
      (Token.concat (part.codeFrom false)).trim = list

variable {doc : Document} {i : Nat} {front rest : Text}

theorem slice?_block {head block tail : Text} (hcut : Text.BlockCut rest head block tail)
    (htext : doc.text = front ++ rest) :
    doc.text.slice? (front ++ head).byteLength ((front ++ head).byteLength + (block.byteLength + 2)) =
      some ('{' :: (block ++ ['}'])) := by
  rw [htext, hcut.text_eq, ← List.append_assoc]
  exact Text.slice?_block _ _ _

theorem slice?_list {sig part more : Text} (htext : doc.text = front ++ (sig ++ ':' :: part ++ more)) :
    let colon := front.byteLength + sig.byteLength
    let stop := (front ++ (sig ++ ':' :: part)).byteLength
    colon < stop ∧ doc.text.slice? colon (colon + 1) = some [':'] ∧
      doc.text.slice? (colon + 1) stop = some part := by
  have hcolon : Text.byteLength [':'] = 1 := rfl
  have hstop : (front ++ (sig ++ ':' :: part)).byteLength =
      front.byteLength + sig.byteLength + 1 + part.byteLength := by
    have hone : (':' : Char).utf8Size = 1 := rfl
    simp only [Text.byteLength_append, Text.byteLength_cons, hone]
    omega
  have hmark := Text.slice?_append (front ++ sig) [':'] (part ++ more)
  have hpart := Text.slice?_append (front ++ sig ++ [':']) part more
  have hall : doc.text = front ++ sig ++ [':'] ++ (part ++ more) := by simp [htext]
  have hall' : doc.text = front ++ sig ++ [':'] ++ part ++ more := by simp [htext]
  rw [← hall, hcolon, Text.byteLength_append] at hmark
  rw [← hall', Text.byteLength_append, hcolon, Text.byteLength_append] at hpart
  refine ⟨by omega, hmark, ?_⟩
  rw [hstop]
  exact hpart

/-- The locators agree with the record at an aligned block that is spelled like the body. -/
theorem locatorsAgree_iff_exists {number : Nat} (htext : doc.text = front ++ rest)
    (hfrom : doc.linesFrom i = rest.linesAt number front.byteLength) (range : Nat × Nat) :
    doc.LocatorsAgree i range ↔ ∃ head block tail, Text.BlockCut rest head block tail ∧
      Text.Aligned head (Declaration.parseAt doc i).initializers ∧
      (Declaration.parseAt doc i).body =
        some ('{' :: (Token.concat (block.codeFrom false) ++ ['}'])) ∧
      range.1 = (front ++ head).byteLength ∧ range.2 = range.1 + (block.byteLength + 2) := by
  obtain ⟨start, stop⟩ := range
  rw [LocatorsAgree, bodyRange_of_linesFrom hfrom, Text.findBody_locatedFrom_iff,
    initializerStart_of_linesFrom hfrom]
  constructor
  · rintro ⟨⟨head, block, tail, hbody, hstart, hstop⟩, ⟨part, hpart, hbodyText⟩, hlist⟩
    obtain ⟨hcut, hguards, hdepth⟩ := Text.bodyCut_iff.mp hbody
    -- The slices of the text between the offsets are the block and the list.
    rw [← Text.byteLength_append] at hstart
    rw [Nat.add_assoc] at hstop
    dsimp only at hstart hstop hpart hlist
    rw [hstop, hstart, slice?_block hcut htext, Option.some.injEq] at hpart
    rw [← hpart, Text.concat_codeFrom_block hcut.block_inCode] at hbodyText
    refine ⟨head, block, tail, hcut, ⟨hguards, hdepth, ?_⟩, hbodyText, hstart, hstop⟩
    intro list hinit
    obtain ⟨o, part, ho, hlt, -, hpart, htrim⟩ := hlist list hinit
    obtain ⟨sig, tail', hcutList, rfl⟩ := Text.findInitializers_locatedFrom_iff.mp ho
    obtain ⟨l, rfl⟩ := hcutList.exists_before_body hbody
    have hrest := hcut.text_eq
    obtain rfl : tail' = l ++ '{' :: (block ++ '}' :: tail) := by
      simpa [hcutList.text_eq] using hrest
    rw [hrest, Text.listCut_iff hguards] at hcutList
    rw [hrest] at htext
    rw [hstart, (slice?_list htext).2.2, Option.some.injEq] at hpart
    exact ⟨sig, l, rfl, hcutList.1, hcutList.2, by rw [hpart, htrim]⟩
  · rintro ⟨head, block, tail, hcut, haligned, hbodyText, hstart, hstop⟩
    dsimp only at hstart hstop
    subst hstart hstop
    have hbody := Text.bodyCut_iff.mpr ⟨hcut, haligned.guards, haligned.depth_eq⟩
    refine ⟨⟨head, block, tail, hbody, Text.byteLength_append _ _, (Nat.add_assoc _ _ _).symm⟩,
      ⟨_, slice?_block hcut htext, ?_⟩, ?_⟩
    · rw [hbodyText, Text.concat_codeFrom_block hcut.block_inCode]
    · intro list hinit
      obtain ⟨sig, part, rfl, hcolon, hfirst, htrim⟩ := haligned.list_eq list hinit
      have hrest := hcut.text_eq
      have hlist : Text.ListCut (sig ++ ':' :: part ++ '{' :: (block ++ '}' :: tail)) sig
          (part ++ '{' :: (block ++ '}' :: tail)) :=
        (Text.listCut_iff haligned.guards).mpr ⟨hcolon, hfirst⟩
      rw [← hrest] at hlist
      rw [hrest] at htext
      obtain ⟨hlt, hmark, hpart⟩ := slice?_list htext
      exact ⟨_, part, Text.findInitializers_locatedFrom_iff.mpr ⟨sig, _, hlist, rfl⟩, hlt, hmark,
        hpart, htrim⟩

/-- A document divided around the declaration at a line the way the reader divides it. -/
structure ReaderCut (doc : Document) (i : Nat) (front head block tail : Text) : Prop where
  text_eq : doc.text = front ++ (head ++ '{' :: (block ++ '}' :: tail))
  lineStart_eq : doc.lineStart i = front.byteLength
  linesFrom_eq : doc.linesFrom i =
    Text.linesAt (i + 1) front.byteLength (head ++ '{' :: (block ++ '}' :: tail))
  blockCut : Text.BlockCut (head ++ '{' :: (block ++ '}' :: tail)) head block tail
  source_eq : (Declaration.parseAt doc i).sourceText = Token.concat (head.codeFrom false)
  body_eq : (Declaration.parseAt doc i).body =
    some ('{' :: (Token.concat (block.codeFrom false) ++ ['}']))

theorem lt_lineCount_of_valid (h : (Declaration.parseAt doc i).valid) : i < doc.lineCount := by
  by_contra hline
  rw [Declaration.parseAt, linesFrom_of_le _ (Nat.le_of_not_lt hline)] at h
  simp [codeOfLines, Declaration.ofTokens, Draft.finish] at h

/-- The reader's division of a document, at a valid declaration with a body. -/
theorem exists_readerCut (hvalid : (Declaration.parseAt doc i).valid)
    (hbody : (Declaration.parseAt doc i).hasBody) :
    ∃ front head block tail, ReaderCut doc i front head block tail := by
  obtain ⟨front, rest, htext, hstart, hlines⟩ := doc.exists_cut (lt_lineCount_of_valid hvalid)
  have hfrom : doc.linesFrom i = rest.linesAt (i + 1) front.byteLength := by
    have := (hlines rest).2
    rwa [← htext] at this
  have hparse : Declaration.parseAt doc i = .ofTokens (rest.codeFrom false) := by
    rw [Declaration.parseAt, hfrom, codeOfLines_linesAt]
  rw [hparse] at hvalid
  obtain ⟨source, ending, signature, text, body, htokens, htop, hsig, hends, -, hrecord⟩ :=
    Draft.exists_ends_of_valid hvalid
  rw [← hparse] at hrecord
  cases hends with
  | body inner after hcloses =>
    obtain ⟨head, more, rfl, hhead, hheadCode, hmore⟩ := Text.exists_cut_of_codeFrom rfl htokens
    obtain ⟨block, tail, rfl, hblock, hblockCode, -⟩ := Text.exists_cut_of_codeFrom rfl hmore
    subst hheadCode hblockCode
    exact ⟨front, head, block, tail, htext, hstart, hfrom, ⟨rfl, hhead, hblock, hcloses⟩,
      by rw [hrecord]; rfl, by rw [hrecord]; rfl⟩
  | _ => simp [hrecord, Draft.recordOf, Declaration.hasBody] at hbody

/-- The locators find the body of a valid record and its initializers exactly when the head of the
declaration is aligned. Elsewhere they give the texts of the record only at another aligned block
that is spelled like its body. -/
theorem locatorsAgree_iff_aligned (doc : Document) (i : Nat)
    (hvalid : (Declaration.parseAt doc i).valid) (hbody : (Declaration.parseAt doc i).hasBody) :
    ∃ front head block tail, doc.ReaderCut i front head block tail ∧
      ((∃ range, doc.LocatorsAgree i range ∧ range.1 = (front ++ head).byteLength) ↔
        head.Aligned (Declaration.parseAt doc i).initializers) ∧
      ((∃ range, doc.LocatorsAgree i range) ↔
        head.Aligned (Declaration.parseAt doc i).initializers ∨
          ∃ head' block' tail', head' ≠ head ∧
            Text.BlockCut (head ++ '{' :: (block ++ '}' :: tail)) head' block' tail' ∧
            head'.Aligned (Declaration.parseAt doc i).initializers ∧
            Token.concat (block'.codeFrom false) = Token.concat (block.codeFrom false)) := by
  obtain ⟨front, head, block, tail, hcut⟩ := exists_readerCut hvalid hbody
  have hiff := locatorsAgree_iff_exists hcut.text_eq hcut.linesFrom_eq
  have hspelled {inner : Text} (h : (Declaration.parseAt doc i).body =
      some ('{' :: (Token.concat (inner.codeFrom false) ++ ['}']))) :
      Token.concat (inner.codeFrom false) = Token.concat (block.codeFrom false) := by
    simpa [hcut.body_eq, eq_comm] using h
  have hat (haligned : head.Aligned (Declaration.parseAt doc i).initializers) :
      ∃ range, doc.LocatorsAgree i range ∧ range.1 = (front ++ head).byteLength := by
    refine ⟨((front ++ head).byteLength, (front ++ head).byteLength + (block.byteLength + 2)), ?_, rfl⟩
    exact (hiff _).mpr ⟨head, block, tail, hcut.blockCut, haligned, hcut.body_eq, rfl, rfl⟩
  refine ⟨front, head, block, tail, hcut, ⟨?_, hat⟩, ?_, ?_⟩
  · rintro ⟨range, hagree, hstart⟩
    obtain ⟨head', block', tail', hcut', haligned, -, hstart', -⟩ := (hiff range).mp hagree
    have hlen : Text.byteLength head' = Text.byteLength head := by
      rw [hstart, Text.byteLength_append, Text.byteLength_append] at hstart'
      omega
    obtain ⟨rfl, -⟩ := Text.append_inj_of_byteLength hcut'.text_eq.symm hlen
    exact haligned
  · rintro ⟨range, hagree⟩
    obtain ⟨head', block', tail', hcut', haligned, hbody', -, -⟩ := (hiff range).mp hagree
    by_cases hhead : head' = head
    · subst hhead
      exact .inl haligned
    · exact .inr ⟨head', block', tail', hhead, hcut', haligned, hspelled hbody'⟩
  · rintro (haligned | ⟨head', block', tail', -, hcut', haligned, hspell⟩)
    · obtain ⟨range, hagree, -⟩ := hat haligned
      exact ⟨range, hagree⟩
    · refine ⟨((front ++ head').byteLength, (front ++ head').byteLength + (block'.byteLength + 2)), ?_⟩
      refine (hiff _).mpr ⟨head', block', tail', hcut', haligned, ?_, rfl, rfl⟩
      rw [hcut.body_eq, hspell]

/-- A constructor with a list and a comment before its body. -/
def listDocument : Document :=
  ⟨"struct A \x7b\r\n  A(int x) : a(x), b(x) /* : \x7b */ \x7b f(); \x7d\r\n\x7d;\r\n".toList⟩

theorem locatorsAgree_listDocument :
    (Declaration.parseAt listDocument 1).valid ∧ (Declaration.parseAt listDocument 1).hasBody ∧
      listDocument.LocatorsAgree 1 (46, 54) ∧
      ∃ front head block tail, listDocument.ReaderCut 1 front head block tail ∧
        (front ++ head).byteLength = 46 ∧ head.Aligned (some "a(x), b(x)".toList) := by
  obtain ⟨hvalid, hbody, hlist, hblock⟩ : (Declaration.parseAt listDocument 1).valid ∧
      (Declaration.parseAt listDocument 1).hasBody ∧
      (Declaration.parseAt listDocument 1).initializers = some "a(x), b(x)".toList ∧
      (Declaration.parseAt listDocument 1).body = some "\x7b f(); \x7d".toList := by decide +kernel
  have hagree : listDocument.LocatorsAgree 1 (46, 54) := by
    refine ⟨by decide +kernel, ⟨"\x7b f(); \x7d".toList, by decide +kernel, hblock⟩, ?_⟩
    rw [hlist]
    rintro _ ⟨⟩
    exact ⟨23, " a(x), b(x) /* : \x7b */ ".toList, by decide +kernel, by decide, by decide +kernel, by decide +kernel,
      by decide +kernel⟩
  obtain ⟨front, head, block, tail, hcut, hat, -⟩ := locatorsAgree_iff_aligned listDocument 1 hvalid hbody
  have hstart : (front ++ head).byteLength = 46 := by
    obtain ⟨rfl, hrest⟩ := Text.append_inj_of_byteLength
      (hcut.text_eq.symm.trans (List.take_append_drop 12 listDocument.text).symm)
      (hcut.lineStart_eq.symm.trans (by decide +kernel))
    -- The head ends at one of two braces, and the first of them stands in the comment.
    have hbraces : (List.range (listDocument.text.drop 12).length).all fun n =>
        (listDocument.text.drop 12)[n]? ≠ some '{' ||
          !Text.endsInCode false ((listDocument.text.drop 12).take n) || n = 34 := by decide +kernel
    have hlt : head.length < (listDocument.text.drop 12).length := by simp [← hrest]
    have hlength : head.length = 34 := by
      have hend := List.all_eq_true.mp hbraces head.length (List.mem_range.mpr hlt)
      rw [← hrest] at hend
      simpa [hcut.blockCut.head_inCode] using hend
    have hhead : head = (listDocument.text.drop 12).take 34 := by simp [← hrest, ← hlength]
    rw [hhead]
    decide +kernel
  rw [hlist] at hat
  exact ⟨hvalid, hbody, hagree, front, head, block, tail, hcut, hstart, hat.mp ⟨_, hagree, hstart.symm⟩⟩

/-- A return type with braces in its template arguments. -/
def bracedDocument : Document := ⟨"A<T\x7b\x7d> f() \x7b return x; \x7d".toList⟩

theorem not_locatorsAgree_bracedDocument :
    (Declaration.parseAt bracedDocument 0).valid ∧ (Declaration.parseAt bracedDocument 0).hasBody ∧
      ¬ ∃ range, bracedDocument.LocatorsAgree 0 range := by
  refine ⟨by decide +kernel, by decide +kernel, ?_⟩
  rintro ⟨range, hrange, ⟨part, hpart, hbody⟩, -⟩
  have hlocated : bracedDocument.bodyRange 0 = some (3, 5) := by decide +kernel
  have hslice : bracedDocument.text.slice? 3 5 = some ['{', '}'] := by decide +kernel
  have hbody' : (Declaration.parseAt bracedDocument 0).body ≠ some ['{', '}'] := by decide +kernel
  rw [hlocated, Option.some.injEq] at hrange
  rw [← hrange, hslice, Option.some.injEq] at hpart
  rw [← hpart] at hbody
  exact hbody' hbody

end Document
end OutOfLine

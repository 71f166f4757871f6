import OutOfLine.Proofs.Lexing

/-!
# Code tokens of a text

The code tokens of the lines of a document are those of one text, in which a line ending is a newline.
At a plain delimiter in code the text, its code tokens and its located tokens divide together, so that
the offset of a located token is the length of the text before it.
-/

namespace OutOfLine

/-- Whether a token sequence that starts inside a block comment or not ends inside one. -/
def insideAfter (inside : Bool) : List Token → Bool
  | [] => inside
  | .commentOpen :: ts => insideAfter true ts
  | .commentClose :: ts => insideAfter false ts
  | _ :: ts => insideAfter inside ts

theorem insideAfter_append (inside : Bool) (ts us : List Token) :
    insideAfter inside (ts ++ us) = insideAfter (insideAfter inside ts) us := by
  induction ts generalizing inside with
  | nil => rfl
  | cons t ts ih => cases t <;> exact ih _

theorem dropComments_append (inside : Bool) (ts us : List Token) :
    dropComments inside (ts ++ us) =
      dropComments inside ts ++ dropComments (insideAfter inside ts) us := by
  induction ts generalizing inside with
  | nil => rfl
  | cons t ts ih =>
    cases inside with
    | true => cases t <;> exact ih _
    | false => cases t <;> first | exact ih _ | exact congrArg (List.cons _) (ih _)

/-- Inside a block comment that is not closed there is no code. -/
theorem dropComments_of_not_mem {ts : List Token} (h : .commentClose ∉ ts) : dropComments true ts = [] := by
  induction ts with
  | nil => rfl
  | cons t ts ih =>
    rw [List.mem_cons, not_or] at h
    have hinside : dropComments true (t :: ts) = dropComments (t != .commentClose) ts := by
      cases t <;> rfl
    rw [hinside, bne_iff_ne.mpr (Ne.symm h.1), ih h.2]

theorem mem_of_mem_dropComments {inside : Bool} {t : Token} {ts : List Token}
    (h : t ∈ dropComments inside ts) : t ∈ ts := by
  induction ts generalizing inside with
  | nil => exact h
  | cons u ts ih =>
    cases inside with
    | true => exact List.mem_cons_of_mem _ (ih h)
    | false =>
      cases u with
      | commentOpen => exact List.mem_cons_of_mem _ (ih h)
      | lineComment text => exact List.mem_cons_of_mem _ (ih h)
      | _ =>
        rcases List.mem_cons.mp h with rfl | h
        · exact List.mem_cons_self
        · exact List.mem_cons_of_mem _ (ih h)

namespace Lexer

@[simp] theorem insideAfter_flush (b : Bool) (word : Text) : insideAfter b (flush word) = b := by
  unfold flush
  split
  · rfl
  · cases b <;> rfl

private theorem insideAfter_ofDelimiter (b : Bool) (c : Char) :
    insideAfter b [.ofDelimiter c] = b := by
  unfold Token.ofDelimiter
  split <;> cases b <;> rfl

private theorem insideAfter_readCode (word : Text) (c : Char) :
    insideAfter false (readCode word c).1 = (readCode word c).2.inComment := by
  have hread := reads_readCode word c
  generalize readCode word c = result at hread ⊢
  cases hread with
  | delimiter hc => simp [insideAfter_append, insideAfter_ofDelimiter, Mode.inComment]
  | _ => simp [insideAfter, Mode.inComment]

private theorem insideAfter_readComment (word : Text) (c : Char) :
    insideAfter true (readComment word c).1 = (readComment word c).2.inComment := by
  have hread := reads_readComment word c
  generalize readComment word c = result at hread ⊢
  cases hread with
  | delimiter hc => simp [insideAfter_append, insideAfter_ofDelimiter, Mode.inComment]
  | _ => simp [insideAfter, Mode.inComment]

/-- The comment markers that a step yields lead from its comment state to the next one. -/
theorem insideAfter_step (mode : Mode) (c : Char) :
    insideAfter mode.inComment (step mode c).1 = (step mode c).2.inComment := by
  have hmove := move_step mode c
  generalize step mode c = result at hmove ⊢
  cases hmove with
  | code word => exact insideAfter_readCode word c
  | slash word => exact insideAfter_readCode ('/' :: word) c
  | star => exact insideAfter_readCode [] c
  | strayClose => exact insideAfter_readCode [] c
  | comment word => exact insideAfter_readComment word c
  | commentStar => exact insideAfter_readComment [] c
  | openLine word hc => simp [Mode.inComment]
  | openBlock word hc => simp [Mode.inComment, insideAfter_append, insideAfter]
  | _ => rfl

theorem insideAfter_finish (mode : Mode) : insideAfter mode.inComment mode.finish = mode.inComment := by
  cases mode <;> simp [Mode.finish, Mode.inComment, insideAfter]

/-- The lexer is inside a block comment exactly when its tokens are. -/
theorem insideAfter_run (mode : Mode) (t : Text) :
    insideAfter mode.inComment (run mode t).1 = (run mode t).2 := by
  induction t generalizing mode with
  | nil => exact insideAfter_finish mode
  | cons c cs ih => rw [run, insideAfter_append, insideAfter_step, ih]

end Lexer

theorem insideAfter_tokenize (inComment : Bool) (t : Text) :
    insideAfter inComment (tokenize inComment t).1 = (tokenize inComment t).2 := by
  have hrun := Lexer.insideAfter_run (.start inComment) t
  rwa [Lexer.inComment_start] at hrun

namespace Text

/-- The text with every line ending written as a newline. -/
def lineFeeds : Text → Text
  | '\r' :: '\n' :: cs => '\n' :: lineFeeds cs
  | c :: cs => c :: lineFeeds cs
  | [] => []

theorem lineFeeds_cons {c : Char} {cs : Text} (h : c ≠ '\r' ∨ cs.head? ≠ some '\n') :
    lineFeeds (c :: cs) = c :: lineFeeds cs := by
  rw [lineFeeds]
  rintro cs' rfl rfl
  simp at h

/-- Line endings are not divided by a cut that does not fall between a return and a newline. -/
theorem lineFeeds_append {a b : Text} (h : a.getLast? ≠ some '\r' ∨ b.head? ≠ some '\n') :
    lineFeeds (a ++ b) = lineFeeds a ++ lineFeeds b := by
  fun_induction lineFeeds a with
  | case1 cs ih =>
    have h' : cs.getLast? ≠ some '\r' ∨ b.head? ≠ some '\n' := by
      refine h.imp_left (fun hl hcs => hl ?_)
      simp [List.getLast?_cons, hcs]
    simp [lineFeeds, ih h']
  | case2 c cs hcs ih =>
    have h' : cs.getLast? ≠ some '\r' ∨ b.head? ≠ some '\n' := by
      refine h.imp_left (fun hl hcs => hl ?_)
      simp [List.getLast?_cons, hcs]
    rw [List.cons_append, lineFeeds_cons, ih h', List.cons_append]
    cases cs with
    | nil => simpa [or_comm] using h
    | cons d ds =>
      by_cases hc : c = '\r'
      · right
        intro hd
        exact hcs ds hc (by simpa using hd)
      · exact .inl hc
  | case3 => rfl

theorem lineFeeds_of_not_mem {t : Text} (h : '\n' ∉ t) : lineFeeds t = t := by
  fun_induction lineFeeds t with
  | case1 cs ih => simp at h
  | case2 c cs hcs ih => rw [ih (fun hm => h (List.mem_cons_of_mem _ hm))]
  | case3 => rfl

theorem lineFeeds_line {content : Text} {ending : LineEnd} (h : Line.Ended content ending)
    (rest : Text) : lineFeeds (content ++ ending.text ++ rest) = content ++ '\n' :: lineFeeds rest := by
  have hend : lineFeeds (ending.text ++ rest) = '\n' :: lineFeeds rest := by
    cases ending with
    | none => exact absurd rfl h.ending_ne
    | lf => exact lineFeeds_cons (.inl (by decide))
    | crlf => rfl
  rw [List.append_assoc, lineFeeds_append, lineFeeds_of_not_mem h.no_newline, hend]
  cases ending with
  | none => exact absurd rfl h.ending_ne
  | lf => exact .inl (h.no_return rfl)
  | crlf => exact .inr (by simp [LineEnd.text])

/-- The code tokens of a text that starts inside a block comment or not, spaces included. -/
def codeFrom (inComment : Bool) (t : Text) : List Token :=
  dropComments inComment (tokenize inComment t.lineFeeds).1

/-- Whether a text ends in code, outside comments and open literals. -/
def endsInCode (inComment : Bool) (t : Text) : Bool :=
  (Lexer.read (.start inComment) t.lineFeeds).2.inCode

theorem mem_of_mem_lineFeeds {c : Char} {t : Text} (h : c ∈ lineFeeds t) : c ∈ t := by
  fun_induction lineFeeds t with
  | case1 cs ih =>
    rcases List.mem_cons.mp h with rfl | h
    · simp
    · exact List.mem_cons_of_mem _ (List.mem_cons_of_mem _ (ih h))
  | case2 d cs _ ih =>
    rcases List.mem_cons.mp h with rfl | h
    · simp
    · exact List.mem_cons_of_mem _ (ih h)
  | case3 => exact h

/-- The characters of a code token are characters of the text. -/
theorem mem_of_mem_codeFrom {inComment : Bool} {t : Text} {token : Token} {c : Char}
    (h : token ∈ t.codeFrom inComment) (hc : c ∈ token.text) : c ∈ t := by
  have hconcat := concat_tokenize inComment t.lineFeeds
  refine mem_of_mem_lineFeeds (hconcat ▸ ?_)
  exact List.mem_flatMap.mpr ⟨token, mem_of_mem_dropComments h, hc⟩

end Text

theorem line_mem_of_mem_codeOfLines {inComment : Bool} {lines : List Line} {placed : Placed}
    (h : placed ∈ codeOfLines inComment lines) : placed.line ∈ lines := by
  induction lines generalizing inComment with
  | nil => simp [codeOfLines] at h
  | cons line lines ih =>
    rcases List.mem_append.mp h with h | h
    · obtain ⟨_, -, rfl⟩ := List.mem_map.mp h
      exact List.mem_cons_self
    · exact List.mem_cons_of_mem _ (ih h)

/-- Whether some lines, the first of which begins inside a block comment or not, end inside one. -/
def commentAfter (inComment : Bool) : List Line → Bool
  | [] => inComment
  | line :: rest => commentAfter (tokenize inComment line.content).2 rest

theorem commentAfter_append (inComment : Bool) (lines more : List Line) :
    commentAfter inComment (lines ++ more) = commentAfter (commentAfter inComment lines) more := by
  induction lines generalizing inComment with
  | nil => rfl
  | cons line lines ih => exact ih _

theorem codeOfLines_append (inComment : Bool) (lines more : List Line) :
    codeOfLines inComment (lines ++ more) =
      codeOfLines inComment lines ++ codeOfLines (commentAfter inComment lines) more := by
  induction lines generalizing inComment with
  | nil => rfl
  | cons line lines ih =>
    rw [List.cons_append, codeOfLines, codeOfLines, ih, List.append_assoc]
    rfl

theorem exists_codeOfLines_append (inComment : Bool) (lines more : List Line) :
    ∃ inside, codeOfLines inComment (lines ++ more) =
      codeOfLines inComment lines ++ codeOfLines inside more :=
  ⟨_, codeOfLines_append inComment lines more⟩

/-- The lines of a text have its code tokens. -/
theorem codeOfLines_linesAt (inComment : Bool) (number start : Nat) (t : Text) :
    (codeOfLines inComment (t.linesAt number start)).map Placed.token = t.codeFrom inComment := by
  induction t using Text.line_induction generalizing inComment number start with
  | last content hnl =>
    simp only [Text.linesAt_last _ _ hnl, Text.codeFrom, Text.lineFeeds_of_not_mem hnl, codeOfLines,
      Line.tokens, if_true, List.append_nil, List.map_map]
    exact List.map_id _
  | line content ending rest hended ih =>
    have hinside := Lexer.insideAfter_run (.start inComment) content
    rw [Lexer.inComment_start] at hinside
    have hdrop (us : List Token) :
        dropComments inComment ((Lexer.run (.start inComment) content).1 ++ .newline :: us) =
          dropComments inComment ((Lexer.run (.start inComment) content).1 ++ [.newline]) ++
            dropComments (Lexer.run (.start inComment) content).2 us := by
      rw [List.append_cons, dropComments_append, insideAfter_append, hinside]
      rfl
    rw [Text.linesAt_line _ _ hended, Text.codeFrom, Text.lineFeeds_line hended]
    simp only [codeOfLines, Line.tokens, hended.ending_ne, if_false, List.map_append, List.map_map, ih,
      tokenize, Lexer.run_newline, Text.codeFrom]
    refine Eq.trans ?_ (hdrop _).symm
    exact congrArg (List.append · _) (List.map_id _)

namespace Lexer

theorem isPlain_ne {c : Char} (hc : isPlain c) : c ≠ '\n' ∧ c ≠ '\r' ∧ c ≠ '*' ∧ c.utf8Size = 1 := by
  have h : c ∈ delimiters.filter isPlain := by
    simp only [isPlain, Bool.and_eq_true, isDelimiter, List.contains_iff_mem] at hc
    simpa [isPlain, isDelimiter, hc.1.1.1] using hc
  have hall : (delimiters.filter isPlain).all fun d =>
      d ≠ '\n' ∧ d ≠ '\r' ∧ d ≠ '*' ∧ d.utf8Size = 1 := by decide
  exact of_decide_eq_true (List.all_eq_true.mp hall c h)

end Lexer

namespace Text

theorem lineFeeds_plain {c : Char} (hc : Lexer.isPlain c) (a b : Text) :
    lineFeeds (a ++ c :: b) = lineFeeds a ++ c :: lineFeeds b := by
  obtain ⟨hn, hr, -⟩ := Lexer.isPlain_ne hc
  rw [lineFeeds_append (.inr (by simpa using hn)), lineFeeds_cons (.inl hr)]

private theorem exists_of_lineFeeds_eq {t a z : Text} {c : Char} (hc : c ≠ '\n')
    (h : lineFeeds t = a ++ c :: z) :
    ∃ A B, t = A ++ c :: B ∧ lineFeeds A = a ∧ lineFeeds B = z := by
  fun_induction lineFeeds t generalizing a with
  | case1 cs ih =>
    cases a with
    | nil => exact absurd (List.cons.inj h).1.symm hc
    | cons d a =>
      rw [List.cons_append, List.cons.injEq] at h
      obtain ⟨rfl, h⟩ := h
      obtain ⟨A, B, rfl, rfl, rfl⟩ := ih h
      exact ⟨'\r' :: '\n' :: A, B, rfl, rfl, rfl⟩
  | case2 d cs hcs ih =>
    cases a with
    | nil =>
      obtain ⟨rfl, rfl⟩ := List.cons.inj h
      exact ⟨[], cs, rfl, rfl, rfl⟩
    | cons e a =>
      rw [List.cons_append, List.cons.injEq] at h
      obtain ⟨rfl, h⟩ := h
      obtain ⟨A, B, rfl, rfl, rfl⟩ := ih h
      refine ⟨d :: A, B, rfl, lineFeeds_cons ?_, rfl⟩
      by_cases hd : d = '\r'
      · right
        intro hA
        obtain ⟨A, rfl⟩ := List.head?_eq_some_iff.mp hA
        exact hcs _ hd rfl
      · exact .inl hd
  | case3 => simp at h

private theorem inCode_iff {inComment : Bool} {t : Text} :
    t.endsInCode inComment ↔ (Lexer.read (.start inComment) t.lineFeeds).2.verbatim = false ∧
      (Lexer.run (.start inComment) t.lineFeeds).2 = false := by
  simp [endsInCode, Lexer.Mode.inCode, Lexer.run_eq_read]

theorem endsInCode_plain {c : Char} (hc : Lexer.isPlain c) {inComment : Bool} {a : Text}
    (ha : a.endsInCode inComment) (b : Text) :
    (a ++ c :: b).endsInCode inComment = b.endsInCode false := by
  obtain ⟨hverb, hin⟩ := inCode_iff.mp ha
  simp only [Lexer.run_eq_read] at hin
  rw [endsInCode, endsInCode, lineFeeds_plain hc, Lexer.read_append, Lexer.read,
    Lexer.step_plain hverb hc, hin]
  rfl

/-- A plain delimiter at the end of a text that ends in code is itself in code. -/
theorem endsInCode_of_plain {c : Char} (hc : Lexer.isPlain c) {inComment : Bool} {a : Text}
    (h : (a ++ [c]).endsInCode inComment) : a.endsInCode inComment := by
  have hstart : (Lexer.Mode.start inComment).quoted := by cases inComment <;> rfl
  rw [endsInCode, lineFeeds_plain hc, Lexer.read_append] at h
  exact Lexer.inCode_of_step_plain (Lexer.quoted_read hstart _) hc h

/-- The code tokens around a plain delimiter in code are those of the two texts. -/
theorem codeFrom_plain {c : Char} (hc : Lexer.isPlain c) {inComment : Bool} {a : Text}
    (ha : a.endsInCode inComment) (b : Text) :
    (a ++ c :: b).codeFrom inComment = a.codeFrom inComment ++ .delimiter c :: b.codeFrom false := by
  obtain ⟨hverb, hin⟩ := inCode_iff.mp ha
  have hinside := Lexer.insideAfter_run (.start inComment) a.lineFeeds
  rw [Lexer.inComment_start, hin] at hinside
  rw [codeFrom, tokenize, lineFeeds_plain hc, Lexer.run_plain hverb hc, hin, dropComments_append,
    hinside]
  rfl

theorem codeFrom_cons_plain {c : Char} (hc : Lexer.isPlain c) (b : Text) :
    codeFrom false (c :: b) = .delimiter c :: b.codeFrom false :=
  codeFrom_plain (a := []) hc rfl b

/-- Where a delimiter is left by taking out the comments, it stands outside of them. -/
theorem exists_of_dropComments_eq {inside : Bool} {ts before rest : List Token} {c : Char}
    (h : dropComments inside ts = before ++ .delimiter c :: rest) :
    ∃ us vs, ts = us ++ .delimiter c :: vs ∧ dropComments inside us = before ∧
      insideAfter inside us = false ∧ dropComments false vs = rest := by
  induction ts generalizing inside before with
  | nil => simp [dropComments] at h
  | cons t ts ih =>
    -- The first token is dropped, or kept and not the delimiter, or the delimiter itself.
    have hdropped (b : Bool) (hb : dropComments b ts = before ++ .delimiter c :: rest)
        (hd : ∀ us, dropComments inside (t :: us) = dropComments b us)
        (hi : ∀ us, insideAfter inside (t :: us) = insideAfter b us) :
        ∃ us vs, t :: ts = us ++ .delimiter c :: vs ∧ dropComments inside us = before ∧
          insideAfter inside us = false ∧ dropComments false vs = rest := by
      obtain ⟨us, vs, rfl, hus, hin, hvs⟩ := ih hb
      exact ⟨t :: us, vs, rfl, by rw [hd, hus], by rw [hi, hin], hvs⟩
    have hkept (hd : ∀ us, dropComments inside (t :: us) = t :: dropComments false us)
        (hi : ∀ us, insideAfter inside (t :: us) = insideAfter false us) (hin : inside = false) :
        ∃ us vs, t :: ts = us ++ .delimiter c :: vs ∧ dropComments inside us = before ∧
          insideAfter inside us = false ∧ dropComments false vs = rest := by
      rw [hd] at h
      cases before with
      | nil =>
        obtain ⟨rfl, rfl⟩ := List.cons.inj h
        exact ⟨[], ts, rfl, rfl, hin, rfl⟩
      | cons s before =>
        rw [List.cons_append, List.cons.injEq] at h
        obtain ⟨rfl, h⟩ := h
        obtain ⟨us, vs, rfl, hus, hin', hvs⟩ := ih h
        exact ⟨t :: us, vs, rfl, by rw [hd, hus], by rw [hi, hin'], hvs⟩
    cases inside with
    | true =>
      cases t with
      | commentClose => exact hdropped false h (fun _ => rfl) (fun _ => rfl)
      | _ => exact hdropped true h (fun _ => rfl) (fun _ => rfl)
    | false =>
      cases t with
      | commentOpen => exact hdropped true h (fun _ => rfl) (fun _ => rfl)
      | lineComment text => exact hdropped false h (fun _ => rfl) (fun _ => rfl)
      | _ => exact hkept (fun _ => rfl) (fun _ => rfl) rfl

/-- Where a plain delimiter is among the code tokens of a text, the text divides there. -/
theorem exists_cut_of_codeFrom {inComment : Bool} {t : Text} {before rest : List Token} {c : Char}
    (hc : Lexer.isPlain c) (h : t.codeFrom inComment = before ++ .delimiter c :: rest) :
    ∃ a b : Text, t = a ++ c :: b ∧ a.endsInCode inComment ∧ a.codeFrom inComment = before ∧
      b.codeFrom false = rest := by
  obtain ⟨us, vs, htokens, hus, hin, hvs⟩ := exists_of_dropComments_eq h
  have hrun : Lexer.run (.start inComment) t.lineFeeds = (us ++ .delimiter c :: vs, _) :=
    Prod.ext htokens rfl
  obtain ⟨x, z, hx, hverb, hbefore, hz⟩ := Lexer.exists_cut_of_run hc hrun
  obtain ⟨a, b, rfl, rfl, rfl⟩ := exists_of_lineFeeds_eq (Lexer.isPlain_ne hc).1 hx
  have hcode := Lexer.insideAfter_run (.start inComment) a.lineFeeds
  rw [hbefore, Lexer.inComment_start, hin] at hcode
  refine ⟨a, b, rfl, inCode_iff.mpr ⟨hverb, hcode.symm⟩, ?_, ?_⟩
  · rw [codeFrom, tokenize, hbefore, hus]
  · rw [← hcode] at hz
    rw [codeFrom, tokenize, hz, hvs]

end Text

end OutOfLine

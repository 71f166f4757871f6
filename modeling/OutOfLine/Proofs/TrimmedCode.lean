import OutOfLine.Proofs.CodeTokens
import OutOfLine.Proofs.ByteOffsets

/-!
# Code tokens of a trimmed text

Blanks at the end of a text in code lengthen its last word or add tokens of blanks. Without them the text
may end in a line comment, which takes in what is put behind it, or in an open literal, which does so as
well; otherwise a plain delimiter put there is a token of its own.
-/

namespace OutOfLine

/-- A token of blanks. -/
def Token.isBlank : Token → Bool
  | .word text => text.isBlank
  | .space c => isBlankChar c
  | _ => false

theorem Token.isBlank_text {t : Token} (h : t.isBlank) : ∀ c ∈ t.text, isBlankChar c := by
  cases t with
  | word text => simpa [Token.isBlank, Text.isBlank, Token.text] using h
  | space c => simpa [Token.isBlank, Token.text] using h
  | _ => simp [Token.isBlank] at h

/-- A token as lexing makes it: a word has characters, a space is a blank, and any other token is more
than blanks. -/
def Token.isLexed : Token → Bool
  | .word text => !text.isEmpty
  | .space c => isBlankChar c
  | t => !t.text.isBlank

theorem Token.text_ne_nil {t : Token} (h : t.isLexed) : t.text ≠ [] := by
  intro hnil
  cases t with
  | word text => simp [isLexed, Token.text] at h hnil; exact h hnil
  | space c => simp [Token.text] at hnil
  | _ => simp [isLexed, hnil, Text.isBlank] at h

theorem Token.getLast?_concat {ts : List Token} {t : Token} (h : t.isLexed) :
    (concat (ts ++ [t])).getLast? = t.text.getLast? := by
  obtain ⟨c, hc⟩ := Option.isSome_iff_exists.mp (List.getLast?_isSome.mpr (text_ne_nil h))
  rw [concat_append, concat_cons, concat_nil, List.append_nil, List.getLast?_append, hc, Option.some_or]

theorem Token.isBlank_of_text {t : Token} (hlexed : t.isLexed) (h : ∀ c ∈ t.text, isBlankChar c) :
    t.isBlank := by
  have hall : t.text.isBlank := List.all_eq_true.mpr h
  cases t with
  | word text => exact hall
  | space c => exact hlexed
  | _ => simp [isLexed, hall] at hlexed

theorem dropComments_of_blank {ts : List Token} (h : ∀ t ∈ ts, t.isBlank) : dropComments false ts = ts := by
  induction ts with
  | nil => rfl
  | cons t ts ih =>
    have hrest := ih fun u hu => h u (List.mem_cons_of_mem _ hu)
    have ht := h t List.mem_cons_self
    cases t with
    | word text => exact congrArg (List.cons _) hrest
    | space c => exact congrArg (List.cons _) hrest
    | _ => simp [Token.isBlank] at ht

namespace Lexer

theorem Mode.inComment_eq_false {mode : Mode} (h : mode.inCode) : mode.inComment = false := by
  simp only [inCode, Bool.and_eq_true, Bool.not_eq_true'] at h
  exact h.2

theorem insideAfter_read (mode : Mode) (t : Text) :
    insideAfter mode.inComment (read mode t).1 = (read mode t).2.inComment := by
  induction t generalizing mode with
  | nil => rfl
  | cons c cs ih => rw [read, after, insideAfter_append, insideAfter_step, ih]

theorem ne_of_blank {c : Char} (h : isBlankChar c) :
    c ≠ '/' ∧ c ≠ '*' ∧ c ≠ '\\' ∧ isQuote c = false := by
  refine ⟨?_, ?_, ?_, ?_⟩
  · rintro rfl
    revert h
    decide
  · rintro rfl
    revert h
    decide
  · rintro rfl
    revert h
    decide
  · rw [Bool.eq_false_iff]
    intro hq
    simp only [isQuote, Bool.or_eq_true, beq_iff_eq] at hq
    rcases hq with rfl | rfl
    · revert h
      decide
    · revert h
      decide

theorem isSpace_of_blank {c : Char} (h : isBlankChar c) (hd : isDelimiter c) : isSpace c := by
  have hall : delimiters.all fun d => isBlankChar d → isSpace d := by decide
  exact of_decide_eq_true (List.all_eq_true.mp hall c (List.contains_iff_mem.mp hd)) h

private theorem isDelimiter_of_isSpace {c : Char} (h : isSpace c) : isDelimiter c := by
  simp only [isSpace, Bool.or_eq_true, beq_iff_eq] at h
  rcases h with (rfl | rfl) | rfl <;> decide

/-- A blank is a space, or one more character of the word. -/
theorem step_code_blank {c : Char} (h : isBlankChar c) (word : Text) :
    step (.code word) c =
      if isSpace c then (flush word ++ [.space c], .code []) else ([], .code (c :: word)) := by
  obtain ⟨hslash, hstar, -, hquote⟩ := ne_of_blank h
  simp only [step, readCode, hslash, hstar, hquote, Bool.false_and, if_false, Bool.false_eq_true]
  split
  · next hd => rw [if_pos (isSpace_of_blank h hd), Token.ofDelimiter, if_pos (isSpace_of_blank h hd)]
  · next hd => rw [if_neg (mt isDelimiter_of_isSpace hd)]

theorem isBlank_flush {b : Text} (h : ∀ c ∈ b, isBlankChar c) : ∀ t ∈ flush b, t.isBlank := by
  intro t ht
  unfold flush at ht
  split at ht
  · simp at ht
  · obtain rfl := List.mem_singleton.mp ht
    simpa [Token.isBlank, Text.isBlank] using h

theorem exists_run_code_blank {w : Text} (hw : ∀ c ∈ w, isBlankChar c) (word : Text) :
    ∃ b rest, (∀ c ∈ b, isBlankChar c) ∧ (∀ t ∈ rest, t.isBlank) ∧
      (run (.code word) w).1 = flush (b ++ word) ++ rest := by
  induction w generalizing word with
  | nil => exact ⟨[], [], by simp, by simp, by simp [run, Mode.finish]⟩
  | cons c w ih =>
    have hc := hw c List.mem_cons_self
    have hrest : ∀ d ∈ w, isBlankChar d := fun d hd => hw d (List.mem_cons_of_mem _ hd)
    rw [run, step_code_blank hc]
    split
    · obtain ⟨b, rest, hb, hblank, hrun⟩ := ih hrest []
      refine ⟨[], .space c :: (flush b ++ rest), by simp, ?_, by simp [hrun]⟩
      intro t ht
      rcases List.mem_cons.mp ht with rfl | ht
      · exact hc
      · rcases List.mem_append.mp ht with ht | ht
        · exact isBlank_flush hb t ht
        · exact hblank t ht
    · obtain ⟨b, rest, hb, hblank, hrun⟩ := ih hrest (c :: word)
      refine ⟨b ++ [c], rest, ?_, hblank, by simp [hrun]⟩
      intro d hd
      rcases List.mem_append.mp hd with hd | hd
      · exact hb d hd
      · rw [List.mem_singleton.mp hd]
        exact hc

/-- Blanks are read in code as they are after the word that is held. -/
theorem exists_run_blank {mode : Mode} (hm : mode.inCode) :
    ∃ pre word, insideAfter false pre = false ∧ mode.finish = pre ++ flush word ∧
      ∀ w, (∀ c ∈ w, isBlankChar c) → (run mode w).1 = pre ++ (run (.code word) w).1 := by
  have hsame (pre : List Token) (word : Text) (hfinish : mode.finish = pre ++ flush word)
      (hstep : ∀ c, isBlankChar c → step mode c = after pre (step (.code word) c)) :
      ∀ w, (∀ c ∈ w, isBlankChar c) → (run mode w).1 = pre ++ (run (.code word) w).1 := by
    intro w hw
    cases w with
    | nil => exact hfinish
    | cons c w => simp [run, hstep c (hw c List.mem_cons_self), after]
  cases mode with
  | code word => exact ⟨[], word, rfl, rfl, fun _ _ => rfl⟩
  | slash word =>
    refine ⟨[], '/' :: word, rfl, rfl, hsame _ _ rfl fun c hc => ?_⟩
    obtain ⟨hslash, hstar, -, -⟩ := ne_of_blank hc
    simp [step, hslash, hstar, after]
  | star =>
    refine ⟨[.delimiter '*'], [], rfl, rfl, hsame _ _ rfl fun c hc => ?_⟩
    obtain ⟨hslash, -, -, -⟩ := ne_of_blank hc
    simp [step, hslash]
  | starSlash =>
    refine ⟨[.commentClose], [], rfl, rfl, hsame _ _ rfl fun c hc => ?_⟩
    obtain ⟨-, hstar, -, -⟩ := ne_of_blank hc
    simp [step, hstar]
  | _ => simp [Mode.inCode, Mode.verbatim, Mode.inComment] at hm

/-- What is read in an open literal belongs to it, up to its end. -/
theorem exists_run_literal (quote : Char) (escaped : Bool) (text t : Text) :
    ∃ v rest, (run (.literal quote escaped text) t).1 = .literal (text.reverse ++ v) :: rest := by
  induction t generalizing escaped text with
  | nil => exact ⟨[], [], by simp [run, Mode.finish]⟩
  | cons c t ih =>
    rw [run]
    simp only [step]
    split
    · exact ⟨[], .newline :: (run (.code []) t).1, by simp⟩
    · split
      · obtain ⟨v, rest, hrun⟩ := ih true (c :: text)
        exact ⟨c :: v, rest, by simp [hrun]⟩
      · split
        · exact ⟨[c], (run (.code []) t).1, by simp⟩
        · obtain ⟨v, rest, hrun⟩ := ih false (c :: text)
          exact ⟨c :: v, rest, by simp [hrun]⟩

private theorem step_literal {quote c : Char} (hquote : isQuote quote) (hc : isQuote c = false)
    (hn : c ≠ '\n') (hb : c ≠ '\\') (escaped : Bool) (text : Text) :
    step (.literal quote escaped text) c = ([], .literal quote false (c :: text)) := by
  have hne : c ≠ quote := by
    rintro rfl
    simp [hquote] at hc
  simp [step, hn, hb, hne]

/-- Blanks lengthen an open literal up to the end of its line. -/
theorem exists_run_literal_blank {quote : Char} (hquote : isQuote quote) {w : Text}
    (hw : ∀ c ∈ w, isBlankChar c) (escaped : Bool) (text : Text) :
    ∃ v rest, (∀ c ∈ v, isBlankChar c) ∧ (∀ t ∈ rest, t.isBlank) ∧
      (run (.literal quote escaped text) w).1 = .literal (text.reverse ++ v) :: rest := by
  induction w generalizing escaped text with
  | nil => exact ⟨[], [], by simp, by simp, by simp [run, Mode.finish]⟩
  | cons c w ih =>
    have hc := hw c List.mem_cons_self
    have hrest : ∀ d ∈ w, isBlankChar d := fun d hd => hw d (List.mem_cons_of_mem _ hd)
    by_cases hn : c = '\n'
    · obtain ⟨b, rest, hb, hblank, hrun⟩ := exists_run_code_blank hrest []
      refine ⟨[], .newline :: (flush b ++ rest), by simp, ?_, ?_⟩
      · intro t ht
        rcases List.mem_cons.mp ht with rfl | ht
        · decide
        · rcases List.mem_append.mp ht with ht | ht
          · exact isBlank_flush hb t ht
          · exact hblank t ht
      · rw [run, hn, step_newline]
        simpa [Mode.finish, Mode.start, Mode.inComment] using hrun
    · obtain ⟨-, -, hb, hq⟩ := ne_of_blank hc
      obtain ⟨v, rest, hv, hblank, hrun⟩ := ih hrest false (c :: text)
      refine ⟨c :: v, rest, ?_, hblank, ?_⟩
      · intro d hd
        rcases List.mem_cons.mp hd with rfl | hd
        · exact hc
        · exact hv d hd
      · rw [run, step_literal hquote hq hn hb]
        simp [hrun]

private theorem isLexed_flush (word : Text) : ∀ t ∈ flush word, t.isLexed := by
  intro t ht
  unfold flush at ht
  split at ht
  · simp at ht
  · next hword =>
    rw [List.mem_singleton.mp ht]
    simpa [Token.isLexed] using hword

private theorem isLexed_ofDelimiter {c : Char} (h : isDelimiter c) : (Token.ofDelimiter c).isLexed := by
  have hall : delimiters.all fun d => (Token.ofDelimiter d).isLexed := by decide
  exact List.all_eq_true.mp hall c (List.contains_iff_mem.mp h)

private theorem not_blank_of_isQuote {c : Char} (h : isQuote c) : isBlankChar c = false := by
  simp only [isQuote, Bool.or_eq_true, beq_iff_eq] at h
  rcases h with rfl | rfl <;> decide

private theorem isLexed_append {ts us : List Token} (hts : ∀ t ∈ ts, t.isLexed) (hus : ∀ t ∈ us, t.isLexed) :
    ∀ t ∈ ts ++ us, t.isLexed := by
  intro t ht
  rcases List.mem_append.mp ht with h | h
  · exact hts t h
  · exact hus t h

private theorem isLexed_singleton {t : Token} (h : t.isLexed) : ∀ u ∈ [t], u.isLexed := by
  intro u hu
  rwa [List.mem_singleton.mp hu]

private theorem isLexed_readCode (word : Text) (c : Char) :
    ∀ t ∈ (readCode word c).1 ++ (readCode word c).2.finish, t.isLexed := by
  have hread := reads_readCode word c
  generalize readCode word c = result at hread ⊢
  cases hread with
  | slash hc => exact isLexed_flush ('/' :: word)
  | star hc => exact isLexed_append (isLexed_flush _) (isLexed_singleton rfl)
  | quote hc =>
    refine isLexed_append (isLexed_flush _) (isLexed_singleton ?_)
    simp [Token.isLexed, Token.text, Text.isBlank, not_blank_of_isQuote hc]
  | delimiter hc =>
    refine isLexed_append (isLexed_append (isLexed_flush _) ?_) (isLexed_flush _)
    exact isLexed_singleton (isLexed_ofDelimiter hc)
  | word hc => exact isLexed_flush (c :: word)

private theorem isLexed_readComment (word : Text) (c : Char) :
    ∀ t ∈ (readComment word c).1 ++ (readComment word c).2.finish, t.isLexed := by
  have hread := reads_readComment word c
  generalize readComment word c = result at hread ⊢
  cases hread with
  | star hc => exact isLexed_append (isLexed_flush _) (isLexed_singleton rfl)
  | delimiter hc =>
    refine isLexed_append (isLexed_append (isLexed_flush _) ?_) (isLexed_flush _)
    exact isLexed_singleton (isLexed_ofDelimiter hc)
  | word hc => exact isLexed_flush (c :: word)

/-- A longer text has no fewer marks. -/
private theorem isLexed_of_longer {text : Text} {c : Char} (h : (Token.literal text.reverse).isLexed) :
    (Token.literal (c :: text).reverse).isLexed ∧ (Token.lineComment (c :: text).reverse).isLexed := by
  simp only [Token.isLexed, Token.text, Text.isBlank, Bool.not_eq_true', List.all_reverse, List.all_cons,
    Bool.and_eq_false_iff] at h ⊢
  exact ⟨.inr h, .inr h⟩

/-- What a step completes and what it holds is lexed, if what was held is. -/
theorem isLexed_step {mode : Mode} (h : ∀ t ∈ mode.finish, t.isLexed) (c : Char) :
    ∀ t ∈ (step mode c).1 ++ (step mode c).2.finish, t.isLexed := by
  have hafter {t : Token} (ht : t.isLexed) {result : List Token × Mode}
      (hresult : ∀ u ∈ result.1 ++ result.2.finish, u.isLexed) :
      ∀ u ∈ (after [t] result).1 ++ (after [t] result).2.finish, u.isLexed := by
    simpa [after] using isLexed_append (isLexed_singleton ht) hresult
  have hmove := move_step mode c
  generalize step mode c = result at hmove ⊢
  cases hmove with
  | code word => exact isLexed_readCode word c
  | slash word => exact isLexed_readCode ('/' :: word) c
  | star => exact hafter rfl (isLexed_readCode [] c)
  | strayClose => exact hafter rfl (isLexed_readCode [] c)
  | comment word => exact isLexed_readComment word c
  | commentStar => exact hafter rfl (isLexed_readComment [] c)
  | openLine word hc => exact isLexed_append (isLexed_flush _) (isLexed_singleton rfl)
  | openBlock word hc =>
    exact isLexed_append (isLexed_append (isLexed_flush _) (isLexed_singleton rfl)) (isLexed_flush _)
  | starSlash hc => exact isLexed_singleton rfl
  | reopen hc =>
    exact isLexed_append (isLexed_append (isLexed_singleton rfl) (isLexed_singleton rfl)) (isLexed_flush _)
  | closeBlock hc => exact isLexed_append (isLexed_singleton rfl) (isLexed_flush _)
  | endLine text hc => exact isLexed_append (isLexed_append h (isLexed_singleton rfl)) (isLexed_flush _)
  | breakLiteral quote escaped text hc =>
    exact isLexed_append (isLexed_append h (isLexed_singleton rfl)) (isLexed_flush _)
  | lineComment text hc =>
    have htext := h _ List.mem_cons_self
    exact isLexed_singleton (isLexed_of_longer htext).2
  | escape quote text hc => exact isLexed_singleton (isLexed_of_longer (h _ List.mem_cons_self)).1
  | closeLiteral text hc =>
    exact isLexed_append (isLexed_singleton (isLexed_of_longer (h _ List.mem_cons_self)).1) (isLexed_flush _)
  | literal quote escaped text hc => exact isLexed_singleton (isLexed_of_longer (h _ List.mem_cons_self)).1

theorem isLexed_run {mode : Mode} (h : ∀ t ∈ mode.finish, t.isLexed) (text : Text) :
    ∀ t ∈ (run mode text).1, t.isLexed := by
  induction text generalizing mode with
  | nil => exact h
  | cons c text ih =>
    have hstep := isLexed_step h c
    refine isLexed_append (fun t ht => hstep t (List.mem_append_left _ ht)) (ih fun t ht => ?_)
    exact hstep t (List.mem_append_right _ ht)

/-- Whether the last of some tokens has a semicolon at its end only as a token of its own. -/
def LastParted (ts : List Token) : Prop :=
  ∀ t, ts.getLast? = some t → t.text.getLast? = some ';' → t = .delimiter ';'

/-- What holds of the code that was read, and of the characters held, unless a literal is open. -/
def Mode.Parts (code : List Token) : Mode → Prop
  | .literal quote _ _ => isQuote quote
  | .code word => LastParted code ∧ word.head? ≠ some ';'
  | .slash word => LastParted code ∧ word.head? ≠ some ';'
  | _ => LastParted code

section Parted

variable {code : List Token} {word : Text}

theorem lastParted_concat {t : Token} (h : t.text.getLast? = some ';' → t = .delimiter ';') :
    LastParted (code ++ [t]) := by
  intro u hu
  rw [List.getLast?_concat, Option.some.injEq] at hu
  subst hu
  exact h

theorem lastParted_flush (h : LastParted code) (hword : word.head? ≠ some ';') :
    LastParted (code ++ flush word) := by
  unfold flush
  split
  · rwa [List.append_nil]
  · refine lastParted_concat fun hlast => absurd ?_ hword
    simpa [Token.text] using hlast

private theorem lastParted_ofDelimiter (c : Char) : LastParted (code ++ [.ofDelimiter c]) := by
  refine lastParted_concat fun hlast => ?_
  rw [Token.text_ofDelimiter, List.getLast?_singleton, Option.some.injEq] at hlast
  rw [hlast]
  rfl

private theorem dropComments_flush_append (word : Text) (ts : List Token) :
    dropComments false (flush word ++ ts) = flush word ++ dropComments false ts := by
  unfold flush
  split <;> rfl

private theorem dropComments_flush (inside : Bool) (word : Text) :
    dropComments inside (flush word) = if inside then [] else flush word := by
  unfold flush
  split <;> cases inside <;> rfl

private theorem dropComments_ofDelimiter (c : Char) :
    dropComments false [.ofDelimiter c] = [.ofDelimiter c] := by
  unfold Token.ofDelimiter
  split <;> rfl

private theorem parts_readCode (h : LastParted code) (hword : word.head? ≠ some ';') (c : Char) :
    (readCode word c).2.Parts (code ++ dropComments false (readCode word c).1) := by
  have hread := reads_readCode word c
  generalize readCode word c = result at hread ⊢
  cases hread with
  | slash hc => exact ⟨by simpa [dropComments] using h, hword⟩
  | star hc =>
    rw [dropComments_flush]
    exact lastParted_flush h hword
  | quote hc => exact hc
  | delimiter hc =>
    rw [dropComments_flush_append, dropComments_ofDelimiter, ← List.append_assoc]
    exact ⟨lastParted_ofDelimiter c, by simp⟩
  | word hc =>
    refine ⟨by simpa [dropComments] using h, ?_⟩
    simp only [List.head?_cons, ne_eq, Option.some.injEq]
    rintro rfl
    exact absurd hc (by decide)

private theorem parts_readComment (h : LastParted code) (c : Char) :
    (readComment word c).2.Parts (code ++ dropComments true (readComment word c).1) := by
  have hflush (ts : List Token) : dropComments true (flush word ++ ts) = dropComments true ts := by
    unfold flush
    split <;> rfl
  have hdelimiter : dropComments true [.ofDelimiter c] = [] := by
    unfold Token.ofDelimiter
    split <;> rfl
  have hread := reads_readComment word c
  generalize readComment word c = result at hread ⊢
  cases hread with
  | star hc => rwa [dropComments_flush, if_pos rfl, List.append_nil]
  | delimiter hc => rwa [hflush, hdelimiter, List.append_nil]
  | word hc => simpa [dropComments, Mode.Parts] using h

theorem parts_step {mode : Mode} (h : mode.Parts code) (c : Char) :
    (step mode c).2.Parts (code ++ dropComments mode.inComment (step mode c).1) := by
  have hnil : ([] : Text).head? ≠ some ';' := by simp
  have hstar : LastParted (code ++ [.delimiter '*']) := lastParted_concat (by simp [Token.text])
  have hstray : LastParted (code ++ [.commentClose]) := lastParted_concat (by simp [Token.text])
  have hmove := move_step mode c
  generalize step mode c = result at hmove ⊢
  cases hmove with
  | code word => exact parts_readCode h.1 h.2 c
  | slash word => exact parts_readCode h.1 (by simp) c
  | star => simpa [after, dropComments, Mode.inComment] using parts_readCode hstar hnil c
  | strayClose => simpa [after, dropComments, Mode.inComment] using parts_readCode hstray hnil c
  | comment word => exact parts_readComment h c
  | commentStar =>
    have hread : (readComment [] c).2.Parts (code ++ dropComments true (readComment [] c).1) :=
      parts_readComment h c
    exact hread
  | openLine word hc =>
    have hflush := dropComments_flush_append word []
    rw [List.append_nil] at hflush
    simpa [hflush, dropComments, Mode.Parts, Mode.inComment] using lastParted_flush h.1 h.2
  | openBlock word hc =>
    simpa [dropComments_flush_append, dropComments, Mode.Parts, Mode.inComment] using lastParted_flush h.1 h.2
  | starSlash hc => simpa [dropComments, Mode.Parts] using h
  | reopen hc => simpa [dropComments, Mode.Parts, Mode.inComment] using hstar
  | closeBlock hc => exact ⟨by simpa [dropComments, Mode.Parts, Mode.inComment] using h, hnil⟩
  | endLine text hc => exact ⟨lastParted_ofDelimiter '\n', hnil⟩
  | breakLiteral quote escaped text hc =>
    have hdrop : dropComments (Mode.literal quote escaped text).inComment [.literal text.reverse, .newline] =
        [.literal text.reverse, .newline] := rfl
    rw [hdrop, List.append_cons]
    exact ⟨lastParted_ofDelimiter '\n', hnil⟩
  | closeLiteral text hc =>
    -- The quote at the end of the literal is no semicolon.
    refine ⟨lastParted_concat fun hlast => ?_, hnil⟩
    simp only [Token.text, List.getLast?_reverse, List.head?_cons, Option.some.injEq] at hlast
    have hquote : isQuote c := h
    rw [hlast] at hquote
    simp [isQuote] at hquote
  | lineComment text hc => simpa [dropComments, Mode.Parts] using h
  | escape quote text hc => exact h
  | literal quote escaped text hc => exact h

theorem parts_read {mode : Mode} (h : mode.Parts code) (t : Text) :
    (read mode t).2.Parts (code ++ dropComments mode.inComment (read mode t).1) := by
  induction t generalizing mode code with
  | nil => simpa [read, dropComments] using h
  | cons c t ih =>
    have hstep := ih (parts_step h c)
    rw [read, after, dropComments_append, insideAfter_step, ← List.append_assoc]
    exact hstep

/-- The tokens that are still held keep the last of the code apart. -/
theorem lastParted_finish {mode : Mode} (h : mode.Parts code)
    (hclosed : ∀ quote escaped text, mode ≠ .literal quote escaped text) :
    LastParted (code ++ dropComments mode.inComment mode.finish) := by
  cases mode with
  | literal quote escaped text => exact absurd rfl (hclosed quote escaped text)
  | code word => simpa [Mode.finish, Mode.inComment, dropComments_flush] using lastParted_flush h.1 h.2
  | slash word =>
    have hlast : LastParted (code ++ flush ('/' :: word)) := lastParted_flush h.1 (by simp)
    simpa [Mode.finish, Mode.inComment, dropComments_flush] using hlast
  | star => exact lastParted_concat (by simp [Token.text])
  | starSlash => exact lastParted_concat (by simp [Token.text])
  | lineComment text => simpa [Mode.finish, Mode.inComment, dropComments, Mode.Parts] using h
  | comment word => simpa [Mode.finish, Mode.inComment, dropComments_flush, Mode.Parts] using h
  | commentStar => simpa [Mode.finish, Mode.inComment, dropComments, Mode.Parts] using h

end Parted

/-- Blanks do not close a block comment. -/
theorem inComment_read_blank {mode : Mode} (hm : mode.inComment) {w : Text}
    (hw : ∀ c ∈ w, isBlankChar c) : (read mode w).2.inComment := by
  induction w generalizing mode with
  | nil => exact hm
  | cons c w ih =>
    obtain ⟨hslash, hstar, -, -⟩ := ne_of_blank (hw c List.mem_cons_self)
    have hread (word : Text) : (readComment word c).2.inComment := by
      rw [readComment, if_neg hstar]
      split <;> rfl
    have hstep : (step mode c).2.inComment := by
      cases mode with
      | comment word => exact hread word
      | commentStar =>
        rw [step, if_neg hslash]
        exact hread []
      | _ => simp [Mode.inComment] at hm
    exact ih hstep fun d hd => hw d (List.mem_cons_of_mem _ hd)

/-- A line comment takes in what follows on its line. -/
theorem dropComments_run_lineComment (text t : Text) :
    dropComments false (run (.lineComment text) t).1 =
      dropComments false (run (.code []) (t.dropWhile (· ≠ '\n'))).1 := by
  induction t generalizing text with
  | nil => rfl
  | cons c t ih =>
    by_cases hc : c = '\n'
    · subst hc
      rw [run, step_newline, List.dropWhile_cons_of_neg (by simp), run, step_newline]
      rfl
    · have hstep : step (.lineComment text) c = ([], .lineComment (c :: text)) := by simp [step, hc]
      rw [run, hstep, List.dropWhile_cons_of_pos (by simpa using hc), ← ih (c :: text)]
      rfl

end Lexer

namespace Text

/-- The code tokens that are complete at the end of a text. -/
def completed (t : Text) : List Token := dropComments false (Lexer.read (.start false) t.lineFeeds).1

/-- The mode of the lexer at the end of a text. -/
def modeAfter (t : Text) : Lexer.Mode := (Lexer.read (.start false) t.lineFeeds).2

/-- Whether a text ends in a line comment. -/
def endsInLineComment (t : Text) : Bool :=
  match t.modeAfter with
  | .lineComment _ => true
  | _ => false

theorem codeFrom_append {a b : Text} (h : a.getLast? ≠ some '\r' ∨ b.head? ≠ some '\n') :
    (a ++ b).codeFrom false = a.completed ++
      dropComments a.modeAfter.inComment (Lexer.run a.modeAfter b.lineFeeds).1 := by
  have hinside := Lexer.insideAfter_read (.start false) a.lineFeeds
  rw [Lexer.inComment_start] at hinside
  rw [codeFrom, tokenize, lineFeeds_append h, Lexer.run_append, dropComments_append, hinside]
  rfl

theorem codeFrom_eq_completed (a : Text) :
    a.codeFrom false = a.completed ++ dropComments a.modeAfter.inComment a.modeAfter.finish := by
  have h := codeFrom_append (a := a) (b := []) (.inr (by simp))
  rwa [List.append_nil] at h

theorem lineFeeds_dropWhile (t : Text) :
    lineFeeds (t.dropWhile (· ≠ '\n')) = (lineFeeds t).dropWhile (· ≠ '\n') := by
  fun_induction lineFeeds t with
  | case1 cs ih => simp [lineFeeds]
  | case2 c cs hcs ih =>
    by_cases hc : c = '\n'
    · subst hc
      simp [lineFeeds]
    · rw [List.dropWhile_cons_of_pos (by simpa using hc), List.dropWhile_cons_of_pos (by simpa using hc),
        ih]
  | case3 => rfl

private theorem blank_lineFeeds {w : Text} (hw : ∀ c ∈ w, isBlankChar c) :
    ∀ c ∈ lineFeeds w, isBlankChar c := fun c hc => hw c (mem_of_mem_lineFeeds hc)

/-- Blanks after a text in code lengthen its last word or add tokens of blanks. -/
theorem exists_codeFrom_blank {kept w : Text} (hcode : kept.endsInCode false)
    (hlast : kept.getLast? ≠ some '\r') (hw : ∀ c ∈ w, isBlankChar c) :
    ∃ before word b rest, (∀ c ∈ b, isBlankChar c) ∧ (∀ t ∈ rest, t.isBlank) ∧
      kept.codeFrom false = before ++ Lexer.flush word ∧
      (kept ++ w).codeFrom false = before ++ Lexer.flush (b ++ word) ++ rest := by
  have hmode : kept.modeAfter.inCode := hcode
  have hin := Lexer.Mode.inComment_eq_false hmode
  obtain ⟨pre, word, hpre, hfinish, hrun⟩ := Lexer.exists_run_blank hmode
  obtain ⟨b, rest, hb, hblank, hword⟩ := Lexer.exists_run_code_blank (blank_lineFeeds hw) word
  have hflush (u : Text) : dropComments false (Lexer.flush u) = Lexer.flush u := by
    unfold Lexer.flush
    split <;> rfl
  refine ⟨kept.completed ++ dropComments false pre, word, b, rest, hb, hblank, ?_, ?_⟩
  · rw [codeFrom_eq_completed, hin, hfinish, dropComments_append, hpre, hflush, List.append_assoc]
  · rw [codeFrom_append (.inl hlast), hin, hrun _ (blank_lineFeeds hw), hword, dropComments_append,
      hpre, dropComments_append, Lexer.insideAfter_flush, hflush, dropComments_of_blank hblank]
    simp only [List.append_assoc]

/-- What is put behind a line comment belongs to it up to the end of the line. -/
theorem codeFrom_lineComment {kept rest : Text} (h : kept.endsInLineComment)
    (hjoin : kept.getLast? ≠ some '\r' ∨ rest.head? ≠ some '\n') :
    (kept ++ rest).codeFrom false =
      kept.codeFrom false ++ codeFrom false (rest.dropWhile (· ≠ '\n')) := by
  unfold endsInLineComment at h
  split at h
  · next text hmode =>
    have hinside : kept.modeAfter.inComment = false := by rw [hmode]; rfl
    have hnil : dropComments false (Lexer.Mode.lineComment text).finish = [] := rfl
    rw [codeFrom_append hjoin, codeFrom_eq_completed kept, hinside, hmode, hnil,
      Lexer.dropComments_run_lineComment, ← lineFeeds_dropWhile, List.append_nil]
    rfl
  · simp at h

theorem isBlank_codeFrom {w : Text} (hw : ∀ c ∈ w, isBlankChar c) : ∀ t ∈ w.codeFrom false, t.isBlank := by
  obtain ⟨b, rest, hb, hrest, hrun⟩ := Lexer.exists_run_code_blank (blank_lineFeeds hw) []
  have hblank : ∀ t ∈ Lexer.flush (b ++ []) ++ rest, t.isBlank := by
    intro t ht
    rcases List.mem_append.mp ht with ht | ht
    · exact Lexer.isBlank_flush (by simpa using hb) t ht
    · exact hrest t ht
  have hcode : w.codeFrom false = Lexer.flush (b ++ []) ++ rest :=
    (congrArg (dropComments false) hrun).trans (dropComments_of_blank hblank)
  rw [hcode]
  exact hblank

/-- A text that is in code once blanks follow it is in code, in a line comment, or in a literal that takes
in the blanks and whatever else follows. -/
theorem trimmed_cases {kept w : Text} (hw : ∀ c ∈ w, isBlankChar c) (hlast : kept.getLast? ≠ some '\r')
    (hcode : (kept ++ w).endsInCode false) :
    kept.endsInCode false ∨ kept.endsInLineComment ∨
      ∃ before text v rest, (∀ c ∈ v, isBlankChar c) ∧ (∀ t ∈ rest, t.isBlank) ∧
        (kept ++ w).codeFrom false = before ++ .literal (text ++ v) :: rest ∧
        ∀ tail, ∃ v' rest', (kept ++ ';' :: tail).codeFrom false =
          before ++ .literal (text ++ ';' :: v') :: rest' := by
  have hstart : (Lexer.Mode.start false).quoted := rfl
  have hquoted : kept.modeAfter.quoted := Lexer.quoted_read hstart _
  -- Blanks do not lead out of a block comment.
  have hin : kept.modeAfter.inComment = false := by
    rw [Bool.eq_false_iff]
    intro hin
    have hread := Lexer.inComment_read_blank hin (blank_lineFeeds hw)
    rw [endsInCode, lineFeeds_append (.inl hlast), Lexer.read_append] at hcode
    have hnot := Lexer.Mode.inComment_eq_false hcode
    exact absurd hread (Bool.eq_false_iff.mp hnot)
  have happend := codeFrom_append (a := kept) (b := w) (.inl hlast)
  have hmore (tail : Text) := codeFrom_append (a := kept) (b := ';' :: tail) (.inr (by simp))
  simp only [hin] at happend hmore
  cases hmode : kept.modeAfter with
  | literal quote escaped text =>
    rw [hmode] at hquoted happend
    refine .inr (.inr ?_)
    obtain ⟨v, rest, hv, hblank, hrun⟩ :=
      Lexer.exists_run_literal_blank hquoted (blank_lineFeeds hw) escaped text
    refine ⟨kept.completed, text.reverse, v, rest, hv, hblank, ?_, ?_⟩
    · rw [happend, hrun]
      exact congrArg (kept.completed ++ .literal (text.reverse ++ v) :: ·) (dropComments_of_blank hblank)
    · intro tail
      obtain ⟨v', rest', hrun'⟩ := Lexer.exists_run_literal quote false (';' :: text) (lineFeeds tail)
      refine ⟨v', dropComments false rest', ?_⟩
      rw [hmore, hmode, lineFeeds_cons (.inl (by decide)), Lexer.run,
        Lexer.step_literal hquoted rfl (by decide) (by decide), List.nil_append, hrun']
      simp [dropComments]
  | lineComment text => exact .inr (.inl (by rw [endsInLineComment, hmode]))
  | comment word => simp [hmode, Lexer.Mode.inComment] at hin
  | commentStar => simp [hmode, Lexer.Mode.inComment] at hin
  | _ =>
    have hcode : kept.modeAfter.inCode := by rw [hmode]; rfl
    exact .inl hcode

/-- Unless a literal is open, code ends in a semicolon only if that is its last token. -/
theorem lastParted_codeFrom {t : Text} (h : ∀ quote escaped text, t.modeAfter ≠ .literal quote escaped text) :
    Lexer.LastParted (t.codeFrom false) := by
  have hstart : (Lexer.Mode.start false).Parts [] := ⟨by simp [Lexer.LastParted], by simp⟩
  rw [codeFrom_eq_completed]
  exact Lexer.lastParted_finish (Lexer.parts_read hstart t.lineFeeds) h

theorem lastParted_of_endsInLineComment {t : Text} (h : t.endsInLineComment) : Lexer.LastParted (t.codeFrom false) := by
  refine lastParted_codeFrom fun quote escaped text hmode => ?_
  simp [endsInLineComment, hmode] at h

theorem lastParted_of_endsInCode {t : Text} (h : t.endsInCode false) : Lexer.LastParted (t.codeFrom false) := by
  refine lastParted_codeFrom fun quote escaped text hmode => ?_
  have hcode : t.modeAfter.inCode := h
  simp [hmode, Lexer.Mode.inCode, Lexer.Mode.verbatim] at hcode

theorem isLexed_codeFrom (inComment : Bool) (t : Text) : ∀ u ∈ t.codeFrom inComment, u.isLexed := by
  have hstart : ∀ u ∈ (Lexer.Mode.start inComment).finish, u.isLexed := by
    cases inComment <;> exact Lexer.isLexed_flush []
  exact fun u hu => Lexer.isLexed_run hstart t.lineFeeds u (mem_of_mem_dropComments hu)

end Text
end OutOfLine

import OutOfLine.Proofs.CodeTokens

/-!
# The shapes of tokens

What the lexer holds between two characters has a shape, and so have the tokens that it completes: a word has
no delimiter in it, a line comment stays on its line, and a literal goes on from its quote to the next quote
of the kind that no backslash escapes, if there is one on the line.
-/

namespace OutOfLine

namespace Text

/-- Whether a text ends in a backslash that escapes the character behind it. -/
def escapes (t : Text) : Bool := t.foldl (fun escaped c => c = '\\' && !escaped) false

theorem escapes_concat (t : Text) (c : Char) : escapes (t ++ [c]) = (c = '\\' && !t.escapes) := by
  simp [escapes]

/-- The inside of a literal that nothing has closed: every quote of its kind is escaped. -/
structure LeavesOpen (inner : Text) (quote : Char) : Prop where
  no_newline : '\n' ∉ inner
  escaped : ∀ a b, inner = a ++ quote :: b → a.escapes

theorem LeavesOpen.concat {inner : Text} {quote c : Char} (h : inner.LeavesOpen quote) (hnl : c ≠ '\n')
    (hc : c = quote → inner.escapes) : LeavesOpen (inner ++ [c]) quote := by
  refine ⟨by simp [h.no_newline, hnl.symm], fun a b hab => ?_⟩
  rcases List.eq_nil_or_concat b with rfl | ⟨b, d, rfl⟩
  · obtain ⟨rfl, hquote⟩ := List.append_inj' hab rfl
    exact hc (List.cons.inj hquote).1
  · rw [List.concat_eq_append, ← List.cons_append, ← List.append_assoc] at hab
    exact h.escaped a b (List.append_inj' hab rfl).1

end Text

/-- What a token of a lexed text looks like. -/
def Token.Shaped : Token → Prop
  | .word text => text ≠ [] ∧ ∀ c ∈ text, isDelimiter c = false
  | .delimiter c => isDelimiter c ∧ OutOfLine.isSpace c = false
  | .space c => OutOfLine.isSpace c
  | .lineComment text => ['/', '/'] <+: text ∧ '\n' ∉ text
  | .commentOpen => True
  | .commentClose => True
  | .literal text => ∃ (quote : Char) (inner : Text), Lexer.isQuote quote ∧ inner.LeavesOpen quote ∧
      (text = quote :: inner ∨ text = quote :: (inner ++ [quote]) ∧ inner.escapes = false)

namespace Lexer

/-- What the characters held in a mode look like. -/
def Mode.Shaped : Mode → Prop
  | .code word => ∀ c ∈ word, isDelimiter c = false
  | .slash word => ∀ c ∈ word, isDelimiter c = false
  | .comment word => ∀ c ∈ word, isDelimiter c = false
  | .lineComment text => ['/', '/'] <+: text.reverse ∧ '\n' ∉ text
  | .literal quote escaped text => isQuote quote ∧
      ∃ inner : Text, text.reverse = quote :: inner ∧ inner.LeavesOpen quote ∧ inner.escapes = escaped
  | _ => True

theorem shaped_start (inComment : Bool) : (Mode.start inComment).Shaped := by
  cases inComment <;> simp [Mode.start, Mode.Shaped]

private theorem shaped_flush {word : Text} (h : ∀ c ∈ word, isDelimiter c = false) :
    ∀ t ∈ flush word, t.Shaped := by
  intro t ht
  unfold flush at ht
  split at ht
  · simp at ht
  · next hword =>
    rw [List.mem_singleton.mp ht]
    exact ⟨by simpa using hword, by simpa using h⟩

private theorem shaped_ofDelimiter {c : Char} (h : isDelimiter c) : (Token.ofDelimiter c).Shaped := by
  unfold Token.ofDelimiter
  split
  · next hspace => exact hspace
  · next hspace => exact ⟨h, Bool.eq_false_iff.mpr hspace⟩

private theorem shaped_slash {word : Text} (h : ∀ c ∈ word, isDelimiter c = false) :
    ∀ c ∈ '/' :: word, isDelimiter c = false :=
  List.forall_mem_cons.mpr ⟨by decide, h⟩

/-- Both the tokens and the mode of a step are shaped. -/
def ShapedStep (result : List Token × Mode) : Prop := (∀ t ∈ result.1, t.Shaped) ∧ result.2.Shaped

private theorem shapedStep_after {ts : List Token} {result : List Token × Mode} (hts : ∀ t ∈ ts, t.Shaped)
    (h : ShapedStep result) : ShapedStep (after ts result) :=
  ⟨fun t ht => (List.mem_append.mp ht).elim (hts t) (h.1 t), h.2⟩

private theorem shapedStep_delimiter {word : Text} (h : ∀ c ∈ word, isDelimiter c = false) {c : Char}
    (hc : isDelimiter c) (mode : Mode) (hmode : mode.Shaped) :
    ShapedStep (flush word ++ [.ofDelimiter c], mode) := by
  refine ⟨fun t ht => ?_, hmode⟩
  rcases List.mem_append.mp ht with ht | ht
  · exact shaped_flush h t ht
  · rw [List.mem_singleton.mp ht]
    exact shaped_ofDelimiter hc

private theorem shapedStep_readCode {word : Text} (h : ∀ c ∈ word, isDelimiter c = false) (c : Char) :
    ShapedStep (readCode word c) := by
  have hread := reads_readCode word c
  generalize readCode word c = result at hread ⊢
  cases hread with
  | slash hc => exact ⟨by simp, h⟩
  | star hc => exact ⟨shaped_flush h, trivial⟩
  | quote hc => exact ⟨shaped_flush h, hc, [], rfl, ⟨by simp, by simp⟩, rfl⟩
  | delimiter hc => exact shapedStep_delimiter h hc _ (by simp [Mode.Shaped])
  | word hc => exact ⟨by simp, List.forall_mem_cons.mpr ⟨hc, h⟩⟩

private theorem shapedStep_readComment {word : Text} (h : ∀ c ∈ word, isDelimiter c = false) (c : Char) :
    ShapedStep (readComment word c) := by
  have hread := reads_readComment word c
  generalize readComment word c = result at hread ⊢
  cases hread with
  | star hc => exact ⟨shaped_flush h, trivial⟩
  | delimiter hc => exact shapedStep_delimiter h hc _ (by simp [Mode.Shaped])
  | word hc => exact ⟨by simp, List.forall_mem_cons.mpr ⟨hc, h⟩⟩

theorem shaped_finish {mode : Mode} (h : mode.Shaped) : ∀ t ∈ mode.finish, t.Shaped := by
  have hsingle {t : Token} (ht : t.Shaped) : ∀ u ∈ [t], u.Shaped := by
    intro u hu
    rwa [List.mem_singleton.mp hu]
  cases mode with
  | code word => exact shaped_flush h
  | slash word => exact shaped_flush (shaped_slash h)
  | star => exact hsingle ⟨rfl, rfl⟩
  | starSlash => exact hsingle trivial
  | lineComment text => exact hsingle ⟨h.1, by simpa using h.2⟩
  | literal quote escaped text =>
    obtain ⟨hquote, inner, htext, hopen, -⟩ := h
    exact hsingle ⟨quote, inner, hquote, hopen, .inl htext⟩
  | comment word => exact shaped_flush h
  | commentStar => exact hsingle ⟨rfl, rfl⟩

/-- A literal goes on with any character but a newline and a quote that closes it. -/
private theorem shaped_literal_cons {quote c : Char} {escaped : Bool} {text : Text}
    (h : (Mode.literal quote escaped text).Shaped) (hnl : c ≠ '\n') (hclose : c = quote → escaped) :
    (Mode.literal quote (c = '\\' && !escaped) (c :: text)).Shaped := by
  obtain ⟨hquote, inner, htext, hopen, rfl⟩ := h
  refine ⟨hquote, inner ++ [c], ?_, hopen.concat hnl hclose, Text.escapes_concat inner c⟩
  rw [List.reverse_cons, htext]
  rfl

theorem shapedStep_step {mode : Mode} (h : mode.Shaped) (c : Char) : ShapedStep (step mode c) := by
  have hnone : ∀ d ∈ ([] : Text), isDelimiter d = false := by simp
  have hstar : ∀ t ∈ [Token.delimiter '*'], t.Shaped := @shaped_finish .star trivial
  have hline {mode : Mode} (h : mode.Shaped) : ∀ t ∈ mode.finish ++ [.newline], t.Shaped := by
    intro t ht
    rcases List.mem_append.mp ht with ht | ht
    · exact shaped_finish h t ht
    · rw [List.mem_singleton.mp ht]
      rfl
  have hmove := move_step mode c
  generalize step mode c = result at hmove ⊢
  cases hmove with
  | code word => exact shapedStep_readCode h c
  | slash word => exact shapedStep_readCode (shaped_slash h) c
  | star => exact shapedStep_after hstar (shapedStep_readCode hnone c)
  | strayClose => exact shapedStep_after (@shaped_finish .starSlash trivial) (shapedStep_readCode hnone c)
  | comment word => exact shapedStep_readComment h c
  | commentStar => exact shapedStep_after hstar (shapedStep_readComment hnone c)
  | openLine word hc => exact ⟨shaped_flush h, List.prefix_rfl, by decide⟩
  | openBlock word hc =>
    refine ⟨fun t ht => ?_, hnone⟩
    rcases List.mem_append.mp ht with ht | ht
    · exact shaped_flush h t ht
    · rw [List.mem_singleton.mp ht]
      trivial
  | starSlash hc => exact ⟨by simp, trivial⟩
  | reopen hc =>
    refine ⟨List.forall_mem_cons.mpr ⟨⟨rfl, rfl⟩, ?_⟩, hnone⟩
    exact List.forall_mem_cons.mpr ⟨trivial, by simp⟩
  | closeBlock hc => exact ⟨List.forall_mem_cons.mpr ⟨trivial, by simp⟩, hnone⟩
  | endLine text hc => exact ⟨hline h, hnone⟩
  | breakLiteral quote escaped text hc => exact ⟨hline h, hnone⟩
  | lineComment text hc =>
    refine ⟨by simp, ?_, by simp [h.2, Ne.symm hc]⟩
    rw [List.reverse_cons]
    exact h.1.trans (List.prefix_append _ _)
  | escape quote text hc =>
    -- A backslash is no quote, so it does not close the literal.
    have hquote : c ≠ quote := by
      rintro rfl
      exact absurd (hc ▸ h.1) (by decide)
    have hlonger := shaped_literal_cons h (c := c) (by simp [hc]) (fun heq => absurd heq hquote)
    exact ⟨by simp, by simpa [hc] using hlonger⟩
  | closeLiteral text hc =>
    obtain ⟨hquote, inner, htext, hopen, hescapes⟩ := h
    refine ⟨List.forall_mem_cons.mpr ⟨⟨c, inner, hquote, hopen, .inr ⟨?_, hescapes⟩⟩, by simp⟩, hnone⟩
    rw [List.reverse_cons, htext]
    rfl
  | literal quote escaped text hc hescape hclose =>
    have hlonger := shaped_literal_cons h hc hclose
    have hback : (c = '\\' && !escaped) = false := by simpa using hescape
    rw [hback] at hlonger
    exact ⟨by simp, hlonger⟩

theorem shaped_run {mode : Mode} (h : mode.Shaped) (text : Text) : ∀ t ∈ (run mode text).1, t.Shaped := by
  induction text generalizing mode with
  | nil => exact shaped_finish h
  | cons c text ih =>
    obtain ⟨hcompleted, hmode⟩ := shapedStep_step h c
    exact fun t ht => (List.mem_append.mp ht).elim (hcompleted t) (ih hmode t)

end Lexer

theorem shaped_tokenize (inComment : Bool) (text : Text) : ∀ t ∈ (tokenize inComment text).1, t.Shaped :=
  Lexer.shaped_run (Lexer.shaped_start inComment) text

/-- Whether a literal has the quote that closes it; every other token is complete. -/
def Token.isClosed : Token → Bool
  | .literal (quote :: rest) => rest.getLast? = some quote && !Text.escapes rest.dropLast
  | .literal [] => false
  | _ => true

theorem lineComment_not_mem_dropComments (inside : Bool) (text : Text) (ts : List Token) :
    .lineComment text ∉ dropComments inside ts := by
  induction ts generalizing inside with
  | nil => simp [dropComments]
  | cons t ts ih =>
    cases inside with
    | true => exact ih _
    | false =>
      cases t with
      | commentOpen => exact ih true
      | lineComment _ => exact ih false
      | _ => exact fun h => ih false (List.mem_of_ne_of_mem (by simp) h)

/-- Among tokens without line comments and open literals, only a semicolon ends in a semicolon. -/
theorem Token.eq_semicolon_of_getLast? {t : Token} (hshaped : t.Shaped) (hclosed : t.isClosed)
    (hline : ∀ text, t ≠ .lineComment text) (h : t.text.getLast? = some ';') : t = .delimiter ';' := by
  cases t with
  | word text => exact absurd (hshaped.2 ';' (List.mem_of_getLast? h)) (by decide)
  | delimiter c => simpa [Token.text] using h
  | space c =>
    obtain rfl : c = ';' := by simpa [Token.text] using h
    exact absurd (show OutOfLine.isSpace ';' from hshaped) (by decide)
  | lineComment text => exact absurd rfl (hline text)
  | commentOpen => simp [Token.text] at h
  | commentClose => simp [Token.text] at h
  | literal text =>
    obtain ⟨quote, inner, hquote, -, htext⟩ := hshaped
    obtain ⟨rest, rfl⟩ : ∃ rest, text = quote :: rest := by
      rcases htext with rfl | ⟨rfl, -⟩ <;> exact ⟨_, rfl⟩
    simp only [Token.isClosed, Bool.and_eq_true, decide_eq_true_eq] at hclosed
    rw [Token.text, List.getLast?_cons, hclosed.1] at h
    obtain rfl : quote = ';' := Option.some.inj h
    exact absurd hquote (by decide)

end OutOfLine

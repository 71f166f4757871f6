import OutOfLine.Parameters
import OutOfLine.Proofs.SeparatedText

/-!
# Parameter lists without default values

A text without quotes and comments is read in code from its first character to its last, so that it may be
divided at any character that has no part in a comment marker, and its brackets are those of its
characters. Spacing the commas of a parameter list anew therefore leaves it closed and balanced.
-/

namespace OutOfLine
namespace Lexer

/-- The mode without the word it holds. -/
def Mode.bare : Mode → Mode
  | .code _ => .code []
  | .slash _ => .slash []
  | mode => mode

/-- Whether a text is read in code from its first character to its last. -/
def staysInCode (mode : Mode) : Text → Bool
  | [] => mode.inCode
  | c :: cs => mode.inCode && staysInCode (step mode c).2 cs

@[simp] theorem inCode_bare (mode : Mode) : mode.bare.inCode = mode.inCode := by cases mode <;> rfl

theorem bare_readCode {c : Char} (hc : isQuote c = false) (word word' : Text) :
    (readCode word c).2.bare = (readCode word' c).2.bare := by
  simp only [readCode, hc, Bool.false_and, Bool.false_eq_true, if_false]
  split_ifs <;> rfl

/-- The word held does not matter to what follows it, quotes apart. -/
theorem bare_step {c : Char} (hc : isQuote c = false) (mode : Mode) :
    (step mode c).2.bare = (step mode.bare c).2.bare := by
  cases mode with
  | code word => exact bare_readCode hc word []
  | slash word =>
    simp only [step, Mode.bare]
    split_ifs
    · rfl
    · rfl
    · exact bare_readCode hc _ _
  | _ => rfl

theorem staysInCode_bare {t : Text} (h : ∀ c ∈ t, isQuote c = false) (mode : Mode) :
    staysInCode mode t = staysInCode mode.bare t := by
  induction t generalizing mode with
  | nil => exact (inCode_bare mode).symm
  | cons c t ih =>
    rw [List.forall_mem_cons] at h
    rw [staysInCode, staysInCode, inCode_bare, ih h.2, bare_step h.1, ← ih h.2]

theorem staysInCode_append (mode : Mode) (a b : Text) :
    staysInCode mode (a ++ b) = (staysInCode mode a && staysInCode (read mode a).2 b) := by
  induction a generalizing mode with
  | nil =>
    have hstart : staysInCode mode b = (mode.inCode && staysInCode mode b) := by
      cases b <;> simp [staysInCode]
    exact hstart
  | cons c a ih =>
    rw [List.cons_append, staysInCode, ih, staysInCode, Bool.and_assoc]
    rfl

theorem inCode_of_staysInCode {mode : Mode} {t : Text} (h : staysInCode mode t) :
    (read mode t).2.inCode := by
  have happend := staysInCode_append mode t []
  rw [List.append_nil, h, Bool.true_and] at happend
  exact happend.symm

/-- A character that has no part in a comment marker and opens no literal. -/
def isNeutral (c : Char) : Bool := c != '/' && c != '*' && !isQuote c

theorem isQuote_of_isNeutral {c : Char} (hc : isNeutral c) : isQuote c = false := by
  simp only [isNeutral, Bool.and_eq_true, Bool.not_eq_true'] at hc
  exact hc.2

theorem bare_readCode_neutral {c : Char} (hc : isNeutral c) (word : Text) :
    (readCode word c).2.bare = .code [] := by
  simp only [isNeutral, Bool.and_eq_true, bne_iff_ne, Bool.not_eq_true'] at hc
  simp only [readCode, hc.1.1, hc.1.2, hc.2, Bool.false_and, Bool.false_eq_true, if_false]
  split_ifs <;> rfl

theorem bare_step_neutral {mode : Mode} {c : Char} (hm : mode.inCode) (hc : isNeutral c) :
    (step mode c).2.bare = .code [] := by
  have hread := bare_readCode_neutral hc
  simp only [isNeutral, Bool.and_eq_true, bne_iff_ne] at hc
  cases mode with
  | code word => exact hread word
  | slash word => simpa [step, hc.1.1, hc.1.2] using hread ('/' :: word)
  | star => simpa [step, hc.1.1, after] using hread []
  | starSlash => simpa [step, hc.1.2, after] using hread []
  | _ => simp [Mode.inCode, Mode.verbatim, Mode.inComment] at hm

/-- A text may be divided at a neutral character. -/
theorem staysInCode_neutral {mode : Mode} {a b : Text} {c : Char} (hc : isNeutral c)
    (hb : ∀ d ∈ b, isQuote d = false) :
    staysInCode mode (a ++ c :: b) = (staysInCode mode a && staysInCode (.code []) b) := by
  rw [staysInCode_append]
  cases ha : staysInCode mode a with
  | false => rfl
  | true =>
    have hmode := inCode_of_staysInCode ha
    rw [staysInCode, hmode, Bool.true_and, staysInCode_bare hb, bare_step_neutral hmode hc]

/-- Code is left for a comment, quotes apart. -/
theorem inCode_step {mode : Mode} {c : Char} (hm : mode.inCode) (hc : isQuote c = false) :
    (step mode c).2.inCode ∨ .commentOpen ∈ (step mode c).1 ∨ ∃ text, (step mode c).2 = .lineComment text := by
  have hread (word : Text) : (readCode word c).2.inCode := by
    simp only [readCode, hc, Bool.false_and, Bool.false_eq_true, if_false]
    split_ifs <;> rfl
  have hmove := move_step mode c
  generalize step mode c = result at hmove ⊢
  cases hmove with
  | code word => exact .inl (hread word)
  | slash word => exact .inl (hread _)
  | star => exact .inl (hread [])
  | strayClose => exact .inl (hread [])
  | openLine word hline => exact .inr (.inr ⟨_, rfl⟩)
  | openBlock word hblock => exact .inr (.inl (by simp))
  | starSlash hslash => exact .inl rfl
  | reopen hblock => exact .inr (.inl (by simp))
  | _ => simp [Mode.inCode, Mode.verbatim, Mode.inComment] at hm

theorem staysInCode_of_plain {mode : Mode} {t : Text} (hm : mode.inCode) (hquote : ∀ c ∈ t, isQuote c = false)
    (hplain : ∀ token ∈ (run mode t).1, token.opensComment = false) : staysInCode mode t := by
  induction t generalizing mode with
  | nil => exact hm
  | cons c t ih =>
    rw [List.forall_mem_cons] at hquote
    rw [run] at hplain
    have hrest : ∀ token ∈ (run (step mode c).2 t).1, token.opensComment = false :=
      fun token htoken => hplain token (List.mem_append_right _ htoken)
    rw [staysInCode, hm, Bool.true_and]
    rcases inCode_step hm hquote.1 with hcode | hopen | ⟨text, hline⟩
    · exact ih hcode hquote.2 hrest
    · simpa [Token.opensComment] using hplain _ (List.mem_append_left _ hopen)
    · obtain ⟨comment, hcomment⟩ := exists_lineComment_mem_run text t
      rw [hline] at hrest
      simpa [Token.opensComment] using hrest _ hcomment

theorem opensComment_flush (word : Text) : ∀ token ∈ flush word, token.opensComment = false := by
  unfold flush
  split <;> simp [Token.opensComment]

/-- A step from code to code opens no comment. -/
theorem opensComment_step {mode : Mode} {c : Char} (hm : mode.inCode) (hnext : (step mode c).2.inCode) :
    ∀ token ∈ (step mode c).1, token.opensComment = false := by
  have hread (word : Text) : ∀ token ∈ (readCode word c).1, token.opensComment = false := by
    have hflush := opensComment_flush word
    have hread := reads_readCode word c
    generalize readCode word c = result at hread ⊢
    cases hread with
    | slash hc => simp
    | star hc => exact hflush
    | quote hc => exact hflush
    | delimiter hc => simpa [or_imp, forall_and] using hflush
    | word hc => simp
  have hmove := move_step mode c
  generalize step mode c = result at hmove hnext ⊢
  cases hmove with
  | code word => exact hread word
  | slash word => exact hread _
  | star => simpa [after, Token.opensComment] using hread []
  | strayClose => simpa [after, Token.opensComment] using hread []
  | openLine word hc => simp [Mode.inCode, Mode.verbatim] at hnext
  | openBlock word hc => simp [Mode.inCode, Mode.inComment] at hnext
  | starSlash hc => simp
  | reopen hc => simp [Mode.inCode, Mode.inComment] at hnext
  | _ => simp [Mode.inCode, Mode.verbatim, Mode.inComment] at hm

theorem plain_of_staysInCode {mode : Mode} {t : Text} (h : staysInCode mode t) :
    ∀ token ∈ (run mode t).1, token.opensComment = false := by
  induction t generalizing mode with
  | nil =>
    have hmode : mode.inCode := h
    rw [run]
    cases mode with
    | code word => exact opensComment_flush word
    | slash word => exact opensComment_flush ('/' :: word)
    | star => simp [Mode.finish, Token.opensComment]
    | starSlash => simp [Mode.finish, Token.opensComment]
    | _ => simp [Mode.inCode, Mode.verbatim, Mode.inComment] at hmode
  | cons c t ih =>
    rw [staysInCode, Bool.and_eq_true] at h
    have hnext : (step mode c).2.inCode := by
      have hrest := h.2
      cases t with
      | nil => exact hrest
      | cons d t => exact (Bool.and_eq_true _ _ ▸ hrest).1
    rw [run]
    intro token htoken
    rcases List.mem_append.mp htoken with htoken | htoken
    · exact opensComment_step h.1 hnext token htoken
    · exact ih h.2 token htoken

/-- Brackets are counted alike among the tokens and among the characters of a text. -/
theorem after_run {opener closer : Char} (hopen : isPlain opener) (hclose : isPlain closer) {mode : Mode}
    {t : Text} (h : staysInCode mode t) (depth : Nat) :
    Brackets.after opener closer depth (run mode t).1 =
      Brackets.after opener closer depth (t.map Token.delimiter) := by
  induction t generalizing mode depth with
  | nil => exact Brackets.after_of_not_mem (not_mem_finish hopen mode) (not_mem_finish hclose mode)
  | cons c t ih =>
    rw [staysInCode, Bool.and_eq_true] at h
    have hstep : Brackets.after opener closer depth (step mode c).1 =
        Brackets.after opener closer depth [.delimiter c] := by
      by_cases hc : c = opener ∨ c = closer
      · have hplain : isPlain c := by rcases hc with rfl | rfl <;> assumption
        have hverbatim : mode.verbatim = false := by
          have hmode := h.1
          simp only [Mode.inCode, Bool.and_eq_true, Bool.not_eq_true'] at hmode
          exact hmode.1
        rw [step_plain hverbatim hplain, Brackets.after_append,
          Brackets.after_of_not_mem (not_mem_finish hopen mode) (not_mem_finish hclose mode)]
        rfl
      · rw [not_or] at hc
        rw [Brackets.after_of_not_mem (fun hmem => hc.1 (eq_of_mem_step hopen hmem).1)
          (fun hmem => hc.2 (eq_of_mem_step hclose hmem).1),
          Brackets.after_of_not_mem (by simpa using Ne.symm hc.1) (by simpa using Ne.symm hc.2)]
    have hcons : (c :: t).map Token.delimiter = [.delimiter c] ++ t.map Token.delimiter := rfl
    rw [run, hcons, Brackets.after_append, Brackets.after_append, hstep]
    exact congrArg _ (funext fun depth => ih h.2 depth)

end Lexer

namespace Text

variable {t : Text}

theorem closed_iff_staysInCode (h : ∀ c ∈ t, Lexer.isQuote c = false) :
    t.Closed ↔ Lexer.staysInCode (.code []) t :=
  ⟨fun ht => Lexer.staysInCode_of_plain rfl h ht.plain,
    fun ht => ⟨Lexer.inCode_of_staysInCode ht, Lexer.plain_of_staysInCode ht⟩⟩

theorem isBlank_iff_ink {t : Text} : t.isBlank ↔ t.ink = [] := by
  rw [ink_eq_nil_iff, isBlank, List.all_eq_true]

/-- Blanks are no brackets. -/
theorem after_ink {opener closer : Char} (hopen : ¬ isBlankChar opener) (hclose : ¬ isBlankChar closer)
    (t : Text) (depth : Nat) :
    Brackets.after opener closer depth (t.ink.map Token.delimiter) =
      Brackets.after opener closer depth (t.map Token.delimiter) := by
  induction t generalizing depth with
  | nil => rfl
  | cons c t ih =>
    have hcons : (c :: t).map Token.delimiter = [.delimiter c] ++ t.map Token.delimiter := rfl
    by_cases hc : isBlankChar c
    · have hne (d : Char) (hd : ¬ isBlankChar d) : Token.delimiter d ∉ [Token.delimiter c] := by
        rw [List.mem_singleton, Token.delimiter.injEq]
        rintro rfl
        exact hd hc
      rw [ink_cons, if_pos hc, ih, hcons, Brackets.after_append,
        Brackets.after_of_not_mem (hne opener hopen) (hne closer hclose)]
      rfl
    · rw [ink_cons, if_neg hc, hcons, List.map_cons, ← List.singleton_append, Brackets.after_append,
        Brackets.after_append]
      exact congrArg _ (funext fun depth => ih depth)

theorem isNeutral_of_blank {c : Char} (h : isBlankChar c) : Lexer.isNeutral c := by
  have hne (d : Char) (hd : ¬ isBlankChar d) : c ≠ d := by
    rintro rfl
    exact hd h
  simp [Lexer.isNeutral, Lexer.isQuote, hne '/' (by decide), hne '*' (by decide), hne '"' (by decide),
    hne '\'' (by decide)]

theorem staysInCode_neutrals {w : Text} (hw : ∀ c ∈ w, Lexer.isNeutral c)
    (ht : ∀ c ∈ t, Lexer.isQuote c = false) :
    Lexer.staysInCode (.code []) (w ++ t) = Lexer.staysInCode (.code []) t := by
  induction w with
  | nil => rfl
  | cons c w ih =>
    rw [List.forall_mem_cons] at hw
    have hquote : ∀ d ∈ w ++ t, Lexer.isQuote d = false := by
      intro d hd
      rcases List.mem_append.mp hd with hd | hd
      · exact Lexer.isQuote_of_isNeutral (hw.2 d hd)
      · exact ht d hd
    have hcut : Lexer.staysInCode (.code []) (c :: (w ++ t)) =
        (Lexer.staysInCode (.code []) [] && Lexer.staysInCode (.code []) (w ++ t)) :=
      Lexer.staysInCode_neutral (a := []) hw.1 hquote
    exact hcut.trans ((Bool.true_and _).trans (ih hw.2))

theorem staysInCode_trim (hquote : ∀ c ∈ t, Lexer.isQuote c = false) (h : Lexer.staysInCode (.code []) t) :
    Lexer.staysInCode (.code []) t.trim := by
  obtain ⟨w, w', ht, hw, -⟩ := exists_trim t
  have hsub : ∀ c ∈ t.trim ++ w', Lexer.isQuote c = false := by
    intro c hc
    refine hquote c ?_
    rw [ht]
    exact List.mem_append_right _ hc
  rw [ht, staysInCode_neutrals (fun c hc => isNeutral_of_blank (hw c hc)) hsub, Lexer.staysInCode_append,
    Bool.and_eq_true] at h
  exact h.1

/-- Texts are read in code one by one when neutral characters stand between them. -/
theorem staysInCode_join {separator : Text} (hne : separator ≠ []) (hsep : ∀ c ∈ separator, Lexer.isNeutral c)
    {parts : List Text} (hquote : ∀ part ∈ parts, ∀ c ∈ part, Lexer.isQuote c = false) :
    Lexer.staysInCode (.code []) (join separator parts) = parts.all (Lexer.staysInCode (.code [])) := by
  induction parts with
  | nil => rfl
  | cons part parts ih =>
    rw [List.forall_mem_cons] at hquote
    cases parts with
    | nil => simp [join, List.intercalate]
    | cons next parts =>
      obtain ⟨c, more, rfl⟩ := List.exists_cons_of_ne_nil hne
      rw [List.forall_mem_cons] at hsep
      have hrest : ∀ d ∈ join (c :: more) (next :: parts), Lexer.isQuote d = false := by
        intro d hd
        rcases mem_join hd with ⟨p, hp, hdp⟩ | hd
        · exact hquote.2 p hp d hdp
        · rcases List.mem_cons.mp hd with rfl | hd
          · exact Lexer.isQuote_of_isNeutral hsep.1
          · exact Lexer.isQuote_of_isNeutral (hsep.2 d hd)
      have hmore : ∀ d ∈ more ++ join (c :: more) (next :: parts), Lexer.isQuote d = false := by
        intro d hd
        rcases List.mem_append.mp hd with hd | hd
        · exact Lexer.isQuote_of_isNeutral (hsep.2 d hd)
        · exact hrest d hd
      rw [join_cons_cons, List.append_assoc, List.cons_append, Lexer.staysInCode_neutral hsep.1 hmore,
        staysInCode_neutrals hsep.2 hrest, ih hquote.2]
      rfl

end Text

namespace Nesting

/-- Outside literals. -/
def unquoted (n : Nesting) : Bool := n.quote.isNone && !n.escaped

variable {n : Nesting} {c : Char}

theorem unquoted_step (hn : n.unquoted) (hc : Lexer.isQuote c = false) : (n.step c).unquoted := by
  simp only [unquoted, Bool.and_eq_true, Option.isNone_iff_eq_none, Bool.not_eq_true'] at hn ⊢
  have hquote : ¬ (c = '"' ∨ c = '\'') := by simpa [Lexer.isQuote] using hc
  rw [step, hn.1]
  simp only [if_neg hquote]
  split_ifs <;> simp [hn]

theorem unquoted_foldl {t : Text} (hn : n.unquoted) (ht : ∀ c ∈ t, Lexer.isQuote c = false) :
    (t.foldl step n).unquoted := by
  induction t generalizing n with
  | nil => exact hn
  | cons c t ih =>
    rw [List.forall_mem_cons] at ht
    exact ih (unquoted_step hn ht.1) ht.2

theorem step_blank (hn : n.unquoted) (hc : isBlankChar c) : n.step c = n := by
  simp only [unquoted, Bool.and_eq_true, Option.isNone_iff_eq_none] at hn
  have hall : (['"', '\''] ++ ['<', '(', '{', '['] ++ ['>', ')', '}', ']']).all (!isBlankChar ·) := by decide
  rw [List.all_eq_true] at hall
  have hmem (d : Char) (hd : d ∈ ['"', '\''] ++ ['<', '(', '{', '['] ++ ['>', ')', '}', ']']) : c ≠ d := by
    rintro rfl
    simpa [hc] using hall c hd
  have hquote : ¬ (c = '"' ∨ c = '\'') := by
    rintro (h | h) <;> exact hmem _ (by simp) h
  have hopen : c ∉ ['<', '(', '{', '['] := fun h =>
    hmem c (List.mem_append_left _ (List.mem_append_right _ h)) rfl
  have hclose : c ∉ ['>', ')', '}', ']'] := fun h => hmem c (List.mem_append_right _ h) rfl
  rw [step, hn.1]
  simp only [if_neg hquote, if_neg hopen, if_neg hclose]

theorem foldl_blank {w : Text} (hn : n.unquoted) (hw : ∀ c ∈ w, isBlankChar c) : w.foldl step n = n := by
  induction w with
  | nil => rfl
  | cons c w ih =>
    rw [List.forall_mem_cons] at hw
    rw [List.foldl_cons, step_blank hn hw.1, ih hw.2]

/-- A backslash escapes something in a literal only. -/
def Regular (n : Nesting) : Prop := n.quote = none → n.escaped = false

theorem regular_start : Regular {} := fun _ => rfl

theorem Regular.step {n : Nesting} (h : n.Regular) (c : Char) : (n.step c).Regular := by
  obtain ⟨depth, quote, escaped⟩ := n
  cases quote with
  | none =>
    obtain rfl : escaped = false := h rfl
    simp only [Nesting.step]
    split_ifs <;> simp [Regular]
  | some quote =>
    cases escaped with
    | true => simp [Nesting.step, Regular]
    | false =>
      simp only [Nesting.step, Bool.false_eq_true, if_false]
      split_ifs <;> simp [Regular]

theorem Regular.foldl {n : Nesting} (h : n.Regular) (t : Text) : (t.foldl Nesting.step n).Regular := by
  induction t generalizing n with
  | nil => exact h
  | cons c t ih => exact ih (h.step c)

theorem Regular.eq_of_isTop {n : Nesting} (h : n.Regular) (htop : n.isTop) : n = {} := by
  obtain ⟨depth, quote, escaped⟩ := n
  simp only [isTop, Bool.and_eq_true, beq_iff_eq, Option.isNone_iff_eq_none] at htop
  obtain ⟨rfl, rfl⟩ := htop
  obtain rfl : escaped = false := h rfl
  rfl

end Nesting

namespace Parameters

/-- The pieces, with the mark between them, spell the text. -/
theorem join_pieces (mark : Char) (n : Nesting) (t : Text) :
    Text.join [mark] ((pieces mark n t).1 :: (pieces mark n t).2) = t := by
  have hcons (c : Char) (first : Text) (rest : List Text) :
      Text.join [mark] ((c :: first) :: rest) = c :: Text.join [mark] (first :: rest) := by
    cases rest with
    | nil => simp [Text.join, List.intercalate]
    | cons next rest => simp [Text.join_cons_cons]
  induction t generalizing n with
  | nil => rfl
  | cons c t ih =>
    rw [pieces]
    split
    · next hc =>
      simp only [Bool.and_eq_true, beq_iff_eq] at hc
      rw [Text.join_cons_cons, ih, hc.2]
      rfl
    · rw [hcons, ih]

theorem pieces_of_not_mem {mark : Char} {t : Text} (h : mark ∉ t) (n : Nesting) : pieces mark n t = (t, []) := by
  induction t generalizing n with
  | nil => rfl
  | cons c t ih =>
    rw [List.mem_cons, not_or] at h
    simp [pieces, ih h.2, Ne.symm h.1]

theorem stripDefault_of_not_mem {t : Text} (h : '=' ∉ t) : stripDefault t = t := by
  rw [stripDefault, pieces_of_not_mem h]

theorem subset_of_mem_split {list parameter : Text} (h : parameter ∈ split list) : parameter ⊆ list := by
  rw [split] at h
  split at h
  · simp at h
  · obtain ⟨piece, hpiece, rfl⟩ := List.mem_map.mp h
    intro c hc
    rw [← join_pieces ',' {} list]
    exact Text.mem_join_of_mem hpiece (piece.trim_subset hc)

/-- The pieces between the commas of a list without quotes have none. -/
theorem unquoted_pieces {list : Text} (hquote : ∀ c ∈ list, Lexer.isQuote c = false) :
    ∀ piece ∈ (pieces ',' {} list).1 :: (pieces ',' {} list).2, ∀ c ∈ piece, Lexer.isQuote c = false := by
  intro piece hpiece c hc
  refine hquote c ?_
  rw [← join_pieces ',' {} list]
  exact Text.mem_join_of_mem hpiece hc

section

variable {list : Text} (hassign : '=' ∉ list)

include hassign

/-- Without default values only the commas are spaced anew. -/
theorem stripDefaults_eq : stripDefaults list = Text.join [',', ' '] (split list) := by
  have hmap : (split list).map stripDefault = (split list).map id :=
    List.map_congr_left fun parameter hparameter =>
      stripDefault_of_not_mem fun hmem => hassign (subset_of_mem_split hparameter hmem)
  rw [stripDefaults, hmap, List.map_id]

theorem ink_stripDefaults : (stripDefaults list).ink = list.ink := by
  rw [stripDefaults_eq hassign, split]
  split
  · next hblank =>
    have hall : ∀ c ∈ list, isBlankChar c := by simpa [Text.isBlank] using hblank
    rw [Text.ink_eq_nil_iff.mpr hall]
    rfl
  · have hcomma : Text.ink [',', ' '] = Text.ink [','] := by decide
    have htrim : Text.ink ∘ Text.trim = Text.ink := funext Text.ink_trim
    rw [Text.ink_join_map, hcomma, List.map_map, htrim, ← Text.ink_join_map, join_pieces]

variable (hquote : ∀ c ∈ list, Lexer.isQuote c = false)

include hquote

theorem unquoted_stripDefaults : ∀ c ∈ stripDefaults list, Lexer.isQuote c = false := by
  intro c hc
  by_cases hblank : isBlankChar c
  · exact Lexer.isQuote_of_isNeutral (Text.isNeutral_of_blank hblank)
  · have hink : c ∈ (stripDefaults list).ink := List.mem_filter.mpr ⟨hc, by simp [hblank]⟩
    rw [ink_stripDefaults hassign] at hink
    exact hquote c (List.mem_filter.mp hink).1

theorem closed_stripDefaults (h : list.Closed) : (stripDefaults list).Closed := by
  have hcode := (Text.closed_iff_staysInCode hquote).mp h
  have hunquoted := unquoted_stripDefaults hassign hquote
  rw [Text.closed_iff_staysInCode hunquoted, stripDefaults_eq hassign]
  have hsplit : ∀ parameter ∈ split list, ∀ c ∈ parameter, Lexer.isQuote c = false :=
    fun parameter hparameter c hc => hquote c (subset_of_mem_split hparameter hc)
  rw [Text.staysInCode_join (by simp) (List.all_eq_true.mp (by decide)) hsplit, List.all_eq_true, split]
  split
  · simp
  · intro parameter hparameter
    obtain ⟨piece, hpiece, rfl⟩ := List.mem_map.mp hparameter
    have hpieces := unquoted_pieces hquote
    rw [← join_pieces ',' {} list,
      Text.staysInCode_join (by simp) (List.all_eq_true.mp (by decide)) hpieces, List.all_eq_true] at hcode
    exact Text.staysInCode_trim (hpieces piece hpiece) (hcode piece hpiece)

theorem balanced_stripDefaults (h : list.Closed) (hbalanced : Brackets.Balanced '(' ')' list.code) :
    Brackets.Balanced '(' ')' (stripDefaults list).code := by
  have hafter {t : Text} (hclosed : t.Closed) (ht : ∀ c ∈ t, Lexer.isQuote c = false) :
      Brackets.after '(' ')' 1 t.code = Brackets.after '(' ')' 1 (t.ink.map Token.delimiter) := by
    rw [hclosed.code_eq, Lexer.after_run (by decide) (by decide) ((Text.closed_iff_staysInCode ht).mp hclosed),
      Text.after_ink (by decide) (by decide)]
  have hstripped := hafter (closed_stripDefaults hassign hquote h) (unquoted_stripDefaults hassign hquote)
  rw [Brackets.Balanced, hstripped, ink_stripDefaults hassign, ← hafter h hquote]
  exact hbalanced

end

theorem pieces_cons_eq_self_iff {mark : Char} {n : Nesting} {c : Char} {t : Text} :
    pieces mark n (c :: t) = (c :: t, []) ↔
      (n.isTop && c == mark) = false ∧ pieces mark (n.step c) t = (t, []) := by
  rw [pieces]
  cases htop : n.isTop && c == mark with
  | true => simp
  | false => simp [Prod.ext_iff]

theorem pieces_append_eq_self_iff {mark : Char} {n : Nesting} {a b : Text} :
    pieces mark n (a ++ b) = (a ++ b, []) ↔
      pieces mark n a = (a, []) ∧ pieces mark (a.foldl Nesting.step n) b = (b, []) := by
  induction a generalizing n with
  | nil => exact (and_iff_right (show pieces mark n [] = ([], []) from rfl)).symm
  | cons c a ih =>
    rw [List.cons_append, pieces_cons_eq_self_iff, ih, pieces_cons_eq_self_iff, and_assoc, List.foldl_cons]

/-- No comma stands outside brackets. -/
def Whole (n : Nesting) (t : Text) : Prop := pieces ',' n t = (t, [])

theorem whole_cons {n : Nesting} {c : Char} {t : Text} :
    Whole n (c :: t) ↔ (n.isTop && c == ',') = false ∧ Whole (n.step c) t :=
  pieces_cons_eq_self_iff

theorem whole_append {n : Nesting} {a b : Text} :
    Whole n (a ++ b) ↔ Whole n a ∧ Whole (a.foldl Nesting.step n) b :=
  pieces_append_eq_self_iff

theorem pieces_whole_append {n : Nesting} {a : Text} (ha : Whole n a) (hend : a.foldl Nesting.step n = {})
    (b : Text) : pieces ',' n (a ++ ',' :: b) = (a, (pieces ',' {} b).1 :: (pieces ',' {} b).2) := by
  induction a generalizing n with
  | nil =>
    obtain rfl : n = {} := hend
    rfl
  | cons c a ih =>
    rw [whole_cons] at ha
    rw [List.cons_append, pieces, ih ha.2 hend]
    simp [ha.1]

/-- Texts without a comma outside brackets, their brackets closed except in the last one. -/
def Parted : Nesting → Text → List Text → Prop
  | n, first, [] => Whole n first
  | n, first, next :: rest => (Whole n first ∧ first.foldl Nesting.step n = {}) ∧ Parted {} next rest

theorem Parted.cons {n : Nesting} {c : Char} {first : Text} {rest : List Text}
    (hc : (n.isTop && c == ',') = false) (h : Parted (n.step c) first rest) : Parted n (c :: first) rest := by
  cases rest with
  | nil => exact whole_cons.mpr ⟨hc, h⟩
  | cons next rest => exact ⟨⟨whole_cons.mpr ⟨hc, h.1.1⟩, h.1.2⟩, h.2⟩

theorem parted_pieces {n : Nesting} (hn : n.Regular) (t : Text) :
    Parted n (pieces ',' n t).1 (pieces ',' n t).2 := by
  induction t generalizing n with
  | nil => exact rfl
  | cons c t ih =>
    have hrest := ih (hn.step c)
    rw [pieces]
    cases hc : n.isTop && c == ',' with
    | false => exact hrest.cons hc
    | true =>
      simp only [Bool.and_eq_true, beq_iff_eq] at hc
      obtain rfl := hn.eq_of_isTop hc.1
      obtain rfl := hc.2
      exact ⟨⟨rfl, rfl⟩, hrest⟩

theorem whole_trim {t : Text} (ht : ∀ c ∈ t, Lexer.isQuote c = false) (h : Whole {} t) :
    Whole {} t.trim ∧ t.trim.foldl Nesting.step {} = t.foldl Nesting.step {} := by
  obtain ⟨w, w', hparts, hw, hw'⟩ := Text.exists_trim t
  have hstart : w.foldl Nesting.step {} = {} := Nesting.foldl_blank rfl hw
  have hend : (t.trim.foldl Nesting.step {}).unquoted :=
    Nesting.unquoted_foldl rfl fun c hc => ht c (t.trim_subset hc)
  have hfold : t.foldl Nesting.step {} = t.trim.foldl Nesting.step {} := by
    conv_lhs => rw [hparts]
    rw [List.foldl_append, List.foldl_append, hstart, Nesting.foldl_blank hend hw']
  rw [hparts, whole_append, whole_append, hstart] at h
  exact ⟨h.2.1, hfold.symm⟩

theorem Parted.trim {first : Text} {rest : List Text}
    (hquote : ∀ t ∈ first :: rest, ∀ c ∈ t, Lexer.isQuote c = false) (h : Parted {} first rest) :
    Parted {} first.trim (rest.map Text.trim) := by
  induction rest generalizing first with
  | nil => exact (whole_trim (hquote first List.mem_cons_self) h).1
  | cons next rest ih =>
    rw [List.forall_mem_cons] at hquote
    obtain ⟨hwhole, hfold⟩ := whole_trim hquote.1 h.1.1
    exact ⟨⟨hwhole, hfold.trans h.1.2⟩, ih hquote.2 h.2⟩

theorem pieces_join {first : Text} {rest : List Text} (h : Parted {} first rest) :
    pieces ',' {} (Text.join [',', ' '] (first :: rest)) = (first, rest.map (' ' :: ·)) := by
  induction rest generalizing first with
  | nil =>
    have hjoin : Text.join [',', ' '] [first] = first := by simp [Text.join, List.intercalate]
    rw [hjoin]
    exact h
  | cons next rest ih =>
    have hspace (t : Text) : pieces ',' {} (' ' :: t) = (' ' :: (pieces ',' {} t).1, (pieces ',' {} t).2) := rfl
    rw [Text.join_cons_cons, List.append_assoc, List.cons_append, pieces_whole_append h.1.1 h.1.2]
    simp only [List.cons_append, List.nil_append, hspace, ih h.2, List.map_cons]

/-- A list without default values, once stripped, has the parameters it had. -/
theorem split_stripDefaults {list : Text} (hassign : '=' ∉ list)
    (hquote : ∀ c ∈ list, Lexer.isQuote c = false) :
    split (stripDefaults list) = split list := by
  have hblank : (stripDefaults list).isBlank = list.isBlank := by
    rw [Bool.eq_iff_iff, Text.isBlank_iff_ink, Text.isBlank_iff_ink, ink_stripDefaults hassign]
  rw [split, hblank, stripDefaults_eq hassign, split]
  cases hlist : list.isBlank with
  | true => rfl
  | false =>
    have hparted := (parted_pieces Nesting.regular_start list).trim (unquoted_pieces hquote)
    have hspace (t : Text) : Text.trim (' ' :: t) = t.trim :=
      Text.trim_blank_append (w := [' ']) (List.all_eq_true.mp (by decide)) t
    simp only [Bool.false_eq_true, if_false, List.map_cons, pieces_join hparted, List.map_map,
      Text.trim_trim]
    refine congrArg _ (List.map_congr_left fun t _ => ?_)
    simp only [Function.comp_apply, hspace, Text.trim_trim]

end Parameters
end OutOfLine

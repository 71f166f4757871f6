import OutOfLine.Code
import OutOfLine.Proofs.Lines

/-!
# Lexing in pieces

No character is lost by the lexer, a text can be lexed in two pieces, and a plain delimiter or a newline
always stands between two texts that are lexed apart. The lines of a document are therefore lexed as one
text in which every line ending is a newline.
-/

namespace OutOfLine
namespace Lexer

/-- In a line comment or a literal, where delimiters are ordinary characters. -/
def Mode.verbatim : Mode → Bool
  | .lineComment _ => true
  | .literal _ _ _ => true
  | _ => false

/-- In code, where the next delimiter is a token of its own. -/
def Mode.inCode (mode : Mode) : Bool := !mode.verbatim && !mode.inComment

/-- A delimiter that neither separates nor opens a literal nor belongs to a comment marker. -/
def isPlain (c : Char) : Bool := isDelimiter c && !isSpace c && !isQuote c && c != '*'

/-- The tokens completed by a text, and the mode after it. -/
def read (mode : Mode) : Text → List Token × Mode
  | [] => ([], mode)
  | c :: cs => after (step mode c).1 (read (step mode c).2 cs)

/-- What reading a character of code after a word can do. -/
inductive ReadsCode (word : Text) (c : Char) : List Token × Mode → Prop
  | slash (hc : c = '/') : ReadsCode word c ([], .slash word)
  | star (hc : c = '*') : ReadsCode word c (flush word, .star)
  | quote (hc : isQuote c) : ReadsCode word c (flush word, .literal c false [c])
  | delimiter (hc : isDelimiter c) : ReadsCode word c (flush word ++ [.ofDelimiter c], .code [])
  | word (hc : isDelimiter c = false) : ReadsCode word c ([], .code (c :: word))

theorem reads_readCode (word : Text) (c : Char) : ReadsCode word c (readCode word c) := by
  unfold readCode
  split_ifs with hslash hstar hquote hdelimiter
  · exact .slash hslash
  · exact .star hstar
  · exact .quote (Bool.and_eq_true _ _ ▸ hquote).1
  · exact .delimiter hdelimiter
  · exact .word (Bool.eq_false_iff.mpr hdelimiter)

/-- What reading a character of a block comment after a word can do. -/
inductive ReadsComment (word : Text) (c : Char) : List Token × Mode → Prop
  | star (hc : c = '*') : ReadsComment word c (flush word, .commentStar)
  | delimiter (hc : isDelimiter c) : ReadsComment word c (flush word ++ [.ofDelimiter c], .comment [])
  | word (hc : isDelimiter c = false) : ReadsComment word c ([], .comment (c :: word))

theorem reads_readComment (word : Text) (c : Char) : ReadsComment word c (readComment word c) := by
  unfold readComment
  split_ifs with hstar hdelimiter
  · exact .star hstar
  · exact .delimiter hdelimiter
  · exact .word (Bool.eq_false_iff.mpr hdelimiter)

/-- What a step can do. The facts about single steps are proved by cases on it. -/
inductive Move (c : Char) : Mode → List Token × Mode → Prop
  | code (word : Text) : Move c (.code word) (readCode word c)
  | openLine (word : Text) (hc : c = '/') : Move c (.slash word) (flush word, .lineComment ['/', '/'])
  | openBlock (word : Text) (hc : c = '*') : Move c (.slash word) (flush word ++ [.commentOpen], .comment [])
  | slash (word : Text) : Move c (.slash word) (readCode ('/' :: word) c)
  | starSlash (hc : c = '/') : Move c .star ([], .starSlash)
  | star : Move c .star (after [.delimiter '*'] (readCode [] c))
  -- The `/` of a `*/` outside comments opens a block comment with the `*` behind it.
  | reopen (hc : c = '*') : Move c .starSlash ([.delimiter '*', .commentOpen], .comment [])
  | strayClose : Move c .starSlash (after [.commentClose] (readCode [] c))
  | endLine (text : Text) (hc : c = '\n') :
    Move c (.lineComment text) ([.lineComment text.reverse, .newline], .code [])
  | lineComment (text : Text) (hc : c ≠ '\n') : Move c (.lineComment text) ([], .lineComment (c :: text))
  | breakLiteral (quote : Char) (escaped : Bool) (text : Text) (hc : c = '\n') :
    Move c (.literal quote escaped text) ([.literal text.reverse, .newline], .code [])
  | escape (quote : Char) (text : Text) (hc : c = '\\') :
    Move c (.literal quote false text) ([], .literal quote true (c :: text))
  | closeLiteral (text : Text) (hc : c ≠ '\n') :
    Move c (.literal c false text) ([.literal (c :: text).reverse], .code [])
  | literal (quote : Char) (escaped : Bool) (text : Text) (hc : c ≠ '\n') (hescape : c = '\\' → escaped)
      (hclose : c = quote → escaped) :
    Move c (.literal quote escaped text) ([], .literal quote false (c :: text))
  | comment (word : Text) : Move c (.comment word) (readComment word c)
  | closeBlock (hc : c = '/') : Move c .commentStar ([.commentClose], .code [])
  | commentStar : Move c .commentStar (after [.delimiter '*'] (readComment [] c))

private theorem move_literal (quote : Char) (escaped : Bool) (text : Text) (c : Char) :
    Move c (.literal quote escaped text) (step (.literal quote escaped text) c) := by
  simp only [step]
  cases escaped with
  | false =>
    split_ifs with hline hescape hclose
    · exact .breakLiteral quote false text hline
    · exact .escape quote text (by simpa using hescape)
    · obtain rfl : c = quote := by simpa using hclose
      exact .closeLiteral text hline
    · exact .literal quote false text hline (by simpa using hescape) (by simpa using hclose)
  | true =>
    simp only [Bool.not_true, Bool.and_false, Bool.false_eq_true, if_false]
    split_ifs with hline
    · exact .breakLiteral quote true text hline
    · exact .literal quote true text hline (fun _ => rfl) (fun _ => rfl)

theorem move_step (mode : Mode) (c : Char) : Move c mode (step mode c) := by
  cases mode with
  | code word => exact .code word
  | slash word =>
    simp only [step]
    split_ifs with hline hblock
    · exact .openLine word hline
    · exact .openBlock word hblock
    · exact .slash word
  | star =>
    simp only [step]
    split_ifs with hslash
    · exact .starSlash hslash
    · exact .star
  | starSlash =>
    simp only [step]
    split_ifs with hblock
    · exact .reopen hblock
    · exact .strayClose
  | lineComment text =>
    simp only [step]
    split_ifs with hline
    · exact .endLine text hline
    · exact .lineComment text hline
  | literal quote escaped text => exact move_literal quote escaped text c
  | comment word => exact .comment word
  | commentStar =>
    simp only [step]
    split_ifs with hslash
    · exact .closeBlock hslash
    · exact .commentStar

theorem run_eq_read (mode : Mode) (t : Text) :
    run mode t = ((read mode t).1 ++ (read mode t).2.finish, (read mode t).2.inComment) := by
  induction t generalizing mode with
  | nil => rfl
  | cons c cs ih => simp [run, read, after, ih]

theorem read_append (mode : Mode) (a b : Text) :
    read mode (a ++ b) = after (read mode a).1 (read (read mode a).2 b) := by
  induction a generalizing mode with
  | nil => rfl
  | cons c cs ih => simp [read, after, ih]

theorem run_append (mode : Mode) (a b : Text) :
    run mode (a ++ b) =
      ((read mode a).1 ++ (run (read mode a).2 b).1, (run (read mode a).2 b).2) := by
  simp [run_eq_read, read_append, after]

@[simp] theorem inComment_start (b : Bool) : (Mode.start b).inComment = b := by cases b <;> rfl

@[simp] theorem finish_start (b : Bool) : (Mode.start b).finish = [] := by cases b <;> rfl

@[simp] theorem concat_flush (word : Text) : Token.concat (flush word) = word.reverse := by
  unfold flush
  split
  · next h => simp [List.isEmpty_iff.mp h]
  · simp [Token.text]

private theorem concat_readCode (word : Text) (c : Char) :
    Token.concat (readCode word c).1 ++ Token.concat (readCode word c).2.finish =
      word.reverse ++ [c] := by
  have hread := reads_readCode word c
  generalize readCode word c = result at hread ⊢
  cases hread with
  | slash hc => simp [Mode.finish, hc]
  | star hc => simp [Mode.finish, Token.text, hc]
  | quote hc => simp [Mode.finish, Token.text]
  | delimiter hc => simp [Mode.finish]
  | word hc => simp [Mode.finish]

private theorem concat_readComment (word : Text) (c : Char) :
    Token.concat (readComment word c).1 ++ Token.concat (readComment word c).2.finish =
      word.reverse ++ [c] := by
  have hread := reads_readComment word c
  generalize readComment word c = result at hread ⊢
  cases hread with
  | star hc => simp [Mode.finish, Token.text, hc]
  | delimiter hc => simp [Mode.finish]
  | word hc => simp [Mode.finish]

/-- A step loses no character: what it yields and what it goes on holding is what was held before
and the character. -/
theorem concat_step (mode : Mode) (c : Char) :
    Token.concat (step mode c).1 ++ Token.concat (step mode c).2.finish =
      Token.concat mode.finish ++ [c] := by
  have hmove := move_step mode c
  generalize step mode c = result at hmove ⊢
  cases hmove with
  | code word => simpa [Mode.finish] using concat_readCode word c
  | slash word => simpa [Mode.finish] using concat_readCode ('/' :: word) c
  | star => simpa [Mode.finish, after, Token.text] using concat_readCode [] c
  | strayClose => simpa [Mode.finish, after, Token.text] using concat_readCode [] c
  | comment word => simpa [Mode.finish] using concat_readComment word c
  | commentStar => simpa [Mode.finish, after, Token.text] using concat_readComment [] c
  | openLine word hc => simp [Mode.finish, Token.text, hc]
  | openBlock word hc => simp [Mode.finish, Token.text, hc]
  | starSlash hc => simp [Mode.finish, Token.text, hc]
  | reopen hc => simp [Mode.finish, Token.text, hc]
  | endLine text hc => simp [Mode.finish, Token.text, Token.newline, hc]
  | breakLiteral quote escaped text hc => simp [Mode.finish, Token.text, Token.newline, hc]
  | closeBlock hc => simp [Mode.finish, Token.text, hc]
  | _ => simp [Mode.finish, Token.text]

/-- The tokens of a text, after what the mode holds, spell the text. -/
theorem concat_run (mode : Mode) (t : Text) :
    Token.concat (run mode t).1 = Token.concat mode.finish ++ t := by
  induction t generalizing mode with
  | nil => simp [run]
  | cons c cs ih =>
    rw [run, Token.concat_append, ih, ← List.append_assoc, concat_step]
    simp

/-- A newline completes whatever is held, also a line comment or a literal. -/
theorem step_newline (mode : Mode) :
    step mode '\n' = (mode.finish ++ [.newline], .start mode.inComment) := by
  cases mode <;> rfl

/-- A plain delimiter completes what is held and is a token of its own. -/
theorem step_plain {mode : Mode} {c : Char} (hm : mode.verbatim = false) (hc : isPlain c) :
    step mode c = (mode.finish ++ [.delimiter c], .start mode.inComment) := by
  simp only [isPlain, Bool.and_eq_true, Bool.not_eq_eq_eq_not, Bool.not_true, bne_iff_ne] at hc
  obtain ⟨⟨⟨hdelim, hspace⟩, hquote⟩, hstar⟩ := hc
  have htoken : Token.ofDelimiter c = .delimiter c := by simp [Token.ofDelimiter, hspace]
  have hslash : c ≠ '/' := by rintro rfl; revert hdelim; decide
  cases mode with
  | lineComment text => simp [Mode.verbatim] at hm
  | literal quote escaped text => simp [Mode.verbatim] at hm
  | code word => simp [step, readCode, hslash, hstar, hquote, hdelim, htoken, Mode.finish, Mode.inComment,
      Mode.start]
  | slash word => simp [step, readCode, hslash, hstar, hquote, hdelim, htoken, Mode.finish, Mode.inComment,
      Mode.start]
  | star => simp [step, readCode, after, hslash, hstar, hquote, hdelim, htoken, Mode.finish,
      Mode.inComment, Mode.start, flush]
  | starSlash => simp [step, readCode, after, hslash, hstar, hquote, hdelim, htoken, Mode.finish,
      Mode.inComment, Mode.start, flush]
  | comment word => simp [step, readComment, hstar, hdelim, htoken, Mode.finish, Mode.inComment, Mode.start]
  | commentStar => simp [step, readComment, after, hslash, hstar, hdelim, htoken, Mode.finish,
      Mode.inComment, Mode.start, flush]

theorem run_newline (mode : Mode) (a b : Text) :
    run mode (a ++ '\n' :: b) =
      ((run mode a).1 ++ .newline :: (run (.start (run mode a).2) b).1,
        (run (.start (run mode a).2) b).2) := by
  simp [run_append, run, step_newline, run_eq_read mode a]

/-- Text around a plain delimiter is lexed apart. -/
theorem run_plain {mode : Mode} {a : Text} {c : Char} (hm : (read mode a).2.verbatim = false)
    (hc : isPlain c) (b : Text) :
    run mode (a ++ c :: b) =
      ((run mode a).1 ++ .delimiter c :: (run (.start (run mode a).2) b).1,
        (run (.start (run mode a).2) b).2) := by
  simp [run_append, run, step_plain hm hc, run_eq_read mode a]

/-- A literal is opened by a quote. -/
def Mode.quoted : Mode → Bool
  | .literal quote _ _ => isQuote quote
  | _ => true

private theorem quoted_readCode (word : Text) (c : Char) : (readCode word c).2.quoted := by
  have hread := reads_readCode word c
  generalize readCode word c = result at hread ⊢
  cases hread with
  | quote hc => exact hc
  | _ => rfl

private theorem quoted_readComment (word : Text) (c : Char) : (readComment word c).2.quoted := by
  have hread := reads_readComment word c
  generalize readComment word c = result at hread ⊢
  cases hread <;> rfl

theorem quoted_step {mode : Mode} (h : mode.quoted) (c : Char) : (step mode c).2.quoted := by
  have hmove := move_step mode c
  generalize step mode c = result at hmove ⊢
  cases hmove with
  | code word => exact quoted_readCode word c
  | slash word => exact quoted_readCode ('/' :: word) c
  | star => exact quoted_readCode [] c
  | strayClose => exact quoted_readCode [] c
  | comment word => exact quoted_readComment word c
  | commentStar => exact quoted_readComment [] c
  | escape quote text hc => exact h
  | literal quote escaped text => exact h
  | _ => rfl

theorem quoted_read {mode : Mode} (h : mode.quoted) (t : Text) : (read mode t).2.quoted := by
  induction t generalizing mode with
  | nil => exact h
  | cons c cs ih => exact ih (quoted_step h c)

/-- No plain delimiter leads back to code. -/
theorem inCode_of_step_plain {mode : Mode} {c : Char} (hq : mode.quoted) (hc : isPlain c)
    (h : (step mode c).2.inCode) : mode.inCode := by
  cases hm : mode.verbatim with
  | false =>
    rw [step_plain hm hc] at h
    cases hin : mode.inComment with
    | false => simp [Mode.inCode, hm, hin]
    | true => simp [Mode.inCode, hin] at h
  | true =>
    simp only [isPlain, Bool.and_eq_true, Bool.not_eq_eq_eq_not, Bool.not_true, bne_iff_ne] at hc
    have hnl : c ≠ '\n' := by rintro rfl; simp [OutOfLine.isSpace] at hc
    cases mode with
    | lineComment text => simp [step, hnl, Mode.inCode, Mode.verbatim] at h
    | literal quote escaped text =>
      have hquote : c ≠ quote := by rintro rfl; simp [Mode.quoted, hc.1.2] at hq
      simp only [step, if_neg hnl, hquote, decide_false, Bool.false_and, Bool.false_eq_true,
        if_false] at h
      split at h <;> simp [Mode.inCode, Mode.verbatim] at h
    | _ => simp [Mode.verbatim] at hm

private theorem not_mem_flush (c : Char) (word : Text) : Token.delimiter c ∉ flush word := by
  unfold flush
  split <;> simp

private theorem ne_star_of_isPlain {c : Char} (hc : isPlain c) : c ≠ '*' := by
  rintro rfl
  revert hc
  decide

theorem not_mem_finish {c : Char} (hc : isPlain c) (mode : Mode) :
    Token.delimiter c ∉ mode.finish := by
  have hstar := ne_star_of_isPlain hc
  cases mode <;> simp [Mode.finish, not_mem_flush, hstar]

private theorem eq_of_ofDelimiter {c d : Char} (h : Token.ofDelimiter d = .delimiter c) : d = c := by
  unfold Token.ofDelimiter at h
  split at h
  · simp at h
  · simpa using h

private theorem eq_of_mem_flush_append {c d : Char} {word : Text}
    (h : Token.delimiter c ∈ flush word ++ [Token.ofDelimiter d]) : d = c := by
  rcases List.mem_append.mp h with h | h
  · exact absurd h (not_mem_flush c word)
  · exact eq_of_ofDelimiter (List.mem_singleton.mp h).symm

private theorem eq_of_mem_readCode {c d : Char} {word : Text}
    (h : Token.delimiter c ∈ (readCode word d).1) : d = c := by
  have hread := reads_readCode word d
  generalize readCode word d = result at hread h
  cases hread with
  | slash hd => simp at h
  | star hd => exact absurd h (not_mem_flush c word)
  | quote hd => exact absurd h (not_mem_flush c word)
  | delimiter hd => exact eq_of_mem_flush_append h
  | word hd => simp at h

private theorem eq_of_mem_readComment {c d : Char} {word : Text}
    (h : Token.delimiter c ∈ (readComment word d).1) : d = c := by
  have hread := reads_readComment word d
  generalize readComment word d = result at hread h
  cases hread with
  | star hd => exact absurd h (not_mem_flush c word)
  | delimiter hd => exact eq_of_mem_flush_append h
  | word hd => simp at h

/-- A plain delimiter is completed only by its own character. -/
theorem eq_of_mem_step {mode : Mode} {c d : Char} (hc : isPlain c)
    (h : Token.delimiter c ∈ (step mode d).1) : d = c ∧ mode.verbatim = false := by
  have hstar := ne_star_of_isPlain hc
  have hmove := move_step mode d
  generalize step mode d = result at hmove h
  cases hmove with
  | code word => exact ⟨eq_of_mem_readCode h, rfl⟩
  | slash word => exact ⟨eq_of_mem_readCode h, rfl⟩
  | star => exact ⟨eq_of_mem_readCode (by simpa [after, hstar] using h), rfl⟩
  | strayClose => exact ⟨eq_of_mem_readCode (by simpa [after] using h), rfl⟩
  | comment word => exact ⟨eq_of_mem_readComment h, rfl⟩
  | commentStar => exact ⟨eq_of_mem_readComment (by simpa [after, hstar] using h), rfl⟩
  | openLine word hd => exact absurd h (not_mem_flush c word)
  | openBlock word hd => simp [not_mem_flush] at h
  | reopen hd => simp [hstar] at h
  | endLine text hd => simp [Token.newline] at h
  | breakLiteral quote escaped text hd => simp [Token.newline] at h
  | _ => simp at h

/-- Where a plain delimiter is among the tokens of a text, the text divides there: the tokens before it
are those of the text before it, and the tokens after it are those of the text after it. -/
theorem exists_cut_of_run {mode : Mode} {t : Text} {before rest : List Token} {c : Char} {b : Bool}
    (hc : isPlain c) (h : run mode t = (before ++ .delimiter c :: rest, b)) :
    ∃ a z, t = a ++ c :: z ∧ (read mode a).2.verbatim = false ∧ (run mode a).1 = before ∧
      run (.start (run mode a).2) z = (rest, b) := by
  induction t generalizing mode before with
  | nil =>
    have hfin : mode.finish = before ++ .delimiter c :: rest := congrArg Prod.fst h
    exact absurd (by simp [hfin]) (not_mem_finish hc mode)
  | cons d ds ih =>
    simp only [run, Prod.mk.injEq] at h
    obtain ⟨htokens, hb⟩ := h
    -- The delimiter is completed by a later character or by this one.
    rcases List.append_eq_append_iff.mp htokens with ⟨later, rfl, hlater⟩ | ⟨now, hnow, hrest⟩
    · obtain ⟨a, z, rfl, hverb, hbefore, hz⟩ := ih (Prod.ext hlater hb)
      exact ⟨d :: a, z, rfl, by simpa [read, after] using hverb, by simp [run, hbefore],
        by simpa [run] using hz⟩
    · cases now with
      | nil =>
        have hread : run (step mode d).2 ds = ([] ++ .delimiter c :: rest, b) := Prod.ext hrest.symm hb
        obtain ⟨a, z, rfl, hverb, hbefore, hz⟩ := ih hread
        rw [List.append_nil] at hnow
        exact ⟨d :: a, z, rfl, by simpa [read, after] using hverb, by simp [run, hbefore, hnow],
          by simpa [run] using hz⟩
      | cons t ts =>
        rw [List.cons_append, List.cons.injEq] at hrest
        obtain ⟨rfl, hrest⟩ := hrest
        have hmem : Token.delimiter c ∈ (step mode d).1 := by simp [hnow]
        obtain ⟨rfl, hverb⟩ := eq_of_mem_step hc hmem
        have hstep := step_plain hverb hc
        rw [hstep] at hnow hrest hb
        have hlast : before = mode.finish ∧ Token.delimiter d :: ts = [.delimiter d] := by
          rcases List.append_eq_append_iff.mp hnow with ⟨x, hx, hy⟩ | ⟨x, hx, hy⟩
          · cases x with
            | nil => exact ⟨by simpa using hx, by simpa using hy.symm⟩
            | cons y ys => simp at hy
          · cases x with
            | nil => exact ⟨by simpa using hx.symm, by simpa using hy⟩
            | cons y ys =>
              obtain ⟨rfl, -⟩ := List.cons.inj hy
              exact absurd (by simp [hx]) (not_mem_finish hc mode)
        obtain ⟨rfl, hts⟩ := hlast
        obtain rfl : ts = [] := (List.cons.inj hts).2
        exact ⟨[], ds, rfl, hverb, rfl, Prod.ext hrest.symm hb⟩

end Lexer

theorem concat_tokenize (inComment : Bool) (t : Text) :
    Token.concat (tokenize inComment t).1 = t := by
  simp [tokenize, Lexer.concat_run]

end OutOfLine

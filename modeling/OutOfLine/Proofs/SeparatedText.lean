import OutOfLine.Text.WordChar
import OutOfLine.Proofs.SignatureTokens

/-!
# Lexing the parts of a signature

A part of a text that ends in code and opens no comment is lexed by itself when a space or a plain
delimiter follows it. Words, spaces and qualifiers are such parts, and their tokens are known.
-/

namespace OutOfLine

namespace Token

def opensComment : Token → Bool
  | lineComment _ => true
  | commentOpen => true
  | _ => false

@[simp] theorem opensComment_ofDelimiter (c : Char) : (ofDelimiter c).opensComment = false := by
  unfold ofDelimiter
  split <;> rfl

end Token

theorem dropComments_plain {ts : List Token} (h : ∀ t ∈ ts, t.opensComment = false) (us : List Token) :
    dropComments false (ts ++ us) = ts ++ dropComments false us := by
  induction ts with
  | nil => rfl
  | cons t ts ih =>
    rw [List.forall_mem_cons] at h
    have hrest := ih h.2
    cases t with
    | lineComment text => simp [Token.opensComment] at h
    | commentOpen => simp [Token.opensComment] at h
    | _ => exact congrArg (List.cons _) hrest

namespace Lexer

/-- A space or a plain delimiter. -/
def isSeparator (c : Char) : Bool := OutOfLine.isSpace c || isPlain c

/-- A separator completes what is held in code and is a token of its own. -/
theorem step_separator {mode : Mode} {c : Char} (hm : mode.inCode) (hc : isSeparator c) :
    step mode c = (mode.finish ++ [.ofDelimiter c], .code []) := by
  simp only [Mode.inCode, Bool.and_eq_true, Bool.not_eq_true'] at hm
  simp only [isSeparator, Bool.or_eq_true] at hc
  rcases hc with hc | hc
  · simp only [OutOfLine.isSpace, Bool.or_eq_true, beq_iff_eq] at hc
    cases mode with
    | lineComment text => simp [Mode.verbatim] at hm
    | literal quote escaped text => simp [Mode.verbatim] at hm
    | comment word => simp [Mode.inComment] at hm
    | commentStar => simp [Mode.inComment] at hm
    | _ => rcases hc with (rfl | rfl) | rfl <;> rfl
  · have htoken : Token.ofDelimiter c = .delimiter c := by
      simp only [isPlain, Bool.and_eq_true, Bool.not_eq_true'] at hc
      simp [Token.ofDelimiter, hc.1.1.2]
    rw [step_plain hm.1 hc, hm.2, htoken]
    rfl

theorem run_separator {mode : Mode} {a : Text} {c : Char} (ha : (read mode a).2.inCode)
    (hc : isSeparator c) (b : Text) :
    (run mode (a ++ c :: b)).1 = (run mode a).1 ++ .ofDelimiter c :: (run (.code []) b).1 := by
  simp [run_append, run, step_separator ha hc, run_eq_read mode a]

theorem read_separator {mode : Mode} {a : Text} {c : Char} (ha : (read mode a).2.inCode)
    (hc : isSeparator c) (b : Text) : (read mode (a ++ c :: b)).2 = (read (.code []) b).2 := by
  rw [read_append]
  simp [read, after, step_separator ha hc]

/-- A character of words that has no part in a comment marker. -/
def isWordy (c : Char) : Bool := !isDelimiter c && c != '/'

theorem step_wordy {c : Char} (hc : isWordy c) (word : Text) :
    step (.code word) c = ([], .code (c :: word)) := by
  simp only [isWordy, Bool.and_eq_true, Bool.not_eq_true', bne_iff_ne] at hc
  have hne (d : Char) (hd : isDelimiter d) : c ≠ d := by
    rintro rfl
    simp [hd] at hc
  have hquote : isQuote c = false := by
    simp [isQuote, hne '"' (by decide), hne '\'' (by decide)]
  simp [step, readCode, hc, hne '*' (by decide), hquote]

theorem read_wordy {t : Text} (h : ∀ c ∈ t, isWordy c) (word : Text) :
    read (.code word) t = ([], .code (t.reverse ++ word)) := by
  induction t generalizing word with
  | nil => rfl
  | cons c t ih =>
    rw [List.forall_mem_cons] at h
    rw [read, step_wordy h.1, after, ih h.2]
    simp

theorem exists_lineComment_mem_run (text t : Text) :
    ∃ comment, .lineComment comment ∈ (run (.lineComment text) t).1 := by
  induction t generalizing text with
  | nil => exact ⟨text.reverse, by simp [run, Mode.finish]⟩
  | cons c t ih =>
    rw [run]
    by_cases hc : c = '\n'
    · exact ⟨text.reverse, by simp [step, hc]⟩
    · obtain ⟨comment, hcomment⟩ := ih (c :: text)
      exact ⟨comment, by simpa [step, hc] using hcomment⟩

end Lexer

namespace Text

/-- Text in which no comment is opened. -/
def CommentFree (t : Text) : Prop := ∀ token ∈ (tokenize false t).1, token.opensComment = false

instance (t : Text) : Decidable t.CommentFree :=
  inferInstanceAs (Decidable (∀ token ∈ (tokenize false t).1, token.opensComment = false))

theorem CommentFree.code_eq {t : Text} (h : CommentFree t) : t.code = (tokenize false t).1 := by
  have hdrop := dropComments_plain h []
  rw [List.append_nil] at hdrop
  exact hdrop.trans (List.append_nil _)

/-- A text without comments is spelled by its code tokens. -/
theorem CommentFree.concat_code {t : Text} (h : CommentFree t) : Token.concat t.code = t := by
  rw [h.code_eq, concat_tokenize]

/-- Text that opens no comment and ends in code, its literals closed. -/
structure Closed (t : Text) : Prop where
  inCode : (Lexer.read (.code []) t).2.inCode
  plain : ∀ token ∈ (Lexer.run (.code []) t).1, token.opensComment = false

instance (t : Text) : Decidable t.Closed :=
  decidable_of_iff ((Lexer.read (.code []) t).2.inCode ∧
      ∀ token ∈ (Lexer.run (.code []) t).1, token.opensComment = false)
    ⟨fun h => ⟨h.1, h.2⟩, fun h => ⟨h.inCode, h.plain⟩⟩

theorem Closed.code_eq {t : Text} (h : Closed t) : t.code = (Lexer.run (.code []) t).1 :=
  CommentFree.code_eq h.plain

theorem Closed.concat_code {t : Text} (h : Closed t) : Token.concat t.code = t :=
  CommentFree.concat_code h.plain

theorem Closed.tokenize_outside {t : Text} (h : Closed t) : (tokenize false t).2 = false :=
  (congrArg Prod.snd (Lexer.run_eq_read (.code []) t)).trans (Lexer.Mode.inComment_eq_false h.inCode)

/-- Text before a separator is lexed by itself. -/
theorem Closed.code_append {a : Text} {c : Char} (ha : Closed a) (hc : Lexer.isSeparator c) (b : Text) :
    (a ++ c :: b).code = a.code ++ .ofDelimiter c :: b.code := by
  have hrun := Lexer.run_separator ha.inCode hc b
  have hsplit : (a ++ c :: b).code =
      dropComments false ((Lexer.run (.code []) a).1 ++ ([.ofDelimiter c] ++ (Lexer.run (.code []) b).1)) :=
    congrArg (dropComments false) hrun
  rw [hsplit, dropComments_plain ha.plain, dropComments_plain (by simp), ha.code_eq]
  rfl

theorem Closed.append_separator {a b : Text} {c : Char} (ha : a.Closed) (hc : Lexer.isSeparator c) (hb : b.Closed) :
    (a ++ c :: b).Closed := by
  constructor
  · rw [Lexer.read_separator ha.inCode hc]
    exact hb.inCode
  · intro token htoken
    rw [Lexer.run_separator ha.inCode hc] at htoken
    rcases List.mem_append.mp htoken with htoken | htoken
    · exact ha.plain token htoken
    · rcases List.mem_cons.mp htoken with rfl | htoken
      · exact Token.opensComment_ofDelimiter c
      · exact hb.plain token htoken

/-- What follows a separator is closed if the whole text is. -/
theorem Closed.of_cons {c : Char} {b : Text} (h : Closed (c :: b)) (hc : Lexer.isSeparator c) : Closed b := by
  have hread : (Lexer.read (.code []) (c :: b)).2 = (Lexer.read (.code []) b).2 :=
    Lexer.read_separator (a := []) rfl hc b
  have hrun : (Lexer.run (.code []) (c :: b)).1 = .ofDelimiter c :: (Lexer.run (.code []) b).1 :=
    Lexer.run_separator (a := []) rfl hc b
  refine ⟨by rw [← hread]; exact h.inCode, fun token htoken => h.plain token ?_⟩
  rw [hrun]
  exact List.mem_cons_of_mem _ htoken

theorem closed_nil : Closed [] := ⟨rfl, by simp [Lexer.run, Lexer.Mode.finish, Lexer.flush]⟩

theorem code_separator {c : Char} (hc : Lexer.isSeparator c) (b : Text) :
    code (c :: b) = .ofDelimiter c :: b.code := closed_nil.code_append hc b

theorem code_spaces {w : Text} (h : ∀ c ∈ w, isSpace c) (b : Text) :
    (w ++ b).code = w.map Token.space ++ b.code := by
  induction w with
  | nil => rfl
  | cons c w ih =>
    rw [List.forall_mem_cons] at h
    have hc : Lexer.isSeparator c := by simp [Lexer.isSeparator, h.1]
    rw [List.cons_append, code_separator hc, ih h.2, Token.ofDelimiter, if_pos h.1]
    rfl

theorem closed_word {w : Text} (h : ∀ c ∈ w, Lexer.isWordy c) : Closed w := by
  have hread := Lexer.read_wordy h []
  refine ⟨by rw [hread]; rfl, ?_⟩
  rw [Lexer.run_eq_read, hread, List.nil_append, Lexer.Mode.finish, Lexer.flush]
  split <;> simp [Token.opensComment]

theorem code_word {w : Text} (hne : w ≠ []) (h : ∀ c ∈ w, Lexer.isWordy c) : w.code = [.word w] := by
  rw [(closed_word h).code_eq, Lexer.run_eq_read, Lexer.read_wordy h]
  simp [Lexer.Mode.finish, Lexer.flush, hne]

/-- A star is a token of its own before anything but a slash. -/
theorem code_star {c : Char} (hc : c ≠ '/') (b : Text) :
    code ('*' :: c :: b) = .delimiter '*' :: code (c :: b) := by
  have hrun : (Lexer.run (.code []) ('*' :: c :: b)).1 =
      [.delimiter '*'] ++ (Lexer.run (.code []) (c :: b)).1 := by
    simp [Lexer.run, Lexer.step, Lexer.readCode, Lexer.flush, hc, Lexer.after]
  exact congrArg (dropComments false) hrun

theorem isWordy_of_isWordChar {c : Char} (h : isWordChar c) : Lexer.isWordy c := by
  have hall : (delimiters ++ ['/']).all fun d => !isWordChar d := by decide +kernel
  rw [List.all_eq_true] at hall
  have hne (d : Char) (hd : d ∈ delimiters ++ ['/']) : c ≠ d := by
    rintro rfl
    simpa [h] using hall c hd
  have hdelimiter : isDelimiter c = false := by
    rw [Bool.eq_false_iff]
    intro hd
    exact hne c (List.mem_append_left _ (List.contains_iff_mem.mp hd)) rfl
  simp [Lexer.isWordy, hdelimiter, hne '/' (by simp)]

end Text

namespace Draft

theorem qualifiers_flush (word : Text) : Qualifiers (Lexer.flush word) := by
  unfold Lexer.flush
  split
  · exact ⟨by simp, .nil, by simp⟩
  · exact ⟨by simp [Token.isWord], .singleton _, by simp⟩

/-- A space sets qualifiers apart. -/
theorem Qualifiers.append_space {ts us : List Token} {c : Char} (hts : Qualifiers ts)
    (hc : isBlankChar c) (hus : Qualifiers us) : Qualifiers (ts ++ .space c :: us) := by
  refine ⟨?_, ?_, ?_⟩
  · intro t ht
    rcases List.mem_append.mp ht with ht | ht
    · exact hts.plain t ht
    · rcases List.mem_cons.mp ht with rfl | ht
      · exact .inr rfl
      · exact hus.plain t ht
  · refine List.isChain_append.mpr ⟨hts.apart, List.isChain_cons.mpr ⟨?_, hus.apart⟩, ?_⟩
    · intro _ _
      exact .inl rfl
    · intro x _ y hy
      obtain rfl : .space c = y := by simpa using hy
      exact .inr rfl
  · intro d hd
    rcases List.mem_append.mp hd with hd | hd
    · exact hts.blank d hd
    · rcases List.mem_cons.mp hd with hd | hd
      · rw [Token.space.inj hd]
        exact hc
      · exact hus.blank d hd

theorem isBlankChar_of_isSpace {c : Char} (h : isSpace c) : isBlankChar c := by
  simp only [isSpace, Bool.or_eq_true, beq_iff_eq] at h
  rcases h with (rfl | rfl) | rfl <;> decide

theorem run_qualifiers {t : Text} (h : ∀ c ∈ t, Lexer.isWordy c ∨ isSpace c) (word : Text) :
    (Lexer.read (.code word) t).2.inCode ∧ Qualifiers (Lexer.run (.code word) t).1 := by
  induction t generalizing word with
  | nil => exact ⟨rfl, qualifiers_flush word⟩
  | cons c t ih =>
    rw [List.forall_mem_cons] at h
    by_cases hspace : isSpace c
    · have hblank := isBlankChar_of_isSpace hspace
      have hstep : Lexer.step (.code word) c = (Lexer.flush word ++ [.space c], .code []) := by
        rw [Lexer.step_code_blank hblank, if_pos hspace]
      obtain ⟨hcode, hrest⟩ := ih h.2 []
      rw [Lexer.read, Lexer.run, hstep]
      refine ⟨hcode, ?_⟩
      rw [List.append_assoc]
      exact (qualifiers_flush word).append_space hblank hrest
    · rw [Lexer.read, Lexer.run, Lexer.step_wordy (h.1.resolve_right hspace)]
      exact ih h.2 (c :: word)

theorem closed_qualifiers {t : Text} (h : ∀ c ∈ t, Lexer.isWordy c ∨ isSpace c) : t.Closed := by
  obtain ⟨hcode, hqualifiers⟩ := run_qualifiers h []
  refine ⟨hcode, fun token ht => ?_⟩
  have hplain := hqualifiers.plain token ht
  cases token <;> simp_all [Token.isWord, Token.isSpace, Token.opensComment]

theorem closed_blank {t : Text} (h : t.isBlank) : t.Closed := by
  refine closed_qualifiers fun c hc => ?_
  have hblank := List.all_eq_true.mp h c hc
  by_cases hdelimiter : isDelimiter c
  · exact .inr (Lexer.isSpace_of_blank hblank hdelimiter)
  · exact .inl (by simp [Lexer.isWordy, hdelimiter, (Lexer.ne_of_blank hblank).1])

theorem qualifiers_code {t : Text} (h : ∀ c ∈ t, Lexer.isWordy c ∨ isSpace c) : Qualifiers t.code := by
  rw [(closed_qualifiers h).code_eq]
  exact (run_qualifiers h []).2

end Draft
end OutOfLine

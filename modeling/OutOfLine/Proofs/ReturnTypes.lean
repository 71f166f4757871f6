import OutOfLine.Definition
import OutOfLine.Proofs.SeparatedText

/-!
# Return types and the specifiers before them

A return type is a trimmed text of words, pairs of colons, stars and template arguments. Its first word can
be taken off it, and what then remains is a return type again; so is what remains when all specifiers at its
start are dropped.
-/

namespace OutOfLine
namespace Lexer

/-- The word held is the start of the next token. -/
theorem exists_word_run {word : Text} (hword : word ≠ []) (t : Text) :
    (∃ more ts, (run (.code word) t).1 = .word (word.reverse ++ more) :: ts) ∧
      ∃ more ts, (run (.slash word) t).1 = .word (word.reverse ++ more) :: ts := by
  induction t generalizing word with
  | nil =>
    exact ⟨⟨[], [], by simp [run, Mode.finish, flush, hword]⟩, ⟨['/'], [], by simp [run, Mode.finish, flush]⟩⟩
  | cons c t ih =>
    have hread (word : Text) (hword : word ≠ []) :
        ∃ more ts, (readCode word c).1 ++ (run (readCode word c).2 t).1 = .word (word.reverse ++ more) :: ts := by
      unfold readCode
      split_ifs
      · exact (ih hword).2
      · exact ⟨[], _, by simp [flush, hword]; rfl⟩
      · exact ⟨[], _, by simp [flush, hword]; rfl⟩
      · exact ⟨[], _, by simp [flush, hword]; rfl⟩
      · obtain ⟨more, ts, hrun⟩ := (ih (List.cons_ne_nil c word)).1
        exact ⟨c :: more, ts, by simpa using hrun⟩
    refine ⟨hread word hword, ?_⟩
    rw [run, step]
    split_ifs
    · exact ⟨[], _, by simp [flush, hword]; rfl⟩
    · exact ⟨[], _, by simp [flush, hword]; rfl⟩
    · obtain ⟨more, ts, hrun⟩ := hread ('/' :: word) (by simp)
      exact ⟨'/' :: more, ts, by simpa using hrun⟩

/-- A slash after a word belongs to a comment or to the word. -/
theorem opensComment_of_slash {word : Text} {t : Text}
    (h : (run (.slash word) t).1.head? = some (.word word.reverse)) :
    ∃ token ∈ (run (.slash word) t).1, token.opensComment := by
  have hlonger (more : Text) (ts : List Token) :
      (Token.word (('/' :: word).reverse ++ more) :: ts).head? ≠ some (.word word.reverse) := by
    intro heq
    have hlength := congrArg List.length (Token.word.inj (Option.some.inj heq))
    simp at hlength
  cases t with
  | nil => exact absurd h (by simp [run, Mode.finish, flush])
  | cons c t =>
    rw [run, step] at h ⊢
    split_ifs at h ⊢
    · obtain ⟨comment, hcomment⟩ := exists_lineComment_mem_run ['/', '/'] t
      exact ⟨_, List.mem_append_right _ hcomment, rfl⟩
    · exact ⟨.commentOpen, by simp, rfl⟩
    · obtain ⟨⟨more, ts, hrun⟩, -⟩ := exists_word_run (List.cons_ne_nil '/' word) (c :: t)
      rw [run, step] at hrun
      rw [hrun] at h
      exact absurd h (hlonger more ts)

/-- A delimiter completes the word held and is then read as if there had been none. -/
theorem step_delimiter {word : Text} {c : Char} (hnumber : inNumber word = false) (hc : isDelimiter c) :
    step (.code word) c = after (flush word) (step (.code []) c) := by
  have hslash : c ≠ '/' := by
    rintro rfl
    revert hc
    decide
  have hnil : inNumber [] = false := rfl
  simp only [step, readCode, hslash, hnumber, hnil, hc, if_true, if_false]
  split_ifs <;> simp [after, flush]

/-- Where the word held is a token, what follows it is lexed by itself. -/
theorem run_code_word {word : Text} (hword : word ≠ []) (hnumber : inNumber word = false) {t : Text}
    (hplain : ∀ token ∈ (run (.code word) t).1, token.opensComment = false)
    (h : (run (.code word) t).1.head? = some (.word word.reverse)) :
    (run (.code word) t).1 = .word word.reverse :: (run (.code []) t).1 ∧
      (read (.code word) t).2.inCode = (read (.code []) t).2.inCode := by
  have hflush : flush word = [.word word.reverse] := by simp [flush, hword]
  cases t with
  | nil => exact ⟨by simp [run, Mode.finish, flush, hword], rfl⟩
  | cons c t =>
    by_cases hslash : c = '/'
    · subst hslash
      have hrun : run (.code word) ('/' :: t) = run (.slash word) t := rfl
      rw [hrun] at hplain h
      obtain ⟨token, htoken, hopens⟩ := opensComment_of_slash h
      simp [hplain token htoken] at hopens
    · by_cases hc : isDelimiter c
      · rw [run, run, read, read, step_delimiter hnumber hc, hflush]
        exact ⟨by simp [after], rfl⟩
      · have hwordy : isWordy c := by simp [isWordy, hc, hslash]
        obtain ⟨⟨more, ts, hrun⟩, -⟩ := exists_word_run (List.cons_ne_nil c word) t
        rw [run, step_wordy hwordy, List.nil_append, hrun] at h
        have hlength := congrArg List.length (Token.word.inj (Option.some.inj h))
        simp at hlength

end Lexer

namespace Text

/-- A word that is the first token of a text can be cut off. -/
theorem Closed.cut_word {w u : Text} (h : Closed (w ++ u)) (hw : ∀ c ∈ w, Lexer.isWordy c)
    (hnumber : Lexer.inNumber w.reverse = false) (hne : w ≠ [])
    (hhead : (w ++ u).code.head? = some (.word w)) : Closed u ∧ (w ++ u).code = .word w :: u.code := by
  have hread := Lexer.read_wordy hw []
  rw [List.append_nil] at hread
  have hrun : (Lexer.run (.code []) (w ++ u)).1 = (Lexer.run (.code w.reverse) u).1 := by
    rw [Lexer.run_append, hread]
    rfl
  have hmode : (Lexer.read (.code []) (w ++ u)).2 = (Lexer.read (.code w.reverse) u).2 := by
    rw [Lexer.read_append, hread]
    rfl
  have hplain := h.plain
  have hcode := h.inCode
  rw [h.code_eq, hrun] at hhead
  rw [hrun] at hplain
  rw [hmode] at hcode
  obtain ⟨htokens, hinCode⟩ := Lexer.run_code_word (by simpa using hne) hnumber hplain
    (by rw [List.reverse_reverse]; exact hhead)
  rw [List.reverse_reverse] at htokens
  have hclosed : Closed u := by
    refine ⟨by rw [← hinCode]; exact hcode, fun token htoken => hplain token ?_⟩
    rw [htokens]
    exact List.mem_cons_of_mem _ htoken
  refine ⟨hclosed, ?_⟩
  rw [h.code_eq, hrun, htokens, hclosed.code_eq]

/-- The text of a return type. -/
structure IsType (t : Text) : Prop where
  closed : t.Closed
  tokens : Signature.TypeTokens t.code
  trimmed : t.trim = t
  spaces : ∀ c ∈ t, isBlankChar c → isSpace c

theorem isType_nil : IsType [] := ⟨closed_nil, .nil, rfl, by simp⟩

theorem typeTokens_of_spaces {w : Text} {ts : List Token} (h : Signature.TypeTokens (w.map Token.space ++ ts)) :
    Signature.TypeTokens ts := by
  induction w with
  | nil => exact h
  | cons c w ih =>
    cases h with
    | space hts => exact ih hts

theorem closed_of_spaces {w t : Text} (hw : ∀ c ∈ w, isSpace c) (h : Closed (w ++ t)) : Closed t := by
  induction w with
  | nil => exact h
  | cons c w ih =>
    rw [List.forall_mem_cons] at hw
    exact ih hw.2 (h.of_cons (by simp [Lexer.isSeparator, hw.1]))

/-- What follows the first word of a return type is a return type. -/
theorem IsType.drop_word {w u : Text} (h : IsType (w ++ u)) (hw : ∀ c ∈ w, Lexer.isWordy c)
    (hnumber : Lexer.inNumber w.reverse = false) (hne : w ≠ [])
    (hhead : (w ++ u).code.head? = some (.word w)) :
    (w ++ u).code = .word w :: u.code ∧ u.Closed ∧ IsType u.trimStart := by
  obtain ⟨hclosed, hcode⟩ := h.closed.cut_word hw hnumber hne hhead
  refine ⟨hcode, hclosed, ?_⟩
  have htokens := h.tokens
  rw [hcode] at htokens
  have hu : Signature.TypeTokens u.code := by
    cases htokens with
    | word _ hts => exact hts
  have hstart : u.takeWhile isBlankChar ++ u.trimStart = u := List.takeWhile_append_dropWhile
  have hspaces : ∀ c ∈ u.takeWhile isBlankChar, isSpace c := fun c hc =>
    h.spaces c (List.mem_append_right _ ((List.takeWhile_prefix _).subset hc)) (List.mem_takeWhile_imp hc)
  rw [← hstart, code_spaces hspaces] at hu
  rw [← hstart] at hclosed
  refine ⟨closed_of_spaces hspaces hclosed, typeTokens_of_spaces hu, ?_, ?_⟩
  · rw [trim_eq_self_iff]
    constructor
    · intro c hc
      have hfirst := List.head?_dropWhile_not isBlankChar u
      rw [← trimStart, hc] at hfirst
      simpa using hfirst
    · intro c hc
      refine (trim_eq_self_iff.mp h.trimmed).2 c ?_
      rw [← hstart, List.getLast?_append, List.getLast?_append, hc]
      rfl
  · exact fun c hc => h.spaces c (List.mem_append_right _ ((List.dropWhile_suffix _).subset hc))

theorem IsType.trim_eq {u : Text} (h : IsType u.trimStart) : u.trim = u.trimStart := by
  have hblank : ∀ c ∈ u.takeWhile isBlankChar, isBlankChar c := fun c hc => List.mem_takeWhile_imp hc
  have htrim := trim_blank_append hblank u.trimStart
  rw [h.trimmed] at htrim
  rw [← htrim]
  exact congrArg trim List.takeWhile_append_dropWhile.symm

/-- A run ends where the characters change. -/
theorem runs_append {w u : Text} {blank : Bool} (hne : w ≠ []) (hw : ∀ c ∈ w, isBlankChar c = blank)
    (hu : ∀ c, u.head? = some c → isBlankChar c ≠ blank) : runs (w ++ u) = w :: runs u := by
  induction w with
  | nil => exact absurd rfl hne
  | cons c w ih =>
    rw [List.forall_mem_cons] at hw
    cases w with
    | nil =>
      cases u with
      | nil => rfl
      | cons d u =>
        obtain ⟨run, rest, hruns⟩ := exists_runs_cons d u
        have hd : ¬ isBlankChar c = isBlankChar d := by
          rw [hw.1]
          exact Ne.symm (hu d rfl)
        rw [List.singleton_append, runs, hruns]
        simp only [if_neg hd]
    | cons c' w =>
      have hsame : isBlankChar c = isBlankChar c' := by rw [hw.1, hw.2 c' List.mem_cons_self]
      rw [List.cons_append, runs, ih (by simp) hw.2]
      simp only [if_pos hsame]

end Text

namespace Declaration

/-- Blanks at the start are dropped. -/
theorem withoutSpecifiers_trimStart (t : Text) : withoutSpecifiers t.trimStart = withoutSpecifiers t := by
  have hstart : t.takeWhile isBlankChar ++ t.trimStart = t := List.takeWhile_append_dropWhile
  cases hw : t.takeWhile isBlankChar with
  | nil =>
    rw [hw, List.nil_append] at hstart
    rw [hstart]
  | cons c w =>
    have hblank : ∀ d ∈ c :: w, isBlankChar d = true := by
      rw [← hw]
      exact fun d hd => List.mem_takeWhile_imp hd
    have hrest : ∀ d, t.trimStart.head? = some d → isBlankChar d ≠ true := by
      intro d hd
      have hfirst := List.head?_dropWhile_not isBlankChar t
      rw [← Text.trimStart, hd] at hfirst
      simpa using hfirst
    have hruns := Text.runs_append (by simp) hblank hrest
    rw [← hw, hstart, hw] at hruns
    have hdrop : Text.isBlank (c :: w) = true := by simpa [Text.isBlank] using hblank
    rw [withoutSpecifiers, withoutSpecifiers, hruns, List.dropWhile_cons_of_pos (by simp [hdrop])]

/-- A specifier at the start is dropped with the blanks after it. -/
theorem withoutSpecifiers_specifier {w u : Text} (hw : w ∈ classOnlySpecifiers)
    (hu : ∀ c, u.head? = some c → isBlankChar c) :
    withoutSpecifiers (w ++ u) = withoutSpecifiers u.trimStart := by
  have hword : ∀ w ∈ classOnlySpecifiers, w ≠ [] ∧ w.all (!isBlankChar ·) := by decide
  obtain ⟨hne, hall⟩ := hword w hw
  have hblank : ∀ c ∈ w, isBlankChar c = false := by simpa using hall
  have hruns := Text.runs_append hne hblank (u := u) (by simpa using hu)
  rw [withoutSpecifiers_trimStart, withoutSpecifiers, hruns,
    List.dropWhile_cons_of_pos (by simp [hw]), withoutSpecifiers]

/-- A text that starts with another word is left as it is. -/
theorem withoutSpecifiers_eq_self {w u : Text} (hne : w ≠ []) (hw : ∀ c ∈ w, isBlankChar c = false)
    (hu : ∀ c, u.head? = some c → isBlankChar c) (hnot : w ∉ classOnlySpecifiers) :
    withoutSpecifiers (w ++ u) = w ++ u := by
  have hruns := Text.runs_append hne hw (u := u) (by simpa using hu)
  have hblank : w.isBlank = false := by
    obtain ⟨c, w, rfl⟩ := List.exists_cons_of_ne_nil hne
    simp [Text.isBlank, hw c List.mem_cons_self]
  rw [withoutSpecifiers, hruns, List.dropWhile_cons_of_neg (by simp [hnot, hblank]), ← hruns, Text.flatten_runs]

theorem isType_withoutSpecifiers {t : Text} (h : t.IsType) : (withoutSpecifiers t).IsType := by
  -- By induction on the length, for the rest behind a specifier is trimmed before it is read again.
  induction hlength : t.length using Nat.strong_induction_on generalizing t with
  | _ n ih =>
    have hparts : t.takeWhile (!isBlankChar ·) ++ t.dropWhile (!isBlankChar ·) = t :=
      List.takeWhile_append_dropWhile
    generalize hw : t.takeWhile (!isBlankChar ·) = w at hparts
    generalize hu : t.dropWhile (!isBlankChar ·) = u at hparts
    have hblank : ∀ c ∈ w, isBlankChar c = false := by
      intro c hc
      rw [← hw] at hc
      simpa using List.mem_takeWhile_imp hc
    have hstart : ∀ c, u.head? = some c → isBlankChar c := by
      intro c hc
      have hfirst := List.head?_dropWhile_not (!isBlankChar ·) t
      rw [hu, hc] at hfirst
      simpa using hfirst
    subst hparts
    by_cases hmem : w ∈ classOnlySpecifiers
    · -- The specifier is a token of its own, for a space or nothing follows it.
      have hspecifier : ∀ w ∈ classOnlySpecifiers,
          w ≠ [] ∧ w.all Lexer.isWordy ∧ Lexer.inNumber w.reverse = false := by decide
      obtain ⟨hne, hall, hnumber⟩ := hspecifier w hmem
      have hwordy := List.all_eq_true.mp hall
      have hhead : (Text.code (w ++ u)).head? = some (.word w) := by
        cases u with
        | nil => rw [List.append_nil, Text.code_word hne hwordy, List.head?_cons]
        | cons c u =>
          have hc : isSpace c := h.spaces c (by simp) (hstart c rfl)
          rw [(Text.closed_word hwordy).code_append (by simp [Lexer.isSeparator, hc]), Text.code_word hne hwordy]
          rfl
      obtain ⟨-, -, hrest⟩ := h.drop_word hwordy hnumber hne hhead
      rw [withoutSpecifiers_specifier hmem hstart]
      refine ih (Text.trimStart u).length ?_ hrest rfl
      have hle : (Text.trimStart u).length ≤ u.length := (List.dropWhile_suffix _).length_le
      have hpos := List.length_pos_iff.mpr hne
      rw [← hlength, List.length_append]
      omega
    · cases w with
      | nil =>
        cases u with
        | nil => exact Text.isType_nil
        | cons c u => exact absurd (hstart c rfl) ((Text.trim_eq_self_iff.mp h.trimmed).1 c rfl)
      | cons c w =>
        rw [withoutSpecifiers_eq_self (by simp) hblank hstart hmem]
        exact h

end Declaration
end OutOfLine

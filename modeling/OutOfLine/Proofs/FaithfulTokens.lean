import OutOfLine.Proofs.TokenShapes
import Mathlib.Data.List.Chain

/-!
# Tokens spell their text

Lexing loses nothing: the tokens of a text, in order, are the text. Each of them has the shape of its kind, a
word is never cut in two, and the last comment marker tells whether the text ends inside a block comment.
-/

namespace OutOfLine

namespace Token

/-- The markers of block comments. -/
def isMarker : Token → Bool
  | commentOpen => true
  | commentClose => true
  | _ => false

/-- No two words stand side by side. -/
def WordsApart (tokens : List Token) : Prop := tokens.IsChain fun t u => ¬ (t.isWord ∧ u.isWord)

theorem WordsApart.append {ts us : List Token} (hts : WordsApart ts) (hus : WordsApart us)
    (h : ∀ t ∈ ts.getLast?, t.isWord → ∀ u ∈ us.head?, u.isWord = false) : WordsApart (ts ++ us) := by
  apply List.IsChain.append hts hus
  intro t ht u hu hwords
  rw [h t ht hwords.1 u hu] at hwords
  exact absurd hwords.2 (by simp)

theorem wordsApart_singleton (t : Token) : WordsApart [t] := List.IsChain.singleton t

/-- The last marker decides, and without a marker the state stays as it was. -/
theorem insideAfter_eq_true_iff (inside : Bool) (ts : List Token) :
    insideAfter inside ts ↔ (ts.filter isMarker).getLast? = some .commentOpen ∨
      ts.filter isMarker = [] ∧ inside := by
  induction ts generalizing inside with
  | nil => simp [insideAfter]
  | cons t ts ih =>
    -- Behind a marker, what the markers that follow leave open is decided by that marker.
    have hmarker (state : Bool) (ht : t.isMarker) (hopen : t = .commentOpen ↔ state) :
        insideAfter state ts ↔ ((t :: ts).filter isMarker).getLast? = some .commentOpen ∨
          (t :: ts).filter isMarker = [] ∧ inside := by
      rw [ih, List.filter_cons_of_pos ht]
      cases hrest : ts.filter isMarker with
      | nil => simp [hopen]
      | cons u us => simp
    cases t with
    | commentOpen => exact hmarker true rfl (by simp)
    | commentClose => exact hmarker false rfl (by simp)
    | _ => exact ih inside

end Token

namespace Lexer

open Token (WordsApart wordsApart_singleton)

/-- Whether the characters held are those of a word that may go on. -/
def Mode.holdsWord : Mode → Bool
  | .code _ => true
  | .slash _ => true
  | .comment _ => true
  | _ => false

/-- What a step from a mode must leave behind, so that the tokens of a whole run keep their words apart: a word
that is completed is followed by a mode that holds something else, and such a mode first completes that. -/
structure KeepsApart (mode : Mode) (result : List Token × Mode) : Prop where
  apart : WordsApart result.1
  first : mode.holdsWord = false → ∀ t ∈ result.1.head?, t.isWord = false
  still : mode.holdsWord = false → result.1 = [] → result.2.holdsWord = false
  last : ∀ t ∈ result.1.getLast?, t.isWord → result.2.holdsWord = false

/-- From a mode that holds a word, only the end of the step matters. -/
theorem keepsApart_of_holdsWord {mode : Mode} {result : List Token × Mode} (h : mode.holdsWord)
    (hapart : WordsApart result.1) (hlast : ∀ t ∈ result.1.getLast?, t.isWord → result.2.holdsWord = false) :
    KeepsApart mode result := by
  have hno {p : Prop} (hmode : mode.holdsWord = false) : p := by
    rw [h] at hmode
    exact absurd hmode (by simp)
  exact ⟨hapart, fun hmode => hno hmode, fun hmode => hno hmode, hlast⟩

theorem KeepsApart.after {mode mode' : Mode} {t : Token} {result : List Token × Mode} (ht : t.isWord = false)
    (h : KeepsApart mode result) : KeepsApart mode' (after [t] result) := by
  refine ⟨?_, ?_, ?_, ?_⟩
  · apply (wordsApart_singleton t).append h.apart
    intro u hu hword
    obtain rfl : t = u := by simpa using hu
    rw [ht] at hword
    exact absurd hword (by simp)
  · intro _ u hu
    obtain rfl : t = u := by simpa [Lexer.after] using hu
    exact ht
  · intro _ hnil
    simp [Lexer.after] at hnil
  · intro u hu hword
    apply h.last u _ hword
    cases hresult : result.1 with
    | nil =>
      obtain rfl : t = u := by simpa [Lexer.after, hresult] using hu
      rw [ht] at hword
      exact absurd hword (by simp)
    | cons v vs => simpa [Lexer.after, hresult, List.getLast?_cons_cons] using hu

theorem isWord_ofDelimiter (c : Char) : (Token.ofDelimiter c).isWord = false := by
  rw [Token.ofDelimiter]
  split <;> rfl

theorem wordsApart_flush (word : Text) : WordsApart (flush word) := by
  rw [flush]
  split
  · exact List.IsChain.nil
  · exact wordsApart_singleton _

/-- A word and a token behind it that is no word. -/
theorem keepsApart_flush_concat {mode : Mode} (h : mode.holdsWord) (word : Text) {t : Token}
    (ht : t.isWord = false) (next : Mode) : KeepsApart mode (flush word ++ [t], next) := by
  apply keepsApart_of_holdsWord h
  · apply (wordsApart_flush word).append (wordsApart_singleton t)
    intro u _ _ v hv
    obtain rfl : t = v := by simpa using hv
    exact ht
  · intro u hu hword
    obtain rfl : t = u := by simpa using hu
    rw [ht] at hword
    exact absurd hword (by simp)

theorem keepsApart_flush {mode next : Mode} (h : mode.holdsWord) (word : Text) (hnext : next.holdsWord = false) :
    KeepsApart mode (flush word, next) :=
  keepsApart_of_holdsWord h (wordsApart_flush word) fun _ _ _ => hnext

theorem keepsApart_nil {mode : Mode} (next : Mode) (h : mode.holdsWord = false → next.holdsWord = false) :
    KeepsApart mode ([], next) :=
  ⟨List.IsChain.nil, by simp, fun hmode _ => h hmode, by simp⟩

theorem keepsApart_readCode {mode : Mode} (h : mode.holdsWord) (word : Text) (c : Char) :
    KeepsApart mode (readCode word c) := by
  have hno (next : Mode) : KeepsApart mode ([], next) := keepsApart_nil next (by simp [h])
  have hread := reads_readCode word c
  generalize readCode word c = result at hread ⊢
  cases hread with
  | slash hc => exact hno _
  | star hc => exact keepsApart_flush h word rfl
  | quote hc => exact keepsApart_flush h word rfl
  | delimiter hc => exact keepsApart_flush_concat h word (isWord_ofDelimiter c) _
  | word hc => exact hno _

theorem keepsApart_readComment {mode : Mode} (h : mode.holdsWord) (word : Text) (c : Char) :
    KeepsApart mode (readComment word c) := by
  have hread := reads_readComment word c
  generalize readComment word c = result at hread ⊢
  cases hread with
  | star hc => exact keepsApart_flush h word rfl
  | delimiter hc => exact keepsApart_flush_concat h word (isWord_ofDelimiter c) _
  | word hc => exact keepsApart_nil _ (by simp [h])

/-- Tokens of which none is a word keep words apart. -/
theorem keepsApart_of_no_word {mode next : Mode} {t : Token} {ts : List Token}
    (h : ∀ u ∈ t :: ts, u.isWord = false) : KeepsApart mode (t :: ts, next) := by
  refine ⟨?_, ?_, ?_, ?_⟩
  · apply List.Pairwise.isChain
    apply List.pairwise_of_forall_mem_list
    intro u hu v _ hwords
    rw [h u hu] at hwords
    exact absurd hwords.1 (by simp)
  · intro _ u hu
    exact h u (List.mem_of_mem_head? hu)
  · intro _ hnil
    simp at hnil
  · intro u hu hword
    rw [h u (List.mem_of_getLast? hu)] at hword
    exact absurd hword (by simp)

theorem keepsApart_step (mode : Mode) (c : Char) : KeepsApart mode (step mode c) := by
  have hcode : KeepsApart (.code []) (readCode [] c) := keepsApart_readCode rfl [] c
  have hcomment : KeepsApart (.comment []) (readComment [] c) := keepsApart_readComment rfl [] c
  have hmove := move_step mode c
  generalize step mode c = result at hmove ⊢
  cases hmove with
  | code word => exact keepsApart_readCode rfl word c
  | slash word => exact keepsApart_readCode rfl ('/' :: word) c
  | star => exact hcode.after rfl
  | strayClose => exact hcode.after rfl
  | comment word => exact keepsApart_readComment rfl word c
  | commentStar => exact hcomment.after rfl
  | openLine word hc => exact keepsApart_flush rfl word rfl
  | openBlock word hc => exact keepsApart_flush_concat rfl word rfl _
  | reopen hc => exact keepsApart_of_no_word (by simp [Token.isWord])
  | closeBlock hc => exact keepsApart_of_no_word (by simp [Token.isWord])
  | endLine text hc => exact keepsApart_of_no_word (by simp [Token.isWord, Token.newline])
  | breakLiteral quote escaped text hc => exact keepsApart_of_no_word (by simp [Token.isWord, Token.newline])
  | closeLiteral text hc => exact keepsApart_of_no_word (by simp [Token.isWord])
  | _ => exact keepsApart_nil _ fun _ => rfl

theorem wordsApart_finish (mode : Mode) :
    WordsApart mode.finish ∧ (mode.holdsWord = false → ∀ t ∈ mode.finish.head?, t.isWord = false) := by
  cases mode with
  | code word => exact ⟨wordsApart_flush word, by simp [Mode.holdsWord]⟩
  | slash word => exact ⟨wordsApart_flush _, by simp [Mode.holdsWord]⟩
  | comment word => exact ⟨wordsApart_flush word, by simp [Mode.holdsWord]⟩
  | _ => exact ⟨wordsApart_singleton _, by simp [Mode.finish, Token.isWord]⟩

theorem wordsApart_run (mode : Mode) (text : Text) : WordsApart (run mode text).1 ∧
    (mode.holdsWord = false → ∀ t ∈ (run mode text).1.head?, t.isWord = false) := by
  induction text generalizing mode with
  | nil => exact wordsApart_finish mode
  | cons c text ih =>
    have hstep := keepsApart_step mode c
    obtain ⟨hrest, hhead⟩ := ih (step mode c).2
    constructor
    · apply hstep.apart.append hrest
      intro t ht hword
      exact hhead (hstep.last t ht hword)
    · intro hmode t ht
      rw [run, List.head?_append] at ht
      cases hcompleted : (step mode c).1 with
      | nil =>
        rw [hcompleted, List.head?_nil, Option.none_or] at ht
        exact hhead (hstep.still hmode hcompleted) t ht
      | cons u us =>
        rw [hcompleted, List.head?_cons, Option.some_or] at ht
        exact hstep.first hmode t (by rw [hcompleted]; exact ht)

end Lexer

/-- What lexing makes of a text that starts inside a block comment or not. -/
structure Spells (inComment : Bool) (text : Text) (lexed : List Token × Bool) : Prop where
  /-- Nothing is lost, added or moved. -/
  concat_eq : Token.concat lexed.1 = text
  text_ne_nil : ∀ t ∈ lexed.1, t.text ≠ []
  shaped : ∀ t ∈ lexed.1, t.Shaped
  words_apart : Token.WordsApart lexed.1
  /-- The last marker of a block comment decides whether the text ends inside one. -/
  inside_iff : lexed.2 ↔ (lexed.1.filter Token.isMarker).getLast? = some .commentOpen ∨
    lexed.1.filter Token.isMarker = [] ∧ inComment

theorem Token.Shaped.text_ne_nil {t : Token} (h : t.Shaped) : t.text ≠ [] := by
  cases t with
  | word text => exact h.1
  | lineComment text =>
    obtain ⟨rest, rfl⟩ := h.1
    simp [Token.text]
  | literal text =>
    obtain ⟨quote, inner, -, -, rfl | ⟨rfl, -⟩⟩ := h
    · simp [Token.text]
    · simp [Token.text]
  | _ => simp [Token.text]

/-- Every text, also one with newlines in it, is spelled by its tokens. -/
theorem spells_tokenize (inComment : Bool) (text : Text) : Spells inComment text (tokenize inComment text) := by
  have hshaped := shaped_tokenize inComment text
  refine ⟨concat_tokenize inComment text, ?_, hshaped, ?_, ?_⟩
  · intro t ht
    exact (hshaped t ht).text_ne_nil
  · exact (Lexer.wordsApart_run (.start inComment) text).1
  · rw [← insideAfter_tokenize]
    exact Token.insideAfter_eq_true_iff inComment _

end OutOfLine

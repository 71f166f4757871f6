import OutOfLine.Proofs.CodeTokens

/-!
# Where comments are

A rule for comments that knows no tokens: a text is read from left to right with one character of lookahead,
and every character belongs to code, to a literal, to a line comment or to a block comment. The lexer, which
looks at nothing twice and holds characters back instead, gives every character to a token of the same kind,
as long as no `*` in code stands right before `//`.
-/

namespace OutOfLine

/-- What a character of a text belongs to. -/
inductive Region where
  | code
  | literal
  | lineComment
  | blockComment
  deriving DecidableEq

def Region.isComment : Region → Bool
  | lineComment => true
  | blockComment => true
  | _ => false

/-- Where a reader of a text stands between two characters. -/
inductive Place where
  /-- Outside comments and literals, after the characters of a word, latest first; and whether the last
  character was a `*`. -/
  | code (word : Text) (star : Bool)
  | literal (quote : Char) (escaped : Bool)
  | lineComment
  /-- Inside the marker that opens a block comment. -/
  | opener
  | blockComment
  /-- Inside the marker that closes a block comment. -/
  | closer
  deriving DecidableEq

namespace Place

/-- The place at the start of a piece of text. -/
def start (inComment : Bool) : Place := if inComment then .blockComment else .code [] false

def isCode : Place → Bool
  | code _ _ => true
  | _ => false

/-- Reads a character, with a look at the next one. A quote opens a literal unless it stands in a number, and a
literal ends with its closing quote or before the end of the line. -/
def read (c : Char) (next : Option Char) : Place → Region × Place
  | .code word star =>
    if c = '/' ∧ next = some '/' then (.lineComment, .lineComment)
    else if c = '/' ∧ next = some '*' then (.blockComment, .opener)
    else if Lexer.isQuote c && !Lexer.inNumber word then (.literal, .literal c false)
    else if isDelimiter c || (c == '/' && star) then (.code, .code [] (c == '*'))
    else (.code, .code (c :: word) false)
  | .literal quote escaped =>
    if c = '\n' then (.code, .code [] false)
    else if c = '\\' && !escaped then (.literal, .literal quote true)
    else if c = quote && !escaped then (.literal, .code [] false)
    else (.literal, .literal quote false)
  | .lineComment => if c = '\n' then (.code, .code [] false) else (.lineComment, .lineComment)
  | .opener => (.blockComment, .blockComment)
  | .blockComment => (.blockComment, if c = '*' ∧ next = some '/' then .closer else .blockComment)
  | .closer => (.blockComment, .code [] false)

/-- The regions of the characters of a text. -/
def regions (p : Place) : Text → List Region
  | [] => []
  | c :: cs => (p.read c cs.head?).1 :: regions (p.read c cs.head?).2 cs

/-- The place after a part of a text, before the rest. -/
def after (p : Place) : Text → Text → Place
  | [], _ => p
  | c :: a, z => after (p.read c (a ++ z).head?).2 a z

theorem after_append (p : Place) (a b z : Text) : p.after (a ++ b) z = (p.after a (b ++ z)).after b z := by
  induction a generalizing p with
  | nil => rfl
  | cons c a ih => rw [List.cons_append, after, ih, List.append_assoc, ← after]

end Place

/-- The region of a token that starts inside a block comment or not. -/
def Token.region (inside : Bool) (t : Token) : Region :=
  if inside then .blockComment
  else match t with
    | .commentOpen => .blockComment
    | .lineComment _ => .lineComment
    | .literal _ => .literal
    | _ => .code

/-- The regions of the characters of tokens that start inside a block comment or not. -/
def Token.regions (inside : Bool) : List Token → List Region
  | [] => []
  | t :: ts => List.replicate t.text.length (t.region inside) ++ regions (insideAfter inside [t]) ts

namespace Token

theorem regions_append (inside : Bool) (ts us : List Token) :
    regions inside (ts ++ us) = regions inside ts ++ regions (insideAfter inside ts) us := by
  induction ts generalizing inside with
  | nil => rfl
  | cons t ts ih =>
    rw [List.cons_append, regions, ih, ← insideAfter_append, List.singleton_append, ← List.append_assoc,
      regions]

@[simp] theorem regions_flush (inside : Bool) (word : Text) :
    regions inside (Lexer.flush word) =
      List.replicate word.length (if inside then .blockComment else .code) := by
  unfold Lexer.flush
  split
  · next h => simp [List.isEmpty_iff.mp h, regions]
  · simp [regions, region, Token.text]

@[simp] theorem regions_ofDelimiter (inside : Bool) (c : Char) :
    regions inside [.ofDelimiter c] = [if inside then .blockComment else .code] := by
  unfold ofDelimiter
  split <;> cases inside <;> rfl

theorem regions_line (t : Token) (h : insideAfter false [t] = false) :
    regions false [t, .newline] = List.replicate t.text.length (t.region false) ++ [.code] := by
  rw [regions, h]
  rfl

end Token

namespace Lexer

/-- A place, a mode of the lexer and the next character that go together. The lexer may hold a character back
whose region the place has already decided. -/
inductive Follows : Place → Mode → Option Char → Prop where
  | code (word : Text) (next : Option Char) : Follows (.code word false) (.code word) next
  | slash (word : Text) {next : Option Char} (hline : next ≠ some '/') (hblock : next ≠ some '*') :
    Follows (.code ('/' :: word) false) (.slash word) next
  | star (next : Option Char) : Follows (.code [] true) .star next
  | starSlash {next : Option Char} (hline : next ≠ some '/') (hblock : next ≠ some '*') :
    Follows (.code [] false) .starSlash next
  | literal (quote : Char) (escaped : Bool) (text : Text) (next : Option Char) :
    Follows (.literal quote escaped) (.literal quote escaped text) next
  | lineSlash (word : Text) : Follows .lineComment (.slash word) (some '/')
  | lineComment (text : Text) (next : Option Char) : Follows .lineComment (.lineComment text) next
  | openSlash (word : Text) : Follows .opener (.slash word) (some '*')
  | openStar : Follows .opener .starSlash (some '*')
  | comment (word : Text) (next : Option Char) : Follows .blockComment (.comment word) next
  | commentStar {next : Option Char} (hclose : next ≠ some '/') :
    Follows .blockComment .commentStar next
  | close : Follows .closer .commentStar (some '/')

/-- The regions of the characters that a mode holds back. -/
def held : Place → Mode → List Region
  | .lineComment, .slash word => List.replicate word.length .code ++ [.lineComment]
  | .opener, .slash word => List.replicate word.length .code ++ [.blockComment]
  | .opener, .starSlash => [.code, .blockComment]
  | _, .code word => List.replicate word.length .code
  | _, .slash word => List.replicate (word.length + 1) .code
  | _, .star => [.code]
  | _, .starSlash => [.code, .code]
  | _, .lineComment text => List.replicate text.length .lineComment
  | _, .literal _ _ text => List.replicate text.length .literal
  | _, .comment word => List.replicate word.length .blockComment
  | _, .commentStar => [.blockComment]

/-- A step of the lexer and of the rule: they still go together, and the tokens completed and the characters
still held have the regions of what was held before and of the character. -/
structure Keeps (inside : Bool) (before : List Region) (read : Region × Place) (next : Option Char)
    (result : List Token × Mode) : Prop where
  follows : Follows read.2 result.2 next
  regions_eq : Token.regions inside result.1 ++ held read.2 result.2 = before ++ [read.1]

/-- Tokens completed first have the regions of the characters that come first. -/
theorem Keeps.after {inside : Bool} {before : List Region} {read : Region × Place} {next : Option Char}
    {result : List Token × Mode} (h : Keeps inside before read next result) (tokens : List Token)
    (hin : insideAfter inside tokens = inside) :
    Keeps inside (Token.regions inside tokens ++ before) read next (Lexer.after tokens result) := by
  refine ⟨h.follows, ?_⟩
  rw [Lexer.after, Token.regions_append, hin, List.append_assoc, List.append_assoc, h.regions_eq]

private theorem keeps_slash (word : Text) (next : Option Char) :
    Keeps false (List.replicate word.length .code) ((Place.code word false).read '/' next) next
      ([], .slash word) := by
  by_cases hline : next = some '/'
  · subst hline
    exact ⟨.lineSlash word, rfl⟩
  · by_cases hblock : next = some '*'
    · subst hblock
      exact ⟨.openSlash word, rfl⟩
    · have hread : (Place.code word false).read '/' next = (.code, .code ('/' :: word) false) := by
        simp [Place.read, hline, hblock, isQuote, isDelimiter, delimiters]
      rw [hread]
      refine ⟨.slash word hline hblock, ?_⟩
      simp [Token.regions, held, List.replicate_succ']

private theorem keeps_readCode (word : Text) (star : Bool) (c : Char) (hstar : star → c ≠ '/')
    (next : Option Char) :
    Keeps false (List.replicate word.length .code) ((Place.code word star).read c next) next
      (readCode word c) := by
  by_cases hslash : c = '/'
  · subst hslash
    obtain rfl : star = false := by cases star <;> simp_all
    exact keeps_slash word next
  · have hbeq : (c == '/') = false := beq_eq_false_iff_ne.mpr hslash
    simp only [readCode, Place.read, hslash, if_false, false_and, hbeq, Bool.false_and, Bool.or_false]
    by_cases hast : c = '*'
    · subst hast
      exact ⟨.star next, by simp [held, isQuote, isDelimiter, delimiters]⟩
    · rw [if_neg hast, beq_eq_false_iff_ne.mpr hast]
      split
      · exact ⟨.literal c false [c] next, by simp [held]⟩
      · split
        · exact ⟨.code [] next, by simp [held, Token.regions_append]⟩
        · exact ⟨.code (c :: word) next, by simp [held, Token.regions, List.replicate_succ']⟩

private theorem keeps_readComment (word : Text) (c : Char) (next : Option Char) :
    Keeps true (List.replicate word.length .blockComment) (Place.blockComment.read c next) next
      (readComment word c) := by
  simp only [readComment, Place.read]
  by_cases hast : c = '*'
  · subst hast
    by_cases hclose : next = some '/'
    · subst hclose
      exact ⟨.close, by simp [held]⟩
    · simp only [hclose, and_false, if_false, if_true]
      exact ⟨.commentStar hclose, by simp [held]⟩
  · simp only [hast, false_and, if_false]
    split
    · exact ⟨.comment [] next, by simp [held, Token.regions_append]⟩
    · exact ⟨.comment (c :: word) next, by simp [held, Token.regions, List.replicate_succ']⟩

/-- The lexer keeps to the rule, except where a `*` and a line comment meet. -/
theorem keeps_step {p : Place} {mode : Mode} {c : Char} (h : Follows p mode (some c)) (next : Option Char)
    (hclean : ∀ word, p = .code word true → ¬ (c = '/' ∧ next = some '/')) :
    Keeps mode.inComment (held p mode) (p.read c next) next (step mode c) := by
  cases h with
  | code word => exact keeps_readCode word false c (by simp) next
  | slash word hline hblock =>
    have hread := keeps_readCode ('/' :: word) false c (by simp) next
    simp only [step]
    rw [if_neg (by simpa using hline), if_neg (by simpa using hblock)]
    exact hread
  | star =>
    by_cases hslash : c = '/'
    · -- The `*` is already in code, and the `/` behind it opens a block comment or nothing.
      subst hslash
      have hline : next ≠ some '/' := fun hline => hclean [] rfl ⟨rfl, hline⟩
      by_cases hblock : next = some '*'
      · subst hblock
        exact ⟨.openStar, rfl⟩
      · have hread : (Place.code [] true).read '/' next = (.code, .code [] false) := by
          simp [Place.read, hline, hblock, isQuote]
        rw [hread]
        exact ⟨.starSlash hline hblock, rfl⟩
    · have hread := (keeps_readCode [] true c (fun _ => hslash) next).after [.delimiter '*'] rfl
      simp only [step, if_neg hslash]
      exact hread
  | starSlash hline hblock =>
    have hread := (keeps_readCode [] false c (by simp) next).after [.commentClose] rfl
    simp only [step, if_neg (show ¬ c = '*' by simpa using hblock)]
    exact hread
  | literal quote escaped text =>
    simp only [step, Place.read, Mode.inComment]
    split
    · exact ⟨.code [] next, by rw [Token.regions_line _ rfl]; simp [held, Token.region, Token.text]⟩
    · split
      · exact ⟨.literal quote true (c :: text) next, by simp [held, Token.regions, List.replicate_succ']⟩
      · split
        · exact ⟨.code [] next, by simp [held, Token.regions, Token.region, Token.text, List.replicate_succ']⟩
        · exact ⟨.literal quote false (c :: text) next, by simp [held, Token.regions, List.replicate_succ']⟩
  | lineComment text =>
    simp only [step, Place.read, Mode.inComment]
    split
    · exact ⟨.code [] next, by rw [Token.regions_line _ rfl]; simp [held, Token.region, Token.text]⟩
    · exact ⟨.lineComment (c :: text) next, by simp [held, Token.regions, List.replicate_succ']⟩
  | lineSlash word => exact ⟨.lineComment ['/', '/'] next, by simp [step, Place.read, held, Mode.inComment]⟩
  | openSlash word =>
    have hopen : Token.regions false [.commentOpen] = [.blockComment, .blockComment] := rfl
    exact ⟨.comment [] next,
      by simp [step, Place.read, held, Mode.inComment, Token.regions_append, hopen]⟩
  | openStar => exact ⟨.comment [] next, rfl⟩
  | comment word => exact keeps_readComment word c next
  | commentStar hclose =>
    have hread := (keeps_readComment [] c next).after [.delimiter '*'] rfl
    simp only [step, if_neg (show ¬ c = '/' by simpa using hclose)]
    exact hread
  | close => exact ⟨.code [] next, rfl⟩

end Lexer

namespace Place

/-- While `a` is read before `z`, no `*` read in code stands right before `//`. -/
structure Clean (p : Place) (a z : Text) : Prop where
  later : ∀ u v, a = u ++ '*' :: v → (p.after u ('*' :: v ++ z)).isCode → ¬ ['/', '/'] <+: v ++ z
  here : ∀ word, p = .code word true → a ≠ [] → ¬ ['/', '/'] <+: a ++ z

theorem star_of_read {p : Place} {c : Char} {next : Option Char} {word : Text}
    (h : (p.read c next).2 = .code word true) : c = '*' ∧ p.isCode := by
  cases p with
  | code w star =>
    refine ⟨?_, rfl⟩
    simp only [read] at h
    split at h
    · simp at h
    · split at h
      · simp at h
      · split at h
        · simp at h
        · split at h
          · simpa using (Place.code.inj h).2
          · simp at h
  | literal quote escaped =>
    simp only [read] at h
    split at h
    · simp at h
    · split at h
      · simp at h
      · split at h <;> simp at h
  | lineComment => simp only [read] at h; split at h <;> simp at h
  | opener => simp [read] at h
  | blockComment => simp only [read] at h; split at h <;> simp at h
  | closer => simp [read] at h

theorem read_star {p : Place} (h : p.isCode) (next : Option Char) : (p.read '*' next).2 = .code [] true := by
  cases p with
  | code word star => simp [read, Lexer.isQuote, isDelimiter, delimiters]
  | _ => simp [isCode] at h

theorem Clean.step {p : Place} {c : Char} {a z : Text} (h : p.Clean (c :: a) z) :
    (p.read c (a ++ z).head?).2.Clean a z := by
  constructor
  · rintro u v rfl hcode
    refine h.later (c :: u) v rfl ?_
    simpa [after] using hcode
  · intro word hread hne
    obtain ⟨rfl, hp⟩ := star_of_read hread
    exact h.later [] a rfl hp

/-- What follows a part that was read is as clean as the whole. -/
theorem Clean.after {p : Place} {a b z : Text} (h : p.Clean (a ++ b) z) : (p.after a (b ++ z)).Clean b z := by
  induction a generalizing p with
  | nil => exact h
  | cons c a ih =>
    have hstep := (show p.Clean (c :: (a ++ b)) z from h).step
    rw [List.append_assoc] at hstep
    exact ih hstep

theorem Clean.front {p : Place} {a b z : Text} (h : p.Clean (a ++ b) z) : p.Clean a (b ++ z) := by
  constructor
  · rintro u v rfl hcode
    have hlater := h.later u (v ++ b) (by simp)
    simp only [List.cons_append, List.append_assoc] at hlater hcode ⊢
    exact hlater hcode
  · intro word hword hne
    have hhere := h.here word hword (by simp [hne])
    rwa [List.append_assoc] at hhere

end Place

namespace Lexer

theorem follows_start (inComment : Bool) (next : Option Char) :
    Follows (.start inComment) (.start inComment) next := by
  cases inComment with
  | true => exact .comment [] next
  | false => exact .code [] next

private theorem not_slashes_of_clean {p : Place} {c : Char} {a z : Text} (h : p.Clean (c :: a) z) {word : Text}
    (hp : p = .code word true) : ¬ (c = '/' ∧ (a ++ z).head? = some '/') := by
  rintro ⟨rfl, hnext⟩
  obtain ⟨rest, hrest⟩ := List.head?_eq_some_iff.mp hnext
  exact h.here word hp (by simp) (by simp [hrest])

/-- The lexer and the rule go together through every clean part of a text. -/
theorem follows_read {p : Place} {mode : Mode} {a z : Text} (h : Follows p mode (a ++ z).head?)
    (hclean : p.Clean a z) : Follows (p.after a z) (read mode a).2 z.head? := by
  induction a generalizing p mode with
  | nil => exact h
  | cons c a ih =>
    have hkeeps := keeps_step h (a ++ z).head? fun _ hp => not_slashes_of_clean hclean hp
    exact ih hkeeps.follows hclean.step

private theorem regions_finish {p : Place} {mode : Mode} (h : Follows p mode none) :
    Token.regions mode.inComment mode.finish = held p mode := by
  cases h <;> simp [Mode.finish, Mode.inComment, held, Token.regions, Token.region, Token.text]

/-- The tokens of a clean text have the regions that the rule gives to its characters. -/
theorem regions_run {p : Place} {mode : Mode} {text : Text} (h : Follows p mode text.head?)
    (hclean : p.Clean text []) :
    Token.regions mode.inComment (run mode text).1 = held p mode ++ p.regions text := by
  induction text generalizing p mode with
  | nil => simpa [run, Place.regions] using regions_finish h
  | cons c cs ih =>
    have hkeeps := keeps_step h (cs ++ []).head? fun _ hp => not_slashes_of_clean hclean hp
    have hstep := hclean.step
    rw [List.append_nil] at hkeeps hstep
    rw [run, Token.regions_append, insideAfter_step, Place.regions, ih hkeeps.follows hstep,
      ← List.append_assoc, hkeeps.regions_eq, List.append_assoc, List.singleton_append]

end Lexer

theorem regions_tokenize {inComment : Bool} {text : Text} (h : (Place.start inComment).Clean text []) :
    Token.regions inComment (tokenize inComment text).1 = (Place.start inComment).regions text := by
  have hrun := Lexer.regions_run (Lexer.follows_start inComment text.head?) h
  rw [Lexer.inComment_start] at hrun
  rw [tokenize, hrun]
  cases inComment <;> rfl

end OutOfLine

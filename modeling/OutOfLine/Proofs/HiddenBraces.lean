import OutOfLine.Access
import OutOfLine.Proofs.Lines
import OutOfLine.Proofs.RecognisedComments
import Mathlib.Data.List.Forall2

/-!
# Braces in literals and comments and the access label in force

The label in force at a line is searched upwards, and every brace on the way counts, also one in a literal or a
comment. If such hidden braces may each be replaced by another letter, the depth that is reached at a line may be
any number of an interval, and the label of a line is lost if the brace directly behind its keyword was hidden.
The answer is the same after every replacement exactly when no depth of these intervals leads to another one.
-/

namespace OutOfLine

/-- A character of a document, and whether it is in a literal or a comment. -/
structure Marked where
  char : Char
  hidden : Bool
  deriving DecidableEq

namespace Marked

/-- A brace that is in a literal or a comment. -/
def isHiddenBrace (x : Marked) : Bool := x.hidden && (x.char == '{' || x.char == '}')

/-- What may stand for a character if hidden braces may be replaced by an `x`. -/
def Covers (x : Marked) (c : Char) : Prop := c = x.char ∨ x.isHiddenBrace ∧ c = 'x'

instance (x : Marked) (c : Char) : Decidable (x.Covers c) := inferInstanceAs (Decidable (_ ∨ _))

theorem covers_visible {c d : Char} : Covers ⟨c, false⟩ d ↔ d = c := by simp [Covers, isHiddenBrace]

/-- A hidden brace stands as it is or is an `x`. -/
theorem covers_hidden {x : Marked} (h : x.isHiddenBrace) (c : Char) :
    x.Covers c ↔ Covers ⟨x.char, false⟩ c ∨ Covers ⟨'x', false⟩ c := by
  rw [covers_visible, covers_visible, Covers, and_iff_right h]

end Marked

/-- The characters of a line, marked as the lexer reads the line. -/
def mark (inComment : Bool) (content : Text) : List Marked :=
  (content.zip (Token.regions inComment (tokenize inComment content).1)).map fun place =>
    ⟨place.1, place.2 != .code⟩

/-- Lines marked one after the other, each in the state in which the lines before it leave the lexer. -/
def markContents (inComment : Bool) : List Text → List (List Marked)
  | [] => []
  | content :: rest => mark inComment content :: markContents (tokenize inComment content).2 rest

/-- The same for lines with their endings. -/
def markLines (inComment : Bool) : List Line → List Marked
  | [] => []
  | line :: rest => mark inComment line.content ++ line.ending.text.map (Marked.mk · false) ++
      markLines (tokenize inComment line.content).2 rest

/-- The characters of a document, marked as it is lexed from its start. -/
def Document.marked (doc : Document) : List Marked := markLines false doc.lines

/-- A document in which some hidden braces of another are replaced by an `x`. -/
def Document.Covers (doc doc' : Document) : Prop := List.Forall₂ Marked.Covers doc.marked doc'.text

instance (doc doc' : Document) : Decidable (doc.Covers doc') :=
  decidable_of_iff (doc.marked.length = doc'.text.length ∧
      (doc.marked.zip doc'.text).all fun places => decide (places.1.Covers places.2)) (by
    rw [Document.Covers, List.forall₂_iff_zip, List.all_eq_true]
    simp only [decide_eq_true_eq, Prod.forall])

@[simp] theorem map_char_mark (inComment : Bool) (content : Text) :
    (mark inComment content).map Marked.char = content := by
  rw [mark, List.map_map]
  apply List.map_fst_zip
  rw [Token.length_regions, concat_tokenize]

section Relations

variable {α β : Type} {R : α → β → Prop}

theorem forall₂_append_left {a b : List α} {t : List β} :
    List.Forall₂ R (a ++ b) t ↔ ∃ u v, t = u ++ v ∧ List.Forall₂ R a u ∧ List.Forall₂ R b v := by
  constructor
  · intro h
    refine ⟨t.take a.length, t.drop a.length, (List.take_append_drop _ _).symm, ?_, ?_⟩
    · simpa using List.forall₂_take a.length h
    · simpa using List.forall₂_drop a.length h
  · rintro ⟨u, v, rfl, hu, hv⟩
    exact List.rel_append hu hv

/-- A relation on one element of a list that holds in one of two cases may be split. -/
theorem forall₂_split {a b : List α} {x y z : α} (h : ∀ c, R x c ↔ R y c ∨ R z c) {t : List β} :
    List.Forall₂ R (a ++ x :: b) t ↔ List.Forall₂ R (a ++ y :: b) t ∨ List.Forall₂ R (a ++ z :: b) t := by
  simp only [forall₂_append_left, List.forall₂_cons_left_iff, h]
  constructor
  · rintro ⟨u, v, rfl, hu, c, w, hc | hc, hw, rfl⟩
    · exact .inl ⟨u, _, rfl, hu, c, w, hc, hw, rfl⟩
    · exact .inr ⟨u, _, rfl, hu, c, w, hc, hw, rfl⟩
  · rintro (⟨u, v, rfl, hu, c, w, hc, hw, rfl⟩ | ⟨u, v, rfl, hu, c, w, hc, hw, rfl⟩)
    · exact ⟨u, _, rfl, hu, c, w, .inl hc, hw, rfl⟩
    · exact ⟨u, _, rfl, hu, c, w, .inr hc, hw, rfl⟩

end Relations

namespace Marked

variable {marks : List Marked} {t : Text}

theorem forall₂_visible {a t : Text} : List.Forall₂ Covers (a.map (Marked.mk · false)) t ↔ t = a := by
  rw [List.forall₂_map_left_iff]
  simp only [covers_visible]
  rw [show (fun c d : Char => d = c) = fun c d => c = d from by funext c d; exact propext eq_comm,
    List.forall₂_eq_eq_eq, eq_comm]

theorem forall₂_covers_self (marks : List Marked) : List.Forall₂ Covers marks (marks.map char) := by
  rw [List.forall₂_map_right_iff, List.forall₂_same]
  exact fun x _ => .inl rfl

/-- Only a brace may be replaced, so that any other character is where it was. -/
theorem Covers.eq_iff {x : Marked} {c d : Char} (h : x.Covers c) (hd : d ∉ ['{', '}', 'x']) :
    c = d ↔ x.char = d := by
  simp only [List.mem_cons, List.not_mem_nil, or_false, not_or] at hd
  rcases h with rfl | ⟨hbrace, rfl⟩
  · rfl
  · simp only [isHiddenBrace, Bool.and_eq_true, Bool.or_eq_true, beq_iff_eq] at hbrace
    rcases hbrace.2 with hchar | hchar <;> rw [hchar]
    · exact iff_of_false (Ne.symm hd.2.2) (Ne.symm hd.1)
    · exact iff_of_false (Ne.symm hd.2.2) (Ne.symm hd.2.1)

theorem mem_iff (h : List.Forall₂ Covers marks t) {d : Char} (hd : d ∉ ['{', '}', 'x']) :
    d ∈ t ↔ d ∈ marks.map char := by
  induction h with
  | nil => rfl
  | cons hc _ ih =>
    rw [List.mem_cons, List.map_cons, List.mem_cons, ih, eq_comm, hc.eq_iff hd, eq_comm]

theorem getLast?_iff (h : List.Forall₂ Covers marks t) {d : Char} (hd : d ∉ ['{', '}', 'x']) :
    t.getLast? = some d ↔ (marks.map char).getLast? = some d := by
  induction h with
  | nil => rfl
  | cons hc hrest ih =>
    cases hrest with
    | nil => simpa using hc.eq_iff hd
    | cons hc' hrest => simpa [List.getLast?_cons_cons] using ih

end Marked

theorem Line.Ended.covered {inComment : Bool} {content content' : Text} {ending : LineEnd}
    (hended : Line.Ended content ending) (h : List.Forall₂ Marked.Covers (mark inComment content) content') :
    Line.Ended content' ending := by
  refine ⟨?_, hended.ending_ne, ?_⟩
  · rw [Marked.mem_iff h (by decide), map_char_mark]
    exact hended.no_newline
  · intro hlf
    rw [Ne, Marked.getLast?_iff h (by decide), map_char_mark]
    exact hended.no_return hlf

/-- The lines of covered texts are the covered lines of the text. -/
theorem exists_covered_iff (t : Text) (inComment : Bool) (number start : Nat) (contents : List Text) :
    (∃ t' : Text, List.Forall₂ Marked.Covers (markLines inComment (t.linesAt number start)) t' ∧
        (t'.linesAt 1 0).map Line.content = contents) ↔
      List.Forall₂ (List.Forall₂ Marked.Covers)
        (markContents inComment ((t.linesAt number start).map Line.content)) contents := by
  induction t using Text.line_induction generalizing inComment number start contents with
  | last content hnl =>
    have hlast {t' : Text} (ht : List.Forall₂ Marked.Covers (mark inComment content) t') :
        (t'.linesAt 1 0).map Line.content = [t'] := by
      rw [Text.linesAt_last _ _ ((Marked.mem_iff ht (by decide)).not.mpr (by rwa [map_char_mark]))]
      rfl
    simp only [Text.linesAt_last _ _ hnl, markLines, markContents, LineEnd.text, List.map_nil, List.append_nil,
      List.map_cons, List.forall₂_cons_left_iff, List.forall₂_nil_left_iff]
    constructor
    · rintro ⟨t', ht, rfl⟩
      exact ⟨t', [], ht, rfl, hlast ht⟩
    · rintro ⟨t', _, ht, rfl, rfl⟩
      exact ⟨t', ht, hlast ht⟩
  | line content ending rest hended ih =>
    simp only [Text.linesAt_line _ _ hended, markLines, markContents, List.map_cons, forall₂_append_left,
      List.forall₂_cons_left_iff, ← ih, Marked.forall₂_visible]
    constructor
    · rintro ⟨_, ⟨_, rest', rfl, ⟨content', _, rfl, hcontent, rfl⟩, hrest⟩, rfl⟩
      refine ⟨content', _, hcontent, ⟨rest', hrest, rfl⟩, ?_⟩
      rw [Text.linesAt_line _ _ (hended.covered hcontent), List.map_cons, Text.map_content_linesAt _ _ _ 1 0]
    · rintro ⟨content', _, hcontent, ⟨rest', hrest, rfl⟩, rfl⟩
      refine ⟨content' ++ ending.text ++ rest', ⟨_, rest', rfl, ⟨content', _, rfl, hcontent, rfl⟩, hrest⟩, ?_⟩
      rw [Text.linesAt_line _ _ (hended.covered hcontent), List.map_cons, Text.map_content_linesAt _ _ _ 1 0]

namespace Access

theorem closing_cons (c : Char) (t : Text) : closing (c :: t) = closing [c] + closing t := by
  simp only [closing, List.count_cons, List.count_nil]
  omega

/-- The least that a line closes if hidden braces may be replaced. -/
def least : List Marked → Int
  | [] => 0
  | x :: marks => (if x.isHiddenBrace then min (closing [x.char]) 0 else closing [x.char]) + least marks

/-- The most that a line closes if hidden braces may be replaced. -/
def most : List Marked → Int
  | [] => 0
  | x :: marks => (if x.isHiddenBrace then max (closing [x.char]) 0 else closing [x.char]) + most marks

theorem least_le_most (marks : List Marked) : least marks ≤ most marks := by
  induction marks with
  | nil => exact Int.le_refl 0
  | cons x marks ih =>
    rw [least, most]
    split <;> omega

/-- Every number between the least and the most is reached. -/
theorem exists_closing_iff (marks : List Marked) (k : Int) :
    (∃ t, List.Forall₂ Marked.Covers marks t ∧ closing t = k) ↔ least marks ≤ k ∧ k ≤ most marks := by
  induction marks generalizing k with
  | nil =>
    simp only [List.forall₂_nil_left_iff, exists_eq_left, least, most]
    exact ⟨fun h => by simp [← h, closing], fun h => by simp [closing]; omega⟩
  | cons x marks ih =>
    have hle := least_le_most marks
    have hone : closing ['x'] = 0 := rfl
    rw [least, most]
    constructor
    · rintro ⟨t, ht, rfl⟩
      obtain ⟨c, rest, hc, hrest, rfl⟩ := List.forall₂_cons_left_iff.mp ht
      have hrange := (ih (closing rest)).mp ⟨rest, hrest, rfl⟩
      have hsum := closing_cons c rest
      rcases hc with rfl | ⟨hbrace, rfl⟩
      · split <;> omega
      · rw [if_pos hbrace, if_pos hbrace]
        omega
    · intro hk
      by_cases hkeep : least marks ≤ k - closing [x.char] ∧ k - closing [x.char] ≤ most marks
      · obtain ⟨t, ht, hclosing⟩ := (ih _).mpr hkeep
        exact ⟨x.char :: t, .cons (.inl rfl) ht, by rw [closing_cons, hclosing]; omega⟩
      · have hbrace : x.isHiddenBrace := by
          by_contra hvisible
          rw [if_neg hvisible, if_neg hvisible] at hk
          omega
        have hbound : -1 ≤ closing [x.char] ∧ closing [x.char] ≤ 1 := by
          simp only [closing, List.count_cons, List.count_nil]
          split <;> split <;> omega
        rw [if_pos hbrace, if_pos hbrace] at hk
        obtain ⟨t, ht, hclosing⟩ := (ih k).mpr (by omega)
        exact ⟨'x' :: t, .cons (.inr ⟨hbrace, rfl⟩) ht, by rw [closing_cons, hclosing, hone]; omega⟩

end Access

/-- A character, or an `x` for a brace. -/
def withoutBrace (c : Char) : Char := if c = '{' ∨ c = '}' then 'x' else c

theorem Marked.map_withoutBrace {marks : List Marked} {t : Text} (h : List.Forall₂ Marked.Covers marks t) :
    t.map withoutBrace = (marks.map Marked.char).map withoutBrace := by
  induction h with
  | nil => rfl
  | @cons x c _ _ hc _ ih =>
    have hchar : withoutBrace c = withoutBrace x.char := by
      rcases hc with rfl | ⟨hbrace, rfl⟩
      · rfl
      · simp only [isHiddenBrace, Bool.and_eq_true, Bool.or_eq_true, beq_iff_eq] at hbrace
        rw [withoutBrace, withoutBrace, if_pos hbrace.2]
        decide
    rw [List.map_cons, List.map_cons, List.map_cons, ih, hchar]

/-- Who does not tell a brace from an `x` reads a text without braces the same way. -/
theorem comp_withoutBrace {p : Char → Bool} (hopen : p '{' = p 'x') (hclose : p '}' = p 'x') :
    p ∘ withoutBrace = p := by
  funext c
  rw [Function.comp, withoutBrace]
  split
  · next hc => rcases hc with rfl | rfl <;> simp [hopen, hclose]
  · rfl

theorem Text.trimStart_withoutBrace (t : Text) : trimStart (t.map withoutBrace) = t.trimStart.map withoutBrace := by
  rw [trimStart, List.dropWhile_map, comp_withoutBrace (by decide) (by decide), trimStart]

namespace Access

theorem isPrefixOf_withoutBrace {word : Text} (h : ∀ c ∈ word, withoutBrace c = c ∧ c ≠ 'x') (t : Text) :
    word.isPrefixOf (t.map withoutBrace) = word.isPrefixOf t := by
  induction word generalizing t with
  | nil => rfl
  | cons d word ih =>
    cases t with
    | nil => rfl
    | cons c t =>
      rw [List.forall_mem_cons] at h
      have hd : (d == withoutBrace c) = (d == c) := by
        rw [withoutBrace]
        split
        · next hc =>
          have hne : d ≠ c := by
            rintro rfl
            exact h.1.2 (by rw [← h.1.1, withoutBrace, if_pos hc])
          rw [beq_eq_false_iff_ne.mpr h.1.2, beq_eq_false_iff_ne.mpr hne]
        · rfl
      rw [List.map_cons, List.isPrefixOf, List.isPrefixOf, ih h.2, hd]

theorem keyword_withoutBrace (access : Access) (c : Char) (hc : c ∈ access.keyword) :
    withoutBrace c = c ∧ c ≠ 'x' := by
  have hall : access.keyword.all fun c => withoutBrace c == c && c != 'x' := by cases access <;> decide
  simpa using List.all_eq_true.mp hall c hc

theorem nothingFollows_withoutBrace (t : Text) : nothingFollows (t.map withoutBrace) = nothingFollows t := by
  have hslash (c : Char) : withoutBrace c = '/' ↔ c = '/' := by
    rw [withoutBrace]
    split
    · next hc => rcases hc with rfl | rfl <;> decide
    · rfl
  have hnewline (u : Text) : (u.map withoutBrace).contains '\n' = u.contains '\n' := by
    rw [List.contains_eq_any_beq, List.any_map, comp_withoutBrace (by decide) (by decide),
      ← List.contains_eq_any_beq]
  rw [nothingFollows, nothingFollows, Text.trimStart_withoutBrace]
  match t.trimStart with
  | [] => rfl
  | [c] => simp
  | c :: d :: u =>
    by_cases hc : c = '/' ∧ d = '/'
    · obtain ⟨rfl, rfl⟩ := hc
      exact congrArg not (hnewline u)
    · have hc' : ¬ (withoutBrace c = '/' ∧ withoutBrace d = '/') := by rwa [hslash, hslash]
      simp only [List.map_cons]
      split <;> simp_all

theorem eq_of_isPrefixOf {access other : Access} {t : Text} (h : access.keyword.isPrefixOf t)
    (hother : other.keyword.isPrefixOf t) : access = other := by
  have hkey (a b : Access) : a.keyword.isPrefixOf b.keyword = (a == b) := by cases a <;> cases b <;> rfl
  have hboth := List.prefix_or_prefix_of_prefix (List.isPrefixOf_iff_prefix.mp h)
    (List.isPrefixOf_iff_prefix.mp hother)
  rw [← List.isPrefixOf_iff_prefix, ← List.isPrefixOf_iff_prefix, hkey, hkey, beq_iff_eq, beq_iff_eq] at hboth
  exact hboth.elim id Eq.symm

/-- The access keyword that a line starts with. -/
def keyword? (t : Text) : Option Access :=
  [isPublic, isProtected, isPrivate].find? fun access => access.keyword.isPrefixOf t.trimStart

theorem keyword?_eq_some {access : Access} {t : Text} (h : access.keyword.isPrefixOf t.trimStart) :
    keyword? t = some access := by
  cases hfound : keyword? t with
  | none =>
    have := List.find?_eq_none.mp hfound access (by cases access <;> simp)
    exact absurd h (by simpa using this)
  | some other =>
    have hother : other.keyword.isPrefixOf t.trimStart := by simpa using List.find?_some hfound
    rw [eq_of_isPrefixOf hother h]

/-- Where a line goes on behind its access keyword. -/
def behind? (t : Text) : Option Nat :=
  (keyword? t).map fun access => (t.takeWhile isBlankChar).length + access.keyword.length

theorem behind?_withoutBrace (t : Text) : behind? (t.map withoutBrace) = behind? t := by
  have hkeyword : keyword? (t.map withoutBrace) = keyword? t := by
    rw [keyword?, keyword?, Text.trimStart_withoutBrace]
    congr 1
    funext access
    exact isPrefixOf_withoutBrace access.keyword_withoutBrace _
  rw [behind?, hkeyword, List.takeWhile_map, comp_withoutBrace (by decide) (by decide), List.length_map, behind?]

theorem head?_behind (n : Nat) (t : Text) :
    (t.trimStart.drop n).head? = t[(t.takeWhile isBlankChar).length + n]? := by
  have hparts : t = t.takeWhile isBlankChar ++ t.trimStart := List.takeWhile_append_dropWhile.symm
  generalize t.takeWhile isBlankChar = front at hparts ⊢
  generalize t.trimStart = rest at hparts ⊢
  rw [hparts, List.head?_drop, List.getElem?_append_right (Nat.le_add_right _ _), Nat.add_sub_cancel_left]

theorem endsLabel_eq (t : Text) : endsLabel t = (!t.head?.any isWordChar &&
    match (t.map withoutBrace).dropWhile (· ≠ ':') with
    | ':' :: rest => nothingFollows rest
    | _ => false) := by
  rw [endsLabel, List.dropWhile_map, comp_withoutBrace (by decide) (by decide)]
  congr 1
  cases hrest : t.dropWhile (· ≠ ':') with
  | nil => rfl
  | cons c rest =>
    have hcolon : c = ':' := by
      have := List.head?_dropWhile_not (fun c => decide (c ≠ ':')) t
      rw [hrest] at this
      simpa using this
    rw [hcolon]
    exact (nothingFollows_withoutBrace rest).symm

/-- Lines that differ in braces have the same label, if they agree in the character behind the keyword. -/
theorem label?_congr {t t' : Text} (h : t'.map withoutBrace = t.map withoutBrace)
    (hbehind : ∀ place, behind? t = some place → t'[place]? = t[place]?) : label? t' = label? t := by
  have hstart : t'.trimStart.map withoutBrace = t.trimStart.map withoutBrace := by
    rw [← Text.trimStart_withoutBrace, h, Text.trimStart_withoutBrace]
  have hblanks : (t'.takeWhile isBlankChar).length = (t.takeWhile isBlankChar).length := by
    have := congrArg (fun u => (u.takeWhile isBlankChar).length) h
    simpa only [List.takeWhile_map, comp_withoutBrace (show isBlankChar '{' = isBlankChar 'x' from by decide)
      (by decide), List.length_map] using this
  rw [label?, label?]
  congr 1
  funext access
  rw [← isPrefixOf_withoutBrace access.keyword_withoutBrace t'.trimStart, hstart,
    isPrefixOf_withoutBrace access.keyword_withoutBrace]
  cases hkeyword : access.keyword.isPrefixOf t.trimStart with
  | false => rfl
  | true =>
    have hrest : (t'.trimStart.drop access.keyword.length).map withoutBrace =
        (t.trimStart.drop access.keyword.length).map withoutBrace := by
      rw [List.map_drop, List.map_drop, hstart]
    have hplace : behind? t = some ((t.takeWhile isBlankChar).length + access.keyword.length) := by
      rw [behind?, keyword?_eq_some hkeyword]
      rfl
    have hhead : (t'.trimStart.drop access.keyword.length).head? =
        (t.trimStart.drop access.keyword.length).head? := by
      rw [head?_behind, head?_behind, hblanks, hbehind _ hplace]
    rw [endsLabel_eq, endsLabel_eq, hhead, hrest]

/-- What stands directly behind the keyword of a line is no hidden brace. -/
def Firm (marks : List Marked) : Prop :=
  ∀ place, behind? (marks.map Marked.char) = some place → ∀ x ∈ marks[place]?, x.isHiddenBrace = false

/-- A firm line keeps its label. -/
theorem Firm.label?_eq {marks : List Marked} (h : Firm marks) {t : Text}
    (ht : List.Forall₂ Marked.Covers marks t) : label? t = label? (marks.map Marked.char) := by
  apply label?_congr (Marked.map_withoutBrace ht)
  intro place hplace
  have hvisible := h place hplace
  clear hplace h
  induction ht generalizing place with
  | nil => rfl
  | cons hc _ ih =>
    cases place with
    | zero =>
      have hchar := hc.resolve_right fun hx => Bool.false_ne_true ((hvisible _ rfl).symm.trans hx.1)
      simp [hchar]
    | succ place => exact ih place hvisible

/-- The place of a hidden brace directly behind the keyword of a line, and the brace. -/
def loose? (marks : List Marked) : Option (Nat × Char) :=
  (behind? (marks.map Marked.char)).bind fun place =>
    (marks[place]?.filter Marked.isHiddenBrace).map fun x => (place, x.char)

theorem firm_of_loose?_eq_none {marks : List Marked} (h : loose? marks = none) : Firm marks := by
  intro place hplace x hx
  rw [loose?, hplace, Option.bind_some, Option.map_eq_none_iff, Option.mem_def.mp hx] at h
  simpa [Option.filter] using h

theorem exists_of_loose?_eq_some {marks : List Marked} {place : Nat} {brace : Char}
    (h : loose? marks = some (place, brace)) :
    ∃ a x b, marks = a ++ x :: b ∧ a.length = place ∧ x.isHiddenBrace ∧ x.char = brace ∧
      behind? (marks.map Marked.char) = some place := by
  obtain ⟨place', hplace, hfound⟩ := Option.bind_eq_some_iff.mp h
  obtain ⟨x, hx, heq⟩ := Option.map_eq_some_iff.mp hfound
  obtain ⟨rfl, rfl⟩ := Prod.mk.inj heq
  obtain ⟨hget, hhidden⟩ := Option.filter_eq_some_iff.mp hx
  obtain ⟨hlt, hget⟩ := List.getElem?_eq_some_iff.mp hget
  refine ⟨marks.take place', x, marks.drop (place' + 1), ?_, ?_, hhidden, rfl, hplace⟩
  · rw [← hget, List.cons_getElem_drop_succ, List.take_append_drop]
  · rw [List.length_take, Nat.min_eq_left hlt.le]

/-- With the brace behind its keyword decided, a line is firm. -/
theorem firm_decided {a b : List Marked} {x : Marked} {c : Char} (hc : withoutBrace c = withoutBrace x.char)
    (h : behind? ((a ++ x :: b).map Marked.char) = some a.length) : Firm (a ++ ⟨c, false⟩ :: b) := by
  intro place hplace y hy
  have hsame : ((a ++ ⟨c, false⟩ :: b).map Marked.char).map withoutBrace =
      ((a ++ x :: b).map Marked.char).map withoutBrace := by simp [hc]
  rw [← behind?_withoutBrace, hsame, behind?_withoutBrace, h] at hplace
  obtain rfl := Option.some.inj hplace
  rw [List.getElem?_append_right (Nat.le_refl _), Nat.sub_self] at hy
  obtain rfl := Option.some.inj hy
  rfl

/-- What a line may be to the search for a label: its label, and the least and the most that it closes. -/
structure Reading where
  label : Option Access
  least : Int
  most : Int

/-- What the search reads of a line. -/
def seen (t : Text) : Option Access × Int := (label? t, closing t)

/-- The least depth from which the search goes on past the line. -/
def Reading.floor (r : Reading) : Int := if r.label.isSome then 1 else 0

def Reading.Allows (r : Reading) (s : Option Access × Int) : Prop :=
  s.1 = r.label ∧ r.least ≤ s.2 ∧ s.2 ≤ r.most

/-- How a firm line may be read. -/
def reading (marks : List Marked) : Reading := ⟨label? (marks.map Marked.char), least marks, most marks⟩

/-- How a line may be read. A hidden brace behind the keyword ends it, and an `x` in its place does not, so that
the two cases are told apart. -/
def readings (marks : List Marked) : List Reading :=
  match loose? marks with
  | none => [reading marks]
  | some (place, brace) => [reading (marks.set place ⟨brace, false⟩), reading (marks.set place ⟨'x', false⟩)]

theorem exists_seen_firm {marks : List Marked} (h : Firm marks) (s : Option Access × Int) :
    (∃ t, List.Forall₂ Marked.Covers marks t ∧ seen t = s) ↔ (reading marks).Allows s := by
  constructor
  · rintro ⟨t, ht, rfl⟩
    exact ⟨h.label?_eq ht, (exists_closing_iff marks _).mp ⟨t, ht, rfl⟩⟩
  · rintro ⟨hlabel, hrange⟩
    obtain ⟨t, ht, hclosing⟩ := (exists_closing_iff marks s.2).mpr hrange
    exact ⟨t, ht, Prod.ext ((h.label?_eq ht).trans hlabel.symm) hclosing⟩

/-- The readings of a line are what the search may read of it after a replacement. -/
theorem exists_seen_iff (marks : List Marked) (s : Option Access × Int) :
    (∃ t, List.Forall₂ Marked.Covers marks t ∧ seen t = s) ↔ ∃ r ∈ readings marks, r.Allows s := by
  rw [readings]
  split
  · next hloose => simpa using exists_seen_firm (firm_of_loose?_eq_none hloose) s
  · next place brace hloose =>
    obtain ⟨a, x, b, rfl, rfl, hhidden, rfl, hbehind⟩ := exists_of_loose?_eq_some hloose
    have hx : withoutBrace 'x' = withoutBrace x.char := by
      simp only [Marked.isHiddenBrace, Bool.and_eq_true, Bool.or_eq_true, beq_iff_eq] at hhidden
      rw [withoutBrace, withoutBrace, if_pos hhidden.2]
      decide
    have hkept := exists_seen_firm (firm_decided rfl hbehind) s
    have hreplaced := exists_seen_firm (firm_decided hx hbehind) s
    simp only [forall₂_split (Marked.covers_hidden hhidden), or_and_right, exists_or, hkept, hreplaced,
      List.set_append_right _ _ (Nat.le_refl _), Nat.sub_self, List.set_cons_zero, List.mem_cons,
      List.not_mem_nil, or_false, exists_eq_left]

theorem readings_ne_nil (marks : List Marked) : readings marks ≠ [] := by
  rw [readings]
  split <;> simp

theorem least_le_most_of_mem_readings {marks : List Marked} {r : Reading} (h : r ∈ readings marks) :
    r.least ≤ r.most := by
  rw [readings] at h
  split at h <;> simp only [List.mem_cons, List.not_mem_nil, or_false] at h
  · rw [h]
    exact least_le_most _
  · rcases h with rfl | rfl <;> exact least_le_most _

/-- The search over what it reads of the lines. -/
def nearestSeen : Int → List (Option Access × Int) → Option Access
  | _, [] => none
  | depth, (label, closed) :: above =>
    if depth + closed < 0 then none
    else if depth + closed = 0 ∧ label.isSome then label
    else nearestSeen (depth + closed) above

theorem nearest_eq (depth : Int) (lines : List Line) :
    nearest depth lines = nearestSeen depth (lines.map fun line => seen line.content) := by
  induction lines generalizing depth with
  | nil => rfl
  | cons line above ih =>
    rw [nearest, List.map_cons, seen, nearestSeen]
    split
    · rfl
    · cases hlabel : label? line.content with
      | none => simp [ih]
      | some access => simp [ih]

/-- Whether the search gives an answer from every depth between two, however the lines above are read: where it
may end below the outermost block, the answer is that there is no label; where it may end at a label, the answer
is that label; and from the depths at which it goes on, the lines further up give the answer. -/
def Settled (answer : Option Access) : Int → Int → List (List Reading) → Prop
  | _, _, [] => answer = none
  | low, high, line :: above => ∀ r ∈ line,
    (low + r.least < 0 → answer = none) ∧
    (r.label.isSome → low + r.least ≤ 0 → 0 ≤ high + r.most → answer = r.label) ∧
    (r.floor ≤ high + r.most → Settled answer (max r.floor (low + r.least)) (high + r.most) above)

instance decidableSettled (answer : Option Access) (low high : Int) (lines : List (List Reading)) :
    Decidable (Settled answer low high lines) :=
  match lines with
  | [] => inferInstanceAs (Decidable (answer = none))
  | line :: above =>
    have (low high : Int) := decidableSettled answer low high above
    inferInstanceAs (Decidable (∀ r ∈ line, _ ∧ _ ∧ _))

/-- How the lines above are read, one reading for each. -/
def Reads (lines : List (List Reading)) (seens : List (Option Access × Int)) : Prop :=
  List.Forall₂ (fun line s => ∃ r ∈ line, r.Allows s) lines seens

theorem exists_reads {lines : List (List Reading)}
    (h : ∀ line ∈ lines, line ≠ [] ∧ ∀ r ∈ line, r.least ≤ r.most) : ∃ seens, Reads lines seens := by
  induction lines with
  | nil => exact ⟨[], .nil⟩
  | cons line lines ih =>
    rw [List.forall_mem_cons] at h
    obtain ⟨r, hr⟩ := List.exists_mem_of_ne_nil line h.1.1
    obtain ⟨seens, hseens⟩ := ih h.2
    exact ⟨(r.label, r.least) :: seens, .cons ⟨r, hr, rfl, Int.le_refl _, h.1.2 r hr⟩ hseens⟩

/-- Behind a line the search is at any depth between the sums of the bounds. -/
theorem forall_reads_cons_iff {answer : Option Access} {line : List Reading} {above : List (List Reading)}
    (hline : ∀ r ∈ line, r.least ≤ r.most) {low high : Int} (hle : low ≤ high) :
    (∀ depth, low ≤ depth → depth ≤ high → ∀ seens, Reads (line :: above) seens →
        nearestSeen depth seens = answer) ↔
      ∀ r ∈ line, ∀ depth, low + r.least ≤ depth → depth ≤ high + r.most → ∀ seens, Reads above seens →
        nearestSeen 0 ((r.label, depth) :: seens) = answer := by
  have hsum (depth closed : Int) (label : Option Access) (seens : List (Option Access × Int)) :
      nearestSeen depth ((label, closed) :: seens) = nearestSeen 0 ((label, depth + closed) :: seens) := by
    simp only [nearestSeen, Int.zero_add]
  constructor
  · intro h r hr depth hlow hhigh seens hseens
    have hrange := hline r hr
    have hread := h (max low (depth - r.most)) (by omega) (by omega)
      ((r.label, depth - max low (depth - r.most)) :: seens)
      (.cons ⟨r, hr, rfl, by simp only; omega, by simp only; omega⟩ hseens)
    rwa [hsum, show max low (depth - r.most) + (depth - max low (depth - r.most)) = depth by omega] at hread
  · intro h depth hlow hhigh seens hseens
    obtain ⟨⟨label, closed⟩, rest, ⟨r, hr, hlabel, hleast, hmost⟩, hrest, rfl⟩ :=
      List.forall₂_cons_left_iff.mp hseens
    obtain rfl : label = r.label := hlabel
    simp only at hleast hmost
    rw [hsum]
    exact h r hr (depth + closed) (by omega) (by omega) rest hrest

/-- The search ends below the outermost block, ends at a label, or goes on. -/
theorem forall_nearestSeen_iff {answer : Option Access} (r : Reading) {above : List (List Reading)}
    (hreads : ∃ seens, Reads above seens) {low high : Int} (hle : low ≤ high) :
    (∀ depth, low ≤ depth → depth ≤ high → ∀ seens, Reads above seens →
        nearestSeen 0 ((r.label, depth) :: seens) = answer) ↔
      (low < 0 → answer = none) ∧ (r.label.isSome → low ≤ 0 → 0 ≤ high → answer = r.label) ∧
        (r.floor ≤ high → ∀ depth, max r.floor low ≤ depth → depth ≤ high → ∀ seens, Reads above seens →
          nearestSeen depth seens = answer) := by
  obtain ⟨sample, hsample⟩ := hreads
  simp only [nearestSeen, Int.zero_add]
  constructor
  · intro h
    refine ⟨fun hneg => ?_, fun hlabel hlow hhigh => ?_, fun _ depth hlow hhigh seens hseens => ?_⟩
    · have hread := h low (Int.le_refl _) hle sample hsample
      rwa [if_pos hneg, eq_comm] at hread
    · have hread := h 0 hlow hhigh sample hsample
      rwa [if_neg (Int.lt_irrefl 0), if_pos ⟨rfl, hlabel⟩, eq_comm] at hread
    · -- From the floor of the line on neither answer is given here, so the search goes on.
      have hfloor : r.floor ≤ depth := by omega
      have hread := h depth (by omega) hhigh seens hseens
      rw [Reading.floor] at hfloor
      rwa [if_neg (by split at hfloor <;> omega), if_neg] at hread
      rintro ⟨rfl, hlabel⟩
      rw [if_pos hlabel] at hfloor
      omega
  · rintro ⟨hnone, hfound, hon⟩ depth hlow hhigh seens hseens
    split
    · exact (hnone (by omega)).symm
    · split
      · next hzero => exact (hfound hzero.2 (by omega) (by omega)).symm
      · next hneg hzero =>
        have hfloor : r.floor ≤ depth := by
          rw [Reading.floor]
          split
          · next hlabel =>
            have : depth ≠ 0 := fun heq => hzero ⟨heq, hlabel⟩
            omega
          · omega
        exact hon (by omega) depth (by omega) hhigh seens hseens

/-- Settled is what gives the same answer from every depth, however the lines are read. -/
theorem settled_iff {answer : Option Access} {lines : List (List Reading)}
    (hlines : ∀ line ∈ lines, line ≠ [] ∧ ∀ r ∈ line, r.least ≤ r.most) {low high : Int} (hle : low ≤ high) :
    (∀ depth, low ≤ depth → depth ≤ high → ∀ seens, Reads lines seens → nearestSeen depth seens = answer) ↔
      Settled answer low high lines := by
  induction lines generalizing low high with
  | nil =>
    constructor
    · intro h
      exact (h low (Int.le_refl _) hle [] .nil).symm
    · intro h depth _ _ seens hseens
      obtain rfl := List.forall₂_nil_left_iff.mp hseens
      exact h.symm
  | cons line above ih =>
    rw [List.forall_mem_cons] at hlines
    rw [Settled, forall_reads_cons_iff hlines.1.2 hle]
    refine forall₂_congr fun r hr => ?_
    have hrange := hlines.1.2 r hr
    rw [forall_nearestSeen_iff r (exists_reads hlines.2) (by omega)]
    refine and_congr_right' (and_congr_right' (forall_congr' fun hfloor => ?_))
    exact ih hlines.2 (by omega)

theorem reads_readings_iff (lines : List (List Marked)) (seens : List (Option Access × Int)) :
    Reads (lines.map readings) seens ↔
      ∃ contents, List.Forall₂ (List.Forall₂ Marked.Covers) lines contents ∧ contents.map seen = seens := by
  induction lines generalizing seens with
  | nil => simp [Reads, eq_comm]
  | cons marks lines ih =>
    rw [Reads, List.map_cons, List.forall₂_cons_left_iff]
    constructor
    · rintro ⟨s, rest, hs, hrest, rfl⟩
      obtain ⟨t, ht, rfl⟩ := (exists_seen_iff marks s).mpr hs
      obtain ⟨contents, hcontents, rfl⟩ := (ih rest).mp hrest
      exact ⟨t :: contents, .cons ht hcontents, rfl⟩
    · rintro ⟨_, hall, rfl⟩
      obtain ⟨t, contents, ht, hcontents, rfl⟩ := List.forall₂_cons_left_iff.mp hall
      exact ⟨seen t, contents.map seen, (exists_seen_iff marks _).mp ⟨t, ht, rfl⟩,
        (ih _).mpr ⟨contents, hcontents, rfl⟩, rfl⟩

/-- The first lines of a document, read upwards. -/
theorem reads_above_iff {lines : List (List Marked)} {i : Nat} (hi : i ≤ lines.length)
    (seens : List (Option Access × Int)) :
    Reads ((lines.take i).reverse.map readings) seens ↔
      ∃ contents, List.Forall₂ (List.Forall₂ Marked.Covers) lines contents ∧
        (contents.take i).reverse.map seen = seens := by
  rw [reads_readings_iff]
  constructor
  · rintro ⟨above, habove, rfl⟩
    rw [← List.reverse_reverse above, List.forall₂_reverse_iff] at habove
    have hlength : above.reverse.length = i := by
      rw [← habove.length_eq, List.length_take, Nat.min_eq_left hi]
    refine ⟨above.reverse ++ (lines.drop i).map (List.map Marked.char), ?_, ?_⟩
    · have hbelow : List.Forall₂ (List.Forall₂ Marked.Covers) (lines.drop i)
          ((lines.drop i).map (List.map Marked.char)) := by
        rw [List.forall₂_map_right_iff, List.forall₂_same]
        exact fun marks _ => Marked.forall₂_covers_self marks
      have hall := forall₂_append_left.mpr ⟨_, _, rfl, habove, hbelow⟩
      rwa [List.take_append_drop] at hall
    · rw [List.take_left' hlength, List.reverse_reverse]
  · rintro ⟨contents, hcontents, rfl⟩
    exact ⟨_, List.forall₂_reverse_iff.mpr (List.forall₂_take i hcontents), rfl⟩

end Access

theorem length_markContents (inComment : Bool) (contents : List Text) :
    (markContents inComment contents).length = contents.length := by
  induction contents generalizing inComment with
  | nil => rfl
  | cons content rest ih => exact congrArg (· + 1) (ih _)

namespace Document

/-- The search for a label reads the contents of the lines above. -/
theorem accessAt_eq (doc : Document) (i : Nat) :
    doc.accessAt i = if i ≤ (doc.lines.map Line.content).length then
      Access.nearestSeen 0 (((doc.lines.map Line.content).take i).reverse.map Access.seen) else none := by
  rw [accessAt, Access.nearest_eq, List.length_map, ← List.map_take, ← List.map_reverse, List.map_map]
  rfl

/-- The covered documents, line by line. -/
theorem forall_covers_iff (doc : Document) (P : List Text → Prop) :
    (∀ doc', doc.Covers doc' → P (doc'.lines.map Line.content)) ↔
      ∀ contents, List.Forall₂ (List.Forall₂ Marked.Covers)
        (markContents false (doc.lines.map Line.content)) contents → P contents := by
  have hlines := exists_covered_iff doc.text false 1 0
  constructor
  · intro h contents hcontents
    obtain ⟨t', ht, rfl⟩ := (hlines contents).mpr hcontents
    exact h ⟨t'⟩ ht
  · intro h doc' hdoc
    exact h _ ((hlines _).mp ⟨doc'.text, hdoc, rfl⟩)

/-- How the lines above an index may be read, the nearest first. -/
def readingsAbove (doc : Document) (i : Nat) : List (List Access.Reading) :=
  ((markContents false (doc.lines.map Line.content)).take i).reverse.map Access.readings

/-- Whether the label in force at a line is the same however the lines above it may be read. -/
def SettledAt (doc : Document) (i : Nat) : Prop :=
  i ≤ doc.lineCount → Access.Settled (doc.accessAt i) 0 0 (doc.readingsAbove i)

instance (doc : Document) (i : Nat) : Decidable (doc.SettledAt i) := inferInstanceAs (Decidable (_ → _))

/-- Braces in literals and comments do not matter for the label in force at a line exactly if it is settled. -/
theorem accessAt_covers_iff_settled (doc : Document) (i : Nat) :
    (∀ doc', doc.Covers doc' → doc'.accessAt i = doc.accessAt i) ↔ doc.SettledAt i := by
  have hcount : (markContents false (doc.lines.map Line.content)).length = doc.lineCount := by
    rw [length_markContents, List.length_map, lineCount]
  simp only [accessAt_eq _ i]
  rw [forall_covers_iff doc fun contents =>
    (if i ≤ contents.length then Access.nearestSeen 0 ((contents.take i).reverse.map Access.seen) else none) = _]
  rw [← accessAt_eq, SettledAt]
  by_cases hi : i ≤ doc.lineCount
  · have hreads := Access.reads_above_iff (hi.trans hcount.ge)
    have hreadings : ∀ line ∈ doc.readingsAbove i, line ≠ [] ∧ ∀ r ∈ line, r.least ≤ r.most := by
      intro line hline
      obtain ⟨marks, -, rfl⟩ := List.mem_map.mp hline
      exact ⟨Access.readings_ne_nil marks, fun r => Access.least_le_most_of_mem_readings⟩
    rw [forall_prop_of_true hi, ← Access.settled_iff hreadings (Int.le_refl 0)]
    constructor
    · intro h depth hlow hhigh seens hseens
      obtain rfl : depth = 0 := by omega
      obtain ⟨contents, hcontents, rfl⟩ := (hreads seens).mp hseens
      rw [← h contents hcontents, if_pos (by rw [← hcontents.length_eq, hcount]; exact hi)]
    · intro h contents hcontents
      rw [if_pos (by rw [← hcontents.length_eq, hcount]; exact hi)]
      exact h 0 (Int.le_refl 0) (Int.le_refl 0) _ ((hreads _).mpr ⟨contents, hcontents, rfl⟩)
  · refine iff_of_true (fun contents hcontents => ?_) fun h => absurd h hi
    rw [if_neg (by rw [← hcontents.length_eq, hcount]; exact hi), accessAt, if_neg hi]

/-- A label just above the line, and hidden braces further up. -/
def bracesAboveLabel : Document :=
  ⟨"/* \x7b */ class A \x7b\npublic: // \x7d\nprivate:\n  char c = '\x7b';\n\x7d;\n".toList⟩

theorem accessAt_bracesAboveLabel : bracesAboveLabel.SettledAt 3 ∧
    ∀ doc', bracesAboveLabel.Covers doc' → doc'.accessAt 3 = some .isPrivate := by
  have hsettled : bracesAboveLabel.SettledAt 3 := by decide +kernel
  have hanswer : bracesAboveLabel.accessAt 3 = some .isPrivate := by decide +kernel
  refine ⟨hsettled, fun doc' h => ?_⟩
  rw [(accessAt_covers_iff_settled bracesAboveLabel 3).mpr hsettled doc' h, hanswer]

def commentedBrace : Document := ⟨"class A \x7b\npublic:\n// \x7d\nint x;\n\x7d;".toList⟩

/-- A closing brace in a comment hides the label above it. -/
theorem accessAt_commentedBrace :
    commentedBrace.accessAt 3 = none ∧
    commentedBrace.Covers ⟨"class A \x7b\npublic:\n// x\nint x;\n\x7d;".toList⟩ ∧
    (Document.mk "class A \x7b\npublic:\n// x\nint x;\n\x7d;".toList).accessAt 3 = some .isPublic := by
  decide +kernel

end Document

end OutOfLine

import OutOfLine.Proofs.ScopeChains
import OutOfLine.Proofs.CommentedLines
import OutOfLine.Proofs.SeparatedText

/-!
# Statements between items

A statement on a line of its own is put between two items of a well-formed document. The resolver comes out of
it with the scopes it went in with, unless a scope keyword of the statement has started a header in which a `<`
is open at the semicolon: such a header takes the semicolon for a part of a template argument and reads on. So a
statement without such a header leaves the scopes around every later line as they were, in every document, and
any other statement changes them in some document.
-/

namespace OutOfLine

namespace Grammar

/-- What opens a scope, its brace included, and what stands behind the brace that closes it. -/
inductive Opens : List Placed → List Placed → Prop
  | named {kind : ScopeKind} {name : Text} {head ending : List Placed} {opening : Placed}
    (hhead : Head kind name (head.map Placed.token)) (hopen : opening.token = .delimiter '{')
    (hending : ending.map Placed.token = if kind.needsTerminator then [.delimiter ';'] else []) :
    Opens (head ++ [opening]) ending
  | unnamed {keyword opening : Placed} (hkeyword : keyword.token = .word "namespace".toList)
    (hopen : opening.token = .delimiter '{') : Opens [keyword, opening] []
  | linkage {keyword language opening : Placed} (hkeyword : keyword.token = .word "extern".toList)
    (hlanguage : language.token.isLiteral) (hopen : opening.token = .delimiter '{') :
    Opens [keyword, language, opening] []

/-- The tokens above and below a place between two items of a well-formed document, in the scopes that are
open there. -/
inductive Seam : List Placed → List Placed → Prop
  | items {above below : List Placed} {spans more : List Span} (habove : Items above spans)
    (hbelow : Items below more) : Seam above below
  | inside {before opener above below ending rest : List Placed} {closing : Placed} {spans more : List Span}
    (hbefore : Items before spans) (hopener : Opens opener ending) (hinner : Seam above below)
    (hclose : closing.token = .delimiter '}') (hrest : Items rest more) :
    Seam (before ++ opener ++ above) (below ++ closing :: (ending ++ rest))

/-- A line that is one statement without braces, `head` being its tokens before the semicolon. -/
structure LoneStatement (line : Text) (head : List Token) : Prop where
  no_newline : '\n' ∉ line
  closed : line.Closed
  code_eq : (line.code.filter fun t => !t.isSpace) = head ++ [.delimiter ';']
  plain : ∀ t ∈ head, isPunctuation t = false
  balanced : Brackets.Balanced '(' ')' head

end Grammar

namespace Header

/-- The parentheses that a header has counted are fewer than those open around the place. -/
def State.ParensBelow (depth : Nat) : State → Prop
  | .naming h => h.parens < depth
  | .colon h => h.parens < depth
  | .bases _ => True

theorem stepBases_plain (name : Option Text) {t : Token} (ht : Grammar.isPunctuation t = false) :
    stepBases name t = .inl (.bases name) := by
  rw [stepBases.eq_def]
  split
  · simp [Grammar.isPunctuation] at ht
  · simp [Grammar.isPunctuation] at ht
  · rfl

theorem parens_addWord (h : Naming) (text : Text) : (h.addWord text).parens = h.parens := by
  rw [Naming.addWord]
  split <;> rfl

/-- A token without braces and semicolons takes a header further or rejects it, and the header goes on counting
the parentheses. -/
theorem step_plain {st : State} {t : Token} {depth depth' : Nat} (hst : st.ParensBelow depth)
    (ht : Grammar.isPunctuation t = false) (hdepth : Brackets.after '(' ')' depth [t] = some depth') :
    (∃ st', st.step t = .inl st' ∧ st'.ParensBelow depth') ∨ st.step t = .inr .rejected := by
  have hother (hopen : t ≠ .delimiter '(') (hclose : t ≠ .delimiter ')') : depth' = depth := by
    simpa [Brackets.after, hopen, hclose] using hdepth.symm
  cases st with
  | bases name => exact .inl ⟨_, stepBases_plain name ht, trivial⟩
  | colon h =>
    simp only [State.step]
    split
    · next hcolon =>
      rw [hother (by simp [hcolon]) (by simp [hcolon])]
      exact .inl ⟨_, rfl, hst⟩
    · exact .inl ⟨_, stepBases_plain h.name ht, trivial⟩
  | naming h =>
    simp only [State.step]
    rw [Naming.step.eq_def]
    split
    · obtain rfl : depth' = depth + 1 := by simpa [Brackets.after] using hdepth.symm
      exact .inl ⟨_, rfl, Nat.succ_lt_succ hst⟩
    · split
      · exact .inr rfl
      · next hparens =>
        have hlt : h.parens < depth := hst
        obtain ⟨-, rfl⟩ : depth ≠ 1 ∧ depth - 1 = depth' := by simpa [Brackets.after] using hdepth
        refine .inl ⟨_, rfl, ?_⟩
        change h.parens - 1 < depth - 1
        omega
    · rw [hother (by simp) (by simp)]
      exact .inl ⟨_, rfl, hst⟩
    · rw [hother (by simp) (by simp)]
      split
      · exact .inr rfl
      · exact .inl ⟨_, rfl, hst⟩
    · next hopen hclose _ _ =>
      rw [hother hopen hclose]
      split
      · exact .inl ⟨_, rfl, hst⟩
      · split
        · simp [Grammar.isPunctuation] at ht
        · simp [Grammar.isPunctuation] at ht
        · exact .inr rfl
        · exact .inl ⟨_, rfl, hst⟩
        · split
          · exact .inr rfl
          · exact .inl ⟨_, rfl, lt_of_eq_of_lt (parens_addWord h _) hst⟩
        · exact .inl ⟨_, rfl, hst⟩

/-- Inside an angle bracket a header passes over everything but brackets. -/
theorem step_nested {h : Naming} (hangles : 0 < h.angles) {t : Token}
    (ht : t ∉ ['(', ')', '<', '>'].map Token.delimiter) : State.step (.naming h) t = .inl (.naming h) := by
  have hnested : h.nested := by simp [Naming.nested, hangles]
  simp only [State.step]
  rw [Naming.step.eq_def]
  split <;> simp_all

end Header

namespace Resolver

/-- What matters of the resolver in the middle of a statement: the token before, and the header that is read. -/
structure Partway where
  previous : Option Token := none
  header : Option Header.State := none
  deriving DecidableEq

def Partway.step (p : Partway) (t : Token) : Partway :=
  match p.header with
  | none => ⟨some t, (ScopeKind.introducedBy p.previous t).map fun _ => Header.start⟩
  | some st => { p with header := (st.step t).getLeft? }

/-- Whether tokens end in the header of one of their scope keywords, with a `<` of the header open. -/
def leavesAngleOpen (tokens : List Token) : Bool :=
  match (tokens.foldl Partway.step {}).header with
  | some (.naming h) => 0 < h.angles
  | _ => false

/-- The resolver reads a statement in the scopes of `stack`, within `depth - 1` parentheses of it. -/
def Tracks (s : State) (stack : List OpenScope) (depth : Nat) (p : Partway) : Prop :=
  match p.header with
  | none => AtItem s stack ∧
      (s.previous = some (.word "using".toList) ↔ p.previous = some (.word "using".toList))
  | some st => (∃ kind, InHeader s stack kind st) ∧ p.previous ≠ some (.word "using".toList) ∧
      st.ParensBelow depth

theorem introducedBy_congr {previous previous' : Option Token}
    (h : previous = some (.word "using".toList) ↔ previous' = some (.word "using".toList)) (t : Token) :
    ScopeKind.introducedBy previous t = ScopeKind.introducedBy previous' t := by
  simp only [ScopeKind.introducedBy, h]

theorem tracks_step {s : State} {stack : List OpenScope} {depth depth' : Nat} {p : Partway} {placed : Placed}
    (h : Tracks s stack depth p) (hpos : 1 ≤ depth) (ht : Grammar.isPunctuation placed.token = false)
    (hdepth : Brackets.after '(' ')' depth [placed.token] = some depth') :
    Tracks (s.step placed) stack depth' (p.step placed.token) := by
  obtain ⟨previous, header⟩ := p
  cases header with
  | none =>
    obtain ⟨hitem, hprevious⟩ := h
    have hkey := introducedBy_congr hprevious placed.token
    cases hkind : ScopeKind.introducedBy previous placed.token with
    | none =>
      obtain ⟨hnext, hlast⟩ := atItem_step hitem (hkey.trans hkind) (.inl ht)
      simp only [Partway.step, hkind, Option.map_none, Tracks]
      exact ⟨hnext, by rw [hlast]⟩
    | some kind =>
      have hheader := inHeader_of_keyword hitem (hkey.trans hkind)
      have hword := eq_keyword_of_introducedBy hkind
      have husing : kind.keyword ≠ "using".toList := by cases kind <;> decide
      simp only [Partway.step, hkind, Option.map_some, Tracks]
      exact ⟨⟨kind, hheader⟩, by simpa [hword] using husing, Brackets.pos_of_after hpos hdepth⟩
  | some st =>
    obtain ⟨⟨kind, hheader⟩, hprevious, hparens⟩ := h
    rcases Header.step_plain hparens ht hdepth with ⟨st', hst', hparens'⟩ | hrejected
    · simp only [Partway.step, hst', Sum.getLeft?_inl, Tracks]
      exact ⟨⟨kind, inHeader_step hheader hst'⟩, hprevious, hparens'⟩
    · have hready := ready_of_rejected hheader hrejected
      simp only [Partway.step, hrejected, Sum.getLeft?_inr, Tracks]
      exact ⟨hready.toAtItem, iff_of_false hready.previous_ne hprevious⟩

theorem tracks_foldl {s : State} {stack : List OpenScope} {depth depth' : Nat} {p : Partway}
    {tokens : List Placed} (h : Tracks s stack depth p) (hpos : 1 ≤ depth)
    (ht : ∀ t ∈ tokens.map Placed.token, Grammar.isPunctuation t = false)
    (hdepth : Brackets.after '(' ')' depth (tokens.map Placed.token) = some depth') :
    Tracks (tokens.foldl State.step s) stack depth' ((tokens.map Placed.token).foldl Partway.step p) := by
  induction tokens generalizing s depth p with
  | nil =>
    obtain rfl := Option.some.inj hdepth
    exact h
  | cons placed tokens ih =>
    rw [List.map_cons, List.forall_mem_cons] at ht
    rw [List.map_cons, ← List.singleton_append, Brackets.after_append] at hdepth
    obtain ⟨middle, hmiddle, hrest⟩ := Option.bind_eq_some_iff.mp hdepth
    exact ih (tracks_step h hpos ht.1 hmiddle) (Brackets.pos_of_after hpos hmiddle) ht.2 hrest

theorem tracks_start {s : State} {stack : List OpenScope} (h : Ready s stack) : Tracks s stack 1 {} :=
  ⟨h.toAtItem, iff_of_false h.previous_ne (by simp)⟩

/-- The semicolon of a statement that leaves no angle bracket open brings the resolver back to the items. -/
theorem ready_of_tracks {s : State} {stack : List OpenScope} {p : Partway} {semicolon : Placed}
    (h : Tracks s stack 1 p) (hsemi : semicolon.token = .delimiter ';')
    (hangles : ∀ naming, p.header = some (.naming naming) → naming.angles = 0) :
    Ready (s.step semicolon) stack := by
  obtain ⟨previous, header⟩ := p
  cases header with
  | none => exact ready_of_semicolon (.inl h.1) hsemi
  | some st =>
    obtain ⟨⟨kind, hheader⟩, -, hparens⟩ := h
    apply ready_of_rejected hheader
    rw [hsemi]
    cases st with
    | naming naming =>
      have hnone : naming.parens = 0 := by
        change naming.parens < 1 at hparens
        omega
      simp [Header.State.step, Header.Naming.step, Header.Naming.nested, hnone, hangles naming rfl]
    | colon naming => rfl
    | bases name => rfl

/-- States that differ only in what they have logged, and in a last token that makes no difference. -/
structure Agrees (s s' : State) : Prop where
  saved_eq : s.saved = s'.saved
  active_eq : s.active = s'.active
  mode_eq : s.mode = s'.mode
  using_iff : s.previous = some (.word "using".toList) ↔ s'.previous = some (.word "using".toList)
  literal_eq : s.previous.any Token.isLiteral = s'.previous.any Token.isLiteral

theorem Agrees.ready {s s' : State} {stack : List OpenScope} (h : Agrees s s') (hs : Ready s stack) :
    Ready s' stack := by
  refine ⟨⟨?_, ?_, ?_⟩, ?_, ?_⟩
  · rw [← h.mode_eq, hs.mode_eq]
  · rw [← h.active_eq, hs.active_eq]
  · rw [← h.saved_eq, hs.saved_eq]
  · rw [ne_eq, ← h.using_iff]
    exact hs.previous_ne
  · rw [← h.literal_eq, hs.previous_plain]

theorem Ready.agrees {s s' : State} {stack : List OpenScope} (hs : Ready s stack) (hs' : Ready s' stack) :
    Agrees s s' := by
  refine ⟨?_, ?_, ?_, iff_of_false hs.previous_ne hs'.previous_ne, ?_⟩
  · rw [hs.saved_eq, hs'.saved_eq]
  · rw [hs.active_eq, hs'.active_eq]
  · rw [hs.mode_eq, hs'.mode_eq]
  · rw [hs.previous_plain, hs'.previous_plain]

theorem Agrees.step {s s' : State} {placed placed' : Placed} (h : Agrees s s')
    (htoken : placed.token = placed'.token) : Agrees (s.step placed) (s'.step placed') := by
  obtain ⟨saved, active, previous, mode, bodyless⟩ := s
  obtain ⟨saved', active', previous', mode', bodyless'⟩ := s'
  obtain ⟨rfl, rfl, rfl, husing, hliteral⟩ := h
  cases mode with
  | items =>
    have hkey := introducedBy_congr husing placed'.token
    simp only [State.step, State.item, htoken, hkey]
    cases ScopeKind.introducedBy previous' placed'.token with
    | some kind => exact ⟨rfl, rfl, rfl, Iff.rfl, rfl⟩
    | none =>
      simp only [hliteral]
      split
      · exact ⟨rfl, rfl, rfl, Iff.rfl, rfl⟩
      · split
        · split <;> exact ⟨rfl, rfl, rfl, Iff.rfl, rfl⟩
        · exact ⟨rfl, rfl, rfl, Iff.rfl, rfl⟩
  | header kind state =>
    simp only [State.step, htoken]
    cases state.step placed'.token with
    | inl state => exact ⟨rfl, rfl, rfl, husing, hliteral⟩
    | inr verdict => cases verdict <;> exact ⟨rfl, rfl, rfl, husing, hliteral⟩
  | block depth =>
    simp only [State.step, htoken]
    split
    · exact ⟨rfl, rfl, rfl, husing, hliteral⟩
    · split <;> exact ⟨rfl, rfl, rfl, husing, hliteral⟩

theorem Agrees.foldl {s s' : State} {tokens tokens' : List Placed} (h : Agrees s s')
    (htokens : tokens.map Placed.token = tokens'.map Placed.token) :
    Agrees (tokens.foldl State.step s) (tokens'.foldl State.step s') := by
  induction tokens generalizing s s' tokens' with
  | nil =>
    obtain rfl : tokens' = [] := by simpa using htokens.symm
    exact h
  | cons placed tokens ih =>
    cases tokens' with
    | nil => simp at htokens
    | cons placed' tokens' =>
      obtain ⟨hfirst, hrest⟩ := List.cons.inj htokens
      rw [List.foldl_cons, List.foldl_cons]
      exact ih (h.step hfirst) hrest

/-- What the resolver answers does not depend on what it has logged. -/
theorem Agrees.answers {s s' : State} (h : Agrees s s') (line line' : Nat) :
    (s.finish line).chain = (s'.finish line').chain ∧ (s.finish line).inBlock = (s'.finish line').inBlock := by
  obtain ⟨saved, active, previous, mode, bodyless⟩ := s
  obtain ⟨saved', active', previous', mode', bodyless'⟩ := s'
  obtain ⟨rfl, rfl, rfl, -, -⟩ := h
  cases mode <;> exact ⟨rfl, rfl⟩

theorem exists_ready_of_opens {opener ending : List Placed} (h : Grammar.Opens opener ending) {s : State}
    {stack : List OpenScope} (hs : Ready s stack) :
    ∃ scope, Ready (opener.foldl State.step s) (scope :: stack) := by
  cases h with
  | @named kind name head _ _ hhead hopen _ =>
    obtain ⟨ts, st, hts, hreads, hst⟩ := Header.exists_reads_head hhead
    obtain ⟨keyword, head, rfl, hkeyword, rfl⟩ := List.map_eq_cons_iff.mp hts
    exact ⟨.named ⟨kind, name⟩, ready_of_header hs hkeyword hreads hopen hst fun _ _ => rfl⟩
  | @unnamed keyword opening hkeyword hopen =>
    have hnamespace : keyword.token = .word ScopeKind.namespaceScope.keyword := hkeyword
    have hreads : Header.reads Header.start (([] : List Placed).map Placed.token) = some Header.start := rfl
    exact ⟨.anonymous, ready_of_header hs hnamespace hreads hopen rfl fun _ _ => rfl⟩
  | linkage hkeyword hlanguage hopen => exact ⟨.anonymous, ready_of_linkage hs hkeyword hlanguage hopen⟩

/-- Above a place between two items the resolver is ready for an item. -/
theorem exists_ready_of_seam {above below : List Placed} (h : Grammar.Seam above below) {s : State}
    {stack : List OpenScope} (hs : Ready s stack) : ∃ inner, Ready (above.foldl State.step s) inner := by
  induction h generalizing s stack with
  | items habove _ => exact ⟨stack, (resolves_items habove).ready hs⟩
  | inside hbefore hopener _ _ _ ih =>
    obtain ⟨scope, hscope⟩ := exists_ready_of_opens hopener ((resolves_items hbefore).ready hs)
    rw [List.foldl_append, List.foldl_append]
    exact ih hscope

section Statement

variable {line : Text} {head : List Token} (h : Grammar.LoneStatement line head)
include h

/-- The resolver in front of the semicolon of a statement. -/
theorem tracks_of_statement {s : State} {stack : List OpenScope} (hs : Ready s stack) {tokens : List Placed}
    (htokens : tokens.map Placed.token = head) :
    Tracks (tokens.foldl State.step s) stack 1 (head.foldl Partway.step {}) := by
  subst htokens
  exact tracks_foldl (tracks_start hs) le_rfl h.plain h.balanced

theorem ready_of_statement (hangle : leavesAngleOpen head = false) {s : State} {stack : List OpenScope}
    (hs : Ready s stack) {tokens : List Placed} (htokens : tokens.map Placed.token = head ++ [.delimiter ';']) :
    Ready (tokens.foldl State.step s) stack := by
  obtain ⟨front, back, rfl, hfront, hback⟩ := List.map_eq_append_iff.mp htokens
  obtain ⟨semicolon, rfl, hsemi⟩ := List.map_eq_singleton_iff.mp hback
  rw [List.foldl_append, List.foldl_cons, List.foldl_nil]
  apply ready_of_tracks (tracks_of_statement h hs hfront) hsemi
  intro naming hnaming
  simpa [leavesAngleOpen, hnaming] using hangle

/-- A statement that leaves an angle bracket open is still in its header behind the semicolon. -/
theorem inHeader_of_statement (hangle : leavesAngleOpen head) {s : State} {stack : List OpenScope}
    (hs : Ready s stack) {tokens : List Placed} (htokens : tokens.map Placed.token = head ++ [.delimiter ';']) :
    ∃ kind naming, InHeader (tokens.foldl State.step s) stack kind (.naming naming) ∧ 0 < naming.angles := by
  obtain ⟨front, back, rfl, hfront, hback⟩ := List.map_eq_append_iff.mp htokens
  obtain ⟨semicolon, rfl, hsemi⟩ := List.map_eq_singleton_iff.mp hback
  have htracks := tracks_of_statement h hs hfront
  rw [List.foldl_append, List.foldl_cons, List.foldl_nil]
  rw [leavesAngleOpen] at hangle
  split at hangle
  · next naming hnaming =>
    rw [Tracks, hnaming] at htracks
    obtain ⟨⟨kind, hheader⟩, -⟩ := htracks
    have hangles : 0 < naming.angles := by simpa using hangle
    refine ⟨kind, naming, inHeader_step hheader ?_, hangles⟩
    exact Header.step_nested hangles (by simp [hsemi])
  · exact absurd hangle (by simp)

end Statement

end Resolver

theorem insideAfter_inside {ts : List Token} (h : .commentClose ∉ ts) : insideAfter true ts := by
  induction ts with
  | nil => rfl
  | cons t ts ih =>
    rw [List.mem_cons, not_or] at h
    cases t with
    | commentClose => exact absurd rfl h.1
    | _ => exact ih h.2

/-- The code tokens of lines with these contents, without spaces. -/
def codeOfContents (inComment : Bool) : List Text → List Token
  | [] => []
  | content :: rest =>
    (dropComments inComment (tokenize inComment content).1).filter (fun t => !t.isSpace) ++
      codeOfContents (tokenize inComment content).2 rest

theorem codeOfContents_append (inComment : Bool) (lines : List Line) (more : List Text) :
    codeOfContents inComment (lines.map Line.content ++ more) =
      codeOfContents inComment (lines.map Line.content) ++ codeOfContents (commentAfter inComment lines) more := by
  induction lines generalizing inComment with
  | nil => rfl
  | cons line lines ih =>
    rw [List.map_cons, List.cons_append, codeOfContents, codeOfContents, ih, List.append_assoc]
    rfl

theorem map_token_withoutSpaces (inComment : Bool) (lines : List Line) :
    (withoutSpaces (codeOfLines inComment lines)).map Placed.token =
      codeOfContents inComment (lines.map Line.content) := by
  induction lines generalizing inComment with
  | nil => rfl
  | cons line lines ih =>
    have hline := congrArg (List.map Prod.fst) (withoutSpaces_line inComment line)
    rw [List.map_map, List.map_map] at hline
    have hfirst : (withoutSpaces (codeOfLines inComment [line])).map Placed.token =
        (dropComments inComment (tokenize inComment line.content).1).filter fun t => !t.isSpace :=
      hline.trans (List.map_id _)
    have hsplit : withoutSpaces (codeOfLines inComment (line :: lines)) =
        withoutSpaces (codeOfLines inComment [line]) ++
          withoutSpaces (codeOfLines (tokenize inComment line.content).2 lines) := by
      rw [← List.singleton_append, codeOfLines_append, withoutSpaces, List.filter_append]
      rfl
    rw [hsplit, List.map_append, hfirst, ih, List.map_cons, codeOfContents]

namespace Document

/-- The lines of a document with one line put before the line at an index; the line endings may differ. -/
def InsertsAt (doc : Document) (i : Nat) (line : Text) (doc' : Document) : Prop :=
  doc'.lines.map Line.content =
    (doc.lines.take i).map Line.content ++ line :: (doc.linesFrom i).map Line.content

/-- Before the line at an index is a place between two items. Where it is inside a block comment, the comment
goes on behind the line put there. -/
structure Takes (doc : Document) (i : Nat) (line : Text) : Prop where
  seam : Grammar.Seam (withoutSpaces (codeOfLines false (doc.lines.take i)))
    (withoutSpaces (codeOfLines (doc.startsInComment i) (doc.linesFrom i)))
  no_close : doc.startsInComment i → .commentClose ∉ (tokenize true line).1

/-- Wherever it is put between two items, the line does not change the scopes around any later line. -/
def Invisible (line : Text) : Prop :=
  ∀ (doc doc' : Document) (i j : Nat), doc.Takes i line → doc.InsertsAt i line doc' → i ≤ j →
    (doc'.scopeContext (j + 1)).chain = (doc.scopeContext j).chain ∧
      (doc'.scopeContext (j + 1)).inBlock = (doc.scopeContext j).inBlock

/-- What the resolver reads of a line with a statement, and of the lines behind it. -/
theorem codeOfContents_statement {line : Text} {head : List Token} (h : Grammar.LoneStatement line head)
    {inComment : Bool} (hclose : inComment → .commentClose ∉ (tokenize true line).1) (rest : List Text) :
    codeOfContents inComment (line :: rest) =
      (if inComment then [] else head ++ [.delimiter ';']) ++ codeOfContents inComment rest := by
  cases inComment with
  | true =>
    have hinside : (tokenize true line).2 := by
      rw [← insideAfter_tokenize]
      exact insideAfter_inside (hclose rfl)
    rw [codeOfContents, dropComments_of_not_mem (hclose rfl), hinside]
    rfl
  | false =>
    have hcode := h.closed.inCode
    have hinside : (tokenize false line).2 = false := by
      simp only [Lexer.Mode.inCode, Bool.and_eq_true, Bool.not_eq_true'] at hcode
      rw [tokenize, Lexer.run_eq_read]
      exact hcode.2
    have hline : (dropComments false (tokenize false line).1).filter (fun t => !t.isSpace) =
        head ++ [.delimiter ';'] := h.code_eq
    rw [codeOfContents, hinside, hline]
    rfl

/-- The code tokens above a line are those above the place of the insertion, then those behind it. -/
theorem exists_code_take (doc : Document) {i j : Nat} (hij : i ≤ j) :
    ∃ rest : List Text, (doc.lines.take j).map Line.content = (doc.lines.take i).map Line.content ++ rest ∧
      ∀ (doc' : Document) (line : Text), doc.InsertsAt i line doc' →
        (doc'.lines.take (j + 1)).map Line.content = (doc.lines.take i).map Line.content ++ line :: rest := by
  have hlength : ((doc.lines.take i).map Line.content).length ≤ j := by
    rw [List.length_map, List.length_take]
    omega
  refine ⟨((doc.linesFrom i).map Line.content).take (j - ((doc.lines.take i).map Line.content).length), ?_, ?_⟩
  · have hcontents : doc.lines.map Line.content =
        (doc.lines.take i).map Line.content ++ (doc.linesFrom i).map Line.content := by
      rw [linesFrom, ← List.map_append, List.take_append_drop]
    rw [List.map_take, hcontents, List.take_append, List.take_of_length_le hlength]
  · intro doc' line hinserts
    have hsucc : j + 1 - ((doc.lines.take i).map Line.content).length =
        (j - ((doc.lines.take i).map Line.content).length) + 1 := by omega
    rw [List.map_take, hinserts, List.take_append, List.take_of_length_le (Nat.le_succ_of_le hlength), hsucc,
      List.take_succ_cons]

theorem invisible_of_closed {line : Text} {head : List Token} (h : Grammar.LoneStatement line head)
    (hangle : Resolver.leavesAngleOpen head = false) : Invisible line := by
  intro doc doc' i j htakes hinserts hij
  obtain ⟨rest, hcontents, hcontents'⟩ := doc.exists_code_take hij
  have hcode : (withoutSpaces (codeOfLines false (doc.lines.take j))).map Placed.token =
      codeOfContents false ((doc.lines.take i).map Line.content) ++
        codeOfContents (doc.startsInComment i) rest := by
    rw [map_token_withoutSpaces, hcontents, codeOfContents_append, startsInComment]
  have hcode' : (withoutSpaces (codeOfLines false (doc'.lines.take (j + 1)))).map Placed.token =
      codeOfContents false ((doc.lines.take i).map Line.content) ++
        ((if doc.startsInComment i then [] else head ++ [.delimiter ';']) ++
          codeOfContents (doc.startsInComment i) rest) := by
    rw [map_token_withoutSpaces, hcontents' doc' line hinserts, codeOfContents_append,
      ← codeOfContents_statement h htakes.no_close, startsInComment]
  obtain ⟨above, below, htokens, habove, hbelow⟩ := List.map_eq_append_iff.mp hcode
  obtain ⟨above', more', htokens', habove', hmore'⟩ := List.map_eq_append_iff.mp hcode'
  obtain ⟨statement, below', rfl, hstatement, hbelow'⟩ := List.map_eq_append_iff.mp hmore'
  have hstart : Resolver.Ready {} [] := ⟨⟨rfl, rfl, rfl⟩, by simp, rfl⟩
  -- Both documents bring the resolver to the place ready for an item, in the same scopes.
  obtain ⟨stack, hseam⟩ := Resolver.exists_ready_of_seam htakes.seam hstart
  have hready (tokens : List Placed)
      (ht : tokens.map Placed.token = codeOfContents false ((doc.lines.take i).map Line.content)) :
      Resolver.Ready (tokens.foldl Resolver.State.step {}) stack :=
    ((hstart.agrees hstart).foldl ((map_token_withoutSpaces false _).trans ht.symm)).ready hseam
  have hbehind : Resolver.Ready (statement.foldl Resolver.State.step (above'.foldl Resolver.State.step {})) stack := by
    cases hcomment : doc.startsInComment i with
    | true =>
      obtain rfl : statement = [] := by simpa [hcomment] using hstatement
      exact hready above' habove'
    | false =>
      rw [hcomment] at hstatement
      exact Resolver.ready_of_statement h hangle (hready above' habove') hstatement
  have hagrees := (hbehind.agrees (hready above habove)).foldl (hbelow'.trans hbelow.symm)
  rw [← List.foldl_append, ← List.foldl_append, ← List.foldl_append, ← htokens', ← htokens] at hagrees
  exact hagrees.answers _ _

/-- A class with nothing in it. -/
def emptyClass : Document := ⟨"class A \x7b\n\x7d;".toList⟩

theorem emptyClass_takes (line : Text) : emptyClass.Takes 0 line := by
  have hstarts : emptyClass.startsInComment 0 = false := rfl
  let first : Line := ⟨1, 0, "class A \x7b".toList, .lf⟩
  let last : Line := ⟨2, 10, "\x7d;".toList, .none⟩
  have hclass : Grammar.Items
      ([.word "class".toList, .word "A".toList].map (⟨·, first⟩) ++
        ⟨.delimiter '{', first⟩ :: ([] ++ ⟨.delimiter '}', last⟩ :: ([⟨.delimiter ';', last⟩] ++ [])))
      (⟨some ⟨.classScope, "A".toList⟩, _, _⟩ :: ([] ++ [])) :=
    .scope (.intro (.word rfl) (.inl rfl) .none) rfl .nil rfl rfl .nil
  have hcode : Grammar.Items (withoutSpaces (codeOfLines false (emptyClass.linesFrom 0))) _ :=
    Eq.mpr (congrArg (Grammar.Items · _) (by decide +kernel)) hclass
  exact ⟨.items .nil hcode, by simp [hstarts]⟩

theorem insertsAt_zero {line : Text} (h : '\n' ∉ line) (doc : Document) :
    doc.InsertsAt 0 line ⟨line ++ LineEnd.crlf.text ++ doc.text⟩ := by
  have hended : Line.Ended line .crlf := ⟨h, by simp, by simp⟩
  rw [InsertsAt, lines_eq, Text.linesAt_line _ _ hended, List.map_cons, linesFrom, lines_eq,
    Text.map_content_linesAt doc.text _ _ 1 0]
  rfl

/-- Before an empty class, a statement with an open angle bracket takes the class for a part of itself. -/
theorem not_invisible_of_open {line : Text} {head : List Token} (h : Grammar.LoneStatement line head)
    (hangle : Resolver.leavesAngleOpen head) : ¬ Invisible line := by
  intro hinvisible
  have hinserts := insertsAt_zero h.no_newline emptyClass
  have hsame := (hinvisible _ _ 0 1 (emptyClass_takes line) hinserts (Nat.zero_le 1)).1
  have hchain : (emptyClass.scopeContext 1).chain = [⟨.classScope, "A".toList⟩] := by decide +kernel
  obtain ⟨rest, hcontents, hcontents'⟩ := emptyClass.exists_code_take (Nat.zero_le 1)
  obtain rfl : rest = ["class A \x7b".toList] := hcontents.symm.trans (by decide +kernel)
  have hclass : codeOfContents false ["class A \x7b".toList] =
      [.word "class".toList, .word "A".toList, .delimiter '{'] := by decide +kernel
  have hcode := map_token_withoutSpaces false
    ((Document.mk (line ++ LineEnd.crlf.text ++ emptyClass.text)).lines.take 2)
  rw [hcontents' _ _ hinserts, List.take_zero, List.map_nil, List.nil_append,
    codeOfContents_statement h (by simp), if_neg (by simp), hclass] at hcode
  obtain ⟨statement, below, htokens, hstatement, hbelow⟩ := List.map_eq_append_iff.mp hcode
  have hstart : Resolver.Ready {} [] := ⟨⟨rfl, rfl, rfl⟩, by simp, rfl⟩
  obtain ⟨kind, naming, hheader, hangles⟩ := Resolver.inHeader_of_statement h hangle hstart hstatement
  have hreads : Header.reads (.naming naming) (below.map Placed.token) = some (.naming naming) := by
    rw [hbelow]
    simp [Header.reads, Header.step_nested hangles]
  have hanswers := (Resolver.inHeader_foldl hheader hreads).answers
  rw [← List.foldl_append, ← htokens] at hanswers
  have hhidden : (Document.scopeContext ⟨line ++ LineEnd.crlf.text ++ emptyClass.text⟩ 2).chain = [] :=
    (hanswers _).1
  rw [hhidden, hchain] at hsame
  exact absurd hsame (by simp)

/-- A statement is invisible to all later lines, whatever document it is put into, exactly when none of its
scope keywords has a header that leaves an angle bracket open. -/
theorem invisible_iff_angles_closed {line : Text} {head : List Token} (h : Grammar.LoneStatement line head) :
    Invisible line ↔ Resolver.leavesAngleOpen head = false := by
  constructor
  · intro hinvisible
    by_contra hangle
    have hopen : Resolver.leavesAngleOpen head := by simpa using hangle
    exact not_invisible_of_open h hopen hinvisible
  · exact invisible_of_closed h

/-- A declaration with scope keywords and a `>` that closes nothing. -/
def templateLine : Text := "  template<class T> struct A<T> f(int x = 2 > 1);".toList

def templateHead : List Token :=
  [.word "template".toList, .delimiter '<', .word "class".toList, .word "T".toList, .delimiter '>',
    .word "struct".toList, .word "A".toList, .delimiter '<', .word "T".toList, .delimiter '>', .word "f".toList,
    .delimiter '(', .word "int".toList, .word "x".toList, .delimiter '=', .word "2".toList, .delimiter '>',
    .word "1".toList, .delimiter ')']

theorem invisible_templateLine : Grammar.LoneStatement templateLine templateHead ∧ Invisible templateLine := by
  have h : Grammar.LoneStatement templateLine templateHead :=
    ⟨by decide, by decide +kernel, by decide +kernel, by decide, by decide⟩
  exact ⟨h, (invisible_iff_angles_closed h).mpr (by decide)⟩

/-- The declaration of a comparison that returns a struct. -/
def comparisonLine : Text := "struct P operator<(int x);".toList

def comparisonHead : List Token :=
  [.word "struct".toList, .word "P".toList, .word "operator".toList, .delimiter '<', .delimiter '(',
    .word "int".toList, .word "x".toList, .delimiter ')']

/-- The declaration in front of a class hides the class from the line inside it. -/
theorem scopeContext_comparisonLine :
    Grammar.LoneStatement comparisonLine comparisonHead ∧ emptyClass.Takes 0 comparisonLine ∧
      emptyClass.InsertsAt 0 comparisonLine ⟨comparisonLine ++ LineEnd.crlf.text ++ emptyClass.text⟩ ∧
      (emptyClass.scopeContext 1).chain = [⟨.classScope, "A".toList⟩] ∧
      (Document.scopeContext ⟨comparisonLine ++ LineEnd.crlf.text ++ emptyClass.text⟩ 2).chain = [] := by
  have h : Grammar.LoneStatement comparisonLine comparisonHead :=
    ⟨by decide, by decide +kernel, by decide +kernel, by decide, by decide⟩
  exact ⟨h, emptyClass_takes _, insertsAt_zero h.no_newline _, by decide +kernel, by decide +kernel⟩

end Document

end OutOfLine

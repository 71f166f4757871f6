import OutOfLine.Scope.Resolver
import OutOfLine.Proofs.Locators

/-!
# The grammar of scopes

The code tokens of a well-formed document are a sequence of items: scopes, linkage specifications,
statements and blocks of code. The header reader goes through the head of a named scope and opens it at
the brace; in a statement whose brackets are well nested it finds no scope.
-/

namespace OutOfLine

/-- A pair of braces: those of a named scope, or those of a block of code. -/
structure Span where
  frame? : Option Frame
  opening : Placed
  closing : Placed

namespace Grammar

def isName (word : Text) : Bool := word ≠ "final".toList && ',' ∉ word

/-- The tokens of a name `w1::...::wn`. -/
inductive Path : List Token → Text → Prop
  | word {w : Text} (h : isName w) : Path [.word w] w
  | segment {ts : List Token} {name w : Text} (hts : Path ts name) (h : isName w) :
    Path (ts ++ [.delimiter ':', .delimiter ':', .word w]) (name ++ [':', ':'] ++ w)

inductive Bases : List Token → Prop
  | none : Bases []
  | list {ts : List Token} (ne_nil : ts ≠ []) (head_ne : ts.head? ≠ some (.delimiter ':'))
    (brace_not_mem : .delimiter '{' ∉ ts) (semicolon_not_mem : .delimiter ';' ∉ ts) :
    Bases (.delimiter ':' :: ts)

/-- What stands before the brace of a named scope. -/
inductive Head (kind : ScopeKind) (name : Text) : List Token → Prop
  | intro {path final bases : List Token} (hpath : Path path name)
    (hfinal : final = [] ∨ final = [.word "final".toList]) (hbases : Bases bases) :
    Head kind name (.word kind.keyword :: (path ++ final ++ bases))

def isKeyword : Token → Bool
  | .word text => (ScopeKind.ofKeyword? text).isSome
  | _ => false

/-- The brackets to be closed after one more token; nothing when it closes the wrong one. -/
def nestStep (stack : List Char) : Token → Option (List Char)
  | .delimiter '(' => some (')' :: stack)
  | .delimiter '<' => some ('>' :: stack)
  | .delimiter ')' => if stack.head? = some ')' then some stack.tail else none
  | .delimiter '>' => if stack.head? = some '>' then some stack.tail else none
  | _ => some stack

/-- Whether `()` and `<>` are well nested. -/
def wellNested (ts : List Token) : Bool := ts.foldlM nestStep [] = some []

def isPunctuation (t : Token) : Bool :=
  t == .delimiter '{' || t == .delimiter '}' || t == .delimiter ';'

/-- The tokens of a statement before its semicolon. -/
structure StatementHead (ts : List Token) : Prop where
  plain : ∀ t ∈ ts, isPunctuation t = false
  nested : (∀ t ∈ ts, isKeyword t = false) ∨ wellNested ts

/-- The tokens before the brace of a block of code. -/
structure BlockHead (ts : List Token) : Prop where
  plain : ∀ t ∈ ts, isPunctuation t = false
  no_keyword : ∀ t ∈ ts, isKeyword t = false
  last_plain : ts.getLast?.any Token.isLiteral = false

/-- The tokens of a sequence of items, and the braces of its named scopes and blocks in order. -/
inductive Items : List Placed → List Span → Prop
  | nil : Items [] []
  | scope {kind : ScopeKind} {name : Text} {head inner ending rest : List Placed}
    {opening closing : Placed} {spans more : List Span}
    (hhead : Head kind name (head.map Placed.token)) (hopen : opening.token = .delimiter '{')
    (hinner : Items inner spans) (hclose : closing.token = .delimiter '}')
    (hending : ending.map Placed.token = if kind.needsTerminator then [.delimiter ';'] else [])
    (hrest : Items rest more) :
    Items (head ++ opening :: (inner ++ closing :: (ending ++ rest)))
      (⟨some ⟨kind, name⟩, opening, closing⟩ :: (spans ++ more))
  | unnamed {keyword opening closing : Placed} {inner rest : List Placed} {spans more : List Span}
    (hkeyword : keyword.token = .word "namespace".toList) (hopen : opening.token = .delimiter '{')
    (hinner : Items inner spans) (hclose : closing.token = .delimiter '}') (hrest : Items rest more) :
    Items (keyword :: opening :: (inner ++ closing :: rest)) (spans ++ more)
  | linkage {keyword language opening closing : Placed} {inner rest : List Placed}
    {spans more : List Span} (hkeyword : keyword.token = .word "extern".toList)
    (hlanguage : language.token.isLiteral) (hopen : opening.token = .delimiter '{')
    (hinner : Items inner spans) (hclose : closing.token = .delimiter '}') (hrest : Items rest more) :
    Items (keyword :: language :: opening :: (inner ++ closing :: rest)) (spans ++ more)
  | statement {tokens rest : List Placed} {semicolon : Placed} {more : List Span}
    (htokens : StatementHead (tokens.map Placed.token)) (hsemi : semicolon.token = .delimiter ';')
    (hrest : Items rest more) : Items (tokens ++ semicolon :: rest) more
  | block {head inner rest : List Placed} {opening closing : Placed} {more : List Span}
    (hhead : BlockHead (head.map Placed.token)) (hopen : opening.token = .delimiter '{')
    (hinner : Brackets.after '{' '}' 1 (inner.map Placed.token) = some 1)
    (hclose : closing.token = .delimiter '}') (hrest : Items rest more) :
    Items (head ++ opening :: (inner ++ closing :: rest)) (⟨none, opening, closing⟩ :: more)

end Grammar

namespace Header

/-- The state after tokens that do not decide a header. -/
def reads (st : State) (ts : List Token) : Option State :=
  ts.foldlM (fun st t => (st.step t).getLeft?) st

theorem reads_append (st : State) (ts us : List Token) :
    reads st (ts ++ us) = (reads st ts).bind (reads · us) := List.foldlM_append ..

theorem addWord_of_isName {h : Naming} {w : Text} (hw : Grammar.isName w)
    (hg : h.afterGroup = false) :
    h.addWord w = { h with
      name := match h.name, h.qualified with
        | some outer, true => outer ++ [':', ':'] ++ w
        | _, _ => w
      qualified := false } := by
  simp only [Grammar.isName, ne_eq, decide_not, Bool.and_eq_true, Bool.not_eq_true',
    decide_eq_false_iff_not] at hw
  rw [Naming.addWord, if_neg (by simpa [hg] using hw.1)]
  obtain ⟨_, _, _, _, _⟩ := h
  subst hg
  rfl

theorem reads_word {h : Naming} {w : Text} (hw : Grammar.isName w) (hn : h.nested = false) :
    reads (.naming h) [.word w] = some (.naming (h.addWord w)) := by
  simp only [Grammar.isName, ne_eq, decide_not, Bool.and_eq_true, Bool.not_eq_true',
    decide_eq_false_iff_not] at hw
  simp [reads, State.step, Naming.step, hn, hw.2]

theorem reads_path {ts : List Token} {name : Text} (h : Grammar.Path ts name) :
    reads start ts = some (.naming { name := some name }) := by
  induction h with
  | word h =>
    rw [start, reads_word h rfl, addWord_of_isName h rfl]
  | @segment ts name w _ h ih =>
    have hcolons : reads (.naming { name := some name }) [.delimiter ':', .delimiter ':', .word w] =
        reads (.naming { name := some name, qualified := true }) [.word w] := rfl
    rw [reads_append, ih, Option.bind_some, hcolons, reads_word h rfl, addWord_of_isName h rfl]

theorem reads_final {h : Naming} (hn : h.nested = false) {final : List Token}
    (hfinal : final = [] ∨ final = [.word "final".toList]) :
    reads (.naming h) final = some (.naming h) := by
  rcases hfinal with rfl | rfl
  · rfl
  · have hcomma : ',' ∉ "final".toList := by decide
    simp [reads, State.step, Naming.step, hn, Naming.addWord]

theorem reads_bases (name : Option Text) {ts : List Token} (hbrace : .delimiter '{' ∉ ts)
    (hsemi : .delimiter ';' ∉ ts) : reads (.bases name) ts = some (.bases name) := by
  induction ts with
  | nil => rfl
  | cons t ts ih =>
    rw [List.mem_cons, not_or] at hbrace hsemi
    have hstep : (State.bases name).step t = .inl (.bases name) := by
      simp only [State.step, stepBases]
      split
      · exact absurd rfl hbrace.1
      · exact absurd rfl hsemi.1
      · rfl
    simp only [reads, List.foldlM_cons, hstep, Sum.getLeft?_inl]
    exact ih hbrace.2 hsemi.2

/-- The head of a named scope leads to its brace, which opens the scope. -/
theorem exists_reads_head {kind : ScopeKind} {name : Text} {head : List Token}
    (h : Grammar.Head kind name head) :
    ∃ ts st, head = .word kind.keyword :: ts ∧ reads start ts = some st ∧
      st.step (.delimiter '{') = .inr (.opened name) := by
  obtain @⟨path, final, bases, hpath, hfinal, hbases⟩ := h
  have hread : reads start (path ++ final) = some (.naming { name := some name }) := by
    rw [reads_append, reads_path hpath, Option.bind_some, reads_final rfl hfinal]
  cases hbases with
  | none => exact ⟨_, _, rfl, by rw [List.append_nil]; exact hread, rfl⟩
  | @list ts hne hhead hbrace hsemi =>
    refine ⟨_, .bases (some name), rfl, ?_, rfl⟩
    cases ts with
    | nil => exact absurd rfl hne
    | cons t ts =>
      have ht : t ≠ .delimiter ':' := by simpa using hhead
      have hcolon : (State.colon { name := some name }).step t = stepBases (some name) t := by
        simp [State.step, ht]
      have hbases := reads_bases (some name) hbrace hsemi
      rw [reads_append, hread, Option.bind_some]
      simp only [reads, List.foldlM_cons] at hbases ⊢
      change Option.bind ((State.colon { name := some name }).step t).getLeft? _ = _
      rw [hcolon]
      exact hbases

/-- How the brackets counted by a header relate to those that are to be closed: the header has counted
the ones opened since its keyword. -/
def Nested (nest : List Char) : State → Prop
  | .naming h => ∃ top base, nest = top ++ base ∧ h.parens = top.count ')' ∧ h.angles = top.count '>'
  | .colon h => h.parens = 0 ∧ h.angles = 0
  | .bases _ => True

theorem nested_stepBases {nest : List Char} {name : Option Text} {t : Token}
    (ht : Grammar.isPunctuation t = false) :
    ∃ st, stepBases name t = .inl st ∧ Nested nest st := by
  unfold stepBases
  split
  · simp [Grammar.isPunctuation] at ht
  · simp [Grammar.isPunctuation] at ht
  · exact ⟨_, rfl, trivial⟩

theorem nested_naming {nest nest' : List Char} {h : Naming} {t : Token}
    (hst : Nested nest (.naming h)) (ht : Grammar.isPunctuation t = false)
    (hnest : Grammar.nestStep nest t = some nest') :
    (∃ st, h.step t = .inl st ∧ Nested nest' st) ∨ h.step t = .inr .rejected := by
  obtain ⟨top, base, rfl, hparens, hangles⟩ := hst
  -- A closer that takes a bracket opened before the keyword finds both counts at zero.
  have hclose (c : Char) (hc : (top ++ base).head? = some c) (htop : 0 < top.count c) :
      ∃ top', top = c :: top' := by
    cases top with
    | nil => simp at htop
    | cons d top' =>
      obtain rfl : d = c := by simpa using hc
      exact ⟨top', rfl⟩
  unfold Naming.step
  split
  · obtain rfl := Option.some.inj hnest
    exact .inl ⟨_, rfl, ')' :: top, base, rfl, by simp [hparens], by simpa using hangles⟩
  · simp only [Grammar.nestStep] at hnest
    split
    · exact .inr rfl
    · next hpos =>
      split at hnest
      · next hhead =>
        obtain ⟨top', rfl⟩ := hclose ')' hhead (by omega)
        obtain rfl := Option.some.inj hnest
        exact .inl ⟨_, rfl, top', base, rfl, by simp [hparens], by simpa using hangles⟩
      · simp at hnest
  · obtain rfl := Option.some.inj hnest
    exact .inl ⟨_, rfl, '>' :: top, base, rfl, by simpa using hparens, by simp [hangles]⟩
  · simp only [Grammar.nestStep] at hnest
    split
    · exact .inr rfl
    · next hpos =>
      split at hnest
      · next hhead =>
        obtain ⟨top', rfl⟩ := hclose '>' hhead (by omega)
        obtain rfl := Option.some.inj hnest
        exact .inl ⟨_, rfl, top', base, rfl, by simpa using hparens, by simp [hangles]⟩
      · simp at hnest
  · next hopen hclose' hangle hangle' =>
    have hsame : nest' = top ++ base := by
      unfold Grammar.nestStep at hnest
      split at hnest <;> simp_all
    subst hsame
    have hkeep : Nested (top ++ base) (.naming h) := ⟨top, base, rfl, hparens, hangles⟩
    split
    · exact .inl ⟨_, rfl, hkeep⟩
    · next hn =>
      split
      · simp [Grammar.isPunctuation] at ht
      · simp [Grammar.isPunctuation] at ht
      · exact .inr rfl
      · refine .inl ⟨_, rfl, ?_⟩
        simpa [Naming.nested, Nested] using hn
      · split
        · exact .inr rfl
        · refine .inl ⟨_, rfl, top, base, rfl, ?_, ?_⟩
          · rw [← hparens, Naming.addWord]; split <;> rfl
          · rw [← hangles, Naming.addWord]; split <;> rfl
      · exact .inl ⟨_, rfl, hkeep⟩

/-- In a well-nested statement a header goes on or is rejected. -/
theorem nested_step {nest nest' : List Char} {st : State} {t : Token} (hst : Nested nest st)
    (ht : Grammar.isPunctuation t = false) (hnest : Grammar.nestStep nest t = some nest') :
    (∃ st', st.step t = .inl st' ∧ Nested nest' st') ∨ st.step t = .inr .rejected := by
  cases st with
  | naming h => exact nested_naming hst ht hnest
  | colon h =>
    simp only [State.step]
    split
    · exact .inl ⟨_, rfl, [], nest', rfl, hst.1, hst.2⟩
    · exact .inl (nested_stepBases ht)
  | bases name => exact .inl (nested_stepBases ht)

/-- The semicolon of a well-nested statement rejects a header. -/
theorem step_semicolon {st : State} (hst : Nested [] st) :
    st.step (.delimiter ';') = .inr .rejected := by
  cases st with
  | naming h =>
    obtain ⟨top, base, hnil, hparens, hangles⟩ := hst
    obtain ⟨rfl, -⟩ := List.append_eq_nil_iff.mp hnil.symm
    simp [State.step, Naming.step, Naming.nested, hparens, hangles]
  | colon h => rfl
  | bases name => rfl

end Header

end OutOfLine

import OutOfLine.Proofs.ScopeChains
import OutOfLine.Proofs.TokenShapes
import OutOfLine.Proofs.Words

/-!
# The open scopes as a stack

The resolver keeps the innermost open scope apart from those around it, and puts it back among them while a header
is read. On every document both together are a stack. Each turn of the resolver, a header with the keyword before
it or a single token, leaves the stack alone, puts one scope on top of it or takes the top away. A scope gets a
name only from words outside brackets, so that every frame of a chain has a proper one.
-/

namespace OutOfLine

/-- The words `w1::...::wn` of a scope name. -/
def Text.IsScopeName (name : Text) : Prop :=
  ∃ words : List Text, words ≠ [] ∧ name = Text.join [':', ':'] words ∧
    ∀ word ∈ words, word ≠ [] ∧ word ≠ "final".toList ∧ ',' ∉ word ∧ ∀ c ∈ word, isDelimiter c = false

theorem Text.join_concat {separator : Text} {words : List Text} (h : words ≠ []) (word : Text) :
    join separator (words ++ [word]) = join separator words ++ separator ++ word := by
  induction words with
  | nil => exact absurd rfl h
  | cons first words ih =>
    cases words with
    | nil => simp [join, List.intercalate]
    | cons next words =>
      rw [List.cons_append, List.cons_append, join_cons_cons, join_cons_cons, ← List.cons_append,
        ih (List.cons_ne_nil _ _)]
      simp

namespace Header

/-- The name read so far. -/
def State.name? : State → Option Text
  | .naming h => h.name
  | .colon h => h.name
  | .bases name => name

def WellNamed (name? : Option Text) : Prop := ∀ name, name? = some name → name.IsScopeName

theorem wellNamed_addWord {h : Naming} {word : Text} (hname : WellNamed h.name) (hshaped : (Token.word word).Shaped)
    (hcomma : ',' ∉ word) : WellNamed (h.addWord word).name := by
  rw [Naming.addWord]
  split
  · exact hname
  · next hword =>
    have hfinal : word ≠ "final".toList := fun heq => hword (.inl heq)
    have hpart : word ≠ [] ∧ word ≠ "final".toList ∧ ',' ∉ word ∧ ∀ c ∈ word, isDelimiter c = false :=
      ⟨hshaped.1, hfinal, hcomma, hshaped.2⟩
    intro name heq
    dsimp only at heq
    split at heq
    · next outer houter _ =>
      obtain rfl := Option.some.inj heq
      obtain ⟨words, hne, rfl, hwords⟩ := hname outer houter
      refine ⟨words ++ [word], by simp, (Text.join_concat hne word).symm, ?_⟩
      intro part hpart'
      rcases List.mem_append.mp hpart' with hmem | hmem
      · exact hwords part hmem
      · rwa [List.mem_singleton.mp hmem]
    · obtain rfl := Option.some.inj heq
      refine ⟨[word], by simp, by simp [Text.join, List.intercalate], ?_⟩
      intro part hmem
      rwa [List.mem_singleton.mp hmem]

/-- What a token does to a header: it keeps the name, adds a word to it, rejects the header, or is the brace that
ends it. -/
inductive Reaction (st : State) (token : Token) : State ⊕ Verdict → Prop
  | keep {st' : State} (hname : st'.name? = st.name?) : Reaction st token (.inl st')
  | word {h : Naming} {word : Text} (hst : st = .naming h) (htoken : token = .word word) (hcomma : ',' ∉ word) :
    Reaction st token (.inl (.naming (h.addWord word)))
  | reject : Reaction st token (.inr .rejected)
  | block (htoken : token = .delimiter '{') : Reaction st token (.inr .block)
  | brace (htoken : token = .delimiter '{') : Reaction st token (.inr (opening st.name?))

theorem reaction_naming (h : Naming) (token : Token) : Reaction (.naming h) token (h.step token) := by
  unfold Naming.step
  split
  · exact .keep rfl
  · split
    · exact .reject
    · exact .keep rfl
  · exact .keep rfl
  · split
    · exact .reject
    · exact .keep rfl
  · split
    · exact .keep rfl
    · split
      · split
        · exact .block rfl
        · exact .brace rfl
      · exact .reject
      · exact .reject
      · exact .keep rfl
      · split
        · exact .reject
        · next hcomma => exact .word rfl rfl hcomma
      · exact .keep rfl

theorem reaction_stepBases {st : State} {name : Option Text} (hname : st.name? = name) (token : Token) :
    Reaction st token (stepBases name token) := by
  unfold stepBases
  split
  · rw [← hname]
    exact .brace rfl
  · exact .reject
  · exact .keep hname.symm

theorem reaction_step (st : State) (token : Token) : Reaction st token (st.step token) := by
  cases st with
  | naming h => exact reaction_naming h token
  | colon h =>
    rw [State.step]
    split
    · exact .keep rfl
    · exact reaction_stepBases rfl token
  | bases name => exact reaction_stepBases rfl token

theorem wellNamed_step {st st' : State} {token : Token} (h : WellNamed st.name?) (hshaped : token.Shaped)
    (hstep : st.step token = .inl st') : WellNamed st'.name? := by
  have hreaction := reaction_step st token
  rw [hstep] at hreaction
  cases hreaction with
  | keep hname => rwa [hname]
  | word hst htoken hcomma =>
    rw [hst] at h
    rw [htoken] at hshaped
    exact wellNamed_addWord h hshaped hcomma

/-- A name is opened at the brace, and it is the name read. -/
theorem of_step_eq_opened {st : State} {token : Token} {name : Text} (hstep : st.step token = .inr (.opened name)) :
    token = .delimiter '{' ∧ st.name? = some name := by
  have hreaction := reaction_step st token
  rw [hstep] at hreaction
  generalize hverdict : Verdict.opened name = verdict at hreaction
  cases hreaction with
  | reject => simp at hverdict
  | block => simp at hverdict
  | brace htoken =>
    refine ⟨htoken, ?_⟩
    cases hname : st.name? with
    | none => simp [opening, hname] at hverdict
    | some other =>
      obtain rfl : name = other := by simpa [opening, hname] using hverdict
      rfl

/-- Tokens decide a header at one of them, or leave it undecided. -/
theorem reads_or_decides (st : State) (tokens : List Token) :
    (∃ st', reads st tokens = some st') ∨ ∃ body last rest st' verdict, tokens = body ++ last :: rest ∧
      reads st body = some st' ∧ st'.step last = .inr verdict := by
  induction tokens generalizing st with
  | nil => exact .inl ⟨st, rfl⟩
  | cons token tokens ih =>
    cases hstep : st.step token with
    | inr verdict => exact .inr ⟨[], token, tokens, st, verdict, rfl, rfl, hstep⟩
    | inl next =>
      have hcons (more : List Token) : reads st (token :: more) = reads next more := by
        simp [reads, hstep]
      rcases ih next with ⟨st', hreads⟩ | ⟨body, last, rest, st', verdict, rfl, hbody, hlast⟩
      · exact .inl ⟨st', (hcons tokens).trans hreads⟩
      · exact .inr ⟨token :: body, last, rest, st', verdict, rfl, (hcons body).trans hbody, hlast⟩

end Header

namespace Resolver

/-- The open scopes, outermost first: those saved, then the active one. -/
def State.openScopes (s : State) : List OpenScope := (s.active.toList ++ s.saved).reverse

def State.inHeader (s : State) : Bool :=
  match s.mode with
  | .header _ _ => true
  | _ => false

/-- What happens to the open scopes. -/
inductive Change where
  | keep
  | push (scope : OpenScope)
  | pop
  deriving DecidableEq

def Change.apply : Change → List OpenScope → List OpenScope
  | keep, scopes => scopes
  | push scope, scopes => scopes ++ [scope]
  | pop, scopes => scopes.dropLast

/-- A header opens a scope, with or without a name, or none. -/
def Change.ofVerdict (kind : ScopeKind) : Header.Verdict → Change
  | .opened name => .push (.named ⟨kind, name⟩)
  | .unnamed => .push .anonymous
  | .block => .keep
  | .rejected => .keep

/-- What the resolver reads in one turn, and how this changes the open scopes. -/
inductive Turn (s : State) : List Placed → Change → Prop
  /-- A scope keyword and the header after it, up to the token that decides it. -/
  | header {keyword last : Placed} {body : List Placed} {kind : ScopeKind} {st : Header.State}
    {verdict : Header.Verdict} (hmode : s.mode = .items)
    (hkey : ScopeKind.introducedBy s.previous keyword.token = some kind)
    (hbody : Header.reads Header.start (body.map Placed.token) = some st)
    (hlast : st.step last.token = .inr verdict) :
    Turn s (keyword :: (body ++ [last])) (.ofVerdict kind verdict)
  /-- A brace right after a literal. -/
  | linkage {brace : Placed} (hmode : s.mode = .items) (hliteral : s.previous.any Token.isLiteral)
    (hbrace : brace.token = .delimiter '{') : Turn s [brace] (.push .anonymous)
  | close {brace : Placed} (hmode : s.mode = .items) (hbrace : brace.token = .delimiter '}') : Turn s [brace] .pop
  /-- Any other brace, which opens a block of code. -/
  | block {brace : Placed} (hmode : s.mode = .items) (hliteral : s.previous.any Token.isLiteral = false)
    (hbrace : brace.token = .delimiter '{') : Turn s [brace] .keep
  /-- A token of a block of code, its last brace included. -/
  | skip {placed : Placed} {depth : Nat} (hmode : s.mode = .block depth) : Turn s [placed] .keep
  | other {placed : Placed} (hmode : s.mode = .items)
    (hkey : ScopeKind.introducedBy s.previous placed.token = none) (hopen : placed.token ≠ .delimiter '{')
    (hclose : placed.token ≠ .delimiter '}') : Turn s [placed] .keep

/-- How a single token changes the open scopes. Within a header only its last token can. -/
def State.change (s : State) (placed : Placed) : Change :=
  match s.mode with
  | .items =>
    if (ScopeKind.introducedBy s.previous placed.token).isSome then .keep
    else if placed.token = .delimiter '}' then .pop
    else if placed.token = .delimiter '{' ∧ s.previous.any Token.isLiteral then .push .anonymous
    else .keep
  | .header kind st => (st.step placed.token).elim (fun _ => .keep) (.ofVerdict kind)
  | .block _ => .keep

/-- Only a header that is being read, or the lack of any open scope, leaves no scope active. -/
structure State.Tidy (s : State) : Prop where
  active_inHeader : s.inHeader → s.active = none
  saved_eq_nil : s.inHeader = false → s.active = none → s.saved = []

@[simp] theorem openScopes_save (s : State) : s.save.openScopes = s.openScopes := by
  simp [State.openScopes, State.save]

theorem openScopes_restore (s : State) : s.restore.openScopes = s.saved.reverse := by
  simp [State.openScopes, State.restore, head?_toList_append_tail]

theorem openScopes_of_none {s : State} (h : s.active = none) : s.openScopes = s.saved.reverse := by
  simp [State.openScopes, h]

theorem tidy_of_restore {s t : State} (hheader : t.inHeader = false) (hactive : t.active = s.saved.head?)
    (hsaved : t.saved = s.saved.tail) : t.Tidy := by
  refine ⟨by simp [hheader], ?_⟩
  intro _ hnone
  rw [hactive, List.head?_eq_none_iff] at hnone
  rw [hsaved, hnone, List.tail_nil]

theorem tidy_of_enter {t : State} {scope : OpenScope} (hheader : t.inHeader = false)
    (hactive : t.active = some scope) : t.Tidy :=
  ⟨by simp [hheader], by simp [hactive]⟩

section Step

variable {s : State} (h : s.Tidy)
include h

theorem State.Tidy.item (hmode : s.mode = .items) (token : Token) : (s.item token).Tidy := by
  have hitems (t : State) (ht : t.mode = .items) : t.inHeader = false := by simp [State.inHeader, ht]
  unfold State.item
  split
  · exact ⟨fun _ => rfl, by simp [State.inHeader]⟩
  · split
    · exact tidy_of_restore (hitems _ hmode) rfl rfl
    · split
      · split
        · exact tidy_of_enter (hitems _ hmode) rfl
        · exact ⟨by simp [State.inHeader], fun _ => h.saved_eq_nil (hitems s hmode)⟩
      · exact ⟨by simp [State.inHeader, hmode], fun _ => h.saved_eq_nil (hitems s hmode)⟩

theorem State.Tidy.step (placed : Placed) : (s.step placed).Tidy := by
  unfold State.step
  split
  · next hmode => exact h.item hmode placed.token
  · next kind st hmode =>
    have hactive : s.active = none := h.active_inHeader (by simp [State.inHeader, hmode])
    split
    · exact ⟨fun _ => hactive, by simp [State.inHeader]⟩
    · next verdict _ =>
      cases verdict with
      | opened name => exact tidy_of_enter rfl rfl
      | unnamed => exact tidy_of_enter rfl rfl
      | block => exact tidy_of_restore rfl rfl rfl
      | rejected => exact tidy_of_restore rfl rfl rfl
  · next depth hmode =>
    have hsaved := h.saved_eq_nil (by simp [State.inHeader, hmode])
    split
    · exact ⟨by simp [State.inHeader], fun _ => hsaved⟩
    · split
      · split
        · exact ⟨by simp [State.inHeader], fun _ => hsaved⟩
        · exact ⟨by simp [State.inHeader], fun _ => hsaved⟩
      · exact h

theorem State.Tidy.foldl (tokens : List Placed) : (tokens.foldl State.step s).Tidy := by
  induction tokens generalizing s with
  | nil => exact h
  | cons placed tokens ih => exact ih (h.step placed)

theorem State.Tidy.openScopes_pop (hheader : s.inHeader = false) : s.restore.openScopes = s.openScopes.dropLast := by
  rw [openScopes_restore]
  cases hactive : s.active with
  | none => simp [State.openScopes, hactive, h.saved_eq_nil hheader hactive]
  | some scope => simp [State.openScopes, hactive]

theorem State.Tidy.openScopes_decide (hheader : s.inHeader) (kind : ScopeKind) (line : Nat) (verdict : Header.Verdict) :
    (s.decide kind line verdict).openScopes = (Change.ofVerdict kind verdict).apply s.openScopes := by
  rw [openScopes_of_none (h.active_inHeader hheader)]
  cases verdict with
  | opened name => simp [State.decide, State.openScopes, State.enter, Change.ofVerdict, Change.apply]
  | unnamed => simp [State.decide, State.openScopes, State.enter, Change.ofVerdict, Change.apply]
  | block => exact openScopes_restore s
  | rejected => exact openScopes_restore s

theorem State.Tidy.openScopes_item (hmode : s.mode = .items) (placed : Placed) :
    (s.item placed.token).openScopes = (s.change placed).apply s.openScopes := by
  have hheader : s.inHeader = false := by simp [State.inHeader, hmode]
  cases hkey : ScopeKind.introducedBy s.previous placed.token with
  | some kind =>
    have hchange : s.change placed = .keep := by simp [State.change, hmode, hkey]
    simp only [State.item, hkey, hchange]
    exact openScopes_save _
  | none =>
    by_cases hclose : placed.token = .delimiter '}'
    · have hchange : s.change placed = .pop := by
        rw [hclose] at hkey
        simp [State.change, hmode, hclose, hkey]
      rw [hchange, Change.apply, ← h.openScopes_pop hheader]
      simp only [State.item, hkey, if_pos hclose]
      rfl
    · by_cases hopen : placed.token = .delimiter '{' ∧ s.previous.any Token.isLiteral
      · have hchange : s.change placed = .push .anonymous := by
          simp only [State.change, hmode, hkey, if_neg hclose, if_pos hopen]
          rfl
        simp only [hchange, State.item, hkey, if_neg hclose, if_pos hopen.1, if_pos hopen.2]
        simp [State.openScopes, State.save, State.enter, Change.apply]
      · have hchange : s.change placed = .keep := by
          simp only [State.change, hmode, hkey, if_neg hclose, if_neg hopen]
          rfl
        rw [not_and] at hopen
        simp only [hchange, State.item, hkey, if_neg hclose]
        split
        · next hbrace =>
          rw [if_neg (hopen hbrace)]
          rfl
        · rfl

/-- Every token keeps the open scopes, opens one or closes the last. -/
theorem State.Tidy.openScopes_step (placed : Placed) :
    (s.step placed).openScopes = (s.change placed).apply s.openScopes := by
  cases hmode : s.mode with
  | items =>
    have hstep : s.step placed = s.item placed.token := by simp [State.step, hmode]
    rw [hstep]
    exact h.openScopes_item hmode placed
  | header kind st =>
    have hheader : s.inHeader := by simp [State.inHeader, hmode]
    simp only [State.step, State.change, hmode]
    cases st.step placed.token with
    | inl st' => rfl
    | inr verdict => exact h.openScopes_decide hheader kind _ verdict
  | block depth =>
    simp only [State.step, State.change, hmode]
    split_ifs <;> rfl

/-- A header that is not decided leaves the open scopes alone. -/
theorem State.Tidy.foldl_header {kind : ScopeKind} {st st' : Header.State} {body : List Placed}
    (hmode : s.mode = .header kind st) (hbody : Header.reads st (body.map Placed.token) = some st') :
    (body.foldl State.step s).mode = .header kind st' ∧
      (body.foldl State.step s).openScopes = s.openScopes := by
  induction body generalizing s st with
  | nil =>
    obtain rfl := Option.some.inj hbody
    exact ⟨hmode, rfl⟩
  | cons placed body ih =>
    simp only [Header.reads, List.map_cons, List.foldlM_cons, Option.bind_eq_bind, Option.bind_eq_some_iff] at hbody
    obtain ⟨next, hnext, hrest⟩ := hbody
    rw [Sum.getLeft?_eq_some_iff] at hnext
    have hmode' : (s.step placed).mode = .header kind next := by simp [State.step, hmode, hnext]
    have hchange : s.change placed = .keep := by simp [State.change, hmode, hnext]
    obtain ⟨hlast, hscopes⟩ := ih (h.step placed) hmode' hrest
    refine ⟨hlast, hscopes.trans ?_⟩
    rw [h.openScopes_step, hchange, Change.apply]

/-- After a turn the next one begins, with the open scopes changed as the turn says. -/
theorem State.Tidy.turn {tokens : List Placed} {change : Change} (hturn : Turn s tokens change) :
    (tokens.foldl State.step s).inHeader = false ∧
      (tokens.foldl State.step s).openScopes = change.apply s.openScopes := by
  have hsingle (placed : Placed) (hheader : (s.step placed).inHeader = false) (hchange : s.change placed = change) :
      (s.step placed).inHeader = false ∧ (s.step placed).openScopes = change.apply s.openScopes := by
    rw [h.openScopes_step, hchange]
    exact ⟨hheader, rfl⟩
  have hbrace (c : Char) : ScopeKind.introducedBy s.previous (.delimiter c) = none :=
    introducedBy_of_not_keyword rfl
  cases hturn with
  | @header keyword last body kind st verdict hmode hkey hbody hlast =>
    have hstart : (s.step keyword).mode = .header kind Header.start := by simp [State.step, hmode, State.item, hkey]
    have hkeyword : s.change keyword = .keep := by simp [State.change, hmode, hkey]
    obtain ⟨hmode', hscopes⟩ := (h.step keyword).foldl_header hstart hbody
    rw [List.foldl_cons, List.foldl_append, List.foldl_cons, List.foldl_nil]
    have htidy := (h.step keyword).foldl body
    generalize body.foldl State.step (s.step keyword) = t at hmode' hscopes htidy
    have hchange : t.change last = .ofVerdict kind verdict := by simp [State.change, hmode', hlast]
    rw [htidy.openScopes_step, hchange, hscopes, h.openScopes_step, hkeyword, Change.apply]
    refine ⟨?_, rfl⟩
    simp only [State.step, hmode', hlast]
    cases verdict <;> rfl
  | @linkage brace hmode hliteral hopen =>
    apply hsingle brace
    · simp [State.step, hmode, State.item, hopen, hbrace, hliteral, State.inHeader, State.save, State.enter]
    · simp [State.change, hmode, hopen, hbrace, hliteral]
  | @close brace hmode hclose =>
    apply hsingle brace
    · simp [State.step, hmode, State.item, hclose, hbrace, State.inHeader, State.restore]
    · simp [State.change, hmode, hclose, hbrace]
  | @block brace hmode hliteral hopen =>
    apply hsingle brace
    · simp [State.step, hmode, State.item, hopen, hbrace, hliteral, State.inHeader]
    · simp [State.change, hmode, hopen, hbrace, hliteral]
  | @skip placed depth hmode =>
    apply hsingle placed
    · simp only [State.step, hmode]
      split_ifs <;> simp [State.inHeader, hmode]
    · simp [State.change, hmode]
  | @other placed hmode hkey hopen hclose =>
    apply hsingle placed
    · simp [State.step, hmode, State.item, hkey, hopen, hclose, State.inHeader]
    · simp [State.change, hmode, hkey, hopen, hclose]

/-- The end of the lines rejects a header that is being read. -/
theorem State.Tidy.finish (line : Nat) :
    (s.finish line).openScopes = s.openScopes ∧ ((s.finish line).active = none → (s.finish line).saved = []) := by
  unfold State.finish
  split
  · next kind st hmode =>
    rw [openScopes_of_none (h.active_inHeader (by simp [State.inHeader, hmode]))]
    refine ⟨openScopes_restore s, fun hnone => ?_⟩
    have hsaved : s.saved = [] := List.head?_eq_none_iff.mp hnone
    simp [State.reject, State.restore, hsaved]
  · next hmode =>
    refine ⟨rfl, h.saved_eq_nil ?_⟩
    cases hs : s.mode with
    | header kind st => exact absurd hs (hmode kind st)
    | _ => simp [State.inHeader, hs]

end Step

/-- Outside headers the next token begins a turn, and only a header that the lines do not decide is left over. -/
theorem exists_turn {s : State} (hheader : s.inHeader = false) (placed : Placed) (rest : List Placed) :
    (∃ turn more change, placed :: rest = turn ++ more ∧ Turn s turn change) ∨
      ∃ kind st, ScopeKind.introducedBy s.previous placed.token = some kind ∧
        Header.reads Header.start (rest.map Placed.token) = some st := by
  have hsingle {change : Change} (hturn : Turn s [placed] change) :
      ∃ turn more change, placed :: rest = turn ++ more ∧ Turn s turn change :=
    ⟨[placed], rest, change, rfl, hturn⟩
  cases hmode : s.mode with
  | header kind st => simp [State.inHeader, hmode] at hheader
  | block depth => exact .inl (hsingle (.skip hmode))
  | items =>
    cases hkey : ScopeKind.introducedBy s.previous placed.token with
    | none =>
      left
      by_cases hopen : placed.token = .delimiter '{'
      · cases hliteral : s.previous.any Token.isLiteral with
        | true => exact hsingle (.linkage hmode hliteral hopen)
        | false => exact hsingle (.block hmode hliteral hopen)
      · by_cases hclose : placed.token = .delimiter '}'
        · exact hsingle (.close hmode hclose)
        · exact hsingle (.other hmode hkey hopen hclose)
    | some kind =>
      rcases Header.reads_or_decides Header.start (rest.map Placed.token) with
        ⟨st, hreads⟩ | ⟨body, last, more, st, verdict, hrest, hbody, hlast⟩
      · exact .inr ⟨kind, st, rfl, hreads⟩
      · obtain ⟨body, tail, rfl, rfl, htail⟩ := List.map_eq_append_iff.mp hrest
        obtain ⟨last, more, rfl, rfl, rfl⟩ := List.map_eq_cons_iff.mp htail
        exact .inl ⟨placed :: (body ++ [last]), more, _, by simp, .header hmode hkey hbody hlast⟩

/-- Wherever the resolver stands between two turns, the open scopes are a stack: none is active only when none is
open, the next tokens are a turn, and the turn keeps the stack, pushes one scope or pops the last. -/
structure Stacked (tokens : List Placed) : Prop where
  saved_eq_nil : ∀ {read rest}, tokens = read ++ rest → (read.foldl State.step {}).inHeader = false →
    (read.foldl State.step {}).active = none → (read.foldl State.step {}).saved = []
  exists_turn : ∀ {read placed rest}, tokens = read ++ placed :: rest → (read.foldl State.step {}).inHeader = false →
    (∃ turn more change, placed :: rest = turn ++ more ∧ Turn (read.foldl State.step {}) turn change) ∨
      ∃ kind st, ScopeKind.introducedBy (read.foldl State.step {}).previous placed.token = some kind ∧
        Header.reads Header.start (rest.map Placed.token) = some st
  of_turn : ∀ {read turn rest change}, tokens = read ++ turn ++ rest → Turn (read.foldl State.step {}) turn change →
    ((read ++ turn).foldl State.step {}).inHeader = false ∧
      ((read ++ turn).foldl State.step {}).openScopes = change.apply (read.foldl State.step {}).openScopes

theorem tidy_start : State.Tidy {} := ⟨by simp [State.inHeader], fun _ _ => rfl⟩

theorem stacked (tokens : List Placed) : Stacked tokens where
  saved_eq_nil := fun {read _} _ => (tidy_start.foldl read).saved_eq_nil
  exists_turn := fun _ hheader => exists_turn hheader _ _
  of_turn := by
    intro read turn rest change _ hturn
    rw [List.foldl_append]
    exact (tidy_start.foldl read).turn hturn

theorem chain_eq (s : State) : s.chain = s.openScopes.filterMap OpenScope.frame? := rfl

/-- Only a header that is decided by its brace opens a scope with a name. -/
theorem of_change_eq_push {s : State} {placed : Placed} {frame : Frame}
    (h : s.change placed = .push (.named frame)) :
    ∃ st, s.mode = .header frame.kind st ∧ st.step placed.token = .inr (.opened frame.name) := by
  unfold State.change at h
  split at h
  · split_ifs at h
    simp at h
  · next kind st hmode =>
    cases hstep : st.step placed.token with
    | inl st' => simp [hstep] at h
    | inr verdict =>
      cases verdict with
      | opened name =>
        obtain rfl : (⟨kind, name⟩ : Frame) = frame := by simpa [hstep, Change.ofVerdict] using h
        exact ⟨st, hmode, hstep⟩
      | _ => simp [hstep, Change.ofVerdict] at h
  · simp at h

/-- The open scopes have proper names, and so has a scope whose header is being read. -/
structure State.WellNamed (s : State) : Prop where
  scopes : ∀ frame, .named frame ∈ s.openScopes → frame.name.IsScopeName
  header : ∀ kind st, s.mode = .header kind st → Header.WellNamed st.name?

theorem wellNamed_start : State.WellNamed {} := ⟨by simp [State.openScopes], by simp⟩

theorem State.WellNamed.step {s : State} (h : s.WellNamed) (htidy : s.Tidy) {placed : Placed}
    (hshaped : placed.token.Shaped) : (s.step placed).WellNamed := by
  constructor
  · intro frame hmem
    rw [htidy.openScopes_step] at hmem
    cases hchange : s.change placed with
    | keep =>
      rw [hchange] at hmem
      exact h.scopes frame hmem
    | pop =>
      rw [hchange] at hmem
      exact h.scopes frame ((List.dropLast_sublist _).mem hmem)
    | push scope =>
      rw [hchange] at hmem
      rcases List.mem_append.mp hmem with hmem | hmem
      · exact h.scopes frame hmem
      · rw [← List.mem_singleton.mp hmem] at hchange
        -- A scope is entered only with the name that its header has read.
        obtain ⟨st, hmode, hstep⟩ := of_change_eq_push hchange
        exact h.header _ st hmode frame.name (Header.of_step_eq_opened hstep).2
  · intro kind st hmode
    cases hs : s.mode with
    | items =>
      simp only [State.step, hs, State.item] at hmode
      split at hmode
      · obtain ⟨-, rfl⟩ : _ ∧ Header.start = st := by simpa using hmode
        simp [Header.WellNamed, Header.start, Header.State.name?]
      · split_ifs at hmode <;> simp [State.restore, State.save, State.enter] at hmode
    | header kind' st' =>
      simp only [State.step, hs] at hmode
      cases hstep : st'.step placed.token with
      | inl next =>
        obtain ⟨-, rfl⟩ : _ ∧ next = st := by simpa [hstep] using hmode
        exact Header.wellNamed_step (h.header kind' st' hs) hshaped hstep
      | inr verdict => cases verdict <;> simp [hstep, State.decide] at hmode
    | block depth =>
      simp only [State.step, hs] at hmode
      split_ifs at hmode
      simp [hs] at hmode

theorem State.WellNamed.foldl {s : State} (h : s.WellNamed) (htidy : s.Tidy) {tokens : List Placed}
    (hshaped : ∀ placed ∈ tokens, placed.token.Shaped) : (tokens.foldl State.step s).WellNamed := by
  induction tokens generalizing s with
  | nil => exact h
  | cons placed tokens ih =>
    rw [List.forall_mem_cons] at hshaped
    exact ih (h.step htidy hshaped.1) (htidy.step placed) hshaped.2

/-- Whether a token is the brace that a header being read ends at. -/
def State.bracesHeader (s : State) (placed : Placed) : Bool :=
  match s.mode with
  | .header _ st => placed.token == .delimiter '{' && (st.step placed.token).isRight
  | _ => false

/-- The headers that reach their brace. -/
def bracedHeaders (s : State) : List Placed → Nat
  | [] => 0
  | placed :: rest => (s.bracesHeader placed).toNat + bracedHeaders (s.step placed) rest

theorem State.Tidy.length_chain_step {s : State} (h : s.Tidy) (placed : Placed) :
    (s.step placed).chain.length ≤ s.chain.length + (s.bracesHeader placed).toNat := by
  rw [chain_eq, chain_eq, h.openScopes_step]
  cases hchange : s.change placed with
  | keep => exact Nat.le_add_right _ _
  | pop => exact ((List.dropLast_sublist _).filterMap _).length_le.trans (Nat.le_add_right _ _)
  | push scope =>
    rw [Change.apply, List.filterMap_append, List.length_append]
    apply Nat.add_le_add_left
    cases scope with
    | anonymous => exact Nat.zero_le _
    | named frame =>
      obtain ⟨st, hmode, hstep⟩ := of_change_eq_push hchange
      have hbrace := (Header.of_step_eq_opened hstep).1
      have hbraces : s.bracesHeader placed := by
        rw [hbrace] at hstep
        simp [State.bracesHeader, hmode, hbrace, hstep]
      rw [hbraces]
      exact Nat.le_refl 1

theorem State.Tidy.length_chain_foldl {s : State} (h : s.Tidy) (tokens : List Placed) :
    (tokens.foldl State.step s).chain.length ≤ s.chain.length + bracedHeaders s tokens := by
  induction tokens generalizing s with
  | nil => exact Nat.le_refl _
  | cons placed tokens ih =>
    have hrest := ih (h.step placed)
    have hstep := h.length_chain_step placed
    rw [List.foldl_cons, bracedHeaders]
    omega

end Resolver

theorem shaped_of_mem_codeOfLines {inComment : Bool} {lines : List Line} {placed : Placed}
    (h : placed ∈ codeOfLines inComment lines) : placed.token.Shaped := by
  induction lines generalizing inComment with
  | nil => simp [codeOfLines] at h
  | cons line lines ih =>
    rcases List.mem_append.mp h with h | h
    · obtain ⟨token, htoken, rfl⟩ := List.mem_map.mp h
      have hmem := mem_of_mem_dropComments htoken
      rw [Line.tokens] at hmem
      split at hmem
      · exact shaped_tokenize inComment _ token hmem
      · rcases List.mem_append.mp hmem with hmem | hmem
        · exact shaped_tokenize inComment _ token hmem
        · rw [List.mem_singleton.mp hmem]
          rfl
    · exact ih h

namespace Document

open Resolver

/-- The resolver's open scopes are a stack on every document. Every frame of the chain has a proper name, and there
are at most as many frames as headers that reach their brace. -/
theorem scopeContext_stacked (doc : Document) (i : Nat) :
    let tokens := withoutSpaces (codeOfLines false (doc.lines.take i))
    Stacked tokens ∧
      ((doc.resolver i).active = none → (doc.resolver i).saved = []) ∧
      (doc.resolver i).openScopes = (tokens.foldl State.step {}).openScopes ∧
      (∀ frame ∈ (doc.scopeContext i).chain, frame.name.IsScopeName) ∧
      (doc.scopeContext i).chain.length ≤ bracedHeaders {} tokens := by
  intro tokens
  have htidy : (tokens.foldl State.step {}).Tidy := tidy_start.foldl tokens
  obtain ⟨hscopes, hactive⟩ := htidy.finish (doc.lines.take i).length
  have hchain : (doc.scopeContext i).chain = (tokens.foldl State.step {}).chain := by
    rw [chain_eq, ← hscopes]
    rfl
  refine ⟨stacked tokens, hactive, hscopes, ?_, ?_⟩
  · intro frame hframe
    have hnamed : (tokens.foldl State.step {}).WellNamed := by
      apply wellNamed_start.foldl tidy_start
      intro placed hplaced
      exact shaped_of_mem_codeOfLines (List.mem_filter.mp hplaced).1
    rw [hchain, chain_eq] at hframe
    obtain ⟨scope, hmem, hscope⟩ := List.mem_filterMap.mp hframe
    cases scope with
    | anonymous => simp [OpenScope.frame?] at hscope
    | named other =>
      obtain rfl : other = frame := by simpa [OpenScope.frame?] using hscope
      exact hnamed.scopes other hmem
  · rw [hchain]
    have hlength := tidy_start.length_chain_foldl tokens
    rwa [show State.chain {} = [] from rfl, List.length_nil, Nat.zero_add] at hlength

/-- A linkage block, a scope with a path, a header that is rejected, one of a function, and a class. -/
def mixedHeaders : Document where
  text := "extern \"C\" \x7b\nnamespace a::b \x7b\nclass Bar;\n".toList ++
    "struct tm *make() const \x7b return 0; \x7d\nclass Foo final : public Base<int> \x7b\n".toList

theorem scopeContext_mixedHeaders :
    (mixedHeaders.scopeContext 5).chain = [⟨.namespaceScope, "a::b".toList⟩, ⟨.classScope, "Foo".toList⟩] ∧
      Text.IsScopeName "a::b".toList ∧ (mixedHeaders.scopeContext 5).chain.length ≤ 3 := by
  have hchain : (mixedHeaders.scopeContext 5).chain =
      [⟨.namespaceScope, "a::b".toList⟩, ⟨.classScope, "Foo".toList⟩] := by decide +kernel
  have hbraced : bracedHeaders {} (withoutSpaces (codeOfLines false (mixedHeaders.lines.take 5))) = 3 := by
    decide +kernel
  obtain ⟨-, -, -, hnames, hlength⟩ := scopeContext_stacked mixedHeaders 5
  refine ⟨hchain, hnames ⟨.namespaceScope, "a::b".toList⟩ ?_, hlength.trans_eq hbraced⟩
  rw [hchain]
  exact List.mem_cons_self

end Document
end OutOfLine

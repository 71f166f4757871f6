import OutOfLine.Proofs.ScopeGrammar
import Mathlib.Data.List.Induction

/-!
# The scopes around a line

On a well-formed document the resolver finds, for every line, the named scopes whose braces are open
above it, and whether a block of code is open there.
-/

namespace OutOfLine

namespace Resolver

/-- The named scopes of a stack, innermost first, as a chain. -/
def chainOf (stack : List OpenScope) : Chain := stack.reverse.filterMap OpenScope.frame?

/-- Between two tokens outside headers and blocks. -/
structure AtItem (s : State) (stack : List OpenScope) : Prop where
  mode_eq : s.mode = .items
  active_eq : s.active = stack.head?
  saved_eq : s.saved = stack.tail

/-- Where an item may start. -/
structure Ready (s : State) (stack : List OpenScope) : Prop extends AtItem s stack where
  previous_ne : s.previous ≠ some (.word "using".toList)
  previous_plain : s.previous.any Token.isLiteral = false

/-- In a header, with the scopes around it saved. -/
structure InHeader (s : State) (stack : List OpenScope) (kind : ScopeKind) (st : Header.State) :
    Prop where
  mode_eq : s.mode = .header kind st
  active_eq : s.active = none
  saved_eq : s.saved = stack
  previous_ne : s.previous ≠ some (.word "using".toList)
  previous_plain : s.previous.any Token.isLiteral = false

/-- What the resolver answers when it stops. -/
def Answers (s : State) (chain : Chain) (inBlock : Bool) : Prop :=
  ∀ line, (s.finish line).chain = chain ∧ (s.finish line).inBlock = inBlock

theorem head?_toList_append_tail (stack : List OpenScope) : stack.head?.toList ++ stack.tail = stack := by
  cases stack <;> rfl

/-- Outside headers the resolver answers with the scopes it holds. -/
theorem answers_of_stack {s : State} {stack : List OpenScope} (hfinish : ∀ line, s.finish line = s)
    (hactive : s.active = stack.head?) (hsaved : s.saved = stack.tail) :
    Answers s (chainOf stack) s.inBlock := by
  intro line
  rw [hfinish, State.chain, hactive, hsaved, head?_toList_append_tail, chainOf]
  exact ⟨rfl, rfl⟩

theorem AtItem.answers {s : State} {stack : List OpenScope} (h : AtItem s stack) :
    Answers s (chainOf stack) false := by
  have hblock : s.inBlock = false := by simp [State.inBlock, h.mode_eq]
  exact hblock ▸ answers_of_stack (fun line => by simp [State.finish, h.mode_eq]) h.active_eq h.saved_eq

theorem atItem_reject {s : State} {stack : List OpenScope} {kind : ScopeKind} {st : Header.State}
    (h : InHeader s stack kind st) (line : Nat) :
    Ready { s.reject kind line with mode := .items } stack := by
  refine ⟨⟨rfl, ?_, ?_⟩, h.previous_ne, h.previous_plain⟩
  · simp [State.reject, State.restore, h.saved_eq]
  · simp [State.reject, State.restore, h.saved_eq]

theorem InHeader.answers {s : State} {stack : List OpenScope} {kind : ScopeKind} {st : Header.State}
    (h : InHeader s stack kind st) : Answers s (chainOf stack) false := by
  intro line
  have hfinish : s.finish line = s.reject kind line := by simp [State.finish, h.mode_eq]
  rw [hfinish]
  constructor
  · rw [State.chain, chainOf]
    simp [State.reject, State.restore, h.saved_eq, head?_toList_append_tail]
  · simp [State.inBlock, State.reject, State.restore, h.mode_eq]

theorem introducedBy_of_not_keyword {previous : Option Token} {t : Token}
    (h : Grammar.isKeyword t = false) : ScopeKind.introducedBy previous t = none := by
  unfold ScopeKind.introducedBy
  split
  · rfl
  · split
    · simpa [Grammar.isKeyword] using h
    · rfl

theorem eq_keyword_of_introducedBy {previous : Option Token} {t : Token} {kind : ScopeKind}
    (h : ScopeKind.introducedBy previous t = some kind) : t = .word kind.keyword := by
  unfold ScopeKind.introducedBy at h
  split at h
  · simp at h
  · split at h
    · next text =>
      rw [show kind.keyword = text by simpa using List.find?_some h]
    · simp at h

/-- A token that opens and closes nothing. -/
theorem atItem_step {s : State} {stack : List OpenScope} {placed : Placed} (h : AtItem s stack)
    (hkey : ScopeKind.introducedBy s.previous placed.token = none)
    (ht : Grammar.isPunctuation placed.token = false ∨ placed.token = .delimiter ';') :
    AtItem (s.step placed) stack ∧ (s.step placed).previous = some placed.token := by
  have hopen : placed.token ≠ .delimiter '{' := by
    rintro heq
    simp [heq, Grammar.isPunctuation] at ht
  have hclose : placed.token ≠ .delimiter '}' := by
    rintro heq
    simp [heq, Grammar.isPunctuation] at ht
  simp only [State.step, h.mode_eq, State.item, hkey, if_neg hopen, if_neg hclose]
  exact ⟨⟨rfl, h.active_eq, h.saved_eq⟩, trivial⟩

theorem inHeader_of_keyword {s : State} {stack : List OpenScope} {placed : Placed} {kind : ScopeKind}
    (h : AtItem s stack) (hkey : ScopeKind.introducedBy s.previous placed.token = some kind) :
    InHeader (s.step placed) stack kind Header.start := by
  have hword := eq_keyword_of_introducedBy hkey
  have hstep : s.step placed = { s with
      saved := stack
      active := none
      previous := some (.word kind.keyword)
      mode := .header kind Header.start } := by
    rw [hword] at hkey
    simp only [State.step, h.mode_eq, State.item, hword, hkey, State.save, h.active_eq, h.saved_eq,
      head?_toList_append_tail]
  have husing : kind.keyword ≠ "using".toList := by cases kind <;> decide
  rw [hstep]
  exact ⟨rfl, rfl, rfl, by simpa using husing, rfl⟩

theorem inHeader_step {s : State} {stack : List OpenScope} {placed : Placed} {kind : ScopeKind}
    {st st' : Header.State} (h : InHeader s stack kind st) (hst : st.step placed.token = .inl st') :
    InHeader (s.step placed) stack kind st' := by
  simp only [State.step, h.mode_eq, hst]
  exact ⟨rfl, h.active_eq, h.saved_eq, h.previous_ne, h.previous_plain⟩

theorem ready_of_rejected {s : State} {stack : List OpenScope} {placed : Placed} {kind : ScopeKind}
    {st : Header.State} (h : InHeader s stack kind st) (hst : st.step placed.token = .inr .rejected) :
    Ready (s.step placed) stack := by
  simp only [State.step, h.mode_eq, hst, State.decide]
  exact atItem_reject h _

theorem inHeader_foldl {s : State} {stack : List OpenScope} {kind : ScopeKind} {st st' : Header.State}
    {tokens : List Placed} (h : InHeader s stack kind st)
    (hst : Header.reads st (tokens.map Placed.token) = some st') :
    InHeader (tokens.foldl State.step s) stack kind st' := by
  induction tokens generalizing s st with
  | nil =>
    obtain rfl := Option.some.inj hst
    exact h
  | cons placed tokens ih =>
    simp only [Header.reads, List.map_cons, List.foldlM_cons, Option.bind_eq_bind,
      Option.bind_eq_some_iff] at hst
    obtain ⟨next, hnext, hst⟩ := hst
    exact ih (inHeader_step h (Sum.getLeft?_eq_some_iff.mp hnext)) hst

/-- Whether a brace is open where reading stops: `keep` holds of the tokens read. -/
def isOpen (keep : Placed → Bool) (span : Span) : Bool := keep span.opening && !keep span.closing

def openFrames (keep : Placed → Bool) (spans : List Span) : Chain :=
  (spans.filter (isOpen keep)).filterMap Span.frame?

def openBlock (keep : Placed → Bool) (spans : List Span) : Bool :=
  (spans.filter (isOpen keep)).any fun span => span.frame?.isNone

/-- Tokens that leave the open scopes as they were, and that the resolver is right about wherever it
stops among them. -/
structure Resolves (tokens : List Placed) (spans : List Span) : Prop where
  ready : ∀ {s stack}, Ready s stack → Ready (tokens.foldl State.step s) stack
  answers : ∀ {s stack} {keep : Placed → Bool} {read rest : List Placed}, Ready s stack →
    tokens = read ++ rest → (∀ p ∈ read, keep p) → (∀ p ∈ rest, keep p = false) →
    Answers (read.foldl State.step s) (chainOf stack ++ openFrames keep spans) (openBlock keep spans)
  opening_mem : ∀ span ∈ spans, span.opening ∈ tokens
  closing_mem : ∀ span ∈ spans, span.closing ∈ tokens

theorem filter_isOpen_of_opening {keep : Placed → Bool} {spans : List Span}
    (h : ∀ span ∈ spans, keep span.opening = false) : spans.filter (isOpen keep) = [] :=
  List.filter_eq_nil_iff.mpr fun span hspan => by simp [isOpen, h span hspan]

theorem filter_isOpen_of_closing {keep : Placed → Bool} {spans : List Span}
    (h : ∀ span ∈ spans, keep span.closing) : spans.filter (isOpen keep) = [] :=
  List.filter_eq_nil_iff.mpr fun span hspan => by simp [isOpen, h span hspan]

/-- Tokens without spans, among which the resolver always answers the same. -/
theorem resolves_of_quiet {tokens : List Placed}
    (hready : ∀ {s stack}, Ready s stack → Ready (tokens.foldl State.step s) stack)
    (hanswers : ∀ {s stack read rest}, Ready s stack → tokens = read ++ rest →
      Answers (read.foldl State.step s) (chainOf stack) false) : Resolves tokens [] := by
  refine ⟨hready, ?_, by simp, by simp⟩
  intro s stack keep read rest hs htokens _ _
  have h := hanswers hs htokens
  rwa [openFrames, openBlock, List.filter_nil, List.filterMap_nil, List.append_nil, List.any_nil]

theorem resolves_nil : Resolves [] [] := by
  refine resolves_of_quiet (fun h => h) ?_
  intro s stack read rest hs hnil
  obtain ⟨rfl, -⟩ := List.append_eq_nil_iff.mp hnil.symm
  exact hs.answers

theorem Resolves.append {ts us : List Placed} {spans more : List Span} (h : Resolves ts spans)
    (h' : Resolves us more) : Resolves (ts ++ us) (spans ++ more) := by
  refine ⟨?_, ?_, ?_, ?_⟩
  · intro s stack hs
    rw [List.foldl_append]
    exact h'.ready (h.ready hs)
  · intro s stack keep read rest hs htokens hread hrest
    rw [openFrames, openBlock, List.filter_append]
    rcases List.append_eq_append_iff.mp htokens with ⟨between, rfl, rfl⟩ | ⟨between, rfl, rfl⟩
    · have hclosed : spans.filter (isOpen keep) = [] := filter_isOpen_of_closing fun span hspan =>
        hread _ (List.mem_append_left _ (h.closing_mem span hspan))
      rw [hclosed, List.nil_append, List.foldl_append]
      exact h'.answers (h.ready hs) rfl (fun p hp => hread p (List.mem_append_right _ hp)) hrest
    · have hclosed : more.filter (isOpen keep) = [] := filter_isOpen_of_opening fun span hspan =>
        hrest _ (List.mem_append_right _ (h'.opening_mem span hspan))
      rw [hclosed, List.append_nil]
      exact h.answers hs rfl hread fun p hp => hrest p (List.mem_append_left _ hp)
  · intro span hspan
    rcases List.mem_append.mp hspan with hspan | hspan
    · exact List.mem_append_left _ (h.opening_mem span hspan)
    · exact List.mem_append_right _ (h'.opening_mem span hspan)
  · intro span hspan
    rcases List.mem_append.mp hspan with hspan | hspan
    · exact List.mem_append_left _ (h.closing_mem span hspan)
    · exact List.mem_append_right _ (h'.closing_mem span hspan)

/-- The span of a scope that has a name. -/
def ownSpan (scope : OpenScope) (opening closing : Placed) : List Span :=
  scope.frame?.toList.map (⟨some ·, opening, closing⟩)

theorem chainOf_cons (scope : OpenScope) (stack : List OpenScope) :
    chainOf (scope :: stack) = chainOf stack ++ scope.frame?.toList := by
  cases h : scope.frame? <;> simp [chainOf, h]

theorem filterMap_ownSpan (scope : OpenScope) (opening closing : Placed) :
    (ownSpan scope opening closing).filterMap Span.frame? = scope.frame?.toList := by
  cases h : scope.frame? <;> simp [ownSpan, h]

theorem any_ownSpan (scope : OpenScope) (opening closing : Placed) :
    ((ownSpan scope opening closing).any fun span => span.frame?.isNone) = false := by
  cases h : scope.frame? <;> simp [ownSpan, h]

/-- Reading stops before the brace, between the braces, or after them. -/
theorem cut_cases {head inner read rest : List Placed} {opening closing : Placed}
    (h : head ++ [opening] ++ inner ++ [closing] = read ++ rest) :
    (∃ between, head = read ++ between ∧ rest = between ++ [opening] ++ inner ++ [closing]) ∨
    (∃ before after, inner = before ++ after ∧ read = head ++ [opening] ++ before ∧
      rest = after ++ [closing]) ∨
    (read = head ++ [opening] ++ inner ++ [closing] ∧ rest = []) := by
  rcases List.append_eq_append_iff.mp h with ⟨more, rfl, hmore⟩ | ⟨after, hfront, rfl⟩
  · cases more with
    | nil => exact .inr (.inl ⟨inner, [], by simp, by simp, by simpa using hmore.symm⟩)
    | cons p more =>
      obtain ⟨rfl, hnil⟩ := List.cons.inj hmore
      obtain ⟨rfl, rfl⟩ := List.append_eq_nil_iff.mp hnil.symm
      exact .inr (.inr ⟨rfl, rfl⟩)
  · rcases List.append_eq_append_iff.mp hfront with ⟨before, rfl, hinner⟩ | ⟨between, hhead, rfl⟩
    · exact .inr (.inl ⟨before, after, hinner, rfl, rfl⟩)
    · rcases List.append_eq_append_iff.mp hhead with ⟨more, rfl, hmore⟩ | ⟨between, rfl, rfl⟩
      · cases more with
        | nil =>
          obtain rfl : between = [opening] := by simpa using hmore.symm
          exact .inl ⟨[], by simp, by simp⟩
        | cons p more =>
          obtain ⟨rfl, hnil⟩ := List.cons.inj hmore
          obtain ⟨rfl, rfl⟩ := List.append_eq_nil_iff.mp hnil.symm
          exact .inr (.inl ⟨[], inner, rfl, by simp, by simp⟩)
      · exact .inl ⟨between, rfl, rfl⟩

theorem ready_of_close {s : State} {scope : OpenScope} {stack : List OpenScope} {closing : Placed}
    (h : Ready s (scope :: stack)) (hclose : closing.token = .delimiter '}') :
    Ready (s.step closing) stack := by
  have hstep : s.step closing = { s with
      active := stack.head?
      saved := stack.tail
      previous := some (.delimiter '}') } := by
    have hkey : ScopeKind.introducedBy s.previous (.delimiter '}') = none :=
      introducedBy_of_not_keyword rfl
    simp only [State.step, h.mode_eq, State.item, hclose, hkey, State.restore, h.saved_eq,
      List.tail_cons, if_true]
  rw [hstep]
  exact ⟨⟨h.mode_eq, rfl, rfl⟩, by simp, rfl⟩

/-- Items between the braces of a scope. -/
theorem resolves_scope {scope : OpenScope} {head inner : List Placed} {opening closing : Placed}
    {spans : List Span}
    (hopen : ∀ {s stack}, Ready s stack → Ready ((head ++ [opening]).foldl State.step s) (scope :: stack))
    (hhead : ∀ {s stack read rest}, Ready s stack → head = read ++ rest →
      Answers (read.foldl State.step s) (chainOf stack) false)
    (hinner : Resolves inner spans) (hclose : closing.token = .delimiter '}') :
    Resolves (head ++ [opening] ++ inner ++ [closing]) (ownSpan scope opening closing ++ spans) := by
  have hself (span : Span) (h : span ∈ ownSpan scope opening closing) :
      span.opening = opening ∧ span.closing = closing := by
    obtain ⟨_, _, rfl⟩ := List.mem_map.mp h
    exact ⟨rfl, rfl⟩
  have hready {s : State} {stack : List OpenScope} (hs : Ready s stack) :
      Ready ((head ++ [opening] ++ inner ++ [closing]).foldl State.step s) stack := by
    rw [List.foldl_append, List.foldl_append]
    exact ready_of_close (hinner.ready (hopen hs)) hclose
  refine ⟨hready, ?_, ?_, ?_⟩
  · intro s stack keep read rest hs htokens hread hrest
    rw [openFrames, openBlock, List.filter_append]
    rcases cut_cases htokens with ⟨between, hsplit, rfl⟩ | ⟨before, after, rfl, rfl, rfl⟩ | ⟨rfl, rfl⟩
    · -- What is read ends in the head: the scope and all within it are still to come.
      have hown : (ownSpan scope opening closing).filter (isOpen keep) = [] :=
        filter_isOpen_of_opening fun span hspan => by
          rw [(hself span hspan).1]
          exact hrest _ (by simp)
      have hspans : spans.filter (isOpen keep) = [] :=
        filter_isOpen_of_opening fun span hspan =>
          hrest _ (by simp [hinner.opening_mem span hspan])
      rw [hown, hspans]
      simpa using hhead hs hsplit
    · -- It ends between the braces: the scope is open, and the items answer for the scopes within.
      have hown : (ownSpan scope opening closing).filter (isOpen keep) =
          ownSpan scope opening closing :=
        List.filter_eq_self.mpr fun span hspan => by
          rw [isOpen, (hself span hspan).1, (hself span hspan).2, hread _ (by simp),
            hrest _ (by simp)]
          rfl
      have hanswers := hinner.answers (hopen hs) rfl (fun p hp => hread p (by simp [hp]))
        (fun p hp => hrest p (by simp [hp]))
      rw [hown, List.filterMap_append, List.any_append, List.foldl_append, filterMap_ownSpan,
        any_ownSpan, ← List.append_assoc, ← chainOf_cons]
      exact hanswers
    · -- All of it is read, so everything is closed again.
      have hown : (ownSpan scope opening closing).filter (isOpen keep) = [] :=
        filter_isOpen_of_closing fun span hspan => by
          rw [(hself span hspan).2]
          exact hread _ (by simp)
      have hspans : spans.filter (isOpen keep) = [] :=
        filter_isOpen_of_closing fun span hspan =>
          hread _ (by simp [hinner.closing_mem span hspan])
      rw [hown, hspans]
      simpa using (hready hs).answers
  · intro span hspan
    rcases List.mem_append.mp hspan with hspan | hspan
    · simp [(hself span hspan).1]
    · simp [hinner.opening_mem span hspan]
  · intro span hspan
    rcases List.mem_append.mp hspan with hspan | hspan
    · simp [(hself span hspan).2]
    · simp [hinner.closing_mem span hspan]

/-- In the middle of a statement, whose brackets to be closed are known. -/
def InStatement (s : State) (stack : List OpenScope) (nest : List Char) : Prop :=
  AtItem s stack ∨ ∃ kind st, InHeader s stack kind st ∧ Header.Nested nest st

theorem InStatement.answers {s : State} {stack : List OpenScope} {nest : List Char}
    (h : InStatement s stack nest) : Answers s (chainOf stack) false := by
  rcases h with h | ⟨_, _, h, -⟩
  · exact h.answers
  · exact h.answers

theorem inStatement_step {s : State} {stack : List OpenScope} {nest nest' : List Char} {placed : Placed}
    (h : InStatement s stack nest) (ht : Grammar.isPunctuation placed.token = false)
    (hnest : Grammar.nestStep nest placed.token = some nest') :
    InStatement (s.step placed) stack nest' := by
  rcases h with h | ⟨kind, st, h, hst⟩
  · cases hkey : ScopeKind.introducedBy s.previous placed.token with
    | none => exact .inl (atItem_step h hkey (.inl ht)).1
    | some kind => exact .inr ⟨kind, _, inHeader_of_keyword h hkey, [], nest', rfl, rfl, rfl⟩
  · rcases Header.nested_step hst ht hnest with ⟨st', hnext, hst'⟩ | hrejected
    · exact .inr ⟨kind, st', inHeader_step h hnext, hst'⟩
    · exact .inl (ready_of_rejected h hrejected).toAtItem

theorem inStatement_foldl {s : State} {stack : List OpenScope} {nest nest' : List Char}
    {tokens : List Placed} (h : InStatement s stack nest)
    (ht : ∀ t ∈ tokens.map Placed.token, Grammar.isPunctuation t = false)
    (hnest : (tokens.map Placed.token).foldlM Grammar.nestStep nest = some nest') :
    InStatement (tokens.foldl State.step s) stack nest' := by
  induction tokens generalizing s nest with
  | nil =>
    obtain rfl := Option.some.inj hnest
    exact h
  | cons placed tokens ih =>
    simp only [List.map_cons, List.foldlM_cons, Option.bind_eq_bind, Option.bind_eq_some_iff] at hnest
    obtain ⟨next, hnext, hrest⟩ := hnest
    rw [List.map_cons, List.forall_mem_cons] at ht
    exact ih (inStatement_step h ht.1 hnext) ht.2 hrest

theorem atItem_foldl {s : State} {stack : List OpenScope} {tokens : List Placed} (h : AtItem s stack)
    (ht : ∀ t ∈ tokens.map Placed.token, Grammar.isPunctuation t = false)
    (hkey : ∀ t ∈ tokens.map Placed.token, Grammar.isKeyword t = false) :
    AtItem (tokens.foldl State.step s) stack ∧
      (tokens.foldl State.step s).previous = (tokens.getLast?.map Placed.token).or s.previous := by
  induction tokens using List.reverseRecOn with
  | nil => exact ⟨h, rfl⟩
  | append_singleton tokens placed ih =>
    simp only [List.map_append, List.mem_append] at ht hkey
    have hs := ih (fun t hm => ht t (.inl hm)) (fun t hm => hkey t (.inl hm))
    rw [List.foldl_append]
    have hstep := atItem_step hs.1
      (introducedBy_of_not_keyword (hkey placed.token (.inr (by simp))))
      (.inl (ht placed.token (.inr (by simp))))
    exact ⟨hstep.1, by simpa using hstep.2⟩

/-- Wherever reading stops in a statement, it is in the middle of it, and its semicolon ends it. -/
theorem inStatement_of_head {s : State} {stack : List OpenScope} {read rest : List Placed}
    (hs : AtItem s stack) (h : Grammar.StatementHead ((read ++ rest).map Placed.token)) :
    ∃ nest, InStatement (read.foldl State.step s) stack nest ∧ (rest = [] → nest = []) := by
  have hplain (t : Token) (hm : t ∈ read.map Placed.token) : Grammar.isPunctuation t = false :=
    h.plain t (by rw [List.map_append]; exact List.mem_append_left _ hm)
  rcases h.nested with hkey | hnest
  · refine ⟨[], .inl (atItem_foldl hs hplain fun t hm => hkey t ?_).1, fun _ => rfl⟩
    rw [List.map_append]
    exact List.mem_append_left _ hm
  · simp only [Grammar.wellNested, List.map_append, List.foldlM_append, Option.bind_eq_bind,
      decide_eq_true_eq, Option.bind_eq_some_iff] at hnest
    obtain ⟨nest, hread, hrest⟩ := hnest
    refine ⟨nest, inStatement_foldl (.inl hs) hplain hread, ?_⟩
    rintro rfl
    exact Option.some.inj hrest

theorem ready_of_semicolon {s : State} {stack : List OpenScope} {semicolon : Placed}
    (h : InStatement s stack []) (hsemi : semicolon.token = .delimiter ';') :
    Ready (s.step semicolon) stack := by
  rcases h with h | ⟨kind, st, h, hst⟩
  · have hkey : ScopeKind.introducedBy s.previous semicolon.token = none := by
      rw [hsemi]
      exact introducedBy_of_not_keyword rfl
    obtain ⟨hitem, hprevious⟩ := atItem_step h hkey (.inr hsemi)
    exact ⟨hitem, by simp [hprevious, hsemi], by simp [hprevious, hsemi, Token.isLiteral]⟩
  · exact ready_of_rejected h (by rw [hsemi]; exact Header.step_semicolon hst)

theorem resolves_statement {tokens : List Placed} {semicolon : Placed}
    (h : Grammar.StatementHead (tokens.map Placed.token)) (hsemi : semicolon.token = .delimiter ';') :
    Resolves (tokens ++ [semicolon]) [] := by
  have hall : Grammar.StatementHead ((tokens ++ []).map Placed.token) := by rwa [List.append_nil]
  have hready {s : State} {stack : List OpenScope} (hs : Ready s stack) :
      Ready ((tokens ++ [semicolon]).foldl State.step s) stack := by
    obtain ⟨nest, hin, hnil⟩ := inStatement_of_head hs.toAtItem hall
    rw [List.foldl_append]
    exact ready_of_semicolon (hnil rfl ▸ hin) hsemi
  refine resolves_of_quiet hready ?_
  intro s stack read rest hs hsplit
  rcases List.append_eq_append_iff.mp hsplit with ⟨more, rfl, hmore⟩ | ⟨between, rfl, -⟩
  · cases more with
    | nil =>
      obtain ⟨nest, hin, -⟩ := inStatement_of_head hs.toAtItem hall
      rw [List.append_nil]
      exact hin.answers
    | cons p more =>
      obtain ⟨rfl, hnil⟩ := List.cons.inj hmore
      obtain ⟨rfl, -⟩ := List.append_eq_nil_iff.mp hnil.symm
      exact (hready hs).answers
  · obtain ⟨nest, hin, -⟩ := inStatement_of_head hs.toAtItem h
    exact hin.answers

/-- In a block of code, so many braces deep. -/
structure InBlock (s : State) (stack : List OpenScope) (depth : Nat) : Prop where
  mode_eq : s.mode = .block depth
  active_eq : s.active = stack.head?
  saved_eq : s.saved = stack.tail
  previous_eq : s.previous = some (.delimiter '{')

theorem InBlock.answers {s : State} {stack : List OpenScope} {depth : Nat} (h : InBlock s stack depth) :
    Answers s (chainOf stack) true := by
  have hblock : s.inBlock = true := by simp [State.inBlock, h.mode_eq]
  exact hblock ▸ answers_of_stack (fun line => by simp [State.finish, h.mode_eq]) h.active_eq h.saved_eq

/-- In a block the braces are counted, and all else stays as it is. -/
theorem counts_block (s : State) :
    Brackets.Counts '{' '}' State.step Placed.token fun depth t => t = { s with mode := .block depth } where
  opened := by
    rintro depth _ placed rfl hopen
    simp [State.step, hopen]
  closed := by
    rintro depth _ placed rfl hclose hdepth
    simp [State.step, hclose, hdepth]
  other := by
    rintro depth _ placed rfl hopen hclose
    simp [State.step, hopen, hclose]

theorem block_foldl {s : State} {depth depth' : Nat} {tokens : List Placed} (hs : s.mode = .block depth)
    (h : Brackets.after '{' '}' depth (tokens.map Placed.token) = some depth') :
    tokens.foldl State.step s = { s with mode := .block depth' } := by
  have hsame : s = { s with mode := .block depth } := by rw [← hs]
  exact (counts_block s).foldl hsame h

theorem inBlock_foldl {s : State} {stack : List OpenScope} {depth depth' : Nat} {tokens : List Placed}
    (h : InBlock s stack depth) (ht : Brackets.after '{' '}' depth (tokens.map Placed.token) = some depth') :
    InBlock (tokens.foldl State.step s) stack depth' := by
  rw [block_foldl h.mode_eq ht]
  exact ⟨rfl, h.active_eq, h.saved_eq, h.previous_eq⟩

theorem inBlock_of_head {s : State} {stack : List OpenScope} {head : List Placed} {opening : Placed}
    (hs : Ready s stack) (h : Grammar.BlockHead (head.map Placed.token))
    (hopen : opening.token = .delimiter '{') :
    InBlock ((head ++ [opening]).foldl State.step s) stack 1 := by
  obtain ⟨hitem, hprevious⟩ := atItem_foldl hs.toAtItem h.plain h.no_keyword
  have hliteral : (head.foldl State.step s).previous.any Token.isLiteral = false := by
    have hlast := h.last_plain
    rw [List.getLast?_map] at hlast
    rw [hprevious]
    cases hl : head.getLast? with
    | none => simpa [hl] using hs.previous_plain
    | some placed => simpa [hl] using hlast
  rw [List.foldl_append, List.foldl_cons, List.foldl_nil]
  generalize head.foldl State.step s = t at hitem hliteral
  have hkey : ScopeKind.introducedBy t.previous (.delimiter '{') = none :=
    introducedBy_of_not_keyword rfl
  have hstep : t.step opening = { t with previous := some (.delimiter '{'), mode := .block 1 } := by
    simp [State.step, hitem.mode_eq, State.item, hopen, hkey, hliteral]
  rw [hstep]
  exact ⟨rfl, hitem.active_eq, hitem.saved_eq, rfl⟩

theorem resolves_block {head inner : List Placed} {opening closing : Placed}
    (h : Grammar.BlockHead (head.map Placed.token)) (hopen : opening.token = .delimiter '{')
    (hinner : Brackets.after '{' '}' 1 (inner.map Placed.token) = some 1)
    (hclose : closing.token = .delimiter '}') :
    Resolves (head ++ [opening] ++ inner ++ [closing]) [⟨none, opening, closing⟩] := by
  have hready {s : State} {stack : List OpenScope} (hs : Ready s stack) :
      Ready ((head ++ [opening] ++ inner ++ [closing]).foldl State.step s) stack := by
    rw [List.foldl_append, List.foldl_append]
    have hblock := inBlock_foldl (inBlock_of_head hs h hopen) hinner
    generalize inner.foldl State.step ((head ++ [opening]).foldl State.step s) = t at hblock
    have hstep : t.step closing = { t with mode := .items } := by
      simp [State.step, hblock.mode_eq, hclose]
    rw [List.foldl_cons, List.foldl_nil, hstep]
    exact ⟨⟨rfl, hblock.active_eq, hblock.saved_eq⟩, by simp [hblock.previous_eq],
      by simp [hblock.previous_eq, Token.isLiteral]⟩
  refine ⟨hready, ?_, by simp, by simp⟩
  intro s stack keep read rest hs htokens hread hrest
  rcases cut_cases htokens with ⟨between, hsplit, rfl⟩ | ⟨before, after, rfl, rfl, rfl⟩ | ⟨rfl, rfl⟩
  · have hkeep : keep opening = false := hrest _ (by simp)
    have hhead : AtItem (read.foldl State.step s) stack := by
      refine (atItem_foldl hs.toAtItem (fun t ht => h.plain t ?_) fun t ht => h.no_keyword t ?_).1
      · rw [hsplit, List.map_append]
        exact List.mem_append_left _ ht
      · rw [hsplit, List.map_append]
        exact List.mem_append_left _ ht
    simpa [openFrames, openBlock, isOpen, hkeep] using hhead.answers
  · have hkeep : keep opening ∧ keep closing = false := ⟨hread _ (by simp), hrest _ (by simp)⟩
    -- No front part of the block closes it, for the whole of it does not.
    obtain ⟨depth, hdepth⟩ : ∃ depth, Brackets.after '{' '}' 1 (before.map Placed.token) = some depth := by
      rw [List.map_append, Brackets.after_append] at hinner
      exact Option.isSome_iff_exists.mp (Option.isSome_of_isSome_bind (by rw [hinner]; rfl))
    have hblock := inBlock_foldl (inBlock_of_head hs h hopen) hdepth
    rw [← List.foldl_append] at hblock
    simpa [openFrames, openBlock, isOpen, hkeep] using hblock.answers
  · have hkeep : keep closing := hread _ (by simp)
    simpa [openFrames, openBlock, isOpen, hkeep] using (hready hs).answers

theorem introducedBy_keyword {previous : Option Token} (h : previous ≠ some (.word "using".toList))
    (kind : ScopeKind) : ScopeKind.introducedBy previous (.word kind.keyword) = some kind := by
  rw [ScopeKind.introducedBy, if_neg h]
  cases kind <;> decide

/-- The brace that ends the header of a scope opens it. -/
theorem ready_of_opened {s : State} {stack : List OpenScope} {kind : ScopeKind} {st : Header.State}
    {opening : Placed} {scope : OpenScope} {verdict : Header.Verdict} (h : InHeader s stack kind st)
    (hst : st.step opening.token = .inr verdict)
    (hscope : ∀ line, s.decide kind line verdict = { s.enter scope with mode := .items }) :
    Ready (s.step opening) (scope :: stack) := by
  have hstep : s.step opening = { s.enter scope with mode := .items } := by
    simp only [State.step, h.mode_eq, hst]
    exact hscope _
  rw [hstep]
  exact ⟨⟨rfl, rfl, h.saved_eq⟩, h.previous_ne, h.previous_plain⟩

/-- The header of a scope, read up to any place of it. -/
theorem inHeader_of_head {s : State} {stack : List OpenScope} {kind : ScopeKind} {st : Header.State}
    {keyword : Placed} {head : List Placed} (hs : Ready s stack) (hkeyword : keyword.token = .word kind.keyword)
    (hreads : Header.reads Header.start (head.map Placed.token) = some st) :
    InHeader ((keyword :: head).foldl State.step s) stack kind st := by
  have hheader : InHeader (s.step keyword) stack kind Header.start := by
    refine inHeader_of_keyword hs.toAtItem ?_
    rw [hkeyword]
    exact introducedBy_keyword hs.previous_ne kind
  rw [List.foldl_cons]
  exact inHeader_foldl hheader hreads

/-- The header of a scope and its brace. -/
theorem ready_of_header {s : State} {stack : List OpenScope} {kind : ScopeKind} {st : Header.State}
    {scope : OpenScope} {verdict : Header.Verdict} {keyword opening : Placed} {head : List Placed}
    (hs : Ready s stack) (hkeyword : keyword.token = .word kind.keyword)
    (hreads : Header.reads Header.start (head.map Placed.token) = some st)
    (hopen : opening.token = .delimiter '{') (hst : st.step (.delimiter '{') = .inr verdict)
    (hscope : ∀ s line, State.decide s kind line verdict = { s.enter scope with mode := .items }) :
    Ready ((keyword :: head ++ [opening]).foldl State.step s) (scope :: stack) := by
  rw [List.foldl_append]
  exact ready_of_opened (inHeader_of_head hs hkeyword hreads) (by rw [hopen]; exact hst) (hscope _)

/-- Items between the braces of a scope with a header. -/
theorem resolves_headed {kind : ScopeKind} {st : Header.State} {scope : OpenScope}
    {verdict : Header.Verdict} {keyword opening closing : Placed} {head inner : List Placed}
    {spans : List Span} (hkeyword : keyword.token = .word kind.keyword)
    (hreads : Header.reads Header.start (head.map Placed.token) = some st)
    (hopen : opening.token = .delimiter '{') (hst : st.step (.delimiter '{') = .inr verdict)
    (hscope : ∀ s line, State.decide s kind line verdict = { s.enter scope with mode := .items })
    (hinner : Resolves inner spans) (hclose : closing.token = .delimiter '}') :
    Resolves (keyword :: head ++ [opening] ++ inner ++ [closing])
      (ownSpan scope opening closing ++ spans) := by
  refine resolves_scope (fun hs => ready_of_header hs hkeyword hreads hopen hst hscope) ?_ hinner hclose
  intro s stack read rest hs hsplit
  cases read with
  | nil => exact hs.answers
  | cons p read =>
    rw [List.cons_append, List.cons.injEq] at hsplit
    obtain ⟨rfl, rfl⟩ := hsplit
    rw [List.map_append, Header.reads_append] at hreads
    obtain ⟨st', hst', -⟩ := Option.bind_eq_some_iff.mp hreads
    exact (inHeader_of_head hs hkeyword hst').answers

/-- The words of a linkage specification are no punctuation and no scope keyword. -/
theorem linkage_plain {keyword language : Placed} (hkeyword : keyword.token = .word "extern".toList)
    (hlanguage : language.token.isLiteral) (t : Token) (ht : t ∈ [keyword, language].map Placed.token) :
    Grammar.isPunctuation t = false ∧ Grammar.isKeyword t = false := by
  have hliteral : ∃ text, language.token = .literal text := by
    cases htoken : language.token with
    | literal text => exact ⟨text, rfl⟩
    | _ => simp [htoken, Token.isLiteral] at hlanguage
  obtain ⟨text, htext⟩ := hliteral
  simp only [List.map_cons, List.map_nil, List.mem_cons, List.not_mem_nil, or_false] at ht
  rcases ht with rfl | rfl
  · rw [hkeyword]
    decide
  · rw [htext]
    simp [Grammar.isPunctuation, Grammar.isKeyword]

/-- A linkage specification and its brace. -/
theorem ready_of_linkage {s : State} {stack : List OpenScope} {keyword language opening : Placed}
    (hs : Ready s stack) (hkeyword : keyword.token = .word "extern".toList)
    (hlanguage : language.token.isLiteral) (hopen : opening.token = .delimiter '{') :
    Ready (([keyword, language] ++ [opening]).foldl State.step s) (.anonymous :: stack) := by
  have hplain := linkage_plain hkeyword hlanguage
  obtain ⟨hitem, hprevious⟩ := atItem_foldl hs.toAtItem (fun t ht => (hplain t ht).1)
    fun t ht => (hplain t ht).2
  rw [List.foldl_append, List.foldl_cons, List.foldl_nil]
  generalize [keyword, language].foldl State.step s = t at hitem hprevious
  have hkey : ScopeKind.introducedBy t.previous (.delimiter '{') = none :=
    introducedBy_of_not_keyword rfl
  have hprev : t.previous.any Token.isLiteral := by simpa [hprevious] using hlanguage
  have hstep : t.step opening = { t with
      saved := stack
      active := some .anonymous
      previous := some (.delimiter '{') } := by
    simp [State.step, hitem.mode_eq, State.item, hopen, hkey, hprev, State.save, State.enter,
      hitem.active_eq, hitem.saved_eq, head?_toList_append_tail]
  rw [hstep]
  exact ⟨⟨hitem.mode_eq, rfl, rfl⟩, by simp, rfl⟩

/-- Items between the braces of a linkage specification. -/
theorem resolves_linkage {keyword language opening closing : Placed} {inner : List Placed}
    {spans : List Span} (hkeyword : keyword.token = .word "extern".toList)
    (hlanguage : language.token.isLiteral) (hopen : opening.token = .delimiter '{')
    (hinner : Resolves inner spans) (hclose : closing.token = .delimiter '}') :
    Resolves ([keyword, language] ++ [opening] ++ inner ++ [closing]) spans := by
  have hplain := linkage_plain hkeyword hlanguage
  change Resolves _ (ownSpan .anonymous opening closing ++ spans)
  refine resolves_scope (fun hs => ready_of_linkage hs hkeyword hlanguage hopen) ?_ hinner hclose
  intro s stack read rest hs hsplit
  refine (atItem_foldl hs.toAtItem (fun t ht => ?_) fun t ht => ?_).1.answers
  · exact (hplain t (by rw [hsplit, List.map_append]; exact List.mem_append_left _ ht)).1
  · exact (hplain t (by rw [hsplit, List.map_append]; exact List.mem_append_left _ ht)).2

theorem resolves_ending {kind : ScopeKind} {ending : List Placed}
    (h : ending.map Placed.token = if kind.needsTerminator then [.delimiter ';'] else []) :
    Resolves ending [] := by
  split at h
  · obtain ⟨semicolon, rest, rfl, hsemi, hrest⟩ := List.map_eq_cons_iff.mp h
    obtain rfl := List.map_eq_nil_iff.mp hrest
    change Resolves ([] ++ [semicolon]) []
    exact resolves_statement ⟨by simp, .inl (by simp)⟩ hsemi
  · rw [List.map_eq_nil_iff.mp h]
    exact resolves_nil

/-- The resolver is right on every sequence of items. -/
theorem resolves_items {tokens : List Placed} {spans : List Span} (h : Grammar.Items tokens spans) :
    Resolves tokens spans := by
  induction h with
  | nil => exact resolves_nil
  | @scope kind name head inner ending rest opening closing spans more hhead hopen _ hclose hending _
      hinner hrest =>
    obtain ⟨ts, st, hts, hreads, hst⟩ := Header.exists_reads_head hhead
    obtain ⟨keyword, head, rfl, hkeyword, rfl⟩ := List.map_eq_cons_iff.mp hts
    have hscope : Resolves _ (ownSpan (.named ⟨kind, name⟩) opening closing ++ spans) :=
      resolves_headed hkeyword hreads hopen hst (fun _ _ => rfl) hinner hclose
    simpa [ownSpan, OpenScope.frame?] using (hscope.append (resolves_ending hending)).append hrest
  | @unnamed keyword opening closing inner _ spans _ hkeyword hopen _ hclose _ hinner hrest =>
    have hnamespace : keyword.token = .word ScopeKind.namespaceScope.keyword := hkeyword
    have hscope : Resolves (keyword :: [] ++ [opening] ++ inner ++ [closing])
        (ownSpan .anonymous opening closing ++ spans) :=
      resolves_headed hnamespace rfl hopen rfl (fun _ _ => rfl) hinner hclose
    simpa [ownSpan, OpenScope.frame?] using hscope.append hrest
  | linkage hkeyword hlanguage hopen _ hclose _ hinner hrest =>
    simpa using (resolves_linkage hkeyword hlanguage hopen hinner hclose).append hrest
  | statement htokens hsemi _ hrest =>
    simpa using (resolves_statement htokens hsemi).append hrest
  | block hhead hopen hinner hclose _ hrest =>
    simpa using (resolves_block hhead hopen hinner hclose).append hrest

end Resolver

namespace Document

/-- For every line of a well-formed document, also in the middle of an item or past the end, the chain
is that of the named scopes whose brace opens on a line above it and closes on no line above it. The
line is in a block exactly when this holds of a block. -/
theorem scopeContext_of_items {doc : Document} {spans : List Span}
    (h : Grammar.Items (withoutSpaces (codeOfLines false doc.lines)) spans) (i : Nat) :
    (doc.scopeContext i).chain =
        (spans.filter fun span => span.opening.line.number ≤ i && i < span.closing.line.number).filterMap
          Span.frame? ∧
      (doc.scopeContext i).inBlock =
        (spans.filter fun span => span.opening.line.number ≤ i && i < span.closing.line.number).any
          fun span => span.frame?.isNone := by
  obtain ⟨inside, hcode⟩ := exists_codeOfLines_append false (doc.lines.take i) (doc.linesFrom i)
  have hsplit : withoutSpaces (codeOfLines false doc.lines) =
      withoutSpaces (codeOfLines false (doc.lines.take i)) ++
        withoutSpaces (codeOfLines inside (doc.linesFrom i)) := by
    rw [linesFrom, List.take_append_drop] at hcode
    rw [hcode, linesFrom, withoutSpaces, withoutSpaces, withoutSpaces, List.filter_append]
  have hread (p : Placed) (hp : p ∈ withoutSpaces (codeOfLines false (doc.lines.take i))) :
      decide (p.line.number ≤ i) = true := by
    have := number_of_mem_take (line_mem_of_mem_codeOfLines (List.mem_filter.mp hp).1)
    simpa using this
  have hrest (p : Placed) (hp : p ∈ withoutSpaces (codeOfLines inside (doc.linesFrom i))) :
      decide (p.line.number ≤ i) = false := by
    have := number_of_mem_linesFrom (line_mem_of_mem_codeOfLines (List.mem_filter.mp hp).1)
    simpa using this
  have hstart : Resolver.Ready {} [] := ⟨⟨rfl, rfl, rfl⟩, by simp, rfl⟩
  have hanswers := (Resolver.resolves_items h).answers hstart hsplit hread hrest
    (doc.lines.take i).length
  have hopen : (Resolver.isOpen fun p => decide (p.line.number ≤ i)) = fun span : Span =>
      span.opening.line.number ≤ i && i < span.closing.line.number := by
    funext span
    simp only [Resolver.isOpen, ← decide_not, Nat.not_le]
  rw [Resolver.openFrames, Resolver.openBlock, hopen] at hanswers
  exact hanswers

/-- The start of a method in a class in a namespace, and the ends of all three. -/
def nestedDocument : Document :=
  ⟨"namespace n \x7b\nclass A : B \x7b void f() \x7b\n\x7d \x7d; \x7d".toList⟩

def nestedLine : Nat → Line
  | 1 => ⟨1, 0, "namespace n \x7b".toList, .lf⟩
  | 2 => ⟨2, 14, "class A : B \x7b void f() \x7b".toList, .lf⟩
  | _ => ⟨3, 39, "\x7d \x7d; \x7d".toList, .none⟩

theorem scopeContext_nestedDocument :
    ∃ spans, Grammar.Items (withoutSpaces (codeOfLines false nestedDocument.lines)) spans ∧
      (nestedDocument.scopeContext 2).chain =
        [⟨.namespaceScope, "n".toList⟩, ⟨.classScope, "A".toList⟩] ∧
      (nestedDocument.scopeContext 2).inBlock := by
  have hmethod : Grammar.Items
      ([.word "void".toList, .word "f".toList, .delimiter '(', .delimiter ')'].map (⟨·, nestedLine 2⟩) ++
        ⟨.delimiter '{', nestedLine 2⟩ :: ([] ++ ⟨.delimiter '}', nestedLine 3⟩ :: []))
      [⟨none, ⟨.delimiter '{', nestedLine 2⟩, ⟨.delimiter '}', nestedLine 3⟩⟩] :=
    .block ⟨by decide, by decide, rfl⟩ rfl rfl rfl .nil
  have hclass : Grammar.Items
      ([.word "class".toList, .word "A".toList, .delimiter ':', .word "B".toList].map (⟨·, nestedLine 2⟩) ++
        ⟨.delimiter '{', nestedLine 2⟩ ::
          (_ ++ ⟨.delimiter '}', nestedLine 3⟩ :: ([⟨.delimiter ';', nestedLine 3⟩] ++ [])))
      (⟨some ⟨.classScope, "A".toList⟩, _, _⟩ :: (_ ++ [])) :=
    .scope (.intro (.word rfl) (.inl rfl) (.list (by simp) (by simp) (by simp) (by simp))) rfl hmethod
      rfl rfl .nil
  have hnamespace : Grammar.Items
      ([.word "namespace".toList, .word "n".toList].map (⟨·, nestedLine 1⟩) ++
        ⟨.delimiter '{', nestedLine 1⟩ :: (_ ++ ⟨.delimiter '}', nestedLine 3⟩ :: ([] ++ [])))
      (⟨some ⟨.namespaceScope, "n".toList⟩, _, _⟩ :: (_ ++ [])) :=
    .scope (.intro (.word rfl) (.inl rfl) .none) rfl hclass rfl rfl .nil
  have hdocument : Grammar.Items (withoutSpaces (codeOfLines false nestedDocument.lines)) _ :=
    Eq.mpr (congrArg (Grammar.Items · _) (by decide +kernel)) hnamespace
  have hcontext := scopeContext_of_items hdocument 2
  exact ⟨_, hdocument, hcontext.1.trans (by decide), hcontext.2.trans (by decide)⟩

end Document
end OutOfLine

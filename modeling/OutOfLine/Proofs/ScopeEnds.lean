import OutOfLine.Scope.Boundary
import OutOfLine.Proofs.ScopeChains

/-!
# Where the scopes of a document end

The locator reads the header of every scope of the kind it looks for and goes through all other tokens one
by one. On a well-formed document it therefore enters the first scope of that kind and name, and if it
enters one it also leaves it. It leaves it at its own closing brace unless a base list inside the scope
holds a closing brace, which is counted as if it closed a block.
-/

namespace OutOfLine

/-- A named scope of a document. -/
structure Extent where
  frame : Frame
  /-- The tokens of its base list, the colon included. -/
  bases : List Token
  /-- The tokens of the base lists of the scopes inside it. -/
  innerBases : List Token
  closing : Placed
  /-- The token that ends it: its closing brace, or the semicolon after that. -/
  ending : Placed

namespace Grammar

def isBrace (t : Token) : Bool := t == .delimiter '{' || t == .delimiter '}'

/-- What stands before the brace of a named scope, with its base list. No scope keyword follows the one
it starts with. -/
inductive PlainHead (kind : ScopeKind) (name : Text) : List Token → List Token → Prop
  | intro {path final bases : List Token} (hpath : Path path name)
    (hfinal : final = [] ∨ final = [.word "final".toList]) (hbases : Bases bases)
    (hkeyword : ∀ t ∈ path ++ bases, isKeyword t = false) :
    PlainHead kind name bases (.word kind.keyword :: (path ++ final ++ bases))

/-- The tokens of a sequence of items, and its named scopes in the order in which they open. -/
inductive Scopes : List Placed → List Extent → Prop
  | nil : Scopes [] []
  | scope {kind : ScopeKind} {name : Text} {bases : List Token} {head inner ending rest : List Placed}
    {opening closing : Placed} {extents more : List Extent}
    (hhead : PlainHead kind name bases (head.map Placed.token)) (hopen : opening.token = .delimiter '{')
    (hinner : Scopes inner extents) (hclose : closing.token = .delimiter '}')
    (hending : ending.map Placed.token = if kind.needsTerminator then [.delimiter ';'] else [])
    (hrest : Scopes rest more) :
    Scopes (head ++ opening :: (inner ++ closing :: (ending ++ rest)))
      (⟨⟨kind, name⟩, bases, extents.flatMap Extent.bases, closing, ending.headD closing⟩ ::
        (extents ++ more))
  | unnamed {keyword opening closing : Placed} {inner rest : List Placed} {extents more : List Extent}
    (hkeyword : keyword.token = .word "namespace".toList) (hopen : opening.token = .delimiter '{')
    (hinner : Scopes inner extents) (hclose : closing.token = .delimiter '}') (hrest : Scopes rest more) :
    Scopes (keyword :: opening :: (inner ++ closing :: rest)) (extents ++ more)
  | linkage {keyword language opening closing : Placed} {inner rest : List Placed}
    {extents more : List Extent} (hkeyword : keyword.token = .word "extern".toList)
    (hlanguage : language.token.isLiteral) (hopen : opening.token = .delimiter '{')
    (hinner : Scopes inner extents) (hclose : closing.token = .delimiter '}') (hrest : Scopes rest more) :
    Scopes (keyword :: language :: opening :: (inner ++ closing :: rest)) (extents ++ more)
  | statement {tokens rest : List Placed} {semicolon : Placed} {more : List Extent}
    (htokens : StatementHead (tokens.map Placed.token)) (hsemi : semicolon.token = .delimiter ';')
    (hrest : Scopes rest more) : Scopes (tokens ++ semicolon :: rest) more
  | block {head inner rest : List Placed} {opening closing : Placed} {more : List Extent}
    (hhead : ∀ t ∈ head.map Placed.token, isBrace t = false) (hopen : opening.token = .delimiter '{')
    (hinner : Brackets.after '{' '}' 1 (inner.map Placed.token) = some 1)
    (hkeyword : ∀ t ∈ (head ++ inner).map Placed.token, isKeyword t = false)
    (hclose : closing.token = .delimiter '}') (hrest : Scopes rest more) :
    Scopes (head ++ opening :: (inner ++ closing :: rest)) more

theorem PlainHead.toHead {kind : ScopeKind} {name : Text} {bases head : List Token}
    (h : PlainHead kind name bases head) : Head kind name head := by
  obtain ⟨hpath, hfinal, hbases, -⟩ := h
  exact .intro hpath hfinal hbases

theorem PlainHead.no_keyword {kind : ScopeKind} {name : Text} {bases head : List Token}
    (h : PlainHead kind name bases head) : ∀ t ∈ head.tail, isKeyword t = false := by
  obtain ⟨-, hfinal, -, hkeyword⟩ := h
  intro t ht
  rw [List.tail_cons, List.append_assoc, List.mem_append, List.mem_append] at ht
  rcases ht with ht | ht | ht
  · exact hkeyword t (List.mem_append_left _ ht)
  · rcases hfinal with rfl | rfl
    · simp at ht
    · rw [List.mem_singleton.mp ht]
      decide
  · exact hkeyword t (List.mem_append_right _ ht)

theorem Path.not_brace {path : List Token} {name : Text} (h : Path path name) :
    ∀ t ∈ path, isBrace t = false := by
  induction h with
  | word => simp [isBrace]
  | segment _ _ ih =>
    intro t ht
    rcases List.mem_append.mp ht with ht | ht
    · exact ih t ht
    · simp only [List.mem_cons, List.not_mem_nil, or_false] at ht
      rcases ht with rfl | rfl | rfl <;> simp [isBrace]

/-- Only the base list of a head can hold a closing brace, and none holds an opening one. -/
theorem PlainHead.brace_mem {kind : ScopeKind} {name : Text} {bases head : List Token}
    (h : PlainHead kind name bases head) :
    .delimiter '{' ∉ head ∧ (.delimiter '}' ∈ head → .delimiter '}' ∈ bases) := by
  obtain @⟨path, final, bases, hpath, hfinal, hbases, -⟩ := h
  have hfront (c : Char) (hc : isBrace (.delimiter c)) (hm : .delimiter c ∈ path ++ final) : False := by
    rcases List.mem_append.mp hm with hm | hm
    · rw [hpath.not_brace _ hm] at hc
      simp at hc
    · rcases hfinal with rfl | rfl <;> simp at hm
  have hopen : .delimiter '{' ∉ bases := by
    cases hbases with
    | none => simp
    | list _ _ hbrace _ => simpa using hbrace
  constructor
  · intro hm
    rcases List.mem_cons.mp hm with hm | hm
    · simp at hm
    · rcases List.mem_append.mp hm with hm | hm
      · exact hfront '{' rfl hm
      · exact hopen hm
  · intro hm
    rcases List.mem_cons.mp hm with hm | hm
    · simp at hm
    · exact (List.mem_append.mp hm).resolve_left (hfront '}' rfl)

end Grammar

namespace Braces

/-- Braces that close at least as many blocks as they open. -/
def Lowers (ts : List Token) : Prop :=
  ∀ depth depth', 1 ≤ depth → Brackets.after '{' '}' depth ts = some depth' → depth' ≤ depth

theorem balanced_of_not_mem {ts : List Token} (h : ∀ t ∈ ts, Grammar.isBrace t = false) :
    Brackets.Balanced '{' '}' ts := by
  refine Brackets.after_of_not_mem (fun hm => ?_) fun hm => ?_
  · simpa [Grammar.isBrace] using h _ hm
  · simpa [Grammar.isBrace] using h _ hm

theorem lowers_of_balanced {ts : List Token} (h : Brackets.Balanced '{' '}' ts) : Lowers ts := by
  intro depth depth' hpos hd
  rw [h.after_eq hpos] at hd
  exact (Option.some.inj hd).ge

theorem lowers_of_not_open {ts : List Token} (h : .delimiter '{' ∉ ts) : Lowers ts := by
  intro depth depth' _ hd
  induction ts generalizing depth with
  | nil => exact (Option.some.inj hd).ge
  | cons t ts ih =>
    rw [List.mem_cons, not_or] at h
    rcases Brackets.after_cons_eq_some hd with ⟨ht, -⟩ | ⟨-, -, hdepth, hd⟩ | ⟨-, -, hd⟩
    · exact absurd ht.symm h.1
    · have := ih h.2 _ (by omega) hd
      omega
    · exact ih h.2 _ (by assumption) hd

theorem Lowers.append {ts us : List Token} (hts : Lowers ts) (hus : Lowers us) : Lowers (ts ++ us) := by
  intro depth depth' hpos hd
  rw [Brackets.after_append] at hd
  obtain ⟨between, hbetween, hd⟩ := Option.bind_eq_some_iff.mp hd
  exact (hus _ _ (Brackets.pos_of_after hpos hbetween) hd).trans (hts _ _ hpos hbetween)

theorem Lowers.block {ts : List Token} (h : Lowers ts) :
    Lowers (.delimiter '{' :: (ts ++ [.delimiter '}'])) := by
  intro depth depth' hpos hd
  rw [Brackets.after, if_pos rfl, Brackets.after_append] at hd
  obtain ⟨between, hbetween, hd⟩ := Option.bind_eq_some_iff.mp hd
  have hle := h _ _ (by omega) hbetween
  rw [Brackets.after, if_neg (by simp), if_pos rfl] at hd
  split at hd
  · simp at hd
  · obtain rfl := Option.some.inj hd
    omega

end Braces

namespace Grammar

theorem quiet_of_isLiteral {t : Token} (h : t.isLiteral) : isBrace t = false ∧ isKeyword t = false := by
  cases t <;> simp_all [Token.isLiteral, isBrace, isKeyword]

theorem ending_not_brace {kind : ScopeKind} {ending : List Token}
    (h : ending = if kind.needsTerminator then [.delimiter ';'] else []) :
    ∀ t ∈ ending, isBrace t = false := by
  subst h
  split <;> simp [isBrace]

/-- What holds of balanced tokens and of the heads of the scopes, and is kept by braces around a sequence
and by concatenation, holds of items. -/
theorem Scopes.tokens_induction {P : List Token → Prop} (balanced : ∀ ts, Brackets.Balanced '{' '}' ts → P ts)
    (append : ∀ ts us, P ts → P us → P (ts ++ us))
    (block : ∀ ts, P ts → P (.delimiter '{' :: (ts ++ [.delimiter '}'])))
    {tokens : List Placed} {extents : List Extent} (h : Scopes tokens extents)
    (head : ∀ e ∈ extents, ∀ ts, PlainHead e.frame.kind e.frame.name e.bases ts → P ts) :
    P (tokens.map Placed.token) := by
  -- What an item has around its braces has none of its own, so it is balanced.
  have quiet (ts : List Token) (hts : ∀ t ∈ ts, isBrace t = false) : P ts :=
    balanced ts (Braces.balanced_of_not_mem hts)
  induction h with
  | nil => exact quiet [] (by simp)
  | @scope kind name bases _ _ _ _ _ _ _ _ hhead hopen _ hclose hending _ hinner hrest =>
    have hhead := head _ List.mem_cons_self _ hhead
    have hinner := hinner fun e he => head e (by simp [he])
    have hrest := hrest fun e he => head e (by simp [he])
    have hending := quiet _ (ending_not_brace hending)
    have hscope := append _ _ (append _ _ (append _ _ hhead (block _ hinner)) hending) hrest
    simpa [hopen, hclose] using hscope
  | @unnamed keyword _ _ _ _ _ _ hkeyword hopen _ hclose _ hinner hrest =>
    have hinner := hinner fun e he => head e (by simp [he])
    have hrest := hrest fun e he => head e (by simp [he])
    have hkeyword : P [keyword.token] := quiet _ (by simp [hkeyword, isBrace])
    have hscope := append _ _ (append _ _ hkeyword (block _ hinner)) hrest
    simpa [hopen, hclose] using hscope
  | @linkage keyword language _ _ _ _ _ _ hkeyword hlanguage hopen _ hclose _ hinner hrest =>
    have hinner := hinner fun e he => head e (by simp [he])
    have hrest := hrest fun e he => head e (by simp [he])
    have hwords : P [keyword.token, language.token] := by
      have hword : isBrace keyword.token = false := by
        rw [hkeyword]
        rfl
      exact quiet _ (by simp [hword, (quiet_of_isLiteral hlanguage).1])
    have hscope := append _ _ (append _ _ hwords (block _ hinner)) hrest
    simpa [hopen, hclose] using hscope
  | @statement tokens _ _ _ htokens hsemi _ hrest =>
    have hstatement : P (tokens.map Placed.token ++ [.delimiter ';']) := by
      refine quiet _ fun t ht => ?_
      rcases List.mem_append.mp ht with ht | ht
      · have hplain := htokens.plain t ht
        simp only [isPunctuation, Bool.or_eq_false_iff] at hplain
        simp [isBrace, hplain.1]
      · rw [List.mem_singleton.mp ht]
        rfl
    simpa [hsemi] using append _ _ hstatement (hrest head)
  | block hhead hopen hinner _ hclose _ hrest =>
    have hinner := balanced _ hinner
    have hscope := append _ _ (append _ _ (quiet _ hhead) (block _ hinner)) (hrest head)
    simpa [hopen, hclose] using hscope

theorem Scopes.lowers {tokens : List Placed} {extents : List Extent} (h : Scopes tokens extents) :
    Braces.Lowers (tokens.map Placed.token) :=
  h.tokens_induction (fun _ => Braces.lowers_of_balanced) (fun _ _ => .append) (fun _ => .block)
    fun _ _ _ hhead => Braces.lowers_of_not_open hhead.brace_mem.1

/-- The braces of items are balanced when no base list holds a closing one. -/
theorem Scopes.balanced {tokens : List Placed} {extents : List Extent} (h : Scopes tokens extents)
    (hbases : .delimiter '}' ∉ extents.flatMap Extent.bases) :
    Brackets.Balanced '{' '}' (tokens.map Placed.token) := by
  refine h.tokens_induction (fun _ => id) (fun _ _ hts hus => (Brackets.balanced_append_iff hus).mpr hts)
    (fun _ hts => Brackets.balanced_block hts (by decide)) fun e he ts hts => ?_
  refine Braces.balanced_of_not_mem fun t ht => ?_
  have hopen : t ≠ .delimiter '{' := by
    rintro rfl
    exact hts.brace_mem.1 ht
  have hclose : t ≠ .delimiter '}' := by
    rintro rfl
    exact hbases (List.mem_flatMap.mpr ⟨e, he, hts.brace_mem.2 ht⟩)
  simp [isBrace, hopen, hclose]

/-- In the order of the lines, a scope closes no later than it ends. -/
theorem Scopes.closing_le_ending {tokens : List Placed} {extents : List Extent}
    (h : Scopes tokens extents) (htokens : tokens.Pairwise (·.line.stop ≤ ·.line.stop)) :
    ∀ e ∈ extents, e.closing.line.stop ≤ e.ending.line.stop := by
  induction h with
  | nil => simp
  | @scope _ _ _ head inner ending rest opening closing extents more _ _ _ _ _ _ hinner hrest =>
    rw [List.pairwise_append, List.pairwise_cons, List.pairwise_append, List.pairwise_cons,
      List.pairwise_append] at htokens
    obtain ⟨-, ⟨-, hin, ⟨hclosing, -, hrest', -⟩, -⟩, -⟩ := htokens
    intro e he
    rw [List.mem_cons, List.mem_append] at he
    rcases he with rfl | he | he
    · cases ending with
      | nil => exact le_refl _
      | cons p ending => exact hclosing p (by simp)
    · exact hinner hin e he
    · exact hrest hrest' e he
  | unnamed _ _ _ _ _ hinner hrest =>
    rw [List.pairwise_cons, List.pairwise_cons, List.pairwise_append, List.pairwise_cons] at htokens
    obtain ⟨-, -, hin, ⟨-, hrest'⟩, -⟩ := htokens
    exact List.forall_mem_append.mpr ⟨hinner hin, hrest hrest'⟩
  | linkage _ _ _ _ _ _ hinner hrest =>
    rw [List.pairwise_cons, List.pairwise_cons, List.pairwise_cons, List.pairwise_append,
      List.pairwise_cons] at htokens
    obtain ⟨-, -, -, hin, ⟨-, hrest'⟩, -⟩ := htokens
    exact List.forall_mem_append.mpr ⟨hinner hin, hrest hrest'⟩
  | statement _ _ _ hrest =>
    rw [List.pairwise_append, List.pairwise_cons] at htokens
    exact hrest htokens.2.1.2
  | block _ _ _ _ _ _ hrest =>
    rw [List.pairwise_append, List.pairwise_cons, List.pairwise_append, List.pairwise_cons] at htokens
    exact hrest htokens.2.1.2.2.1.2

end Grammar

namespace Locator

variable {frame : Frame}

/-- Where an item may start. -/
def Waiting (s : State) : Prop :=
  ∃ previous, s = .outside previous ∧ previous ≠ some (.word "using".toList)

/-- The closing brace of the scope is behind. -/
def Past (frame : Frame) (s : State) : Prop :=
  (∃ offset, s = .done offset) ∨ (s = .terminator ∧ frame.kind.needsTerminator)

theorem outside_step {previous : Option Token} {p : Placed} (h : Grammar.isKeyword p.token = false) :
    step frame (.outside previous) p = .outside (some p.token) := by
  rw [step, Resolver.introducedBy_of_not_keyword h, if_neg (by simp)]

/-- Tokens that are no scope keywords are passed over. -/
theorem outside_foldl {previous : Option Token} {tokens : List Placed}
    (h : ∀ t ∈ tokens.map Placed.token, Grammar.isKeyword t = false) :
    ∃ previous', tokens.foldl (step frame) (.outside previous) = .outside previous' := by
  induction tokens generalizing previous with
  | nil => exact ⟨previous, rfl⟩
  | cons p tokens ih =>
    rw [List.map_cons, List.forall_mem_cons] at h
    rw [List.foldl_cons, outside_step h.1]
    exact ih h.2

/-- A delimiter after tokens that are no scope keywords. -/
theorem waiting_of_delimiter {s : State} {tokens : List Placed} {p : Placed} {c : Char} (hs : Waiting s)
    (h : ∀ t ∈ tokens.map Placed.token, Grammar.isKeyword t = false) (hp : p.token = .delimiter c) :
    Waiting ((tokens ++ [p]).foldl (step frame) s) := by
  obtain ⟨previous, rfl, -⟩ := hs
  obtain ⟨previous', hfold⟩ : ∃ previous', tokens.foldl (step frame) (.outside previous) =
      .outside previous' := outside_foldl h
  rw [List.foldl_append, hfold, List.foldl_cons, List.foldl_nil, outside_step (by rw [hp]; rfl)]
  exact ⟨_, rfl, by simp [hp]⟩

theorem header_foldl {keyword : Token} {st st' : Header.State} {tokens : List Placed}
    (h : Header.reads st (tokens.map Placed.token) = some st') :
    tokens.foldl (step frame) (.header keyword st) = .header keyword st' := by
  induction tokens generalizing st with
  | nil =>
    obtain rfl := Option.some.inj h
    rfl
  | cons p tokens ih =>
    simp only [Header.reads, List.map_cons, List.foldlM_cons] at h
    obtain ⟨between, hstep, h⟩ := Option.bind_eq_some_iff.mp h
    rw [List.foldl_cons, step, Sum.getLeft?_eq_some_iff.mp hstep]
    exact ih h

/-- The keyword of a scope starts a header when it is of the kind looked for, and is passed over
otherwise. -/
theorem step_keyword {s : State} {keyword : Placed} {kind : ScopeKind} (hs : Waiting s)
    (hkeyword : keyword.token = .word kind.keyword) :
    step frame s keyword =
      if kind = frame.kind then .header (.word kind.keyword) Header.start
      else .outside (some (.word kind.keyword)) := by
  obtain ⟨previous, rfl, hprevious⟩ := hs
  rw [step, hkeyword, Resolver.introducedBy_keyword hprevious]
  simp only [Option.some.injEq]

theorem waiting_keyword (kind : ScopeKind) : Waiting (.outside (some (.word kind.keyword))) := by
  refine ⟨_, rfl, ?_⟩
  cases kind <;> decide

/-- The brace of the scope looked for enters it. -/
theorem inside_of_head {s : State} {head : List Placed} {opening : Placed} {bases : List Token}
    (hs : Waiting s) (hhead : Grammar.PlainHead frame.kind frame.name bases (head.map Placed.token))
    (hopen : opening.token = .delimiter '{') :
    (head ++ [opening]).foldl (step frame) s = .inside 1 := by
  obtain ⟨ts, st, hts, hreads, hst⟩ := Header.exists_reads_head hhead.toHead
  obtain ⟨keyword, head, rfl, hkeyword, rfl⟩ := List.map_eq_cons_iff.mp hts
  rw [List.cons_append, List.foldl_cons, step_keyword hs hkeyword, if_pos rfl, List.foldl_append,
    header_foldl hreads, List.foldl_cons, List.foldl_nil, step, hopen, hst]
  exact if_pos rfl

/-- The brace of another scope does not. -/
theorem waiting_of_head {s : State} {kind : ScopeKind} {name : Text} {head : List Placed}
    {opening : Placed} {bases : List Token} (hs : Waiting s)
    (hhead : Grammar.PlainHead kind name bases (head.map Placed.token))
    (hopen : opening.token = .delimiter '{') (hne : (⟨kind, name⟩ : Frame) ≠ frame) :
    Waiting ((head ++ [opening]).foldl (step frame) s) := by
  have hplain := hhead.no_keyword
  obtain ⟨ts, st, hts, hreads, hst⟩ := Header.exists_reads_head hhead.toHead
  obtain ⟨keyword, head, rfl, hkeyword, rfl⟩ := List.map_eq_cons_iff.mp hts
  rw [List.cons_append, List.foldl_cons, step_keyword hs hkeyword]
  split
  · next hkind =>
    have hname : name ≠ frame.name := by
      rintro rfl
      exact hne (by rw [hkind])
    rw [List.foldl_append, header_foldl hreads, List.foldl_cons, List.foldl_nil, step, hopen, hst]
    simpa only [if_neg hname] using waiting_keyword kind
  · exact waiting_of_delimiter (waiting_keyword kind) hplain hopen

/-- In a statement, with the brackets that are to be closed. -/
def InStatement (s : State) (nest : List Char) : Prop :=
  (∃ previous, s = .outside previous) ∨
    ∃ kind : ScopeKind, ∃ st, s = .header (.word kind.keyword) st ∧ Header.Nested nest st

theorem inStatement_step {s : State} {nest nest' : List Char} {p : Placed} (hs : InStatement s nest)
    (hp : Grammar.isPunctuation p.token = false) (hnest : Grammar.nestStep nest p.token = some nest') :
    InStatement (step frame s p) nest' := by
  rcases hs with ⟨previous, rfl⟩ | ⟨kind, st, rfl, hst⟩
  · rw [step]
    split
    · next hkey =>
      -- The header counts the brackets from its keyword on, which is itself no bracket.
      have hword : p.token = .word frame.kind.keyword := Resolver.eq_keyword_of_introducedBy hkey
      rw [hword]
      exact .inr ⟨_, _, rfl, [], nest', rfl, rfl, rfl⟩
    · exact .inl ⟨_, rfl⟩
  · rw [step]
    rcases Header.nested_step hst hp hnest with ⟨st', hstep, hst'⟩ | hstep
    · rw [hstep]
      exact .inr ⟨_, _, rfl, hst'⟩
    · rw [hstep]
      exact .inl ⟨_, rfl⟩

theorem inStatement_foldl {s : State} {nest nest' : List Char} {tokens : List Placed}
    (hs : InStatement s nest) (h : ∀ t ∈ tokens.map Placed.token, Grammar.isPunctuation t = false)
    (hnest : (tokens.map Placed.token).foldlM Grammar.nestStep nest = some nest') :
    InStatement (tokens.foldl (step frame) s) nest' := by
  induction tokens generalizing s nest with
  | nil =>
    obtain rfl := Option.some.inj hnest
    exact hs
  | cons p tokens ih =>
    rw [List.map_cons, List.forall_mem_cons] at h
    rw [List.map_cons, List.foldlM_cons] at hnest
    obtain ⟨between, hstep, hnest⟩ := Option.bind_eq_some_iff.mp hnest
    exact ih (inStatement_step hs h.1 hstep) h.2 hnest

theorem waiting_of_statement {s : State} {tokens : List Placed} {semicolon : Placed} (hs : Waiting s)
    (h : Grammar.StatementHead (tokens.map Placed.token)) (hsemi : semicolon.token = .delimiter ';') :
    Waiting ((tokens ++ [semicolon]).foldl (step frame) s) := by
  rcases h.nested with hkey | hnested
  · exact waiting_of_delimiter hs hkey hsemi
  · obtain ⟨previous, rfl, -⟩ := hs
    have hread : InStatement (tokens.foldl (step frame) (.outside previous)) [] :=
      inStatement_foldl (.inl ⟨_, rfl⟩) h.plain (by simpa [Grammar.wellNested] using hnested)
    rw [List.foldl_append, List.foldl_cons, List.foldl_nil]
    rcases hread with ⟨previous', heq⟩ | ⟨kind, st, heq, hst⟩
    · rw [heq, outside_step (by rw [hsemi]; rfl)]
      exact ⟨_, rfl, by simp [hsemi]⟩
    · rw [heq, step, hsemi, Header.step_semicolon hst]
      exact waiting_keyword kind

/-- Inside a scope the braces are counted. -/
theorem counts_inside : Brackets.Counts '{' '}' (step frame) Placed.token fun depth s => s = .inside depth where
  opened := by
    rintro depth _ p rfl hopen
    rw [step, if_pos hopen]
  closed := by
    rintro depth _ p rfl hclose hdepth
    rw [step, if_neg (by simp [hclose]), if_pos hclose, if_neg hdepth]
  other := by
    rintro depth _ p rfl hopen hclose
    rw [step, if_neg hopen, if_neg hclose]

theorem inside_foldl {depth depth' : Nat} {tokens : List Placed}
    (h : Brackets.after '{' '}' depth (tokens.map Placed.token) = some depth') :
    tokens.foldl (step frame) (.inside depth) = .inside depth' := counts_inside.foldl rfl h

theorem past_step {s : State} (hs : Past frame s) (p : Placed) : Past frame (step frame s p) := by
  rcases hs with ⟨offset, rfl⟩ | ⟨rfl, hkind⟩
  · exact .inl ⟨offset, rfl⟩
  · rw [step]
    split
    · exact .inl ⟨_, rfl⟩
    · exact .inr ⟨rfl, hkind⟩

theorem past_foldl {s : State} (hs : Past frame s) (tokens : List Placed) :
    Past frame (tokens.foldl (step frame) s) := by
  induction tokens generalizing s with
  | nil => exact hs
  | cons p tokens ih => exact ih (past_step hs p)

theorem past_closing {p : Placed} (h : p.token = .delimiter '}') :
    Past frame (step frame (.inside 1) p) := by
  rw [step, h, if_neg (by simp), if_pos rfl, if_pos rfl]
  split
  · next hkind => exact .inr ⟨rfl, hkind⟩
  · exact .inl ⟨_, rfl⟩

/-- More closing braces than opening ones leave the scope. -/
theorem past_of_after_eq_none {depth : Nat} {tokens : List Placed}
    (h : Brackets.after '{' '}' depth (tokens.map Placed.token) = none) :
    Past frame (tokens.foldl (step frame) (.inside depth)) := by
  obtain ⟨block, more, hmap, hblock⟩ := Brackets.exists_closing_of_after h
  obtain ⟨inner, back, rfl, rfl, hback⟩ := List.map_eq_append_iff.mp hmap
  obtain ⟨closing, rest, rfl, hclose, -⟩ := List.map_eq_cons_iff.mp hback
  rw [List.foldl_append, inside_foldl hblock, List.foldl_cons]
  exact past_foldl (past_closing hclose) rest

theorem done_foldl (offset : Nat) (tokens : List Placed) :
    tokens.foldl (step frame) (.done offset) = .done offset := by
  induction tokens with
  | nil => rfl
  | cons p tokens ih => exact ih

/-- What ends a scope ends the search, also when its closing brace was missed. -/
theorem done_of_past {s : State} {ending : List Placed} (hs : Past frame s)
    (hending : ending.map Placed.token = if frame.kind.needsTerminator then [.delimiter ';'] else []) :
    ∃ offset, ending.foldl (step frame) s = .done offset := by
  rcases hs with ⟨offset, rfl⟩ | ⟨rfl, hkind⟩
  · exact ⟨offset, done_foldl offset ending⟩
  · rw [if_pos hkind] at hending
    obtain ⟨semicolon, rest, rfl, hsemi, hrest⟩ := List.map_eq_cons_iff.mp hending
    obtain rfl := List.map_eq_nil_iff.mp hrest
    exact ⟨semicolon.line.stop, by simp [step, hsemi]⟩

/-- A balanced scope is left where it ends. -/
theorem done_of_inside {ending : List Placed} {closing : Placed} (hclose : closing.token = .delimiter '}')
    (hending : ending.map Placed.token = if frame.kind.needsTerminator then [.delimiter ';'] else []) :
    (closing :: ending).foldl (step frame) (.inside 1) = .done (ending.headD closing).line.stop := by
  rw [List.foldl_cons, step, if_neg (by simp [hclose]), if_pos hclose, if_pos rfl]
  split at hending
  · next hkind =>
    obtain ⟨semicolon, rest, rfl, hsemi, hrest⟩ := List.map_eq_cons_iff.mp hending
    obtain rfl := List.map_eq_nil_iff.mp hrest
    simp [hkind, step, hsemi]
  · next hkind =>
    obtain rfl := List.map_eq_nil_iff.mp hending
    simp [hkind]

/-- What the locator does on some items: it goes through all of them when none is the scope it looks for,
and otherwise stops, at the end of the first one if the braces inside that are balanced. -/
structure Finds (frame : Frame) (tokens : List Placed) (extents : List Extent) : Prop where
  absent : ∀ s, Waiting s → (∀ e ∈ extents, e.frame ≠ frame) → Waiting (tokens.foldl (step frame) s)
  found : ∀ s e, Waiting s → extents.find? (·.frame = frame) = some e →
    (∃ offset, tokens.foldl (step frame) s = .done offset) ∧
      (.delimiter '}' ∉ e.innerBases → tokens.foldl (step frame) s = .done e.ending.line.stop)

theorem finds_of_waiting {tokens : List Placed}
    (h : ∀ s, Waiting s → Waiting (tokens.foldl (step frame) s)) : Finds frame tokens [] :=
  ⟨fun s hs _ => h s hs, by simp⟩

theorem Finds.append {tokens more : List Placed} {extents moreExtents : List Extent}
    (h : Finds frame tokens extents) (hmore : Finds frame more moreExtents) :
    Finds frame (tokens ++ more) (extents ++ moreExtents) := by
  constructor
  · intro s hs hne
    rw [List.forall_mem_append] at hne
    rw [List.foldl_append]
    exact hmore.absent _ (h.absent s hs hne.1) hne.2
  · intro s e hs he
    rw [List.foldl_append]
    rw [List.find?_append] at he
    cases hfirst : extents.find? (·.frame = frame) with
    | none =>
      rw [hfirst, Option.none_or] at he
      exact hmore.found _ e (h.absent s hs (by simpa using hfirst)) he
    | some first =>
      rw [hfirst, Option.some_or, Option.some.injEq] at he
      subst he
      obtain ⟨⟨offset, hdone⟩, hends⟩ := h.found s first hs hfirst
      rw [hdone] at hends ⊢
      rw [done_foldl]
      exact ⟨⟨offset, rfl⟩, hends⟩

theorem finds_closing {closing : Placed} {c : Char} (h : closing.token = .delimiter c) :
    Finds frame [closing] [] := by
  refine finds_of_waiting fun s hs => ?_
  rw [← List.nil_append [closing]]
  exact waiting_of_delimiter hs (by simp) h

theorem finds_ending {kind : ScopeKind} {ending : List Placed}
    (h : ending.map Placed.token = if kind.needsTerminator then [.delimiter ';'] else []) :
    Finds frame ending [] := by
  split at h
  · obtain ⟨semicolon, rest, rfl, hsemi, hrest⟩ := List.map_eq_cons_iff.mp h
    obtain rfl := List.map_eq_nil_iff.mp hrest
    exact finds_closing hsemi
  · rw [List.map_eq_nil_iff.mp h]
    exact finds_of_waiting fun s hs => hs

/-- Another scope is passed over, with the search going on inside. -/
theorem finds_other {kind : ScopeKind} {name : Text} {bases : List Token} {head inner ending : List Placed}
    {opening closing : Placed} {extents : List Extent}
    (hhead : Grammar.PlainHead kind name bases (head.map Placed.token))
    (hopen : opening.token = .delimiter '{') (hinner : Finds frame inner extents)
    (hclose : closing.token = .delimiter '}')
    (hending : ending.map Placed.token = if kind.needsTerminator then [.delimiter ';'] else [])
    (hne : (⟨kind, name⟩ : Frame) ≠ frame) :
    Finds frame (head ++ [opening] ++ inner ++ [closing] ++ ending) extents := by
  have hfront : Finds frame (head ++ [opening]) [] :=
    finds_of_waiting fun s hs => waiting_of_head hs hhead hopen hne
  simpa using ((hfront.append hinner).append (finds_closing hclose)).append (finds_ending hending)

/-- The scope looked for ends the search. -/
theorem done_of_scope {s : State} {bases : List Token} {head inner ending : List Placed}
    {opening closing : Placed} {extents : List Extent} (hs : Waiting s)
    (hhead : Grammar.PlainHead frame.kind frame.name bases (head.map Placed.token))
    (hopen : opening.token = .delimiter '{') (hinner : Grammar.Scopes inner extents)
    (hclose : closing.token = .delimiter '}')
    (hending : ending.map Placed.token = if frame.kind.needsTerminator then [.delimiter ';'] else []) :
    (∃ offset, (head ++ [opening] ++ inner ++ [closing] ++ ending).foldl (step frame) s = .done offset) ∧
      (.delimiter '}' ∉ extents.flatMap Extent.bases →
        (head ++ [opening] ++ inner ++ [closing] ++ ending).foldl (step frame) s =
          .done (ending.headD closing).line.stop) := by
  rw [List.append_assoc _ [closing], List.singleton_append, List.foldl_append, List.foldl_append,
    inside_of_head hs hhead hopen]
  have hends (h : Brackets.after '{' '}' 1 (inner.map Placed.token) = some 1) :
      (closing :: ending).foldl (step frame) (inner.foldl (step frame) (.inside 1)) =
        .done (ending.headD closing).line.stop := by
    rw [inside_foldl h]
    exact done_of_inside hclose hending
  refine ⟨?_, fun hbases => hends (hinner.balanced hbases)⟩
  cases hdepth : Brackets.after '{' '}' 1 (inner.map Placed.token) with
  | none =>
    rw [List.foldl_cons]
    exact done_of_past (past_step (past_of_after_eq_none hdepth) closing) hending
  | some depth =>
    -- Inner braces that leave the scope open leave exactly its own brace open.
    have hlow := hinner.lowers 1 depth (le_refl 1) hdepth
    have hpos := Brackets.pos_of_after (le_refl 1) hdepth
    obtain rfl : depth = 1 := by omega
    exact ⟨_, hends hdepth⟩

theorem finds_scope {kind : ScopeKind} {name : Text} {bases : List Token} {head inner ending : List Placed}
    {opening closing : Placed} {extents : List Extent}
    (hhead : Grammar.PlainHead kind name bases (head.map Placed.token))
    (hopen : opening.token = .delimiter '{') (hscopes : Grammar.Scopes inner extents)
    (hinner : Finds frame inner extents) (hclose : closing.token = .delimiter '}')
    (hending : ending.map Placed.token = if kind.needsTerminator then [.delimiter ';'] else []) :
    Finds frame (head ++ [opening] ++ inner ++ [closing] ++ ending)
      (⟨⟨kind, name⟩, bases, extents.flatMap Extent.bases, closing, ending.headD closing⟩ :: extents) := by
  by_cases hframe : (⟨kind, name⟩ : Frame) = frame
  · subst hframe
    refine ⟨fun s _ hne => absurd rfl (hne _ List.mem_cons_self), fun s e hs he => ?_⟩
    rw [List.find?_cons_of_pos (by simp), Option.some.injEq] at he
    subst he
    exact done_of_scope hs hhead hopen hscopes hclose hending
  · have hother := finds_other hhead hopen hinner hclose hending hframe
    refine ⟨fun s hs hne => hother.absent s hs (List.forall_mem_cons.mp hne).2, fun s e hs he => ?_⟩
    rw [List.find?_cons_of_neg (by simpa using hframe)] at he
    exact hother.found s e hs he

/-- The locator is right on every sequence of items. -/
theorem finds_scopes {tokens : List Placed} {extents : List Extent} (h : Grammar.Scopes tokens extents) :
    Finds frame tokens extents := by
  induction h with
  | nil => exact finds_of_waiting fun s hs => hs
  | scope hhead hopen hscopes hclose hending _ hinner hrest =>
    simpa using (finds_scope hhead hopen hscopes hinner hclose hending).append hrest
  | @unnamed keyword opening closing _ _ _ _ hkeyword hopen _ hclose _ hinner hrest =>
    have hfront : Finds frame [keyword, opening] [] := by
      refine finds_of_waiting fun s hs => ?_
      have hnamespace : keyword.token = .word ScopeKind.namespaceScope.keyword := hkeyword
      rw [List.foldl_cons, List.foldl_cons, List.foldl_nil, step_keyword hs hnamespace]
      -- If a namespace is looked for, its header opens without a name and is given up.
      split
      · rw [step, hopen]
        exact waiting_keyword _
      · rw [outside_step (by rw [hopen]; rfl)]
        exact ⟨_, rfl, by simp [hopen]⟩
    simpa using ((hfront.append hinner).append (finds_closing hclose)).append hrest
  | @linkage keyword language opening _ _ _ _ _ hkeyword hlanguage hopen _ hclose _ hinner hrest =>
    have hfront : Finds frame ([keyword, language] ++ [opening]) [] := by
      refine finds_of_waiting fun s hs => waiting_of_delimiter hs ?_ hopen
      have hword : Grammar.isKeyword keyword.token = false := by
        rw [hkeyword]
        decide
      simp [hword, (Grammar.quiet_of_isLiteral hlanguage).2]
    simpa using ((hfront.append hinner).append (finds_closing hclose)).append hrest
  | statement htokens hsemi _ hrest =>
    have hstatement : Finds frame _ [] :=
      finds_of_waiting fun s hs => waiting_of_statement hs htokens hsemi
    simpa using hstatement.append hrest
  | @block head inner rest opening closing _ _ hopen _ hkeyword hclose _ hrest =>
    have hblock : Finds frame (head ++ opening :: inner ++ [closing]) [] := by
      refine finds_of_waiting fun s hs => waiting_of_delimiter hs (fun t ht => ?_) hclose
      simp only [List.map_append, List.map_cons, List.mem_append, List.mem_cons] at ht hkeyword
      rcases ht with ht | rfl | ht
      · exact hkeyword t (.inl ht)
      · rw [hopen]
        rfl
      · exact hkeyword t (.inr ht)
    simpa using hblock.append hrest

end Locator

theorem Text.stop_le_of_mem_linesAt {t : Text} {number start : Nat} {line : Line}
    (h : line ∈ linesAt number start t) : start ≤ line.stop := by
  obtain ⟨a, b, -, hstart⟩ := content_of_mem_linesAt h
  rw [Line.stop]
  omega

theorem Text.pairwise_linesAt (t : Text) (number start : Nat) :
    (linesAt number start t).Pairwise (·.stop ≤ ·.stop) := by
  induction t using Text.line_induction generalizing number start with
  | last content hnl =>
    rw [linesAt_last _ _ hnl]
    exact List.pairwise_singleton _ _
  | line content ending rest hended ih =>
    rw [linesAt_line _ _ hended, List.pairwise_cons]
    refine ⟨fun line hline => ?_, ih _ _⟩
    have hstop := stop_le_of_mem_linesAt hline
    change start + byteLength content ≤ line.stop
    omega

/-- Tokens keep the order of their lines. -/
theorem pairwise_codeOfLines (inComment : Bool) {lines : List Line}
    (h : lines.Pairwise (·.stop ≤ ·.stop)) :
    (codeOfLines inComment lines).Pairwise (·.line.stop ≤ ·.line.stop) := by
  induction lines generalizing inComment with
  | nil => exact .nil
  | cons line lines ih =>
    rw [List.pairwise_cons] at h
    rw [codeOfLines, List.pairwise_append]
    refine ⟨?_, ih _ h.2, ?_⟩
    · exact List.pairwise_map.mpr (List.pairwise_of_forall fun _ _ => le_refl _)
    · intro p hp q hq
      obtain ⟨t, -, rfl⟩ := List.mem_map.mp hp
      exact h.1 _ (line_mem_of_mem_codeOfLines hq)

namespace Document

/-- On a well-formed document a scope of some kind and name is found exactly when there is one. The place
is then the end of the line on which the first such scope ends, and this is not before the end of the line
of its closing brace, provided that no base list inside the scope holds a closing brace. -/
theorem boundary_of_scopes {doc : Document} {extents : List Extent}
    (h : Grammar.Scopes (withoutSpaces (codeOfLines false doc.lines)) extents) (frame : Frame) :
    ((doc.boundary frame).offset? = none ↔ ∀ e ∈ extents, e.frame ≠ frame) ∧
      ∀ e, extents.find? (·.frame = frame) = some e → .delimiter '}' ∉ e.innerBases →
        (doc.boundary frame).offset? = some e.ending.line.stop ∧
          e.closing.line.stop ≤ e.ending.line.stop := by
  have hfinds : Locator.Finds frame _ extents := Locator.finds_scopes h
  have hstart : Locator.Waiting (.outside none) := ⟨none, rfl, by simp⟩
  refine ⟨⟨fun hnone => ?_, fun hne => ?_⟩, fun e he hbases => ⟨?_, ?_⟩⟩
  · by_contra hsome
    obtain ⟨e, he⟩ : ∃ e, extents.find? (·.frame = frame) = some e := by
      rw [← Option.isSome_iff_exists, List.find?_isSome]
      simpa using hsome
    obtain ⟨⟨offset, hdone⟩, -⟩ := hfinds.found _ e hstart he
    rw [boundary, hdone] at hnone
    simp [Locator.State.boundary, Boundary.offset?] at hnone
  · obtain ⟨previous, houtside, -⟩ := hfinds.absent _ hstart hne
    rw [boundary, houtside]
    rfl
  · rw [boundary, (hfinds.found _ e hstart he).2 hbases]
    rfl
  · have hlines : doc.lines.Pairwise (·.stop ≤ ·.stop) := by
      rw [lines_eq]
      exact Text.pairwise_linesAt _ _ _
    have htokens := (pairwise_codeOfLines false hlines).filter fun p => !p.token.isSpace
    exact h.closing_le_ending htokens e (List.mem_of_find?_eq_some he)

/-- A class in a namespace, declared first, with its semicolon on a line of its own. -/
def splitClass : Document :=
  ⟨"namespace n \x7b\nclass A;\nclass A : B \x7b void f() \x7b\n\x7d \x7d\n; \x7d".toList⟩

def splitClassLine : Nat → Line
  | 1 => ⟨1, 0, "namespace n \x7b".toList, .lf⟩
  | 2 => ⟨2, 14, "class A;".toList, .lf⟩
  | 3 => ⟨3, 23, "class A : B \x7b void f() \x7b".toList, .lf⟩
  | 4 => ⟨4, 48, "\x7d \x7d".toList, .lf⟩
  | _ => ⟨5, 52, "; \x7d".toList, .none⟩

theorem boundary_splitClass :
    ∃ extents, Grammar.Scopes (withoutSpaces (codeOfLines false splitClass.lines)) extents ∧
      (splitClass.boundary ⟨.classScope, "A".toList⟩).offset? = some 55 ∧
      (splitClass.boundary ⟨.classScope, "B".toList⟩).offset? = none := by
  have hmethod : Grammar.Scopes
      ([.word "void".toList, .word "f".toList, .delimiter '(', .delimiter ')'].map
          (⟨·, splitClassLine 3⟩) ++
        ⟨.delimiter '{', splitClassLine 3⟩ :: ([] ++ ⟨.delimiter '}', splitClassLine 4⟩ :: [])) [] :=
    .block (by decide) rfl rfl (by decide) rfl .nil
  have hclass : Grammar.Scopes
      ([.word "class".toList, .word "A".toList, .delimiter ':', .word "B".toList].map
          (⟨·, splitClassLine 3⟩) ++
        ⟨.delimiter '{', splitClassLine 3⟩ ::
          (_ ++ ⟨.delimiter '}', splitClassLine 4⟩ :: ([⟨.delimiter ';', splitClassLine 5⟩] ++ [])))
      (⟨⟨.classScope, "A".toList⟩, _, _, _, _⟩ :: (_ ++ [])) :=
    .scope (.intro (.word rfl) (.inl rfl) (.list (by simp) (by simp) (by simp) (by simp)) (by decide)) rfl
      hmethod rfl rfl .nil
  have hdeclared : Grammar.Scopes
      ([.word "class".toList, .word "A".toList].map (⟨·, splitClassLine 2⟩) ++
        ⟨.delimiter ';', splitClassLine 2⟩ :: _) _ :=
    .statement ⟨by decide, .inr (by decide)⟩ rfl hclass
  have hnamespace : Grammar.Scopes
      ([.word "namespace".toList, .word "n".toList].map (⟨·, splitClassLine 1⟩) ++
        ⟨.delimiter '{', splitClassLine 1⟩ :: (_ ++ ⟨.delimiter '}', splitClassLine 5⟩ :: ([] ++ [])))
      (⟨⟨.namespaceScope, "n".toList⟩, _, _, _, _⟩ :: (_ ++ [])) :=
    .scope (.intro (.word rfl) (.inl rfl) .none (by decide)) rfl hdeclared rfl rfl .nil
  have hdocument : Grammar.Scopes (withoutSpaces (codeOfLines false splitClass.lines)) _ :=
    Eq.mpr (congrArg (Grammar.Scopes · _) (by decide +kernel)) hnamespace
  refine ⟨_, hdocument, ?_, ?_⟩
  · exact ((boundary_of_scopes hdocument ⟨.classScope, "A".toList⟩).2 _ rfl (by simp)).1
  · exact (boundary_of_scopes hdocument ⟨.classScope, "B".toList⟩).1.mpr (by decide)

/-- A closing brace in the base list of a class. -/
def bracedBases : Document := ⟨"namespace N \x7b\nclass A : \x7d\n\x7b \x7d;\n\x7d".toList⟩

def bracedBasesLine : Nat → Line
  | 1 => ⟨1, 0, "namespace N \x7b".toList, .lf⟩
  | 2 => ⟨2, 14, "class A : \x7d".toList, .lf⟩
  | 3 => ⟨3, 26, "\x7b \x7d;".toList, .lf⟩
  | _ => ⟨4, 31, "\x7d".toList, .none⟩

/-- The namespace is taken to end at the brace of the base list, two lines before its own. -/
theorem boundary_bracedBases :
    ∃ extents e, Grammar.Scopes (withoutSpaces (codeOfLines false bracedBases.lines)) extents ∧
      extents.find? (·.frame = ⟨.namespaceScope, "N".toList⟩) = some e ∧ e.ending.line.stop = 32 ∧
      (bracedBases.boundary ⟨.namespaceScope, "N".toList⟩).offset? = some 25 := by
  have hclass : Grammar.Scopes
      ([.word "class".toList, .word "A".toList, .delimiter ':', .delimiter '}'].map
          (⟨·, bracedBasesLine 2⟩) ++
        ⟨.delimiter '{', bracedBasesLine 3⟩ ::
          ([] ++ ⟨.delimiter '}', bracedBasesLine 3⟩ :: ([⟨.delimiter ';', bracedBasesLine 3⟩] ++ [])))
      (⟨⟨.classScope, "A".toList⟩, _, _, _, _⟩ :: (_ ++ [])) :=
    .scope (.intro (.word rfl) (.inl rfl) (.list (by simp) (by simp) (by simp) (by simp)) (by decide)) rfl
      .nil rfl rfl .nil
  have hnamespace : Grammar.Scopes
      ([.word "namespace".toList, .word "N".toList].map (⟨·, bracedBasesLine 1⟩) ++
        ⟨.delimiter '{', bracedBasesLine 1⟩ :: (_ ++ ⟨.delimiter '}', bracedBasesLine 4⟩ :: ([] ++ [])))
      (⟨⟨.namespaceScope, "N".toList⟩, _, _, _, _⟩ :: (_ ++ [])) :=
    .scope (.intro (.word rfl) (.inl rfl) .none (by decide)) rfl hclass rfl rfl .nil
  have hdocument : Grammar.Scopes (withoutSpaces (codeOfLines false bracedBases.lines)) _ :=
    Eq.mpr (congrArg (Grammar.Scopes · _) (by decide +kernel)) hnamespace
  exact ⟨_, _, hdocument, rfl, rfl, by decide +kernel⟩

end Document
end OutOfLine

import OutOfLine.Statement
import OutOfLine.Proofs.Brackets
import OutOfLine.Proofs.LocatedTokens

/-!
# Where a body and a member initializer list are located

The two locators read located code tokens and count parentheses. Each of them is characterized on the
text: the body range is the first block outside parentheses, and the initializer list starts at the
first colon outside parentheses, after a group, that has no colon beside it.
-/

namespace OutOfLine

section Cuts

variable {α : Type} {P : List α → α → List α → Prop} {t : α} {ts : List α}

/-- A list is cut at its first element or behind it. -/
theorem exists_append_cons_iff : (∃ head x rest, t :: ts = head ++ x :: rest ∧ P head x rest) ↔
    P [] t ts ∨ ∃ head x rest, ts = head ++ x :: rest ∧ P (t :: head) x rest := by
  constructor
  · rintro ⟨head, x, rest, heq, h⟩
    cases head with
    | nil =>
      obtain ⟨rfl, rfl⟩ := List.cons.inj heq
      exact .inl h
    | cons y head =>
      rw [List.cons_append, List.cons.injEq] at heq
      obtain ⟨rfl, rfl⟩ := heq
      exact .inr ⟨head, x, rest, rfl, h⟩
  · rintro (h | ⟨head, x, rest, rfl, h⟩)
    · exact ⟨[], t, ts, rfl, h⟩
    · exact ⟨t :: head, x, rest, rfl, h⟩

theorem forall_append_cons_iff : (∀ head x rest, t :: ts = head ++ x :: rest → P head x rest) ↔
    P [] t ts ∧ ∀ head x rest, ts = head ++ x :: rest → P (t :: head) x rest := by
  constructor
  · intro h
    refine ⟨h [] t ts rfl, ?_⟩
    rintro head x rest rfl
    exact h (t :: head) x rest rfl
  · rintro ⟨h, hrest⟩ head x rest heq
    cases head with
    | nil =>
      obtain ⟨rfl, rfl⟩ := List.cons.inj heq
      exact h
    | cons y head =>
      rw [List.cons_append, List.cons.injEq] at heq
      obtain ⟨rfl, rfl⟩ := heq
      exact hrest head x rest rfl

end Cuts

/-- What the parentheses of some tokens leave: how many are open, and whether a group was closed. -/
structure Parens where
  depth : Nat := 0
  closed : Bool := false
  deriving DecidableEq

namespace Parens

def step (p : Parens) : Token → Parens
  | .delimiter '(' => ⟨p.depth + 1, p.closed⟩
  | .delimiter ')' => ⟨p.depth - 1, p.closed || p.depth - 1 == 0⟩
  | _ => p

def after (p : Parens) (tokens : List Token) : Parens := tokens.foldl step p

/-- Whether every brace and every semicolon stands inside parentheses. -/
def guards (p : Parens) : List Token → Bool
  | [] => true
  | t :: ts => (0 < p.depth || (t != .delimiter '{' && t != .delimiter ';')) && (p.step t).guards ts

@[simp] theorem after_nil (p : Parens) : p.after [] = p := rfl

@[simp] theorem after_cons (p : Parens) (t : Token) (ts : List Token) :
    p.after (t :: ts) = (p.step t).after ts := rfl

theorem after_append (p : Parens) (ts us : List Token) :
    p.after (ts ++ us) = (p.after ts).after us := List.foldl_append ..

theorem guards_append (p : Parens) (ts us : List Token) :
    p.guards (ts ++ us) = (p.guards ts && (p.after ts).guards us) := by
  induction ts generalizing p with
  | nil => rfl
  | cons t ts ih => simp [guards, ih, Bool.and_assoc]

theorem after_of_not_mem {p : Parens} {ts : List Token} (hopen : .delimiter '(' ∉ ts)
    (hclose : .delimiter ')' ∉ ts) : p.after ts = p := by
  induction ts with
  | nil => rfl
  | cons t ts ih =>
    rw [List.mem_cons, not_or] at hopen hclose
    have hstep : p.step t = p := by
      unfold step
      split
      · exact absurd rfl hopen.1
      · exact absurd rfl hclose.1
      · rfl
    rw [after_cons, hstep, ih hopen.2 hclose.2]

theorem guards_cons_of_end {p : Parens} {t : Token} (hd : p.depth = 0)
    (ht : t = .delimiter '{' ∨ t = .delimiter ';') (ts : List Token) : p.guards (t :: ts) = false := by
  rcases ht with rfl | rfl <;> simp [guards, hd]

theorem guards_cons {p : Parens} {t : Token}
    (h : ¬ (p.depth = 0 ∧ (t = .delimiter '{' ∨ t = .delimiter ';'))) (ts : List Token) :
    p.guards (t :: ts) = (p.step t).guards ts := by
  have hguard : (decide (0 < p.depth) || (t != .delimiter '{' && t != .delimiter ';')) = true := by
    simp only [Bool.or_eq_true, decide_eq_true_eq, Bool.and_eq_true, bne_iff_ne]
    by_cases hd : p.depth = 0
    · exact .inr ⟨fun ht => h ⟨hd, .inl ht⟩, fun ht => h ⟨hd, .inr ht⟩⟩
    · exact .inl (Nat.pos_of_ne_zero hd)
  rw [guards, hguard, Bool.true_and]

/-- A brace or semicolon outside parentheses is not guarded. -/
theorem not_guards_of_mem {p : Parens} {ts us : List Token} {t : Token}
    (ht : t = .delimiter '{' ∨ t = .delimiter ';') (h : (p.after ts).depth = 0) :
    p.guards (ts ++ t :: us) = false := by
  rw [guards_append, guards, h]
  rcases ht with rfl | rfl <;> simp

theorem step_of_not_solid {t : Token} (p : Parens) (h : t.isSolid = false) : p.step t = p := by
  cases t with
  | space c => rfl
  | commentClose => rfl
  | _ => cases h

theorem after_filter_isSolid (p : Parens) (ts : List Token) :
    p.after (ts.filter Token.isSolid) = p.after ts := by
  induction ts generalizing p with
  | nil => rfl
  | cons t ts ih =>
    cases ht : t.isSolid with
    | true => rw [List.filter_cons_of_pos ht, after_cons, after_cons, ih]
    | false => rw [List.filter_cons_of_neg (by simp [ht]), after_cons, step_of_not_solid p ht, ih]

theorem guards_filter_isSolid (p : Parens) (ts : List Token) :
    p.guards (ts.filter Token.isSolid) = p.guards ts := by
  induction ts generalizing p with
  | nil => rfl
  | cons t ts ih =>
    cases ht : t.isSolid with
    | true => rw [List.filter_cons_of_pos ht, guards, guards, ih]
    | false =>
      have hbrace : t ≠ .delimiter '{' := by rintro rfl; cases ht
      have hsemi : t ≠ .delimiter ';' := by rintro rfl; cases ht
      rw [List.filter_cons_of_neg (by simp [ht]), ih, guards, step_of_not_solid p ht]
      simp [hbrace, hsemi]

/-- A group is closed only by a parenthesis. -/
theorem mem_of_closed {p : Parens} {ts : List Token} (hp : p.closed = false)
    (h : (p.after ts).closed) : .delimiter ')' ∈ ts := by
  induction ts generalizing p with
  | nil => simp [hp] at h
  | cons t ts ih =>
    by_cases ht : t = .delimiter ')'
    · simp [ht]
    · have hstep : (p.step t).closed = false := by
        unfold step
        split
        · exact hp
        · exact absurd rfl ht
        · exact hp
      exact List.mem_cons_of_mem _ (ih hstep h)

end Parens

theorem Brackets.after_filter_isSolid {opener closer : Char} (depth : Nat) (ts : List Token) :
    after opener closer depth (ts.filter Token.isSolid) = after opener closer depth ts :=
  after_filter rfl rfl depth ts

/-- The count of open parentheses follows the brackets, one below them. -/
theorem Brackets.depth_parens {p : Parens} {ts : List Token} {depth' : Nat}
    (h : after '(' ')' (p.depth + 1) ts = some depth') :
    (p.after ts).depth + 1 = depth' := by
  induction ts generalizing p with
  | nil => exact Option.some.inj h
  | cons t ts ih =>
    rw [after] at h
    rw [Parens.after_cons]
    split at h
    · next ht =>
      subst ht
      exact ih h
    · next ht =>
      split at h
      · next hclose =>
        subst hclose
        split at h
        · simp at h
        · next hd =>
          have hdepth : (p.step (.delimiter ')')).depth + 1 = p.depth + 1 - 1 := by
            change p.depth - 1 + 1 = _
            omega
          exact ih (by rw [hdepth]; exact h)
      · next hclose =>
        have hstep : p.step t = p := by
          unfold Parens.step
          split
          · exact absurd rfl ht
          · exact absurd rfl hclose
          · rfl
        rw [hstep]
        exact ih h

namespace Statement

/-- A body is closed by the brace after which nothing of it is open. -/
theorem closeBody_eq_some_iff {depth stop : Nat} {tokens : List Located} :
    closeBody depth tokens = some stop ↔
      ∃ block close rest, tokens = block ++ close :: rest ∧
        Brackets.after '{' '}' depth (block.map Located.token) = some 1 ∧
        close.token = .delimiter '}' ∧ stop = close.offset + 1 := by
  induction tokens generalizing depth with
  | nil => simp [closeBody]
  | cons t ts ih =>
    rw [exists_append_cons_iff]
    simp only [List.map_nil, List.map_cons, Brackets.after, Option.some.injEq]
    by_cases hopen : t.token = .delimiter '{'
    · rw [closeBody, if_pos hopen, ih]
      simp [hopen]
    · by_cases hclose : t.token = .delimiter '}'
      · by_cases hd : depth = 1
        · rw [closeBody, if_neg hopen, if_pos hclose, if_pos hd]
          simp [hclose, hd, eq_comm]
        · rw [closeBody, if_neg hopen, if_pos hclose, if_neg hd, ih]
          simp [hclose, hd]
      · rw [closeBody, if_neg hopen, if_neg hclose, ih]
        simp [hopen, hclose]

theorem findBody_cons (p : Parens) (t : Located) (ts : List Located) :
    findBody p.depth (t :: ts) =
      if p.depth = 0 ∧ t.token = .delimiter '{' then (closeBody 1 ts).map (t.offset, ·)
      else if p.depth = 0 ∧ t.token = .delimiter ';' then none
      else findBody (p.step t.token).depth ts := by
  rw [findBody]
  split <;> simp_all [Parens.step]

/-- The body is the first block outside parentheses with no semicolon outside them before it. -/
theorem findBody_eq_some_iff {p : Parens} {tokens : List Located} {range : Nat × Nat} :
    findBody p.depth tokens = some range ↔
      ∃ head brace rest, tokens = head ++ brace :: rest ∧ p.guards (head.map Located.token) ∧
        (p.after (head.map Located.token)).depth = 0 ∧ brace.token = .delimiter '{' ∧
        range.1 = brace.offset ∧ closeBody 1 rest = some range.2 := by
  induction tokens generalizing p with
  | nil => simp [findBody]
  | cons t ts ih =>
    rw [findBody_cons, exists_append_cons_iff]
    simp only [List.map_nil, List.map_cons, Parens.after_nil, Parens.after_cons]
    split
    · next h =>
      constructor
      · intro hbody
        obtain ⟨stop, hstop, rfl⟩ := Option.map_eq_some_iff.mp hbody
        exact .inl ⟨rfl, h.1, h.2, rfl, hstop⟩
      · rintro (⟨-, -, -, hstart, hstop⟩ | ⟨head, brace, rest, -, hguards, -⟩)
        · rw [hstop, Option.map_some, ← hstart]
        · simp [Parens.guards_cons_of_end h.1 (.inl h.2)] at hguards
    · next hbrace =>
      split
      · next h =>
        refine ⟨by simp, ?_⟩
        rintro (⟨-, -, htoken, -⟩ | ⟨head, brace, rest, -, hguards, -⟩)
        · simp [htoken] at h
        · simp [Parens.guards_cons_of_end h.1 (.inr h.2)] at hguards
      · next hsemi =>
        have hplain : ¬ (p.depth = 0 ∧ (t.token = .delimiter '{' ∨ t.token = .delimiter ';')) := by
          rintro ⟨hd, ht | ht⟩
          · exact hbrace ⟨hd, ht⟩
          · exact hsemi ⟨hd, ht⟩
        simp only [ih, Parens.guards_cons hplain]
        exact ⟨.inr, fun h => h.resolve_left fun h => hbrace ⟨h.2.1, h.2.2.1⟩⟩

/-- Whether a token opens a member initializer list: a colon that is not half of `::`, outside
parentheses and after a closed group. -/
def opensList (p : Parens) (previous : Option Located) (t : Located) (next : Option Located) : Bool :=
  t.token = .delimiter ':' && p.depth = 0 && p.closed &&
    !(previous.any (isPair · t) || next.any (isPair t))

theorem findInitializers_cons (p : Parens) (previous : Option Located) (t : Located)
    (ts : List Located) :
    findInitializers p.depth p.closed previous (t :: ts) =
      if p.depth = 0 ∧ (t.token = .delimiter '{' ∨ t.token = .delimiter ';') then none
      else if opensList p previous t ts.head? then some t.offset
      else findInitializers (p.step t.token).depth (p.step t.token).closed (some t) ts := by
  rw [findInitializers]
  split <;> simp_all [Parens.step, opensList, and_assoc]

private theorem getLast?_cons_or (t : Located) (a : List Located) (previous : Option Located) :
    (t :: a).getLast?.or previous = a.getLast?.or (some t) := by
  rw [List.getLast?_cons]
  cases a.getLast? <;> rfl

theorem head?_append_cons (a : List Located) (t : Located) (b : List Located) :
    (a ++ t :: b).head? = (a ++ [t]).head? := by
  cases a <;> rfl

/-- The initializer list starts at the first token that opens one, with no brace or semicolon outside
parentheses before it. -/
theorem findInitializers_eq_some_iff {p : Parens} {previous : Option Located}
    {tokens : List Located} {o : Nat} :
    findInitializers p.depth p.closed previous tokens = some o ↔
      ∃ head colon rest, tokens = head ++ colon :: rest ∧ p.guards (head.map Located.token) ∧
        opensList (p.after (head.map Located.token)) (head.getLast?.or previous) colon rest.head? ∧
        o = colon.offset ∧
        ∀ a x b, head = a ++ x :: b →
          opensList (p.after (a.map Located.token)) (a.getLast?.or previous) x
            (b ++ [colon]).head? = false := by
  induction tokens generalizing p previous with
  | nil => simp [findInitializers]
  | cons t ts ih =>
    rw [findInitializers_cons, exists_append_cons_iff]
    simp only [forall_append_cons_iff, List.map_nil, List.map_cons, Parens.after_nil, Parens.after_cons,
      List.getLast?_nil, Option.none_or, getLast?_cons_or]
    split
    · next h =>
      -- A brace or semicolon outside parentheses ends the search, so no head may have one.
      refine ⟨by simp, ?_⟩
      rintro (⟨-, hopens, -⟩ | ⟨head, colon, rest, -, hguards, -⟩)
      · simp only [opensList, Bool.and_eq_true, decide_eq_true_eq] at hopens
        rw [hopens.1.1.1] at h
        simp at h
      · simp [Parens.guards_cons_of_end h.1 h.2] at hguards
    · next hplain =>
      simp only [Parens.guards_cons hplain]
      split
      · next hopens =>
        constructor
        · intro h
          exact .inl ⟨rfl, hopens, (Option.some.inj h).symm, by simp⟩
        · rintro (⟨-, -, rfl, -⟩ | ⟨head, colon, rest, rfl, -, -, -, hfirst, -⟩)
          · rfl
          · rw [head?_append_cons] at hopens
            exact absurd hopens (Bool.eq_false_iff.mp hfirst)
      · next hopens =>
        rw [ih]
        constructor
        · rintro ⟨head, colon, rest, rfl, hguards, hlist, ho, hfirst⟩
          rw [head?_append_cons] at hopens
          exact .inr ⟨head, colon, rest, rfl, hguards, hlist, ho, Bool.eq_false_iff.mpr hopens, hfirst⟩
        · rintro (⟨-, h, -⟩ | ⟨head, colon, rest, rfl, hguards, hlist, ho, -, hfirst⟩)
          · exact absurd h hopens
          · exact ⟨head, colon, rest, rfl, hguards, hlist, ho, hfirst⟩

end Statement

namespace Text

/-- A text divided around its body: the first block outside parentheses, with no semicolon outside
them before it. -/
structure BodyCut (t head block tail : Text) : Prop where
  text_eq : t = head ++ '{' :: (block ++ '}' :: tail)
  head_inCode : head.endsInCode false
  block_inCode : block.endsInCode false
  guards : Parens.guards {} (head.codeFrom false)
  depth_eq : (Parens.after {} (head.codeFrom false)).depth = 0
  closes : Brackets.after '{' '}' 1 (block.codeFrom false) = some 1

/-- A colon that can open an initializer list between two texts: it stands in code, outside
parentheses and after a closed group, and no other colon touches it. -/
structure ListColon (before rest : Text) : Prop where
  inCode : before.endsInCode false
  depth_eq : (Parens.after {} (before.codeFrom false)).depth = 0
  closed : (Parens.after {} (before.codeFrom false)).closed
  before_ne : before.getLast? ≠ some ':'
  rest_ne : rest.head? ≠ some ':'

/-- A text divided at the colon before its member initializers. -/
structure ListCut (t head tail : Text) : Prop where
  text_eq : t = head ++ ':' :: tail
  colon : ListColon head tail
  guards : Parens.guards {} (head.codeFrom false)
  first : ∀ a b : Text, head = a ++ ':' :: b → ¬ ListColon a (b ++ ':' :: tail)

private theorem guards_located (inComment : Bool) (start : Nat) (t : Text) :
    Parens.guards {} ((t.locatedFrom inComment start).map Located.token) =
      Parens.guards {} (t.codeFrom inComment) := by
  rw [map_token_locatedFrom, Parens.guards_filter_isSolid]

private theorem after_located (inComment : Bool) (start : Nat) (t : Text) :
    Parens.after {} ((t.locatedFrom inComment start).map Located.token) =
      Parens.after {} (t.codeFrom inComment) := by
  rw [map_token_locatedFrom, Parens.after_filter_isSolid]

theorem findBody_locatedFrom_iff {t : Text} {start : Nat} {range : Nat × Nat} :
    Statement.findBody 0 (t.locatedFrom false start) = some range ↔
      ∃ head block tail, BodyCut t head block tail ∧ range.1 = start + byteLength head ∧
        range.2 = range.1 + byteLength block + 2 := by
  refine Iff.trans (Statement.findBody_eq_some_iff (p := {})) ⟨?_, ?_⟩
  · rintro ⟨before, brace, rest, htokens, hguards, hdepth, hbrace, hstart, hclose⟩
    obtain ⟨head, b, rfl, hhead, hoffset, rfl, rfl⟩ :=
      exists_cut_of_locatedFrom rfl htokens hbrace
    obtain ⟨inner, close, after, hrest, hbraces, hclose, hstop⟩ :=
      Statement.closeBody_eq_some_iff.mp hclose
    obtain ⟨block, tail, rfl, hblock, hoffset', rfl, -⟩ :=
      exists_cut_of_locatedFrom rfl hrest hclose
    rw [guards_located] at hguards
    rw [after_located] at hdepth
    rw [map_token_locatedFrom, Brackets.after_filter_isSolid] at hbraces
    refine ⟨head, block, tail, ⟨rfl, hhead, hblock, hguards, hdepth, hbraces⟩, by omega, by omega⟩
  · rintro ⟨head, block, tail, ⟨rfl, hhead, hblock, hguards, hdepth, hbraces⟩, hstart, hstop⟩
    refine ⟨head.locatedFrom false start, _, _, locatedFrom_plain rfl hhead start _, ?_, ?_, rfl,
      hstart, ?_⟩
    · rw [guards_located, hguards]
    · rw [after_located, hdepth]
    · refine Statement.closeBody_eq_some_iff.mpr ⟨_, _, _, locatedFrom_plain rfl hblock _ _, ?_, rfl, ?_⟩
      · rw [map_token_locatedFrom, Brackets.after_filter_isSolid, hbraces]
      · simp only [hstop, hstart]
        omega

private theorem byteLength_colon (a b : Text) :
    byteLength (a ++ ':' :: b) = byteLength a + 1 + byteLength b := by
  have hone : (':' : Char).utf8Size = 1 := rfl
  rw [byteLength_append, byteLength_cons, hone, Nat.add_assoc]

private theorem locatedFrom_nil (start : Nat) : locatedFrom false start [] = [] := rfl

/-- The token before a colon is its other half exactly when a colon stands there in the text. -/
private theorem isPair_getLast?_iff {a : Text} (ha : a.endsInCode false) (start : Nat) :
    ((a.locatedFrom false start).getLast?.any
        (Statement.isPair · ⟨start + byteLength a, .delimiter ':'⟩)) ↔ a.getLast? = some ':' := by
  constructor
  · intro h
    obtain ⟨l, hl, hpair⟩ := (Option.any_eq_true _ _).mp h
    simp only [Statement.isPair, Bool.and_eq_true, decide_eq_true_eq] at hpair
    obtain ⟨ls, hls⟩ := List.getLast?_eq_some_iff.mp hl
    obtain ⟨x, y, rfl, -, hoffset, -, -⟩ := exists_cut_of_locatedFrom rfl hls hpair.1.1
    have hy : byteLength y = 0 := by
      rw [byteLength_colon] at hpair
      omega
    simp [byteLength_eq_zero.mp hy]
  · intro h
    obtain ⟨x, rfl⟩ := List.getLast?_eq_some_iff.mp h
    rw [locatedFrom_plain rfl (endsInCode_of_plain rfl ha), byteLength_colon]
    simp [Statement.isPair, locatedFrom_nil, Nat.add_assoc]

private theorem isPair_head?_iff (b : Text) (start : Nat) :
    ((b.locatedFrom false (start + 1)).head?.any (Statement.isPair ⟨start, .delimiter ':'⟩)) ↔
      b.head? = some ':' := by
  constructor
  · intro h
    obtain ⟨l, hl, hpair⟩ := (Option.any_eq_true _ _).mp h
    simp only [Statement.isPair, Bool.and_eq_true, decide_eq_true_eq] at hpair
    obtain ⟨ls, hls⟩ := List.head?_eq_some_iff.mp hl
    have hcut : b.locatedFrom false (start + 1) = [] ++ l :: ls := hls
    obtain ⟨x, y, rfl, -, hoffset, -, -⟩ := exists_cut_of_locatedFrom rfl hcut hpair.1.2
    have hx : byteLength x = 0 := by omega
    simp [byteLength_eq_zero.mp hx]
  · intro h
    obtain ⟨y, rfl⟩ := List.head?_eq_some_iff.mp h
    have hnil : endsInCode false [] := rfl
    have hcut := locatedFrom_plain (c := ':') rfl hnil (start + 1) y
    rw [List.nil_append, locatedFrom_nil, List.nil_append] at hcut
    simp [hcut, Statement.isPair]

private theorem opensList_iff {before : Text} (h : before.endsInCode false) (start : Nat) (rest : Text) :
    Statement.opensList (Parens.after {} ((before.locatedFrom false start).map Located.token))
        (before.locatedFrom false start).getLast? ⟨start + byteLength before, .delimiter ':'⟩
        (rest.locatedFrom false (start + byteLength before + 1)).head? ↔ ListColon before rest := by
  have hlast := isPair_getLast?_iff h start
  have hnext := isPair_head?_iff rest (start + byteLength before)
  rw [after_located, Statement.opensList]
  simp only [Bool.and_eq_true, decide_eq_true_eq, Bool.not_eq_true', Bool.or_eq_false_iff,
    true_and]
  constructor
  · rintro ⟨⟨hdepth, hclosed⟩, hbefore, hrest⟩
    exact ⟨h, hdepth, hclosed, mt hlast.mpr (Bool.eq_false_iff.mp hbefore),
      mt hnext.mpr (Bool.eq_false_iff.mp hrest)⟩
  · rintro ⟨-, hdepth, hclosed, hbefore, hrest⟩
    exact ⟨⟨hdepth, hclosed⟩, Bool.eq_false_iff.mpr (mt hlast.mp hbefore),
      Bool.eq_false_iff.mpr (mt hnext.mp hrest)⟩

theorem findInitializers_locatedFrom_iff {t : Text} {start o : Nat} :
    Statement.findInitializers 0 false none (t.locatedFrom false start) = some o ↔
      ∃ head tail, ListCut t head tail ∧ o = start + byteLength head := by
  refine Iff.trans (Statement.findInitializers_eq_some_iff (p := {})) ⟨?_, ?_⟩
  · rintro ⟨before, colon, rest, htokens, hguards, hopens, ho, hfirst⟩
    have hcolon : colon.token = .delimiter ':' := by
      simp only [Statement.opensList, Bool.and_eq_true, decide_eq_true_eq] at hopens
      exact hopens.1.1.1
    obtain ⟨head, tail, rfl, hhead, hoffset, rfl, rfl⟩ := exists_cut_of_locatedFrom rfl htokens hcolon
    obtain rfl : colon = ⟨start + byteLength head, .delimiter ':'⟩ := by rw [← hoffset, ← hcolon]
    rw [Option.or_none, opensList_iff hhead] at hopens
    rw [guards_located] at hguards
    refine ⟨head, tail, ⟨rfl, hopens, hguards, ?_⟩, ho⟩
    -- An earlier colon of the text that opens a list would be an earlier token that does.
    rintro a b rfl hlist
    have hb : b.endsInCode false := by rw [← endsInCode_plain (c := ':') rfl hlist.inCode]; exact hhead
    have hcut := locatedFrom_plain (c := ':') rfl hlist.inCode start b
    have hopen := (opensList_iff hlist.inCode start (b ++ ':' :: tail)).mpr hlist
    rw [locatedFrom_plain (c := ':') rfl hb, Statement.head?_append_cons] at hopen
    have hnot := hfirst _ _ _ hcut
    rw [Option.or_none] at hnot
    have hoff : start + byteLength (a ++ ':' :: b) = start + byteLength a + 1 + byteLength b := by
      rw [byteLength_colon]
      omega
    rw [← hoff] at hopen
    exact Bool.eq_false_iff.mp hnot hopen
  · rintro ⟨head, tail, ⟨rfl, hlist, hguards, hfirst⟩, rfl⟩
    refine ⟨_, _, _, locatedFrom_plain rfl hlist.inCode start tail, ?_, ?_, rfl, ?_⟩
    · rw [guards_located, hguards]
    · rw [Option.or_none, opensList_iff hlist.inCode]
      exact hlist
    · intro before x after hsplit
      rw [Bool.eq_false_iff, Option.or_none]
      intro hopens
      have hx : x.token = .delimiter ':' := by
        simp only [Statement.opensList, Bool.and_eq_true, decide_eq_true_eq] at hopens
        exact hopens.1.1.1
      obtain ⟨a, b, rfl, ha, hoffset, rfl, rfl⟩ := exists_cut_of_locatedFrom rfl hsplit hx
      have hb : b.endsInCode false := by rw [← endsInCode_plain (c := ':') rfl ha]; exact hlist.inCode
      have hoff : start + byteLength (a ++ ':' :: b) = start + byteLength a + 1 + byteLength b := by
        rw [byteLength_colon]
        omega
      obtain rfl : x = ⟨start + byteLength a, .delimiter ':'⟩ := by rw [← hoffset, ← hx]
      rw [hoff, ← Statement.head?_append_cons _ _ (tail.locatedFrom false _),
        ← locatedFrom_plain rfl hb, opensList_iff ha] at hopens
      exact hfirst a b rfl hopens

/-- The initializer list starts before the body. -/
theorem ListCut.exists_before_body {t head tail front block back : Text} (hl : ListCut t head tail)
    (hb : BodyCut t front block back) : ∃ list, front = head ++ ':' :: list := by
  have h := hl.text_eq.symm.trans hb.text_eq
  rcases List.append_eq_append_iff.mp h with ⟨list, hfront, hlist⟩ | ⟨rest, rfl, hrest⟩
  · cases list with
    | nil => simp at hlist
    | cons c list =>
      obtain ⟨rfl, -⟩ := List.cons.inj hlist
      exact ⟨list, hfront⟩
  · cases rest with
    | nil => simp at hrest
    | cons c rest =>
      obtain ⟨rfl, -⟩ := List.cons.inj hrest
      have hguards := hl.guards
      rw [codeFrom_plain rfl hb.head_inCode, Parens.not_guards_of_mem (.inl rfl) hb.depth_eq] at hguards
      simp at hguards

end Text

namespace Document

variable {doc : Document} {i number : Nat} {front rest : Text}

theorem bodyRange_of_linesFrom (h : doc.linesFrom i = rest.linesAt number front.byteLength) :
    doc.bodyRange i = Statement.findBody 0 (rest.locatedFrom false front.byteLength) := by
  rw [bodyRange, h, Text.locateLines_linesAt]

theorem initializerStart_of_linesFrom (h : doc.linesFrom i = rest.linesAt number front.byteLength) :
    doc.initializerStart i =
      Statement.findInitializers 0 false none (rest.locatedFrom false front.byteLength) := by
  rw [initializerStart, h, Text.locateLines_linesAt]

end Document
end OutOfLine

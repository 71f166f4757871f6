import OutOfLine.Declaration.Signature
import OutOfLine.Proofs.Locators

/-!
# How a signature is split

The backward search for the opener of a group ends there, and what it passes on the way closes what it opens.
The split of a signature gives its tokens back: the name and its type before the parameter group, the
arguments and `final` marks between them, the trailing tokens after it, and the member initializers
after a colon that stands alone.
-/

namespace OutOfLine
namespace Signature

/-- Whether a token opens a member initializer list: a lone colon outside parentheses and after a
closed group. The tokens before it are held last first. -/
def opensAt (p : Parens) (before : List Token) (t : Token) (rest : List Token) : Bool :=
  t = .delimiter ':' && p.depth = 0 && p.closed &&
    before.head? ≠ some (.delimiter ':') && rest.head? ≠ some (.delimiter ':')

theorem splitInitializers_cons (p : Parens) (before : List Token) (t : Token) (ts : List Token) :
    splitInitializers p.depth p.closed before (t :: ts) =
      if opensAt p before t ts then some (before, ts)
      else splitInitializers (p.step t).depth (p.step t).closed (t :: before) ts := by
  conv => lhs; unfold splitInitializers
  split <;> simp_all [Parens.step, opensAt, and_assoc]

/-- Tokens without delimiters in front of a signature do not change where its list starts. -/
theorem opensAt_lead {lead head after rest : List Token}
    (hlead : ∀ c, .delimiter c ∉ lead)
    (h : opensAt (Parens.after {} head) head.reverse (.delimiter ':') after)
    (hrest : rest.head? = after.head?) :
    opensAt (Parens.after {} (lead ++ head)) (lead ++ head).reverse (.delimiter ':') rest := by
  have hparens : Parens.after {} (lead ++ head) = Parens.after {} head := by
    rw [Parens.after_append, Parens.after_of_not_mem (hlead '(') (hlead ')')]
  simp only [opensAt, Bool.and_eq_true, decide_eq_true_eq] at h ⊢
  rw [hparens, hrest]
  refine ⟨⟨h.1.1, ?_⟩, h.2⟩
  rw [List.reverse_append]
  cases hhead : head.reverse with
  | nil =>
    have hmem := Parens.mem_of_closed rfl h.1.1.2
    rw [List.reverse_eq_nil_iff.mp hhead] at hmem
    simp at hmem
  | cons t ts =>
    have hprev := h.1.2
    rw [hhead] at hprev
    exact hprev

theorem splitInitializers_eq_none_iff {p : Parens} {before ts : List Token} :
    splitInitializers p.depth p.closed before ts = none ↔
      ∀ a x b, ts = a ++ x :: b → opensAt (p.after a) (a.reverse ++ before) x b = false := by
  induction ts generalizing p before with
  | nil => simp [splitInitializers]
  | cons t ts ih =>
    rw [splitInitializers_cons, forall_append_cons_iff]
    simp only [Parens.after_nil, Parens.after_cons, List.reverse_nil, List.nil_append, List.reverse_cons,
      List.append_assoc, List.singleton_append]
    split
    · next h => simp [h]
    · next h => rw [ih, Bool.eq_false_iff, and_iff_right h]

/-- The list starts at the first token that opens one. -/
theorem splitInitializers_eq_some_iff {p : Parens} {before ts front after : List Token} :
    splitInitializers p.depth p.closed before ts = some (front, after) ↔
      ∃ head colon, ts = head ++ colon :: after ∧ front = head.reverse ++ before ∧
        opensAt (p.after head) front colon after ∧
        ∀ a x b, head = a ++ x :: b →
          opensAt (p.after a) (a.reverse ++ before) x (b ++ colon :: after) = false := by
  induction ts generalizing p before with
  | nil => simp [splitInitializers]
  | cons t ts ih =>
    rw [splitInitializers_cons]
    split
    · next hopens =>
      -- The first token opens the list, so no other one can be the first to do so.
      rw [Option.some.injEq, Prod.mk.injEq]
      constructor
      · rintro ⟨rfl, rfl⟩
        exact ⟨[], t, rfl, rfl, hopens, by simp⟩
      · rintro ⟨head, colon, heq, rfl, -, hfirst⟩
        cases head with
        | nil => exact ⟨rfl, (List.cons.inj heq).2⟩
        | cons x head =>
          rw [List.cons_append, List.cons.injEq] at heq
          obtain ⟨rfl, rfl⟩ := heq
          exact absurd hopens (Bool.eq_false_iff.mp (hfirst [] t head rfl))
    · next hopens =>
      rw [ih]
      constructor
      · rintro ⟨head, colon, rfl, rfl, hcolon, hfirst⟩
        refine ⟨t :: head, colon, rfl, by simp, hcolon, ?_⟩
        intro a x b hab
        cases a with
        | nil =>
          obtain ⟨rfl, rfl⟩ := List.cons.inj hab
          exact Bool.eq_false_iff.mpr hopens
        | cons y a =>
          rw [List.cons_append, List.cons.injEq] at hab
          obtain ⟨rfl, rfl⟩ := hab
          simpa using hfirst a x b rfl
      · rintro ⟨head, colon, heq, rfl, hcolon, hfirst⟩
        cases head with
        | nil =>
          obtain ⟨rfl, rfl⟩ := List.cons.inj heq
          exact absurd hcolon hopens
        | cons x head =>
          rw [List.cons_append, List.cons.injEq] at heq
          obtain ⟨rfl, rfl⟩ := heq
          refine ⟨head, colon, rfl, by simp, hcolon, ?_⟩
          rintro a x b rfl
          simpa using hfirst (t :: a) x b rfl

theorem unwind_eq_some {opener closer : Char} {depth : Nat} {latest inside before : List Token}
    (h : unwind opener closer depth latest = some (inside, before)) :
    latest = inside ++ .delimiter opener :: before := by
  induction latest generalizing depth inside with
  | nil => simp [unwind] at h
  | cons t latest ih =>
    have hnext (n : Nat) (hn : (unwind opener closer n latest).map
        (fun parts => (t :: parts.1, parts.2)) = some (inside, before)) :
        t :: latest = inside ++ .delimiter opener :: before := by
      obtain ⟨⟨inside', before'⟩, hrest, heq⟩ := Option.map_eq_some_iff.mp hn
      obtain ⟨rfl, rfl⟩ := Prod.mk.inj heq
      rw [ih hrest, List.cons_append]
    rw [unwind] at h
    split at h
    · exact hnext _ h
    · split at h
      · next ht =>
        split at h
        · obtain ⟨rfl, rfl⟩ := Prod.mk.inj (Option.some.inj h)
          rw [ht, List.nil_append]
        · exact hnext _ h
      · exact hnext _ h

section Brackets

variable {opener closer : Char} {depth depth' : Nat} {ts : List Token}

/-- Read backwards, brackets are open as they were forwards. -/
theorem unwind_reverse (hne : opener ≠ closer) (hpos : 1 ≤ depth)
    (h : Brackets.after opener closer depth ts = some depth') (before : List Token) :
    unwind opener closer depth' (ts.reverse ++ before) =
      (unwind opener closer depth before).map fun parts => (ts.reverse ++ parts.1, parts.2) := by
  induction ts generalizing depth before with
  | nil =>
    obtain rfl := Option.some.inj h
    simp
  | cons t ts ih =>
    have hmore (next : Nat) (hnext : 1 ≤ next) (h : Brackets.after opener closer next ts = some depth')
        (hstep : unwind opener closer next (t :: before) =
          (unwind opener closer depth before).map fun parts => (t :: parts.1, parts.2)) :
        unwind opener closer depth' ((t :: ts).reverse ++ before) =
          (unwind opener closer depth before).map
            fun parts => ((t :: ts).reverse ++ parts.1, parts.2) := by
      rw [List.reverse_cons, List.append_assoc, List.singleton_append, ih hnext h, hstep, Option.map_map]
      simp [Function.comp_def]
    rw [Brackets.after] at h
    split at h
    · next ht =>
      refine hmore _ (by omega) h ?_
      rw [unwind, if_neg (by simp [ht, hne]), if_pos ht, if_neg (by omega),
        Nat.add_sub_cancel]
    · next ht =>
      split at h
      · next hclose =>
        split at h
        · simp at h
        · refine hmore _ (by omega) h ?_
          rw [unwind, if_pos hclose, Nat.sub_add_cancel hpos]
      · next hclose =>
        refine hmore _ hpos h ?_
        rw [unwind, if_neg hclose, if_neg ht]

/-- The backward search stops at the opener of balanced tokens. -/
theorem unwind_balanced (hne : opener ≠ closer) (h : Brackets.Balanced opener closer ts) (before : List Token) :
    unwind opener closer 1 (ts.reverse ++ .delimiter opener :: before) =
      some (ts.reverse, before) := by
  have hopen : unwind opener closer 1 (.delimiter opener :: before) = some ([], before) := by
    rw [unwind, if_neg (by simp [hne]), if_pos rfl, if_pos rfl]
  rw [unwind_reverse hne (le_refl 1) h, hopen]
  simp

/-- What the backward search passes leaves as many brackets open as it started inside. -/
theorem after_of_unwind {latest inside before : List Token} (hne : opener ≠ closer) (hpos : 1 ≤ depth)
    (h : unwind opener closer depth latest = some (inside, before)) :
    Brackets.after opener closer 1 inside.reverse = some depth := by
  induction latest generalizing depth inside with
  | nil => simp [unwind] at h
  | cons t latest ih =>
    have hmore (next : Nat) (hnext : 1 ≤ next)
        (h : (unwind opener closer next latest).map (fun parts => (t :: parts.1, parts.2)) =
          some (inside, before)) (hstep : Brackets.after opener closer next [t] = some depth) :
        Brackets.after opener closer 1 inside.reverse = some depth := by
      obtain ⟨⟨inside', before'⟩, hrest, heq⟩ := Option.map_eq_some_iff.mp h
      obtain ⟨rfl, rfl⟩ := Prod.mk.inj heq
      rw [List.reverse_cons, Brackets.after_append, ih hnext hrest, Option.bind_some, hstep]
    rw [unwind] at h
    split at h
    · next ht =>
      refine hmore (depth + 1) (by omega) h ?_
      rw [Brackets.after, if_neg (by simp [ht, hne.symm]), if_pos ht, if_neg (by omega), Nat.add_sub_cancel]
      rfl
    · next hclose =>
      split at h
      · next ht =>
        split at h
        · next hd =>
          obtain ⟨rfl, -⟩ := Prod.mk.inj (Option.some.inj h)
          rw [hd]
          rfl
        · refine hmore (depth - 1) (by omega) h ?_
          rw [Brackets.after, if_pos ht, Nat.sub_add_cancel hpos]
          rfl
      · next hopen =>
        refine hmore depth hpos h ?_
        rw [Brackets.after, if_neg hopen, if_neg hclose]
        rfl

end Brackets

/-- A token that may stand between a name and its arguments or parameters. -/
def isFiller (t : Token) : Bool := t.isSpace || t == .word "final".toList

theorem exists_skipFinal (latest : List Token) :
    ∃ filler, latest = filler ++ skipFinal latest ∧ ∀ t ∈ filler, isFiller t :=
  ⟨latest.takeWhile isFiller, (List.takeWhile_append_dropWhile ..).symm,
    fun _ ht => List.mem_takeWhile_imp ht⟩

/-- What may stand between a name and its parameters, last first: fillers, and the template arguments
of the record. -/
inductive Between : Option Text → List Token → Prop
  | fillers {filler : List Token} (h : ∀ t ∈ filler, isFiller t) : Between none filler
  | arguments {filler inner filler' : List Token} (h : ∀ t ∈ filler, isFiller t)
    (h' : ∀ t ∈ filler', isFiller t) :
    Between (some (textOf inner)) (filler ++ .delimiter '>' :: (inner ++ .delimiter '<' :: filler'))

theorem takeTemplateArgs_eq_some {latest named : List Token} {args : Option Text}
    (h : takeTemplateArgs latest = some (args, named)) :
    ∃ between, latest = between ++ named ∧ Between args between := by
  obtain ⟨filler, hlatest, hfiller⟩ := exists_skipFinal latest
  unfold takeTemplateArgs at h
  split at h
  · next rest hrest =>
    obtain ⟨⟨inner, before⟩, hunwind, heq⟩ := Option.map_eq_some_iff.mp h
    obtain ⟨rfl, rfl⟩ := Prod.mk.inj heq
    obtain ⟨filler', hbefore, hfiller'⟩ := exists_skipFinal before
    refine ⟨filler ++ .delimiter '>' :: (inner ++ .delimiter '<' :: filler'), ?_,
      .arguments hfiller hfiller'⟩
    rw [hlatest, hrest, unwind_eq_some hunwind]
    simp [← hbefore]
  · obtain ⟨rfl, rfl⟩ := Prod.mk.inj (Option.some.inj h)
    exact ⟨filler, hlatest, .fillers hfiller⟩

/-- The mark of a name and the tokens of its type, given the word of the name and what stands before
it. -/
def marked (word : Text) (before : List Token) : Option Indirection × List Token :=
  match (takeReference word).1, before with
  | none, .delimiter '*' :: type => (some .pointer, type)
  | reference, type => (reference, type)

@[simp] theorem textOf_cons (t : Token) (latest : List Token) :
    textOf (t :: latest) = textOf latest ++ t.text := by
  simp [textOf]

@[simp] theorem textOf_append (a b : List Token) : textOf (a ++ b) = textOf b ++ textOf a := by
  simp [textOf]

theorem takeReference_text (word : Text) :
    (takeReference word).1.elim [] Indirection.text ++ (takeReference word).2 = word := by
  unfold takeReference
  split <;> rfl

theorem textOf_marked (word : Text) (before : List Token) :
    textOf (.word word :: before) = textOf (marked word before).2 ++
      (marked word before).1.elim [] Indirection.text ++ (takeReference word).2 := by
  have hword := takeReference_text word
  unfold marked
  split
  · next type hnone =>
    rw [hnone, Option.elim_none, List.nil_append] at hword
    simp [hword, Token.text, Indirection.text]
  · simp [hword, Token.text]

/-- The tokens after the last closing parenthesis, held last first. -/
def afterClose (latest : List Token) : List Token := latest.takeWhile (· ≠ .delimiter ')')

theorem close_not_mem_afterClose (latest : List Token) : .delimiter ')' ∉ afterClose latest := by
  intro h
  simpa using List.mem_takeWhile_imp h

/-- The trailing tokens are followed by the parenthesis, if there is one. -/
theorem afterClose_cut (latest : List Token) :
    latest.drop ((afterClose latest).length + 1) = [] ∨
      latest = afterClose latest ++ .delimiter ')' :: latest.drop ((afterClose latest).length + 1) := by
  induction latest with
  | nil => exact .inl rfl
  | cons t latest ih =>
    by_cases ht : t = .delimiter ')'
    · subst ht
      exact .inr (by simp [afterClose])
    · have hcons : afterClose (t :: latest) = t :: afterClose latest := by simp [afterClose, ht]
      rw [hcons, List.length_cons, List.drop_succ_cons]
      rcases ih with hnil | hcut
      · exact .inl hnil
      · exact .inr (congrArg (List.cons t) hcut)

/-- The parts of a split signature without member initializers, in the tokens it was split from. -/
structure SplitFrom (s : Signature) (latest : List Token) (type between params : List Token) :
    Prop where
  latest_eq : ∃ named, latest = s.trailing.reverse ++
    .delimiter ')' :: (params ++ .delimiter '(' :: (between ++ named)) ∧
    textOf named = textOf type ++ s.indirection.elim [] Indirection.text ++ s.name
  close_not_mem : .delimiter ')' ∉ s.trailing
  between : Between s.templateArgs between
  returnType_eq : s.returnType = (textOf type).trim
  parameters_eq : s.parameters = textOf params
  initializers_eq : s.initializers = none

/-- What a signature without member initializers is split into. -/
theorem exists_of_ofLatest {latest : List Token} {s : Signature} (h : ofLatest latest = .ok s) :
    ∃ params rest args word before,
      unwind '(' ')' 1 (latest.drop ((afterClose latest).length + 1)) = some (params, rest) ∧
      takeTemplateArgs rest = some (args, .word word :: before) ∧
      (takeReference word).2 ≠ [] ∧ (takeReference word).2 ∉ statementKeywords ∧
      s = {
        returnType := (textOf (marked word before).2).trim
        templateArgs := args
        indirection := (marked word before).1
        name := (takeReference word).2
        parameters := textOf params
        trailing := (afterClose latest).reverse
        initializers := none } := by
  unfold ofLatest at h
  dsimp only at h
  split at h
  · next group hgroup =>
    split at h
    · next args named hargs =>
      split at h
      · next word before =>
        split at h
        · simp [throw, throwThe, MonadExceptOf.throw, bind, Except.bind] at h
        · next hname =>
          split at h
          · simp [throw, throwThe, MonadExceptOf.throw, bind, Except.bind] at h
          · next hkeyword =>
            exact ⟨group.1, group.2, args, word, before, hgroup, hargs, by simpa using hname, hkeyword,
              (Except.ok.inj h).symm⟩
      · simp [throw, throwThe, MonadExceptOf.throw] at h
    · simp [throw, throwThe, MonadExceptOf.throw] at h
  · simp [throw, throwThe, MonadExceptOf.throw] at h

/-- The parameter group in the tokens that a signature is split from. -/
theorem eq_of_unwind_drop {latest inside before : List Token}
    (h : unwind '(' ')' 1 (latest.drop ((afterClose latest).length + 1)) = some (inside, before)) :
    latest = afterClose latest ++ .delimiter ')' :: (inside ++ .delimiter '(' :: before) := by
  have hunwind := unwind_eq_some h
  rcases afterClose_cut latest with hnil | hcut
  · exact absurd (hnil.symm.trans hunwind) (by simp)
  · rwa [hunwind] at hcut

theorem exists_splitFrom {latest : List Token} {s : Signature} (h : ofLatest latest = .ok s) :
    ∃ type between params, SplitFrom s latest type between params := by
  obtain ⟨params, rest, args, word, before, hgroup, hargs, -, -, rfl⟩ := exists_of_ofLatest h
  obtain ⟨between, hrest, hbetween⟩ := takeTemplateArgs_eq_some hargs
  refine ⟨(marked word before).2, between, params, ⟨_, ?_, textOf_marked word before⟩, ?_, hbetween,
    rfl, rfl, rfl⟩
  · have hlatest := eq_of_unwind_drop hgroup
    rw [hrest] at hlatest
    simpa using hlatest
  · simpa using close_not_mem_afterClose latest

/-- Tokens after the parameter group are trailing tokens and nothing else. -/
theorem ofLatest_append {more : List Token} (hmore : .delimiter ')' ∉ more) (latest : List Token) :
    ofLatest (more ++ latest) =
      (ofLatest latest).map fun s => { s with trailing := s.trailing ++ more.reverse } := by
  have htake : (more ++ latest).takeWhile (· ≠ .delimiter ')') =
      more ++ latest.takeWhile (· ≠ .delimiter ')') := by
    refine List.takeWhile_append_of_pos fun t ht => ?_
    simp only [ne_eq, decide_not, Bool.not_eq_true', decide_eq_false_iff_not]
    rintro rfl
    exact hmore ht
  have hdrop : (more ++ latest).drop ((more ++ latest.takeWhile (· ≠ .delimiter ')')).length + 1) =
      latest.drop ((latest.takeWhile (· ≠ .delimiter ')')).length + 1) := by
    rw [List.length_append, Nat.add_assoc, List.drop_append]
    simp
  unfold ofLatest
  dsimp only
  rw [htake, hdrop]
  cases unwind '(' ')' 1 (latest.drop ((latest.takeWhile (· ≠ .delimiter ')')).length + 1)) with
  | none => rfl
  | some group =>
    dsimp only
    cases takeTemplateArgs group.2 with
    | none => rfl
    | some parts =>
      obtain ⟨args, named⟩ := parts
      dsimp only
      split
      · split
        · rfl
        · split
          · rfl
          · simp [pure, Except.pure, Except.map]
      · rfl

/-- A signature splits at the colon of its initializers, if there is one, and the part before it is
split from the end. -/
theorem ofTokens_eq_ok_iff {ts : List Token} {s : Signature} :
    ofTokens ts = .ok s ↔
      (splitInitializers 0 false [] ts = none ∧ ofLatest ts.reverse = .ok s) ∨
        ∃ before after s', splitInitializers 0 false [] ts = some (before, after) ∧
          ofLatest before = .ok s' ∧ (Token.concat after).trim.getLast? = some ')' ∧
          s = { s' with initializers := some (Token.concat after).trim } := by
  unfold ofTokens
  cases hsplit : splitInitializers 0 false [] ts with
  | none => simp
  | some parts =>
    obtain ⟨before, after⟩ := parts
    simp only [reduceCtorEq, false_and, false_or, Option.some.injEq, Prod.mk.injEq]
    by_cases hlast : (Token.concat after).trim.getLast? = some ')'
    · simp only [hlast, ne_eq, not_true_eq_false, if_false]
      cases hofLatest : ofLatest before with
      | error issue =>
        simp only [bind, Except.bind, reduceCtorEq, false_iff, not_exists]
        rintro _ _ s' ⟨⟨rfl, rfl⟩, hs', -⟩
        simp [hofLatest] at hs'
      | ok s' =>
        simp only [bind, Except.bind, pure, Except.pure, Except.ok.injEq]
        constructor
        · rintro rfl
          exact ⟨before, after, s', ⟨rfl, rfl⟩, hofLatest, hlast, rfl⟩
        · rintro ⟨_, _, s'', ⟨rfl, rfl⟩, hs'', -, rfl⟩
          rw [hofLatest, Except.ok.injEq] at hs''
          rw [hs'']
    · simp only [hlast, ne_eq, not_false_eq_true, if_true, throw, throwThe, MonadExceptOf.throw, bind,
        Except.bind, reduceCtorEq, false_iff, not_exists]
      rintro _ _ s' ⟨⟨rfl, rfl⟩, -, hlast', -⟩
      exact hlast hlast'

theorem ofLatest_of_ok {ts : List Token} {s : Signature} (h : ofTokens ts = .ok s)
    (hinit : s.initializers = none) :
    splitInitializers 0 false [] ts = none ∧ ofLatest ts.reverse = .ok s := by
  rcases ofTokens_eq_ok_iff.mp h with hsplit | ⟨_, _, _, -, -, -, rfl⟩
  · exact hsplit
  · simp at hinit

/-- A signature with initializers is one without them, a colon that opens a list, and the list. -/
theorem exists_before_list {ts : List Token} {s : Signature} {list : Text} (h : ofTokens ts = .ok s)
    (hinit : s.initializers = some list) :
    ∃ head after s', ts = head ++ .delimiter ':' :: after ∧
      opensAt (Parens.after {} head) head.reverse (.delimiter ':') after ∧ after ≠ [] ∧
      (Token.concat after).trim = list ∧ ofTokens head = .ok s' ∧ s'.initializers = none ∧
      s = { s' with initializers := some list } := by
  rcases ofTokens_eq_ok_iff.mp h with ⟨-, hok⟩ | ⟨front, after, s', hsplit, hok, hlast, rfl⟩
  · obtain ⟨_, _, _, hfrom⟩ := exists_splitFrom hok
    simp [hfrom.initializers_eq] at hinit
  obtain ⟨head, colon, rfl, rfl, hopens, hbefore⟩ := (splitInitializers_eq_some_iff (p := {})).mp hsplit
  rw [List.append_nil] at hok hopens
  have hparts := hopens
  simp only [opensAt, Bool.and_eq_true, decide_eq_true_eq] at hparts
  obtain ⟨⟨⟨⟨rfl, -⟩, -⟩, hprev⟩, -⟩ := hparts
  have hnone : splitInitializers 0 false [] head = none := by
    refine (splitInitializers_eq_none_iff (p := {})).mpr fun a x b hab => ?_
    have hfalse := hbefore a x b hab
    cases b with
    | nil =>
      have hx : x ≠ .delimiter ':' := by
        rintro rfl
        simp [hab] at hprev
      simp [opensAt, hx]
    | cons y b => exact hfalse
  obtain ⟨_, _, _, hfrom⟩ := exists_splitFrom hok
  refine ⟨head, after, s', rfl, hopens, ?_, Option.some.inj hinit,
    ofTokens_eq_ok_iff.mpr (.inl ⟨hnone, hok⟩), hfrom.initializers_eq, by rw [← hinit]⟩
  rintro rfl
  simp [Text.trim, Text.trimStart, Text.trimEnd] at hlast

/-- A signature that is split has a parameter group. -/
theorem close_mem_of_ok {ts : List Token} {s : Signature} (h : ofTokens ts = .ok s) :
    .delimiter ')' ∈ ts := by
  rcases ofTokens_eq_ok_iff.mp h with ⟨-, hs⟩ | ⟨before, after, s', hsplit, hs, -, -⟩
  · obtain ⟨_, _, _, ⟨_, hlatest, -⟩, -⟩ := exists_splitFrom hs
    rw [← List.mem_reverse, hlatest]
    simp
  · obtain ⟨_, _, _, ⟨_, hlatest, -⟩, -⟩ := exists_splitFrom hs
    obtain ⟨head, colon, rfl, hbefore, -⟩ := (splitInitializers_eq_some_iff (p := {})).mp hsplit
    have hmem : .delimiter ')' ∈ before := by rw [hlatest]; simp
    rw [hbefore, List.append_nil, List.mem_reverse] at hmem
    exact List.mem_append_left _ hmem

end Signature
end OutOfLine

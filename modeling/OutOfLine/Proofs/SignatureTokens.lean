import OutOfLine.Proofs.Brackets
import OutOfLine.Proofs.ShortenedSource
import Mathlib.Data.List.Chain

/-!
# Reading a signature from its tokens

A signature is a type, the word of a name, optional template arguments and a parameter group. When its
brackets are balanced and no colon outside parentheses stands alone, the reader takes all of it as
signature and the split from the end finds these parts.
-/

namespace OutOfLine

theorem Parens.depth_after_congr {p q : Parens} (h : p.depth = q.depth) (ts : List Token) :
    (p.after ts).depth = (q.after ts).depth := by
  induction ts generalizing p q with
  | nil => exact h
  | cons t ts ih =>
    refine ih ?_
    unfold step
    split <;> simp [h]

namespace Signature

/-- No colon outside parentheses stands alone. -/
def Paired (ts : List Token) : Prop :=
  ∀ a b, ts = a ++ .delimiter ':' :: b → (Parens.after {} a).depth = 0 →
    a.getLast? = some (.delimiter ':') ∨ b.head? = some (.delimiter ':')

/-- Tokens that leave as many parentheses open as before and have no lone colon outside their own. -/
structure Tight (ts : List Token) : Prop where
  depth_eq : ∀ p : Parens, (p.after ts).depth = p.depth
  paired : Paired ts

theorem Tight.append {ts us : List Token} (hts : Tight ts) (hus : Tight us) : Tight (ts ++ us) := by
  constructor
  · intro p
    rw [Parens.after_append, hus.depth_eq, hts.depth_eq]
  · intro a b hab hdepth
    have hright (c : List Token) (ha : a = ts ++ c) (hc : us = c ++ .delimiter ':' :: b) :
        a.getLast? = some (.delimiter ':') ∨ b.head? = some (.delimiter ':') := by
      have hdepth' : (Parens.after {} c).depth = 0 := by
        rw [ha, Parens.after_append] at hdepth
        rwa [← Parens.depth_after_congr (hts.depth_eq {})]
      refine (hus.paired c b hc hdepth').imp_left fun hlast => ?_
      rw [ha, List.getLast?_append, hlast, Option.some_or]
    rcases List.append_eq_append_iff.mp hab with ⟨c, ha, hc⟩ | ⟨c, hts', hc⟩
    · exact hright c ha hc
    · cases c with
      | nil => exact hright [] (by simpa using hts'.symm) (by simpa using hc.symm)
      | cons x c =>
        rw [List.cons_append, List.cons.injEq] at hc
        obtain ⟨rfl, rfl⟩ := hc
        refine (hts.paired a c hts' hdepth).imp_right fun hhead => ?_
        rw [List.head?_append, hhead, Option.some_or]

theorem paired_of_not_mem {ts : List Token} (h : .delimiter ':' ∉ ts) : Paired ts := by
  rintro a b rfl
  simp at h

theorem tight_of_not_mem {ts : List Token} (hopen : .delimiter '(' ∉ ts) (hclose : .delimiter ')' ∉ ts)
    (hcolon : .delimiter ':' ∉ ts) : Tight ts :=
  ⟨fun p => by rw [Parens.after_of_not_mem hopen hclose], paired_of_not_mem hcolon⟩

theorem tight_pair : Tight [.delimiter ':', .delimiter ':'] := by
  refine ⟨fun p => rfl, fun a b hab _ => ?_⟩
  match a, hab with
  | [], hab =>
    obtain rfl := (List.cons.inj hab).2
    exact .inr rfl
  | [x], hab =>
    obtain rfl := (List.cons.inj hab).1
    exact .inl rfl
  | _ :: _ :: a, hab => simp at hab

/-- A parameter group. -/
theorem tight_parens {ts : List Token} (h : Brackets.Balanced '(' ')' ts) :
    Tight (.delimiter '(' :: (ts ++ [.delimiter ')'])) := by
  constructor
  · intro p
    have hdepth : ((p.step (.delimiter '(')).after ts).depth + 1 = p.depth + 1 + 1 :=
      Brackets.depth_parens (h.after_eq (by omega))
    rw [Parens.after_cons, Parens.after_append, Parens.after_cons, Parens.after_nil]
    change ((p.step (.delimiter '(')).after ts).depth - 1 = p.depth
    omega
  · intro a b hab hdepth
    cases a with
    | nil => simp at hab
    | cons x a =>
      rw [List.cons_append, List.cons.injEq] at hab
      obtain ⟨rfl, hab⟩ := hab
      obtain ⟨c, rfl⟩ : ∃ c, ts = a ++ c := by
        rcases List.append_eq_append_iff.mp hab with ⟨c, ha, hc⟩ | ⟨c, hc, -⟩
        · cases c with
          | nil => exact ⟨[], by simpa using ha.symm⟩
          | cons y c => simp at hc
        · exact ⟨c, hc⟩
      -- The parenthesis in front is open at the colon.
      obtain ⟨depth, hafter, hpos⟩ := Brackets.exists_after_of_append h
      have hadd : Brackets.after '(' ')' (1 + 1) a = some (depth + 1) :=
        Brackets.after_add (le_refl 1) hafter 1
      have := Brackets.depth_parens (p := Parens.step {} (.delimiter '(')) hadd
      rw [Parens.after_cons] at hdepth
      omega

theorem Tight.splitInitializers_eq {ts : List Token} (h : Tight ts) :
    splitInitializers 0 false [] ts = none := by
  refine (splitInitializers_eq_none_iff (p := {})).mpr fun a x b hab => ?_
  by_cases hx : x = .delimiter ':'
  · subst hx
    by_cases hdepth : (Parens.after {} a).depth = 0
    · rcases h.paired a b hab hdepth with hlast | hhead
      · simp [opensAt, hlast]
      · simp [opensAt, hhead]
    · simp [opensAt, hdepth]
  · simp [opensAt, hx]

/-- What may stand between the angle brackets of template arguments. -/
structure Arguments (ts : List Token) : Prop where
  angles : Brackets.Balanced '<' '>' ts
  parens : Brackets.Balanced '(' ')' ts
  paired : Paired ts

theorem Arguments.tight {ts : List Token} (h : Arguments ts) : Tight ts := by
  refine ⟨fun p => ?_, h.paired⟩
  have hafter : Brackets.after '(' ')' (p.depth + 1) ts = some (p.depth + 1) :=
    h.parens.after_eq (by omega)
  have hdepth := Brackets.depth_parens hafter
  omega

/-- The tokens of a type: words, pairs of colons, stars, spaces and template arguments. The end of a
comment that was not opened counts as a mark like others. -/
inductive TypeTokens : List Token → Prop
  | nil : TypeTokens []
  | word {w : Text} {ts : List Token} (hw : w ≠ "const".toList) (hts : TypeTokens ts) :
    TypeTokens (.word w :: ts)
  | space {c : Char} {ts : List Token} (hts : TypeTokens ts) : TypeTokens (.space c :: ts)
  | star {ts : List Token} (hts : TypeTokens ts) : TypeTokens (.delimiter '*' :: ts)
  | commentClose {ts : List Token} (hts : TypeTokens ts) : TypeTokens (.commentClose :: ts)
  | pair {ts : List Token} (hts : TypeTokens ts) :
    TypeTokens (.delimiter ':' :: .delimiter ':' :: ts)
  | arguments {inner ts : List Token} (hinner : Arguments inner) (hts : TypeTokens ts) :
    TypeTokens (.delimiter '<' :: (inner ++ .delimiter '>' :: ts))

theorem TypeTokens.append {ts us : List Token} (hts : TypeTokens ts) (hus : TypeTokens us) :
    TypeTokens (ts ++ us) := by
  induction hts with
  | nil => exact hus
  | word hw _ ih => exact .word hw ih
  | space _ ih => exact .space ih
  | star _ ih => exact .star ih
  | commentClose _ ih => exact .commentClose ih
  | pair _ ih => exact .pair ih
  | @arguments inner ts hinner _ ih =>
    rw [List.cons_append, List.append_assoc, List.cons_append]
    exact .arguments hinner ih

theorem TypeTokens.tight {ts : List Token} (h : TypeTokens ts) : Tight ts := by
  have hsingle (t : Token) (ht : ∀ c ∈ ['(', ')', ':'], t ≠ .delimiter c) : Tight [t] := by
    refine tight_of_not_mem ?_ ?_ ?_
    · simpa using Ne.symm (ht '(' (by simp))
    · simpa using Ne.symm (ht ')' (by simp))
    · simpa using Ne.symm (ht ':' (by simp))
  induction h with
  | nil => exact tight_of_not_mem (by simp) (by simp) (by simp)
  | word _ _ ih => exact (hsingle _ (by simp)).append ih
  | space _ ih => exact (hsingle _ (by simp)).append ih
  | star _ ih => exact (hsingle _ (by simp)).append ih
  | commentClose _ ih => exact (hsingle _ (by simp)).append ih
  | pair _ ih => exact tight_pair.append ih
  | @arguments inner ts hinner _ ih =>
    have hopen := hsingle (.delimiter '<') (by simp)
    have hclose := hsingle (.delimiter '>') (by simp)
    simpa using ((hopen.append hinner.tight).append hclose).append ih

/-- The tokens of optional template arguments. -/
def argumentTokens : Option (List Token) → List Token
  | none => []
  | some inner => .delimiter '<' :: (inner ++ [.delimiter '>'])

/-- The tokens of a signature: its type, the word of its name, its arguments and its parameters. -/
structure Parts where
  type : List Token
  word : Text
  args : Option (List Token)
  params : List Token
  type_tokens : TypeTokens type
  not_const : word ≠ "const".toList
  name_ne : (takeReference word).2 ≠ []
  name_not_mem : (takeReference word).2 ∉ statementKeywords
  arguments : ∀ inner ∈ args, Arguments inner
  balanced : Brackets.Balanced '(' ')' params

namespace Parts

def tokens (s : Parts) : List Token :=
  s.type ++ .word s.word ::
    (argumentTokens s.args ++ .delimiter '(' :: (s.params ++ [.delimiter ')']))

def signature (s : Parts) : Signature where
  returnType := (textOf (marked s.word s.type.reverse).2).trim
  templateArgs := s.args.map Token.concat
  indirection := (marked s.word s.type.reverse).1
  name := (takeReference s.word).2
  parameters := Token.concat s.params
  trailing := []
  initializers := none

/-- The tokens before the parameter group. -/
def front (s : Parts) : List Token := s.type ++ .word s.word :: argumentTokens s.args

theorem tokens_eq (s : Parts) :
    s.tokens = s.front ++ .delimiter '(' :: (s.params ++ [.delimiter ')']) := by
  simp [tokens, front]

theorem typeTokens_front (s : Parts) : TypeTokens s.front := by
  refine s.type_tokens.append (.word s.not_const ?_)
  cases hargs : s.args with
  | none => exact .nil
  | some inner => exact .arguments (s.arguments inner hargs) .nil

theorem tight (s : Parts) : Tight s.tokens := by
  rw [s.tokens_eq]
  exact s.typeTokens_front.tight.append (tight_parens s.balanced)

theorem takeTemplateArgs_eq (s : Parts) (hfinal : s.word ≠ "final".toList) :
    takeTemplateArgs ((argumentTokens s.args).reverse ++ .word s.word :: s.type.reverse) =
      some (s.args.map Token.concat, .word s.word :: s.type.reverse) := by
  have hskip : skipFinal (.word s.word :: s.type.reverse) = .word s.word :: s.type.reverse :=
    List.dropWhile_cons_of_neg (by simpa [Token.isSpace] using hfinal)
  cases hargs : s.args with
  | none =>
    rw [argumentTokens, List.reverse_nil, List.nil_append, takeTemplateArgs, hskip]
    rfl
  | some inner =>
    have hinner := (s.arguments inner hargs).angles
    have hclose (rest : List Token) : skipFinal (.delimiter '>' :: rest) = .delimiter '>' :: rest :=
      List.dropWhile_cons_of_neg (by simp [Token.isSpace])
    have hlatest : (argumentTokens (some inner)).reverse ++ .word s.word :: s.type.reverse =
        .delimiter '>' :: (inner.reverse ++ .delimiter '<' :: .word s.word :: s.type.reverse) := by
      simp [argumentTokens]
    rw [hlatest, takeTemplateArgs, hclose]
    simp only
    rw [Signature.unwind_balanced (by decide) hinner]
    simp [hskip, textOf]

theorem reverse_tokens (s : Parts) :
    s.tokens.reverse = .delimiter ')' :: (s.params.reverse ++ .delimiter '(' ::
      ((argumentTokens s.args).reverse ++ .word s.word :: s.type.reverse)) := by
  simp [tokens]

theorem takeWhile_tokens (s : Parts) : List.takeWhile (· ≠ .delimiter ')') s.tokens.reverse = [] := by
  rw [s.reverse_tokens]
  exact List.takeWhile_cons_of_neg (by simp)

theorem unwind_tokens (s : Parts) : unwind '(' ')' 1 (s.tokens.reverse.drop 1) =
    some (s.params.reverse, (argumentTokens s.args).reverse ++ .word s.word :: s.type.reverse) := by
  rw [s.reverse_tokens, List.drop_one, List.tail_cons, Signature.unwind_balanced (by decide) s.balanced]

/-- The split finds the parts. -/
theorem ofTokens_eq (s : Parts) (hfinal : s.word ≠ "final".toList) : ofTokens s.tokens = .ok s.signature := by
  refine ofTokens_eq_ok_iff.mpr (.inl ⟨s.tight.splitInitializers_eq, ?_⟩)
  unfold ofLatest
  dsimp only
  rw [s.takeWhile_tokens, List.length_nil, Nat.zero_add, s.unwind_tokens]
  dsimp only
  rw [s.takeTemplateArgs_eq hfinal]
  dsimp only
  rw [if_neg (by simpa using s.name_ne), if_neg s.name_not_mem]
  refine congrArg Except.ok ?_
  simp only [signature, textOf, List.reverse_reverse, List.reverse_nil]
  rfl

/-- A `final` before the parameters is passed over, so that a signature with no other word has no name. -/
theorem ofLatest_of_final (s : Parts) (hfinal : s.word = "final".toList) (htype : s.type = [])
    (hargs : s.args = none) : ofLatest s.tokens.reverse = .error .missingName := by
  unfold ofLatest
  dsimp only
  rw [s.takeWhile_tokens, List.length_nil, Nat.zero_add, s.unwind_tokens, hfinal, htype, hargs]
  rfl

end Parts
end Signature

namespace Draft

/-- Tokens that belong to a signature whose groups are closed before and after them. -/
def Passes (ts : List Token) : Prop :=
  ∀ d : Draft, d.stage = .type none → (ts.foldl feed d).stage = .type none

theorem Passes.append {ts us : List Token} (hts : Passes ts) (hus : Passes us) : Passes (ts ++ us) := by
  intro d hd
  rw [List.foldl_append]
  exact hus _ (hts d hd)

theorem stage_feed_type {d : Draft} {group group' : Option Group} {t : Token} (hs : d.stage = .type group)
    (hgroup : Group.feed group t = group') (hterm : group' = none → Terminator.ofToken? t = none) :
    (d.feed t).stage = .type group' := by
  rw [feed, hs]
  simp only [feedType, hgroup]
  cases group' with
  | none => rw [hterm rfl]
  | some g => rfl

theorem passes_singleton {t : Token} (hangle : t ≠ .delimiter '<') (hparen : t ≠ .delimiter '(')
    (hterm : Terminator.ofToken? t = none) : Passes [t] := by
  intro d hd
  refine stage_feed_type hd ?_ fun _ => hterm
  rw [Group.feed, if_neg hangle, if_neg hparen]

/-- Inside a group only its own brackets count. -/
theorem stage_foldl_feed_group {d : Draft} {g : Group} {depth : Nat} {ts : List Token}
    (hs : d.stage = .type (some g)) (hpos : 1 ≤ g.depth)
    (h : Brackets.after g.opener g.closer g.depth ts = some depth) :
    (ts.foldl feed d).stage = .type (some { g with depth := depth }) := by
  induction ts generalizing d g with
  | nil =>
    obtain rfl := Option.some.inj h
    exact hs
  | cons t ts ih =>
    have hmore (next : Nat) (hnext : 1 ≤ next)
        (hgroup : Group.feed (some g) t = some { g with depth := next })
        (h : Brackets.after g.opener g.closer next ts = some depth) :
        ((t :: ts).foldl feed d).stage = .type (some { g with depth := depth }) := by
      have hstage := stage_feed_type hs hgroup (by simp)
      exact ih (g := { g with depth := next }) hstage hnext h
    rw [Brackets.after] at h
    split at h
    · next ht => exact hmore _ (by omega) (by rw [Group.feed, if_pos ht]) h
    · next ht =>
      split at h
      · next hclose =>
        split at h
        · simp at h
        · next hd =>
          exact hmore _ (by omega) (by rw [Group.feed, if_neg ht, if_pos hclose, if_neg (by omega)]) h
      · next hclose => exact hmore _ hpos (by rw [Group.feed, if_neg ht, if_neg hclose]) h

theorem passes_group (angle : Bool) {inner : List Token}
    (h : Brackets.Balanced (Group.opener ⟨angle, 1⟩) (Group.closer ⟨angle, 1⟩) inner) :
    Passes (.delimiter (Group.opener ⟨angle, 1⟩) :: (inner ++ [.delimiter (Group.closer ⟨angle, 1⟩)])) := by
  intro d hd
  have hopen : (d.feed (.delimiter (Group.opener ⟨angle, 1⟩))).stage = .type (some ⟨angle, 1⟩) := by
    refine stage_feed_type hd ?_ (by simp)
    cases angle <;> rfl
  have hinner := stage_foldl_feed_group hopen (le_refl 1) h
  rw [List.foldl_cons, List.foldl_append]
  refine stage_feed_type hinner ?_ fun _ => by cases angle <;> rfl
  cases angle <;> rfl

theorem passes_typeTokens {ts : List Token} (h : Signature.TypeTokens ts) : Passes ts := by
  induction h with
  | nil => exact fun d hd => hd
  | word hw _ ih =>
    exact (passes_singleton (by simp) (by simp) (by rw [Terminator.ofToken?, if_neg hw])).append ih
  | space _ ih => exact (passes_singleton (by simp) (by simp) rfl).append ih
  | star _ ih => exact (passes_singleton (by simp) (by simp) rfl).append ih
  | commentClose _ ih => exact (passes_singleton (by simp) (by simp) rfl).append ih
  | pair _ ih =>
    have hcolon : Passes [.delimiter ':'] := passes_singleton (by simp) (by simp) rfl
    exact hcolon.append (hcolon.append ih)
  | @arguments inner ts hinner _ ih =>
    have hgroup : Passes (.delimiter '<' :: (inner ++ [.delimiter '>'])) :=
      passes_group true hinner.angles
    simpa using hgroup.append ih

theorem passes_parts (s : Signature.Parts) : Passes s.tokens := by
  have hparams : Passes (.delimiter '(' :: (s.params ++ [.delimiter ')'])) :=
    passes_group false s.balanced
  rw [s.tokens_eq]
  exact (passes_typeTokens s.typeTokens_front).append hparams

/-- The tokens before a signature: storage and `const`, with spaces around them. -/
structure Specifiers where
  lead : List Token
  storage : Option Storage
  gap : List Token
  constant : Bool
  lead_space : ∀ t ∈ lead, t.isSpace
  gap_space : ∀ t ∈ gap, t.isSpace

namespace Specifiers

def storageTokens (s : Specifiers) : List Token := s.storage.toList.map (.word ·.keyword)

def tokens (s : Specifiers) : List Token :=
  s.lead ++ s.storageTokens ++ s.gap ++ if s.constant then [.word "const".toList] else []

/-- The stage after the specifiers. -/
def stage (s : Specifiers) : Stage :=
  if s.constant then .type none else if s.storage.isSome then .constReturn else .storage

/-- Whether a token starts a signature after the specifiers and is not itself taken for one. -/
def startsAt (s : Specifiers) (t : Token) : Prop :=
  s.constant ∨ (t.isSpace = false ∧ t ≠ .word "const".toList ∧
    (s.storage = none → ∀ storage : Storage, t ≠ .word storage.keyword))

end Specifiers

theorem feed_space {d : Draft} {t : Token} (hs : d.stage = .storage ∨ d.stage = .constReturn)
    (ht : t.isSpace) : d.feed t = d.addSource t := by
  rcases hs with hs | hs
  · rw [feed, hs]
    simp only [feedStorage, if_pos ht]
  · rw [feed, hs]
    simp only [feedConstReturn, if_pos ht]

theorem foldl_feed_spaces {d : Draft} {ts : List Token} (hs : d.stage = .storage ∨ d.stage = .constReturn)
    (h : ∀ t ∈ ts, t.isSpace) : ts.foldl feed d = { d with source := ts.reverse ++ d.source } := by
  induction ts generalizing d with
  | nil => rfl
  | cons t ts ih =>
    rw [List.forall_mem_cons] at h
    rw [List.foldl_cons, feed_space hs h.1]
    refine (ih (d := d.addSource t) hs h.2).trans ?_
    simp [addSource]

theorem feed_const {d : Draft} (hs : d.stage = .storage ∨ d.stage = .constReturn) :
    d.feed (.word "const".toList) =
      { d.addSource (.word "const".toList) with stage := .type none, constReturn := true } := by
  rcases hs with hs | hs
  · rw [feed, hs]
    rfl
  · rw [feed, hs]
    rfl

theorem ofKeyword?_keyword (storage : Storage) : Storage.ofKeyword? storage.keyword = some storage := by
  cases storage <;> decide

theorem readAll_specifiers (s : Specifiers) :
    readAll s.tokens =
      { stage := s.stage
        storage := s.storage
        constReturn := s.constant
        source := s.tokens.reverse } := by
  have hlead : readAll s.lead = { source := s.lead.reverse } := by
    rw [readAll, foldl_feed_spaces (.inl rfl) s.lead_space, List.append_nil]
  have hstorage : readAll (s.lead ++ s.storageTokens) =
      { stage := if s.storage.isSome then .constReturn else .storage
        storage := s.storage
        source := (s.lead ++ s.storageTokens).reverse } := by
    rw [readAll_append, hlead, Specifiers.storageTokens]
    cases hs : s.storage with
    | none => simp
    | some storage =>
      simp [feed, feedStorage, Token.isSpace, ofKeyword?_keyword, addSource]
  have hstage : (if s.storage.isSome then Stage.constReturn else .storage) = .storage ∨
      (if s.storage.isSome then Stage.constReturn else .storage) = .constReturn := by
    split <;> simp
  have hgap : readAll (s.lead ++ s.storageTokens ++ s.gap) =
      { stage := if s.storage.isSome then .constReturn else .storage
        storage := s.storage
        source := (s.lead ++ s.storageTokens ++ s.gap).reverse } := by
    rw [readAll_append, hstorage, foldl_feed_spaces hstage s.gap_space]
    simp
  rw [Specifiers.tokens, readAll_append, hgap]
  cases hc : s.constant with
  | false => simp [Specifiers.stage, hc]
  | true =>
    rw [if_pos rfl, List.foldl_cons, List.foldl_nil, feed_const hstage]
    simp [Specifiers.stage, hc, addSource]

theorem ofKeyword?_eq_none {word : Text} (h : ∀ storage : Storage, word ≠ storage.keyword) :
    Storage.ofKeyword? word = none :=
  List.find?_eq_none.mpr fun storage _ => by simpa using Ne.symm (h storage)

theorem feedType_stage (d : Draft) (stage : Stage) (group : Option Group) (t : Token) :
    ({ d with stage := stage } : Draft).feedType group t = d.feedType group t := by
  unfold feedType
  cases Group.feed group t with
  | some g => rfl
  | none => cases Terminator.ofToken? t <;> rfl

/-- A token that is no specifier is read as the first one of the signature. -/
theorem feed_start {s : Specifiers} {d : Draft} {t : Token} (hd : d.stage = s.stage) (ht : s.startsAt t) :
    d.feed t = ({ d with stage := .type none } : Draft).feed t := by
  have htype : ({ d with stage := .type none } : Draft).feed t = d.feedType none t :=
    feedType_stage d (.type none) none t
  rw [htype, feed, hd, Specifiers.stage]
  by_cases hconstant : s.constant
  · rw [if_pos hconstant]
  · obtain ⟨hspace, hconst, hstorage⟩ := ht.resolve_left hconstant
    have hreturn : d.feedConstReturn t = d.feedType none t := by
      rw [feedConstReturn, if_neg (by simp [hspace]), if_neg hconst]
    rw [if_neg hconstant]
    cases hs : s.storage with
    | some storage => exact hreturn
    | none =>
      simp only [Option.isSome_none, Bool.false_eq_true, if_false, feedStorage, hspace]
      cases t with
      | word text =>
        have hkeyword : Storage.ofKeyword? text = none :=
          ofKeyword?_eq_none fun storage h => hstorage hs storage (by rw [h])
        simp only [hkeyword]
        exact hreturn
      | _ => exact hreturn

/-- The reader after specifiers and the tokens of a signature. -/
theorem readAll_signature (s : Specifiers) {ts : List Token} (hpass : Passes ts)
    (hstart : ∃ t, ts.head? = some t ∧ s.startsAt t) :
    readAll (s.tokens ++ ts) =
      { stage := .type none
        storage := s.storage
        constReturn := s.constant
        type := ts.reverse
        source := (s.tokens ++ ts).reverse } := by
  obtain ⟨t, hhead, ht⟩ := hstart
  obtain ⟨rest, rfl⟩ := List.head?_eq_some_iff.mp hhead
  have hread : readAll (s.tokens ++ t :: rest) =
      (t :: rest).foldl feed { readAll s.tokens with stage := .type none } := by
    rw [readAll_append, List.foldl_cons, List.foldl_cons,
      feed_start (s := s) (by rw [readAll_specifiers]) ht]
  rw [hread, foldl_feed_type rfl (hpass _ rfl), readAll_specifiers]
  simp

/-- The tokens of qualifiers: words, set apart by spaces. -/
structure Qualifiers (ts : List Token) : Prop where
  plain : ∀ t ∈ ts, t.isWord ∨ t.isSpace
  apart : ts.IsChain fun a b => a.isSpace ∨ b.isSpace
  blank : ∀ c, .space c ∈ ts → isBlankChar c

theorem Qualifiers.isQuiet {ts : List Token} (h : Qualifiers ts) {t : Token} (ht : t ∈ ts)
    (hconst : t ≠ .word "const".toList) : t.isQuiet := by
  simp only [Token.isQuiet, Bool.and_eq_true, Bool.or_eq_true, bne_iff_ne]
  exact ⟨h.plain t ht, hconst⟩

theorem Qualifiers.endsSource {ts : List Token} (h : Qualifiers ts) : ∀ t ∈ ts, endsSource t = false := by
  intro t ht
  have hplain := h.plain t ht
  cases t with
  | word text => simp [Draft.endsSource]
  | space c => simp [Draft.endsSource]
  | _ => simp [Token.isWord, Token.isSpace] at hplain

/-- The space put before a `const` does not change the words, for there is one already. -/
theorem Qualifiers.words_gapAfter {ts more : List Token} {w : Text}
    (h : Qualifiers (ts ++ .word w :: more)) (rest : Text) :
    (Token.concat ts ++ (Signature.textOf (gapAfter ts.reverse) ++ rest)).words =
      (Token.concat ts ++ rest).words := by
  unfold gapAfter
  split
  · rfl
  · next hblank =>
    obtain ⟨front, t, rfl⟩ : ∃ front t, ts = front ++ [t] := by
      rcases List.eq_nil_or_concat ts with rfl | ⟨front, t, hconcat⟩
      · exact absurd rfl hblank
      · exact ⟨front, t, by rw [hconcat, List.concat_eq_append]⟩
    have hspace : t.isSpace := by
      have hrel := (List.isChain_append.mp h.apart).2.2 t (by simp) (.word w) (by simp)
      simpa [Token.isSpace] using hrel
    obtain ⟨c, rfl⟩ : ∃ c, t = .space c := by
      cases t <;> simp_all [Token.isSpace]
    have hc : isBlankChar c := h.blank c (by simp)
    have hgap : isBlankChar ' ' := by decide
    have hcut (rest : Text) : Token.concat (front ++ [.space c]) ++ rest =
        Token.concat front ++ c :: rest := by simp [Token.text]
    rw [hcut, hcut, Text.words_append_cons_blank hc, Text.words_append_cons_blank hc]
    exact congrArg _ (Text.words_cons_blank hgap rest)

/-- Qualifiers are trailing tokens of the signature, or an addendum from their first `const` on; their
words are those of the addendum. -/
theorem ended_qualifiers {base ts : List Token} {s : Signature} (hbase : (readAll base).stage = .type none)
    (hsig : Signature.ofTokens (readAll base).type.reverse = .ok s)
    (hsplit : Signature.splitInitializers 0 false [] (readAll base).type.reverse = none)
    (htrailing : s.trailing = []) (h : Qualifiers ts) :
    (readAll (base ++ ts)).stage.atTop ∧
      SameHead (readAll base) (readAll (base ++ ts)).ended s ∧
      (Signature.textOf (readAll (base ++ ts)).ended.addendum).words = (Token.concat ts).words := by
  have hquiet (q : List Token) (hq : ∀ t ∈ q, t.isQuiet) :
      readAll (base ++ q) = { readAll base with
        type := q.reverse ++ (readAll base).type
        source := q.reverse ++ (readAll base).source } ∧
      Signature.ofTokens (readAll (base ++ q)).type.reverse = .ok { s with trailing := q } := by
    have hread : readAll (base ++ q) = _ := (readAll_append base q).trans (foldl_feed_quiet hbase hq)
    refine ⟨hread, ?_⟩
    rw [hread]
    simp only [List.reverse_append, List.reverse_reverse]
    rw [Signature.ofTokens_append_quiet hq hsplit, hsig]
    simp [Except.map, htrailing]
  by_cases hconst : .word "const".toList ∈ ts
  · -- The first `const` ends the type, and all behind it belongs to the addendum.
    obtain ⟨q, more, rfl, hq⟩ := List.eq_append_cons_of_mem hconst
    obtain ⟨hread, htokens⟩ := hquiet q fun t ht => h.isQuiet (by simp [ht]) (by rintro rfl; exact hq ht)
    have hstage : (readAll (base ++ q)).stage = .type none := by rw [hread]; exact hbase
    have hmore : ∀ t ∈ more, endsSource t = false := fun t ht => h.endsSource t (by simp [ht])
    have hparts : base ++ (q ++ .word "const".toList :: more) =
        base ++ q ++ [.word "const".toList] ++ more := by simp
    have hall := foldl_feed_addendum (d := readAll (base ++ q ++ [.word "const".toList]))
      (by rw [readAll_const hstage]) hmore
    rw [← readAll_append, readAll_const hstage, htokens, trailingOf_of_ok htokens] at hall
    rw [hparts, hall]
    refine ⟨rfl, ⟨{ s with trailing := q }, rfl, rfl, by rw [hread]; rfl, by rw [hread]; rfl⟩, ?_⟩
    have htext : Signature.textOf (more.reverse ++
        .word "const".toList :: (gapAfter q.reverse ++ q.reverse)) =
          Token.concat q ++ (Signature.textOf (gapAfter q.reverse) ++
            ("const".toList ++ Token.concat more)) := by
      simp [Signature.textOf, Token.text]
    have hwords := h.words_gapAfter ("const".toList ++ Token.concat more)
    rw [← htext] at hwords
    rw [Token.concat_append, Token.concat_cons]
    exact hwords
  · obtain ⟨hread, htokens⟩ := hquiet ts fun t ht => h.isQuiet ht (by rintro rfl; exact hconst ht)
    have hstage : (readAll (base ++ ts)).stage = .type none := by rw [hread]; exact hbase
    rw [ended_of_ne_addendum (by simp [hstage]), htokens, trailingOf_of_ok htokens]
    refine ⟨by rw [hstage]; rfl, ⟨{ s with trailing := ts }, rfl, rfl, by rw [hread], by rw [hread]⟩, ?_⟩
    simp [Signature.textOf]

/-- Past a signature only the stage and the body change. -/
theorem exists_foldl_feed_block {d : Draft} (h : d.stage.reading = false) (ts : List Token) :
    ∃ stage body, ts.foldl feed d = { d with stage := stage, body := body } := by
  induction ts generalizing d with
  | nil => exact ⟨d.stage, d.body, rfl⟩
  | cons t ts ih =>
    obtain ⟨stage, body, hfeed⟩ : ∃ stage body, d.feed t = { d with stage := stage, body := body } := by
      cases hs : d.stage with
      | body depth => exact ⟨_, _, by rw [feed, hs]⟩
      | done =>
        have hfeed : d.feed t = d := by rw [feed, hs]
        exact ⟨d.stage, d.body, hfeed⟩
      | _ => simp [hs, Stage.reading] at h
    obtain ⟨stage', body', hrest⟩ := ih (not_reading_feed h t)
    exact ⟨stage', body', by rw [List.foldl_cons, hrest, hfeed]⟩

theorem exists_finish_of_ok {d : Draft} {s : Signature} (h : d.signature = some (.ok s)) :
    ∃ valid issue, d.finish =
      { d.recordOf s (Signature.textOf d.source) (d.body.map Signature.textOf) with
        valid := valid
        issue := issue } := by
  unfold finish
  rw [h]
  exact ⟨_, _, rfl⟩

/-- The parts of a declaration, as tokens. -/
structure Layout where
  specifiers : Specifiers
  parts : Signature.Parts
  qualifiers : List Token
  qualifiers_apart : Qualifiers qualifiers
  starts : ∃ t, parts.tokens.head? = some t ∧ specifiers.startsAt t

namespace Layout

def tokens (w : Layout) : List Token := w.specifiers.tokens ++ w.parts.tokens ++ w.qualifiers

/-- The record of the parts. -/
def record (w : Layout) (source : Text) (body : Option Text) : Declaration :=
  recordOf { storage := w.specifiers.storage
             constReturn := w.specifiers.constant
             addendum := w.qualifiers.reverse } w.parts.signature source body

end Layout

/-- The parts of a declaration whose name is not passed over. -/
structure Written extends Layout where
  not_final : parts.word ≠ "final".toList

namespace Written

theorem exists_ended (w : Written) :
    (readAll w.tokens).stage.atTop ∧
      ∃ s, (readAll w.tokens).ended.signature = some (.ok s) ∧
        ∀ source body, (readAll w.tokens).ended.recordOf s source body = w.record source body := by
  have hread := readAll_signature w.specifiers (passes_parts w.parts) w.starts
  have hsplit := w.parts.tight.splitInitializers_eq
  have hsig := w.parts.ofTokens_eq w.not_final
  rw [← List.reverse_reverse w.parts.tokens] at hsplit hsig
  have hbase : (readAll (w.specifiers.tokens ++ w.parts.tokens)).stage = .type none := by rw [hread]
  obtain ⟨htop, ⟨s, hs, hsame, hstorage, hconst⟩, hwords⟩ :=
    ended_qualifiers hbase (by rw [hread]; exact hsig) (by rw [hread]; exact hsplit) rfl w.qualifiers_apart
  refine ⟨htop, s, hs, fun source body => ?_⟩
  have haddendum : addendumText (readAll w.tokens).ended.addendum = addendumText w.qualifiers.reverse := by
    refine addendumText_congr (hwords.trans ?_)
    simp [Signature.textOf]
  rw [hread] at hstorage hconst
  rw [Layout.record, recordOf, recordOf, haddendum, hsame, Layout.tokens, ← hstorage, ← hconst]

/-- The parts are read back from their tokens, whatever ends the source. -/
theorem ofTokens_eq (w : Written) {rest : List Token} {source : Text} {body : Option Text}
    (hends : Ends w.tokens rest source body) (hrest : rest ≠ []) :
    Declaration.ofTokens (w.tokens ++ rest) = w.record source body := by
  obtain ⟨htop, s, hs, hrecord⟩ := w.exists_ended
  rw [← hrecord]
  exact finish_of_ends htop hs hends fun h => absurd h hrest

/-- Past a brace only the body, and whether it is closed, are still open. -/
theorem exists_ofTokens_brace (w : Written) (rest : List Token) :
    ∃ body valid issue, Declaration.ofTokens (w.tokens ++ .delimiter '{' :: rest) =
      { w.record (Token.concat w.tokens) body with valid := valid, issue := issue } := by
  obtain ⟨htop, s, hs, hrecord⟩ := w.exists_ended
  obtain ⟨hsource, -⟩ := source_readAll (Stage.reading_of_atTop htop)
  have hread : readAll (w.tokens ++ .delimiter '{' :: rest) =
      rest.foldl feed
        { (readAll w.tokens).ended with stage := .body 1, body := some [.delimiter '{'] } := by
    rw [readAll_append, List.foldl_cons, feed_brace htop]
  obtain ⟨stage, body, hbody⟩ := exists_foldl_feed_block
    (d := { (readAll w.tokens).ended with stage := .body 1, body := some [.delimiter '{'] }) rfl rest
  obtain ⟨valid, issue, hfinish⟩ := exists_finish_of_ok
    (d := { (readAll w.tokens).ended with stage := stage, body := body }) hs
  have htext : Signature.textOf (readAll w.tokens).ended.source = Token.concat w.tokens := by
    rw [source_ended, hsource]
    simp [Signature.textOf]
  refine ⟨body.map Signature.textOf, valid, issue, ?_⟩
  rw [Declaration.ofTokens, ← readAll, hread, hbody, hfinish, ← hrecord, htext]
  rfl

end Written
end Draft
end OutOfLine

import OutOfLine.Proofs.Reader
import OutOfLine.Proofs.TrimmedCode
import OutOfLine.Proofs.Words

/-!
# What a record tells about its source

Apart from blanks, a valid record determines its source up to the `final` marks between the name and the
parameters and up to the place of the member initializers. Two sources with the same record that go apart
only where one of them has a semicolon are therefore the same.
-/

namespace OutOfLine

namespace Text

/-- Two texts that first differ, if they do, where the second one has the stop. -/
def MeetsAt (stop : Char) (u v : Text) : Prop :=
  ∀ p x y, p ++ [x] <+: u → p ++ [y] <+: v → x = y ∨ y = stop

theorem MeetsAt.cancel {stop : Char} {q u v : Text} (h : MeetsAt stop (q ++ u) (q ++ v)) :
    MeetsAt stop u v := by
  intro p x y hx hy
  apply h (q ++ p) x y
  · rw [List.append_assoc]
    exact (List.prefix_append_right_inj q).mpr hx
  · rw [List.append_assoc]
    exact (List.prefix_append_right_inj q).mpr hy

theorem MeetsAt.head {stop x y : Char} {u v : Text} (h : MeetsAt stop (x :: u) (y :: v)) :
    x = y ∨ y = stop :=
  h [] x y (by simp) (by simp)

theorem snoc_inj_of_front {p q t : Text} {x y : Char} (hlen : p.length = q.length)
    (hx : p ++ [x] <+: t) (hy : q ++ [y] <+: t) : p = q ∧ x = y := by
  have hle : (p ++ [x]).length ≤ (q ++ [y]).length := by simp [hlen]
  have heq := (List.prefix_of_prefix_length_le hx hy hle).eq_of_length (by simp [hlen])
  simpa using List.append_inj heq hlen

/-- Texts of which one is at the front of the other differ nowhere. -/
theorem MeetsAt.of_front {stop : Char} {u v : Text} (h : u <+: v ∨ v <+: u) : MeetsAt stop u v := by
  intro p x y hx hy
  rcases h with h | h
  · exact .inl (snoc_inj_of_front rfl (hx.trans h) hy).2
  · exact .inl (snoc_inj_of_front rfl hx (hy.trans h)).2

/-- Texts that go apart at a place where the second has the stop. -/
theorem MeetsAt.of_fork {stop c : Char} {front u v : Text} (hc : c ≠ stop) (hu : front ++ [c] <+: u)
    (hv : front ++ [stop] <+: v) : MeetsAt stop u v := by
  intro p x y hx hy
  rcases Nat.lt_trichotomy p.length front.length with hlt | heq | hgt
  · have hlen (z : Char) : (p ++ [z]).length ≤ front.length := by
      rw [List.length_append]
      exact hlt
    have hpx := List.prefix_of_prefix_length_le hx ((List.prefix_append front [c]).trans hu) (hlen x)
    have hpy := List.prefix_of_prefix_length_le hy ((List.prefix_append front [stop]).trans hv) (hlen y)
    exact .inl (snoc_inj_of_front rfl hpx hpy).2
  · exact .inr (snoc_inj_of_front heq hy hv).2
  · have hlen (z : Char) : (front ++ [z]).length ≤ p.length := by
      rw [List.length_append]
      exact hgt
    have hpc := List.prefix_of_prefix_length_le hu ((List.prefix_append p [x]).trans hx) (hlen c)
    have hps := List.prefix_of_prefix_length_le hv ((List.prefix_append p [y]).trans hy) (hlen stop)
    exact absurd (snoc_inj_of_front rfl hpc hps).2 hc

/-- The text of some `final` marks. -/
def finals (n : Nat) : Text := (List.replicate n "final".toList).flatten

theorem finals_succ (n : Nat) : finals (n + 1) = 'f' :: 'i' :: 'n' :: 'a' :: 'l' :: finals n := by
  simp [finals, List.replicate_succ]

/-- The number of `final` marks shows where something else follows them. -/
theorem MeetsAt.finals {stop x y : Char} {u v : Text} {a b : Nat} (hx : x ≠ 'f') (hy : y ≠ 'f')
    (hstop : stop ≠ 'f') (hne : y ≠ stop) (h : MeetsAt stop (finals a ++ x :: u) (finals b ++ y :: v)) :
    a = b ∧ MeetsAt stop (x :: u) (y :: v) := by
  induction a generalizing b with
  | zero =>
    cases b with
    | zero => exact ⟨rfl, h⟩
    | succ b =>
      rw [finals_succ] at h
      rcases h.head with heq | heq
      · exact absurd heq hx
      · exact absurd heq.symm hstop
  | succ a ih =>
    cases b with
    | zero =>
      rw [finals_succ] at h
      rcases h.head with heq | heq
      · exact absurd heq.symm hy
      · exact absurd heq hne
    | succ b =>
      rw [finals_succ, finals_succ] at h
      obtain ⟨rfl, hrest⟩ := ih (MeetsAt.cancel (q := ['f', 'i', 'n', 'a', 'l']) h)
      exact ⟨rfl, hrest⟩

end Text

namespace Declaration

/-- Records that agree on everything but body, initializers and source text. -/
structure Agrees (d e : Declaration) : Prop where
  storage_eq : d.storage = e.storage
  constReturn_eq : d.constReturn = e.constReturn
  returnType_eq : d.returnType = e.returnType
  templateArgs_eq : d.templateArgs = e.templateArgs
  indirection_eq : d.indirection = e.indirection
  name_eq : d.name = e.name
  parameters_eq : d.parameters = e.parameters
  addendum_eq : d.addendum = e.addendum

instance (d e : Declaration) : Decidable (d.Agrees e) :=
  decidable_of_iff (d.storage = e.storage ∧ d.constReturn = e.constReturn ∧ d.returnType = e.returnType ∧
      d.templateArgs = e.templateArgs ∧ d.indirection = e.indirection ∧ d.name = e.name ∧
      d.parameters = e.parameters ∧ d.addendum = e.addendum)
    ⟨fun ⟨h₁, h₂, h₃, h₄, h₅, h₆, h₇, h₈⟩ => ⟨h₁, h₂, h₃, h₄, h₅, h₆, h₇, h₈⟩,
      fun ⟨h₁, h₂, h₃, h₄, h₅, h₆, h₇, h₈⟩ => ⟨h₁, h₂, h₃, h₄, h₅, h₆, h₇, h₈⟩⟩

theorem Agrees.congr {d d' : Declaration} (h : d.Agrees d') (e : Declaration) :
    d.Agrees e ↔ d'.Agrees e := by
  obtain ⟨h₁, h₂, h₃, h₄, h₅, h₆, h₇, h₈⟩ := h
  constructor
  · rintro ⟨e₁, e₂, e₃, e₄, e₅, e₆, e₇, e₈⟩
    exact ⟨h₁ ▸ e₁, h₂ ▸ e₂, h₃ ▸ e₃, h₄ ▸ e₄, h₅ ▸ e₅, h₆ ▸ e₆, h₇ ▸ e₇, h₈ ▸ e₈⟩
  · rintro ⟨e₁, e₂, e₃, e₄, e₅, e₆, e₇, e₈⟩
    exact ⟨h₁ ▸ e₁, h₂ ▸ e₂, h₃ ▸ e₃, h₄ ▸ e₄, h₅ ▸ e₅, h₆ ▸ e₆, h₇ ▸ e₇, h₈ ▸ e₈⟩

/-- What a record has before the arguments and parameters of its name, without blanks. -/
def nameInk (d : Declaration) : Text :=
  (Token.concat (d.storage.toList.map (.word ·.keyword) ++
    if d.constReturn then [.word "const".toList] else [])).ink ++
  (d.returnType.ink ++ (Text.ink (d.indirection.elim [] Indirection.text) ++ d.name.ink))

/-- Template arguments with the `final` marks behind them, without blanks. -/
def argsInk : Option Text → Nat → Text
  | none, _ => []
  | some args, n => '<' :: (args.ink ++ '>' :: Text.finals n)

/-- Whether a text without blanks spells a record up to the end of its parameters. -/
def Spells (d : Declaration) (u : Text) : Prop :=
  ∃ a b, u = d.nameInk ++ (Text.finals a ++
    (argsInk d.templateArgs b ++ '(' :: (d.parameters.ink ++ [')'])))

theorem nameInk_eq {d e : Declaration} (h : d.Agrees e) : d.nameInk = e.nameInk := by
  rw [nameInk, nameInk, h.storage_eq, h.constReturn_eq, h.returnType_eq, h.indirection_eq, h.name_eq]

/-- Records that agree are spelled alike, if what follows does not decide it earlier. -/
theorem Spells.eq_of_meetsAt {d e : Declaration} {u v a b : Text} (h : d.Agrees e) (hd : d.Spells u)
    (he : e.Spells v) (hm : Text.MeetsAt ';' (u ++ a) (v ++ b)) : u = v ∧ Text.MeetsAt ';' a b := by
  obtain ⟨m, n, rfl⟩ := hd
  obtain ⟨m', n', rfl⟩ := he
  rw [nameInk_eq h, h.templateArgs_eq, h.parameters_eq] at hm ⊢
  simp only [List.append_assoc] at hm
  have hmarks := hm.cancel
  cases hargs : e.templateArgs with
  | none =>
    simp only [hargs, argsInk, List.nil_append, List.cons_append] at hmarks
    obtain ⟨rfl, hparens⟩ := hmarks.finals (by decide) (by decide) (by decide) (by decide)
    refine ⟨rfl, ?_⟩
    have hafter := Text.MeetsAt.cancel (q := '(' :: (e.parameters.ink ++ [')'])) (by simpa using hparens)
    exact hafter
  | some args =>
    simp only [hargs, argsInk, List.cons_append, List.append_assoc] at hmarks
    obtain ⟨rfl, hangle⟩ := hmarks.finals (by decide) (by decide) (by decide) (by decide)
    have hclose := Text.MeetsAt.cancel (q := '<' :: (args.ink ++ ['>'])) (by simpa using hangle)
    obtain ⟨rfl, hparens⟩ := hclose.finals (by decide) (by decide) (by decide) (by decide)
    refine ⟨rfl, ?_⟩
    have hafter := Text.MeetsAt.cancel (q := '(' :: (e.parameters.ink ++ [')'])) (by simpa using hparens)
    exact hafter

end Declaration

/-- Tokens as lexing makes them. -/
def Lexed (ts : List Token) : Prop := ∀ t ∈ ts, t.isLexed

theorem Lexed.mono {ts us : List Token} (h : Lexed us) (hsub : ∀ t ∈ ts, t ∈ us) : Lexed ts :=
  fun t ht => h t (hsub t ht)

theorem Lexed.append_left {ts us vs : List Token} (h : Lexed (ts ++ (us ++ vs))) : Lexed (ts ++ us) := by
  rw [← List.append_assoc] at h
  exact h.mono fun t => List.mem_append_left vs

theorem ink_concat_marks {ts : List Token} (h : Lexed ts) :
    (Token.concat (Draft.marks ts)).ink = (Token.concat ts).ink := by
  induction ts with
  | nil => rfl
  | cons t ts ih =>
    have hrest := ih (h.mono fun u hu => List.mem_cons_of_mem _ hu)
    cases ht : t.isSpace with
    | false =>
      have hcons : Draft.marks (t :: ts) = t :: Draft.marks ts := by simp [Draft.marks, ht]
      rw [hcons, Token.concat_cons, Token.concat_cons, Text.ink_append, Text.ink_append, hrest]
    | true =>
      have hdrop : Draft.marks (t :: ts) = Draft.marks ts := by simp [Draft.marks, ht]
      cases t with
      | space c =>
        have hc : isBlankChar c := h _ List.mem_cons_self
        have hblank : Text.ink [c] = [] := Text.ink_eq_nil_iff.mpr (by simpa using hc)
        rw [hdrop, hrest, Token.concat_cons, Text.ink_append, Token.text, hblank, List.nil_append]
      | _ => simp [Token.isSpace] at ht

theorem exists_finals (filler : List Token) (h : ∀ t ∈ filler, Signature.isFiller t) (hs : Lexed filler) :
    ∃ n, (Token.concat filler).ink = Text.finals n := by
  induction filler with
  | nil => exact ⟨0, rfl⟩
  | cons t filler ih =>
    obtain ⟨n, hn⟩ := ih (fun u hu => h u (List.mem_cons_of_mem _ hu))
      (hs.mono fun u hu => List.mem_cons_of_mem _ hu)
    have ht := h t List.mem_cons_self
    simp only [Signature.isFiller, Bool.or_eq_true, beq_iff_eq] at ht
    rcases ht with ht | rfl
    · cases t with
      | space c =>
        have hc : isBlankChar c := hs _ List.mem_cons_self
        have hblank : Text.ink [c] = [] := Text.ink_eq_nil_iff.mpr (by simpa using hc)
        exact ⟨n, by rw [Token.concat_cons, Text.ink_append, Token.text, hblank, List.nil_append, hn]⟩
      | _ => simp [Token.isSpace] at ht
    · refine ⟨n + 1, ?_⟩
      have hfinal : Text.ink "final".toList = ['f', 'i', 'n', 'a', 'l'] := by decide
      rw [Token.concat_cons, Text.ink_append, Token.text, hfinal, hn, Text.finals_succ]
      rfl

namespace Signature

theorem ink_textOf_between {args : Option Text} {between : List Token} (h : Between args between)
    (hs : Lexed between) :
    ∃ a b, (textOf between).ink = Text.finals a ++ Declaration.argsInk args b := by
  cases h with
  | fillers h =>
    obtain ⟨n, hn⟩ := exists_finals between.reverse (by simpa using h)
      (hs.mono (by simp))
    exact ⟨n, 0, by rw [textOf, hn, Declaration.argsInk, List.append_nil]⟩
  | @arguments filler inner filler' h h' =>
    obtain ⟨m, hm⟩ := exists_finals filler'.reverse (by simpa using h')
      (hs.mono (by simp +contextual))
    obtain ⟨n, hn⟩ := exists_finals filler.reverse (by simpa using h)
      (hs.mono (by simp +contextual))
    have hopen : Text.ink ['<'] = ['<'] := by decide
    have hclose : Text.ink ['>'] = ['>'] := by decide
    have hm' : (textOf filler').ink = Text.finals m := hm
    have hn' : (textOf filler).ink = Text.finals n := hn
    refine ⟨m, n, ?_⟩
    simp only [textOf_append, textOf_cons, Token.text, Text.ink_append, hopen, hclose, hm', hn',
      Declaration.argsInk]
    simp

/-- A split signature spells its parts and what is left behind its parameters. -/
theorem ink_textOf_latest {latest : List Token} {s : Signature} (h : ofLatest latest = .ok s)
    (hs : Lexed latest) :
    ∃ a b, (textOf latest).ink = s.returnType.ink ++
      (Text.ink (s.indirection.elim [] Indirection.text) ++ s.name.ink) ++ (Text.finals a ++
        (Declaration.argsInk s.templateArgs b ++ '(' :: (s.parameters.ink ++ [')']))) ++
      (Token.concat s.trailing).ink := by
  obtain ⟨type, between, params, ⟨named, hlatest, hnamed⟩, -, hbetween, htype, hparams, -⟩ :=
    exists_splitFrom h
  obtain ⟨a, b, hink⟩ := ink_textOf_between hbetween
    (hs.mono fun t ht => by rw [hlatest]; simp [ht])
  have hopen : Text.ink ['('] = ['('] := by decide
  have hclose : Text.ink [')'] = [')'] := by decide
  have htrailing : textOf s.trailing.reverse = Token.concat s.trailing := by simp [textOf]
  refine ⟨a, b, ?_⟩
  rw [hlatest]
  simp only [textOf_append, textOf_cons, Token.text, Text.ink_append, hnamed, hopen, hclose, htype,
    Text.ink_trim, hparams, hink, htrailing]
  simp

end Signature

namespace Declaration

/-- The addendum of a record without blanks. -/
def addendumInk (d : Declaration) : Text := (d.addendum.getD []).ink

/-- How a record is spelled by its source: up to its parameters, what follows them, and then the
addendum that starts with `const`, after the initializers if there are any. -/
structure SpelledBy (d : Declaration) (sig more : List Token) (u rest : Text) : Prop where
  ink_eq : (Token.concat sig).ink = u ++ rest
  spells : d.Spells u
  more_spec : match d.initializers with
    | none => d.addendumInk = rest ++ (Token.concat more).ink
    | some list => ∃ after tail, more = .delimiter ':' :: (after ++ tail) ∧
        (Token.concat after).trim = list ∧ (tail = [] ∨ ∃ m, tail = .word "const".toList :: m) ∧
        d.addendumInk = rest ++ (Token.concat tail).ink

variable {d e : Declaration} {sig more sig' more' : List Token} {u rest u' rest' : Text}

theorem SpelledBy.ink_source (h : d.SpelledBy sig more u rest) (hinit : d.initializers = none) :
    (Token.concat (sig ++ more)).ink = u ++ d.addendumInk := by
  have hspec := h.more_spec
  simp only [hinit] at hspec
  rw [Token.concat_append, Text.ink_append, h.ink_eq, hspec, List.append_assoc]

/-- Sources of records that agree, the second without initializers, differ in nothing but blanks and the
initializers of the first, if they go apart only where the second has a semicolon. -/
theorem SpelledBy.eq_of_meetsAt (hd : d.SpelledBy sig more u rest) (he : e.SpelledBy sig' more' u' rest')
    (h : d.Agrees e) (hinit : e.initializers = none)
    (hm : Text.MeetsAt ';' (Token.concat (sig ++ more)).ink (Token.concat (sig' ++ more')).ink) :
    match d.initializers with
    | none => (Token.concat (sig ++ more)).ink = (Token.concat (sig' ++ more')).ink
    | some list => ∃ after, more = .delimiter ':' :: after ∧ (Token.concat after).trim = list ∧
        (Token.concat sig).ink = (Token.concat (sig' ++ more')).ink := by
  have hadd : e.addendumInk = d.addendumInk := by rw [addendumInk, addendumInk, h.addendum_eq]
  have hsource := he.ink_source hinit
  rw [hadd] at hsource
  have hspec := hd.more_spec
  cases hdinit : d.initializers with
  | none =>
    rw [hd.ink_source hdinit, hsource] at hm
    obtain ⟨rfl, -⟩ := hd.spells.eq_of_meetsAt h he.spells hm
    rw [hsource]
    exact hd.ink_source hdinit
  | some list =>
    simp only [hdinit] at hspec ⊢
    obtain ⟨after, tail, rfl, hlist, htail, haddendum⟩ := hspec
    have hcolon : Text.ink [':'] = [':'] := by decide
    rw [Token.concat_append, Text.ink_append, hd.ink_eq, List.append_assoc, hsource] at hm
    obtain ⟨rfl, hrest⟩ := hd.spells.eq_of_meetsAt h he.spells hm
    rw [haddendum] at hrest
    -- A `const` after the initializers would stand where the colon stands.
    have hmark := hrest.cancel
    rw [Token.concat_cons, Token.text, Text.ink_append, hcolon, List.singleton_append] at hmark
    rcases htail with rfl | ⟨m, rfl⟩
    · refine ⟨after, by simp, hlist, ?_⟩
      rw [hsource, haddendum, hd.ink_eq]
      simp
    · have hconst : Text.ink "const".toList = 'c' :: ['o', 'n', 's', 't'] := by decide
      rw [Token.concat_cons, Token.text, Text.ink_append, hconst, List.cons_append] at hmark
      rcases hmark.head with h | h <;> simp at h

/-- A valid record whose fields were read from a source. -/
def ReadFrom (d : Declaration) (source : List Token) : Prop :=
  (Draft.readAll source).stage.reading ∧ Lexed source ∧ ∃ s text body,
    (Draft.readAll source).ended.signature = some (.ok s) ∧
      d = (Draft.readAll source).ended.recordOf s text body

end Declaration

namespace Draft

theorem ink_addendumText (latest : List Token) :
    ((addendumText latest).getD []).ink = (Signature.textOf latest).ink := by
  unfold addendumText
  dsimp only
  split
  · next h =>
    have hwords := Text.flatten_words (Signature.textOf latest)
    rw [List.isEmpty_iff.mp h] at hwords
    exact hwords
  · exact Text.ink_join_words _

@[simp] theorem storage_ended (d : Draft) : d.ended.storage = d.storage := by
  unfold ended
  split <;> rfl

@[simp] theorem constReturn_ended (d : Draft) : d.ended.constReturn = d.constReturn := by
  unfold ended
  split <;> rfl

theorem trailingOf_of_ok {type : List Token} {s : Signature} (h : Signature.ofTokens type = .ok s) :
    trailingOf type = s.trailing.reverse := by
  rw [trailingOf, h]

theorem ink_gapAfter (latest : List Token) : (Signature.textOf (gapAfter latest)).ink = [] := by
  unfold gapAfter
  split
  · rfl
  · decide

/-- The addendum is what follows the parameters and what starts with `const`. -/
theorem Divides.ink_addendum {d : Draft} {lead type tail : List Token} {s : Signature}
    (hd : Divides d lead type tail) (hs : d.stage.reading) (hok : Signature.ofTokens type = .ok s) :
    ((addendumText d.ended.addendum).getD []).ink =
      (Token.concat s.trailing).ink ++ (Token.concat tail).ink := by
  have htrailing : Signature.textOf (trailingOf type) = Token.concat s.trailing := by
    rw [trailingOf_of_ok hok]
    simp [Signature.textOf]
  rw [ink_addendumText]
  rcases (hd.ended_eq hs).2 with ⟨rfl, hadd⟩ | ⟨more, rfl, hadd⟩
  · rw [hadd, htrailing, Token.concat_nil, Text.ink_nil, List.append_nil]
  · have hmore : Signature.textOf more.reverse = Token.concat more := by simp [Signature.textOf]
    rw [hadd]
    simp only [Signature.textOf_append, Signature.textOf_cons, Text.ink_append, htrailing, hmore,
      ink_gapAfter, Token.concat_cons, List.nil_append, List.append_assoc]

/-- The record of a source is spelled by it. -/
theorem exists_spelledBy {source : List Token} {d : Declaration} (h : d.ReadFrom source) :
    ∃ sig more u rest, source = sig ++ more ∧ d.SpelledBy sig more u rest := by
  obtain ⟨hread, hlexed, s, text, body, hsig, rfl⟩ := h
  obtain ⟨lead, type, tail, hparts, hd⟩ := exists_divides hread
  obtain ⟨hended, htail⟩ := hd.ended_eq hread
  have hok : Signature.ofTokens type = .ok s := by
    rw [hsig, Option.some.injEq] at hended
    exact hended.symm
  have hin {ts : List Token} (hsub : ∀ t ∈ ts, t ∈ lead ∨ t ∈ type) : Lexed ts := by
    refine hlexed.mono fun t ht => ?_
    rw [hparts]
    rcases hsub t ht with h | h <;> simp [h]
  have hlead : (Token.concat lead).ink = (Token.concat (readAll source).specifiers).ink := by
    rw [← hd.lead_eq, ink_concat_marks (hin fun t ht => .inl ht)]
  have hadd := hd.ink_addendum hread hok
  have htail' : tail = [] ∨ ∃ m, tail = .word "const".toList :: m := by
    rcases htail with ⟨h, -⟩ | ⟨m, h, -⟩
    · exact .inl h
    · exact .inr ⟨m, h⟩
  -- The part before the list spells the record, whichever way the signature was split.
  have hspell {part : List Token} {s' : Signature} (hsub : ∀ t ∈ part, t ∈ type)
      (hok' : Signature.ofLatest part.reverse = .ok s') (hs' : s' = { s with initializers := none }) :
      ∃ u, (Token.concat (lead ++ part)).ink = u ++ (Token.concat s.trailing).ink ∧
        ((readAll source).ended.recordOf s text body).Spells u := by
    subst hs'
    obtain ⟨a, b, hink⟩ := Signature.ink_textOf_latest hok'
      (hin fun t ht => .inr (hsub t (by simpa using ht)))
    have hpart : Token.concat part = Signature.textOf part.reverse := by
      rw [Signature.textOf, List.reverse_reverse]
    refine ⟨_, ?_, a, b, rfl⟩
    rw [Token.concat_append, Text.ink_append, hlead, hpart, hink]
    simp [Declaration.nameInk, recordOf, specifiers]
  cases hinit : s.initializers with
  | none =>
    obtain ⟨u, hu, hspells⟩ := hspell (fun t ht => ht) (Signature.ofLatest_of_ok hok hinit).2 (by rw [← hinit])
    refine ⟨lead ++ type, tail, u, _, hparts, hu, hspells, ?_⟩
    simp only [recordOf, hinit]
    exact hadd
  | some list =>
    obtain ⟨head, after, s', rfl, -, -, htrim, hhead, hnone, hs⟩ := Signature.exists_before_list hok hinit
    obtain ⟨u, hu, hspells⟩ := hspell (fun t ht => List.mem_append_left _ ht)
      (Signature.ofLatest_of_ok hhead hnone).2 (by rw [hs, ← hnone])
    refine ⟨lead ++ head, .delimiter ':' :: (after ++ tail), u, _, by rw [hparts]; simp, hu, hspells, ?_⟩
    simp only [recordOf, hinit]
    exact ⟨after, tail, rfl, htrim, htail', hadd⟩

/-- Sources without initializers whose records agree differ in blanks only. -/
theorem ink_eq_of_agrees {source source' : List Token} {d e : Declaration} (hd : d.ReadFrom source)
    (he : e.ReadFrom source') (hinit : d.initializers = none) (hinit' : e.initializers = none)
    (hm : Text.MeetsAt ';' (Token.concat source).ink (Token.concat source').ink) (h : d.Agrees e) :
    (Token.concat source).ink = (Token.concat source').ink := by
  obtain ⟨sig, more, u, r, rfl, hspelled⟩ := exists_spelledBy hd
  obtain ⟨sig', more', u', r', rfl, hspelled'⟩ := exists_spelledBy he
  have heq := hspelled.eq_of_meetsAt hspelled' h hinit' hm
  simpa only [hinit] using heq

/-- And a source with initializers has them where the other one ends. -/
theorem exists_list_of_agrees {source source' : List Token} {d e : Declaration} {list : Text}
    (hd : d.ReadFrom source) (he : e.ReadFrom source') (hinit : d.initializers = some list)
    (hinit' : e.initializers = none)
    (hm : Text.MeetsAt ';' (Token.concat source).ink (Token.concat source').ink) (h : d.Agrees e) :
    ∃ sig after, source = sig ++ .delimiter ':' :: after ∧ (Token.concat after).trim = list ∧
      (Token.concat sig).ink = (Token.concat source').ink := by
  obtain ⟨sig, more, u, r, rfl, hspelled⟩ := exists_spelledBy hd
  obtain ⟨sig', more', u', r', rfl, hspelled'⟩ := exists_spelledBy he
  have heq := hspelled.eq_of_meetsAt hspelled' h hinit' hm
  simp only [hinit] at heq
  obtain ⟨after, rfl, htrim, hink⟩ := heq
  exact ⟨sig, after, rfl, htrim, hink⟩

end Draft
end OutOfLine

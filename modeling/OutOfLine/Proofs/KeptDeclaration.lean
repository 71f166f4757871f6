import OutOfLine.Proofs.ShortenedSource

/-!
# Reading a declaration that was cut

The tokens of a declaration with a body are cut before the body or before its initializers, and other
tokens follow instead. If these start with a semicolon, or with blanks and a semicolon, what is read then
keeps the declaration exactly when the cut is outside groups, the source ended there, and no `const` was
joined with blanks. A record determines its source besides blanks, so nothing else can keep it.
-/

namespace OutOfLine

namespace Draft

/-- A source does not end before tokens that are read as source. -/
theorem exists_of_reading {ts us source rest : List Token} (hread : (readAll ts).stage.reading)
    (htop : (readAll source).stage.atTop) (hrest : ∀ t r, rest = t :: r → endsSource t)
    (h : source ++ rest = ts ++ us) : ∃ more, source = ts ++ more ∧ us = more ++ rest := by
  cases rest with
  | nil => exact ⟨us, by simpa using h, by simp⟩
  | cons t rest => exact exists_of_end htop (hrest t rest rfl) hread h

/-- Nor does it end among tokens that end none. -/
theorem exists_of_append {xs us source rest : List Token} (hxs : ∀ t ∈ xs, endsSource t = false)
    (hrest : ∀ t r, rest = t :: r → endsSource t) (h : source ++ rest = xs ++ us) :
    ∃ more, source = xs ++ more ∧ us = more ++ rest := by
  rcases List.append_eq_append_iff.mp h with ⟨more, rfl, hmore⟩ | ⟨more, hsource, hus⟩
  · cases more with
    | nil => exact ⟨[], by simp, by simpa using hmore.symm⟩
    | cons t more =>
      have ht := hxs t (by simp)
      rw [hrest t (more ++ us) hmore] at ht
      simp at ht
  · exact ⟨more, hsource, hus⟩

theorem Ends.endsSource_of_cons {source rest : List Token} {text : Text} {body : Option Text}
    (h : Ends source rest text body) : ∀ t r, rest = t :: r → endsSource t := by
  rintro t r rfl
  exact h.head_endsSource

theorem Ends.eq_of_end {source rest source' rest' : List Token} {t : Token} {text : Text}
    {body : Option Text} (hends : Ends source rest text body) (hs : (readAll source).stage.atTop)
    (htop : (readAll source').stage.atTop) (ht : endsSource t) (h : source' ++ t :: rest' = source ++ rest) :
    rest = t :: rest' := by
  cases rest with
  | nil =>
    have hread := Stage.reading_of_atTop hs
    rw [List.append_nil] at h
    rw [← h, not_reading_of_end htop ht] at hread
    simp at hread
  | cons u rest =>
    obtain ⟨-, rfl, rfl⟩ := end_unique htop ht hs hends.head_endsSource h
    rfl

/-- A declaration with a body and one without do not end among the tokens they start with. -/
theorem reading_of_common {common us vs : List Token} (hvalid : (Declaration.ofTokens (common ++ us)).valid)
    (hbody : (Declaration.ofTokens (common ++ us)).hasBody)
    (hvalid' : (Declaration.ofTokens (common ++ vs)).valid)
    (hbody' : (Declaration.ofTokens (common ++ vs)).body = none) :
    (readAll common).stage.reading := by
  rcases reading_or_exists_end common with hread | ⟨source, t, rest, rfl, htop, ht⟩
  · exact hread
  · obtain ⟨s, r, _, _, body, hts, hs, -, hends, -, hrecord⟩ := exists_ends_of_valid hvalid
    obtain ⟨s', r', _, _, body', hts', hs', -, hends', -, hrecord'⟩ := exists_ends_of_valid hvalid'
    rw [hrecord] at hbody
    rw [hrecord'] at hbody'
    rw [List.append_assoc, List.cons_append] at hts hts'
    have hr := hends.eq_of_end hs htop ht hts
    have hr' := hends'.eq_of_end hs' htop ht hts'
    cases hends with
    | body block after hcloses =>
      obtain ⟨rfl, -⟩ := List.cons.inj hr
      cases hends' with
      | body block' after' hcloses' => simp [recordOf] at hbody'
      | _ => simp at hr'
    | _ => simp [recordOf, Declaration.hasBody] at hbody

/-- The source of a declaration with a body goes on behind tokens that are read as source. -/
theorem exists_source_of_hasBody {common xs us : List Token}
    (hvalid : (Declaration.ofTokens (common ++ xs ++ us)).valid)
    (hbody : (Declaration.ofTokens (common ++ xs ++ us)).hasBody)
    (hread : (readAll common).stage.reading) (hxs : ∀ t ∈ xs, endsSource t = false) :
    ∃ more rest signature body, us = more ++ .delimiter '{' :: rest ∧
      (readAll (common ++ xs ++ more)).stage.atTop ∧
      (readAll (common ++ xs ++ more)).ended.signature = some (.ok signature) ∧
      Declaration.ofTokens (common ++ xs ++ us) = (readAll (common ++ xs ++ more)).ended.recordOf signature
        (Token.concat (common ++ xs ++ more)) body := by
  obtain ⟨source, rest, signature, text, body, hts, htop, hsig, hends, -, hrecord⟩ :=
    exists_ends_of_valid hvalid
  rw [List.append_assoc] at hts
  obtain ⟨more, rfl, hmore⟩ := exists_of_reading hread htop hends.endsSource_of_cons hts.symm
  obtain ⟨more, rfl, hus⟩ := exists_of_append hxs hends.endsSource_of_cons hmore.symm
  rw [hrecord] at hbody
  rw [← List.append_assoc] at htop hsig hrecord
  cases hends with
  | body block after hcloses =>
    exact ⟨more, _, signature, _, hus, htop, hsig, by rw [hrecord, List.append_assoc]⟩
  | _ => simp [recordOf, Declaration.hasBody] at hbody

theorem semicolon_not_blank : isBlankChar ';' = false := by decide

theorem colon_not_blank : isBlankChar ':' = false := by decide

theorem brace_not_blank : isBlankChar '{' = false := by decide

theorem ink_concat_delimiter {c : Char} (hc : isBlankChar c = false) (a m : List Token) :
    (Token.concat (a ++ .delimiter c :: m)).ink = (Token.concat a).ink ++ c :: (Token.concat m).ink := by
  rw [Token.concat_append, Token.concat_cons, Token.text, List.singleton_append, Text.ink_append,
    Text.ink_cons_of_not_blank hc]

/-- Tokens before a colon are told apart by what they have besides blanks. -/
theorem append_colon_inj {a b p q : List Token} (h : a ++ .delimiter ':' :: p = b ++ .delimiter ':' :: q)
    (hink : (Token.concat a).ink = (Token.concat b).ink) : a = b ∧ p = q := by
  have hlonger {a b r : List Token} (hb : b = a ++ .delimiter ':' :: r) :
      (Token.concat a).ink ≠ (Token.concat b).ink := by
    intro heq
    have hlen := congrArg List.length heq
    rw [hb, ink_concat_delimiter colon_not_blank, List.length_append, List.length_cons] at hlen
    omega
  rcases List.append_eq_append_iff.mp h with ⟨r, hb, hr⟩ | ⟨r, ha, hr⟩
  · cases r with
    | nil => exact ⟨by simpa using hb.symm, by simpa using hr⟩
    | cons t r =>
      obtain ⟨rfl, -⟩ := List.cons.inj hr
      exact absurd hink (hlonger hb)
  · cases r with
    | nil => exact ⟨by simpa using ha, by simpa using hr.symm⟩
    | cons t r =>
      obtain ⟨rfl, -⟩ := List.cons.inj hr
      exact absurd hink.symm (hlonger ha)

/-- The character at which a declaration with or without initializers is cut. -/
def cutChar : Option Text → Char
  | none => '{'
  | some _ => ':'

/-- A source that, besides blanks, ends at a cut or has a semicolon there. -/
def StopsAt (cut source : List Token) : Prop :=
  (Token.concat source).ink = (Token.concat cut).ink ∨
    (Token.concat cut).ink ++ [';'] <+: (Token.concat source).ink

namespace StopsAt

variable {cut source : List Token} {c : Char}

theorem front (h : StopsAt cut source) : (Token.concat cut).ink <+: (Token.concat source).ink := by
  rcases h with h | h
  · exact h ▸ List.prefix_rfl
  · exact (List.prefix_append _ _).trans h

private theorem ink_front (hc : isBlankChar c = false) (cut m : List Token) :
    (Token.concat cut).ink ++ [c] <+: (Token.concat (cut ++ .delimiter c :: m)).ink := by
  refine ⟨(Token.concat m).ink, ?_⟩
  rw [ink_concat_delimiter hc, List.append_assoc, List.singleton_append]

theorem meetsAt (h : StopsAt cut source) (hc : isBlankChar c = false) (hne : c ≠ ';') (m : List Token) :
    Text.MeetsAt ';' (Token.concat (cut ++ .delimiter c :: m)).ink (Token.concat source).ink := by
  have hlong := ink_front hc cut m
  rcases h with heq | hpre
  · rw [heq]
    exact .of_front (.inr ((List.prefix_append _ _).trans hlong))
  · exact .of_fork hne hlong hpre

theorem eq_of_front (h : StopsAt cut source) (hc : isBlankChar c = false) (hne : c ≠ ';') {m : List Token}
    (hfront : (Token.concat source).ink <+: (Token.concat (cut ++ .delimiter c :: m)).ink) :
    (Token.concat source).ink = (Token.concat cut).ink := by
  rcases h with heq | hpre
  · exact heq
  · exact absurd (Text.snoc_inj_of_front rfl (ink_front hc cut m) (hpre.trans hfront)).2 hne

end StopsAt

/-- Where records agree, the source of the one without initializers ends at the cut, and so does that of
the other one, or its initializers start there. -/
theorem source_of_agrees {cut more source : List Token} {d e : Declaration}
    (hd : d.ReadFrom (cut ++ more)) (he : e.ReadFrom source) (hinit : e.initializers = none)
    (hmore : (d.initializers = none ∧ more = []) ∨ ∃ m, more = .delimiter (cutChar d.initializers) :: m)
    (hstops : StopsAt cut source) (h : d.Agrees e) :
    (Token.concat source).ink = (Token.concat cut).ink ∧
      match d.initializers with
      | none => more = []
      | some list => ∃ after, more = .delimiter ':' :: after ∧ (Token.concat after).trim = list := by
  rcases hmore with ⟨hs, rfl⟩ | ⟨m, rfl⟩
  · rw [List.append_nil] at hd
    rw [hs]
    exact ⟨(ink_eq_of_agrees hd he hs hinit (.of_front (.inl hstops.front)) h).symm, rfl⟩
  cases hs : d.initializers with
  | none =>
    -- A source that goes on with a brace has more than the other one.
    rw [hs, cutChar] at hd
    have hink := ink_eq_of_agrees hd he hs hinit (hstops.meetsAt brace_not_blank (by decide) m) h
    have hfront : (Token.concat source).ink <+: (Token.concat (cut ++ .delimiter '{' :: m)).ink :=
      hink ▸ List.prefix_rfl
    have heq := hstops.eq_of_front brace_not_blank (by decide) hfront
    have hlen := congrArg List.length (hink.trans heq)
    rw [ink_concat_delimiter brace_not_blank, List.length_append, List.length_cons] at hlen
    omega
  | some list =>
    rw [hs, cutChar] at hd
    obtain ⟨sig, after, hparts, htrim, hink⟩ :=
      exists_list_of_agrees hd he hs hinit (hstops.meetsAt colon_not_blank (by decide) m) h
    have hcut : (Token.concat source).ink = (Token.concat cut).ink := by
      refine hstops.eq_of_front (m := m) colon_not_blank (by decide) ?_
      rw [hparts, ← hink, Token.concat_append, Text.ink_append]
      exact List.prefix_append _ _
    obtain ⟨-, rfl⟩ := append_colon_inj hparts (by rw [hink, hcut])
    exact ⟨hcut, m, rfl, htrim⟩

end Draft

namespace Declaration

/-- The second record keeps the first one as a declaration without body and initializers. -/
structure Keeps (d e : Declaration) : Prop where
  valid : e.valid
  body_eq : e.body = none
  initializers_eq : e.initializers = none
  source_last : e.sourceText.getLast? = some ';'
  agrees : d.Agrees e

instance (d e : Declaration) : Decidable (d.Keeps e) :=
  decidable_of_iff (e.valid ∧ e.body = none ∧ e.initializers = none ∧
      e.sourceText.getLast? = some ';' ∧ d.Agrees e)
    ⟨fun ⟨h₁, h₂, h₃, h₄, h₅⟩ => ⟨h₁, h₂, h₃, h₄, h₅⟩, fun ⟨h₁, h₂, h₃, h₄, h₅⟩ => ⟨h₁, h₂, h₃, h₄, h₅⟩⟩

/-- Whether the source of a record is the text before a cut, or that text and its initializers. -/
def SourceEndsAt (d : Declaration) (cut : Text) : Prop :=
  match d.initializers with
  | none => d.sourceText = cut
  | some list => ∃ rest : Text, d.sourceText = cut ++ ':' :: rest ∧ rest.trim = list

/-- A declaration with a body whose tokens are cut at the brace of a body or at the first colon that opens
a list, as its record has it. -/
structure CutAt (d : Declaration) (cut : List Token) (c : Char) (us : List Token) : Prop where
  record_eq : d = .ofTokens (cut ++ .delimiter c :: us)
  valid : d.valid
  hasBody : d.hasBody
  char_eq : c = Draft.cutChar d.initializers
  first : c = ':' → ∀ sig more, cut = sig ++ .delimiter ':' :: more →
    Signature.opensAt (Parens.after {} sig) sig.reverse (.delimiter ':') (more ++ [.delimiter ':']) = false
  lexed : Lexed (cut ++ .delimiter c :: us)

/-- Tokens that are the source of a declaration: they end outside groups, and the signature that is read from them
has no initializers and agrees with the record. -/
structure HasSource (d : Declaration) (source : List Token) : Prop where
  atTop : (Draft.readAll source).stage.atTop
  agrees : ∃ s, (Draft.readAll source).ended.signature = some (.ok s) ∧ s.initializers = none ∧
    d.Agrees ((Draft.readAll source).ended.recordOf s [] none)

/-- What follows the tokens that were kept brings the rest of the source and a semicolon. At the end of the text
the semicolon may also be the last character of a literal that was left open behind `const`. -/
def CompletedBy (d : Declaration) (kept following : List Token) : Prop :=
  (∃ rest more, following = rest ++ .delimiter ';' :: more ∧ d.HasSource (kept ++ rest)) ∨
    (d.HasSource (kept ++ following) ∧ (Draft.readAll (kept ++ following)).stage = .addendum ∧
      (Token.concat (kept ++ following)).getLast? = some ';')

end Declaration

namespace Draft

theorem reading_of_keeps {common xs us vs : List Token} {c : Char} {d e : Declaration}
    (hcut : d.CutAt (common ++ xs) c us) (he : e = .ofTokens (common ++ vs)) (h : d.Keeps e) :
    (readAll common).stage.reading := by
  have hvalid := hcut.valid
  have hbody := hcut.hasBody
  have hvalid' := h.valid
  have hbody' := h.body_eq
  rw [hcut.record_eq, List.append_assoc] at hvalid hbody
  rw [he] at hvalid' hbody'
  exact reading_of_common hvalid hbody hvalid' hbody'

/-- The source of a kept declaration goes on behind what both texts start with. -/
theorem exists_ends_of_keeps {common xs us vs : List Token} {c : Char} {d e : Declaration}
    (hcut : d.CutAt (common ++ xs) c us) (he : e = .ofTokens (common ++ vs)) (h : d.Keeps e) :
    ∃ z ending s text body, vs = z ++ ending ∧ (readAll (common ++ z)).stage.atTop ∧
      (readAll (common ++ z)).ended.signature = some (.ok s) ∧ Ends (common ++ z) ending text body ∧
      (ending = [] → (readAll (common ++ z)).stage = .addendum) ∧
      e = (readAll (common ++ z)).ended.recordOf s text body := by
  have hread := reading_of_keeps hcut he h
  have hvalid := h.valid
  rw [he] at hvalid
  obtain ⟨source, ending, s, text, body, hts, htop, hsig, hends, hending, hrecord⟩ := exists_ends_of_valid hvalid
  obtain ⟨z, rfl, rfl⟩ := exists_of_reading hread htop hends.endsSource_of_cons hts.symm
  exact ⟨z, ending, s, text, body, rfl, htop, hsig, hends, hending, he.trans hrecord⟩

/-- The source of a declaration that is cut goes on there with the character of the cut, if it goes on. -/
theorem next_of_cut {more rest us : List Token} {c : Char} {initializers : Option Text}
    (hmore : .delimiter c :: us = more ++ .delimiter '{' :: rest) (hc : c = cutChar initializers) :
    (initializers = none ∧ more = []) ∨ ∃ m, more = .delimiter (cutChar initializers) :: m := by
  cases more with
  | nil =>
    cases initializers with
    | none => exact .inl ⟨rfl, rfl⟩
    | some list => simp [hc, cutChar] at hmore
  | cons t more =>
    obtain ⟨rfl, -⟩ := List.cons.inj hmore
    exact .inr ⟨more, by rw [hc]⟩

/-- A kept declaration ends its source at the cut, besides blanks, and the moved one has its source or the
colon of its initializers there. -/
theorem exists_kept_source {common xs us vs : List Token} {c : Char} {d e : Declaration}
    (hcut : d.CutAt (common ++ xs) c us) (he : e = .ofTokens (common ++ vs)) (h : d.Keeps e)
    (hxs : ∀ t ∈ xs, endsSource t = false) (hlexed' : Lexed (common ++ vs))
    (hstops : ∀ z r, vs = z ++ r → (∀ t r', r = t :: r' → endsSource t) →
      StopsAt (common ++ xs) (common ++ z)) :
    (∃ z r, vs = z ++ r ∧ (∀ t r', r = t :: r' → endsSource t) ∧
      (readAll (common ++ z)).stage.atTop ∧
      (Token.concat (common ++ z)).ink = (Token.concat (common ++ xs)).ink) ∧
    d.SourceEndsAt (Token.concat (common ++ xs)) := by
  have hread := reading_of_keeps hcut he h
  obtain ⟨z, ending, s', text', body', hz, htop', hsig', hends, -, hrecord'⟩ := exists_ends_of_keeps hcut he h
  obtain ⟨hd, hvalid, hbody, hc, -, hlexed⟩ := hcut
  rw [hd] at hvalid hbody
  obtain ⟨more, rest, s, body, hmore, htop, hsig, hrecord⟩ :=
    exists_source_of_hasBody hvalid hbody hread hxs
  rw [← hd] at hrecord
  rw [hmore] at hlexed
  rw [hz] at hlexed'
  have hfrom : d.ReadFrom (common ++ xs ++ more) :=
    ⟨Stage.reading_of_atTop htop, hlexed.append_left, s, _, body, hsig, hrecord⟩
  have hfrom' : e.ReadFrom (common ++ z) :=
    ⟨Stage.reading_of_atTop htop', hlexed'.append_left, s', text', body', hsig', hrecord'⟩
  -- Both records are read from sources whose marks stop at the same place, so agreeing makes them equal.
  obtain ⟨hink, hlist⟩ := source_of_agrees hfrom hfrom' h.initializers_eq (next_of_cut hmore hc)
    (hstops z ending hz hends.endsSource_of_cons) h.agrees
  refine ⟨⟨z, ending, hz, hends.endsSource_of_cons, htop', hink⟩, ?_⟩
  have htext : d.sourceText = Token.concat (common ++ xs ++ more) := by rw [hrecord]; rfl
  rw [Declaration.SourceEndsAt]
  cases hs : d.initializers with
  | none =>
    simp only [hs] at hlist ⊢
    rw [htext, hlist, List.append_nil]
  | some list =>
    simp only [hs] at hlist ⊢
    obtain ⟨after, rfl, htrim⟩ := hlist
    exact ⟨Token.concat after, by rw [htext]; simp [Token.text], htrim⟩

/-- A list starts at a cut if what follows the cut is spelled like it and no colon before the cut opens a
list. -/
theorem cut_eq_of_opensAt {cut more lead head after tail : List Token}
    (h : lead ++ head ++ .delimiter ':' :: (after ++ tail) = cut ++ .delimiter ':' :: more)
    (hlead : ∀ c, .delimiter c ∉ lead)
    (hopens : Signature.opensAt (Parens.after {} head) head.reverse (.delimiter ':') after)
    (hne : after ≠ []) (hink : (Token.concat after).ink = (Token.concat more).ink)
    (hfirst : ∀ sig rest, cut = sig ++ .delimiter ':' :: rest →
      Signature.opensAt (Parens.after {} sig) sig.reverse (.delimiter ':')
        (rest ++ [.delimiter ':']) = false) :
    cut = lead ++ head ∧ more = after ++ tail := by
  rcases List.append_eq_append_iff.mp h with ⟨r, hc, hr⟩ | ⟨r, hl, hr⟩
  · cases r with
    | nil => exact ⟨by simpa using hc, by simpa using hr.symm⟩
    | cons t r =>
      -- The colon of the list would be one before the cut.
      rw [List.cons_append, List.cons.injEq] at hr
      obtain ⟨rfl, hr⟩ := hr
      have hhead : (r ++ [Token.delimiter ':']).head? = after.head? := by
        have hsame : (r ++ [Token.delimiter ':']).head? = (after ++ tail).head? := by
          rw [hr]
          cases r <;> rfl
        cases after with
        | nil => exact absurd rfl hne
        | cons x after => exact hsame
      have hfalse := hfirst (lead ++ head) r hc
      rw [Signature.opensAt_lead hlead hopens hhead] at hfalse
      simp at hfalse
  · cases r with
    | nil => exact ⟨by simpa using hl.symm, by simpa using hr⟩
    | cons t r =>
      -- The list would start behind the cut.
      rw [List.cons_append, List.cons.injEq] at hr
      obtain ⟨rfl, hr⟩ := hr
      have hlen := congrArg List.length hink
      rw [hr] at hlen
      simp only [Token.concat_append, Token.concat_cons, Token.text, List.singleton_append,
        Text.ink_append, Text.ink_cons_of_not_blank colon_not_blank, List.length_append,
        List.length_cons] at hlen
      omega

/-- The signature of a source with initializers, if it is cut at a colon behind which its list stands and
no colon before that one opens a list. -/
theorem exists_signature_at_colon {cut more : List Token} {s : Signature} {list : Text}
    (hread : (readAll (cut ++ .delimiter ':' :: more)).stage.reading)
    (hsig : (readAll (cut ++ .delimiter ':' :: more)).ended.signature = some (.ok s))
    (hinit : s.initializers = some list) (hlist : (Token.concat more).trim = list)
    (hfirst : ∀ sig rest, cut = sig ++ .delimiter ':' :: rest →
      Signature.opensAt (Parens.after {} sig) sig.reverse (.delimiter ':')
        (rest ++ [.delimiter ':']) = false) :
    ∃ lead head s', cut = lead ++ head ∧
      Divides (readAll (cut ++ .delimiter ':' :: more)) lead (head ++ .delimiter ':' :: more) [] ∧
      Signature.ofTokens head = .ok s' ∧ s'.initializers = none ∧
      s = { s' with initializers := some list } := by
  obtain ⟨lead, type, tail, hparts, hd⟩ := exists_divides hread
  obtain ⟨hended, htail⟩ := hd.ended_eq hread
  rw [hsig, Option.some.injEq] at hended
  obtain ⟨head, after, s', rfl, hopens, hne, htrim, hhead, hnone, hs⟩ :=
    Signature.exists_before_list hended.symm hinit
  have hink : (Token.concat after).ink = (Token.concat more).ink := by
    rw [← Text.ink_trim (Token.concat more), hlist, ← htrim, Text.ink_trim]
  have hsame : lead ++ head ++ .delimiter ':' :: (after ++ tail) = cut ++ .delimiter ':' :: more := by
    rw [hparts]
    simp
  obtain ⟨rfl, rfl⟩ := cut_eq_of_opensAt hsame hd.delimiter_not_mem hopens hne hink hfirst
  have hnil : tail = [] := by
    rcases htail with ⟨h, -⟩ | ⟨m, rfl, -⟩
    · exact h
    · have hlen := congrArg List.length hink
      have hconst : Text.ink "const".toList = "const".toList := by decide
      simp only [Token.concat_append, Token.concat_cons, Token.text, Text.ink_append, hconst,
        List.length_append] at hlen
      simp at hlen
  subst hnil
  rw [List.append_nil] at hd ⊢
  exact ⟨lead, head, s', rfl, hd, hhead, hnone, hs⟩

theorem Divides.stage_eq_of_nil {d : Draft} {lead type : List Token} (hd : Divides d lead type [])
    (hne : type ≠ []) (htop : d.stage.atTop) : d.stage = .type none := by
  have hspec := hd.stage_spec
  rcases Stage.atTop_iff.mp htop with hstage | hstage | hstage | hstage
  · simp [hstage, hne] at hspec
  · simp [hstage, hne] at hspec
  · exact hstage
  · simp [hstage] at hspec

/-- A signature that goes on was going on behind its parameters. -/
theorem exists_stage_of_append {ts us : List Token} {group : Option Group} (hclose : .delimiter ')' ∈ ts)
    (h : (readAll (ts ++ us)).stage = .type group) : ∃ group', (readAll ts).stage = .type group' := by
  have hread : (readAll ts).stage.reading := reading_of_readAll_append (by rw [h]; rfl)
  cases hs : (readAll ts).stage with
  | type group => exact ⟨group, rfl⟩
  | storage => exact absurd hclose (delimiter_not_mem_of_lead (.inl hs) ')')
  | constReturn => exact absurd hclose (delimiter_not_mem_of_lead (.inr hs) ')')
  | addendum =>
    have hpast := isPast_foldl_feed (d := readAll ts) (by rw [hs]; rfl) us
    rw [← readAll_append, h] at hpast
    simp [Stage.isPast] at hpast
  | body depth => simp [hs, Stage.reading] at hread
  | done => simp [hs, Stage.reading] at hread

/-- A source that is cut at the colon of its list has the record that it has there. -/
theorem exists_record_at_colon {cut more : List Token} {s : Signature} {list : Text}
    (htop : (readAll (cut ++ .delimiter ':' :: more)).stage.atTop)
    (hsig : (readAll (cut ++ .delimiter ':' :: more)).ended.signature = some (.ok s))
    (hinit : s.initializers = some list) (hlist : (Token.concat more).trim = list)
    (hfirst : ∀ sig rest, cut = sig ++ .delimiter ':' :: rest →
      Signature.opensAt (Parens.after {} sig) sig.reverse (.delimiter ':')
        (rest ++ [.delimiter ':']) = false) :
    ∃ s', (readAll cut).ended.signature = some (.ok s') ∧ s'.initializers = none ∧
      ∀ (e : Declaration) text body text' body',
        ((readAll (cut ++ .delimiter ':' :: more)).ended.recordOf s text body).Agrees e ↔
          ((readAll cut).ended.recordOf s' text' body').Agrees e := by
  have hread := Stage.reading_of_atTop htop
  obtain ⟨lead, head, s', hcut, hd, hok, hnone, hs⟩ :=
    exists_signature_at_colon hread hsig hinit hlist hfirst
  have hstage := hd.stage_eq_of_nil (by simp) htop
  have hclose : .delimiter ')' ∈ cut := by
    rw [hcut]
    exact List.mem_append_right lead (Signature.close_mem_of_ok hok)
  obtain ⟨group, hgroup⟩ := exists_stage_of_append hclose hstage
  -- The list only added to the type, so the reader at the colon differs in type and source.
  have hall := hstage
  rw [readAll_append] at hall
  have hfold := foldl_feed_type hgroup hall
  rw [← readAll_append] at hfold
  have htype : (readAll cut).type.reverse = head := by
    have h := hd.type_eq
    rw [hfold] at h
    simpa using congrArg List.reverse h
  have hended : (readAll cut).ended =
      { readAll cut with
        signature := some (Signature.ofTokens head)
        addendum := trailingOf head } := by
    rw [ended_of_ne_addendum (by simp [hgroup]), htype]
  have hadd : (readAll (cut ++ .delimiter ':' :: more)).ended.addendum = trailingOf head := by
    obtain ⟨hsig', htail⟩ := hd.ended_eq hread
    rw [hsig, Option.some.injEq] at hsig'
    rcases htail with ⟨-, htail⟩ | ⟨_, hnil, -⟩
    · rw [htail, trailingOf_of_ok hsig'.symm, trailingOf_of_ok hok, hs]
    · simp at hnil
  refine ⟨s', by rw [hended, hok], hnone, fun e text body text' body' => Declaration.Agrees.congr ?_ e⟩
  have hstorage : (readAll (cut ++ .delimiter ':' :: more)).ended.storage = (readAll cut).ended.storage := by
    rw [storage_ended, storage_ended, hfold]
  have hconst : (readAll (cut ++ .delimiter ':' :: more)).ended.constReturn =
      (readAll cut).ended.constReturn := by
    rw [constReturn_ended, constReturn_ended, hfold]
  have haddendum : addendumText (readAll (cut ++ .delimiter ':' :: more)).ended.addendum =
      addendumText (readAll cut).ended.addendum := by
    rw [hadd, hended]
  subst hs
  exact ⟨hstorage, hconst, rfl, rfl, rfl, rfl, rfl, haddendum⟩

/-- A moved declaration whose source ends at the cut agrees with the same records as the tokens before the
cut, if no earlier colon opens a list. -/
theorem exists_record_at_cut {common xs us : List Token} {c : Char} {d : Declaration}
    (hcut : d.CutAt (common ++ xs) c us) (hread : (readAll common).stage.reading) (hxs : ∀ t ∈ xs, endsSource t = false)
    (hsource : d.SourceEndsAt (Token.concat (common ++ xs))) :
    ∃ s, (readAll (common ++ xs)).stage.reading ∧
      (readAll (common ++ xs)).ended.signature = some (.ok s) ∧ s.initializers = none ∧
      ∀ e : Declaration, d.Agrees e ↔ ((readAll (common ++ xs)).ended.recordOf s [] none).Agrees e := by
  obtain ⟨hd, hvalid, hbody, hc, hfirst, -⟩ := hcut
  rw [hd] at hvalid hbody
  obtain ⟨more, after, s, body, hmore, htop, hsig, hrecord⟩ :=
    exists_source_of_hasBody hvalid hbody hread hxs
  rw [← hd] at hrecord
  have hinit : d.initializers = s.initializers := by rw [hrecord]; rfl
  have htext : d.sourceText = Token.concat (common ++ xs ++ more) := by rw [hrecord]; rfl
  have hreadX := reading_of_readAll_append (Stage.reading_of_atTop htop)
  rw [Declaration.SourceEndsAt, hinit, htext, Token.concat_append] at hsource
  rw [hinit] at hc
  cases more with
  | nil =>
    rw [List.append_nil] at hsig hrecord
    cases hs : s.initializers with
    | none =>
      refine ⟨s, hreadX, hsig, hs, fun e => Declaration.Agrees.congr ?_ e⟩
      rw [hrecord]
      exact ⟨rfl, rfl, rfl, rfl, rfl, rfl, rfl, rfl⟩
    | some list => simp [hs] at hsource
  | cons t m =>
    obtain ⟨rfl, -⟩ := List.cons.inj hmore
    cases hs : s.initializers with
    | none => simp [hs, Token.text] at hsource
    | some list =>
      rw [hs] at hc
      obtain rfl : c = ':' := hc
      simp only [hs, Token.concat_cons, Token.text, List.singleton_append, List.append_cancel_left_eq,
        List.cons.injEq, true_and] at hsource
      obtain ⟨r, rfl, htrim⟩ := hsource
      obtain ⟨s', hsig', hnone, hagrees⟩ := exists_record_at_colon htop hsig hs htrim (hfirst rfl)
      refine ⟨s', hreadX, hsig', hnone, fun e => ?_⟩
      rw [hrecord]
      exact hagrees e _ _ _ _

/-- The record of a source that spells a declaration keeps it, if its text ends in a semicolon. -/
theorem keeps_iff_of_ends {source ending : List Token} {text : Text} {s : Signature} {d e : Declaration}
    (he : e = .ofTokens (source ++ ending)) (htop : (readAll source).stage.atTop)
    (hsig : (readAll source).ended.signature = some (.ok s)) (hinit : s.initializers = none)
    (hends : Ends source ending text none) (hending : ending = [] → (readAll source).stage = .addendum)
    (htext : text.getLast? = some ';') :
    d.Keeps e ↔ d.Agrees ((readAll source).ended.recordOf s [] none) := by
  have hrecord : e = (readAll source).ended.recordOf s text none := by
    rw [he]
    exact finish_of_ends htop hsig hends hending
  constructor
  · intro h
    obtain ⟨h₁, h₂, h₃, h₄, h₅, h₆, h₇, h₈⟩ := h.agrees
    rw [hrecord] at h₁ h₂ h₃ h₄ h₅ h₆ h₇ h₈
    exact ⟨h₁, h₂, h₃, h₄, h₅, h₆, h₇, h₈⟩
  · rintro ⟨h₁, h₂, h₃, h₄, h₅, h₆, h₇, h₈⟩
    rw [hrecord]
    exact ⟨rfl, rfl, hinit, htext, h₁, h₂, h₃, h₄, h₅, h₆, h₇, h₈⟩

theorem keeps_of_semicolon {source more : List Token} {s : Signature} {d e : Declaration}
    (he : e = .ofTokens (source ++ .delimiter ';' :: more)) (htop : (readAll source).stage.atTop)
    (hsig : (readAll source).ended.signature = some (.ok s)) (hinit : s.initializers = none) :
    d.Keeps e ↔ d.Agrees ((readAll source).ended.recordOf s [] none) :=
  keeps_iff_of_ends he htop hsig hinit (.semicolon more) (by simp) (by simp)

section Cut

variable {before rest us vs : List Token} {word b : Text} {c : Char} {d e : Declaration}

theorem ink_concat_shortened (hb : ∀ c ∈ b, isBlankChar c) (hrest : ∀ t ∈ rest, t.isBlank) :
    (Token.concat (before ++ (Lexer.flush (b ++ word) ++ rest))).ink =
      (Token.concat (before ++ Lexer.flush word)).ink := by
  have hword : Text.ink b.reverse = [] := Text.ink_eq_nil_iff.mpr (by simpa using hb)
  have hmore : (Token.concat rest).ink = [] := Text.ink_eq_nil_iff.mpr (blank_concat hrest)
  simp only [Token.concat_append, Text.ink_append, Lexer.concat_flush, List.reverse_append, hword, hmore,
    List.append_nil]

theorem endsSource_of_mem_flush {t : Token} (ht : t ∈ Lexer.flush word) : endsSource t = false := by
  unfold Lexer.flush at ht
  split at ht
  · simp at ht
  · rw [List.mem_singleton.mp ht]
    rfl

theorem endsSource_of_mem_shortened (hrest : ∀ t ∈ rest, t.isBlank) :
    ∀ t ∈ Lexer.flush word ++ rest, endsSource t = false := by
  intro t ht
  rcases List.mem_append.mp ht with ht | ht
  · exact endsSource_of_mem_flush ht
  · exact endsSource_of_isQuiet (Token.isQuiet_of_isBlank (hrest t ht))

/-- A kept declaration was cut outside groups and where its source ends. -/
theorem clean_of_keeps (hb : ∀ c ∈ b, isBlankChar c) (hrest : ∀ t ∈ rest, t.isBlank)
    (hcut : d.CutAt (before ++ (Lexer.flush (b ++ word) ++ rest)) c us)
    (he : e = .ofTokens (before ++ (Lexer.flush word ++ .delimiter ';' :: vs))) (h : d.Keeps e)
    (hlexed' : Lexed (before ++ (Lexer.flush word ++ .delimiter ';' :: vs))) :
    (readAll (before ++ Lexer.flush word)).stage.atTop ∧
      d.SourceEndsAt (Token.concat (before ++ (Lexer.flush (b ++ word) ++ rest))) := by
  have hxs : ∀ t ∈ Lexer.flush (b ++ word) ++ rest, endsSource t = false :=
    endsSource_of_mem_shortened hrest
  -- The source of the kept declaration ends behind the last word or goes on with the semicolon.
  have hnext {z r : List Token} (hz : Lexer.flush word ++ .delimiter ';' :: vs = z ++ r)
      (hr : ∀ t r', r = t :: r' → endsSource t) :
      z = Lexer.flush word ∨ ∃ m, z = Lexer.flush word ++ .delimiter ';' :: m := by
    obtain ⟨m, rfl, hm⟩ := exists_of_append (fun t ht => endsSource_of_mem_flush ht) hr hz.symm
    cases m with
    | nil => exact .inl (List.append_nil _)
    | cons t m =>
      obtain ⟨rfl, -⟩ := List.cons.inj hm
      exact .inr ⟨m, rfl⟩
  have hlong (m : List Token) : (Token.concat (before ++ (Lexer.flush word ++ .delimiter ';' :: m))).ink =
      (Token.concat (before ++ Lexer.flush word)).ink ++ ';' :: (Token.concat m).ink := by
    simp only [Token.concat_append, Token.concat_cons, Token.text, List.singleton_append,
      Text.ink_append, Text.ink_cons_of_not_blank semicolon_not_blank, List.append_assoc]
  obtain ⟨⟨z, r, hz, hr, htop, hink⟩, hsource⟩ :=
    exists_kept_source hcut he h hxs hlexed' fun z r hz hr => by
      rw [StopsAt, ink_concat_shortened hb hrest]
      rcases hnext hz hr with rfl | ⟨m, rfl⟩
      · exact .inl rfl
      · refine .inr ⟨(Token.concat m).ink, ?_⟩
        rw [hlong, List.append_assoc, List.singleton_append]
  refine ⟨?_, hsource⟩
  rcases hnext hz hr with rfl | ⟨m, rfl⟩
  · exact htop
  · have hlen := congrArg List.length hink
    rw [ink_concat_shortened hb hrest, hlong, List.length_append, List.length_cons] at hlen
    omega

/-- Nothing is kept where a literal takes in the semicolon. -/
theorem not_keeps_of_literal {text v v' : Text} (hv : ∀ c ∈ v, isBlankChar c)
    (hrest : ∀ t ∈ rest, t.isBlank)
    (hcut : d.CutAt (before ++ .literal (text ++ v) :: rest) c us)
    (he : e = .ofTokens (before ++ .literal (text ++ ';' :: v') :: vs))
    (hlexed' : Lexed (before ++ .literal (text ++ ';' :: v') :: vs)) : ¬ d.Keeps e := by
  intro h
  have hxs : ∀ t ∈ .literal (text ++ v) :: rest, endsSource t = false := by
    intro t ht
    rcases List.mem_cons.mp ht with rfl | ht
    · rfl
    · exact endsSource_of_isQuiet (Token.isQuiet_of_isBlank (hrest t ht))
  have hshort : (Token.concat (before ++ .literal (text ++ v) :: rest)).ink =
      (Token.concat before).ink ++ text.ink := by
    have hblank : v.ink = [] := Text.ink_eq_nil_iff.mpr hv
    have hmore : (Token.concat rest).ink = [] := Text.ink_eq_nil_iff.mpr (blank_concat hrest)
    simp only [Token.concat_append, Token.concat_cons, Token.text, Text.ink_append, hblank, hmore,
      List.append_nil]
  -- The literal belongs to the source, and the semicolon to the literal.
  have hlong {z r : List Token} (hz : .literal (text ++ ';' :: v') :: vs = z ++ r)
      (hr : ∀ t r', r = t :: r' → endsSource t) :
      ∃ m, (Token.concat (before ++ z)).ink =
        (Token.concat (before ++ .literal (text ++ v) :: rest)).ink ++ ';' :: m := by
    cases z with
    | nil => exact absurd (hr _ vs hz.symm) (by simp [endsSource])
    | cons t z =>
      obtain ⟨rfl, -⟩ := List.cons.inj hz
      refine ⟨v'.ink ++ (Token.concat z).ink, ?_⟩
      rw [hshort]
      simp only [Token.concat_append, Token.concat_cons, Token.text, Text.ink_append,
        Text.ink_cons_of_not_blank semicolon_not_blank, List.append_assoc, List.cons_append]
  obtain ⟨⟨z, r, hz, hr, -, hink⟩, -⟩ :=
    exists_kept_source hcut he h hxs hlexed' fun z r hz hr => by
      obtain ⟨m, hm⟩ := hlong hz hr
      exact .inr ⟨m, by rw [hm, List.append_assoc, List.singleton_append]⟩
  obtain ⟨m, hm⟩ := hlong hz hr
  have hlen := congrArg List.length hink
  rw [hm, List.length_append, List.length_cons] at hlen
  omega

/-- A clean cut keeps the declaration, unless a `const` was joined with the blanks behind it. -/
theorem keeps_iff_not_glued (hb : ∀ c ∈ b, isBlankChar c) (hrest : ∀ t ∈ rest, t.isBlank)
    (hcut : d.CutAt (before ++ (Lexer.flush (b ++ word) ++ rest)) c us)
    (he : e = .ofTokens (before ++ (Lexer.flush word ++ .delimiter ';' :: vs)))
    (htop : (readAll (before ++ Lexer.flush word)).stage.atTop)
    (hsource : d.SourceEndsAt (Token.concat (before ++ (Lexer.flush (b ++ word) ++ rest)))) :
    d.Keeps e ↔ ¬ Glued (before ++ Lexer.flush word) (before ++ (Lexer.flush (b ++ word) ++ rest)) := by
  have hread : (readAll before).stage.reading := reading_of_readAll_append (Stage.reading_of_atTop htop)
  obtain ⟨s, hreadX, hsig, hinit, hagrees⟩ := exists_record_at_cut hcut hread
    (endsSource_of_mem_shortened hrest) hsource
  rw [← List.append_assoc] at hreadX hsig hagrees ⊢
  rw [← List.append_assoc] at he
  obtain ⟨s', hsig', hinit', hiff⟩ := exists_agrees_iff hb hrest htop hreadX hsig hinit
  rw [keeps_of_semicolon he htop hsig' hinit', hagrees, hiff]

/-- A semicolon is not the last token of a source that is outside groups. -/
theorem not_atTop_feed_semicolon {draft : Draft} (h : draft.stage.reading) :
    (draft.feed (.delimiter ';')).stage.atTop = false := by
  rw [Bool.eq_false_iff]
  intro htop
  by_cases hs : draft.stage.atTop
  · have hread := Stage.reading_of_atTop htop
    rw [not_reading_feed_of_ends hs rfl] at hread
    simp at hread
  · cases hstage : draft.stage with
    | type group =>
      cases group with
      | none => simp [hstage, Stage.atTop] at hs
      | some g =>
        have hgroup : Group.feed (some g) (.delimiter ';') = some g := by
          cases hangle : g.angle <;> simp [Group.feed, Group.opener, Group.closer, hangle]
        rw [feed, hstage] at htop
        simp only [feedType, hgroup] at htop
        simp [Stage.atTop] at htop
    | _ => simp_all [Stage.atTop, Stage.reading]

theorem getLast?_concat_ne {kept : List Token} (htop : (readAll kept).stage.atTop) (hlexed : Lexed kept)
    (hparted : Lexer.LastParted kept) : (Token.concat kept).getLast? ≠ some ';' := by
  intro hlast
  rcases List.eq_nil_or_concat kept with rfl | ⟨init, t, rfl⟩
  · simp at hlast
  · rw [List.concat_eq_append] at *
    rw [Token.getLast?_concat (hlexed t (by simp))] at hlast
    obtain rfl := hparted t (by simp) hlast
    have hread := reading_of_readAll_append (Stage.reading_of_atTop htop)
    rw [readAll_concat, not_atTop_feed_semicolon hread] at htop
    simp at htop

theorem close_mem_of_blank {kept xs : List Token} {s : Signature} (hxs : ∀ t ∈ xs, t.isBlank)
    (hread : (readAll (kept ++ xs)).stage.reading)
    (hsig : (readAll (kept ++ xs)).ended.signature = some (.ok s)) : .delimiter ')' ∈ kept := by
  rcases List.mem_append.mp (close_mem_of_ended hread hsig) with h | h
  · exact h
  · exact absurd rfl (Token.delimiter_ne_of_isQuiet (Token.isQuiet_of_isBlank (hxs _ h)) ')')

/-- Behind blanks at the cut, the source of a kept declaration goes on with blanks only. -/
theorem exists_blank_of_keeps {kept xs : List Token} (hxs : ∀ t ∈ xs, t.isBlank)
    (hcut : d.CutAt (kept ++ xs) c us) (he : e = .ofTokens (kept ++ vs)) (hlexed : Lexed (kept ++ vs))
    (hsource : d.SourceEndsAt (Token.concat (kept ++ xs))) (h : d.Keeps e) :
    ∃ z ending text body, vs = z ++ ending ∧ (∀ t ∈ z, t.isBlank) ∧ (readAll kept).stage.atTop ∧
      Ends (kept ++ z) ending text body ∧ e.sourceText = text ∧ e.body = body := by
  have hread := reading_of_keeps hcut he h
  have hends : ∀ t ∈ xs, endsSource t = false :=
    fun t ht => endsSource_of_isQuiet (Token.isQuiet_of_isBlank (hxs t ht))
  obtain ⟨s, hreadX, hsig, hinit, hagrees⟩ := exists_record_at_cut hcut hread hends hsource
  obtain ⟨z, ending, s', text, body, hz, htop, hsig', hsourceEnds, -, hrecord⟩ := exists_ends_of_keeps hcut he h
  rw [hz] at hlexed
  have hlexedZ := hlexed.append_left
  -- The records agree, so both sources have the same marks, and those of `kept` are all of them.
  have hink : (Token.concat z).ink = [] := by
    have hlexedX : Lexed (kept ++ xs) := hcut.lexed.mono fun t ht => List.mem_append_left _ ht
    have hxsInk : (Token.concat xs).ink = [] := Text.ink_eq_nil_iff.mpr (blank_concat hxs)
    have hfront : (Token.concat (kept ++ xs)).ink <+: (Token.concat (kept ++ z)).ink := by
      rw [Token.concat_append, Token.concat_append, Text.ink_append, Text.ink_append, hxsInk, List.append_nil]
      exact List.prefix_append _ _
    have heq := ink_eq_of_agrees ⟨hreadX, hlexedX, s, [], none, hsig, rfl⟩
      ⟨Stage.reading_of_atTop htop, hlexedZ, s', text, body, hsig', hrecord⟩ hinit h.initializers_eq
      (.of_front (.inl hfront)) ((hagrees e).mp h.agrees)
    rw [Token.concat_append, Token.concat_append, Text.ink_append, Text.ink_append, hxsInk,
      List.append_cancel_left_eq] at heq
    exact heq.symm
  have hblank : ∀ t ∈ z, t.isBlank := by
    intro t ht
    refine Token.isBlank_of_text (hlexedZ t (List.mem_append_right _ ht)) fun c hc => ?_
    exact Text.ink_eq_nil_iff.mp hink c (List.mem_flatMap.mpr ⟨t, ht, hc⟩)
  rw [stage_append_blank hread (close_mem_of_blank hxs hreadX hsig) hblank] at htop
  exact ⟨z, ending, text, body, hz, hblank, htop, hsourceEnds, by rw [hrecord]; rfl, by rw [hrecord]; rfl⟩

/-- A source with blanks at its end does not end in a semicolon. -/
theorem getLast?_concat_append_ne {kept z : List Token} (hz : ∀ t ∈ z, t.isBlank)
    (htop : (readAll kept).stage.atTop) (hlexed : Lexed (kept ++ z)) (hparted : Lexer.LastParted kept) :
    (Token.concat (kept ++ z)).getLast? ≠ some ';' := by
  rcases List.eq_nil_or_concat z with rfl | ⟨init, t, rfl⟩
  · rw [List.append_nil] at hlexed ⊢
    exact getLast?_concat_ne htop hlexed hparted
  · rw [List.concat_eq_append] at hz hlexed ⊢
    rw [← List.append_assoc, Token.getLast?_concat (hlexed t (by simp))]
    intro hlast
    have hsemicolon := Token.isBlank_text (hz t (by simp)) ';' (List.mem_of_getLast? hlast)
    simp [semicolon_not_blank] at hsemicolon

/-- Where only blanks stand between the kept tokens and the cut, the declaration is kept if a semicolon is
the next thing that is read. -/
theorem keeps_iff_semicolon {kept xs : List Token} (hxs : ∀ t ∈ xs, t.isBlank)
    (hcut : d.CutAt (kept ++ xs) c us) (he : e = .ofTokens (kept ++ vs)) (hlexed : Lexed (kept ++ vs))
    (hparted : Lexer.LastParted kept) (hsource : d.SourceEndsAt (Token.concat (kept ++ xs))) :
    d.Keeps e ↔ (readAll kept).stage.atTop ∧
      ∃ z more, (∀ t ∈ z, t.isBlank) ∧ vs = z ++ .delimiter ';' :: more := by
  constructor
  · intro h
    obtain ⟨z, ending, text, body, hz, hblank, htop, hends, htext, hbody⟩ :=
      exists_blank_of_keeps hxs hcut he hlexed hsource h
    rw [hz] at hlexed
    have hlast := getLast?_concat_append_ne hblank htop hlexed.append_left hparted
    have hsemicolon := h.source_last
    rw [htext] at hsemicolon
    refine ⟨htop, z, ?_⟩
    cases hends with
    | semicolon more => exact ⟨more, hblank, hz⟩
    | body block rest hcloses => simp [h.body_eq] at hbody
    | _ => exact absurd hsemicolon hlast
  · rintro ⟨htop, z, more, hz, rfl⟩
    have hread := Stage.reading_of_atTop htop
    have hends : ∀ t ∈ xs, endsSource t = false :=
      fun t ht => endsSource_of_isQuiet (Token.isQuiet_of_isBlank (hxs t ht))
    obtain ⟨s, hreadX, hsig, hinit, hagrees⟩ := exists_record_at_cut hcut hread hends hsource
    obtain ⟨⟨s', hsig', hs', hstorage, hconst⟩, hadd⟩ := sameHead_of_blank htop hz hxs hreadX hsig hinit
    have htopZ : (readAll (kept ++ z)).stage.atTop := by
      rwa [stage_append_blank hread (close_mem_of_blank hxs hreadX hsig) hz]
    rw [← List.append_assoc] at he
    rw [keeps_of_semicolon he htopZ hsig' (by rw [hs']; exact hinit), hagrees]
    exact (agrees_recordOf_iff hs' hstorage hconst _ _ _ _).mpr hadd

/-- Whatever stands at the cut, the declaration is kept if what follows the kept tokens completes it. -/
theorem keeps_iff_completedBy {kept xs : List Token} (hcut : d.CutAt (kept ++ xs) c us)
    (he : e = .ofTokens (kept ++ vs)) (hlexed : Lexed (kept ++ vs))
    (hparted : ∀ z more, vs = z ++ .delimiter '=' :: more → Lexer.LastParted (kept ++ z)) :
    d.Keeps e ↔ d.CompletedBy kept vs := by
  constructor
  · intro h
    obtain ⟨z, ending, s, text, body, rfl, htop, hsig, hends, hending, hrecord⟩ := exists_ends_of_keeps hcut he h
    have hinit : s.initializers = none := by
      have hnone := h.initializers_eq
      rwa [hrecord] at hnone
    have hlast : text.getLast? = some ';' := by
      have hlast := h.source_last
      rwa [hrecord] at hlast
    have hbody : body = none := by
      have hnone := h.body_eq
      rwa [hrecord] at hnone
    rw [← List.append_assoc] at he
    subst hbody
    have hagrees := (keeps_iff_of_ends he htop hsig hinit hends hending hlast).mp h
    cases hends with
    | semicolon more => exact .inl ⟨z, more, rfl, htop, s, hsig, hinit, hagrees⟩
    | atEnd =>
      rw [List.append_nil]
      exact .inr ⟨⟨htop, s, hsig, hinit, hagrees⟩, hending rfl, hlast⟩
    | assign more =>
      exact absurd hlast (getLast?_concat_ne htop hlexed.append_left (hparted z more rfl))
  · rintro (⟨rest, more, rfl, htop, s, hsig, hinit, hagrees⟩ | ⟨⟨htop, s, hsig, hinit, hagrees⟩, hstage, hlast⟩)
    · rw [← List.append_assoc] at he
      exact (keeps_of_semicolon he htop hsig hinit).mpr hagrees
    · rw [← List.append_nil (kept ++ vs)] at he
      exact (keeps_iff_of_ends he htop hsig hinit .atEnd (fun _ => hstage) hlast).mpr hagrees

end Cut

end Draft
end OutOfLine

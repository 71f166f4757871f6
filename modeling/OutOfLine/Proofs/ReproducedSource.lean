import OutOfLine.Proofs.SeparatedText

/-!
# The text of a record

A brace, a semicolon or `=` ends the source of a record where it stands outside groups or behind a `const`
that ends the signature; the stage of the reader tells where that is. The source is spelled by the first
code tokens of the text, up to the token that ends it, and a body by the tokens that follow, whether or not
the record is valid. A text without comments is spelled by its code tokens, so the source and the body
together are then the start of the text itself.
-/

namespace OutOfLine

namespace Draft

/-- Tokens after which the return type may still start: spaces and at most one storage specifier. -/
def Leads (front : List Token) : Prop :=
  marks front = [] ∨ ∃ storage : Storage, marks front = [.word storage.keyword]

/-- The tokens hold a `const` that ends the signature: it stands outside groups and does not start the
return type. -/
def ConstEnds (front : List Token) : Prop :=
  ∃ before more, front = before ++ .word "const".toList :: more ∧
    before.foldl Group.feed none = none ∧ ¬ Leads before

/-- The next token stands outside groups or behind the signature. -/
def Outside (front : List Token) : Prop := front.foldl Group.feed none = none ∨ ConstEnds front

theorem constEnds_concat_iff {front : List Token} {t : Token} :
    ConstEnds (front ++ [t]) ↔ ConstEnds front ∨
      t = .word "const".toList ∧ front.foldl Group.feed none = none ∧ ¬ Leads front := by
  constructor
  · rintro ⟨before, more, hsplit, hgroup, hlead⟩
    rcases List.eq_nil_or_concat' more with rfl | ⟨more, u, rfl⟩
    · obtain ⟨rfl, rfl⟩ := List.append_inj' hsplit rfl |>.imp_right List.singleton_inj.mp
      exact .inr ⟨rfl, hgroup, hlead⟩
    · rw [← List.cons_append, ← List.append_assoc] at hsplit
      obtain ⟨rfl, -⟩ := List.append_inj' hsplit rfl
      exact .inl ⟨before, more, rfl, hgroup, hlead⟩
  · rintro (⟨before, more, rfl, hgroup, hlead⟩ | ⟨rfl, hgroup, hlead⟩)
    · exact ⟨before, more ++ [t], by simp, hgroup, hlead⟩
    · exact ⟨front, [], rfl, hgroup, hlead⟩

theorem Leads.of_append {front more : List Token} (h : Leads (front ++ more)) : Leads front := by
  rcases h with hnone | ⟨storage, hone⟩
  · rw [marks_append, List.append_eq_nil_iff] at hnone
    exact .inl hnone.1
  · rw [marks_append, List.append_eq_singleton_iff] at hone
    exact hone.imp And.left fun h => ⟨storage, h.1⟩

theorem ConstEnds.not_leads {front : List Token} (h : ConstEnds front) : ¬ Leads front := by
  obtain ⟨before, more, rfl, -, hlead⟩ := h
  exact fun hfront => hlead hfront.of_append

theorem foldl_group_marks (front : List Token) (group : Option Group) :
    (marks front).foldl Group.feed group = front.foldl Group.feed group := by
  induction front generalizing group with
  | nil => rfl
  | cons t front ih =>
    cases t with
    | space c =>
      have hfeed : Group.feed group (.space c) = group := by cases group <;> simp [Group.feed]
      rw [List.foldl_cons, hfeed]
      exact ih group
    | _ => exact ih _

theorem Leads.foldl_group {front : List Token} (h : Leads front) : front.foldl Group.feed none = none := by
  rw [← foldl_group_marks]
  rcases h with hnone | ⟨storage, hone⟩
  · rw [hnone]
    rfl
  · rw [hone]
    simp [Group.feed]

/-- What a stage of the reader tells about the tokens read so far. -/
def Stage.Tells : Stage → List Token → Prop
  | .storage, front => marks front = []
  | .constReturn, front => ∃ storage : Storage, marks front = [.word storage.keyword]
  | .type group, front => group = front.foldl Group.feed none ∧ ¬ Leads front ∧ ¬ ConstEnds front
  | .addendum, front => ConstEnds front
  | _, _ => False

private theorem tells_feedType {d : Draft} {front : List Token} {group : Option Group} {t : Token}
    (hgroup : group = front.foldl Group.feed none) (hconst : ¬ ConstEnds front)
    (hlead : ¬ Leads (front ++ [t])) (ht : t = .word "const".toList → ¬ Leads front)
    (hends : group = none → endsSource t = false) :
    (d.feedType group t).stage.Tells (front ++ [t]) := by
  have hnext : Group.feed group t = (front ++ [t]).foldl Group.feed none := by
    rw [List.foldl_append, ← hgroup]
    rfl
  have hword (hc : t = .word "const".toList) : Group.feed group t = group := by
    subst hc
    cases group <;> simp [Group.feed]
  unfold feedType
  cases hg : Group.feed group t with
  | some g =>
    refine ⟨hg.symm.trans hnext, hlead, fun hends' => ?_⟩
    rcases constEnds_concat_iff.mp hends' with hbefore | ⟨hc, hnone, -⟩
    · exact hconst hbefore
    · rw [hword hc, hgroup, hnone] at hg
      simp at hg
  | none =>
    cases hterm : Terminator.ofToken? t with
    | none =>
      refine ⟨hg.symm.trans hnext, hlead, fun hends' => ?_⟩
      rcases constEnds_concat_iff.mp hends' with hbefore | ⟨rfl, -, -⟩
      · exact hconst hbefore
      · simp [Terminator.ofToken?] at hterm
    | some terminator =>
      cases terminator with
      | const =>
        have hc := eq_const_of_ofToken? hterm
        rw [hword hc, hgroup] at hg
        exact constEnds_concat_iff.mpr (.inr ⟨hc, hg, ht hc⟩)
      | _ =>
        have hends' := endsSource_of_ofToken? hterm (by simp)
        simp [hends (group_eq_none_of_endsSource hg hends')] at hends'

private theorem tells_space {stage : Stage} {front : List Token} {t : Token}
    (hstage : stage = .storage ∨ stage = .constReturn) (hs : stage.Tells front) (ht : t.isSpace) :
    stage.Tells (front ++ [t]) := by
  have hmarks : marks (front ++ [t]) = marks front := by simp [marks, ht]
  rcases hstage with rfl | rfl
  · exact hmarks.trans hs
  · exact hs.imp fun storage hone => hmarks.trans hone

private theorem tells_feedConstReturn {d : Draft} {front : List Token} {t : Token}
    (hstage : d.stage = .storage ∨ d.stage = .constReturn) (hs : d.stage.Tells front)
    (hkeyword : d.stage = .storage → ∀ storage : Storage, t ≠ .word storage.keyword)
    (hends : endsSource t = false) : (d.feedConstReturn t).stage.Tells (front ++ [t]) := by
  have hlead : Leads front := by
    rcases hstage with hstage | hstage <;> rw [hstage] at hs
    · exact .inl hs
    · exact .inr hs
  have hconst : ¬ ConstEnds front := fun h => h.not_leads hlead
  unfold feedConstReturn
  split
  · next hspace => exact tells_space hstage hs hspace
  · next hspace =>
    have hmarks : marks (front ++ [t]) = marks front ++ [t] := by simp [marks, hspace]
    have hnot (h : marks front = [] → ∀ storage : Storage, t ≠ .word storage.keyword) :
        ¬ Leads (front ++ [t]) := by
      rintro (hnone | ⟨storage, hone⟩)
      · simp [hmarks] at hnone
      · rw [hmarks, List.append_eq_singleton_iff] at hone
        rcases hone with ⟨hnil, ht⟩ | ⟨-, ht⟩
        · exact h hnil storage (List.singleton_inj.mp ht)
        · simp at ht
    split
    · next ht =>
      refine ⟨?_, hnot fun _ storage h => ?_, fun h => ?_⟩
      · rw [List.foldl_append, hlead.foldl_group, ht]
        rfl
      · have hkeyword : storage.keyword ≠ "const".toList := by cases storage <;> decide
        exact hkeyword (Token.word.inj (h.symm.trans ht))
      · rcases constEnds_concat_iff.mp h with h | ⟨-, -, h⟩
        · exact hconst h
        · exact h hlead
    · next ht =>
      refine tells_feedType hlead.foldl_group.symm hconst (hnot fun hnil => hkeyword ?_)
        (fun h => absurd h ht) fun _ => hends
      rcases hstage with hstage | hstage
      · exact hstage
      · rw [hstage] at hs
        obtain ⟨storage, hone⟩ := hs
        simp [hnil] at hone

theorem tells_feed {d : Draft} {front : List Token} {t : Token} (hs : d.stage.Tells front)
    (ht : d.stage.atTop → endsSource t = false) : (d.feed t).stage.Tells (front ++ [t]) := by
  unfold feed
  cases hstage : d.stage with
  | storage =>
    have hends := ht (by rw [hstage]; rfl)
    have hnone : marks front = [] := by rwa [hstage] at hs
    have hother := tells_feedConstReturn (t := t) (.inl hstage) hs
    simp only [feedStorage]
    split
    · next hspace => exact tells_space (.inl hstage) hs hspace
    · cases t with
      | word text =>
        simp only
        split
        · next storage hkeyword =>
          have htext : storage.keyword = text := by simpa using List.find?_some hkeyword
          refine ⟨storage, ?_⟩
          rw [marks_append, hnone, htext]
          rfl
        · next hkeyword =>
          refine hother (fun _ storage h => ?_) hends
          rw [Token.word.inj h, ofKeyword?_keyword] at hkeyword
          simp at hkeyword
      | _ => exact hother (by simp) hends
  | constReturn => exact tells_feedConstReturn (.inr hstage) hs (by simp [hstage]) (ht (by rw [hstage]; rfl))
  | type group =>
    rw [hstage] at hs
    obtain ⟨hgroup, hlead, hconst⟩ := hs
    refine tells_feedType hgroup hconst (fun h => hlead h.of_append) (fun _ => hlead) ?_
    rintro rfl
    exact ht (by rw [hstage]; rfl)
  | addendum =>
    have hnext : d.stage.Tells (front ++ [t]) := by
      rw [hstage] at hs ⊢
      exact constEnds_concat_iff.mpr (.inl hs)
    have hends := ht (by rw [hstage]; rfl)
    simp only
    cases hterm : Terminator.ofToken? t with
    | none => exact hnext
    | some terminator =>
      cases terminator with
      | const => exact hnext
      | _ => simp [endsSource_of_ofToken? hterm (by simp)] at hends
  | body depth => simp [hstage, Stage.Tells] at hs
  | done => simp [hstage, Stage.Tells] at hs

/-- While the source is being read, its stage tells what has been read. -/
theorem tells_readAll {front : List Token} (h : (readAll front).stage.reading) :
    (readAll front).stage.Tells front := by
  induction front using List.reverseRecOn with
  | nil => rfl
  | append_singleton front t ih =>
    rw [readAll_concat] at h ⊢
    obtain ⟨hs, ht⟩ := reading_of_feed h
    exact tells_feed (ih hs) ht

theorem atTop_iff_outside {front : List Token} (h : (readAll front).stage.reading) :
    (readAll front).stage.atTop ↔ Outside front := by
  have htells := tells_readAll h
  cases hstage : (readAll front).stage with
  | storage =>
    rw [hstage] at htells
    exact iff_of_true rfl (.inl (Leads.foldl_group (.inl htells)))
  | constReturn =>
    rw [hstage] at htells
    exact iff_of_true rfl (.inl (Leads.foldl_group (.inr htells)))
  | type group =>
    rw [hstage] at htells
    obtain ⟨hgroup, -, hconst⟩ := htells
    rw [Outside, or_iff_left hconst, ← hgroup]
    cases group <;> simp [Stage.atTop]
  | addendum =>
    rw [hstage] at htells
    exact iff_of_true rfl (.inr htells)
  | body depth => simp [hstage, Stage.reading] at h
  | done => simp [hstage, Stage.reading] at h

/-- No token of the source has ended it. -/
def Unended (source : List Token) : Prop :=
  ∀ before t more, source = before ++ t :: more → Outside before → endsSource t = false

theorem unended_of_reading {source : List Token} (h : (readAll source).stage.reading) :
    Unended source := by
  rintro before t more rfl hout
  have htop := (atTop_iff_outside (reading_of_readAll_append h)).mpr hout
  refine Bool.eq_false_iff.mpr fun ht => ?_
  rw [not_reading_of_end htop ht] at h
  simp at h

/-- How tokens divide where a source ends: after the semicolon that ends it, before the brace or the `=`
that ends it, or after the last token if none does. -/
inductive SourceEnd : Option Terminator → List Token → List Token → Prop
  | semicolon {front : List Token} (unended : Unended front) (outside : Outside front)
    (rest : List Token) : SourceEnd (some .semicolon) (front ++ [.delimiter ';']) rest
  | brace {source : List Token} (unended : Unended source) (outside : Outside source)
    (rest : List Token) : SourceEnd (some .brace) source (.delimiter '{' :: rest)
  | assign {source : List Token} (unended : Unended source) (outside : Outside source)
    (rest : List Token) : SourceEnd (some .assign) source (.delimiter '=' :: rest)
  | exhausted {source : List Token} (unended : Unended source) : SourceEnd none source []

/-- What the reader holds of a body, given what ended the source and the tokens that follow it. -/
inductive BodyRead : Option Terminator → List Token → Option (List Token) → Prop
  | opened (block more : List Token) :
    BodyRead (some .brace) (.delimiter '{' :: (block ++ more)) (some (block.reverse ++ [.delimiter '{']))
  | absent {ending : Option Terminator} (rest : List Token) (h : ending ≠ some .brace) :
    BodyRead ending rest none

/-- An open body takes in the tokens up to its end, and the source stays as it is. -/
theorem exists_body_foldl {d : Draft} {depth : Nat} {body : List Token} (hs : d.stage = .body depth)
    (hb : d.body = some body) (ts : List Token) :
    ∃ block more, ts = block ++ more ∧ (ts.foldl feed d).body = some (block.reverse ++ body) ∧
      (ts.foldl feed d).source = d.source := by
  induction ts generalizing d depth body with
  | nil => exact ⟨[], [], rfl, hb, rfl⟩
  | cons t ts ih =>
    have hbody : (d.feed t).body = some (t :: body) := by simp [feed, hs, hb]
    have hsource : (d.feed t).source = d.source := by simp [feed, hs]
    have hread : (d.feed t).stage.reading = false := not_reading_feed (by rw [hs]; rfl) t
    rw [List.foldl_cons]
    cases hstage : (d.feed t).stage with
    | body n =>
      obtain ⟨block, more, rfl, hblock, hkept⟩ := ih hstage hbody
      exact ⟨t :: block, more, rfl, by simpa using hblock, hkept.trans hsource⟩
    | done =>
      rw [foldl_feed_done hstage]
      exact ⟨[t], ts, rfl, hbody, hsource⟩
    | _ => simp [hstage, Stage.reading] at hread

/-- The reader holds the tokens up to the end of the source, and those of the body that follows. -/
theorem exists_sourceEnd (ts : List Token) :
    ∃ ending source rest, ts = source ++ rest ∧ SourceEnd ending source rest ∧
      (readAll ts).source = source.reverse ∧ BodyRead ending rest (readAll ts).body := by
  rcases reading_or_exists_end ts with hread | ⟨source, t, rest, rfl, htop, ht⟩
  · obtain ⟨hsource, hbody⟩ := source_readAll hread
    refine ⟨none, ts, [], by simp, .exhausted (unended_of_reading hread), hsource, ?_⟩
    rw [hbody]
    exact .absent [] (by simp)
  · have hread := Stage.reading_of_atTop htop
    obtain ⟨hsource, hbody⟩ := source_readAll hread
    have hunended := unended_of_reading hread
    have hout := (atTop_iff_outside hread).mp htop
    rw [readAll_append, List.foldl_cons]
    rcases endsSource_iff.mp ht with rfl | rfl | rfl
    · rw [feed_brace htop]
      obtain ⟨block, more, rfl, hblock, hkept⟩ := exists_body_foldl
        (d := { (readAll source).ended with stage := .body 1, body := some [.delimiter '{'] }) rfl rfl rest
      refine ⟨some .brace, source, _, rfl, .brace hunended hout _, ?_, ?_⟩
      · rw [hkept, source_ended, hsource]
      · rw [hblock]
        exact .opened block more
    · rw [feed_semicolon htop, foldl_feed_done rfl]
      refine ⟨some .semicolon, source ++ [.delimiter ';'], rest, by simp,
        .semicolon hunended hout rest, ?_, ?_⟩
      · simp [hsource]
      · simp only [body_ended, hbody]
        exact .absent rest (by simp)
    · rw [feed_assign htop, foldl_feed_done rfl]
      refine ⟨some .assign, source, _, rfl, .assign hunended hout rest, ?_, ?_⟩
      · simp [hsource]
      · simp only [body_ended, hbody]
        exact .absent _ (by simp)

theorem sourceText_finish (d : Draft) : d.finish.sourceText = Signature.textOf d.source := by
  unfold finish
  split <;> rfl

/-- A record has the body that was read, unless its signature was not split. -/
theorem body_finish (d : Draft) : d.finish.body = d.body.map Signature.textOf ∨
    d.finish.body = none ∧ ¬ d.finish.valid := by
  unfold finish
  split
  · exact .inr ⟨rfl, by simp⟩
  · exact .inr ⟨rfl, by simp⟩
  · exact .inl rfl

variable {d : Draft} {ending : Option Terminator} {rest : List Token}

/-- The body of a record is spelled by the tokens that follow the source. -/
theorem BodyRead.exists_block {body : Text} (h : BodyRead ending rest d.body)
    (hb : d.finish.body = some body) :
    ∃ block more, rest = .delimiter '{' :: (block ++ more) ∧
      body = Token.concat (.delimiter '{' :: block) := by
  rcases body_finish d with hread | ⟨hnone, -⟩
  · rw [hread] at hb
    generalize d.body = held at h hb
    cases h with
    | opened block more =>
      refine ⟨block, more, rfl, ?_⟩
      rw [← Option.some.inj hb]
      simp [Signature.textOf]
    | absent => simp at hb
  · simp [hnone] at hb

theorem BodyRead.isSome_body_iff (h : BodyRead ending rest d.body) (hvalid : d.finish.valid) :
    d.finish.body.isSome ↔ ending = some .brace := by
  rcases body_finish d with hread | ⟨-, hinvalid⟩
  · rw [hread, Option.isSome_map]
    generalize d.body = held at h
    cases h with
    | opened => simp
    | absent _ hother => simp [hother]
  · exact absurd hvalid hinvalid

end Draft

namespace Declaration

/-- The record reproduces the tokens that it was read from, and the start of a text without comments. -/
theorem sourceText_append_body_parse (text : Text) :
    (∃ ending source rest, text.code = source ++ rest ∧ Draft.SourceEnd ending source rest ∧
      (parse text).sourceText = Token.concat source ∧
      ((parse text).valid → ((parse text).body.isSome ↔ ending = some .brace)) ∧
      ∀ body, (parse text).body = some body →
        ∃ block more, rest = .delimiter '{' :: (block ++ more) ∧
          (parse text).sourceText ++ body = Token.concat (source ++ .delimiter '{' :: block)) ∧
    (text.CommentFree → (parse text).sourceText ++ (parse text).body.getD [] <+: text) := by
  obtain ⟨ending, source, rest, hcode, hend, hsource, hread⟩ := Draft.exists_sourceEnd text.code
  have htext : (parse text).sourceText = Token.concat source := by
    refine (Draft.sourceText_finish (Draft.readAll text.code)).trans ?_
    rw [hsource, Signature.textOf, List.reverse_reverse]
  have hblock (body : Text) (hbody : (parse text).body = some body) :
      ∃ block more, rest = .delimiter '{' :: (block ++ more) ∧
        (parse text).sourceText ++ body = Token.concat (source ++ .delimiter '{' :: block) := by
    obtain ⟨block, more, hrest, rfl⟩ := hread.exists_block hbody
    exact ⟨block, more, hrest, by rw [htext, Token.concat_append]⟩
  refine ⟨⟨ending, source, rest, hcode, hend, htext, hread.isSome_body_iff, hblock⟩, fun hfree => ?_⟩
  have hwhole : Token.concat (source ++ rest) = text := by rw [← hcode, hfree.concat_code]
  cases hbody : (parse text).body with
  | none =>
    refine ⟨Token.concat rest, ?_⟩
    rw [htext, ← hwhole]
    simp
  | some body =>
    obtain ⟨block, more, rfl, happend⟩ := hblock body hbody
    refine ⟨Token.concat more, ?_⟩
    rw [Option.getD_some, happend, ← hwhole]
    simp

/-- A definition with a brace in a literal, and what follows it. -/
def quotingText : Text := "static A<B> *f(int x = g(1)) const \x7b return \"\x7d\"; \x7d int y;".toList

theorem sourceText_append_body_quotingText :
    quotingText.CommentFree ∧ (parse quotingText).body = some "\x7b return \"\x7d\"; \x7d".toList ∧
      (parse quotingText).sourceText ++ (parse quotingText).body.getD [] <+: quotingText := by
  have hfree : quotingText.CommentFree := by decide +kernel
  exact ⟨hfree, by decide +kernel, (sourceText_append_body_parse quotingText).2 hfree⟩

end Declaration
end OutOfLine

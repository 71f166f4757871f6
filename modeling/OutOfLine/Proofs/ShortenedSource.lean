import OutOfLine.Proofs.RecordInk

/-!
# Reading a source without its last blanks

Words and spaces at the end of a source are trailing tokens of its signature or of its addendum. A source
that loses blanks at its end therefore keeps its record, unless a word that blanks had joined becomes
`const` and its addendum is then set apart from what stands before it.
-/

namespace OutOfLine

/-- A word other than `const`, or a space. -/
def Token.isQuiet (t : Token) : Bool := (t.isWord || t.isSpace) && t != .word "const".toList

theorem Token.isQuiet_of_isBlank {t : Token} (h : t.isBlank) : t.isQuiet := by
  have hne : t ≠ .word "const".toList := by
    rintro rfl
    revert h
    decide
  cases t with
  | word text => simpa [Token.isQuiet, Token.isWord] using hne
  | space c => simp [Token.isQuiet, Token.isSpace]
  | _ => simp [Token.isBlank] at h

theorem Token.delimiter_ne_of_isQuiet {t : Token} (h : t.isQuiet) (c : Char) : t ≠ .delimiter c := by
  rintro rfl
  simp [Token.isQuiet, Token.isWord, Token.isSpace] at h

namespace Signature

variable {type more : List Token}

private theorem delimiter_not_mem (h : ∀ t ∈ more, t.isQuiet) (c : Char) : .delimiter c ∉ more :=
  fun hmem => Token.delimiter_ne_of_isQuiet (h _ hmem) c rfl

/-- Words and spaces behind a signature do not open an initializer list. -/
theorem splitInitializers_append_quiet (h : ∀ t ∈ more, t.isQuiet) :
    splitInitializers 0 false [] (type ++ more) = none ↔ splitInitializers 0 false [] type = none := by
  have hnext (b : List Token) : (b ++ more).head? = some (.delimiter ':') ↔
      b.head? = some (.delimiter ':') := by
    cases b with
    | nil =>
      simp only [List.nil_append, List.head?_nil, reduceCtorEq, iff_false]
      exact fun hhead => delimiter_not_mem h ':' (List.mem_of_mem_head? hhead)
    | cons t b => rfl
  have hopens (p : Parens) (before : List Token) (x : Token) (b : List Token) :
      opensAt p before x (b ++ more) = opensAt p before x b := by
    simp only [opensAt, ne_eq, hnext]
  refine (splitInitializers_eq_none_iff (p := {})).trans
    (Iff.trans ?_ (splitInitializers_eq_none_iff (p := {})).symm)
  constructor
  · rintro hall a x b rfl
    rw [← hopens]
    exact hall a x (b ++ more) (by simp)
  · intro hall a x b hab
    have hquiet (hx : x ∈ more) : opensAt (Parens.after {} a) (a.reverse ++ []) x b = false := by
      simp [opensAt, Token.delimiter_ne_of_isQuiet (h x hx) ':']
    rcases List.append_eq_append_iff.mp hab with ⟨c, -, rfl⟩ | ⟨c, rfl, hc⟩
    · exact hquiet (by simp)
    · cases c with
      | nil => exact hquiet (by rw [← List.nil_append more, ← hc]; simp)
      | cons y c =>
        rw [List.cons_append, List.cons.injEq] at hc
        obtain ⟨rfl, rfl⟩ := hc
        rw [hopens]
        exact hall a x c rfl

/-- Words and spaces behind a signature without initializers are trailing tokens. -/
theorem ofTokens_append_quiet (h : ∀ t ∈ more, t.isQuiet)
    (hsplit : splitInitializers 0 false [] type = none) :
    ofTokens (type ++ more) =
      (ofTokens type).map fun s => { s with trailing := s.trailing ++ more } := by
  have hclose : .delimiter ')' ∉ more.reverse := by simpa using delimiter_not_mem h ')'
  rw [ofTokens, ofTokens, (splitInitializers_append_quiet h).mpr hsplit, hsplit]
  simp only [List.reverse_append]
  rw [ofLatest_append hclose, List.reverse_reverse]

end Signature

namespace Draft

theorem endsSource_of_isQuiet {t : Token} (h : t.isQuiet) : endsSource t = false := by
  simp [endsSource, Token.delimiter_ne_of_isQuiet h]

theorem feedType_quiet (d : Draft) (group : Option Group) {t : Token} (h : t.isQuiet) :
    d.feedType group t = { d.addSource t with stage := .type group, type := t :: d.type } := by
  have hne := Token.delimiter_ne_of_isQuiet h
  have hgroup : Group.feed group t = group := by
    cases group with
    | none => simp [Group.feed, hne]
    | some g => simp [Group.feed, hne]
  have hterm : Terminator.ofToken? t = none := by
    cases t with
    | word text =>
      simp only [Token.isQuiet, Bool.and_eq_true, bne_iff_ne, ne_eq, Token.word.injEq] at h
      rw [Terminator.ofToken?, if_neg h.2]
    | space c => rfl
    | _ => simp [Token.isQuiet, Token.isWord, Token.isSpace] at h
  rw [feedType, hgroup, hterm]
  cases group <;> rfl

/-- Words and spaces are read into the signature. -/
theorem foldl_feed_quiet {d : Draft} {group : Option Group} {ts : List Token}
    (hs : d.stage = .type group) (h : ∀ t ∈ ts, t.isQuiet) :
    ts.foldl feed d =
      { d with type := ts.reverse ++ d.type, source := ts.reverse ++ d.source } := by
  induction ts generalizing d with
  | nil => rfl
  | cons t ts ih =>
    have hfeed : d.feed t = { d.addSource t with stage := .type group, type := t :: d.type } := by
      rw [feed, hs]
      exact feedType_quiet d group (h t List.mem_cons_self)
    rw [List.foldl_cons, hfeed, ih rfl fun u hu => h u (List.mem_cons_of_mem _ hu)]
    simp [addSource, hs]

/-- Tokens that do not end the source are read into the addendum. -/
theorem foldl_feed_addendum {d : Draft} {ts : List Token} (hs : d.stage = .addendum)
    (h : ∀ t ∈ ts, endsSource t = false) :
    ts.foldl feed d =
      { d with addendum := ts.reverse ++ d.addendum, source := ts.reverse ++ d.source } := by
  induction ts generalizing d with
  | nil => rfl
  | cons t ts ih =>
    have hfeed : d.feed t = { d.addSource t with addendum := t :: d.addendum } := by
      have ht := h t List.mem_cons_self
      rw [feed, hs]
      simp only
      cases hterm : Terminator.ofToken? t with
      | none => rfl
      | some terminator =>
        cases terminator with
        | const => rfl
        | _ => simp [endsSource_of_ofToken? hterm (by simp)] at ht
    have hstage : (d.feed t).stage = .addendum := by
      rw [hfeed]
      exact hs
    rw [List.foldl_cons, ih hstage fun u hu => h u (List.mem_cons_of_mem _ hu), hfeed]
    simp [addSource]

/-- Past the signature. -/
def Stage.isPast : Stage → Bool
  | .addendum => true
  | .body _ => true
  | .done => true
  | _ => false

theorem isPast_terminate (d : Draft) (terminator : Terminator) (t : Token) :
    (d.terminate terminator t).stage.isPast := by
  cases terminator <;> rfl

theorem isPast_feed {d : Draft} (h : d.stage.isPast) (t : Token) : (d.feed t).stage.isPast := by
  unfold feed
  cases hs : d.stage with
  | addendum =>
    simp only
    cases Terminator.ofToken? t with
    | none => exact h
    | some terminator =>
      cases terminator with
      | const => exact h
      | _ => exact isPast_terminate d _ t
  | body depth =>
    simp only
    split
    · rfl
    · split
      · split <;> rfl
      · rfl
  | done => exact h
  | _ => simp [hs, Stage.isPast] at h

theorem isPast_foldl_feed {d : Draft} (h : d.stage.isPast) (ts : List Token) :
    (ts.foldl feed d).stage.isPast := by
  induction ts generalizing d with
  | nil => exact h
  | cons t ts ih => exact ih (isPast_feed h t)

/-- While the signature goes on, every token belongs to it. -/
theorem foldl_feed_type {d : Draft} {group group' : Option Group} {ts : List Token}
    (hs : d.stage = .type group) (h : (ts.foldl feed d).stage = .type group') :
    ts.foldl feed d =
      { d with
        stage := .type group'
        type := ts.reverse ++ d.type
        source := ts.reverse ++ d.source } := by
  induction ts generalizing d group with
  | nil =>
    obtain ⟨_, _, _, _, _, _, _, _⟩ := d
    obtain rfl : _ = Stage.type group' := h
    rfl
  | cons t ts ih =>
    rw [List.foldl_cons] at h ⊢
    have hfeed : d.feed t = d.feedType group t := by rw [feed, hs]
    have hmore (group'' : Option Group) (hnext : d.feed t =
        { d.addSource t with stage := .type group'', type := t :: d.type }) :
        ts.foldl feed (d.feed t) =
          { d with
            stage := .type group'
            type := (t :: ts).reverse ++ d.type
            source := (t :: ts).reverse ++ d.source } := by
      have hstage : (d.feed t).stage = .type group'' := by rw [hnext]
      exact (ih hstage h).trans (by rw [hnext]; simp [addSource])
    cases hgroup : Group.feed group t with
    | some g => exact hmore (some g) (by rw [hfeed, feedType, hgroup])
    | none =>
      cases hterm : Terminator.ofToken? t with
      | none => exact hmore none (by rw [hfeed, feedType, hgroup, hterm])
      | some terminator =>
        -- A terminator ends the type for good, which the stage at the end rules out.
        have hpast : (d.feed t).stage.isPast := by
          rw [hfeed, feedType, hgroup, hterm]
          exact isPast_terminate _ terminator t
        have hlast := isPast_foldl_feed hpast ts
        simp [h, Stage.isPast] at hlast

/-- A draft whose signature has the parts of another one, apart from trailing tokens. -/
def SameHead (d e : Draft) (s : Signature) : Prop :=
  ∃ s', e.signature = some (.ok s') ∧ s' = { s with trailing := s'.trailing } ∧
    d.storage = e.storage ∧ d.constReturn = e.constReturn

theorem agrees_recordOf_iff {d e : Draft} {s s' : Signature} (hs : s' = { s with trailing := s'.trailing })
    (hstorage : d.storage = e.storage) (hconst : d.constReturn = e.constReturn) (text text' : Text)
    (body body' : Option Text) :
    (d.recordOf s text body).Agrees (e.recordOf s' text' body') ↔
      addendumText d.addendum = addendumText e.addendum := by
  constructor
  · intro h
    exact h.addendum_eq
  · intro h
    rw [hs]
    exact ⟨hstorage, hconst, rfl, rfl, rfl, rfl, rfl, h⟩

section Quiet

variable {base more : List Token} {s : Signature}

theorem ended_append_quiet (hbase : (readAll base).stage = .type none) (hmore : ∀ t ∈ more, t.isQuiet) :
    (readAll (base ++ more)).ended =
      { readAll base with
        type := more.reverse ++ (readAll base).type
        source := more.reverse ++ (readAll base).source
        signature := some (Signature.ofTokens ((readAll base).type.reverse ++ more))
        addendum := trailingOf ((readAll base).type.reverse ++ more) } := by
  have hread := foldl_feed_quiet hbase hmore
  rw [← readAll_append] at hread
  rw [hread, ended_of_ne_addendum (by simp [hbase])]
  simp

/-- The signature that words and spaces were read into, without them. -/
theorem exists_ofTokens_of_quiet (hmore : ∀ t ∈ more, t.isQuiet) {type : List Token}
    (h : Signature.ofTokens (type ++ more) = .ok s) (hinit : s.initializers = none) :
    ∃ s', Signature.ofTokens type = .ok s' ∧ s = { s' with trailing := s'.trailing ++ more } ∧
      Signature.splitInitializers 0 false [] type = none := by
  have hsplit := (Signature.splitInitializers_append_quiet hmore).mp
    (Signature.ofLatest_of_ok h hinit).1
  rw [Signature.ofTokens_append_quiet hmore hsplit] at h
  cases htype : Signature.ofTokens type with
  | error issue => simp [htype, Except.map] at h
  | ok s' =>
    simp only [htype, Except.map, Except.ok.injEq] at h
    exact ⟨s', rfl, h.symm, hsplit⟩

end Quiet

/-- Reading on with one or the other of two ends that are words and spaces. -/
theorem sameHead_of_quiet {base short long : List Token} {s : Signature}
    (hbase : (readAll base).stage = .type none) (hshort : ∀ t ∈ short, t.isQuiet)
    (hlong : ∀ t ∈ long, t.isQuiet) (hsig : (readAll (base ++ long)).ended.signature = some (.ok s))
    (hinit : s.initializers = none) :
    SameHead (readAll (base ++ long)).ended (readAll (base ++ short)).ended s ∧
      ∃ t, Signature.textOf (readAll (base ++ long)).ended.addendum = t ++ Token.concat long ∧
        Signature.textOf (readAll (base ++ short)).ended.addendum = t ++ Token.concat short := by
  rw [ended_append_quiet hbase hlong] at hsig ⊢
  rw [ended_append_quiet hbase hshort]
  obtain ⟨s', htype, rfl, hsplit⟩ := exists_ofTokens_of_quiet hlong (Option.some.inj hsig) hinit
  have happend (more : List Token) (hmore : ∀ t ∈ more, t.isQuiet) :
      Signature.ofTokens ((readAll base).type.reverse ++ more) =
        .ok { s' with trailing := s'.trailing ++ more } := by
    rw [Signature.ofTokens_append_quiet hmore hsplit, htype]
    rfl
  have htrailing (more : List Token) (hmore : ∀ t ∈ more, t.isQuiet) :
      Signature.textOf (trailingOf ((readAll base).type.reverse ++ more)) =
        Token.concat s'.trailing ++ Token.concat more := by
    rw [trailingOf_of_ok (happend more hmore)]
    simp [Signature.textOf]
  refine ⟨⟨{ s' with trailing := s'.trailing ++ short }, ?_, rfl, rfl, rfl⟩, Token.concat s'.trailing, ?_, ?_⟩
  · exact congrArg some (happend short hshort)
  · exact htrailing long hlong
  · exact htrailing short hshort

/-- Reading on with one or the other of two ends of an addendum. -/
theorem sameHead_of_addendum {base short long : List Token} {s : Signature}
    (hbase : (readAll base).stage = .addendum) (hshort : ∀ t ∈ short, endsSource t = false)
    (hlong : ∀ t ∈ long, endsSource t = false)
    (hsig : (readAll (base ++ long)).ended.signature = some (.ok s)) :
    SameHead (readAll (base ++ long)).ended (readAll (base ++ short)).ended s ∧
      ∃ t, Signature.textOf (readAll (base ++ long)).ended.addendum = t ++ Token.concat long ∧
        Signature.textOf (readAll (base ++ short)).ended.addendum = t ++ Token.concat short := by
  have hread (more : List Token) (hmore : ∀ t ∈ more, endsSource t = false) :
      (readAll (base ++ more)).ended =
        { readAll base with
          addendum := more.reverse ++ (readAll base).addendum
          source := more.reverse ++ (readAll base).source } := by
    have h := foldl_feed_addendum hbase hmore
    rw [← readAll_append] at h
    rw [h, ended]
    simp only [hbase]
  have htext (more : List Token) (d : List Token) :
      Signature.textOf (more.reverse ++ d) = Signature.textOf d ++ Token.concat more := by
    simp [Signature.textOf]
  rw [hread long hlong] at hsig ⊢
  rw [hread short hshort]
  exact ⟨⟨s, hsig, rfl, rfl, rfl⟩, _, htext long _, htext short _⟩

theorem afterClose_append {latest rest : List Token} (h : .delimiter ')' ∉ latest) :
    Signature.afterClose (latest ++ .delimiter ')' :: rest) = latest := by
  have hall : ∀ t ∈ latest, decide (t ≠ .delimiter ')') = true := by
    intro t ht
    simp only [ne_eq, decide_not, Bool.not_eq_true', decide_eq_false_iff_not]
    rintro rfl
    exact h ht
  rw [Signature.afterClose, List.takeWhile_append_of_pos hall, List.takeWhile_cons_of_neg (by simp),
    List.append_nil]

/-- The trailing tokens of a signature stand behind the last closing parenthesis of its source. -/
theorem trailingOf_eq_afterClose {base : List Token} {s : Signature}
    (hbase : (readAll base).stage = .type none)
    (h : Signature.ofTokens (readAll base).type.reverse = .ok s)
    (hsplit : Signature.splitInitializers 0 false [] (readAll base).type.reverse = none) :
    trailingOf (readAll base).type.reverse = Signature.afterClose base.reverse := by
  have hread : (readAll base).stage.reading := by rw [hbase]; rfl
  obtain ⟨lead, type, tail, hparts, hd⟩ := exists_divides hread
  have hspec := hd.stage_spec
  simp only [hbase] at hspec
  have hlatest : Signature.ofLatest (readAll base).type = .ok s := by
    rcases Signature.ofTokens_eq_ok_iff.mp h with ⟨-, hok⟩ | ⟨_, _, _, hsome, -⟩
    · rwa [List.reverse_reverse] at hok
    · simp [hsplit] at hsome
  obtain ⟨_, _, _, ⟨_, hcut, -⟩, hclose, -⟩ := Signature.exists_splitFrom hlatest
  have hbase' : base.reverse = (readAll base).type ++ lead.reverse := by
    conv => lhs; rw [hparts, hspec.1]
    simp [hd.type_eq]
  rw [trailingOf_of_ok h, hbase', hcut, List.append_assoc, List.cons_append,
    afterClose_append (by simpa using hclose)]

/-- A `const` outside groups ends the signature and starts the addendum. -/
theorem readAll_const {base : List Token} (hbase : (readAll base).stage = .type none) :
    readAll (base ++ [.word "const".toList]) =
      { readAll base with
        stage := .addendum
        signature := some (Signature.ofTokens (readAll base).type.reverse)
        addendum := .word "const".toList :: (gapAfter (trailingOf (readAll base).type.reverse) ++
          trailingOf (readAll base).type.reverse)
        source := .word "const".toList :: (readAll base).source } := by
  rw [readAll_concat, feed, hbase]
  rfl

/-- Reading on with `const` or with words and spaces that take its place. -/
theorem sameHead_of_const {base long : List Token} {s : Signature}
    (hbase : (readAll base).stage = .type none) (hlong : ∀ t ∈ long, t.isQuiet)
    (hsig : (readAll (base ++ long)).ended.signature = some (.ok s)) (hinit : s.initializers = none) :
    SameHead (readAll (base ++ long)).ended (readAll (base ++ [.word "const".toList])).ended s ∧
      Signature.textOf (readAll (base ++ long)).ended.addendum =
        Signature.textOf (Signature.afterClose base.reverse) ++ Token.concat long ∧
      Signature.textOf (readAll (base ++ [.word "const".toList])).ended.addendum =
        Signature.textOf (Signature.afterClose base.reverse) ++
          (Signature.textOf (gapAfter (Signature.afterClose base.reverse)) ++ "const".toList) := by
  rw [ended_append_quiet hbase hlong] at hsig ⊢
  rw [readAll_const hbase, ended]
  obtain ⟨s', htype, rfl, hsplit⟩ := exists_ofTokens_of_quiet hlong (Option.some.inj hsig) hinit
  have hclose := trailingOf_eq_afterClose hbase htype hsplit
  have hlongTrailing : trailingOf ((readAll base).type.reverse ++ long) =
      long.reverse ++ Signature.afterClose base.reverse := by
    rw [trailingOf_of_ok (Option.some.inj hsig), ← hclose, trailingOf_of_ok htype]
    simp
  refine ⟨⟨s', congrArg some htype, rfl, rfl, rfl⟩, ?_, ?_⟩
  · simp only [hlongTrailing, Signature.textOf_append]
    simp [Signature.textOf]
  · simp only [hclose, Signature.textOf_cons, Signature.textOf_append, List.append_assoc]
    rfl

theorem addendumText_congr {a b : List Token}
    (h : (Signature.textOf a).words = (Signature.textOf b).words) : addendumText a = addendumText b := by
  rw [addendumText, addendumText, h]

theorem not_blank_of_mem_const : ∀ c ∈ "const".toList, ¬ isBlankChar c := by
  have hall : "const".toList.all fun c => !isBlankChar c := by decide
  simpa using hall

/-- A `const` that is set apart from an addendum changes its words exactly when no blank stands there. -/
theorem addendumText_const_iff {latest a b : List Token} {w : Text} (hw : ∀ c ∈ w, isBlankChar c)
    (ha : Signature.textOf a = Signature.textOf latest ++ ("const".toList ++ w))
    (hb : Signature.textOf b =
      Signature.textOf latest ++ (Signature.textOf (gapAfter latest) ++ "const".toList)) :
    addendumText a = addendumText b ↔
      ¬ ∃ c, (Signature.textOf latest).getLast? = some c ∧ ¬ isBlankChar c := by
  have hlong : (Signature.textOf a).words = (Signature.textOf latest ++ "const".toList).words := by
    rw [ha, ← List.append_assoc, Text.words_append_blank hw]
  unfold gapAfter at hb
  split at hb
  · next hblank =>
    have hshort : Signature.textOf b = Signature.textOf latest ++ "const".toList := hb
    refine iff_of_true (addendumText_congr (by rw [hlong, hshort])) ?_
    rintro ⟨c, hc, hnot⟩
    rw [Text.isBlank, List.all_eq_true] at hblank
    exact hnot (hblank c (List.mem_of_getLast? hc))
  · next hblank =>
    have hshort : Signature.textOf b = Signature.textOf latest ++ ' ' :: "const".toList := hb
    have hspace : isBlankChar ' ' := by decide
    by_cases hlast : ∃ c, (Signature.textOf latest).getLast? = some c ∧ ¬ isBlankChar c
    · obtain ⟨c, hc, hnot⟩ := hlast
      refine iff_of_false ?_ (fun h => h ⟨c, hc, hnot⟩)
      have hne : Text.join [' '] (Signature.textOf latest ++ ' ' :: "const".toList).words ≠
          Text.join [' '] (Signature.textOf latest ++ "const".toList).words :=
        Text.join_words_space_ne hc hnot not_blank_of_mem_const
      intro h
      rw [addendumText, addendumText, hlong, hshort] at h
      have hsome : (Signature.textOf latest ++ ' ' :: "const".toList).words ≠ [] := by
        rw [Text.words_append_cons_blank hspace]
        exact List.append_ne_nil_of_right_ne_nil _ (by decide)
      simp only [List.isEmpty_iff, if_neg hsome] at h
      split at h
      · simp at h
      · exact hne (Option.some.inj h).symm
    · refine iff_of_true (addendumText_congr ?_) hlast
      rw [hlong, hshort]
      -- The text is not blank, so it ends in a blank that divides the words already.
      cases htext : (Signature.textOf latest).getLast? with
      | none => simp [List.getLast?_eq_none_iff.mp htext, Text.isBlank] at hblank
      | some c =>
        have hc : isBlankChar c := by
          by_contra hnot
          exact hlast ⟨c, htext, hnot⟩
        obtain ⟨t, ht⟩ := List.getLast?_eq_some_iff.mp htext
        have hdrop : Text.words (t ++ [c]) = Text.words t :=
          Text.words_append_blank (by simpa using hc) t
        rw [ht, Text.words_append_cons_blank hspace, List.append_assoc, List.singleton_append,
          Text.words_append_cons_blank hc, hdrop]

/-- Tokens of which a last `const` was joined with blanks, behind something that is no blank. -/
def Glued (kept whole : List Token) : Prop :=
  ∃ base b rest c, kept = base ++ [.word "const".toList] ∧
    whole = base ++ .word ("const".toList ++ b) :: rest ∧ b ≠ [] ∧
    (readAll base).stage = .type none ∧
    (Signature.textOf (Signature.afterClose base.reverse)).getLast? = some c ∧ ¬ isBlankChar c

theorem close_mem_of_ended {ts : List Token} {s : Signature} (hread : (readAll ts).stage.reading)
    (hsig : (readAll ts).ended.signature = some (.ok s)) : .delimiter ')' ∈ ts := by
  obtain ⟨lead, type, tail, hparts, hd⟩ := exists_divides hread
  rw [(hd.ended_eq hread).1, Option.some.injEq] at hsig
  have hmem := Signature.close_mem_of_ok hsig
  rw [hparts]
  simp [hmem]

/-- Before the signature there are no delimiters. -/
theorem delimiter_not_mem_of_lead {ts : List Token}
    (hs : (readAll ts).stage = .storage ∨ (readAll ts).stage = .constReturn) (c : Char) :
    .delimiter c ∉ ts := by
  have hread : (readAll ts).stage.reading := by rcases hs with hs | hs <;> rw [hs] <;> rfl
  obtain ⟨lead, type, tail, hparts, hd⟩ := exists_divides hread
  have hspec := hd.stage_spec
  have hlead : type = [] ∧ tail = [] := by
    rcases hs with hs | hs
    · simp only [hs] at hspec
      exact ⟨hspec.1, hspec.2.1⟩
    · simp only [hs] at hspec
      exact ⟨hspec.1, hspec.2.1⟩
  intro hmem
  rw [hparts, hlead.1, hlead.2, List.append_nil, List.append_nil] at hmem
  exact hd.delimiter_not_mem c hmem

/-- A source read outside groups that has a parenthesis is at its type or in its addendum. -/
theorem stage_of_atTop {ts : List Token} (htop : (readAll ts).stage.atTop) {c : Char}
    (hmem : .delimiter c ∈ ts) :
    (readAll ts).stage = .type none ∨ (readAll ts).stage = .addendum := by
  rcases Stage.atTop_iff.mp htop with hs | hs | hs | hs
  · exact absurd hmem (delimiter_not_mem_of_lead (.inl hs) c)
  · exact absurd hmem (delimiter_not_mem_of_lead (.inr hs) c)
  · exact .inl hs
  · exact .inr hs

theorem blank_concat {ts : List Token} (h : ∀ t ∈ ts, t.isBlank) :
    ∀ c ∈ Token.concat ts, isBlankChar c := by
  intro c hc
  obtain ⟨t, ht, hc⟩ := List.mem_flatMap.mp hc
  exact Token.isBlank_text (h t ht) c hc

/-- Blank tokens at the end of a source leave the stage as it is. -/
theorem stage_append_blank {kept more : List Token} (hread : (readAll kept).stage.reading)
    (hclose : .delimiter ')' ∈ kept) (hmore : ∀ t ∈ more, t.isBlank) :
    (readAll (kept ++ more)).stage = (readAll kept).stage := by
  have hquiet : ∀ t ∈ more, t.isQuiet := fun t ht => Token.isQuiet_of_isBlank (hmore t ht)
  rw [readAll_append]
  cases hs : (readAll kept).stage with
  | type group => simp [foldl_feed_quiet hs hquiet, hs]
  | addendum => simp [foldl_feed_addendum hs fun t ht => endsSource_of_isQuiet (hquiet t ht), hs]
  | storage => exact absurd hclose (delimiter_not_mem_of_lead (.inl hs) ')')
  | constReturn => exact absurd hclose (delimiter_not_mem_of_lead (.inr hs) ')')
  | body depth => simp [hs, Stage.reading] at hread
  | done => simp [hs, Stage.reading] at hread

/-- Sources that end in different blanks have the same record. -/
theorem sameHead_of_blank {kept short long : List Token} {s : Signature}
    (htop : (readAll kept).stage.atTop) (hshort : ∀ t ∈ short, t.isBlank) (hlong : ∀ t ∈ long, t.isBlank)
    (hread : (readAll (kept ++ long)).stage.reading)
    (hsig : (readAll (kept ++ long)).ended.signature = some (.ok s)) (hinit : s.initializers = none) :
    SameHead (readAll (kept ++ long)).ended (readAll (kept ++ short)).ended s ∧
      addendumText (readAll (kept ++ long)).ended.addendum =
        addendumText (readAll (kept ++ short)).ended.addendum := by
  have hquiet {more : List Token} (h : ∀ t ∈ more, t.isBlank) : ∀ t ∈ more, t.isQuiet :=
    fun t ht => Token.isQuiet_of_isBlank (h t ht)
  have hends {more : List Token} (h : ∀ t ∈ more, t.isBlank) : ∀ t ∈ more, endsSource t = false :=
    fun t ht => endsSource_of_isQuiet (hquiet h t ht)
  have hclose : .delimiter ')' ∈ kept := by
    rcases List.mem_append.mp (close_mem_of_ended hread hsig) with h | h
    · exact h
    · exact absurd rfl (Token.delimiter_ne_of_isQuiet (hquiet hlong _ h) ')')
  obtain ⟨hhead, t, hlongText, hshortText⟩ :
      SameHead (readAll (kept ++ long)).ended (readAll (kept ++ short)).ended s ∧
      ∃ t, Signature.textOf (readAll (kept ++ long)).ended.addendum = t ++ Token.concat long ∧
        Signature.textOf (readAll (kept ++ short)).ended.addendum = t ++ Token.concat short := by
    rcases stage_of_atTop htop hclose with hs | hs
    · exact sameHead_of_quiet hs (hquiet hshort) (hquiet hlong) hsig hinit
    · exact sameHead_of_addendum hs (hends hshort) (hends hlong) hsig
  refine ⟨hhead, addendumText_congr ?_⟩
  rw [hlongText, hshortText, Text.words_append_blank (blank_concat hlong),
    Text.words_append_blank (blank_concat hshort)]

theorem not_glued_of_ne {base : List Token} {w : Text} {whole : List Token}
    (h : w ≠ "const".toList ∨ (readAll base).stage ≠ .type none) :
    ¬ Glued (base ++ [.word w]) whole := by
  rintro ⟨base', b, rest, c, hkept, -, -, hstage, -⟩
  obtain ⟨rfl, hlast⟩ := List.append_inj' hkept rfl
  rcases h with h | h
  · simp only [List.cons.injEq, Token.word.injEq, and_true] at hlast
    exact h hlast
  · exact h hstage

/-- A word does not close a group. -/
theorem atTop_of_word {base : List Token} {w : Text} (h : (readAll (base ++ [.word w])).stage.atTop) :
    (readAll base).stage.atTop := by
  have hread := reading_of_readAll_append (Stage.reading_of_atTop h)
  cases hs : (readAll base).stage with
  | type group =>
    cases group with
    | none => rfl
    | some g =>
      have hstage : (readAll (base ++ [.word w])).stage = .type (some g) := by
        rw [readAll_concat, feed, hs]
        simp [feedType, Group.feed]
      simp [hstage, Stage.atTop] at h
  | body depth => simp [hs, Stage.reading] at hread
  | done => simp [hs, Stage.reading] at hread
  | _ => rfl

theorem isQuiet_of_joined {w b : Text} (hb : b ≠ []) (hblank : ∀ c ∈ b, isBlankChar c) :
    (Token.word (w ++ b)).isQuiet := by
  have hjoined : w ++ b ≠ "const".toList := by
    intro h
    obtain ⟨c, hc⟩ := List.exists_mem_of_ne_nil b hb
    have hmem : c ∈ "const".toList := h ▸ List.mem_append_right w hc
    exact not_blank_of_mem_const c hmem (hblank c hc)
  simpa [Token.isQuiet, Token.isWord] using hjoined

/-- Without the blanks that joined it the last word is as it was, unless it becomes `const`. -/
theorem sameHead_of_joined {base rest : List Token} {w b : Text} {s : Signature} (hb : b ≠ [])
    (hblank : ∀ c ∈ b, isBlankChar c) (hrest : ∀ t ∈ rest, t.isBlank)
    (htop : (readAll (base ++ [.word w])).stage.atTop)
    (hread : (readAll (base ++ .word (w ++ b) :: rest)).stage.reading)
    (hsig : (readAll (base ++ .word (w ++ b) :: rest)).ended.signature = some (.ok s))
    (hinit : s.initializers = none) :
    SameHead (readAll (base ++ .word (w ++ b) :: rest)).ended (readAll (base ++ [.word w])).ended s ∧
      (addendumText (readAll (base ++ .word (w ++ b) :: rest)).ended.addendum =
          addendumText (readAll (base ++ [.word w])).ended.addendum ↔
        ¬ Glued (base ++ [.word w]) (base ++ .word (w ++ b) :: rest)) := by
  have hlong : ∀ t ∈ .word (w ++ b) :: rest, t.isQuiet := by
    intro t ht
    rcases List.mem_cons.mp ht with rfl | ht
    · exact isQuiet_of_joined hb hblank
    · exact Token.isQuiet_of_isBlank (hrest t ht)
  have hspaces : ∀ c ∈ b ++ Token.concat rest, isBlankChar c := by
    intro c hc
    rcases List.mem_append.mp hc with hc | hc
    · exact hblank c hc
    · exact blank_concat hrest c hc
  have hconcat : Token.concat (.word (w ++ b) :: rest) = w ++ (b ++ Token.concat rest) := by
    simp [Token.text]
  have hclose : .delimiter ')' ∈ base := by
    rcases List.mem_append.mp (close_mem_of_ended hread hsig) with h | h
    · exact h
    · exact absurd rfl (Token.delimiter_ne_of_isQuiet (hlong _ h) ')')
  -- The two addenda differ in blanks at the end.
  have hsame {t : Text} (hl : Signature.textOf (readAll (base ++ .word (w ++ b) :: rest)).ended.addendum =
        t ++ Token.concat (.word (w ++ b) :: rest))
      (hk : Signature.textOf (readAll (base ++ [.word w])).ended.addendum = t ++ Token.concat [.word w]) :
      addendumText (readAll (base ++ .word (w ++ b) :: rest)).ended.addendum =
        addendumText (readAll (base ++ [.word w])).ended.addendum := by
    have hword : Token.concat [.word w] = w := by simp [Token.text]
    refine addendumText_congr ?_
    rw [hl, hk, hconcat, hword, ← List.append_assoc, Text.words_append_blank hspaces]
  rcases stage_of_atTop (atTop_of_word htop) hclose with hs | hs
  · by_cases hw : w = "const".toList
    · subst hw
      obtain ⟨hhead, hl, hk⟩ := sameHead_of_const hs hlong hsig hinit
      rw [hconcat] at hl
      refine ⟨hhead, (addendumText_const_iff hspaces hl hk).trans (not_congr ⟨?_, ?_⟩)⟩
      · rintro ⟨c, hc, hnot⟩
        exact ⟨base, b, rest, c, rfl, rfl, hb, hs, hc, hnot⟩
      · rintro ⟨base', _, _, c, hkept, -, -, -, hc, hnot⟩
        obtain ⟨rfl, -⟩ := List.append_inj' hkept rfl
        exact ⟨c, hc, hnot⟩
    · have hshort : ∀ t ∈ [Token.word w], t.isQuiet := by
        simpa [Token.isQuiet, Token.isWord] using hw
      obtain ⟨hhead, t, hl, hk⟩ := sameHead_of_quiet hs hshort hlong hsig hinit
      exact ⟨hhead, iff_of_true (hsame hl hk) (not_glued_of_ne (.inl hw))⟩
  · have hshort : ∀ t ∈ [Token.word w], endsSource t = false := by simp [endsSource]
    obtain ⟨hhead, t, hl, hk⟩ := sameHead_of_addendum hs hshort
      (fun t ht => endsSource_of_isQuiet (hlong t ht)) hsig
    exact ⟨hhead, iff_of_true (hsame hl hk) (not_glued_of_ne (.inr (by simp [hs])))⟩

/-- A source without the blanks at its end has the same record, unless a `const` was joined with them. -/
theorem exists_agrees_iff {before rest : List Token} {word b : Text} {s : Signature}
    (hb : ∀ c ∈ b, isBlankChar c) (hrest : ∀ t ∈ rest, t.isBlank)
    (htop : (readAll (before ++ Lexer.flush word)).stage.atTop)
    (hread : (readAll (before ++ Lexer.flush (b ++ word) ++ rest)).stage.reading)
    (hsig : (readAll (before ++ Lexer.flush (b ++ word) ++ rest)).ended.signature = some (.ok s))
    (hinit : s.initializers = none) :
    ∃ s', (readAll (before ++ Lexer.flush word)).ended.signature = some (.ok s') ∧
      s'.initializers = none ∧ ∀ text body text' body',
        ((readAll (before ++ Lexer.flush (b ++ word) ++ rest)).ended.recordOf s text body).Agrees
            ((readAll (before ++ Lexer.flush word)).ended.recordOf s' text' body') ↔
          ¬ Glued (before ++ Lexer.flush word) (before ++ Lexer.flush (b ++ word) ++ rest) := by
  suffices h : SameHead (readAll (before ++ Lexer.flush (b ++ word) ++ rest)).ended
      (readAll (before ++ Lexer.flush word)).ended s ∧
      (addendumText (readAll (before ++ Lexer.flush (b ++ word) ++ rest)).ended.addendum =
          addendumText (readAll (before ++ Lexer.flush word)).ended.addendum ↔
        ¬ Glued (before ++ Lexer.flush word) (before ++ Lexer.flush (b ++ word) ++ rest)) by
    obtain ⟨⟨s', hs', heq, hstorage, hconst⟩, hiff⟩ := h
    refine ⟨s', hs', by rw [heq]; exact hinit, fun text body text' body' => ?_⟩
    exact (agrees_recordOf_iff heq hstorage hconst text text' body body').trans hiff
  have hflush {u : Text} (hu : u ≠ []) : Lexer.flush u = [.word u.reverse] := by
    simp [Lexer.flush, hu]
  by_cases hjoin : b = [] ∨ word = []
  · -- The blanks stand apart from the last word.
    obtain ⟨more, hmore, hwhole⟩ : ∃ more : List Token, (∀ t ∈ more, t.isBlank) ∧
        before ++ Lexer.flush (b ++ word) ++ rest = before ++ Lexer.flush word ++ more := by
      rcases hjoin with rfl | rfl
      · exact ⟨rest, hrest, rfl⟩
      · refine ⟨Lexer.flush b ++ rest, ?_, by simp [Lexer.flush]⟩
        intro t ht
        rcases List.mem_append.mp ht with ht | ht
        · exact Lexer.isBlank_flush hb t ht
        · exact hrest t ht
    rw [hwhole] at hread hsig ⊢
    obtain ⟨hhead, hadd⟩ := sameHead_of_blank htop (List.forall_mem_nil _) hmore hread hsig hinit
    rw [List.append_nil] at hhead hadd
    refine ⟨hhead, iff_of_true hadd ?_⟩
    rintro ⟨base, b', rest', c, hkept, hw, hb', -⟩
    rw [hkept, List.append_assoc, List.append_cancel_left_eq, List.singleton_append, List.cons.injEq,
      Token.word.injEq, List.self_eq_append_right] at hw
    exact hb' hw.1
  · -- The blanks that are no spaces are part of the last word.
    rw [not_or] at hjoin
    have hlong : before ++ Lexer.flush (b ++ word) ++ rest =
        before ++ .word (word.reverse ++ b.reverse) :: rest := by
      rw [hflush (by simp [hjoin.1])]
      simp
    rw [hlong] at hread hsig ⊢
    rw [hflush hjoin.2] at htop ⊢
    exact sameHead_of_joined (by simpa using hjoin.1) (by simpa using hb) hrest htop hread hsig hinit

end Draft
end OutOfLine

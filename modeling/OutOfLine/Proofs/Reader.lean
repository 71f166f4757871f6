import OutOfLine.Declaration.Parser
import OutOfLine.Proofs.Signatures
import Mathlib.Data.List.Induction

/-!
# The declaration reader

The reader adds every token to the source until a brace, semicolon or `=` outside groups ends the
signature. A valid record with a body therefore divides its tokens into the source, the body and what
follows, and nothing after the body has a say in it.
-/

namespace OutOfLine
namespace Draft

/-- Whether the signature or its addendum is being read outside groups, so that a brace, semicolon or
`=` would end it. -/
def Stage.atTop : Stage → Bool
  | .type (some _) => false
  | .body _ => false
  | .done => false
  | _ => true

/-- Whether the signature or its addendum is being read. -/
def Stage.reading : Stage → Bool
  | .body _ => false
  | .done => false
  | _ => true

theorem Stage.atTop_iff {stage : Stage} :
    stage.atTop ↔ stage = .storage ∨ stage = .constReturn ∨ stage = .type none ∨ stage = .addendum := by
  cases stage with
  | type group => cases group <;> simp [atTop]
  | _ => simp [atTop]

theorem Stage.reading_of_atTop {stage : Stage} (h : stage.atTop) : stage.reading := by
  rcases atTop_iff.mp h with rfl | rfl | rfl | rfl <;> rfl

/-- The reader after some tokens. -/
def readAll (tokens : List Token) : Draft := tokens.foldl feed {}

theorem readAll_append (ts us : List Token) : readAll (ts ++ us) = us.foldl feed (readAll ts) :=
  List.foldl_append ..

theorem readAll_concat (ts : List Token) (t : Token) : readAll (ts ++ [t]) = (readAll ts).feed t :=
  readAll_append ts [t]

/-- The tokens after the parameter group of a signature, last first. -/
def trailingOf (type : List Token) : List Token :=
  match Signature.ofTokens type with
  | .ok signature => signature.trailing.reverse
  | .error _ => []

/-- The reader once its signature has been split. -/
def ended (d : Draft) : Draft :=
  match d.stage with
  | .addendum => d
  | _ =>
    { d with
      signature := some (Signature.ofTokens d.type.reverse)
      addendum := trailingOf d.type.reverse }

theorem feed_brace {d : Draft} (h : d.stage.atTop) :
    d.feed (.delimiter '{') =
      { d.ended with stage := .body 1, body := some [.delimiter '{'] } := by
  obtain ⟨stage, _, _, _, _, _, _, _⟩ := d
  rcases Stage.atTop_iff.mp h with rfl | rfl | rfl | rfl <;> rfl

theorem feed_semicolon {d : Draft} (h : d.stage.atTop) :
    d.feed (.delimiter ';') =
      { d.ended with stage := .done, source := .delimiter ';' :: d.source } := by
  obtain ⟨stage, _, _, _, _, _, _, _⟩ := d
  rcases Stage.atTop_iff.mp h with rfl | rfl | rfl | rfl <;> rfl

theorem feed_assign {d : Draft} (h : d.stage.atTop) :
    d.feed (.delimiter '=') = { d.ended with stage := .done } := by
  obtain ⟨stage, _, _, _, _, _, _, _⟩ := d
  rcases Stage.atTop_iff.mp h with rfl | rfl | rfl | rfl <;> rfl

theorem foldl_feed_done {d : Draft} (h : d.stage = .done) (ts : List Token) :
    ts.foldl feed d = d := by
  induction ts with
  | nil => rfl
  | cons t ts ih => rw [List.foldl_cons, feed, h, ih]

/-- What a body takes in while it is open. -/
theorem foldl_feed_body {d : Draft} {depth open' : Nat} {body : List Token} {ts : List Token}
    (hs : d.stage = .body depth) (hb : d.body = some body) (h : Brackets.after '{' '}' depth ts = some open') :
    ts.foldl feed d = { d with stage := .body open', body := some (ts.reverse ++ body) } := by
  induction ts generalizing d depth body with
  | nil =>
    obtain rfl : depth = open' := Option.some.inj h
    obtain ⟨_, _, _, _, _, _, _, _⟩ := d
    simp_all
  | cons t ts ih =>
    rw [List.foldl_cons, Draft.feed, hs]
    simp only [hb, Option.map_some]
    rcases Brackets.after_cons_eq_some h with ⟨ht, h⟩ | ⟨-, ht, hd, h⟩ | ⟨hopen, hclose, h⟩
    · rw [if_pos ht]
      exact (ih (d := { d with stage := _, body := _ }) rfl rfl h).trans (by simp)
    · rw [if_neg (by simp [ht]), if_pos ht, if_neg hd]
      exact (ih (d := { d with stage := _, body := _ }) rfl rfl h).trans (by simp)
    · rw [if_neg hopen, if_neg hclose]
      exact (ih (d := { d with stage := _, body := _ }) rfl rfl h).trans (by simp)

/-- A token that ends a source outside groups. -/
def endsSource (t : Token) : Bool :=
  t == .delimiter '{' || t == .delimiter ';' || t == .delimiter '='

theorem endsSource_iff {t : Token} :
    endsSource t ↔ t = .delimiter '{' ∨ t = .delimiter ';' ∨ t = .delimiter '=' := by
  simp [endsSource, or_assoc]

/-- What a token that does not end the source leaves as it was, or adds to. -/
structure Reads (d : Draft) (t : Token) (d' : Draft) : Prop where
  reading : d'.stage.reading
  source_eq : d'.source = t :: d.source
  body_eq : d'.body = d.body

theorem endsSource_of_ofToken? {t : Token} {terminator : Terminator}
    (h : Terminator.ofToken? t = some terminator) (hc : terminator ≠ .const) : endsSource t := by
  unfold Terminator.ofToken? at h
  split at h
  · split at h
    · exact absurd (Option.some.inj h).symm hc
    · simp at h
  · rfl
  · rfl
  · rfl
  · simp at h

theorem eq_const_of_ofToken? {t : Token} (h : Terminator.ofToken? t = some .const) :
    t = .word "const".toList := by
  unfold Terminator.ofToken? at h
  split at h
  · split at h
    · next htext => rw [htext]
    · simp at h
  all_goals simp at h

theorem group_eq_none_of_feed {group : Option Group} {t : Token} (h : Group.feed group t = none)
    (ht : ∀ c, t = .delimiter c → c ≠ '>' ∧ c ≠ ')') : group = none := by
  cases group with
  | none => rfl
  | some g =>
    have hcloser : t ≠ .delimiter g.closer := by
      rintro rfl
      have := ht _ rfl
      unfold Group.closer at this
      split at this <;> simp at this
    simp only [Group.feed, if_neg hcloser] at h
    split at h <;> simp at h

/-- What ends a source closes no group. -/
theorem group_eq_none_of_endsSource {group : Option Group} {t : Token} (h : Group.feed group t = none)
    (ht : endsSource t) : group = none := by
  refine group_eq_none_of_feed h ?_
  rintro c rfl
  constructor <;> rintro rfl <;> simp [endsSource] at ht

theorem reads_feedType (d : Draft) (group : Option Group) (t : Token)
    (h : group = none → endsSource t = false) : Reads d t (d.feedType group t) := by
  unfold feedType
  cases hg : Group.feed group t with
  | some g => exact ⟨rfl, rfl, rfl⟩
  | none =>
    cases ht : Terminator.ofToken? t with
    | none => exact ⟨rfl, rfl, rfl⟩
    | some terminator =>
      cases terminator with
      | const => exact ⟨rfl, rfl, rfl⟩
      | _ =>
        have hends : endsSource t := endsSource_of_ofToken? ht (by simp)
        simp [h (group_eq_none_of_endsSource hg hends)] at hends

theorem reads_feedConstReturn (d : Draft) (t : Token) (hs : d.stage.reading)
    (h : endsSource t = false) : Reads d t (d.feedConstReturn t) := by
  unfold feedConstReturn
  split
  · exact ⟨hs, rfl, rfl⟩
  · split
    · exact ⟨rfl, rfl, rfl⟩
    · exact reads_feedType d none t fun _ => h

/-- A token ends the source, outside groups, or it is added to the source. -/
theorem reads_feed {d : Draft} {t : Token} (hs : d.stage.reading)
    (h : d.stage.atTop → endsSource t = false) : Reads d t (d.feed t) := by
  unfold feed
  cases hstage : d.stage with
  | storage =>
    have ht : endsSource t = false := h (by rw [hstage]; rfl)
    simp only [feedStorage]
    split
    · exact ⟨hs, rfl, rfl⟩
    · cases t with
      | word text =>
        simp only
        split
        · exact ⟨rfl, rfl, rfl⟩
        · exact reads_feedConstReturn d _ hs ht
      | _ => exact reads_feedConstReturn d _ hs ht
  | constReturn => exact reads_feedConstReturn d t hs (h (by rw [hstage]; rfl))
  | type group =>
    refine reads_feedType d group t ?_
    rintro rfl
    exact h (by rw [hstage]; rfl)
  | addendum =>
    have ht : endsSource t = false := h (by rw [hstage]; rfl)
    simp only
    cases hterm : Terminator.ofToken? t with
    | none => exact ⟨hs, rfl, rfl⟩
    | some terminator =>
      cases terminator with
      | const => exact ⟨hs, rfl, rfl⟩
      | _ => simp [endsSource_of_ofToken? hterm (by simp)] at ht
  | body depth => simp [hstage, Stage.reading] at hs
  | done => simp [hstage, Stage.reading] at hs

theorem not_reading_feed_of_ends {d : Draft} {t : Token} (hs : d.stage.atTop) (ht : endsSource t) :
    (d.feed t).stage.reading = false := by
  rcases endsSource_iff.mp ht with rfl | rfl | rfl
  · rw [feed_brace hs]; rfl
  · rw [feed_semicolon hs]; rfl
  · rw [feed_assign hs]; rfl

theorem not_reading_feed {d : Draft} (h : d.stage.reading = false) (t : Token) :
    (d.feed t).stage.reading = false := by
  unfold feed
  cases hstage : d.stage with
  | body depth =>
    simp only
    split
    · rfl
    · split
      · split <;> rfl
      · rfl
  | done => simp [hstage, Stage.reading]
  | _ => simp [hstage, Stage.reading] at h

theorem reading_of_feed {d : Draft} {t : Token} (h : (d.feed t).stage.reading) :
    d.stage.reading ∧ (d.stage.atTop → endsSource t = false) := by
  constructor
  · by_contra hs
    rw [not_reading_feed (Bool.eq_false_iff.mpr hs)] at h
    simp at h
  · intro hs
    by_contra ht
    rw [not_reading_feed_of_ends hs (Bool.eq_false_iff.not_left.mp ht)] at h
    simp at h

theorem reading_of_readAll_append {ts us : List Token} (h : (readAll (ts ++ us)).stage.reading) :
    (readAll ts).stage.reading := by
  induction us using List.reverseRecOn with
  | nil => simpa using h
  | append_singleton us u ih =>
    rw [← List.append_assoc, readAll_concat] at h
    exact ih (reading_of_feed h).1

/-- While the signature is being read, every token goes to the source. -/
theorem source_readAll {ts : List Token} (h : (readAll ts).stage.reading) :
    (readAll ts).source = ts.reverse ∧ (readAll ts).body = none := by
  induction ts using List.reverseRecOn with
  | nil => exact ⟨rfl, rfl⟩
  | append_singleton ts t ih =>
    rw [readAll_concat] at h ⊢
    obtain ⟨hs, ht⟩ := reading_of_feed h
    obtain ⟨hsource, hbody⟩ := ih hs
    have hreads := reads_feed hs ht
    exact ⟨by rw [hreads.source_eq, hsource, List.reverse_concat], hreads.body_eq.trans hbody⟩

/-- The reader reads all tokens as source, or up to the first one that ends it. -/
theorem reading_or_exists_end (ts : List Token) :
    (readAll ts).stage.reading ∨
      ∃ source t rest, ts = source ++ t :: rest ∧ (readAll source).stage.atTop ∧ endsSource t := by
  induction ts using List.reverseRecOn with
  | nil => exact .inl rfl
  | append_singleton ts t ih =>
    rcases ih with hs | ⟨source, u, rest, rfl, htop, hu⟩
    · by_cases hend : (readAll ts).stage.atTop ∧ endsSource t
      · exact .inr ⟨ts, t, [], rfl, hend⟩
      · rw [readAll_concat]
        exact .inl (reads_feed hs fun htop => Bool.eq_false_iff.mpr fun ht => hend ⟨htop, ht⟩).reading
    · exact .inr ⟨source, u, rest ++ [t], by simp, htop, hu⟩

/-- Nothing is read as source after a token that ends it. -/
theorem not_reading_of_end {source rest : List Token} {t : Token}
    (htop : (readAll source).stage.atTop) (ht : endsSource t) :
    (readAll (source ++ t :: rest)).stage.reading = false := by
  refine Bool.eq_false_iff.mpr fun h => ?_
  rw [List.append_cons] at h
  have hstep := reading_of_readAll_append h
  rw [readAll_concat, not_reading_feed_of_ends htop ht] at hstep
  simp at hstep

/-- Of two ways to divide tokens, one of which ends a source, the other one does not read past it. -/
theorem exists_of_end {source rest us vs : List Token} {t : Token}
    (htop : (readAll source).stage.atTop) (ht : endsSource t)
    (hread : (readAll us).stage.reading) (h : source ++ t :: rest = us ++ vs) :
    ∃ more, source = us ++ more ∧ vs = more ++ t :: rest := by
  rcases List.append_eq_append_iff.mp h with ⟨more, rfl, hmore⟩ | ⟨more, hus, hvs⟩
  · cases more with
    | nil => exact ⟨[], by simp, by simpa using hmore.symm⟩
    | cons x more =>
      obtain ⟨rfl, -⟩ := List.cons.inj hmore
      rw [not_reading_of_end htop ht] at hread
      simp at hread
  · exact ⟨more, hus, hvs⟩

theorem end_unique {source rest source' rest' : List Token} {t t' : Token}
    (htop : (readAll source).stage.atTop) (ht : endsSource t)
    (htop' : (readAll source').stage.atTop) (ht' : endsSource t')
    (h : source ++ t :: rest = source' ++ t' :: rest') : source = source' ∧ t = t' ∧ rest = rest' := by
  obtain ⟨more, rfl, hmore⟩ := exists_of_end htop ht (Stage.reading_of_atTop htop') h
  obtain ⟨more', hs, -⟩ := exists_of_end htop' ht' (Stage.reading_of_atTop htop) h.symm
  have hlen := congrArg List.length hs
  simp only [List.length_append] at hlen
  obtain rfl : more = [] := List.length_eq_zero_iff.mp (by omega)
  obtain ⟨rfl, rfl⟩ := List.cons.inj hmore
  simp

@[simp] theorem source_ended (d : Draft) : d.ended.source = d.source := by
  unfold ended
  split <;> rfl

@[simp] theorem body_ended (d : Draft) : d.ended.body = d.body := by
  unfold ended
  split <;> rfl

/-- The words of an addendum, one space between each two. -/
def addendumText (latest : List Token) : Option Text :=
  let words := (Signature.textOf latest).words
  if words.isEmpty then none else some (Text.join [' '] words)

/-- The valid record of a draft with a split signature. -/
def recordOf (d : Draft) (signature : Signature) (source : Text) (body : Option Text) : Declaration where
  storage := d.storage
  constReturn := d.constReturn
  returnType := signature.returnType
  templateArgs := signature.templateArgs
  indirection := signature.indirection
  name := signature.name
  parameters := signature.parameters
  addendum := addendumText d.addendum
  initializers := signature.initializers
  body := body
  sourceText := source
  valid := true
  issue := none

theorem finish_of_ok {d : Draft} {signature : Signature} (h : d.signature = some (.ok signature))
    (hs : ∀ n, d.stage ≠ .body n) :
    d.finish = d.recordOf signature (Signature.textOf d.source) (d.body.map Signature.textOf) := by
  unfold finish
  rw [h]
  cases hstage : d.stage with
  | body n => exact absurd hstage (hs n)
  | _ => rfl

theorem finish_of_done {d : Draft} {signature : Signature} (h : d.signature = some (.ok signature))
    (source : List Token) (body : Option (List Token)) :
    finish { d with stage := .done, source := source, body := body } =
      d.recordOf signature (Signature.textOf source) (body.map Signature.textOf) :=
  finish_of_ok h (by simp)

theorem exists_ok_of_valid {d : Draft} (h : d.finish.valid) :
    (∀ n, d.stage ≠ .body n) ∧ ∃ signature, d.signature = some (.ok signature) := by
  unfold finish at h
  split at h
  · simp at h
  · simp at h
  · next signature hsig =>
    refine ⟨fun n hn => ?_, signature, hsig⟩
    rw [hn] at h
    simp at h

/-- The space that separates an addendum from a `const` that ends the signature. -/
def gapAfter (latest : List Token) : List Token :=
  if (Signature.textOf latest).isBlank then [] else [.space ' ']

/-- The words that stand for storage and a constant return type. -/
def specifiers (d : Draft) : List Token :=
  d.storage.toList.map (.word ·.keyword) ++ if d.constReturn then [.word "const".toList] else []

/-- The tokens that are not spaces. -/
def marks (tokens : List Token) : List Token := tokens.filter fun t => !t.isSpace

@[simp] theorem marks_append (ts us : List Token) : marks (ts ++ us) = marks ts ++ marks us :=
  List.filter_append ..

/-- How the tokens read so far are shared out among what leads a signature, the signature and the
addendum that follows it. -/
structure Divides (d : Draft) (lead type tail : List Token) : Prop where
  lead_eq : marks lead = d.specifiers
  type_eq : d.type = type.reverse
  stage_spec : match d.stage with
    | .storage => type = [] ∧ tail = [] ∧ d.signature = none ∧ d.specifiers = []
    | .constReturn => type = [] ∧ tail = [] ∧ d.signature = none ∧ d.constReturn = false
    | .type group => tail = [] ∧ d.signature = none ∧ group = type.foldl Group.feed none
    | .addendum => ∃ more, tail = .word "const".toList :: more ∧
        d.signature = some (Signature.ofTokens type) ∧
        d.addendum = more.reverse ++ .word "const".toList :: (gapAfter (trailingOf type) ++ trailingOf type)
    | _ => False

/-- What may follow a source: the source text and the body that the record then has. -/
inductive Ends (source : List Token) : List Token → Text → Option Text → Prop
  | atEnd : Ends source [] (Token.concat source) none
  | semicolon (rest : List Token) :
    Ends source (.delimiter ';' :: rest) (Token.concat source ++ [';']) none
  | assign (rest : List Token) : Ends source (.delimiter '=' :: rest) (Token.concat source) none
  | body (block rest : List Token) (closes : Brackets.after '{' '}' 1 block = some 1) :
    Ends source (.delimiter '{' :: (block ++ .delimiter '}' :: rest)) (Token.concat source)
      (some ('{' :: (Token.concat block ++ ['}'])))

theorem foldl_feed_block {d : Draft} (h : d.stage.atTop) {block : List Token}
    (hblock : Brackets.after '{' '}' 1 block = some 1) (rest : List Token) :
    (Token.delimiter '{' :: (block ++ .delimiter '}' :: rest)).foldl feed d =
      { d.ended with
        stage := .done
        body := some (.delimiter '}' :: (block.reverse ++ [.delimiter '{'])) } := by
  rw [List.foldl_cons, feed_brace h, List.foldl_append, foldl_feed_body rfl rfl hblock,
    List.foldl_cons, foldl_feed_done rfl]
  rfl

/-- The record of a source and what ends it. -/
theorem finish_of_ends {source rest : List Token} {signature : Signature} {text : Text}
    {body : Option Text} (htop : (readAll source).stage.atTop)
    (hsig : (readAll source).ended.signature = some (.ok signature)) (hends : Ends source rest text body)
    (hrest : rest = [] → (readAll source).stage = .addendum) :
    (readAll (source ++ rest)).finish = (readAll source).ended.recordOf signature text body := by
  obtain ⟨hsource, hbody⟩ := source_readAll (Stage.reading_of_atTop htop)
  rw [readAll_append]
  cases hends with
  | atEnd =>
    have hended : (readAll source).ended = readAll source := by rw [ended, hrest rfl]
    rw [hended] at hsig ⊢
    rw [List.foldl_nil, finish_of_ok hsig (by simp [hrest rfl]), hsource, hbody]
    simp [Signature.textOf]
  | semicolon rest =>
    rw [List.foldl_cons, feed_semicolon htop, foldl_feed_done rfl]
    refine (finish_of_done hsig _ _).trans ?_
    simp [Signature.textOf, recordOf, hbody, hsource, Token.text]
  | assign rest =>
    rw [List.foldl_cons, feed_assign htop, foldl_feed_done rfl]
    refine (finish_of_done hsig _ _).trans ?_
    simp [Signature.textOf, recordOf, hbody, hsource]
  | body block rest hblock =>
    rw [foldl_feed_block htop hblock]
    refine (finish_of_done hsig _ _).trans ?_
    simp [Signature.textOf, recordOf, hsource, Token.text]

private theorem divides_feedType {d : Draft} {lead type : List Token} {group : Option Group} {t : Token}
    (hlead : marks lead = d.specifiers) (htype : d.type = type.reverse)
    (hsig : d.signature = none) (hgroup : group = type.foldl Group.feed none)
    (h : group = none → endsSource t = false) :
    ∃ type' tail, type ++ [t] = type' ++ tail ∧ Divides (d.feedType group t) lead type' tail := by
  have hnext : Group.feed group t = (type ++ [t]).foldl Group.feed none := by
    rw [List.foldl_append, ← hgroup]
    rfl
  have hmore : Divides { d.addSource t with stage := .type (Group.feed group t), type := t :: d.type }
      lead (type ++ [t]) [] :=
    ⟨hlead, by simp [htype], rfl, hsig, hnext⟩
  unfold feedType
  cases hg : Group.feed group t with
  | some g =>
    rw [hg] at hmore
    exact ⟨type ++ [t], [], by simp, hmore⟩
  | none =>
    rw [hg] at hmore
    cases ht : Terminator.ofToken? t with
    | none => exact ⟨type ++ [t], [], by simp, hmore⟩
    | some terminator =>
      cases terminator with
      | const =>
        obtain rfl := eq_const_of_ofToken? ht
        refine ⟨type, [.word "const".toList], rfl, hlead, htype, [], rfl, ?_⟩
        simp only [endSignature, terminate, addSource, htype, List.reverse_reverse, true_and]
        rfl
      | _ =>
        have hends := endsSource_of_ofToken? ht (by simp)
        simp [h (group_eq_none_of_endsSource hg hends)] at hends

private theorem divides_space {d : Draft} {lead : List Token} {t : Token} (hd : Divides d lead [] [])
    (ht : t.isSpace) : Divides (d.addSource t) (lead ++ [t]) [] [] := by
  have hmarks : marks [t] = [] := by simp [marks, ht]
  refine ⟨?_, hd.type_eq, hd.stage_spec⟩
  rw [marks_append, hd.lead_eq, hmarks, List.append_nil]
  rfl

private theorem divides_feedConstReturn {d : Draft} {lead : List Token} {t : Token}
    (hd : Divides d lead [] []) (hsig : d.signature = none) (hconst : d.constReturn = false) (h : endsSource t = false) :
    ∃ lead' type tail, lead ++ [t] = lead' ++ type ++ tail ∧
      Divides (d.feedConstReturn t) lead' type tail := by
  unfold feedConstReturn
  split
  · next hspace => exact ⟨lead ++ [t], [], [], by simp, divides_space hd hspace⟩
  · split
    · next ht =>
      subst ht
      refine ⟨lead ++ [.word "const".toList], [], [], by simp, ?_, hd.type_eq, rfl, hsig, rfl⟩
      rw [marks_append, hd.lead_eq]
      simp [marks, specifiers, addSource, hconst, Token.isSpace]
    · obtain ⟨type, tail, htype, hdiv⟩ :=
        divides_feedType hd.lead_eq hd.type_eq hsig rfl fun _ => h
      exact ⟨lead, type, tail, by rw [List.append_assoc, ← htype]; rfl, hdiv⟩

theorem divides_feed {d : Draft} {lead type tail : List Token} {t : Token}
    (hd : Divides d lead type tail) (hs : d.stage.reading) (ht : d.stage.atTop → endsSource t = false) :
    ∃ lead' type' tail', lead ++ type ++ tail ++ [t] = lead' ++ type' ++ tail' ∧
      Divides (d.feed t) lead' type' tail' := by
  have hspec := hd.stage_spec
  unfold feed
  cases hstage : d.stage with
  | storage =>
    simp only [hstage] at hspec
    obtain ⟨rfl, rfl, hsig, hnone⟩ := hspec
    have ht' := ht (by rw [hstage]; rfl)
    have hstorage : d.storage = none ∧ d.constReturn = false := by
      simpa [specifiers, List.append_eq_nil_iff] using hnone
    have hconst := divides_feedConstReturn hd hsig hstorage.2 ht'
    simp only [feedStorage, List.append_nil]
    split
    · next hspace => exact ⟨lead ++ [t], [], [], by simp, divides_space hd hspace⟩
    · cases t with
      | word text =>
        simp only
        split
        · next storage hkeyword =>
          have htext : storage.keyword = text := by simpa using List.find?_some hkeyword
          refine ⟨lead ++ [.word text], [], [], by simp, ?_, hd.type_eq, rfl, rfl, hsig, hstorage.2⟩
          rw [marks_append, hd.lead_eq, hnone]
          simp [marks, specifiers, addSource, hstorage.2, htext, Token.isSpace]
        · exact hconst
      | _ => exact hconst
  | constReturn =>
    simp only [hstage] at hspec
    obtain ⟨rfl, rfl, hsig, hconst⟩ := hspec
    simp only [List.append_nil]
    exact divides_feedConstReturn hd hsig hconst (ht (by rw [hstage]; rfl))
  | type group =>
    simp only [hstage] at hspec
    obtain ⟨rfl, hsig, hgroup⟩ := hspec
    have hends : group = none → endsSource t = false := by
      rintro rfl
      exact ht (by rw [hstage]; rfl)
    obtain ⟨type', tail, htype, hdiv⟩ := divides_feedType hd.lead_eq hd.type_eq hsig hgroup hends
    exact ⟨lead, type', tail, by rw [List.append_nil, List.append_assoc, htype, List.append_assoc],
      hdiv⟩
  | addendum =>
    simp only [hstage] at hspec
    obtain ⟨more, rfl, hsig, hadd⟩ := hspec
    -- The tail starts with the `const` that ended the type, and takes in everything behind it.
    have hnext : Divides { d.addSource t with addendum := t :: d.addendum } lead type
        (.word "const".toList :: (more ++ [t])) := by
      refine ⟨hd.lead_eq, hd.type_eq, ?_⟩
      simp only [addSource, hstage]
      exact ⟨more ++ [t], rfl, hsig, by simp [hadd]⟩
    refine ⟨lead, type, .word "const".toList :: (more ++ [t]), by simp, ?_⟩
    have ht' := ht (by rw [hstage]; rfl)
    simp only
    cases hterm : Terminator.ofToken? t with
    | none => exact hnext
    | some terminator =>
      cases terminator with
      | const => exact hnext
      | _ => simp [endsSource_of_ofToken? hterm (by simp)] at ht'
  | body depth => simp [hstage, Stage.reading] at hs
  | done => simp [hstage, Stage.reading] at hs

/-- While the signature or its addendum is being read, the tokens read so far are shared out. -/
theorem exists_divides {ts : List Token} (h : (readAll ts).stage.reading) :
    ∃ lead type tail, ts = lead ++ type ++ tail ∧ Divides (readAll ts) lead type tail := by
  induction ts using List.reverseRecOn with
  | nil => exact ⟨[], [], [], rfl, rfl, rfl, rfl, rfl, rfl, rfl⟩
  | append_singleton ts t ih =>
    rw [readAll_concat] at h ⊢
    obtain ⟨hs, ht⟩ := reading_of_feed h
    obtain ⟨lead, type, tail, htokens, hd⟩ := ih hs
    obtain ⟨lead', type', tail', hparts, hd'⟩ := divides_feed hd hs ht
    exact ⟨lead', type', tail', by rw [htokens, hparts], hd'⟩

theorem Divides.delimiter_not_mem {d : Draft} {lead type tail : List Token}
    (h : Divides d lead type tail) (c : Char) : .delimiter c ∉ lead := by
  intro hmem
  have hmark : .delimiter c ∈ marks lead := by simpa [marks, Token.isSpace] using hmem
  rw [h.lead_eq, specifiers, List.mem_append] at hmark
  rcases hmark with hmark | hmark
  · simp at hmark
  · split at hmark <;> simp at hmark

theorem ended_of_ne_addendum {d : Draft} (h : d.stage ≠ .addendum) :
    d.ended = { d with
      signature := some (Signature.ofTokens d.type.reverse)
      addendum := trailingOf d.type.reverse } := by
  unfold ended
  split
  · next hs => exact absurd hs h
  · rfl

/-- Where nothing but a source is read, its parts are those of the signature and of the addendum, which
starts with the `const` that ended the signature. -/
theorem Divides.ended_eq {d : Draft} {lead type tail : List Token} (h : Divides d lead type tail)
    (hs : d.stage.reading) : d.ended.signature = some (Signature.ofTokens type) ∧
      ((tail = [] ∧ d.ended.addendum = trailingOf type) ∨
        ∃ more, tail = .word "const".toList :: more ∧ d.ended.addendum =
          more.reverse ++ .word "const".toList :: (gapAfter (trailingOf type) ++ trailingOf type)) := by
  have hspec := h.stage_spec
  have hother (hstage : d.stage ≠ .addendum) (htail : tail = []) :
      d.ended.signature = some (Signature.ofTokens type) ∧ tail = [] ∧
        d.ended.addendum = trailingOf type := by
    rw [ended_of_ne_addendum hstage, h.type_eq, List.reverse_reverse]
    exact ⟨rfl, htail, rfl⟩
  cases hstage : d.stage with
  | storage =>
    simp only [hstage] at hspec
    exact (hother (by simp [hstage]) hspec.2.1).imp_right .inl
  | constReturn =>
    simp only [hstage] at hspec
    exact (hother (by simp [hstage]) hspec.2.1).imp_right .inl
  | type group =>
    simp only [hstage] at hspec
    exact (hother (by simp [hstage]) hspec.1).imp_right .inl
  | addendum =>
    simp only [hstage] at hspec
    obtain ⟨more, htail, hsig, hadd⟩ := hspec
    have hended : d.ended = d := by rw [ended, hstage]
    rw [hended]
    exact ⟨hsig, .inr ⟨more, htail, hadd⟩⟩
  | body depth => simp [hstage, Stage.reading] at hs
  | done => simp [hstage, Stage.reading] at hs

/-- In a body the braces are counted. -/
theorem counts_body : Brackets.Counts '{' '}' feed id fun depth d => d.stage = .body depth where
  opened := by
    intro depth d t hd hopen
    have ht : t = .delimiter '{' := hopen
    simp [feed, hd, ht]
  closed := by
    intro depth d t hd hclose hdepth
    have ht : t = .delimiter '}' := hclose
    simp [feed, hd, ht, hdepth]
  other := by
    intro depth d t hd hopen hclose
    have hne : t ≠ .delimiter '{' ∧ t ≠ .delimiter '}' := ⟨hopen, hclose⟩
    simp [feed, hd, hne]

theorem stage_foldl_feed {d : Draft} {depth depth' : Nat} {ts : List Token} (hd : d.stage = .body depth)
    (h : Brackets.after '{' '}' depth ts = some depth') : (ts.foldl feed d).stage = .body depth' := by
  rw [← List.map_id ts] at h
  exact counts_body.foldl hd h

/-- A body that is left was closed. -/
theorem exists_block_of_closed {d : Draft} {depth : Nat} {ts : List Token} (hs : d.stage = .body depth)
    (h : ∀ n, (ts.foldl feed d).stage ≠ .body n) :
    ∃ block rest, ts = block ++ .delimiter '}' :: rest ∧ Brackets.after '{' '}' depth block = some 1 := by
  cases hafter : Brackets.after '{' '}' depth ts with
  | none => exact Brackets.exists_closing_of_after hafter
  | some open' => exact absurd (stage_foldl_feed hs hafter) (h open')

/-- A valid record is that of a source which ends outside groups, with what ends it. -/
theorem exists_ends_of_valid {ts : List Token} (h : (Declaration.ofTokens ts).valid) :
    ∃ source rest signature text body, ts = source ++ rest ∧ (readAll source).stage.atTop ∧
      (readAll source).ended.signature = some (.ok signature) ∧ Ends source rest text body ∧
      (rest = [] → (readAll source).stage = .addendum) ∧
      Declaration.ofTokens ts = (readAll source).ended.recordOf signature text body := by
  suffices hends : ∃ source rest signature text body, ts = source ++ rest ∧
      (readAll source).stage.atTop ∧ (readAll source).ended.signature = some (.ok signature) ∧
      Ends source rest text body ∧ (rest = [] → (readAll source).stage = .addendum) by
    obtain ⟨source, rest, signature, text, body, rfl, htop, hsig, hends, hrest⟩ := hends
    exact ⟨source, rest, signature, text, body, rfl, htop, hsig, hends, hrest,
      finish_of_ends htop hsig hends hrest⟩
  obtain ⟨hbody, signature, hsig⟩ := exists_ok_of_valid (d := readAll ts) h
  rcases reading_or_exists_end ts with hread | ⟨source, t, rest, rfl, htop, ht⟩
  · obtain ⟨lead, type, tail, -, hd⟩ := exists_divides hread
    have hstage : (readAll ts).stage = .addendum := by
      have hspec := hd.stage_spec
      cases hs : (readAll ts).stage with
      | addendum => rfl
      | body n => exact absurd hs (hbody n)
      | done => simp [hs, Stage.reading] at hread
      | _ => simp [hs, hsig] at hspec
    have hended : (readAll ts).ended = readAll ts := by rw [ended, hstage]
    exact ⟨ts, [], signature, _, _, by simp, by rw [hstage]; rfl, by rw [hended, hsig], .atEnd,
      fun _ => hstage⟩
  · rw [readAll_append, List.foldl_cons] at hsig hbody
    rcases endsSource_iff.mp ht with rfl | rfl | rfl
    · rw [feed_brace htop] at hbody
      obtain ⟨block, rest, rfl, hblock⟩ := exists_block_of_closed rfl hbody
      rw [← List.foldl_cons, foldl_feed_block htop hblock] at hsig
      exact ⟨source, _, signature, _, _, rfl, htop, hsig, .body block rest hblock, by simp⟩
    · rw [feed_semicolon htop, foldl_feed_done rfl] at hsig
      exact ⟨source, _, signature, _, _, rfl, htop, hsig, .semicolon rest, by simp⟩
    · rw [feed_assign htop, foldl_feed_done rfl] at hsig
      exact ⟨source, _, signature, _, _, rfl, htop, hsig, .assign rest, by simp⟩

theorem Ends.head_endsSource {source rest : List Token} {t : Token} {text : Text} {body : Option Text}
    (h : Ends source (t :: rest) text body) : endsSource t := by
  cases h <;> rfl

theorem foldl_group_of_not_mem {type : List Token} (hangle : .delimiter '<' ∉ type)
    (hparen : .delimiter '(' ∉ type) : type.foldl Group.feed none = none := by
  induction type with
  | nil => rfl
  | cons t type ih =>
    rw [List.mem_cons, not_or] at hangle hparen
    have hfeed : Group.feed none t = none := by
      simp [Group.feed, Ne.symm hangle.1, Ne.symm hparen.1]
    rw [List.foldl_cons, hfeed]
    exact ih hangle.2 hparen.2

/-- There is something before the first brace of a valid record. -/
theorem exists_not_blank_of_valid {head rest : Text} (hcode : head.endsInCode false)
    (h : (Declaration.ofTokens ((head ++ '{' :: rest).codeFrom false)).valid) :
    ∃ c ∈ head, ¬ isBlankChar c := by
  by_contra hblank
  simp only [not_exists, not_and, not_not] at hblank
  rw [Text.codeFrom_plain rfl hcode] at h
  have hmem (t : Token) (c : Char) (ht : t ∈ head.codeFrom false) (hc : c ∈ t.text) : isBlankChar c :=
    hblank c (Text.mem_of_mem_codeFrom ht hc)
  have hnot (c : Char) (hc : isBlankChar c = false) : .delimiter c ∉ head.codeFrom false := by
    intro ht
    simp [hmem _ c ht (by simp [Token.text])] at hc
  have hends (t : Token) (ht : t ∈ head.codeFrom false) : endsSource t = false := by
    refine Bool.eq_false_iff.mpr fun hends => ?_
    rcases endsSource_iff.mp hends with rfl | rfl | rfl
    · exact hnot '{' rfl ht
    · exact hnot ';' rfl ht
    · exact hnot '=' rfl ht
  -- Blanks end no source and open no group, so the brace ends the source.
  have hread : (readAll (head.codeFrom false)).stage.reading := by
    rcases reading_or_exists_end (head.codeFrom false) with hread | ⟨_, t, _, hsplit, -, ht⟩
    · exact hread
    · simp [hends t (by rw [hsplit]; simp)] at ht
  obtain ⟨lead, type, tail, hparts, hd⟩ := exists_divides hread
  have hin (t : Token) (ht : t ∈ type) : t ∈ head.codeFrom false := by rw [hparts]; simp [ht]
  have hspec := hd.stage_spec
  have htop : (readAll (head.codeFrom false)).stage.atTop ∧
      (readAll (head.codeFrom false)).stage ≠ .addendum := by
    cases hstage : (readAll (head.codeFrom false)).stage with
    | type group =>
      simp only [hstage] at hspec
      have hnone := foldl_group_of_not_mem (fun ht => hnot '<' rfl (hin _ ht))
        (fun ht => hnot '(' rfl (hin _ ht))
      rw [hspec.2.2, hnone]
      exact ⟨rfl, by simp⟩
    | addendum =>
      simp only [hstage] at hspec
      obtain ⟨more, rfl, -, -⟩ := hspec
      have hconst := hmem (.word "const".toList) 'c' (by rw [hparts]; simp) (by decide)
      exact absurd hconst (by decide)
    | storage => exact ⟨rfl, by simp⟩
    | constReturn => exact ⟨rfl, by simp⟩
    | body depth => simp [hstage, Stage.reading] at hread
    | done => simp [hstage, Stage.reading] at hread
  obtain ⟨source, ending, signature, text, body, hsplit, hsource, hsig, hending, -, -⟩ :=
    exists_ends_of_valid h
  obtain ⟨more, hmore, rfl⟩ :=
    exists_of_end htop.1 rfl (Stage.reading_of_atTop hsource) hsplit
  cases more with
  | cons t more =>
    have := hends t (by rw [hmore]; simp)
    simp [hending.head_endsSource] at this
  | nil =>
    rw [List.append_nil] at hmore
    rw [← hmore, ended_of_ne_addendum htop.2, hd.type_eq, List.reverse_reverse] at hsig
    exact hnot ')' rfl (hin _ (Signature.close_mem_of_ok (Option.some.inj hsig)))

end Draft
end OutOfLine

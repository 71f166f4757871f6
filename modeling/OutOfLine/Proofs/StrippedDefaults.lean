import Mathlib.Algebra.GroupWithZero.Nat
import OutOfLine.Proofs.JoinedLines
import OutOfLine.Proofs.StrippedParameters
import OutOfLine.Proofs.TokenShapes

/-!
# Stripping default values

A parameter list in which every parameter has a default value is split at its commas and cut at its equals signs
by a reader of its own, which takes every `<` and `>` for a bracket and every quote for the start of a literal.
The list keeps its parameters, whatever they are, exactly when this reader finds every default value but the
last closed and no comma of a default value outside brackets. That is so for default values whose `<` and `>`
pair up like the other brackets and whose quotes all belong to literals.
-/

namespace OutOfLine

namespace Text

theorem length_join_cons (separator first : Text) (rest : List Text) :
    (join separator (first :: rest)).length =
      first.length + (rest.map fun part => separator.length + part.length).sum := by
  induction rest generalizing first with
  | nil => simp [join_singleton]
  | cons next rest ih =>
    rw [join_cons_cons, List.length_append, List.length_append, ih, List.map_cons, List.sum_cons]
    omega

theorem isPrefix_join_cons (separator first : Text) (rest : List Text) :
    first <+: join separator (first :: rest) := by
  cases rest with
  | nil => simp [join_singleton]
  | cons next rest =>
    rw [join_cons_cons, List.append_assoc]
    exact List.prefix_append _ _

/-- There are at least as many marks in a joined text as joints. -/
theorem length_le_count_join (mark : Char) (first : Text) (rest : List Text) :
    rest.length ≤ (join [mark] (first :: rest)).count mark := by
  induction rest generalizing first with
  | nil => exact Nat.zero_le _
  | cons next rest ih =>
    have hrest := ih next
    rw [join_cons_cons, List.count_append, List.count_append, List.count_singleton_self, List.length_cons]
    omega

/-- A text at the front of another that is longer than the part before a character has that character. -/
theorem mem_of_prefix_append {a b part : Text} {c : Char} (h : part <+: a ++ c :: b)
    (hlength : a.length < part.length) : c ∈ part := by
  obtain ⟨rest, hrest⟩ := h
  rcases List.append_eq_append_iff.mp hrest with ⟨more, rfl, -⟩ | ⟨more, rfl, hmore⟩
  · rw [List.length_append] at hlength
    omega
  · cases more with
    | nil => simp at hlength
    | cons d more =>
      obtain ⟨rfl, -⟩ := List.cons.inj hmore
      simp

theorem trimEnd_isPrefix (t : Text) : trimEnd t <+: t := by
  obtain ⟨w, hw, -⟩ := exists_trimEnd t
  exact ⟨w, hw.symm⟩

theorem exists_trimEnd_cons {c : Char} (hc : ¬ isBlankChar c) (t : Text) :
    ∃ tail, trimEnd (c :: t) = c :: tail := by
  have hne := (trimEnd_append_of_not_blank (a := []) (b := c :: t) List.mem_cons_self hc).2
  obtain ⟨w, hw, -⟩ := exists_trimEnd (c :: t)
  cases hparts : trimEnd (c :: t) with
  | nil => exact absurd hparts hne
  | cons d tail =>
    rw [hparts, List.cons_append] at hw
    exact ⟨tail, by rw [(List.cons.inj hw).1]⟩

theorem length_trim_le (t : Text) : t.trim.length ≤ t.length := by
  have hend := (trimEnd_isPrefix t.trimStart).length_le
  have hstart := (List.dropWhile_suffix isBlankChar (l := t)).length_le
  exact hend.trans hstart

end Text

namespace Parameters

/-- The bracket that closes one; angle brackets are brackets where `angles` says so. -/
def closer? (angles : Bool) : Char → Option Char
  | '(' => some ')'
  | '[' => some ']'
  | '{' => some '}'
  | '<' => if angles then some '>' else none
  | _ => none

def isCloser (angles : Bool) (c : Char) : Bool := c == ')' || c == ']' || c == '}' || angles && c == '>'

/-- The closing brackets that are due after one more character, the innermost first. There are none once a
bracket closes that is not due, or at a comma outside brackets. -/
def nest (angles : Bool) (due : List Char) (c : Char) : Option (List Char) :=
  match closer? angles c with
  | some closer => some (closer :: due)
  | none =>
    if isCloser angles c then if due.head? = some c then some due.tail else none
    else if c = ',' ∧ due = [] then none
    else some due

/-- Well nested brackets, with commas only inside them. -/
def WellNested (angles : Bool) (t : Text) : Prop := t.foldlM (nest angles) [] = some []

instance (angles : Bool) (t : Text) : Decidable (WellNested angles t) := inferInstanceAs (Decidable (_ = _))

/-- Without quotes, where every bracket is closed by its own kind, the depth is that of the brackets. -/
theorem nesting_of_nest {due due' : List Char} {c : Char} (hc : Lexer.isQuote c = false)
    (h : nest true due c = some due') :
    Nesting.step ⟨due.length, none, false⟩ c = ⟨due'.length, none, false⟩ ∧ (due.length = 0 → c ≠ ',') := by
  simp only [Lexer.isQuote, Bool.or_eq_false_iff, beq_eq_false_iff_ne] at hc
  simp only [nest] at h
  split at h
  · next closer hcloser =>
    obtain rfl := Option.some.inj h
    unfold closer? at hcloser
    split at hcloser <;> simp_all [Nesting.step]
  · next hcloser =>
    have hopen : c ∉ ['<', '(', '{', '['] := by
      intro hmem
      simp only [List.mem_cons, List.not_mem_nil, or_false] at hmem
      rcases hmem with rfl | rfl | rfl | rfl <;> simp [closer?] at hcloser
    split at h
    · next hclose =>
      have hmem : c ∈ ['>', ')', '}', ']'] := by
        simp only [isCloser, Bool.true_and, Bool.or_eq_true, beq_iff_eq] at hclose
        simp only [List.mem_cons]
        tauto
      have hcomma : c ≠ ',' := by
        rintro rfl
        exact absurd hmem (by decide)
      split at h
      · obtain rfl := Option.some.inj h
        simp [Nesting.step, hc, hopen, hmem, hcomma]
      · cases h
    · next hclose =>
      have hmem : c ∉ ['>', ')', '}', ']'] := by
        simp only [isCloser, Bool.true_and, Bool.or_eq_true, beq_iff_eq] at hclose
        simp only [List.mem_cons, List.not_mem_nil, or_false]
        tauto
      split at h
      · cases h
      · next htop =>
        obtain rfl := Option.some.inj h
        rw [not_and'] at htop
        exact ⟨by simp [Nesting.step, hc, hopen, hmem], fun hlength => htop (List.length_eq_zero_iff.mp hlength)⟩

theorem nesting_of_nests {t : Text} (ht : ∀ c ∈ t, Lexer.isQuote c = false) {due due' : List Char}
    (h : t.foldlM (nest true) due = some due') :
    t.foldl Nesting.step ⟨due.length, none, false⟩ = ⟨due'.length, none, false⟩ ∧
      Whole ⟨due.length, none, false⟩ t := by
  induction t generalizing due with
  | nil =>
    obtain rfl : due = due' := Option.some.inj h
    exact ⟨rfl, rfl⟩
  | cons c t ih =>
    rw [List.forall_mem_cons] at ht
    rw [List.foldlM_cons] at h
    obtain ⟨between, hc, hrest⟩ := Option.bind_eq_some_iff.mp h
    obtain ⟨hstep, hcomma⟩ := nesting_of_nest ht.1 hc
    have hwhole : (Nesting.isTop ⟨due.length, none, false⟩ && c == ',') = false := by
      simpa [Nesting.isTop] using hcomma
    rw [List.foldl_cons, whole_cons, hstep]
    exact ⟨(ih ht.2 hrest).1, hwhole, (ih ht.2 hrest).2⟩

/-- Read as they are nested, such brackets end where they began. -/
theorem WellNested.nesting {t : Text} (h : WellNested true t) (ht : ∀ c ∈ t, Lexer.isQuote c = false) :
    t.foldl Nesting.step {} = {} ∧ Whole {} t :=
  nesting_of_nests ht h

/-- The characters that a parameter does not have: brackets but the angle brackets of a template, quotes, and the
marks that the reader divides at. -/
def isMark (c : Char) : Bool := ['(', '{', '[', ')', '}', ']', '"', '\'', ',', '='].contains c

/-- A parameter without a default value. -/
structure IsParameter (t : Text) : Prop where
  not_blank : t.isBlank = false
  trim_eq : t.trim = t
  plain : ∀ c ∈ t, isMark c = false
  nested : WellNested true t

instance (t : Text) : Decidable (IsParameter t) :=
  decidable_of_iff (t.isBlank = false ∧ t.trim = t ∧ (t.all fun c => !isMark c) ∧ WellNested true t)
    ⟨fun ⟨hblank, htrim, hplain, hnested⟩ => ⟨hblank, htrim, by simpa using hplain, hnested⟩,
      fun h => ⟨h.not_blank, h.trim_eq, by simpa using h.plain, h.nested⟩⟩

def assigned (name default : Text) : Text := name ++ ' ' :: '=' :: ' ' :: default

/-- The parameters of a list with their default values, as they are written. -/
def withDefaults (names defaults : List Text) : Text :=
  Text.join [',', ' '] (List.zipWith assigned names defaults)

/-- No comma of a default value is outside brackets and literals, and no bracket or literal is open where a default
value but the last ends. -/
def Divided : List Text → Prop
  | [] => True
  | default :: rest =>
    (∀ a b, default = a ++ ',' :: b → (a.foldl Nesting.step {}).isTop = false) ∧
      (rest ≠ [] → (default.foldl Nesting.step {}).isTop) ∧ Divided rest

/-- The pieces between the commas, each trimmed and without its default value. -/
def stripPieces (n : Nesting) (t : Text) : Text :=
  Text.join [',', ' '] (((pieces ',' n t).1 :: (pieces ',' n t).2).map fun piece => stripDefault piece.trim)

theorem stripDefaults_eq_stripPieces (t : Text) : stripDefaults t = stripPieces {} t := by
  rw [stripDefaults, split]
  split
  · next hblank =>
    -- A blank list has one piece, and nothing of it is left.
    have hall : ∀ c ∈ t, isBlankChar c := by simpa [Text.isBlank] using hblank
    have hcomma : ',' ∉ t := by
      intro hmem
      exact absurd (hall _ hmem) (by decide)
    have htrim : t.trim = [] := by
      have := Text.trim_append_blank hall []
      simpa [Text.trim, Text.trimStart, Text.trimEnd] using this
    rw [stripPieces, pieces_of_not_mem hcomma, List.map_cons, List.map_nil, htrim]
    rfl
  · rw [stripPieces, List.map_map]
    rfl

theorem stripPieces_whole {n : Nesting} {t : Text} (h : Whole n t) : stripPieces n t = stripDefault t.trim := by
  rw [Whole] at h
  rw [stripPieces, h, List.map_cons, List.map_nil, Text.join_singleton]

theorem stripPieces_comma {n : Nesting} {a : Text} (h : Whole n a) (hend : a.foldl Nesting.step n = {})
    (b : Text) : stripPieces n (a ++ ',' :: b) = stripDefault a.trim ++ [',', ' '] ++ stripPieces {} b := by
  rw [stripPieces, pieces_whole_append h hend, List.map_cons, List.map_cons, Text.join_cons_cons, stripPieces,
    List.map_cons]

theorem stripPieces_space (t : Text) : stripPieces {} (' ' :: t) = stripPieces {} t := by
  have hpieces : pieces ',' {} (' ' :: t) = (' ' :: (pieces ',' {} t).1, (pieces ',' {} t).2) := rfl
  have htrim (piece : Text) : Text.trim (' ' :: piece) = piece.trim :=
    Text.trim_blank_append (w := [' ']) (List.all_eq_true.mp (by decide)) piece
  rw [stripPieces, hpieces, List.map_cons, htrim, stripPieces, List.map_cons]

/-- A text is one piece when every mark in it stands inside brackets or a literal. -/
theorem pieces_eq_self_iff {mark : Char} {n : Nesting} {t : Text} :
    pieces mark n t = (t, []) ↔ ∀ a b, t = a ++ mark :: b → (a.foldl Nesting.step n).isTop = false := by
  induction t generalizing n with
  | nil => exact iff_of_true rfl (by simp)
  | cons c t ih =>
    rw [pieces_cons_eq_self_iff, ih]
    constructor
    · rintro ⟨hc, hrest⟩ a b hab
      cases a with
      | nil =>
        obtain ⟨rfl, -⟩ := List.cons.inj hab
        simpa using hc
      | cons d a =>
        obtain ⟨rfl, rfl⟩ := List.cons.inj hab
        exact hrest a b rfl
    · intro h
      refine ⟨?_, fun a b hab => h (c :: a) b (by rw [hab]; rfl)⟩
      by_cases hc : c = mark
      · have htop := h [] t (by rw [hc]; rfl)
        rw [List.foldl_nil] at htop
        rw [htop, Bool.false_and]
      · simp [hc]

theorem whole_iff_commas {n : Nesting} {t : Text} :
    Whole n t ↔ ∀ a b, t = a ++ ',' :: b → (a.foldl Nesting.step n).isTop = false :=
  pieces_eq_self_iff

theorem divided_cons_iff {first : Text} {rest : List Text} : Divided (first :: rest) ↔ Parted {} first rest := by
  have hclosed (t : Text) : (t.foldl Nesting.step {}).isTop ↔ t.foldl Nesting.step {} = {} :=
    ⟨(Nesting.regular_start.foldl t).eq_of_isTop, fun h => by rw [h]; rfl⟩
  induction rest generalizing first with
  | nil => simp [Divided, Parted, whole_iff_commas]
  | cons next rest ih =>
    rw [Parted, whole_iff_commas, ← hclosed, and_assoc]
    constructor
    · rintro ⟨hcommas, htop, hrest⟩
      exact ⟨hcommas, htop (by simp), ih.mp hrest⟩
    · rintro ⟨hcommas, htop, hrest⟩
      exact ⟨hcommas, fun _ => htop, ih.mpr hrest⟩

theorem exists_cut_of_not_whole {n : Nesting} (hn : n.Regular) {t : Text} (h : ¬ Whole n t) :
    ∃ u v, t = u ++ ',' :: v ∧ Whole n u ∧ u.foldl Nesting.step n = {} := by
  induction t generalizing n with
  | nil => exact absurd rfl h
  | cons c t ih =>
    cases hc : n.isTop && c == ',' with
    | true =>
      simp only [Bool.and_eq_true, beq_iff_eq] at hc
      exact ⟨[], t, by simp [hc.2], rfl, hn.eq_of_isTop hc.1⟩
    | false =>
      rw [whole_cons, not_and] at h
      obtain ⟨u, v, rfl, hu, hend⟩ := ih (hn.step c) (h hc)
      exact ⟨c :: u, v, rfl, whole_cons.mpr ⟨hc, hu⟩, hend⟩

theorem pieces_append {mark : Char} {n : Nesting} {a : Text} (h : pieces mark n a = (a, [])) (b : Text) :
    pieces mark n (a ++ b) =
      (a ++ (pieces mark (a.foldl Nesting.step n) b).1, (pieces mark (a.foldl Nesting.step n) b).2) := by
  induction a generalizing n with
  | nil => rfl
  | cons c a ih =>
    rw [pieces] at h
    split at h
    · simp at h
    · next hc =>
      have hrest : pieces mark (n.step c) a = (a, []) := by simpa [Prod.ext_iff] using h
      simp [pieces, ih hrest, hc]

section Parameter

variable {name : Text} (h : IsParameter name)
include h

theorem IsParameter.not_mem {c : Char} (hc : isMark c) : c ∉ name := by
  intro hmem
  have := h.plain c hmem
  rw [hc] at this
  exact absurd this (by simp)

theorem IsParameter.unquoted : ∀ c ∈ name, Lexer.isQuote c = false := by
  intro c hc
  cases hquote : Lexer.isQuote c with
  | false => rfl
  | true =>
    have hmark : isMark c := by
      simp only [Lexer.isQuote, Bool.or_eq_true, beq_iff_eq] at hquote
      rcases hquote with rfl | rfl <;> decide
    exact absurd hc (h.not_mem hmark)

theorem IsParameter.foldl_eq : name.foldl Nesting.step {} = {} := (h.nested.nesting h.unquoted).1

/-- Up to its default value a parameter is outside brackets, so that only the value matters. -/
theorem whole_assigned_iff (default : Text) : Whole {} (assigned name default) ↔ Whole {} default := by
  have hname : Whole {} name := pieces_of_not_mem (h.not_mem (by decide)) {}
  rw [assigned, whole_append, h.foldl_eq]
  simp [hname, whole_cons, Nesting.step]

theorem foldl_assigned (default : Text) :
    (assigned name default).foldl Nesting.step {} = default.foldl Nesting.step {} := by
  rw [assigned, List.foldl_append, h.foldl_eq]
  rfl

theorem IsParameter.trimStart_append (t : Text) : Text.trimStart (name ++ t) = name ++ t := by
  cases hcons : name with
  | nil => exact absurd h.not_blank (by simp [hcons, Text.isBlank])
  | cons first more =>
    have hfirst := (Text.trim_eq_self_iff.mp h.trim_eq).1 first (by rw [hcons]; rfl)
    exact List.dropWhile_cons_of_neg hfirst

/-- The equals sign behind a parameter is found, and what stands before it is the parameter. -/
theorem stripDefault_trim (rest : Text) : stripDefault (Text.trim (name ++ ' ' :: '=' :: rest)) = name := by
  obtain ⟨tail, htail⟩ := Text.exists_trimEnd_cons (show ¬ isBlankChar '=' by decide) rest
  have htrim : Text.trim (name ++ ' ' :: '=' :: rest) = name ++ [' '] ++ '=' :: tail := by
    have hend := (Text.trimEnd_append_of_not_blank (a := name ++ [' ']) (b := '=' :: rest) List.mem_cons_self
      (by decide)).1
    rw [Text.trim, h.trimStart_append, ← htail, ← hend, List.append_assoc, List.singleton_append]
  have hpieces : pieces '=' {} (name ++ [' '] ++ '=' :: tail) =
      (name ++ [' '], (pieces '=' {} tail).1 :: (pieces '=' {} tail).2) := by
    have hspace : '=' ∉ name ++ [' '] := by simpa using h.not_mem (show isMark '=' by decide)
    have hfold : (name ++ [' ']).foldl Nesting.step {} = {} := by
      rw [List.foldl_append, h.foldl_eq]
      rfl
    rw [pieces_append (pieces_of_not_mem hspace {}), hfold]
    simp [pieces, Nesting.isTop, Nesting.step]
  have hblank := Text.trim_append_blank (w := [' ']) (List.all_eq_true.mp (by decide)) name
  rw [Text.trim, h.trimStart_append, h.trim_eq] at hblank
  rw [htrim, stripDefault, hpieces]
  exact hblank

/-- A closed default value is taken off, and the list goes on behind the comma. -/
theorem stripPieces_assigned {default : Text} (hwhole : Whole {} default)
    (hend : default.foldl Nesting.step {} = {}) (b : Text) :
    stripPieces {} (assigned name default ++ ',' :: b) = name ++ [',', ' '] ++ stripPieces {} b := by
  rw [stripPieces_comma ((whole_assigned_iff h default).mpr hwhole) ((foldl_assigned h default).trans hend),
    assigned, stripDefault_trim h]

end Parameter

theorem assigned_append (name default more : Text) :
    assigned name (default ++ more) = assigned name default ++ more := by
  simp [assigned]

theorem withDefaults_singleton (name default : Text) : withDefaults [name] [default] = assigned name default :=
  Text.join_singleton _ _

theorem withDefaults_cons_cons (name other first next : Text) (names rest : List Text) :
    withDefaults (name :: other :: names) (first :: next :: rest) =
      assigned name first ++ ',' :: ' ' :: withDefaults (other :: names) (next :: rest) := by
  simp [withDefaults, Text.join_cons_cons]

theorem exists_withDefaults_cons (name default : Text) (names defaults : List Text) :
    ∃ list, withDefaults (name :: names) (default :: defaults) = name ++ list := by
  have hname : name <+: assigned name default := List.prefix_append _ _
  obtain ⟨list, hlist⟩ := hname.trans (Text.isPrefix_join_cons [',', ' '] _ (List.zipWith assigned names defaults))
  exact ⟨list, hlist.symm⟩

/-- Divided default values are stripped and nothing else. -/
theorem stripPieces_withDefaults {names : List Text} {first : Text} {rest : List Text}
    (hnames : ∀ t ∈ names, IsParameter t) (hlength : names.length = (first :: rest).length)
    (h : Parted {} first rest) : stripPieces {} (withDefaults names (first :: rest)) = Text.join [',', ' '] names := by
  induction rest generalizing names first with
  | nil =>
    obtain ⟨name, rfl⟩ := List.length_eq_one_iff.mp hlength
    have hname := hnames name List.mem_cons_self
    rw [withDefaults_singleton, stripPieces_whole ((whole_assigned_iff hname first).mpr h), Text.join_singleton]
    exact stripDefault_trim hname _
  | cons next rest ih =>
    obtain ⟨name, others, rfl⟩ : ∃ name others, names = name :: others :=
      List.exists_cons_of_length_eq_add_one hlength
    rw [List.forall_mem_cons] at hnames
    obtain ⟨other, more, rfl⟩ : ∃ other more, others = other :: more :=
      List.exists_cons_of_length_eq_add_one (by simpa using hlength)
    rw [withDefaults_cons_cons, stripPieces_assigned hnames.1 h.1.1 h.1.2, stripPieces_space,
      ih hnames.2 (by simpa using hlength) h.2, Text.join_cons_cons]

theorem pieces_isPrefix (mark : Char) (n : Nesting) (t : Text) : (pieces mark n t).1 <+: t := by
  have hfront := Text.isPrefix_join_cons [mark] (pieces mark n t).1 (pieces mark n t).2
  rwa [join_pieces] at hfront

theorem stripDefault_isPrefix (t : Text) : stripDefault t <+: t := by
  rw [stripDefault]
  split
  · exact List.prefix_rfl
  · next before _ _ hpieces =>
    have hbefore : before <+: t := by simpa [hpieces] using pieces_isPrefix '=' {} t
    exact (Text.trimEnd_isPrefix before).trans hbefore

/-- Stripping and spacing adds no more to the pieces behind the first one than there are commas. -/
theorem sum_stripped_le (n : Nesting) (t : Text) :
    ((pieces ',' n t).2.map fun piece => 2 + (stripDefault piece.trim).length).sum ≤ t.length + t.count ',' := by
  have hlength := Text.length_join_cons [','] (pieces ',' n t).1 (pieces ',' n t).2
  have hcount := Text.length_le_count_join ',' (pieces ',' n t).1 (pieces ',' n t).2
  rw [join_pieces] at hlength hcount
  have hpiece (piece : Text) : (stripDefault piece.trim).length ≤ piece.length :=
    (stripDefault_isPrefix _).length_le.trans piece.length_trim_le
  have hsum (parts : List Text) : (parts.map fun piece => 2 + (stripDefault piece.trim).length).sum ≤
      (parts.map fun piece => [','].length + piece.length).sum + parts.length := by
    induction parts with
    | nil => exact Nat.le_refl _
    | cons part parts ih =>
      have hpart := hpiece part
      simp only [List.map_cons, List.sum_cons, List.length_cons, List.length_nil] at ih ⊢
      omega
  have hparts := hsum (pieces ',' n t).2
  omega

/-- What default values add at most to the length of a list. -/
def room (defaults : List Text) : Nat := (defaults.map fun default => default.length + 5).sum

section Filler

variable {filler : Text}

theorem withDefaults_replicate_le (hcomma : ',' ∉ filler) (defaults : List Text) :
    let list := withDefaults (List.replicate defaults.length filler) defaults
    list.length + list.count ',' ≤ defaults.length * filler.length + 2 * room defaults := by
  have hitem (default : Text) : (assigned filler default).length = filler.length + 3 + default.length ∧
      (assigned filler default).count ',' ≤ default.length := by
    have hle : default.count ',' ≤ default.length := List.count_le_length
    have hnone : filler.count ',' = 0 := List.count_eq_zero.mpr hcomma
    simp [assigned, hnone, hle]
    omega
  induction defaults with
  | nil => exact Nat.zero_le _
  | cons default defaults ih =>
    obtain ⟨hlength, hcount⟩ := hitem default
    cases defaults with
    | nil =>
      simp [withDefaults_singleton, room]
      omega
    | cons next defaults =>
      simp only [List.length_cons, List.replicate_succ, room, List.map_cons, List.sum_cons, Nat.add_one_mul,
        withDefaults_cons_cons, List.length_append, List.count_append, List.count_cons] at ih ⊢
      simp only [show (' ' == ',') = false from rfl, beq_self_eq_true, Bool.false_eq_true, if_true, if_false]
      omega

/-- A text that is longer than what stands before a comma, and has none, is not found in front of the pieces. -/
theorem not_prefix_stripPieces (hcomma : ',' ∉ filler) (n : Nesting) {before : Text}
    (hlength : before.length < filler.length) (rest : Text) :
    ¬ filler <+: stripPieces n (before ++ ',' :: rest) := by
  intro h
  have hpiece := pieces_isPrefix ',' n (before ++ ',' :: rest)
  rw [stripPieces, List.map_cons] at h
  generalize (pieces ',' n (before ++ ',' :: rest)).1 = piece at h hpiece
  generalize (pieces ',' n (before ++ ',' :: rest)).2.map _ = others at h
  have hfirst : filler <+: stripDefault piece.trim := by
    cases others with
    | nil => rwa [Text.join_singleton] at h
    | cons next others =>
      rw [Text.join_cons_cons, List.append_assoc] at h
      by_cases hshort : (stripDefault piece.trim).length < filler.length
      · exact absurd (Text.mem_of_prefix_append h hshort) hcomma
      · exact List.prefix_of_prefix_length_le h (List.prefix_append _ _) (Nat.le_of_not_lt hshort)
  have hstart : filler <+: piece.trimStart :=
    hfirst.trans ((stripDefault_isPrefix _).trans (Text.trimEnd_isPrefix _))
  have hdrop : piece.trimStart.length ≤ piece.length := (List.dropWhile_suffix _).length_le
  obtain ⟨more, rfl⟩ : before ++ [','] <+: piece := by
    have hfits := hstart.length_le
    exact List.prefix_of_prefix_length_le ⟨rest, by simp⟩ hpiece (by simp; omega)
  obtain ⟨shorter, hshorter, hle⟩ : ∃ shorter : Text,
      Text.trimStart (before ++ [','] ++ more) = shorter ++ ',' :: more ∧ shorter.length ≤ before.length := by
    have hmark : List.dropWhile isBlankChar (',' :: more) = ',' :: more :=
      List.dropWhile_cons_of_neg (by decide)
    refine ⟨before.dropWhile isBlankChar, ?_, (List.dropWhile_suffix _).length_le⟩
    rw [Text.trimStart, List.append_assoc, List.singleton_append, List.dropWhile_append]
    split
    · next hempty => rw [hmark, List.isEmpty_iff.mp hempty, List.nil_append]
    · rfl
  rw [hshorter] at hstart
  exact hcomma (Text.mem_of_prefix_append hstart (by omega))

/-- A default value that is not closed takes the next parameter with it, so that the list gets shorter. -/
theorem length_stripPieces_open {name first : Text} (hname : IsParameter name) (hwhole : Whole {} first)
    (hopen : first.foldl Nesting.step {} ≠ {}) (next : Text) (names rest : List Text) :
    ∃ list, withDefaults (name :: names) (next :: rest) = name ++ list ∧
      (stripPieces {} (withDefaults (name :: name :: names) (first :: next :: rest))).length ≤
        name.length + (list.length + list.count ',') := by
  obtain ⟨list, hlist⟩ := exists_withDefaults_cons name next names rest
  refine ⟨list, hlist, ?_⟩
  have hcomma : ',' ∉ name := hname.not_mem (by decide)
  have hregular := Nesting.regular_start.foldl first
  have hinside : Whole {} (assigned name first ++ [',']) := by
    refine whole_append.mpr ⟨(whole_assigned_iff hname first).mpr hwhole, whole_cons.mpr ⟨?_, rfl⟩⟩
    rw [foldl_assigned hname, Bool.and_eq_false_iff]
    exact .inl (Bool.eq_false_iff.mpr fun htop => hopen (hregular.eq_of_isTop htop))
  have hcovered : Whole {} (assigned name first ++ [','] ++ ' ' :: name) :=
    whole_append.mpr ⟨hinside, pieces_of_not_mem (by simpa using hcomma) _⟩
  have htext : withDefaults (name :: name :: names) (first :: next :: rest) =
      assigned name first ++ [','] ++ ' ' :: name ++ list := by
    rw [withDefaults_cons_cons, hlist]
    simp
  have hpieces := pieces_append hcovered list
  have hstrip (more : Text) :
      stripDefault (Text.trim (assigned name first ++ [','] ++ ' ' :: name ++ more)) = name := by
    rw [assigned, List.append_assoc, List.append_assoc, List.append_assoc]
    exact stripDefault_trim hname _
  rw [htext, stripPieces, hpieces, List.map_cons, hstrip, Text.length_join_cons, List.map_map]
  exact Nat.add_le_add_left (sum_stripped_le _ _) _

/-- If a long parameter is kept in front of every default value, the default values are divided. -/
theorem parted_of_stripPieces (hfiller : IsParameter filler) {first : Text} {rest : List Text}
    (hroom : 2 * room (first :: rest) < filler.length)
    (h : stripPieces {} (withDefaults (List.replicate (first :: rest).length filler) (first :: rest)) =
      Text.join [',', ' '] (List.replicate (first :: rest).length filler)) : Parted {} first rest := by
  have hcomma : ',' ∉ filler := hfiller.not_mem (by decide)
  induction rest generalizing first with
  | nil =>
    by_contra hpart
    obtain ⟨u, v, rfl, hu, hend⟩ := exists_cut_of_not_whole Nesting.regular_start hpart
    have hlength := congrArg List.length h
    simp only [List.length_cons, List.length_nil, List.replicate_succ, List.replicate_zero] at hlength
    rw [withDefaults_singleton, assigned_append, stripPieces_assigned hfiller hu hend, Text.join_singleton] at hlength
    simp at hlength
  | cons next rest ih =>
    simp only [List.length_cons, List.replicate_succ] at h
    by_cases hwhole : Whole {} first
    · by_cases hend : first.foldl Nesting.step {} = {}
      · -- The first default value is closed: what is kept of the list behind it is the rest.
        rw [withDefaults_cons_cons, stripPieces_assigned hfiller hwhole hend, stripPieces_space,
          Text.join_cons_cons] at h
        have hroom' : 2 * room (next :: rest) < filler.length := by
          simp only [room, List.map_cons, List.sum_cons] at hroom ⊢
          omega
        exact ⟨⟨hwhole, hend⟩, ih hroom' (List.append_cancel_left h)⟩
      · -- It is open at its end and takes in the parameter behind it: too little is kept for the filler.
        obtain ⟨list, hlist, hle⟩ := length_stripPieces_open hfiller hwhole hend next
          (List.replicate rest.length filler) rest
        have hbound := withDefaults_replicate_le hcomma (next :: rest)
        have hall := Text.length_join_cons [',', ' '] filler (List.replicate (rest.length + 1) filler)
        simp only [List.length_cons, List.replicate_succ, hlist, List.length_append, List.count_append,
          Nat.add_one_mul] at hbound
        rw [h, ← List.replicate_succ, hall, List.map_replicate, List.sum_replicate_nat,
          Nat.add_one_mul] at hle
        simp only [room, List.map_cons, List.sum_cons, List.length_cons, List.length_nil, Nat.mul_add] at hroom hbound hle
        omega
    · -- It has a comma outside brackets, and what is kept behind that does not start with the filler.
      obtain ⟨u, v, rfl, hu, hend⟩ := exists_cut_of_not_whole Nesting.regular_start hwhole
      rw [withDefaults_cons_cons, assigned_append, List.append_assoc, List.cons_append,
        stripPieces_assigned hfiller hu hend, Text.join_cons_cons] at h
      have hkept := List.append_cancel_left h
      have hfront := Text.isPrefix_join_cons [',', ' '] filler (List.replicate rest.length filler)
      have hshort : v.length < filler.length := by
        simp only [room, List.map_cons, List.sum_cons, List.length_append, List.length_cons] at hroom
        omega
      rw [← hkept] at hfront
      exact absurd hfront (not_prefix_stripPieces hcomma {} hshort _)

/-- There are parameters of every length. -/
theorem isParameter_replicate (n : Nat) : IsParameter (List.replicate (n + 1) 'x') := by
  have hx (c : Char) (hc : c ∈ List.replicate (n + 1) 'x') : c = 'x' := (List.mem_replicate.mp hc).2
  refine ⟨?_, Text.trim_eq_self_iff.mpr ⟨?_, ?_⟩, ?_, ?_⟩
  · simp [Text.isBlank, List.replicate_succ, show isBlankChar 'x' = false from rfl]
  · intro c hc
    rw [hx c (List.mem_of_head? hc)]
    decide
  · intro c hc
    rw [hx c (List.mem_of_getLast? hc)]
    decide
  · intro c hc
    rw [hx c hc]
    rfl
  · rw [WellNested]
    induction n + 1 with
    | zero => rfl
    | succ n ih =>
      rw [List.replicate_succ, List.foldlM_cons]
      exact ih

end Filler

end Parameters

/-- The characters of a text that are not in a literal. -/
def Text.outsideLiterals (t : Text) : Text :=
  Token.concat ((tokenize false t).1.filter fun token => !token.isLiteral)

namespace Nesting

theorem step_quoted {quote c : Char} {escaped : Bool} (h : c = quote → escaped) (depth : Nat) :
    step ⟨depth, some quote, escaped⟩ c = ⟨depth, some quote, c = '\\' && !escaped⟩ := by
  cases escaped with
  | true => simp [step]
  | false =>
    have hc : c ≠ quote := fun heq => Bool.false_ne_true (h heq)
    by_cases hback : c = '\\' <;> simp [step, hback, hc]

end Nesting

namespace Parameters

/-- Inside a literal only its quote is looked for, and a comma does not divide. -/
theorem nesting_of_leavesOpen {inner : Text} {quote : Char} (h : inner.LeavesOpen quote) (depth : Nat) :
    inner.foldl Nesting.step ⟨depth, some quote, false⟩ = ⟨depth, some quote, inner.escapes⟩ ∧
      Whole ⟨depth, some quote, false⟩ inner := by
  induction inner using List.reverseRecOn with
  | nil => exact ⟨rfl, rfl⟩
  | append_singleton inner c ih =>
    have hopen : Text.LeavesOpen inner quote := by
      refine ⟨fun hmem => h.no_newline (List.mem_append_left _ hmem), ?_⟩
      intro a b hab
      exact h.escaped a (b ++ [c]) (by rw [hab]; simp)
    obtain ⟨hfold, hwhole⟩ := ih hopen
    have hescaped : c = quote → Text.escapes inner := by
      rintro rfl
      exact h.escaped inner [] rfl
    refine ⟨?_, whole_append.mpr ⟨hwhole, ?_⟩⟩
    · rw [List.foldl_append, hfold, List.foldl_cons, List.foldl_nil, Nesting.step_quoted hescaped,
        Text.escapes_concat]
    · rw [hfold, whole_cons]
      exact ⟨by simp [Nesting.isTop], rfl⟩

/-- A closed literal leaves the reader where it was. -/
theorem nesting_of_literal {text : Text} (hshaped : (Token.literal text).Shaped)
    (hclosed : (Token.literal text).isClosed) (depth : Nat) :
    text.foldl Nesting.step ⟨depth, none, false⟩ = ⟨depth, none, false⟩ ∧ Whole ⟨depth, none, false⟩ text := by
  obtain ⟨quote, inner, hquote, hopen, htext⟩ := hshaped
  have hquotes : quote = '"' ∨ quote = '\'' := by simpa [Lexer.isQuote] using hquote
  have hstart : Nesting.step ⟨depth, none, false⟩ quote = ⟨depth, some quote, false⟩ := by
    simp [Nesting.step, hquotes]
  have hcomma : quote ≠ ',' := by rcases hquotes with rfl | rfl <;> decide
  obtain ⟨hfold, hwhole⟩ := nesting_of_leavesOpen hopen depth
  rcases htext with rfl | ⟨rfl, hescapes⟩
  · -- A last character that is the quote would have to be escaped, since nothing has closed the literal.
    simp only [Token.isClosed, Bool.and_eq_true, decide_eq_true_eq, Bool.not_eq_true'] at hclosed
    obtain ⟨hlast, hends⟩ := hclosed
    obtain ⟨before, rfl⟩ := List.getLast?_eq_some_iff.mp hlast
    rw [List.dropLast_concat] at hends
    exact absurd (hopen.escaped before [] rfl) (by simp [hends])
  · rw [hescapes] at hfold
    have hback : quote ≠ '\\' := by rcases hquotes with rfl | rfl <;> decide
    refine ⟨?_, whole_cons.mpr ⟨by simp [hcomma], ?_⟩⟩
    · rw [List.foldl_cons, hstart, List.foldl_append, hfold]
      simp [Nesting.step, hback]
    · rw [hstart, whole_append, hfold]
      exact ⟨hwhole, whole_cons.mpr ⟨by simp [Nesting.isTop], rfl⟩⟩

/-- Whoever reads only what is outside literals reads the same brackets. -/
theorem nesting_of_outsideLiterals {tokens : List Token} (hshaped : ∀ t ∈ tokens, t.Shaped)
    (hclosed : ∀ t ∈ tokens, t.isClosed) {n : Nesting} (hn : n.unquoted) :
    let code := Token.concat (tokens.filter fun t => !t.isLiteral)
    (∀ c ∈ code, Lexer.isQuote c = false) → Whole n code →
      (Token.concat tokens).foldl Nesting.step n = code.foldl Nesting.step n ∧ Whole n (Token.concat tokens) := by
  induction tokens generalizing n with
  | nil => exact fun _ hwhole => ⟨rfl, hwhole⟩
  | cons token tokens ih =>
    rw [List.forall_mem_cons] at hshaped hclosed
    intro code hcode hwhole
    by_cases hliteral : token.isLiteral
    · obtain ⟨text, rfl⟩ : ∃ text, token = .literal text := by
        cases token <;> simp_all [Token.isLiteral]
      obtain ⟨depth, rfl⟩ : ∃ depth, n = ⟨depth, none, false⟩ := by
        obtain ⟨depth, quote, escaped⟩ := n
        simp only [Nesting.unquoted, Bool.and_eq_true, Option.isNone_iff_eq_none, Bool.not_eq_true'] at hn
        exact ⟨depth, by rw [hn.1, hn.2]⟩
      obtain ⟨hfold, hpart⟩ := nesting_of_literal hshaped.1 hclosed.1 depth
      have hskip : code = Token.concat (tokens.filter fun t => !t.isLiteral) := by
        simp [code, Token.isLiteral]
      rw [hskip] at hcode hwhole ⊢
      obtain ⟨hrest, hrestWhole⟩ := ih hshaped.2 hclosed.2 hn hcode hwhole
      rw [Token.concat_cons, List.foldl_append, whole_append, Token.text, hfold]
      exact ⟨hrest, hpart, hrestWhole⟩
    · have htake : code = token.text ++ Token.concat (tokens.filter fun t => !t.isLiteral) := by
        simp [code, hliteral]
      rw [htake] at hcode hwhole ⊢
      rw [whole_append] at hwhole
      rw [List.forall_mem_append] at hcode
      obtain ⟨hrest, hrestWhole⟩ := ih hshaped.2 hclosed.2 (Nesting.unquoted_foldl hn hcode.1) hcode.2 hwhole.2
      rw [Token.concat_cons, List.foldl_append, List.foldl_append, whole_append]
      exact ⟨hrest, hwhole.1, hrestWhole⟩

/-- A default value: code without comments and open literals, its brackets nested and its commas inside them. The
signs `<` and `>` may stand for anything, and a quote may separate digits. -/
structure IsDefault (default : Text) : Prop where
  plain : ∀ t ∈ (tokenize false default).1, t.opensComment = false
  closed : ∀ t ∈ (tokenize false default).1, t.isClosed
  nested : WellNested false default.outsideLiterals

instance (default : Text) : Decidable (IsDefault default) :=
  decidable_of_iff ((∀ t ∈ (tokenize false default).1, t.opensComment = false ∧ t.isClosed) ∧
      WellNested false default.outsideLiterals)
    ⟨fun h => ⟨fun t ht => (h.1 t ht).1, fun t ht => (h.1 t ht).2, h.2⟩,
      fun h => ⟨fun t ht => ⟨h.plain t ht, h.closed t ht⟩, h.nested⟩⟩

/-- A default value in which `<` and `>` are brackets and every quote belongs to a literal. -/
structure IsBracketed (default : Text) : Prop where
  closed : ∀ t ∈ (tokenize false default).1, t.isClosed
  angles : WellNested true default.outsideLiterals
  quotes : ∀ c ∈ default.outsideLiterals, Lexer.isQuote c = false

instance (default : Text) : Decidable (IsBracketed default) :=
  decidable_of_iff ((∀ t ∈ (tokenize false default).1, t.isClosed) ∧ WellNested true default.outsideLiterals ∧
      default.outsideLiterals.all fun c => !Lexer.isQuote c)
    ⟨fun ⟨hclosed, hangles, hquotes⟩ => ⟨hclosed, hangles, by simpa using hquotes⟩,
      fun h => ⟨h.closed, h.angles, by simpa using h.quotes⟩⟩

theorem IsBracketed.nesting {default : Text} (h : IsBracketed default) :
    Whole {} default ∧ default.foldl Nesting.step {} = {} := by
  obtain ⟨hfold, hwhole⟩ := h.angles.nesting h.quotes
  have hread := nesting_of_outsideLiterals (shaped_tokenize false default) h.closed rfl h.quotes hwhole
  rw [concat_tokenize] at hread
  exact ⟨hread.2, hread.1.trans hfold⟩

theorem divided_of_isBracketed {defaults : List Text} (h : ∀ default ∈ defaults, IsBracketed default) :
    Divided defaults := by
  cases defaults with
  | nil => trivial
  | cons first rest =>
    rw [divided_cons_iff]
    induction rest generalizing first with
    | nil => exact (h first List.mem_cons_self).nesting.1
    | cons next rest ih =>
      rw [List.forall_mem_cons] at h
      exact ⟨h.1.nesting, ih next h.2⟩

/-- Default values that are taken off a list without loss, whatever the parameters are. -/
def Strips (defaults : List Text) : Prop :=
  ∀ names : List Text, names.length = defaults.length → (∀ name ∈ names, IsParameter name) →
    stripDefaults (withDefaults names defaults) = Text.join [',', ' '] names

/-- Every parameter is kept, in its place and as it is written, exactly if the default values are divided where
the reader of brackets and quotes divides them; and so they are if they are bracketed. -/
theorem strips_iff_divided (defaults : List Text) :
    (Strips defaults ↔ Divided defaults) ∧
      ((∀ default ∈ defaults, IsBracketed default) → Strips defaults) := by
  have hdivided (h : Divided defaults) : Strips defaults := by
    intro names hlength hnames
    cases defaults with
    | nil =>
      obtain rfl := List.length_eq_zero_iff.mp hlength
      rfl
    | cons first rest =>
      rw [stripDefaults_eq_stripPieces]
      exact stripPieces_withDefaults hnames hlength (divided_cons_iff.mp h)
  refine ⟨⟨fun h => ?_, hdivided⟩, fun h => hdivided (divided_of_isBracketed h)⟩
  cases defaults with
  | nil => trivial
  | cons first rest =>
    -- One parameter, long enough that nothing in the default values can be taken for it.
    have hfiller := isParameter_replicate (2 * room (first :: rest))
    apply divided_cons_iff.mpr
    apply parted_of_stripPieces hfiller
    · rw [List.length_replicate]
      exact Nat.lt_succ_self _
    · rw [← stripDefaults_eq_stripPieces]
      apply h
      · exact List.length_replicate
      · intro name hname
        rw [(List.mem_replicate.mp hname).2]
        exact hfiller

def sampleNames : List Text := ["int a".toList, "pair<int> b".toList, "string c".toList]

def sampleDefaults : List Text :=
  ["f(1, 2)".toList, "pair<int, int>\x7b3, 4\x7d".toList, "\"a, \\\"b = c\"".toList]

/-- Commas in a call, in a template and in literals do not divide the list. -/
theorem strips_call_template_literal :
    (∀ default ∈ sampleDefaults, IsBracketed default) ∧ (∀ name ∈ sampleNames, IsParameter name) ∧
    stripDefaults "int a = f(1, 2), pair<int> b = pair<int, int>\x7b3, 4\x7d, string c = \"a, \\\"b = c\"".toList =
      "int a, pair<int> b, string c".toList := by
  have hdefaults : ∀ default ∈ sampleDefaults, IsBracketed default := by decide +kernel
  have hnames : ∀ name ∈ sampleNames, IsParameter name := by decide +kernel
  have hlist : "int a = f(1, 2), pair<int> b = pair<int, int>\x7b3, 4\x7d, string c = \"a, \\\"b = c\"".toList =
      withDefaults sampleNames sampleDefaults := by
    decide +kernel
  have hkept : "int a, pair<int> b, string c".toList = Text.join [',', ' '] sampleNames := by decide +kernel
  rw [hlist, hkept]
  exact ⟨hdefaults, hnames, (strips_iff_divided sampleDefaults).2 hdefaults sampleNames (by decide) hnames⟩

/-- A comparison and a separator of digits each swallow the parameter that follows. -/
theorem stripDefaults_comparison_separator :
    (IsDefault "x < y".toList ∧ IsDefault "1'000".toList ∧ IsDefault "2".toList) ∧
    (IsParameter "int a".toList ∧ IsParameter "int b".toList) ∧
    stripDefaults "int a = x < y, int b = 2".toList = "int a".toList ∧
    stripDefaults "int a = 1'000, int b = 2".toList = "int a".toList ∧
    stripDefaults (withDefaults ["int a".toList, "int b".toList] ["x < y".toList, "2".toList]) ≠
      Text.join [',', ' '] ["int a".toList, "int b".toList] := by
  decide +kernel

end Parameters

end OutOfLine

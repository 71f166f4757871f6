import OutOfLine.Proofs.StrippedDefaults

/-!
# Stripping default values twice

A piece of a parameter list that ends at a comma ends outside brackets and literals, and so does what stands before
an equals sign that is cut. Trimming keeps this, since a blank never ends a literal. The stripped parameters,
joined again, are therefore divided where they were joined, whatever the list was, and nothing is left to strip.
-/

namespace OutOfLine

theorem Text.isBlank_iff_eq_nil {t : Text} (h : t.trim = t) : t.isBlank ↔ t = [] := by
  cases t with
  | nil => exact iff_of_true rfl rfl
  | cons c t =>
    have hc : ¬ isBlankChar c := (trim_eq_self_iff.mp h).1 c rfl
    simp [isBlank, hc]

namespace Nesting

/-- A literal is ended by the quote that opened it, which is no blank. -/
theorem not_blank_of_quote {t : Text} {quote : Char} (h : (t.foldl step {}).quote = some quote) :
    ¬ isBlankChar quote := by
  induction t using List.reverseRecOn with
  | nil => simp at h
  | append_singleton t c ih =>
    rw [List.foldl_append, List.foldl_cons, List.foldl_nil] at h
    generalize t.foldl step {} = n at h ih
    obtain ⟨depth, current, escaped⟩ := n
    cases current with
    | some current =>
      have hsame : current = quote := by
        simp only [step] at h
        split_ifs at h <;> simpa using h
      exact ih (by rw [hsame])
    | none =>
      simp only [step] at h
      split_ifs at h with hc
      · obtain rfl : c = quote := by simpa using h
        rcases hc with rfl | rfl
        · decide
        · decide

/-- A text that ends outside brackets and literals does so before its last blanks. -/
theorem foldl_eq_start_of_append_blank {t w : Text} (hw : ∀ c ∈ w, isBlankChar c)
    (h : (t ++ w).foldl step {} = {}) : t.foldl step {} = {} := by
  induction w using List.reverseRecOn with
  | nil => rwa [List.append_nil] at h
  | append_singleton w c ih =>
    apply ih fun d hd => hw d (List.mem_append_left _ hd)
    have hc : isBlankChar c := hw c (by simp)
    have hregular := regular_start.foldl (t ++ w)
    have hquote (quote : Char) (h : ((t ++ w).foldl step {}).quote = some quote) : ¬ isBlankChar quote :=
      not_blank_of_quote h
    rw [← List.append_assoc, List.foldl_append, List.foldl_cons, List.foldl_nil] at h
    generalize (t ++ w).foldl step {} = n at h hregular hquote
    cases hn : n.quote with
    | none =>
      have hunquoted : n.unquoted := by simp [unquoted, hn, hregular hn]
      rwa [step_blank hunquoted hc] at h
    | some quote =>
      have hne : c ≠ quote := by
        intro heq
        rw [heq] at hc
        exact hquote quote hn hc
      have hstays : (n.step c).quote = some quote := by
        simp only [step, hn, if_neg hne]
        split_ifs <;> simp [hn]
      rw [h] at hstays
      simp at hstays

theorem foldl_trimEnd {t : Text} (h : t.foldl step {} = {}) : t.trimEnd.foldl step {} = {} := by
  obtain ⟨w, ht, hw, -⟩ := t.exists_trimEnd
  rw [ht] at h
  exact foldl_eq_start_of_append_blank hw h

theorem foldl_trim {t : Text} (h : t.foldl step {} = {}) : t.trim.foldl step {} = {} := by
  obtain ⟨w, w', ht, hw, hw'⟩ := t.exists_trim
  rw [ht, List.foldl_append, foldl_blank rfl hw] at h
  exact foldl_eq_start_of_append_blank hw' h

end Nesting

namespace Parameters

variable {mark : Char} {n : Nesting} {t : Text}

/-- The first piece is not divided any further. -/
theorem pieces_fst_eq_self (mark : Char) (n : Nesting) (t : Text) :
    pieces mark n (pieces mark n t).1 = ((pieces mark n t).1, []) := by
  induction t generalizing n with
  | nil => rfl
  | cons c t ih =>
    rw [pieces]
    cases hc : n.isTop && c == mark with
    | true => rfl
    | false => exact pieces_cons_eq_self_iff.mpr ⟨hc, ih (n.step c)⟩

/-- A mark that divides stands outside brackets and literals. -/
theorem foldl_pieces_fst (hn : n.Regular) (h : (pieces mark n t).2 ≠ []) :
    (pieces mark n t).1.foldl Nesting.step n = {} := by
  induction t generalizing n with
  | nil => exact absurd rfl h
  | cons c t ih =>
    rw [pieces] at h ⊢
    cases hc : n.isTop && c == mark with
    | true =>
      rw [Bool.and_eq_true] at hc
      exact hn.eq_of_isTop hc.1
    | false =>
      rw [hc] at h
      exact ih (hn.step c) h

/-- A parameter has no default value, or what stands before it is trimmed at its end. -/
theorem stripDefault_cases (t : Text) :
    (stripDefault t = t ∧ pieces '=' {} t = (t, [])) ∨
      (stripDefault t = (pieces '=' {} t).1.trimEnd ∧ (pieces '=' {} t).1.foldl Nesting.step {} = {}) := by
  rw [stripDefault]
  split
  · next before hpieces =>
    have hjoin := join_pieces '=' {} t
    rw [hpieces, Text.join_singleton] at hjoin
    exact .inl ⟨rfl, by rw [hpieces, ← hjoin]⟩
  · next before _ _ hpieces =>
    refine .inr ⟨by rw [hpieces], foldl_pieces_fst Nesting.regular_start ?_⟩
    rw [hpieces]
    exact List.cons_ne_nil _ _

/-- A part at the front of a text with no mark to divide it at has none either. -/
theorem pieces_of_isPrefix {a : Text} (h : a <+: t) (ht : pieces mark n t = (t, [])) :
    pieces mark n a = (a, []) := by
  obtain ⟨b, rfl⟩ := h
  exact (pieces_append_eq_self_iff.mp ht).1

theorem pieces_stripDefault (t : Text) : pieces '=' {} (stripDefault t) = (stripDefault t, []) := by
  rcases stripDefault_cases t with ⟨hstrip, hpieces⟩ | ⟨hstrip, -⟩
  · rwa [hstrip]
  · rw [hstrip]
    exact pieces_of_isPrefix (Text.trimEnd_isPrefix _) (pieces_fst_eq_self '=' {} t)

theorem stripDefault_stripDefault (t : Text) : stripDefault (stripDefault t) = stripDefault t := by
  rw [stripDefault, pieces_stripDefault]

theorem foldl_stripDefault (h : t.foldl Nesting.step {} = {}) : (stripDefault t).foldl Nesting.step {} = {} := by
  rcases stripDefault_cases t with ⟨hstrip, -⟩ | ⟨hstrip, hfold⟩
  · rwa [hstrip]
  · rw [hstrip]
    exact Nesting.foldl_trimEnd hfold

theorem whole_stripDefault (h : Whole {} t) : Whole {} (stripDefault t) :=
  pieces_of_isPrefix (stripDefault_isPrefix t) h

theorem trim_stripDefault (h : t.trim = t) : (stripDefault t).trim = stripDefault t := by
  rw [Text.trim_eq_self_iff] at h
  apply Text.trim_eq_self_iff.mpr
  constructor
  · intro c hc
    obtain ⟨rest, hrest⟩ := stripDefault_isPrefix t
    apply h.1 c
    rw [← hrest, List.head?_append, hc]
    rfl
  · rcases stripDefault_cases t with ⟨hstrip, -⟩ | ⟨hstrip, -⟩
    · rw [hstrip]
      exact h.2
    · rw [hstrip]
      obtain ⟨w, -, -, hlast⟩ := Text.exists_trimEnd (pieces '=' {} t).1
      exact hlast

/-- Only a parameter that starts with its default value has nothing in front of it. -/
theorem stripDefault_eq_nil_iff (h : t.trim = t) (hne : t ≠ []) :
    stripDefault t = [] ↔ ∃ value, t = '=' :: value := by
  constructor
  · intro hnil
    rcases stripDefault_cases t with ⟨hstrip, -⟩ | ⟨hstrip, -⟩
    · exact absurd (hstrip.symm.trans hnil) hne
    · -- The first character of the parameter is no blank, so that nothing at all stands before the mark.
      obtain ⟨c, rest, rfl⟩ := List.exists_cons_of_ne_nil hne
      have hc : ¬ isBlankChar c := (Text.trim_eq_self_iff.mp h).1 c rfl
      rw [hstrip, pieces] at hnil
      cases hmark : Nesting.isTop {} && c == '=' with
      | true =>
        simp only [Bool.and_eq_true, beq_iff_eq] at hmark
        exact ⟨rest, by rw [hmark.2]⟩
      | false =>
        rw [hmark] at hnil
        obtain ⟨tail, htail⟩ := Text.exists_trimEnd_cons hc (pieces '=' (Nesting.step {} c) rest).1
        rw [if_neg (by simp), htail] at hnil
        simp at hnil
  · rintro ⟨value, rfl⟩
    rfl

/-- Trimmed and without default values, parameters are divided as they were. -/
theorem Parted.stripped {first : Text} {rest : List Text} (h : Parted {} first rest) :
    Parted {} (stripDefault first.trim) (rest.map fun piece => stripDefault piece.trim) := by
  have hwhole {t : Text} (ht : Whole {} t) : Whole {} (stripDefault t.trim) := by
    apply whole_stripDefault
    obtain ⟨w, w', hparts, hw, -⟩ := t.exists_trim
    rw [hparts, whole_append, Nesting.foldl_blank rfl hw, whole_append] at ht
    exact ht.2.1
  induction rest generalizing first with
  | nil => exact hwhole h
  | cons next rest ih =>
    exact ⟨⟨hwhole h.1.1, foldl_stripDefault (Nesting.foldl_trim h.1.2)⟩, ih h.2⟩

/-- A list that is not blank has its trimmed pieces as parameters, the only one not being empty, and without
default values they are divided as they were. -/
theorem exists_split {list : Text} (h : list.isBlank = false) :
    ∃ first rest, split list = first :: rest ∧ (∀ parameter ∈ first :: rest, parameter.trim = parameter) ∧
      (rest = [] → first ≠ []) ∧ Parted {} (stripDefault first) (rest.map stripDefault) := by
  have hparted := (parted_pieces Nesting.regular_start list).stripped
  refine ⟨(pieces ',' {} list).1.trim, (pieces ',' {} list).2.map Text.trim, ?_, ?_, ?_, ?_⟩
  · rw [split, h]
    rfl
  · intro parameter hparameter
    rw [← List.map_cons] at hparameter
    obtain ⟨piece, -, rfl⟩ := List.mem_map.mp hparameter
    exact piece.trim_trim
  · intro hrest hfirst
    have hlist := join_pieces ',' {} list
    rw [List.map_eq_nil_iff.mp hrest, Text.join_singleton] at hlist
    have hink := Text.ink_trim (pieces ',' {} list).1
    rw [hfirst, hlist] at hink
    have hblank := Text.isBlank_iff_ink.mpr hink.symm
    simp [h] at hblank
  · rw [List.map_map]
    exact hparted

/-- Joined with commas, trimmed parameters are split where they were joined. -/
theorem split_join {first : Text} {rest : List Text} (h : Parted {} first rest)
    (htrim : ∀ parameter ∈ first :: rest, parameter.trim = parameter)
    (hblank : (Text.join [',', ' '] (first :: rest)).isBlank = false) :
    split (Text.join [',', ' '] (first :: rest)) = first :: rest := by
  have hspace (parameter : Text) : Text.trim (' ' :: parameter) = parameter.trim :=
    Text.trim_blank_append (w := [' ']) (List.all_eq_true.mp (by decide)) parameter
  have hrest : (rest.map (' ' :: ·)).map Text.trim = rest := by
    rw [List.map_map]
    conv_rhs => rw [← List.map_id rest]
    apply List.map_congr_left
    intro parameter hparameter
    exact (hspace parameter).trans (htrim parameter (List.mem_cons_of_mem _ hparameter))
  rw [split, hblank, if_neg Bool.false_ne_true, pieces_join h, List.map_cons, hrest, htrim first List.mem_cons_self]

/-- Nothing is left of a list only when it is one parameter that starts with its default value. -/
theorem isBlank_stripDefaults {list : Text} (h : list.isBlank = false) :
    (stripDefaults list).isBlank ↔ ∃ value, split list = ['=' :: value] := by
  obtain ⟨first, rest, hsplit, htrim, hne, -⟩ := exists_split h
  rw [stripDefaults, hsplit]
  cases rest with
  | nil =>
    have hfirst := htrim first List.mem_cons_self
    rw [List.map_singleton, Text.join_singleton, Text.isBlank_iff_eq_nil (trim_stripDefault hfirst),
      stripDefault_eq_nil_iff hfirst (hne rfl)]
    simp
  | cons next rest =>
    apply iff_of_false
    · intro hblank
      rw [Text.isBlank, List.all_eq_true] at hblank
      have hcomma : ',' ∈ Text.join [',', ' '] ((first :: next :: rest).map stripDefault) := by
        rw [List.map_cons, List.map_cons, Text.join_cons_cons]
        simp
      exact absurd (hblank ',' hcomma) (by decide)
    · simp

/-- The stripped list has the stripped parameters, unless nothing is left of it. -/
theorem split_stripDefaults_iff (list : Text) :
    split (stripDefaults list) = (split list).map stripDefault ↔ ¬ ∃ value, split list = ['=' :: value] := by
  cases hlist : list.isBlank with
  | true =>
    have hsplit : split list = [] := by rw [split, if_pos hlist]
    rw [stripDefaults, hsplit]
    exact iff_of_true rfl (by simp)
  | false =>
    rw [← isBlank_stripDefaults hlist]
    obtain ⟨first, rest, hsplit, htrim, -, hparted⟩ := exists_split hlist
    constructor
    · intro h hblank
      rw [split, if_pos hblank, hsplit] at h
      simp at h
    · intro hblank
      rw [Bool.not_eq_true] at hblank
      rw [stripDefaults, hsplit, List.map_cons] at hblank ⊢
      apply split_join hparted
      · intro parameter hparameter
        rw [← List.map_cons] at hparameter
        obtain ⟨before, hbefore, rfl⟩ := List.mem_map.mp hparameter
        exact trim_stripDefault (htrim before hbefore)
      · exact hblank

theorem stripDefaults_stripDefaults (list : Text) : stripDefaults (stripDefaults list) = stripDefaults list := by
  by_cases h : ∃ value, split list = ['=' :: value]
  · obtain ⟨value, hsplit⟩ := h
    have hnil : stripDefaults list = [] := by
      rw [stripDefaults, hsplit]
      rfl
    rw [hnil]
    rfl
  · have hsplit := (split_stripDefaults_iff list).mpr h
    have hstrip : stripDefault ∘ stripDefault = stripDefault := funext stripDefault_stripDefault
    rw [stripDefaults, hsplit, List.map_map, hstrip, ← stripDefaults]

/-- Stripping default values a second time changes nothing. No equals sign is left outside brackets and literals,
and the list keeps its parameters in number and order as long as anything is left of it. -/
theorem stripDefaults_stable (list : Text) :
    stripDefaults (stripDefaults list) = stripDefaults list ∧
      (∀ parameter ∈ split list, ∀ before after, stripDefault parameter = before ++ '=' :: after →
        (before.foldl Nesting.step {}).isTop = false) ∧
      (split (stripDefaults list) = (split list).map stripDefault ↔ ¬ ∃ value, split list = ['=' :: value]) := by
  refine ⟨stripDefaults_stripDefaults list, ?_, split_stripDefaults_iff list⟩
  intro parameter _
  exact pieces_eq_self_iff.mp (pieces_stripDefault parameter)

/-- A bracket that closes nothing, a value without a name, an equals sign in a literal, and at the end a bracket and
a literal that stay open. -/
def brokenList : Text := ") int a = f(1, 2), = 3, char c = '=', g(x = 1, \"d = 4, e".toList

theorem stripDefaults_brokenList :
    (split brokenList).length = 4 ∧
      stripDefaults brokenList = ") int a, , char c, g(x = 1, \"d = 4, e".toList ∧
      stripDefaults (stripDefaults brokenList) = stripDefaults brokenList ∧
      split (stripDefaults brokenList) = (split brokenList).map stripDefault := by
  obtain ⟨htwice, -, hsplit⟩ := stripDefaults_stable brokenList
  have hlength : (split brokenList).length = 4 := by decide +kernel
  refine ⟨hlength, by decide +kernel, htwice, hsplit.mpr ?_⟩
  rintro ⟨value, hvalue⟩
  simp [hvalue] at hlength

end Parameters
end OutOfLine

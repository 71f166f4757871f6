import OutOfLine.Proofs.ByteOffsets

/-!
# The words of a text

A blank divides the words before it from those after it, and the words keep every character that is not
blank. A text therefore has the same words whatever blanks follow it, and joining its words with single
spaces tells how many there are.
-/

namespace OutOfLine
namespace Text

/-- A run is not empty, and its characters are all blank or all not blank. -/
theorem uniform_of_mem_runs {t run : Text} (h : run ∈ runs t) :
    ∃ c cs, run = c :: cs ∧ ∀ d ∈ cs, isBlankChar d = isBlankChar c := by
  induction t generalizing run with
  | nil => simp [runs] at h
  | cons c cs ih =>
    rw [runs] at h
    split at h
    · next d run' rest hruns =>
      have hhead : d :: run' ∈ runs cs := by simp [hruns]
      have hrest : ∀ r ∈ rest, r ∈ runs cs := fun r hr => by simp [hruns, hr]
      split at h
      · next hsame =>
        rcases List.mem_cons.mp h with rfl | h
        · obtain ⟨_, _, heq, hall⟩ := ih hhead
          obtain ⟨rfl, rfl⟩ := List.cons.inj heq
          refine ⟨c, d :: run', rfl, ?_⟩
          intro x hx
          rcases List.mem_cons.mp hx with rfl | hx
          · exact hsame.symm
          · rw [hall x hx, hsame]
        · exact ih (hrest run h)
      · rcases List.mem_cons.mp h with rfl | h
        · exact ⟨c, [], rfl, by simp⟩
        · exact ih (by rw [hruns]; exact h)
    · next hruns =>
      rcases List.mem_cons.mp h with rfl | h
      · exact ⟨c, [], rfl, by simp⟩
      · exact ih h

theorem exists_runs_cons (c : Char) (t : Text) : ∃ run rest, runs (c :: t) = (c :: run) :: rest := by
  rw [runs]
  split
  · split
    · exact ⟨_, _, rfl⟩
    · exact ⟨_, _, rfl⟩
  · exact ⟨_, _, rfl⟩

private theorem isBlank_run {c : Char} {run t : Text} (h : c :: run ∈ runs t) :
    isBlank (c :: run) = isBlankChar c := by
  obtain ⟨_, _, heq, hall⟩ := uniform_of_mem_runs h
  obtain ⟨rfl, rfl⟩ := List.cons.inj heq
  cases hc : isBlankChar c with
  | false => simp [isBlank, hc]
  | true => simpa [isBlank, hc] using hall

theorem words_cons_blank {c : Char} (hc : isBlankChar c) (t : Text) : words (c :: t) = words t := by
  cases t with
  | nil => simp [words, runs, isBlank, hc]
  | cons d t =>
    obtain ⟨run, rest, hruns⟩ := exists_runs_cons d t
    have hrun : isBlank (d :: run) = isBlankChar d := isBlank_run (t := d :: t) (by simp [hruns])
    have hone : isBlank [c] = true := by simp [isBlank, hc]
    have htwo : isBlank (c :: d :: run) = isBlankChar d := by
      rw [← hrun]
      simp [isBlank, hc]
    rw [words, words, runs, hruns]
    dsimp only
    split
    · next hsame =>
      rw [hc] at hsame
      rw [List.filter_cons, List.filter_cons, htwo, hrun, ← hsame]
      rfl
    · rw [List.filter_cons, hone]
      rfl

/-- A word of one character stands before a blank. -/
theorem words_cons_apart {c : Char} {t : Text} (hc : ¬ isBlankChar c)
    (ht : ∀ d, t.head? = some d → isBlankChar d) : words (c :: t) = [c] :: words t := by
  have hone : isBlank [c] = false := by simpa [isBlank] using hc
  cases t with
  | nil => simp [words, runs, hone]
  | cons d t =>
    obtain ⟨run, rest, hruns⟩ := exists_runs_cons d t
    have hd := ht d rfl
    have hne : ¬ isBlankChar c = isBlankChar d := by simp [hd, hc]
    rw [words, words, runs, hruns]
    dsimp only
    rw [if_neg hne, List.filter_cons, hone]
    rfl

/-- A character that is not blank is put before the word it stands at. -/
theorem words_cons_together {c d : Char} {t : Text} (hc : ¬ isBlankChar c) (hd : ¬ isBlankChar d) :
    ∃ word rest, words (d :: t) = word :: rest ∧ words (c :: d :: t) = (c :: word) :: rest := by
  obtain ⟨run, rest, hruns⟩ := exists_runs_cons d t
  have hblank : isBlank (d :: run) = false := by simpa [isBlank] using fun h => absurd h hd
  have hmore : isBlank (c :: d :: run) = false := by simpa [isBlank] using fun h => absurd h hc
  have hsame : isBlankChar c = isBlankChar d := by simp [hc, hd]
  refine ⟨d :: run, rest.filter fun run => !isBlank run, ?_, ?_⟩
  · rw [words, hruns, List.filter_cons, hblank]
    rfl
  · rw [words, runs, hruns]
    dsimp only
    rw [if_pos hsame, List.filter_cons, hmore]
    rfl

/-- A blank divides the words before it from those after it. -/
theorem words_append_cons_blank {c : Char} (hc : isBlankChar c) (a b : Text) :
    words (a ++ c :: b) = words a ++ words b := by
  induction a with
  | nil => exact words_cons_blank hc b
  | cons x a ih =>
    rw [List.cons_append]
    by_cases hx : isBlankChar x
    · rw [words_cons_blank hx, words_cons_blank hx, ih]
    · cases a with
      | nil =>
        rw [List.nil_append, words_cons_apart hx (by simpa using hc), words_cons_blank hc,
          words_cons_apart hx (by simp)]
        rfl
      | cons y a =>
        by_cases hy : isBlankChar y
        · rw [words_cons_apart hx (by simpa using hy), ih, words_cons_apart hx (by simpa using hy),
            List.cons_append]
        · obtain ⟨word, rest, hword, hcons⟩ := words_cons_together (t := a ++ c :: b) hx hy
          obtain ⟨word', rest', hword', hcons'⟩ := words_cons_together (t := a) hx hy
          rw [List.cons_append, hword, hword', List.cons_append, List.cons.injEq] at ih
          rw [List.cons_append, hcons, hcons', ih.1, ih.2, List.cons_append]

theorem words_blank {w : Text} (h : ∀ c ∈ w, isBlankChar c) : words w = [] := by
  induction w with
  | nil => rfl
  | cons c w ih =>
    rw [words_cons_blank (h c List.mem_cons_self)]
    exact ih fun d hd => h d (List.mem_cons_of_mem _ hd)

/-- Blanks at the end of a text add no word. -/
theorem words_append_blank {w : Text} (h : ∀ c ∈ w, isBlankChar c) (t : Text) :
    words (t ++ w) = words t := by
  cases w with
  | nil => rw [List.append_nil]
  | cons c w =>
    rw [words_append_cons_blank (h c List.mem_cons_self),
      words_blank fun d hd => h d (List.mem_cons_of_mem _ hd), List.append_nil]

theorem words_of_not_blank {c : Char} {t : Text} (h : ∀ d ∈ c :: t, ¬ isBlankChar d) :
    words (c :: t) = [c :: t] := by
  induction t generalizing c with
  | nil => exact words_cons_apart (h c List.mem_cons_self) (by simp)
  | cons d t ih =>
    have hrest : ∀ e ∈ d :: t, ¬ isBlankChar e := fun e he => h e (List.mem_cons_of_mem _ he)
    obtain ⟨word, rest, hword, hcons⟩ :=
      words_cons_together (t := t) (h c List.mem_cons_self) (hrest d List.mem_cons_self)
    rw [ih hrest, List.cons.injEq] at hword
    rw [hcons, ← hword.1, ← hword.2]

/-- Characters that are not blank are added to the last word of a text that does not end in a blank. -/
theorem length_words_append {a b : Text} {c : Char} (ha : a.getLast? = some c) (hc : ¬ isBlankChar c)
    (hb : ∀ d ∈ b, ¬ isBlankChar d) : (words (a ++ b)).length = (words a).length := by
  induction a with
  | nil => simp at ha
  | cons x a ih =>
    cases a with
    | nil =>
      obtain rfl : x = c := by simpa using ha
      have hall : ∀ d ∈ x :: b, ¬ isBlankChar d := by simpa [hc] using hb
      rw [List.cons_append, List.nil_append, words_of_not_blank hall,
        words_of_not_blank (by simpa using hc)]
      rfl
    | cons y a =>
      have hlast : (y :: a).getLast? = some c := by simpa using ha
      rw [List.cons_append]
      by_cases hx : isBlankChar x
      · rw [words_cons_blank hx, words_cons_blank hx, ih hlast]
      · by_cases hy : isBlankChar y
        · rw [words_cons_apart hx (by simpa using hy), words_cons_apart hx (by simpa using hy),
            List.length_cons, List.length_cons, ih hlast]
        · obtain ⟨word, rest, hword, hcons⟩ := words_cons_together (t := a ++ b) hx hy
          obtain ⟨word', rest', hword', hcons'⟩ := words_cons_together (t := a) hx hy
          have hlen := ih hlast
          rw [List.cons_append, hword, hword', List.length_cons, List.length_cons] at hlen
          rw [List.cons_append, hcons, hcons', List.length_cons, List.length_cons, hlen]

theorem ink_cons (c : Char) (t : Text) :
    ink (c :: t) = if isBlankChar c then ink t else c :: ink t := by
  cases hc : isBlankChar c <;> simp [ink, hc]

theorem ink_cons_of_not_blank {c : Char} (hc : isBlankChar c = false) (t : Text) :
    ink (c :: t) = c :: ink t := by
  simp [ink_cons, hc]

/-- The words keep every character that is not blank. -/
theorem flatten_words (t : Text) : (words t).flatten = ink t := by
  induction t with
  | nil => rfl
  | cons c t ih =>
    rw [ink_cons]
    split
    · next hc => rw [words_cons_blank hc, ih]
    · next hc =>
      cases t with
      | nil => rw [words_cons_apart hc (by simp), List.flatten_cons, ih, List.singleton_append]
      | cons d t =>
        by_cases hd : isBlankChar d
        · rw [words_cons_apart hc (by simpa using hd), List.flatten_cons, ih, List.singleton_append]
        · obtain ⟨word, rest, hword, hcons⟩ := words_cons_together (t := t) hc hd
          rw [hword, List.flatten_cons] at ih
          rw [hcons, List.flatten_cons, List.cons_append, ih]

theorem join_cons_cons (separator a b : Text) (rest : List Text) :
    join separator (a :: b :: rest) = a ++ separator ++ join separator (b :: rest) := by
  simp [join, List.intercalate]

theorem mem_join {separator : Text} {parts : List Text} {c : Char} :
    c ∈ join separator parts → (∃ part ∈ parts, c ∈ part) ∨ c ∈ separator := by
  induction parts with
  | nil => simp [join, List.intercalate]
  | cons part parts ih =>
    cases parts with
    | nil => exact fun hc => .inl ⟨part, List.mem_cons_self, by simpa [join, List.intercalate] using hc⟩
    | cons next parts =>
      rw [join_cons_cons, List.mem_append, List.mem_append]
      rintro ((hc | hc) | hc)
      · exact .inl ⟨part, List.mem_cons_self, hc⟩
      · exact .inr hc
      · exact (ih hc).imp_left fun ⟨p, hp, hcp⟩ => ⟨p, List.mem_cons_of_mem _ hp, hcp⟩

theorem mem_join_of_mem {separator : Text} {parts : List Text} {part : Text} {c : Char} (hpart : part ∈ parts)
    (hc : c ∈ part) : c ∈ join separator parts := by
  induction parts with
  | nil => simp at hpart
  | cons first parts ih =>
    cases parts with
    | nil =>
      obtain rfl := List.mem_singleton.mp hpart
      simpa [join, List.intercalate] using hc
    | cons next parts =>
      rw [join_cons_cons, List.mem_append, List.mem_append]
      rcases List.mem_cons.mp hpart with rfl | hpart
      · exact .inl (.inl hc)
      · exact .inr (ih hpart)

theorem ink_join_map (separator : Text) (parts : List Text) :
    ink (join separator parts) = join (ink separator) (parts.map ink) := by
  induction parts with
  | nil => rfl
  | cons part parts ih =>
    cases parts with
    | nil => simp [join, List.intercalate]
    | cons next parts =>
      rw [join_cons_cons, ink_append, ink_append, ih]
      exact (join_cons_cons _ _ _ _).symm

theorem ink_join (ws : List Text) : ink (join [' '] ws) = ink ws.flatten := by
  induction ws with
  | nil => rfl
  | cons w ws ih =>
    cases ws with
    | nil => simp [join, List.intercalate]
    | cons w' ws =>
      have hspace : ink [' '] = [] := by decide
      rw [join_cons_cons, List.flatten_cons, ink_append, ink_append, ink_append, ih, hspace,
        List.append_nil]

theorem length_join {ws : List Text} (h : ws ≠ []) :
    (join [' '] ws).length + 1 = ws.flatten.length + ws.length := by
  induction ws with
  | nil => exact absurd rfl h
  | cons w ws ih =>
    cases ws with
    | nil => simp [join, List.intercalate]
    | cons w' ws =>
      have hlen := ih (by simp)
      rw [join_cons_cons, List.flatten_cons]
      simp only [List.length_append, List.length_cons, List.length_nil] at hlen ⊢
      omega

@[simp] theorem ink_ink (t : Text) : ink (ink t) = ink t := by simp [ink]

theorem ink_join_words (t : Text) : ink (join [' '] (words t)) = ink t := by
  rw [ink_join, flatten_words, ink_ink]

/-- Texts with the same characters and the same joined words have equally many words. -/
theorem length_words_of_join_eq {a b : Text} (hink : ink a = ink b) (ha : words a ≠ [])
    (hb : words b ≠ []) (h : join [' '] (words a) = join [' '] (words b)) :
    (words a).length = (words b).length := by
  have hla := length_join ha
  have hlb := length_join hb
  rw [flatten_words, hink, h] at hla
  rw [flatten_words] at hlb
  omega

/-- A space before a last word shows in the joined words, unless a blank stands there already. -/
theorem join_words_space_ne {a b : Text} {c d : Char} (ha : a.getLast? = some c) (hc : ¬ isBlankChar c)
    (hb : ∀ e ∈ d :: b, ¬ isBlankChar e) :
    join [' '] (words (a ++ ' ' :: d :: b)) ≠ join [' '] (words (a ++ d :: b)) := by
  intro h
  have hspace : isBlankChar ' ' := by decide
  have hapart : words (a ++ ' ' :: d :: b) = words a ++ [d :: b] := by
    rw [words_append_cons_blank hspace, words_of_not_blank hb]
  have htogether := length_words_append ha hc hb
  have hne : words a ≠ [] := by
    intro hnil
    have hink := flatten_words a
    rw [hnil, List.flatten_nil, eq_comm, ink_eq_nil_iff] at hink
    exact hc (hink c (List.mem_of_getLast? ha))
  have hlen := length_words_of_join_eq (by simp [ink_cons, hspace]) (by simp [hapart])
    (by rw [← List.length_pos_iff, htogether, List.length_pos_iff]; exact hne) h
  rw [hapart, htogether] at hlen
  simp at hlen

theorem ne_nil_and_not_blank_of_mem_words {t word : Text} (h : word ∈ t.words) :
    word ≠ [] ∧ ∀ c ∈ word, ¬ isBlankChar c := by
  obtain ⟨hrun, hblank⟩ := List.mem_filter.mp h
  obtain ⟨c, cs, rfl, hall⟩ := uniform_of_mem_runs hrun
  have hc : isBlankChar c = false := by
    rw [Bool.eq_false_iff]
    intro hc
    have : isBlank (c :: cs) = true := by
      rw [isBlank, List.all_cons, hc, Bool.true_and, List.all_eq_true]
      exact fun d hd => (hall d hd).trans hc
    simp [this] at hblank
  refine ⟨by simp, fun d hd => ?_⟩
  rcases List.mem_cons.mp hd with rfl | hd
  · simp [hc]
  · simp [hall d hd, hc]

theorem subset_of_mem_words {t word : Text} (h : word ∈ t.words) : word ⊆ t := by
  intro c hc
  rw [← flatten_runs t]
  exact List.mem_flatten.mpr ⟨word, (List.mem_filter.mp h).1, hc⟩

/-- Words are found again when single spaces stand between them. -/
theorem words_join {words : List Text} (h : ∀ word ∈ words, word ≠ [] ∧ ∀ c ∈ word, ¬ isBlankChar c) :
    (join [' '] words).words = words := by
  have hword {word : Text} (hw : word ≠ [] ∧ ∀ c ∈ word, ¬ isBlankChar c) : word.words = [word] := by
    obtain ⟨c, rest, rfl⟩ := List.exists_cons_of_ne_nil hw.1
    exact words_of_not_blank hw.2
  induction words with
  | nil => rfl
  | cons word rest ih =>
    rw [List.forall_mem_cons] at h
    cases rest with
    | nil =>
      have hjoin : join [' '] [word] = word := by simp [join, List.intercalate]
      rw [hjoin, hword h.1]
    | cons next rest =>
      rw [join_cons_cons, List.append_assoc, List.singleton_append, words_append_cons_blank (by decide),
        ih h.2, hword h.1, List.singleton_append]

end Text
end OutOfLine

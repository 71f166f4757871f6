import OutOfLine.Proofs.RecognisedComments

/-!
# Streams that start at a later line

Every query opens a stream at some line, as if that line began in code. This is right exactly as far as the
lines before it end in code: then the tokens before the line and those from it on are the tokens of all the
lines. Lines that begin inside a block comment have the code of what follows the first `*/` in them, and a
line ending between a star and a slash keeps them apart.
-/

namespace OutOfLine

/-- What follows the first `*/` of a text, if there is one. -/
def Text.afterClose? : Text → Option Text
  | '*' :: '/' :: rest => some rest
  | _ :: rest => afterClose? rest
  | [] => none

namespace Lexer

/-- Inside a block comment, the code of a text is that of what follows its first `*/`. -/
theorem dropComments_run_inside {mode : Mode} {t : Text} (hin : mode.inComment)
    (h : mode.pending ≠ [] → t.head? ≠ some '/') :
    dropComments true (run mode t).1 = t.afterClose?.elim [] Text.code := by
  fun_induction Text.afterClose? t generalizing mode with
  | case1 rest =>
    have hfinish := insideAfter_finish mode
    rw [hin] at hfinish
    rw [run_close hin, dropComments_append, dropComments_of_not_mem (not_mem_finish_of_inComment hin), hfinish]
    rfl
  | case2 c rest hclose ih =>
    have hslash : mode.pending ≠ [] → c ≠ '/' := by simpa using h
    obtain ⟨hmem, hcomment, hpending⟩ := not_mem_step hin hslash
    have hinside := insideAfter_step mode c
    rw [hin, hcomment] at hinside
    rw [run, dropComments_append, dropComments_of_not_mem hmem, hinside, List.nil_append]
    refine ih hcomment fun hheld hnext => ?_
    -- A star is held and a slash comes next: this is the `*/` that there is not.
    rw [hpending] at hheld
    obtain rfl : c = '*' := by simpa using hheld
    obtain ⟨more, rfl⟩ := List.head?_eq_some_iff.mp hnext
    exact hclose more rfl rfl
  | case3 => exact dropComments_of_not_mem (not_mem_finish_of_inComment hin)

end Lexer

theorem dropComments_tokenize_true (t : Text) :
    dropComments true (tokenize true t).1 = t.afterClose?.elim [] Text.code :=
  Lexer.dropComments_run_inside rfl (by simp [Lexer.Mode.start, Lexer.Mode.pending])

namespace Document

/-- Lines that follow each other are divided at any line between them. -/
theorem between_append (doc : Document) {first cut last : Nat} (hfirst : first < cut) (hcut : cut ≤ last) :
    doc.between first (cut - 1) ++ doc.between cut last = doc.between first last := by
  have hfront : doc.between first (cut - 1) = (doc.between first last).take (cut - first) := by
    rw [between, between, Nat.sub_add_cancel (by omega), ← List.drop_take, List.take_take,
      Nat.min_eq_left (by omega)]
  have hback : doc.between cut last = (doc.between first last).drop (cut - first) := by
    rw [between, between, List.drop_drop, Nat.add_sub_cancel' (by omega)]
  rw [hfront, hback, List.take_append_drop]

end Document

namespace Stream

/-- A stream can be restarted at a line that does not begin inside a comment: the tokens of the lines before it,
followed by those of the lines from it on, are the tokens of all the lines. From a line that begins inside a
block comment on, the code behind the first `*/` follows instead, if there is a `*/`. -/
theorem collect_restarted (doc : Document) {first cut last : Nat} (hfirst : first < cut) (hcut : cut ≤ last)
    (withSpaces : Bool) :
    (commentAfter false (doc.between first (cut - 1)) = false →
      ((ofDocument doc first (cut - 1)).inMode withSpaces).collect.1 ++
          ((ofDocument doc cut last).inMode withSpaces).collect.1 =
        ((ofDocument doc first last).inMode withSpaces).collect.1) ∧
    (commentAfter false (doc.between first (cut - 1)) = true →
      ((ofDocument doc first last).inMode withSpaces).collect.1 =
        ((ofDocument doc first (cut - 1)).inMode withSpaces).collect.1 ++
          ((doc.excerpt cut last).afterClose?.elim [] Text.code).filter
            fun t => withSpaces || !t.isSpace) := by
  have hsplit := codeOfLines_append false (doc.between first (cut - 1)) (doc.between cut last)
  rw [doc.between_append hfirst hcut] at hsplit
  simp only [ofDocument, collect_ofLines, hsplit, List.map_append, List.filter_append]
  constructor
  · intro hcode
    rw [hcode]
  · intro hcomment
    rw [hcomment, doc.codeOfLines_excerpt hcut, dropComments_tokenize_true]
    rfl

/-- A comment over three lines, with a star at the end of a line and a slash at the start of the next. -/
def interruptedDocument : Document :=
  ⟨"int a; /* x *\n/ b; '\r\n y */ c(); // */ d\n e */ f;".toList⟩

theorem collect_restarted_interruptedDocument :
    ((ofDocument interruptedDocument 0 2).inMode false).collect.1 ++
          ((ofDocument interruptedDocument 3 3).inMode false).collect.1 =
        ((ofDocument interruptedDocument 0 3).inMode false).collect.1 ∧
      ((ofDocument interruptedDocument 0 3).inMode false).collect.1 =
        ((ofDocument interruptedDocument 0 0).inMode false).collect.1 ++
          [.word ['c'], .delimiter '(', .delimiter ')', .delimiter ';', .word ['e'], .commentClose, .word ['f'],
            .delimiter ';'] := by
  have houtside := (collect_restarted interruptedDocument (show 0 < 3 by decide) (le_refl 3) false).1
  have hinside := (collect_restarted interruptedDocument (show 0 < 1 by decide) (show 1 ≤ 3 by decide) false).2
  refine ⟨houtside (by decide +kernel), ?_⟩
  rw [hinside (by decide +kernel)]
  exact congrArg _ (by decide +kernel)

end Stream

end OutOfLine

import OutOfLine.Stream
import OutOfLine.Proofs.JoinedLines

/-!
# The tokens of a stream

A stream holds the tokens of one line and lexes the next line when they run out. While the tokens it holds
lead to the comment state from which it goes on lexing, it yields the code tokens of what it holds and of
the lines to come, and reports the line of each. The stream over some lines of a document therefore yields what the stream over their
joined text yields: the tokens of that text, lexed once, without the comments.
-/

namespace OutOfLine

namespace Stream

/-- Whether a token is yielded in a whitespace mode. -/
def shows (withSpaces : Bool) (t : Token) : Bool := withSpaces || !t.isSpace

/-- The pending tokens lead to the comment state in which the upcoming lines are lexed. -/
def Synced (s : Stream) : Prop := insideAfter false s.pending = s.inComment

/-- What a stream has still to yield if its whitespace mode does not change. -/
def rest (s : Stream) : List Token :=
  (dropComments false s.pending ++ (codeOfLines s.inComment s.upcoming).map Placed.token).filter
    (shows s.withSpaces)

/-- A scan passes over tokens that are not yielded and stops at the first other one. -/
theorem scan_eq_some {withSpaces inside b : Bool} {tokens pending : List Token} {t : Token}
    (h : scan withSpaces inside tokens = (some (t, pending), b)) :
    (∃ skipped, dropComments inside tokens = skipped ++ t :: dropComments false pending ∧
        (∀ u ∈ skipped, shows withSpaces u = false) ∧ shows withSpaces t) ∧
      insideAfter false pending = insideAfter inside tokens := by
  induction tokens generalizing inside with
  | nil => simp [scan] at h
  | cons u tokens ih =>
    cases inside with
    | true => cases u <;> exact ih h
    | false =>
      cases u with
      | commentOpen => exact ih h
      | lineComment text => exact ih h
      | space c =>
        cases withSpaces with
        | true =>
          obtain ⟨⟨rfl, rfl⟩, -⟩ : (Token.space c = t ∧ tokens = pending) ∧ _ := by simpa [scan] using h
          exact ⟨⟨[], rfl, by simp, rfl⟩, rfl⟩
        | false =>
          obtain ⟨⟨skipped, hcode, hskipped, ht⟩, hafter⟩ := ih h
          refine ⟨⟨.space c :: skipped, congrArg (List.cons _) hcode, ?_, ht⟩, hafter⟩
          simpa [shows, Token.isSpace] using hskipped
      | _ =>
        obtain ⟨⟨rfl, rfl⟩, -⟩ : (_ = t ∧ tokens = pending) ∧ _ := by simpa [scan] using h
        exact ⟨⟨[], rfl, by simp, by simp [shows, Token.isSpace]⟩, rfl⟩

theorem scan_eq_none {withSpaces inside b : Bool} {tokens : List Token}
    (h : scan withSpaces inside tokens = (none, b)) :
    (∀ u ∈ dropComments inside tokens, shows withSpaces u = false) ∧ b = insideAfter inside tokens := by
  induction tokens generalizing inside with
  | nil => simpa [scan, dropComments, insideAfter] using h.symm
  | cons u tokens ih =>
    cases inside with
    | true => cases u <;> exact ih h
    | false =>
      cases u with
      | commentOpen => exact ih h
      | lineComment text => exact ih h
      | space c =>
        cases withSpaces with
        | true => simp [scan] at h
        | false =>
          obtain ⟨hcode, hb⟩ := ih h
          exact ⟨List.forall_mem_cons.mpr ⟨rfl, hcode⟩, hb⟩
      | _ => simp [scan] at h

theorem insideAfter_lineTokens (inComment : Bool) (line : Line) :
    insideAfter inComment (line.tokens inComment).1 = (line.tokens inComment).2 := by
  simp only [Line.tokens]
  split
  · exact insideAfter_tokenize inComment line.content
  · rw [insideAfter_append, insideAfter_tokenize]
    rfl

/-- What a stream has still to pass over or to yield, each token with its line. -/
def left (s : Stream) : List (Token × Option Line) :=
  (dropComments false s.pending).map (fun t => (t, s.current)) ++
    (codeOfLines s.inComment s.upcoming).map fun placed => (placed.token, some placed.line)

/-- What a read does to the tokens that are left: it passes over those that are not yielded and yields the first
other one, or it passes over all of them. It keeps the whitespace mode and the guards. -/
def Consumes (s : Stream) (tokens : List (Token × Option Line)) : Option Token × Stream → Prop
  | (none, s') => (∀ pair ∈ tokens, shows s.withSpaces pair.1 = false) ∧ (s'.pending = [] ∧ s'.upcoming = []) ∧
      s'.withSpaces = s.withSpaces ∧ s'.guards = s.guards ∧ s'.anchored = s.anchored
  | (some t, s') => (∃ skipped, tokens = skipped ++ (t, s'.current) :: s'.left ∧
        (∀ pair ∈ skipped, shows s.withSpaces pair.1 = false) ∧ shows s.withSpaces t) ∧ s'.Synced ∧
      s'.withSpaces = s.withSpaces ∧ s'.guards = s.guards ∧ s'.anchored = s.anchored

theorem Consumes.append {s : Stream} {front tokens : List (Token × Option Line)} {result : Option Token × Stream}
    (h : s.Consumes tokens result) (hfront : ∀ pair ∈ front, shows s.withSpaces pair.1 = false) :
    s.Consumes (front ++ tokens) result := by
  match result, h with
  | (none, _), ⟨htokens, hkept⟩ => exact ⟨List.forall_mem_append.mpr ⟨hfront, htokens⟩, hkept⟩
  | (some t, _), ⟨⟨skipped, htokens, hskipped, ht⟩, hkept⟩ =>
    refine ⟨⟨front ++ skipped, ?_, List.forall_mem_append.mpr ⟨hfront, hskipped⟩, ht⟩, hkept⟩
    rw [htokens, List.append_assoc]

/-- The next lines are lexed from the comment state in which the last one ended. -/
theorem consumes_refill (s : Stream) (lines : List Line) :
    s.Consumes ((codeOfLines s.inComment lines).map fun placed => (placed.token, some placed.line))
      (s.refill s.inComment lines) := by
  induction lines generalizing s with
  | nil => exact ⟨by simp [codeOfLines], ⟨rfl, rfl⟩, rfl, rfl, rfl⟩
  | cons line lines ih =>
    have hinside := insideAfter_lineTokens s.inComment line
    have hcode : (codeOfLines s.inComment (line :: lines)).map (fun placed => (placed.token, some placed.line)) =
        (dropComments s.inComment (line.tokens s.inComment).1).map (fun t => (t, some line)) ++
          (codeOfLines (line.tokens s.inComment).2 lines).map fun placed => (placed.token, some placed.line) := by
      rw [codeOfLines, List.map_append, List.map_map]
      rfl
    rw [hcode]
    simp only [refill]
    cases hscan : scan s.withSpaces s.inComment (line.tokens s.inComment).1 with
    | mk found b =>
      cases found with
      | some found =>
        obtain ⟨⟨skipped, hline, hskipped, ht⟩, hafter⟩ := scan_eq_some hscan
        refine ⟨⟨skipped.map fun t => (t, some line), ?_, by simpa using hskipped, ht⟩, hafter.trans hinside,
          rfl, rfl, rfl⟩
        rw [hline, List.map_append, List.append_assoc]
        rfl
      | none =>
        obtain ⟨hline, rfl⟩ := scan_eq_none hscan
        rw [hinside]
        have hrest := ih { s with inComment := (line.tokens s.inComment).2, current := some line }
        exact hrest.append (by simpa using hline)

/-- What is left at a read are the tokens held and those of the lines to come. -/
theorem consumes_next {s : Stream} (h : s.Synced) : s.Consumes s.left s.next := by
  rw [next, left]
  cases hscan : scan s.withSpaces false s.pending with
  | mk found b =>
    cases found with
    | some found =>
      obtain ⟨⟨skipped, hpending, hskipped, ht⟩, hafter⟩ := scan_eq_some hscan
      refine ⟨⟨skipped.map fun t => (t, s.current), ?_, by simpa using hskipped, ht⟩, hafter.trans h, rfl, rfl, rfl⟩
      rw [hpending, List.map_append, List.append_assoc]
      rfl
    | none =>
      obtain ⟨hpending, rfl⟩ := scan_eq_none hscan
      rw [h]
      exact (s.consumes_refill s.upcoming).append (by simpa using hpending)

/-- What a stream reports as the number of a line. -/
def numberOf? (s : Stream) (line : Line) : Option Nat := if s.anchored then some line.number else none

/-- What a stream yields from lines that it has not lexed, with the line numbers that it reports. -/
def numberedCode (s : Stream) (lines : List Line) : List (Token × Option Nat) :=
  ((codeOfLines s.inComment lines).map fun placed => (placed.token, s.numberOf? placed.line)).filter
    fun pair => shows s.withSpaces pair.1

/-- What a stream has still to yield, with the line numbers that it will report. -/
def numberedRest (s : Stream) : List (Token × Option Nat) :=
  (((dropComments false s.pending).filter (shows s.withSpaces)).map fun t => (t, s.lineNumber?)) ++
    s.numberedCode s.upcoming

/-- Reads all that is left, each token with the line number reported behind it. -/
def numbered (s : Stream) : List (Token × Option Nat) :=
  match _h : s.next with
  | (none, _) => []
  | (some t, s') => (t, s'.lineNumber?) :: numbered s'
termination_by s.remaining
decreasing_by exact next_remaining_lt _h

theorem numberedCode_cons (s : Stream) (line : Line) (lines : List Line) :
    s.numberedCode (line :: lines) =
      ((dropComments s.inComment (line.tokens s.inComment).1).filter (shows s.withSpaces)).map
          (fun t => (t, s.numberOf? line)) ++
        { s with inComment := (line.tokens s.inComment).2, current := some line }.numberedCode lines := by
  rw [numberedCode, codeOfLines, List.map_append, List.filter_append, List.map_map, List.filter_map]
  rfl

theorem numberedRest_eq (s : Stream) :
    s.numberedRest = (s.left.filter fun pair => shows s.withSpaces pair.1).map
      fun pair => (pair.1, if s.anchored then pair.2.map Line.number else none) := by
  rw [numberedRest, numberedCode, left, List.filter_append, List.map_append, List.filter_map, List.filter_map,
    List.filter_map, List.map_map, List.map_map]
  rfl

theorem numberedRest_of_next {s : Stream} (h : s.Synced) :
    match s.next with
    | (none, _) => s.numberedRest = []
    | (some t, s') => s.numberedRest = (t, s'.lineNumber?) :: s'.numberedRest ∧ s'.Synced := by
  have hconsumes := consumes_next h
  cases hnext : s.next with
  | mk found s' =>
    rw [hnext] at hconsumes
    cases found with
    | none =>
      have hnone : (s.left.filter fun pair => shows s.withSpaces pair.1) = [] :=
        List.filter_eq_nil_iff.mpr fun pair hpair => by simp [hconsumes.1 pair hpair]
      rw [numberedRest_eq, hnone, List.map_nil]
    | some t =>
      obtain ⟨⟨skipped, hleft, hskipped, ht⟩, hsynced, hmode, -, hanchored⟩ := hconsumes
      have hnone : (skipped.filter fun pair => shows s.withSpaces pair.1) = [] :=
        List.filter_eq_nil_iff.mpr fun pair hpair => by simp [hskipped pair hpair]
      refine ⟨?_, hsynced⟩
      rw [numberedRest_eq, numberedRest_eq, hleft, List.filter_append, hnone, List.nil_append,
        List.filter_cons, if_pos ht, hmode, hanchored, lineNumber?, hanchored]
      rfl

/-- A stream yields the code tokens of what it holds and of the lines to come, and nothing else. It reports
for each the line that the token stands on. -/
theorem numbered_eq_numberedRest {s : Stream} (h : s.Synced) : s.numbered = s.numberedRest := by
  induction s using numbered.induct with
  | case1 s s' hnext =>
    have hrest := numberedRest_of_next h
    rw [hnext] at hrest
    rw [numbered, hnext]
    exact hrest.symm
  | case2 s t s' hnext ih =>
    have hrest := numberedRest_of_next h
    rw [hnext] at hrest
    rw [numbered, hnext, hrest.1, ← ih hrest.2]

theorem collect_eq_map_numbered (s : Stream) : s.collect.1 = s.numbered.map Prod.fst := by
  induction s using collect.induct with
  | case1 s s' hnext =>
    rw [collect, numbered, hnext]
    rfl
  | case2 s t s' hnext ih =>
    rw [collect, numbered, hnext]
    exact congrArg (List.cons t) ih

theorem map_fst_numberedRest (s : Stream) : s.numberedRest.map Prod.fst = s.rest := by
  have hcode : (s.numberedCode s.upcoming).map Prod.fst =
      ((codeOfLines s.inComment s.upcoming).map Placed.token).filter (shows s.withSpaces) := by
    rw [numberedCode, List.filter_map, List.filter_map, List.map_map]
    rfl
  rw [numberedRest, rest, List.map_append, List.map_map, hcode, List.filter_append]
  exact congrArg (List.append · _) (List.map_id _)

theorem collect_eq_rest {s : Stream} (h : s.Synced) : s.collect.1 = s.rest := by
  rw [collect_eq_map_numbered, numbered_eq_numberedRest h, map_fst_numberedRest]

end Stream

/-- The content of a line, with a newline if the line has an ending. -/
def Line.fed (line : Line) : Text := line.content ++ if line.ending = .none then [] else ['\n']

/-- Lines of which only the last may have no ending are lexed as one text. -/
theorem codeOfLines_fed (inComment : Bool) (lines : List Line)
    (h : ∀ line ∈ lines.dropLast, line.ending ≠ .none) :
    (codeOfLines inComment lines).map Placed.token =
      dropComments inComment (tokenize inComment (lines.flatMap Line.fed)).1 := by
  induction lines generalizing inComment with
  | nil => simp [codeOfLines, tokenize, Lexer.run, dropComments]
  | cons line lines ih =>
    have hplaced (ts : List Token) : (ts.map fun t => Placed.mk t line).map Placed.token = ts := by
      rw [List.map_map]
      exact List.map_id _
    simp only [codeOfLines, List.map_append, hplaced, List.flatMap_cons, Line.tokens, Line.fed]
    by_cases hending : line.ending = .none
    · obtain rfl : lines = [] := by
        cases lines with
        | nil => rfl
        | cons next lines => exact absurd hending (h line (by simp))
      simp [hending, codeOfLines]
    · have hrest : ∀ l ∈ lines.dropLast, l.ending ≠ .none := by
        intro l hl
        cases lines with
        | nil => simp at hl
        | cons next lines => exact h l (List.mem_cons_of_mem _ hl)
      rw [if_neg hending, if_neg hending, ih _ hrest, List.append_assoc, List.singleton_append,
        dropComments_run_newline]

theorem flatMap_fed {lines : List Line} (last : Line) (h : ∀ line ∈ lines, line.ending ≠ .none) :
    (lines ++ [last]).flatMap Line.fed =
      Text.join ['\n'] ((lines ++ [last]).map Line.content) ++ if last.ending = .none then [] else ['\n'] := by
  induction lines with
  | nil => simp [Line.fed, Text.join_singleton]
  | cons line lines ih =>
    rw [List.cons_append, List.flatMap_cons, ih fun l hl => h l (List.mem_cons_of_mem _ hl), List.map_cons,
      Text.join_cons_of_ne_nil _ _ (by simp), Line.fed, if_neg (h line List.mem_cons_self)]
    simp only [List.append_assoc]

namespace Document

/-- The contents of the lines from one index through another, joined by newlines, and one more newline if
another line follows. -/
def excerpt (doc : Document) (first last : Nat) : Text :=
  Text.join ['\n'] ((doc.between first last).map Line.content) ++
    if last + 1 < doc.lineCount then ['\n'] else []

theorem ending_of_getElem? {doc : Document} {k : Nat} {line : Line} (h : doc.lines[k]? = some line) :
    line.ending = .none ↔ k + 1 = doc.lineCount :=
  Text.ending_of_getElem?_linesAt (h : (Text.linesAt 1 0 doc.text)[k]? = some line)

theorem between_of_le {doc : Document} {first last : Nat} (h : doc.lineCount ≤ first) :
    doc.between first last = [] := by
  have hlen : (doc.lines.take (last + 1)).length ≤ doc.lineCount := List.length_take_le' ..
  exact List.drop_eq_nil_of_le (hlen.trans h)

/-- Lines that follow each other are some lines with an ending and one more line. -/
theorem exists_between_eq {doc : Document} {first last : Nat} (h : first ≤ last)
    (hfirst : first < doc.lineCount) :
    ∃ lines line, doc.between first last = lines ++ [line] ∧ (∀ l ∈ lines, l.ending ≠ .none) ∧
      (line.ending = .none ↔ ¬ last + 1 < doc.lineCount) := by
  obtain ⟨n, hn⟩ : ∃ n, n = min last (doc.lineCount - 1) := ⟨_, rfl⟩
  have hlt : n < doc.lines.length := by
    change n < doc.lineCount
    omega
  have htake : doc.lines.take (last + 1) = doc.lines.take (n + 1) := by
    by_cases hlast : last < doc.lineCount
    · rw [show n = last by omega]
    · rw [List.take_of_length_le (by change doc.lineCount ≤ _; omega),
        List.take_of_length_le (by change doc.lineCount ≤ _; omega)]
  have hbetween : doc.between first last = (doc.lines.take n).drop first ++ [doc.lines[n]] := by
    rw [between, htake, List.take_succ_eq_append_getElem hlt, List.drop_append_of_le_length]
    rw [List.length_take]
    omega
  refine ⟨_, _, hbetween, ?_, ?_⟩
  · intro l hl
    obtain ⟨k, hk⟩ := List.getElem?_of_mem (List.mem_of_mem_drop hl)
    rw [List.getElem?_take] at hk
    split at hk
    · rw [ne_eq, ending_of_getElem? hk]
      omega
    · simp at hk
  · rw [ending_of_getElem? (List.getElem?_eq_getElem hlt)]
    omega

theorem excerpt_eq_flatMap {doc : Document} {first last : Nat} (h : first ≤ last) :
    doc.excerpt first last = (doc.between first last).flatMap Line.fed := by
  by_cases hfirst : first < doc.lineCount
  · obtain ⟨lines, line, hbetween, hlines, hline⟩ := exists_between_eq h hfirst
    rw [excerpt, hbetween, flatMap_fed line hlines]
    by_cases hlast : last + 1 < doc.lineCount
    · rw [if_pos hlast, if_neg fun hnone => hline.mp hnone hlast]
    · rw [if_neg hlast, if_pos (hline.mpr hlast)]
  · rw [excerpt, between_of_le (Nat.le_of_not_lt hfirst), if_neg (by omega)]
    rfl

/-- Some lines of a document, the first of which begins inside a block comment or not, have the code tokens of
their joined text. -/
theorem codeOfLines_excerpt (doc : Document) {first last : Nat} (h : first ≤ last) (inComment : Bool) :
    (codeOfLines inComment (doc.between first last)).map Placed.token =
      dropComments inComment (tokenize inComment (doc.excerpt first last)).1 := by
  rw [excerpt_eq_flatMap h]
  refine codeOfLines_fed inComment _ ?_
  by_cases hfirst : first < doc.lineCount
  · obtain ⟨lines, line, hbetween, hlines, -⟩ := exists_between_eq h hfirst
    rw [hbetween, List.dropLast_concat]
    exact hlines
  · simp [between_of_le (Nat.le_of_not_lt hfirst)]

theorem codeOfLines_between (doc : Document) {first last : Nat} (h : first ≤ last) :
    (codeOfLines false (doc.between first last)).map Placed.token = (doc.excerpt first last).code :=
  doc.codeOfLines_excerpt h false

end Document

namespace Stream

/-- The stream in one of the two whitespace modes. -/
def inMode (s : Stream) (withSpaces : Bool) : Stream := if withSpaces then s.openGuard else s

theorem collect_ofLines (lines : List Line) (anchored withSpaces : Bool) :
    ((ofLines lines anchored).inMode withSpaces).collect.1 =
      ((codeOfLines false lines).map Placed.token).filter (shows withSpaces) := by
  cases withSpaces with
  | true => exact collect_eq_rest (s := (ofLines lines anchored).openGuard) rfl
  | false => exact collect_eq_rest (s := ofLines lines anchored) rfl

theorem collect_ofText (text : Text) (withSpaces : Bool) :
    ((ofText text).inMode withSpaces).collect.1 = text.code.filter (shows withSpaces) := by
  have hcode := codeOfLines_fed false [⟨1, 0, text, .none⟩] (by simp)
  rw [ofText, collect_ofLines, hcode]
  simp [Line.fed, Text.code]

/-- A stream over lines of a document yields the tokens of the stream over their joined text, and these are
the tokens of that text, lexed once, without the comments. -/
theorem collect_ofDocument (doc : Document) {first last : Nat} (h : first ≤ last) (withSpaces : Bool) :
    ((ofDocument doc first last).inMode withSpaces).collect.1 =
        ((ofText (doc.excerpt first last)).inMode withSpaces).collect.1 ∧
      ((ofText (doc.excerpt first last)).inMode withSpaces).collect.1 =
        (dropComments false (tokenize false (doc.excerpt first last)).1).filter
          fun t => withSpaces || !t.isSpace := by
  refine ⟨?_, collect_ofText _ withSpaces⟩
  rw [collect_ofText, ofDocument, collect_ofLines, doc.codeOfLines_between h]

/-- Both kinds of line ending, a comment over three lines with a quote in it, an empty line, and a literal that
looks like a comment. -/
def commentedDocument : Document :=
  ⟨"int a; /* it's\r\n\n end */ b(\"//\"); // c\r\nint d;\n".toList⟩

theorem collect_commentedDocument :
    commentedDocument.excerpt 0 2 = "int a; /* it's\n\n end */ b(\"//\"); // c\n".toList ∧
      ((ofDocument commentedDocument 0 2).inMode false).collect.1 =
        ((ofText (commentedDocument.excerpt 0 2)).inMode false).collect.1 ∧
      ((ofDocument commentedDocument 0 2).inMode false).collect.1 =
        [.word "int".toList, .word ['a'], .delimiter ';', .word ['b'], .delimiter '(',
          .literal "\"//\"".toList, .delimiter ')', .delimiter ';'] := by
  have h := collect_ofDocument commentedDocument (show 0 ≤ 2 by decide) false
  exact ⟨by decide +kernel, h.1, h.1.trans (h.2.trans (by decide +kernel))⟩

end Stream

end OutOfLine

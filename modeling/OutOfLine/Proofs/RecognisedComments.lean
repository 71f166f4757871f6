import OutOfLine.Proofs.CommentRegions
import OutOfLine.Proofs.LocatedTokens
import OutOfLine.Proofs.StreamTokens
import Mathlib.Data.List.Infix

/-!
# Comments are recognised where they are

The lexer recognises every comment of a text, and neither the stream nor the located tokens show any of it,
exactly when no code position of the text holds `*//`. There the lexer takes `*/` for a token of its own, and
the line comment that starts at the first slash is read as code.
-/

namespace OutOfLine

/-- Whether the place between two parts of a text is outside every comment and literal opened before it. -/
def CodeAt (inComment : Bool) (a z : Text) : Prop := ((Place.start inComment).after a z).isCode

/-- The characters of a text that belong to no comment. -/
def Text.outsideComments (inComment : Bool) (text : Text) : Text :=
  ((text.zip ((Place.start inComment).regions text)).filter fun x => !x.2.isComment).map Prod.fst

/-- Tokens of a text that starts inside a block comment end this comment with the first `*/` of the text, and
with nothing if there is none. -/
structure ClosesFirst (text : Text) (tokens : List Token) : Prop where
  closed : ∀ inner rest, text = inner ++ '*' :: '/' :: rest → ¬ ['*', '/'] <:+: inner →
    ∃ ts us, tokens = ts ++ .commentClose :: us ∧ Token.concat ts = inner ∧ .commentClose ∉ ts
  unclosed : ¬ ['*', '/'] <:+: text → .commentClose ∉ tokens

/-- A stream over a text, or over lines of a document that join to it. -/
def Stream.Reads (s : Stream) (text : Text) : Prop :=
  s = ofText text ∨ ∃ doc first last, first ≤ last ∧ Document.excerpt doc first last = text ∧
    s = ofDocument doc first last

/-- The comments of a text that starts inside a block comment or not are recognised, and nothing of them is
taken for code. -/
structure FindsComments (inComment : Bool) (text : Text) : Prop where
  line : ∀ a z, text = a ++ '/' :: '/' :: z → CodeAt inComment a ('/' :: '/' :: z) →
    ∃ ts us, (tokenize inComment text).1 =
      ts ++ .lineComment ('/' :: '/' :: z.takeWhile (· ≠ '\n')) :: us ∧ Token.concat ts = a
  block : ∀ a z, text = a ++ '/' :: '*' :: z → CodeAt inComment a ('/' :: '*' :: z) →
    ∃ ts us, (tokenize inComment text).1 = ts ++ .commentOpen :: us ∧ Token.concat ts = a ∧
      ClosesFirst z us
  opened : inComment = true → ClosesFirst text (tokenize inComment text).1
  streamed : inComment = false → ∀ s : Stream, s.Reads text →
    Token.concat (s.inMode true).collect.1 = text.outsideComments inComment ∧
      (s.inMode false).collect.1 = (s.inMode true).collect.1.filter fun t => !t.isSpace
  located : ∀ line : Line, line.content = text → ∀ located ∈ (line.located inComment).1,
    ∃ a z, text = a ++ located.token.text ++ z ∧ located.offset = line.start + a.byteLength ∧
      ∀ region ∈ (((Place.start inComment).regions text).drop a.length).take located.token.text.length,
        region.isComment = false

namespace Lexer

/-- What is read and what is held spell the text. -/
theorem concat_read (inComment : Bool) (a : Text) :
    Token.concat (read (.start inComment) a).1 ++ Token.concat (read (.start inComment) a).2.finish = a := by
  have h := concat_run (.start inComment) a
  rwa [run_eq_read, Token.concat_append, finish_start, Token.concat_nil, List.nil_append] at h

theorem exists_run_lineComment (text z : Text) :
    ∃ us, (run (.lineComment text) z).1 =
      .lineComment (text.reverse ++ z.takeWhile (· ≠ '\n')) :: us := by
  induction z generalizing text with
  | nil => exact ⟨[], by simp [run, Mode.finish]⟩
  | cons c z ih =>
    by_cases hc : c = '\n'
    · subst hc
      exact ⟨.newline :: (run (.code []) z).1, by simp [run, step]⟩
    · obtain ⟨us, hus⟩ := ih (c :: text)
      exact ⟨us, by simp [run, step, hc, hus]⟩

/-- A block comment opens after whatever the lexer holds in code. -/
theorem run_open {mode : Mode} (h : (∃ word, mode = .code word) ∨ mode = .star) (z : Text) :
    (run mode ('/' :: '*' :: z)).1 = mode.finish ++ .commentOpen :: (run (.comment []) z).1 := by
  rcases h with ⟨word, rfl⟩ | rfl
  · simp [run, step, readCode, Mode.finish]
  · simp [run, step, Mode.finish]

theorem run_close {mode : Mode} (h : mode.inComment) (rest : Text) :
    (run mode ('*' :: '/' :: rest)).1 = mode.finish ++ .commentClose :: (run (.code []) rest).1 := by
  cases mode with
  | comment word => simp [run, step, readComment, Mode.finish]
  | commentStar => simp [run, step, readComment, Mode.finish, after, flush]
  | _ => simp [Mode.inComment] at h

/-- The characters that can still become the start of a `*/`. -/
def Mode.pending : Mode → Text
  | .commentStar => ['*']
  | _ => []

theorem not_mem_readComment (word : Text) (c : Char) :
    .commentClose ∉ (readComment word c).1 ∧ (readComment word c).2.inComment ∧
      (readComment word c).2.pending = if c = '*' then ['*'] else [] := by
  have hflush : Token.commentClose ∉ flush word := by unfold flush; split <;> simp
  unfold readComment
  split
  · exact ⟨hflush, rfl, rfl⟩
  · split
    · refine ⟨?_, rfl, rfl⟩
      unfold Token.ofDelimiter
      split <;> simp [hflush]
    · exact ⟨by simp, rfl, rfl⟩

/-- Inside a block comment only a slash behind a star closes it. -/
theorem not_mem_step {mode : Mode} {c : Char} (hin : mode.inComment) (h : mode.pending ≠ [] → c ≠ '/') :
    .commentClose ∉ (step mode c).1 ∧ (step mode c).2.inComment ∧
      (step mode c).2.pending = if c = '*' then ['*'] else [] := by
  cases mode with
  | comment word => exact not_mem_readComment word c
  | commentStar =>
    obtain ⟨hmem, hcomment, hpending⟩ := not_mem_readComment [] c
    simp only [step, if_neg (h (by simp [Mode.pending])), after]
    exact ⟨by simp [hmem], hcomment, hpending⟩
  | _ => simp [Mode.inComment] at hin

/-- Inside a block comment nothing closes it before the first `*/`. -/
theorem not_mem_read (mode : Mode) {inner : Text} (hin : mode.inComment)
    (h : ¬ ['*', '/'] <:+: mode.pending ++ inner) :
    .commentClose ∉ (read mode inner).1 ∧ (read mode inner).2.inComment := by
  induction inner generalizing mode with
  | nil => exact ⟨by simp [read], hin⟩
  | cons c inner ih =>
    have hslash : mode.pending ≠ [] → c ≠ '/' := by
      rintro hpending rfl
      cases mode with
      | commentStar => exact h ⟨[], inner, rfl⟩
      | _ => exact hpending rfl
    obtain ⟨hmem, hcomment, hpending⟩ := not_mem_step hin hslash
    have hsuffix : (step mode c).2.pending ++ inner <:+ mode.pending ++ c :: inner := by
      rw [hpending]
      split
      · next hc => exact hc ▸ List.suffix_append mode.pending _
      · exact (List.suffix_cons c inner).trans (List.suffix_append mode.pending _)
    obtain ⟨hread, hafter⟩ := ih _ hcomment fun hfound => h (hfound.trans hsuffix.isInfix)
    simp only [read, after]
    exact ⟨by simp [hmem, hread], hafter⟩

theorem not_mem_finish_of_inComment {mode : Mode} (h : mode.inComment) : .commentClose ∉ mode.finish := by
  cases mode with
  | comment word => simp only [Mode.finish, flush]; split <;> simp
  | commentStar => simp [Mode.finish]
  | _ => simp [Mode.inComment] at h

theorem closesFirst_run (z : Text) : ClosesFirst z (run (.comment []) z).1 := by
  constructor
  · rintro inner rest rfl hfirst
    obtain ⟨hmem, hin⟩ := not_mem_read (.comment []) rfl hfirst
    refine ⟨(run (.comment []) inner).1, (run (.code []) rest).1, ?_, ?_, ?_⟩
    · rw [run_append, run_close hin, run_eq_read (.comment []) inner, List.append_assoc]
    · simpa [Mode.finish, flush] using concat_run (.comment []) inner
    · rw [run_eq_read, List.mem_append, not_or]
      exact ⟨hmem, not_mem_finish_of_inComment hin⟩
  · intro hnone
    obtain ⟨hmem, hin⟩ := not_mem_read (.comment []) rfl hnone
    rw [run_eq_read, List.mem_append, not_or]
    exact ⟨hmem, not_mem_finish_of_inComment hin⟩

/-- Before a slash or a star the lexer stands in code with a word or right after a star, if the rule stands in
code. -/
theorem follows_code {p : Place} {mode : Mode} {c : Char} (h : Follows p mode (some c)) (hp : p.isCode)
    (hc : c = '/' ∨ c = '*') : (∃ word, mode = .code word) ∨ (p = .code [] true ∧ mode = .star) := by
  cases h with
  | code word => exact .inl ⟨word, rfl⟩
  | star => exact .inr ⟨rfl, rfl⟩
  | slash word hline hblock => rcases hc with rfl | rfl <;> contradiction
  | starSlash hline hblock => rcases hc with rfl | rfl <;> contradiction
  | _ => simp [Place.isCode] at hp

end Lexer

open Lexer

/-- The tokens of a text that is cut where the lexer holds some tokens back. -/
theorem exists_tokenize_of_run {inComment : Bool} {a z : Text} {us : List Token}
    (h : (run (read (.start inComment) a).2 z).1 = (read (.start inComment) a).2.finish ++ us) :
    ∃ ts, (tokenize inComment (a ++ z)).1 = ts ++ us ∧ Token.concat ts = a := by
  refine ⟨(read (.start inComment) a).1 ++ (read (.start inComment) a).2.finish, ?_, ?_⟩
  · rw [tokenize, run_append, h, List.append_assoc]
  · rw [Token.concat_append, concat_read]

section Clean

variable {inComment : Bool} {text : Text}

theorem line_of_clean (h : (Place.start inComment).Clean text []) {a z : Text}
    (htext : text = a ++ '/' :: '/' :: z) (hcode : CodeAt inComment a ('/' :: '/' :: z)) :
    ∃ ts us, (tokenize inComment text).1 =
      ts ++ .lineComment ('/' :: '/' :: z.takeWhile (· ≠ '\n')) :: us ∧ Token.concat ts = a := by
  subst htext
  have hfront := h.front
  have hafter := h.after
  rw [List.append_nil] at hfront hafter
  have hfollows := follows_read (follows_start inComment _) hfront
  rcases follows_code hfollows hcode (.inl rfl) with ⟨word, hmode⟩ | ⟨hstar, -⟩
  · obtain ⟨us, hus⟩ := exists_run_lineComment ['/', '/'] z
    have hrun : (run (read (.start inComment) a).2 ('/' :: '/' :: z)).1 =
        (read (.start inComment) a).2.finish ++
          .lineComment ('/' :: '/' :: z.takeWhile (· ≠ '\n')) :: us := by
      rw [hmode]
      simpa [run, step, readCode, Mode.finish] using hus
    obtain ⟨ts, hts, hconcat⟩ := exists_tokenize_of_run hrun
    exact ⟨ts, us, hts, hconcat⟩
  · exact absurd ⟨z, by simp⟩ (hafter.here [] hstar (by simp))

theorem block_of_clean (h : (Place.start inComment).Clean text []) {a z : Text}
    (htext : text = a ++ '/' :: '*' :: z) (hcode : CodeAt inComment a ('/' :: '*' :: z)) :
    ∃ ts us, (tokenize inComment text).1 = ts ++ .commentOpen :: us ∧ Token.concat ts = a ∧
      ClosesFirst z us := by
  subst htext
  have hfront := h.front
  rw [List.append_nil] at hfront
  have hfollows := follows_read (follows_start inComment _) hfront
  have hmode := (follows_code hfollows hcode (.inl rfl)).imp_right And.right
  obtain ⟨ts, hts, hconcat⟩ := exists_tokenize_of_run (run_open hmode z)
  exact ⟨ts, _, hts, hconcat, closesFirst_run z⟩

end Clean

namespace Token

@[simp] theorem length_regions (inside : Bool) (ts : List Token) :
    (regions inside ts).length = (concat ts).length := by
  induction ts generalizing inside with
  | nil => rfl
  | cons t ts ih => simp [regions, ih]

private theorem map_fst_zip_replicate (t : Text) (region : Region) :
    ((t.zip (List.replicate t.length region)).filter fun x => !x.2.isComment).map Prod.fst =
      if region.isComment then [] else t := by
  have hregion {x : Char × Region} (hx : x ∈ t.zip (List.replicate t.length region)) : x.2 = region :=
    List.eq_of_mem_replicate (List.of_mem_zip hx).2
  cases h : region.isComment with
  | true =>
    rw [List.filter_eq_nil_iff.mpr fun x hx => by simp [hregion hx, h]]
    rfl
  | false =>
    rw [List.filter_eq_self.mpr fun x hx => by simp [hregion hx, h]]
    exact List.map_fst_zip (by simp)

/-- The code tokens spell the characters that belong to no comment. -/
theorem concat_dropComments (inside : Bool) (ts : List Token) :
    concat (dropComments inside ts) =
      (((concat ts).zip (regions inside ts)).filter fun x => !x.2.isComment).map Prod.fst := by
  induction ts generalizing inside with
  | nil => rfl
  | cons t ts ih =>
    rw [concat_cons, regions, List.zip_append (by simp), List.filter_append, List.map_append,
      map_fst_zip_replicate, ← ih]
    cases inside with
    | true => cases t <;> rfl
    | false => cases t <;> simp [region, dropComments, Region.isComment, insideAfter]

end Token

/-- A located token is a token outside comments, and its offset is the length of what comes before. -/
theorem exists_of_mem_locate {inside : Bool} {offset : Nat} {ts : List Token} {located : Located}
    (h : located ∈ locate inside offset ts) :
    ∃ us vs, ts = us ++ located.token :: vs ∧ located.offset = offset + (Token.concat us).byteLength ∧
      (located.token.region (insideAfter inside us)).isComment = false := by
  induction ts generalizing inside offset with
  | nil => simp [locate] at h
  | cons t ts ih =>
    have hlater (hmem : located ∈ locate (insideAfter inside [t]) (offset + t.text.byteLength) ts) :
        ∃ us vs, t :: ts = us ++ located.token :: vs ∧
          located.offset = offset + (Token.concat us).byteLength ∧
          (located.token.region (insideAfter inside us)).isComment = false := by
      obtain ⟨us, vs, rfl, hoffset, hregion⟩ := ih hmem
      refine ⟨t :: us, vs, rfl, ?_, ?_⟩
      · rw [hoffset, Token.concat_cons, Text.byteLength_append, Nat.add_assoc]
      · rwa [← List.singleton_append, insideAfter_append]
    cases inside with
    | true => cases t <;> exact hlater h
    | false =>
      cases t with
      | word text =>
        rcases List.mem_cons.mp h with rfl | h
        · exact ⟨[], ts, rfl, rfl, rfl⟩
        · exact hlater h
      | delimiter c =>
        rcases List.mem_cons.mp h with rfl | h
        · exact ⟨[], ts, rfl, rfl, rfl⟩
        · exact hlater h
      | literal text =>
        rcases List.mem_cons.mp h with rfl | h
        · exact ⟨[], ts, rfl, rfl, rfl⟩
        · exact hlater h
      | _ => exact hlater h

section Clean

variable {inComment : Bool} {text : Text}

theorem concat_code_of_clean (h : (Place.start inComment).Clean text []) :
    Token.concat (dropComments inComment (tokenize inComment text).1) = text.outsideComments inComment := by
  rw [Token.concat_dropComments, regions_tokenize h, concat_tokenize, Text.outsideComments]

theorem located_of_clean (h : (Place.start inComment).Clean text []) {line : Line}
    (hline : line.content = text) {located : Located} (hmem : located ∈ (line.located inComment).1) :
    ∃ a z, text = a ++ located.token.text ++ z ∧ located.offset = line.start + a.byteLength ∧
      ∀ region ∈ (((Place.start inComment).regions text).drop a.length).take located.token.text.length,
        region.isComment = false := by
  subst hline
  obtain ⟨us, vs, htokens, hoffset, hregion⟩ := exists_of_mem_locate hmem
  have hconcat := concat_tokenize inComment line.content
  rw [htokens, Token.concat_append, Token.concat_cons, ← List.append_assoc] at hconcat
  refine ⟨Token.concat us, Token.concat vs, hconcat.symm, hoffset, ?_⟩
  rw [← regions_tokenize h, htokens, Token.regions_append, Token.regions,
    List.drop_left' (Token.length_regions _ _), List.take_left' (List.length_replicate ..)]
  intro region hmem
  rw [List.eq_of_mem_replicate hmem]
  exact hregion

theorem streamed_of_clean (h : (Place.start false).Clean text []) {s : Stream} (hs : s.Reads text) :
    Token.concat (s.inMode true).collect.1 = text.outsideComments false ∧
      (s.inMode false).collect.1 = (s.inMode true).collect.1.filter fun t => !t.isSpace := by
  have hcollect (withSpaces : Bool) :
      (s.inMode withSpaces).collect.1 = text.code.filter (Stream.shows withSpaces) := by
    rcases hs with rfl | ⟨doc, first, last, hle, rfl, rfl⟩
    · exact Stream.collect_ofText text withSpaces
    · rw [Stream.ofDocument, Stream.collect_ofLines, doc.codeOfLines_between hle]
  have hall : text.code.filter (Stream.shows true) = text.code := List.filter_eq_self.mpr fun _ _ => rfl
  rw [hcollect, hcollect, hall]
  exact ⟨concat_code_of_clean h, rfl⟩

end Clean

/-- A star in code right before `//` is taken together with the first slash. -/
theorem not_findsComments_of_star {inComment : Bool} {a z : Text}
    (hclean : (Place.start inComment).Clean a ('*' :: '/' :: '/' :: z))
    (hcode : CodeAt inComment a ('*' :: '/' :: '/' :: z)) :
    ¬ FindsComments inComment (a ++ '*' :: '/' :: '/' :: z) := by
  intro h
  have hfollows := follows_read (follows_start inComment _) hclean
  have hmode := (follows_code hfollows hcode (.inr rfl)).imp_right And.right
  have hrun : ∃ us, (run (read (.start inComment) a).2 ('*' :: '/' :: '/' :: z)).1 =
      (read (.start inComment) a).2.finish ++ .commentClose :: us := by
    rcases hmode with ⟨word, hmode⟩ | hmode
    · exact ⟨(run (.slash []) z).1, by simp [hmode, run, step, readCode, after, Mode.finish]⟩
    · exact ⟨(run (.slash []) z).1, by simp [hmode, run, step, readCode, after, Mode.finish, flush]⟩
  obtain ⟨us, hus⟩ := hrun
  obtain ⟨ts, hts, hconcat⟩ := exists_tokenize_of_run hus
  have hstar : CodeAt inComment (a ++ ['*']) ('/' :: '/' :: z) := by
    rw [CodeAt, Place.after_append]
    exact congrArg Place.isCode (Place.read_star hcode (some '/'))
  obtain ⟨ts', us', hts', hconcat'⟩ := h.line (a ++ ['*']) z (by simp) hstar
  -- The two tokens would start at different places of `*/`.
  rw [hts'] at hts
  rcases List.append_eq_append_iff.mp hts with ⟨mid, rfl, hmid⟩ | ⟨mid, rfl, hmid⟩
  · rw [Token.concat_append, hconcat'] at hconcat
    simp at hconcat
  · cases mid with
    | nil => simp at hmid
    | cons t mid =>
      obtain ⟨rfl, -⟩ := List.cons.inj hmid
      rw [Token.concat_append, hconcat, Token.concat_cons] at hconcat'
      simp [Token.text] at hconcat'

/-- A part of a text is clean, or a star of it in code stands right before `//`. -/
theorem clean_or_exists_star (inComment : Bool) (a rest : Text) :
    (Place.start inComment).Clean a rest ∨ ∃ u z, a ++ rest = u ++ '*' :: '/' :: '/' :: z ∧
      u.length < a.length ∧ CodeAt inComment u ('*' :: '/' :: '/' :: z) := by
  by_cases h : ∃ u v, a = u ++ '*' :: v ∧ CodeAt inComment u ('*' :: v ++ rest) ∧ ['/', '/'] <+: v ++ rest
  · obtain ⟨u, v, rfl, hcode, z, hz⟩ := h
    rw [List.cons_append, ← hz] at hcode
    exact .inr ⟨u, z, by simpa using hz.symm, by simp, hcode⟩
  · refine .inl ⟨fun u v ha hcode hline => h ⟨u, v, ha, hcode, hline⟩, ?_⟩
    intro word hstart
    cases inComment <;> simp [Place.start] at hstart

/-- The first star in code that stands right before `//`. -/
theorem exists_first_star {inComment : Bool} {text a z : Text} (htext : text = a ++ '*' :: '/' :: '/' :: z)
    (hcode : CodeAt inComment a ('*' :: '/' :: '/' :: z)) :
    ∃ a z, text = a ++ '*' :: '/' :: '/' :: z ∧ CodeAt inComment a ('*' :: '/' :: '/' :: z) ∧
      (Place.start inComment).Clean a ('*' :: '/' :: '/' :: z) := by
  induction hn : a.length using Nat.strong_induction_on generalizing a z with
  | _ n ih =>
    rcases clean_or_exists_star inComment a ('*' :: '/' :: '/' :: z) with hclean | ⟨u, y, hu, hlt, hstar⟩
    · exact ⟨a, z, htext, hcode, hclean⟩
    · exact ih u.length (hn ▸ hlt) (htext.trans hu) hstar rfl

/-- The comments of a text are recognised exactly when no code position of it holds `*//`. -/
theorem findsComments_iff (inComment : Bool) (text : Text) :
    FindsComments inComment text ↔ ∀ a z, text = a ++ '*' :: '/' :: '/' :: z →
      ¬ CodeAt inComment a ('*' :: '/' :: '/' :: z) := by
  constructor
  · intro h a z htext hcode
    obtain ⟨a, z, rfl, hcode, hclean⟩ := exists_first_star htext hcode
    exact not_findsComments_of_star hclean hcode h
  · intro h
    have hclean : (Place.start inComment).Clean text [] := by
      refine (clean_or_exists_star inComment text []).resolve_right ?_
      rintro ⟨a, z, htext, -, hcode⟩
      exact h a z (by simpa using htext) hcode
    exact ⟨fun a z => line_of_clean hclean, fun a z => block_of_clean hclean,
      fun hin => by subst hin; exact closesFirst_run text,
      fun hin s hs => by subst hin; exact streamed_of_clean hclean hs,
      fun line hline located hmem => located_of_clean hclean hline hmem⟩

/-- A pointer with a block comment behind it, and a line comment that holds a closer. -/
def commentedPointer : Text := "int*/* x */p; // '*/".toList

theorem findsComments_commentedPointer : FindsComments false commentedPointer := by
  have hall : (commentedPointer.tails.all fun t => !"*//".toList.isPrefixOf t) = true := by decide
  refine (findsComments_iff false commentedPointer).mpr fun a z htext _ => ?_
  have hmem : '*' :: '/' :: '/' :: z ∈ commentedPointer.tails :=
    (List.mem_tails _ _).mpr ⟨a, htext.symm⟩
  exact absurd (List.all_eq_true.mp hall _ hmem) (by simp)

/-- A pointer right before a line comment that holds a brace. -/
def pointerComment : Text := "int*// \x7b".toList

theorem not_findsComments_pointerComment :
    CodeAt false "int*".toList "// \x7b".toList ∧ ¬ FindsComments false pointerComment ∧
      (tokenize false pointerComment).1 =
        [.word "int".toList, .commentClose, .word ['/'], .space ' ', .delimiter '{'] := by
  refine ⟨by unfold CodeAt; decide, ?_, by decide⟩
  intro h
  obtain ⟨ts, us, htokens, -⟩ := h.line "int*".toList " \x7b".toList rfl (by unfold CodeAt; decide)
  have hmem : Token.lineComment "// \x7b".toList ∈ (tokenize false pointerComment).1 := by
    rw [htokens]
    exact List.mem_append_right _ List.mem_cons_self
  revert hmem
  decide

end OutOfLine

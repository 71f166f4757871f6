import OutOfLine.Proofs.TokenPlaces

/-!
# Code tokens with their lines and offsets

A stream keeps the line of a code token, and the reading with offsets keeps the byte at which it starts. Here
one list keeps both, and the two readings are views of it. Behind a plain delimiter this list depends on
nothing but the place of the delimiter: lexing from different lines, and through different last lines, goes on
in the same way once it has come to the same brace in code.
-/

namespace OutOfLine

/-- A code token, the line on which it stands and the byte at which it starts. -/
structure Spot where
  token : Token
  line : Line
  offset : Nat
  deriving DecidableEq

namespace Spot

def placed (spot : Spot) : Placed := ⟨spot.token, spot.line⟩

def located (spot : Spot) : Located := ⟨spot.offset, spot.token⟩

end Spot

/-- The reading with offsets, which leaves out spaces and stray comment ends. -/
def locatedSpots (spots : List Spot) : List Located :=
  (spots.filter fun spot => spot.token.isSolid).map Spot.located

theorem locatedSpots_append (spots more : List Spot) :
    locatedSpots (spots ++ more) = locatedSpots spots ++ locatedSpots more := by
  rw [locatedSpots, List.filter_append, List.map_append]
  rfl

theorem locatedSpots_cons {spot : Spot} (h : spot.token.isSolid) (spots : List Spot) :
    locatedSpots (spot :: spots) = spot.located :: locatedSpots spots := by
  have hfilter : (spot :: spots).filter (fun spot => spot.token.isSolid) =
      spot :: spots.filter fun spot => spot.token.isSolid := List.filter_cons_of_pos h
  rw [locatedSpots, hfilter, List.map_cons]
  rfl

theorem map_token_locatedSpots (spots : List Spot) :
    (locatedSpots spots).map Located.token = (spots.map Spot.token).filter Token.isSolid := by
  rw [locatedSpots, List.map_map, List.filter_map]
  rfl

namespace Line

/-- The code tokens among some tokens of a line, the first of which starts at a byte. -/
def spots (line : Line) (inside : Bool) (offset : Nat) : List Token → List Spot
  | [] => []
  | t :: ts =>
    let next := offset + t.text.byteLength
    if inside then line.spots (t != .commentClose) next ts
    else match t with
      | .commentOpen => line.spots true next ts
      | .lineComment _ => line.spots false next ts
      | _ => ⟨t, line, offset⟩ :: line.spots false next ts

variable (line : Line)

theorem map_placed_spots (inside : Bool) (offset : Nat) (ts : List Token) :
    (line.spots inside offset ts).map Spot.placed = (dropComments inside ts).map (⟨·, line⟩) := by
  induction ts generalizing inside offset with
  | nil => rfl
  | cons t ts ih =>
    cases inside with
    | true => exact ih _ _
    | false =>
      cases t with
      | commentOpen => exact ih true _
      | lineComment text => exact ih false _
      | _ => exact congrArg (List.cons _) (ih false _)

theorem locatedSpots_spots (inside : Bool) (offset : Nat) (ts : List Token) :
    locatedSpots (line.spots inside offset ts) = locate inside offset ts := by
  induction ts generalizing inside offset with
  | nil => rfl
  | cons t ts ih =>
    cases inside with
    | true => cases t <;> exact ih _ _
    | false =>
      cases t with
      | commentOpen => exact ih true _
      | commentClose => exact ih false _
      | lineComment text => exact ih false _
      | space c => exact ih false _
      | _ => exact congrArg (List.cons _) (ih false _)

theorem spots_append (inside : Bool) (offset : Nat) (ts us : List Token) :
    line.spots inside offset (ts ++ us) = line.spots inside offset ts ++
      line.spots (insideAfter inside ts) (offset + (Token.concat ts).byteLength) us := by
  induction ts generalizing inside offset with
  | nil => rfl
  | cons t ts ih =>
    rw [Token.concat_cons, Text.byteLength_append, ← Nat.add_assoc]
    cases inside with
    | true => cases t <;> exact ih _ _
    | false =>
      cases t with
      | commentOpen => exact ih true _
      | lineComment text => exact ih false _
      | _ => exact congrArg (List.cons _) (ih false _)

/-- The newline behind a line is lexed with it. -/
theorem tokens_eq_tokenize (inComment : Bool) : line.tokens inComment = tokenize inComment line.fed := by
  rw [Line.tokens, fed]
  split
  · rw [List.append_nil]
  · have hrun : tokenize inComment (line.content ++ ['\n']) = _ := Lexer.run_newline _ _ _
    rw [hrun, Lexer.run, Lexer.finish_start, Lexer.inComment_start]
    rfl

theorem start_add_le_stop {line : Line} {a z : Text} {c : Char} (hc : Lexer.isPlain c)
    (h : line.fed = a ++ c :: z) : line.start + a.byteLength ≤ line.stop := by
  have hone := (Lexer.isPlain_ne hc).2.2.2
  have hnewline : Text.byteLength (if line.ending = .none then [] else ['\n']) ≤ 1 := by
    split <;> decide
  have hlength := congrArg Text.byteLength h
  simp only [fed, Text.byteLength_append, Text.byteLength_cons, hone] at hlength
  rw [Line.stop]
  omega

/-- At a plain delimiter among its code tokens a line is divided, and what comes behind is lexed from there. -/
theorem exists_cut_of_spots {line : Line} {inComment : Bool} {before after : List Spot} {spot : Spot} {c : Char}
    (hc : Lexer.isPlain c) (htoken : spot.token = .delimiter c)
    (h : line.spots inComment line.start (line.tokens inComment).1 = before ++ spot :: after) :
    ∃ a z : Text, line.fed = a ++ c :: z ∧ spot = ⟨.delimiter c, line, line.start + a.byteLength⟩ ∧
      after = line.spots false (line.start + a.byteLength + 1) (tokenize false z).1 ∧
      (line.tokens inComment).2 = (tokenize false z).2 := by
  have hcode := line.map_placed_spots inComment line.start (line.tokens inComment).1
  replace hcode := congrArg (List.map Placed.token) hcode
  rw [h, List.map_map, List.map_map, List.map_append, List.map_cons] at hcode
  replace hcode := hcode.symm.trans (congrArg (fun t => _ ++ t :: _) htoken)
  obtain ⟨us, vs, htokens, hus, hinside, -⟩ :=
    Text.exists_of_dropComments_eq ((List.map_id _).symm.trans hcode)
  rw [tokens_eq_tokenize] at htokens h ⊢
  -- The delimiter divides the tokens of the line, comments included, and with them its characters.
  obtain ⟨a, z, hfed, -, ha, hz⟩ :=
    Lexer.exists_cut_of_run hc (show Lexer.run (.start inComment) line.fed = (us ++ .delimiter c :: vs, _) from
      Prod.ext htokens rfl)
  have hstate : (Lexer.run (.start inComment) a).2 = false := by
    rw [← Lexer.insideAfter_run, Lexer.inComment_start, ha, hinside]
  have hlength : (Token.concat us).byteLength = a.byteLength := by
    rw [← ha, Lexer.concat_run, Lexer.finish_start]
    rfl
  have hone : (Token.delimiter c).text.byteLength = 1 := by
    simp [Token.text, (Lexer.isPlain_ne hc).2.2.2]
  rw [hstate] at hz
  have hvs : (tokenize false z).1 = vs ∧ (tokenize inComment line.fed).2 = (tokenize false z).2 :=
    ⟨congrArg Prod.fst hz, (congrArg Prod.snd hz).symm⟩
  have hspots : line.spots inComment line.start (tokenize inComment line.fed).1 =
      line.spots inComment line.start us ++ ⟨.delimiter c, line, line.start + a.byteLength⟩ ::
        line.spots false (line.start + a.byteLength + 1) vs := by
    rw [htokens, spots_append, hinside, hlength, ← hone]
    rfl
  -- Both cuts have as many code tokens in front, so they are the same one.
  have hcount : (line.spots inComment line.start us).length = before.length := by
    have hlen := congrArg List.length (line.map_placed_spots inComment line.start us)
    have hbefore := congrArg List.length hus
    simp only [List.length_map] at hlen hbefore
    omega
  rw [hspots] at h
  obtain ⟨-, hback⟩ := List.append_inj h hcount
  obtain ⟨rfl, rfl⟩ := List.cons.inj hback
  exact ⟨a, z, hfed, rfl, by rw [hvs.1], hvs.2⟩

end Line

/-- The code tokens of consecutive lines with their lines and offsets. -/
def spotsOfLines (inComment : Bool) : List Line → List Spot
  | [] => []
  | line :: rest =>
    let lexed := line.tokens inComment
    line.spots inComment line.start lexed.1 ++ spotsOfLines lexed.2 rest

/-- One view of the spots: what a stream reads, with lines. -/
theorem map_placed_spotsOfLines (inComment : Bool) (lines : List Line) :
    (spotsOfLines inComment lines).map Spot.placed = codeOfLines inComment lines := by
  induction lines generalizing inComment with
  | nil => rfl
  | cons line lines ih => rw [spotsOfLines, List.map_append, line.map_placed_spots, ih, codeOfLines]

/-- The other view of the spots: what is read with offsets. -/
theorem locatedSpots_spotsOfLines (inComment : Bool) (lines : List Line) :
    locatedSpots (spotsOfLines inComment lines) = locateLines inComment lines := by
  induction lines generalizing inComment with
  | nil => rfl
  | cons line lines ih =>
    have hnewline (inside : Bool) (offset : Nat) : locate inside offset [.newline] = [] := by
      cases inside <;> rfl
    rw [spotsOfLines, locatedSpots_append, line.locatedSpots_spots, ih, locateLines, Line.located]
    simp only [Line.tokens]
    split
    · rfl
    · rw [locate_append, hnewline, List.append_nil]

theorem spotsOfLines_append (inComment : Bool) (lines more : List Line) :
    spotsOfLines inComment (lines ++ more) =
      spotsOfLines inComment lines ++ spotsOfLines (commentAfter inComment lines) more := by
  induction lines generalizing inComment with
  | nil => rfl
  | cons line lines ih =>
    rw [List.cons_append, spotsOfLines, spotsOfLines, ih, List.append_assoc]
    rfl

/-- At a plain delimiter in code some lines are divided, and what comes behind is lexed from there. -/
theorem exists_cut_of_spotsOfLines {inComment : Bool} {lines : List Line} {before after : List Spot} {spot : Spot}
    {c : Char} (hc : Lexer.isPlain c) (htoken : spot.token = .delimiter c)
    (h : spotsOfLines inComment lines = before ++ spot :: after) :
    ∃ (above : List Line) (line : Line) (below : List Line) (a z : Text), lines = above ++ line :: below ∧
      line.fed = a ++ c :: z ∧ spot = ⟨.delimiter c, line, line.start + a.byteLength⟩ ∧
      after = line.spots false (line.start + a.byteLength + 1) (tokenize false z).1 ++
        spotsOfLines (tokenize false z).2 below := by
  induction lines generalizing inComment before with
  | nil => simp [spotsOfLines] at h
  | cons line lines ih =>
    -- The delimiter stands on a later line or on this one.
    rcases List.append_eq_append_iff.mp h with ⟨later, -, hlater⟩ | ⟨now, hnow, hafter⟩
    · obtain ⟨above, other, below, a, z, rfl, hrest⟩ := ih hlater
      exact ⟨line :: above, other, below, a, z, rfl, hrest⟩
    · cases now with
      | nil =>
        have hlater : spotsOfLines _ lines = [] ++ spot :: after := hafter.symm
        obtain ⟨above, other, below, a, z, rfl, hrest⟩ := ih hlater
        exact ⟨line :: above, other, below, a, z, rfl, hrest⟩
      | cons first now =>
        obtain ⟨rfl, rfl⟩ := List.cons.inj hafter
        obtain ⟨a, z, hfed, hspot, hline, hstate⟩ := Line.exists_cut_of_spots hc htoken hnow
        exact ⟨[], line, lines, a, z, rfl, hfed, hspot, by rw [List.append_eq, hline, hstate]⟩

/-- Every line starts behind the ends of those before it. -/
theorem Text.pairwise_start_linesAt (t : Text) (number start : Nat) :
    (linesAt number start t).Pairwise (·.stop < ·.start) := by
  induction t using Text.line_induction generalizing number start with
  | last content hnl =>
    rw [linesAt_last _ _ hnl]
    exact List.pairwise_singleton _ _
  | line content ending rest hended ih =>
    rw [linesAt_line _ _ hended, List.pairwise_cons]
    refine ⟨fun line hline => ?_, ih _ _⟩
    obtain ⟨a, b, -, hstart⟩ := content_of_mem_linesAt hline
    have hending : 0 < byteLength ending.text := by
      cases ending with
      | none => exact absurd rfl hended.ending_ne
      | lf => decide
      | crlf => decide
    change start + byteLength content < line.start
    omega

/-- In a list in which one thing comes before another only if it is related to it, two places are the same if
the things there are not related. -/
theorem eq_of_pairwise_append_cons {α : Type} {R : α → α → Prop} {front back front' back' : List α} {x y : α}
    (h : front ++ x :: back = front' ++ y :: back') (hR : (front ++ x :: back).Pairwise R) (hxy : ¬ R x y)
    (hyx : ¬ R y x) : front = front' ∧ x = y ∧ back = back' := by
  rcases List.append_eq_append_iff.mp h with ⟨between, rfl, hback⟩ | ⟨between, rfl, hback⟩
  · cases between with
    | nil => exact ⟨(List.append_nil _).symm, List.cons.inj hback⟩
    | cons z between =>
      obtain ⟨rfl, rfl⟩ := List.cons.inj hback
      have hrest := (List.pairwise_append.mp hR).2.1
      exact absurd ((List.pairwise_cons.mp hrest).1 y (by simp)) hxy
  · cases between with
    | nil =>
      obtain ⟨rfl, rfl⟩ := List.cons.inj hback
      exact ⟨List.append_nil _, rfl, rfl⟩
    | cons z between =>
      obtain ⟨rfl, rfl⟩ := List.cons.inj hback
      have hfront := (List.pairwise_append.mp hR).2.2
      exact absurd (hfront y (by simp) x (by simp)) hyx

namespace Document

/-- The code tokens of the lines from one index through another, lexed as if the first of them began in code. -/
def spots (doc : Document) (first last : Nat) : List Spot := spotsOfLines false (doc.between first last)

variable (doc : Document)

theorem between_isPrefix (first : Nat) {last last' : Nat} (h : last ≤ last') :
    doc.between first last <+: doc.between first last' :=
  (List.take_prefix_take_left (Nat.succ_le_succ h)).drop first

theorem between_isSuffix {first first' : Nat} (last : Nat) (h : first ≤ first') :
    doc.between first' last <:+ doc.between first last := by
  rw [between, between, ← Nat.add_sub_cancel' h, ← List.drop_drop]
  exact List.drop_suffix _ _

/-- Reading through a later line gives more tokens behind the same ones. -/
theorem spots_isPrefix (first : Nat) {last last' : Nat} (h : last ≤ last') :
    doc.spots first last <+: doc.spots first last' := by
  obtain ⟨more, hmore⟩ := doc.between_isPrefix first h
  rw [spots, spots, ← hmore, spotsOfLines_append]
  exact List.prefix_append _ _

theorem pairwise_between (first last : Nat) :
    (doc.between first last).Pairwise (·.stop < ·.start) := by
  have hlines : doc.lines.Pairwise (·.stop < ·.start) := doc.text.pairwise_start_linesAt 1 0
  exact hlines.sublist ((List.drop_sublist _ _).trans (List.take_sublist _ _))

/-- Two readings of a document that come to the same plain delimiter in code go on in the same way, whatever
the lines at which they started, as far as the shorter one goes. -/
theorem spots_behind {doc : Document} {first last first' last' : Nat} {before after before' after' : List Spot}
    {spot spot' : Spot} {c : Char} (hc : Lexer.isPlain c) (hlast : last ≤ last')
    (h : doc.spots first last = before ++ spot :: after) (htoken : spot.token = .delimiter c)
    (h' : doc.spots first' last' = before' ++ spot' :: after') (htoken' : spot'.token = .delimiter c)
    (hoffset : spot'.offset = spot.offset) : spot' = spot ∧ after <+: after' := by
  obtain ⟨more, hmore⟩ := doc.spots_isPrefix first hlast
  rw [h, List.append_assoc, List.cons_append] at hmore
  obtain ⟨above, line, below, a, z, hlines, hfed, hspot, hafter⟩ :=
    exists_cut_of_spotsOfLines hc htoken hmore.symm
  obtain ⟨above', line', below', a', z', hlines', hfed', hspot', hafter'⟩ :=
    exists_cut_of_spotsOfLines hc htoken' h'
  subst hspot hspot'
  -- Both delimiters stand on a line of the whole document, and the offset tells which one it is.
  obtain ⟨front, hfront⟩ := doc.between_isSuffix last' (Nat.zero_le first)
  obtain ⟨front', hfront'⟩ := doc.between_isSuffix last' (Nat.zero_le first')
  rw [hlines, ← List.append_assoc] at hfront
  rw [hlines', ← List.append_assoc] at hfront'
  have hpairwise := doc.pairwise_between 0 last'
  have hstop := Line.start_add_le_stop hc hfed
  have hstop' := Line.start_add_le_stop hc hfed'
  dsimp only at hoffset
  obtain ⟨-, rfl, rfl⟩ := eq_of_pairwise_append_cons (hfront.trans hfront'.symm) (hfront ▸ hpairwise)
    (show ¬ line.stop < line'.start by omega) (show ¬ line'.stop < line.start by omega)
  obtain ⟨rfl, hz⟩ := Text.append_inj_of_byteLength (hfed.symm.trans hfed')
    (show Text.byteLength a = Text.byteLength a' by omega)
  obtain rfl := (List.cons.inj hz).2
  exact ⟨rfl, more, hafter.trans hafter'.symm⟩

end Document
end OutOfLine

import OutOfLine.Proofs.GuardedReading
import OutOfLine.Proofs.Reader
import OutOfLine.Proofs.ScopeEnds
import OutOfLine.Proofs.TokenSpots

/-!
# The brace that closes a block

The closing brace of a block is looked for in several places: by a stream that skips the rest of a block, by the
resolver and the locator in a block of code, by the locator in the scope it looks for, by the reader of
declarations in a body, and by the search for the range of a body. Each of them has a counter of its own and
reads the code tokens in its own way. All of them count alike and stop at the same brace, the last token of the
shortest front part of the tokens behind the opening brace that closes one brace more than it opens.
-/

namespace OutOfLine

namespace Braces

/-- One brace more is closed than opened. -/
def Surplus (tokens : List Token) : Prop :=
  tokens.count (.delimiter '}') = tokens.count (.delimiter '{') + 1

/-- The difference between closing and opening braces grows by one at a time. -/
theorem count_le_of_not_surplus {ts : List Token} (h : ∀ front, front <+: ts → ¬ Surplus front) :
    ts.count (.delimiter '}') ≤ ts.count (.delimiter '{') := by
  induction ts using List.reverseRecOn with
  | nil => exact le_refl 0
  | append_singleton ts t ih =>
    have hts := ih fun front hfront => h front (hfront.trans (List.prefix_append _ _))
    have hlast := h (ts ++ [t]) (List.prefix_refl _)
    have hone : [t].count (.delimiter '}') ≤ 1 := List.count_le_length
    rw [Surplus, List.count_append, List.count_append] at hlast
    rw [List.count_append, List.count_append]
    omega

/-- The counter reads on exactly as long as no front part closes one brace more than it opens. -/
theorem after_one_eq_some_iff {ts : List Token} {depth : Nat} :
    Brackets.after '{' '}' 1 ts = some depth ↔ (∀ front, front <+: ts → ¬ Surplus front) ∧
      depth + ts.count (.delimiter '}') = 1 + ts.count (.delimiter '{') := by
  rw [Brackets.after_eq_some_iff (by decide) (le_refl 1)]
  refine and_congr_left fun _ => ⟨fun h front hfront hsurplus => ?_, fun h front hfront => ?_⟩
  · have := h front hfront
    rw [Surplus] at hsurplus
    omega
  · have := count_le_of_not_surplus fun part hpart => h part (hpart.trans hfront)
    omega

end Braces

namespace Stream

namespace Reading

variable {r : Reading}

/-- Whether reads return a token while the guards stay as they are. -/
def isShown (r : Reading) (placed : Placed) : Bool := shows (0 < r.guards) placed.token

def shown (r : Reading) : List Placed := r.left.filter r.isShown

theorem ahead_of_shown_nil (h : r.shown = []) : r.ahead = [] := by
  refine ahead_eq_nil fun placed hplaced => ?_
  exact Bool.eq_false_iff.mpr (List.filter_eq_nil_iff.mp h placed hplaced)

/-- A read returns the first token that is shown and leaves the others. -/
theorem read_of_shown {placed : Placed} {more : List Placed} (h : r.shown = placed :: more) :
    r.next? = some placed ∧ (r.perform .read).shown = more := by
  obtain ⟨skipped, rest, hleft, hskipped, hplaced, hmore⟩ := List.filter_eq_cons_iff.mp h
  have hahead := ahead_append hleft (fun other hother => Bool.eq_false_iff.mpr (hskipped other hother)) hplaced
  rw [next?, perform, hahead]
  exact ⟨rfl, hmore⟩

theorem ahead_cons_of_shown {placed : Placed} {rest : List Placed} (hleft : r.left = placed :: rest)
    (h : r.isShown placed) : r.ahead = placed :: rest := by
  have hskipped : ∀ other ∈ ([] : List Placed), shows (0 < r.guards) other.token = false := by simp
  exact ahead_append hleft hskipped h

theorem ahead_cons_of_hidden {placed : Placed} {rest : List Placed} (hleft : r.left = placed :: rest)
    (h : r.isShown placed = false) : r.ahead = { r with left := rest }.ahead := by
  obtain ⟨hguards, hspace⟩ : r.guards = 0 ∧ placed.token.isSpace := by simpa [isShown, shows] using h
  simp [ahead, hleft, hguards, hspace]

/-- Reading as many tokens as are shown through some token leaves what is behind it. -/
theorem performAll_through {front rest : List Placed} {placed : Placed} (hleft : r.left = front ++ placed :: rest)
    (hplaced : r.isShown placed) :
    r.performAll (List.replicate ((front ++ [placed]).countP r.isShown) .read) = { r with left := rest } := by
  induction front generalizing r with
  | nil =>
    rw [List.nil_append, List.countP_singleton, if_pos hplaced]
    change r.perform .read = _
    rw [perform, ahead_cons_of_shown hleft hplaced]
    rfl
  | cons other front ih =>
    have hrest : ({ r with left := front ++ placed :: rest } : Reading).performAll
        (List.replicate ((front ++ [placed]).countP r.isShown) .read) = { r with left := rest } := ih rfl hplaced
    rw [List.cons_append]
    cases hother : r.isShown other with
    | true =>
      rw [List.countP_cons_of_pos hother, List.replicate_succ, performAll, List.foldl_cons, perform,
        ahead_cons_of_shown hleft hother]
      exact hrest
    | false =>
      -- A hidden token is passed over by the same read that goes on to the next one shown.
      have hpos : 0 < (front ++ [placed]).countP r.isShown :=
        List.countP_pos_iff.mpr ⟨placed, by simp, hplaced⟩
      obtain ⟨n, hn⟩ := Nat.exists_eq_succ_of_ne_zero hpos.ne'
      rw [List.countP_cons_of_neg (by simp [hother]), hn, List.replicate_succ, performAll, List.foldl_cons, perform,
        ahead_cons_of_hidden hleft hother]
      rwa [hn, List.replicate_succ, performAll, List.foldl_cons, perform] at hrest

end Reading

theorem performAll_replicate_succ (s : Stream) (n : Nat) :
    s.performAll (List.replicate (n + 1) .read) = (s.performAll (List.replicate n .read)).next.2 := by
  rw [List.replicate_succ', performAll, List.foldl_append]
  rfl

/-- What skipping does with the next token. -/
theorem skipBlocks_of_next {s s' : Stream} {t : Token} (h : s.next = (some t, s')) (depth : Nat) :
    s.skipBlocks depth =
      if t = .delimiter '{' then s'.skipBlocks (depth + 1)
      else if t = .delimiter '}' then if depth = 1 then (true, s') else s'.skipBlocks (depth - 1)
      else s'.skipBlocks depth := by
  rw [skipBlocks, h]

theorem skipBlocks_of_ended {s s' : Stream} (h : s.next = (none, s')) (depth : Nat) :
    s.skipBlocks depth = (false, s') := by
  rw [skipBlocks, h]

section Skipping

variable {s : Stream} {r : Reading} {front more : List Placed} {depth depth' : Nat}

theorem Follows.next_eq (h : s.Follows r) {placed : Placed} (hnext : r.next? = some placed) :
    s.next = (some placed.token, s.next.2) := by
  refine Prod.ext ?_ rfl
  rw [h.read.1, hnext]
  rfl

/-- While the outermost block is open, skipping has counted the braces of the tokens it has read. -/
theorem Follows.skipBlocks_eq (h : s.Follows r) (hshown : r.shown = front ++ more)
    (hafter : Brackets.after '{' '}' depth (front.map Placed.token) = some depth') :
    s.skipBlocks depth = (s.performAll (List.replicate front.length .read)).skipBlocks depth' ∧
      (r.performAll (List.replicate front.length .read)).shown = more := by
  induction front generalizing s r depth with
  | nil =>
    obtain rfl := Option.some.inj hafter
    exact ⟨rfl, hshown⟩
  | cons placed front ih =>
    obtain ⟨hnext, hrest⟩ := Reading.read_of_shown hshown
    have hread := h.perform .read
    rw [skipBlocks_of_next (h.next_eq hnext)]
    rcases Brackets.after_cons_eq_some hafter with ⟨hopen, hafter⟩ | ⟨-, hclose, hdepth, hafter⟩ |
      ⟨hopen, hclose, hafter⟩
    · rw [if_pos hopen]
      exact ih hread hrest hafter
    · rw [if_neg (by simp [hclose]), if_pos hclose, if_neg hdepth]
      exact ih hread hrest hafter
    · rw [if_neg hopen, if_neg hclose]
      exact ih hread hrest hafter

/-- Skipping ends at the brace that closes the outermost block. -/
theorem Follows.skipBlocks_closed (h : s.Follows r) (closing : Placed) (hclose : closing.token = .delimiter '}')
    (hshown : r.shown = front ++ closing :: more)
    (hafter : Brackets.after '{' '}' depth (front.map Placed.token) = some 1) :
    s.skipBlocks depth = (true, s.performAll (List.replicate (front.length + 1) .read)) ∧
      (s.performAll (List.replicate (front.length + 1) .read)).current = some closing.line := by
  obtain ⟨hcount, hrest⟩ := h.skipBlocks_eq hshown hafter
  have hfollows := h.performAll (List.replicate front.length .read)
  obtain ⟨hnext, -⟩ := Reading.read_of_shown hrest
  rw [hcount, performAll_replicate_succ, skipBlocks_of_next (hfollows.next_eq hnext), if_neg (by simp [hclose]),
    if_pos hclose, if_pos rfl]
  exact ⟨rfl, hfollows.read.2.1 closing hnext⟩

/-- Without such a brace skipping reads all there is. -/
theorem Follows.skipBlocks_open (h : s.Follows r)
    (hafter : Brackets.after '{' '}' depth (r.shown.map Placed.token) = some depth') :
    s.skipBlocks depth = (false, s.performAll (List.replicate (r.shown.length + 1) .read)) ∧
      (r.performAll (List.replicate (r.shown.length + 1) .read)).left = [] := by
  obtain ⟨hcount, hrest⟩ := h.skipBlocks_eq (List.append_nil _).symm hafter
  have hfollows := h.performAll (List.replicate r.shown.length .read)
  have hahead := Reading.ahead_of_shown_nil hrest
  have hended : (s.performAll (List.replicate r.shown.length .read)).next.1 = none := by
    rw [hfollows.read.1, Reading.next?, hahead]
    rfl
  rw [hcount, performAll_replicate_succ, skipBlocks_of_ended (Prod.ext hended rfl)]
  refine ⟨rfl, ?_⟩
  rw [List.replicate_succ', Reading.performAll_append]
  change (Reading.perform _ .read).left = []
  rw [Reading.perform, hahead]
  rfl

end Skipping

/-- The place before the code tokens of some lines of a document. -/
def Reading.ofDocument (doc : Document) (first last : Nat) : Reading :=
  ⟨codeOfLines false (doc.between first last), 0⟩

/-- A stream over some lines of a document that has these code tokens before it, whatever was read from it and
whichever guards were opened and closed on the way. -/
def Reaches (doc : Document) (first last : Nat) (left : List Spot) (s : Stream) : Prop :=
  ∃ actions, s = (ofDocument doc first last).performAll actions ∧
    ((Reading.ofDocument doc first last).performAll actions).left = left.map Spot.placed

/-- The stream after so many reads as return all of some tokens that it shows. -/
def past (s : Stream) (front : List Spot) : Stream :=
  s.performAll (List.replicate (front.countP fun spot => shows s.withSpaces spot.token) .read)

section Reaches

variable {doc : Document} {first last : Nat} {s : Stream} {left front rest : List Spot}

theorem Reaches.exists_reading (h : s.Reaches doc first last left) :
    ∃ r, s.Follows r ∧ r.left = left.map Spot.placed ∧
      ∀ actions rest, (r.performAll actions).left = rest.map Spot.placed →
        (s.performAll actions).Reaches doc first last rest := by
  obtain ⟨actions, rfl, hleft⟩ := h
  refine ⟨_, (follows_ofLines _ _).performAll actions, hleft, fun more rest hrest => ⟨actions ++ more, ?_, ?_⟩⟩
  · rw [performAll, performAll, performAll, List.foldl_append]
  · rw [Reading.performAll_append]
    exact hrest

theorem Follows.countP_shows {r : Reading} (h : s.Follows r) (spots : List Spot) :
    (spots.countP fun spot => shows s.withSpaces spot.token) = (spots.map Spot.placed).countP r.isShown := by
  rw [List.countP_map, h.mode_eq]
  rfl

theorem Follows.length_filter {r : Reading} (h : s.Follows r) (spots : List Spot) :
    ((spots.map Spot.placed).filter r.isShown).length = spots.countP fun spot => shows s.withSpaces spot.token := by
  rw [h.countP_shows, List.countP_eq_length_filter]

/-- The tokens that a stream leaves out are no braces. -/
theorem Reading.after_shown (r : Reading) (depth : Nat) (spots : List Spot) :
    Brackets.after '{' '}' depth (((spots.map Spot.placed).filter r.isShown).map Placed.token) =
      Brackets.after '{' '}' depth (spots.map Spot.token) := by
  have hbrace (c : Char) : shows (0 < r.guards) (.delimiter c) := Bool.or_true _
  have hmap : ((spots.map Spot.placed).filter r.isShown).map Placed.token =
      (spots.map Spot.token).filter (shows (0 < r.guards)) := by
    rw [List.filter_map, List.filter_map, List.map_map]
    rfl
  rw [hmap, Brackets.after_filter (hbrace _) (hbrace _)]

theorem Reaches.skipScope_eq {depth : Nat} (h : s.Reaches doc first last (front ++ rest))
    (hafter : Brackets.after '{' '}' 1 (front.map Spot.token) = some depth) :
    s.skipScope = (s.past front).skipBlocks depth := by
  obtain ⟨r, hfollows, hleft, -⟩ := h.exists_reading
  have hshown : r.shown = (front.map Spot.placed).filter r.isShown ++ (rest.map Spot.placed).filter r.isShown := by
    rw [Reading.shown, hleft, List.map_append, List.filter_append]
  rw [← r.after_shown] at hafter
  have hcount := (hfollows.skipBlocks_eq hshown hafter).1
  rwa [hfollows.length_filter] at hcount

theorem Reaches.skipScope_closed {block : List Spot} {closing : Spot}
    (h : s.Reaches doc first last (block ++ closing :: rest)) (hclose : closing.token = .delimiter '}')
    (hafter : Brackets.after '{' '}' 1 (block.map Spot.token) = some 1) :
    s.skipScope = (true, s.past (block ++ [closing])) ∧
      (s.past (block ++ [closing])).Reaches doc first last rest ∧
      (s.past (block ++ [closing])).current = some closing.line := by
  obtain ⟨r, hfollows, hleft, hreaches⟩ := h.exists_reading
  rw [List.map_append, List.map_cons] at hleft
  have hshows : r.isShown closing.placed := by
    rw [Reading.isShown, Spot.placed, hclose]
    exact Bool.or_true _
  have hshown : r.shown = (block.map Spot.placed).filter r.isShown ++
      closing.placed :: (rest.map Spot.placed).filter r.isShown := by
    rw [Reading.shown, hleft, List.filter_append, List.filter_cons_of_pos hshows]
  have hpast : s.past (block ++ [closing]) =
      s.performAll (List.replicate (((block.map Spot.placed).filter r.isShown).length + 1) .read) := by
    rw [past, hfollows.countP_shows, List.map_append, List.countP_append, List.countP_eq_length_filter]
    simp [hshows]
  rw [← r.after_shown] at hafter
  obtain ⟨hskip, hcurrent⟩ := hfollows.skipBlocks_closed closing.placed hclose hshown hafter
  refine ⟨by rw [hpast]; exact hskip, ?_, by rw [hpast]; exact hcurrent⟩
  rw [past, hfollows.countP_shows, List.map_append]
  exact hreaches _ _ (congrArg Reading.left (Reading.performAll_through hleft hshows))

theorem Reaches.skipScope_open {depth : Nat} (h : s.Reaches doc first last left)
    (hafter : Brackets.after '{' '}' 1 (left.map Spot.token) = some depth) :
    s.skipScope = (false, (s.past left).next.2) ∧ (s.past left).next.2.Reaches doc first last [] := by
  obtain ⟨r, hfollows, hleft, hreaches⟩ := h.exists_reading
  have hshown : r.shown = (left.map Spot.placed).filter r.isShown := by rw [Reading.shown, hleft]
  rw [← r.after_shown, ← hshown] at hafter
  obtain ⟨hskip, hended⟩ := hfollows.skipBlocks_open hafter
  have hpast : (s.past left).next.2 = s.performAll (List.replicate (r.shown.length + 1) .read) := by
    rw [performAll_replicate_succ, hshown, hfollows.length_filter, past]
  rw [hpast]
  exact ⟨hskip, hreaches _ [] hended⟩

end Reaches

end Stream

namespace Locator

theorem counts_block {frame : Frame} (keyword : Token) :
    Brackets.Counts '{' '}' (step frame) Placed.token fun depth s => s = .block keyword depth where
  opened := by
    rintro depth _ placed rfl hopen
    rw [step, if_pos hopen]
  closed := by
    rintro depth _ placed rfl hclose hdepth
    rw [step, if_neg (by simp [hclose]), if_pos hclose, if_neg hdepth]
  other := by
    rintro depth _ placed rfl hopen hclose
    rw [step, if_neg hopen, if_neg hclose]

end Locator

namespace Draft

/-- A body is left at the brace that closes it, and nothing is read behind it. -/
theorem stage_foldl_feed_closed {d : Draft} {block : List Token} (hd : d.stage = .body 1)
    (h : Brackets.after '{' '}' 1 block = some 1) (rest : List Token) :
    ((block ++ .delimiter '}' :: rest).foldl feed d).stage = .done := by
  have hbody := stage_foldl_feed hd h
  have hdone : ((block.foldl feed d).feed (.delimiter '}')).stage = .done := by simp [feed, hbody]
  rw [List.foldl_append, List.foldl_cons, foldl_feed_done hdone, hdone]

end Draft

namespace Statement

/-- The search for the end of a body goes on from the depth to which it has counted. -/
theorem closeBody_append {depth depth' : Nat} {front : List Located}
    (h : Brackets.after '{' '}' depth (front.map Located.token) = some depth') (more : List Located) :
    closeBody depth (front ++ more) = closeBody depth' more := by
  induction front generalizing depth with
  | nil =>
    obtain rfl := Option.some.inj h
    rfl
  | cons located front ih =>
    rw [List.cons_append, closeBody]
    rcases Brackets.after_cons_eq_some h with ⟨hopen, h⟩ | ⟨-, hclose, hdepth, h⟩ | ⟨hopen, hclose, h⟩
    · rw [if_pos hopen, ih h]
    · rw [if_neg (by simp [hclose]), if_pos hclose, if_neg hdepth, ih h]
    · rw [if_neg hopen, if_neg hclose, ih h]

/-- The search for a body passes over tokens whose braces and semicolons stand inside parentheses. -/
theorem findBody_append {p : Parens} {head : List Located} (h : p.guards (head.map Located.token))
    (more : List Located) :
    findBody p.depth (head ++ more) = findBody (p.after (head.map Located.token)).depth more := by
  induction head generalizing p with
  | nil => rfl
  | cons located head ih =>
    have hplain : ¬ (p.depth = 0 ∧ (located.token = .delimiter '{' ∨ located.token = .delimiter ';')) := by
      rintro ⟨hdepth, htoken⟩
      simp [Parens.guards_cons_of_end hdepth htoken] at h
    rw [List.map_cons, Parens.guards_cons hplain] at h
    rw [List.cons_append, findBody_cons, if_neg fun hopen => hplain ⟨hopen.1, .inl hopen.2⟩,
      if_neg fun hsemi => hplain ⟨hsemi.1, .inr hsemi.2⟩, ih h]
    rfl

end Statement

/-- What is read without the spaces. -/
def unspaced (spots : List Spot) : List Placed := withoutSpaces (spots.map Spot.placed)

theorem unspaced_append (spots more : List Spot) : unspaced (spots ++ more) = unspaced spots ++ unspaced more := by
  rw [unspaced, List.map_append, withoutSpaces, List.filter_append]
  rfl

theorem unspaced_cons {spot : Spot} {c : Char} (h : spot.token = .delimiter c) (spots : List Spot) :
    unspaced (spot :: spots) = spot.placed :: unspaced spots := by
  rw [unspaced, List.map_cons, withoutSpaces, List.filter_cons_of_pos]
  · rfl
  · rw [Spot.placed, h]
    rfl

theorem after_unspaced (depth : Nat) (spots : List Spot) :
    Brackets.after '{' '}' depth ((unspaced spots).map Placed.token) =
      Brackets.after '{' '}' depth (spots.map Spot.token) := by
  have hmap : (unspaced spots).map Placed.token = (spots.map Spot.token).filter fun t => !t.isSpace := by
    rw [unspaced, withoutSpaces, List.filter_map, List.filter_map, List.map_map]
    rfl
  rw [hmap, Brackets.after_filter rfl rfl]

theorem after_locatedSpots (depth : Nat) (spots : List Spot) :
    Brackets.after '{' '}' depth ((locatedSpots spots).map Located.token) =
      Brackets.after '{' '}' depth (spots.map Spot.token) := by
  rw [map_token_locatedSpots, Brackets.after_filter_isSolid]

namespace Document

/-- An opening brace among the code tokens of some lines of a document. -/
structure Opening (doc : Document) (first last : Nat) where
  before : List Spot
  brace : Spot
  after : List Spot
  spots_eq : doc.spots first last = before ++ brace :: after
  brace_eq : brace.token = .delimiter '{'

namespace Opening

variable {doc : Document} {first last : Nat}

/-- The brace that closes the block: the tokens through it are the shortest front part of those behind the
opening brace that closes one brace more than it opens. -/
structure Closes (o : doc.Opening first last) (inner : List Spot) (closing : Spot) (rest : List Spot) : Prop where
  after_eq : o.after = inner ++ closing :: rest
  surplus : Braces.Surplus ((inner ++ [closing]).map Spot.token)
  shortest : ∀ front, front <+: o.after → Braces.Surplus (front.map Spot.token) → inner.length < front.length

/-- The locator that reads the whole document enters a namespace of this name at the brace. -/
def OpensNamespace (o : doc.Opening first last) (name : Text) : Prop :=
  first = 0 ∧ doc.lineCount ≤ last + 1 ∧
    (unspaced (o.before ++ [o.brace])).foldl (Locator.step ⟨.namespaceScope, name⟩) (.outside none) = .inside 1

/-- The body of the declaration at the first line starts at the brace: it stands outside parentheses, and every
brace and semicolon before it inside. -/
def StartsBody (o : doc.Opening first last) : Prop :=
  doc.lineCount ≤ last + 1 ∧ Parens.guards {} (o.before.map Spot.token) ∧
    (Parens.after {} (o.before.map Spot.token)).depth = 0

/-- All that look for the closing brace have counted to the same depth. Each of them started behind the opening
brace with one block open and has read a front part of the tokens there. -/
structure CountTo (o : doc.Opening first last) (front : List Spot) (depth : Nat) : Prop where
  /-- No counter stands at zero, so none is ever lowered below it. -/
  pos : 1 ≤ depth
  count_eq : depth + (front.map Spot.token).count (.delimiter '}') =
    1 + (front.map Spot.token).count (.delimiter '{')
  stream : ∀ s : Stream, s.Reaches doc first last o.after → s.skipScope = (s.past front).skipBlocks depth
  resolver : ∀ s : Resolver.State, s.mode = .block 1 →
    (unspaced front).foldl Resolver.State.step s = { s with mode := .block depth }
  block : ∀ frame keyword, (unspaced front).foldl (Locator.step frame) (.block keyword 1) = .block keyword depth
  scope : ∀ frame, (unspaced front).foldl (Locator.step frame) (.inside 1) = .inside depth
  reader : ∀ d : Draft, d.stage = .body 1 → ((front.map Spot.token).foldl Draft.feed d).stage = .body depth
  body : ∀ more, Statement.closeBody 1 (locatedSpots front ++ more) = Statement.closeBody depth more

/-- All of them stop at one brace. -/
structure StopAt (o : doc.Opening first last) (inner : List Spot) (closing : Spot) (rest : List Spot) : Prop where
  closing_eq : closing.token = .delimiter '}'
  /-- The stream is left just behind the brace. -/
  stream : ∀ s : Stream, s.Reaches doc first last o.after →
    s.skipScope = (true, s.past (inner ++ [closing])) ∧ s.skipScope.2.Reaches doc first last rest ∧
      s.skipScope.2.current = some closing.line
  resolver : ∀ s : Resolver.State, s.mode = .block 1 →
    (unspaced (inner ++ [closing])).foldl Resolver.State.step s = { s with mode := .items }
  block : ∀ frame keyword,
    (unspaced (inner ++ [closing])).foldl (Locator.step frame) (.block keyword 1) = .outside (some keyword)
  scope : ∀ name, ((unspaced o.after).foldl (Locator.step ⟨.namespaceScope, name⟩) (.inside 1)).boundary =
    .ends closing.line.stop
  boundary : ∀ name, o.OpensNamespace name → doc.boundary ⟨.namespaceScope, name⟩ = .ends closing.line.stop
  /-- The body of a declaration is read through the brace, and it is not left before. -/
  reader : ∀ (d : Draft) (front : List Spot), d.stage = .body 1 → front <+: o.after →
    (((front.map Spot.token).foldl Draft.feed d).stage = .done ↔ inner ++ [closing] <+: front)
  body : Statement.closeBody 1 (locatedSpots o.after) = some (closing.offset + 1)
  bodyRange : o.StartsBody → doc.bodyRange first = some (o.brace.offset, closing.offset + 1)

/-- None of them stops before the tokens end. -/
structure Unclosed (o : doc.Opening first last) : Prop where
  stream : ∀ s : Stream, s.Reaches doc first last o.after →
    s.skipScope = (false, (s.past o.after).next.2) ∧ s.skipScope.2.Reaches doc first last []
  scope : ∀ name, ((unspaced o.after).foldl (Locator.step ⟨.namespaceScope, name⟩) (.inside 1)).boundary = .unclosed
  boundary : ∀ name, o.OpensNamespace name → doc.boundary ⟨.namespaceScope, name⟩ = .unclosed
  reader : ∀ (d : Draft) (front : List Spot), d.stage = .body 1 → front <+: o.after →
    ((front.map Spot.token).foldl Draft.feed d).stage ≠ .done
  body : Statement.closeBody 1 (locatedSpots o.after) = none
  bodyRange : o.StartsBody → doc.bodyRange first = none

variable {o : doc.Opening first last} {front inner rest : List Spot} {closing : Spot} {depth : Nat}

theorem closes_iff : o.Closes inner closing rest ↔ o.after = inner ++ closing :: rest ∧
    closing.token = .delimiter '}' ∧ Brackets.after '{' '}' 1 (inner.map Spot.token) = some 1 := by
  constructor
  · rintro ⟨hafter, hsurplus, hshortest⟩
    have hnone : ∀ front, front <+: inner.map Spot.token → ¬ Braces.Surplus front := by
      intro front hfront hmore
      obtain ⟨part, hpart, rfl⟩ := List.prefix_map_iff.mp hfront
      have hlong := hshortest part (hafter ▸ hpart.trans (List.prefix_append _ _)) hmore
      have hshort := hpart.length_le
      omega
    have hle := Braces.count_le_of_not_surplus hnone
    rw [Braces.Surplus, List.map_append, List.map_singleton, List.count_append, List.count_append] at hsurplus
    -- Without a surplus before it, the last token has to be the one that brings it about.
    have hclose : closing.token = .delimiter '}' := by
      have hmem : 0 < [closing.token].count (.delimiter '}') := by omega
      exact (List.mem_singleton.mp (List.count_pos_iff.mp hmem)).symm
    rw [hclose] at hsurplus
    refine ⟨hafter, hclose, Braces.after_one_eq_some_iff.mpr ⟨hnone, ?_⟩⟩
    simp at hsurplus
    omega
  · rintro ⟨hafter, hclose, hinner⟩
    obtain ⟨hnone, hcount⟩ := Braces.after_one_eq_some_iff.mp hinner
    refine ⟨hafter, ?_, fun front hfront hsurplus => ?_⟩
    · rw [Braces.Surplus, List.map_append, List.map_singleton, hclose, List.count_append, List.count_append]
      simp
      omega
    · by_contra hshort
      have hpart : front <+: inner :=
        List.prefix_of_prefix_length_le hfront (hafter ▸ List.prefix_append _ _) (Nat.le_of_not_lt hshort)
      exact hnone _ (hpart.map _) hsurplus

/-- Nothing closes the block exactly if the counter reads all the tokens. -/
theorem not_exists_closes_iff : (¬ ∃ inner closing rest, o.Closes inner closing rest) ↔
    ∃ depth, Brackets.after '{' '}' 1 (o.after.map Spot.token) = some depth := by
  constructor
  · intro h
    cases hafter : Brackets.after '{' '}' 1 (o.after.map Spot.token) with
    | some depth => exact ⟨depth, rfl⟩
    | none =>
      obtain ⟨block, more, hmap, hblock⟩ := Brackets.exists_closing_of_after hafter
      obtain ⟨inner, back, hsplit, rfl, hback⟩ := List.map_eq_append_iff.mp hmap
      obtain ⟨closing, rest, rfl, hclose, -⟩ := List.map_eq_cons_iff.mp hback
      exact absurd ⟨inner, closing, rest, closes_iff.mpr ⟨hsplit, hclose, hblock⟩⟩ h
  · rintro ⟨depth, hdepth⟩ ⟨inner, closing, rest, hcloses⟩
    obtain ⟨hafter, hclose, hinner⟩ := closes_iff.mp hcloses
    rw [hafter, List.map_append, List.map_cons, hclose, Brackets.after_append, hinner, Option.bind_some,
      Brackets.after] at hdepth
    simp at hdepth

/-- A brace that closes the block still does when there is more to read. -/
theorem Closes.of_isPrefix {first' last' : Nat} {other : doc.Opening first' last'} (h : o.Closes inner closing rest)
    (hmore : o.after <+: other.after) : ∃ rest', other.Closes inner closing rest' := by
  obtain ⟨hafter, hclose, hinner⟩ := closes_iff.mp h
  obtain ⟨more, hmore⟩ := hmore
  rw [hafter, List.append_assoc, List.cons_append] at hmore
  exact ⟨rest ++ more, closes_iff.mpr ⟨hmore.symm, hclose, hinner⟩⟩

/-- In both whitespace modes there is a stream that stands just behind the brace. -/
theorem exists_reaches (o : doc.Opening first last) (withSpaces : Bool) :
    ∃ s : Stream, s.Reaches doc first last o.after ∧ s.withSpaces = withSpaces := by
  have hcode : codeOfLines false (doc.between first last) =
      o.before.map Spot.placed ++ o.brace.placed :: o.after.map Spot.placed := by
    rw [← map_placed_spotsOfLines, ← List.map_cons, ← List.map_append, ← o.spots_eq]
    rfl
  -- The guard that makes the difference is opened before anything is read.
  have hreads (opened : List Stream.Action) (r : Stream.Reading)
      (hr : (Stream.Reading.ofDocument doc first last).performAll opened = r)
      (hleft : r.left = codeOfLines false (doc.between first last)) :
      ∃ s : Stream, s.Reaches doc first last o.after ∧ s.withSpaces = decide (0 < r.guards) := by
    have hshown : r.isShown o.brace.placed := by
      rw [Stream.Reading.isShown, Spot.placed, o.brace_eq]
      exact Bool.or_true _
    have hthrough := Stream.Reading.performAll_through (hleft.trans hcode) hshown
    rw [← hr, ← Stream.Reading.performAll_append, hr] at hthrough
    obtain ⟨actions, hactions⟩ : ∃ actions, (Stream.Reading.ofDocument doc first last).performAll actions =
        { r with left := o.after.map Spot.placed } := ⟨_, hthrough⟩
    have hstart : (Stream.ofDocument doc first last).Follows (.ofDocument doc first last) :=
      Stream.follows_ofLines _ _
    refine ⟨_, ⟨actions, rfl, congrArg Stream.Reading.left hactions⟩, ?_⟩
    rw [(hstart.performAll actions).mode_eq, hactions]
  cases withSpaces with
  | true => exact hreads [.openGuard] _ rfl rfl
  | false => exact hreads [] _ rfl rfl

theorem bodyRange_eq (h : o.StartsBody) :
    doc.bodyRange first = (Statement.closeBody 1 (locatedSpots o.after)).map (o.brace.offset, ·) := by
  obtain ⟨hlast, hguards, hdepth⟩ := h
  have hsolid : o.brace.token.isSolid := by
    rw [o.brace_eq]
    rfl
  have hspots : locateLines false (doc.linesFrom first) =
      locatedSpots o.before ++ o.brace.located :: locatedSpots o.after := by
    rw [← doc.between_of_lineCount_le first hlast, ← locatedSpots_spotsOfLines, ← locatedSpots_cons hsolid,
      ← locatedSpots_append, ← o.spots_eq]
    rfl
  rw [← Parens.guards_filter_isSolid, ← map_token_locatedSpots] at hguards
  rw [← Parens.after_filter_isSolid, ← map_token_locatedSpots] at hdepth
  have hfind := Statement.findBody_append hguards (o.brace.located :: locatedSpots o.after)
  rw [Statement.findBody_cons, if_pos ⟨hdepth, o.brace_eq⟩] at hfind
  rw [bodyRange, hspots]
  exact hfind

theorem boundary_eq {name : Text} (h : o.OpensNamespace name) : doc.boundary ⟨.namespaceScope, name⟩ =
    ((unspaced o.after).foldl (Locator.step ⟨.namespaceScope, name⟩) (.inside 1)).boundary := by
  obtain ⟨rfl, hlast, hinside⟩ := h
  have hspots : withoutSpaces (codeOfLines false doc.lines) =
      unspaced (o.before ++ [o.brace]) ++ unspaced o.after := by
    have hlines : doc.between 0 last = doc.lines := doc.between_of_lineCount_le 0 hlast
    rw [← hlines, ← map_placed_spotsOfLines, ← unspaced_append, List.append_assoc, List.singleton_append,
      ← o.spots_eq]
    rfl
  rw [boundary, hspots, List.foldl_append, hinside]

theorem countTo_of_after (hfront : front <+: o.after)
    (h : Brackets.after '{' '}' 1 (front.map Spot.token) = some depth) : o.CountTo front depth where
  pos := Brackets.pos_of_after (le_refl 1) h
  count_eq := (Braces.after_one_eq_some_iff.mp h).2
  stream := by
    intro s hs
    obtain ⟨rest, hrest⟩ := hfront
    rw [← hrest] at hs
    exact hs.skipScope_eq h
  resolver := by
    intro s hs
    exact Resolver.block_foldl hs (by rw [after_unspaced, h])
  block := by
    intro frame keyword
    exact (Locator.counts_block keyword).foldl rfl (by rw [after_unspaced, h])
  scope := by
    intro frame
    exact Locator.inside_foldl (by rw [after_unspaced, h])
  reader := by
    intro d hd
    exact Draft.stage_foldl_feed hd h
  body := by
    intro more
    exact Statement.closeBody_append (by rw [after_locatedSpots, h]) more

/-- A body is not left as long as the braces of the tokens leave it open. -/
theorem stage_ne_done {d : Draft} {spots : List Spot} (h : Brackets.after '{' '}' 1 (spots.map Spot.token) = some depth)
    (hd : d.stage = .body 1) (hfront : front <+: spots) :
    ((front.map Spot.token).foldl Draft.feed d).stage ≠ .done := by
  obtain ⟨rest, rfl⟩ := hfront
  rw [List.map_append, Brackets.after_append] at h
  obtain ⟨between, hbetween, -⟩ := Option.bind_eq_some_iff.mp h
  rw [Draft.stage_foldl_feed hd hbetween]
  simp

theorem stopAt_of_closes (h : o.Closes inner closing rest) : o.StopAt inner closing rest := by
  obtain ⟨hafter, hclose, hinner⟩ := closes_iff.mp h
  -- Every reader counts the inner braces back to one, so each proof is about the closing brace alone.
  have hcount : o.CountTo inner 1 := countTo_of_after (hafter ▸ List.prefix_append _ _) hinner
  have hscope (name : Text) : ((unspaced o.after).foldl (Locator.step ⟨.namespaceScope, name⟩) (.inside 1)).boundary =
      .ends closing.line.stop := by
    have hdone : Locator.step ⟨.namespaceScope, name⟩ (.inside 1) closing.placed = .done closing.line.stop := by
      simp [Locator.step, Spot.placed, hclose, ScopeKind.needsTerminator]
    rw [hafter, unspaced_append, unspaced_cons hclose, List.foldl_append, hcount.scope, List.foldl_cons, hdone,
      Locator.done_foldl, Locator.State.boundary]
  have hbody : Statement.closeBody 1 (locatedSpots o.after) = some (closing.offset + 1) := by
    have hsolid : closing.token.isSolid := by
      rw [hclose]
      rfl
    rw [hafter, locatedSpots_append, locatedSpots_cons hsolid, hcount.body, Statement.closeBody,
      if_neg (by simp [Spot.located, hclose]), if_pos (by rw [Spot.located, hclose]), if_pos rfl]
    rfl
  constructor
  case closing_eq => exact hclose
  case stream =>
    intro s hs
    rw [hafter] at hs
    obtain ⟨hskip, hreaches, hcurrent⟩ := hs.skipScope_closed hclose hinner
    rw [hskip]
    exact ⟨rfl, hreaches, hcurrent⟩
  case resolver =>
    intro s hs
    rw [unspaced_append, unspaced_cons hclose, List.foldl_append, hcount.resolver s hs]
    simp [Resolver.State.step, Spot.placed, hclose, unspaced, withoutSpaces]
  case block =>
    intro frame keyword
    rw [unspaced_append, unspaced_cons hclose, List.foldl_append, hcount.block]
    simp [Locator.step, Spot.placed, hclose, unspaced, withoutSpaces]
  case scope => exact hscope
  case boundary =>
    intro name hname
    rw [boundary_eq hname, hscope]
  case reader =>
    intro d front hd hfront
    constructor
    · intro hdone
      -- A front part that stops before the closing brace leaves the body open.
      by_contra hshort
      have hthrough : inner ++ [closing] <+: o.after := ⟨rest, by simp [hafter]⟩
      have hpart := (List.prefix_or_prefix_of_prefix hfront hthrough).resolve_right hshort
      rcases List.prefix_concat_iff.mp hpart with rfl | hpart
      · exact hshort (List.prefix_refl _)
      · exact stage_ne_done hinner hd hpart hdone
    · rintro ⟨more, rfl⟩
      rw [List.append_assoc, List.map_append, List.singleton_append, List.map_cons, hclose]
      exact Draft.stage_foldl_feed_closed hd hinner _
  case body => exact hbody
  case bodyRange =>
    intro hstarts
    rw [bodyRange_eq hstarts, hbody]
    rfl

theorem unclosed_of_after (h : Brackets.after '{' '}' 1 (o.after.map Spot.token) = some depth) : o.Unclosed := by
  have hcount : o.CountTo o.after depth := countTo_of_after (List.prefix_refl _) h
  have hscope (name : Text) : ((unspaced o.after).foldl (Locator.step ⟨.namespaceScope, name⟩) (.inside 1)).boundary =
      .unclosed := by
    rw [hcount.scope, Locator.State.boundary]
  have hbody : Statement.closeBody 1 (locatedSpots o.after) = none := by
    rw [← List.append_nil (locatedSpots o.after), hcount.body, Statement.closeBody]
  constructor
  case stream =>
    intro s hs
    obtain ⟨hskip, hreaches⟩ := hs.skipScope_open h
    rw [hskip]
    exact ⟨rfl, hreaches⟩
  case scope => exact hscope
  case boundary =>
    intro name hname
    rw [boundary_eq hname, hscope]
  case reader =>
    intro d front hd hfront
    exact stage_ne_done h hd hfront
  case body => exact hbody
  case bodyRange =>
    intro hstarts
    rw [bodyRange_eq hstarts, hbody]
    rfl

/-- At every opening brace all that look for the closing one count alike, never below one, and stop at the same
brace if there is one; if there is none, they all read to the end. Streams can stand behind the brace in both
whitespace modes. Wherever else reading starts, and however much further it goes, it finds the same tokens behind
the brace, and the same brace closes the block. -/
theorem matchers_agree (o : doc.Opening first last) :
    (∀ withSpaces, ∃ s : Stream, s.Reaches doc first last o.after ∧ s.withSpaces = withSpaces) ∧
    (∀ front, front <+: o.after → (∀ part, part <+: front → ¬ Braces.Surplus (part.map Spot.token)) →
      ∃ depth, o.CountTo front depth) ∧
    (∀ inner closing rest, o.Closes inner closing rest → o.StopAt inner closing rest) ∧
    ((¬ ∃ inner closing rest, o.Closes inner closing rest) → o.Unclosed) ∧
    ∀ first' last' (other : doc.Opening first' last'), last ≤ last' → other.brace.offset = o.brace.offset →
      other.brace = o.brace ∧ o.after <+: other.after ∧
        ∀ inner closing rest, o.Closes inner closing rest → ∃ rest', other.Closes inner closing rest' := by
  refine ⟨o.exists_reaches, fun front hfront hnone => ?_, fun inner closing rest => stopAt_of_closes,
    fun hopen => ?_, ?_⟩
  · have hmap : ∀ part, part <+: front.map Spot.token → ¬ Braces.Surplus part := by
      intro tokens htokens
      obtain ⟨part, hpart, rfl⟩ := List.prefix_map_iff.mp htokens
      exact hnone part hpart
    have hle := Braces.count_le_of_not_surplus hmap
    obtain ⟨depth, hdepth⟩ := Nat.exists_eq_add_of_le' (Nat.le_add_left_of_le hle : _ ≤ 1 + _)
    exact ⟨depth, countTo_of_after hfront (Braces.after_one_eq_some_iff.mpr ⟨hmap, hdepth.symm⟩)⟩
  · obtain ⟨depth, hdepth⟩ := not_exists_closes_iff.mp hopen
    exact unclosed_of_after hdepth
  · intro first' last' other hlast hoffset
    obtain ⟨hbrace, hmore⟩ :=
      spots_behind rfl hlast o.spots_eq o.brace_eq other.spots_eq other.brace_eq hoffset
    exact ⟨hbrace, hmore, fun inner closing rest hcloses => hcloses.of_isPrefix hmore⟩

/-- Braces in parentheses, in literals and in comments, a block inside a body, and the ends of the body and of the
namespace around it on one line. -/
def nestedDocument : Document :=
  ⟨"namespace N \x7b\r\nT f(T t=\x7b\x7d) \x7b //\x7d\n'\x7d'; /*\n\x7d*/ \x7b\x7d\n\x7d \x7d h;".toList⟩

def nestedLine : Nat → Line
  | 0 => ⟨1, 0, "namespace N \x7b".toList, .crlf⟩
  | 1 => ⟨2, 15, "T f(T t=\x7b\x7d) \x7b //\x7d".toList, .lf⟩
  | _ => ⟨5, 48, "\x7d \x7d h;".toList, .none⟩

/-- The opening brace at an index. -/
def ofIndex (k : Nat) (brace : Spot) (h : (doc.spots first last)[k]? = some brace)
    (hbrace : brace.token = .delimiter '{') : doc.Opening first last where
  before := (doc.spots first last).take k
  brace := brace
  after := (doc.spots first last).drop (k + 1)
  spots_eq := by
    obtain ⟨hlt, rfl⟩ := List.getElem?_eq_some_iff.mp h
    rw [← List.drop_eq_getElem_cons hlt, List.take_append_drop]
  brace_eq := hbrace

/-- The brace of the namespace, read from the first line on. -/
def nestedScope : nestedDocument.Opening 0 4 :=
  ofIndex 4 ⟨.delimiter '{', nestedLine 0, 12⟩ (by decide +kernel) rfl

/-- The brace of the body, read from its own line on. -/
def nestedBody : nestedDocument.Opening 1 4 :=
  ofIndex 12 ⟨.delimiter '{', nestedLine 1, 27⟩ (by decide +kernel) rfl

/-- The same brace, read through a line before the end of the body. -/
def nestedStart : nestedDocument.Opening 1 3 :=
  ofIndex 12 ⟨.delimiter '{', nestedLine 1, 27⟩ (by decide +kernel) rfl

theorem matchers_agree_nestedDocument :
    nestedDocument.bodyRange 1 = some (27, 49) ∧
    nestedDocument.boundary ⟨.namespaceScope, ['N']⟩ = .ends 54 ∧
    (∃ s : Stream, s.Reaches nestedDocument 1 4 nestedBody.after ∧ s.withSpaces ∧ s.skipScope.1 = true ∧
      s.skipScope.2.current = some (nestedLine 4)) ∧
    (∃ s : Stream, s.Reaches nestedDocument 1 3 nestedStart.after ∧ s.skipScope.1 = false) ∧
    nestedStart.after <+: nestedBody.after := by
  have hbody : nestedBody.Closes _ ⟨.delimiter '}', nestedLine 4, 48⟩ _ :=
    closes_iff.mpr ⟨show _ = nestedBody.after.take 9 ++ _ :: nestedBody.after.drop 10 by decide +kernel, rfl,
      by decide +kernel⟩
  have hscope : nestedScope.Closes _ ⟨.delimiter '}', nestedLine 4, 50⟩ _ :=
    closes_iff.mpr ⟨show _ = nestedScope.after.take 25 ++ _ :: nestedScope.after.drop 26 by decide +kernel, rfl,
      by decide +kernel⟩
  obtain ⟨hreaches, -, hbodyStops, -⟩ := matchers_agree nestedBody
  obtain ⟨-, -, hscopeStops, -⟩ := matchers_agree nestedScope
  obtain ⟨hreachesStart, -, -, hopen, hsame⟩ := matchers_agree nestedStart
  have hunclosed := hopen (not_exists_closes_iff.mpr ⟨1, by decide +kernel⟩)
  obtain ⟨s, hs, hspaces⟩ := hreaches true
  obtain ⟨t, ht, -⟩ := hreachesStart false
  obtain ⟨hskip, -, hcurrent⟩ := (hbodyStops _ _ _ hbody).stream s hs
  refine ⟨(hbodyStops _ _ _ hbody).bodyRange ?_, (hscopeStops _ _ _ hscope).boundary ['N'] ?_,
    ⟨s, hs, hspaces, by rw [hskip], hcurrent⟩, ⟨t, ht, by rw [(hunclosed.stream t ht).1]⟩,
    (hsame 1 4 nestedBody (by decide) rfl).2.1⟩
  · exact ⟨by decide +kernel, by decide +kernel, by decide +kernel⟩
  · exact ⟨rfl, by decide +kernel, by decide +kernel⟩

end Opening
end Document
end OutOfLine

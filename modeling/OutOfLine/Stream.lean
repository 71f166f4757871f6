import OutOfLine.Code

/-! A stream yields code tokens one at a time and lexes a line only when the tokens of the line
before have run out. Spaces are yielded while a whitespace guard is open. -/

namespace OutOfLine

/-- What is left to read. Guards are held innermost first, each with the mode before it. -/
structure Stream where
  /-- Tokens of the current line not read yet. -/
  pending : List Token
  /-- Lines not lexed yet. -/
  upcoming : List Line
  /-- Whether the upcoming lines start inside a block comment. -/
  inComment : Bool
  withSpaces : Bool
  guards : List Bool
  /-- The line lexed last. -/
  current : Option Line
  /-- Whether the lines are those of a document. -/
  anchored : Bool

namespace Stream

def ofLines (lines : List Line) (anchored : Bool) : Stream :=
  { pending := [], upcoming := lines, inComment := false, withSpaces := false, guards := [],
    current := none, anchored }

/-- A stream over the lines of a document from one index through another. -/
def ofDocument (doc : Document) (first last : Nat) : Stream := ofLines (doc.between first last) true

/-- A stream over one text. -/
def ofText (text : Text) : Stream := ofLines [⟨1, 0, text, .none⟩] false

/-- Finds the first token to yield among the tokens of a line, reading from inside a block comment
or not. Without one, tells whether the tokens end inside a block comment. -/
def scan (withSpaces inside : Bool) : List Token → Option (Token × List Token) × Bool
  | [] => (none, inside)
  | t :: ts =>
    if inside then scan withSpaces (t != .commentClose) ts
    else match t with
      | .commentOpen => scan withSpaces true ts
      | .lineComment _ => scan withSpaces false ts
      | .space _ => if withSpaces then (some (t, ts), false) else scan withSpaces false ts
      | _ => (some (t, ts), false)

/-- Lexes lines until one of them has a token to yield. -/
def refill (s : Stream) (inside : Bool) : List Line → Option Token × Stream
  | [] => (none, { s with pending := [], upcoming := [] })
  | line :: rest =>
    let lexed := line.tokens s.inComment
    let s := { s with inComment := lexed.2, current := some line }
    match scan s.withSpaces inside lexed.1 with
    | (some (t, pending), _) => (some t, { s with pending, upcoming := rest })
    | (none, inside) => refill s inside rest

/-- Yields the next code token, or nothing at the end. -/
def next (s : Stream) : Option Token × Stream :=
  match scan s.withSpaces false s.pending with
  | (some (t, pending), _) => (some t, { s with pending })
  | (none, inside) => s.refill inside s.upcoming

/-- Opens a whitespace guard: spaces are yielded until it is closed. -/
def openGuard (s : Stream) : Stream :=
  { s with withSpaces := true, guards := s.withSpaces :: s.guards }

/-- Closes the innermost guard, which brings back the mode before it. -/
def closeGuard? (s : Stream) : Option Stream :=
  match s.guards with
  | [] => none
  | mode :: guards => some { s with withSpaces := mode, guards }

/-- The number of the line that the last token came from. -/
def lineNumber? (s : Stream) : Option Nat :=
  if s.anchored then s.current.map Line.number else none

/-- The end of the content of the current line, 0 before the first line. Only a document has such
offsets. -/
def point? (s : Stream) : Option Nat :=
  if s.anchored then some (s.current.elim 0 Line.stop) else none

/-- A bound on the number of tokens of some lines. -/
def bound (lines : List Line) : Nat := lines.foldr (fun line rest => line.content.length + 1 + rest) 0

theorem bound_cons (line : Line) (lines : List Line) :
    bound (line :: lines) = line.content.length + 1 + bound lines := rfl

/-- A bound on the number of tokens still to come. -/
def remaining (s : Stream) : Nat := s.pending.length + bound s.upcoming

theorem length_lineTokens_le (inComment : Bool) (line : Line) :
    (line.tokens inComment).1.length ≤ line.content.length + 1 := by
  have h := length_tokenize_le inComment line.content
  simp only [Line.tokens]
  split
  · omega
  · simp; omega

theorem scan_length_lt {withSpaces inside : Bool} {tokens rest : List Token} {t : Token} {b : Bool}
    (h : scan withSpaces inside tokens = (some (t, rest), b)) : rest.length < tokens.length := by
  induction tokens generalizing inside with
  | nil => simp [scan] at h
  | cons x xs ih =>
    simp only [scan] at h
    split at h
    · exact Nat.lt_succ_of_lt (ih h)
    · split at h
      · exact Nat.lt_succ_of_lt (ih h)
      · exact Nat.lt_succ_of_lt (ih h)
      · split at h
        · simp at h; simp [h]
        · exact Nat.lt_succ_of_lt (ih h)
      · simp at h; simp [h]

theorem refill_remaining_lt {s s' : Stream} {inside : Bool} {lines : List Line} {t : Token}
    (h : s.refill inside lines = (some t, s')) :
    s'.remaining < bound lines := by
  induction lines generalizing s inside with
  | nil => simp [refill] at h
  | cons line rest ih =>
    simp only [refill] at h
    split at h
    · next hscan =>
      have hlt := scan_length_lt hscan
      have hle := length_lineTokens_le s.inComment line
      simp only [Prod.mk.injEq] at h
      simp only [← h.2, remaining, bound_cons]
      omega
    · have := ih h
      rw [bound_cons]
      omega

/-- Every token yielded leaves less to read. -/
theorem next_remaining_lt {s s' : Stream} {t : Token} (h : s.next = (some t, s')) :
    s'.remaining < s.remaining := by
  simp only [next] at h
  split at h
  · next hscan =>
    have hlt := scan_length_lt hscan
    simp only [Prod.mk.injEq] at h
    simp only [← h.2, remaining]
    omega
  · have := refill_remaining_lt h
    simp only [remaining] at this ⊢
    omega

/-- Reads all that is left. -/
def collect (s : Stream) : List Token × Stream :=
  match _h : s.next with
  | (none, s') => ([], s')
  | (some t, s') =>
    let rest := collect s'
    (t :: rest.1, rest.2)
termination_by s.remaining
decreasing_by exact next_remaining_lt _h

/-- Reads through the first token whose text includes `marker`; a literal never does. -/
def skipTo (marker : Text) (s : Stream) : Option Token × Stream :=
  match _h : s.next with
  | (none, s') => (none, s')
  | (some t, s') =>
    if !t.isLiteral && marker.includes t.text then (some t, s') else skipTo marker s'
termination_by s.remaining
decreasing_by exact next_remaining_lt _h

/-- Reads through the brace that closes the outermost of `depth` open blocks, and tells whether
there is one. -/
def skipBlocks (depth : Nat) (s : Stream) : Bool × Stream :=
  match _h : s.next with
  | (none, s') => (false, s')
  | (some t, s') =>
    if t = .delimiter '{' then skipBlocks (depth + 1) s'
    else if t = .delimiter '}' then if depth = 1 then (true, s') else skipBlocks (depth - 1) s'
    else skipBlocks depth s'
termination_by s.remaining
decreasing_by all_goals exact next_remaining_lt _h

/-- Reads the rest of a block whose opening brace was read last, and tells whether it ends. -/
def skipScope (s : Stream) : Bool × Stream := s.skipBlocks 1

end Stream

end OutOfLine

import OutOfLine.Proofs.StreamTokens

/-!
# Reading under whitespace guards

Guards are opened and closed between reads, while some tokens of a line are already held and later lines are
not lexed yet. This only decides which spaces are passed over: every read goes on in one list of code tokens,
behind the token that the last read returned, and reports the line of the token that it returns.
-/

namespace OutOfLine

namespace Stream

/-- What can be done with a stream. -/
inductive Action where
  | read
  | openGuard
  | closeGuard
  deriving DecidableEq

/-- The stream after an action. Where no guard is open there is none to close. -/
def perform (s : Stream) : Action → Stream
  | .read => s.next.2
  | .openGuard => s.openGuard
  | .closeGuard => s.closeGuard?.getD s

def performAll (s : Stream) (actions : List Action) : Stream := actions.foldl perform s

/-- A place in a list of code tokens: those behind the token returned last, of which none are left once a read
found nothing, and the number of open guards. -/
structure Reading where
  left : List Placed
  guards : Nat

namespace Reading

/-- The tokens from the one on that a read returns: the very next one if a guard is open, the next one that is
not a space otherwise. -/
def ahead (r : Reading) : List Placed :=
  if 0 < r.guards then r.left else r.left.dropWhile fun placed => placed.token.isSpace

/-- What a read returns. -/
def next? (r : Reading) : Option Placed := r.ahead.head?

def perform (r : Reading) : Action → Reading
  | .read => { r with left := r.ahead.tail }
  | .openGuard => { r with guards := r.guards + 1 }
  | .closeGuard => { r with guards := r.guards - 1 }

def performAll (r : Reading) (actions : List Action) : Reading := actions.foldl perform r

variable {r : Reading}

theorem performAll_append (actions more : List Action) :
    r.performAll (actions ++ more) = (r.performAll actions).performAll more := List.foldl_append

theorem ahead_eq_nil (h : ∀ placed ∈ r.left, shows (0 < r.guards) placed.token = false) : r.ahead = [] := by
  rw [ahead]
  split
  · next hopen =>
    refine List.eq_nil_iff_forall_not_mem.mpr fun placed hplaced => ?_
    simpa [shows, hopen] using h placed hplaced
  · next hclosed => simpa [shows, hclosed] using h

theorem ahead_append {skipped left : List Placed} {placed : Placed} (hleft : r.left = skipped ++ placed :: left)
    (hskipped : ∀ other ∈ skipped, shows (0 < r.guards) other.token = false)
    (hplaced : shows (0 < r.guards) placed.token) : r.ahead = placed :: left := by
  rw [ahead, hleft]
  split
  · next hopen =>
    obtain rfl : skipped = [] := by
      refine List.eq_nil_iff_forall_not_mem.mpr fun other hother => ?_
      simpa [shows, hopen] using hskipped other hother
    rfl
  · next hclosed =>
    have hspaces : ∀ other ∈ skipped, other.token.isSpace := by simpa [shows, hclosed] using hskipped
    rw [List.dropWhile_append_of_pos hspaces, List.dropWhile_cons_of_neg]
    simpa [shows, hclosed] using hplaced

/-- Nothing is left behind the end. -/
theorem left_performAll_nil (h : r.left = []) (actions : List Action) : (r.performAll actions).left = [] := by
  induction actions generalizing r with
  | nil => exact h
  | cons action actions ih =>
    refine ih (r := r.perform action) ?_
    cases action with
    | read => simp [perform, ahead, h]
    | openGuard => exact h
    | closeGuard => exact h

end Reading

/-- The number of open guards after some actions that start with `n` open guards and close open guards only. -/
def guardsAfter : Nat → List Action → Option Nat
  | n, [] => some n
  | n, .read :: actions => guardsAfter n actions
  | n, .openGuard :: actions => guardsAfter (n + 1) actions
  | n + 1, .closeGuard :: actions => guardsAfter n actions
  | 0, .closeGuard :: _ => none

/-- The guards that are open before some actions and are not closed by them do not matter. -/
theorem Reading.guards_performAll {r : Reading} {n m : Nat} {actions : List Action} (h : guardsAfter n actions = some m)
    (hn : n ≤ r.guards) : (r.performAll actions).guards + n = r.guards + m := by
  fun_induction guardsAfter n actions generalizing r with
  | case1 n =>
    obtain rfl := Option.some.inj h
    rfl
  | case2 n actions ih => exact ih (r := r.perform .read) h hn
  | case3 n actions ih =>
    have hrest := ih (r := r.perform .openGuard) h (Nat.succ_le_succ hn)
    rw [performAll, List.foldl_cons, ← performAll]
    simp only [perform] at hrest ⊢
    omega
  | case4 n actions ih =>
    have hrest := ih (r := r.perform .closeGuard) h (Nat.le_sub_one_of_lt hn)
    rw [performAll, List.foldl_cons, ← performAll]
    simp only [perform] at hrest ⊢
    omega
  | case5 => simp at h

/-- The modes that a number of open guards bring back, the innermost first. -/
def modes : Nat → List Bool
  | 0 => []
  | n + 1 => decide (0 < n) :: modes n

/-- The stream is at a place in a list of code tokens. -/
structure Follows (s : Stream) (r : Reading) : Prop where
  left_eq : s.left = r.left.map fun placed => (placed.token, some placed.line)
  synced_or_ended : s.Synced ∨ s.pending = [] ∧ s.upcoming = []
  mode_eq : s.withSpaces = decide (0 < r.guards)
  guards_eq : s.guards = modes r.guards

variable {s : Stream} {r : Reading}

theorem left_of_ended (h : s.pending = [] ∧ s.upcoming = []) : s.left = [] := by
  rw [left, h.1, h.2]
  rfl

theorem Follows.consumes (h : s.Follows r) : s.Consumes s.left s.next := by
  rcases h.synced_or_ended with hsynced | hended
  · exact consumes_next hsynced
  · rw [left_of_ended hended, next, hended.1, hended.2]
    exact ⟨by simp, ⟨rfl, rfl⟩, rfl, rfl, rfl⟩

theorem Consumes.anchored_eq {tokens : List (Token × Option Line)} {result : Option Token × Stream}
    (h : s.Consumes tokens result) : result.2.anchored = s.anchored := by
  match result, h with
  | (none, _), ⟨_, _, _, _, hanchored⟩ => exact hanchored
  | (some _, _), ⟨_, _, _, _, hanchored⟩ => exact hanchored

/-- A read returns the next token of the list in the mode of the stream, and the stream stands on its line. -/
theorem Follows.read (h : s.Follows r) :
    s.next.1 = r.next?.map Placed.token ∧
      (∀ placed, r.next? = some placed → s.next.2.current = some placed.line) ∧
      s.next.2.Follows (r.perform .read) := by
  have hconsumes := h.consumes
  rw [Reading.next?, Reading.perform]
  cases hnext : s.next with
  | mk found s' =>
    rw [hnext, h.left_eq] at hconsumes
    cases found with
    | none =>
      obtain ⟨hleft, hended, hmode, hguards, -⟩ := hconsumes
      have hahead : r.ahead = [] := by
        refine Reading.ahead_eq_nil fun placed hplaced => ?_
        rw [← h.mode_eq]
        exact hleft _ (List.mem_map_of_mem hplaced)
      rw [hahead]
      exact ⟨rfl, by simp, left_of_ended hended, .inr hended, hmode.trans h.mode_eq, hguards.trans h.guards_eq⟩
    | some t =>
      obtain ⟨⟨skipped, hleft, hskipped, ht⟩, hsynced, hmode, hguards, -⟩ := hconsumes
      obtain ⟨front, back, hr, rfl, hback⟩ := List.map_eq_append_iff.mp hleft
      obtain ⟨placed, rest, rfl, hplaced, hrest⟩ := List.map_eq_cons_iff.mp hback
      obtain ⟨rfl, hline⟩ := Prod.mk.inj hplaced
      have hahead : r.ahead = placed :: rest := by
        rw [h.mode_eq] at hskipped ht
        exact Reading.ahead_append hr (by simpa using hskipped) ht
      rw [hahead]
      refine ⟨rfl, fun other hother => ?_, hrest.symm, .inl hsynced, hmode.trans h.mode_eq, hguards.trans h.guards_eq⟩
      obtain rfl := Option.some.inj hother
      exact hline.symm

theorem Follows.perform (h : s.Follows r) (action : Action) : (s.perform action).Follows (r.perform action) := by
  cases action with
  | read => exact h.read.2.2
  | openGuard =>
    refine ⟨h.left_eq, h.synced_or_ended, ?_, ?_⟩
    · simp [Stream.perform, openGuard, Reading.perform]
    · change s.withSpaces :: s.guards = modes (r.guards + 1)
      rw [h.mode_eq, h.guards_eq, modes]
  | closeGuard =>
    cases hcount : r.guards with
    | zero =>
      have hguards : s.guards = [] := by rw [h.guards_eq, hcount, modes]
      have hsame : r.perform .closeGuard = r := by rw [Reading.perform, show r.guards - 1 = r.guards by omega]
      rw [hsame, Stream.perform, closeGuard?, hguards]
      exact h
    | succ n =>
      have hguards : s.guards = decide (0 < n) :: modes n := by rw [h.guards_eq, hcount, modes]
      rw [Stream.perform, closeGuard?, hguards, Reading.perform, hcount]
      exact ⟨h.left_eq, h.synced_or_ended, rfl, rfl⟩

theorem Follows.performAll (h : s.Follows r) (actions : List Action) :
    (s.performAll actions).Follows (r.performAll actions) := by
  induction actions generalizing s r with
  | nil => exact h
  | cons action actions ih => exact ih (h.perform action)

theorem Follows.anchored_performAll (h : s.Follows r) (actions : List Action) :
    (s.performAll actions).anchored = s.anchored := by
  induction actions generalizing s r with
  | nil => rfl
  | cons action actions ih =>
    refine (ih (h.perform action)).trans ?_
    cases action with
    | read => exact h.consumes.anchored_eq
    | openGuard => rfl
    | closeGuard =>
      rw [Stream.perform, closeGuard?]
      split <;> rfl

theorem follows_ofLines (lines : List Line) (anchored : Bool) :
    (ofLines lines anchored).Follows ⟨codeOfLines false lines, 0⟩ :=
  ⟨rfl, .inl rfl, rfl, rfl⟩

/-- Whatever is done with a stream, it yields the tokens of one list in order, and the guards only decide which
spaces it leaves out. -/
structure Lists (s : Stream) (listed : List Placed) : Prop where
  /-- The list is what the stream yields under a guard. -/
  collect_eq : s.openGuard.collect.1 = listed.map Placed.token
  /-- A read returns the next token of the list, or the next that is not a space if no guard is open. -/
  read_eq : ∀ actions, (s.performAll actions).next.1 =
    ((Reading.mk listed 0).performAll actions).next?.map Placed.token
  /-- The line reported behind a token is its own. -/
  line_eq : ∀ actions placed, ((Reading.mk listed 0).performAll actions).next? = some placed →
    (s.performAll actions).next.2.current = some placed.line ∧
      (s.performAll actions).next.2.lineNumber? = s.numberOf? placed.line
  /-- Behind the end there is nothing. -/
  ended : ∀ actions more, (s.performAll actions).next.1 = none →
    (s.performAll (actions ++ .read :: more)).next.1 = none
  /-- Spaces are yielded while a guard is open. -/
  mode_eq : ∀ actions, (s.performAll actions).withSpaces =
    decide (0 < ((Reading.mk listed 0).performAll actions).guards)
  /-- Closing a guard brings back the mode in which it was opened. -/
  restored : ∀ actions inner, guardsAfter 0 inner = some 0 →
    (s.performAll (actions ++ .openGuard :: inner ++ [.closeGuard])).withSpaces = (s.performAll actions).withSpaces

theorem lists_ofLines (lines : List Line) (anchored : Bool) :
    (ofLines lines anchored).Lists (codeOfLines false lines) := by
  have hstart := follows_ofLines lines anchored
  have hfollows := hstart.performAll
  refine ⟨?_, fun actions => (hfollows actions).read.1, ?_, ?_, fun actions => (hfollows actions).mode_eq, ?_⟩
  · exact (collect_ofLines lines anchored true).trans (List.filter_eq_self.mpr fun _ _ => rfl)
  · intro actions placed hplaced
    have hcurrent := (hfollows actions).read.2.1 placed hplaced
    have hanchored := (hfollows actions).consumes.anchored_eq.trans (hstart.anchored_performAll actions)
    refine ⟨hcurrent, ?_⟩
    rw [lineNumber?, hcurrent, hanchored, Option.map_some, numberOf?]
  · intro actions more hnone
    rw [(hfollows actions).read.1, Option.map_eq_none_iff, Reading.next?, List.head?_eq_none_iff] at hnone
    have hleft := Reading.left_performAll_nil (r := ((Reading.mk _ 0).performAll actions).perform .read)
      (by rw [Reading.perform, hnone, List.tail_nil]) more
    rw [(hfollows _).read.1, Reading.performAll_append, Reading.performAll, List.foldl_cons, ← Reading.performAll,
      Reading.next?, Reading.ahead, hleft]
    split <;> rfl
  · intro actions inner hinner
    have hguards := Reading.guards_performAll
      (r := ((Reading.mk (codeOfLines false lines) 0).performAll actions).perform .openGuard) hinner (Nat.zero_le _)
    rw [(hfollows _).mode_eq, (hfollows actions).mode_eq, List.append_assoc, List.cons_append,
      Reading.performAll_append, Reading.performAll, List.foldl_cons, ← Reading.performAll, Reading.performAll_append]
    congr 2
    simp only [Reading.performAll, Reading.perform, List.foldl_cons, List.foldl_nil] at hguards ⊢
    omega

/-- The streams over lines of a document and over a text yield the code tokens of those lines and of that text,
whenever guards are opened and closed between the reads. -/
theorem lists_codeTokens :
    (∀ doc first last, (ofDocument doc first last).Lists (codeOfLines false (doc.between first last))) ∧
    ∀ text, (ofText text).Lists (text.code.map fun t => ⟨t, ⟨1, 0, text, .none⟩⟩) := by
  refine ⟨fun doc first last => lists_ofLines _ _, fun text => ?_⟩
  have hlists := lists_ofLines [⟨1, 0, text, .none⟩] false
  rw [codeOfLines, codeOfLines, List.append_nil] at hlists
  exact hlists

/-- A comment from one line to the next between spaces, and spaces at the end. -/
def spacedDocument : Document := ⟨"a /* x\n y */ b\r\n c ".toList⟩

theorem lists_spacedDocument :
    (((ofDocument spacedDocument 0 2).performAll [.read, .openGuard, .read]).next.1 = some (.space ' ') ∧
      ((ofDocument spacedDocument 0 2).performAll [.read, .openGuard, .read]).next.2.lineNumber? = some 2) ∧
    ((ofDocument spacedDocument 0 2).performAll [.read, .openGuard, .read, .closeGuard]).next.1 =
      some (.word ['b']) ∧
    ((ofDocument spacedDocument 0 2).performAll [.read, .read, .read]).next.1 = none ∧
    ((ofDocument spacedDocument 0 2).performAll [.read, .read, .read, .read, .openGuard]).next.1 = none := by
  obtain ⟨-, hread, hline, hended, -, -⟩ := lists_codeTokens.1 spacedDocument 0 2
  have hnone : ((ofDocument spacedDocument 0 2).performAll [.read, .read, .read]).next.1 = none :=
    (hread _).trans (by decide +kernel)
  refine ⟨⟨(hread _).trans (by decide +kernel), ?_⟩, (hread _).trans (by decide +kernel), hnone,
    hended _ [.openGuard] hnone⟩
  exact (hline _ ⟨.space ' ', ⟨2, 7, " y */ b".toList, .crlf⟩⟩ (by decide +kernel)).2

end Stream
end OutOfLine

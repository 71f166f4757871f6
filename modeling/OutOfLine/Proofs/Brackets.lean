import Mathlib.Data.List.Induction
import OutOfLine.Token

/-!
# Balanced brackets

Brackets of one kind are counted from an opener on. Tokens that close what they open leave the count as it
was, whatever stands around them. Counting is the same as comparing the numbers of openers and closers in every
front part.
-/

namespace OutOfLine
namespace Brackets

/-- How many brackets of a kind are open after some tokens that start inside `depth` of them; nothing
once the outermost one is closed. -/
def after (opener closer : Char) : Nat → List Token → Option Nat
  | depth, [] => some depth
  | depth, t :: ts =>
    if t = .delimiter opener then after opener closer (depth + 1) ts
    else if t = .delimiter closer then
      if depth = 1 then none else after opener closer (depth - 1) ts
    else after opener closer depth ts

/-- Every bracket of the kind is closed, and none that was not opened. -/
def Balanced (opener closer : Char) (ts : List Token) : Prop := after opener closer 1 ts = some 1

instance (opener closer : Char) (ts : List Token) : Decidable (Balanced opener closer ts) :=
  inferInstanceAs (Decidable (_ = _))

variable {opener closer : Char} {depth depth' : Nat} {ts us : List Token}

/-- A counter that reads on has counted a bracket up or down or left a token that is none. -/
theorem after_cons_eq_some {t : Token} (h : after opener closer depth (t :: ts) = some depth') :
    (t = .delimiter opener ∧ after opener closer (depth + 1) ts = some depth') ∨
    (t ≠ .delimiter opener ∧ t = .delimiter closer ∧ depth ≠ 1 ∧
      after opener closer (depth - 1) ts = some depth') ∨
    (t ≠ .delimiter opener ∧ t ≠ .delimiter closer ∧ after opener closer depth ts = some depth') := by
  rw [after] at h
  split at h
  · next hopen => exact .inl ⟨hopen, h⟩
  · next hopen =>
    split at h
    · next hclose =>
      split at h
      · simp at h
      · next hdepth => exact .inr (.inl ⟨hopen, hclose, hdepth, h⟩)
    · next hclose => exact .inr (.inr ⟨hopen, hclose, h⟩)

theorem after_append (depth : Nat) (ts us : List Token) :
    after opener closer depth (ts ++ us) =
      (after opener closer depth ts).bind (after opener closer · us) := by
  induction ts generalizing depth with
  | nil => rfl
  | cons t ts ih =>
    rw [List.cons_append, after, after, ih, ih, ih]
    split
    · rfl
    · split
      · split <;> rfl
      · rfl

/-- Tokens that are no brackets of the kind do not matter. -/
theorem after_filter {p : Token → Bool} (hopen : p (.delimiter opener)) (hclose : p (.delimiter closer))
    (depth : Nat) (ts : List Token) : after opener closer depth (ts.filter p) = after opener closer depth ts := by
  induction ts generalizing depth with
  | nil => rfl
  | cons t ts ih =>
    by_cases ht : p t
    · rw [List.filter_cons_of_pos ht, after, after, ih, ih, ih]
    · have hne : t ≠ .delimiter opener := by rintro rfl; exact ht hopen
      have hne' : t ≠ .delimiter closer := by rintro rfl; exact ht hclose
      rw [List.filter_cons_of_neg ht, ih, after, if_neg hne, if_neg hne']

/-- A counter that stops has come to the bracket that closes the last open one. -/
theorem exists_closing_of_after (h : after opener closer depth ts = none) :
    ∃ block rest, ts = block ++ .delimiter closer :: rest ∧ after opener closer depth block = some 1 := by
  induction ts using List.reverseRecOn with
  | nil => simp [after] at h
  | append_singleton ts t ih =>
    cases hts : after opener closer depth ts with
    | none =>
      obtain ⟨block, rest, rfl, hblock⟩ := ih hts
      exact ⟨block, rest ++ [t], by simp, hblock⟩
    | some between =>
      rw [after_append, hts, Option.bind_some, after] at h
      split at h
      · simp [after] at h
      · split at h
        · next hclose =>
          split at h
          · next hone => exact ⟨ts, [], by rw [hclose], by rw [hts, hone]⟩
          · simp [after] at h
        · simp [after] at h

/-- A reader that counts brackets: `At depth` holds of it while `depth` of them are open, until the outermost one
is closed. -/
structure Counts (opener closer : Char) {σ α : Type} (step : σ → α → σ) (token : α → Token)
    (At : Nat → σ → Prop) : Prop where
  opened : ∀ {depth s x}, At depth s → token x = .delimiter opener → At (depth + 1) (step s x)
  closed : ∀ {depth s x}, At depth s → token x = .delimiter closer → depth ≠ 1 → At (depth - 1) (step s x)
  other : ∀ {depth s x}, At depth s → token x ≠ .delimiter opener → token x ≠ .delimiter closer →
    At depth (step s x)

theorem Counts.foldl {σ α : Type} {step : σ → α → σ} {token : α → Token} {At : Nat → σ → Prop}
    (h : Counts opener closer step token At) {s : σ} {xs : List α} (hs : At depth s)
    (hafter : after opener closer depth (xs.map token) = some depth') : At depth' (xs.foldl step s) := by
  induction xs generalizing depth s with
  | nil =>
    obtain rfl := Option.some.inj hafter
    exact hs
  | cons x xs ih =>
    rcases after_cons_eq_some hafter with ⟨hopen, hrest⟩ | ⟨-, hclose, hdepth, hrest⟩ | ⟨hopen, hclose, hrest⟩
    · exact ih (h.opened hs hopen) hrest
    · exact ih (h.closed hs hclose hdepth) hrest
    · exact ih (h.other hs hopen hclose) hrest

theorem after_of_not_mem (hopen : .delimiter opener ∉ ts) (hclose : .delimiter closer ∉ ts) :
    after opener closer depth ts = some depth := by
  induction ts with
  | nil => rfl
  | cons t ts ih =>
    rw [List.mem_cons, not_or] at hopen hclose
    rw [after, if_neg (Ne.symm hopen.1), if_neg (Ne.symm hclose.1)]
    exact ih hopen.2 hclose.2

theorem pos_of_after (hpos : 1 ≤ depth) (h : after opener closer depth ts = some depth') : 1 ≤ depth' := by
  induction ts generalizing depth with
  | nil =>
    obtain rfl := Option.some.inj h
    exact hpos
  | cons t ts ih =>
    rcases after_cons_eq_some h with ⟨-, hrest⟩ | ⟨-, -, hdepth, hrest⟩ | ⟨-, -, hrest⟩
    · exact ih (by omega) hrest
    · exact ih (by omega) hrest
    · exact ih hpos hrest

/-- More brackets around some tokens do not change what these open and close. -/
theorem after_add (hpos : 1 ≤ depth) (h : after opener closer depth ts = some depth') (more : Nat) :
    after opener closer (depth + more) ts = some (depth' + more) := by
  induction ts generalizing depth with
  | nil =>
    obtain rfl := Option.some.inj h
    rfl
  | cons t ts ih =>
    rw [after]
    rcases after_cons_eq_some h with ⟨hopen, hrest⟩ | ⟨hopen, hclose, hdepth, hrest⟩ | ⟨hopen, hclose, hrest⟩
    · rw [if_pos hopen, Nat.add_right_comm]
      exact ih (by omega) hrest
    · rw [if_neg hopen, if_pos hclose, if_neg (by omega), show depth + more - 1 = depth - 1 + more by omega]
      exact ih (by omega) hrest
    · rw [if_neg hopen, if_neg hclose]
      exact ih hpos hrest

/-- Balanced tokens leave any number of open brackets as it is. -/
theorem Balanced.after_eq (h : Balanced opener closer ts) (hpos : 1 ≤ depth) :
    after opener closer depth ts = some depth := by
  have hadd := after_add (Nat.le_refl 1) h (depth - 1)
  rwa [show 1 + (depth - 1) = depth by omega] at hadd

/-- A part at the front of balanced tokens leaves the outermost bracket open. -/
theorem exists_after_of_append (h : Balanced opener closer (ts ++ us)) :
    ∃ depth, after opener closer 1 ts = some depth ∧ 1 ≤ depth := by
  rw [Balanced, after_append] at h
  obtain ⟨depth, hdepth, -⟩ := Option.bind_eq_some_iff.mp h
  exact ⟨depth, hdepth, pos_of_after (Nat.le_refl 1) hdepth⟩

theorem forall_prefix_cons_iff {P : List Token → Prop} {t : Token} :
    (∀ front, front <+: t :: ts → P front) ↔ P [] ∧ ∀ front, front <+: ts → P (t :: front) := by
  constructor
  · exact fun h => ⟨h [] List.nil_prefix, fun front hfront => h _ ((List.prefix_cons_inj t).mpr hfront)⟩
  · rintro ⟨hnil, hcons⟩ front hfront
    rcases List.prefix_cons_iff.mp hfront with rfl | ⟨rest, rfl, hrest⟩
    · exact hnil
    · exact hcons rest hrest

/-- Counting brackets in the front parts of some tokens. -/
theorem after_eq_some_iff (hne : opener ≠ closer) (hpos : 1 ≤ depth) :
    after opener closer depth ts = some depth' ↔
      (∀ front, front <+: ts →
        front.count (.delimiter closer) < depth + front.count (.delimiter opener)) ∧
      depth' + ts.count (.delimiter closer) = depth + ts.count (.delimiter opener) := by
  induction ts generalizing depth with
  | nil => simp [after]; omega
  | cons t ts ih =>
    -- A token that opens `up` brackets and closes `down` leads from one depth to the next.
    have hmore (next up down : Nat) (hnext : depth + up = next + down) (hpos' : 1 ≤ next)
        (hup : ∀ l, (t :: l).count (.delimiter opener) = l.count (.delimiter opener) + up)
        (hdown : ∀ l, (t :: l).count (.delimiter closer) = l.count (.delimiter closer) + down) :
        after opener closer next ts = some depth' ↔
          (∀ front, front <+: t :: ts →
            front.count (.delimiter closer) < depth + front.count (.delimiter opener)) ∧
          depth' + (t :: ts).count (.delimiter closer) = depth + (t :: ts).count (.delimiter opener) := by
      rw [ih hpos', forall_prefix_cons_iff, hup, hdown]
      simp only [hup, hdown, List.count_nil]
      constructor
      · rintro ⟨hfront, hcount⟩
        exact ⟨⟨by omega, fun front h => by have := hfront front h; omega⟩, by omega⟩
      · rintro ⟨⟨-, hfront⟩, hcount⟩
        exact ⟨fun front h => by have := hfront front h; omega, by omega⟩
    rw [after]
    by_cases hopen : t = .delimiter opener
    · subst hopen
      rw [if_pos rfl]
      exact hmore (depth + 1) 1 0 rfl (by omega) (by simp) (by simp [hne])
    · rw [if_neg hopen]
      by_cases hclose : t = .delimiter closer
      · subst hclose
        rw [if_pos rfl]
        split
        · next hd =>
          refine ⟨by simp, fun ⟨hfront, _⟩ => ?_⟩
          have hone := hfront [.delimiter closer] ⟨ts, rfl⟩
          simp [hd, hne.symm] at hone
        · exact hmore (depth - 1) 0 1 (by omega) (by omega) (by simp [hne.symm]) (by simp)
      · rw [if_neg hclose]
        exact hmore depth 0 0 rfl hpos (by simp [hopen]) (by simp [hclose])

theorem balanced_append_iff (h : Balanced opener closer us) :
    Balanced opener closer (ts ++ us) ↔ Balanced opener closer ts := by
  rw [Balanced, after_append, Balanced]
  cases hts : after opener closer 1 ts with
  | none => simp
  | some depth => rw [Option.bind_some, h.after_eq (pos_of_after (Nat.le_refl 1) hts)]

/-- Braces around balanced tokens. -/
theorem balanced_block (h : Balanced opener closer ts) (hne : opener ≠ closer) :
    Balanced opener closer (.delimiter opener :: (ts ++ [.delimiter closer])) := by
  rw [Balanced, after, if_pos rfl, after_append, h.after_eq (by omega)]
  simp [after, hne.symm]

/-- No front part has more closing than opening brackets, and there are as many of both. -/
def Matched (opener closer : Char) (ts : List Token) : Prop :=
  (∀ front, front <+: ts → front.count (.delimiter closer) ≤ front.count (.delimiter opener)) ∧
    ts.count (.delimiter opener) = ts.count (.delimiter closer)

theorem matched_iff_balanced (hne : opener ≠ closer) :
    Matched opener closer ts ↔ Balanced opener closer ts := by
  rw [Balanced, after_eq_some_iff hne (Nat.le_refl 1), Matched]
  refine and_congr (forall₂_congr fun front _ => by omega) (by omega)

/-- Tokens from an opener to its closer. -/
structure Encloses (opener closer : Char) (ts : List Token) : Prop where
  head_eq : ts.head? = some (.delimiter opener)
  last_eq : ts.getLast? = some (.delimiter closer)
  matched : Matched opener closer ts
  minimal : ∀ front, front <+: ts → front ≠ [] → Matched opener closer front → front = ts

theorem encloses_block (h : Balanced opener closer ts) (hne : opener ≠ closer) :
    Encloses opener closer (.delimiter opener :: (ts ++ [.delimiter closer])) where
  head_eq := rfl
  last_eq := by rw [← List.cons_append, List.getLast?_concat]
  matched := (matched_iff_balanced hne).mpr (balanced_block h hne)
  minimal := by
    intro front hfront hnil hmatched
    rcases List.prefix_cons_iff.mp hfront with rfl | ⟨inner, rfl, hinner⟩
    · exact absurd rfl hnil
    rcases List.prefix_concat_iff.mp hinner with rfl | hinner
    · rfl
    -- Before the last token the first one is open.
    have hopen := ((after_eq_some_iff hne (Nat.le_refl 1)).mp h).1 inner hinner
    have hcount := hmatched.2
    rw [List.count_cons_self, List.count_cons_of_ne (by simpa using hne)] at hcount
    omega

end Brackets
end OutOfLine

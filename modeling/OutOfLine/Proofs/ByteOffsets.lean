import OutOfLine.Text.Blank
import Mathlib.Data.List.TakeWhile

/-!
# Byte offsets and the parts of a text

A byte offset is a place of a text exactly when it is the length of a part at the front, so cuts and
slices are stated with appended parts. Trimming takes away blanks and nothing else.
-/

namespace OutOfLine
namespace Text

theorem byteLength_eq_zero {t : Text} : byteLength t = 0 ↔ t = [] := by
  cases t with
  | nil => simp
  | cons c cs =>
    have h := c.utf8Size_pos
    simp only [byteLength_cons, reduceCtorEq, iff_false]
    omega

theorem splitAtByte?_zero (t : Text) : splitAtByte? t 0 = some ([], t) := by
  cases t <;> rfl

@[simp] theorem splitAtByte?_append (a b : Text) :
    splitAtByte? (a ++ b) (byteLength a) = some (a, b) := by
  induction a with
  | nil => simpa using splitAtByte?_zero b
  | cons c cs ih =>
    have h := c.utf8Size_pos
    obtain ⟨n, hn⟩ : ∃ n, c.utf8Size + byteLength cs = n + 1 := ⟨_, (Nat.succ_pred (by omega)).symm⟩
    have hle : c.utf8Size ≤ n + 1 := by omega
    have hsub : n + 1 - c.utf8Size = byteLength cs := by omega
    simp only [List.cons_append, byteLength_cons, hn, splitAtByte?, hle, if_true, hsub, ih,
      Option.map_some]

theorem splitAtByte?_eq_some {t a b : Text} {n : Nat} (h : splitAtByte? t n = some (a, b)) :
    t = a ++ b ∧ byteLength a = n := by
  induction t generalizing n a b with
  | nil =>
    cases n with
    | zero => simp only [splitAtByte?, Option.some.injEq, Prod.mk.injEq] at h; simp [← h.1, ← h.2]
    | succ n => simp [splitAtByte?] at h
  | cons c cs ih =>
    cases n with
    | zero => simp only [splitAtByte?, Option.some.injEq, Prod.mk.injEq] at h; simp [← h.1, ← h.2]
    | succ n =>
      simp only [splitAtByte?] at h
      split at h
      · next hle =>
        obtain ⟨⟨a', b'⟩, hrest, heq⟩ := Option.map_eq_some_iff.mp h
        obtain ⟨rfl, rfl⟩ := Prod.mk.inj heq
        obtain ⟨hcs, hlen⟩ := ih hrest
        exact ⟨by simp [hcs], by simp only [byteLength_cons, hlen]; omega⟩
      · simp at h

/-- A cut at a byte offset gives the two parts that the offset separates, if it gives any. -/
theorem splitAtByte?_eq_some_iff {t a b : Text} {n : Nat} :
    splitAtByte? t n = some (a, b) ↔ t = a ++ b ∧ byteLength a = n := by
  constructor
  · exact splitAtByte?_eq_some
  · rintro ⟨rfl, rfl⟩
    exact splitAtByte?_append a b

theorem slice?_eq_some_iff {t part : Text} {start stop : Nat} :
    slice? t start stop = some part ↔
      ∃ a b, t = a ++ part ++ b ∧ byteLength a = start ∧ byteLength (a ++ part) = stop := by
  constructor
  · intro h
    simp only [slice?, Option.bind_eq_bind, Option.bind_eq_some_iff, Option.pure_def,
      Option.some.injEq] at h
    obtain ⟨⟨upTo, b⟩, hstop, ⟨a, _⟩, hstart, rfl⟩ := h
    obtain ⟨rfl, hb⟩ := splitAtByte?_eq_some hstop
    obtain ⟨rfl, ha⟩ := splitAtByte?_eq_some hstart
    exact ⟨a, b, rfl, ha, hb⟩
  · rintro ⟨a, b, rfl, rfl, rfl⟩
    simp only [slice?, splitAtByte?_append, Option.bind_eq_bind, Option.bind_some, Option.pure_def]

theorem slice?_append (a part b : Text) :
    slice? (a ++ part ++ b) (byteLength a) (byteLength a + byteLength part) = some part :=
  slice?_eq_some_iff.mpr ⟨a, b, rfl, rfl, byteLength_append a part⟩

/-- A block cut out of a text with its braces. -/
theorem slice?_block (a block b : Text) :
    slice? (a ++ '{' :: (block ++ '}' :: b)) (byteLength a) (byteLength a + (byteLength block + 2)) =
      some ('{' :: (block ++ ['}'])) := by
  have hsize : byteLength ('{' :: (block ++ ['}'])) = byteLength block + 2 := by
    have hbrace : ('{' : Char).utf8Size = 1 ∧ ('}' : Char).utf8Size = 1 := ⟨rfl, rfl⟩
    simp only [byteLength_cons, byteLength_append, byteLength_nil, hbrace]
    omega
  have hpart := slice?_append a ('{' :: (block ++ ['}'])) b
  rw [hsize] at hpart
  simpa using hpart

/-- Parts at the front of one text with the same number of bytes are the same. -/
theorem append_inj_of_byteLength {a b c d : Text} (h : a ++ b = c ++ d)
    (hlen : byteLength a = byteLength c) : a = c ∧ b = d := by
  have ha := splitAtByte?_append a b
  rw [h, hlen, splitAtByte?_append] at ha
  exact ⟨(congrArg Prod.fst (Option.some.inj ha)).symm, (congrArg Prod.snd (Option.some.inj ha)).symm⟩

/-- Trimming the end takes blanks away and leaves a text that does not end in one. -/
theorem exists_trimEnd (t : Text) :
    ∃ w, t = trimEnd t ++ w ∧ (∀ c ∈ w, isBlankChar c) ∧
      ∀ c, (trimEnd t).getLast? = some c → ¬ isBlankChar c := by
  refine ⟨(t.reverse.takeWhile isBlankChar).reverse, ?_, ?_, ?_⟩
  · have h := List.takeWhile_append_dropWhile (p := isBlankChar) (l := t.reverse)
    have h' := congrArg List.reverse h
    rw [List.reverse_append, List.reverse_reverse] at h'
    exact h'.symm
  · intro c hc
    exact List.mem_takeWhile_imp (List.mem_reverse.mp hc)
  · intro c hc
    rw [trimEnd, List.getLast?_reverse] at hc
    have h := List.head?_dropWhile_not isBlankChar t.reverse
    rw [hc] at h
    simpa using h

/-- Trimming does not reach into a text behind which something that is not blank stands. -/
theorem trimEnd_append_of_not_blank {a b : Text} {c : Char} (hb : c ∈ b) (hc : ¬ isBlankChar c) :
    trimEnd (a ++ b) = a ++ trimEnd b ∧ trimEnd b ≠ [] := by
  have hne : b.reverse.dropWhile isBlankChar ≠ [] := by
    intro h
    exact hc (List.dropWhile_eq_nil_iff.mp h c (List.mem_reverse.mpr hb))
  refine ⟨?_, by simpa [trimEnd] using hne⟩
  rw [trimEnd, List.reverse_append, List.dropWhile_append, if_neg (by simpa using hne),
    List.reverse_append, List.reverse_reverse, trimEnd]

theorem trim_blank_append {w : Text} (h : ∀ c ∈ w, isBlankChar c) (t : Text) :
    trim (w ++ t) = trim t := by
  rw [trim, trim, trimStart, trimStart, List.dropWhile_append_of_pos h]

theorem trim_append_blank {w : Text} (h : ∀ c ∈ w, isBlankChar c) (t : Text) :
    trim (t ++ w) = trim t := by
  have hw : ∀ c ∈ w.reverse, isBlankChar c := by simpa using h
  rw [trim, trim, trimStart, trimStart, List.dropWhile_append]
  split
  · next hempty => rw [List.isEmpty_iff.mp hempty, List.dropWhile_eq_nil_iff.mpr h]
  · rw [trimEnd, trimEnd, List.reverse_append, List.dropWhile_append_of_pos hw]

/-- A text is trimmed when it neither starts nor ends with a blank. -/
theorem trim_eq_self_iff {t : Text} : trim t = t ↔
    (∀ c, t.head? = some c → ¬ isBlankChar c) ∧ ∀ c, t.getLast? = some c → ¬ isBlankChar c := by
  constructor
  · intro h
    obtain ⟨w, hw, -, hlast⟩ := exists_trimEnd (trimStart t)
    rw [← trim, h] at hw hlast
    refine ⟨fun c hc => ?_, hlast⟩
    have hhead : (trimStart t).head? = some c := by rw [hw, List.head?_append, hc, Option.some_or]
    have hstart := List.head?_dropWhile_not isBlankChar t
    rw [← trimStart, hhead] at hstart
    simpa using hstart
  · rintro ⟨hhead, hlast⟩
    have hstart : trimStart t = t := by
      cases t with
      | nil => rfl
      | cons c t => exact List.dropWhile_cons_of_neg (hhead c rfl)
    have hreverse : t.reverse.dropWhile isBlankChar = t.reverse := by
      cases hrev : t.reverse with
      | nil => rfl
      | cons c r =>
        refine List.dropWhile_cons_of_neg (hlast c ?_)
        rw [← List.head?_reverse, hrev]
        rfl
    rw [trim, hstart, trimEnd, hreverse, List.reverse_reverse]

theorem exists_trim (t : Text) :
    ∃ w w', t = w ++ (t.trim ++ w') ∧ (∀ c ∈ w, isBlankChar c) ∧ ∀ c ∈ w', isBlankChar c := by
  obtain ⟨w', hw', hblank, -⟩ := exists_trimEnd t.trimStart
  refine ⟨t.takeWhile isBlankChar, w', ?_, fun c hc => List.mem_takeWhile_imp hc, hblank⟩
  rw [trim, ← hw']
  exact List.takeWhile_append_dropWhile.symm

theorem trim_trim (t : Text) : t.trim.trim = t.trim := by
  obtain ⟨w, w', ht, hw, hw'⟩ := exists_trim t
  have htrim := congrArg trim ht
  rw [trim_blank_append hw, trim_append_blank hw'] at htrim
  exact htrim.symm

theorem trim_subset (t : Text) : t.trim ⊆ t := by
  intro c hc
  obtain ⟨w, w', ht, -, -⟩ := exists_trim t
  rw [ht]
  exact List.mem_append_right _ (List.mem_append_left _ hc)

/-- The characters of a text that are not blank. -/
def ink (t : Text) : Text := t.filter fun c => !isBlankChar c

@[simp] theorem ink_nil : ink [] = [] := rfl

@[simp] theorem ink_append (a b : Text) : ink (a ++ b) = ink a ++ ink b := List.filter_append ..

theorem ink_eq_nil_iff {t : Text} : ink t = [] ↔ ∀ c ∈ t, isBlankChar c := by
  simp [ink]

@[simp] theorem ink_trimEnd (t : Text) : ink (trimEnd t) = ink t := by
  obtain ⟨w, hw, hblank, -⟩ := exists_trimEnd t
  conv => rhs; rw [hw]
  rw [ink_append, ink_eq_nil_iff.mpr hblank, List.append_nil]

@[simp] theorem ink_trim (t : Text) : ink (trim t) = ink t := by
  have hstart : t.takeWhile isBlankChar ++ trimStart t = t := List.takeWhile_append_dropWhile
  have hblank : ink (t.takeWhile isBlankChar) = [] :=
    ink_eq_nil_iff.mpr fun _ hc => List.mem_takeWhile_imp hc
  rw [trim, ink_trimEnd]
  conv => rhs; rw [← hstart]
  rw [ink_append, hblank, List.nil_append]

end Text
end OutOfLine

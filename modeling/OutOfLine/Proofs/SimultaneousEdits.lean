import OutOfLine.Proofs.PlanSafety

/-!
# Edits of one text

The edits of a text are applied one after the other, although the offsets of each refer to the text before all
of them. When their ranges lie apart, an edit changes nothing in front of its own range, so that going from the
last place to the first finds every other range where it was. The outcome is the text in which all ranges are
replaced at once, in whatever order the edits are listed.
-/

namespace OutOfLine

/-- An offset between two characters of a text, or at one of its ends. -/
def Text.IsBoundary (t : Text) (offset : Nat) : Prop :=
  ∃ before after, t = before ++ after ∧ before.byteLength = offset

instance (t : Text) (offset : Nat) : Decidable (t.IsBoundary offset) :=
  decidable_of_iff (t.splitAtByte? offset).isSome <| by
    rw [Option.isSome_iff_exists, Prod.exists]
    simp only [Text.splitAtByte?_eq_some_iff, Text.IsBoundary]

/-- A place at the front of a text is a place of every front part that reaches so far. -/
theorem Text.IsBoundary.of_append {a b : Text} {offset : Nat} (h : (a ++ b).IsBoundary offset)
    (hle : offset ≤ a.byteLength) : a.IsBoundary offset := by
  obtain ⟨before, after, heq, hlength⟩ := h
  rcases List.append_eq_append_iff.mp heq with ⟨more, hbefore, -⟩ | ⟨more, ha, -⟩
  · refine ⟨a, [], by simp, ?_⟩
    rw [hbefore, byteLength_append] at hlength
    omega
  · exact ⟨before, more, ha, hlength⟩

namespace Edit

/-- Both ends of the range are places of the text, and in order. -/
structure Fits (edit : Edit) (text : Text) : Prop where
  start_le_stop : edit.start ≤ edit.stop
  start_boundary : text.IsBoundary edit.start
  stop_boundary : text.IsBoundary edit.stop

instance (edit : Edit) (text : Text) : Decidable (edit.Fits text) :=
  decidable_of_iff (edit.start ≤ edit.stop ∧ text.IsBoundary edit.start ∧ text.IsBoundary edit.stop)
    ⟨fun ⟨hle, hstart, hstop⟩ => ⟨hle, hstart, hstop⟩, fun ⟨hle, hstart, hstop⟩ => ⟨hle, hstart, hstop⟩⟩

/-- Edits of one text with different starts, whose ranges have no character in common. -/
structure Apart (edits : List Edit) (text : Text) : Prop where
  fits : ∀ edit ∈ edits, edit.Fits text
  starts_nodup : (edits.map Edit.start).Nodup
  disjoint : ∀ edit ∈ edits, ∀ other ∈ edits, edit.start < other.start → edit.stop ≤ other.start

instance (edits : List Edit) (text : Text) : Decidable (Apart edits text) :=
  decidable_of_iff ((∀ edit ∈ edits, edit.Fits text) ∧ (edits.map Edit.start).Nodup ∧
      ∀ edit ∈ edits, ∀ other ∈ edits, edit.start < other.start → edit.stop ≤ other.start)
    ⟨fun ⟨hfits, hnodup, hdisjoint⟩ => ⟨hfits, hnodup, hdisjoint⟩,
      fun ⟨hfits, hnodup, hdisjoint⟩ => ⟨hfits, hnodup, hdisjoint⟩⟩

/-- Whether the character at an offset is one of those that the edit replaces. -/
def covers (edit : Edit) (offset : Nat) : Bool := edit.start ≤ offset && offset < edit.stop

/-- What is put in at an offset. -/
def insertedAt (edits : List Edit) (offset : Nat) : Text :=
  (edits.filter fun edit => edit.start = offset).flatMap replacement

/-- The text that starts at an offset, without the characters that are replaced and with what is put in behind
them. -/
def replaceFrom (edits : List Edit) (offset : Nat) : Text → Text
  | [] => []
  | c :: cs =>
    let next := offset + c.utf8Size
    (if edits.any (·.covers offset) then [] else [c]) ++ (insertedAt edits next ++ replaceFrom edits next cs)

/-- All ranges replaced at once. Every character is kept or dropped for its own offset in the text. -/
def replaceAll (edits : List Edit) (text : Text) : Text := insertedAt edits 0 ++ replaceFrom edits 0 text

@[simp] theorem insertedAt_cons (edit : Edit) (edits : List Edit) (offset : Nat) :
    insertedAt (edit :: edits) offset =
      (if edit.start = offset then edit.replacement else []) ++ insertedAt edits offset := by
  by_cases h : edit.start = offset
  · simp [insertedAt, h]
  · simp [insertedAt, h]

theorem insertedAt_of_ne {edits : List Edit} {offset : Nat} (h : ∀ edit ∈ edits, edit.start ≠ offset) :
    insertedAt edits offset = [] := by
  have hnone : edits.filter (fun edit => edit.start = offset) = [] := by
    apply List.filter_eq_nil_iff.mpr
    intro edit hedit
    simpa using h edit hedit
  rw [insertedAt, hnone, List.flatMap_nil]

theorem replaceFrom_append (edits : List Edit) (offset : Nat) (a b : Text) :
    replaceFrom edits offset (a ++ b) =
      replaceFrom edits offset a ++ replaceFrom edits (offset + a.byteLength) b := by
  induction a generalizing offset with
  | nil => simp [replaceFrom]
  | cons c a ih =>
    simp only [List.cons_append, replaceFrom, ih, Text.byteLength_cons, List.append_assoc, Nat.add_assoc]

/-- Behind all ranges the text stays as it is. -/
theorem replaceFrom_behind {edits : List Edit} {offset : Nat}
    (h : ∀ edit ∈ edits, edit.start ≤ offset ∧ edit.stop ≤ offset) (t : Text) :
    replaceFrom edits offset t = t := by
  induction t generalizing offset with
  | nil => rfl
  | cons c t ih =>
    have hsize := c.utf8Size_pos
    have hkept : edits.any (·.covers offset) = false := by
      apply List.any_eq_false.mpr
      intro edit hedit
      have hbefore := h edit hedit
      simp [covers]
      omega
    have hnone : insertedAt edits (offset + c.utf8Size) = [] := by
      apply insertedAt_of_ne
      intro edit hedit
      have hbefore := h edit hedit
      omega
    have hrest : replaceFrom edits (offset + c.utf8Size) t = t := by
      apply ih
      intro edit hedit
      have hbefore := h edit hedit
      omega
    simp [replaceFrom, hkept, hnone, hrest]

/-- The characters of the last range are dropped, and what stands behind them is kept. -/
theorem replaceFrom_range {edits : List Edit} {edit : Edit} {offset : Nat} {part : Text} (hedit : edit ∈ edits)
    (hstop : edit.stop = offset + part.byteLength)
    (h : ∀ other ∈ edits, other.start ≤ offset ∧ other.stop ≤ edit.stop) (hstart : edit.start ≤ offset)
    (after : Text) : replaceFrom edits offset (part ++ after) = after := by
  induction part generalizing offset with
  | nil =>
    apply replaceFrom_behind
    intro other hother
    have hbefore := h other hother
    rw [Text.byteLength_nil] at hstop
    omega
  | cons c part ih =>
    have hsize := c.utf8Size_pos
    rw [Text.byteLength_cons] at hstop
    have hdropped : edits.any (·.covers offset) := by
      apply List.any_eq_true.mpr
      refine ⟨edit, hedit, ?_⟩
      simp only [covers, Bool.and_eq_true, decide_eq_true_eq]
      omega
    have hnone : insertedAt edits (offset + c.utf8Size) = [] := by
      apply insertedAt_of_ne
      intro other hother
      have hbefore := h other hother
      omega
    have hrest : replaceFrom edits (offset + c.utf8Size) (part ++ after) = after := by
      apply ih
      · omega
      · intro other hother
        have hbefore := h other hother
        omega
      · omega
    simp [replaceFrom, hdropped, hnone, hrest]

/-- In front of the last range its edit has no part, and what it puts in comes last. -/
theorem insertedAt_append_replaceFrom {edit : Edit} {edits : List Edit} {offset : Nat} {before : Text}
    (hstart : edit.start = offset + before.byteLength) (hne : ∀ other ∈ edits, other.start ≠ edit.start) :
    insertedAt (edit :: edits) offset ++ replaceFrom (edit :: edits) offset before =
      insertedAt edits offset ++ replaceFrom edits offset before ++ edit.replacement := by
  induction before generalizing offset with
  | nil =>
    have hoffset : edit.start = offset := by simpa using hstart
    have hnone : insertedAt edits offset = [] := insertedAt_of_ne (by rwa [hoffset] at hne)
    simp [replaceFrom, hoffset, hnone]
  | cons c before ih =>
    have hsize := c.utf8Size_pos
    rw [Text.byteLength_cons] at hstart
    have hbehind : edit.start ≠ offset := by omega
    have huncovered : edit.covers offset = false := by
      simp [covers]
      omega
    have hnext : edit.start = offset + c.utf8Size + Text.byteLength before := by omega
    have hrest := ih hnext
    simp only [replaceFrom, List.any_cons, huncovered, Bool.false_or, hrest]
    simp [hbehind]

theorem Fits.exists_replaces {edit : Edit} {text : Text} (h : edit.Fits text) :
    ∃ before part after, edit.Replaces text before part after := by
  obtain ⟨upTo, after, htext, hstop⟩ := h.stop_boundary
  have hstart : upTo.IsBoundary edit.start := by
    apply Text.IsBoundary.of_append (b := after)
    · rw [← htext]
      exact h.start_boundary
    · rw [hstop]
      exact h.start_le_stop
  obtain ⟨before, part, hupTo, hlength⟩ := hstart
  exact ⟨before, part, after, by rw [htext, hupTo], hlength.symm, by rw [← hupTo, hstop]⟩

section Last

variable {edit : Edit} {edits : List Edit} {text before part after : Text}
  (h : Apart (edit :: edits) text) (hreplaces : edit.Replaces text before part after)
  (hlast : ∀ other ∈ edits, other.start < edit.start)
include h hreplaces hlast

/-- The other ranges lie in front of the last one. -/
theorem Apart.in_front : Apart edits before := by
  have hstop (other : Edit) (hother : other ∈ edits) : other.stop ≤ before.byteLength := by
    rw [← hreplaces.start_eq]
    exact h.disjoint other (List.mem_cons_of_mem _ hother) edit List.mem_cons_self (hlast other hother)
  refine ⟨fun other hother => ?_, ?_, ?_⟩
  · have hfits := h.fits other (List.mem_cons_of_mem _ hother)
    have hbound := hstop other hother
    have hle := hfits.start_le_stop
    rw [hreplaces.text_eq, List.append_assoc] at hfits
    exact ⟨hle, hfits.start_boundary.of_append (by omega), hfits.stop_boundary.of_append hbound⟩
  · exact (List.nodup_cons.mp h.starts_nodup).2
  · intro one hone other hother
    exact h.disjoint one (List.mem_cons_of_mem _ hone) other (List.mem_cons_of_mem _ hother)

/-- All ranges replaced at once are those in front of the last one and the last one. -/
theorem Apart.replaceAll_eq :
    replaceAll (edit :: edits) text = replaceAll edits before ++ edit.replacement ++ after := by
  have hstart := hreplaces.start_eq
  have hstop := hreplaces.stop_eq
  rw [Text.byteLength_append] at hstop
  have hzero : edit.start = 0 + before.byteLength := by omega
  have hfront := insertedAt_append_replaceFrom hzero fun other hother => Nat.ne_of_lt (hlast other hother)
  have hbound (other : Edit) (hother : other ∈ edit :: edits) :
      other.start ≤ edit.start ∧ other.stop ≤ edit.stop := by
    rcases List.mem_cons.mp hother with heq | hmem
    · simp [heq]
    · have hlt := hlast other hmem
      have hle := h.disjoint other hother edit List.mem_cons_self hlt
      omega
  have hback : replaceFrom (edit :: edits) (0 + before.byteLength) (part ++ after) = after := by
    apply replaceFrom_range List.mem_cons_self
    · omega
    · intro other hother
      have hother' := hbound other hother
      omega
    · omega
  rw [replaceAll, replaceAll, hreplaces.text_eq, List.append_assoc before, replaceFrom_append, hback,
    ← List.append_assoc, hfront]

end Last

/-- Applied from the last place to the first, edits that lie apart replace their ranges at once. What stands
behind the text is not touched. -/
theorem applyAll_eq_replaceAll {edits : List Edit} {text : Text}
    (hsorted : edits.Pairwise fun edit other => other.start < edit.start) (h : Apart edits text) (tail : Text) :
    applyAll edits (text ++ tail) = some (replaceAll edits text ++ tail) := by
  induction edits generalizing text tail with
  | nil =>
    have hsame : replaceAll [] text = text := replaceFrom_behind (by simp) text
    rw [hsame]
    rfl
  | cons edit edits ih =>
    rw [List.pairwise_cons] at hsorted
    obtain ⟨before, part, after, hreplaces⟩ := (h.fits edit List.mem_cons_self).exists_replaces
    have hstep : edit.applyTo (text ++ tail) = some (before ++ (edit.replacement ++ (after ++ tail))) := by
      have hlonger : edit.Replaces (text ++ tail) before part (after ++ tail) := by
        refine ⟨?_, hreplaces.start_eq, hreplaces.stop_eq⟩
        rw [hreplaces.text_eq, List.append_assoc]
      rw [hlonger.applyTo_eq, List.append_assoc]
    have hrest := ih hsorted.2 (h.in_front hreplaces hsorted.1) (edit.replacement ++ (after ++ tail))
    calc applyAll (edit :: edits) (text ++ tail)
        = (edit.applyTo (text ++ tail)).bind (applyAll edits) := rfl
      _ = some (replaceAll edits before ++ (edit.replacement ++ (after ++ tail))) := by
        rw [hstep, Option.bind_some, hrest]
      _ = some (replaceAll (edit :: edits) text ++ tail) := by
        rw [h.replaceAll_eq hreplaces hsorted.1, List.append_assoc, List.append_assoc]

theorem perm_insert (edit : Edit) (edits : List Edit) : (insert edit edits).Perm (edit :: edits) := by
  induction edits with
  | nil => exact .refl _
  | cons other edits ih =>
    rw [insert]
    split
    · exact .refl _
    · exact (ih.cons other).trans (.swap _ _ _)

theorem perm_sort (edits : List Edit) : (sort edits).Perm edits := by
  induction edits with
  | nil => exact .refl _
  | cons edit edits ih => exact (perm_insert edit _).trans (ih.cons edit)

theorem pairwise_insert {edits : List Edit} (edit : Edit)
    (h : edits.Pairwise fun edit other => other.start ≤ edit.start) :
    (insert edit edits).Pairwise fun edit other => other.start ≤ edit.start := by
  induction edits with
  | nil => simp [insert]
  | cons other edits ih =>
    obtain ⟨hother, hrest⟩ := List.pairwise_cons.mp h
    rw [insert]
    split
    · next hle =>
      apply List.pairwise_cons.mpr
      refine ⟨fun third hthird => ?_, h⟩
      rcases List.mem_cons.mp hthird with heq | hthird
      · rwa [heq]
      · exact (hother third hthird).trans hle
    · next hlt =>
      apply List.pairwise_cons.mpr
      refine ⟨fun third hthird => ?_, ih hrest⟩
      rcases List.mem_cons.mp ((perm_insert edit edits).mem_iff.mp hthird) with heq | hthird
      · rw [heq]
        omega
      · exact hother third hthird

theorem pairwise_sort (edits : List Edit) :
    (sort edits).Pairwise fun edit other => other.start ≤ edit.start := by
  induction edits with
  | nil => exact .nil
  | cons edit edits ih => exact pairwise_insert edit ih

/-- Edits with different starts are sorted by falling start, no two of them together. -/
theorem pairwise_sort_of_nodup {edits : List Edit} (h : (edits.map Edit.start).Nodup) :
    (sort edits).Pairwise fun edit other => other.start < edit.start := by
  have hnodup : ((sort edits).map Edit.start).Nodup := ((perm_sort edits).map _).nodup_iff.mpr h
  apply (pairwise_sort edits).imp₂ _ (List.pairwise_map.mp hnodup)
  intro edit other hle hne
  omega

theorem Apart.perm {edits others : List Edit} {text : Text} (h : Apart edits text) (hperm : others.Perm edits) :
    Apart others text where
  fits := fun edit hedit => h.fits edit (hperm.mem_iff.mp hedit)
  starts_nodup := (hperm.map _).nodup_iff.mpr h.starts_nodup
  disjoint := fun edit hedit other hother =>
    h.disjoint edit (hperm.mem_iff.mp hedit) other (hperm.mem_iff.mp hother)

/-- At most one edit puts something in at an offset, so the order of the edits does not matter. -/
theorem insertedAt_perm {edits others : List Edit} (h : (edits.map Edit.start).Nodup) (hperm : others.Perm edits)
    (offset : Nat) : insertedAt others offset = insertedAt edits offset := by
  induction hperm with
  | nil => rfl
  | cons edit _ ih =>
    rw [insertedAt_cons, insertedAt_cons, ih (List.nodup_cons.mp h).2]
  | swap edit other edits =>
    have hne : edit.start ≠ other.start := by
      intro heq
      simp [heq] at h
    by_cases hedit : edit.start = offset
    · simp [hedit, show other.start ≠ offset by omega]
    · simp [hedit]
  | trans hfirst hsecond ihfirst ihsecond =>
    rw [ihfirst ((hsecond.map _).nodup_iff.mpr h), ihsecond h]

theorem replaceAll_perm {edits others : List Edit} (h : (edits.map Edit.start).Nodup)
    (hperm : others.Perm edits) (text : Text) : replaceAll others text = replaceAll edits text := by
  have hfrom (offset : Nat) : replaceFrom others offset text = replaceFrom edits offset text := by
    induction text generalizing offset with
    | nil => rfl
    | cons c text ih =>
      simp only [replaceFrom, ih, insertedAt_perm h hperm, hperm.any_eq]
  rw [replaceAll, replaceAll, hfrom, insertedAt_perm h hperm]

end Edit

theorem applyEdits_eq_replaceAll {target : EditTarget} {edits : List Edit} {text : Text}
    (h : Edit.Apart (editsOf target edits) text) :
    applyEdits target edits text = some (Edit.replaceAll (editsOf target edits) text) := by
  have hperm := Edit.perm_sort (editsOf target edits)
  have hall := Edit.applyAll_eq_replaceAll (Edit.pairwise_sort_of_nodup h.starts_nodup) (h.perm hperm) []
  rw [List.append_nil, List.append_nil, Edit.replaceAll_perm h.starts_nodup hperm] at hall
  exact hall

/-- A plan whose edits of a file lie apart replaces all their ranges at once, and so does every plan that has the
same edits of that file in any order, whatever it does to the other file. -/
theorem Plan.applyTo_eq_replaceAll (plan : Plan) (target : EditTarget) (text : Text)
    (h : Edit.Apart (editsOf target plan.edits) text) :
    plan.applyTo target text = some (Edit.replaceAll (editsOf target plan.edits) text) ∧
      ∀ (others : List Edit) (other : Plan), (∀ edit ∈ others, edit.target ≠ target) →
        other.edits.Perm (plan.edits ++ others) → other.applyTo target text = plan.applyTo target text := by
  have hplan : plan.applyTo target text = some (Edit.replaceAll (editsOf target plan.edits) text) :=
    applyEdits_eq_replaceAll h
  refine ⟨hplan, fun others other hothers hedits => ?_⟩
  have hnone : editsOf target others = [] := by
    apply List.filter_eq_nil_iff.mpr
    intro edit hedit
    simpa using hothers edit hedit
  have hperm : (editsOf target other.edits).Perm (editsOf target plan.edits) := by
    have hfilter := hedits.filter fun edit => edit.target = target
    rw [List.filter_append] at hfilter
    change (editsOf target other.edits).Perm (editsOf target plan.edits ++ editsOf target others) at hfilter
    rwa [hnone, List.append_nil] at hfilter
  have hother : other.applyTo target text = some (Edit.replaceAll (editsOf target other.edits) text) :=
    applyEdits_eq_replaceAll (h.perm hperm)
  rw [hother, hplan, Edit.replaceAll_perm h.starts_nodup hperm]

/-- A removal, two replacements side by side and an insertion at the end, listed in no order and with an edit of
the other file between them. -/
def scatteredPlan : Plan where
  intent := .moveImplementationToSource
  caption := []
  edits := [⟨.active, 5, 6, "xyz".toList⟩, ⟨.counterpart, 1, 4, "\x7b\x7d".toList⟩, ⟨.active, 8, 8, ['\n']⟩,
    ⟨.active, 0, 2, []⟩, ⟨.active, 6, 7, ['é']⟩]

theorem scatteredPlan_applyTo :
    Edit.Apart (editsOf .active scatteredPlan.edits) "é = ab;".toList ∧
      scatteredPlan.applyTo .active "é = ab;".toList = some " = xyzé;\n".toList ∧
      Plan.applyTo { scatteredPlan with edits := scatteredPlan.edits.reverse } .active "é = ab;".toList =
        scatteredPlan.applyTo .active "é = ab;".toList := by
  have hapart : Edit.Apart (editsOf .active scatteredPlan.edits) "é = ab;".toList := by decide
  obtain ⟨happly, hperm⟩ := Plan.applyTo_eq_replaceAll scatteredPlan .active "é = ab;".toList hapart
  refine ⟨hapart, happly.trans (by decide), hperm [] _ (by simp) ?_⟩
  rw [List.append_nil]
  exact List.reverse_perm _

end OutOfLine

import OutOfLine.Proofs.PairedFiles

/-!
# The role of a paired file

The pair of a file is looked for under its own path with the extensions of the other role. A name is divided at
its last dot, so the path found has the same stem and the other role exactly when the extension that was put
there is one: it is not empty, and it has no dot. Slashes and single dots behind the file name are no part of
it; the old extension is cut off as so many characters, which takes them away first.
-/

namespace OutOfLine

namespace Path

open FileSystem (IsDirectoryPart)

/-- Slashes and single dots behind a file name, last character first. -/
inductive IsTail : Text → Prop
  | nil : IsTail []
  | slash {t : Text} : IsTail t → IsTail ('/' :: t)
  | dot {t : Text} : IsTail t → IsTail ('.' :: '/' :: t)

namespace IsTail

variable {t : Text}

theorem drop (h : IsTail t) (n : Nat) : IsTail (t.drop n) := by
  induction h generalizing n with
  | nil => simpa using nil
  | slash h ih =>
    cases n with
    | zero => exact slash h
    | succ n => exact ih n
  | dot h ih =>
    match n with
    | 0 => exact dot h
    | 1 => exact slash h
    | n + 2 => exact ih n

theorem eq_nil (h : IsTail t) (hslash : '/' ∉ t) : t = [] := by
  cases h with
  | nil => rfl
  | slash => simp at hslash
  | dot => simp at hslash

theorem dropTail_append (h : IsTail t) (path : Text) : dropTail (t ++ path) = dropTail path := by
  induction h with
  | nil => rfl
  | slash _ ih => rw [List.cons_append, dropTail, ih]
  | dot _ ih => rw [List.cons_append, List.cons_append, dropTail, ih]

end IsTail

theorem exists_isTail {path : Text} (h : dropTail path ≠ []) : ∃ t, IsTail t ∧ path = t ++ dropTail path := by
  fun_induction dropTail path with
  | case1 rest ih =>
    obtain ⟨t, ht, hrest⟩ := ih h
    exact ⟨'/' :: t, ht.slash, congrArg (List.cons '/') hrest⟩
  | case2 => exact absurd rfl h
  | case3 rest ih =>
    obtain ⟨t, ht, hrest⟩ := ih h
    exact ⟨'.' :: '/' :: t, ht.dot, congrArg (fun rest => '.' :: '/' :: rest) hrest⟩
  | case4 path => exact ⟨[], .nil, rfl⟩

theorem dropTail_dropTail (path : Text) : dropTail (dropTail path) = dropTail path := by
  fun_induction dropTail path with
  | case1 rest ih => exact ih
  | case2 => rfl
  | case3 rest ih => exact ih
  | case4 path h₁ h₂ h₃ => exact dropTail.eq_4 path h₁ h₂ h₃

/-- What stands behind the file name does not count. -/
theorem split?_append {tail : Text} (h : IsTail tail.reverse) (path : Text) : split? (path ++ tail) = split? path := by
  simp only [split?, List.reverse_append, h.dropTail_append]

/-- A path with a file name is its directory part, that name, and slashes and single dots. -/
theorem exists_of_split? {path directory name : Text} (h : split? path = some (directory, name)) :
    ∃ tail, IsTail tail.reverse ∧ path = directory ++ name ++ tail ∧ IsDirectoryPart directory ∧ '/' ∉ name ∧
      name ≠ ['.', '.'] := by
  obtain ⟨front, last, hkept, hfront, hslash, hlast⟩ := exists_last_run '/' (dropTail path.reverse).reverse
  have htail : dropTail (dropTail path.reverse).reverse.reverse = (dropTail path.reverse).reverse.reverse := by
    rw [List.reverse_reverse, dropTail_dropTail]
  have hsame : split? path = split? (dropTail path.reverse).reverse := by
    simp only [split?, List.reverse_reverse, dropTail_dropTail]
  rw [hsame, split?_eq hkept hlast htail] at h
  split at h
  · simp at h
  · next hname =>
    rw [not_or] at hname
    obtain ⟨rfl, rfl⟩ := Prod.mk.inj (Option.some.inj h)
    have hne : dropTail path.reverse ≠ [] := by
      intro hnil
      rw [hnil, List.reverse_nil] at hkept
      exact hname.1 (List.append_eq_nil_iff.mp hkept.symm).2
    obtain ⟨t, ht, hpath⟩ := exists_isTail hne
    refine ⟨t.reverse, by rwa [List.reverse_reverse], ?_, hfront, hslash, hname.2⟩
    rw [← hkept, ← List.reverse_append, ← hpath, List.reverse_reverse]

theorem not_mem_of_splitName {name stem extension : Text} (h : splitName name = (stem, some extension)) :
    '.' ∉ extension := by
  obtain ⟨front, last, -, -, hdot, hlast⟩ := exists_last_run '.' name
  simp only [splitName, hlast] at h
  split at h
  · simp at h
  · obtain rfl := Option.some.inj (Prod.mk.inj h).2
    exact hdot

theorem isName_of_splitName {name stem extension : Text} (h : splitName name = (stem, some extension))
    (hdots : name ≠ ['.', '.']) : FileSystem.IsName name := by
  obtain ⟨rfl, hstem⟩ := splitName_eq_some h
  refine ⟨by simp, fun hdot => ?_, hdots⟩
  have hlength := congrArg List.length hdot
  have hpos := List.length_pos_iff.mpr hstem
  simp only [List.length_append, List.length_cons, List.length_nil] at hlength
  omega

theorem splitName_append {stem extension : Text} (hstem : stem ≠ []) (hdot : '.' ∉ extension) :
    splitName (stem ++ '.' :: extension) = (stem, some extension) := by
  have hlast : ((stem ++ '.' :: extension).reverse.takeWhile (· ≠ '.')).reverse = extension := by
    have hname : stem ++ '.' :: extension = (stem ++ ['.']) ++ extension := by simp
    rw [hname]
    exact takeWhile_last_run (.inr ⟨stem, rfl⟩) hdot
  have hlength : (stem ++ '.' :: extension).length - extension.length - 1 = stem.length := by
    simp only [List.length_append, List.length_cons]
    omega
  simp only [splitName, hlast, hlength, List.take_left, if_neg hstem]

/-- A path that ends in an extension divides there. -/
theorem split?_extension {directory stem extension : Text} (hdirectory : IsDirectoryPart directory)
    (hslash : '/' ∉ stem ++ '.' :: extension) (hne : extension ≠ []) (hdot : '.' ∉ extension) :
    split? (directory ++ (stem ++ '.' :: extension)) = some (directory, stem ++ '.' :: extension) := by
  obtain ⟨c, rest, hreverse⟩ := List.exists_cons_of_ne_nil (mt List.reverse_eq_nil_iff.mp hne)
  have hc : c ∈ extension := List.mem_reverse.mp (hreverse ▸ List.mem_cons_self)
  have hcdot : c ≠ '.' := fun h => hdot (h ▸ hc)
  have hcslash : c ≠ '/' := fun h => hslash (h ▸ List.mem_append_right _ (List.mem_cons_of_mem _ hc))
  have htail : dropTail (directory ++ (stem ++ '.' :: extension)).reverse =
      (directory ++ (stem ++ '.' :: extension)).reverse := by
    rcases dropTail_cases (directory ++ (stem ++ '.' :: extension)).reverse with h | ⟨_, h⟩ | h | ⟨_, h⟩
    · exact h
    · simp [hreverse, hcslash] at h
    · simp [hreverse] at h
    · simp [hreverse, hcdot] at h
  rw [split?_eq rfl (takeWhile_last_run hdirectory hslash) htail, if_neg]
  rintro (h | h)
  · simp at h
  · have hmem : c ∈ ['.', '.'] := h ▸ List.mem_append_right _ (List.mem_cons_of_mem _ hc)
    exact hcdot (by simpa using hmem)

/-- What an extension adds to a stem. -/
def suffix (extension : Text) : Text := if extension = [] then [] else '.' :: extension

theorem setExtension_eq {path directory name : Text} (h : split? path = some (directory, name)) (extension : Text) :
    setExtension path extension = directory ++ ((splitName name).1 ++ suffix extension) := by
  simp only [setExtension, h, suffix, List.append_assoc]

/-- Whether a path ends in a file name that is two dots and an extension. -/
def isDotted (path : Text) : Bool :=
  (split? path).any fun parts => (splitName parts.2).1 = ['.'] && parts.1 ++ parts.2 = path

theorem isDotted_iff {path directory name : Text} (h : split? path = some (directory, name)) :
    isDotted path ↔ (splitName name).1 = ['.'] ∧ directory ++ name = path := by
  simp [isDotted, h]

section Named

variable {path directory name stem old : Text}

/-- Another extension takes the place of the old one, whatever stands behind the file name. -/
theorem withExtension_eq (h : split? path = some (directory, name)) (hname : splitName name = (stem, some old))
    (hdotted : isDotted path = false) (new : Text) : withExtension path new = directory ++ (stem ++ suffix new) := by
  obtain ⟨tail, htail, hpath, hdirectory, hslash, hdots⟩ := exists_of_split? h
  obtain ⟨rfl, hstem⟩ := splitName_eq_some hname
  have hdot := not_mem_of_splitName hname
  have hold : (extension? path).getD [] = old := by simp [extension?, fileName?, h, hname]
  rw [withExtension, hold]
  by_cases hlong : old.length ≤ tail.length
  · -- Only the tail gets shorter.
    have hcut : path.take (path.length - old.length) =
        directory ++ (stem ++ '.' :: old) ++ tail.take (tail.length - old.length) := by
      rw [hpath, List.length_append, Nat.add_sub_assoc hlong, List.take_length_add_append]
    have htail' : IsTail (tail.take (tail.length - old.length)).reverse := by
      rw [List.reverse_take]
      exact htail.drop _
    rw [hpath, split?_append htail] at h
    rw [hcut, setExtension_eq ((split?_append htail' _).trans h), hname]
  · -- The tail and the end of the name are cut off, and the stem stays in front of its dot.
    have hcut : path.take (path.length - old.length) = directory ++ (stem ++ '.' :: old.take tail.length) := by
      have hparts : path = directory ++ (stem ++ ['.']) ++ (old ++ tail) := by rw [hpath]; simp
      have hlength : path.length - old.length = (directory ++ (stem ++ ['.'])).length + tail.length := by
        rw [hparts]
        simp only [List.length_append]
        omega
      rw [hlength, hparts, List.take_length_add_append, List.take_append_of_le_length (by omega)]
      simp
    rw [hcut]
    by_cases hnil : old.take tail.length = []
    · have hne : stem ≠ ['.'] := by
        rintro rfl
        obtain rfl : tail = [] := by
          rcases List.take_eq_nil_iff.mp hnil with hzero | rfl
          · exact List.length_eq_zero_iff.mp hzero
          · exact absurd rfl hdots
        exact Bool.eq_false_iff.mp hdotted ((isDotted_iff h).mpr ⟨by rw [hname], by simpa using hpath.symm⟩)
      have hsplit := split?_dot hdirectory (fun hmem => hslash (List.mem_append_left _ hmem)) hstem
      rw [if_neg hne] at hsplit
      rw [hnil, setExtension_eq hsplit, splitName_dot hstem]
    · have hsub {c : Char} (hc : c ∈ old.take tail.length) : c ∈ old := List.mem_of_mem_take hc
      have hslash' : '/' ∉ stem ++ '.' :: old.take tail.length := by
        intro hmem
        refine hslash ?_
        rcases List.mem_append.mp hmem with hmem | hmem
        · exact List.mem_append_left _ hmem
        · exact List.mem_append_right _ ((List.cons_subset_cons _ (List.take_subset _ _)) hmem)
      rw [setExtension_eq (split?_extension hdirectory hslash' hnil fun hmem => hdot (hsub hmem)),
        splitName_append hstem fun hmem => hdot (hsub hmem)]

/-- The path with another extension has the same directory part and another name, also where the file name is two
dots and an extension. -/
theorem exists_withExtension_of_split? (h : split? path = some (directory, name))
    (hname : splitName name = (stem, some old)) {new : Text} (hnew : '/' ∉ new) (hne : new ≠ old) :
    ∃ other, withExtension path new = directory ++ other ∧ '/' ∉ other ∧ other ≠ name := by
  have hold : extension? path = some old := by simp [extension?, fileName?, h, hname]
  obtain ⟨-, -, -, hdirectory, hslash, hdots⟩ := exists_of_split? h
  obtain ⟨rfl, hstem⟩ := splitName_eq_some hname
  have hslashStem : '/' ∉ stem := fun hmem => hslash (List.mem_append_left _ hmem)
  cases hdotted : isDotted path with
  | true =>
    obtain ⟨-, rfl⟩ := (isDotted_iff h).mp hdotted
    exact exists_withExtension hdirectory hslashStem hstem (isName_of_splitName hname hdots) hold hnew hne
  | false =>
    refine ⟨_, withExtension_eq h hname hdotted new, ?_, ?_⟩
    · rw [suffix]
      split <;> simp [hslashStem, hnew]
    · rw [suffix]
      split
      · simp
      · simpa using hne

end Named

/-- The directory part of a path with a file name. -/
def directory? (path : Text) : Option Text := (split? path).map Prod.fst

/-- The file name without its extension. -/
def stem? (path : Text) : Option Text := (fileName? path).map fun name => (splitName name).1

/-- The parts of a path that has an extension. -/
theorem exists_of_extension? {path old : Text} (h : extension? path = some old) :
    ∃ directory name stem, split? path = some (directory, name) ∧ splitName name = (stem, some old) ∧
      directory? path = some directory ∧ stem? path = some stem := by
  obtain ⟨name, hfile, hextension⟩ := Option.bind_eq_some_iff.mp h
  obtain ⟨⟨directory, _⟩, hsplit, rfl⟩ := Option.map_eq_some_iff.mp hfile
  refine ⟨directory, _, _, hsplit, Prod.ext rfl hextension, ?_, ?_⟩
  · rw [directory?, hsplit, Option.map_some]
  · rw [stem?, hfile, Option.map_some]

/-- The steps of a path through the directories; empty parts and single dots are none. -/
def steps (path : Text) : List Text := (FileSystem.parts path).filter fun part => part ≠ [] ∧ part ≠ ['.']

theorem steps_append_slash (a b : Text) : steps (a ++ '/' :: b) = steps a ++ steps b := by
  rw [steps, FileSystem.parts_append_slash, List.filter_append, steps, steps]

theorem steps_of_not_mem {name : Text} (h : '/' ∉ name) :
    steps name = if name ≠ [] ∧ name ≠ ['.'] then [name] else [] := by
  simp only [steps, FileSystem.parts_of_not_mem h, List.filter_cons, List.filter_nil, decide_eq_true_eq]

theorem steps_append_directory {directory : Text} (h : IsDirectoryPart directory) (name : Text) :
    steps (directory ++ name) = steps directory ++ steps name := by
  rcases h with rfl | ⟨front, rfl⟩
  · rfl
  · rw [List.append_assoc, List.singleton_append, steps_append_slash, steps_append_slash]
    exact congrArg (List.append · _) (List.append_nil _).symm

theorem steps_append_tail {tail : Text} (h : IsTail tail.reverse) (path : Text) :
    steps (path ++ tail) = steps path := by
  generalize ht : tail.reverse = t at h
  obtain rfl : tail = t.reverse := by rw [← ht, List.reverse_reverse]
  clear ht
  induction h with
  | nil => simp
  | slash _ ih =>
    rw [List.reverse_cons, ← List.append_assoc, steps_append_slash, ih]
    exact List.append_nil _
  | dot _ ih =>
    rw [List.reverse_cons, List.reverse_cons, List.append_assoc, List.singleton_append, ← List.append_assoc,
      steps_append_slash, ih]
    exact List.append_nil _

/-- With another extension, a path is another path. -/
theorem steps_withExtension_ne {path old new : Text} (h : extension? path = some old) (hnew : '/' ∉ new)
    (hne : new ≠ old) : steps (withExtension path new) ≠ steps path := by
  obtain ⟨directory, name, stem, hsplit, hname, -, -⟩ := exists_of_extension? h
  obtain ⟨other, hother, hslashOther, hneOther⟩ := exists_withExtension_of_split? hsplit hname hnew hne
  obtain ⟨tail, htail, hpath, hdirectory, hslash, hdots⟩ := exists_of_split? hsplit
  have hisName := isName_of_splitName hname hdots
  have hsteps : steps name = [name] := by rw [steps_of_not_mem hslash, if_pos ⟨hisName.1, hisName.2.1⟩]
  intro heq
  rw [hother, hpath, steps_append_tail htail, steps_append_directory hdirectory, steps_append_directory hdirectory,
    List.append_cancel_left_eq, hsteps, steps_of_not_mem hslashOther] at heq
  split at heq
  · exact hneOther (List.singleton_inj.mp heq)
  · simp at heq

end Path

namespace FileRole

variable {config : Config} {role : FileRole}

/-- A file and a path of the other role that differs in the extension only. -/
structure Paired (config : Config) (path other : Text) : Prop where
  directory_eq : Path.directory? other = Path.directory? path
  stem_eq : Path.stem? other = Path.stem? path
  role_eq : ofPath? config other = (ofPath? config path).map counterpart

/-- In a sound configuration the extensions of a role stand for that role. -/
theorem ofExtension?_of_mem (hconfig : config.fault? = none) {extension : Text}
    (h : extension ∈ role.extensions config) : ofExtension? config extension = some role := by
  have hany : (role.extensions config).any (Text.sameLetters extension) :=
    List.any_eq_true.mpr ⟨extension, h, by simp [Text.sameLetters]⟩
  cases role with
  | header => simp only [ofExtension?, List.find?_cons, hany]
  | source =>
    have hnone : (header.extensions config).any (Text.sameLetters extension) = false := by
      rw [← Bool.not_eq_true, List.any_eq_true]
      rintro ⟨known, hknown, hsame⟩
      have hapart := Config.sameLetters_eq_false hconfig hknown h
      rw [Text.sameLetters_comm] at hapart
      exact Bool.false_ne_true (hapart.symm.trans hsame)
    simp only [ofExtension?, List.find?_cons, hnone, hany]

/-- The path with an extension of the other role is a pair exactly if that extension is read back from it. -/
theorem paired_withExtension_iff (hconfig : config.fault? = none) {path new : Text}
    (hrole : ofPath? config path = some role) (hnew : new ∈ role.counterpart.extensions config) (hslash : '/' ∉ new)
    (hdotted : Path.isDotted path = false) :
    Paired config path (Path.withExtension path new) ↔ new ≠ [] ∧ '.' ∉ new := by
  obtain ⟨old, -, hold, -, -⟩ := exists_of_ofPath? hrole
  obtain ⟨directory, name, stem, hsplit, hname, hdirectory, hstem⟩ := Path.exists_of_extension? hold
  obtain ⟨-, -, -, hpart, hslashName, -⟩ := Path.exists_of_split? hsplit
  obtain ⟨rfl, hne⟩ := Path.splitName_eq_some hname
  rw [Path.withExtension_eq hsplit hname hdotted]
  constructor
  · intro hpaired
    -- The extension that is read back starts at the dot which the new one was put behind.
    have hroleOther := hpaired.role_eq
    rw [hrole, Option.map_some] at hroleOther
    obtain ⟨extension, -, hextension, -, -⟩ := exists_of_ofPath? hroleOther
    obtain ⟨front, _, back, hsplitOther, hnameOther, hfront, hback⟩ := Path.exists_of_extension? hextension
    obtain rfl : front = directory := by
      simpa [hfront, hdirectory] using hpaired.directory_eq
    obtain rfl : back = stem := by
      simpa [hback, hstem] using hpaired.stem_eq
    obtain ⟨tail, htail, hother, -⟩ := Path.exists_of_split? hsplitOther
    obtain ⟨rfl, -⟩ := Path.splitName_eq_some hnameOther
    have hsuffix : Path.suffix new = '.' :: (extension ++ tail) := by simpa using hother
    rw [Path.suffix] at hsuffix
    split at hsuffix
    · simp at hsuffix
    · next hnil =>
      obtain rfl : new = extension ++ tail := by simpa using hsuffix
      obtain rfl : tail = [] := by
        have htailSlash : '/' ∉ tail.reverse := fun hmem =>
          hslash (List.mem_append_right _ (List.mem_reverse.mp hmem))
        exact List.reverse_eq_nil_iff.mp (htail.eq_nil htailSlash)
      rw [List.append_nil] at hnil ⊢
      exact ⟨hnil, Path.not_mem_of_splitName hnameOther⟩
  · rintro ⟨hnil, hdot⟩
    have hslashOther : '/' ∉ stem ++ '.' :: new := by
      simp only [List.mem_append, List.mem_cons, not_or] at hslashName ⊢
      exact ⟨hslashName.1, by decide, hslash⟩
    have hsplitOther := Path.split?_extension hpart hslashOther hnil hdot
    have hnameOther := Path.splitName_append hne hdot
    rw [Path.suffix, if_neg hnil]
    refine ⟨?_, ?_, ?_⟩
    · rw [hdirectory, Path.directory?, hsplitOther, Option.map_some]
    · rw [hstem, Path.stem?, Path.fileName?, hsplitOther, Option.map_some, Option.map_some, hnameOther]
    · rw [hrole, ofPath?, Path.extension?, Path.fileName?, hsplitOther, Option.map_some, Option.bind_some, hnameOther,
        Option.bind_some, Option.map_some]
      exact ofExtension?_of_mem hconfig hnew

end FileRole

namespace Pairing

/-- The search ends at the first candidate that is present. -/
theorem search_eq {path : Text} {present : Text → Bool} {extensions : List Text}
    (h : ∀ extension ∈ extensions, '/' ∉ extension) :
    (search path present extensions).2 =
      ((extensions.map (Path.withExtension path)).find? present).elim missing found := by
  induction extensions with
  | nil => rfl
  | cons extension extensions ih =>
    rw [search, if_neg (h extension List.mem_cons_self), List.map_cons]
    dsimp only
    split
    · next hpresent => rw [List.find?_cons_of_pos hpresent, Option.elim_some]
    · next habsent =>
      rw [List.find?_cons_of_neg habsent]
      exact ih fun other hother => h other (List.mem_cons_of_mem _ hother)

/-- The paths under which the pair of a file is looked for, in order. -/
def candidates (config : Config) (path : Text) : List Text :=
  (FileRole.ofPath? config path).elim [] fun role =>
    (role.counterpart.extensions config).map (Path.withExtension path)

/-- Under a sound configuration the pair of a file is the first candidate that is present, and there is none only
if the file has no role or no candidate is present. It is another path. If the file name is not two dots and an
extension, the pair differs in the extension only and has the other role exactly if the extension that led to it
is not empty and has no dot. -/
theorem paired_iff_extension (config : Config) (hconfig : config.fault? = none) (path : Text) (present : Text → Bool)
    (hslash : ∀ role, FileRole.ofPath? config path = some role →
      ∀ extension ∈ role.counterpart.extensions config, '/' ∉ extension) :
    (∀ other, (ofPath config path present).2 = .found other ↔ (candidates config path).find? present = some other) ∧
    ((ofPath config path present).2 = .missing ↔
      FileRole.ofPath? config path = none ∨ ∀ other ∈ candidates config path, present other = false) ∧
    ∀ other, (ofPath config path present).2 = .found other →
      present other ∧ Path.steps other ≠ Path.steps path ∧
      ∃ role extension, FileRole.ofPath? config path = some role ∧
        extension ∈ role.counterpart.extensions config ∧ other = Path.withExtension path extension ∧
        (Path.isDotted path = false → (FileRole.Paired config path other ↔ extension ≠ [] ∧ '.' ∉ extension)) := by
  have hresult : (ofPath config path present).2 = ((candidates config path).find? present).elim missing found := by
    rw [ofPath, candidates]
    cases hrole : FileRole.ofPath? config path with
    | none => rfl
    | some role => exact search_eq (hslash role hrole)
  have hfound (other : Text) :
      (ofPath config path present).2 = .found other ↔ (candidates config path).find? present = some other := by
    rw [hresult]
    cases (candidates config path).find? present <;> simp
  have hmissing : (ofPath config path present).2 = .missing ↔ (candidates config path).find? present = none := by
    rw [hresult]
    cases (candidates config path).find? present <;> simp
  refine ⟨hfound, ?_, fun other hother => ?_⟩
  · rw [hmissing, List.find?_eq_none]
    constructor
    · intro hall
      exact .inr fun other hother => by simpa using hall other hother
    · rintro (hnone | hall) other hother
      · simp [candidates, hnone] at hother
      · simp [hall other hother]
  · have hfind := (hfound other).mp hother
    refine ⟨List.find?_some hfind, ?_⟩
    have hmem := List.mem_of_find?_eq_some hfind
    cases hrole : FileRole.ofPath? config path with
    | none => simp [candidates, hrole] at hmem
    | some role =>
      rw [candidates, hrole, Option.elim_some] at hmem
      obtain ⟨extension, hextension, rfl⟩ := List.mem_map.mp hmem
      have hslashNew := hslash role hrole extension hextension
      obtain ⟨old, known, hold, hknown, hsame⟩ := FileRole.exists_of_ofPath? hrole
      have hne := FileRole.ne_of_mem_counterpart hconfig hknown hsame hextension
      exact ⟨Path.steps_withExtension_ne hold hslashNew hne, role, extension, rfl, hextension, rfl,
        FileRole.paired_withExtension_iff hconfig hrole hextension hslashNew⟩

/-- Whether a path is one of two sources. -/
def isCalcSource (path : Text) : Bool := path == "lib/calc.x.cxx".toList || path == "lib/calc.x.cc".toList

/-- An extension in capital letters, another dot in the file name, and slashes behind it. -/
theorem paired_slashedPath :
    (ofPath {} "lib/calc.x.HPP//".toList isCalcSource).2 = .found "lib/calc.x.cc".toList ∧
    FileRole.Paired {} "lib/calc.x.HPP//".toList "lib/calc.x.cc".toList := by
  have hheader : FileRole.ofPath? {} "lib/calc.x.HPP//".toList = some .header := by decide
  have hsource : ∀ extension ∈ FileRole.header.counterpart.extensions {},
      '/' ∉ extension ∧ extension ≠ [] ∧ '.' ∉ extension := by decide
  have hfound : (ofPath {} "lib/calc.x.HPP//".toList isCalcSource).2 = .found "lib/calc.x.cc".toList := by decide
  have hpairing := paired_iff_extension {} (by decide) "lib/calc.x.HPP//".toList isCalcSource (by
    intro role hrole extension hextension
    obtain rfl := Option.some.inj (hheader.symm.trans hrole)
    exact (hsource extension hextension).1)
  obtain ⟨-, -, role, extension, hrole, hextension, -, hpaired⟩ := hpairing.2.2 _ hfound
  obtain rfl := Option.some.inj (hheader.symm.trans hrole)
  exact ⟨hfound, (hpaired (by decide)).mpr (hsource extension hextension).2⟩

/-- A configuration with one header extension. -/
def headersWith (extension : Text) : Config := { headerExtensions := [extension] }

/-- Under an extension with a dot in it, the path found has another stem and no role. Under the empty extension, and
for a file name that is two dots and an extension, it has no extension at all. -/
theorem not_paired_found :
    ((headersWith "inl.h".toList).fault? = none ∧
      (ofPath (headersWith "inl.h".toList) "a.cpp".toList fun path => path == "a.inl.h".toList).2 =
        .found "a.inl.h".toList ∧
      Path.stem? "a.inl.h".toList ≠ Path.stem? "a.cpp".toList ∧
      FileRole.ofPath? (headersWith "inl.h".toList) "a.cpp".toList = some .source ∧
      FileRole.ofPath? (headersWith "inl.h".toList) "a.inl.h".toList = none ∧
      ¬ FileRole.Paired (headersWith "inl.h".toList) "a.cpp".toList "a.inl.h".toList) ∧
    ((headersWith []).fault? = none ∧
      (ofPath (headersWith []) "a.cpp".toList fun path => path == "a".toList).2 = .found "a".toList ∧
      ¬ FileRole.Paired (headersWith []) "a.cpp".toList "a".toList) ∧
    (ofPath {} "..h".toList fun path => path == "..".toList).2 = .found "..".toList ∧
    ¬ FileRole.Paired {} "..h".toList "..".toList := by
  have hstem : Path.stem? "a.inl.h".toList ≠ Path.stem? "a.cpp".toList := by decide
  refine ⟨⟨by decide, by decide, hstem, by decide, by decide, fun hpaired => hstem hpaired.stem_eq⟩,
    ⟨by decide, by decide, fun hpaired => ?_⟩, by decide, fun hpaired => ?_⟩
  · exact absurd hpaired.role_eq (by decide)
  · exact absurd hpaired.role_eq (by decide)

end Pairing
end OutOfLine

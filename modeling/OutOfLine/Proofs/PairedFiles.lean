import OutOfLine.Command
import Mathlib.Data.List.TakeWhile

/-!
# A file and its pair

The path of the paired file differs from that of the file in the extension only, and no extension is both that
of a header and that of a source. So the two paths name different places of the tree, whatever directories
lie on them.
-/

namespace OutOfLine

namespace FileSystem

variable {fs : FileSystem}

theorem parts_ne_nil (path : Text) : parts path ≠ [] := by
  fun_cases parts path <;> simp_all

theorem parts_append_slash (a b : Text) : parts (a ++ '/' :: b) = parts a ++ parts b := by
  induction a with
  | nil => rfl
  | cons c a ih =>
    by_cases hc : c = '/'
    · subst hc
      exact congrArg (List.cons []) ih
    · obtain ⟨part, more, hparts⟩ := List.exists_cons_of_ne_nil (parts_ne_nil a)
      rw [List.cons_append, parts, parts, ih, hparts]
      · rfl
      · exact hc
      · exact hc

theorem parts_of_not_mem {name : Text} (h : '/' ∉ name) : parts name = [name] := by
  induction name with
  | nil => rfl
  | cons c name ih =>
    rw [List.mem_cons, not_or] at h
    rw [parts, ih h.2]
    exact fun hc => h.1 hc.symm

theorem follow_append (location : Location) (front back : List Text) :
    fs.follow location (front ++ back) = (fs.follow location front).bind fun l => fs.follow l back := by
  induction front generalizing location with
  | nil => rfl
  | cons part front ih =>
    rw [List.cons_append, follow, follow]
    split
    · rfl
    · exact ih _
    · rfl

/-- The front of a path, up to a slash. -/
def IsDirectoryPart (directory : Text) : Prop := directory = [] ∨ ∃ front, directory = front ++ ['/']

/-- Files with the same directory part are parts of one directory. -/
theorem exists_directory {directory : Text} (h : IsDirectoryPart directory) :
    ∃ found : Except FileError Location, ∀ name, '/' ∉ name →
      fs.locate (directory ++ name) = found.bind fun l => fs.follow l [name] := by
  rcases h with rfl | ⟨front, rfl⟩
  · refine ⟨.ok [], fun name hname => ?_⟩
    have hbase : base name = [] := by
      rw [base, if_neg]
      exact fun h => hname (List.mem_of_head? h)
    rw [List.nil_append, locate, hbase, parts_of_not_mem hname]
    rfl
  · refine ⟨fs.follow (base (front ++ ['/'])) (parts front), fun name hname => ?_⟩
    have hbase : base (front ++ ['/'] ++ name) = base (front ++ ['/']) := by
      cases front <;> rfl
    rw [locate, hbase, List.append_assoc, List.singleton_append, parts_append_slash, follow_append,
      parts_of_not_mem hname]

/-- A part that is the name of a file leads to a place that no other part leads to. -/
theorem enter_ne {location : Location} {name other : Text} (hne : other ≠ name) :
    enter location other ≠ location ++ [name] := by
  intro h
  unfold enter at h
  split at h
  · simpa using congrArg List.length h
  · split at h
    · split at h
      · simpa using congrArg List.length h
      · split at h
        · split at h
          · exact hne (by simpa using h)
          · have := congrArg List.length h
            rw [List.length_dropLast, List.length_append, List.length_singleton] at this
            omega
        · next hnone =>
          rw [List.getLast?_eq_none_iff.mp hnone] at h
          exact hne (by simpa using h)
    · exact hne (by simpa using h)

/-- Whether a part of a path is the name of something, and not a step inside or above a directory. -/
def IsName (part : Text) : Prop := part ≠ [] ∧ part ≠ ['.'] ∧ part ≠ ['.', '.']

theorem enter_of_isName {location : Location} {name : Text} (h : IsName name) :
    enter location name = location ++ [name] := by
  rw [enter, if_neg (not_or.mpr ⟨h.1, h.2.1⟩), if_neg h.2.2]

/-- Following one more part takes a directory. -/
theorem follow_singleton_eq_ok_iff {location found : Location} {part : Text} :
    fs.follow location [part] = .ok found ↔
      fs.entryAt? location = some .directory ∧ enter location part = found := by
  rw [follow]
  split
  · next h => simp [h]
  · next h => simp [h, follow]
  · next entry hne h => simp [h, show entry ≠ .directory from hne]

theorem exists_of_bind_eq_ok {α β ε : Type} {x : Except ε α} {f : α → Except ε β} {b : β} (h : x.bind f = .ok b) :
    ∃ a, x = .ok a ∧ f a = .ok b := by
  cases x with
  | error e => simp [Except.bind] at h
  | ok a => exact ⟨a, rfl, h⟩

/-- Different names in one directory are different places. -/
theorem locate_ne {directory name other : Text} {here there : Location} (h : IsDirectoryPart directory)
    (hname : '/' ∉ name ∧ IsName name) (hother : '/' ∉ other) (hne : other ≠ name)
    (hhere : fs.locate (directory ++ name) = .ok here) (hthere : fs.locate (directory ++ other) = .ok there) :
    here ≠ there := by
  obtain ⟨found, hfound⟩ := exists_directory h
  rw [hfound name hname.1] at hhere
  rw [hfound other hother] at hthere
  obtain ⟨location, hlocation, hhere⟩ := exists_of_bind_eq_ok hhere
  obtain ⟨location', hlocation', hthere⟩ := exists_of_bind_eq_ok hthere
  obtain rfl := Except.ok.inj (hlocation.symm.trans hlocation')
  obtain ⟨-, rfl⟩ := follow_singleton_eq_ok_iff.mp hhere
  obtain ⟨-, rfl⟩ := follow_singleton_eq_ok_iff.mp hthere
  rw [enter_of_isName hname.2]
  exact (enter_ne hne).symm

theorem read_eq_ok_iff {path text : Text} : fs.read path = .ok text ↔
    ∃ location, fs.locate path = .ok location ∧ fs.entryAt? location = some (.text text) := by
  unfold read lookup
  cases hlocate : fs.locate path with
  | error e => simp [bind, Except.bind]
  | ok location =>
    cases hentry : fs.entryAt? location with
    | none => simp [bind, Except.bind, hentry, throw, throwThe, MonadExceptOf.throw]
    | some entry =>
      cases entry <;> simp [bind, Except.bind, hentry, throw, throwThe, MonadExceptOf.throw, pure, Except.pure]

/-- A path to a file does not end in a slash or a single dot. -/
theorem not_read_of_dots {directory name text : Text} (h : IsDirectoryPart directory)
    (hname : name = [] ∨ name = ['.']) : fs.read (directory ++ name) ≠ .ok text := by
  intro hread
  obtain ⟨location, hlocate, hentry⟩ := read_eq_ok_iff.mp hread
  obtain ⟨found, hfound⟩ := exists_directory h
  have hslash : '/' ∉ name := by rcases hname with rfl | rfl <;> decide
  rw [hfound name hslash] at hlocate
  obtain ⟨inner, -, hfollow⟩ := exists_of_bind_eq_ok hlocate
  obtain ⟨hdirectory, rfl⟩ := follow_singleton_eq_ok_iff.mp hfollow
  rw [enter, if_pos hname, hdirectory] at hentry
  simp at hentry

end FileSystem

namespace Path

open FileSystem (IsDirectoryPart IsName)

theorem dropTail_cases (path : Text) : dropTail path = path ∨ (∃ rest, path = '/' :: rest) ∨ path = ['.'] ∨
    ∃ rest, path = '.' :: '/' :: rest := by
  fun_cases dropTail path <;> simp_all

/-- A text divides behind the last of some character. -/
theorem exists_last_run (d : Char) (t : Text) : ∃ front last : Text, t = front ++ last ∧
    (front = [] ∨ ∃ a, front = a ++ [d]) ∧ d ∉ last ∧ (t.reverse.takeWhile (· ≠ d)).reverse = last := by
  have hparts := List.takeWhile_append_dropWhile (p := fun c => decide (c ≠ d)) (l := t.reverse)
  refine ⟨(t.reverse.dropWhile (· ≠ d)).reverse, _, ?_, ?_, ?_, rfl⟩
  · rw [← List.reverse_append, hparts, List.reverse_reverse]
  · cases hrest : t.reverse.dropWhile (· ≠ d) with
    | nil => exact .inl rfl
    | cons c rest =>
      have hc := List.head?_dropWhile_not (fun c => decide (c ≠ d)) t.reverse
      rw [hrest] at hc
      obtain rfl : c = d := by simpa using hc
      exact .inr ⟨rest.reverse, List.reverse_cons⟩
  · intro hmem
    simpa using List.mem_takeWhile_imp (List.mem_reverse.mp hmem)

theorem takeWhile_last_run {d : Char} {front last : Text} (hfront : front = [] ∨ ∃ a, front = a ++ [d])
    (hlast : d ∉ last) : ((front ++ last).reverse.takeWhile (· ≠ d)).reverse = last := by
  have hall : ∀ c ∈ last.reverse, decide (c ≠ d) := by
    intro c hc
    exact decide_eq_true fun h => hlast (h ▸ List.mem_reverse.mp hc)
  rw [List.reverse_append, List.takeWhile_append_of_pos hall]
  rcases hfront with rfl | ⟨a, rfl⟩ <;> simp

theorem split?_eq {path directory name : Text} (hpath : path = directory ++ name)
    (hname : (path.reverse.takeWhile (· ≠ '/')).reverse = name) (htail : dropTail path.reverse = path.reverse) :
    split? path = if name = [] ∨ name = ['.', '.'] then none else some (directory, name) := by
  have hdrop : (path.reverse.drop name.length).reverse = directory := by
    rw [hpath, List.reverse_append, List.drop_left' List.length_reverse, List.reverse_reverse]
  simp only [split?, htail, hname, hdrop]

/-- The path of a file is its directory part and its name. -/
theorem split?_of_read {fs : FileSystem} {path text directory name : Text} (hread : fs.read path = .ok text)
    (h : split? path = some (directory, name)) :
    path = directory ++ name ∧ IsDirectoryPart directory ∧ '/' ∉ name ∧ IsName name := by
  have htail : dropTail path.reverse = path.reverse := by
    rcases dropTail_cases path.reverse with h | ⟨rest, h⟩ | h | ⟨rest, h⟩
    · exact h
    · have hpath : path = (rest.reverse ++ ['/']) ++ [] := by simpa using congrArg List.reverse h
      exact absurd (hpath ▸ hread) (FileSystem.not_read_of_dots (.inr ⟨_, rfl⟩) (.inl rfl))
    · have hpath : path = [] ++ ['.'] := by simpa using congrArg List.reverse h
      exact absurd (hpath ▸ hread) (FileSystem.not_read_of_dots (.inl rfl) (.inr rfl))
    · have hpath : path = (rest.reverse ++ ['/']) ++ ['.'] := by simpa using congrArg List.reverse h
      exact absurd (hpath ▸ hread) (FileSystem.not_read_of_dots (.inr ⟨_, rfl⟩) (.inr rfl))
  obtain ⟨front, last, hpath, hfront, hslash, hlast⟩ := exists_last_run '/' path
  rw [split?_eq hpath hlast htail] at h
  split at h
  · simp at h
  · next hne =>
    obtain ⟨rfl, rfl⟩ := Prod.mk.inj (Option.some.inj h)
    rw [not_or] at hne
    refine ⟨hpath, hfront, hslash, hne.1, ?_, hne.2⟩
    rintro rfl
    exact FileSystem.not_read_of_dots hfront (.inr rfl) (hpath ▸ hread)

/-- A name with an extension is a stem, a dot and the extension. -/
theorem splitName_eq_some {name stem extension : Text} (h : splitName name = (stem, some extension)) :
    name = stem ++ '.' :: extension ∧ stem ≠ [] := by
  obtain ⟨front, last, rfl, hfront, -, hlast⟩ := exists_last_run '.' name
  simp only [splitName, hlast] at h
  split at h
  · simp at h
  · next hne =>
    obtain ⟨rfl, hlast⟩ := Prod.mk.inj h
    obtain rfl := Option.some.inj hlast
    rcases hfront with rfl | ⟨a, rfl⟩
    · simp at hne
    · have hlength : (a ++ ['.'] ++ last).length - last.length - 1 = a.length := by
        simp only [List.length_append, List.length_singleton]
        omega
      rw [hlength, List.append_assoc, List.take_left'] at hne ⊢
      · exact ⟨rfl, hne⟩
      all_goals rfl

theorem splitName_dot {stem : Text} (h : stem ≠ []) : splitName (stem ++ ['.']) = (stem, some []) := by
  simp [splitName, h]

/-- Cut after the dot, a path divides as before. -/
theorem split?_dot {directory stem : Text} (h : IsDirectoryPart directory) (hslash : '/' ∉ stem)
    (hstem : stem ≠ []) : split? (directory ++ (stem ++ ['.'])) =
      if stem = ['.'] then none else some (directory, stem ++ ['.']) := by
  have htail : dropTail (directory ++ (stem ++ ['.'])).reverse = (directory ++ (stem ++ ['.'])).reverse := by
    obtain ⟨c, rest, hreverse⟩ := List.exists_cons_of_ne_nil (mt List.reverse_eq_nil_iff.mp hstem)
    have hc : c ≠ '/' := by
      rintro rfl
      exact hslash (List.mem_reverse.mp (hreverse ▸ List.mem_cons_self))
    rcases dropTail_cases (directory ++ (stem ++ ['.'])).reverse with h | ⟨_, h⟩ | h | ⟨_, h⟩
    · exact h
    · simp at h
    · simp [hreverse] at h
    · simp [hreverse, hc] at h
  rw [split?_eq rfl (takeWhile_last_run h (by simp [hslash])) htail]
  simp [List.append_eq_cons_iff, hstem]

/-- The path with another extension has the same directory part and another name. -/
theorem exists_withExtension {directory stem old : Text} (h : IsDirectoryPart directory)
    (hslash : '/' ∉ stem) (hstem : stem ≠ []) (hname : IsName (stem ++ '.' :: old))
    (hold : extension? (directory ++ (stem ++ '.' :: old)) = some old) {new : Text} (hnew : '/' ∉ new)
    (hne : new ≠ old) :
    ∃ other, withExtension (directory ++ (stem ++ '.' :: old)) new = directory ++ other ∧ '/' ∉ other ∧
      other ≠ stem ++ '.' :: old := by
  have hcut : (directory ++ (stem ++ '.' :: old)).take
      ((directory ++ (stem ++ '.' :: old)).length - old.length) = directory ++ (stem ++ ['.']) := by
    have hpath : directory ++ (stem ++ '.' :: old) = directory ++ (stem ++ ['.']) ++ old := by simp
    rw [hpath, List.length_append, Nat.add_sub_cancel, List.take_left']
    rfl
  rw [withExtension, hold, Option.getD_some, hcut, setExtension, split?_dot h hslash hstem]
  by_cases hdot : stem = ['.']
  · subst hdot
    refine ⟨['.', '.'], by simp, by decide, fun hsame => hname.2.2 hsame.symm⟩
  · rw [if_neg hdot]
    refine ⟨stem ++ if new = [] then [] else '.' :: new, ?_, ?_, ?_⟩
    · simp only [splitName_dot hstem, List.append_assoc]
    · split <;> simp [hslash, hnew]
    · split
      · simp
      · simpa using hne

end Path

theorem Text.sameLetters_comm (a b : Text) : sameLetters a b = sameLetters b a := by
  rw [sameLetters, sameLetters, Bool.beq_comm]

/-- No extension of a sound configuration is both that of a header and that of a source. -/
theorem Config.sameLetters_eq_false {config : Config} (h : config.fault? = none) {header source : Text}
    (hheader : header ∈ config.headerExtensions) (hsource : source ∈ config.sourceExtensions) :
    Text.sameLetters header source = false := by
  have hshared : config.sharedExtension? = none := by
    cases hshared : config.sharedExtension? with
    | none => rfl
    | some extension =>
      simp only [fault?, hshared] at h
      split_ifs at h
  rw [sharedExtension?, List.find?_eq_none] at hshared
  simpa using fun hsame => hshared header hheader (List.any_eq_true.mpr ⟨source, hsource, hsame⟩)

namespace FileRole

variable {config : Config} {role : FileRole}

theorem exists_of_ofPath? {path : Text} (h : ofPath? config path = some role) :
    ∃ extension known, Path.extension? path = some extension ∧ known ∈ role.extensions config ∧
      Text.sameLetters extension known := by
  obtain ⟨extension, hextension, hrole⟩ := Option.bind_eq_some_iff.mp h
  rw [ofExtension?] at hrole
  have hany := List.find?_some hrole
  obtain ⟨known, hknown, hsame⟩ := List.any_eq_true.mp hany
  exact ⟨extension, known, hextension, hknown, hsame⟩

/-- An extension of the paired role is not one of the role. -/
theorem ne_of_mem_counterpart (h : config.fault? = none) {extension known new : Text}
    (hknown : known ∈ role.extensions config) (hsame : Text.sameLetters extension known)
    (hnew : new ∈ role.counterpart.extensions config) : new ≠ extension := by
  rintro rfl
  cases role with
  | header =>
    have hapart := Config.sameLetters_eq_false h hknown hnew
    rw [Text.sameLetters_comm] at hapart
    exact Bool.false_ne_true (hapart.symm.trans hsame)
  | source =>
    have hapart := Config.sameLetters_eq_false h hnew hknown
    exact Bool.false_ne_true (hapart.symm.trans hsame)

end FileRole

theorem Pairing.exists_of_search {path found : Text} {present : Text → Bool} {extensions : List Text}
    (h : (search path present extensions).2 = .found found) :
    ∃ extension ∈ extensions, '/' ∉ extension ∧ found = Path.withExtension path extension := by
  induction extensions with
  | nil => simp [search] at h
  | cons extension extensions ih =>
    rw [search] at h
    split at h
    · simp at h
    · next hslash =>
      dsimp only at h
      split at h
      · obtain rfl := Pairing.found.inj h
        exact ⟨extension, List.mem_cons_self, hslash, rfl⟩
      · obtain ⟨other, hmem, hother⟩ := ih h
        exact ⟨other, List.mem_cons_of_mem _ hmem, hother⟩

/-- A file and its pair are at different places. -/
theorem FileSystem.locate_pair_ne {fs : FileSystem} {config : Config} {role : FileRole} {file path text : Text}
    {present : Text → Bool} {here there : Location} (hconfig : config.fault? = none)
    (hrole : FileRole.ofPath? config file = some role) (hread : fs.read file = .ok text)
    (hpair : (Pairing.ofPath config file present).2 = .found path)
    (hhere : fs.locate file = .ok here) (hthere : fs.locate path = .ok there) : here ≠ there := by
  obtain ⟨old, known, hold, hknown, hsame⟩ := FileRole.exists_of_ofPath? hrole
  obtain ⟨name, hname, hextension⟩ := Option.bind_eq_some_iff.mp hold
  obtain ⟨⟨directory, _⟩, hsplit, rfl⟩ := Option.map_eq_some_iff.mp hname
  obtain ⟨rfl, hdirectory, hslash, hisName⟩ := Path.split?_of_read hread hsplit
  obtain ⟨stem, hparts⟩ : ∃ stem, Path.splitName _ = (stem, some old) := ⟨_, Prod.ext rfl hextension⟩
  obtain ⟨rfl, hstem⟩ := Path.splitName_eq_some hparts
  rw [Pairing.ofPath, hrole] at hpair
  obtain ⟨new, hnew, hslashNew, rfl⟩ := Pairing.exists_of_search hpair
  have hne := FileRole.ne_of_mem_counterpart hconfig hknown hsame hnew
  have hslashStem := fun hmem => hslash (List.mem_append_left _ hmem)
  obtain ⟨other, hother, hslashOther, hneOther⟩ :=
    Path.exists_withExtension hdirectory hslashStem hstem hisName hold hslashNew hne
  rw [hother] at hthere
  exact locate_ne hdirectory ⟨hslash, hisName⟩ hslashOther hneOther hhere hthere

end OutOfLine

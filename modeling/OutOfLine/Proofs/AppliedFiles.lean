import OutOfLine.Proofs.PairedFiles
import OutOfLine.Proofs.PlanSafety

/-!
# The files after a plan was applied

Everything that can fail without a write fails before the first write. The file is written before its pair, and
nothing is taken back: when the plan changes both and only the second write fails, the first file has
changed.
-/

namespace OutOfLine

namespace FileSystem

variable {fs : FileSystem} {location : Location} {old : Text}

/-- The tree with another text at a location. -/
def put (fs : FileSystem) (location : Location) (content : Text) : FileSystem :=
  { fs with entries := (location, .text content) :: fs.entries.filter fun item => item.1 ≠ location }

theorem lookup_filter_ne {entries : List (Location × Entry)} {other : Location} (h : other ≠ location) :
    (entries.filter fun item => item.1 ≠ location).lookup other = entries.lookup other := by
  induction entries with
  | nil => rfl
  | cons item entries ih =>
    by_cases hitem : item.1 = location
    · have hne : (other == item.1) = false := by simpa [hitem] using h
      rw [List.filter_cons_of_neg (by simpa using hitem), ih, List.lookup_cons, hne]
    · rw [List.filter_cons_of_pos (by simpa using hitem), List.lookup_cons, List.lookup_cons, ih]

theorem lookup_of_entryAt? (h : fs.entryAt? location = some (.text old)) :
    fs.entries.lookup location = some (.text old) := by
  unfold entryAt? at h
  split at h
  · next hlookup => rw [hlookup, h]
  · split at h <;> simp at h

/-- Where a text stands, another text changes nothing else. -/
theorem entryAt?_put (h : fs.entryAt? location = some (.text old)) (content : Text) (other : Location) :
    (fs.put location content).entryAt? other =
      if other = location then some (.text content) else fs.entryAt? other := by
  by_cases hother : other = location
  · simp [hother, put, entryAt?]
  · have hlookup : (fs.put location content).entries.lookup other = fs.entries.lookup other := by
      rw [put, List.lookup_cons, beq_false_of_ne hother]
      exact lookup_filter_ne hother
    have hany : ((fs.put location content).entries.any fun item => other.isPrefixOf item.1) =
        fs.entries.any fun item => other.isPrefixOf item.1 := by
      obtain ⟨front, back, hentries, -⟩ := List.lookup_eq_some_iff.mp (lookup_of_entryAt? h)
      rw [Bool.eq_iff_iff, List.any_eq_true, List.any_eq_true]
      constructor
      · rintro ⟨item, hitem, hprefix⟩
        rcases List.mem_cons.mp hitem with rfl | hitem
        · exact ⟨(location, .text old), by simp [hentries], hprefix⟩
        · exact ⟨item, (List.mem_filter.mp hitem).1, hprefix⟩
      · rintro ⟨item, hitem, hprefix⟩
        by_cases hlocation : item.1 = location
        · exact ⟨(location, .text content), List.mem_cons_self, hlocation ▸ hprefix⟩
        · exact ⟨item, List.mem_cons_of_mem _ (List.mem_filter.mpr ⟨hitem, by simpa using hlocation⟩), hprefix⟩
    rw [if_neg hother, entryAt?, entryAt?, hlookup, hany]

theorem follow_put (h : fs.entryAt? location = some (.text old)) (content : Text) (start : Location)
    (parts : List Text) : (fs.put location content).follow start parts = fs.follow start parts := by
  induction parts generalizing start with
  | nil => rfl
  | cons part parts ih =>
    by_cases hfrom : start = location
    · rw [follow, follow, entryAt?_put h, if_pos hfrom, hfrom, h]
    · simp only [follow, entryAt?_put h, if_neg hfrom, ih]

theorem locate_put (h : fs.entryAt? location = some (.text old)) (content path : Text) :
    (fs.put location content).locate path = fs.locate path :=
  follow_put h content _ _

/-- A file that is there is written unless it is locked. -/
theorem write_of_text {path : Text} (hlocate : fs.locate path = .ok location)
    (h : fs.entryAt? location = some (.text old)) (content : Text) : fs.write path content =
      if fs.locked location then .error .notPermitted else .ok (fs.put location content) := by
  have hentry : fs.entryAt? location ≠ some .directory := by simp [h]
  simp only [write, hlocate, bind, Except.bind, if_neg hentry]
  split <;> rfl

end FileSystem

/-- One write of a file that is there, and then the others. -/
theorem Invocation.writeAll_cons_of_text {fs : FileSystem} {location : Location} {path old : Text}
    (hlocate : fs.locate path = .ok location) (h : fs.entryAt? location = some (.text old)) (content : Text)
    (rest : List (Text × Text)) : writeAll fs ((path, content) :: rest) =
      if fs.locked location then (fs, ⟨[], .error (.unwritable path .notPermitted)⟩)
      else
        let result := writeAll (fs.put location content) rest
        (result.1, ⟨.updated path :: result.2.events, result.2.value⟩) := by
  rw [writeAll, FileSystem.write_of_text hlocate h]
  cases fs.locked location <;> rfl

namespace Command

theorem run_bind_eq_ok_iff {α β : Type} {t : Task α} {f : α → Task β} {b : β} :
    (t >>= f).run.value = .ok b ↔ ∃ a, t.run.value = .ok a ∧ (f a).run.value = .ok b := by
  change (t.run >>= ExceptT.bindCont f).value = .ok b ↔ _
  rw [Logged.value_bind]
  cases t.run.value with
  | error e => simp [ExceptT.bindCont]
  | ok a => simp [ExceptT.bindCont, ExceptT.run]

theorem run_checked_eq_ok_iff {α : Type} {trouble : Error → Trouble} {x : Except Error α} {a : α} :
    (checked trouble x).run.value = .ok a ↔ x = .ok a := by
  cases x <;> simp [checked]

theorem run_liftLog_eq_ok_iff {α : Type} {logged : Logged α} {a : α} :
    (liftLog logged).run.value = .ok a ↔ logged.value = a := by
  change Except.ok logged.value = Except.ok a ↔ _
  rw [Except.ok.injEq]

theorem run_readDocument_eq_ok_iff {fs : FileSystem} {path : Text} {doc : Document} :
    (readDocument fs path).run.value = .ok doc ↔ fs.read path = .ok doc.text := by
  obtain ⟨content⟩ := doc
  unfold readDocument
  cases fs.read path with
  | error e => simp
  | ok text => simp

/-- A configuration is used only if it has no fault. -/
theorem fault?_of_loadConfig {read : ConfigFile.Reader} {fs : FileSystem} {explicit : Option Text} {config : Config}
    (h : (loadConfig read fs explicit).run.value = .ok config) : config.fault? = none := by
  unfold loadConfig at h
  dsimp only at h
  split at h
  · split at h
    · obtain ⟨text, -, h⟩ := run_bind_eq_ok_iff.mp h
      split at h
      · simp only [run_bind_eq_ok_iff, run_checked_eq_ok_iff] at h
        obtain ⟨valid, hvalid, _, -, hconfig⟩ := h
        obtain rfl : valid = config := by simpa using hconfig
        unfold Config.validate at hvalid
        split at hvalid
        · simp at hvalid
        · next hfault =>
          obtain rfl := Except.ok.inj hvalid
          exact hfault
      · simp at h
    · obtain ⟨text, hthrow, -⟩ := run_bind_eq_ok_iff.mp h
      simp at hthrow
  · obtain rfl : {} = config := by simpa using h
    decide

/-- A workspace holds the texts of the file and of its pair. -/
theorem exists_of_load {fs : FileSystem} {config : Config} {file : Text} {workspace : Workspace}
    (h : (load fs config file).run.value = .ok workspace) :
    FileRole.ofPath? config file = some workspace.role ∧ fs.read file = .ok workspace.active.text ∧
      ∀ path paired, workspace.counterpart = some (path, paired) →
        (Pairing.ofPath config file fs.contains).2 = .found path ∧ fs.read path = .ok paired.text := by
  unfold load at h
  split at h
  · next role hrole =>
    simp only [run_bind_eq_ok_iff, run_readDocument_eq_ok_iff] at h
    obtain ⟨active, hactive, h⟩ := h
    split at h
    · next path hpair =>
      simp only [run_bind_eq_ok_iff, run_readDocument_eq_ok_iff] at h
      obtain ⟨paired, hpaired, h⟩ := h
      obtain rfl : _ = workspace := by simpa using h
      refine ⟨hrole, hactive, ?_⟩
      rintro _ _ ⟨⟩
      exact ⟨hpair, hpaired⟩
    · simp only [run_bind_eq_ok_iff] at h
      obtain ⟨-, -, h⟩ := h
      obtain rfl : _ = workspace := by simpa using h
      exact ⟨hrole, hactive, by simp⟩
    · simp at h
  · simp at h

/-- What is read and planned before anything is written: the file with its pair, their places, and the plan. -/
structure Planned (fs : FileSystem) (config : Config) (intent : Intent) (file : Text) (number : Nat) where
  workspace : Workspace
  line : Nat
  plan : Plan
  path : Text
  paired : Document
  here : Location
  there : Location
  load_eq : (load fs config file).run.value = .ok workspace
  cursor_eq : workspace.active.cursor number = .ok line
  plan_eq : ((workspace.site config line).plan? intent).value = .ok plan
  counterpart_eq : workspace.counterpart = some (path, paired)
  locate_file : fs.locate file = .ok here
  locate_path : fs.locate path = .ok there
  entry_here : fs.entryAt? here = some (.text workspace.active.text)
  entry_there : fs.entryAt? there = some (.text paired.text)
  here_ne_there : here ≠ there

namespace Planned

variable {fs : FileSystem} {config : Config} {intent : Intent} {file : Text} {number : Nat}

/-- The old text of one of the two files. -/
def oldText (planned : Planned fs config intent file number) : EditTarget → Text
  | .active => planned.workspace.active.text
  | .counterpart => planned.paired.text

/-- The place of one of the two files. -/
def place (planned : Planned fs config intent file number) : EditTarget → Location
  | .active => planned.here
  | .counterpart => planned.there

theorem place_injective (planned : Planned fs config intent file number) :
    Function.Injective planned.place := by
  intro target other h
  cases target <;> cases other
  · rfl
  · exact absurd h planned.here_ne_there
  · exact absurd h.symm planned.here_ne_there
  · rfl

/-- The tree with the new texts of some of the files, and everything else as it was. -/
def Holds (planned : Planned fs config intent file number) (written : EditTarget → Bool)
    (files : FileSystem) : Prop :=
  (∀ target, written target → ∃ text, planned.plan.applyTo target (planned.oldText target) = some text ∧
    files.entryAt? (planned.place target) = some (.text text)) ∧
  ∀ location, (∀ target, written target → location ≠ planned.place target) →
    files.entryAt? location = fs.entryAt? location

/-- The files that are written, in this order. -/
def writes (planned : Planned fs config intent file number) : List (Text × Text) :=
  edited planned.plan .active file planned.workspace.active ++
    edited planned.plan .counterpart planned.path planned.paired

theorem exists_handle (planned : Planned fs config intent file number) :
    ((planned.workspace.site config planned.line).handle planned.paired intent).value = some planned.plan := by
  obtain ⟨counterpart, hcounterpart, hplan⟩ := Site.exists_handle_of_plan? planned.plan_eq
  rw [Workspace.site, planned.counterpart_eq] at hcounterpart
  obtain rfl := Option.some.inj hcounterpart
  exact hplan

/-- Every plan changes the paired file, and its edits can be applied. -/
theorem exists_applied (planned : Planned fs config intent file number) :
    planned.plan.touches .counterpart ∧
      ∀ target, ∃ text, planned.plan.applyTo target (planned.oldText target) = some text := by
  obtain ⟨active, insert, a, b, hedits, htarget, hinsert, hactive⟩ :=
    Site.exists_replaces_of_handle planned.exists_handle
  have hcounter := Site.editsOf_counterpart_of_edits hedits htarget fun edit hedit => (hactive edit hedit).1
  have hone := Site.editsOf_active_of_edits hedits htarget fun edit hedit => (hactive edit hedit).1
  refine ⟨by simp [Plan.touches, hedits, htarget], fun target => ?_⟩
  cases target with
  | counterpart => exact ⟨_, (applyEdits_of_editsOf hcounter _).trans hinsert.applyTo_eq⟩
  | active =>
    cases active with
    | none => exact ⟨_, applyEdits_of_untouched hone _⟩
    | some edit =>
      obtain ⟨-, _, _, _, _, hreplaces, -⟩ := hactive edit rfl
      exact ⟨_, (applyEdits_of_editsOf hone _).trans hreplaces.applyTo_eq⟩

theorem writes_eq (planned : Planned fs config intent file number) {active paired : Text}
    (hactive : planned.plan.applyTo .active planned.workspace.active.text = some active)
    (hpaired : planned.plan.applyTo .counterpart planned.paired.text = some paired) :
    planned.writes =
      (if planned.plan.touches .active then [(file, active)] else []) ++ [(planned.path, paired)] := by
  rw [writes, edited, edited, if_pos planned.exists_applied.1, hactive, hpaired]
  rfl

/-- One more file is written where its old text stands. -/
theorem holds_put (planned : Planned fs config intent file number) {written written' : EditTarget → Bool}
    {files : FileSystem} (target : EditTarget) {text : Text} (h : planned.Holds written files)
    (hold : files.entryAt? (planned.place target) = some (.text (planned.oldText target)))
    (htext : planned.plan.applyTo target (planned.oldText target) = some text)
    (hwritten : ∀ other, written' other ↔ other = target ∨ written other) :
    planned.Holds written' (files.put (planned.place target) text) := by
  have hentry := FileSystem.entryAt?_put hold text
  refine ⟨fun other hother => ?_, fun location hlocation => ?_⟩
  · by_cases hplace : planned.place other = planned.place target
    · obtain rfl := planned.place_injective hplace
      exact ⟨text, htext, by rw [hentry, if_pos rfl]⟩
    · have hne : other ≠ target := fun heq => hplace (congrArg planned.place heq)
      obtain ⟨new, hnew, hstands⟩ := h.1 other (((hwritten other).mp hother).resolve_left hne)
      exact ⟨new, hnew, by rw [hentry, if_neg hplace, hstands]⟩
  · rw [hentry, if_neg (hlocation target ((hwritten target).mpr (.inl rfl)))]
    exact h.2 location fun other hother => hlocation other ((hwritten other).mpr (.inr hother))

theorem holds_start (planned : Planned fs config intent file number) : planned.Holds (fun _ => false) fs :=
  ⟨by simp, fun _ _ => rfl⟩

theorem holds_put_here (planned : Planned fs config intent file number) {active : Text}
    (h : planned.plan.applyTo .active planned.workspace.active.text = some active) :
    planned.Holds (· = .active) (fs.put planned.here active) :=
  planned.holds_put .active planned.holds_start planned.entry_here h (by simp)

theorem holds_put_there (planned : Planned fs config intent file number) {paired : Text}
    (h : planned.plan.applyTo .counterpart planned.paired.text = some paired)
    (hactive : ¬ planned.plan.touches .active) :
    planned.Holds planned.plan.touches (fs.put planned.there paired) := by
  refine planned.holds_put .counterpart planned.holds_start planned.entry_there h fun other => ?_
  cases other with
  | active => simpa using hactive
  | counterpart => simpa using planned.exists_applied.1

theorem holds_put_both (planned : Planned fs config intent file number) {active paired : Text}
    (hactive : planned.plan.applyTo .active planned.workspace.active.text = some active)
    (hpaired : planned.plan.applyTo .counterpart planned.paired.text = some paired)
    (htouches : planned.plan.touches .active)
    (hthere : (fs.put planned.here active).entryAt? planned.there = some (.text planned.paired.text)) :
    planned.Holds planned.plan.touches ((fs.put planned.here active).put planned.there paired) := by
  refine planned.holds_put .counterpart (planned.holds_put_here hactive) hthere hpaired fun other => ?_
  cases other with
  | active => simpa using htouches
  | counterpart => simpa using planned.exists_applied.1

/-- The plan changes both files, and only the second of them cannot be written. -/
structure Interrupted (planned : Planned fs config intent file number) : Prop where
  touches : planned.plan.touches .active
  unlocked : fs.locked planned.here = false
  locked : fs.locked planned.there

/-- Either all files are written, or the first write fails, or the file is written and its pair is not. -/
theorem writeAll_writes (planned : Planned fs config intent file number) :
    ((Invocation.writeAll fs planned.writes).2.value = .ok () ∧ ¬ planned.Interrupted ∧
      planned.Holds planned.plan.touches (Invocation.writeAll fs planned.writes).1) ∨
    ((Invocation.writeAll fs planned.writes).2.value ≠ .ok () ∧ ¬ planned.Interrupted ∧
      (Invocation.writeAll fs planned.writes).1 = fs) ∨
    ((Invocation.writeAll fs planned.writes).2.value ≠ .ok () ∧ planned.Interrupted ∧
      planned.Holds (· = .active) (Invocation.writeAll fs planned.writes).1) := by
  obtain ⟨active, hactive⟩ := planned.exists_applied.2 .active
  obtain ⟨paired, hpaired⟩ := planned.exists_applied.2 .counterpart
  rw [planned.writes_eq hactive hpaired]
  by_cases htouches : planned.plan.touches .active
  · rw [if_pos htouches, List.singleton_append,
      Invocation.writeAll_cons_of_text planned.locate_file planned.entry_here]
    split
    · next hlocked => exact .inr (.inl ⟨by simp, fun h => by simp [h.unlocked] at hlocked, rfl⟩)
    · next hunlocked =>
      -- The file is written; its pair still has the old text.
      have hlocate : (fs.put planned.here active).locate planned.path = .ok planned.there := by
        rw [FileSystem.locate_put planned.entry_here, planned.locate_path]
      have hthere : (fs.put planned.here active).entryAt? planned.there = some (.text planned.paired.text) := by
        rw [FileSystem.entryAt?_put planned.entry_here, if_neg planned.here_ne_there.symm, planned.entry_there]
      rw [Invocation.writeAll_cons_of_text hlocate hthere]
      split
      · next hlocked =>
        exact .inr (.inr ⟨by simp, ⟨htouches, by simpa using hunlocked, hlocked⟩, planned.holds_put_here hactive⟩)
      · next hthere' =>
        exact .inl ⟨rfl, fun h => hthere' h.locked, planned.holds_put_both hactive hpaired htouches hthere⟩
  · rw [if_neg htouches, List.nil_append,
      Invocation.writeAll_cons_of_text planned.locate_path planned.entry_there]
    split
    · exact .inr (.inl ⟨by simp, fun h => htouches h.touches, rfl⟩)
    · exact .inl ⟨rfl, fun h => htouches h.touches, planned.holds_put_there hpaired htouches⟩

/-- What was planned is what the command then wants to happen. -/
theorem exists_runApply (planned : Planned fs config intent file number) (write : Bool) :
    ∃ wanted, (runApply fs config intent file number write).run.value = .ok wanted ∧
      wanted.writes = if write then planned.writes else [] := by
  simp only [runApply, run_bind_eq_ok_iff, run_checked_eq_ok_iff, run_liftLog_eq_ok_iff]
  refine ⟨_, ⟨planned.workspace, planned.load_eq, planned.line, planned.cursor_eq, _, rfl, planned.plan,
    planned.plan_eq, rfl⟩, ?_⟩
  simp only [writes, planned.counterpart_eq, Option.toList_some, List.flatMap_singleton]

end Planned

/-- All that can fail without a write has not failed once the command wants something to happen. -/
theorem exists_planned {fs : FileSystem} {config : Config} {intent : Intent} {file : Text} {number : Nat}
    {write : Bool} {wanted : Effect} (hconfig : config.fault? = none)
    (h : (runApply fs config intent file number write).run.value = .ok wanted) :
    Nonempty (Planned fs config intent file number) := by
  simp only [runApply, run_bind_eq_ok_iff, run_checked_eq_ok_iff, run_liftLog_eq_ok_iff] at h
  obtain ⟨workspace, hload, line, hcursor, _, rfl, plan, hplan, -⟩ := h
  obtain ⟨hrole, hactive, hpair⟩ := exists_of_load hload
  obtain ⟨counterpart, hcounterpart, -⟩ := Site.exists_handle_of_plan? hplan
  obtain ⟨⟨path, paired⟩, hworkspace, rfl⟩ := Option.map_eq_some_iff.mp hcounterpart
  obtain ⟨hfound, hpaired⟩ := hpair path paired hworkspace
  obtain ⟨here, hhere, hentry⟩ := FileSystem.read_eq_ok_iff.mp hactive
  obtain ⟨there, hthere, hentry'⟩ := FileSystem.read_eq_ok_iff.mp hpaired
  have hne := FileSystem.locate_pair_ne hconfig hrole hactive hfound hhere hthere
  exact ⟨⟨workspace, line, plan, path, paired, here, there, hload, hcursor, hplan, hworkspace, hhere, hthere,
    hentry, hentry', hne⟩⟩

end Command

theorem Trouble.exitCode_ne_zero (trouble : Trouble) : trouble.exitCode ≠ 0 := by
  unfold exitCode
  split <;> decide

namespace Invocation

variable {invocation : Invocation} {read : ConfigFile.Reader} {fs : FileSystem}

theorem run_of_error {trouble : Trouble} (h : (invocation.effect read fs).run.value = .error trouble) :
    (invocation.run read fs).files = fs ∧ (invocation.run read fs).exitCode ≠ 0 := by
  simp only [run, h, fail]
  split <;> exact ⟨rfl, trouble.exitCode_ne_zero⟩

theorem run_of_ok {wanted : Effect} (h : (invocation.effect read fs).run.value = .ok wanted) :
    (invocation.run read fs).files = (writeAll fs wanted.writes).1 ∧
      ((invocation.run read fs).exitCode = 0 ↔ (writeAll fs wanted.writes).2.value = .ok ()) := by
  simp only [run, h]
  cases hwritten : (writeAll fs wanted.writes).2.value with
  | ok _ => simp [succeed]
  | error trouble =>
    simp only [fail]
    split <;> simp [trouble.exitCode_ne_zero]

section Apply

variable {intent : Intent} {file : Text} {number : Nat} {write : Bool}

/-- With a configuration and a plan, the run is the writing of the planned files. -/
theorem run_of_planned {config : Config} (h : invocation.command = .apply intent file number write)
    (hconfig : (Command.loadConfig read fs invocation.config).run.value = .ok config)
    (planned : Command.Planned fs config intent file number) :
    (invocation.run read fs).files = (writeAll fs (if write then planned.writes else [])).1 ∧
      ((invocation.run read fs).exitCode = 0 ↔
        (writeAll fs (if write then planned.writes else [])).2.value = .ok ()) := by
  obtain ⟨wanted, hwanted, hwrites⟩ := planned.exists_runApply write
  rw [← hwrites]
  apply run_of_ok
  simp only [effect, Command.run_bind_eq_ok_iff, h]
  exact ⟨config, hconfig, (), Command.run_liftLog_eq_ok_iff.mpr rfl, hwanted⟩

/-- A run fails with every file as it was, or it has a configuration and a plan. -/
theorem failed_or_planned (h : invocation.command = .apply intent file number write) :
    ((invocation.run read fs).files = fs ∧ (invocation.run read fs).exitCode ≠ 0) ∨
      ∃ config, (Command.loadConfig read fs invocation.config).run.value = .ok config ∧
        Nonempty (Command.Planned fs config intent file number) := by
  cases heffect : (invocation.effect read fs).run.value with
  | error trouble => exact .inl (run_of_error heffect)
  | ok wanted =>
    simp only [effect, Command.run_bind_eq_ok_iff, h] at heffect
    obtain ⟨config, hconfig, _, -, hrun⟩ := heffect
    exact .inr ⟨config, hconfig, Command.exists_planned (Command.fault?_of_loadConfig hconfig) hrun⟩

/-- However the configuration file is read: without the option nothing is written. A success writes exactly the
files that the plan touches. When the plan changes both files and only the paired one cannot be written, the
command fails, the file has its new text and everything else is as it was. Every other failure leaves every file
as it was. -/
theorem files_of_apply (h : invocation.command = .apply intent file number write) (read : ConfigFile.Reader)
    (fs : FileSystem) :
    (write = false → (invocation.run read fs).files = fs) ∧
    ((invocation.run read fs).exitCode = 0 → write = true →
      ∃ config, (Command.loadConfig read fs invocation.config).run.value = .ok config ∧
        ∃ planned : Command.Planned fs config intent file number,
          planned.Holds planned.plan.touches (invocation.run read fs).files) ∧
    (write = true → ∀ config, (Command.loadConfig read fs invocation.config).run.value = .ok config →
      ∀ planned : Command.Planned fs config intent file number, planned.Interrupted →
        (invocation.run read fs).exitCode ≠ 0 ∧ planned.Holds (· = .active) (invocation.run read fs).files) ∧
    ((invocation.run read fs).exitCode ≠ 0 →
      (∀ config, (Command.loadConfig read fs invocation.config).run.value = .ok config →
        ∀ planned : Command.Planned fs config intent file number, ¬ planned.Interrupted) →
      (invocation.run read fs).files = fs) := by
  cases write with
  | false =>
    have hfiles : (invocation.run read fs).files = fs := by
      rcases failed_or_planned h with ⟨hfiles, -⟩ | ⟨config, hconfig, ⟨planned⟩⟩
      · exact hfiles
      · exact (run_of_planned h hconfig planned).1
    exact ⟨fun _ => hfiles, by simp, by simp, fun _ _ => hfiles⟩
  | true =>
    refine ⟨by simp, fun hzero _ => ?_, fun _ config hconfig planned hinterrupted => ?_, fun hcode hnot => ?_⟩
    · rcases failed_or_planned h with ⟨-, hcode⟩ | ⟨config, hconfig, ⟨planned⟩⟩
      · exact absurd hzero hcode
      · obtain ⟨hfiles, hok⟩ := run_of_planned h hconfig planned
        rw [hfiles]
        rcases planned.writeAll_writes with ⟨-, -, hholds⟩ | ⟨herror, -⟩ | ⟨herror, -⟩
        · exact ⟨config, hconfig, planned, hholds⟩
        · exact absurd (hok.mp hzero) herror
        · exact absurd (hok.mp hzero) herror
    · obtain ⟨hfiles, hok⟩ := run_of_planned h hconfig planned
      rw [hfiles]
      rcases planned.writeAll_writes with ⟨-, hnot, -⟩ | ⟨-, hnot, -⟩ | ⟨herror, -, hholds⟩
      · exact absurd hinterrupted hnot
      · exact absurd hinterrupted hnot
      · exact ⟨fun hzero => herror (hok.mp hzero), hholds⟩
    · rcases failed_or_planned h with ⟨hfiles, -⟩ | ⟨config, hconfig, ⟨planned⟩⟩
      · exact hfiles
      · obtain ⟨hfiles, hok⟩ := run_of_planned h hconfig planned
        rw [hfiles]
        rcases planned.writeAll_writes with ⟨hwritten, -⟩ | ⟨-, -, hfs⟩ | ⟨-, hinterrupted, -⟩
        · exact absurd (hok.mpr hwritten) hcode
        · exact hfs
        · exact absurd hinterrupted (hnot config hconfig planned)

/-- Moves the body of a function on the first line of a header. -/
def moveInvocation : Invocation := { command := .apply .moveImplementationToSource "a.h".toList 1 true }

/-- A header with a function, its empty source, and another file; some of them cannot be written. -/
def smallTree (locked : List Text) : FileSystem :=
  .ofFiles [("a.h".toList, .text "int f() \x7b \x7d\n".toList), ("a.cpp".toList, .text []),
    ("b.h".toList, .text "int g();\n".toList)] locked

/-- The command on that tree, whose configuration is the default one. -/
def moveOutcome (locked : List Text) : Outcome := moveInvocation.run ConfigFile.readPlain (smallTree locked)

theorem files_of_apply_smallTree :
    ((moveOutcome []).exitCode = 0 ∧ (moveOutcome []).files.read "a.h".toList = .ok "int f();\n".toList ∧
      ∃ config, (Command.loadConfig ConfigFile.readPlain (smallTree []) none).run.value = .ok config ∧
        ∃ planned : Command.Planned (smallTree []) config .moveImplementationToSource "a.h".toList 1,
          planned.Holds planned.plan.touches (moveOutcome []).files) ∧
    ∃ (config : Config) (planned : Command.Planned (smallTree ["a.cpp".toList]) config .moveImplementationToSource
        "a.h".toList 1),
      (Command.loadConfig ConfigFile.readPlain (smallTree ["a.cpp".toList]) none).run.value = .ok config ∧
        planned.Interrupted ∧ (moveOutcome ["a.cpp".toList]).exitCode ≠ 0 ∧
        planned.Holds (· = .active) (moveOutcome ["a.cpp".toList]).files := by
  have hcode : (moveOutcome []).exitCode = 0 := by decide +kernel
  have happly (locked : List Text) := @files_of_apply moveInvocation _ _ _ _ rfl ConfigFile.readPlain (smallTree locked)
  refine ⟨⟨hcode, by decide +kernel, (happly []).2.1 hcode rfl⟩, ?_⟩
  -- If no write were interrupted, the failed command would have left the header as it was.
  obtain ⟨-, -, hinterrupt, hunchanged⟩ := happly ["a.cpp".toList]
  have hcode' : (moveOutcome ["a.cpp".toList]).exitCode ≠ 0 := by decide +kernel
  have hchanged : (moveOutcome ["a.cpp".toList]).files.read "a.h".toList ≠
      (smallTree ["a.cpp".toList]).read "a.h".toList := by decide +kernel
  by_contra hnone
  refine hchanged (congrArg (fun files => FileSystem.read files "a.h".toList) (hunchanged hcode' ?_))
  intro config hconfig planned hinterrupted
  exact hnone ⟨config, planned, hconfig, hinterrupted, hinterrupt rfl config hconfig planned hinterrupted⟩

/-- The header has lost the body when the source cannot be written. -/
theorem files_of_lockedSource :
    (moveOutcome ["a.cpp".toList]).exitCode = 1 ∧
    (smallTree ["a.cpp".toList]).read "a.h".toList = .ok "int f() \x7b \x7d\n".toList ∧
    (moveOutcome ["a.cpp".toList]).files.read "a.h".toList = .ok "int f();\n".toList ∧
    (moveOutcome ["a.cpp".toList]).files.read "a.cpp".toList = .ok [] := by
  decide +kernel

end Apply

end Invocation
end OutOfLine

import ToyHv.Handles.Table

namespace ToyHv

variable {α : Type} {env : OpenEnv} {os : Os} {path : List W8} {handles : List Ihandle} {err : Err}

/-- The device an open asks for, the partition behind ':' and the file behind ','. -/
def pathDevice (path : List W8) : List W8 := (cutAt 0x3a (cutAt 0x2c path).1).1
def pathPart (path : List W8) : Option (List W8) := (cutAt 0x3a (cutAt 0x2c path).1).2
def pathFile (path : List W8) : Option (List W8) := (cutAt 0x2c path).2

def orErr (answer : Option α) (err : Err) : Except Err α :=
  match answer with
  | none => .error err
  | some a => .ok a

theorem orErr_bind {β : Type} (a : α) (err : Err) (next : α → Except Err β) :
    (orErr (some a) err >>= next) = next a := rfl

def OpenEnv.room (env : OpenEnv) : Except Err (W32 × W32) :=
  if env.dupPath then orErr env.block .noMem else .error .noMem

def OpenEnv.findPart (env : OpenEnv) (os : Os) (disk : ℕ × W32) (index : W32) : Except Err DiskPart :=
  let (err, part, _) := diskFindPart os disk.1 disk.2 index env.part env.blk
  if err = .none then .ok part else .error err

/-- What an open is for: the steps to a device, each with its own error. A path that names no
    partition would be the whole disk. -/
def openSteps (env : OpenEnv) (os : Os) (path : List W8) : Except Err Device :=
  if env.dupDev = false then .error .noMem
  else
    match pathFile path with
    | some f => do
      let fd ← orErr (env.openFile f) .posix
      let _ ← env.room
      return .file fd
    | none => do
      let node ← orErr (env.pathOffset (pathDevice path)) .notFound
      let diskPath ← orErr (env.diskFile node) .unsupported
      let disk ← orErr (env.diskOpen diskPath) .posix
      let part ← env.findPart os disk ((pathPart path).elim 0 atoi)
      let block ← env.room
      return .disk disk.1 part block.2

/-- An open looks at nothing that was not set, returns ERR_NONE just when it made a handle and told its
    value, and returns the error of the step that failed with nothing changed. -/
structure OpenTold (env : OpenEnv) (os : Os) (path : List W8) (handles : List Ihandle) (err : Err)
    (ihandle : Option W32) (handles' : List Ihandle) : Prop where
  made : err = .none ↔ ∃ h : Ihandle, handles' = handles ++ [h] ∧ ihandle = some h.value ∧ h.value ≠ 0
  failed : ∀ step, openSteps env os path = .error step → err = step ∧ ihandle = none ∧ handles' = handles

def OpenFaithful (env : OpenEnv) (os : Os) (path : List W8) (handles : List Ihandle) : Prop :=
  ∃ err ihandle os' handles', romOpenParsePathStrict env os path handles = .ok (err, ihandle, os', handles') ∧
    OpenTold env os path handles err ihandle handles'

/-- The open ends before the label `done`, or gets there with a handle. -/
def OpenClean (env : OpenEnv) (os : Os) (path : List W8) : Prop :=
  env.dupDev = false ∨ pathFile path ≠ none ∨
    ∃ diskPath, (env.pathOffset (pathDevice path)).bind env.diskFile = some diskPath ∧
      (env.diskOpen diskPath = none ∨ pathPart path ≠ none ∧ ∃ device, openSteps env os path = .ok device)

variable {f p diskPath : List W8} {disk : ℕ × W32}

theorem strict_noMem (dup : env.dupDev = false) :
    romOpenParsePathStrict env os path handles = .ok (.noMem, none, os, handles) := by
  simp [romOpenParsePathStrict, dup]

theorem strict_file (dup : env.dupDev = true) (file : pathFile path = some f) :
    romOpenParsePathStrict env os path handles =
      .ok ((romIhandleFromFile (env.openFile f) (env.block.map Prod.fst) env.dupPath handles).1,
        (romIhandleFromFile (env.openFile f) (env.block.map Prod.fst) env.dupPath handles).2.1, os,
        (romIhandleFromFile (env.openFile f) (env.block.map Prod.fst) env.dupPath handles).2.2) := by
  rw [pathFile] at file
  simp only [romOpenParsePathStrict, dup, file, not_true_eq_false, if_false, pure_ok]

/-- Without a disk the label looks at a local that was never set. -/
theorem strict_unset (dup : env.dupDev = true) (file : pathFile path = none)
    (missing : (env.pathOffset (pathDevice path)).bind env.diskFile = none) :
    romOpenParsePathStrict env os path handles = .error .undefined := by
  rw [pathFile] at file
  rw [pathDevice] at missing
  simp only [romOpenParsePathStrict, dup, file, not_true_eq_false, if_false]
  cases known : env.pathOffset (cutAt 0x3a (cutAt 0x2c path).1).1 with
  | none => rfl
  | some node =>
    rw [known, Option.bind_some] at missing
    simp only [missing]
    rfl

structure AtDisk (env : OpenEnv) (path diskPath : List W8) : Prop where
  dup : env.dupDev = true
  file : pathFile path = none
  known : (env.pathOffset (pathDevice path)).bind env.diskFile = some diskPath

theorem AtDisk.strict (there : AtDisk env path diskPath) : romOpenParsePathStrict env os path handles =
    match env.diskOpen diskPath with
    | none => .ok (.posix, none, os, handles)
    | some disk =>
      match pathPart path with
      | none => .error .undefined
      | some p =>
        let (err, part, os) := diskFindPart os disk.1 disk.2 (atoi p) env.part env.blk
        if err ≠ .none then .ok (.none, none, os, handles)
        else
          let (_, ihandle, handles) := romIhandleFromDisk env.block env.dupPath disk.1 part handles
          .ok (.none, ihandle, os, handles) := by
  obtain ⟨dup, file, known⟩ := there
  rw [pathFile] at file
  rw [pathDevice] at known
  obtain ⟨node, device, diskFile⟩ := Option.bind_eq_some_iff.mp known
  have unfolded : romOpenParsePathStrict env os path handles = romOpenParsePathStrict env os path handles := rfl
  conv_rhs at unfolded =>
    simp only [romOpenParsePathStrict, dup, file, device, diskFile, not_true_eq_false, if_false, romOpenDone,
      reduceCtorEq, and_false, ok_bind, pure_ok]
  exact unfolded

theorem told_failed (steps : openSteps env os path = .error err) (error : err ≠ .none) :
    OpenTold env os path handles err none handles := by
  constructor
  · apply iff_of_false error
    rintro ⟨h, same, _⟩
    exact absurd (congrArg List.length same) (by simp)
  · intro step failed
    obtain rfl := Except.error.inj (steps.symm.trans failed)
    exact ⟨rfl, rfl, rfl⟩

theorem told_made {v : W32} {device : Device} (steps : openSteps env os path = .ok device) (nonzero : v ≠ 0) :
    OpenTold env os path handles .none (some v) (handles ++ [⟨v, device⟩]) := by
  constructor
  · exact iff_of_true rfl ⟨⟨v, device⟩, rfl, rfl, nonzero⟩
  · intro step failed
    rw [steps] at failed
    cases failed

/-- ERR_NONE without a handle is a failure that is not told. -/
theorem OpenFaithful.handle {os' : Os} {ihandle : Option W32} {handles' : List Ihandle}
    (faithful : OpenFaithful env os path handles)
    (parsed : romOpenParsePathStrict env os path handles = .ok (.none, ihandle, os', handles')) : ihandle ≠ none := by
  obtain ⟨err, ihandle, os', handles', same, told⟩ := faithful
  rw [parsed] at same
  obtain ⟨rfl, rfl, rfl, rfl⟩ := same
  obtain ⟨h, _, value, _⟩ := told.made.mp rfl
  rw [value]
  exact Option.some_ne_none _

theorem OpenFaithful.defined (faithful : OpenFaithful env os path handles) :
    romOpenParsePathStrict env os path handles ≠ .error .undefined := by
  obtain ⟨err, ihandle, os', handles', parsed, _⟩ := faithful
  rw [parsed]
  exact fun other => by cases other

/-- malloc has no block at NULL. -/
def OpenEnv.Allocates (env : OpenEnv) : Prop := ∀ d stale, env.block = some (d, stale) → d ≠ 0

theorem file_faithful (sound : env.Allocates) (dup : env.dupDev = true) (file : pathFile path = some f) :
    OpenFaithful env os path handles := by
  have steps : openSteps env os path = (do
      let fd ← orErr (env.openFile f) .posix
      let _ ← env.room
      return .file fd) := by
    simp only [openSteps, dup, file, Bool.true_eq_false, if_false]
  refine ⟨_, _, _, _, strict_file dup file, ?_⟩
  cases opened : env.openFile f with
  | none =>
    apply told_failed
    · rw [steps, opened]
      rfl
    · exact Err.noConfusion
  | some fd =>
    cases block : env.block with
    | none =>
      apply told_failed
      · rw [steps, opened, OpenEnv.room, block]
        cases env.dupPath <;> rfl
      · exact Err.noConfusion
    | some found =>
      cases dupPath : env.dupPath with
      | false =>
        apply told_failed
        · rw [steps, opened, OpenEnv.room, dupPath]
          rfl
        · exact Err.noConfusion
      | true =>
        apply told_made
        · rw [steps, opened, OpenEnv.room, dupPath, block]
          rfl
        · exact sound _ _ block

theorem AtDisk.steps (there : AtDisk env path diskPath) (opened : env.diskOpen diskPath = some disk)
    (named : pathPart path = some p) : openSteps env os path = (do
      let part ← env.findPart os disk (atoi p)
      let block ← env.room
      return .disk disk.1 part block.2) := by
  obtain ⟨node, device, diskFile⟩ := Option.bind_eq_some_iff.mp there.known
  simp only [openSteps, there.dup, there.file, device, diskFile, opened, named, Bool.true_eq_false, if_false,
    orErr_bind, Option.elim_some]

theorem AtDisk.found (there : AtDisk env path diskPath) (opened : env.diskOpen diskPath = some disk)
    (named : pathPart path = some p) {part : DiskPart} {os' : Os}
    (found : diskFindPart os disk.1 disk.2 (atoi p) env.part env.blk = (err, part, os')) :
    romOpenParsePathStrict env os path handles =
      if err ≠ .none then .ok (.none, none, os', handles)
      else .ok (.none, (romIhandleFromDisk env.block env.dupPath disk.1 part handles).2.1, os',
        (romIhandleFromDisk env.block env.dupPath disk.1 part handles).2.2) := by
  rw [there.strict]
  simp only [opened, named, found]

/-- Behind the disk only a path with a partition, every step of which succeeds, ends well. -/
theorem disk_faithful_iff (sound : env.Allocates) (there : AtDisk env path diskPath)
    (opened : env.diskOpen diskPath = some disk) :
    OpenFaithful env os path handles ↔ pathPart path ≠ none ∧ ∃ device, openSteps env os path = .ok device := by
  cases named : pathPart path with
  | none =>
    apply iff_of_false
    · intro faithful
      apply faithful.defined
      rw [there.strict]
      simp only [opened, named]
    · exact fun clean => clean.1 rfl
  | some p =>
    have steps : openSteps env os path = _ := there.steps opened named
    obtain ⟨err, part, os', found⟩ : ∃ err part os', diskFindPart os disk.1 disk.2 (atoi p) env.part env.blk =
      (err, part, os') := ⟨_, _, _, rfl⟩
    have strict : romOpenParsePathStrict env os path handles = _ := there.found opened named found
    by_cases done : err = .none
    · subst done
      have partition : env.findPart os disk (atoi p) = .ok part := by
        simp only [OpenEnv.findPart, found, if_true]
      rw [if_neg (not_not.mpr rfl)] at strict
      rw [partition] at steps
      by_cases room : ∃ d stale, env.block = some (d, stale) ∧ env.dupPath = true
      · obtain ⟨d, stale, block, dupPath⟩ := room
        have made : openSteps env os path = .ok (.disk disk.1 part stale) := by
          rw [steps, OpenEnv.room, block, dupPath]
          rfl
        simp only [romIhandleFromDisk, block, dupPath, if_true] at strict
        apply iff_of_true
        · exact ⟨_, _, _, _, strict, told_made made (sound d stale block)⟩
        · exact ⟨Option.some_ne_none p, _, made⟩
      · have nothing : romIhandleFromDisk env.block env.dupPath disk.1 part handles = (.noMem, none, handles) ∧
            openSteps env os path = .error .noMem := by
          rw [steps, OpenEnv.room]
          unfold romIhandleFromDisk
          cases block : env.block with
          | none => cases env.dupPath <;> exact ⟨rfl, rfl⟩
          | some found =>
            cases dupPath : env.dupPath with
            | false => exact ⟨rfl, rfl⟩
            | true => exact absurd ⟨found.1, found.2, block, dupPath⟩ room
        rw [nothing.1] at strict
        apply iff_of_false
        · exact fun faithful => faithful.handle strict rfl
        · rintro ⟨_, device, made⟩
          rw [nothing.2] at made
          cases made
    · have failed : openSteps env os path = .error err := by
        simp only [steps, OpenEnv.findPart, found, if_neg done]
        rfl
      rw [if_pos done] at strict
      apply iff_of_false
      · exact fun faithful => faithful.handle strict rfl
      · rintro ⟨_, device, made⟩
        rw [failed] at made
        cases made

theorem AtDisk.clean_iff (there : AtDisk env path diskPath) :
    OpenClean env os path ↔ env.diskOpen diskPath = none ∨
      pathPart path ≠ none ∧ ∃ device, openSteps env os path = .ok device := by
  constructor
  · rintro (noMem | named | ⟨other, same, ends⟩)
    · rw [there.dup] at noMem
      cases noMem
    · exact absurd there.file named
    · obtain rfl := Option.some.inj (there.known.symm.trans same)
      exact ends
  · exact fun ends => .inr (.inr ⟨diskPath, there.known, ends⟩)

theorem AtDisk.unopened (there : AtDisk env path diskPath) (opened : env.diskOpen diskPath = none) :
    OpenFaithful env os path handles := by
  have strict : romOpenParsePathStrict env os path handles = _ := there.strict
  have steps : openSteps env os path = .error .posix := by
    obtain ⟨node, device, diskFile⟩ := Option.bind_eq_some_iff.mp there.known
    simp only [openSteps, there.dup, there.file, device, diskFile, opened, Bool.true_eq_false, if_false, orErr_bind]
    rfl
  rw [opened] at strict
  exact ⟨_, _, _, _, strict, told_failed steps Err.noConfusion⟩

/-- An open is faithful just when it ends before the label `done` or gets there with a handle. -/
theorem open_faithful_iff (os : Os) (path : List W8) (handles : List Ihandle) (sound : env.Allocates) :
    OpenFaithful env os path handles ↔ OpenClean env os path := by
  cases dup : env.dupDev with
  | false =>
    have steps : openSteps env os path = .error .noMem := by rw [openSteps, if_pos dup]
    apply iff_of_true
    · exact ⟨_, _, _, _, strict_noMem dup, told_failed steps Err.noConfusion⟩
    · exact .inl dup
  | true =>
    have memory : env.dupDev ≠ false := by rw [dup]; decide
    cases file : pathFile path with
    | some f =>
      apply iff_of_true
      · exact file_faithful sound dup file
      · exact .inr (.inl (by rw [file]; exact Option.some_ne_none f))
    | none =>
      cases known : (env.pathOffset (pathDevice path)).bind env.diskFile with
      | none =>
        apply iff_of_false
        · exact fun faithful => faithful.defined (strict_unset dup file known)
        · rintro (noMem | named | ⟨diskPath, there, _⟩)
          · exact memory noMem
          · exact named file
          · rw [known] at there
            cases there
      | some diskPath =>
        have there : AtDisk env path diskPath := ⟨dup, file, known⟩
        rw [there.clean_iff]
        cases opened : env.diskOpen diskPath with
        | none => exact iff_of_true (there.unopened opened) (.inl rfl)
        | some disk =>
          rw [disk_faithful_iff sound there opened]
          have isOpen : ¬ (some disk = none) := Option.some_ne_none disk
          simp only [isOpen, false_or]

theorem AtDisk.parse (there : AtDisk env path diskPath) :
    romOpenParsePath env os path handles = romOpenParsePathStrict env os path handles := by
  rw [there.strict]
  obtain ⟨dup, file, known⟩ := there
  rw [pathFile] at file
  rw [pathDevice] at known
  simp only [romOpenParsePath, dup, file, known, not_true_eq_false, if_false, pathPart]
  cases env.diskOpen diskPath with
  | none => rfl
  | some disk => rfl

/-- Where nothing unset is looked at, it makes no difference that this is undefined. -/
theorem strict_parse {result : Err × Option W32 × Os × List Ihandle}
    (parsed : romOpenParsePathStrict env os path handles = .ok result) :
    romOpenParsePath env os path handles = .ok result := by
  cases dup : env.dupDev with
  | false =>
    rw [strict_noMem dup] at parsed
    simp only [romOpenParsePath, dup, Bool.false_eq_true, not_false_eq_true, if_true]
    exact parsed
  | true =>
    cases file : pathFile path with
    | some f =>
      rw [strict_file dup file] at parsed
      rw [pathFile] at file
      simp only [romOpenParsePath, dup, file, not_true_eq_false, if_false]
      exact parsed
    | none =>
      cases known : (env.pathOffset (pathDevice path)).bind env.diskFile with
      | none =>
        rw [strict_unset dup file known] at parsed
        cases parsed
      | some diskPath =>
        have there : AtDisk env path diskPath := ⟨dup, file, known⟩
        rw [there.parse]
        exact parsed

def diskEnv : OpenEnv :=
  ⟨true, true, fun _ => none, fun dev => if dev = [0x64] then some 0 else none, fun _ => some [0x2f],
    fun _ => some (3, 0x10000), some (0x1000, 0), ⟨0, 0⟩, fun _ => 0⟩

theorem diskEnv_allocates : diskEnv.Allocates := by
  rintro d stale ⟨⟩
  decide

theorem whole_disk_opened : OpenFaithful diskEnv zeroMachine.os [0x64, 0x3a, 0x30] [] := by
  apply (open_faithful_iff zeroMachine.os [0x64, 0x3a, 0x30] [] diskEnv_allocates).mpr
  have there : AtDisk diskEnv [0x64, 0x3a, 0x30] [0x2f] := ⟨rfl, by decide, by decide⟩
  have named : pathPart [0x64, 0x3a, 0x30] = some [0x30] := by decide
  have whole : atoi [0x30] = 0 := by decide
  have steps : openSteps diskEnv zeroMachine.os [0x64, 0x3a, 0x30] = .ok (.disk 3 ⟨0, 0x10000⟩ 0) := by
    rw [there.steps rfl named, whole]
    rfl
  exact .inr (.inr ⟨[0x2f], there.known, .inr ⟨by rw [named]; exact Option.some_ne_none _, _, steps⟩⟩)

/-- An open of a device that is not there looks at `disk`, which was never set, and returns ERR_NONE. -/
theorem unknown_device_opened : ¬ ∀ (env : OpenEnv) (os : Os) (path : List W8) (handles : List Ihandle),
    env.Allocates → OpenFaithful env os path handles := by
  intro always
  have faithful := always diskEnv zeroMachine.os [0x65, 0x3a, 0x30] [] diskEnv_allocates
  exact faithful.defined (strict_unset rfl (by decide) (by decide))

end ToyHv

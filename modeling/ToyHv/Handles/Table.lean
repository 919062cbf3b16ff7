import ToyHv.Handles.Partition
import ToyHv.Memory.Strings
import ToyHv.Memory.Words
import ToyHv.Model.Open
import ToyHv.Translation.Requests

namespace ToyHv
open Library

/-- What an open makes a handle of: a device without its cursor. -/
inductive Object
  | console
  | file (fd : ℕ)
  | disk (fd : ℕ) (part : DiskPart)
  deriving DecidableEq

def Device.object : Device → Object
  | .console => .console
  | .file fd => .file fd
  | .disk fd part _ => .disk fd part

variable {handles : List Ihandle} {v w : W32} {device : Device}

theorem methods_cons (h : Ihandle) (handles : List Ihandle) (v : W32) :
    romMethodsByIhandle (h :: handles) v = if h.value = v then some h.device else romMethodsByIhandle handles v := by
  rw [romMethodsByIhandle, List.find?_cons]
  by_cases same : h.value = v
  · simp [same]
  · simp [same, romMethodsByIhandle]

theorem methods_none : romMethodsByIhandle handles v = none ↔ ∀ h ∈ handles, h.value ≠ v := by
  simp [romMethodsByIhandle]

theorem methods_append {created : Ihandle} (fresh : ∀ h ∈ handles, h.value ≠ created.value) (v : W32) :
    romMethodsByIhandle (handles ++ [created]) v =
      if v = created.value then some created.device else romMethodsByIhandle handles v := by
  by_cases same : v = created.value
  · have before : handles.find? (fun h => h.value = v) = none := by simpa [same] using fresh
    simp [romMethodsByIhandle, same ▸ before, same]
  · have other : created.value ≠ v := fun back => same back.symm
    simp [romMethodsByIhandle, same, other]

theorem methods_update (handles : List Ihandle) (v w : W32) (device : Device) :
    romMethodsByIhandle (updateHandle v device handles) w =
      if w = v then (romMethodsByIhandle handles v).map fun _ => device else romMethodsByIhandle handles w := by
  induction handles with
  | nil => simp [updateHandle, romMethodsByIhandle]
  | cons h handles ih =>
    rw [updateHandle]
    by_cases named : h.value = v
    · by_cases same : w = v
      · simp [methods_cons, named, same]
      · have other : v ≠ w := fun back => same back.symm
        simp [methods_cons, named, same, other]
    · rw [if_neg named, methods_cons, ih, methods_cons, methods_cons, if_neg named]
      by_cases same : w = v
      · simp [same, named]
      · simp [same]

theorem updateHandle_values (handles : List Ihandle) (v : W32) (device : Device) :
    (updateHandle v device handles).map Ihandle.value = handles.map Ihandle.value := by
  induction handles with
  | nil => rfl
  | cons h handles ih =>
    rw [updateHandle]
    split
    · rfl
    · rw [List.map_cons, ih, List.map_cons]

theorem deleteHandle_nodup (distinct : (handles.map Ihandle.value).Nodup) (v : W32) :
    ((deleteHandle handles v).map Ihandle.value).Nodup :=
  distinct.sublist (List.eraseP_sublist.map _)

theorem methods_delete (distinct : (handles.map Ihandle.value).Nodup) (v w : W32) :
    romMethodsByIhandle (deleteHandle handles v) w = if w = v then none else romMethodsByIhandle handles w := by
  induction handles with
  | nil => simp [deleteHandle, romMethodsByIhandle]
  | cons h handles ih =>
    obtain ⟨fresh, distinct⟩ := List.nodup_cons.mp distinct
    rw [deleteHandle, List.eraseP_cons]
    by_cases named : h.value = v
    · by_cases same : w = v
      · have gone : romMethodsByIhandle handles w = none := by
          apply methods_none.mpr
          intro other member back
          exact fresh (List.mem_map.mpr ⟨other, member, by rw [back, same, named]⟩)
        simp [named, same, same ▸ gone]
      · have other : v ≠ w := fun back => same back.symm
        simp [named, same, methods_cons, other]
    · have rest : romMethodsByIhandle (handles.eraseP fun h => h.value = v) w = _ := ih distinct
      by_cases same : w = v
      · simp [named, same, methods_cons, same ▸ rest]
      · simp [named, same, methods_cons, rest]

theorem Confines.object {os os' : Os} {device device' : Device} (confines : Confines os os' device device') :
    device'.object = device.object := by
  cases device with
  | console => rw [show device' = .console from confines]
  | file fd => rw [show device' = .file fd from confines]
  | disk fd part currentOff =>
    obtain ⟨_, rfl, _⟩ := confines
    rfl

theorem Seeks.object {os os' : Os} {device device' : Device} (seeks : Seeks os os' device device') :
    device'.object = device.object := by
  cases device with
  | console => rw [show device' = .console from seeks]
  | file fd => rw [show device' = .file fd from seeks]
  | disk fd part currentOff =>
    obtain ⟨_, rfl, _⟩ := seeks
    rfl

def Adds (block : Option (W32 × W32)) (handles handles' : List Ihandle) (ihandle : Option W32) : Prop :=
  ∃ created : Option Ihandle, handles' = handles ++ created.toList ∧ ihandle = created.map Ihandle.value ∧
    ∀ h ∈ created, h.device.object ≠ .console ∧ ∃ stale, block = some (h.value, stale)

theorem Adds.nothing (block : Option (W32 × W32)) (handles : List Ihandle) : Adds block handles handles none :=
  ⟨none, by simp, rfl, by simp⟩

theorem romIhandleFromDisk_adds (block : Option (W32 × W32)) (dup : Bool) (fd : ℕ) (part : DiskPart)
    (handles : List Ihandle) :
    Adds block handles (romIhandleFromDisk block dup fd part handles).2.2
      (romIhandleFromDisk block dup fd part handles).2.1 := by
  unfold romIhandleFromDisk
  split
  · exact .nothing _ _
  · rename_i d stale
    split
    · refine ⟨some ⟨d, .disk fd part stale⟩, rfl, rfl, ?_⟩
      rintro h ⟨⟩
      exact ⟨by simp [Device.object], stale, rfl⟩
    · exact .nothing _ _

theorem romIhandleFromFile_adds (fd : Option ℕ) (block : Option (W32 × W32)) (dup : Bool) (handles : List Ihandle) :
    Adds block handles (romIhandleFromFile fd (block.map Prod.fst) dup handles).2.2
      (romIhandleFromFile fd (block.map Prod.fst) dup handles).2.1 := by
  rcases fd with _ | fd
  · exact .nothing _ _
  rcases block with _ | ⟨f, stale⟩
  · exact .nothing _ _
  cases dup with
  | false => exact .nothing _ _
  | true =>
    refine ⟨some ⟨f, .file fd⟩, rfl, rfl, ?_⟩
    rintro h ⟨⟩
    exact ⟨by simp [Device.object], stale, rfl⟩

theorem romOpenParsePath_adds {env : OpenEnv} {os os' : Os} {path : List W8} {ihandle : Option W32} {err : Err}
    {handles' : List Ihandle} (parsed : romOpenParsePath env os path handles = .ok (err, ihandle, os', handles')) :
    Adds env.block handles handles' ihandle := by
  unfold romOpenParsePath at parsed
  split at parsed
  · simp only [pure_ok, Except.ok.injEq, Prod.mk.injEq] at parsed
    obtain ⟨_, rfl, _, rfl⟩ := parsed
    exact .nothing _ _
  simp only at parsed
  split at parsed
  · simp only [pure_ok, Except.ok.injEq, Prod.mk.injEq] at parsed
    obtain ⟨_, rfl, _, rfl⟩ := parsed
    exact romIhandleFromFile_adds _ _ _ _
  split at parsed
  · simp only [pure_ok, Except.ok.injEq, Prod.mk.injEq] at parsed
    obtain ⟨_, rfl, _, rfl⟩ := parsed
    exact .nothing _ _
  split at parsed
  · simp only [pure_ok, Except.ok.injEq, Prod.mk.injEq] at parsed
    obtain ⟨_, rfl, _, rfl⟩ := parsed
    exact .nothing _ _
  split at parsed
  · cases parsed
  split at parsed
  · simp only [pure_ok, Except.ok.injEq, Prod.mk.injEq] at parsed
    obtain ⟨_, rfl, _, rfl⟩ := parsed
    exact .nothing _ _
  · simp only [pure_ok, Except.ok.injEq, Prod.mk.injEq] at parsed
    obtain ⟨_, rfl, _, rfl⟩ := parsed
    exact romIhandleFromDisk_adds _ _ _ _ _

variable {m u : Machine}

theorem romOpen_ok {env : OpenEnv} {cia ciaIn ciaOut : W32} {err : Err}
    (called : romOpen env m cia ciaIn ciaOut = .ok (err, u)) :
    (err ≠ .none ∧ u = m) ∨ ∃ cell told ihandle, ciaRet cia ciaIn ciaOut 0 = .ok cell ∧
      Adds env.block m.rom.knownIhandles u.rom.knownIhandles ihandle ∧
      guestToX told cell (ihandle.getD 0) = .ok (err, u) ∧ (err = .none ↔ Translatable m cell) := by
  simp only [romOpen, bind_ok] at called
  obtain ⟨⟨pathErr, pathEa⟩, _, called⟩ := called
  split at called
  · rename_i unreadable
    simp only [pure_ok, Except.ok.injEq, Prod.mk.injEq] at called
    obtain ⟨rfl, rfl⟩ := called
    exact .inl ⟨unreadable, rfl⟩
  · right
    simp only [bind_ok] at called
    obtain ⟨⟨count, d⟩, _, _, _, ⟨parseErr, ihandle, os, handles⟩, parsed, cell, ret, stored⟩ := called
    have wrote := guestToX_none_iff stored
    obtain ⟨host, rfl⟩ := guestTo_frame stored
    exact ⟨cell, _, ihandle, ret, romOpenParsePath_adds parsed, stored, wrote⟩

/-- A call on handles: what an open made and where it told the guest, and what a close was given. -/
inductive TableEvent
  | run | access
  | openPath (cell : Checked W32) (err : Err) (created : Option Ihandle)
  | close (ihandle : Option W32)

/-- malloc's block is no block in use, and not the console's ihandle. -/
def OpenEnv.Fresh (env : OpenEnv) (handles : List Ihandle) : Prop :=
  ∀ d stale, env.block = some (d, stale) → d ≠ 0 ∧ ∀ h ∈ handles, h.value ≠ d

/-- A client call on handles that did not abort, or anything that leaves the handles alone. -/
inductive TableStep (m : Machine) : TableEvent → Machine → Prop
  | run {u : Machine} (same : u.rom.knownIhandles = m.rom.knownIhandles) : TableStep m .run u
  | openPath {env : OpenEnv} {cia ciaIn ciaOut : W32} {err : Err} {created : Option Ihandle} {u : Machine}
      (fresh : env.Fresh m.rom.knownIhandles) (called : romOpen env m cia ciaIn ciaOut = .ok (err, u))
      (opened : u.rom.knownIhandles = m.rom.knownIhandles ++ created.toList) :
      TableStep m (.openPath (ciaRet cia ciaIn ciaOut 0) err created) u
  | close {cia ciaIn ihandle : W32} {read err : Err} {u : Machine} (arg : ciaCell m cia ciaIn 0 = .ok (read, ihandle))
      (called : romClose m cia ciaIn = .ok (err, u)) :
      TableStep m (.close (if read = .none then some ihandle else none)) u
  | seek {cia ciaIn ciaOut : W32} {err : Err} {u : Machine} (called : romSeek m cia ciaIn ciaOut = .ok (err, u)) :
      TableStep m .access u
  | read {cia ciaIn ciaOut : W32} {err : Err} {u : Machine} (called : romRead m cia ciaIn ciaOut = .ok (err, u)) :
      TableStep m .access u
  | write {cia ciaIn ciaOut : W32} {err : Err} {u : Machine} (called : romWrite m cia ciaIn ciaOut = .ok (err, u)) :
      TableStep m .access u

/-- What is open after an event, by ihandle: what a successful open made and nobody has closed since. -/
def openAfter (live : W32 → Option Object) : TableEvent → W32 → Option Object
  | .openPath _ .none (some h) => Function.update live h.value (some h.device.object)
  | .close (some v) => if live v = some .console then live else Function.update live v none
  | _ => live

def openHandles (console : W32) (history : List TableEvent) : W32 → Option Object :=
  history.foldl openAfter (Function.update (fun _ => none) console (some .console))

/-- The table holds what is open, each handle once. -/
structure Tracks (console : W32) (history : List TableEvent) (handles : List Ihandle) : Prop where
  distinct : (handles.map Ihandle.value).Nodup
  tracked : ∀ v, (romMethodsByIhandle handles v).map Device.object = openHandles console history v

/-- Where an open makes a handle, the guest has RAM behind the cell for it. -/
def TableEvent.Delivers (m : Machine) : TableEvent → Prop
  | .openPath cell _ (some _) => ∀ ea, cell = .ok ea → Translatable m ea
  | _ => True

def DeliveringStep (m : Machine) (e : TableEvent) (u : Machine) : Prop := TableStep m e u ∧ e.Delivers m

variable {console : W32} {history : List TableEvent} {e : TableEvent}

theorem openHandles_snoc (console : W32) (history : List TableEvent) (e : TableEvent) :
    openHandles console (history ++ [e]) = openAfter (openHandles console history) e := by
  simp [openHandles]

theorem openAfter_nothing (live : W32 → Option Object) (cell : Checked W32) (err : Err) :
    openAfter live (.openPath cell err none) = live := by
  cases err <;> rfl

theorem openAfter_failed (live : W32 → Option Object) (cell : Checked W32) {err : Err} (created : Option Ihandle)
    (failed : err ≠ .none) : openAfter live (.openPath cell err created) = live := by
  cases err with
  | none => exact absurd rfl failed
  | _ => rfl

theorem HandleEffect.tracks {named : Option (W32 × Device)} {moves : Os → Os → Device → Device → Prop}
    (effect : HandleEffect m u named moves)
    (arg : ∀ v device, named = some (v, device) → romMethodsByIhandle m.rom.knownIhandles v = some device)
    (objects : ∀ {os os' device device'}, moves os os' device device' → device'.object = device.object)
    (tracks : Tracks console history m.rom.knownIhandles) :
    Tracks console (history ++ [.access]) u.rom.knownIhandles := by
  have tracked : ∀ v, (romMethodsByIhandle m.rom.knownIhandles v).map Device.object =
      openHandles console (history ++ [.access]) v := by
    rw [openHandles_snoc]
    exact tracks.tracked
  rcases effect with ⟨same, _⟩ | ⟨ihandle, device, device', rfl, moved, updated⟩
  · rw [same]
    exact ⟨tracks.distinct, tracked⟩
  · rw [updated]
    refine ⟨by rw [updateHandle_values]; exact tracks.distinct, fun v => ?_⟩
    rw [methods_update, ← tracked]
    split
    · rename_i same
      rw [same, arg ihandle device rfl]
      exact congrArg some (objects moved)
    · rfl

theorem argDevice_methods {cia ciaIn : W32} {named : Option (W32 × Device)}
    (arg : argDevice m cia ciaIn = .ok named) :
    ∀ v device, named = some (v, device) → romMethodsByIhandle m.rom.knownIhandles v = some device := by
  rintro v device rfl
  simp only [argDevice, bind_ok, pure_ok, Except.ok.injEq] at arg
  obtain ⟨_, _, arg⟩ := arg
  split at arg
  · cases arg
  · obtain ⟨found, known, same⟩ := Option.map_eq_some_iff.mp arg
    obtain ⟨rfl, rfl⟩ := Prod.mk.inj same
    exact known

theorem argDevice_read {α : Type} {cia ciaIn : W32} {rest : Err × W32 → Checked α} {x : α}
    (called : (ciaCell m cia ciaIn 0 >>= rest) = .ok x) : ∃ named, argDevice m cia ciaIn = .ok named := by
  obtain ⟨cell, arg, _⟩ := bind_ok.mp called
  simp only [argDevice, arg, ok_bind, pure_ok]
  exact ⟨_, rfl⟩

theorem Tracks.access (tracks : Tracks console history m.rom.knownIhandles) (step : TableStep m .access u) :
    Tracks console (history ++ [.access]) u.rom.knownIhandles := by
  cases step with
  | seek called =>
    obtain ⟨named, arg⟩ := argDevice_read called
    exact (romSeek_ok called arg).tracks (argDevice_methods arg) Seeks.object tracks
  | read called =>
    obtain ⟨named, arg⟩ := argDevice_read called
    exact (romRead_ok called arg).tracks (argDevice_methods arg) Confines.object tracks
  | write called =>
    obtain ⟨named, arg⟩ := argDevice_read called
    exact (romWrite_ok called arg).tracks (argDevice_methods arg) Confines.object tracks

theorem closes_iff (device : Device) : device.closes = true ↔ device.object ≠ .console := by
  cases device <;> simp [Device.closes, Device.object]

/-- A close takes the handle it is given out of the table, unless that is none or the console. -/
theorem romClose_cases {cia ciaIn ihandle : W32} {read err : Err} (arg : ciaCell m cia ciaIn 0 = .ok (read, ihandle))
    (called : romClose m cia ciaIn = .ok (err, u)) :
    if read = .none ∧ (romMethodsByIhandle m.rom.knownIhandles ihandle).any Device.closes then
      u = m.setHandles (deleteHandle m.rom.knownIhandles ihandle)
    else u = m := by
  simp only [romClose, arg, ok_bind] at called
  by_cases readable : read = .none
  · rw [if_neg (not_not.mpr readable)] at called
    cases known : romMethodsByIhandle m.rom.knownIhandles ihandle with
    | none =>
      simp only [known, pure_ok, Except.ok.injEq, Prod.mk.injEq] at called
      simp [called.2]
    | some device =>
      by_cases closes : device.closes = true
      · simp only [known, if_pos closes, pure_ok, Except.ok.injEq, Prod.mk.injEq] at called
        simp [readable, closes, called.2]
      · simp only [known, if_neg closes, pure_ok, Except.ok.injEq, Prod.mk.injEq] at called
        simp [closes, called.2]
  · rw [if_pos readable] at called
    simp only [pure_ok, Except.ok.injEq, Prod.mk.injEq] at called
    simp [readable, called.2]

theorem Tracks.closes_iff (tracks : Tracks console history handles) (v : W32) :
    (romMethodsByIhandle handles v).any Device.closes = true ↔
      openHandles console history v ≠ none ∧ openHandles console history v ≠ some .console := by
  rw [← tracks.tracked]
  cases romMethodsByIhandle handles v with
  | none => simp
  | some device => simp [ToyHv.closes_iff]

theorem Tracks.close {ihandle : Option W32} (tracks : Tracks console history m.rom.knownIhandles)
    (step : TableStep m (.close ihandle) u) :
    Tracks console (history ++ [.close ihandle]) u.rom.knownIhandles := by
  cases step with
  | @close cia ciaIn v read err _ arg called =>
    have cases := romClose_cases arg called
    have known := tracks.closes_iff v
    by_cases readable : read = .none
    · rw [if_pos readable]
      by_cases closes : (romMethodsByIhandle m.rom.knownIhandles v).any Device.closes = true
      · rw [if_pos ⟨readable, closes⟩] at cases
        rw [cases]
        refine ⟨deleteHandle_nodup tracks.distinct v, fun w => ?_⟩
        rw [openHandles_snoc, openAfter, if_neg (known.mp closes).2, Machine.setHandles,
          methods_delete tracks.distinct, Function.update_apply, ← tracks.tracked]
        split <;> rfl
      · rw [if_neg (by tauto)] at cases
        rw [cases]
        refine ⟨tracks.distinct, fun w => ?_⟩
        rw [openHandles_snoc, openAfter, tracks.tracked]
        split
        · rfl
        · rename_i other
          have unknown : openHandles console history v = none := by
            by_contra some
            exact closes (known.mpr ⟨some, other⟩)
          have same : Function.update (openHandles console history) v none = openHandles console history := by
            rw [← unknown, Function.update_eq_self]
          rw [same]
    · rw [if_neg (by tauto)] at cases
      rw [if_neg readable, cases]
      refine ⟨tracks.distinct, fun w => ?_⟩
      rw [openHandles_snoc]
      exact tracks.tracked w

theorem Tracks.open_iff {cell : Checked W32} {err : Err} {created : Option Ihandle}
    (tracks : Tracks console history m.rom.knownIhandles) (step : TableStep m (.openPath cell err created) u) :
    Tracks console (history ++ [.openPath cell err created]) u.rom.knownIhandles ↔
      (TableEvent.openPath cell err created).Delivers m := by
  cases step with
  | @openPath env cia ciaIn ciaOut _ _ _ fresh called opened =>
    rcases romOpen_ok called with ⟨failed, rfl⟩ | ⟨ea, told, ihandle, ret, ⟨made, added, _, which⟩, _, wrote⟩
    · have nothing : created = none := by
        cases created with
        | none => rfl
        | some h => simp at opened
      subst nothing
      refine iff_of_true ⟨tracks.distinct, fun v => ?_⟩ trivial
      rw [openHandles_snoc, openAfter_nothing]
      exact tracks.tracked v
    · obtain rfl : created = made := by
        have same := List.append_cancel_left (opened.symm.trans added)
        cases created <;> cases made <;> simp_all
      cases created with
      | none =>
        have same : u.rom.knownIhandles = m.rom.knownIhandles := opened.trans (List.append_nil _)
        rw [same]
        refine iff_of_true ⟨tracks.distinct, fun v => ?_⟩ trivial
        rw [openHandles_snoc, openAfter_nothing]
        exact tracks.tracked v
      | some h =>
        obtain ⟨_, stale, block⟩ := which h rfl
        obtain ⟨_, apart⟩ := fresh _ _ block
        have delivers : (TableEvent.openPath (ciaRet cia ciaIn ciaOut 0) err (some h)).Delivers m ↔ err = .none := by
          rw [wrote]
          constructor
          · exact fun reaches => reaches ea ret
          · intro there other same
            rw [ret] at same
            cases same
            exact there
        rw [opened, Option.toList_some, delivers]
        constructor
        · intro after
          by_contra failed
          -- the guest was told of no handle, but there is one
          have listed := after.tracked h.value
          rw [methods_append apart, if_pos rfl, openHandles_snoc, openAfter_failed _ _ _ failed, ← tracks.tracked,
            methods_none.mpr apart] at listed
          cases listed
        · rintro rfl
          refine ⟨?_, fun v => ?_⟩
          · rw [List.map_append, List.nodup_append]
            refine ⟨tracks.distinct, List.nodup_singleton _, ?_⟩
            rintro v member w new rfl
            obtain ⟨other, known, same⟩ := List.mem_map.mp member
            exact apart other known (same.trans (List.mem_singleton.mp new))
          · rw [methods_append apart, openHandles_snoc, openAfter, Function.update_apply, ← tracks.tracked]
            split <;> rfl

theorem TableStep.tells {cell : Checked W32} {created : Option Ihandle}
    (step : TableStep m (.openPath cell .none created) u) :
    ∃ ea told, cell = .ok ea ∧ guestToX told ea ((created.map Ihandle.value).getD 0) = .ok (.none, u) := by
  cases step with
  | openPath fresh called opened =>
    rcases romOpen_ok called with ⟨failed, _⟩ | ⟨ea, told, ihandle, ret, ⟨made, added, rfl, _⟩, stored, _⟩
    · exact absurd rfl failed
    · have same := List.append_cancel_left (opened.symm.trans added)
      obtain rfl : created = made := by cases created <;> cases made <;> simp_all
      exact ⟨ea, told, ret, stored⟩

theorem Tracks.step_iff (tracks : Tracks console history m.rom.knownIhandles) (step : TableStep m e u) :
    Tracks console (history ++ [e]) u.rom.knownIhandles ↔ e.Delivers m := by
  cases e with
  | run =>
    refine iff_of_true ?_ trivial
    cases step with
    | run same =>
      rw [same]
      refine ⟨tracks.distinct, fun v => ?_⟩
      rw [openHandles_snoc]
      exact tracks.tracked v
  | access => exact iff_of_true (tracks.access step) trivial
  | openPath cell err created => exact tracks.open_iff step
  | close ihandle => exact iff_of_true (tracks.close step) trivial

/-- What a close does, by what is open: nothing to a handle that is not, to the console, or to any
    other handle than its own. -/
theorem Tracks.close_frame (tracks : Tracks console history m.rom.knownIhandles) {cia ciaIn v : W32} {read err : Err}
    (arg : ciaCell m cia ciaIn 0 = .ok (read, v)) (called : romClose m cia ciaIn = .ok (err, u)) :
    (read ≠ .none ∨ openHandles console history v = none ∨ openHandles console history v = some .console → u = m) ∧
    (∃ handles, u = m.setHandles handles) ∧
    ∀ w ≠ v, romMethodsByIhandle u.rom.knownIhandles w = romMethodsByIhandle m.rom.knownIhandles w := by
  have cases := romClose_cases arg called
  have known := tracks.closes_iff v
  by_cases taken : read = .none ∧ (romMethodsByIhandle m.rom.knownIhandles v).any Device.closes = true
  · rw [if_pos taken] at cases
    rw [known] at taken
    refine ⟨fun nothing => by tauto, ⟨_, cases⟩, fun w other => ?_⟩
    rw [cases, Machine.setHandles, methods_delete tracks.distinct, if_neg other]
  · rw [if_neg taken] at cases
    exact ⟨fun _ => cases, ⟨m.rom.knownIhandles, cases⟩, fun w _ => by rw [cases]⟩

/-- While every open delivers the handle it makes, the table is the console and what the guest has
    opened and not closed. An open that does not deliver breaks that. -/
theorem handle_table_tracks {env : BootEnv} {m s : Machine} (booted : romInit env m = .ok (.none, s)) :
    ∃ console, s.rom.knownIhandles = [⟨console, .console⟩] ∧
      ∀ history t, Run DeliveringStep s history t →
        Tracks console history t.rom.knownIhandles ∧
        (∀ e u, TableStep t e u → (Tracks console (history ++ [e]) u.rom.knownIhandles ↔ e.Delivers t)) ∧
        (∀ cell created u, TableStep t (.openPath cell .none created) u → ∃ ea told, cell = .ok ea ∧
          guestToX told ea ((created.map Ihandle.value).getD 0) = .ok (.none, u)) ∧
        ∀ cia ciaIn v read err u, ciaCell t cia ciaIn 0 = .ok (read, v) → romClose t cia ciaIn = .ok (err, u) →
          (read ≠ .none ∨ openHandles console history v = none ∨ openHandles console history v = some .console →
            u = t) ∧
          (∃ handles, u = t.setHandles handles) ∧
          ∀ w ≠ v, romMethodsByIhandle u.rom.knownIhandles w = romMethodsByIhandle t.rom.knownIhandles w := by
  obtain ⟨boot⟩ := romInit_ok booted
  obtain ⟨console, known⟩ := boot.handles_eq
  refine ⟨console, known, fun history t run => ?_⟩
  have tracks : Tracks console history t.rom.knownIhandles := by
    apply run.invariant (I := fun history t => Tracks console history t.rom.knownIhandles)
    · rw [known]
      refine ⟨List.nodup_singleton _, fun v => ?_⟩
      rw [methods_cons, openHandles, List.foldl_nil, Function.update_apply]
      by_cases same : v = console
      · simp [same, Device.object]
      · have other : console ≠ v := fun back => same back.symm
        simp [same, other, romMethodsByIhandle]
    · rintro history t e u tracks ⟨step, delivers⟩
      exact (tracks.step_iff step).mpr delivers
  exact ⟨tracks, fun e u step => tracks.step_iff step, fun _ _ _ step => step.tells,
    fun _ _ _ _ _ _ arg called => tracks.close_frame arg called⟩

def commaWords (i : ℕ) : W32 := if i = 3 then 0x1000 else if i = 0x400 then 0x2c000000 else 0

def commaEnv (d : W32) : OpenEnv :=
  ⟨true, true, fun _ => some 5, fun _ => none, fun _ => none, fun _ => none, some (d, 0), ⟨0, 0⟩, fun _ => 0⟩

theorem PlainBoot.opens_comma {m s : Machine} (plain : PlainBoot m s) (d ciaIn : W32) (more : 0 < ciaIn) :
    ∃ err u, romOpen (commaEnv d) (s.filled commaWords s.rom.knownIhandles s.os) 0 ciaIn 1 = .ok (err, u) ∧
      u.rom.knownIhandles = s.rom.knownIhandles ++ [⟨d, .file 5⟩] := by
  have reached := plain.reaches commaWords s.rom.knownIhandles s.os
  have wise := (FastPath.reachable plain.inited plain.booted reached.run).pageWise
  have path : ciaCell (s.filled commaWords s.rom.knownIhandles s.os) 0 ciaIn 0 = .ok (.none, 0x1000) := by
    have inside : ¬ 0#32 ≥ ciaIn := BitVec.not_le.mpr more
    rw [ciaCell, ciaArg, bugOn_false inside, ok_bind]
    exact reached.word 3 (by decide)
  obtain ⟨copied, fetched, same⟩ := plain.fetches commaWords s.rom.knownIhandles s.os
    (s.filled commaWords s.rom.knownIhandles s.os).rom.xferBuf (n := 1) (by decide) (by decide) (by decide)
  have comma : copied 0 = 0x2c := (same 0 (by decide)).trans (by decide)
  have parsed : romOpenParsePath (commaEnv d) s.os (pathAt (copied.put 1 1 fun _ => 0) 1) s.rom.knownIhandles =
      .ok (.none, some d, s.os, s.rom.knownIhandles ++ [⟨d, .file 5⟩]) := by
    have name : pathAt (copied.put 1 1 fun _ => 0) 1 = [0x2c] := by simp [pathAt, Buf.put, comma]
    rw [name]
    rfl
  let told : Machine :=
    { (s.filled commaWords s.rom.knownIhandles s.os).setHandles (s.rom.knownIhandles ++ [⟨d, .file 5⟩]) with
      rom := { s.rom with
        xferBuf := copied.put 1 1 fun _ => 0
        knownIhandles := s.rom.knownIhandles ++ [⟨d, .file 5⟩] } }
  have same : SameGuest (s.filled commaWords s.rom.knownIhandles s.os) told := ⟨rfl, rfl, rfl, rfl⟩
  have ret : ciaRet 0 ciaIn 1 0 = .ok (0 + (3 + ciaIn + 0) * 4) := rfl
  have opened : romOpen (commaEnv d) (s.filled commaWords s.rom.knownIhandles s.os) 0 ciaIn 1 =
      guestToX told (0 + (3 + ciaIn + 0) * 4) d := by
    rw [romOpen, path, ok_bind]
    simp only [ne_eq, not_true_eq_false, if_false, fetched, ok_bind]
    rw [bugOn_false (by decide), ok_bind]
    change (romOpenParsePath (commaEnv d) s.os (pathAt (copied.put 1 1 fun _ => 0) 1) s.rom.knownIhandles >>= _) = _
    rw [parsed, ok_bind]
    simp only [ret, ok_bind]
    rfl
  have aligned : (0 + (3 + ciaIn + 0) * 4 : W32).toNat % 4 = 0 := by
    rw [zero_add, BitVec.toNat_mul]
    have four : (4 : W32).toNat = 4 := rfl
    rw [four]
    omega
  rw [opened]
  rcases (same.pageWise wise).storeWord d aligned with ⟨host, stored, _⟩ | ⟨_, stored | ⟨message, _, bat⟩⟩
  · exact ⟨_, _, stored, rfl⟩
  · exact ⟨_, _, stored, rfl⟩
  · exact absurd plain.sdr1 bat.2.1

theorem PlainBoot.comma_step {m s : Machine} (plain : PlainBoot m s) {console : W32}
    (known : s.rom.knownIhandles = [⟨console, .console⟩]) (ciaIn : W32) (more : 0 < ciaIn) :
    ∃ d err u, TableStep (s.filled commaWords s.rom.knownIhandles s.os)
      (.openPath (.ok (0 + (3 + ciaIn + 0) * 4)) err (some ⟨d, .file 5⟩)) u := by
  obtain ⟨d, some, apart⟩ : ∃ d : W32, d ≠ 0 ∧ console ≠ d := by
    by_cases four : console = 4
    · exact ⟨8, by decide, by rw [four]; decide⟩
    · exact ⟨4, by decide, four⟩
  obtain ⟨err, u, called, opened⟩ := plain.opens_comma d ciaIn more
  refine ⟨d, err, u, .openPath ?_ called opened⟩
  rintro _ _ ⟨⟩
  refine ⟨some, fun h member => ?_⟩
  have member : h ∈ s.rom.knownIhandles := member
  rw [known, List.mem_singleton] at member
  rw [member]
  exact apart

theorem delivered_open_tracked : ∃ (console d : W32) (cell : Checked W32) (err : Err) (u : Machine),
    Tracks console ([.run] ++ [.openPath cell err (some ⟨d, .file 5⟩)]) u.rom.knownIhandles := by
  obtain ⟨m, s, plain⟩ := plain_boot
  obtain ⟨console, known, always⟩ := handle_table_tracks plain.booted
  obtain ⟨d, err, u, step⟩ := plain.comma_step known 1 (by decide)
  have reached := plain.reaches commaWords s.rom.knownIhandles s.os
  have wise := (FastPath.reachable plain.inited plain.booted reached.run).pageWise
  have delivers : Translatable (s.filled commaWords s.rom.knownIhandles s.os) (0 + (3 + 1 + 0) * 4) := by
    apply wise.translatable_iff.mpr
    rw [reached.page _ (by decide)]
    simp
  have before : Run DeliveringStep s [.run] (s.filled commaWords s.rom.knownIhandles s.os) :=
    .single ⟨.run rfl, trivial⟩
  refine ⟨console, d, _, err, u, (always _ u (.snoc before ⟨step, ?_⟩)).1⟩
  rintro ea ⟨⟩
  exact delivers

/-- A file opened with its result cell out of RAM is in the table as well, but the guest has no
    ihandle for it. -/
theorem undelivered_open_untracked : ¬ ∀ (env : BootEnv) (m s t : Machine) (console : W32) (history : List TableEvent),
    romInit env m = .ok (.none, s) → s.rom.knownIhandles = [⟨console, .console⟩] → Run TableStep s history t →
    Tracks console history t.rom.knownIhandles := by
  intro always
  obtain ⟨m, s, plain⟩ := plain_boot
  obtain ⟨boot⟩ := romInit_ok plain.booted
  obtain ⟨console, known⟩ := boot.handles_eq
  obtain ⟨d, err, u, step⟩ := plain.comma_step known 0x800000 (by decide)
  have before : Run TableStep s [.run] (s.filled commaWords s.rom.knownIhandles s.os) := .single (.run rfl)
  have tracks := always _ m s _ console _ plain.booted known before
  have after := always _ m s _ console _ plain.booted known (.snoc before step)
  have reached := plain.reaches commaWords s.rom.knownIhandles s.os
  have wise := (FastPath.reachable plain.inited plain.booted reached.run).pageWise
  have delivers := (tracks.step_iff step).mp after _ rfl
  exact wise.translatable_iff.mp delivers (reached.beyond _ (by decide))

end ToyHv

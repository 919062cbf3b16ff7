import ToyHv.Handles.Table

namespace ToyHv

variable {m : Machine} {os os' : Os} {cia ciaIn ciaOut ihandle offLo ea offset : W32} {device device' : Device}
  {err : Err}

def Device.position (os : Os) : Device → Option ℕ
  | .console => none
  | .file fd => some (os.files fd).position
  | .disk _ _ currentOff => some currentOff.toNat

def handlePosition (m : Machine) (ihandle : W32) : Option ℕ :=
  (romMethodsByIhandle m.rom.knownIhandles ihandle).bind (Device.position m.os)

structure SeekCall (m : Machine) (cia ciaIn ciaOut ihandle offLo ea : W32) : Prop where
  handle : ciaCell m cia ciaIn 0 = .ok (.none, ihandle)
  high : ciaCell m cia ciaIn 1 = .ok (.none, 0)
  low : ciaCell m cia ciaIn 2 = .ok (.none, offLo)
  cell : ciaRet cia ciaIn ciaOut 0 = .ok ea
  writable : Writable m ea

/-- The result cell holds 0 if the handle is where it was told to go, else -1, and the handle has not moved. -/
structure SeekTold (m m' : Machine) (ihandle offLo result : W32) : Prop where
  success : result = 0 ↔ handlePosition m' ihandle = some offLo.toNat
  failure : result ≠ 0 → result = -1 ∧ handlePosition m' ihandle = handlePosition m ihandle

def SeekReports (m : Machine) (cia ciaIn ciaOut ihandle offLo ea : W32) : Prop :=
  ∃ m' result, romSeek m cia ciaIn ciaOut = .ok (.none, m') ∧ (∀ old, guestFromX m' old ea = .ok (.none, result)) ∧
    SeekTold m m' ihandle offLo result

/-- A seek method turns an offset down: lseek fails or an int does not hold its result, or the
    partition ends before the offset. -/
def Device.Refuses (os : Os) (offset : W32) : Device → Prop
  | .console => False
  | .file _ => os.results os.calls < 0 ∨ 2^31 ≤ offset.toNat
  | .disk _ part _ => part.length < offset

/-- Where the seek method leaves a device. A file moves if lseek does. -/
def Device.leftAt (os : Os) (offset : W32) : Device → Option ℕ
  | .console => none
  | .file fd => some (if os.results os.calls < 0 then (os.files fd).position else offset.toNat)
  | .disk _ part currentOff => some (if part.length < offset then currentOff.toNat else offset.toNat)

/-- The handle's method accepts the offset, or what the local for the result holds is the right answer. -/
def SeekLucky (m : Machine) (ihandle offLo : W32) : Prop :=
  ∀ device, romMethodsByIhandle m.rom.knownIhandles ihandle = some device → device.Refuses m.os offLo →
    wordAt m.garbage 0 = if device.leftAt m.os offLo = some offLo.toNat then 0 else -1

theorem toInt_negative (x : W32) : x.toInt < 0 ↔ 2^31 ≤ x.toNat := by
  have small := x.isLt
  rw [BitVec.toInt_eq_toNat_cond]
  split <;> omega

theorem Device.seek_cases (sought : device.seek os offset = some (err, device', os')) :
    device'.position os' = device.leftAt os offset ∧ (err = .none ↔ ¬ device.Refuses os offset) := by
  cases device with
  | console => cases sought
  | file fd =>
    by_cases failed : os.results os.calls < 0
    · simp only [Device.seek, romFileSeek, sysLseek, if_pos failed, Option.some.injEq, Prod.mk.injEq] at sought
      obtain ⟨rfl, rfl, rfl⟩ := sought
      simp [Device.position, Device.leftAt, Device.Refuses, failed]
    · simp only [Device.seek, romFileSeek, sysLseek, if_neg failed, Option.some.injEq, Prod.mk.injEq,
        toInt_negative] at sought
      obtain ⟨rfl, rfl, rfl⟩ := sought
      simp only [Device.position, Device.leftAt, Device.Refuses, failed, Function.update_self, if_false, false_or,
        true_and]
      split
      · rename_i beyond
        exact iff_of_false (by decide) (not_not.mpr beyond)
      · rename_i small
        exact iff_of_true rfl small
  | disk fd part currentOff =>
    simp only [Device.seek, romDiskSeek, Option.some.injEq, Prod.mk.injEq] at sought
    obtain ⟨rfl, rfl, rfl⟩ := sought
    by_cases beyond : offset > part.length
    · simp [Device.position, Device.leftAt, Device.Refuses, beyond]
    · simp [Device.position, Device.leftAt, Device.Refuses, beyond]

theorem Device.leftAt_accepted (sought : device.seek os offset = some (err, device', os'))
    (accepted : ¬ device.Refuses os offset) : device.leftAt os offset = some offset.toNat := by
  cases device with
  | console => cases sought
  | file fd => exact congrArg some (if_neg fun failed => accepted (.inl failed))
  | disk fd part currentOff => exact congrArg some (if_neg accepted)

theorem Device.leftAt_moved (offset : W32) (os : Os) (device : Device) :
    device.leftAt os offset = device.position os ∨ device.leftAt os offset = some offset.toNat := by
  cases device with
  | console => exact .inl rfl
  | file fd =>
    simp only [Device.leftAt, Device.position]
    split
    · exact .inl rfl
    · exact .inr rfl
  | disk fd part currentOff =>
    simp only [Device.leftAt, Device.position]
    split
    · exact .inl rfl
    · exact .inr rfl

def seekOutcome (m : Machine) (ihandle offLo : W32) : W32 × Machine :=
  match (romMethodsByIhandle m.rom.knownIhandles ihandle).bind (Device.seek m.os offLo) with
  | none => (-1, m)
  | some (err, device, os) =>
    (if err = .none then 0 else wordAt m.garbage 0,
      { m.setHandles (updateHandle ihandle device m.rom.knownIhandles) with os })

theorem SeekCall.run (call : SeekCall m cia ciaIn ciaOut ihandle offLo ea) :
    romSeek m cia ciaIn ciaOut = guestToX (seekOutcome m ihandle offLo).2 ea (seekOutcome m ihandle offLo).1 := by
  simp only [romSeek, call.handle, call.high, call.low, ok_bind, ne_eq, not_true_eq_false, if_false,
    bugOn_false not_false, call.cell, seekOutcome]
  cases (romMethodsByIhandle m.rom.knownIhandles ihandle).bind (Device.seek m.os offLo) with
  | none => rfl
  | some outcome => rfl

theorem SeekCall.outcome_writable (call : SeekCall m cia ciaIn ciaOut ihandle offLo ea) :
    Writable (seekOutcome m ihandle offLo).2 ea := by
  unfold seekOutcome
  split
  · exact call.writable
  · exact call.writable.quiet _ _ _

theorem SeekCall.reports_iff (call : SeekCall m cia ciaIn ciaOut ihandle offLo ea) :
    SeekReports m cia ciaIn ciaOut ihandle offLo ea ↔
      SeekTold m (seekOutcome m ihandle offLo).2 ihandle offLo (seekOutcome m ihandle offLo).1 := by
  obtain ⟨host, stored, back⟩ := call.outcome_writable.word (seekOutcome m ihandle offLo).1
  constructor
  · rintro ⟨m', result, called, holds, told⟩
    rw [call.run, stored] at called
    obtain ⟨_, rfl⟩ := Prod.mk.inj (Except.ok.inj called)
    have same := (back 0).symm.trans (holds 0)
    obtain ⟨_, rfl⟩ := Prod.mk.inj (Except.ok.inj same)
    exact ⟨told.success, told.failure⟩
  · intro told
    exact ⟨_, _, call.run.trans stored, back, told.success, told.failure⟩

theorem seek_nothing (known : (romMethodsByIhandle m.rom.knownIhandles ihandle).bind (Device.seek m.os offLo) = none) :
    SeekTold m (seekOutcome m ihandle offLo).2 ihandle offLo (seekOutcome m ihandle offLo).1 := by
  have nowhere : handlePosition m ihandle = none := by
    rw [handlePosition]
    cases found : romMethodsByIhandle m.rom.knownIhandles ihandle with
    | none => rfl
    | some device =>
      rw [found] at known
      cases device with
      | console => rfl
      | file fd => cases known
      | disk fd part currentOff => cases known
  simp only [seekOutcome, known]
  constructor
  · rw [nowhere]
    exact iff_of_false (by decide) (by simp)
  · exact fun _ => ⟨rfl, rfl⟩

theorem seek_position (found : romMethodsByIhandle m.rom.knownIhandles ihandle = some device)
    (sought : device.seek m.os offLo = some (err, device', os')) :
    handlePosition (seekOutcome m ihandle offLo).2 ihandle = device.leftAt m.os offLo := by
  have known : (romMethodsByIhandle m.rom.knownIhandles ihandle).bind (Device.seek m.os offLo) =
      some (err, device', os') := by
    rw [found]
    exact sought
  simp only [seekOutcome, known, handlePosition, Machine.setHandles]
  rw [methods_update, if_pos rfl, found]
  exact (Device.seek_cases sought).1

theorem seek_told_iff (found : romMethodsByIhandle m.rom.knownIhandles ihandle = some device)
    (sought : device.seek m.os offLo = some (err, device', os')) :
    SeekTold m (seekOutcome m ihandle offLo).2 ihandle offLo (seekOutcome m ihandle offLo).1 ↔
      (device.Refuses m.os offLo →
        wordAt m.garbage 0 = if device.leftAt m.os offLo = some offLo.toNat then 0 else -1) := by
  have left := seek_position found sought
  have answer := (Device.seek_cases sought).2
  have before : handlePosition m ihandle = device.position m.os := by
    rw [handlePosition, found]
    rfl
  have result : (seekOutcome m ihandle offLo).1 = if err = .none then 0 else wordAt m.garbage 0 := by
    simp only [seekOutcome, found, Option.bind_some, sought]
  by_cases refused : device.Refuses m.os offLo
  · have failed : err ≠ .none := fun done => answer.mp done refused
    rw [if_neg failed] at result
    have told : SeekTold m (seekOutcome m ihandle offLo).2 ihandle offLo (seekOutcome m ihandle offLo).1 ↔
        (wordAt m.garbage 0 = 0 ↔ device.leftAt m.os offLo = some offLo.toNat) ∧
          (wordAt m.garbage 0 ≠ 0 → wordAt m.garbage 0 = -1 ∧ device.leftAt m.os offLo = device.position m.os) := by
      rw [result, ← left, ← before]
      exact ⟨fun told => ⟨told.success, told.failure⟩, fun told => ⟨told.1, told.2⟩⟩
    rw [told]
    by_cases there : device.leftAt m.os offLo = some offLo.toNat
    · simp only [there, if_true, iff_true, refused, forall_const]
      exact ⟨fun told => told.1, fun zero => ⟨zero, fun nonzero => absurd zero nonzero⟩⟩
    · have stayed := (Device.leftAt_moved offLo m.os device).resolve_right there
      have distinct : (-1 : W32) ≠ 0 := by decide
      simp only [there, if_false, iff_false, refused, forall_const]
      constructor
      · exact fun told => (told.2 told.1).1
      · intro minus
        rw [minus]
        exact ⟨distinct, fun _ => ⟨rfl, stayed⟩⟩
  · have done : err = .none := answer.mpr refused
    have there := Device.leftAt_accepted sought refused
    rw [if_pos done] at result
    apply iff_of_true
    · rw [result]
      exact ⟨iff_of_true rfl (left.trans there), fun nonzero => absurd rfl nonzero⟩
    · exact fun turned => absurd turned refused

/-- A seek tells the guest what happened just when the method accepts the offset or the local for the
    result happens to hold the right answer. -/
theorem seek_reports_iff (call : SeekCall m cia ciaIn ciaOut ihandle offLo ea) :
    SeekReports m cia ciaIn ciaOut ihandle offLo ea ↔ SeekLucky m ihandle offLo := by
  rw [call.reports_iff]
  cases found : romMethodsByIhandle m.rom.knownIhandles ihandle with
  | none =>
    apply iff_of_true
    · apply seek_nothing
      rw [found]
      rfl
    · intro device there
      rw [found] at there
      cases there
  | some device =>
    have only : SeekLucky m ihandle offLo ↔ (device.Refuses m.os offLo →
        wordAt m.garbage 0 = if device.leftAt m.os offLo = some offLo.toNat then 0 else -1) := by
      constructor
      · exact fun lucky => lucky device found
      · intro lucky other there
        obtain rfl := Option.some.inj (found.symm.trans there)
        exact lucky
    rw [only]
    cases sought : device.seek m.os offLo with
    | none =>
      apply iff_of_true
      · apply seek_nothing
        rw [found]
        exact sought
      · intro refused
        cases device with
        | console => exact absurd refused not_false
        | file fd => cases sought
        | disk fd part currentOff => cases sought
    | some outcome =>
      obtain ⟨err, device', os'⟩ := outcome
      exact seek_told_iff found sought

def seekWords (offLo : W32) (i : ℕ) : W32 := if i = 3 then 1 else if i = 5 then offLo else 0

def seekHost (offLo : W32) : Host := fun a => wordBytes (seekWords offLo (a.toNat / 4)) (a.toNat % 4)

def seekGuest (offLo : W32) : Machine :=
  (realModeGuest false (seekHost offLo)).setHandles [⟨1, .disk 3 ⟨0, 0x200⟩ 0⟩]

theorem seek_cell (offLo : W32) {i : ℕ} (bound : i < 0x800) (old : W32) :
    guestFromX (seekGuest offLo) old (BitVec.ofNat 32 (4 * i)) = .ok (.none, seekWords offLo i) := by
  have real : (0 : W32) &&& MSR_MMU_ON ≠ MSR_MMU_ON := by decide
  have big : guestIsLittle { Guest.zero with monMsr := 0, vmm := .mmuOff, regs := .mmuOff } = false := by decide
  have size : 4 * i + 4 ≤ 0x2000 := by omega
  have words : seekHost offLo = wordsAt (seekGuest offLo).ram (seekWords offLo) := by
    funext a
    have base : a - (seekGuest offLo).ram.pmem = a := sub_zero a
    rw [wordsAt, base]
    rfl
  apply guestFromX_real old real big (by omega) size
  intro k inside
  change seekHost offLo _ = _
  rw [words]
  exact wordsAt_cell (seekGuest offLo).ram (seekWords offLo) inside (by omega)

theorem seekGuest_writable (offLo : W32) : Writable (seekGuest offLo) 24 := by
  have looked : guestBackmap (seekGuest offLo) 24 (wordAt (seekGuest offLo).garbage 0) = .ok (.none, 24) :=
    real_mode_lookup false (seekHost offLo) _ (by decide)
  have fits : ScalarFits (realModeGuest false (seekHost offLo)) 24 4 :=
    (real_mode_fits false (seekHost offLo) (by decide)).mpr (by decide)
  constructor
  · exact ⟨fun aborts => fits.translates ⟨aborts.on, aborts.unmapped, aborts.tables, aborts.bats⟩, fits.whole⟩
  · have below : (24 : W32) < 0x2000 := by decide
    exact ⟨24, looked, below⟩

theorem seekGuest_call (offLo : W32) : SeekCall (seekGuest offLo) 0 3 1 1 offLo 24 :=
  ⟨seek_cell offLo (by decide : 3 < 0x800) _, seek_cell offLo (by decide : 4 < 0x800) _,
    seek_cell offLo (by decide : 5 < 0x800) _, rfl, seekGuest_writable offLo⟩

theorem inner_seek_reported : SeekReports (seekGuest 0x100) 0 3 1 1 0x100 24 := by
  apply (seek_reports_iff (seekGuest_call 0x100)).mpr
  intro device there
  obtain rfl := Option.some.inj there
  intro refused
  change (0x200 : W32) < 0x100 at refused
  exact absurd refused (by decide)

/-- A seek behind the end of a partition is reported as done if the local for the result holds 0. -/
theorem failed_seek_unreported : ¬ ∀ (m : Machine) (cia ciaIn ciaOut ihandle offLo ea : W32),
    SeekCall m cia ciaIn ciaOut ihandle offLo ea → SeekReports m cia ciaIn ciaOut ihandle offLo ea := by
  intro always
  have call := seekGuest_call 0x400
  have told := call.reports_iff.mp (always _ _ _ _ _ _ _ call)
  have there := told.success.mp rfl
  exact absurd there (by decide)

end ToyHv

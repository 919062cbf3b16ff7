import ToyHv.Library.Runs
import ToyHv.Model.Handles
import ToyHv.Rom.Calls
import ToyHv.Translation.Requests

namespace ToyHv
open Library

def Transfer.Within (x : Transfer) (fd : ℕ) (part : DiskPart) : Prop :=
  x.fd = fd ∧ ∀ k < x.count, part.off.toNat ≤ x.off + k ∧ x.off + k < part.off.toNat + part.length.toNat

/-- A cursor from which nothing outside the partition can be reached: nothing is left, or the
    position on the disk does not wrap, or it is one that lseek's int result turns down. -/
def Placed (part : DiskPart) (currentOff : W32) : Prop :=
  currentOff < part.length → part.off.toNat + currentOff.toNat < 2^32 ∨ 2^31 ≤ (part.off + currentOff).toNat

/-- What may become of a handle: a placed cursor inside its partition stays placed and inside it,
    and what is moved meanwhile lies in the partition. -/
def Confines (os os' : Os) (device device' : Device) : Prop :=
  match device with
  | .disk fd part currentOff => ∃ currentOff', device' = .disk fd part currentOff' ∧
      (currentOff ≤ part.length → Placed part currentOff → currentOff' ≤ part.length ∧ Placed part currentOff' ∧
        ∃ moved, os'.transfers = os.transfers ++ moved ∧ ∀ x ∈ moved, x.Within fd part)
  | device => device' = device

theorem Confines.refl (os : Os) (device : Device) : Confines os os device device := by
  cases device with
  | console => rfl
  | file fd => rfl
  | disk fd part currentOff => exact ⟨currentOff, rfl, fun inside placed => ⟨inside, placed, [], by simp, by simp⟩⟩

theorem Confines.trans {os₁ os₂ os₃ : Os} {d₁ d₂ d₃ : Device} (first : Confines os₁ os₂ d₁ d₂)
    (second : Confines os₂ os₃ d₂ d₃) : Confines os₁ os₃ d₁ d₃ := by
  cases d₁ with
  | console =>
    obtain rfl : d₂ = .console := first
    exact second
  | file fd =>
    obtain rfl : d₂ = .file fd := first
    exact second
  | disk fd part currentOff =>
    obtain ⟨middle, rfl, step₁⟩ := first
    obtain ⟨last, rfl, step₂⟩ := second
    refine ⟨last, rfl, fun inside placed => ?_⟩
    obtain ⟨inside, placed, moved₁, same₁, within₁⟩ := step₁ inside placed
    obtain ⟨inside, placed, moved₂, same₂, within₂⟩ := step₂ inside placed
    refine ⟨inside, placed, moved₁ ++ moved₂, by rw [same₂, same₁, List.append_assoc], fun x member => ?_⟩
    exact (List.mem_append.mp member).elim (within₁ x) (within₂ x)

/-- What a read or a write of up to `n` bytes does: it counts at most that many, and what it moves
    starts at the file's position. -/
structure Moves (os os' : Os) (fd : ℕ) (n c : W32) : Prop where
  count : c ≤ n
  small : c.toNat < 2^31
  moved : ∃ moved, os'.transfers = os.transfers ++ moved ∧
    ∀ x ∈ moved, x.fd = fd ∧ x.off = (os.files fd).position ∧ x.count ≤ n.toNat

theorem countOf_int (n : W32) {moved : ℕ} (bound : moved ≤ n.toNat) :
    countOf (BitVec.ofNat 32 moved).toInt ≤ n ∧ (countOf (BitVec.ofNat 32 moved).toInt).toNat < 2^31 := by
  have top := n.isLt
  have value : (BitVec.ofNat 32 moved).toNat = moved := by
    rw [BitVec.toNat_ofNat]
    omega
  unfold countOf
  split
  · exact ⟨by bv_omega, by decide⟩
  · rename_i positive
    rw [BitVec.ofInt_toInt]
    refine ⟨BitVec.le_def.mpr (by omega), ?_⟩
    rw [BitVec.toInt_eq_toNat_cond] at positive
    split at positive <;> omega

theorem moved_exact {n : ℕ} (small : n < 2^31) : (countOf (BitVec.ofNat 32 n).toInt).toNat = n := by
  have exact : (BitVec.ofNat 32 n).toNat = n := by
    rw [BitVec.toNat_ofNat]
    omega
  have positive : ¬ (BitVec.ofNat 32 n).toInt < 0 := by
    rw [BitVec.toInt_eq_toNat_cond]
    split <;> omega
  rw [countOf, if_neg positive, BitVec.ofInt_toInt, exact]

theorem diskIn_moves (os : Os) (fd : ℕ) (buf : Buf) (n : W32) :
    Moves os (diskIn os fd buf n).2.2 fd n (diskIn os fd buf n).1 := by
  by_cases failed : os.results os.calls < 0
  · simp only [diskIn, sysRead, if_pos failed]
    exact ⟨BitVec.le_def.mpr (Nat.zero_le _), by decide, [], by simp, by simp⟩
  · simp only [diskIn, sysRead, if_neg failed]
    obtain ⟨count, small⟩ := countOf_int n (Nat.min_le_right (os.results os.calls).toNat n.toNat)
    exact ⟨count, small, [⟨fd, _, _⟩], rfl, by simp⟩

theorem diskOut_moves (os : Os) (fd : ℕ) (buf : Buf) (n : W32) :
    Moves os (diskOut os fd buf n).2 fd n (diskOut os fd buf n).1 := by
  by_cases failed : os.results os.calls < 0
  · simp only [diskOut, sysWrite, if_pos failed]
    exact ⟨BitVec.le_def.mpr (Nat.zero_le _), by decide, [], by simp, by simp⟩
  · simp only [diskOut, sysWrite, if_neg failed]
    obtain ⟨count, small⟩ := countOf_int n (Nat.min_le_right (os.results os.calls).toNat n.toNat)
    exact ⟨count, small, [⟨fd, _, _⟩], rfl, by simp⟩

theorem diskSeek_transfers (os : Os) (fd : ℕ) (offset : W32) : (diskSeek os fd offset).2.transfers = os.transfers := by
  by_cases failed : os.results os.calls < 0
  · simp only [diskSeek, sysLseek, if_pos failed]
  · simp only [diskSeek, sysLseek, if_neg failed]

theorem diskSeek_bytes (os : Os) (fd : ℕ) (offset : W32) :
    ((diskSeek os fd offset).2.files fd).bytes = (os.files fd).bytes := by
  by_cases failed : os.results os.calls < 0
  · simp only [diskSeek, sysLseek, if_pos failed]
  · simp only [diskSeek, sysLseek, if_neg failed, Function.update_self]

theorem diskSeek_ok {os : Os} {fd : ℕ} {offset : W32} (sought : (diskSeek os fd offset).1 = .none) :
    offset.toNat < 2^31 ∧ ((diskSeek os fd offset).2.files fd).position = offset.toNat := by
  by_cases failed : os.results os.calls < 0
  · simp [diskSeek, sysLseek, if_pos failed] at sought
  · simp only [diskSeek, sysLseek, if_neg failed, Function.update_self] at sought ⊢
    split at sought
    · cases sought
    · rename_i positive
      rw [BitVec.toInt_eq_toNat_cond] at positive
      have top := offset.isLt
      refine ⟨?_, trivial⟩
      split at positive <;> omega

theorem transfer_confined {os os₁ os₂ : Os} {fd : ℕ} {part : DiskPart} {currentOff len c : W32}
    (sought : diskSeek os fd (part.off + currentOff) = (.none, os₁))
    (moves : Moves os₁ os₂ fd (minOf len (part.length - currentOff)) c) :
    Confines os os₂ (.disk fd part currentOff) (.disk fd part (currentOff + c)) := by
  refine ⟨_, rfl, fun inside placed => ?_⟩
  obtain ⟨low, position⟩ := diskSeek_ok (by rw [sought])
  have transfers := diskSeek_transfers os fd (part.off + currentOff)
  simp only [sought] at position transfers
  obtain ⟨count, small, moved, same, spans⟩ := moves
  have inside := BitVec.le_def.mp inside
  have left : (minOf len (part.length - currentOff)).toNat ≤ part.length.toNat - currentOff.toNat := by
    rw [toNat_minOf, BitVec.toNat_sub_of_le (BitVec.le_def.mpr inside)]
    exact Nat.min_le_right _ _
  have count := BitVec.le_def.mp count
  have top := part.length.isLt
  have sum : (currentOff + c).toNat = currentOff.toNat + c.toNat := by
    rw [BitVec.toNat_add]
    omega
  have exact : currentOff.toNat < part.length.toNat →
      (part.off + currentOff).toNat = part.off.toNat + currentOff.toNat := by
    intro more
    rw [BitVec.toNat_add] at low ⊢
    rcases placed (BitVec.lt_def.mpr more) with whole | refused
    · omega
    · rw [BitVec.toNat_add] at refused
      omega
  refine ⟨BitVec.le_def.mpr (by omega), fun more => .inl ?_, moved, by rw [same, transfers], fun x member => ?_⟩
  · have more := BitVec.lt_def.mp more
    have whole := exact (by omega)
    omega
  · obtain ⟨file, off, bound⟩ := spans x member
    refine ⟨file, fun k byte => ?_⟩
    have whole := exact (by omega)
    omega

theorem failed_seek_confined {os os₁ : Os} {fd : ℕ} {offset : W32} {err : Err} (device : Device)
    (sought : diskSeek os fd offset = (err, os₁)) : Confines os os₁ device device := by
  have transfers := diskSeek_transfers os fd offset
  simp only [sought] at transfers
  cases device with
  | console => rfl
  | file fd => rfl
  | disk fd part currentOff =>
    exact ⟨currentOff, rfl, fun inside placed => ⟨inside, placed, [], by rw [transfers, List.append_nil], by simp⟩⟩

theorem romDiskRead_confined (os : Os) (fd : ℕ) (part : DiskPart) (currentOff : W32) (buf : Buf) (len : W32) :
    Confines os (romDiskRead os fd part currentOff buf len).2.2.2 (.disk fd part currentOff)
      (.disk fd part (romDiskRead os fd part currentOff buf len).2.2.1) := by
  rcases sought : diskSeek os fd (part.off + currentOff) with ⟨err, os₁⟩
  simp only [romDiskRead, sought]
  split
  · exact failed_seek_confined _ sought
  · rename_i found
    obtain rfl := not_not.mp found
    exact transfer_confined sought (diskIn_moves os₁ fd buf _)

theorem romDiskWrite_confined (os : Os) (fd : ℕ) (part : DiskPart) (currentOff : W32) (buf : Buf) (len : W32) :
    Confines os (romDiskWrite os fd part currentOff buf len).2.2 (.disk fd part currentOff)
      (.disk fd part (romDiskWrite os fd part currentOff buf len).2.1) := by
  rcases sought : diskSeek os fd (part.off + currentOff) with ⟨err, os₁⟩
  simp only [romDiskWrite, sought]
  split
  · exact failed_seek_confined _ sought
  · rename_i found
    obtain rfl := not_not.mp found
    exact transfer_confined sought (diskOut_moves os₁ fd buf _)

theorem Device.read_confined (os : Os) (buf : Buf) (len : W32) (device : Device) :
    Confines os (device.read os buf len).2.2.2 device (device.read os buf len).2.2.1 := by
  cases device with
  | console => rfl
  | file fd => rfl
  | disk fd part currentOff => exact romDiskRead_confined os fd part currentOff buf len

theorem Device.write_confined (os : Os) (buf : Buf) (len : W32) (device : Device) :
    Confines os (device.write os buf len).2.2 device (device.write os buf len).2.1 := by
  cases device with
  | console => rfl
  | file fd => rfl
  | disk fd part currentOff => exact romDiskWrite_confined os fd part currentOff buf len

/-- The loop of `rom_read` or of `rom_write` leaves the handles alone but for the cursor it moves. -/
def LoopConfines (loop : Machine → Device → W32 → W32 → Checked (Err × W32 × Device × Machine)) : Prop :=
  ∀ {m m' : Machine} {device device' : Device} {dataEa lenIn left : W32} {err : Err},
    loop m device dataEa lenIn = .ok (err, left, device', m') →
    Confines m.os m'.os device device' ∧ m'.rom.knownIhandles = m.rom.knownIhandles

theorem romReadLoop_confines : LoopConfines romReadLoop := by
  intro m m' device device' dataEa lenIn left err looped
  induction n : lenIn.toNat using Nat.strong_induction_on generalizing m device dataEa lenIn with
  | _ n ih =>
  subst n
  rw [romReadLoop] at looped
  split at looped
  · simp only [pure_ok, Except.ok.injEq, Prod.mk.injEq] at looped
    obtain ⟨_, _, rfl, rfl⟩ := looped
    exact ⟨.refl _ _, rfl⟩
  · rename_i more
    simp only [bind_ok] at looped
    obtain ⟨_, _, ⟨storeErr, stored⟩, took, looped⟩ := looped
    obtain ⟨host, rfl⟩ := guestTo_frame took
    have chunk := device.read_confined m.os m.rom.xferBuf (xferAt dataEa lenIn)
    split at looped
    · simp only [pure_ok, Except.ok.injEq, Prod.mk.injEq] at looped
      obtain ⟨_, _, rfl, rfl⟩ := looped
      exact ⟨chunk, rfl⟩
    · split at looped
      · simp only [pure_ok, Except.ok.injEq, Prod.mk.injEq] at looped
        obtain ⟨_, _, rfl, rfl⟩ := looped
        exact ⟨chunk, rfl⟩
      · rename_i whole
        obtain ⟨rest, same⟩ := ih _ (xferAt_decreases more whole) looped rfl
        exact ⟨chunk.trans rest, same⟩

theorem romWriteLoop_confines : LoopConfines romWriteLoop := by
  intro m m' device device' dataEa lenIn left err looped
  induction n : lenIn.toNat using Nat.strong_induction_on generalizing m device dataEa lenIn with
  | _ n ih =>
  subst n
  rw [romWriteLoop] at looped
  split at looped
  · simp only [pure_ok, Except.ok.injEq, Prod.mk.injEq] at looped
    obtain ⟨_, _, rfl, rfl⟩ := looped
    exact ⟨.refl _ _, rfl⟩
  · rename_i more
    simp only [bind_ok] at looped
    obtain ⟨⟨loadErr, loaded⟩, _, looped⟩ := looped
    split at looped
    · simp only [pure_ok, Except.ok.injEq, Prod.mk.injEq] at looped
      obtain ⟨_, _, rfl, rfl⟩ := looped
      exact ⟨.refl _ _, rfl⟩
    · simp only [bind_ok] at looped
      obtain ⟨_, _, looped⟩ := looped
      have chunk := device.write_confined m.os loaded (xferAt dataEa lenIn)
      split at looped
      · simp only [pure_ok, Except.ok.injEq, Prod.mk.injEq] at looped
        obtain ⟨_, _, rfl, rfl⟩ := looped
        exact ⟨chunk, rfl⟩
      · rename_i whole
        obtain ⟨rest, same⟩ := ih _ (xferAt_decreases more whole) looped rfl
        exact ⟨chunk.trans rest, same⟩

def argDevice (m : Machine) (cia ciaIn : W32) : Checked (Option (W32 × Device)) := do
  let (err, ihandle) ← ciaCell m cia ciaIn 0
  return if err ≠ .none then none else (romMethodsByIhandle m.rom.knownIhandles ihandle).map (ihandle, ·)

/-- What a call does to the handles: nothing, or something to the one it names. -/
def HandleEffect (m m' : Machine) (named : Option (W32 × Device)) (moves : Os → Os → Device → Device → Prop) : Prop :=
  (m'.rom.knownIhandles = m.rom.knownIhandles ∧ m'.os = m.os) ∨
  ∃ ihandle device device', named = some (ihandle, device) ∧ moves m.os m'.os device device' ∧
    m'.rom.knownIhandles = updateHandle ihandle device' m.rom.knownIhandles

theorem HandleEffect.unchanged {m m' : Machine} {named : Option (W32 × Device)}
    {moves : Os → Os → Device → Device → Prop} (same : m' = m) : HandleEffect m m' named moves :=
  .inl ⟨congrArg (·.rom.knownIhandles) same, congrArg Machine.os same⟩

theorem HandleEffect.told {m m' : Machine} {named : Option (W32 × Device)} {moves : Os → Os → Device → Device → Prop}
    (stored : ∃ host, m' = { m with host }) : HandleEffect m m' named moves := by
  obtain ⟨host, rfl⟩ := stored
  exact .inl ⟨rfl, rfl⟩

theorem argDevice_eq {m : Machine} {cia ciaIn ihandle : W32} {named : Option (W32 × Device)}
    (cell : ciaCell m cia ciaIn 0 = .ok (.none, ihandle)) (arg : argDevice m cia ciaIn = .ok named) :
    (romMethodsByIhandle m.rom.knownIhandles ihandle).map (ihandle, ·) = named := by
  simp only [argDevice, cell, ok_bind, pure_ok, Except.ok.injEq] at arg
  exact arg

theorem romTransfer_ok {loop : Machine → Device → W32 → W32 → Checked (Err × W32 × Device × Machine)}
    {store : Machine → W32 → W32 → Checked (Err × Machine)} (confines : LoopConfines loop) (stores : Stores store)
    {m m' : Machine} {cia ciaIn ciaOut : W32} {err : Err} {named : Option (W32 × Device)}
    (called : romTransfer loop store m cia ciaIn ciaOut = .ok (err, m')) (arg : argDevice m cia ciaIn = .ok named) :
    HandleEffect m m' named Confines := by
  simp only [romTransfer, bind_ok] at called
  obtain ⟨⟨ihandleErr, ihandle⟩, cell, called⟩ := called
  rcases returned_or called with same | ⟨rfl, called⟩
  · exact .unchanged same
  simp only [bind_ok] at called
  obtain ⟨⟨dataErr, dataEa⟩, _, called⟩ := called
  rcases returned_or called with same | ⟨_, called⟩
  · exact .unchanged same
  simp only [bind_ok] at called
  obtain ⟨⟨lenErr, lenIn⟩, _, called⟩ := called
  rcases returned_or called with same | ⟨_, called⟩
  · exact .unchanged same
  split at called
  · simp only [bind_ok] at called
    obtain ⟨_, _, stored⟩ := called
    exact .told (stores stored)
  · rename_i device found
    simp only [bind_ok] at called
    obtain ⟨⟨loopErr, left, device', m₁⟩, looped, _, _, stored⟩ := called
    obtain ⟨host, rfl⟩ := stores stored
    obtain ⟨confined, same⟩ := confines looped
    refine .inr ⟨ihandle, device, device', ?_, confined, ?_⟩
    · rw [← argDevice_eq cell arg, found]
      rfl
    · simp only [Machine.setHandles]
      rw [same]

theorem romRead_ok {m m' : Machine} {cia ciaIn ciaOut : W32} {err : Err} {named : Option (W32 × Device)}
    (called : romRead m cia ciaIn ciaOut = .ok (err, m')) (arg : argDevice m cia ciaIn = .ok named) :
    HandleEffect m m' named Confines :=
  romTransfer_ok romReadLoop_confines guestToX_stores called arg

theorem romWrite_ok {m m' : Machine} {cia ciaIn ciaOut : W32} {err : Err} {named : Option (W32 × Device)}
    (called : romWrite m cia ciaIn ciaOut = .ok (err, m')) (arg : argDevice m cia ciaIn = .ok named) :
    HandleEffect m m' named Confines :=
  romTransfer_ok romWriteLoop_confines storeResult_stores called arg

/-- What a seek may do: move a cursor, to inside its partition, or go through to a file. -/
def Seeks (os os' : Os) (device device' : Device) : Prop :=
  match device with
  | .disk fd part currentOff => ∃ currentOff', device' = .disk fd part currentOff' ∧
      (currentOff ≤ part.length → currentOff' ≤ part.length) ∧ os' = os
  | device => device' = device

theorem Device.seek_seeks {os os' : Os} {offset : W32} {device device' : Device} {err : Err}
    (sought : device.seek os offset = some (err, device', os')) : Seeks os os' device device' := by
  cases device with
  | console => cases sought
  | file fd =>
    simp only [Device.seek, Option.some.injEq, Prod.mk.injEq] at sought
    exact sought.2.1.symm
  | disk fd part currentOff =>
    simp only [Device.seek, romDiskSeek, Option.some.injEq, Prod.mk.injEq] at sought
    obtain ⟨_, rfl, rfl⟩ := sought
    refine ⟨_, rfl, fun inside => ?_, rfl⟩
    split
    · exact inside
    · rename_i bound
      exact BitVec.not_lt.mp bound

theorem romSeek_ok {m m' : Machine} {cia ciaIn ciaOut : W32} {err : Err} {named : Option (W32 × Device)}
    (called : romSeek m cia ciaIn ciaOut = .ok (err, m')) (arg : argDevice m cia ciaIn = .ok named) :
    HandleEffect m m' named Seeks := by
  simp only [romSeek, bind_ok] at called
  obtain ⟨⟨ihandleErr, ihandle⟩, cell, called⟩ := called
  rcases returned_or called with same | ⟨rfl, called⟩
  · exact .unchanged same
  simp only [bind_ok] at called
  obtain ⟨⟨hiErr, offHi⟩, _, called⟩ := called
  rcases returned_or called with same | ⟨_, called⟩
  · exact .unchanged same
  simp only [bind_ok] at called
  obtain ⟨⟨loErr, offLo⟩, _, called⟩ := called
  rcases returned_or called with same | ⟨_, called⟩
  · exact .unchanged same
  simp only [bind_ok] at called
  obtain ⟨_, _, called⟩ := called
  split at called
  · simp only [bind_ok] at called
    obtain ⟨_, _, stored⟩ := called
    exact .told (guestToX_stores stored)
  · rename_i seekErr device' os' sought
    simp only [bind_ok] at called
    obtain ⟨_, _, stored⟩ := called
    obtain ⟨host, rfl⟩ := guestTo_frame stored
    obtain ⟨device, found, sought⟩ := Option.bind_eq_some_iff.mp sought
    refine .inr ⟨ihandle, device, device', ?_, Device.seek_seeks sought, rfl⟩
    rw [← argDevice_eq cell arg, found]
    rfl

theorem romClose_ok {m m' : Machine} {cia ciaIn : W32} {err : Err} (called : romClose m cia ciaIn = .ok (err, m')) :
    ∀ h ∈ m'.rom.knownIhandles, h ∈ m.rom.knownIhandles := by
  simp only [romClose, bind_ok] at called
  obtain ⟨⟨ihandleErr, ihandle⟩, _, called⟩ := called
  rcases returned_or called with rfl | ⟨_, called⟩
  · exact fun h member => member
  split at called
  · simp only [pure_ok, Except.ok.injEq, Prod.mk.injEq] at called
    rw [called.2]
    exact fun h member => member
  · split at called
    all_goals
      simp only [pure_ok, Except.ok.injEq, Prod.mk.injEq] at called
      obtain ⟨_, rfl⟩ := called
    · exact fun h member => List.mem_of_mem_eraseP member
    · exact fun h member => member

/-- What becomes of the handles, one event at a time. A read or a write notes the handle it names
    and the transfers it has the system make. -/
inductive HandleEvent
  | run
  | openDisk (block : Option (W32 × W32)) (dup : Bool) (fd : ℕ) (part : DiskPart)
  | openFile (fd : Option ℕ) (block : Option W32) (dup : Bool)
  | seek (named : Option (W32 × Device))
  | read (named : Option (W32 × Device)) (moved : List Transfer)
  | write (named : Option (W32 × Device)) (moved : List Transfer)
  | close

/-- A client call on handles, or anything that leaves the handles alone. An open may have the disk
    and guest memory accessed in any way besides, and any partition found. -/
inductive HandleStep (m : Machine) : HandleEvent → Machine → Prop
  | run {v : Machine} (same : v.rom.knownIhandles = m.rom.knownIhandles) : HandleStep m .run v
  | openDisk {block : Option (W32 × W32)} {dup : Bool} {fd : ℕ} {part : DiskPart} {v : Machine}
      (opened : v.rom.knownIhandles = (romIhandleFromDisk block dup fd part m.rom.knownIhandles).2.2) :
      HandleStep m (.openDisk block dup fd part) v
  | openFile {fd : Option ℕ} {block : Option W32} {dup : Bool} {v : Machine}
      (opened : v.rom.knownIhandles = (romIhandleFromFile fd block dup m.rom.knownIhandles).2.2) :
      HandleStep m (.openFile fd block dup) v
  | seek {cia ciaIn ciaOut : W32} {err : Err} {named : Option (W32 × Device)} {v : Machine}
      (arg : argDevice m cia ciaIn = .ok named) (called : romSeek m cia ciaIn ciaOut = .ok (err, v)) :
      HandleStep m (.seek named) v
  | read {cia ciaIn ciaOut : W32} {err : Err} {named : Option (W32 × Device)} {v : Machine}
      (arg : argDevice m cia ciaIn = .ok named) (called : romRead m cia ciaIn ciaOut = .ok (err, v)) :
      HandleStep m (.read named (v.os.transfers.drop m.os.transfers.length)) v
  | write {cia ciaIn ciaOut : W32} {err : Err} {named : Option (W32 × Device)} {v : Machine}
      (arg : argDevice m cia ciaIn = .ok named) (called : romWrite m cia ciaIn ciaOut = .ok (err, v)) :
      HandleStep m (.write named (v.os.transfers.drop m.os.transfers.length)) v
  | close {cia ciaIn : W32} {err : Err} {v : Machine} (called : romClose m cia ciaIn = .ok (err, v)) :
      HandleStep m .close v

/-- What keeps an event off the two slips: the block of a new handle holds 0 where `current_off`
    will be, and the cursor a transfer starts at is placed. -/
def HandleEvent.Benign : HandleEvent → Prop
  | .openDisk (some (_, stale)) true _ _ => stale = 0
  | .read (some (_, .disk _ part currentOff)) _ => Placed part currentOff
  | .write (some (_, .disk _ part currentOff)) _ => Placed part currentOff
  | _ => True

def HandleEvent.Confined : HandleEvent → Prop
  | .read (some (_, .disk fd part _)) moved => ∀ x ∈ moved, x.Within fd part
  | .write (some (_, .disk fd part _)) moved => ∀ x ∈ moved, x.Within fd part
  | _ => True

def CursorsInside (knownIhandles : List Ihandle) : Prop :=
  ∀ h ∈ knownIhandles, ∀ fd part currentOff, h.device = .disk fd part currentOff → currentOff ≤ part.length

theorem mem_updateHandle {ihandle : W32} {device : Device} {handles : List Ihandle} {h : Ihandle}
    (member : h ∈ updateHandle ihandle device handles) : h ∈ handles ∨ h.device = device := by
  induction handles with
  | nil => cases member
  | cons first handles ih =>
    rw [updateHandle] at member
    split at member
    · rcases List.mem_cons.mp member with rfl | later
      · exact .inr rfl
      · exact .inl (List.mem_cons_of_mem _ later)
    · rcases List.mem_cons.mp member with rfl | later
      · exact .inl (by simp)
      · exact (ih later).imp_left (List.mem_cons_of_mem _)

theorem argDevice_mem {m : Machine} {cia ciaIn ihandle : W32} {device : Device}
    (arg : argDevice m cia ciaIn = .ok (some (ihandle, device))) : ∃ h ∈ m.rom.knownIhandles, h.device = device := by
  simp only [argDevice, bind_ok, pure_ok, Except.ok.injEq] at arg
  obtain ⟨_, _, arg⟩ := arg
  split at arg
  · cases arg
  · obtain ⟨found, known, same⟩ := Option.map_eq_some_iff.mp arg
    obtain ⟨_, rfl⟩ := Prod.mk.inj same
    obtain ⟨h, first, rfl⟩ := Option.map_eq_some_iff.mp known
    exact ⟨h, List.mem_of_find?_eq_some first, rfl⟩

theorem CursorsInside.update {handles : List Ihandle} (inside : CursorsInside handles) {ihandle : W32} {device : Device}
    (kept : ∀ fd part currentOff, device = .disk fd part currentOff → currentOff ≤ part.length) :
    CursorsInside (updateHandle ihandle device handles) := by
  intro h member fd part currentOff disk
  rcases mem_updateHandle member with older | rfl
  · exact inside h older fd part currentOff disk
  · exact kept fd part currentOff disk

theorem CursorsInside.transfer {m m' : Machine} {cia ciaIn : W32} {named : Option (W32 × Device)}
    (inside : CursorsInside m.rom.knownIhandles) (arg : argDevice m cia ciaIn = .ok named)
    (effect : HandleEffect m m' named Confines)
    (placed : ∀ ihandle fd part currentOff, named = some (ihandle, .disk fd part currentOff) → Placed part currentOff) :
    CursorsInside m'.rom.knownIhandles ∧
      ∀ ihandle fd part currentOff, named = some (ihandle, .disk fd part currentOff) →
        ∀ x ∈ m'.os.transfers.drop m.os.transfers.length, x.Within fd part := by
  rcases effect with ⟨handles, os⟩ | ⟨ihandle, device, device', rfl, confined, handles⟩
  · rw [handles, os]
    exact ⟨inside, fun _ _ _ _ _ x member => by simp at member⟩
  · obtain ⟨h, known, rfl⟩ := argDevice_mem arg
    rw [handles]
    cases disk : h.device with
    | console =>
      rw [disk] at confined
      obtain rfl : device' = .console := confined
      exact ⟨inside.update (by simp), by simp⟩
    | file fd =>
      rw [disk] at confined
      obtain rfl : device' = .file fd := confined
      exact ⟨inside.update (by simp), by simp⟩
    | disk fd part currentOff =>
      rw [disk] at confined placed
      obtain ⟨currentOff', rfl, step⟩ := confined
      obtain ⟨after, _, moved, same, within⟩ :=
        step (inside h known fd part currentOff disk) (placed ihandle fd part currentOff rfl)
      refine ⟨inside.update ?_, ?_⟩
      · rintro _ _ _ ⟨⟩
        exact after
      · rintro _ _ _ _ ⟨⟩
        rw [same, List.drop_left]
        exact within

theorem romIhandleFromDisk_mem {block : Option (W32 × W32)} {dup : Bool} {fd : ℕ} {part : DiskPart}
    {handles : List Ihandle} {h : Ihandle} (member : h ∈ (romIhandleFromDisk block dup fd part handles).2.2) :
    h ∈ handles ∨ ∃ d stale, block = some (d, stale) ∧ dup = true ∧ h = ⟨d, .disk fd part stale⟩ := by
  unfold romIhandleFromDisk at member
  split at member
  · exact .inl member
  · split at member
    · exact (List.mem_append.mp member).imp_right fun new => ⟨_, _, rfl, ‹_›, List.mem_singleton.mp new⟩
    · exact .inl member

theorem romIhandleFromFile_mem {fd : Option ℕ} {block : Option W32} {dup : Bool} {handles : List Ihandle} {h : Ihandle}
    (member : h ∈ (romIhandleFromFile fd block dup handles).2.2) : h ∈ handles ∨ ∃ fd, h.device = .file fd := by
  unfold romIhandleFromFile at member
  split at member
  · exact .inl member
  · exact .inl member
  · split at member
    · refine (List.mem_append.mp member).imp_right fun new => ?_
      rw [List.mem_singleton.mp new]
      exact ⟨_, rfl⟩
    · exact .inl member

variable {m m' : Machine} {e : HandleEvent}

theorem HandleStep.fresh {block : Option (W32 × W32)} {dup : Bool} {fd : ℕ} {part : DiskPart}
    (step : HandleStep m (.openDisk block dup fd part) m') (benign : (HandleEvent.openDisk block dup fd part).Benign) :
    ∀ h ∈ m'.rom.knownIhandles, h ∈ m.rom.knownIhandles ∨ h.device = .disk fd part 0 := by
  cases step with
  | openDisk opened =>
    intro h member
    rw [opened] at member
    refine (romIhandleFromDisk_mem member).imp_right ?_
    rintro ⟨d, stale, rfl, rfl, rfl⟩
    obtain rfl : stale = 0 := benign
    rfl

theorem CursorsInside.added {handles handles' : List Ihandle} (inside : CursorsInside handles)
    (added : ∀ h ∈ handles', h ∈ handles ∨
      ∀ fd part currentOff, h.device = .disk fd part currentOff → currentOff ≤ part.length) :
    CursorsInside handles' := by
  intro h member fd part currentOff disk
  rcases added h member with older | new
  · exact inside h older fd part currentOff disk
  · exact new fd part currentOff disk

theorem CursorsInside.seek {cia ciaIn : W32} {named : Option (W32 × Device)}
    (inside : CursorsInside m.rom.knownIhandles) (arg : argDevice m cia ciaIn = .ok named)
    (effect : HandleEffect m m' named Seeks) : CursorsInside m'.rom.knownIhandles := by
  rcases effect with ⟨handles, _⟩ | ⟨ihandle, device, device', rfl, sought, handles⟩
  · rw [handles]
    exact inside
  · obtain ⟨h, known, rfl⟩ := argDevice_mem arg
    rw [handles]
    refine inside.update fun fd part currentOff disk => ?_
    subst disk
    cases before : h.device with
    | console =>
      rw [before] at sought
      cases sought
    | file file =>
      rw [before] at sought
      cases sought
    | disk file extent offset =>
      rw [before] at sought
      obtain ⟨after, same, kept, _⟩ := sought
      obtain ⟨rfl, rfl, rfl⟩ := Device.disk.inj same
      exact kept (inside h known _ _ _ before)

theorem HandleEvent.confined_transfer {named : Option (W32 × Device)} {moved : List Transfer}
    (within : ∀ ihandle fd part currentOff, named = some (ihandle, .disk fd part currentOff) →
      ∀ x ∈ moved, x.Within fd part) :
    (HandleEvent.read named moved).Confined ∧ (HandleEvent.write named moved).Confined := by
  rcases named with _ | ⟨ihandle, _ | fd | ⟨fd, part, currentOff⟩⟩
  · exact ⟨trivial, trivial⟩
  · exact ⟨trivial, trivial⟩
  · exact ⟨trivial, trivial⟩
  · exact ⟨within _ _ _ _ rfl, within _ _ _ _ rfl⟩

/-- One benign event keeps the cursors inside, and moves only bytes of the partition. -/
theorem CursorsInside.step (inside : CursorsInside m.rom.knownIhandles) (step : HandleStep m e m') (benign : e.Benign) :
    CursorsInside m'.rom.knownIhandles ∧ e.Confined := by
  cases step with
  | run same =>
    rw [same]
    exact ⟨inside, trivial⟩
  | openDisk opened =>
    refine ⟨inside.added fun h member => ?_, trivial⟩
    refine ((HandleStep.openDisk opened).fresh benign h member).imp_right ?_
    intro fresh fd part currentOff disk
    rw [fresh] at disk
    obtain ⟨rfl, rfl, rfl⟩ := Device.disk.inj disk
    exact BitVec.le_def.mpr (Nat.zero_le _)
  | openFile opened =>
    refine ⟨inside.added fun h member => ?_, trivial⟩
    rw [opened] at member
    refine (romIhandleFromFile_mem member).imp_right ?_
    rintro ⟨file, new⟩ fd part currentOff disk
    rw [new] at disk
    cases disk
  | seek arg called => exact ⟨inside.seek arg (romSeek_ok called arg), trivial⟩
  | read arg called =>
    obtain ⟨after, confined⟩ := inside.transfer arg (romRead_ok called arg) (by
      rintro ihandle fd part currentOff rfl
      exact benign)
    exact ⟨after, (HandleEvent.confined_transfer confined).1⟩
  | write arg called =>
    obtain ⟨after, confined⟩ := inside.transfer arg (romWrite_ok called arg) (by
      rintro ihandle fd part currentOff rfl
      exact benign)
    exact ⟨after, (HandleEvent.confined_transfer confined).2⟩
  | close called => exact ⟨fun h member => inside h (romClose_ok called h member), trivial⟩

theorem plain_console : ∃ m s, PlainBoot m s ∧ s.rom.knownIhandles = [⟨3, .console⟩] :=
  ⟨_, _, ⟨rfl, rfl, rfl, rfl, rfl, rfl, rfl, rfl, rfl, rfl, rfl, rfl, rfl⟩, rfl⟩

/-- A call array at address 0 with the ihandle 0x1000 and two more arguments. -/
def diskCall (x y : W32) : ℕ → W32 := fun i => if i = 3 then 0x1000 else if i = 4 then x else y

/-- The console, and a disk handle with its cursor there. -/
def diskHandles (currentOff : W32) : List Ihandle :=
  [⟨3, .console⟩, ⟨0x1000, .disk 3 ⟨0x10000, 0x1000⟩ currentOff⟩]

def diskOs : Os := { zeroMachine.os with results := fun _ => 0x1000 }

theorem PlainBoot.disk_args {s : Machine} (plain : PlainBoot m s) (x y : W32) (handles : List Ihandle) :
    ciaCell (s.filled (diskCall x y) handles diskOs) 0 3 0 = .ok (.none, 0x1000) ∧
    ciaCell (s.filled (diskCall x y) handles diskOs) 0 3 1 = .ok (.none, x) ∧
    ciaCell (s.filled (diskCall x y) handles diskOs) 0 3 2 = .ok (.none, y) := by
  have reached := plain.reaches (diskCall x y) handles diskOs
  exact ⟨reached.word 3 (by decide), reached.word 4 (by decide), reached.word 5 (by decide)⟩

theorem PlainBoot.disk_seek {s : Machine} (plain : PlainBoot m s) :
    ∃ v, romSeek (s.filled (diskCall 0 0x800) (diskHandles 0) diskOs) 0 3 1 = .ok (.none, v) ∧
      v.rom.knownIhandles = diskHandles 0x800 := by
  obtain ⟨ihandle, high, low⟩ := plain.disk_args 0 0x800 (diskHandles 0)
  have reached := plain.reaches (diskCall 0 0x800) (diskHandles 0) diskOs
  let w := (s.filled (diskCall 0 0x800) (diskHandles 0) diskOs).setHandles (diskHandles 0x800)
  have wise := (FastPath.reachable plain.inited plain.booted reached.run).pageWise
  have there : PageWise w := ⟨wise.found, wise.missing⟩
  rcases @PageWise.storeWord w 24 there 0 (by decide) with ⟨host, stored, _⟩ | ⟨missing, _⟩
  · refine ⟨{ w with host }, ?_, rfl⟩
    simp only [romSeek, ihandle, high, low, ok_bind, ne_eq, not_true_eq_false, if_false, bugOn_false not_false]
    exact stored
  · cases Eq.trans (Eq.symm missing) (reached.page 24 (by decide))

theorem disk_write_loop {u : Machine} {copied : Buf} (results : u.os = diskOs)
    (fetched : guestFrom u u.rom.xferBuf 0x100 (xferAt 0x100 8) 1 = .ok (.none, copied)) :
    ∃ os, os.transfers = [⟨3, 0x10800, 8⟩] ∧ romWriteLoop u (.disk 3 ⟨0x10000, 0x1000⟩ 0x800) 0x100 8 =
      .ok (.none, 0, .disk 3 ⟨0x10000, 0x1000⟩ 0x808, { u with os, rom := { u.rom with xferBuf := copied } }) := by
  obtain ⟨os, moved, wrote⟩ : ∃ os, os.transfers = [⟨3, 0x10800, 8⟩] ∧
      Device.write diskOs copied (xferAt 0x100 8) (.disk 3 ⟨0x10000, 0x1000⟩ 0x800) =
        (8, .disk 3 ⟨0x10000, 0x1000⟩ 0x808, os) := ⟨_, rfl, rfl⟩
  have size : xferAt 0x100 8 = 8 := by decide
  have page : ¬ pfn 0x100 ≠ pfn ((0x100 : W32) + 8 - 1) := by decide
  have nothing : (8 : W32) - 8 = 0 := by decide
  refine ⟨os, moved, ?_⟩
  rw [romWriteLoop, dif_neg (by decide), fetched]
  simp only [ok_bind, ne_eq, not_true_eq_false, if_false, results, wrote]
  rw [size]
  simp only [bugOn_false page, ok_bind, nothing]
  rw [romWriteLoop, dif_pos rfl]
  rfl

theorem PlainBoot.disk_write {s : Machine} (plain : PlainBoot m s) :
    ∃ v, romWrite (s.filled (diskCall 0x100 8) (diskHandles 0x800) diskOs) 0 3 1 = .ok (.none, v) ∧
      v.rom.knownIhandles = diskHandles 0x808 ∧ v.os.transfers = [⟨3, 0x10800, 8⟩] := by
  obtain ⟨ihandle, data, len⟩ := plain.disk_args 0x100 8 (diskHandles 0x800)
  have reached := plain.reaches (diskCall 0x100 8) (diskHandles 0x800) diskOs
  generalize s.filled (diskCall 0x100 8) (diskHandles 0x800) diskOs = u at reached ihandle data len
  have handles : u.rom.knownIhandles = diskHandles 0x800 := by rw [reached.rom]
  have wise := (FastPath.reachable plain.inited plain.booted reached.run).pageWise
  have fetch := @PageWise.fetch u 0x100 wise u.rom.xferBuf (xferAt 0x100 8) (by decide) (by decide)
  rcases fetch with ⟨copied, fetched, _⟩ | ⟨missing, _⟩
  · obtain ⟨os, moved, looped⟩ := disk_write_loop reached.os fetched
    let v : Machine := { u with os, rom := { u.rom with knownIhandles := diskHandles 0x808, xferBuf := copied } }
    have there : PageWise v := ⟨wise.found, wise.missing⟩
    rcases @PageWise.storeWord v 24 there 8 (by decide) with ⟨host, stored, _⟩ | ⟨missing, _⟩
    · refine ⟨{ v with host }, ?_, rfl, moved⟩
      have told : storeResult v 24 8 = .ok (.none, { v with host }) := by
        rw [storeResult, stored]
        rfl
      have found : romMethodsByIhandle u.rom.knownIhandles 0x1000 = some (.disk 3 ⟨0x10000, 0x1000⟩ 0x800) := by
        rw [handles]
        rfl
      have kept : updateHandle 0x1000 (.disk 3 ⟨0x10000, 0x1000⟩ 0x808) u.rom.knownIhandles = diskHandles 0x808 := by
        rw [handles]
        rfl
      simp only [romWrite, romTransfer, ihandle, data, len, ok_bind, ne_eq, not_true_eq_false, if_false, found, looped,
        kept]
      exact told
    · cases Eq.trans (Eq.symm missing) (reached.page 24 (by decide))
  · cases Eq.trans (Eq.symm missing) (reached.page 0x100 (by decide))

/-- From a booted machine on, as long as every event is benign, disk handles are confined to their
    partitions. -/
theorem disk_handles_confined {env : BootEnv} {m s t : Machine} {history : List HandleEvent}
    (booted : romInit env m = .ok (.none, s)) (run : Run HandleStep s history t)
    (benign : ∀ e ∈ history, e.Benign) :
    CursorsInside t.rom.knownIhandles ∧
    (∀ block dup fd part u, HandleStep t (.openDisk block dup fd part) u →
      (HandleEvent.openDisk block dup fd part).Benign →
      ∀ h ∈ u.rom.knownIhandles, h ∈ t.rom.knownIhandles ∨ h.device = .disk fd part 0) ∧
    ∀ e ∈ history, e.Confined := by
  obtain ⟨boot⟩ := romInit_ok booted
  obtain ⟨ihandle, console⟩ := boot.handles_eq
  have inv : CursorsInside t.rom.knownIhandles ∧ ∀ e ∈ history, e.Confined := by
    refine run.invariant (I := fun older t => (∀ e ∈ older, e.Benign) →
      CursorsInside t.rom.knownIhandles ∧ ∀ e ∈ older, e.Confined) ?_ ?_ benign
    · intro _
      refine ⟨fun h member fd part currentOff disk => ?_, by simp⟩
      rw [console, List.mem_singleton] at member
      rw [member] at disk
      cases disk
    · intro older t e u ih step benign
      obtain ⟨inside, confined⟩ := ih fun d member => benign d (by simp [member])
      obtain ⟨after, new⟩ := inside.step step (benign e (by simp))
      refine ⟨after, fun d member => ?_⟩
      rcases List.mem_append.mp member with earlier | last
      · exact confined d earlier
      · rw [List.mem_singleton.mp last]
        exact new
  exact ⟨inv.1, fun block dup fd part u step benign => step.fresh benign, inv.2⟩

theorem cleared_handle_inside : ∃ (s t : Machine) (history : List HandleEvent), Run HandleStep s history t ∧
    HandleEvent.seek (some (0x1000, .disk 3 ⟨0x10000, 0x1000⟩ 0)) ∈ history ∧
    HandleEvent.write (some (0x1000, .disk 3 ⟨0x10000, 0x1000⟩ 0x800)) [⟨3, 0x10800, 8⟩] ∈ history ∧
    t.rom.knownIhandles = diskHandles 0x808 ∧ CursorsInside t.rom.knownIhandles ∧ ∀ e ∈ history, e.Confined := by
  obtain ⟨m, s, plain, console⟩ := plain_console
  obtain ⟨v, sought, handles⟩ := plain.disk_seek
  obtain ⟨t, wrote, ended, transfers⟩ := plain.disk_write
  let called : Machine := s.filled (diskCall 0x100 8) (diskHandles 0x800) diskOs
  have opens : HandleStep s (.openDisk (some (0x1000, 0)) true 3 ⟨0x10000, 0x1000⟩)
      (s.filled (diskCall 0 0x800) (diskHandles 0) diskOs) := .openDisk (by rw [console]; rfl)
  have first : argDevice (s.filled (diskCall 0 0x800) (diskHandles 0) diskOs) 0 3 =
      .ok (some (0x1000, .disk 3 ⟨0x10000, 0x1000⟩ 0)) := by
    rw [argDevice, (plain.disk_args 0 0x800 (diskHandles 0)).1]
    rfl
  have second : argDevice called 0 3 = .ok (some (0x1000, .disk 3 ⟨0x10000, 0x1000⟩ 0x800)) := by
    rw [argDevice, (plain.disk_args 0x100 8 (diskHandles 0x800)).1]
    rfl
  have runs : HandleStep v .run called := .run handles.symm
  have write := HandleStep.write second wrote
  rw [show t.os.transfers.drop called.os.transfers.length = [⟨3, 0x10800, 8⟩] from transfers] at write
  have run := (((Run.single opens).snoc (.seek first sought)).snoc runs).snoc write
  have confined := disk_handles_confined plain.booted run (by
    intro e member
    simp only [List.cons_append, List.nil_append, List.mem_cons, List.not_mem_nil, or_false] at member
    rcases member with rfl | rfl | rfl | rfl
    · rfl
    · trivial
    · trivial
    · exact fun _ => .inl (by decide))
  exact ⟨s, t, _, run, by simp, by simp, ended, confined.1, confined.2.2⟩

/-- A disk opened over a block that holds anything else may start outside. -/
theorem stale_handle_outside : ¬ ∀ (env : BootEnv) (m s t : Machine) (history : List HandleEvent),
    romInit env m = .ok (.none, s) → Run HandleStep s history t →
    CursorsInside t.rom.knownIhandles ∧ ∀ e ∈ history, e.Confined := by
  intro always
  obtain ⟨m, s, plain⟩ := plain_boot
  have step : HandleStep s (.openDisk (some (0x1000, 0x2000)) true 3 ⟨0x10000, 0x1000⟩)
      (s.setHandles (s.rom.knownIhandles ++ [⟨0x1000, .disk 3 ⟨0x10000, 0x1000⟩ 0x2000⟩])) := .openDisk rfl
  have inside := (always _ m s _ _ plain.booted (.single step)).1 ⟨0x1000, .disk 3 ⟨0x10000, 0x1000⟩ 0x2000⟩
    (by simp [Machine.setHandles]) 3 ⟨0x10000, 0x1000⟩ 0x2000 rfl
  exact absurd inside (by decide)

end ToyHv

import ToyHv.Handles.Table

namespace ToyHv
open Library

structure TransferArgs (m : Machine) (cia ciaIn ihandle dataEa lenIn : W32) : Prop where
  ihandle : ciaCell m cia ciaIn 0 = .ok (.none, ihandle)
  dataEa : ciaCell m cia ciaIn 1 = .ok (.none, dataEa)
  lenIn : ciaCell m cia ciaIn 2 = .ok (.none, lenIn)

def finishTransfer (cia ciaIn ciaOut ihandle lenIn : W32) (done : Err × W32 × Device × Machine) :
    Checked (Err × Machine) := do
  let (err, left, device, v) := done
  guestToX (v.setHandles (updateHandle ihandle device v.rom.knownIhandles)) (← ciaRet cia ciaIn ciaOut 0)
    (lenOut err lenIn left)

/-- The same for `rom_write`, which does not give up on its result cell. -/
def finishWrite (cia ciaIn ciaOut ihandle lenIn : W32) (done : Err × W32 × Device × Machine) :
    Checked (Err × Machine) := do
  let (err, left, device, v) := done
  storeResult (v.setHandles (updateHandle ihandle device v.rom.knownIhandles)) (← ciaRet cia ciaIn ciaOut 0)
    (lenOut err lenIn left)

theorem romTransfer_eq {loop : Machine → Device → W32 → W32 → Checked (Err × W32 × Device × Machine)}
    {store : Machine → W32 → W32 → Checked (Err × Machine)} {m : Machine}
    {cia ciaIn ciaOut ihandle dataEa lenIn : W32} {device : Device}
    (args : TransferArgs m cia ciaIn ihandle dataEa lenIn)
    (found : romMethodsByIhandle m.rom.knownIhandles ihandle = some device) :
    romTransfer loop store m cia ciaIn ciaOut = (loop m device dataEa lenIn >>= fun (err, left, device, v) =>
      ciaRet cia ciaIn ciaOut 0 >>= fun ea =>
        store (v.setHandles (updateHandle ihandle device v.rom.knownIhandles)) ea (lenOut err lenIn left)) := by
  simp only [romTransfer, args.ihandle, args.dataEa, args.lenIn, found, ok_bind, ne_eq, not_true_eq_false, if_false]

theorem romWrite_eq {m : Machine} {cia ciaIn ciaOut ihandle dataEa lenIn : W32} {device : Device}
    (args : TransferArgs m cia ciaIn ihandle dataEa lenIn)
    (found : romMethodsByIhandle m.rom.knownIhandles ihandle = some device) :
    romWrite m cia ciaIn ciaOut =
      (romWriteLoop m device dataEa lenIn >>= finishWrite cia ciaIn ciaOut ihandle lenIn) :=
  romTransfer_eq args found

/-- How many bytes a device takes of those it is asked to write. -/
def Device.took (os : Os) (buf : Buf) (len : W32) : Device → ℕ
  | .console => len.toNat
  | device => (((device.write os buf len).2.2.transfers.drop os.transfers.length).map Transfer.count).sum

inductive Given : Os → Device → List W8 → Os → Device → Prop
  | nil {os : Os} {device : Device} : Given os device [] os device
  | write {os os' : Os} {device device' : Device} {later : List W8} (buf : Buf) (len : W32)
      (rest : Given (device.write os buf len).2.2 (device.write os buf len).2.1 later os' device') :
      Given os device ((List.range (device.took os buf len)).map buf ++ later) os' device'

theorem sysWrite_count (os : Os) (fd : ℕ) (buf : Buf) {len : W32} (small : len.toNat < 2^31) :
    ∃ moved, (sysWrite os fd buf len).2.transfers = os.transfers ++ moved ∧
      (countOf (sysWrite os fd buf len).1).toNat = (moved.map Transfer.count).sum ∧
      (moved.map Transfer.count).sum ≤ len.toNat := by
  by_cases failed : os.results os.calls < 0
  · simp only [sysWrite, if_pos failed]
    exact ⟨[], (List.append_nil _).symm, rfl, Nat.zero_le _⟩
  · simp only [sysWrite, if_neg failed]
    have bound := Nat.min_le_right (os.results os.calls).toNat len.toNat
    have exact := moved_exact (n := min (os.results os.calls).toNat len.toNat) (by omega)
    refine ⟨[_], rfl, ?_, ?_⟩
    · rw [exact, List.map_singleton, List.sum_singleton]
    · rw [List.map_singleton, List.sum_singleton]
      exact bound

variable {m : Machine} {device : Device} {dataEa lenIn : W32}

theorem Device.write_took (os : Os) (buf : Buf) (len : W32) (small : len.toNat < 2^31) (silent : device ≠ .console) :
    (device.write os buf len).1.toNat = device.took os buf len ∧ device.took os buf len ≤ len.toNat ∧
      (device.write os buf len).2.1 ≠ .console := by
  cases device with
  | console => exact absurd rfl silent
  | file fd =>
    obtain ⟨moved, transfers, count, bound⟩ := sysWrite_count os fd buf small
    simp only [took, Device.write, romFileWrite, transfers, List.drop_left]
    exact ⟨count, bound, by simp⟩
  | disk fd part currentOff =>
    have same := diskSeek_transfers os fd (part.off + currentOff)
    rcases seek : diskSeek os fd (part.off + currentOff) with ⟨err, os₁⟩
    simp only [seek] at same
    by_cases sought : err = .none
    · have less : (minOf len (part.length - currentOff)).toNat ≤ len.toNat := by
        rw [toNat_minOf]
        exact Nat.min_le_left _ _
      obtain ⟨moved, transfers, count, bound⟩ :=
        sysWrite_count os₁ fd buf (Nat.lt_of_le_of_lt less small)
      simp only [took, Device.write, romDiskWrite, seek, sought, diskOut, ne_eq, not_true_eq_false, if_false, transfers,
        same, List.drop_left]
      exact ⟨count, bound.trans less, by simp⟩
    · simp only [took, Device.write, romDiskWrite, seek, if_pos sought, same, List.drop_length, List.map_nil,
        List.sum_nil]
      exact ⟨rfl, Nat.zero_le _, by simp⟩

theorem xferAt_pfn (dataEa : W32) (more : ¬ lenIn = 0) : ¬ pfn dataEa ≠ pfn (dataEa + xferAt dataEa lenIn - 1) := by
  have size := toNat_xferAt dataEa lenIn
  have some := pos_of_ne_zero more
  have top := dataEa.isLt
  have last : (dataEa + xferAt dataEa lenIn - 1).toNat = dataEa.toNat + (xferAt dataEa lenIn).toNat - 1 := by
    rw [BitVec.toNat_sub, BitVec.toNat_add]
    simp only [BitVec.ofNat_eq_ofNat, BitVec.toNat_ofNat]
    omega
  rw [not_not]
  apply BitVec.eq_of_toNat_eq
  rw [pfn, pfn, BitVec.toNat_ushiftRight, BitVec.toNat_ushiftRight, last, Nat.shiftRight_eq_div_pow,
    Nat.shiftRight_eq_div_pow]
  omega

/-- The errors that `rom_read` and `rom_write` answer with a count. -/
def Counted (err : Err) : Prop := err = .none ∨ err = .badAccess ∨ err = .notReady

theorem Counted.lenOut {err : Err} (counted : Counted err) (lenIn left : W32) :
    lenOut err lenIn left = lenIn - left := by
  rcases counted with rfl | rfl | rfl
  all_goals rfl

structure WriteRun (m : Machine) (device : Device) (dataEa lenIn : W32) (err : Err) (left : W32) (device' : Device)
    (os' : Os) (bytes : List W8) : Prop where
  counted : Counted err
  bound : left ≤ lenIn
  given : Given m.os device bytes os' device'
  length : bytes.length = lenIn.toNat - left.toNat
  seen : ∀ k (inside : k < bytes.length), guestByte m (dataEa + BitVec.ofNat 32 k) = some bytes[k]

theorem WriteRun.last {copied : Buf} {err : Err} (counted : Counted err) (silent : device ≠ .console)
    (seen : ∀ k < (xferAt dataEa lenIn).toNat, guestByte m (dataEa + BitVec.ofNat 32 k) = some (copied k)) :
    WriteRun m device dataEa lenIn err (lenIn - (device.write m.os copied (xferAt dataEa lenIn)).1)
      (device.write m.os copied (xferAt dataEa lenIn)).2.1 (device.write m.os copied (xferAt dataEa lenIn)).2.2
      ((List.range (device.took m.os copied (xferAt dataEa lenIn))).map copied) := by
  have size := toNat_xferAt dataEa lenIn
  obtain ⟨count, bound, _⟩ := Device.write_took m.os copied (xferAt dataEa lenIn) (by omega) silent
  have left : (device.write m.os copied (xferAt dataEa lenIn)).1 ≤ lenIn := BitVec.le_def.mpr (by omega)
  have rest := BitVec.toNat_sub_of_le left
  refine ⟨counted, BitVec.le_def.mpr (by omega), ?_, ?_, fun k inside => ?_⟩
  · rw [← List.append_nil (List.map ..)]
    exact .write copied (xferAt dataEa lenIn) .nil
  · rw [List.length_map, List.length_range]
    omega
  · rw [List.length_map, List.length_range] at inside
    rw [List.getElem_map, List.getElem_range]
    exact seen k (Nat.lt_of_lt_of_le inside bound)

theorem WriteRun.next {copied : Buf} {err : Err} {left : W32} {device' : Device} {os' : Os} {bytes : List W8}
    {v : Machine} (silent : device ≠ .console)
    (whole : (device.write m.os copied (xferAt dataEa lenIn)).1 = xferAt dataEa lenIn)
    (seen : ∀ k < (xferAt dataEa lenIn).toNat, guestByte m (dataEa + BitVec.ofNat 32 k) = some (copied k))
    (os : v.os = (device.write m.os copied (xferAt dataEa lenIn)).2.2) (view : guestByte v = guestByte m)
    (run : WriteRun v (device.write m.os copied (xferAt dataEa lenIn)).2.1 (dataEa + xferAt dataEa lenIn)
      (lenIn - (device.write m.os copied (xferAt dataEa lenIn)).1) err left device' os' bytes) :
    WriteRun m device dataEa lenIn err left device' os'
      ((List.range (xferAt dataEa lenIn).toNat).map copied ++ bytes) := by
  have size := toNat_xferAt dataEa lenIn
  obtain ⟨count, _, _⟩ := Device.write_took m.os copied (xferAt dataEa lenIn) (by omega) silent
  rw [whole] at count run
  have less : xferAt dataEa lenIn ≤ lenIn := BitVec.le_def.mpr (by omega)
  have rest := BitVec.toNat_sub_of_le less
  have bound := BitVec.le_def.mp run.bound
  have length := run.length
  refine ⟨run.counted, BitVec.le_def.mpr (by omega), ?_, ?_, fun k inside => ?_⟩
  · rw [count]
    have given := run.given
    rw [os] at given
    exact .write copied (xferAt dataEa lenIn) given
  · rw [List.length_append, List.length_map, List.length_range]
    omega
  · rcases Nat.lt_or_ge k (xferAt dataEa lenIn).toNat with first | later
    · rw [List.getElem_append_left (by simpa using first), List.getElem_map, List.getElem_range]
      exact seen k first
    · obtain ⟨j, rfl⟩ := Nat.exists_eq_add_of_le later
      rw [List.length_append, List.length_map, List.length_range] at inside
      have byte := run.seen j (by omega)
      rw [view, add_toNat] at byte
      rw [List.getElem_append_right (by simp), byte]
      simp

theorem romWriteLoop_run (wise : PageWise m) (silent : device ≠ .console) :
    (∃ message, romWriteLoop m device dataEa lenIn = .error message ∧ BatAbort m message) ∨
    ∃ err left device' os' xferBuf bytes, romWriteLoop m device dataEa lenIn =
        .ok (err, left, device', { m with os := os', rom := { m.rom with xferBuf } }) ∧
      WriteRun m device dataEa lenIn err left device' os' bytes := by
  induction n : lenIn.toNat using Nat.strong_induction_on generalizing m device dataEa lenIn with
  | _ n ih =>
  subst n
  by_cases done : lenIn = 0
  · right
    refine ⟨.none, lenIn, device, m.os, m.rom.xferBuf, [], by rw [romWriteLoop, dif_pos done]; rfl, ?_⟩
    exact ⟨.inl rfl, BitVec.le_refl _, .nil, by simp, by simp⟩
  · have size := toNat_xferAt dataEa lenIn
    have some := pos_of_ne_zero done
    have same := xferAt_pfn dataEa done
    have chunk := @PageWise.fetch m dataEa wise m.rom.xferBuf (xferAt dataEa lenIn) (by omega) (by omega)
    rcases chunk with ⟨copied, fetched, seen⟩ | ⟨_, ⟨copied, fetched⟩ | ⟨message, aborted, bat⟩⟩
    · by_cases partly : (device.write m.os copied (xferAt dataEa lenIn)).1 ≠ xferAt dataEa lenIn
      · right
        refine ⟨.notReady, _, _, _, copied, _, ?_, WriteRun.last (.inr (.inr rfl)) silent seen⟩
        rw [romWriteLoop, dif_neg done, fetched]
        simp only [ok_bind, ne_eq, not_true_eq_false, if_false, bugOn_false same, dif_pos partly, pure_ok]
      · have whole := not_not.mp partly
        obtain ⟨_, _, quiet⟩ := Device.write_took m.os copied (xferAt dataEa lenIn) (by omega) silent
        let v : Machine :=
          { m with os := (device.write m.os copied (xferAt dataEa lenIn)).2.2, rom := { m.rom with xferBuf := copied } }
        have looped : romWriteLoop m device dataEa lenIn =
            romWriteLoop v (device.write m.os copied (xferAt dataEa lenIn)).2.1 (dataEa + xferAt dataEa lenIn)
              (lenIn - (device.write m.os copied (xferAt dataEa lenIn)).1) := by
          rw [romWriteLoop, dif_neg done, fetched]
          simp only [ok_bind, ne_eq, not_true_eq_false, if_false, bugOn_false same, dif_neg partly, v]
        have wise' : PageWise v := ⟨wise.found, wise.missing⟩
        rw [looped]
        refine (ih _ (xferAt_decreases done partly) wise' quiet rfl).imp_right ?_
        rintro ⟨err, left, device', os', xferBuf, bytes, ended, run⟩
        exact ⟨err, left, device', os', xferBuf, _, ended, WriteRun.next (v := v) silent whole seen rfl rfl run⟩
    · right
      refine ⟨.badAccess, lenIn, device, m.os, copied, [], ?_, .inr (.inl rfl), BitVec.le_refl _, .nil, by simp,
        by simp⟩
      rw [romWriteLoop, dif_neg done, fetched]
      rfl
    · left
      refine ⟨message, ?_, bat⟩
      rw [romWriteLoop, dif_neg done, aborted]
      rfl

theorem consoleText_length (c : W8) : 1 ≤ (consoleText c).length ∧ (consoleText c).length ≤ 2 := by
  unfold consoleText
  split_ifs
  all_goals exact ⟨by simp, by simp⟩

theorem flatMap_consoleText (bytes : List W8) :
    bytes.length ≤ (bytes.flatMap consoleText).length ∧ (bytes.flatMap consoleText).length ≤ 2 * bytes.length := by
  induction bytes with
  | nil => exact ⟨Nat.le_refl _, Nat.le_refl _⟩
  | cons c bytes ih =>
    have text := consoleText_length c
    rw [List.flatMap_cons, List.length_append, List.length_cons]
    omega

theorem Given.console {os os' : Os} {device' : Device} {bytes : List W8} (given : Given os .console bytes os' device') :
    os'.consoleOut = os.consoleOut ++ bytes.flatMap consoleText := by
  generalize same : Device.console = device at given
  induction given with
  | nil => rw [List.flatMap_nil, List.append_nil]
  | write buf len rest ih =>
    subst same
    rw [ih rfl]
    simp only [Device.write, romConsoleWrite, Device.took, List.flatMap_append, List.append_assoc, List.flatMap_map]

/-- What the guest is told of a write: `out` bytes of its buffer, in order, are what the device got,
    and the console gets all of a buffer that is mapped. -/
def WriteAccounted (m v : Machine) (device device' : Device) (dataEa lenIn out : W32) : Prop :=
  out ≤ lenIn ∧
  (∃ bytes : List W8, bytes.length = out.toNat ∧ Given m.os device bytes v.os device' ∧
    ∀ k (inside : k < bytes.length), guestByte m (dataEa + BitVec.ofNat 32 k) = some bytes[k]) ∧
  (device = .console → (∀ k < lenIn.toNat, guestByte m (dataEa + BitVec.ofNat 32 k) ≠ none) → out = lenIn)

theorem WriteRun.accounted {err : Err} {left : W32} {device' : Device} {v : Machine} {bytes : List W8}
    (run : WriteRun m device dataEa lenIn err left device' v.os bytes) (silent : device ≠ .console) :
    WriteAccounted m v device device' dataEa lenIn (lenOut err lenIn left) := by
  have rest := BitVec.toNat_sub_of_le run.bound
  rw [run.counted.lenOut]
  refine ⟨BitVec.le_def.mpr (by omega), ⟨bytes, ?_, run.given, run.seen⟩, fun console => absurd console silent⟩
  rw [rest, run.length]

/-- The guest is told of a chunk for the console that 2^32 - 1 bytes were taken. -/
theorem console_not_accounted {v : Machine} (xferBuf : Buf) (dataEa lenIn : W32)
    (os : v.os = (romConsoleWrite m.os xferBuf (xferAt dataEa lenIn)).2) :
    ¬ WriteAccounted m v .console .console dataEa lenIn (lenOut .notReady lenIn (lenIn - (-1))) := by
  have size := toNat_xferAt dataEa lenIn
  rintro ⟨counted, ⟨bytes, length, given, _⟩, _⟩
  have out : lenOut .notReady lenIn (lenIn - (-1)) = -1 :=
    (Counted.lenOut (.inr (.inr rfl)) _ _).trans (by bv_omega)
  have chunk : v.os.consoleOut =
      m.os.consoleOut ++ ((List.range (xferAt dataEa lenIn).toNat).map xferBuf).flatMap consoleText := by
    simp only [os, romConsoleWrite, List.flatMap_map]
  have all := given.console
  rw [chunk, List.append_cancel_left_eq] at all
  have shown := congrArg List.length all
  have few := (flatMap_consoleText bytes).1
  have many := (flatMap_consoleText ((List.range (xferAt dataEa lenIn).toNat).map xferBuf)).2
  rw [List.length_map, List.length_range] at many
  rw [out] at length
  change bytes.length = 4294967295 at length
  omega

/-- A console write ends with its first chunk, which it answers with -1. -/
theorem console_write_iff (dataEa lenIn : W32) (wise : PageWise m) :
    (∃ message, romWriteLoop m .console dataEa lenIn = .error message ∧ BatAbort m message) ∨
    ∃ err left device' v, romWriteLoop m .console dataEa lenIn = .ok (err, left, device', v) ∧
      (WriteAccounted m v .console device' dataEa lenIn (lenOut err lenIn left) ↔
        lenIn = 0 ∨ guestByte m dataEa = none) := by
  by_cases done : lenIn = 0
  · right
    refine ⟨.none, lenIn, .console, m, by rw [romWriteLoop, dif_pos done]; rfl, ?_⟩
    have nothing : lenOut .none lenIn lenIn = 0 := BitVec.sub_self lenIn
    rw [nothing]
    exact iff_of_true ⟨BitVec.le_def.mpr (Nat.zero_le _), ⟨[], rfl, .nil, by simp⟩, fun _ _ => done.symm⟩ (.inl done)
  · have size := toNat_xferAt dataEa lenIn
    have some := pos_of_ne_zero done
    have same := xferAt_pfn dataEa done
    have chunk := @PageWise.fetch m dataEa wise m.rom.xferBuf (xferAt dataEa lenIn) (by omega) (by omega)
    rcases chunk with ⟨copied, fetched, seen⟩ | ⟨missing, ⟨copied, fetched⟩ | ⟨message, aborted, bat⟩⟩
    · right
      have partly : (-1 : W32) ≠ xferAt dataEa lenIn := by
        intro whole
        rw [← whole] at size
        simp only [BitVec.reduceNeg, BitVec.toNat_ofNat] at size
        omega
      let v : Machine :=
        { m with os := (romConsoleWrite m.os copied (xferAt dataEa lenIn)).2, rom := { m.rom with xferBuf := copied } }
      refine ⟨.notReady, lenIn - (-1), .console, v, ?_, ?_⟩
      · have answer : Device.console.write m.os copied (xferAt dataEa lenIn) = (-1, .console, v.os) := rfl
        rw [romWriteLoop, dif_neg done, fetched]
        simp only [answer, ok_bind, ne_eq, not_true_eq_false, if_false, bugOn_false same, dif_pos partly, pure_ok]
        rfl
      · have mapped : guestByte m dataEa ≠ none := by
          have first := seen 0 (by omega)
          rw [BitVec.add_zero] at first
          rw [first]
          simp
        exact iff_of_false (console_not_accounted copied dataEa lenIn rfl) (not_or.mpr ⟨done, mapped⟩)
    · right
      refine ⟨.badAccess, lenIn, .console, { m with rom := { m.rom with xferBuf := copied } }, ?_, ?_⟩
      · rw [romWriteLoop, dif_neg done, fetched]
        rfl
      · have nowhere : guestByte m dataEa = none := by
          rw [guestByte, guestReal_none missing]
          rfl
        have nothing : lenOut .badAccess lenIn lenIn = 0 := BitVec.sub_self lenIn
        rw [nothing]
        refine iff_of_true ⟨BitVec.le_def.mpr (Nat.zero_le _), ⟨[], rfl, .nil, by simp⟩, fun _ all => ?_⟩ (.inr nowhere)
        exact absurd (by rw [BitVec.add_zero]; exact nowhere) (all 0 some)
    · left
      refine ⟨message, ?_, bat⟩
      rw [romWriteLoop, dif_neg done, aborted]
      rfl

theorem romWriteLoop_frame {err : Err} {left : W32} {device' : Device} {v : Machine}
    (looped : romWriteLoop m device dataEa lenIn = .ok (err, left, device', v)) :
    ∃ os xferBuf, v = { m with os, rom := { m.rom with xferBuf } } := by
  induction n : lenIn.toNat using Nat.strong_induction_on generalizing m device dataEa lenIn with
  | _ n ih =>
  subst n
  rw [romWriteLoop] at looped
  split at looped
  · simp only [pure_ok, Except.ok.injEq, Prod.mk.injEq] at looped
    exact ⟨m.os, m.rom.xferBuf, looped.2.2.2.symm⟩
  · rename_i more
    simp only [bind_ok] at looped
    obtain ⟨⟨fetch, copied⟩, _, looped⟩ := looped
    split at looped
    · simp only [pure_ok, Except.ok.injEq, Prod.mk.injEq] at looped
      exact ⟨m.os, copied, looped.2.2.2.symm⟩
    · simp only [bind_ok] at looped
      obtain ⟨_, _, looped⟩ := looped
      split at looped
      · simp only [pure_ok, Except.ok.injEq, Prod.mk.injEq] at looped
        exact ⟨_, copied, looped.2.2.2.symm⟩
      · rename_i whole
        obtain ⟨os, xferBuf, rfl⟩ := ih _ (xferAt_decreases more whole) looped rfl
        exact ⟨os, xferBuf, rfl⟩

/-- `rom_write` ends, and its result cell accounts for what the device was given. -/
def WriteReports (m : Machine) (cia ciaIn ciaOut ihandle : W32) (device : Device) (dataEa lenIn : W32) : Prop :=
  ∃ ea out v device', ciaRet cia ciaIn ciaOut 0 = .ok ea ∧ romWrite m cia ciaIn ciaOut = .ok (.none, v) ∧
    (∀ old, guestFromX v old ea = .ok (.none, out)) ∧
    romMethodsByIhandle v.rom.knownIhandles ihandle = some device' ∧ WriteAccounted m v device device' dataEa lenIn out

/-- The result cell can be stored. -/
def ResultCell (m : Machine) (cia ciaIn ciaOut : W32) : Prop :=
  ∃ ea, ciaRet cia ciaIn ciaOut 0 = .ok ea ∧ Writable m ea

theorem write_reports_iff {cia ciaIn ciaOut ihandle left : W32} {err : Err} {device' : Device} {v : Machine}
    (args : TransferArgs m cia ciaIn ihandle dataEa lenIn)
    (found : romMethodsByIhandle m.rom.knownIhandles ihandle = some device)
    (looped : romWriteLoop m device dataEa lenIn = .ok (err, left, device', v)) :
    WriteReports m cia ciaIn ciaOut ihandle device dataEa lenIn ↔
      WriteAccounted m v device device' dataEa lenIn (lenOut err lenIn left) ∧ ResultCell m cia ciaIn ciaOut := by
  obtain ⟨os, xferBuf, rfl⟩ := romWriteLoop_frame looped
  let told : Machine :=
    { m with os, rom := { m.rom with knownIhandles := updateHandle ihandle device' m.rom.knownIhandles, xferBuf } }
  have wrote : ∀ ea, ciaRet cia ciaIn ciaOut 0 = .ok ea →
      romWrite m cia ciaIn ciaOut = storeResult told ea (lenOut err lenIn left) := by
    intro ea cell
    rw [romWrite_eq args found, looped, ok_bind, finishWrite, cell]
    rfl
  have kept : romMethodsByIhandle told.rom.knownIhandles ihandle = some device' := by
    change romMethodsByIhandle (updateHandle ihandle device' m.rom.knownIhandles) ihandle = _
    rw [methods_update, if_pos rfl, found]
    rfl
  constructor
  · rintro ⟨ea, out, u, after, cell, ended, holds, known, accounted⟩
    rw [wrote ea cell] at ended
    have there : Writable told ea := .of_result ended
    obtain ⟨host, stored, back⟩ := there.result (lenOut err lenIn left)
    obtain ⟨_, rfl⟩ := Prod.mk.inj (Except.ok.inj (ended.symm.trans stored))
    obtain ⟨_, rfl⟩ := Prod.mk.inj (Except.ok.inj ((holds 0).symm.trans (back 0)))
    obtain rfl := Option.some.inj (known.symm.trans kept)
    exact ⟨accounted, ea, cell, there.quiet m.os m.rom.knownIhandles m.rom.xferBuf⟩
  · rintro ⟨accounted, ea, cell, there⟩
    have still : Writable told ea := there.quiet _ _ _
    obtain ⟨host, stored, back⟩ := still.result (lenOut err lenIn left)
    exact ⟨ea, _, _, device', cell, (wrote ea cell).trans stored, back, kept, accounted⟩

/-- A result cell that does not lead to RAM is tried again without end. -/
theorem romWrite_stuck {cia ciaIn ciaOut ihandle left ea : W32} {err : Err} {device' : Device} {v : Machine}
    (args : TransferArgs m cia ciaIn ihandle dataEa lenIn)
    (found : romMethodsByIhandle m.rom.knownIhandles ihandle = some device)
    (looped : romWriteLoop m device dataEa lenIn = .ok (err, left, device', v))
    (cell : ciaRet cia ciaIn ciaOut 0 = .ok ea) (fits : ScalarFits m ea 4) (missing : ¬ Translatable m ea) :
    romWrite m cia ciaIn ciaOut = .error .stillRunning := by
  obtain ⟨os, xferBuf, rfl⟩ := romWriteLoop_frame looped
  rw [romWrite_eq args found, looped, ok_bind, finishWrite, cell]
  exact storeResult_stuck (fits.quiet m.host os (updateHandle ihandle device' m.rom.knownIhandles) xferBuf) missing _

/-- A write of a file or a disk is accounted for whenever its result cell can be stored, one of the
    console only where it never gets to the device. -/
theorem write_accounted_iff (ciaOut : W32) {env : InitEnv} {boot : BootEnv} {page : VmmPtr → VmmPage} {host : Host}
    {os : Os} {garbage : Buf} {little : Bool} {ramSize : W32} {s t : Machine} {history : List GuestEvent}
    (inited : guestInit env (Machine.start page host os garbage) little ramSize = .ok (.none, m))
    (booted : romInit boot m = .ok (.none, s)) (run : Run GuestStep s history t)
    {cia ciaIn ihandle : W32} (args : TransferArgs t cia ciaIn ihandle dataEa lenIn)
    (found : romMethodsByIhandle t.rom.knownIhandles ihandle = some device) :
    romWrite t cia ciaIn ciaOut =
      (romWriteLoop t device dataEa lenIn >>= finishWrite cia ciaIn ciaOut ihandle lenIn) ∧
    ((∃ message, romWriteLoop t device dataEa lenIn = .error message ∧ BatAbort t message) ∨
      (WriteReports t cia ciaIn ciaOut ihandle device dataEa lenIn ↔
        (device ≠ .console ∨ lenIn = 0 ∨ guestByte t dataEa = none) ∧ ResultCell t cia ciaIn ciaOut)) := by
  have wise := (FastPath.reachable inited booted run).pageWise
  refine ⟨romWrite_eq args found, ?_⟩
  by_cases console : device = .console
  · subst console
    refine (console_write_iff dataEa lenIn wise).imp_right ?_
    rintro ⟨err, left, device', v, ended, accounted⟩
    rw [write_reports_iff args found ended, accounted]
    exact and_congr_left' (by simp)
  · refine (romWriteLoop_run wise console).imp_right ?_
    rintro ⟨err, left, device', os', xferBuf, bytes, ended, run⟩
    rw [write_reports_iff args found ended]
    exact and_congr_left' (iff_of_true (run.accounted console) (.inl console))

theorem PlainBoot.transfer {s : Machine} (plain : PlainBoot m s) (device : Device) (dataEa len : W32) (os : Os) :
    ∃ t, PlainBoot.Reached s (fun i => if i = 3 then 1 else if i = 4 then dataEa else len) [⟨1, device⟩] os t ∧
      TransferArgs t 0 3 1 dataEa len ∧ romMethodsByIhandle t.rom.knownIhandles 1 = some device ∧
      ∀ message, ¬ BatAbort t message := by
  have reached := plain.reaches (fun i => if i = 3 then 1 else if i = 4 then dataEa else len) [⟨1, device⟩] os
  refine ⟨_, reached, ?_, ?_, ?_⟩
  · exact ⟨reached.word 3 (by decide), reached.word 4 (by decide), reached.word 5 (by decide)⟩
  · rw [reached.rom]
    rfl
  · rintro message ⟨_, magic, _⟩
    exact magic (by rw [reached.guest]; exact plain.sdr1)

theorem Writable.of_page (wise : PageWise m) {ea : W32} (aligned : ea.toNat % 4 = 0) (mapped : guestPage m ea ≠ none) :
    Writable m ea := by
  rcases wise.storeWord 0 aligned with ⟨host, stored, _⟩ | ⟨missing, _⟩
  · exact ⟨guestTo_fits (.inr (.inr rfl)) stored, (guestToX_none_iff stored).mp rfl⟩
  · exact absurd missing mapped

theorem file_write_accounted : ∃ t, romMethodsByIhandle t.rom.knownIhandles 1 = some (.file 3) ∧
    WriteReports t 0 3 1 1 (.file 3) 0x100 3 := by
  obtain ⟨m, s, plain⟩ := plain_boot
  obtain ⟨t, reached, args, found, total⟩ := plain.transfer (.file 3) 0x100 3 zeroMachine.os
  have wise := (FastPath.reachable plain.inited plain.booted reached.run).pageWise
  have mapped : guestPage t 24 ≠ none := by
    rw [reached.page 24 (by decide)]
    simp
  rcases (write_accounted_iff 1 plain.inited plain.booted reached.run args found).2 with ⟨message, _, bat⟩ | reports
  · exact absurd bat (total message)
  · refine ⟨t, found, reports.mpr ⟨.inl (by simp), 24, by decide, .of_page wise (by decide) mapped⟩⟩

/-- One byte for the console is shown, and answered with -1. -/
theorem console_write_not_accounted :
    ¬ ∀ (env : InitEnv) (boot : BootEnv) (page : VmmPtr → VmmPage) (host : Host) (os : Os) (garbage : Buf)
      (little : Bool) (ramSize : W32) (m s t : Machine) (history : List GuestEvent)
      (cia ciaIn ciaOut ihandle dataEa lenIn : W32) (device : Device),
      guestInit env (Machine.start page host os garbage) little ramSize = .ok (.none, m) →
      romInit boot m = .ok (.none, s) → Run GuestStep s history t → TransferArgs t cia ciaIn ihandle dataEa lenIn →
      romMethodsByIhandle t.rom.knownIhandles ihandle = some device → ResultCell t cia ciaIn ciaOut →
      (∀ message, ¬ BatAbort t message) → WriteReports t cia ciaIn ciaOut ihandle device dataEa lenIn := by
  intro always
  obtain ⟨m, s, plain⟩ := plain_boot
  obtain ⟨t, reached, args, found, total⟩ := plain.transfer .console 0x100 1 zeroMachine.os
  have wise := (FastPath.reachable plain.inited plain.booted reached.run).pageWise
  have mapped : guestPage t 24 ≠ none := by
    rw [reached.page 24 (by decide)]
    simp
  have cell : ResultCell t 0 3 1 := ⟨24, by decide, .of_page wise (by decide) mapped⟩
  rcases console_write_iff 0x100 1 wise with
    ⟨message, _, bat⟩ | ⟨err, left, device', v, ended, iff⟩
  · exact absurd bat (total message)
  · have reports := always _ _ _ _ _ _ _ _ m s t _ 0 3 1 1 0x100 1 .console plain.inited plain.booted reached.run
      args found cell total
    rcases iff.mp ((write_reports_iff args found ended).mp reports).1 with nothing | missing
    · exact absurd nothing (by decide)
    · rw [guestByte, guestReal, reached.page 0x100 (by decide)] at missing
      cases missing

end ToyHv

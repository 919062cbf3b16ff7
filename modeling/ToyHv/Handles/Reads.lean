import ToyHv.Handles.Writes

namespace ToyHv
open Library

def Device.next (os : Os) : Device → ℕ → W8
  | .console, k => os.consoleIn.bytes (os.consoleIn.position + k)
  | .file fd, k => (os.files fd).bytes ((os.files fd).position + k)
  | .disk fd part currentOff, k => (os.files fd).bytes (part.off + currentOff + BitVec.ofNat 32 k).toNat

/-- The device's cursor moved on by `n` bytes, and its bytes stayed. -/
def Device.Advanced (os os' : Os) (n : ℕ) : Device → Device → Prop
  | .console, device' =>
    device' = .console ∧ os'.consoleIn = { os.consoleIn with position := os.consoleIn.position + n }
  | .file fd, device' => device' = .file fd ∧ os'.files fd = { os.files fd with position := (os.files fd).position + n }
  | .disk fd part currentOff, device' =>
    device' = .disk fd part (currentOff + BitVec.ofNat 32 n) ∧ (os'.files fd).bytes = (os.files fd).bytes

def Device.supply (os : Os) (device : Device) (dataEa lenIn : W32) : ℕ :=
  if done : lenIn = 0 then 0
  else
    let (xferred, _, device, os) := device.read os (fun _ => 0) (xferAt dataEa lenIn)
    if partly : xferred ≠ xferAt dataEa lenIn then xferred.toNat
    else xferred.toNat + device.supply os (dataEa + xferAt dataEa lenIn) (lenIn - xferred)
termination_by lenIn.toNat
decreasing_by exact xferAt_decreases done partly

variable {os os' os₁ os₂ : Os} {device device' d₁ d₂ : Device}

theorem Device.Advanced.refl (os : Os) (device : Device) : Device.Advanced os os 0 device device := by
  cases device with
  | console => exact ⟨rfl, rfl⟩
  | file fd => exact ⟨rfl, rfl⟩
  | disk fd part currentOff => exact ⟨by simp, rfl⟩

theorem Device.Advanced.trans {a b : ℕ} (first : Device.Advanced os os₁ a device d₁)
    (second : Device.Advanced os₁ os₂ b d₁ d₂) : Device.Advanced os os₂ (a + b) device d₂ := by
  cases device with
  | console =>
    obtain ⟨rfl, input⟩ := first
    obtain ⟨rfl, input'⟩ := second
    exact ⟨rfl, by rw [input', input, Nat.add_assoc]⟩
  | file fd =>
    obtain ⟨rfl, file⟩ := first
    obtain ⟨rfl, file'⟩ := second
    exact ⟨rfl, by rw [file', file, Nat.add_assoc]⟩
  | disk fd part currentOff =>
    obtain ⟨rfl, bytes⟩ := first
    obtain ⟨rfl, bytes'⟩ := second
    exact ⟨by rw [BitVec.add_assoc, ← BitVec.ofNat_add], bytes'.trans bytes⟩

theorem Device.Advanced.lost {a lost : ℕ} (first : Device.Advanced os os' a device device')
    (second : Device.Advanced os os' (a + lost) device device') (small : lost ≤ 4096) : lost = 0 := by
  cases device with
  | console =>
    have same := congrArg OpenFile.position (first.2.symm.trans second.2)
    simp only at same
    omega
  | file fd =>
    have same := congrArg OpenFile.position (first.2.symm.trans second.2)
    simp only at same
    omega
  | disk fd part currentOff =>
    have same := (Device.disk.inj (first.1.symm.trans second.1)).2.2
    rw [BitVec.ofNat_add, ← BitVec.add_assoc, left_eq_add] at same
    have zero := congrArg BitVec.toNat same
    rw [BitVec.toNat_ofNat, Nat.mod_eq_of_lt (by omega)] at zero
    exact zero

theorem Device.Advanced.next {n : ℕ} (advanced : Device.Advanced os os' n device device') (k : ℕ) :
    device'.next os' k = device.next os (n + k) := by
  cases device with
  | console =>
    obtain ⟨rfl, input⟩ := advanced
    simp only [Device.next, input, Nat.add_assoc]
  | file fd =>
    obtain ⟨rfl, file⟩ := advanced
    simp only [Device.next, file, Nat.add_assoc]
  | disk fd part currentOff =>
    obtain ⟨rfl, bytes⟩ := advanced
    simp only [Device.next, bytes, BitVec.add_assoc, BitVec.ofNat_add]

theorem sysRead_next (os : Os) (fd : ℕ) (buf : Buf) {len : W32} (small : len.toNat < 2^31) :
    (countOf (sysRead os fd buf len).1).toNat ≤ len.toNat ∧
    (sysRead os fd buf len).2.2.files fd =
      { os.files fd with position := (os.files fd).position + (countOf (sysRead os fd buf len).1).toNat } ∧
    ∀ k < (countOf (sysRead os fd buf len).1).toNat,
      (sysRead os fd buf len).2.1 k = (os.files fd).bytes ((os.files fd).position + k) := by
  by_cases failed : os.results os.calls < 0
  · simp only [sysRead, if_pos failed]
    exact ⟨Nat.zero_le _, rfl, fun k none => absurd none (Nat.not_lt_zero k)⟩
  · have bound := Nat.min_le_right (os.results os.calls).toNat len.toNat
    have exact := moved_exact (n := min (os.results os.calls).toNat len.toNat) (by omega)
    simp only [sysRead, if_neg failed, exact, Function.update_self]
    refine ⟨bound, trivial, fun k inside => ?_⟩
    have within : 0 ≤ k ∧ k < 0 + min (os.results os.calls).toNat len.toNat := by omega
    simp only [Buf.put, if_pos within, Nat.sub_zero]

/-- What a device's read delivers comes next, and moves the cursor past it. -/
theorem Device.read_next (os : Os) (buf : Buf) (len : W32) (small : len.toNat < 2^31) (device : Device) :
    (device.read os buf len).1.toNat ≤ len.toNat ∧
    Device.Advanced os (device.read os buf len).2.2.2 (device.read os buf len).1.toNat device
      (device.read os buf len).2.2.1 ∧
    ∀ k < (device.read os buf len).1.toNat, (device.read os buf len).2.1 k = device.next os k := by
  cases device with
  | console =>
    by_cases failed : os.results os.calls < 0
    · simp only [Device.read, termIn, if_pos failed]
      exact ⟨Nat.zero_le _, ⟨rfl, rfl⟩, fun k none => absurd none (Nat.not_lt_zero k)⟩
    · have bound := Nat.min_le_right (os.results os.calls).toNat len.toNat
      have count : (BitVec.ofNat 32 (min (os.results os.calls).toNat len.toNat)).toNat =
          min (os.results os.calls).toNat len.toNat := by
        rw [BitVec.toNat_ofNat]
        omega
      simp only [Device.read, termIn, if_neg failed, count]
      refine ⟨bound, ⟨rfl, rfl⟩, fun k inside => ?_⟩
      have within : 0 ≤ k ∧ k < 0 + min (os.results os.calls).toNat len.toNat := by omega
      simp only [Buf.put, if_pos within, Nat.sub_zero, Device.next]
  | file fd =>
    obtain ⟨bound, file, bytes⟩ := sysRead_next os fd buf small
    exact ⟨bound, ⟨rfl, file⟩, bytes⟩
  | disk fd part currentOff =>
    rcases seek : diskSeek os fd (part.off + currentOff) with ⟨err, os₁⟩
    have kept := diskSeek_bytes os fd (part.off + currentOff)
    rw [seek] at kept
    by_cases sought : err = .none
    · subst sought
      have less : (minOf len (part.length - currentOff)).toNat ≤ len.toNat := by
        rw [toNat_minOf]
        exact Nat.min_le_left _ _
      obtain ⟨low, position⟩ := diskSeek_ok (by rw [seek])
      rw [seek] at position
      obtain ⟨bound, file, bytes⟩ := sysRead_next os₁ fd buf (Nat.lt_of_le_of_lt less small)
      simp only [Device.read, romDiskRead, seek, diskIn, ne_eq, not_true_eq_false, if_false]
      refine ⟨bound.trans less, ⟨?_, ?_⟩, fun k inside => ?_⟩
      · rw [BitVec.ofNat_toNat, BitVec.setWidth_eq]
      · rw [file]
        exact kept
      · rw [bytes k inside, position, kept]
        have exact : (part.off + currentOff + BitVec.ofNat 32 k).toNat = (part.off + currentOff).toNat + k := by
          rw [BitVec.toNat_add, BitVec.toNat_ofNat]
          omega
        rw [Device.next, exact]
    · simp only [Device.read, romDiskRead, seek, if_pos sought]
      exact ⟨Nat.zero_le _, ⟨by simp, kept⟩, fun k none => absurd none (Nat.not_lt_zero k)⟩

theorem Device.read_buf (os : Os) (buf buf' : Buf) (len : W32) (device : Device) :
    (device.read os buf len).1 = (device.read os buf' len).1 ∧
    (device.read os buf len).2.2 = (device.read os buf' len).2.2 := by
  cases device with
  | console =>
    simp only [Device.read, termIn]
    split
    all_goals exact ⟨rfl, rfl⟩
  | file fd =>
    simp only [Device.read, romFileRead, sysRead]
    split
    all_goals exact ⟨rfl, rfl⟩
  | disk fd part currentOff =>
    simp only [Device.read, romDiskRead, diskIn, sysRead]
    split
    · exact ⟨rfl, rfl⟩
    · split
      all_goals exact ⟨rfl, rfl⟩

variable {m v : Machine} {dataEa lenIn left : W32} {err : Err} {lost : ℕ}

/-- Every byte the device has for the read has a place to go to. -/
def Room (m : Machine) (device : Device) (dataEa lenIn : W32) : Prop :=
  ∀ k < device.supply m.os dataEa lenIn, guestReal m (dataEa + BitVec.ofNat 32 k) ≠ none

structure ReadRun (m : Machine) (device : Device) (dataEa lenIn : W32) (err : Err) (left : W32) (device' : Device)
    (v : Machine) (lost : ℕ) : Prop where
  counted : Counted err
  bound : left ≤ lenIn
  same : SameGuest m v
  advanced : Device.Advanced m.os v.os (lenIn.toNat - left.toNat + lost) device device'
  stored : Stored m v dataEa (lenIn.toNat - left.toNat) (device.next m.os)
  small : lost ≤ 4096
  lost_iff : lost = 0 ↔ Room m device dataEa lenIn

theorem ReadRun.nothing (counted : Counted err) (same : SameGuest m v) (memory : guestMemory v = guestMemory m)
    (advanced : Device.Advanced m.os v.os lost device device') (small : lost ≤ 4096)
    (lost_iff : lost = 0 ↔ Room m device dataEa lenIn) : ReadRun m device dataEa lenIn err lenIn device' v lost := by
  refine ⟨counted, BitVec.le_refl _, same, ?_, ?_, small, lost_iff⟩
  · rw [Nat.sub_self, Nat.zero_add]
    exact advanced
  · rw [Nat.sub_self]
    exact .nothing memory _

theorem Device.supply_eq (os : Os) (device : Device) (dataEa : W32) (more : ¬ lenIn = 0) (buf : Buf) :
    device.supply os dataEa lenIn =
      if (device.read os buf (xferAt dataEa lenIn)).1 ≠ xferAt dataEa lenIn then
        (device.read os buf (xferAt dataEa lenIn)).1.toNat
      else
        (device.read os buf (xferAt dataEa lenIn)).1.toNat +
          (device.read os buf (xferAt dataEa lenIn)).2.2.1.supply (device.read os buf (xferAt dataEa lenIn)).2.2.2
            (dataEa + xferAt dataEa lenIn) (lenIn - (device.read os buf (xferAt dataEa lenIn)).1) := by
  obtain ⟨count, after⟩ := device.read_buf os buf (fun _ => 0) (xferAt dataEa lenIn)
  rw [count, after, supply, dif_neg more]
  simp only [dite_eq_ite]

theorem ReadRun.last {buf : Buf} (more : ¬ lenIn = 0) (counted : Counted err)
    (partly : (device.read m.os buf (xferAt dataEa lenIn)).1 ≠ xferAt dataEa lenIn)
    (os : v.os = (device.read m.os buf (xferAt dataEa lenIn)).2.2.2) (same : SameGuest m v)
    (stored : Stored m v dataEa (device.read m.os buf (xferAt dataEa lenIn)).1.toNat
      (device.read m.os buf (xferAt dataEa lenIn)).2.1) :
    ReadRun m device dataEa lenIn err (lenIn - (device.read m.os buf (xferAt dataEa lenIn)).1)
      (device.read m.os buf (xferAt dataEa lenIn)).2.2.1 v 0 := by
  have size := toNat_xferAt dataEa lenIn
  obtain ⟨bound, advanced, next⟩ := device.read_next m.os buf (xferAt dataEa lenIn) (by omega)
  have less : (device.read m.os buf (xferAt dataEa lenIn)).1 ≤ lenIn := BitVec.le_def.mpr (by omega)
  have rest := BitVec.toNat_sub_of_le less
  have count : lenIn.toNat - (lenIn - (device.read m.os buf (xferAt dataEa lenIn)).1).toNat =
      (device.read m.os buf (xferAt dataEa lenIn)).1.toNat := by
    rw [rest]
    have inside := BitVec.le_def.mp less
    omega
  refine ⟨counted, BitVec.le_def.mpr (by omega), same, ?_, ?_, Nat.zero_le _, iff_of_true rfl ?_⟩
  · rw [count, os]
    exact advanced
  · rw [count]
    exact ⟨stored.mapped, fun k inside last => (next k inside) ▸ stored.arrived k inside last, stored.others⟩
  · intro k inside
    rw [device.supply_eq m.os dataEa more buf, if_pos partly] at inside
    exact stored.mapped k inside

theorem ReadRun.next {buf : Buf} {w : Machine} (more : ¬ lenIn = 0)
    (whole : (device.read m.os buf (xferAt dataEa lenIn)).1 = xferAt dataEa lenIn)
    (os : w.os = (device.read m.os buf (xferAt dataEa lenIn)).2.2.2) (same : SameGuest m w)
    (stored : Stored m w dataEa (xferAt dataEa lenIn).toNat (device.read m.os buf (xferAt dataEa lenIn)).2.1)
    (run : ReadRun w (device.read m.os buf (xferAt dataEa lenIn)).2.2.1 (dataEa + xferAt dataEa lenIn)
      (lenIn - xferAt dataEa lenIn) err left device' v lost) :
    ReadRun m device dataEa lenIn err left device' v lost := by
  have size := toNat_xferAt dataEa lenIn
  obtain ⟨_, advanced, next⟩ := device.read_next m.os buf (xferAt dataEa lenIn) (by omega)
  rw [whole] at advanced next
  have less : xferAt dataEa lenIn ≤ lenIn := BitVec.le_def.mpr (by omega)
  have rest := BitVec.toNat_sub_of_le less
  have bound := BitVec.le_def.mp run.bound
  have count : lenIn.toNat - left.toNat =
      (xferAt dataEa lenIn).toNat + ((lenIn - xferAt dataEa lenIn).toNat - left.toNat) := by omega
  have here : dataEa + BitVec.ofNat 32 (xferAt dataEa lenIn).toNat = dataEa + xferAt dataEa lenIn := by
    rw [BitVec.ofNat_toNat, BitVec.setWidth_eq]
  refine ⟨run.counted, BitVec.le_def.mpr (by omega), same.trans run.same, ?_, ?_, run.small, run.lost_iff.trans ?_⟩
  · rw [count, Nat.add_assoc]
    have later := run.advanced
    rw [os] at later
    exact advanced.trans later
  · rw [count]
    have delivered : Stored m w dataEa (xferAt dataEa lenIn).toNat (device.next m.os) :=
      ⟨stored.mapped, fun k inside last => (next k inside) ▸ stored.arrived k inside last, stored.others⟩
    apply delivered.append same _ run.same
    rw [here]
    have later := run.stored
    rw [os] at later
    have following := funext advanced.next
    rw [following] at later
    exact later
  · have supply := device.supply_eq m.os dataEa more buf
    rw [if_neg (not_not.mpr whole), whole, ← os] at supply
    simp only [Room, supply, same.real]
    constructor
    · intro later k inside
      rcases Nat.lt_or_ge k (xferAt dataEa lenIn).toNat with early | late
      · exact stored.mapped k early
      · obtain ⟨j, rfl⟩ := Nat.exists_eq_add_of_le late
        rw [← add_toNat]
        exact later j (by omega)
    · intro all j inside
      rw [add_toNat]
      exact all _ (by omega)

abbrev readChunk (m : Machine) (device : Device) (dataEa lenIn : W32) : W32 × Buf × Device × Os :=
  device.read m.os m.rom.xferBuf (xferAt dataEa lenIn)

def afterChunk (m : Machine) (device : Device) (dataEa lenIn : W32) : Machine :=
  { m with
    os := (readChunk m device dataEa lenIn).2.2.2
    rom := { m.rom with xferBuf := (readChunk m device dataEa lenIn).2.1 } }

theorem afterChunk_same : SameGuest m (afterChunk m device dataEa lenIn) := ⟨rfl, rfl, rfl, rfl⟩

theorem romReadLoop_turn (more : ¬ lenIn = 0) :
    romReadLoop m device dataEa lenIn =
      (guestTo (afterChunk m device dataEa lenIn) dataEa (readChunk m device dataEa lenIn).2.1
        (readChunk m device dataEa lenIn).1 1 >>= fun stored =>
      if stored.1 ≠ .none then .ok (stored.1, lenIn, (readChunk m device dataEa lenIn).2.2.1, stored.2)
      else if (readChunk m device dataEa lenIn).1 ≠ xferAt dataEa lenIn then
        .ok (.notReady, lenIn - (readChunk m device dataEa lenIn).1, (readChunk m device dataEa lenIn).2.2.1, stored.2)
      else romReadLoop stored.2 (readChunk m device dataEa lenIn).2.2.1 (dataEa + xferAt dataEa lenIn)
        (lenIn - (readChunk m device dataEa lenIn).1)) := by
  rw [romReadLoop, dif_neg more, bugOn_false (xferAt_pfn dataEa more)]
  simp only [ok_bind, dite_eq_ite]
  rfl

theorem xferAt_ne_zero (more : ¬ lenIn = 0) : (0 : W32) ≠ xferAt dataEa lenIn := by
  have size := toNat_xferAt dataEa lenIn
  have some := pos_of_ne_zero more
  intro zero
  rw [← zero] at size
  simp only [BitVec.ofNat_eq_ofNat, BitVec.toNat_ofNat] at size
  omega

theorem ReadRun.lose (more : ¬ lenIn = 0) (missing : guestPage m dataEa = none)
    (some : 0 < (readChunk m device dataEa lenIn).1.toNat) :
    ReadRun m device dataEa lenIn .badAccess lenIn (readChunk m device dataEa lenIn).2.2.1
      (afterChunk m device dataEa lenIn) (readChunk m device dataEa lenIn).1.toNat := by
  have size := toNat_xferAt dataEa lenIn
  obtain ⟨bound, advanced, _⟩ := device.read_next m.os m.rom.xferBuf (xferAt dataEa lenIn) (by omega)
  apply ReadRun.nothing (.inr (.inl rfl)) afterChunk_same rfl advanced (bound.trans (by omega))
  apply iff_of_false some.ne'
  intro room
  have supplied : 0 < device.supply m.os dataEa lenIn := by
    rw [device.supply_eq m.os dataEa more m.rom.xferBuf]
    split
    · exact some
    · exact Nat.add_pos_left some _
  have first := room 0 supplied
  rw [BitVec.add_zero] at first
  exact first (guestReal_none missing)

theorem romReadLoop_run (wise : PageWise m) :
    (∃ message, romReadLoop m device dataEa lenIn = .error message ∧ BatAbort m message) ∨
    ∃ err left device' v lost, romReadLoop m device dataEa lenIn = .ok (err, left, device', v) ∧
      ReadRun m device dataEa lenIn err left device' v lost := by
  induction n : lenIn.toNat using Nat.strong_induction_on generalizing m device dataEa lenIn with
  | _ n ih =>
  subst n
  by_cases done : lenIn = 0
  · right
    refine ⟨.none, lenIn, device, m, 0, by rw [romReadLoop, dif_pos done]; rfl, ?_⟩
    refine .nothing (.inl rfl) (.refl m) rfl (.refl _ _) (Nat.zero_le _) (iff_of_true rfl ?_)
    intro k inside
    rw [Device.supply, dif_pos done] at inside
    exact absurd inside (Nat.not_lt_zero k)
  · have size := toNat_xferAt dataEa lenIn
    have kept : SameGuest m (afterChunk m device dataEa lenIn) := afterChunk_same
    obtain ⟨bound, _, _⟩ := device.read_next m.os m.rom.xferBuf (xferAt dataEa lenIn) (by omega)
    have within : (readChunk m device dataEa lenIn).1.toNat ≤ 4096 - dataEa.toNat % 4096 := bound.trans (by omega)
    rw [romReadLoop_turn done]
    rcases (kept.pageWise wise).store (readChunk m device dataEa lenIn).2.1 within with
      ⟨host', stored, arrived, _⟩ | ⟨missing, stored | ⟨message, aborted, bat⟩⟩
    · have there : SameGuest m { afterChunk m device dataEa lenIn with host := host' } := ⟨rfl, rfl, rfl, rfl⟩
      have arrived := arrived.of_same kept rfl
      rw [stored]
      simp only [ok_bind, ne_eq, not_true_eq_false, if_false]
      by_cases whole : (readChunk m device dataEa lenIn).1 = xferAt dataEa lenIn
      · rw [if_neg (not_not.mpr whole), whole]
        have shorter : (lenIn - xferAt dataEa lenIn).toNat < lenIn.toNat := xferAt_decreases done (not_not.mpr rfl)
        have rest := @ih _ shorter (readChunk m device dataEa lenIn).2.2.1 _ (dataEa + xferAt dataEa lenIn)
          (lenIn - xferAt dataEa lenIn) (there.pageWise wise) rfl
        refine rest.imp ?_ ?_
        · rintro ⟨message, aborted, bat⟩
          exact ⟨message, aborted, there.bat bat⟩
        · rintro ⟨err, left, device', v, lost, ended, run⟩
          rw [whole] at arrived
          exact ⟨err, left, device', v, lost, ended, ReadRun.next done whole rfl there arrived run⟩
      · right
        rw [if_pos whole]
        exact ⟨_, _, _, _, 0, rfl, ReadRun.last done (.inr (.inr rfl)) whole rfl there arrived⟩
    · right
      rw [kept.page] at missing
      rw [stored]
      by_cases nothing : (readChunk m device dataEa lenIn).1 = 0
      · have short : (readChunk m device dataEa lenIn).1 ≠ xferAt dataEa lenIn := nothing ▸ xferAt_ne_zero done
        have memory : guestMemory (afterChunk m device dataEa lenIn) = guestMemory m := rfl
        have empty : Stored m (afterChunk m device dataEa lenIn) dataEa (readChunk m device dataEa lenIn).1.toNat
            (readChunk m device dataEa lenIn).2.1 := by
          rw [nothing]
          exact .nothing memory _
        have last := ReadRun.last done (.inr (.inr rfl)) short rfl kept empty
        simp only [if_pos nothing, ok_bind, ne_eq, not_true_eq_false, if_false, if_pos short]
        exact ⟨_, _, _, _, 0, rfl, last⟩
      · simp only [if_neg nothing, ok_bind, ne_eq, reduceCtorEq, not_false_eq_true, if_true]
        exact ⟨_, _, _, _, _, rfl, ReadRun.lose done missing (pos_of_ne_zero nothing)⟩
    · left
      rw [aborted]
      exact ⟨message, rfl, kept.bat bat⟩

/-- What the guest is told of a read: the device's cursor moved on by `out` bytes, and these are the
    ones that were stored, with the rest of memory left alone. -/
def ReadDelivers (m v : Machine) (device device' : Device) (dataEa lenIn out : W32) : Prop :=
  out ≤ lenIn ∧ Device.Advanced m.os v.os out.toNat device device' ∧
    Stored m v dataEa out.toNat (device.next m.os)

theorem ReadRun.delivers_iff (run : ReadRun m device dataEa lenIn err left device' v lost) :
    ReadDelivers m v device device' dataEa lenIn (lenOut err lenIn left) ↔ Room m device dataEa lenIn := by
  have out := BitVec.toNat_sub_of_le run.bound
  rw [run.counted.lenOut, ← run.lost_iff]
  constructor
  · rintro ⟨_, advanced, _⟩
    rw [out] at advanced
    exact advanced.lost run.advanced run.small
  · rintro rfl
    refine ⟨BitVec.le_def.mpr (by omega), ?_, ?_⟩
    · rw [out]
      exact run.advanced
    · rw [out]
      exact run.stored

theorem romReadLoop_frame {err : Err} {left : W32} {device' : Device} {v : Machine}
    (looped : romReadLoop m device dataEa lenIn = .ok (err, left, device', v)) :
    ∃ host os xferBuf, v = { m with host, os, rom := { m.rom with xferBuf } } := by
  induction n : lenIn.toNat using Nat.strong_induction_on generalizing m device dataEa lenIn with
  | _ n ih =>
  subst n
  rw [romReadLoop] at looped
  split at looped
  · simp only [pure_ok, Except.ok.injEq, Prod.mk.injEq] at looped
    exact ⟨m.host, m.os, m.rom.xferBuf, looped.2.2.2.symm⟩
  · rename_i more
    simp only [bind_ok] at looped
    obtain ⟨_, _, ⟨store, u⟩, stored, looped⟩ := looped
    obtain ⟨host, rfl⟩ := guestTo_frame stored
    split at looped
    · simp only [pure_ok, Except.ok.injEq, Prod.mk.injEq] at looped
      exact ⟨host, _, _, looped.2.2.2.symm⟩
    · split at looped
      · simp only [pure_ok, Except.ok.injEq, Prod.mk.injEq] at looped
        exact ⟨host, _, _, looped.2.2.2.symm⟩
      · rename_i whole
        obtain ⟨host, os, xferBuf, rfl⟩ := ih _ (xferAt_decreases more whole) looped rfl
        exact ⟨host, os, xferBuf, rfl⟩

/-- A read delivers what it takes from the device exactly when there is room for all the device has. -/
theorem read_delivers_iff (ciaOut : W32) {env : InitEnv} {boot : BootEnv} {page : VmmPtr → VmmPage} {host : Host}
    {os : Os} {garbage : Buf} {little : Bool} {ramSize : W32} {s t : Machine} {history : List GuestEvent}
    (inited : guestInit env (Machine.start page host os garbage) little ramSize = .ok (.none, m))
    (booted : romInit boot m = .ok (.none, s)) (run : Run GuestStep s history t)
    {cia ciaIn ihandle : W32} (args : TransferArgs t cia ciaIn ihandle dataEa lenIn)
    (found : romMethodsByIhandle t.rom.knownIhandles ihandle = some device) :
    romRead t cia ciaIn ciaOut =
      (romReadLoop t device dataEa lenIn >>= finishTransfer cia ciaIn ciaOut ihandle lenIn) ∧
    ((∃ message, romReadLoop t device dataEa lenIn = .error message ∧ BatAbort t message) ∨
      ∃ err left device' v, romReadLoop t device dataEa lenIn = .ok (err, left, device', v) ∧
        (ReadDelivers t v device device' dataEa lenIn (lenOut err lenIn left) ↔ Room t device dataEa lenIn)) := by
  have wise := (FastPath.reachable inited booted run).pageWise
  refine ⟨romTransfer_eq args found, (romReadLoop_run wise).imp_right ?_⟩
  rintro ⟨err, left, device', v, lost, ended, run⟩
  exact ⟨err, left, device', v, ended, run.delivers_iff⟩

/-- Where `rom_write` would not end, `rom_read` gives the error up. -/
theorem romRead_refused {cia ciaIn ciaOut ihandle left ea : W32} {err : Err} {device' : Device} {v : Machine}
    (args : TransferArgs m cia ciaIn ihandle dataEa lenIn)
    (found : romMethodsByIhandle m.rom.knownIhandles ihandle = some device)
    (looped : romReadLoop m device dataEa lenIn = .ok (err, left, device', v))
    (cell : ciaRet cia ciaIn ciaOut 0 = .ok ea) (fits : ScalarFits m ea 4) (missing : ¬ Translatable m ea) :
    ∃ u, romRead m cia ciaIn ciaOut = .ok (.badAccess, u) := by
  obtain ⟨host, os, xferBuf, rfl⟩ := romReadLoop_frame looped
  have eq : romRead m cia ciaIn ciaOut = (romReadLoop m device dataEa lenIn >>= _) := romTransfer_eq args found
  have still := fits.quiet host os (updateHandle ihandle device' m.rom.knownIhandles) xferBuf
  rw [eq, looped, ok_bind]
  simp only [cell, ok_bind]
  exact ⟨_, guestToX_missing still missing _⟩

theorem Device.supply_le (os : Os) (device : Device) (dataEa lenIn : W32) :
    device.supply os dataEa lenIn ≤ lenIn.toNat := by
  induction n : lenIn.toNat using Nat.strong_induction_on generalizing os device dataEa lenIn with
  | _ n ih =>
  subst n
  by_cases done : lenIn = 0
  · rw [supply, dif_pos done]
    exact Nat.zero_le _
  · have size := toNat_xferAt dataEa lenIn
    obtain ⟨bound, _⟩ := device.read_next os (fun _ => 0) (xferAt dataEa lenIn) (by omega)
    rw [device.supply_eq os dataEa done (fun _ => 0)]
    split
    · omega
    · rename_i whole
      have less : (device.read os (fun _ => 0) (xferAt dataEa lenIn)).1 ≤ lenIn := BitVec.le_def.mpr (by omega)
      have inside := BitVec.le_def.mp less
      have rest := BitVec.toNat_sub_of_le less
      have later := ih _ (xferAt_decreases done whole) (device.read os (fun _ => 0) (xferAt dataEa lenIn)).2.2.2
        (device.read os (fun _ => 0) (xferAt dataEa lenIn)).2.2.1 (dataEa + xferAt dataEa lenIn) _ rfl
      omega

theorem file_read_delivers : ∃ t v device' out, romMethodsByIhandle t.rom.knownIhandles 1 = some (.file 3) ∧
    ReadDelivers t v (.file 3) device' 0x100 3 out := by
  obtain ⟨m, s, plain⟩ := plain_boot
  obtain ⟨t, reached, args, found, total⟩ :=
    plain.transfer (.file 3) 0x100 3 { zeroMachine.os with results := fun _ => 0x1000 }
  have delivers := (read_delivers_iff 1 plain.inited plain.booted reached.run args found).2
  rcases delivers with ⟨message, _, bat⟩ | ⟨err, left, device', v, _, delivers⟩
  · exact absurd bat (total message)
  · refine ⟨t, v, device', _, found, delivers.mpr fun k inside => ?_⟩
    have supply : _ ≤ 3 := Device.supply_le t.os (.file 3) 0x100 3
    have address : ((0x100 : W32) + BitVec.ofNat 32 k).toNat < 0x2000000 := by
      rw [BitVec.toNat_add, BitVec.toNat_ofNat]
      change (0x100 + k % 2^32) % 2^32 < _
      omega
    rw [guestReal, reached.page _ address]
    simp

/-- A byte of a file, to where nothing is mapped, is lost. -/
theorem file_read_loses :
    ¬ ∀ (env : InitEnv) (boot : BootEnv) (page : VmmPtr → VmmPage) (host : Host) (os : Os) (garbage : Buf)
      (little : Bool) (ramSize : W32) (m s t : Machine) (history : List GuestEvent)
      (cia ciaIn ihandle dataEa lenIn : W32) (device : Device),
      guestInit env (Machine.start page host os garbage) little ramSize = .ok (.none, m) →
      romInit boot m = .ok (.none, s) → Run GuestStep s history t → TransferArgs t cia ciaIn ihandle dataEa lenIn →
      romMethodsByIhandle t.rom.knownIhandles ihandle = some device → device ≠ .console →
      ∀ err left device' v, romReadLoop t device dataEa lenIn = .ok (err, left, device', v) →
        ReadDelivers t v device device' dataEa lenIn (lenOut err lenIn left) := by
  intro always
  obtain ⟨m, s, plain⟩ := plain_boot
  obtain ⟨t, reached, args, found, total⟩ :=
    plain.transfer (.file 3) 0xf0000000 1 { zeroMachine.os with results := fun _ => 0x1000 }
  have wise := (FastPath.reachable plain.inited plain.booted reached.run).pageWise
  rcases romReadLoop_run wise with ⟨message, _, bat⟩ | ⟨err, left, device', v, lost, ended, run⟩
  · exact absurd bat (total message)
  · have delivers := always _ _ _ _ _ _ _ _ m s t _ _ _ _ _ _ _ plain.inited plain.booted reached.run args found
      (by simp) err left device' v ended
    have room := run.delivers_iff.mp delivers
    have one : (Device.read t.os (fun _ => 0) (xferAt 0xf0000000 1) (.file 3)).1 = 1 := by
      rw [reached.os]
      rfl
    have supply := @Device.supply_eq 1 t.os (.file 3) 0xf0000000 (by decide) fun _ => 0
    rw [one, if_neg (by decide)] at supply
    refine room 0 ?_ (guestReal_none (reached.beyond _ (by decide)))
    rw [supply]
    exact Nat.lt_of_lt_of_le (by decide) (Nat.le_add_right _ _)

end ToyHv

import ToyHv.Model.Getprop
import ToyHv.Rom.Names
import ToyHv.Rom.WholePages
import ToyHv.Translation.Requests
import ToyHv.Translation.Stores
import ToyHv.Tree.Navigation

namespace ToyHv
open Library

/-- Cells one after the other, as a property has them. -/
def cellBytes (cells : List W32) : Buf := fun k => wordBytes (cells.getD (k / 4) 0) (k % 4)

/-- The cells of a list of ranges: the base and the size of each, in order. -/
def rangeCells (l : List Range) : List W32 := l.flatMap fun r => [r.base, r.limit - r.base + 1]

def rangesLength (l : List Range) : W32 := BitVec.ofNat 32 l.length * 4 * 2

/-- A property's value, if it has one, and its length. -/
def propertyValue (fuel : ℕ) (d : Dtb) (memoryNode : W32) (rom : Rom) (node : W32) (name : Buf) :
    Checked (Option Buf × W32) :=
  if strcmpEq "name" name then romNodeName fuel d node
  else if node = memoryNode ∧ strcmpEq "reg" name then
    return (some (cellBytes (rangeCells rom.guestMemRegRanges)), rangesLength rom.guestMemRegRanges)
  else if node = memoryNode ∧ strcmpEq "available" name then
    return (some (cellBytes (rangeCells rom.guestMemAvailRanges)), rangesLength rom.guestMemAvailRanges)
  else romNodeProperty fuel d node name

def StreamedProperty (memoryNode node : W32) (name : Buf) : Prop :=
  strcmpEq "name" name = false ∧ node = memoryNode ∧ (strcmpEq "reg" name = true ∨ strcmpEq "available" name = true)

variable {m v : Machine} {ea len : W32} {l : List Range}

def storeCells (m : Machine) (ea : W32) : List W32 → Checked (Err × Machine)
  | [] => return (.none, m)
  | cell :: cells => do
    let (err, m) ← guestTo m ea (wordBytes cell) 4 1
    if err ≠ .none then return (err, m) else storeCells m (ea + 4) cells

theorem romRegLoop_eq (m : Machine) (ea len : W32) (l : List Range) :
    romRegLoop m ea len l = storeCells m ea ((rangeCells l).take (len.toNat / 4)) := by
  induction l generalizing m ea len with
  | nil => simp [romRegLoop, rangeCells, storeCells]
  | cons r l ih =>
    have cells : rangeCells (r :: l) = r.base :: (r.limit - r.base + 1) :: rangeCells l := rfl
    have four : (4 : W32).toNat = 4 := rfl
    rw [romRegLoop, cells]
    by_cases none : len < 4
    · have small := BitVec.lt_def.mp none
      have zero : len.toNat / 4 = 0 := by omega
      rw [if_pos none, zero]
      rfl
    · have enough := BitVec.le_def.mp (BitVec.not_lt.mp none)
      have rest : (len - 4).toNat = len.toNat - 4 := BitVec.toNat_sub_of_le (BitVec.not_lt.mp none)
      rw [if_neg none]
      by_cases one : len - 4 < 4
      · have small := BitVec.lt_def.mp one
        have count : len.toNat / 4 = 1 := by omega
        simp only [if_pos one, count, List.take_succ_cons, List.take_zero, storeCells]
      · have more := BitVec.le_def.mp (BitVec.not_lt.mp one)
        have left : (len - 4 - 4).toNat = (len - 4).toNat - 4 := BitVec.toNat_sub_of_le (BitVec.not_lt.mp one)
        have count : len.toNat / 4 = (len - 4 - 4).toNat / 4 + 2 := by omega
        simp only [if_neg one, count, List.take_succ_cons, storeCells, ih]

theorem romAvailLoop_eq (whole : ∀ r ∈ l, r.WholePages) (m : Machine) (ea len : W32) :
    romAvailLoop m ea len l = romRegLoop m ea len l := by
  induction l generalizing m ea len with
  | nil => rfl
  | cons r l ih =>
    obtain ⟨here, later⟩ := List.forall_mem_cons.mp whole
    have start : ¬ r.base % PAGE_SIZE ≠ 0 := not_not.mpr (BitVec.eq_of_toNat_eq here.base)
    have length : ¬ (r.limit - r.base + 1) % PAGE_SIZE ≠ 0 := by
      refine not_not.mpr (BitVec.eq_of_toNat_eq ?_)
      have behind := here.behind
      have base := here.base
      change (r.limit - r.base + 1).toNat % 4096 = 0
      have sum : r.limit - r.base + 1 = r.limit + 1 - r.base := by
        rw [sub_add_eq_add_sub]
      rw [sum, BitVec.toNat_sub]
      omega
    simp only [romAvailLoop, romRegLoop, bugOn_false start, bugOn_false length, ok_bind, ih later]

theorem Stored.congr {n : ℕ} {bytes bytes' : ℕ → W8} (stored : Stored m v ea n bytes)
    (same : ∀ k < n, bytes k = bytes' k) : Stored m v ea n bytes' := by
  refine ⟨stored.mapped, fun k bound last => ?_, stored.others⟩
  rw [stored.arrived k bound last, same k bound]

theorem cellBytes_first (cell : W32) (cells : List W32) {k : ℕ} (bound : k < 4) :
    cellBytes (cell :: cells) k = wordBytes cell k := by
  have first : k / 4 = 0 := Nat.div_eq_of_lt bound
  have lane : k % 4 = k := Nat.mod_eq_of_lt bound
  rw [cellBytes, first, lane]
  rfl

theorem cellBytes_later (cell : W32) (cells : List W32) (k : ℕ) :
    cellBytes (cell :: cells) (4 + k) = cellBytes cells k := by
  have index : (4 + k) / 4 = k / 4 + 1 := by omega
  have lane : (4 + k) % 4 = k % 4 := by omega
  rw [cellBytes, index, lane]
  rfl

theorem cellBytes_take (cells : List W32) {n k : ℕ} (bound : k < 4 * n) :
    cellBytes (cells.take n) k = cellBytes cells k := by
  have index : k / 4 < n := by omega
  rw [cellBytes, cellBytes, List.getD_eq_getElem?_getD, List.getD_eq_getElem?_getD, List.getElem?_take_of_lt index]

theorem PageWise.storeCells (wise : PageWise m) (ea : W32) (cells : List W32) :
    (∃ err v e, storeCells m ea cells = .ok (err, v) ∧ Prefixed m v ea (4 * cells.length) (cellBytes cells) err e) ∨
    ∃ message, storeCells m ea cells = .error message ∧ BatAbort m message := by
  induction cells generalizing m ea with
  | nil => exact .inl ⟨.none, m, 0, rfl, .refl m, .nothing rfl _, .inl ⟨rfl, rfl⟩⟩
  | cons cell cells ih =>
    have four : (4 : W32).toNat = 4 := rfl
    have total : 4 * (cell :: cells).length = 4 + 4 * cells.length := by
      rw [List.length_cons]
      omega
    rw [ToyHv.storeCells, total]
    rcases wise.storePrefix (wordBytes cell) ea 4 with ⟨err, w, e, took, first⟩ | ⟨message, aborted, bat⟩
    · rw [four] at first
      rw [took, ok_bind]
      rcases first.ended with ⟨rfl, rfl⟩ | ⟨rfl, some, nowhere⟩
      · have here := first.stored.congr fun k bound => (cellBytes_first cell cells bound).symm
        rcases ih (first.same.pageWise wise) (ea + 4) with ⟨err, v, e, rest, later⟩ | ⟨message, aborted, bat⟩
        · have shifted : (fun k => cellBytes (cell :: cells) (4 + k)) = cellBytes cells := by
            funext k
            exact cellBytes_later cell cells k
          refine .inl ⟨err, v, 4 + e, rest, Prefixed.append here first.same ?_⟩
          rw [shifted]
          exact later
        · exact .inr ⟨message, aborted, first.same.bat bat⟩
      · have here := first.stored.congr fun k bound => (cellBytes_first cell cells (bound.trans some)).symm
        exact .inl ⟨_, w, e, rfl, first.same, here, .inr ⟨rfl, by omega, nowhere⟩⟩
    · rw [aborted]
      exact .inr ⟨message, rfl, bat⟩

theorem toNat_rangesLength (l : List Range) : (rangesLength l).toNat = 8 * l.length % 2^32 := by
  have four : (4 : W32).toNat = 4 := rfl
  have two : (2 : W32).toNat = 2 := rfl
  rw [rangesLength, BitVec.toNat_mul, BitVec.toNat_mul, BitVec.toNat_ofNat, four, two]
  omega

theorem length_rangeCells (l : List Range) : (rangeCells l).length = 2 * l.length := by
  induction l with
  | nil => rfl
  | cons r l ih =>
    have cells : rangeCells (r :: l) = r.base :: (r.limit - r.base + 1) :: rangeCells l := rfl
    rw [cells, List.length_cons, List.length_cons, ih, List.length_cons]
    omega

theorem PageWise.streams (wise : PageWise m) (ea : W32) (l : List Range) :
    (∃ err v e, romRegLoop m ea (rangesLength l) l = .ok (err, v) ∧
      Prefixed m v ea (rangesLength l).toNat (cellBytes (rangeCells l)) err e) ∨
    ∃ message, romRegLoop m ea (rangesLength l) l = .error message ∧ BatAbort m message := by
  have length := toNat_rangesLength l
  have cells := length_rangeCells l
  have total : 4 * ((rangeCells l).take ((rangesLength l).toNat / 4)).length = (rangesLength l).toNat := by
    rw [List.length_take]
    omega
  rw [romRegLoop_eq]
  rcases wise.storeCells ea ((rangeCells l).take ((rangesLength l).toNat / 4)) with
    ⟨err, v, e, took, run⟩ | ⟨message, aborted, bat⟩
  · rw [total] at run
    have bound : e ≤ (rangesLength l).toNat := by
      rcases run.ended with ⟨_, all⟩ | ⟨_, some, _⟩
      · omega
      · omega
    refine .inl ⟨err, v, e, took, run.same, ?_, run.ended⟩
    exact run.stored.congr fun k inside => cellBytes_take _ (by omega)
  · exact .inr ⟨message, aborted, bat⟩

variable {fuel : ℕ} {d : Dtb} {memoryNode node lenIn : W32} {name value : Buf} {err : Err}

theorem romGetpropEx_length {length : W32} {m' : Machine} (known : length ≠ -1)
    (reported : romGetpropEx fuel d memoryNode m node name 0 none = .ok (err, length, m')) :
    ∃ value, propertyValue fuel d memoryNode m.rom node name = .ok (some value, length) := by
  have data : ∀ {found : Checked (Option Buf × W32)}, (found >>= romGetpropData m 0 none) = .ok (err, length, m') →
      ∃ value, found = .ok (some value, length) := by
    intro found looked
    simp only [bind_ok] at looked
    obtain ⟨⟨value | value, count⟩, rfl, told⟩ := looked
    · simp only [romGetpropData, pure_ok, Except.ok.injEq, Prod.mk.injEq] at told
      exact absurd told.2.1.symm known
    · simp only [romGetpropData, pure_ok, Except.ok.injEq, Prod.mk.injEq] at told
      obtain ⟨_, rfl, _⟩ := told
      exact ⟨value, rfl⟩
  unfold romGetpropEx at reported
  unfold propertyValue
  split at reported
  · rename_i named
    rw [if_pos named]
    exact data reported
  rename_i other
  rw [if_neg other]
  split at reported
  · rename_i reg
    simp only [romGetpropReg, if_true, pure_ok, Except.ok.injEq, Prod.mk.injEq] at reported
    obtain ⟨_, rfl, _⟩ := reported
    rw [if_pos reg]
    exact ⟨_, rfl⟩
  rename_i notReg
  rw [if_neg notReg]
  split at reported
  · rename_i available
    simp only [romGetpropAvailable, if_true, pure_ok, Except.ok.injEq, Prod.mk.injEq] at reported
    obtain ⟨_, rfl, _⟩ := reported
    rw [if_pos available]
    exact ⟨_, rfl⟩
  · rename_i notAvailable
    rw [if_neg notAvailable]
    exact data reported

theorem romGetpropEx_copies {length : W32} (plain : ¬ StreamedProperty memoryNode node name)
    (found : propertyValue fuel d memoryNode m.rom node name = .ok (some value, length)) (lenIn ea : W32) :
    romGetpropEx fuel d memoryNode m node name lenIn (some ea) =
      (guestTo m ea value (minOf length lenIn) 1 >>= fun (err, m) => pure (err, length, m)) := by
  unfold propertyValue at found
  unfold romGetpropEx
  split at found
  · rename_i named
    rw [if_pos named, found]
    rfl
  rename_i other
  rw [if_neg other]
  have absent : strcmpEq "name" name = false := Bool.not_eq_true _ ▸ other
  split at found
  · rename_i reg
    exact absurd ⟨absent, reg.1, .inl reg.2⟩ plain
  rename_i notReg
  rw [if_neg notReg]
  split at found
  · rename_i available
    exact absurd ⟨absent, available.1, .inr available.2⟩ plain
  · rename_i notAvailable
    rw [if_neg notAvailable, found]
    rfl

theorem romGetpropEx_streams {length : W32} (streamed : StreamedProperty memoryNode node name)
    (whole : ∀ r ∈ m.rom.guestMemAvailRanges, r.WholePages)
    (found : propertyValue fuel d memoryNode m.rom node name = .ok (some value, length)) (lenIn ea : W32) :
    ∃ l lenOut, length = rangesLength l ∧ value = cellBytes (rangeCells l) ∧
      romGetpropEx fuel d memoryNode m node name lenIn (some ea) =
        (romRegLoop m ea (rangesLength l) l >>= fun (err, m) => pure (err, lenOut, m)) := by
  obtain ⟨absent, here, streams⟩ := streamed
  have other : ¬ strcmpEq "name" name = true := by
    rw [absent]
    decide
  unfold propertyValue at found
  unfold romGetpropEx
  rw [if_neg other] at found ⊢
  split at found
  · rename_i reg
    obtain ⟨same, rfl⟩ := Prod.mk.inj (Except.ok.inj found)
    rw [if_pos reg]
    exact ⟨m.rom.guestMemRegRanges, _, rfl, (Option.some.inj same).symm, rfl⟩
  rename_i notReg
  have available : node = memoryNode ∧ strcmpEq "available" name = true :=
    ⟨here, streams.resolve_left fun reg => notReg ⟨here, reg⟩⟩
  rw [if_pos available] at found
  obtain ⟨same, rfl⟩ := Prod.mk.inj (Except.ok.inj found)
  rw [if_neg notReg, if_pos available]
  refine ⟨m.rom.guestMemAvailRanges, if lenIn = 0 then rangesLength m.rom.guestMemAvailRanges else
    minOf (rangesLength m.rom.guestMemAvailRanges) lenIn, rfl, (Option.some.inj same).symm, ?_⟩
  rw [romGetpropAvailable, ← romAvailLoop_eq whole]
  rfl

structure PropertyArgs (m : Machine) (cia ciaIn phandle propEa : W32) : Prop where
  phandle : ciaCell m cia ciaIn 0 = .ok (.none, phandle)
  prop : ciaCell m cia ciaIn 1 = .ok (.none, propEa)

structure BufferArgs (m : Machine) (cia ciaIn phandle propEa dataEa lenIn : W32) : Prop
    extends PropertyArgs m cia ciaIn phandle propEa where
  data : ciaCell m cia ciaIn 2 = .ok (.none, dataEa)
  len : ciaCell m cia ciaIn 3 = .ok (.none, lenIn)

def finishGetprop (cia ciaIn ciaOut : W32) : Err × W32 × Machine → Checked (Err × Machine)
  | (err, lenOut, m) => if err ≠ .none then return (err, m) else do guestToX m (← ciaRet cia ciaIn ciaOut 0) lenOut

variable {cia ciaIn phandle propEa dataEa : W32} {length : W32}

theorem romGetprop_eq (ciaOut : W32) (args : BufferArgs m cia ciaIn phandle propEa dataEa lenIn)
    (named : romPropName m propEa = .ok name) :
    romGetprop fuel d memoryNode m cia ciaIn ciaOut =
      (romGetpropOf fuel d memoryNode (m.setXferBuf name) phandle name lenIn (some dataEa) >>=
        finishGetprop cia ciaIn ciaOut) := by
  simp only [romGetprop, args.phandle, args.prop, args.data, args.len, named, ok_bind, ne_eq, not_true_eq_false,
    if_false]
  rfl

theorem romGetproplen_eq {m' : Machine} (ciaOut : W32) (args : PropertyArgs m cia ciaIn phandle propEa)
    (named : romPropName m propEa = .ok name)
    (reported : romGetpropOf fuel d memoryNode (m.setXferBuf name) phandle name 0 none = .ok (.none, length, m')) :
    romGetproplen fuel d memoryNode m cia ciaIn ciaOut =
      (ciaRet cia ciaIn ciaOut 0 >>= fun ea => guestToX m' ea length) := by
  simp only [romGetproplen, args.phandle, args.prop, named, reported, ok_bind, ne_eq, not_true_eq_false, if_false]

/-- The buffer got the first bytes of the value, as far as it goes, and the guest sees no other change. -/
def BufferRespected (m v : Machine) (dataEa lenIn length : W32) (value : Buf) : Prop :=
  Stored m v dataEa (min length.toNat lenIn.toNat) value

/-- The property is not streamed, or fits, or what is streamed behind the buffer, as far as the guest
    is mapped, leaves memory as the bytes for the buffer left it. -/
def StaysInBuffer (m : Machine) (memoryNode node : W32) (name : Buf) (dataEa lenIn length : W32) (value : Buf) : Prop :=
  ¬ StreamedProperty memoryNode node name ∨ length ≤ lenIn ∨
    written m dataEa value (mappedBytes m dataEa length.toNat) = written m dataEa value lenIn.toNat

theorem setXferBuf_same (m : Machine) (name : Buf) : SameGuest m (m.setXferBuf name) := ⟨rfl, rfl, rfl, rfl⟩

theorem bufferRespected_setXferBuf {xferBuf : Buf} :
    BufferRespected (m.setXferBuf xferBuf) v dataEa lenIn length value ↔
      BufferRespected m v dataEa lenIn length value :=
  ⟨fun stored => .of_same (setXferBuf_same m xferBuf) rfl stored,
    fun stored => .of_same (setXferBuf_same m xferBuf).symm rfl stored⟩

theorem staysInBuffer_setXferBuf {xferBuf : Buf} :
    StaysInBuffer (m.setXferBuf xferBuf) memoryNode node name dataEa lenIn length value ↔
      StaysInBuffer m memoryNode node name dataEa lenIn length value := by
  have same := setXferBuf_same m xferBuf
  rw [StaysInBuffer, same.mappedBytes, same.written rfl, same.written rfl]
  rfl

/-- What `rom_getprop_ex` leaves in guest memory, for a buffer that is mapped. -/
theorem romGetpropEx_respects_iff (inv : FastPath m) (whole : ∀ r ∈ m.rom.guestMemAvailRanges, r.WholePages)
    (found : propertyValue fuel d memoryNode m.rom node name = .ok (some value, length))
    (mapped : guestReal m dataEa ≠ none)
    (room : ∀ k < min length.toNat lenIn.toNat, guestReal m (dataEa + BitVec.ofNat 32 k) ≠ none) :
    ∃ err lenOut v, romGetpropEx fuel d memoryNode m node name lenIn (some dataEa) = .ok (err, lenOut, v) ∧
      (BufferRespected m v dataEa lenIn length value ↔
        StaysInBuffer m memoryNode node name dataEa lenIn length value) := by
  have wise := inv.pageWise
  have total := inv.total mapped
  by_cases streamed : StreamedProperty memoryNode node name
  · obtain ⟨l, lenOut, rfl, rfl, streams⟩ := romGetpropEx_streams streamed whole found lenIn dataEa
    rcases wise.streams dataEa l with ⟨err, v, e, took, run⟩ | ⟨message, _, bat⟩
    · refine ⟨err, lenOut, v, by rw [streams, took]; rfl, ?_⟩
      have memory := (stored_iff run.same run.stored.mapped).mp run.stored
      rw [run.length_eq] at memory
      rw [BufferRespected, stored_iff run.same room, memory, StaysInBuffer, or_iff_right (not_not.mpr streamed)]
      rcases le_or_gt (rangesLength l).toNat lenIn.toNat with fits | longer
      · rw [min_eq_left fits] at room ⊢
        rw [mappedBytes_all room]
        exact iff_of_true rfl (.inl (BitVec.le_def.mpr fits))
      · rw [min_eq_right longer.le, or_iff_right (fun fits => Nat.not_le.mpr longer (BitVec.le_def.mp fits))]
    · exact absurd bat (total message)
  · have copies := romGetpropEx_copies streamed found lenIn dataEa
    rcases wise.storePrefix value dataEa (minOf length lenIn) with ⟨err, v, e, took, run⟩ | ⟨message, _, bat⟩
    · refine ⟨err, length, v, by rw [copies, took]; rfl, iff_of_true ?_ (.inl streamed)⟩
      have all := run.length_eq
      rw [toNat_minOf, mappedBytes_all room] at all
      rw [BufferRespected, ← all]
      exact run.stored
    · exact absurd bat (total message)

theorem FastPath.setXferBuf (inv : FastPath m) (name : Buf) : FastPath (m.setXferBuf name) :=
  inv.frame ⟨inv.coherent.context, inv.coherent.regs⟩ inv.context rfl rfl fun _ _ cached => ⟨cached, id⟩

theorem romGetpropOf_known {m' : Machine} (known : length ≠ -1)
    (reported : romGetpropOf fuel d memoryNode m phandle name 0 none = .ok (err, length, m')) :
    ¬ (romNodeOffsetByPhandle phandle).toInt < 0 ∧
      romGetpropEx fuel d memoryNode m (romNodeOffsetByPhandle phandle) name 0 none = .ok (err, length, m') := by
  simp only [romGetpropOf] at reported
  split at reported
  · simp only [pure_ok, Except.ok.injEq, Prod.mk.injEq] at reported
    exact absurd reported.2.1.symm known
  · rename_i inside
    exact ⟨inside, reported⟩

/-- In every reachable state, for every property whose length is reported, `rom_getprop` respects a mapped
    buffer exactly when it does not stream too much. The available ranges are what claims have left. -/
theorem getprop_respects_iff {env : InitEnv} {boot : BootEnv} {page : VmmPtr → VmmPage} {host : Host} {os : Os}
    {garbage : Buf} {little : Bool} {ramSize : W32} {s t : Machine} {history : List GuestEvent} {rom : Rom}
    {claims : List Claim}
    (inited : guestInit env (Machine.start page host os garbage) little ramSize = .ok (.none, m))
    (booted : romInit boot m = .ok (.none, s)) (run : Run GuestStep s history t)
    (claimed : Run (ClaimStep (pmemSize s.ram)) s.rom claims rom)
    (left : t.rom.guestMemAvailRanges = rom.guestMemAvailRanges)
    (args : BufferArgs t cia ciaIn phandle propEa dataEa lenIn) (named : romPropName t propEa = .ok name)
    (reported : romGetpropOf fuel d memoryNode (t.setXferBuf name) phandle name 0 none =
      .ok (.none, length, t.setXferBuf name))
    (known : length ≠ -1) (mapped : guestReal t dataEa ≠ none)
    (room : ∀ k < min length.toNat lenIn.toNat, guestReal t (dataEa + BitVec.ofNat 32 k) ≠ none) :
    (∀ cia ciaIn ciaOut, PropertyArgs t cia ciaIn phandle propEa →
      romGetproplen fuel d memoryNode t cia ciaIn ciaOut =
        (ciaRet cia ciaIn ciaOut 0 >>= fun ea => guestToX (t.setXferBuf name) ea length)) ∧
    (∀ ciaOut, romGetprop fuel d memoryNode t cia ciaIn ciaOut =
      (romGetpropOf fuel d memoryNode (t.setXferBuf name) phandle name lenIn (some dataEa) >>=
        finishGetprop cia ciaIn ciaOut)) ∧
    ∃ value err lenOut v,
      propertyValue fuel d memoryNode t.rom (romNodeOffsetByPhandle phandle) name = .ok (some value, length) ∧
      romGetpropOf fuel d memoryNode (t.setXferBuf name) phandle name lenIn (some dataEa) = .ok (err, lenOut, v) ∧
      (BufferRespected t v dataEa lenIn length value ↔
        StaysInBuffer t memoryNode (romNodeOffsetByPhandle phandle) name dataEa lenIn length value) := by
  refine ⟨fun cia ciaIn ciaOut args => romGetproplen_eq ciaOut args named reported,
    fun ciaOut => romGetprop_eq ciaOut args named, ?_⟩
  have inv := FastPath.reachable inited booted run
  have whole : ∀ r ∈ (t.setXferBuf name).rom.guestMemAvailRanges, r.WholePages := by
    change ∀ r ∈ t.rom.guestMemAvailRanges, r.WholePages
    rw [left]
    exact available_wholePages booted claimed
  obtain ⟨inside, looked⟩ := romGetpropOf_known known reported
  obtain ⟨value, found⟩ := romGetpropEx_length known looked
  obtain ⟨err, lenOut, v, ended, respects⟩ :=
    romGetpropEx_respects_iff (inv.setXferBuf name) whole found mapped room
  rw [bufferRespected_setXferBuf, staysInBuffer_setXferBuf] at respects
  refine ⟨value, err, lenOut, v, found, ?_, respects⟩
  rw [romGetpropOf, if_neg inside]
  exact ended

def availableWords (lenIn : W32) (i : ℕ) : W32 :=
  if i = 3 then 0x10000008 else if i = 4 then 0x1000 else if i = 5 then 0x2000 else if i = 6 then lenIn
  else if i = 0x400 then 0x61766169 else if i = 0x401 then 0x6c61626c else if i = 0x402 then 0x65000000 else 0

def NamesAvailable (name : Buf) : Prop :=
  strcmpEq "name" name = false ∧ strcmpEq "reg" name = false ∧ strcmpEq "available" name = true

structure AsksAvailable (s t : Machine) (lenIn : W32) (name : Buf) : Prop where
  run : Run GuestStep s [.run] t
  args : BufferArgs t 0 4 0x10000008 0x1000 0x2000 lenIn
  named : romPropName t 0x1000 = .ok name
  asked : NamesAvailable name
  avail : t.rom.guestMemAvailRanges = s.rom.guestMemAvailRanges
  buffer : ∀ k : ℕ, k < 4096 → guestReal t (0x2000 + BitVec.ofNat 32 k) = some (0x2000 + BitVec.ofNat 32 k)
  empty : guestMemory t 0x2009 = 0

theorem AsksAvailable.room {s t : Machine} {lenIn : W32} (asks : AsksAvailable s t lenIn name) (k : ℕ)
    (bound : k < 4096) : guestReal t (0x2000 + BitVec.ofNat 32 k) ≠ none := by
  rw [asks.buffer k bound]
  exact Option.some_ne_none _

theorem AsksAvailable.apart {s t : Machine} {lenIn : W32} (asks : AsksAvailable s t lenIn name) (j k : ℕ)
    (first : j < 4096) (second : k < 4096) (other : j ≠ k) :
    guestReal t (0x2000 + BitVec.ofNat 32 j) ≠ some (0x2000 + BitVec.ofNat 32 k) := by
  intro together
  rw [asks.buffer j first, Option.some.injEq, add_right_inj] at together
  have places := congrArg BitVec.toNat together
  rw [BitVec.toNat_ofNat, BitVec.toNat_ofNat] at places
  omega

theorem PlainBoot.asks_available {s : Machine} (plain : PlainBoot m s) (lenIn : W32) :
    ∃ t name, AsksAvailable s t lenIn name := by
  have reached := plain.reaches (availableWords lenIn) s.rom.knownIhandles s.os
  have word : ∀ i : ℕ, availableWords lenIn ((0x1000 + i) / 4) = availableWords 0 ((0x1000 + i) / 4) := by
    intro i
    have other : (0x1000 + i) / 4 ≠ 6 := by omega
    simp only [availableWords, if_neg other]
  obtain ⟨d, fetched, text⟩ := plain.fetches (availableWords lenIn) s.rom.knownIhandles s.os
    (s.filled (availableWords lenIn) s.rom.knownIhandles s.os).rom.xferBuf (n := 9) (by decide)
    (by simp only [word]; decide) (by simp only [word]; decide)
  have short : ¬ BitVec.ofNat 32 9 ≥ PAGE_SIZE := by decide
  have same : ∀ i < 10, (d.put 9 1 fun _ => 0) i =
      wordBytes (availableWords 0 ((0x1000 + i) / 4)) ((0x1000 + i) % 4) := by
    intro i bound
    rcases Nat.lt_succ_iff_lt_or_eq.mp bound with before | rfl
    · rw [← word, ← text i before, Buf.put, if_neg (by omega)]
    · rfl
  refine ⟨_, d.put 9 1 fun _ => 0, reached.run, ⟨⟨reached.word 3 (by decide), reached.word 4 (by decide)⟩,
    reached.word 5 (by decide), reached.word 6 (by decide)⟩, ?_, ⟨?_, ?_, ?_⟩, rfl, fun k bound => ?_, ?_⟩
  · rw [romPropName, fetched, ok_bind]
    simp only [bugOn_false short, ok_bind]
    rfl
  · rw [strcmpEq_congr fun i bound => same i (bound.trans (by decide))]
    decide
  · rw [strcmpEq_congr fun i bound => same i (bound.trans (by decide))]
    decide
  · rw [strcmpEq_congr fun i bound => same i (bound.trans_le (by decide))]
    decide
  · have address : ((0x2000 : W32) + BitVec.ofNat 32 k).toNat < 0x2000000 := by
      rw [BitVec.toNat_add, BitVec.toNat_ofNat]
      change (0x2000 + k % 2^32) % 2^32 < _
      omega
    rw [guestReal, reached.page _ address, Option.map_some, pageOf_add]
  · have big : guestIsLittle (s.filled (availableWords lenIn) s.rom.knownIhandles s.os).guest = false := plain.big
    have zero : wordBytes (availableWords lenIn (0x2009 / 4)) (0x2009 % 4) = 0 := by
      have word : availableWords lenIn (0x2009 / 4) = 0 := by simp [availableWords]
      rw [word]
      decide
    rw [guestMemory, big]
    exact (filled_byte s (availableWords lenIn) s.rom.knownIhandles s.os (by decide : 0x2009 < 2^32)).trans zero

theorem NamesAvailable.found (asked : NamesAvailable name) (avail : m.rom.guestMemAvailRanges = plainAvailable) :
    propertyValue fuel d 8 m.rom 8 name = .ok (some (cellBytes (rangeCells plainAvailable)), 24) := by
  obtain ⟨notName, notReg, available⟩ := asked
  simp only [propertyValue, notName, notReg, available, avail, and_false, and_self, if_false, if_true,
    Bool.false_eq_true]
  rfl

theorem NamesAvailable.reported (asked : NamesAvailable name) (avail : m.rom.guestMemAvailRanges = plainAvailable) :
    romGetpropOf fuel d 8 m 0x10000008 name 0 none = .ok (.none, 24, m) := by
  obtain ⟨notName, notReg, available⟩ := asked
  have node : romNodeOffsetByPhandle 0x10000008 = 8 := by decide
  have inside : ¬ (8 : W32).toInt < 0 := by decide
  simp only [romGetpropOf, node, if_neg inside, romGetpropEx, notName, notReg, available, avail, and_false, and_self,
    if_false, if_true, Bool.false_eq_true, romGetpropAvailable]
  rfl

theorem available_fits : ∃ (t v : Machine) (value : Buf), BufferRespected t v 0x2000 24 24 value := by
  obtain ⟨m, s, plain⟩ := plain_boot
  obtain ⟨t, name, asks⟩ := plain.asks_available 24
  have avail := asks.avail.trans plain.avail
  have reported : romGetpropOf 32 smallDtb 8 (t.setXferBuf name) _ name 0 none = _ := asks.asked.reported avail
  obtain ⟨_, _, value, err, lenOut, v, _, _, respects⟩ :=
    getprop_respects_iff plain.inited plain.booted asks.run (.nil _) asks.avail asks.args asks.named reported
      (by decide) (asks.room 0 (by decide)) fun k bound => asks.room k (bound.trans (by decide))
  exact ⟨t, v, value, respects.mpr (.inr (.inl (by decide)))⟩

/-- The list of 24 bytes goes over the end of a buffer of 8. -/
theorem available_overruns :
    ¬ ∀ (env : InitEnv) (boot : BootEnv) (page : VmmPtr → VmmPage) (host : Host) (os : Os) (garbage : Buf)
      (little : Bool) (ramSize : W32) (m s t v : Machine) (history : List GuestEvent) (fuel : ℕ) (d : Dtb)
      (memoryNode cia ciaIn phandle propEa dataEa lenIn : W32) (name value : Buf) (length lenOut : W32) (err : Err),
      guestInit env (Machine.start page host os garbage) little ramSize = .ok (.none, m) →
      romInit boot m = .ok (.none, s) → Run GuestStep s history t →
      BufferArgs t cia ciaIn phandle propEa dataEa lenIn → romPropName t propEa = .ok name →
      romGetpropOf fuel d memoryNode (t.setXferBuf name) phandle name 0 none =
        .ok (.none, length, t.setXferBuf name) →
      length ≠ -1 → 1 ≤ lenIn →
      (∀ k < min length.toNat lenIn.toNat, guestReal t (dataEa + BitVec.ofNat 32 k) ≠ none) →
      propertyValue fuel d memoryNode t.rom (romNodeOffsetByPhandle phandle) name = .ok (some value, length) →
      romGetpropOf fuel d memoryNode (t.setXferBuf name) phandle name lenIn (some dataEa) = .ok (err, lenOut, v) →
      BufferRespected t v dataEa lenIn length value := by
  intro always
  obtain ⟨m, s, plain⟩ := plain_boot
  obtain ⟨t, name, asks⟩ := plain.asks_available 8
  have avail := asks.avail.trans plain.avail
  have node : romNodeOffsetByPhandle 0x10000008 = 8 := by decide
  have inv := FastPath.reachable plain.inited plain.booted asks.run
  have claims : Run (ClaimStep (pmemSize s.ram)) s.rom [] s.rom := .nil _
  have whole : ∀ r ∈ t.rom.guestMemAvailRanges, r.WholePages := by
    rw [asks.avail]
    exact available_wholePages plain.booted claims
  have short : ∀ k < min (24 : W32).toNat (8 : W32).toNat, guestReal t (0x2000 + BitVec.ofNat 32 k) ≠ none :=
    fun k bound => asks.room k (bound.trans (by decide))
  have found : propertyValue 32 smallDtb 8 t.rom 8 name = _ := asks.asked.found avail
  have start : guestReal t 0x2000 ≠ none := asks.room 0 (by decide)
  obtain ⟨err, lenOut, v, ended, respects⟩ := romGetpropEx_respects_iff (inv.setXferBuf name) whole found
    start short
  rw [bufferRespected_setXferBuf, staysInBuffer_setXferBuf] at respects
  have kept := always _ _ _ _ _ _ _ _ m s t v _ 32 smallDtb 8 0 4 0x10000008 0x1000 0x2000 8 name _ 24 lenOut err
    plain.inited plain.booted asks.run asks.args asks.named (asks.asked.reported avail) (by decide) (by decide)
    short found ended
  rcases respects.mp kept with other | fits | same
  · exact other ⟨asks.asked.1, rfl, .inr asks.asked.2.2⟩
  · exact absurd fits (by decide)
  · -- the tenth byte of the list, in a place where there was 0
    have ninth : guestReal t (0x2000 + BitVec.ofNat 32 9) = some 0x2009 := asks.buffer 9 (by decide)
    have mapped : mappedBytes t 0x2000 (24 : W32).toNat = 24 :=
      mappedBytes_all fun k bound => asks.room k (bound.trans (by decide))
    have byte := congrFun same 0x2009
    have after : written t 0x2000 (cellBytes (rangeCells plainAvailable)) 24 0x2009 = _ :=
      written_last (by decide) ninth fun j behind inside => asks.apart j 9 (by omega) (by decide) (by omega)
    have before : written t 0x2000 (cellBytes (rangeCells plainAvailable)) (8 : W32).toNat 0x2009 = _ :=
      written_other fun j inside => by
        change j < 8 at inside
        exact asks.apart j 9 (by omega) (by decide) (by omega)
    rw [mapped, after, before, asks.empty] at byte
    exact absurd byte (by decide)

end ToyHv

import Mathlib.Data.List.Find
import ToyHv.Memory.RoundTrip
import ToyHv.Memory.Scalars
import ToyHv.Memory.Terminators
import ToyHv.Model.Cif

namespace ToyHv

variable {m : Machine}

theorem strcmpEq_congr {text : String} {a b : Buf} (same : ∀ i < (cString text).length, a i = b i) :
    strcmpEq text a = strcmpEq text b := by
  have step : ∀ c ∈ (cString text).zipIdx, (a c.2 = c.1 ↔ b c.2 = c.1) := by
    intro c member
    have bound := List.snd_lt_of_mem_zipIdx member
    rw [same c.2 (by simpa using bound)]
  rw [strcmpEq, strcmpEq, Bool.eq_iff_iff, List.all_eq_true, List.all_eq_true]
  refine forall₂_congr fun c member => ?_
  rw [decide_eq_true_iff, decide_eq_true_iff]
  exact step c member

/-- A longer literal has a letter where the string has its NUL. -/
theorem strcmpEq_longer {literal : String} {buf : Buf} {n : ℕ} (letters : 0 ∉ (cString literal).dropLast)
    (ended : buf n = 0) (longer : n < (cString literal).dropLast.length) : strcmpEq literal buf = false := by
  apply Bool.eq_false_iff.mpr
  intro equal
  have bound : n < (cString literal).length := longer.trans_le (List.length_dropLast ▸ Nat.sub_le _ 1)
  have letter : (cString literal).dropLast[n] = (cString literal)[n] := List.getElem_dropLast longer
  have member : ((cString literal)[n], n) ∈ (cString literal).zipIdx :=
    List.mk_mem_zipIdx_iff_getElem?.mpr (List.getElem?_eq_getElem bound)
  have zero := of_decide_eq_true (List.all_eq_true.mp equal _ member)
  apply letters
  rw [← ended, zero, ← letter]
  exact List.getElem_mem longer

theorem strcmpEq_text {literal : String} {buf text : Buf} {n : ℕ} (letters : 0 ∉ (cString literal).dropLast)
    (same : ∀ i ≤ n, buf i = text i) (ended : text n = 0) : strcmpEq literal buf = strcmpEq literal text := by
  rcases Nat.lt_or_ge n (cString literal).dropLast.length with longer | within
  · rw [strcmpEq_longer letters ended longer, strcmpEq_longer letters ((same n le_rfl).trans ended) longer]
  · rw [List.length_dropLast] at within
    exact strcmpEq_congr fun i bound => same i (by omega)

/-- The handler of a service is found by the string the guest names, whatever is behind it in the buffer. -/
theorem handler_named {service text : Buf} {n : ℕ} (same : ∀ i ≤ n, service i = text i) (ended : text n = 0) :
    (handlers.find? fun h => strcmpEq h.1 service) = handlers.find? fun h => strcmpEq h.1 text := by
  have letters : ∀ h ∈ handlers, 0 ∉ (cString h.1).dropLast := by decide
  exact List.find?_congr fun h member => strcmpEq_text (letters h member) same ended

/-- Where the client interface fetches a string. -/
inductive StringEntry
  | service | callmethod | getprop | getproplen | finddevice | openDevice
  deriving DecidableEq

/-- The size of the buffer: `service[32]` or `xfer_buf[PAGE_SIZE]`. -/
def StringEntry.size : StringEntry → ℕ
  | .service => 32
  | .callmethod | .getprop | .getproplen | .finddevice | .openDevice => PAGE_SIZE.toNat

/-- The length the fetch is given. Four of the entries give it the whole buffer. -/
def StringEntry.bound : StringEntry → W32
  | .service => 32 - 1
  | .callmethod => PAGE_SIZE - 1
  | .getprop | .getproplen | .finddevice | .openDevice => PAGE_SIZE

def StringEntry.buf (m : Machine) : StringEntry → Buf
  | .service => m.garbage
  | .callmethod | .getprop | .getproplen | .finddevice | .openDevice => m.rom.xferBuf

def StringEntry.cells (cia ciaIn : W32) : StringEntry → List (Checked W32)
  | .service => [.ok (CIA_SERVICE cia), .ok (CIA_IN cia), .ok (CIA_OUT cia)]
  | .callmethod => [ciaArg cia ciaIn 0, ciaArg cia ciaIn 1]
  | .getprop => [ciaArg cia ciaIn 0, ciaArg cia ciaIn 1, ciaArg cia ciaIn 2, ciaArg cia ciaIn 3]
  | .getproplen => [ciaArg cia ciaIn 0, ciaArg cia ciaIn 1]
  | .finddevice | .openDevice => [ciaArg cia ciaIn 0]

/-- Which of the cells has the address of the string. -/
def StringEntry.name : StringEntry → ℕ
  | .getprop | .getproplen => 1
  | .service | .callmethod | .finddevice | .openDevice => 0

def readCells (m : Machine) : List (Checked W32) → Checked (Option (List W32))
  | [] => return some []
  | cell :: cells => do
    let (err, value) ← guestFromX m (wordAt m.garbage 0) (← cell)
    if err ≠ .none then return none
    else
      let values ← readCells m cells
      return values.map (value :: ·)

def StringEntry.ea (m : Machine) (cia ciaIn : W32) (e : StringEntry) : Checked (Option W32) := do
  let values ← readCells m (e.cells cia ciaIn)
  return values.map fun values => values.getD e.name 0

/-- The index at which an entry stores the terminator, if it gets that far. -/
def StringEntry.index (m : Machine) (cia ciaIn : W32) (e : StringEntry) : Checked (Option W32) := do
  match ← e.ea m cia ciaIn with
  | none => return none
  | some ea =>
    let (count, _) ← guestFromEx m (e.buf m) ea e.bound 1 true
    return some count

/-- A terminator is put at an index below `size`, if one is put, and a fetch reads nothing but memory. -/
def IndexInside (size : ℕ) : Checked (Option W32) → Prop
  | .ok none => True
  | .ok (some count) => count.toNat < size
  | .error message => message ≠ .undefined

def StringEntry.Inside (m : Machine) (cia ciaIn : W32) (e : StringEntry) : Prop :=
  IndexInside e.size (e.index m cia ciaIn)

def StringEntry.Fits (m : Machine) (cia ciaIn : W32) (e : StringEntry) : Prop :=
  ∀ ea, e.ea m cia ciaIn = .ok (some ea) → TerminatorFits m e.size ea e.bound 0

theorem pmemFromEx_defined {little : Bool} {p : Pmem} {host : Host} {buf : Buf} {d : ℕ} {gra bytes s : W32} :
    pmemFromEx little p host buf d gra bytes s 0 ≠ .error .undefined := by
  intro aborted
  unfold pmemFromEx at aborted
  split at aborted
  · cases aborted
  · simp only [bind_error, bugOn_error, reduceCtorEq, and_false, false_or] at aborted
    obtain ⟨_, _, _, _, aborted⟩ := aborted
    have plain : decide ((0 : W32) &&& PMEM_FROM_NUL_TERM ≠ 0) = false := by decide
    simp only [plain, Bool.false_eq_true, if_false] at aborted
    split at aborted
    · split at aborted <;> cases aborted
    · cases aborted

theorem guestFromLoop_defined {ea left s : W32} {buf : Buf} {d : ℕ} :
    guestFromLoop m buf d ea left s false ≠ .error .undefined := by
  intro aborted
  induction n : left.toNat using Nat.strong_induction_on generalizing ea left buf d with
  | _ n ih =>
  subst n
  rw [guestFromLoop] at aborted
  simp only [bind_error] at aborted
  rcases aborted with lookup | ⟨⟨err, gra⟩, _, aborted⟩
  · rcases guestBackmapEx_error lookup with other | other <;> cases other
  · split at aborted
    · cases aborted
    · simp only [bind_error, Bool.false_eq_true, if_false] at aborted
      rcases aborted with loaded | ⟨⟨count, copied⟩, _, aborted⟩
      · exact pmemFromEx_defined loaded
      · split at aborted
        · cases aborted
        · rename_i unfinished
          exact ih _ (left_decreases unfinished) aborted rfl

theorem guestFromX_defined {old ea : W32} : guestFromX m old ea ≠ .error .undefined := by
  intro aborted
  simp only [guestFromX, guestFrom, guestFromEx, bind_error, bugOn_error, reduceCtorEq, and_false, false_or, pure_ok,
    exists_false, or_false] at aborted
  obtain ⟨_, _, aborted⟩ := aborted
  exact guestFromLoop_defined aborted

theorem ciaArg_defined {cia ciaIn : W32} {x : ℕ} : ciaArg cia ciaIn x ≠ .error .undefined := by
  intro aborted
  simp only [ciaArg, bind_error, bugOn_error, pure_ok, reduceCtorEq, and_false, exists_false, or_false] at aborted

theorem readCells_defined {cells : List (Checked W32)} (defined : ∀ cell ∈ cells, cell ≠ .error .undefined) :
    readCells m cells ≠ .error .undefined := by
  induction cells with
  | nil => exact fun aborted => by cases aborted
  | cons cell cells ih =>
    intro aborted
    simp only [readCells, bind_error] at aborted
    rcases aborted with first | ⟨address, _, loaded | ⟨⟨err, value⟩, _, aborted⟩⟩
    · exact defined cell List.mem_cons_self first
    · exact guestFromX_defined loaded
    · split at aborted
      · cases aborted
      · simp only [bind_error, pure_ok, reduceCtorEq, and_false, exists_false, or_false] at aborted
        exact ih (fun other member => defined other (List.mem_cons_of_mem _ member)) aborted

theorem StringEntry.cells_defined (cia ciaIn : W32) (e : StringEntry) :
    ∀ cell ∈ e.cells cia ciaIn, cell ≠ .error .undefined := by
  cases e <;> simp [StringEntry.cells, ciaArg_defined]

theorem StringEntry.ea_defined (cia ciaIn : W32) (e : StringEntry) : e.ea m cia ciaIn ≠ .error .undefined := by
  intro aborted
  simp only [StringEntry.ea, bind_error, pure_ok, reduceCtorEq, and_false, exists_false, or_false] at aborted
  exact readCells_defined (e.cells_defined cia ciaIn) aborted

theorem StringEntry.bound_fits (e : StringEntry) : 0 < e.bound.toNat ∧ e.bound.toNat ≤ e.size := by
  cases e <;> decide

theorem StringEntry.inside_at {cia ciaIn ea : W32} {e : StringEntry} (found : e.ea m cia ciaIn = .ok (some ea)) :
    e.Inside m cia ciaIn ↔ TerminatorFits m e.size ea e.bound 0 := by
  obtain ⟨more, room⟩ := e.bound_fits
  have small := e.bound.isLt
  have nothing : (0 : W32).toNat = 0 := rfl
  have loop : TerminatorInside e.size 0 e.bound (guestFromLoop m (e.buf m) 0 ea e.bound 1 true) ↔
      TerminatorFits m e.size ea e.bound 0 :=
    terminator_inside_loop 0 more (by omega) (by omega) (e.buf m)
  rw [← loop]
  simp only [StringEntry.Inside, StringEntry.index, found, ok_bind, guestFromEx]
  rw [bugOn_false (by simp), ok_bind]
  cases guestFromLoop m (e.buf m) 0 ea e.bound 1 true with
  | error message => exact Iff.rfl
  | ok result =>
    simp only [ok_bind, pure_ok, IndexInside, TerminatorInside, zero_add]

/-- Each entry point of the client interface that fetches a string puts the terminator inside its
    buffer just when the string fits. -/
theorem terminator_inside_iff (m : Machine) (cia ciaIn : W32) (e : StringEntry) :
    e.Inside m cia ciaIn ↔ e.Fits m cia ciaIn := by
  cases found : e.ea m cia ciaIn with
  | error message =>
    refine iff_of_true ?_ fun ea there => ?_
    · simp only [StringEntry.Inside, StringEntry.index, found]
      rintro rfl
      exact e.ea_defined cia ciaIn found
    · rw [found] at there
      cases there
  | ok reached =>
    cases reached with
    | none =>
      refine iff_of_true ?_ fun ea there => ?_
      · simp only [StringEntry.Inside, StringEntry.index, found, ok_bind]
        exact True.intro
      · rw [found] at there
        cases there
    | some ea =>
      rw [StringEntry.inside_at found]
      constructor
      · intro fits other there
        obtain rfl := Option.some.inj (Except.ok.inj (found.symm.trans there))
        exact fits
      · exact fun fits => fits ea found

theorem little_bounded_fits (little : guestIsLittle m.guest = true) (cia ciaIn : W32) {e : StringEntry}
    (bounded : e = .service ∨ e = .callmethod) : e.Fits m cia ciaIn := by
  have small := e.bound.isLt
  have nothing : (0 : W32).toNat = 0 := rfl
  refine fun ea _ => bounded_fits little ?_ (by omega)
  rcases bounded with rfl | rfl
  · decide
  · decide

def lettersGuest : Machine := realModeGuest false fun a => if a.toNat < 64 then 0x41 else 0

theorem letters_cell (x : ℕ) (aligned : x % 4 = 0) (behind : 64 ≤ x) (bound : x + 4 ≤ 0x2000) :
    guestFromX lettersGuest (wordAt lettersGuest.garbage 0) (BitVec.ofNat 32 x) = .ok (.none, 0) := by
  refine guestFromX_real _ (by decide) rfl aligned bound fun k inside => ?_
  have zero : wordBytes 0 k = 0 := by simp [wordBytes]
  have base : lettersGuest.ram.pmem = 0 := rfl
  have value : (BitVec.ofNat 32 (x + k)).toNat = x + k := by
    rw [BitVec.toNat_ofNat]
    omega
  rw [base, zero, zero_add]
  exact if_neg (by omega)

theorem letters_ea : StringEntry.service.ea lettersGuest 0x100 0 = .ok (some 0) := by
  have service : guestFromX lettersGuest (wordAt lettersGuest.garbage 0) (CIA_SERVICE 0x100) = .ok (.none, 0) :=
    letters_cell 0x100 (by decide) (by decide) (by decide)
  have inCount : guestFromX lettersGuest (wordAt lettersGuest.garbage 0) (CIA_IN 0x100) = .ok (.none, 0) :=
    letters_cell 0x104 (by decide) (by decide) (by decide)
  have outCount : guestFromX lettersGuest (wordAt lettersGuest.garbage 0) (CIA_OUT 0x100) = .ok (.none, 0) :=
    letters_cell 0x108 (by decide) (by decide) (by decide)
  simp only [StringEntry.ea, StringEntry.cells, readCells, ok_bind, service, inCount, outCount, ne_eq,
    not_true_eq_false, if_false, pure_ok, Option.map_some]
  rfl

/-- A service's name of 64 letters, in big-endian mode, has its terminator put 32 bytes behind the buffer. -/
theorem long_service_outside : ¬ ∀ (m : Machine) (cia ciaIn : W32) (e : StringEntry), e.Inside m cia ciaIn := by
  intro always
  have inside := always lettersGuest 0x100 0 .service
  have reached : Reaches lettersGuest 0 0 := ⟨real_mode_lookup _ _ _ (by decide), by decide⟩
  rw [StringEntry.inside_at letters_ea, fits_big rfl reached] at inside
  have first : FirstNul lettersGuest 0 64 := ⟨by decide, by decide⟩
  obtain ⟨i, _, other, stored⟩ := inside
  obtain rfl := other.unique first
  rw [if_pos (by decide)] at stored
  exact absurd stored (by decide)

/-! The entries fetch their strings as the index says: one outside the buffer is an undefined store. -/

theorem readCells_some {cell : Checked W32} {cells : List (Checked W32)} {values : List W32}
    (read : readCells m (cell :: cells) = .ok (some values)) :
    ∃ value rest, (cell >>= fun address => guestFromX m (wordAt m.garbage 0) address) = .ok (.none, value) ∧
      readCells m cells = .ok (some rest) ∧ values = value :: rest := by
  simp only [readCells, bind_ok] at read
  obtain ⟨address, found, ⟨err, value⟩, loaded, read⟩ := read
  by_cases done : err = .none
  · subst done
    simp only [ne_eq, not_true_eq_false, if_false, bind_ok, pure_ok, Except.ok.injEq] at read
    obtain ⟨others, later, mapped⟩ := read
    obtain ⟨rest, rfl, rfl⟩ := Option.map_eq_some_iff.mp mapped
    refine ⟨value, rest, ?_, later, rfl⟩
    rw [found]
    exact loaded
  · simp only [ne_eq, done, not_false_eq_true, if_true, pure_ok, Except.ok.injEq, reduceCtorEq] at read

theorem StringEntry.outside_read {cia ciaIn : W32} {e : StringEntry} (outside : ¬ e.Inside m cia ciaIn) :
    ∃ values, readCells m (e.cells cia ciaIn) = .ok (some values) ∧
      ¬ IndexInside e.size (guestFromEx m (e.buf m) (values.getD e.name 0) e.bound 1 true >>= fun result =>
        pure (some result.1)) := by
  cases read : readCells m (e.cells cia ciaIn) with
  | error message =>
    refine absurd ?_ outside
    simp only [StringEntry.Inside, StringEntry.index, StringEntry.ea, read]
    rintro rfl
    exact readCells_defined (e.cells_defined cia ciaIn) read
  | ok answer =>
    cases answer with
    | none =>
      refine absurd ?_ outside
      simp only [StringEntry.Inside, StringEntry.index, StringEntry.ea, read, ok_bind, pure_ok, Option.map_none]
      exact True.intro
    | some values =>
      refine ⟨values, rfl, ?_⟩
      simp only [StringEntry.Inside, StringEntry.index, StringEntry.ea, read, ok_bind, pure_ok,
        Option.map_some] at outside
      exact outside

theorem store_outside {α : Type} {fetched : Checked (W32 × Buf)} {limit : W32}
    (outside : ¬ IndexInside limit.toNat (fetched >>= fun result => pure (some result.1)))
    (next : W32 × Buf → Checked α) :
    (fetched >>= fun result => bugOn (result.1 ≥ limit) .undefined >>= fun _ => next result) = .error .undefined := by
  cases fetched with
  | error message =>
    have same : message = .undefined := not_not.mp outside
    rw [same]
    rfl
  | ok result =>
    have beyond : result.1 ≥ limit := BitVec.le_def.mpr (not_lt.mp outside)
    rw [ok_bind, bugOn, if_pos beyond]
    rfl

theorem readCells_arg {cia ciaIn : W32} {x : ℕ} {cells : List (Checked W32)} {values : List W32}
    (read : readCells m (ciaArg cia ciaIn x :: cells) = .ok (some values)) :
    ∃ value rest, ciaCell m cia ciaIn x = .ok (.none, value) ∧ readCells m cells = .ok (some rest) ∧
      values = value :: rest :=
  readCells_some read

theorem romPropName_outside {ea : W32} (outside : ¬ IndexInside PAGE_SIZE.toNat
    (guestFromEx m m.rom.xferBuf ea PAGE_SIZE 1 true >>= fun result => pure (some result.1))) :
    romPropName m ea = .error .undefined :=
  store_outside outside _

theorem romServiceName_outside {ea : W32} (outside : ¬ IndexInside (32 : W32).toNat
    (guestFromEx m m.garbage ea (32 - 1) 1 true >>= fun result => pure (some result.1))) :
    romServiceName m ea = .error .undefined :=
  store_outside outside _

/-- The handler behind an entry. The name of the service is fetched before there is one. -/
def StringEntry.handler : StringEntry → Option CifHandler
  | .service => none
  | .callmethod => some .callmethod
  | .getprop => some .getprop
  | .getproplen => some .getproplen
  | .finddevice => some .finddevice
  | .openDevice => some .openDevice

theorem handler_outside (env : CifEnv) {cia ciaIn ciaOut : W32} {e : StringEntry} {handler : CifHandler}
    (behind : e.handler = some handler) (outside : ¬ e.Inside m cia ciaIn) :
    env.handler handler m cia ciaIn ciaOut = .error .undefined := by
  obtain ⟨values, read, beyond⟩ := StringEntry.outside_read outside
  cases e with
  | service => cases behind
  | callmethod =>
    obtain rfl := Option.some.inj behind
    obtain ⟨methodEa, _, first, others, rfl⟩ := readCells_arg read
    obtain ⟨ihandle, _, second, _, rfl⟩ := readCells_arg others
    simp only [CifEnv.handler, romCallmethod, first, second, ok_bind, ne_eq, not_true_eq_false, if_false]
    exact store_outside beyond _
  | getprop =>
    obtain rfl := Option.some.inj behind
    obtain ⟨phandle, _, first, others, rfl⟩ := readCells_arg read
    obtain ⟨propEa, _, second, data, rfl⟩ := readCells_arg others
    obtain ⟨dataEa, _, third, length, rfl⟩ := readCells_arg data
    obtain ⟨lenIn, _, fourth, _, rfl⟩ := readCells_arg length
    have name : romPropName m propEa = .error .undefined := romPropName_outside beyond
    simp only [CifEnv.handler, romGetprop, first, second, third, fourth, ok_bind, ne_eq, not_true_eq_false, if_false,
      name]
    rfl
  | getproplen =>
    obtain rfl := Option.some.inj behind
    obtain ⟨phandle, _, first, others, rfl⟩ := readCells_arg read
    obtain ⟨propEa, _, second, _, rfl⟩ := readCells_arg others
    have name : romPropName m propEa = .error .undefined := romPropName_outside beyond
    simp only [CifEnv.handler, romGetproplen, first, second, ok_bind, ne_eq, not_true_eq_false, if_false, name]
    rfl
  | finddevice =>
    obtain rfl := Option.some.inj behind
    obtain ⟨devEa, _, first, _, rfl⟩ := readCells_arg read
    have name : romPropName m devEa = .error .undefined := romPropName_outside beyond
    simp only [CifEnv.handler, romFinddevice, first, ok_bind, ne_eq, not_true_eq_false, if_false, name]
    rfl
  | openDevice =>
    obtain rfl := Option.some.inj behind
    obtain ⟨pathEa, _, first, _, rfl⟩ := readCells_arg read
    simp only [CifEnv.handler, romOpen, first, ok_bind, ne_eq, not_true_eq_false, if_false]
    exact store_outside beyond _

theorem romCallBy_outside (handler : CifHandler → Handler) {ciaIn : W32}
    (called : guestBackmap m m.regs.ppcPC (wordAt m.garbage 0) = .ok (.none, m.rom.cifTrampoline + 4))
    (outside : ¬ StringEntry.service.Inside m (m.regs.ppcGPRs 3) ciaIn) :
    romCallBy handler m = .error .undefined := by
  obtain ⟨values, read, beyond⟩ := StringEntry.outside_read outside
  obtain ⟨serviceEa, _, first, others, rfl⟩ := readCells_some read
  obtain ⟨inCount, _, second, last, rfl⟩ := readCells_some others
  obtain ⟨outCount, _, third, _, rfl⟩ := readCells_some last
  rw [ok_bind] at first second third
  have name : romServiceName m serviceEa = .error .undefined := romServiceName_outside beyond
  simp only [romCallBy, called, first, second, third, ok_bind, ne_eq, not_true_eq_false, if_false, name]
  rfl

end ToyHv

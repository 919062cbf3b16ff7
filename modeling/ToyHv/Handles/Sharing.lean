import ToyHv.Library.Noninterference
import ToyHv.Model.Handles

namespace ToyHv
open Library

inductive DiskOp
  | seek (offset : W32)
  | read (buf : Buf) (len : W32)
  | write (buf : Buf) (len : W32)

structure DiskHandle where
  part : DiskPart
  currentOff : W32

/-- What comes of a call: its result, the cursor, the transfers it had made and its buffer. -/
structure DiskResult where
  err : Err
  count : W32
  currentOff : W32
  moved : List Transfer
  buf : Buf

def DiskOp.run (os : Os) (fd : ℕ) (h : DiskHandle) : DiskOp → DiskResult × Os
  | .seek offset =>
    let (err, currentOff) := romDiskSeek h.part h.currentOff offset
    (⟨err, 0, currentOff, [], fun _ => 0⟩, os)
  | .read buf len =>
    let (count, buf, currentOff, os') := romDiskRead os fd h.part h.currentOff buf len
    (⟨.none, count, currentOff, os'.transfers.drop os.transfers.length, buf⟩, os')
  | .write buf len =>
    let (count, currentOff, os') := romDiskWrite os fd h.part h.currentOff buf len
    (⟨.none, count, currentOff, os'.transfers.drop os.transfers.length, buf⟩, os')

def DiskOp.IsWrite : DiskOp → Prop
  | .write _ _ => True
  | _ => False

/-- Handles of one `disk_t`, and so of one file position. -/
structure SharedDisk (ι : Type) where
  os : Os
  handles : ι → DiskHandle

/-- A method of a handle is called, or an open looks for a partition. -/
inductive SharedOp (ι : Type)
  | handle (i : ι) (op : DiskOp)
  | findPart (stSize index : W32) (part : DiskPart) (blk : Buf)

variable {ι : Type} [DecidableEq ι]

def SharedDisk.result (fd : ℕ) (d : SharedDisk ι) (i : ι) (op : DiskOp) : DiskResult := (op.run d.os fd (d.handles i)).1

def SharedDisk.step (fd : ℕ) (d : SharedDisk ι) : SharedOp ι → SharedDisk ι
  | .handle i op =>
    { os := (op.run d.os fd (d.handles i)).2
      handles := Function.update d.handles i { d.handles i with currentOff := (d.result fd i op).currentOff } }
  | .findPart stSize index part blk => { d with os := (diskFindPart d.os fd stSize index part blk).2.2 }

def SharedDisk.observe (fd : ℕ) (i : ι) (d : SharedDisk ι) : SharedOp ι → Option (Err × W32 × W32 × List Transfer)
  | .handle j op =>
    let result := d.result fd j op
    if j = i then some (result.err, result.count, result.currentOff, result.moved) else none
  | .findPart .. => none

/-- The calls of handle `i`, with or without those of `disk_find_part`. -/
def SharedOp.kept (finds : Bool) (i : ι) : SharedOp ι → Bool
  | .handle j _ => j = i
  | .findPart .. => finds

def Full (os : Os) : Prop := ∀ k, 2^32 ≤ os.results k

def WrittenByOthers (fd : ℕ) (i : ι) (d : SharedDisk ι) (ops : List (SharedOp ι)) (x : ℕ) : Prop :=
  ∃ before j op after, ops = before ++ .handle j op :: after ∧ j ≠ i ∧ op.IsWrite ∧
    ∃ moved ∈ ((before.foldl (SharedDisk.step fd) d).result fd j op).moved, moved.off ≤ x ∧ x < moved.off + moved.count

theorem WrittenByOthers.snoc {fd : ℕ} {i : ι} {d : SharedDisk ι} {ops : List (SharedOp ι)} {x : ℕ}
    (written : WrittenByOthers fd i d ops x) (op : SharedOp ι) : WrittenByOthers fd i d (ops ++ [op]) x := by
  obtain ⟨before, j, write, after, rfl, other, moved⟩ := written
  exact ⟨before, j, write, after ++ [op], by simp, other, moved⟩

variable {os : Os} {fd : ℕ} {h : DiskHandle}

def DiskHandle.position (h : DiskHandle) : W32 := h.part.off + h.currentOff

def DiskHandle.room (h : DiskHandle) (len : W32) : W32 := minOf len (h.part.length - h.currentOff)

structure Sought (os os' : Os) (fd : ℕ) (position : ℕ) : Prop where
  full : Full os'
  transfers : os'.transfers = os.transfers
  position : (os'.files fd).position = position
  bytes : (os'.files fd).bytes = (os.files fd).bytes

theorem diskSeek_full (full : Full os) (fd : ℕ) (offset : W32) :
    ∃ os', diskSeek os fd offset = (if offset.toInt < 0 then .posix else .none, os') ∧
      Sought os os' fd offset.toNat := by
  have moves : ¬ os.results os.calls < 0 := by
    have all := full os.calls
    omega
  simp only [diskSeek, sysLseek, if_neg moves]
  exact ⟨_, rfl, full, rfl, by simp, by simp⟩

theorem moved_full (full : Full os) (n : W32) : min (os.results os.calls).toNat n.toNat = n.toNat := by
  have all := full os.calls
  have top := n.isLt
  omega

def fullCount (n : W32) : W32 := countOf (BitVec.ofNat 32 n.toNat).toInt

theorem diskIn_full (full : Full os) (fd : ℕ) (buf : Buf) (n : W32) :
    ∃ os', diskIn os fd buf n =
        (fullCount n, buf.put 0 n.toNat fun k => (os.files fd).bytes ((os.files fd).position + k), os') ∧
      Full os' ∧ os'.transfers = os.transfers ++ [⟨fd, (os.files fd).position, n.toNat⟩] ∧
      (os'.files fd).bytes = (os.files fd).bytes := by
  have moves : ¬ os.results os.calls < 0 := by
    have all := full os.calls
    omega
  simp only [diskIn, sysRead, if_neg moves, moved_full full]
  exact ⟨_, rfl, full, rfl, by simp⟩

theorem diskOut_full (full : Full os) (fd : ℕ) (buf : Buf) (n : W32) :
    ∃ os', diskOut os fd buf n = (fullCount n, os') ∧
      Full os' ∧ os'.transfers = os.transfers ++ [⟨fd, (os.files fd).position, n.toNat⟩] ∧
      (os'.files fd).bytes = Buf.put (os.files fd).bytes (os.files fd).position n.toNat buf := by
  have moves : ¬ os.results os.calls < 0 := by
    have all := full os.calls
    omega
  simp only [diskOut, sysWrite, if_neg moves, moved_full full]
  exact ⟨_, rfl, full, rfl, by simp⟩

theorem romDiskRead_refused (fd : ℕ) (full : Full os) (high : h.position.toInt < 0) (buf : Buf) (len : W32) :
    ∃ os', romDiskRead os fd h.part h.currentOff buf len = (0, buf, h.currentOff, os') ∧
      Sought os os' fd h.position.toNat := by
  obtain ⟨os', seek, sought⟩ := diskSeek_full full fd h.position
  rw [if_pos high] at seek
  refine ⟨os', ?_, sought⟩
  rw [romDiskRead, ← DiskHandle.position, seek]
  rfl

theorem romDiskRead_full (fd : ℕ) (full : Full os) (low : ¬ h.position.toInt < 0) (buf : Buf) (len : W32) :
    ∃ os', romDiskRead os fd h.part h.currentOff buf len =
        (fullCount (h.room len), buf.put 0 (h.room len).toNat fun k => (os.files fd).bytes (h.position.toNat + k),
          h.currentOff + fullCount (h.room len), os') ∧
      Full os' ∧ os'.transfers = os.transfers ++ [⟨fd, h.position.toNat, (h.room len).toNat⟩] ∧
      (os'.files fd).bytes = (os.files fd).bytes := by
  obtain ⟨os₁, seek, sought⟩ := diskSeek_full full fd h.position
  rw [if_neg low] at seek
  obtain ⟨os₂, moved, full₂, transfers, bytes⟩ := diskIn_full sought.full fd buf (h.room len)
  rw [sought.position, sought.bytes] at moved
  rw [sought.position, sought.transfers] at transfers
  refine ⟨os₂, ?_, full₂, transfers, bytes.trans sought.bytes⟩
  rw [romDiskRead, ← DiskHandle.position, seek]
  simp only [ne_eq, not_true_eq_false, if_false]
  rw [← DiskHandle.room, moved]

theorem romDiskWrite_refused (fd : ℕ) (full : Full os) (high : h.position.toInt < 0) (buf : Buf) (len : W32) :
    ∃ os', romDiskWrite os fd h.part h.currentOff buf len = (0, h.currentOff, os') ∧
      Sought os os' fd h.position.toNat := by
  obtain ⟨os', seek, sought⟩ := diskSeek_full full fd h.position
  rw [if_pos high] at seek
  refine ⟨os', ?_, sought⟩
  rw [romDiskWrite, ← DiskHandle.position, seek]
  rfl

theorem romDiskWrite_full (fd : ℕ) (full : Full os) (low : ¬ h.position.toInt < 0) (buf : Buf) (len : W32) :
    ∃ os', romDiskWrite os fd h.part h.currentOff buf len =
        (fullCount (h.room len), h.currentOff + fullCount (h.room len), os') ∧
      Full os' ∧ os'.transfers = os.transfers ++ [⟨fd, h.position.toNat, (h.room len).toNat⟩] ∧
      (os'.files fd).bytes = Buf.put (os.files fd).bytes h.position.toNat (h.room len).toNat buf := by
  obtain ⟨os₁, seek, sought⟩ := diskSeek_full full fd h.position
  rw [if_neg low] at seek
  obtain ⟨os₂, moved, full₂, transfers, bytes⟩ := diskOut_full sought.full fd buf (h.room len)
  rw [sought.position, sought.transfers] at transfers
  rw [sought.position, sought.bytes] at bytes
  refine ⟨os₂, ?_, full₂, transfers, bytes⟩
  rw [romDiskWrite, ← DiskHandle.position, seek]
  simp only [ne_eq, not_true_eq_false, if_false]
  rw [← DiskHandle.room, moved]

def DiskOp.outcome (fd : ℕ) (h : DiskHandle) : DiskOp → Err × W32 × W32 × List Transfer
  | .seek offset => ((romDiskSeek h.part h.currentOff offset).1, 0, (romDiskSeek h.part h.currentOff offset).2, [])
  | .read _ len | .write _ len =>
    if h.position.toInt < 0 then (.none, 0, h.currentOff, [])
    else
      (.none, fullCount (h.room len), h.currentOff + fullCount (h.room len),
        [⟨fd, h.position.toNat, (h.room len).toNat⟩])

def DiskOp.stored (h : DiskHandle) (bytes : ℕ → W8) : DiskOp → ℕ → W8
  | .write buf len =>
    if h.position.toInt < 0 then bytes else Buf.put bytes h.position.toNat (h.room len).toNat buf
  | _ => bytes

def DiskOp.fetched (h : DiskHandle) (bytes : ℕ → W8) : DiskOp → Buf
  | .seek _ => fun _ => 0
  | .read buf len =>
    if h.position.toInt < 0 then buf else buf.put 0 (h.room len).toNat fun k => bytes (h.position.toNat + k)
  | .write buf _ => buf

def DiskResult.outcome (r : DiskResult) : Err × W32 × W32 × List Transfer := (r.err, r.count, r.currentOff, r.moved)

/-- The file position plays no part in what a call does. -/
structure DiskOp.Effect (os : Os) (fd : ℕ) (h : DiskHandle) (op : DiskOp) (r : DiskResult) (os' : Os) : Prop where
  full : Full os'
  outcome : r.outcome = op.outcome fd h
  bytes : (os'.files fd).bytes = op.stored h (os.files fd).bytes
  buf : r.buf = op.fetched h (os.files fd).bytes

theorem DiskOp.run_full (full : Full os) (op : DiskOp) :
    op.Effect os fd h (op.run os fd h).1 (op.run os fd h).2 := by
  cases op with
  | seek offset => exact ⟨full, rfl, rfl, rfl⟩
  | read buf len =>
    by_cases refused : h.position.toInt < 0
    · obtain ⟨os₁, answer, sought⟩ := romDiskRead_refused fd full refused buf len
      simp only [run, answer]
      refine ⟨sought.full, ?_, sought.bytes, ?_⟩
      · simp only [DiskResult.outcome, outcome, if_pos refused, sought.transfers, List.drop_length]
      · simp only [fetched, if_pos refused]
    · obtain ⟨os₂, answer, full, transfers, bytes⟩ := romDiskRead_full fd full refused buf len
      simp only [run, answer]
      refine ⟨full, ?_, bytes, ?_⟩
      · simp only [DiskResult.outcome, outcome, if_neg refused, transfers, List.drop_left]
      · simp only [fetched, if_neg refused]
  | write buf len =>
    by_cases refused : h.position.toInt < 0
    · obtain ⟨os₁, answer, sought⟩ := romDiskWrite_refused fd full refused buf len
      simp only [run, answer]
      refine ⟨sought.full, ?_, ?_, rfl⟩
      · simp only [DiskResult.outcome, outcome, if_pos refused, sought.transfers, List.drop_length]
      · simp only [stored, if_pos refused, sought.bytes]
    · obtain ⟨os₂, answer, full, transfers, bytes⟩ := romDiskWrite_full fd full refused buf len
      simp only [run, answer]
      refine ⟨full, ?_, ?_, rfl⟩
      · simp only [DiskResult.outcome, outcome, if_neg refused, transfers, List.drop_left]
      · simp only [stored, if_neg refused, bytes]

theorem diskFindPart_full (fd : ℕ) (full : Full os) (stSize index : W32) (part : DiskPart) (blk : Buf) :
    Full (diskFindPart os fd stSize index part blk).2.2 ∧
      ((diskFindPart os fd stSize index part blk).2.2.files fd).bytes = (os.files fd).bytes := by
  obtain ⟨os₁, seek, sought⟩ := diskSeek_full full fd 0
  obtain ⟨os₂, moved, full₂, _, bytes⟩ := diskIn_full sought.full fd blk SECTOR_SIZE
  have after := bytes.trans sought.bytes
  simp only [diskFindPart, seek, moved]
  split_ifs
  all_goals first
    | exact ⟨full, rfl⟩
    | exact ⟨sought.full, sought.bytes⟩
    | exact ⟨full₂, after⟩

variable {bytes bytes' : ℕ → W8}

theorem DiskOp.stored_congr (op : DiskOp) {x : ℕ} (same : bytes x = bytes' x) :
    op.stored h bytes x = op.stored h bytes' x := by
  cases op with
  | seek offset => exact same
  | read buf len => exact same
  | write buf len =>
    simp only [stored]
    split
    · exact same
    · simp only [Buf.put]
      split
      · rfl
      · exact same

theorem DiskOp.stored_ne (fd : ℕ) {op : DiskOp} {x : ℕ} (differs : op.stored h bytes x ≠ bytes x) :
    op.IsWrite ∧ ∃ moved ∈ (op.outcome fd h).2.2.2, moved.off ≤ x ∧ x < moved.off + moved.count := by
  cases op with
  | seek offset => exact absurd rfl differs
  | read buf len => exact absurd rfl differs
  | write buf len =>
    refine ⟨trivial, ?_⟩
    simp only [stored] at differs
    split at differs
    · exact absurd rfl differs
    · rename_i low
      simp only [outcome, if_neg low]
      refine ⟨_, List.mem_singleton_self _, ?_⟩
      by_contra outside
      exact differs (by rw [Buf.put, if_neg outside])

theorem DiskOp.fetched_ne (fd : ℕ) {op : DiskOp} {k : ℕ} (differs : op.fetched h bytes k ≠ op.fetched h bytes' k) :
    ∃ moved ∈ (op.outcome fd h).2.2.2, k < moved.count ∧ bytes (moved.off + k) ≠ bytes' (moved.off + k) := by
  cases op with
  | seek offset => exact absurd rfl differs
  | write buf len => exact absurd rfl differs
  | read buf len =>
    simp only [fetched] at differs
    split at differs
    · exact absurd rfl differs
    · rename_i low
      simp only [outcome, if_neg low]
      refine ⟨_, List.mem_singleton_self _, ?_⟩
      simp only [Buf.put, Nat.sub_zero] at differs
      split at differs
      · rename_i inside
        exact ⟨by simpa using inside, differs⟩
      · exact absurd rfl differs

structure Alike (fd : ℕ) (i : ι) (d₀ : SharedDisk ι) (history : List (SharedOp ι)) (d d' : SharedDisk ι) : Prop where
  run : d = history.foldl (SharedDisk.step fd) d₀
  full : Full d.os
  full' : Full d'.os
  handle : d.handles i = d'.handles i
  bytes : ∀ x, (d.os.files fd).bytes x ≠ (d'.os.files fd).bytes x → WrittenByOthers fd i d₀ history x

variable {i : ι} {d₀ d d' : SharedDisk ι} {history : List (SharedOp ι)}

theorem SharedDisk.step_own (op : DiskOp) :
    (d.step fd (.handle i op)).handles i = { d.handles i with currentOff := (d.result fd i op).currentOff } :=
  Function.update_self ..

theorem SharedDisk.result_full (fd : ℕ) (i : ι) (full : Full d.os) (op : DiskOp) :
    op.Effect d.os fd (d.handles i) (d.result fd i op) (d.step fd (.handle i op)).os := op.run_full full

theorem Alike.outcome (alike : Alike fd i d₀ history d d') (op : DiskOp) :
    (d.result fd i op).outcome = (d'.result fd i op).outcome := by
  rw [(SharedDisk.result_full fd i alike.full op).outcome, (SharedDisk.result_full fd i alike.full' op).outcome,
    alike.handle]

theorem Alike.own (alike : Alike fd i d₀ history d d') (op : DiskOp) :
    Alike fd i d₀ (history ++ [.handle i op]) (d.step fd (.handle i op)) (d'.step fd (.handle i op)) := by
  have here := SharedDisk.result_full fd i alike.full op
  have there := SharedDisk.result_full fd i alike.full' op
  refine ⟨by rw [List.foldl_append, ← alike.run]; rfl, here.full, there.full, ?_, ?_⟩
  · have cursor : (d.result fd i op).currentOff = (d'.result fd i op).currentOff :=
      congrArg (fun outcome => outcome.2.2.1) (alike.outcome op)
    rw [SharedDisk.step_own, SharedDisk.step_own, alike.handle, cursor]
  · intro x differs
    rw [here.bytes, there.bytes, alike.handle] at differs
    refine (alike.bytes x fun same => differs ?_).snoc _
    exact op.stored_congr same

theorem Alike.other (alike : Alike fd i d₀ history d d') {j : ι} (other : j ≠ i) (op : DiskOp) :
    Alike fd i d₀ (history ++ [.handle j op]) (d.step fd (.handle j op)) d' := by
  have here := SharedDisk.result_full fd j alike.full op
  refine ⟨by rw [List.foldl_append, ← alike.run]; rfl, here.full, alike.full', ?_, ?_⟩
  · rw [← alike.handle]
    exact Function.update_of_ne (Ne.symm other) ..
  · intro x differs
    by_cases kept : ((d.step fd (.handle j op)).os.files fd).bytes x = (d.os.files fd).bytes x
    · rw [kept] at differs
      exact (alike.bytes x differs).snoc _
    · rw [here.bytes] at kept
      obtain ⟨isWrite, moved⟩ := DiskOp.stored_ne fd kept
      rw [← here.outcome, alike.run] at moved
      exact ⟨history, j, op, [], rfl, other, isWrite, moved⟩

theorem Alike.find (alike : Alike fd i d₀ history d d') (stSize index : W32) (part : DiskPart) (blk : Buf) :
    Alike fd i d₀ (history ++ [.findPart stSize index part blk]) (d.step fd (.findPart stSize index part blk)) d' := by
  obtain ⟨full, bytes⟩ := diskFindPart_full fd alike.full stSize index part blk
  refine ⟨by rw [List.foldl_append, ← alike.run]; rfl, full, alike.full', alike.handle, ?_⟩
  intro x differs
  rw [show ((d.step fd (.findPart stSize index part blk)).os.files fd).bytes = _ from bytes] at differs
  exact (alike.bytes x differs).snoc _

theorem Alike.find_alone (alike : Alike fd i d₀ history d d') (stSize index : W32) (part : DiskPart) (blk : Buf) :
    Alike fd i d₀ history d (d'.step fd (.findPart stSize index part blk)) := by
  obtain ⟨full, bytes⟩ := diskFindPart_full fd alike.full' stSize index part blk
  refine ⟨alike.run, alike.full, full, alike.handle, ?_⟩
  intro x differs
  rw [show ((d'.step fd (.findPart stSize index part blk)).os.files fd).bytes = _ from bytes] at differs
  exact alike.bytes x differs

theorem alike_unwinding (fd : ℕ) (finds : Bool) (i : ι) (d₀ : SharedDisk ι) :
    Unwinding (SharedDisk.step fd) (SharedOp.kept finds i) (Alike fd i d₀) := by
  constructor
  · intro history d d' op alike kept
    cases op with
    | handle j op =>
      obtain rfl : j = i := of_decide_eq_true kept
      exact alike.own op
    | findPart stSize index part blk =>
      exact (alike.find stSize index part blk).find_alone stSize index part blk
  · intro history d d' op alike dropped
    cases op with
    | handle j op => exact alike.other (of_decide_eq_false dropped) op
    | findPart stSize index part blk => exact alike.find stSize index part blk

/-- What one disk handle gets to see does not depend on the calls of the others and on the opens in
    between, except for the bytes they wrote. -/
theorem disk_handles_do_not_interfere (fd : ℕ) (finds : Bool) (i : ι) (d : SharedDisk ι) (ops : List (SharedOp ι))
    (full : Full d.os) :
    outputs (SharedDisk.step fd) (SharedDisk.observe fd i) d ops =
      outputs (SharedDisk.step fd) (SharedDisk.observe fd i) d (ops.filter (SharedOp.kept finds i)) ∧
    ∀ before op after, ops = before ++ .handle i op :: after →
      let result := (before.foldl (SharedDisk.step fd) d).result fd i op
      let alone := ((before.filter (SharedOp.kept finds i)).foldl (SharedDisk.step fd) d).result fd i op
      ∀ k, result.buf k ≠ alone.buf k →
        ∃ moved ∈ result.moved, k < moved.count ∧ WrittenByOthers fd i d before (moved.off + k) := by
  have unwinding := alike_unwinding fd finds i d
  have initial : Alike fd i d [] d d := ⟨rfl, full, full, rfl, fun x differs => absurd rfl differs⟩
  constructor
  · refine unwinding.outputs_eq ?_ ?_ initial ops
    · intro t op dropped
      cases op with
      | handle j op => exact if_neg (of_decide_eq_false dropped)
      | findPart stSize index part blk => rfl
    · intro history t t' op alike kept
      cases op with
      | handle j op =>
        obtain rfl : j = i := of_decide_eq_true kept
        simp only [SharedDisk.observe, if_true]
        exact congrArg some (alike.outcome op)
      | findPart stSize index part blk => rfl
  · intro before op after _ result alone k differs
    have alike := unwinding.purge initial before
    have here := SharedDisk.result_full fd i alike.full op
    have there := SharedDisk.result_full fd i alike.full' op
    change (SharedDisk.result fd _ i op).buf k ≠ (SharedDisk.result fd _ i op).buf k at differs
    rw [here.buf, there.buf, alike.handle] at differs
    obtain ⟨moved, member, bound, apart⟩ := DiskOp.fetched_ne fd differs
    rw [← alike.handle, ← here.outcome] at member
    exact ⟨moved, member, bound, alike.bytes _ apart⟩

theorem interleaved_handles_alone :
    let os : Os := ⟨fun _ => ⟨0, fun _ => 0⟩, fun _ => 2^32, 0, [], ⟨0, fun _ => 0⟩, []⟩
    outputs (SharedDisk.step 3) (SharedDisk.observe 3 false) ⟨os, fun _ => ⟨⟨0x200, 0x400⟩, 0⟩⟩
      [.handle false (.write (fun _ => 1) 2), .handle true (.seek 4), .handle true (.write (fun _ => 2) 8),
        .findPart 0x1000 1 ⟨0, 0⟩ fun _ => 0, .handle false (.read (fun _ => 0) 3)] =
      [(.none, 2, 2, [⟨3, 0x200, 2⟩]), (.none, 3, 5, [⟨3, 0x202, 3⟩])] := by
  intro os
  have full : Full os := fun _ => le_refl _
  exact (disk_handles_do_not_interfere 3 false false ⟨os, fun _ => ⟨⟨0x200, 0x400⟩, 0⟩⟩ _ full).1.trans
    (by decide +kernel)

end ToyHv

import ToyHv.Emulation.Execute
import ToyHv.Memory.RoundTrip
import ToyHv.Memory.Words

namespace ToyHv

def CR0_EQ : W32 := ppcBits 2
def CR0_SO : W32 := ppcBits 3
def XER_SO : W32 := ppcBits 0

/-- The instructions a lock sequence is made of. -/
inductive LockInsn
  | sup (insn : Insn)
  | bne (bd : W32)
  | stwcx (s b : Fin 32)
  | isync
  deriving DecidableEq

def decodeLock (insn : W32) : Option LockInsn :=
  if opcd insn = 16#6 ∧ insn.extractLsb' 16 10 = 0b0010000010#10 ∧ insn.extractLsb' 0 2 = 0#2 then
    some (.bne ((insn.extractLsb' 2 14 ++ 0#2).signExtend 32))
  else if opcd insn = 31#6 ∧ xo insn = 150#10 ∧ insn.extractLsb' 0 1 = 1#1 ∧ insn.extractLsb' 16 5 = 0#5 then
    some (.stwcx (fieldD insn) (fieldB insn))
  else if opcd insn = 19#6 ∧ xo insn = 150#10 then
    some .isync
  else
    (decode insn).map .sup

/-- CR after a stwcx. that stored: CR0 is EQ and a copy of XER's SO. -/
def storedCR (regs : Regs) : W32 :=
  (regs.ppcCR &&& 0x0fffffff) ||| CR0_EQ ||| (if regs.ppcXER &&& XER_SO ≠ 0 then CR0_SO else 0)

/-- The architecture's account of one instruction, with the reservation held. A stwcx. that cannot
    store faults and leaves the state alone. -/
def stepLock (m : Machine) : LockInsn → Checked (Err × Machine)
  | .sup insn => do return (.none, ← execute m insn)
  | .bne bd => .ok (.none, m.setPC (m.regs.ppcPC + if m.regs.ppcCR &&& CR0_EQ = 0 then bd else 4))
  | .stwcx s b =>
    if (m.regs.ppcGPRs b).toNat % 4 ≠ 0 then
      .ok (.badAccess, m)
    else do
      let (err, stored) ← guestToX m (m.regs.ppcGPRs b) (m.regs.ppcGPRs s)
      return if err = .none then
        (.none, (stored.setRegs { stored.regs with ppcCR := storedCR stored.regs }).advance)
      else (err, m)
  | .isync => .ok (.none, m.advance)

/-- At most `n` instructions of the words at an address, one by one, until the PC leaves them. -/
def stepwise (words : List W32) (start : W32) : ℕ → Machine → Checked (Err × Machine)
  | 0, m => .ok (.none, m)
  | n + 1, m =>
    match words[(m.regs.ppcPC - start).toNat / 4]? with
    | none => .ok (.none, m)
    | some word =>
      match decodeLock word with
      | none => .ok (.unsupported, m)
      | some insn => do
        let (err, m) ← stepLock m insn
        if err = .none then stepwise words start n m else return (err, m)

def LockSeq.words (seq : LockSeq) : List W32 := seq.mfsprg :: seq.insn

def LockSeq.loaded (seq : LockSeq) : Fin 32 := fieldD seq.mfsprg

/-- What the words of a lock sequence say. -/
structure LockSeq.Decodes (seq : LockSeq) (out retry : W32) : Prop where
  listing : seq.words.map decodeLock =
    [some (.sup (.read (.sprg 0) seq.loaded)), some (.bne out), some (.stwcx seq.loaded seq.lock), some (.bne retry),
      some .isync]
  apart : seq.lock ≠ seq.loaded
  leaves : 5 ≤ (4 + out).toNat / 4
  elsewhere : 4 + out ≠ seq.skipped

variable {m u : Machine} {seq : LockSeq} {out retry : W32}

theorem lockSeqAt_decodes {insn : W32} (recognised : lockSeqAt m insn = .ok (some seq)) :
    ∃ out retry, seq.Decodes out retry ∧ (seq.skipped = 20 ↔ seq ≠ lockSeq1) := by
  have known : seq = lockSeq1 ∨ seq = lockSeq2 ∨ seq = lockSeq34 := by
    unfold lockSeqAt at recognised
    split at recognised
    · simp only [bind_ok, pure_ok, Except.ok.injEq] at recognised
      obtain ⟨follows, _, same⟩ := recognised
      split at same
      · exact .inl (Option.some.inj same).symm
      · cases same
    split at recognised
    · simp only [bind_ok, pure_ok, Except.ok.injEq] at recognised
      obtain ⟨follows, _, same⟩ := recognised
      split at same
      · exact .inr (.inl (Option.some.inj same).symm)
      · cases same
    split at recognised
    · simp only [bind_ok, pure_ok, Except.ok.injEq] at recognised
      obtain ⟨follows, _, same⟩ := recognised
      split at same
      · exact .inr (.inr (Option.some.inj same).symm)
      · cases same
    · cases recognised
  have second : lockSeq2 ≠ lockSeq1 := fun same => absurd (congrArg LockSeq.mfsprg same) (by decide)
  have third : lockSeq34 ≠ lockSeq1 := fun same => absurd (congrArg LockSeq.mfsprg same) (by decide)
  rcases known with rfl | rfl | rfl
  · exact ⟨0x14, 0xc, ⟨by decide, by decide, by decide, by decide⟩, by simp [lockSeq1]⟩
  · exact ⟨0x24, 0x1c, ⟨by decide, by decide, by decide, by decide⟩, iff_of_true rfl second⟩
  · exact ⟨0x14, 0xc, ⟨by decide, by decide, by decide, by decide⟩, iff_of_true rfl third⟩

theorem setRegs_injective {m : Machine} {first second : Regs} :
    m.setRegs first = m.setRegs second ↔ first = second := by
  refine ⟨fun same => ?_, congrArg _⟩
  have regs := congrArg Machine.regs same
  rwa [Machine.setRegs_regs, Machine.setRegs_regs] at regs

theorem storeWord_cases {ea word : W32} {err : Err} (aligned : ea.toNat % 4 = 0)
    (stored : guestToX m ea word = .ok (err, u)) :
    (Translatable m ea ∧ ∃ host, u = { m with host } ∧
      ∀ regs, guestToX (m.setRegs regs) ea word = .ok (.none, { m with host }.setRegs regs)) ∨
    (¬ Translatable m ea ∧ u = m ∧
      ∀ regs, guestToX (m.setRegs regs) ea word = .ok (.badAccess, m.setRegs regs)) := by
  have there : ∀ regs, guestBackmap (m.setRegs regs) ea (wordAt (m.setRegs regs).garbage 0) =
    guestBackmap m ea (wordAt m.garbage 0) := fun _ => rfl
  simp only [guestToX_word aligned, there]
  rw [guestToX_word aligned] at stored
  simp only [bind_ok] at stored
  obtain ⟨⟨looked, gra⟩, answer, stored⟩ := stored
  by_cases translated : looked = .none ∧ gra < m.ram.pmemBytes
  · left
    simp only [if_pos translated, bind_ok, pure_ok, Except.ok.injEq, Prod.mk.injEq] at stored
    obtain ⟨⟨count, host⟩, copied, _, rfl⟩ := stored
    obtain ⟨rfl, inside⟩ := translated
    refine ⟨⟨gra, answer, inside⟩, host, rfl, fun regs => ?_⟩
    simp only [answer, ok_bind, true_and]
    rw [if_pos (show gra < (m.setRegs regs).ram.pmemBytes from inside)]
    change (pmemTo (guestIsLittle m.guest) m.ram m.host gra (wordBytes word) 4 4 >>= _) = _
    rw [copied]
    rfl
  · right
    simp only [if_neg translated, pure_ok, Except.ok.injEq, Prod.mk.injEq] at stored
    refine ⟨?_, stored.2.symm, fun regs => ?_⟩
    · rintro ⟨other, found, inside⟩
      rw [answer] at found
      cases found
      exact translated ⟨rfl, inside⟩
    · simp only [answer, ok_bind]
      rw [if_neg (show ¬ (looked = .none ∧ gra < (m.setRegs regs).ram.pmemBytes) from translated)]
      rfl

theorem advance_setRegs (m : Machine) (regs : Regs) :
    (m.setRegs regs).advance = m.setRegs { regs with ppcPC := regs.ppcPC + 4 } := by
  simp only [Machine.advance, Machine.setPC, Machine.setRegs_regs, setRegs_setRegs]

theorem stepwise_turn {words : List W32} {start : W32} {n i : ℕ} {insn : LockInsn} (small : i < 5)
    (pc : m.regs.ppcPC = start + BitVec.ofNat 32 (4 * i)) (there : (words.map decodeLock)[i]? = some (some insn)) :
    stepwise words start (n + 1) m = stepLock m insn >>= fun (err, m) =>
      if err = .none then stepwise words start n m else pure (err, m) := by
  have index : (m.regs.ppcPC - start).toNat / 4 = i := by
    rw [pc, add_sub_cancel_left, BitVec.toNat_ofNat]
    omega
  rw [List.getElem?_map, Option.map_eq_some_iff] at there
  obtain ⟨word, found, decoded⟩ := there
  simp only [stepwise, index, found, decoded]

theorem stepwise_left {words : List W32} {start : W32} (n : ℕ)
    (outside : words.length ≤ (m.regs.ppcPC - start).toNat / 4) : stepwise words start n m = .ok (.none, m) := by
  cases n with
  | zero => rfl
  | succ n => simp only [stepwise, List.getElem?_eq_none outside]

def loadedRegs (m : Machine) (seq : LockSeq) (k : ℕ) : Regs :=
  { m.regs with
    ppcGPRs := Function.update m.regs.ppcGPRs seq.loaded (m.guest.sprg 0)
    ppcPC := m.regs.ppcPC + BitVec.ofNat 32 (4 * k) }

theorem loadedRegs_succ (m : Machine) (seq : LockSeq) (k : ℕ) :
    { loadedRegs m seq k with ppcPC := (loadedRegs m seq k).ppcPC + 4 } = loadedRegs m seq (k + 1) := by
  simp only [loadedRegs, Nat.mul_succ, BitVec.ofNat_add, ← BitVec.add_assoc]
  rfl

theorem LockSeq.Decodes.length (decodes : seq.Decodes out retry) : seq.words.length = 5 := by
  have same := congrArg List.length decodes.listing
  rwa [List.length_map] at same

theorem LockSeq.Decodes.loads (decodes : seq.Decodes out retry) (n : ℕ) :
    stepwise seq.words m.regs.ppcPC (n + 1) m = stepwise seq.words m.regs.ppcPC n (m.setRegs (loadedRegs m seq 1)) := by
  have there : (seq.words.map decodeLock)[0]? = some (some (.sup (.read (.sprg 0) seq.loaded))) := by
    rw [decodes.listing]
    rfl
  rw [stepwise_turn (by decide) (BitVec.add_zero _).symm there]
  have loaded : (m.setR seq.loaded (m.guest.sprg 0)).advance = m.setRegs (loadedRegs m seq 1) := by
    rw [Machine.setR, advance_setRegs]
    rfl
  change stepwise seq.words m.regs.ppcPC n (m.setR seq.loaded (m.guest.sprg 0)).advance = _
  rw [loaded]

theorem LockSeq.Decodes.taken (decodes : seq.Decodes out retry) (n : ℕ) (clear : m.regs.ppcCR &&& CR0_EQ = 0) :
    stepwise seq.words m.regs.ppcPC (n + 2) m =
      .ok (.none, m.setRegs { loadedRegs m seq 1 with ppcPC := m.regs.ppcPC + 4 + out }) := by
  have there : (seq.words.map decodeLock)[1]? = some (some (.bne out)) := by
    rw [decodes.listing]
    rfl
  have pc : (m.setRegs (loadedRegs m seq 1)).regs.ppcPC = m.regs.ppcPC + BitVec.ofNat 32 (4 * 1) := by
    rw [Machine.setRegs_regs]
    rfl
  rw [decodes.loads (n + 1), stepwise_turn (by decide) pc there]
  simp only [stepLock, Machine.setPC, Machine.setRegs_regs, setRegs_setRegs, ok_bind, if_true]
  have branches : (loadedRegs m seq 1).ppcCR &&& CR0_EQ = 0 := clear
  simp only [branches, if_true]
  apply stepwise_left
  rw [Machine.setRegs_regs, decodes.length]
  change 5 ≤ (m.regs.ppcPC + 4 + out - m.regs.ppcPC).toNat / 4
  rw [BitVec.add_assoc, add_sub_cancel_left]
  exact decodes.leaves

theorem LockSeq.Decodes.reaches (decodes : seq.Decodes out retry) (n : ℕ) (equal : m.regs.ppcCR &&& CR0_EQ ≠ 0) :
    stepwise seq.words m.regs.ppcPC (n + 3) m =
      stepLock (m.setRegs (loadedRegs m seq 2)) (.stwcx seq.loaded seq.lock) >>= fun (err, m') =>
        if err = .none then stepwise seq.words m.regs.ppcPC n m' else pure (err, m') := by
  have bne : (seq.words.map decodeLock)[1]? = some (some (.bne out)) := by
    rw [decodes.listing]
    rfl
  have stwcx : (seq.words.map decodeLock)[2]? = some (some (.stwcx seq.loaded seq.lock)) := by
    rw [decodes.listing]
    rfl
  have pc : ∀ k, (m.setRegs (loadedRegs m seq k)).regs.ppcPC = m.regs.ppcPC + BitVec.ofNat 32 (4 * k) := by
    intro k
    rw [Machine.setRegs_regs]
    rfl
  have falls : stepLock (m.setRegs (loadedRegs m seq 1)) (.bne out) = .ok (.none, m.setRegs (loadedRegs m seq 2)) := by
    have set : ¬ (loadedRegs m seq 1).ppcCR &&& CR0_EQ = 0 := equal
    simp only [stepLock, Machine.setPC, Machine.setRegs_regs, setRegs_setRegs, if_neg set, loadedRegs_succ]
  rw [decodes.loads (n + 2), stepwise_turn (by decide) (pc 1) bne, falls]
  simp only [ok_bind, if_true]
  rw [stepwise_turn (by decide) (pc 2) stwcx]

theorem LockSeq.Decodes.operands (decodes : seq.Decodes out retry) (m : Machine) (k : ℕ) :
    (loadedRegs m seq k).ppcGPRs seq.lock = m.regs.ppcGPRs seq.lock ∧
      (loadedRegs m seq k).ppcGPRs seq.loaded = m.guest.sprg 0 :=
  ⟨Function.update_of_ne decodes.apart _ _, Function.update_self ..⟩

theorem LockSeq.Decodes.faults (decodes : seq.Decodes out retry) (n : ℕ) (equal : m.regs.ppcCR &&& CR0_EQ ≠ 0)
    (refused : (m.regs.ppcGPRs seq.lock).toNat % 4 ≠ 0 ∨
      guestToX (m.setRegs (loadedRegs m seq 2)) (m.regs.ppcGPRs seq.lock) (m.guest.sprg 0) =
        .ok (.badAccess, m.setRegs (loadedRegs m seq 2))) :
    stepwise seq.words m.regs.ppcPC (n + 3) m = .ok (.badAccess, m.setRegs (loadedRegs m seq 2)) := by
  obtain ⟨address, word⟩ := decodes.operands m 2
  rw [decodes.reaches n equal]
  simp only [stepLock, Machine.setRegs_regs, address, word]
  by_cases aligned : (m.regs.ppcGPRs seq.lock).toNat % 4 = 0
  · simp only [if_neg (not_not.mpr aligned), refused.resolve_left (not_not.mpr aligned), ok_bind, pure_ok, reduceCtorEq,
      if_false]
  · simp only [if_pos aligned, ok_bind, reduceCtorEq, if_false, pure_ok]

def storedRegs (m : Machine) (seq : LockSeq) (k : ℕ) : Regs :=
  { loadedRegs m seq k with ppcCR := storedCR m.regs }

theorem storedCR_equal (regs : Regs) : storedCR regs &&& CR0_EQ ≠ 0 := by
  intro clear
  have bit := congrArg (BitVec.getLsbD · 29) clear
  simp [storedCR, CR0_EQ, ppcBits] at bit

theorem LockSeq.Decodes.stores (decodes : seq.Decodes out retry) {host : Host}
    (equal : m.regs.ppcCR &&& CR0_EQ ≠ 0)
    (aligned : (m.regs.ppcGPRs seq.lock).toNat % 4 = 0)
    (stored : guestToX (m.setRegs (loadedRegs m seq 2)) (m.regs.ppcGPRs seq.lock) (m.guest.sprg 0) =
      .ok (.none, { m with host }.setRegs (loadedRegs m seq 2))) :
    stepwise seq.words m.regs.ppcPC 5 m = .ok (.none, { m with host }.setRegs (storedRegs m seq 5)) := by
  obtain ⟨address, word⟩ := decodes.operands m 2
  let t : Machine := { m with host }
  have bne : (seq.words.map decodeLock)[3]? = some (some (.bne retry)) := by
    rw [decodes.listing]
    rfl
  have isync : (seq.words.map decodeLock)[4]? = some (some .isync) := by
    rw [decodes.listing]
    rfl
  have pc : ∀ k, (t.setRegs (storedRegs m seq k)).regs.ppcPC = m.regs.ppcPC + BitVec.ofNat 32 (4 * k) := by
    intro k
    rw [Machine.setRegs_regs]
    rfl
  have next : ∀ k, { storedRegs m seq k with ppcPC := (storedRegs m seq k).ppcPC + 4 } = storedRegs m seq (k + 1) := by
    intro k
    have succ := congrArg Regs.ppcPC (loadedRegs_succ m seq k)
    simp only at succ
    simp only [storedRegs, succ]
    rfl
  have takes : stepLock (m.setRegs (loadedRegs m seq 2)) (.stwcx seq.loaded seq.lock) =
      .ok (.none, t.setRegs (storedRegs m seq 3)) := by
    simp only [stepLock, Machine.setRegs_regs, address, word, if_neg (not_not.mpr aligned), stored, ok_bind, if_true,
      setRegs_setRegs, advance_setRegs, pure_ok]
    exact congrArg (fun regs => Except.ok (Err.none, t.setRegs regs)) (next 2)
  have falls :
      stepLock (t.setRegs (storedRegs m seq 3)) (.bne retry) = .ok (.none, t.setRegs (storedRegs m seq 4)) := by
    have set : ¬ (storedRegs m seq 3).ppcCR &&& CR0_EQ = 0 := storedCR_equal m.regs
    simp only [stepLock, Machine.setPC, Machine.setRegs_regs, setRegs_setRegs, if_neg set, next]
  have ends : stepLock (t.setRegs (storedRegs m seq 4)) .isync = .ok (.none, t.setRegs (storedRegs m seq 5)) := by
    simp only [stepLock, advance_setRegs, next]
  rw [decodes.reaches 2 equal, takes]
  simp only [ok_bind, if_true]
  rw [stepwise_turn (by decide) (pc 3) bne, falls]
  simp only [ok_bind, if_true]
  rw [stepwise_turn (by decide) (pc 4) isync, ends]
  rfl

theorem guestEmulate_skips {insn : W32} {err : Err}
    (fetched : guestFromX m (wordAt m.garbage 0) m.regs.ppcPC = .ok (.none, insn))
    (recognised : lockSeqAt m insn = .ok (some seq)) (emulated : guestEmulate m = .ok (err, u)) :
    err = .none ∧ ∃ stored storeErr, guestToX m (m.regs.ppcGPRs seq.lock) (m.guest.sprg 0) = .ok (storeErr, stored) ∧
      u = stored.setRegs { m.regs with ppcPC := m.regs.ppcPC + seq.skipped } := by
  simp only [guestEmulate, fetched, ok_bind, ne_eq, not_true_eq_false, if_false, recognised, skipLockSeq, bind_ok,
    pure_ok, Except.ok.injEq, Prod.mk.injEq] at emulated
  obtain ⟨_, ⟨⟨storeErr, stored⟩, took, rfl⟩, rfl, rfl⟩ := emulated
  obtain ⟨host, rfl⟩ := guestTo_frame took
  exact ⟨rfl, _, _, took, rfl⟩

/-- A lock sequence is skipped as it would have run exactly when it is not the first one, its
    branches fall through, the store can be made, and CR and the loaded register are already as the
    sequence leaves them. -/
theorem lock_sequence_stepwise_iff {insn : W32} {err : Err}
    (fetched : guestFromX m (wordAt m.garbage 0) m.regs.ppcPC = .ok (.none, insn))
    (recognised : lockSeqAt m insn = .ok (some seq)) (emulated : guestEmulate m = .ok (err, u)) :
    stepwise seq.words m.regs.ppcPC 5 m = .ok (err, u) ↔
      seq ≠ lockSeq1 ∧ m.regs.ppcCR = storedCR m.regs ∧ m.regs.ppcGPRs seq.loaded = m.guest.sprg 0 ∧
        (m.regs.ppcGPRs seq.lock).toNat % 4 = 0 ∧ Translatable m (m.regs.ppcGPRs seq.lock) := by
  obtain ⟨out, retry, decodes, skips⟩ := lockSeqAt_decodes recognised
  obtain ⟨rfl, stored, storeErr, took, rfl⟩ := guestEmulate_skips fetched recognised emulated
  obtain ⟨host, rfl⟩ := guestTo_frame took
  by_cases clear : m.regs.ppcCR &&& CR0_EQ = 0
  · rw [decodes.taken 3 clear]
    constructor
    · intro same
      have regs := congrArg (fun m => m.regs.ppcPC) (Prod.mk.inj (Except.ok.inj same)).2
      simp only [Machine.setRegs_regs, BitVec.add_assoc, add_right_inj] at regs
      exact absurd regs decodes.elsewhere
    · rintro ⟨_, same, _⟩
      rw [same] at clear
      exact absurd clear (storedCR_equal _)
  by_cases aligned : (m.regs.ppcGPRs seq.lock).toNat % 4 = 0
  · rcases storeWord_cases aligned took with ⟨there, other, same, takes⟩ | ⟨missing, _, refuses⟩
    · obtain rfl : host = other := congrArg Machine.host same
      rw [decodes.stores clear aligned (takes _)]
      simp only [Except.ok.injEq, Prod.mk.injEq, true_and, setRegs_injective]
      constructor
      · intro same
        have pc : m.regs.ppcPC + 20 = m.regs.ppcPC + seq.skipped := congrArg Regs.ppcPC same
        have cr : storedCR m.regs = m.regs.ppcCR := congrArg Regs.ppcCR same
        have gprs := congrFun (congrArg Regs.ppcGPRs same) seq.loaded
        have loaded : (storedRegs m seq 5).ppcGPRs seq.loaded = m.guest.sprg 0 := (decodes.operands m 5).2
        rw [loaded] at gprs
        exact ⟨skips.mp (add_left_cancel pc).symm, cr.symm, gprs.symm, aligned, there⟩
      · rintro ⟨later, cr, loaded, _, _⟩
        rw [storedRegs, loadedRegs, ← cr, ← loaded, Function.update_eq_self, skips.mpr later]
        rfl
    · rw [decodes.faults 2 clear (.inr (refuses _))]
      constructor
      · intro same
        cases (Prod.mk.inj (Except.ok.inj same)).1
      · rintro ⟨_, _, _, _, there⟩
        exact absurd there missing
  · rw [decodes.faults 2 clear (.inl aligned)]
    constructor
    · intro same
      cases (Prod.mk.inj (Except.ok.inj same)).1
    · rintro ⟨_, _, _, whole, _⟩
      exact absurd whole aligned

def lockGuest (seq : LockSeq) (cr : W32) : Machine :=
  (realModeGuest false fun a => wordBytes (seq.words.getD (a.toNat / 4) 0) (a.toNat % 4)).setRegs
    { zeroMachine.regs with ppcCR := cr }

theorem lockGuest_translates (seq : LockSeq) (cr : W32) {ea : W32} {n : ℕ} (bound : ea.toNat + n ≤ 0x2000) :
    Translates (lockGuest seq cr) id ea n := by
  obtain ⟨⟨answer, answers, aligned, inside⟩, injective⟩ := realModeGuest_translates false
    (fun a => wordBytes (seq.words.getD (a.toNat / 4) 0) (a.toNat % 4)) bound
  exact ⟨⟨answer, answers, aligned, inside⟩, injective⟩

theorem lockGuest_regs (seq : LockSeq) (cr : W32) :
    (lockGuest seq cr).regs = { zeroMachine.regs with ppcCR := cr } := by
  rw [lockGuest, Machine.setRegs_regs]

theorem lockGuest_fetches (cr : W32) :
    guestFromX (lockGuest lockSeq2 cr) (wordAt (lockGuest lockSeq2 cr).garbage 0) (lockGuest lockSeq2 cr).regs.ppcPC =
      .ok (.none, lockSeq2.mfsprg) := by
  have map : Maps (lockGuest lockSeq2 cr) id 0 (4 : W32).toNat := (lockGuest_translates _ _ (by decide)).toMaps
  have loaded := guestFrom_view (.inr (.inr rfl)) (wordBytes (wordAt (lockGuest lockSeq2 cr).garbage 0)) (by decide)
    (by decide) map
  have pc : (lockGuest lockSeq2 cr).regs.ppcPC = 0 := by rw [lockGuest_regs]; rfl
  rw [pc]
  have host : (lockGuest lockSeq2 cr).host = (lockGuest lockSeq2 0).host := rfl
  have old : (lockGuest lockSeq2 cr).garbage = fun _ => 0 := rfl
  have ram : (lockGuest lockSeq2 cr).ram = (lockGuest lockSeq2 0).ram := rfl
  have guest : (lockGuest lockSeq2 cr).guest = (lockGuest lockSeq2 0).guest := rfl
  change (guestFrom (lockGuest lockSeq2 cr) _ 0 4 4 >>= _) = _
  rw [loaded, host, ram, guest, old]
  decide

theorem lockGuest_recognised (cr : W32) :
    lockSeqAt (lockGuest lockSeq2 cr) lockSeq2.mfsprg = .ok (some lockSeq2) := by
  have map : Maps (lockGuest lockSeq2 cr) id 4 (16 : W32).toNat := (lockGuest_translates _ _ (by decide)).toMaps
  have loaded := guestFromLoop_view (.inr (.inr rfl)) (lockGuest lockSeq2 cr).garbage 0 (by decide) (by decide) map
  have pc : (lockGuest lockSeq2 cr).regs.ppcPC = 0 := by rw [lockGuest_regs]; rfl
  have host : (lockGuest lockSeq2 cr).host = (lockGuest lockSeq2 0).host := rfl
  have old : (lockGuest lockSeq2 cr).garbage = fun _ => 0 := rfl
  have ram : (lockGuest lockSeq2 cr).ram = (lockGuest lockSeq2 0).ram := rfl
  have guest : (lockGuest lockSeq2 cr).guest = (lockGuest lockSeq2 0).guest := rfl
  have follows : lockSeqFollows (lockGuest lockSeq2 cr) lockSeq2 = .ok true := by
    rw [lockSeqFollows, guestFromEx, pc, bugOn_false (by simp)]
    change ((guestFromLoop (lockGuest lockSeq2 cr) (lockGuest lockSeq2 cr).garbage 0 4 16 4 false >>= _) >>= _) = _
    rw [loaded, host, ram, guest, old]
    decide
  have second : lockSeq2.mfsprg ≠ lockSeq1.mfsprg := by decide
  rw [lockSeqAt, if_neg second, if_pos rfl, follows]
  rfl

theorem lockGuest_emulated (cr : W32) : ∃ u, guestEmulate (lockGuest lockSeq2 cr) = .ok (.none, u) := by
  have map : Translates (lockGuest lockSeq2 cr) id 0 (4 : W32).toNat := lockGuest_translates _ _ (by decide)
  obtain ⟨host, stored, _⟩ := guestToLoop_view (.inr (.inr rfl)) (wordBytes 0) (by decide) (by decide) map
  have took : guestToX (lockGuest lockSeq2 cr) ((lockGuest lockSeq2 cr).regs.ppcGPRs lockSeq2.lock)
      ((lockGuest lockSeq2 cr).guest.sprg 0) = .ok (.none, { lockGuest lockSeq2 cr with host }) := by
    rw [lockGuest_regs]
    change (guestToLoop (lockGuest lockSeq2 cr) 0 (wordBytes 0) 4 4 >>= _) = _
    rw [stored]
    rfl
  have skipped : guestEmulate (lockGuest lockSeq2 cr) = .ok (.none,
      { lockGuest lockSeq2 cr with host }.setPC ((lockGuest lockSeq2 cr).regs.ppcPC + lockSeq2.skipped)) := by
    rw [guestEmulate, lockGuest_fetches]
    simp only [ok_bind, ne_eq, not_true_eq_false, if_false, lockGuest_recognised, skipLockSeq, took, pure_ok]
    rfl
  exact ⟨_, skipped⟩

theorem free_lock_stepwise : ∃ u, guestEmulate (lockGuest lockSeq2 CR0_EQ) = .ok (.none, u) ∧
    stepwise lockSeq2.words (lockGuest lockSeq2 CR0_EQ).regs.ppcPC 5 (lockGuest lockSeq2 CR0_EQ) = .ok (.none, u) := by
  obtain ⟨u, emulated⟩ := lockGuest_emulated CR0_EQ
  refine ⟨u, emulated, ?_⟩
  have second : lockSeq2 ≠ lockSeq1 := fun same => absurd (congrArg LockSeq.mfsprg same) (by decide)
  have map : Maps (lockGuest lockSeq2 CR0_EQ) id 0 4 := (lockGuest_translates _ _ (by decide)).toMaps
  apply (lock_sequence_stepwise_iff (lockGuest_fetches _) (lockGuest_recognised _) emulated).mpr
  rw [lockGuest_regs]
  refine ⟨second, by decide, rfl, by decide, 0, ?_, by decide⟩
  exact map.answers 0 (by decide) _

/-- A lock that is held is taken all the same. -/
theorem held_lock_taken :
    ¬ ∀ (m u : Machine) (insn : W32) (seq : LockSeq) (err : Err),
      guestFromX m (wordAt m.garbage 0) m.regs.ppcPC = .ok (.none, insn) → lockSeqAt m insn = .ok (some seq) →
      guestEmulate m = .ok (err, u) → stepwise seq.words m.regs.ppcPC 5 m = .ok (err, u) := by
  intro always
  obtain ⟨u, emulated⟩ := lockGuest_emulated 0
  have same := always _ u _ _ _ (lockGuest_fetches 0) (lockGuest_recognised 0) emulated
  obtain ⟨out, retry, decodes, _⟩ := lockSeqAt_decodes (lockGuest_recognised 0)
  obtain ⟨_, stored, _, _, rfl⟩ := guestEmulate_skips (lockGuest_fetches 0) (lockGuest_recognised 0) emulated
  have clear : (lockGuest lockSeq2 0).regs.ppcCR &&& CR0_EQ = 0 := by rw [lockGuest_regs]; decide
  rw [decodes.taken 3 clear] at same
  have pc := congrArg (fun m => m.regs.ppcPC) (Prod.mk.inj (Except.ok.inj same)).2
  simp only [Machine.setRegs_regs, BitVec.add_assoc, add_right_inj] at pc
  exact absurd pc decodes.elsewhere

end ToyHv

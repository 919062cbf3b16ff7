import ToyHv.Memory.Flat

namespace ToyHv

open Library

/-- A transfer whose elements are whole and whose bytes lie in guest RAM. -/
structure InRam (p : Pmem) (ra bytes accessSize : W32) : Prop where
  size : AccessSize accessSize
  whole : bytes.toNat % accessSize.toNat = 0
  bound : ra.toNat + bytes.toNat ≤ p.pmemBytes.toNat

theorem InRam.checks {p : Pmem} {ra bytes s : W32} (h : InRam p ra bytes s) :
    ¬ ra + bytes > p.pmemBytes ∧ ¬ bytes % s ≠ 0 ∧ ¬ (s ≠ 1 ∧ s ≠ 2 ∧ s ≠ 4) := by
  refine ⟨?_, ?_, ?_⟩
  · have bound := h.bound
    have top := p.pmemBytes.isLt
    rw [gt_iff_lt, BitVec.lt_def, BitVec.toNat_add, Nat.mod_eq_of_lt (by omega)]
    omega
  · rw [not_not, ← BitVec.toNat_inj, BitVec.toNat_umod]
    exact h.whole
  · rcases h.size with rfl | rfl | rfl <;> decide

theorem InRam.none {p : Pmem} {ra bytes s : W32} (h : InRam p ra bytes s) (outside : ra ≥ p.pmemBytes) :
    bytes = 0 := by
  have bound := h.bound
  rw [ge_iff_le, BitVec.le_def] at outside
  exact BitVec.eq_of_toNat_eq (by simp only [BitVec.ofNat_eq_ofNat, BitVec.toNat_ofNat]; omega)

theorem Host.put_zero (host : Host) (ha : W32) (src : Buf) : host.put ha 0 src = host := by
  funext a
  simp [Host.put]

theorem Buf.put_zero (buf : Buf) (offset : ℕ) (src : Buf) : buf.put offset 0 src = buf := by
  funext i
  simp only [Buf.put]
  split
  · omega
  · rfl

variable {p : Pmem} {host : Host} {dest src bytes s : W32} {data buf : Buf}

theorem pmemTo_little (h : InRam p dest bytes s) :
    pmemTo true p host dest data bytes s =
      .ok (bytes, pmemToLoop (p.pmem + dest) data s 0 host (bytes / s).toNat) := by
  obtain ⟨fits, whole, size⟩ := h.checks
  unfold pmemTo
  split
  · rename_i outside
    obtain rfl := h.none outside
    simp [pmemToLoop]
  · simp only [bugOn_false whole, bugOn_false size, ok_bind, if_true, pure_ok]

theorem pmemTo_big (h : InRam p dest bytes s) :
    pmemTo false p host dest data bytes s = .ok (bytes, host.put (p.pmem + dest) bytes.toNat data) := by
  obtain ⟨fits, whole, size⟩ := h.checks
  unfold pmemTo
  split
  · rename_i outside
    obtain rfl := h.none outside
    exact congrArg (fun x => Except.ok (0, x)) (host.put_zero _ _).symm
  · simp only [bugOn_false whole, bugOn_false size, ok_bind, Bool.false_eq_true, if_false, pure_ok]

def loopResult (bytes : W32) : Option ℕ × Buf → W32 × Buf
  | (some i, buf) => (BitVec.ofNat 32 i, buf)
  | (none, buf) => (bytes, buf)

theorem pmemFromEx_little {d : ℕ} {flags : W32} (h : InRam p src bytes s)
    (munged : flags &&& PMEM_FROM_FORCE_BE = 0) :
    pmemFromEx true p host buf d src bytes s flags =
      .ok (loopResult bytes (pmemFromLoop (p.pmem + src) host s (flags &&& PMEM_FROM_NUL_TERM ≠ 0) d 0 buf
        (bytes / s).toNat)) := by
  obtain ⟨fits, whole, size⟩ := h.checks
  have forced : decide (flags &&& PMEM_FROM_FORCE_BE ≠ 0) = false := by simp [munged]
  simp only [pmemFromEx, forced, Bool.false_eq_true, not_false_eq_true, and_self, if_true]
  split
  · rename_i outside
    obtain rfl := h.none outside
    simp [pmemFromLoop, loopResult]
  · simp only [bugOn_false whole, bugOn_false size, ok_bind, pure_ok]
    split <;> rename_i result <;> rw [result] <;> rfl

theorem pmemFromEx_big {d : ℕ} (h : InRam p src bytes s) :
    pmemFromEx false p host buf d src bytes s 0 =
      .ok (bytes, buf.put d bytes.toNat fun k => host (p.pmem + src + BitVec.ofNat 32 k)) := by
  obtain ⟨fits, whole, size⟩ := h.checks
  have plain : decide ((0 : W32) &&& PMEM_FROM_NUL_TERM ≠ 0) = false := by decide
  simp only [pmemFromEx, plain, Bool.false_eq_true, false_and, if_false]
  split
  · rename_i outside
    obtain rfl := h.none outside
    exact congrArg (fun x => Except.ok (0, x)) (buf.put_zero _ _).symm
  · simp only [bugOn_false whole, bugOn_false size, ok_bind, pure_ok]

def cutToRam (p : Pmem) (ra bytes : W32) : W32 := if ra + bytes > p.pmemBytes then p.pmemBytes - ra else bytes

theorem toNat_cutToRam (inside : dest < p.pmemBytes) (small : bytes.toNat ≤ 4096) :
    (cutToRam p dest bytes).toNat = min bytes.toNat (p.pmemBytes.toNat - dest.toNat) := by
  have top := p.below_top
  have below := BitVec.lt_def.mp inside
  have pages := p.size_aligned
  have sum : (dest + bytes).toNat = dest.toNat + bytes.toNat := by
    rw [BitVec.toNat_add]
    omega
  unfold cutToRam
  split
  · rename_i beyond
    have past := BitVec.lt_def.mp beyond
    rw [BitVec.toNat_sub_of_le (BitVec.le_of_lt inside)]
    omega
  · rename_i fits
    have bound := BitVec.le_def.mp (BitVec.not_lt.mp fits)
    omega

theorem cutToRam_bound (inside : dest < p.pmemBytes) (small : bytes.toNat ≤ 4096) :
    dest.toNat + (cutToRam p dest bytes).toNat ≤ p.pmemBytes.toNat := by
  have count := toNat_cutToRam inside small
  have below := BitVec.lt_def.mp inside
  omega

theorem cutToRam_inRam (size : AccessSize s) (inside : dest < p.pmemBytes) (small : bytes.toNat ≤ 4096)
    (whole : (cutToRam p dest bytes).toNat % s.toNat = 0) : InRam p dest (cutToRam p dest bytes) s :=
  ⟨size, whole, cutToRam_bound inside small⟩

theorem cutToRam_again (inside : dest < p.pmemBytes) (small : bytes.toNat ≤ 4096) :
    (if dest + cutToRam p dest bytes > p.pmemBytes then p.pmemBytes - dest else cutToRam p dest bytes) =
      cutToRam p dest bytes :=
  if_neg (InRam.checks ⟨.inl rfl, Nat.mod_one _, cutToRam_bound inside small⟩).1

theorem pmemTo_cut (little : Bool) (host : Host) (data : Buf) (s : W32) (inside : dest < p.pmemBytes)
    (small : bytes.toNat ≤ 4096) :
    pmemTo little p host dest data bytes s = pmemTo little p host dest data (cutToRam p dest bytes) s := by
  unfold pmemTo
  simp only [cutToRam_again inside small]
  rfl

theorem pmemFromEx_cut (little : Bool) (host : Host) (buf : Buf) (d : ℕ) (flags s : W32) (inside : src < p.pmemBytes)
    (small : bytes.toNat ≤ 4096) :
    pmemFromEx little p host buf d src bytes s flags =
      pmemFromEx little p host buf d src (cutToRam p src bytes) s flags := by
  unfold pmemFromEx
  simp only [cutToRam_again inside small]
  rfl

/-- A call of `pmem_to` or `pmem_from_ex` with its arguments. -/
inductive PmemCall
  | store (dest : W32) (data : Buf) (bytes accessSize : W32)
  | load (buf : Buf) (d : ℕ) (src bytes accessSize flags : W32)

/-- The calls a well-behaved caller makes: aligned, inside guest RAM and not forced big-endian. -/
def PmemCall.Aligned (p : Pmem) : PmemCall → Prop
  | .store dest _ bytes s => InRam p dest bytes s ∧ dest.toNat % s.toNat = 0
  | .load _ _ src bytes s flags =>
    InRam p src bytes s ∧ src.toNat % s.toNat = 0 ∧ flags &&& PMEM_FROM_FORCE_BE = 0

/-- What the code answers, and host memory afterwards. A store has no buffer to answer with. -/
def PmemCall.run (p : Pmem) (host : Host) : PmemCall → Checked ((W32 × Option Buf) × Host)
  | .store dest data bytes s => do
    let (count, host) ← pmemTo true p host dest data bytes s
    return ((count, none), host)
  | .load buf d src bytes s flags => do
    let (count, buf) ← pmemFromEx true p host buf d src bytes s flags
    return ((count, some buf), host)

/-- What a plain little-endian memory answers to the same call. -/
def PmemCall.flat (mem : FlatMemory 32) : PmemCall → (W32 × Option Buf) × FlatMemory 32
  | .store dest data bytes s => ((bytes, none), flatTo dest data s.toNat 0 mem (bytes / s).toNat)
  | .load buf d src bytes s flags =>
    match flatFrom mem src s.toNat (flags &&& PMEM_FROM_NUL_TERM ≠ 0) d 0 buf (bytes / s).toNat with
    | (some i, buf) => ((BitVec.ofNat 32 i, some buf), mem)
    | (none, buf) => ((bytes, some buf), mem)

def runCalls (p : Pmem) (host : Host) : List PmemCall → Checked (List (W32 × Option Buf) × Host)
  | [] => .ok ([], host)
  | call :: calls => do
    let (answer, host) ← call.run p host
    let (answers, host) ← runCalls p host calls
    return (answer :: answers, host)

def flatCalls (mem : FlatMemory 32) : List PmemCall → List (W32 × Option Buf) × FlatMemory 32
  | [] => ([], mem)
  | call :: calls =>
    let (answer, mem) := call.flat mem
    let (answers, mem) := flatCalls mem calls
    (answer :: answers, mem)

theorem PmemCall.refines_flat {call : PmemCall} (host : Host) (aligned : call.Aligned p) :
    ∃ host', call.run p host = .ok ((call.flat (flatView p host)).1, host') ∧
      flatView p host' = (call.flat (flatView p host)).2 := by
  cases call with
  | store dest data bytes s =>
    obtain ⟨inside, element⟩ := aligned
    refine ⟨_, by rw [PmemCall.run, pmemTo_little inside]; rfl, ?_⟩
    exact flatView_pmemToLoop p inside.size element data host _ 0 (Nat.zero_mod _)
  | load buf d src bytes s flags =>
    obtain ⟨inside, element, munged⟩ := aligned
    refine ⟨host, ?_, ?_⟩
    · rw [PmemCall.run, pmemFromEx_little inside munged, pmemFromLoop_flat p inside.size element _ _ _ _ _ _
        (Nat.zero_mod _), PmemCall.flat]
      generalize flatFrom (flatView p host) src _ _ _ _ _ _ = result
      rcases result with ⟨_ | i, copied⟩ <;> rfl
    · rw [PmemCall.flat]
      split <;> rfl

/-- The guest addresses a call stores to. -/
def PmemCall.Writes (x : W32) : PmemCall → Prop
  | .store dest _ bytes _ => ∃ j < bytes.toNat, x = dest + BitVec.ofNat 32 j
  | .load .. => False

theorem PmemCall.flat_frame {call : PmemCall} (aligned : call.Aligned p) {x : W32} (outside : ¬ call.Writes x)
    (mem : FlatMemory 32) : (call.flat mem).2 x = mem x := by
  cases call with
  | store dest data bytes s =>
    have whole : s.toNat * (bytes / s).toNat = bytes.toNat := by
      rw [BitVec.toNat_udiv]
      exact Nat.mul_div_cancel' (Nat.dvd_of_mod_eq_zero aligned.1.whole)
    refine flatTo_frame dest data s.toNat _ 0 mem fun j _ inside same => outside ⟨j, by omega, same⟩
  | load buf d src bytes s flags =>
    rw [PmemCall.flat]
    split <;> rfl

/-- Any sequence of aligned transfers in little-endian mode answers as a plain
    little-endian memory would, leaves what that memory holds, and changes no other byte. -/
theorem munged_memory_is_flat (p : Pmem) (host : Host) (calls : List PmemCall)
    (aligned : ∀ call ∈ calls, call.Aligned p) :
    ∃ host', runCalls p host calls = .ok ((flatCalls (flatView p host) calls).1, host') ∧
      flatView p host' = (flatCalls (flatView p host) calls).2 ∧
      ∀ x, (∀ call ∈ calls, ¬ call.Writes x) → flatView p host' x = flatView p host x := by
  induction calls generalizing host with
  | nil => exact ⟨host, rfl, rfl, fun _ _ => rfl⟩
  | cons call calls ih =>
    have first := aligned call (by simp)
    obtain ⟨next, answered, view⟩ := PmemCall.refines_flat host first
    obtain ⟨final, rest, same, frame⟩ := ih next fun later member => aligned later (List.mem_cons_of_mem _ member)
    refine ⟨final, ?_, ?_, fun x outside => ?_⟩
    · rw [view] at rest
      simp only [runCalls, answered, rest, ok_bind, flatCalls, pure_ok]
    · rw [same, view]
      rfl
    · rw [frame x fun later member => outside later (List.mem_cons_of_mem _ member), view]
      exact PmemCall.flat_frame first (outside call (by simp)) _

theorem word_store_byte_loads :
    ∃ host' buf, runCalls ⟨0, 0x1000, by decide, by decide, by decide⟩ (fun _ => 0)
      [.store 8 (wordBytes 0x01020304) 4 4, .load (fun _ => 0) 0 8 4 1 0] =
        .ok ([(4, none), (4, some buf)], host') ∧ (List.range 4).map buf = [4, 3, 2, 1] := by
  have aligned : ∀ call ∈ [PmemCall.store 8 (wordBytes 0x01020304) 4 4, .load (fun _ => 0) 0 8 4 1 0],
      call.Aligned ⟨0, 0x1000, by decide, by decide, by decide⟩ := by
    intro call member
    rcases List.mem_cons.mp member with rfl | member
    · exact ⟨⟨.inr (.inr rfl), by decide, by decide⟩, by decide⟩
    · obtain rfl := List.mem_singleton.mp member
      exact ⟨⟨.inl rfl, by decide, by decide⟩, by decide, by decide⟩
  obtain ⟨host', answers, _⟩ := munged_memory_is_flat _ (fun _ => 0) _ aligned
  exact ⟨host', _, answers, by decide⟩

end ToyHv

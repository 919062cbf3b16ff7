import ToyHv.Model.Guest

namespace ToyHv

/-- How much of a transfer the page of an address can take: `xfer_size` in the guest's loops. -/
def xferSizeAt (ea left : W32) : W32 := minOf (PAGE_SIZE - (ea &&& PAGE_MASK)) left

theorem toNat_xferSizeAt (ea left : W32) :
    (xferSizeAt ea left).toNat = min (4096 - ea.toNat % 4096) left.toNat := by
  have offset := toNat_page_offset ea
  have room : (PAGE_SIZE - (ea &&& PAGE_MASK)).toNat = 4096 - ea.toNat % 4096 := by
    rw [BitVec.toNat_sub, offset]
    simp only [PAGE_SIZE, BitVec.ofNat_eq_ofNat, BitVec.toNat_ofNat]
    omega
  rw [xferSizeAt, toNat_minOf, room]

theorem left_decreases {ea left xferred : W32} (whole : ¬ (xferred ≠ xferSizeAt ea left ∨ left - xferred = 0)) :
    (left - xferred).toNat < left.toNat := by
  rw [not_or, not_not] at whole
  obtain ⟨rfl, more⟩ := whole
  have size := toNat_xferSizeAt ea left
  have some : (left - xferSizeAt ea left).toNat ≠ 0 := fun h => more (BitVec.eq_of_toNat_eq h)
  rw [BitVec.toNat_sub_of_le (BitVec.le_def.mpr (by omega))] at some ⊢
  omega

/-- The loop of `guest_from_ex` with `left` bytes to go, from `src` to offset `d` of the
    buffer: what is left when it ends, and the buffer. -/
def guestFromLoop (m : Machine) (buf : Buf) (d : ℕ) (src left accessSize : W32) (nulTerm : Bool) :
    Checked (W32 × Buf) := do
  let (err, gra) ← guestBackmap m src (wordAt m.garbage 0)
  if err ≠ .none then
    return (left, buf)
  else
    let (xferred, buf) ← pmemFromEx (guestIsLittle m.guest) m.ram m.host buf d gra (xferSizeAt src left)
      accessSize (if nulTerm then PMEM_FROM_NUL_TERM else 0)
    if ended : xferred ≠ xferSizeAt src left ∨ left - xferred = 0 then
      return (left - xferred, buf)
    else
      guestFromLoop m buf (d + (xferSizeAt src left).toNat) (src + xferSizeAt src left) (left - xferred)
        accessSize nulTerm
termination_by left.toNat
decreasing_by exact left_decreases ended

/-- `guest_from_ex`: the count it returns and the buffer afterwards. -/
def guestFromEx (m : Machine) (buf : Buf) (src bytes accessSize : W32) (nulTerm : Bool) :
    Checked (W32 × Buf) := do
  bugOn (nulTerm ∧ accessSize ≠ 1) .invalidAccessSizeAndNulTerm
  let (left, buf) ← guestFromLoop m buf 0 src bytes accessSize nulTerm
  return (bytes - left, buf)

def guestFrom (m : Machine) (buf : Buf) (src bytes accessSize : W32) : Checked (Err × Buf) := do
  let (xferred, buf) ← guestFromEx m buf src bytes accessSize false
  return (if xferred ≠ bytes then .badAccess else .none, buf)

/-- The loop of `guest_to`: what is left when it ends, and the machine. -/
def guestToLoop (m : Machine) (dest : W32) (src : Buf) (left accessSize : W32) : Checked (W32 × Machine) := do
  let (err, gra) ← guestBackmap m dest (wordAt m.garbage 0)
  if err ≠ .none then
    return (left, m)
  else
    let (xferred, host) ← pmemTo (guestIsLittle m.guest) m.ram m.host gra src (xferSizeAt dest left) accessSize
    if ended : xferred ≠ xferSizeAt dest left ∨ left - xferred = 0 then
      return (left - xferred, { m with host })
    else
      guestToLoop { m with host } (dest + xferSizeAt dest left)
        (fun i => src ((xferSizeAt dest left).toNat + i)) (left - xferred) accessSize
termination_by left.toNat
decreasing_by exact left_decreases ended

def guestTo (m : Machine) (dest : W32) (src : Buf) (bytes accessSize : W32) : Checked (Err × Machine) := do
  let (left, m) ← guestToLoop m dest src bytes accessSize
  return (if left ≠ 0 then .badAccess else .none, m)

theorem guestToLoop_frame {m m' : Machine} {dest left s count : W32} {src : Buf}
    (looped : guestToLoop m dest src left s = .ok (count, m')) : ∃ host, m' = { m with host } := by
  induction n : left.toNat using Nat.strong_induction_on generalizing m dest src left with
  | _ n ih =>
  subst n
  rw [guestToLoop] at looped
  simp only [bind_ok] at looped
  obtain ⟨⟨err, gra⟩, _, looped⟩ := looped
  split at looped
  · simp only [pure_ok, Except.ok.injEq, Prod.mk.injEq] at looped
    exact ⟨m.host, looped.2.symm⟩
  · simp only [bind_ok] at looped
    obtain ⟨⟨xferred, host⟩, _, looped⟩ := looped
    split at looped
    · simp only [pure_ok, Except.ok.injEq, Prod.mk.injEq] at looped
      exact ⟨host, looped.2.symm⟩
    · rename_i unfinished
      obtain ⟨later, same⟩ := ih _ (left_decreases unfinished) looped rfl
      exact ⟨later, same⟩

theorem guestTo_frame {m m' : Machine} {dest n s : W32} {src : Buf} {err : Err}
    (stored : guestTo m dest src n s = .ok (err, m')) : ∃ host, m' = { m with host } := by
  simp only [guestTo, bind_ok, pure_ok, Except.ok.injEq, Prod.mk.injEq] at stored
  obtain ⟨⟨left, last⟩, looped, _, rfl⟩ := stored
  exact guestToLoop_frame looped

/-- `guest_from_x` of a word into a local that holds `old`. -/
def guestFromX (m : Machine) (old : W32) (src : W32) : Checked (Err × W32) := do
  let (err, buf) ← guestFrom m (wordBytes old) src 4 4
  return (err, wordAt buf 0)

def guestToX (m : Machine) (dest : W32) (word : W32) : Checked (Err × Machine) :=
  guestTo m dest (wordBytes word) 4 4

/-- The label `done` of `rom_child`, `rom_peer`, `rom_parent` and `rom_write`. Their last `ON_ERROR` jumps back
    to it, so a result that cannot be stored is stored again, without end. -/
def storeResult (m : Machine) (dest : W32) (word : W32) : Checked (Err × Machine) := do
  let (err, m) ← guestToX m dest word
  if err ≠ .none then .error .stillRunning else return (err, m)

theorem storeResult_ok {m u : Machine} {dest word : W32} {err : Err} (stored : storeResult m dest word = .ok (err, u)) :
    err = .none ∧ guestToX m dest word = .ok (.none, u) := by
  simp only [storeResult, bind_ok] at stored
  obtain ⟨⟨told, v⟩, moved, ended⟩ := stored
  split at ended
  · cases ended
  · rename_i done
    obtain rfl : told = .none := not_not.mp done
    obtain ⟨rfl, rfl⟩ := Prod.mk.inj (Except.ok.inj ended)
    exact ⟨rfl, moved⟩

/-- A last step that stores in guest memory and changes nothing else. -/
def Stores (store : Machine → W32 → W32 → Checked (Err × Machine)) : Prop :=
  ∀ {m u : Machine} {dest word : W32} {err : Err}, store m dest word = .ok (err, u) → ∃ host, u = { m with host }

theorem guestToX_stores : Stores guestToX := guestTo_frame

theorem storeResult_stores : Stores storeResult := fun stored => guestTo_frame (storeResult_ok stored).2

end ToyHv

import ToyHv.Memory.RoundTrip
import ToyHv.Memory.Scalars

namespace ToyHv

variable {m u : Machine} {ea : W32}

def Translatable (m : Machine) (ea : W32) : Prop :=
  ∃ gra, guestBackmap m ea (wordAt m.garbage 0) = .ok (.none, gra) ∧ gra < m.ram.pmemBytes

theorem pmemTo_word {little : Bool} {p : Pmem} {host host' : Host} {gra bytes count : W32} {src : Buf}
    (inside : gra < p.pmemBytes) (some : 0 < bytes.toNat) (most : bytes.toNat ≤ 4)
    (stored : pmemTo little p host gra src bytes 4 = .ok (count, host')) : bytes = 4 ∧ count = 4 := by
  have checked := stored
  rw [pmemTo, if_neg (BitVec.not_le.mpr inside)] at checked
  simp only [bind_ok, bugOn_ok, not_not] at checked
  obtain ⟨_, whole, _⟩ := checked
  obtain ⟨rfl, scalar⟩ := scalar_whole inside (.inr (.inr rfl)) some most whole
  rw [pmemTo_scalar little host src scalar] at stored
  exact ⟨rfl, (Prod.mk.inj (Except.ok.inj stored)).1.symm⟩

theorem guestToX_none_iff {word : W32} {err : Err} (stored : guestToX m ea word = .ok (err, u)) :
    err = .none ↔ Translatable m ea := by
  have size : AccessSize 4 := .inr (.inr rfl)
  have fits := guestTo_fits size stored
  by_cases there : Translatable m ea
  · obtain ⟨gra, looked, inside⟩ := there
    have moved := stored.symm.trans (fits.stored size looked inside (wordBytes word))
    exact iff_of_true (Prod.mk.inj (Except.ok.inj moved)).1 ⟨gra, looked, inside⟩
  · have refused := stored.symm.trans (fits.store_refused size there (wordBytes word))
    rw [(Prod.mk.inj (Except.ok.inj refused)).1]
    exact iff_of_false (by decide) there

theorem guestToX_word (aligned : ea.toNat % 4 = 0) (word : W32) :
    guestToX m ea word = (guestBackmap m ea (wordAt m.garbage 0) >>= fun (err, gra) =>
      if err = .none ∧ gra < m.ram.pmemBytes then
        pmemTo (guestIsLittle m.guest) m.ram m.host gra (wordBytes word) 4 4 >>= fun (_, host) =>
          pure (.none, { m with host })
      else pure (.badAccess, m)) := by
  have whole : xferSizeAt ea 4 = 4 := by
    apply xferSizeAt_scalar
    change ea.toNat % 4096 + 4 ≤ 4096
    omega
  rw [guestToX, guestTo, guestToLoop]
  cases guestBackmap m ea (wordAt m.garbage 0) with
  | error message => rfl
  | ok answer =>
    obtain ⟨err, gra⟩ := answer
    simp only [ok_bind]
    by_cases found : err = .none
    · by_cases inside : gra < m.ram.pmemBytes
      · simp only [found, inside, whole, ne_eq, not_true_eq_false, if_false, and_self, if_true]
        cases stored : pmemTo (guestIsLittle m.guest) m.ram m.host gra (wordBytes word) 4 4 with
        | error message => rfl
        | ok result =>
          obtain ⟨count, host⟩ := result
          obtain ⟨_, rfl⟩ := pmemTo_word inside (by decide) (by decide) stored
          simp only [ok_bind, sub_self, or_true, dif_pos, pure_ok, not_true_eq_false, if_false]
      · have missing : pmemTo (guestIsLittle m.guest) m.ram m.host gra (wordBytes word) 4 4 = .ok (0, m.host) :=
          if_pos (BitVec.not_lt.mp inside)
        simp only [found, inside, whole, missing, ne_eq, not_true_eq_false, if_false, and_false, ok_bind]
        rfl
    · simp only [found, ne_eq, not_false_eq_true, if_true, false_and, if_false]
      rfl

structure Writable (m : Machine) (ea : W32) : Prop where
  fits : ScalarFits m ea 4
  there : Translatable m ea

theorem Writable.of_maps {page : W32 → W32} (aligned : ea.toNat % 4 = 0) (map : Maps m page ea 4) : Writable m ea := by
  have answer := map.answers 0 (by decide) (wordAt m.garbage 0)
  have room := map.room (by decide : 0 < 4)
  rw [BitVec.add_zero] at answer room
  have inside : realOf page ea < m.ram.pmemBytes := by
    rw [BitVec.lt_def]
    omega
  refine ⟨⟨guestBackmap_total.mp ⟨_, answer⟩, fun gra looked _ => ?_⟩, _, answer, inside⟩
  obtain ⟨_, rfl⟩ := Prod.mk.inj (Except.ok.inj (answer.symm.trans looked))
  change ea.toNat % 4096 + 4 ≤ 4096 ∧ (realOf page ea).toNat + 4 ≤ m.ram.pmemBytes.toNat
  omega

theorem put_back (host : Host) (buf : Buf) (ha n : W32) (src : Buf) {k : ℕ} (inside : k < n.toNat) :
    (buf.put 0 n.toNat fun i => host.put ha n.toNat src (ha + BitVec.ofNat 32 i)) k = src k := by
  have small := n.isLt
  have offset : ha + BitVec.ofNat 32 k - ha = BitVec.ofNat 32 k := by ring
  have value : (BitVec.ofNat 32 k).toNat = k := by
    rw [BitVec.toNat_ofNat]
    omega
  rw [Buf.put, if_pos ⟨Nat.zero_le k, by omega⟩, Host.put, Nat.sub_zero, offset, value, if_pos inside]

theorem guestFromX_of_loaded {old : W32} {err : Err} {buf : Buf}
    (loaded : guestFrom m (wordBytes old) ea 4 4 = .ok (err, buf)) : guestFromX m old ea = .ok (err, wordAt buf 0) := by
  rw [guestFromX, loaded]
  rfl

theorem Writable.word (writable : Writable m ea) (word : W32) :
    ∃ host, guestToX m ea word = .ok (.none, { m with host }) ∧
      ∀ old, guestFromX { m with host } old ea = .ok (.none, word) := by
  have size : AccessSize 4 := .inr (.inr rfl)
  obtain ⟨gra, looked, inside⟩ := writable.there
  have stored := writable.fits.stored size looked inside (wordBytes word)
  refine ⟨_, stored, fun old => ?_⟩
  have loaded := (writable.fits.frame (m.host.put (scalarHa (guestIsLittle m.guest) m.ram gra 4) (4 : W32).toNat
    (wordBytes word))).loaded size looked inside (wordBytes old)
  rw [guestFromX_of_loaded loaded, wordAt, put_back _ _ _ _ _ (by decide), put_back _ _ _ _ _ (by decide),
    put_back _ _ _ _ _ (by decide), put_back _ _ _ _ _ (by decide)]
  exact congrArg (fun w => Except.ok (Err.none, w)) (wordAt_wordBytes word)

theorem Writable.quiet (writable : Writable m ea) (os : Os) (handles : List Ihandle) (xferBuf : Buf) :
    Writable { m with os, rom := { m.rom with knownIhandles := handles, xferBuf } } ea :=
  ⟨writable.fits.quiet m.host os handles xferBuf, writable.there⟩

theorem guestToX_missing (fits : ScalarFits m ea 4) (missing : ¬ Translatable m ea) (word : W32) :
    guestToX m ea word = .ok (.badAccess, m) :=
  fits.store_refused (.inr (.inr rfl)) missing (wordBytes word)

/-- `turns` times through the label `done`. -/
def doneLoop (dest word : W32) : ℕ → Machine → Checked (Err × Machine)
  | 0, _ => .error .stillRunning
  | turns + 1, m => do
    let (err, m) ← guestToX m dest word
    if err ≠ .none then doneLoop dest word turns m else return (err, m)

/-- A store that failed changed nothing, so it fails in every turn. -/
theorem doneLoop_eq (m : Machine) (dest word : W32) (turns : ℕ) :
    doneLoop dest word (turns + 1) m = storeResult m dest word := by
  induction turns generalizing m with
  | zero => rfl
  | succ turns ih =>
    rw [doneLoop, storeResult]
    cases stored : guestToX m dest word with
    | error message => rfl
    | ok answer =>
      obtain ⟨err, u⟩ := answer
      by_cases done : err = .none
      · simp only [ok_bind, done, ne_eq, not_true_eq_false, if_false]
      · have missing : ¬ Translatable m dest := fun there => done ((guestToX_none_iff stored).mpr there)
        have fits : ScalarFits m dest 4 := guestTo_fits (.inr (.inr rfl)) stored
        have refused := guestToX_missing fits missing word
        obtain ⟨rfl, rfl⟩ := Prod.mk.inj (Except.ok.inj (stored.symm.trans refused))
        simp only [ok_bind, ne_eq, done, not_false_eq_true, if_true, ih]
        rw [storeResult, refused]
        rfl

theorem storeResult_stuck (fits : ScalarFits m ea 4) (missing : ¬ Translatable m ea) (word : W32) :
    storeResult m ea word = .error .stillRunning := by
  rw [storeResult, guestToX_missing fits missing]
  rfl

theorem Writable.of_result {word : W32} {err : Err} (stored : storeResult m ea word = .ok (err, u)) :
    Writable m ea := by
  obtain ⟨_, moved⟩ := storeResult_ok stored
  exact ⟨guestTo_fits (.inr (.inr rfl)) moved, (guestToX_none_iff moved).mp rfl⟩

theorem Writable.result (writable : Writable m ea) (word : W32) :
    ∃ host, storeResult m ea word = .ok (.none, { m with host }) ∧
      ∀ old, guestFromX { m with host } old ea = .ok (.none, word) := by
  obtain ⟨host, stored, back⟩ := writable.word word
  refine ⟨host, ?_, back⟩
  rw [storeResult, stored]
  rfl

end ToyHv

import Mathlib.Tactic.IntervalCases
import ToyHv.Memory.Paging

namespace ToyHv
open Library

variable {m : Machine} {page : W32 → W32} {ea left s : W32}

theorem guestToLoop_turn {data : Buf} {gra : W32} {host : Host}
    (answer : guestBackmap m ea (wordAt m.garbage 0) = .ok (.none, gra))
    (stored : pmemTo (guestIsLittle m.guest) m.ram m.host gra data (xferSizeAt ea left) s =
      .ok (xferSizeAt ea left, host)) :
    guestToLoop m ea data left s =
      if left - xferSizeAt ea left = 0 then .ok (0, { m with host })
      else guestToLoop { m with host } (ea + xferSizeAt ea left) (fun i => data ((xferSizeAt ea left).toNat + i))
        (left - xferSizeAt ea left) s := by
  rw [guestToLoop]
  simp only [answer, ok_bind, ne_eq, not_true_eq_false, if_false, stored, false_or]
  split
  · rename_i done
    rw [done]
    rfl
  · rfl

/-- The store loop over a translated range: every byte arrives at its image, no other byte
    of the guest changes. -/
theorem guestToLoop_view (size : AccessSize s) (data : Buf) (aligned : ea.toNat % s.toNat = 0)
    (whole : left.toNat % s.toNat = 0) (map : Translates m page ea left.toNat) :
    ∃ host', guestToLoop m ea data left s = .ok (0, { m with host := host' }) ∧
      (∀ i < left.toNat, guestView (guestIsLittle m.guest) m.ram host' (realOf page (ea + BitVec.ofNat 32 i)) =
        data (lane (guestIsLittle m.guest) s.toNat i)) ∧
      ∀ x, (∀ i < left.toNat, realOf page (ea + BitVec.ofNat 32 i) ≠ x) →
        guestView (guestIsLittle m.guest) m.ram host' x = guestView (guestIsLittle m.guest) m.ram m.host x := by
  induction n : left.toNat using Nat.strong_induction_on generalizing m ea left data with
  | _ n ih =>
  subst n
  by_cases none : left = 0
  · subst none
    obtain ⟨⟨err, gra⟩, answer⟩ := map.total (wordAt m.garbage 0)
    refine ⟨m.host, ?_, fun i bound => absurd bound (Nat.not_lt_zero i), fun _ _ => rfl⟩
    rw [guestToLoop]
    simp only [answer, ok_bind, xferSizeAt_zero, pmemTo_zero _ size, sub_self, or_true, dite_true, pure_ok, ite_self]
  · have more := pos_of_ne_zero none
    have chunk := chunk_ok size aligned whole more map.toMaps
    have answer := map.answers 0 more (wordAt m.garbage 0)
    rw [BitVec.add_zero] at answer
    obtain ⟨host, stored, view⟩ := pmemTo_view (guestIsLittle m.guest) m.host data chunk.inRam
      chunk.aligned
    -- what the chunk stored, at the addresses it stored it to
    have here : ∀ i < (xferSizeAt ea left).toNat, guestView (guestIsLittle m.guest) m.ram host
        (realOf page (ea + BitVec.ofNat 32 i)) = data (lane (guestIsLittle m.guest) s.toNat i) := by
      intro i inside
      have offset : (realOf page ea + BitVec.ofNat 32 i - realOf page ea).toNat = i := by
        have small := (xferSizeAt ea left).isLt
        rw [add_sub_cancel_left, BitVec.toNat_ofNat, Nat.mod_eq_of_lt (by omega)]
      rw [chunk.real i inside, view, offset, if_pos inside]
    have frame : ∀ x, (∀ i < left.toNat, realOf page (ea + BitVec.ofNat 32 i) ≠ x) →
        guestView (guestIsLittle m.guest) m.ram host x = guestView (guestIsLittle m.guest) m.ram m.host x := by
      intro x apart
      rw [view, if_neg]
      intro inside
      refine apart _ (Nat.lt_of_lt_of_le inside chunk.bound) ?_
      rw [chunk.real _ inside, BitVec.ofNat_toNat, BitVec.setWidth_eq, add_sub_cancel]
    rw [guestToLoop_turn answer stored]
    split
    · rename_i done
      exact ⟨host, rfl, chunk.last done ▸ here, frame⟩
    · rename_i unfinished
      have shorter := chunk.more unfinished
      have dropped := (map.drop shorter).frame host
      rw [BitVec.ofNat_toNat, BitVec.setWidth_eq, ← chunk.difference] at dropped
      obtain ⟨final, looped, arrived, others⟩ := ih _ (chunk.decreases more)
        (fun i => data ((xferSizeAt ea left).toNat + i)) chunk.step chunk.rest dropped rfl
      simp only [add_toNat, chunk.difference] at arrived others
      refine ⟨final, looped, fun i bound => ?_, fun x apart => ?_⟩
      · rcases Nat.lt_or_ge i (xferSizeAt ea left).toNat with inside | beyond
        · rw [← here i inside]
          refine others _ fun j later same => ?_
          have clash := map.injective left.isLt.le (by omega) (by omega) same
          omega
        · obtain ⟨j, rfl⟩ := Nat.exists_eq_add_of_le beyond
          rw [lane_add _ size.pos chunk.inRam.whole]
          exact arrived j (by omega)
      · rw [← frame x apart]
        exact others x fun j later => apart _ (by omega)

theorem Buf.put_put (buf : Buf) {d c n : ℕ} (src : Buf) (bound : c ≤ n) :
    (buf.put d c src).put (d + c) (n - c) (fun i => src (c + i)) = buf.put d n src := by
  funext j
  simp only [Buf.put]
  by_cases later : d + c ≤ j ∧ j < d + c + (n - c)
  · have inside : d ≤ j ∧ j < d + n := by omega
    have shift : c + (j - (d + c)) = j - d := by omega
    rw [if_pos later, if_pos inside, shift]
  · have same : (d ≤ j ∧ j < d + c) = (d ≤ j ∧ j < d + n) := propext (by omega)
    simp only [if_neg later, same]

theorem guestFromLoop_turn {buf copied : Buf} {d : ℕ} {gra : W32}
    (answer : guestBackmap m ea (wordAt m.garbage 0) = .ok (.none, gra))
    (loaded : pmemFromEx (guestIsLittle m.guest) m.ram m.host buf d gra (xferSizeAt ea left) s 0 =
      .ok (xferSizeAt ea left, copied)) :
    guestFromLoop m buf d ea left s false =
      if left - xferSizeAt ea left = 0 then .ok (0, copied)
      else guestFromLoop m copied (d + (xferSizeAt ea left).toNat) (ea + xferSizeAt ea left)
        (left - xferSizeAt ea left) s false := by
  rw [guestFromLoop]
  simp only [answer, ok_bind, ne_eq, not_true_eq_false, if_false, Bool.false_eq_true, loaded, false_or]
  split
  · rename_i done
    rw [done]
    rfl
  · rfl

theorem guestFromLoop_view (size : AccessSize s) (buf : Buf) (d : ℕ) (aligned : ea.toNat % s.toNat = 0)
    (whole : left.toNat % s.toNat = 0) (map : Maps m page ea left.toNat) :
    guestFromLoop m buf d ea left s false = .ok (0, buf.put d left.toNat fun i =>
      guestView (guestIsLittle m.guest) m.ram m.host
        (realOf page (ea + BitVec.ofNat 32 (lane (guestIsLittle m.guest) s.toNat i)))) := by
  induction n : left.toNat using Nat.strong_induction_on generalizing ea left buf d with
  | _ n ih =>
  subst n
  by_cases none : left = 0
  · subst none
    obtain ⟨⟨err, gra⟩, answer⟩ := map.total (wordAt m.garbage 0)
    have nothing : (0 : W32).toNat = 0 := rfl
    rw [nothing, Buf.put_zero, guestFromLoop]
    simp only [answer, ok_bind, xferSizeAt_zero, Bool.false_eq_true, if_false, pmemFromEx_zero _ size, sub_self,
      or_true, dite_true, pure_ok, ite_self]
  · have more := pos_of_ne_zero none
    have chunk := chunk_ok size aligned whole more map
    have answer := map.answers 0 more (wordAt m.garbage 0)
    rw [BitVec.add_zero] at answer
    have loaded := pmemFromEx_view (guestIsLittle m.guest) m.host buf d chunk.inRam
      chunk.aligned
    have here : (buf.put d (xferSizeAt ea left).toNat fun k => guestView (guestIsLittle m.guest) m.ram m.host
        (realOf page ea + BitVec.ofNat 32 (lane (guestIsLittle m.guest) s.toNat k))) =
        buf.put d (xferSizeAt ea left).toNat fun k => guestView (guestIsLittle m.guest) m.ram m.host
          (realOf page (ea + BitVec.ofNat 32 (lane (guestIsLittle m.guest) s.toNat k))) :=
      Buf.put_congr fun k bound => by rw [chunk.real _ (lane_lt _ size.pos chunk.inRam.whole bound)]
    rw [here] at loaded
    rw [guestFromLoop_turn answer loaded]
    split
    · rename_i done
      rw [chunk.last done]
    · rename_i unfinished
      rw [ih _ (chunk.decreases more) _ _ chunk.step chunk.rest (chunk.drop unfinished map) rfl, chunk.difference]
      simp only [add_toNat, ← lane_add _ size.pos chunk.inRam.whole]
      refine congrArg (fun copied => Except.ok (0, copied)) ?_
      exact Buf.put_put _ _ chunk.bound

theorem guestFrom_view (size : AccessSize s) (buf : Buf) (aligned : ea.toNat % s.toNat = 0)
    (whole : left.toNat % s.toNat = 0) (map : Maps m page ea left.toNat) :
    guestFrom m buf ea left s = .ok (.none, buf.put 0 left.toNat fun i =>
      guestView (guestIsLittle m.guest) m.ram m.host
        (realOf page (ea + BitVec.ofNat 32 (lane (guestIsLittle m.guest) s.toNat i)))) := by
  have loaded := guestFromLoop_view size buf 0 aligned whole map
  have checked : ¬ (false = true ∧ s ≠ 1) := by simp
  simp only [guestFrom, guestFromEx, bugOn_false checked, loaded, ok_bind, sub_zero, pure_ok, ne_eq, not_true_eq_false,
    if_false]

theorem wordAt_wordBytes (w : W32) : wordAt (wordBytes w) 0 = w := by
  apply BitVec.eq_of_getLsbD_eq
  intro i bound
  simp only [wordAt, wordBytes, BitVec.getLsbD_append]
  interval_cases i <;> simp

theorem guestFromX_big {word : W32} (old : W32) (big : guestIsLittle m.guest = false) (aligned : ea.toNat % 4 = 0)
    (map : Maps m page ea 4)
    (holds : ∀ k < 4, m.host (m.ram.pmem + realOf page (ea + BitVec.ofNat 32 k)) = wordBytes word k) :
    guestFromX m old ea = .ok (.none, word) := by
  have loaded : guestFrom m (wordBytes old) ea 4 4 = _ :=
    guestFrom_view (.inr (.inr rfl)) (wordBytes old) aligned (by decide) map
  have bytes : ∀ k < 4, ((wordBytes old).put 0 (4 : W32).toNat fun i => guestView (guestIsLittle m.guest) m.ram m.host
      (realOf page (ea + BitVec.ofNat 32 (lane (guestIsLittle m.guest) (4 : W32).toNat i)))) k = wordBytes word k := by
    intro k inside
    have within : 0 ≤ k ∧ k < 0 + (4 : W32).toNat := ⟨Nat.zero_le k, by rw [Nat.zero_add]; exact inside⟩
    rw [← holds k inside, big]
    simp only [Buf.put, if_pos within]
    rfl
  simp only [guestFromX, loaded, ok_bind, pure_ok]
  rw [wordAt, bytes 0 (by decide), bytes 1 (by decide), bytes 2 (by decide), bytes 3 (by decide)]
  exact congrArg (fun w => Except.ok (Err.none, w)) (wordAt_wordBytes word)

def wordsAt (p : Pmem) (words : ℕ → W32) : Host := fun a =>
  wordBytes (words ((a - p.pmem).toNat / 4)) ((a - p.pmem).toNat % 4)

theorem wordsAt_byte (p : Pmem) (words : ℕ → W32) {a : ℕ} (bound : a < 2^32) :
    wordsAt p words (p.pmem + BitVec.ofNat 32 a) = wordBytes (words (a / 4)) (a % 4) := by
  have offset : (p.pmem + BitVec.ofNat 32 a - p.pmem).toNat = a := by
    rw [add_sub_cancel_left, BitVec.toNat_ofNat]
    omega
  rw [wordsAt, offset]

theorem wordsAt_cell (p : Pmem) (words : ℕ → W32) {i k : ℕ} (byte : k < 4) (bound : 4 * i + k < 2^32) :
    wordsAt p words (p.pmem + BitVec.ofNat 32 (4 * i + k)) = wordBytes (words i) k := by
  have word : (4 * i + k) / 4 = i := by omega
  have lane : (4 * i + k) % 4 = k := by omega
  rw [wordsAt_byte p words bound, word, lane]

theorem guestFromX_real {x : ℕ} {word : W32} (old : W32) (real : m.guest.msr &&& MSR_MMU_ON ≠ MSR_MMU_ON)
    (big : guestIsLittle m.guest = false) (aligned : x % 4 = 0) (bound : x + 4 ≤ m.ram.pmemBytes.toNat)
    (holds : ∀ k < 4, m.host (m.ram.pmem + BitVec.ofNat 32 (x + k)) = wordBytes word k) :
    guestFromX m old (BitVec.ofNat 32 x) = .ok (.none, word) := by
  have top := m.ram.pmemBytes.isLt
  have map : Maps m id (BitVec.ofNat 32 x) 4 := by
    refine (real_mode_translates real fun i inside => ?_).toMaps
    rw [BitVec.lt_def, ← BitVec.ofNat_add, BitVec.toNat_ofNat]
    omega
  have start : (BitVec.ofNat 32 x).toNat % 4 = 0 := by
    rw [BitVec.toNat_ofNat]
    omega
  apply guestFromX_big old big start map
  intro k inside
  rw [realOf_id, ← BitVec.ofNat_add]
  exact holds k inside

/-- Bytes written through `guest_to` come back through `guest_from`, in either mode and however
    the pages lie, and every other byte of the guest keeps its value. -/
theorem guest_memory_round_trip (m : Machine) (page : W32 → W32) (ea n s : W32) (data old : Buf)
    (size : AccessSize s) (aligned : ea.toNat % s.toNat = 0) (whole : n.toNat % s.toNat = 0)
    (map : Translates m page ea n.toNat) :
    ∃ host' buf, guestTo m ea data n s = .ok (.none, { m with host := host' }) ∧
      guestFrom { m with host := host' } old ea n s = .ok (.none, buf) ∧
      (∀ i < n.toNat, buf i = data i) ∧
      ∀ x, (∀ i < n.toNat, realOf page (ea + BitVec.ofNat 32 i) ≠ x) →
        guestView (guestIsLittle m.guest) m.ram host' x = guestView (guestIsLittle m.guest) m.ram m.host x := by
  obtain ⟨host', stored, arrived, others⟩ := guestToLoop_view size data aligned whole map
  refine ⟨host', _, ?_, guestFrom_view size old aligned whole (map.toMaps.frame host'), ?_, others⟩
  · simp only [guestTo, stored, ok_bind, ne_eq, not_true_eq_false, if_false, pure_ok]
  · intro i bound
    have inside : 0 ≤ i ∧ i < 0 + n.toNat := by omega
    simp only [Buf.put, if_pos inside, Nat.sub_zero]
    rw [arrived _ (lane_lt _ size.pos whole bound), lane_lane _ size.pos]

theorem words_cross_a_page :
    ∃ host' buf, guestTo (realModeGuest true fun _ => 0) 0xffc (BitVec.ofNat 8) 8 4 =
        .ok (.none, { realModeGuest true fun _ => 0 with host := host' }) ∧
      guestFrom { realModeGuest true fun _ => 0 with host := host' } (fun _ => 0) 0xffc 8 4 = .ok (.none, buf) ∧
      ∀ i < 8, buf i = BitVec.ofNat 8 i := by
  obtain ⟨host', buf, stored, loaded, same, _⟩ := guest_memory_round_trip (realModeGuest true fun _ => 0) id 0xffc 8 4
    (BitVec.ofNat 8) (fun _ => 0) (.inr (.inr rfl)) (by decide) (by decide)
    (realModeGuest_translates _ _ (by decide))
  exact ⟨host', buf, stored, loaded, same⟩

end ToyHv

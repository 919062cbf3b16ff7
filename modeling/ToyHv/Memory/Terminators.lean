import ToyHv.Memory.Strings
import ToyHv.Translation.Backmap

namespace ToyHv

variable {m : Machine} {ea gra left done : W32} {size : ℕ}

/-- The guest-visible byte `i` behind a real address. A big-endian copy may look at any of them. -/
def visibleAt (m : Machine) (gra : W32) (i : ℕ) : W8 :=
  guestView (guestIsLittle m.guest) m.ram m.host (gra + BitVec.ofNat 32 i)

def FirstNul (m : Machine) (gra : W32) (i : ℕ) : Prop := visibleAt m gra i = 0 ∧ ∀ j < i, visibleAt m gra j ≠ 0

/-- The address translates to guest RAM. -/
def Reaches (m : Machine) (ea gra : W32) : Prop :=
  guestBackmap m ea (wordAt m.garbage 0) = .ok (.none, gra) ∧ gra < m.ram.pmemBytes

theorem chunk_decreases (partly : ¬ xferSizeAt ea left = left) : (left - xferSizeAt ea left).toNat < left.toNat := by
  have count := toNat_xferSizeAt ea left
  have some : (xferSizeAt ea left).toNat ≠ left.toNat := fun same => partly (BitVec.eq_of_toNat_eq same)
  rw [BitVec.toNat_sub_of_le (BitVec.le_def.mpr (by omega))]
  omega

/-- Whether the terminator of a string fetch with `done` bytes copied and `left` to go is put below
    `size`. A little-endian fetch stops at the first NUL or at the end of RAM, and puts it behind the last
    byte if there is neither. A big-endian one takes each page for as long as the first NUL says,
    wherever that is, and goes on if it is right behind the page. -/
def TerminatorFits (m : Machine) (size : ℕ) (ea left done : W32) : Prop :=
  ∀ gra, Reaches m ea gra →
    if guestIsLittle m.guest then
      (∃ i < (xferSizeAt ea left).toNat, visibleAt m gra i = 0) ∨
      m.ram.pmemBytes.toNat < gra.toNat + (xferSizeAt ea left).toNat ∨
      if _partly : xferSizeAt ea left = left then (done + left).toNat < size
      else TerminatorFits m size (ea + xferSizeAt ea left) (left - xferSizeAt ea left) (done + xferSizeAt ea left)
    else ∃ i < 2^32, FirstNul m gra i ∧
      if _partly : xferSizeAt ea left = left then (done + BitVec.ofNat 32 i).toNat < size
      else if i = (xferSizeAt ea left).toNat then
        TerminatorFits m size (ea + xferSizeAt ea left) (left - xferSizeAt ea left) (done + xferSizeAt ea left)
      else (done + BitVec.ofNat 32 i).toNat < size
termination_by left.toNat
decreasing_by all_goals exact chunk_decreases _partly

/-- Where the loop of `guest_from_ex` has the caller put the terminator. -/
def TerminatorInside (size : ℕ) (done left : W32) : Checked (W32 × Buf) → Prop
  | .ok (rest, _) => (done + (left - rest)).toNat < size
  | .error message => message ≠ .undefined

variable {bytes : W32}

theorem strlen_lt {host : Host} {a : W32} {fuel len : ℕ} (found : strlen host a fuel = some len) : len < fuel := by
  induction fuel generalizing a len with
  | zero => cases found
  | succ fuel ih =>
    rw [strlen] at found
    split at found
    · obtain rfl := Option.some.inj found
      omega
    · obtain ⟨rest, inner, rfl⟩ := Option.map_eq_some_iff.mp found
      exact Nat.succ_lt_succ (ih inner)

/-- A little-endian copy of a page falls short just when there is a NUL, or the end of RAM, in it. -/
theorem little_copy (little : guestIsLittle m.guest = true) (inside : gra < m.ram.pmemBytes)
    (small : bytes.toNat ≤ 4096) (buf : Buf) (d : ℕ) :
    ∃ (count : W32) (copied : Buf),
      pmemFromEx (guestIsLittle m.guest) m.ram m.host buf d gra bytes 1 PMEM_FROM_NUL_TERM = .ok (count, copied) ∧
      count.toNat ≤ bytes.toNat ∧ (count ≠ bytes ↔
        (∃ i < bytes.toNat, visibleAt m gra i = 0) ∨ m.ram.pmemBytes.toNat < gra.toNat + bytes.toNat) := by
  have cut := toNat_cutToRam inside small
  have below := BitVec.lt_def.mp inside
  obtain ⟨stop, copied, done, fetched, _⟩ :=
    pmemFromEx_munged_string m.host buf d (cutToRam_inRam (.inl rfl) inside small (Nat.mod_one _))
  have bound := fetched.bound
  have value : (BitVec.ofNat 32 stop).toNat = stop := by
    rw [BitVec.toNat_ofNat]
    omega
  have zero : stop < (cutToRam m.ram gra bytes).toNat → visibleAt m gra stop = 0 := by
    intro early
    rw [visibleAt, little]
    exact fetched.stopped early
  have nonzero : ∀ i < stop, visibleAt m gra i ≠ 0 := by
    intro i before
    rw [visibleAt, little]
    exact fetched.nonzero i before
  rw [little, pmemFromEx_cut _ _ _ _ _ 1 inside small]
  refine ⟨_, copied, done, by omega, ?_⟩
  rw [ne_eq, ← BitVec.toNat_inj, value]
  constructor
  · intro short
    by_cases early : stop < (cutToRam m.ram gra bytes).toNat
    · exact .inl ⟨stop, by omega, zero early⟩
    · exact .inr (by omega)
  · rintro (⟨i, early, nul⟩ | cut)
    · have notBefore : ¬ i < stop := fun before => nonzero i before nul
      omega
    · omega

/-- A big-endian copy of a page counts up to the first NUL, and does not end without one. -/
theorem big_copy (big : guestIsLittle m.guest = false) (inside : gra < m.ram.pmemBytes) (small : bytes.toNat ≤ 4096)
    (some : 0 < bytes.toNat) (buf : Buf) (d : ℕ) :
    (∃ (i : ℕ) (copied : Buf), i < 2^32 ∧ FirstNul m gra i ∧
      pmemFromEx (guestIsLittle m.guest) m.ram m.host buf d gra bytes 1 PMEM_FROM_NUL_TERM =
        .ok (BitVec.ofNat 32 i, copied)) ∨
    (∀ i < 2^32, ¬ FirstNul m gra i) ∧
      pmemFromEx (guestIsLittle m.guest) m.ram m.host buf d gra bytes 1 PMEM_FROM_NUL_TERM = .error .undefined := by
  have cut := toNat_cutToRam inside small
  have below := BitVec.lt_def.mp inside
  have visible : ∀ i, m.host (m.ram.pmem + gra + BitVec.ofNat 32 i) = visibleAt m gra i := by
    intro i
    rw [visibleAt, big, BitVec.add_assoc]
    rfl
  have copy : pmemFromEx (guestIsLittle m.guest) m.ram m.host buf d gra bytes 1 PMEM_FROM_NUL_TERM =
      strlcpy buf d m.host (m.ram.pmem + gra) (cutToRam m.ram gra bytes) := by
    rw [big, pmemFromEx_cut _ _ _ _ _ 1 inside small]
    exact pmemFromEx_string m.host buf d (cutToRam_inRam (.inl rfl) inside small (Nat.mod_one _)) (by omega)
  rw [copy]
  unfold strlcpy
  cases found : strlen m.host (m.ram.pmem + gra) (2^32) with
  | none =>
    refine .inr ⟨fun i bound first => ?_, rfl⟩
    obtain ⟨len, there⟩ := strlen_found (2^32) bound ((visible i).trans first.1)
    rw [found] at there
    cases there
  | some len =>
    obtain ⟨zero, nonzero⟩ := strlen_some found
    rw [visible] at zero
    exact .inl ⟨len, _, strlen_lt found, ⟨zero, fun j before => visible j ▸ nonzero j before⟩, rfl⟩

theorem fits_little (little : guestIsLittle m.guest = true) (reached : Reaches m ea gra) :
    TerminatorFits m size ea left done ↔
      ((∃ i < (xferSizeAt ea left).toNat, visibleAt m gra i = 0) ∨
        m.ram.pmemBytes.toNat < gra.toNat + (xferSizeAt ea left).toNat) ∨
      if xferSizeAt ea left = left then (done + left).toNat < size
      else TerminatorFits m size (ea + xferSizeAt ea left) (left - xferSizeAt ea left) (done + xferSizeAt ea left) := by
  rw [TerminatorFits, or_assoc]
  simp only [little, if_true, dite_eq_ite]
  constructor
  · exact fun fits => fits gra reached
  · intro fits other there
    obtain ⟨_, rfl⟩ := Prod.mk.inj (Except.ok.inj (reached.1.symm.trans there.1))
    exact fits

theorem FirstNul.unique {i j : ℕ} (first : FirstNul m gra i) (other : FirstNul m gra j) : i = j := by
  rcases Nat.lt_trichotomy i j with before | same | after
  · exact absurd first.1 (other.2 i before)
  · exact same
  · exact absurd other.1 (first.2 j after)

theorem fits_big (big : guestIsLittle m.guest = false) (reached : Reaches m ea gra) :
    TerminatorFits m size ea left done ↔ ∃ i < 2^32, FirstNul m gra i ∧
      if xferSizeAt ea left = left then (done + BitVec.ofNat 32 i).toNat < size
      else if i = (xferSizeAt ea left).toNat then
        TerminatorFits m size (ea + xferSizeAt ea left) (left - xferSizeAt ea left) (done + xferSizeAt ea left)
      else (done + BitVec.ofNat 32 i).toNat < size := by
  rw [TerminatorFits]
  simp only [big, Bool.false_eq_true, if_false, dite_eq_ite]
  constructor
  · exact fun fits => fits gra reached
  · intro fits other there
    obtain ⟨_, rfl⟩ := Prod.mk.inj (Except.ok.inj (reached.1.symm.trans there.1))
    exact fits

theorem TerminatorInside.shift (c : W32) (answer : Checked (W32 × Buf)) :
    TerminatorInside size (done + c) (left - c) answer ↔ TerminatorInside size done left answer := by
  cases answer with
  | error message => exact Iff.rfl
  | ok result =>
    have same : done + c + (left - c - result.1) = done + (left - result.1) := by ring
    change (done + c + (left - c - result.1)).toNat < size ↔ (done + (left - result.1)).toNat < size
    rw [same]

theorem terminator_inside_ends (count : W32) (buf : Buf) :
    TerminatorInside size done left (.ok (left - count, buf)) ↔ (done + count).toNat < size := by
  change (done + (left - (left - count))).toNat < size ↔ _
  rw [sub_sub_cancel]

theorem unreached_inside (more : 0 < left.toNat) (room : done.toNat + left.toNat ≤ size) (buf : Buf) (d : ℕ)
    (ended : guestFromLoop m buf d ea left 1 true = .ok (left, buf)) (none : ∀ gra, ¬ Reaches m ea gra) :
    TerminatorInside size done left (guestFromLoop m buf d ea left 1 true) ↔ TerminatorFits m size ea left done := by
  refine iff_of_true ?_ ?_
  · have same : done + (left - left) = done := by rw [sub_self, add_zero]
    rw [ended]
    change (done + (left - left)).toNat < size
    rw [same]
    omega
  · rw [TerminatorFits]
    exact fun gra reached => absurd reached (none gra)

theorem whole_page_fits {c : W32} (rest : left - c ≠ 0) (bound : c.toNat ≤ left.toNat)
    (room : done.toNat + left.toNat ≤ size) (exact : done.toNat + left.toNat < 2^32) :
    0 < (left - c).toNat ∧ (done + c).toNat + (left - c).toNat ≤ size ∧
      (done + c).toNat + (left - c).toNat < 2^32 := by
  have sum : (done + c).toNat = done.toNat + c.toNat := by
    rw [BitVec.toNat_add]
    omega
  have less := BitVec.toNat_sub_of_le (BitVec.le_def.mpr bound)
  have some : (left - c).toNat ≠ 0 := fun none => rest (BitVec.eq_of_toNat_eq none)
  omega

/-- The loop has the terminator put inside just when the string fits, whatever the buffer holds. -/
def Settled (m : Machine) (size d : ℕ) (ea left done : W32) : Prop := ∀ buf,
  TerminatorInside size done left (guestFromLoop m buf d ea left 1 true) ↔ TerminatorFits m size ea left done

theorem terminator_inside_little {d : ℕ} (little : guestIsLittle m.guest = true)
    (reached : Reaches m ea gra) (more : 0 < left.toNat) (room : done.toNat + left.toNat ≤ size)
    (exact : done.toNat + left.toNat < 2^32)
    (later : left - xferSizeAt ea left ≠ 0 → Settled m size (d + (xferSizeAt ea left).toNat)
      (ea + xferSizeAt ea left) (left - xferSizeAt ea left) (done + xferSizeAt ea left)) :
    Settled m size d ea left done := by
  intro buf
  have chunk := toNat_xferSizeAt ea left
  obtain ⟨count, copied, loaded, bound, short⟩ := little_copy little reached.2
    (by omega : (xferSizeAt ea left).toNat ≤ 4096) buf d
  rw [guestFromLoop_string reached.1 loaded, fits_little little reached, ← short]
  by_cases whole : count = xferSizeAt ea left
  · subst whole
    by_cases last : left - xferSizeAt ea left = 0
    · have all : xferSizeAt ea left = left := (sub_eq_zero.mp last).symm
      rw [if_pos (.inr last), terminator_inside_ends, if_pos all, all]
      exact ⟨.inr, fun fits => fits.resolve_left fun differs => differs rfl⟩
    · have partly : xferSizeAt ea left ≠ left := fun all => last (sub_eq_zero.mpr all.symm)
      have same : ¬ (xferSizeAt ea left ≠ xferSizeAt ea left ∨ left - xferSizeAt ea left = 0) :=
        not_or.mpr ⟨not_not.mpr rfl, last⟩
      rw [if_neg same, if_neg partly, ← TerminatorInside.shift (xferSizeAt ea left), later last _]
      exact ⟨.inr, fun fits => fits.resolve_left fun differs => differs rfl⟩
  · have less : count.toNat ≠ (xferSizeAt ea left).toNat := fun same => whole (BitVec.eq_of_toNat_eq same)
    have sum : (done + count).toNat = done.toNat + count.toNat := by
      rw [BitVec.toNat_add]
      omega
    rw [if_pos (.inl whole), terminator_inside_ends]
    exact iff_of_true (by omega) (.inl whole)

theorem terminator_inside_big {d : ℕ} (big : guestIsLittle m.guest = false)
    (reached : Reaches m ea gra) (more : 0 < left.toNat)
    (later : left - xferSizeAt ea left ≠ 0 → Settled m size (d + (xferSizeAt ea left).toNat)
      (ea + xferSizeAt ea left) (left - xferSizeAt ea left) (done + xferSizeAt ea left)) :
    Settled m size d ea left done := by
  intro buf
  have chunk := toNat_xferSizeAt ea left
  rw [fits_big big reached]
  rcases big_copy big reached.2 (by omega : (xferSizeAt ea left).toNat ≤ 4096) (by omega) buf d with
    ⟨i, copied, bound, first, loaded⟩ | ⟨none, loaded⟩
  · have value : (BitVec.ofNat 32 i).toNat = i := by
      rw [BitVec.toNat_ofNat]
      omega
    have only : ∀ P : ℕ → Prop, (∃ j < 2^32, FirstNul m gra j ∧ P j) ↔ P i := by
      intro P
      constructor
      · rintro ⟨j, _, other, holds⟩
        rwa [first.unique other]
      · exact fun holds => ⟨i, bound, first, holds⟩
    rw [guestFromLoop_string reached.1 loaded, only]
    by_cases last : xferSizeAt ea left = left
    · have ended : BitVec.ofNat 32 i ≠ xferSizeAt ea left ∨ left - BitVec.ofNat 32 i = 0 := by
        by_cases same : BitVec.ofNat 32 i = xferSizeAt ea left
        · exact .inr (sub_eq_zero.mpr (last ▸ same.symm))
        · exact .inl same
      rw [if_pos ended, if_pos last, terminator_inside_ends]
    · have unfinished : left - xferSizeAt ea left ≠ 0 := fun none => last (sub_eq_zero.mp none).symm
      rw [if_neg last]
      by_cases whole : i = (xferSizeAt ea left).toNat
      · have same : BitVec.ofNat 32 i = xferSizeAt ea left := BitVec.eq_of_toNat_eq (value.trans whole)
        have goesOn : ¬ (xferSizeAt ea left ≠ xferSizeAt ea left ∨ left - xferSizeAt ea left = 0) :=
          not_or.mpr ⟨not_not.mpr rfl, unfinished⟩
        rw [same, if_neg goesOn, if_pos whole, ← TerminatorInside.shift (xferSizeAt ea left), later unfinished _]
      · have differs : BitVec.ofNat 32 i ≠ xferSizeAt ea left := by
          intro same
          rw [← same, value] at whole
          exact whole rfl
        rw [if_pos (.inl differs), if_neg whole, terminator_inside_ends]
  · have aborted : guestFromLoop m buf d ea left 1 true = .error .undefined := by
      rw [guestFromLoop]
      simp only [reached.1, ok_bind, ne_eq, not_true_eq_false, if_false, if_true, loaded]
      rfl
    rw [aborted]
    refine iff_of_false (fun differs => differs rfl) ?_
    rintro ⟨i, bound, first, _⟩
    exact none i bound first

theorem terminator_inside_loop (d : ℕ) (more : 0 < left.toNat) (room : done.toNat + left.toNat ≤ size)
    (exact : done.toNat + left.toNat < 2^32) : Settled m size d ea left done := by
  induction n : left.toNat using Nat.strong_induction_on generalizing ea left done d with
  | _ n ih =>
  subst n
  cases looked : guestBackmap m ea (wordAt m.garbage 0) with
  | error message =>
    intro buf
    have aborted : guestFromLoop m buf d ea left 1 true = .error message := by
      rw [guestFromLoop, looked]
      rfl
    refine iff_of_true ?_ ?_
    · rw [aborted]
      rcases guestBackmapEx_error looked with rfl | rfl
      · exact Abort.noConfusion
      · exact Abort.noConfusion
    · rw [TerminatorFits]
      rintro gra ⟨found, _⟩
      rw [looked] at found
      cases found
  | ok answer =>
    obtain ⟨err, gra⟩ := answer
    by_cases reaches : err = .none ∧ gra < m.ram.pmemBytes
    · obtain ⟨rfl, inside⟩ := reaches
      have reached : Reaches m ea gra := ⟨looked, inside⟩
      have later : left - xferSizeAt ea left ≠ 0 → Settled m size (d + (xferSizeAt ea left).toNat)
          (ea + xferSizeAt ea left) (left - xferSizeAt ea left) (done + xferSizeAt ea left) := by
        intro rest
        have chunk := toNat_xferSizeAt ea left
        have partly : ¬ xferSizeAt ea left = left := fun all => rest (sub_eq_zero.mpr all.symm)
        obtain ⟨some, roomy, below⟩ := whole_page_fits rest (by omega) room exact
        exact ih _ (chunk_decreases partly) _ some roomy below rfl
      cases mode : guestIsLittle m.guest with
      | true => exact terminator_inside_little mode reached more room exact later
      | false => exact terminator_inside_big mode reached more later
    · have outside : err ≠ .none ∨ gra ≥ m.ram.pmemBytes := by
        rw [not_and_or] at reaches
        exact reaches.imp_right BitVec.not_lt.mp
      intro buf
      apply unreached_inside more room buf d (guestFromLoop_unreached looked outside buf d left 1 true)
      rintro other ⟨there, below⟩
      obtain ⟨same, rfl⟩ := Prod.mk.inj (Except.ok.inj (looked.symm.trans there))
      exact reaches ⟨same, below⟩

theorem bounded_fits (little : guestIsLittle m.guest = true) (room : done.toNat + left.toNat < size)
    (exact : done.toNat + left.toNat < 2^32) : TerminatorFits m size ea left done := by
  induction n : left.toNat using Nat.strong_induction_on generalizing ea left done with
  | _ n ih =>
  subst n
  have chunk := toNat_xferSizeAt ea left
  by_cases found : ∃ gra, Reaches m ea gra
  · obtain ⟨gra, reached⟩ := found
    rw [fits_little little reached]
    refine .inr ?_
    split
    · rw [BitVec.toNat_add]
      omega
    · rename_i partly
      have sum : (done + xferSizeAt ea left).toNat = done.toNat + (xferSizeAt ea left).toNat := by
        rw [BitVec.toNat_add]
        omega
      have less := BitVec.toNat_sub_of_le (BitVec.le_def.mpr (by omega : (xferSizeAt ea left).toNat ≤ left.toNat))
      exact ih _ (chunk_decreases partly) (by omega) (by omega) rfl
  · rw [TerminatorFits]
    exact fun gra reached => absurd ⟨gra, reached⟩ found

end ToyHv

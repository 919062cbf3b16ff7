import ToyHv.Memory.Paging

namespace ToyHv
open Library

variable {m : Machine} {page : W32 → W32} {ea left : W32}

/-- The string a guest sees behind an address, cut at a bound: `k` bytes, all of them in the buffer. -/
structure Fetched (byte : ℕ → W8) (n k : ℕ) (buf : Buf) : Prop where
  bound : k ≤ n
  nonzero : ∀ i < k, byte i ≠ 0
  stopped : k < n → byte k = 0
  copied : ∀ i < k, buf i = byte i

def guestBytes (m : Machine) (page : W32 → W32) (src : W32) : ℕ → W8 :=
  fun i => guestView (guestIsLittle m.guest) m.ram m.host (realOf page (src + BitVec.ofNat 32 i))

theorem add_one_ofNat (a : W32) (i : ℕ) : a + 1 + BitVec.ofNat 32 i = a + BitVec.ofNat 32 (i + 1) := by
  rw [Nat.add_comm i 1]
  exact add_ofNat a 1 i

theorem strlen_some {host : Host} {a : W32} {fuel len : ℕ} (found : strlen host a fuel = some len) :
    host (a + BitVec.ofNat 32 len) = 0 ∧ ∀ i < len, host (a + BitVec.ofNat 32 i) ≠ 0 := by
  induction fuel generalizing a len with
  | zero => cases found
  | succ fuel ih =>
    rw [strlen] at found
    split at found
    · rename_i nul
      obtain rfl := Option.some.inj found
      exact ⟨by rw [BitVec.add_zero]; exact nul, fun i bound => absurd bound (Nat.not_lt_zero i)⟩
    · rename_i more
      obtain ⟨rest, tail, rfl⟩ := Option.map_eq_some_iff.mp found
      obtain ⟨nul, nonzero⟩ := ih tail
      refine ⟨add_one_ofNat a rest ▸ nul, fun i bound => ?_⟩
      cases i with
      | zero => rw [BitVec.add_zero]; exact more
      | succ i => rw [← add_one_ofNat]; exact nonzero i (by omega)

theorem strlen_found {host : Host} {a : W32} {i : ℕ} (fuel : ℕ) (bound : i < fuel)
    (nul : host (a + BitVec.ofNat 32 i) = 0) : ∃ len, strlen host a fuel = some len := by
  induction fuel generalizing a i with
  | zero => omega
  | succ fuel ih =>
    rw [strlen]
    split
    · exact ⟨0, rfl⟩
    · rename_i more
      cases i with
      | zero => rw [BitVec.add_zero] at nul; exact absurd nul more
      | succ i =>
        rw [← add_one_ofNat] at nul
        obtain ⟨len, found⟩ := ih (by omega) nul
        exact ⟨len + 1, by rw [found]; rfl⟩

/-- A byte loop with a terminator: where it stopped, and the bytes before that place. -/
theorem flatFrom_string (mem : FlatMemory 32) (src : W32) (d n i : ℕ) (buf : Buf) :
    ∃ stop copied, flatFrom mem src 1 true d i buf n = (if stop < i + n then some stop else none, copied) ∧
      i ≤ stop ∧ stop ≤ i + n ∧ (stop < i + n → mem (src + BitVec.ofNat 32 stop) = 0) ∧
      (∀ k, i ≤ k → k < stop → mem (src + BitVec.ofNat 32 k) ≠ 0 ∧ copied (d + k) = mem (src + BitVec.ofNat 32 k)) ∧
      ∀ x < d + i, copied x = buf x := by
  induction n generalizing i buf with
  | zero => exact ⟨i, buf, by simp [flatFrom], le_rfl, le_rfl, by omega, by omega, fun _ _ => rfl⟩
  | succ n ih =>
    have byte : mem.load (src + BitVec.ofNat 32 i) 1 = (mem (src + BitVec.ofNat 32 i)).toNat := by
      change 0 + (mem (src + BitVec.ofNat 32 i + BitVec.ofNat 32 0)).toNat * 1 = _
      rw [BitVec.add_zero]
      omega
    have stored : ∀ k, digit (mem (src + BitVec.ofNat 32 i)).toNat (1 - 1 - k) = mem (src + BitVec.ofNat 32 i) := by
      intro k
      simp [digit]
    simp only [flatFrom, byte, stored, true_and]
    have before : ∀ x < d + i, (buf.put (d + i) 1 fun _ => mem (src + BitVec.ofNat 32 i)) x = buf x :=
      fun x low => if_neg (by omega)
    by_cases nul : mem (src + BitVec.ofNat 32 i) = 0
    · refine ⟨i, _, ?_, le_rfl, by omega, fun _ => nul, by omega, before⟩
      rw [if_pos (by rw [nul]; rfl), if_pos (by omega)]
    · have more : ¬ (mem (src + BitVec.ofNat 32 i)).toNat = 0 := fun h => nul (BitVec.eq_of_toNat_eq h)
      obtain ⟨stop, copied, same, low, high, zero, bytes, frame⟩ :=
        ih (i + 1) (buf.put (d + i) 1 fun _ => mem (src + BitVec.ofNat 32 i))
      refine ⟨stop, copied, ?_, by omega, by omega, fun h => zero (by omega), fun k lower upper => ?_, fun x h => ?_⟩
      · rw [if_neg more, same]
        congr 2
        apply propext
        omega
      · rcases Nat.eq_or_lt_of_le lower with rfl | later
        · refine ⟨nul, ?_⟩
          rw [frame _ (by omega)]
          exact if_pos ⟨le_rfl, by omega⟩
        · exact bytes k later upper
      · rw [frame x (by omega), before x h]

theorem strlcpy_before {buf copied : Buf} {d : ℕ} {host : Host} {src size count : W32}
    (done : strlcpy buf d host src size = .ok (count, copied)) : ∀ x < d, copied x = buf x := by
  unfold strlcpy at done
  split at done
  · cases done
  · simp only [Except.ok.injEq, Prod.mk.injEq] at done
    obtain ⟨_, rfl⟩ := done
    intro x before
    split
    · rfl
    · simp only [Buf.put]
      rw [if_neg (by omega), if_neg (by omega)]

theorem pmemFromEx_string {p : Pmem} {src bytes : W32} (host : Host) (buf : Buf) (d : ℕ)
    (h : InRam p src bytes 1) (some : 0 < bytes.toNat) :
    pmemFromEx false p host buf d src bytes 1 PMEM_FROM_NUL_TERM = strlcpy buf d host (p.pmem + src) bytes := by
  obtain ⟨fits, whole, size⟩ := h.checks
  have inside : ¬ src ≥ p.pmemBytes := fun outside => by
    rw [h.none outside] at some
    exact absurd some (by decide)
  have terminated : decide (PMEM_FROM_NUL_TERM &&& PMEM_FROM_NUL_TERM ≠ 0) = true := by decide
  simp only [pmemFromEx, if_neg inside, bugOn_false whole, bugOn_false size, ok_bind, Bool.false_eq_true, false_and,
    if_false, terminated, if_true, if_neg fits]

theorem pmemFromEx_munged_string {p : Pmem} {src bytes : W32} (host : Host) (buf : Buf) (d : ℕ)
    (h : InRam p src bytes 1) :
    ∃ stop copied, pmemFromEx true p host buf d src bytes 1 PMEM_FROM_NUL_TERM = .ok (BitVec.ofNat 32 stop, copied) ∧
      Fetched (fun i => guestView true p host (src + BitVec.ofNat 32 i)) bytes.toNat stop (fun i => copied (d + i)) ∧
      ∀ x < d, copied x = buf x := by
  have terminated : decide (PMEM_FROM_NUL_TERM &&& PMEM_FROM_NUL_TERM ≠ 0) = true := by decide
  have count : (bytes / 1 : W32).toNat = bytes.toNat := by simp
  rw [pmemFromEx_little h (by decide), terminated, count,
    pmemFromLoop_flat p h.size (Nat.mod_one _) _ _ _ _ _ _ (Nat.zero_mod _)]
  obtain ⟨stop, copied, same, _, high, zero, bytes', before⟩ :=
    flatFrom_string (flatView p host) src d bytes.toNat 0 buf
  rw [Nat.zero_add] at same high zero
  refine ⟨stop, copied, ?_, ⟨high, fun i low => (bytes' i (Nat.zero_le i) low).1, zero,
    fun i low => (bytes' i (Nat.zero_le i) low).2⟩, before⟩
  change Except.ok (loopResult bytes (flatFrom (flatView p host) src 1 true d 0 buf bytes.toNat)) = _
  rw [same]
  split
  · rfl
  · have all : stop = bytes.toNat := by omega
    rw [all, loopResult, BitVec.ofNat_toNat, BitVec.setWidth_eq]

theorem guestFromLoop_string {buf copied : Buf} {d : ℕ} {gra count : W32}
    (answer : guestBackmap m ea (wordAt m.garbage 0) = .ok (.none, gra))
    (loaded : pmemFromEx (guestIsLittle m.guest) m.ram m.host buf d gra (xferSizeAt ea left) 1 PMEM_FROM_NUL_TERM =
      .ok (count, copied)) :
    guestFromLoop m buf d ea left 1 true =
      if count ≠ xferSizeAt ea left ∨ left - count = 0 then .ok (left - count, copied)
      else guestFromLoop m copied (d + (xferSizeAt ea left).toNat) (ea + xferSizeAt ea left) (left - count) 1 true := by
  rw [guestFromLoop]
  simp only [answer, ok_bind, ne_eq, not_true_eq_false, if_false, if_true, loaded]
  split <;> rfl

theorem Fetched.of_eq {byte byte' : ℕ → W8} {n k : ℕ} {buf buf' : Buf} (fetched : Fetched byte n k buf)
    (seen : ∀ i < n, byte' i = byte i) (kept : ∀ i < k, buf' i = buf i) : Fetched byte' n k buf' := by
  have bound := fetched.bound
  constructor
  · exact bound
  · intro i low
    rw [seen i (by omega)]
    exact fetched.nonzero i low
  · intro short
    rw [seen k short]
    exact fetched.stopped short
  · intro i low
    rw [kept i low, seen i (by omega)]
    exact fetched.copied i low

theorem Fetched.extend {byte : ℕ → W8} {n n' k : ℕ} {buf : Buf} (fetched : Fetched byte n k buf) (more : n ≤ n')
    (ends : k < n ∨ n = n') : Fetched byte n' k buf := by
  constructor
  · exact fetched.bound.trans more
  · exact fetched.nonzero
  · intro short
    exact fetched.stopped (by omega)
  · exact fetched.copied

theorem Fetched.append {byte : ℕ → W8} {n left k : ℕ} {buf : Buf} (first : Fetched byte n n buf)
    (rest : Fetched (fun j => byte (n + j)) left k fun j => buf (n + j)) : Fetched byte (n + left) (n + k) buf := by
  constructor
  · exact Nat.add_le_add_left rest.bound n
  · intro i low
    rcases Nat.lt_or_ge i n with early | late
    · exact first.nonzero i early
    · obtain ⟨j, rfl⟩ := Nat.exists_eq_add_of_le late
      exact rest.nonzero j (by omega)
  · intro short
    exact rest.stopped (by omega)
  · intro i low
    rcases Nat.lt_or_ge i n with early | late
    · exact first.copied i early
    · obtain ⟨j, rfl⟩ := Nat.exists_eq_add_of_le late
      exact rest.copied j (by omega)

theorem guestFromLoop_munged_string (little : guestIsLittle m.guest = true) (buf : Buf) (d : ℕ)
    (map : Maps m page ea left.toNat) (more : 0 < left.toNat) :
    ∃ (k : W32) (copied : Buf), guestFromLoop m buf d ea left 1 true = .ok (left - k, copied) ∧
      Fetched (guestBytes m page ea) left.toNat k.toNat (fun i => copied (d + i)) ∧ ∀ x < d, copied x = buf x := by
  induction n : left.toNat using Nat.strong_induction_on generalizing ea left buf d with
  | _ n ih =>
  subst n
  have chunk : Chunk m page ea left 1 := chunk_ok (.inl rfl) (Nat.mod_one _) (Nat.mod_one _) more map
  have answer := map.answers 0 more (wordAt m.garbage 0)
  rw [BitVec.add_zero] at answer
  obtain ⟨stop, first, loaded, fetched, before⟩ := pmemFromEx_munged_string m.host buf d chunk.inRam
  have small := left.isLt
  have bound := chunk.bound
  have stopBound := fetched.bound
  have exact : (BitVec.ofNat 32 stop).toNat = stop := by
    rw [BitVec.toNat_ofNat]
    omega
  have seen : ∀ i < (xferSizeAt ea left).toNat,
      guestBytes m page ea i = guestView true m.ram m.host (realOf page ea + BitVec.ofNat 32 i) := by
    intro i inside
    rw [guestBytes, little, chunk.real i inside]
  rw [← little] at loaded
  rw [guestFromLoop_string answer loaded]
  split
  · rename_i ended
    refine ⟨BitVec.ofNat 32 stop, first, rfl, ?_, before⟩
    have ends : stop < (xferSizeAt ea left).toNat ∨ (xferSizeAt ea left).toNat = left.toNat := by
      rcases ended with fewer | done
      · rcases Nat.lt_or_eq_of_le stopBound with less | rfl
        · exact .inl less
        · rw [BitVec.ofNat_toNat, BitVec.setWidth_eq] at fewer
          exact absurd rfl fewer
      · have all := congrArg BitVec.toNat (sub_eq_zero.mp done)
        rw [exact] at all
        omega
    rw [exact]
    exact (fetched.of_eq seen fun _ _ => rfl).extend bound ends
  · rename_i unfinished
    rw [not_or, not_not] at unfinished
    obtain ⟨all, unfinished⟩ := unfinished
    have whole : stop = (xferSizeAt ea left).toNat := by rw [← all, exact]
    subst whole
    rw [BitVec.ofNat_toNat, BitVec.setWidth_eq] at unfinished ⊢
    obtain ⟨k, copied, looped, rest, before'⟩ := ih _ (chunk.decreases more) first
      (d + (xferSizeAt ea left).toNat) (chunk.drop unfinished map) (pos_of_ne_zero unfinished) rfl
    have restBound := rest.bound
    rw [chunk.difference] at rest restBound
    have sum : (xferSizeAt ea left + k).toNat = (xferSizeAt ea left).toNat + k.toNat := by
      rw [BitVec.toNat_add]
      omega
    have shifted : ∀ j, guestBytes m page ea ((xferSizeAt ea left).toNat + j) =
        guestBytes m page (ea + xferSizeAt ea left) j := fun j => by
      rw [guestBytes, guestBytes, add_toNat]
    have early := fetched.of_eq seen fun i low => before' (d + i) (by omega)
    have late := rest.of_eq (fun j _ => shifted j) fun j _ => congrArg copied (Nat.add_assoc _ _ j).symm
    have both := early.append late
    rw [Nat.add_sub_cancel' bound, ← sum] at both
    refine ⟨xferSizeAt ea left + k, copied, by rw [looped, BitVec.sub_sub], both, fun x low => ?_⟩
    rw [before' x (by omega), before x low]

theorem pmemFromEx_before {p : Pmem} {host : Host} {src bytes count : W32} {buf copied : Buf} {d : ℕ}
    (loaded : pmemFromEx false p host buf d src bytes 1 PMEM_FROM_NUL_TERM = .ok (count, copied)) :
    ∀ x < d, copied x = buf x := by
  have terminated : decide (PMEM_FROM_NUL_TERM &&& PMEM_FROM_NUL_TERM ≠ 0) = true := by decide
  simp only [pmemFromEx, Bool.false_eq_true, false_and, if_false, terminated, if_true] at loaded
  split at loaded
  · simp only [Except.ok.injEq, Prod.mk.injEq] at loaded
    exact fun x _ => congrFun loaded.2.symm x
  · simp only [bind_ok] at loaded
    obtain ⟨_, _, _, _, copies⟩ := loaded
    exact strlcpy_before copies

theorem guestFromLoop_before (big : guestIsLittle m.guest = false) {buf copied : Buf} {d : ℕ} {count : W32}
    (looped : guestFromLoop m buf d ea left 1 true = .ok (count, copied)) : ∀ x < d, copied x = buf x := by
  induction n : left.toNat using Nat.strong_induction_on generalizing ea left buf d with
  | _ n ih =>
  subst n
  rw [guestFromLoop, big] at looped
  simp only [bind_ok, if_true] at looped
  obtain ⟨⟨err, gra⟩, _, looped⟩ := looped
  split at looped
  · simp only [pure_ok, Except.ok.injEq, Prod.mk.injEq] at looped
    exact fun x _ => congrFun looped.2.symm x
  · simp only [bind_ok] at looped
    obtain ⟨⟨xferred, first⟩, loaded, looped⟩ := looped
    have before := pmemFromEx_before loaded
    split at looped
    · simp only [pure_ok, Except.ok.injEq, Prod.mk.injEq] at looped
      exact fun x low => looped.2 ▸ before x low
    · rename_i unfinished
      intro x low
      exact (ih _ (left_decreases unfinished) looped rfl x (by omega)).trans (before x low)

theorem strlcpy_ok {buf : Buf} {d len : ℕ} {host : Host} {src size : W32}
    (found : strlen host src (2^32) = some len) (some : size ≠ 0) :
    strlcpy buf d host src size = .ok (BitVec.ofNat 32 len,
      (buf.put d (min len (size.toNat - 1)) fun k => host (src + BitVec.ofNat 32 k)).put
        (d + min len (size.toNat - 1)) 1 fun _ => 0) := by
  simp only [strlcpy, found, if_neg some]

theorem big_chunk (big : guestIsLittle m.guest = false) (chunk : Chunk m page ea left 1) {i : ℕ}
    (inside : i < (xferSizeAt ea left).toNat) :
    m.host (m.ram.pmem + realOf page ea + BitVec.ofNat 32 i) = guestBytes m page ea i := by
  rw [guestBytes, big, chunk.real i inside, BitVec.add_assoc]
  rfl

theorem guestFromLoop_short_string (big : guestIsLittle m.guest = false) (buf : Buf)
    (map : Maps m page ea left.toNat) (more : 0 < left.toNat) {i : ℕ} (bound : i < (xferSizeAt ea left).toNat)
    (nul : guestBytes m page ea i = 0) :
    ∃ (k : W32) (copied : Buf), guestFromLoop m buf 0 ea left 1 true = .ok (left - k, copied) ∧
      Fetched (guestBytes m page ea) left.toNat k.toNat copied := by
  have chunk : Chunk m page ea left 1 := chunk_ok (.inl rfl) (Nat.mod_one _) (Nat.mod_one _) more map
  have answer := map.answers 0 more (wordAt m.garbage 0)
  rw [BitVec.add_zero] at answer
  have small := left.isLt
  have fits := chunk.bound
  rw [← big_chunk big chunk bound] at nul
  obtain ⟨len, found⟩ := strlen_found (2^32) (by omega) nul
  obtain ⟨zero, nonzero⟩ := strlen_some found
  have first : len ≤ i := by
    rcases Nat.lt_or_ge i len with beyond | within
    · exact absurd nul (nonzero i beyond)
    · exact within
  have exact : (BitVec.ofNat 32 len).toNat = len := by
    rw [BitVec.toNat_ofNat]
    omega
  have size : xferSizeAt ea left ≠ 0 := fun h => by
    rw [h] at bound
    exact Nat.not_lt_zero i bound
  have room : min len ((xferSizeAt ea left).toNat - 1) = len := by omega
  have loaded := (pmemFromEx_string m.host buf 0 chunk.inRam (by omega)).trans
    (strlcpy_ok found size)
  rw [← big, room] at loaded
  have short : BitVec.ofNat 32 len ≠ xferSizeAt ea left := fun h => by
    rw [← h, exact] at bound
    omega
  rw [guestFromLoop_string answer loaded, if_pos (.inl short)]
  refine ⟨_, _, rfl, ?_⟩
  rw [exact]
  refine ⟨by omega, fun j low => ?_, fun _ => ?_, fun j low => ?_⟩
  · rw [← big_chunk big chunk (by omega)]
    exact nonzero j low
  · rw [← big_chunk big chunk (by omega)]
    exact zero
  · rw [← big_chunk big chunk (by omega)]
    have apart : ¬ (0 + len ≤ j ∧ j < 0 + len + 1) := by omega
    have inside : 0 ≤ j ∧ j < 0 + len := by omega
    simp only [Buf.put, if_neg apart, if_pos inside, Nat.sub_zero]

/-- A string that ends in the first chunk, as `guest_from_ex` answers it in big-endian mode. -/
theorem guestFromEx_string (big : guestIsLittle m.guest = false) (buf : Buf) (map : Maps m page ea left.toNat) {n : ℕ}
    (bound : n < (xferSizeAt ea left).toNat) (text : ∀ i < n, guestBytes m page ea i ≠ 0)
    (ended : guestBytes m page ea n = 0) :
    ∃ d, guestFromEx m buf ea left 1 true = .ok (BitVec.ofNat 32 n, d) ∧ ∀ i < n, d i = guestBytes m page ea i := by
  have count := toNat_xferSizeAt ea left
  have room : n < left.toNat := by omega
  obtain ⟨k, d, looped, fetched⟩ := guestFromLoop_short_string big buf map (by omega) bound ended
  have length : k.toNat = n := by
    have high : ¬ n < k.toNat := fun more => fetched.nonzero n more ended
    have low : ¬ k.toNat < n := fun less => text k.toNat less (fetched.stopped (by omega))
    omega
  have same : k = BitVec.ofNat 32 n := by
    rw [← length, BitVec.ofNat_toNat, BitVec.setWidth_eq]
  refine ⟨d, ?_, fun i low => fetched.copied i (by omega)⟩
  rw [guestFromEx, bugOn_false (by simp), ok_bind, looped, ← same]
  change Except.ok (left - (left - k), d) = _
  rw [sub_sub_cancel]

/-- A big-endian fetch of a longer string leaves a zero at the end of the first chunk. -/
theorem guestFromLoop_long_string (big : guestIsLittle m.guest = false) {buf copied : Buf} {count : W32}
    (map : Maps m page ea left.toNat) (more : 0 < left.toNat)
    (long : ∀ i < (xferSizeAt ea left).toNat, guestBytes m page ea i ≠ 0)
    (looped : guestFromLoop m buf 0 ea left 1 true = .ok (count, copied)) :
    copied ((xferSizeAt ea left).toNat - 1) = 0 := by
  have chunk : Chunk m page ea left 1 := chunk_ok (.inl rfl) (Nat.mod_one _) (Nat.mod_one _) more map
  have answer := map.answers 0 more (wordAt m.garbage 0)
  rw [BitVec.add_zero] at answer
  have positive : 0 < (xferSizeAt ea left).toNat := by
    rw [toNat_xferSizeAt]
    omega
  have size : xferSizeAt ea left ≠ 0 := fun h => by
    rw [h] at positive
    exact Nat.not_lt_zero 0 positive
  have string := pmemFromEx_string m.host buf 0 chunk.inRam positive
  rw [← big] at string
  cases found : strlen m.host (m.ram.pmem + realOf page ea) (2^32) with
  | none =>
    have undefined : strlcpy buf 0 m.host (m.ram.pmem + realOf page ea) (xferSizeAt ea left) = .error .undefined := by
      simp only [strlcpy, found]
    rw [guestFromLoop] at looped
    simp only [answer, ok_bind, ne_eq, not_true_eq_false, if_false, if_true, string.trans undefined] at looped
    cases looped
  | some len =>
    obtain ⟨zero, _⟩ := strlen_some found
    have beyond : (xferSizeAt ea left).toNat ≤ len := by
      rcases Nat.lt_or_ge len (xferSizeAt ea left).toNat with inside | beyond
      · rw [big_chunk big chunk inside] at zero
        exact absurd zero (long len inside)
      · exact beyond
    have room : min len ((xferSizeAt ea left).toNat - 1) = (xferSizeAt ea left).toNat - 1 := by omega
    have loaded := string.trans (strlcpy_ok found size)
    rw [room, Nat.zero_add] at loaded
    rw [guestFromLoop_string answer loaded] at looped
    have last : ∀ src : Buf, (src.put ((xferSizeAt ea left).toNat - 1) 1 fun _ => 0)
        ((xferSizeAt ea left).toNat - 1) = 0 := fun src => if_pos (by omega)
    split at looped
    · simp only [Except.ok.injEq, Prod.mk.injEq] at looped
      rw [← looped.2]
      exact last _
    · rw [guestFromLoop_before big looped _ (by omega)]
      exact last _

/-- What the caller of `guest_from_ex` expects of a string of at most `n` bytes. -/
def FetchesString (m : Machine) (page : W32 → W32) (buf : Buf) (src n : W32) : Prop :=
  ∃ k copied, guestFromEx m buf src n 1 true = .ok (k, copied) ∧
    Fetched (guestBytes m page src) n.toNat k.toNat copied

theorem fetchesString_loop {buf : Buf} {src n : W32} :
    FetchesString m page buf src n ↔ ∃ (k : W32) (copied : Buf),
      guestFromLoop m buf 0 src n 1 true = .ok (n - k, copied) ∧
      Fetched (guestBytes m page src) n.toNat k.toNat copied := by
  have loop : guestFromEx m buf src n 1 true =
      guestFromLoop m buf 0 src n 1 true >>= fun result => .ok (n - result.1, result.2) := rfl
  simp only [FetchesString, loop, bind_ok, Except.ok.injEq]
  constructor
  · rintro ⟨k, copied, ⟨⟨l, same⟩, looped, result⟩, fetched⟩
    obtain ⟨rfl, rfl⟩ := Prod.mk.inj result
    exact ⟨n - l, same, by rw [sub_sub_cancel]; exact looped, fetched⟩
  · rintro ⟨k, copied, looped, fetched⟩
    exact ⟨k, copied, ⟨_, looped, by rw [sub_sub_cancel]⟩, fetched⟩

theorem big_string_ends {buf : Buf} {src n : W32} (big : guestIsLittle m.guest = false)
    (map : Maps m page src n.toNat) (some : 1 ≤ n.toNat) (fetches : FetchesString m page buf src n) :
    ∃ i < min n.toNat (4096 - src.toNat % 4096), guestBytes m page src i = 0 := by
  obtain ⟨k, copied, looped, fetched⟩ := fetchesString_loop.mp fetches
  have count := toNat_xferSizeAt src n
  by_contra none
  have long : ∀ i < (xferSizeAt src n).toNat, guestBytes m page src i ≠ 0 :=
    fun i bound nul => none ⟨i, by omega, nul⟩
  have spoilt := guestFromLoop_long_string big map some long looped
  have reached : (xferSizeAt src n).toNat ≤ k.toNat := by
    rcases Nat.lt_or_ge k.toNat (xferSizeAt src n).toNat with fewer | reached
    · exact absurd (fetched.stopped (by omega)) (long _ fewer)
    · exact reached
  rw [fetched.copied _ (by omega)] at spoilt
  exact long _ (by omega) spoilt

/-- A string fetch is the bounded copy its callers expect exactly when the guest is little-endian
    or the string ends before both the bound and the end of its first page. -/
theorem string_fetch_iff (m : Machine) (page : W32 → W32) (buf : Buf) (src n : W32) (some : 1 ≤ n.toNat)
    (map : Maps m page src n.toNat) :
    FetchesString m page buf src n ↔
      guestIsLittle m.guest = true ∨
        ∃ i < min n.toNat (4096 - src.toNat % 4096), guestBytes m page src i = 0 := by
  constructor
  · intro fetches
    cases mode : guestIsLittle m.guest with
    | true => exact .inl rfl
    | false => exact .inr (big_string_ends mode map some fetches)
  · intro condition
    rw [fetchesString_loop]
    cases mode : guestIsLittle m.guest with
    | true =>
      obtain ⟨k, copied, looped, fetched, _⟩ := guestFromLoop_munged_string mode buf 0 map some
      simp only [Nat.zero_add] at fetched
      exact ⟨k, copied, looped, fetched⟩
    | false =>
      rcases condition with little | ⟨i, bound, nul⟩
      · rw [mode] at little
        cases little
      · have count := toNat_xferSizeAt src n
        exact guestFromLoop_short_string mode buf map some (by omega) nul

theorem short_string_fetched :
    FetchesString (realModeGuest false fun a => if a.toNat < 3 then 0x41 else 0) id (fun _ => 0) 0 8 := by
  refine (string_fetch_iff _ id (fun _ => 0) 0 8 (by decide)
    (realModeGuest_translates _ _ (by decide)).toMaps).mpr (.inr ?_)
  exact ⟨3, by decide, by decide⟩

/-- Three letters fetched with a bound of two, in big-endian mode. -/
theorem long_string_not_fetched :
    ¬ ∀ (m : Machine) (page : W32 → W32) (buf : Buf) (src n : W32), 1 ≤ n.toNat → Maps m page src n.toNat →
      FetchesString m page buf src n := by
  intro always
  have fetches := always (realModeGuest false fun a => if a.toNat < 3 then 0x41 else 0) id (fun _ => 0) 0 2 (by decide)
    (realModeGuest_translates _ _ (by decide)).toMaps
  obtain ⟨i, bound, nul⟩ := big_string_ends rfl (realModeGuest_translates _ _ (by decide)).toMaps (by decide) fetches
  have cases : i = 0 ∨ i = 1 := by
    simp only [BitVec.ofNat_eq_ofNat, BitVec.toNat_ofNat] at bound
    omega
  rcases cases with rfl | rfl
  · exact absurd nul (by decide)
  · exact absurd nul (by decide)

end ToyHv

import Mathlib.Data.BitVec
import Mathlib.Tactic.Ring
import ToyHv.Model.Socket

namespace ToyHv

variable {s : Output} {result : WriteResult} {results : List WriteResult} {calls : List WriteCall}
  {base n done : ℕ}

/-- A buffer of C: not at NULL, and behind its end there is an address. -/
structure Span where
  base : W32
  len : W32
  nonnull : base ≠ 0
  below_top : base.toNat + len.toNat < 2^32

def WriteResult.count : WriteResult → ℕ
  | .failed => 0
  | .accepted count => count

def taken (results : List WriteResult) : ℕ := (results.map WriteResult.count).sum

/-- All `n` bytes are taken before a failure; or no byte is taken after it, and another write follows
    just where fewer writes failed before it than bytes were taken. -/
def FailsLate (n : ℕ) (results : List WriteResult) : Prop :=
  ∀ before later, results = before ++ .failed :: later →
    n ≤ taken before ∨ taken later = 0 ∧ (later = [] ∨ before.count .failed < taken before)

/-- The addresses whose bytes the socket accepted, in order. -/
def acceptedBytes (calls : List WriteCall) : List ℕ :=
  calls.flatMap fun call => List.range' call.buf.toNat (call.result.ret call.len).toNat

/-- The calls pass parts of `n` bytes at `base`, and what is accepted goes on from byte `done`. -/
structure ExactFrom (base n done : ℕ) (calls : List WriteCall) : Prop where
  inside : ∀ call ∈ calls, base ≤ call.buf.toNat ∧ call.buf.toNat + call.len.toNat ≤ base + n
  goes : ∃ k, done + k ≤ n ∧ acceptedBytes calls = List.range' (base + done) k

structure OutputExact (span : Span) (fd : ℕ) (accept : Option ℕ) (results : List WriteResult) : Prop where
  exact : ExactFrom span.base.toNat span.len.toNat 0 (socketOut ⟨some fd⟩ accept span.base span.len results).1
  ends : ∃ count, (socketOut ⟨some fd⟩ accept span.base span.len
    (results ++ List.replicate count .failed)).2.1.len = 0

theorem turn_failed (s : Output) : s.turn .failed = ⟨s.buf - 1, s.len + 1⟩ := by
  have minus : BitVec.ofInt 32 (BitVec.ofInt 32 (-1)).toInt = (-1 : W32) := by decide
  have negated : s.len - -1 = s.len + 1 := by ring
  have added : s.buf + -1 = s.buf - 1 := by ring
  simp only [Output.turn, WriteResult.ret, minus, negated, added]

theorem turn_accepted (s : Output) (count : ℕ) :
    s.turn (.accepted count) = ⟨s.buf + BitVec.ofNat 32 (min count s.len.toNat),
      s.len - BitVec.ofNat 32 (min count s.len.toNat)⟩ := by
  simp only [Output.turn, WriteResult.ret, BitVec.ofInt_toInt, BitVec.ofInt_natCast]

theorem loop_ended (ended : s.len = 0) (results : List WriteResult) : socketOutLoop s results = ([], s) := by
  cases results with
  | nil => rfl
  | cons result results => exact if_pos ended

theorem loop_cons (more : s.len ≠ 0) (result : WriteResult) (results : List WriteResult) :
    socketOutLoop s (result :: results) =
      (⟨s.buf, s.len, result⟩ :: (socketOutLoop (s.turn result) results).1,
        (socketOutLoop (s.turn result) results).2) :=
  if_neg more

theorem loop_append (s : Output) (first later : List WriteResult) :
    (socketOutLoop s (first ++ later)).2 = (socketOutLoop (socketOutLoop s first).2 later).2 := by
  induction first generalizing s with
  | nil => rfl
  | cons result first ih =>
    by_cases ended : s.len = 0
    · rw [loop_ended ended, loop_ended ended, loop_ended ended]
    · rw [List.cons_append, loop_cons ended, loop_cons ended]
      exact ih (s.turn result)

/-- Where every write fails, `len` grows until it wraps to 0. -/
theorem failures_end (s : Output) : ∃ count, (socketOutLoop s (List.replicate count .failed)).2.len = 0 := by
  induction left : 2^32 - s.len.toNat using Nat.strong_induction_on generalizing s with
  | _ left ih =>
  subst left
  by_cases ended : s.len = 0
  · exact ⟨0, ended⟩
  · have small := s.len.isLt
    have some : s.len.toNat ≠ 0 := fun none => ended (BitVec.eq_of_toNat_eq none)
    have next : (s.turn .failed).len = s.len + 1 := by rw [turn_failed]
    have later : ∃ count, (socketOutLoop (s.turn .failed) (List.replicate count .failed)).2.len = 0 := by
      by_cases wraps : s.len.toNat + 1 = 2^32
      · have zero : (s.turn .failed).len = 0 := by
          rw [next]
          apply BitVec.eq_of_toNat_eq
          rw [BitVec.toNat_add]
          change (s.len.toNat + 1) % 2^32 = 0
          omega
        exact ⟨0, zero⟩
      · apply ih _ _ _ rfl
        rw [next, BitVec.toNat_add]
        change 2^32 - (s.len.toNat + 1) % 2^32 < _
        omega
    obtain ⟨count, last⟩ := later
    refine ⟨count + 1, ?_⟩
    rw [List.replicate_succ, loop_cons ended]
    exact last

/-- So many of `n` bytes at `base` are behind the cursor. -/
structure At (s : Output) (base n place : ℕ) : Prop where
  buf : s.buf.toNat = base + place
  len : s.len.toNat + place = n

variable {place : ℕ}

theorem At.accepted (at_ : At s base n place) (top : base + n < 2^32) (count : ℕ) :
    At (s.turn (.accepted count)) base n (place + min count s.len.toNat) := by
  have buf := at_.buf
  have len := at_.len
  have taken : (BitVec.ofNat 32 (min count s.len.toNat)).toNat = min count s.len.toNat := by
    rw [BitVec.toNat_ofNat]
    omega
  rw [turn_accepted]
  constructor
  · rw [BitVec.toNat_add, taken]
    omega
  · rw [BitVec.toNat_sub_of_le (BitVec.le_def.mpr (by omega)), taken]
    omega

theorem At.failed (at_ : At s base n (place + 1)) (top : base + n < 2^32) : At (s.turn .failed) base n place := by
  have buf := at_.buf
  have len := at_.len
  rw [turn_failed]
  constructor
  · rw [BitVec.toNat_sub]
    change (2^32 - 1 + s.buf.toNat) % 2^32 = _
    omega
  · rw [BitVec.toNat_add]
    change (s.len.toNat + 1) % 2^32 + place = n
    omega

theorem At.call_inside (at_ : At s base n place) :
    base ≤ s.buf.toNat ∧ s.buf.toNat + s.len.toNat ≤ base + n := by
  have buf := at_.buf
  have len := at_.len
  omega

theorem acceptedBytes_cons (call : WriteCall) (calls : List WriteCall) :
    acceptedBytes (call :: calls) =
      List.range' call.buf.toNat (call.result.ret call.len).toNat ++ acceptedBytes calls := by
  rw [acceptedBytes, List.flatMap_cons]
  rfl

theorem exact_nil (room : done ≤ n) : ExactFrom base n done [] :=
  ⟨fun _ member => (List.not_mem_nil member).elim, 0, room, rfl⟩

theorem exact_cons (at_ : At s base n place) {result : WriteResult} {count : ℕ}
    (ret : (result.ret s.len).toNat = count) (front : count = 0 ∨ place = done) (room : done + count ≤ n) :
    ExactFrom base n done (⟨s.buf, s.len, result⟩ :: calls) ↔ ExactFrom base n (done + count) calls := by
  have bytes : acceptedBytes (⟨s.buf, s.len, result⟩ :: calls) =
      List.range' (base + done) count ++ acceptedBytes calls := by
    rw [acceptedBytes_cons, at_.buf]
    change List.range' (base + place) (result.ret s.len).toNat ++ _ = _
    rw [ret]
    rcases front with rfl | rfl <;> rfl
  constructor
  · rintro ⟨inside, k, within, goes⟩
    constructor
    · exact fun call member => inside call (List.mem_cons_of_mem _ member)
    · rw [bytes] at goes
      have length := congrArg List.length goes
      rw [List.length_append, List.length_range', List.length_range'] at length
      have split : k = count + (k - count) := by omega
      rw [split, ← List.range'_append_1, List.append_cancel_left_eq] at goes
      exact ⟨k - count, by omega, by rw [goes, Nat.add_assoc]⟩
  · rintro ⟨inside, k, within, goes⟩
    constructor
    · intro call member
      rcases List.mem_cons.mp member with rfl | later
      · exact at_.call_inside
      · exact inside call later
    · refine ⟨count + k, by omega, ?_⟩
      rw [bytes, goes, ← Nat.add_assoc, List.range'_append_1]

theorem again_not_exact (at_ : At s base n place) (back : place < done) {result : WriteResult}
    (some : 0 < (result.ret s.len).toNat) : ¬ ExactFrom base n done (⟨s.buf, s.len, result⟩ :: calls) := by
  rintro ⟨-, k, within, goes⟩
  rw [acceptedBytes_cons, at_.buf] at goes
  obtain ⟨more, count⟩ := Nat.exists_eq_add_of_lt some
  change List.range' (base + place) (result.ret s.len).toNat ++ _ = _ at goes
  rw [count, Nat.zero_add, List.range'_succ, List.cons_append] at goes
  cases k with
  | zero => cases goes
  | succ k =>
    rw [List.range'_succ] at goes
    have head := (List.cons.inj goes).1
    omega

theorem before_not_exact (at_ : At s base n 0) (nonnull : 0 < base) (top : base + n < 2^32) (result : WriteResult)
    (results : List WriteResult) : ¬ ExactFrom base n done (socketOutLoop (s.turn .failed) (result :: results)).1 := by
  have buf := at_.buf
  have len := at_.len
  have back : (s.turn .failed).buf.toNat = base - 1 ∧ (s.turn .failed).len.toNat = n + 1 := by
    rw [turn_failed, BitVec.toNat_sub, BitVec.toNat_add]
    change (2^32 - 1 + s.buf.toNat) % 2^32 = base - 1 ∧ (s.len.toNat + 1) % 2^32 = n + 1
    omega
  have more : (s.turn .failed).len ≠ 0 := by
    intro none
    have zero := congrArg BitVec.toNat none
    rw [back.2] at zero
    exact absurd zero (Nat.succ_ne_zero n)
  intro exact
  rw [loop_cons more] at exact
  have low := (exact.inside _ List.mem_cons_self).1
  change base ≤ (s.turn .failed).buf.toNat at low
  omega

theorem first_failed_iff (at_ : At s base n 0) (nonnull : 0 < base) (top : base + n < 2^32) (room : done ≤ n)
    (results : List WriteResult) :
    ExactFrom base n done (socketOutLoop (s.turn .failed) results).1 ↔ results = [] := by
  cases results with
  | nil => exact iff_of_true (exact_nil room) rfl
  | cons result results =>
    exact iff_of_false (before_not_exact at_ nonnull top result results) (List.cons_ne_nil result results)

theorem splits_nil {α : Type} {P : List α → List α → Prop} (x : α) :
    ∀ before later, [] = before ++ x :: later → P before later := by
  intro before later split
  cases before with
  | nil => cases split
  | cons first before => cases split

theorem splits_cons {α : Type} {P : List α → List α → Prop} (first x : α) (rest : List α) :
    (∀ before later, first :: rest = before ++ x :: later → P before later) ↔
      (first = x → P [] rest) ∧ ∀ before later, rest = before ++ x :: later → P (first :: before) later := by
  constructor
  · intro all
    constructor
    · intro same
      exact all [] rest (by rw [same, List.nil_append])
    · intro before later split
      exact all (first :: before) later (by rw [split, List.cons_append])
  · rintro ⟨head, tail⟩ before later split
    cases before with
    | nil =>
      obtain ⟨same, rfl⟩ := List.cons.inj split
      exact head same
    | cons other before =>
      obtain ⟨rfl, same⟩ := List.cons.inj split
      exact tail before later same

theorem taken_append (first later : List WriteResult) : taken (first ++ later) = taken first + taken later := by
  rw [taken, List.map_append, List.sum_append]
  rfl

theorem taken_failed_cons (results : List WriteResult) : taken (.failed :: results) = taken results := by
  rw [taken, List.map_cons, List.sum_cons]
  exact Nat.zero_add _

theorem taken_accepted_cons (count : ℕ) (results : List WriteResult) :
    taken (.accepted count :: results) = count + taken results := by
  rw [taken, List.map_cons, List.sum_cons]
  rfl

theorem failures_accepted_cons (count : ℕ) (results : List WriteResult) :
    List.count WriteResult.failed (.accepted count :: results) = List.count .failed results := by
  apply List.count_cons_of_ne
  intro same
  cases same

/-- Nothing is taken, and a write follows on a failure only while the cursor is behind the start. -/
def Quiet (place : ℕ) (results : List WriteResult) : Prop :=
  taken results = 0 ∧ ∀ before later, results = before ++ .failed :: later →
    later = [] ∨ before.count .failed < place

theorem quiet_nil (place : ℕ) : Quiet place [] := ⟨rfl, splits_nil _⟩

theorem quiet_accepted (place : ℕ) (results : List WriteResult) :
    Quiet place (.accepted 0 :: results) ↔ Quiet place results := by
  rw [Quiet, splits_cons, taken_accepted_cons, Nat.zero_add]
  simp only [failures_accepted_cons, reduceCtorEq, false_implies, true_and]
  rfl

theorem quiet_failed_first (results : List WriteResult) : Quiet 0 (.failed :: results) ↔ results = [] := by
  rw [Quiet, splits_cons, taken_failed_cons]
  constructor
  · rintro ⟨_, head, _⟩
    exact (head rfl).resolve_right (Nat.lt_irrefl 0)
  · rintro rfl
    exact ⟨rfl, fun _ => .inl rfl, splits_nil _⟩

theorem quiet_failed (place : ℕ) (results : List WriteResult) :
    Quiet (place + 1) (.failed :: results) ↔ Quiet place results := by
  rw [Quiet, splits_cons, taken_failed_cons]
  simp only [List.count_nil, List.count_cons_self, Nat.succ_pos, Nat.add_lt_add_iff_right, or_true, implies_true,
    true_and]
  rfl

/-- `FailsLate`, with `done` bytes taken before. -/
def FailsLateAfter (n done : ℕ) (results : List WriteResult) : Prop :=
  ∀ before later, results = before ++ .failed :: later →
    n ≤ done + taken before ∨ taken later = 0 ∧ (later = [] ∨ before.count .failed < done + taken before)

theorem late_accepted (count : ℕ) (results : List WriteResult) (room : done ≤ n) :
    FailsLateAfter n done (.accepted count :: results) ↔ FailsLateAfter n (done + min count (n - done)) results := by
  rw [FailsLateAfter, splits_cons]
  simp only [taken_accepted_cons, failures_accepted_cons, reduceCtorEq, false_implies, true_and]
  constructor
  · intro late before later split
    have turn := late before later split
    grind
  · intro late before later split
    have turn := late before later split
    grind

theorem late_failed_first (more : 0 < n) (results : List WriteResult) :
    FailsLateAfter n 0 (.failed :: results) ↔ results = [] := by
  rw [FailsLateAfter, splits_cons]
  constructor
  · rintro ⟨head, _⟩
    rcases head rfl with full | ⟨_, last | fewer⟩
    · exact absurd full (Nat.not_le_of_lt more)
    · exact last
    · exact absurd fewer (Nat.lt_irrefl 0)
  · rintro rfl
    exact ⟨fun _ => .inr ⟨rfl, .inl rfl⟩, splits_nil _⟩

theorem late_failed (more : place + 1 < n) (results : List WriteResult) :
    FailsLateAfter n (place + 1) (.failed :: results) ↔ Quiet place results := by
  rw [FailsLateAfter, splits_cons]
  simp only [taken_failed_cons, List.count_cons_self]
  constructor
  · rintro ⟨head, turns⟩
    have idle := ((head trivial).resolve_left (Nat.not_le_of_lt more)).1
    refine ⟨idle, fun before later split => ?_⟩
    have sum := idle
    rw [split, taken_append, taken_failed_cons] at sum
    have turn := turns before later split
    grind
  · rintro ⟨idle, turns⟩
    refine ⟨fun _ => .inr ⟨idle, .inr (Nat.succ_pos place)⟩, fun before later split => .inr ?_⟩
    have sum := idle
    rw [split, taken_append, taken_failed_cons] at sum
    have turn := turns before later split
    grind

theorem At.more (at_ : At s base n place) (back : place < n) : s.len ≠ 0 := by
  intro none
  have len := at_.len
  have zero := congrArg BitVec.toNat none
  change s.len.toNat = 0 at zero
  omega

theorem behind_iff (at_ : At s base n place) (nonnull : 0 < base) (top : base + n < 2^32) (back : place < done)
    (room : done ≤ n) (results : List WriteResult) :
    ExactFrom base n done (socketOutLoop s results).1 ↔ Quiet place results := by
  induction results generalizing s place with
  | nil => exact iff_of_true (exact_nil room) (quiet_nil place)
  | cons result results ih =>
    rw [loop_cons (at_.more (by omega))]
    cases result with
    | accepted count =>
      have len := at_.len
      by_cases none : count = 0
      · subst none
        have next := at_.accepted top 0
        have ret : ((WriteResult.accepted 0).ret s.len).toNat = 0 := by
          rw [WriteResult.ret, Int.toNat_natCast, Nat.zero_min]
        rw [Nat.zero_min, Nat.add_zero] at next
        rw [exact_cons at_ ret (.inl rfl) room, Nat.add_zero, ih next back, quiet_accepted]
      · have some : 0 < ((WriteResult.accepted count).ret s.len).toNat := by
          rw [WriteResult.ret, Int.toNat_natCast]
          omega
        apply iff_of_false (again_not_exact at_ back some)
        rintro ⟨idle, _⟩
        rw [taken_accepted_cons] at idle
        omega
    | failed =>
      have ret : (WriteResult.failed.ret s.len).toNat = 0 := rfl
      rw [exact_cons at_ ret (.inl rfl) room, Nat.add_zero]
      cases place with
      | zero => rw [first_failed_iff at_ nonnull top room, quiet_failed_first]
      | succ place => rw [ih (at_.failed top) (by omega), quiet_failed]

theorem ahead_iff (at_ : At s base n done) (nonnull : 0 < base) (top : base + n < 2^32) (results : List WriteResult) :
    ExactFrom base n done (socketOutLoop s results).1 ↔ FailsLateAfter n done results := by
  induction results generalizing s done with
  | nil =>
    have len := at_.len
    exact iff_of_true (exact_nil (by omega)) (splits_nil _)
  | cons result results ih =>
    have len := at_.len
    have room : done ≤ n := by omega
    by_cases ended : done = n
    · have zero : s.len = 0 := BitVec.eq_of_toNat_eq (by change s.len.toNat = 0; omega)
      rw [loop_ended zero]
      exact iff_of_true (exact_nil room) fun before _ _ => .inl (by omega)
    · have inside : done < n := by omega
      rw [loop_cons (at_.more inside)]
      cases result with
      | accepted count =>
        have left : s.len.toNat = n - done := by omega
        have ret : ((WriteResult.accepted count).ret s.len).toNat = min count s.len.toNat := by
          rw [WriteResult.ret, Int.toNat_natCast]
        rw [exact_cons at_ ret (.inr rfl) (by omega), ih (at_.accepted top count), late_accepted count results room,
          left]
      | failed =>
        have ret : (WriteResult.failed.ret s.len).toNat = 0 := rfl
        rw [exact_cons at_ ret (.inl rfl) room, Nat.add_zero]
        cases done with
        | zero => rw [first_failed_iff at_ nonnull top room, late_failed_first inside]
        | succ place =>
          rw [behind_iff (at_.failed top) nonnull top (Nat.lt_succ_self place) room, late_failed inside]

theorem Span.pos (span : Span) : 0 < span.base.toNat := by
  apply Nat.pos_of_ne_zero
  intro zero
  exact span.nonnull (BitVec.eq_of_toNat_eq zero)

theorem span_exact_iff (span : Span) (results : List WriteResult) :
    ExactFrom span.base.toNat span.len.toNat 0 (socketOutLoop ⟨span.base, span.len⟩ results).1 ↔
      FailsLate span.len.toNat results := by
  have start : At ⟨span.base, span.len⟩ span.base.toNat span.len.toNat 0 := ⟨rfl, rfl⟩
  have turns := ahead_iff start span.pos span.below_top results
  simp only [FailsLateAfter, Nat.zero_add] at turns
  exact turns

theorem loop_ends (s : Output) (results : List WriteResult) :
    ∃ count, (socketOutLoop s (results ++ List.replicate count .failed)).2.len = 0 := by
  obtain ⟨count, ended⟩ := failures_end (socketOutLoop s results).2
  refine ⟨count, ?_⟩
  rw [loop_append]
  exact ended

/-- The banner of `mon_on_disconnect` is exact under the same condition, and a peer that is gone
    does not keep `socket_disconnect` from the close. -/
theorem disconnect_exact_iff (span : Span) (banner : span.len.toNat = disconnectBanner.length) (fd : ℕ)
    (results : List WriteResult) :
    (ExactFrom span.base.toNat span.len.toNat 0 (socketDisconnect ⟨some fd⟩ span.base results).1 ↔
      FailsLate span.len.toNat results) ∧
    ∃ count, (socketDisconnect ⟨some fd⟩ span.base (results ++ List.replicate count .failed)).2.fd = none := by
  have len : BitVec.ofNat 32 disconnectBanner.length = span.len := by
    rw [← banner, BitVec.ofNat_toNat, BitVec.setWidth_eq]
  have calls (results : List WriteResult) : socketDisconnect ⟨some fd⟩ span.base results =
      ((socketOutLoop ⟨span.base, span.len⟩ results).1,
        if (socketOutLoop ⟨span.base, span.len⟩ results).2.len = 0 then ⟨none⟩ else ⟨some fd⟩) := by
    rw [← len]
    rfl
  constructor
  · rw [calls]
    exact span_exact_iff span results
  · obtain ⟨count, ended⟩ := loop_ends ⟨span.base, span.len⟩ results
    refine ⟨count, ?_⟩
    rw [calls, if_pos ended]

/-- The output is exact just where the failures are late, and it always ends. -/
theorem socket_out_exact_iff (span : Span) (fd : ℕ) (accept : Option ℕ) (results : List WriteResult) :
    OutputExact span fd accept results ↔ FailsLate span.len.toNat results := by
  constructor
  · intro output
    exact (span_exact_iff span results).mp output.exact
  · intro late
    constructor
    · exact (span_exact_iff span results).mpr late
    · exact loop_ends ⟨span.base, span.len⟩ results

def consoleLine : Span := ⟨0x1000, 4, by decide, by decide⟩

/-- After a failure the byte before the buffer is passed. -/
theorem failed_write_inexact : ¬ ∀ (span : Span) (fd : ℕ) (accept : Option ℕ) (results : List WriteResult),
    OutputExact span fd accept results := by
  intro all
  have calls := (all consoleLine 4 none [.failed, .accepted 1]).exact.inside
  have low := (calls ⟨0xfff, 5, .accepted 1⟩ (List.mem_cons_of_mem _ List.mem_cons_self)).1
  exact absurd low (by decide)

end ToyHv

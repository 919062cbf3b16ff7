import ToyHv.Translation.PageWise

namespace ToyHv

variable {m v : Machine} {ea n : W32} {count e : ℕ} {bytes : ℕ → W8} {err : Err}

/-- A store of `count` bytes that went on until the first address that is not mapped. -/
structure Prefixed (m v : Machine) (ea : W32) (count : ℕ) (bytes : ℕ → W8) (err : Err) (e : ℕ) : Prop where
  same : SameGuest m v
  stored : Stored m v ea e bytes
  ended : (err = .none ∧ e = count) ∨
    (err = .badAccess ∧ e < count ∧ guestReal m (ea + BitVec.ofNat 32 e) = none)

theorem Prefixed.append {w : Machine} {c : ℕ} (first : Stored m w ea c bytes) (same : SameGuest m w)
    (rest : Prefixed w v (ea + BitVec.ofNat 32 c) count (fun k => bytes (c + k)) err e) :
    Prefixed m v ea (c + count) bytes err (c + e) := by
  refine ⟨same.trans rest.same, first.append same rest.stored rest.same, ?_⟩
  rcases rest.ended with ⟨ended, all⟩ | ⟨ended, some, nowhere⟩
  · exact .inl ⟨ended, by rw [all]⟩
  · rw [same.real, add_ofNat] at nowhere
    exact .inr ⟨ended, by omega, nowhere⟩

theorem PageWise.storeSplit (wise : PageWise m) (data : Buf) (page : guestPage m ea ≠ none)
    (beyond : 4096 - ea.toNat % 4096 < n.toNat) :
    ∃ host', Stored m { m with host := host' } ea (xferSizeAt ea n).toNat data ∧
      guestTo m ea data n 1 = guestTo { m with host := host' } (ea + xferSizeAt ea n)
        (fun i => data ((xferSizeAt ea n).toNat + i)) (n - xferSizeAt ea n) 1 := by
  have size := toNat_xferSizeAt ea n
  have within : (xferSizeAt ea n).toNat ≤ 4096 - ea.toNat % 4096 := by omega
  obtain ⟨g, there⟩ := Option.ne_none_iff_exists'.mp page
  have map := wise.translates there within
  have chunk := chunk_ok (.inl rfl) (Nat.mod_one _) (Nat.mod_one _) (by omega) map.toMaps
  have whole : xferSizeAt ea (xferSizeAt ea n) = xferSizeAt ea n := by
    apply BitVec.eq_of_toNat_eq
    rw [toNat_xferSizeAt]
    omega
  have answer := (wise.found there).2.2 (wordAt m.garbage 0)
  obtain ⟨host, moved, _⟩ := pmemTo_view (guestIsLittle m.guest) m.host data chunk.inRam chunk.aligned
  rw [whole] at moved
  have first : guestToLoop m ea data (xferSizeAt ea n) 1 = .ok (0, { m with host }) := by
    rw [guestToLoop_turn answer (by rw [whole]; exact moved), whole, if_pos (sub_self _)]
  have more : ¬ n - xferSizeAt ea n = 0 := by
    intro done
    have value := congrArg BitVec.toNat done
    rw [BitVec.toNat_sub_of_le (BitVec.le_def.mpr (by omega))] at value
    simp only [BitVec.ofNat_eq_ofNat, BitVec.toNat_ofNat] at value
    omega
  refine ⟨host, ?_, ?_⟩
  · rcases wise.store data within with ⟨host', took, stored, _⟩ | ⟨missing, _⟩
    · rw [guestTo, first, ok_bind] at took
      obtain ⟨_, same⟩ := Prod.mk.inj (Except.ok.inj took)
      rw [same]
      exact stored
    · exact absurd missing page
  · rw [guestTo, guestTo, guestToLoop_turn answer moved, if_neg more]

theorem PageWise.storePrefix (wise : PageWise m) (data : Buf) (ea n : W32) :
    (∃ err v e, guestTo m ea data n 1 = .ok (err, v) ∧ Prefixed m v ea n.toNat data err e) ∨
    ∃ message, guestTo m ea data n 1 = .error message ∧ BatAbort m message := by
  induction h : n.toNat using Nat.strong_induction_on generalizing m ea n data with
  | _ count ih =>
  subst h
  by_cases page : guestPage m ea = none
  · rcases wise.storeNothing data n 1 page with took | aborted
    · refine .inl ⟨_, m, 0, took, .refl m, .nothing rfl _, ?_⟩
      have nowhere : guestReal m (ea + BitVec.ofNat 32 0) = none := by
        rw [BitVec.add_zero]
        exact guestReal_none page
      by_cases none : n = 0
      · exact .inl ⟨if_pos none, by rw [none]; rfl⟩
      · exact .inr ⟨if_neg none, pos_of_ne_zero none, nowhere⟩
    · exact .inr aborted
  by_cases within : n.toNat ≤ 4096 - ea.toNat % 4096
  · rcases wise.store data within with ⟨host', took, stored, _⟩ | ⟨missing, _⟩
    · exact .inl ⟨_, _, _, took, ⟨rfl, rfl, rfl, rfl⟩, stored, .inl ⟨rfl, rfl⟩⟩
    · exact absurd missing page
  · have size := toNat_xferSizeAt ea n
    obtain ⟨host', stored, split⟩ := wise.storeSplit data page (Nat.lt_of_not_le within)
    have left : (n - xferSizeAt ea n).toNat = n.toNat - (xferSizeAt ea n).toNat :=
      BitVec.toNat_sub_of_le (BitVec.le_def.mpr (by omega))
    have same : SameGuest m { m with host := host' } := ⟨rfl, rfl, rfl, rfl⟩
    rw [split]
    rcases ih (n - xferSizeAt ea n).toNat (by omega) (same.pageWise wise)
        (fun i => data ((xferSizeAt ea n).toNat + i)) (ea + xferSizeAt ea n) _ rfl with
      ⟨err, v, e, took, rest⟩ | ⟨message, aborted, bat⟩
    · have address : ea + xferSizeAt ea n = ea + BitVec.ofNat 32 (xferSizeAt ea n).toNat := by
        rw [BitVec.ofNat_toNat, BitVec.setWidth_eq]
      rw [address, left] at rest
      have both := Prefixed.append stored same rest
      rw [Nat.add_sub_cancel' (by omega)] at both
      exact .inl ⟨err, v, _, took, both⟩
    · exact .inr ⟨message, aborted, same.bat bat⟩

/-- The leading addresses of a buffer that are mapped. -/
def mappedBytes (m : Machine) (ea : W32) : ℕ → ℕ
  | 0 => 0
  | n + 1 => if mappedBytes m ea n = n ∧ guestReal m (ea + BitVec.ofNat 32 n) ≠ none then n + 1 else mappedBytes m ea n

theorem mappedBytes_all {n : ℕ} (mapped : ∀ k < n, guestReal m (ea + BitVec.ofNat 32 k) ≠ none) :
    mappedBytes m ea n = n := by
  induction n with
  | zero => rfl
  | succ n ih =>
    have before := ih fun k below => mapped k (Nat.lt_succ_of_lt below)
    exact if_pos ⟨before, mapped n n.lt_succ_self⟩

theorem mappedBytes_until {n : ℕ} (mapped : ∀ k < e, guestReal m (ea + BitVec.ofNat 32 k) ≠ none) (some : e < n)
    (nowhere : guestReal m (ea + BitVec.ofNat 32 e) = none) : mappedBytes m ea n = e := by
  induction n with
  | zero => cases some
  | succ n ih =>
    rcases Nat.lt_succ_iff_lt_or_eq.mp some with before | rfl
    · have stopped := ih before
      rw [mappedBytes, if_neg (fun on => Nat.ne_of_lt before (stopped.symm.trans on.1)), stopped]
    · rw [mappedBytes, if_neg (fun on => on.2 nowhere), mappedBytes_all mapped]

theorem Prefixed.length_eq (run : Prefixed m v ea count bytes err e) : e = mappedBytes m ea count := by
  rcases run.ended with ⟨_, rfl⟩ | ⟨_, some, nowhere⟩
  · exact (mappedBytes_all run.stored.mapped).symm
  · exact (mappedBytes_until run.stored.mapped some nowhere).symm

/-- Guest memory after the first bytes of a store, one by one. -/
def written (m : Machine) (ea : W32) (bytes : ℕ → W8) : ℕ → W32 → W8
  | 0, x => guestMemory m x
  | n + 1, x => if guestReal m (ea + BitVec.ofNat 32 n) = some x then bytes n else written m ea bytes n x

theorem written_last {n k : ℕ} {x : W32} (bound : k < n) (here : guestReal m (ea + BitVec.ofNat 32 k) = some x)
    (last : ∀ j, k < j → j < n → guestReal m (ea + BitVec.ofNat 32 j) ≠ some x) :
    written m ea bytes n x = bytes k := by
  induction n with
  | zero => cases bound
  | succ n ih =>
    rcases Nat.lt_succ_iff_lt_or_eq.mp bound with before | rfl
    · rw [written, if_neg (last n before n.lt_succ_self)]
      exact ih before fun j after inside => last j after (Nat.lt_succ_of_lt inside)
    · exact if_pos here

theorem written_other {n : ℕ} {x : W32} (apart : ∀ k < n, guestReal m (ea + BitVec.ofNat 32 k) ≠ some x) :
    written m ea bytes n x = guestMemory m x := by
  induction n with
  | zero => rfl
  | succ n ih =>
    rw [written, if_neg (apart n n.lt_succ_self)]
    exact ih fun k inside => apart k (Nat.lt_succ_of_lt inside)

theorem exists_last {n : ℕ} {x : W32} (some : ∃ k < n, guestReal m (ea + BitVec.ofNat 32 k) = Option.some x) :
    ∃ k < n, guestReal m (ea + BitVec.ofNat 32 k) = Option.some x ∧
      ∀ j, k < j → j < n → guestReal m (ea + BitVec.ofNat 32 j) ≠ Option.some x := by
  induction n with
  | zero =>
    obtain ⟨k, bound, _⟩ := some
    cases bound
  | succ n ih =>
    by_cases here : guestReal m (ea + BitVec.ofNat 32 n) = Option.some x
    · exact ⟨n, n.lt_succ_self, here, fun j after inside => absurd inside (by omega)⟩
    · obtain ⟨k, bound, found⟩ := some
      have before : k < n := by
        rcases Nat.lt_succ_iff_lt_or_eq.mp bound with before | rfl
        · exact before
        · exact absurd found here
      obtain ⟨k, inside, found, last⟩ := ih ⟨k, before, found⟩
      refine ⟨k, Nat.lt_succ_of_lt inside, found, fun j after bound => ?_⟩
      rcases Nat.lt_succ_iff_lt_or_eq.mp bound with within | rfl
      · exact last j after within
      · exact here

theorem SameGuest.mappedBytes (same : SameGuest m v) (ea : W32) (n : ℕ) : mappedBytes v ea n = mappedBytes m ea n := by
  induction n with
  | zero => rfl
  | succ n ih => rw [ToyHv.mappedBytes, ToyHv.mappedBytes, ih, same.real]

theorem SameGuest.written (same : SameGuest m v) (memory : guestMemory v = guestMemory m) (ea : W32) (bytes : ℕ → W8)
    (n : ℕ) : written v ea bytes n = written m ea bytes n := by
  funext x
  induction n with
  | zero => exact congrFun memory x
  | succ n ih => rw [ToyHv.written, ToyHv.written, ih, same.real]

/-- What was stored is known from what is there now. -/
theorem stored_iff {n : ℕ} (same : SameGuest m v) (mapped : ∀ k < n, guestReal m (ea + BitVec.ofNat 32 k) ≠ none) :
    Stored m v ea n bytes ↔ guestMemory v = written m ea bytes n := by
  constructor
  · intro stored
    funext x
    by_cases some : ∃ k < n, guestReal m (ea + BitVec.ofNat 32 k) = Option.some x
    · obtain ⟨k, bound, here, last⟩ := exists_last some
      rw [written_last bound here last]
      have byte := stored.arrived k bound fun j after inside => by
        rw [here]
        exact last j after inside
      rw [same.byte here] at byte
      exact Option.some.inj byte
    · have apart : ∀ k < n, guestReal m (ea + BitVec.ofNat 32 k) ≠ Option.some x :=
        fun k bound here => some ⟨k, bound, here⟩
      rw [written_other apart]
      exact stored.others x apart
  · intro memory
    refine ⟨mapped, fun k bound last => ?_, fun x apart => ?_⟩
    · obtain ⟨x, here⟩ := Option.ne_none_iff_exists'.mp (mapped k bound)
      rw [here] at last
      rw [same.byte here, memory, written_last bound here last]
    · rw [memory, written_other apart]

end ToyHv

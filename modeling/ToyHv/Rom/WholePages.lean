import ToyHv.Rom.Available

namespace ToyHv
open Library

structure Range.WholePages (r : Range) : Prop where
  base : r.base.toNat % 4096 = 0
  behind : (r.limit + 1).toNat % 4096 = 0

variable {mem : Bool} {base limit : W32} {l l' front : List Range}

theorem rangeRemoveLoop_wholePages (start : base.toNat % 4096 = 0) (finish : (limit + 1).toNat % 4096 = 0)
    (passed : ∀ r ∈ front, r.WholePages) (whole : ∀ r ∈ l, r.WholePages)
    (removed : rangeRemoveLoop mem base limit front l = .ok l') : ∀ r ∈ l', r.WholePages := by
  induction l generalizing front with
  | nil =>
    obtain rfl := Except.ok.inj removed
    exact passed
  | cons range rest ih =>
    obtain ⟨here, later⟩ := List.forall_mem_cons.mp whole
    have with_ : ∀ x : Range, x.WholePages → ∀ r ∈ front ++ [x], r.WholePages := by
      intro x pages r member
      rcases List.mem_append.mp member with member | member
      · exact passed r member
      · obtain rfl := List.mem_singleton.mp member
        exact pages
    rw [rangeRemoveLoop] at removed
    split at removed
    · exact ih (with_ range here) later removed
    split at removed
    · exact ih passed later removed
    split at removed
    · exact ih (with_ (range.setBase limit _) ⟨finish, here.behind⟩) later removed
    split at removed
    · refine ih (with_ (range.setLimit base _) ⟨here.base, ?_⟩) later removed
      change (base - 1 + 1).toNat % 4096 = 0
      rw [sub_add_cancel]
      exact start
    · simp only [bind_ok] at removed
      obtain ⟨ranges, added, removed⟩ := removed
      refine ih (fun r member => ?_) later removed
      have below : (base - 1 + 1).toNat % 4096 = 0 := by
        rw [sub_add_cancel]
        exact start
      obtain ⟨_, _, scanned⟩ := rangeAdd_ok added
      rcases List.mem_cons.mp ((rangeScan_perm scanned).subset (List.mem_of_mem_take member)) with rfl | member
      · exact ⟨here.base, below⟩
      · rcases List.mem_append.mp member with member | member
        · exact passed r member
        · rcases List.mem_cons.mp member with rfl | member
          · exact ⟨finish, here.behind⟩
          · exact later r member

theorem removePages_wholePages {out size : W32} (whole : ∀ r ∈ l, r.WholePages)
    (removed : removePages mem l out size = .ok l') : ∀ r ∈ l', r.WholePages := by
  simp only [removePages, rangeRemove, bind_ok] at removed
  obtain ⟨_, _, removed⟩ := removed
  have start : (alignDown out PAGE_SIZE).toNat % 4096 = 0 := by
    rw [toNat_alignDown_page]
    omega
  have finish : (alignUp (out + size) PAGE_SIZE - 1 + 1).toNat % 4096 = 0 := by
    rw [sub_add_cancel]
    exact alignUp_page_mod _
  exact rangeRemoveLoop_wholePages start finish (by simp) whole removed

variable {size_ addr size align result : W32} {rom rom' : Rom} {c : Claim} {history : List Claim}

theorem romClaimEx_wholePages (whole : ∀ r ∈ rom.guestMemAvailRanges, r.WholePages)
    (claimed : romClaimEx mem size_ rom addr size align = .ok (result, rom')) :
    ∀ r ∈ rom'.guestMemAvailRanges, r.WholePages := by
  rcases romClaimEx_ok claimed with ⟨_, kept⟩ | ⟨out, _, removed⟩
  · rw [kept]
    exact whole
  · exact removePages_wholePages whole removed

/-- What `rom_init` leaves available is made of whole pages, and stays so over any claims. -/
theorem available_wholePages {env : BootEnv} {m s : Machine} (booted : romInit env m = .ok (.none, s))
    (run : Run (ClaimStep size_) s.rom history rom) : ∀ r ∈ rom.guestMemAvailRanges, r.WholePages := by
  refine run.invariant (I := fun _ rom => ∀ r ∈ rom.guestMemAvailRanges, r.WholePages) ?_ ?_
  · obtain ⟨boot⟩ := romInit_ok booted
    obtain ⟨ordered, fresh⟩ := (romInitRanges_ok boot.setup).2.avail
    have initial : ∀ r ∈ boot.rom₀.guestMemAvailRanges, r.WholePages := by
      rw [fresh]
      intro r member
      obtain rfl := List.mem_singleton.mp member
      refine ⟨rfl, ?_⟩
      change (m.ram.pmemBytes - 1 + 1).toNat % 4096 = 0
      rw [sub_add_cancel]
      exact m.ram.size_aligned
    have loader := romClaimEx_wholePages initial boot.claimLoader
    rw [← boot.prepare.avail] at loader
    have trampoline := romClaimEx_wholePages loader boot.claimTrampoline
    rw [← boot.place.avail] at trampoline
    have stack := romClaimEx_wholePages trampoline boot.claimStack
    rw [boot.rom_eq.1]
    exact stack
  · rintro older rom c rom' whole ⟨v, same, _, _, claimed⟩
    rw [← same.avail] at whole
    exact romClaimEx_wholePages whole claimed

end ToyHv

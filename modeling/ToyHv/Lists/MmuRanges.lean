import ToyHv.Lists.Calls
import ToyHv.Translation.RomRanges

namespace ToyHv
open Library

def MmuRange.fields (m : MmuRange) : MmuRangeFields := ⟨m.base, m.limit, m.ra, m.flags⟩

/-- A call of `mmu_range_add`. -/
structure MmuRequest where
  base : W32
  limit : W32
  ra : W32
  flags : W32

/-- With what malloc has for it. -/
def MmuRequest.served (mem : Bool) (c : MmuRequest) : MmuAddition := ⟨mem, c.base, c.limit, c.ra, c.flags⟩

def mmuRangeCalls : ListCalls MmuRangeFields MmuRange MmuRequest where
  run mem l c := mmuRangeAdd mem l c.base c.limit c.ra c.flags
  memory malloc turns mmuRanges h c := h.mmuRangeAdd malloc turns mmuRanges c.base c.limit c.ra c.flags
  refusal := .mmuRangeAlloc
  messages := [.mmuRangeBaseLimit, .incompatibleOverlappingRange, .partiallyOverlappingRange]

variable {malloc : Malloc MmuRangeFields} {rest : Rest MmuRangeFields} {h : Heap MmuRangeFields} {mmuRanges : Ptr}
  {turns : ℕ} {base limit ra flags : W32} {nodes : List (Ptr × MmuRange)} {message : Abort}

/-- Whether an entry of a list is behind a new range, which must agree with every entry that it overlaps. -/
def mmuRangeBehind (base limit ra flags : W32) (m : MmuRange) : Checked Bool := do
  if base ≥ m.base ∧ limit ≤ m.limit then
    bugOn (base - m.base + m.ra ≠ ra ∨ flags ≠ m.flags) .incompatibleOverlappingRange
  else
    bugOn (limit ≥ m.base ∧ base ≤ m.limit) .partiallyOverlappingRange
  return (m.base > limit : Bool)

theorem mmuRangeScan_insertBy (r : MmuRange) (l : List MmuRange) :
    mmuRangeScan r l = insertBy (mmuRangeBehind r.base r.limit r.ra r.flags) r l := by
  induction l with
  | nil => rfl
  | cons m l ih =>
    rw [mmuRangeScan, insertBy, mmuRangeBehind, ih]
    by_cases inside : r.base ≥ m.base ∧ r.limit ≤ m.limit
    · simp only [if_pos inside, bind_assoc]
      congr 1
      funext _
      by_cases behind : m.base > r.limit <;> simp [behind]
    · simp only [if_neg inside, bind_assoc]
      congr 1
      funext _
      by_cases behind : m.base > r.limit <;> simp [behind]

theorem mmuRangeScan_message {r : MmuRange} {l : List MmuRange} (failed : mmuRangeScan r l = .error message) :
    message ∈ mmuRangeCalls.refusal :: mmuRangeCalls.messages := by
  induction l with
  | nil => cases failed
  | cons m l ih =>
    rw [mmuRangeScan] at failed
    split at failed
    · rcases bind_error.mp failed with incompatible | ⟨_, _, failed⟩
      · rw [← (bugOn_error.mp incompatible).2]
        decide
      · split at failed
        · cases failed
        · rcases bind_error.mp failed with later | ⟨_, _, ⟨⟩⟩
          exact ih later
    · rcases bind_error.mp failed with overlapping | ⟨_, _, failed⟩
      · rw [← (bugOn_error.mp overlapping).2]
        decide
      · split at failed
        · cases failed
        · rcases bind_error.mp failed with later | ⟨_, _, ⟨⟩⟩
          exact ih later

theorem mmuRangeAdd_message {mem : Bool} {l : List MmuRange}
    (failed : mmuRangeAdd mem l base limit ra flags = .error message) :
    message ∈ mmuRangeCalls.refusal :: mmuRangeCalls.messages := by
  unfold mmuRangeAdd at failed
  split at failed
  · split at failed
    · cases failed
      decide
    · exact mmuRangeScan_message failed
  · cases failed
    cases mem <;> decide

theorem Shows.mmuRangeAdd (shows : Shows rest MmuRange.fields mmuRanges h nodes) (fresh : malloc.Fresh)
    (enough : nodes.length ≤ turns) :
    RefinesServed .mmuRangeAlloc (h.mmuRangeAdd malloc turns mmuRanges base limit ra flags)
      (fun mem => ToyHv.mmuRangeAdd mem (nodes.map Prod.snd) base limit ra flags)
      fun h' l => ∃ nodes, l = nodes.map Prod.snd ∧ Shows rest MmuRange.fields mmuRanges h' nodes := by
  have refused : ToyHv.mmuRangeAdd false (nodes.map Prod.snd) base limit ra flags = .error .mmuRangeAlloc := by
    unfold ToyHv.mmuRangeAdd mmuRangeAlloc
    split <;> rfl
  unfold Heap.mmuRangeAdd
  rw [listAlloc_eq]
  cases given : malloc h with
  | none => exact .refused refused
  | some new =>
    simp only [ok_bind]
    refine ⟨.inl refused, .inl ?_⟩
    show Refines _ (ToyHv.mmuRangeAdd true (nodes.map Prod.snd) base limit ra flags) _
    by_cases ordered : base < limit
    · have made : ToyHv.mmuRangeAdd true (nodes.map Prod.snd) base limit ra flags =
          insertBy (mmuRangeBehind base limit ra flags) ⟨base, limit, ra, flags, ordered⟩ (nodes.map Prod.snd) := by
        rw [ToyHv.mmuRangeAdd, dif_pos ordered]
        exact mmuRangeScan_insertBy ⟨base, limit, ra, flags, ordered⟩ (nodes.map Prod.snd)
      have free := fresh h new given
      rw [made, bugOn_false (BitVec.not_le.mpr ordered), ok_bind, (shows.alloc free _).getNext_head, ok_bind]
      refine (Shows.insert (l := []) (fun m => ?_) shows free ⟨base, limit, ra, flags, ordered⟩ enough).mono ?_
      · rfl
      · rintro h' values ⟨front, back, _, _, same, after⟩
        exact ⟨_, same, after⟩
    · have unordered : ToyHv.mmuRangeAdd true (nodes.map Prod.snd) base limit ra flags = .error .mmuRangeBaseLimit :=
        dif_neg ordered
      rw [unordered, bugOn, if_pos (BitVec.not_lt.mp ordered)]
      exact rfl

theorem mmuRangeCalls_correct : mmuRangeCalls.Correct MmuRange.fields := by
  constructor
  · decide
  · exact fun mem l c message failed => mmuRangeAdd_message failed
  · intro malloc mmuRanges h c m n more
    change Approximates _ (h.mmuRangeAdd malloc m mmuRanges c.base c.limit c.ra c.flags)
      (h.mmuRangeAdd malloc n mmuRanges c.base c.limit c.ra c.flags)
    unfold Heap.mmuRangeAdd
    apply (Approximates.refl (listAlloc malloc h ⟨c.base, c.limit, c.ra, c.flags⟩)).bind
    rintro ⟨r, h⟩
    cases r with
    | none => exact .refl _
    | some r =>
      apply (Approximates.refl (bugOn (c.base ≥ c.limit) .mmuRangeBaseLimit)).bind
      intro _
      exact (Approximates.refl (h.getNext mmuRanges)).bind fun pos => listInsert_approximates h mmuRanges r _ more pos
  · intro malloc rest mmuRanges h nodes c fresh shows
    exact ⟨nodes.length, shows.mmuRangeAdd fresh (Nat.le_refl _)⟩

theorem Shows.romFault (shows : Shows rest MmuRange.fields mmuRanges h nodes) (enough : nodes.length ≤ turns)
    (gea gra flags : W32) :
    h.romFault turns mmuRanges gea gra flags = .ok (ToyHv.romFault (nodes.map Prod.snd) gea gra flags) := by
  have scanned := Shows.find (l := []) shows (fun m => gea ≥ m.base ∧ gea ≤ m.limit) enough
  have listed : mmuRangeFind (nodes.map Prod.snd) gea =
      (nodes.find? fun node => gea ≥ node.2.base ∧ gea ≤ node.2.limit).map Prod.snd := List.find?_map
  have found : h.mmuRangeFind turns mmuRanges gea =
      .ok ((nodes.find? fun node => gea ≥ node.2.base ∧ gea ≤ node.2.limit).map Prod.fst) := by
    rw [Heap.mmuRangeFind, shows.getNext_head]
    exact scanned
  unfold Heap.romFault ToyHv.romFault
  rw [found, listed]
  cases same : nodes.find? fun node => gea ≥ node.2.base ∧ gea ≤ node.2.limit with
  | none => rfl
  | some node =>
    obtain ⟨a, m⟩ := node
    obtain ⟨front, back, rfl⟩ := List.append_of_mem (List.mem_of_find?_eq_some same)
    have entry : h.getEntry a = .ok m.fields := shows.getEntry
    simp only [Option.map_some, ok_bind, entry]
    rfl

/-- The ROM's translation table in memory is the one that these calls make of its entries, in their order; nothing is
    allocated for it but the entries, no call uses a block that is free, and each fault gets the table's answer. -/
theorem rom_mmu_ranges_refine (h h₀ t : Heap MmuRangeFields) (romMmuRanges : Ptr) (history : List MmuRequest)
    (begun : initListHead h romMmuRanges = .ok h₀) (run : Run (mmuRangeCalls.MemoryStep romMmuRanges) h₀ history t) :
    ∃ nodes : List (Ptr × MmuRange),
      Run (fun l (c : MmuRequest) l' => (c.served true).step l l') [] history (nodes.map Prod.snd) ∧
      Shows ⟨fun a => h.live a = true ∧ a ≠ romMmuRanges, h⟩ MmuRange.fields romMmuRanges t nodes ∧
      (∀ (c : MmuRequest) (malloc : Malloc MmuRangeFields), malloc.Fresh →
        ∃ answer, Settles (fun turns => mmuRangeCalls.memory malloc turns romMmuRanges t c) answer ∧
          mmuRangeCalls.Answers ⟨fun a => h.live a = true ∧ a ≠ romMmuRanges, h⟩ MmuRange.fields romMmuRanges
            (nodes.map Prod.snd) c answer) ∧
      ∀ gea gra flags, Settles (fun turns => t.romFault turns romMmuRanges gea gra flags)
        (.ok (romFault (nodes.map Prod.snd) gea gra flags)) := by
  obtain ⟨nodes, listed, shows⟩ := mmuRangeCalls_correct.run (.init begun MmuRange.fields) run
  refine ⟨nodes, listed, shows, fun c malloc fresh => mmuRangeCalls_correct.answer shows c fresh, ?_⟩
  exact fun gea gra flags => ⟨nodes.length, fun turns enough => shows.romFault enough gea gra flags⟩

theorem identity_map_refines : ∃ h₀ t, initListHead (onlyHead ⟨0, 0, 0, 0⟩) 1 = .ok h₀ ∧
    Run (mmuRangeCalls.MemoryStep 1) h₀ [⟨0, 0xfffff, 0, 0⟩] t ∧
    ∃ nodes : List (Ptr × MmuRange),
      Run (fun l (c : MmuRequest) l' => (c.served true).step l l') [] [⟨0, 0xfffff, 0, 0⟩] (nodes.map Prod.snd) ∧
      Shows ⟨fun a => (onlyHead (⟨0, 0, 0, 0⟩ : MmuRangeFields)).live a = true ∧ a ≠ 1, onlyHead ⟨0, 0, 0, 0⟩⟩
        MmuRange.fields 1 t nodes ∧
      (∀ (c : MmuRequest) (malloc : Malloc MmuRangeFields), malloc.Fresh →
        ∃ answer, Settles (fun turns => mmuRangeCalls.memory malloc turns 1 t c) answer ∧
          mmuRangeCalls.Answers
            ⟨fun a => (onlyHead (⟨0, 0, 0, 0⟩ : MmuRangeFields)).live a = true ∧ a ≠ 1, onlyHead ⟨0, 0, 0, 0⟩⟩
            MmuRange.fields 1 (nodes.map Prod.snd) c answer) ∧
      ∀ gea gra flags, Settles (fun turns => t.romFault turns 1 gea gra flags)
        (.ok (romFault (nodes.map Prod.snd) gea gra flags)) := by
  have begun : ∃ h₀, initListHead (onlyHead (⟨0, 0, 0, 0⟩ : MmuRangeFields)) 1 = .ok h₀ := ⟨_, rfl⟩
  obtain ⟨h₀, begun⟩ := begun
  have added : ∃ t, mmuRangeCalls.memory (oneBlock 2) 0 1 h₀ ⟨0, 0xfffff, 0, 0⟩ = .ok t := by
    cases begun
    exact ⟨_, rfl⟩
  obtain ⟨t, added⟩ := added
  have run : Run (mmuRangeCalls.MemoryStep 1) h₀ [⟨0, 0xfffff, 0, 0⟩] t :=
    .single (mmuRangeCalls_correct.step (oneBlock_fresh 2) added)
  exact ⟨h₀, t, begun, run, rom_mmu_ranges_refine (onlyHead ⟨0, 0, 0, 0⟩) h₀ t 1 [⟨0, 0xfffff, 0, 0⟩] begun run⟩

end ToyHv

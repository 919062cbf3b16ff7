import ToyHv.Lists.Calls
import ToyHv.Ranges.Partition

namespace ToyHv
open Library

def Range.fields (r : Range) : RangeFields := ⟨r.base, r.limit⟩

/-- A call of `range_add` or `range_remove`. -/
inductive RangeRequest
  | add (base limit : W32)
  | remove (base limit : W32)

/-- With what malloc has for it. -/
def RangeRequest.served (mem : Bool) : RangeRequest → RangeCall
  | .add base limit => .add mem base limit
  | .remove base limit => .remove mem base limit

def RangeRequest.memory (malloc : Malloc RangeFields) (turns : ℕ) (ranges : Ptr) (h : Heap RangeFields) :
    RangeRequest → Checked (Heap RangeFields)
  | .add base limit => h.rangeAdd malloc turns ranges base limit
  | .remove base limit => h.rangeRemove malloc turns ranges base limit

def rangeCalls : ListCalls RangeFields Range RangeRequest where
  run mem l c := (c.served mem).run l
  memory := RangeRequest.memory
  refusal := .rangeAlloc
  messages := [.rangeBaseLimit, .rangeAlreadyPresent]

variable {mem : Bool} {malloc : Malloc RangeFields} {rest : Rest RangeFields} {h : Heap RangeFields} {ranges a : Ptr}
  {turns left : ℕ} {base limit : W32} {nodes front back : List (Ptr × Range)}

/-- Whether an entry of a list is behind a new range, which no entry may contain. -/
def rangeBehind (base limit : W32) (range : Range) : Checked Bool := do
  bugOn (base ≥ range.base ∧ limit ≤ range.limit) .rangeAlreadyPresent
  return (range.base > limit : Bool)

theorem rangeScan_insertBy (r : Range) (l : List Range) :
    rangeScan r l = insertBy (rangeBehind r.base r.limit) r l := by
  induction l with
  | nil => rfl
  | cons range l ih =>
    rw [rangeScan, insertBy, rangeBehind, ih]
    by_cases present : r.base ≥ range.base ∧ r.limit ≤ range.limit
    · simp only [bugOn, if_pos present]
      rfl
    · simp only [bugOn_false present, ok_bind, pure_ok]
      by_cases behind : range.base > r.limit
      · simp [behind]
      · simp [behind]

/-- `range_add` puts its range between two of the entries it passed and did not pass. -/
theorem Shows.rangeAdd (shows : Shows rest Range.fields ranges h nodes) (fresh : malloc.Fresh)
    (enough : nodes.length ≤ turns) :
    RefinesServed .rangeAlloc (h.rangeAdd malloc turns ranges base limit)
      (fun mem => ToyHv.rangeAdd mem (nodes.map Prod.snd) base limit)
      fun h' l => ∃ new r front back, nodes = front ++ back ∧
        (∀ node ∈ front, rangeBehind base limit node.2 = .ok false) ∧ l = (front ++ (new, r) :: back).map Prod.snd ∧
        Shows rest Range.fields ranges h' (front ++ (new, r) :: back) := by
  have refused : ToyHv.rangeAdd false (nodes.map Prod.snd) base limit = .error .rangeAlloc := rangeAdd_noMem ..
  unfold Heap.rangeAdd
  rw [listAlloc_eq]
  cases given : malloc h with
  | none => exact .refused refused
  | some new =>
    simp only [ok_bind]
    refine ⟨.inl refused, .inl ?_⟩
    show Refines _ (ToyHv.rangeAdd true (nodes.map Prod.snd) base limit) _
    by_cases ordered : base < limit
    · have made : ToyHv.rangeAdd true (nodes.map Prod.snd) base limit =
          insertBy (rangeBehind base limit) ⟨base, limit, BitVec.le_of_lt ordered⟩ (nodes.map Prod.snd) := by
        rw [ToyHv.rangeAdd, dif_pos ordered]
        exact rangeScan_insertBy ⟨base, limit, BitVec.le_of_lt ordered⟩ (nodes.map Prod.snd)
      have free := fresh h new given
      rw [made, bugOn_false (BitVec.not_le.mpr ordered), ok_bind, (shows.alloc free _).getNext_head, ok_bind]
      refine (Shows.insert (l := []) (fun range => ?_) shows free ⟨base, limit, BitVec.le_of_lt ordered⟩ enough).mono ?_
      · rfl
      · rintro h' values ⟨front, back, same, passed, rfl, after⟩
        exact ⟨new, _, front, back, same, passed, rfl, after⟩
    · have unordered : ToyHv.rangeAdd true (nodes.map Prod.snd) base limit = .error .rangeBaseLimit := dif_neg ordered
      rw [unordered, bugOn, if_pos (BitVec.not_lt.mp ordered)]
      exact rfl

theorem Range.not_inside {range : Range} (inside : ¬ (range.base ≥ base ∧ range.limit ≤ limit))
    (starts : range.base ≥ base) : limit < range.limit := BitVec.not_le.mp fun le => inside ⟨starts, le⟩

theorem Range.not_starts {range : Range} (starts : ¬ range.base ≥ base) : range.base < base := BitVec.not_le.mp starts

theorem Range.not_ends {range : Range} (ends : ¬ range.limit ≤ limit) : limit < range.limit := BitVec.not_le.mp ends

/-- The list-level result of one turn of `range_remove`: the entries in front afterwards. -/
def rangeRemoveTurn (mem : Bool) (base limit : W32) (front : List Range) (range : Range) (n : List Range) :
    Checked (List Range) :=
  if range.base > limit ∨ range.limit < base then .ok (front ++ [range])
  else if inside : range.base ≥ base ∧ range.limit ≤ limit then .ok front
  else if starts : range.base ≥ base then .ok (front ++ [range.setBase limit (Range.not_inside inside starts)])
  else if ends : range.limit ≤ limit then .ok (front ++ [range.setLimit base (Range.not_starts starts)])
  else do
    let cut := range.setBase limit (Range.not_ends ends)
    let ranges ← rangeAdd mem (front ++ cut :: n) range.base (base - 1)
    return ranges.take (ranges.length - n.length)

theorem rangeRemoveLoop_cons (front : List Range) (range : Range) (n : List Range) :
    rangeRemoveLoop mem base limit front (range :: n) =
      rangeRemoveTurn mem base limit front range n >>= fun front => rangeRemoveLoop mem base limit front n := by
  rw [rangeRemoveLoop, rangeRemoveTurn]
  split
  · rfl
  · split
    · rfl
    · split
      · rfl
      · split
        · rfl
        · dsimp only
          rw [bind_assoc]
          rfl

/-- A range added while an entry behind it is cut goes in front of this entry. -/
theorem insert_in_front {f b : List (Ptr × Range)} {range : Range}
    (same : f ++ b = front ++ (a, range) :: back) (passed : ∀ node ∈ f, rangeBehind base limit node.2 = .ok false)
    (behind : limit < range.base) : ∃ m, front = f ++ m ∧ b = m ++ (a, range) :: back := by
  rcases List.append_eq_append_iff.mp same with ⟨m, rfl, rfl⟩ | ⟨c, rfl, split⟩
  · exact ⟨m, rfl, rfl⟩
  · cases c with
    | nil => exact ⟨[], by simp, by simpa using split.symm⟩
    | cons node c =>
      obtain ⟨rfl, _⟩ := List.cons.inj split
      have answer := passed (a, range) (by simp)
      unfold rangeBehind at answer
      by_cases present : base ≥ range.base ∧ limit ≤ range.limit
      · rw [bugOn, if_pos present] at answer
        cases answer
      · rw [bugOn_false present, ok_bind, decide_eq_true behind] at answer
        cases answer

theorem Shows.rangeRemoveEntry {range : Range} (shows : Shows rest Range.fields ranges h (front ++ (a, range) :: back))
    (fresh : malloc.Fresh) (enough : front.length + (back.length + 1) ≤ turns) (ordered : base < limit) :
    RefinesServed .rangeAlloc (h.rangeRemoveEntry malloc turns ranges a base limit)
      (fun mem => rangeRemoveTurn mem base limit (front.map Prod.snd) range (back.map Prod.snd))
      fun h' l => ∃ front', l = front'.map Prod.snd ∧ front'.length ≤ front.length + 2 ∧
        Shows rest Range.fields ranges h' (front' ++ back) := by
  unfold Heap.rangeRemoveEntry rangeRemoveTurn
  rw [shows.getEntry, ok_bind]
  have replaced : ∀ other : Range, Refines (h.setEntry a other.fields) (.ok (front.map Prod.snd ++ [other]))
      fun h' l => ∃ front', l = front'.map Prod.snd ∧ front'.length ≤ front.length + 2 ∧
        Shows rest Range.fields ranges h' (front' ++ back) := by
    intro other
    obtain ⟨h', stored, after⟩ := shows.store other
    rw [stored]
    exact .ok ⟨front ++ [(a, other)], by simp, by simp, by simpa using after⟩
  apply RefinesServed.ite Iff.rfl
  · intro _
    exact .ok ⟨front ++ [(a, range)], by simp, by simp, by simpa using shows⟩
  intro _
  apply RefinesServed.dite Iff.rfl
  · intro _
    obtain ⟨h', deleted, after⟩ := shows.delete
    rw [deleted]
    exact .ok ⟨front, rfl, by simp, after⟩
  intro inside
  apply RefinesServed.dite Iff.rfl
  · exact fun starts => (replaced (range.setBase limit (Range.not_inside inside starts))).served
  intro starts
  apply RefinesServed.dite Iff.rfl
  · exact fun _ => (replaced (range.setLimit base (Range.not_starts starts))).served
  intro ends
  have above := Range.not_ends ends
  obtain ⟨v, stored, cut⟩ := shows.store (range.setBase limit above)
  change RefinesServed _ (h.setEntry a (range.setBase limit above).fields >>= _) _ _
  have listed : front.map Prod.snd ++ range.setBase limit above :: back.map Prod.snd =
      (front ++ (a, range.setBase limit above) :: back).map Prod.snd := by simp
  simp only [stored, ok_bind, listed]
  refine (cut.rangeAdd fresh (by simpa using enough)).follow ?_
  rintro h' _ ⟨new, low, f, b, same, passed, rfl, after⟩
  have behind : base - 1 < (range.setBase limit above).base := by
    change base - 1 < limit + 1
    have below := BitVec.lt_def.mp ordered
    bv_omega
  obtain ⟨m, rfl, rfl⟩ := insert_in_front same.symm passed behind
  refine ⟨f ++ (new, low) :: m ++ [(a, range.setBase limit above)], ?_, ?_, ?_⟩
  · have split : (f ++ (new, low) :: (m ++ (a, range.setBase limit above) :: back)).map Prod.snd =
        (f ++ (new, low) :: m ++ [(a, range.setBase limit above)]).map Prod.snd ++ back.map Prod.snd := by simp
    rw [split, List.length_append, Nat.add_sub_cancel, List.take_left]
  · simp
    omega
  · simpa using after

theorem Shows.rangeRemoveLoop (shows : Shows rest Range.fields ranges h (front ++ back)) (fresh : malloc.Fresh)
    (ordered : base < limit) (last : back.length ≤ left) (enough : front.length + 2 * back.length ≤ turns) {n : Ptr}
    (next : ∀ node later, back = node :: later → n = entryAt ranges later) :
    RefinesServed .rangeAlloc (Heap.rangeRemoveLoop malloc turns ranges base limit left h (entryAt ranges back) n)
      (fun mem => ToyHv.rangeRemoveLoop mem base limit (front.map Prod.snd) (back.map Prod.snd))
      fun h' l => ∃ nodes, l = nodes.map Prod.snd ∧ Shows rest Range.fields ranges h' nodes := by
  induction back generalizing h front left n with
  | nil =>
    have stop : Heap.rangeRemoveLoop malloc turns ranges base limit left h ranges n = .ok h := by
      cases left <;> exact if_pos rfl
    rw [entryAt_nil, stop]
    exact .ok ⟨front, rfl, by rwa [List.append_nil] at shows⟩
  | cons node back ih =>
    obtain ⟨a, range⟩ := node
    obtain rfl := next _ _ rfl
    cases left with
    | zero => exact absurd last (by simp)
    | succ left =>
      simp only [List.length_cons] at last enough
      rw [entryAt_cons, Heap.rangeRemoveLoop, if_neg shows.entry_ne_head]
      simp only [List.map_cons, rangeRemoveLoop_cons]
      refine (shows.rangeRemoveEntry fresh (by omega) ordered).bind ?_
      rintro h' _ ⟨front', rfl, grown, after⟩
      have following : h'.getNext (entryAt ranges back) = .ok (h'.next (entryAt ranges back)) := by
        rw [Heap.getNext, Heap.use_ok after.live_at]
        rfl
      rw [following, ok_bind]
      refine ih after (by omega) (by omega) ?_
      rintro ⟨b, other⟩ later rfl
      have successor := after.getNext_entry
      rw [entryAt_cons] at following ⊢
      exact Except.ok.inj (following.symm.trans successor)

theorem Shows.rangeRemove (shows : Shows rest Range.fields ranges h nodes) (fresh : malloc.Fresh)
    (enough : 2 * nodes.length ≤ turns) :
    RefinesServed .rangeAlloc (h.rangeRemove malloc turns ranges base limit)
      (fun mem => ToyHv.rangeRemove mem (nodes.map Prod.snd) base limit)
      fun h' l => ∃ nodes, l = nodes.map Prod.snd ∧ Shows rest Range.fields ranges h' nodes := by
  unfold Heap.rangeRemove ToyHv.rangeRemove
  by_cases ordered : base < limit
  · have further : h.getNext (entryAt ranges nodes) = .ok (h.next (entryAt ranges nodes)) := by
      rw [Heap.getNext, Heap.use_ok (Shows.live_at (l := []) shows)]
      rfl
    simp only [bugOn_false (BitVec.not_le.mpr ordered), ok_bind, shows.getNext_head, further]
    have whole : Shows rest Range.fields ranges h ([] ++ nodes) := shows
    refine whole.rangeRemoveLoop fresh ordered (by omega) (by simpa using enough) ?_
    rintro ⟨a, range⟩ later rfl
    exact Except.ok.inj (further.symm.trans (Shows.getNext_entry (l := []) shows))
  · have unordered : bugOn (base ≥ limit) .rangeBaseLimit = .error .rangeBaseLimit := if_pos (BitVec.not_lt.mp ordered)
    simp only [unordered]
    exact ⟨.refl _, .inl rfl⟩

theorem rangeAdd_approximates {m n : ℕ} (more : m ≤ n) : Approximates .stillRunning
    (h.rangeAdd malloc m ranges base limit) (h.rangeAdd malloc n ranges base limit) := by
  unfold Heap.rangeAdd
  apply (Approximates.refl (listAlloc malloc h ⟨base, limit⟩)).bind
  rintro ⟨r, h⟩
  cases r with
  | none => exact .refl _
  | some r =>
    apply (Approximates.refl (bugOn (base ≥ limit) .rangeBaseLimit)).bind
    intro _
    exact (Approximates.refl (h.getNext ranges)).bind fun pos => listInsert_approximates h ranges r _ more pos

theorem rangeRemoveEntry_approximates {m n : ℕ} (more : m ≤ n) : Approximates .stillRunning
    (h.rangeRemoveEntry malloc m ranges a base limit) (h.rangeRemoveEntry malloc n ranges a base limit) := by
  unfold Heap.rangeRemoveEntry
  apply (Approximates.refl (h.getEntry a)).bind
  intro entry
  apply Approximates.ite
  · exact .refl _
  apply Approximates.ite
  · exact .refl _
  apply Approximates.ite
  · exact .refl _
  apply Approximates.ite
  · exact .refl _
  exact (Approximates.refl _).bind fun h => rangeAdd_approximates more

theorem rangeRemoveLoop_approximates {m n : ℕ} (more : m ≤ n) {later : ℕ} (longer : left ≤ later) (pos : Ptr) :
    Approximates .stillRunning (Heap.rangeRemoveLoop malloc m ranges base limit left h a pos)
      (Heap.rangeRemoveLoop malloc n ranges base limit later h a pos) := by
  induction left generalizing h a pos later with
  | zero =>
    unfold Heap.rangeRemoveLoop
    apply Approximates.ite
    · exact .refl _
    · exact .inl rfl
  | succ left ih =>
    cases later with
    | zero => exact absurd longer (by simp)
    | succ later =>
      rw [Heap.rangeRemoveLoop, Heap.rangeRemoveLoop]
      apply Approximates.ite
      · exact .refl _
      apply (rangeRemoveEntry_approximates more).bind
      intro h
      exact (Approximates.refl (h.getNext pos)).bind fun next => ih (Nat.le_of_succ_le_succ longer) next

theorem rangeRemove_approximates {m n : ℕ} (more : m ≤ n) : Approximates .stillRunning
    (h.rangeRemove malloc m ranges base limit) (h.rangeRemove malloc n ranges base limit) := by
  unfold Heap.rangeRemove
  apply (Approximates.refl (bugOn (base ≥ limit) .rangeBaseLimit)).bind
  intro _
  apply (Approximates.refl (h.getNext ranges)).bind
  intro range
  exact (Approximates.refl (h.getNext range)).bind fun pos => rangeRemoveLoop_approximates more more pos

variable {message : Abort}

theorem rangeScan_message {r : Range} {l : List Range} (aborted : rangeScan r l = .error message) :
    message = .rangeAlreadyPresent := by
  induction l with
  | nil => cases aborted
  | cons range l ih =>
    rw [rangeScan, bind_error] at aborted
    rcases aborted with present | ⟨_, _, aborted⟩
    · exact (bugOn_error.mp present).2.symm
    · split at aborted
      · cases aborted
      · rcases bind_error.mp aborted with later | ⟨_, _, ⟨⟩⟩
        exact ih later

theorem rangeAdd_message {l : List Range} (aborted : rangeAdd mem l base limit = .error message) :
    message ∈ rangeCalls.refusal :: rangeCalls.messages := by
  unfold rangeAdd at aborted
  split at aborted
  · split at aborted
    · cases aborted
      decide
    · rw [rangeScan_message aborted]
      decide
  · cases aborted
    cases mem <;> decide

theorem rangeRemoveTurn_message {range : Range} {f n : List Range}
    (aborted : rangeRemoveTurn mem base limit f range n = .error message) :
    message ∈ rangeCalls.refusal :: rangeCalls.messages := by
  unfold rangeRemoveTurn at aborted
  split at aborted
  · cases aborted
  split at aborted
  · cases aborted
  split at aborted
  · cases aborted
  split at aborted
  · cases aborted
  rcases bind_error.mp aborted with added | ⟨_, _, ⟨⟩⟩
  exact rangeAdd_message added

theorem rangeRemoveLoop_message {f l : List Range} (aborted : rangeRemoveLoop mem base limit f l = .error message) :
    message ∈ rangeCalls.refusal :: rangeCalls.messages := by
  induction l generalizing f with
  | nil => cases aborted
  | cons range l ih =>
    rw [rangeRemoveLoop_cons, bind_error] at aborted
    rcases aborted with turn | ⟨f, _, later⟩
    · exact rangeRemoveTurn_message turn
    · exact ih later

theorem RangeCall.aborted {l : List Range} {c : RangeCall} (failed : c.run l = .error message) :
    message ∈ rangeCalls.refusal :: rangeCalls.messages := by
  cases c with
  | add mem base limit => exact rangeAdd_message failed
  | remove mem base limit =>
    rcases bind_error.mp failed with unordered | ⟨_, _, loop⟩
    · rw [← (bugOn_error.mp unordered).2]
      decide
    · exact rangeRemoveLoop_message loop

theorem rangeCalls_correct : rangeCalls.Correct Range.fields := by
  constructor
  · decide
  · exact fun mem l c message failed => RangeCall.aborted failed
  · intro malloc ranges h c m n more
    cases c with
    | add base limit => exact rangeAdd_approximates more
    | remove base limit => exact rangeRemove_approximates more
  · intro malloc rest ranges h nodes c fresh shows
    cases c with
    | add base limit =>
      refine ⟨nodes.length, (shows.rangeAdd fresh (Nat.le_refl _)).mono ?_⟩
      rintro h' l ⟨new, r, front, back, _, _, same, after⟩
      exact ⟨_, same, after⟩
    | remove base limit => exact ⟨2 * nodes.length, shows.rangeRemove fresh (Nat.le_refl _)⟩

/-- The lists of ranges.c in memory are the lists that these calls make of their entries, in their order, and nothing
    is allocated for them but the entries: nothing leaks, and no call uses a block that is free or does not end. -/
theorem range_lists_refine (h h₀ t : Heap RangeFields) (ranges : Ptr) (history : List RangeRequest)
    (begun : initListHead h ranges = .ok h₀) (run : Run (rangeCalls.MemoryStep ranges) h₀ history t) :
    ∃ nodes : List (Ptr × Range), Run (fun l c l' => RangeStep l (c.served true) l') [] history (nodes.map Prod.snd) ∧
      Shows ⟨fun a => h.live a = true ∧ a ≠ ranges, h⟩ Range.fields ranges t nodes ∧
      ∀ (c : RangeRequest) (malloc : Malloc RangeFields), malloc.Fresh →
        ∃ answer, Settles (fun turns => c.memory malloc turns ranges t) answer ∧
          rangeCalls.Answers ⟨fun a => h.live a = true ∧ a ≠ ranges, h⟩ Range.fields ranges (nodes.map Prod.snd) c
            answer := by
  obtain ⟨nodes, listed, shows⟩ := rangeCalls_correct.run (.init begun Range.fields) run
  exact ⟨nodes, listed, shows, fun c malloc fresh => rangeCalls_correct.answer shows c fresh⟩

theorem one_range_refines : ∃ h₀ t, initListHead (onlyHead ⟨0, 0⟩) 1 = .ok h₀ ∧
    Run (rangeCalls.MemoryStep 1) h₀ [.add 0x1000 0x3fff, .remove 0x2000 0x2fff] t ∧
    ∃ nodes : List (Ptr × Range), nodes.map Prod.snd = [⟨0x1000, 0x1fff, by decide⟩, ⟨0x3000, 0x3fff, by decide⟩] ∧
      Shows ⟨fun a => (onlyHead (⟨0, 0⟩ : RangeFields)).live a = true ∧ a ≠ 1, onlyHead ⟨0, 0⟩⟩ Range.fields 1 t nodes ∧
      ∀ (c : RangeRequest) (malloc : Malloc RangeFields), malloc.Fresh →
        ∃ answer, Settles (fun turns => c.memory malloc turns 1 t) answer ∧
          rangeCalls.Answers ⟨fun a => (onlyHead (⟨0, 0⟩ : RangeFields)).live a = true ∧ a ≠ 1, onlyHead ⟨0, 0⟩⟩
            Range.fields 1 (nodes.map Prod.snd) c answer := by
  have ended : (initListHead (onlyHead (⟨0, 0⟩ : RangeFields)) 1 >>= fun h₀ =>
      rangeCalls.memory (oneBlock 2) 0 1 h₀ (.add 0x1000 0x3fff) >>= fun v =>
        rangeCalls.memory (oneBlock 3) 2 1 v (.remove 0x2000 0x2fff)).isOk = true := by decide +kernel
  obtain ⟨t, ended⟩ := ok_of_isOk ended
  obtain ⟨h₀, begun, ended⟩ := bind_ok.mp ended
  obtain ⟨v, added, split⟩ := bind_ok.mp ended
  have run : Run (rangeCalls.MemoryStep 1) h₀ [.add 0x1000 0x3fff, .remove 0x2000 0x2fff] t :=
    .snoc (.single (rangeCalls_correct.step (oneBlock_fresh 2) added))
      (rangeCalls_correct.step (oneBlock_fresh 3) split)
  obtain ⟨nodes, listed, shows, answers⟩ := range_lists_refine (onlyHead ⟨0, 0⟩) h₀ t 1 _ begun run
  have one : RangeStep [] (RangeRequest.served true (.add 0x1000 0x3fff)) [⟨0x1000, 0x3fff, by decide⟩] := rfl
  have two : RangeStep [⟨0x1000, 0x3fff, by decide⟩] (RangeRequest.served true (.remove 0x2000 0x2fff))
      [⟨0x1000, 0x1fff, by decide⟩, ⟨0x3000, 0x3fff, by decide⟩] := rfl
  have first : Run (fun l (c : RangeRequest) l' => RangeStep l (c.served true) l') [] [.add 0x1000 0x3fff] _ :=
    .single one
  have entries := first.snoc two
  have same := listed.unique entries fun _ _ _ _ first second => Except.ok.inj (first.symm.trans second)
  exact ⟨h₀, t, begun, run, nodes, same, shows, answers⟩

end ToyHv

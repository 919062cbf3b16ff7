import ToyHv.Library.Outcomes
import ToyHv.Library.Rings
import ToyHv.Model.Lists

namespace ToyHv
open Library

variable {β γ : Type}

/-- What else is allocated, and the memory it was last seen in. -/
structure Rest (β : Type) where
  blocks : Ptr → Prop
  heap : Heap β

/-- A list in memory: its entries by their blocks, in order. Nothing is allocated but the head, the entries and the
    rest, and the rest is as it was. -/
structure Shows (rest : Rest β) (fields : γ → β) (head : Ptr) (h : Heap β) (nodes : List (Ptr × γ)) : Prop where
  ring : Ring h.next h.prev head (nodes.map Prod.fst)
  entry : ∀ node ∈ nodes, h.entry node.1 = fields node.2
  live : ∀ a, h.live a = true ↔ a ∈ head :: nodes.map Prod.fst ∨ rest.blocks a
  apart : ∀ a, rest.blocks a → a ∉ head :: nodes.map Prod.fst
  kept : ∀ a, rest.blocks a → h.next a = rest.heap.next a ∧ h.prev a = rest.heap.prev a ∧ h.entry a = rest.heap.entry a

variable {rest : Rest β} {fields : γ → β} {head a new : Ptr} {h : Heap β} {l r nodes : List (Ptr × γ)} {x : γ}

theorem Heap.use_ok (live : h.live a = true) : h.use a = .ok () := by
  rw [Heap.use, bugOn_false]
  rw [live]
  decide

theorem Heap.free_ok (live : h.live a = true) : h.free a = .ok { h with live := Function.update h.live a false } := by
  rw [Heap.free, Heap.use_ok live]
  rfl

theorem Heap.setEntry_ok (live : h.live a = true) (value : β) :
    h.setEntry a value = .ok { h with entry := Function.update h.entry a value } := by
  rw [Heap.setEntry, Heap.use_ok live]
  rfl

/-- The first of the entries, or the head behind the last. -/
def entryAt (head : Ptr) (nodes : List (Ptr × γ)) : Ptr := (nodes.map Prod.fst).headD head

@[simp] theorem entryAt_nil (head : Ptr) : entryAt head ([] : List (Ptr × γ)) = head := rfl
@[simp] theorem entryAt_cons (head : Ptr) (node : Ptr × γ) (nodes : List (Ptr × γ)) :
    entryAt head (node :: nodes) = node.1 := rfl

theorem Shows.live_head (shows : Shows rest fields head h nodes) : h.live head = true :=
  (shows.live head).mpr (.inl (by simp))

theorem Shows.live_entry (shows : Shows rest fields head h (l ++ (a, x) :: r)) : h.live a = true :=
  (shows.live a).mpr (.inl (by simp))

theorem Shows.live_at (shows : Shows rest fields head h (l ++ r)) : h.live (entryAt head r) = true := by
  cases r with
  | nil => exact shows.live_head
  | cons node r => exact shows.live_entry

theorem Shows.getNext_head (shows : Shows rest fields head h nodes) : h.getNext head = .ok (entryAt head nodes) := by
  rw [Heap.getNext, Heap.use_ok shows.live_head]
  exact congrArg Except.ok shows.ring.next_head

theorem Shows.getNext_entry (shows : Shows rest fields head h (l ++ (a, x) :: r)) :
    h.getNext a = .ok (entryAt head r) := by
  have ring := shows.ring
  rw [List.map_append, List.map_cons] at ring
  rw [Heap.getNext, Heap.use_ok shows.live_entry]
  exact congrArg Except.ok ring.next_entry

theorem Shows.getEntry (shows : Shows rest fields head h (l ++ (a, x) :: r)) : h.getEntry a = .ok (fields x) := by
  rw [Heap.getEntry, Heap.use_ok shows.live_entry]
  exact congrArg Except.ok (shows.entry (a, x) (by simp))

theorem Shows.entry_once (shows : Shows rest fields head h (l ++ (a, x) :: r)) :
    a ∉ head :: (l.map Prod.fst ++ r.map Prod.fst) := by
  have distinct := shows.ring.distinct
  rw [List.map_append, List.map_cons, ← List.cons_append, List.nodup_middle] at distinct
  exact (List.nodup_cons.mp distinct).1

theorem Shows.entry_ne_head (shows : Shows rest fields head h (l ++ (a, x) :: r)) : a ≠ head := by
  have once := shows.entry_once
  rintro rfl
  exact once (List.mem_cons_self ..)

/-- A block behind the list's back. -/
theorem Shows.notMem_of_free (shows : Shows rest fields head h nodes) (free : h.live new = false) :
    new ∉ head :: nodes.map Prod.fst ∧ ¬ rest.blocks new := by
  have dead : ¬ h.live new = true := by simp [free]
  rw [shows.live new, not_or] at dead
  exact dead

def Heap.alloc (h : Heap β) (new : Ptr) (value : β) : Heap β :=
  { live := Function.update h.live new true
    next := Function.update h.next new new
    prev := Function.update h.prev new new
    entry := Function.update h.entry new value }

theorem listAlloc_eq (malloc : Malloc β) (h : Heap β) (value : β) :
    listAlloc malloc h value = .ok (malloc h, match malloc h with | none => h | some r => h.alloc r value) := by
  unfold listAlloc
  cases malloc h with
  | none => rfl
  | some r =>
    simp only [Heap.setEntry, initListHead, Heap.setNext, Heap.setPrev, Heap.use, Function.update_self, bugOn,
      Bool.true_eq_false, if_false, ok_bind, pure_ok, Heap.alloc]

theorem listAddTail_ok {pos : Ptr} (live : ∀ a ∈ [new, pos, h.prev pos], h.live a = true) :
    listAddTail h new pos = .ok { h with
      next := Function.update (Function.update h.next new pos) (h.prev pos) new
      prev := Function.update (Function.update h.prev pos new) new (h.prev pos) } := by
  have here : bugOn (h.live new = false) .undefined = .ok () := bugOn_false (by simp [live new])
  have there : bugOn (h.live pos = false) .undefined = .ok () := bugOn_false (by simp [live pos])
  have before : bugOn (h.live (h.prev pos) = false) .undefined = .ok () := bugOn_false (by simp [live (h.prev pos)])
  simp only [listAddTail, listAddBetween, Heap.getPrev, Heap.setNext, Heap.setPrev, Heap.use, here, there, before,
    ok_bind, pure_ok]

theorem Shows.entryAt_mem (shows : Shows rest fields head h (l ++ r)) :
    entryAt head r ∈ head :: (l ++ r).map Prod.fst ∧ h.prev (entryAt head r) ∈ head :: (l ++ r).map Prod.fst := by
  have ring := shows.ring
  rw [List.map_append] at ring ⊢
  have first := headD_mem head (r.map Prod.fst)
  have last := ring.prev_mem
  rw [List.mem_cons] at first last
  rw [List.mem_cons, List.mem_append, List.mem_cons, List.mem_append, entryAt]
  tauto

/-- A new block gets its place in front of a position. -/
theorem Shows.add (shows : Shows rest fields head h (l ++ r)) (free : h.live new = false) (x : γ) :
    ∃ h', listAddTail (h.alloc new (fields x)) new (entryAt head r) = .ok h' ∧
      Shows rest fields head h' (l ++ (new, x) :: r) := by
  obtain ⟨unlisted, unkept⟩ := shows.notMem_of_free free
  obtain ⟨here, before⟩ := shows.entryAt_mem
  have older : ∀ a ∈ head :: (l ++ r).map Prod.fst, a ≠ new := fun a member => ne_of_mem_of_not_mem member unlisted
  have prev : (h.alloc new (fields x)).prev (entryAt head r) = h.prev (entryAt head r) :=
    Function.update_of_ne (older _ here) ..
  have live : ∀ a ∈ head :: (l ++ r).map Prod.fst, (h.alloc new (fields x)).live a = true :=
    fun a member => (Function.update_of_ne (older a member) ..).trans ((shows.live a).mpr (.inl member))
  have alive : ∀ a ∈ [new, entryAt head r, (h.alloc new (fields x)).prev (entryAt head r)],
      (h.alloc new (fields x)).live a = true := by
    intro a member
    rw [prev] at member
    simp only [List.mem_cons, List.not_mem_nil, or_false] at member
    rcases member with rfl | rfl | rfl
    · exact Function.update_self ..
    · exact live _ here
    · exact live _ before
  refine ⟨_, listAddTail_ok alive, ?_⟩
  have linked : Ring (h.alloc new (fields x)).next (h.alloc new (fields x)).prev head
      (l.map Prod.fst ++ r.map Prod.fst) := by
    have ring := shows.ring
    rw [List.map_append] at ring older
    apply ring.congr
    · exact fun a member => Function.update_of_ne (older a member) ..
    · exact fun a member => Function.update_of_ne (older a member) ..
  constructor
  · rw [List.map_append] at unlisted
    have inserted := linked.insert unlisted
    rw [List.map_append, List.map_cons]
    exact inserted
  · intro node member
    change Function.update h.entry new (fields x) node.1 = _
    simp only [List.mem_append, List.mem_cons] at member
    by_cases mine : node = (new, x)
    · subst mine
      exact Function.update_self ..
    · have listed : node ∈ l ++ r := by
        rw [List.mem_append]
        tauto
      have other := older node.1 (List.mem_cons_of_mem _ (List.mem_map_of_mem listed))
      rw [Function.update_of_ne other]
      exact shows.entry node listed
  · intro a
    change Function.update h.live new true a = true ↔ _
    by_cases same : a = new
    · subst same
      simp
    · rw [Function.update_of_ne same, shows.live a]
      simp only [List.map_append, List.map_cons, List.mem_cons, List.mem_append]
      tauto
  · intro a kept member
    have away := shows.apart a kept
    simp only [List.map_append, List.map_cons, List.mem_cons, List.mem_append] at member away
    have other : a ≠ new := fun same => unkept (same ▸ kept)
    tauto
  · intro a kept
    have other : a ≠ new := fun same => unkept (same ▸ kept)
    have away := shows.apart a kept
    have notHere : a ≠ entryAt head r := fun same => away (same ▸ here)
    have notBefore : a ≠ (h.alloc new (fields x)).prev (entryAt head r) := by
      rw [prev]
      exact fun same => away (same ▸ before)
    have next : (h.alloc new (fields x)).next a = h.next a := Function.update_of_ne other ..
    have prev : (h.alloc new (fields x)).prev a = h.prev a := Function.update_of_ne other ..
    have entry : (h.alloc new (fields x)).entry a = h.entry a := Function.update_of_ne other ..
    obtain ⟨sameNext, samePrev, sameEntry⟩ := shows.kept a kept
    refine ⟨?_, ?_, entry.trans sameEntry⟩
    · exact (Function.update_of_ne notBefore ..).trans ((Function.update_of_ne other ..).trans (next.trans sameNext))
    · exact (Function.update_of_ne other ..).trans ((Function.update_of_ne notHere ..).trans (prev.trans samePrev))

/-- Until it has its place a new block belongs to the rest. -/
theorem Shows.alloc (shows : Shows rest fields head h nodes) (free : h.live new = false) (value : β) :
    Shows ⟨fun a => rest.blocks a ∨ a = new, h.alloc new value⟩ fields head (h.alloc new value) nodes := by
  obtain ⟨unlisted, unkept⟩ := shows.notMem_of_free free
  have older : ∀ a ∈ head :: nodes.map Prod.fst, a ≠ new := fun a member => ne_of_mem_of_not_mem member unlisted
  constructor
  · apply shows.ring.congr
    · exact fun a member => Function.update_of_ne (older a member) ..
    · exact fun a member => Function.update_of_ne (older a member) ..
  · intro node member
    have other := older node.1 (List.mem_cons_of_mem _ (List.mem_map_of_mem member))
    exact (Function.update_of_ne other ..).trans (shows.entry node member)
  · intro a
    change Function.update h.live new true a = true ↔ _
    by_cases same : a = new
    · subst same
      simp
    · rw [Function.update_of_ne same, shows.live a]
      simp only [same, or_false]
  · rintro a (kept | rfl)
    · exact shows.apart a kept
    · exact unlisted
  · exact fun a _ => ⟨rfl, rfl, rfl⟩

theorem listDel_ok (live : ∀ b ∈ [a, h.prev a, h.next a], h.live b = true) :
    listDel h a = .ok { h with
      next := Function.update (Function.update h.next (h.prev a) (h.next a)) a LIST_POISON1
      prev := Function.update (Function.update h.prev (h.next a) (h.prev a)) a LIST_POISON2 } := by
  have here : bugOn (h.live a = false) .undefined = .ok () := bugOn_false (by simp [live a])
  have before : bugOn (h.live (h.prev a) = false) .undefined = .ok () := bugOn_false (by simp [live (h.prev a)])
  have behind : bugOn (h.live (h.next a) = false) .undefined = .ok () := bugOn_false (by simp [live (h.next a)])
  simp only [listDel, listDelBetween, Heap.getPrev, Heap.getNext, Heap.setNext, Heap.setPrev, Heap.use, here, before,
    behind, ok_bind, pure_ok]

/-- The block of an entry's neighbours stays when the entry goes. -/
theorem Shows.neighbours (shows : Shows rest fields head h (l ++ (a, x) :: r)) :
    h.prev a ∈ head :: l.map Prod.fst ∧ h.next a ∈ head :: r.map Prod.fst := by
  have ring := shows.ring
  rw [List.map_append, List.map_cons] at ring
  have behind := ring.next_entry
  have before := ring.prev_mem
  rw [behind]
  exact ⟨before, headD_mem head _⟩

theorem Shows.delete (shows : Shows rest fields head h (l ++ (a, x) :: r)) :
    ∃ h', (listDel h a >>= fun h => h.free a) = .ok h' ∧ Shows rest fields head h' (l ++ r) := by
  obtain ⟨before, behind⟩ := shows.neighbours
  have distinct := shows.entry_once
  have listed : ∀ b, b ∈ head :: (l ++ (a, x) :: r).map Prod.fst ↔
      b = a ∨ b ∈ head :: (l.map Prod.fst ++ r.map Prod.fst) := by
    intro b
    simp only [List.map_append, List.map_cons, List.mem_cons, List.mem_append]
    tauto
  have prevListed : h.prev a ∈ head :: (l.map Prod.fst ++ r.map Prod.fst) := by
    rw [List.mem_cons] at before ⊢
    rw [List.mem_append]
    tauto
  have nextListed : h.next a ∈ head :: (l.map Prod.fst ++ r.map Prod.fst) := by
    rw [List.mem_cons] at behind ⊢
    rw [List.mem_append]
    tauto
  have alive : ∀ b ∈ [a, h.prev a, h.next a], h.live b = true := by
    intro b member
    simp only [List.mem_cons, List.not_mem_nil, or_false] at member
    apply (shows.live b).mpr
    rw [listed]
    rcases member with rfl | rfl | rfl
    · exact .inl (.inl rfl)
    · exact .inl (.inr prevListed)
    · exact .inl (.inr nextListed)
  rw [listDel_ok alive, ok_bind]
  refine ⟨_, Heap.free_ok shows.live_entry, ?_⟩
  constructor
  · have ring := shows.ring
    rw [List.map_append, List.map_cons] at ring
    rw [List.map_append]
    exact ring.erase LIST_POISON1 LIST_POISON2
  · intro node member
    apply shows.entry node
    simp only [List.mem_append, List.mem_cons] at member ⊢
    tauto
  · intro b
    change Function.update h.live a false b = true ↔ _
    rw [List.map_append]
    by_cases same : b = a
    · subst same
      have free : ¬ rest.blocks b := fun kept => shows.apart b kept ((listed b).mpr (.inl rfl))
      rw [Function.update_self]
      simp only [Bool.false_eq_true, false_iff, not_or]
      exact ⟨distinct, free⟩
    · rw [Function.update_of_ne same, shows.live b, listed]
      tauto
  · intro b kept
    have away := shows.apart b kept
    rw [listed] at away
    rw [List.map_append]
    tauto
  · intro b kept
    have away := shows.apart b kept
    rw [listed, not_or] at away
    obtain ⟨next, prev, entry⟩ := shows.kept b kept
    refine ⟨?_, ?_, entry⟩
    · have apart : b ≠ h.prev a := fun same => away.2 (same ▸ prevListed)
      exact (Function.update_of_ne away.1 ..).trans ((Function.update_of_ne apart ..).trans next)
    · have apart : b ≠ h.next a := fun same => away.2 (same ▸ nextListed)
      exact (Function.update_of_ne away.1 ..).trans ((Function.update_of_ne apart ..).trans prev)

theorem Shows.store (shows : Shows rest fields head h (l ++ (a, x) :: r)) (y : γ) :
    ∃ h', h.setEntry a (fields y) = .ok h' ∧ Shows rest fields head h' (l ++ (a, y) :: r) := by
  have same : (l ++ (a, y) :: r).map Prod.fst = (l ++ (a, x) :: r).map Prod.fst := by simp
  refine ⟨_, Heap.setEntry_ok shows.live_entry _, ?_⟩
  constructor
  · rw [same]
    exact shows.ring
  · intro node member
    have once := shows.entry_once
    simp only [List.mem_cons, List.mem_append, not_or] at once member
    obtain ⟨_, front, back⟩ := once
    change Function.update h.entry a (fields y) node.1 = _
    rcases member with older | rfl | older
    · have other : node.1 ≠ a := ne_of_mem_of_not_mem (List.mem_map_of_mem older) front
      rw [Function.update_of_ne other]
      exact shows.entry node (by simp [older])
    · exact Function.update_self ..
    · have other : node.1 ≠ a := ne_of_mem_of_not_mem (List.mem_map_of_mem older) back
      rw [Function.update_of_ne other]
      exact shows.entry node (by simp [older])
  · rw [same]
    exact shows.live
  · rw [same]
    exact shows.apart
  · intro b kept
    have away := shows.apart b kept
    have other : b ≠ a := by
      rintro rfl
      simp at away
    obtain ⟨next, prev, entry⟩ := shows.kept b kept
    exact ⟨next, prev, (Function.update_of_ne other ..).trans entry⟩

/-- The scan of a list for the place of a new entry. -/
def insertBy (body : γ → Checked Bool) (x : γ) : List γ → Checked (List γ)
  | [] => .ok [x]
  | y :: l => do
    if ← body y then return x :: y :: l
    else return y :: (← insertBy body x l)

theorem Shows.insert {bodyOf : β → Checked Bool} {body : γ → Checked Bool} (same : ∀ y, bodyOf (fields y) = body y)
    (shows : Shows rest fields head h (l ++ r)) (free : h.live new = false) (x : γ) {turns : ℕ}
    (enough : r.length ≤ turns) :
    Refines (listInsert (h.alloc new (fields x)) head new bodyOf turns (entryAt head r))
      (insertBy body x (r.map Prod.snd)) fun h' values => ∃ front back, r = front ++ back ∧
        (∀ node ∈ front, body node.2 = .ok false) ∧ values = (front ++ (new, x) :: back).map Prod.snd ∧
        Shows rest fields head h' (l ++ (front ++ (new, x) :: back)) := by
  induction r generalizing l turns with
  | nil =>
    obtain ⟨h', added, after⟩ := shows.add free x
    rw [entryAt_nil] at added ⊢
    have loop : listInsert (h.alloc new (fields x)) head new bodyOf turns head = .ok h' := by
      cases turns <;> exact (if_pos rfl).trans added
    rw [loop]
    exact .ok ⟨[], [], rfl, by simp, rfl, after⟩
  | cons node r ih =>
    obtain ⟨a, y⟩ := node
    cases turns with
    | zero => exact absurd enough (by simp)
    | succ turns =>
      have there := shows.alloc free (fields x)
      have loop : listInsert (h.alloc new (fields x)) head new bodyOf (turns + 1) a =
          body y >>= fun stop => if stop then listAddTail (h.alloc new (fields x)) new a
            else listInsert (h.alloc new (fields x)) head new bodyOf turns (entryAt head r) := by
        rw [listInsert, if_neg shows.entry_ne_head]
        simp only [there.getEntry, there.getNext_entry, same, ok_bind]
      rw [entryAt_cons, loop, List.map_cons, insertBy]
      cases answer : body y with
      | error message => exact rfl
      | ok stop =>
        cases stop with
        | true =>
          obtain ⟨h', added, after⟩ := shows.add free x
          exact ⟨h', added, [], (a, y) :: r, rfl, by simp, rfl, after⟩
        | false =>
          have split : l ++ (a, y) :: r = (l ++ [(a, y)]) ++ r := by simp
          rw [split] at shows
          refine (ih shows (Nat.le_of_succ_le_succ enough)).follow ?_
          rintro h' values ⟨front, back, rfl, passed, rfl, after⟩
          rw [List.append_assoc] at after
          refine ⟨(a, y) :: front, back, rfl, fun node member => ?_, rfl, after⟩
          rcases List.mem_cons.mp member with rfl | older
          · exact answer
          · exact passed node older

theorem Shows.find (shows : Shows rest fields head h (l ++ r)) (found : β → Bool) {turns : ℕ}
    (enough : r.length ≤ turns) :
    listFind h head found turns (entryAt head r) = .ok ((r.find? fun node => found (fields node.2)).map Prod.fst) := by
  induction r generalizing l turns with
  | nil => cases turns <;> exact if_pos rfl
  | cons node r ih =>
    obtain ⟨a, x⟩ := node
    cases turns with
    | zero => exact absurd enough (by simp)
    | succ turns =>
      rw [entryAt_cons, listFind, if_neg shows.entry_ne_head, shows.getEntry, ok_bind]
      cases here : found (fields x) with
      | true =>
        have first : ((a, x) :: r).find? (fun node => found (fields node.2)) = some (a, x) :=
          List.find?_cons_of_pos here
        rw [first]
        rfl
      | false =>
        have split : l ++ (a, x) :: r = (l ++ [(a, x)]) ++ r := by simp
        have next : h.getNext a = .ok (entryAt head r) := shows.getNext_entry
        have skipped : ((a, x) :: r).find? (fun node => found (fields node.2)) =
            r.find? fun node => found (fields node.2) := List.find?_cons_of_neg (by simp [here])
        rw [split] at shows
        rw [skipped, next]
        exact ih shows (Nat.le_of_succ_le_succ enough)

end ToyHv

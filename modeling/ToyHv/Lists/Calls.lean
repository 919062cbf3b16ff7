import ToyHv.Library.Fuel
import ToyHv.Library.Runs
import ToyHv.Lists.Entries

namespace ToyHv
open Library

variable {β γ call : Type}

/-- malloc hands out blocks that are free. -/
def Malloc.Fresh (malloc : Malloc β) : Prop := ∀ h a, malloc h = some a → h.live a = false

theorem listInsert_approximates (h : Heap β) (head r : Ptr) (body : β → Checked Bool) {m n : ℕ} (more : m ≤ n)
    (pos : Ptr) : Approximates .stillRunning (listInsert h head r body m pos) (listInsert h head r body n pos) := by
  induction m generalizing n pos with
  | zero =>
    unfold listInsert
    apply Approximates.ite
    · exact .refl _
    · exact .inl rfl
  | succ m ih =>
    cases n with
    | zero => exact absurd more (by simp)
    | succ n =>
      rw [listInsert, listInsert]
      apply Approximates.ite
      · exact .refl _
      apply (Approximates.refl (h.getEntry pos)).bind
      intro entry
      apply (Approximates.refl (body entry)).bind
      intro stop
      apply Approximates.ite
      · exact .refl _
      exact (Approximates.refl (h.getNext pos)).bind fun next => ih (Nat.le_of_succ_le_succ more) next

/-- The calls that work on one list: what each does to its entries when it has memory or has none, what it does to the
    memory they are in, and what it may abort with. -/
structure ListCalls (β γ call : Type) where
  run : Bool → List γ → call → Checked (List γ)
  memory : Malloc β → ℕ → Ptr → Heap β → call → Checked (Heap β)
  refusal : Abort
  messages : List Abort

variable {calls : ListCalls β γ call} {rest : Rest β} {fields : γ → β} {head : Ptr} {h h₀ t : Heap β}
  {nodes : List (Ptr × γ)} {malloc : Malloc β} {history : List call}

/-- A call that comes to its end. -/
def ListCalls.Step (calls : ListCalls β γ call) (l : List γ) (c : call) (l' : List γ) : Prop :=
  calls.run true l c = .ok l'

/-- The same in memory, whatever blocks malloc has for it. -/
def ListCalls.MemoryStep (calls : ListCalls β γ call) (head : Ptr) (h : Heap β) (c : call) (h' : Heap β) : Prop :=
  ∃ malloc : Malloc β, malloc.Fresh ∧ Settles (fun turns => calls.memory malloc turns head h c) (.ok h')

/-- The calls are safe with their lists: each takes a bounded number of turns, aborts just when it should and leaves a
    list with the entries that it should. -/
structure ListCalls.Correct (calls : ListCalls β γ call) (fields : γ → β) : Prop where
  ends : .stillRunning ∉ calls.refusal :: calls.messages
  aborts : ∀ mem l c message, calls.run mem l c = .error message → message ∈ calls.refusal :: calls.messages
  grows : ∀ malloc head h c m n, m ≤ n →
    Approximates .stillRunning (calls.memory malloc m head h c) (calls.memory malloc n head h c)
  refines : ∀ (malloc : Malloc β) (rest : Rest β) head h nodes c, malloc.Fresh → Shows rest fields head h nodes →
    ∃ enough, RefinesServed calls.refusal (calls.memory malloc enough head h c)
      (fun mem => calls.run mem (nodes.map Prod.snd) c)
      fun h' l => ∃ nodes, l = nodes.map Prod.snd ∧ Shows rest fields head h' nodes

/-- What a call answers in memory: what it answers on the entries. -/
def ListCalls.Answers (calls : ListCalls β γ call) (rest : Rest β) (fields : γ → β) (head : Ptr)
    (l : List γ) (c : call) (answer : Checked (Heap β)) : Prop :=
  (∀ message, answer = .error message → message ∈ calls.refusal :: calls.messages) ∧
    RefinesServed calls.refusal answer (fun mem => calls.run mem l c)
      fun h' l => ∃ nodes, l = nodes.map Prod.snd ∧ Shows rest fields head h' nodes

theorem ListCalls.Correct.answer (correct : calls.Correct fields) (shows : Shows rest fields head h nodes) (c : call)
    (fresh : malloc.Fresh) : ∃ answer, Settles (fun turns => calls.memory malloc turns head h c) answer ∧
      calls.Answers rest fields head (nodes.map Prod.snd) c answer := by
  obtain ⟨enough, refines⟩ := correct.refines malloc rest head h nodes c fresh shows
  have messages : ∀ message, calls.memory malloc enough head h c = .error message →
      message ∈ calls.refusal :: calls.messages := by
    intro message failed
    rw [failed] at refines
    obtain ⟨mem, refines⟩ := refines.some
    exact correct.aborts mem _ c message refines.failed
  refine ⟨_, settles (correct.grows malloc head h c) ?_, messages, refines⟩
  exact fun stopped => correct.ends (messages _ stopped)

theorem Shows.init (begun : initListHead h head = .ok h₀) (fields : γ → β) :
    Shows ⟨fun a => h.live a = true ∧ a ≠ head, h⟩ fields head h₀ [] := by
  have live : h.live head = true := by
    simp only [initListHead, Heap.setNext, bind_ok, Heap.use, bugOn_ok] at begun
    obtain ⟨_, ⟨_, live, _⟩, _⟩ := begun
    simpa using live
  have made : initListHead h head = .ok { h with
      next := Function.update h.next head head
      prev := Function.update h.prev head head } := by
    have here : bugOn (h.live head = false) .undefined = .ok () := bugOn_false (by simp [live])
    simp only [initListHead, Heap.setNext, Heap.setPrev, Heap.use, here, ok_bind, pure_ok]
  obtain rfl := Except.ok.inj (begun.symm.trans made)
  constructor
  · exact Ring.empty h.next h.prev head
  · simp
  · intro a
    by_cases same : a = head
    · simp [same, live]
    · simp [same]
  · rintro a ⟨_, other⟩
    simpa using other
  · rintro a ⟨_, other⟩
    refine ⟨?_, ?_, rfl⟩
    · exact Function.update_of_ne other ..
    · exact Function.update_of_ne other ..

/-- A run of calls in memory is a run on the entries. -/
theorem ListCalls.Correct.run (correct : calls.Correct fields) (begun : Shows rest fields head h [])
    (run : Run (calls.MemoryStep head) h history t) :
    ∃ nodes : List (Ptr × γ), Run calls.Step [] history (nodes.map Prod.snd) ∧ Shows rest fields head t nodes := by
  induction run with
  | nil => exact ⟨[], .nil _, begun⟩
  | snoc earlier taken ih =>
    obtain ⟨nodes, before, shows⟩ := ih
    obtain ⟨malloc, fresh, settled⟩ := taken
    obtain ⟨answer, settles, _, _, refines⟩ := correct.answer shows _ fresh
    obtain rfl := settled.unique settles
    rcases refines with refines | ⟨⟨⟩, _⟩
    obtain ⟨l, returned, nodes', rfl, after⟩ := refines.returned rfl
    exact ⟨nodes', .snoc before returned, after⟩

/-- A call that has come to its end with some number of turns is a step. -/
theorem ListCalls.Correct.step (correct : calls.Correct fields) (fresh : malloc.Fresh) {turns : ℕ} {c : call}
    (returned : calls.memory malloc turns head h c = .ok t) : calls.MemoryStep head h c t := by
  refine ⟨malloc, fresh, ?_⟩
  rw [← returned]
  apply settles (correct.grows malloc head h c)
  rw [returned]
  exact nofun

/-- Block 1 is a list's head, and there are no other blocks. -/
def onlyHead (value : β) : Heap β := ⟨(· == 1), fun _ => 0, fun _ => 0, fun _ => value⟩

/-- malloc has this block only. -/
def oneBlock (block : Ptr) : Malloc β := fun h => if h.live block then none else some block

theorem oneBlock_fresh (block : Ptr) : (oneBlock block : Malloc β).Fresh := by
  intro h a given
  unfold oneBlock at given
  split at given
  · cases given
  · cases given
    exact eq_false_of_ne_true (by assumption)

end ToyHv

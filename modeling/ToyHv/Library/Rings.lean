import Mathlib.Data.List.Nodup
import Mathlib.Logic.Function.Basic

namespace Library

variable {α : Type*} {next prev next' prev' : α → α} {a b c head new : α} {l r : List α}

/-- From `a` to `b` through these, each linked to its neighbour both ways. -/
def Linked (next prev : α → α) (a : α) : List α → α → Prop
  | [], b => next a = b ∧ prev b = a
  | c :: l, b => next a = c ∧ prev c = a ∧ Linked next prev c l b

theorem linked_append (a b c : α) (l r : List α) :
    Linked next prev a (l ++ c :: r) b ↔ Linked next prev a l c ∧ Linked next prev c r b := by
  induction l generalizing a with
  | nil => exact and_assoc.symm
  | cons d l ih =>
    rw [List.cons_append, Linked, Linked, ih d]
    tauto

theorem Linked.last_mem (linked : Linked next prev a l b) : prev b ∈ a :: l := by
  induction l generalizing a with
  | nil => simp [linked.2]
  | cons c l ih => exact List.mem_cons_of_mem a (ih linked.2.2)

theorem Linked.first (linked : Linked next prev a l b) : next a = l.headD b := by
  cases l with
  | nil => exact linked.1
  | cons c l => exact linked.1

theorem Linked.congr (linked : Linked next prev a l b) (forward : ∀ x ∈ a :: l, next' x = next x)
    (backward : ∀ x ∈ b :: l, prev' x = prev x) : Linked next' prev' a l b := by
  induction l generalizing a with
  | nil =>
    rw [Linked, forward a (by simp), backward b (by simp)]
    exact linked
  | cons c l ih =>
    obtain ⟨first, second, rest⟩ := linked
    rw [Linked, forward a (by simp), backward c (by simp)]
    refine ⟨first, second, ih rest ?_ ?_⟩
    · exact fun x member => forward x (List.mem_cons_of_mem a member)
    · intro x member
      apply backward
      simp only [List.mem_cons] at member ⊢
      tauto

/-- The last one of a chain gets another successor. -/
theorem Linked.redirect (linked : Linked next prev a l b) (distinct : (a :: l).Nodup)
    (forward : ∀ x ∈ a :: l, x ≠ prev b → next' x = next x) (backward : ∀ x ∈ l, prev' x = prev x)
    (last : next' (prev b) = c) (first : prev' c = prev b) : Linked next' prev' a l c := by
  induction l generalizing a with
  | nil =>
    rw [linked.2] at last first
    exact ⟨last, first⟩
  | cons d l ih =>
    obtain ⟨here, behind, rest⟩ := linked
    have other : a ≠ prev b := fun same => (List.nodup_cons.mp distinct).1 (same ▸ rest.last_mem)
    rw [Linked, forward a (by simp) other, backward d (by simp)]
    refine ⟨here, behind, ih rest distinct.of_cons ?_ ?_⟩
    · exact fun x member => forward x (List.mem_cons_of_mem a member)
    · exact fun x member => backward x (List.mem_cons_of_mem d member)

/-- A head, and a way through these from it and back to it. -/
structure Ring (next prev : α → α) (head : α) (l : List α) : Prop where
  linked : Linked next prev head l head
  distinct : (head :: l).Nodup

theorem Ring.split (ring : Ring next prev head (l ++ r)) : Linked next prev head l (r.headD head) := by
  cases r with
  | nil =>
    have linked := ring.linked
    rwa [List.append_nil] at linked
  | cons c r => exact ((linked_append head head c l r).mp ring.linked).1

theorem Ring.headD_notMem (ring : Ring next prev head (l ++ r)) : r.headD head ∉ l := by
  have distinct := ring.distinct
  cases r with
  | nil => simp_all
  | cons c r =>
    rw [List.headD_cons]
    grind

theorem headD_mem (head : α) (r : List α) : r.headD head ∈ head :: r := by
  cases r with
  | nil => simp
  | cons c r => simp

theorem Ring.congr (ring : Ring next prev head l) (forward : ∀ x ∈ head :: l, next' x = next x)
    (backward : ∀ x ∈ head :: l, prev' x = prev x) : Ring next' prev' head l :=
  ⟨ring.linked.congr forward backward, ring.distinct⟩

/-- The one in front of a position names it and is named by it. -/
theorem Ring.prev_mem (ring : Ring next prev head (l ++ r)) : prev (r.headD head) ∈ head :: l := ring.split.last_mem

theorem Ring.next_head (ring : Ring next prev head l) : next head = l.headD head := ring.linked.first

theorem Ring.next_entry (ring : Ring next prev head (l ++ c :: r)) : next c = r.headD head :=
  ((linked_append head head c l r).mp ring.linked).2.first

variable [DecidableEq α]

theorem Ring.empty (next prev : α → α) (head : α) :
    Ring (Function.update next head head) (Function.update prev head head) head [] := by
  refine ⟨⟨?_, ?_⟩, List.nodup_singleton head⟩
  · exact Function.update_self ..
  · exact Function.update_self ..

/-- `new` goes between the last one in front, which the first one behind names, and that one. -/
theorem Ring.insert (ring : Ring next prev head (l ++ r)) (fresh : new ∉ head :: (l ++ r)) :
    Ring (Function.update (Function.update next new (r.headD head)) (prev (r.headD head)) new)
      (Function.update (Function.update prev (r.headD head) new) new (prev (r.headD head))) head (l ++ new :: r) := by
  have segment := ring.split
  have last := segment.last_mem
  have behind := ring.headD_notMem
  have other := headD_mem head r
  have distinct := ring.distinct
  refine ⟨(linked_append head head new l r).mpr ⟨?_, ?_⟩, ?_⟩
  · apply segment.redirect
    · grind
    · intro x member apart
      rw [Function.update_of_ne apart, Function.update_of_ne (by grind)]
    · intro x member
      rw [Function.update_of_ne (by grind), Function.update_of_ne (by grind)]
    · exact Function.update_self ..
    · exact Function.update_self ..
  · cases r with
    | nil =>
      simp only [List.headD_nil] at last ⊢
      refine ⟨?_, ?_⟩
      · rw [Function.update_of_ne (by grind), Function.update_self]
      · rw [Function.update_of_ne (by grind), Function.update_self]
    | cons c r =>
      simp only [List.headD_cons] at last behind ⊢
      refine ⟨?_, ?_, ?_⟩
      · rw [Function.update_of_ne (by grind), Function.update_self]
      · rw [Function.update_of_ne (by grind), Function.update_self]
      · apply ((linked_append head head c l r).mp ring.linked).2.congr
        · intro x member
          rw [Function.update_of_ne (by grind), Function.update_of_ne (by grind)]
        · intro x member
          rw [Function.update_of_ne (by grind), Function.update_of_ne (by grind)]
  · grind

/-- The neighbours of `c` are linked past it, and its own links may be anything. -/
theorem Ring.erase (ring : Ring next prev head (l ++ c :: r)) (x y : α) :
    Ring (Function.update (Function.update next (prev c) (next c)) c x)
      (Function.update (Function.update prev (next c) (prev c)) c y) head (l ++ r) := by
  obtain ⟨segment, rest⟩ := (linked_append head head c l r).mp ring.linked
  have last := segment.last_mem
  have behind := headD_mem head r
  have distinct := ring.distinct
  have following := rest.first
  have segment : Linked (Function.update (Function.update next (prev c) (next c)) c x)
      (Function.update (Function.update prev (next c) (prev c)) c y) head l (next c) := by
    apply segment.redirect
    · grind
    · intro z member apart
      rw [Function.update_of_ne (by grind), Function.update_of_ne apart]
    · intro z member
      rw [Function.update_of_ne (by grind), Function.update_of_ne (by cases r <;> grind)]
    · rw [Function.update_of_ne (by grind), Function.update_self]
    · rw [Function.update_of_ne (by grind), Function.update_self]
  refine ⟨?_, by grind⟩
  cases r with
  | nil =>
    rw [List.headD_nil] at following
    rw [following] at segment ⊢
    rwa [List.append_nil]
  | cons d r =>
    rw [List.headD_cons] at following
    rw [following] at segment ⊢
    refine (linked_append head head d l r).mpr ⟨segment, rest.2.2.congr ?_ ?_⟩
    · intro z member
      rw [Function.update_of_ne (by grind), Function.update_of_ne (by grind)]
    · intro z member
      rw [Function.update_of_ne (by grind), Function.update_of_ne (by grind)]

end Library

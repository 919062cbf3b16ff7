import Mathlib.Order.Interval.Basic
import Mathlib.Data.List.Pairwise

namespace Library

variable {α κ ε : Type*} [LinearOrder α] (span : ε → NonemptyInterval α) (key : ε → κ)

/-- Two keyed intervals agree when they share no point, or when they are nested
    and carry the same key. -/
def Coherent (e f : ε) : Prop :=
  (span e).snd < (span f).fst ∨ (span f).snd < (span e).fst ∨
    ((span e ≤ span f ∨ span f ≤ span e) ∧ key e = key f)

/-- A list of keyed intervals in order of their first points, any two of which agree. -/
structure Laminar (l : List ε) : Prop where
  sorted : l.Pairwise fun e f => (span e).fst ≤ (span f).fst
  coherent : l.Pairwise (Coherent span key)

variable {span key}

theorem Coherent.symm {e f : ε} (h : Coherent span key e f) : Coherent span key f e := by
  rcases h with before | after | ⟨nested, same⟩
  · exact .inr (.inl before)
  · exact .inl after
  · exact .inr (.inr ⟨nested.symm, same.symm⟩)

theorem Coherent.key_eq {e f : ε} {a : α} (h : Coherent span key e f)
    (he : a ∈ span e) (hf : a ∈ span f) : key e = key f := by
  rw [NonemptyInterval.mem_def] at he hf
  rcases h with before | after | ⟨_, same⟩
  · exact absurd (he.2.trans_lt (before.trans_le hf.1)) (lt_irrefl a)
  · exact absurd (hf.2.trans_lt (after.trans_le he.1)) (lt_irrefl a)
  · exact same

theorem Laminar.nil : Laminar span key ([] : List ε) := ⟨.nil, .nil⟩

theorem Laminar.key_eq {l : List ε} (h : Laminar span key l) {e f : ε} {a : α}
    (he : e ∈ l) (hf : f ∈ l) (ae : a ∈ span e) (af : a ∈ span f) : key e = key f := by
  have symmetric : Std.Symm (Coherent span key) := ⟨fun _ _ => Coherent.symm⟩
  rcases eq_or_ne e f with rfl | different
  · rfl
  · exact (h.coherent.forall he hf different).key_eq ae af

/-- A new entry goes between the entries it was compared with and the ones that
    start after its end: those need no comparison. -/
theorem Laminar.insert {e : ε} {pre post : List ε} (h : Laminar span key (pre ++ post))
    (start : ∀ f ∈ pre, (span f).fst ≤ (span e).fst) (agree : ∀ f ∈ pre, Coherent span key f e)
    (after : ∀ g ∈ post, (span e).snd < (span g).fst) : Laminar span key (pre ++ e :: post) := by
  obtain ⟨preSorted, postSorted, acrossSorted⟩ := List.pairwise_append.mp h.sorted
  obtain ⟨preAgree, postAgree, acrossAgree⟩ := List.pairwise_append.mp h.coherent
  constructor
  · refine List.pairwise_append.mpr ⟨preSorted, List.pairwise_cons.mpr ⟨?_, postSorted⟩, ?_⟩
    · exact fun g member => (span e).fst_le_snd.trans (after g member).le
    · intro f member g later
      rcases List.mem_cons.mp later with rfl | later
      · exact start f member
      · exact acrossSorted f member g later
  · refine List.pairwise_append.mpr ⟨preAgree, List.pairwise_cons.mpr ⟨?_, postAgree⟩, ?_⟩
    · exact fun g member => .inl (after g member)
    · intro f member g later
      rcases List.mem_cons.mp later with rfl | later
      · exact agree f member
      · exact acrossAgree f member g later

theorem starts_after {l : List ε} (sorted : l.Pairwise fun e f => (span e).fst ≤ (span f).fst)
    {bound : α} (head : ∀ f ∈ l.head?, bound < (span f).fst) : ∀ g ∈ l, bound < (span g).fst := by
  cases l with
  | nil => simp
  | cons f rest =>
    have first := head f rfl
    intro g member
    rcases List.mem_cons.mp member with rfl | later
    · exact first
    · exact first.trans_le (List.rel_of_pairwise_cons sorted later)

end Library

import Mathlib.Data.List.TakeWhile
import ToyHv.Library.Forest

namespace Library
namespace Forest

variable {α β : Type*}

/-- A label of the forest below these others, the root first. -/
inductive Chain : Forest α → List α → α → Prop
  | here {x : α} {children siblings : Forest α} : Chain (node x children siblings) [] x
  | down {a x : α} {l : List α} {children siblings : Forest α} :
      Chain children l x → Chain (node a children siblings) (a :: l) x
  | along {a x : α} {l : List α} {children siblings : Forest α} :
      Chain siblings l x → Chain (node a children siblings) l x

/-- Every label, by its depth when the roots are at depth `k`. -/
def Each (P : ℕ → α → Prop) : ℕ → Forest α → Prop
  | _, nil => True
  | k, node a children siblings => P k a ∧ children.Each P (k + 1) ∧ siblings.Each P k

/-- Where a list of names leads from `p`, with the trees below it: always to the first one that
    answers to the next name. -/
def resolve (answers : α → β → Bool) : α → Forest α → List β → Option α
  | p, _, [] => some p
  | _, nil, _ :: _ => none
  | p, node a children siblings, b :: names =>
    if answers a b then resolve answers a children names else resolve answers p siblings (b :: names)

/-- On the way down to a label, none of the trees before it answers to its name. -/
inductive Clear (answers : α → β → Bool) (name : α → β) : Forest α → List α → α → Prop
  | here {x : α} {children siblings : Forest α} : Clear answers name (node x children siblings) [] x
  | down {a x : α} {l : List α} {children siblings : Forest α} :
      Clear answers name children l x → Clear answers name (node a children siblings) (a :: l) x
  | along {a x : α} {l : List α} {children siblings : Forest α} : answers a (name (l.headD x)) = false →
      Clear answers name siblings l x → Clear answers name (node a children siblings) l x

variable {answers : α → β → Bool} {name : α → β} {f : Forest α} {l : List α} {p x y : α} {P Q : ℕ → α → Prop} {k : ℕ}

theorem Each.of_mem (all : ∀ a ∈ f.nodes, ∀ j, k ≤ j → P j a) : f.Each P k := by
  induction f generalizing k with
  | nil => trivial
  | node a children siblings below after =>
    refine ⟨all a List.mem_cons_self k (Nat.le_refl k), below fun b member j deep => ?_, after fun b member => ?_⟩
    · exact all b (List.mem_cons_of_mem _ (List.mem_append_left _ member)) j (Nat.le_of_succ_le deep)
    · exact all b (List.mem_cons_of_mem _ (List.mem_append_right _ member))

theorem Each.imp_mem (all : f.Each P k) (weaker : ∀ k, ∀ a ∈ f.nodes, P k a → Q k a) : f.Each Q k := by
  induction f generalizing k with
  | nil => trivial
  | node a children siblings below after =>
    refine ⟨weaker k a List.mem_cons_self all.1, below all.2.1 fun j b member => ?_, after all.2.2 fun j b member => ?_⟩
    · exact weaker j b (List.mem_cons_of_mem _ (List.mem_append_left _ member))
    · exact weaker j b (List.mem_cons_of_mem _ (List.mem_append_right _ member))

theorem exists_chain (member : x ∈ f.nodes) : ∃ l, Chain f l x := by
  induction f with
  | nil => cases member
  | node a children siblings below after =>
    rcases List.mem_cons.mp member with rfl | member
    · exact ⟨[], .here⟩
    · rcases List.mem_append.mp member with member | member
      · obtain ⟨l, chain⟩ := below member
        exact ⟨a :: l, .down chain⟩
      · obtain ⟨l, chain⟩ := after member
        exact ⟨l, .along chain⟩

theorem Chain.mem (chain : Chain f l x) : x ∈ f.nodes := by
  induction chain with
  | here => exact List.mem_cons_self
  | down _ ih => exact List.mem_cons_of_mem _ (List.mem_append_left _ ih)
  | along _ ih => exact List.mem_cons_of_mem _ (List.mem_append_right _ ih)

theorem Chain.above (chain : Chain f l x) : ∀ a ∈ l, a ∈ f.nodes := by
  induction chain with
  | here => simp
  | down _ ih =>
    intro b member
    rcases List.mem_cons.mp member with rfl | member
    · exact List.mem_cons_self
    · exact List.mem_cons_of_mem _ (List.mem_append_left _ (ih b member))
  | along _ ih => exact fun b member => List.mem_cons_of_mem _ (List.mem_append_right _ (ih b member))

/-- In a forest without repeated labels there is one way to a label. -/
theorem Chain.unique {l' : List α} (chain : Chain f l x) (other : Chain f l' x) (once : f.nodes.Nodup) : l = l' := by
  induction chain generalizing l' with
  | here =>
    obtain ⟨apart, _⟩ := List.nodup_cons.mp once
    cases other with
    | here => rfl
    | down other => exact absurd (List.mem_append_left _ other.mem) apart
    | along other => exact absurd (List.mem_append_right _ other.mem) apart
  | down chain ih =>
    obtain ⟨apart, parts⟩ := List.nodup_cons.mp once
    obtain ⟨inner, _, across⟩ := List.nodup_append.mp parts
    cases other with
    | here => exact absurd (List.mem_append_left _ chain.mem) apart
    | down other => rw [ih other inner]
    | along other => exact absurd rfl (across _ chain.mem _ other.mem)
  | along chain ih =>
    obtain ⟨apart, parts⟩ := List.nodup_cons.mp once
    obtain ⟨_, outer, across⟩ := List.nodup_append.mp parts
    cases other with
    | here => exact absurd (List.mem_append_right _ chain.mem) apart
    | down other => exact absurd rfl (across _ other.mem _ chain.mem)
    | along other => exact ih other outer

theorem Clear.chain (clear : Clear answers name f l x) : Chain f l x := by
  induction clear with
  | here => exact .here
  | down _ ih => exact .down ih
  | along _ _ ih => exact .along ih

theorem names_cons (name : α → β) (l : List α) (x : α) :
    ∃ names, l.map name ++ [name x] = name (l.headD x) :: names := by
  cases l with
  | nil => exact ⟨[], rfl⟩
  | cons a l => exact ⟨l.map name ++ [name x], rfl⟩

theorem resolve_mem {names : List β} (resolved : resolve answers p f names = some x) : x = p ∨ x ∈ f.nodes := by
  induction f generalizing p names with
  | nil =>
    cases names with
    | nil => exact .inl (Option.some.inj resolved).symm
    | cons b names => cases resolved
  | node a children siblings below after =>
    cases names with
    | nil => exact .inl (Option.some.inj resolved).symm
    | cons b names =>
      rw [resolve] at resolved
      split at resolved
      · rcases below resolved with rfl | member
        · exact .inr List.mem_cons_self
        · exact .inr (List.mem_cons_of_mem _ (List.mem_append_left _ member))
      · rcases after resolved with rfl | member
        · exact .inl rfl
        · exact .inr (List.mem_cons_of_mem _ (List.mem_append_right _ member))

/-- The names on the way to a label lead to it exactly where no tree before the way answers to them. -/
theorem Chain.resolves_iff (chain : Chain f l x) (own : ∀ a ∈ f.nodes, answers a (name a) = true)
    (once : f.nodes.Nodup) (p : α) :
    resolve answers p f (l.map name ++ [name x]) = some x ↔ Clear answers name f l x := by
  induction chain generalizing p with
  | @here x children siblings =>
    rw [List.map_nil, List.nil_append, resolve, if_pos (own x List.mem_cons_self)]
    exact iff_of_true (by cases children <;> rfl) .here
  | @down a x l children siblings chain ih =>
    obtain ⟨inner, _, across⟩ := List.nodup_append.mp (List.nodup_cons.mp once).2
    rw [List.map_cons, List.cons_append, resolve, if_pos (own a List.mem_cons_self),
      ih (fun b member => own b (List.mem_cons_of_mem _ (List.mem_append_left _ member))) inner]
    constructor
    · exact .down
    · intro clear
      cases clear with
      | down clear => exact clear
      | along _ clear => exact absurd rfl (across x chain.mem x clear.chain.mem)
  | @along a x l children siblings chain ih =>
    obtain ⟨apart, parts⟩ := List.nodup_cons.mp once
    obtain ⟨_, outer, across⟩ := List.nodup_append.mp parts
    have later := ih (fun b member => own b (List.mem_cons_of_mem _ (List.mem_append_right _ member))) outer p
    obtain ⟨names, split⟩ := names_cons name l x
    have elsewhere : x ≠ a := by
      rintro rfl
      exact apart (List.mem_append_right _ chain.mem)
    have outside : x ∉ children.nodes := fun inside => across x inside x chain.mem rfl
    rw [split] at later ⊢
    rw [resolve]
    split
    · rename_i taken
      constructor
      · intro resolved
        rcases resolve_mem resolved with same | inside
        · exact absurd same elsewhere
        · exact absurd inside outside
      · intro clear
        cases clear with
        | here => exact absurd rfl elsewhere
        | down clear => exact absurd clear.chain.mem outside
        | along free _ => exact absurd taken (Bool.eq_false_iff.mp free)
    · rename_i free
      rw [later]
      constructor
      · exact .along (Bool.eq_false_iff.mpr free)
      · intro clear
        cases clear with
        | here => exact absurd rfl elsewhere
        | down clear => exact absurd clear.chain.mem outside
        | along _ clear => exact clear

theorem chain_top (member : x ∈ f.tops) : Chain f [] x := by
  induction f with
  | nil => cases member
  | node a children siblings _ after =>
    rcases List.mem_cons.mp member with rfl | member
    · exact .here
    · exact .along (after member)

theorem tops_sublist (f : Forest α) : f.tops.Sublist f.nodes := by
  induction f with
  | nil => exact List.Sublist.refl _
  | node a children siblings _ after =>
    exact (after.trans (List.sublist_append_right _ _)).cons_cons a

theorem Each.of_tops (tops : ∀ a ∈ f.tops, P k a) (deeper : ∀ a ∈ f.nodes, ∀ j, k < j → P j a) : f.Each P k := by
  induction f generalizing k with
  | nil => trivial
  | node a children siblings below after =>
    refine ⟨tops a List.mem_cons_self, .of_mem fun b member j deep => ?_,
      after (fun b member => tops b (List.mem_cons_of_mem _ member)) fun b member => ?_⟩
    · exact deeper b (List.mem_cons_of_mem _ (List.mem_append_left _ member)) j deep
    · exact deeper b (List.mem_cons_of_mem _ (List.mem_append_right _ member))

/-- The first root that answers to a name, with the trees below it. -/
def pick (answers : α → β → Bool) (b : β) : Forest α → Option (α × Forest α)
  | nil => none
  | node a children siblings => if answers a b then some (a, children) else siblings.pick answers b

theorem resolve_cons (p : α) (b : β) (names : List β) : resolve answers p f (b :: names) =
    (f.pick answers b).bind fun found => resolve answers found.1 found.2 names := by
  induction f with
  | nil => rfl
  | node a children siblings _ after =>
    rw [resolve, pick]
    split
    · rfl
    · exact after

theorem pick_tops (answers : α → β → Bool) (b : β) (f : Forest α) :
    (f.pick answers b).map Prod.fst = f.tops.find? fun a => answers a b := by
  induction f with
  | nil => rfl
  | node a children siblings _ after =>
    rw [pick, tops]
    split
    · rename_i found
      exact (List.find?_cons_of_pos (p := fun a => answers a b) found).symm
    · rename_i other
      exact after.trans (List.find?_cons_of_neg (p := fun a => answers a b) other).symm

end Forest

section Components

variable {β : Type*} [DecidableEq β]

/-- The names of a path. Empty ones, between or around separators, do not count. -/
def components (sep : β) (path : List β) : List (List β) := (path.splitOn sep).filter (· ≠ [])

variable {sep : β} {path : List β}

theorem components_nil : components sep ([] : List β) = [] := by
  simp [components]

theorem components_sep (sep : β) (path : List β) : components sep (sep :: path) = components sep path := by
  have split := List.splitOn_append_cons_self [] path (a := sep)
  rw [List.nil_append, List.splitOn_nil] at split
  rw [components, split, components]
  simp

theorem components_dropWhile (sep : β) (path : List β) :
    components sep (path.dropWhile (· = sep)) = components sep path := by
  induction path with
  | nil => rfl
  | cons c path ih =>
    rw [List.dropWhile_cons]
    split
    · rename_i same
      rw [of_decide_eq_true same, components_sep, ih]
    · rfl

theorem components_name {name : List β} (plain : sep ∉ name) (some : name ≠ []) :
    components sep name = [name] := by
  rw [components, List.splitOn_eq_singleton plain]
  simp [some]

theorem components_append {name : List β} (plain : sep ∉ name) (some : name ≠ []) (path : List β) :
    components sep (name ++ sep :: path) = name :: components sep path := by
  rw [components, List.splitOn_append_cons_self, List.splitOn_eq_singleton plain]
  simp [components, some]

/-- The first name of a path that starts with one, and what is left behind it. -/
theorem components_cons {c : β} (first : c ≠ sep) (path : List β) :
    components sep (c :: path) = (c :: path).takeWhile (· ≠ sep) ::
      components sep ((c :: path).dropWhile (· ≠ sep)) := by
  have some : (c :: path).takeWhile (· ≠ sep) ≠ [] := by simp [first]
  have plain : sep ∉ (c :: path).takeWhile (· ≠ sep) := by
    intro member
    have apart := List.mem_takeWhile_imp member
    exact absurd rfl (of_decide_eq_true apart)
  have split : c :: path = (c :: path).takeWhile (· ≠ sep) ++ (c :: path).dropWhile (· ≠ sep) :=
    List.takeWhile_append_dropWhile.symm
  cases rest : (c :: path).dropWhile (· ≠ sep) with
  | nil =>
    rw [rest, List.append_nil] at split
    conv_lhs => rw [split, components_name plain some]
    rw [components_nil]
  | cons stop rest' =>
    have same : stop = sep := by
      have head := List.head?_dropWhile_not (fun x => decide (x ≠ sep)) (c :: path)
      rw [rest] at head
      simpa using head
    subst same
    rw [rest] at split
    conv_lhs => rw [split, components_append plain some]
    rw [components_sep]

end Components
end Library

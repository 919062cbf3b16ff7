import Mathlib.Data.List.Nodup

namespace Library

/-- Ordered trees side by side: the root of the first, the trees below it and the trees after it. -/
inductive Forest (α : Type*)
  | nil
  | node (root : α) (children siblings : Forest α)

variable {α β : Type*}

namespace Forest

def nodes : Forest α → List α
  | nil => []
  | node a children siblings => a :: (children.nodes ++ siblings.nodes)

def tops : Forest α → List α
  | nil => []
  | node a _ siblings => a :: siblings.tops

def map (g : α → β) : Forest α → Forest β
  | nil => nil
  | node a children siblings => node (g a) (children.map g) (siblings.map g)

theorem nodes_map (g : α → β) (f : Forest α) : (f.map g).nodes = f.nodes.map g := by
  induction f with
  | nil => rfl
  | node a children siblings below after => simp [map, nodes, below, after]

theorem tops_map (g : α → β) (f : Forest α) : (f.map g).tops = f.tops.map g := by
  induction f with
  | nil => rfl
  | node a children siblings _ after => simp [map, tops, after]

/-- A label of the forest, with the trees below it. -/
inductive HasChildren (p : α) (below : Forest α) : Forest α → Prop
  | here {siblings : Forest α} : HasChildren p below (node p below siblings)
  | inside {a : α} {children siblings : Forest α} :
      HasChildren p below children → HasChildren p below (node a children siblings)
  | after {a : α} {children siblings : Forest α} :
      HasChildren p below siblings → HasChildren p below (node a children siblings)

/-- `Placed f k p x e q`: when the roots of `f` are at depth `k` under `p`, then `x` is in `f`, at
    depth `e` under `q`. -/
inductive Placed : Forest α → ℕ → α → α → ℕ → α → Prop
  | top {k : ℕ} {p x : α} {children siblings : Forest α} : Placed (node x children siblings) k p x k p
  | inside {k e : ℕ} {a p q x : α} {children siblings : Forest α} :
      Placed children (k + 1) a x e q → Placed (node a children siblings) k p x e q
  | after {k e : ℕ} {a p q x : α} {children siblings : Forest α} :
      Placed siblings k p x e q → Placed (node a children siblings) k p x e q

variable {f below : Forest α} {p q x : α} {k e : ℕ}

theorem exists_children (member : p ∈ f.nodes) : ∃ below, HasChildren p below f := by
  induction f with
  | nil => cases member
  | node a children siblings inside after =>
    rcases List.mem_cons.mp member with rfl | member
    · exact ⟨children, .here⟩
    · rcases List.mem_append.mp member with member | member
      · obtain ⟨below, has⟩ := inside member
        exact ⟨below, .inside has⟩
      · obtain ⟨below, has⟩ := after member
        exact ⟨below, .after has⟩

theorem HasChildren.mem (has : HasChildren p below f) : p ∈ f.nodes := by
  induction has with
  | here => exact List.mem_cons_self
  | inside _ ih => exact List.mem_cons_of_mem _ (List.mem_append_left _ ih)
  | after _ ih => exact List.mem_cons_of_mem _ (List.mem_append_right _ ih)

theorem HasChildren.map (has : HasChildren p below f) (g : α → β) :
    HasChildren (g p) (below.map g) (f.map g) := by
  induction has with
  | here => exact .here
  | inside _ ih => exact .inside ih
  | after _ ih => exact .after ih

theorem root_or_below (member : x ∈ f.nodes) :
    x ∈ f.tops ∨ ∃ p below, HasChildren p below f ∧ x ∈ below.tops := by
  induction f with
  | nil => cases member
  | node a children siblings inside after =>
    rcases List.mem_cons.mp member with rfl | member
    · exact .inl List.mem_cons_self
    · rcases List.mem_append.mp member with member | member
      · rcases inside member with top | ⟨p, below, has, top⟩
        · exact .inr ⟨a, children, .here, top⟩
        · exact .inr ⟨p, below, .inside has, top⟩
      · rcases after member with top | ⟨p, below, has, top⟩
        · exact .inl (List.mem_cons_of_mem _ top)
        · exact .inr ⟨p, below, .after has, top⟩

theorem placed_top (member : x ∈ f.tops) : Placed f k p x k p := by
  induction f with
  | nil => cases member
  | node a children siblings _ after =>
    rcases List.mem_cons.mp member with rfl | member
    · exact .top
    · exact .after (after member)

/-- A label below another one is placed under it. -/
theorem HasChildren.placed (has : HasChildren q below f) (member : x ∈ below.tops) :
    ∃ e, Placed f k p x e q := by
  induction has generalizing k p with
  | here => exact ⟨k + 1, .inside (placed_top member)⟩
  | @inside a _ _ _ ih =>
    obtain ⟨e, placed⟩ := ih (k := k + 1) (p := a)
    exact ⟨e, .inside placed⟩
  | after _ ih =>
    obtain ⟨e, placed⟩ := ih
    exact ⟨e, .after placed⟩

theorem Placed.mem (placed : Placed f k p x e q) : x ∈ f.nodes := by
  induction placed with
  | top => exact List.mem_cons_self
  | inside _ ih => exact List.mem_cons_of_mem _ (List.mem_append_left _ ih)
  | after _ ih => exact List.mem_cons_of_mem _ (List.mem_append_right _ ih)

theorem Placed.deep (placed : Placed f k p x e q) : k ≤ e := by
  induction placed with
  | top => exact Nat.le_refl _
  | inside _ ih => exact Nat.le_of_succ_le ih
  | after _ ih => exact ih

end Forest

/-- Everything seen from `x` on by first children and next siblings, until `stop`. -/
inductive Visits (child peer : α → α) (stop : α) : α → List α → Prop
  | stop : Visits child peer stop stop []
  | node {x : α} {below beside : List α} : x ≠ stop → Visits child peer stop (child x) below →
      Visits child peer stop (peer x) beside → Visits child peer stop x (x :: (below ++ beside))

/-- `x` is among `start` and its next siblings, until `stop`. -/
inductive OnChain (peer : α → α) (stop : α) : α → α → Prop
  | here {x : α} : x ≠ stop → OnChain peer stop x x
  | next {start x : α} : start ≠ stop → OnChain peer stop (peer start) x → OnChain peer stop start x

/-- The answers `child` and `peer` give follow the forest from `x` on. -/
def Forest.Follows (child peer : α → α) (stop : α) : Forest α → α → Prop
  | nil, x => x = stop
  | node a children siblings, x =>
    x = a ∧ a ≠ stop ∧ children.Follows child peer stop (child a) ∧ siblings.Follows child peer stop (peer a)

variable {child peer : α → α} {stop start x p : α} {f below : Forest α} {seen other : List α}

theorem Visits.unique (one : Visits child peer stop x seen) (two : Visits child peer stop x other) :
    seen = other := by
  induction one generalizing other with
  | stop =>
    cases two with
    | stop => rfl
    | node nonzero _ _ => exact absurd rfl nonzero
  | node nonzero _ _ below beside =>
    cases two with
    | stop => exact absurd rfl nonzero
    | node _ down along => rw [below down, beside along]

theorem Forest.Follows.visits (follows : f.Follows child peer stop x) : Visits child peer stop x f.nodes := by
  induction f generalizing x with
  | nil =>
    obtain rfl := follows
    exact .stop
  | node a children siblings below after =>
    obtain ⟨rfl, nonzero, down, along⟩ := follows
    exact .node nonzero (below down) (after along)

theorem Forest.Follows.children (follows : f.Follows child peer stop start) (has : Forest.HasChildren p below f) :
    below.Follows child peer stop (child p) := by
  induction has generalizing start with
  | here =>
    obtain ⟨_, _, down, _⟩ := follows
    exact down
  | inside _ ih =>
    obtain ⟨_, _, down, _⟩ := follows
    exact ih down
  | after _ ih =>
    obtain ⟨_, _, _, along⟩ := follows
    exact ih along

/-- The chain from the first root is the roots. -/
theorem Forest.Follows.onChain_iff (follows : f.Follows child peer stop start) :
    OnChain peer stop start x ↔ x ∈ f.tops := by
  induction f generalizing start with
  | nil =>
    obtain rfl := follows
    refine iff_of_false ?_ List.not_mem_nil
    intro chain
    cases chain with
    | here nonzero => exact nonzero rfl
    | next nonzero _ => exact nonzero rfl
  | node a children siblings _ after =>
    obtain ⟨rfl, nonzero, _, along⟩ := follows
    rw [tops, List.mem_cons, ← after along]
    constructor
    · intro chain
      cases chain with
      | here _ => exact .inl rfl
      | next _ later => exact .inr later
    · rintro (rfl | later)
      · exact .here nonzero
      · exact .next nonzero later

end Library

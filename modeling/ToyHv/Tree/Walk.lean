import ToyHv.Library.Paths
import ToyHv.Tree.Parents

namespace ToyHv

open Library

/-- What is still to come at an offset inside an open node: the rest of the innermost node open, then the
    rest of the one around it and so on, up to the first one, behind whose end is `after`. -/
inductive Inside (d : Dtb) (size after : ℕ) : ℕ → List (Forest ℕ) → Prop
  | last {o close : ℕ} {f : Forest ℕ} : ForestAt d size o f close → TokenAt d size close FDT_END_NODE after →
      Inside d size after o [f]
  | nest {o close next : ℕ} {f g : Forest ℕ} {rest : List (Forest ℕ)} : ForestAt d size o f close →
      TokenAt d size close FDT_END_NODE next → Inside d size after next (g :: rest) →
      Inside d size after o (f :: g :: rest)

/-- Where a step to the next node comes to, with the depth below the first node open. -/
inductive Lands (d : Dtb) (size after : ℕ) : List (Forest ℕ) → W32 × ℤ → Prop
  | node {a next : ℕ} {children siblings : Forest ℕ} {rest : List (Forest ℕ)} : TokenAt d size a FDT_BEGIN_NODE next →
      Inside d size after next (children :: siblings :: rest) →
      Lands d size after (.node a children siblings :: rest) (BitVec.ofNat 32 a, (rest.length + 1 : ℕ))
  | up {rest : List (Forest ℕ)} {result : W32 × ℤ} : Lands d size after rest result →
      Lands d size after (.nil :: rest) result
  | out : Lands d size after [] (BitVec.ofNat 32 after, -1)

variable {d : Dtb} {size after fuel turns o a next : ℕ} {f g children siblings : Forest ℕ}
  {rest stack : List (Forest ℕ)}

theorem Inside.first (inside : Inside d size after o (.node a children siblings :: rest)) :
    ∃ next, TokenAt d size a FDT_BEGIN_NODE next ∧ Inside d size after next (children :: siblings :: rest) := by
  cases inside with
  | last forest ended =>
    obtain ⟨next, _, _, token, below, closed, later⟩ := forest.first
    exact ⟨next, token, .nest below closed (.last later ended)⟩
  | nest forest ended outer =>
    obtain ⟨next, _, _, token, below, closed, later⟩ := forest.first
    exact ⟨next, token, .nest below closed (.nest later ended outer)⟩

/-- The children of the innermost node open are a forest of their own, which ends with that node. -/
theorem Inside.here (inside : Inside d size after o (f :: rest)) :
    ∃ close behind, ForestAt d size o f close ∧ TokenAt d size close FDT_END_NODE behind := by
  cases inside with
  | last forest ended => exact ⟨_, _, forest, ended⟩
  | nest forest ended _ => exact ⟨_, _, forest, ended⟩

theorem Block.landsOn (inside : Inside d size after o (.node a children siblings :: rest)) (block : Block d size)
    (enough : size ≤ fuel) (going : 0 < turns) :
    ∃ result, fdtNextNodeLoop fuel d turns (BitVec.ofNat 32 a) rest.length = .ok result ∧
      Lands d size after (.node a children siblings :: rest) result := by
  obtain ⟨next, token, below⟩ := inside.first
  obtain ⟨turns, rfl⟩ := Nat.exists_eq_succ_of_ne_zero (Nat.ne_of_gt going)
  refine ⟨(BitVec.ofNat 32 a, (rest.length + 1 : ℕ)), ?_, .node token below⟩
  exact fdtNextNodeLoop_tag (block.nextTag enough token)

theorem Block.landsLoop (block : Block d size) (enough : size ≤ fuel) (inside : Inside d size after o (f :: rest))
    (going : size < o + turns) :
    ∃ result, fdtNextNodeLoop fuel d turns (BitVec.ofNat 32 o) rest.length = .ok result ∧
      Lands d size after (f :: rest) result := by
  generalize shape : f :: rest = stack at inside
  induction inside generalizing f rest turns with
  | @last o close f' forest ended =>
    obtain ⟨rfl, rfl⟩ := List.cons.inj shape
    obtain ⟨o', turns, left, same, shape⟩ := block.skips (k := 0) enough forest going
    have room := ended.inside
    have longer := ended.grows
    change ∃ result, fdtNextNodeLoop fuel d _ _ 0 = _ ∧ _
    rw [same]
    rcases shape with ⟨rfl, rfl⟩ | ⟨children, siblings, rfl⟩
    · obtain ⟨turns, rfl⟩ := Nat.exists_eq_succ_of_ne_zero (n := turns) (by omega)
      refine ⟨_, ?_, .up .out⟩
      exact fdtNextNodeLoop_tag (block.nextTag enough ended)
    · have before := forest.between o' List.mem_cons_self
      exact Block.landsOn (.last forest ended) block enough (by omega)
  | @nest o close next f' g rest' forest ended outer ih =>
    obtain ⟨rfl, rfl⟩ := List.cons.inj shape
    obtain ⟨o', turns, left, same, shape⟩ := block.skips (k := (g :: rest').length) enough forest going
    have room := ended.inside
    have longer := ended.grows
    rw [same]
    rcases shape with ⟨rfl, rfl⟩ | ⟨children, siblings, rfl⟩
    · obtain ⟨turns, rfl⟩ := Nat.exists_eq_succ_of_ne_zero (n := turns) (by omega)
      have left : size < next + turns := by omega
      obtain ⟨result, stepped, lands⟩ := ih left rfl
      refine ⟨result, ?_, .up lands⟩
      have natural : ¬ ((g :: rest').length : ℤ) - 1 < 0 := by
        rw [List.length_cons]
        omega
      have one : ((g :: rest').length : ℤ) - 1 = rest'.length := by
        rw [List.length_cons]
        omega
      rw [fdtNextNodeLoop_tag (block.nextTag enough ended), if_neg (by decide), if_pos rfl, if_neg natural, one]
      exact stepped
    · have before := forest.between o' List.mem_cons_self
      exact Block.landsOn (.nest forest ended outer) block enough (by omega)

theorem TokenAt.checked (token : TokenAt d size a FDT_BEGIN_NODE next) (block : Block d size) (enough : size ≤ fuel) :
    _fdtCheckNodeOffset fuel d (BitVec.ofNat 32 a) = .ok (BitVec.ofNat 32 next) := by
  have short := block.short
  have inside := token.inside
  have longer := token.grows
  have aligned := token.aligned
  have start := toInt_offset (a := a) (by omega)
  have multiple : BitVec.ofNat 32 a % FDT_TAGSIZE = 0 := by
    apply BitVec.eq_of_toNat_eq
    rw [BitVec.toNat_umod, BitVec.toNat_ofNat]
    change a % 2^32 % 4 = 0
    omega
  have valid : ¬ ((BitVec.ofNat 32 a).toInt < 0 ∨ BitVec.ofNat 32 a % FDT_TAGSIZE ≠ 0) := by
    rintro (negative | odd)
    · omega
    · exact odd multiple
  rw [_fdtCheckNodeOffset, if_neg valid, block.nextTag enough token, ok_bind]
  rfl

variable {β σ : Type}

/-- A computation that goes on from the next node ends as it should. -/
def Brings (d : Dtb) (size after : ℕ) (stack : List (Forest ℕ)) (cont : W32 × ℤ → Checked β) (Q : Checked β → Prop) :
    Prop :=
  ∀ result, Lands d size after stack result → Q (cont result)

theorem Block.brings {cont : W32 × ℤ → Checked β} {Q : Checked β → Prop} (block : Block d size) (enough : size ≤ fuel)
    (token : TokenAt d size a FDT_BEGIN_NODE next) (inside : Inside d size after next (f :: rest))
    (brings : Brings d size after (f :: rest) cont Q) :
    Q (fdtNextNode fuel d (BitVec.ofNat 32 a) rest.length >>= cont) := by
  have start := token.toInt block
  have behind := token.inside
  have longer := token.grows
  have short := block.short
  have natural : ¬ (BitVec.ofNat 32 next).toInt < 0 := by
    rw [toInt_offset (by omega)]
    omega
  have going : size < next + fuel := by omega
  obtain ⟨result, stepped, lands⟩ := block.landsLoop enough inside going
  rw [fdtNextNode, if_pos (by omega), token.checked block enough, ok_bind, if_neg natural, stepped, ok_bind]
  exact brings result lands

/-- A loop over the nodes that keeps a state. At every node it passes it takes one turn and goes on to the
    next node; `I` says what the state is good for, by the nodes open. -/
structure NodeLoop (fuel : ℕ) (d : Dtb) (size : ℕ) (loop : ℕ → σ → W32 → ℤ → Checked β) (I : List ℕ → σ → Prop)
    (P : ℕ → ℕ → Prop) : Prop where
  turn : ∀ {chain : List ℕ} {a next : ℕ} {s : σ}, TokenAt d size a FDT_BEGIN_NODE next → P chain.length a → I chain s →
    ∃ s', I (chain ++ [a]) s' ∧ ∀ turns, loop (turns + 1) s (BitVec.ofNat 32 a) chain.length =
      fdtNextNode fuel d (BitVec.ofNat 32 a) chain.length >>= fun r => loop turns s' r.1 r.2
  leave : ∀ {chain : List ℕ} {a : ℕ} {s : σ}, I (chain ++ [a]) s → I chain s

variable {loop : ℕ → σ → W32 → ℤ → Checked β} {I : List ℕ → σ → Prop} {P : ℕ → ℕ → Prop} {Q : Checked β → Prop}
  {chain l : List ℕ} {q x : ℕ} {s : σ}

theorem NodeLoop.step (nodes : NodeLoop fuel d size loop I P) (block : Block d size) (enough : size ≤ fuel)
    (deep : rest.length = chain.length) (token : TokenAt d size a FDT_BEGIN_NODE next)
    (inside : Inside d size after next (f :: rest)) (passes : P chain.length a) (good : I chain s)
    (brings : ∀ s', I (chain ++ [a]) s' → Brings d size after (f :: rest) (fun r => loop turns s' r.1 r.2) Q) :
    Q (loop (turns + 1) s (BitVec.ofNat 32 a) chain.length) := by
  obtain ⟨s', better, turned⟩ := nodes.turn token passes good
  rw [turned, ← deep]
  exact block.brings enough token inside (brings s' better)

theorem length_snoc (chain : List ℕ) (q : ℕ) : (chain ++ [q]).length = chain.length + 1 := by
  rw [List.length_append, List.length_singleton]

/-- Over what is left of an open node: one turn a node, and the loop is where that node ends. -/
theorem NodeLoop.past (nodes : NodeLoop fuel d size loop I P) (block : Block d size) (enough : size ≤ fuel)
    (deep : rest.length = chain.length) (passes : f.Each P (chain.length + 1)) (good : I (chain ++ [q]) s)
    (brings : ∀ s', I chain s' → Brings d size after rest (fun r => loop turns s' r.1 r.2) Q) :
    Brings d size after (f :: rest) (fun r => loop (turns + f.nodes.length) s r.1 r.2) Q := by
  induction f generalizing chain q rest s turns with
  | nil =>
    intro result lands
    cases lands with
    | up lands => exact brings s (nodes.leave good) result lands
  | node a children siblings below beside =>
    obtain ⟨here, under, behind⟩ := passes
    intro result lands
    cases lands with
    | node token inside =>
      have count : turns + (Forest.node a children siblings).nodes.length =
          turns + siblings.nodes.length + children.nodes.length + 1 := by
        simp only [Forest.nodes, List.length_cons, List.length_append]
        omega
      have depth : (siblings :: rest).length = (chain ++ [q]).length := by rw [List.length_cons, length_snoc, deep]
      change Q (loop _ s (BitVec.ofNat 32 a) ((siblings :: rest).length : ℕ))
      rw [count, depth]
      apply nodes.step block enough depth token inside (by rwa [length_snoc]) good
      intro s' better
      refine below ?_ ?_ better ?_
      · exact depth
      · rwa [length_snoc]
      · intro s'' again
        exact beside deep behind again brings

/-- The loop comes to a node with a state that is good there, if it passes all the nodes before it. -/
theorem NodeLoop.arrives (nodes : NodeLoop fuel d size loop I P) (block : Block d size) (enough : size ≤ fuel)
    (deep : rest.length = chain.length) (way : f.Chain l x) (sorted : f.nodes.Pairwise (· < ·))
    (passes : f.Each (fun k y => y < x → P k y) (chain.length + 1)) (good : I (chain ++ [q]) s)
    (room : f.nodes.length ≤ turns)
    (there : ∀ turns s' next, TokenAt d size x FDT_BEGIN_NODE next → I (chain ++ [q] ++ l) s' →
      Q (loop (turns + 1) s' (BitVec.ofNat 32 x) (chain ++ [q] ++ l).length)) :
    Brings d size after (f :: rest) (fun r => loop turns s r.1 r.2) Q := by
  induction way generalizing chain q rest s turns with
  | @here x children siblings =>
    intro result lands
    cases lands with
    | node token inside =>
      obtain ⟨turns, rfl, _⟩ := enough_turns room
      have depth : rest.length + 1 = (chain ++ [q]).length := by rw [length_snoc, deep]
      change Q (loop _ s (BitVec.ofNat 32 x) (rest.length + 1 : ℕ))
      rw [depth]
      have arrived := there turns s _ token
      rw [List.append_nil] at arrived
      exact arrived good
  | @down a x l children siblings way ih =>
    obtain ⟨least, parts⟩ := List.pairwise_cons.mp sorted
    obtain ⟨inner, _, _⟩ := List.pairwise_append.mp parts
    obtain ⟨here, under, _⟩ := passes
    intro result lands
    cases lands with
    | node token inside =>
      obtain ⟨turns, rfl, fits⟩ := enough_turns room
      have depth : (siblings :: rest).length = (chain ++ [q]).length := by rw [List.length_cons, length_snoc, deep]
      change Q (loop _ s (BitVec.ofNat 32 a) ((siblings :: rest).length : ℕ))
      rw [depth]
      apply nodes.step block enough depth token inside ?_ good
      · intro s' better
        refine ih ?_ inner ?_ better (by omega) ?_
        · exact depth
        · rwa [length_snoc]
        · intro turns s'' next token again
          have arrived := there turns s'' next token
          rw [List.append_cons] at arrived
          exact arrived again
      · rw [length_snoc]
        exact here (least x (List.mem_append_left _ way.mem))
  | @along a x l children siblings way ih =>
    obtain ⟨least, parts⟩ := List.pairwise_cons.mp sorted
    obtain ⟨_, outer, across⟩ := List.pairwise_append.mp parts
    obtain ⟨here, under, behind⟩ := passes
    intro result lands
    cases lands with
    | node token inside =>
      obtain ⟨turns, rfl, fits⟩ := enough_turns room
      obtain ⟨left, rfl⟩ := Nat.exists_eq_add_of_le' ((Nat.le_add_right _ _).trans fits)
      have depth : (siblings :: rest).length = (chain ++ [q]).length := by rw [List.length_cons, length_snoc, deep]
      change Q (loop _ s (BitVec.ofNat 32 a) ((siblings :: rest).length : ℕ))
      rw [depth]
      apply nodes.step block enough depth token inside ?_ good
      · intro s' better
        refine nodes.past block enough ?_ ?_ better ?_
        · exact depth
        · rw [length_snoc]
          exact under.imp_mem fun k y member later => later (across y member x way.mem)
        · intro s'' again
          exact ih deep outer behind again (by omega) there
      · rw [length_snoc]
        exact here (least x (List.mem_append_right _ way.mem))

/-- Where the tree ends: behind the root's end come NOPs at most, and the end tag. -/
def RootEnds (d : Dtb) (size : ℕ) (children : Forest ℕ) (after : ℕ) : Prop :=
  ∃ next stop last, TokenAt d size 0 FDT_BEGIN_NODE next ∧ Inside d size after next [children] ∧
    ForestAt d size after .nil stop ∧ TokenAt d size stop FDT_END last

theorem FlatTree.rootEnds (tree : FlatTree d size children) : ∃ after, RootEnds d size children after := by
  obtain ⟨stop, last, forest, ended⟩ := tree.tree
  obtain ⟨next, close, after, token, below, closed, later⟩ := forest.first
  exact ⟨after, next, stop, last, token, .last below closed, later, ended⟩

theorem Inside.between (inside : Inside d size after o [f]) :
    (∀ y ∈ f.nodes, o ≤ y ∧ y < after) ∧ o + f.nodes.length < after ∧ after ≤ size := by
  cases inside with
  | last forest closed =>
    have longer := closed.grows
    have total := forest.grows
    refine ⟨fun y member => ?_, by omega, closed.inside⟩
    have bounds := forest.between y member
    omega

theorem Inside.sorted (inside : Inside d size after o (f :: rest)) : f.nodes.Pairwise (· < ·) := by
  obtain ⟨_, _, forest, _⟩ := inside.here
  exact forest.sorted

/-- What is behind the tree is no node. -/
theorem RootEnds.behind (ends : RootEnds d size children after) (block : Block d size) (enough : size ≤ fuel) :
    _fdtCheckNodeOffset fuel d (BitVec.ofNat 32 after) = .ok (-FDT_ERR_BADOFFSET) := by
  obtain ⟨_, stop, last, _, _, later, ended⟩ := ends
  have other : ∃ tag next, TokenAt d size after tag next ∧ tag ≠ FDT_BEGIN_NODE := by
    generalize shape : Forest.nil = f at later
    cases later with
    | nil => exact ⟨_, _, ended, by decide⟩
    | skip skipped token _ => exact ⟨_, _, token, by rcases skipped with rfl | rfl <;> decide⟩
    | node _ _ _ _ => cases shape
  obtain ⟨tag, next, token, other⟩ := other
  rw [_fdtCheckNodeOffset]
  split
  · rfl
  · simp only [block.nextTag enough token, ok_bind, if_pos other, pure_ok]

end ToyHv

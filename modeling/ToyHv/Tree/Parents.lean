import ToyHv.Tree.Scanning

namespace ToyHv

open Library

variable {d : Dtb} {size fuel turns next : ℕ} {f g children siblings : Forest ℕ} {rest : List (Forest ℕ)}
  {k target depth : ℕ} {super : W32}

/-- The search for an ancestor at a depth, from the next node on. -/
def superSearch (fuel : ℕ) (d : Dtb) (target depth turns : ℕ) (super : W32) (result : W32 × ℤ) :
    Checked (W32 × Option ℤ) :=
  fdtSupernodeLoop fuel d (BitVec.ofNat 32 target) depth turns result.1 result.2 super

/-- The search keeps the last node it saw at its depth. -/
def superOf (depth k a : ℕ) (super : W32) : W32 := if k = depth then BitVec.ofNat 32 a else super

theorem superOf_above {a : ℕ} (above : depth < k) : superOf depth k a super = super :=
  if_neg (Nat.ne_of_gt above)

theorem superSearch_passes {a : ℕ} (before : a < target) (short : target < 2^31) :
    superSearch fuel d target depth (turns + 1) super (BitVec.ofNat 32 a, k) =
      fdtNextNode fuel d (BitVec.ofNat 32 a) k >>= superSearch fuel d target depth turns (superOf depth k a super) := by
  have here := toInt_offset (a := a) (by omega)
  have there := toInt_offset (a := target) short
  have apart : ¬ BitVec.ofNat 32 a = BitVec.ofNat 32 target := by
    intro same
    rw [same, there] at here
    omega
  have saved : (if (k : ℤ) = depth then BitVec.ofNat 32 a else super) = superOf depth k a super := by
    simp only [superOf, Nat.cast_inj]
  change fdtSupernodeLoop fuel d (BitVec.ofNat 32 target) depth (turns + 1) (BitVec.ofNat 32 a) k super = _
  rw [fdtSupernodeLoop, if_pos (by omega), if_neg apart, saved]
  rfl

theorem superSearch_ends (short : target < 2^31) (reached : depth ≤ k) :
    superSearch fuel d target depth (turns + 1) super (BitVec.ofNat 32 target, k) =
      .ok (superOf depth k target super, some k) := by
  have there := toInt_offset (a := target) short
  have saved : (if (k : ℤ) = depth then BitVec.ofNat 32 target else super) = superOf depth k target super := by
    simp only [superOf, Nat.cast_inj]
  change fdtSupernodeLoop fuel d (BitVec.ofNat 32 target) depth (turns + 1) (BitVec.ofNat 32 target) k super = _
  rw [fdtSupernodeLoop, if_pos (by omega), if_pos rfl, saved, if_neg (by omega)]
  rfl

theorem Block.superPast (block : Block d size) (enough : size ≤ fuel) (short : target < 2^31)
    (before : ∀ y ∈ f.nodes, y < target) (g : Forest ℕ) (rest : List (Forest ℕ)) (k turns : ℕ) (super : W32) :
    ∃ super', (depth ≤ k + 1 → super' = super) ∧ ∀ out,
      Leads d size (g :: rest) k (superSearch fuel d target depth turns super') out →
      Leads d size (f :: g :: rest) (k + 1 : ℕ)
        (superSearch fuel d target depth (turns + f.nodes.length) super) out := by
  induction f generalizing g rest k turns super with
  | nil =>
    refine ⟨super, fun _ => rfl, fun out leads result returned => leads result ?_⟩
    rw [following, if_neg (by omega)] at returned
    simpa only [Nat.cast_add, Nat.cast_one, add_sub_cancel_right] using returned
  | node a children siblings below after =>
    have first := before a List.mem_cons_self
    obtain ⟨inner, keptInner, past⟩ :=
      below (fun y member => before y (List.mem_cons_of_mem _ (List.mem_append_left _ member)))
        siblings (g :: rest) (k + 1) (turns + siblings.nodes.length) (superOf depth (k + 2) a super)
    obtain ⟨outer, keptOuter, beyond⟩ :=
      after (fun y member => before y (List.mem_cons_of_mem _ (List.mem_append_right _ member))) g rest k turns inner
    refine ⟨outer, fun high => ?_, fun out leads => ?_⟩
    · rw [keptOuter high, keptInner (by omega), superOf_above (by omega)]
    · rintro _ ⟨rfl, next, token, at_⟩
      have count : turns + (Forest.node a children siblings).nodes.length =
          turns + siblings.nodes.length + children.nodes.length + 1 := by
        simp only [Forest.nodes, List.length_cons, List.length_append]
        omega
      rw [count]
      change superSearch fuel d target depth _ super (BitVec.ofNat 32 a, ((k + 1 + 1 : ℕ) : ℤ)) = _
      rw [superSearch_passes first short]
      exact block.leads enough token at_ (past out (beyond out leads))

theorem enough_turns {a : ℕ} (room : (Forest.node a children siblings).nodes.length ≤ turns) :
    ∃ left, turns = left + 1 ∧ children.nodes.length + siblings.nodes.length ≤ left := by
  rw [Forest.nodes, List.length_cons, List.length_append] at room
  exact ⟨turns - 1, by omega, by omega⟩

/-- The search ends at the target. It gives what was seen above the nodes it started in, or the
    parent when it is one above the target's depth. -/
theorem Block.superFound {p q e : ℕ} (block : Block d size) (enough : size ≤ fuel) (short : target < 2^31)
    (sorted : f.nodes.Pairwise (· < ·)) (placed : Forest.Placed f (k + 1) p target e q) (reached : depth ≤ e)
    (g : Forest ℕ) (rest : List (Forest ℕ)) (turns : ℕ) (super : W32) (room : f.nodes.length ≤ turns) :
    ∃ out, Leads d size (f :: g :: rest) k (superSearch fuel d target depth turns super) (out, some (e : ℤ)) ∧
      (depth ≤ k → out = super) ∧
      (depth + 1 = e → (depth = k → super = BitVec.ofNat 32 p) → out = BitVec.ofNat 32 q) := by
  generalize height : k + 1 = top at placed
  induction placed generalizing k g rest turns super with
  | @top top p target children siblings =>
    subst height
    obtain ⟨turns, rfl, _⟩ := enough_turns room
    refine ⟨superOf depth (k + 1) target super, ?_, ?_, ?_⟩
    · rintro _ ⟨rfl, _, _, _⟩
      exact superSearch_ends short reached
    · intro above
      exact superOf_above (by omega)
    · intro above same
      rw [superOf_above (by omega)]
      exact same (by omega)
  | @inside top e a p q target children siblings placed ih =>
    subst height
    obtain ⟨least, parts⟩ := List.pairwise_cons.mp sorted
    obtain ⟨inner, _, _⟩ := List.pairwise_append.mp parts
    have before : a < target := least target (List.mem_append_left _ placed.mem)
    obtain ⟨turns, rfl, fits⟩ := enough_turns room
    obtain ⟨out, leads, above, under⟩ := ih short inner reached siblings (g :: rest) turns
      (superOf depth (k + 1) a super) (by omega) rfl
    refine ⟨out, ?_, ?_, ?_⟩
    · rintro _ ⟨rfl, next, token, at_⟩
      change superSearch fuel d target depth _ super (BitVec.ofNat 32 a, ((k + 1 : ℕ) : ℤ)) = _
      rw [superSearch_passes before short]
      exact block.leads enough token at_ leads
    · intro high
      rw [above (by omega), superOf_above (by omega)]
    · intro one same
      refine under one fun here => ?_
      rw [here]
      exact if_pos rfl
  | @after top e a p q target children siblings placed ih =>
    subst height
    obtain ⟨least, parts⟩ := List.pairwise_cons.mp sorted
    obtain ⟨_, outer, across⟩ := List.pairwise_append.mp parts
    have before : a < target := least target (List.mem_append_right _ placed.mem)
    obtain ⟨turns, rfl, fits⟩ := enough_turns room
    obtain ⟨left, rfl⟩ := Nat.exists_eq_add_of_le' ((Nat.le_add_right _ _).trans fits)
    have aside : ∀ y ∈ _, y < target := fun y member => across y member target placed.mem
    obtain ⟨seen, kept, past⟩ :=
      block.superPast enough short aside siblings (g :: rest) k left (superOf depth (k + 1) a super)
    obtain ⟨out, leads, above, under⟩ := ih short outer reached g rest left seen (by omega) rfl
    refine ⟨out, ?_, ?_, ?_⟩
    · rintro _ ⟨rfl, next, token, at_⟩
      change superSearch fuel d target depth _ super (BitVec.ofNat 32 a, ((k + 1 : ℕ) : ℤ)) = _
      rw [superSearch_passes before short]
      exact block.leads enough token at_ (past _ leads)
    · intro high
      rw [above high, kept (by omega), superOf_above (by omega)]
    · intro one same
      refine under one fun here => ?_
      rw [kept (by omega), superOf_above (by omega)]
      exact same here

theorem FlatTree.start (tree : FlatTree d size children) :
    ∃ next, TokenAt d size 0 FDT_BEGIN_NODE next ∧ StackAt d size next [children, .nil] := by
  obtain ⟨stop, last, forest, ended⟩ := tree.tree
  exact (StackAt.last forest ended).first

theorem FlatTree.room (tree : FlatTree d size children) : children.nodes.length < size := by
  obtain ⟨stop, last, forest, ended⟩ := tree.tree
  have total := forest.grows
  have longer := ended.grows
  have inside := ended.inside
  simp only [Forest.nodes, List.length_cons, List.length_append] at total
  omega

theorem FlatTree.sorted (tree : FlatTree d size children) :
    (∀ y ∈ children.nodes, 0 < y ∧ y < size) ∧ children.nodes.Pairwise (· < ·) := by
  obtain ⟨stop, last, forest, ended⟩ := tree.tree
  obtain ⟨least, parts⟩ := List.pairwise_cons.mp forest.sorted
  rw [Forest.nodes, List.append_nil] at least parts
  refine ⟨fun y member => ⟨least y member, ?_⟩, parts⟩
  exact (forest.between y (List.mem_cons_of_mem _ (List.mem_append_left _ member))).2.2

variable {p q e : ℕ}

theorem FlatTree.supernode (tree : FlatTree d size children) (enough : size ≤ fuel)
    (placed : children.Placed 1 0 target e q) (reached : depth ≤ e) :
    ∃ out, fdtSupernodeAtdepthOffset fuel d (BitVec.ofNat 32 target) depth = .ok (out, some (e : ℤ)) ∧
      (depth = 0 → out = 0) ∧ (depth + 1 = e → out = BitVec.ofNat 32 q) := by
  have small := tree.short
  have room := tree.room
  obtain ⟨bounds, sorted⟩ := tree.sorted
  obtain ⟨positive, inside⟩ := bounds target placed.mem
  obtain ⟨next, token, at_⟩ := tree.start
  obtain ⟨turns, rfl⟩ := Nat.exists_eq_succ_of_ne_zero (n := fuel) (by omega)
  obtain ⟨out, leads, above, under⟩ := tree.superFound enough (by omega) sorted placed reached .nil [] turns
    (superOf depth 0 0 (-FDT_ERR_INTERNAL)) (by omega)
  refine ⟨out, ?_, ?_, ?_⟩
  · have natural : ¬ (depth : ℤ) < 0 := by omega
    rw [fdtSupernodeAtdepthOffset, if_neg (not_not.mpr tree.header), if_neg natural]
    change superSearch (turns + 1) d target depth (turns + 1) _ (BitVec.ofNat 32 0, ((0 : ℕ) : ℤ)) = _
    rw [superSearch_passes positive (by omega)]
    exact tree.leads enough token at_ leads
  · rintro rfl
    rw [above le_rfl]
    rfl
  · intro one
    refine under one ?_
    rintro rfl
    rfl

theorem FlatTree.parentOffset (tree : FlatTree d size children) (enough : size ≤ fuel)
    (placed : children.Placed 1 0 target e q) :
    fdtParentOffset fuel d (BitVec.ofNat 32 target) = .ok (BitVec.ofNat 32 q) := by
  have top : 0 ≤ e := Nat.zero_le e
  obtain ⟨root, searched, isRoot, _⟩ := tree.supernode enough placed top
  have deep := placed.deep
  obtain ⟨above, rfl⟩ := Nat.exists_eq_succ_of_ne_zero (Nat.ne_of_gt deep)
  obtain ⟨parent, found, _, isParent⟩ := tree.supernode enough placed (Nat.le_succ above)
  have measured : fdtNodeDepth fuel d (BitVec.ofNat 32 target) = .ok ((above + 1 : ℕ) : ℤ) := by
    rw [fdtNodeDepth]
    change (fdtSupernodeAtdepthOffset fuel d (BitVec.ofNat 32 target) ((0 : ℕ) : ℤ) >>= _) = _
    rw [searched, ok_bind, isRoot rfl]
    rfl
  have natural : ¬ ((above + 1 : ℕ) : ℤ) < 0 := by omega
  have one : ((above + 1 : ℕ) : ℤ) - 1 = above := by omega
  rw [fdtParentOffset, measured, ok_bind, if_neg natural, one, found, ok_bind, isParent rfl]
  rfl

end ToyHv

import ToyHv.Tree.Layout

namespace ToyHv

open Library

/-- What is still to come at an offset: the rest of the innermost open node, then the rest of the
    one around it and so on, and the end tag behind the last. -/
inductive StackAt (d : Dtb) (size : ℕ) : ℕ → List (Forest ℕ) → Prop
  | last {o stop next : ℕ} {f : Forest ℕ} : ForestAt d size o f stop → TokenAt d size stop FDT_END next →
      StackAt d size o [f]
  | nest {o stop next : ℕ} {f g : Forest ℕ} {rest : List (Forest ℕ)} : ForestAt d size o f stop →
      TokenAt d size stop FDT_END_NODE next → StackAt d size next (g :: rest) → StackAt d size o (f :: g :: rest)

/-- How a step to the next node can end: at a node, out of the node it started in, or at the end. -/
inductive Next
  | node (offset : ℕ) (depth : ℤ) (stack : List (Forest ℕ))
  | left (depth : ℤ)
  | done (depth : ℤ)

/-- The step from the start of a stack, with the depth kept. -/
def following : List (Forest ℕ) → ℤ → Next
  | .node a children siblings :: rest, depth => .node a (depth + 1) (children :: siblings :: rest)
  | .nil :: g :: rest, depth => if depth - 1 < 0 then .left (depth - 1) else following (g :: rest) (depth - 1)
  | _, depth => .done depth

def Next.Returned (d : Dtb) (size : ℕ) : Next → W32 × ℤ → Prop
  | .node a depth stack, result => result = (BitVec.ofNat 32 a, depth) ∧
      ∃ next, TokenAt d size a FDT_BEGIN_NODE next ∧ StackAt d size next stack
  | .left depth, result => result.2 = depth
  | .done depth, result => result = (-FDT_ERR_NOTFOUND, depth)

variable {d : Dtb} {size o next stop turns fuel : ℕ} {f g children siblings : Forest ℕ} {rest : List (Forest ℕ)}
  {k : ℤ}

theorem StackAt.outer (stack : StackAt d size o (f :: g :: rest)) : ∃ after, StackAt d size after (g :: rest) := by
  cases stack with
  | nest _ _ later => exact ⟨_, later⟩

theorem ForestAt.first {a : ℕ} (forest : ForestAt d size o (.node a children siblings) stop) :
    ∃ next close after, TokenAt d size a FDT_BEGIN_NODE next ∧ ForestAt d size next children close ∧
      TokenAt d size close FDT_END_NODE after ∧ ForestAt d size after siblings stop := by
  generalize shape : Forest.node a children siblings = f at forest
  induction forest with
  | nil => cases shape
  | skip _ _ _ ih => exact ih shape
  | node token inside closed later =>
    cases shape
    exact ⟨_, _, _, token, inside, closed, later⟩

theorem StackAt.first {a : ℕ} (stack : StackAt d size o (.node a children siblings :: rest)) :
    ∃ next, TokenAt d size a FDT_BEGIN_NODE next ∧ StackAt d size next (children :: siblings :: rest) := by
  cases stack with
  | last forest ended =>
    obtain ⟨next, _, _, token, inside, closed, later⟩ := forest.first
    exact ⟨next, token, .nest inside closed (.last later ended)⟩
  | nest forest ended outer =>
    obtain ⟨next, _, _, token, inside, closed, later⟩ := forest.first
    exact ⟨next, token, .nest inside closed (.nest later ended outer)⟩

theorem fdtNextNodeLoop_tag {offset tag nextoffset : W32} (tagged : fdtNextTag fuel d offset = .ok (tag, nextoffset)) :
    fdtNextNodeLoop fuel d (turns + 1) offset k =
      if tag = FDT_BEGIN_NODE then .ok (offset, k + 1)
      else if tag = FDT_END_NODE then
        if k - 1 < 0 then .ok (nextoffset, k - 1) else fdtNextNodeLoop fuel d turns nextoffset (k - 1)
      else if tag = FDT_END then .ok (if nextoffset.toInt ≥ 0 then -FDT_ERR_NOTFOUND else nextoffset, k)
      else fdtNextNodeLoop fuel d turns nextoffset k := by
  rw [fdtNextNodeLoop, tagged]
  rfl

theorem Block.skips (block : Block d size) (enough : size ≤ fuel) (forest : ForestAt d size o f stop)
    (going : size < o + turns) :
    ∃ o' turns', size < o' + turns' ∧
      fdtNextNodeLoop fuel d turns (BitVec.ofNat 32 o) k = fdtNextNodeLoop fuel d turns' (BitVec.ofNat 32 o') k ∧
      ((f = .nil ∧ o' = stop) ∨ ∃ children siblings, f = .node o' children siblings) := by
  induction forest generalizing turns with
  | nil => exact ⟨_, turns, going, rfl, .inl ⟨rfl, rfl⟩⟩
  | @node o _ _ _ _ children siblings token _ _ _ =>
    exact ⟨o, turns, going, rfl, .inr ⟨children, siblings, rfl⟩⟩
  | @skip o next stop tag f skipped token _ ih =>
    have longer := token.grows
    have inside := token.inside
    obtain ⟨turns, rfl⟩ := Nat.exists_eq_succ_of_ne_zero (n := turns) (by omega)
    obtain ⟨o', turns', left, same, shape⟩ := ih (show size < next + turns by omega)
    refine ⟨o', turns', left, ?_, shape⟩
    rw [← same, fdtNextNodeLoop_tag (block.nextTag enough token)]
    rcases skipped with rfl | rfl
    · rfl
    · rfl

theorem Block.nodeFound {a : ℕ} (block : Block d size) (enough : size ≤ fuel)
    (stack : StackAt d size o (.node a children siblings :: rest)) (going : 0 < turns) :
    ∃ result, fdtNextNodeLoop fuel d turns (BitVec.ofNat 32 a) k = .ok result ∧
      (Next.node a (k + 1) (children :: siblings :: rest)).Returned d size result := by
  obtain ⟨next, token, below⟩ := stack.first
  obtain ⟨turns, rfl⟩ := Nat.exists_eq_succ_of_ne_zero (Nat.ne_of_gt going)
  refine ⟨(BitVec.ofNat 32 a, k + 1), ?_, rfl, next, token, below⟩
  exact fdtNextNodeLoop_tag (block.nextTag enough token)

theorem Block.nextNodeLoop {stack : List (Forest ℕ)} (block : Block d size) (enough : size ≤ fuel)
    (at_ : StackAt d size o stack) (going : size < o + turns) :
    ∃ result, fdtNextNodeLoop fuel d turns (BitVec.ofNat 32 o) k = .ok result ∧
      (following stack k).Returned d size result := by
  have short := block.short
  induction at_ generalizing turns k with
  | @last o stop next f forest ended =>
    obtain ⟨o', turns, left, same, shape⟩ := block.skips (k := k) enough forest going
    have inside := ended.inside
    have longer := ended.grows
    rw [same]
    rcases shape with ⟨rfl, rfl⟩ | ⟨children, siblings, rfl⟩
    · obtain ⟨turns, rfl⟩ := Nat.exists_eq_succ_of_ne_zero (n := turns) (by omega)
      refine ⟨(-FDT_ERR_NOTFOUND, k), ?_, rfl⟩
      have positive : (BitVec.ofNat 32 next).toInt ≥ 0 := by
        rw [toInt_offset (by omega)]
        exact Int.natCast_nonneg _
      rw [fdtNextNodeLoop_tag (block.nextTag enough ended), if_neg (by decide), if_neg (by decide), if_pos rfl,
        if_pos positive]
    · have before := forest.between o' List.mem_cons_self
      exact block.nodeFound enough (.last forest ended) (by omega)
  | @nest o stop next f g rest forest closed later ih =>
    obtain ⟨o', turns, left, same, shape⟩ := block.skips (k := k) enough forest going
    have inside := closed.inside
    have longer := closed.grows
    rw [same]
    rcases shape with ⟨rfl, rfl⟩ | ⟨children, siblings, rfl⟩
    · obtain ⟨turns, rfl⟩ := Nat.exists_eq_succ_of_ne_zero (n := turns) (by omega)
      rw [fdtNextNodeLoop_tag (block.nextTag enough closed), if_neg (by decide), if_pos rfl, following]
      split
      · exact ⟨_, rfl, rfl⟩
      · exact ih (by omega)
    · have before := forest.between o' List.mem_cons_self
      exact block.nodeFound enough (.nest forest closed later) (by omega)

theorem Block.nextNode {a : ℕ} {stack : List (Forest ℕ)} (block : Block d size) (enough : size ≤ fuel)
    (token : TokenAt d size a FDT_BEGIN_NODE next) (at_ : StackAt d size next stack) :
    ∃ result, fdtNextNode fuel d (BitVec.ofNat 32 a) k = .ok result ∧ (following stack k).Returned d size result := by
  have short := block.short
  have inside := token.inside
  have longer := token.grows
  have aligned := token.aligned
  have start := toInt_offset (a := a) (by omega)
  have behind := toInt_offset (a := next) (by omega)
  have multiple : BitVec.ofNat 32 a % FDT_TAGSIZE = 0 := by
    apply BitVec.eq_of_toNat_eq
    rw [BitVec.toNat_umod, BitVec.toNat_ofNat]
    change a % 2^32 % 4 = 0
    omega
  have valid : ¬ ((BitVec.ofNat 32 a).toInt < 0 ∨ BitVec.ofNat 32 a % FDT_TAGSIZE ≠ 0) := by
    rintro (negative | odd)
    · omega
    · exact odd multiple
  have checked : _fdtCheckNodeOffset fuel d (BitVec.ofNat 32 a) = .ok (BitVec.ofNat 32 next) := by
    rw [_fdtCheckNodeOffset, if_neg valid, block.nextTag enough token, ok_bind]
    rfl
  have below : ¬ (BitVec.ofNat 32 next).toInt < 0 := by
    rw [behind]
    omega
  rw [fdtNextNode, if_pos (by omega), checked, ok_bind, if_neg below]
  exact block.nextNodeLoop enough at_ (by omega)

theorem TokenAt.toInt {a : ℕ} {tag : W32} (block : Block d size) (token : TokenAt d size a tag next) :
    (BitVec.ofNat 32 a).toInt = a := by
  have short := block.short
  have inside := token.inside
  have longer := token.grows
  exact toInt_offset (by omega)

variable {β : Type}

/-- A computation that goes on from the next node has a certain result. -/
def Leads (d : Dtb) (size : ℕ) (stack : List (Forest ℕ)) (k : ℤ) (cont : W32 × ℤ → Checked β) (out : β) : Prop :=
  ∀ result, (following stack k).Returned d size result → cont result = .ok out

theorem Block.leads {a : ℕ} {stack : List (Forest ℕ)} {cont : W32 × ℤ → Checked β} {out : β} (block : Block d size)
    (enough : size ≤ fuel) (token : TokenAt d size a FDT_BEGIN_NODE next) (at_ : StackAt d size next stack)
    (leads : Leads d size stack k cont out) : (fdtNextNode fuel d (BitVec.ofNat 32 a) k >>= cont) = .ok out := by
  obtain ⟨result, stepped, returned⟩ := block.nextNode (k := k) enough token at_
  rw [stepped, ok_bind]
  exact leads result returned

def found : Forest ℕ → W32
  | .nil => -FDT_ERR_NOTFOUND
  | .node a _ _ => BitVec.ofNat 32 a

theorem fdtScan_found {a : ℕ} {least : ℤ} (short : a < 2^31) (low : least ≤ 1) :
    fdtScan fuel d least (turns + 1) (BitVec.ofNat 32 a) 1 = .ok (BitVec.ofNat 32 a) := by
  have positive : (BitVec.ofNat 32 a).toInt ≥ 0 := by
    rw [toInt_offset short]
    exact Int.natCast_nonneg a
  rw [fdtScan, if_pos ⟨positive, low⟩, if_pos rfl]
  rfl

theorem fdtScan_left {offset : W32} {least : ℤ} (left : k < 0) (high : 0 ≤ least) :
    fdtScan fuel d least (turns + 1) offset k = .ok (-FDT_ERR_NOTFOUND) := by
  rw [fdtScan, if_neg (fun on => not_lt.mpr (high.trans on.2) left), if_pos left]
  rfl

theorem fdtScan_done {least : ℤ} :
    fdtScan fuel d least (turns + 1) (-FDT_ERR_NOTFOUND) k = .ok (-FDT_ERR_NOTFOUND) := by
  have negative : ¬ (-FDT_ERR_NOTFOUND).toInt ≥ 0 := by decide
  rw [fdtScan, if_neg (fun on => negative on.1)]
  split
  · rfl
  · rfl

theorem Block.scanFirst {least : ℤ} (block : Block d size) (low : least ≤ 1) (high : 0 ≤ least) :
    Leads d size (f :: rest) 0 (fun result => fdtScan fuel d least (turns + 1) result.1 result.2) (found f) := by
  have short := block.short
  cases f with
  | nil =>
    cases rest with
    | nil =>
      rintro _ rfl
      exact fdtScan_done
    | cons g rest =>
      rintro ⟨offset, depth⟩ left
      obtain rfl : depth = -1 := left
      exact fdtScan_left (show (-1 : ℤ) < 0 by decide) high
  | node a children siblings =>
    rintro _ ⟨rfl, next, token, _⟩
    have inside := token.inside
    have longer := token.grows
    exact fdtScan_found (by omega) low

/-- Where the scan for a sibling is inside a node it does not care about, it passes all that is
    there: one turn a node. -/
theorem Block.scanPast (block : Block d size) (enough : size ≤ fuel) {out : W32} (inside : 0 ≤ k)
    (leads : Leads d size (g :: rest) k (fun result => fdtScan fuel d 1 turns result.1 result.2) out) :
    Leads d size (f :: g :: rest) (k + 1)
      (fun result => fdtScan fuel d 1 (turns + f.nodes.length) result.1 result.2) out := by
  induction f generalizing g rest k turns with
  | nil =>
    intro result returned
    rw [following, if_neg (by omega), add_sub_cancel_right] at returned
    exact leads result returned
  | node a children siblings below after =>
    rintro _ ⟨rfl, next, token, at_⟩
    have start := token.toInt block
    have deep : (BitVec.ofNat 32 a).toInt ≥ 0 ∧ k + 1 + 1 ≥ 1 := by omega
    have further := below (g := siblings) (k := k + 1) (by omega) (after inside leads)
    have count : turns + (Forest.node a children siblings).nodes.length =
        turns + siblings.nodes.length + children.nodes.length + 1 := by
      simp only [Forest.nodes, List.length_cons, List.length_append]
      omega
    change fdtScan fuel d 1 _ (BitVec.ofNat 32 a) (k + 1 + 1) = _
    rw [count, fdtScan, if_pos deep, if_neg (by omega)]
    exact block.leads enough token at_ further

theorem Block.subnode {a : ℕ} (block : Block d size) (enough : size ≤ fuel)
    (token : TokenAt d size a FDT_BEGIN_NODE next) (at_ : StackAt d size next (children :: rest)) :
    fdtSubnode fuel d (BitVec.ofNat 32 a) = .ok (found children) := by
  have start := token.toInt block
  have inside := token.inside
  have longer := token.grows
  obtain ⟨turns, rfl⟩ := Nat.exists_eq_add_of_le' (show 2 ≤ fuel by omega)
  rw [fdtSubnode, if_neg (not_not.mpr block.header), fdtScan, if_pos (by omega), if_neg (by decide)]
  exact block.leads enough token at_ (block.scanFirst (by decide) le_rfl)

theorem Block.sibling {a : ℕ} (block : Block d size) (enough : size ≤ fuel)
    (token : TokenAt d size a FDT_BEGIN_NODE next) (at_ : StackAt d size next (children :: siblings :: rest))
    (room : children.nodes.length < fuel) :
    fdtSibling fuel d (BitVec.ofNat 32 a) = .ok (found siblings) := by
  obtain ⟨turns, total⟩ := Nat.exists_eq_add_of_lt room
  have first : Leads d size (siblings :: rest) 0 (fun result => fdtScan fuel d 1 (turns + 1) result.1 result.2)
      (found siblings) := block.scanFirst le_rfl (by decide)
  have past := block.scanPast (f := children) (k := 0) enough le_rfl first
  rw [fdtSibling, if_neg (not_not.mpr block.header)]
  refine block.leads enough token at_ ?_
  have count : turns + 1 + children.nodes.length = fuel := by omega
  rw [count] at past
  exact past

end ToyHv

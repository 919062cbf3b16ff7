import ToyHv.Memory.Words
import ToyHv.Tree.Parents

namespace ToyHv

open Library

variable {d : Dtb} {size fuel o x p : ℕ} {f children below : Forest ℕ} {rest : List (Forest ℕ)}

def phandle (o : ℕ) : W32 := romGetPhandle (BitVec.ofNat 32 o)

/-- The phandles of a tree, the root's first. -/
def phandles (children : Forest ℕ) : List W32 := ROOT_PHANDLE :: children.nodes.map phandle

theorem nodeOffset_phandle (short : o < 2^28) : romNodeOffsetByPhandle (phandle o) = BitVec.ofNat 32 o := by
  have low : BitVec.ofNat 32 o &&& BitVec.ofNat 32 (2^28 - 1) = BitVec.ofNat 32 o := by
    apply BitVec.eq_of_toNat_eq
    rw [toNat_and_low _ (by decide), BitVec.toNat_ofNat]
    omega
  have clear : BitVec.ofNat 32 (2^28 - 1) &&& ~~~PHANDLE_MUNGE = BitVec.ofNat 32 (2^28 - 1) := by decide
  calc (BitVec.ofNat 32 o ||| PHANDLE_MUNGE) &&& ~~~PHANDLE_MUNGE
      = BitVec.ofNat 32 o &&& ~~~PHANDLE_MUNGE ||| PHANDLE_MUNGE &&& ~~~PHANDLE_MUNGE := BitVec.and_or_distrib_right
    _ = BitVec.ofNat 32 o &&& ~~~PHANDLE_MUNGE := BitVec.or_zero
    _ = BitVec.ofNat 32 o := by rw [← low, BitVec.and_assoc, clear]

theorem phandle_inj {a b : ℕ} (shortA : a < 2^28) (shortB : b < 2^28) (same : phandle a = phandle b) : a = b := by
  have offsets := congrArg romNodeOffsetByPhandle same
  rw [nodeOffset_phandle shortA, nodeOffset_phandle shortB] at offsets
  have values := congrArg BitVec.toNat offsets
  rw [BitVec.toNat_ofNat, BitVec.toNat_ofNat] at values
  omega

theorem phandle_ne_zero : phandle o ≠ 0 := by
  intro zero
  have munge := (BitVec.or_eq_zero_iff.mp zero).2
  exact absurd munge (by decide)

def first : Forest ℕ → W32
  | .nil => 0
  | .node a _ _ => phandle a

theorem phandleOrZero_found (short : ∀ y ∈ f.nodes, y < 2^28) : phandleOrZero (found f) = first f := by
  cases f with
  | nil => rfl
  | node a children siblings =>
    have small := short a List.mem_cons_self
    have positive := toInt_offset (a := a) (by omega)
    rw [found, phandleOrZero, if_neg (by omega)]
    rfl

theorem romChildOf_phandle (short : o < 2^28) {node : W32} (looked : fdtSubnode fuel d (BitVec.ofNat 32 o) = .ok node) :
    romChildOf fuel d (phandle o) = .ok (phandleOrZero node) := by
  have positive := toInt_offset (a := o) (by omega)
  rw [romChildOf, nodeOffset_phandle short, if_neg (by omega), looked]
  rfl

theorem romPeerOf_phandle (short : o < 2^28) {node : W32} (looked : fdtSibling fuel d (BitVec.ofNat 32 o) = .ok node) :
    romPeerOf fuel d (phandle o) = .ok (phandleOrZero node) := by
  have positive := toInt_offset (a := o) (by omega)
  rw [romPeerOf, if_neg phandle_ne_zero, nodeOffset_phandle short, if_neg (by omega), looked]
  rfl

theorem romParentOf_phandle {q : ℕ} (short : o < 2^28) (shortQ : q < 2^28) (inner : o ≠ 0)
    (looked : fdtParentOffset fuel d (BitVec.ofNat 32 o) = .ok (BitVec.ofNat 32 q)) :
    romParentOf fuel d (phandle o) = .ok (phandle q) := by
  have positive := toInt_offset (a := o) (by omega)
  have natural := toInt_offset (a := q) (by omega)
  have other : ¬ phandle o = ROOT_PHANDLE := fun same => inner (phandle_inj short (by decide) same)
  rw [romParentOf, if_neg other, nodeOffset_phandle short, if_neg (by omega), looked, ok_bind, bugOn_false (by omega)]
  rfl

def answered (answer : Checked W32) : W32 := answer.toOption.getD 0

def childAnswer (fuel : ℕ) (d : Dtb) (ph : W32) : W32 := answered (romChildOf fuel d ph)
def peerAnswer (fuel : ℕ) (d : Dtb) (ph : W32) : W32 := answered (romPeerOf fuel d ph)
def parentAnswer (fuel : ℕ) (d : Dtb) (ph : W32) : W32 := answered (romParentOf fuel d ph)

theorem StackAt.node (at_ : StackAt d size o (f :: rest)) (has : Forest.HasChildren p below f) :
    ∃ next siblings around, TokenAt d size p FDT_BEGIN_NODE next ∧
      StackAt d size next (below :: siblings :: around) ∧ below.nodes.length < f.nodes.length := by
  induction has generalizing o rest with
  | here =>
    obtain ⟨next, token, stack⟩ := at_.first
    refine ⟨next, _, rest, token, stack, ?_⟩
    rw [Forest.nodes, List.length_cons, List.length_append]
    omega
  | inside _ ih =>
    obtain ⟨_, _, stack⟩ := at_.first
    obtain ⟨next, siblings, around, token, inner, fewer⟩ := ih stack
    refine ⟨next, siblings, around, token, inner, ?_⟩
    rw [Forest.nodes, List.length_cons, List.length_append]
    omega
  | after _ ih =>
    obtain ⟨_, _, stack⟩ := at_.first
    obtain ⟨_, later⟩ := stack.outer
    obtain ⟨next, siblings, around, token, inner, fewer⟩ := ih later
    refine ⟨next, siblings, around, token, inner, ?_⟩
    rw [Forest.nodes, List.length_cons, List.length_append]
    omega

theorem Block.follows (block : Block d size) (enough : size ≤ fuel) (at_ : StackAt d size o (f :: rest))
    (room : f.nodes.length < fuel) (short : ∀ y ∈ f.nodes, y < 2^28) :
    (f.map phandle).Follows (childAnswer fuel d) (peerAnswer fuel d) 0 (first f) := by
  induction f generalizing o rest with
  | nil => rfl
  | node a children siblings below after =>
    obtain ⟨next, token, stack⟩ := at_.first
    obtain ⟨_, later⟩ := stack.outer
    rw [Forest.nodes, List.length_cons, List.length_append] at room
    have small := short a List.mem_cons_self
    have shortBelow : ∀ y ∈ children.nodes, y < 2^28 := fun y member =>
      short y (List.mem_cons_of_mem _ (List.mem_append_left _ member))
    have shortAfter : ∀ y ∈ siblings.nodes, y < 2^28 := fun y member =>
      short y (List.mem_cons_of_mem _ (List.mem_append_right _ member))
    have down : childAnswer fuel d (phandle a) = first children := by
      rw [childAnswer, romChildOf_phandle small (block.subnode enough token stack), phandleOrZero_found shortBelow]
      rfl
    have along : peerAnswer fuel d (phandle a) = first siblings := by
      rw [peerAnswer, romPeerOf_phandle small (block.sibling enough token stack (by omega)),
        phandleOrZero_found shortAfter]
      rfl
    refine ⟨rfl, phandle_ne_zero, ?_, ?_⟩
    · rw [down]
      exact below stack (by omega) shortBelow
    · rw [along]
      exact after later (by omega) shortAfter

/-- A service finds a phandle in its first argument cell and, where it can, stores another one in its result cell. -/
def Answers (service : Machine → W32 → W32 → W32 → Checked (Err × Machine)) (x y : W32) : Prop :=
  ∀ m cia ciaIn ciaOut ea, ciaCell m cia ciaIn 0 = .ok (.none, x) → ciaRet cia ciaIn ciaOut 0 = .ok ea →
    Writable m ea → ∃ host, service m cia ciaIn ciaOut = .ok (.none, { m with host }) ∧
      ∀ old, guestFromX { m with host } old ea = .ok (.none, y)

theorem romNavigate_found {answer : W32 → Checked W32} {failed : W32} {m : Machine} {cia ciaIn ciaOut x y : W32}
    (read : ciaCell m cia ciaIn 0 = .ok (.none, x)) (found : answer x = .ok y) :
    romNavigate answer failed m cia ciaIn ciaOut = ciaRet cia ciaIn ciaOut 0 >>= fun ea => storeResult m ea y := by
  rw [romNavigate, read, ok_bind]
  simp only [ne_eq, not_true_eq_false, if_false]
  rw [found]
  rfl

theorem romNavigate_answers {answer : W32 → Checked W32} {failed : Machine → W32} {x : W32}
    (ended : ∃ y, answer x = .ok y) :
    Answers (fun m => romNavigate answer (failed m) m) x (answered (answer x)) := by
  intro m cia ciaIn ciaOut ea read cell writable
  obtain ⟨y, found⟩ := ended
  change ∃ host, romNavigate answer (failed m) m cia ciaIn ciaOut = _ ∧ _
  rw [romNavigate_found read found, cell, ok_bind, found]
  exact writable.result y

/-- The three services try a result cell that does not lead to RAM without end. -/
theorem romNavigate_stuck {answer : W32 → Checked W32} {failed : W32} {m : Machine} {cia ciaIn ciaOut ea x y : W32}
    (read : ciaCell m cia ciaIn 0 = .ok (.none, x)) (found : answer x = .ok y)
    (cell : ciaRet cia ciaIn ciaOut 0 = .ok ea) (fits : ScalarFits m ea 4) (missing : ¬ Translatable m ea) :
    romNavigate answer failed m cia ciaIn ciaOut = .error .stillRunning := by
  rw [romNavigate_found read found, cell, ok_bind]
  exact storeResult_stuck fits missing y

/-- What the device tree services `child`, `peer` and `parent` are for, as functions of a phandle:
    they enumerate a tree of nodes. -/
structure Enumerates (child peer parent : W32 → W32) (children : Forest ℕ) : Prop where
  visited : ∀ seen, Visits child peer 0 (peer 0) seen ↔ seen = phandles children
  once : (phandles children).Nodup
  parent_iff : ∀ x ∈ phandles children, x ≠ ROOT_PHANDLE → parent x ∈ phandles children ∧
    ∀ p ∈ phandles children, OnChain peer 0 (child p) x ↔ p = parent x
  parent_root : parent ROOT_PHANDLE = 0
  peer_root : peer ROOT_PHANDLE = 0
  child_leaf : ∀ leaf, Forest.HasChildren leaf .nil (.node 0 children .nil) → child (phandle leaf) = 0

theorem FlatTree.short_nodes (tree : FlatTree d size children) :
    ∀ y ∈ (Forest.node 0 children .nil).nodes, y < 2^28 := by
  intro y member
  have small := tree.short
  rcases List.mem_cons.mp member with rfl | member
  · decide
  · rw [Forest.nodes, List.append_nil] at member
    have bounds := tree.sorted.1 y member
    omega

theorem FlatTree.follows (tree : FlatTree d size children) (enough : size ≤ fuel) :
    ((Forest.node 0 children .nil).map phandle).Follows (childAnswer fuel d) (peerAnswer fuel d) 0 ROOT_PHANDLE := by
  obtain ⟨stop, last, forest, ended⟩ := tree.tree
  have total := forest.grows
  have longer := ended.grows
  have inside := ended.inside
  exact tree.toBlock.follows enough (.last forest ended) (by omega) tree.short_nodes

theorem FlatTree.parent (tree : FlatTree d size children) (enough : size ≤ fuel)
    (has : Forest.HasChildren p below (.node 0 children .nil)) (member : x ∈ below.tops) :
    romParentOf fuel d (phandle x) = .ok (phandle p) := by
  have placed : ∃ e, children.Placed 1 0 x e p := by
    cases has with
    | here => exact ⟨1, Forest.placed_top member⟩
    | inside has =>
      obtain ⟨e, placed⟩ := has.placed member
      exact ⟨e, placed⟩
    | after has => cases has
  obtain ⟨e, placed⟩ := placed
  have small := tree.short
  obtain ⟨positive, inside⟩ := tree.sorted.1 x placed.mem
  exact romParentOf_phandle (by omega) (tree.short_nodes p has.mem) (by omega) (tree.parentOffset enough placed)

theorem phandles_eq : phandles children = (Forest.node 0 children .nil).nodes.map phandle := by
  rw [Forest.nodes, Forest.nodes, List.append_nil]
  rfl

theorem FlatTree.enumerates (tree : FlatTree d size children) (enough : size ≤ fuel) :
    Enumerates (childAnswer fuel d) (peerAnswer fuel d) (parentAnswer fuel d) children := by
  have follows := tree.follows enough
  have start : peerAnswer fuel d 0 = ROOT_PHANDLE := rfl
  have chain {x p : ℕ} {below : Forest ℕ} (has : Forest.HasChildren p below (.node 0 children .nil)) :
      OnChain (peerAnswer fuel d) 0 (childAnswer fuel d (phandle p)) (phandle x) ↔
        phandle x ∈ below.tops.map phandle := by
    rw [(follows.children (has.map phandle)).onChain_iff, Forest.tops_map]
  have parent {x p : ℕ} {below : Forest ℕ} (has : Forest.HasChildren p below (.node 0 children .nil))
      (member : x ∈ below.tops) : parentAnswer fuel d (phandle x) = phandle p := by
    rw [parentAnswer, tree.parent enough has member]
    rfl
  constructor
  case visited =>
    intro seen
    rw [start, phandles_eq, ← Forest.nodes_map]
    constructor
    · intro visits
      exact visits.unique follows.visits
    · rintro rfl
      exact follows.visits
  case once =>
    obtain ⟨stop, last, forest, _⟩ := tree.tree
    rw [phandles_eq]
    refine List.Nodup.map_on ?_ (forest.sorted.imp fun lt => Nat.ne_of_lt lt)
    intro a first b second same
    exact phandle_inj (tree.short_nodes a first) (tree.short_nodes b second) same
  case parent_iff =>
    intro x member inner
    rw [phandles_eq] at member ⊢
    obtain ⟨o, node, rfl⟩ := List.mem_map.mp member
    rcases Forest.root_or_below node with root | ⟨q, below, has, top⟩
    · obtain rfl : o = 0 := List.mem_singleton.mp root
      exact absurd rfl inner
    refine ⟨?_, ?_⟩
    · rw [parent has top]
      exact List.mem_map_of_mem has.mem
    · intro p other
      obtain ⟨p, node, rfl⟩ := List.mem_map.mp other
      obtain ⟨beside, among⟩ := Forest.exists_children node
      constructor
      · intro on
        obtain ⟨y, topY, same⟩ := List.mem_map.mp ((chain among).mp on)
        rw [← same, parent among topY]
      · intro same
        rw [same, parent has top]
        exact (chain has).mpr (List.mem_map_of_mem top)
  case parent_root => rfl
  case peer_root => exact follows.2.2.2
  case child_leaf =>
    intro leaf has
    exact follows.children (has.map phandle)

theorem FlatTree.answers (tree : FlatTree d size children) (enough : size ≤ fuel) {ph : W32}
    (member : ph ∈ phandles children) :
    Answers (romChild fuel d) ph (childAnswer fuel d ph) ∧ Answers (romPeer fuel d) ph (peerAnswer fuel d ph) ∧
      Answers (romParent fuel d) ph (parentAnswer fuel d ph) := by
  obtain ⟨stop, last, forest, ended⟩ := tree.tree
  have total := forest.grows
  have longer := ended.grows
  have inside := ended.inside
  rw [phandles_eq] at member
  obtain ⟨o, node, rfl⟩ := List.mem_map.mp member
  have small := tree.short_nodes o node
  obtain ⟨below, has⟩ := Forest.exists_children node
  obtain ⟨next, siblings, around, token, stack, fewer⟩ := (StackAt.last forest ended).node has
  refine ⟨romNavigate_answers ⟨_, romChildOf_phandle small (tree.subnode enough token stack)⟩,
    romNavigate_answers ⟨_, romPeerOf_phandle small (tree.sibling enough token stack (by omega))⟩,
    romNavigate_answers ?_⟩
  rcases Forest.root_or_below node with root | ⟨q, beside, among, top⟩
  · obtain rfl : o = 0 := List.mem_singleton.mp root
    exact ⟨0, rfl⟩
  · exact ⟨_, tree.parent enough among top⟩

/-- For every well-formed tree, the three services answer every phandle of it, whatever the machine,
    and what they answer enumerates it. -/
theorem navigation_enumerates (tree : FlatTree d size children) (enough : size ≤ fuel) :
    ∃ child peer parent : W32 → W32,
      (∀ ph ∈ phandles children, Answers (romChild fuel d) ph (child ph) ∧ Answers (romPeer fuel d) ph (peer ph) ∧
        Answers (romParent fuel d) ph (parent ph)) ∧
      Answers (romPeer fuel d) 0 (peer 0) ∧ Enumerates child peer parent children :=
  ⟨childAnswer fuel d, peerAnswer fuel d, parentAnswer fuel d, fun _ member => tree.answers enough member,
    romNavigate_answers ⟨_, rfl⟩, tree.enumerates enough⟩

def smallDtb : Dtb where
  fdt := 0x1000
  memory := fun a => wordBytes ([0xd00dfeed, 72, 40, 72, 72, 17, 16, 0, 0, 32, 1, 0, 1, 0x61000000, 2, 4, 2, 9].getD
    ((a.toNat - 0x1000) / 4) 0) ((a.toNat - 0x1000) % 4)

theorem smallDtb_tree : FlatTree smallDtb 32 (.node 8 .nil .nil) where
  header := by decide
  counted := fun _ => by decide
  short := by decide
  allocated := by decide
  below_top := by decide
  tree := by
    have rootName := @TokenEnds.name smallDtb 0 0 (by decide) (by decide)
    have leafName := @TokenEnds.name smallDtb 8 1 (by decide) (by decide)
    have root : TokenAt smallDtb 32 0 FDT_BEGIN_NODE 8 := ⟨by decide, by decide, ⟨_, rootName, by decide⟩, by decide⟩
    have leaf : TokenAt smallDtb 32 8 FDT_BEGIN_NODE 16 := ⟨by decide, by decide, ⟨_, leafName, by decide⟩, by decide⟩
    have leafEnd : TokenAt smallDtb 32 16 FDT_END_NODE 20 :=
      ⟨by decide, by decide, ⟨_, .mark (.inl rfl), by decide⟩, by decide⟩
    have nop : TokenAt smallDtb 32 20 FDT_NOP 24 :=
      ⟨by decide, by decide, ⟨_, .mark (.inr (.inl rfl)), by decide⟩, by decide⟩
    have rootEnd : TokenAt smallDtb 32 24 FDT_END_NODE 28 :=
      ⟨by decide, by decide, ⟨_, .mark (.inl rfl), by decide⟩, by decide⟩
    have ended : TokenAt smallDtb 32 28 FDT_END 32 :=
      ⟨by decide, by decide, ⟨_, .mark (.inr (.inr rfl)), by decide⟩, by decide⟩
    exact ⟨28, 32, .node root (.node leaf .nil leafEnd (.skip (.inr rfl) nop .nil)) rootEnd .nil, ended⟩

theorem navigation_enumerates_small : ∃ child peer parent : W32 → W32,
    (∀ ph ∈ phandles (.node 8 .nil .nil), Answers (romChild 32 smallDtb) ph (child ph) ∧
      Answers (romPeer 32 smallDtb) ph (peer ph) ∧ Answers (romParent 32 smallDtb) ph (parent ph)) ∧
    Answers (romPeer 32 smallDtb) 0 (peer 0) ∧ Enumerates child peer parent (.node 8 .nil .nil) :=
  navigation_enumerates smallDtb_tree le_rfl

end ToyHv

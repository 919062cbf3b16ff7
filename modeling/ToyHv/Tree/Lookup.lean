import ToyHv.Tree.Navigation
import ToyHv.Tree.Paths

namespace ToyHv

open Library

/-- A node answers to its name, and to what is in front of its unit address. -/
def nodeAnswers (name s : List W8) : Bool := name = s ∨ s.contains AT = false ∧ s ++ [AT] <+: name

/-- Whether the node at an offset answers to a name. -/
def Dtb.answers (d : Dtb) (size a : ℕ) (s : List W8) : Bool := nodeAnswers (d.nodeName size a) s

/-- Where a path leads, from the root. -/
def Dtb.resolve (d : Dtb) (size : ℕ) (children : Forest ℕ) (path : List W8) : Option ℕ :=
  Forest.resolve (d.answers size) 0 children (components SLASH path)

def nodeOrNotfound : Option ℕ → W32
  | none => -FDT_ERR_NOTFOUND
  | some a => BitVec.ofNat 32 a

variable {d : Dtb} {size fuel o next x q after turns : ℕ} {f below children : Forest ℕ} {rest : List (Forest ℕ)}
  {s name : List W8}

theorem offsetPtr_cases (d : Dtb) (offset len : W32) :
    fdtOffsetPtr d offset len = 0 ∨ fdtOffsetPtr d offset len = _fdtOffsetPtr d offset := by
  unfold fdtOffsetPtr
  split
  · exact .inl rfl
  · dsimp only
    split
    · exact .inl rfl
    · exact .inr rfl

/-- What is in front of a string of the buffer is a string of as many bytes. -/
theorem Buf.Holds.text_eq_iff {buf : Buf} (holds : buf.Holds name) (nonzero : 0 ∉ s) :
    buf.text s.length = s ↔ s <+: name := by
  constructor
  · intro text
    have short : s.length ≤ name.length := by
      by_contra long
      rw [not_le] at long
      have byte := (Buf.text_eq_iff.mp text).2 name.length long
      rw [holds.ends] at byte
      exact nonzero (byte ▸ List.getElem_mem long)
    obtain ⟨k, total⟩ := Nat.exists_eq_add_of_le short
    have whole := holds.text
    rw [total, Buf.text_add, text] at whole
    exact ⟨_, whole⟩
  · rintro ⟨tail, rfl⟩
    have whole := holds.text
    rw [List.length_append, Buf.text_add] at whole
    exact (List.append_inj whole (by simp)).1

theorem nodeAnswers_prefix (answers : nodeAnswers name s = true) : s <+: name := by
  rcases of_decide_eq_true answers with rfl | ⟨_, longer⟩
  · exact List.prefix_rfl
  · exact (List.prefix_append s [AT]).trans longer

theorem nodeAnswers_append (s : List W8) (c : W8) (tail : List W8) :
    nodeAnswers (s ++ c :: tail) s = decide (AT ∉ s ∧ c = AT) := by
  have longer : ¬ s ++ c :: tail = s := by simp
  have head : s ++ [AT] <+: s ++ c :: tail ↔ c = AT := by
    rw [List.prefix_append_right_inj, List.cons_prefix_cons]
    exact ⟨fun both => both.1.symm, fun same => ⟨same.symm, List.nil_prefix⟩⟩
  have plain : s.contains AT = false ↔ AT ∉ s := by rw [← Bool.not_eq_true, List.contains_iff_mem]
  simp only [nodeAnswers, longer, head, false_or, plain]

/-- `_fdt_nodename_eq` at a node, for the characters of a C string. -/
theorem Block.nodenameEq (block : Block d size) (token : TokenAt d size o FDT_BEGIN_NODE next) (nonzero : 0 ∉ s)
    (short : s.length < 2^31) : _fdtNodenameEq d (BitVec.ofNat 32 o) s = d.answers size o s := by
  obtain ⟨holds, room⟩ := token.named
  have start : BitVec.ofNat 32 o + FDT_TAGSIZE = BitVec.ofNat 32 (o + 4) := (BitVec.ofNat_add o 4).symm
  have refused (miss : ¬ s <+: d.nodeName size o) : d.answers size o s = false :=
    Bool.eq_false_iff.mpr (mt nodeAnswers_prefix miss)
  rw [_fdtNodenameEq, start]
  split
  · rename_i null
    refine (refused fun within => ?_).symm
    have shorter := within.length_le
    obtain ⟨pointer, present⟩ := block.offsetPtr (o + 4) (BitVec.ofNat 32 (s.length + 1)) (by
      rw [BitVec.toNat_ofNat]
      omega)
    exact present (pointer.symm.trans null)
  · rename_i present
    have pointer : fdtOffsetPtr d (BitVec.ofNat 32 (o + 4)) (BitVec.ofNat 32 (s.length + 1)) = d.structAt (o + 4) :=
      (offsetPtr_cases d _ _).resolve_left present
    rw [pointer]
    split
    · rename_i other
      exact (refused fun within => other ((holds.text_eq_iff nonzero).mpr within)).symm
    · rename_i same
      obtain ⟨tail, whole⟩ := (holds.text_eq_iff nonzero).mp (not_not.mp same)
      rw [Dtb.answers, ← whole]
      rw [← whole] at holds
      cases tail with
      | nil =>
        rw [List.append_nil] at holds ⊢
        rw [if_pos holds.ends]
        exact (decide_eq_true (.inl rfl)).symm
      | cons c tail =>
        have byte : d.bytes (d.structAt (o + 4)) s.length = c := by
          rw [holds.byte (by simp)]
          simp
        have inner : c ≠ 0 := by
          rintro rfl
          exact holds.nonzero (by simp)
        rw [byte, if_neg inner, nodeAnswers_append]

theorem subnodeLoop_past {turns : ℕ} {offset : ℕ} {depth : ℕ} (short : offset < 2^31)
    (other : ¬ (depth = 1 ∧ _fdtNodenameEq d (BitVec.ofNat 32 offset) s = true)) :
    fdtSubnodeOffsetLoop fuel d s (turns + 1) (BitVec.ofNat 32 offset) depth =
      fdtNextNode fuel d (BitVec.ofNat 32 offset) depth >>= fun r => fdtSubnodeOffsetLoop fuel d s turns r.1 r.2 := by
  have natural := toInt_offset short
  have going : ¬ ((depth : ℤ) = 1 ∧ _fdtNodenameEq d (BitVec.ofNat 32 offset) s = true) := by
    rwa [Nat.cast_eq_one]
  rw [fdtSubnodeOffsetLoop, if_pos (by omega), if_neg going]

/-- Which nodes the search for a child passes: all but the children that answer. -/
def SubnodePasses (d : Dtb) (size : ℕ) (s : List W8) (k a : ℕ) : Prop :=
  k = 1 → d.answers size a s = false

theorem subnodeLoop (block : Block d size) (nonzero : 0 ∉ s) (short : s.length < 2^31) :
    NodeLoop fuel d size (fun turns (_ : Unit) offset depth => fdtSubnodeOffsetLoop fuel d s turns offset depth)
      (fun _ _ => True) (SubnodePasses d size s) where
  turn := by
    intro chain a next _ token passes _
    have small := block.short
    have inside := token.inside
    have longer := token.grows
    refine ⟨(), trivial, fun turns => subnodeLoop_past (by omega) ?_⟩
    rw [block.nodenameEq token nonzero short]
    rintro ⟨child, answers⟩
    exact absurd answers (Bool.eq_false_iff.mp (passes child))
  leave := fun _ => trivial

/-- `fdt_subnode_offset_namelen` finds the first child that answers. -/
theorem Block.subnodeOffset (block : Block d size) (enough : size ≤ fuel) (token : TokenAt d size q FDT_BEGIN_NODE next)
    (inside : Inside d size after next (below :: rest)) (nonzero : 0 ∉ s) (short : s.length < 2^31) :
    fdtSubnodeOffsetNamelen fuel d (BitVec.ofNat 32 q) s =
      .ok (nodeOrNotfound (below.tops.find? fun a => d.answers size a s)) := by
  obtain ⟨close, behind, forest, closed⟩ := inside.here
  have alone : Inside d size behind next [below] := .last forest closed
  obtain ⟨between, total, most⟩ := alone.between
  have small := block.short
  have longer := token.grows
  have loop : NodeLoop fuel d size _ _ _ := subnodeLoop block nonzero short
  have start : (fun (_ : List ℕ) (_ : Unit) => True) ([] ++ [q]) () := trivial
  have deeper : ∀ a ∈ below.nodes, ∀ j, ([] : List ℕ).length + 1 < j → SubnodePasses d size s j a := by
    intro a _ j deep one
    rw [List.length_nil] at deep
    omega
  suffices all : ∀ left, fdtSubnodeOffsetLoop fuel d s (left + 1 + below.nodes.length + 1) (BitVec.ofNat 32 q) (0 : ℕ) =
      .ok (nodeOrNotfound (below.tops.find? fun a => d.answers size a s)) by
    have last := all (fuel - below.nodes.length - 2)
    rw [show fuel - below.nodes.length - 2 + 1 + below.nodes.length + 1 = fuel by omega] at last
    rw [fdtSubnodeOffsetNamelen, if_neg (not_not.mpr block.header)]
    exact last
  intro left
  rw [subnodeLoop_past (by omega) (by simp)]
  refine block.brings (Q := (· = _)) enough token alone ?_
  cases search : below.tops.find? fun a => d.answers size a s with
  | none =>
    have none := List.find?_eq_none.mp search
    have passes : below.Each (SubnodePasses d size s) (([] : List ℕ).length + 1) :=
      .of_tops (fun a top _ => Bool.eq_false_iff.mpr (none a top)) deeper
    refine loop.past (q := q) (s := ()) block enough ?_ passes start fun _ _ result lands => ?_
    · rfl
    · cases lands with
      | out =>
        change fdtSubnodeOffsetLoop fuel d s (left + 1) (BitVec.ofNat 32 behind) (-1) = _
        rw [fdtSubnodeOffsetLoop, if_neg (by omega), if_pos (by decide)]
        rfl
  | some x =>
    obtain ⟨found, before, behind, split, others⟩ := List.find?_eq_some_iff_append.mp search
    have member : x ∈ below.tops := by
      rw [split]
      simp
    have ordered := alone.sorted.sublist (Forest.tops_sublist below)
    rw [split] at ordered
    have passes : below.Each (fun k y => y < x → SubnodePasses d size s k y) (([] : List ℕ).length + 1) := by
      refine .of_tops (fun a top early _ => ?_) fun a inner j deep _ => deeper a inner j deep
      rw [split] at top
      rcases List.mem_append.mp top with earlier | later
      · simpa using others a earlier
      · rcases List.mem_cons.mp later with rfl | later
        · exact absurd early (lt_irrefl _)
        · have above := List.rel_of_pairwise_cons (List.pairwise_append.mp ordered).2.1 later
          exact absurd early (lt_asymm above)
    have way := Forest.chain_top member
    refine loop.arrives (q := q) (s := ()) block enough ?_ way alone.sorted passes start (by omega) ?_
    · rfl
    · intro turns _ next token _
      have inner := token.inside
      have further := token.grows
      have natural := toInt_offset (a := x) (by omega)
      change fdtSubnodeOffsetLoop fuel d s (turns + 1) (BitVec.ofNat 32 x) (1 : ℕ) = _
      rw [fdtSubnodeOffsetLoop, if_pos (by omega), block.nodenameEq token nonzero short, if_pos ⟨rfl, found⟩]
      rfl

theorem Inside.picked {answers : ℕ → List W8 → Bool} {a : ℕ} (inside : Inside d size after o (f :: rest))
    (picked : f.pick answers s = some (a, below)) :
    ∃ next rest', TokenAt d size a FDT_BEGIN_NODE next ∧ Inside d size after next (below :: rest') := by
  induction f generalizing o rest with
  | nil => cases picked
  | node b children siblings _ beside =>
    obtain ⟨next, token, nested⟩ := inside.first
    rw [Forest.pick] at picked
    split at picked
    · cases picked
      exact ⟨next, _, token, nested⟩
    · cases nested with
      | nest _ _ outer => exact beside outer picked

/-- The loop of `fdt_path_offset` resolves the names that are left, from the node it has come to. -/
theorem Block.pathWalk (block : Block d size) (enough : size ≤ fuel) (token : TokenAt d size q FDT_BEGIN_NODE next)
    (inside : Inside d size after next (below :: rest)) (nonzero : 0 ∉ s) (short : s.length < 2^31) :
    fdtPathWalk fuel d (BitVec.ofNat 32 q) s = .ok (nodeOrNotfound
      (Forest.resolve (d.answers size) q below (components SLASH s))) := by
  induction measure : s.length using Nat.strongRecOn generalizing q next below rest s with
  | ind n ih =>
    subst measure
    rw [fdtPathWalk, ← components_dropWhile]
    split
    · rename_i none
      rw [none, components_nil]
      cases below <;> rfl
    · rename_i more
      have shorter := dropWhile_shorter more
      have within : ∀ c ∈ s.dropWhile (· = SLASH), c ∈ s := (List.dropWhile_suffix _).subset
      have total := (List.dropWhile_suffix (l := s) (· = SLASH)).length_le
      obtain ⟨c, p, split⟩ := List.exists_cons_of_ne_nil more
      have first : c ≠ SLASH := by
        have head := List.head_dropWhile_not (fun x => decide (x = SLASH)) more
        simpa [split] using head
      simp only [split] at shorter within total ⊢
      have front := (List.takeWhile_prefix (l := c :: p) (· ≠ SLASH)).length_le
      have found := block.subnodeOffset (s := (c :: p).takeWhile (· ≠ SLASH)) enough token inside
        (fun zero => nonzero (within 0 (List.takeWhile_prefix _ |>.subset zero))) (by omega)
      rw [found, ok_bind, components_cons first, Forest.resolve_cons, ← Forest.pick_tops]
      cases picked : below.pick (d.answers size) ((c :: p).takeWhile (· ≠ SLASH)) with
      | none => rfl
      | some child =>
        obtain ⟨a, children⟩ := child
        obtain ⟨next, rest, token, inside⟩ := inside.picked picked
        have small := block.short
        have room := token.inside
        have longer := token.grows
        have natural : ¬ (BitVec.ofNat 32 a).toInt < 0 := by
          rw [toInt_offset (by omega)]
          omega
        have later := ih _ shorter token inside
          (fun zero => nonzero (within 0 (List.dropWhile_suffix _ |>.subset zero))) (by omega) rfl
        rw [Option.map_some, nodeOrNotfound, if_neg natural, later]
        rfl

/-- `fdt_path_offset` of a path that starts at the root. -/
theorem FlatTree.pathOffset (tree : FlatTree d size children) (enough : size ≤ fuel) {calls : ℕ} {path : List W8}
    (rooted : path.head? = some SLASH) (nonzero : 0 ∉ path) (short : path.length < 2^31) :
    fdtPathOffset fuel d (calls + 1) path = .ok (nodeOrNotfound (d.resolve size children path)) := by
  obtain ⟨after, next, _, _, token, inside, _, _⟩ := tree.rootEnds
  have block := tree.toBlock
  rw [fdtPathOffset, if_neg (not_not.mpr block.header), if_pos rooted]
  exact block.pathWalk enough token inside nonzero short

theorem FlatTree.resolve_short {a : ℕ} {names : List (List W8)} (tree : FlatTree d size children)
    (leads : Forest.resolve (d.answers size) 0 children names = some a) : a < 2^31 := by
  obtain ⟨after, next, _, _, token, inside, _, _⟩ := tree.rootEnds
  have small := tree.toBlock.short
  have longer := token.grows
  have room := token.inside
  obtain ⟨between, _, most⟩ := inside.between
  rcases Forest.resolve_mem leads with rfl | member
  · omega
  · have low := between a member
    omega

/-- The names of a path are those it was put together of. -/
theorem components_pathText {names : List (List W8)} (plain : ∀ name ∈ names, name ≠ [] ∧ SLASH ∉ name)
    (path : List W8) : components SLASH (pathText names ++ path) = names ++ components SLASH path := by
  induction names with
  | nil => rfl
  | cons name names ih =>
    obtain ⟨some, slashless⟩ := plain name List.mem_cons_self
    have split : pathText (name :: names) ++ path = name ++ SLASH :: (pathText names ++ path) := by simp [pathText]
    rw [split, components_append slashless some, ih fun other member => plain other (List.mem_cons_of_mem _ member)]
    rfl

theorem components_nodePath {names : List (List W8)} (plain : ∀ name ∈ names, name ≠ [] ∧ SLASH ∉ name) :
    components SLASH (nodePath ([] :: names)) = names := by
  have root : pathText ([] :: names) = SLASH :: pathText names := by simp [pathText]
  rw [nodePath, root]
  cases names using List.reverseRecOn with
  | nil => rfl
  | append_singleton names name =>
    obtain ⟨some, slashless⟩ := plain name (by simp)
    have last : SLASH :: pathText (names ++ [name]) = (SLASH :: (pathText names ++ name)) ++ [SLASH] := by
      rw [pathText_snoc]
      rfl
    rw [if_pos (by simp [pathText_snoc]), last, List.dropLast_concat, components_sep,
      components_pathText (fun other member => plain other (by simp [member])), components_name slashless some]

theorem nodePath_rooted (names : List (List W8)) : (nodePath ([] :: names)).head? = some SLASH := by
  have root : pathText ([] :: names) = SLASH :: pathText names := by simp [pathText]
  rw [nodePath, root]
  split
  · rename_i more
    obtain ⟨c, tail, same⟩ := List.exists_cons_of_ne_nil (l := pathText names) (by
      rintro none
      rw [none] at more
      exact absurd more (by decide))
    rw [same]
    rfl
  · rfl

theorem nodePath_shorter {names : List (List W8)} {room : ℕ} (fits : (pathText names).length ≤ room) (two : 2 ≤ room) :
    (nodePath names).length < room := by
  rw [nodePath]
  split
  · rw [List.length_dropLast]
    omega
  · omega

/-- The names of the nodes below the root on the way to one lead back to it, or an earlier node takes it. -/
theorem NamedTree.resolve_nodePath (tree : NamedTree d size children) {l : List ℕ}
    (chain : (Forest.node 0 children .nil).Chain l x) :
    (∃ names, d.pathNames size l x = [] :: names) ∧
      (d.resolve size children (nodePath (d.pathNames size l x)) = some x ↔
        Forest.Clear (d.answers size) (d.nodeName size) (.node 0 children .nil) l x) := by
  obtain ⟨after, next, _, _, token, inside, _, _⟩ := tree.rootEnds
  cases chain with
  | here =>
    have names : d.pathNames size [] 0 = [[]] := by simp [Dtb.pathNames, tree.root]
    rw [names]
    refine ⟨⟨[], rfl⟩, iff_of_true ?_ .here⟩
    rw [Dtb.resolve, components_nodePath (by simp)]
    cases children <;> rfl
  | @down _ _ l _ _ below =>
    have names : d.pathNames size (0 :: l) x = [] :: (l.map (d.nodeName size) ++ [d.nodeName size x]) := by
      simp [Dtb.pathNames, tree.root]
    have plain : ∀ name ∈ l.map (d.nodeName size) ++ [d.nodeName size x], name ≠ [] ∧ SLASH ∉ name := by
      intro name member
      rcases List.mem_append.mp member with above | last
      · obtain ⟨a, inner, rfl⟩ := List.mem_map.mp above
        exact tree.named a (below.above a inner)
      · rw [List.mem_singleton.mp last]
        exact tree.named x below.mem
    have own : ∀ a ∈ children.nodes, d.answers size a (d.nodeName size a) = true :=
      fun _ _ => decide_eq_true (.inl rfl)
    have once : children.nodes.Nodup := inside.sorted.imp Nat.ne_of_lt
    rw [names, Dtb.resolve, components_nodePath plain, below.resolves_iff own once 0]
    refine ⟨⟨_, rfl⟩, fun clear => .down clear, fun clear => ?_⟩
    cases clear with
    | down clear => exact clear
    | along _ clear => cases clear
  | along none => cases none

/-- `fdt_get_path` gives out a path for every node, and it leads `fdt_path_offset` back to the node, except where an
    earlier node on the way answers to the name of a later one. -/
theorem NamedTree.path_round_trip (tree : NamedTree d size children) (enough : size ≤ fuel) {target buflen calls : ℕ}
    {l : List ℕ} {orig : Buf} (chain : (Forest.node 0 children .nil).Chain l target)
    (fits : (pathText (d.pathNames size l target)).length ≤ buflen) (room : 2 ≤ buflen) (int : buflen < 2^31) :
    ∃ buf, fdtGetPath fuel d (BitVec.ofNat 32 target) orig buflen = .ok (0, buf) ∧
      (fdtPathOffset fuel d (calls + 1) (pathAt buf buflen) = .ok (BitVec.ofNat 32 target) ↔
        Forest.Clear (d.answers size) (d.nodeName size) (.node 0 children .nil) l target) := by
  have short : target < 2^31 := by
    have small := tree.short_nodes target chain.mem
    omega
  obtain ⟨after, ends⟩ := tree.rootEnds
  obtain ⟨stop, last, forest, _⟩ := tree.tree
  have once : (Forest.node 0 children .nil).nodes.Nodup := forest.sorted.imp Nat.ne_of_lt
  have outcome : PathOutcome d size children after orig buflen target
      (fdtGetPath fuel d (BitVec.ofNat 32 target) orig buflen) := tree.getPath enough short room ends
  generalize result : fdtGetPath fuel d (BitVec.ofNat 32 target) orig buflen = r at outcome
  cases outcome with
  | @found l' buf chain' _ _ holds =>
    obtain rfl := chain.unique chain' once
    obtain ⟨⟨names, shape⟩, leads⟩ := tree.resolve_nodePath chain
    have shorter := nodePath_shorter fits room
    have rooted : (nodePath (d.pathNames size l target)).head? = some SLASH := by
      rw [shape]
      exact nodePath_rooted names
    refine ⟨buf, rfl, ?_⟩
    rw [holds.pathAt shorter, tree.pathOffset enough rooted holds.nonzero (by omega), ← leads]
    constructor
    · intro same
      cases found : d.resolve size children (nodePath (d.pathNames size l target)) with
      | none =>
        rw [found] at same
        have wrong := congrArg BitVec.toInt (Except.ok.inj same)
        rw [toInt_offset short] at wrong
        have negative : (nodeOrNotfound none).toInt < 0 := by decide
        omega
      | some a =>
        rw [found] at same
        have equal := congrArg BitVec.toInt (Except.ok.inj same)
        rw [toInt_offset short, nodeOrNotfound, toInt_offset (tree.resolve_short found)] at equal
        rw [Int.ofNat_inj.mp equal]
    · intro found
      rw [found]
      rfl
  | noSpace chain' tight _ =>
    obtain rfl := chain.unique chain' once
    omega
  | noNode other _ _ => exact absurd chain.mem other
  | before beyond =>
    obtain ⟨next, _, _, token, inside, _, _⟩ := ends
    have longer := token.grows
    obtain ⟨between, _, _⟩ := inside.between
    rcases List.mem_cons.mp chain.mem with rfl | member
    · omega
    · replace member : target ∈ children.nodes := by simpa [Forest.nodes] using member
      have low := between target member
      omega

/-- A tree with the nodes `a@1` and, after it, `a`. -/
def siblingDtb : Dtb where
  fdt := 0x1000
  memory := fun a => wordBytes ([0xd00dfeed, 80, 40, 80, 80, 17, 16, 0, 0, 40, 1, 0, 1, 0x61403100, 2, 1, 0x61000000, 2,
    2, 9].getD ((a.toNat - 0x1000) / 4) 0) ((a.toNat - 0x1000) % 4)

theorem siblingDtb_named : NamedTree siblingDtb 40 (.node 8 .nil (.node 20 .nil .nil)) where
  header := by decide
  counted := fun _ => by decide
  short := by decide
  allocated := by decide
  below_top := by decide
  tree := by
    have rootName := @TokenEnds.name siblingDtb 0 0 (by decide) (by decide)
    have firstName := @TokenEnds.name siblingDtb 8 3 (by decide) (by decide)
    have secondName := @TokenEnds.name siblingDtb 20 1 (by decide) (by decide)
    have root : TokenAt siblingDtb 40 0 FDT_BEGIN_NODE 8 := ⟨by decide, by decide, ⟨_, rootName, by decide⟩, by decide⟩
    have first : TokenAt siblingDtb 40 8 FDT_BEGIN_NODE 16 :=
      ⟨by decide, by decide, ⟨_, firstName, by decide⟩, by decide⟩
    have firstEnd : TokenAt siblingDtb 40 16 FDT_END_NODE 20 :=
      ⟨by decide, by decide, ⟨_, .mark (.inl rfl), by decide⟩, by decide⟩
    have second : TokenAt siblingDtb 40 20 FDT_BEGIN_NODE 28 :=
      ⟨by decide, by decide, ⟨_, secondName, by decide⟩, by decide⟩
    have secondEnd : TokenAt siblingDtb 40 28 FDT_END_NODE 32 :=
      ⟨by decide, by decide, ⟨_, .mark (.inl rfl), by decide⟩, by decide⟩
    have rootEnd : TokenAt siblingDtb 40 32 FDT_END_NODE 36 :=
      ⟨by decide, by decide, ⟨_, .mark (.inl rfl), by decide⟩, by decide⟩
    have ended : TokenAt siblingDtb 40 36 FDT_END 40 :=
      ⟨by decide, by decide, ⟨_, .mark (.inr (.inr rfl)), by decide⟩, by decide⟩
    refine ⟨36, 40, .node root ?_ rootEnd .nil, ended⟩
    exact .node first .nil firstEnd (.node second .nil secondEnd .nil)
  root := by decide
  named := by
    intro a member
    have which : a = 8 ∨ a = 20 := by simpa [Forest.nodes] using member
    rcases which with rfl | rfl
    all_goals decide

theorem path_round_trip_small :
    (∃ buf, fdtGetPath 40 siblingDtb 8 (fun _ => 0) (4096 : ℕ) = .ok (0, buf) ∧
      fdtPathOffset 40 siblingDtb 1 (pathAt buf 4096) = .ok 8) ∧
    ∃ buf, fdtGetPath 40 siblingDtb 20 (fun _ => 0) (4096 : ℕ) = .ok (0, buf) ∧
      ¬ fdtPathOffset 40 siblingDtb 1 (pathAt buf 4096) = .ok 20 := by
  have first : (Forest.node 0 (.node 8 .nil (.node 20 .nil .nil)) .nil).Chain [0] 8 := .down .here
  have second : (Forest.node 0 (.node 8 .nil (.node 20 .nil .nil)) .nil).Chain [0] 20 := .down (.along .here)
  obtain ⟨buf, got, leads⟩ : ∃ buf, fdtGetPath 40 siblingDtb 8 (fun _ => 0) (4096 : ℕ) = .ok (0, buf) ∧
      (fdtPathOffset 40 siblingDtb 1 (pathAt buf 4096) = .ok 8 ↔ _) :=
    siblingDtb_named.path_round_trip le_rfl first (by decide) (by decide) (by decide)
  obtain ⟨buf', got', leads'⟩ : ∃ buf, fdtGetPath 40 siblingDtb 20 (fun _ => 0) (4096 : ℕ) = .ok (0, buf) ∧
      (fdtPathOffset 40 siblingDtb 1 (pathAt buf 4096) = .ok 20 ↔ _) :=
    siblingDtb_named.path_round_trip le_rfl second (by decide) (by decide) (by decide)
  refine ⟨⟨buf, got, leads.mpr (.down .here)⟩, buf', got', fun back => ?_⟩
  cases leads'.mp back with
  | down clear =>
    cases clear with
    | along misses _ => exact absurd misses (by decide)
  | along _ none => cases none

theorem smallDtb_named : NamedTree smallDtb 32 (.node 8 .nil .nil) where
  toFlatTree := smallDtb_tree
  root := by decide
  named := by
    intro a member
    obtain rfl : a = 8 := List.mem_singleton.mp member
    decide

theorem getPath_small : ∃ after, PathOutcome smallDtb 32 (.node 8 .nil .nil) after (fun _ => 0) 4096 8
    (fdtGetPath 32 smallDtb 8 (fun _ => 0) (4096 : ℕ)) := by
  obtain ⟨after, ends⟩ := smallDtb_tree.rootEnds
  have short : 8 < 2^31 := by decide
  exact ⟨after, smallDtb_named.getPath le_rfl short (by decide) ends⟩

theorem pathOffset_small : fdtPathOffset 32 smallDtb 1 (bufOf (cString "/a") |>.text 2) =
    .ok (nodeOrNotfound (smallDtb.resolve 32 (.node 8 .nil .nil) (bufOf (cString "/a") |>.text 2))) :=
  smallDtb_tree.pathOffset le_rfl (by decide) (by decide) (by decide)

end ToyHv

import ToyHv.Memory.RoundTrip
import ToyHv.Tree.Lookup

namespace ToyHv

open Library

/-- The properties in front of the first child of a node, by their offsets. -/
inductive PropsAt (d : Dtb) (size : ℕ) : ℕ → List ℕ → Prop
  | nil {o next : ℕ} {tag : W32} : tag = FDT_BEGIN_NODE ∨ tag = FDT_END_NODE → TokenAt d size o tag next →
      PropsAt d size o []
  | nop {o next : ℕ} {l : List ℕ} : TokenAt d size o FDT_NOP next → PropsAt d size next l → PropsAt d size o l
  | prop {o next : ℕ} {l : List ℕ} : TokenAt d size o FDT_PROP next → PropsAt d size next l → PropsAt d size o (o :: l)

/-- The name of the property at an offset, in the strings block. -/
def Dtb.propName (d : Dtb) (fuel p : ℕ) : List W8 := pathAt (d.bytes (fdtString d (d.word (d.structAt p + 8)))) fuel

/-- A property of the tree has a name that ends. -/
def Dtb.PropNamed (d : Dtb) (fuel p : ℕ) : Prop :=
  ∃ n < fuel, d.memory (fdtString d (d.word (d.structAt p + 8)) + BitVec.ofNat 32 n) = 0

/-- The node at an offset has these properties, all of them named. -/
structure NodeProps (d : Dtb) (size fuel a : ℕ) (l : List ℕ) : Prop where
  props : ∃ next, TokenAt d size a FDT_BEGIN_NODE next ∧ PropsAt d size next l
  named : ∀ p ∈ l, d.PropNamed fuel p

/-- What a search for a property returns: NULL, or the first that has the name. -/
def Dtb.foundProp (d : Dtb) : Option ℕ → W32 × W32
  | none => (0, -FDT_ERR_NOTFOUND)
  | some p => (d.structAt p, d.word (d.structAt p + 4))

def Dtb.foundValue (d : Dtb) : Option ℕ → W32 × W32
  | none => (0, -FDT_ERR_NOTFOUND)
  | some p => (d.structAt p + 12, d.word (d.structAt p + 4))

variable {d : Dtb} {size fuel o a next turns : ℕ} {l : List ℕ} {name : Buf} {s : List W8} {children : Forest ℕ}

theorem PropNamed.holds {p : ℕ} (named : d.PropNamed fuel p) :
    (d.bytes (fdtString d (d.word (d.structAt p + 8)))).Holds (d.propName fuel p) ∧
      strlen d.memory (fdtString d (d.word (d.structAt p + 8))) fuel = some (d.propName fuel p).length := by
  obtain ⟨n, within, zero⟩ := named
  obtain ⟨len, found⟩ := strlen_found fuel within zero
  obtain ⟨ends, before⟩ := strlen_some found
  have holds : (d.bytes (fdtString d (d.word (d.structAt p + 8)))).Holds
      ((d.bytes (fdtString d (d.word (d.structAt p + 8)))).text len) := by
    refine ⟨by rw [Buf.length_text], fun member => ?_, by rw [Buf.length_text]; exact ends⟩
    obtain ⟨i, bound, zero⟩ := List.mem_map.mp member
    exact before i (List.mem_range.mp bound) zero
  have same : d.propName fuel p = (d.bytes (fdtString d (d.word (d.structAt p + 8)))).text len :=
    holds.pathAt (by rw [Buf.length_text]; exact strlen_lt found)
  rw [same, Buf.length_text]
  exact ⟨holds, found⟩

/-- `_fdt_string_eq` compares names. -/
theorem PropNamed.stringEq {p : ℕ} (named : d.PropNamed fuel p) (text : name.text s.length = s) :
    _fdtStringEq fuel d (d.word (d.structAt p + 8)) name s.length = .ok (decide (d.propName fuel p = s)) := by
  obtain ⟨holds, measured⟩ := PropNamed.holds named
  have bytes := (Buf.text_eq_iff.mp text).2
  simp only [_fdtStringEq, measured, pure_ok, Except.ok.injEq, decide_eq_decide]
  constructor
  · rintro ⟨length, same⟩
    refine List.ext_getElem length fun i inner bound => ?_
    rw [← holds.byte inner, same i bound, bytes i bound]
  · intro equal
    refine ⟨by rw [equal], fun i bound => ?_⟩
    rw [bytes i bound, holds.byte (by rw [equal]; exact bound)]
    exact List.getElem_of_eq equal _

theorem PropsAt.inside (props : PropsAt d size o l) : ∀ p ∈ l, p + 12 ≤ size := by
  induction props with
  | nil _ _ => simp
  | nop _ _ ih => exact ih
  | prop token _ ih =>
    intro p member
    rcases List.mem_cons.mp member with rfl | member
    · have inside := token.inside
      obtain ⟨stop, ends, rfl⟩ := token.ends
      cases ends with
      | prop =>
        unfold tokenAfter at inside
        omega
      | mark marks => rcases marks with wrong | wrong | wrong <;> exact absurd wrong (by decide)
    · exact ih p member

/-- The loop of `fdt_get_property_namelen` finds the first property of that name. -/
theorem Block.propertyLoop (block : Block d size) (enough : size ≤ fuel) (props : PropsAt d size o l)
    (named : ∀ p ∈ l, d.PropNamed fuel p) (text : name.text s.length = s) (going : size < o + turns) :
    fdtGetPropertyLoop fuel d name s.length turns (BitVec.ofNat 32 o) =
      .ok (d.foundProp (l.find? fun p => d.propName fuel p = s)) := by
  induction props generalizing turns with
  | nil mark token =>
    have longer := token.grows
    have inside := token.inside
    obtain ⟨turns, rfl⟩ := Nat.exists_eq_succ_of_ne_zero (n := turns) (by omega)
    rw [fdtGetPropertyLoop, block.nextTag enough token, ok_bind]
    rcases mark with rfl | rfl
    · rfl
    · rfl
  | nop token _ ih =>
    have longer := token.grows
    have inside := token.inside
    obtain ⟨turns, rfl⟩ := Nat.exists_eq_succ_of_ne_zero (n := turns) (by omega)
    rw [fdtGetPropertyLoop, block.nextTag enough token, ok_bind]
    exact ih named (by omega)
  | @prop o _ l token _ ih =>
    have longer := token.grows
    have inside := token.inside
    obtain ⟨turns, rfl⟩ := Nat.exists_eq_succ_of_ne_zero (n := turns) (by omega)
    have here : d.PropNamed fuel o := named o List.mem_cons_self
    rw [fdtGetPropertyLoop, block.nextTag enough token, ok_bind]
    change (_fdtStringEq fuel d (d.word (d.structAt o + 8)) name s.length >>= fun same => _) = _
    rw [PropNamed.stringEq here text, ok_bind]
    by_cases same : d.propName fuel o = s
    · rw [List.find?_cons_of_pos (by simpa using same), decide_eq_true same]
      rfl
    · rw [List.find?_cons_of_neg (by simpa using same), decide_eq_false same]
      exact ih (fun p member => named p (List.mem_cons_of_mem _ member)) (by omega)

theorem NodeProps.property (node : NodeProps d size fuel a l) (block : Block d size) (enough : size ≤ fuel)
    (text : name.text s.length = s) : fdtGetPropertyNamelen fuel d (BitVec.ofNat 32 a) name s.length =
      .ok (d.foundProp (l.find? fun p => d.propName fuel p = s)) := by
  obtain ⟨next, token, props⟩ := node.props
  have inside := token.inside
  have longer := token.grows
  have small := block.short
  have natural : ¬ (BitVec.ofNat 32 next).toInt < 0 := by
    rw [toInt_offset (by omega)]
    omega
  rw [fdtGetPropertyNamelen, if_neg (not_not.mpr block.header), token.checked block enough, ok_bind, if_neg natural]
  exact block.propertyLoop enough props node.named text (by omega)

theorem NodeProps.present {p : ℕ} (node : NodeProps d size fuel a l) (block : Block d size) (member : p ∈ l) :
    d.structAt p ≠ 0 ∧ d.structAt p + 12 ≠ 0 := by
  obtain ⟨next, token, props⟩ := node.props
  have room := props.inside p member
  have value : d.structAt (p + 12) = d.structAt p + 12 := by
    rw [Dtb.structAt, Dtb.structAt, _fdtOffsetPtr, _fdtOffsetPtr, BitVec.ofNat_add, ← BitVec.add_assoc]
    rfl
  rw [← value]
  exact ⟨(block.offsetPtr p 0 (by change p + 0 ≤ size; omega)).2, (block.offsetPtr (p + 12) 0 room).2⟩

/-- `fdt_getprop` gives the value of the first property of that name, with its length. -/
theorem NodeProps.getprop (node : NodeProps d size fuel a l) (block : Block d size) (enough : size ≤ fuel)
    (holds : name.Holds s) (short : s.length < fuel) (long : s.length < 2^32) :
    fdtGetprop fuel d (BitVec.ofNat 32 a) name = .ok (d.foundValue (l.find? fun p => d.propName fuel p = s)) := by
  have measured := holds.strlen short long
  simp only [fdtGetprop, measured]
  rw [node.property block enough holds.text, ok_bind]
  cases found : l.find? fun p => decide (d.propName fuel p = s) with
  | none => rfl
  | some p =>
    have present := (node.present block (List.mem_of_find?_eq_some found)).1
    change Except.ok (if d.structAt p = 0 then 0 else d.structAt p + 12, _) = _
    rw [if_neg present]
    rfl

/-- The next node in the order of the tree, or that there is none. -/
def headOrNotfound (nodes : List ℕ) : W32 := nodeOrNotfound nodes.head?

theorem fdtNextNodeAnyLoop_tag {offset tag nextoffset : W32}
    (tagged : fdtNextTag fuel d offset = .ok (tag, nextoffset)) :
    fdtNextNodeAnyLoop fuel d (turns + 1) offset =
      if tag = FDT_BEGIN_NODE then .ok offset
      else if tag = FDT_END then
        .ok (if nextoffset.toInt ≥ 0 ∨ nextoffset = -FDT_ERR_TRUNCATED then -FDT_ERR_NOTFOUND else nextoffset)
      else fdtNextNodeAnyLoop fuel d turns nextoffset := by
  rw [fdtNextNodeAnyLoop, tagged]
  rfl

/-- Without a depth, the step to the next node goes through the ends of nodes. -/
theorem Block.anyForest {f : Forest ℕ} {stop : ℕ} {nodes : List ℕ} (block : Block d size) (enough : size ≤ fuel)
    (forest : ForestAt d size o f stop) (going : size < o + turns)
    (later : ∀ turns, size < stop + turns → fdtNextNodeAnyLoop fuel d turns (BitVec.ofNat 32 stop) =
      .ok (headOrNotfound nodes)) :
    fdtNextNodeAnyLoop fuel d turns (BitVec.ofNat 32 o) = .ok (headOrNotfound (f.nodes ++ nodes)) := by
  induction forest generalizing turns with
  | nil => exact later turns going
  | @skip o next stop tag f skipped token _ ih =>
    have longer := token.grows
    have inside := token.inside
    obtain ⟨turns, rfl⟩ := Nat.exists_eq_succ_of_ne_zero (n := turns) (by omega)
    rw [fdtNextNodeAnyLoop_tag (block.nextTag enough token)]
    have left : size < next + turns := by omega
    have next := ih left later
    rcases skipped with rfl | rfl
    · exact next
    · exact next
  | node token _ _ _ _ _ =>
    have longer := token.grows
    have inside := token.inside
    obtain ⟨turns, rfl⟩ := Nat.exists_eq_succ_of_ne_zero (n := turns) (by omega)
    rw [fdtNextNodeAnyLoop_tag (block.nextTag enough token)]
    rfl

theorem Block.anyStack {stack : List (Forest ℕ)} (block : Block d size) (enough : size ≤ fuel)
    (at_ : StackAt d size o stack) (going : size < o + turns) :
    fdtNextNodeAnyLoop fuel d turns (BitVec.ofNat 32 o) = .ok (headOrNotfound (stack.flatMap Forest.nodes)) := by
  induction at_ generalizing turns with
  | @last o stop next f forest ended =>
    rw [List.flatMap_cons]
    refine block.anyForest enough forest going fun turns going => ?_
    have longer := ended.grows
    have inside := ended.inside
    have short := block.short
    obtain ⟨turns, rfl⟩ := Nat.exists_eq_succ_of_ne_zero (n := turns) (by omega)
    have natural := toInt_offset (a := next) (by omega)
    rw [fdtNextNodeAnyLoop_tag (block.nextTag enough ended), if_neg (by decide), if_pos rfl, if_pos (.inl (by omega))]
    rfl
  | @nest o stop next f g rest forest ended _ ih =>
    rw [List.flatMap_cons]
    refine block.anyForest enough forest going fun turns going => ?_
    have longer := ended.grows
    have inside := ended.inside
    obtain ⟨turns, rfl⟩ := Nat.exists_eq_succ_of_ne_zero (n := turns) (by omega)
    rw [fdtNextNodeAnyLoop_tag (block.nextTag enough ended), if_neg (by decide), if_neg (by decide)]
    exact ih (by omega)

/-- The nodes still to come, from the first one on. -/
theorem StackAt.cons {stack : List (Forest ℕ)} {nodes : List ℕ} (at_ : StackAt d size o stack)
    (first : stack.flatMap Forest.nodes = a :: nodes) :
    ∃ next stack', TokenAt d size a FDT_BEGIN_NODE next ∧ StackAt d size next stack' ∧
      stack'.flatMap Forest.nodes = nodes := by
  induction at_ with
  | @last o stop next f forest ended =>
    cases f with
    | nil => cases first
    | node b children siblings =>
      obtain ⟨next, token, below⟩ := (StackAt.last forest ended).first
      obtain ⟨rfl, rfl⟩ := List.cons.inj first
      exact ⟨next, _, token, below, (List.append_assoc _ _ _).symm⟩
  | @nest o stop next f g rest forest ended outer ih =>
    cases f with
    | nil => exact ih first
    | node b children siblings =>
      obtain ⟨next, token, below⟩ := (StackAt.nest forest ended outer).first
      rw [List.flatMap_cons] at first
      obtain ⟨rfl, rfl⟩ := List.cons.inj first
      exact ⟨next, _, token, below, (List.append_assoc _ _ _).symm⟩

theorem fdtNextNodeAny_node (block : Block d size) (enough : size ≤ fuel) {stack : List (Forest ℕ)}
    (token : TokenAt d size a FDT_BEGIN_NODE next) (at_ : StackAt d size next stack) :
    fdtNextNodeAny fuel d (BitVec.ofNat 32 a) = .ok (headOrNotfound (stack.flatMap Forest.nodes)) := by
  have start := token.toInt block
  have inside := token.inside
  have longer := token.grows
  have short := block.short
  have natural : ¬ (BitVec.ofNat 32 next).toInt < 0 := by
    rw [toInt_offset (by omega)]
    omega
  rw [fdtNextNodeAny, if_pos (by omega), token.checked block enough, ok_bind, if_neg natural]
  exact block.anyStack enough at_ (by omega)

section ByPhandle

theorem linuxPhandle_holds : linuxPhandle.Holds (cString "linux,phandle").dropLast := by
  constructor
  · decide
  · decide
  · rfl

theorem wordBytes_wordAt (buf : Buf) {i : ℕ} (bound : i < 4) : wordBytes (wordAt buf 0) i = buf i := by
  apply BitVec.eq_of_getLsbD_eq
  intro j short
  interval_cases i
  all_goals
    simp only [wordBytes, wordAt, BitVec.getLsbD_setWidth, BitVec.getLsbD_ushiftRight, BitVec.getLsbD_append]
    grind

/-- Four bytes are those of a word just if they read as this word. -/
theorem text_wordBytes (buf : Buf) (w : W32) : buf.text 4 = (wordBytes w).text 4 ↔ wordAt buf 0 = w := by
  constructor
  · intro same
    have bytes : ∀ i < 4, buf i = wordBytes w i := by
      intro i bound
      have there := (Buf.text_eq_iff.mp same).2 i (by rw [Buf.length_text]; exact bound)
      rw [there, Buf.text_getElem]
    rw [← wordAt_wordBytes w, wordAt, wordAt, bytes 0 (by decide), bytes 1 (by decide), bytes 2 (by decide),
      bytes 3 (by decide)]
  · rintro rfl
    exact Buf.text_congr fun i bound => (wordBytes_wordAt buf bound).symm

/-- The node at an offset has this phandle. -/
def Dtb.hasPhandle (d : Dtb) (fuel : ℕ) (phandle : W32) (a : ℕ) : Bool :=
  (fdtGetPhandle fuel d (BitVec.ofNat 32 a)).toOption = some phandle

/-- A property has the four bytes of a phandle as its value just if `fdt_get_phandle` gives this phandle. -/
theorem hasValue_phandle {phandle val len : W32}
    (got : fdtGetprop fuel d (BitVec.ofNat 32 a) linuxPhandle = .ok (val, len)) (nonzero : phandle ≠ 0) :
    fdtHasValue fuel d (BitVec.ofNat 32 a) linuxPhandle ((wordBytes phandle).text 4) =
      .ok (d.hasPhandle fuel phandle a) := by
  have four : len.toInt = 4 ↔ len = 4 := ⟨fun same => BitVec.eq_of_toInt_eq same, fun same => by rw [same]; rfl⟩
  have word : (d.bytes val).text 4 = (wordBytes phandle).text 4 ↔ d.word val = phandle := text_wordBytes _ _
  have phandles : fdtGetPhandle fuel d (BitVec.ofNat 32 a) = .ok (if val = 0 ∨ len ≠ 4 then 0 else d.word val) := by
    rw [fdtGetPhandle, got, ok_bind]
    rfl
  rw [fdtHasValue, Dtb.hasPhandle, phandles, got, ok_bind]
  simp only [Buf.length_text, Nat.cast_ofNat, pure_ok, word, four, Except.ok.injEq, decide_eq_decide]
  change _ ↔ some _ = _
  by_cases found : val = 0 ∨ len ≠ 4
  · rw [if_pos found]
    constructor
    · rintro ⟨present, exact, _⟩
      exact absurd exact (found.resolve_left present)
    · intro zero
      exact absurd (Option.some.inj zero).symm nonzero
  · rw [if_neg found]
    rw [not_or, not_not] at found
    constructor
    · rintro ⟨_, _, same⟩
      exact congrArg some same
    · intro same
      exact ⟨found.1, found.2, Option.some.inj same⟩

/-- The properties of these nodes all have a name. -/
def PropertiesNamed (d : Dtb) (size fuel : ℕ) (nodes : List ℕ) : Prop := ∀ a ∈ nodes, ∃ l, NodeProps d size fuel a l

theorem TokenAt.named_grows (token : TokenAt d size a FDT_BEGIN_NODE next) : a + 8 ≤ next := by
  have aligned := token.aligned
  obtain ⟨stop, ends, rfl⟩ := token.ends
  cases ends with
  | name _ _ =>
    unfold tokenAfter
    omega
  | mark marks => rcases marks with wrong | wrong | wrong <;> exact absurd wrong (by decide)

/-- The search goes through the nodes still to come, in their order. -/
theorem Block.searchLoop {propname : Buf} {propval : List W8} {has : ℕ → Bool} {stack : List (Forest ℕ)}
    {nodes : List ℕ} (block : Block d size) (enough : size ≤ fuel) (at_ : StackAt d size o stack)
    (order : stack.flatMap Forest.nodes = nodes)
    (value : ∀ a ∈ nodes, fdtHasValue fuel d (BitVec.ofNat 32 a) propname propval = .ok (has a))
    (going : nodes.length < turns) :
    fdtNodeOffsetByPropValueLoop fuel d propname propval turns (headOrNotfound nodes) =
      .ok (nodeOrNotfound (nodes.find? has)) := by
  induction nodes generalizing o stack turns with
  | nil =>
    obtain ⟨turns, rfl⟩ := Nat.exists_eq_succ_of_ne_zero (Nat.ne_of_gt going)
    rfl
  | cons a nodes ih =>
    obtain ⟨turns, rfl⟩ := Nat.exists_eq_succ_of_ne_zero (Nat.ne_of_gt (Nat.zero_lt_of_lt going))
    obtain ⟨next, stack', token, later, rest⟩ := at_.cons order
    have start := token.toInt block
    have valued := value a List.mem_cons_self
    change fdtNodeOffsetByPropValueLoop fuel d propname propval (turns + 1) (BitVec.ofNat 32 a) = _
    rw [fdtNodeOffsetByPropValueLoop, if_pos (by omega), valued, ok_bind]
    by_cases here : has a = true
    · rw [if_pos here, List.find?_cons_of_pos here]
      rfl
    · rw [if_neg here, List.find?_cons_of_neg here, fdtNextNodeAny_node block enough token later, rest, ok_bind]
      exact ih later rest (fun b member => value b (List.mem_cons_of_mem _ member)) (Nat.lt_of_succ_lt_succ going)

/-- `fdt_node_offset_by_phandle` finds the first node, in the order of the tree, that has the phandle. -/
theorem FlatTree.nodeOffsetByPhandle {phandle : W32} (tree : FlatTree d size children) (enough : size ≤ fuel)
    (named : PropertiesNamed d size fuel (Forest.node 0 children .nil).nodes) (usable : phandle ≠ 0 ∧ phandle ≠ -1) :
    fdtNodeOffsetByPhandle fuel d phandle =
      .ok (nodeOrNotfound ((Forest.node 0 children .nil).nodes.find? (d.hasPhandle fuel phandle))) := by
  obtain ⟨stop, last, forest, ended⟩ := tree.tree
  have block := tree.toBlock
  have total := forest.grows
  have longer := ended.grows
  have inside := ended.inside
  have at_ := StackAt.last forest ended
  have long : 13 < fuel := by
    obtain ⟨next, close, after, token, below, closed, later⟩ := forest.first
    have first := token.named_grows
    have second := below.grows
    have third := closed.grows
    have fourth := later.grows
    omega
  have order : [Forest.node 0 children .nil].flatMap Forest.nodes = (Forest.node 0 children .nil).nodes := by simp
  have value : ∀ a ∈ (Forest.node 0 children .nil).nodes,
      fdtHasValue fuel d (BitVec.ofNat 32 a) linuxPhandle ((wordBytes phandle).text 4) =
        .ok (d.hasPhandle fuel phandle a) := by
    intro a member
    obtain ⟨l, node⟩ := named a member
    exact hasValue_phandle (node.getprop block enough linuxPhandle_holds long (by decide)) usable.1
  rw [fdtNodeOffsetByPhandle, if_neg (not_or.mpr usable), fdtNodeOffsetByPropValue, if_neg (not_not.mpr block.header),
    fdtNextNodeAny, if_neg (by decide)]
  have first : fdtNextNodeAnyLoop fuel d fuel (BitVec.ofNat 32 0) =
      .ok (headOrNotfound (Forest.node 0 children .nil).nodes) := by
    obtain ⟨next, _, _, token, _, _, _⟩ := forest.first
    obtain ⟨turns, rfl⟩ := Nat.exists_eq_add_of_le' (show 1 ≤ fuel by omega)
    rw [fdtNextNodeAnyLoop_tag (block.nextTag enough token)]
    rfl
  change fdtNextNodeAnyLoop fuel d fuel (BitVec.ofNat 32 0) >>= _ = _
  rw [first, ok_bind]
  exact block.searchLoop enough at_ order value (by omega)

/-- What `rom_itopackage` makes of the node it finds, if any. -/
def packageOf : Option ℕ → W32
  | none => -1
  | some a => romGetPhandle (BitVec.ofNat 32 a)

/-- The first node that has an ihandle for its phandle. -/
def Dtb.instanceNode (d : Dtb) (fuel : ℕ) (children : Forest ℕ) (ih : W32) : Option ℕ :=
  if ih = 0 ∨ ih = -1 then none else (Forest.node 0 children .nil).nodes.find? (d.hasPhandle fuel ih)

theorem FlatTree.romItopackage_eq (tree : FlatTree d size children) (enough : size ≤ fuel)
    (named : PropertiesNamed d size fuel (Forest.node 0 children .nil).nodes) {ih : W32} {m : Machine}
    {cia ciaIn ciaOut : W32} (read : ciaCell m cia ciaIn 0 = .ok (.none, ih)) :
    romItopackage fuel d m cia ciaIn ciaOut = ciaRet cia ciaIn ciaOut 0 >>= fun ea =>
      guestToX m ea (packageOf (d.instanceNode fuel children ih)) := by
  rw [romItopackage, read, ok_bind]
  simp only [ne_eq, not_true_eq_false, if_false]
  rw [Dtb.instanceNode]
  by_cases unusable : ih = 0 ∨ ih = -1
  · rw [fdtNodeOffsetByPhandle, if_pos unusable, if_pos unusable]
    rfl
  · rw [tree.nodeOffsetByPhandle enough named (not_or.mp unusable), if_neg unusable]
    cases found : (Forest.node 0 children .nil).nodes.find? (d.hasPhandle fuel ih) with
    | none => rfl
    | some a =>
      have small := tree.short_nodes a (List.mem_of_find?_eq_some found)
      have natural : ¬ (BitVec.ofNat 32 a).toInt < 0 := by
        rw [toInt_offset (by omega)]
        omega
      change ciaRet cia ciaIn ciaOut 0 >>=
        (fun ea => guestToX m ea (if (BitVec.ofNat 32 a).toInt < 0 then -1 else _)) = _
      rw [if_neg natural]
      rfl

/-- `instance-to-package` answers every ihandle. -/
theorem FlatTree.itopackage (tree : FlatTree d size children) (enough : size ≤ fuel)
    (named : PropertiesNamed d size fuel (Forest.node 0 children .nil).nodes) (ih : W32) :
    Answers (romItopackage fuel d) ih (packageOf (d.instanceNode fuel children ih)) := by
  intro m cia ciaIn ciaOut ea read cell writable
  rw [tree.romItopackage_eq enough named read, cell, ok_bind]
  exact writable.word _

/-- In a sorted list the first hit is the least. -/
theorem find_sorted_iff {p : ℕ → Bool} {nodes : List ℕ} (sorted : nodes.Pairwise (· < ·)) (member : a ∈ nodes)
    (hit : p a = true) : nodes.find? p = some a ↔ ∀ b ∈ nodes, p b = true → a ≤ b := by
  induction nodes with
  | nil => cases member
  | cons c nodes ih =>
    obtain ⟨least, later⟩ := List.pairwise_cons.mp sorted
    by_cases first : p c = true
    · rw [List.find?_cons_of_pos first, Option.some_inj]
      constructor
      · rintro rfl b inside _
        rcases List.mem_cons.mp inside with rfl | inside
        · exact le_rfl
        · exact (least b inside).le
      · intro below
        have low := below c List.mem_cons_self first
        rcases List.mem_cons.mp member with rfl | inside
        · rfl
        · exact absurd (least a inside) (Nat.not_lt.mpr low)
    · have inside : a ∈ nodes := by
        rcases List.mem_cons.mp member with rfl | inside
        · exact absurd hit first
        · exact inside
      rw [List.find?_cons_of_neg first, ih later inside, List.forall_mem_cons]
      exact ⟨fun all => ⟨fun taken => absurd taken first, all⟩, And.right⟩

/-- `instance-to-package` answers every ihandle, and the one of a node leads back to it just if no node before
    it has the same. -/
theorem FlatTree.instances (tree : FlatTree d size children) (enough : size ≤ fuel)
    (named : PropertiesNamed d size fuel (Forest.node 0 children .nil).nodes) (ih : W32) :
    Answers (romItopackage fuel d) ih (packageOf (d.instanceNode fuel children ih)) ∧
      ∀ a ∈ (Forest.node 0 children .nil).nodes, ih ≠ 0 ∧ ih ≠ -1 → fdtGetPhandle fuel d (BitVec.ofNat 32 a) = .ok ih →
        (d.instanceNode fuel children ih = some a ↔ ∀ b ∈ (Forest.node 0 children .nil).nodes,
          fdtGetPhandle fuel d (BitVec.ofNat 32 b) = .ok ih → a ≤ b) := by
  refine ⟨tree.itopackage enough named ih, fun a member usable own => ?_⟩
  obtain ⟨stop, last, forest, ended⟩ := tree.tree
  have has (b : ℕ) : d.hasPhandle fuel ih b = true ↔ fdtGetPhandle fuel d (BitVec.ofNat 32 b) = .ok ih := by
    rw [Dtb.hasPhandle, decide_eq_true_iff]
    cases fdtGetPhandle fuel d (BitVec.ofNat 32 b) with
    | error message => simp [Except.toOption]
    | ok phandle => simp [Except.toOption]
  rw [Dtb.instanceNode, if_neg (not_or.mpr usable), find_sorted_iff forest.sorted member ((has a).mpr own)]
  simp only [has]

/-- A tree whose root has the ihandle 7, and whose nodes `a` and `b` both have 9. -/
def instanceDtb : Dtb where
  fdt := 0x1000
  memory := fun a => wordBytes ([0xd00dfeed, 144, 40, 128, 144, 17, 16, 0, 14, 88, 1, 0, 3, 4, 0, 7, 1, 0x61000000, 3,
    4, 0, 9, 2, 1, 0x62000000, 3, 4, 0, 9, 2, 2, 9, 0x6c696e75, 0x782c7068, 0x616e646c, 0x65000000].getD
    ((a.toNat - 0x1000) / 4) 0) ((a.toNat - 0x1000) % 4)

def instanceNodes : Forest ℕ := .node 24 .nil (.node 52 .nil .nil)

theorem instanceDtb_tree : FlatTree instanceDtb 88 instanceNodes ∧
    PropertiesNamed instanceDtb 88 88 (Forest.node 0 instanceNodes .nil).nodes := by
  have rootName := @TokenEnds.name instanceDtb 0 0 (by decide) (by decide)
  have aName := @TokenEnds.name instanceDtb 24 1 (by decide) (by decide)
  have bName := @TokenEnds.name instanceDtb 52 1 (by decide) (by decide)
  have root : TokenAt instanceDtb 88 0 FDT_BEGIN_NODE 8 := ⟨by decide, by decide, ⟨_, rootName, by decide⟩, by decide⟩
  have rootProp : TokenAt instanceDtb 88 8 FDT_PROP 24 := ⟨by decide, by decide, ⟨_, .prop, by decide⟩, by decide⟩
  have a : TokenAt instanceDtb 88 24 FDT_BEGIN_NODE 32 := ⟨by decide, by decide, ⟨_, aName, by decide⟩, by decide⟩
  have aProp : TokenAt instanceDtb 88 32 FDT_PROP 48 := ⟨by decide, by decide, ⟨_, .prop, by decide⟩, by decide⟩
  have aEnd : TokenAt instanceDtb 88 48 FDT_END_NODE 52 :=
    ⟨by decide, by decide, ⟨_, .mark (.inl rfl), by decide⟩, by decide⟩
  have b : TokenAt instanceDtb 88 52 FDT_BEGIN_NODE 60 := ⟨by decide, by decide, ⟨_, bName, by decide⟩, by decide⟩
  have bProp : TokenAt instanceDtb 88 60 FDT_PROP 76 := ⟨by decide, by decide, ⟨_, .prop, by decide⟩, by decide⟩
  have bEnd : TokenAt instanceDtb 88 76 FDT_END_NODE 80 :=
    ⟨by decide, by decide, ⟨_, .mark (.inl rfl), by decide⟩, by decide⟩
  have rootEnd : TokenAt instanceDtb 88 80 FDT_END_NODE 84 :=
    ⟨by decide, by decide, ⟨_, .mark (.inl rfl), by decide⟩, by decide⟩
  have ended : TokenAt instanceDtb 88 84 FDT_END 88 :=
    ⟨by decide, by decide, ⟨_, .mark (.inr (.inr rfl)), by decide⟩, by decide⟩
  constructor
  · refine ⟨⟨by decide, fun _ => by decide, by decide, by decide, by decide⟩, 84, 88, ?_, ended⟩
    refine .node root (.skip (.inl rfl) rootProp ?_) rootEnd .nil
    exact .node a (.skip (.inl rfl) aProp .nil) aEnd (.node b (.skip (.inl rfl) bProp .nil) bEnd .nil)
  · intro o member
    have which : o = 0 ∨ o = 24 ∨ o = 52 := by simpa [instanceNodes, Forest.nodes] using member
    rcases which with rfl | rfl | rfl
    · refine ⟨[8], ⟨8, root, .prop rootProp (.nil (.inl rfl) a)⟩, fun p inner => ?_⟩
      obtain rfl := List.mem_singleton.mp inner
      exact ⟨13, by decide, by decide⟩
    · refine ⟨[32], ⟨32, a, .prop aProp (.nil (.inr rfl) aEnd)⟩, fun p inner => ?_⟩
      obtain rfl := List.mem_singleton.mp inner
      exact ⟨13, by decide, by decide⟩
    · refine ⟨[60], ⟨60, b, .prop bProp (.nil (.inr rfl) bEnd)⟩, fun p inner => ?_⟩
      obtain rfl := List.mem_singleton.mp inner
      exact ⟨13, by decide, by decide⟩

theorem instances_phandles :
    Answers (romItopackage 88 instanceDtb) 7 (packageOf (some 0)) ∧
    Answers (romItopackage 88 instanceDtb) 9 (packageOf (some 24)) := by
  obtain ⟨tree, named⟩ := instanceDtb_tree
  have own : fdtGetPhandle 88 instanceDtb 0 = .ok 7 ∧ fdtGetPhandle 88 instanceDtb 24 = .ok 9 := by decide
  obtain ⟨answers, leads⟩ := tree.instances le_rfl named 7
  obtain ⟨answers', leads'⟩ := tree.instances le_rfl named 9
  have first := (leads 0 (by decide) (by decide) own.1).mpr fun b _ _ => Nat.zero_le b
  have second := (leads' 24 (by decide) (by decide) own.2).mpr fun b member other => by
    have which : b = 0 ∨ b = 24 ∨ b = 52 := by simpa [instanceNodes, Forest.nodes] using member
    rcases which with rfl | rfl | rfl
    · cases own.1.symm.trans other
    · exact le_rfl
    · decide
  rw [first] at answers
  rw [second] at answers'
  exact ⟨answers, answers'⟩

end ByPhandle

end ToyHv

import ToyHv.Library.Fuel
import ToyHv.Tree.Search

namespace ToyHv

open Library

variable {d : Dtb} {size fuel q x next after : ℕ} {below children : Forest ℕ} {rest : List (Forest ℕ)}
  {path target : List W8} {names : List (List W8)}

/-- A node that names lead to is inside the tree, and more names lead on from there. -/
theorem Inside.resolved (token : TokenAt d size q FDT_BEGIN_NODE next)
    (inside : Inside d size after next (below :: rest))
    (leads : Forest.resolve (d.answers size) q below names = some x) :
    ∃ next' below' rest', TokenAt d size x FDT_BEGIN_NODE next' ∧ Inside d size after next' (below' :: rest') ∧
      ∀ more, Forest.resolve (d.answers size) q below (names ++ more) =
        Forest.resolve (d.answers size) x below' more := by
  induction names generalizing q next below rest with
  | nil =>
    have here : q = x := by
      cases below <;> exact Option.some.inj leads
    subst here
    exact ⟨next, below, rest, token, inside, fun more => rfl⟩
  | cons name names ih =>
    rw [Forest.resolve_cons] at leads
    cases picked : below.pick (d.answers size) name with
    | none =>
      rw [picked] at leads
      cases leads
    | some child =>
      obtain ⟨a, children⟩ := child
      rw [picked] at leads
      obtain ⟨next', rest', token', inside'⟩ := inside.picked picked
      obtain ⟨next'', below'', rest'', there, within, on⟩ := ih token' inside' leads
      refine ⟨next'', below'', rest'', there, within, fun more => ?_⟩
      rw [List.cons_append, Forest.resolve_cons, picked]
      exact on more

theorem resolve_append_none {more : List (List W8)}
    (nowhere : Forest.resolve (d.answers size) q below names = none) :
    Forest.resolve (d.answers size) q below (names ++ more) = none := by
  induction names generalizing q below with
  | nil => cases below <;> cases nowhere
  | cons name names ih =>
    rw [List.cons_append, Forest.resolve_cons]
    rw [Forest.resolve_cons] at nowhere
    cases picked : below.pick (d.answers size) name with
    | none => rfl
    | some child =>
      rw [picked] at nowhere
      exact ih nowhere

/-- An error stays what it is, whatever names follow. -/
theorem pathWalk_error (block : Block d size) (enough : 0 < fuel) {e : W32} (error : e.toInt < 0) (s : List W8) :
    fdtPathWalk fuel d e s = .ok e := by
  obtain ⟨turns, rfl⟩ := Nat.exists_eq_add_of_le' enough
  have stays (name : List W8) : fdtSubnodeOffsetNamelen (turns + 1) d e name = .ok e := by
    rw [fdtSubnodeOffsetNamelen, if_neg (not_not.mpr block.header), fdtSubnodeOffsetLoop,
      if_neg fun natural => absurd natural.1 (by omega), if_neg (by decide)]
    rfl
  rw [fdtPathWalk]
  split
  · rfl
  · simp only [stays, ok_bind, if_pos error, pure_ok]

def aliasesPath : List W8 := "/aliases".toList.map fun c => BitVec.ofNat 8 c.toNat

/-- What a name stands for under `/aliases`, if anything: a string that ends. -/
inductive AliasOf (d : Dtb) (size fuel : ℕ) (children : Forest ℕ) (name : List W8) : Option (List W8) → Prop
  | noAliases : d.resolve size children aliasesPath = none → AliasOf d size fuel children name none
  | unknown {a : ℕ} {l : List ℕ} : d.resolve size children aliasesPath = some a → NodeProps d size fuel a l →
      (l.find? fun p => d.propName fuel p = name) = none → AliasOf d size fuel children name none
  | known {a p : ℕ} {l : List ℕ} {target : List W8} : d.resolve size children aliasesPath = some a →
      NodeProps d size fuel a l → (l.find? fun p => d.propName fuel p = name) = some p →
      (d.bytes (d.structAt p + 12)).Holds target → target.length < fuel → target.length < 2^31 →
      AliasOf d size fuel children name (some target)

/-- The properties under `/aliases` are strings that end. -/
def Aliases (d : Dtb) (size fuel : ℕ) (children : Forest ℕ) : Prop :=
  ∀ a, d.resolve size children aliasesPath = some a → ∃ l, NodeProps d size fuel a l ∧
    ∀ p ∈ l, ∃ target, (d.bytes (d.structAt p + 12)).Holds target ∧ target.length < fuel ∧ target.length < 2^31

theorem Aliases.total (aliases : Aliases d size fuel children) (name : List W8) :
    ∃ stands, AliasOf d size fuel children name stands := by
  cases leads : d.resolve size children aliasesPath with
  | none => exact ⟨none, .noAliases leads⟩
  | some a =>
    obtain ⟨l, props, strings⟩ := aliases a leads
    cases found : l.find? fun p => d.propName fuel p = name with
    | none => exact ⟨none, .unknown leads props found⟩
    | some p =>
      obtain ⟨target, holds, ends, short⟩ := strings p (List.mem_of_find?_eq_some found)
      exact ⟨some target, .known leads props found holds ends short⟩

/-- The names a path stands for, from the root on. An alias in front stands for what its value stands for. -/
inductive Expands (d : Dtb) (size fuel : ℕ) (children : Forest ℕ) : List W8 → Option (List (List W8)) → Prop
  | rooted {path : List W8} : path.head? = some SLASH →
      Expands d size fuel children path (some (components SLASH path))
  | unknown {path : List W8} : path.head? ≠ some SLASH →
      AliasOf d size fuel children (path.takeWhile (· ≠ SLASH)) none → Expands d size fuel children path none
  | known {path target : List W8} {names : Option (List (List W8))} : path.head? ≠ some SLASH →
      AliasOf d size fuel children (path.takeWhile (· ≠ SLASH)) (some target) →
      Expands d size fuel children target names →
      Expands d size fuel children path (names.map (· ++ components SLASH (path.dropWhile (· ≠ SLASH))))

/-- Where names lead from the root. -/
def Dtb.resolveNames (d : Dtb) (size : ℕ) (children : Forest ℕ) : Option (List (List W8)) → W32
  | none => -FDT_ERR_BADPATH
  | some names => nodeOrNotfound (Forest.resolve (d.answers size) 0 children names)

theorem bufOf_text (s : List W8) : (bufOf s).text s.length = s :=
  Buf.text_eq_iff.mpr ⟨rfl, fun i inner => by simp [bufOf, inner]⟩

/-- `fdt_get_alias_namelen` gives the value under `/aliases`, or NULL. -/
theorem AliasOf.found {name : List W8} {stands : Option (List W8)}
    (aliased : AliasOf d size fuel children name stands) (tree : FlatTree d size children) (enough : size ≤ fuel)
    (calls : ℕ) : ∃ p, fdtGetAliasNamelen (fdtPathOffset fuel d (calls + 1)) fuel d name = .ok p ∧
      (stands = none ∧ p = 0 ∨
        p ≠ 0 ∧ ∃ target, stands = some target ∧ stringAt fuel d p = .ok target ∧ 0 ∉ target ∧
          target.length < 2^31) := by
  have block := tree.toBlock
  have looked : fdtPathOffset fuel d (calls + 1) aliasesPath =
      .ok (nodeOrNotfound (d.resolve size children aliasesPath)) :=
    tree.pathOffset enough (by decide) (by decide) (by decide)
  have natural {a : ℕ} (leads : d.resolve size children aliasesPath = some a) : ¬ (BitVec.ofNat 32 a).toInt < 0 := by
    rw [toInt_offset (tree.resolve_short leads)]
    omega
  cases aliased with
  | noAliases nowhere =>
    refine ⟨0, ?_, .inl ⟨rfl, rfl⟩⟩
    change fdtPathOffset fuel d (calls + 1) aliasesPath >>= _ = _
    rw [looked, nowhere]
    rfl
  | unknown leads props missing =>
    refine ⟨0, ?_, .inl ⟨rfl, rfl⟩⟩
    change fdtPathOffset fuel d (calls + 1) aliasesPath >>= _ = _
    rw [looked, leads, ok_bind, nodeOrNotfound, if_neg (natural leads), props.property block enough (bufOf_text name),
      missing]
    rfl
  | @known a p l target leads props found holds ends short =>
    obtain ⟨present, value⟩ := props.present block (List.mem_of_find?_eq_some found)
    refine ⟨d.structAt p + 12, ?_, .inr ⟨value, target, rfl, ?_, holds.nonzero, short⟩⟩
    · change fdtPathOffset fuel d (calls + 1) aliasesPath >>= _ = _
      rw [looked, leads, ok_bind, nodeOrNotfound, if_neg (natural leads), props.property block enough (bufOf_text name),
        found, ok_bind]
      change Except.ok (if d.structAt p = 0 then 0 else d.structAt p + 12) = _
      rw [if_neg present]
    · have measured : strlen d.memory (d.structAt p + 12) fuel = some target.length := strlen_holds holds ends
      simp only [stringAt, measured, holds.text, pure_ok]

theorem AliasOf.unique {name : List W8} {stands other : Option (List W8)}
    (aliased : AliasOf d size fuel children name stands) (again : AliasOf d size fuel children name other)
    (tree : FlatTree d size children) (enough : size ≤ fuel) : stands = other := by
  obtain ⟨p, got, result⟩ := aliased.found tree enough 0
  obtain ⟨q, twice, second⟩ := again.found tree enough 0
  obtain rfl := Except.ok.inj (got.symm.trans twice)
  rcases result with ⟨rfl, zero⟩ | ⟨present, target, rfl, string, _⟩
  · rcases second with ⟨rfl, _⟩ | ⟨present, _⟩
    · rfl
    · exact absurd zero present
  · rcases second with ⟨_, zero⟩ | ⟨_, target', rfl, string', _⟩
    · exact absurd zero present
    · rw [Except.ok.inj (string.symm.trans string')]

/-- What is left of a path behind its alias is walked from where the alias leads. -/
theorem FlatTree.pathWalk_alias (tree : FlatTree d size children) (enough : size ≤ fuel) (nonzero : 0 ∉ path)
    (long : path.length < 2^31) (names : Option (List (List W8))) :
    fdtPathWalk fuel d (d.resolveNames size children names) (path.dropWhile (· ≠ SLASH)) =
      .ok (d.resolveNames size children (names.map (· ++ components SLASH (path.dropWhile (· ≠ SLASH))))) := by
  have block := tree.toBlock
  obtain ⟨after, next, _, _, token, inside, _, _⟩ := tree.rootEnds
  have longer := token.grows
  have room := token.inside
  cases names with
  | none => exact pathWalk_error block (by omega) (e := -FDT_ERR_BADPATH) (by decide) _
  | some names =>
    change fdtPathWalk fuel d (nodeOrNotfound (Forest.resolve (d.answers size) 0 children names)) _ =
      .ok (nodeOrNotfound (Forest.resolve (d.answers size) 0 children (names ++ _)))
    cases leads : Forest.resolve (d.answers size) 0 children names with
    | none =>
      rw [resolve_append_none leads]
      exact pathWalk_error block (by omega) (e := -FDT_ERR_NOTFOUND) (by decide) _
    | some x =>
      obtain ⟨next', below', rest', there, within, on⟩ := inside.resolved token leads
      have left := (List.dropWhile_suffix (l := path) (· ≠ SLASH)).length_le
      rw [on]
      exact block.pathWalk enough there within (fun zero => nonzero (List.dropWhile_suffix _ |>.subset zero))
        (by omega)

/-- A call for a path with an alias in front: it looks the alias up and calls itself for the value. -/
theorem AliasOf.call {stands : Option (List W8)} (tree : FlatTree d size children) (enough : size ≤ fuel)
    (relative : path.head? ≠ some SLASH)
    (aliased : AliasOf d size fuel children (path.takeWhile (· ≠ SLASH)) stands) (calls : ℕ) :
    stands = none ∧ fdtPathOffset fuel d (calls + 2) path = .ok (-FDT_ERR_BADPATH) ∨
      ∃ target, stands = some target ∧ 0 ∉ target ∧ target.length < 2^31 ∧ fdtPathOffset fuel d (calls + 2) path =
        fdtPathOffset fuel d (calls + 1) target >>= fun offset =>
          fdtPathWalk fuel d offset (path.dropWhile (· ≠ SLASH)) := by
  obtain ⟨p, got, result⟩ := aliased.found tree enough calls
  rw [fdtPathOffset, if_neg (not_not.mpr tree.toBlock.header), if_neg relative, got, ok_bind]
  rcases result with ⟨rfl, rfl⟩ | ⟨present, target, rfl, string, printable, short⟩
  · exact .inl ⟨rfl, rfl⟩
  · refine .inr ⟨target, rfl, printable, short, ?_⟩
    rw [if_neg present, string, ok_bind]

theorem Expands.settles {names : Option (List (List W8))} (tree : FlatTree d size children) (enough : size ≤ fuel)
    (expands : Expands d size fuel children path names) (nonzero : 0 ∉ path) (long : path.length < 2^31) :
    Settles (fun calls => fdtPathOffset fuel d calls path) (.ok (d.resolveNames size children names)) := by
  induction expands with
  | rooted first =>
    refine ⟨1, fun calls more => ?_⟩
    obtain ⟨calls, rfl⟩ := Nat.exists_eq_add_of_le' more
    exact tree.pathOffset enough first nonzero long
  | unknown relative aliased =>
    refine ⟨2, fun calls more => ?_⟩
    obtain ⟨calls, rfl⟩ := Nat.exists_eq_add_of_le' more
    rcases aliased.call tree enough relative calls with ⟨_, called⟩ | ⟨_, known, _⟩
    · exact called
    · cases known
  | known relative aliased _ ih =>
    rcases aliased.call tree enough relative 0 with ⟨unknown, _⟩ | ⟨target, same, printable, short, _⟩
    · cases unknown
    obtain rfl := Option.some.inj same
    obtain ⟨turns, settled⟩ := ih printable short
    refine ⟨turns + 2, fun calls more => ?_⟩
    obtain ⟨extra, rfl⟩ := Nat.exists_eq_add_of_le' more
    rcases aliased.call tree enough relative (extra + turns) with ⟨unknown, _⟩ | ⟨target, same, _, _, called⟩
    · cases unknown
    obtain rfl := Option.some.inj same
    have inner : fdtPathOffset fuel d (extra + turns + 1) _ = _ := settled (extra + turns + 1) (by omega)
    change fdtPathOffset fuel d (extra + turns + 2) _ = _
    rw [called, inner, ok_bind]
    exact tree.pathWalk_alias enough nonzero long _

/-- Aliases that stand for one another are followed without end. -/
theorem Aliases.stuck (aliases : Aliases d size fuel children) (tree : FlatTree d size children) (enough : size ≤ fuel)
    (endless : ∀ names, ¬ Expands d size fuel children path names) (calls : ℕ) :
    fdtPathOffset fuel d calls path = .error .stillRunning := by
  induction calls generalizing path with
  | zero => rfl
  | succ calls ih =>
    have relative : path.head? ≠ some SLASH := fun first => endless _ (.rooted first)
    obtain ⟨stands, aliased⟩ := aliases.total (path.takeWhile (· ≠ SLASH))
    cases calls with
    | zero =>
      rw [fdtPathOffset, if_neg (not_not.mpr tree.toBlock.header), if_neg relative]
      rfl
    | succ calls =>
      rcases aliased.call tree enough relative calls with ⟨rfl, _⟩ | ⟨target, rfl, _, _, called⟩
      · exact absurd (.unknown relative aliased) (endless none)
      · have inner : fdtPathOffset fuel d (calls + 1) target = .error .stillRunning :=
          ih fun names expands => endless _ (.known relative aliased expands)
        rw [called, inner]
        rfl

/-- An alias that stands for itself stands for no names. -/
theorem AliasOf.cyclic (tree : FlatTree d size children) (enough : size ≤ fuel) (relative : path.head? ≠ some SLASH)
    (aliased : AliasOf d size fuel children (path.takeWhile (· ≠ SLASH)) (some path)) :
    ∀ names, ¬ Expands d size fuel children path names := by
  intro names expands
  induction expands with
  | rooted first => exact relative first
  | unknown _ none => cases aliased.unique none tree enough
  | known _ some _ ih =>
    obtain rfl := Option.some.inj (aliased.unique some tree enough)
    exact ih relative aliased

/-- `fdt_path_offset` of any path: the alias in front, and the one its value may start with, and so on, stand for
    names from the root on, and these are resolved; or the recursion does not end. -/
theorem FlatTree.pathOffset_relative (tree : FlatTree d size children) (enough : size ≤ fuel)
    (aliases : Aliases d size fuel children) (path : List W8) (nonzero : 0 ∉ path) (long : path.length < 2^31) :
    (∃ names, Expands d size fuel children path names ∧
      Settles (fun calls => fdtPathOffset fuel d calls path) (.ok (d.resolveNames size children names))) ∨
    (∀ names, ¬ Expands d size fuel children path names) ∧
      ∀ calls, fdtPathOffset fuel d calls path = .error .stillRunning := by
  by_cases expands : ∃ names, Expands d size fuel children path names
  · obtain ⟨names, expands⟩ := expands
    exact .inl ⟨names, expands, expands.settles tree enough nonzero long⟩
  · have endless := not_exists.mp expands
    exact .inr ⟨endless, aliases.stuck tree enough endless⟩

/-- A tree with an alias `m` for its root, `n` for `m`, and `c` for itself. -/
def aliasDtb : Dtb where
  fdt := 0x1000
  memory := fun a => wordBytes ([0xd00dfeed, 128, 40, 120, 128, 17, 16, 0, 6, 80, 1, 0, 1, 0x616c6961, 0x73657300, 3, 2,
    0, 0x2f000000, 3, 2, 2, 0x6d000000, 3, 2, 4, 0x63000000, 2, 2, 9, 0x6d006e00, 0x63000000].getD
    ((a.toNat - 0x1000) / 4) 0) ((a.toNat - 0x1000) % 4)

theorem aliasDtb_tree : FlatTree aliasDtb 80 (.node 8 .nil .nil) ∧ NodeProps aliasDtb 80 80 8 [20, 36, 52] := by
  have rootName := @TokenEnds.name aliasDtb 0 0 (by decide) (by decide)
  have leafName := @TokenEnds.name aliasDtb 8 7 (by decide) (by decide)
  have root : TokenAt aliasDtb 80 0 FDT_BEGIN_NODE 8 := ⟨by decide, by decide, ⟨_, rootName, by decide⟩, by decide⟩
  have leaf : TokenAt aliasDtb 80 8 FDT_BEGIN_NODE 20 := ⟨by decide, by decide, ⟨_, leafName, by decide⟩, by decide⟩
  have first : TokenAt aliasDtb 80 20 FDT_PROP 36 := ⟨by decide, by decide, ⟨_, .prop, by decide⟩, by decide⟩
  have second : TokenAt aliasDtb 80 36 FDT_PROP 52 := ⟨by decide, by decide, ⟨_, .prop, by decide⟩, by decide⟩
  have third : TokenAt aliasDtb 80 52 FDT_PROP 68 := ⟨by decide, by decide, ⟨_, .prop, by decide⟩, by decide⟩
  have leafEnd : TokenAt aliasDtb 80 68 FDT_END_NODE 72 :=
    ⟨by decide, by decide, ⟨_, .mark (.inl rfl), by decide⟩, by decide⟩
  have rootEnd : TokenAt aliasDtb 80 72 FDT_END_NODE 76 :=
    ⟨by decide, by decide, ⟨_, .mark (.inl rfl), by decide⟩, by decide⟩
  have ended : TokenAt aliasDtb 80 76 FDT_END 80 :=
    ⟨by decide, by decide, ⟨_, .mark (.inr (.inr rfl)), by decide⟩, by decide⟩
  constructor
  · refine ⟨⟨by decide, fun _ => by decide, by decide, by decide, by decide⟩, 76, 80, ?_, ended⟩
    refine .node root (.node leaf ?_ leafEnd .nil) rootEnd .nil
    exact .skip (.inl rfl) first (.skip (.inl rfl) second (.skip (.inl rfl) third .nil))
  · refine ⟨⟨20, leaf, .prop first (.prop second (.prop third (.nil (.inr rfl) leafEnd)))⟩, fun p member => ?_⟩
    have which : p = 20 ∨ p = 36 ∨ p = 52 := by simpa using member
    rcases which with rfl | rfl | rfl
    all_goals exact ⟨1, by decide, by decide⟩

theorem aliasDtb_values : (aliasDtb.bytes (aliasDtb.structAt 20 + 12)).Holds [SLASH] ∧
    (aliasDtb.bytes (aliasDtb.structAt 36 + 12)).Holds [0x6d] ∧
    (aliasDtb.bytes (aliasDtb.structAt 52 + 12)).Holds [0x63] :=
  ⟨⟨by decide, by decide, by decide⟩, ⟨by decide, by decide, by decide⟩, ⟨by decide, by decide, by decide⟩⟩

theorem aliasDtb_aliases : Aliases aliasDtb 80 80 (.node 8 .nil .nil) := by
  intro a leads
  have node : aliasDtb.resolve 80 (.node 8 .nil .nil) aliasesPath = some 8 := by decide
  obtain rfl := Option.some.inj (leads.symm.trans node)
  obtain ⟨slash, m, c⟩ := aliasDtb_values
  refine ⟨[20, 36, 52], aliasDtb_tree.2, fun p member => ?_⟩
  have which : p = 20 ∨ p = 36 ∨ p = 52 := by simpa using member
  rcases which with rfl | rfl | rfl
  · exact ⟨[SLASH], slash, by decide, by decide⟩
  · exact ⟨[0x6d], m, by decide, by decide⟩
  · exact ⟨[0x63], c, by decide, by decide⟩

theorem pathOffset_relative_alias :
    Settles (fun calls => fdtPathOffset 80 aliasDtb calls ((bufOf (cString "n/aliases")).text 9)) (.ok 8) ∧
      ∀ calls, fdtPathOffset 80 aliasDtb calls [0x63] = .error .stillRunning := by
  obtain ⟨tree, props⟩ := aliasDtb_tree
  obtain ⟨slash, m, c⟩ := aliasDtb_values
  have enough : 80 ≤ 80 := le_rfl
  have root : Expands aliasDtb 80 80 (.node 8 .nil .nil) [0x6d] (some []) :=
    .known (by decide) (.known (by decide) props (by decide) slash (by decide) (by decide)) (.rooted (by decide))
  have leaf : Expands aliasDtb 80 80 (.node 8 .nil .nil) ((bufOf (cString "n/aliases")).text 9) _ :=
    .known (by decide) (.known (by decide) props (by decide) m (by decide) (by decide)) root
  have loop : ∀ names, ¬ Expands aliasDtb 80 80 (.node 8 .nil .nil) [0x63] names :=
    AliasOf.cyclic tree enough (by decide)
      (.known (by decide) props (by decide) c (by decide) (by decide))
  constructor
  · rcases tree.pathOffset_relative enough aliasDtb_aliases ((bufOf (cString "n/aliases")).text 9) (by decide)
      (by decide) with ⟨names, _, settled⟩ | ⟨endless, _⟩
    · have same := settled.unique (leaf.settles tree enough (by decide) (by decide))
      rw [same] at settled
      exact settled
    · exact absurd leaf (endless _)
  · rcases tree.pathOffset_relative enough aliasDtb_aliases [0x63] (by decide) (by decide) with
      ⟨names, expands, _⟩ | ⟨_, stuck⟩
    · exact absurd expands (loop names)
    · exact stuck

end ToyHv

import ToyHv.Model.Fdt
import ToyHv.Library.Forest

namespace ToyHv

open Library

def Dtb.structAt (d : Dtb) (o : ℕ) : W32 := _fdtOffsetPtr d (BitVec.ofNat 32 o)

/-- Where the token after one that ends at `o` starts. -/
def tokenAfter (o : ℕ) : ℕ := (o + 3) / 4 * 4

/-- The end of a token at `o`, by its tag: a name with its terminator, a property with its value. -/
inductive TokenEnds (d : Dtb) (o : ℕ) : W32 → ℕ → Prop
  | name {length : ℕ} : (∀ i < length, d.memory (d.structAt (o + 4 + i)) ≠ 0) →
      d.memory (d.structAt (o + 4 + length)) = 0 → TokenEnds d o FDT_BEGIN_NODE (o + 4 + length + 1)
  | prop : TokenEnds d o FDT_PROP (o + 12 + (d.word (d.structAt (o + 4))).toNat)
  | mark {tag : W32} : tag = FDT_END_NODE ∨ tag = FDT_NOP ∨ tag = FDT_END → TokenEnds d o tag (o + 4)

/-- A token inside a structure block of `size` bytes, and where the next one starts. -/
structure TokenAt (d : Dtb) (size o : ℕ) (tag : W32) (next : ℕ) : Prop where
  aligned : o % 4 = 0
  tagged : d.word (d.structAt o) = tag
  ends : ∃ stop, TokenEnds d o tag stop ∧ next = tokenAfter stop
  inside : next ≤ size

/-- The nodes from `o` to `stop`, by their offsets. Properties and NOPs may stand between them. -/
inductive ForestAt (d : Dtb) (size : ℕ) : ℕ → Forest ℕ → ℕ → Prop
  | nil {o : ℕ} : ForestAt d size o .nil o
  | skip {o next stop : ℕ} {tag : W32} {f : Forest ℕ} : tag = FDT_PROP ∨ tag = FDT_NOP →
      TokenAt d size o tag next → ForestAt d size next f stop → ForestAt d size o f stop
  | node {o next close after stop : ℕ} {children siblings : Forest ℕ} : TokenAt d size o FDT_BEGIN_NODE next →
      ForestAt d size next children close → TokenAt d size close FDT_END_NODE after →
      ForestAt d size after siblings stop → ForestAt d size o (.node o children siblings) stop

/-- A structure block of `size` bytes, in memory that the host can point at. -/
structure Block (d : Dtb) (size : ℕ) : Prop where
  header : fdtCheckHeader d = 0
  counted : fdtVersion d ≥ 0x11 → (fdtSizeDtStruct d).toNat = size
  short : size < 2^28
  allocated : 0 < (d.structAt 0).toNat
  below_top : (d.structAt 0).toNat + size < 2^32

/-- A well-formed flattened tree: one root, with these nodes below it, and the end tag. The root is at offset 0,
    with no NOP in front of it. -/
structure FlatTree (d : Dtb) (size : ℕ) (children : Forest ℕ) : Prop extends Block d size where
  tree : ∃ stop last, ForestAt d size 0 (.node 0 children .nil) stop ∧ TokenAt d size stop FDT_END last

variable {d : Dtb} {size o next stop : ℕ} {tag : W32} {f : Forest ℕ}

theorem TokenEnds.grows (ends : TokenEnds d o tag stop) : o + 4 ≤ stop := by
  cases ends with
  | name _ _ => omega
  | prop => omega
  | mark _ => exact le_rfl

theorem TokenAt.grows (token : TokenAt d size o tag next) : o + 4 ≤ next := by
  obtain ⟨stop, ends, rfl⟩ := token.ends
  have longer := ends.grows
  have aligned := token.aligned
  unfold tokenAfter
  omega

theorem ForestAt.grows (at_ : ForestAt d size o f stop) : o + f.nodes.length ≤ stop := by
  induction at_ with
  | nil => exact le_rfl
  | skip _ token _ ih =>
    have longer := token.grows
    omega
  | node token _ close _ below after =>
    have longer := token.grows
    have further := close.grows
    simp only [Forest.nodes, List.length_cons, List.length_append]
    omega

theorem ForestAt.between (at_ : ForestAt d size o f stop) : ∀ y ∈ f.nodes, o ≤ y ∧ y < stop ∧ y < size := by
  induction at_ with
  | nil =>
    intro y member
    cases member
  | skip _ token _ ih =>
    intro y member
    have longer := token.grows
    have bounds := ih y member
    omega
  | @node o next close after stop children siblings token inside closed later below beside =>
    intro y member
    have longer := token.grows
    have further := closed.grows
    have block := token.inside
    have inner := inside.grows
    have outer := later.grows
    rcases List.mem_cons.mp member with rfl | member
    · omega
    · rcases List.mem_append.mp member with member | member
      · have bounds := below y member
        omega
      · have bounds := beside y member
        omega

theorem ForestAt.sorted (at_ : ForestAt d size o f stop) : f.nodes.Pairwise (· < ·) := by
  induction at_ with
  | nil => exact .nil
  | skip _ _ _ ih => exact ih
  | @node o next close after stop children siblings token inside closed later below beside =>
    have longer := token.grows
    have further := closed.grows
    have inner := inside.grows
    refine List.pairwise_cons.mpr ⟨?_, List.pairwise_append.mpr ⟨below, beside, ?_⟩⟩
    · intro y member
      rcases List.mem_append.mp member with member | member
      · have bounds := inside.between y member
        omega
      · have bounds := later.between y member
        omega
    · intro y first z second
      have lower := inside.between y first
      have upper := later.between z second
      omega

theorem ofNat_sub {a b : ℕ} (le : a ≤ b) : BitVec.ofNat 32 b - BitVec.ofNat 32 a = BitVec.ofNat 32 (b - a) := by
  obtain ⟨c, rfl⟩ := Nat.exists_eq_add_of_le le
  rw [BitVec.ofNat_add, Nat.add_sub_cancel_left, BitVec.add_comm, BitVec.add_sub_cancel]

theorem toInt_offset {a : ℕ} (short : a < 2^31) : (BitVec.ofNat 32 a).toInt = a := by
  have exact : (BitVec.ofNat 32 a).toNat = a := by
    rw [BitVec.toNat_ofNat]
    omega
  rw [BitVec.toInt_eq_toNat_of_lt (by omega), exact]

theorem offset_ne_max {a : ℕ} (short : a < 2^28) : ¬ BitVec.ofNat 32 a = 0x7fffffff := by
  intro last
  have value := congrArg BitVec.toNat last
  rw [BitVec.toNat_ofNat] at value
  have top : (0x7fffffff : W32).toNat = 2147483647 := rfl
  omega

theorem Block.toNat_structAt (block : Block d size) (le : o ≤ size) :
    (d.structAt o).toNat = (d.structAt 0).toNat + o := by
  have top := block.below_top
  have split : d.structAt o = d.structAt 0 + BitVec.ofNat 32 o := by simp [Dtb.structAt, _fdtOffsetPtr]
  rw [split, BitVec.toNat_add, BitVec.toNat_ofNat]
  omega

theorem Block.offsetPtr (block : Block d size) (o : ℕ) (len : W32) (le : o + len.toNat ≤ size) :
    fdtOffsetPtr d (BitVec.ofNat 32 o) len = d.structAt o ∧ d.structAt o ≠ 0 := by
  have short := block.short
  have top := block.below_top
  have allocated := block.allocated
  have pointer := block.toNat_structAt (o := o) (by omega)
  have fits : ¬ (fdtVersion d ≥ 0x11 ∧ (BitVec.ofNat 32 o + len < BitVec.ofNat 32 o ∨
      BitVec.ofNat 32 o + len > fdtSizeDtStruct d)) := by
    rintro ⟨version, outside⟩
    have counted := block.counted version
    rw [gt_iff_lt, BitVec.lt_def, BitVec.lt_def, BitVec.toNat_add, BitVec.toNat_ofNat] at outside
    omega
  have straight : ¬ _fdtOffsetPtr d (BitVec.ofNat 32 o) + len < _fdtOffsetPtr d (BitVec.ofNat 32 o) := by
    change ¬ d.structAt o + len < d.structAt o
    rw [BitVec.lt_def, BitVec.toNat_add]
    omega
  constructor
  · rw [fdtOffsetPtr, if_neg fits]
    exact if_neg straight
  · intro null
    rw [null] at pointer
    have zero : (0 : W32).toNat = 0 := rfl
    omega

theorem Block.skipName {length fuel : ℕ} (block : Block d size) (inside : o + length < size) (enough : length < fuel)
    (name : ∀ i < length, d.memory (d.structAt (o + i)) ≠ 0) (terminated : d.memory (d.structAt (o + length)) = 0) :
    fdtSkipName d fuel (BitVec.ofNat 32 o) =
      .ok (d.structAt (o + length), BitVec.ofNat 32 (o + length + 1)) := by
  have short := block.short
  induction length generalizing o fuel with
  | zero =>
    obtain ⟨fuel, rfl⟩ := Nat.exists_eq_succ_of_ne_zero (Nat.ne_of_gt enough)
    obtain ⟨pointer, _⟩ := block.offsetPtr o 1 (by change o + 1 ≤ size; omega)
    rw [fdtSkipName, bugOn_false (offset_ne_max (by omega)), ok_bind, pointer, if_neg (fun more => more.2 terminated),
      BitVec.ofNat_add]
    rfl
  | succ length ih =>
    obtain ⟨fuel, rfl⟩ := Nat.exists_eq_succ_of_ne_zero (Nat.ne_of_gt (Nat.zero_lt_of_lt enough))
    obtain ⟨pointer, nonnull⟩ := block.offsetPtr o 1 (by change o + 1 ≤ size; omega)
    have following : BitVec.ofNat 32 o + 1 = BitVec.ofNat 32 (o + 1) := (BitVec.ofNat_add o 1).symm
    have shift (i : ℕ) : o + 1 + i = o + (i + 1) := by omega
    have rest : fdtSkipName d fuel (BitVec.ofNat 32 (o + 1)) = _ := ih (by omega) (by omega)
      (fun i lt => shift i ▸ name (i + 1) (by omega)) (shift length ▸ terminated)
    rw [fdtSkipName, bugOn_false (offset_ne_max (by omega)), ok_bind, pointer, if_pos ⟨nonnull, name 0 (by omega)⟩,
      following, rest, shift]

theorem toNat_tagalign (x : W32) (exact : x.toNat + 3 < 2^32) : (fdtTagalign x).toNat = tokenAfter x.toNat := by
  have sum : (x + 3).toNat = x.toNat + 3 := by
    rw [BitVec.toNat_add]
    exact Nat.mod_eq_of_lt exact
  have rounded := toNat_and_not_low (x + 3) (k := 2) (by decide)
  have same : fdtTagalign x = (x + 3) &&& ~~~BitVec.ofNat 32 (2^2 - 1) := by
    have three : x + FDT_TAGSIZE - 1 = x + 3 := by
      rw [BitVec.sub_eq_add_neg, BitVec.add_assoc]
      rfl
    rw [fdtTagalign, three]
    rfl
  rw [same, rounded, sum, tokenAfter]
  omega

theorem Block.behindTag {fuel : ℕ} (block : Block d size) (enough : size ≤ fuel) (ends : TokenEnds d o tag stop)
    (inside : stop ≤ size) :
    fdtBehindTag fuel d tag (BitVec.ofNat 32 o + FDT_TAGSIZE) = .ok (some (BitVec.ofNat 32 stop)) := by
  have start : BitVec.ofNat 32 o + FDT_TAGSIZE = BitVec.ofNat 32 (o + 4) := (BitVec.ofNat_add o 4).symm
  rw [start]
  cases ends with
  | @name length named terminated =>
    have skipped : fdtSkipName d fuel (BitVec.ofNat 32 (o + 4)) = _ :=
      block.skipName (by omega) (by omega) named terminated
    obtain ⟨_, present⟩ := block.offsetPtr (o + 4 + length) 1 (by change o + 4 + length + 1 ≤ size; omega)
    simp only [fdtBehindTag, if_true, skipped, ok_bind, if_neg present, pure_ok]
  | prop =>
    obtain ⟨lenp, present⟩ := block.offsetPtr (o + 4) 4 (by change o + 4 + 4 ≤ size; omega)
    have other : ¬ FDT_PROP = FDT_BEGIN_NODE := by decide
    have sum : BitVec.ofNat 32 (o + 4) + (12 - FDT_TAGSIZE + d.word (d.structAt (o + 4))) =
        BitVec.ofNat 32 (o + 12 + (d.word (d.structAt (o + 4))).toNat) := by
      have eight : (12 : W32) - FDT_TAGSIZE = BitVec.ofNat 32 8 := rfl
      rw [eight, ← BitVec.add_assoc, ← BitVec.ofNat_add, BitVec.ofNat_add (o + 12), BitVec.ofNat_toNat,
        BitVec.setWidth_eq]
    simp only [fdtBehindTag, if_neg other, if_true, lenp, if_neg present, sum, pure_ok]
  | mark marks =>
    rcases marks with rfl | rfl | rfl
    · rfl
    · rfl
    · rfl

theorem Block.nextTag {fuel : ℕ} (block : Block d size) (enough : size ≤ fuel) (token : TokenAt d size o tag next) :
    fdtNextTag fuel d (BitVec.ofNat 32 o) = .ok (tag, BitVec.ofNat 32 next) := by
  have short := block.short
  have inside := token.inside
  have longer := token.grows
  obtain ⟨stop, ends, rfl⟩ := token.ends
  have further := ends.grows
  have within : stop ≤ tokenAfter stop := by
    unfold tokenAfter
    omega
  obtain ⟨tagp, nonnull⟩ := block.offsetPtr o FDT_TAGSIZE (by change o + 4 ≤ size; omega)
  obtain ⟨whole, present⟩ := block.offsetPtr o (BitVec.ofNat 32 (stop - o)) (by rw [BitVec.toNat_ofNat]; omega)
  have aligned : fdtTagalign (BitVec.ofNat 32 stop) = BitVec.ofNat 32 (tokenAfter stop) := by
    apply BitVec.eq_of_toNat_eq
    have exact : (BitVec.ofNat 32 stop).toNat = stop := by
      rw [BitVec.toNat_ofNat]
      omega
    rw [toNat_tagalign _ (by omega), exact, BitVec.toNat_ofNat]
    omega
  have behind := block.behindTag enough ends (within.trans inside)
  simp only [fdtNextTag, tagp, if_neg nonnull, token.tagged, behind, ok_bind, ofNat_sub (by omega : o ≤ stop), whole,
    aligned, pure_ok]

end ToyHv

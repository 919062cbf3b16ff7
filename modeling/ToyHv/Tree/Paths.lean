import ToyHv.Memory.Terminators
import ToyHv.Model.Path
import ToyHv.Tree.Walk

namespace ToyHv

open Library

/-- A buffer starts with this string and its terminator. -/
structure Buf.Holds (buf : Buf) (s : List W8) : Prop where
  text : buf.text s.length = s
  nonzero : 0 ∉ s
  ends : buf s.length = 0

@[simp] theorem Buf.length_text (buf : Buf) (n : ℕ) : (buf.text n).length = n := by
  rw [Buf.text, List.length_map, List.length_range]

theorem Buf.text_getElem (buf : Buf) {n i : ℕ} (bound : i < (buf.text n).length) : (buf.text n)[i] = buf i := by
  simp [Buf.text]

theorem Buf.text_eq_iff {buf : Buf} {s : List W8} {n : ℕ} :
    buf.text n = s ↔ s.length = n ∧ ∀ i (bound : i < s.length), buf i = s[i] := by
  constructor
  · rintro rfl
    exact ⟨buf.length_text n, fun i bound => (buf.text_getElem bound).symm⟩
  · rintro ⟨rfl, same⟩
    exact List.ext_getElem (buf.length_text _) fun i _ bound => (buf.text_getElem _).trans (same i bound)

theorem Buf.text_congr {buf other : Buf} {n : ℕ} (same : ∀ i < n, buf i = other i) : buf.text n = other.text n := by
  exact List.map_congr_left fun i member => same i (List.mem_range.mp member)

theorem Buf.text_add (buf : Buf) (n k : ℕ) : buf.text (n + k) = buf.text n ++ Buf.text (fun i => buf (n + i)) k := by
  simp [Buf.text, List.range_add]

theorem Buf.text_dropLast (buf : Buf) (n : ℕ) : (buf.text n).dropLast = buf.text (n - 1) := by
  cases n with
  | zero => rfl
  | succ n =>
    rw [Buf.text_add, Nat.add_sub_cancel]
    exact List.dropLast_concat

theorem Buf.text_put (buf src : Buf) (p n : ℕ) : (buf.put p n src).text (p + n) = buf.text p ++ src.text n := by
  rw [Buf.text_add]
  congr 1
  · exact Buf.text_congr fun i bound => if_neg (by omega)
  · apply Buf.text_congr
    intro i bound
    rw [Buf.put, if_pos (by omega), Nat.add_sub_cancel_left]

theorem Buf.Holds.byte {buf : Buf} {s : List W8} (holds : buf.Holds s) {i : ℕ} (bound : i < s.length) :
    buf i = s[i] := (Buf.text_eq_iff.mp holds.text).2 i bound

theorem Buf.Holds.before {buf : Buf} {s : List W8} (holds : buf.Holds s) {i : ℕ} (bound : i < s.length) :
    buf i ≠ 0 := by
  intro nul
  rw [holds.byte bound] at nul
  exact holds.nonzero (nul ▸ List.getElem_mem bound)

theorem Buf.Holds.congr {buf other : Buf} {s : List W8} (holds : buf.Holds s) (same : ∀ i ≤ s.length, buf i = other i) :
    other.Holds s :=
  ⟨(Buf.text_congr fun i bound => (same i bound.le).symm).trans holds.text, holds.nonzero,
    (same _ le_rfl).symm.trans holds.ends⟩

theorem Buf.Holds.length_unique {buf : Buf} {s : List W8} (holds : buf.Holds s) {n : ℕ} (ends : buf n = 0)
    (before : ∀ i < n, buf i ≠ 0) : n = s.length := by
  rcases Nat.lt_trichotomy n s.length with short | same | long
  · exact absurd ends (holds.before short)
  · exact same
  · exact absurd holds.ends (before _ long)

theorem strlen_holds {host : Host} {a : W32} {s : List W8} (holds : Buf.Holds (fun i => host (a + BitVec.ofNat 32 i)) s)
    {fuel : ℕ} (enough : s.length < fuel) : strlen host a fuel = some s.length := by
  obtain ⟨len, found⟩ := strlen_found fuel enough holds.ends
  obtain ⟨ends, before⟩ := strlen_some found
  rw [found, holds.length_unique ends before]

theorem Buf.Holds.strlen {buf : Buf} {s : List W8} (holds : buf.Holds s) {fuel : ℕ} (enough : s.length < fuel)
    (short : s.length < 2^32) : ToyHv.strlen (fun a => buf a.toNat) 0 fuel = some s.length := by
  apply strlen_holds (holds.congr fun i bound => ?_) enough
  have index : ((0 : W32) + BitVec.ofNat 32 i).toNat = i := by
    rw [zero_add, BitVec.toNat_ofNat]
    omega
  rw [index]

/-- The C string at the start of a buffer is the one it holds. -/
theorem Buf.Holds.pathAt {buf : Buf} {s : List W8} (holds : buf.Holds s) {n : ℕ} (enough : s.length < n) :
    ToyHv.pathAt buf n = s := by
  obtain ⟨k, rfl⟩ := Nat.exists_eq_add_of_lt enough
  have split : buf.text (s.length + k + 1) = s ++ 0 :: Buf.text (fun i => buf (s.length + (1 + i))) k := by
    rw [Nat.add_assoc, Buf.text_add, holds.text, Nat.add_comm k 1, Buf.text_add]
    have one : Buf.text (fun i => buf (s.length + i)) 1 = [0] := by
      rw [← holds.ends]
      rfl
    rw [one]
    rfl
  change (buf.text _).takeWhile _ = _
  rw [split, List.takeWhile_append_of_pos, List.takeWhile_cons_of_neg (by simp), List.append_nil]
  intro c member
  exact decide_eq_true fun zero => holds.nonzero (zero ▸ member)

variable {d : Dtb} {size fuel o next x after buflen : ℕ} {children : Forest ℕ} {s : PathBuf}

/-- The name of the node at an offset. -/
def Dtb.nodeName (d : Dtb) (size o : ℕ) : List W8 := pathAt (d.bytes (d.structAt (o + 4))) size

theorem Dtb.bytes_structAt (d : Dtb) (o i : ℕ) : d.bytes (d.structAt o) i = d.memory (d.structAt (o + i)) := by
  rw [Dtb.bytes, Dtb.structAt, Dtb.structAt, _fdtOffsetPtr, _fdtOffsetPtr, BitVec.add_assoc, ← BitVec.ofNat_add]

theorem TokenAt.named (token : TokenAt d size o FDT_BEGIN_NODE next) :
    (d.bytes (d.structAt (o + 4))).Holds (d.nodeName size o) ∧ o + 4 + (d.nodeName size o).length < size := by
  have inside := token.inside
  obtain ⟨stop, ends, rfl⟩ := token.ends
  cases ends with
  | @name length nonzero terminated =>
    have room : o + 4 + length < size := by
      unfold tokenAfter at inside
      omega
    have holds : (d.bytes (d.structAt (o + 4))).Holds ((d.bytes (d.structAt (o + 4))).text length) := by
      refine ⟨by rw [Buf.length_text], ?_, ?_⟩
      · intro member
        obtain ⟨i, bound, zero⟩ := List.mem_map.mp member
        rw [Dtb.bytes_structAt] at zero
        exact nonzero i (List.mem_range.mp bound) zero
      · rw [Buf.length_text, Dtb.bytes_structAt]
        exact terminated
    have same : d.nodeName size o = (d.bytes (d.structAt (o + 4))).text length :=
      holds.pathAt (by rw [Buf.length_text]; omega)
    rw [same, Buf.length_text]
    exact ⟨holds, room⟩
  | mark marks => rcases marks with wrong | wrong | wrong <;> exact absurd wrong (by decide)

/-- `fdt_get_name` of a node gives a pointer to its name, and how long it is. -/
theorem Block.getName (block : Block d size) (enough : size ≤ fuel) (token : TokenAt d size o FDT_BEGIN_NODE next) :
    d.structAt (o + 4) ≠ 0 ∧ fdtGetName fuel d (BitVec.ofNat 32 o) =
      .ok (d.structAt (o + 4), BitVec.ofNat 32 (d.nodeName size o).length) := by
  obtain ⟨holds, room⟩ := token.named
  have short := block.short
  have inside := token.inside
  obtain ⟨_, present⟩ := block.offsetPtr (o + 4) 1 (by change o + 4 + 1 ≤ size; omega)
  have natural : ¬ (BitVec.ofNat 32 next).toInt < 0 := by
    rw [toInt_offset (by omega)]
    omega
  have pointer : _fdtOffsetPtr d (BitVec.ofNat 32 o) + 4 = d.structAt (o + 4) := by
    rw [Dtb.structAt, _fdtOffsetPtr, _fdtOffsetPtr, BitVec.ofNat_add, BitVec.add_assoc]
    rfl
  have measured : strlen d.memory (d.structAt (o + 4)) fuel = some (d.nodeName size o).length :=
    strlen_holds holds (by omega)
  refine ⟨present, ?_⟩
  rw [fdtGetName, if_neg (not_not.mpr block.header), token.checked block enough, ok_bind, if_neg natural, pointer]
  simp only [measured, pure_ok]

/-- A well-formed tree as the specification has it: the root has no name, and no other node has an empty
    one or one with a slash. -/
structure NamedTree (d : Dtb) (size : ℕ) (children : Forest ℕ) : Prop extends FlatTree d size children where
  root : d.nodeName size 0 = []
  named : ∀ a ∈ children.nodes, d.nodeName size a ≠ [] ∧ SLASH ∉ d.nodeName size a

/-- What `fdt_get_path` puts together of the names from the root down. -/
def pathText (names : List (List W8)) : List W8 := names.flatMap (· ++ [SLASH])

theorem pathText_append (names more : List (List W8)) : pathText (names ++ more) = pathText names ++ pathText more :=
  List.flatMap_append

theorem pathText_snoc (names : List (List W8)) (name : List W8) :
    pathText (names ++ [name]) = pathText names ++ name ++ [SLASH] := by
  simp [pathText]

theorem strip_to {buf : Buf} {e n : ℕ} (slash : buf e = SLASH) (inner : ∀ i, e < i → i ≤ e + n → buf i ≠ SLASH) :
    fdtStrip buf (e + n + 2) = .ok (e + 1) := by
  induction n with
  | zero =>
    rw [fdtStrip, if_pos (by simpa using slash)]
    rfl
  | succ n ih =>
    rw [fdtStrip, if_neg (inner _ (by omega) (by omega))]
    exact ih fun i low high => inner i low (by omega)

theorem strip_name {buf : Buf} {p : ℕ} {names : List (List W8)} {last name : List W8}
    (text : buf.text p = pathText (names ++ [last] ++ [name])) (plain : SLASH ∉ name) :
    fdtStrip buf p = .ok (pathText (names ++ [last])).length ∧
      buf.text (pathText (names ++ [last])).length = pathText (names ++ [last]) := by
  rw [pathText_snoc, pathText_snoc] at text
  rw [pathText_snoc]
  obtain ⟨length, same⟩ := Buf.text_eq_iff.mp text
  simp only [List.length_append, List.length_singleton] at length same ⊢
  constructor
  · have slash : buf (pathText names ++ last).length = SLASH := by
      rw [same _ (by simp only [List.length_append]; omega)]
      simp
    have inner : ∀ i, (pathText names ++ last).length < i → i ≤ (pathText names ++ last).length + name.length →
        buf i ≠ SLASH := by
      intro i low high there
      simp only [List.length_append] at low high
      rw [same i (by omega), List.getElem_append_left (by simp; omega), List.getElem_append_right (by simp; omega)]
        at there
      exact plain (there ▸ List.getElem_mem _)
    have stripped := strip_to slash inner
    rw [List.length_append] at stripped
    rw [← length, ← stripped]
    congr 1
    omega
  · apply Buf.text_eq_iff.mpr
    refine ⟨by simp only [List.length_append, List.length_singleton], fun i bound => ?_⟩
    simp only [List.length_append, List.length_singleton] at bound
    rw [same i (by omega), List.getElem_append_left (by simp; omega), List.getElem_append_left (by simp; omega)]

theorem stripAll_to {buf : Buf} {p : ℕ} {names extra : List (List W8)} (text : buf.text p = pathText (names ++ extra))
    (some : names ≠ []) (plain : ∀ name ∈ extra, SLASH ∉ name) :
    fdtStripAll buf extra.length p = .ok (pathText names).length ∧
      buf.text (pathText names).length = pathText names := by
  induction extra using List.reverseRecOn generalizing p with
  | nil =>
    rw [List.append_nil] at text
    obtain ⟨rfl, _⟩ := Buf.text_eq_iff.mp text
    exact ⟨rfl, text⟩
  | append_singleton extra name ih =>
    obtain ⟨front, last, split⟩ : ∃ front last, names ++ extra = front ++ [last] := by
      have nonempty : names ++ extra ≠ [] := by simp [some]
      exact ⟨_, _, (List.dropLast_append_getLast nonempty).symm⟩
    rw [← List.append_assoc, split] at text
    obtain ⟨stripped, shorter⟩ := strip_name text (plain name (by simp))
    rw [← split] at stripped shorter
    rw [List.length_append, List.length_singleton, fdtStripAll, stripped, ok_bind]
    exact ih shorter fun other member => plain other (List.mem_append_left _ member)

theorem stripAll_add (buf : Buf) (levels more p : ℕ) :
    fdtStripAll buf (levels + more) p = fdtStripAll buf levels p >>= fdtStripAll buf more := by
  induction levels generalizing p with
  | zero => rw [Nat.zero_add, fdtStripAll, pure_ok, ok_bind]
  | succ levels ih =>
    rw [Nat.succ_add, fdtStripAll, fdtStripAll]
    cases fdtStrip buf p with
    | error message => rfl
    | ok p => exact ih p

/-- The buffer spells the names of the nodes open, as far as there is room for them. -/
structure PathBuf.Spells (s : PathBuf) (orig : Buf) (buflen : ℕ) (names : List (List W8)) : Prop where
  spelled : ∃ n ≤ names.length, s.pdepth = n ∧ s.buf.text s.p = pathText (names.take n) ∧
    (n < names.length → buflen < (pathText (names.take (n + 1))).length)
  fits : s.p ≤ buflen
  outside : ∀ i, buflen ≤ i → s.buf i = orig i

/-- Leaving nodes takes their names off the end. -/
theorem PathBuf.Spells.pop {orig : Buf} {names extra : List (List W8)} (spells : s.Spells orig buflen (names ++ extra))
    (some : names ≠ []) (plain : ∀ name ∈ extra, SLASH ∉ name) :
    ∃ p, fdtStripAll s.buf (s.pdepth - names.length).toNat s.p = .ok p ∧
      PathBuf.Spells ⟨s.buf, p, min s.pdepth names.length⟩ orig buflen names := by
  obtain ⟨n, within, depth, text, full⟩ := spells.spelled
  by_cases high : n ≤ names.length
  · have none : (s.pdepth - names.length).toNat = 0 := by omega
    have same : (names ++ extra).take n = names.take n := List.take_append_of_le_length high
    refine ⟨s.p, by rw [none]; rfl, ⟨n, high, ?_, by rw [← same]; exact text, fun less => ?_⟩, spells.fits,
      spells.outside⟩
    · change min s.pdepth _ = _
      omega
    · have same : (names ++ extra).take (n + 1) = names.take (n + 1) := List.take_append_of_le_length less
      rw [← same]
      exact full (by rw [List.length_append]; omega)
  · have more : n - names.length ≤ extra.length := by
      rw [List.length_append] at within
      omega
    have split : (names ++ extra).take n = names ++ extra.take (n - names.length) := by
      rw [List.take_append, List.take_of_length_le (by omega)]
    have count : (s.pdepth - names.length).toNat = (extra.take (n - names.length)).length := by
      rw [List.length_take, depth]
      omega
    rw [split] at text
    obtain ⟨stripped, shorter⟩ := stripAll_to text some fun name member => plain name (List.mem_of_mem_take member)
    have length := (Buf.text_eq_iff.mp text).1
    rw [pathText_append, List.length_append] at length
    have fits := spells.fits
    refine ⟨_, by rw [count]; exact stripped, ⟨names.length, le_rfl, ?_, ?_, fun less => absurd less (lt_irrefl _)⟩, ?_,
      spells.outside⟩
    · change min s.pdepth _ = _
      omega
    · rw [List.take_length]
      exact shorter
    · change (pathText names).length ≤ buflen
      omega

theorem PathBuf.Spells.stay {orig : Buf} {names : List (List W8)} {n : ℕ} (spells : s.Spells orig buflen names)
    (depth : s.pdepth = n) (less : n < names.length) (name : List W8) : s.Spells orig buflen (names ++ [name]) := by
  obtain ⟨n', within, depth', text, full⟩ := spells.spelled
  obtain rfl : n' = n := by omega
  refine ⟨⟨n', by rw [List.length_append]; omega, depth, ?_, fun _ => ?_⟩, spells.fits, spells.outside⟩
  · rw [List.take_append_of_le_length within]
    exact text
  · rw [List.take_append_of_le_length less]
    exact full less

/-- Entering a node adds its name, if all the names above it are there and it fits. -/
theorem Block.pathTurn {a p : ℕ} {orig : Buf} {names : List (List W8)} (block : Block d size) (enough : size ≤ fuel)
    (token : TokenAt d size a FDT_BEGIN_NODE next)
    (popped : fdtStripAll s.buf (s.pdepth - names.length).toNat s.p = .ok p)
    (spells : PathBuf.Spells ⟨s.buf, p, min s.pdepth names.length⟩ orig buflen names) :
    ∃ s', fdtPathTurn fuel d buflen (BitVec.ofNat 32 a) names.length s = .ok (0, s') ∧
      s'.Spells orig buflen (names ++ [d.nodeName size a]) := by
  obtain ⟨present, got⟩ := block.getName enough token
  obtain ⟨holds, room⟩ := token.named
  have short := block.short
  obtain ⟨n, within, depth, text, full⟩ := spells.spelled
  change min s.pdepth _ = _ at depth
  change s.buf.text p = _ at text
  have length := toInt_offset (a := (d.nodeName size a).length) (by omega)
  have exact : (BitVec.ofNat 32 (d.nodeName size a).length).toNat = (d.nodeName size a).length := by
    rw [BitVec.toNat_ofNat]
    omega
  rw [fdtPathTurn, popped, ok_bind]
  simp only [depth, got, ok_bind, if_neg present, length, exact, pure_ok]
  by_cases whole : n = names.length
  · subst whole
    rw [if_pos le_rfl]
    rw [List.take_length] at text
    have measured := (Buf.text_eq_iff.mp text).1
    split
    · rename_i fits
      refine ⟨_, rfl,
        ⟨(names ++ [d.nodeName size a]).length, le_rfl, ?_, ?_, fun less => absurd less (lt_irrefl _)⟩, ?_,
        fun i beyond => ?_⟩
      · simp
      · change Buf.text _ (p + (d.nodeName size a).length + 1) = _
        rw [List.take_length, Buf.text_put, Buf.text_put, text, holds.text, pathText_snoc]
        rfl
      · change p + (d.nodeName size a).length + 1 ≤ buflen
        omega
      · dsimp only
        rw [Buf.put, if_neg (by omega), Buf.put, if_neg (by omega)]
        exact spells.outside i beyond
    · rename_i tight
      refine ⟨_, rfl, ⟨names.length, by simp, rfl, ?_, fun _ => ?_⟩, spells.fits, spells.outside⟩
      · rw [List.take_left]
        exact text
      · have all : (names ++ [d.nodeName size a]).take (names.length + 1) = names ++ [d.nodeName size a] :=
          List.take_of_length_le (by simp)
        rw [all, pathText_snoc, List.length_append, List.length_append, List.length_singleton]
        omega
  · rw [if_neg (by omega)]
    rw [depth] at spells
    exact ⟨_, rfl, spells.stay rfl (by omega) _⟩

/-- What is known of the state of `fdt_get_path` inside these nodes: it spells their names, and maybe more.
    The first of them is the root. -/
def PathGood (d : Dtb) (size : ℕ) (orig : Buf) (buflen : ℕ) (chain : List ℕ) (s : PathBuf) : Prop :=
  ∃ deeper, s.Spells orig buflen ((chain ++ deeper).map (d.nodeName size)) ∧
    (∀ y ∈ chain ++ deeper, SLASH ∉ d.nodeName size y) ∧ (chain ++ deeper).head? = some 0

variable {target : ℕ} {orig : Buf} {chain : List ℕ}

theorem PathGood.turn {a : ℕ} (good : PathGood d size orig buflen chain s) (block : Block d size) (enough : size ≤ fuel)
    (token : TokenAt d size a FDT_BEGIN_NODE next) (open_ : chain ≠ []) :
    ∃ s', fdtPathTurn fuel d buflen (BitVec.ofNat 32 a) chain.length s = .ok (0, s') ∧
      s'.Spells orig buflen ((chain ++ [a]).map (d.nodeName size)) := by
  obtain ⟨deeper, spells, plain, _⟩ := good
  rw [List.map_append] at spells
  have some : chain.map (d.nodeName size) ≠ [] := by simpa using open_
  obtain ⟨p, popped, shorter⟩ := spells.pop some fun name member => by
    obtain ⟨y, inside, rfl⟩ := List.mem_map.mp member
    exact plain y (List.mem_append_right _ inside)
  obtain ⟨s', turned, longer⟩ := block.pathTurn enough token popped shorter
  rw [List.length_map] at turned
  refine ⟨s', turned, ?_⟩
  rw [List.map_append]
  exact longer

theorem getPathLoop_turn {turns a : ℕ} {depth : ℤ} {s' : PathBuf} (le : a ≤ target) (short : target < 2^31)
    (turned : fdtPathTurn fuel d buflen (BitVec.ofNat 32 a) depth s = .ok (0, s')) :
    fdtGetPathLoop fuel d (BitVec.ofNat 32 target) buflen (turns + 1) s (BitVec.ofNat 32 a) depth =
      if a = target then .ok (fdtPathDone depth s')
      else fdtNextNode fuel d (BitVec.ofNat 32 a) depth >>= fun r =>
        fdtGetPathLoop fuel d (BitVec.ofNat 32 target) buflen turns s' r.1 r.2 := by
  have here := toInt_offset (a := a) (by omega)
  have there := toInt_offset (a := target) short
  have same : BitVec.ofNat 32 a = BitVec.ofNat 32 target ↔ a = target := by
    refine ⟨fun equal => ?_, congrArg _⟩
    rw [equal, there] at here
    omega
  rw [fdtGetPathLoop, if_pos (by omega), turned, ok_bind]
  simp only [ne_eq, not_true_eq_false, if_false, same]
  split
  · rfl
  · rfl

/-- Which nodes `fdt_get_path` passes: those before its target, below the root. -/
def PathPasses (d : Dtb) (size target k a : ℕ) : Prop := 0 < k ∧ a < target ∧ SLASH ∉ d.nodeName size a

theorem pathLoop (block : Block d size) (enough : size ≤ fuel) (short : target < 2^31) (orig : Buf) (buflen : ℕ) :
    NodeLoop fuel d size (fdtGetPathLoop fuel d (BitVec.ofNat 32 target) buflen) (PathGood d size orig buflen)
      (PathPasses d size target) where
  turn := by
    intro chain a next s token passes good
    obtain ⟨deep, before, plain⟩ := passes
    have some := List.ne_nil_of_length_pos deep
    obtain ⟨s', turned, spells⟩ := good.turn block enough token some
    obtain ⟨deeper, _, slashless, root⟩ := good
    rw [List.head?_append_of_ne_nil _ some] at root
    refine ⟨s', ⟨[], ?_, ?_, ?_⟩, fun turns => ?_⟩
    · rw [List.append_nil]
      exact spells
    · intro y member
      simp only [List.append_nil, List.mem_append, List.mem_singleton] at member
      rcases member with member | rfl
      · exact slashless y (List.mem_append_left _ member)
      · exact plain
    · rw [List.append_nil, List.head?_append_of_ne_nil _ some]
      exact root
    · rw [getPathLoop_turn before.le short turned, if_neg (Nat.ne_of_lt before)]
  leave := by
    rintro chain a s ⟨deeper, good⟩
    refine ⟨a :: deeper, ?_⟩
    rw [List.append_cons]
    exact good

/-- The path of a node, by the names from the root down. -/
def nodePath (names : List (List W8)) : List W8 :=
  if 1 < (pathText names).length then (pathText names).dropLast else pathText names

theorem PathBuf.Spells.done {names : List (List W8)} (spells : s.Spells orig buflen names) (some : names ≠ [])
    (room : 2 ≤ buflen) (printable : ∀ name ∈ names, 0 ∉ name) {depth : ℤ} (deep : depth + 1 = names.length) :
    ∃ buf', (∀ i, buflen ≤ i → buf' i = orig i) ∧
      ((pathText names).length ≤ buflen ∧ fdtPathDone depth s = (0, buf') ∧ buf'.Holds (nodePath names) ∨
        buflen < (pathText names).length ∧ fdtPathDone depth s = (-FDT_ERR_NOSPACE, buf')) := by
  obtain ⟨n, within, reached, text, full⟩ := spells.spelled
  rw [fdtPathDone]
  by_cases whole : n = names.length
  · subst whole
    rw [List.take_length] at text
    have length := (Buf.text_eq_iff.mp text).1
    have fits := spells.fits
    have positive : 0 < s.p := by
      rw [← length]
      exact List.length_pos_iff.mpr (by
        obtain ⟨name, others, rfl⟩ := List.exists_cons_of_ne_nil some
        simp [pathText])
    have slashes : 0 ∉ pathText names := by
      intro member
      obtain ⟨name, inside, byte⟩ := List.mem_flatMap.mp member
      rcases List.mem_append.mp byte with byte | byte
      · exact printable name inside byte
      · exact absurd (List.mem_singleton.mp byte) (by decide)
    rw [if_neg (by omega)]
    refine ⟨_, fun i beyond => ?_, .inl ⟨by omega, rfl, ?_⟩⟩
    · rw [Buf.put, if_neg (by split <;> omega)]
      exact spells.outside i beyond
    · rw [nodePath, length]
      split
      · rename_i many
        have short : (pathText names).dropLast.length = s.p - 1 := by rw [List.length_dropLast, length]
        constructor
        · rw [short, ← text, Buf.text_dropLast]
          exact Buf.text_congr fun i bound => if_neg (by omega)
        · exact fun member => slashes (List.dropLast_subset _ member)
        · rw [short, Buf.put, if_pos (by omega)]
      · constructor
        · rw [length, ← text]
          exact Buf.text_congr fun i bound => if_neg (by omega)
        · exact slashes
        · rw [length, Buf.put, if_pos (by omega)]
  · refine ⟨s.buf, spells.outside, .inr ⟨?_, if_pos (by omega)⟩⟩
    have tight := full (by omega)
    have prefix_ : pathText (names.take (n + 1)) <+: pathText names := by
      conv_rhs => rw [← List.take_append_drop (n + 1) names, pathText_append]
      exact List.prefix_append _ _
    have shorter := prefix_.length_le
    omega

/-- The labels from the root down to a node, and what is spelled there. -/
def Dtb.pathNames (d : Dtb) (size : ℕ) (l : List ℕ) (x : ℕ) : List (List W8) := (l ++ [x]).map (d.nodeName size)

/-- What `fdt_get_path` makes of an offset: the path of a node if it fits, an error for what is not a node, and
    behind the tree a read in front of the buffer. Past its length the buffer is as it was. -/
inductive PathOutcome (d : Dtb) (size : ℕ) (children : Forest ℕ) (after : ℕ) (orig : Buf) (buflen target : ℕ) :
    Checked (W32 × Buf) → Prop
  | found {l : List ℕ} {buf : Buf} : (Forest.node 0 children .nil).Chain l target →
      (pathText (d.pathNames size l target)).length ≤ buflen → (∀ i, buflen ≤ i → buf i = orig i) →
      buf.Holds (nodePath (d.pathNames size l target)) →
      PathOutcome d size children after orig buflen target (.ok (0, buf))
  | noSpace {l : List ℕ} {buf : Buf} : (Forest.node 0 children .nil).Chain l target →
      buflen < (pathText (d.pathNames size l target)).length → (∀ i, buflen ≤ i → buf i = orig i) →
      PathOutcome d size children after orig buflen target (.ok (-FDT_ERR_NOSPACE, buf))
  | noNode {buf : Buf} : target ∉ (Forest.node 0 children .nil).nodes → target < after →
      (∀ i, buflen ≤ i → buf i = orig i) →
      PathOutcome d size children after orig buflen target (.ok (-FDT_ERR_BADOFFSET, buf))
  | before : after ≤ target → PathOutcome d size children after orig buflen target (.error .undefined)

/-- Behind the tree the names of all the nodes are taken off, and the slash of the root is looked for
    in front of the buffer. -/
theorem PathGood.stripped (good : PathGood d size orig buflen [] s) (root : d.nodeName size 0 = [])
    (room : 2 ≤ buflen) : fdtStripAll s.buf (s.pdepth - -1).toNat s.p = .error .undefined := by
  obtain ⟨deeper, spells, plain, first⟩ := good
  obtain ⟨deeper, rfl⟩ : ∃ more, deeper = 0 :: more := by
    cases deeper with
    | nil => cases first
    | cons a more =>
      obtain rfl := Option.some.inj first
      exact ⟨more, rfl⟩
  obtain ⟨n, within, depth, text, full⟩ := spells.spelled
  rw [List.nil_append, List.map_cons, root] at within text full
  cases n with
  | zero =>
    have tight := full (Nat.succ_pos _)
    rw [List.take_succ_cons, List.take_zero] at tight
    change buflen < 1 at tight
    omega
  | succ n =>
    have levels : (s.pdepth - -1).toNat = ((deeper.map (d.nodeName size)).take n).length + 2 := by
      rw [List.length_cons] at within
      rw [List.length_take]
      omega
    rw [List.take_succ_cons, ← List.singleton_append] at text
    obtain ⟨stripped, _⟩ := stripAll_to text (by simp) fun name member => by
      obtain ⟨y, inside, rfl⟩ := List.mem_map.mp (List.mem_of_mem_take member)
      exact plain y (List.mem_cons_of_mem _ inside)
    rw [levels, stripAll_add, stripped, ok_bind]
    rfl

theorem PathBuf.Spells.outcome {l : List ℕ} (spells : s.Spells orig buflen (d.pathNames size l target))
    (chain : (Forest.node 0 children .nil).Chain l target) (room : 2 ≤ buflen)
    (printable : ∀ y ∈ l ++ [target], 0 ∉ d.nodeName size y) :
    PathOutcome d size children after orig buflen target (.ok (fdtPathDone l.length s)) := by
  have some : d.pathNames size l target ≠ [] := by simp [Dtb.pathNames]
  have deep : (l.length : ℤ) + 1 = (d.pathNames size l target).length := by simp [Dtb.pathNames]
  obtain ⟨buf, outside, ⟨fits, same, holds⟩ | ⟨tight, same⟩⟩ := spells.done some room (fun name member => by
    obtain ⟨y, inside, rfl⟩ := List.mem_map.mp member
    exact printable y inside) deep
  · rw [same]
    exact .found chain fits outside holds
  · rw [same]
    exact .noSpace chain tight outside

theorem getPathLoop_beyond {turns : ℕ} {offset : ℕ} {depth : ℤ} (high : target < offset) (short : offset < 2^31)
    (s : PathBuf) : fdtGetPathLoop fuel d (BitVec.ofNat 32 target) buflen (turns + 1) s (BitVec.ofNat 32 offset) depth =
      .ok (-FDT_ERR_BADOFFSET, s.buf) := by
  have here := toInt_offset short
  have there := toInt_offset (a := target) (by omega)
  rw [fdtGetPathLoop, if_neg (by omega), if_pos (.inr (by omega))]
  rfl

/-- The first node behind an offset that is none. -/
theorem exists_next {nodes : List ℕ} (other : target ∉ nodes) (behind : ∃ y ∈ nodes, target < y) :
    ∃ y ∈ nodes, target < y ∧ ∀ z ∈ nodes, z < y → z < target := by
  have found : ∃ y, y ∈ nodes ∧ target < y := behind
  obtain ⟨member, high⟩ := Nat.find_spec found
  refine ⟨_, member, high, fun z inside less => ?_⟩
  have early := Nat.find_min found less
  have apart : z ≠ target := by
    rintro rfl
    exact other inside
  have low : ¬ target < z := fun above => early ⟨inside, above⟩
  omega

theorem printable_chain {l : List ℕ} (tokens : ∀ y ∈ l ++ [x], ∃ next, TokenAt d size y FDT_BEGIN_NODE next) :
    ∀ y ∈ l ++ [x], 0 ∉ d.nodeName size y := by
  intro y member
  obtain ⟨next, token⟩ := tokens y member
  exact token.named.1.nonzero

theorem Inside.token {a : ℕ} {f : Forest ℕ} {rest : List (Forest ℕ)} (inside : Inside d size after o (f :: rest))
    (member : a ∈ f.nodes) : ∃ next, TokenAt d size a FDT_BEGIN_NODE next := by
  induction f generalizing o rest with
  | nil => cases member
  | node b children siblings below beside =>
    obtain ⟨next, token, nested⟩ := inside.first
    rcases List.mem_cons.mp member with rfl | member
    · exact ⟨next, token⟩
    · rcases List.mem_append.mp member with member | member
      · exact below nested member
      · cases nested with
        | nest _ _ outer => exact beside outer member

section Exact

variable (tree : NamedTree d size children) (enough : size ≤ fuel) (short : target < 2^31) (room : 2 ≤ buflen)
include tree enough short room

/-- The loop once it is behind the root. -/
theorem NamedTree.pathBelow {turns : ℕ} (inside : Inside d size after o [children]) (node : target ≠ 0)
    (total : children.nodes.length < turns) (good : PathGood d size orig buflen [0] s) :
    Brings d size after [children] (fun r => fdtGetPathLoop fuel d (BitVec.ofNat 32 target) buflen turns s r.1 r.2)
      (PathOutcome d size children after orig buflen target) := by
  have loop := pathLoop tree.toBlock enough short orig buflen
  have sorted := inside.sorted
  obtain ⟨between, _, most⟩ := inside.between
  have block := tree.toBlock
  have small := block.short
  have start : PathGood d size orig buflen ([] ++ [0]) s := good
  have passes : children.Each (fun k y => y < target → PathPasses d size target k y) (([] : List ℕ).length + 1) :=
    .of_mem fun y member _ deep before => ⟨deep, before, (tree.named y member).2⟩
  have nodes : target ∈ (Forest.node 0 children .nil).nodes ↔ target ∈ children.nodes := by
    simp [Forest.nodes, node]
  by_cases member : target ∈ children.nodes
  · obtain ⟨l, chain⟩ := Forest.exists_chain member
    refine loop.arrives block enough rfl chain sorted passes start total.le ?_
    intro turns s' next token better
    obtain ⟨s'', turned, spells⟩ := better.turn block enough token (by simp)
    rw [getPathLoop_turn le_rfl short turned, if_pos rfl]
    apply spells.outcome (.down chain) room
    intro y member
    rcases List.mem_cons.mp member with rfl | below
    · rw [tree.root]
      exact List.not_mem_nil
    · refine printable_chain (fun z there => inside.token ?_) y below
      rcases List.mem_append.mp there with above | last
      · exact chain.above z above
      · rw [List.mem_singleton.mp last]
        exact chain.mem
  have other := mt nodes.mp member
  by_cases later : ∃ y ∈ children.nodes, target < y
  · obtain ⟨y, present, high, before⟩ := exists_next member later
    obtain ⟨l, chain⟩ := Forest.exists_chain present
    have bound := between y present
    refine loop.arrives block enough rfl chain sorted ?_ start total.le ?_
    · exact passes.imp_mem fun _ z among early => fun less => early (before z among less)
    · intro turns s' next token better
      obtain ⟨_, spells, _⟩ := better
      rw [getPathLoop_beyond high (by omega)]
      exact .noNode other (by omega) spells.outside
  · have all : children.Each (PathPasses d size target) (([] : List ℕ).length + 1) := by
      refine passes.imp_mem fun _ z among early => early ?_
      have low : ¬ target < z := fun above => later ⟨z, among, above⟩
      have apart : z ≠ target := by
        rintro rfl
        exact member among
      omega
    obtain ⟨left, rfl⟩ := Nat.exists_eq_add_of_lt total
    have count : children.nodes.length + left + 1 = left + 1 + children.nodes.length := by omega
    rw [count]
    refine loop.past block enough rfl all start fun s' better result lands => ?_
    cases lands with
    | out =>
      change PathOutcome d size children after orig buflen target
        (fdtGetPathLoop fuel d _ buflen (left + 1) s' (BitVec.ofNat 32 after) (-1))
      by_cases high : target < after
      · obtain ⟨_, spells, _⟩ := better
        rw [getPathLoop_beyond high (by omega)]
        exact .noNode other high spells.outside
      · have here := toInt_offset (a := after) (by omega)
        have there := toInt_offset short
        have stripped := better.stripped tree.root room
        rw [fdtGetPathLoop, if_pos (by omega), fdtPathTurn, stripped]
        exact .before (by omega)

/-- `fdt_get_path` on a well-formed tree, for every offset. -/
theorem NamedTree.getPath (ends : RootEnds d size children after) :
    PathOutcome d size children after orig buflen target
      (fdtGetPath fuel d (BitVec.ofNat 32 target) orig buflen) := by
  obtain ⟨next, _, _, token, inside, _, _⟩ := ends
  have block := tree.toBlock
  have longer := token.grows
  obtain ⟨_, total, most⟩ := inside.between
  obtain ⟨turns, rfl⟩ := Nat.exists_eq_add_of_le' (show 1 ≤ fuel by omega)
  have empty : PathBuf.Spells ⟨orig, 0, min 0 ([] : List (List W8)).length⟩ orig buflen [] :=
    ⟨⟨0, le_rfl, rfl, rfl, fun less => absurd less (lt_irrefl 0)⟩, Nat.zero_le _, fun _ _ => rfl⟩
  obtain ⟨s, turned, spells⟩ := block.pathTurn (s := ⟨orig, 0, 0⟩) enough token rfl empty
  rw [fdtGetPath, if_neg (not_not.mpr block.header), if_neg (by omega)]
  change PathOutcome d size children after orig buflen target (fdtGetPathLoop _ d _ buflen (turns + 1) ⟨orig, 0, 0⟩
    (BitVec.ofNat 32 0) (([] : List (List W8)).length : ℤ))
  rw [getPathLoop_turn (Nat.zero_le target) short turned]
  by_cases node : target = 0
  · subst node
    rw [if_pos rfl]
    refine spells.outcome .here room fun y member => ?_
    rw [List.mem_singleton.mp member, tree.root]
    exact List.not_mem_nil
  · rw [if_neg (Ne.symm node)]
    have good : PathGood d size orig buflen [0] s := by
      refine ⟨[], spells, fun y member => ?_, rfl⟩
      rw [List.mem_singleton.mp member, tree.root]
      exact List.not_mem_nil
    have most : children.nodes.length < turns := by omega
    change PathOutcome d size children after orig buflen target (fdtNextNode _ d (BitVec.ofNat 32 0)
      (([] : List (Forest ℕ)).length : ℕ) >>= fun r => fdtGetPathLoop _ d _ buflen turns s r.1 r.2)
    exact block.brings enough token inside (tree.pathBelow enough short room inside node most good)

end Exact

end ToyHv

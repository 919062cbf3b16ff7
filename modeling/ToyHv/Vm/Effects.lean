import ToyHv.Library.Outcomes
import ToyHv.Library.Runs
import ToyHv.Memory.Swizzle
import ToyHv.Rom.Calls

namespace ToyHv

open Library

/-- Where the hypervisor stores for its guest: in RAM, and in little-endian mode up to three bytes behind it. -/
def Window (little : Bool) (p : Pmem) (x : W32) : Prop :=
  (x - p.pmem).toNat < p.pmemBytes.toNat + if little then 3 else 0

/-- What serving the guest may change: nothing the guest or the kernel keeps, and of host memory the window. -/
structure Confined (m m' : Machine) : Prop where
  guest : m'.guest = m.guest
  page : m'.page = m.page
  mapped : m'.mapped = m.mapped
  ram : m'.ram = m.ram
  outside : ∀ x, ¬ Window (guestIsLittle m.guest) m.ram x → m'.host x = m.host x

/-- What a service does to the ROM's bookkeeping. -/
inductive RomOp
  | quiet
  | claim (mem : Bool) (addr size align : W32)
  | map (mem : Bool) (request : MapRequest)

/-- Only the handles and the transfer buffer may differ. -/
def Rom.Quiet (rom rom' : Rom) : Prop :=
  ∃ knownIhandles xferBuf, rom' = { rom with knownIhandles, xferBuf }

inductive RomStep (p : Pmem) (rom : Rom) : RomOp → Rom → Prop
  | quiet {rom' : Rom} : rom.Quiet rom' → RomStep p rom .quiet rom'
  | claim {mem : Bool} {addr size align out : W32} {rom' : Rom} :
      romClaimEx mem (pmemSize p) rom addr size align = .ok (out, rom') →
      RomStep p rom (.claim mem addr size align) rom'
  | map {mem : Bool} {e : MapRequest} {err : Err} {rom' : Rom} :
      e.run mem p rom = .ok (err, rom') → RomStep p rom (.map mem e) rom'

/-- What a service leaves of the machine. -/
structure Effect (m m' : Machine) : Prop extends Confined m m' where
  rom : ∃ ops, Run (RomStep m.ram) m.rom ops m'.rom

variable {m m' v : Machine} {p : Pmem} {host host' : Host} {dest bytes s count : W32} {src : Buf} {little : Bool}

theorem touched_window {x : W32} (size : AccessSize s) (bound : dest.toNat + bytes.toNat ≤ p.pmemBytes.toNat)
    (touched : Touched (p.pmem + dest) s 0 (bytes / s).toNat x) : Window true p x := by
  obtain ⟨j, inner, k, within, rfl⟩ := touched.exists_byte
  have pages := p.size_aligned
  have top := p.below_top
  have positive := size.pos
  have small : s.toNat ≤ 4 := by rcases size with rfl | rfl | rfl <;> decide
  have room : j * s.toNat + s.toNat ≤ bytes.toNat := by
    rw [BitVec.toNat_udiv] at inner
    have whole := Nat.mul_le_of_le_div s.toNat (j + 1) bytes.toNat inner
    rwa [Nat.succ_mul] at whole
  have address : (dest + BitVec.ofNat 32 (j * s.toNat)).toNat = dest.toNat + j * s.toNat := by
    rw [BitVec.toNat_add, BitVec.toNat_ofNat]
    omega
  have index := elementHa_index size p dest j
  have flipped := toNat_xor_low (dest + BitVec.ofNat 32 (j * s.toNat)) (munge s) (munge_low size)
  have low : (dest + BitVec.ofNat 32 (j * s.toNat)).toNat % 8 ^^^ (munge s).toNat < 2^3 :=
    Nat.xor_lt_two_pow (by omega) (munge_low size)
  have split : elementHa (p.pmem + dest) s 0 j + BitVec.ofNat 32 k - p.pmem =
      elementHa (p.pmem + dest) s 0 j - p.pmem + BitVec.ofNat 32 k := by ring
  rw [Window, split, index, BitVec.toNat_add, BitVec.toNat_ofNat, flipped, address]
  rw [address] at low
  simp only [if_true]
  omega

theorem window_of_ram {x : W32} (inside : InGuestRam p x) : Window little p x := by
  unfold Window
  unfold InGuestRam at inside
  split
  · omega
  · exact inside

theorem put_outside {ha : W32} {n : ℕ} {x : W32} (other : ¬ (x - ha).toNat < n) : host.put ha n src x = host x :=
  if_neg other

/-- `pmem_to` stores in the window only. -/
theorem pmemTo_window {x : W32} (stored : pmemTo little p host dest src bytes s = .ok (count, host'))
    (small : bytes.toNat ≤ 4096) (beyond : ¬ Window little p x) : host' x = host x := by
  unfold pmemTo at stored
  split at stored
  · cases stored
    rfl
  · rename_i inside
    have bound := cutToRam_bound (BitVec.not_le.mp inside) small
    change bugOn (cutToRam p dest bytes % s ≠ 0) _ >>= _ = _ at stored
    simp only [bind_ok, bugOn_ok] at stored
    obtain ⟨_, _, _, size, stored⟩ := stored
    have access : AccessSize s := by
      unfold AccessSize
      tauto
    split at stored
    · rename_i munged
      cases stored
      subst munged
      exact pmemToLoop_untouched access _ _ _ _ _ fun touched => beyond (touched_window access bound touched)
    · cases stored
      apply put_outside
      intro covered
      apply beyond
      apply window_of_ram
      have top := p.below_top
      have below := BitVec.lt_def.mp (BitVec.not_le.mp inside)
      have split : x - p.pmem = dest + (x - (p.pmem + dest)) := by ring
      change (x - (p.pmem + dest)).toNat < (cutToRam p dest bytes).toNat at covered
      rw [InGuestRam, split, BitVec.toNat_add]
      omega

theorem Confined.refl (m : Machine) : Confined m m := ⟨rfl, rfl, rfl, rfl, fun _ _ => rfl⟩

theorem Confined.trans (first : Confined m v) (second : Confined v m') : Confined m m' := by
  refine ⟨second.guest.trans first.guest, second.page.trans first.page, second.mapped.trans first.mapped,
    second.ram.trans first.ram, fun x beyond => ?_⟩
  have later := second.outside x
  rw [first.guest, first.ram] at later
  exact (later beyond).trans (first.outside x beyond)

theorem Effect.refl (m : Machine) : Effect m m := ⟨.refl m, [], .nil _⟩

theorem Effect.trans (first : Effect m v) (second : Effect v m') : Effect m m' := by
  refine ⟨first.toConfined.trans second.toConfined, ?_⟩
  obtain ⟨ops, run⟩ := first.rom
  obtain ⟨more, next⟩ := second.rom
  rw [first.ram] at next
  exact ⟨ops ++ more, run.append next⟩

/-- A step of the ROM that touches nothing else of the machine. -/
theorem Effect.step {op : RomOp} {rom : Rom} (step : RomStep m.ram m.rom op rom) (os : Os) :
    Effect m { m with os, rom } :=
  ⟨⟨rfl, rfl, rfl, rfl, fun _ _ => rfl⟩, [op], .single step⟩

theorem Effect.quiet (m : Machine) (os : Os) (knownIhandles : List Ihandle) (xferBuf : Buf) :
    Effect m { m with os, rom := { m.rom with knownIhandles, xferBuf } } :=
  .step (.quiet ⟨_, _, rfl⟩) os

theorem guestToLoop_effect {left n : W32} {src : Buf} (looped : guestToLoop m dest src left s = .ok (n, m')) :
    Effect m m' := by
  induction measure : left.toNat using Nat.strong_induction_on generalizing m dest src left with
  | _ _ ih =>
  subst measure
  rw [guestToLoop] at looped
  simp only [bind_ok] at looped
  obtain ⟨⟨err, gra⟩, _, looped⟩ := looped
  split at looped
  · cases looped
    exact .refl _
  · simp only [bind_ok] at looped
    obtain ⟨⟨xferred, host⟩, stored, looped⟩ := looped
    have size := toNat_xferSizeAt dest left
    have small : (xferSizeAt dest left).toNat ≤ 4096 := by omega
    have once : Effect m { m with host } :=
      ⟨⟨rfl, rfl, rfl, rfl, fun x beyond => pmemTo_window stored small beyond⟩, [], .nil _⟩
    split at looped
    · cases looped
      exact once
    · rename_i unfinished
      exact once.trans (ih _ (left_decreases unfinished) looped rfl)

/-- A checked computation that ends with a machine serves the guest. -/
abbrev Serves {α : Type} (m : Machine) (machine : α → Machine) (x : Checked α) : Prop :=
  Returns x fun a => Effect m (machine a)

theorem guestTo_serves (m : Machine) (dest : W32) (src : Buf) (bytes s : W32) :
    Serves m Prod.snd (guestTo m dest src bytes s) := by
  rintro ⟨err, m'⟩ stored
  simp only [guestTo, bind_ok, pure_ok, Except.ok.injEq, Prod.mk.injEq] at stored
  obtain ⟨⟨left, last⟩, looped, _, rfl⟩ := stored
  exact guestToLoop_effect looped

theorem guestToX_serves (m : Machine) (dest word : W32) : Serves m Prod.snd (guestToX m dest word) :=
  guestTo_serves m dest (wordBytes word) 4 4

/-- What follows a change of the machine starts from there. -/
theorem Effect.serves {α : Type} {machine : α → Machine} {x : Checked α} (first : Effect m v)
    (second : Serves v machine x) : Serves m machine x :=
  second.mono fun _ later => first.trans later

end ToyHv

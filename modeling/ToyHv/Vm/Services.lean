import ToyHv.Model.Path
import ToyHv.Vm.Effects

namespace ToyHv

open Library

variable {m v : Machine} {cia ciaIn ciaOut : W32} {fuel : ℕ} {d : Dtb}

/-- The result cell is the last thing a service stores. -/
theorem ret_serves (m : Machine) (cia ciaIn ciaOut : W32) (x : ℕ) (result : W32) :
    Serves m Prod.snd (ciaRet cia ciaIn ciaOut x >>= fun ea => guestToX m ea result) :=
  .read fun ea => guestToX_serves m ea result

/-- A fetch that failed ends the service. -/
theorem unless_serves {err : Err} {rest : Checked (Err × Machine)} (served : Serves m Prod.snd rest) :
    Serves m Prod.snd (if err ≠ .none then pure (err, m) else rest) :=
  .ite (fun _ => .pure (.refl m)) fun _ => served

theorem storeResult_serves (m : Machine) (ea result : W32) : Serves m Prod.snd (storeResult m ea result) := by
  refine .bind (guestToX_serves m ea result) ?_
  rintro ⟨err, v⟩ stored
  exact .ite (fun _ => .error) fun _ => .pure stored

theorem romNavigate_serves (answer : W32 → Checked W32) (failed : W32) (m : Machine) (cia ciaIn ciaOut : W32) :
    Serves m Prod.snd (romNavigate answer failed m cia ciaIn ciaOut) := by
  apply Returns.read
  rintro ⟨err, ph⟩
  apply Returns.ite
  · exact fun _ => .read fun out => .read fun ea => storeResult_serves m ea out
  · exact fun _ => .read fun out => .read fun ea => storeResult_serves m ea out

theorem romItopackage_serves (fuel : ℕ) (d : Dtb) (m : Machine) (cia ciaIn ciaOut : W32) :
    Serves m Prod.snd (romItopackage fuel d m cia ciaIn ciaOut) := by
  apply Returns.read
  rintro ⟨err, ih⟩
  apply unless_serves
  exact .read fun node => ret_serves m cia ciaIn ciaOut 0 _

theorem Effect.setXferBuf (m : Machine) (xferBuf : Buf) : Effect m (m.setXferBuf xferBuf) :=
  .quiet m m.os m.rom.knownIhandles xferBuf

theorem romStorePath_serves (fuel : ℕ) (d : Dtb) (m : Machine) (node bufEa bufLen : W32) :
    Serves m (fun r => r.2.2) (romStorePath fuel d m node bufEa bufLen) := by
  apply Returns.read
  rintro ⟨got, xferBuf⟩
  have kept := Effect.setXferBuf m xferBuf
  apply Returns.ite
  · exact fun _ => .pure kept
  · intro _
    cases strlen (fun a => xferBuf a.toNat) 0 PAGE_SIZE.toNat with
    | none => exact .error
    | some len =>
      apply Returns.ite
      · intro _
        refine .bind (guestTo_serves (m.setXferBuf xferBuf) bufEa xferBuf _ 1) fun r later => .pure ?_
        exact kept.trans later
      · exact fun _ => .pure kept

theorem romTopath_serves (lookup : W32 → Checked W32) (fuel : ℕ) (d : Dtb) (m : Machine) (cia ciaIn ciaOut : W32) :
    Serves m Prod.snd (romTopath lookup fuel d m cia ciaIn ciaOut) := by
  apply Returns.read
  rintro ⟨err, handle⟩
  apply unless_serves
  apply Returns.read
  rintro ⟨err, bufEa⟩
  apply unless_serves
  apply Returns.read
  rintro ⟨err, bufLen⟩
  apply unless_serves
  apply Returns.read
  intro node
  have finish : ∀ r : Err × W32 × Machine, Effect m r.2.2 → Serves m Prod.snd
      (if r.1 ≠ .none then pure (r.1, r.2.2) else ciaRet cia ciaIn ciaOut 0 >>= fun ea => guestToX r.2.2 ea r.2.1) :=
    fun r kept => kept.serves (unless_serves (ret_serves r.2.2 cia ciaIn ciaOut 0 r.2.1))
  apply Returns.ite
  · exact fun _ => finish (.none, -1, m) (.refl m)
  · exact fun _ => .bind (romStorePath_serves fuel d m node bufEa bufLen) fun r kept => finish r kept

theorem romMilliseconds_serves (tvSec tvUsec : W32) (m : Machine) (cia ciaIn ciaOut : W32) :
    Serves m Prod.snd (romMilliseconds tvSec tvUsec m cia ciaIn ciaOut) :=
  ret_serves m cia ciaIn ciaOut 0 _

theorem romFinddevice_serves (pathOffset : List W8 → Checked W32) (m : Machine) (cia ciaIn ciaOut : W32) :
    Serves m Prod.snd (romFinddevice pathOffset m cia ciaIn ciaOut) := by
  apply Returns.read
  rintro ⟨err, devEa⟩
  apply unless_serves
  apply Returns.read
  intro name
  apply Returns.read
  intro node
  exact (Effect.setXferBuf m name).serves (ret_serves (m.setXferBuf name) cia ciaIn ciaOut 0 _)

theorem romClaim_serves (mem : Bool) (m : Machine) (cia ciaIn ciaOut : W32) :
    Serves m Prod.snd (romClaim mem m cia ciaIn ciaOut) := by
  apply Returns.read
  rintro ⟨err, addr⟩
  apply unless_serves
  apply Returns.read
  rintro ⟨err, size⟩
  apply unless_serves
  apply Returns.read
  rintro ⟨err, align⟩
  apply unless_serves
  refine .bind (P := fun r => RomStep m.ram m.rom (.claim mem addr size align) r.2) ?_ ?_
  · exact fun r claimed => .claim claimed
  · exact fun r step => (Effect.step step m.os).serves (ret_serves { m with rom := r.2 } cia ciaIn ciaOut 0 r.1)

theorem romMemCall_serves (mem : Bool) (m : Machine) (call : Buf) (cia ciaIn ciaOut : W32) :
    Serves m Prod.snd (romMemCall mem m call cia ciaIn ciaOut) := by
  apply Returns.ite
  · intro _
    apply Returns.read
    rintro ⟨err, align⟩
    apply unless_serves
    apply Returns.read
    rintro ⟨err, size⟩
    apply unless_serves
    apply Returns.read
    rintro ⟨err, addr⟩
    apply unless_serves
    refine .bind (P := fun r => RomStep m.ram m.rom (.claim mem addr size align) r.2) ?_ ?_
    · exact fun r claimed => .claim claimed
    · exact fun r step => (Effect.step step m.os).serves (ret_serves { m with rom := r.2 } cia ciaIn ciaOut 1 r.1)
  · exact fun _ => .pure (.refl m)

theorem romMmuCall_serves (mem : Bool) (m : Machine) (call : Buf) (cia ciaIn : W32) :
    Serves m Prod.snd (romMmuCall mem m call cia ciaIn) := by
  rintro ⟨err, m'⟩ called
  rcases romMmuCall_ok called with rfl | ⟨e, rom, _, _, _, _, _, mapped, rfl⟩
  · exact .refl _
  · exact .step (.map mapped) m.os

theorem romCallmethod_serves (mem : Bool) (m : Machine) (cia ciaIn ciaOut : W32) :
    Serves m Prod.snd (romCallmethod mem m cia ciaIn ciaOut) := by
  apply Returns.read
  rintro ⟨err, methodEa⟩
  apply unless_serves
  apply Returns.read
  rintro ⟨err, ihandle⟩
  apply unless_serves
  apply Returns.read
  rintro ⟨count, call⟩
  apply Returns.read
  intro _
  have kept := Effect.setXferBuf m (call.put count.toNat 1 fun _ => 0)
  have finish : ∀ r : Err × Machine, Effect (m.setXferBuf (call.put count.toNat 1 fun _ => 0)) r.2 →
      Serves m Prod.snd (ciaRet cia ciaIn ciaOut 0 >>= fun ea => guestToX r.2 ea (if r.1 = .none then 0 else -1)) :=
    fun r later => (kept.trans later).serves (ret_serves r.2 cia ciaIn ciaOut 0 _)
  apply Returns.ite
  · exact fun _ => .bind (romMemCall_serves mem _ _ cia ciaIn ciaOut) finish
  · intro _
    apply Returns.ite
    · exact fun _ => .bind (romMmuCall_serves mem _ _ cia ciaIn) finish
    · exact fun _ => finish (.unsupported, _) (.refl _)

theorem romGetpropData_serves (m : Machine) (lenIn : W32) (dataEa : Option W32) (found : Option Buf × W32) :
    Serves m (fun r => r.2.2) (romGetpropData m lenIn dataEa found) := by
  obtain ⟨_ | data, len⟩ := found
  · exact .pure (.refl m)
  · cases dataEa with
    | none => exact .pure (.refl m)
    | some ea => exact .bind (guestTo_serves m ea data _ 1) fun r kept => .pure kept

theorem romRegLoop_serves (m : Machine) (ea len : W32) (l : List Range) :
    Serves m Prod.snd (romRegLoop m ea len l) := by
  induction l generalizing m ea len with
  | nil => exact .pure (.refl m)
  | cons r ranges ih =>
    apply Returns.ite
    · exact fun _ => .pure (.refl m)
    · refine fun _ => .bind (guestTo_serves m ea (wordBytes r.base) 4 1) ?_
      refine fun first kept => kept.serves (unless_serves ?_)
      apply Returns.ite
      · exact fun _ => .pure (.refl _)
      · refine fun _ => .bind (guestTo_serves first.2 (ea + 4) _ 4 1) fun second more => more.serves (unless_serves ?_)
        exact ih _ _ _

theorem romAvailLoop_serves (m : Machine) (ea len : W32) (l : List Range) :
    Serves m Prod.snd (romAvailLoop m ea len l) := by
  induction l generalizing m ea len with
  | nil => exact .pure (.refl m)
  | cons r ranges ih =>
    refine .read fun _ => .read fun _ => ?_
    apply Returns.ite
    · exact fun _ => .pure (.refl m)
    · refine fun _ => .bind (guestTo_serves m ea (wordBytes r.base) 4 1) ?_
      refine fun first kept => kept.serves (unless_serves ?_)
      apply Returns.ite
      · exact fun _ => .pure (.refl _)
      · refine fun _ => .bind (guestTo_serves first.2 (ea + 4) _ 4 1) fun second more => more.serves (unless_serves ?_)
        exact ih _ _ _

theorem romGetpropEx_serves (fuel : ℕ) (d : Dtb) (memoryNode : W32) (m : Machine) (node : W32) (name : Buf)
    (lenIn : W32)
    (dataEa : Option W32) : Serves m (fun r => r.2.2) (romGetpropEx fuel d memoryNode m node name lenIn dataEa) := by
  apply Returns.ite
  · exact fun _ => .read fun found => romGetpropData_serves m lenIn dataEa found
  intro _
  apply Returns.ite
  · intro _
    cases dataEa with
    | none => exact .pure (.refl m)
    | some ea => exact .bind (romRegLoop_serves m ea _ _) fun r kept => .pure kept
  intro _
  apply Returns.ite
  · intro _
    cases dataEa with
    | none => exact .pure (.refl m)
    | some ea => exact .bind (romAvailLoop_serves m ea _ _) fun r kept => .pure kept
  · exact fun _ => .read fun found => romGetpropData_serves m lenIn dataEa found

theorem romGetpropOf_serves (fuel : ℕ) (d : Dtb) (memoryNode : W32) (m : Machine) (phandle : W32) (name : Buf)
    (lenIn : W32) (dataEa : Option W32) :
    Serves m (fun r => r.2.2) (romGetpropOf fuel d memoryNode m phandle name lenIn dataEa) := by
  apply Returns.ite
  · exact fun _ => .pure (.refl m)
  · exact fun _ => romGetpropEx_serves fuel d memoryNode m _ name lenIn dataEa

theorem romGetprop_serves (fuel : ℕ) (d : Dtb) (memoryNode : W32) (m : Machine) (cia ciaIn ciaOut : W32) :
    Serves m Prod.snd (romGetprop fuel d memoryNode m cia ciaIn ciaOut) := by
  apply Returns.read
  rintro ⟨err, phandle⟩
  apply unless_serves
  apply Returns.read
  rintro ⟨err, propEa⟩
  apply unless_serves
  apply Returns.read
  rintro ⟨err, dataEa⟩
  apply unless_serves
  apply Returns.read
  rintro ⟨err, lenIn⟩
  apply unless_serves
  apply Returns.read
  intro p
  have kept := Effect.setXferBuf m p
  refine .bind (romGetpropOf_serves fuel d memoryNode (m.setXferBuf p) phandle p lenIn (some dataEa)) ?_
  rintro ⟨err, lenOut, v⟩ later
  exact (kept.trans later).serves (unless_serves (ret_serves v cia ciaIn ciaOut 0 lenOut))

theorem romGetproplen_serves (fuel : ℕ) (d : Dtb) (memoryNode : W32) (m : Machine) (cia ciaIn ciaOut : W32) :
    Serves m Prod.snd (romGetproplen fuel d memoryNode m cia ciaIn ciaOut) := by
  apply Returns.read
  rintro ⟨err, phandle⟩
  apply unless_serves
  apply Returns.read
  rintro ⟨err, propEa⟩
  apply unless_serves
  apply Returns.read
  intro p
  have kept := Effect.setXferBuf m p
  refine .bind (romGetpropOf_serves fuel d memoryNode (m.setXferBuf p) phandle p 0 none) ?_
  rintro ⟨err, lenOut, v⟩ later
  exact (kept.trans later).serves (unless_serves (ret_serves v cia ciaIn ciaOut 0 lenOut))

theorem romOpen_serves (opening : OpenEnv) (m : Machine) (cia ciaIn ciaOut : W32) :
    Serves m Prod.snd (romOpen opening m cia ciaIn ciaOut) := by
  apply Returns.read
  rintro ⟨err, pathEa⟩
  apply unless_serves
  apply Returns.read
  rintro ⟨count, buf⟩
  apply Returns.read
  intro _
  apply Returns.read
  rintro ⟨err, ihandle, os, knownIhandles⟩
  exact (Effect.quiet m os knownIhandles _).serves (ret_serves _ cia ciaIn ciaOut 0 _)

theorem romClose_serves (m : Machine) (cia ciaIn : W32) : Serves m Prod.snd (romClose m cia ciaIn) := by
  apply Returns.read
  rintro ⟨err, ihandle⟩
  apply unless_serves
  cases romMethodsByIhandle m.rom.knownIhandles ihandle with
  | none => exact .pure (.refl m)
  | some device =>
    apply Returns.ite
    · exact fun _ => .pure (.quiet m m.os _ m.rom.xferBuf)
    · exact fun _ => .pure (.refl m)

theorem romSeek_serves (m : Machine) (cia ciaIn ciaOut : W32) : Serves m Prod.snd (romSeek m cia ciaIn ciaOut) := by
  apply Returns.read
  rintro ⟨err, ihandle⟩
  apply unless_serves
  apply Returns.read
  rintro ⟨err, offHi⟩
  apply unless_serves
  apply Returns.read
  rintro ⟨err, offLo⟩
  apply unless_serves
  apply Returns.read
  intro _
  cases (romMethodsByIhandle m.rom.knownIhandles ihandle).bind (Device.seek m.os offLo) with
  | none => exact ret_serves m cia ciaIn ciaOut 0 _
  | some moved =>
    obtain ⟨err, device, os⟩ := moved
    exact (Effect.quiet m os _ m.rom.xferBuf).serves (ret_serves _ cia ciaIn ciaOut 0 _)

theorem romReadLoop_serves (m : Machine) (device : Device) (dataEa lenIn : W32) :
    Serves m (fun r => r.2.2.2) (romReadLoop m device dataEa lenIn) := by
  induction measure : lenIn.toNat using Nat.strong_induction_on generalizing m device dataEa lenIn with
  | _ _ ih =>
  subst measure
  rw [romReadLoop]
  split
  · exact .pure (.refl m)
  · rename_i more
    apply Returns.read
    intro _
    generalize device.read m.os m.rom.xferBuf (xferAt dataEa lenIn) = moved
    obtain ⟨xferred, xferBuf, device, os⟩ := moved
    have kept := Effect.quiet m os m.rom.knownIhandles xferBuf
    refine .bind (guestTo_serves _ dataEa xferBuf xferred 1) ?_
    rintro ⟨err, v⟩ later
    have now := kept.trans later
    apply Returns.ite
    · exact fun _ => .pure now
    · intro _
      split
      · exact .pure now
      · rename_i whole
        exact now.serves (ih _ (xferAt_decreases more whole) _ _ _ _ rfl)

theorem romWriteLoop_serves (m : Machine) (device : Device) (dataEa lenIn : W32) :
    Serves m (fun r => r.2.2.2) (romWriteLoop m device dataEa lenIn) := by
  induction measure : lenIn.toNat using Nat.strong_induction_on generalizing m device dataEa lenIn with
  | _ _ ih =>
  subst measure
  rw [romWriteLoop]
  split
  · exact .pure (.refl m)
  · rename_i more
    apply Returns.read
    rintro ⟨err, xferBuf⟩
    have fetched := Effect.setXferBuf m xferBuf
    apply Returns.ite
    · exact fun _ => .pure fetched
    · intro _
      apply Returns.read
      intro _
      dsimp only
      generalize device.write _ xferBuf (xferAt dataEa lenIn) = moved
      obtain ⟨xferred, device, os⟩ := moved
      have now := Effect.quiet m os m.rom.knownIhandles xferBuf
      split
      · exact .pure now
      · rename_i whole
        exact now.serves (ih _ (xferAt_decreases more whole) _ _ _ _ rfl)

theorem romTransfer_serves {loop : Machine → Device → W32 → W32 → Checked (Err × W32 × Device × Machine)}
    {store : Machine → W32 → W32 → Checked (Err × Machine)}
    (serves : ∀ m device dataEa lenIn, Serves m (fun r => r.2.2.2) (loop m device dataEa lenIn))
    (stores : ∀ m ea result, Serves m Prod.snd (store m ea result)) (m : Machine) (cia ciaIn ciaOut : W32) :
    Serves m Prod.snd (romTransfer loop store m cia ciaIn ciaOut) := by
  apply Returns.read
  rintro ⟨err, ihandle⟩
  apply unless_serves
  apply Returns.read
  rintro ⟨err, dataEa⟩
  apply unless_serves
  apply Returns.read
  rintro ⟨err, lenIn⟩
  apply unless_serves
  cases romMethodsByIhandle m.rom.knownIhandles ihandle with
  | none => exact .read fun ea => stores m ea _
  | some device =>
    refine .bind (serves m device dataEa lenIn) ?_
    rintro ⟨err, left, device, v⟩ kept
    have now := kept.trans (Effect.quiet v v.os (updateHandle ihandle device v.rom.knownIhandles) v.rom.xferBuf)
    exact now.serves (.read fun ea => stores _ ea _)

/-- Every service serves the guest. -/
theorem ofTree_serves (env : CifEnv) (tvSec tvUsec : W32) (handler : CifHandler) (m : Machine)
    (cia ciaIn ciaOut : W32) : Serves m Prod.snd ((env.ofTree tvSec tvUsec).handler handler m cia ciaIn ciaOut) := by
  cases handler with
  | child => exact romNavigate_serves _ _ m cia ciaIn ciaOut
  | peer => exact romNavigate_serves _ _ m cia ciaIn ciaOut
  | parent => exact romNavigate_serves _ _ m cia ciaIn ciaOut
  | itopackage => exact romItopackage_serves _ _ m cia ciaIn ciaOut
  | itopath => exact romTopath_serves _ _ _ m cia ciaIn ciaOut
  | finddevice => exact romFinddevice_serves _ m cia ciaIn ciaOut
  | getprop => exact romGetprop_serves _ _ _ m cia ciaIn ciaOut
  | getproplen => exact romGetproplen_serves _ _ _ m cia ciaIn ciaOut
  | openDevice => exact romOpen_serves _ m cia ciaIn ciaOut
  | seek => exact romSeek_serves m cia ciaIn ciaOut
  | close => exact romClose_serves m cia ciaIn
  | write => exact romTransfer_serves romWriteLoop_serves storeResult_serves m cia ciaIn ciaOut
  | read => exact romTransfer_serves romReadLoop_serves guestToX_serves m cia ciaIn ciaOut
  | claim => exact romClaim_serves _ m cia ciaIn ciaOut
  | shutdown => exact .ok (.refl m)
  | milliseconds => exact romMilliseconds_serves _ _ m cia ciaIn ciaOut
  | callmethod => exact romCallmethod_serves _ m cia ciaIn ciaOut
  | ptopath => exact romTopath_serves (fun ph => return romNodeOffsetByPhandle ph) _ _ m cia ciaIn ciaOut

/-- How `rom_call` ends: with an error for its caller, or with r3 and the PC set for the guest. -/
inductive CallEnds (m : Machine) : Err → Machine → Prop
  | failed {err : Err} {v : Machine} : err ≠ .none → Effect m v → CallEnds m err v
  | returned {r3 : W32} {v : Machine} : r3 = 0 ∨ r3 = -1 → Effect m v →
      CallEnds m .none ((v.setR 3 r3).setPC (v.setR 3 r3).regs.ppcLR)

theorem romCallDone_ends {err : Err} (kept : Effect m v) : CallEnds m (romCallDone err v).1 (romCallDone err v).2 := by
  refine .returned ?_ kept
  split
  · exact .inl rfl
  · exact .inr rfl

theorem romCallBy_ends {handler : CifHandler → Handler}
    (serves : ∀ h m cia ciaIn ciaOut, Serves m Prod.snd (handler h m cia ciaIn ciaOut)) (m : Machine) :
    Returns (romCallBy handler m) fun r => CallEnds m r.1 r.2 := by
  apply Returns.read
  rintro ⟨err, pc⟩
  apply Returns.ite
  · exact fun _ => .pure (.failed (show Err.notRomCall ≠ Err.none by decide) (.refl m))
  intro _
  apply Returns.ite
  · exact fun _ => .pure (.failed (show Err.notRomCall ≠ Err.none by decide) (.refl m))
  intro _
  apply Returns.read
  rintro ⟨err, serviceEa⟩
  apply Returns.ite
  · exact fun _ => .pure (romCallDone_ends (.refl m))
  intro _
  apply Returns.read
  rintro ⟨err, inCount⟩
  apply Returns.ite
  · exact fun _ => .pure (romCallDone_ends (.refl m))
  intro _
  apply Returns.read
  rintro ⟨err, outCount⟩
  apply Returns.ite
  · exact fun _ => .pure (romCallDone_ends (.refl m))
  intro _
  apply Returns.read
  intro service
  cases handlers.find? fun h => strcmpEq h.1 service with
  | none => exact .pure (.failed (show Err.unsupported ≠ Err.none by decide) (.refl m))
  | some h =>
    refine .bind (serves h.2 m _ inCount outCount) ?_
    rintro ⟨err, v⟩ kept
    apply Returns.ite
    · rintro (rfl | rfl)
      · exact .pure (.failed (show Err.shutdown ≠ Err.none by decide) kept)
      · exact .pure (.failed (show Err.pause ≠ Err.none by decide) kept)
    · exact fun _ => .pure (romCallDone_ends kept)

end ToyHv

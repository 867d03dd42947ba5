import Arm64Baremetal.SeeMmu
import Arm64Baremetal.TableBudget

/-!
The address spaces of the two cores. Both walk the same tables, but MAIR_EL1 is set up once
on each core, in EL3, and serves the kernel and SEEOS.
-/

set_option autoImplicit false

namespace Arm64
open Runs Stage1

/-- What the linker decides about the regions and the tables of the three levels. The boot
code runs at physical addresses and sees its own symbols there. -/
structure BootImage extends KernelImage where
  kernelStart : Word
  kernelEnd : Word
  kernelStack : Word
  seeosStart : Word
  el3 : TableArea Unit
  el3Slots : el3.slots = 12
  see : TableArea Unit
  seeSlots : see.slots = 64
  rootAddr : ∀ r, descAddr (tables.root r) = tables.root r
  seeRootAddr : descAddr (see.root ()) = see.root ()
  endAfterStart : kernelStart.toNat ≤ kernelEnd.toNat
  stackAfterEnd : kernelEnd.toNat ≤ kernelStack.toNat
  stackLow : kernelStack.toNat < 2 ^ 31
  seeosLow : seeosStart.toNat < 2 ^ 31

/-- page_pool and pool_ptr with the roots, and mmu_lock -/
structure KernelMmu where
  tables : Tables
  mmuLock : Word

def Tables.bss : Tables where
  mem _ _ := 0
  used := 0
  ranOut := false

namespace BootImage
variable (img : BootImage)

/-- The calls of kernel_setup_mmu, which run with the MMU off: map_region and map_page_4k. -/
def setupCalls : List (MapCall KernelRoot) :=
  let kSize := img.kernelEnd - img.kernelStart
  let sSize := img.kernelStack - img.kernelEnd
  let text := protNormalMem ||| apEl0NoElxRw ||| pteUxn
  let data := protNormalMem ||| apEl0NoElxRw ||| pteUxn ||| ptePxn
  let device := protDevice ||| pteUxn ||| ptePxn ||| apEl0NoElxRw
  [.mapRegionVirtual .userL1 img.kernelStart img.kernelStart kSize text,
    .mapRegionVirtual .kernelL1 img.kernelStart img.kernelStart kSize text,
    .mapRegionVirtual .userL1 img.kernelEnd img.kernelEnd sSize data,
    .mapRegionVirtual .kernelL1 img.kernelEnd img.kernelEnd sSize data,
    .mapPageVirtual .kernelL1 (kernelVirtBase + uartBase) uartBase
      (protDeviceNgnre ||| pteUxn ||| ptePxn ||| apEl0RwElxRw),
    .mapRegionVirtual .kernelL1 (gicdBase + kernelVirtBase) gicdBase 0x10000 device,
    .mapRegionVirtual .kernelL1 (gicrBase + kernelVirtBase) gicrBase 0x80000 device,
    .mapRegionVirtual .kernelL1 (gitsBase + kernelVirtBase) gitsBase 0x20000 device,
    .mapRegionVirtual .userL1 smemBuffer smemBuffer 0x200000
      (protNormalNc ||| apEl0NoElxRw ||| pteUxn ||| ptePxn)]

def kernelTcr : Word := tcrEl1T0sz032 ||| tcrEl1T1sz32 ||| tcrTg04kb ||| tcrSh0InnerShareable |||
  tcrOrgn0NormalMemoryOwbraWac ||| tcrIrgn0NormalMemoryIwbraWac ||| tcrTg14kb |||
  tcrSh1InnerShareable ||| tcrOrgn1NormalMemoryOwbraWac ||| tcrIrgn1NormalMemoryIwbraWac

def kernelSetupTables (m : Tables) : Tables :=
  exec (mapCallAt img.tables 0)
    { m with mem := Function.update m.mem (img.tables.root .kernelL1) fun _ => 0, used := 0 }
    img.setupCalls

def kernelSetupMmu (k : KernelMmu) (regs : MmuRegs) : KernelMmu × MmuRegs :=
  ({ tables := img.kernelSetupTables k.tables, mmuLock := 0 },
    { regs with
      tcrEl1 := kernelTcr
      ttbr0El1 := img.tables.root .userL1
      ttbr1El1 := img.tables.root .kernelL1
      sctlrEl1 := regs.sctlrEl1 ||| (sctlrM ||| sctlrC ||| sctlrI ||| sctlrSa ||| sctlrSa0) })

/-- What follows `while (mmu_lock);` in seccore_setup_mmu. -/
def seccoreSetupMmu (regs : MmuRegs) : MmuRegs :=
  { regs with
    tcrEl1 := kernelTcr
    ttbr0El1 := img.tables.root .userL1
    ttbr1El1 := img.tables.root .kernelL1
    sctlrEl1 := regs.sctlrEl1 ||| (sctlrM ||| sctlrC ||| sctlrI ||| sctlrSa ||| sctlrSa0) }

/-- The registers of the primary core in the kernel, from any values at reset. -/
def primary (s : El3Mmu) (k : KernelMmu) (regs : MmuRegs) : MmuRegs :=
  (img.kernelSetupMmu k (setupMmu img.el3 s regs).2).2

def secondary (regs : MmuRegs) : MmuRegs := img.seccoreSetupMmu (setupMmuSecondary img.el3 regs)

end BootImage

theorem or_getLsbD_zero (w b : Word) (hb : b.getLsbD 0 = true) : (w ||| b).getLsbD 0 = true := by
  rw [BitVec.getLsbD_or,hb,Bool.or_true]

section Cores
variable (img : BootImage) (s : El3Mmu) (k : KernelMmu) (regs regs' : MmuRegs)

theorem kernel_sameWalk :
    Regime.SameWalk (img.primary s k regs).el1 (img.secondary regs').el1 where
  on := or_getLsbD_zero _ _ (by decide)
  on' := or_getLsbD_zero _ _ (by decide)
  tcr := rfl
  ttbr0 := rfl
  ttbr1 := rfl

theorem see_sameWalk : Regime.SameWalk (seeosEnableMmu img.see (img.primary s k regs)).el1
    (seeosEnableMmu img.see (img.secondary regs')).el1 where
  on := or_getLsbD_zero _ _ (by decide)
  on' := or_getLsbD_zero _ _ (by decide)
  tcr := rfl
  ttbr0 := rfl
  ttbr1 := rfl

/-- On any tables, the cores differ where the entry's AttrIndx is ATTR_I_NORMAL_NC. -/
theorem sameWalk_attr {r r' : Regime} (h : r.SameWalk r')
    (hmair : r.mair = (setupMmu img.el3 s regs).2.mairEl1)
    (hmair' : r'.mair = (setupMmuSecondary img.el3 regs').mairEl1) (mem : TableMem) (va : Word) :
    r'.translate mem va = r.translate mem va ↔
      ∀ e, r.entry mem va = some e → e.attrIndx ≠ attrINormalNc.toNat := by
  rw [h.translate_eq_iff mem va,hmair,hmair']
  exact forall₂_congr fun e _ => setupMmu_attr img.el3 s regs regs' e.attrIndx_lt

theorem kernel_agree_iff (mem : TableMem) (va : Word) :
    (img.secondary regs').el1.translate mem va = (img.primary s k regs).el1.translate mem va ↔
      ∀ e, (img.primary s k regs).el1.entry mem va = some e → e.attrIndx ≠ attrINormalNc.toNat :=
  sameWalk_attr img s regs regs' (kernel_sameWalk img s k regs regs') rfl rfl mem va

theorem see_agree_iff (mem : TableMem) (va : Word) :
    (seeosEnableMmu img.see (img.secondary regs')).el1.translate mem va =
        (seeosEnableMmu img.see (img.primary s k regs)).el1.translate mem va ↔
      ∀ e, (seeosEnableMmu img.see (img.primary s k regs)).el1.entry mem va = some e →
        e.attrIndx ≠ attrINormalNc.toNat :=
  sameWalk_attr img s regs regs' (see_sameWalk img s k regs regs') rfl rfl mem va

end Cores

section Walks

theorem lookup_walk (mem : TableMem) (root va : Word) :
    (lookup mem (vaAddr va) 2 root).map Entry.desc = walk mem root va := by
  have h1 : index 2 (vaAddr va) = l1Idx va := rfl
  have h2 : index 1 (vaAddr va) = l2Idx va := rfl
  have h3 : index 0 (vaAddr va) = l3Idx va := rfl
  simp only [lookup,walk,leafOf,descAddr,addrMask,h1,h2,h3,apply_ite (Option.map Entry.desc),
    Option.map_some,Option.map_none,Nat.zero_lt_two,Nat.one_lt_two,and_true]
  rfl

theorem entry_walk {r : Regime} {high : Bool} {root va : Word} (mem : TableMem)
    (hhigh : va.getLsbD 55 = high) (htsz : r.tsz high = 32) (hbase : r.base high = root)
    (hva : InRegion 32 high va) :
    (r.entry mem va).map Entry.desc = (walk mem root va).filter fun d => d.getLsbD 10 := by
  have haddr : BitVec.ofNat 64 (va.toNat % 2 ^ (64 - 32)) = vaAddr va := by
    apply BitVec.eq_of_toNat_eq
    rw [vaAddr_toNat,BitVec.toNat_ofNat]
    omega
  rw [Regime.entry_of_region mem hhigh htsz hva,hbase,haddr,← lookup_walk]
  change ((lookup mem (vaAddr va) 2 root).filter Entry.accessed).map Entry.desc = _
  cases lookup mem (vaAddr va) 2 root with
  | none => rfl
  | some e =>
    have hacc : e.accessed = e.desc.getLsbD 10 := rfl
    rw [Option.map_some,Option.filter_some,Option.filter_some,hacc]
    by_cases ha : e.desc.getLsbD 10 = true
    · rw [if_pos ha,if_pos ha,Option.map_some]
    · rw [if_neg ha,if_neg ha,Option.map_none]

end Walks

section Calls

/-- ATTR_I_* of a memory type. -/
def Prot.attrI : Prot → Word
  | .normalMem => attrINormal
  | .normalNc => attrINormalNc
  | .device => attrIDeviceNgnrne
  | .deviceNgnre => attrIDeviceNgnre

/-- A memory type, with other attributes or'ed to it: AP_*, PTE_UXN, PTE_PXN, PTE_NS. -/
def Prot.In (p : Prot) (flags : Word) : Prop :=
  flags &&& 0x0000FFFFFFFFF01C = pteAttrIndx p.attrI ∧ flags &&& p.bits = p.bits

instance (p : Prot) (flags : Word) : Decidable (p.In flags) :=
  inferInstanceAs (Decidable (_ ∧ _))

def MapCall.flags? {ρ : Type} : MapCall ρ → Option Word
  | .mapPageVirtual _ _ _ flags => some flags
  | .mapRegionVirtual _ _ _ _ flags => some flags
  | .unmapRegionVirtual .. => none

def MapCall.HasType {ρ : Type} (p : Prot) (c : MapCall ρ) : Prop := c.flags?.elim False p.In

def MapCall.Typed {ρ : Type} (c : MapCall ρ) : Prop :=
  c.flags?.elim True fun flags => ∃ p : Prot, p.In flags

instance {ρ : Type} (p : Prot) (c : MapCall ρ) : Decidable (c.HasType p) :=
  match c with
  | .mapPageVirtual _ _ _ flags => inferInstanceAs (Decidable (p.In flags))
  | .mapRegionVirtual _ _ _ _ flags => inferInstanceAs (Decidable (p.In flags))
  | .unmapRegionVirtual .. => inferInstanceAs (Decidable False)

instance {ρ : Type} (c : MapCall ρ) : Decidable c.Typed :=
  match c with
  | .mapPageVirtual _ _ _ flags => inferInstanceAs (Decidable (∃ p : Prot, p.In flags))
  | .mapRegionVirtual _ _ _ _ flags => inferInstanceAs (Decidable (∃ p : Prot, p.In flags))
  | .unmapRegionVirtual .. => inferInstanceAs (Decidable True)

theorem Prot.In.unique {p q : Prot} {flags : Word} (hp : p.In flags) (hq : q.In flags) : p = q := by
  have h := hp.1.symm.trans hq.1
  revert h
  cases p <;> cases q <;> decide

theorem Prot.In.desc {p : Prot} {flags d : Word} (h : p.In flags)
    (hd : d &&& ~~~0x0000FFFFFFFFF000 = flags ||| pteTypePage) :
    d.getLsbD 10 = true ∧ (d >>> 2 &&& 7).toNat = p.attrI.toNat := by
  obtain ⟨hattr,hbits⟩ := h
  refine ⟨?_,?_⟩
  · have haf := congrArg (·.getLsbD 10) hbits
    have hd10 := congrArg (·.getLsbD 10) hd
    have hp : p.bits.getLsbD 10 = true := by cases p <;> rfl
    have hmask : (~~~0x0000FFFFFFFFF000 : Word).getLsbD 10 = true := by decide
    simp only [BitVec.getLsbD_and,hp,Bool.and_true] at haf
    simpa only [BitVec.getLsbD_and,BitVec.getLsbD_or,hmask,haf,Bool.and_true,Bool.true_or]
      using hd10
  · have hindx : d &&& 0x1C = pteAttrIndx p.attrI := by
      calc d &&& 0x1C = d &&& ~~~0x0000FFFFFFFFF000 &&& 0x1C := by rw [BitVec.and_assoc]; rfl
        _ = (pteTypePage ||| flags) &&& 0x1C := by rw [hd,BitVec.or_comm]
        _ = flags &&& 0x1C := and_or_low (by decide)
        _ = flags &&& 0x0000FFFFFFFFF01C &&& 0x1C := by rw [BitVec.and_assoc]; rfl
        _ = pteAttrIndx p.attrI &&& 0x1C := by rw [hattr]
        _ = pteAttrIndx p.attrI := by cases p <;> rfl
    have hshift : d >>> 2 &&& (7 : Word) = (d &&& 0x1C) >>> 2 := by
      rw [BitVec.ushiftRight_and_distrib]; rfl
    rw [hshift,hindx]
    cases p <;> rfl

theorem MapCall.sets_flags {ρ : Type} (c : MapCall ρ) (n : Nat) :
    (c.sets n).map Mapping.flags = c.flags?.map (· ||| pteTypePage) := by
  cases c <;> rfl

variable {ρ : Type} [DecidableEq ρ] {A : TableArea ρ} {m : Tables} {cs : List (MapCall ρ)}

theorem MapCall.lastOn_mem {r : ρ} {p : Nat} {c : MapCall ρ} (h : lastOn cs r p = some c) :
    c ∈ cs := List.mem_reverse.mp (List.mem_of_find?_eq_some h)

theorem desc_last (h : Maps A m (exec MapCall.onMap (fun _ _ => none) cs))
    (ht : ∀ c ∈ cs, c.Typed) (key : ρ) (va : Word) :
    (∀ d, ((walk m.mem (A.root key) va).filter fun d => d.getLsbD 10) = some d →
        (d >>> 2 &&& 7).toNat ≠ attrINormalNc.toNat) ↔
      ∀ c, MapCall.lastOn cs key (pageNumber va) = some c → ¬ c.HasType .normalNc := by
  have hwalk := h.walks key va
  rw [MapCall.exec_onMap] at hwalk
  cases hlast : MapCall.lastOn cs key (pageNumber va) with
  | none =>
    rw [hlast,Option.bind_none,Option.map_eq_none_iff] at hwalk
    simp [hwalk]
  | some c =>
    rw [hlast,Option.bind_some] at hwalk
    have hflags := c.sets_flags (pageNumber va)
    rw [← hwalk,Option.map_map] at hflags
    cases hf : c.flags? with
    | none =>
      rw [hf,Option.map_none,Option.map_eq_none_iff] at hflags
      simp [hflags,MapCall.HasType,hf]
    | some flags =>
      have htyped := ht c (MapCall.lastOn_mem hlast)
      rw [MapCall.Typed,hf] at htyped
      obtain ⟨p,hp⟩ := htyped
      rw [hf,Option.map_some] at hflags
      obtain ⟨d,hd,hdf⟩ := Option.map_eq_some_iff.mp hflags
      obtain ⟨hacc,hindx⟩ := hp.desc hdf
      have htype : c.HasType .normalNc ↔ p = .normalNc := by
        rw [MapCall.HasType,hf]
        exact ⟨fun hq => hp.unique hq,fun hq => hq ▸ hp⟩
      rw [hd,Option.filter_some,if_pos hacc]
      simp only [Option.some.injEq,forall_eq',htype,hindx]
      cases p <;> decide

theorem forall_desc {o : Option Entry} {o' : Option Word} (h : o.map Entry.desc = o') :
    (∀ e, o = some e → e.attrIndx ≠ attrINormalNc.toNat) ↔
      ∀ d, o' = some d → (d >>> 2 &&& 7).toNat ≠ attrINormalNc.toNat := by
  subst h
  cases o with
  | none => simp
  | some e => simp [Entry.attrIndx]

end Calls

section Views
variable (img : BootImage) (s : El3Mmu) (k : KernelMmu) (regs regs' : MmuRegs)

def viewRoot (va : Word) : Option KernelRoot :=
  if va.toNat < 2 ^ 32 then some .userL1
  else if 2 ^ 64 ≤ va.toNat + 2 ^ 32 then some .kernelL1
  else none

theorem bit_55 (va : Word) : va.getLsbD 55 = decide (va.toNat / 2 ^ 55 % 2 = 1) := by
  rw [BitVec.getLsbD,Nat.testBit_eq_decide_div_mod_eq]

theorem bit_55_low {va : Word} (hva : va.toNat < 2 ^ 32) : va.getLsbD 55 = false := by
  rw [bit_55,decide_eq_false_iff_not]
  omega

theorem inRegion_low (va : Word) : InRegion 32 false va ↔ va.toNat < 2 ^ 32 := Iff.rfl

theorem inRegion_high (va : Word) : InRegion 32 true va ↔ 2 ^ 64 ≤ va.toNat + 2 ^ 32 := Iff.rfl

/-- The entry that the kernel's regime finds: in the table for its half of the addresses. -/
theorem view_entry {r : Regime} (htsz : ∀ high, r.tsz high = 32)
    (hbase : ∀ high, r.base high = img.tables.root (if high then .kernelL1 else .userL1))
    (mem : TableMem) (va : Word) : (r.entry mem va).map Entry.desc =
      (viewRoot va).bind fun key =>
        (walk mem (img.tables.root key) va).filter fun d => d.getLsbD 10 := by
  have hva := va.isLt
  unfold viewRoot
  by_cases hl : va.toNat < 2 ^ 32
  · rw [if_pos hl]
    exact entry_walk mem (bit_55_low hl) (htsz false) (hbase false) ((inRegion_low va).mpr hl)
  rw [if_neg hl]
  by_cases hh : 2 ^ 64 ≤ va.toNat + 2 ^ 32
  · have hbit : va.getLsbD 55 = true := by
      rw [bit_55,decide_eq_true_iff]
      omega
    rw [if_pos hh]
    exact entry_walk mem hbit (htsz true) (hbase true) ((inRegion_high va).mpr hh)
  · have hnone : r.entry mem va = none := by
      refine if_neg ?_
      rw [htsz]
      cases va.getLsbD 55 with
      | false => rwa [inRegion_low]
      | true => rwa [inRegion_high]
    rw [hnone,if_neg hh]
    rfl

theorem kernelTcr_tsz {r : Regime} (h : r.tcr = BootImage.kernelTcr) (high : Bool) :
    r.tsz high = 32 := by
  rw [Regime.tsz,h]
  cases high <;> decide

theorem primary_base (high : Bool) : (img.primary s k regs).el1.base high =
    img.tables.root (if high then .kernelL1 else .userL1) := by
  cases high with
  | false => exact img.rootAddr .userL1
  | true => exact img.rootAddr .kernelL1

theorem kernel_entry_last {m : Tables} {cs : List (MapCall KernelRoot)}
    (hm : Maps img.tables m (exec MapCall.onMap (fun _ _ => none) cs)) (ht : ∀ c ∈ cs, c.Typed)
    (va : Word) :
    (∀ e, (img.primary s k regs).el1.entry m.mem va = some e →
        e.attrIndx ≠ attrINormalNc.toNat) ↔
      ∀ r, viewRoot va = some r → ∀ c, MapCall.lastOn cs r (pageNumber va) = some c →
        ¬ c.HasType .normalNc := by
  rw [forall_desc (view_entry img (kernelTcr_tsz rfl) (primary_base img s k regs) m.mem va)]
  cases viewRoot va with
  | none => simp
  | some key => simp only [Option.bind_some,desc_last hm ht,Option.some.injEq,forall_eq']

theorem see_entry_last {m : Tables} {cs : List (MapCall Unit)}
    (hm : Maps img.see m (exec MapCall.onMap (fun _ _ => none) cs)) (ht : ∀ c ∈ cs, c.Typed)
    {va : Word} (hva : va.getLsbD 55 = false) :
    (∀ e, (seeosEnableMmu img.see (img.primary s k regs)).el1.entry m.mem va = some e →
        e.attrIndx ≠ attrINormalNc.toNat) ↔
      (va.toNat < 2 ^ 32 → ∀ c, MapCall.lastOn cs () (pageNumber va) = some c →
        ¬ c.HasType .normalNc) := by
  have hlow : (seeosEnableMmu img.see (img.primary s k regs)).el1.tsz false = 32 := by
    change max 16 ((tcrEl1T0sz032 ||| tcrTg04kb ||| tcrSh0InnerShareable |||
      tcrIrgn0NormalMemoryIwbraWac ||| tcrOrgn0NormalMemoryOwbraWac) &&& 0x3F).toNat = 32
    decide
  by_cases hlt : va.toNat < 2 ^ 32
  · rw [forall_desc (entry_walk m.mem hva hlow img.seeRootAddr ((inRegion_low va).mpr hlt)),
      desc_last hm ht]
    exact ⟨fun h _ => h,fun h => h hlt⟩
  · have hnone : (seeosEnableMmu img.see (img.primary s k regs)).el1.entry m.mem va = none := by
      refine if_neg ?_
      rw [hva,hlow,inRegion_low]
      exact hlt
    rw [hnone]
    exact ⟨fun _ h => absurd h hlt,fun _ _ => nofun⟩

end Views

section Built
variable (img : BootImage)

/-- Calls with the MMU off, and then with the MMU on. -/
def BootImage.kernelRun (pre post : List (MapCall KernelRoot)) : Tables :=
  exec (mapCall img.tables) (exec (mapCallAt img.tables 0) Tables.bss pre) post

def BootImage.seeRun (cs : List SeeCall) : Tables := exec (seeCall img.see) Tables.bss cs

theorem kernelSetupTables_eq :
    img.kernelSetupTables Tables.bss = img.kernelRun img.setupCalls [] := by
  simp [BootImage.kernelSetupTables,BootImage.kernelRun,Tables.bss]

theorem seeosInitMmuGlobal_eq : seeosInitMmuGlobal img.see img.seeosStart Tables.bss =
    img.seeRun (seeosInitCalls img.seeosStart) := by
  simp [seeosInitMmuGlobal,BootImage.seeRun,Tables.bss,memZeroTable]

theorem kernelRun_maps {pre post : List (MapCall KernelRoot)} (hl : ∀ c ∈ pre ++ post, c.Legal)
    (hr : (img.kernelRun pre post).ranOut = false) : Maps img.tables (img.kernelRun pre post)
      (exec MapCall.onMap (fun _ _ => none) (pre ++ post)) := by
  have hpre : (exec (mapCallAt img.tables 0) Tables.bss pre).ranOut = false := by
    rw [BootImage.kernelRun,← mapCallAt_virtual] at hr
    exact exec_mapCallAt_ranOut hr
  have hbss : Maps img.tables Tables.bss fun _ _ => none := Maps.of_zero fun _ _ => rfl
  rw [exec_append]
  exact (hbss.execAt (fun c hc => hl c (by simp [hc])) hpre).exec
    (fun c hc => hl c (by simp [hc])) hr

theorem bss_mapperOk {ρ : Type} (A : TableArea ρ) : MapperOk A Tables.bss where
  full := nofun
  ok _ := tablesOk_of_zero fun _ _ => rfl
  zero _ _ _ := rfl

theorem seeRun_maps {cs : List SeeCall} (hl : ∀ c ∈ cs, c.toMapCall.Legal)
    (hr : (img.seeRun cs).ranOut = false) : Maps img.see (img.seeRun cs)
      (exec MapCall.onMap (fun _ _ => none) (cs.map SeeCall.toMapCall)) := by
  have hbss : Maps img.see Tables.bss fun _ _ => none := Maps.of_zero fun _ _ => rfl
  rw [BootImage.seeRun,exec_seeCall (bss_mapperOk img.see)] at hr ⊢
  exact hbss.execAt (by simpa using hl) hr

theorem setupCalls_ok : ∀ c ∈ img.setupCalls, c.Legal ∧ c.Typed := by
  have hstart := img.endAfterStart
  have hend := img.stackAfterEnd
  have hstack := img.stackLow
  have hk : (img.kernelEnd - img.kernelStart).toNat =
      img.kernelEnd.toNat - img.kernelStart.toNat := BitVec.toNat_sub_of_le hstart
  have hs : (img.kernelStack - img.kernelEnd).toNat =
      img.kernelStack.toNat - img.kernelEnd.toNat := BitVec.toNat_sub_of_le hend
  have hregion : ∀ (r : KernelRoot) (va start size flags : Word),
      start.toNat < 2 ^ 31 → size.toNat < 2 ^ 31 →
      descAddr flags = 0 → (∃ p : Prot, p.In flags) →
      (MapCall.mapRegionVirtual r va start size flags).Legal ∧
        (MapCall.mapRegionVirtual r va start size flags).Typed := by
    intro r va start size flags hlow hsize hf hp
    refine ⟨⟨hsize,?_,hf⟩,hp⟩
    unfold pageTurns
    omega
  intro c hc
  simp only [BootImage.setupCalls,List.mem_cons,List.not_mem_nil,or_false] at hc
  obtain rfl | rfl | rfl | rfl | rfl | rfl | rfl | rfl | rfl := hc
  · exact hregion _ _ _ _ _ (by omega) (by omega) (by decide) (by decide)
  · exact hregion _ _ _ _ _ (by omega) (by omega) (by decide) (by decide)
  · exact hregion _ _ _ _ _ (by omega) (by omega) (by decide) (by decide)
  · exact hregion _ _ _ _ _ (by omega) (by omega) (by decide) (by decide)
  · have htype : ∃ p : Prot, p.In (protDeviceNgnre ||| pteUxn ||| ptePxn ||| apEl0RwElxRw) := by
      decide
    exact ⟨⟨by decide,by decide⟩,htype⟩
  all_goals exact hregion _ _ _ _ _ (by decide) (by decide) (by decide) (by decide)

theorem smem_low {va : Word} (hhi : va.toNat < smemBuffer.toNat + 0x200000) :
    va.toNat < 2 ^ 32 := by
  have hbase : smemBuffer.toNat = 0x40800000 := rfl
  rw [hbase] at hhi
  omega

theorem smem_page {va : Word} {n : Nat} (hlo : smemBuffer.toNat ≤ va.toNat)
    (hhi : va.toNat < smemBuffer.toNat + 4096 * n) (hn : n ≤ 512) :
    pageOffset (smemBuffer &&& ~~~0xFFF) (pageNumber va) < n := by
  have hbase : smemBuffer.toNat = 0x40800000 := rfl
  have hpage : pageNumber (smemBuffer &&& ~~~0xFFF) = 0x40800 := rfl
  have hva : pageNumber va = va.toNat / 4096 := by
    unfold pageNumber
    omega
  rw [pageOffset_of_le (pageNumber_lt va) (by omega)]
  omega

/-- The boot code maps the shared buffer last. -/
theorem setup_lastOn {va : Word} (hlo : smemBuffer.toNat ≤ va.toNat)
    (hhi : va.toNat < smemBuffer.toNat + 0x200000) :
    ∃ c, MapCall.lastOn (img.setupCalls ++ []) .userL1 (pageNumber va) = some c ∧
      c.HasType .normalNc := by
  have htype : Prot.normalNc.In (protNormalNc ||| apEl0NoElxRw ||| pteUxn ||| ptePxn) := by decide
  refine ⟨.mapRegionVirtual .userL1 smemBuffer smemBuffer 0x200000
    (protNormalNc ||| apEl0NoElxRw ||| pteUxn ||| ptePxn),?_,htype⟩
  exact List.find?_cons_of_pos (decide_eq_true ⟨rfl,smem_page hlo hhi (Nat.le_refl 512)⟩)

theorem seeInit_lastOn {va : Word} (hlo : smemBuffer.toNat ≤ va.toNat)
    (hhi : va.toNat < smemBuffer.toNat + 0x1000) :
    ∃ c, MapCall.lastOn ((seeosInitCalls img.seeosStart).map SeeCall.toMapCall) ()
      (pageNumber va) = some c ∧ c.HasType .normalNc := by
  have hbase : smemBuffer.toNat = 0x40800000 := rfl
  have hva : pageNumber va = 0x40800 := by
    unfold pageNumber
    omega
  have htype : Prot.normalNc.In
      (protNormalNc ||| apEl0NoElxRw ||| pteUxn ||| ptePxn ||| pteNs) := by decide
  refine ⟨.mapPageVirtual () smemBuffer smemBuffer
    (protNormalNc ||| apEl0NoElxRw ||| pteUxn ||| ptePxn ||| pteNs),?_,htype⟩
  rw [hva]
  -- the devices that are mapped after the buffer lie elsewhere
  refine (List.find?_cons_of_neg (by decide +kernel)).trans ?_
  refine (List.find?_cons_of_neg (by decide +kernel)).trans ?_
  refine (List.find?_cons_of_neg (by decide +kernel)).trans ?_
  exact List.find?_cons_of_pos (by decide +kernel)

theorem boot_ranOut (hfit : (img.setupCalls.map MapCall.budget).sum ≤ 32) :
    (img.kernelSetupTables Tables.bss).ranOut = false := by
  have hbss : Maps img.tables Tables.bss fun _ _ => none := Maps.of_zero fun _ _ => rfl
  have hfit' : Tables.bss.used + (img.setupCalls.map MapCall.budget).sum ≤ img.tables.slots := by
    rw [img.slots,Tables.bss,Nat.zero_add]
    exact hfit
  have htakes := exec_takes hbss rfl (fun c hc => (setupCalls_ok img c hc).1) hfit' 0
  rw [kernelSetupTables_eq,BootImage.kernelRun,exec_nil]
  exact htakes.2

theorem seeosInitCalls_ok :
    ∀ c ∈ seeosInitCalls img.seeosStart, c.toMapCall.Legal ∧ c.toMapCall.Typed := by
  have hstart := img.seeosLow
  have hregion : ∀ (start size flags : Word), start.toNat < 2 ^ 31 → size.toNat < 2 ^ 31 →
      descAddr flags = 0 → (∃ p : Prot, p.In flags) →
      (SeeCall.seeMapRegion start start size flags).toMapCall.Legal ∧
        (SeeCall.seeMapRegion start start size flags).toMapCall.Typed := by
    intro start size flags hlow hsize hf hp
    refine ⟨⟨hsize,?_,hf⟩,hp⟩
    unfold pageTurns
    omega
  have hpage : ∀ (va flags : Word), va.toNat < 2 ^ 48 → descAddr flags = 0 →
      (∃ p : Prot, p.In flags) → (SeeCall.seeMapPage va va flags).toMapCall.Legal ∧
        (SeeCall.seeMapPage va va flags).toMapCall.Typed :=
    fun va flags hlow hf hp => ⟨⟨hlow,hf⟩,hp⟩
  intro c hc
  simp only [seeosInitCalls,List.mem_cons,List.not_mem_nil,or_false] at hc
  obtain rfl | rfl | rfl | rfl | rfl := hc
  · exact hregion _ _ _ hstart (by decide) (by decide) (by decide)
  · exact hpage _ _ (by decide) (by decide) (by decide)
  · exact hpage _ _ (by decide) (by decide) (by decide)
  · exact hregion _ _ _ (by decide) (by decide) (by decide) (by decide)
  · exact hregion _ _ _ (by decide) (by decide) (by decide) (by decide)

theorem see_boot_ranOut :
    (seeosInitMmuGlobal img.see img.seeosStart Tables.bss).ranOut = false := by
  have hbss : Maps img.see Tables.bss fun _ _ => none := Maps.of_zero fun _ _ => rfl
  have hlegal : ∀ c ∈ (seeosInitCalls img.seeosStart).map SeeCall.toMapCall, c.Legal :=
    List.forall_mem_map.mpr fun c hc => (seeosInitCalls_ok img c hc).1
  have hfit : Tables.bss.used + (((seeosInitCalls img.seeosStart).map SeeCall.toMapCall).map
      MapCall.budget).sum ≤ img.see.slots := by
    have hblocks : blocks (img.seeosStart &&& ~~~0xFFF) 767 ≤ 3 := by
      unfold blocks
      omega
    have hturns : pageTurns 0x300000 = 767 + 1 := rfl
    rw [img.seeSlots,Tables.bss]
    simp only [seeosInitCalls,List.map_cons,List.map_nil,SeeCall.toMapCall,List.sum_cons,
      List.sum_nil,budget_region _ _ _ _ hturns]
    change 0 + (2 * blocks (img.seeosStart &&& ~~~0xFFF) 767 + (2 + (2 + (2 + (2 + 0))))) ≤ 64
    omega
  have htakes := exec_takes hbss rfl hlegal hfit 0
  rw [seeosInitMmuGlobal_eq,BootImage.seeRun,exec_seeCall (bss_mapperOk img.see)]
  exact htakes.2

end Built

section Results
variable (img : BootImage) (s : El3Mmu) (k : KernelMmu) (regs regs' : MmuRegs)

/-- Normal memory, not cacheable, on the primary core is Device-nGnRnE on the secondary. -/
theorem sameWalk_memTypes {r r' : Regime} (h : r.SameWalk r')
    (hmair : r.mair = (setupMmu img.el3 s regs).2.mairEl1)
    (hmair' : r'.mair = (setupMmuSecondary img.el3 regs').mairEl1) {mem : TableMem} {va : Word}
    (he : ¬ ∀ e, r.entry mem va = some e → e.attrIndx ≠ attrINormalNc.toNat) :
    (r.translate mem va).map (·.memType) = some 0x44 ∧
      (r'.translate mem va).map (·.memType) = some 0x00 := by
  simp only [ne_eq,not_forall,not_not] at he
  obtain ⟨e,he,hindx⟩ := he
  rw [Regime.translate,Regime.translate,if_pos h.on,if_pos h.on',h.entry_eq,he,hmair,hmair',
    setupMmu_mair,setupMmuSecondary_mair]
  simp only [Option.map_some,resolve,hindx]
  decide

theorem kernel_smem (hr : (img.kernelRun img.setupCalls []).ranOut = false) {va : Word}
    (hlo : smemBuffer.toNat ≤ va.toNat) (hhi : va.toNat < smemBuffer.toNat + 0x200000) :
    ¬ ∀ e, (img.primary s k regs).el1.entry (img.kernelRun img.setupCalls []).mem va = some e →
      e.attrIndx ≠ attrINormalNc.toNat := by
  have hok : ∀ c ∈ img.setupCalls ++ [],c.Legal ∧ c.Typed := by
    rw [List.append_nil]
    exact setupCalls_ok img
  have hmaps := @kernelRun_maps img img.setupCalls [] (fun c hc => (hok c hc).1) hr
  rw [kernel_entry_last img s k regs hmaps (fun c hc => (hok c hc).2) va]
  intro h
  obtain ⟨c,hlast,htype⟩ := setup_lastOn img hlo hhi
  have hroot : viewRoot va = some .userL1 := if_pos (smem_low hhi)
  exact h .userL1 hroot c hlast htype

theorem see_smem {va : Word} (hlo : smemBuffer.toNat ≤ va.toNat)
    (hhi : va.toNat < smemBuffer.toNat + 0x1000) :
    ¬ ∀ e, (seeosEnableMmu img.see (img.primary s k regs)).el1.entry
        (img.seeRun (seeosInitCalls img.seeosStart)).mem va = some e →
      e.attrIndx ≠ attrINormalNc.toNat := by
  have hr := see_boot_ranOut img
  rw [seeosInitMmuGlobal_eq] at hr
  have hlow := smem_low (Nat.lt_of_lt_of_le hhi (Nat.add_le_add_left (by decide) _))
  have hmaps := seeRun_maps img (fun c hc => (seeosInitCalls_ok img c hc).1) hr
  have htyped : ∀ c ∈ (seeosInitCalls img.seeosStart).map SeeCall.toMapCall, c.Typed :=
    List.forall_mem_map.mpr fun c hc => (seeosInitCalls_ok img c hc).2
  rw [see_entry_last img s k regs hmaps htyped (bit_55_low hlow)]
  intro h
  obtain ⟨c,hlast,htype⟩ := seeInit_lastOn img hlo hhi
  exact h hlow c hlast htype

theorem smem_differs (hfit : (img.setupCalls.map MapCall.budget).sum ≤ 32) {va : Word}
    (hlo : smemBuffer.toNat ≤ va.toNat) (hhi : va.toNat < smemBuffer.toNat + 0x200000) :
    let kernel := (img.kernelSetupTables Tables.bss).mem
    let see := (seeosInitMmuGlobal img.see img.seeosStart Tables.bss).mem
    ((img.primary s k regs).el1.translate kernel va).map (·.memType) = some 0x44 ∧
    ((img.secondary regs').el1.translate kernel va).map (·.memType) = some 0x00 ∧
    (va.toNat < smemBuffer.toNat + 0x1000 →
      ((seeosEnableMmu img.see (img.primary s k regs)).el1.translate see va).map (·.memType) =
          some 0x44 ∧
        ((seeosEnableMmu img.see (img.secondary regs')).el1.translate see va).map (·.memType) =
          some 0x00) := by
  intro kernel see
  have hr := boot_ranOut img hfit
  rw [kernelSetupTables_eq] at hr
  obtain ⟨hkernel,hkernel'⟩ := sameWalk_memTypes img s regs regs'
    (kernel_sameWalk img s k regs regs') rfl rfl (kernel_smem img s k regs hr hlo hhi)
  rw [← kernelSetupTables_eq] at hkernel hkernel'
  refine ⟨hkernel,hkernel',fun hpage => ?_⟩
  have hsee := sameWalk_memTypes img s regs regs' (see_sameWalk img s k regs regs') rfl rfl
    (see_smem img s k regs hlo hpage)
  rwa [← seeosInitMmuGlobal_eq] at hsee

end Results

/-- The cores translate an address alike when the call that mapped its page did not ask for
PROT_NORMAL_NC, and only then. -/
theorem cores_agree_iff (img : BootImage) (s : El3Mmu) (k : KernelMmu) (regs regs' : MmuRegs) :
    let kernel₀ := (img.primary s k regs).el1
    let kernel₁ := (img.secondary regs').el1
    let see₀ := (seeosEnableMmu img.see (img.primary s k regs)).el1
    let see₁ := (seeosEnableMmu img.see (img.secondary regs')).el1
    (∀ mem va,
      (kernel₁.translate mem va = kernel₀.translate mem va ↔
        ∀ e, kernel₀.entry mem va = some e → e.attrIndx ≠ attrINormalNc.toNat) ∧
      (see₁.translate mem va = see₀.translate mem va ↔
        ∀ e, see₀.entry mem va = some e → e.attrIndx ≠ attrINormalNc.toNat)) ∧
    (∀ mem va,
      (kernel₁.translate mem va).map (fun t => (t.pa,t.perms)) =
        (kernel₀.translate mem va).map (fun t => (t.pa,t.perms)) ∧
      (see₁.translate mem va).map (fun t => (t.pa,t.perms)) =
        (see₀.translate mem va).map (fun t => (t.pa,t.perms))) ∧
    (∀ pre post, (∀ c ∈ pre ++ post, c.Legal ∧ c.Typed) →
      (img.kernelRun pre post).ranOut = false → ∀ va,
      (kernel₁.translate (img.kernelRun pre post).mem va =
          kernel₀.translate (img.kernelRun pre post).mem va ↔
        ∀ r, viewRoot va = some r → ∀ c,
          MapCall.lastOn (pre ++ post) r (pageNumber va) = some c → ¬ c.HasType .normalNc)) ∧
    (∀ cs : List SeeCall, (∀ c ∈ cs, c.toMapCall.Legal ∧ c.toMapCall.Typed) →
      (img.seeRun cs).ranOut = false → ∀ va : Word, va.getLsbD 55 = false →
      (see₁.translate (img.seeRun cs).mem va = see₀.translate (img.seeRun cs).mem va ↔
        (va.toNat < 2 ^ 32 → ∀ c,
          MapCall.lastOn (cs.map SeeCall.toMapCall) () (pageNumber va) = some c →
            ¬ c.HasType .normalNc))) := by
  intro kernel₀ kernel₁ see₀ see₁
  refine ⟨fun mem va => ⟨kernel_agree_iff img s k regs regs' mem va,
    see_agree_iff img s k regs regs' mem va⟩,fun mem va =>
    ⟨(kernel_sameWalk img s k regs regs').frame mem va,
      (see_sameWalk img s k regs regs').frame mem va⟩,
    fun pre post hok hr va => ?_,fun cs hok hr va hva => ?_⟩
  · have hmaps := @kernelRun_maps img pre post (fun c hc => (hok c hc).1) hr
    rw [kernel_agree_iff img s k regs regs',
      kernel_entry_last img s k regs hmaps (fun c hc => (hok c hc).2) va]
  · have hmaps := seeRun_maps img (fun c hc => (hok c hc).1) hr
    have htyped : ∀ c ∈ cs.map SeeCall.toMapCall, c.Typed :=
      List.forall_mem_map.mpr fun c hc => (hok c hc).2
    rw [see_agree_iff img s k regs regs',see_entry_last img s k regs hmaps htyped hva]

def testBootImage : BootImage where
  toKernelImage := testKernelImage
  kernelStart := 0x40300000
  kernelEnd := 0x40430000
  kernelStack := 0x40490000
  seeosStart := 0x40090000
  el3 :=
    { root := fun _ => 0x40010000
      pool := 0x40011000
      slots := 12
      poolPage := by decide
      poolLow := by decide
      rootApart := by rintro ⟨⟩; decide
      rootInj := by rintro ⟨⟩ ⟨⟩ _; rfl }
  el3Slots := rfl
  see :=
    { root := fun _ => 0x40100000
      pool := 0x40101000
      slots := 64
      poolPage := by decide
      poolLow := by decide
      rootApart := by rintro ⟨⟩; decide
      rootInj := by rintro ⟨⟩ ⟨⟩ _; rfl }
  seeSlots := rfl
  rootAddr := by rintro (_ | _) <;> decide
  seeRootAddr := by decide
  endAfterStart := by decide
  stackAfterEnd := by decide
  stackLow := by decide
  seeosLow := by decide

def zeroRegs : MmuRegs where
  mairEl3 := 0
  tcrEl3 := 0
  ttbr0El3 := 0
  sctlrEl3 := 0
  mairEl1 := 0
  tcrEl1 := 0
  ttbr0El1 := 0
  ttbr1El1 := 0
  sctlrEl1 := 0

/-- A page that is mapped again as normal memory is the same on both cores. -/
theorem cores_agree_iff_again :
    let pre : List (MapCall KernelRoot) :=
      [.mapRegionVirtual .userL1 smemBuffer smemBuffer 0x2000 protNormalNc]
    let post : List (MapCall KernelRoot) :=
      [.mapPageVirtual .userL1 0x40801000 0x40801000 protNormalMem]
    let mem := (testBootImage.kernelRun pre post).mem
    let see := (testBootImage.seeRun [.seeMapPage smemBuffer smemBuffer protNormalNc]).mem
    let primary := testBootImage.primary ⟨Tables.bss,0⟩ ⟨Tables.bss,1⟩ zeroRegs
    let secondary := testBootImage.secondary zeroRegs
    secondary.el1.translate mem 0x40801000 = primary.el1.translate mem 0x40801000 ∧
      secondary.el1.translate mem smemBuffer ≠ primary.el1.translate mem smemBuffer ∧
      (seeosEnableMmu testBootImage.see secondary).el1.translate see smemBuffer ≠
        (seeosEnableMmu testBootImage.see primary).el1.translate see smemBuffer := by
  intro pre post mem see primary secondary
  obtain ⟨_,_,hkernel,hsee⟩ :=
    cores_agree_iff testBootImage ⟨Tables.bss,0⟩ ⟨Tables.bss,1⟩ zeroRegs zeroRegs
  have hok : ∀ c ∈ pre ++ post, c.Legal ∧ c.Typed := by decide +kernel
  have hr : (testBootImage.kernelRun pre post).ranOut = false := by decide +kernel
  have hlast : MapCall.lastOn (pre ++ post) .userL1 (pageNumber 0x40801000) =
      some (.mapPageVirtual .userL1 0x40801000 0x40801000 protNormalMem) :=
    List.find?_cons_of_pos (by decide +kernel)
  have hlast' : MapCall.lastOn (pre ++ post) .userL1 (pageNumber smemBuffer) =
      some (.mapRegionVirtual .userL1 smemBuffer smemBuffer 0x2000 protNormalNc) :=
    (List.find?_cons_of_neg (by decide +kernel)).trans
      (List.find?_cons_of_pos (by decide +kernel))
  have hmem := hkernel pre post hok hr
  have hcs := hsee [.seeMapPage smemBuffer smemBuffer protNormalNc] (by decide +kernel)
    (by decide +kernel) smemBuffer (by decide)
  refine ⟨(hmem 0x40801000).mpr fun r hr c hc => ?_,fun h => ?_,fun h => ?_⟩
  · have hroot : viewRoot 0x40801000 = some .userL1 := by decide
    obtain rfl := Option.some.inj (hroot.symm.trans hr)
    obtain rfl := Option.some.inj (hlast.symm.trans hc)
    decide
  · exact (hmem smemBuffer).mp h .userL1 (by decide) _ hlast' (by decide)
  · exact hcs.mp h (by decide) (.mapPageVirtual () smemBuffer smemBuffer protNormalNc)
      (List.find?_cons_of_pos (by decide +kernel)) (by decide)

/-- After the boot code of both cores, the shared buffer is Normal memory to one and Device
memory to the other. -/
theorem cores_disagree :
    let kernel := (testBootImage.kernelSetupTables Tables.bss).mem
    let see := (seeosInitMmuGlobal testBootImage.see testBootImage.seeosStart Tables.bss).mem
    let primary := testBootImage.primary ⟨Tables.bss,0⟩ ⟨Tables.bss,1⟩ zeroRegs
    let secondary := testBootImage.secondary zeroRegs
    secondary.el1.translate kernel smemBuffer ≠ primary.el1.translate kernel smemBuffer ∧
      (seeosEnableMmu testBootImage.see secondary).el1.translate see smemBuffer ≠
        (seeosEnableMmu testBootImage.see primary).el1.translate see smemBuffer := by
  intro kernel see primary secondary
  obtain ⟨hprimary,hsecondary,hsee⟩ := smem_differs testBootImage ⟨Tables.bss,0⟩
    ⟨Tables.bss,1⟩ zeroRegs zeroRegs (by decide +kernel) (Nat.le_refl smemBuffer.toNat)
    (by decide)
  obtain ⟨hsee,hsee'⟩ := hsee (by decide)
  refine ⟨fun h => ?_,fun h => ?_⟩
  · rw [← h] at hprimary
    exact absurd (hprimary.symm.trans hsecondary) (by decide)
  · rw [← h] at hsee
    exact absurd (hsee.symm.trans hsee') (by decide)

end Arm64

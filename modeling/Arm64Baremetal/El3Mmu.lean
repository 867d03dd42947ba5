import Arm64Baremetal.KernelMmu
import Arm64Baremetal.Stage1
import Mathlib.Data.Fintype.Basic

set_option autoImplicit false

namespace Arm64

def pteTypeBlock : Word := 1 <<< 0
def pteNs : Word := 1 <<< 5
def pteShOuter : Word := 2 <<< 8
def apEl0RwElxRw : Word := 0x1 <<< 6

def attrIDeviceNgnrne : Word := 0
def attrIDeviceNgnre : Word := 2
def attrINormalNc : Word := 3

def protNormalNc : Word := pteAf ||| pteShInner ||| pteAttrIndx attrINormalNc
def protDevice : Word := pteAf ||| pteShOuter ||| pteAttrIndx attrIDeviceNgnrne
def protDeviceNgnre : Word := pteAf ||| pteShOuter ||| pteAttrIndx attrIDeviceNgnre

inductive Prot where
  | normalMem | normalNc | device | deviceNgnre
  deriving DecidableEq

instance : Fintype Prot where
  elems := {.normalMem,.normalNc,.device,.deviceNgnre}
  complete p := by cases p <;> decide

def Prot.bits : Prot → Word
  | .normalMem => protNormalMem
  | .normalNc => protNormalNc
  | .device => protDevice
  | .deviceNgnre => protDeviceNgnre

def tcrEl1T0sz032 : Word := 32 <<< 0
def tcrEl1T1sz32 : Word := 32 <<< 16
def tcrTg04kb : Word := 0 <<< 14
def tcrTg14kb : Word := 2 <<< 30
def tcrIrgn0NormalMemoryIwbraWac : Word := 1 <<< 8
def tcrOrgn0NormalMemoryOwbraWac : Word := 1 <<< 10
def tcrSh0InnerShareable : Word := 3 <<< 12
def tcrIrgn1NormalMemoryIwbraWac : Word := 1 <<< 24
def tcrOrgn1NormalMemoryOwbraWac : Word := 1 <<< 26
def tcrSh1InnerShareable : Word := 3 <<< 28

def mairDeviceNgnrne : Word := 0x00 <<< 0
def mairRam : Word := 0xFF <<< 8
def mairDeviceNgnre : Word := 0x04 <<< 16
def mairNormalNc : Word := 0x44 <<< 24

def ramBase : Word := 0x40000000
def gicdBase : Word := 0x08000000
def gitsBase : Word := 0x08080000
def gicrBase : Word := 0x080A0000
def uartBase : Word := 0x09000000

structure MmuRegs where
  mairEl3 : Word
  tcrEl3 : Word
  ttbr0El3 : Word
  sctlrEl3 : Word
  mairEl1 : Word
  tcrEl1 : Word
  ttbr0El1 : Word
  ttbr1El1 : Word
  sctlrEl1 : Word

/-- What EL1 and EL0 translate with. -/
def MmuRegs.el1 (s : MmuRegs) : Stage1.Regime where
  sctlr := s.sctlrEl1
  tcr := s.tcrEl1
  ttbr0 := s.ttbr0El1
  ttbr1 := s.ttbr1El1
  mair := s.mairEl1

/-- l1_table, l2_pool and pool_index -/
structure El3Mmu where
  tables : Tables
  mmuReady : Word

def tlbL1Index (x : Word) : Fin 512 := ⟨(x >>> 30 &&& 0x1FF).toNat,and_511_lt _⟩
def tlbL2Index (x : Word) : Fin 512 := ⟨(x >>> 21 &&& 0x1FF).toNat,and_511_lt _⟩

/-- map_block_range, for a size that an int can hold. The product of the two ints wraps. -/
def mapBlockRange (A : TableArea Unit) (start size flags : Word) (m : Tables) : Tables :=
  let l1Table := A.root ()
  let m := ensureTable A 0 l1Table (tlbL1Index start) m
  let l2 := nextTable 0 l1Table (tlbL1Index start) m
  (List.range size.toNat).foldl (fun m i =>
    let addr := start + (BitVec.ofNat 32 i * 0x200000).signExtend 64
    m.store 0 l2 (tlbL2Index addr) (addr ||| flags ||| pteTypeBlock)) m

def setupMmuTables (A : TableArea Unit) (m : Tables) : Tables :=
  let m := { m with mem := Function.update m.mem (A.root ()) fun _ => 0 }
  let m := mapBlockRange A ramBase 6 (protNormalMem ||| apEl0NoElxRw) m
  let m := mapBlockRange A gicdBase 1 (protDevice ||| apEl0NoElxRw ||| pteUxn) m
  let m := mapBlockRange A gicrBase 1 (protDevice ||| apEl0NoElxRw ||| pteUxn) m
  mapBlockRange A uartBase 1 (protDeviceNgnre ||| apEl0NoElxRw ||| pteUxn) m

def el3Tcr : Word := tcrEl1T0sz032 ||| tcrTg04kb ||| tcrIrgn0NormalMemoryIwbraWac |||
  tcrOrgn0NormalMemoryOwbraWac ||| tcrSh0InnerShareable

def setupMmu (A : TableArea Unit) (s : El3Mmu) (regs : MmuRegs) : El3Mmu × MmuRegs :=
  let mair := mairDeviceNgnrne ||| mairRam ||| mairDeviceNgnre ||| mairNormalNc
  ({ tables := setupMmuTables A s.tables, mmuReady := 1 },
    { regs with
      mairEl3 := mair
      mairEl1 := mair
      tcrEl3 := el3Tcr
      ttbr0El3 := A.root ()
      sctlrEl3 := regs.sctlrEl3 ||| (sctlrM ||| sctlrC ||| sctlrI ||| sctlrSa) })

/-- What follows `while (!mmu_ready);` in setup_mmu_secondary. -/
def setupMmuSecondary (A : TableArea Unit) (regs : MmuRegs) : MmuRegs :=
  let mair := mairDeviceNgnrne ||| mairRam ||| mairDeviceNgnre
  { regs with
    mairEl3 := mair
    mairEl1 := mair
    tcrEl3 := el3Tcr
    ttbr0El3 := A.root ()
    sctlrEl3 := regs.sctlrEl3 ||| (sctlrM ||| sctlrC ||| sctlrI ||| sctlrSa) }

theorem setupMmu_mair (A : TableArea Unit) (s : El3Mmu) (regs : MmuRegs) :
    (setupMmu A s regs).2.mairEl1 = 0x4404FF00 := rfl

theorem setupMmuSecondary_mair (A : TableArea Unit) (regs : MmuRegs) :
    (setupMmuSecondary A regs).mairEl1 = 0x0004FF00 := rfl

/-- The registers that EL3 gives the two cores differ in one attribute. -/
theorem setupMmu_attr (A : TableArea Unit) (s : El3Mmu) (regs regs' : MmuRegs) {i : Nat}
    (hi : i < 8) : Stage1.attr (setupMmuSecondary A regs').mairEl1 i =
      Stage1.attr (setupMmu A s regs).2.mairEl1 i ↔ i ≠ attrINormalNc.toNat := by
  have hbytes : ∀ i : Fin 8, Stage1.attr 0x0004FF00 i.val = Stage1.attr 0x4404FF00 i.val ↔
      i.val ≠ attrINormalNc.toNat := by decide
  exact hbytes ⟨i,hi⟩

end Arm64

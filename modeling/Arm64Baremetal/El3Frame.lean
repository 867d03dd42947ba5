import Mathlib.Algebra.Ring.Nat
import Mathlib.Logic.Function.Basic

/-!
The register state of one core below EL3, the trap frame that el3_vector.S
builds from it, and the bits of registers.h that the monitor uses.
-/

set_option autoImplicit false

namespace Arm64

abbrev Word := BitVec 64

abbrev maxCpus : Nat := 10

/-- get_core_id() of a core that has an entry in cpus[]. -/
abbrev CoreId := Fin maxCpus

instance neZero_maxCpus : NeZero maxCpus := ⟨by decide⟩

abbrev GpRegs := Fin 31 → Word

instance neZero_gpRegs : NeZero 31 := ⟨by decide⟩
abbrev VRegs := Fin 32 → Fin 2 → Word

def spsrMEl1h : Word := 0x5
def spsrMEl3h : Word := 0xD
def irqMask : Word := 1 <<< 7
def serrorMask : Word := 1 <<< 8
def debugMask : Word := 1 <<< 9

def rwAarch64 : Word := 1 <<< 10
def eaRoute : Word := 1 <<< 3
def fiqRoute : Word := 1 <<< 2
def nsBit : Word := 1 <<< 0

def sctlrM : Word := 1 <<< 0
def sctlrC : Word := 1 <<< 2
def sctlrSa : Word := 1 <<< 3
def sctlrSa0 : Word := 1 <<< 4
def sctlrI : Word := 1 <<< 12

def esrEcMask (esr : Word) : Word := (esr >>> 26) &&& 0x3F
def ecSmc : Word := 0x17

/-- The EL1 registers that save_context and restore_context move. -/
structure SysRegs where
  sp : Word
  ttbr0 : Word
  ttbr1 : Word
  tcr : Word
  vbar : Word
  sctlr : Word
  deriving DecidableEq

/-- What a core computes with. `pc` is the preferred return address of an
exception taken now, so for an `smc` it is the instruction after it. -/
structure Machine where
  x : GpRegs
  v : VRegs
  fpsr : Word
  fpcr : Word
  pc : Word
  pstate : Word
  sys : SysRegs

/-- PSTATE.M[3:2] is the exception level. -/
def Machine.atEl3 (m : Machine) : Bool := (m.pstate >>> 2) &&& 3 == 3

/-- trap_frame_t, with the 8 bytes of `padding1`, which the assembly uses. -/
structure TrapFrame where
  regs : GpRegs
  spsr : Word
  elr : Word
  esr : Word
  far : Word
  vregs : VRegs
  fpsr : BitVec 32
  fpcr : BitVec 32
  padding1 : Word

namespace El3Vector

/-- Exception entry to EL3 followed by SAVE_CONTEXT. The assembly stores FPSR
and FPCR as two doublewords at offsets 800 and 808; the struct has its two
32-bit fields at 800 and 804, so the field `fpcr` is the top half of FPSR and
the register FPCR lands in `padding1`. -/
def saveContext (m : Machine) (esr far : Word) : TrapFrame where
  regs := m.x
  spsr := m.pstate
  elr := m.pc
  esr := esr
  far := far
  vregs := m.v
  fpsr := m.fpsr.setWidth 32
  fpcr := (m.fpsr >>> 32).setWidth 32
  padding1 := m.fpcr

/-- RESTORE_CONTEXT and its `eret`. The EL1 registers are not in the frame. -/
def restoreContext (f : TrapFrame) (sys : SysRegs) : Machine where
  x := f.regs
  v := f.vregs
  fpsr := f.fpcr ++ f.fpsr
  fpcr := f.padding1
  pc := f.elr
  pstate := f.spsr
  sys := sys

theorem fpsr_halves (w : Word) :
    ((w >>> 32).setWidth 32 : BitVec 32) ++ (w.setWidth 32 : BitVec 32) = w := by
  apply BitVec.eq_of_getElem_eq
  intro i hi
  rw [BitVec.getElem_append]
  split
  · simp only [BitVec.getElem_setWidth,BitVec.getLsbD_eq_getElem hi]
  · have h : 32 + (i - 32) = i := by omega
    simp only [BitVec.getElem_setWidth,BitVec.getLsbD_ushiftRight,h,
      BitVec.getLsbD_eq_getElem hi]

/-- A handler that touches neither its frame nor the EL1 registers is invisible. -/
@[simp] theorem restoreContext_saveContext (m : Machine) (esr far : Word) :
    restoreContext (saveContext m esr far) m.sys = m := by
  cases m
  simp only [restoreContext,saveContext,fpsr_halves]

end El3Vector

/-- Agreement on every register a world can see but FPCR. -/
structure SameState (m n : Machine) : Prop where
  x : m.x = n.x
  v : m.v = n.v
  fpsr : m.fpsr = n.fpsr
  pc : m.pc = n.pc
  pstate : m.pstate = n.pstate
  sys : m.sys = n.sys

/-- Agreement on what a call through the monitor promises to keep: x0..x5 carry
arguments and results, and the flags are the monitor's. -/
structure SameCallState (m n : Machine) : Prop where
  x : ∀ i : Fin 31, 6 ≤ i.val → m.x i = n.x i
  v : m.v = n.v
  fpsr : m.fpsr = n.fpsr
  pc : m.pc = n.pc
  sys : m.sys = n.sys

end Arm64

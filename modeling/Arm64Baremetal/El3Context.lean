import Arm64Baremetal.El3Frame

/-!
cpu_state.h: the two saved contexts of a core, how they are filled and loaded,
and el3_psci.c, which keeps the power table in the same array.
-/

set_option autoImplicit false

namespace Arm64

inductive PowerState where
  | off | on | idle | booting
  deriving DecidableEq

structure Context where
  regs : GpRegs
  sp : Word
  vbar : Word
  ttbr0 : Word
  ttbr1 : Word
  tcr : Word
  sctlr : Word
  elr : Word
  initialized : BitVec 8
  vregs : VRegs
  fpsr : BitVec 32
  fpcr : BitVec 32

structure CpuState where
  state : PowerState
  entryPoint : Word
  contextId : BitVec 8
  nsContext : Context
  sContext : Context

def Context.zero : Context where
  regs _ := 0
  sp := 0
  vbar := 0
  ttbr0 := 0
  ttbr1 := 0
  tcr := 0
  sctlr := 0
  elr := 0
  initialized := 0
  vregs _ _ := 0
  fpsr := 0
  fpcr := 0

def saveContext (sys : SysRegs) (ctx : Context) : Context :=
  { ctx with
    sp := sys.sp
    ttbr0 := sys.ttbr0
    ttbr1 := sys.ttbr1
    tcr := sys.tcr
    vbar := sys.vbar
    sctlr := sys.sctlr
    initialized := 1 }

def restoreContext (ctx : Context) (sys : SysRegs) : SysRegs :=
  if ctx.initialized = 0 then sys
  else
    { sp := ctx.sp
      sctlr := ctx.sctlr
      ttbr0 := ctx.ttbr0
      ttbr1 := ctx.ttbr1
      tcr := ctx.tcr
      vbar := ctx.vbar }

/-- `for (int i = lo; i < 31; i++) dst[i] = src[i];` -/
def copyRegs (lo : Nat) (src dst : GpRegs) : GpRegs :=
  fun i => if lo ≤ i.val then src i else dst i

/-- The copy loops that store a frame into a context, from register `lo` on. -/
def Context.storeFrame (lo : Nat) (f : TrapFrame) (ctx : Context) : Context :=
  { ctx with
    regs := copyRegs lo f.regs ctx.regs
    vregs := f.vregs
    fpsr := f.fpsr
    fpcr := f.fpcr
    elr := f.elr }

/-- The copy loops that load a frame from a context. Every one starts at x6. -/
def TrapFrame.loadContext (ctx : Context) (f : TrapFrame) : TrapFrame :=
  { f with
    regs := copyRegs 6 ctx.regs f.regs
    vregs := ctx.vregs
    fpsr := ctx.fpsr
    fpcr := ctx.fpcr
    spsr := spsrMEl1h
    elr := ctx.elr }

/-- The register state a context stands for, with `x`, `fpcr` and `pstate` as
loadContext and `eret` leave them. -/
def Context.machine (ctx : Context) (x : GpRegs) (fpcr : Word) : Machine where
  x := copyRegs 6 ctx.regs x
  v := ctx.vregs
  fpsr := ctx.fpcr ++ ctx.fpsr
  fpcr := fpcr
  pc := ctx.elr
  pstate := spsrMEl1h
  sys := { sp := ctx.sp, ttbr0 := ctx.ttbr0, ttbr1 := ctx.ttbr1, tcr := ctx.tcr,
           vbar := ctx.vbar, sctlr := ctx.sctlr }

theorem Context.machine_x_low (ctx : Context) (x : GpRegs) (fpcr : Word) {i : Fin 31}
    (hi : i.val < 6) : (ctx.machine x fpcr).x i = x i := if_neg (by omega)

theorem restoreContext_loadContext {ctx : Context} (h : ctx.initialized ≠ 0) (f : TrapFrame)
    (sys : SysRegs) :
    El3Vector.restoreContext (f.loadContext ctx) (restoreContext ctx sys) =
      ctx.machine f.regs f.padding1 := by
  simp only [El3Vector.restoreContext,TrapFrame.loadContext,restoreContext,if_neg h,
    Context.machine]

/-- `ctx` holds the machine state `m`, as far as calls through the monitor keep it. -/
structure Context.Holds (ctx : Context) (m : Machine) : Prop where
  initialized : ctx.initialized ≠ 0
  regs : ∀ i : Fin 31, 6 ≤ i.val → ctx.regs i = m.x i
  vregs : ctx.vregs = m.v
  fpsr : ctx.fpcr ++ ctx.fpsr = m.fpsr
  elr : ctx.elr = m.pc
  sys : (ctx.machine m.x m.fpcr).sys = m.sys

theorem holds_storeFrame {lo : Nat} (hlo : lo ≤ 6) (m : Machine) (esr far : Word)
    (ctx : Context) :
    (saveContext m.sys (ctx.storeFrame lo (El3Vector.saveContext m esr far))).Holds m where
  initialized := by simp [saveContext]
  regs i hi := by
    have h : lo ≤ i.val := by omega
    simp only [saveContext,Context.storeFrame,copyRegs,if_pos h,El3Vector.saveContext]
  vregs := rfl
  fpsr := El3Vector.fpsr_halves m.fpsr
  elr := rfl
  sys := rfl

theorem Context.Holds.sameCallState {ctx : Context} {m : Machine} (h : ctx.Holds m)
    (x : GpRegs) (fpcr : Word) : SameCallState (ctx.machine x fpcr) m where
  x i hi := by simp only [Context.machine,copyRegs,if_pos hi,h.regs i hi]
  v := h.vregs
  fpsr := h.fpsr
  pc := h.elr
  sys := h.sys

/-- Writes of the monitor to devices and to the console, and the SGIs it sends. -/
inductive Io where
  | uart (s : String)
  | gpio (offset val : BitVec 32)
  | gicd (offset val : BitVec 32)
  | waker (core : CoreId) (sleep : Bool)
  | sgi0r (val : Word)
  | eoir0 (iar : BitVec 32)
  deriving DecidableEq

/-- Link addresses, and what a read of cpus[i].state finds past the array. -/
structure Image where
  seeosEntry : Word
  offLoop : Word
  stateBeyond : BitVec 32 → PowerState

/-- What the C code of one handler call works on. -/
structure Monitor where
  frame : TrapFrame
  sys : SysRegs
  scr : Word
  cpus : CoreId → CpuState
  io : List Io

def Monitor.emit (m : Monitor) (i : Io) : Monitor := { m with io := i :: m.io }

def Monitor.setCpu (m : Monitor) (core : CoreId) (c : CpuState) : Monitor :=
  { m with cpus := Function.update m.cpus core c }

def sgiCoreWake : BitVec 8 := 0
def sgiCoreSleep : BitVec 8 := 1

def sendSgi0ToCore (targetCore sgiId : BitVec 8) (m : Monitor) : Monitor :=
  let targetList : Word := if targetCore = 0xFF then 1 <<< 40 else 1 <<< (targetCore.toNat % 64)
  m.emit (.sgi0r (targetList ||| (sgiId.setWidth 64 <<< 24)))

def psciSuccess : BitVec 32 := 0
def psciErrBaddress : BitVec 32 := 1
def psciErrInvalidCpu : BitVec 32 := 2
def psciErrNotSupported : BitVec 32 := 3
def psciErrAlreadyOnline : BitVec 32 := 4
def psciErrCoreBooting : BitVec 32 := 5

def psciFnCpuOn (targetCore : BitVec 32) (entryPoint : Word) (m : Monitor) :
    BitVec 32 × Monitor :=
  if h : targetCore.toNat < maxCpus then
    let target : CoreId := ⟨targetCore.toNat,h⟩
    if entryPoint = 0 ∨ entryPoint &&& 0x3 ≠ 0 then (psciErrBaddress,m)
    else if (m.cpus target).state = .on then (psciErrAlreadyOnline,m)
    else if (m.cpus target).state = .booting then (psciErrCoreBooting,m)
    else
      let m := m.setCpu target { m.cpus target with
        entryPoint := entryPoint, state := .booting, contextId := 0 }
      (psciSuccess,sendSgi0ToCore (targetCore.setWidth 8) sgiCoreWake m)
  else (psciErrInvalidCpu,m)

/-- cpus[targetCore].state for any index: psci_fn_cpu_off does not check it. -/
def Monitor.stateOf (img : Image) (m : Monitor) (targetCore : BitVec 32) : PowerState :=
  if h : targetCore.toNat < maxCpus then (m.cpus ⟨targetCore.toNat,h⟩).state
  else img.stateBeyond targetCore

def psciFnCpuOff (img : Image) (targetCore : BitVec 32) (m : Monitor) : BitVec 32 × Monitor :=
  if m.stateOf img targetCore = .off then (psciErrNotSupported,m)
  else (psciSuccess,sendSgi0ToCore (targetCore.setWidth 8) sgiCoreSleep m)

def gpioPoweroff : BitVec 32 := 0
def gpioRestart : BitVec 32 := 1

/-- Direction to output, the distributor off, then the pin high. The wait for
GICD_CTLR.RWP to clear is taken to end. -/
def psciGpioPulse (pin : BitVec 32) (m : Monitor) : BitVec 32 × Monitor :=
  let m := m.emit (.gpio 0x0400 (1 <<< pin.toNat))
  let m := m.emit (.gicd 0x0000 0)
  (psciSuccess,m.emit (.gpio (0x0000 + (1 <<< pin.toNat) <<< 2) (1 <<< pin.toNat)))

def psciFnSystemReset (m : Monitor) : BitVec 32 × Monitor := psciGpioPulse gpioRestart m
def psciFnSystemPoweroff (m : Monitor) : BitVec 32 × Monitor := psciGpioPulse gpioPoweroff m

end Arm64

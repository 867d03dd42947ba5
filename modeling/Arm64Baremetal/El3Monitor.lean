import Arm64Baremetal.El3Context

/-!
el3_smc_handler.c and el3_exception.c, and the whole monitor as one step of a
machine with a core per entry of cpus[]: a core runs code below EL3, takes a
synchronous exception to EL3, or takes an FIQ to EL3.
-/

set_option autoImplicit false

namespace Arm64

def firmwareWorldId : BitVec 16 := 0x2000
def seeosWorldId : BitVec 16 := 0x1000

def psciCpuOn : BitVec 32 := 0x200000A0
def psciCpuOff : BitVec 32 := 0x200000B0
def psciSystemReset : BitVec 32 := 0x200000D0
def psciSystemPoweroff : BitVec 32 := 0x200000E0
def smcVersion : BitVec 32 := 0x20000010
def smcYield : BitVec 32 := 0x20000020
def smcResume : BitVec 32 := 0x20000030

def seeosPreempted : Word := 0x06
def version : Word := 101

def interruptHpiNsg1 : BitVec 32 := 1021

/-- SCR_EL3 as the monitor writes it for the secure world. -/
def scrSecure : Word := rwAarch64 ||| fiqRoute ||| eaRoute
def scrNonSecure : Word := rwAarch64 ||| fiqRoute ||| eaRoute ||| nsBit

/-- `frame->regs[1] = val` -/
def Monitor.setReg1 (val : Word) (m : Monitor) : Monitor :=
  { m with frame := { m.frame with regs := Function.update m.frame.regs 1 val } }

/-- A PSCI result in x1: int, so sign-extended. -/
def Monitor.setResult (r : BitVec 32 × Monitor) : Monitor := r.2.setReg1 (r.1.signExtend 64)

/-- Save the trapped state as the secure context and load the non-secure one.
SMC_YIELD and el3_jump_to_kernel both do this. -/
def leaveSecure (core : CoreId) (m : Monitor) : Monitor :=
  let s := saveContext m.sys ((m.cpus core).sContext.storeFrame 6 m.frame)
  let m := m.setCpu core { m.cpus core with sContext := s }
  let ns := (m.cpus core).nsContext
  { m with sys := restoreContext ns m.sys, frame := m.frame.loadContext ns, scr := scrNonSecure }

/-- Load the secure context, as SMC_RESUME and a SEEOS call do. -/
def enterSecure (core : CoreId) (m : Monitor) : Monitor :=
  let ctx := (m.cpus core).sContext
  { m with sys := restoreContext ctx m.sys, frame := m.frame.loadContext ctx, scr := scrSecure }

def el3SmcHandler (img : Image) (core : CoreId) (funId : BitVec 32) (m : Monitor) : Monitor :=
  let targetCore := (m.frame.regs 1).setWidth 32
  if funId = psciCpuOn then .setResult (psciFnCpuOn targetCore (m.frame.regs 2) m)
  else if funId = psciCpuOff then .setResult (psciFnCpuOff img targetCore m)
  else if funId = psciSystemReset then .setResult (psciFnSystemReset m)
  else if funId = psciSystemPoweroff then .setResult (psciFnSystemPoweroff m)
  else if funId = smcYield then leaveSecure core m
  else if funId = smcResume then enterSecure core m
  else if funId = smcVersion then m.setReg1 version
  else m.setReg1 (psciErrNotSupported.setWidth 64)

def disableMmuEl1 (sys : SysRegs) : SysRegs :=
  { sys with sctlr := sys.sctlr &&& ~~~sctlrM, ttbr0 := 0, ttbr1 := 0, tcr := 0 }

/-- el3_sync_lower for SEEOS_WORLD_ID. -/
def seeosCall (img : Image) (core : CoreId) (m : Monitor) : Monitor :=
  let ns := saveContext m.sys ((m.cpus core).nsContext.storeFrame 0 m.frame)
  let m := m.setCpu core { m.cpus core with nsContext := ns }
  if (m.cpus core).sContext.initialized ≠ 0 then enterSecure core m
  else
    { m with
      sys := disableMmuEl1 m.sys
      scr := scrSecure
      frame := { m.frame with spsr := spsrMEl1h, elr := img.seeosEntry } }

def el3SyncLower (img : Image) (core : CoreId) (m : Monitor) : Monitor :=
  if esrEcMask m.frame.esr = ecSmc then
    let functionId : BitVec 32 := (m.frame.regs 0).setWidth 32
    let worldId : BitVec 16 := (functionId >>> 16).setWidth 16
    if worldId = firmwareWorldId then el3SmcHandler img core functionId m
    else if worldId = seeosWorldId then seeosCall img core m
    else m.emit (.uart "Wrong World ID\n")
  else m

/-- How a handler ends: by RESTORE_CONTEXT, or never, in el3_cpu_off's wfi loop. -/
inductive Exit where
  | eret | park
  deriving DecidableEq

def el3CpuOff (targetCore : CoreId) (m : Monitor) : Monitor :=
  let m := m.emit (.uart "Turning off core\n")
  let m := m.emit (.waker targetCore true)
  let sctlr := m.sys.sctlr &&& ~~~(sctlrM ||| sctlrI ||| sctlrC ||| sctlrSa ||| sctlrSa0)
  let m := { m with sys := { m.sys with sctlr := sctlr, ttbr0 := 0, ttbr1 := 0 } }
  m.setCpu targetCore { m.cpus targetCore with state := .off, entryPoint := 0 }

def el3CpuOn (core : CoreId) (m : Monitor) : Monitor :=
  if (m.cpus core).entryPoint ≠ 0 then
    let m := m.emit (.waker core false)
    let frame := { m.frame with spsr := spsrMEl1h, elr := (m.cpus core).entryPoint }
    { m with scr := scrNonSecure, frame := frame }.setCpu core { m.cpus core with state := .on }
  else m

def el3JumpToKernel (core : CoreId) (m : Monitor) : Monitor :=
  (leaveSecure core m).setReg1 seeosPreempted

def interruptIdMask (iar : BitVec 32) : BitVec 32 := iar &&& 0xFFFFFF

def el3Fiq (core : CoreId) (iar : BitVec 32) (m : Monitor) : Monitor × Exit :=
  let interruptId := interruptIdMask iar
  if interruptId = sgiCoreSleep.setWidth 32 then (el3CpuOff core m,.park)
  else
    let m :=
      if interruptId = sgiCoreWake.setWidth 32 then el3CpuOn core m
      else if interruptId = interruptHpiNsg1 then el3JumpToKernel core m
      else m
    (m.emit (.eoir0 iar),.eret)

structure Core where
  machine : Machine
  scr : Word

structure System where
  core : CoreId → Core
  cpus : CoreId → CpuState
  io : List Io

/-- `run` is any code below EL3 (or the wfi loop of a parked core), with any effect
on the registers; `sync` is an exception that EA_ROUTE or an `smc` sends to EL3; `fiq`
carries the value that gic_read_iar0 returns. -/
inductive Event where
  | run (c : CoreId) (m : Machine)
  | sync (c : CoreId) (esr far : Word)
  | fiq (c : CoreId) (iar : BitVec 32)

def Event.core : Event → CoreId
  | .run c _ | .sync c _ _ | .fiq c _ => c

def System.setMachine (s : System) (c : CoreId) (m : Machine) : System :=
  { s with core := Function.update s.core c { s.core c with machine := m } }

@[simp] theorem System.setMachine_cpus (s : System) (c : CoreId) (m : Machine) :
    (s.setMachine c m).cpus = s.cpus := rfl

@[simp] theorem System.setMachine_machine (s : System) (c : CoreId) (m : Machine) :
    ((s.setMachine c m).core c).machine = m := by simp [System.setMachine]

/-- The handler's view right after SAVE_CONTEXT. ESR and FAR of an FIQ are stale
values that no handler reads. -/
def System.trap (s : System) (c : CoreId) (esr far : Word) : Monitor where
  frame := El3Vector.saveContext (s.core c).machine esr far
  sys := (s.core c).machine.sys
  scr := (s.core c).scr
  cpus := s.cpus
  io := s.io

@[simp] theorem System.trap_cpus (s : System) (c : CoreId) (esr far : Word) :
    (s.trap c esr far).cpus = s.cpus := rfl

def System.leave (s : System) (c : CoreId) (machine : Machine) (m : Monitor) : System where
  core := Function.update s.core c { machine := machine, scr := m.scr }
  cpus := m.cpus
  io := m.io

def System.eret (s : System) (c : CoreId) (m : Monitor) : System :=
  s.leave c (El3Vector.restoreContext m.frame m.sys) m

/-- The core stays in EL3, in the loop of el3_cpu_off, with FIQ unmasked. -/
def System.park (img : Image) (s : System) (c : CoreId) (m : Monitor) : System :=
  s.leave c { (s.core c).machine with
    pc := img.offLoop
    pstate := spsrMEl3h ||| serrorMask ||| irqMask ||| debugMask
    sys := m.sys } m

def step (img : Image) (s : System) : Event → System
  | .run c m =>
    let k := (s.core c).machine
    if k.atEl3 then s.setMachine c { m with pc := k.pc, pstate := k.pstate, sys := k.sys }
    else if m.atEl3 then s
    else s.setMachine c m
  | .sync c esr far =>
    if (s.core c).machine.atEl3 then s
    else s.eret c (el3SyncLower img c (s.trap c esr far))
  | .fiq c iar =>
    match el3Fiq c iar (s.trap c 0 0) with
    | (m,.eret) => s.eret c m
    | (m,.park) => s.park img c m

def Machine.zero : Machine where
  x _ := 0
  v _ _ := 0
  fpsr := 0
  fpcr := 0
  pc := 0
  pstate := 0
  sys := ⟨0,0,0,0,0,0⟩

def smcEsr : Word := 0x5E000000

/-- EL1 code about to execute `smc #0` with this function id; it returns to `pc`. -/
def Machine.calling (functionId : BitVec 32) (pc : Word) : Machine :=
  { Machine.zero with
    x := Function.update Machine.zero.x 0 (functionId.setWidth 64)
    pc := pc
    pstate := spsrMEl1h }

/-- Core 0 as main leaves it for the kernel, the others parked by init_sec_core. -/
def System.boot (img : Image) (kernelEntry : Word) (regs : Machine) : System where
  core c :=
    if c = 0 then
      { machine := { regs with pc := kernelEntry, pstate := spsrMEl1h }, scr := scrNonSecure }
    else
      { machine := { regs with
          pc := img.offLoop
          pstate := spsrMEl3h ||| serrorMask ||| irqMask ||| debugMask }
        scr := scrSecure }
  cpus c :=
    { state := if c = 0 then .on else .off
      entryPoint := 0
      contextId := 0
      nsContext := .zero
      sContext := .zero }
  io := []

end Arm64

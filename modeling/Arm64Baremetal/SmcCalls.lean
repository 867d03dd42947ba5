import Arm64Baremetal.El3FrameLayout

/-!
The wrappers of smc.h, and what comes back to them from el3_smc_handler through the frame of
el3_vector.S.
-/

set_option autoImplicit false

namespace Arm64
open A64

/-- The stack pointer of EL3, FAR_EL3 and the memory that an exception finds, and the registers
that the C code of its handler leaves. -/
structure El3Entry where
  sp : Word
  far : Word
  mem : Mem
  left : A64.State El3Vector.Reg

namespace El3Vector

/-- The registers at sync_lower, after the `smc #0` of `m`. -/
def atSyncLower (e : El3Entry) (m : Machine) : A64.State Reg where
  x i := if h : i < 31 then m.x ⟨i,h⟩ else 0
  q k := if h : k.1 < 32 ∧ k.2 < 2 then m.v ⟨k.1,h.1⟩ ⟨k.2,h.2⟩ else 0
  sp := e.sp
  sys
    | .spsrEl3 => m.pstate
    | .elrEl3 => m.pc
    | .esrEl3 => smcEsr
    | .farEl3 => e.far
    | .fpsr => m.fpsr
    | .fpcr => m.fpcr
  mem := e.mem

theorem machineOf_atSyncLower (e : El3Entry) (m : Machine) :
    machineOf (atSyncLower e m) m.sys = m := by
  have hx : (machineOf (atSyncLower e m) m.sys).x = m.x := funext fun i => dif_pos i.isLt
  have hv : (machineOf (atSyncLower e m) m.sys).v = m.v :=
    funext fun i => funext fun j => dif_pos ⟨i.isLt,j.isLt⟩
  have hm : machineOf (atSyncLower e m) m.sys =
      { m with
        x := (machineOf (atSyncLower e m) m.sys).x
        v := (machineOf (atSyncLower e m) m.sys).v } := rfl
  rw [hm,hx,hv]

end El3Vector

/-- `smc #0` on core `c`: SAVE_CONTEXT, el3_sync_lower and RESTORE_CONTEXT. -/
def System.syncLower (img : Image) (c : CoreId) (e : El3Entry) (s : System) : Machine :=
  let k := s.core c
  let entry := El3Vector.atSyncLower e k.machine
  let m := el3SyncLower img c
    { frame := El3Vector.frameOf entry
      sys := k.machine.sys
      scr := k.scr
      cpus := s.cpus
      io := s.io }
  El3Vector.machineOf (El3Vector.afterWrites entry e.left m.frame) m.sys

/-- `register uint64_t x0 asm("x0") = ..`, and so on from x0. -/
def withArgs (args : List Word) (x : GpRegs) : GpRegs := fun i => args.getD i.val (x i)

/-- smc_res_t -/
structure SmcRes where
  functionId : Word
  res1 : Word
  res2 : Word
  res3 : Word
  res4 : Word
  res5 : Word
  deriving DecidableEq

section Wrappers

-- the general registers after an `smc #0`, from those before it
variable (smc : GpRegs → GpRegs)

def smcPsciCpuOn (targetCore : BitVec 32) (entry : Word) (x : GpRegs) : Word :=
  smc (withArgs [psciCpuOn.setWidth 64,targetCore.setWidth 64,entry] x) 0

def smcPsciCpuOff (targetCore : BitVec 32) (x : GpRegs) : BitVec 32 :=
  (smc (withArgs [psciCpuOff.setWidth 64,targetCore.setWidth 64] x) 0).setWidth 32

def smcCall (functionId : BitVec 32) (reg1 reg2 reg3 reg4 reg5 : Word) (x : GpRegs) : SmcRes :=
  let x := smc (withArgs [functionId.setWidth 64,reg1,reg2,reg3,reg4,reg5] x)
  ⟨x 0,x 1,x 2,x 3,x 4,x 5⟩

end Wrappers

inductive FirmwareCall where
  | smcCall (functionId : BitVec 32) (reg1 reg2 reg3 reg4 reg5 : Word)
      (firmware : worldOf functionId = firmwareWorldId)
  | smcPsciCpuOn (targetCore : BitVec 32) (entry : Word)
  | smcPsciCpuOff (targetCore : BitVec 32)

namespace FirmwareCall

def functionId : FirmwareCall → BitVec 32
  | .smcCall functionId .. => functionId
  | .smcPsciCpuOn .. => psciCpuOn
  | .smcPsciCpuOff _ => psciCpuOff

def args : FirmwareCall → List Word
  | .smcCall functionId reg1 reg2 reg3 reg4 reg5 _ =>
    [functionId.setWidth 64,reg1,reg2,reg3,reg4,reg5]
  | .smcPsciCpuOn targetCore entry => [psciCpuOn.setWidth 64,targetCore.setWidth 64,entry]
  | .smcPsciCpuOff targetCore => [psciCpuOff.setWidth 64,targetCore.setWidth 64]

/-- What the wrapper hands to its caller as the status. -/
def handed (smc : GpRegs → GpRegs) (x : GpRegs) : FirmwareCall → Word
  | .smcCall functionId reg1 reg2 reg3 reg4 reg5 _ =>
    (Arm64.smcCall smc functionId reg1 reg2 reg3 reg4 reg5 x).res1
  | .smcPsciCpuOn targetCore entry => Arm64.smcPsciCpuOn smc targetCore entry x
  | .smcPsciCpuOff targetCore => (Arm64.smcPsciCpuOff smc targetCore x).signExtend 64

def viaSmcCall : FirmwareCall → Bool
  | .smcCall .. => true
  | .smcPsciCpuOn .. | .smcPsciCpuOff _ => false

end FirmwareCall

/-- The status that el3_smc_handler computes. SMC_YIELD and SMC_RESUME compute none: they go on
in the other world. -/
def smcStatus (img : Image) (funId : BitVec 32) (m : Monitor) : Option Word :=
  let targetCore := (m.frame.regs 1).setWidth 32
  if funId = psciCpuOn then
    some ((psciFnCpuOn targetCore (m.frame.regs 2) m).1.signExtend 64)
  else if funId = psciCpuOff then some ((psciFnCpuOff img targetCore m).1.signExtend 64)
  else if funId = psciSystemReset then some ((psciFnSystemReset m).1.signExtend 64)
  else if funId = psciSystemPoweroff then some ((psciFnSystemPoweroff m).1.signExtend 64)
  else if funId = smcYield ∨ funId = smcResume then none
  else if funId = smcVersion then some version
  else some (psciErrNotSupported.setWidth 64)

namespace System
variable (img : Image) (c : CoreId) (e : El3Entry) (s : System)

def withRegs (x : GpRegs) : System := s.setMachine c { (s.core c).machine with x := x }

def calls (call : FirmwareCall) : System :=
  s.withRegs c (withArgs call.args (s.core c).machine.x)

def smcRegs (x : GpRegs) : GpRegs := ((s.withRegs c x).syncLower img c e).x

def status (call : FirmwareCall) : Option Word :=
  smcStatus img call.functionId ((s.calls c call).trap c smcEsr e.far)

end System

/-- The status that el3_smc_handler computes for the call is the one that its caller gets, and the
wrapper goes on behind its `smc #0`. -/
structure ReachesCaller (img : Image) (c : CoreId) (e : El3Entry) (s : System)
    (call : FirmwareCall) : Prop where
  status : ∀ w, s.status img c e call = some w →
    call.handed (s.smcRegs img c e) (s.core c).machine.x = w
  returns : (s.status img c e call).isSome →
    let m := (s.calls c call).syncLower img c e
    m.pc = (s.core c).machine.pc ∧ m.pstate = (s.core c).machine.pstate

section Return
variable {img : Image} {c : CoreId} {e : El3Entry} {s : System}

theorem restore_quiet {k : Machine} {esr far : Word} {m m' : Monitor}
    (hframe : m.frame = El3Vector.saveContext k esr far) (hsys : m.sys = k.sys) (h : m.Quiet m') :
    El3Vector.restoreContext m'.frame m'.sys = { k with x := m'.frame.regs } := by
  have hrest : { m'.frame with regs := m.frame.regs } = m.frame := h.rest
  have hback : El3Vector.restoreContext { m'.frame with regs := m.frame.regs } m'.sys = k := by
    rw [hrest,h.sys,hframe,hsys]
    exact El3Vector.restoreContext_saveContext k esr far
  have hregs : El3Vector.restoreContext m'.frame m'.sys =
      { El3Vector.restoreContext { m'.frame with regs := m.frame.regs } m'.sys with
        x := m'.frame.regs } := rfl
  rw [hregs,hback]

/-- The assembly hands el3_sync_lower the frame of the model, and takes back what it leaves. -/
theorem syncLower_eq (img : Image) (c : CoreId) (e : El3Entry) (s : System) :
    let m := el3SyncLower img c (s.trap c smcEsr e.far)
    s.syncLower img c e =
      El3Vector.restoreContext { m.frame with padding1 := (s.core c).machine.fpcr } m.sys := by
  intro m
  have hframe := El3Vector.frameOf_eq (El3Vector.atSyncLower e (s.core c).machine)
    (s.core c).machine.sys
  rw [El3Vector.machineOf_atSyncLower] at hframe
  simp only [System.syncLower,hframe]
  exact El3Vector.afterWrites_eq _ e.left m.frame m.sys

theorem el3SyncLower_padding1 {m : Monitor} (hec : esrEcMask m.frame.esr = ecSmc) :
    (el3SyncLower img c m).frame.padding1 = m.frame.padding1 := by
  rcases el3SyncLower_cases img c m hec with ⟨_,h⟩ | ⟨_,h⟩ | ⟨_,h⟩ | ⟨_,_,_,h⟩
  · rw [h]
    rfl
  · rw [h]
    rfl
  · rw [h,seeosCall]
    split <;> rfl
  · have hpad := congrArg TrapFrame.padding1 h.rest
    exact hpad

theorem syncLower_restore (img : Image) (c : CoreId) (e : El3Entry) (s : System) :
    let m := el3SyncLower img c (s.trap c smcEsr e.far)
    s.syncLower img c e = El3Vector.restoreContext m.frame m.sys := by
  intro m
  have hpad : m.frame.padding1 = (s.core c).machine.fpcr :=
    el3SyncLower_padding1 (m := s.trap c smcEsr e.far) (by decide : esrEcMask smcEsr = ecSmc)
  rw [syncLower_eq,← hpad]

theorem syncLower_step (h : (s.core c).machine.atEl3 = false) :
    ((step img s (.sync c smcEsr e.far)).core c).machine = s.syncLower img c e := by
  rw [syncLower_restore]
  simp only [step,h]
  exact eret_machine s c _

theorem setReg1_regs (w : Word) (m : Monitor) : (m.setReg1 w).frame.regs 1 = w := by
  simp [Monitor.setReg1]

theorem smcStatus_eq {f : BitVec 32} (hy : f ≠ smcYield) (hr : f ≠ smcResume) (img : Image)
    (c : CoreId) (m : Monitor) :
    smcStatus img f m = some ((el3SmcHandler img c f m).frame.regs 1) := by
  unfold smcStatus el3SmcHandler
  simp only [hy,hr,or_self,if_false]
  repeat' split
  all_goals exact congrArg some (setReg1_regs _ _).symm

theorem ne_of_smcStatus {f : BitVec 32} {m : Monitor} {w : Word} (h : smcStatus img f m = some w) :
    f ≠ smcYield ∧ f ≠ smcResume := by
  constructor
  · rintro rfl
    cases h
  · rintro rfl
    cases h

theorem calls_machine (call : FirmwareCall) : ((s.calls c call).core c).machine =
    { (s.core c).machine with x := withArgs call.args (s.core c).machine.x } :=
  System.setMachine_machine s c _

theorem calls_x0 (call : FirmwareCall) :
    ((s.calls c call).trap c smcEsr e.far).frame.regs 0 = call.functionId.setWidth 64 := by
  have hregs : ((s.calls c call).trap c smcEsr e.far).frame.regs =
      withArgs call.args (s.core c).machine.x := congrArg Machine.x (calls_machine call)
  rw [hregs]
  cases call <;> rfl

theorem calls_handler {call : FirmwareCall} (hw : worldOf call.functionId = firmwareWorldId) :
    el3SyncLower img c ((s.calls c call).trap c smcEsr e.far) =
      el3SmcHandler img c call.functionId ((s.calls c call).trap c smcEsr e.far) := by
  have hec : esrEcMask ((s.calls c call).trap c smcEsr e.far).frame.esr = ecSmc :=
    (by decide : esrEcMask smcEsr = ecSmc)
  have hf : (((s.calls c call).trap c smcEsr e.far).frame.regs 0).setWidth 32 =
      call.functionId := by
    rw [calls_x0]
    simp
  simp only [el3SyncLower,if_pos hec,hf]
  exact if_pos hw

/-- A call with a status comes back behind its `smc #0` with the status in x1, and with x0 as it
was. -/
theorem syncLower_calls {call : FirmwareCall} (hw : worldOf call.functionId = firmwareWorldId)
    {w : Word} (h : s.status img c e call = some w) :
    let m := (s.calls c call).syncLower img c e
    m.x 0 = call.functionId.setWidth 64 ∧ m.x 1 = w ∧ m.pc = (s.core c).machine.pc ∧
      m.pstate = (s.core c).machine.pstate := by
  intro m
  obtain ⟨hy,hr⟩ := ne_of_smcStatus h
  have hquiet : ((s.calls c call).trap c smcEsr e.far).Quiet
      (el3SyncLower img c ((s.calls c call).trap c smcEsr e.far)) := by
    rw [calls_handler hw]
    rcases el3SmcHandler_cases img c call.functionId ((s.calls c call).trap c smcEsr e.far) with
      ⟨hf,_⟩ | ⟨hf,_⟩ | ⟨_,_,h⟩
    · exact absurd hf hy
    · exact absurd hf hr
    · exact h
  have hm : m = _ := (syncLower_restore img c e _).trans (restore_quiet rfl rfl hquiet)
  rw [hm,calls_machine]
  refine ⟨(hquiet.regs 0 (by decide)).trans (calls_x0 call),?_,rfl,rfl⟩
  rw [System.status,smcStatus_eq hy hr img c,← calls_handler hw] at h
  exact Option.some.inj h

end Return

theorem FirmwareCall.worldOf_functionId (call : FirmwareCall) :
    worldOf call.functionId = firmwareWorldId := by
  cases call with
  | smcCall functionId reg1 reg2 reg3 reg4 reg5 firmware => exact firmware
  | smcPsciCpuOn targetCore entry => exact (by decide : worldOf psciCpuOn = firmwareWorldId)
  | smcPsciCpuOff targetCore => exact (by decide : worldOf psciCpuOff = firmwareWorldId)

def psciStatuses : List (BitVec 32) :=
  [psciSuccess,psciErrBaddress,psciErrInvalidCpu,psciErrNotSupported,psciErrAlreadyOnline,
    psciErrCoreBooting]

theorem psciFnCpuOn_status (t : BitVec 32) (entryPoint : Word) (m : Monitor) :
    (psciFnCpuOn t entryPoint m).1 ∈ psciStatuses := by
  unfold psciFnCpuOn
  dsimp only
  repeat' split
  all_goals simp [psciStatuses]

theorem psciFnCpuOff_status (img : Image) (t : BitVec 32) (m : Monitor) :
    (psciFnCpuOff img t m).1 ∈ psciStatuses := by
  unfold psciFnCpuOff
  split
  all_goals simp [psciStatuses]

theorem status_ne_functionId : ∀ r ∈ psciStatuses,
    psciCpuOn.setWidth 64 ≠ r.signExtend 64 ∧
      ((psciCpuOff.setWidth 64).setWidth 32).signExtend 64 ≠ r.signExtend 64 := by
  simp [psciStatuses,psciSuccess,psciErrBaddress,psciErrInvalidCpu,psciErrNotSupported,
    psciErrAlreadyOnline,psciErrCoreBooting,psciCpuOn,psciCpuOff]

section Handed
variable (img : Image) (c : CoreId) (e : El3Entry) (s : System)

theorem smcRegs_calls (call : FirmwareCall) :
    s.smcRegs img c e (withArgs call.args (s.core c).machine.x) =
      ((s.calls c call).syncLower img c e).x := rfl

theorem handed_smcCall {call : FirmwareCall} (h : call.viaSmcCall = true) :
    call.handed (s.smcRegs img c e) (s.core c).machine.x =
      ((s.calls c call).syncLower img c e).x 1 := by
  rw [← smcRegs_calls]
  cases call with
  | smcCall functionId reg1 reg2 reg3 reg4 reg5 firmware =>
    simp only [FirmwareCall.handed,smcCall,FirmwareCall.args]
  | smcPsciCpuOn targetCore entry => contradiction
  | smcPsciCpuOff targetCore => contradiction

theorem handed_smcPsciCpuOn (targetCore : BitVec 32) (entry : Word) :
    (FirmwareCall.smcPsciCpuOn targetCore entry).handed (s.smcRegs img c e)
      (s.core c).machine.x =
      ((s.calls c (.smcPsciCpuOn targetCore entry)).syncLower img c e).x 0 := by
  rw [← smcRegs_calls]
  simp only [FirmwareCall.handed,smcPsciCpuOn,FirmwareCall.args]

theorem handed_smcPsciCpuOff (targetCore : BitVec 32) :
    (FirmwareCall.smcPsciCpuOff targetCore).handed (s.smcRegs img c e) (s.core c).machine.x =
      ((((s.calls c (.smcPsciCpuOff targetCore)).syncLower img c e).x 0).setWidth 32).signExtend
        64 := by
  rw [← smcRegs_calls]
  simp only [FirmwareCall.handed,smcPsciCpuOff,FirmwareCall.args]

end Handed

/-- smc_call reads the register that the handler answers in, the two PSCI wrappers read the one
that still holds the function id. -/
theorem status_reaches_iff (img : Image) (c : CoreId) (e : El3Entry) (s : System)
    (call : FirmwareCall) : ReachesCaller img c e s call ↔ call.viaSmcCall = true := by
  have hcalls (w : Word) (h : s.status img c e call = some w) :=
    syncLower_calls call.worldOf_functionId h
  constructor
  · intro h
    cases call with
    | smcCall functionId reg1 reg2 reg3 reg4 reg5 firmware => rfl
    | smcPsciCpuOn targetCore entry =>
      have hstatus : s.status img c e (.smcPsciCpuOn targetCore entry) = some _ := rfl
      have hhanded := h.status _ hstatus
      rw [handed_smcPsciCpuOn,(hcalls _ hstatus).1] at hhanded
      exact absurd hhanded (status_ne_functionId _ (psciFnCpuOn_status _ _ _)).1
    | smcPsciCpuOff targetCore =>
      have hstatus : s.status img c e (.smcPsciCpuOff targetCore) = some _ := rfl
      have hhanded := h.status _ hstatus
      rw [handed_smcPsciCpuOff,(hcalls _ hstatus).1] at hhanded
      exact absurd hhanded (status_ne_functionId _ (psciFnCpuOff_status _ _ _)).2
  · intro h
    refine ⟨fun w hw => (handed_smcCall img c e s h).trans (hcalls w hw).2.1,fun hw => ?_⟩
    obtain ⟨w,hw⟩ := Option.isSome_iff_exists.mp hw
    exact (hcalls w hw).2.2

def bootEntry : El3Entry := ⟨0x40020000,0,fun _ => 0,El3Vector.entered 0 0⟩

/-- Core 1 is off and is turned on, and the caller of smc_psci_cpu_on gets PSCI_CPU_ON. -/
theorem cpuOn_status_lost :
    let s := System.boot testImage 0x40300000 .zero
    let call := FirmwareCall.smcPsciCpuOn 1 0x40080000
    s.status testImage 0 bootEntry call = some (psciSuccess.setWidth 64) ∧
      call.handed (s.smcRegs testImage 0 bootEntry) (s.core 0).machine.x = 0x200000A0 ∧
      ¬ ReachesCaller testImage 0 bootEntry s call := by
  intro s call
  have hstatus : s.status testImage 0 bootEntry call = some (psciSuccess.setWidth 64) := by decide
  have hhanded :
      call.handed (s.smcRegs testImage 0 bootEntry) (s.core 0).machine.x = 0x200000A0 := by
    rw [handed_smcPsciCpuOn,(syncLower_calls call.worldOf_functionId hstatus).1]
    rfl
  refine ⟨hstatus,hhanded,fun h => ?_⟩
  have hlost := h.status _ hstatus
  rw [hhanded] at hlost
  exact absurd hlost (by decide)

end Arm64

import Arm64Baremetal.El3Preemption

/-!
The requests that a kernel makes of the servicer loop in see_init.c, through the
monitor. The loop is compiled code, so a `Servicer` is any program that serves
requests as seeos_servicer does when nothing interrupts it.
-/

set_option autoImplicit false

namespace Arm64
open Runs

def seeosVersion : Word := 0x10000010
def seeosDoorbell : Word := 0x10000020
def seeosWrapKey : Word := 0x10000030
def seeosUnwrapKey : Word := 0x10000040
def seeosCommand : Word := 0x10000050

def seeosInvalidCall : Word := 0x02
def seeosSuccess : Word := 0x04

/-- The four fields of smc_res_t that the loop reads. -/
structure Request where
  functionId : Word
  res1 : Word
  res2 : Word
  res3 : Word
  deriving DecidableEq

structure Reply where
  r1 : Word
  r2 : Word
  r3 : Word
  deriving DecidableEq

/-- see_wrap_key and see_unwrap_key for the master key in use. -/
structure Crypto where
  wrapKey : Word → Word × Word
  unwrapKey : Word × Word → Word

/-- One turn of the loop in seeos_servicer: r1, r2 and r3. -/
def seeosServicer (k : Crypto) (q : Request) : Reply :=
  if q.functionId = seeosVersion then ⟨(1 <<< 8) ||| 20,0,0⟩
  else if q.functionId = seeosDoorbell then ⟨seeosSuccess,0,0⟩
  else if q.functionId = seeosWrapKey then
    ⟨(k.wrapKey q.res1).1,(k.wrapKey q.res1).2,0⟩
  else if q.functionId = seeosUnwrapKey then ⟨k.unwrapKey (q.res1,q.res2),0,0⟩
  else if q.functionId = seeosCommand then ⟨0,0,0⟩
  else ⟨seeosInvalidCall,0,0⟩

def Machine.request (m : Machine) : Request := ⟨m.x 0,m.x 1,m.x 2,m.x 3⟩
def Machine.reply (m : Machine) : Reply := ⟨m.x 1,m.x 2,m.x 3⟩

/-- After the instruction that `m` is about to execute, an `smc`. -/
def Machine.next (m : Machine) : Machine := { m with pc := m.pc + 4 }

/-- A program for the secure world of a core with memory `μ`. `serves q` holds of the
states in which it works on the request `q`; what it owes is stated for runs
without interruption, in which x0..x5 and PSTATE change by its own instructions. -/
structure Servicer (img : Image) (k : Crypto) (μ : Type) where
  instr : Machine → μ → Machine × μ
  isSmc : Machine → μ → Bool
  start : μ
  serves : Request → Machine → μ → Prop
  below : ∀ q m w, serves q m w → m.atEl3 = false
  enter : ∀ m sys, m.pc = img.seeosEntry → m.pstate = spsrMEl1h → m.sys = disableMmuEl1 sys →
    serves m.request m start
  continues : ∀ q m w, serves q m w → isSmc m w = false →
    serves q (instr m w).1 (instr m w).2
  yields : ∀ q m w, serves q m w → isSmc m w = true →
    m.x 0 = smcYield.setWidth 64 ∧ m.reply = seeosServicer k q
  again : ∀ q m w, serves q m w → isSmc m w = true →
    ∀ m', SameCallState m' m.next → m'.pstate = spsrMEl1h → serves m'.request m' w

/-- A core with its servicer, the request whose reply the kernel waits for, and
whether the last reply said that it was preempted. -/
structure Service (μ : Type) where
  system : System
  mem : μ
  asked : Option Request
  preempted : Bool

/-- `kernel m` is any computation of the kernel up to an `smc` with the registers `m`,
`secure` one instruction of the servicer, and `other` an event of another core. -/
inductive ServiceEvent where
  | kernel (m : Machine)
  | secure
  | preempt (iar : BitVec 32)
  | other (e : Event)

def Machine.asks (m : Machine) : Bool := worldOf ((m.x 0).setWidth 32) == seeosWorldId
def Machine.resumes (m : Machine) : Bool := (m.x 0).setWidth 32 == smcResume

variable {img : Image} {k : Crypto} {μ : Type}

/-- The code of core `c` reaches the state `m` and takes the exception of its `smc`. -/
def System.smcAt (img : Image) (s : System) (c : CoreId) (m : Machine) : System :=
  step img (step img s (.run c m)) (.sync c smcEsr 0)

def Service.machine (s : Service μ) (c : CoreId) : Machine := (s.system.core c).machine

def serviceStep (p : Servicer img k μ) (c : CoreId) (s : Service μ) : ServiceEvent → Service μ
  | .kernel m =>
    { s with
      system := s.system.smcAt img c m
      asked := if m.asks then some m.request else s.asked
      preempted := false }
  | .secure =>
    let m := s.machine c
    if p.isSmc m s.mem then
      { s with system := s.system.smcAt img c m.next, asked := none }
    else
      { s with
        system := step img s.system (.run c (p.instr m s.mem).1)
        mem := (p.instr m s.mem).2 }
  | .preempt iar => { s with system := step img s.system (.fiq c iar), preempted := true }
  | .other e => { s with system := step img s.system e }

/-- The kernel makes requests and resumes preempted ones, 1021 arrives in the secure
world, and each side only moves when it is its turn. -/
def Legal (c : CoreId) (s : Service μ) : ServiceEvent → Prop
  | .kernel m => s.system.NonSecure c ∧ m.atEl3 = false ∧
      (m.asks ∨ m.resumes ∧ s.preempted)
  | .secure => s.system.Secure c
  | .preempt iar => s.system.Secure c ∧ interruptIdMask iar = interruptHpiNsg1
  | .other e => e.core ≠ c

instance (c : CoreId) (s : Service μ) : (e : ServiceEvent) → Decidable (Legal c s e)
  | .kernel _ => inferInstanceAs (Decidable (_ ∧ _ ∧ (_ ∨ _ ∧ _)))
  | .secure => inferInstanceAs (Decidable (s.system.Secure c))
  | .preempt _ => inferInstanceAs (Decidable (_ ∧ _))
  | .other _ => inferInstanceAs (Decidable (_ ≠ _))

/-- A new request finds no preempted one and has a result that is not the preempted
marker, and a resumed servicer still works on its request with the x0..x5 and the
flags that the SMC_RESUME leaves it. -/
def Orderly (p : Servicer img k μ) (c : CoreId) (s : Service μ) : ServiceEvent → Prop
  | .kernel m =>
    (m.asks → s.preempted = false ∧ (seeosServicer k m.request).r1 ≠ seeosPreempted) ∧
    (m.resumes → ∀ q, s.asked = some q →
      p.serves q ((s.system.cpus c).sContext.machine m.x m.fpcr) s.mem)
  | _ => True

/-- The kernel can tell the reply it gets in this event from a preempted one, and it is
the reply to what it asked. -/
def RepliesRight (p : Servicer img k μ) (c : CoreId) (s : Service μ) (e : ServiceEvent) : Prop :=
  match e with
  | .preempt _ => ((serviceStep p c s e).machine c).x 1 = seeosPreempted
  | .secure => p.isSmc (s.machine c) s.mem →
    ∃ q, s.asked = some q ∧ ((serviceStep p c s e).machine c).reply = seeosServicer k q ∧
      ((serviceStep p c s e).machine c).x 1 ≠ seeosPreempted
  | _ => True

end Arm64

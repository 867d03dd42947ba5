import Arm64Baremetal.El3Monitor
import Arm64Baremetal.Runs

/-!
SP_EL3 and the acknowledged interrupts of a secondary core, over handlers that nest in
el3_cpu_off and never return to it.
-/

set_option autoImplicit false

namespace Arm64.El3Stack
open Runs

/-- What the core executes, or what its handler interrupted: init_sec_core after it has
unmasked FIQ, the loop of halt_secondary, code below EL3, or the loop of el3_cpu_off. -/
inductive Place where
  | init | parked | below | off
  deriving DecidableEq

/-- The stack frames of compiled functions. init_sec_core calls others, so it has stored at
least its return address. -/
structure Frames where
  fiq : Word
  off : Word
  smc : Word
  init : Word
  initStored : init ≠ 0

/-- `active` has the INTIDs that are acknowledged and not completed, newest first. -/
structure Stack where
  place : Place
  sp : Word
  active : List (BitVec 32)

/-- `park` is the return of init_sec_core. -/
inductive Event where
  | park
  | smc
  | fiq (iar : BitVec 32) (entryPoint : Word)

def frameSize : Word := 816

namespace Stack

def saveContext (s : Stack) : Stack := { s with sp := s.sp - frameSize }
def restoreContext (s : Stack) : Stack := { s with sp := s.sp + frameSize }

/-- 1020 to 1023 say something about pending interrupts and acknowledge none. -/
def special (iar : BitVec 32) : Bool :=
  1020 ≤ (interruptIdMask iar).toNat ∧ (interruptIdMask iar).toNat ≤ 1023

def readIar0 (iar : BitVec 32) (s : Stack) : Stack :=
  if special iar then s else { s with active := iar :: s.active }

def writeEoir0 (iar : BitVec 32) (s : Stack) : Stack :=
  if special iar then s else { s with active := s.active.erase iar }

/-- The handler changes frame->elr, so that its `eret` goes to the kernel. -/
def releases (iar : BitVec 32) (entryPoint : Word) : Prop :=
  interruptIdMask iar = sgiCoreWake.setWidth 32 ∧ entryPoint ≠ 0 ∨
    interruptIdMask iar = interruptHpiNsg1

instance (iar : BitVec 32) (entryPoint : Word) : Decidable (releases iar entryPoint) :=
  inferInstanceAs (Decidable (_ ∨ _))

/-- fiq_handler with el3_fiq, where `iar` is what gic_read_iar0 returns and `entryPoint`
what el3_cpu_on finds in cpus[core_id]. -/
def fiqHandler (f : Frames) (iar : BitVec 32) (entryPoint : Word) (s : Stack) : Stack :=
  let s := s.saveContext
  let s := { s with sp := s.sp - f.fiq }
  let s := s.readIar0 iar
  if interruptIdMask iar = sgiCoreSleep.setWidth 32 then
    -- el3_cpu_off unmasks FIQ and does not return
    { s with sp := s.sp - f.off, place := .off }
  else
    let s := if releases iar entryPoint then { s with place := .below } else s
    let s := s.writeEoir0 iar
    let s := { s with sp := s.sp + f.fiq }
    s.restoreContext

def smcHandler (f : Frames) (s : Stack) : Stack :=
  let s := s.saveContext
  let s := { s with sp := s.sp - f.smc }
  let s := { s with sp := s.sp + f.smc }
  s.restoreContext

def step (f : Frames) (s : Stack) : Event → Stack
  | .park => if s.place = .init then { s with place := .parked, sp := s.sp + f.init } else s
  | .smc => if s.place = .below then s.smcHandler f else s
  | .fiq iar entryPoint => s.fiqHandler f iar entryPoint

/-- init_sec_core has just unmasked FIQ. `sp` is what secondary_core has set. -/
def start (f : Frames) (sp : Word) : Stack := ⟨.init,sp - f.init,[]⟩

/-- The core is not put to sleep, and leaves init_sec_core by its return. -/
def Meets (s : Stack) : Event → Prop
  | .fiq iar entryPoint => interruptIdMask iar ≠ sgiCoreSleep.setWidth 32 ∧
      ¬ (s.place = .init ∧ releases iar entryPoint)
  | _ => True

/-- The priorities that gic_init_core sets. -/
def priority (iar : BitVec 32) : Nat :=
  if interruptIdMask iar = sgiCoreWake.setWidth 32 then 0x10
  else if interruptIdMask iar = sgiCoreSleep.setWidth 32 then 0x20
  else 0xFF

def Signalled (s : Stack) : Event → Prop
  | .fiq iar _ => special iar ∨ ∀ a ∈ s.active, priority iar < priority a
  | _ => True

instance (s : Stack) (e : Event) : Decidable (Meets s e) :=
  match e with
  | .fiq .. => inferInstanceAs (Decidable (_ ∧ _))
  | .park | .smc => inferInstanceAs (Decidable True)

instance (s : Stack) (e : Event) : Decidable (Signalled s e) :=
  match e with
  | .fiq iar _ =>
    have := List.decidableBAll (fun a => priority iar < priority a) s.active
    inferInstanceAs (Decidable (_ ∨ _))
  | .park | .smc => inferInstanceAs (Decidable True)

section Handlers
variable (f : Frames) {iar : BitVec 32} (entryPoint : Word) (s : Stack)

theorem not_special (h : interruptIdMask iar = sgiCoreSleep.setWidth 32) : special iar = false := by
  rw [special,h]
  decide

theorem pop_push (sp a b : Word) : sp - a - b + b + a = sp := by
  rw [BitVec.sub_add_cancel,BitVec.sub_add_cancel]

theorem fiqHandler_eret (h : interruptIdMask iar ≠ sgiCoreSleep.setWidth 32) :
    s.fiqHandler f iar entryPoint =
      { s with place := if releases iar entryPoint then .below else s.place } := by
  unfold fiqHandler saveContext restoreContext
  dsimp only
  rw [if_neg h]
  cases hs : special iar
  · by_cases hr : releases iar entryPoint <;>
      simp only [readIar0,writeEoir0,hs,hr,Bool.false_eq_true,↓reduceIte,List.erase_cons_head,
        pop_push]
  · by_cases hr : releases iar entryPoint <;>
      simp only [readIar0,writeEoir0,hs,hr,↓reduceIte,pop_push]

theorem fiqHandler_sleep (h : interruptIdMask iar = sgiCoreSleep.setWidth 32) :
    s.fiqHandler f iar entryPoint =
      ⟨.off,s.sp - frameSize - f.fiq - f.off,iar :: s.active⟩ := by
  simp [fiqHandler,h,readIar0,not_special h,saveContext]

theorem smcHandler_eq : s.smcHandler f = s := by
  simp only [smcHandler,saveContext,restoreContext,pop_push]

end Handlers

variable {f : Frames} {sp : Word} {s : Stack}

def Clean (f : Frames) (sp : Word) (s : Stack) : Prop := s.active = [] ∧
  (s.place = .init ∧ s.sp = sp - f.init ∨ (s.place = .parked ∨ s.place = .below) ∧ s.sp = sp)

/-- SGI_CORE_SLEEP stays acknowledged for good, or the frame of init_sec_core stays on the
stack. -/
def Leaked (f : Frames) (sp : Word) (s : Stack) : Prop :=
  (∃ a ∈ s.active, interruptIdMask a = sgiCoreSleep.setWidth 32) ∨
    s.place = .below ∧ s.sp = sp - f.init

theorem clean_step {e : Event} (h : Clean f sp s) (hm : Meets s e) : Clean f sp (step f s e) := by
  obtain ⟨ha,hp⟩ := h
  cases e with
  | park =>
    simp only [step]
    split
    · rename_i hi
      have hsp : s.sp = sp - f.init := by
        rcases hp with hp | hp
        · exact hp.2
        · simp [hi] at hp
      exact ⟨ha,.inr ⟨.inl rfl,by rw [hsp,BitVec.sub_add_cancel]⟩⟩
    · exact ⟨ha,hp⟩
  | smc =>
    simp only [step,smcHandler_eq,ite_self]
    exact ⟨ha,hp⟩
  | fiq iar entryPoint =>
    obtain ⟨hsleep,hinit⟩ := hm
    rw [step,fiqHandler_eret f entryPoint s hsleep]
    split
    · rename_i hr
      rcases hp with hp | hp
      · exact absurd ⟨hp.1,hr⟩ hinit
      · exact ⟨ha,.inr ⟨.inr rfl,hp.2⟩⟩
    · exact ⟨ha,hp⟩

theorem leaked_of_clean {e : Event} (h : Clean f sp s) (hm : ¬ Meets s e) :
    Leaked f sp (step f s e) := by
  obtain ⟨ha,hp⟩ := h
  cases e with
  | park => exact absurd trivial hm
  | smc => exact absurd trivial hm
  | fiq iar entryPoint =>
    by_cases hsleep : interruptIdMask iar = sgiCoreSleep.setWidth 32
    · rw [step,fiqHandler_sleep f entryPoint s hsleep]
      exact .inl ⟨iar,List.mem_cons_self,hsleep⟩
    · have hinit : s.place = .init ∧ releases iar entryPoint := by
        by_contra hn
        exact hm ⟨hsleep,hn⟩
      rw [step,fiqHandler_eret f entryPoint s hsleep,if_pos hinit.2]
      rcases hp with hp | hp
      · exact .inr ⟨rfl,hp.2⟩
      · simp [hinit.1] at hp

theorem leaked_step (h : Leaked f sp s) (e : Event) : Leaked f sp (step f s e) := by
  cases e with
  | park =>
    simp only [step]
    split
    · rename_i hi
      rcases h with h | h
      · exact .inl h
      · simp [hi] at h
    · exact h
  | smc =>
    simp only [step,smcHandler_eq,ite_self]
    exact h
  | fiq iar entryPoint =>
    by_cases hsleep : interruptIdMask iar = sgiCoreSleep.setWidth 32
    · rw [step,fiqHandler_sleep f entryPoint s hsleep]
      exact .inl ⟨iar,List.mem_cons_self,hsleep⟩
    · rw [step,fiqHandler_eret f entryPoint s hsleep]
      rcases h with h | ⟨hb,hsp⟩
      · exact .inl h
      · refine .inr ⟨?_,hsp⟩
        dsimp only
        split
        · rfl
        · exact hb

theorem run_clean (f : Frames) (sp : Word) (es : List Event) :
    let s := exec (step f) (start f sp) es
    (Along (step f) Meets (start f sp) es → Clean f sp s) ∧
      (¬ Along (step f) Meets (start f sp) es → Leaked f sp s) := by
  induction es using List.reverseRecOn with
  | nil => exact ⟨fun _ => ⟨rfl,.inl ⟨rfl,rfl⟩⟩,fun h => absurd trivial h⟩
  | append_singleton es e ih =>
    intro s
    obtain ⟨hclean,hleak⟩ := ih
    simp only [s,exec_snoc,along_append,along_cons,along_nil,and_true]
    constructor
    · rintro ⟨hes,hm⟩
      exact clean_step (hclean hes) hm
    · intro hn
      by_cases hes : Along (step f) Meets (start f sp) es
      · exact leaked_of_clean (hclean hes) fun hm => hn ⟨hes,hm⟩
      · exact leaked_step (hleak hes) e

theorem sub_ne_self (sp : Word) {w : Word} (hw : w ≠ 0) : sp - w ≠ sp := by
  intro h
  exact hw (by bv_omega)

end Stack

/-- Below EL3 the stack pointer is as at boot and every interrupt completed exactly in the
runs in which the core was never put to sleep and has left init_sec_core by its return. -/
theorem clean_below_iff (f : Frames) (sp : Word) (es : List Event) :
    let s := exec (Stack.step f) (Stack.start f sp) es
    s.place = .below →
      ((s.sp = sp ∧ s.active = []) ↔ Along (Stack.step f) Stack.Meets (Stack.start f sp) es) := by
  intro s hb
  obtain ⟨hclean,hleak⟩ := Stack.run_clean f sp es
  constructor
  · rintro ⟨hsp,ha⟩
    by_contra hn
    rcases hleak hn with ⟨a,hmem,_⟩ | ⟨_,h⟩
    · simp [s,ha] at hmem
    · exact Stack.sub_ne_self sp f.initStored (h.symm.trans hsp)
  · intro hm
    obtain ⟨ha,hp | hp⟩ := hclean hm
    · exact absurd (hp.1.symm.trans hb) (by decide)
    · exact ⟨hp.2,ha⟩

def testFrames : Frames := ⟨48,32,96,32,by decide⟩

/-- The core is woken, serves an SMC, and is woken once more in the kernel. -/
theorem clean_below_iff_woken :
    let es : List Event := [.park,.fiq 0 0x40080000,.smc,.fiq 0 0x40080000]
    let s := exec (Stack.step testFrames) (Stack.start testFrames 0x40100000) es
    s.place = .below ∧ s.sp = 0x40100000 ∧ s.active = [] := by
  intro es s
  have hb : s.place = .below := by decide
  exact ⟨hb,(clean_below_iff testFrames 0x40100000 es hb).mpr (by decide)⟩

/-- CPU_ON, CPU_OFF, CPU_ON: the second WAKE interrupts the loop of el3_cpu_off, and its
`eret` to the kernel leaves the frames of the SLEEP behind. And a WAKE inside init_sec_core
leaves that function's frame behind. -/
theorem stack_leaks :
    (let es : List Event := [.park,.fiq 0 0x40080000,.fiq 1 0,.fiq 0 0x40080000]
    let s := exec (Stack.step testFrames) (Stack.start testFrames 0x40100000) es
    Along (Stack.step testFrames) Stack.Signalled (Stack.start testFrames 0x40100000) es ∧
      s.place = .below ∧ s.sp = 0x40100000 - 896 ∧ s.active = [1]) ∧
    let s := exec (Stack.step testFrames) (Stack.start testFrames 0x40100000) [.fiq 0 0x40080000]
    s.place = .below ∧ s.sp = 0x40100000 - 32 := by
  decide +kernel

end Arm64.El3Stack

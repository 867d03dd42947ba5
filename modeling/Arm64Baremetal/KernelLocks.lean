import Arm64Baremetal.SchedIntegrity

/-!
One core, lock by lock: the task code around the steps of kernel_sched.c, the
console lock of kernel_uart.c, and the interrupt handlers, which run masked. An
interrupt may come between any two steps of a task that does not mask it.
-/

set_option autoImplicit false

namespace Arm64
open Runs IntrusiveQueue

inductive Lock where
  | sched | console
  deriving DecidableEq

/-- Who holds a lock, all on the same core. -/
inductive Owner where
  | task (t : TaskRef)
  | handler
  deriving DecidableEq

/-- The steps of task code. `lock` is one attempt to take a free lock; a held one is
tried again. `createTask`, `taskExit` and `msleep` are what they do under sched_lock. -/
inductive Instr where
  | lock (l : Lock)
  | unlock (l : Lock)
  | maskInterrupts (masked : Bool)
  | createTask (entry taskExit stack : BitVec 64)
  | taskExit
  | msleep (ms : BitVec 32) (now : BitVec 64)
  | putc
  | yield
  | waitForInterrupt
  deriving DecidableEq

/-- The kernel's API. `chars` is how many characters reach kernel_putc, and `now` what
get_system_time will return. -/
inductive ApiCall where
  | print (chars : Nat)
  | msleep (ms : BitVec 32) (now : BitVec 64)
  | createTask (entry taskExit stack : BitVec 64) (chars : Nat)
  | taskExit
  deriving DecidableEq

/-- kernel_printf and kernel_puts -/
def printCode (chars : Nat) : List Instr :=
  .lock .console :: List.replicate chars .putc ++ [.unlock .console]

def ApiCall.code : ApiCall → List Instr
  | .print chars => printCode chars
  | .msleep ms now => [.lock .sched,.msleep ms now,.unlock .sched,.yield]
  | .createTask entry exit stack chars =>
    .lock .sched :: .createTask entry exit stack :: printCode chars ++ [.unlock .sched]
  | .taskExit =>
    [.maskInterrupts true,.lock .sched,.taskExit,.unlock .sched,.maskInterrupts false,
     .yield,.waitForInterrupt]

/-- Where an interrupted or switched-out task goes on, and its PSTATE.I. -/
structure TaskCtx where
  code : List Instr
  masked : Bool
  deriving DecidableEq

/-- Where kernel_irq is: sched_check_tasks, then schedule_task, or reaper_service. -/
inductive HandlerPc where
  | checkLock (now frame : BitVec 64)
  | check (now frame : BitVec 64)
  | checkUnlock (frame : BitVec 64)
  | scheduleLock (frame : BitVec 64)
  | schedule (frame : BitVec 64)
  | noTaskLock
  | noTaskUnlock
  | scheduleUnlock
  | reapLock
  | reap
  | reapPrintLock (z : TaskRef)
  | reapPrintUnlock (z : TaskRef)
  | reapFree (z : TaskRef)
  | reapUnlock
  deriving DecidableEq

def HandlerPc.wants : HandlerPc → Option Lock
  | .checkLock _ _ | .scheduleLock _ | .reapLock => some .sched
  | .noTaskLock | .reapPrintLock _ => some .console
  | _ => none

structure LockState where
  sched : Sched
  ctx : TaskRef → TaskCtx
  handler : Option HandlerPc
  holder : Lock → Option Owner

/-- `call` is the next call that the code of the current task makes, `task` and `handler`
one step of either, `irq` an interrupt. -/
inductive LockEvent where
  | call (k : ApiCall)
  | task
  | irq (id : BitVec 32) (now frame : BitVec 64)
  | handler
  deriving DecidableEq

namespace LockState

def setHolder (l : Lock) (o : Option Owner) (s : LockState) : LockState :=
  { s with holder := Function.update s.holder l o }

@[simp] theorem setHolder_holder (l : Lock) (o : Option Owner) (s : LockState) :
    (s.setHolder l o).holder l = o := Function.update_self ..

def setCtx (t : TaskRef) (k : TaskCtx) (s : LockState) : LockState :=
  { s with ctx := Function.update s.ctx t k }

/-- A new task starts at its entry, with SPSR_M_EL1H. -/
def startCtx (slot : Option (Fin maxTasks)) (s : LockState) : LockState :=
  match slot with
  | some i => s.setCtx (.pool i) ⟨[],false⟩
  | none => s

def instrStep (c : SchedCore) (t : TaskRef) (i : Instr) (rest : List Instr) (s : LockState) :
    LockState :=
  let done := s.setCtx t { s.ctx t with code := rest }
  match i with
  | .lock l => if s.holder l = none then done.setHolder l (some (.task t)) else s
  | .unlock l => done.setHolder l none
  | .maskInterrupts b => s.setCtx t ⟨rest,b⟩
  | .createTask entry exit stack =>
    { done.startCtx s.sched.emptySlot with sched := s.sched.createTask entry exit stack }
  | .taskExit => { done with sched := s.sched.taskExit c }
  | .msleep ms now => { done with sched := s.sched.msleep c ms now }
  | .putc => done
  | .yield => done
  | .waitForInterrupt => s

def taskStep (c : SchedCore) (s : LockState) : LockState :=
  match s.sched.current c with
  | none => s
  | some t =>
    match (s.ctx t).code with
    | [] => s
    | i :: rest => s.instrStep c t i rest

def goTo (pc : HandlerPc) (s : LockState) : LockState := { s with handler := some pc }

/-- The handler takes `l` and goes on at `pc`, or tries again. -/
def acquire (l : Lock) (pc : HandlerPc) (s : LockState) : LockState :=
  if s.holder l = none then (s.setHolder l (some .handler)).goTo pc else s

def handlerStep (c : SchedCore) (pc : HandlerPc) (s : LockState) : LockState :=
  match pc with
  | .checkLock now frame => s.acquire .sched (.check now frame)
  | .check now frame =>
    { s with sched := (s.sched.schedCheckTasks now).getD s.sched }.goTo (.checkUnlock frame)
  | .checkUnlock frame => (s.setHolder .sched none).goTo (.scheduleLock frame)
  | .scheduleLock frame => s.acquire .sched (.schedule frame)
  | .schedule frame =>
    match s.sched.current c with
    | none => s.goTo .noTaskLock
    | some _ => { s with sched := (s.sched.scheduleTask c frame).2 }.goTo .scheduleUnlock
  | .noTaskLock => s.acquire .console .noTaskUnlock
  | .noTaskUnlock => (s.setHolder .console none).goTo .scheduleUnlock
  | .scheduleUnlock => { s.setHolder .sched none with handler := none }
  | .reapLock => s.acquire .sched .reap
  | .reap =>
    match s.sched.taskDequeue .zombieQ with
    | (none,_) => { s with sched := s.sched.assignLocal .zombieQ }.goTo .reapUnlock
    | (some z,d) =>
      if (d.tasks z).coreId = 0xFF then { s with sched := d }.goTo (.reapPrintLock z)
      else { s with sched := d.taskEnqueue .onStack z }.goTo .reap
  | .reapPrintLock z => s.acquire .console (.reapPrintUnlock z)
  | .reapPrintUnlock z => (s.setHolder .console none).goTo (.reapFree z)
  | .reapFree z => { s with sched := s.sched.freeZombie z }.goTo .reap
  | .reapUnlock => { s.setHolder .sched none with handler := none }

def Interruptible (c : SchedCore) (s : LockState) : Prop :=
  s.handler = none ∧ ∃ t ∈ s.sched.current c, (s.ctx t).masked = false

instance (c : SchedCore) (s : LockState) : Decidable (s.Interruptible c) :=
  inferInstanceAs (Decidable (_ ∧ ∃ t ∈ s.sched.current c, _))

end LockState

/-- The three interrupts of the scheduler. Others do not concern its locks. -/
def handlerEntry (id : BitVec 32) (now frame : BitVec 64) : Option HandlerPc :=
  if id = cntpIntid ∨ id = schedulerYield then some (.checkLock now frame)
  else if id = schedulerGc then some .reapLock
  else none

def lockStep (c : SchedCore) (s : LockState) : LockEvent → LockState
  | .call k =>
    match s.handler, s.sched.current c with
    | none, some t =>
      if (s.ctx t).code = [] then s.setCtx t { s.ctx t with code := k.code } else s
    | _, _ => s
  | .task => if s.handler = none then s.taskStep c else s
  | .irq id now frame =>
    if s.Interruptible c then { s with handler := handlerEntry id now frame } else s
  | .handler =>
    match s.handler with
    | none => s
    | some pc => s.handlerStep c pc

/-- The handler waits for a lock that some context of the core holds; no context of the
core runs before the handler returns. -/
def SelfDeadlock (s : LockState) : Prop :=
  ∃ pc ∈ s.handler, ∃ l ∈ pc.wants, s.holder l ≠ none

instance (s : LockState) : Decidable (SelfDeadlock s) :=
  inferInstanceAs (Decidable (∃ pc ∈ s.handler, ∃ l ∈ pc.wants, _))

/-- An interrupt finds sched_lock free, and SCHEDULER_GC with a zombie to clean finds
kernel_lock free. -/
def FindsLocksFree (c : SchedCore) (s : LockState) : LockEvent → Prop
  | .irq id _ _ => s.Interruptible c → s.holder .sched = none ∧
      (id = schedulerGc → (s.sched.queues .zombieQ).head ≠ none → s.holder .console = none)
  | _ => True

instance (c : SchedCore) (s : LockState) : (e : LockEvent) → Decidable (FindsLocksFree c s e)
  | .irq _ _ _ => inferInstanceAs (Decidable (_ → _ ∧ (_ → _ → _)))
  | .call _ | .task | .handler => inferInstanceAs (Decidable True)

/-- Who holds which lock at each point of the handler, when it never waits. -/
def HandlerOk (s : LockState) : HandlerPc → Prop
  | .checkLock _ _ | .scheduleLock _ => s.holder .sched = none
  | .check _ _ | .checkUnlock _ | .schedule _ | .scheduleUnlock | .reapUnlock => True
  | .noTaskLock | .noTaskUnlock => False
  | .reapLock => s.holder .sched = none ∧
      (s.holder .console = none ∨ (s.sched.queues .zombieQ).head = none)
  | .reap => s.holder .console = none ∨ (s.sched.queues .zombieQ).head = none
  | .reapPrintLock _ => s.holder .console = none
  | .reapPrintUnlock _ => s.holder .console = some .handler
  | .reapFree _ => s.holder .console = none

structure LockInv (c : SchedCore) (s : LockState) : Prop where
  current : (s.sched.current c).isSome
  handler : ∀ pc, s.handler = some pc → HandlerOk s pc

variable {c : SchedCore} {s : LockState}

theorem HandlerOk.not_waiting {pc : HandlerPc} (h : HandlerOk s pc) :
    ∀ l ∈ pc.wants, s.holder l = none := by
  intro l hl
  cases pc with
  | checkLock now frame => obtain rfl := Option.some.inj hl; exact h
  | scheduleLock frame => obtain rfl := Option.some.inj hl; exact h
  | reapLock => obtain rfl := Option.some.inj hl; exact h.1
  | noTaskLock => exact h.elim
  | reapPrintLock z => obtain rfl := Option.some.inj hl; exact h
  | _ => exact absurd hl nofun

theorem LockInv.not_selfDeadlock (h : LockInv c s) : ¬ SelfDeadlock s := by
  rintro ⟨pc,hpc,l,hl,hne⟩
  exact hne ((h.handler pc hpc).not_waiting l hl)

theorem checkOne_current {s t : Sched} {now : BitVec 64} (h : s.checkOne now = some t) :
    t.current = s.current := by
  have hd : (s.taskDequeue .sleepQ).2.current = s.current := rfl
  unfold Sched.checkOne at h
  split at h
  · contradiction
  · rename_i u d hu
    rw [hu] at hd
    split at h
    · obtain rfl := Option.some.inj h
      exact hd
    · obtain rfl := Option.some.inj h
      exact hd

theorem schedCheckTasks_current {s t : Sched} {now : BitVec 64}
    (h : s.schedCheckTasks now = some t) : t.current = s.current := by
  obtain ⟨u,hu,rfl⟩ := Option.map_eq_some_iff.mp h
  exact whileSome_invariant (I := fun v => v.current = s.current)
    (fun _ _ hb hv => (checkOne_current hb).trans hv) hu rfl

theorem scheduleTask_current {s : Sched} {t : TaskRef} (ht : s.current c = some t)
    (frame : BitVec 64) : ((s.scheduleTask c frame).2.current c).isSome := by
  simp only [Sched.scheduleTask,ht]
  rw [(pickNext_spec _ c t).2.2.2.1,Function.update_self]
  rfl

theorem dequeue_of_head {s : Sched} {q : QueueId} (h : (s.queues q).head = none) :
    (s.taskDequeue q).1 = none := by
  simp only [Sched.taskDequeue,dequeue,h]

theorem LockInv.goTo {pc : HandlerPc} (hc : (s.sched.current c).isSome)
    (hok : HandlerOk (s.goTo pc) pc) : LockInv c (s.goTo pc) where
  current := hc
  handler pc' hp := by
    obtain rfl := Option.some.inj hp
    exact hok

theorem LockInv.acquire (h : LockInv c s) {l : Lock} {pc : HandlerPc} (hfree : s.holder l = none)
    (hok : HandlerOk ((s.setHolder l (some .handler)).goTo pc) pc) :
    LockInv c (s.acquire l pc) := by
  rw [LockState.acquire,if_pos hfree]
  exact .goTo h.current hok

theorem LockInv.reap (h : LockInv c s)
    (hok : s.holder .console = none ∨ (s.sched.queues .zombieQ).head = none) :
    LockInv c (s.handlerStep c .reap) := by
  have hcur : (s.sched.taskDequeue .zombieQ).2.current = s.sched.current := rfl
  simp only [LockState.handlerStep]
  split
  · exact .goTo h.current trivial
  · rename_i z d hz
    -- a dequeued zombie means that zombie_q was not empty
    have hfree : s.holder .console = none := by
      rcases hok with hfree | hhead
      · exact hfree
      · have := dequeue_of_head hhead
        rw [hz] at this
        contradiction
    rw [hz] at hcur
    have hc : (d.current c).isSome := by
      rw [hcur]
      exact h.current
    split
    · exact .goTo hc hfree
    · exact .goTo hc (.inl hfree)

theorem handlerStep_inv {pc : HandlerPc} (h : LockInv c s) (hpc : s.handler = some pc) :
    LockInv c (s.handlerStep c pc) := by
  have hok := h.handler pc hpc
  obtain ⟨t,ht⟩ := Option.isSome_iff_exists.mp h.current
  cases pc with
  | checkLock now frame => exact h.acquire hok trivial
  | check now frame =>
    refine .goTo ?_ trivial
    cases hs : s.sched.schedCheckTasks now with
    | none => exact h.current
    | some d =>
      rw [Option.getD_some,schedCheckTasks_current hs]
      exact h.current
  | checkUnlock frame => exact .goTo h.current (s.setHolder_holder .sched none)
  | scheduleLock frame => exact h.acquire hok trivial
  | schedule frame =>
    simp only [LockState.handlerStep,ht]
    exact .goTo (scheduleTask_current ht frame) trivial
  | noTaskLock => exact hok.elim
  | noTaskUnlock => exact hok.elim
  | scheduleUnlock => exact ⟨h.current,nofun⟩
  | reapLock => exact h.acquire hok.1 hok.2
  | reap => exact h.reap hok
  | reapPrintLock z => exact h.acquire hok (s.setHolder_holder .console (some .handler))
  | reapPrintUnlock z => exact .goTo h.current (s.setHolder_holder .console none)
  | reapFree z => exact .goTo h.current (.inl hok)
  | reapUnlock => exact ⟨h.current,nofun⟩

theorem startCtx_handler (slot : Option (Fin maxTasks)) (s : LockState) :
    (s.startCtx slot).handler = s.handler := by
  unfold LockState.startCtx
  split <;> rfl

theorem instrStep_frame (s : LockState) (t : TaskRef) (i : Instr) (rest : List Instr) :
    (s.instrStep c t i rest).handler = s.handler ∧
      (s.instrStep c t i rest).sched.current = s.sched.current := by
  cases i with
  | lock l =>
    simp only [LockState.instrStep]
    split <;> exact ⟨rfl,rfl⟩
  | createTask entry exit stack => exact ⟨startCtx_handler _ _,createTask_current entry exit stack⟩
  | taskExit => exact ⟨rfl,taskExit_current⟩
  | msleep ms now => exact ⟨rfl,msleep_current ms now⟩
  | _ => exact ⟨rfl,rfl⟩

theorem taskStep_inv (h : LockInv c s) (hn : s.handler = none) : LockInv c (s.taskStep c) := by
  unfold LockState.taskStep
  split
  · exact h
  · split
    · exact h
    · rename_i t _ _ i rest _
      obtain ⟨hh,hc⟩ := instrStep_frame (c := c) s t i rest
      refine ⟨by rw [hc]; exact h.current,fun pc hp => ?_⟩
      exact absurd (hp.symm.trans (hh.trans hn)) nofun

theorem lockStep_inv {e : LockEvent} (h : LockInv c s) (he : FindsLocksFree c s e) :
    LockInv c (lockStep c s e) := by
  cases e with
  | call k =>
    simp only [lockStep]
    split
    · rename_i t hn hc
      split
      · exact ⟨h.current,fun pc hp => absurd (hp.symm.trans hn) nofun⟩
      · exact h
    · exact h
  | task =>
    simp only [lockStep]
    split
    · rename_i hn
      exact taskStep_inv h hn
    · exact h
  | irq id now frame =>
    simp only [lockStep]
    split
    · rename_i hi
      obtain ⟨hs,hk⟩ := he hi
      refine ⟨h.current,fun pc hp => ?_⟩
      change handlerEntry id now frame = some pc at hp
      unfold handlerEntry at hp
      split at hp
      · obtain rfl := Option.some.inj hp
        exact hs
      · split at hp
        · rename_i hgc
          obtain rfl := Option.some.inj hp
          refine ⟨hs,?_⟩
          by_cases hz : (s.sched.queues .zombieQ).head = none
          · exact .inr hz
          · exact .inl (hk hgc hz)
        · contradiction
    · exact h
  | handler =>
    simp only [lockStep]
    split
    · exact h
    · rename_i pc hpc
      exact handlerStep_inv h hpc

/-- When every interrupt finds the locks free that its handler takes, no handler ever waits
for a lock of its own core, whatever API calls the tasks make. -/
theorem no_self_deadlock (c : SchedCore) (s : LockState) (hc : (s.sched.current c).isSome)
    (hn : s.handler = none) (es : List LockEvent)
    (h : Along (lockStep c) (FindsLocksFree c) s es) : ¬ SelfDeadlock (exec (lockStep c) s es) :=
  (exec_invariant (fun _ _ => lockStep_inv)
    (⟨hc,fun _ hp => absurd (hp.symm.trans hn) nofun⟩ : LockInv c s) h).not_selfDeadlock

/-- Nothing gets a core out of a self-deadlock. -/
theorem SelfDeadlock.forever (h : SelfDeadlock s) (e : LockEvent) : lockStep c s e = s := by
  obtain ⟨pc,hpc,l,hl,hne⟩ := h
  have hpc : s.handler = some pc := hpc
  have hacq : ∀ l' pc', pc.wants = some l' → s.acquire l' pc' = s := by
    intro l' pc' hl'
    obtain rfl := Option.some.inj (hl'.symm.trans hl)
    exact if_neg hne
  cases e with
  | call k => simp only [lockStep,hpc]
  | task => simp only [lockStep,hpc,reduceCtorEq,if_false]
  | irq id now frame =>
    have hi : ¬ s.Interruptible c := fun hi => absurd (hi.1.symm.trans hpc) nofun
    simp only [lockStep,if_neg hi]
  | handler =>
    simp only [lockStep,hpc]
    cases pc with
    | checkLock now frame => exact hacq _ _ rfl
    | scheduleLock frame => exact hacq _ _ rfl
    | reapLock => exact hacq _ _ rfl
    | noTaskLock => exact hacq _ _ rfl
    | reapPrintLock z => exact hacq _ _ rfl
    | _ => exact absurd hl nofun

/-- Core 0 as c_entry leaves it after two calls of create_task. -/
def bootLocks : LockState where
  sched := ((bootSched.initSched 0).createTask 0x100 0x900 0x10000).createTask 0x200 0x900 0x20000
  ctx _ := ⟨[],false⟩
  handler := none
  holder _ := none

def timerIrq : List LockEvent := .irq 30 10 0x30000 :: List.replicate 6 .handler

/-- The timer interrupts msleep between its spin_lock and its spin_unlock; and a task is
switched away in kernel_printf before another one is reaped. -/
theorem timer_deadlocks_msleep :
    let msleep := timerIrq ++ [.call (.msleep 5 10),.task,.irq 30 11 0x13000]
    let print := timerIrq ++ [.call (.print 3),.task] ++ timerIrq ++
      .call .taskExit :: List.replicate 6 .task ++ timerIrq ++ [.irq 9 12 0x13000,.handler,.handler]
    SelfDeadlock (exec (lockStep 0) bootLocks msleep) ∧
    SelfDeadlock (exec (lockStep 0) bootLocks print) := by
  decide

/-- The same calls, with the interrupts between them. -/
theorem no_self_deadlock_between_calls :
    let es := timerIrq ++ .call (.msleep 5 10) :: List.replicate 4 .task ++ timerIrq ++
      .call (.print 1) :: List.replicate 3 .task ++ .call .taskExit :: List.replicate 6 .task ++
      timerIrq ++ .irq 9 12 0x13000 :: List.replicate 6 .handler
    (bootLocks.sched.current 0).isSome ∧ bootLocks.handler = none ∧
    Along (lockStep 0) (FindsLocksFree 0) bootLocks es ∧
    ¬ SelfDeadlock (exec (lockStep 0) bootLocks es) := by
  intro es
  have hl : Along (lockStep 0) (FindsLocksFree 0) bootLocks es := by decide
  exact ⟨rfl,rfl,hl,no_self_deadlock 0 bootLocks rfl rfl es hl⟩

end Arm64

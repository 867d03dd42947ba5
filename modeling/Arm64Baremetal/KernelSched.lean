import Arm64Baremetal.IntrusiveQueue
import Arm64Baremetal.Runs
import Mathlib.Algebra.Ring.Nat
import Mathlib.Data.Fintype.Sum

/-!
kernel_sched.c and the scheduling part of kernel_irq, on two cores. Each function
here is what its source does while it holds sched_lock, so it is one step.
-/

set_option autoImplicit false

namespace Arm64
open IntrusiveQueue

abbrev maxTasks : Nat := 64

instance neZero_maxTasks : NeZero maxTasks := ⟨by decide⟩

abbrev idleTasks : Nat := 2

instance neZero_idleTasks : NeZero idleTasks := ⟨by decide⟩

/-- A core with an entry in idle_tasks[]. -/
abbrev SchedCore := Fin idleTasks

def taskStackSize : BitVec 64 := 12 * 1024
def sizeofTrapFrame : BitVec 64 := 816
def schedulerYield : BitVec 32 := 8
def schedulerGc : BitVec 32 := 9
def cntpIntid : BitVec 32 := 30

inductive TaskState where
  | empty | ready | running | sleeping | zombie
  deriving DecidableEq

/-- task_t, without `next`: the links of all tasks are in `Sched.next`. -/
structure Task where
  frame : BitVec 64
  taskId : BitVec 32
  coreId : BitVec 32
  state : TaskState
  wakeTick : BitVec 64
  stackBase : BitVec 64
  deriving DecidableEq

/-- `task_t *` -/
inductive TaskRef where
  | pool (i : Fin maxTasks)
  | idle (core : SchedCore)
  deriving DecidableEq

def TaskRef.equiv : TaskRef ≃ Fin maxTasks ⊕ SchedCore where
  toFun
    | .pool i => .inl i
    | .idle c => .inr c
  invFun
    | .inl i => .pool i
    | .inr c => .idle c
  left_inv t := by cases t <;> rfl
  right_inv t := by cases t <;> rfl

instance : Fintype TaskRef := Fintype.ofEquiv _ TaskRef.equiv.symm

theorem card_taskRef : Fintype.card TaskRef = maxTasks + 2 := by
  rw [Fintype.card_congr TaskRef.equiv]; rfl

/-- `onStack` is the local queue of sched_check_tasks and reaper_service, empty when
neither runs. -/
inductive QueueId where
  | readyQ | zombieQ | sleepQ | onStack
  deriving DecidableEq

/-- Calls and writes that leave the scheduler's own data. -/
inductive SchedIo where
  | printf (fmt : String) (arg : Option (BitVec 32))
  | memZero (ptr size : BitVec 64)
  | store (ptr val : BitVec 64)
  | freePages (ptr : BitVec 64) (numPages : BitVec 32)
  | sgi1 (core : SchedCore) (sgi : BitVec 32)
  | dispatch (interruptId : BitVec 32)
  deriving DecidableEq

/-- The globals of kernel_sched.c, and tpidr_el1 of each core in `current`. -/
structure Sched where
  tasks : TaskRef → Task
  next : TaskRef → Option TaskRef
  queues : QueueId → Queue TaskRef
  nextTaskId : BitVec 32
  current : SchedCore → Option TaskRef
  io : List SchedIo

def Task.zero : Task where
  frame := 0
  taskId := 0
  coreId := 0
  state := .empty
  wakeTick := 0
  stackBase := 0

namespace Sched

def emit (i : SchedIo) (s : Sched) : Sched := { s with io := i :: s.io }

def setTask (t : TaskRef) (k : Task) (s : Sched) : Sched :=
  { s with tasks := Function.update s.tasks t k }

def state (s : Sched) (t : TaskRef) : TaskState := (s.tasks t).state

theorem state_setTask (t : TaskRef) (k : Task) (s : Sched) :
    (s.setTask t k).state = Function.update s.state t k.state := by
  funext u
  by_cases hu : u = t
  · subst hu; simp [state,setTask]
  · simp [state,setTask,Function.update_of_ne hu]

def setState (t : TaskRef) (st : TaskState) (s : Sched) : Sched :=
  s.setTask t { s.tasks t with state := st }

def taskEnqueue (q : QueueId) (t : TaskRef) (s : Sched) : Sched :=
  let r := enqueue s.next (s.queues q) t
  { s with next := r.1, queues := Function.update s.queues q r.2 }

def taskDequeue (q : QueueId) (s : Sched) : Option TaskRef × Sched :=
  let r := dequeue s.next (s.queues q)
  (r.1,{ s with next := r.2.1, queues := Function.update s.queues q r.2.2 })

/-- `q = onStack`, and the local queue goes out of scope. -/
def assignLocal (q : QueueId) (s : Sched) : Sched :=
  let queues := Function.update s.queues q (s.queues .onStack)
  { s with queues := Function.update queues .onStack .empty }

/-- init_sched on a core: both arrays zeroed, then the idle task of this core. -/
def initSched (core : SchedCore) (s : Sched) : Sched :=
  { s with
    tasks := Function.update (fun _ => .zero) (.idle core)
      { Task.zero with state := .running, coreId := BitVec.ofNat 32 core.val }
    next := fun _ => none
    current := Function.update s.current core (some (.idle core)) }

def initSchedCore (core : SchedCore) (s : Sched) : Sched :=
  let s := s.setTask (.idle core) { s.tasks (.idle core) with
    taskId := 0, state := .running, coreId := BitVec.ofNat 32 core.val }
  { s with current := Function.update s.current core (some (.idle core)) }

/-- The search of create_task, which starts at slot 1. -/
def emptySlot (s : Sched) : Option (Fin maxTasks) :=
  (List.finRange maxTasks).find? fun i => 1 ≤ i.val ∧ (s.tasks (.pool i)).state = .empty

def newTask (stack : BitVec 64) (s : Sched) (t : TaskRef) : Task :=
  { s.tasks t with
    taskId := s.nextTaskId + 1
    stackBase := stack
    state := .ready
    coreId := 0xFF
    frame := stack + taskStackSize - sizeofTrapFrame }

/-- create_task, with the link address of task_exit and the result of its
mm_allocate_pages. -/
def createTask (entry taskExit stack : BitVec 64) (s : Sched) : Sched :=
  match s.emptySlot with
  | none => s.emit (.printf "[SCHED] Error. Maximum tasks reached\n" none)
  | some i =>
    let t := TaskRef.pool i
    let k := s.newTask stack t
    let s := s.emit (.memZero stack taskStackSize)
    let s := { s with nextTaskId := s.nextTaskId + 1 }.setTask t k
    let s := s.emit (.store (k.frame + 256) entry)
    let s := s.emit (.store (k.frame + 240) taskExit)
    let s := s.emit (.store (k.frame + 248) 0x5)
    let s := s.taskEnqueue .readyQ t
    s.emit (.printf "[SCHED] Created task %d\n" (some k.taskId))

/-- task_exit up to its spin_unlock. -/
def taskExit (core : SchedCore) (s : Sched) : Sched :=
  match s.current core with
  | none => s
  | some current => s.setState current .zombie

/-- msleep up to its spin_unlock; `now` is what get_system_time returns. -/
def msleep (core : SchedCore) (ms : BitVec 32) (now : BitVec 64) (s : Sched) : Sched :=
  match s.current core with
  | none => s
  | some current =>
    (s.setTask current { s.tasks current with
      wakeTick := now + ms.setWidth 64, state := .sleeping }).taskEnqueue .sleepQ current

/-- The switch on current->state in schedule_task. -/
def putAway (core : SchedCore) (current : TaskRef) (s : Sched) : Sched :=
  match (s.tasks current).state with
  | .zombie => s.taskEnqueue .zombieQ current
  | .running =>
    if current ≠ .idle core then (s.setState current .ready).taskEnqueue .readyQ current else s
  | _ => s

/-- `if (current != next) current->core_id = 0xFF;` -/
def releaseCore (current next : TaskRef) (s : Sched) : Sched :=
  if current ≠ next then s.setTask current { s.tasks current with coreId := 0xFF } else s

/-- `if (current->state == TASK_ZOMBIE) send_sgi1_to_core(core_id, SCHEDULER_GC);` -/
def signalGc (core : SchedCore) (current : TaskRef) (s : Sched) : Sched :=
  if s.state current = .zombie then s.emit (.sgi1 core schedulerGc) else s

/-- The rest of schedule_task. -/
def pickNext (core : SchedCore) (current : TaskRef) (s : Sched) : TaskRef × Sched :=
  let r := s.taskDequeue .readyQ
  let next := r.1.getD (.idle core)
  let s := (r.2.releaseCore current next).signalGc core current
  let s := s.setTask next { s.tasks next with
    state := .running, coreId := BitVec.ofNat 32 core.val }
  (next,{ s with current := Function.update s.current core (some next) })

def scheduleTask (core : SchedCore) (frame : BitVec 64) (s : Sched) : Option TaskRef × Sched :=
  match s.current core with
  | none => (none,s.emit (.printf "No tasks to schedule\n" none))
  | some current =>
    let s := s.setTask current { s.tasks current with frame := frame }
    let r := (s.putAway core current).pickNext core current
    (some r.1,r.2)

/-- More turns than a queue without repeated tasks can take. -/
def loopBound : Nat := maxTasks + 3

/-- What reaper_service does to a zombie that no core runs. -/
def freeZombie (z : TaskRef) (s : Sched) : Sched :=
  let s := s.emit (.printf "[REAPER] Cleaning task %d\n" (some (s.tasks z).taskId))
  let s := s.emit (.freePages (s.tasks z).stackBase 3)
  { s.setTask z .zero with next := Function.update s.next z none }

/-- One turn of the loop in reaper_service. -/
def reapOne (s : Sched) : Option Sched :=
  match s.taskDequeue .zombieQ with
  | (none,_) => none
  | (some z,s) =>
    if (s.tasks z).coreId = 0xFF then some (s.freeZombie z) else some (s.taskEnqueue .onStack z)

def reaperService (s : Sched) : Option Sched :=
  (Runs.whileSome reapOne loopBound s).map (assignLocal .zombieQ)

/-- One turn of the loop in sched_check_tasks. -/
def checkOne (now : BitVec 64) (s : Sched) : Option Sched :=
  match s.taskDequeue .sleepQ with
  | (none,_) => none
  | (some t,s) =>
    if (s.tasks t).wakeTick ≤ now then some ((s.setState t .ready).taskEnqueue .readyQ t)
    else some (s.taskEnqueue .onStack t)

def schedCheckTasks (now : BitVec 64) (s : Sched) : Option Sched :=
  (Runs.whileSome (checkOne now) loopBound s).map (assignLocal .sleepQ)

end Sched

/-- `next = schedule_task(frame); if (next != ZERO) next_frame = next->frame;` -/
def scheduleFrame (core : SchedCore) (frame : BitVec 64) (s : Sched) : BitVec 64 × Sched :=
  let r := s.scheduleTask core frame
  (r.1.elim frame fun next => (r.2.tasks next).frame,r.2)

/-- What kernel_irq does to the scheduler, and the frame it returns. -/
def kernelIrq (core : SchedCore) (iar : BitVec 32) (now frame : BitVec 64) (s : Sched) :
    Option (BitVec 64 × Sched) :=
  let interruptId := iar &&& 0xFFFFFF
  if interruptId = 0 then some (frame,s)
  else if interruptId = cntpIntid ∨ interruptId = schedulerYield then
    (s.schedCheckTasks now).map (scheduleFrame core frame)
  else if interruptId = schedulerGc then s.reaperService.map (frame,·)
  else if 32 ≤ interruptId ∧ interruptId < 1020 then some (frame,s.emit (.dispatch interruptId))
  else some (frame,s.emit (.printf "Interrupt ID %d signaled on CPU %d\n" (some interruptId)))

/-- INTERRUPT_ID_MASK of `iar` is CNTP_INTID or SCHEDULER_YIELD. -/
def Schedules (iar : BitVec 32) : Prop :=
  iar &&& 0xFFFFFF = cntpIntid ∨ iar &&& 0xFFFFFF = schedulerYield

instance (iar : BitVec 32) : Decidable (Schedules iar) := inferInstanceAs (Decidable (_ ∨ _))

theorem kernelIrq_schedules {iar : BitVec 32} (hs : Schedules iar) (c : SchedCore)
    (now frame : BitVec 64) (s : Sched) :
    kernelIrq c iar now frame s = (s.schedCheckTasks now).map (scheduleFrame c frame) := by
  have h0 : iar &&& 0xFFFFFF ≠ 0 := by
    rcases hs with h | h <;> rw [h] <;> decide
  have hs' : iar &&& 0xFFFFFF = cntpIntid ∨ iar &&& 0xFFFFFF = schedulerYield := hs
  simp only [kernelIrq,if_neg h0,if_pos hs']

end Arm64

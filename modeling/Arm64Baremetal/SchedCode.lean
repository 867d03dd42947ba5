import Arm64Baremetal.Commands
import Arm64Baremetal.ReaperTask
import Arm64Baremetal.SchedSwitch

/-!
What the functions of kernel_sched.c do between spin_lock and spin_unlock, statement by
statement, and that these statements come to the steps of the scheduler when nothing comes
between them.
-/

set_option autoImplicit false

namespace Arm64
open Commands Runs IntrusiveQueue

/-- The variables on the stack. `t` is also `next` and `z`, and `queue` is `zombies` or
`sleeping`. -/
structure SchedLocals where
  i : Nat
  t : Option TaskRef
  current : Option TaskRef
  queue : Queue TaskRef

namespace SchedCode

abbrev Frame := SchedLocals × Sched
abbrev Code := Cmd Frame

/-- `task_t *` -/
inductive Ptr where
  | t | current

def Ptr.get (l : SchedLocals) : Ptr → Option TaskRef
  | .t => l.t
  | .current => l.current

/-- `queue_t *` -/
inductive QueuePtr where
  | shared (q : QueueId)
  | own

def queue : QueuePtr → Frame → Queue TaskRef
  | .shared q,x => x.2.queues q
  | .own,x => x.1.queue

def setQueue (q : QueuePtr) (r : Queue TaskRef) (x : Frame) : Frame :=
  match q with
  | .shared q => (x.1,{ x.2 with queues := Function.update x.2.queues q r })
  | .own => ({ x.1 with queue := r },x.2)

def setHead (q : QueuePtr) (o : Option TaskRef) (x : Frame) : Frame :=
  setQueue q { queue q x with head := o } x

def setTail (q : QueuePtr) (o : Option TaskRef) (x : Frame) : Frame :=
  setQueue q { queue q x with tail := o } x

def setNext (t : TaskRef) (o : Option TaskRef) (x : Frame) : Frame :=
  (x.1,{ x.2 with next := Function.update x.2.next t o })

def deref (p : Ptr) (f : TaskRef → Frame → Frame) : Code :=
  .act fun x => (p.get x.1).elim x fun t => f t x

def setField (p : Ptr) (f : Sched → Task → Task) : Code :=
  deref p fun t x => (x.1,x.2.setTask t (f x.2 (x.2.tasks t)))

def onSched (f : SchedLocals → Sched → Sched) : Code := .act fun x => (x.1,f x.1 x.2)
def onLocals (f : SchedLocals → Sched → SchedLocals) : Code := .act fun x => (f x.1 x.2,x.2)
def emit (f : Sched → Task → SchedIo) (p : Ptr) : Code :=
  deref p fun t x => (x.1,x.2.emit (f x.2 (x.2.tasks t)))

def taskEnqueue (q : QueuePtr) (p : Ptr) : Code := .ofList
  [deref p fun t => setNext t none,
   .ite (fun x => (queue q x).tail.isNone)
    (.ofList [deref p fun t => setTail q (some t),deref p fun t => setHead q (some t)])
    (.ofList [deref p fun t x => (queue q x).tail.elim x fun l => setNext l (some t) x,
      deref p fun t => setTail q (some t)])]

/-- `t = task_dequeue(q)` -/
def taskDequeue (q : QueuePtr) : Code :=
  .ite (fun x => (queue q x).head.isNone) (onLocals fun l _ => { l with t := none }) (.ofList
    [.act fun x => ({ x.1 with t := (queue q x).head },x.2),
     .act fun x => setHead q ((queue q x).head.bind x.2.next) x,
     .ite (fun x => (queue q x).head.isNone) (.act (setTail q none)) .skip,
     deref .t fun t => setNext t none])

/-- The search of create_task, which leaves its loop with `t` set. -/
def search : Code :=
  .loop .skip (fun x => x.1.i < maxTasks && x.1.t.isNone)
    (.ite (fun x => (x.2.tasks (.pool (Fin.ofNat maxTasks x.1.i))).state = .empty)
      (onLocals fun l _ => { l with t := some (.pool (Fin.ofNat maxTasks l.i)) })
      (onLocals fun l _ => { l with i := l.i + 1 }))

/-- What create_task does with the free slot `t`. -/
def fillTask (entry taskExit stack : BitVec 64) : Code := .ofList
  [onSched fun _ s => s.emit (.memZero stack taskStackSize),
   onSched fun _ s => { s with nextTaskId := s.nextTaskId + 1 },
   setField .t fun s k => { k with taskId := s.nextTaskId },
   setField .t fun _ k => { k with stackBase := stack },
   setField .t fun _ k => { k with state := .ready },
   setField .t fun _ k => { k with coreId := 0xFF },
   setField .t fun _ k => { k with frame := stack + taskStackSize - sizeofTrapFrame },
   emit (fun _ k => .store (k.frame + 256) entry) .t,
   emit (fun _ k => .store (k.frame + 240) taskExit) .t,
   emit (fun _ k => .store (k.frame + 248) 0x5) .t,
   taskEnqueue (.shared .readyQ) .t,
   emit (fun _ k => .printf "[SCHED] Created task %d\n" (some k.taskId)) .t]

def createTask (entry taskExit stack : BitVec 64) : Code := .ofList
  [onLocals fun l _ => { l with t := none, i := 1 },search,
   .ite (fun x => x.1.t.isNone)
    (onSched fun _ s => s.emit (.printf "[SCHED] Error. Maximum tasks reached\n" none))
    (fillTask entry taskExit stack)]

def getCurrentTask (core : SchedCore) : Code :=
  onLocals fun l s => { l with current := s.current core }

def taskExit (core : SchedCore) : Code := .ofList
  [getCurrentTask core,setField .current fun _ k => { k with state := .zombie }]

/-- `now` is what get_system_time returns. -/
def msleep (core : SchedCore) (ms : BitVec 32) (now : BitVec 64) : Code := .ofList
  [getCurrentTask core,
   setField .current fun _ k => { k with wakeTick := now + ms.setWidth 64 },
   setField .current fun _ k => { k with state := .sleeping },
   taskEnqueue (.shared .sleepQ) .current]

def currentState (x : Frame) : TaskState := x.1.current.elim .empty x.2.state

/-- The switch on current->state. -/
def putAway (core : SchedCore) : Code :=
  .ite (fun x => currentState x = .zombie) (taskEnqueue (.shared .zombieQ) .current)
    (.ite (fun x => currentState x = .running)
      (.ite (fun x => x.1.current ≠ some (.idle core))
        (.ofList [setField .current fun _ k => { k with state := .ready },
          taskEnqueue (.shared .readyQ) .current]) .skip) .skip)

/-- The rest of schedule_task. -/
def pickNext (core : SchedCore) : Code := .ofList
  [taskDequeue (.shared .readyQ),
   .ite (fun x => x.1.t.isNone) (onLocals fun l _ => { l with t := some (.idle core) }) .skip,
   .ite (fun x => x.1.current ≠ x.1.t) (setField .current fun _ k => { k with coreId := 0xFF })
     .skip,
   .ite (fun x => currentState x = .zombie) (onSched fun _ s => s.emit (.sgi1 core schedulerGc))
     .skip,
   setField .t fun _ k => { k with state := .running },
   setField .t fun _ k => { k with coreId := BitVec.ofNat 32 core.val },
   onSched fun l s => { s with current := Function.update s.current core l.t }]

def scheduleTask (core : SchedCore) (frame : BitVec 64) : Code := .ofList
  [getCurrentTask core,
   .ite (fun x => x.1.current.isNone)
    (onSched fun _ s => s.emit (.printf "No tasks to schedule\n" none))
    (.ofList [setField .current fun _ k => { k with frame := frame },putAway core,pickNext core])]

def freeZombie (fmt : String) : Code := .ofList
  [emit (fun _ k => .printf fmt (some k.taskId)) .t,
   emit (fun _ k => .freePages k.stackBase 3) .t,
   deref .t fun t x => setNext t none (x.1,x.2.setTask t .zero)]

def released (x : Frame) : Bool := x.1.t.all fun t => (x.2.tasks t).coreId = 0xFF

/-- One turn of the loop in reaper_task. -/
def reaperTask : Code := .ofList
  [taskDequeue (.shared .zombieQ),
   .ite (fun x => x.1.t.isNone) .skip
    (.ite released (freeZombie "[REAPER] Freeing task %d\n")
      (taskEnqueue (.shared .zombieQ) .t))]

/-- The queue `q` is taken apart into a local one, which then takes its place. -/
def drain (q : QueueId) (body : Code) : Code := .ofList
  [.act (setQueue .own .empty),
   .loop (taskDequeue (.shared q)) (fun x => x.1.t.isSome) body,
   .act fun x => setHead (.shared q) x.1.queue.head x,
   .act fun x => setTail (.shared q) x.1.queue.tail x]

def reaperService : Code := drain .zombieQ
  (.ite released (freeZombie "[REAPER] Cleaning task %d\n") (taskEnqueue .own .t))

def due (now : BitVec 64) (x : Frame) : Bool := x.1.t.all fun t => (x.2.tasks t).wakeTick ≤ now

def schedCheckTasks (now : BitVec 64) : Code := drain .sleepQ
  (.ite (due now)
    (.ofList [setField .t fun _ k => { k with state := .ready },taskEnqueue (.shared .readyQ) .t])
    (taskEnqueue .own .t))

section Queues
variable {q : QueuePtr} {p : Ptr} {x : Frame} {t : TaskRef}

def put (q : QueuePtr) (t : TaskRef) (x : Frame) : Frame :=
  let r := enqueue x.2.next (queue q x) t
  setQueue q r.2 (x.1,{ x.2 with next := r.1 })

def take (q : QueuePtr) (x : Frame) : Frame :=
  let r := dequeue x.2.next (queue q x)
  setQueue q r.2.2 ({ x.1 with t := r.1 },{ x.2 with next := r.2.1 })

theorem queue_setQueue (r : Queue TaskRef) : queue q (setQueue q r x) = r := by
  cases q with
  | shared q => exact Function.update_self ..
  | own => rfl

theorem setQueue_setQueue (r r' : Queue TaskRef) :
    setQueue q r' (setQueue q r x) = setQueue q r' x := by
  cases q with
  | shared q => simp only [setQueue,Function.update_idem]
  | own => rfl

theorem setQueue_self : setQueue q (queue q x) x = x := by
  cases q with
  | shared q => simp only [setQueue,queue,Function.update_eq_self]
  | own => rfl

@[simp] theorem get_setQueue (r : Queue TaskRef) : p.get (setQueue q r x).1 = p.get x.1 := by
  cases q <;> cases p <;> rfl

@[simp] theorem snd_setQueue_next (r : Queue TaskRef) : (setQueue q r x).2.next = x.2.next := by
  cases q <;> rfl

theorem ends_deref {f : TaskRef → Frame → Frame} (h : p.get x.1 = some t) :
    Ends (deref p f) x (f t x) :=
  ends_act.mpr (by rw [h]; rfl)

theorem ends_deref_none {f : TaskRef → Frame → Frame} (h : p.get x.1 = none) :
    Ends (deref p f) x x :=
  ends_act.mpr (by rw [h]; rfl)

theorem ends_taskEnqueue (h : p.get x.1 = some t) : Ends (taskEnqueue q p) x (put q t x) := by
  have hqueue : queue q (setNext t none x) = queue q x := by cases q <;> rfl
  refine .cons (ends_deref h) ?_
  cases htail : (queue q x).tail with
  | none =>
    refine .cons (.pos (by simp [hqueue,htail]) (.cons (ends_deref h)
      (.cons (ends_deref ((get_setQueue _).trans h)) .nil))) ?_
    simp only [setHead,setTail,queue_setQueue,setQueue_setQueue,put,enqueue,htail]
    exact .nil
  | some last =>
    have hqueue' : queue q (setNext last (some t) (setNext t none x)) = queue q x := by
      cases q <;> rfl
    have hlink : Ends (deref p fun t x => (queue q x).tail.elim x fun l => setNext l (some t) x)
        (setNext t none x) (setNext last (some t) (setNext t none x)) := by
      refine ends_act.mpr ?_
      rw [show p.get (setNext t none x).1 = some t from h,Option.elim_some]
      simp only [hqueue,htail,Option.elim_some]
    refine .cons (.neg (by simp [hqueue,htail]) (.cons hlink (.cons (ends_deref h) .nil))) ?_
    simp only [hqueue',setTail,put,enqueue,htail]
    exact .nil

theorem does_taskDequeue : Does (taskDequeue q) (take q) := by
  intro x
  have hput : ∀ o, queue q ({ x.1 with t := o },x.2) = queue q x := fun o => by cases q <;> rfl
  cases hhead : (queue q x).head with
  | none =>
    have htake : take q x = ({ x.1 with t := none },x.2) := by
      simp only [take,dequeue,hhead]
      exact (congrArg (fun r => setQueue q r _) (hput none).symm).trans setQueue_self
    rw [htake]
    exact .pos (by rw [hhead]; rfl) .act
  | some t =>
    refine .neg (by rw [hhead]; rfl) (.cons .act (.cons .act ?_))
    simp only [setHead,hhead,hput,Option.bind_some]
    simp only [take,dequeue,hhead]
    cases hn : x.2.next t with
    | none =>
      refine .cons (.pos (by rw [queue_setQueue]; rfl) .act) (.cons (ends_deref (t := t) ?_) ?_)
      · rw [setTail,get_setQueue,get_setQueue]
        rfl
      · rw [setTail,queue_setQueue,setQueue_setQueue]
        cases q <;> exact .nil
    | some u =>
      refine .cons (.neg (by rw [queue_setQueue]; rfl) .skip) (.cons (ends_deref (t := t) ?_) ?_)
      · rw [get_setQueue]
        rfl
      · cases q <;> exact .nil

end Queues

section Functions
variable {p : Ptr} {core : SchedCore} {l : SchedLocals} {s : Sched} {t : TaskRef}

theorem ends_setField {f : Sched → Task → Task} (h : p.get l = some t) :
    Ends (setField p f) (l,s) (l,s.setTask t (f s (s.tasks t))) := ends_deref h

theorem ends_emit {f : Sched → Task → SchedIo} (h : p.get l = some t) :
    Ends (emit f p) (l,s) (l,s.emit (f s (s.tasks t))) := ends_deref h

theorem ends_enqueue {q : QueueId} (h : p.get l = some t) :
    Ends (taskEnqueue (.shared q) p) (l,s) (l,s.taskEnqueue q t) := ends_taskEnqueue h

theorem ends_dequeue {q : QueueId} : Ends (taskDequeue (.shared q)) (l,s)
    ({ l with t := (s.taskDequeue q).1 },(s.taskDequeue q).2) := does_taskDequeue (l,s)

theorem setTask_setTask (k k' : Task) : (s.setTask t k).setTask t k' = s.setTask t k' := by
  simp only [Sched.setTask,Function.update_idem]

theorem tasks_setTask (k : Task) : (s.setTask t k).tasks t = k := Function.update_self ..

theorem tasks_emit (io : SchedIo) : (s.emit io).tasks = s.tasks := rfl

theorem tasks_taskEnqueue (q : QueueId) : (s.taskEnqueue q t).tasks = s.tasks := rfl

theorem emptySlot_eq_some {i : Fin maxTasks} (hi : 1 ≤ i.val) (he : s.state (.pool i) = .empty)
    (hbefore : ∀ j : Fin maxTasks, 1 ≤ j.val → j.val < i.val → s.state (.pool j) ≠ .empty) :
    s.emptySlot = some i := by
  refine List.find?_eq_some_iff_getElem.mpr ⟨decide_eq_true ⟨hi,he⟩,i.val,by simp,by simp,?_⟩
  intro j hj
  have hj' := hbefore ⟨j,hj.trans i.isLt⟩
  by_cases h1 : 1 ≤ j
  · simpa [Nat.ne_of_gt h1,Sched.state] using hj' h1 hj
  · simp [h1]

theorem emptySlot_eq_none : s.emptySlot = none ↔
    ∀ j : Fin maxTasks, 1 ≤ j.val → s.state (.pool j) ≠ .empty := by
  simp [Sched.emptySlot,List.find?_eq_none,Sched.state]

theorem ends_search {n i : Nat} (hn : i + n = maxTasks) (hi : 1 ≤ i)
    (hbefore : ∀ j : Fin maxTasks, 1 ≤ j.val → j.val < i → s.state (.pool j) ≠ .empty) :
    ∃ i', Ends search ({ l with t := none, i := i },s)
      ({ l with t := s.emptySlot.map .pool, i := i' },s) := by
  induction n generalizing i with
  | zero =>
    have hnone : s.emptySlot = none := emptySlot_eq_none.mpr fun j hj =>
      hbefore j hj (by have := j.isLt; omega)
    rw [hnone]
    exact ⟨i,.loop_neg .skip (by simp; omega)⟩
  | succ n ih =>
    have hlt : i < maxTasks := by omega
    have hslot : Fin.ofNat maxTasks i = ⟨i,hlt⟩ := Fin.ext (Nat.mod_eq_of_lt hlt)
    by_cases he : (s.tasks (.pool (Fin.ofNat maxTasks i))).state = .empty
    · have hsome : s.emptySlot = some (Fin.ofNat maxTasks i) := by
        rw [hslot] at he ⊢
        exact emptySlot_eq_some hi he hbefore
      rw [hsome]
      refine ⟨i,.loop_pos .skip ?_ (.pos (decide_eq_true he) .act) (.loop_neg .skip ?_)⟩
      · simpa using hlt
      · simp
    · have hnext : ∀ j : Fin maxTasks, 1 ≤ j.val → j.val < i + 1 → s.state (.pool j) ≠ .empty := by
        intro j hj hji
        rcases Nat.lt_succ_iff_lt_or_eq.mp hji with hlt' | rfl
        · exact hbefore j hj hlt'
        · rwa [hslot] at he
      obtain ⟨i',h⟩ := ih (by omega) (by omega) hnext
      refine ⟨i',.loop_pos .skip ?_ (.neg (decide_eq_false he) .act) h⟩
      simpa using hlt

theorem ends_fillTask (entry exit stack : BitVec 64) {i : Fin maxTasks}
    (hslot : s.emptySlot = some i) (h : l.t = some (.pool i)) :
    Ends (fillTask entry exit stack) (l,s) (l,s.createTask entry exit stack) := by
  refine .of_eq (.cons .act (.cons .act (.cons (ends_setField h) (.cons (ends_setField h)
    (.cons (ends_setField h) (.cons (ends_setField h) (.cons (ends_setField h)
    (.cons (ends_emit h) (.cons (ends_emit h) (.cons (ends_emit h) (.cons (ends_enqueue h)
    (.cons (ends_emit h) .nil)))))))))))) (Prod.ext rfl ?_)
  simp only [setTask_setTask,tasks_setTask,tasks_emit,tasks_taskEnqueue,Sched.createTask,hslot]
  rfl

theorem ends_createTask (entry exit stack : BitVec 64) :
    ∃ l', Ends (createTask entry exit stack) (l,s) (l',s.createTask entry exit stack) := by
  obtain ⟨i',hsearch⟩ := ends_search (n := 63) (i := 1) (l := l) (s := s) rfl (Nat.le_refl 1)
    fun j hj hj' => absurd hj (by omega)
  cases hslot : s.emptySlot with
  | none =>
    rw [hslot] at hsearch
    simp only [Sched.createTask,hslot]
    exact ⟨_,.cons .act (.cons hsearch (.cons (.pos rfl .act) .nil))⟩
  | some i =>
    rw [hslot] at hsearch
    exact ⟨_,.cons .act (.cons hsearch (.cons (.neg rfl (ends_fillTask _ _ _ hslot rfl)) .nil))⟩

theorem ends_getCurrentTask :
    Ends (getCurrentTask core) (l,s) ({ l with current := s.current core },s) := .act

theorem ends_taskEnqueue_none {q : QueuePtr} (h : p.get l = none) :
    Ends (taskEnqueue q p) (l,s) (l,s) := by
  have hd {f : TaskRef → Frame → Frame} : Ends (deref p f) (l,s) (l,s) := ends_deref_none h
  refine .cons hd (.cons ?_ .nil)
  cases hq : (queue q (l,s)).tail.isNone with
  | true => exact .pos hq (.cons hd (.cons hd .nil))
  | false => exact .neg hq (.cons hd (.cons hd .nil))

theorem ends_taskExit : ∃ l', Ends (taskExit core) (l,s) (l',s.taskExit core) := by
  refine ⟨{ l with current := s.current core },.cons ends_getCurrentTask (.cons ?_ .nil)⟩
  cases hc : s.current core with
  | none =>
    simp only [Sched.taskExit,hc]
    exact ends_deref_none rfl
  | some current =>
    simp only [Sched.taskExit,hc]
    exact ends_setField rfl

theorem ends_msleep (ms : BitVec 32) (now : BitVec 64) :
    ∃ l', Ends (msleep core ms now) (l,s) (l',s.msleep core ms now) := by
  refine ⟨{ l with current := s.current core },.cons ends_getCurrentTask ?_⟩
  cases hc : s.current core with
  | none =>
    simp only [Sched.msleep,hc]
    exact .cons (ends_deref_none rfl) (.cons (ends_deref_none rfl)
      (.cons (ends_taskEnqueue_none rfl) .nil))
  | some current =>
    refine .of_eq (.cons (ends_setField rfl) (.cons (ends_setField rfl)
      (.cons (ends_enqueue rfl) .nil))) (Prod.ext rfl ?_)
    simp only [setTask_setTask,tasks_setTask,Sched.msleep,hc]

theorem currentState_eq {current : TaskRef} (h : l.current = some current) :
    currentState (l,s) = s.state current := by
  rw [currentState,h]
  rfl

theorem ends_putAway {current : TaskRef} (h : l.current = some current) :
    Ends (putAway core) (l,s) (l,s.putAway core current) := by
  have hstate : currentState (l,s) = (s.tasks current).state := currentState_eq h
  unfold putAway Sched.putAway
  cases hst : (s.tasks current).state with
  | zombie => exact .pos (by simp [hstate,hst]) (ends_enqueue h)
  | running =>
    refine .neg (by simp [hstate,hst]) (.pos (by simp [hstate,hst]) ?_)
    by_cases hidle : current = .idle core
    · simp only [hidle,ne_eq,not_true_eq_false,if_false]
      exact .neg (by simp [h,hidle]) .skip
    · rw [if_pos hidle]
      exact .pos (by simp [h,hidle]) (.cons (ends_setField h) (.cons (ends_enqueue h) .nil))
  | empty | ready | sleeping =>
    exact .neg (by simp [hstate,hst]) (.neg (by simp [hstate,hst]) .skip)

theorem ends_release {current : TaskRef} (hc : l.current = some current) (ht : l.t = some t) :
    Ends (.ite (fun x => x.1.current ≠ x.1.t)
      (setField .current fun _ k => { k with coreId := 0xFF }) .skip) (l,s)
      (l,s.releaseCore current t) := by
  unfold Sched.releaseCore
  by_cases hne : current ≠ t
  · rw [if_pos hne]
    exact .pos (by simpa [hc,ht] using hne) (ends_setField hc)
  · rw [if_neg hne]
    exact .neg (by simpa [hc,ht] using hne) .skip

theorem ends_signalGc {current : TaskRef} (h : l.current = some current) :
    Ends (.ite (fun x => currentState x = .zombie)
      (onSched fun _ s => s.emit (.sgi1 core schedulerGc)) .skip) (l,s)
      (l,s.signalGc core current) := by
  unfold Sched.signalGc
  by_cases hz : s.state current = .zombie
  · rw [if_pos hz]
    exact .pos (by simpa [currentState_eq h] using hz) .act
  · rw [if_neg hz]
    exact .neg (by simpa [currentState_eq h] using hz) .skip

theorem ends_pickNext {current : TaskRef} (h : l.current = some current) :
    ∃ l', Ends (pickNext core) (l,s) (l',(s.pickNext core current).2) := by
  have hidle : Ends (.ite (fun x => x.1.t.isNone)
      (onLocals fun l _ => { l with t := some (.idle core) }) .skip)
      ({ l with t := (s.taskDequeue .readyQ).1 },(s.taskDequeue .readyQ).2)
      ({ l with t := some ((s.taskDequeue .readyQ).1.getD (.idle core)) },
        (s.taskDequeue .readyQ).2) := by
    cases hr : (s.taskDequeue .readyQ).1 with
    | none => exact .pos rfl .act
    | some n => exact .neg rfl .skip
  refine ⟨_,.of_eq (.cons ends_dequeue (.cons hidle (.cons (ends_release h rfl)
    (.cons (ends_signalGc h) (.cons (ends_setField rfl) (.cons (ends_setField rfl)
    (.cons .act .nil))))))) (Prod.ext rfl ?_)⟩
  simp only [setTask_setTask,tasks_setTask,Sched.pickNext]

theorem ends_scheduleTask (frame : BitVec 64) :
    ∃ l', Ends (scheduleTask core frame) (l,s) (l',(s.scheduleTask core frame).2) := by
  cases hc : s.current core with
  | none =>
    simp only [Sched.scheduleTask,hc]
    exact ⟨_,.cons ends_getCurrentTask (.cons (.pos (by rw [hc]; rfl) .act) .nil)⟩
  | some current =>
    obtain ⟨l',hpick⟩ := @ends_pickNext core { l with current := s.current core }
      ((s.setTask current { s.tasks current with frame := frame }).putAway core current) current hc
    refine ⟨l',.cons ends_getCurrentTask (.cons (.neg (by rw [hc]; rfl)
      (.cons (ends_setField hc) (.cons (ends_putAway hc) (.cons ?_ .nil)))) .nil)⟩
    simp only [Sched.scheduleTask,hc] at hpick ⊢
    exact hpick

theorem ends_freeZombie (fmt : String) (h : l.t = some t) : Ends (freeZombie fmt) (l,s)
    (l,{ (s.freeZombie t) with
      io := .freePages (s.tasks t).stackBase 3 :: .printf fmt (some (s.tasks t).taskId) ::
        s.io }) :=
  .of_eq (.cons (ends_emit h) (.cons (ends_emit h) (.cons (ends_deref h) .nil))) rfl

theorem ends_freeZombie_none (fmt : String) (h : l.t = none) :
    Ends (freeZombie fmt) (l,s) (l,s) :=
  have hd {f : TaskRef → Frame → Frame} : Ends (deref .t f) (l,s) (l,s) := ends_deref_none h
  .cons hd (.cons hd (.cons hd .nil))

theorem released_eq (h : l.t = some t) : released (l,s) = decide ((s.tasks t).coreId = 0xFF) := by
  rw [released,h]
  rfl

theorem ends_reaperTask : ∃ l', Ends reaperTask (l,s) (l',s.reaperTaskTurn) := by
  refine ⟨{ l with t := (s.taskDequeue .zombieQ).1 },.cons ends_dequeue (.cons ?_ .nil)⟩
  unfold Sched.reaperTaskTurn
  cases hr : s.taskDequeue .zombieQ with
  | mk r d =>
    cases r with
    | none => exact .pos rfl .skip
    | some z =>
      refine .neg rfl ?_
      by_cases hid : (d.tasks z).coreId = 0xFF
      · simp only [hid,if_true]
        exact .pos (by simpa [released_eq] using hid) (ends_freeZombie _ rfl)
      · simp only [hid,if_false]
        exact .neg (by simpa [released_eq] using hid) (ends_enqueue rfl)

end Functions

section Loops
variable {l l' : SchedLocals} {s s' : Sched} {x : Frame} {t : TaskRef}

/-- The scheduler with the local queue of the frame in its place. -/
def view (x : Frame) : Sched := x.2.withQueue .onStack x.1.queue

theorem take_none {q : QueueId} (h : (take (.shared q) x).1.t = none) :
    take (.shared q) x = ({ x.1 with t := none },x.2) := by
  have hhead : (x.2.queues q).head = none := by
    cases hq : (x.2.queues q).head with
    | none => rfl
    | some t =>
      simp only [take,queue,dequeue,hq] at h
      cases h
  simp only [take,queue,dequeue,hhead,setQueue,Function.update_eq_self]

theorem keeps_take {q : QueueId} (hq : q ≠ .onStack) :
    (take (.shared q) x).2.queues .onStack = x.2.queues .onStack :=
  Function.update_of_ne hq.symm _ _

theorem ends_drain {q : QueueId} {body : Code} {b : Frame → Frame} {one : Sched → Option Sched}
    (hb : Does body b)
    (hone : ∀ x, one (view x) = (turn (take (.shared q)) (fun x => x.1.t.isSome) b x).map view)
    (hkeep : ∀ x, (b x).2.queues .onStack = x.2.queues .onStack) (hq : q ≠ .onStack)
    (hs : s.queues .onStack = .empty) (h : Ends (drain q body) (l,s) (l',s')) :
    ∃ n, (whileSome one n s).map (Sched.assignLocal q) = some s' := by
  simp only [drain,ends_cons,ends_act,exists_eq_left] at h
  obtain ⟨x,hloop,hend⟩ := h
  obtain ⟨n,y,hn,rfl⟩ := (ends_loop does_taskDequeue hb).mp hloop
  have hdone : (take (.shared q) y).1.t = none := by
    have hturn := whileSome_done hn
    simpa [turn] using hturn
  have hstack : y.2.queues .onStack = .empty := by
    refine whileSome_invariant (I := fun y => y.2.queues .onStack = .empty) ?_ hn hs
    intro y z hz hy
    obtain ⟨_,hz⟩ := Option.ite_none_right_eq_some.mp hz
    rw [← Option.some.inj hz,hkeep,keeps_take hq,hy]
  have hview : view (setQueue .own .empty (l,s)) = s := by
    rw [view,← hs]
    exact Sched.withQueue_self .onStack s
  have hloops := whileSome_view hone n (setQueue .own .empty (l,s))
  rw [hview,hn] at hloops
  rw [take_none hdone] at hend
  obtain ⟨-,rfl⟩ := Prod.mk.inj (ends_skip.mp hend)
  refine ⟨n,?_⟩
  rw [hloops,Option.map_some,Option.map_some,Option.some.injEq]
  simp only [setHead,queue_setQueue]
  simp only [setQueue,Sched.assignLocal,view,Sched.queues_withQueue_self]
  simp only [Sched.withQueue,Function.update_comm hq,Function.update_idem,← hstack,
    Function.update_eq_self]

def reapBody (x : Frame) : Frame :=
  x.1.t.elim x fun z =>
    if (x.2.tasks z).coreId = 0xFF then (x.1,x.2.freeZombie z) else put .own z x

theorem does_reapBody : Does
    (.ite released (freeZombie "[REAPER] Cleaning task %d\n") (taskEnqueue .own .t)) reapBody := by
  intro x
  unfold reapBody
  cases ht : x.1.t with
  | none => exact .pos (by simp [released,ht]) (ends_freeZombie_none _ ht)
  | some z =>
    simp only [Option.elim_some]
    by_cases hid : (x.2.tasks z).coreId = 0xFF
    · rw [if_pos hid]
      exact .pos (by simpa [released,ht] using hid) (ends_freeZombie _ ht)
    · rw [if_neg hid]
      exact .neg (by simpa [released,ht] using hid) (ends_taskEnqueue ht)

theorem view_put : view (put .own t x) = (view x).taskEnqueue .onStack t := by
  simp only [view,put,setQueue,Sched.taskEnqueue,Sched.queues_withQueue_self]
  simp only [Sched.withQueue,Function.update_idem]
  rfl

theorem ends_reaperService (hs : s.queues .onStack = .empty)
    (h : Ends reaperService (l,s) (l',s')) :
    ∃ n, (whileSome Sched.reapOne n s).map (Sched.assignLocal .zombieQ) = some s' := by
  refine ends_drain does_reapBody (fun x => ?_) (fun x => ?_) (by decide) hs h
  · have htake : take (.shared .zombieQ) x =
        ({ x.1 with t := (x.2.taskDequeue .zombieQ).1 },(x.2.taskDequeue .zombieQ).2) := rfl
    rw [turn,htake,Sched.reapOne,view,Sched.taskDequeue_withQueue (by decide)]
    cases hr : x.2.taskDequeue .zombieQ with
    | mk r d =>
      cases r with
      | none => rfl
      | some z =>
        simp only [reapBody,Option.isSome_some,if_true,Option.map_some,Option.elim_some]
        by_cases hid : (d.tasks z).coreId = 0xFF
        · rw [if_pos (by exact hid),if_pos (by exact hid)]
          rfl
        · rw [if_neg (by exact hid),if_neg (by exact hid),view_put]
          rfl
  · unfold reapBody
    cases x.1.t with
    | none => rfl
    | some z =>
      simp only [Option.elim_some]
      split <;> rfl

def checkBody (now : BitVec 64) (x : Frame) : Frame :=
  x.1.t.elim x fun t =>
    if (x.2.tasks t).wakeTick ≤ now then (x.1,(x.2.setState t .ready).taskEnqueue .readyQ t)
    else put .own t x

theorem does_checkBody (now : BitVec 64) : Does
    (.ite (due now)
      (.ofList [setField .t fun _ k => { k with state := .ready },taskEnqueue (.shared .readyQ) .t])
      (taskEnqueue .own .t)) (checkBody now) := by
  intro x
  unfold checkBody
  cases ht : x.1.t with
  | none =>
    have hfield : Ends (setField .t fun _ k => { k with state := .ready }) x x :=
      ends_deref_none ht
    exact .pos (by simp [due,ht]) (.cons hfield (.cons (ends_taskEnqueue_none ht) .nil))
  | some t =>
    simp only [Option.elim_some]
    by_cases hdue : (x.2.tasks t).wakeTick ≤ now
    · rw [if_pos hdue]
      exact .pos (by simpa [due,ht] using hdue)
        (.cons (ends_setField ht) (.cons (ends_enqueue ht) .nil))
    · rw [if_neg hdue]
      exact .neg (by simpa [due,ht] using hdue) (ends_taskEnqueue ht)

theorem ends_schedCheckTasks {now : BitVec 64} (hs : s.queues .onStack = .empty)
    (h : Ends (schedCheckTasks now) (l,s) (l',s')) :
    ∃ n, (whileSome (Sched.checkOne now) n s).map (Sched.assignLocal .sleepQ) = some s' := by
  refine ends_drain (does_checkBody now) (fun x => ?_) (fun x => ?_) (by decide) hs h
  · have htake : take (.shared .sleepQ) x =
        ({ x.1 with t := (x.2.taskDequeue .sleepQ).1 },(x.2.taskDequeue .sleepQ).2) := rfl
    rw [turn,htake,Sched.checkOne,view,Sched.taskDequeue_withQueue (by decide)]
    cases hr : x.2.taskDequeue .sleepQ with
    | mk r d =>
      cases r with
      | none => rfl
      | some t =>
        simp only [checkBody,Option.isSome_some,if_true,Option.map_some,Option.elim_some]
        by_cases hdue : (d.tasks t).wakeTick ≤ now
        · rw [if_pos (by exact hdue),if_pos (by exact hdue)]
          exact congrArg some (Sched.taskEnqueue_withQueue (by decide) _ t (d.setState t .ready))
        · rw [if_neg (by exact hdue),if_neg (by exact hdue),view_put]
          rfl
  · unfold checkBody
    cases x.1.t with
    | none => rfl
    | some z =>
      simp only [Option.elim_some]
      split <;> rfl

end Loops

end SchedCode

/-- A call of one of the functions that take sched_lock, for reaper_task one turn of its loop.
`now` is what get_system_time returns, and `stack` what mm_allocate_pages does. -/
inductive LockedCall where
  | createTask (entry taskExit stack : BitVec 64)
  | taskExit
  | msleep (ms : BitVec 32) (now : BitVec 64)
  | scheduleTask (frame : BitVec 64)
  | reaperService
  | schedCheckTasks (now : BitVec 64)
  | reaperTask

namespace LockedCall
open SchedCode

/-- What the call does between spin_lock and spin_unlock. -/
def code (core : SchedCore) : LockedCall → Code
  | .createTask entry exit stack => SchedCode.createTask entry exit stack
  | .taskExit => SchedCode.taskExit core
  | .msleep ms now => SchedCode.msleep core ms now
  | .scheduleTask frame => SchedCode.scheduleTask core frame
  | .reaperService => SchedCode.reaperService
  | .schedCheckTasks now => SchedCode.schedCheckTasks now
  | .reaperTask => SchedCode.reaperTask

/-- The same in one step, where a loop may make any number of turns. -/
def Comes (core : SchedCore) : LockedCall → Sched → Sched → Prop
  | .createTask entry exit stack,s,s' => s' = s.createTask entry exit stack
  | .taskExit,s,s' => s' = s.taskExit core
  | .msleep ms now,s,s' => s' = s.msleep core ms now
  | .scheduleTask frame,s,s' => s' = (s.scheduleTask core frame).2
  | .reaperService,s,s' =>
    ∃ n, (whileSome Sched.reapOne n s).map (Sched.assignLocal .zombieQ) = some s'
  | .schedCheckTasks now,s,s' =>
    ∃ n, (whileSome (Sched.checkOne now) n s).map (Sched.assignLocal .sleepQ) = some s'
  | .reaperTask,s,s' => s' = s.reaperTaskTurn

variable {core : SchedCore} {k : LockedCall} {l l' : SchedLocals} {s s' : Sched}

/-- Statement by statement, a call does what it does in one step. -/
theorem comes_of_ends (hs : s.queues .onStack = .empty) (h : Ends (k.code core) (l,s) (l',s')) :
    Comes core k s s' := by
  have hsnd {t : Sched} (ht : ∃ l', Ends (k.code core) (l,s) (l',t)) : s' = t := by
    obtain ⟨_,ht⟩ := ht
    exact (Prod.mk.inj (h.unique ht)).2
  cases k with
  | createTask entry exit stack => exact hsnd (ends_createTask entry exit stack)
  | taskExit => exact hsnd ends_taskExit
  | msleep ms now => exact hsnd (ends_msleep ms now)
  | scheduleTask frame => exact hsnd (ends_scheduleTask frame)
  | reaperService => exact ends_reaperService hs h
  | schedCheckTasks now => exact ends_schedCheckTasks hs h
  | reaperTask => exact hsnd ends_reaperTask

theorem onStack_enqueue {q : QueueId} (hq : q ≠ .onStack) (t : TaskRef) :
    (s.taskEnqueue q t).queues .onStack = s.queues .onStack := Function.update_of_ne hq.symm _ _

theorem onStack_dequeue {q : QueueId} (hq : q ≠ .onStack) :
    (s.taskDequeue q).2.queues .onStack = s.queues .onStack := Function.update_of_ne hq.symm _ _

theorem onStack_createTask (entry exit stack : BitVec 64) :
    (s.createTask entry exit stack).queues .onStack = s.queues .onStack := by
  cases hslot : s.emptySlot with
  | none =>
    simp only [Sched.createTask,hslot]
    rfl
  | some i =>
    obtain ⟨io,hs⟩ := createTask_eq hslot entry exit stack
    rw [hs]
    exact onStack_enqueue (q := .readyQ) (by decide) (.pool i)

theorem onStack_putAway (t : TaskRef) :
    (s.putAway core t).queues .onStack = s.queues .onStack := by
  unfold Sched.putAway
  split
  · exact onStack_enqueue (by decide) _
  · split
    · exact onStack_enqueue (by decide) _
    · rfl
  · rfl

theorem onStack_pickNext (t : TaskRef) :
    (s.pickNext core t).2.queues .onStack = s.queues .onStack := by
  have hsame {d : Sched} {n : TaskRef} :
      ((d.releaseCore t n).signalGc core t).queues = d.queues := by
    rw [(signalGc_same _ core t).queues,(releaseCore_same d t n).queues]
  exact (congrFun hsame _).trans (onStack_dequeue (q := .readyQ) (by decide))

theorem Comes.onStack (h : Comes core k s s') (hs : s.queues .onStack = .empty) :
    s'.queues .onStack = .empty := by
  have hlocal {q : QueueId} {o : Option Sched} (ho : o.map (Sched.assignLocal q) = some s') :
      s'.queues .onStack = .empty := by
    obtain ⟨y,_,rfl⟩ := Option.map_eq_some_iff.mp ho
    simp only [Sched.assignLocal,Function.update_self]
  cases k with
  | createTask entry exit stack => exact h ▸ (onStack_createTask entry exit stack).trans hs
  | taskExit =>
    obtain rfl := h
    unfold Sched.taskExit
    cases s.current core <;> exact hs
  | msleep ms now =>
    obtain rfl := h
    unfold Sched.msleep
    cases s.current core with
    | none => exact hs
    | some t => exact (onStack_enqueue (by decide) t).trans hs
  | scheduleTask frame =>
    obtain rfl := h
    unfold Sched.scheduleTask
    cases s.current core with
    | none => exact hs
    | some t => exact (onStack_pickNext t).trans ((onStack_putAway t).trans hs)
  | reaperService => exact hlocal h.choose_spec
  | schedCheckTasks now => exact hlocal h.choose_spec
  | reaperTask =>
    obtain rfl := h
    unfold Sched.reaperTaskTurn
    have hd : (s.taskDequeue .zombieQ).2.queues .onStack = .empty :=
      (onStack_dequeue (by decide)).trans hs
    rcases hr : s.taskDequeue .zombieQ with ⟨_ | z,d⟩
    · rwa [hr] at hd
    · rw [hr] at hd
      dsimp only
      split
      · exact hd
      · exact (onStack_enqueue (by decide) z).trans hd

end LockedCall

end Arm64

import Arm64Baremetal.KernelSched

/-!
task_enqueue and task_dequeue as they stand, on a heap of tasks that any number of queues share,
and the lists that the queues stand for.
-/

set_option autoImplicit false

namespace Arm64
open Runs IntrusiveQueue

/-- task_t, with pointers to nodes of type `α`, where `none` is ZERO. -/
structure TaskNode (α : Type*) extends Task where
  next : Option α

structure TaskHeap (ι α : Type*) where
  task : α → TaskNode α
  queue : ι → Queue α

inductive QueueOp (ι α : Type*) where
  | enqueue (q : ι) (t : α)
  | dequeue (q : ι)

def QueueOp.queue {ι α : Type*} : QueueOp ι α → ι
  | .enqueue q _ | .dequeue q => q

variable {ι α : Type*} [DecidableEq ι] [DecidableEq α]

namespace TaskHeap

omit [DecidableEq ι] [DecidableEq α] in
/-- `t->next` -/
def next (h : TaskHeap ι α) (t : α) : Option α := (h.task t).next

def setNext (t : α) (p : Option α) (h : TaskHeap ι α) : TaskHeap ι α :=
  { h with task := Function.update h.task t { h.task t with next := p } }

def setHead (q : ι) (p : Option α) (h : TaskHeap ι α) : TaskHeap ι α :=
  { h with queue := Function.update h.queue q { h.queue q with head := p } }

def setTail (q : ι) (p : Option α) (h : TaskHeap ι α) : TaskHeap ι α :=
  { h with queue := Function.update h.queue q { h.queue q with tail := p } }

def taskEnqueue (q : ι) (t : α) (h : TaskHeap ι α) : TaskHeap ι α :=
  let h := h.setNext t none
  match (h.queue q).tail with
  | none => (h.setTail q (some t)).setHead q (some t)
  | some l => (h.setNext l (some t)).setTail q (some t)

def taskDequeue (q : ι) (h : TaskHeap ι α) : Option α × TaskHeap ι α :=
  match (h.queue q).head with
  | none => (none,h)
  | some t =>
    let h := h.setHead q (h.next t)
    let h := if (h.queue q).head = none then h.setTail q none else h
    (some t,h.setNext t none)

def apply (op : QueueOp ι α) (h : TaskHeap ι α) : Option α × TaskHeap ι α :=
  match op with
  | .enqueue q t => (none,h.taskEnqueue q t)
  | .dequeue q => h.taskDequeue q

def step (h : TaskHeap ι α) (op : QueueOp ι α) : TaskHeap ι α := (h.apply op).2

end TaskHeap

/-- A list for each queue, and the operations on them. -/
abbrev Fifos (ι α : Type*) := ι → List α

namespace Fifos

omit [DecidableEq α] in
def apply (op : QueueOp ι α) (ls : Fifos ι α) : Option α × Fifos ι α :=
  match op with
  | .enqueue q t => (none,Function.update ls q (ls q ++ [t]))
  | .dequeue q => ((ls q).head?,Function.update ls q (ls q).tail)

def step (ls : Fifos ι α) (op : QueueOp ι α) : Fifos ι α := (ls.apply op).2

/-- A node that is enqueued is in no queue. -/
def Unqueued (ls : Fifos ι α) : QueueOp ι α → Prop
  | .enqueue _ t => ∀ q, t ∉ ls q
  | .dequeue _ => True

end Fifos

structure WellFormed (h : TaskHeap ι α) (ls : Fifos ι α) : Prop where
  read : ∀ q n, (ls q).length ≤ n → follow h.next n (h.queue q).head = ls q
  null : ∀ q, (h.queue q).head = none ↔ (h.queue q).tail = none
  tail : ∀ q, (h.queue q).tail = (ls q).getLast?
  last : ∀ q l, (h.queue q).tail = some l → h.next l = none
  noCycle : ∀ q, (ls q).Nodup
  disjoint : ∀ q q' t, t ∈ ls q → t ∈ ls q' → q = q'

structure Refines (h : TaskHeap ι α) (ls : Fifos ι α) (op : QueueOp ι α) : Prop where
  result : (h.apply op).1 = (ls.apply op).1
  wellFormed : WellFormed (h.step op) (ls.step op)
  dequeued : ∀ t, (h.apply op).1 = some t → (h.step op).next t = none
  others : ∀ q n, q ≠ op.queue → (ls q).length ≤ n →
    follow (h.step op).next n ((h.step op).queue q).head = ls q
  fields : ∀ t, ((h.step op).task t).toTask = (h.task t).toTask

section Operations
variable {h : TaskHeap ι α} {ls : Fifos ι α}

omit [DecidableEq ι] in
@[simp] theorem next_setNext (t : α) (p : Option α) (h : TaskHeap ι α) :
    (h.setNext t p).next = Function.update h.next t p := by
  funext u
  by_cases hu : u = t
  · subst hu
    simp [TaskHeap.next,TaskHeap.setNext]
  · simp [TaskHeap.next,TaskHeap.setNext,hu]

omit [DecidableEq ι] in
theorem fields_setNext (t u : α) (p : Option α) (h : TaskHeap ι α) :
    ((h.setNext t p).task u).toTask = (h.task u).toTask := by
  by_cases hu : u = t
  · subst hu
    simp [TaskHeap.setNext]
  · simp [TaskHeap.setNext,hu]

/-- task_enqueue is the operation of the library on the links and the queue. -/
theorem taskEnqueue_eq (q : ι) (t : α) (h : TaskHeap ι α) :
    (h.taskEnqueue q t).next = (enqueue h.next (h.queue q) t).1 ∧
      (h.taskEnqueue q t).queue =
        Function.update h.queue q (enqueue h.next (h.queue q) t).2 ∧
      ∀ u, ((h.taskEnqueue q t).task u).toTask = (h.task u).toTask := by
  have hqueue : (h.setNext t none).queue = h.queue := rfl
  simp only [TaskHeap.taskEnqueue,enqueue,hqueue]
  cases (h.queue q).tail with
  | none =>
    refine ⟨next_setNext t none h,?_,fun u => fields_setNext t u none h⟩
    simp [TaskHeap.setHead,TaskHeap.setTail,hqueue]
  | some l =>
    refine ⟨?_,rfl,fun u => ?_⟩
    · exact (next_setNext l (some t) _).trans (by rw [next_setNext])
    · exact (fields_setNext l u (some t) _).trans (fields_setNext t u none h)

omit [DecidableEq α] in
theorem setHead_setTail (q : ι) (p : Option α) (h : TaskHeap ι α) :
    (if ((h.setHead q p).queue q).head = none then (h.setHead q p).setTail q none
      else h.setHead q p) =
      { h with
        queue := Function.update h.queue q ⟨p,if p.isNone then none else (h.queue q).tail⟩ } := by
  cases p <;> simp [TaskHeap.setHead,TaskHeap.setTail]

theorem taskDequeue_eq (q : ι) (h : TaskHeap ι α) :
    (h.taskDequeue q).1 = (dequeue h.next (h.queue q)).1 ∧
      (h.taskDequeue q).2.next = (dequeue h.next (h.queue q)).2.1 ∧
      (h.taskDequeue q).2.queue =
        Function.update h.queue q (dequeue h.next (h.queue q)).2.2 ∧
      ∀ u, ((h.taskDequeue q).2.task u).toTask = (h.task u).toTask := by
  simp only [TaskHeap.taskDequeue,dequeue]
  cases (h.queue q).head with
  | none => exact ⟨rfl,rfl,(Function.update_eq_self q h.queue).symm,fun _ => rfl⟩
  | some t =>
    simp only [setHead_setTail]
    exact ⟨trivial,next_setNext t none _,rfl,fun u => fields_setNext t u none _⟩

omit [DecidableEq ι] [DecidableEq α] in
theorem WellFormed.family (hw : WellFormed h ls) : Family h.next h.queue ls where
  represents q := ⟨linked_of_follow (hw.read q),hw.tail q,hw.noCycle q⟩
  apart := hw.disjoint

omit [DecidableEq ι] [DecidableEq α] in
theorem wellFormed_of_family (hf : Family h.next h.queue ls) : WellFormed h ls where
  read q _ hn := follow_of_linked (hf.represents q).linked hn
  null q := (hf.represents q).head_eq_none.trans (hf.represents q).tail_eq_none.symm
  tail q := (hf.represents q).tail
  last q _ hl := (hf.represents q).next_tail hl
  noCycle q := (hf.represents q).nodup
  disjoint := hf.apart

theorem WellFormed.apply (hw : WellFormed h ls) {op : QueueOp ι α} (hop : ls.Unqueued op) :
    (h.apply op).1 = (ls.apply op).1 ∧ WellFormed (h.step op) (ls.step op) ∧
      ∀ t, (h.apply op).1 = some t → (h.step op).next t = none := by
  have hf := hw.family
  cases op with
  | enqueue q t =>
    obtain ⟨hnext,hqueue,_⟩ := taskEnqueue_eq q t h
    refine ⟨rfl,wellFormed_of_family ?_,nofun⟩
    simp only [TaskHeap.step,TaskHeap.apply,hnext,hqueue]
    exact hf.enqueue q hop
  | dequeue q =>
    obtain ⟨hresult,hnext,hqueue,_⟩ := taskDequeue_eq q h
    have hhead := hresult.trans (hf.represents q).dequeue_fst
    refine ⟨hhead,?_,fun t ht => ?_⟩
    · apply wellFormed_of_family
      simp only [TaskHeap.step,TaskHeap.apply,Fifos.step,Fifos.apply,hnext,hqueue]
      cases hls : ls q with
      | nil =>
        have hq := dequeue_nil (hls ▸ hf.represents q)
        rw [hq,Function.update_eq_self,List.tail_nil,← hls,Function.update_eq_self]
        exact hf
      | cons t xs =>
        have hq : Represents h.next (h.queue q) (t :: xs) := hls ▸ hf.represents q
        rw [hq.dequeue_next]
        exact hf.dequeue hls
    · obtain ⟨xs,hls⟩ := List.head?_eq_some_iff.mp (hhead.symm.trans ht)
      have hq : Represents h.next (h.queue q) (t :: xs) := hls ▸ hf.represents q
      simp only [TaskHeap.step,TaskHeap.apply,hnext]
      rw [hq.dequeue_next,Function.update_self]

theorem WellFormed.refines (hw : WellFormed h ls) {op : QueueOp ι α} (hop : ls.Unqueued op) :
    Refines h ls op := by
  obtain ⟨hresult,hstep,hdequeued⟩ := hw.apply hop
  refine ⟨hresult,hstep,hdequeued,fun q n hq hn => ?_,?_⟩
  · have hother : (ls.step op) q = ls q := by
      cases op <;> exact Function.update_of_ne hq _ _
    have hread := hstep.read q n
    rw [hother] at hread
    exact hread hn
  · cases op with
    | enqueue q t => exact (taskEnqueue_eq q t h).2.2
    | dequeue q => exact (taskDequeue_eq q h).2.2.2

end Operations

section Scheduler

def Sched.heap (s : Sched) : TaskHeap QueueId TaskRef where
  task t := { s.tasks t with next := s.next t }
  queue := s.queues

omit [DecidableEq α] in
theorem TaskNode.eq_of_fields {a b : TaskNode α} (hfields : a.toTask = b.toTask)
    (hnext : a.next = b.next) : a = b := by
  obtain ⟨fields,next⟩ := a
  obtain rfl : fields = b.toTask := hfields
  obtain rfl : next = b.next := hnext
  rfl

omit [DecidableEq ι] [DecidableEq α] in
theorem TaskHeap.eq_of_fields {h h' : TaskHeap ι α} (hnext : h.next = h'.next)
    (hqueue : h.queue = h'.queue) (hfields : ∀ t, (h.task t).toTask = (h'.task t).toTask) :
    h = h' := by
  obtain ⟨task,queue⟩ := h
  obtain rfl : queue = h'.queue := hqueue
  obtain rfl : task = h'.task :=
    funext fun t => TaskNode.eq_of_fields (hfields t) (congrFun hnext t)
  rfl

/-- The scheduler's task_enqueue and task_dequeue are these. -/
theorem heap_taskEnqueue (q : QueueId) (t : TaskRef) (s : Sched) :
    (s.taskEnqueue q t).heap = s.heap.taskEnqueue q t := by
  obtain ⟨hnext,hqueue,hfields⟩ := taskEnqueue_eq q t s.heap
  exact TaskHeap.eq_of_fields hnext.symm hqueue.symm fun u => (hfields u).symm

theorem heap_taskDequeue (q : QueueId) (s : Sched) :
    ((s.taskDequeue q).1,(s.taskDequeue q).2.heap) = s.heap.taskDequeue q := by
  obtain ⟨hresult,hnext,hqueue,hfields⟩ := taskDequeue_eq q s.heap
  refine Prod.ext hresult.symm ?_
  exact TaskHeap.eq_of_fields hnext.symm hqueue.symm fun u => (hfields u).symm

end Scheduler

theorem wellFormed_run {h : TaskHeap ι α} {ls : Fifos ι α} (hw : WellFormed h ls)
    {ops : List (QueueOp ι α)} (hops : Along Fifos.step Fifos.Unqueued ls ops) :
    WellFormed (exec TaskHeap.step h ops) (exec Fifos.step ls ops) := by
  induction ops generalizing h ls with
  | nil => exact hw
  | cons op ops ih => exact ih (hw.refines hops.1).wellFormed hops.2

/-- Whatever operations came before, the queues are the lists, and the next operation does to the
queues what it does to the lists. -/
theorem queues_refine_lists {h : TaskHeap ι α} {ls : Fifos ι α} (hw : WellFormed h ls)
    {ops : List (QueueOp ι α)} {op : QueueOp ι α}
    (hops : Along Fifos.step Fifos.Unqueued ls (ops ++ [op])) :
    WellFormed (exec TaskHeap.step h ops) (exec Fifos.step ls ops) ∧
      Refines (exec TaskHeap.step h ops) (exec Fifos.step ls ops) op := by
  obtain ⟨hpre,hop,_⟩ := (along_append _ _ _ _ _).mp hops
  have hrun := wellFormed_run hw hpre
  exact ⟨hrun,hrun.refines hop⟩

def twoQueues : TaskHeap Bool Nat where
  task t := { Task.zero with next := if t = 1 then some 2 else none }
  queue q := if q then .empty else ⟨some 1,some 2⟩

theorem twoQueues_wellFormed : WellFormed twoQueues fun q => if q then [] else [1,2] := by
  refine wellFormed_of_family ⟨fun q => ?_,?_⟩
  · cases q with
    | true => exact represents_empty
    | false => exact ⟨⟨rfl,rfl,rfl⟩,rfl,by decide⟩
  · intro q q' t hq hq'
    cases q <;> cases q' <;> simp at hq hq' ⊢

/-- Node 1 goes from one queue to the other, and comes out of that. -/
theorem queues_refine_lists_moved :
    let ops := [.dequeue false,.enqueue true 1]
    let ls : Fifos Bool Nat := fun q => if q then [] else [1,2]
    Along Fifos.step Fifos.Unqueued ls (ops ++ [.dequeue true]) ∧
      WellFormed (exec TaskHeap.step twoQueues ops) (exec Fifos.step ls ops) ∧
      Refines (exec TaskHeap.step twoQueues ops) (exec Fifos.step ls ops) (.dequeue true) := by
  have hops : Along Fifos.step Fifos.Unqueued (fun q => if q then [] else [1,2] : Fifos Bool Nat)
      ([.dequeue false,.enqueue true 1] ++ [.dequeue true]) := by
    refine ⟨trivial,fun q => ?_,trivial,trivial⟩
    cases q <;> decide
  exact ⟨hops,queues_refine_lists twoQueues_wellFormed hops⟩

end Arm64

import Arm64Baremetal.SchedSwitch

set_option autoImplicit false

namespace Arm64
open Runs IntrusiveQueue

/-- The calls of the current task, and the interrupts that the core takes. -/
inductive SchedOp where
  | createTask (entry taskExit stack : BitVec 64)
  | taskExit
  | msleep (ms : BitVec 32) (now : BitVec 64)
  | irq (iar : BitVec 32) (now frame : BitVec 64)
  deriving DecidableEq

/-- `none` stands for a loop that is not done after `loopBound` turns. -/
def schedOp (c : SchedCore) (s : Sched) : SchedOp → Option Sched
  | .createTask entry taskExit stack => some (s.createTask entry taskExit stack)
  | .taskExit => some (s.taskExit c)
  | .msleep ms now => some (s.msleep c ms now)
  | .irq iar now frame => (kernelIrq c iar now frame s).map (·.2)

def schedStep (c : SchedCore) (s : Sched) (op : SchedOp) : Sched := (schedOp c s op).getD s

/-- After task_exit or msleep the current task is not RUNNING, and runs no code of its
own until it is switched out. -/
def SchedLegal (c : SchedCore) (s : Sched) : SchedOp → Prop
  | .createTask _ _ _ => ∃ t ∈ s.current c, s.state t = .running
  | .taskExit | .msleep _ _ => ∃ t ∈ s.current c, s.state t = .running ∧ ∀ d, t ≠ .idle d
  | .irq _ _ _ => True

instance (c : SchedCore) (s : Sched) : (op : SchedOp) → Decidable (SchedLegal c s op)
  | .createTask _ _ _ => inferInstanceAs (Decidable (∃ t ∈ s.current c, _))
  | .taskExit => inferInstanceAs (Decidable (∃ t ∈ s.current c, _ ∧ ∀ _, _))
  | .msleep _ _ => inferInstanceAs (Decidable (∃ t ∈ s.current c, _ ∧ ∀ _, _))
  | .irq _ _ _ => inferInstanceAs (Decidable True)

/-- The queue `q` is an acyclic list, the nodes of `xs` in order, without idle tasks. -/
structure WellFormedQueue (s : Sched) (q : QueueId) (xs : List TaskRef) : Prop where
  represents : Represents s.next (s.queues q) xs
  empty : (s.queues q).head = none ↔ (s.queues q).tail = none
  last : ∀ t, (s.queues q).tail = some t → s.next t = none
  noIdle : ∀ d, .idle d ∉ xs

def SlotOk (c : SchedCore) (s : Sched) (xs : QueueId → List TaskRef) (t : TaskRef) : Prop :=
  match s.state t with
  | .empty => ∀ q, (xs q).count t = 0
  | .ready => ∀ q, (xs q).count t = if q = .readyQ then 1 else 0
  | .running => (∀ q, (xs q).count t = 0) ∧ s.current c = some t
  | .sleeping => ∀ q, (xs q).count t = if q = .sleepQ then 1 else 0
  | .zombie => ∀ q, (xs q).count t = if q = .zombieQ ∧ s.current c ≠ some t then 1 else 0

structure Integrity (c : SchedCore) (s : Sched) (xs : QueueId → List TaskRef) : Prop where
  queues : ∀ q, WellFormedQueue s q (xs q)
  unshared : ∀ p q t, t ∈ xs p → t ∈ xs q → p = q
  slots : ∀ i, SlotOk c s xs (.pool i)

variable {c : SchedCore} {s : Sched} {xs : QueueId → List TaskRef}

structure OneCore (c : SchedCore) (s : Sched) (xs : QueueId → List TaskRef) : Prop where
  inv : SchedInv s s.current xs
  running : ∃ t, s.current c = some t
  alone : ∀ d, d ≠ c → s.current d = none

theorem OneCore.current_iff (h : OneCore c s xs) (t : TaskRef) :
    Current s.current t ↔ s.current c = some t := by
  constructor
  · rintro ⟨d,hd⟩
    by_cases hdc : d = c
    · rwa [← hdc]
    · rw [h.alone d hdc] at hd
      contradiction
  · exact fun hc => ⟨c,hc⟩

theorem count_eq (h : Family s.next s.queues xs) (q : QueueId) (t : TaskRef) :
    (xs q).count t = if t ∈ xs q then 1 else 0 := by
  split
  · rename_i ht
    exact List.count_eq_one_of_mem (h.represents q).nodup ht
  · rename_i ht
    exact List.count_eq_zero.mpr ht

theorem OneCore.integrity (h : OneCore c s xs) : Integrity c s xs := by
  have hf := h.inv.filed
  refine ⟨fun q => ?_,h.inv.queues.apart,fun i => ?_⟩
  · have hr := h.inv.queues.represents q
    refine ⟨hr,by rw [hr.head_eq_none,hr.tail_eq_none],fun t ht => hr.next_tail ht,fun d => ?_⟩
    have hi := hf.idle d
    exact h.inv.not_mem (by rcases hi with hi | hi <;> simp [hi])
      (by rcases hi with hi | hi <;> simp [hi]) (by rcases hi with hi | hi <;> simp [hi]) q
  · have hcount := fun q => count_eq h.inv.queues q (.pool i)
    have hready := hf.ready (.pool i)
    have hsleep := hf.sleeping (.pool i)
    have hzombie := hf.zombie (.pool i)
    rw [h.current_iff] at hzombie
    have hstack := h.inv.onStack
    cases hs : s.state (.pool i) with
    | empty =>
      simp only [SlotOk,hs,hcount]
      intro q
      cases q <;> simp [hready,hsleep,hzombie,hs,hstack]
    | ready =>
      simp only [SlotOk,hs,hcount]
      intro q
      cases q <;> simp [hready,hsleep,hzombie,hs,hstack]
    | running =>
      simp only [SlotOk,hs,hcount]
      refine ⟨fun q => ?_,(h.current_iff _).mp (hf.running i hs)⟩
      cases q <;> simp [hready,hsleep,hzombie,hs,hstack]
    | sleeping =>
      simp only [SlotOk,hs,hcount]
      intro q
      cases q <;> simp [hready,hsleep,hzombie,hs,hstack]
    | zombie =>
      simp only [SlotOk,hs,hcount]
      intro q
      cases q <;> simp [hready,hsleep,hzombie,hs,hstack]

theorem OneCore.checkTasks (h : OneCore c s xs) (now : BitVec 64) :
    ∃ s' xs', s.schedCheckTasks now = some s' ∧ Wakes s s' ∧ OneCore c s' xs' := by
  obtain ⟨s',ys,hs,hcur,hw,h'⟩ := schedCheckTasks_inv h.inv now
  rw [← hcur] at h'
  exact ⟨s',ys,hs,hw,h',hcur ▸ h.running,hcur ▸ h.alone⟩

theorem OneCore.next_free (h : OneCore c s xs) (n : TaskRef) :
    ¬ Current (Function.update s.current c none) n := by
  rintro ⟨d,hd⟩
  by_cases hdc : d = c
  · subst hdc
    simp at hd
  · rw [Function.update_of_ne hdc,h.alone d hdc] at hd
    contradiction

theorem OneCore.schedule (h : OneCore c s xs) (frame : BitVec 64) :
    ∃ xs', OneCore c (s.scheduleTask c frame).2 xs' := by
  obtain ⟨t,ht⟩ := h.running
  obtain ⟨n,hn,_⟩ := scheduleTask_takes h.inv ht frame
  obtain ⟨hcur,_,_,zs,h'⟩ := scheduleTask_inv h.inv ht frame hn (h.next_free n)
  refine ⟨zs,h',⟨n,?_⟩,fun d hd => ?_⟩
  · exact (congrFun hcur c).trans (Function.update_self ..)
  · refine (congrFun hcur d).trans ?_
    rw [Function.update_of_ne hd,h.alone d hd]

theorem OneCore.reaper (h : OneCore c s xs) :
    ∃ s' xs', s.reaperService = some s' ∧ OneCore c s' xs' := by
  obtain ⟨s',_,ys,hs,hcur,_,h'⟩ := reaperService_inv h.inv
  rw [← hcur] at h'
  exact ⟨s',ys,hs,h',hcur ▸ h.running,hcur ▸ h.alone⟩

theorem kernelIrq_inv (h : OneCore c s xs) (iar : BitVec 32) (now frame : BitVec 64) :
    ∃ f s' xs', kernelIrq c iar now frame s = some (f,s') ∧ OneCore c s' xs' := by
  unfold kernelIrq
  dsimp only
  split
  · exact ⟨_,_,xs,rfl,h⟩
  split
  · obtain ⟨s₁,ys,hs₁,_,h₁⟩ := h.checkTasks now
    obtain ⟨zs,h₂⟩ := h₁.schedule frame
    exact ⟨_,_,zs,by rw [hs₁]; rfl,h₂⟩
  split
  · obtain ⟨s',ys,hs',h'⟩ := h.reaper
    exact ⟨frame,s',ys,by rw [hs']; rfl,h'⟩
  split
  · exact ⟨_,_,xs,rfl,⟨h.inv.queues,h.inv.filed,h.inv.onStack⟩,h.running,h.alone⟩
  · exact ⟨_,_,xs,rfl,⟨h.inv.queues,h.inv.filed,h.inv.onStack⟩,h.running,h.alone⟩

theorem createTask_current (entry exit stack : BitVec 64) :
    (s.createTask entry exit stack).current = s.current := by
  unfold Sched.createTask
  split <;> rfl

theorem taskExit_current : (s.taskExit c).current = s.current := by
  unfold Sched.taskExit
  split <;> rfl

theorem msleep_current (ms : BitVec 32) (now : BitVec 64) :
    (s.msleep c ms now).current = s.current := by
  unfold Sched.msleep
  split <;> rfl

theorem schedOp_inv {op : SchedOp} (h : OneCore c s xs) (hl : SchedLegal c s op) :
    ∃ s' xs', schedOp c s op = some s' ∧ OneCore c s' xs' := by
  cases op with
  | createTask entry exit stack =>
    obtain ⟨ys,hi⟩ := createTask_inv h.inv entry exit stack
    have hcur := createTask_current (s := s) entry exit stack
    rw [← hcur] at hi
    exact ⟨_,ys,rfl,hi,hcur ▸ h.running,hcur ▸ h.alone⟩
  | taskExit =>
    obtain ⟨t,ht,hrun,hp⟩ := hl
    have hi := taskExit_inv h.inv ht hrun hp
    have hcur := taskExit_current (s := s) (c := c)
    rw [← hcur] at hi
    exact ⟨_,xs,rfl,hi,hcur ▸ h.running,hcur ▸ h.alone⟩
  | msleep ms now =>
    obtain ⟨t,ht,hrun,hp⟩ := hl
    obtain ⟨ys,hi⟩ := msleep_inv h.inv ht hrun hp ms now
    have hcur := msleep_current (s := s) (c := c) ms now
    rw [← hcur] at hi
    exact ⟨_,ys,rfl,hi,hcur ▸ h.running,hcur ▸ h.alone⟩
  | irq iar now frame =>
    obtain ⟨f,s',ys,hs,h'⟩ := kernelIrq_inv h iar now frame
    exact ⟨s',ys,by simp [schedOp,hs],h'⟩

theorem schedStep_inv {op : SchedOp} (h : ∃ xs, OneCore c s xs) (hl : SchedLegal c s op) :
    ∃ xs, OneCore c (schedStep c s op) xs := by
  obtain ⟨xs,h⟩ := h
  obtain ⟨s',ys,hs,h'⟩ := schedOp_inv h hl
  exact ⟨ys,by rwa [schedStep,hs]⟩

/-- The globals before init_sched: empty queues, anything in the task structures, and no
other core in the scheduler. -/
structure BeforeInit (c : SchedCore) (s : Sched) : Prop where
  queues : ∀ q, s.queues q = .empty
  alone : ∀ d, d ≠ c → s.current d = none

theorem initSched_state (s : Sched) (c : SchedCore) (t : TaskRef) :
    (s.initSched c).state t = if t = .idle c then .running else .empty := by
  simp only [Sched.state,Sched.initSched,Function.update_apply]
  split <;> rfl

theorem initSched_current (h : BeforeInit c s) {d : SchedCore} {t : TaskRef}
    (ht : (s.initSched c).current d = some t) : d = c ∧ t = .idle c := by
  by_cases hd : d = c
  · subst hd
    exact ⟨rfl,by simpa [Sched.initSched,eq_comm] using ht⟩
  · simp [Sched.initSched,Function.update_of_ne hd,h.alone d hd] at ht

theorem initSched_inv (h : BeforeInit c s) : OneCore c (s.initSched c) fun _ => [] where
  inv := by
    refine ⟨⟨fun q => ?_,nofun⟩,?_,rfl⟩
    · change Represents _ (s.queues q) []
      rw [h.queues q]
      exact represents_empty
    · constructor
      · intro t; rw [initSched_state]; split <;> simp
      · intro t; rw [initSched_state]; split <;> simp
      · intro t; rw [initSched_state]; split <;> simp
      · intro i; simp [initSched_state]
      · intro d; rw [initSched_state]; split <;> simp
      · intro d e hd
        obtain ⟨rfl,he⟩ := initSched_current h hd
        exact TaskRef.idle.inj he
      · intro d e t hd he
        rw [(initSched_current h hd).1,(initSched_current h he).1]
  running := ⟨.idle c,by simp [Sched.initSched]⟩
  alone d hd := by simpa [Sched.initSched,Function.update_of_ne hd] using h.alone d hd

/-- In every state that legal calls and interrupts reach from init_sched, each next one
runs to its end, and every slot of task_pool[] is in the queue of its state only. -/
theorem sched_integrity (c : SchedCore) (s : Sched) (h : BeforeInit c s) (ops : List SchedOp)
    (hl : Along (schedStep c) (SchedLegal c) (s.initSched c) ops) :
    let s' := exec (schedStep c) (s.initSched c) ops
    (∃ xs, Integrity c s' xs) ∧ ∀ op, SchedLegal c s' op → (schedOp c s' op).isSome := by
  intro s'
  obtain ⟨xs,h'⟩ : ∃ xs, OneCore c s' xs :=
    exec_invariant (fun _ _ => schedStep_inv) ⟨_,initSched_inv h⟩ hl
  refine ⟨⟨xs,h'.integrity⟩,fun op hop => ?_⟩
  obtain ⟨t,_,ht,_⟩ := schedOp_inv h' hop
  simp [ht]

def bootSched : Sched where
  tasks _ := .zero
  next _ := none
  queues _ := .empty
  nextTaskId := 0
  current _ := none
  io := []

/-- The idle task creates two tasks; the first one sleeps, the second one exits, is
reaped, and its slot is used again. -/
theorem sched_integrity_reuse :
    let ops : List SchedOp :=
      [.createTask 0x100 0x900 0x10000,.createTask 0x200 0x900 0x20000,.irq 30 0 0x30000,
       .msleep 5 10,.irq 8 10 0x13000,.taskExit,.irq 8 11 0x23000,.irq 9 11 0x31000,
       .createTask 0x300 0x900 0x20000,.irq 30 20 0x32000]
    BeforeInit 0 bootSched ∧
    Along (schedStep 0) (SchedLegal 0) (bootSched.initSched 0) ops ∧
    let s := exec (schedStep 0) (bootSched.initSched 0) ops
    (∃ xs, Integrity 0 s xs) ∧ ∀ op, SchedLegal 0 s op → (schedOp 0 s op).isSome := by
  intro ops
  have hb : BeforeInit 0 bootSched := ⟨fun _ => rfl,fun _ _ => rfl⟩
  have hl : Along (schedStep 0) (SchedLegal 0) (bootSched.initSched 0) ops := by decide
  exact ⟨hb,hl,sched_integrity 0 bootSched hb ops hl⟩

end Arm64

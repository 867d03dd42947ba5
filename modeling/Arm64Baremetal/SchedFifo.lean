import Arm64Baremetal.SchedReaper

/-!
The history of the scheduler on one core: what is put into ready_q and what schedule_task
takes out of it, and the frames that create_task builds and schedule_task saves.
-/

set_option autoImplicit false

namespace Arm64
open Runs IntrusiveQueue

inductive SchedEvent where
  /-- create_task fills in `t->frame`. -/
  | created (t : TaskRef) (frame : BitVec 64)
  /-- `task_enqueue(&ready_q, t)` -/
  | readied (t : TaskRef)
  /-- `schedule_task(frame)` with `t` current. -/
  | saved (t : TaskRef) (frame : BitVec 64)
  /-- schedule_task returns `t`. -/
  | chosen (t : TaskRef)
  deriving DecidableEq

namespace Sched

def createEvents (stack : BitVec 64) (s : Sched) : List SchedEvent :=
  match s.emptySlot with
  | none => []
  | some i => [.created (.pool i) (s.newTask stack (.pool i)).frame,.readied (.pool i)]

def checkOneEvents (now : BitVec 64) (s : Sched) : List SchedEvent :=
  match s.taskDequeue .sleepQ with
  | (none,_) => []
  | (some t,s) => if (s.tasks t).wakeTick ≤ now then [.readied t] else []

/-- The loop of sched_check_tasks, as `Runs.whileSome` goes through it. -/
def checkEvents (now : BitVec 64) : Nat → Sched → List SchedEvent
  | 0, _ => []
  | n + 1, s =>
    match s.checkOne now with
    | none => []
    | some s' => s.checkOneEvents now ++ checkEvents now n s'

def putAwayEvents (core : SchedCore) (current : TaskRef) (s : Sched) : List SchedEvent :=
  match (s.tasks current).state with
  | .running => if current ≠ .idle core then [.readied current] else []
  | _ => []

def scheduleEvents (core : SchedCore) (frame : BitVec 64) (s : Sched) : List SchedEvent :=
  match s.current core with
  | none => []
  | some current =>
    let s := s.setTask current { s.tasks current with frame := frame }
    .saved current frame :: s.putAwayEvents core current ++
      [.chosen ((s.putAway core current).pickNext core current).1]

end Sched

def irqEvents (core : SchedCore) (iar : BitVec 32) (now frame : BitVec 64) (s : Sched) :
    List SchedEvent :=
  if Schedules iar then
    match s.schedCheckTasks now with
    | none => []
    | some s' => s.checkEvents now Sched.loopBound ++ s'.scheduleEvents core frame
  else []

def opEvents (c : SchedCore) (s : Sched) : SchedOp → List SchedEvent
  | .createTask _ _ stack => s.createEvents stack
  | .taskExit | .msleep _ _ => []
  | .irq iar now frame => irqEvents c iar now frame s

def schedLog (c : SchedCore) : Sched → List SchedOp → List SchedEvent
  | _, [] => []
  | s, op :: ops => opEvents c s op ++ schedLog c (schedStep c s op) ops

theorem schedLog_snoc (c : SchedCore) (s : Sched) (ops : List SchedOp) (op : SchedOp) :
    schedLog c s (ops ++ [op]) =
      schedLog c s ops ++ opEvents c (exec (schedStep c) s ops) op := by
  induction ops generalizing s with
  | nil => simp [schedLog]
  | cons o ops ih => simp [schedLog,ih]

def SchedEvent.readiedTask : SchedEvent → Option TaskRef
  | .readied t => some t
  | .created _ _ | .saved _ _ | .chosen _ => none

def SchedEvent.chosenTask : SchedEvent → Option TaskRef
  | .chosen (.pool i) => some (.pool i)
  | .chosen (.idle _) | .created _ _ | .readied _ | .saved _ _ => none

def SchedEvent.frameOf (t : TaskRef) : SchedEvent → Option (BitVec 64)
  | .created u frame | .saved u frame => if u = t then some frame else none
  | .readied _ | .chosen _ => none

def readiedTasks (log : List SchedEvent) : List TaskRef := log.filterMap (·.readiedTask)

def chosenTasks (log : List SchedEvent) : List TaskRef := log.filterMap (·.chosenTask)

/-- The last frame that was saved for `t`, or built if it has not run since. -/
def lastFrame (t : TaskRef) (log : List SchedEvent) : Option (BitVec 64) :=
  (log.filterMap (·.frameOf t)).getLast?

theorem readiedTasks_append (log es : List SchedEvent) :
    readiedTasks (log ++ es) = readiedTasks log ++ readiedTasks es := List.filterMap_append

theorem chosenTasks_append (log es : List SchedEvent) :
    chosenTasks (log ++ es) = chosenTasks log ++ chosenTasks es := List.filterMap_append

theorem lastFrame_append (t : TaskRef) (log es : List SchedEvent) :
    lastFrame t (log ++ es) = (lastFrame t es).or (lastFrame t log) := by
  rw [lastFrame,List.filterMap_append,List.getLast?_append]
  rfl

variable {s : Sched} {cur : SchedCore → Option TaskRef} {xs : QueueId → List TaskRef}
  {c : SchedCore} {t : TaskRef}

theorem checkOneEvents_eq {s₀ : Sched} {now : BitVec 64} {ts : List TaskRef}
    (h : CheckLoop s₀ now xs (t :: ts) s) :
    s.checkOneEvents now = if s₀.due now t then [.readied t] else [] := by
  obtain ⟨_,seen,_,hchecked,hq⟩ := h
  obtain ⟨d,hd,htasks,_⟩ := taskDequeue_cons (q := .sleepQ) hq rfl
  have hwake : (d.tasks t).wakeTick = (s₀.tasks t).wakeTick := by
    rw [htasks,hchecked.tasks t]
    split <;> rfl
  simp only [Sched.checkOneEvents,hd,hwake,Sched.due,decide_eq_true_eq]

theorem checkEvents_eq {s₀ : Sched} {now : BitVec 64} {rest : List TaskRef} {n : Nat}
    (h : CheckLoop s₀ now xs rest s) (hn : rest.length < n) :
    s.checkEvents now n = (rest.filter (s₀.due now)).map .readied := by
  induction rest generalizing n s with
  | nil =>
    obtain ⟨m,rfl⟩ := Nat.exists_eq_add_of_lt hn
    simp [Sched.checkEvents,checkLoop_nil h]
  | cons t ts ih =>
    cases n with
    | zero => simp at hn
    | succ n =>
      obtain ⟨s',hs,h'⟩ := checkLoop_cons h
      simp only [Sched.checkEvents,hs,checkOneEvents_eq h,ih h' (by simpa using hn)]
      cases hdue : s₀.due now t <;> simp [hdue]

/-- What is in ready_q is what went in after the last one that came out. -/
structure FifoInv (c : SchedCore) (log : List SchedEvent) (s : Sched)
    (xs : QueueId → List TaskRef) : Prop where
  one : OneCore c s xs
  fifo : readiedTasks log = chosenTasks log ++ xs .readyQ
  idle : s.state (.idle c) ≠ .empty
  alive : ∀ t, s.current c = some t → s.state t ≠ .empty
  frames : ∀ t, s.state t ≠ .empty → lastFrame t log = some (s.tasks t).frame ∨
    t = .idle c ∧ s.current c = some t

theorem taskEnqueue_ready (h : Family s.next s.queues xs) (ht : ∀ j, t ∉ xs j) :
    Represents (s.taskEnqueue .readyQ t).next ((s.taskEnqueue .readyQ t).queues .readyQ)
      (xs .readyQ ++ [t]) := by
  have hf : Family (s.taskEnqueue .readyQ t).next (s.taskEnqueue .readyQ t).queues _ :=
    h.enqueue .readyQ ht
  have hq := hf.represents .readyQ
  rwa [Function.update_self] at hq

theorem taskEnqueue_other (h : Family s.next s.queues xs) (ht : ∀ j, t ∉ xs j) {q : QueueId}
    (hq : q ≠ .readyQ) :
    Represents (s.taskEnqueue q t).next ((s.taskEnqueue q t).queues .readyQ) (xs .readyQ) := by
  have hf : Family (s.taskEnqueue q t).next (s.taskEnqueue q t).queues _ := h.enqueue q ht
  have hr := hf.represents .readyQ
  rwa [Function.update_of_ne hq.symm] at hr

theorem createTask_ready (h : SchedInv s s.current xs) (entry exit stack : BitVec 64) :
    Represents (s.createTask entry exit stack).next
      ((s.createTask entry exit stack).queues .readyQ)
      (xs .readyQ ++ readiedTasks (s.createEvents stack)) := by
  cases hi : s.emptySlot with
  | none =>
    simp only [Sched.createTask,Sched.createEvents,hi]
    exact (List.append_nil _).symm ▸ h.queues.represents .readyQ
  | some i =>
    have he := emptySlot_state hi
    obtain ⟨io,hs⟩ := createTask_eq hi entry exit stack
    have hn := h.not_mem (t := .pool i) (by simp [he]) (by simp [he]) (by simp [he])
    simp only [Sched.createEvents,hi,hs]
    exact taskEnqueue_ready (s := s.setTask (.pool i) _) h.queues hn

theorem msleep_ready (h : SchedInv s s.current xs) (hc : s.current c = some t)
    (ht : s.state t = .running) (ms : BitVec 32) (now : BitVec 64) :
    Represents (s.msleep c ms now).next ((s.msleep c ms now).queues .readyQ) (xs .readyQ) := by
  have hn := h.not_mem (t := t) (by simp [ht]) (by simp [ht]) (by simp [ht])
  simp only [Sched.msleep,hc]
  exact taskEnqueue_other (s := s.setTask t _) h.queues hn (by decide)

theorem putAway_ready (h : SchedInv s cur xs) (hc : cur c = some t) :
    Represents (s.putAway c t).next ((s.putAway c t).queues .readyQ)
      (xs .readyQ ++ readiedTasks (s.putAwayEvents c t)) := by
  have hr := h.queues.represents .readyQ
  have hcur : Current cur t := ⟨c,hc⟩
  unfold Sched.putAway Sched.putAwayEvents
  cases ht : (s.tasks t).state with
  | zombie =>
    have hn := h.not_mem (t := t) (by simp [Sched.state,ht]) (by simp [Sched.state,ht])
      fun _ => hcur
    exact (List.append_nil _).symm ▸ taskEnqueue_other h.queues hn (by decide)
  | running =>
    have hn := h.not_mem (t := t) (by simp [Sched.state,ht]) (by simp [Sched.state,ht])
      fun _ => hcur
    dsimp only
    split
    · exact taskEnqueue_ready (s := s.setState t .ready) h.queues hn
    · exact (List.append_nil _).symm ▸ hr
  | empty => exact (List.append_nil _).symm ▸ hr
  | ready => exact (List.append_nil _).symm ▸ hr
  | sleeping => exact (List.append_nil _).symm ▸ hr

theorem pickNext_ready (h : SchedInv s cur xs) (t : TaskRef) :
    ∃ n rest, (s.pickNext c t).1 = n ∧
      Represents (s.pickNext c t).2.next ((s.pickNext c t).2.queues .readyQ) rest ∧
      (xs .readyQ = [] ∧ rest = [] ∧ n = .idle c ∨ xs .readyQ = n :: rest) := by
  obtain ⟨hn,hnext,hqueues,_,_⟩ := pickNext_spec s c t
  cases hx : xs .readyQ with
  | nil =>
    rw [taskDequeue_nil h.queues hx] at hn hnext hqueues
    refine ⟨.idle c,[],hn,?_,.inl ⟨rfl,rfl,rfl⟩⟩
    rw [hnext,hqueues]
    exact hx ▸ h.queues.represents .readyQ
  | cons u us =>
    obtain ⟨d,hd,_,_,hq,_⟩ := taskDequeue_cons h.queues hx
    rw [hd] at hn hnext hqueues
    refine ⟨u,us,hn,?_,.inr rfl⟩
    rw [hnext,hqueues]
    have hr := hq.represents .readyQ
    rwa [Function.update_self] at hr

theorem FifoInv.enqueued {log es : List SchedEvent} (h : FifoInv c log s xs)
    {ys : QueueId → List TaskRef} (hchosen : chosenTasks es = [])
    (hready : ys .readyQ = xs .readyQ ++ readiedTasks es) :
    readiedTasks (log ++ es) = chosenTasks (log ++ es) ++ ys .readyQ := by
  rw [readiedTasks_append,chosenTasks_append,hchosen,hready,h.fifo,List.append_nil,
    List.append_assoc]

theorem FifoInv.quiet {log es : List SchedEvent} (h : FifoInv c log s xs) {s' : Sched}
    {ys : QueueId → List TaskRef} (hone : OneCore c s' ys)
    (hframes : ∀ t, es.filterMap (·.frameOf t) = []) (hchosen : chosenTasks es = [])
    (hready : ys .readyQ = xs .readyQ ++ readiedTasks es) (hcur : s'.current = s.current)
    (hlive : ∀ t, s.state t ≠ .empty → s.state t ≠ .zombie ∨ Current s.current t →
      s'.state t ≠ .empty)
    (hsame : ∀ t, s'.state t ≠ .empty → s.state t ≠ .empty ∧
      (s'.tasks t).frame = (s.tasks t).frame) : FifoInv c (log ++ es) s' ys where
  one := hone
  fifo := h.enqueued hchosen hready
  idle := by
    refine hlive _ h.idle (.inl ?_)
    rcases h.one.inv.filed.idle c with hi | hi <;> simp [hi]
  alive t ht := by
    rw [hcur] at ht
    exact hlive t (h.alive t ht) (.inr ⟨c,ht⟩)
  frames t ht := by
    obtain ⟨hs,hframe⟩ := hsame t ht
    rw [lastFrame_append,lastFrame,hframes t,hcur,hframe]
    exact h.frames t hs

theorem readied_map (ts : List TaskRef) : readiedTasks (ts.map .readied) = ts := by
  rw [readiedTasks,List.filterMap_map]
  exact List.filterMap_some

theorem chosen_map (ts : List TaskRef) : chosenTasks (ts.map .readied) = [] := by
  rw [chosenTasks,List.filterMap_map]
  exact List.filterMap_none ts

theorem frameOf_map (t : TaskRef) (ts : List TaskRef) :
    (ts.map SchedEvent.readied).filterMap (·.frameOf t) = [] := by
  rw [List.filterMap_map]
  exact List.filterMap_none ts

theorem FifoInv.check {log : List SchedEvent} (h : FifoInv c log s xs) (now : BitVec 64) :
    ∃ s' ys, s.schedCheckTasks now = some s' ∧ s'.current = s.current ∧
      FifoInv c (log ++ s.checkEvents now Sched.loopBound) s' ys := by
  obtain ⟨s',ys,hs,hw,hone⟩ := h.one.checkTasks now
  obtain ⟨s'',hs',hchecked,hq⟩ := schedCheckTasks_exact h.one.inv.queues h.one.inv.onStack now
  obtain rfl : s' = s'' := Option.some.inj (hs.symm.trans hs')
  have hcur : s'.current = s.current := by rw [hchecked.rest]
  have hev := checkEvents_eq (checkLoop_start h.one.inv.queues h.one.inv.onStack now)
    (length_lt_loopBound h.one.inv.queues .sleepQ)
  refine ⟨s',ys,hs,hcur,h.quiet hone (fun t => ?_) ?_ ?_ hcur (fun t ht _ => hw.keeps.alive t ht)
    fun t ht => ?_⟩
  · rw [hev,frameOf_map]
  · rw [hev,chosen_map]
  · rw [hev,readied_map]
    exact (hone.inv.queues.represents .readyQ).unique (hq.represents .readyQ)
  · rcases hw t with hk | ⟨hsl,hk⟩
    · exact ⟨by rwa [Sched.state,hk] at ht,by rw [hk]⟩
    · exact ⟨by rw [hsl]; decide,by rw [hk]⟩

theorem FifoInv.create {log : List SchedEvent} (h : FifoInv c log s xs)
    {entry exit stack : BitVec 64} (hl : SchedLegal c s (.createTask entry exit stack)) :
    ∃ ys, FifoInv c (log ++ s.createEvents stack) (s.createTask entry exit stack) ys := by
  obtain ⟨s',ys,hs,hone⟩ := schedOp_inv h.one hl
  obtain rfl : s.createTask entry exit stack = s' := Option.some.inj hs
  have hcur := createTask_current (s := s) entry exit stack
  have hkeeps := createTask_keeps (s := s) entry exit stack
  have hready := (hone.inv.queues.represents .readyQ).unique
    (createTask_ready h.one.inv entry exit stack)
  have hchosen : chosenTasks (s.createEvents stack) = [] := by
    unfold Sched.createEvents
    split <;> rfl
  refine ⟨ys,hone,h.enqueued hchosen hready,hkeeps.alive _ h.idle,fun t ht => ?_,fun t ht => ?_⟩
  · rw [hcur] at ht
    exact hkeeps.alive t (h.alive t ht)
  rw [lastFrame_append,hcur]
  rcases createTask_tasks (s := s) entry exit stack with ⟨i,hi,htasks⟩ | ⟨hi,htasks⟩
  · simp only [Sched.createEvents,hi]
    by_cases hti : t = .pool i
    · subst hti
      rw [htasks,Function.update_self]
      exact .inl (by simp [lastFrame,SchedEvent.frameOf])
    · rw [Sched.state,htasks,Function.update_of_ne hti] at ht
      rw [htasks,Function.update_of_ne hti]
      have hno : lastFrame t [.created (.pool i) (s.newTask stack (.pool i)).frame,
          .readied (.pool i)] = none := by
        simp [lastFrame,SchedEvent.frameOf,Ne.symm hti]
      rw [hno]
      exact h.frames t ht
  · simp only [Sched.createEvents,hi]
    rw [Sched.state,htasks] at ht
    rw [htasks]
    exact h.frames t ht

theorem FifoInv.setCurrent {log : List SchedEvent} (h : FifoInv c log s xs) {s' : Sched}
    {ys : QueueId → List TaskRef} {k : Task} (hone : OneCore c s' ys) (ht : s.state t ≠ .empty)
    (htasks : s'.tasks = Function.update s.tasks t k) (hk : k.state ≠ .empty)
    (hframe : k.frame = (s.tasks t).frame) (hcur : s'.current = s.current)
    (hready : Represents s'.next (s'.queues .readyQ) (xs .readyQ)) : FifoInv c log s' ys := by
  have hkeeps : KeepsTasks s s' := .of_update htasks hk fun _ => hframe
  have hr : ys .readyQ = xs .readyQ := (hone.inv.queues.represents .readyQ).unique hready
  have hq : FifoInv c (log ++ []) s' ys := by
    refine h.quiet hone (fun _ => rfl) rfl (by rw [hr]; exact (List.append_nil _).symm) hcur
      (fun u hu _ => hkeeps.alive u hu) fun u hu => ?_
    have hu' : s.state u ≠ .empty := by
      by_cases hut : u = t
      · rwa [hut]
      · rwa [Sched.state,htasks,Function.update_of_ne hut] at hu
    exact ⟨hu',hkeeps.frame u hu'⟩
  rwa [List.append_nil] at hq

theorem FifoInv.exit {log : List SchedEvent} (h : FifoInv c log s xs)
    (hl : SchedLegal c s .taskExit) : ∃ ys, FifoInv c log (s.taskExit c) ys := by
  obtain ⟨s',ys,hs,hone⟩ := schedOp_inv h.one hl
  obtain rfl : s.taskExit c = s' := Option.some.inj hs
  obtain ⟨t,ht,_⟩ := hl
  have hc : s.current c = some t := ht
  refine ⟨ys,?_⟩
  simp only [Sched.taskExit,hc] at hone ⊢
  exact h.setCurrent hone (h.alive t hc) rfl (by simp) rfl rfl (h.one.inv.queues.represents .readyQ)

theorem FifoInv.sleep {log : List SchedEvent} (h : FifoInv c log s xs) {ms : BitVec 32}
    {now : BitVec 64} (hl : SchedLegal c s (.msleep ms now)) :
    ∃ ys, FifoInv c log (s.msleep c ms now) ys := by
  obtain ⟨s',ys,hs,hone⟩ := schedOp_inv h.one hl
  obtain rfl : s.msleep c ms now = s' := Option.some.inj hs
  obtain ⟨t,ht,hrun,_⟩ := hl
  have hc : s.current c = some t := ht
  have hready := msleep_ready h.one.inv hc hrun ms now
  refine ⟨ys,?_⟩
  simp only [Sched.msleep,hc] at hone hready ⊢
  exact h.setCurrent hone (h.alive t hc) rfl (by simp) rfl rfl hready

theorem FifoInv.reap {log : List SchedEvent} (h : FifoInv c log s xs) :
    ∃ s' ys, s.reaperService = some s' ∧ FifoInv c log s' ys := by
  obtain ⟨s',ys,hs,hone⟩ := h.one.reaper
  obtain ⟨s'',hs',hswept,hq⟩ := reaperService_exact h.one.inv.queues h.one.inv.onStack
  obtain rfl : s' = s'' := Option.some.inj (hs.symm.trans hs')
  have hr : ys .readyQ = xs .readyQ :=
    (hone.inv.queues.represents .readyQ).unique (hq.represents .readyQ)
  have htasks := hswept.swept.tasks
  refine ⟨s',ys,hs,?_⟩
  have hq' : FifoInv c (log ++ []) s' ys := by
    refine h.quiet hone (fun _ => rfl) rfl (by rw [hr]; exact (List.append_nil _).symm)
      hswept.swept.current (fun u hu hz => ?_) fun u hu => ?_
    · have hnot : ¬ (u ∈ xs .zombieQ ∧ s.released u) := by
        rintro ⟨hm,_⟩
        obtain ⟨hzombie,hno⟩ := (h.one.inv.filed.zombie u).mp hm
        exact hz.elim (· hzombie) hno
      rwa [Sched.state,htasks u,if_neg hnot]
    · have ht := htasks u
      split at ht
      · rw [Sched.state,ht] at hu
        exact absurd rfl hu
      · rw [Sched.state,ht] at hu
        exact ⟨hu,by rw [ht]⟩
  rwa [List.append_nil] at hq'

theorem putAwayEvents_map (s : Sched) (c : SchedCore) (t : TaskRef) :
    ∃ ts : List TaskRef, s.putAwayEvents c t = ts.map .readied := by
  unfold Sched.putAwayEvents
  split
  · split
    · exact ⟨[t],rfl⟩
    · exact ⟨[],rfl⟩
  · exact ⟨[],rfl⟩

theorem lastFrame_schedule (ht : s.current c = some t) (frame : BitVec 64) (u : TaskRef) :
    lastFrame u (s.scheduleEvents c frame) = if t = u then some frame else none := by
  obtain ⟨ts,hts⟩ :=
    putAwayEvents_map (s.setTask t { s.tasks t with frame := frame }) c t
  simp only [Sched.scheduleEvents,ht,hts]
  have hnone : lastFrame u (ts.map .readied) = none := by rw [lastFrame,frameOf_map]; rfl
  have hcons : SchedEvent.saved t frame :: ts.map .readied = [.saved t frame] ++ ts.map .readied :=
    rfl
  rw [lastFrame_append,hcons,lastFrame_append,hnone]
  by_cases htu : t = u <;> simp [lastFrame,SchedEvent.frameOf,htu]

/-- What schedule_task puts into ready_q goes to its end, and what it chooses is its head, or
the idle task when there is none. -/
theorem scheduleTask_fifo (h : SchedInv s s.current xs) (ht : s.current c = some t)
    (frame : BitVec 64) :
    ∃ n rest, (s.scheduleTask c frame).1 = some n ∧
      Represents (s.scheduleTask c frame).2.next ((s.scheduleTask c frame).2.queues .readyQ) rest ∧
      xs .readyQ ++ readiedTasks (s.scheduleEvents c frame) =
        chosenTasks (s.scheduleEvents c frame) ++ rest ∧
      ∀ d, n = .idle d → (((s.setTask t { s.tasks t with frame := frame }).putAway c t).queues
        .readyQ).head = none := by
  have hi := setFrame_inv h t frame
  obtain ⟨ys,hi₂,_⟩ := putAway_inv hi ht
  have hput := (hi₂.queues.represents .readyQ).unique (putAway_ready hi ht)
  obtain ⟨n,rest,hn,hrest,hfrom⟩ := pickNext_ready hi₂ (c := c) t
  have hreadied : readiedTasks (s.scheduleEvents c frame) = readiedTasks
      ((s.setTask t { s.tasks t with frame := frame }).putAwayEvents c t) := by
    simp only [Sched.scheduleEvents,ht]
    rw [readiedTasks_append]
    exact List.append_nil _
  have hchosen : chosenTasks (s.scheduleEvents c frame) = chosenTasks [.chosen n] := by
    obtain ⟨ts,hts⟩ :=
      putAwayEvents_map (s.setTask t { s.tasks t with frame := frame }) c t
    simp only [Sched.scheduleEvents,ht,hn,hts]
    rw [chosenTasks_append]
    exact congrArg (· ++ _) (chosen_map ts)
  refine ⟨n,rest,by simp only [Sched.scheduleTask,ht,hn],?_,?_,fun d hd => ?_⟩
  · simp only [Sched.scheduleTask,ht]
    exact hrest
  · rw [hreadied,hchosen,← hput]
    rcases hfrom with ⟨hnil,hr,hidle⟩ | hcons
    · rw [hnil,hr,hidle]
      rfl
    · have hready := (hi₂.filed.ready n).mp (by rw [hcons]; exact List.mem_cons_self)
      cases n with
      | pool i => exact hcons
      | idle d => rcases hi₂.filed.idle d with hs | hs <;> simp [hready] at hs
  · rcases hfrom with ⟨hnil,_,_⟩ | hcons
    · exact (hi₂.queues.represents .readyQ).head_eq_none.mpr hnil
    · have hready := (hi₂.filed.ready n).mp (by rw [hcons]; exact List.mem_cons_self)
      rw [hd] at hready
      rcases hi₂.filed.idle d with hs | hs <;> simp [hready] at hs

theorem FifoInv.schedule_frame {log : List SchedEvent} (h : FifoInv c log s xs)
    (frame : BitVec 64) (ht : s.current c = some t) {u : TaskRef} (hu : s.state u ≠ .empty) :
    lastFrame u (log ++ s.scheduleEvents c frame) =
      some ((s.scheduleTask c frame).2.tasks u).frame := by
  have hkeeps := scheduleTask_keeps ht (h.alive t ht) frame
  have hframe := hkeeps.frame u (by rwa [setFrame_state])
  rw [lastFrame_append,lastFrame_schedule ht,hframe]
  by_cases hut : t = u
  · subst hut
    rw [if_pos rfl]
    simp [Sched.setTask]
  · rw [if_neg hut]
    have hold : (s.setTask t { s.tasks t with frame := frame }).tasks u = s.tasks u :=
      Function.update_of_ne (Ne.symm hut) _ _
    rw [hold]
    rcases h.frames u hu with hl | ⟨_,hu'⟩
    · exact hl
    · exact absurd (Option.some.inj (ht.symm.trans hu')) hut

theorem FifoInv.schedule {log : List SchedEvent} (h : FifoInv c log s xs) (frame : BitVec 64)
    (ht : s.current c = some t) :
    ∃ n ys, (s.scheduleTask c frame).1 = some n ∧
      FifoInv c (log ++ s.scheduleEvents c frame) (s.scheduleTask c frame).2 ys ∧
      (∀ d, n = .idle d → (((s.setTask t { s.tasks t with frame := frame }).putAway c t).queues
        .readyQ).head = none) ∧
      lastFrame n (log ++ s.scheduleEvents c frame) =
        some ((s.scheduleTask c frame).2.tasks n).frame := by
  obtain ⟨n,rest,hn,hrest,hfifo,hidle⟩ := scheduleTask_fifo h.one.inv ht frame
  obtain ⟨ys,hone⟩ := h.one.schedule frame
  obtain ⟨m,hm,htakes⟩ := scheduleTask_takes h.one.inv ht frame
  obtain rfl : n = m := Option.some.inj (hn.symm.trans hm)
  obtain ⟨hcur,hrun,hst,_⟩ := scheduleTask_inv h.one.inv ht frame hn (h.one.next_free n)
  have hkeeps := scheduleTask_keeps ht (h.alive t ht) frame
  have halive : ∀ u, s.state u ≠ .empty → (s.scheduleTask c frame).2.state u ≠ .empty := fun u hu =>
    hkeeps.alive u (by rwa [setFrame_state])
  have hnew : s.state n ≠ .empty := by
    rcases htakes with hhead | rfl | rfl
    · rw [(h.one.inv.filed.ready n).mp (List.mem_of_head? hhead)]
      decide
    · exact h.alive n ht
    · exact h.idle
  have hold : ∀ u, (s.scheduleTask c frame).2.state u ≠ .empty → s.state u ≠ .empty := by
    intro u hu
    by_cases hut : u = t
    · exact hut ▸ h.alive t ht
    by_cases hun : u = n
    · exact hun ▸ hnew
    · rwa [hst u hut hun] at hu
  refine ⟨n,ys,hn,⟨hone,?_,halive _ h.idle,fun u hu => ?_,fun u hu =>
    .inl (h.schedule_frame frame ht (hold u hu))⟩,hidle,h.schedule_frame frame ht hnew⟩
  · rw [(hone.inv.queues.represents .readyQ).unique hrest,readiedTasks_append,chosenTasks_append,
      h.fifo,List.append_assoc,hfifo,List.append_assoc]
  · rw [hcur,Function.update_self] at hu
    obtain rfl := Option.some.inj hu
    exact halive n hnew

/-- The timer interrupt and SCHEDULER_YIELD: which task kernel_irq goes to, and with which
frame. -/
structure Dispatches (c : SchedCore) (log : List SchedEvent) (s : Sched) (iar : BitVec 32)
    (now frame : BitVec 64) (s₁ s₂ : Sched) (t n : TaskRef) (f : BitVec 64) : Prop where
  check : s.schedCheckTasks now = some s₁
  current : s₁.current c = some t
  choice : (s₁.scheduleTask c frame).1 = some n
  result : kernelIrq c iar now frame s = some (f,s₂)
  idle : ∀ d, n = .idle d → (((s₁.setTask t { s₁.tasks t with frame := frame }).putAway c t).queues
    .readyQ).head = none
  frame : lastFrame n (log ++ irqEvents c iar now frame s) = some f

theorem FifoInv.irq {log : List SchedEvent} (h : FifoInv c log s xs) {iar : BitVec 32}
    (hi : Schedules iar) (now frame : BitVec 64) :
    ∃ s₁ s₂ t n f ys, Dispatches c log s iar now frame s₁ s₂ t n f ∧
      FifoInv c (log ++ irqEvents c iar now frame s) s₂ ys := by
  obtain ⟨s₁,ys,hs₁,_,h₁⟩ := h.check now
  obtain ⟨t,ht⟩ := h₁.one.running
  obtain ⟨n,zs,hn,h₂,hidle,hframe⟩ := h₁.schedule frame ht
  have hev : irqEvents c iar now frame s =
      s.checkEvents now Sched.loopBound ++ s₁.scheduleEvents c frame := by
    simp only [irqEvents,if_pos hi,hs₁]
  have hres : kernelIrq c iar now frame s = some (scheduleFrame c frame s₁) := by
    rw [kernelIrq_schedules hi,hs₁,Option.map_some]
  have hf : scheduleFrame c frame s₁ =
      (((s₁.scheduleTask c frame).2.tasks n).frame,(s₁.scheduleTask c frame).2) := by
    simp only [scheduleFrame,hn,Option.elim_some]
  refine ⟨s₁,_,t,n,_,zs,⟨hs₁,ht,hn,hres.trans (congrArg some hf),hidle,?_⟩,?_⟩
  · rw [← hframe,hev,List.append_assoc]
  · rw [hev,← List.append_assoc]
    exact h₂

theorem FifoInv.step {log : List SchedEvent} (h : FifoInv c log s xs) {op : SchedOp}
    (hl : SchedLegal c s op) : ∃ ys, FifoInv c (log ++ opEvents c s op) (schedStep c s op) ys := by
  have hnil : ∀ {s' ys}, FifoInv c log s' ys → FifoInv c (log ++ []) s' ys := by
    intro s' ys h'
    rwa [List.append_nil]
  cases op with
  | createTask entry exit stack => exact h.create hl
  | taskExit =>
    obtain ⟨ys,h'⟩ := h.exit hl
    exact ⟨ys,hnil h'⟩
  | msleep ms now =>
    obtain ⟨ys,h'⟩ := h.sleep hl
    exact ⟨ys,hnil h'⟩
  | irq iar now frame =>
    by_cases hi : Schedules iar
    · obtain ⟨s₁,s₂,t,n,f,ys,hd,h'⟩ := h.irq hi now frame
      refine ⟨ys,?_⟩
      simp only [schedStep,schedOp,hd.result,Option.map_some,Option.getD_some]
      exact h'
    · have hi' : ¬ (iar &&& 0xFFFFFF = cntpIntid ∨ iar &&& 0xFFFFFF = schedulerYield) := hi
      have hev : opEvents c s (.irq iar now frame) = [] := if_neg hi
      rw [hev]
      have hsame : ∀ i, FifoInv c log (s.emit i) xs := fun i =>
        ⟨⟨⟨h.one.inv.queues,h.one.inv.filed,h.one.inv.onStack⟩,h.one.running,h.one.alone⟩,
          h.fifo,h.idle,h.alive,h.frames⟩
      simp only [schedStep,schedOp,kernelIrq,if_neg hi']
      split
      · exact ⟨xs,hnil h⟩
      split
      · obtain ⟨s',ys,hs,h'⟩ := h.reap
        exact ⟨ys,by rw [hs]; exact hnil h'⟩
      split
      · exact ⟨xs,hnil (hsame _)⟩
      · exact ⟨xs,hnil (hsame _)⟩

theorem boot_fifoInv (h : BeforeInit c s) : FifoInv c [] (s.initSched c) fun _ => [] := by
  have hst := initSched_state s c
  refine ⟨initSched_inv h,rfl,?_,fun t ht => ?_,fun t ht => .inr ?_⟩
  · rw [hst,if_pos rfl]
    decide
  · obtain ⟨_,rfl⟩ := initSched_current h ht
    rw [hst,if_pos rfl]
    decide
  · rw [hst] at ht
    split at ht
    next hti => exact ⟨hti,by rw [hti]; exact Function.update_self ..⟩
    · exact absurd rfl ht

/-- The tasks that schedule_task chooses are those that went into ready_q, in this order; an
idle task is chosen only when ready_q is empty; and the frame that kernel_irq returns is the
last one saved for the chosen task, or the one create_task built. -/
theorem dispatch_fifo (c : SchedCore) (s : Sched) (h : BeforeInit c s) (ops : List SchedOp)
    (hl : Along (schedStep c) (SchedLegal c) (s.initSched c) ops) :
    let s' := exec (schedStep c) (s.initSched c) ops
    let log := schedLog c (s.initSched c) ops
    chosenTasks log <+: readiedTasks log ∧
    (∃ rest, Represents s'.next (s'.queues .readyQ) rest ∧
      readiedTasks log = chosenTasks log ++ rest) ∧
    ∀ iar now frame, Schedules iar →
      ∃ s₁ s₂ t n f, Dispatches c log s' iar now frame s₁ s₂ t n f := by
  intro s' log
  obtain ⟨xs,h'⟩ : ∃ xs, FifoInv c log s' xs := by
    refine exec_history (P := SchedLegal c)
      (I := fun ops s' => ∃ xs, FifoInv c (schedLog c (s.initSched c) ops) s' xs)
      ⟨_,boot_fifoInv h⟩ (fun pre op ⟨xs,hi⟩ hop => ?_) hl
    rw [schedLog_snoc]
    exact hi.step hop
  have hready := h'.one.inv.queues.represents .readyQ
  refine ⟨⟨xs .readyQ,h'.fifo.symm⟩,⟨_,hready,h'.fifo⟩,fun iar now frame hi => ?_⟩
  obtain ⟨s₁,s₂,t,n,f,_,hd,_⟩ := h'.irq hi now frame
  exact ⟨s₁,s₂,t,n,f,hd⟩

/-- Two tasks; the first one sleeps, the second one exits, and its slot is used again. -/
theorem dispatch_fifo_reuse :
    let ops : List SchedOp :=
      [.createTask 0x100 0x900 0x10000,.createTask 0x200 0x900 0x20000,.irq 30 0 0x30000,
       .msleep 5 10,.irq 8 10 0x12000,.taskExit,.irq 8 11 0x22000,.irq 9 11 0x31000,
       .createTask 0x300 0x900 0x20000]
    let log := schedLog 0 (bootSched.initSched 0) ops
    Along (schedStep 0) (SchedLegal 0) (bootSched.initSched 0) ops ∧
    chosenTasks log = [.pool 1,.pool 2] ∧
    readiedTasks log = [.pool 1,.pool 2,.pool 2] ∧
    chosenTasks log <+: readiedTasks log ∧
    ∃ s₁ s₂ t n f, Dispatches 0 log (exec (schedStep 0) (bootSched.initSched 0) ops) 30 20 0x32000
      s₁ s₂ t n f := by
  intro ops log
  have hl : Along (schedStep 0) (SchedLegal 0) (bootSched.initSched 0) ops := by decide
  have h := dispatch_fifo 0 bootSched ⟨fun _ => rfl,fun _ _ => rfl⟩ ops hl
  exact ⟨hl,by decide,by decide,h.1,h.2.2 30 20 0x32000 (by decide)⟩

end Arm64

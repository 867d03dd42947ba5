import Arm64Baremetal.SchedInvariant

/-!
The loops of sched_check_tasks and reaper_service, on any lists: what each of them takes
from its queue, and where it puts it, in order. Neither looks at the other queues.
-/

set_option autoImplicit false

namespace Arm64
open IntrusiveQueue

namespace Sched

def withQueue (q : QueueId) (r : Queue TaskRef) (s : Sched) : Sched :=
  { s with queues := Function.update s.queues q r }

theorem withQueue_self (q : QueueId) (s : Sched) : s.withQueue q (s.queues q) = s := by
  simp only [withQueue,Function.update_eq_self]

theorem withQueue_withQueue (q : QueueId) (r r' : Queue TaskRef) (s : Sched) :
    (s.withQueue q r).withQueue q r' = s.withQueue q r' := by
  simp only [withQueue,Function.update_idem]

theorem queues_withQueue_self (q : QueueId) (r : Queue TaskRef) (s : Sched) :
    (s.withQueue q r).queues q = r := Function.update_self ..

theorem queues_withQueue {p q : QueueId} (h : p ≠ q) (r : Queue TaskRef) (s : Sched) :
    (s.withQueue q r).queues p = s.queues p := Function.update_of_ne h ..

theorem taskEnqueue_withQueue {p q : QueueId} (h : p ≠ q) (r : Queue TaskRef) (t : TaskRef)
    (s : Sched) : (s.withQueue q r).taskEnqueue p t = (s.taskEnqueue p t).withQueue q r := by
  simp only [taskEnqueue,queues_withQueue h]
  simp only [withQueue,Function.update_comm h]

theorem taskDequeue_withQueue {p q : QueueId} (h : p ≠ q) (r : Queue TaskRef) (s : Sched) :
    (s.withQueue q r).taskDequeue p = ((s.taskDequeue p).1,(s.taskDequeue p).2.withQueue q r) := by
  simp only [taskDequeue,queues_withQueue h]
  simp only [withQueue,Function.update_comm h]

theorem assignLocal_withQueue {p q : QueueId} (h : p ≠ q) (hq : q ≠ .onStack) (r : Queue TaskRef)
    (s : Sched) : (s.withQueue q r).assignLocal p = (s.assignLocal p).withQueue q r := by
  simp only [assignLocal,queues_withQueue hq.symm]
  simp only [withQueue,Function.update_comm h,Function.update_comm hq.symm]

theorem checkOne_withQueue (now : BitVec 64) (r : Queue TaskRef) (s : Sched) :
    (s.withQueue .zombieQ r).checkOne now = (s.checkOne now).map (withQueue .zombieQ r) := by
  unfold checkOne
  rw [taskDequeue_withQueue (by decide)]
  rcases s.taskDequeue .sleepQ with ⟨_ | t,d⟩
  · rfl
  · dsimp only
    split
    next hdue =>
      rw [if_pos (by exact hdue),Option.map_some]
      exact congrArg some (taskEnqueue_withQueue (by decide) r t (d.setState t .ready))
    next hdue =>
      rw [if_neg (by exact hdue),Option.map_some]
      exact congrArg some (taskEnqueue_withQueue (by decide) r t d)

theorem schedCheckTasks_withQueue (now : BitVec 64) (r : Queue TaskRef) (s : Sched) :
    (s.withQueue .zombieQ r).schedCheckTasks now =
      (s.schedCheckTasks now).map (withQueue .zombieQ r) := by
  simp only [schedCheckTasks,Runs.whileSome_map (checkOne_withQueue now r),Option.map_map]
  congr 1
  funext d
  exact assignLocal_withQueue (by decide) (by decide) r d

theorem reapOne_withQueue {q : QueueId} (hz : q ≠ .zombieQ) (hl : q ≠ .onStack)
    (r : Queue TaskRef) (s : Sched) :
    (s.withQueue q r).reapOne = s.reapOne.map (withQueue q r) := by
  unfold reapOne
  rw [taskDequeue_withQueue hz.symm]
  rcases s.taskDequeue .zombieQ with ⟨_ | z,d⟩
  · rfl
  · dsimp only
    split
    next hid =>
      rw [if_pos (by exact hid)]
      rfl
    next hid =>
      rw [if_neg (by exact hid),Option.map_some]
      exact congrArg some (taskEnqueue_withQueue hl.symm r z d)

theorem reaperService_withQueue {q : QueueId} (hz : q ≠ .zombieQ) (hl : q ≠ .onStack)
    (r : Queue TaskRef) (s : Sched) :
    (s.withQueue q r).reaperService = s.reaperService.map (withQueue q r) := by
  simp only [reaperService,Runs.whileSome_map (reapOne_withQueue hz hl r),Option.map_map]
  congr 1
  funext d
  exact assignLocal_withQueue hz.symm hl r d

/-- `now >= wake_tick` -/
def due (s : Sched) (now : BitVec 64) (t : TaskRef) : Bool := (s.tasks t).wakeTick ≤ now

/-- `core_id == 0xFF` -/
def released (s : Sched) (t : TaskRef) : Bool := (s.tasks t).coreId = 0xFF

end Sched

variable {s : Sched} {xs : QueueId → List TaskRef} {t : TaskRef}

/-- The loop is at the task `t` of its list: what it has seen is the other part of it. -/
theorem split_here {l seen ts : List TaskRef} (hn : l.Nodup) (h : l = seen ++ t :: ts) :
    t ∉ seen ∧ l = (seen ++ [t]) ++ ts ∧ ∀ u, u ∉ l → u ≠ t ∧ u ∉ seen := by
  subst h
  refine ⟨fun hm => List.disjoint_of_nodup_append hn hm List.mem_cons_self,by simp,fun u hu => ?_⟩
  simp only [List.mem_append,List.mem_cons,not_or] at hu
  exact ⟨hu.2.1,hu.1⟩

theorem taskEnqueue_links (h : Family s.next s.queues xs) {q : QueueId} {u : TaskRef}
    (hu : u ≠ t) (hx : u ∉ xs q) : (s.taskEnqueue q t).next u = s.next u :=
  (h.represents q).enqueue_next hu hx

theorem taskDequeue_links {d : Sched} {q : QueueId} (hd : s.taskDequeue q = (some t,d))
    (h : Family s.next s.queues xs) {ts : List TaskRef} (hx : xs q = t :: ts) {u : TaskRef}
    (hu : u ≠ t) : d.next u = s.next u := by
  have hnext := (hx ▸ h.represents q).dequeue_next
  have hd2 : (s.taskDequeue q).2 = d := congrArg Prod.snd hd
  have hd' : d.next = (dequeue s.next (s.queues q)).2.1 := by rw [← hd2]; rfl
  rw [hd',hnext,Function.update_of_ne hu]

/-- Where the tasks of sleep_q are when the loop of sched_check_tasks has gone through
`seen`, and `rest` is left. -/
def checkLists (xs : QueueId → List TaskRef) (p : TaskRef → Bool) (seen rest : List TaskRef) :
    QueueId → List TaskRef
  | .readyQ => xs .readyQ ++ seen.filter p
  | .zombieQ => xs .zombieQ
  | .sleepQ => rest
  | .onStack => seen.filter fun t => !p t

/-- Of a task in `seen` that is due the state changes, and of no task anything else; links
change where the lists are. -/
structure Checked (s₀ : Sched) (now : BitVec 64) (xs : QueueId → List TaskRef)
    (seen : List TaskRef) (s : Sched) : Prop where
  tasks : ∀ t, s.tasks t = if t ∈ seen ∧ s₀.due now t then { s₀.tasks t with state := .ready }
    else s₀.tasks t
  links : ∀ t, t ∉ xs .readyQ → t ∉ xs .sleepQ → s.next t = s₀.next t
  rest : s = { s₀ with tasks := s.tasks, next := s.next, queues := s.queues }

structure CheckLoop (s₀ : Sched) (now : BitVec 64) (xs : QueueId → List TaskRef)
    (rest : List TaskRef) (s : Sched) : Prop where
  nodup : (xs .sleepQ).Nodup
  checked : ∃ seen, xs .sleepQ = seen ++ rest ∧ Checked s₀ now xs seen s ∧
    Family s.next s.queues (checkLists xs (s₀.due now) seen rest)

theorem checkLoop_nil {s₀ : Sched} {now : BitVec 64} (h : CheckLoop s₀ now xs [] s) :
    s.checkOne now = none := by
  obtain ⟨_,seen,_,_,hq⟩ := h
  simp only [Sched.checkOne,taskDequeue_nil (q := .sleepQ) hq rfl]

theorem checkLists_woken {p : TaskRef → Bool} {seen ts : List TaskRef} (hp : p t = true) :
    Function.update (Function.update (checkLists xs p seen (t :: ts)) .sleepQ ts) .readyQ
      (Function.update (checkLists xs p seen (t :: ts)) .sleepQ ts .readyQ ++ [t]) =
    checkLists xs p (seen ++ [t]) ts := by
  funext q
  cases q <;> simp [checkLists,hp]

theorem checkLists_kept {p : TaskRef → Bool} {seen ts : List TaskRef} (hp : p t = false) :
    Function.update (Function.update (checkLists xs p seen (t :: ts)) .sleepQ ts) .onStack
      (Function.update (checkLists xs p seen (t :: ts)) .sleepQ ts .onStack ++ [t]) =
    checkLists xs p (seen ++ [t]) ts := by
  funext q
  cases q <;> simp [checkLists,hp]

theorem Checked.wake {s₀ : Sched} {now : BitVec 64} {seen : List TaskRef}
    (h : Checked s₀ now xs seen s) (hdue : s₀.due now t = true) :
    Checked s₀ now xs (seen ++ [t]) (s.setState t .ready) := by
  refine ⟨fun u => ?_,h.links,?_⟩
  · change Function.update s.tasks t { s.tasks t with state := .ready } u = _
    by_cases hu : u = t
    · subst hu
      rw [Function.update_self,h.tasks u,if_pos (c := u ∈ seen ++ [u] ∧ _) ⟨by simp,hdue⟩]
      split <;> rfl
    · rw [Function.update_of_ne hu,h.tasks u]
      simp [hu]
  · rw [h.rest]
    rfl

theorem Checked.keep {s₀ : Sched} {now : BitVec 64} {seen : List TaskRef}
    (h : Checked s₀ now xs seen s) (hdue : s₀.due now t = false) :
    Checked s₀ now xs (seen ++ [t]) s := by
  refine ⟨fun u => ?_,h.links,h.rest⟩
  rw [h.tasks u]
  refine if_congr ?_ rfl rfl
  rw [List.mem_append,List.mem_singleton]
  constructor
  · exact fun hu => ⟨.inl hu.1,hu.2⟩
  · rintro ⟨hu | rfl,hd⟩
    · exact ⟨hu,hd⟩
    · exact absurd (hdue.symm.trans hd) (by decide)

theorem Checked.move {s₀ d : Sched} {now : BitVec 64} {seen : List TaskRef}
    (h : Checked s₀ now xs seen s) (htasks : d.tasks = s.tasks)
    (hlinks : ∀ u, u ∉ xs .readyQ → u ∉ xs .sleepQ → d.next u = s.next u)
    (hrest : d = { s with next := d.next, queues := d.queues }) : Checked s₀ now xs seen d := by
  refine ⟨by rw [htasks]; exact h.tasks,fun u hr hs => (hlinks u hr hs).trans (h.links u hr hs),?_⟩
  rw [hrest,h.rest]

theorem checkLoop_cons {s₀ : Sched} {now : BitVec 64} {ts : List TaskRef}
    (h : CheckLoop s₀ now xs (t :: ts) s) :
    ∃ s', s.checkOne now = some s' ∧ CheckLoop s₀ now xs ts s' := by
  obtain ⟨hnodup,seen,hseen,hchecked,hq⟩ := h
  obtain ⟨d,hd,htasks,_,hq',hn⟩ := taskDequeue_cons (q := .sleepQ) hq rfl
  have hd2 : (s.taskDequeue .sleepQ).2 = d := congrArg Prod.snd hd
  obtain ⟨hts,hseen',hout⟩ := split_here hnodup hseen
  have hd' : Checked s₀ now xs seen d := hchecked.move htasks
    (fun u _ hs => taskDequeue_links (q := .sleepQ) hd hq rfl (hout u hs).1) (by rw [← hd2]; rfl)
  have hk : d.tasks t = s₀.tasks t := by rw [hd'.tasks t,if_neg fun hm => hts hm.1]
  simp only [Sched.checkOne,hd]
  cases hdue : s₀.due now t with
  | true =>
    have hwake : (d.tasks t).wakeTick ≤ now := by
      rw [hk]
      exact of_decide_eq_true hdue
    rw [if_pos hwake]
    have hf := hq'.enqueue .readyQ hn
    rw [checkLists_woken hdue] at hf
    refine ⟨_,rfl,hnodup,_,hseen',(hd'.wake hdue).move rfl (fun u hr hs => ?_) rfl,hf⟩
    refine taskEnqueue_links (s := d.setState t .ready) hq' (hout u hs).1 ?_
    simp [checkLists,hr,(hout u hs).2]
  | false =>
    have hwake : ¬ (d.tasks t).wakeTick ≤ now := by
      rw [hk]
      exact of_decide_eq_false hdue
    rw [if_neg hwake]
    have hf := hq'.enqueue .onStack hn
    rw [checkLists_kept hdue] at hf
    refine ⟨_,rfl,hnodup,_,hseen',(hd'.keep hdue).move rfl (fun u _ hs => ?_) rfl,hf⟩
    refine taskEnqueue_links hq' (hout u hs).1 ?_
    simp [checkLists,(hout u hs).2]

def wokenLists (xs : QueueId → List TaskRef) (p : TaskRef → Bool) : QueueId → List TaskRef
  | .readyQ => xs .readyQ ++ (xs .sleepQ).filter p
  | .zombieQ => xs .zombieQ
  | .sleepQ => (xs .sleepQ).filter fun t => !p t
  | .onStack => []

theorem checkLoop_start (h : Family s.next s.queues xs) (hl : xs .onStack = [])
    (now : BitVec 64) : CheckLoop s now xs (xs .sleepQ) s := by
  refine ⟨(h.represents .sleepQ).nodup,[],rfl,⟨by simp,fun _ _ _ => rfl,rfl⟩,?_⟩
  have hstart : checkLists xs (s.due now) [] (xs .sleepQ) = xs := by
    funext q
    cases q <;> simp [checkLists,hl]
  rwa [hstart]

/-- sched_check_tasks takes each task of sleep_q that is due to the end of ready_q, in order. -/
theorem schedCheckTasks_exact (h : Family s.next s.queues xs) (hl : xs .onStack = [])
    (now : BitVec 64) :
    ∃ s', s.schedCheckTasks now = some s' ∧ Checked s now xs (xs .sleepQ) s' ∧
      Family s'.next s'.queues (wokenLists xs (s.due now)) := by
  obtain ⟨s',hs,_,seen,hseen,hc,hq⟩ := Runs.whileSome_list (fun _ => checkLoop_nil)
    (fun _ _ _ => checkLoop_cons) (checkLoop_start h hl now) (length_lt_loopBound h .sleepQ)
  rw [List.append_nil] at hseen
  subst hseen
  have hm := hq.move (by decide : QueueId.sleepQ ≠ .onStack)
  refine ⟨s'.assignLocal .sleepQ,by simp [Sched.schedCheckTasks,hs],
    hc.move rfl (fun _ _ _ => rfl) rfl,?_⟩
  have hlists : Function.update (Function.update (checkLists xs (s.due now) (xs .sleepQ) [])
      .sleepQ (checkLists xs (s.due now) (xs .sleepQ) [] .onStack)) .onStack [] =
      wokenLists xs (s.due now) := by
    funext q
    cases q <;> simp [checkLists,wokenLists]
  rwa [hlists] at hm

structure Swept (s₀ s : Sched) (zs : List TaskRef) : Prop where
  current : s.current = s₀.current
  tasks : ∀ u, s.tasks u = if u ∈ zs ∧ s₀.released u then .zero else s₀.tasks u
  frees : s.io.filterMap freed = ((zs.filter s₀.released).reverse.map fun z =>
    ((s₀.tasks z).stackBase,3)) ++ s₀.io.filterMap freed

/-- Where the tasks of zombie_q are when the loop of reaper_service has gone through `seen`,
and `rest` is left. -/
def sweepLists (xs : QueueId → List TaskRef) (p : TaskRef → Bool) (seen rest : List TaskRef) :
    QueueId → List TaskRef
  | .readyQ => xs .readyQ
  | .zombieQ => rest
  | .sleepQ => xs .sleepQ
  | .onStack => seen.filter fun t => !p t

/-- Outside of zombie_q the reaper changes nothing. -/
structure SweptOnly (s₀ : Sched) (xs : QueueId → List TaskRef) (seen : List TaskRef) (s : Sched) :
    Prop where
  swept : Swept s₀ s seen
  links : ∀ t, t ∉ xs .zombieQ → s.next t = s₀.next t
  cleared : ∀ t ∈ seen, s₀.released t = true → s.next t = none
  rest : s = { s₀ with tasks := s.tasks, next := s.next, queues := s.queues, io := s.io }

structure Sweeping (s₀ : Sched) (xs : QueueId → List TaskRef) (rest : List TaskRef) (s : Sched) :
    Prop where
  nodup : (xs .zombieQ).Nodup
  swept : ∃ seen, xs .zombieQ = seen ++ rest ∧ SweptOnly s₀ xs seen s ∧
    Family s.next s.queues (sweepLists xs s₀.released seen rest)

theorem sweeping_nil {s₀ : Sched} (h : Sweeping s₀ xs [] s) : s.reapOne = none := by
  obtain ⟨_,_,_,_,hq⟩ := h
  simp only [Sched.reapOne,taskDequeue_nil (q := .zombieQ) hq rfl]

theorem sweepLists_freed {p : TaskRef → Bool} {seen ts : List TaskRef} (hp : p t = true) :
    Function.update (sweepLists xs p seen (t :: ts)) .zombieQ ts =
      sweepLists xs p (seen ++ [t]) ts := by
  funext q
  cases q <;> simp [sweepLists,hp]

theorem sweepLists_kept {p : TaskRef → Bool} {seen ts : List TaskRef} (hp : p t = false) :
    Function.update (Function.update (sweepLists xs p seen (t :: ts)) .zombieQ ts) .onStack
      (Function.update (sweepLists xs p seen (t :: ts)) .zombieQ ts .onStack ++ [t]) =
    sweepLists xs p (seen ++ [t]) ts := by
  funext q
  cases q <;> simp [sweepLists,hp]

theorem Swept.free {s₀ : Sched} {seen : List TaskRef} (h : Swept s₀ s seen) (ht : t ∉ seen)
    (hr : s₀.released t) : Swept s₀ (s.freeZombie t) (seen ++ [t]) := by
  have hk : s.tasks t = s₀.tasks t := by rw [h.tasks t,if_neg fun hm => ht hm.1]
  refine ⟨h.current,fun u => ?_,?_⟩
  · by_cases hu : u = t
    · subst hu
      simp [Sched.freeZombie,Sched.setTask,hr]
    · simp [Sched.freeZombie,Sched.setTask,Sched.emit,hu,h.tasks u]
  · change ((s.tasks t).stackBase,3) :: s.io.filterMap freed = _
    rw [h.frees,hk]
    simp [hr]

theorem Swept.keep {s₀ : Sched} {seen : List TaskRef} (h : Swept s₀ s seen)
    (hr : s₀.released t = false) : Swept s₀ (s.taskEnqueue .onStack t) (seen ++ [t]) := by
  refine ⟨h.current,fun u => ?_,?_⟩
  · by_cases hu : u = t
    · subst hu
      simp [Sched.taskEnqueue,h.tasks u,hr]
    · simp [Sched.taskEnqueue,h.tasks u,hu]
  · change s.io.filterMap freed = _
    rw [h.frees]
    simp [hr]

theorem sweeping_cons {s₀ : Sched} {ts : List TaskRef} (h : Sweeping s₀ xs (t :: ts) s) :
    ∃ s', s.reapOne = some s' ∧ Sweeping s₀ xs ts s' := by
  obtain ⟨hnodup,seen,hseen,⟨hswept,hlinks,hcleared,hrest⟩,hq⟩ := h
  obtain ⟨d,hd,htasks,hcur,hq',hn⟩ := taskDequeue_cons (q := .zombieQ) hq rfl
  have hd2 : (s.taskDequeue .zombieQ).2 = d := congrArg Prod.snd hd
  have hio : s.io = d.io := by rw [← hd2]; rfl
  obtain ⟨hts,hseen',hout⟩ := split_here hnodup hseen
  have hswept' : Swept s₀ d seen :=
    ⟨hcur.trans hswept.current,by rw [htasks]; exact hswept.tasks,hio ▸ hswept.frees⟩
  have hlinks' : ∀ u, u ∉ xs .zombieQ → d.next u = s₀.next u := fun u hu =>
    (taskDequeue_links (q := .zombieQ) hd hq rfl (hout u hu).1).trans (hlinks u hu)
  have hne : ∀ u ∈ seen, u ≠ t := fun u hu hut => hts (hut ▸ hu)
  have hcleared' : ∀ u ∈ seen, s₀.released u = true → d.next u = none := fun u hu hr =>
    (taskDequeue_links (q := .zombieQ) hd hq rfl (hne u hu)).trans (hcleared u hu hr)
  have hrest' : d =
      { s₀ with tasks := d.tasks, next := d.next, queues := d.queues, io := d.io } := by
    rw [← hd2,hrest]
    rfl
  have hk : d.tasks t = s₀.tasks t := by rw [hswept'.tasks t,if_neg fun hm => hts hm.1]
  simp only [Sched.reapOne,hd]
  cases hr : s₀.released t with
  | true =>
    have hid : (d.tasks t).coreId = 0xFF := by
      rw [hk]
      exact of_decide_eq_true hr
    rw [if_pos hid]
    have hf := hq'.update_next hn none
    rw [sweepLists_freed hr] at hf
    refine ⟨_,rfl,hnodup,_,hseen',⟨hswept'.free hts hr,fun u hu => ?_,fun u hu hru => ?_,?_⟩,hf⟩
    · exact (Function.update_of_ne (hout u hu).1 _ _).trans (hlinks' u hu)
    · rcases List.mem_append.mp hu with hu | hu
      · exact (Function.update_of_ne (hne u hu) _ _).trans (hcleared' u hu hru)
      · rw [List.mem_singleton.mp hu]
        exact Function.update_self _ _ _
    · rw [hrest']
      rfl
  | false =>
    have hid : ¬ (d.tasks t).coreId = 0xFF := by
      rw [hk]
      exact of_decide_eq_false hr
    rw [if_neg hid]
    have hf := hq'.enqueue .onStack hn
    rw [sweepLists_kept hr] at hf
    refine ⟨_,rfl,hnodup,_,hseen',⟨hswept'.keep hr,fun u hu => ?_,fun u hu hru => ?_,?_⟩,hf⟩
    · refine (taskEnqueue_links hq' (hout u hu).1 ?_).trans (hlinks' u hu)
      simp [sweepLists,(hout u hu).2]
    · rcases List.mem_append.mp hu with hu | hu
      · refine (taskEnqueue_links hq' (hne u hu) ?_).trans (hcleared' u hu hru)
        simp [sweepLists,hru]
      · rw [List.mem_singleton.mp hu,hr] at hru
        cases hru
    · rw [hrest']
      rfl

def sweptLists (xs : QueueId → List TaskRef) (p : TaskRef → Bool) : QueueId → List TaskRef
  | .readyQ => xs .readyQ
  | .zombieQ => (xs .zombieQ).filter fun t => !p t
  | .sleepQ => xs .sleepQ
  | .onStack => []

/-- reaper_service frees each task of zombie_q that no core has, and keeps the others in order. -/
theorem reaperService_exact (h : Family s.next s.queues xs) (hl : xs .onStack = []) :
    ∃ s', s.reaperService = some s' ∧ SweptOnly s xs (xs .zombieQ) s' ∧
      Family s'.next s'.queues (sweptLists xs s.released) := by
  have hstart : sweepLists xs s.released [] (xs .zombieQ) = xs := by
    funext q
    cases q <;> simp [sweepLists,hl]
  have hI : Sweeping s xs (xs .zombieQ) s := by
    refine ⟨(h.represents .zombieQ).nodup,[],rfl,⟨⟨rfl,by simp,by simp⟩,fun _ _ => rfl,
      fun t ht => absurd ht List.not_mem_nil,rfl⟩,?_⟩
    rwa [hstart]
  obtain ⟨s',hs,_,seen,hseen,⟨hswept,hlinks,hcleared,hrest⟩,hq⟩ := Runs.whileSome_list
    (fun _ => sweeping_nil) (fun _ _ _ => sweeping_cons) hI (length_lt_loopBound h .zombieQ)
  rw [List.append_nil] at hseen
  subst hseen
  have hm := hq.move (by decide : QueueId.zombieQ ≠ .onStack)
  refine ⟨s'.assignLocal .zombieQ,by simp [Sched.reaperService,hs],
    ⟨⟨hswept.current,hswept.tasks,hswept.frees⟩,hlinks,hcleared,?_⟩,?_⟩
  · rw [hrest]
    rfl
  have hlists : Function.update (Function.update (sweepLists xs s.released (xs .zombieQ) [])
      .zombieQ (sweepLists xs s.released (xs .zombieQ) [] .onStack)) .onStack [] =
      sweptLists xs s.released := by
    funext q
    cases q <;> simp [sweepLists,sweptLists]
  rwa [hlists] at hm

/-- sched_check_tasks as its callers see it, on the lists `rs` of ready_q and `ss` of sleep_q. -/
structure Woken (s : Sched) (now : BitVec 64) (rs ss : List TaskRef) (s' : Sched) : Prop where
  ready : Represents s'.next (s'.queues .readyQ) (rs ++ ss.filter (s.due now))
  sleep : Represents s'.next (s'.queues .sleepQ) (ss.filter fun t => !s.due now t)
  apart : ∀ t ∈ rs ++ ss.filter (s.due now), t ∉ ss.filter fun t => !s.due now t
  tasks : ∀ t, s'.tasks t =
    if t ∈ ss ∧ s.due now t then { s.tasks t with state := .ready } else s.tasks t
  links : ∀ t, t ∉ rs → t ∉ ss → s'.next t = s.next t
  queues : ∀ q, q ≠ .readyQ → q ≠ .sleepQ → s'.queues q = s.queues q
  rest : s' = { s with tasks := s'.tasks, next := s'.next, queues := s'.queues }

/-- reaper_service as its callers see it, on the list `zs` of zombie_q. -/
structure Cleaned (s : Sched) (zs : List TaskRef) (s' : Sched) : Prop where
  zombies : Represents s'.next (s'.queues .zombieQ) (zs.filter fun t => !s.released t)
  swept : Swept s s' zs
  links : ∀ t, t ∉ zs → s'.next t = s.next t
  cleared : ∀ t ∈ zs, s.released t = true → s'.next t = none
  queues : ∀ q, q ≠ .zombieQ → s'.queues q = s.queues q
  rest : s' = { s with tasks := s'.tasks, next := s'.next, queues := s'.queues, io := s'.io }

def readySleep (ready sleep : List TaskRef) : QueueId → List TaskRef
  | .readyQ => ready
  | .sleepQ => sleep
  | .zombieQ | .onStack => []

theorem readySleep_family {ready sleep : List TaskRef} (hl : s.queues .onStack = .empty)
    (hr : Represents s.next (s.queues .readyQ) ready)
    (hs : Represents s.next (s.queues .sleepQ) sleep) (hd : ∀ t ∈ ready, t ∉ sleep) :
    Family s.next (s.withQueue .zombieQ .empty).queues (readySleep ready sleep) where
  represents q := by
    cases q with
    | readyQ => exact hr
    | zombieQ => exact represents_empty
    | sleepQ => exact hs
    | onStack =>
      rw [Sched.queues_withQueue (by decide),hl]
      exact represents_empty
  apart p q t hp hq := by
    cases p <;> cases q <;> simp only [readySleep,List.not_mem_nil] at hp hq
    case readyQ.readyQ | sleepQ.sleepQ => rfl
    case readyQ.sleepQ => exact absurd hq (hd t hp)
    case sleepQ.readyQ => exact absurd hp (hd t hq)

theorem schedCheckTasks_woken {ready sleep : List TaskRef} (hl : s.queues .onStack = .empty)
    (hr : Represents s.next (s.queues .readyQ) ready)
    (hs : Represents s.next (s.queues .sleepQ) sleep) (hd : ∀ t ∈ ready, t ∉ sleep)
    (now : BitVec 64) :
    ∃ s', s.schedCheckTasks now = some s' ∧ Woken s now ready sleep s' := by
  have hf : Family (s.withQueue .zombieQ .empty).next (s.withQueue .zombieQ .empty).queues
      (readySleep ready sleep) := readySleep_family hl hr hs hd
  obtain ⟨d,hd',⟨htasks,hlinks,hrest⟩,hq⟩ := schedCheckTasks_exact hf rfl now
  have hcheck : s.schedCheckTasks now = some (d.withQueue .zombieQ (s.queues .zombieQ)) := by
    have h := Sched.schedCheckTasks_withQueue now (s.queues .zombieQ) (s.withQueue .zombieQ .empty)
    rwa [Sched.withQueue_withQueue,Sched.withQueue_self,hd'] at h
  refine ⟨_,hcheck,hq.represents .readyQ,hq.represents .sleepQ,fun t ht hn => ?_,htasks,hlinks,
    fun q hqr hqs => ?_,?_⟩
  · exact absurd (hq.apart .readyQ .sleepQ t ht hn) (by decide)
  · cases q with
    | readyQ => exact absurd rfl hqr
    | sleepQ => exact absurd rfl hqs
    | zombieQ => exact d.queues_withQueue_self .zombieQ _
    | onStack => exact (hq.represents .onStack).eq_empty.trans hl.symm
  · rw [hrest]
    rfl

def zombiesOnly (zombies : List TaskRef) : QueueId → List TaskRef
  | .zombieQ => zombies
  | .readyQ | .sleepQ | .onStack => []

theorem zombiesOnly_family {zombies : List TaskRef} (hl : s.queues .onStack = .empty)
    (hz : Represents s.next (s.queues .zombieQ) zombies) :
    Family s.next ((s.withQueue .readyQ .empty).withQueue .sleepQ .empty).queues
      (zombiesOnly zombies) where
  represents q := by
    cases q with
    | readyQ => exact represents_empty
    | zombieQ => exact hz
    | sleepQ => exact represents_empty
    | onStack =>
      rw [Sched.queues_withQueue (by decide),Sched.queues_withQueue (by decide),hl]
      exact represents_empty
  apart p q t hp hq := by
    cases p <;> cases q <;> simp only [zombiesOnly,List.not_mem_nil] at hp hq
    rfl

theorem reaperService_cleaned {zombies : List TaskRef} (hl : s.queues .onStack = .empty)
    (hz : Represents s.next (s.queues .zombieQ) zombies) :
    ∃ s', s.reaperService = some s' ∧ Cleaned s zombies s' := by
  have hf : Family ((s.withQueue .readyQ .empty).withQueue .sleepQ .empty).next
      ((s.withQueue .readyQ .empty).withQueue .sleepQ .empty).queues (zombiesOnly zombies) :=
    zombiesOnly_family hl hz
  obtain ⟨d,hd,⟨hswept,hlinks,hcleared,hrest⟩,hq⟩ := reaperService_exact hf rfl
  have hreap : s.reaperService = some ((d.withQueue .sleepQ (s.queues .sleepQ)).withQueue .readyQ
      (s.queues .readyQ)) := by
    have h := Sched.reaperService_withQueue (q := .sleepQ) (by decide) (by decide)
      (s.queues .sleepQ) ((s.withQueue .readyQ .empty).withQueue .sleepQ .empty)
    have hself := (s.withQueue .readyQ .empty).withQueue_self .sleepQ
    rw [Sched.queues_withQueue (by decide)] at hself
    rw [Sched.withQueue_withQueue,hself,hd,Option.map_some] at h
    have h' := Sched.reaperService_withQueue (q := .readyQ) (by decide) (by decide)
      (s.queues .readyQ) (s.withQueue .readyQ .empty)
    rwa [Sched.withQueue_withQueue,Sched.withQueue_self,h] at h'
  refine ⟨_,hreap,hq.represents .zombieQ,⟨hswept.current,hswept.tasks,hswept.frees⟩,hlinks,
    hcleared,fun q hqz => ?_,?_⟩
  · cases q with
    | readyQ => exact Sched.queues_withQueue_self ..
    | sleepQ =>
      rw [Sched.queues_withQueue (by decide)]
      exact d.queues_withQueue_self .sleepQ _
    | zombieQ => exact absurd rfl hqz
    | onStack => exact (hq.represents .onStack).eq_empty.trans hl.symm
  · rw [hrest]
    rfl

/-- Whatever is in their lists, and in the other queues, sched_check_tasks and reaper_service
end, and divide their list in two, in its order. -/
theorem queues_divided (s : Sched) (hl : s.queues .onStack = .empty) :
    (∀ now ready sleep, Represents s.next (s.queues .readyQ) ready →
      Represents s.next (s.queues .sleepQ) sleep → (∀ t ∈ ready, t ∉ sleep) →
      ∃ s', s.schedCheckTasks now = some s' ∧ Woken s now ready sleep s') ∧
    ∀ zombies, Represents s.next (s.queues .zombieQ) zombies →
      ∃ s', s.reaperService = some s' ∧ Cleaned s zombies s' :=
  ⟨fun now _ _ hr hs hd => schedCheckTasks_woken hl hr hs hd now,
    fun _ hz => reaperService_cleaned hl hz⟩

/-- Task 1 is ready, 2 to 4 sleep until 20 to 40; 5 and 6 are zombies, and core 1 is still on
the way from 6. -/
def dividedSched : Sched :=
  let tasks : TaskRef → Task
    | .pool i => { Task.zero with
        wakeTick := BitVec.ofNat 64 (10 * i.val)
        coreId := if i.val = 6 then 1 else 0xFF }
    | .idle _ => .zero
  let s : Sched := ⟨tasks,fun _ => none,fun _ => .empty,6,fun _ => none,[]⟩
  let s := s.taskEnqueue .readyQ (.pool 1)
  let s := ((s.taskEnqueue .sleepQ (.pool 3)).taskEnqueue .sleepQ (.pool 4)).taskEnqueue .sleepQ
    (.pool 2)
  (s.taskEnqueue .zombieQ (.pool 5)).taskEnqueue .zombieQ (.pool 6)

theorem queues_divided_at_30 :
    (∃ s', dividedSched.schedCheckTasks 30 = some s' ∧
      Woken dividedSched 30 [.pool 1] [.pool 3,.pool 4,.pool 2] s') ∧
    (∃ s', dividedSched.reaperService = some s' ∧
      Cleaned dividedSched [.pool 5,.pool 6] s') ∧
    [TaskRef.pool 3,.pool 4,.pool 2].filter (dividedSched.due 30) = [.pool 3,.pool 2] ∧
    [TaskRef.pool 5,.pool 6].filter dividedSched.released = [.pool 5] := by
  have h := queues_divided dividedSched rfl
  have hready : Represents dividedSched.next (dividedSched.queues .readyQ) [.pool 1] :=
    ⟨⟨rfl,rfl⟩,rfl,by decide⟩
  have hsleep : Represents dividedSched.next (dividedSched.queues .sleepQ)
      [.pool 3,.pool 4,.pool 2] := ⟨⟨rfl,rfl,rfl,rfl⟩,rfl,by decide⟩
  have hzombies : Represents dividedSched.next (dividedSched.queues .zombieQ)
      [.pool 5,.pool 6] := ⟨⟨rfl,rfl,rfl⟩,rfl,by decide⟩
  exact ⟨h.1 30 _ _ hready hsleep (by decide),h.2 _ hzombies,by decide,by decide⟩

end Arm64

import Arm64Baremetal.KernelSched

/-!
Which queue a task is in, as a function of its state and of the tasks that cores
are running. The steps of the scheduler move one task at a time, so there is one
lemma per kind of move, about states and sets of tasks only.
-/

set_option autoImplicit false

namespace Arm64
open IntrusiveQueue

def Current (cur : SchedCore → Option TaskRef) (t : TaskRef) : Prop := ∃ d, cur d = some t

/-- `ready`, `sleeping` and `zombie` hold the tasks they should, given the state of
every task and who is current where. -/
structure Filed (state : TaskRef → TaskState) (cur : SchedCore → Option TaskRef)
    (ready sleeping zombie : TaskRef → Prop) : Prop where
  ready : ∀ t, ready t ↔ state t = .ready
  sleeping : ∀ t, sleeping t ↔ state t = .sleeping
  zombie : ∀ t, zombie t ↔ state t = .zombie ∧ ¬ Current cur t
  running : ∀ i, state (.pool i) = .running → Current cur (.pool i)
  idle : ∀ d, state (.idle d) = .running ∨ state (.idle d) = .empty
  ownIdle : ∀ d e, cur d = some (.idle e) → e = d
  inj : ∀ d e t, cur d = some t → cur e = some t → d = e

namespace Filed

variable {state : TaskRef → TaskState} {cur : SchedCore → Option TaskRef}
  {r s z : TaskRef → Prop} {c : SchedCore} {t : TaskRef}

theorem congr {r' s' z' : TaskRef → Prop} (h : Filed state cur r s z) (hr : ∀ u, r' u ↔ r u)
    (hs : ∀ u, s' u ↔ s u) (hz : ∀ u, z' u ↔ z u) : Filed state cur r' s' z' := by
  obtain rfl : r' = r := funext fun u => propext (hr u)
  obtain rfl : s' = s := funext fun u => propext (hs u)
  obtain rfl : z' = z := funext fun u => propext (hz u)
  exact h

theorem create (h : Filed state cur r s z) {i : Fin maxTasks} (ht : state (.pool i) = .empty) :
    Filed (Function.update state (.pool i) .ready) cur (fun u => r u ∨ u = .pool i) s z := by
  obtain ⟨hr,hs,hz,hrun,hidle,hown,hinj⟩ := h
  constructor <;> grind [Function.update_apply]

theorem exit (h : Filed state cur r s z) (hc : Current cur t) (ht : state t = .running)
    (hp : ∀ d, t ≠ .idle d) : Filed (Function.update state t .zombie) cur r s z := by
  obtain ⟨hr,hs,hz,hrun,hidle,hown,hinj⟩ := h
  constructor <;> grind [Function.update_apply]

theorem sleep (h : Filed state cur r s z) (ht : state t = .running) (hp : ∀ d, t ≠ .idle d) :
    Filed (Function.update state t .sleeping) cur r (fun u => s u ∨ u = t) z := by
  obtain ⟨hr,hs,hz,hrun,hidle,hown,hinj⟩ := h
  constructor <;> grind [Function.update_apply]

theorem wake (h : Filed state cur r s z) (ht : s t) :
    Filed (Function.update state t .ready) cur (fun u => r u ∨ u = t) (fun u => s u ∧ u ≠ t) z := by
  obtain ⟨hr,hs,hz,hrun,hidle,hown,hinj⟩ := h
  constructor <;> grind [Function.update_apply]

theorem reap (h : Filed state cur r s z) (ht : z t) :
    Filed (Function.update state t .empty) cur r s (fun u => z u ∧ u ≠ t) := by
  obtain ⟨hr,hs,hz,hrun,hidle,hown,hinj⟩ := h
  constructor <;> grind [Function.update_apply]

theorem current_away (h : Filed state cur r s z) (hc : cur c = some t) (u : TaskRef) :
    Current (Function.update cur c none) u ↔ Current cur u ∧ u ≠ t := by
  constructor
  · rintro ⟨d,hd⟩
    have hdc : d ≠ c := by
      rintro rfl
      simp at hd
    rw [Function.update_of_ne hdc] at hd
    refine ⟨⟨d,hd⟩,?_⟩
    rintro rfl
    exact hdc (h.inj d c u hd hc)
  · rintro ⟨⟨d,hd⟩,hu⟩
    have hdc : d ≠ c := by
      rintro rfl
      exact hu (Option.some.inj (hd.symm.trans hc))
    exact ⟨d,by rw [Function.update_of_ne hdc,hd]⟩

theorem current_pick (hc : cur c = none) (u : TaskRef) :
    Current (Function.update cur c (some t)) u ↔ Current cur u ∨ u = t := by
  constructor
  · rintro ⟨d,hd⟩
    by_cases hdc : d = c
    · subst hdc
      rw [Function.update_self] at hd
      exact .inr (Option.some.inj hd).symm
    · rw [Function.update_of_ne hdc] at hd
      exact .inl ⟨d,hd⟩
  · rintro (⟨d,hd⟩ | rfl)
    · have hdc : d ≠ c := by
        rintro rfl
        simp [hc] at hd
      exact ⟨d,by rw [Function.update_of_ne hdc,hd]⟩
    · exact ⟨c,Function.update_self ..⟩

theorem away_zombie (h : Filed state cur r s z) (hc : cur c = some t) (ht : state t = .zombie) :
    Filed state (Function.update cur c none) r s (fun u => z u ∨ u = t) := by
  have he := h.current_away hc
  obtain ⟨hr,hs,hz,hrun,hidle,hown,hinj⟩ := h
  constructor <;> grind [Function.update_apply]

theorem away_running (h : Filed state cur r s z) (hc : cur c = some t) (ht : state t = .running)
    (hp : ∀ d, t ≠ .idle d) :
    Filed (Function.update state t .ready) (Function.update cur c none) (fun u => r u ∨ u = t)
      s z := by
  have he := h.current_away hc
  obtain ⟨hr,hs,hz,hrun,hidle,hown,hinj⟩ := h
  constructor <;> grind [Function.update_apply]

theorem away_other (h : Filed state cur r s z) (hc : cur c = some t) (hzt : state t ≠ .zombie)
    (hp : state t ≠ .running ∨ ∃ d, t = .idle d) :
    Filed state (Function.update cur c none) r s z := by
  have he := h.current_away hc
  obtain ⟨hr,hs,hz,hrun,hidle,hown,hinj⟩ := h
  constructor <;> grind [Function.update_apply]

theorem pick (h : Filed state cur r s z) (hc : cur c = none) (ht : r t) (ho : ¬ Current cur t) :
    Filed (Function.update state t .running) (Function.update cur c (some t))
      (fun u => r u ∧ u ≠ t) s z := by
  have he := fun u => current_pick (t := t) hc u
  have hno : ∀ d, cur d ≠ some t := fun d hd => ho ⟨d,hd⟩
  obtain ⟨hr,hs,hz,hrun,hidle,hown,hinj⟩ := h
  constructor <;> grind [Function.update_apply]

theorem pick_idle (h : Filed state cur r s z) (hc : cur c = none) :
    Filed (Function.update state (.idle c) .running) (Function.update cur c (some (.idle c)))
      r s z := by
  have he := fun u => current_pick (t := .idle c) hc u
  obtain ⟨hr,hs,hz,hrun,hidle,hown,hinj⟩ := h
  constructor <;> grind [Function.update_apply]

end Filed

/-- Every queue is the list in `xs`, and each list holds the tasks it should. -/
structure SchedInv (s : Sched) (cur : SchedCore → Option TaskRef) (xs : QueueId → List TaskRef) :
    Prop where
  queues : Family s.next s.queues xs
  filed : Filed s.state cur (· ∈ xs .readyQ) (· ∈ xs .sleepQ) (· ∈ xs .zombieQ)
  onStack : xs .onStack = []

variable {s : Sched} {cur : SchedCore → Option TaskRef} {xs : QueueId → List TaskRef}
  {c : SchedCore} {t : TaskRef}

theorem SchedInv.not_mem (h : SchedInv s cur xs) (hr : s.state t ≠ .ready)
    (hs : s.state t ≠ .sleeping) (hz : s.state t = .zombie → Current cur t) (q : QueueId) :
    t ∉ xs q := by
  cases q with
  | readyQ => rwa [h.filed.ready]
  | sleepQ => rwa [h.filed.sleeping]
  | zombieQ =>
    rw [h.filed.zombie]
    exact fun hn => hn.2 (hz hn.1)
  | onStack => simp [h.onStack]

theorem SchedInv.enqueue (h : SchedInv s cur xs) {cur' : SchedCore → Option TaskRef} {q : QueueId}
    {k : Task} (hn : ∀ j, t ∉ xs j) (hq : q ≠ .onStack)
    (hf : Filed (Function.update s.state t k.state) cur'
      (fun u => u ∈ xs .readyQ ∨ q = .readyQ ∧ u = t)
      (fun u => u ∈ xs .sleepQ ∨ q = .sleepQ ∧ u = t)
      (fun u => u ∈ xs .zombieQ ∨ q = .zombieQ ∧ u = t)) :
    SchedInv ((s.setTask t k).taskEnqueue q t) cur' (Function.update xs q (xs q ++ [t])) where
  queues := h.queues.enqueue q hn
  filed := by
    rw [← Sched.state_setTask] at hf
    refine hf.congr (fun u => ?_) (fun u => ?_) (fun u => ?_) <;> cases q <;> simp
  onStack := by rw [Function.update_of_ne hq.symm,h.onStack]

theorem createTask_eq {i : Fin maxTasks} (hi : s.emptySlot = some i)
    (entry exit stack : BitVec 64) :
    ∃ io, s.createTask entry exit stack =
      { (s.setTask (.pool i) (s.newTask stack (.pool i))).taskEnqueue .readyQ (.pool i) with
        nextTaskId := s.nextTaskId + 1, io := io } := by
  simp only [Sched.createTask,hi]
  exact ⟨_,rfl⟩

theorem emptySlot_state {i : Fin maxTasks} (hi : s.emptySlot = some i) :
    s.state (.pool i) = .empty := by
  have := List.find?_some hi
  simp only [decide_eq_true_eq] at this
  exact this.2

theorem createTask_inv (h : SchedInv s s.current xs) (entry exit stack : BitVec 64) :
    ∃ xs', SchedInv (s.createTask entry exit stack) s.current xs' := by
  cases hi : s.emptySlot with
  | none =>
    simp only [Sched.createTask,hi]
    exact ⟨xs,h.queues,h.filed,h.onStack⟩
  | some i =>
    have he := emptySlot_state hi
    obtain ⟨io,hs⟩ := createTask_eq hi entry exit stack
    have hn := h.not_mem (t := .pool i) (by simp [he]) (by simp [he]) (by simp [he])
    have hinv := h.enqueue (q := .readyQ) (k := s.newTask stack (.pool i)) hn nofun
      ((h.filed.create he).congr (by simp) (by simp) (by simp))
    rw [hs]
    exact ⟨_,hinv.queues,hinv.filed,hinv.onStack⟩

theorem taskExit_inv (h : SchedInv s s.current xs) (hc : s.current c = some t)
    (ht : s.state t = .running) (hp : ∀ d, t ≠ .idle d) :
    SchedInv (s.taskExit c) s.current xs := by
  simp only [Sched.taskExit,hc]
  refine ⟨h.queues,?_,h.onStack⟩
  rw [Sched.setState,Sched.state_setTask]
  exact h.filed.exit ⟨c,hc⟩ ht hp

theorem msleep_inv (h : SchedInv s s.current xs) (hc : s.current c = some t)
    (ht : s.state t = .running) (hp : ∀ d, t ≠ .idle d) (ms : BitVec 32) (now : BitVec 64) :
    ∃ xs', SchedInv (s.msleep c ms now) s.current xs' := by
  simp only [Sched.msleep,hc]
  have hn := h.not_mem (t := t) (by simp [ht]) (by simp [ht]) (by simp [ht])
  exact ⟨_,h.enqueue (q := .sleepQ) hn nofun ((h.filed.sleep ht hp).congr (by simp) (by simp)
    (by simp))⟩

theorem taskDequeue_fst (h : Family s.next s.queues xs) (q : QueueId) :
    (s.taskDequeue q).1 = (xs q).head? := (h.represents q).dequeue_fst

theorem taskDequeue_nil (h : Family s.next s.queues xs) {q : QueueId} (hx : xs q = []) :
    s.taskDequeue q = (none,s) := by
  have hq := dequeue_nil (hx ▸ h.represents q)
  simp only [Sched.taskDequeue,hq,Function.update_eq_self]

theorem taskDequeue_cons (h : Family s.next s.queues xs) {q : QueueId} {ts : List TaskRef}
    (hx : xs q = t :: ts) :
    ∃ s', s.taskDequeue q = (some t,s') ∧ s'.tasks = s.tasks ∧ s'.current = s.current ∧
      Family s'.next s'.queues (Function.update xs q ts) ∧
      ∀ j, t ∉ Function.update xs q ts j := by
  have hfst : (s.taskDequeue q).1 = some t := by rw [taskDequeue_fst h,hx]; rfl
  have hnext := (hx ▸ h.represents q).dequeue_next
  refine ⟨(s.taskDequeue q).2,by rw [← hfst],rfl,rfl,?_,h.not_mem_dequeue hx⟩
  change Family (dequeue s.next (s.queues q)).2.1 _ _
  rw [hnext]
  exact h.dequeue hx

theorem length_lt_loopBound (h : Family s.next s.queues xs) (q : QueueId) :
    (xs q).length < Sched.loopBound := by
  have hle := (h.represents q).nodup.length_le_card
  rw [card_taskRef] at hle
  unfold Sched.loopBound
  omega

/-- Between `s₀` and `s` some sleeping tasks were made ready, and no task else was touched. -/
def Wakes (s₀ s : Sched) : Prop :=
  ∀ u, s.tasks u = s₀.tasks u ∨
    s₀.state u = .sleeping ∧ s.tasks u = { s₀.tasks u with state := .ready }

theorem Wakes.state {s₀ : Sched} (h : Wakes s₀ s) (hu : s₀.state t ≠ .sleeping) :
    s.state t = s₀.state t := by
  rcases h t with ht | ⟨ht,_⟩
  · simp only [Sched.state,ht]
  · exact absurd ht hu

theorem Wakes.wake {s₀ : Sched} (h : Wakes s₀ s) (ht : s.state t = .sleeping) :
    Wakes s₀ (s.setState t .ready) := by
  intro u
  by_cases hu : u = t
  · subst hu
    rcases h u with hk | ⟨_,hk⟩
    · refine .inr ⟨by simpa [Sched.state,hk] using ht,?_⟩
      simp [Sched.setState,Sched.setTask,hk]
    · simp [Sched.state,hk] at ht
  · simpa [Sched.setState,Sched.setTask,hu] using h u

/-- The loop of sched_check_tasks, entered in the state `s₀`, with `rest` still in
sleep_q: a sleeping task is there or in the local queue. -/
structure Checking (s₀ : Sched) (rest : List TaskRef) (s : Sched) : Prop where
  current : s.current = s₀.current
  wakes : Wakes s₀ s
  lists : ∃ xs, Family s.next s.queues xs ∧ xs .sleepQ = rest ∧
    Filed s.state s₀.current (· ∈ xs .readyQ) (fun u => u ∈ rest ∨ u ∈ xs .onStack)
      (· ∈ xs .zombieQ)

theorem checkOne_nil {s₀ : Sched} (now : BitVec 64) (h : Checking s₀ [] s) :
    s.checkOne now = none := by
  obtain ⟨xs,hq,hx,_⟩ := h.lists
  simp only [Sched.checkOne,taskDequeue_nil hq hx]

theorem checkOne_cons {s₀ : Sched} {now : BitVec 64} {ts : List TaskRef}
    (h : Checking s₀ (t :: ts) s) : ∃ s', s.checkOne now = some s' ∧ Checking s₀ ts s' := by
  obtain ⟨hc,hw,xs,hq,hx,hf⟩ := h
  obtain ⟨s',hs,htasks,hcur,hq',hn⟩ := taskDequeue_cons hq hx
  have hstate : s'.state = s.state := by funext u; simp only [Sched.state,htasks]
  have hts : t ∉ ts := by simpa using hn .sleepQ
  have hto : t ∉ xs .onStack := by simpa using hn .onStack
  have hsleep : s.state t = .sleeping := (hf.sleeping t).mp (by simp)
  have hw' : Wakes s₀ s' := fun u => by rw [htasks]; exact hw u
  simp only [Sched.checkOne,hs]
  rw [← hstate] at hf hsleep
  split
  · refine ⟨_,rfl,hcur.trans hc,hw'.wake hsleep,_,hq'.enqueue .readyQ hn,by simp,?_⟩
    have hfw := hf.wake (t := t) (by simp)
    change Filed (s'.setState t .ready).state _ _ _ _
    rw [Sched.setState,Sched.state_setTask]
    refine hfw.congr (by simp) (fun u => ?_) (by simp)
    by_cases hu : u = t
    · subst hu; simp [hts,hto]
    · simp [hu]
  · refine ⟨_,rfl,hcur.trans hc,hw',_,hq'.enqueue .onStack hn,by simp,?_⟩
    refine hf.congr (by simp) (fun u => ?_) (by simp)
    simp only [Function.update_self,ne_eq,reduceCtorEq,not_false_eq_true,Function.update_of_ne,
      List.mem_append,List.mem_cons,List.not_mem_nil,or_false]
    tauto

theorem schedCheckTasks_inv (h : SchedInv s s.current xs) (now : BitVec 64) :
    ∃ s' xs', s.schedCheckTasks now = some s' ∧ s'.current = s.current ∧ Wakes s s' ∧
      SchedInv s' s.current xs' := by
  have hI : Checking s (xs .sleepQ) s :=
    ⟨rfl,fun _ => .inl rfl,xs,h.queues,rfl,
      h.filed.congr (by simp) (by simp [h.onStack]) (by simp)⟩
  obtain ⟨s',hs,hcur,hw,ys,hq,hy,hf⟩ := Runs.whileSome_list
    (fun _ => checkOne_nil now) (fun _ _ _ => checkOne_cons) hI
    (length_lt_loopBound h.queues .sleepQ)
  refine ⟨s'.assignLocal .sleepQ,_,by simp [Sched.schedCheckTasks,hs],hcur,hw,
    hq.move (by decide : QueueId.sleepQ ≠ .onStack),?_,by simp⟩
  exact hf.congr (by simp) (by simp) (by simp)

def freed : SchedIo → Option (BitVec 64 × BitVec 32)
  | .freePages ptr numPages => some (ptr,numPages)
  | _ => none

/-- Between `s₀` and `s` the tasks `zs` were freed, the last one first, and no task else
was touched. -/
structure Reaps (s₀ s : Sched) (zs : List TaskRef) : Prop where
  tasks : ∀ u, s.tasks u = if u ∈ zs then .zero else s₀.tasks u
  frees : s.io.filterMap freed =
    zs.map (fun z => ((s₀.tasks z).stackBase,3)) ++ s₀.io.filterMap freed
  zombies : ∀ z ∈ zs, s₀.state z = .zombie ∧ (s₀.tasks z).coreId = 0xFF ∧ ¬ Current s₀.current z

theorem Reaps.state {s₀ : Sched} {zs : List TaskRef} (h : Reaps s₀ s zs) {u : TaskRef}
    (hu : s₀.state u ≠ .zombie ∨ Current s₀.current u) : s.state u = s₀.state u := by
  have hz : u ∉ zs := by
    intro hm
    obtain ⟨hz,_,hc⟩ := h.zombies u hm
    exact hu.elim (· hz) hc
  simp only [Sched.state,h.tasks u,hz,if_false]

/-- The loop of reaper_service with `rest` still in zombie_q. -/
structure Reaping (s₀ : Sched) (rest : List TaskRef) (s : Sched) : Prop where
  current : s.current = s₀.current
  reaps : ∃ zs, Reaps s₀ s zs
  lists : ∃ xs, Family s.next s.queues xs ∧ xs .zombieQ = rest ∧
    Filed s.state s₀.current (· ∈ xs .readyQ) (· ∈ xs .sleepQ)
      (fun u => u ∈ rest ∨ u ∈ xs .onStack)

theorem reapOne_nil {s₀ : Sched} (h : Reaping s₀ [] s) : s.reapOne = none := by
  obtain ⟨xs,hq,hx,_⟩ := h.lists
  simp only [Sched.reapOne,taskDequeue_nil hq hx]

theorem Reaps.free {s₀ : Sched} {zs : List TaskRef} (h : Reaps s₀ s zs)
    (ht : s.state t = .zombie) (hid : (s.tasks t).coreId = 0xFF) (hc : ¬ Current s₀.current t) :
    Reaps s₀ (s.freeZombie t) (t :: zs) := by
  have hz : t ∉ zs := by
    intro hm
    simp [Sched.state,h.tasks t,hm,Task.zero] at ht
  have hk : s.tasks t = s₀.tasks t := by rw [h.tasks t,if_neg hz]
  refine ⟨fun u => ?_,?_,fun z hm => ?_⟩
  · by_cases hu : u = t
    · subst hu; simp [Sched.freeZombie,Sched.setTask]
    · simp [Sched.freeZombie,Sched.setTask,Sched.emit,hu,h.tasks u]
  · change ((s.tasks t).stackBase,3) :: s.io.filterMap freed = _
    rw [h.frees,hk]
    rfl
  · rcases List.mem_cons.mp hm with rfl | hm
    · exact ⟨by rw [Sched.state,← hk]; exact ht,hk ▸ hid,hc⟩
    · exact h.zombies z hm

theorem reapOne_cons {s₀ : Sched} {ts : List TaskRef} (h : Reaping s₀ (t :: ts) s) :
    ∃ s', s.reapOne = some s' ∧ Reaping s₀ ts s' := by
  obtain ⟨hc,⟨zs,hzs⟩,xs,hq,hx,hf⟩ := h
  obtain ⟨s',hs,htasks,hcur,hq',hn⟩ := taskDequeue_cons hq hx
  have hio : s.io = s'.io := congrArg (·.2.io) hs
  have hstate : s'.state = s.state := by funext u; simp only [Sched.state,htasks]
  have hts : t ∉ ts := by simpa using hn .zombieQ
  have hto : t ∉ xs .onStack := by simpa using hn .onStack
  obtain ⟨hzombie,hnot⟩ := (hf.zombie t).mp (by simp)
  rw [← hstate] at hf hzombie
  have hzs' : Reaps s₀ s' zs := ⟨by rw [htasks]; exact hzs.tasks,hio ▸ hzs.frees,hzs.zombies⟩
  simp only [Sched.reapOne,hs]
  split
  · rename_i hid
    refine ⟨_,rfl,hcur.trans hc,⟨_,hzs'.free hzombie hid hnot⟩,_,hq'.update_next hn none,
      by simp,?_⟩
    have hw := hf.reap (t := t) (by simp)
    change Filed (s'.setTask t .zero).state _ _ _ _
    rw [Sched.state_setTask]
    refine hw.congr (by simp) (by simp) (fun u => ?_)
    by_cases hu : u = t
    · subst hu; simp [hts,hto]
    · simp [hu]
  · refine ⟨_,rfl,hcur.trans hc,⟨zs,hzs'.tasks,hzs'.frees,hzs'.zombies⟩,_,
      hq'.enqueue .onStack hn,by simp,?_⟩
    refine hf.congr (by simp) (by simp) (fun u => ?_)
    simp only [Function.update_self,ne_eq,reduceCtorEq,not_false_eq_true,Function.update_of_ne,
      List.mem_append,List.mem_cons,List.not_mem_nil,or_false]
    tauto

theorem reaperService_inv (h : SchedInv s s.current xs) :
    ∃ s' zs xs', s.reaperService = some s' ∧ s'.current = s.current ∧ Reaps s s' zs ∧
      SchedInv s' s.current xs' := by
  have hI : Reaping s (xs .zombieQ) s :=
    ⟨rfl,⟨[],by simp,by simp,by simp⟩,xs,h.queues,rfl,
      h.filed.congr (by simp) (by simp) (by simp [h.onStack])⟩
  obtain ⟨s',hs,hcur,⟨zs,hzs⟩,ys,hq,hy,hf⟩ := Runs.whileSome_list
    (fun _ => reapOne_nil) (fun _ _ _ => reapOne_cons) hI
    (length_lt_loopBound h.queues .zombieQ)
  refine ⟨s'.assignLocal .zombieQ,zs,_,by simp [Sched.reaperService,hs],hcur,
    ⟨hzs.tasks,hzs.frees,hzs.zombies⟩,hq.move (by decide : QueueId.zombieQ ≠ .onStack),?_,by simp⟩
  exact hf.congr (by simp) (by simp) (by simp)

end Arm64

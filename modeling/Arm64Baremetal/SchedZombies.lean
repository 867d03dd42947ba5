import Arm64Baremetal.KernelStacks
import Arm64Baremetal.SchedReaper

/-!
The way of a zombie to the reaper: schedule_task signals SCHEDULER_GC to its own core, and
kernel_irq calls reaper_service for it. Of the cores with an entry in idle_tasks[], any number
schedule; their tasks do not sleep.
-/

set_option autoImplicit false

namespace Arm64
open Runs IntrusiveQueue

/-- `pending` are the cores on which SCHEDULER_GC is pending, `owed` counts for each core the
interrupts it has acknowledged and not yet answered with reaper_service. -/
structure GcState where
  sched : Sched
  pending : SchedCore → Bool
  owed : SchedCore → Nat

/-- A critical section of a core, or the acknowledge of SCHEDULER_GC. -/
inductive GcStep where
  | start
  | createTask (entry taskExit stack : BitVec 64)
  | taskExit
  | check (now : BitVec 64)
  | schedule (frame : BitVec 64)
  | ack
  | reap
  deriving DecidableEq

/-- SCHEDULER_GC is pending where it was, and where `io` has a new SGI for it. -/
def raise (io : List SchedIo) (pending : SchedCore → Bool) : SchedCore → Bool :=
  fun d => pending d || decide (.sgi1 d schedulerGc ∈ io)

def gcStep (m : GcState) : SchedCore × GcStep → GcState
  | (c,.start) => { m with sched := m.sched.initSchedCore c }
  | (_,.createTask entry taskExit stack) =>
    { m with sched := m.sched.createTask entry taskExit stack }
  | (c,.taskExit) => { m with sched := m.sched.taskExit c }
  | (_,.check now) => { m with sched := (m.sched.schedCheckTasks now).getD m.sched }
  | (c,.schedule frame) =>
    let s := (({ m.sched with io := [] } : Sched).scheduleTask c frame).2
    { m with sched := s, pending := raise s.io m.pending }
  | (c,.ack) =>
    { m with
      pending := Function.update m.pending c false
      owed := Function.update m.owed c (m.owed c + 1) }
  | (c,.reap) =>
    { m with
      sched := m.sched.reaperService.getD m.sched
      owed := Function.update m.owed c (m.owed c - 1) }

def GcLegal (m : GcState) : SchedCore × GcStep → Prop
  | (c,.start) => m.sched.current c = none
  | (c,.createTask entry taskExit stack) =>
    SchedLegal c m.sched (.createTask entry taskExit stack)
  | (c,.taskExit) => SchedLegal c m.sched .taskExit
  | (_,.check _) | (_,.schedule _) => True
  | (c,.ack) => m.pending c = true
  | (c,.reap) => 0 < m.owed c

instance (m : GcState) : (e : SchedCore × GcStep) → Decidable (GcLegal m e)
  | (c,.start) => inferInstanceAs (Decidable (m.sched.current c = none))
  | (c,.createTask entry taskExit stack) =>
    inferInstanceAs (Decidable (SchedLegal c m.sched (.createTask entry taskExit stack)))
  | (c,.taskExit) => inferInstanceAs (Decidable (SchedLegal c m.sched .taskExit))
  | (_,.check _) | (_,.schedule _) => inferInstanceAs (Decidable True)
  | (_,.ack) => inferInstanceAs (Decidable (_ = _))
  | (_,.reap) => inferInstanceAs (Decidable (_ < _))

variable {m : GcState} {s : Sched} {xs : QueueId → List TaskRef} {c : SchedCore} {t : TaskRef}

structure GcInv (m : GcState) (xs : QueueId → List TaskRef) : Prop where
  inv : SchedInv m.sched m.sched.current xs
  awake : ∀ t, m.sched.state t ≠ .sleeping
  current : ∀ t, Current m.sched.current t → m.sched.state t = .running ∨ m.sched.state t = .zombie
  released : ZombiesReleased m.sched
  signalled : xs .zombieQ ≠ [] → ∃ c, m.pending c = true ∨ 0 < m.owed c

theorem putAway_state (s : Sched) (c : SchedCore) (t : TaskRef) :
    (s.putAway c t).state t =
      if s.state t = .running ∧ t ≠ .idle c then .ready else s.state t := by
  by_cases h : s.state t = .running ∧ t ≠ .idle c
  · have hrun : (s.tasks t).state = .running := h.1
    rw [if_pos h]
    simp only [Sched.putAway,hrun,if_pos h.2]
    change (s.setState t .ready).state t = .ready
    rw [Sched.setState,Sched.state_setTask,Function.update_self]
  · rw [if_neg h]
    unfold Sched.putAway
    split
    · rfl
    next hrun => rw [if_neg fun hi => h ⟨hrun,hi⟩]
    · rfl

theorem scheduleTask_out (hc : s.current c = some t) (frame : BitVec 64) {n : TaskRef}
    (hn : (s.scheduleTask c frame).1 = some n) (htn : t ≠ n) :
    (s.scheduleTask c frame).2.state t =
      if s.state t = .running ∧ t ≠ .idle c then .ready else s.state t := by
  simp only [Sched.scheduleTask,hc,Option.some.injEq] at hn ⊢
  obtain ⟨hnext,_,_,_,hst⟩ := pickNext_spec
    ((s.setTask t { s.tasks t with frame := frame }).putAway c t) c t
  rw [hst,← hnext,hn,Function.update_of_ne htn]
  change ((s.setTask t { s.tasks t with frame := frame }).putAway c t).state t = _
  rw [putAway_state,setFrame_state]

theorem scheduleTask_signals (hc : s.current c = some t) (frame : BitVec 64)
    (hz : s.state t = .zombie) : .sgi1 c schedulerGc ∈ (s.scheduleTask c frame).2.io := by
  simp only [Sched.scheduleTask,hc]
  have hput : ((s.setTask t { s.tasks t with frame := frame }).putAway c t).state t = .zombie := by
    rw [putAway_state,setFrame_state,hz]
    rfl
  generalize (s.setTask t { s.tasks t with frame := frame }).putAway c t = s₁ at hput
  have hrel := (releaseCore_same (s₁.taskDequeue .readyQ).2 t
    ((s₁.taskDequeue .readyQ).1.getD (.idle c))).state
  have hstate : ((s₁.taskDequeue .readyQ).2.releaseCore t
      ((s₁.taskDequeue .readyQ).1.getD (.idle c))).state t = .zombie := by
    rw [hrel]
    exact hput
  change .sgi1 c schedulerGc ∈ (Sched.signalGc c t ((s₁.taskDequeue .readyQ).2.releaseCore t
    ((s₁.taskDequeue .readyQ).1.getD (.idle c)))).io
  rw [Sched.signalGc,if_pos hstate]
  exact List.mem_cons_self

theorem GcInv.next_free (h : GcInv m xs) (hc : m.sched.current c = some t) (frame : BitVec 64) :
    ∃ n, (m.sched.scheduleTask c frame).1 = some n ∧
      ¬ Current (Function.update m.sched.current c none) n := by
  obtain ⟨n,hn,hfrom⟩ := scheduleTask_takes h.inv hc frame
  refine ⟨n,hn,?_⟩
  rintro ⟨d,hd⟩
  have hdc : d ≠ c := by
    rintro rfl
    simp at hd
  rw [Function.update_of_ne hdc] at hd
  rcases hfrom with hhead | rfl | rfl
  · have hready := (h.inv.filed.ready n).mp (List.mem_of_head? hhead)
    rcases h.current n ⟨d,hd⟩ with hs | hs <;> simp [hready] at hs
  · exact hdc (h.inv.filed.inj d c n hd hc)
  · exact hdc (h.inv.filed.ownIdle d c hd).symm

theorem GcInv.quiet (h : GcInv m xs) : GcInv { m with sched := { m.sched with io := [] } } xs :=
  ⟨⟨h.inv.queues,h.inv.filed,h.inv.onStack⟩,h.awake,h.current,h.released,h.signalled⟩

theorem current_update {cur : SchedCore → Option TaskRef} {n u : TaskRef}
    (h : Current (Function.update cur c (some n)) u) : u = n ∨ ∃ d, d ≠ c ∧ cur d = some u := by
  obtain ⟨d,hd⟩ := h
  by_cases hdc : d = c
  · subst hdc
    rw [Function.update_self] at hd
    exact .inl (Option.some.inj hd).symm
  · rw [Function.update_of_ne hdc] at hd
    exact .inr ⟨d,hdc,hd⟩

theorem current_update_of_ne {cur : SchedCore → Option TaskRef} {n u : TaskRef}
    (h : Current cur u) (hu : cur c ≠ some u) : Current (Function.update cur c (some n)) u := by
  obtain ⟨d,hd⟩ := h
  have hdc : d ≠ c := by
    rintro rfl
    exact hu hd
  exact ⟨d,(Function.update_of_ne hdc _ _).trans hd⟩

theorem raise_of_pending {io : List SchedIo} {pending : SchedCore → Bool} {d : SchedCore}
    (h : pending d = true) : raise io pending d = true := by
  rw [raise,h,Bool.true_or]

theorem GcInv.schedule_state (h : GcInv m xs) (hc : m.sched.current c = some t) (frame : BitVec 64)
    {u : TaskRef} (hr : (m.sched.scheduleTask c frame).2.state u ≠ .running)
    (hr' : (m.sched.scheduleTask c frame).2.state u ≠ .ready) :
    (m.sched.scheduleTask c frame).2.state u = m.sched.state u := by
  obtain ⟨n,hn,hno⟩ := h.next_free hc frame
  obtain ⟨_,hrun,hst,_⟩ := scheduleTask_inv h.inv hc frame hn hno
  have hout := scheduleTask_out (n := n) hc frame hn
  have hun : u ≠ n := by
    rintro rfl
    exact hr hrun
  by_cases hut : u = t
  · subst hut
    rw [hout hun] at hr' ⊢
    split at hr'
    · exact absurd rfl hr'
    next hif => rw [if_neg hif]
  · exact hst u hut hun

theorem schedule_gcInv (h : GcInv m xs) (hc : m.sched.current c = some t) (frame : BitVec 64) :
    ∃ ys, GcInv { m with
      sched := (m.sched.scheduleTask c frame).2
      pending := raise (m.sched.scheduleTask c frame).2.io m.pending } ys := by
  obtain ⟨n,hn,hno⟩ := h.next_free hc frame
  obtain ⟨hcur,hrun,hst,ys,hi⟩ := scheduleTask_inv h.inv hc frame hn hno
  have hstate := fun u => @GcInv.schedule_state _ _ _ _ h hc frame u
  refine ⟨ys,hi,fun u hu => ?_,fun u hu => ?_,
    scheduleTask_released h.released h.inv hc frame hn hno,fun hne => ?_⟩
  · have hsame := hstate u (by simp [hu]) (by simp [hu])
    exact h.awake u (hsame.symm.trans hu)
  · change Current (m.sched.scheduleTask c frame).2.current u at hu
    rw [hcur] at hu
    rcases current_update hu with rfl | ⟨d,hdc,hd⟩
    · exact .inl hrun
    · have hun : u ≠ n := by
        rintro rfl
        exact hno ⟨d,(Function.update_of_ne hdc _ _).trans hd⟩
      have hut : u ≠ t := by
        rintro rfl
        exact hdc (h.inv.filed.inj d c u hd hc)
      change (m.sched.scheduleTask c frame).2.state u = _ ∨
        (m.sched.scheduleTask c frame).2.state u = _
      rw [hst u hut hun]
      exact h.current u ⟨d,hd⟩
  · by_cases ht : m.sched.state t = .zombie
    · refine ⟨c,.inl ?_⟩
      change raise _ m.pending c = true
      rw [raise,decide_eq_true (scheduleTask_signals hc frame ht),Bool.or_true]
    · obtain ⟨u,hu⟩ := List.exists_mem_of_ne_nil _ hne
      obtain ⟨hz,hnot⟩ := (hi.filed.zombie u).mp hu
      have hz' : m.sched.state u = .zombie :=
        (hstate u (by simp [hz]) (by simp [hz])).symm.trans hz
      have hut : m.sched.current c ≠ some u := by
        rw [hc]
        rintro heq
        exact ht (Option.some.inj heq ▸ hz')
      have hmem : u ∈ xs .zombieQ := by
        refine (h.inv.filed.zombie u).mpr ⟨hz',fun hcu => hnot ?_⟩
        rw [hcur]
        exact current_update_of_ne hcu hut
      obtain ⟨d,hd⟩ := h.signalled (List.ne_nil_of_mem hmem)
      exact ⟨d,hd.imp_left raise_of_pending⟩

theorem GcInv.of_call (h : GcInv m xs) {s : Sched} {ys : QueueId → List TaskRef}
    (hi : SchedInv s s.current ys) (hcur : s.current = m.sched.current)
    (hawake : ∀ t, s.state t ≠ .sleeping)
    (hstate : ∀ t, Current m.sched.current t → s.state t = m.sched.state t ∨ s.state t = .zombie)
    (hrel : ZombiesReleased s) (hz : ys .zombieQ ≠ [] → xs .zombieQ ≠ []) :
    GcInv { m with sched := s } ys := by
  refine ⟨hi,hawake,fun t ht => ?_,hrel,fun hne => h.signalled (hz hne)⟩
  have ht' : Current m.sched.current t := hcur ▸ ht
  rcases hstate t ht' with hs | hs
  · exact hs ▸ h.current t ht'
  · exact .inr hs

theorem start_gcInv (h : GcInv m xs) (hc : m.sched.current c = none) :
    GcInv { m with sched := m.sched.initSchedCore c } xs := by
  have hst := initSchedCore_state m.sched c
  refine ⟨initSchedCore_inv h.inv hc,fun t => ?_,fun t ht => ?_,fun t hz hno => ?_,h.signalled⟩
  · rw [hst,Function.update_apply]
    split
    · decide
    · exact h.awake t
  · rw [hst,Function.update_apply]
    split
    · exact .inl rfl
    next hti =>
      rcases current_update ht with hti' | ⟨d,_,hd⟩
      · exact absurd hti' hti
      · exact h.current t ⟨d,hd⟩
  · have hti : t ≠ .idle c := by
      rintro rfl
      rw [hst,Function.update_self] at hz
      exact absurd hz (by decide)
    rw [hst,Function.update_of_ne hti] at hz
    change ((Function.update m.sched.tasks (.idle c) _) t).coreId = 0xFF
    rw [Function.update_of_ne hti]
    have hne : m.sched.current c ≠ some t := by
      rw [hc]
      simp
    exact h.released t hz fun hcu => hno (current_update_of_ne hcu hne)

theorem createTask_gcInv (h : GcInv m xs) (entry exit stack : BitVec 64) :
    ∃ ys, GcInv { m with sched := m.sched.createTask entry exit stack } ys := by
  have hcur := createTask_current (s := m.sched) entry exit stack
  obtain ⟨ys,hi⟩ := createTask_inv h.inv entry exit stack
  rw [← hcur] at hi
  have hstate : ∀ u, (m.sched.createTask entry exit stack).state u = m.sched.state u ∨
      (m.sched.createTask entry exit stack).state u = .ready ∧ m.sched.state u = .empty := by
    intro u
    rcases createTask_tasks (s := m.sched) entry exit stack with ⟨i,hslot,ht⟩ | ⟨_,ht⟩
    · by_cases hu : u = .pool i
      · subst hu
        refine .inr ⟨?_,emptySlot_state hslot⟩
        rw [Sched.state,ht,Function.update_self]
        rfl
      · rw [Sched.state,ht,Function.update_of_ne hu]
        exact .inl rfl
    · rw [Sched.state,ht]
      exact .inl rfl
  refine ⟨ys,h.of_call hi hcur (fun t => ?_) (fun t ht => ?_)
    (createTask_released h.released entry exit stack) fun hne => ?_⟩
  · rcases hstate t with hs | ⟨hs,_⟩
    · rw [hs]
      exact h.awake t
    · rw [hs]
      decide
  · rcases hstate t with hs | ⟨_,hs⟩
    · exact .inl hs
    · rcases h.current t ht with hs' | hs' <;> simp [hs] at hs'
  · obtain ⟨u,hu⟩ := List.exists_mem_of_ne_nil _ hne
    obtain ⟨hz,hnot⟩ := (hi.filed.zombie u).mp hu
    rw [hcur] at hnot
    refine List.ne_nil_of_mem ((h.inv.filed.zombie u).mpr ⟨?_,hnot⟩)
    rcases hstate u with hs | ⟨hs,_⟩
    · exact hs.symm.trans hz
    · exact absurd (hs.symm.trans hz) (by decide)

theorem taskExit_gcInv (h : GcInv m xs) (hl : SchedLegal c m.sched .taskExit) :
    GcInv { m with sched := m.sched.taskExit c } xs := by
  obtain ⟨t,ht,hr,hp⟩ := hl
  have hc : m.sched.current c = some t := ht
  have hcur := taskExit_current (s := m.sched) (c := c)
  have hi := taskExit_inv h.inv hc hr hp
  rw [← hcur] at hi
  have ht' : (m.sched.taskExit c).state t = .zombie := by
    simp only [Sched.taskExit,hc]
    rw [Sched.setState,Sched.state_setTask,Function.update_self]
  refine h.of_call hi hcur (fun u => ?_) (fun u _ => ?_) (taskExit_released h.released c) id
  · by_cases hu : u = t
    · rw [hu,ht']
      decide
    · rw [taskExit_state hc hu]
      exact h.awake u
  · by_cases hu : u = t
    · exact .inr (hu ▸ ht')
    · exact .inl (taskExit_state hc hu)

theorem check_gcInv (h : GcInv m xs) (now : BitVec 64) :
    ∃ ys, GcInv { m with sched := (m.sched.schedCheckTasks now).getD m.sched } ys := by
  obtain ⟨s,ys,hs,hcur,hw,hi⟩ := schedCheckTasks_inv h.inv now
  rw [hs,Option.getD_some]
  rw [← hcur] at hi
  have hstate : ∀ u, s.state u = m.sched.state u := fun u => hw.state (h.awake u)
  refine ⟨ys,h.of_call hi hcur (fun u => ?_) (fun u _ => .inl (hstate u))
    (hw.released hcur h.released) fun hne => ?_⟩
  · rw [hstate]
    exact h.awake u
  · obtain ⟨u,hu⟩ := List.exists_mem_of_ne_nil _ hne
    obtain ⟨hz,hnot⟩ := (hi.filed.zombie u).mp hu
    rw [hcur] at hnot
    exact List.ne_nil_of_mem ((h.inv.filed.zombie u).mpr ⟨(hstate u).symm.trans hz,hnot⟩)

theorem GcInv.reaped (h : GcInv m xs) :
    ∃ s ys, m.sched.reaperService = some s ∧ s.current = m.sched.current ∧
      Swept m.sched s (xs .zombieQ) ∧ SchedInv s s.current ys ∧ ys .zombieQ = [] ∧
      (s.queues .zombieQ).head = none := by
  obtain ⟨s,hs,hswept,hq⟩ := reaperService_sweeps h.inv
  obtain ⟨s',_,ys,hs',_,_,hi⟩ := reaperService_inv h.inv
  obtain rfl : s = s' := Option.some.inj (hs.symm.trans hs')
  have hnone : (xs .zombieQ).filter (fun t => !m.sched.released t) = [] := by
    rw [List.filter_eq_nil_iff]
    intro u hu
    obtain ⟨hz,hno⟩ := (h.inv.filed.zombie u).mp hu
    simp [Sched.released,h.released u hz hno]
  rw [hnone] at hq
  have hhead := hq.head_eq_none.mpr rfl
  refine ⟨s,ys,hs,hswept.current,hswept,hswept.current ▸ hi,?_,hhead⟩
  exact (hi.queues.represents .zombieQ).head_eq_none.mp hhead

theorem reap_gcInv (h : GcInv m xs) (owed : SchedCore → Nat) :
    ∃ ys, GcInv { m with sched := m.sched.reaperService.getD m.sched, owed := owed } ys := by
  obtain ⟨s,ys,hs,hcur,hswept,hi,hnil,_⟩ := h.reaped
  rw [hs,Option.getD_some]
  refine ⟨ys,hi,fun u => ?_,fun u hu => ?_,hswept.released h.released,fun hne => absurd hnil hne⟩
  · change s.state u ≠ _
    rw [Sched.state,hswept.tasks]
    split
    · decide
    · exact h.awake u
  · change Current s.current u at hu
    change s.state u = _ ∨ s.state u = _
    rw [hcur] at hu
    have hz : ¬ (u ∈ xs .zombieQ ∧ m.sched.released u) :=
      fun hm => ((h.inv.filed.zombie u).mp hm.1).2 hu
    rw [Sched.state,hswept.tasks,if_neg hz]
    exact h.current u hu

theorem gcStep_inv (h : ∃ xs, GcInv m xs) (e : SchedCore × GcStep) (hl : GcLegal m e) :
    ∃ xs, GcInv (gcStep m e) xs := by
  obtain ⟨xs,h⟩ := h
  obtain ⟨c,e⟩ := e
  cases e with
  | start => exact ⟨xs,start_gcInv h hl⟩
  | createTask entry exit stack => exact createTask_gcInv h entry exit stack
  | taskExit => exact ⟨xs,taskExit_gcInv h hl⟩
  | check now => exact check_gcInv h now
  | schedule frame =>
    cases hc : m.sched.current c with
    | some t => exact schedule_gcInv h.quiet hc frame
    | none =>
      have hq := h.quiet
      refine ⟨xs,?_⟩
      simp only [gcStep,Sched.scheduleTask,hc]
      refine ⟨⟨hq.inv.queues,hq.inv.filed,hq.inv.onStack⟩,hq.awake,hq.current,hq.released,
        fun hne => ?_⟩
      obtain ⟨d,hd⟩ := h.signalled hne
      exact ⟨d,hd.imp_left raise_of_pending⟩
  | ack =>
    refine ⟨xs,h.inv,h.awake,h.current,h.released,fun hne => ?_⟩
    exact ⟨c,.inr (by simp [gcStep])⟩
  | reap => exact reap_gcInv h _

def GcState.boot (c : SchedCore) (m : GcState) : GcState := { m with sched := m.sched.initSched c }

theorem boot_gcInv (h : BeforeInit c m.sched) : GcInv (m.boot c) fun _ => [] := by
  have hi := initSched_inv h
  have hst := initSched_state m.sched c
  refine ⟨hi.inv,fun t => ?_,fun t ht => ?_,fun t hz => ?_,fun hne => absurd rfl hne⟩
  · change (m.sched.initSched c).state t ≠ _
    rw [hst]
    split <;> decide
  · obtain ⟨d,hd⟩ := ht
    obtain ⟨_,rfl⟩ := initSched_current h hd
    exact .inl ((hst _).trans (if_pos rfl))
  · change (m.sched.initSched c).state t = _ at hz
    rw [hst] at hz
    split at hz <;> exact absurd hz (by decide)

/-- While zombie_q holds a task, some core has SCHEDULER_GC pending or is on its way to
reaper_service, which leaves zombie_q empty whoever calls it. -/
theorem zombies_reaped (c : SchedCore) {m : GcState} (hb : BeforeInit c m.sched)
    {es : List (SchedCore × GcStep)} (h : Along gcStep GcLegal (m.boot c) es) :
    let t := exec gcStep (m.boot c) es
    ((t.sched.queues .zombieQ).head ≠ none → ∃ d, t.pending d = true ∨ 0 < t.owed d) ∧
    ∃ s, t.sched.reaperService = some s ∧ (s.queues .zombieQ).head = none := by
  intro t
  obtain ⟨xs,ht⟩ : ∃ xs, GcInv t xs :=
    exec_invariant (I := fun m => ∃ xs, GcInv m xs) (fun _ e => gcStep_inv (e := e))
      ⟨_,boot_gcInv hb⟩ h
  refine ⟨fun hne => ht.signalled fun hnil => hne ?_,?_⟩
  · exact (ht.inv.queues.represents .zombieQ).head_eq_none.mpr hnil
  · obtain ⟨s,_,hs,_,_,_,_,hhead⟩ := ht.reaped
    exact ⟨s,hs,hhead⟩

/-- Two tasks exit on one core while its SGI is pending, and the one reaper_service call
of the other core that follows a third exit takes them all. -/
theorem zombies_reaped_merged :
    let es : List (SchedCore × GcStep) :=
      [(1,.start),(0,.createTask 0x100 0x900 0x10000),(0,.createTask 0x200 0x900 0x20000),
       (0,.createTask 0x300 0x900 0x30000),(0,.schedule 0x40000),(1,.schedule 0x50000),
       (0,.taskExit),(0,.schedule 0x11000),(0,.taskExit),(0,.schedule 0x31000),(1,.taskExit),
       (1,.schedule 0x21000),(1,.ack)]
    BeforeInit 0 bootSched ∧
    Along gcStep GcLegal (GcState.boot 0 ⟨bootSched,fun _ => false,fun _ => 0⟩) es ∧
    let t := exec gcStep (GcState.boot 0 ⟨bootSched,fun _ => false,fun _ => 0⟩) es
    ((t.sched.queues .zombieQ).head ≠ none → ∃ d, t.pending d = true ∨ 0 < t.owed d) ∧
    ∃ s, t.sched.reaperService = some s ∧ (s.queues .zombieQ).head = none := by
  intro es
  have hb : BeforeInit 0 bootSched := ⟨fun _ => rfl,fun _ _ => rfl⟩
  have hl : Along gcStep GcLegal
      (GcState.boot 0 ⟨bootSched,fun _ => false,fun _ => 0⟩) es := by decide +kernel
  exact ⟨hb,hl,@zombies_reaped 0 ⟨bootSched,fun _ => false,fun _ => 0⟩ hb es hl⟩

end Arm64

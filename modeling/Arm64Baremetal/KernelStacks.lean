import Arm64Baremetal.SchedIntegrity

/-!
Two cores in the scheduler. The outgoing task is visible to the other core once
schedule_task unlocks, and its stack is in use until `mov sp, x0` in the vector.
-/

set_option autoImplicit false

namespace Arm64
open Runs IntrusiveQueue

/-- Where a core is. `code` is the code of its task, msleep and task_exit after their
spin_unlock included. In kernel_irq it is `checked` after sched_check_tasks, and `leaving`
between the spin_unlock of schedule_task and `mov sp, x0`. -/
inductive CorePhase where
  | off | code | handler | checked | leaving
  deriving DecidableEq

/-- `stack c` is the task on whose stack core `c` executes. -/
structure TwoCores where
  sched : Sched
  phase : SchedCore → CorePhase
  stack : SchedCore → Option TaskRef

/-- What a core does between two places where the other one can come in. `check` and
`schedule` are kernel_irq for the timer and SCHEDULER_YIELD, `reap` for SCHEDULER_GC. -/
inductive CoreStep where
  | start
  | createTask (entry taskExit stack : BitVec 64)
  | taskExit
  | msleep (ms : BitVec 32) (now : BitVec 64)
  | irq
  | check (now : BitVec 64)
  | schedule (frame : BitVec 64)
  | reap
  | leave
  deriving DecidableEq

namespace TwoCores

def setPhase (c : SchedCore) (p : CorePhase) (m : TwoCores) : TwoCores :=
  { m with phase := Function.update m.phase c p }

def setStack (c : SchedCore) (t : Option TaskRef) (m : TwoCores) : TwoCores :=
  { m with stack := Function.update m.stack c t }

theorem phase_eq {c : SchedCore} {p : CorePhase} {m : TwoCores} (h : m.phase c = p) :
    m.phase = Function.update m.phase c p := by
  rw [← h,Function.update_eq_self]

end TwoCores

/-- The frame of a task is on its own stack, so `leave` goes to the stack of the current
task. -/
def coreStep (m : TwoCores) : SchedCore × CoreStep → TwoCores
  | (c,.start) =>
    ({ m with sched := m.sched.initSchedCore c }.setPhase c .code).setStack c (some (.idle c))
  | (_,.createTask entry taskExit stack) =>
    { m with sched := m.sched.createTask entry taskExit stack }
  | (c,.taskExit) => { m with sched := m.sched.taskExit c }
  | (c,.msleep ms now) => { m with sched := m.sched.msleep c ms now }
  | (c,.irq) => m.setPhase c .handler
  | (c,.check now) =>
    { m with sched := (m.sched.schedCheckTasks now).getD m.sched }.setPhase c .checked
  | (c,.schedule frame) =>
    { m with sched := (m.sched.scheduleTask c frame).2 }.setPhase c .leaving
  | (_,.reap) => { m with sched := m.sched.reaperService.getD m.sched }
  | (c,.leave) => (m.setPhase c .code).setStack c (m.sched.current c)

def CoreLegal (m : TwoCores) : SchedCore × CoreStep → Prop
  | (c,.start) => m.phase c = .off
  | (c,.createTask entry taskExit stack) =>
    m.phase c = .code ∧ SchedLegal c m.sched (.createTask entry taskExit stack)
  | (c,.taskExit) => m.phase c = .code ∧ SchedLegal c m.sched .taskExit
  | (c,.msleep ms now) => m.phase c = .code ∧ SchedLegal c m.sched (.msleep ms now)
  | (c,.irq) => m.phase c = .code
  | (c,.check _) => m.phase c = .handler
  | (c,.schedule _) => m.phase c = .checked
  | (c,.reap) => m.phase c = .handler
  | (c,.leave) => m.phase c = .handler ∨ m.phase c = .leaving

/-- No task is taken, and no zombie is reaped, that another core still has to leave. -/
def Vacated (m : TwoCores) : SchedCore × CoreStep → Prop
  | (c,.schedule _) => ∀ n ∈ (m.sched.queues .readyQ).head, ∀ d, d ≠ c → m.stack d ≠ some n
  | (_,.reap) => ∀ d, m.phase d = .leaving → ∀ t ∈ m.stack d, m.sched.state t ≠ .zombie
  | _ => True

instance (m : TwoCores) : (e : SchedCore × CoreStep) → Decidable (CoreLegal m e)
  | (_,.start) | (_,.irq) | (_,.check _) | (_,.schedule _) | (_,.reap) =>
    inferInstanceAs (Decidable (_ = _))
  | (_,.createTask _ _ _) | (_,.taskExit) | (_,.msleep _ _) =>
    inferInstanceAs (Decidable (_ ∧ _))
  | (_,.leave) => inferInstanceAs (Decidable (_ ∨ _))

instance (m : TwoCores) : (e : SchedCore × CoreStep) → Decidable (Vacated m e)
  | (_,.schedule _) => inferInstanceAs (Decidable (∀ n ∈ Queue.head _, _))
  | (_,.reap) => inferInstanceAs (Decidable (∀ _, _ → ∀ t ∈ _, _))
  | (_,.start) | (_,.createTask _ _ _) | (_,.taskExit) | (_,.msleep _ _) | (_,.irq)
  | (_,.check _) | (_,.leave) => inferInstanceAs (Decidable True)

def bootCores (c : SchedCore) (s : Sched) : TwoCores where
  sched := s.initSched c
  phase := Function.update (fun _ => .off) c .code
  stack := Function.update (fun _ => none) c (some (.idle c))

def StacksApart (m : TwoCores) : Prop :=
  ∀ c d t, m.stack c = some t → m.stack d = some t → c = d

/-- reaper_service ends, and every stack it frees is one that no core executes on. -/
def SparesStacks (m : TwoCores) : Prop :=
  ∃ s' zs, m.sched.reaperService = some s' ∧ Reaps m.sched s' zs ∧
    ∀ z ∈ zs, ∀ c, m.stack c ≠ some z

variable {m : TwoCores} {c : SchedCore} {xs : QueueId → List TaskRef}

structure StacksInv (m : TwoCores) (xs : QueueId → List TaskRef) : Prop where
  inv : SchedInv m.sched m.sched.current xs
  off : ∀ c, m.phase c = .off → m.stack c = none ∧ m.sched.current c = none
  same : ∀ c, m.phase c ≠ .off → m.phase c ≠ .leaving →
    ∃ t, m.stack c = some t ∧ m.sched.current c = some t
  leaving : ∀ c, m.phase c = .leaving →
    ∃ n, m.sched.current c = some n ∧ m.sched.state n = .running
  apart : StacksApart m
  coming : ∀ c d t, m.sched.current c = some t → m.stack d = some t → c = d
  ownIdle : ∀ c d, m.stack c = some (.idle d) → d = c
  alive : ∀ c t, m.stack c = some t → m.sched.state t ≠ .empty

/-- A step of core `c` leaves the other one as it was, and the task it goes to running. -/
structure Elsewhere (c : SchedCore) (m m' : TwoCores) : Prop where
  phase : ∀ d, d ≠ c → m'.phase d = m.phase d
  stack : ∀ d, d ≠ c → m'.stack d = m.stack d
  current : ∀ d, d ≠ c → m'.sched.current d = m.sched.current d
  running : ∀ d n, d ≠ c → m.sched.current d = some n → m.sched.state n = .running →
    m'.sched.state n = .running

theorem StacksInv.of_core (h : StacksInv m xs) {m' : TwoCores} {ys : QueueId → List TaskRef}
    {t n : TaskRef} (he : Elsewhere c m m') (hi : SchedInv m'.sched m'.sched.current ys)
    (ht : m'.stack c = some t) (hn : m'.sched.current c = some n) (hoff : m'.phase c ≠ .off)
    (hsame : m'.phase c ≠ .leaving → n = t)
    (hleave : m'.phase c = .leaving → m'.sched.state n = .running)
    (hapart : ∀ d, d ≠ c → m.stack d ≠ some t) (hn' : ∀ d, d ≠ c → m.stack d ≠ some n)
    (hcur : ∀ d, d ≠ c → m.sched.current d ≠ some t) (hidle : ∀ d, t = .idle d → d = c)
    (halive : ∀ d u, m'.stack d = some u → m'.sched.state u ≠ .empty) :
    StacksInv m' ys := by
  obtain ⟨hphase,hstack,hcurrent,hrun⟩ := he
  obtain ⟨_,ho,hr,hl,ha,hg,hw,_⟩ := h
  refine ⟨hi,fun d hd => ?_,fun d hd hd' => ?_,fun d hd => ?_,fun d e u hd he => ?_,
    fun d e u hd he => ?_,fun d e hd => ?_,halive⟩
  · by_cases hdc : d = c
    · exact absurd (hdc ▸ hd) hoff
    · rw [hstack d hdc,hcurrent d hdc]
      exact ho d (by rwa [← hphase d hdc])
  · by_cases hdc : d = c
    · subst hdc
      exact ⟨t,ht,by rw [hn,hsame hd']⟩
    · rw [hphase d hdc] at hd hd'
      rw [hstack d hdc,hcurrent d hdc]
      exact hr d hd hd'
  · by_cases hdc : d = c
    · subst hdc
      exact ⟨n,hn,hleave hd⟩
    · obtain ⟨u,hu,hru⟩ := hl d (by rwa [← hphase d hdc])
      exact ⟨u,by rwa [hcurrent d hdc],hrun d u hdc hu hru⟩
  · have := ha d e u
    grind
  · have := hg d e u
    grind
  · have := hw d e
    grind

variable {s : Sched} {t n : TaskRef}

theorem createTask_running (entry exit stack : BitVec 64) (hn : s.state n = .running) :
    (s.createTask entry exit stack).state n = .running := by
  cases hi : s.emptySlot with
  | none =>
    simp only [Sched.createTask,hi]
    exact hn
  | some i =>
    have he := emptySlot_state hi
    obtain ⟨io,hs⟩ := createTask_eq hi entry exit stack
    rw [hs]
    change (s.setTask (.pool i) (s.newTask stack (.pool i))).state n = .running
    rw [Sched.state_setTask,Function.update_of_ne (by rintro rfl; simp [he] at hn)]
    exact hn

theorem taskExit_state (hc : s.current c = some t) (hn : n ≠ t) :
    (s.taskExit c).state n = s.state n := by
  simp only [Sched.taskExit,hc]
  rw [Sched.setState,Sched.state_setTask,Function.update_of_ne hn]

theorem msleep_state (hc : s.current c = some t) (hn : n ≠ t) (ms : BitVec 32)
    (now : BitVec 64) : (s.msleep c ms now).state n = s.state n := by
  simp only [Sched.msleep,hc]
  change (s.setTask t _).state n = _
  rw [Sched.state_setTask,Function.update_of_ne hn]

theorem StacksInv.call (h : StacksInv m xs) (hoff : m.phase c ≠ .off)
    (hlv : m.phase c ≠ .leaving) {m' : TwoCores} {p : CorePhase} {ys : QueueId → List TaskRef}
    (hi : SchedInv m'.sched m.sched.current ys) (hcur : m'.sched.current = m.sched.current)
    (hstack : m'.stack = m.stack) (hphase : m'.phase = Function.update m.phase c p)
    (hp : p ≠ .off ∧ p ≠ .leaving)
    (hrun : ∀ t n, m.sched.current c = some t → n ≠ t → Current m.sched.current n →
      m.sched.state n = .running → m'.sched.state n = .running)
    (halive : ∀ d u, m.stack d = some u → m.sched.state u ≠ .empty →
      m'.sched.state u ≠ .empty) : StacksInv m' ys := by
  obtain ⟨t,ht,hc⟩ := h.same c hoff hlv
  have he : Elsewhere c m m' := by
    refine ⟨fun d hd => ?_,fun d _ => congrFun hstack d,fun d _ => congrFun hcur d,
      fun d n hd hn hr => hrun t n hc ?_ ⟨d,hn⟩ hr⟩
    · rw [hphase,Function.update_of_ne hd]
    · rintro rfl
      exact hd (h.inv.filed.inj d c n hn hc)
  have hp' : m'.phase c = p := by rw [hphase,Function.update_self]
  refine h.of_core he (by rwa [← hcur] at hi) (hstack ▸ ht) ((congrFun hcur c).trans hc)
    (hp' ▸ hp.1) (fun _ => rfl) (fun hl => absurd (hp'.symm.trans hl) hp.2)
    (fun d hd hs => hd (h.apart d c t hs ht)) (fun d hd hs => hd (h.apart d c t hs ht))
    (fun d hd hs => hd (h.coming d c t hs ht)) (fun d hd => h.ownIdle c d (hd ▸ ht))
    fun d u hu => ?_
  rw [hstack] at hu
  exact halive d u hu (h.alive d u hu)

theorem initSchedCore_state (s : Sched) (c : SchedCore) :
    (s.initSchedCore c).state = Function.update s.state (.idle c) .running :=
  Sched.state_setTask ..

theorem initSchedCore_inv (h : SchedInv s s.current xs) (hc : s.current c = none) :
    SchedInv (s.initSchedCore c) (s.initSchedCore c).current xs := by
  refine ⟨h.queues,?_,h.onStack⟩
  rw [initSchedCore_state]
  exact h.filed.pick_idle hc

theorem coreStep_start (h : StacksInv m xs) (hp : m.phase c = .off) :
    StacksInv (coreStep m (c,.start)) xs := by
  obtain ⟨_,hcur⟩ := h.off c hp
  have hst : (coreStep m (c,.start)).sched.state =
      Function.update m.sched.state (.idle c) .running := initSchedCore_state ..
  have he : Elsewhere c m (coreStep m (c,.start)) := by
    refine ⟨fun d hd => Function.update_of_ne hd _ _,fun d hd => Function.update_of_ne hd _ _,
      fun d hd => Function.update_of_ne hd _ _,fun _ n _ _ hr => ?_⟩
    rw [hst,Function.update_apply,hr,ite_self]
  have hp' : (coreStep m (c,.start)).phase c = .code := Function.update_self ..
  refine h.of_core (t := .idle c) (n := .idle c) he (initSchedCore_inv h.inv hcur)
    (Function.update_self ..) (Function.update_self ..) (by simp [hp']) (fun _ => rfl)
    (by simp [hp']) ?_ ?_ ?_ (fun d hd => (TaskRef.idle.inj hd).symm) ?_
  · exact fun d hd hs => hd (h.ownIdle d c hs).symm
  · exact fun d hd hs => hd (h.ownIdle d c hs).symm
  · exact fun d hd hs => hd (h.inv.filed.ownIdle d c hs).symm
  · intro d u hu
    change Function.update m.stack c (some (.idle c)) d = some u at hu
    rw [hst,Function.update_apply]
    split
    · simp
    · refine h.alive d u ?_
      by_cases hdc : d = c
      · subst hdc
        simp_all
      · rwa [Function.update_of_ne hdc] at hu

theorem scheduleTask_vacated (h : StacksInv m xs) (hc : m.sched.current c = some t)
    (hs : m.stack c = some t) (frame : BitVec 64) (hv : Vacated m (c,.schedule frame)) :
    ∃ n, (m.sched.scheduleTask c frame).1 = some n ∧
      (∀ d, d ≠ c → m.stack d ≠ some n) ∧ ∀ d, d ≠ c → m.sched.current d ≠ some n := by
  obtain ⟨n,hn,hfrom⟩ := scheduleTask_takes h.inv hc frame
  refine ⟨n,hn,?_⟩
  rcases hfrom with hhead | rfl | rfl
  · have hstack := hv n (by rw [(h.inv.queues.represents .readyQ).head_eq]; exact hhead)
    refine ⟨hstack,fun d hd hcur => ?_⟩
    have hready := (h.inv.filed.ready n).mp (List.mem_of_head? hhead)
    by_cases hoff : m.phase d = .off
    · simp [h.off d hoff] at hcur
    by_cases hlv : m.phase d = .leaving
    · obtain ⟨u,hu,hr⟩ := h.leaving d hlv
      obtain rfl : u = n := Option.some.inj (hu.symm.trans hcur)
      simp [hready] at hr
    · obtain ⟨u,hu,hcu⟩ := h.same d hoff hlv
      obtain rfl : u = n := Option.some.inj (hcu.symm.trans hcur)
      exact hstack d hd hu
  · exact ⟨fun d hd hd' => hd (h.apart d c n hd' hs),
      fun d hd hd' => hd (h.inv.filed.inj d c n hd' hc)⟩
  · exact ⟨fun d hd hd' => hd (h.ownIdle d c hd').symm,
      fun d hd hd' => hd (h.inv.filed.ownIdle d c hd').symm⟩

theorem coreStep_schedule (h : StacksInv m xs) (hp : m.phase c = .checked)
    (frame : BitVec 64) (hv : Vacated m (c,.schedule frame)) :
    ∃ ys, StacksInv (coreStep m (c,.schedule frame)) ys := by
  obtain ⟨t,ht,hc⟩ := h.same c (by simp [hp]) (by simp [hp])
  obtain ⟨n,hn,hnstack,hncur⟩ := scheduleTask_vacated h hc ht frame hv
  have hno : ¬ Current (Function.update m.sched.current c none) n := by
    rintro ⟨d,hd⟩
    by_cases hdc : d = c
    · simp [hdc] at hd
    · rw [Function.update_of_ne hdc] at hd
      exact hncur d hdc hd
  obtain ⟨hcur,hrun,hst,ys,hi⟩ := scheduleTask_inv h.inv hc frame hn hno
  have he : Elsewhere c m (coreStep m (c,.schedule frame)) := by
    refine ⟨fun d hd => Function.update_of_ne hd _ _,fun _ _ => rfl,fun d hd => ?_,
      fun d u hd hu hr => ?_⟩
    · exact (congrFun hcur d).trans (Function.update_of_ne hd _ _)
    · refine (hst u ?_ ?_).trans hr
      · rintro rfl
        exact hd (h.inv.filed.inj d c u hu hc)
      · rintro rfl
        exact hncur d hd hu
  have hp' : (coreStep m (c,.schedule frame)).phase c = .leaving := Function.update_self ..
  refine ⟨ys,h.of_core he hi ht ((congrFun hcur c).trans (Function.update_self ..)) (by simp [hp'])
    (by simp [hp']) (fun _ => hrun) ?_ hnstack ?_ (fun d hd => h.ownIdle c d (hd ▸ ht)) ?_⟩
  · exact fun d hd hs => hd (h.apart d c t hs ht)
  · exact fun d hd hs => hd (h.coming d c t hs ht)
  · intro d u hu
    refine (scheduleTask_keeps hc (h.alive c t ht) frame).alive u ?_
    rw [setFrame_state]
    exact h.alive d u hu

theorem coreStep_leave (h : StacksInv m xs) (hp : m.phase c = .handler ∨ m.phase c = .leaving) :
    StacksInv (coreStep m (c,.leave)) xs := by
  obtain ⟨n,hn,halive⟩ : ∃ n, m.sched.current c = some n ∧ m.sched.state n ≠ .empty := by
    rcases hp with hp | hp
    · obtain ⟨t,ht,hc⟩ := h.same c (by simp [hp]) (by simp [hp])
      exact ⟨t,hc,h.alive c t ht⟩
    · obtain ⟨n,hn,hr⟩ := h.leaving c hp
      exact ⟨n,hn,by simp [hr]⟩
  have he : Elsewhere c m (coreStep m (c,.leave)) :=
    ⟨fun d hd => Function.update_of_ne hd _ _,fun d hd => Function.update_of_ne hd _ _,
      fun _ _ => rfl,fun _ _ _ _ hr => hr⟩
  have hp' : (coreStep m (c,.leave)).phase c = .code := Function.update_self ..
  refine h.of_core he h.inv ((Function.update_self ..).trans hn) hn (by simp [hp'])
    (fun _ => rfl) (by simp [hp']) ?_ ?_ ?_ ?_ ?_
  · exact fun d hd hs => hd (h.coming c d n hn hs).symm
  · exact fun d hd hs => hd (h.coming c d n hn hs).symm
  · exact fun d hd hs => hd (h.inv.filed.inj d c n hs hn)
  · exact fun d hd => h.inv.filed.ownIdle c d (hd ▸ hn)
  · intro d u hu
    change Function.update m.stack c (m.sched.current c) d = some u at hu
    by_cases hdc : d = c
    · subst hdc
      rw [Function.update_self,hn,Option.some.injEq] at hu
      exact hu ▸ halive
    · rw [Function.update_of_ne hdc] at hu
      exact h.alive d u hu

theorem StacksInv.not_reaped (h : StacksInv m xs) (hv : Vacated m (c,.reap)) {s' : Sched}
    {zs : List TaskRef} (hz : Reaps m.sched s' zs) {z : TaskRef} (hm : z ∈ zs) (d : SchedCore) :
    m.stack d ≠ some z := by
  intro hd
  obtain ⟨hzombie,_,hcur⟩ := hz.zombies z hm
  by_cases hoff : m.phase d = .off
  · simp [h.off d hoff] at hd
  by_cases hlv : m.phase d = .leaving
  · exact hv d hlv z hd hzombie
  · obtain ⟨u,hu,hcu⟩ := h.same d hoff hlv
    obtain rfl : u = z := Option.some.inj (hu.symm.trans hd)
    exact hcur ⟨d,hcu⟩

theorem coreStep_reap (h : StacksInv m xs) (hp : m.phase c = .handler)
    (hv : Vacated m (c,.reap)) : ∃ ys, StacksInv (coreStep m (c,.reap)) ys := by
  obtain ⟨s',zs,ys,hs,hcur,hz,hi⟩ := reaperService_inv h.inv
  simp only [coreStep,hs,Option.getD_some]
  refine ⟨ys,h.call (c := c) (by simp [hp]) (by simp [hp]) hi hcur rfl (TwoCores.phase_eq hp)
    (by simp) (fun _ n _ _ hn hr => (hz.state (.inr hn)).trans hr) fun d u hu hne => ?_⟩
  have hm : u ∉ zs := fun hm => h.not_reaped hv hz hm d hu
  simpa only [Sched.state,hz.tasks u,if_neg hm] using hne

theorem coreStep_inv (h : StacksInv m xs) {e : SchedCore × CoreStep} (hl : CoreLegal m e)
    (hv : Vacated m e) : ∃ ys, StacksInv (coreStep m e) ys := by
  obtain ⟨c,e⟩ := e
  cases e with
  | start => exact ⟨xs,coreStep_start h hl⟩
  | createTask entry exit stack =>
    obtain ⟨ys,hi⟩ := createTask_inv h.inv entry exit stack
    have hp := hl.1
    exact ⟨ys,h.call (by simp [hp]) (by simp [hp]) hi (createTask_current ..) rfl
      (TwoCores.phase_eq hp) (by simp) (fun _ _ _ _ _ => createTask_running entry exit stack)
      fun _ u _ => (createTask_keeps entry exit stack).alive u⟩
  | taskExit =>
    obtain ⟨hp,t,ht,hr,hidle⟩ := hl
    exact ⟨xs,h.call (by simp [hp]) (by simp [hp]) (taskExit_inv h.inv ht hr hidle)
      taskExit_current rfl (TwoCores.phase_eq hp) (by simp)
      (fun u n hu hn _ hrun => (taskExit_state hu hn).trans hrun)
      fun _ u _ => (taskExit_keeps c).alive u⟩
  | msleep ms now =>
    obtain ⟨hp,t,ht,hr,hidle⟩ := hl
    obtain ⟨ys,hi⟩ := msleep_inv h.inv ht hr hidle ms now
    exact ⟨ys,h.call (by simp [hp]) (by simp [hp]) hi (msleep_current ..) rfl
      (TwoCores.phase_eq hp) (by simp)
      (fun u n hu hn _ hrun => (msleep_state hu hn ms now).trans hrun)
      fun _ u _ => (msleep_keeps c ms now).alive u⟩
  | irq =>
    have hp : m.phase c = .code := hl
    exact ⟨xs,h.call (by simp [hp]) (by simp [hp]) h.inv rfl rfl rfl (by simp)
      (fun _ _ _ _ _ hr => hr) fun _ _ _ hne => hne⟩
  | check now =>
    obtain ⟨s',ys,hs,hcur,hw,hi⟩ := schedCheckTasks_inv h.inv now
    have hp : m.phase c = .handler := hl
    simp only [coreStep,hs,Option.getD_some]
    exact ⟨ys,h.call (by simp [hp]) (by simp [hp]) hi hcur rfl rfl (by simp)
      (fun _ n _ _ _ hr => (hw.state (by simp [hr])).trans hr) fun _ u _ => hw.keeps.alive u⟩
  | schedule frame => exact coreStep_schedule h hl frame hv
  | reap => exact coreStep_reap h hl hv
  | leave => exact ⟨xs,coreStep_leave h hl⟩

theorem bootCores_inv (h : BeforeInit c s) : StacksInv (bootCores c s) fun _ => [] := by
  have hcur : (s.initSched c).current c = some (.idle c) := Function.update_self ..
  have honly := fun d t => initSched_current h (d := d) (t := t)
  refine ⟨(initSched_inv h).inv,fun d hd => ?_,fun d hd _ => ?_,fun d hd => ?_,
    fun d e t hd he => ?_,fun d e t hd he => ?_,fun d e hd => ?_,fun d t hd => ?_⟩
  all_goals
    simp only [bootCores,Function.update_apply] at *
  · by_cases hdc : d = c
    · simp [hdc] at hd
    · exact ⟨if_neg hdc,(initSched_inv h).alone d hdc⟩
  · by_cases hdc : d = c
    · exact ⟨.idle c,if_pos hdc,hdc ▸ hcur⟩
    · simp [hdc] at hd
  · by_cases hdc : d = c
    · simp [hdc] at hd
    · simp [hdc] at hd
  · grind
  · have := honly d t hd
    grind
  · grind
  · rw [initSched_state]
    grind

/-- If no step takes or reaps a task that another core still has to leave, no two cores
are ever on one stack, and a reaper that may run next frees no stack in use. -/
theorem stacks_exclusive (c : SchedCore) (s : Sched) (hb : BeforeInit c s)
    (es : List (SchedCore × CoreStep))
    (h : Along coreStep (fun m e => CoreLegal m e ∧ Vacated m e) (bootCores c s) es) :
    let m := exec coreStep (bootCores c s) es
    StacksApart m ∧ (∀ now, (m.sched.schedCheckTasks now).isSome) ∧
    ∀ d, CoreLegal m (d,.reap) → Vacated m (d,.reap) → SparesStacks m := by
  intro m
  obtain ⟨xs,hm⟩ : ∃ xs, StacksInv m xs :=
    exec_invariant (I := fun m => ∃ xs, StacksInv m xs)
      (fun _ _ ⟨_,hi⟩ he => coreStep_inv hi he.1 he.2) ⟨_,bootCores_inv hb⟩ h
  refine ⟨hm.apart,fun now => ?_,fun d _ hv => ?_⟩
  · obtain ⟨s',_,hs,_⟩ := schedCheckTasks_inv hm.inv now
    simp [hs]
  · obtain ⟨s',zs,_,hs,_,hz,_⟩ := reaperService_inv hm.inv
    exact ⟨s',zs,hs,hz,fun z => hm.not_reaped hv hz⟩

/-- A task sleeps on core 0, is woken and run by core 1, exits there and is reaped by
core 0. -/
theorem stacks_exclusive_handover :
    let es : List (SchedCore × CoreStep) :=
      [(0,.createTask 0x100 0x900 0x10000),(0,.createTask 0x200 0x900 0x20000),(1,.start),
       (0,.irq),(1,.irq),(0,.check 0),(1,.check 0),(0,.schedule 0x30000),(0,.leave),
       (1,.schedule 0x40000),(0,.msleep 5 10),(1,.leave),(0,.irq),(0,.check 11),
       (0,.schedule 0x13000),(0,.leave),(1,.irq),(1,.check 20),(1,.schedule 0x23000),(1,.leave),
       (1,.taskExit),(1,.irq),(1,.check 21),(1,.schedule 0x12000),(0,.irq),(1,.leave),(0,.reap)]
    BeforeInit 0 bootSched ∧
    Along coreStep (fun m e => CoreLegal m e ∧ Vacated m e) (bootCores 0 bootSched) es ∧
    let m := exec coreStep (bootCores 0 bootSched) es
    StacksApart m ∧ (∀ now, (m.sched.schedCheckTasks now).isSome) ∧
    ∀ d, CoreLegal m (d,.reap) → Vacated m (d,.reap) → SparesStacks m := by
  intro es
  have hb : BeforeInit 0 bootSched := ⟨fun _ => rfl,fun _ _ => rfl⟩
  have hl : Along coreStep (fun m e => CoreLegal m e ∧ Vacated m e) (bootCores 0 bootSched) es := by
    decide
  exact ⟨hb,hl,stacks_exclusive 0 bootSched hb es hl⟩

theorem SparesStacks.kept (h : SparesStacks m) {z : TaskRef} (hz : m.stack c = some z)
    (hs : m.sched.state z ≠ .empty) :
    (m.sched.reaperService.map (·.state z)) ≠ some .empty := by
  obtain ⟨s',zs,hr,hreaps,hapart⟩ := h
  have hm : z ∉ zs := fun hm => hapart z hm c hz
  simpa [hr,Sched.state,hreaps.tasks z,hm] using hs

/-- Core 1 takes the task that core 0 has only put into ready_q, or frees the stack of
the one that core 0 has only put into zombie_q. -/
theorem stacks_shared :
    (¬ ∀ s es, BeforeInit 0 s → Along coreStep CoreLegal (bootCores 0 s) es →
      StacksApart (exec coreStep (bootCores 0 s) es)) ∧
    ¬ ∀ s es, BeforeInit 0 s → Along coreStep CoreLegal (bootCores 0 s) es →
      CoreLegal (exec coreStep (bootCores 0 s) es) (1,.reap) →
      SparesStacks (exec coreStep (bootCores 0 s) es) := by
  have hb : BeforeInit 0 bootSched := ⟨fun _ => rfl,fun _ _ => rfl⟩
  constructor
  · intro h
    have hapart := h bootSched
      [(0,.createTask 0x100 0x900 0x10000),(0,.createTask 0x200 0x900 0x20000),(1,.start),
       (0,.irq),(0,.check 0),(0,.schedule 0x30000),(0,.leave),(0,.irq),(0,.check 1),
       (0,.schedule 0x13000),(1,.irq),(1,.check 1),(1,.schedule 0x40000),(1,.leave)]
      hb (by decide)
    exact absurd (hapart 0 1 (.pool 1) (by decide) (by decide)) (by decide)
  · intro h
    have hspare := h bootSched
      [(0,.createTask 0x100 0x900 0x10000),(1,.start),(0,.irq),(0,.check 0),
       (0,.schedule 0x30000),(0,.leave),(0,.taskExit),(1,.irq),(0,.irq),(0,.check 1),
       (0,.schedule 0x13000)] hb (by decide) (by decide)
    exact hspare.kept (c := 0) (z := .pool 1) (by decide) (by decide) (by decide)

end Arm64

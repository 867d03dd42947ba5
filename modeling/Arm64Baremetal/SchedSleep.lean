import Arm64Baremetal.SchedZombies

/-!
msleep on one core, instruction by instruction: `yield` requests an interrupt, which may
come at once, or when msleep has long returned.
-/

set_option autoImplicit false

namespace Arm64
open Runs IntrusiveQueue

inductive SchedCall where
  | createTask (entry taskExit stack : BitVec 64)
  | taskExit
  | msleep (ms : BitVec 32)
  deriving DecidableEq

def SchedCall.yields : SchedCall → Bool
  | .createTask _ _ _ => false
  | .taskExit | .msleep _ => true

/-- Where a task is: in its own code, with sched_lock just taken, at `spin_unlock`, at the
write of the SGI, or after it. -/
inductive CodeAt where
  | own
  | locked (k : SchedCall)
  | unlock (k : SchedCall)
  | yield (k : SchedCall)
  | yielded (k : SchedCall)
  deriving DecidableEq

def CodeAt.call : CodeAt → Option SchedCall
  | .own => none
  | .locked k | .unlock k | .yield k | .yielded k => some k

/-- `clock` is what get_system_time returns. Since `t` last went into sleep_q `reached t` says
that it was the wake_tick of `t` or more, `scheduled t` that the core has taken a timer or
SCHEDULER_YIELD interrupt in `t`. `stuck` is kernel_irq that spins on sched_lock, which the
interrupted task holds. -/
structure SleepState where
  sched : Sched
  code : TaskRef → CodeAt
  clock : BitVec 64
  reached : TaskRef → Bool
  scheduled : TaskRef → Bool
  stuck : Bool

inductive SleepStep where
  | call (k : SchedCall)
  | body
  | unlock
  | yield
  | ret
  | tick (now : BitVec 64)
  | irq (iar : BitVec 32) (frame : BitVec 64)
  deriving DecidableEq

namespace SleepState

def setCode (t : TaskRef) (p : CodeAt) (m : SleepState) : SleepState :=
  { m with code := Function.update m.code t p }

/-- What a call does under sched_lock. A new task starts in its own code. -/
def run (c : SchedCore) (t : TaskRef) (k : SchedCall) (m : SleepState) : SleepState :=
  match k with
  | .createTask entry taskExit stack =>
    let m' := match m.sched.emptySlot with
      | none => m
      | some i => m.setCode (.pool i) .own
    { m' with sched := m.sched.createTask entry taskExit stack }
  | .taskExit => { m with sched := m.sched.taskExit c }
  | .msleep ms =>
    { m with
      sched := m.sched.msleep c ms m.clock
      reached := Function.update m.reached t (m.clock + ms.setWidth 64 ≤ m.clock)
      scheduled := Function.update m.scheduled t false }

def tick (now : BitVec 64) (m : SleepState) : SleepState :=
  { m with
    clock := now
    reached := fun t => m.reached t || decide ((m.sched.tasks t).wakeTick ≤ now) }

/-- After its SGI msleep returns, and task_exit waits for ever. -/
def taskStep (c : SchedCore) (t : TaskRef) (e : SleepStep) (m : SleepState) : SleepState :=
  match e, m.code t with
  | .call k, .own => m.setCode t (.locked k)
  | .body, .locked k => (m.run c t k).setCode t (.unlock k)
  | .unlock, .unlock k => m.setCode t (if k.yields then .yield k else .own)
  | .yield, .yield k => m.setCode t (.yielded k)
  | .ret, .yielded (.msleep _) => m.setCode t .own
  | _, _ => m

/-- task_exit masks interrupts around its critical section. -/
def masked (t : TaskRef) (m : SleepState) : Bool :=
  match m.code t with
  | .locked .taskExit | .unlock .taskExit => true
  | _ => false

def holdsLock (t : TaskRef) (m : SleepState) : Bool :=
  match m.code t with
  | .locked _ | .unlock _ => true
  | _ => false

/-- kernel_irq on top of the task `t`. -/
def irqStep (c : SchedCore) (t : TaskRef) (iar : BitVec 32) (frame : BitVec 64)
    (m : SleepState) : SleepState :=
  if m.masked t then m
  else if m.holdsLock t ∧ (Schedules iar ∨ iar &&& 0xFFFFFF = schedulerGc) then
    { m with stuck := true }
  else
    match kernelIrq c iar m.clock frame m.sched with
    | none => { m with stuck := true }
    | some (_,s) =>
      { m with
        sched := s
        scheduled := if Schedules iar then Function.update m.scheduled t true else m.scheduled }

end SleepState

def sleepStep (c : SchedCore) (m : SleepState) (e : SleepStep) : SleepState :=
  if m.stuck then m
  else
    match m.sched.current c, e with
    | _, .tick now => m.tick now
    | none, _ => m
    | some t, .irq iar frame => m.irqStep c t iar frame
    | some t, e => m.taskStep c t e

/-- The idle tasks, which are c_entry and sec_entry, neither sleep nor exit. -/
def SleepLegal (c : SchedCore) (m : SleepState) : SleepStep → Prop
  | .call k => k.yields → ∀ d, m.sched.current c ≠ some (.idle d)
  | .body | .unlock | .yield | .ret | .tick _ | .irq _ _ => True

/-- The task whose msleep returns in the next step, if that is `ret`. -/
def SleepState.returning (c : SchedCore) (m : SleepState) : Option TaskRef :=
  if m.stuck then none
  else
    (m.sched.current c).filter fun t =>
      match m.code t with
      | .yielded (.msleep _) => true
      | _ => false

/-- msleep returns only after the core has taken a timer or SCHEDULER_YIELD interrupt in it. -/
def Delivered (c : SchedCore) (m : SleepState) : SleepStep → Prop
  | .ret => ∀ t ∈ m.returning c, m.scheduled t = true
  | _ => True

instance (c : SchedCore) (m : SleepState) : (e : SleepStep) → Decidable (SleepLegal c m e)
  | .call _ => inferInstanceAs (Decidable (_ → ∀ _, _))
  | .body | .unlock | .yield | .ret | .tick _ | .irq _ _ => inferInstanceAs (Decidable True)

instance (c : SchedCore) (m : SleepState) : (e : SleepStep) → Decidable (Delivered c m e)
  | .ret => inferInstanceAs (Decidable (∀ t ∈ m.returning c, _))
  | .tick _ | .call _ | .body | .unlock | .yield | .irq _ _ => inferInstanceAs (Decidable True)

/-- A task returns from msleep when get_system_time has reached its wake_tick. -/
def Awake (c : SchedCore) (m : SleepState) : SleepStep → Prop
  | .ret => ∀ t ∈ m.returning c, m.reached t = true
  | _ => True

/-- The task neither executes its own code, nor the critical section of a call, while it is
linked in sleep_q. -/
def RunsUnlinked (c : SchedCore) (m : SleepState) : Prop :=
  ∃ xs, Represents m.sched.next (m.sched.queues .sleepQ) xs ∧
    ∀ t, m.sched.current c = some t → m.code t = .own ∨ (∃ k, m.code t = .locked k) → t ∉ xs

def Sleeps (c : SchedCore) (m : SleepState) (e : SleepStep) : Prop :=
  Awake c m e ∧ RunsUnlinked c (sleepStep c m e)

variable {m : SleepState} {s : Sched} {xs : QueueId → List TaskRef} {c : SchedCore} {t : TaskRef}

/-- schedule_task chooses a READY task, its own one if that was RUNNING, or the idle task. -/
theorem scheduleTask_choice (h : SchedInv s s.current xs) (hc : s.current c = some t)
    (frame : BitVec 64) {n : TaskRef} (hn : (s.scheduleTask c frame).1 = some n) :
    s.state n = .ready ∨ n = t ∧ s.state t = .running ∨ n = .idle c := by
  simp only [Sched.scheduleTask,hc,Option.some.injEq] at hn
  obtain ⟨ys,hi,_⟩ := putAway_inv (setFrame_inv h t frame) hc
  obtain ⟨hnext,_⟩ := pickNext_spec
    ((s.setTask t { s.tasks t with frame := frame }).putAway c t) c t
  rw [hnext,taskDequeue_fst hi.queues] at hn
  cases hx : ys .readyQ with
  | nil =>
    rw [hx] at hn
    exact .inr (.inr hn.symm)
  | cons u us =>
    rw [hx] at hn
    have hready := (hi.filed.ready n).mp (by rw [hx,← hn]; exact List.mem_cons_self)
    by_cases hnt : n = t
    · subst hnt
      rw [putAway_state,setFrame_state] at hready
      split at hready
      next hrun => exact .inr (.inl ⟨rfl,hrun.1⟩)
      · exact .inl hready
    · obtain ⟨_,hst⟩ := putAway_frame (s.setTask t { s.tasks t with frame := frame }) c t
      rw [hst n hnt,setFrame_state] at hready
      exact .inl hready

def Runnable (s : Sched) (t : TaskRef) : Prop := s.state t = .ready ∨ s.state t = .running

/-- What kernel_irq does to the tasks when it schedules: a sleeper is woken when it is due, the
others keep their state or go between READY and RUNNING. -/
structure Switched (c : SchedCore) (now : BitVec 64) (s s' : Sched) : Prop where
  wakeTick : ∀ u, (s'.tasks u).wakeTick = (s.tasks u).wakeTick
  state : ∀ u, s'.state u = s.state u ∨
    (s.state u = .sleeping ∧ (s.tasks u).wakeTick ≤ now ∨ Runnable s u) ∧ Runnable s' u
  current : ∀ u, s'.current c = some u → s'.state u = .running

theorem schedCheckTasks_switched (h : OneCore c s xs) (now : BitVec 64) :
    ∃ s' ys, s.schedCheckTasks now = some s' ∧ s'.current = s.current ∧ OneCore c s' ys ∧
      (∀ u, (s'.tasks u).wakeTick = (s.tasks u).wakeTick) ∧
      ∀ u, s'.state u = s.state u ∨
        s.state u = .sleeping ∧ (s.tasks u).wakeTick ≤ now ∧ s'.state u = .ready := by
  obtain ⟨s',ys,hs,hw,hone⟩ := h.checkTasks now
  obtain ⟨s'',hs',hchecked,_⟩ := schedCheckTasks_exact h.inv.queues h.inv.onStack now
  obtain rfl : s' = s'' := Option.some.inj (hs.symm.trans hs')
  have hcur : s'.current = s.current := by rw [hchecked.rest]
  refine ⟨s',ys,hs,hcur,hone,fun u => ?_,fun u => ?_⟩
  · rw [hchecked.tasks u]
    split <;> rfl
  · rw [Sched.state,hchecked.tasks u]
    split
    next hu =>
      exact .inr ⟨(h.inv.filed.sleeping u).mp hu.1,of_decide_eq_true hu.2,rfl⟩
    · exact .inl rfl

theorem scheduleTask_switched (h : OneCore c s xs) (hidle : s.state (.idle c) = .running)
    (frame now : BitVec 64) :
    ∃ ys, OneCore c (s.scheduleTask c frame).2 ys ∧
      Switched c now s (s.scheduleTask c frame).2 := by
  obtain ⟨t,ht⟩ := h.running
  obtain ⟨n,hn,_⟩ := scheduleTask_takes h.inv ht frame
  obtain ⟨hcur,hrun,hst,_⟩ := scheduleTask_inv h.inv ht frame hn (h.next_free n)
  obtain ⟨ys,hone⟩ := h.schedule frame
  have hnew : Runnable s n := by
    rcases scheduleTask_choice h.inv ht frame hn with hready | ⟨rfl,hr⟩ | rfl
    · exact .inl hready
    · exact .inr hr
    · exact .inr hidle
  refine ⟨ys,hone,fun u => ?_,fun u => ?_,fun u hu => ?_⟩
  · exact scheduleTask_field Task.wakeTick (fun _ _ => rfl) (fun _ _ => rfl) (fun _ _ => rfl) ht
      frame u
  · by_cases hun : u = n
    · subst hun
      exact .inr ⟨.inr hnew,.inr hrun⟩
    by_cases hut : u = t
    · subst hut
      rw [scheduleTask_out ht frame hn hun]
      split
      next hr =>
        refine .inr ⟨.inr (.inr hr.1),.inl ?_⟩
        rw [scheduleTask_out ht frame hn hun,if_pos hr]
      · exact .inl rfl
    · exact .inl (hst u hut hun)
  · rw [hcur,Function.update_self] at hu
    rw [← Option.some.inj hu]
    exact hrun

theorem kernelIrq_switched (h : OneCore c s xs) (hidle : s.state (.idle c) = .running)
    {iar : BitVec 32} (hi : Schedules iar) (now frame : BitVec 64) :
    ∃ f s' ys, kernelIrq c iar now frame s = some (f,s') ∧ OneCore c s' ys ∧
      Switched c now s s' := by
  obtain ⟨s₁,ys,hs₁,_,h₁,hwake,hstate⟩ := schedCheckTasks_switched h now
  have hidle₁ : s₁.state (.idle c) = .running := by
    rcases hstate (.idle c) with hs | ⟨hs,_⟩
    · exact hs.trans hidle
    · exact absurd (hidle.symm.trans hs) (by decide)
  obtain ⟨zs,h₂,hsw⟩ := scheduleTask_switched h₁ hidle₁ frame now
  refine ⟨_,_,zs,by rw [kernelIrq_schedules hi,hs₁,Option.map_some]; rfl,h₂,
    fun u => (hsw.wakeTick u).trans (hwake u),fun u => ?_,hsw.current⟩
  have hback : Runnable s₁ u → s.state u = .sleeping ∧ (s.tasks u).wakeTick ≤ now ∨
      Runnable s u := by
    intro hr
    rcases hstate u with hs | ⟨hs,hdue,_⟩
    · exact .inr (by rwa [Runnable,hs] at hr)
    · exact .inl ⟨hs,hdue⟩
  rcases hsw.state u with hs₂ | ⟨hr | hr,hr'⟩
  · rcases hstate u with hs | ⟨hs,hdue,hready⟩
    · exact .inl (hs₂.trans hs)
    · exact .inr ⟨.inl ⟨hs,hdue⟩,.inl (hs₂.trans hready)⟩
  · refine .inr ⟨?_,hr'⟩
    rcases hstate u with hs | ⟨hs,hdue,_⟩
    · exact .inl ⟨hs.symm.trans hr.1,hwake u ▸ hr.2⟩
    · exact .inl ⟨hs,hdue⟩
  · exact .inr ⟨hback hr,hr'⟩

theorem kernelIrq_other (h : OneCore c s xs) {iar : BitVec 32} (hi : ¬ Schedules iar)
    (now frame : BitVec 64) :
    ∃ f s' ys, kernelIrq c iar now frame s = some (f,s') ∧ OneCore c s' ys ∧
      s'.current = s.current ∧
      ∀ u, s'.tasks u = s.tasks u ∨
        s.state u = .zombie ∧ ¬ Current s.current u ∧ s'.state u = .empty := by
  have hi' : ¬ (iar &&& 0xFFFFFF = cntpIntid ∨ iar &&& 0xFFFFFF = schedulerYield) := hi
  have hemit : ∀ i, OneCore c (s.emit i) xs := fun i =>
    ⟨⟨h.inv.queues,h.inv.filed,h.inv.onStack⟩,h.running,h.alone⟩
  simp only [kernelIrq,if_neg hi']
  split
  · exact ⟨_,_,xs,rfl,h,rfl,fun _ => .inl rfl⟩
  split
  · obtain ⟨s',ys,hs,hone⟩ := h.reaper
    obtain ⟨s'',hs',hswept,_⟩ := reaperService_exact h.inv.queues h.inv.onStack
    obtain rfl : s' = s'' := Option.some.inj (hs.symm.trans hs')
    refine ⟨frame,s',ys,by rw [hs]; rfl,hone,hswept.swept.current,fun u => ?_⟩
    by_cases hu : u ∈ xs .zombieQ ∧ s.released u
    · obtain ⟨hz,hno⟩ := (h.inv.filed.zombie u).mp hu.1
      refine .inr ⟨hz,hno,?_⟩
      rw [Sched.state,hswept.swept.tasks u,if_pos hu]
      rfl
    · exact .inl ((hswept.swept.tasks u).trans (if_neg hu))
  split
  · exact ⟨_,_,xs,rfl,hemit _,rfl,fun _ => .inl rfl⟩
  · exact ⟨_,_,xs,rfl,hemit _,rfl,fun _ => .inl rfl⟩

/-- The call whose critical section a task has left behind, and not yet returned from. -/
def CodeAt.done : CodeAt → Option SchedCall
  | .own | .locked _ => none
  | .unlock k | .yield k | .yielded k => some k

structure Asleep (c : SchedCore) (m : SleepState) (t : TaskRef) : Prop where
  live : m.sched.state t = .sleeping ∨ Runnable m.sched t
  due : (m.sched.tasks t).wakeTick ≤ m.clock → m.reached t = true
  woken : m.sched.state t ≠ .sleeping → m.reached t = true
  untaken : m.scheduled t = false → m.sched.state t = .sleeping ∧ m.sched.current c = some t
  taken : m.scheduled t = true → m.sched.current c = some t → m.sched.state t ≠ .sleeping

def Unslept (s : Sched) (t : TaskRef) : Prop := s.state t ≠ .sleeping ∧ s.state t ≠ .zombie

def Exited (s : Sched) (t : TaskRef) : Prop := s.state t = .zombie ∨ s.state t = .empty

def CodeOk (c : SchedCore) (m : SleepState) (t : TaskRef) (p : CodeAt) : Prop :=
  match p.done with
  | none | some (.createTask _ _ _) => Unslept m.sched t
  | some .taskExit => Exited m.sched t
  | some (.msleep _) => Asleep c m t

theorem CodeOk.map {m' : SleepState} {p : CodeAt} (h : CodeOk c m t p)
    (hu : Unslept m.sched t → Unslept m'.sched t) (he : Exited m.sched t → Exited m'.sched t)
    (ha : Asleep c m t → Asleep c m' t) : CodeOk c m' t p := by
  unfold CodeOk at h ⊢
  generalize p.done = k at h ⊢
  rcases k with _ | ⟨_ | _ | _⟩
  · exact hu h
  · exact hu h
  · exact he h
  · exact ha h

theorem CodeOk.congr {m' : SleepState} {p : CodeAt} (h : CodeOk c m t p)
    (ht : m'.sched.tasks t = m.sched.tasks t) (hcur : m'.sched.current = m.sched.current)
    (hs : m'.scheduled t = m.scheduled t) (hreached : m.reached t = true → m'.reached t = true)
    (hdue : (m.sched.tasks t).wakeTick ≤ m'.clock →
      ((m.sched.tasks t).wakeTick ≤ m.clock → m.reached t = true) → m'.reached t = true) :
    CodeOk c m' t p := by
  have hst : m'.sched.state t = m.sched.state t := by
    rw [Sched.state,ht]
    rfl
  refine h.map ?_ ?_ fun ha => ⟨?_,fun hw => ?_,fun hn => ?_,?_,?_⟩
  · unfold Unslept
    rw [hst]
    exact id
  · unfold Exited
    rw [hst]
    exact id
  · unfold Runnable
    rw [hst]
    exact ha.live
  · rw [ht] at hw
    exact hdue hw ha.due
  · rw [hst] at hn
    exact hreached (ha.woken hn)
  · rw [hst,hs,hcur]
    exact ha.untaken
  · rw [hst,hs,hcur]
    exact ha.taken

structure SleepInv (c : SchedCore) (m : SleepState) (xs : QueueId → List TaskRef) : Prop where
  one : OneCore c m.sched xs
  idle : m.sched.state (.idle c) = .running
  current : ∀ t, m.sched.current c = some t → m.sched.state t ≠ .ready ∧ m.sched.state t ≠ .empty
  calls : ∀ d k, (m.code (.idle d)).call = some k → k.yields = false
  code : ∀ t, CodeOk c m t (m.code t)

theorem SleepInv.running (h : SleepInv c m xs) (hc : m.sched.current c = some t)
    (ht : (m.code t).done = none) : m.sched.state t = .running := by
  have hok := h.code t
  obtain ⟨hready,hempty⟩ := h.current t hc
  simp only [CodeOk,ht,Unslept] at hok
  cases hs : m.sched.state t <;> simp [hs] at hok hready hempty ⊢

theorem SleepInv.of_code (h : SleepInv c m xs) {m' : SleepState} (hs : m'.sched = m.sched)
    (hclock : m'.clock = m.clock) (hreached : m'.reached = m.reached)
    (hsched : m'.scheduled = m.scheduled)
    (hcalls : ∀ d k, (m'.code (.idle d)).call = some k → k.yields = false)
    (hcode : ∀ u, m'.code u = m.code u ∨ CodeOk c m u (m'.code u)) : SleepInv c m' xs := by
  refine ⟨hs ▸ h.one,hs ▸ h.idle,hs ▸ h.current,hcalls,fun u => ?_⟩
  have hok : CodeOk c m u (m'.code u) := (hcode u).elim (fun hu => hu ▸ h.code u) id
  exact hok.congr (by rw [hs]) (by rw [hs]) (by rw [hsched]) (hreached ▸ id)
    fun hw hd => hreached ▸ hd (hclock ▸ hw)

theorem SleepInv.tick (h : SleepInv c m xs) (now : BitVec 64) : SleepInv c (m.tick now) xs := by
  refine ⟨h.one,h.idle,h.current,h.calls,fun u => ?_⟩
  refine (h.code u).congr rfl rfl rfl (fun hr => ?_) fun hw _ => ?_
  · simp [SleepState.tick,hr]
  · simp only [SleepState.tick] at hw
    simp [SleepState.tick,hw]

theorem SleepInv.setCode (h : SleepInv c m xs) {p : CodeAt} (hp : CodeOk c m t p)
    (hidle : ∀ d k, t = .idle d → p.call = some k → k.yields = false) :
    SleepInv c (m.setCode t p) xs := by
  refine h.of_code rfl rfl rfl rfl (fun d k hk => ?_) fun u => ?_
  · simp only [SleepState.setCode] at hk
    by_cases hd : .idle d = t
    · rw [hd,Function.update_self] at hk
      exact hidle d k hd.symm hk
    · rw [Function.update_of_ne hd] at hk
      exact h.calls d k hk
  · simp only [SleepState.setCode]
    by_cases hu : u = t
    · rw [hu,Function.update_self]
      exact .inr hp
    · exact .inl (Function.update_of_ne hu _ _)

theorem SleepInv.switch (h : SleepInv c m xs) (hc : m.sched.current c = some t) {s : Sched}
    {ys : QueueId → List TaskRef} (hone : OneCore c s ys)
    (hsw : Switched c m.clock m.sched s) :
    SleepInv c { m with sched := s, scheduled := Function.update m.scheduled t true } ys := by
  have hidle : s.state (.idle c) = .running := by
    rcases hsw.state (.idle c) with hs | ⟨_,hs⟩
    · exact hs.trans h.idle
    · rcases hone.inv.filed.idle c with hr | he
      · exact hr
      · rcases hs with hs | hs <;> simp [he] at hs
  refine ⟨hone,hidle,fun u hu => ?_,h.calls,fun u => (h.code u).map ?_ ?_ fun ha => ?_⟩
  · have hrun : s.state u = .running := hsw.current u hu
    change s.state u ≠ _ ∧ s.state u ≠ _
    rw [hrun]
    decide
  · intro hu
    rcases hsw.state u with hs | ⟨_,hs | hs⟩
    · unfold Unslept
      rwa [hs]
    · simp [Unslept,hs]
    · simp [Unslept,hs]
  · intro hu
    rcases hsw.state u with hs | ⟨(⟨hs,_⟩ | hs | hs),_⟩
    · unfold Exited
      rwa [hs]
    · rcases hu with hz | hz <;> simp [hz] at hs
    · rcases hu with hz | hz <;> simp [hz] at hs
    · rcases hu with hz | hz <;> simp [hz] at hs
  · refine ⟨?_,fun hw => ?_,fun hn => ?_,fun hn => ?_,fun _ hu => ?_⟩
    · rcases hsw.state u with hs | ⟨_,hs⟩
      · unfold Runnable
        rw [hs]
        exact ha.live
      · exact .inr hs
    · change (s.tasks u).wakeTick ≤ m.clock at hw
      rw [hsw.wakeTick u] at hw
      exact ha.due hw
    · rcases hsw.state u with hs | ⟨(⟨_,hdue⟩ | hr),_⟩
      · exact ha.woken (hs ▸ hn)
      · exact ha.due hdue
      · refine ha.woken ?_
        rcases hr with hr | hr <;> simp [hr]
    · -- the only task that has not been interrupted is the current one, which now is
      exfalso
      by_cases hut : u = t
      · simp [hut] at hn
      · simp only [Function.update_of_ne hut] at hn
        exact hut (Option.some.inj ((ha.untaken hn).2.symm.trans hc))
    · have hrun : s.state u = .running := hsw.current u hu
      change s.state u ≠ _
      simp [hrun]

theorem SleepInv.reap (h : SleepInv c m xs) {s : Sched} {ys : QueueId → List TaskRef}
    (hone : OneCore c s ys) (hcur : s.current = m.sched.current)
    (htasks : ∀ u, s.tasks u = m.sched.tasks u ∨
      m.sched.state u = .zombie ∧ ¬ Current m.sched.current u ∧ s.state u = .empty) :
    SleepInv c { m with sched := s } ys := by
  have hsame : ∀ u, m.sched.state u ≠ .zombie → s.tasks u = m.sched.tasks u := fun u hu =>
    (htasks u).resolve_right fun hz => hu hz.1
  have hstate : ∀ u, m.sched.state u ≠ .zombie → s.state u = m.sched.state u := fun u hu => by
    rw [Sched.state,hsame u hu]
    rfl
  refine ⟨hone,?_,fun u hu => ?_,h.calls,fun u => (h.code u).map ?_ ?_ fun ha => ?_⟩
  · exact (hstate _ (by rw [h.idle]; decide)).trans h.idle
  · change s.current c = some u at hu
    rw [hcur] at hu
    change (s.tasks u).state ≠ _ ∧ (s.tasks u).state ≠ _
    rw [(htasks u).resolve_right fun hz => hz.2.1 ⟨c,hu⟩]
    exact h.current u hu
  · intro hu
    unfold Unslept
    rwa [hstate u hu.2]
  · intro hu
    rcases htasks u with hs | ⟨_,_,hs⟩
    · unfold Exited Sched.state
      rw [hs]
      exact hu
    · exact .inr hs
  · have hz : m.sched.state u ≠ .zombie := by
      rcases ha.live with hs | hs | hs <;> simp [hs]
    refine ⟨?_,fun hw => ?_,fun hn => ?_,fun hn => ?_,fun hn hu => ?_⟩
    · unfold Runnable
      rw [hstate u hz]
      exact ha.live
    · change (s.tasks u).wakeTick ≤ m.clock at hw
      rw [hsame u hz] at hw
      exact ha.due hw
    · change s.state u ≠ _ at hn
      rw [hstate u hz] at hn
      exact ha.woken hn
    · change s.state u = _ ∧ s.current c = _
      rw [hstate u hz,hcur]
      exact ha.untaken hn
    · change s.state u ≠ _
      change s.current c = _ at hu
      rw [hstate u hz]
      rw [hcur] at hu
      exact ha.taken hn hu

theorem SleepInv.irq (h : SleepInv c m xs) (hc : m.sched.current c = some t) (iar : BitVec 32)
    (frame : BitVec 64) : ∃ ys, SleepInv c (m.irqStep c t iar frame) ys := by
  unfold SleepState.irqStep
  split
  · exact ⟨xs,h⟩
  split
  · exact ⟨xs,h.of_code rfl rfl rfl rfl h.calls fun _ => .inl rfl⟩
  · by_cases hi : Schedules iar
    · obtain ⟨f,s,ys,hs,hone,hsw⟩ := kernelIrq_switched h.one h.idle hi m.clock frame
      simp only [hs,if_pos hi]
      exact ⟨ys,h.switch hc hone hsw⟩
    · obtain ⟨f,s,ys,hs,hone,hcur,htasks⟩ := kernelIrq_other h.one hi m.clock frame
      simp only [hs,if_neg hi]
      exact ⟨ys,h.reap hone hcur htasks⟩

theorem SleepInv.of_call (h : SleepInv c m xs) {m' : SleepState} {ys : QueueId → List TaskRef}
    (hone : OneCore c m'.sched ys) (hcur : m'.sched.current = m.sched.current)
    (hclock : m'.clock = m.clock) {v : TaskRef} (hv : ∀ d, v ≠ .idle d)
    (hsame : ∀ u, u ≠ v → m'.sched.tasks u = m.sched.tasks u ∧ m'.code u = m.code u ∧
      m'.scheduled u = m.scheduled u ∧ m'.reached u = m.reached u)
    (hcode : CodeOk c m' v (m'.code v))
    (hstate : m'.sched.state v ≠ .ready ∧ m'.sched.state v ≠ .empty ∨
      m.sched.current c ≠ some v) : SleepInv c m' ys := by
  have hst : ∀ u, u ≠ v → m'.sched.state u = m.sched.state u := fun u hu => by
    rw [Sched.state,(hsame u hu).1]
    rfl
  refine ⟨hone,(hst _ fun he => hv c he.symm).trans h.idle,fun u hu => ?_,fun d k hk => ?_,
    fun u => ?_⟩
  · rw [hcur] at hu
    by_cases huv : u = v
    · exact huv ▸ hstate.resolve_right fun hn => hn (huv ▸ hu)
    · rw [hst u huv]
      exact h.current u hu
  · rw [(hsame (.idle d) fun he => hv d he.symm).2.1] at hk
    exact h.calls d k hk
  · by_cases huv : u = v
    · exact huv ▸ hcode
    · obtain ⟨htasks,hcu,hsu,hru⟩ := hsame u huv
      rw [hcu]
      exact (h.code u).congr htasks hcur hsu (hru ▸ id) fun hw hd => hru ▸ hd (hclock ▸ hw)

theorem SleepInv.create (h : SleepInv c m xs) (hc : m.sched.current c = some t)
    (ht : m.sched.state t = .running) (entry exit stack : BitVec 64) :
    ∃ ys, SleepInv c (m.run c t (.createTask entry exit stack)) ys := by
  have hl : SchedLegal c m.sched (.createTask entry exit stack) := ⟨t,hc,ht⟩
  obtain ⟨s',ys,hs,hone⟩ := schedOp_inv h.one hl
  obtain rfl : m.sched.createTask entry exit stack = s' := Option.some.inj hs
  have hcur := createTask_current (s := m.sched) entry exit stack
  rcases createTask_tasks (s := m.sched) entry exit stack with ⟨i,hi,htasks⟩ | ⟨hi,htasks⟩
  · have hempty : m.sched.state (.pool i) = .empty := emptySlot_state hi
    have hnew : (m.sched.createTask entry exit stack).state (.pool i) = .ready := by
      rw [Sched.state,htasks,Function.update_self]
      rfl
    simp only [SleepState.run,hi]
    refine ⟨ys,h.of_call (v := .pool i) hone hcur rfl (by simp) (fun u hu => ?_) ?_ (.inr ?_)⟩
    · exact ⟨by rw [htasks,Function.update_of_ne hu],Function.update_of_ne hu _ _,rfl,rfl⟩
    · simp only [SleepState.setCode,Function.update_self]
      change Unslept (m.sched.createTask entry exit stack) _
      simp [Unslept,hnew]
    · intro he
      exact (h.current _ he).2 hempty
  · simp only [SleepState.run,hi]
    have hst : (m.sched.createTask entry exit stack).state = m.sched.state := by
      funext u
      rw [Sched.state,htasks]
      rfl
    refine ⟨ys,hone,by rw [hst]; exact h.idle,fun u hu => ?_,h.calls,fun u => ?_⟩
    · rw [hst]
      exact h.current u (hcur ▸ hu)
    · exact (h.code u).congr (congrFun htasks u) hcur rfl id fun hw hd => hd hw

theorem SleepInv.exit (h : SleepInv c m xs) (hc : m.sched.current c = some t)
    (ht : m.sched.state t = .running) (hp : ∀ d, t ≠ .idle d) :
    ∃ ys, SleepInv c ((m.run c t .taskExit).setCode t (.unlock .taskExit)) ys := by
  have hl : SchedLegal c m.sched .taskExit := ⟨t,hc,ht,hp⟩
  obtain ⟨s',ys,hs,hone⟩ := schedOp_inv h.one hl
  obtain rfl : m.sched.taskExit c = s' := Option.some.inj hs
  have htasks : (m.sched.taskExit c).tasks = Function.update m.sched.tasks t
      { m.sched.tasks t with state := .zombie } := by
    simp only [Sched.taskExit,hc]
    rfl
  have hz : (m.sched.taskExit c).state t = .zombie := by
    rw [Sched.state,htasks,Function.update_self]
  refine ⟨ys,h.of_call hone taskExit_current rfl hp (fun u hu => ?_) ?_ (.inl ?_)⟩
  · exact ⟨(congrFun htasks u).trans (Function.update_of_ne hu _ _),Function.update_of_ne hu _ _,
      rfl,rfl⟩
  · simp only [SleepState.setCode,Function.update_self]
    exact .inl hz
  · change (m.sched.taskExit c).state t ≠ _ ∧ (m.sched.taskExit c).state t ≠ _
    rw [hz]
    decide

theorem SleepInv.sleep (h : SleepInv c m xs) (hc : m.sched.current c = some t)
    (ht : m.sched.state t = .running) (hp : ∀ d, t ≠ .idle d) (ms : BitVec 32) :
    ∃ ys, SleepInv c ((m.run c t (.msleep ms)).setCode t (.unlock (.msleep ms))) ys := by
  have hl : SchedLegal c m.sched (.msleep ms m.clock) := ⟨t,hc,ht,hp⟩
  obtain ⟨s',ys,hs,hone⟩ := schedOp_inv h.one hl
  obtain rfl : m.sched.msleep c ms m.clock = s' := Option.some.inj hs
  have htasks : (m.sched.msleep c ms m.clock).tasks = Function.update m.sched.tasks t
      { m.sched.tasks t with wakeTick := m.clock + ms.setWidth 64, state := .sleeping } := by
    simp only [Sched.msleep,hc]
    rfl
  have hsl : (m.sched.msleep c ms m.clock).state t = .sleeping := by
    rw [Sched.state,htasks,Function.update_self]
  have hcur := msleep_current (s := m.sched) (c := c) ms m.clock
  refine ⟨ys,h.of_call hone hcur rfl hp (fun u hu => ?_) ?_ (.inl ?_)⟩
  · exact ⟨(congrFun htasks u).trans (Function.update_of_ne hu _ _),Function.update_of_ne hu _ _,
      Function.update_of_ne hu _ _,Function.update_of_ne hu _ _⟩
  · simp only [SleepState.setCode,Function.update_self]
    refine ⟨.inl hsl,fun hw => ?_,fun hn => absurd hsl hn,
      fun _ => ⟨hsl,(congrFun hcur c).trans hc⟩,fun hn => ?_⟩
    · change ((m.sched.msleep c ms m.clock).tasks t).wakeTick ≤ m.clock at hw
      rw [htasks,Function.update_self] at hw
      simpa [SleepState.run] using hw
    · simp [SleepState.run] at hn
  · change (m.sched.msleep c ms m.clock).state t ≠ _ ∧ (m.sched.msleep c ms m.clock).state t ≠ _
    rw [hsl]
    decide

theorem returning_eq_some : m.returning c = some t ↔ m.stuck = false ∧
    m.sched.current c = some t ∧ ∃ ms, m.code t = .yielded (.msleep ms) := by
  unfold SleepState.returning
  cases hs : m.stuck with
  | true => simp
  | false =>
    simp only [Bool.false_eq_true,if_false,true_and]
    rw [Option.filter_eq_some_iff]
    refine and_congr_right fun _ => ?_
    constructor
    · intro h
      split at h
      next ms he => exact ⟨ms,he⟩
      · contradiction
    · rintro ⟨ms,he⟩
      simp [he]

theorem SleepInv.body (h : SleepInv c m xs) (hc : m.sched.current c = some t) {k : SchedCall}
    (hk : m.code t = .locked k) :
    ∃ ys, SleepInv c ((m.run c t k).setCode t (.unlock k)) ys := by
  have ht : m.sched.state t = .running := h.running hc (by rw [hk]; rfl)
  have hp : k.yields = true → ∀ d, t ≠ .idle d := by
    rintro hy d rfl
    have := h.calls d k (by rw [hk]; rfl)
    simp [hy] at this
  cases k with
  | createTask entry exit stack =>
    obtain ⟨ys,hi⟩ := h.create hc ht entry exit stack
    have hrun := (createTask_running (s := m.sched) entry exit stack ht)
    have hsched : (m.run c t (.createTask entry exit stack)).sched =
        m.sched.createTask entry exit stack := rfl
    refine ⟨ys,hi.setCode ?_ fun d k' _ hk' => ?_⟩
    · change Unslept _ t
      rw [hsched]
      simp [Unslept,hrun]
    · obtain rfl := Option.some.inj hk'
      rfl
  | taskExit => exact h.exit hc ht (hp rfl)
  | msleep ms => exact h.sleep hc ht (hp rfl) ms

theorem SleepInv.taskStep (h : SleepInv c m xs) (hc : m.sched.current c = some t) {e : SleepStep}
    (hl : SleepLegal c m e) (hd : Delivered c m e) (hs : m.stuck = false) :
    ∃ ys, SleepInv c (m.taskStep c t e) ys := by
  have hok := h.code t
  have hcalls : ∀ d k, t = .idle d → (m.code t).call = some k → k.yields = false := by
    rintro d k rfl hk
    exact h.calls d k hk
  unfold SleepState.taskStep
  split
  next k hcode =>
    rw [hcode] at hok
    refine ⟨xs,h.setCode hok fun d k' hd hk' => ?_⟩
    obtain rfl := Option.some.inj hk'
    by_contra hy
    exact hl (by simpa using hy) d (hd ▸ hc)
  next k hcode => exact h.body hc hcode
  next k hcode =>
    rw [hcode] at hok hcalls
    refine ⟨xs,h.setCode ?_ fun d k' hd hk' => ?_⟩
    · cases k with
      | createTask entry exit stack => exact hok
      | taskExit => exact hok
      | msleep ms => exact hok
    · split at hk'
      · exact hcalls d k' hd hk'
      · contradiction
  next k hcode =>
    rw [hcode] at hok hcalls
    exact ⟨xs,h.setCode hok fun d k' hd hk' => hcalls d k' hd hk'⟩
  next ms hcode =>
    rw [hcode] at hok
    have ha : Asleep c m t := hok
    have hret : m.returning c = some t := returning_eq_some.mpr ⟨hs,hc,ms,hcode⟩
    refine ⟨xs,h.setCode ⟨ha.taken (hd t hret) hc,?_⟩ fun d k' _ hk' => ?_⟩
    on_goal 2 => exact absurd hk' (by simp [CodeAt.call])
    rcases ha.live with hl | hl | hl <;> simp [hl]
  · exact ⟨xs,h⟩

theorem sleepStep_inv (h : ∃ xs, SleepInv c m xs) (e : SleepStep) (hl : SleepLegal c m e)
    (hd : Delivered c m e) : ∃ xs, SleepInv c (sleepStep c m e) xs := by
  obtain ⟨xs,h⟩ := h
  unfold sleepStep
  split
  · exact ⟨xs,h⟩
  next hs =>
    split
    · exact ⟨xs,h.tick _⟩
    · exact ⟨xs,h⟩
    next t iar frame hc => exact h.irq hc iar frame
    next t hc _ _ => exact h.taskStep hc hl hd (by simpa using hs)

theorem SleepInv.unlinked (h : SleepInv c m xs) : RunsUnlinked c m := by
  refine ⟨_,h.one.inv.queues.represents .sleepQ,fun t hc ht hm => ?_⟩
  have hrun : m.sched.state t = .running := by
    rcases ht with ht | ⟨k,ht⟩ <;> exact h.running hc (by rw [ht]; rfl)
  exact absurd (hrun.symm.trans ((h.one.inv.filed.sleeping t).mp hm)) (by decide)

theorem ret_eq (hret : m.returning c = some t) : sleepStep c m .ret = m.setCode t .own := by
  obtain ⟨hs,hc,ms,hcode⟩ := returning_eq_some.mp hret
  simp only [sleepStep,hs,hc,SleepState.taskStep,hcode,Bool.false_eq_true,if_false]

/-- When msleep returns with no interrupt taken, the task is still in sleep_q. -/
theorem SleepInv.linked (h : SleepInv c m xs) (hret : m.returning c = some t)
    (ht : m.scheduled t = false) : ¬ RunsUnlinked c (sleepStep c m .ret) := by
  obtain ⟨_,hc,ms,hcode⟩ := returning_eq_some.mp hret
  have ha : Asleep c m t := by
    have hok := h.code t
    rw [hcode] at hok
    exact hok
  rw [ret_eq hret]
  rintro ⟨ys,hys,hno⟩
  obtain rfl := (h.one.inv.queues.represents .sleepQ).unique hys
  refine hno t hc (.inl (Function.update_self ..)) ?_
  exact (h.one.inv.filed.sleeping t).mpr (ha.untaken ht).1

theorem delivered_iff (h : ∃ xs, SleepInv c m xs) (e : SleepStep) (hl : SleepLegal c m e) :
    Delivered c m e ↔ Sleeps c m e := by
  constructor
  · intro hd
    obtain ⟨ys,h'⟩ := sleepStep_inv h e hl hd
    refine ⟨?_,h'.unlinked⟩
    cases e with
    | ret =>
      intro t hret
      obtain ⟨xs,h⟩ := h
      obtain ⟨_,hc,ms,hcode⟩ := returning_eq_some.mp hret
      have ha : Asleep c m t := by
        have hok := h.code t
        rw [hcode] at hok
        exact hok
      exact ha.woken (ha.taken (hd t hret) hc)
    | call k => trivial
    | body => trivial
    | unlock => trivial
    | yield => trivial
    | tick now => trivial
    | irq iar frame => trivial
  · intro hs
    cases e with
    | ret =>
      intro t hret
      obtain ⟨xs,h⟩ := h
      by_contra ht
      exact h.linked hret (by simpa using ht) hs.2
    | call k => trivial
    | body => trivial
    | unlock => trivial
    | yield => trivial
    | tick now => trivial
    | irq iar frame => trivial

def bootSleep (c : SchedCore) (s : Sched) (clock : BitVec 64) : SleepState where
  sched := s.initSched c
  code _ := .own
  clock := clock
  reached _ := false
  scheduled _ := false
  stuck := false

theorem boot_sleepInv (h : BeforeInit c s) (clock : BitVec 64) :
    SleepInv c (bootSleep c s clock) fun _ => [] := by
  have hst := initSched_state s c
  refine ⟨initSched_inv h,by rw [bootSleep,hst,if_pos rfl],fun t ht => ?_,
    fun d k hk => absurd hk (by simp [bootSleep,CodeAt.call]),fun t => ?_⟩
  · obtain ⟨_,rfl⟩ := initSched_current h ht
    rw [bootSleep,hst,if_pos rfl]
    decide
  · change Unslept (s.initSched c) t
    rw [Unslept,hst]
    split <;> decide

/-- msleep sleeps until its wake_tick, and no task runs while it is linked in sleep_q, if and
only if each msleep is interrupted by the timer or SCHEDULER_YIELD before it returns. -/
theorem msleep_sleeps_iff (c : SchedCore) (s : Sched) (h : BeforeInit c s) (clock : BitVec 64)
    (es : List SleepStep) (hl : Along (sleepStep c) (SleepLegal c) (bootSleep c s clock) es) :
    Along (sleepStep c) (Delivered c) (bootSleep c s clock) es ↔
      Along (sleepStep c) (Sleeps c) (bootSleep c s clock) es :=
  along_iff (I := fun m => ∃ xs, SleepInv c m xs) (fun _ e hi hl hd => sleepStep_inv hi e hl hd)
    (fun _ e hi hl => delivered_iff hi e hl) ⟨_,boot_sleepInv h clock⟩ hl

/-- A task sleeps for 5 ms, and the timer wakes it; SCHEDULER_YIELD comes right after its SGI. -/
theorem msleep_sleeps_interrupted :
    let es : List SleepStep :=
      [.call (.createTask 0x100 0x900 0x10000),.body,.unlock,.irq 30 0x30000,.call (.msleep 5),
       .body,.tick 1,.unlock,.yield,.irq 8 0x12000,.tick 5,.irq 30 0x30000,.ret,.call .taskExit]
    Along (sleepStep 0) (SleepLegal 0) (bootSleep 0 bootSched 0) es ∧
    Along (sleepStep 0) (Delivered 0) (bootSleep 0 bootSched 0) es ∧
    (exec (sleepStep 0) (bootSleep 0 bootSched 0) es).code (.pool 1) = .locked .taskExit ∧
    Along (sleepStep 0) (Sleeps 0) (bootSleep 0 bootSched 0) es := by
  intro es
  have hb : BeforeInit 0 bootSched := ⟨fun _ => rfl,fun _ _ => rfl⟩
  have hl : Along (sleepStep 0) (SleepLegal 0) (bootSleep 0 bootSched 0) es := by decide +kernel
  have hd : Along (sleepStep 0) (Delivered 0) (bootSleep 0 bootSched 0) es := by decide +kernel
  exact ⟨hl,hd,by decide +kernel,(msleep_sleeps_iff 0 bootSched hb 0 es hl).mp hd⟩

/-- msleep returns at once, one second early: the SGI of yield has not been taken yet. The task
runs while it is in sleep_q. -/
theorem msleep_returns_early :
    let es : List SleepStep :=
      [.call (.createTask 0x100 0x900 0x10000),.body,.unlock,.irq 30 0x30000,.call (.msleep 1000),
       .body,.unlock,.yield]
    let m := exec (sleepStep 0) (bootSleep 0 bootSched 0) es
    Along (sleepStep 0) (SleepLegal 0) (bootSleep 0 bootSched 0) (es ++ [.ret]) ∧
    m.returning 0 = some (.pool 1) ∧ m.clock < (m.sched.tasks (.pool 1)).wakeTick ∧
    ((sleepStep 0 m .ret).sched.queues .sleepQ).head = some (.pool 1) ∧
    ¬ Along (sleepStep 0) (Sleeps 0) (bootSleep 0 bootSched 0) (es ++ [.ret]) := by
  intro es m
  have hret : m.returning 0 = some (.pool 1) := by decide +kernel
  refine ⟨by decide +kernel,hret,by decide +kernel,by decide +kernel,fun h => ?_⟩
  rw [along_append] at h
  exact absurd (h.2.1.1 _ hret) (by decide +kernel)

end Arm64

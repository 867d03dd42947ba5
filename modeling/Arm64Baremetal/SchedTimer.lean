import Arm64Baremetal.SchedFairness
import Arm64Baremetal.SystemTime

/-!
generic_timer.h under the scheduler: sched_enable arms the EL1 physical timer, and kernel_irq arms
it again. Time is cntpct_el0, a natural number that only grows.
-/

set_option autoImplicit false

namespace Arm64
open Runs IntrusiveQueue

def cntpCtlEnable : BitVec 32 := 1 <<< 0
def cntpCtlImask : BitVec 32 := 1 <<< 1

/-- What main and init_sec_core of EL3 write to cntfrq_el0. -/
def cntfrq : BitVec 64 := 65000000

def schedulerTick : BitVec 32 := 10

/-- cntp_ctl_el0 and cntp_cval_el0 of the core. -/
structure Timer where
  ctl : BitVec 32
  cval : BitVec 64

namespace Timer

def timerEnable (t : Timer) : Timer := { t with ctl := t.ctl ||| cntpCtlEnable }

def timerDisable (t : Timer) : Timer := { t with ctl := t.ctl &&& ~~~cntpCtlEnable }

def timerEnableInterrupts (t : Timer) : Timer := { t with ctl := t.ctl &&& ~~~cntpCtlImask }

def timerDisableInterrupts (t : Timer) : Timer := { t with ctl := t.ctl ||| cntpCtlImask }

/-- A write to cntp_tval_el0, of which the low 32 bits count, with their sign. -/
def writeTval (count val : BitVec 64) (t : Timer) : Timer :=
  { t with cval := count + (val.setWidth 32).signExtend 64 }

def timerCountdown (freq count : BitVec 64) (ms : BitVec 32) (t : Timer) : Timer :=
  t.writeTval count (freq * ms.setWidth 64 / 1000)

/-- The timer part of sched_enable. -/
def schedEnable (count : BitVec 64) (t : Timer) : Timer :=
  ((t.timerCountdown cntfrq count schedulerTick).timerEnableInterrupts).timerEnable

def schedDisable (t : Timer) : Timer := t.timerDisableInterrupts.timerDisable

/-- The calls of kernel_irq for CNTP_INTID and SCHEDULER_YIELD; the counter is read by
timer_countdown. -/
def kernelIrq (count : BitVec 64) (t : Timer) : Timer :=
  (t.timerDisableInterrupts.timerCountdown cntfrq count schedulerTick).timerEnableInterrupts

def On (t : Timer) : Prop := t.ctl &&& cntpCtlEnable ≠ 0 ∧ t.ctl &&& cntpCtlImask = 0

def Asserts (count : BitVec 64) (t : Timer) : Prop := t.On ∧ t.cval ≤ count

instance (t : Timer) : Decidable t.On := inferInstanceAs (Decidable (_ ∧ _))

instance (count : BitVec 64) (t : Timer) : Decidable (t.Asserts count) :=
  inferInstanceAs (Decidable (_ ∧ _))

abbrev tickCounts : Nat := 650000

theorem timerCountdown_cval {count : Nat} (h : count + tickCounts < 2 ^ 64) (t : Timer) :
    (t.timerCountdown cntfrq (BitVec.ofNat 64 count) schedulerTick).cval.toNat =
      count + tickCounts := by
  have hval : ((cntfrq * schedulerTick.setWidth 64 / 1000).setWidth 32).signExtend 64 =
      BitVec.ofNat 64 tickCounts := by decide
  rw [timerCountdown,writeTval,hval,BitVec.toNat_add,BitVec.toNat_ofNat,BitVec.toNat_ofNat,
    ← Nat.add_mod]
  exact Nat.mod_eq_of_lt h

theorem on_iff (t : Timer) : t.On ↔ t.ctl.getLsbD 0 = true ∧ t.ctl.getLsbD 1 = false := by
  have henable : cntpCtlEnable = BitVec.twoPow 32 0 := by decide
  have himask : cntpCtlImask = BitVec.twoPow 32 1 := by decide
  have hne : ∀ i < 32, BitVec.twoPow 32 i ≠ 0 := by decide
  rw [On,henable,himask,BitVec.and_twoPow,BitVec.and_twoPow]
  refine and_congr ?_ ?_
  · cases t.ctl.getLsbD 0
    · exact iff_of_false (fun h => h rfl) (by decide)
    · exact iff_of_true (hne 0 (by decide)) rfl
  · cases t.ctl.getLsbD 1
    · exact iff_of_true rfl rfl
    · exact iff_of_false (hne 1 (by decide)) (by decide)

theorem enable_bit (i : Nat) : cntpCtlEnable.getLsbD i = decide (i = 0) := by
  have h : cntpCtlEnable = BitVec.twoPow 32 0 := by decide
  rw [h,BitVec.getLsbD_twoPow]
  grind

theorem imask_bit (i : Nat) : cntpCtlImask.getLsbD i = decide (i = 1) := by
  have h : cntpCtlImask = BitVec.twoPow 32 1 := by decide
  rw [h,BitVec.getLsbD_twoPow]
  grind

theorem schedEnable_on (count : BitVec 64) (t : Timer) : (t.schedEnable count).On := by
  rw [on_iff]
  simp only [schedEnable,timerEnable,timerEnableInterrupts,BitVec.getLsbD_or,BitVec.getLsbD_and,
    BitVec.getLsbD_not,enable_bit,imask_bit]
  simp

theorem kernelIrq_on {t : Timer} (h : t.On) (count : BitVec 64) : (t.kernelIrq count).On := by
  rw [on_iff] at h ⊢
  simp only [kernelIrq,timerCountdown,writeTval,timerEnableInterrupts,timerDisableInterrupts,
    BitVec.getLsbD_or,BitVec.getLsbD_and,BitVec.getLsbD_not,imask_bit,h.1]
  simp

end Timer

open Timer (tickCounts)

structure Timed where
  sched : Sched
  timer : Timer
  count : Nat

/-- get_system_time -/
def Timed.time (s : Timed) : BitVec 64 := getSystemTime cntfrq (BitVec.ofNat 64 s.count)

/-- `n` counts go by: while the current task runs code of its own, or from where a call reads the
counter to its end, which for an interrupt that schedules is its timer_countdown. -/
inductive TimedStep where
  | own (n : Nat)
  | call (op : SchedOp) (n : Nat)
  deriving DecidableEq

namespace TimedStep

def counts : TimedStep → Nat
  | .own n => n
  | .call _ n => n

def op? : TimedStep → Option SchedOp
  | .own _ => none
  | .call op _ => some op

def schedules : TimedStep → Bool
  | .own _ => false
  | .call op _ => op.schedules

def ticks : TimedStep → Bool
  | .call (.irq iar _ _) _ => decide (iar &&& 0xFFFFFF = cntpIntid)
  | _ => false

end TimedStep

def schedOps (es : List TimedStep) : List SchedOp := es.filterMap (·.op?)

def timedStep (c : SchedCore) (s : Timed) (e : TimedStep) : Timed where
  sched := (e.op?.map (schedStep c s.sched)).getD s.sched
  timer := if e.schedules then s.timer.kernelIrq (BitVec.ofNat 64 (s.count + e.counts)) else s.timer
  count := s.count + e.counts

def SchedOp.ReadsTime (time : BitVec 64) : SchedOp → Prop
  | .createTask _ _ _ | .taskExit => True
  | .msleep _ now => now = time
  | .irq _ now _ => now = time

/-- The calls are legal, the timer interrupts only when it asserts, and once it is on and due
kernel_irq comes to its timer_countdown within `late` counts. -/
structure TimedLegal (c : SchedCore) (late : Nat) (s : Timed) (e : TimedStep) : Prop where
  call : ∀ op ∈ e.op?, SchedLegal c s.sched op ∧ op.ReadsTime s.time
  asserted : e.ticks = true → s.timer.Asserts (BitVec.ofNat 64 s.count)
  prompt : s.timer.On → s.count + e.counts ≤ s.timer.cval.toNat + late

instance (time : BitVec 64) : (op : SchedOp) → Decidable (op.ReadsTime time)
  | .createTask _ _ _ | .taskExit => inferInstanceAs (Decidable True)
  | .msleep _ now => inferInstanceAs (Decidable (now = time))
  | .irq _ now _ => inferInstanceAs (Decidable (now = time))

instance (c : SchedCore) (late : Nat) (s : Timed) (e : TimedStep) :
    Decidable (TimedLegal c late s e) :=
  decidable_of_iff ((∀ op ∈ e.op?, SchedLegal c s.sched op ∧ op.ReadsTime s.time) ∧
      (e.ticks = true → s.timer.Asserts (BitVec.ofNat 64 s.count)) ∧
      (s.timer.On → s.count + e.counts ≤ s.timer.cval.toNat + late))
    ⟨fun ⟨h₁,h₂,h₃⟩ => ⟨h₁,h₂,h₃⟩,fun h => ⟨h.call,h.asserted,h.prompt⟩⟩

def Timed.enabled (s : Sched) (timer : Timer) (count : Nat) : Timed where
  sched := s
  timer := timer.schedEnable (BitVec.ofNat 64 count)
  count := count

def Timed.boot (c : SchedCore) (s : Sched) (ops : List SchedOp) (timer : Timer) (count : Nat) :
    Timed :=
  .enabled (exec (schedStep c) (s.initSched c) ops) timer count

section Project
variable {c : SchedCore} {late : Nat} {s : Timed} {es : List TimedStep}

theorem schedOps_cons (e : TimedStep) (es : List TimedStep) :
    schedOps (e :: es) = e.op?.toList ++ schedOps es := by
  cases e <;> rfl

theorem exec_sched (c : SchedCore) (s : Timed) (es : List TimedStep) :
    (exec (timedStep c) s es).sched = exec (schedStep c) s.sched (schedOps es) := by
  induction es generalizing s with
  | nil => rfl
  | cons e es ih =>
    rw [exec_cons,ih,schedOps_cons,exec_append]
    cases e <;> rfl

theorem along_sched (hl : Along (timedStep c) (TimedLegal c late) s es) :
    Along (schedStep c) (SchedLegal c) s.sched (schedOps es) := by
  induction es generalizing s with
  | nil => trivial
  | cons e es ih =>
    rw [schedOps_cons,along_append]
    refine ⟨?_,?_⟩
    · cases e with
      | own n => trivial
      | call op n => exact ⟨(hl.1.call op rfl).1,trivial⟩
    · have hrest := ih hl.2
      cases e <;> exact hrest

theorem countP_schedules (es : List TimedStep) :
    (schedOps es).countP (·.schedules) = es.countP TimedStep.schedules := by
  induction es with
  | nil => rfl
  | cons e es ih =>
    rw [schedOps_cons,List.countP_append,ih,List.countP_cons,Nat.add_comm]
    cases e with
    | own n => rfl
    | call op n =>
      simp only [TimedStep.op?,Option.toList,List.countP_cons,List.countP_nil,Nat.zero_add]
      rfl

theorem count_mono (c : SchedCore) (s : Timed) (es : List TimedStep) :
    s.count ≤ (exec (timedStep c) s es).count :=
  exec_keeps (I := fun s' : Timed => s.count ≤ s'.count)
    (fun _ _ h => h.trans (Nat.le_add_right _ _)) le_rfl es

end Project

def period (late : Nat) : Nat := tickCounts + late

/-- The timer is on, it is due at most a tick from now, and it has not been due for long. -/
structure Armed (late : Nat) (s : Timed) : Prop where
  on : s.timer.On
  soon : s.timer.cval.toNat ≤ s.count + tickCounts
  prompt : s.count ≤ s.timer.cval.toNat + late

section Deadline
variable {c : SchedCore} {late : Nat} {s : Timed} {e : TimedStep} {es : List TimedStep}

theorem enabled_armed (s : Sched) (timer : Timer) {count : Nat} (late : Nat)
    (hwrap : count + tickCounts < 2 ^ 64) : Armed late (.enabled s timer count) := by
  have hcval : (Timed.enabled s timer count).timer.cval.toNat = count + tickCounts :=
    timer.timerCountdown_cval hwrap
  refine ⟨timer.schedEnable_on _,hcval.le,?_⟩
  rw [hcval]
  exact (Nat.le_add_right count tickCounts).trans (Nat.le_add_right _ late)

theorem timedStep_cval (c : SchedCore) (he : e.schedules = true)
    (hwrap : (timedStep c s e).count + tickCounts < 2 ^ 64) :
    (timedStep c s e).timer.cval.toNat = (timedStep c s e).count + tickCounts := by
  rw [timedStep,if_pos he]
  exact Timer.timerCountdown_cval hwrap s.timer.timerDisableInterrupts

theorem timedStep_timer (c : SchedCore) (s : Timed) (he : e.schedules = false) :
    (timedStep c s e).timer = s.timer := by
  rw [timedStep,he]
  rfl

theorem Armed.step (h : Armed late s) (hl : TimedLegal c late s e)
    (hwrap : (timedStep c s e).count + tickCounts < 2 ^ 64) : Armed late (timedStep c s e) := by
  cases he : e.schedules with
  | false =>
    have htimer := timedStep_timer c s he
    exact ⟨htimer ▸ h.on,htimer ▸ h.soon.trans (Nat.add_le_add_right (Nat.le_add_right _ _) _),
      htimer ▸ hl.prompt h.on⟩
  | true =>
    have hcval := timedStep_cval c he hwrap
    refine ⟨?_,hcval.le,?_⟩
    · rw [timedStep,if_pos he]
      exact Timer.kernelIrq_on h.on _
    · rw [hcval]
      omega

theorem Armed.run (h : Armed late s) (hl : Along (timedStep c) (TimedLegal c late) s es)
    (hwrap : (exec (timedStep c) s es).count + tickCounts < 2 ^ 64) :
    Armed late (exec (timedStep c) s es) := by
  induction es generalizing s with
  | nil => exact h
  | cons e es ih =>
    have hmono := count_mono c (timedStep c s e) es
    exact ih (h.step hl.1 (by rw [exec_cons] at hwrap; omega)) hl.2 hwrap

/-- As long as time goes on, an interrupt schedules after `k` others have, one period after the
other. -/
theorem Armed.deadline (h : Armed late s) (hl : Along (timedStep c) (TimedLegal c late) s es)
    (hwrap : (exec (timedStep c) s es).count + tickCounts < 2 ^ 64) {k : Nat}
    (hend : s.timer.cval.toNat + late + k * period late <
      (exec (timedStep c) s es).count) :
    ∃ pre e post, es = pre ++ e :: post ∧ e.schedules = true ∧ pre.countP TimedStep.schedules = k ∧
      (exec (timedStep c) s (pre ++ [e])).count ≤
        s.timer.cval.toNat + late + k * period late := by
  induction es generalizing s k with
  | nil =>
    have hprompt := h.prompt
    simp only [exec_nil] at hend
    omega
  | cons e es ih =>
    have hmono := count_mono c (timedStep c s e) es
    rw [exec_cons] at hwrap hend
    have hprompt := hl.1.prompt h.on
    have harmed := h.step hl.1 (by omega)
    cases he : e.schedules with
    | false =>
      rw [← timedStep_timer c s he] at hend ⊢
      obtain ⟨pre,e',post,rfl,he',hk,hcount⟩ := ih harmed hl.2 hwrap hend
      refine ⟨e :: pre,e',post,rfl,he',?_,hcount⟩
      rw [List.countP_cons_of_neg (by rw [he]; decide),hk]
    | true =>
      cases k with
      | zero =>
        refine ⟨[],e,es,rfl,he,rfl,?_⟩
        rw [Nat.zero_mul]
        exact hprompt
      | succ k =>
        have hcval := timedStep_cval c he (s := s) (by omega)
        have hcount : (timedStep c s e).count = s.count + e.counts := rfl
        have hperiod : period late = tickCounts + late := rfl
        rw [Nat.succ_mul] at hend ⊢
        obtain ⟨pre,e',post,rfl,he',hk,hcount'⟩ := ih (k := k) harmed hl.2 hwrap (by omega)
        refine ⟨e :: pre,e',post,rfl,he',by rw [List.countP_cons_of_pos he,hk],?_⟩
        rw [List.cons_append,exec_cons]
        omega

end Deadline

structure RunsOn (c : SchedCore) (s : Sched) (t : TaskRef) : Prop where
  current : s.current c = some t
  running : s.state t = .running

structure SleepsTill (w : BitVec 64) (s : Sched) (t : TaskRef) : Prop where
  sleeping : s.state t = .sleeping
  wakeTick : (s.tasks t).wakeTick = w

section Sleepers
variable {c : SchedCore} {s : Sched} {xs : QueueId → List TaskRef} {t : TaskRef} {w : BitVec 64}

theorem SleepsTill.congr {s' : Sched} (h : SleepsTill w s t) (ht : s'.tasks t = s.tasks t) :
    SleepsTill w s' t :=
  ⟨by rw [Sched.state,ht]; exact h.sleeping,by rw [ht]; exact h.wakeTick⟩

theorem SleepsTill.call (h : SleepsTill w s t) {op : SchedOp} (hl : SchedLegal c s op)
    (hop : ∀ iar now frame, op ≠ .irq iar now frame) : SleepsTill w (schedStep c s op) t := by
  have hother : ∀ u, s.state u = .running → t ≠ u := by
    rintro u hu rfl
    exact absurd (hu.symm.trans h.sleeping) (by decide)
  cases op with
  | createTask entry exit stack =>
    rcases createTask_tasks (s := s) entry exit stack with ⟨i,hi,ht⟩ | ⟨_,ht⟩
    · refine h.congr ((congrFun ht t).trans (Function.update_of_ne ?_ _ _))
      rintro rfl
      exact absurd ((emptySlot_state hi).symm.trans h.sleeping) (by decide)
    · exact h.congr (congrFun ht t)
  | taskExit =>
    obtain ⟨u,hu,hrun,_⟩ := hl
    refine h.congr ?_
    change (s.taskExit c).tasks t = s.tasks t
    simp only [Sched.taskExit,Option.mem_def.mp hu]
    exact Function.update_of_ne (hother u hrun) _ _
  | msleep ms now =>
    obtain ⟨u,hu,hrun,_⟩ := hl
    refine h.congr ?_
    change (s.msleep c ms now).tasks t = s.tasks t
    simp only [Sched.msleep,Option.mem_def.mp hu]
    exact Function.update_of_ne (hother u hrun) _ _
  | irq iar now frame => exact absurd rfl (hop iar now frame)

/-- A sleeper sleeps on through everything but an interrupt that schedules when it is due. -/
theorem SleepsTill.step (h : SleepsTill w s t) (hone : OneCore c s xs)
    (hidle : s.state (.idle c) = .running) {op : SchedOp} (hl : SchedLegal c s op)
    (hop : ∀ iar now frame, op = .irq iar now frame → Schedules iar → now < w) :
    SleepsTill w (schedStep c s op) t := by
  by_cases hirq : ∀ iar now frame, op ≠ .irq iar now frame
  · exact h.call hl hirq
  simp only [not_forall,not_not] at hirq
  obtain ⟨iar,now,frame,rfl⟩ := hirq
  by_cases hi : Schedules iar
  · obtain ⟨f,s',ys,hs,_,hsw⟩ := kernelIrq_switched hone hidle hi now frame
    have hstep : schedStep c s (.irq iar now frame) = s' := by
      simp only [schedStep,schedOp,hs,Option.map_some,Option.getD_some]
    rw [hstep]
    refine ⟨?_,(hsw.wakeTick t).trans h.wakeTick⟩
    rcases hsw.state t with hsame | ⟨⟨_,hdue⟩ | hr | hr,_⟩
    · exact hsame.trans h.sleeping
    · rw [h.wakeTick] at hdue
      exact absurd (hop iar now frame rfl hi) (BitVec.not_lt.mpr hdue)
    · exact absurd (hr.symm.trans h.sleeping) (by decide)
    · exact absurd (hr.symm.trans h.sleeping) (by decide)
  · obtain ⟨f,s',ys,hs,_,_,hsame⟩ := kernelIrq_other hone hi now frame
    have hstep : schedStep c s (.irq iar now frame) = s' := by
      simp only [schedStep,schedOp,hs,Option.map_some,Option.getD_some]
    rw [hstep]
    rcases hsame t with ht | ⟨hz,_⟩
    · exact h.congr ht
    · exact absurd (hz.symm.trans h.sleeping) (by decide)

theorem SleepsTill.wakes (h : SleepsTill w s t) (hone : OneCore c s xs)
    (hidle : s.state (.idle c) = .running) {iar : BitVec 32} (hi : Schedules iar)
    {now : BitVec 64} (hdue : w ≤ now) (frame : BitVec 64) :
    Runnable (schedStep c s (.irq iar now frame)) t := by
  obtain ⟨s₁,ys,hs₁,_,hone₁,_,hstate⟩ := schedCheckTasks_switched hone now
  obtain ⟨s₁',hs₁',hchecked,_⟩ := schedCheckTasks_exact hone.inv.queues hone.inv.onStack now
  obtain rfl := Option.some.inj (hs₁.symm.trans hs₁')
  have hidle₁ : s₁.state (.idle c) = .running := by
    rcases hstate (.idle c) with hs | ⟨hs,_⟩
    · exact hs.trans hidle
    · exact absurd (hidle.symm.trans hs) (by decide)
  have hready : s₁.state t = .ready := by
    have htask := hchecked.tasks t
    rw [if_pos ⟨(hone.inv.filed.sleeping t).mpr h.sleeping,
      decide_eq_true (h.wakeTick ▸ hdue)⟩] at htask
    rw [Sched.state,htask]
  have hstep : schedStep c s (.irq iar now frame) = (s₁.scheduleTask c frame).2 := by
    simp only [schedStep,schedOp,kernelIrq_schedules hi,hs₁,Option.map_some,Option.getD_some]
    rfl
  obtain ⟨_,_,hsw⟩ := scheduleTask_switched hone₁ hidle₁ frame now
  rw [hstep]
  rcases hsw.state t with hs | ⟨_,hr⟩
  · exact .inl (hs.trans hready)
  · exact hr

theorem OneCore.runnable (h : OneCore c s xs) {i : Fin maxTasks} (hr : Runnable s (.pool i)) :
    RunsOn c s (.pool i) ∨ ∃ before after,
      xs .readyQ = before ++ .pool i :: after ∧ before.length < maxTasks := by
  rcases hr with hready | hrun
  · obtain ⟨before,after,hx⟩ := List.append_of_mem ((h.inv.filed.ready _).mpr hready)
    refine .inr ⟨before,after,hx,?_⟩
    have hlen := h.inv.ready_length
    rw [hx,List.length_append,List.length_cons] at hlen
    omega
  · exact .inl ⟨(h.current_iff _).mp (h.inv.filed.running i hrun),hrun⟩

theorem SleepsTill.pool (h : SleepsTill w s t) (hone : OneCore c s xs) : ∃ i, t = .pool i := by
  cases t with
  | pool i => exact ⟨i,rfl⟩
  | idle d =>
    rcases hone.inv.filed.idle d with hd | hd <;>
      exact absurd (hd.symm.trans h.sleeping) (by decide)

end Sleepers

section Bounds
variable {c : SchedCore} {late : Nat} {s : Timed} {e : TimedStep} {es : List TimedStep}
  {log : List SchedEvent} {xs : QueueId → List TaskRef} {t : TaskRef} {w : BitVec 64}

theorem before_along (c : SchedCore) {goal : Nat} (h : (exec (timedStep c) s es).count < goal) :
    Along (timedStep c) (fun s _ => s.count < goal) s es := by
  induction es generalizing s with
  | nil => trivial
  | cons e es ih =>
    have hmono := count_mono c s (e :: es)
    exact ⟨hmono.trans_lt h,ih h⟩

theorem schedules_irq (he : e.schedules = true) :
    ∃ iar now frame n, e = .call (.irq iar now frame) n ∧ Schedules iar := by
  cases e with
  | own n => cases he
  | call op n =>
    cases op with
    | irq iar now frame => exact ⟨iar,now,frame,n,rfl,of_decide_eq_true he⟩
    | createTask | taskExit | msleep => cases he

theorem FifoInv.idle_running (h : FifoInv c log s.sched xs) :
    s.sched.state (.idle c) = .running :=
  (h.one.inv.filed.idle c).resolve_right h.idle

theorem FifoInv.timed (h : FifoInv c log s.sched xs)
    (hl : Along (timedStep c) (TimedLegal c late) s es) :
    ∃ log' ys, FifoInv c log' (exec (timedStep c) s es).sched ys := by
  rw [exec_sched]
  exact exec_invariant (I := fun s => ∃ log xs, FifoInv c log s xs)
    (fun _ _ ⟨_,_,hi⟩ hop => ⟨_,hi.step hop⟩) ⟨log,xs,h⟩ (along_sched hl)

theorem FifoInv.next_timed (h : FifoInv c log s.sched xs) (hl : TimedLegal c late s e) :
    ∃ log' ys, FifoInv c log' (timedStep c s e).sched ys := by
  have hrun : Along (timedStep c) (TimedLegal c late) s [e] := ⟨hl,trivial⟩
  exact h.timed hrun

/-- Each task before it in ready_q takes one period. -/
theorem FifoInv.runs_by (h : FifoInv c log s.sched xs) (ha : Armed late s)
    (hl : Along (timedStep c) (TimedLegal c late) s es)
    (hwrap : (exec (timedStep c) s es).count + tickCounts < 2 ^ 64) {before after : List TaskRef}
    (hx : xs .readyQ = before ++ t :: after)
    (hend : s.timer.cval.toNat + late + before.length * period late <
      (exec (timedStep c) s es).count) :
    ∃ pre post, es = pre ++ post ∧ RunsOn c (exec (timedStep c) s pre).sched t ∧
      (exec (timedStep c) s pre).count ≤
        s.timer.cval.toNat + late + before.length * period late := by
  obtain ⟨pre,e,post,rfl,he,hk,hcount⟩ := ha.deadline hl hwrap hend
  obtain ⟨iar,now,frame,n,rfl,hi⟩ := schedules_irq he
  obtain ⟨hpre,_⟩ := (along_append _ _ _ _ _).mp hl
  obtain ⟨log',ys,after',h',hys⟩ := h.comes_first hx (along_sched hpre)
    ((countP_schedules pre).trans hk)
  obtain ⟨_,_,_,_,hcur,hrun⟩ := h'.one.irq_head hi now frame hys
  refine ⟨pre ++ [.call (.irq iar now frame) n],post,?_,?_,hcount⟩
  · rw [List.append_assoc,List.singleton_append]
  · rw [exec_snoc]
    rw [← exec_sched] at hcur hrun
    exact ⟨hcur,hrun⟩

theorem time_toNat (s : Timed) : s.time.toNat = s.count % 2 ^ 64 * 1000 % 2 ^ 64 / 65000000 := by
  rw [Timed.time,getSystemTime_toNat,BitVec.toNat_ofNat]
  rfl

/-- The time that get_system_time gives is not ahead, also when its product overflows. -/
theorem time_lt (h : s.count < 65000 * w.toNat) : s.time < w := by
  have hle : s.count % 2 ^ 64 * 1000 % 2 ^ 64 ≤ s.count * 1000 :=
    (Nat.mod_le _ _).trans (Nat.mul_le_mul_right 1000 (Nat.mod_le _ _))
  change s.time.toNat < w.toNat
  rw [time_toNat]
  exact Nat.div_lt_of_lt_mul (by omega)

theorem le_time (h : 65000 * w.toNat ≤ s.count) (hwrap : s.count * 1000 < 2 ^ 64) :
    w ≤ s.time := by
  change w.toNat ≤ s.time.toNat
  rw [time_toNat,Nat.mod_eq_of_lt (a := s.count) (by omega),Nat.mod_eq_of_lt hwrap]
  exact (Nat.le_div_iff_mul_le (by decide)).mpr (by omega)

theorem SleepsTill.run (h : SleepsTill w s.sched t) (hf : FifoInv c log s.sched xs)
    (hl : Along (timedStep c) (TimedLegal c late) s es)
    (hw : Along (timedStep c) (fun s e => e.schedules = true → s.time < w) s es) :
    SleepsTill w (exec (timedStep c) s es).sched t := by
  have hinv := exec_invariant (I := fun s : Timed => SleepsTill w s.sched t ∧
      ∃ log xs, FifoInv c log s.sched xs)
    (fun s e hi hp => by
      obtain ⟨h,log,xs,hf⟩ := hi
      obtain ⟨hl,hw⟩ := hp
      refine ⟨?_,hf.next_timed hl⟩
      cases e with
      | own n => exact h
      | call op n =>
        obtain ⟨hop,htime⟩ := hl.call op rfl
        refine h.step hf.one hf.idle_running hop fun iar now frame hirq hi => ?_
        subst hirq
        exact (show now = s.time from htime) ▸ hw (decide_eq_true hi))
    ⟨h,log,xs,hf⟩ (hl.and hw)
  exact hinv.1

theorem Armed.reach (h : Armed late s) (hl : Along (timedStep c) (TimedLegal c late) s es)
    (hwrap : (exec (timedStep c) s es).count + tickCounts < 2 ^ 64) {goal bound : Nat}
    (hgoal : goal ≤ bound) (hcval : s.timer.cval.toNat ≤ bound + tickCounts + period late)
    (hend : goal ≤ (exec (timedStep c) s es).count) :
    ∃ pre post, es = pre ++ post ∧ Along (timedStep c) (fun s _ => s.count < goal) s pre ∧
      goal ≤ (exec (timedStep c) s pre).count ∧
      (exec (timedStep c) s pre).timer.cval.toNat ≤ bound + tickCounts + period late := by
  induction es generalizing s with
  | nil => exact ⟨[],[],rfl,trivial,hend,hcval⟩
  | cons e es ih =>
    by_cases hs : goal ≤ s.count
    · exact ⟨[],e :: es,rfl,trivial,hs,hcval⟩
    have hmono := count_mono c (timedStep c s e) es
    rw [exec_cons] at hwrap hend
    have hsoon := h.soon
    have hprompt := hl.1.prompt h.on
    have hperiod : period late = tickCounts + late := rfl
    have hcount : (timedStep c s e).count = s.count + e.counts := rfl
    have hcval' : (timedStep c s e).timer.cval.toNat ≤ bound + tickCounts + period late := by
      cases he : e.schedules with
      | false => rwa [timedStep_timer c s he]
      | true =>
        rw [timedStep_cval c he (by omega)]
        omega
    obtain ⟨pre,post,rfl,hpre,hreach,hcval''⟩ := ih (h.step hl.1 (by omega)) hl.2 hwrap hcval' hend
    exact ⟨e :: pre,post,rfl,⟨Nat.lt_of_not_le hs,hpre⟩,hreach,hcval''⟩

theorem FifoInv.sleeper_by (h : FifoInv c log s.sched xs) (ha : Armed late s)
    (ht : SleepsTill w s.sched t) (hl : Along (timedStep c) (TimedLegal c late) s es)
    (hwrap : (exec (timedStep c) s es).count * 1000 < 2 ^ 64)
    (hend : max s.count (65000 * w.toNat) + 66 * period late < (exec (timedStep c) s es).count) :
    ∃ pre post, es = pre ++ post ∧ RunsOn c (exec (timedStep c) s pre).sched t ∧
      (exec (timedStep c) s pre).count ≤ max s.count (65000 * w.toNat) + 66 * period late := by
  have hsoon := ha.soon
  have hperiod : period late = tickCounts + late := rfl
  obtain ⟨pre₁,post₁,rfl,hbefore,hgoal,hcval₁⟩ := ha.reach hl (by omega)
    (Nat.le_max_right s.count (65000 * w.toNat)) (by omega) (by omega)
  obtain ⟨hl₁,hl₂⟩ := (along_append _ _ _ _ _).mp hl
  rw [exec_append] at hwrap hend
  -- The sleeper is still asleep when the counter comes to its wake_tick.
  have hmono₁ := count_mono c (exec (timedStep c) s pre₁) post₁
  have hasleep : Along (timedStep c) (fun s e => e.schedules = true → s.time < w) s pre₁ :=
    hbefore.imp (Q := fun s e => e.schedules = true → s.time < w) fun _ _ hs _ => time_lt hs
  have ht₁ := ht.run h hl₁ hasleep
  have ha₁ := ha.run hl₁ (by omega)
  obtain ⟨_,_,h₁⟩ := h.timed hl₁
  generalize hs₁ : exec (timedStep c) s pre₁ = s₁ at *
  obtain ⟨pre₂,e,post₂,rfl,he,hnone,hcount₂⟩ := ha₁.deadline hl₂ (by omega) (k := 0) (by omega)
  rw [← List.singleton_append,← List.append_assoc] at hl₂ hwrap hend
  obtain ⟨hl₂,hl₃⟩ := (along_append _ _ _ _ _).mp hl₂
  rw [exec_append] at hwrap hend
  have hmono₃ := count_mono c (exec (timedStep c) s₁ (pre₂ ++ [e])) post₂
  have ha₃ := ha₁.run hl₂ (by omega)
  obtain ⟨_,_,h₃⟩ := h₁.timed hl₂
  obtain ⟨iar,now,frame,n,rfl,hi⟩ := schedules_irq he
  have hwake : Runnable
      (exec (timedStep c) s₁ (pre₂ ++ [.call (.irq iar now frame) n])).sched t := by
    obtain ⟨hl₂,hlast,_⟩ := (along_append _ _ _ _ _).mp hl₂
    have hquiet : Along (timedStep c) (fun s e => e.schedules = true → s.time < w) s₁ pre₂ :=
      (along_of_mem (timedStep c) s₁ (List.countP_eq_zero.mp hnone)).imp fun _ _ hno hyes =>
        absurd hyes hno
    have ht₂ := ht₁.run h₁ hl₂ hquiet
    obtain ⟨_,_,h₂⟩ := h₁.timed hl₂
    have hmono₂ := count_mono c s₁ pre₂
    have hlater := count_mono c (exec (timedStep c) s₁ pre₂) [.call (.irq iar now frame) n]
    rw [← exec_append] at hlater
    have hdue : w ≤ (exec (timedStep c) s₁ pre₂).time :=
      le_time (hgoal.trans hmono₂)
        ((Nat.mul_le_mul_right 1000 (hlater.trans hmono₃)).trans_lt hwrap)
    have hnow : now = (exec (timedStep c) s₁ pre₂).time := (hlast.call _ rfl).2
    rw [exec_snoc]
    exact ht₂.wakes h₂.one h₂.idle_running hi (hnow ▸ hdue) frame
  obtain ⟨i,rfl⟩ := ht.pool h.one
  rcases h₃.one.runnable hwake with hruns | ⟨before,after,hx,hlen⟩
  · refine ⟨pre₁ ++ (pre₂ ++ [.call (.irq iar now frame) n]),post₂,?_,?_,?_⟩
    · simp only [List.append_assoc,List.singleton_append]
    · rwa [exec_append,hs₁]
    · rw [exec_append,hs₁]
      omega
  · have hbound : before.length * period late ≤ 63 * period late :=
      Nat.mul_le_mul_right _ (Nat.le_of_lt_succ hlen)
    have hsoon₃ := ha₃.soon
    obtain ⟨pre₃,post₃,rfl,hruns,hcount₃⟩ := h₃.runs_by ha₃ hl₃ (by omega) hx (by omega)
    refine ⟨pre₁ ++ (pre₂ ++ [.call (.irq iar now frame) n]) ++ pre₃,post₃,?_,?_,?_⟩
    · simp only [List.append_assoc,List.cons_append,List.nil_append]
    · rwa [exec_append,exec_append,hs₁]
    · rw [exec_append,exec_append,hs₁]
      omega

theorem SleepsTill.of_msleep (hc : s.sched.current c = some t) (ms : BitVec 32) (n : Nat) :
    SleepsTill (s.time + ms.setWidth 64) (timedStep c s (.call (.msleep ms s.time) n)).sched t := by
  refine ⟨?_,msleep_wakeTick hc ms s.time⟩
  change (s.sched.msleep c ms s.time).state t = _
  simp only [Sched.msleep,hc,Sched.taskEnqueue,Sched.state,Sched.setTask]
  rw [Function.update_self]

theorem wakeTick_toNat (hwrap : s.count * 1000 < 2 ^ 64) (ms : BitVec 32) :
    (s.time + ms.setWidth 64).toNat = s.count / 65000 + ms.toNat := by
  have htime := time_toNat s
  have hms := ms.isLt
  rw [Nat.mod_eq_of_lt (a := s.count) (by omega),Nat.mod_eq_of_lt hwrap] at htime
  rw [BitVec.toNat_add,BitVec.toNat_setWidth,htime]
  omega

theorem ticks_irq (he : e.ticks = true) : e.schedules = true := by
  cases e with
  | own n => cases he
  | call op n =>
    cases op with
    | irq iar now frame => exact decide_eq_true (.inl (of_decide_eq_true he))
    | createTask | taskExit | msleep => cases he

theorem Armed.rate (h : Armed late s) (hl : Along (timedStep c) (TimedLegal c late) s es)
    (hwrap : (exec (timedStep c) s es).count + tickCounts < 2 ^ 64) :
    s.timer.cval.toNat + es.countP TimedStep.ticks * tickCounts ≤
        (exec (timedStep c) s es).timer.cval.toNat ∧
      (exec (timedStep c) s es).timer.cval.toNat ≤
        s.timer.cval.toNat + es.countP TimedStep.schedules * period late := by
  induction es generalizing s with
  | nil => exact ⟨Nat.le_of_eq (by rfl),Nat.le_add_right _ _⟩
  | cons e es ih =>
    have hmono := count_mono c (timedStep c s e) es
    rw [exec_cons] at hwrap ⊢
    obtain ⟨hlo,hhi⟩ := ih (h.step hl.1 (by omega)) hl.2 hwrap
    cases he : e.schedules with
    | false =>
      have hticks : ¬ e.ticks = true := fun ht => by
        rw [ticks_irq ht] at he
        cases he
      rw [timedStep_timer c s he] at hlo hhi
      rw [List.countP_cons_of_neg hticks,List.countP_cons_of_neg (by rw [he]; decide)]
      exact ⟨hlo,hhi⟩
    | true =>
      have hsoon := h.soon
      have hprompt := hl.1.prompt h.on
      have hperiod : period late = tickCounts + late := rfl
      have hcount : (timedStep c s e).count = s.count + e.counts := rfl
      rw [timedStep_cval c he (by omega)] at hlo hhi
      rw [List.countP_cons_of_pos he,Nat.succ_mul]
      refine ⟨?_,by omega⟩
      by_cases hticks : e.ticks = true
      · have hdue : s.timer.cval.toNat ≤ s.count % 2 ^ 64 := (hl.1.asserted hticks).2
        rw [List.countP_cons_of_pos hticks,Nat.succ_mul]
        omega
      · rw [List.countP_cons_of_neg hticks]
        omega

theorem boot_armed (s : Sched) (ops : List SchedOp) (timer : Timer) {count : Nat} (late : Nat)
    (hwrap : (exec (timedStep c) (.boot c s ops timer count) es).count + tickCounts < 2 ^ 64) :
    Armed late (.boot c s ops timer count) := by
  have hmono := count_mono c (.boot c s ops timer count) es
  exact enabled_armed _ timer late ((Nat.add_le_add_right hmono tickCounts).trans_lt hwrap)

theorem FifoInv.msleep_by (h : FifoInv c log s.sched xs) (ha : Armed late s) {ms : BitVec 32}
    {n : Nat} (hc : s.sched.current c = some t)
    (hmsleep : TimedLegal c late s (.call (.msleep ms s.time) n)) {s' : Timed}
    (hs : timedStep c s (.call (.msleep ms s.time) n) = s')
    (hl : Along (timedStep c) (TimedLegal c late) s' es)
    (hwrap : (exec (timedStep c) s' es).count * 1000 < 2 ^ 64) :
    ((exec (timedStep c) s' es).count < 65000 * (s.count / 65000 + ms.toNat) →
      (exec (timedStep c) s' es).sched.state t = .sleeping) ∧
    (max (s.count + n) (65000 * (s.count / 65000 + ms.toNat)) + 66 * period late <
        (exec (timedStep c) s' es).count →
      ∃ pre post, es = pre ++ post ∧ RunsOn c (exec (timedStep c) s' pre).sched t ∧
        (exec (timedStep c) s' pre).count ≤
          max (s.count + n) (65000 * (s.count / 65000 + ms.toNat)) + 66 * period late) := by
  have hmono := count_mono c s' es
  have hcount : s'.count = s.count + n := hs ▸ rfl
  have ht : SleepsTill (s.time + ms.setWidth 64) s'.sched t := hs ▸ SleepsTill.of_msleep hc ms n
  have htick : tickCounts = 650000 := rfl
  have ha' : Armed late s' := hs ▸ ha.step hmsleep (by rw [hs]; omega)
  obtain ⟨_,_,h'⟩ := h.next_timed hmsleep
  rw [hs] at h'
  have hle : s.count ≤ (exec (timedStep c) s' es).count := by omega
  have hwake := wakeTick_toNat ((Nat.mul_le_mul_right 1000 hle).trans_lt hwrap) ms
  rw [← hwake,← hcount]
  refine ⟨fun hbefore => ?_,fun hend => h'.sleeper_by ha' ht hl hwrap hend⟩
  have hasleep : Along (timedStep c)
      (fun s₁ e => e.schedules = true → s₁.time < s.time + ms.setWidth 64) s' es :=
    (before_along c hbefore).imp
      (Q := fun s₁ e => e.schedules = true → s₁.time < s.time + ms.setWidth 64)
      fun _ _ hs₁ _ => time_lt hs₁
  exact (ht.run h' hl hasleep).sleeping

theorem boot_reached {s : Sched} (h : BeforeInit c s) {ops : List SchedOp}
    (hops : Along (schedStep c) (SchedLegal c) (s.initSched c) ops) {timer : Timer} {count : Nat}
    (hl : Along (timedStep c) (TimedLegal c late) (.boot c s ops timer count) es)
    (hwrap : (exec (timedStep c) (.boot c s ops timer count) es).count + tickCounts < 2 ^ 64) :
    (∃ log xs, FifoInv c log (exec (timedStep c) (.boot c s ops timer count) es).sched xs) ∧
      Armed late (exec (timedStep c) (.boot c s ops timer count) es) := by
  obtain ⟨_,_,hboot⟩ := exec_fifoInv h hops
  exact ⟨FifoInv.timed (s := .boot c s ops timer count) hboot hl,
    (boot_armed s ops timer late hwrap).run hl hwrap⟩

end Bounds

/-- The rate of the tick: the timer interrupts at most once in 10 ms, and from one interrupt that
schedules to the next it is at most 10 ms and what the code is late by. -/
theorem tick_rate (c : SchedCore) (s : Sched) (ops : List SchedOp) (timer : Timer)
    (count late : Nat) (es : List TimedStep)
    (hl : Along (timedStep c) (TimedLegal c late) (.boot c s ops timer count) es)
    (hwrap : (exec (timedStep c) (.boot c s ops timer count) es).count + tickCounts < 2 ^ 64) :
    let s' := exec (timedStep c) (.boot c s ops timer count) es
    count + es.countP TimedStep.ticks * tickCounts ≤ s'.count ∧
      s'.count ≤ count + (es.countP TimedStep.schedules + 1) * period late := by
  have harmed : Armed late (.boot c s ops timer count) := boot_armed s ops timer late hwrap
  have hmono : count ≤ _ := count_mono c (.boot c s ops timer count) es
  have hcval : (Timed.boot c s ops timer count).timer.cval.toNat = count + tickCounts :=
    timer.timerCountdown_cval (by omega)
  have hperiod : period late = tickCounts + late := rfl
  have hsoon := (harmed.run hl hwrap).soon
  have hprompt := (harmed.run hl hwrap).prompt
  obtain ⟨hlo,hhi⟩ := harmed.rate hl hwrap
  rw [Nat.succ_mul]
  exact ⟨by omega,by omega⟩

/-- Two ticks of a timer that EL3 left masked. -/
theorem tick_rate_two :
    let es : List TimedStep :=
      [.own 650000,.call (.irq 30 10 0x30000) 100,.own 650000,.call (.irq 30 20 0x13000) 100]
    let s' := exec (timedStep 0) (.boot 0 bootSched [.createTask 0x100 0x900 0x10000] ⟨2,0⟩ 1000) es
    1000 + es.countP TimedStep.ticks * tickCounts ≤ s'.count ∧
      s'.count ≤ 1000 + (es.countP TimedStep.schedules + 1) * period 5000 :=
  tick_rate 0 bootSched [.createTask 0x100 0x900 0x10000] ⟨2,0⟩ 1000 5000
    [.own 650000,.call (.irq 30 10 0x30000) 100,.own 650000,.call (.irq 30 20 0x13000) 100]
    (by decide) (by decide)

/-- A READY task has the core within a period for itself and for each task before it. -/
theorem ready_task_runs_by (c : SchedCore) (s : Sched) (h : BeforeInit c s) (ops : List SchedOp)
    (hops : Along (schedStep c) (SchedLegal c) (s.initSched c) ops) (timer : Timer)
    (count late : Nat) (es es' : List TimedStep)
    (hl : Along (timedStep c) (TimedLegal c late) (.boot c s ops timer count) (es ++ es'))
    (hwrap : (exec (timedStep c) (.boot c s ops timer count) (es ++ es')).count + tickCounts <
      2 ^ 64) (before after : List TaskRef) (t : TaskRef)
    (hq : Represents (exec (timedStep c) (.boot c s ops timer count) es).sched.next
      ((exec (timedStep c) (.boot c s ops timer count) es).sched.queues .readyQ)
      (before ++ t :: after)) :
    let run := exec (timedStep c) (.boot c s ops timer count)
    let bound := (run es).count + (before.length + 1) * period late
    bound < (run (es ++ es')).count → ∃ pre post, es' = pre ++ post ∧
      RunsOn c (run (es ++ pre)).sched t ∧ (run (es ++ pre)).count ≤ bound := by
  intro run bound hend
  obtain ⟨hl₁,hl₂⟩ := (along_append _ _ _ _ _).mp hl
  rw [exec_append] at hwrap
  have hmono := count_mono c (run es) es'
  obtain ⟨⟨_,_,hinv⟩,ha⟩ := boot_reached h hops hl₁
    ((Nat.add_le_add_right hmono tickCounts).trans_lt hwrap)
  have hsoon := ha.soon
  have hperiod : period late = tickCounts + late := rfl
  simp only [run,bound,exec_append,Nat.succ_mul] at hend ⊢
  have hx := (hinv.one.inv.queues.represents .readyQ).unique hq
  obtain ⟨pre,post,heq,hruns,hcount⟩ := hinv.runs_by ha hl₂ hwrap hx (by omega)
  exact ⟨pre,post,heq,hruns,by omega⟩

/-- The second of two tasks, after two ticks. -/
theorem ready_task_runs_by_second :
    let ops : List SchedOp := [.createTask 0x100 0x900 0x10000,.createTask 0x200 0x900 0x20000]
    let run := exec (timedStep 0) (.boot 0 bootSched ops ⟨2,0⟩ 1000)
    let es' : List TimedStep := [.own 650000,.call (.irq 30 10 0x30000) 100,.own 650000,
      .call (.irq 30 20 0x13000) 100,.own 30000]
    ∃ pre post, es' = pre ++ post ∧ RunsOn 0 (run pre).sched (.pool 2) ∧
      (run pre).count ≤ 1000 + 2 * period 5000 := by
  intro ops run es'
  have hq : Represents (run []).sched.next ((run []).sched.queues .readyQ)
      ([.pool 1] ++ .pool 2 :: []) := ⟨⟨rfl,rfl,rfl⟩,rfl,by decide⟩
  exact ready_task_runs_by 0 bootSched ⟨fun _ => rfl,fun _ _ => rfl⟩ ops (by decide) ⟨2,0⟩ 1000
    5000 [] es' (by decide) (by decide) [.pool 1] [] (.pool 2) hq (by decide)

/-- msleep in time: the task sleeps as long as `ms` milliseconds of get_system_time have not gone
by, and has the core 66 periods after that. -/
theorem msleep_in_time (c : SchedCore) (s : Sched) (h : BeforeInit c s) (ops : List SchedOp)
    (hops : Along (schedStep c) (SchedLegal c) (s.initSched c) ops) (timer : Timer)
    (count late : Nat) (es es' : List TimedStep) (ms : BitVec 32) (n : Nat) (t : TaskRef)
    (hc : (exec (timedStep c) (.boot c s ops timer count) es).sched.current c = some t)
    (hl : Along (timedStep c) (TimedLegal c late) (.boot c s ops timer count) (es ++
      .call (.msleep ms (exec (timedStep c) (.boot c s ops timer count) es).time) n :: es'))
    (hwrap : (exec (timedStep c) (.boot c s ops timer count) (es ++
      .call (.msleep ms (exec (timedStep c) (.boot c s ops timer count) es).time) n :: es')).count *
        1000 < 2 ^ 64) :
    let s₁ := exec (timedStep c) (.boot c s ops timer count) es
    let run := exec (timedStep c) (timedStep c s₁ (.call (.msleep ms s₁.time) n))
    let wake := 65000 * (s₁.count / 65000 + ms.toNat)
    let bound := max (s₁.count + n) wake + 66 * period late
    ((run es').count < wake → (run es').sched.state t = .sleeping) ∧
      (bound < (run es').count → ∃ pre post, es' = pre ++ post ∧ RunsOn c (run pre).sched t ∧
        (run pre).count ≤ bound) := by
  intro s₁ run wake bound
  obtain ⟨hl₁,hl₂,hl₃⟩ := (along_append _ _ _ _ _).mp hl
  rw [exec_append,exec_cons] at hwrap
  have hmono : s₁.count ≤ (run es').count :=
    (Nat.le_add_right _ _).trans (count_mono c (timedStep c s₁ (.call (.msleep ms s₁.time) n)) es')
  have hwrap' : s₁.count * 1000 < 2 ^ 64 := (Nat.mul_le_mul_right 1000 hmono).trans_lt hwrap
  have htick : tickCounts = 650000 := rfl
  obtain ⟨⟨_,_,hinv⟩,ha⟩ := boot_reached h hops hl₁ (show s₁.count + tickCounts < 2 ^ 64 by omega)
  exact hinv.msleep_by ha hc hl₂ rfl hl₃ hwrap

/-- A task that is asleep for the second of its five milliseconds. -/
theorem msleep_in_time_five :
    let ops : List SchedOp := [.createTask 0x100 0x900 0x10000]
    let es : List TimedStep := [.own 650000,.call (.irq 30 10 0x30000) 100]
    let es' : List TimedStep := [.call (.irq 8 10 0x13000) 100,.own 70000]
    let s₁ := exec (timedStep 0) (.boot 0 bootSched ops ⟨2,0⟩ 1000) es
    let run := exec (timedStep 0) (timedStep 0 s₁ (.call (.msleep 5 s₁.time) 50))
    let wake := 65000 * (s₁.count / 65000 + 5)
    let bound := max (s₁.count + 50) wake + 66 * period 5000
    ((run es').count < wake → (run es').sched.state (.pool 1) = .sleeping) ∧
      (bound < (run es').count → ∃ pre post, es' = pre ++ post ∧
        RunsOn 0 (run pre).sched (.pool 1) ∧ (run pre).count ≤ bound) := by
  intro ops es es'
  exact msleep_in_time 0 bootSched ⟨fun _ => rfl,fun _ _ => rfl⟩ ops (by decide) ⟨2,0⟩ 1000 5000
    es es' 5 50 (.pool 1) (by decide) (by decide) (by decide)

end Arm64

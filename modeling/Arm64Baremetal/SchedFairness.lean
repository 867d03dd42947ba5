import Arm64Baremetal.SchedFifo
import Arm64Baremetal.SchedSleep
import Mathlib.Data.Fintype.Card

set_option autoImplicit false

namespace Arm64
open Runs IntrusiveQueue

def SchedOp.schedules : SchedOp → Bool
  | .irq iar _ _ => decide (Schedules iar)
  | _ => false

variable {s : Sched} {xs : QueueId → List TaskRef} {c : SchedCore} {t n : TaskRef}

theorem scheduleTask_head (h : SchedInv s s.current xs) (ht : s.current c = some t)
    (frame : BitVec 64) {ts : List TaskRef} (hx : xs .readyQ = n :: ts) :
    (s.scheduleTask c frame).1 = some n ∧ ∃ more, Represents (s.scheduleTask c frame).2.next
      ((s.scheduleTask c frame).2.queues .readyQ) (ts ++ more) := by
  have hframe := setFrame_inv h t frame
  obtain ⟨ys,hput,_⟩ := putAway_inv hframe ht
  have hys := (hput.queues.represents .readyQ).unique (putAway_ready hframe ht)
  obtain ⟨m,rest,hm,hrest,hfrom⟩ := pickNext_ready hput (c := c) t
  rw [hx,List.cons_append] at hys
  rw [hys] at hfrom
  obtain ⟨hnil,_,_⟩ | hcons := hfrom
  · exact nomatch hnil
  obtain ⟨rfl,rfl⟩ := List.cons.inj hcons
  simp only [Sched.scheduleTask,ht]
  exact ⟨congrArg some hm,_,hrest⟩

theorem OneCore.scheduleTask_head (h : OneCore c s xs) (frame : BitVec 64) {ts : List TaskRef}
    (hx : xs .readyQ = n :: ts) :
    ∃ ys more, OneCore c (s.scheduleTask c frame).2 ys ∧ ys .readyQ = ts ++ more ∧
      (s.scheduleTask c frame).2.current c = some n ∧
      (s.scheduleTask c frame).2.state n = .running := by
  obtain ⟨t,ht⟩ := h.running
  obtain ⟨hn,more,hrest⟩ := Arm64.scheduleTask_head h.inv ht frame hx
  obtain ⟨ys,hone⟩ := h.schedule frame
  obtain ⟨hcur,hrun,_,_⟩ := scheduleTask_inv h.inv ht frame hn (h.next_free n)
  refine ⟨ys,more,hone,(hone.inv.queues.represents .readyQ).unique hrest,?_,hrun⟩
  rw [hcur,Function.update_self]

theorem OneCore.irq_head (h : OneCore c s xs) {iar : BitVec 32} (hi : Schedules iar)
    (now frame : BitVec 64) {ts : List TaskRef} (hx : xs .readyQ = n :: ts) :
    ∃ ys more, OneCore c (schedStep c s (.irq iar now frame)) ys ∧ ys .readyQ = ts ++ more ∧
      (schedStep c s (.irq iar now frame)).current c = some n ∧
      (schedStep c s (.irq iar now frame)).state n = .running := by
  obtain ⟨s₁,hs₁,_,hlists⟩ := schedCheckTasks_exact h.inv.queues h.inv.onStack now
  obtain ⟨s₁',ys,hs₁',_,hone⟩ := h.checkTasks now
  obtain rfl := Option.some.inj (hs₁.symm.trans hs₁')
  have hready : ys .readyQ = n :: (ts ++ (xs .sleepQ).filter (s.due now)) := by
    rw [(hone.inv.queues.represents .readyQ).unique (hlists.represents .readyQ)]
    simp only [wokenLists,hx,List.cons_append]
  obtain ⟨zs,more,hone',hzs,hcur,hrun⟩ := hone.scheduleTask_head frame hready
  have hstep : schedStep c s (.irq iar now frame) = (s₁.scheduleTask c frame).2 := by
    simp only [schedStep,schedOp,kernelIrq_schedules hi,hs₁,Option.map_some,Option.getD_some]
    rfl
  rw [hstep]
  exact ⟨zs,_,hone',by rw [hzs,List.append_assoc],hcur,hrun⟩

theorem FifoInv.ready_kept {log : List SchedEvent} (h : FifoInv c log s xs) {op : SchedOp}
    (hl : SchedLegal c s op) (hop : op.schedules = false) :
    ∃ ys more, FifoInv c (log ++ opEvents c s op) (schedStep c s op) ys ∧
      ys .readyQ = xs .readyQ ++ more := by
  obtain ⟨ys,h'⟩ := h.step hl
  have hchosen : chosenTasks (opEvents c s op) = [] := by
    cases op with
    | createTask entry exit stack =>
      simp only [opEvents,Sched.createEvents]
      split <;> rfl
    | taskExit | msleep => rfl
    | irq iar now frame =>
      have hi : ¬ Schedules iar := of_decide_eq_false hop
      simp only [opEvents,irqEvents,if_neg hi]
      rfl
  refine ⟨ys,readiedTasks (opEvents c s op),h',?_⟩
  have hfifo := h'.fifo
  rw [readiedTasks_append,chosenTasks_append,hchosen,List.append_nil,h.fifo,List.append_assoc]
    at hfifo
  exact (List.append_cancel_left hfifo).symm

/-- A task in ready_q is at its head once as many interrupts have scheduled as tasks were before
it. -/
theorem FifoInv.comes_first {log : List SchedEvent} (h : FifoInv c log s xs)
    {before after : List TaskRef} (hx : xs .readyQ = before ++ t :: after) {ops : List SchedOp}
    (hl : Along (schedStep c) (SchedLegal c) s ops)
    (hcount : ops.countP (·.schedules) = before.length) :
    ∃ log' ys after', FifoInv c log' (exec (schedStep c) s ops) ys ∧ ys .readyQ = t :: after' := by
  induction ops generalizing s log xs before after with
  | nil =>
    obtain rfl := List.eq_nil_of_length_eq_zero hcount.symm
    exact ⟨log,xs,after,h,hx⟩
  | cons op ops ih =>
    obtain ⟨hop,hops⟩ := hl
    cases hs : op.schedules with
    | false =>
      obtain ⟨ys,more,h',hys⟩ := h.ready_kept hop hs
      rw [List.countP_cons_of_neg (by rw [hs]; decide)] at hcount
      rw [hx,List.append_assoc,List.cons_append] at hys
      exact ih h' hys hops hcount
    | true =>
      rw [List.countP_cons_of_pos hs] at hcount
      obtain ⟨n,before,rfl⟩ := List.exists_cons_of_length_pos
        (Nat.lt_of_lt_of_eq (Nat.succ_pos _) hcount)
      obtain ⟨iar,now,frame,rfl⟩ : ∃ iar now frame, op = .irq iar now frame := by
        cases op with
        | irq iar now frame => exact ⟨iar,now,frame,rfl⟩
        | createTask | taskExit | msleep => exact nomatch hs
      obtain ⟨ys,h'⟩ := h.step hop
      obtain ⟨zs,more,hone,hzs,_,_⟩ := h.one.irq_head (of_decide_eq_true hs) now frame hx
      have hys : ys .readyQ = before ++ t :: (after ++ more) := by
        rw [(h'.one.inv.queues.represents .readyQ).unique (hone.inv.queues.represents .readyQ),hzs]
        exact List.append_assoc before (t :: after) more
      exact ih h' hys hops (Nat.succ.inj hcount)

theorem SchedInv.ready_length (h : SchedInv s s.current xs) : (xs .readyQ).length ≤ maxTasks := by
  have hpool : (xs .readyQ).toFinset ⊆ Finset.univ.image TaskRef.pool := by
    intro u hu
    have hready := (h.filed.ready u).mp (List.mem_toFinset.mp hu)
    cases u with
    | pool i => exact Finset.mem_image_of_mem _ (Finset.mem_univ i)
    | idle d => rcases h.filed.idle d with hd | hd <;> exact nomatch hd.symm.trans hready
  have hcard := Finset.card_le_card hpool
  rw [List.toFinset_card_of_nodup (h.queues.represents .readyQ).nodup] at hcard
  exact hcard.trans (Finset.card_image_le.trans (Finset.card_fin maxTasks).le)

theorem exec_fifoInv (h : BeforeInit c s) {ops : List SchedOp}
    (hl : Along (schedStep c) (SchedLegal c) (s.initSched c) ops) :
    ∃ log xs, FifoInv c log (exec (schedStep c) (s.initSched c) ops) xs :=
  exec_invariant (I := fun s => ∃ log xs, FifoInv c log s xs)
    (fun _ _ ⟨_,_,hi⟩ hop => ⟨_,hi.step hop⟩) ⟨_,_,boot_fifoInv h⟩ hl

/-- No task starves: one with `before.length` others before it in ready_q, of which there are less
than 64, runs from the interrupt after so many that schedule. -/
theorem ready_task_runs (c : SchedCore) (s : Sched) (h : BeforeInit c s) (ops : List SchedOp)
    (hl : Along (schedStep c) (SchedLegal c) (s.initSched c) ops) (before after : List TaskRef)
    (t : TaskRef) (hq : Represents (exec (schedStep c) (s.initSched c) ops).next
      ((exec (schedStep c) (s.initSched c) ops).queues .readyQ) (before ++ t :: after)) :
    before.length < maxTasks ∧ ∀ ops', Along (schedStep c) (SchedLegal c)
      (exec (schedStep c) (s.initSched c) ops) ops' → ops'.countP (·.schedules) = before.length →
        ∀ iar now frame, Schedules iar →
          let s' := exec (schedStep c) (s.initSched c) (ops ++ ops' ++ [.irq iar now frame])
          s'.current c = some t ∧ s'.state t = .running := by
  obtain ⟨log,xs,hinv⟩ := exec_fifoInv h hl
  have hx := (hinv.one.inv.queues.represents .readyQ).unique hq
  refine ⟨?_,fun ops' hl' hcount iar now frame hi => ?_⟩
  · have hlen := hinv.one.inv.ready_length
    rw [hx,List.length_append,List.length_cons] at hlen
    omega
  · obtain ⟨log',ys,after',h',hys⟩ := hinv.comes_first hx hl' hcount
    obtain ⟨_,_,_,_,hcur,hrun⟩ := h'.one.irq_head hi now frame hys
    rw [exec_snoc,exec_append]
    exact ⟨hcur,hrun⟩

/-- Three tasks; the second one runs from the second interrupt that schedules. -/
theorem ready_task_runs_second :
    let ops : List SchedOp :=
      [.createTask 0x100 0x900 0x10000,.createTask 0x200 0x900 0x20000,
       .createTask 0x300 0x900 0x30000]
    let ops' : List SchedOp := [.irq 40 0 0x40000,.irq 30 0 0x40000,.irq 9 0 0x12000]
    let s' := exec (schedStep 0) (bootSched.initSched 0) (ops ++ ops' ++ [.irq 8 10 0x12000])
    s'.current 0 = some (.pool 2) ∧ s'.state (.pool 2) = .running := by
  intro ops ops'
  have hq : Represents (exec (schedStep 0) (bootSched.initSched 0) ops).next
      ((exec (schedStep 0) (bootSched.initSched 0) ops).queues .readyQ)
      ([.pool 1] ++ .pool 2 :: [.pool 3]) := ⟨⟨rfl,rfl,rfl,rfl⟩,rfl,by decide⟩
  exact (ready_task_runs 0 bootSched ⟨fun _ => rfl,fun _ _ => rfl⟩ ops (by decide) [.pool 1]
    [.pool 3] (.pool 2) hq).2 ops' (by decide) (by decide) 8 10 0x12000 (by decide)

theorem scheduleTask_idle (h : SchedInv s s.current xs) (ht : s.current c = some t)
    (frame : BitVec 64) (hn : (s.scheduleTask c frame).1 = some (.idle c)) :
    Represents (s.scheduleTask c frame).2.next ((s.scheduleTask c frame).2.queues .readyQ) [] := by
  have hframe := setFrame_inv h t frame
  obtain ⟨ys,hput,_⟩ := putAway_inv hframe ht
  obtain ⟨m,rest,hm,hrest,hfrom⟩ := pickNext_ready hput (c := c) t
  simp only [Sched.scheduleTask,ht,hm,Option.some.injEq] at hn ⊢
  obtain ⟨_,rfl,_⟩ | hcons := hfrom
  · exact hrest
  · have hready := (hput.filed.ready m).mp (by rw [hcons]; exact List.mem_cons_self)
    rw [hn] at hready
    rcases hput.filed.idle c with hd | hd <;> exact absurd (hd.symm.trans hready) (by decide)

structure NothingToDo (now : BitVec 64) (s : Sched) : Prop where
  ready : ∀ t, s.state t ≠ .ready
  sleeping : ∀ t, s.state t = .sleeping → now < (s.tasks t).wakeTick

theorem OneCore.irq_idle (h : OneCore c s xs) (hidle : s.state (.idle c) = .running)
    {iar : BitVec 32} (hi : Schedules iar) (now frame : BitVec 64)
    (hcur : (schedStep c s (.irq iar now frame)).current c = some (.idle c)) :
    NothingToDo now (schedStep c s (.irq iar now frame)) := by
  obtain ⟨s₁,ys,hs₁,_,hone,hwake,hstate⟩ := schedCheckTasks_switched h now
  obtain ⟨s₁',hs₁',hchecked,_⟩ := schedCheckTasks_exact h.inv.queues h.inv.onStack now
  obtain rfl := Option.some.inj (hs₁.symm.trans hs₁')
  have hidle₁ : s₁.state (.idle c) = .running := by
    rcases hstate (.idle c) with hs | ⟨hs,_⟩
    · exact hs.trans hidle
    · exact absurd (hidle.symm.trans hs) (by decide)
  have hstep : schedStep c s (.irq iar now frame) = (s₁.scheduleTask c frame).2 := by
    simp only [schedStep,schedOp,kernelIrq_schedules hi,hs₁,Option.map_some,Option.getD_some]
    rfl
  obtain ⟨t,ht⟩ := hone.running
  obtain ⟨n,hn,_⟩ := scheduleTask_takes hone.inv ht frame
  obtain ⟨hcur',_,_,_⟩ := scheduleTask_inv hone.inv ht frame hn (hone.next_free n)
  obtain ⟨zs,hone',hswitched⟩ := scheduleTask_switched hone hidle₁ frame now
  rw [hstep] at hcur ⊢
  rw [hcur',Function.update_self] at hcur
  have hempty := scheduleTask_idle hone.inv ht frame (hn.trans hcur)
  refine ⟨fun u hu => ?_,fun u hu => ?_⟩
  · have hmem := (hone'.inv.filed.ready u).mpr hu
    rw [(hone'.inv.queues.represents .readyQ).unique hempty] at hmem
    exact absurd hmem List.not_mem_nil
  · have hs₁u : s₁.state u = .sleeping := by
      rcases hswitched.state u with hs | ⟨_,hr | hr⟩
      · exact hs.symm.trans hu
      · exact absurd (hu.symm.trans hr) (by decide)
      · exact absurd (hu.symm.trans hr) (by decide)
    rw [hswitched.wakeTick,hwake]
    by_contra hdue
    have hsu : s.state u = .sleeping := by
      rcases hstate u with hs | ⟨hs,_⟩
      · exact hs.symm.trans hs₁u
      · exact hs
    have htask := hchecked.tasks u
    rw [if_pos ⟨(h.inv.filed.sleeping u).mpr hsu,decide_eq_true (BitVec.not_lt.mp hdue)⟩] at htask
    rw [Sched.state,htask] at hs₁u
    cases hs₁u

/-- The idle task gets the core from an interrupt only if every other task sleeps beyond the time of
the interrupt, has exited or does not exist. -/
theorem idle_without_work (c : SchedCore) (s : Sched) (h : BeforeInit c s) (ops : List SchedOp)
    (hl : Along (schedStep c) (SchedLegal c) (s.initSched c) ops) (iar : BitVec 32)
    (now frame : BitVec 64) (hi : Schedules iar)
    (hcur : (exec (schedStep c) (s.initSched c) (ops ++ [.irq iar now frame])).current c =
      some (.idle c)) :
    NothingToDo now (exec (schedStep c) (s.initSched c) (ops ++ [.irq iar now frame])) := by
  obtain ⟨log,xs,hinv⟩ := exec_fifoInv h hl
  have hidle := (hinv.one.inv.filed.idle c).resolve_right hinv.idle
  rw [exec_snoc] at hcur ⊢
  exact hinv.one.irq_idle hidle hi now frame hcur

theorem idle_without_work_asleep :
    let ops : List SchedOp :=
      [.createTask 0x100 0x900 0x10000,.irq 30 0 0x40000,.msleep 5 10]
    NothingToDo 12 (exec (schedStep 0) (bootSched.initSched 0) (ops ++ [.irq 30 12 0x12000])) :=
  idle_without_work 0 bootSched ⟨fun _ => rfl,fun _ _ => rfl⟩ _ (by decide) 30 12 0x12000
    (by decide) (by decide)

end Arm64

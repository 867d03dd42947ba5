import Arm64Baremetal.KernelStacks
import Arm64Baremetal.KernelVector

/-!
Tasks on two cores with their registers and memory. An interrupt saves the registers
in a frame on the stack of the task, schedule_task keeps the address of the frame, and
some later interrupt on some core returns through it.
-/

set_option autoImplicit false

namespace Arm64
open Runs KernelVector

/-- `frame c` is the argument of kernel_irq on core `c`. -/
structure Kernel where
  cores : TwoCores
  regs : SchedCore → El1Regs
  frame : SchedCore → Word
  mem : Memory

/-- `run` and `write` are what code does to registers and memory; `eret` has what the
handlers since have left in the FP and SIMD registers. -/
inductive KernelStep where
  | run (r : El1Regs)
  | write (mem : Memory)
  | call (e : CoreStep)
  | irq (esr far : Word)
  | eret (fp : FpRegs)

namespace Kernel

/-- What kernel_irq returns: its argument, or `next->frame`. -/
def nextFrame (k : Kernel) (c : SchedCore) : Word :=
  if k.cores.phase c = .leaving then
    (k.cores.sched.current c).elim (k.frame c) fun next => (k.cores.sched.tasks next).frame
  else k.frame c

/-- The handler on core `c` has not come to schedule_task. -/
def Handling (k : Kernel) (c : SchedCore) : Prop :=
  k.cores.phase c = .handler ∨ k.cores.phase c = .checked

/-- No core is between the interrupt of `t` and schedule_task, or in the code of `t`. -/
def Switched (k : Kernel) (t : TaskRef) : Prop :=
  ∀ c, k.cores.stack c = some t → k.cores.phase c = .leaving

instance (k : Kernel) (c : SchedCore) : Decidable (k.Handling c) :=
  inferInstanceAs (Decidable (_ ∨ _))

instance (k : Kernel) (t : TaskRef) : Decidable (k.Switched t) :=
  inferInstanceAs (Decidable (∀ _, _ → _))

/-- The frame of an interrupted task is in `task->frame`, or still the argument of
kernel_irq. -/
def FrameOf (k : Kernel) (t : TaskRef) (f : Word) : Prop :=
  (∃ c, k.cores.stack c = some t ∧ k.Handling c ∧ k.frame c = f) ∨
    k.Switched t ∧ (k.cores.sched.tasks t).frame = f

structure KeepsFrames (k : Kernel) (mem : Memory) : Prop where
  handling : ∀ c, k.Handling c → SameFrame k.mem mem (k.frame c)
  switched : ∀ t, k.cores.sched.state t ≠ .empty → k.Switched t →
    SameFrame k.mem mem (k.cores.sched.tasks t).frame

instance (k : Kernel) (mem : Memory) : Decidable (k.KeepsFrames mem) :=
  decidable_of_iff
    ((∀ c, k.Handling c → SameFrame k.mem mem (k.frame c)) ∧
      ∀ t, k.cores.sched.state t ≠ .empty → k.Switched t →
        SameFrame k.mem mem (k.cores.sched.tasks t).frame)
    ⟨fun h => ⟨h.1,h.2⟩,fun h => ⟨h.1,h.2⟩⟩

theorem KeepsFrames.frameOf {k : Kernel} {mem : Memory} (h : k.KeepsFrames mem) {t : TaskRef}
    (ht : k.cores.sched.state t ≠ .empty) {f : Word} (hf : k.FrameOf t f) :
    SameFrame k.mem mem f := by
  rcases hf with ⟨c,_,hc,rfl⟩ | ⟨hs,rfl⟩
  · exact h.handling c hc
  · exact h.switched t ht hs

end Kernel

def kernelStep (k : Kernel) : SchedCore × KernelStep → Kernel
  | (c,.run r) => { k with regs := Function.update k.regs c r }
  | (_,.write mem) => { k with mem := mem }
  | (c,.call e) => { k with cores := coreStep k.cores (c,e) }
  | (c,.irq esr far) =>
    { k with
      cores := coreStep k.cores (c,.irq)
      frame := Function.update k.frame c ((k.regs c).sp - frameSize)
      mem := KernelVector.saveContext (k.regs c) esr far k.mem }
  | (c,.eret fp) =>
    { k with
      cores := coreStep k.cores (c,.leave)
      regs := Function.update k.regs c (KernelVector.restoreContext fp (k.nextFrame c) k.mem) }

/-- The steps of a core that neither enter nor leave an interrupt handler. -/
def Calls (k : Kernel) (c : SchedCore) : CoreStep → Prop
  | .irq | .leave => False
  | .schedule frame => frame = k.frame c
  | _ => True

/-- What code does not do to a task that is interrupted: take its registers, or write to
its frame. -/
def KernelLegal (k : Kernel) : SchedCore × KernelStep → Prop
  | (c,.run _) => k.cores.phase c = .code
  | (c,.write mem) => k.cores.phase c ≠ .off ∧ k.KeepsFrames mem
  | (c,.call e) => Calls k c e ∧ CoreLegal k.cores (c,e)
  | (c,.irq esr far) => CoreLegal k.cores (c,.irq) ∧ (k.regs c).TakesIrq ∧
      k.KeepsFrames (KernelVector.saveContext (k.regs c) esr far k.mem)
  | (c,.eret _) => CoreLegal k.cores (c,.leave)

def KernelVacated (k : Kernel) : SchedCore × KernelStep → Prop
  | (c,.call e) => Vacated k.cores (c,e)
  | _ => True

instance (k : Kernel) (c : SchedCore) : (e : CoreStep) → Decidable (Calls k c e)
  | .irq | .leave => inferInstanceAs (Decidable False)
  | .schedule _ => inferInstanceAs (Decidable (_ = _))
  | .start | .createTask _ _ _ | .taskExit | .msleep _ _ | .check _ | .reap =>
    inferInstanceAs (Decidable True)

instance (k : Kernel) : (e : SchedCore × KernelStep) → Decidable (KernelLegal k e)
  | (_,.run _) => inferInstanceAs (Decidable (_ = _))
  | (_,.write _) | (_,.call _) | (_,.irq _ _) => inferInstanceAs (Decidable (_ ∧ _))
  | (c,.eret _) => inferInstanceAs (Decidable (CoreLegal k.cores (c,.leave)))

instance (k : Kernel) : (e : SchedCore × KernelStep) → Decidable (KernelVacated k e)
  | (c,.call e) => inferInstanceAs (Decidable (Vacated k.cores (c,e)))
  | (_,.run _) | (_,.write _) | (_,.irq _ _) | (_,.eret _) => inferInstanceAs (Decidable True)

/-- A run, and for every interrupted task what it had when it was interrupted. A freed
slot of task_pool[] has no task. -/
structure Watched where
  kernel : Kernel
  interrupted : TaskRef → Option El1Regs

def watch (w : Watched) (e : SchedCore × KernelStep) : Watched where
  kernel := kernelStep w.kernel e
  interrupted :=
    match e with
    | (c,.irq _ _) =>
      (w.kernel.cores.stack c).elim w.interrupted fun t =>
        Function.update w.interrupted t (some (w.kernel.regs c))
    | (c,.eret _) =>
      (w.kernel.cores.sched.current c).elim w.interrupted fun t =>
        Function.update w.interrupted t none
    | (c,.call e) => fun t =>
      if (coreStep w.kernel.cores (c,e)).sched.state t = .empty then none else w.interrupted t
    | (_,.run _) | (_,.write _) => w.interrupted

variable {w : Watched} {k : Kernel} {c : SchedCore} {xs : QueueId → List TaskRef}
  {t : TaskRef} {r : El1Regs} {f : Word}

/-- Every interrupted task has a frame, and would get its registers back from it. -/
structure WatchInv (w : Watched) (xs : QueueId → List TaskRef) : Prop where
  cores : StacksInv w.kernel.cores xs
  alive : ∀ t r, w.interrupted t = some r → w.kernel.cores.sched.state t ≠ .empty
  held : ∀ t r, w.interrupted t = some r → ∃ f, w.kernel.FrameOf t f ∧
    ∀ fp, KernelVector.restoreContext fp f w.kernel.mem = { r with fp := fp }
  started : ∀ c r, w.interrupted (.idle c) = some r → w.kernel.cores.phase c ≠ .off

theorem nextFrame_eq (h : StacksInv k.cores xs) (hl : CoreLegal k.cores (c,.leave))
    (hc : k.cores.sched.current c = some t) (hf : k.FrameOf t f) : k.nextFrame c = f := by
  unfold Kernel.nextFrame
  rcases hl with hp | hp
  · obtain ⟨u,hu,hcu⟩ := h.same c (by simp [hp]) (by simp [hp])
    obtain rfl : u = t := Option.some.inj (hcu.symm.trans hc)
    rcases hf with ⟨d,hd,_,rfl⟩ | ⟨hs,_⟩
    · rw [h.apart d c u hd hu,if_neg (by simp [hp])]
    · simp [hs c hu] at hp
  · rcases hf with ⟨d,hd,hh,rfl⟩ | ⟨_,rfl⟩
    · rw [← h.coming c d t hc hd,Kernel.Handling] at hh
      simp [hp] at hh
    · simp [hp,hc]

theorem WatchInv.eret_regs (h : WatchInv w xs) {fp : FpRegs}
    (hl : KernelLegal w.kernel (c,.eret fp)) (hc : w.kernel.cores.sched.current c = some t)
    (ht : w.interrupted t = some r) :
    (kernelStep w.kernel (c,.eret fp)).regs c = { r with fp := fp } := by
  obtain ⟨f,hf,hregs⟩ := h.held t r ht
  have hn := nextFrame_eq h.cores hl hc hf
  simp only [kernelStep,Function.update_self,hn,hregs]

theorem Kernel.FrameOf.stay (hf : k.FrameOf t f) {m : TwoCores}
    (hstack : m.stack = k.cores.stack)
    (hh : ∀ d, k.Handling d → m.phase d = .handler ∨ m.phase d = .checked)
    (hl : ∀ d, k.cores.phase d = .leaving → m.phase d = .leaving)
    (ht : (m.sched.tasks t).frame = (k.cores.sched.tasks t).frame) :
    Kernel.FrameOf { k with cores := m } t f := by
  rcases hf with ⟨d,hd,hp,rfl⟩ | ⟨hs,rfl⟩
  · exact .inl ⟨d,by rwa [hstack],hh d hp,rfl⟩
  · exact .inr ⟨fun d hd => hl d (hs d (by rwa [← hstack])),ht⟩

theorem frameOf_call {e : CoreStep} (hf : k.FrameOf t f)
    (hstack : (coreStep k.cores (c,e)).stack = k.cores.stack)
    (hphase : ∀ d, (coreStep k.cores (c,e)).phase d = k.cores.phase d ∨
      k.Handling d ∧ (coreStep k.cores (c,e)).phase d = .checked)
    (ht : ((coreStep k.cores (c,e)).sched.tasks t).frame = (k.cores.sched.tasks t).frame) :
    (kernelStep k (c,.call e)).FrameOf t f := by
  refine hf.stay hstack (fun d hd => ?_) (fun d hd => ?_) ht
  · rcases hphase d with h | ⟨_,h⟩
    · rw [h]
      exact hd
    · exact .inr h
  · rcases hphase d with h | ⟨hh,_⟩
    · rw [h,hd]
    · rcases hh with hh | hh <;> simp [hd] at hh

theorem frameOf_schedule (h : StacksInv k.cores xs) (hp : k.cores.phase c = .checked)
    (ht : k.cores.sched.state t ≠ .empty) (hf : k.FrameOf t f) :
    (kernelStep k (c,.call (.schedule (k.frame c)))).FrameOf t f := by
  obtain ⟨u,hu,hc⟩ := h.same c (by simp [hp]) (by simp [hp])
  have hk := scheduleTask_keeps hc (h.alive c u hu) (k.frame c)
  have hframe := hk.frame t (by rwa [setFrame_state])
  have hphase : ∀ d, d ≠ c → (coreStep k.cores (c,.schedule (k.frame c))).phase d =
      k.cores.phase d := fun d hd => Function.update_of_ne hd _ _
  have hphase' : (coreStep k.cores (c,.schedule (k.frame c))).phase c = .leaving :=
    Function.update_self ..
  rcases hf with ⟨d,hd,hh,rfl⟩ | ⟨hs,rfl⟩
  · by_cases hdc : d = c
    · subst hdc
      obtain rfl : u = t := Option.some.inj (hu.symm.trans hd)
      refine .inr ⟨fun e he => ?_,?_⟩
      · rw [h.apart e d u he hu]
        exact hphase'
      · exact hframe.trans (by simp [Sched.setTask])
    · exact .inl ⟨d,hd,by simpa only [Kernel.Handling,kernelStep,hphase d hdc] using hh,rfl⟩
  · have htu : t ≠ u := by
      rintro rfl
      simp [hs c hu] at hp
    refine .inr ⟨fun e he => ?_,?_⟩
    · by_cases hec : e = c
      · rw [hec]
        exact hphase'
      · exact (hphase e hec).trans (hs e he)
    · exact hframe.trans (by simp [Sched.setTask,Function.update_of_ne htu])

theorem frameOf_start (hp : k.cores.phase c = .off) (ht : t ≠ .idle c)
    (hs : k.cores.sched.state t ≠ .empty) (hf : k.FrameOf t f) :
    (kernelStep k (c,.call .start)).FrameOf t f := by
  have hstack : ∀ d, d ≠ c → (coreStep k.cores (c,.start)).stack d = k.cores.stack d :=
    fun d hd => Function.update_of_ne hd _ _
  have hphase : ∀ d, d ≠ c → (coreStep k.cores (c,.start)).phase d = k.cores.phase d :=
    fun d hd => Function.update_of_ne hd _ _
  rcases hf with ⟨d,hd,hh,rfl⟩ | ⟨hsw,rfl⟩
  · have hdc : d ≠ c := by
      rintro rfl
      simp [Kernel.Handling,hp] at hh
    exact .inl ⟨d,(hstack d hdc).trans hd,
      by simpa only [Kernel.Handling,kernelStep,hphase d hdc] using hh,rfl⟩
  · refine .inr ⟨fun d hd => ?_,(initSchedCore_keeps c).frame t hs⟩
    by_cases hdc : d = c
    · subst hdc
      change Function.update k.cores.stack d (some (.idle d)) d = some t at hd
      rw [Function.update_self] at hd
      exact absurd (Option.some.inj hd).symm ht
    · exact (hphase d hdc).trans (hsw d ((hstack d hdc).symm.trans hd))

theorem WatchInv.call (h : WatchInv w xs) {e : CoreStep} {ys : QueueId → List TaskRef}
    (hi : StacksInv (coreStep w.kernel.cores (c,e)) ys)
    (hon : ∀ d, w.kernel.cores.phase d ≠ .off → (coreStep w.kernel.cores (c,e)).phase d ≠ .off)
    (hf : ∀ t r f, w.interrupted t = some r →
      (coreStep w.kernel.cores (c,e)).sched.state t ≠ .empty → w.kernel.FrameOf t f →
      (kernelStep w.kernel (c,.call e)).FrameOf t f) : WatchInv (watch w (c,.call e)) ys := by
  have hsome : ∀ t r, (watch w (c,.call e)).interrupted t = some r →
      (coreStep w.kernel.cores (c,e)).sched.state t ≠ .empty ∧ w.interrupted t = some r := by
    intro t r ht
    simp only [watch,Option.ite_none_left_eq_some] at ht
    exact ht
  refine ⟨hi,fun t r ht => (hsome t r ht).1,fun t r ht => ?_,fun d r hd => ?_⟩
  · obtain ⟨hne,ht⟩ := hsome t r ht
    obtain ⟨f,hf',hregs⟩ := h.held t r ht
    exact ⟨f,hf t r f ht hne hf',hregs⟩
  · exact hon d (h.started d r (hsome _ r hd).2)

theorem WatchInv.call_stay (h : WatchInv w xs) {e : CoreStep} {ys : QueueId → List TaskRef}
    (hi : StacksInv (coreStep w.kernel.cores (c,e)) ys)
    (hstack : (coreStep w.kernel.cores (c,e)).stack = w.kernel.cores.stack)
    (hphase : ∀ d, (coreStep w.kernel.cores (c,e)).phase d = w.kernel.cores.phase d ∨
      w.kernel.Handling d ∧ (coreStep w.kernel.cores (c,e)).phase d = .checked)
    (hframe : ∀ t, w.kernel.cores.sched.state t ≠ .empty →
      (coreStep w.kernel.cores (c,e)).sched.state t ≠ .empty →
      ((coreStep w.kernel.cores (c,e)).sched.tasks t).frame =
        (w.kernel.cores.sched.tasks t).frame) : WatchInv (watch w (c,.call e)) ys := by
  refine h.call hi (fun d hd => ?_) fun t r f ht hne hf =>
    frameOf_call hf hstack hphase (hframe t (h.alive t r ht) hne)
  rcases hphase d with hp | ⟨_,hp⟩ <;> simp [hp,hd]

theorem watch_call (h : WatchInv w xs) {e : CoreStep} (hl : KernelLegal w.kernel (c,.call e))
    (hv : Vacated w.kernel.cores (c,e)) : ∃ ys, WatchInv (watch w (c,.call e)) ys := by
  obtain ⟨hcall,hl⟩ := hl
  obtain ⟨ys,hi⟩ := coreStep_inv h.cores hl hv
  refine ⟨ys,?_⟩
  cases e with
  | start =>
    have hp : w.kernel.cores.phase c = .off := hl
    refine h.call hi (fun d hd => ?_) fun t r f ht _ hf => ?_
    · have hdc : d ≠ c := by
        rintro rfl
        exact hd hp
      exact fun hoff => hd ((Function.update_of_ne hdc _ _).symm.trans hoff)
    · refine frameOf_start hp ?_ (h.alive t r ht) hf
      rintro rfl
      exact h.started c r ht hp
  | createTask entry exit stack =>
    exact h.call_stay hi rfl (fun _ => .inl rfl)
      fun t hne _ => (createTask_keeps entry exit stack).frame t hne
  | taskExit =>
    exact h.call_stay hi rfl (fun _ => .inl rfl) fun t hne _ => (taskExit_keeps c).frame t hne
  | msleep ms now =>
    exact h.call_stay hi rfl (fun _ => .inl rfl) fun t hne _ => (msleep_keeps c ms now).frame t hne
  | irq => exact hcall.elim
  | check now =>
    obtain ⟨s',_,hs,_,hw,_⟩ := schedCheckTasks_inv h.cores.inv now
    have hp : w.kernel.cores.phase c = .handler := hl
    refine h.call_stay hi rfl (fun d => ?_) fun t hne _ => ?_
    · by_cases hdc : d = c
      · subst hdc
        exact .inr ⟨.inl hp,Function.update_self ..⟩
      · exact .inl (Function.update_of_ne hdc _ _)
    · simp only [coreStep,hs,Option.getD_some]
      exact hw.keeps.frame t hne
  | schedule frame =>
    obtain rfl : frame = w.kernel.frame c := hcall
    have hp : w.kernel.cores.phase c = .checked := hl
    refine h.call hi (fun d hd hoff => ?_) fun t r f ht _ hf =>
      frameOf_schedule h.cores hp (h.alive t r ht) hf
    by_cases hdc : d = c
    · subst hdc
      exact absurd ((Function.update_self ..).symm.trans hoff) (by simp)
    · exact hd ((Function.update_of_ne hdc _ _).symm.trans hoff)
  | reap =>
    obtain ⟨s',zs,_,hs,_,hz,_⟩ := reaperService_inv h.cores.inv
    have hsched : (coreStep w.kernel.cores (c,.reap)).sched = s' := by
      simp only [coreStep,hs,Option.getD_some]
    refine h.call_stay hi rfl (fun _ => .inl rfl) fun t _ hne => ?_
    rw [hsched] at hne ⊢
    have hm : t ∉ zs := by
      intro hm
      simp [Sched.state,hz.tasks t,hm,Task.zero] at hne
    rw [hz.tasks t,if_neg hm]
  | leave => exact hcall.elim

theorem watch_write (h : WatchInv w xs) {mem : Memory} (hk : w.kernel.KeepsFrames mem) :
    WatchInv (watch w (c,.write mem)) xs := by
  refine ⟨h.cores,h.alive,fun t r ht => ?_,h.started⟩
  obtain ⟨f,hf,hregs⟩ := h.held t r ht
  refine ⟨f,hf,fun fp => ?_⟩
  exact ((hk.frameOf (h.alive t r ht) hf).restoreContext fp).trans (hregs fp)

theorem watch_irq (h : WatchInv w xs) {esr far : Word}
    (hl : KernelLegal w.kernel (c,.irq esr far)) :
    ∃ ys, WatchInv (watch w (c,.irq esr far)) ys := by
  obtain ⟨hp,_,hk⟩ := hl
  obtain ⟨ys,hi⟩ := coreStep_inv h.cores hp trivial
  have hp : w.kernel.cores.phase c = .code := hp
  obtain ⟨t,ht,_⟩ := h.cores.same c (by simp [hp]) (by simp [hp])
  have hphase : (watch w (c,.irq esr far)).kernel.cores.phase =
      Function.update w.kernel.cores.phase c .handler := rfl
  have hpending : (watch w (c,.irq esr far)).interrupted =
      Function.update w.interrupted t (some (w.kernel.regs c)) := by
    simp only [watch,ht,Option.elim_some]
  refine ⟨ys,hi,fun u r hu => ?_,fun u r hu => ?_,fun d r hd => ?_⟩
  all_goals
    rw [hpending,Function.update_apply] at *
  · split at hu
    · rename_i hut
      exact hut ▸ h.cores.alive c t ht
    · exact h.alive u r hu
  · split at hu
    · rename_i hut
      obtain rfl : w.kernel.regs c = r := Option.some.inj hu
      refine ⟨(w.kernel.regs c).sp - frameSize,.inl ⟨c,hut ▸ ht,.inl ?_,Function.update_self ..⟩,
        fun fp => KernelVector.restoreContext_saveContext ..⟩
      rw [hphase,Function.update_self]
    · rename_i hut
      obtain ⟨f,hf,hregs⟩ := h.held u r hu
      refine ⟨f,?_,fun fp => ((hk.frameOf (h.alive u r hu) hf).restoreContext fp).trans (hregs fp)⟩
      have hne : ∀ d, w.kernel.cores.stack d = some u → d ≠ c := by
        rintro d hd rfl
        exact hut (Option.some.inj (hd.symm.trans ht))
      rcases hf with ⟨d,hd,hh,rfl⟩ | ⟨hs,rfl⟩
      · refine .inl ⟨d,hd,?_,Function.update_of_ne (hne d hd) _ _⟩
        rwa [Kernel.Handling,hphase,Function.update_of_ne (hne d hd)]
      · refine .inr ⟨fun d hd => ?_,rfl⟩
        rw [hphase,Function.update_of_ne (hne d hd)]
        exact hs d hd
  · rw [hphase,Function.update_apply]
    split
    · simp
    · rename_i hdc
      split at hd
      · rename_i hdt
        exact absurd (h.cores.ownIdle c d (hdt ▸ ht)).symm (Ne.symm hdc)
      · exact h.started d r hd

theorem watch_eret (h : WatchInv w xs) {fp : FpRegs} (hl : KernelLegal w.kernel (c,.eret fp)) :
    ∃ ys, WatchInv (watch w (c,.eret fp)) ys := by
  obtain ⟨ys,hi⟩ := coreStep_inv h.cores (e := (c,.leave)) hl trivial
  have hon : w.kernel.cores.phase c ≠ .off := by rcases hl with hp | hp <;> simp [hp]
  obtain ⟨n,hn⟩ : ∃ n, w.kernel.cores.sched.current c = some n := by
    by_cases hlv : w.kernel.cores.phase c = .leaving
    · obtain ⟨n,hn,_⟩ := h.cores.leaving c hlv
      exact ⟨n,hn⟩
    · obtain ⟨n,_,hn⟩ := h.cores.same c hon hlv
      exact ⟨n,hn⟩
  have hphase : (watch w (c,.eret fp)).kernel.cores.phase =
      Function.update w.kernel.cores.phase c .code := rfl
  have hstack : (watch w (c,.eret fp)).kernel.cores.stack =
      Function.update w.kernel.cores.stack c (some n) := by rw [← hn]; rfl
  have hpending : (watch w (c,.eret fp)).interrupted = Function.update w.interrupted n none := by
    simp only [watch,hn,Option.elim_some]
  have hsome : ∀ u r, (watch w (c,.eret fp)).interrupted u = some r →
      u ≠ n ∧ w.interrupted u = some r := by
    intro u r hu
    rw [hpending,Function.update_apply,Option.ite_none_left_eq_some] at hu
    exact hu
  refine ⟨ys,hi,fun u r hu => h.alive u r (hsome u r hu).2,fun u r hu => ?_,fun d r hd => ?_⟩
  · obtain ⟨hun,hu⟩ := hsome u r hu
    obtain ⟨f,hf,hregs⟩ := h.held u r hu
    refine ⟨f,?_,hregs⟩
    rcases hf with ⟨d,hd,hh,rfl⟩ | ⟨hs,rfl⟩
    · have hdc : d ≠ c := by
        rintro rfl
        obtain ⟨v,hv,hcv⟩ := h.cores.same d hon (by rcases hh with hh | hh <;> simp [hh])
        obtain rfl : v = u := Option.some.inj (hv.symm.trans hd)
        exact hun (Option.some.inj (hcv.symm.trans hn))
      refine .inl ⟨d,?_,?_,rfl⟩
      · rwa [hstack,Function.update_of_ne hdc]
      · rwa [Kernel.Handling,hphase,Function.update_of_ne hdc]
    · refine .inr ⟨fun d hd => ?_,rfl⟩
      have hdc : d ≠ c := by
        rintro rfl
        rw [hstack,Function.update_self] at hd
        exact hun (Option.some.inj hd).symm
      rw [hstack,Function.update_of_ne hdc] at hd
      rw [hphase,Function.update_of_ne hdc]
      exact hs d hd
  · rw [hphase,Function.update_apply]
    split
    · simp
    · exact h.started d r (hsome _ r hd).2

theorem watch_inv (h : WatchInv w xs) {e : SchedCore × KernelStep} (hl : KernelLegal w.kernel e)
    (hv : KernelVacated w.kernel e) : ∃ ys, WatchInv (watch w e) ys := by
  obtain ⟨c,e⟩ := e
  cases e with
  | run r => exact ⟨xs,h.cores,h.alive,h.held,h.started⟩
  | write mem => exact ⟨xs,watch_write h hl.2⟩
  | call e => exact watch_call h hl hv
  | irq esr far => exact watch_irq h hl
  | eret fp => exact watch_eret h hl

def bootKernel (c : SchedCore) (s : Sched) (regs : SchedCore → El1Regs)
    (frame : SchedCore → Word) (mem : Memory) : Watched where
  kernel := { cores := bootCores c s, regs := regs, frame := frame, mem := mem }
  interrupted _ := none

/-- A task that an interrupt took its core from resumes with the registers it had if and
only if the FP and SIMD registers are what they were, when it is dispatched again. -/
theorem interrupt_invisible_iff (c : SchedCore) (s : Sched) (hb : BeforeInit c s)
    (regs : SchedCore → El1Regs) (frame : SchedCore → Word) (mem : Memory)
    (es : List (SchedCore × KernelStep))
    (h : Along watch (fun w e => KernelLegal w.kernel e ∧ KernelVacated w.kernel e)
      (bootKernel c s regs frame mem) es) :
    let w := exec watch (bootKernel c s regs frame mem) es
    ∀ d fp t r, KernelLegal w.kernel (d,.eret fp) → w.kernel.cores.sched.current d = some t →
      w.interrupted t = some r →
      let k := kernelStep w.kernel (d,.eret fp)
      (k.cores.stack d = some t ∧ k.cores.phase d = .code) ∧ (k.regs d = r ↔ fp = r.fp) := by
  intro w d fp t r hl hc ht k
  obtain ⟨xs,hw⟩ : ∃ xs, WatchInv w xs := by
    refine exec_invariant (I := fun w => ∃ xs, WatchInv w xs)
      (fun _ _ ⟨_,hi⟩ he => watch_inv hi he.1 he.2) ?_ h
    exact ⟨_,bootCores_inv hb,nofun,nofun,nofun⟩
  refine ⟨⟨(Function.update_self ..).trans hc,Function.update_self ..⟩,?_⟩
  rw [hw.eret_regs hl hc ht]
  constructor
  · exact fun hr => congrArg El1Regs.fp hr
  · rintro rfl
    rfl

def taskRegs (sp v : Word) : El1Regs where
  x i := v + BitVec.ofNat 64 i.val
  sp := sp
  pc := 0x100
  pstate := spsrMEl1h
  fp := { v := fun _ _ => v, fpsr := 0, fpcr := 0 }

/-- The idle task creates two tasks. The first one is interrupted, and then the second one,
with other values in its registers; the first one is about to be dispatched again. -/
def switchRun : List (SchedCore × KernelStep) :=
  [(0,.call (.createTask 0x100 0x900 0x10000)),(0,.call (.createTask 0x200 0x900 0x20000)),
   (0,.irq 0 0),(0,.call (.check 0)),(0,.call (.schedule 0x8FEE0)),(0,.eret (taskRegs 0 0).fp),
   (0,.run (taskRegs 0x12F00 1)),
   (0,.irq 0 0),(0,.call (.check 1)),(0,.call (.schedule 0x12DE0)),(0,.eret (taskRegs 0 1).fp),
   (0,.run (taskRegs 0x22F00 2)),
   (0,.irq 0 0),(0,.call (.check 2)),(0,.call (.schedule 0x22DE0))]

def bootWatched : Watched :=
  bootKernel 0 bootSched (fun _ => taskRegs 0x90000 0) (fun _ => 0) fun _ => 0

theorem switchRun_legal :
    Along watch (fun w e => KernelLegal w.kernel e ∧ KernelVacated w.kernel e) bootWatched
      switchRun := by
  decide +kernel

theorem switchRun_interrupted :
    (exec watch bootWatched switchRun).interrupted (.pool 1) = some (taskRegs 0x12F00 1) := rfl

theorem interrupt_invisible_switch :
    let w := exec watch bootWatched switchRun
    let r := taskRegs 0x12F00 1
    w.interrupted (.pool 1) = some r ∧ (kernelStep w.kernel (0,.eret r.fp)).regs 0 = r := by
  intro w r
  have hb : BeforeInit 0 bootSched := ⟨fun _ => rfl,fun _ _ => rfl⟩
  have h := interrupt_invisible_iff 0 bootSched hb _ _ _ switchRun switchRun_legal 0 r.fp
    (.pool 1) r (by decide) (by decide) switchRun_interrupted
  exact ⟨switchRun_interrupted,h.2.mpr rfl⟩

/-- The first task of `switchRun` resumes with the vector registers of the second one. -/
theorem interrupt_visible :
    ¬ ∀ (s : Sched) (regs : SchedCore → El1Regs) (frame : SchedCore → Word) (mem : Memory)
      (es : List (SchedCore × KernelStep)), BeforeInit 0 s →
      Along watch (fun w e => KernelLegal w.kernel e ∧ KernelVacated w.kernel e)
        (bootKernel 0 s regs frame mem) es →
      let w := exec watch (bootKernel 0 s regs frame mem) es
      ∀ d fp t r, KernelLegal w.kernel (d,.eret fp) → w.kernel.cores.sched.current d = some t →
        w.interrupted t = some r → (kernelStep w.kernel (d,.eret fp)).regs d = r := by
  intro h
  have hr := h bootSched _ _ _ switchRun ⟨fun _ => rfl,fun _ _ => rfl⟩ switchRun_legal 0
    (taskRegs 0 2).fp (.pool 1) _ (by decide) (by decide) switchRun_interrupted
  have hv : (2 : Word) = 1 := congrArg (fun r => r.fp.v 0 0) hr
  exact absurd hv (by decide)

end Arm64

import Arm64Baremetal.LockedSections
import Arm64Baremetal.SchedCode
import Arm64Baremetal.SchedIntegrity

/-!
The functions of kernel_sched.c under sched_lock, on two cores that take turns at each instruction
and at each statement: they are the steps of the scheduler, in the order of the lock.
-/

set_option autoImplicit false

namespace Arm64
open Runs Commands Spinlock

abbrev SchedSections := Sections SchedCore LockedCall SchedLocals Sched

def schedSections (l₀ : SchedLocals) (m : SchedSections) (e : SectionEvent SchedCore LockedCall) :
    SchedSections := sectionStep LockedCall.code l₀ m e

/-- The calls of a list one after the other, each of them one step. -/
def InTurn (ks : List (SchedCore × LockedCall)) (s s' : Sched) : Prop :=
  Chain (fun p => p.2.Comes p.1) ks s s'

/-- `free` is for when nobody has the lock. `held` is for when core `c` is at a statement: only its
own statements have come since it took the lock. -/
structure SectionsAtomic (l₀ : SchedLocals) (s₀ : Sched) (m : SchedSections) : Prop where
  free : m.spin.lock.value = 0 → InTurn m.taken s₀ m.shared
  held : ∀ c, (m.spin.cores c).place = .critical →
    ∃ x ks s, m.current c = some x ∧ m.taken = ks ++ [(c,x.call)] ∧ InTurn ks s₀ s ∧
      Upto (x.call.code c,(l₀,s)) (x.rest,(x.locals,m.shared))

theorem inTurn_of_alone {l₀ : SchedLocals} {s₀ s : Sched} {ks : List (SchedCore × LockedCall)}
    (hs : s₀.queues .onStack = .empty) (h : Chain (Alone LockedCall.code l₀) ks s₀ s) :
    InTurn ks s₀ s := by
  refine (h.imp (I := fun s => s.queues .onStack = .empty) ?_ hs).1
  intro p s t hs ⟨l',hends⟩
  have hcomes := LockedCall.comes_of_ends hs hends
  exact ⟨hcomes,hcomes.onStack hs⟩

/-- Whenever sched_lock is free, the data of the scheduler is what the calls come to that have had
it, one after the other in that order. -/
theorem sched_sections_atomic (l₀ : SchedLocals) (regs : SchedCore → Regs)
    (monitor : SchedCore → Bool) (s₀ : Sched) (hs : s₀.queues .onStack = .empty)
    (es : List (SectionEvent SchedCore LockedCall)) :
    SectionsAtomic l₀ s₀ (exec (schedSections l₀) (.start regs monitor s₀) es) := by
  have hinv : SectionsInv LockedCall.code l₀ s₀ _ := sectionsInv_run regs monitor es
  refine ⟨fun hfree => inTurn_of_alone hs (hinv.chain hfree),fun c hc => ?_⟩
  obtain ⟨x,ks,s,hx,htaken,hbefore,hupto⟩ := hinv.midway c hc
  exact ⟨x,ks,s,hx,htaken,inTurn_of_alone hs hbefore,hupto⟩

/-- Core 1 finds the lock taken, and waits for it until core 0 has gone through task_exit. -/
theorem sched_sections_waiting :
    let l₀ : SchedLocals := ⟨0,none,none,.empty⟩
    let start : SchedSections := .start (fun _ _ => 0) (fun _ => false) bootSched
    let insns (c : SchedCore) (n : Nat) : List (SectionEvent SchedCore LockedCall) :=
      List.replicate n (.insn c false)
    let es := [.call 0 .taskExit,.call 1 .reaperTask] ++ insns 0 6 ++ insns 1 4 ++
      List.replicate 9 (.turn 0 (fun _ => 0) false) ++ insns 0 3 ++ insns 1 9
    let s := exec (schedSections l₀) start es
    SectionsAtomic l₀ bootSched s ∧ (s.spin.cores 1).place = .critical := by
  intro l₀ start insns es s
  exact ⟨sched_sections_atomic l₀ (fun _ _ => 0) (fun _ => false) bootSched rfl es,by decide⟩

end Arm64

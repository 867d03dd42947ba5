import Arm64Baremetal.El3Steps

/-!
The four world switches, as equations about the core that makes them: which
context each one fills, which one it loads, and the machine state it returns to.
-/

set_option autoImplicit false

namespace Arm64

/-- Core `c` as the handlers of SMC_YIELD and el3_jump_to_kernel leave it. -/
def System.left (s : System) (c : CoreId) : Machine :=
  (s.cpus c).nsContext.machine (s.core c).machine.x (s.core c).machine.fpcr

/-- Core `c` as SMC_RESUME and a SEEOS call enter the secure world. -/
def System.entered (s : System) (c : CoreId) : Machine :=
  (s.cpus c).sContext.machine (s.core c).machine.x (s.core c).machine.fpcr

/-- What a step that leaves the secure world of `c` does, x1 apart. -/
structure Leaves (s s' : System) (c : CoreId) : Prop where
  ns : (s'.core c).ns = true
  nsContext : (s'.cpus c).nsContext = (s.cpus c).nsContext
  sContext : (s'.cpus c).sContext.Holds (s.core c).machine

theorem leaveSecure_cpus (c : CoreId) (m : Monitor) :
    (leaveSecure c m).cpus c = { m.cpus c with
      sContext := saveContext m.sys ((m.cpus c).sContext.storeFrame 6 m.frame) } := by
  simp [leaveSecure,Monitor.setCpu]

theorem leaveSecure_leaves (s : System) (c : CoreId) (esr far : Word) :
    Leaves s (s.eret c (leaveSecure c (s.trap c esr far))) c where
  ns := by rw [eret_ns]; exact scrNonSecure_ns
  nsContext := by rw [eret_cpus,leaveSecure_cpus]; rfl
  sContext := by
    rw [eret_cpus,leaveSecure_cpus]
    exact holds_storeFrame (Nat.le_refl 6) (s.core c).machine esr far _

theorem leaveSecure_machine {s : System} {c : CoreId} (esr far : Word)
    (h : (s.cpus c).nsContext.initialized ≠ 0) :
    ((s.eret c (leaveSecure c (s.trap c esr far))).core c).machine = s.left c := by
  rw [eret_machine]
  simp only [leaveSecure,Monitor.setCpu,Function.update_self]
  exact restoreContext_loadContext h _ _

theorem jump_leaves (s : System) (c : CoreId) (io : Io) :
    Leaves s (s.eret c ((el3JumpToKernel c (s.trap c 0 0)).emit io)) c where
  ns := by rw [eret_ns]; exact scrNonSecure_ns
  nsContext := (leaveSecure_leaves s c 0 0).nsContext
  sContext := (leaveSecure_leaves s c 0 0).sContext

theorem jump_machine {s : System} {c : CoreId} (io : Io)
    (h : (s.cpus c).nsContext.initialized ≠ 0) :
    ((s.eret c ((el3JumpToKernel c (s.trap c 0 0)).emit io)).core c).machine =
      { s.left c with x := Function.update (s.left c).x 1 seeosPreempted } := by
  have hm := leaveSecure_machine 0 0 h
  rw [eret_machine] at hm ⊢
  rw [← hm]
  rfl

theorem left_atEl3 (s : System) (c : CoreId) : (s.left c).atEl3 = false := by
  simp [System.left,Context.machine,Machine.atEl3,spsrMEl1h]

theorem entered_atEl3 (s : System) (c : CoreId) : (s.entered c).atEl3 = false := by
  simp [System.entered,Context.machine,Machine.atEl3,spsrMEl1h]

theorem enterSecure_ns (s : System) (c : CoreId) (esr far : Word) :
    ((s.eret c (enterSecure c (s.trap c esr far))).core c).ns = false := by
  rw [eret_ns]; exact scrSecure_ns

theorem enterSecure_machine {s : System} {c : CoreId} (esr far : Word)
    (h : (s.cpus c).sContext.initialized ≠ 0) :
    ((s.eret c (enterSecure c (s.trap c esr far))).core c).machine = s.entered c := by
  rw [eret_machine]
  exact restoreContext_loadContext h _ _

theorem seeosCall_cpus (img : Image) (c : CoreId) (m : Monitor) :
    (seeosCall img c m).cpus c = { m.cpus c with
      nsContext := saveContext m.sys ((m.cpus c).nsContext.storeFrame 0 m.frame) } := by
  unfold seeosCall
  dsimp only
  split <;> simp [enterSecure,Monitor.setCpu]

theorem seeosCall_ns (img : Image) (s : System) (c : CoreId) (esr far : Word) :
    ((s.eret c (seeosCall img c (s.trap c esr far))).core c).ns = false := by
  rw [eret_ns]
  unfold seeosCall
  dsimp only
  split <;> exact scrSecure_ns

theorem seeosCall_nsContext (img : Image) (s : System) (c : CoreId) (esr far : Word) :
    ((s.eret c (seeosCall img c (s.trap c esr far))).cpus c).nsContext.Holds
      (s.core c).machine := by
  rw [eret_cpus,seeosCall_cpus]
  exact holds_storeFrame (Nat.zero_le 6) (s.core c).machine esr far _

theorem seeosCall_sContext (img : Image) (s : System) (c : CoreId) (esr far : Word) :
    ((s.eret c (seeosCall img c (s.trap c esr far))).cpus c).sContext =
      (s.cpus c).sContext := by
  rw [eret_cpus,seeosCall_cpus]; rfl

theorem seeosCall_machine {s : System} {c : CoreId} (img : Image) (esr far : Word)
    (h : (s.cpus c).sContext.initialized ≠ 0) :
    ((s.eret c (seeosCall img c (s.trap c esr far))).core c).machine = s.entered c := by
  have hs : seeosCall img c (s.trap c esr far) = enterSecure c ((s.trap c esr far).setCpu c _) :=
    if_pos (by simpa [Monitor.setCpu] using h)
  rw [eret_machine,hs]
  simp only [enterSecure,Monitor.setCpu,Function.update_self]
  exact restoreContext_loadContext h _ _

theorem seeosCall_first {s : System} {c : CoreId} (img : Image) (esr far : Word)
    (h : (s.cpus c).sContext.initialized = 0) :
    ((s.eret c (seeosCall img c (s.trap c esr far))).core c).machine =
      { (s.core c).machine with
        pc := img.seeosEntry
        pstate := spsrMEl1h
        sys := disableMmuEl1 (s.core c).machine.sys } := by
  have hs : seeosCall img c (s.trap c esr far) = _ :=
    if_neg (by simpa [Monitor.setCpu] using h)
  rw [eret_machine,hs]
  simp only [El3Vector.restoreContext,Monitor.setCpu,System.trap,El3Vector.saveContext,
    El3Vector.fpsr_halves]

theorem seeosCall_secure (img : Image) (s : System) (c : CoreId) (esr far : Word) :
    (s.eret c (seeosCall img c (s.trap c esr far))).Secure c := by
  refine ⟨?_,seeosCall_ns img s c esr far⟩
  by_cases h : (s.cpus c).sContext.initialized = 0
  · rw [seeosCall_first img esr far h]
    simp [Machine.atEl3,spsrMEl1h]
  · rw [seeosCall_machine img esr far h]
    exact entered_atEl3 s c

theorem step_run {s : System} {c : CoreId} {m : Machine} (img : Image)
    (hs : (s.core c).machine.atEl3 = false) (hm : m.atEl3 = false) :
    step img s (.run c m) = s.setMachine c m := by
  simp [step,hs,hm]

theorem System.Secure.run {s : System} {c : CoreId} {m : Machine} (img : Image)
    (hs : s.Secure c) (hm : m.atEl3 = false) : (step img s (.run c m)).Secure c := by
  rw [step_run img hs.1 hm]
  simpa [System.Secure,System.setMachine,Core.ns,hm] using hs.2

theorem step_core_ne (img : Image) {s : System} {e : Event} {c : CoreId} (h : e.core ≠ c) :
    (step img s e).core c = s.core c := by
  cases e with
  | run d m =>
    have hd : c ≠ d := fun hc => h hc.symm
    simp only [step]
    split
    · simp [System.setMachine,Function.update_of_ne hd]
    · split <;> simp [System.setMachine,Function.update_of_ne hd]
  | sync d esr far =>
    simp only [step]
    split
    · rfl
    · exact eret_core_ne (fun hc => h hc.symm) _
  | fiq d iar =>
    have hd : c ≠ d := fun hc => h hc.symm
    simp only [step]
    split
    · exact eret_core_ne hd _
    · simp [System.park,System.leave,Function.update_of_ne hd]

end Arm64

import Arm64Baremetal.El3Preemption

/-!
SMC_RESUME after a preemption. It loads the secure context into whatever frame
trapped and saves nothing of the kernel, so what comes back to either side
depends on the registers of the kernel that resumes.
-/

set_option autoImplicit false

namespace Arm64
open Runs

/-- The registers of a caller after its `smc`, on return. -/
structure ReturnsTo (m n : Machine) : Prop where
  pc : m.pc = n.pc
  x : ∀ i : Fin 31, 6 ≤ i.val → m.x i = n.x i
  v : m.v = n.v
  sp : m.sys.sp = n.sys.sp

theorem SameCallState.returnsTo {m n : Machine} (h : SameCallState m n) : ReturnsTo m n :=
  ⟨h.pc,h.x,h.v,congrArg SysRegs.sp h.sys⟩

theorem ReturnsTo.trans {m n k : Machine} (h : ReturnsTo m n) (h' : ReturnsTo n k) :
    ReturnsTo m k :=
  ⟨h.pc.trans h'.pc,fun i hi => (h.x i hi).trans (h'.x i hi),h.v.trans h'.v,h.sp.trans h'.sp⟩

/-- A preempted call, the kernel's steps up to its SMC_RESUME, and the secure
world's steps up to its SMC_YIELD. -/
structure Resumption (img : Image) (c : CoreId) extends Preemption img c where
  steps : List Event
  staysOut : Along (step img) (StaysOut c) toPreemption.preempted steps
  resume : Event
  resumes : (exec (step img) toPreemption.preempted steps).NonSecure c ∧
    (exec (step img) toPreemption.preempted steps).smc c resume = some smcResume
  finish : List Event
  keeps : Along (step img) (KeepsContexts c)
    (step img (exec (step img) toPreemption.preempted steps) resume) finish
  yield : Event
  yields : (exec (step img) (step img (exec (step img) toPreemption.preempted steps) resume)
      finish).Secure c ∧
    (exec (step img) (step img (exec (step img) toPreemption.preempted steps) resume)
      finish).smc c yield = some smcYield

namespace Resumption

variable {img : Image} {c : CoreId} (r : Resumption img c)

def atResume : System := exec (step img) r.preempted r.steps
def resumer : Machine := (r.atResume.core c).machine
def afterResume : System := step img r.atResume r.resume
def resumed : Machine := (r.afterResume.core c).machine
def atYield : System := exec (step img) r.afterResume r.finish
def returned : Machine := ((step img r.atYield r.yield).core c).machine

/-- What the last SMC_YIELD or interrupt 1021 before the SMC_RESUME saved. -/
def lastSaved : Machine := saved img c r.interrupted r.preempted r.steps

/-- Neither side can tell that the secure world was interrupted. -/
structure Transparent : Prop where
  secure : SameState r.resumed r.interrupted
  kernel : ReturnsTo r.returned r.resumer

/-- The kernel resumes with the six registers of the interrupted code, which ran with
the PSTATE that every entry sets, and from the call that was preempted. -/
structure Matches : Prop where
  arguments : ∀ i : Fin 31, i.val < 6 → r.resumer.x i = r.interrupted.x i
  pstate : r.interrupted.pstate = spsrMEl1h
  saved : SameCallState r.lastSaved r.interrupted
  caller : ReturnsTo r.caller r.resumer

theorem sContext_atResume : (r.atResume.cpus c).sContext.Holds r.lastSaved :=
  sContext_run r.steps r.leaves.sContext

theorem nsContext_atYield : (r.atYield.cpus c).nsContext.Holds r.caller := by
  have hs : Along (step img) (NoSeeosCall c) r.preempted r.steps := r.staysOut.imp fun _ _ h => h.1
  have hf : Along (step img) (NoSeeosCall c) r.afterResume r.finish :=
    r.keeps.imp fun _ _ h => h.1.1
  have hr : NoSeeosCall c r.atResume r.resume := by
    rintro ⟨f,hf,hw⟩
    obtain rfl := Option.some.inj (hf.symm.trans r.resumes.2)
    exact absurd hw (by decide)
  rw [atYield,nsContext_run hf,afterResume,nsContext_step hr,atResume,nsContext_run hs]
  exact r.nsContext_preempted

theorem resumed_eq : r.resumed = r.atResume.entered c := by
  obtain ⟨esr,far,hs⟩ := step_of_resume img r.resumes.2
  rw [resumed,afterResume]
  exact (congrArg (fun s => (s.core c).machine) hs).trans
    (enterSecure_machine esr far r.sContext_atResume.initialized)

theorem resumed_sameCallState : SameCallState r.resumed r.lastSaved := by
  rw [resumed_eq]
  exact r.sContext_atResume.sameCallState _ _

theorem resumed_x_low {i : Fin 31} (hi : i.val < 6) : r.resumed.x i = r.resumer.x i := by
  rw [resumed_eq]
  exact Context.machine_x_low _ _ _ hi

theorem resumed_pstate : r.resumed.pstate = spsrMEl1h := by rw [resumed_eq]; rfl

theorem returned_returnsTo : ReturnsTo r.returned r.caller :=
  (returns_of_saves (.inl r.yields.2) r.nsContext_atYield).2.returnsTo

end Resumption

variable {img : Image} {c : CoreId}

theorem SameState.sameCallState {m n : Machine} (h : SameState m n) : SameCallState m n :=
  ⟨fun i _ => congrFun h.x i,h.v,h.fpsr,h.pc,h.sys⟩

theorem ReturnsTo.symm {m n : Machine} (h : ReturnsTo m n) : ReturnsTo n m :=
  ⟨h.pc.symm,fun i hi => (h.x i hi).symm,h.v.symm,h.sp.symm⟩

/-- A preemption is transparent exactly when the registers that the monitor does not
save happen to agree. -/
theorem resumption_transparent_iff (r : Resumption img c) : r.Transparent ↔ r.Matches := by
  have hx := r.resumed_sameCallState
  constructor
  · intro h
    refine ⟨fun i hi => ?_,?_,hx.symm.trans h.secure.sameCallState,
      r.returned_returnsTo.symm.trans h.kernel⟩
    · rw [← r.resumed_x_low hi,h.secure.x]
    · rw [← h.secure.pstate,r.resumed_pstate]
  · intro h
    have hs := hx.trans h.saved
    refine ⟨⟨funext fun i => ?_,hs.v,hs.fpsr,hs.pc,?_,hs.sys⟩,
      r.returned_returnsTo.trans h.caller⟩
    · by_cases hi : 6 ≤ i.val
      · exact hs.x i hi
      · have h5 : i.val < 6 := by omega
        rw [r.resumed_x_low h5,h.arguments i h5]
    · rw [r.resumed_pstate,h.pstate]

/-- The kernel resumes its preempted unwrap call from another place than the call. -/
def resumedUnwrap : Resumption testImage 0 where
  toPreemption := preemptedUnwrap 7
  steps := [.run 0 (.calling smcResume 0x40300204)]
  staysOut := ⟨⟨nofun,nofun⟩,trivial⟩
  resume := .sync 0 smcEsr 0
  resumes := by decide
  finish := [.run 0 (.calling smcYield 0x40041104)]
  keeps := ⟨⟨⟨nofun,nofun⟩,nofun,nofun⟩,trivial⟩
  yield := .sync 0 smcEsr 0
  yields := by decide

/-- The unwrapped key in x0 became the number of SMC_RESUME, and the kernel goes on
after its SEEOS call and not after its SMC_RESUME. -/
theorem resumedUnwrap_not_transparent :
    resumedUnwrap.interrupted.x 0 = 7 ∧ resumedUnwrap.resumed.x 0 = 0x20000030 ∧
    resumedUnwrap.resumer.pc = 0x40300204 ∧ resumedUnwrap.returned.pc = 0x40300104 ∧
    ¬ resumedUnwrap.Transparent := by
  have hi : resumedUnwrap.interrupted.x 0 = 7 := by decide
  have hr : resumedUnwrap.resumed.x 0 = 0x20000030 := by decide
  refine ⟨hi,hr,by decide,by decide,fun h => ?_⟩
  have hx := congrFun h.secure.x 0
  rw [hi,hr] at hx
  exact absurd hx (by decide)

end Arm64

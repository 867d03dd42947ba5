import Arm64Baremetal.El3Switch
import Arm64Baremetal.Runs

/-!
A SEEOS call that is preempted in the secure world by interrupt 1021, what the
kernel then sees in its registers, and what an SMC_RESUME brings back.
-/

set_option autoImplicit false

namespace Arm64
open Runs

def NoSeeosCall (c : CoreId) (s : System) (e : Event) : Prop := ¬ s.SeeosCall c e

def StaysOut (c : CoreId) (s : System) (e : Event) : Prop :=
  NoSeeosCall c s e ∧ s.smc c e ≠ some smcResume

/-- The event makes none of the four world switches of core `c`. -/
def KeepsContexts (c : CoreId) (s : System) (e : Event) : Prop :=
  StaysOut c s e ∧ s.smc c e ≠ some smcYield ∧ e.ack c ≠ some interruptHpiNsg1

def System.SavesSecure (s : System) (c : CoreId) (e : Event) : Prop :=
  s.smc c e = some smcYield ∨ e.ack c = some interruptHpiNsg1

instance (s : System) (c : CoreId) (e : Event) : Decidable (s.SavesSecure c e) :=
  inferInstanceAs (Decidable (_ ∨ _))

/-- The state that the run saves last, or `m` if it saves none. -/
def saved (img : Image) (c : CoreId) (m : Machine) : System → List Event → Machine
  | _, [] => m
  | s, e :: es => saved img c (if s.SavesSecure c e then (s.core c).machine else m)
      (step img s e) es

variable {img : Image} {c : CoreId}

theorem smc_eq_none_of_ack {s : System} {e : Event} {i : BitVec 32} (h : e.ack c = some i) :
    s.smc c e = none := by
  cases e with
  | run d m => contradiction
  | sync d esr far => contradiction
  | fiq d iar => rfl

theorem step_of_seeosCall (img : Image) {s : System} {e : Event} (h : s.SeeosCall c e) :
    ∃ esr far, step img s e = s.eret c (seeosCall img c (s.trap c esr far)) := by
  obtain ⟨f,hf,hw⟩ := h
  cases step_cases img s e c with
  | yield esr far hy hs =>
    obtain rfl := Option.some.inj (hf.symm.trans hy)
    exact absurd hw (by decide)
  | resume esr far hr hs =>
    obtain rfl := Option.some.inj (hf.symm.trans hr)
    exact absurd hw (by decide)
  | seeos esr far hc hs => exact ⟨esr,far,hs⟩
  | preempt io hp hs => exact absurd ((smc_eq_none_of_ack hp).symm.trans hf) nofun
  | calm hy hr hc hp hs => exact absurd ⟨f,hf,hw⟩ hc

theorem step_of_yield (img : Image) {s : System} {e : Event} (h : s.smc c e = some smcYield) :
    ∃ esr far, step img s e = s.eret c (leaveSecure c (s.trap c esr far)) := by
  cases step_cases img s e c with
  | yield esr far hy hs => exact ⟨esr,far,hs⟩
  | resume esr far hr hs => exact absurd (h.symm.trans hr) (by decide)
  | seeos esr far hc hs =>
    obtain ⟨f,hf,hw⟩ := hc
    obtain rfl := Option.some.inj (h.symm.trans hf)
    exact absurd hw (by decide)
  | preempt io hp hs => exact absurd ((smc_eq_none_of_ack hp).symm.trans h) nofun
  | calm hy hr hc hp hs => exact absurd h hy

theorem step_of_resume (img : Image) {s : System} {e : Event} (h : s.smc c e = some smcResume) :
    ∃ esr far, step img s e = s.eret c (enterSecure c (s.trap c esr far)) := by
  cases step_cases img s e c with
  | yield esr far hy hs => exact absurd (h.symm.trans hy) (by decide)
  | resume esr far hr hs => exact ⟨esr,far,hs⟩
  | seeos esr far hc hs =>
    obtain ⟨f,hf,hw⟩ := hc
    obtain rfl := Option.some.inj (h.symm.trans hf)
    exact absurd hw (by decide)
  | preempt io hp hs => exact absurd ((smc_eq_none_of_ack hp).symm.trans h) nofun
  | calm hy hr hc hp hs => exact absurd h hr

theorem step_of_preempt (img : Image) {s : System} {e : Event}
    (h : e.ack c = some interruptHpiNsg1) :
    ∃ io, step img s e = s.eret c ((el3JumpToKernel c (s.trap c 0 0)).emit io) := by
  have hn := smc_eq_none_of_ack (s := s) h
  cases step_cases img s e c with
  | yield esr far hy hs => exact absurd (hn.symm.trans hy) nofun
  | resume esr far hr hs => exact absurd (hn.symm.trans hr) nofun
  | seeos esr far hc hs =>
    obtain ⟨f,hf,hw⟩ := hc
    exact absurd (hn.symm.trans hf) nofun
  | preempt io hp hs => exact ⟨io,hs⟩
  | calm hy hr hc hp hs => exact absurd h hp

theorem nsContext_step {s : System} {e : Event} (h : NoSeeosCall c s e) :
    ((step img s e).cpus c).nsContext = (s.cpus c).nsContext := by
  cases step_cases img s e c with
  | yield esr far hy hs => rw [hs]; exact (leaveSecure_leaves s c esr far).nsContext
  | resume esr far hr hs => rw [hs]; rfl
  | seeos esr far hc hs => exact absurd hc h
  | preempt io hp hs => rw [hs]; exact (jump_leaves s c io).nsContext
  | calm hy hr hc hp hs => exact hs.contexts.ns

theorem nsContext_run {s : System} {es : List Event}
    (h : Along (step img) (NoSeeosCall c) s es) :
    ((exec (step img) s es).cpus c).nsContext = (s.cpus c).nsContext :=
  exec_invariant (I := fun t => (t.cpus c).nsContext = (s.cpus c).nsContext)
    (fun _ _ ht hk => (nsContext_step hk).trans ht) rfl h

theorem sContext_saves {s : System} {e : Event} (h : s.SavesSecure c e) :
    ((step img s e).cpus c).sContext.Holds (s.core c).machine := by
  rcases h with hy | hp
  · obtain ⟨esr,far,hs⟩ := step_of_yield img hy
    rw [hs]
    exact (leaveSecure_leaves s c esr far).sContext
  · obtain ⟨io,hs⟩ := step_of_preempt img (s := s) hp
    rw [hs]
    exact (jump_leaves s c io).sContext

theorem sContext_keeps {s : System} {e : Event} (h : ¬ s.SavesSecure c e) :
    ((step img s e).cpus c).sContext = (s.cpus c).sContext := by
  cases step_cases img s e c with
  | yield esr far hy hs => exact absurd (.inl hy) h
  | resume esr far hr hs => rw [hs]; rfl
  | seeos esr far hc hs => rw [hs]; exact seeosCall_sContext img s c esr far
  | preempt io hp hs => exact absurd (.inr hp) h
  | calm hy hr hc hp hs => exact hs.contexts.s

theorem sContext_run {s : System} {m : Machine} (es : List Event)
    (hm : (s.cpus c).sContext.Holds m) :
    ((exec (step img) s es).cpus c).sContext.Holds (saved img c m s es) := by
  induction es generalizing s m with
  | nil => exact hm
  | cons e es ih =>
    refine ih ?_
    by_cases hs : s.SavesSecure c e
    · rw [if_pos hs]; exact sContext_saves hs
    · rw [if_neg hs,sContext_keeps hs]; exact hm

theorem returns_of_saves {s : System} {e : Event} {k : Machine} (h : s.SavesSecure c e)
    (hk : (s.cpus c).nsContext.Holds k) :
    (step img s e).NonSecure c ∧ SameCallState ((step img s e).core c).machine k := by
  have hcall : SameCallState (s.left c) k := hk.sameCallState _ _
  rcases h with hy | hp
  · obtain ⟨esr,far,hs⟩ := step_of_yield img hy
    have hm := leaveSecure_machine esr far hk.initialized
    rw [hs]
    refine ⟨⟨?_,(leaveSecure_leaves s c esr far).ns⟩,?_⟩
    · rw [hm]; exact left_atEl3 s c
    · rw [hm]; exact hcall
  · obtain ⟨io,hs⟩ := step_of_preempt img (s := s) hp
    have hm := jump_machine io hk.initialized
    rw [hs]
    refine ⟨⟨?_,(jump_leaves s c io).ns⟩,?_⟩
    · rw [hm]; exact left_atEl3 s c
    · rw [hm]
      refine ⟨fun i hi => ?_,hcall.v,hcall.fpsr,hcall.pc,hcall.sys⟩
      -- x1 alone is the monitor's
      have h1 : i ≠ 1 := by rintro rfl; exact absurd hi (by decide)
      rw [← hcall.x i hi]
      exact Function.update_of_ne h1 _ _

/-- A core makes a SEEOS call, and before the next one interrupt 1021 finds it in
the secure world. Earlier preemptions of the same call are part of `work`. -/
structure Preemption (img : Image) (c : CoreId) where
  before : System
  call : Event
  nonSecure : before.NonSecure c
  seeosCall : before.SeeosCall c call
  work : List Event
  noCall : Along (step img) (NoSeeosCall c) (step img before call) work
  secure : (exec (step img) (step img before call) work).Secure c
  iar : BitVec 32
  ack : interruptIdMask iar = interruptHpiNsg1

namespace Preemption

variable (p : Preemption img c)

def caller : Machine := (p.before.core c).machine
def atFiq : System := exec (step img) (step img p.before p.call) p.work
def interrupted : Machine := (p.atFiq.core c).machine
def preempted : System := step img p.atFiq (.fiq c p.iar)

def reply : Machine := (p.preempted.core c).machine

theorem ack_eq : (Event.fiq c p.iar).ack c = some interruptHpiNsg1 := by
  simp [Event.ack,p.ack]

theorem nsContext_atFiq : (p.atFiq.cpus c).nsContext.Holds p.caller := by
  obtain ⟨esr,far,hs⟩ := step_of_seeosCall img p.seeosCall
  rw [atFiq,nsContext_run p.noCall,hs]
  exact seeosCall_nsContext img p.before c esr far

theorem leaves : Leaves p.atFiq p.preempted c := by
  obtain ⟨io,hs⟩ := step_of_preempt img (s := p.atFiq) p.ack_eq
  rw [preempted,hs]
  exact jump_leaves p.atFiq c io

theorem nsContext_preempted : (p.preempted.cpus c).nsContext.Holds p.caller := by
  rw [p.leaves.nsContext]
  exact p.nsContext_atFiq

theorem reply_eq : p.reply = { p.atFiq.left c with
    x := Function.update (p.atFiq.left c).x 1 seeosPreempted } := by
  obtain ⟨io,hs⟩ := step_of_preempt img (s := p.atFiq) p.ack_eq
  rw [reply,preempted,hs]
  exact jump_machine io p.nsContext_atFiq.initialized

theorem reply_x_low {i : Fin 31} (hi : i.val < 6) (h1 : i ≠ 1) :
    p.reply.x i = p.interrupted.x i := by
  simp only [p.reply_eq,Function.update_of_ne h1]
  exact Context.machine_x_low _ _ _ hi

theorem reply_x_one : p.reply.x 1 = seeosPreempted := by
  simp only [p.reply_eq,Function.update_self]

theorem reply_pstate : p.reply.pstate = spsrMEl1h := by rw [p.reply_eq]; rfl

theorem reply_sameCallState : SameCallState p.reply p.caller :=
  (returns_of_saves (.inr p.ack_eq) p.nsContext_atFiq).2

end Preemption

theorem SameCallState.symm {m n : Machine} (h : SameCallState m n) : SameCallState n m :=
  ⟨fun i hi => (h.x i hi).symm,h.v.symm,h.fpsr.symm,h.pc.symm,h.sys.symm⟩

theorem SameCallState.trans {m n k : Machine} (h : SameCallState m n) (h' : SameCallState n k) :
    SameCallState m k :=
  ⟨fun i hi => (h.x i hi).trans (h'.x i hi),h.v.trans h'.v,h.fpsr.trans h'.fpsr,
    h.pc.trans h'.pc,h.sys.trans h'.sys⟩

/-- Two preempted calls from the same kernel state return to the kernel in the same
state exactly when the secure world had the same x0 and x2..x5. -/
theorem reply_same_iff (p q : Preemption img c) (h : SameCallState p.caller q.caller) :
    SameState p.reply q.reply ↔
      ∀ i : Fin 31, i.val < 6 → i ≠ 1 → p.interrupted.x i = q.interrupted.x i := by
  constructor
  · intro hs i hi h1
    rw [← p.reply_x_low hi h1,← q.reply_x_low hi h1,hs.x]
  · intro hx
    have hc := p.reply_sameCallState.trans (h.trans q.reply_sameCallState.symm)
    refine ⟨funext fun i => ?_,hc.v,hc.fpsr,hc.pc,?_,hc.sys⟩
    · by_cases hi : 6 ≤ i.val
      · exact hc.x i hi
      by_cases h1 : i = 1
      · subst h1
        rw [p.reply_x_one,q.reply_x_one]
      · have h5 : i.val < 6 := by omega
        rw [p.reply_x_low h5 h1,q.reply_x_low h5 h1,hx i h5 h1]
    · rw [p.reply_pstate,q.reply_pstate]

def testImage : Image := ⟨0x40040000,0x40000100,fun _ => .off⟩

def kernelCalling (m : Machine) : System := (System.boot testImage 0x40300000 .zero).setMachine 0 m

/-- The kernel of core 0 asks to unwrap a key, and interrupt 1021 arrives as
see_unwrap_key returns with the plain key in x0. -/
def preemptedUnwrap (key : Word) : Preemption testImage 0 where
  before := kernelCalling (.calling 0x10000040 0x40300104)
  call := .sync 0 smcEsr 0
  nonSecure := by decide
  seeosCall := ⟨0x10000040,by decide,by decide⟩
  work := [.run 0 { Machine.calling 0 0x40041000 with x := Function.update Machine.zero.x 0 key }]
  noCall := ⟨nofun,trivial⟩
  secure := by
    have hm : (Machine.calling 0 0x40041000).atEl3 = false := by decide
    rw [exec_cons,exec_nil]
    exact System.Secure.run testImage (by decide) hm
  iar := 1021
  ack := by decide

/-- The kernel reads the plain key in x0 of its preempted call. -/
theorem reply_of_preemptedUnwrap :
    (preemptedUnwrap 7).caller = (preemptedUnwrap 9).caller ∧
    (preemptedUnwrap 7).reply.x 0 = 7 ∧
    ¬ SameState (preemptedUnwrap 7).reply (preemptedUnwrap 9).reply := by
  refine ⟨rfl,by decide,fun h => ?_⟩
  have h0 : (preemptedUnwrap 7).reply.x 0 = (preemptedUnwrap 9).reply.x 0 := congrFun h.x 0
  exact absurd h0 (by decide)

theorem reply_same_unwrap :
    SameCallState (preemptedUnwrap 7).caller (preemptedUnwrap 9).caller ∧
    (SameState (preemptedUnwrap 7).reply (preemptedUnwrap 9).reply ↔
      ∀ i : Fin 31, i.val < 6 → i ≠ 1 →
        (preemptedUnwrap 7).interrupted.x i = (preemptedUnwrap 9).interrupted.x i) := by
  have h : SameCallState (preemptedUnwrap 7).caller (preemptedUnwrap 9).caller :=
    ⟨fun _ _ => rfl,rfl,rfl,rfl,rfl⟩
  exact ⟨h,reply_same_iff (preemptedUnwrap 7) (preemptedUnwrap 9) h⟩

end Arm64

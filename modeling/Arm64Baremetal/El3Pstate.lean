import Arm64Baremetal.El3Preemption

/-!
PSTATE across an SMC. The trap frame carries the SPSR of the caller, but context_t has no
field for it: an SMC that comes back through a saved context comes back with the PSTATE
that the monitor chooses.
-/

set_option autoImplicit false

namespace Arm64
open Runs

/-- The functions that the monitor answers by switching worlds. -/
def Switching (f : BitVec 32) : Prop := f = smcYield ∨ f = smcResume ∨ worldOf f = seeosWorldId

instance (f : BitVec 32) : Decidable (Switching f) := inferInstanceAs (Decidable (_ ∨ _ ∨ _))

/-- The steps that load the secure context of core `c`, or start the secure world. -/
def System.EntersSecure (s : System) (c : CoreId) (e : Event) : Prop :=
  s.SeeosCall c e ∨ s.smc c e = some smcResume

instance (s : System) (c : CoreId) (e : Event) : Decidable (s.EntersSecure c e) :=
  inferInstanceAs (Decidable (_ ∨ _))

/-- The SMC that core `c` takes in `s` comes back to its caller: at once through the trap
frame, or later through the context that the last SEEOS call saved. -/
inductive Returned (img : Image) (c : CoreId) (s : System) (call : Event) : System → Prop where
  | frame (f : BitVec 32) (smc : s.smc c call = some f) (stays : ¬ Switching f) :
      Returned img c s call (step img s call)
  | context (f : BitVec 32) (pre rest : List Event) (leave : Event)
      (smc : s.smc c call = some f) (switches : Switching f)
      (run : call :: rest = pre ++ [leave])
      (noCall : Along (step img) (NoSeeosCall c) (step img s call) rest)
      (saves : (exec (step img) s pre).SavesSecure c leave)
      (back : ((exec (step img) s (call :: rest)).core c).machine.pc = (s.core c).machine.pc) :
      Returned img c s call (exec (step img) s (call :: rest))

/-- The secure world that leaves core `c` by the SMC_YIELD of `s` is entered again. -/
inductive Reentered (img : Image) (c : CoreId) (s : System) (yield : Event) : System → Prop where
  | mk (rest : List Event) (enter : Event) (secure : s.Secure c)
      (smc : s.smc c yield = some smcYield)
      (keeps : Along (step img) (fun s e => ¬ s.SavesSecure c e) (step img s yield) rest)
      (enters : (exec (step img) (step img s yield) rest).EntersSecure c enter) :
      Reentered img c s yield (step img (exec (step img) (step img s yield) rest) enter)

variable {img : Image} {c : CoreId} {s : System} {e : Event} {f : BitVec 32}

theorem smc_eq_some (h : s.smc c e = some f) :
    ∃ esr far, e = .sync c esr far ∧ (s.core c).machine.atEl3 = false ∧ esrEcMask esr = ecSmc ∧
      f = ((s.core c).machine.x 0).setWidth 32 := by
  cases e with
  | run d m => contradiction
  | sync d esr far =>
    change (if d = c ∧ (s.core c).machine.atEl3 = false ∧ esrEcMask esr = ecSmc then
      some (((s.core c).machine.x 0).setWidth 32) else none) = some f at h
    by_cases hd : d = c ∧ (s.core c).machine.atEl3 = false ∧ esrEcMask esr = ecSmc
    · rw [if_pos hd] at h
      obtain ⟨rfl,h3,hec⟩ := hd
      exact ⟨esr,far,rfl,h3,hec,(Option.some.inj h).symm⟩
    · rw [if_neg hd] at h
      contradiction
  | fiq d iar => contradiction

theorem step_of_stays (img : Image) (h : s.smc c e = some f) (hf : ¬ Switching f) :
    ∃ esr far m, (s.trap c esr far).Quiet m ∧ step img s e = s.eret c m := by
  obtain ⟨esr,far,rfl,h3,hec,rfl⟩ := smc_eq_some h
  refine ⟨esr,far,el3SyncLower img c (s.trap c esr far),?_,if_neg (by simp [h3])⟩
  rcases el3SyncLower_cases img c (s.trap c esr far) hec with
    ⟨hy,_⟩ | ⟨hr,_⟩ | ⟨hs,_⟩ | ⟨_,_,_,hq⟩
  · exact absurd (.inl hy) hf
  · exact absurd (.inr (.inl hr)) hf
  · exact absurd (.inr (.inr hs)) hf
  · exact hq

theorem stays_pstate (h : s.smc c e = some f) (hf : ¬ Switching f) :
    ((step img s e).core c).machine.pstate = (s.core c).machine.pstate := by
  obtain ⟨esr,far,m,hq,hs⟩ := step_of_stays img h hf
  have hspsr : m.frame.spsr = (s.core c).machine.pstate := congrArg TrapFrame.spsr hq.rest
  rw [hs,eret_machine]
  exact hspsr

theorem saves_pstate (h : s.SavesSecure c e) :
    ((step img s e).core c).machine.pstate = spsrMEl1h := by
  rcases h with hy | hp
  · obtain ⟨esr,far,hs⟩ := step_of_yield img hy
    rw [hs,eret_machine]
    rfl
  · obtain ⟨io,hs⟩ := step_of_preempt img (s := s) hp
    rw [hs,eret_machine]
    rfl

theorem enters_pstate (h : s.EntersSecure c e) :
    ((step img s e).core c).machine.pstate = spsrMEl1h := by
  rcases h with hc | hr
  · obtain ⟨esr,far,hs⟩ := step_of_seeosCall img hc
    rw [hs]
    by_cases hi : (s.cpus c).sContext.initialized = 0
    · rw [seeosCall_first img esr far hi]
    · rw [seeosCall_machine img esr far hi]
      rfl
  · obtain ⟨esr,far,hs⟩ := step_of_resume img hr
    rw [hs,eret_machine]
    rfl

theorem Reentered.pstate {t : System} (h : Reentered img c s e t) :
    (t.core c).machine.pstate = spsrMEl1h := by
  cases h with
  | mk rest enter secure smc keeps enters => exact enters_pstate enters

/-- A SEEOS call that the secure world ends by SMC_YIELD, or that is preempted, comes back
to the instruction after it. -/
theorem Returned.of_seeosCall (h : s.SeeosCall c e) (work : List Event) (leave : Event)
    (hw : Along (step img) (NoSeeosCall c) (step img s e) work)
    (hl : (exec (step img) (step img s e) work).SavesSecure c leave) :
    Returned img c s e (step img (exec (step img) (step img s e) work) leave) := by
  obtain ⟨f,hf,hseeos⟩ := h
  obtain ⟨esr,far,hs⟩ := step_of_seeosCall img ⟨f,hf,hseeos⟩
  -- the frame of the call is in ns_context until the next call
  have hns : ((exec (step img) (step img s e) work).cpus c).nsContext.Holds
      (s.core c).machine := by
    rw [nsContext_run hw,hs]
    exact seeosCall_nsContext img s c esr far
  have hno : NoSeeosCall c (exec (step img) (step img s e) work) leave := by
    rintro ⟨g,hg,hgw⟩
    rcases hl with hy | hp
    · obtain rfl := Option.some.inj (hg.symm.trans hy)
      exact absurd hgw (by decide)
    · rw [smc_eq_none_of_ack hp] at hg
      contradiction
  have hrun : exec (step img) s (e :: (work ++ [leave])) =
      step img (exec (step img) (step img s e) work) leave := exec_snoc _ _ _ _
  rw [← hrun]
  refine .context f (e :: work) (work ++ [leave]) leave hf (.inr (.inr hseeos)) rfl ?_ hl ?_
  · rw [along_append]
    exact ⟨hw,hno,trivial⟩
  · rw [hrun]
    exact (returns_of_saves hl hns).2.pc

/-- An SMC preserves the PSTATE of its caller exactly when it is answered through the trap
frame or the caller ran with the one PSTATE that the monitor sets. -/
theorem smc_pstate_iff (img : Image) (c : CoreId) (s t : System) (e : Event) :
    (Returned img c s e t →
      ((t.core c).machine.pstate = (s.core c).machine.pstate ↔
        (∃ f, s.smc c e = some f ∧ ¬ Switching f) ∨ (s.core c).machine.pstate = spsrMEl1h)) ∧
    (Reentered img c s e t →
      ((t.core c).machine.pstate = (s.core c).machine.pstate ↔
        (s.core c).machine.pstate = spsrMEl1h)) := by
  constructor
  · intro h
    cases h with
    | frame f smc stays =>
      exact ⟨fun _ => .inl ⟨f,smc,stays⟩,fun _ => stays_pstate smc stays⟩
    | context f pre rest leave smc switches run noCall saves back =>
      have ht : ((exec (step img) s (e :: rest)).core c).machine.pstate = spsrMEl1h := by
        rw [run,exec_snoc]
        exact saves_pstate saves
      rw [ht]
      constructor
      · exact fun h => .inr h.symm
      · rintro (⟨g,hg,hn⟩ | h)
        · obtain rfl := Option.some.inj (smc.symm.trans hg)
          exact absurd switches hn
        · exact h.symm
  · intro h
    rw [h.pstate]
    exact eq_comm

theorem noSeeosCall_run (c d : CoreId) (s : System) (m : Machine) : NoSeeosCall c s (.run d m) := by
  rintro ⟨f,hf,_⟩
  contradiction

/-- Code below EL3 that masked every interrupt, as _kernel_entry and _seeos_entry do first. -/
def Machine.masked (functionId : BitVec 32) (pc : Word) : Machine :=
  { Machine.calling functionId pc with pstate := 0x3C5 }

/-- A kernel asks for the version of the secure world, which is about to answer. -/
def versionCall (m : Machine) : System := step testImage (kernelCalling m) (.sync 0 smcEsr 0)

def yielding (m a : Machine) : System := step testImage (versionCall m) (.run 0 a)

theorem versionCall_returned {m a : Machine}
    (h : (kernelCalling m).SeeosCall 0 (.sync 0 smcEsr 0))
    (hy : (yielding m a).SavesSecure 0 (.sync 0 smcEsr 0)) :
    Returned testImage 0 (kernelCalling m) (.sync 0 smcEsr 0)
      (step testImage (yielding m a) (.sync 0 smcEsr 0)) :=
  .of_seeosCall h [.run 0 a] _ ⟨noSeeosCall_run 0 0 _ _,trivial⟩ hy

def askedAgain (m a n : Machine) : System :=
  step testImage (step testImage (yielding m a) (.sync 0 smcEsr 0)) (.run 0 n)

theorem yielding_reentered {m a n : Machine} (hs : (yielding m a).Secure 0)
    (hy : (yielding m a).smc 0 (.sync 0 smcEsr 0) = some smcYield)
    (ha : (askedAgain m a n).EntersSecure 0 (.sync 0 smcEsr 0)) :
    Reentered testImage 0 (yielding m a) (.sync 0 smcEsr 0)
      (step testImage (askedAgain m a n) (.sync 0 smcEsr 0)) := by
  refine .mk [.run 0 n] _ hs hy ⟨?_,trivial⟩ ha
  rintro (h | h) <;> contradiction

/-- Interrupts that were masked are unmasked on return from the call, and where the
secure world goes on after its SMC_YIELD. -/
theorem masked_call_unmasks :
    let s := kernelCalling (.masked 0x10000010 0x40300104)
    let y := yielding (.masked 0x10000010 0x40300104) (.masked smcYield 0x40041004)
    let t := step testImage y (.sync 0 smcEsr 0)
    let a := askedAgain (.masked 0x10000010 0x40300104) (.masked smcYield 0x40041004)
      (.masked 0x10000010 0x40300204)
    let u := step testImage a (.sync 0 smcEsr 0)
    s.NonSecure 0 ∧ Returned testImage 0 s (.sync 0 smcEsr 0) t ∧
    (s.core 0).machine.pstate = 0x3C5 ∧ (t.core 0).machine.pstate = 0x5 ∧
    Reentered testImage 0 y (.sync 0 smcEsr 0) u ∧
    (y.core 0).machine.pstate = 0x3C5 ∧ (u.core 0).machine.pstate = 0x5 := by
  intro s y t a u
  have hcall : s.SeeosCall 0 (.sync 0 smcEsr 0) := ⟨0x10000010,by decide,by decide⟩
  have hy : y.Secure 0 ∧ y.smc 0 (.sync 0 smcEsr 0) = some smcYield := by decide
  have ha : a.EntersSecure 0 (.sync 0 smcEsr 0) := .inl ⟨0x10000010,by decide,by decide⟩
  exact ⟨by decide,versionCall_returned hcall (.inl hy.2),by decide,by decide,
    yielding_reentered hy.1 hy.2 ha,by decide,by decide⟩

/-- A firmware call keeps PSTATE, and so do calls and answers with interrupts unmasked. -/
theorem unmasked_call_keeps :
    let v := kernelCalling (.masked smcVersion 0x40300104)
    let s := kernelCalling (.calling 0x10000010 0x40300104)
    let y := yielding (.calling 0x10000010 0x40300104) (.calling smcYield 0x40041004)
    let a := askedAgain (.calling 0x10000010 0x40300104) (.calling smcYield 0x40041004)
      (.calling 0x10000010 0x40300204)
    ((step testImage v (.sync 0 smcEsr 0)).core 0).machine.pstate = (v.core 0).machine.pstate ∧
    ((step testImage y (.sync 0 smcEsr 0)).core 0).machine.pstate = (s.core 0).machine.pstate ∧
    ((step testImage a (.sync 0 smcEsr 0)).core 0).machine.pstate = (y.core 0).machine.pstate := by
  intro v s y a
  have hv : v.smc 0 (.sync 0 smcEsr 0) = some smcVersion := by decide
  have hf : ¬ Switching smcVersion := by decide
  have hy : y.Secure 0 ∧ y.smc 0 (.sync 0 smcEsr 0) = some smcYield := by decide
  have hr : Returned testImage 0 s (.sync 0 smcEsr 0) (step testImage y (.sync 0 smcEsr 0)) :=
    versionCall_returned ⟨0x10000010,by decide,by decide⟩ (.inl hy.2)
  have hc : a.EntersSecure 0 (.sync 0 smcEsr 0) := .inl ⟨0x10000010,by decide,by decide⟩
  have ha : Reentered testImage 0 y (.sync 0 smcEsr 0) (step testImage a (.sync 0 smcEsr 0)) :=
    yielding_reentered hy.1 hy.2 hc
  exact ⟨((smc_pstate_iff testImage 0 v _ _).1 (.frame smcVersion hv hf)).2 (.inl ⟨_,hv,hf⟩),
    ((smc_pstate_iff testImage 0 s _ _).1 hr).2 (.inr rfl),
    ((smc_pstate_iff testImage 0 y _ _).2 ha).2 (by decide)⟩

end Arm64

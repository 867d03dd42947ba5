import Arm64Baremetal.El3Monitor

/-!
What each event does to the saved contexts and to the core that takes it. The
results about runs only use the case lemmas at the end of this file.
-/

set_option autoImplicit false

namespace Arm64

def System.smc (s : System) (c : CoreId) : Event → Option (BitVec 32)
  | .sync d esr _ =>
    if d = c ∧ (s.core c).machine.atEl3 = false ∧ esrEcMask esr = ecSmc then
      some (((s.core c).machine.x 0).setWidth 32)
    else none
  | _ => none

def Event.ack (c : CoreId) : Event → Option (BitVec 32)
  | .fiq d iar => if d = c then some (interruptIdMask iar) else none
  | _ => none

def worldOf (functionId : BitVec 32) : BitVec 16 := (functionId >>> 16).setWidth 16

def System.SeeosCall (s : System) (c : CoreId) (e : Event) : Prop :=
  ∃ f, s.smc c e = some f ∧ worldOf f = seeosWorldId

instance (s : System) (c : CoreId) (e : Event) : Decidable (s.SeeosCall c e) :=
  decidable_of_iff (∃ f ∈ s.smc c e, worldOf f = seeosWorldId) Iff.rfl

def Core.ns (k : Core) : Bool := k.scr.getLsbD 0

/-- Core `c` runs the secure world: below EL3 with SCR_EL3.NS clear. -/
def System.Secure (s : System) (c : CoreId) : Prop :=
  (s.core c).machine.atEl3 = false ∧ (s.core c).ns = false

def System.NonSecure (s : System) (c : CoreId) : Prop :=
  (s.core c).machine.atEl3 = false ∧ (s.core c).ns = true

instance (s : System) (c : CoreId) : Decidable (s.Secure c) :=
  inferInstanceAs (Decidable (_ ∧ _))

instance (s : System) (c : CoreId) : Decidable (s.NonSecure c) :=
  inferInstanceAs (Decidable (_ ∧ _))

/-- Nothing moved between the worlds. -/
structure CpuState.SameContexts (a b : CpuState) : Prop where
  ns : a.nsContext = b.nsContext
  s : a.sContext = b.sContext

theorem CpuState.SameContexts.refl (a : CpuState) : a.SameContexts a := ⟨rfl,rfl⟩

/-- The handler answered in x1 at most, in the world the trap came from. -/
structure Monitor.Quiet (m m' : Monitor) : Prop where
  regs : ∀ i : Fin 31, i ≠ 1 → m'.frame.regs i = m.frame.regs i
  rest : { m'.frame with regs := m.frame.regs } = m.frame
  sys : m'.sys = m.sys
  scr : m'.scr = m.scr
  cpus : ∀ c, (m'.cpus c).SameContexts (m.cpus c)

theorem Monitor.Quiet.refl (m : Monitor) : m.Quiet m :=
  ⟨fun _ _ => rfl,rfl,rfl,rfl,fun _ => .refl _⟩

theorem Monitor.Quiet.emit {m m' : Monitor} (h : m.Quiet m') (i : Io) : m.Quiet (m'.emit i) :=
  ⟨h.regs,h.rest,h.sys,h.scr,h.cpus⟩

theorem Monitor.Quiet.setReg1 {m m' : Monitor} (h : m.Quiet m') (w : Word) :
    m.Quiet (m'.setReg1 w) where
  regs i hi := by simpa [Monitor.setReg1,Function.update_of_ne hi] using h.regs i hi
  rest := h.rest
  sys := h.sys
  scr := h.scr
  cpus := h.cpus

theorem Monitor.Quiet.setCpu {m m' : Monitor} (h : m.Quiet m') {core : CoreId} {c : CpuState}
    (hc : c.SameContexts (m.cpus core)) : m.Quiet (m'.setCpu core c) where
  regs := h.regs
  rest := h.rest
  sys := h.sys
  scr := h.scr
  cpus d := by
    by_cases hd : d = core
    · subst hd; simpa [Monitor.setCpu] using hc
    · simpa [Monitor.setCpu,Function.update_of_ne hd] using h.cpus d

theorem psciFnCpuOn_quiet (t : BitVec 32) (w : Word) (m : Monitor) :
    m.Quiet (psciFnCpuOn t w m).2 := by
  unfold psciFnCpuOn
  dsimp only
  split
  · split
    · exact .refl m
    · split
      · exact .refl m
      · split
        · exact .refl m
        · refine Monitor.Quiet.emit (Monitor.Quiet.setCpu (.refl m) ?_) _
          exact ⟨rfl,rfl⟩
  · exact .refl m

theorem psciFnCpuOff_quiet (img : Image) (t : BitVec 32) (m : Monitor) :
    m.Quiet (psciFnCpuOff img t m).2 := by
  unfold psciFnCpuOff
  split
  · exact .refl m
  · exact (Monitor.Quiet.refl m).emit _

theorem el3SmcHandler_cases (img : Image) (core : CoreId) (f : BitVec 32) (m : Monitor) :
    (f = smcYield ∧ el3SmcHandler img core f m = leaveSecure core m) ∨
    (f = smcResume ∧ el3SmcHandler img core f m = enterSecure core m) ∨
    (f ≠ smcYield ∧ f ≠ smcResume ∧ m.Quiet (el3SmcHandler img core f m)) := by
  by_cases hy : f = smcYield
  · subst hy; exact .inl ⟨rfl,rfl⟩
  by_cases hr : f = smcResume
  · subst hr; exact .inr (.inl ⟨rfl,rfl⟩)
  refine .inr (.inr ⟨hy,hr,?_⟩)
  unfold el3SmcHandler
  simp only [if_neg hy,if_neg hr]
  split
  · exact (psciFnCpuOn_quiet _ _ m).setReg1 _
  split
  · exact (psciFnCpuOff_quiet _ _ m).setReg1 _
  split
  · exact (((Monitor.Quiet.refl m).emit _).emit _ |>.emit _).setReg1 _
  split
  · exact (((Monitor.Quiet.refl m).emit _).emit _ |>.emit _).setReg1 _
  split
  · exact (Monitor.Quiet.refl m).setReg1 _
  · exact (Monitor.Quiet.refl m).setReg1 _

theorem worldOf_smcYield : worldOf smcYield = firmwareWorldId := by decide
theorem worldOf_smcResume : worldOf smcResume = firmwareWorldId := by decide

theorem el3SyncLower_cases (img : Image) (core : CoreId) (m : Monitor)
    (hec : esrEcMask m.frame.esr = ecSmc) :
    let f : BitVec 32 := (m.frame.regs 0).setWidth 32
    (f = smcYield ∧ el3SyncLower img core m = leaveSecure core m) ∨
    (f = smcResume ∧ el3SyncLower img core m = enterSecure core m) ∨
    (worldOf f = seeosWorldId ∧ el3SyncLower img core m = seeosCall img core m) ∨
    (f ≠ smcYield ∧ f ≠ smcResume ∧ worldOf f ≠ seeosWorldId ∧
      m.Quiet (el3SyncLower img core m)) := by
  intro f
  have hw : el3SyncLower img core m =
      if worldOf f = firmwareWorldId then el3SmcHandler img core f m
      else if worldOf f = seeosWorldId then seeosCall img core m
      else m.emit (.uart "Wrong World ID\n") := by
    simp only [el3SyncLower,if_pos hec]; rfl
  rw [hw]
  by_cases hf : worldOf f = firmwareWorldId
  · have hs : worldOf f ≠ seeosWorldId := by rw [hf]; decide
    simp only [if_pos hf]
    rcases el3SmcHandler_cases img core f m with h | h | h
    · exact .inl h
    · exact .inr (.inl h)
    · exact .inr (.inr (.inr ⟨h.1,h.2.1,hs,h.2.2⟩))
  · have hy : f ≠ smcYield := fun h => hf (h ▸ worldOf_smcYield)
    have hr : f ≠ smcResume := fun h => hf (h ▸ worldOf_smcResume)
    by_cases hs : worldOf f = seeosWorldId
    · exact .inr (.inr (.inl ⟨hs,by rw [if_neg hf,if_pos hs]⟩))
    · rw [if_neg hf,if_neg hs]
      exact .inr (.inr (.inr ⟨hy,hr,hs,(Monitor.Quiet.refl m).emit _⟩))

theorem eret_core_ne {s : System} {c d : CoreId} (h : d ≠ c) (m : Monitor) :
    (s.eret c m).core d = s.core d := by
  simp [System.eret,System.leave,Function.update_of_ne h]

theorem eret_machine (s : System) (c : CoreId) (m : Monitor) :
    ((s.eret c m).core c).machine = El3Vector.restoreContext m.frame m.sys := by
  simp [System.eret,System.leave]

theorem eret_ns (s : System) (c : CoreId) (m : Monitor) :
    ((s.eret c m).core c).ns = m.scr.getLsbD 0 := by
  simp [System.eret,System.leave,Core.ns]

@[simp] theorem eret_cpus (s : System) (c : CoreId) (m : Monitor) :
    (s.eret c m).cpus = m.cpus := rfl

def Event.Returns (c : CoreId) : Event → Prop
  | .run _ _ => False
  | .sync d _ _ => d = c
  | .fiq d iar => d = c ∧ interruptIdMask iar ≠ sgiCoreSleep.setWidth 32

/-- What core `c` sees of an event that does not switch its worlds. -/
structure Calm (s s' : System) (c : CoreId) (e : Event) : Prop where
  contexts : (s'.cpus c).SameContexts (s.cpus c)
  secure : s'.Secure c → s.Secure c
  returns : e.Returns c → (s'.core c).ns = false →
    (s'.core c).machine.pc = (s.core c).machine.pc ∧
    (s'.core c).machine.pstate = (s.core c).machine.pstate ∧
    (s'.core c).machine.sys = (s.core c).machine.sys ∧ (s.core c).ns = false

theorem Calm.of_same {s s' : System} {c : CoreId} {e : Event}
    (hc : (s'.cpus c).SameContexts (s.cpus c)) (hcore : s'.core c = s.core c) :
    Calm s s' c e where
  contexts := hc
  secure h := by simpa only [System.Secure,hcore] using h
  returns _ h := by rw [hcore] at h ⊢; exact ⟨rfl,rfl,rfl,h⟩

theorem Calm.of_quiet {s : System} {d : CoreId} {esr far : Word} {m : Monitor}
    (h : (s.trap d esr far).Quiet m) (c : CoreId) (e : Event) :
    Calm s (s.eret d m) c e := by
  by_cases hd : c = d
  · subst hd
    have hpc : m.frame.elr = (s.core c).machine.pc := congrArg TrapFrame.elr h.rest
    have hps : m.frame.spsr = (s.core c).machine.pstate := congrArg TrapFrame.spsr h.rest
    have hsys : m.sys = (s.core c).machine.sys := h.sys
    have hns : ((s.eret c m).core c).ns = (s.core c).ns := by
      rw [eret_ns,h.scr]; rfl
    have hm := eret_machine s c m
    refine ⟨h.cpus c,?_,?_⟩
    · intro hs
      have h1 := hs.1
      rw [hm] at h1
      exact ⟨by simpa [Machine.atEl3,El3Vector.restoreContext,hps] using h1,hns ▸ hs.2⟩
    · intro _ hn
      rw [hm]
      exact ⟨hpc,hps,hsys,hns ▸ hn⟩
  · exact .of_same (h.cpus c) (eret_core_ne hd m)

theorem park_atEl3 (img : Image) (s : System) (c : CoreId) (m : Monitor) :
    ((s.park img c m).core c).machine.atEl3 = true := by
  have h : ((s.park img c m).core c).machine.pstate =
      spsrMEl3h ||| serrorMask ||| irqMask ||| debugMask := by
    simp only [System.park,System.leave,Function.update_self]
  unfold Machine.atEl3
  rw [h]
  decide

theorem scrSecure_ns : scrSecure.getLsbD 0 = false := by decide
theorem scrNonSecure_ns : scrNonSecure.getLsbD 0 = true := by decide

theorem el3CpuOff_calm (img : Image) (s : System) (d c : CoreId) (iar : BitVec 32)
    (hid : interruptIdMask iar = sgiCoreSleep.setWidth 32) :
    Calm s (s.park img d (el3CpuOff d (s.trap d 0 0))) c (.fiq d iar) := by
  have hcpus : ((el3CpuOff d (s.trap d 0 0)).cpus c).SameContexts (s.cpus c) := by
    by_cases hd : c = d
    · subst hd
      simp only [el3CpuOff,Monitor.setCpu,Function.update_self]
      exact ⟨rfl,rfl⟩
    · simp only [el3CpuOff,Monitor.setCpu,Function.update_of_ne hd]
      exact ⟨rfl,rfl⟩
  by_cases hd : c = d
  · subst hd
    refine ⟨hcpus,fun h => ?_,fun h => absurd hid h.2⟩
    have := h.1
    rw [park_atEl3] at this
    contradiction
  · exact .of_same hcpus (by simp [System.park,System.leave,Function.update_of_ne hd])

theorem el3CpuOn_calm (s : System) (d c : CoreId) (iar : BitVec 32) :
    Calm s (s.eret d ((el3CpuOn d (s.trap d 0 0)).emit (.eoir0 iar))) c (.fiq d iar) := by
  by_cases he : ((s.trap d 0 0).cpus d).entryPoint = 0
  · have hq : el3CpuOn d (s.trap d 0 0) = s.trap d 0 0 := if_neg (not_not_intro he)
    rw [hq]
    exact .of_quiet ((Monitor.Quiet.refl _).emit _) c _
  have hon : el3CpuOn d (s.trap d 0 0) = _ := if_pos he
  have hcpus : ((el3CpuOn d (s.trap d 0 0)).cpus c).SameContexts (s.cpus c) := by
    by_cases hd : c = d
    · subst hd
      simp only [hon,Monitor.setCpu,Function.update_self]
      exact ⟨rfl,rfl⟩
    · simp only [hon,Monitor.setCpu,Function.update_of_ne hd]
      exact ⟨rfl,rfl⟩
  by_cases hd : c = d
  · subst hd
    have hns : ((s.eret c ((el3CpuOn c (s.trap c 0 0)).emit (.eoir0 iar))).core c).ns = true := by
      rw [eret_ns,hon]; exact scrNonSecure_ns
    have hno : ∀ {P : Prop}, ((s.eret c ((el3CpuOn c (s.trap c 0 0)).emit
        (.eoir0 iar))).core c).ns = false → P := by
      intro P h
      rw [hns] at h
      contradiction
    exact ⟨hcpus,fun h => hno h.2,fun _ h => hno h⟩
  · exact .of_same hcpus (eret_core_ne hd _)

theorem run_calm (img : Image) (s : System) (d : CoreId) (m : Machine) (c : CoreId) :
    Calm s (step img s (.run d m)) c (.run d m) := by
  have hcore : ∀ k : Machine, k.atEl3 = (s.core d).machine.atEl3 →
      Calm s (s.setMachine d k) c (.run d m) := by
    intro k hk
    refine ⟨.refl _,fun h => ?_,fun h => False.elim h⟩
    by_cases hd : c = d
    · subst hd
      simpa [System.Secure,System.setMachine,Core.ns,hk] using h
    · simpa [System.Secure,System.setMachine,Function.update_of_ne hd] using h
  unfold step
  dsimp only
  split
  · exact hcore _ rfl
  rename_i h3
  split
  · exact .of_same (.refl _) rfl
  · rename_i hm
    exact hcore m (by simp [h3,hm])

theorem leaveSecure_cpus_ne {c d : CoreId} (h : c ≠ d) (m : Monitor) :
    (leaveSecure d m).cpus c = m.cpus c := by
  simp [leaveSecure,Monitor.setCpu,Function.update_of_ne h]

theorem seeosCall_cpus_ne {c d : CoreId} (h : c ≠ d) (img : Image) (m : Monitor) :
    (seeosCall img d m).cpus c = m.cpus c := by
  unfold seeosCall
  dsimp only
  split <;> simp [enterSecure,Monitor.setCpu,Function.update_of_ne h]

theorem el3SyncLower_contexts_ne {c d : CoreId} (h : c ≠ d) (img : Image) (m : Monitor) :
    ((el3SyncLower img d m).cpus c).SameContexts (m.cpus c) := by
  by_cases hec : esrEcMask m.frame.esr = ecSmc
  · rcases el3SyncLower_cases img d m hec with ⟨_,hm⟩ | ⟨_,hm⟩ | ⟨_,hm⟩ | ⟨_,_,_,hq⟩
    · rw [hm,leaveSecure_cpus_ne h]; exact .refl _
    · rw [hm]; exact .refl _
    · rw [hm,seeosCall_cpus_ne h]; exact .refl _
    · exact hq.cpus c
  · rw [el3SyncLower,if_neg hec]; exact .refl _

/-- One step from the point of view of core `c`: one of the four world switches
of this core, or nothing that concerns its worlds. -/
inductive StepCase (img : Image) (s : System) (e : Event) (c : CoreId) : Prop where
  | yield (esr far : Word) (h : s.smc c e = some smcYield)
      (hs : step img s e = s.eret c (leaveSecure c (s.trap c esr far)))
  | resume (esr far : Word) (h : s.smc c e = some smcResume)
      (hs : step img s e = s.eret c (enterSecure c (s.trap c esr far)))
  | seeos (esr far : Word) (h : s.SeeosCall c e)
      (hs : step img s e = s.eret c (seeosCall img c (s.trap c esr far)))
  | preempt (io : Io) (h : e.ack c = some interruptHpiNsg1)
      (hs : step img s e = s.eret c ((el3JumpToKernel c (s.trap c 0 0)).emit io))
  | calm (hy : s.smc c e ≠ some smcYield) (hr : s.smc c e ≠ some smcResume)
      (hc : ¬ s.SeeosCall c e) (hp : e.ack c ≠ some interruptHpiNsg1)
      (hs : Calm s (step img s e) c e)

theorem StepCase.of_calm {img : Image} {s : System} {e : Event} {c : CoreId}
    (hs : s.smc c e = none) (ha : e.ack c ≠ some interruptHpiNsg1)
    (hc : Calm s (step img s e) c e) : StepCase img s e c := by
  refine .calm (by simp [hs]) (by simp [hs]) ?_ ha hc
  rintro ⟨f,hf,_⟩
  rw [hs] at hf
  contradiction

theorem sync_cases (img : Image) (s : System) (c d : CoreId) (esr far : Word) :
    StepCase img s (.sync d esr far) c := by
  by_cases h3 : (s.core d).machine.atEl3 = true
  · have hstep : step img s (.sync d esr far) = s := if_pos h3
    refine .of_calm (if_neg fun h => ?_) nofun (by rw [hstep]; exact .of_same (.refl _) rfl)
    obtain ⟨rfl,h,_⟩ := h
    simp [h3] at h
  have hstep : step img s (.sync d esr far) =
      s.eret d (el3SyncLower img d (s.trap d esr far)) := if_neg h3
  by_cases hd : c = d
  · subst hd
    by_cases hec : esrEcMask esr = ecSmc
    · have hsmc : s.smc c (.sync c esr far) =
          some (((s.core c).machine.x 0).setWidth 32) :=
        if_pos ⟨rfl,by simpa using h3,hec⟩
      rcases el3SyncLower_cases img c (s.trap c esr far) hec with
        ⟨hf,hm⟩ | ⟨hf,hm⟩ | ⟨hf,hm⟩ | ⟨hy,hr,hs,hq⟩
      · exact .yield esr far (hsmc.trans (congrArg some hf)) (by rw [hstep,hm])
      · exact .resume esr far (hsmc.trans (congrArg some hf)) (by rw [hstep,hm])
      · exact .seeos esr far ⟨_,hsmc,hf⟩ (by rw [hstep,hm])
      · refine .calm ?_ ?_ ?_ nofun (by rw [hstep]; exact .of_quiet hq c _)
        · exact fun h => hy (Option.some.inj (hsmc.symm.trans h))
        · exact fun h => hr (Option.some.inj (hsmc.symm.trans h))
        · rintro ⟨f,hf,hw⟩
          exact hs (Option.some.inj (hsmc.symm.trans hf) ▸ hw)
    · have hq : el3SyncLower img c (s.trap c esr far) = s.trap c esr far := if_neg hec
      refine .of_calm (if_neg fun h => hec h.2.2) nofun ?_
      rw [hstep,hq]
      exact .of_quiet (.refl _) c _
  · refine .of_calm (if_neg fun h => hd h.1.symm) nofun ?_
    rw [hstep]
    exact .of_same (el3SyncLower_contexts_ne hd img _) (eret_core_ne hd _)

theorem ack_fiq_ne {c d : CoreId} {iar i : BitVec 32} (h : interruptIdMask iar ≠ i) :
    (Event.fiq d iar).ack c ≠ some i := by
  intro ha
  change (if d = c then some (interruptIdMask iar) else none) = some i at ha
  split at ha
  · exact h (Option.some.inj ha)
  · contradiction

theorem fiq_cases (img : Image) (s : System) (c d : CoreId) (iar : BitVec 32) :
    StepCase img s (.fiq d iar) c := by
  by_cases hsl : interruptIdMask iar = sgiCoreSleep.setWidth 32
  · have hstep : step img s (.fiq d iar) = s.park img d (el3CpuOff d (s.trap d 0 0)) := by
      simp only [step,el3Fiq,if_pos hsl]
    refine .of_calm rfl (ack_fiq_ne (by rw [hsl]; decide)) ?_
    rw [hstep]
    exact el3CpuOff_calm img s d c iar hsl
  by_cases hw : interruptIdMask iar = sgiCoreWake.setWidth 32
  · have hstep : step img s (.fiq d iar) =
        s.eret d ((el3CpuOn d (s.trap d 0 0)).emit (.eoir0 iar)) := by
      simp only [step,el3Fiq,if_neg hsl,if_pos hw]
    refine .of_calm rfl (ack_fiq_ne (by rw [hw]; decide)) ?_
    rw [hstep]
    exact el3CpuOn_calm s d c iar
  by_cases hp : interruptIdMask iar = interruptHpiNsg1
  · have hstep : step img s (.fiq d iar) =
        s.eret d ((el3JumpToKernel d (s.trap d 0 0)).emit (.eoir0 iar)) := by
      simp only [step,el3Fiq,if_neg hsl,if_neg hw,if_pos hp]
    by_cases hd : c = d
    · subst hd
      exact .preempt _ (by simp [Event.ack,hp]) hstep
    · refine .of_calm rfl (by simp [Event.ack,Ne.symm hd]) ?_
      have hcpus : ((el3JumpToKernel d (s.trap d 0 0)).cpus c).SameContexts (s.cpus c) := by
        change ((leaveSecure d (s.trap d 0 0)).cpus c).SameContexts (s.cpus c)
        rw [leaveSecure_cpus_ne hd]
        exact .refl _
      rw [hstep]
      exact .of_same hcpus (eret_core_ne hd _)
  · have hstep : step img s (.fiq d iar) = s.eret d ((s.trap d 0 0).emit (.eoir0 iar)) := by
      simp only [step,el3Fiq,if_neg hsl,if_neg hw,if_neg hp]
    refine .of_calm rfl (ack_fiq_ne hp) ?_
    rw [hstep]
    exact .of_quiet ((Monitor.Quiet.refl _).emit _) c _

theorem step_cases (img : Image) (s : System) (e : Event) (c : CoreId) :
    StepCase img s e c := by
  cases e with
  | run d m => exact .of_calm rfl nofun (run_calm img s d m c)
  | sync d esr far => exact sync_cases img s c d esr far
  | fiq d iar => exact fiq_cases img s c d iar

end Arm64

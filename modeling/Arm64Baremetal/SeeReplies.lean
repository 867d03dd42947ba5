import Arm64Baremetal.SeeService

/-!
When replies match requests. The invariant says what the servicer of a core is
doing; every world switch of the monitor either keeps its registers or, for x0..x5
and PSTATE, needs the hypothesis of an orderly kernel.
-/

set_option autoImplicit false

namespace Arm64
open Runs

variable {img : Image} {k : Crypto} {μ : Type} {c : CoreId}

theorem setMachine_smc {s : System} {m : Machine} (hm : m.atEl3 = false) :
    (s.setMachine c m).smc c (.sync c smcEsr 0) = some ((m.x 0).setWidth 32) := by
  have he : esrEcMask smcEsr = ecSmc := by decide
  simp [System.smc,System.setMachine,hm,he]

theorem smcAt_eq {s : System} {m : Machine} (hs : (s.core c).machine.atEl3 = false)
    (hm : m.atEl3 = false) :
    s.smcAt img c m = step img (s.setMachine c m) (.sync c smcEsr 0) := by
  rw [System.smcAt,step_run img hs hm]

theorem machine_request (ctx : Context) (m : Machine) :
    (ctx.machine m.x m.fpcr).request = m.request := by
  simp (disch := decide) only [Machine.request,Context.machine_x_low]

theorem machine_reply (ctx : Context) (m : Machine) :
    (ctx.machine m.x m.fpcr).reply = m.reply := by
  simp (disch := decide) only [Machine.reply,Context.machine_x_low]

theorem smcAt_asks (img : Image) {s : System} {m : Machine} (hs : (s.core c).machine.atEl3 = false)
    (hm : m.atEl3 = false) (ha : m.asks) :
    (s.smcAt img c m).Secure c ∧ ((s.smcAt img c m).cpus c).nsContext.initialized ≠ 0 ∧
    ((s.smcAt img c m).core c).machine =
      if (s.cpus c).sContext.initialized = 0 then
        { m with pc := img.seeosEntry, pstate := spsrMEl1h, sys := disableMmuEl1 m.sys }
      else (s.cpus c).sContext.machine m.x m.fpcr := by
  have hc : (s.setMachine c m).SeeosCall c (.sync c smcEsr 0) :=
    ⟨_,setMachine_smc hm,by simpa [Machine.asks] using ha⟩
  obtain ⟨esr,far,hstep⟩ := step_of_seeosCall img hc
  rw [smcAt_eq hs hm,hstep]
  refine ⟨seeosCall_secure img _ c esr far,(seeosCall_nsContext img _ c esr far).initialized,?_⟩
  by_cases h0 : (s.cpus c).sContext.initialized = 0
  · rw [if_pos h0,seeosCall_first (s := s.setMachine c m) img esr far h0,
      System.setMachine_machine]
  · rw [if_neg h0,seeosCall_machine (s := s.setMachine c m) img esr far h0,System.entered,
      System.setMachine_machine,System.setMachine_cpus]

theorem smcAt_resumes (img : Image) {s : System} {m : Machine}
    (hs : (s.core c).machine.atEl3 = false) (hm : m.atEl3 = false) (hr : m.resumes)
    (h0 : (s.cpus c).sContext.initialized ≠ 0) :
    (s.smcAt img c m).Secure c ∧
    ((s.smcAt img c m).cpus c).nsContext = (s.cpus c).nsContext ∧
    ((s.smcAt img c m).core c).machine = (s.cpus c).sContext.machine m.x m.fpcr := by
  have hsmc : (s.setMachine c m).smc c (.sync c smcEsr 0) = some smcResume := by
    rw [setMachine_smc hm]
    simpa [Machine.resumes] using hr
  obtain ⟨esr,far,hstep⟩ := step_of_resume img hsmc
  have hmach := enterSecure_machine (s := s.setMachine c m) esr far h0
  have he : (s.setMachine c m).entered c = (s.cpus c).sContext.machine m.x m.fpcr := by
    rw [System.entered,System.setMachine_machine,System.setMachine_cpus]
  rw [smcAt_eq hs hm,hstep,hmach]
  refine ⟨⟨?_,enterSecure_ns _ c esr far⟩,rfl,he⟩
  rw [hmach]
  exact entered_atEl3 _ c

theorem smcAt_yields (img : Image) {s : System} {m : Machine}
    (hs : (s.core c).machine.atEl3 = false) (hm : m.atEl3 = false)
    (hx : m.x 0 = smcYield.setWidth 64)
    (h0 : (s.cpus c).nsContext.initialized ≠ 0) :
    (s.smcAt img c m).NonSecure c ∧ ((s.smcAt img c m).cpus c).sContext.Holds m ∧
    ((s.smcAt img c m).core c).machine = (s.cpus c).nsContext.machine m.x m.fpcr := by
  have hsmc : (s.setMachine c m).smc c (.sync c smcEsr 0) = some smcYield := by
    rw [setMachine_smc hm,hx]
    rfl
  obtain ⟨esr,far,hstep⟩ := step_of_yield img hsmc
  have hl := leaveSecure_leaves (s.setMachine c m) c esr far
  have hmach := leaveSecure_machine (s := s.setMachine c m) esr far h0
  have he : (s.setMachine c m).left c = (s.cpus c).nsContext.machine m.x m.fpcr := by
    rw [System.left,System.setMachine_machine,System.setMachine_cpus]
  rw [smcAt_eq hs hm,hstep]
  refine ⟨⟨?_,hl.ns⟩,?_,hmach.trans he⟩
  · rw [hmach]; exact left_atEl3 _ c
  · simpa using hl.sContext

theorem contexts_of_core_ne (img : Image) {s : System} {e : Event} (h : e.core ≠ c) :
    ((step img s e).cpus c).SameContexts (s.cpus c) := by
  have hsmc : s.smc c e = none := by
    cases e with
    | run d m => rfl
    | sync d esr far => exact if_neg fun hd => h hd.1
    | fiq d iar => rfl
  have hack : e.ack c = none := by
    cases e with
    | run d m => rfl
    | sync d esr far => rfl
    | fiq d iar => exact if_neg h
  cases step_cases img s e c with
  | yield esr far hy hs => exact absurd (hsmc.symm.trans hy) nofun
  | resume esr far hr hs => exact absurd (hsmc.symm.trans hr) nofun
  | seeos esr far hc hs =>
    obtain ⟨f,hf,hw⟩ := hc
    exact absurd (hsmc.symm.trans hf) nofun
  | preempt io hp hs => exact absurd (hack.symm.trans hp) nofun
  | calm hy hr hc hp hs => exact hs.contexts

/-- The kernel of core `c` runs, and has not made a SEEOS call yet. -/
structure Fresh (p : Servicer img k μ) (c : CoreId) (s : Service μ) : Prop where
  nonSecure : s.system.NonSecure c
  unsaved : (s.system.cpus c).sContext.initialized = 0
  mem : s.mem = p.start
  preempted : s.preempted = false

inductive Coherent (p : Servicer img k μ) (c : CoreId) (s : Service μ) : Prop where
  | fresh (h : Fresh p c s)
  | waiting (hns : s.system.NonSecure c) (hp : s.preempted = false) (q : Request) (m : Machine)
      (hm : (s.system.cpus c).sContext.Holds m.next) (hq : p.serves q m s.mem)
      (hi : p.isSmc m s.mem = true)
  | working (hs : s.system.Secure c) (hp : s.preempted = false) (q : Request)
      (hq : p.serves q (s.machine c) s.mem) (ha : s.asked = some q)
      (h6 : (seeosServicer k q).r1 ≠ seeosPreempted)
      (h0 : (s.system.cpus c).nsContext.initialized ≠ 0)
  | preempted (hns : s.system.NonSecure c) (hp : s.preempted = true) (q : Request)
      (ha : s.asked = some q) (h6 : (seeosServicer k q).r1 ≠ seeosPreempted)
      (h0 : (s.system.cpus c).nsContext.initialized ≠ 0)
      (h1 : (s.system.cpus c).sContext.initialized ≠ 0)

variable {p : Servicer img k μ} {s : Service μ}

theorem System.Secure.not_nonSecure {s : System} (h : s.Secure c) : ¬ s.NonSecure c := by
  intro hn
  exact absurd (h.2.symm.trans hn.2) nofun

theorem coherent_kernel {m : Machine} (h : Coherent p c s) (hl : Legal c s (.kernel m))
    (ho : Orderly p c s (.kernel m)) : Coherent p c (serviceStep p c s (.kernel m)) := by
  obtain ⟨hns,hm,hsmc⟩ := hl
  by_cases ha : m.asks
  · obtain ⟨hp,h6⟩ := ho.1 ha
    obtain ⟨hsec,h0,hmach⟩ := smcAt_asks img hns.1 hm ha
    refine .working hsec rfl m.request ?_ (if_pos ha) h6 h0
    change p.serves m.request ((s.system.smcAt img c m).core c).machine s.mem
    cases h with
    | fresh hf =>
      rw [hmach,if_pos hf.unsaved,hf.mem]
      exact p.enter { m with pc := img.seeosEntry, pstate := spsrMEl1h,
                             sys := disableMmuEl1 m.sys } m.sys rfl rfl rfl
    | waiting _ _ q n hn hq hi =>
      rw [hmach,if_neg hn.initialized,← machine_request (s.system.cpus c).sContext m]
      exact p.again q n s.mem hq hi _ (hn.sameCallState _ _) rfl
    | working hs => exact absurd hns hs.not_nonSecure
    | preempted _ hp' => exact absurd (hp.symm.trans hp') nofun
  · obtain ⟨hr,hp⟩ := hsmc.resolve_left ha
    cases h with
    | fresh hf => exact absurd (hf.preempted.symm.trans hp) nofun
    | waiting _ hp' => exact absurd (hp'.symm.trans hp) nofun
    | working hs => exact absurd hns hs.not_nonSecure
    | preempted _ _ q hq h6 h0 h1 =>
      obtain ⟨hsec,hctx,hmach⟩ := smcAt_resumes img hns.1 hm hr h1
      refine .working hsec rfl q ?_ ?_ h6 ?_
      · change p.serves q ((s.system.smcAt img c m).core c).machine s.mem
        rw [hmach]
        exact ho.2 hr q hq
      · simpa [serviceStep,ha] using hq
      · rw [← hctx] at h0
        exact h0

theorem secure_yields {q : Request} (hs : s.system.Secure c)
    (hq : p.serves q (s.machine c) s.mem) (hi : p.isSmc (s.machine c) s.mem = true)
    (h0 : (s.system.cpus c).nsContext.initialized ≠ 0) :
    (serviceStep p c s .secure).system.NonSecure c ∧
    ((serviceStep p c s .secure).system.cpus c).sContext.Holds (s.machine c).next ∧
    ((serviceStep p c s .secure).machine c).reply = seeosServicer k q := by
  obtain ⟨hx,hr⟩ := p.yields q _ _ hq hi
  obtain ⟨hns,hm,hmach⟩ := smcAt_yields img (m := (s.machine c).next) hs.1 hs.1 hx h0
  simp only [serviceStep,hi,if_true]
  refine ⟨hns,hm,?_⟩
  change ((s.system.smcAt img c (s.machine c).next).core c).machine.reply = _
  rw [hmach,machine_reply,← hr]
  rfl

theorem coherent_secure (h : Coherent p c s) (hl : Legal c s .secure) :
    Coherent p c (serviceStep p c s .secure) := by
  cases h with
  | fresh hf => exact absurd hf.nonSecure hl.not_nonSecure
  | waiting hns => exact absurd hns hl.not_nonSecure
  | preempted hns => exact absurd hns hl.not_nonSecure
  | working hs hp q hq ha h6 h0 =>
    cases hi : p.isSmc (s.machine c) s.mem with
    | true =>
      obtain ⟨hns,hm,_⟩ := secure_yields hs hq hi h0
      have hw : (serviceStep p c s .secure).mem = s.mem := by simp [serviceStep,hi]
      refine .waiting hns ?_ q (s.machine c) hm (by rw [hw]; exact hq) (by rw [hw]; exact hi)
      simpa [serviceStep,hi] using hp
    | false =>
      have hq' := p.continues q _ _ hq hi
      have hm := p.below q _ _ hq'
      have hrun := hs.run img hm
      have hstep := step_run img hs.1 hm
      have hsys : (serviceStep p c s .secure).system =
          step img s.system (.run c (p.instr (s.machine c) s.mem).1) := by simp [serviceStep,hi]
      refine .working (by rw [hsys]; exact hrun) (by simpa [serviceStep,hi] using hp) q ?_
        (by simpa [serviceStep,hi] using ha) h6 ?_
      · rw [Service.machine,hsys,hstep,System.setMachine_machine]
        simpa [serviceStep,hi] using hq'
      · rw [hsys,hstep]
        exact h0

theorem preempt_ack {iar : BitVec 32} (hid : interruptIdMask iar = interruptHpiNsg1) :
    (Event.fiq c iar).ack c = some interruptHpiNsg1 := by simp [Event.ack,hid]

theorem coherent_preempt {iar : BitVec 32} (h : Coherent p c s)
    (hl : Legal c s (.preempt iar)) : Coherent p c (serviceStep p c s (.preempt iar)) := by
  obtain ⟨hsec,hid⟩ := hl
  cases h with
  | fresh hf => exact absurd hf.nonSecure hsec.not_nonSecure
  | waiting hns => exact absurd hns hsec.not_nonSecure
  | preempted hns => exact absurd hns hsec.not_nonSecure
  | working hs hp q hq ha h6 h0 =>
    obtain ⟨io,hstep⟩ := step_of_preempt img (s := s.system) (preempt_ack (c := c) hid)
    have hl := jump_leaves s.system c io
    rw [← hstep] at hl
    refine .preempted ⟨?_,hl.ns⟩ rfl q ha h6 ?_ hl.sContext.initialized
    · have hm := jump_machine io h0
      rw [← hstep] at hm
      change ((step img s.system (.fiq c iar)).core c).machine.atEl3 = false
      rw [hm]
      exact left_atEl3 s.system c
    · change ((step img s.system (.fiq c iar)).cpus c).nsContext.initialized ≠ 0
      rw [hl.nsContext]
      exact h0

theorem coherent_other {e : Event} (h : Coherent p c s) (hl : Legal c s (.other e)) :
    Coherent p c (serviceStep p c s (.other e)) := by
  have hctx := contexts_of_core_ne img (s := s.system) hl
  have hcore := step_core_ne img (s := s.system) hl
  have hns : s.system.NonSecure c → (step img s.system e).NonSecure c := by
    simp only [System.NonSecure,hcore]; exact id
  cases h with
  | fresh hf =>
    refine .fresh ⟨hns hf.nonSecure,?_,hf.mem,hf.preempted⟩
    rw [← hf.unsaved,← hctx.s]
    rfl
  | waiting hs hp q m hm hq hi =>
    refine .waiting (hns hs) hp q m ?_ hq hi
    rw [← hctx.s] at hm
    exact hm
  | working hs hp q hq ha h6 h0 =>
    refine .working ?_ hp q ?_ ha h6 ?_
    · simpa only [serviceStep,System.Secure,hcore] using hs
    · simpa only [serviceStep,Service.machine,hcore] using hq
    · rw [← hctx.ns] at h0
      exact h0
  | preempted hs hp q ha h6 h0 h1 =>
    rw [← hctx.ns] at h0
    rw [← hctx.s] at h1
    exact .preempted (hns hs) hp q ha h6 h0 h1

def Allowed (p : Servicer img k μ) (c : CoreId) (s : Service μ) (e : ServiceEvent) : Prop :=
  Legal c s e ∧ Orderly p c s e

theorem coherent_step {e : ServiceEvent} (h : Coherent p c s) (ha : Allowed p c s e) :
    Coherent p c (serviceStep p c s e) := by
  cases e with
  | kernel m => exact coherent_kernel h ha.1 ha.2
  | secure => exact coherent_secure h ha.1
  | preempt iar => exact coherent_preempt h ha.1
  | other e => exact coherent_other h ha.1

theorem repliesRight_of_coherent {e : ServiceEvent} (h : Coherent p c s) (hl : Legal c s e) :
    RepliesRight p c s e := by
  cases e with
  | kernel m => trivial
  | other e => trivial
  | secure =>
    intro hi
    cases h with
    | fresh hf => exact absurd hf.nonSecure hl.not_nonSecure
    | waiting hns => exact absurd hns hl.not_nonSecure
    | preempted hns => exact absurd hns hl.not_nonSecure
    | working hs hp q hq ha h6 h0 =>
      obtain ⟨_,_,hr⟩ := secure_yields hs hq hi h0
      refine ⟨q,ha,hr,?_⟩
      rw [← hr] at h6
      exact h6
  | preempt iar =>
    cases h with
    | fresh hf => exact absurd hf.nonSecure hl.1.not_nonSecure
    | waiting hns => exact absurd hns hl.1.not_nonSecure
    | preempted hns => exact absurd hns hl.1.not_nonSecure
    | working hs hp q hq ha h6 h0 =>
      obtain ⟨io,hstep⟩ := step_of_preempt img (s := s.system) (preempt_ack (c := c) hl.2)
      change ((step img s.system (.fiq c iar)).core c).machine.x 1 = seeosPreempted
      rw [hstep,jump_machine io h0]
      simp only [Function.update_self]

/-- From a kernel that has made no SEEOS call yet, every reply of an orderly run is
either preempted or the reply to what was asked. -/
theorem replies_right (p : Servicer img k μ) (c : CoreId) (s : Service μ) (hf : Fresh p c s)
    (es : List ServiceEvent) (h : Along (serviceStep p c) (Allowed p c) s es) :
    ∀ pre e post, es = pre ++ e :: post →
      RepliesRight p c (exec (serviceStep p c) s pre) e := by
  rintro pre e post rfl
  rw [along_append] at h
  have hc := exec_invariant (fun _ _ => coherent_step) (Coherent.fresh hf) h.1
  exact repliesRight_of_coherent hc h.2.1.1

/-- The arguments of a call, moved to callee-saved registers. -/
def stash (x : GpRegs) : GpRegs := fun i =>
  match i.val with
  | 19 => x 0
  | 20 => x 1
  | 21 => x 2
  | 22 => x 3
  | _ => x i

/-- The arguments of `smc_call(SMC_YIELD, &res, r1, r2, r3, 0, 0)`. -/
def yieldArgs (r : Reply) (x : GpRegs) : GpRegs := fun i =>
  match i.val with
  | 0 => smcYield.setWidth 64
  | 1 => r.r1
  | 2 => r.r2
  | 3 => r.r3
  | 4 => 0
  | 5 => 0
  | _ => x i

def stashed (m : Machine) : Request := ⟨m.x 19,m.x 20,m.x 21,m.x 22⟩

/-- The loop compiled to three instructions at _seeos_entry: stash the arguments,
compute the reply, yield. -/
def stashingInstr (img : Image) (k : Crypto) (m : Machine) : Machine :=
  if m.pc = img.seeosEntry + 4 then
    { m with x := yieldArgs (seeosServicer k (stashed m)) m.x, pc := img.seeosEntry + 8 }
  else { m with x := stash m.x, pc := img.seeosEntry + 4 }

def StashingServes (img : Image) (k : Crypto) (q : Request) (m : Machine) : Prop :=
  m.atEl3 = false ∧
    ((m.pc = img.seeosEntry ∨ m.pc = img.seeosEntry + 8 + 4) ∧ m.request = q ∨
      m.pc = img.seeosEntry + 4 ∧ stashed m = q ∨
      m.pc = img.seeosEntry + 8 ∧ m.x 0 = smcYield.setWidth 64 ∧ m.reply = seeosServicer k q)

theorem stashing_continues {img : Image} {k : Crypto} {q : Request} {m : Machine}
    (h : StashingServes img k q m) (hne : m.pc ≠ img.seeosEntry + 8) :
    StashingServes img k q (stashingInstr img k m) := by
  unfold stashingInstr
  rcases h with ⟨h3,⟨hpc,hq⟩ | ⟨hpc,hq⟩ | ⟨hpc,_⟩⟩
  · have h4 : m.pc ≠ img.seeosEntry + 4 := by bv_omega
    rw [if_neg h4]
    exact ⟨h3,.inr (.inl ⟨rfl,hq⟩)⟩
  · rw [if_pos hpc]
    exact ⟨h3,.inr (.inr ⟨rfl,rfl,by rw [hq]; rfl⟩)⟩
  · exact absurd hpc hne

theorem stashing_yields {img : Image} {k : Crypto} {q : Request} {m : Machine}
    (h : StashingServes img k q m) (heq : m.pc = img.seeosEntry + 8) :
    m.x 0 = smcYield.setWidth 64 ∧ m.reply = seeosServicer k q := by
  rcases h with ⟨h3,⟨hpc,_⟩ | ⟨hpc,_⟩ | ⟨_,hx,hr⟩⟩
  · bv_omega
  · bv_omega
  · exact ⟨hx,hr⟩

theorem stashing_request {img : Image} {k : Crypto} {m : Machine} (hps : m.pstate = spsrMEl1h)
    (hpc : m.pc = img.seeosEntry ∨ m.pc = img.seeosEntry + 8 + 4) :
    StashingServes img k m.request m :=
  ⟨by simp [Machine.atEl3,hps,spsrMEl1h],.inl ⟨hpc,rfl⟩⟩

theorem stashing_again {img : Image} {k : Crypto} {m m' : Machine}
    (heq : m.pc = img.seeosEntry + 8) (hm : SameCallState m' m.next)
    (hps : m'.pstate = spsrMEl1h) : StashingServes img k m'.request m' := by
  have hpc : m'.pc = img.seeosEntry + 8 + 4 := by
    rw [hm.pc,← heq]
    rfl
  exact stashing_request hps (.inr hpc)

def stashingServicer (img : Image) (k : Crypto) : Servicer img k Unit where
  instr m w := (stashingInstr img k m,w)
  isSmc m _ := m.pc == img.seeosEntry + 8
  start := ()
  serves q m _ := StashingServes img k q m
  below _ _ _ h := h.1
  enter _ _ hpc hps _ := stashing_request hps (.inl hpc)
  continues _ _ _ h hi := stashing_continues h (ne_of_beq_false hi)
  yields _ _ _ h hi := stashing_yields h (eq_of_beq hi)
  again _ _ _ _ hi _ hm hps := stashing_again (eq_of_beq hi) hm hps

def bootedService : Service Unit where
  system := System.boot testImage 0x40300000 .zero
  mem := ()
  asked := none
  preempted := false

def testCrypto : Crypto := ⟨fun w => (w,0xFAEFA0A0A053FE00),Prod.fst⟩
def testServicer : Servicer testImage testCrypto Unit := stashingServicer testImage testCrypto

/-- SEEOS_DOORBELL, asked while SEEOS_VERSION is preempted, is answered with the version. -/
theorem doorbell_gets_version :
    let es : List ServiceEvent :=
      [.kernel (.calling 0x10000010 0x40300104),.secure,.preempt 1021,
       .kernel (.calling 0x10000020 0x40300204),.secure]
    let s := exec (serviceStep testServicer 0) bootedService es
    Along (serviceStep testServicer 0) (Legal 0) bootedService (es ++ [.secure]) ∧
    s.asked = some ⟨seeosDoorbell,0,0,0⟩ ∧
    ((serviceStep testServicer 0 s .secure).machine 0).reply =
      seeosServicer testCrypto ⟨seeosVersion,0,0,0⟩ ∧
    ¬ RepliesRight testServicer 0 s .secure := by
  intro es s
  have ha : s.asked = some ⟨seeosDoorbell,0,0,0⟩ := by decide
  have hr : ((serviceStep testServicer 0 s .secure).machine 0).reply =
      seeosServicer testCrypto ⟨seeosVersion,0,0,0⟩ := by decide
  refine ⟨by decide,ha,hr,fun h => ?_⟩
  have hi : testServicer.isSmc (s.machine 0) s.mem = true := by decide
  obtain ⟨q,hq,hreply,_⟩ := h hi
  obtain rfl := Option.some.inj (ha.symm.trans hq)
  rw [hr] at hreply
  exact absurd hreply (by decide)

/-- A request that is preempted after its arguments are stashed, resumed, and answered. -/
theorem replies_right_resumed :
    let es : List ServiceEvent :=
      [.kernel (.calling 0x10000010 0x40300104),.secure,.preempt 1021,
       .kernel (.calling smcResume 0x40300204),.secure,.secure]
    Fresh testServicer 0 bootedService ∧
    Along (serviceStep testServicer 0) (Allowed testServicer 0) bootedService es ∧
    ∀ pre e post, es = pre ++ e :: post →
      RepliesRight testServicer 0 (exec (serviceStep testServicer 0) bootedService pre) e := by
  intro es
  have hf : Fresh testServicer 0 bootedService := ⟨by decide,rfl,rfl,rfl⟩
  have h : Along (serviceStep testServicer 0) (Allowed testServicer 0) bootedService es := by
    refine ⟨⟨by decide,fun _ => by decide,fun h => absurd h (by decide)⟩,⟨by decide,trivial⟩,
      ⟨by decide,trivial⟩,⟨by decide,fun h => absurd h (by decide),fun _ q hq => ?_⟩,
      ⟨by decide,trivial⟩,⟨by decide,trivial⟩,trivial⟩
    obtain rfl := Option.some.inj hq
    exact ⟨by decide,.inr (.inl ⟨by decide,by decide⟩)⟩
  exact ⟨hf,h,replies_right testServicer 0 bootedService hf es h⟩

end Arm64

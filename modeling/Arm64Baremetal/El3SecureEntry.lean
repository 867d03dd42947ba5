import Arm64Baremetal.El3Switch
import Arm64Baremetal.Runs

/-!
Where secure state can start to run. SMC_YIELD stores whatever trapped as the
secure context and SMC_RESUME loads that context unconditionally, so the answer
depends on who issues them and when.
-/

set_option autoImplicit false

namespace Arm64
open Runs

def Event.Traps (c : CoreId) : Event → Prop
  | .run _ _ => False
  | .sync d _ _ | .fiq d _ => d = c

/-- EL3 itself is always in secure state. -/
def System.InSecureState (s : System) (c : CoreId) : Prop :=
  (s.core c).machine.atEl3 = true ∨ (s.core c).ns = false

instance (c : CoreId) : (e : Event) → Decidable (e.Traps c)
  | .run _ _ => inferInstanceAs (Decidable False)
  | .sync d _ _ => inferInstanceAs (Decidable (d = c))
  | .fiq d _ => inferInstanceAs (Decidable (d = c))

instance (s : System) (c : CoreId) : Decidable (s.InSecureState c) :=
  inferInstanceAs (Decidable (_ ∨ _))

/-- The states that traps of core `c` captured in secure state during a run. -/
def captured (img : Image) (c : CoreId) : System → List Event → List Machine
  | _, [] => []
  | s, e :: es =>
    (if e.Traps c ∧ s.InSecureState c then [(s.core c).machine] else []) ++
      captured img c (step img s e) es

/-- If the handler of event `e`, taken after the events `pre`, returns on core `c`
with SCR_EL3.NS clear, then it enters at _seeos_entry or continues at a captured
secure state, with the EL1 registers of that state. -/
def SecureEntry (img : Image) (s₀ : System) (pre : List Event) (e : Event) (c : CoreId) : Prop :=
  let k := (step img (exec (step img) s₀ pre) e).core c
  e.Returns c → k.ns = false →
    k.machine.pc = img.seeosEntry ∨
    ∃ m ∈ captured img c s₀ (pre ++ [e]),
      m.pc = k.machine.pc ∧ m.sys = k.machine.sys ∧ m.atEl3 = k.machine.atEl3

def System.Unsaved (s : System) : Prop := ∀ c, (s.cpus c).sContext.initialized = 0

/-- SMC_YIELD and interrupt 1021 come from the secure world, and SMC_RESUME finds a
saved secure context. -/
def Guarded (s : System) (e : Event) : Prop :=
  ∀ c, (s.smc c e = some smcYield → s.Secure c) ∧
    (e.ack c = some interruptHpiNsg1 → s.Secure c) ∧
    (s.smc c e = some smcResume → (s.cpus c).sContext.initialized ≠ 0)

instance (s : System) (e : Event) : Decidable (Guarded s e) :=
  inferInstanceAs (Decidable (∀ _, (_ → _) ∧ (_ → _) ∧ (_ → _)))

theorem Event.Returns.traps {c : CoreId} {e : Event} (h : e.Returns c) : e.Traps c := by
  cases e with
  | run d m => exact h.elim
  | sync d esr far => exact h
  | fiq d iar => exact h.1

theorem traps_of_smc {s : System} {c : CoreId} {e : Event} {f : BitVec 32}
    (h : s.smc c e = some f) : e.Traps c := by
  cases e with
  | run d m => contradiction
  | sync d esr far =>
    by_cases hd : d = c
    · exact hd
    · have hn : s.smc c (.sync d esr far) = none := if_neg fun h => hd h.1
      rw [hn] at h
      contradiction
  | fiq d iar => contradiction

theorem traps_of_ack {c : CoreId} {e : Event} {i : BitVec 32} (h : e.ack c = some i) :
    e.Traps c := by
  cases e with
  | run d m => contradiction
  | sync d esr far => contradiction
  | fiq d iar =>
    by_cases hd : d = c
    · exact hd
    · simp [Event.ack,hd] at h

variable {img : Image} {s₀ : System} {pre : List Event} {e : Event} {c : CoreId}

theorem captured_append (es es' : List Event) :
    captured img c s₀ (es ++ es') =
      captured img c s₀ es ++ captured img c (exec (step img) s₀ es) es' := by
  induction es generalizing s₀ with
  | nil => rfl
  | cons e es ih => simp [captured,ih]

theorem captured_mono {m : Machine} (h : m ∈ captured img c s₀ pre) (post : List Event) :
    m ∈ captured img c s₀ (pre ++ post) := by
  rw [captured_append]
  exact List.mem_append_left _ h

theorem captured_now (ht : e.Traps c) (hs : (exec (step img) s₀ pre).InSecureState c) :
    ((exec (step img) s₀ pre).core c).machine ∈ captured img c s₀ (pre ++ [e]) := by
  simp [captured_append,captured,ht,hs]

theorem System.Secure.inSecureState {s : System} (h : s.Secure c) : s.InSecureState c :=
  .inr h.2

/-- The invariant: a saved secure context holds a state captured in the secure world. -/
def SavedSecure (img : Image) (s₀ : System) (pre : List Event) (s : System) : Prop :=
  ∀ c, (s.cpus c).sContext.initialized = 0 ∨
    ∃ m ∈ captured img c s₀ pre, m.atEl3 = false ∧ (s.cpus c).sContext.Holds m

theorem savedSecure_step (h : SavedSecure img s₀ pre (exec (step img) s₀ pre))
    (hg : Guarded (exec (step img) s₀ pre) e) :
    SavedSecure img s₀ (pre ++ [e]) (step img (exec (step img) s₀ pre) e) := by
  intro c
  -- a context that this step leaves alone still holds what it held
  have old : ((step img (exec (step img) s₀ pre) e).cpus c).sContext =
      ((exec (step img) s₀ pre).cpus c).sContext →
      ((step img (exec (step img) s₀ pre) e).cpus c).sContext.initialized = 0 ∨
      ∃ m ∈ captured img c s₀ (pre ++ [e]), m.atEl3 = false ∧
        ((step img (exec (step img) s₀ pre) e).cpus c).sContext.Holds m := by
    intro hc
    rw [hc]
    rcases h c with h0 | ⟨m,hm,h3,hh⟩
    · exact .inl h0
    · exact .inr ⟨m,captured_mono hm [e],h3,hh⟩
  cases step_cases img (exec (step img) s₀ pre) e c with
  | yield esr far hy hs =>
    have hsec := (hg c).1 hy
    refine .inr ⟨_,captured_now (traps_of_smc hy) hsec.inSecureState,hsec.1,?_⟩
    rw [hs]
    exact (leaveSecure_leaves _ c esr far).sContext
  | preempt io hp hs =>
    have hsec := (hg c).2.1 hp
    refine .inr ⟨_,captured_now (traps_of_ack hp) hsec.inSecureState,hsec.1,?_⟩
    rw [hs]
    exact (jump_leaves _ c io).sContext
  | resume esr far hr hs => exact old (by rw [hs]; rfl)
  | seeos esr far hc hs => exact old (by rw [hs]; exact seeosCall_sContext img _ c esr far)
  | calm hy hr hc hp hs => exact old hs.contexts.s

theorem savedSecure_run {es : List Event} (hs : s₀.Unsaved)
    (hg : Along (step img) Guarded s₀ es) :
    SavedSecure img s₀ es (exec (step img) s₀ es) :=
  exec_history (fun c => .inl (hs c)) (fun _ _ => savedSecure_step) hg

theorem entered_of_saved {s : System} (h : SavedSecure img s₀ pre s)
    (hi : (s.cpus c).sContext.initialized ≠ 0) :
    ∃ m ∈ captured img c s₀ (pre ++ [e]), m.pc = (s.entered c).pc ∧
      m.sys = (s.entered c).sys ∧ m.atEl3 = (s.entered c).atEl3 := by
  rcases h c with h0 | ⟨m,hm,h3,hh⟩
  · exact absurd h0 hi
  · exact ⟨m,captured_mono hm [e],hh.elr.symm,hh.sys.symm,by rw [h3,entered_atEl3]⟩

theorem secureEntry_step (h : SavedSecure img s₀ pre (exec (step img) s₀ pre))
    (hg : Guarded (exec (step img) s₀ pre) e) (c : CoreId) : SecureEntry img s₀ pre e c := by
  unfold SecureEntry
  intro k hret hns
  cases step_cases img (exec (step img) s₀ pre) e c with
  | yield esr far hy hs =>
    have hn := (leaveSecure_leaves (exec (step img) s₀ pre) c esr far).ns
    rw [← hs] at hn
    exact absurd (hn.symm.trans hns) (by decide)
  | preempt io hp hs =>
    have hn := (jump_leaves (exec (step img) s₀ pre) c io).ns
    rw [← hs] at hn
    exact absurd (hn.symm.trans hns) (by decide)
  | resume esr far hr hs =>
    have hi := (hg c).2.2 hr
    have hk : k.machine = _ := (congrArg (fun s => (s.core c).machine) hs).trans
      (enterSecure_machine esr far hi)
    rw [hk]
    exact .inr (entered_of_saved h hi)
  | seeos esr far hc hs =>
    by_cases hi : ((exec (step img) s₀ pre).cpus c).sContext.initialized = 0
    · have hk : k.machine = _ := (congrArg (fun s => (s.core c).machine) hs).trans
        (seeosCall_first img esr far hi)
      exact .inl (by rw [hk])
    · have hk : k.machine = _ := (congrArg (fun s => (s.core c).machine) hs).trans
        (seeosCall_machine img esr far hi)
      rw [hk]
      exact .inr (entered_of_saved h hi)
  | calm hy hr hc hp hs =>
    obtain ⟨hpc,hps,hsys,hsec⟩ := hs.returns hret hns
    refine .inr ⟨_,captured_now hret.traps (.inr hsec),hpc.symm,hsys.symm,?_⟩
    simp only [Machine.atEl3,k,hps]

/-- In a guarded run from unsaved contexts, every return to secure state is at
_seeos_entry or at a state captured there, whatever the cores do in between. -/
theorem secure_entry_of_guarded (img : Image) (s₀ : System) (hs : s₀.Unsaved)
    (es : List Event) (hg : Along (step img) Guarded s₀ es) :
    ∀ pre e post, es = pre ++ e :: post → ∀ c, SecureEntry img s₀ pre e c := by
  rintro pre e post rfl c
  rw [along_append] at hg
  exact secureEntry_step (savedSecure_run hs hg.1) hg.2.1 c

def callFrom (m : Machine) : List Event := [.run 0 m,.sync 0 smcEsr 0]

theorem not_secureEntry {s₀ : System} {pre : List Event} {e : Event} {c : CoreId}
    (hr : e.Returns c) (hns : ((step img (exec (step img) s₀ pre) e).core c).ns = false)
    (hpc : ((step img (exec (step img) s₀ pre) e).core c).machine.pc ≠ img.seeosEntry)
    (hcap : (captured img c s₀ (pre ++ [e])).isEmpty = true) : ¬ SecureEntry img s₀ pre e c := by
  intro h
  rcases h hr hns with h | ⟨m,hm,_⟩
  · exact hpc h
  · rw [List.isEmpty_iff.mp hcap] at hm
    contradiction

/-- Right after boot the kernel's SMC_RESUME runs secure state at address 0, and its
SMC_YIELD followed by SMC_RESUME runs secure state at the kernel's own address. -/
theorem kernel_enters_secure_anywhere :
    let img : Image := ⟨0x40040000,0x40000100,fun _ => .off⟩
    let s₀ := System.boot img 0x40300000 .zero
    let resume := Machine.calling smcResume 0x40300104
    let yield := Machine.calling smcYield 0x40300204
    s₀.Unsaved ∧
    ¬ SecureEntry img s₀ [.run 0 resume] (.sync 0 smcEsr 0) 0 ∧
    (step img (exec (step img) s₀ [.run 0 resume]) (.sync 0 smcEsr 0)).Secure 0 ∧
    ¬ SecureEntry img s₀ (callFrom yield ++ [.run 0 resume]) (.sync 0 smcEsr 0) 0 ∧
    ((exec (step img) s₀ (callFrom yield ++ callFrom resume)).core 0).machine.pc =
      0x40300204 := by
  intro img s₀ resume yield
  refine ⟨fun _ => rfl,?_,by decide,?_,by decide⟩
  · exact not_secureEntry rfl (by decide) (by decide) (by decide)
  · exact not_secureEntry rfl (by decide) (by decide) (by decide)

/-- A kernel that first makes a SEEOS call, which yields, and then resumes. -/
theorem secure_entry_of_call :
    let img : Image := ⟨0x40040000,0x40000100,fun _ => .off⟩
    let s₀ := System.boot img 0x40300000 .zero
    let es := callFrom (Machine.calling 0x10000010 0x40300104) ++
      callFrom (Machine.calling smcYield 0x40041004) ++
      callFrom (Machine.calling smcResume 0x40300204)
    s₀.Unsaved ∧ Along (step img) Guarded s₀ es ∧
      ∀ pre e post, es = pre ++ e :: post → ∀ c, SecureEntry img s₀ pre e c := by
  intro img s₀ es
  have hs : s₀.Unsaved := fun _ => rfl
  have hg : Along (step img) Guarded s₀ es := by decide
  exact ⟨hs,hg,secure_entry_of_guarded img s₀ hs es hg⟩

end Arm64

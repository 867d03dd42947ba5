import Arm64Baremetal.El3Context
import Arm64Baremetal.Runs
import Mathlib.Data.Fintype.Basic

/-!
cpus[c].state and cpus[c].entry_point of one core, store by store: the core boots, is woken
and is put to sleep while calls of psci_fn_cpu_on and psci_fn_cpu_off for it are under way.
-/

set_option autoImplicit false

namespace Arm64.El3Power
open Runs

/-- What the core executes with FIQ unmasked, apart from el3_cpu_off: init_sec_core, the
loop of halt_secondary, main, or code below EL3. -/
inductive Base where
  | init | parked | main | kernel
  deriving DecidableEq

/-- `start` is before the first store to cpus[c].state, with FIQ masked as at reset. In
el3_cpu_off, FIQ is masked until daif is written; OFF is stored, then the entry point. -/
inductive Point where
  | start | initOn | mainOn
  | base (b : Base)
  | offMasked (b : Base)
  | offOpen (b : Base)
  | offStored
  | offLoop
  deriving DecidableEq

/-- el3_fiq for SGI_CORE_WAKE, which runs with FIQ masked. -/
inductive Wake where
  | none | acknowledged | releasing | released | refused
  deriving DecidableEq

/-- A call for the core, by the statement it is about to execute. -/
inductive Caller where
  | done (result : BitVec 32)
  | testOn (entryPoint : Word)
  | testBooting (entryPoint : Word)
  | storeEntry (entryPoint : Word)
  | storeState
  | storeContext
  | sendWake
  | testOff
  | sendSleep
  deriving DecidableEq

/-- The entry of cpus[] for the core, where the core is, what is pending for it, and the
callers `ι` on other cores. -/
structure Power (ι : Type) where
  primary : Bool
  state : PowerState
  entryPoint : Word
  contextId : BitVec 8
  point : Point
  wake : Wake
  pendingWake : Bool
  pendingSleep : Bool
  callers : ι → Caller

def boot {ι : Type} (primary : Bool) : Power ι where
  primary := primary
  state := .off
  entryPoint := 0
  contextId := 0
  point := .start
  wake := .none
  pendingWake := false
  pendingSleep := false
  callers _ := .done psciSuccess

inductive Label (ι : Type) where
  | core
  | ackWake
  | ackSleep
  | callOn (i : ι) (entryPoint : Word)
  | callOff (i : ι)
  | caller (i : ι)
  deriving DecidableEq

def Point.unmasked : Point → Bool
  | .base _ | .offOpen _ | .offStored | .offLoop => true
  | .start | .initOn | .mainOn | .offMasked _ => false

variable {ι : Type}

namespace Power

/-- The next statement of the core outside of the handler for SGI_CORE_WAKE. -/
def advance (s : Power ι) : Power ι :=
  match s.point with
  | .start => { s with state := .on, point := if s.primary then .mainOn else .initOn }
  | .initOn => { s with point := .base .init }
  | .mainOn => { s with point := .base .main }
  | .base .init => { s with state := .off, point := .base .parked }
  | .base .main => { s with point := .base .kernel }
  | .base .parked | .base .kernel | .offLoop => s
  | .offMasked b => { s with point := .offOpen b }
  | .offOpen _ => { s with state := .off, point := .offStored }
  | .offStored => { s with entryPoint := 0, point := .offLoop }

/-- The next statement of the handler: the test in el3_cpu_on, its store, and the `eret`,
to the kernel or to where the FIQ was taken. -/
def advanceWake (s : Power ι) : Power ι :=
  match s.wake with
  | .none => s.advance
  | .acknowledged => { s with wake := if s.entryPoint ≠ 0 then .releasing else .refused }
  | .releasing => { s with state := .on, wake := .released }
  | .released => { s with point := .base .kernel, wake := .none }
  | .refused => { s with wake := .none }

variable [DecidableEq ι]

def setCaller (s : Power ι) (i : ι) (k : Caller) : Power ι :=
  { s with callers := Function.update s.callers i k }

/-- The next statement of psci_fn_cpu_on or psci_fn_cpu_off. -/
def advanceCaller (s : Power ι) (i : ι) : Power ι :=
  match s.callers i with
  | .done _ => s
  | .testOn e =>
      s.setCaller i (if s.state = .on then .done psciErrAlreadyOnline else .testBooting e)
  | .testBooting e =>
      s.setCaller i (if s.state = .booting then .done psciErrCoreBooting else .storeEntry e)
  | .storeEntry e => { s with entryPoint := e }.setCaller i .storeState
  | .storeState => { s with state := .booting }.setCaller i .storeContext
  | .storeContext => { s with contextId := 0 }.setCaller i .sendWake
  | .sendWake => { s with pendingWake := true }.setCaller i (.done psciSuccess)
  | .testOff =>
      s.setCaller i (if s.state = .off then .done psciErrNotSupported else .sendSleep)
  | .sendSleep => { s with pendingSleep := true }.setCaller i (.done psciSuccess)

def isDone : Caller → Bool
  | .done _ => true
  | _ => false

/-- A label that is not possible in a state leaves it as it is. SGI_CORE_SLEEP does not
interrupt el3_cpu_off, which runs at its priority. -/
def step (s : Power ι) : Label ι → Power ι
  | .core => s.advanceWake
  | .ackWake =>
      if s.pendingWake ∧ s.wake = .none ∧ s.point.unmasked then
        { s with pendingWake := false, wake := .acknowledged }
      else s
  | .ackSleep =>
      match s.point with
      | .base b =>
          if s.pendingSleep ∧ s.wake = .none then
            { s with pendingSleep := false, point := .offMasked b }
          else s
      | _ => s
  | .callOn i e =>
      if isDone (s.callers i) then
        s.setCaller i (if e = 0 ∨ e &&& 0x3 ≠ 0 then .done psciErrBaddress else .testOn e)
      else s
  | .callOff i => if isDone (s.callers i) then s.setCaller i .testOff else s
  | .caller i => s.advanceCaller i

end Power

section Truth
variable (s : Power ι)

/-- The core has been released to the kernel and not been turned off since. -/
def Released : Prop := s.point = .base .kernel ∨ s.point = .offMasked .kernel ∨
  s.point = .offOpen .kernel

def BeingReleased : Prop := s.wake = .releasing ∨ s.wake = .released ∨ s.point = .mainOn ∨
  s.point = .base .main ∨ s.point = .offMasked .main ∨ s.point = .offOpen .main

def AboutToWake : Prop := ∃ i, s.callers i = .storeContext ∨ s.callers i = .sendWake

/-- SGI_CORE_WAKE is acknowledged, and el3_cpu_on has not stored ON yet. -/
def Waking : Prop := s.wake = .acknowledged ∨ s.wake = .releasing

structure Truthful : Prop where
  on : s.state = .on → Released s ∨ BeingReleased s
  booting : s.state = .booting →
    s.entryPoint ≠ 0 ∧ (AboutToWake s ∨ s.pendingWake ∨ Waking s)

/-- The core is in init_sec_core after its store of ON, or in el3_cpu_off called from there,
before the store of OFF, and no SGI_CORE_WAKE is releasing it. -/
def Initialising : Prop := (s.point = .initOn ∨ s.point = .base .init ∨
  s.point = .offMasked .init ∨ s.point = .offOpen .init) ∧ s.wake ≠ .releasing ∧ s.wake ≠ .released

/-- When el3_cpu_off clears the entry point, no psci_fn_cpu_on has stored one that it
relies on. -/
def KeepsEntry (s : Power ι) : Label ι → Prop
  | .core => s.wake = .none → s.point = .offStored →
      s.state ≠ .booting ∧ ∀ i, s.callers i ≠ .storeState
  | _ => True

instance [Fintype ι] (s : Power ι) (l : Label ι) : Decidable (KeepsEntry s l) :=
  match l with
  | .core => inferInstanceAs (Decidable (s.wake = .none → s.point = .offStored →
      s.state ≠ .booting ∧ ∀ i, s.callers i ≠ .storeState))
  | .ackWake | .ackSleep | .callOn _ _ | .callOff _ | .caller _ => inferInstanceAs (Decidable True)

instance [Fintype ι] (s : Power ι) : Decidable (AboutToWake s) :=
  inferInstanceAs (Decidable (∃ i, s.callers i = .storeContext ∨ s.callers i = .sendWake))

/-- Where the core has not been released and has not stored ON itself. -/
def Dark : Point → Prop
  | .start | .base .parked | .offMasked .parked | .offOpen .parked | .offStored | .offLoop => True
  | _ => False

structure Inv (s : Power ι) : Prop where
  on : s.state = .on → Dark s.point → s.wake = .releasing ∨ s.wake = .released
  entry : ∀ i, s.callers i = .storeState → s.entryPoint ≠ 0
  fresh : ∀ i e, s.callers i = .testOn e ∨ s.callers i = .testBooting e ∨
    s.callers i = .storeEntry e → e ≠ 0
  booting : s.state = .booting →
    s.entryPoint ≠ 0 ∧ (AboutToWake s ∨ s.pendingWake ∨ Waking s)

end Truth

variable {s : Power ι}

theorem boot_inv (primary : Bool) : Inv (boot primary : Power ι) where
  on h := by cases h
  entry i h := by cases h
  fresh i e h := by rcases h with h | h | h <;> cases h
  booting h := by cases h

theorem advance_inv (h : Inv s)
    (hk : s.point = .offStored → s.state ≠ .booting ∧ ∀ i, s.callers i ≠ .storeState) :
    Inv s.advance := by
  obtain ⟨hon,hentry,hfresh,hboot⟩ := h
  unfold Power.advance
  split
  all_goals
    rename_i hp
    simp only [hp,Dark] at hon hk
  · refine ⟨fun _ hd => ?_,hentry,hfresh,by simp⟩
    cases hprim : s.primary <;> simp [hprim,Dark] at hd
  · exact ⟨fun _ hd => hd.elim,hentry,hfresh,hboot⟩
  · exact ⟨fun _ hd => hd.elim,hentry,hfresh,hboot⟩
  · exact ⟨by simp,hentry,hfresh,by simp⟩
  · exact ⟨fun _ hd => hd.elim,hentry,hfresh,hboot⟩
  · exact ⟨fun h _ => hon h trivial,hentry,hfresh,hboot⟩
  · exact ⟨fun _ hd => by simp [hp,Dark] at hd,hentry,hfresh,hboot⟩
  · exact ⟨fun h _ => hon h trivial,hentry,hfresh,hboot⟩
  · rename_i b
    refine ⟨fun h hd => hon h ?_,hentry,hfresh,hboot⟩
    cases b with
    | parked => trivial
    | init | main | kernel => exact hd.elim
  · exact ⟨by simp,hentry,hfresh,by simp⟩
  · obtain ⟨hstate,hcalls⟩ := hk trivial
    exact ⟨fun h _ => hon h trivial,fun i h => absurd h (hcalls i),hfresh,fun h => absurd h hstate⟩

theorem advanceWake_inv (h : Inv s) (hk : KeepsEntry s .core) : Inv s.advanceWake := by
  obtain ⟨hon,hentry,hfresh,hboot⟩ := h
  unfold Power.advanceWake
  split
  all_goals
    rename_i hw
    simp only [hw] at hon
  · exact advance_inv ⟨fun hs hd => absurd (hon hs hd) (by simp),hentry,hfresh,hboot⟩ (hk hw)
  · refine ⟨fun hs hd => absurd (hon hs hd) (by simp),hentry,hfresh,fun hs => ?_⟩
    have hne := (hboot hs).1
    exact ⟨hne,.inr (.inr (.inr (if_pos hne)))⟩
  · exact ⟨fun _ _ => .inr rfl,hentry,hfresh,by simp⟩
  · refine ⟨fun _ hd => hd.elim,hentry,hfresh,fun hs => ?_⟩
    simpa [AboutToWake,Waking,hw] using hboot hs
  · refine ⟨fun hs hd => absurd (hon hs hd) (by simp),hentry,hfresh,fun hs => ?_⟩
    simpa [AboutToWake,Waking,hw] using hboot hs

section Callers
variable [DecidableEq ι]

theorem setCaller_inv (h : Inv s) {i : ι} {k : Caller} (hentry : k = .storeState → s.entryPoint ≠ 0)
    (hfresh : ∀ e, k = .testOn e ∨ k = .testBooting e ∨ k = .storeEntry e → e ≠ 0)
    (hwake : s.callers i = .storeContext ∨ s.callers i = .sendWake →
      k = .storeContext ∨ k = .sendWake ∨ s.pendingWake) : Inv (s.setCaller i k) := by
  have hcall : ∀ j, (s.setCaller i k).callers j = if j = i then k else s.callers j :=
    fun j => Function.update_apply s.callers i k j
  refine ⟨h.on,fun j hj => ?_,fun j e hj => ?_,fun hs => ?_⟩
  · rw [hcall] at hj
    split at hj
    · exact hentry hj
    · exact h.entry j hj
  · rw [hcall] at hj
    split at hj
    · exact hfresh e hj
    · exact h.fresh j e hj
  · obtain ⟨hne,hflight⟩ := h.booting hs
    refine ⟨hne,?_⟩
    rcases hflight with ⟨j,hj⟩ | hp | hwk
    · by_cases hji : j = i
      · subst hji
        rcases hwake hj with hk | hk | hp
        · exact .inl ⟨j,.inl ((hcall j).trans (by rw [if_pos rfl,hk]))⟩
        · exact .inl ⟨j,.inr ((hcall j).trans (by rw [if_pos rfl,hk]))⟩
        · exact .inr (.inl hp)
      · exact .inl ⟨j,by rwa [hcall,if_neg hji]⟩
    · exact .inr (.inl hp)
    · exact .inr (.inr hwk)

theorem advanceCaller_inv (h : Inv s) (i : ι) : Inv (s.advanceCaller i) := by
  unfold Power.advanceCaller
  split
  all_goals rename_i hi
  · exact h
  · rename_i e
    have he := h.fresh i e (.inl hi)
    refine setCaller_inv h (fun hk => ?_) (fun e' hk => ?_) (by simp [hi])
    · split at hk <;> cases hk
    · split at hk <;> simp at hk
      exact hk ▸ he
  · rename_i e
    have he := h.fresh i e (.inr (.inl hi))
    refine setCaller_inv h (fun hk => ?_) (fun e' hk => ?_) (by simp [hi])
    · split at hk <;> cases hk
    · split at hk <;> simp at hk
      exact hk ▸ he
  · rename_i e
    have he := h.fresh i e (.inr (.inr hi))
    have h1 : Inv { s with entryPoint := e } :=
      ⟨h.on,fun _ _ => he,h.fresh,fun hs => ⟨he,(h.booting hs).2⟩⟩
    exact setCaller_inv h1 (fun _ => he) (by simp) (by simp [hi])
  · have hne := h.entry i hi
    obtain ⟨_,hentry,hfresh,_⟩ := @setCaller_inv _ _ _ h i .storeContext (by simp) (by simp)
      (fun _ => .inl rfl)
    exact ⟨by simp [Power.setCaller],hentry,hfresh,
      fun _ => ⟨hne,.inl ⟨i,.inl (Function.update_self ..)⟩⟩⟩
  · have h1 : Inv { s with contextId := 0 } := ⟨h.on,h.entry,h.fresh,h.booting⟩
    exact setCaller_inv h1 (by simp) (by simp) (by simp)
  · have h1 : Inv { s with pendingWake := true } :=
      ⟨h.on,h.entry,h.fresh,fun hs => ⟨(h.booting hs).1,.inr (.inl rfl)⟩⟩
    exact setCaller_inv h1 (by simp) (by simp) (by simp)
  · refine setCaller_inv h (fun hk => ?_) (fun e hk => ?_) (by simp [hi])
    all_goals split at hk <;> simp at hk
  · have h1 : Inv { s with pendingSleep := true } := ⟨h.on,h.entry,h.fresh,h.booting⟩
    exact setCaller_inv h1 (by simp) (by simp) (by simp [hi])

theorem step_inv {l : Label ι} (h : Inv s) (hk : KeepsEntry s l) : Inv (s.step l) := by
  cases l with
  | core => exact advanceWake_inv h hk
  | ackWake =>
    simp only [Power.step]
    split
    · rename_i hp
      refine ⟨fun hs hd => ?_,h.entry,h.fresh,fun hs => ⟨(h.booting hs).1,.inr (.inr (.inl rfl))⟩⟩
      exact absurd (h.on hs hd) (by simp [hp.2.1])
    · exact h
  | ackSleep =>
    simp only [Power.step]
    split
    · split
      · rename_i b hb _
        refine ⟨fun hs hd => h.on hs ?_,h.entry,h.fresh,h.booting⟩
        rw [hb]
        cases b with
        | parked => trivial
        | init | main | kernel => exact hd.elim
      · exact h
    · exact h
  | callOn i e =>
    simp only [Power.step]
    split
    · rename_i hi
      refine setCaller_inv h (fun hk => ?_) (fun e' hk => ?_) ?_
      · split at hk <;> cases hk
      · split at hk <;> simp at hk
        rename_i hv
        exact hk ▸ fun h0 => hv (.inl h0)
      · rintro (h1 | h1) <;> simp [h1,Power.isDone] at hi
    · exact h
  | callOff i =>
    simp only [Power.step]
    split
    · rename_i hi
      refine setCaller_inv h (by simp) (by simp) ?_
      rintro (h1 | h1) <;> simp [h1,Power.isDone] at hi
    · exact h
  | caller i => exact advanceCaller_inv h i

theorem run_inv {s : Power ι} {ls : List (Label ι)} (h : Inv s)
    (hk : Along Power.step KeepsEntry s ls) : Inv (exec Power.step s ls) :=
  exec_invariant (fun _ _ => step_inv) h hk

/-- The core gets to the kernel, with ON in the table, by steps of its own. -/
def Boots (s : Power ι) : Prop := ∃ ls : List (Label ι), (∀ l ∈ ls, l = .core ∨ l = .ackWake) ∧
  (exec Power.step s ls).state = .on ∧ (exec Power.step s ls).point = .base .kernel ∧
  (exec Power.step s ls).wake = .none

theorem Boots.of_step {l : Label ι} (hl : l = .core ∨ l = .ackWake) (h : Boots (s.step l)) :
    Boots s := by
  obtain ⟨ls,hown,hend⟩ := h
  refine ⟨l :: ls,fun l' hl' => ?_,hend⟩
  rcases List.mem_cons.mp hl' with rfl | hmem
  · exact hl
  · exact hown l' hmem

theorem boots_releasing (hw : s.wake = .releasing) : Boots s := by
  refine .of_step (.inl rfl) (.of_step (.inl rfl) ⟨[],by simp,?_⟩)
  simp [Power.step,Power.advanceWake,hw]

theorem boots_acknowledged (hw : s.wake = .acknowledged) (he : s.entryPoint ≠ 0) : Boots s := by
  refine .of_step (.inl rfl) (boots_releasing ?_)
  simp only [Power.step,Power.advanceWake,hw,if_pos he]

theorem boots_unmasked (hw : s.wake = .none) (hp : s.pendingWake) (he : s.entryPoint ≠ 0)
    (hu : s.point.unmasked) : Boots s := by
  refine .of_step (.inr rfl) (boots_acknowledged ?_ ?_)
  all_goals simp only [Power.step,if_pos (show _ ∧ _ ∧ _ from ⟨hp,hw,hu⟩)]
  exact he

theorem boots_pending (hw : s.wake = .none) (hp : s.pendingWake) (he : s.entryPoint ≠ 0) :
    Boots s := by
  have he' : ¬ s.entryPoint = 0#64 := he
  cases hpt : s.point with
  | base b => exact boots_unmasked hw hp he (by rw [hpt]; rfl)
  | offOpen b => exact boots_unmasked hw hp he (by rw [hpt]; rfl)
  | offStored => exact boots_unmasked hw hp he (by rw [hpt]; rfl)
  | offLoop => exact boots_unmasked hw hp he (by rw [hpt]; rfl)
  | offMasked b =>
    refine .of_step (.inl rfl) (boots_unmasked ?_ ?_ ?_ ?_)
    all_goals simp [Power.step,Power.advanceWake,Power.advance,hw,hpt,hp,he',Point.unmasked]
  | initOn =>
    refine .of_step (.inl rfl) (boots_unmasked ?_ ?_ ?_ ?_)
    all_goals simp [Power.step,Power.advanceWake,Power.advance,hw,hpt,hp,he',Point.unmasked]
  | mainOn =>
    refine .of_step (.inl rfl) (boots_unmasked ?_ ?_ ?_ ?_)
    all_goals simp [Power.step,Power.advanceWake,Power.advance,hw,hpt,hp,he',Point.unmasked]
  | start =>
    refine .of_step (.inl rfl) (.of_step (.inl rfl) (boots_unmasked ?_ ?_ ?_ ?_))
    all_goals
      cases hprim : s.primary
      all_goals
        simp [Power.step,Power.advanceWake,Power.advance,hw,hpt,hp,he',hprim,Point.unmasked]

/-- A core in BOOTING boots, unless the SGI for it is still to be sent. -/
theorem Inv.boots (h : Inv s) (hs : s.state = .booting) (hquiet : ¬ AboutToWake s) : Boots s := by
  obtain ⟨he,hflight⟩ := h.booting hs
  have hflight := hflight.resolve_left hquiet
  cases hw : s.wake with
  | none =>
    refine boots_pending hw (hflight.resolve_right ?_) he
    simp [Waking,hw]
  | acknowledged => exact boots_acknowledged hw he
  | releasing => exact boots_releasing hw
  | released | refused =>
    have hp := hflight.resolve_right (by simp [Waking,hw])
    have he' : ¬ s.entryPoint = 0#64 := he
    refine .of_step (.inl rfl) (boots_pending ?_ ?_ ?_)
    all_goals simp [Power.step,Power.advanceWake,hw,hp,he']

omit [DecidableEq ι] in
theorem Inv.released (h : Inv s) (hs : s.state = .on) (hi : ¬ Initialising s) :
    Released s ∨ BeingReleased s := by
  have hdark := h.on hs
  simp only [Initialising,Released,BeingReleased] at *
  cases hp : s.point with
  | base b | offMasked b | offOpen b =>
    cases b
    all_goals
      simp only [hp,Dark] at *
      grind
  | start | initOn | mainOn | offStored | offLoop =>
    simp only [hp,Dark] at *
    grind

omit [DecidableEq ι] in
theorem Inv.truthful_iff (h : Inv s) : Truthful s ↔ ¬ (s.state = .on ∧ Initialising s) := by
  constructor
  · rintro ht ⟨hs,⟨hp,hw⟩⟩
    have := ht.on hs
    simp only [Released,BeingReleased,hw.1,hw.2] at this
    rcases hp with hp | hp | hp | hp <;> simp [hp] at this
  · intro hn
    exact ⟨fun hs => h.released hs fun hi => hn ⟨hs,hi⟩,h.booting⟩

end Callers

/-- In every run that keeps entry points, the table tells the truth, except while
init_sec_core has its own ON in it. A core in BOOTING whose caller has sent its SGI gets to
the kernel, and a call finds ON only once the core is released. -/
theorem table_truthful {ι : Type} [DecidableEq ι] (primary : Bool) (ls : List (Label ι))
    (hk : Along Power.step KeepsEntry (boot primary) ls) :
    let s := exec Power.step (boot primary) ls
    (Truthful s ↔ ¬ (s.state = .on ∧ Initialising s)) ∧
    (s.state = .booting → ¬ AboutToWake s → Boots s) ∧
    ∀ i e, s.callers i = .testOn e →
      (s.step (.caller i)).callers i = .done psciErrAlreadyOnline → ¬ Initialising s →
      Released s ∨ BeingReleased s := by
  intro s
  have h : Inv s := run_inv (boot_inv primary) hk
  refine ⟨h.truthful_iff,fun hs hquiet => h.boots hs hquiet,fun i e hi hdone hn => ?_⟩
  by_cases hs : s.state = .on
  · exact h.released hs hn
  · simp [Power.step,Power.advanceCaller,Power.setCaller,hi,hs] at hdone

def callerSteps (n : Nat) : List (Label Unit) := List.replicate n (.caller ())

/-- A core that boots, is woken, is put to sleep in the kernel, and is called to wake again. -/
def twoCycles : List (Label Unit) :=
  [.core,.core,.core,.callOn () 0x40080000] ++ callerSteps 6 ++
  [.ackWake,.core,.core,.core,.callOff ()] ++ callerSteps 2 ++
  [.ackSleep,.core,.core,.core,.callOn () 0x40080000] ++ callerSteps 6

theorem table_truthful_twoCycles :
    let s := exec Power.step (boot false) twoCycles
    s.state = .booting ∧ Truthful s ∧ Boots s := by
  intro s
  have hs : s.state = .booting := by decide
  obtain ⟨htrue,hboots,_⟩ := table_truthful false twoCycles (by decide)
  exact ⟨hs,htrue.mpr fun h => by simp [s,hs] at h,hboots hs (by decide)⟩

/-- init_sec_core has its ON in the table when a call looks at it. -/
def callWhileInitialising : List (Label Unit) :=
  [.core,.callOn () 0x40080000,.caller ()]

/-- el3_cpu_off clears the entry point between the stores and the SGI of a call. -/
def lostWake : List (Label Unit) :=
  [.core,.core,.core,.callOn () 0x40080000] ++ callerSteps 6 ++
  [.ackWake,.core,.core,.core,.callOff ()] ++ callerSteps 2 ++
  [.ackSleep,.core,.core,.callOn () 0x40080000] ++ callerSteps 4 ++
  [.core] ++ callerSteps 2 ++ [.ackWake,.core,.core]

theorem table_lies :
    (let s := exec Power.step (boot false) callWhileInitialising
    s.callers () = .done psciErrAlreadyOnline ∧ s.state = .on ∧ s.point = .initOn ∧
      ¬ Truthful s) ∧
    let s := exec Power.step (boot false) lostWake
    s.callers () = .done psciSuccess ∧ s.state = .booting ∧ s.point = .offLoop ∧
      s.wake = .none ∧ s.pendingWake = false ∧ ¬ Truthful s := by
  refine ⟨⟨by decide,by decide,by decide,fun h => ?_⟩,
    by decide,by decide,by decide,by decide,by decide,fun h => ?_⟩
  · rcases h.on (by decide) with h | h
    · exact absurd h (by unfold Released; decide)
    · exact absurd h (by unfold BeingReleased; decide)
  · exact (h.booting (by decide)).1 (by decide)

end Arm64.El3Power

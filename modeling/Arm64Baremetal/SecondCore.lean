import Arm64Baremetal.MemoryProtection

/-!
The start of the second core: core 0 goes through kernel_setup_mmu, c_entry and the loop of
kernel_main_thread that waits for k_cpus[1], while core 1 comes from PSCI_CPU_ON through
seccore_setup_mmu to its virtual addresses. Both need the identity mapping of the kernel for a
while, and kernel_main_thread takes it away.
-/

set_option autoImplicit false

namespace Arm64
open Runs Stage1

/-- Whole pages of the text and the data of the kernel. -/
def BootImage.Text (img : BootImage) (p : Nat) : Prop :=
  img.kernelStart.toNat ≤ 4096 * p ∧ 4096 * (p + 1) ≤ img.kernelEnd.toNat

/-- Whole pages of the kernel up to the top of its stacks. -/
def BootImage.Owned (img : BootImage) (p : Nat) : Prop :=
  img.kernelStart.toNat ≤ 4096 * p ∧ 4096 * (p + 1) ≤ img.kernelStack.toNat

/-- In the half of the address space that `key` translates, a core executes the kernel where it is
linked and has its data and its stacks there. -/
structure Executes (img : BootImage) (r : Regime) (mem : TableMem) (key : KernelRoot) : Prop where
  text : ∀ va, viewRoot va = some key → img.Text (pageNumber va) →
    ∃ pa, r.access mem false .fetch va = some pa ∧ pa.toNat / 4096 = pageNumber va
  data : ∀ va, viewRoot va = some key → img.Owned (pageNumber va) → ∀ a, a ≠ .fetch →
    ∃ pa, r.access mem false a va = some pa ∧ pa.toNat / 4096 = pageNumber va

/-- Core 0: the calls that kernel_setup_mmu has still to make, its end with the MMU on, c_entry up
to the smc of kernel_main_thread, the loop on k_cpus[1], and what follows the loop. -/
inductive FirstAt where
  | setup (calls : List (MapCall KernelRoot))
  | unlock
  | entry
  | test
  | waitForEvent
  | mainThread

/-- Core 1: in EL3, in `while (mmu_lock);`, with the MMU on before and after `br x4`, and at the
last three instructions of sec_entry before its loop, and in that. -/
inductive SecondAt where
  | parked
  | lock
  | low
  | high
  | dmb
  | sev
  | asleep
  deriving DecidableEq

/-- `on` is k_cpus[1] == ON, `event` the event register of core 0. -/
structure Start where
  space : Space
  mmuLock : Word
  on : Bool
  event : Bool
  first : FirstAt
  second : SecondAt

inductive StartStep where
  | first
  | second
  | mm (c : MmCall)
  | event
  deriving DecidableEq

def Start.setTables (m : Tables) (s : Start) : Start :=
  { s with space.heap.mm.tables := m }

def startFirst (img : BootImage) (s : Start) : Start :=
  match s.first with
  | .setup [] => { s with first := .unlock }
  | .setup (c :: cs) =>
    { s.setTables (mapCallAt img.tables 0 s.space.heap.mm.tables c) with first := .setup cs }
  | .unlock => { s with mmuLock := 0, first := .entry }
  | .entry => { s with first := .test, second := if s.second = .parked then .lock else s.second }
  | .test => { s with first := if s.on then .mainThread else .waitForEvent }
  | .waitForEvent => if s.event then { s with event := false, first := .test } else s
  | .mainThread => { s with space := spaceStep img s.space .mainThread }

def startSecond (s : Start) : Start :=
  match s.second with
  | .parked => s
  | .lock => if s.mmuLock = 0 then { s with second := .low } else s
  | .low => { s with second := .high }
  | .high => { s with on := true, second := .dmb }
  | .dmb => { s with second := .sev }
  | .sev => { s with event := true, second := .asleep }
  | .asleep => s

def startStep (img : BootImage) (s : Start) : StartStep → Start
  | .first => startFirst img s
  | .second => startSecond s
  | .mm c => { s with space := spaceStep img s.space (.mm c) }
  | .event => { s with event := true }

/-- mmu_lock is 0. -/
def FirstAt.booted : FirstAt → Bool
  | .setup _ | .unlock => false
  | .entry | .test | .waitForEvent | .mainThread => true

def FirstAt.alone : FirstAt → Bool
  | .setup _ | .unlock | .entry => true
  | .test | .waitForEvent | .mainThread => false

/-- k_cpus[1] has been set. -/
def SecondAt.reported : SecondAt → Bool
  | .parked | .lock | .low | .high => false
  | .dmb | .sev | .asleep => true

def SecondAt.virtual : SecondAt → Bool
  | .parked | .lock | .low => false
  | .high | .dmb | .sev | .asleep => true

def StartLegal (s : Start) : StartStep → Prop
  | .mm c => s.first.booted = true ∧ MmLegal s.space.heap c
  | .first | .second | .event => True

instance (s : Start) : (e : StartStep) → Decidable (StartLegal s e)
  | .mm c => inferInstanceAs (Decidable (_ ∧ MmLegal s.space.heap c))
  | .first | .second | .event => inferInstanceAs (Decidable True)

variable {img : BootImage} (app : AppImage img)

def Start.boot : Start where
  space := ⟨⟨⟨fun _ => 0,.bss,[]⟩,[]⟩,app.turns⟩
  mmuLock := 1
  on := false
  event := false
  first := .setup img.setupCalls
  second := .parked

structure StartSafe (img : BootImage) (r : SchedCore → Regime) (s : Start) : Prop where
  firstLow : s.first = .unlock ∨ s.first = .entry →
    Executes img (r 0) s.space.heap.mm.tables.mem .userL1
  firstHigh : s.first.booted = true → Executes img (r 0) s.space.heap.mm.tables.mem .kernelL1
  secondLow : s.second = .low → Executes img (r 1) s.space.heap.mm.tables.mem .userL1
  secondHigh : s.second.virtual = true → Executes img (r 1) s.space.heap.mm.tables.mem .kernelL1
  order : s.first = .mainThread → s.second.reported = true
  noLostEvent : s.first = .waitForEvent → s.second = .asleep → s.event = true

section Identity
variable {app}

theorem BootImage.Text.owned {p : Nat} (h : img.Text p) : img.Owned p :=
  ⟨h.1,h.2.trans img.stackAfterEnd⟩

include app in
theorem setup_others (hsmem : img.kernelStack.toNat ≤ smemBuffer.toNat) {p : Nat}
    (hp : img.Owned p) (key : KernelRoot) : ∀ c ∈ img.setupCalls.drop 4, ¬ c.Covers key p := by
  have h5 := img.stackLow
  have hbase : smemBuffer.toNat = 0x40800000 := rfl
  obtain ⟨hlo,hhi⟩ := hp
  cases key with
  | kernelL1 => exact setup_devices app (by omega) hlo
  | userL1 =>
    intro c hc hcovers
    simp only [BootImage.setupCalls,List.drop_succ_cons,List.drop_zero,List.mem_cons,
      List.not_mem_nil,or_false] at hc
    obtain rfl | rfl | rfl | rfl | rfl := hc
    case inr.inr.inr.inr =>
      obtain ⟨_,hfrom,_⟩ := (region_covers (by omega) (by decide)).mp hcovers
      omega
    all_goals exact absurd hcovers.1 (by decide)

include app in
/-- Both roots map the kernel to itself. -/
theorem setup_identity (hsmem : img.kernelStack.toNat ≤ smemBuffer.toNat) {p : Nat}
    (hp : img.Owned p) (key : KernelRoot) : ∃ flags,
    img.setupMap key p = some ⟨BitVec.ofNat 64 (4096 * p),flags⟩ ∧ flags.getLsbD 10 = true ∧
      flags.getLsbD 7 = false ∧ flags.getLsbD 6 = false ∧
      (img.Text p → flags.getLsbD 53 = false) := by
  have h2 := app.kernelPage
  have h3 := img.endAfterStart
  have h4 := img.stackAfterEnd
  have h5 := img.stackLow
  have hsize : (img.kernelEnd - img.kernelStart).toNat =
      img.kernelEnd.toNat - img.kernelStart.toNat := BitVec.toNat_sub_of_le h3
  have hrest : (img.kernelStack - img.kernelEnd).toNat =
      img.kernelStack.toNat - img.kernelEnd.toNat := BitVec.toNat_sub_of_le h4
  have hmap : img.setupMap key p =
      exec MapCall.onMap (fun _ _ => none) (img.setupCalls.take 4) key p := by
    rw [BootImage.setupMap,← List.take_append_drop 4 img.setupCalls,exec_append]
    exact onMap_of_not (@setup_others img app hsmem p hp key)
  obtain ⟨hlo,hhi⟩ := hp
  have hlt : p < 2 ^ 20 := by omega
  simp only [BootImage.setupCalls,List.take_succ_cons,List.take_zero,exec_cons,exec_nil] at hmap
  by_cases hdata : img.kernelEnd.toNat / 4096 ≤ p
  · have hcovers : ∀ flags, (MapCall.mapRegionVirtual key img.kernelEnd img.kernelEnd
        (img.kernelStack - img.kernelEnd) flags).Covers key p := fun flags => by
      refine (region_covers hlt (by omega)).mpr ⟨rfl,hdata,?_⟩
      unfold pageTurns
      omega
    have hset : ∀ flags, (MapCall.mapRegionVirtual key img.kernelEnd img.kernelEnd
        (img.kernelStack - img.kernelEnd) flags).sets p =
          some ⟨BitVec.ofNat 64 (4096 * p),flags ||| pteTypePage⟩ := fun flags =>
      identity_sets key hlt (by omega) hdata
    refine ⟨protNormalMem ||| apEl0NoElxRw ||| pteUxn ||| ptePxn ||| pteTypePage,hmap.trans ?_,?_⟩
    · cases key with
      | kernelL1 => exact (if_pos (hcovers _)).trans (hset _)
      | userL1 =>
        exact (if_neg fun h => absurd h.1 (by decide)).trans ((if_pos (hcovers _)).trans (hset _))
    · refine ⟨by decide,by decide,by decide,fun htext => ?_⟩
      have hend := htext.2
      omega
  · have hnot : ∀ flags, ¬ (MapCall.mapRegionVirtual key img.kernelEnd img.kernelEnd
        (img.kernelStack - img.kernelEnd) flags).Covers key p := fun flags h =>
      hdata ((region_covers hlt (by omega)).mp h).2.1
    have hcovers : ∀ flags, (MapCall.mapRegionVirtual key img.kernelStart img.kernelStart
        (img.kernelEnd - img.kernelStart) flags).Covers key p := fun flags => by
      refine (region_covers hlt (by omega)).mpr ⟨rfl,by omega,?_⟩
      unfold pageTurns
      omega
    have hset : ∀ flags, (MapCall.mapRegionVirtual key img.kernelStart img.kernelStart
        (img.kernelEnd - img.kernelStart) flags).sets p =
          some ⟨BitVec.ofNat 64 (4096 * p),flags ||| pteTypePage⟩ := fun flags =>
      identity_sets key hlt (by omega) (by omega)
    refine ⟨protNormalMem ||| apEl0NoElxRw ||| pteUxn ||| pteTypePage,hmap.trans ?_,?_⟩
    · cases key with
      | kernelL1 =>
        exact (if_neg (hnot _)).trans ((if_neg fun h => absurd h.1 (by decide)).trans
          ((if_pos (hcovers _)).trans (hset _)))
      | userL1 =>
        exact (if_neg fun h => absurd h.1 (by decide)).trans ((if_neg (hnot _)).trans
          ((if_neg fun h => absurd h.1 (by decide)).trans ((if_pos (hcovers _)).trans (hset _))))
    · exact ⟨by decide,by decide,by decide,fun _ => by decide⟩

end Identity

section Executes
variable {app} {s : Space} (e : El3Mmu) (k : KernelMmu) (regs : SchedCore → MmuRegs) (c : SchedCore)

theorem el1_wxn (h : (regs c).sctlrEl1.getLsbD 19 = false) :
    (img.el1 e k regs c).wxn = false := by
  have hmask : (sctlrM ||| sctlrC ||| sctlrI ||| sctlrSa ||| sctlrSa0).getLsbD 19 = false := by
    decide
  unfold BootImage.el1
  split
  · change ((regs c).sctlrEl1 ||| _).getLsbD 19 = false
    rw [BitVec.getLsbD_or,h,hmask,Bool.or_false]
  · change ((regs c).sctlrEl1 ||| _).getLsbD 19 = false
    rw [BitVec.getLsbD_or,h,hmask,Bool.or_false]

theorem SpaceInv.executes (h : SpaceInv app s) (hsmem : img.kernelStack.toNat ≤ smemBuffer.toNat)
    (hwxn : (img.el1 e k regs c).wxn = false) {key : KernelRoot}
    (hmap : ∀ va, viewRoot va = some key → img.Owned (pageNumber va) →
      (walk s.heap.mm.tables.mem (img.tables.root key) va).map pageOf =
        img.setupMap key (pageNumber va)) :
    Executes img (img.el1 e k regs c) s.heap.mm.tables.mem key where
  text va hkey htext := by
    obtain ⟨flags,hset,h10,h7,h6,h53⟩ := @setup_identity img app hsmem _ htext.owned key
    refine h.reaches e k regs c hkey ((hmap va hkey htext.owned).trans hset) h10 ?_
    rw [hwxn]
    simp only [allows,h6,h53 htext]
    rfl
  data va hkey hpage a ha := by
    obtain ⟨flags,hset,h10,h7,-,-⟩ := @setup_identity img app hsmem _ hpage key
    refine h.reaches e k regs c hkey ((hmap va hkey hpage).trans hset) h10 ?_
    cases a with
    | load => rfl
    | store => simp only [allows,Bool.not_false,Bool.true_or,Bool.true_and,h7]
    | fetch => exact absurd rfl ha

theorem SpaceInv.executes_high (h : SpaceInv app s)
    (hsmem : img.kernelStack.toNat ≤ smemBuffer.toNat) (hwxn : (img.el1 e k regs c).wxn = false) :
    Executes img (img.el1 e k regs c) s.heap.mm.tables.mem .kernelL1 := by
  have hafter := app.beforeHeap
  have hnumber := heapNumber_eq img.toKernelImage
  refine h.executes e k regs c hsmem hwxn fun va _ hpage => h.kernel va fun i hi => ?_
  have hhi := hpage.2
  omega

theorem SpaceInv.executes_low (h : SpaceInv app s)
    (hsmem : img.kernelStack.toNat ≤ smemBuffer.toNat) (hwxn : (img.el1 e k regs c).wxn = false)
    (hturns : s.turns = app.turns) :
    Executes img (img.el1 e k regs c) s.heap.mm.tables.mem .userL1 := by
  obtain ⟨done,hdone,huser⟩ := h.user
  rw [hturns] at hdone
  obtain rfl := List.self_eq_append_left.mp hdone
  rw [exec_nil] at huser
  exact h.executes e k regs c hsmem hwxn fun va _ _ => huser va

end Executes

/-- Where core 1 can be, and what the flags say, for each place of core 0. -/
structure StartOrder (s : Start) : Prop where
  lock : s.first.booted = true → s.mmuLock = 0
  alone : s.first.alone = true ↔ s.second = .parked
  on : s.on = s.second.reported
  order : s.first = .mainThread → s.on = true
  noLostEvent : s.first = .waitForEvent → s.second = .asleep → s.event = true

structure StartInv (s : Start) : Prop extends StartOrder s where
  setup : ∀ calls, s.first = .setup calls → ∃ done, img.setupCalls = done ++ calls ∧
    s.space = ⟨⟨⟨fun _ => 0,exec (mapCallAt img.tables 0) .bss done,[]⟩,[]⟩,app.turns⟩
  space : (∀ calls, s.first ≠ .setup calls) → SpaceInv app s.space
  turns : s.first ≠ .mainThread → s.space.turns = app.turns

section Step
variable {app} {s : Start}

theorem StartInv.safe (h : StartInv app s) (hsmem : img.kernelStack.toNat ≤ smemBuffer.toNat)
    {e : El3Mmu} {k : KernelMmu} {regs : SchedCore → MmuRegs}
    (hwxn : ∀ c, (img.el1 e k regs c).wxn = false) : StartSafe img (img.el1 e k regs) s := by
  have hpast : ∀ {calls}, s.first = .setup calls → s.second = .parked := fun hf =>
    h.alone.mp (by rw [hf]; rfl)
  have hspace : s.second ≠ .parked → SpaceInv app s.space := fun hne =>
    h.space fun calls hf => hne (hpast hf)
  refine ⟨fun hf => ?_,fun hf => ?_,fun hs => ?_,fun hs => ?_,fun hf => ?_,h.noLostEvent⟩
  · refine (h.space fun calls hc => ?_).executes_low e k regs 0 hsmem (hwxn 0)
      (h.turns fun hc => ?_)
    all_goals rcases hf with hf | hf <;> cases hf.symm.trans hc
  · refine (h.space fun calls hc => ?_).executes_high e k regs 0 hsmem (hwxn 0)
    rw [hc] at hf
    cases hf
  · have hon' : s.second ≠ .parked := by rw [hs]; decide
    refine (hspace hon').executes_low e k regs 1 hsmem (hwxn 1) (h.turns fun hf => ?_)
    have hon := h.on.symm.trans (h.order hf)
    rw [hs] at hon
    cases hon
  · refine (hspace fun hp => ?_).executes_high e k regs 1 hsmem (hwxn 1)
    rw [hp] at hs
    cases hs
  · exact h.on.symm.trans (h.order hf)

theorem startSecond_space (s : Start) : (startSecond s).space = s.space := by
  unfold startSecond
  split
  case h_2 => split <;> rfl
  all_goals rfl

theorem startStep_ranOut {e : StartStep}
    (hr : (startStep img s e).space.heap.mm.tables.ranOut = false) :
    s.space.heap.mm.tables.ranOut = false := by
  cases e with
  | first =>
    cases hf : s.first with
    | setup calls =>
      cases calls with
      | nil =>
        simp only [startStep,startFirst,hf] at hr
        exact hr
      | cons c cs =>
        simp only [startStep,startFirst,hf] at hr
        exact mapCallAt_ranOut hr
    | mainThread =>
      simp only [startStep,startFirst,hf] at hr
      exact spaceStep_ranOut hr
    | waitForEvent =>
      simp only [startStep,startFirst,hf] at hr
      split at hr <;> exact hr
    | unlock | entry | test =>
      simp only [startStep,startFirst,hf] at hr
      exact hr
  | second =>
    exact startSecond_space s ▸ hr
  | mm c => exact spaceStep_ranOut hr
  | event => exact hr

theorem setup_done (calls : List (MapCall KernelRoot)) (h : calls = img.setupCalls) :
    (⟨⟨⟨fun _ => 0,exec (mapCallAt img.tables 0) .bss calls,[]⟩,[]⟩,app.turns⟩ : Space) =
      .boot app := by
  rw [Space.boot,Mm.boot,kernelSetupTables_eq,BootImage.kernelRun,exec_nil,h]

theorem StartOrder.alone_step (h : StartOrder s) (hs : s.first.alone = true) {t : Start}
    (ht : t.first.alone = true) (hlock : t.first.booted = true → t.mmuLock = 0)
    (hsecond : t.second = s.second) (hon : t.on = s.on) : StartOrder t := by
  refine ⟨hlock,iff_of_true ht (hsecond.trans (h.alone.mp hs)),?_,fun hf => ?_,fun hf => ?_⟩
  · rw [hon,hsecond,h.on]
  · rw [hf] at ht
    cases ht
  · rw [hf] at ht
    cases ht

theorem StartOrder.started_step {t : Start} (ht : t.first.alone = false) (hlock : t.mmuLock = 0)
    (hsecond : t.second ≠ .parked) (hon : t.on = t.second.reported)
    (horder : t.first = .mainThread → t.on = true)
    (hevent : t.first = .waitForEvent → t.second = .asleep → t.event = true) : StartOrder t := by
  refine ⟨fun _ => hlock,iff_of_false (fun hb => ?_) hsecond,hon,horder,hevent⟩
  rw [ht] at hb
  cases hb

theorem StartOrder.first_step (h : StartOrder s) : StartOrder (startFirst img s) := by
  have halone : ∀ {f}, s.first = f → f.alone = true → s.first.alone = true := fun hf hb => hf ▸ hb
  have hstarted : ∀ {f}, s.first = f → f.alone = false → s.second ≠ .parked := by
    intro f hf hb hp
    have hs := h.alone.mpr hp
    rw [hf,hb] at hs
    cases hs
  have hlock : ∀ {f}, s.first = f → f.booted = true → s.mmuLock = 0 := fun hf hb =>
    h.lock (hf ▸ hb)
  unfold startFirst
  split <;> rename_i hf
  · exact h.alone_step (halone hf rfl) rfl (fun hb => by cases hb) rfl rfl
  · exact h.alone_step (halone hf rfl) rfl (fun hb => by cases hb) rfl rfl
  · exact h.alone_step (halone hf rfl) rfl (fun _ => rfl) rfl rfl
  · -- PSCI_CPU_ON
    have hp := h.alone.mp (halone hf rfl)
    have hoff : s.on = false := h.on.trans (congrArg SecondAt.reported hp)
    rw [if_pos hp]
    exact .started_step rfl (hlock hf rfl) (fun hc => by cases hc) hoff (fun hc => by cases hc)
      (fun hc => by cases hc)
  · have hs := hstarted hf rfl
    by_cases hon : s.on = true
    · rw [if_pos hon]
      exact .started_step rfl (hlock hf rfl) hs h.on (fun _ => hon) (fun hc => by cases hc)
    · rw [if_neg hon]
      refine .started_step rfl (hlock hf rfl) hs h.on (fun hc => by cases hc) fun _ hasleep => ?_
      -- core 1 sets k_cpus[1] before it sends its event
      exact absurd (h.on.trans (congrArg SecondAt.reported hasleep)) hon
  · split
    · exact .started_step rfl (hlock hf rfl) (hstarted hf rfl) h.on (fun hc => by cases hc)
        (fun hc => by cases hc)
    · exact h
  · exact ⟨h.lock,h.alone,h.on,h.order,h.noLostEvent⟩

theorem StartOrder.second_moves (h : StartOrder s) (hs : s.second ≠ .parked) (f : SecondAt)
    {t : Start} (hf : t.second = f) (hne : f ≠ .parked) (hon : t.on = f.reported)
    (hfirst : t.first = s.first) (hlock : t.mmuLock = s.mmuLock)
    (hmono : s.on = true → t.on = true) (hevent : f = .asleep → t.event = true) :
    StartOrder t := by
  refine ⟨?_,?_,hf ▸ hon,?_,fun _ => hf ▸ hevent⟩
  · rw [hfirst,hlock]
    exact h.lock
  · rw [hfirst,hf]
    exact iff_of_false (fun hb => hs (h.alone.mp hb)) hne
  · rw [hfirst]
    exact fun hm => hmono (h.order hm)

theorem StartOrder.second_step (h : StartOrder s) : StartOrder (startSecond s) := by
  have hon : ∀ f, s.second = f → s.on = f.reported := fun f hs => hs ▸ h.on
  have hne : ∀ f, s.second = f → f ≠ .parked → s.second ≠ .parked := fun f hs hf => hs ▸ hf
  unfold startSecond
  split <;> rename_i hs
  · exact h
  · split
    · exact h.second_moves (hne _ hs (by decide)) .low rfl (by decide) (hon .lock hs) rfl rfl id
        (fun hc => by cases hc)
    · exact h
  · exact h.second_moves (hne _ hs (by decide)) .high rfl (by decide) (hon .low hs) rfl rfl id
      (fun hc => by cases hc)
  · exact h.second_moves (hne _ hs (by decide)) .dmb rfl (by decide) rfl rfl rfl (fun _ => rfl)
      (fun hc => by cases hc)
  · exact h.second_moves (hne _ hs (by decide)) .sev rfl (by decide) (hon .dmb hs) rfl rfl id
      (fun hc => by cases hc)
  · exact h.second_moves (hne _ hs (by decide)) .asleep rfl (by decide) (hon .sev hs) rfl rfl id
      fun _ => rfl
  · exact h

theorem startSecond_first (s : Start) : (startSecond s).first = s.first := by
  unfold startSecond
  split
  case h_2 => split <;> rfl
  all_goals rfl

theorem StartInv.second_step (h : StartInv app s) : StartInv app (startSecond s) := by
  refine ⟨h.toStartOrder.second_step,?_,?_,?_⟩
  · rw [startSecond_first,startSecond_space]
    exact h.setup
  · rw [startSecond_first,startSecond_space]
    exact h.space
  · rw [startSecond_first,startSecond_space]
    exact h.turns

theorem StartInv.setup_step (h : StartInv app s) {calls : List (MapCall KernelRoot)}
    (hf : s.first = .setup calls)
    (hr : (startFirst img s).space.heap.mm.tables.ranOut = false) :
    StartInv app (startFirst img s) := by
  have horder : StartOrder (startFirst img s) := h.toStartOrder.first_step
  obtain ⟨done,hdone,hspace⟩ := h.setup calls hf
  cases calls with
  | nil =>
    rw [List.append_nil] at hdone
    have hboot := hspace.trans (@setup_done img app done hdone.symm)
    simp only [startFirst,hf] at hr horder ⊢
    refine ⟨horder,fun calls hc => (by cases hc),fun _ => ?_,fun _ => (by rw [hboot]; rfl)⟩
    rw [hboot] at hr ⊢
    exact boot_inv app hr
  | cons c cs =>
    simp only [startFirst,hf] at horder ⊢
    refine ⟨horder,fun calls hc => ?_,fun hno => absurd rfl (hno cs),fun _ => ?_⟩
    · obtain rfl := FirstAt.setup.inj hc
      refine ⟨done ++ [c],?_,?_⟩
      · rw [hdone,List.append_assoc]
        rfl
      · simp only [Start.setTables,hspace,exec_snoc]
    · simp only [Start.setTables,hspace]

theorem StartInv.quiet (h : StartInv app s) (hpast : ∀ calls, s.first ≠ .setup calls) {s' : Start}
    (horder : StartOrder s') (hspace : s'.space = s.space)
    (hpast' : ∀ calls, s'.first ≠ .setup calls)
    (hmain : s.first = .mainThread → s'.first = .mainThread) : StartInv app s' := by
  refine ⟨horder,fun calls hc => absurd hc (hpast' calls),fun _ => ?_,fun hne => ?_⟩
  · rw [hspace]
    exact h.space hpast
  · rw [hspace]
    exact h.turns fun hm => hne (hmain hm)

theorem startFirst_quiet (hpast : ∀ calls, s.first ≠ .setup calls) (hmain : s.first ≠ .mainThread) :
    (startFirst img s).space = s.space ∧ ∀ calls, (startFirst img s).first ≠ .setup calls := by
  cases hf : s.first with
  | setup calls => exact absurd hf (hpast calls)
  | mainThread => exact absurd hf hmain
  | unlock | entry =>
    simp only [startFirst,hf]
    exact ⟨trivial,fun calls hc => by cases hc⟩
  | test =>
    simp only [startFirst,hf]
    refine ⟨trivial,fun calls hc => ?_⟩
    split at hc <;> cases hc
  | waitForEvent =>
    simp only [startFirst,hf]
    split
    · exact ⟨rfl,fun calls hc => by cases hc⟩
    · exact ⟨rfl,hpast⟩

theorem StartInv.first_step (h : StartInv app s)
    (hr : (startFirst img s).space.heap.mm.tables.ranOut = false) :
    StartInv app (startFirst img s) := by
  have horder : StartOrder (startFirst img s) := h.toStartOrder.first_step
  by_cases hpast : ∀ calls, s.first ≠ .setup calls
  · by_cases hmain : s.first = .mainThread
    · simp only [startFirst,hmain] at hr horder ⊢
      exact ⟨horder,fun calls hc => (by cases hc),fun _ => (h.space hpast).mainThread hr,
        fun hne => absurd rfl hne⟩
    · obtain ⟨hspace,hpast'⟩ := @startFirst_quiet img s hpast hmain
      exact h.quiet hpast horder hspace hpast' fun hm => absurd hm hmain
  · simp only [not_forall,not_not] at hpast
    obtain ⟨calls,hf⟩ := hpast
    exact h.setup_step hf hr

theorem StartInv.step (h : StartInv app s) {e : StartStep} (hl : StartLegal s e)
    (hr : (startStep img s e).space.heap.mm.tables.ranOut = false) :
    StartInv app (startStep img s e) := by
  cases e with
  | first => exact h.first_step hr
  | second => exact h.second_step
  | mm c =>
    obtain ⟨hb,hc⟩ := hl
    have hpast : ∀ calls, s.first ≠ .setup calls := fun calls hf => by
      rw [hf] at hb
      cases hb
    exact ⟨⟨h.lock,h.alone,h.on,h.order,h.noLostEvent⟩,fun calls hf => absurd hf (hpast calls),
      fun _ => (h.space hpast).mm hc hr,h.turns⟩
  | event =>
    exact ⟨⟨h.lock,h.alone,h.on,h.order,fun _ _ => rfl⟩,h.setup,h.space,h.turns⟩

theorem boot_startInv : StartInv app (.boot app) where
  lock hb := by cases hb
  alone := iff_of_true rfl rfl
  on := rfl
  order hf := by cases hf
  noLostEvent hf := by cases hf
  setup calls hf := by
    obtain rfl := FirstAt.setup.inj hf
    exact ⟨[],rfl,rfl⟩
  space hno := absurd rfl (hno img.setupCalls)
  turns _ := rfl

theorem start_reached {es : List StartStep}
    (hl : Along (startStep img) StartLegal (.boot app) es)
    (hr : (exec (startStep img) (.boot app) es).space.heap.mm.tables.ranOut = false) :
    StartInv app (exec (startStep img) (.boot app) es) :=
  exec_invariant (I := fun s => s.space.heap.mm.tables.ranOut = false → StartInv app s)
    (fun _ _ hi hl hr => (hi (startStep_ranOut hr)).step hl hr) (fun _ => boot_startInv) hl hr

theorem StartOrder.step (h : StartOrder s) (e : StartStep) : StartOrder (startStep img s e) := by
  cases e with
  | first => exact h.first_step
  | second => exact h.second_step
  | mm c => exact ⟨h.lock,h.alone,h.on,h.order,h.noLostEvent⟩
  | event => exact ⟨h.lock,h.alone,h.on,h.order,fun _ _ => rfl⟩

end Step

/-- Steps of core 0 until core 1 is on. -/
def FirstAt.left : FirstAt → Nat
  | .setup calls => calls.length + 3
  | .unlock => 2
  | .entry => 1
  | .test | .waitForEvent | .mainThread => 0

def SecondAt.left : SecondAt → Nat
  | .parked => 6
  | .lock => 5
  | .low => 4
  | .high => 3
  | .dmb => 2
  | .sev => 1
  | .asleep => 0

def FirstAt.waits : FirstAt → Nat
  | .waitForEvent => 2
  | .test => 1
  | .setup _ | .unlock | .entry | .mainThread => 0

section Progress
variable {s : Start}

end Progress

/-- However the cores take their steps, each executes the kernel where it is: core 1 has the
identity mapping as long as it needs it, and no event is lost. -/
theorem second_core_starts (img : BootImage) (app : AppImage img)
    (hsmem : img.kernelStack.toNat ≤ smemBuffer.toNat) (es : List StartStep)
    (hl : Along (startStep img) StartLegal (.boot app) es)
    (hr : (exec (startStep img) (.boot app) es).space.heap.mm.tables.ranOut = false)
    (e : El3Mmu) (k : KernelMmu) (regs : SchedCore → MmuRegs)
    (hwxn : ∀ c, (regs c).sctlrEl1.getLsbD 19 = false) :
    StartSafe img (img.el1 e k regs) (exec (startStep img) (.boot app) es) :=
  (start_reached hl hr).safe hsmem fun c => el1_wxn e k regs c (hwxn c)

/-- Core 1 has just turned its MMU on. -/
theorem second_core_starts_low :
    StartSafe testBootImage (testBootImage.el1 ⟨Tables.bss,0⟩ ⟨Tables.bss,1⟩ fun _ => zeroRegs)
      (exec (startStep testBootImage) (.boot testAppImage)
        (List.replicate 12 .first ++ [.second])) := by
  have htables : (exec (startStep testBootImage) (.boot testAppImage)
      (List.replicate 12 .first ++ [.second])).space.heap.mm.tables =
        testBootImage.kernelRun testBootImage.setupCalls [] := by
    simp only [List.replicate,List.cons_append,List.nil_append,exec_cons,exec_nil,startStep,
      startFirst,startSecond,Start.boot,Start.setTables,BootImage.setupCalls,BootImage.kernelRun,
      if_true]
  refine second_core_starts testBootImage testAppImage (by decide) _ (by decide) ?_ _ _ _
    (by decide)
  rw [htables]
  exact kernelRun_ranOut testBootImage (by decide +kernel) (by decide +kernel)

end Arm64

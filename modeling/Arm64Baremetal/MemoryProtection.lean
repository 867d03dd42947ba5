import Arm64Baremetal.AddressSpace

/-!
What EL0 can reach and what EL1 can execute, from kernel_setup_mmu on: kernel_main_thread turns
user_l1 over to the application, while tasks take their stacks from the heap and give them back.
-/

set_option autoImplicit false

namespace Arm64
open Runs Stage1

/-- The heap with the tables, and what kernel_main_thread has still to do with user_l1. -/
structure Space where
  heap : Heap
  turns : List (MapCall KernelRoot)

/-- A call of the allocator, or the next page in a loop of kernel_main_thread. -/
inductive SpaceEvent where
  | mm (c : MmCall)
  | mainThread
  deriving DecidableEq

def spaceStep (img : BootImage) (s : Space) : SpaceEvent → Space
  | .mm c => { s with heap := mmCall img.toKernelImage s.heap c }
  | .mainThread =>
    match s.turns with
    | [] => s
    | c :: cs =>
      let mm := { s.heap.mm with tables := mapCall img.tables s.heap.mm.tables c }
      { heap := { s.heap with mm := mm }, turns := cs }

def SpaceLegal (s : Space) : SpaceEvent → Prop
  | .mm c => MmLegal s.heap c
  | .mainThread => True

instance (s : Space) : (e : SpaceEvent) → Decidable (SpaceLegal s e)
  | .mm c => inferInstanceAs (Decidable (MmLegal s.heap c))
  | .mainThread => inferInstanceAs (Decidable True)

def Mm.boot (img : BootImage) : Mm where
  pages _ := 0
  tables := img.kernelSetupTables Tables.bss
  io := []

def Space.boot {img : BootImage} (app : AppImage img) : Space where
  heap := ⟨.boot img,[]⟩
  turns := app.turns

variable {img : BootImage} (app : AppImage img)

/-- The kernel's half is as kernel_setup_mmu left it, but for the heap; user_l1 is what the calls
of kernel_main_thread have made of it so far. -/
structure SpaceInv (s : Space) : Prop where
  heap : ∃ runs, HeapInv img.toKernelImage s.heap.mm s.heap runs
  kernel : ∀ va, (∀ i, i < maxPages → pageNumber va ≠ img.heapNumber + i) →
    (img.kernelWalk s.heap.mm va).map pageOf = img.setupMap .kernelL1 (pageNumber va)
  user : ∃ done, app.turns = done ++ s.turns ∧ ∀ va, (img.userWalk s.heap.mm va).map pageOf =
    exec MapCall.onMap img.setupMap done .userL1 (pageNumber va)

/-- What the cores can do in their common regime while `s.turns` are still to come. -/
structure Confined (r : Regime) (s : Space) : Prop where
  el0 : ∀ a va pa, r.access s.heap.mm.tables.mem true a va = some pa →
    app.Page (pa.toNat / 4096) ∨ a ≠ .fetch ∧ pa >>> 12 = uartBase >>> 12
  el1 : ∀ va pa, r.access s.heap.mm.tables.mem false .fetch va = some pa →
    img.Page (pa.toNat / 4096) ∧
      (va.toNat < 2 ^ 32 → ∃ c ∈ s.turns, c.Covers .userL1 (pageNumber va))
  apart : ∀ va va' pa pa', r.access s.heap.mm.tables.mem true .store va = some pa →
    r.access s.heap.mm.tables.mem false .fetch va' = some pa' → pa >>> 12 ≠ pa' >>> 12
  kernel : ∀ va, kernelVirtBase.toNat ≤ va.toNat → img.Page (pageNumber va) → ∀ a, a ≠ .fetch →
    ∃ pa, r.access s.heap.mm.tables.mem false a va = some pa ∧ pa.toNat / 4096 = pageNumber va
  application : s.turns = [] → ∀ va, va.toNat < 2 ^ 32 → app.Page (pageNumber va) →
    ∀ a, a ≠ .fetch → ∃ pa, r.access s.heap.mm.tables.mem true a va = some pa ∧
      pa.toNat / 4096 = pageNumber va

section Boot

theorem boot_maps (hr : (Mm.boot img).tables.ranOut = false) :
    Maps img.tables (Mm.boot img).tables img.setupMap := by
  simp only [Mm.boot,kernelSetupTables_eq] at hr ⊢
  have hl : ∀ c ∈ img.setupCalls ++ [], c.Legal := fun c hc =>
    (setupCalls_ok img c (by rwa [List.append_nil] at hc)).1
  have hmaps := kernelRun_maps img hl hr
  rwa [List.append_nil] at hmaps

include app in
theorem setup_heap {p : Nat} (hp : p < 2 ^ 20) (hheap : img.kernelStack.toNat ≤ 4096 * p) :
    img.setupMap .kernelL1 p = none := by
  have h3 := img.endAfterStart
  have h4 := img.stackAfterEnd
  have h5 := img.stackLow
  have hsize : (img.kernelEnd - img.kernelStart).toNat =
      img.kernelEnd.toNat - img.kernelStart.toNat := BitVec.toNat_sub_of_le h3
  have hrest : (img.kernelStack - img.kernelEnd).toNat =
      img.kernelStack.toNat - img.kernelEnd.toNat := BitVec.toNat_sub_of_le h4
  refine onMap_of_not fun c hc hcovers => ?_
  rw [← List.take_append_drop 4 img.setupCalls] at hc
  rcases List.mem_append.mp hc with hc | hc
  · simp only [BootImage.setupCalls,List.take_succ_cons,List.take_zero,List.mem_cons,
      List.not_mem_nil,or_false] at hc
    obtain rfl | rfl | rfl | rfl := hc
    all_goals
      obtain ⟨_,hlo,hhi⟩ := (region_covers hp (by omega)).mp hcovers
      unfold pageTurns at hhi
      omega
  · exact setup_devices app hp (by omega) c hc hcovers

include app in
theorem boot_heapStart (hr : (Mm.boot img).tables.ranOut = false) :
    HeapStart img.toKernelImage (Mm.boot img) where
  pages _ _ := rfl
  tables := (boot_maps hr).ok
  unmapped i hi := by
    have hafter := app.beforeHeap
    have hpage := img.heapPage
    have hnumber := heapNumber_eq img.toKernelImage
    have hle := heapNumber_le img.toKernelImage
    have hwalk := (boot_maps hr).walks .kernelL1 (img.heapVa i)
    rw [pageNumber_heapVa img.toKernelImage hi,setup_heap app (by omega) (by omega)] at hwalk
    exact Option.map_eq_none_iff.mp hwalk

theorem boot_inv (hr : (Mm.boot img).tables.ranOut = false) : SpaceInv app (.boot app) where
  heap := ⟨[],(boot_heapStart app hr).inv⟩
  kernel va _ := (boot_maps hr).walks .kernelL1 va
  user := ⟨[],rfl,fun va => by
    rw [exec_nil]
    exact (boot_maps hr).walks .userL1 va⟩

end Boot

section Step
variable {app} {s : Space}

theorem TablesOk.maps {A : TableArea KernelRoot} {m : Tables} (h : TablesOk A m) :
    Maps A m fun r p => (walk m.mem (A.root r) (BitVec.ofNat 64 (4096 * p))).map pageOf where
  ok := h
  walks r va := by
    have hlt := pageNumber_lt va
    refine congrArg _ (walk_congr h r ?_)
    rw [eq_comm,pageNumber,BitVec.toNat_ofNat]
    omega

theorem TablesOk.mapCall {A : TableArea KernelRoot} {m : Tables} (h : TablesOk A m)
    {c : MapCall KernelRoot} (hl : c.Legal) (hr : (mapCall A m c).ranOut = false) :
    TablesOk A (Arm64.mapCall A m c) ∧ ∀ r va, (walk (Arm64.mapCall A m c).mem (A.root r) va).map
      pageOf = if c.Covers r (pageNumber va) then c.sets (pageNumber va) else
        (walk m.mem (A.root r) va).map pageOf := by
  have hmaps := h.maps.mapCall hl hr
  refine ⟨hmaps.ok,fun r va => (hmaps.walks r va).trans ?_⟩
  rw [MapCall.onMap,h.maps.walks r va]

theorem SpaceInv.mm (h : SpaceInv app s) {c : MmCall} (hl : MmLegal s.heap c)
    (hr : (mmCall img.toKernelImage s.heap c).mm.tables.ranOut = false) :
    SpaceInv app (spaceStep img s (.mm c)) := by
  obtain ⟨runs,hstep⟩ := mmCall_inv h.heap hl hr
  obtain ⟨done,hdone,huser⟩ := h.user
  refine ⟨⟨runs,{ hstep with outside := fun _ _ => rfl, user := fun _ => rfl }⟩,fun va hout => ?_,
    done,hdone,fun va => ?_⟩
  · rw [← h.kernel va hout]
    exact congrArg _ (hstep.outside va hout)
  · rw [← huser va]
    exact congrArg _ (hstep.user va)

theorem SpaceInv.mainThread (h : SpaceInv app s)
    (hr : (spaceStep img s .mainThread).heap.mm.tables.ranOut = false) :
    SpaceInv app (spaceStep img s .mainThread) := by
  obtain ⟨heap,turns⟩ := s
  cases turns with
  | nil => exact h
  | cons c cs =>
    obtain ⟨runs,hheap⟩ := h.heap
    obtain ⟨done,hdone,huser⟩ := h.user
    have hc : c ∈ app.turns := hdone ▸ List.mem_append_right done List.mem_cons_self
    obtain ⟨hok,hwalk⟩ := hheap.tables.mapCall (app.turns_legal c hc) hr
    have hkernel : ∀ va, img.kernelWalk (spaceStep img ⟨heap,c :: cs⟩ .mainThread).heap.mm va =
        img.kernelWalk heap.mm va := by
      intro va
      refine Option.map_injective (fun _ _ => pageOf_inj) ((hwalk .kernelL1 va).trans (if_neg ?_))
      exact fun hcovers => nomatch (app.turn_sets hc (pageNumber_lt va) hcovers).1
    refine ⟨⟨runs,?_⟩,fun va hout => ?_,done ++ [c],?_,fun va => ?_⟩
    · refine ⟨hheap.live,hheap.allocated,hheap.bytes,hok,fun va i hi hva => ?_,fun _ _ => rfl,
        fun _ => rfl⟩
      rw [hkernel]
      exact hheap.mapped va i hi hva
    · rw [hkernel]
      exact h.kernel va hout
    · rw [hdone,List.append_assoc]
      rfl
    · rw [exec_snoc,MapCall.onMap,← huser va]
      exact hwalk .userL1 va

theorem SpaceInv.step (h : SpaceInv app s) {e : SpaceEvent} (hl : SpaceLegal s e)
    (hr : (spaceStep img s e).heap.mm.tables.ranOut = false) :
    SpaceInv app (spaceStep img s e) := by
  cases e with
  | mm c => exact h.mm hl hr
  | mainThread => exact h.mainThread hr

theorem spaceStep_ranOut {e : SpaceEvent}
    (hr : (spaceStep img s e).heap.mm.tables.ranOut = false) : s.heap.mm.tables.ranOut = false := by
  obtain ⟨heap,turns⟩ := s
  cases e with
  | mm c => exact mmCall_ranOut hr
  | mainThread =>
    cases turns with
    | nil => exact hr
    | cons c cs =>
      refine @mapCallAt_ranOut _ img.tables _ kernelVirtBase c ?_
      rw [mapCallAt_virtual]
      exact hr

end Step

section Rights
variable {app} {s : Space}

theorem heapDesc_closed (img : KernelImage) {i : Nat} (hi : i < maxPages) :
    (img.heapDesc i).getLsbD 6 = false ∧ (img.heapDesc i).getLsbD 53 = true ∧
      (img.heapDesc i).getLsbD 54 = true := by
  obtain ⟨-,hel0,hpxn,huxn,-⟩ := heapDesc_spec img hi
  have h6 := congrArg (·.getLsbD 6) hel0
  have h53 := congrArg (·.getLsbD 53) hpxn
  have h54 := congrArg (·.getLsbD 54) huxn
  have hbit6 : (1 <<< 6 : Word).getLsbD 6 = true := by decide
  have hbit53 : ptePxn.getLsbD 53 = true := by decide
  have hbit54 : pteUxn.getLsbD 54 = true := by decide
  simp only [BitVec.getLsbD_and,hbit6,hbit53,hbit54,Bool.and_true] at h6 h53 h54
  exact ⟨h6,h53,h54⟩

theorem AppImage.done_sets {done : List (MapCall KernelRoot)} (hdone : ∀ c ∈ done, c ∈ app.turns)
    {p : Nat} (hp : p < 2 ^ 20) {q : Mapping}
    (h : exec MapCall.onMap img.setupMap done .userL1 p = some q) :
    (app.Page p ∧ q = ⟨BitVec.ofNat 64 (4096 * p),appFlags ||| pteTypePage⟩) ∨
      img.setupMap .userL1 p = some q ∧ ∀ c ∈ done, ¬ c.Covers .userL1 p := by
  induction done using List.reverseRecOn with
  | nil =>
    rw [exec_nil] at h
    exact .inr ⟨h,fun _ hc => absurd hc List.not_mem_nil⟩
  | append_singleton done c ih =>
    rw [exec_snoc] at h
    by_cases hcovers : c.Covers .userL1 p
    · have hset : c.sets p = some q := (if_pos hcovers).symm.trans h
      obtain ⟨-,hnone | ⟨hpage,happ⟩⟩ := app.turn_sets (hdone c (by simp)) hp hcovers
      · cases hset.symm.trans hnone
      · exact .inl ⟨hpage,Option.some.inj (hset.symm.trans happ)⟩
    · have hbefore : exec MapCall.onMap img.setupMap done .userL1 p = some q :=
        (if_neg hcovers).symm.trans h
      refine (ih (fun c' hc' => hdone c' (List.mem_append_left _ hc')) hbefore).imp_right ?_
      rintro ⟨hset,hnot⟩
      refine ⟨hset,fun c' hc' => ?_⟩
      rcases List.mem_append.mp hc' with hc' | hc'
      · exact hnot c' hc'
      · rwa [List.mem_singleton.mp hc']

/-- A descriptor is that of a heap page, or from kernel_setup_mmu and not unmapped yet, or that of
a page of the application. -/
theorem SpaceInv.origin (h : SpaceInv app s) {key : KernelRoot} {va d : Word}
    (hd : walk s.heap.mm.tables.mem (img.tables.root key) va = some d) :
    (d.getLsbD 6 = false ∧ d.getLsbD 53 = true ∧ d.getLsbD 54 = true) ∨
    (img.setupMap key (pageNumber va) = some (pageOf d) ∧ (key = .userL1 →
      ∀ c ∈ app.turns, c.Covers .userL1 (pageNumber va) → c ∈ s.turns)) ∨
    (app.Page (pageNumber va) ∧ pageOf d =
      ⟨BitVec.ofNat 64 (4096 * pageNumber va),appFlags ||| pteTypePage⟩) := by
  cases key with
  | kernelL1 =>
    by_cases hheap : ∀ i, i < maxPages → pageNumber va ≠ img.heapNumber + i
    · have hmap := h.kernel va hheap
      rw [KernelImage.kernelWalk,hd,Option.map_some] at hmap
      exact .inr (.inl ⟨hmap.symm,fun hkey => absurd hkey (by decide)⟩)
    · simp only [not_forall,not_not] at hheap
      obtain ⟨i,hi,hva⟩ := hheap
      obtain ⟨runs,hinv⟩ := h.heap
      have hmapped := hinv.mapped va i hi hva
      rw [KernelImage.kernelWalk,hd] at hmapped
      obtain ⟨-,hdesc⟩ := Option.ite_none_right_eq_some.mp hmapped.symm
      rw [← Option.some.inj hdesc]
      exact .inl (heapDesc_closed img.toKernelImage hi)
  | userL1 =>
    obtain ⟨done,hdone,huser⟩ := h.user
    have hmap := huser va
    rw [KernelImage.userWalk,hd,Option.map_some] at hmap
    have hmem : ∀ c ∈ done, c ∈ app.turns := fun c hc => hdone ▸ List.mem_append_left _ hc
    rcases app.done_sets hmem (pageNumber_lt va) hmap.symm with happ | ⟨hset,hnot⟩
    · exact .inr (.inr happ)
    · refine .inr (.inl ⟨hset,fun _ c hc hcovers => ?_⟩)
      rw [hdone] at hc
      exact (List.mem_append.mp hc).resolve_left fun hc => hnot c hc hcovers

theorem allows_el0 {wxn : Bool} {d : Word} {a : Access} (h : allows wxn true d a = true) :
    (a ≠ .fetch → d.getLsbD 6 = true) ∧ (a = .fetch → d.getLsbD 54 = false) := by
  cases a with
  | load | store => simp_all [allows]
  | fetch => simp_all [allows]

theorem allows_el1_fetch {wxn : Bool} {d : Word} (h : allows wxn false d .fetch = true) :
    d.getLsbD 53 = false := by
  simp only [allows,Bool.false_eq_true,if_false,Bool.and_eq_true,Bool.not_eq_true'] at h
  exact h.1.1

end Rights

section Confined
variable {app} {s : Space} (e : El3Mmu) (k : KernelMmu) (regs : SchedCore → MmuRegs) (c : SchedCore)

theorem SpaceInv.access (h : SpaceInv app s) {el0 : Bool} {a : Access} {va pa : Word}
    (ha : (img.el1 e k regs c).access s.heap.mm.tables.mem el0 a va = some pa) :
    ∃ key d, viewRoot va = some key ∧
      walk s.heap.mm.tables.mem (img.tables.root key) va = some d ∧
      allows (img.el1 e k regs c).wxn el0 d a = true ∧
      pa.toNat / 4096 = (pageOf d).frame.toNat / 4096 := by
  obtain ⟨runs,hinv⟩ := h.heap
  rw [el1_access img e k regs c hinv.tables] at ha
  obtain ⟨key,hkey,ha⟩ := Option.bind_eq_some_iff.mp ha
  obtain ⟨d,hd,rfl⟩ := Option.map_eq_some_iff.mp ha
  obtain ⟨hwalk,hallows⟩ := Option.filter_eq_some_iff.mp hd
  refine ⟨key,d,hkey,hwalk,(Bool.and_eq_true_iff.mp hallows).2,?_⟩
  rw [← page_toNat,← page_toNat,frame_page]

theorem page_frame {p : Nat} (hp : p < 2 ^ 20) : (BitVec.ofNat 64 (4096 * p)).toNat / 4096 = p := by
  rw [BitVec.toNat_ofNat]
  omega

theorem SpaceInv.el0 (h : SpaceInv app s) {a : Access} {va pa : Word}
    (ha : (img.el1 e k regs c).access s.heap.mm.tables.mem true a va = some pa) :
    app.Page (pa.toNat / 4096) ∨ a ≠ .fetch ∧ pa >>> 12 = uartBase >>> 12 := by
  obtain ⟨key,d,-,hwalk,hallows,hpa⟩ := h.access e k regs c ha
  obtain ⟨hopen,hfetch⟩ := allows_el0 hallows
  rcases h.origin hwalk with ⟨h6,-,h54⟩ | ⟨hset,-⟩ | ⟨hpage,hdesc⟩
  · by_cases hf : a = .fetch
    · exact absurd (h54.symm.trans (hfetch hf)) (by decide)
    · exact absurd (h6.symm.trans (hopen hf)) (by decide)
  · obtain ⟨huart,h54,-⟩ := setup_rights app (pageNumber_lt va) hset
    rw [pageOf_bit d (by decide)] at huart h54
    by_cases hf : a = .fetch
    · exact absurd (h54.symm.trans (hfetch hf)) (by decide)
    · refine .inr ⟨hf,BitVec.eq_of_toNat_eq ?_⟩
      rw [page_toNat,page_toNat,hpa,huart (hopen hf)]
  · rw [hpa,hdesc,page_frame (pageNumber_lt va)]
    exact .inl hpage

theorem AppImage.turn_unmaps {p : Nat} (hpage : img.Page p) :
    ∃ c ∈ app.turns, c.Covers .userL1 p := by
  have h2 := app.kernelPage
  have h3 := img.endAfterStart
  have h4 := img.stackAfterEnd
  have h5 := img.stackLow
  have hbase : kernelVirtBase.toNat = 0xFFFFFFFF00000000 := rfl
  have hsize : (kernelVirtBase + img.kernelStack - (kernelVirtBase + img.kernelStart)).toNat =
      img.kernelStack.toNat - img.kernelStart.toNat := by
    rw [BitVec.toNat_sub,BitVec.toNat_add,BitVec.toNat_add,hbase]
    omega
  have hnumber : pageNumber (kernelVirtBase + img.kernelStart) = img.kernelStart.toNat / 4096 := by
    rw [pageNumber,BitVec.toNat_add,hbase]
    omega
  obtain ⟨hlo,hhi⟩ := hpage
  have hp : p < 2 ^ 20 := by omega
  let c : MapCall KernelRoot := .unmapRegionVirtual .userL1 (kernelVirtBase + img.kernelStart)
    (kernelVirtBase + img.kernelStack - (kernelVirtBase + img.kernelStart))
  have hc : c ∈ app.mapCalls := List.mem_cons_self
  have hcovers : c.Covers .userL1 p := by
    refine ⟨rfl,?_⟩
    rw [pageOffset_of_le hp (by omega),hnumber,pageTurns,hsize]
    omega
  obtain ⟨t,ht,htcovers⟩ := (turns_iff (app.mapCalls_legal c hc) hp).1.mp hcovers
  exact ⟨t,List.mem_flatMap.mpr ⟨c,hc,ht⟩,htcovers⟩

theorem AppImage.turns_map {p : Nat} (hp : p < 2 ^ 20) (hpage : app.Page p) :
    exec MapCall.onMap img.setupMap app.turns .userL1 p =
      some ⟨BitVec.ofNat 64 (4096 * p),appFlags ||| pteTypePage⟩ := by
  have h1 := app.stackAfterEntry
  have h2 := app.beforeKernel
  have h3 := img.endAfterStart
  have h4 := img.stackAfterEnd
  have h5 := img.stackLow
  have hsize : (app.appStack - app.appEntry).toNat = app.appStack.toNat - app.appEntry.toNat :=
    BitVec.toNat_sub_of_le h1
  let c : MapCall KernelRoot := .mapRegionVirtual .userL1 app.appEntry app.appEntry
    (app.appStack - app.appEntry) appFlags
  have hc : c ∈ app.mapCalls := List.mem_cons_of_mem _ List.mem_cons_self
  obtain ⟨hiff,hsame⟩ := @turns_iff _ c (app.mapCalls_legal c hc) .userL1 p hp
  have hcovers : c.Covers .userL1 p := (region_covers hp (by omega)).mpr ⟨rfl,hpage⟩
  have hsets : c.sets p = some ⟨BitVec.ofNat 64 (4096 * p),appFlags ||| pteTypePage⟩ :=
    identity_sets _ hp (by omega) hpage.1
  -- the turns that unmap come before
  have hturns : app.turns = (MapCall.unmapRegionVirtual KernelRoot.userL1
      (kernelVirtBase + img.kernelStart) (kernelVirtBase + img.kernelStack -
        (kernelVirtBase + img.kernelStart))).turns ++ c.turns := by
    rw [AppImage.turns,AppImage.mapCalls,BootImage.mainThreadCalls,List.flatMap_cons,
      List.flatMap_cons,List.flatMap_nil,List.append_nil]
    rfl
  rw [hturns,exec_append]
  exact onMap_of_covered (hiff.mp hcovers) fun t ht htcovers => (hsame t ht htcovers).trans hsets

theorem SpaceInv.el1 (h : SpaceInv app s) {va pa : Word}
    (ha : (img.el1 e k regs c).access s.heap.mm.tables.mem false .fetch va = some pa) :
    img.Page (pa.toNat / 4096) ∧
      (va.toNat < 2 ^ 32 → ∃ t ∈ s.turns, t.Covers .userL1 (pageNumber va)) := by
  obtain ⟨key,d,hkey,hwalk,hallows,hpa⟩ := h.access e k regs c ha
  have h53 := allows_el1_fetch hallows
  rcases h.origin hwalk with ⟨-,hpxn,-⟩ | ⟨hset,htodo⟩ | ⟨-,hdesc⟩
  · exact absurd (hpxn.symm.trans h53) (by decide)
  · obtain ⟨-,-,htext⟩ := setup_rights app (pageNumber_lt va) hset
    rw [pageOf_bit d (by decide)] at htext
    obtain ⟨hpage,hframe⟩ := htext h53
    rw [hpa,hframe,page_frame (pageNumber_lt va)]
    refine ⟨hpage,fun hlow => ?_⟩
    rw [viewRoot,if_pos hlow] at hkey
    obtain ⟨t,ht,hcovers⟩ := app.turn_unmaps hpage
    exact ⟨t,htodo (Option.some.inj hkey).symm t ht hcovers,hcovers⟩
  · have happ : (appFlags ||| pteTypePage).getLsbD 53 = true := by decide
    rw [← @pageOf_bit d 53 (by decide),hdesc,happ] at h53
    cases h53

theorem SpaceInv.apart (h : SpaceInv app s) {va va' pa pa' : Word}
    (hstore : (img.el1 e k regs c).access s.heap.mm.tables.mem true .store va = some pa)
    (hfetch : (img.el1 e k regs c).access s.heap.mm.tables.mem false .fetch va' = some pa') :
    pa >>> 12 ≠ pa' >>> 12 := by
  have h0 := app.inRam
  have h1 := app.stackAfterEntry
  have h2 := app.beforeKernel
  have huart : uartBase.toNat = 0x09000000 := rfl
  have hsize : (app.appStack - app.appEntry).toNat = app.appStack.toNat - app.appEntry.toNat :=
    BitVec.toNat_sub_of_le h1
  intro hsame
  have hframe := congrArg BitVec.toNat hsame
  rw [page_toNat,page_toNat] at hframe
  obtain ⟨⟨hlo,hhi⟩,-⟩ := h.el1 e k regs c hfetch
  rcases h.el0 e k regs c hstore with ⟨hfrom,hto⟩ | ⟨-,hpage⟩
  · unfold pageTurns at hto
    omega
  · have hnumber := congrArg BitVec.toNat hpage
    rw [page_toNat,page_toNat,huart] at hnumber
    omega

theorem SpaceInv.reaches (h : SpaceInv app s) {key : KernelRoot} {va flags : Word} {el0 : Bool}
    {a : Access} (hkey : viewRoot va = some key)
    (hmap : (walk s.heap.mm.tables.mem (img.tables.root key) va).map pageOf =
      some ⟨BitVec.ofNat 64 (4096 * pageNumber va),flags⟩)
    (h10 : flags.getLsbD 10 = true)
    (hallows : allows (img.el1 e k regs c).wxn el0 flags a = true) :
    ∃ pa, (img.el1 e k regs c).access s.heap.mm.tables.mem el0 a va = some pa ∧
      pa.toNat / 4096 = pageNumber va := by
  obtain ⟨runs,hinv⟩ := h.heap
  obtain ⟨d,hwalk,hd⟩ := Option.map_eq_some_iff.mp hmap
  have hflags := congrArg Mapping.flags hd
  have hbit : d.getLsbD 10 = true := by rw [← @pageOf_bit d 10 (by decide),hflags,h10]
  have hmay : allows (img.el1 e k regs c).wxn el0 d a = true := by
    rw [← allows_pageOf,hflags,hallows]
  refine ⟨(pageOf d).frame ||| va &&& 0xFFF,?_,?_⟩
  · rw [el1_access img e k regs c hinv.tables,hkey,Option.bind_some,hwalk,Option.filter_some,hbit,
      hmay]
    rfl
  · rw [← page_toNat,frame_page,page_toNat,hd,page_frame (pageNumber_lt va)]

theorem SpaceInv.kernel_access (h : SpaceInv app s) {va : Word}
    (hva : kernelVirtBase.toNat ≤ va.toNat) (hpage : img.Page (pageNumber va)) {a : Access}
    (ha : a ≠ .fetch) :
    ∃ pa, (img.el1 e k regs c).access s.heap.mm.tables.mem false a va = some pa ∧
      pa.toNat / 4096 = pageNumber va := by
  have h4 := img.stackAfterEnd
  have hafter := app.beforeHeap
  have hheap := img.heapPage
  have hnumber := heapNumber_eq img.toKernelImage
  have hbase : kernelVirtBase.toNat = 0xFFFFFFFF00000000 := rfl
  have hkey : viewRoot va = some .kernelL1 := by
    rw [viewRoot,if_neg (by omega),if_pos (by omega)]
  have hout : ∀ i, i < maxPages → pageNumber va ≠ img.heapNumber + i := by
    have hhi := hpage.2
    intro i hi
    omega
  obtain ⟨flags,hmap,h10,h7⟩ := setup_kernel app hpage
  refine h.reaches e k regs c hkey ((h.kernel va hout).trans hmap) h10 ?_
  cases a with
  | load => rfl
  | store => simp only [allows,Bool.not_false,Bool.true_or,Bool.true_and,h7]
  | fetch => exact absurd rfl ha

theorem SpaceInv.app_access (h : SpaceInv app s) (hdone : s.turns = []) {va : Word}
    (hva : va.toNat < 2 ^ 32) (hpage : app.Page (pageNumber va)) {a : Access} (ha : a ≠ .fetch) :
    ∃ pa, (img.el1 e k regs c).access s.heap.mm.tables.mem true a va = some pa ∧
      pa.toNat / 4096 = pageNumber va := by
  obtain ⟨done,hturns,huser⟩ := h.user
  rw [hdone,List.append_nil] at hturns
  have hmap := huser va
  rw [← hturns,app.turns_map (pageNumber_lt va) hpage] at hmap
  refine h.reaches e k regs c (if_pos hva) hmap (by decide) ?_
  cases a with
  | load | store =>
    exact (by decide : ∀ wxn, allows wxn true (appFlags ||| pteTypePage) _ = true) _
  | fetch => exact absurd rfl ha

end Confined

section Calls
variable (img : BootImage)

def spaceCalls (s : Space) : SpaceEvent → List (MapCall KernelRoot)
  | .mm (.allocate numPages) =>
    if numPages = 0 then []
    else
      match findPages numPages s.heap.mm with
      | some i => (MapCall.mapRegionVirtual .kernelL1 (img.heapVa i) (vaToPa (img.heapVa i))
          ((numPages * pageSize32).setWidth 64) heapFlags).turns
      | none => []
  | .mm (.free ptr numPages) =>
    if ptr = 0 then []
    else (MapCall.unmapRegionVirtual .kernelL1 ptr ((numPages * pageSize32).setWidth 64)).turns
  | .mainThread => s.turns.take 1

def callsAlong : Space → List SpaceEvent → List (MapCall KernelRoot)
  | _,[] => []
  | s,e :: es => spaceCalls img s e ++ callsAlong (spaceStep img s e) es

variable {img}

theorem spaceStep_tables (s : Space) (e : SpaceEvent) : (spaceStep img s e).heap.mm.tables =
    exec (mapCall img.tables) s.heap.mm.tables (spaceCalls img s e) := by
  cases e with
  | mainThread =>
    obtain ⟨heap,turns⟩ := s
    cases turns <;> rfl
  | mm c =>
    cases c with
    | allocate numPages =>
      simp only [spaceCalls,spaceStep,mmCall]
      by_cases h0 : numPages = 0
      · rw [if_pos h0,mmAllocatePages,if_pos h0]
        rfl
      · rw [if_neg h0]
        cases hs : findPages numPages s.heap.mm with
        | none => exact (mmAllocatePages_none img.toKernelImage h0 hs).2.2
        | some i =>
          rw [mmAllocatePages_some h0 hs,(takePages_spec _ i numPages _).2.2]
          dsimp only
          rw [exec_turns]
          rfl
    | free ptr numPages =>
      simp only [spaceCalls,spaceStep,mmCall]
      by_cases h0 : ptr = 0
      · rw [if_pos h0,mmFreePages,if_pos h0]
        rfl
      · rw [if_neg h0,(mmFreePages_parts img.toKernelImage h0 numPages _).2]
        rw [exec_turns]
        rfl

theorem exec_space_tables (s : Space) (es : List SpaceEvent) :
    (exec (spaceStep img) s es).heap.mm.tables =
      exec (mapCall img.tables) s.heap.mm.tables (callsAlong img s es) := by
  induction es generalizing s with
  | nil => rfl
  | cons e es ih => rw [exec_cons,ih,spaceStep_tables,callsAlong,exec_append]

/-- The tables suffice for a run whose page calls are the turns of `cs`. -/
theorem exec_space_ranOut {app : AppImage img} {es : List SpaceEvent}
    {cs : List (MapCall KernelRoot)}
    (hcs : callsAlong img (.boot app) es = cs.flatMap MapCall.turns)
    (hl : ∀ c ∈ img.setupCalls ++ cs, c.Legal)
    (hfit : (img.setupCalls.map MapCall.budget).sum + (cs.map MapCall.budget).sum ≤ 32) :
    (exec (spaceStep img) (.boot app) es).heap.mm.tables.ranOut = false := by
  have hboot : (Space.boot app).heap.mm.tables = img.kernelRun img.setupCalls [] := by
    simp only [Space.boot,Mm.boot,kernelSetupTables_eq]
  have hrun := kernelRun_ranOut img hl hfit
  rw [BootImage.kernelRun] at hrun
  rwa [exec_space_tables,hcs,exec_flatMap_turns,hboot,BootImage.kernelRun,exec_nil]
end Calls

/-- From kernel_setup_mmu on, whatever the allocator does between the turns of kernel_main_thread,
EL0 reaches only the pages of the application that it has been given and the UART, EL1 executes
only the kernel, and neither loses what is its own. -/
theorem memory_protected (img : BootImage) (app : AppImage img) (es : List SpaceEvent)
    (hl : Along (spaceStep img) SpaceLegal (.boot app) es)
    (hr : (exec (spaceStep img) (.boot app) es).heap.mm.tables.ranOut = false) (e : El3Mmu)
    (k : KernelMmu) (regs : SchedCore → MmuRegs) (c : SchedCore) :
    Confined app (img.el1 e k regs c) (exec (spaceStep img) (.boot app) es) := by
  have hinv : SpaceInv app (exec (spaceStep img) (.boot app) es) :=
    exec_invariant (I := fun s => s.heap.mm.tables.ranOut = false → SpaceInv app s)
      (fun _ _ hi hl hr => (hi (spaceStep_ranOut hr)).step hl hr) (boot_inv app) hl hr
  exact ⟨fun _ _ _ => hinv.el0 e k regs c,fun _ _ => hinv.el1 e k regs c,
    fun _ _ _ _ => hinv.apart e k regs c,
    fun _ hva hpage _ => hinv.kernel_access e k regs c hva hpage,
    fun hdone _ hva hpage _ => hinv.app_access e k regs c hdone hva hpage⟩

def testAppImage : AppImage testBootImage where
  appEntry := 0x402D0000
  appStack := 0x402F9000
  inRam := by decide
  stackAfterEntry := by decide
  beforeKernel := by decide
  kernelPage := by decide
  beforeHeap := by decide

/-- Between its turns tasks take stacks and give them back. -/
def mainThreadRun : List SpaceEvent :=
  .mm (.allocate 3) :: List.replicate 200 .mainThread ++
    .mm (.allocate 3) :: List.replicate 220 .mainThread ++
    .mm (.free 0xFFFFFFFF40500000 3) :: .mm (.allocate 2) :: List.replicate 21 .mainThread
def mainThreadParts : List (MapCall KernelRoot) :=
  let kStart := kernelVirtBase + 0x40300000
  [.mapRegionVirtual .kernelL1 (kernelVirtBase + 0x40500000) 0x40500000 0x3000 heapFlags,
    .unmapRegionVirtual .userL1 kStart 0xC8000,
    .mapRegionVirtual .kernelL1 (kernelVirtBase + 0x40503000) 0x40503000 0x3000 heapFlags,
    .unmapRegionVirtual .userL1 (kStart + 0xC8000) 0xC8000,
    .mapRegionVirtual .userL1 0x402D0000 0x402D0000 0x14000 appFlags,
    .unmapRegionVirtual .kernelL1 (kernelVirtBase + 0x40500000) 0x3000,
    .mapRegionVirtual .kernelL1 (kernelVirtBase + 0x40500000) 0x40500000 0x2000 heapFlags,
    .mapRegionVirtual .userL1 0x402E4000 0x402E4000 0x15000 appFlags]

theorem memory_protected_turns :
    let s := exec (spaceStep testBootImage) (.boot testAppImage) mainThreadRun
    s.turns = [] ∧ Confined testAppImage
      (testBootImage.el1 ⟨Tables.bss,0⟩ ⟨Tables.bss,1⟩ (fun _ => zeroRegs) 0) s := by
  intro s
  have hlegal : Along (spaceStep testBootImage) SpaceLegal (.boot testAppImage) mainThreadRun := by
    decide +kernel
  have hcalls : callsAlong testBootImage (.boot testAppImage) mainThreadRun =
      mainThreadParts.flatMap MapCall.turns := by
    decide +kernel
  have hroom := exec_space_ranOut hcalls (by decide +kernel) (by decide +kernel)
  exact ⟨by decide +kernel,memory_protected testBootImage testAppImage _ hlegal hroom _ _ _ _⟩

end Arm64

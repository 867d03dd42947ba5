import Arm64Baremetal.KernelException

set_option autoImplicit false

namespace Arm64
open Runs Stage1

section Turns
variable {ρ : Type}

/-- The turns of the loop of a call, each as a call for one page. -/
def MapCall.turns : MapCall ρ → List (MapCall ρ)
  | .mapPageVirtual r va pa flags => [.mapPageVirtual r va pa flags]
  | .mapRegionVirtual r vaStart paStart size flags =>
    let va := vaStart &&& ~~~0xFFF
    let pa := paStart &&& ~~~0xFFF
    (List.range (pageTurns size)).map fun n =>
      let i := BitVec.ofNat 64 (4096 * n)
      .mapPageVirtual r (va + i) (pa + i) flags
  | .unmapRegionVirtual r vaStart size =>
    (List.range (pageTurns size)).map fun n =>
      .unmapRegionVirtual r (vaStart + BitVec.ofNat 64 (4096 * n)) 4096

theorem mapCall_unmap_page (A : TableArea ρ) (r : ρ) (va : Word) (m : Tables) :
    mapCall A m (.unmapRegionVirtual r va 4096) =
      unmapPage kernelVirtBase (A.root r + kernelVirtBase) va m := by
  have hzero : va + BitVec.ofNat 64 (4096 * 0) = va := BitVec.add_zero va
  change unmapPage _ _ (va + BitVec.ofNat 64 (4096 * 0)) m = _
  rw [hzero]

theorem exec_turns (A : TableArea ρ) (c : MapCall ρ) (m : Tables) :
    exec (mapCall A) m c.turns = mapCall A m c := by
  have hfold : ∀ (f : Nat → MapCall ρ) (g : Tables → Nat → Tables) (ns : List Nat) (m : Tables),
      (∀ m n, mapCall A m (f n) = g m n) → exec (mapCall A) m (ns.map f) = ns.foldl g m := by
    intro f g ns
    induction ns with
    | nil => exact fun _ _ => rfl
    | cons n ns ih =>
      intro m h
      rw [List.map_cons,exec_cons,List.foldl_cons,h m n]
      exact ih _ h
  cases c with
  | mapPageVirtual r va pa flags => rfl
  | mapRegionVirtual r vaStart paStart size flags => exact hfold _ _ _ m fun _ _ => rfl
  | unmapRegionVirtual r vaStart size =>
    exact hfold _ _ _ m fun _ _ => mapCall_unmap_page A r _ _

theorem exec_flatMap_turns (A : TableArea ρ) (cs : List (MapCall ρ)) (m : Tables) :
    exec (mapCall A) m (cs.flatMap MapCall.turns) = exec (mapCall A) m cs := by
  induction cs generalizing m with
  | nil => rfl
  | cons c cs ih => rw [List.flatMap_cons,exec_append,exec_turns,ih,exec_cons]

theorem turns_legal {c : MapCall ρ} (h : c.Legal) : ∀ c' ∈ c.turns, c'.Legal := by
  intro c' hc'
  cases c with
  | mapPageVirtual r va pa flags =>
    obtain rfl := List.mem_singleton.mp hc'
    exact h
  | mapRegionVirtual r vaStart paStart size flags =>
    obtain ⟨n,hn,rfl⟩ := List.mem_map.mp hc'
    obtain ⟨_,hpa,hf⟩ := h
    have hn := List.mem_range.mp hn
    have hround := and_not_low_toNat paStart
    refine ⟨?_,hf⟩
    rw [BitVec.toNat_add,BitVec.toNat_ofNat]
    omega
  | unmapRegionVirtual r vaStart size =>
    obtain ⟨n,hn,rfl⟩ := List.mem_map.mp hc'
    exact Nat.lt_of_lt_of_le (by decide : (4096 : Word).toNat < 4097) (by decide)

theorem exists_page {p : Nat} (hp : p < 2 ^ 20) : ∃ va, pageNumber va = p := by
  refine ⟨BitVec.ofNat 64 (4096 * p),?_⟩
  unfold pageNumber
  rw [BitVec.toNat_ofNat]
  omega

theorem unmap_page_covers {r r' : ρ} {va : Word} {n p : Nat} (hn : n < 2 ^ 20) :
    (MapCall.unmapRegionVirtual r (va + BitVec.ofNat 64 (4096 * n)) 4096).Covers r' p ↔
      r' = r ∧ pageOffset va p = n := by
  have hone : pageTurns 4096 = 1 := by decide
  have hlt := pageNumber_lt va
  simp only [MapCall.Covers,hone,pageOffset,pageNumber_add]
  refine and_congr_right fun _ => ?_
  omega

theorem map_page_frame (pa : Word) (n : Nat) :
    ((pa &&& ~~~0xFFF) + BitVec.ofNat 64 (4096 * n)) &&& ~~~0xFFF =
      (pa &&& ~~~0xFFF) + BitVec.ofNat 64 (4096 * n) := by
  refine and_not_low_of_page ?_
  rw [BitVec.toNat_add,BitVec.toNat_ofNat,and_not_low_toNat]
  omega

theorem turns_iff {c : MapCall ρ} (h : c.Legal) {r : ρ} {p : Nat} (hp : p < 2 ^ 20) :
    (c.Covers r p ↔ ∃ c' ∈ c.turns, c'.Covers r p) ∧
      ∀ c' ∈ c.turns, c'.Covers r p → c'.sets p = c.sets p := by
  cases c with
  | mapPageVirtual r' va pa flags => simp [MapCall.turns]
  | mapRegionVirtual r' vaStart paStart size flags =>
    obtain ⟨va,rfl⟩ := exists_page hp
    have hturns := pageTurns_le h.1
    have hturn : ∀ n < pageTurns size,
        ((MapCall.mapPageVirtual r' ((vaStart &&& ~~~0xFFF) + BitVec.ofNat 64 (4096 * n))
          ((paStart &&& ~~~0xFFF) + BitVec.ofNat 64 (4096 * n)) flags).Covers r (pageNumber va) ↔
            r = r' ∧ pageOffset (vaStart &&& ~~~0xFFF) (pageNumber va) = n) := by
      intro n hn
      exact and_congr_right fun _ => pageNumber_add_iff (by omega)
    refine ⟨⟨fun ⟨hr,hoff⟩ => ?_,fun ⟨c',hc',hcovers⟩ => ?_⟩,fun c' hc' hcovers => ?_⟩
    · exact ⟨_,List.mem_map_of_mem (List.mem_range.mpr hoff),(hturn _ hoff).mpr ⟨hr,rfl⟩⟩
    · obtain ⟨n,hn,rfl⟩ := List.mem_map.mp hc'
      obtain ⟨hr,hoff⟩ := (hturn n (List.mem_range.mp hn)).mp hcovers
      exact ⟨hr,hoff ▸ List.mem_range.mp hn⟩
    · obtain ⟨n,hn,rfl⟩ := List.mem_map.mp hc'
      have hn := List.mem_range.mp hn
      obtain ⟨-,hoff⟩ := (hturn n hn).mp hcovers
      simp only [MapCall.sets,hoff,map_page_frame paStart n]
  | unmapRegionVirtual r' vaStart size =>
    have hturns := pageTurns_le h
    refine ⟨⟨fun ⟨hr,hoff⟩ => ?_,fun ⟨c',hc',hcovers⟩ => ?_⟩,fun c' hc' _ => ?_⟩
    · exact ⟨_,List.mem_map_of_mem (List.mem_range.mpr hoff),
        (unmap_page_covers (by omega)).mpr ⟨hr,rfl⟩⟩
    · obtain ⟨n,hn,rfl⟩ := List.mem_map.mp hc'
      have hn := List.mem_range.mp hn
      obtain ⟨hr,hoff⟩ := (unmap_page_covers (by omega)).mp hcovers
      exact ⟨hr,hoff ▸ hn⟩
    · obtain ⟨n,hn,rfl⟩ := List.mem_map.mp hc'
      rfl

variable [DecidableEq ρ] {f : PageMap ρ} {cs : List (MapCall ρ)} {r : ρ} {p : Nat}

theorem onMap_of_not (h : ∀ c ∈ cs, ¬ c.Covers r p) : exec MapCall.onMap f cs r p = f r p := by
  induction cs generalizing f with
  | nil => rfl
  | cons c cs ih =>
    rw [exec_cons,ih fun c' hc' => h c' (List.mem_cons_of_mem c hc')]
    exact if_neg (h c List.mem_cons_self)

theorem onMap_of_covered {v : Option Mapping} (hc : ∃ c ∈ cs, c.Covers r p)
    (h : ∀ c ∈ cs, c.Covers r p → c.sets p = v) : exec MapCall.onMap f cs r p = v := by
  induction cs using List.reverseRecOn with
  | nil =>
    obtain ⟨c,hc,_⟩ := hc
    exact absurd hc List.not_mem_nil
  | append_singleton cs c ih =>
    rw [exec_snoc]
    by_cases hlast : c.Covers r p
    · exact (if_pos hlast).trans (h c (by simp) hlast)
    · refine (if_neg hlast).trans (ih ?_ fun c' hc' => h c' (List.mem_append_left _ hc'))
      obtain ⟨c',hc',hcovers⟩ := hc
      rcases List.mem_append.mp hc' with hc' | hc'
      · exact ⟨c',hc',hcovers⟩
      · obtain rfl := List.mem_singleton.mp hc'
        exact absurd hcovers hlast

theorem onMap_from {q : Mapping} (h : exec MapCall.onMap (fun _ _ => none) cs r p = some q) :
    ∃ c ∈ cs, c.Covers r p ∧ c.sets p = some q := by
  rw [MapCall.exec_onMap] at h
  obtain ⟨c,hlast,hset⟩ := Option.bind_eq_some_iff.mp h
  exact ⟨c,MapCall.lastOn_mem hlast,MapCall.lastOn_covers hlast,hset⟩

end Turns

section Rights
variable {ρ : Type} {A : TableArea ρ} {m : Tables}

theorem TablesOk.walk_type (h : TablesOk A m) {r : ρ} {va d : Word}
    (hd : walk m.mem (A.root r) va = some d) : d &&& 3 = 3 := by
  obtain ⟨t,ht⟩ := h
  rw [ht.walk_eq,leaf] at hd
  obtain ⟨b,_,hb⟩ := Option.bind_eq_some_iff.mp hd
  obtain ⟨htype,hd⟩ := Option.ite_none_right_eq_some.mp hb
  rwa [Option.some.inj hd] at htype

theorem allows_pageOf (wxn el0 : Bool) (d : Word) (a : Access) :
    allows wxn el0 (pageOf d).flags a = allows wxn el0 d a := by
  have h6 := @pageOf_bit d 6 (by decide)
  have h7 := @pageOf_bit d 7 (by decide)
  have h53 := @pageOf_bit d 53 (by decide)
  have h54 := @pageOf_bit d 54 (by decide)
  cases a <;> simp only [allows,h6,h7,h53,h54]

theorem el1_access (img : BootImage) (s : El3Mmu) (k : KernelMmu) (regs : SchedCore → MmuRegs)
    (c : SchedCore) {m : Tables} (hok : TablesOk img.tables m) (el0 : Bool) (a : Access)
    (va : Word) : (img.el1 s k regs c).access m.mem el0 a va = (viewRoot va).bind fun key =>
      ((walk m.mem (img.tables.root key) va).filter fun d =>
        d.getLsbD 10 && allows (img.el1 s k regs c).wxn el0 d a).map fun d =>
          (pageOf d).frame ||| va &&& 0xFFF := by
  have hview := view_entry img (el1_tsz img s k regs c) (el1_base img s k regs c) m.mem va
  have hpage : ∀ e, (img.el1 s k regs c).entry m.mem va = some e → e.below = 0 := by
    intro e he
    rw [he,Option.map_some] at hview
    obtain ⟨key,_,hkey⟩ := Option.bind_eq_some_iff.mp hview.symm
    exact Regime.entry_below he (hok.walk_type (Option.filter_eq_some_iff.mp hkey).1)
  have haccess : (img.el1 s k regs c).access m.mem el0 a va =
      ((((img.el1 s k regs c).entry m.mem va).map Entry.desc).filter fun d =>
        allows (img.el1 s k regs c).wxn el0 d a).map fun d =>
          (pageOf d).frame ||| va &&& 0xFFF := by
    rw [Regime.access,if_pos (el1_on img s k regs c),Option.filter_map,Option.map_map]
    cases hentry : (img.el1 s k regs c).entry m.mem va with
    | none => rfl
    | some e =>
      rw [Option.filter_some,Option.filter_some,Function.comp_apply]
      split
      · exact congrArg some (resolve_frame _ va (hpage e hentry))
      · rfl
  rw [haccess,hview]
  cases viewRoot va with
  | none => rfl
  | some key => rw [Option.bind_some,Option.bind_some,Option.filter_filter]

end Rights

section Image

theorem identity_sets {ρ : Type} (r : ρ) {w size flags : Word} {p : Nat} (hp : p < 2 ^ 20)
    (hw : w.toNat < 2 ^ 32) (hle : w.toNat / 4096 ≤ p) :
    (MapCall.mapRegionVirtual r w w size flags).sets p =
      some ⟨BitVec.ofNat 64 (4096 * p),flags ||| pteTypePage⟩ := by
  have hnumber : pageNumber w = w.toNat / 4096 := by
    unfold pageNumber
    omega
  have hframe : (w &&& ~~~0xFFF) + BitVec.ofNat 64 (4096 * (p - w.toNat / 4096)) =
      BitVec.ofNat 64 (4096 * p) := by
    apply BitVec.eq_of_toNat_eq
    rw [BitVec.toNat_add,BitVec.toNat_ofNat,BitVec.toNat_ofNat,and_not_low_toNat]
    omega
  rw [MapCall.sets,pageOffset_round,pageOffset_of_le hp (hnumber ▸ hle),hnumber,hframe]

theorem region_covers {ρ : Type} {r r' : ρ} {w size flags : Word} {p : Nat} (hp : p < 2 ^ 20)
    (hw : w.toNat + size.toNat < 2 ^ 31) : (MapCall.mapRegionVirtual r w w size flags).Covers r' p ↔
      r' = r ∧ w.toNat / 4096 ≤ p ∧ p < w.toNat / 4096 + pageTurns size := by
  have hnumber : pageNumber w = w.toNat / 4096 := by
    unfold pageNumber
    omega
  have hfit : pageNumber w + pageTurns size ≤ 2 ^ 20 := by
    rw [hnumber]
    unfold pageTurns
    omega
  simp only [MapCall.Covers,pageOffset_round,@pageOffset_lt_iff _ _ _ hp hfit,hnumber]

/-- What linker.ld decides about the application and the kernel. -/
structure AppImage (img : BootImage) where
  appEntry : Word
  appStack : Word
  inRam : uartBase.toNat + 4096 ≤ appEntry.toNat
  stackAfterEntry : appEntry.toNat ≤ appStack.toNat
  beforeKernel : appStack.toNat ≤ img.kernelStart.toNat
  kernelPage : img.kernelStart.toNat % 4096 = 0
  beforeHeap : img.kernelStack.toNat ≤ (vaToPa img.heapBegin).toNat

variable {img : BootImage} (app : AppImage img)

/-- The pages that kernel_main_thread maps for app_entry. -/
def AppImage.Page (p : Nat) : Prop :=
  app.appEntry.toNat / 4096 ≤ p ∧
    p < app.appEntry.toNat / 4096 + pageTurns (app.appStack - app.appEntry)

/-- The pages of the text and the data of the kernel. -/
def BootImage.Page (img : BootImage) (p : Nat) : Prop :=
  img.kernelStart.toNat ≤ 4096 * p ∧ 4096 * p < img.kernelEnd.toNat

def appFlags : Word := protNormalMem ||| apEl0RwElxRw ||| ptePxn

def AppImage.mapCalls : List (MapCall KernelRoot) :=
  img.mainThreadCalls app.appEntry app.appStack

def AppImage.turns : List (MapCall KernelRoot) := app.mapCalls.flatMap MapCall.turns

theorem AppImage.mapCalls_legal : ∀ c ∈ app.mapCalls, c.Legal := by
  have h1 := app.stackAfterEntry
  have h2 := app.beforeKernel
  have h3 := img.endAfterStart
  have h4 := img.stackAfterEnd
  have h5 := img.stackLow
  have hunmap : (kernelVirtBase + img.kernelStack - (kernelVirtBase + img.kernelStart)).toNat =
      img.kernelStack.toNat - img.kernelStart.toNat := by
    have hk : kernelVirtBase.toNat = 0xFFFFFFFF00000000 := rfl
    rw [BitVec.toNat_sub,BitVec.toNat_add,BitVec.toNat_add,hk]
    omega
  have hmap : (app.appStack - app.appEntry).toNat = app.appStack.toNat - app.appEntry.toNat :=
    BitVec.toNat_sub_of_le h1
  intro c hc
  simp only [AppImage.mapCalls,BootImage.mainThreadCalls,List.mem_cons,List.not_mem_nil,or_false]
    at hc
  rcases hc with rfl | rfl
  · change _ < 2 ^ 31
    omega
  · refine ⟨by omega,?_,by decide⟩
    unfold pageTurns
    omega

theorem AppImage.turns_legal : ∀ c ∈ app.turns, c.Legal := by
  intro c hc
  obtain ⟨c',hc',hturn⟩ := List.mem_flatMap.mp hc
  exact Arm64.turns_legal (app.mapCalls_legal c' hc') c hturn

/-- A turn unmaps a page of user_l1, or maps one of the application. -/
theorem AppImage.turn_sets {c : MapCall KernelRoot} (hc : c ∈ app.turns) {key : KernelRoot}
    {p : Nat} (hp : p < 2 ^ 20) (hcovers : c.Covers key p) : key = .userL1 ∧ (c.sets p = none ∨
      app.Page p ∧ c.sets p = some ⟨BitVec.ofNat 64 (4096 * p),appFlags ||| pteTypePage⟩) := by
  have h1 := app.stackAfterEntry
  have h2 := app.beforeKernel
  have h3 := img.endAfterStart
  have h4 := img.stackAfterEnd
  have h5 := img.stackLow
  have hmap : (app.appStack - app.appEntry).toNat = app.appStack.toNat - app.appEntry.toNat :=
    BitVec.toNat_sub_of_le h1
  obtain ⟨c',hc',hturn⟩ := List.mem_flatMap.mp hc
  obtain ⟨hiff,hsame⟩ := @turns_iff _ c' (app.mapCalls_legal c' hc') key p hp
  have hwhole := hiff.mpr ⟨c,hturn,hcovers⟩
  rw [hsame c hturn hcovers]
  simp only [AppImage.mapCalls,BootImage.mainThreadCalls,List.mem_cons,List.not_mem_nil,or_false]
    at hc'
  rcases hc' with rfl | rfl
  · exact ⟨hwhole.1,.inl rfl⟩
  · obtain ⟨hkey,hpage⟩ := (region_covers hp (by omega)).mp hwhole
    exact ⟨hkey,.inr ⟨hpage,identity_sets KernelRoot.userL1 hp (by omega) hpage.1⟩⟩

def BootImage.setupMap (img : BootImage) : PageMap KernelRoot :=
  exec MapCall.onMap (fun _ _ => none) img.setupCalls

include app in
theorem kernel_page {p : Nat} (h : img.kernelStart.toNat / 4096 ≤ p ∧
    p < img.kernelStart.toNat / 4096 + pageTurns (img.kernelEnd - img.kernelStart)) :
    img.Page p := by
  have hpage := app.kernelPage
  have hsize : (img.kernelEnd - img.kernelStart).toNat =
      img.kernelEnd.toNat - img.kernelStart.toNat := BitVec.toNat_sub_of_le img.endAfterStart
  unfold pageTurns at h
  refine ⟨?_,?_⟩ <;> omega

include app in
/-- kernel_setup_mmu opens nothing to EL0 but the UART, and lets EL1 execute the kernel only. -/
theorem setup_rights {key : KernelRoot} {p : Nat} {q : Mapping} (hp : p < 2 ^ 20)
    (h : img.setupMap key p = some q) :
    (q.flags.getLsbD 6 = true → q.frame = uartBase) ∧ q.flags.getLsbD 54 = true ∧
    (q.flags.getLsbD 53 = false → img.Page p ∧ q.frame = BitVec.ofNat 64 (4096 * p)) := by
  have h3 := img.endAfterStart
  have h4 := img.stackAfterEnd
  have h5 := img.stackLow
  have hsize : (img.kernelEnd - img.kernelStart).toNat =
      img.kernelEnd.toNat - img.kernelStart.toNat := BitVec.toNat_sub_of_le h3
  obtain ⟨c,hc,hcovers,hset⟩ := onMap_from h
  have htext : ∀ r, c = .mapRegionVirtual r img.kernelStart img.kernelStart
      (img.kernelEnd - img.kernelStart) (protNormalMem ||| apEl0NoElxRw ||| pteUxn) →
      img.Page p ∧ q = ⟨BitVec.ofNat 64 (4096 * p),
        protNormalMem ||| apEl0NoElxRw ||| pteUxn ||| pteTypePage⟩ := by
    rintro r rfl
    obtain ⟨-,hpage⟩ := (region_covers hp (by omega)).mp hcovers
    exact ⟨kernel_page app hpage,
      Option.some.inj (hset.symm.trans (identity_sets r hp (by omega) hpage.1))⟩
  have hclosed : ∀ flags, c.flags? = some flags → (flags ||| pteTypePage).getLsbD 6 = false →
      (flags ||| pteTypePage).getLsbD 54 = true → (flags ||| pteTypePage).getLsbD 53 = true →
      (q.flags.getLsbD 6 = true → q.frame = uartBase) ∧ q.flags.getLsbD 54 = true ∧
      (q.flags.getLsbD 53 = false → img.Page p ∧ q.frame = BitVec.ofNat 64 (4096 * p)) := by
    intro flags hflags h6 h54 h53
    have hq := c.sets_flags p
    rw [hset,hflags,Option.map_some,Option.map_some] at hq
    rw [Option.some.inj hq]
    exact ⟨fun h => absurd (h6.symm.trans h) Bool.false_ne_true,h54,
      fun h => absurd (h.symm.trans h53) Bool.false_ne_true⟩
  simp only [BootImage.setupCalls,List.mem_cons,List.not_mem_nil,or_false] at hc
  obtain hc | hc | rfl | rfl | rfl | rfl | rfl | rfl | rfl := hc
  case inl | inr.inl =>
    obtain ⟨hpage,rfl⟩ := htext _ hc
    dsimp only
    exact ⟨fun h => absurd h (by decide),by decide,fun _ => ⟨hpage,rfl⟩⟩
  case inr.inr.inr.inr.inl =>
    obtain rfl := Option.some.inj hset
    exact ⟨fun _ => by decide,by decide,fun h => absurd h (by decide)⟩
  all_goals exact hclosed _ rfl (by decide) (by decide) (by decide)

theorem device_page {va size : Word} {p : Nat} (hp : p < 2 ^ 20)
    (hdevice : pageNumber va + pageTurns size ≤ 0x9000)
    (h : pageOffset (va &&& ~~~0xFFF) p < pageTurns size) : p < 0x9000 := by
  rw [pageOffset_round,@pageOffset_lt_iff _ _ _ hp (by omega)] at h
  omega

include app in
theorem setup_devices {p : Nat} (hp : p < 2 ^ 20) (hpage : img.kernelStart.toNat ≤ 4096 * p) :
    ∀ c ∈ img.setupCalls.drop 4, ¬ c.Covers .kernelL1 p := by
  have h0 := app.inRam
  have h1 := app.stackAfterEntry
  have h2 := app.beforeKernel
  have huart : uartBase.toNat = 0x09000000 := rfl
  have hnumber : pageNumber (kernelVirtBase + uartBase) = 0x9000 := by decide
  intro c hc hcovers
  simp only [BootImage.setupCalls,List.drop_succ_cons,List.drop_zero,List.mem_cons,
    List.not_mem_nil,or_false] at hc
  obtain rfl | rfl | rfl | rfl | rfl := hc
  · have hpage := hcovers.2
    omega
  case inr.inr.inr.inr => exact absurd hcovers.1 (by decide)
  all_goals
    have hdevice := device_page hp (by decide) hcovers.2
    omega

include app in
theorem setup_kernel {p : Nat} (hpage : img.Page p) : ∃ flags,
    img.setupMap .kernelL1 p = some ⟨BitVec.ofNat 64 (4096 * p),flags⟩ ∧
      flags.getLsbD 10 = true ∧ flags.getLsbD 7 = false := by
  have h2 := app.kernelPage
  have h3 := img.endAfterStart
  have h4 := img.stackAfterEnd
  have h5 := img.stackLow
  have hsize : (img.kernelEnd - img.kernelStart).toNat =
      img.kernelEnd.toNat - img.kernelStart.toNat := BitVec.toNat_sub_of_le h3
  have hrest : (img.kernelStack - img.kernelEnd).toNat =
      img.kernelStack.toNat - img.kernelEnd.toNat := BitVec.toNat_sub_of_le h4
  obtain ⟨hlo,hhi⟩ := hpage
  have hp : p < 2 ^ 20 := by omega
  have hmap : img.setupMap .kernelL1 p =
      exec MapCall.onMap (fun _ _ => none) (img.setupCalls.take 4) .kernelL1 p := by
    rw [BootImage.setupMap,← List.take_append_drop 4 img.setupCalls,exec_append]
    exact onMap_of_not (setup_devices app hp hlo)
  rw [hmap]
  simp only [BootImage.setupCalls,List.take_succ_cons,List.take_zero,exec_cons,exec_nil]
  by_cases hdata : (MapCall.mapRegionVirtual KernelRoot.kernelL1 img.kernelEnd img.kernelEnd
      (img.kernelStack - img.kernelEnd)
      (protNormalMem ||| apEl0NoElxRw ||| pteUxn ||| ptePxn)).Covers .kernelL1 p
  · refine ⟨_,(if_pos hdata).trans (identity_sets _ hp (by omega) ?_),by decide,by decide⟩
    exact ((region_covers hp (by omega)).mp hdata).2.1
  · refine ⟨_,(if_neg hdata).trans ((if_neg fun h => absurd h.1 (by decide)).trans
      ((if_pos ?_).trans (identity_sets _ hp (by omega) (by omega)))),by decide,by decide⟩
    refine (region_covers hp (by omega)).mpr ⟨rfl,by omega,?_⟩
    unfold pageTurns
    omega

end Image

end Arm64

import Arm64Baremetal.KernelMm

/-!
The tables of kernel_mmu.c as a map from pages to page frames: what the three-level walk
finds after any sequence of map and unmap calls.
-/

set_option autoImplicit false

namespace Arm64
open Runs

/-- The page frame a page is mapped to, and the other bits of the descriptor. -/
structure Mapping where
  frame : Word
  flags : Word
  deriving DecidableEq

def pageOf (d : Word) : Mapping := ⟨descAddr d,d &&& ~~~0x0000FFFFFFFFF000⟩

abbrev PageMap (ρ : Type) := ρ → Nat → Option Mapping

inductive MapCall (ρ : Type) where
  | mapPageVirtual (r : ρ) (va pa flags : Word)
  | mapRegionVirtual (r : ρ) (vaStart paStart size flags : Word)
  | unmapRegionVirtual (r : ρ) (vaStart size : Word)
  deriving DecidableEq

namespace MapCall
variable {ρ : Type}

/-- The calls leave the tables of other roots alone, and pages outside their region. -/
def Covers : MapCall ρ → ρ → Nat → Prop
  | .mapPageVirtual r va _ _,r',p => r' = r ∧ p = pageNumber va
  | .mapRegionVirtual r vaStart _ size _,r',p =>
      r' = r ∧ pageOffset (vaStart &&& ~~~0xFFF) p < pageTurns size
  | .unmapRegionVirtual r vaStart size,r',p => r' = r ∧ pageOffset vaStart p < pageTurns size

instance [DecidableEq ρ] (c : MapCall ρ) (r : ρ) (p : Nat) : Decidable (c.Covers r p) :=
  match c with
  | .mapPageVirtual .. | .mapRegionVirtual .. | .unmapRegionVirtual .. =>
      inferInstanceAs (Decidable (_ ∧ _))

def sets : MapCall ρ → Nat → Option Mapping
  | .mapPageVirtual _ _ pa flags,_ => some ⟨pa &&& ~~~0xFFF,flags ||| pteTypePage⟩
  | .mapRegionVirtual _ vaStart paStart _ flags,p =>
      some ⟨(paStart &&& ~~~0xFFF) +
        BitVec.ofNat 64 (4096 * pageOffset (vaStart &&& ~~~0xFFF) p),flags ||| pteTypePage⟩
  | .unmapRegionVirtual ..,_ => none

/-- Physical addresses below 2^48, attributes outside of the address bits, and sizes that
an int can hold. -/
def Legal : MapCall ρ → Prop
  | .mapPageVirtual _ _ pa flags => pa.toNat < 2 ^ 48 ∧ descAddr flags = 0
  | .mapRegionVirtual _ _ paStart size flags => size.toNat < 2 ^ 31 ∧
      paStart.toNat / 4096 + pageTurns size ≤ 2 ^ 36 ∧ descAddr flags = 0
  | .unmapRegionVirtual _ _ size => size.toNat < 2 ^ 31

instance (c : MapCall ρ) : Decidable c.Legal :=
  match c with
  | .mapPageVirtual .. | .mapRegionVirtual .. => inferInstanceAs (Decidable (_ ∧ _))
  | .unmapRegionVirtual _ _ size => inferInstanceAs (Decidable (size.toNat < 2 ^ 31))

variable [DecidableEq ρ]

def onMap (f : PageMap ρ) (c : MapCall ρ) : PageMap ρ := fun r p =>
  if c.Covers r p then c.sets p else f r p

def lastOn (cs : List (MapCall ρ)) (r : ρ) (p : Nat) : Option (MapCall ρ) :=
  cs.reverse.find? fun c => c.Covers r p

theorem exec_onMap (cs : List (MapCall ρ)) (r : ρ) (p : Nat) :
    exec onMap (fun _ _ => none) cs r p = (lastOn cs r p).bind fun c => c.sets p := by
  induction cs using List.reverseRecOn with
  | nil => rfl
  | append_singleton cs c ih =>
    rw [exec_snoc,onMap,lastOn,List.reverse_concat,List.find?_cons]
    by_cases hc : c.Covers r p
    · simp [hc]
    · simpa [hc,lastOn] using ih

end MapCall

variable {ρ : Type} {A : TableArea ρ} {m : Tables}

def mapCall (A : TableArea ρ) (m : Tables) : MapCall ρ → Tables
  | .mapPageVirtual r va pa flags =>
      mapPage A kernelVirtBase (A.root r + kernelVirtBase) va pa flags m
  | .mapRegionVirtual r vaStart paStart size flags =>
      mapRegion A kernelVirtBase (A.root r + kernelVirtBase) vaStart paStart size flags m
  | .unmapRegionVirtual r vaStart size =>
      unmapRegion kernelVirtBase (A.root r + kernelVirtBase) vaStart size m

/-- One call on tables that are reached at `off` above their physical addresses. -/
def mapCallAt (A : TableArea ρ) (off : Word) (m : Tables) : MapCall ρ → Tables
  | .mapPageVirtual r va pa flags => mapPage A off (A.root r + off) va pa flags m
  | .mapRegionVirtual r vaStart paStart size flags =>
      mapRegion A off (A.root r + off) vaStart paStart size flags m
  | .unmapRegionVirtual r vaStart size => unmapRegion off (A.root r + off) vaStart size m

theorem mapCallAt_virtual (A : TableArea ρ) : mapCallAt A kernelVirtBase = mapCall A := by
  funext m c
  cases c <;> rfl

/-- The tables are a forest and the walk reads the map `f`. -/
structure Maps (A : TableArea ρ) (m : Tables) (f : PageMap ρ) : Prop where
  ok : TablesOk A m
  walks : ∀ r va, (walk m.mem (A.root r) va).map pageOf = f r (pageNumber va)

section Bits

theorem and_not_low_toNat (w : Word) : (w &&& (~~~0xFFF : Word)).toNat = w.toNat / 4096 * 4096 := by
  have hshift : w &&& (~~~0xFFF : Word) = w >>> 12 <<< 12 := by
    apply BitVec.eq_of_getLsbD_eq
    intro i hi
    have hmask : (0xFFF : Word) = (BitVec.allOnes 12).setWidth 64 := by decide
    simp only [hmask,BitVec.getLsbD_and,BitVec.getLsbD_not,BitVec.getLsbD_setWidth,
      BitVec.getLsbD_allOnes,BitVec.getLsbD_shiftLeft,BitVec.getLsbD_ushiftRight]
    by_cases h12 : i < 12
    · simp [h12,hi]
    · simp [h12,hi,Nat.add_sub_cancel' (Nat.le_of_not_lt h12)]
  have := w.isLt
  rw [hshift,BitVec.toNat_shiftLeft,BitVec.toNat_ushiftRight,Nat.shiftLeft_eq,
    Nat.shiftRight_eq_div_pow]
  omega

theorem pageNumber_round (va : Word) : pageNumber (va &&& ~~~0xFFF) = pageNumber va := by
  rw [pageNumber,and_not_low_toNat,pageNumber]
  omega

/-- Rounding the start down to its page leaves every page where it was. -/
theorem pageOffset_round (va : Word) (p : Nat) :
    pageOffset (va &&& ~~~0xFFF) p = pageOffset va p := by
  rw [pageOffset,pageNumber_round,pageOffset]

theorem pageTurns_le {size : Word} (h : size.toNat < 2 ^ 31) : pageTurns size ≤ 2 ^ 20 := by
  unfold pageTurns
  omega

theorem pageOf_desc {w flags : Word} (h : w.toNat % 4096 = 0) (hw : w.toNat < 2 ^ 48)
    (hf : descAddr flags = 0) :
    leafOf (w ||| flags ||| pteTypePage) = some (w ||| flags ||| pteTypePage) ∧
      pageOf (w ||| flags ||| pteTypePage) = ⟨w,flags ||| pteTypePage⟩ := by
  have hf' : descAddr (flags ||| pteTypePage) = 0 := by
    have hp : pteTypePage &&& 0x0000FFFFFFFFF000 = 0 := by decide
    rw [descAddr,BitVec.or_comm,and_or_low hp]
    exact hf
  have haddr := descAddr_of_page h hw
  rw [BitVec.or_assoc,leafOf,if_pos,pageOf,descAddr_or h hw hf']
  · refine ⟨rfl,?_⟩
    congr 1
    apply BitVec.eq_of_getLsbD_eq
    intro i hi
    have h1 := congrArg (·.getLsbD i) hf'
    have h2 := congrArg (·.getLsbD i) haddr
    simp only [descAddr,BitVec.getLsbD_and,BitVec.getLsbD_or,BitVec.getLsbD_not] at *
    grind
  · rw [and_or_low (and_low_mask h (by decide))]
    apply BitVec.eq_of_getLsbD_eq
    intro i hi
    simp only [pteTypePage,BitVec.getLsbD_and,BitVec.getLsbD_or]
    grind

theorem pageOf_inj {d d' : Word} (h : pageOf d = pageOf d') : d = d' := by
  have haddr := congrArg Mapping.frame h
  have hrest := congrArg Mapping.flags h
  apply BitVec.eq_of_getLsbD_eq
  intro i hi
  have h1 := congrArg (·.getLsbD i) haddr
  have h2 := congrArg (·.getLsbD i) hrest
  simp only [pageOf,descAddr,BitVec.getLsbD_and,BitVec.getLsbD_not] at h1 h2
  grind

end Bits

theorem mapCallAt_ranOut {off : Word} {c : MapCall ρ}
    (hr : (mapCallAt A off m c).ranOut = false) : m.ranOut = false := by
  cases c with
  | mapPageVirtual r va pa flags => exact mapPage_ranOut hr
  | mapRegionVirtual r vaStart paStart size flags => exact foldl_mapPage_ranOut hr
  | unmapRegionVirtual r vaStart size => exact (foldl_unmapPage_ranOut _ _ _ _ _).symm.trans hr

theorem exec_mapCallAt_ranOut {off : Word} {cs : List (MapCall ρ)}
    (hr : (exec (mapCallAt A off) m cs).ranOut = false) : m.ranOut = false := by
  induction cs generalizing m with
  | nil => exact hr
  | cons c cs ih => exact mapCallAt_ranOut (ih hr)

section Steps
variable [DecidableEq ρ] {f : PageMap ρ} {off : Word}

theorem Maps.mapPage (h : Maps A m f) {r : ρ} {va pa flags : Word}
    (hl : (MapCall.mapPageVirtual r va pa flags).Legal)
    (hr : (mapCallAt A off m (.mapPageVirtual r va pa flags)).ranOut = false) :
    Maps A (mapCallAt A off m (.mapPageVirtual r va pa flags))
      (MapCall.onMap f (.mapPageVirtual r va pa flags)) := by
  obtain ⟨hpa,hf⟩ := hl
  obtain ⟨hok,hwalk⟩ := mapPage_walk h.ok hr
  refine ⟨hok,fun r' va' => ?_⟩
  have hround := and_not_low_toNat pa
  obtain ⟨hleaf,hpage⟩ := pageOf_desc (w := pa &&& ~~~0xFFF) (by omega) (by omega) hf
  rw [mapCallAt,hwalk]
  by_cases hc : r' = r ∧ pageNumber va' = pageNumber va
  · rw [if_pos hc,hleaf,Option.map_some,hpage]
    exact (if_pos hc).symm
  · rw [if_neg hc,h.walks]
    exact (if_neg hc).symm

theorem Maps.mapRegion (h : Maps A m f) {r : ρ} {vaStart paStart size flags : Word}
    (hl : (MapCall.mapRegionVirtual r vaStart paStart size flags).Legal)
    (hr : (mapCallAt A off m (.mapRegionVirtual r vaStart paStart size flags)).ranOut = false) :
    Maps A (mapCallAt A off m (.mapRegionVirtual r vaStart paStart size flags))
      (MapCall.onMap f (.mapRegionVirtual r vaStart paStart size flags)) := by
  obtain ⟨hsize,hpa,hf⟩ := hl
  obtain ⟨hok,hwalk⟩ := mapPages_walk h.ok (pageTurns_le hsize) hr
  refine ⟨hok,fun r' va' => (congrArg _ (hwalk r' va')).trans ?_⟩
  by_cases hc : r' = r ∧ pageOffset (vaStart &&& ~~~0xFFF) (pageNumber va') < pageTurns size
  · -- the frame of each page of the region is below 2^48
    have hround := and_not_low_toNat paStart
    have hframe : ((paStart &&& ~~~0xFFF) + BitVec.ofNat 64
        (4096 * pageOffset (vaStart &&& ~~~0xFFF) (pageNumber va'))).toNat =
        (paStart.toNat / 4096 + pageOffset (vaStart &&& ~~~0xFFF) (pageNumber va')) * 4096 := by
      rw [BitVec.toNat_add,BitVec.toNat_ofNat,hround]
      omega
    have hpage := Nat.mul_mod_left (paStart.toNat / 4096 +
      pageOffset (vaStart &&& ~~~0xFFF) (pageNumber va')) 4096
    rw [← hframe] at hpage
    obtain ⟨hleaf,hpageOf⟩ := pageOf_desc hpage (by omega) hf
    rw [if_pos hc,and_not_low_of_page hpage,hleaf,Option.map_some,hpageOf]
    exact (if_pos hc).symm
  · rw [if_neg hc,h.walks]
    exact (if_neg hc).symm

theorem Maps.unmapRegion (h : Maps A m f) {r : ρ} {vaStart size : Word}
    (hl : (MapCall.unmapRegionVirtual r vaStart size).Legal) :
    Maps A (mapCallAt A off m (.unmapRegionVirtual r vaStart size))
      (MapCall.onMap f (.unmapRegionVirtual r vaStart size)) := by
  obtain ⟨hok,hwalk⟩ := unmapPages_walk h.ok off r vaStart (pageTurns_le hl)
  refine ⟨hok,fun r' va' => (congrArg _ (hwalk r' va')).trans ?_⟩
  by_cases hc : r' = r ∧ pageOffset vaStart (pageNumber va') < pageTurns size
  · rw [if_pos hc]
    exact (if_pos hc).symm
  · rw [if_neg hc,h.walks]
    exact (if_neg hc).symm

theorem Maps.mapCallAt (h : Maps A m f) {c : MapCall ρ} (hl : c.Legal)
    (hr : (mapCallAt A off m c).ranOut = false) :
    Maps A (mapCallAt A off m c) (MapCall.onMap f c) := by
  cases c with
  | mapPageVirtual r va pa flags => exact h.mapPage hl hr
  | mapRegionVirtual r vaStart paStart size flags => exact h.mapRegion hl hr
  | unmapRegionVirtual r vaStart size => exact h.unmapRegion hl

theorem Maps.execAt (h : Maps A m f) {cs : List (MapCall ρ)} (hl : ∀ c ∈ cs, c.Legal)
    (hr : (exec (Arm64.mapCallAt A off) m cs).ranOut = false) :
    Maps A (exec (Arm64.mapCallAt A off) m cs) (exec MapCall.onMap f cs) := by
  induction cs using List.reverseRecOn with
  | nil => exact h
  | append_singleton cs c ih =>
    rw [exec_snoc] at hr ⊢
    rw [exec_snoc]
    have hcs := ih (fun c hc => hl c (List.mem_append_left _ hc)) (mapCallAt_ranOut hr)
    exact hcs.mapCallAt (hl c (by simp)) hr

theorem Maps.mapCall (h : Maps A m f) {c : MapCall ρ} (hl : c.Legal)
    (hr : (mapCall A m c).ranOut = false) : Maps A (mapCall A m c) (MapCall.onMap f c) := by
  rw [← mapCallAt_virtual] at hr ⊢
  exact h.mapCallAt hl hr

theorem Maps.exec (h : Maps A m f) {cs : List (MapCall ρ)} (hl : ∀ c ∈ cs, c.Legal)
    (hr : (exec (Arm64.mapCall A) m cs).ranOut = false) :
    Maps A (exec (Arm64.mapCall A) m cs) (exec MapCall.onMap f cs) := by
  rw [← mapCallAt_virtual] at hr ⊢
  exact h.execAt hl hr

end Steps

theorem Maps.of_zero (h : ∀ r i, m.mem (A.root r) i = 0) : Maps A m fun _ _ => none where
  ok := tablesOk_of_zero h
  walks r va := by rw [walk_of_zero (h r),Option.map_none]

theorem Maps.walk_other [DecidableEq ρ] {f : PageMap ρ} (h : Maps A m f) {c : MapCall ρ}
    (hl : c.Legal) (hr : (Arm64.mapCall A m c).ranOut = false) {r : ρ} {va : Word}
    (hc : ¬ c.Covers r (pageNumber va)) :
    walk (Arm64.mapCall A m c).mem (A.root r) va = walk m.mem (A.root r) va := by
  have hafter := (h.mapCall hl hr).walks r va
  rw [MapCall.onMap,if_neg hc,← h.walks r va] at hafter
  exact Option.map_injective (fun _ _ => pageOf_inj) hafter

/-- unmap_region_virtual removes what map_region_virtual with the same start and size
mapped, although only the latter rounds the start down. -/
theorem Maps.walk_unmap [DecidableEq ρ] {f : PageMap ρ} (h : Maps A m f) {size : Word}
    (hs : size.toNat < 2 ^ 31) (r r' : ρ) (vaStart paStart flags va : Word) :
    walk (Arm64.mapCall A m (.unmapRegionVirtual r vaStart size)).mem (A.root r') va =
      if (MapCall.mapRegionVirtual r vaStart paStart size flags).Covers r' (pageNumber va) then
        none
      else walk m.mem (A.root r') va := by
  obtain ⟨_,hwalk⟩ := unmapPages_walk h.ok kernelVirtBase r vaStart (pageTurns_le hs)
  refine (hwalk r' va).trans ?_
  simp only [MapCall.Covers,pageOffset_round]

/-- After any calls on zeroed roots, the walk of a page finds what the last call that
covers it left there. -/
theorem tables_implement_map (A : TableArea KernelRoot) (m : Tables)
    (h0 : ∀ r i, m.mem (A.root r) i = 0) (cs : List (MapCall KernelRoot))
    (hl : ∀ c ∈ cs, c.Legal) (hr : (exec (mapCall A) m cs).ranOut = false) :
    let m' := exec (mapCall A) m cs
    (∀ r va, (walk m'.mem (A.root r) va).map pageOf =
      (MapCall.lastOn cs r (pageNumber va)).bind fun c => c.sets (pageNumber va)) ∧
    (∀ c, c.Legal → (mapCall A m' c).ranOut = false → ∀ r va, ¬ c.Covers r (pageNumber va) →
      walk (mapCall A m' c).mem (A.root r) va = walk m'.mem (A.root r) va) ∧
    ∀ r vaStart paStart size flags, size.toNat < 2 ^ 31 → ∀ r' va,
      walk (mapCall A m' (.unmapRegionVirtual r vaStart size)).mem (A.root r') va =
        if (MapCall.mapRegionVirtual r vaStart paStart size flags).Covers r' (pageNumber va) then
          none
        else walk m'.mem (A.root r') va := by
  intro m'
  have h := (Maps.of_zero h0).exec hl hr
  refine ⟨fun r va => ?_,fun c hc hrc r va hn => h.walk_other hc hrc hn,
    fun r vaStart paStart size flags hs r' va => h.walk_unmap hs r r' vaStart paStart flags va⟩
  rw [h.walks,MapCall.exec_onMap]

/-- A region that starts inside a page, and that wraps around to page 0, is taken away
again by the same start and size. -/
theorem tables_implement_map_wrap :
    let cs : List (MapCall KernelRoot) := [.mapPageVirtual .userL1 0 0x7000 pteAf,
      .mapRegionVirtual .kernelL1 0xFFFFF800 0x40800000 0x2000 protNormalMem,
      .unmapRegionVirtual .userL1 0xFFFFF800 0x1000]
    let m' := exec (mapCall testKernelImage.tables) zeroMm.tables cs
    (walk m'.mem (testKernelImage.tables.root .kernelL1) 0x123).map pageOf =
        some ⟨0x40801000,protNormalMem ||| pteTypePage⟩ ∧
      (walk m'.mem (testKernelImage.tables.root .userL1) 0x123).map pageOf =
        some ⟨0x7000,pteAf ||| pteTypePage⟩ ∧
      walk (mapCall testKernelImage.tables m' (.unmapRegionVirtual .kernelL1 0xFFFFF800 0x2000)).mem
        (testKernelImage.tables.root .kernelL1) 0x123 = none := by
  intro cs m'
  obtain ⟨hlast,_,hunmap⟩ := tables_implement_map testKernelImage.tables zeroMm.tables
    (fun _ _ => rfl) cs (by decide) (by decide +kernel)
  refine ⟨?_,?_,?_⟩
  · rw [hlast]
    decide
  · rw [hlast]
    decide
  · rw [hunmap .kernelL1 0xFFFFF800 0x40800000 0x2000 protNormalMem (by decide)]
    decide

end Arm64

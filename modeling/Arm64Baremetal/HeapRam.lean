import Arm64Baremetal.TablesRunOut

/-!
The heap of kernel_mm.c and the physical memory behind it. The byte map has as many pages as
the RAM of mmu.h, counted from _heap_begin on, and knows nothing of the buffer that the kernel
shares with SEEOS.
-/

set_option autoImplicit false

namespace Arm64
open Runs FirstFit

def ramSizeMb : Nat := 512
def ramSizeBytes : Nat := ramSizeMb * 1024 * 1024
def ramEnd : Word := ramBase + BitVec.ofNat 64 ramSizeBytes

/-- The size of the region that kernel_setup_mmu maps at SMEM_BUFFER. -/
def smemSize : Nat := 0x200000

def UsableRam (pa : Word) : Prop :=
  pa.toNat < ramEnd.toNat ∧
    (pa.toNat < smemBuffer.toNat ∨ smemBuffer.toNat + smemSize ≤ pa.toNat)

instance (pa : Word) : Decidable (UsableRam pa) := inferInstanceAs (Decidable (_ ∧ _))

variable (img : KernelImage)

/-- One call, and `none` from where a call does not return. -/
def mmCallTo : Option Heap → MmCall → Option Heap
  | none,_ => none
  | some h,.allocate numPages =>
    (mmAllocatePagesTo img numPages h.mm).map fun r =>
      ⟨r.2,if r.1 = 0 then h.live else (r.1,numPages) :: h.live⟩
  | some h,.free ptr numPages =>
    some ⟨mmFreePages img ptr numPages h.mm,h.live.erase (ptr,numPages)⟩

def FreesLive : Option Heap → MmCall → Prop
  | some h,.free ptr numPages => (ptr,numPages) ∈ h.live
  | _,_ => True

instance : (o : Option Heap) → (c : MmCall) → Decidable (FreesLive o c)
  | some _,.free _ _ => inferInstanceAs (Decidable (_ ∈ _))
  | some _,.allocate _ => inferInstanceAs (Decidable True)
  | none,_ => inferInstanceAs (Decidable True)

def ReturnsRam : Option Heap → MmCall → Prop
  | some h,.allocate numPages => ∀ ptr s, mmAllocatePagesTo img numPages h.mm = some (ptr,s) →
      ptr ≠ 0 → ∀ k < numPages.toNat, UsableRam (vaToPa (ptr + BitVec.ofNat 64 (4096 * k)))
  | _,_ => True

/-- The pages fit below the shared buffer, or nowhere. -/
def Roomy : Option Heap → MmCall → Prop
  | some h,.allocate numPages => numPages = 0 ∨
      (∃ i, FreeRun h.mm numPages.toNat i ∧
        (vaToPa img.heapBegin).toNat + 4096 * (i + numPages.toNat) ≤ smemBuffer.toNat) ∨
      numPages.toNat ≤ maxPages ∧ ∀ i, ¬ FreeRun h.mm numPages.toNat i
  | _,_ => True

structure LowHeap (h : Heap) (runs : List Run) : Prop where
  live : h.live = runs.map fun r => (img.heapVa r.start,BitVec.ofNat 32 r.length)
  allocated : Allocated maxPages (fun i => h.mm.pages i = 1) runs
  bytes : ∀ i, i < maxPages → h.mm.pages i = 0 ∨ h.mm.pages i = 1
  low : ∀ r ∈ runs,
    (vaToPa img.heapBegin).toNat + 4096 * (r.start + r.length) ≤ smemBuffer.toNat

variable {img} {h : Heap} {runs : List Run} {numPages : BitVec 32} {s s' : Mm} {ptr : Word}
  {i : Nat}

theorem mmAllocatePagesTo_none (h0 : numPages ≠ 0) (hs : findPages numPages s = none)
    (hr : mmAllocatePagesTo img numPages s = some (ptr,s')) : ptr = 0 ∧ s'.pages = s.pages := by
  simp only [mmAllocatePagesTo,if_neg h0,hs,Option.some.injEq,Prod.mk.injEq] at hr
  obtain ⟨rfl,rfl⟩ := hr
  exact ⟨rfl,rfl⟩

theorem mmAllocatePagesTo_some (h0 : numPages ≠ 0) (hs : findPages numPages s = some i)
    (hr : mmAllocatePagesTo img numPages s = some (ptr,s')) :
    ptr = img.heapVa i ∧ s'.pages = setRun 1 s.pages i numPages.toNat := by
  have hva : img.heapBegin + BitVec.ofNat 64 (i * 4096) = img.heapVa i := by
    rw [Nat.mul_comm]
    rfl
  simp only [mmAllocatePagesTo,if_neg h0,hs,hva] at hr
  generalize mapPagesTo _ _ _ _ _ _ _ _ = e at hr
  cases e with
  | null m => cases hr
  | returned m =>
    obtain ⟨rfl,rfl⟩ := Prod.mk.inj (Option.some.inj hr)
    exact ⟨rfl,rfl⟩

theorem pos_of_ne_zero (h0 : numPages ≠ 0) : 0 < numPages.toNat :=
  Nat.pos_of_ne_zero fun hz => h0 (BitVec.eq_of_toNat_eq hz)

theorem LowHeap.take (hi : LowHeap img h runs) (h0 : numPages ≠ 0)
    (hfree : FreeRun h.mm numPages.toNat i)
    (hlow : (vaToPa img.heapBegin).toNat + 4096 * (i + numPages.toNat) ≤ smemBuffer.toNat)
    (hpages : s.pages = setRun 1 h.mm.pages i numPages.toNat) :
    LowHeap img ⟨s,(img.heapVa i,numPages) :: h.live⟩ (⟨i,numPages.toNat⟩ :: runs) := by
  have hpos := pos_of_ne_zero h0
  have hbit : ∀ j, s.pages j = if j ∈ Run.mk i numPages.toNat then 1 else h.mm.pages j := by
    intro j
    rw [hpages,setRun_apply]
  refine ⟨by simp [hi.live],?_,fun j hj => ?_,fun r hr => ?_⟩
  · refine hi.allocated.alloc hpos hfree.1 (fun j hj => ?_) fun j _ => ?_
    · rw [hfree.2 j hj]
      decide
    · rw [hbit j]
      split <;> simp [*]
  · rw [hbit]
    split
    · exact .inr rfl
    · exact hi.bytes j hj
  · rcases List.mem_cons.mp hr with rfl | hr
    · exact hlow
    · exact hi.low r hr

theorem LowHeap.free (hi : LowHeap img h runs) (hl : (ptr,numPages) ∈ h.live) :
    ∃ runs', LowHeap img ⟨mmFreePages img ptr numPages h.mm,h.live.erase (ptr,numPages)⟩ runs' := by
  obtain ⟨rs₁,r,rs₂,hruns,rfl,rfl,herase⟩ := live_split hi.live hl
  obtain ⟨hpos,hb⟩ := hi.allocated.bound r (by simp [hruns])
  obtain ⟨hpages,_⟩ := mmFreePages_run img hpos hb h.mm
  have hbit : ∀ j, (mmFreePages img (img.heapVa r.start) (BitVec.ofNat 32 r.length) h.mm).pages j =
      if j ∈ r then 0 else h.mm.pages j := by
    intro j
    rw [hpages,setRun_apply]
  refine ⟨rs₁ ++ rs₂,herase,?_,fun j hj => ?_,fun q hq => hi.low q ?_⟩
  · have halloc := hi.allocated
    rw [hruns] at halloc
    refine halloc.free fun j _ => ?_
    rw [hbit j]
    split <;> simp [*]
  · rw [hbit]
    split
    · exact .inl rfl
    · exact hi.bytes j hj
  · rw [hruns]
    rcases List.mem_append.mp hq with hq | hq
    · exact List.mem_append_left _ hq
    · exact List.mem_append_right _ (List.mem_cons_of_mem _ hq)

theorem mmAllocatePagesTo_take (hpool : img.tables.pool ≠ 0) (h : TablesOk img.tables s.tables)
    (hr : s.tables.ranOut = false) (h0 : numPages ≠ 0) (hs : findPages numPages s = some i)
    (hend : (takePages img i numPages s).2.tables.ranOut = false) :
    mmAllocatePagesTo img numPages s = some (takePages img i numPages s) := by
  have hmap := mapPagesTo_foldl hpool h hr hend
  have hptr : img.rootPtr .kernelL1 = img.tables.root .kernelL1 + kernelVirtBase := rfl
  rw [← hptr] at hmap
  rw [mmAllocatePagesTo,if_neg h0]
  simp only [hs,hmap]
  rfl

theorem mmAllocatePagesTo_found (hpool : img.tables.pool ≠ 0) (h : TablesOk img.tables s.tables)
    (hr : s.tables.ranOut = false) (h0 : numPages ≠ 0) (hs : findPages numPages s = some i)
    (hb : i + numPages.toNat ≤ maxPages) :
    mmAllocatePagesTo img numPages s =
      if missingTables img.tables s.tables .kernelL1 (img.heapVa i) numPages.toNat ≤
        img.tables.slots - s.tables.used then some (takePages img i numPages s) else none := by
  have hpos := pos_of_ne_zero h0
  have hva : img.heapBegin + BitVec.ofNat 64 (i * 4096) = img.heapVa i := by
    rw [Nat.mul_comm]
    rfl
  have hpage := and_not_low_of_page (heapVa_page img (i := i) (by omega))
  have hturns := pageTurns_pages numPages (by omega)
  have hmissing := (mapPages_missing h hr .kernelL1 (img.heapVa i)
    (vaToPa (img.heapVa i) &&& ~~~0xFFF) heapFlags numPages.toNat).1
  by_cases hroom : missingTables img.tables s.tables .kernelL1 (img.heapVa i) numPages.toNat ≤
      img.tables.slots - s.tables.used
  · rw [if_pos hroom]
    refine mmAllocatePagesTo_take hpool h hr h0 hs ?_
    rw [(takePages_spec img i numPages s).2.2,mapRegion,hpage,hturns]
    exact hmissing.mpr hroom
  · rw [if_neg hroom,mmAllocatePagesTo,if_neg h0]
    simp only [hs,hva,hpage,hturns]
    generalize hend : mapPagesTo img.tables kernelVirtBase (img.rootPtr .kernelL1) (img.heapVa i)
      (vaToPa (img.heapVa i) &&& ~~~0xFFF) heapFlags s.tables numPages.toNat = e
    cases e with
    | null m => rfl
    | returned m =>
      obtain ⟨_,hr',hm⟩ := mapPagesTo_returned hpool h hr hend
      exact absurd (hmissing.mp (hm ▸ hr')) hroom

/-- Where it returns, it is the allocator that goes on without tables. -/
theorem mmAllocatePagesTo_eq (hpool : img.tables.pool ≠ 0) (h : TablesOk img.tables s.tables)
    (hr : s.tables.ranOut = false) (hn : numPages.toNat ≤ maxPages) {r : Word × Mm}
    (hs : mmAllocatePagesTo img numPages s = some r) : mmAllocatePages img numPages s = r := by
  by_cases h0 : numPages = 0
  · rw [mmAllocatePagesTo,if_pos h0] at hs
    rw [mmAllocatePages,if_pos h0]
    exact Option.some.inj hs
  · rcases findPages_cases hn s with ⟨i,hi,hfree,_⟩ | ⟨hnone,_⟩
    · rw [mmAllocatePagesTo_found hpool h hr h0 hi hfree.1] at hs
      rw [mmAllocatePages_some h0 hi]
      exact Option.some.inj (Option.ite_none_right_eq_some.mp hs).2
    · rw [mmAllocatePagesTo,if_neg h0] at hs
      rw [mmAllocatePages,if_neg h0]
      simp only [hnone] at hs ⊢
      exact Option.some.inj hs

theorem findPages_least (hn : numPages.toNat ≤ maxPages) (hfree : FreeRun s numPages.toNat i) :
    ∃ a, findPages numPages s = some a ∧ FreeRun s numPages.toNat a ∧
      ∀ l, l < a → ¬ FreeRun s numPages.toNat l := by
  rcases findPages_cases hn s with hsome | ⟨_,hnone⟩
  · exact hsome
  · exact absurd hfree (hnone i)

theorem vaToPa_heapVa_add (img : KernelImage) {i k : Nat} (hk : i + k < maxPages) :
    (vaToPa (img.heapVa i + BitVec.ofNat 64 (4096 * k))).toNat =
      (vaToPa img.heapBegin).toNat + 4096 * (i + k) := by
  rw [heapVa_add,vaToPa_heapVa img hk]

theorem LowHeap.allocate_low (hi : LowHeap img h runs) (h0 : numPages ≠ 0)
    (hfree : FreeRun h.mm numPages.toNat i)
    (hlow : (vaToPa img.heapBegin).toNat + 4096 * (i + numPages.toNat) ≤ smemBuffer.toNat)
    (hr : mmAllocatePagesTo img numPages h.mm = some (ptr,s)) :
    (∃ runs', LowHeap img ⟨s,(ptr,numPages) :: h.live⟩ runs') ∧
      ∀ k < numPages.toNat, UsableRam (vaToPa (ptr + BitVec.ofNat 64 (4096 * k))) := by
  have hb := hfree.1
  obtain ⟨a,ha,hfree',hleast⟩ := findPages_least (by omega) hfree
  have hai : a ≤ i := Nat.le_of_not_lt fun hlt => hleast i hlt hfree
  obtain ⟨rfl,hpages⟩ := mmAllocatePagesTo_some h0 ha hr
  refine ⟨⟨_,hi.take h0 hfree' (by omega) hpages⟩,fun k hk => ?_⟩
  have hpa := vaToPa_heapVa_add img (i := a) (k := k) (by omega)
  have hend : smemBuffer.toNat < ramEnd.toNat := by decide
  exact ⟨by omega,.inl (by omega)⟩

theorem LowHeap.allocate (hi : LowHeap img h runs)
    (hroom : Roomy img (some h) (.allocate numPages)) :
    ReturnsRam img (some h) (.allocate numPages) ∧
      ∀ h', mmCallTo img (some h) (.allocate numPages) = some h' →
        ∃ runs', LowHeap img h' runs' := by
  have hcall : ∀ h', mmCallTo img (some h) (.allocate numPages) = some h' → ∃ ptr s,
      mmAllocatePagesTo img numPages h.mm = some (ptr,s) ∧
        h' = ⟨s,if ptr = 0 then h.live else (ptr,numPages) :: h.live⟩ := by
    intro h' hh'
    obtain ⟨⟨ptr,s⟩,hr,rfl⟩ := Option.map_eq_some_iff.mp hh'
    exact ⟨ptr,s,hr,rfl⟩
  have hsame : ∀ s : Mm, s.pages = h.mm.pages → LowHeap img ⟨s,h.live⟩ runs := fun s hs =>
    ⟨hi.live,by simpa only [hs] using hi.allocated,by simpa only [hs] using hi.bytes,hi.low⟩
  by_cases h0 : numPages = 0
  · subst h0
    have hzero : mmAllocatePagesTo img 0 h.mm = some (0,h.mm) := if_pos rfl
    refine ⟨fun ptr s hr hptr => ?_,fun h' hh' => ?_⟩
    · exact absurd (Prod.mk.inj (Option.some.inj (hzero.symm.trans hr))).1.symm hptr
    · obtain ⟨ptr,s,hr,rfl⟩ := hcall h' hh'
      obtain ⟨rfl,rfl⟩ := Prod.mk.inj (Option.some.inj (hzero.symm.trans hr))
      exact ⟨runs,hsame _ rfl⟩
  rcases hroom.resolve_left h0 with ⟨i,hfree,hlow⟩ | ⟨hn,hnone⟩
  · refine ⟨fun ptr s hr _ => (hi.allocate_low h0 hfree hlow hr).2,fun h' hh' => ?_⟩
    obtain ⟨ptr,s,hr,rfl⟩ := hcall h' hh'
    obtain ⟨a,ha,hfree',_⟩ := findPages_least (by have := hfree.1; omega) hfree
    have hne : ptr ≠ 0 := by
      rw [(mmAllocatePagesTo_some h0 ha hr).1]
      have hpos := pos_of_ne_zero h0
      exact heapVa_ne_zero img (by have := hfree'.1; omega)
    rw [if_neg hne]
    exact (hi.allocate_low h0 hfree hlow hr).1
  · obtain ⟨a,_,hfree,_⟩ | ⟨hs,_⟩ := findPages_cases hn h.mm
    · exact absurd hfree (hnone a)
    refine ⟨fun ptr s hr hptr => absurd (mmAllocatePagesTo_none h0 hs hr).1 hptr,fun h' hh' => ?_⟩
    obtain ⟨ptr,s,hr,rfl⟩ := hcall h' hh'
    obtain ⟨rfl,hpages⟩ := mmAllocatePagesTo_none h0 hs hr
    exact ⟨runs,hsame s hpages⟩

theorem LowHeap.roomy (hi : LowHeap img h runs)
    (hheap : (vaToPa img.heapBegin).toNat < smemBuffer.toNat) (hn : numPages.toNat ≤ maxPages)
    (hsome : (mmAllocatePagesTo img numPages h.mm).isSome)
    (hram : ReturnsRam img (some h) (.allocate numPages)) :
    Roomy img (some h) (.allocate numPages) := by
  by_contra hno
  have h0 : numPages ≠ 0 := fun h0 => hno (.inl h0)
  obtain ⟨⟨a,ha,hfree,hleast⟩⟩ | ⟨_,hnone⟩ := findPages_cases hn h.mm
  · obtain ⟨⟨ptr,s⟩,hr⟩ := Option.isSome_iff_exists.mp hsome
    obtain ⟨rfl,_⟩ := mmAllocatePagesTo_some h0 ha hr
    have hb := hfree.1
    have hpos : 0 < numPages.toNat := pos_of_ne_zero h0
    have hpage := img.heapPage
    have hsmem : smemBuffer.toNat = 0x40800000 := rfl
    have hhigh : smemBuffer.toNat < (vaToPa img.heapBegin).toNat + 4096 * (a + numPages.toNat) := by
      by_contra hle
      exact hno (.inr (.inl ⟨a,hfree,by omega⟩))
    have hram' := hram _ s hr (heapVa_ne_zero img (by omega))
    by_cases hbelow : (vaToPa img.heapBegin).toNat + 4096 * a ≤ smemBuffer.toNat
    · -- the first page of the buffer
      have hk := hram' ((smemBuffer.toNat - (vaToPa img.heapBegin).toNat) / 4096 - a) (by omega)
      have hpa := vaToPa_heapVa_add img (i := a)
        (k := (smemBuffer.toNat - (vaToPa img.heapBegin).toNat) / 4096 - a) (by omega)
      have hsize : smemSize = 0x200000 := rfl
      rcases hk.2 with hk | hk <;> omega
    · -- the page before the run is free too
      have hlast : h.mm.pages (a - 1) = 0 := by
        refine (hi.bytes (a - 1) (by omega)).resolve_right fun hone => ?_
        obtain ⟨r,hr,hmem⟩ := (hi.allocated.used_iff (a - 1) (by omega)).mp hone
        have hlow := hi.low r hr
        have hmem := hmem.2
        omega
      refine hleast (a - 1) (by omega) ⟨by omega,fun j hj => ?_⟩
      by_cases hja : j = a - 1
      · rw [hja]
        exact hlast
      · have hj := mem_run.mp hj
        exact hfree.2 j (mem_run.mpr (by dsimp only at hj ⊢; omega))
  · exact hno (.inr (.inr ⟨hn,hnone⟩))

section Runs

def KeptLow (img : KernelImage) (o : Option Heap) : Prop :=
  ∀ h, o = some h → ∃ runs, LowHeap img h runs

theorem keptLow_step {o : Option Heap} {c : MmCall} (hi : KeptLow img o)
    (hp : FreesLive o c ∧ Roomy img o c) : KeptLow img (mmCallTo img o c) := by
  intro h' hh'
  cases o with
  | none => cases hh'
  | some h =>
    obtain ⟨runs,hi⟩ := hi h rfl
    cases c with
    | allocate numPages => exact (hi.allocate hp.2).2 h' hh'
    | free ptr numPages =>
      obtain rfl := Option.some.inj hh'
      exact hi.free hp.1

theorem returnsRam_of_roomy {o : Option Heap} {c : MmCall} (hi : KeptLow img o)
    (hroom : Roomy img o c) : ReturnsRam img o c := by
  cases o with
  | none => trivial
  | some h =>
    obtain ⟨runs,hi⟩ := hi h rfl
    cases c with
    | allocate numPages => exact (hi.allocate hroom).1
    | free ptr numPages => trivial

def MmCall.Fits : MmCall → Prop
  | .allocate numPages => numPages.toNat ≤ maxPages
  | .free _ _ => True

instance : (c : MmCall) → Decidable c.Fits
  | .allocate _ => inferInstanceAs (Decidable (_ ≤ _))
  | .free _ _ => inferInstanceAs (Decidable True)

theorem roomy_of_returnsRam {o : Option Heap} {c : MmCall}
    (hheap : (vaToPa img.heapBegin).toNat < smemBuffer.toNat) (hi : KeptLow img o) (hfit : c.Fits)
    (hsome : (mmCallTo img o c).isSome) (hram : ReturnsRam img o c) : Roomy img o c := by
  cases o with
  | none => trivial
  | some h =>
    obtain ⟨runs,hi⟩ := hi h rfl
    cases c with
    | allocate numPages =>
      rw [mmCallTo,Option.isSome_map] at hsome
      exact hi.roomy hheap hfit hsome hram
    | free ptr numPages => trivial

theorem exec_none (img : KernelImage) (cs : List MmCall) : exec (mmCallTo img) none cs = none := by
  induction cs with
  | nil => rfl
  | cons c cs ih => exact ih

theorem along_isSome {o : Option Heap} {cs : List MmCall}
    (hsome : (exec (mmCallTo img) o cs).isSome) :
    Along (mmCallTo img) (fun o c => (mmCallTo img o c).isSome) o cs := by
  induction cs generalizing o with
  | nil => trivial
  | cons c cs ih =>
    refine ⟨?_,ih hsome⟩
    rw [exec_cons] at hsome
    cases hc : mmCallTo img o c with
    | some h => exact hc ▸ rfl
    | none =>
      rw [hc,exec_none] at hsome
      cases hsome

end Runs

/-- Every range of a run is usable RAM when each request finds room below the shared buffer,
or no room at all; and where the calls return, only then. -/
theorem heap_ram_iff (img : KernelImage)
    (hheap : (vaToPa img.heapBegin).toNat < smemBuffer.toNat) (s : Mm)
    (hs : ∀ i, i < maxPages → s.pages i = 0) (cs : List MmCall)
    (hl : Along (mmCallTo img) FreesLive (some ⟨s,[]⟩) cs) :
    (Along (mmCallTo img) (Roomy img) (some ⟨s,[]⟩) cs →
      Along (mmCallTo img) (ReturnsRam img) (some ⟨s,[]⟩) cs) ∧
    ((∀ c ∈ cs, c.Fits) → (exec (mmCallTo img) (some ⟨s,[]⟩) cs).isSome →
      Along (mmCallTo img) (ReturnsRam img) (some ⟨s,[]⟩) cs →
        Along (mmCallTo img) (Roomy img) (some ⟨s,[]⟩) cs) := by
  have hstart : KeptLow img (some ⟨s,[]⟩) := by
    intro h hh
    obtain rfl := Option.some.inj hh
    exact ⟨[],rfl,allocated_nil fun i hi => by simp [hs i hi],fun i hi => .inl (hs i hi),nofun⟩
  refine ⟨fun hroom => ?_,fun hfit hsome hram => ?_⟩
  · exact Along.of_invariant (I := KeptLow img) (fun _ _ => keptLow_step)
      (fun _ _ hi hp => returnsRam_of_roomy hi hp.2) hstart (hl.and hroom)
  · have hp := (hl.and hram).and ((along_of_mem (mmCallTo img) _ hfit).and (along_isSome hsome))
    have hroom : ∀ o c, KeptLow img o → ((FreesLive o c ∧ ReturnsRam img o c) ∧
        c.Fits ∧ (mmCallTo img o c).isSome) → Roomy img o c := fun o c hi hp =>
      roomy_of_returnsRam hheap hi hp.2.1 hp.2.2 hp.1.2
    exact Along.of_invariant (I := KeptLow img)
      (fun o c hi hp => keptLow_step hi ⟨hp.1.1,hroom o c hi hp⟩) hroom hstart hp

theorem roomy_of_zero (i : Nat) {o : Option Heap}
    (hb : i + numPages.toNat ≤ maxPages)
    (hlow : (vaToPa img.heapBegin).toNat + 4096 * (i + numPages.toNat) ≤ smemBuffer.toNat)
    (hz : o.all (fun h => (List.range numPages.toNat).all
      fun j => h.mm.pages (i + j) == 0) = true) :
    Roomy img o (.allocate numPages) := by
  cases o with
  | none => trivial
  | some h =>
    refine .inr (.inl ⟨i,⟨hb,fun j hj => ?_⟩,hlow⟩)
    obtain ⟨hle,hlt⟩ := mem_run.mp hj
    obtain ⟨k,rfl⟩ := Nat.exists_eq_add_of_le hle
    simp only [Option.all_some,List.all_eq_true,List.mem_range,beq_iff_eq] at hz
    exact hz k (Nat.lt_of_add_lt_add_left hlt)

theorem heap_ram_iff_stack :
    let cs : List MmCall := [.allocate 3,.allocate 2,.free 0xFFFFFFFF40500000 3,.allocate 1,
      .allocate 4]
    Along (mmCallTo testKernelImage) (ReturnsRam testKernelImage) (some ⟨zeroMm,[]⟩) cs ∧
      Along (mmCallTo testKernelImage) (Roomy testKernelImage) (some ⟨zeroMm,[]⟩) cs ∧
      (exec (mmCallTo testKernelImage) (some ⟨zeroMm,[]⟩) cs).map Heap.live =
        some [(0xFFFFFFFF40505000,4),(0xFFFFFFFF40500000,1),(0xFFFFFFFF40503000,2)] := by
  intro cs
  have hpages : ∀ i, i < maxPages → zeroMm.pages i = 0 := fun _ _ => rfl
  have hheap : (vaToPa testKernelImage.heapBegin).toNat < smemBuffer.toNat := by decide
  have hlive : Along (mmCallTo testKernelImage) FreesLive (some ⟨zeroMm,[]⟩) cs := by
    decide +kernel
  obtain ⟨hram,hroom⟩ := heap_ram_iff testKernelImage hheap zeroMm hpages cs hlive
  have hfits : ∀ c ∈ cs, c.Fits := by decide
  have hsome : (exec (mmCallTo testKernelImage) (some ⟨zeroMm,[]⟩) cs).isSome := by decide +kernel
  have hreturns := hram ⟨roomy_of_zero 0 (by decide) (by decide) (by decide +kernel),
    roomy_of_zero 3 (by decide) (by decide) (by decide +kernel),trivial,
    roomy_of_zero 0 (by decide) (by decide) (by decide +kernel),
    roomy_of_zero 5 (by decide) (by decide) (by decide +kernel),trivial⟩
  exact ⟨hreturns,hroom hfits hsome hreturns,by decide +kernel⟩

/-- 769 pages from 0x40500000 on reach into the shared buffer. -/
theorem heap_reaches_buffer :
    ramBase.toNat < (vaToPa testKernelImage.heapBegin).toNat ∧
      (vaToPa testKernelImage.heapBegin).toNat < smemBuffer.toNat ∧
      Along (mmCallTo testKernelImage) FreesLive (some ⟨zeroMm,[]⟩) [.allocate 769] ∧
      (∃ s, mmAllocatePagesTo testKernelImage 769 zeroMm = some (0xFFFFFFFF40500000,s)) ∧
      vaToPa (0xFFFFFFFF40500000 + BitVec.ofNat 64 (4096 * 768)) = smemBuffer ∧
      ¬ Along (mmCallTo testKernelImage) (ReturnsRam testKernelImage) (some ⟨zeroMm,[]⟩)
        [.allocate 769] := by
  have hok : TablesOk testKernelImage.tables zeroMm.tables := tablesOk_of_zero fun _ _ => rfl
  obtain ⟨a,ha,_,hleast⟩ := @findPages_least 769 zeroMm 0 (by decide) ⟨by decide,fun _ _ => rfl⟩
  obtain rfl : a = 0 := Nat.eq_zero_of_not_pos fun hpos =>
    hleast 0 hpos ⟨by decide,fun _ _ => rfl⟩
  have htakes := @mapPages_takes _ testKernelImage.tables zeroMm.tables _ hok rfl kernelVirtBase
    .kernelL1 (0xFFFFFFFF40500000 &&& ~~~0xFFF) (vaToPa 0xFFFFFFFF40500000 &&& ~~~0xFFF)
    heapFlags 768 (by decide) (by decide)
  have hcall := mmAllocatePagesTo_take (by decide) hok rfl (by decide) ha htakes.2
  have hpa : vaToPa (0xFFFFFFFF40500000 + BitVec.ofNat 64 (4096 * 768)) = smemBuffer := by decide
  refine ⟨by decide,by decide,⟨trivial,trivial⟩,⟨_,hcall⟩,hpa,fun h => ?_⟩
  have hbad := h.1 _ _ hcall (by decide) 768 (by decide)
  exact absurd (hpa ▸ hbad) (by decide)

end Arm64

import Arm64Baremetal.FirstFit
import Arm64Baremetal.PageTree
import Arm64Baremetal.Runs

set_option autoImplicit false

namespace Arm64
open Runs FirstFit

abbrev maxPages : Nat := 131072

def pageSize32 : BitVec 32 := 4096

inductive KernelRoot where
  | kernelL1 | userL1
  deriving DecidableEq

/-- What the linker decides: where the tables are, and the heap, which is mapped at
KERNEL_VIRT_BASE above its physical address. -/
structure KernelImage where
  tables : TableArea KernelRoot
  slots : tables.slots = 32
  heapBegin : Word
  heapPage : (vaToPa heapBegin).toNat % 4096 = 0
  heapLow : (vaToPa heapBegin).toNat + 4096 * maxPages ≤ 2 ^ 32

/-- The pointer to a root, with the MMU on. -/
def KernelImage.rootPtr (img : KernelImage) (r : KernelRoot) : Word :=
  img.tables.root r + kernelVirtBase

/-- Calls that leave the allocator, newest first. -/
inductive MmIo where
  | printf (fmt : String) (arg : BitVec 32)
  | memZero (ptr size : Word)
  | tlbFlushPage (va : Word)
  deriving DecidableEq

/-- `uint8_t pages[MAX_PAGES]`, which is only accessed below MAX_PAGES, and the tables. -/
structure Mm where
  pages : Nat → BitVec 8
  tables : Tables
  io : List MmIo

def Mm.emit (i : MmIo) (s : Mm) : Mm := { s with io := i :: s.io }

def heapFlags : Word := protNormalMem ||| apEl0NoElxRw ||| ptePxn ||| pteUxn

/-- The last `i` of the scan: the int is compared with the unsigned MAX_PAGES - num_pages. -/
def lastStart (numPages : BitVec 32) : Nat := (BitVec.ofNat 32 maxPages - numPages).toNat

def findPages (numPages : BitVec 32) (s : Mm) : Option Nat :=
  search (fun i => s.pages i = 0) numPages.toNat 0 (lastStart numPages + 1)

variable (img : KernelImage)

def takePages (i : Nat) (numPages : BitVec 32) (s : Mm) : Word × Mm :=
  let ptr := img.heapBegin + BitVec.ofNat 64 (i * 4096)
  let size := (numPages * pageSize32).setWidth 64
  (ptr,{ s with
    pages := setRun 1 s.pages i numPages.toNat
    tables := mapRegion img.tables kernelVirtBase (img.rootPtr .kernelL1) ptr (vaToPa ptr) size
      heapFlags s.tables })

def mmAllocatePages (numPages : BitVec 32) (s : Mm) : Word × Mm :=
  if numPages = 0 then (0,s)
  else
    match findPages numPages s with
    | some i => takePages img i numPages s
    | none => (0,s.emit (.printf "[MM] ERROR: No contiguous block of %d pages found!\n" numPages))

def mmFreePages (ptr : Word) (numPages : BitVec 32) (s : Mm) : Mm :=
  if ptr = 0 then s
  else
    let index := ((ptr - img.heapBegin) / 4096).toNat
    let size := (numPages * pageSize32).setWidth 64
    let s := s.emit (.memZero ptr size)
    let s := { s with
      pages := setRun 0 s.pages index numPages.toNat
      tables := unmapRegion kernelVirtBase (img.rootPtr .kernelL1) ptr size s.tables }
    (List.range numPages.toNat).foldl (fun s i =>
      s.emit (.tlbFlushPage (ptr + (BitVec.ofNat 32 i * pageSize32).setWidth 64))) s

structure Heap where
  mm : Mm
  live : List (Word × BitVec 32)

inductive MmCall where
  | allocate (numPages : BitVec 32)
  | free (ptr : Word) (numPages : BitVec 32)
  deriving DecidableEq

def mmCall (h : Heap) : MmCall → Heap
  | .allocate numPages =>
    let r := mmAllocatePages img numPages h.mm
    { mm := r.2, live := if r.1 = 0 then h.live else (r.1,numPages) :: h.live }
  | .free ptr numPages =>
    { mm := mmFreePages img ptr numPages h.mm, live := h.live.erase (ptr,numPages) }

def MmLegal (h : Heap) : MmCall → Prop
  | .allocate numPages => 1 ≤ numPages.toNat ∧ numPages.toNat ≤ maxPages
  | .free ptr numPages => (ptr,numPages) ∈ h.live

instance (h : Heap) : (c : MmCall) → Decidable (MmLegal h c)
  | .allocate _ => inferInstanceAs (Decidable (_ ∧ _))
  | .free _ _ => inferInstanceAs (Decidable (_ ∈ _))

def KernelImage.heapVa (i : Nat) : Word := img.heapBegin + BitVec.ofNat 64 (4096 * i)

def KernelImage.heapDesc (i : Nat) : Word := vaToPa (img.heapVa i) ||| heapFlags ||| pteTypePage

def KernelImage.heapNumber : Nat := pageNumber img.heapBegin

def KernelImage.kernelWalk (s : Mm) (va : Word) : Option Word :=
  walk s.tables.mem (img.tables.root .kernelL1) va

def KernelImage.userWalk (s : Mm) (va : Word) : Option Word :=
  walk s.tables.mem (img.tables.root .userL1) va

variable {img}

theorem toNat_heapBegin (img : KernelImage) :
    img.heapBegin.toNat = kernelVirtBase.toNat + (vaToPa img.heapBegin).toNat := by
  have h : img.heapBegin = vaToPa img.heapBegin + kernelVirtBase :=
    (BitVec.sub_add_cancel _ _).symm
  have hlow : (vaToPa img.heapBegin).toNat + 4096 * 131072 ≤ 2 ^ 32 := img.heapLow
  have hk : kernelVirtBase.toNat = 0xFFFFFFFF00000000 := rfl
  conv_lhs => rw [h,BitVec.toNat_add]
  omega

theorem heapNumber_eq (img : KernelImage) :
    img.heapNumber = (vaToPa img.heapBegin).toNat / 4096 := by
  have h := toNat_heapBegin img
  have hlow := img.heapLow
  have hk : kernelVirtBase.toNat = 0xFFFFFFFF00000000 := rfl
  unfold KernelImage.heapNumber pageNumber
  omega

theorem heapNumber_le (img : KernelImage) : img.heapNumber + maxPages ≤ 2 ^ 20 := by
  have h := heapNumber_eq img
  have hp := img.heapPage
  have hlow := img.heapLow
  omega

theorem vaToPa_heapVa (img : KernelImage) {i : Nat} (hi : i < maxPages) :
    (vaToPa (img.heapVa i)).toNat = (vaToPa img.heapBegin).toNat + 4096 * i := by
  have hlow := img.heapLow
  have h : vaToPa (img.heapVa i) = vaToPa img.heapBegin + BitVec.ofNat 64 (4096 * i) := by
    simp only [vaToPa,KernelImage.heapVa,BitVec.sub_eq_add_neg]
    ac_rfl
  rw [h,BitVec.toNat_add,BitVec.toNat_ofNat]
  omega

theorem toNat_heapVa (img : KernelImage) {i : Nat} (hi : i < maxPages) :
    (img.heapVa i).toNat = img.heapBegin.toNat + 4096 * i := by
  have h := toNat_heapBegin img
  have hlow := img.heapLow
  have hk : kernelVirtBase.toNat = 0xFFFFFFFF00000000 := rfl
  rw [KernelImage.heapVa,BitVec.toNat_add,BitVec.toNat_ofNat]
  omega

theorem pageNumber_heapVa (img : KernelImage) {i : Nat} (hi : i < maxPages) :
    pageNumber (img.heapVa i) = img.heapNumber + i := by
  have := heapNumber_le img
  refine (pageNumber_add img.heapBegin i).trans ?_
  exact Nat.mod_eq_of_lt (by rw [← KernelImage.heapNumber]; omega)

theorem heapVa_ne_zero (img : KernelImage) {i : Nat} (hi : i < maxPages) : img.heapVa i ≠ 0 := by
  intro h
  have h1 := toNat_heapVa img hi
  have h2 := toNat_heapBegin img
  have hk : kernelVirtBase.toNat = 0xFFFFFFFF00000000 := rfl
  rw [h] at h1
  simp at h1
  omega

theorem heapDesc_spec (img : KernelImage) {i : Nat} (hi : i < maxPages) :
    descAddr (img.heapDesc i) = vaToPa (img.heapVa i) ∧ El0Denied (img.heapDesc i) ∧
    img.heapDesc i &&& ptePxn = ptePxn ∧ img.heapDesc i &&& pteUxn = pteUxn ∧
    leafOf (img.heapDesc i) = some (img.heapDesc i) := by
  have hpa := vaToPa_heapVa img hi
  have hpage := img.heapPage
  have hlow := img.heapLow
  have hmod : (vaToPa (img.heapVa i)).toNat % 4096 = 0 := by omega
  have h48 : (vaToPa (img.heapVa i)).toNat < 2 ^ 48 := by omega
  have hpxn : vaToPa (img.heapVa i) &&& ptePxn = 0 := and_high_mask h48 (by decide)
  have huxn : vaToPa (img.heapVa i) &&& pteUxn = 0 := and_high_mask h48 (by decide)
  rw [KernelImage.heapDesc,BitVec.or_assoc]
  refine ⟨descAddr_or hmod h48 (by decide),?_,?_,?_,if_pos ?_⟩
  · exact (and_or_low (and_low_mask hmod (by decide))).trans (by decide)
  · exact (and_or_low hpxn).trans (by decide)
  · exact (and_or_low huxn).trans (by decide)
  · exact (and_or_low (and_low_mask hmod (by decide))).trans (by decide)

theorem heapVa_page (img : KernelImage) {i : Nat} (hi : i < maxPages) :
    (img.heapVa i).toNat % 4096 = 0 := by
  have h1 := toNat_heapVa img hi
  have h2 := toNat_heapBegin img
  have h3 := img.heapPage
  have hk : kernelVirtBase.toNat = 0xFFFFFFFF00000000 := rfl
  omega

theorem pageTurns_pages (numPages : BitVec 32) (hn : numPages.toNat ≤ maxPages) :
    pageTurns ((numPages * pageSize32).setWidth 64) = numPages.toNat := by
  have h : pageSize32.toNat = 4096 := rfl
  have hn : numPages.toNat ≤ 131072 := hn
  rw [pageTurns,BitVec.toNat_setWidth,BitVec.toNat_mul,h]
  omega

theorem heapVa_add (img : KernelImage) (i k : Nat) :
    img.heapVa i + BitVec.ofNat 64 (4096 * k) = img.heapVa (i + k) := by
  rw [KernelImage.heapVa,KernelImage.heapVa,Nat.mul_add,BitVec.ofNat_add,BitVec.add_assoc]

theorem heapDesc_add (img : KernelImage) {i k : Nat} (hi : i + k < maxPages) :
    (vaToPa (img.heapVa i) + BitVec.ofNat 64 (4096 * k)) &&& ~~~0xFFF ||| heapFlags |||
      pteTypePage = img.heapDesc (i + k) := by
  have h : vaToPa (img.heapVa i) + BitVec.ofNat 64 (4096 * k) = vaToPa (img.heapVa (i + k)) := by
    rw [← heapVa_add]
    simp only [vaToPa,BitVec.sub_eq_add_neg]
    ac_rfl
  have hpage := img.heapPage
  have hpa := vaToPa_heapVa img hi
  rw [h,and_not_low_of_page (by omega)]
  rfl

theorem mapRegion_heap {m : Tables} (h : TablesOk img.tables m) {i : Nat} {numPages : BitVec 32}
    (hn : 1 ≤ numPages.toNat) (hb : i + numPages.toNat ≤ maxPages) :
    let m' := mapRegion img.tables kernelVirtBase (img.rootPtr .kernelL1) (img.heapVa i)
      (vaToPa (img.heapVa i)) ((numPages * pageSize32).setWidth 64) heapFlags m
    m'.ranOut = false → TablesOk img.tables m' ∧ ∀ r va,
      walk m'.mem (img.tables.root r) va =
        if r = .kernelL1 ∧ img.heapNumber + i ≤ pageNumber va ∧
            pageNumber va < img.heapNumber + i + numPages.toNat then
          some (img.heapDesc (pageNumber va - img.heapNumber))
        else walk m.mem (img.tables.root r) va := by
  intro m' hr
  have hpage := img.heapPage
  have hpa := vaToPa_heapVa img (i := i) (by omega)
  have hle := heapNumber_le img
  have hnum := pageNumber_heapVa img (i := i) (by omega)
  simp only [m',mapRegion,and_not_low_of_page (heapVa_page img (i := i) (by omega)),
    and_not_low_of_page (w := vaToPa (img.heapVa i)) (by omega),
    pageTurns_pages numPages (by omega)] at hr ⊢
  have hlast : pageNumber (img.heapVa i) + numPages.toNat ≤ 2 ^ 20 := by omega
  obtain ⟨hok,hwalk⟩ := mapPages_walk h (n := numPages.toNat) (by omega) hr
  refine ⟨hok,fun r va => ?_⟩
  refine (hwalk r va).trans ?_
  simp only [@pageOffset_lt_iff _ _ _ (pageNumber_lt va) hlast,hnum]
  split
  · rename_i hva
    rw [pageOffset_of_le (pageNumber_lt va) (by omega),hnum,heapDesc_add img (by omega)]
    have hk : i + (pageNumber va - (img.heapNumber + i)) = pageNumber va - img.heapNumber := by
      omega
    rw [hk]
    exact (heapDesc_spec img (by omega)).2.2.2.2
  · rfl

theorem unmapRegion_heap {m : Tables} (h : TablesOk img.tables m) {i : Nat}
    (numPages : BitVec 32) (hn : 1 ≤ numPages.toNat) (hb : i + numPages.toNat ≤ maxPages) :
    let m' := unmapRegion kernelVirtBase (img.rootPtr .kernelL1) (img.heapVa i)
      ((numPages * pageSize32).setWidth 64) m
    TablesOk img.tables m' ∧ ∀ r va, walk m'.mem (img.tables.root r) va =
      if r = .kernelL1 ∧ img.heapNumber + i ≤ pageNumber va ∧
          pageNumber va < img.heapNumber + i + numPages.toNat then none
      else walk m.mem (img.tables.root r) va := by
  intro m'
  have hle := heapNumber_le img
  have hnum := pageNumber_heapVa img (i := i) (by omega)
  simp only [m',unmapRegion,pageTurns_pages numPages (by omega)]
  have hlast : pageNumber (img.heapVa i) + numPages.toNat ≤ 2 ^ 20 := by omega
  obtain ⟨hok,hwalk⟩ := unmapPages_walk h kernelVirtBase .kernelL1 (img.heapVa i)
    (n := numPages.toNat) (by omega)
  refine ⟨hok,fun r va => ?_⟩
  refine (hwalk r va).trans ?_
  simp only [@pageOffset_lt_iff _ _ _ (pageNumber_lt va) hlast,hnum]

def FreeRun (s : Mm) (n i : Nat) : Prop := i + n ≤ maxPages ∧ ∀ j ∈ Run.mk i n, s.pages j = 0

theorem lastStart_eq {numPages : BitVec 32} (hn : numPages.toNat ≤ maxPages) :
    lastStart numPages = maxPages - numPages.toNat := by
  have hle : numPages ≤ BitVec.ofNat 32 maxPages := hn
  exact BitVec.toNat_sub_of_le hle

theorem findPages_cases {numPages : BitVec 32} (hn : numPages.toNat ≤ maxPages) (s : Mm) :
    (∃ i, findPages numPages s = some i ∧ FreeRun s numPages.toNat i ∧
      ∀ l, l < i → ¬ FreeRun s numPages.toNat l) ∨
    findPages numPages s = none ∧ ∀ l, ¬ FreeRun s numPages.toNat l := by
  have hlast := lastStart_eq hn
  have hfree : ∀ l, FreeRun s numPages.toNat l →
      isFree (fun i => s.pages i = 0) l numPages.toNat = true := by
    intro l hl
    rw [isFree_iff]
    exact fun j hj => decide_eq_true (hl.2 j hj)
  cases hs : findPages numPages s with
  | some i =>
    obtain ⟨hi,hrun,hleast⟩ := search_eq_some _ hs
    rw [isFree_iff] at hrun
    refine .inl ⟨i,rfl,⟨by omega,fun j hj => of_decide_eq_true (hrun j hj)⟩,fun l hl hl' => ?_⟩
    exact Bool.noConfusion ((hfree l hl').symm.trans (hleast l (Nat.zero_le l) hl))
  | none =>
    refine .inr ⟨rfl,fun l hl => ?_⟩
    have hlt : l < 0 + (lastStart numPages + 1) := by
      have := hl.1
      omega
    exact Bool.noConfusion ((hfree l hl).symm.trans (search_eq_none _ hs l (Nat.zero_le l) hlt))

theorem mmAllocatePages_some {numPages : BitVec 32} {s : Mm} {i : Nat} (h0 : numPages ≠ 0)
    (hs : findPages numPages s = some i) :
    mmAllocatePages img numPages s = takePages img i numPages s := by
  rw [mmAllocatePages,if_neg h0,hs]

theorem mmAllocatePages_none (img : KernelImage) {numPages : BitVec 32} {s : Mm} (h0 : numPages ≠ 0)
    (hs : findPages numPages s = none) : (mmAllocatePages img numPages s).1 = 0 ∧
    (mmAllocatePages img numPages s).2.pages = s.pages ∧
    (mmAllocatePages img numPages s).2.tables = s.tables := by
  rw [mmAllocatePages,if_neg h0,hs]
  exact ⟨rfl,rfl,rfl⟩

theorem takePages_spec (img : KernelImage) (i : Nat) (numPages : BitVec 32) (s : Mm) :
    (takePages img i numPages s).1 = img.heapVa i ∧
    (takePages img i numPages s).2.pages = setRun 1 s.pages i numPages.toNat ∧
    (takePages img i numPages s).2.tables = mapRegion img.tables kernelVirtBase
      (img.rootPtr .kernelL1) (img.heapVa i) (vaToPa (img.heapVa i))
      ((numPages * pageSize32).setWidth 64) heapFlags s.tables := by
  rw [KernelImage.heapVa,Nat.mul_comm]
  exact ⟨rfl,rfl,rfl⟩

theorem ne_zero_of_pos {numPages : BitVec 32} (h1 : 1 ≤ numPages.toNat) : numPages ≠ 0 := by
  rintro rfl
  simp at h1

theorem mmAllocatePages_fst {numPages : BitVec 32} (h1 : 1 ≤ numPages.toNat)
    (hn : numPages.toNat ≤ maxPages) (s : Mm) :
    ((mmAllocatePages img numPages s).1 = 0 ↔ ∀ i, ¬ FreeRun s numPages.toNat i) ∧
    ∀ i, FreeRun s numPages.toNat i → (∀ l, l < i → ¬ FreeRun s numPages.toNat l) →
      (mmAllocatePages img numPages s).1 = img.heapVa i := by
  have h0 := ne_zero_of_pos h1
  rcases findPages_cases hn s with ⟨i,hs,hfree,hleast⟩ | ⟨hs,hnone⟩
  · rw [mmAllocatePages_some h0 hs,(takePages_spec img i numPages s).1]
    refine ⟨⟨fun hz => ?_,fun hz => absurd hfree (hz i)⟩,fun l hl hl' => ?_⟩
    · have hb := hfree.1
      exact absurd hz (heapVa_ne_zero img (by omega))
    · have hil : ¬ i < l := fun hlt => hl' i hlt hfree
      have hli : ¬ l < i := fun hlt => hleast l hlt hl
      rw [show l = i by omega]
  · rw [(mmAllocatePages_none img h0 hs).1]
    exact ⟨⟨fun _ => hnone,fun _ => rfl⟩,fun l hl => absurd hl (hnone l)⟩

/-- The heap: `runs` are the live allocations, the byte map marks their pages, and these
are the heap pages that are mapped. -/
structure HeapInv (img : KernelImage) (s₀ : Mm) (h : Heap) (runs : List Run) : Prop where
  live : h.live = runs.map fun r => (img.heapVa r.start,BitVec.ofNat 32 r.length)
  allocated : Allocated maxPages (fun i => h.mm.pages i = 1) runs
  bytes : ∀ i, i < maxPages → h.mm.pages i = 0 ∨ h.mm.pages i = 1
  tables : TablesOk img.tables h.mm.tables
  mapped : ∀ va i, i < maxPages → pageNumber va = img.heapNumber + i →
    img.kernelWalk h.mm va = if h.mm.pages i = 1 then some (img.heapDesc i) else none
  outside : ∀ va, (∀ i, i < maxPages → pageNumber va ≠ img.heapNumber + i) →
    img.kernelWalk h.mm va = img.kernelWalk s₀ va
  user : ∀ va, img.userWalk h.mm va = img.userWalk s₀ va

variable {s₀ : Mm} {h : Heap} {runs : List Run}

theorem mmAllocatePages_ranOut {numPages : BitVec 32} {s : Mm}
    (hr : (mmAllocatePages img numPages s).2.tables.ranOut = false) : s.tables.ranOut = false := by
  by_cases h0 : numPages = 0
  · rwa [mmAllocatePages,if_pos h0] at hr
  · cases hs : findPages numPages s with
    | some i =>
      rw [mmAllocatePages_some h0 hs,(takePages_spec img i numPages s).2.2] at hr
      exact foldl_mapPage_ranOut hr
    | none => rwa [(mmAllocatePages_none img h0 hs).2.2] at hr

theorem foldl_emit (f : Nat → MmIo) (s : Mm) (is : List Nat) :
    (is.foldl (fun s i => s.emit (f i)) s).pages = s.pages ∧
    (is.foldl (fun s i => s.emit (f i)) s).tables = s.tables := by
  induction is generalizing s with
  | nil => exact ⟨rfl,rfl⟩
  | cons i is ih => exact ih (s.emit (f i))

/-- The bytes of a run are set to `b`, and its pages are mapped or unmapped with them. -/
theorem HeapInv.update (hi : HeapInv img s₀ h runs) {s : Mm} {r : Run} {b : BitVec 8}
    {live : List (Word × BitVec 32)} {runs' : List Run} (hb : b = 0 ∨ b = 1)
    (hr : r.start + r.length ≤ maxPages)
    (hpages : s.pages = setRun b h.mm.pages r.start r.length)
    (hok : TablesOk img.tables s.tables)
    (hwalk : ∀ root va, walk s.tables.mem (img.tables.root root) va =
      if root = .kernelL1 ∧ img.heapNumber + r.start ≤ pageNumber va ∧
          pageNumber va < img.heapNumber + r.start + r.length then
        if b = 1 then some (img.heapDesc (pageNumber va - img.heapNumber)) else none
      else walk h.mm.tables.mem (img.tables.root root) va)
    (hlive : live = runs'.map fun r => (img.heapVa r.start,BitVec.ofNat 32 r.length))
    (hrun : (∀ i, i < maxPages → (s.pages i = 1 ↔ if i ∈ r then b = 1 else h.mm.pages i = 1)) →
      Allocated maxPages (fun i => s.pages i = 1) runs') :
    HeapInv img s₀ ⟨s,live⟩ runs' := by
  have hbit : ∀ j, s.pages j = if j ∈ r then b else h.mm.pages j := by
    intro j
    rw [hpages,setRun_apply]
  refine ⟨hlive,hrun fun j _ => ?_,fun j hj => ?_,hok,fun va j hj hva => ?_,fun va hout => ?_,
    fun va => ?_⟩
  · rw [hbit]
    split <;> rfl
  · rw [hbit]
    split
    · exact hb
    · exact hi.bytes j hj
  · refine (hwalk .kernelL1 va).trans ?_
    rw [hbit]
    by_cases hin : j ∈ r
    · have hin' := mem_run.mp hin
      rw [if_pos ⟨rfl,by omega,by omega⟩,if_pos hin,hva,Nat.add_sub_cancel_left]
    · have hin' : ¬ (r.start ≤ j ∧ j < r.start + r.length) := hin
      rw [if_neg (fun hc => hin' (by omega)),if_neg hin]
      exact hi.mapped va j hj hva
  · refine (hwalk .kernelL1 va).trans ?_
    rw [if_neg]
    · exact hi.outside va hout
    · rintro ⟨_,hlo,hhi⟩
      exact hout (pageNumber va - img.heapNumber) (by omega) (by omega)
  · exact ((hwalk .userL1 va).trans (if_neg nofun)).trans (hi.user va)

theorem HeapInv.take (hi : HeapInv img s₀ h runs) {numPages : BitVec 32}
    (h1 : 1 ≤ numPages.toNat) {i : Nat} (hfree : FreeRun h.mm numPages.toNat i) {s : Mm}
    (hpages : s.pages = setRun 1 h.mm.pages i numPages.toNat)
    (htables : s.tables = mapRegion img.tables kernelVirtBase (img.rootPtr .kernelL1)
      (img.heapVa i) (vaToPa (img.heapVa i)) ((numPages * pageSize32).setWidth 64) heapFlags
      h.mm.tables)
    (hr : s.tables.ranOut = false) :
    HeapInv img s₀ ⟨s,(img.heapVa i,numPages) :: h.live⟩ (⟨i,numPages.toNat⟩ :: runs) := by
  have hb := hfree.1
  rw [htables] at hr
  obtain ⟨hok,hwalk⟩ := mapRegion_heap hi.tables h1 hb hr
  rw [← htables] at hok hwalk
  refine hi.update (r := ⟨i,numPages.toNat⟩) (.inr rfl) hb hpages hok hwalk ?_ fun hbit => ?_
  · simp [hi.live]
  · refine hi.allocated.alloc h1 hb (fun j hj => ?_) fun j hj => ?_
    · simp [hfree.2 j hj]
    · rw [hbit j hj]
      split <;> simp [*]

theorem HeapInv.allocate (hi : HeapInv img s₀ h runs) {numPages : BitVec 32}
    (h1 : 1 ≤ numPages.toNat) (hn : numPages.toNat ≤ maxPages)
    (hr : (mmAllocatePages img numPages h.mm).2.tables.ranOut = false) :
    ∃ runs', HeapInv img s₀ (mmCall img h (.allocate numPages)) runs' := by
  have h0 := ne_zero_of_pos h1
  unfold mmCall
  dsimp only
  rcases findPages_cases hn h.mm with ⟨i,hs,hfree,_⟩ | ⟨hs,_⟩
  · have hb := hfree.1
    obtain ⟨hva,hpages,htables⟩ := takePages_spec img i numPages h.mm
    rw [mmAllocatePages_some h0 hs] at hr ⊢
    rw [hva,if_neg (heapVa_ne_zero img (by omega))]
    exact ⟨_,hi.take h1 hfree hpages htables hr⟩
  · obtain ⟨hva,hpages,htables⟩ := mmAllocatePages_none img h0 hs
    rw [if_pos hva]
    generalize (mmAllocatePages img numPages h.mm).2 = s at hpages htables
    refine ⟨runs,hi.live,?_,?_,?_,?_,?_,?_⟩
    all_goals
      simp only [KernelImage.kernelWalk,KernelImage.userWalk,hpages,htables]
    · exact hi.allocated
    · exact hi.bytes
    · exact hi.tables
    · exact hi.mapped
    · exact hi.outside
    · exact hi.user

theorem heapVa_index (img : KernelImage) {i : Nat} (hi : i < maxPages) :
    ((img.heapVa i - img.heapBegin) / 4096).toNat = i := by
  have h : img.heapVa i - img.heapBegin = BitVec.ofNat 64 (4096 * i) := by
    rw [KernelImage.heapVa,BitVec.add_comm,BitVec.add_sub_cancel]
  have hi : i < 131072 := hi
  rw [h,BitVec.toNat_udiv,BitVec.toNat_ofNat]
  change 4096 * i % 2 ^ 64 / 4096 = i
  omega

theorem mmFreePages_parts (img : KernelImage) {ptr : Word} (h0 : ptr ≠ 0)
    (numPages : BitVec 32) (s : Mm) :
    (mmFreePages img ptr numPages s).pages =
      setRun 0 s.pages ((ptr - img.heapBegin) / 4096).toNat numPages.toNat ∧
    (mmFreePages img ptr numPages s).tables = unmapRegion kernelVirtBase (img.rootPtr .kernelL1) ptr
      ((numPages * pageSize32).setWidth 64) s.tables := by
  simp only [mmFreePages,if_neg h0]
  exact foldl_emit _ _ _

theorem toNat_length {r : Run} (hb : r.start + r.length ≤ maxPages) :
    (BitVec.ofNat 32 r.length).toNat = r.length := by
  have : r.start + r.length ≤ 131072 := hb
  rw [BitVec.toNat_ofNat]
  omega

theorem live_split {live : List (Word × BitVec 32)} {ptr : Word} {numPages : BitVec 32}
    (hlive : live = runs.map fun r => (img.heapVa r.start,BitVec.ofNat 32 r.length))
    (hl : (ptr,numPages) ∈ live) : ∃ rs₁ r rs₂, runs = rs₁ ++ r :: rs₂ ∧
      ptr = img.heapVa r.start ∧ numPages = BitVec.ofNat 32 r.length ∧
      live.erase (ptr,numPages) =
        (rs₁ ++ rs₂).map fun r => (img.heapVa r.start,BitVec.ofNat 32 r.length) := by
  obtain ⟨l₁,l₂,_,hsplit,herase⟩ := List.exists_erase_eq hl
  rw [hlive,List.map_eq_append_iff] at hsplit
  obtain ⟨rs₁,rs,hruns,hl₁,hrs⟩ := hsplit
  obtain ⟨r,rs₂,rfl,hr,hl₂⟩ := List.map_eq_cons_iff.mp hrs
  obtain ⟨hptr,hnum⟩ := Prod.ext_iff.mp hr
  exact ⟨rs₁,r,rs₂,hruns,hptr.symm,hnum.symm,by rw [herase,List.map_append,hl₁,hl₂]⟩

theorem mmFreePages_run (img : KernelImage) {r : Run} (hpos : 0 < r.length)
    (hb : r.start + r.length ≤ maxPages) (s : Mm) :
    let s' := mmFreePages img (img.heapVa r.start) (BitVec.ofNat 32 r.length) s
    s'.pages = setRun 0 s.pages r.start r.length ∧
      s'.tables = unmapRegion kernelVirtBase (img.rootPtr .kernelL1) (img.heapVa r.start)
        ((BitVec.ofNat 32 r.length * pageSize32).setWidth 64) s.tables := by
  have hparts := mmFreePages_parts img (heapVa_ne_zero img (i := r.start) (by omega))
    (BitVec.ofNat 32 r.length) s
  rwa [heapVa_index img (by omega),toNat_length hb] at hparts

theorem HeapInv.release (hi : HeapInv img s₀ h runs) {rs₁ rs₂ : List Run} {r : Run}
    (hruns : runs = rs₁ ++ r :: rs₂) {s : Mm}
    (hpages : s.pages = setRun 0 h.mm.pages r.start r.length)
    (htables : s.tables = unmapRegion kernelVirtBase (img.rootPtr .kernelL1) (img.heapVa r.start)
      ((BitVec.ofNat 32 r.length * pageSize32).setWidth 64) h.mm.tables)
    {live : List (Word × BitVec 32)}
    (hlive : live = (rs₁ ++ rs₂).map fun r => (img.heapVa r.start,BitVec.ofNat 32 r.length)) :
    HeapInv img s₀ ⟨s,live⟩ (rs₁ ++ rs₂) := by
  obtain ⟨hpos,hb⟩ := hi.allocated.bound r (by simp [hruns])
  have hlen := toNat_length hb
  obtain ⟨hok,hwalk⟩ := unmapRegion_heap hi.tables (i := r.start)
    (BitVec.ofNat 32 r.length) (by omega) (by omega)
  rw [← htables] at hok hwalk
  rw [hlen] at hwalk
  have halloc := hi.allocated
  rw [hruns] at halloc
  refine hi.update (.inl rfl) hb hpages hok hwalk hlive fun hbit => ?_
  refine halloc.free fun j hj => ?_
  rw [hbit j hj]
  split <;> simp [*]

theorem HeapInv.free (hi : HeapInv img s₀ h runs) {ptr : Word} {numPages : BitVec 32}
    (hl : (ptr,numPages) ∈ h.live) :
    ∃ runs', HeapInv img s₀ (mmCall img h (.free ptr numPages)) runs' := by
  obtain ⟨rs₁,r,rs₂,hruns,rfl,rfl,herase⟩ := live_split hi.live hl
  obtain ⟨hpos,hb⟩ := hi.allocated.bound r (by simp [hruns])
  obtain ⟨hpages,htables⟩ := mmFreePages_run img hpos hb h.mm
  exact ⟨rs₁ ++ rs₂,hi.release hruns hpages htables herase⟩

theorem mmCall_ranOut {c : MmCall} (hr : (mmCall img h c).mm.tables.ranOut = false) :
    h.mm.tables.ranOut = false := by
  cases c with
  | allocate numPages => exact mmAllocatePages_ranOut hr
  | free ptr numPages =>
    by_cases h0 : ptr = 0
    · simpa only [mmCall,mmFreePages,if_pos h0] using hr
    · rw [mmCall,(mmFreePages_parts img h0 _ _).2,unmapRegion,foldl_unmapPage_ranOut] at hr
      exact hr

theorem mmCall_inv {c : MmCall} (hi : ∃ runs, HeapInv img s₀ h runs) (hl : MmLegal h c)
    (hr : (mmCall img h c).mm.tables.ranOut = false) :
    ∃ runs, HeapInv img s₀ (mmCall img h c) runs := by
  obtain ⟨runs,hi⟩ := hi
  cases c with
  | allocate numPages => exact hi.allocate hl.1 hl.2 hr
  | free ptr numPages => exact hi.free hl

structure HeapStart (img : KernelImage) (s : Mm) : Prop where
  pages : ∀ i, i < maxPages → s.pages i = 0
  tables : TablesOk img.tables s.tables
  unmapped : ∀ i, i < maxPages → img.kernelWalk s (img.heapVa i) = none

/-- The byte map, the tables and the list of live allocations say the same. -/
structure HeapAgrees (img : KernelImage) (s₀ : Mm) (h : Heap) (runs : List Run) : Prop where
  live : h.live = runs.map fun r => (img.heapVa r.start,BitVec.ofNat 32 r.length)
  bound : ∀ r ∈ runs, 1 ≤ r.length ∧ r.start + r.length ≤ maxPages
  apart : runs.Pairwise Run.Apart
  marked : ∀ i, i < maxPages → (h.mm.pages i = 1 ↔ ∃ r ∈ runs, i ∈ r)
  mapped : ∀ i, i < maxPages → (h.mm.pages i = 1 ↔
    ∃ d, img.kernelWalk h.mm (img.heapVa i) = some d ∧ descAddr d = vaToPa (img.heapVa i) ∧
      El0Denied d ∧ d &&& ptePxn = ptePxn ∧ d &&& pteUxn = pteUxn)
  outside : ∀ va, (∀ i, i < maxPages → pageNumber va ≠ pageNumber (img.heapVa i)) →
    img.kernelWalk h.mm va = img.kernelWalk s₀ va
  user : ∀ va, img.userWalk h.mm va = img.userWalk s₀ va

theorem walk_congr {A : TableArea KernelRoot} {m : Tables} (hok : TablesOk A m) (r : KernelRoot)
    {va va' : Word} (hva : pageNumber va = pageNumber va') :
    walk m.mem (A.root r) va = walk m.mem (A.root r) va' := by
  obtain ⟨t,ht⟩ := hok
  obtain ⟨h1,h2,h3⟩ := (index_eq_iff va va').mpr hva
  rw [ht.walk_eq,ht.walk_eq,h1,h2,h3]

theorem HeapStart.inv {s : Mm} (hs : HeapStart img s) : HeapInv img s ⟨s,[]⟩ [] where
  live := rfl
  allocated := allocated_nil fun i hi => by simp [hs.pages i hi]
  bytes i hi := .inl (hs.pages i hi)
  tables := hs.tables
  mapped va i hi hva := by
    rw [hs.pages i hi,if_neg (by decide),← hs.unmapped i hi]
    exact walk_congr hs.tables _ (hva.trans (pageNumber_heapVa img hi).symm)
  outside _ _ := rfl
  user _ := rfl

theorem HeapInv.agrees (hi : HeapInv img s₀ h runs) : HeapAgrees img s₀ h runs where
  live := hi.live
  bound r hr := hi.allocated.bound r hr
  apart := hi.allocated.apart
  marked := hi.allocated.used_iff
  mapped i hlt := by
    obtain ⟨h1,h2,h3,h4,_⟩ := heapDesc_spec img hlt
    rw [hi.mapped _ i hlt (pageNumber_heapVa img hlt)]
    constructor
    · exact fun hp => ⟨_,if_pos hp,h1,h2,h3,h4⟩
    · rintro ⟨d,hd,_⟩
      by_contra hp
      rw [if_neg hp] at hd
      contradiction
  outside va hout := hi.outside va fun i hlt => pageNumber_heapVa img hlt ▸ hout i hlt
  user := hi.user

/-- After any allocations and frees of live allocations that page_pool had tables for, the
byte map and kernel_l1 agree on the heap, nothing else is mapped differently, and the
next allocation gets the lowest free run, or 0 when there is none. -/
theorem heap_agrees (img : KernelImage) (s : Mm) (hs : HeapStart img s) (cs : List MmCall)
    (hl : Along (mmCall img) MmLegal ⟨s,[]⟩ cs)
    (hr : (exec (mmCall img) ⟨s,[]⟩ cs).mm.tables.ranOut = false) :
    let h := exec (mmCall img) ⟨s,[]⟩ cs
    (∃ runs, HeapAgrees img s h runs) ∧ ∀ numPages, MmLegal h (.allocate numPages) →
      ((mmAllocatePages img numPages h.mm).1 = 0 ↔ ∀ i, ¬ FreeRun h.mm numPages.toNat i) ∧
      ∀ i, FreeRun h.mm numPages.toNat i → (∀ l, l < i → ¬ FreeRun h.mm numPages.toNat l) →
        (mmAllocatePages img numPages h.mm).1 = img.heapVa i := by
  intro h
  have hinv : h.mm.tables.ranOut = false → ∃ runs, HeapInv img s h runs :=
    exec_invariant (I := fun h => h.mm.tables.ranOut = false → ∃ runs, HeapInv img s h runs)
      (fun _ _ hi hc hr => mmCall_inv (hi (mmCall_ranOut hr)) hc hr) (fun _ => ⟨[],hs.inv⟩) hl
  obtain ⟨runs,hi⟩ := hinv hr
  exact ⟨⟨runs,hi.agrees⟩,fun numPages hn => mmAllocatePages_fst hn.1 hn.2 h.mm⟩

def testKernelImage : KernelImage where
  tables :=
    { root := fun r => if r = .kernelL1 then 0x40400000 else 0x40401000
      pool := 0x40402000
      slots := 32
      poolPage := by decide
      poolLow := by decide
      rootApart := by rintro (_ | _) <;> decide
      rootInj := by rintro (_ | _) (_ | _) <;> decide }
  slots := rfl
  heapBegin := 0xFFFFFFFF40500000
  heapPage := by decide
  heapLow := by decide

def zeroMm : Mm where
  pages _ := 0
  tables := { mem := fun _ _ => 0, used := 0, ranOut := false }
  io := []

theorem zeroMm_start : HeapStart testKernelImage zeroMm where
  pages _ _ := rfl
  tables := tablesOk_of_zero fun _ _ => rfl
  unmapped _ _ := walk_of_zero (fun _ => rfl) _

/-- The second allocation lies behind the first one, whose pages are used again. -/
theorem heap_agrees_reuse :
    let cs : List MmCall := [.allocate 3,.allocate 2,.free 0xFFFFFFFF40500000 3,.allocate 1]
    Along (mmCall testKernelImage) MmLegal ⟨zeroMm,[]⟩ cs ∧
    let h := exec (mmCall testKernelImage) ⟨zeroMm,[]⟩ cs
    h.live = [(0xFFFFFFFF40500000,1),(0xFFFFFFFF40503000,2)] ∧
    (∃ runs, HeapAgrees testKernelImage zeroMm h runs) ∧
    ∀ numPages, MmLegal h (.allocate numPages) →
      ((mmAllocatePages testKernelImage numPages h.mm).1 = 0 ↔
        ∀ i, ¬ FreeRun h.mm numPages.toNat i) ∧
      ∀ i, FreeRun h.mm numPages.toNat i → (∀ l, l < i → ¬ FreeRun h.mm numPages.toNat l) →
        (mmAllocatePages testKernelImage numPages h.mm).1 = testKernelImage.heapVa i := by
  intro cs
  have hl : Along (mmCall testKernelImage) MmLegal ⟨zeroMm,[]⟩ cs := by decide +kernel
  have hr : (exec (mmCall testKernelImage) ⟨zeroMm,[]⟩ cs).mm.tables.ranOut = false := by
    decide +kernel
  have hlive : (exec (mmCall testKernelImage) ⟨zeroMm,[]⟩ cs).live =
      [(0xFFFFFFFF40500000,1),(0xFFFFFFFF40503000,2)] := by decide +kernel
  exact ⟨hl,hlive,heap_agrees testKernelImage zeroMm zeroMm_start cs hl hr⟩

end Arm64

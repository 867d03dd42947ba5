import Arm64Baremetal.TablesRunOut
import Arm64Baremetal.TranslationCache

set_option autoImplicit false

namespace Arm64
open Runs FirstFit TranslationCache

/-- Bits 55:12 of an address, by which a TLB knows its page. -/
def tlbKey (va : Word) : BitVec 44 := (va >>> 12).setWidth 44

/-- TTBR1_EL1 translates the last 4 GB of the address space, from kernel_l1. -/
def KernelImage.kernelTranslate (img : KernelImage) (m : Tables) (key : BitVec 44) : Option Word :=
  if 2 ^ 44 - 2 ^ 20 ≤ key.toNat then
    walk m.mem (img.tables.root .kernelL1) (key.setWidth 64 <<< 12)
  else none

/-- What comes next in a call: the store to a byte of pages[], the three stores of
map_page_virtual, a turn of unmap_region_virtual, or a page of the flushes. A new table is
zeroed before an entry points to it, which no walk can see. -/
inductive MmPc where
  | idle
  | mark (i : Nat) (numPages : BitVec 32) (j : Nat)
  | mapL1 (i : Nat) (numPages : BitVec 32) (k : Nat)
  | mapL2 (i : Nat) (numPages : BitVec 32) (k : Nat) (l2 : Word)
  | mapL3 (i : Nat) (numPages : BitVec 32) (k : Nat) (l3 : Word)
  | zero (ptr : Word) (numPages : BitVec 32)
  | clear (ptr : Word) (numPages : BitVec 32) (j : Nat)
  | unmap (ptr : Word) (numPages : BitVec 32) (k : Nat)
  | flush (ptr : Word) (numPages : BitVec 32) (j : Nat)
  | fault
  deriving DecidableEq

structure TlbState (κ : Type) where
  mm : Mm
  live : List (Word × BitVec 32)
  pc : MmPc
  tlb : Caches κ (BitVec 44) Word

inductive TlbEvent (κ : Type) where
  | call (c : MmCall)
  | turn
  | fill (core : κ) (key : BitVec 44)

section Machine
variable {κ : Type} (img : KernelImage)

def KernelImage.allocPtr (i : Nat) : Word := img.heapBegin + BitVec.ofNat 64 (i * 4096)

def KernelImage.allocVa (i k : Nat) : Word :=
  (img.allocPtr i &&& ~~~0xFFF) + BitVec.ofNat 64 (4096 * k)

def KernelImage.allocPa (i k : Nat) : Word :=
  (vaToPa (img.allocPtr i) &&& ~~~0xFFF) + BitVec.ofNat 64 (4096 * k)

/-- `num_pages * PAGE_SIZE` -/
def byteSize (numPages : BitVec 32) : Word := (numPages * pageSize32).setWidth 64

/-- `tlbi vaale1is` with `va >> 12`: on all cores, by bits 43:0 of the operand. -/
def tlbFlushPageEl1 (va : Word) (c : Caches κ (BitVec 44) Word) : Caches κ (BitVec 44) Word :=
  let operand := va >>> 12
  invalidate c fun key => key == operand.setWidth 44

def startCall (s : TlbState κ) : MmCall → TlbState κ
  | .allocate numPages =>
    if numPages = 0 then s
    else
      match findPages numPages s.mm with
      | some i => { s with pc := .mark i numPages 0 }
      | none =>
        let msg := "[MM] ERROR: No contiguous block of %d pages found!\n"
        { s with mm := s.mm.emit (.printf msg numPages) }
  | .free ptr numPages =>
    if ptr = 0 then { s with live := s.live.erase (ptr,numPages) }
    else { s with pc := .zero ptr numPages }

/-- A null pointer to a table faults where it is first used. -/
def mmTurn (s : TlbState κ) : TlbState κ :=
  match s.pc with
  | .idle | .fault => s
  | .mark i numPages j =>
    if j < numPages.toNat then
      { s with
        mm := { s.mm with pages := Function.update s.mm.pages (i + j) 1 }
        pc := .mark i numPages (j + 1) }
    else { s with pc := .mapL1 i numPages 0 }
  | .mapL1 i numPages k =>
    if k < pageTurns (byteSize numPages) then
      let root := img.rootPtr .kernelL1
      let index := l1Idx (img.allocVa i k)
      let m := ensureTable img.tables kernelVirtBase root index s.mm.tables
      let l2 := nextTable kernelVirtBase root index m
      { s with
        mm := { s.mm with tables := m }
        pc := if l2 = 0 then .fault else .mapL2 i numPages k l2 }
    else { s with live := (img.allocPtr i,numPages) :: s.live, pc := .idle }
  | .mapL2 i numPages k l2 =>
    let index := l2Idx (img.allocVa i k)
    let m := ensureTable img.tables kernelVirtBase l2 index s.mm.tables
    let l3 := nextTable kernelVirtBase l2 index m
    { s with
      mm := { s.mm with tables := m }
      pc := if l3 = 0 then .fault else .mapL3 i numPages k l3 }
  | .mapL3 i numPages k l3 =>
    let desc := img.allocPa i k &&& ~~~0xFFF ||| heapFlags ||| pteTypePage
    { s with
      mm := { s.mm with
        tables := s.mm.tables.store kernelVirtBase l3 (l3Idx (img.allocVa i k)) desc }
      pc := .mapL1 i numPages (k + 1) }
  | .zero ptr numPages =>
    { s with mm := s.mm.emit (.memZero ptr (byteSize numPages)), pc := .clear ptr numPages 0 }
  | .clear ptr numPages j =>
    let index := ((ptr - img.heapBegin) / 4096).toNat
    if j < numPages.toNat then
      { s with
        mm := { s.mm with pages := Function.update s.mm.pages (index + j) 0 }
        pc := .clear ptr numPages (j + 1) }
    else { s with pc := .unmap ptr numPages 0 }
  | .unmap ptr numPages k =>
    if k < pageTurns (byteSize numPages) then
      { s with
        mm := { s.mm with
          tables := unmapPage kernelVirtBase (img.rootPtr .kernelL1)
            (ptr + BitVec.ofNat 64 (4096 * k)) s.mm.tables }
        pc := .unmap ptr numPages (k + 1) }
    else { s with pc := .flush ptr numPages 0 }
  | .flush ptr numPages j =>
    if j < numPages.toNat then
      let va := ptr + (BitVec.ofNat 32 j * pageSize32).setWidth 64
      { s with
        mm := s.mm.emit (.tlbFlushPage va)
        pc := .flush ptr numPages (j + 1)
        tlb := tlbFlushPageEl1 va s.tlb }
    else { s with live := s.live.erase (ptr,numPages), pc := .idle }

variable [DecidableEq κ]

/-- One event: a call is taken up when no other is in progress. -/
def tlbStep (s : TlbState κ) : TlbEvent κ → TlbState κ
  | .call c =>
    match s.pc with
    | .idle => startCall s c
    | _ => s
  | .turn => mmTurn img s
  | .fill core key =>
    match img.kernelTranslate s.mm.tables key with
    | some d => { s with tlb := fill s.tlb core key d }
    | none => s

end Machine

/-- Allocations are of no more pages than there are, and what is freed is live. -/
def TlbLegal {κ : Type} (s : TlbState κ) : TlbEvent κ → Prop
  | .call (.allocate numPages) => numPages.toNat ≤ maxPages
  | .call (.free ptr numPages) => (ptr,numPages) ∈ s.live
  | .turn | .fill _ _ => True

instance {κ : Type} (s : TlbState κ) : (e : TlbEvent κ) → Decidable (TlbLegal s e)
  | .call (.allocate numPages) => inferInstanceAs (Decidable (numPages.toNat ≤ maxPages))
  | .call (.free ptr numPages) => inferInstanceAs (Decidable ((ptr,numPages) ∈ s.live))
  | .turn => inferInstanceAs (Decidable True)
  | .fill _ _ => inferInstanceAs (Decidable True)

def MmPc.Frees : MmPc → BitVec 44 → Prop
  | .zero ptr numPages,key | .clear ptr numPages _,key | .unmap ptr numPages _,key
  | .flush ptr numPages _,key =>
      ∃ k < numPages.toNat, key = tlbKey (ptr + BitVec.ofNat 64 (4096 * k))
  | _,_ => False

def MmPc.freeing : MmPc → Option (Word × BitVec 32)
  | .zero ptr numPages | .clear ptr numPages _ | .unmap ptr numPages _ | .flush ptr numPages _ =>
    some (ptr,numPages)
  | _ => none

def MmPc.turnsLeft : MmPc → Nat
  | .zero _ numPages => 3 * numPages.toNat + 4
  | .clear _ numPages j => (numPages.toNat - j) + 2 * numPages.toNat + 3
  | .unmap _ numPages k => (numPages.toNat - k) + numPages.toNat + 2
  | .flush _ numPages j => (numPages.toNat - j) + 1
  | _ => 0

/-- Every entry of a TLB for a heap page is the translation of the page, unless it is being
freed. -/
def TlbCurrent {κ : Type} (img : KernelImage) (s : TlbState κ) : Prop :=
  ∀ core, ∀ e ∈ s.tlb core, ∀ i < maxPages, e.page = tlbKey (img.heapVa i) →
    ¬ s.pc.Frees e.page → img.kernelWalk s.mm (img.heapVa i) = some e.desc

def TlbEvent.isTurn {κ : Type} : TlbEvent κ → Bool
  | .turn => true
  | .call _ | .fill _ _ => false

/-- The call that is in progress returns with the last of the events. -/
def Returns {κ : Type} [DecidableEq κ] (img : KernelImage) : TlbState κ → List (TlbEvent κ) → Prop
  | s,[] => s.pc = .idle
  | s,e :: es => s.pc ≠ .idle ∧ Returns img (tlbStep img s e) es

instance {κ : Type} [DecidableEq κ] (img : KernelImage) :
    (s : TlbState κ) → (es : List (TlbEvent κ)) → Decidable (Returns img s es)
  | _,[] => inferInstanceAs (Decidable (_ = _))
  | s,e :: es =>
    have := instDecidableReturns img (tlbStep img s e) es
    inferInstanceAs (Decidable (_ ∧ _))

/-- Every mm_free_pages that is called returns if it can make its turns; and when it returns, no
TLB holds a page that it was called for. -/
def FreesFlushed {κ : Type} [DecidableEq κ] (img : KernelImage) (s : TlbState κ)
    (es : List (TlbEvent κ)) : Prop :=
  ∀ pre ptr numPages rest, es = pre ++ .call (.free ptr numPages) :: rest →
    (exec (tlbStep img) s pre).pc = .idle →
    let called := exec (tlbStep img) s (pre ++ [.call (.free ptr numPages)])
    (3 * numPages.toNat + 4 ≤ rest.countP TlbEvent.isTurn →
      ∃ mid post, rest = mid ++ post ∧ Returns img called mid) ∧
    ∀ mid post, rest = mid ++ post → Returns img called mid → ∀ k < numPages.toNat,
      Absent (exec (tlbStep img) called mid).tlb (tlbKey (ptr + BitVec.ofNat 64 (4096 * k)))

section Keys
variable {img : KernelImage} {m : Tables} {key : BitVec 44} {i : Nat}

theorem pageNumber_key (key : BitVec 44) :
    pageNumber (key.setWidth 64 <<< 12) = key.toNat % 2 ^ 20 := by
  have hkey := key.isLt
  rw [pageNumber,BitVec.toNat_shiftLeft,BitVec.toNat_setWidth,Nat.shiftLeft_eq]
  omega

theorem tlbKey_heapVa (img : KernelImage) (hi : i < maxPages) :
    (tlbKey (img.heapVa i)).toNat = 2 ^ 44 - 2 ^ 20 + (img.heapNumber + i) := by
  have hva := toNat_heapVa img hi
  have hbegin := toNat_heapBegin img
  have hnumber := heapNumber_eq img
  have hle := heapNumber_le img
  have hpage := img.heapPage
  have hk : kernelVirtBase.toNat = 0xFFFFFFFF00000000 := rfl
  have hi : i < 131072 := hi
  rw [tlbKey,BitVec.toNat_setWidth,BitVec.toNat_ushiftRight,Nat.shiftRight_eq_div_pow]
  omega

theorem eq_tlbKey (hkey : 2 ^ 44 - 2 ^ 20 ≤ key.toNat) (hi : i < maxPages)
    (h : key.toNat % 2 ^ 20 = img.heapNumber + i) : key = tlbKey (img.heapVa i) := by
  have hlt := key.isLt
  apply BitVec.eq_of_toNat_eq
  rw [tlbKey_heapVa img hi]
  omega

theorem kernelTranslate_heapVa (m : Tables) (hi : i < maxPages) :
    img.kernelTranslate m (tlbKey (img.heapVa i)) =
      walk m.mem (img.tables.root .kernelL1) (img.heapVa i) := by
  have hkey := tlbKey_heapVa img hi
  have hle := heapNumber_le img
  rw [KernelImage.kernelTranslate,if_pos (by omega)]
  refine walk_page ?_ _ _
  rw [pageNumber_key,hkey,pageNumber_heapVa img hi]
  omega

theorem kernelTranslate_change {m' : Tables} (hi : i < maxPages)
    (h : ∀ va, pageNumber va ≠ img.heapNumber + i →
      walk m'.mem (img.tables.root .kernelL1) va = walk m.mem (img.tables.root .kernelL1) va)
    (hkey : key ≠ tlbKey (img.heapVa i)) :
    img.kernelTranslate m' key = img.kernelTranslate m key := by
  unfold KernelImage.kernelTranslate
  by_cases hin : 2 ^ 44 - 2 ^ 20 ≤ key.toNat
  · rw [if_pos hin,if_pos hin]
    refine h _ fun hp => hkey (eq_tlbKey hin hi ?_)
    rwa [pageNumber_key] at hp
  · rw [if_neg hin,if_neg hin]

theorem flush_va (ptr : Word) {j : Nat} {numPages : BitVec 32} (hj : j < numPages.toNat)
    (hn : numPages.toNat ≤ maxPages) :
    ptr + (BitVec.ofNat 32 j * pageSize32).setWidth 64 = ptr + BitVec.ofNat 64 (4096 * j) := by
  have hmax : maxPages = 131072 := rfl
  have h32 : pageSize32.toNat = 4096 := rfl
  congr 1
  apply BitVec.eq_of_toNat_eq
  rw [BitVec.toNat_setWidth,BitVec.toNat_mul,BitVec.toNat_ofNat,BitVec.toNat_ofNat,h32]
  omega

theorem flushPage_eq {κ : Type} (va : Word) (c : Caches κ (BitVec 44) Word) :
    tlbFlushPageEl1 va c = invalidate c fun key => key == tlbKey va := rfl

theorem absent_flushPage {κ : Type} (va : Word) (c : Caches κ (BitVec 44) Word) :
    Absent (tlbFlushPageEl1 va c) (tlbKey va) := by
  rw [flushPage_eq]
  refine absent_of_hit ?_ c
  exact beq_self_eq_true (tlbKey va)

theorem kernelTranslate_kept {m' : Tables}
    (h : ∀ va d, walk m.mem (img.tables.root .kernelL1) va = some d →
      walk m'.mem (img.tables.root .kernelL1) va = some d) {d : Word}
    (hd : img.kernelTranslate m key = some d) : img.kernelTranslate m' key = some d := by
  unfold KernelImage.kernelTranslate at hd ⊢
  obtain ⟨hin,hwalk⟩ := Option.ite_none_right_eq_some.mp hd
  rw [if_pos hin]
  exact h _ d hwalk

end Keys

section Stores
variable {ρ : Type} {A : TableArea ρ} {m : Tables} {t : TableTree ρ A.slots} {r r' : ρ}
  {va d : Word} {i j : Fin 512} {a b : Fin A.slots}

theorem Tree.path (h : Tree A m t) (hw : walk m.mem (A.root r) va = some d) :
    ∃ a b, t.l3 r (l1Idx va) (l2Idx va) = some b ∧
      m.mem (A.root r) (l1Idx va) = A.entry a ∧ m.mem (A.table a) (l2Idx va) = A.entry b ∧
      leafOf (m.mem (A.table b) (l3Idx va)) = some d := by
  rw [h.walk_eq,leaf,Option.bind_eq_some_iff] at hw
  obtain ⟨b,hb,hleaf⟩ := hw
  have h1 := h.l1 r (l1Idx va)
  cases ha : t.l2 r (l1Idx va) with
  | none =>
    rw [h.top r _ _ ha] at hb
    exact absurd hb.symm (Option.some_ne_none b)
  | some a =>
    rw [ha] at h1
    have h2 := h.l2 r _ a ha (l2Idx va)
    rw [hb] at h2
    exact ⟨a,b,hb,h1.1,h2.1,hleaf⟩

theorem walk_of_path {mem : TableMem} (h1 : mem (A.root r) (l1Idx va) = A.entry a)
    (h2 : mem (A.table a) (l2Idx va) = A.entry b) :
    walk mem (A.root r) va = leafOf (mem (A.table b) (l3Idx va)) := by
  simp only [walk,h1,h2,A.entry_type,A.descAddr_entry,if_true]

theorem Tree.walk_put (h : Tree A m t) {p : Word} (he : m.mem p i &&& 1 = 0)
    (hp : ∀ r i j b, t.l3 r i j = some b → A.table b ≠ p) (val : Word)
    (hw : walk m.mem (A.root r) va = some d) :
    walk (m.put p i val).mem (A.root r) va = some d := by
  have hvalid : ∀ {q : Word} {j : Fin 512} {c : Fin A.slots}, m.mem q j = A.entry c →
      (m.put p i val).mem q j = A.entry c := by
    intro q j c hq
    rw [Tables.put_mem,if_neg]
    · exact hq
    · rintro ⟨rfl,rfl⟩
      rw [hq,A.entry_valid] at he
      exact absurd he (by decide)
  obtain ⟨a,b,hb,h1,h2,hleaf⟩ := h.path hw
  rw [walk_of_path (hvalid h1) (hvalid h2),Tables.put_mem,if_neg fun hq => hp _ _ _ _ hb hq.1]
  exact hleaf

theorem null_next (p : Word) (i : Fin 512) (m : Tables) :
    nextTable kernelVirtBase (p + kernelVirtBase) i (m.put p i (nullEntry kernelVirtBase)) = 0 := by
  rw [nextTable,Tables.load_add,Tables.put_mem,if_pos ⟨rfl,rfl⟩]
  decide

variable [DecidableEq ρ]

/-- The first store of map_page_virtual: the pointer to the next table is null, or no translation
has changed. -/
theorem Tree.mapL1 (h : Tree A m t) (hr : m.ranOut = false) (r : ρ) (i : Fin 512) :
    let m' := ensureTable A kernelVirtBase (A.root r + kernelVirtBase) i m
    let l2 := nextTable kernelVirtBase (A.root r + kernelVirtBase) i m'
    (∀ r' va d, walk m.mem (A.root r') va = some d → walk m'.mem (A.root r') va = some d) ∧
      (l2 ≠ 0 → m'.ranOut = false ∧ ∃ t' a, Tree A m' t' ∧ t'.l2 r i = some a ∧
        l2 = A.table a + kernelVirtBase ∧
        ∀ r' va, walk m'.mem (A.root r') va = walk m.mem (A.root r') va) := by
  intro m' l2
  cases hr' : m'.ranOut with
  | true =>
    obtain ⟨he,_,hm'⟩ := ensureTable_refused hr hr'
    refine ⟨fun r' va d hw => ?_,fun hl2 => absurd ?_ hl2⟩
    · rw [show m' = _ from hm']
      exact h.walk_put he
        (fun _ _ _ b _ => (A.root_ne_table r b).symm) _ hw
    · unfold l2
      rw [show m' = _ from hm',null_next]
  | false =>
    obtain ⟨t',a,ht',ha,hleaf,_⟩ := h.ensureL2 r i hr'
    have hwalk : ∀ r' va, walk m'.mem (A.root r') va = walk m.mem (A.root r') va := by
      intro r' va
      rw [ht'.walk_eq,h.walk_eq,hleaf]
    exact ⟨fun r' va d hw => (hwalk r' va).trans hw,
      fun _ => ⟨rfl,t',a,ht',ha,ht'.nextL2 ha _,hwalk⟩⟩

theorem Tree.mapL2 (h : Tree A m t) (hr : m.ranOut = false) (ha : t.l2 r i = some a)
    (j : Fin 512) :
    let m' := ensureTable A kernelVirtBase (A.table a + kernelVirtBase) j m
    let l3 := nextTable kernelVirtBase (A.table a + kernelVirtBase) j m'
    (∀ r' va d, walk m.mem (A.root r') va = some d → walk m'.mem (A.root r') va = some d) ∧
      (l3 ≠ 0 → m'.ranOut = false ∧ ∃ t' b, Tree A m' t' ∧ t'.l3 r i j = some b ∧
        l3 = A.table b + kernelVirtBase ∧
        ∀ r' va, walk m'.mem (A.root r') va = walk m.mem (A.root r') va) := by
  intro m' l3
  cases hr' : m'.ranOut with
  | true =>
    obtain ⟨he,_,hm'⟩ := ensureTable_refused hr hr'
    refine ⟨fun r' va d hw => ?_,fun hl3 => absurd ?_ hl3⟩
    · rw [show m' = _ from hm']
      refine h.walk_put he (fun r' i' j' b hb hq => ?_) _ hw
      exact h.apart r i r' i' j' a ha (A.table_inj hq ▸ hb)
    · unfold l3
      rw [show m' = _ from hm',null_next]
  | false =>
    obtain ⟨t',b,ht',hl2,hb,hleaf,_⟩ := h.ensureL3 ha j hr'
    have hwalk : ∀ r' va, walk m'.mem (A.root r') va = walk m.mem (A.root r') va := by
      intro r' va
      rw [ht'.walk_eq,h.walk_eq,hleaf]
    exact ⟨fun r' va d hw => (hwalk r' va).trans hw,
      fun _ => ⟨rfl,t',b,ht',hb,ht'.nextL3 (hl2 ▸ ha) hb _,hwalk⟩⟩

end Stores

section Pages
variable (img : KernelImage)

def mappedPages (i k : Nat) (m : Tables) : Tables :=
  (List.range k).foldl (fun m n => mapPage img.tables kernelVirtBase (img.rootPtr .kernelL1)
    (img.allocVa i n) (img.allocPa i n) heapFlags m) m

def unmappedPages (ptr : Word) (k : Nat) (m : Tables) : Tables :=
  (List.range k).foldl (fun m n => unmapPage kernelVirtBase (img.rootPtr .kernelL1)
    (ptr + BitVec.ofNat 64 (4096 * n)) m) m

def Phase {κ : Type} (h : Heap) (s : TlbState κ) : Prop :=
  match s.pc with
  | .idle => h = ⟨s.mm,s.live⟩
  | .mark i numPages j => FreeRun h.mm numPages.toNat i ∧ 1 ≤ numPages.toNat ∧ s.live = h.live ∧
      s.mm.tables = h.mm.tables ∧ j ≤ numPages.toNat ∧ s.mm.pages = setRun 1 h.mm.pages i j
  | .mapL1 i numPages k => FreeRun h.mm numPages.toNat i ∧ 1 ≤ numPages.toNat ∧ s.live = h.live ∧
      s.mm.pages = setRun 1 h.mm.pages i numPages.toNat ∧ k ≤ numPages.toNat ∧
      s.mm.tables = mappedPages img i k h.mm.tables
  | .mapL2 i numPages k l2 => FreeRun h.mm numPages.toNat i ∧ 1 ≤ numPages.toNat ∧
      s.live = h.live ∧ s.mm.pages = setRun 1 h.mm.pages i numPages.toNat ∧ k < numPages.toNat ∧
      ∃ m, m = mappedPages img i k h.mm.tables ∧ m.ranOut = false ∧
        s.mm.tables = ensureTable img.tables kernelVirtBase (img.rootPtr .kernelL1)
          (l1Idx (img.allocVa i k)) m ∧
        l2 = nextTable kernelVirtBase (img.rootPtr .kernelL1) (l1Idx (img.allocVa i k))
          s.mm.tables ∧ l2 ≠ 0
  | .mapL3 i numPages k l3 => FreeRun h.mm numPages.toNat i ∧ 1 ≤ numPages.toNat ∧
      s.live = h.live ∧ s.mm.pages = setRun 1 h.mm.pages i numPages.toNat ∧ k < numPages.toNat ∧
      (∀ va, img.kernelWalk s.mm va = walk (mappedPages img i k h.mm.tables).mem
        (img.tables.root .kernelL1) va) ∧
      s.mm.tables.store kernelVirtBase l3 (l3Idx (img.allocVa i k))
        (img.allocPa i k &&& ~~~0xFFF ||| heapFlags ||| pteTypePage) =
          mappedPages img i (k + 1) h.mm.tables
  | .zero ptr numPages => (ptr,numPages) ∈ h.live ∧ s.live = h.live ∧
      s.mm.tables = h.mm.tables ∧ s.mm.pages = h.mm.pages
  | .clear ptr numPages j => (ptr,numPages) ∈ h.live ∧ s.live = h.live ∧
      s.mm.tables = h.mm.tables ∧ j ≤ numPages.toNat ∧
      s.mm.pages = setRun 0 h.mm.pages ((ptr - img.heapBegin) / 4096).toNat j
  | .unmap ptr numPages k => (ptr,numPages) ∈ h.live ∧ s.live = h.live ∧
      s.mm.pages = setRun 0 h.mm.pages ((ptr - img.heapBegin) / 4096).toNat numPages.toNat ∧
      k ≤ numPages.toNat ∧ s.mm.tables = unmappedPages img ptr k h.mm.tables
  | .flush ptr numPages j => (ptr,numPages) ∈ h.live ∧ s.live = h.live ∧ j ≤ numPages.toNat ∧
      s.mm.pages = setRun 0 h.mm.pages ((ptr - img.heapBegin) / 4096).toNat numPages.toNat ∧
      s.mm.tables = unmappedPages img ptr numPages.toNat h.mm.tables
  | .fault => False

structure TlbInv {κ : Type} (s₀ : Mm) (s : TlbState κ) : Prop where
  heap : s.pc ≠ .fault → s.mm.tables.ranOut = false ∧
    ∃ h runs, HeapInv img s₀ h runs ∧ Phase img h s
  upToDate : UpToDate (img.kernelTranslate s.mm.tables) s.pc.Frees s.tlb
  flushed : ∀ ptr numPages j, s.pc = .flush ptr numPages j → ∀ k < j,
    Absent s.tlb (tlbKey (ptr + BitVec.ofNat 64 (4096 * k)))

variable {img} {i k : Nat} {m : Tables}

theorem allocPtr_eq (img : KernelImage) (i : Nat) : img.allocPtr i = img.heapVa i := by
  rw [KernelImage.allocPtr,KernelImage.heapVa,Nat.mul_comm]

theorem allocVa_eq (img : KernelImage) (hi : i < maxPages) (k : Nat) :
    img.allocVa i k = img.heapVa (i + k) := by
  rw [KernelImage.allocVa,allocPtr_eq,and_not_low_of_page (heapVa_page img hi),heapVa_add]

theorem setRun_snoc (b : BitVec 8) (f : Nat → BitVec 8) (i n : Nat) :
    Function.update (setRun b f i n) (i + n) b = setRun b f i (n + 1) := by
  funext j
  rw [setRun_apply]
  by_cases hj : j = i + n
  · subst hj
    have hin : i + n ∈ Run.mk i (n + 1) :=
      mem_run.mpr ⟨Nat.le_add_right i n,Nat.lt_succ_self (i + n)⟩
    rw [Function.update_self,if_pos hin]
  · rw [Function.update_of_ne hj,setRun_apply]
    refine if_congr ?_ rfl rfl
    rw [mem_run,mem_run]
    dsimp only
    omega

theorem mappedPages_succ (i k : Nat) (m : Tables) : mappedPages img i (k + 1) m =
    mapPage img.tables kernelVirtBase (img.rootPtr .kernelL1) (img.allocVa i k) (img.allocPa i k)
      heapFlags (mappedPages img i k m) := by
  simp only [mappedPages,List.range_succ,List.foldl_append,List.foldl_cons,List.foldl_nil]

theorem unmappedPages_succ (ptr : Word) (k : Nat) (m : Tables) :
    unmappedPages img ptr (k + 1) m = unmapPage kernelVirtBase (img.rootPtr .kernelL1)
      (ptr + BitVec.ofNat 64 (4096 * k)) (unmappedPages img ptr k m) := by
  simp only [unmappedPages,List.range_succ,List.foldl_append,List.foldl_cons,List.foldl_nil]

theorem mappedPages_region {numPages : BitVec 32} (hn : numPages.toNat ≤ maxPages) :
    mappedPages img i numPages.toNat m =
      mapRegion img.tables kernelVirtBase (img.rootPtr .kernelL1) (img.heapVa i)
        (vaToPa (img.heapVa i)) ((numPages * pageSize32).setWidth 64) heapFlags m := by
  unfold mappedPages mapRegion KernelImage.allocVa KernelImage.allocPa
  rw [pageTurns_pages numPages hn,allocPtr_eq]

theorem unmappedPages_region (ptr : Word) {numPages : BitVec 32} (hn : numPages.toNat ≤ maxPages) :
    unmappedPages img ptr numPages.toNat m = unmapRegion kernelVirtBase (img.rootPtr .kernelL1) ptr
      ((numPages * pageSize32).setWidth 64) m := by
  unfold unmappedPages unmapRegion
  rw [pageTurns_pages numPages hn]

theorem mappedPages_walk (h : TablesOk img.tables m) (hb : i + k ≤ maxPages)
    (hi : i < maxPages) (hr : (mappedPages img i k m).ranOut = false) :
    TablesOk img.tables (mappedPages img i k m) ∧ ∀ va,
      ¬ (img.heapNumber + i ≤ pageNumber va ∧ pageNumber va < img.heapNumber + i + k) →
        walk (mappedPages img i k m).mem (img.tables.root .kernelL1) va =
          walk m.mem (img.tables.root .kernelL1) va := by
  have hle := heapNumber_le img
  have hnum := pageNumber_heapVa img hi
  have hva : img.allocPtr i &&& ~~~0xFFF = img.heapVa i := by
    rw [allocPtr_eq,and_not_low_of_page (heapVa_page img hi)]
  unfold mappedPages KernelImage.allocVa at hr ⊢
  rw [hva] at hr ⊢
  obtain ⟨hok,hwalk⟩ := mapPages_walk h (n := k) (by omega) hr
  refine ⟨hok,fun va hout => ?_⟩
  have hlast : pageNumber (img.heapVa i) + k ≤ 2 ^ 20 := by omega
  refine (hwalk .kernelL1 va).trans (if_neg fun hin => hout ?_)
  have := (pageOffset_lt_iff (pageNumber_lt va) hlast).mp hin.2
  omega

end Pages

section Live
variable {img : KernelImage} {s₀ : Mm} {h : Heap} {runs : List Run} {ptr : Word}
  {numPages : BitVec 32}

theorem HeapInv.emit {mm : Mm} {live : List (Word × BitVec 32)}
    (hi : HeapInv img s₀ ⟨mm,live⟩ runs) (e : MmIo) : HeapInv img s₀ ⟨mm.emit e,live⟩ runs :=
  ⟨hi.live,hi.allocated,hi.bytes,hi.tables,hi.mapped,hi.outside,hi.user⟩

theorem HeapInv.run (hi : HeapInv img s₀ h runs) (hl : (ptr,numPages) ∈ h.live) :
    ∃ i, ptr = img.heapVa i ∧ 1 ≤ numPages.toNat ∧ i + numPages.toNat ≤ maxPages ∧
      ((ptr - img.heapBegin) / 4096).toNat = i := by
  obtain ⟨rs₁,r,rs₂,hruns,rfl,rfl,_⟩ := live_split hi.live hl
  obtain ⟨hpos,hb⟩ := hi.allocated.bound r (by simp [hruns])
  rw [toNat_length hb]
  exact ⟨r.start,rfl,hpos,hb,heapVa_index img (by omega)⟩

theorem HeapInv.freed (hi : HeapInv img s₀ h runs) (hl : (ptr,numPages) ∈ h.live) {s : Mm}
    (hpages : s.pages = setRun 0 h.mm.pages ((ptr - img.heapBegin) / 4096).toNat numPages.toNat)
    (htables : s.tables = unmappedPages img ptr numPages.toNat h.mm.tables) :
    ∃ runs', HeapInv img s₀ ⟨s,h.live.erase (ptr,numPages)⟩ runs' := by
  obtain ⟨rs₁,r,rs₂,hruns,rfl,rfl,herase⟩ := live_split hi.live hl
  obtain ⟨hpos,hb⟩ := hi.allocated.bound r (by simp [hruns])
  rw [heapVa_index img (by omega),toNat_length hb] at hpages
  rw [unmappedPages_region _ (by rw [toNat_length hb]; omega)] at htables
  exact ⟨rs₁ ++ rs₂,hi.release hruns hpages htables herase⟩

theorem HeapInv.unmapped (hi : HeapInv img s₀ h runs) (hl : (ptr,numPages) ∈ h.live) {k : Nat}
    (hk : k < numPages.toNat) :
    img.kernelTranslate (unmappedPages img ptr numPages.toNat h.mm.tables)
      (tlbKey (ptr + BitVec.ofNat 64 (4096 * k))) = none := by
  obtain ⟨i,rfl,hpos,hb,_⟩ := hi.run hl
  have hnum := pageNumber_heapVa img (i := i + k) (by omega)
  have hwalk := (unmapRegion_heap hi.tables numPages hpos hb).2 .kernelL1 (img.heapVa (i + k))
  rw [heapVa_add,kernelTranslate_heapVa _ (by omega),unmappedPages_region _ (by omega),hwalk,
    if_pos ⟨rfl,by omega,by omega⟩]

end Live

section Steps
variable {κ : Type} {img : KernelImage} {s₀ : Mm} {s : TlbState κ} {mm : Mm}
  {live : List (Word × BitVec 32)} {tlb : Caches κ (BitVec 44) Word} {i j k : Nat}
  {numPages : BitVec 32} {ptr : Word}

theorem TlbInv.fill [DecidableEq κ] (h : TlbInv img s₀ s) (core : κ) (key : BitVec 44) :
    TlbInv img s₀ (tlbStep img s (.fill core key)) := by
  unfold tlbStep
  dsimp only
  cases ht : img.kernelTranslate s.mm.tables key with
  | none => exact h
  | some d =>
    refine ⟨h.heap,h.upToDate.fill ht core,fun ptr numPages j hpc l hl => ?_⟩
    refine (h.flushed ptr numPages j hpc l hl).fill ?_ core d
    rintro rfl
    obtain ⟨_,h₀,runs,hi,hphase⟩ := h.heap (by rw [hpc]; exact nofun)
    rw [Phase,hpc] at hphase
    obtain ⟨hlive,_,hj,_,htables⟩ := hphase
    rw [htables,hi.unmapped hlive (by omega)] at ht
    exact nomatch ht

theorem startCall_some {s : TlbState κ} (h0 : numPages ≠ 0)
    (hs : findPages numPages s.mm = some i) :
    startCall s (.allocate numPages) = { s with pc := .mark i numPages 0 } := by
  simp only [startCall,if_neg h0,hs]

theorem startCall_none {s : TlbState κ} (h0 : numPages ≠ 0)
    (hs : findPages numPages s.mm = none) :
    startCall s (.allocate numPages) = { s with
      mm := s.mm.emit
        (.printf "[MM] ERROR: No contiguous block of %d pages found!\n" numPages) } := by
  simp only [startCall,if_neg h0,hs]

theorem TlbInv.call (h : TlbInv img s₀ ⟨mm,live,.idle,tlb⟩) (c : MmCall)
    (hc : TlbLegal (⟨mm,live,.idle,tlb⟩ : TlbState κ) (.call c)) :
    TlbInv img s₀ (startCall ⟨mm,live,.idle,tlb⟩ c) := by
  obtain ⟨hr,h₀,runs,hi,hphase⟩ := h.heap nofun
  obtain rfl : h₀ = ⟨mm,live⟩ := hphase
  cases c with
  | allocate numPages =>
    by_cases h0 : numPages = 0
    · rw [startCall,if_pos h0]
      exact h
    · obtain ⟨i,hs,hfree,_⟩ | ⟨hs,_⟩ := findPages_cases hc mm
      · have hpos : 1 ≤ numPages.toNat :=
          Nat.pos_of_ne_zero fun hz => h0 (BitVec.eq_of_toNat_eq hz)
        rw [startCall_some h0 hs]
        exact ⟨fun _ => ⟨hr,_,runs,hi,hfree,hpos,rfl,rfl,Nat.zero_le _,rfl⟩,h.upToDate,nofun⟩
      · rw [startCall_none h0 hs]
        exact ⟨fun _ => ⟨hr,_,runs,hi.emit _,rfl⟩,h.upToDate,nofun⟩
  | free ptr numPages =>
    obtain ⟨i,hptr,hpos,hb,_⟩ := hi.run hc
    have h0 : ptr ≠ 0 := hptr ▸ heapVa_ne_zero img (i := i) (by omega)
    simp only [startCall,if_neg h0]
    exact ⟨fun _ => ⟨hr,_,runs,hi,hc,rfl,rfl,rfl⟩,h.upToDate.change (fun _ => False.elim)
      fun _ _ _ => id,nofun⟩

theorem TlbInv.mark (h : TlbInv img s₀ ⟨mm,live,.mark i numPages j,tlb⟩) :
    TlbInv img s₀ (mmTurn img ⟨mm,live,.mark i numPages j,tlb⟩) := by
  obtain ⟨hr,h₀,runs,hi,hfree,hpos,hlive,htables,hj,hpages⟩ := h.heap nofun
  unfold mmTurn
  dsimp only at hlive htables hj hpages ⊢
  by_cases hlt : j < numPages.toNat
  · rw [if_pos hlt]
    refine ⟨fun _ => ⟨hr,h₀,runs,hi,hfree,hpos,hlive,htables,hlt,?_⟩,h.upToDate,nofun⟩
    dsimp only
    rw [hpages,setRun_snoc]
  · rw [if_neg hlt]
    refine ⟨fun _ => ⟨hr,h₀,runs,hi,hfree,hpos,hlive,?_,Nat.zero_le _,htables⟩,h.upToDate,nofun⟩
    dsimp only
    rw [hpages,Nat.le_antisymm hj (Nat.le_of_not_lt hlt)]

theorem TlbInv.mapL1 (h : TlbInv img s₀ ⟨mm,live,.mapL1 i numPages k,tlb⟩) :
    TlbInv img s₀ (mmTurn img ⟨mm,live,.mapL1 i numPages k,tlb⟩) := by
  obtain ⟨hr,h₀,runs,hi,hfree,hpos,hlive,hpages,hk,htables⟩ := h.heap nofun
  have hb := hfree.1
  have hturns : pageTurns (byteSize numPages) = numPages.toNat :=
    pageTurns_pages numPages (by omega)
  unfold mmTurn
  dsimp only at hr hlive hpages htables ⊢
  rw [hturns]
  by_cases hlt : k < numPages.toNat
  · rw [if_pos hlt]
    rw [htables] at hr
    obtain ⟨⟨t,ht⟩,_⟩ := mappedPages_walk hi.tables (k := k) (by omega) (by omega) hr
    rw [← htables] at hr ht
    obtain ⟨hkept,hnext⟩ := ht.mapL1 hr .kernelL1 (l1Idx (img.allocVa i k))
    have hcurrent : UpToDate (img.kernelTranslate (ensureTable img.tables kernelVirtBase
        (img.rootPtr .kernelL1) (l1Idx (img.allocVa i k)) mm.tables)) (fun _ => False) tlb :=
      h.upToDate.change (fun _ => False.elim)
        fun key d _ => kernelTranslate_kept fun va d => hkept .kernelL1 va d
    by_cases hl2 : nextTable kernelVirtBase (img.rootPtr .kernelL1) (l1Idx (img.allocVa i k))
        (ensureTable img.tables kernelVirtBase (img.rootPtr .kernelL1) (l1Idx (img.allocVa i k))
          mm.tables) = 0
    · rw [if_pos hl2]
      exact ⟨fun hf => absurd rfl hf,hcurrent,nofun⟩
    · rw [if_neg hl2]
      obtain ⟨hr',_⟩ := hnext hl2
      exact ⟨fun _ => ⟨hr',h₀,runs,hi,hfree,hpos,hlive,hpages,hlt,_,htables,hr,rfl,rfl,hl2⟩,
        hcurrent,nofun⟩
  · rw [if_neg hlt]
    have hall : k = numPages.toNat := Nat.le_antisymm hk (Nat.le_of_not_lt hlt)
    rw [hall,mappedPages_region (by omega)] at htables
    have hi' := hi.take hpos hfree hpages htables hr
    rw [allocPtr_eq]
    exact ⟨fun _ => ⟨hr,_,_,hi',by rw [hlive]; rfl⟩,h.upToDate,nofun⟩

theorem TlbInv.mapL2 {l2 : Word} (h : TlbInv img s₀ ⟨mm,live,.mapL2 i numPages k l2,tlb⟩) :
    TlbInv img s₀ (mmTurn img ⟨mm,live,.mapL2 i numPages k l2,tlb⟩) := by
  obtain ⟨hr,h₀,runs,hi,hfree,hpos,hlive,hpages,hlt,m,hm,hrm,htables,hl2,hne⟩ := h.heap nofun
  have hb := hfree.1
  unfold mmTurn
  dsimp only at hr hlive hpages htables hl2 ⊢
  obtain ⟨⟨t,ht⟩,_⟩ := mappedPages_walk hi.tables (k := k) (by omega) (by omega) (hm ▸ hrm)
  rw [← hm] at ht
  have hfirst : mm.tables.ranOut = false ∧ ∃ t' a, Tree img.tables mm.tables t' ∧
      t'.l2 .kernelL1 (l1Idx (img.allocVa i k)) = some a ∧
      l2 = img.tables.table a + kernelVirtBase ∧
      ∀ r va, walk mm.tables.mem (img.tables.root r) va = walk m.mem (img.tables.root r) va := by
    rw [hl2,htables] at hne ⊢
    exact (ht.mapL1 hrm .kernelL1 (l1Idx (img.allocVa i k))).2 hne
  obtain ⟨_,t',a,ht',ha,hptr,hwalk⟩ := hfirst
  obtain ⟨hkept,hnext⟩ := ht'.mapL2 hr ha (l2Idx (img.allocVa i k))
  rw [← hptr] at hkept hnext
  have hcurrent : UpToDate (img.kernelTranslate (ensureTable img.tables kernelVirtBase l2
      (l2Idx (img.allocVa i k)) mm.tables)) (fun _ => False) tlb :=
    h.upToDate.change (fun _ => False.elim)
      fun key d _ => kernelTranslate_kept fun va d => hkept .kernelL1 va d
  by_cases hl3 : nextTable kernelVirtBase l2 (l2Idx (img.allocVa i k))
      (ensureTable img.tables kernelVirtBase l2 (l2Idx (img.allocVa i k)) mm.tables) = 0
  · rw [if_pos hl3]
    exact ⟨fun hf => absurd rfl hf,hcurrent,nofun⟩
  · rw [if_neg hl3]
    obtain ⟨hr',_,_,_,_,_,hwalk'⟩ := hnext hl3
    refine ⟨fun _ => ⟨hr',h₀,runs,hi,hfree,hpos,hlive,hpages,hlt,fun va => ?_,?_⟩,hcurrent,nofun⟩
    · rw [← hm]
      exact (hwalk' .kernelL1 va).trans (hwalk .kernelL1 va)
    · rw [mappedPages_succ,← hm,mapPage]
      dsimp only
      rw [← htables,← hl2]

/-- The store that maps a page: it had no translation before. -/
theorem TlbInv.mapL3 {l3 : Word} (h : TlbInv img s₀ ⟨mm,live,.mapL3 i numPages k l3,tlb⟩) :
    TlbInv img s₀ (mmTurn img ⟨mm,live,.mapL3 i numPages k l3,tlb⟩) := by
  obtain ⟨hr,h₀,runs,hi,hfree,hpos,hlive,hpages,hlt,hwalk,hstore⟩ := h.heap nofun
  have hb := hfree.1
  unfold mmTurn
  dsimp only at hr hlive hpages hwalk hstore ⊢
  rw [hstore]
  have hr' : (mappedPages img i (k + 1) h₀.mm.tables).ranOut = false := by
    rw [← hstore]
    exact hr
  have hrm : (mappedPages img i k h₀.mm.tables).ranOut = false := by
    rw [mappedPages_succ] at hr'
    exact mapPage_ranOut hr'
  refine ⟨fun _ => ⟨hr',h₀,runs,hi,hfree,hpos,hlive,hpages,hlt,rfl⟩,?_,nofun⟩
  obtain ⟨hok,hout⟩ := mappedPages_walk hi.tables (k := k) (by omega) (by omega) hrm
  have hnone : walk (mappedPages img i k h₀.mm.tables).mem (img.tables.root .kernelL1)
      (img.heapVa (i + k)) = none := by
    have hnum := pageNumber_heapVa img (i := i + k) (by omega)
    rw [hout _ (by omega)]
    refine (hi.mapped _ (i + k) (by omega) hnum).trans (if_neg ?_)
    rw [hfree.2 _ (mem_run.mpr ⟨Nat.le_add_right i k,Nat.add_lt_add_left hlt i⟩)]
    decide
  rw [mappedPages_succ] at hr' ⊢
  obtain ⟨_,hmap⟩ := mapPage_walk hok hr'
  refine h.upToDate.change (fun _ => False.elim) fun key d _ =>
    kernelTranslate_kept fun va d hva => ?_
  rw [show walk mm.tables.mem _ va = _ from hwalk va] at hva
  refine (hmap .kernelL1 va).trans ((if_neg fun hin => ?_).trans hva)
  rw [allocVa_eq img (by omega)] at hin
  rw [walk_page hin.2,hnone] at hva
  exact nomatch hva

theorem TlbInv.zero (h : TlbInv img s₀ ⟨mm,live,.zero ptr numPages,tlb⟩) :
    TlbInv img s₀ (mmTurn img ⟨mm,live,.zero ptr numPages,tlb⟩) := by
  obtain ⟨hr,h₀,runs,hi,hl,hlive,htables,hpages⟩ := h.heap nofun
  exact ⟨fun _ => ⟨hr,h₀,runs,hi,hl,hlive,htables,Nat.zero_le _,hpages⟩,h.upToDate,nofun⟩

theorem TlbInv.clear (h : TlbInv img s₀ ⟨mm,live,.clear ptr numPages j,tlb⟩) :
    TlbInv img s₀ (mmTurn img ⟨mm,live,.clear ptr numPages j,tlb⟩) := by
  obtain ⟨hr,h₀,runs,hi,hl,hlive,htables,hj,hpages⟩ := h.heap nofun
  unfold mmTurn
  dsimp only at hlive htables hpages ⊢
  by_cases hlt : j < numPages.toNat
  · rw [if_pos hlt]
    refine ⟨fun _ => ⟨hr,h₀,runs,hi,hl,hlive,htables,hlt,?_⟩,h.upToDate,nofun⟩
    dsimp only
    rw [hpages,setRun_snoc]
  · rw [if_neg hlt]
    refine ⟨fun _ => ⟨hr,h₀,runs,hi,hl,hlive,?_,Nat.zero_le _,htables⟩,h.upToDate,nofun⟩
    dsimp only
    rw [hpages,Nat.le_antisymm hj (Nat.le_of_not_lt hlt)]

theorem TlbInv.unmap (h : TlbInv img s₀ ⟨mm,live,.unmap ptr numPages k,tlb⟩) :
    TlbInv img s₀ (mmTurn img ⟨mm,live,.unmap ptr numPages k,tlb⟩) := by
  obtain ⟨hr,h₀,runs,hi,hl,hlive,hpages,hk,htables⟩ := h.heap nofun
  obtain ⟨i,hptr,hpos,hb,_⟩ := hi.run hl
  have hmax : maxPages = 131072 := rfl
  have hturns : pageTurns (byteSize numPages) = numPages.toNat :=
    pageTurns_pages numPages (by omega)
  have hcurrent := h.upToDate
  unfold mmTurn
  dsimp only at hr hlive hpages htables hcurrent ⊢
  rw [hturns]
  by_cases hlt : k < numPages.toNat
  · rw [if_pos hlt]
    refine ⟨fun _ => ⟨(unmapPage_ranOut _ _ _ _).trans hr,h₀,runs,hi,hl,hlive,hpages,hlt,?_⟩,?_,
      nofun⟩
    · rw [unmappedPages_succ,← htables]
    · refine hcurrent.change (fun _ hp => hp) fun key d hfree hd => ?_
      have hne : key ≠ tlbKey (img.heapVa (i + k)) := by
        rintro rfl
        exact hfree ⟨k,hlt,by rw [hptr,heapVa_add]⟩
      have hok : TablesOk img.tables mm.tables := by
        rw [htables]
        exact (unmapPages_walk hi.tables kernelVirtBase .kernelL1 ptr (by omega)).1
      obtain ⟨_,hwalk⟩ := unmapPage_walk hok kernelVirtBase .kernelL1
        (ptr + BitVec.ofNat 64 (4096 * k))
      rw [← hd]
      refine kernelTranslate_change (i := i + k) (by omega) (fun va hva => ?_) hne
      refine (hwalk .kernelL1 va).trans (if_neg fun hin => hva ?_)
      rw [hin.2,hptr,heapVa_add,pageNumber_heapVa img (by omega)]
  · rw [if_neg hlt]
    have hall : k = numPages.toNat := Nat.le_antisymm hk (Nat.le_of_not_lt hlt)
    rw [hall] at htables
    refine ⟨fun _ => ⟨hr,h₀,runs,hi,hl,hlive,Nat.zero_le _,hpages,htables⟩,hcurrent,?_⟩
    intro ptr' numPages' j hpc l hlj
    obtain ⟨rfl,rfl,rfl⟩ := MmPc.flush.inj hpc
    exact absurd hlj (Nat.not_lt_zero l)

theorem TlbInv.flush (h : TlbInv img s₀ ⟨mm,live,.flush ptr numPages j,tlb⟩) :
    TlbInv img s₀ (mmTurn img ⟨mm,live,.flush ptr numPages j,tlb⟩) := by
  obtain ⟨hr,h₀,runs,hi,hl,hlive,hj,hpages,htables⟩ := h.heap nofun
  obtain ⟨i,_,_,hb,_⟩ := hi.run hl
  have hflushed := h.flushed ptr numPages j rfl
  have hcurrent := h.upToDate
  unfold mmTurn
  dsimp only at hr hlive hpages htables hflushed hcurrent ⊢
  by_cases hlt : j < numPages.toNat
  · rw [if_pos hlt]
    rw [flush_va ptr hlt (by omega)]
    generalize hva : ptr + BitVec.ofNat 64 (4096 * j) = va
    have hkept := hcurrent.invalidate fun key => key == tlbKey va
    refine ⟨fun _ => ⟨hr,h₀,runs,hi,hl,hlive,hlt,hpages,htables⟩,hkept,?_⟩
    intro ptr' numPages' j' hpc l hlj
    obtain ⟨rfl,rfl,rfl⟩ := MmPc.flush.inj hpc
    obtain hlt' | rfl := Nat.lt_succ_iff_lt_or_eq.mp hlj
    · exact (hflushed l hlt').invalidate fun key => key == tlbKey va
    · rw [hva]
      exact absent_flushPage va tlb
  · rw [if_neg hlt]
    have hall : j = numPages.toNat := Nat.le_antisymm hj (Nat.le_of_not_lt hlt)
    subst hall
    obtain ⟨runs',hi'⟩ := hi.freed hl hpages htables
    refine ⟨fun _ => ⟨hr,_,runs',hi',by rw [hlive]; rfl⟩,hcurrent.settle ?_,nofun⟩
    rintro key ⟨l,hlt',rfl⟩
    exact hflushed l hlt'

theorem TlbInv.turn {s : TlbState κ} (h : TlbInv img s₀ s) : TlbInv img s₀ (mmTurn img s) := by
  obtain ⟨mm,live,pc,tlb⟩ := s
  cases pc with
  | idle => exact h
  | fault => exact h
  | mark i numPages j => exact h.mark
  | mapL1 i numPages k => exact h.mapL1
  | mapL2 i numPages k l2 => exact h.mapL2
  | mapL3 i numPages k l3 => exact h.mapL3
  | zero ptr numPages => exact h.zero
  | clear ptr numPages j => exact h.clear
  | unmap ptr numPages k => exact h.unmap
  | flush ptr numPages j => exact h.flush

theorem TlbInv.step [DecidableEq κ] (s : TlbState κ) (e : TlbEvent κ) (h : TlbInv img s₀ s)
    (he : TlbLegal s e) : TlbInv img s₀ (tlbStep img s e) := by
  cases e with
  | call c =>
    obtain ⟨mm,live,pc,tlb⟩ := s
    unfold tlbStep
    cases pc with
    | idle => exact h.call c he
    | _ => exact h
  | turn => exact h.turn
  | fill core key => exact h.fill core key

theorem TlbInv.current {s : TlbState κ} (h : TlbInv img s₀ s) : TlbCurrent img s := by
  intro core e he i hi hpage hfree
  have hd := h.upToDate core e he hfree
  rwa [hpage,kernelTranslate_heapVa s.mm.tables hi] at hd

theorem tlbStep_pc [DecidableEq κ] {e : TlbEvent κ} (hbusy : s.pc ≠ .idle)
    (he : e.isTurn = false) : (tlbStep img s e).pc = s.pc := by
  cases e with
  | call c =>
    obtain ⟨mm,live,pc,tlb⟩ := s
    cases pc with
    | idle => exact absurd rfl hbusy
    | _ => rfl
  | turn => cases he
  | fill core key =>
    unfold tlbStep
    dsimp only
    cases img.kernelTranslate s.mm.tables key <;> rfl

theorem TlbInv.free_turn (h : TlbInv img s₀ s) (hf : s.pc.freeing = some (ptr,numPages))
    (hn : numPages.toNat ≤ maxPages) :
    ((mmTurn img s).pc.freeing = some (ptr,numPages) ∧
        (mmTurn img s).pc.turnsLeft < s.pc.turnsLeft) ∨
      (mmTurn img s).pc = .idle ∧ ∀ k < numPages.toNat,
        Absent (mmTurn img s).tlb (tlbKey (ptr + BitVec.ofNat 64 (4096 * k))) := by
  have hturns : pageTurns (byteSize numPages) = numPages.toNat := pageTurns_pages numPages hn
  obtain ⟨mm,live,pc,tlb⟩ := s
  have hflushed := h.flushed ptr numPages
  cases pc with
  | idle | fault | mark _ _ _ | mapL1 _ _ _ | mapL2 _ _ _ _ | mapL3 _ _ _ _ => cases hf
  | zero ptr' numPages' =>
    obtain ⟨rfl,rfl⟩ := Prod.mk.inj (Option.some.inj hf)
    refine .inl ⟨rfl,?_⟩
    simp only [mmTurn,MmPc.turnsLeft]
    omega
  | clear ptr' numPages' j =>
    obtain ⟨rfl,rfl⟩ := Prod.mk.inj (Option.some.inj hf)
    by_cases hlt : j < numPages'.toNat
    · simp only [mmTurn,if_pos hlt,MmPc.turnsLeft]
      exact .inl ⟨rfl,by omega⟩
    · simp only [mmTurn,if_neg hlt,MmPc.turnsLeft]
      exact .inl ⟨rfl,by omega⟩
  | unmap ptr' numPages' k =>
    obtain ⟨rfl,rfl⟩ := Prod.mk.inj (Option.some.inj hf)
    by_cases hlt : k < numPages'.toNat
    · simp only [mmTurn,hturns,if_pos hlt,MmPc.turnsLeft]
      exact .inl ⟨rfl,by omega⟩
    · simp only [mmTurn,hturns,if_neg hlt,MmPc.turnsLeft]
      exact .inl ⟨rfl,by omega⟩
  | flush ptr' numPages' j =>
    obtain ⟨rfl,rfl⟩ := Prod.mk.inj (Option.some.inj hf)
    by_cases hlt : j < numPages'.toNat
    · simp only [mmTurn,if_pos hlt,MmPc.turnsLeft]
      exact .inl ⟨rfl,by omega⟩
    · unfold mmTurn
      dsimp only
      rw [if_neg hlt]
      exact .inr ⟨rfl,fun k hk => hflushed j rfl k (by omega)⟩

theorem MmPc.busy {pc : MmPc} {p : Word × BitVec 32} (hf : pc.freeing = some p) : pc ≠ .idle := by
  rintro rfl
  cases hf

theorem MmPc.turnsLeft_pos {pc : MmPc} {p : Word × BitVec 32} (hf : pc.freeing = some p) :
    0 < pc.turnsLeft := by
  cases pc with
  | idle | fault | mark _ _ _ | mapL1 _ _ _ | mapL2 _ _ _ _ | mapL3 _ _ _ _ => cases hf
  | zero _ _ | clear _ _ _ | unmap _ _ _ | flush _ _ _ => exact Nat.succ_pos _

theorem TlbInv.free_step [DecidableEq κ] (h : TlbInv img s₀ s)
    (hf : s.pc.freeing = some (ptr,numPages)) (hn : numPages.toNat ≤ maxPages) (e : TlbEvent κ) :
    let s' := tlbStep img s e
    (s'.pc.freeing = some (ptr,numPages) ∧
        s'.pc.turnsLeft + e.isTurn.toNat ≤ s.pc.turnsLeft) ∨
      s'.pc = .idle ∧
        ∀ k < numPages.toNat, Absent s'.tlb (tlbKey (ptr + BitVec.ofNat 64 (4096 * k))) := by
  cases he : e.isTurn with
  | true =>
    cases e with
    | turn => exact h.free_turn hf hn
    | call c | fill core key => cases he
  | false =>
    have hpc : (tlbStep img s e).pc = s.pc := tlbStep_pc (MmPc.busy hf) he
    exact .inl ⟨by rw [hpc,hf],Nat.le_of_eq (by rw [hpc]; rfl)⟩

/-- When mm_free_pages returns, no TLB holds a page that it freed. -/
theorem TlbInv.freed [DecidableEq κ] (h : TlbInv img s₀ s)
    (hf : s.pc.freeing = some (ptr,numPages)) (hn : numPages.toNat ≤ maxPages)
    {mid : List (TlbEvent κ)} (hmid : Along (tlbStep img) TlbLegal s mid)
    (hret : Returns img s mid) {k : Nat} (hk : k < numPages.toNat) :
    Absent (exec (tlbStep img) s mid).tlb (tlbKey (ptr + BitVec.ofNat 64 (4096 * k))) := by
  induction mid generalizing s with
  | nil => exact absurd hret (MmPc.busy hf)
  | cons e mid ih =>
    rcases h.free_step hf hn e with ⟨hf',_⟩ | ⟨hidle,habsent⟩
    · exact ih (h.step _ e hmid.1) hf' hmid.2 hret.2
    · cases mid with
      | nil => exact habsent k hk
      | cons e' mid => exact absurd hidle hret.2.1

/-- mm_free_pages returns after its turns. -/
theorem TlbInv.free_returns [DecidableEq κ] (h : TlbInv img s₀ s)
    (hf : s.pc.freeing = some (ptr,numPages)) (hn : numPages.toNat ≤ maxPages)
    {es : List (TlbEvent κ)} (hes : Along (tlbStep img) TlbLegal s es)
    (hturns : s.pc.turnsLeft ≤ es.countP TlbEvent.isTurn) :
    ∃ mid post, es = mid ++ post ∧ Returns img s mid := by
  induction es generalizing s with
  | nil => exact absurd hturns (Nat.not_le_of_lt (MmPc.turnsLeft_pos hf))
  | cons e es ih =>
    rcases h.free_step hf hn e with ⟨hf',hleft⟩ | ⟨hidle,_⟩
    · rw [countP_cons_toNat] at hturns
      obtain ⟨mid,post,rfl,hret⟩ := ih (h.step _ e hes.1) hf' hes.2 (by omega)
      exact ⟨e :: mid,post,rfl,MmPc.busy hf,hret⟩
    · exact ⟨[e],es,rfl,MmPc.busy hf,hidle⟩

theorem TlbInv.free_called [DecidableEq κ] (h : TlbInv img s₀ s) (hidle : s.pc = .idle)
    (hc : TlbLegal s (.call (.free ptr numPages))) : numPages.toNat ≤ maxPages ∧
      (tlbStep img s (.call (.free ptr numPages))).pc = .zero ptr numPages := by
  obtain ⟨mm,live,pc,tlb⟩ := s
  obtain rfl : pc = .idle := hidle
  obtain ⟨_,h₀,runs,hi,hphase⟩ := h.heap nofun
  obtain rfl : h₀ = ⟨mm,live⟩ := hphase
  obtain ⟨i,hptr,hpos,hb,_⟩ := hi.run hc
  have h0 : ptr ≠ 0 := hptr ▸ heapVa_ne_zero img (i := i) (by omega)
  refine ⟨by omega,?_⟩
  simp only [tlbStep,startCall,if_neg h0]

theorem TlbInv.frees [DecidableEq κ] (h : TlbInv img s₀ s) {es : List (TlbEvent κ)}
    (hes : Along (tlbStep img) TlbLegal s es) : FreesFlushed img s es := by
  rintro pre ptr numPages rest rfl hidle
  obtain ⟨hpre,hcall,hrest⟩ := (along_append _ _ _ _ _).mp hes
  have hs := exec_invariant (fun s e h he => h.step s e he) h hpre
  obtain ⟨hn,hpc⟩ := hs.free_called hidle hcall
  have hs' := hs.step _ _ hcall
  rw [exec_snoc]
  generalize tlbStep img (exec (tlbStep img) s pre) (.call (.free ptr numPages)) = called
    at hrest hpc hs'
  have hf : called.pc.freeing = some (ptr,numPages) := by rw [hpc]; rfl
  refine ⟨fun hturns => hs'.free_returns hf hn hrest ?_,?_⟩
  · rw [hpc]
    exact hturns
  · rintro mid post rfl hret k hk
    exact hs'.freed hf hn ((along_append _ _ _ _ _).mp hrest).1 hret hk

end Steps

def TlbState.start (κ : Type) (mm : Mm) : TlbState κ := ⟨mm,[],.idle,fun _ => []⟩

theorem TlbInv.start (κ : Type) {img : KernelImage} {s₀ : Mm} (h : HeapStart img s₀)
    (hr : s₀.tables.ranOut = false) : TlbInv img s₀ (.start κ s₀) :=
  ⟨fun _ => ⟨hr,⟨s₀,[]⟩,[],h.inv,rfl⟩,upToDate_empty _ _,nofun⟩

/-- No stale translation survives a free, whatever the TLBs take up and when. -/
theorem tlb_never_stale {κ : Type} [DecidableEq κ] {img : KernelImage} {s₀ : Mm}
    (hstart : HeapStart img s₀) (hr : s₀.tables.ranOut = false) (es : List (TlbEvent κ))
    (hes : Along (tlbStep img) TlbLegal (.start κ s₀) es) :
    FreesFlushed img (.start κ s₀) es ∧
      TlbCurrent img (exec (tlbStep img) (.start κ s₀) es) := by
  have hs := TlbInv.start κ hstart hr
  exact ⟨hs.frees hes,(exec_invariant (fun s e h he => h.step s e he) hs hes).current⟩

/-- Two pages are mapped, and one of two cores takes up the translations of both. -/
def allocateAndFill : List (TlbEvent Bool) :=
  .call (.allocate 2) :: (List.replicate 10 .turn ++
    [.fill false 0xFFFFFFFF40500,.fill false 0xFFFFFFFF40501])

/-- While they are freed, the other core takes up the translation of the second one between the
turns that unmap them. -/
def freeAndFill : List (TlbEvent Bool) :=
  List.replicate 5 .turn ++ [.fill true 0xFFFFFFFF40500,.fill true 0xFFFFFFFF40501] ++
    List.replicate 5 .turn

/-- The pages are freed and allocated again. -/
theorem tlb_never_stale_reuse :
    let free : TlbEvent Bool := .call (.free 0xFFFFFFFF40500000 2)
    let es := allocateAndFill ++ free :: (freeAndFill ++ allocateAndFill)
    let called := exec (tlbStep testKernelImage) (.start Bool zeroMm) (allocateAndFill ++ [free])
    Along (tlbStep testKernelImage) TlbLegal (.start Bool zeroMm) es ∧
      Returns testKernelImage called freeAndFill ∧
      ((exec (tlbStep testKernelImage) called (freeAndFill.take 7)).tlb true).map Entry.page =
        [tlbKey 0xFFFFFFFF40501000] ∧
      (∀ k < 2, Absent (exec (tlbStep testKernelImage) called freeAndFill).tlb
        (tlbKey (0xFFFFFFFF40500000 + BitVec.ofNat 64 (4096 * k)))) ∧
      TlbCurrent testKernelImage (exec (tlbStep testKernelImage) (.start Bool zeroMm) es) := by
  intro free es called
  have hlegal : Along (tlbStep testKernelImage) TlbLegal (.start Bool zeroMm) es := by
    decide +kernel
  have hidle : (exec (tlbStep testKernelImage) (.start Bool zeroMm) allocateAndFill).pc =
      .idle := by decide +kernel
  have hret : Returns testKernelImage called freeAndFill := by decide +kernel
  obtain ⟨hfrees,hcurrent⟩ := tlb_never_stale zeroMm_start rfl es hlegal
  exact ⟨hlegal,hret,by decide +kernel,
    (hfrees allocateAndFill 0xFFFFFFFF40500000 2 (freeAndFill ++ allocateAndFill) rfl hidle).2
      freeAndFill allocateAndFill rfl hret,hcurrent⟩

end Arm64

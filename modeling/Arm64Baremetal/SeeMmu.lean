import Arm64Baremetal.El3Mmu
import Arm64Baremetal.PageMap

/-!
see_mmu.c: the tables of SEEOS. Its mapper is the one of the kernel with the MMU off, as
long as the tables it takes from the pool are zero beforehand: it clears 512 bytes of each.
-/

set_option autoImplicit false

namespace Arm64
open Runs

def smemBuffer : Word := 0x40800000
def secureUart1 : Word := 0x09040000

variable {ρ : Type}

/-- `mem_zero(table, 512)`, which stops after 64 entries. -/
def memZeroTable (p : Word) (m : Tables) : Tables :=
  { m with mem := Function.update m.mem p fun i => if i.val < 64 then 0 else m.mem p i }

def seeAllocTable (A : TableArea ρ) (m : Tables) : Word × Tables :=
  if A.slots ≤ m.used then (0,{ m with ranOut := true })
  else
    let table := A.pool + BitVec.ofNat 64 (4096 * m.used)
    (table,memZeroTable table { m with used := m.used + 1 })

/-- `if (!(table[i] & 1)) table[i] = (uint64_t)see_alloc_table() | PTE_TYPE_TABLE;` -/
def seeEnsureTable (A : TableArea ρ) (table : Word) (i : Fin 512) (m : Tables) : Tables :=
  if m.load 0 table i &&& 1 = 0 then
    let r := seeAllocTable A m
    r.2.store 0 table i (r.1 ||| pteTypeTable)
  else m

def seeMapPage (A : TableArea ρ) (l1 va pa flags : Word) (m : Tables) : Tables :=
  let m := seeEnsureTable A l1 (l1Idx va) m
  let l2 := nextTable 0 l1 (l1Idx va) m
  let m := seeEnsureTable A l2 (l2Idx va) m
  let l3 := nextTable 0 l2 (l2Idx va) m
  m.store 0 l3 (l3Idx va) (pa &&& ~~~0xFFF ||| flags ||| pteTypePage)

def seeMapRegion (A : TableArea ρ) (l1 vaStart paStart size flags : Word) (m : Tables) :
    Tables :=
  let va := vaStart &&& ~~~0xFFF
  let pa := paStart &&& ~~~0xFFF
  (List.range (pageTurns size)).foldl (fun m n =>
    let i := BitVec.ofNat 64 (4096 * n)
    seeMapPage A l1 (va + i) (pa + i) flags m) m

/-- Calls of see_map_page and see_map_region on seeos_l1_table. -/
inductive SeeCall where
  | seeMapPage (va pa flags : Word)
  | seeMapRegion (vaStart paStart size flags : Word)

def seeCall (A : TableArea Unit) (m : Tables) : SeeCall → Tables
  | .seeMapPage va pa flags => seeMapPage A (A.root ()) va pa flags m
  | .seeMapRegion vaStart paStart size flags =>
      seeMapRegion A (A.root ()) vaStart paStart size flags m

/-- The calls of seeos_init_mmu_global, with `start` the address of _seeos_start. -/
def seeosInitCalls (start : Word) : List SeeCall :=
  [.seeMapRegion start start 0x300000 (protNormalMem ||| apEl0NoElxRw),
    .seeMapPage smemBuffer smemBuffer
      (protNormalNc ||| apEl0NoElxRw ||| pteUxn ||| ptePxn ||| pteNs),
    .seeMapPage secureUart1 secureUart1 (protDeviceNgnre ||| apEl0NoElxRw ||| pteUxn ||| ptePxn),
    .seeMapRegion gicdBase gicdBase 0x10000 (protDevice ||| apEl0NoElxRw ||| pteUxn ||| ptePxn),
    .seeMapRegion gicrBase gicrBase 0x80000 (protDevice ||| apEl0NoElxRw ||| pteUxn ||| ptePxn)]

def seeosInitMmuGlobal (A : TableArea Unit) (start : Word) (m : Tables) : Tables :=
  exec (seeCall A) (memZeroTable (A.root ()) m) (seeosInitCalls start)

def seeosEnableMmu (A : TableArea Unit) (regs : MmuRegs) : MmuRegs :=
  { regs with
    tcrEl1 := tcrEl1T0sz032 ||| tcrTg04kb ||| tcrSh0InnerShareable |||
      tcrIrgn0NormalMemoryIwbraWac ||| tcrOrgn0NormalMemoryOwbraWac
    ttbr0El1 := A.root ()
    sctlrEl1 := regs.sctlrEl1 ||| (sctlrM ||| sctlrC ||| sctlrI ||| sctlrSa ||| sctlrSa0) }

/-- The call on the kernel's mapper that does the same. -/
def SeeCall.toMapCall : SeeCall → MapCall Unit
  | .seeMapPage va pa flags => .mapPageVirtual () va pa flags
  | .seeMapRegion vaStart paStart size flags => .mapRegionVirtual () vaStart paStart size flags

/-- The tables of the pool that have not been given out are zero. -/
def PoolZero (A : TableArea ρ) (m : Tables) : Prop :=
  ∀ a : Fin A.slots, m.used ≤ a.val → ∀ i, m.mem (A.table a) i = 0

/-- The state of the mapper, also when it has run out of tables. -/
structure MapperOk (A : TableArea ρ) (m : Tables) : Prop where
  full : m.ranOut = true → A.slots ≤ m.used
  ok : m.ranOut = false → TablesOk A m
  zero : PoolZero A m

variable {A : TableArea ρ} {m : Tables}

theorem root_add_zero (A : TableArea ρ) (r : ρ) : A.root r + 0 = A.root r := BitVec.add_zero _

theorem PoolZero.put (h : PoolZero A m) {p : Word} (hp : ∀ a : Fin A.slots, m.used ≤ a.val →
    A.table a ≠ p) (i : Fin 512) (val : Word) : PoolZero A (m.put p i val) := by
  intro a ha j
  rw [Tables.put_mem,if_neg fun he => hp a ha he.1]
  exact h a ha j

theorem PoolZero.allocateTable (h : PoolZero A m) (off : Word) :
    PoolZero A (allocateTable A off m).2 := by
  unfold Arm64.allocateTable
  split
  · exact h
  · intro a ha j
    dsimp only at ha ⊢
    rw [BitVec.add_sub_cancel,Function.update_of_ne]
    · exact h a (by omega) j
    · intro he
      have hu : m.used < A.slots := by omega
      have hv : a.val = m.used := congrArg Fin.val (A.table_inj (b := ⟨m.used,hu⟩) he)
      omega

theorem allocateTable_used (A : TableArea ρ) (off : Word) (m : Tables) :
    m.used ≤ (allocateTable A off m).2.used := by
  unfold allocateTable
  split
  · exact Nat.le_refl _
  · exact Nat.le_succ _

theorem PoolZero.ensureTable (h : PoolZero A m) {p : Word} (hp : ∀ a : Fin A.slots,
    m.used ≤ a.val → A.table a ≠ p) (off : Word) (i : Fin 512) :
    PoolZero A (ensureTable A off (p + off) i m) := by
  unfold Arm64.ensureTable
  split
  · have hused := allocateTable_used A off m
    dsimp only
    rw [Tables.store_add]
    exact (h.allocateTable off).put (fun a ha => hp a (by omega)) _ _
  · exact h

theorem seeAllocTable_eq (h : PoolZero A m) : seeAllocTable A m = allocateTable A 0 m := by
  unfold seeAllocTable allocateTable
  split
  · rfl
  · have hzero := h ⟨m.used,by omega⟩ (Nat.le_refl _)
    simp only [TableArea.table] at hzero
    simp [memZeroTable,hzero]

theorem seeEnsureTable_eq (h : PoolZero A m) (table : Word) (i : Fin 512) :
    seeEnsureTable A table i m = ensureTable A 0 table i m := by
  unfold seeEnsureTable ensureTable
  rw [seeAllocTable_eq h]
  simp

theorem seeMapPage_eq (h : PoolZero A m) (r : ρ) (va pa flags : Word) :
    seeMapPage A (A.root r) va pa flags m = mapPage A 0 (A.root r) va pa flags m := by
  have hl2 : PoolZero A (ensureTable A 0 (A.root r) (l1Idx va) m) := by
    have := h.ensureTable (fun a _ => (A.root_ne_table r a).symm) 0 (l1Idx va)
    rwa [root_add_zero] at this
  unfold seeMapPage mapPage
  rw [seeEnsureTable_eq h]
  dsimp only
  rw [seeEnsureTable_eq hl2]

theorem ensureTable_full (hf : m.ranOut = true → A.slots ≤ m.used) (off table : Word)
    (i : Fin 512) (hr : (ensureTable A off table i m).ranOut = true) :
    A.slots ≤ (ensureTable A off table i m).used := by
  unfold ensureTable allocateTable at *
  by_cases hl : m.load off table i &&& 1 = 0
  · rw [if_pos hl] at hr ⊢
    by_cases hu : A.slots ≤ m.used
    · rw [if_pos hu]
      exact hu
    · rw [if_neg hu] at hr ⊢
      exact Nat.le_succ_of_le (hf hr)
  · rw [if_neg hl] at hr ⊢
    exact hf hr

section Steps
variable [DecidableEq ρ]

theorem PoolZero.mapPage (h : PoolZero A m) (hok : TablesOk A m) {off : Word} {r : ρ}
    {va pa flags : Word} (hr : (mapPage A off (A.root r + off) va pa flags m).ranOut = false) :
    PoolZero A (mapPage A off (A.root r + off) va pa flags m) := by
  obtain ⟨t,ht⟩ := hok
  have hlater : ∀ {m : Tables} {a b : Fin A.slots}, b.val < m.used → m.used ≤ a.val →
      A.table a ≠ A.table b := by
    intro m a b hb ha he
    have := A.table_inj he
    subst this
    omega
  unfold Arm64.mapPage at hr ⊢
  dsimp only at hr ⊢
  obtain ⟨t₁,a,h₁,ha,_⟩ := ht.ensureL2 r (l1Idx va) (ensureTable_ranOut _ _ _ hr)
  have hz₁ := h.ensureTable (fun a _ => (A.root_ne_table r a).symm) off (l1Idx va)
  rw [h₁.nextL2 ha] at hr ⊢
  obtain ⟨t₂,b,h₂,hl2,hb,_⟩ := h₁.ensureL3 ha (l2Idx va) hr
  have hz₂ := hz₁.ensureTable (fun _ => hlater (h₁.used2 ha)) off (l2Idx va)
  rw [h₂.nextL3 (hl2 ▸ ha) hb,Tables.store_add]
  exact hz₂.put (fun _ => hlater (h₂.used3 _ _ _ _ hb)) _ _

theorem MapperOk.mapPage (h : MapperOk A m) (off : Word) (r : ρ) (va pa flags : Word) :
    MapperOk A (mapPage A off (A.root r + off) va pa flags m) := by
  have hfull : (Arm64.mapPage A off (A.root r + off) va pa flags m).ranOut = true →
      A.slots ≤ (Arm64.mapPage A off (A.root r + off) va pa flags m).used :=
    ensureTable_full (ensureTable_full h.full _ _ _) _ _ _
  refine ⟨hfull,fun hr => (mapPage_walk (h.ok (mapPage_ranOut hr)) hr).1,?_⟩
  cases hr : (Arm64.mapPage A off (A.root r + off) va pa flags m).ranOut with
  | true =>
    intro a ha
    have := hfull hr
    omega
  | false => exact h.zero.mapPage (h.ok (mapPage_ranOut hr)) hr

theorem seeMapPages_eq (h : MapperOk A m) (r : ρ) (va pa flags : Word) (n : Nat) :
    let m' := (List.range n).foldl (fun m n => mapPage A 0 (A.root r)
      (va + BitVec.ofNat 64 (4096 * n)) (pa + BitVec.ofNat 64 (4096 * n)) flags m) m
    (List.range n).foldl (fun m n => seeMapPage A (A.root r)
      (va + BitVec.ofNat 64 (4096 * n)) (pa + BitVec.ofNat 64 (4096 * n)) flags m) m = m' ∧
      MapperOk A m' := by
  induction n with
  | zero =>
    rw [List.range_zero,List.foldl_nil,List.foldl_nil]
    exact ⟨rfl,h⟩
  | succ n ih =>
    obtain ⟨heq,hok⟩ := ih
    simp only [List.range_succ,List.foldl_append,List.foldl_cons,List.foldl_nil]
    rw [heq]
    generalize (List.range n).foldl _ m = m' at hok ⊢
    have hturn := hok.mapPage 0 r (va + BitVec.ofNat 64 (4096 * n))
      (pa + BitVec.ofNat 64 (4096 * n)) flags
    rw [root_add_zero] at hturn
    exact ⟨seeMapPage_eq hok.zero r _ _ _,hturn⟩

end Steps

theorem seeCall_eq {A : TableArea Unit} (h : MapperOk A m) (c : SeeCall) :
    seeCall A m c = mapCallAt A 0 m c.toMapCall ∧ MapperOk A (mapCallAt A 0 m c.toMapCall) := by
  cases c with
  | seeMapPage va pa flags =>
    have := h.mapPage 0 () va pa flags
    simp only [seeCall,SeeCall.toMapCall,mapCallAt,root_add_zero] at *
    exact ⟨seeMapPage_eq h.zero () va pa flags,this⟩
  | seeMapRegion vaStart paStart size flags =>
    have hpages := seeMapPages_eq h () (vaStart &&& ~~~0xFFF) (paStart &&& ~~~0xFFF) flags
      (pageTurns size)
    simp only [seeCall,SeeCall.toMapCall,mapCallAt,root_add_zero,seeMapRegion,mapRegion] at hpages ⊢
    exact hpages

/-- The calls of SEEOS are calls of the kernel's mapper with the MMU off. -/
theorem exec_seeCall {A : TableArea Unit} (h : MapperOk A m) (cs : List SeeCall) :
    exec (seeCall A) m cs = exec (mapCallAt A 0) m (cs.map SeeCall.toMapCall) := by
  induction cs generalizing m with
  | nil => rfl
  | cons c cs ih =>
    obtain ⟨heq,hok⟩ := seeCall_eq h c
    rw [List.map_cons,exec_cons,exec_cons,heq,ih hok]

end Arm64

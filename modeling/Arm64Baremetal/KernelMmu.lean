import Arm64Baremetal.El3Frame
import Mathlib.Data.List.Range

/-!
The translation tables of kernel_mmu.c. The memory of the tables goes by physical
address; `off` is what a pointer is above it: 0 before the MMU is on, KERNEL_VIRT_BASE
after.
-/

set_option autoImplicit false

namespace Arm64

def kernelVirtBase : Word := 0xFFFFFFFF00000000
def vaToPa (ptr : Word) : Word := ptr - kernelVirtBase

def pteTypeTable : Word := 3 <<< 0
def pteTypePage : Word := 3 <<< 0
def pteAf : Word := 1 <<< 10
def pteShInner : Word := 3 <<< 8
def pteAttrIndx (idx : Word) : Word := idx <<< 2
def ptePxn : Word := 1 <<< 53
def pteUxn : Word := 1 <<< 54
def apEl0NoElxRw : Word := 0x0 <<< 6
def attrINormal : Word := 1
def protNormalMem : Word := pteAf ||| pteShInner ||| pteAttrIndx attrINormal

/-- `uint64_t table[512]` by the physical address of the table. -/
abbrev TableMem := Word → Fin 512 → Word

/-- The root tables and the pool of a set of address spaces, as the linker places them. -/
structure TableArea (ρ : Type) where
  root : ρ → Word
  pool : Word
  slots : Nat
  poolPage : pool.toNat % 4096 = 0
  poolLow : pool.toNat + 4096 * slots ≤ 2 ^ 32
  rootApart : ∀ r (a : Fin slots), root r ≠ pool + BitVec.ofNat 64 (4096 * a.val)
  rootInj : ∀ r r', root r = root r' → r = r'

/-- `used` is pool_ptr. `ranOut` is not in the source: allocate_table has returned 0. -/
structure Tables where
  mem : TableMem
  used : Nat
  ranOut : Bool

namespace Tables

def put (p : Word) (i : Fin 512) (val : Word) (m : Tables) : Tables :=
  { m with mem := Function.update m.mem p (Function.update (m.mem p) i val) }

/-- `table[i]` -/
def load (off table : Word) (i : Fin 512) (m : Tables) : Word := m.mem (table - off) i

/-- `table[i] = val` -/
def store (off table : Word) (i : Fin 512) (val : Word) (m : Tables) : Tables :=
  m.put (table - off) i val

theorem put_mem (p q : Word) (i j : Fin 512) (val : Word) (m : Tables) :
    (m.put p i val).mem q j = if q = p ∧ j = i then val else m.mem q j := by
  by_cases hq : q = p
  · subst hq
    simp [put,Function.update_apply]
  · simp [put,hq]

@[simp] theorem load_add (off p : Word) (i : Fin 512) (m : Tables) :
    m.load off (p + off) i = m.mem p i := by rw [load,BitVec.add_sub_cancel]

@[simp] theorem store_add (off p : Word) (i : Fin 512) (val : Word) (m : Tables) :
    m.store off (p + off) i val = m.put p i val := by rw [store,BitVec.add_sub_cancel]

theorem load_zero (p : Word) (i : Fin 512) (m : Tables) : m.load 0 p i = m.mem p i :=
  congrArg (m.mem · i) (BitVec.sub_zero p)

theorem store_zero (p : Word) (i : Fin 512) (val : Word) (m : Tables) :
    m.store 0 p i val = m.put p i val := congrArg (put · i val m) (BitVec.sub_zero p)

end Tables

variable {ρ : Type}

def allocateTable (A : TableArea ρ) (off : Word) (m : Tables) : Word × Tables :=
  if A.slots ≤ m.used then (0,{ m with ranOut := true })
  else
    let table := A.pool + BitVec.ofNat 64 (4096 * m.used) + off
    (table,{ m with mem := Function.update m.mem (table - off) fun _ => 0, used := m.used + 1 })

theorem and_511_lt (w : Word) : (w &&& 0x1FF).toNat < 512 := by
  rw [BitVec.toNat_and]
  exact Nat.lt_of_le_of_lt Nat.and_le_right (by decide)

def vaAddr (va : Word) : Word := va &&& 0xFFFFFFFF
def l1Idx (va : Word) : Fin 512 := ⟨(vaAddr va >>> 30 &&& 0x1FF).toNat,and_511_lt _⟩
def l2Idx (va : Word) : Fin 512 := ⟨(vaAddr va >>> 21 &&& 0x1FF).toNat,and_511_lt _⟩
def l3Idx (va : Word) : Fin 512 := ⟨(vaAddr va >>> 12 &&& 0x1FF).toNat,and_511_lt _⟩

/-- `if (!(table[i] & 1)) table[i] = (allocate_table() - off) | PTE_TYPE_TABLE;` -/
def ensureTable (A : TableArea ρ) (off table : Word) (i : Fin 512) (m : Tables) : Tables :=
  if m.load off table i &&& 1 = 0 then
    let r := allocateTable A off m
    r.2.store off table i (r.1 - off ||| pteTypeTable)
  else m

/-- `(table[i] & ~0xFFF) + off` -/
def nextTable (off table : Word) (i : Fin 512) (m : Tables) : Word :=
  (m.load off table i &&& ~~~0xFFF) + off

/-- map_page_4k with `off = 0`, and map_page_virtual with `off = KERNEL_VIRT_BASE`. -/
def mapPage (A : TableArea ρ) (off root va pa flags : Word) (m : Tables) : Tables :=
  let m := ensureTable A off root (l1Idx va) m
  let l2 := nextTable off root (l1Idx va) m
  let m := ensureTable A off l2 (l2Idx va) m
  let l3 := nextTable off l2 (l2Idx va) m
  m.store off l3 (l3Idx va) (pa &&& ~~~0xFFF ||| flags ||| pteTypePage)

def unmapPage (off root va : Word) (m : Tables) : Tables :=
  if m.load off root (l1Idx va) &&& 1 = 0 then m
  else
    let l2 := nextTable off root (l1Idx va) m
    if m.load off l2 (l2Idx va) &&& 1 = 0 then m
    else m.store off (nextTable off l2 (l2Idx va) m) (l3Idx va) 0

/-- The turns of `for (i = 0; i < size; i += 4096)`, for a size that an int can hold. -/
def pageTurns (size : Word) : Nat := (size.toNat + 4095) / 4096

/-- map_region and map_region_virtual -/
def mapRegion (A : TableArea ρ) (off root vaStart paStart size flags : Word) (m : Tables) :
    Tables :=
  let va := vaStart &&& ~~~0xFFF
  let pa := paStart &&& ~~~0xFFF
  (List.range (pageTurns size)).foldl (fun m n =>
    let i := BitVec.ofNat 64 (4096 * n)
    mapPage A off root (va + i) (pa + i) flags m) m

/-- unmap_region and unmap_region_virtual -/
def unmapRegion (off root vaStart size : Word) (m : Tables) : Tables :=
  (List.range (pageTurns size)).foldl (fun m n =>
    unmapPage off root (vaStart + BitVec.ofNat 64 (4096 * n)) m) m

def descAddr (d : Word) : Word := d &&& 0x0000FFFFFFFFF000

/-- A level 3 descriptor is a page or invalid. -/
def leafOf (d : Word) : Option Word := if d &&& 3 = 3 then some d else none

/-- The walk of the MMU from level 1, for 4 KB pages and a 32-bit address space: the
descriptor that translates `va`, from the table at the physical address `root`. -/
def walk (mem : TableMem) (root va : Word) : Option Word :=
  let d1 := mem root (l1Idx va)
  if d1 &&& 3 = 3 then
    let d2 := mem (descAddr d1) (l2Idx va)
    if d2 &&& 3 = 3 then leafOf (mem (descAddr d2) (l3Idx va))
    else if d2 &&& 3 = 1 then some d2 else none
  else if d1 &&& 3 = 1 then some d1 else none

/-- AP[1] = 0 -/
def El0Denied (d : Word) : Prop := d &&& (1 <<< 6) = 0

def pageNumber (va : Word) : Nat := va.toNat % 2 ^ 32 / 4096

end Arm64

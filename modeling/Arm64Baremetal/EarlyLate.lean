import Arm64Baremetal.KernelMm

/-!
The two copies of the mapper in kernel_mmu.c. map_page_4k and unmap_region run with the MMU off
and reach the tables at their physical addresses; map_page_virtual and unmap_region_virtual run
with it on and reach them at physical + KERNEL_VIRT_BASE.
-/

set_option autoImplicit false

namespace Arm64
open Runs

def paToVa (pa : Word) : Word := pa + kernelVirtBase

section Mappers
variable {ρ : Type}

def mapPage4k (A : TableArea ρ) (root va pa flags : Word) (m : Tables) : Tables :=
  let m :=
    if m.load 0 root (l1Idx va) &&& 1 = 0 then
      let r := allocateTable A 0 m
      r.2.store 0 root (l1Idx va) (r.1 ||| pteTypeTable)
    else m
  let l2 := m.load 0 root (l1Idx va) &&& ~~~0xFFF
  let m :=
    if m.load 0 l2 (l2Idx va) &&& 1 = 0 then
      let r := allocateTable A 0 m
      r.2.store 0 l2 (l2Idx va) (r.1 ||| pteTypeTable)
    else m
  let l3 := m.load 0 l2 (l2Idx va) &&& ~~~0xFFF
  m.store 0 l3 (l3Idx va) (pa &&& ~~~0xFFF ||| flags ||| pteTypePage)

def mapPageVirtual (A : TableArea ρ) (root va pa flags : Word) (m : Tables) : Tables :=
  let m :=
    if m.load kernelVirtBase root (l1Idx va) &&& 1 = 0 then
      let r := allocateTable A kernelVirtBase m
      r.2.store kernelVirtBase root (l1Idx va) (vaToPa r.1 ||| pteTypeTable)
    else m
  let l2 := paToVa (m.load kernelVirtBase root (l1Idx va) &&& ~~~0xFFF)
  let m :=
    if m.load kernelVirtBase l2 (l2Idx va) &&& 1 = 0 then
      let r := allocateTable A kernelVirtBase m
      r.2.store kernelVirtBase l2 (l2Idx va) (vaToPa r.1 ||| pteTypeTable)
    else m
  let l3 := paToVa (m.load kernelVirtBase l2 (l2Idx va) &&& ~~~0xFFF)
  m.store kernelVirtBase l3 (l3Idx va) (pa &&& ~~~0xFFF ||| flags ||| pteTypePage)

/-- The loop of unmap_region from `i` on, if `n` tests are enough for it. -/
def unmapLoop (turn : Word → Tables → Tables) (vaStart size : Word) :
    Nat → Word → Tables → Option Tables
  | 0,_,_ => none
  | n + 1,i,m =>
    if i < size then unmapLoop turn vaStart size n (i + 4096) (turn (vaStart + i) m) else some m

def unmapTurn (root va : Word) (m : Tables) : Tables :=
  if m.load 0 root (l1Idx va) &&& 1 = 0 then m
  else
    let l2 := m.load 0 root (l1Idx va) &&& ~~~0xFFF
    if m.load 0 l2 (l2Idx va) &&& 1 = 0 then m
    else
      let l3 := m.load 0 l2 (l2Idx va) &&& ~~~0xFFF
      m.store 0 l3 (l3Idx va) 0

def unmapTurnVirtual (root va : Word) (m : Tables) : Tables :=
  if m.load kernelVirtBase root (l1Idx va) &&& 1 = 0 then m
  else
    let l2 := paToVa (m.load kernelVirtBase root (l1Idx va) &&& ~~~0xFFF)
    if m.load kernelVirtBase l2 (l2Idx va) &&& 1 = 0 then m
    else
      let l3 := paToVa (m.load kernelVirtBase l2 (l2Idx va) &&& ~~~0xFFF)
      m.store kernelVirtBase l3 (l3Idx va) 0

end Mappers

inductive MapRequest where
  | map (root : KernelRoot) (va pa flags : Word)
  | unmap (root : KernelRoot) (vaStart size : Word)

/-- A request served with the MMU off; `n` tests are enough for a loop, or there is no end. -/
def serveEarly (img : KernelImage) (n : Nat) (o : Option Tables) (c : MapRequest) : Option Tables :=
  o.bind fun m =>
    match c with
    | .map r va pa flags => some (mapPage4k img.tables (img.tables.root r) va pa flags m)
    | .unmap r vaStart size => unmapLoop (unmapTurn (img.tables.root r)) vaStart size n 0 m

def serveLate (img : KernelImage) (n : Nat) (o : Option Tables) (c : MapRequest) : Option Tables :=
  o.bind fun m =>
    match c with
    | .map r va pa flags => some (mapPageVirtual img.tables (img.rootPtr r) va pa flags m)
    | .unmap r vaStart size => unmapLoop (unmapTurnVirtual (img.rootPtr r)) vaStart size n 0 m

def Suffices (o : Option Tables) : Prop := ∀ m, o = some m → m.ranOut = false

/-- Two tables that differ only where the pool of both was used up. -/
def SameTables (m m' : Tables) : Prop := m = m' ∨ m.ranOut = true ∧ m'.ranOut = true

def SameRun : Option Tables → Option Tables → Prop
  | none,none => True
  | some m,some m' => SameTables m m'
  | _,_ => False

section Copies
variable {ρ : Type} {A : TableArea ρ} {m m' : Tables} {off p va pa flags : Word} {i : Fin 512}

theorem ranOut_kept {m m' : Tables} (h : m'.ranOut = false → m.ranOut = false)
    (hm : m.ranOut = true) : m'.ranOut = true := by
  cases hm' : m'.ranOut with
  | true => rfl
  | false => rw [h hm'] at hm; exact hm

theorem nextTable_zero (table : Word) (i : Fin 512) (m : Tables) :
    nextTable 0 table i m = m.load 0 table i &&& ~~~0xFFF := BitVec.add_zero _

theorem ensureTable_zero (A : TableArea ρ) (table : Word) (i : Fin 512) (m : Tables) :
    ensureTable A 0 table i m =
      if m.load 0 table i &&& 1 = 0 then
        (allocateTable A 0 m).2.store 0 table i ((allocateTable A 0 m).1 ||| pteTypeTable)
      else m := by
  have hsub : ∀ w : Word, w - 0 = w := BitVec.sub_zero
  simp only [ensureTable,hsub]

theorem mapPage4k_eq (root : Word) :
    mapPage4k A root va pa flags m = mapPage A 0 root va pa flags m := by
  simp only [mapPage4k,mapPage,ensureTable_zero,nextTable_zero]

theorem mapPageVirtual_eq (root : Word) :
    mapPageVirtual A root va pa flags m = mapPage A kernelVirtBase root va pa flags m := rfl

theorem unmapTurn_eq (root : Word) : unmapTurn root va m = unmapPage 0 root va m := by
  simp only [unmapTurn,unmapPage,nextTable_zero]

theorem unmapTurnVirtual_eq (root : Word) :
    unmapTurnVirtual root va m = unmapPage kernelVirtBase root va m := rfl

theorem load_off (off : Word) : m.load off (p + off) i = m.load 0 p i := by
  rw [Tables.load_add,Tables.load_zero]

theorem store_off (off val : Word) : m.store off (p + off) i val = m.store 0 p i val := by
  rw [Tables.store_add,Tables.store_zero]

theorem nextTable_off (off : Word) : nextTable off (p + off) i m = nextTable 0 p i m + off := by
  rw [nextTable,load_off,nextTable_zero]

/-- A table made by one copy and a table made by the other are the same table. -/
theorem ensureTable_off (off : Word) :
    SameTables (ensureTable A off (p + off) i m) (ensureTable A 0 p i m) := by
  rw [ensureTable_zero,ensureTable,load_off]
  split
  · unfold allocateTable
    split
    · exact .inr ⟨rfl,rfl⟩
    · refine .inl ?_
      have hzero : ∀ w : Word, w + 0 = w := BitVec.add_zero
      have hsub : ∀ w : Word, w - 0 = w := BitVec.sub_zero
      simp only [BitVec.add_sub_cancel,hzero,hsub,store_off]
  · exact .inl rfl

theorem mapPage_off (off : Word) :
    SameTables (mapPage A off (p + off) va pa flags m) (mapPage A 0 p va pa flags m) := by
  unfold mapPage
  dsimp only
  obtain h1 | ⟨h1,h1'⟩ := @ensureTable_off ρ A m p (l1Idx va) off
  · rw [h1,nextTable_off]
    obtain h2 | ⟨h2,h2'⟩ := @ensureTable_off ρ A (ensureTable A 0 p (l1Idx va) m)
      (nextTable 0 p (l1Idx va) (ensureTable A 0 p (l1Idx va) m)) (l2Idx va) off
    · rw [h2,nextTable_off,store_off]
      exact .inl rfl
    · exact .inr ⟨h2,h2'⟩
  · refine .inr ⟨?_,?_⟩
    · exact ranOut_kept (fun h => ensureTable_ranOut _ _ _ h) h1
    · exact ranOut_kept (fun h => ensureTable_ranOut _ _ _ h) h1'

theorem unmapPage_off (off : Word) :
    unmapPage off (p + off) va m = unmapPage 0 p va m := by
  simp only [unmapPage,load_off,nextTable_off,store_off]

theorem mapPage_same (off : Word) (h : SameTables m m') :
    SameTables (mapPage A off (p + off) va pa flags m) (mapPage A 0 p va pa flags m') := by
  obtain rfl | ⟨h,h'⟩ := h
  · exact mapPage_off off
  · exact .inr ⟨ranOut_kept mapPage_ranOut h,ranOut_kept mapPage_ranOut h'⟩

theorem unmapPage_same (off : Word) (h : SameTables m m') :
    SameTables (unmapPage off (p + off) va m) (unmapPage 0 p va m') := by
  obtain rfl | ⟨h,h'⟩ := h
  · exact .inl (unmapPage_off off)
  · exact .inr ⟨(unmapPage_ranOut _ _ _ _).trans h,(unmapPage_ranOut _ _ _ _).trans h'⟩

theorem unmapLoop_same {turn turn' : Word → Tables → Tables}
    (ht : ∀ va m m', SameTables m m' → SameTables (turn va m) (turn' va m')) (vaStart size : Word)
    (n : Nat) (i : Word) (h : SameTables m m') :
    SameRun (unmapLoop turn vaStart size n i m) (unmapLoop turn' vaStart size n i m') := by
  induction n generalizing i m m' with
  | zero => trivial
  | succ n ih =>
    unfold unmapLoop
    split
    · exact ih (i + 4096) (ht _ _ _ h)
    · exact h

/-- The loop ends where `i` does not wrap, and has then made the turns of unmapRegion. -/
theorem unmapLoop_ends (turn : Word → Tables → Tables) (vaStart : Word) {size : Word} {k n l : Nat}
    (hn : k + n = pageTurns size) (hl : n < l) (hsize : size.toNat ≤ 2 ^ 64 - 4096) (m : Tables) :
    unmapLoop turn vaStart size l (BitVec.ofNat 64 (4096 * k)) m =
      some
        ((List.range' k n).foldl (fun m i => turn (vaStart + BitVec.ofNat 64 (4096 * i)) m) m) := by
  have hturns : pageTurns size = (size.toNat + 4095) / 4096 := rfl
  obtain ⟨l,rfl⟩ := Nat.exists_eq_add_of_lt hl
  induction n generalizing k m with
  | zero =>
    have hend : ¬ BitVec.ofNat 64 (4096 * k) < size := by
      rw [BitVec.lt_def,BitVec.toNat_ofNat]
      omega
    rw [unmapLoop,if_neg hend]
    rfl
  | succ n ih =>
    have hturn : BitVec.ofNat 64 (4096 * k) < size := by
      rw [BitVec.lt_def,BitVec.toNat_ofNat]
      omega
    have hnext : BitVec.ofNat 64 (4096 * k) + 4096 = BitVec.ofNat 64 (4096 * (k + 1)) := by
      rw [Nat.mul_add,BitVec.ofNat_add]
      rfl
    have hlast : n + 1 + l + 1 = (n + l + 1) + 1 := by omega
    rw [hlast,unmapLoop,if_pos hturn,hnext,ih (by omega) _ (by omega)]
    rfl

end Copies

variable {img : KernelImage} {o o' : Option Tables}

theorem SameRun.bind {f g : Tables → Option Tables} (h : SameRun o o')
    (hf : ∀ m m', SameTables m m' → SameRun (f m) (g m')) : SameRun (o.bind f) (o'.bind g) := by
  cases o with
  | none => cases o' with
    | none => trivial
    | some _ => exact h.elim
  | some m => cases o' with
    | none => exact h.elim
    | some m' => exact hf m m' h

theorem SameRun.refl (o : Option Tables) : SameRun o o := by
  cases o with
  | none => trivial
  | some m => exact .inl rfl

theorem SameRun.eq (h : SameRun o o') (ho : Suffices o ∨ Suffices o') : o = o' := by
  cases o with
  | none => cases o' with
    | none => rfl
    | some _ => exact h.elim
  | some m => cases o' with
    | none => exact h.elim
    | some m' =>
      obtain rfl | ⟨hm,hm'⟩ := h
      · rfl
      · obtain ho | ho := ho
        · rw [ho m rfl] at hm
          exact absurd hm Bool.false_ne_true
        · rw [ho m' rfl] at hm'
          exact absurd hm' Bool.false_ne_true

theorem serve_same (n : Nat) (c : MapRequest) (h : SameRun o o') :
    SameRun (serveLate img n o c) (serveEarly img n o' c) := by
  refine h.bind fun m m' hm => ?_
  cases c with
  | map r va pa flags =>
    dsimp only
    rw [mapPageVirtual_eq,mapPage4k_eq]
    exact mapPage_same kernelVirtBase hm
  | unmap r vaStart size =>
    refine unmapLoop_same (fun va m m' hm => ?_) vaStart size n 0 hm
    rw [unmapTurnVirtual_eq,unmapTurn_eq]
    exact unmapPage_same kernelVirtBase hm

variable (img) in
theorem serveAll_same (n : Nat) (cs : List MapRequest) (h : SameRun o o') :
    SameRun (exec (serveLate img n) o cs) (exec (serveEarly img n) o' cs) := by
  induction cs generalizing o o' with
  | nil => exact h
  | cons c cs ih => exact ih (serve_same n c h)

theorem serve_unmap (img : KernelImage) {n : Nat} (r : KernelRoot) (vaStart : Word) {size : Word}
    (hsize : size.toNat ≤ 2 ^ 64 - 4096) (hn : pageTurns size < n) (m : Tables) :
    serveEarly img n (some m) (.unmap r vaStart size) =
        some (unmapRegion 0 (img.tables.root r) vaStart size m) ∧
      serveLate img n (some m) (.unmap r vaStart size) =
        some (unmapRegion kernelVirtBase (img.rootPtr r) vaStart size m) := by
  have hends := fun turn => unmapLoop_ends turn vaStart (Nat.zero_add (pageTurns size)) hn hsize m
  constructor
  · refine (hends (unmapTurn (img.tables.root r))).trans ?_
    simp only [unmapTurn_eq,← List.range_eq_range']
    rfl
  · refine (hends (unmapTurnVirtual (img.rootPtr r))).trans ?_
    simp only [unmapTurnVirtual_eq,← List.range_eq_range']
    rfl

/-- Wherever a sequence of requests switches from the early copies to the late ones, the tables
are those that either copy alone makes, and `n` tests are enough for a size of fewer pages. -/
theorem mappers_agree (img : KernelImage) (n : Nat) (m : Tables) (pre post : List MapRequest)
    (hpool : Suffices (exec (serveLate img n) (exec (serveEarly img n) (some m) pre) post) ∨
      Suffices (exec (serveEarly img n) (some m) (pre ++ post)) ∨
      Suffices (exec (serveLate img n) (some m) (pre ++ post))) :
    exec (serveLate img n) (exec (serveEarly img n) (some m) pre) post =
        exec (serveEarly img n) (some m) (pre ++ post) ∧
      exec (serveLate img n) (exec (serveEarly img n) (some m) pre) post =
        exec (serveLate img n) (some m) (pre ++ post) ∧
      ∀ r vaStart size, size.toNat ≤ 2 ^ 64 - 4096 → pageTurns size < n → ∀ m,
        serveEarly img n (some m) (.unmap r vaStart size) =
            some (unmapRegion 0 (img.tables.root r) vaStart size m) ∧
          serveLate img n (some m) (.unmap r vaStart size) =
            some (unmapRegion kernelVirtBase (img.rootPtr r) vaStart size m) := by
  have hmixed := serveAll_same img n post (SameRun.refl (exec (serveEarly img n) (some m) pre))
  rw [← exec_append] at hmixed
  have hlate := serveAll_same img n (pre ++ post) (SameRun.refl (some m))
  have hearly : Suffices (exec (serveEarly img n) (some m) (pre ++ post)) := by
    obtain h | h | h := hpool
    · exact hmixed.eq (.inl h) ▸ h
    · exact h
    · exact hlate.eq (.inl h) ▸ h
  exact ⟨hmixed.eq (.inr hearly),(hmixed.eq (.inr hearly)).trans (hlate.eq (.inr hearly)).symm,
    fun r vaStart _ hsize hn m => serve_unmap img r vaStart hsize hn m⟩

/-- A page mapped early, and unmapped with the page after it once the MMU is on. -/
theorem mappers_agree_unmap :
    let pre : List MapRequest := [.map .kernelL1 0x40000000 0x40000000 heapFlags]
    let post : List MapRequest := [.map .userL1 0x40001000 0x40001000 heapFlags,
      .unmap .kernelL1 0x40000000 0x2000]
    let run := exec (serveLate testKernelImage 3)
      (exec (serveEarly testKernelImage 3) (some zeroMm.tables) pre) post
    run.map (·.used) = some 4 ∧
      run = exec (serveEarly testKernelImage 3) (some zeroMm.tables) (pre ++ post) := by
  intro pre post run
  have hrun : run.map (fun m => (m.used,m.ranOut)) = some (4,false) := by decide +kernel
  have hpool : Suffices run := by
    intro m hm
    rw [hm] at hrun
    exact congrArg Prod.snd (Option.some.inj hrun)
  refine ⟨?_,(mappers_agree testKernelImage 3 zeroMm.tables pre post (.inl hpool)).1⟩
  have hused := congrArg (Option.map Prod.fst) hrun
  rwa [Option.map_map] at hused

end Arm64

import Arm64Baremetal.SharedView
import Mathlib.Data.Finset.Card

/-!
What the mappers do when the pool of tables is used up. The allocator then returns a null
pointer, of which they make a table descriptor and a pointer to the next table.
-/

set_option autoImplicit false

namespace Arm64
open Runs FirstFit

variable {ρ : Type}

/-- The tables where a mapper returns, or where it comes to use a null pointer as a table.
With the MMU on that is a data abort: the kernel maps no page at address 0. -/
inductive MapEnd where
  | returned (m : Tables)
  | null (m : Tables)

def MapEnd.tables : MapEnd → Tables
  | .returned m => m
  | .null m => m

/-- map_page_4k with `off = 0`, and map_page_virtual with `off = KERNEL_VIRT_BASE`. -/
def mapPageTo (A : TableArea ρ) (off root va pa flags : Word) (m : Tables) : MapEnd :=
  let m := ensureTable A off root (l1Idx va) m
  let l2 := nextTable off root (l1Idx va) m
  if l2 = 0 then .null m
  else
    let m := ensureTable A off l2 (l2Idx va) m
    let l3 := nextTable off l2 (l2Idx va) m
    if l3 = 0 then .null m
    else .returned (m.store off l3 (l3Idx va) (pa &&& ~~~0xFFF ||| flags ||| pteTypePage))

def seeMapPageTo (A : TableArea ρ) (l1 va pa flags : Word) (m : Tables) : MapEnd :=
  let m := seeEnsureTable A l1 (l1Idx va) m
  let l2 := nextTable 0 l1 (l1Idx va) m
  if l2 = 0 then .null m
  else
    let m := seeEnsureTable A l2 (l2Idx va) m
    let l3 := nextTable 0 l2 (l2Idx va) m
    if l3 = 0 then .null m
    else .returned (m.store 0 l3 (l3Idx va) (pa &&& ~~~0xFFF ||| flags ||| pteTypePage))

def mapPagesTo (A : TableArea ρ) (off root va pa flags : Word) (m : Tables) : Nat → MapEnd
  | 0 => .returned m
  | n + 1 =>
    match mapPagesTo A off root va pa flags m n with
    | .null m => .null m
    | .returned m =>
      let i := BitVec.ofNat 64 (4096 * n)
      mapPageTo A off root (va + i) (pa + i) flags m

/-- mm_allocate_pages, which does not return where map_region_virtual does not. -/
def mmAllocatePagesTo (img : KernelImage) (numPages : BitVec 32) (s : Mm) : Option (Word × Mm) :=
  if numPages = 0 then some (0,s)
  else
    match findPages numPages s with
    | none =>
      some (0,s.emit (.printf "[MM] ERROR: No contiguous block of %d pages found!\n" numPages))
    | some i =>
      let ptr := img.heapBegin + BitVec.ofNat 64 (i * 4096)
      let size := (numPages * pageSize32).setWidth 64
      match mapPagesTo img.tables kernelVirtBase (img.rootPtr .kernelL1) (ptr &&& ~~~0xFFF)
          (vaToPa ptr &&& ~~~0xFFF) heapFlags s.tables (pageTurns size) with
      | .null _ => none
      | .returned tables => some (ptr,{ s with
          pages := setRun 1 s.pages i numPages.toNat
          tables := tables })

structure PageCall (ρ : Type) where
  virtual : Bool
  root : ρ
  va : Word
  pa : Word
  flags : Word

namespace PageCall

def off (c : PageCall ρ) : Word := if c.virtual then kernelVirtBase else 0

def desc (c : PageCall ρ) : Word := c.pa &&& ~~~0xFFF ||| c.flags ||| pteTypePage

def missing (A : TableArea ρ) (m : Tables) (c : PageCall ρ) : Nat :=
  let e := m.mem (A.root c.root) (l1Idx c.va)
  if e &&& 1 = 0 then 2 else if m.mem (descAddr e) (l2Idx c.va) &&& 1 = 0 then 1 else 0

def Enough (A : TableArea ρ) (m : Tables) (c : PageCall ρ) : Prop :=
  c.missing A m ≤ A.slots - m.used

instance (A : TableArea ρ) (m : Tables) (c : PageCall ρ) : Decidable (c.Enough A m) :=
  inferInstanceAs (Decidable (_ ≤ _))

end PageCall

def pageCall (A : TableArea ρ) (m : Tables) (c : PageCall ρ) : Tables :=
  (mapPageTo A c.off (A.root c.root + c.off) c.va c.pa c.flags m).tables

/-- see_map_page, for the call of map_page_4k with these arguments -/
def seePageCall (A : TableArea ρ) (m : Tables) (c : PageCall ρ) : Tables :=
  (seeMapPageTo A (A.root c.root) c.va c.pa c.flags m).tables

structure FromPool (A : TableArea ρ) (m : Tables) : Prop where
  l1 : ∀ r i, m.mem (A.root r) i &&& 1 ≠ 0 →
    ∃ a : Fin A.slots, a.val < m.used ∧ m.mem (A.root r) i = A.entry a
  l2 : ∀ r i (a : Fin A.slots), m.mem (A.root r) i = A.entry a →
    ∀ j, m.mem (A.table a) j &&& 1 ≠ 0 →
      ∃ b : Fin A.slots, b.val < m.used ∧ m.mem (A.table a) j = A.entry b

/-- The page is mapped and no other, or every translation is as it was; no entry points
elsewhere than to the pool; nothing but the root and the pool was written. -/
structure Harmless [DecidableEq ρ] (A : TableArea ρ) (m : Tables) (c : PageCall ρ) (m' : Tables) :
    Prop where
  translations :
    (∀ r va, walk m'.mem (A.root r) va =
      if r = c.root ∧ pageNumber va = pageNumber c.va then some c.desc
      else walk m.mem (A.root r) va) ∨
    ∀ r va, walk m'.mem (A.root r) va = walk m.mem (A.root r) va
  entries : FromPool A m'
  frame : ∀ p, p ≠ A.root c.root → (∀ a : Fin A.slots, p ≠ A.table a) → m'.mem p = m.mem p

variable {A : TableArea ρ} {m : Tables}

section Refused

/-- What the mappers make of the null pointer. -/
def nullEntry (off : Word) : Word := 0 - off ||| pteTypeTable

theorem nullEntry_off (c : PageCall ρ) :
    nullEntry c.off &&& 1 ≠ 0 ∧ (nullEntry c.off &&& ~~~0xFFF) + c.off = 0 := by
  unfold PageCall.off
  cases c.virtual <;> decide

theorem table_add_ne_zero (hpool : A.pool ≠ 0) (a : Fin A.slots) (c : PageCall ρ) :
    A.table a + c.off ≠ 0 := by
  intro h
  have hpos : A.pool.toNat ≠ 0 := fun h0 => hpool (BitVec.eq_of_toNat_eq h0)
  have hlow := A.poolLow
  have htab := A.table_toNat a
  have ha := a.isLt
  have hzero := congrArg BitVec.toNat h
  rw [BitVec.toNat_add] at hzero
  have hoff : c.off.toNat = 0 ∨ c.off.toNat = 0xFFFFFFFF00000000 := by
    unfold PageCall.off
    cases c.virtual
    · exact Or.inl rfl
    · exact Or.inr rfl
  have h0 : (0 : Word).toNat = 0 := rfl
  omega

theorem nullEntry_ne (hpool : A.pool ≠ 0) (a : Fin A.slots) (c : PageCall ρ) :
    nullEntry c.off ≠ A.entry a := by
  intro h
  have hnull := (nullEntry_off c).2
  rw [h,A.entry_mask] at hnull
  exact table_add_ne_zero hpool a c hnull

theorem ensureTable_refused (hr : m.ranOut = false) {off p : Word} {i : Fin 512}
    (h : (ensureTable A off (p + off) i m).ranOut = true) :
    m.mem p i &&& 1 = 0 ∧ A.slots ≤ m.used ∧ ensureTable A off (p + off) i m =
      ({ m with ranOut := true } : Tables).put p i (nullEntry off) := by
  unfold ensureTable allocateTable at h ⊢
  rw [Tables.load_add] at h ⊢
  by_cases he : m.mem p i &&& 1 = 0
  · rw [if_pos he] at h ⊢
    by_cases hu : A.slots ≤ m.used
    · rw [if_pos hu,Tables.store_add]
      exact ⟨he,hu,rfl⟩
    · rw [if_neg hu] at h
      exact absurd (hr.symm.trans h) Bool.false_ne_true
  · rw [if_neg he] at h
    exact absurd (hr.symm.trans h) Bool.false_ne_true

theorem nextTable_refused (c : PageCall ρ) (p : Word) (i : Fin 512) (m : Tables) :
    nextTable c.off (p + c.off) i (m.put p i (nullEntry c.off)) = 0 := by
  rw [nextTable,Tables.load_add,Tables.put_mem,if_pos ⟨rfl,rfl⟩,(nullEntry_off c).2]

theorem ensureTable_mem (off : Word) {p q : Word} (hp : p ≠ q)
    (ha : ∀ a : Fin A.slots, p ≠ A.table a) (i : Fin 512) (m : Tables) :
    (ensureTable A off (q + off) i m).mem p = m.mem p := by
  have hput : ∀ (m : Tables) val, (m.put q i val).mem p = m.mem p :=
    fun m val => Function.update_of_ne hp _ _
  unfold ensureTable allocateTable
  by_cases he : m.load off (q + off) i &&& 1 = 0
  · rw [if_pos he]
    by_cases hu : A.slots ≤ m.used
    · rw [if_pos hu,Tables.store_add,hput]
    · have htab : A.pool + BitVec.ofNat 64 (4096 * m.used) = A.table ⟨m.used,by omega⟩ := rfl
      rw [if_neg hu,Tables.store_add,hput]
      dsimp only
      rw [BitVec.add_sub_cancel,htab,Function.update_of_ne (ha _)]
  · rw [if_neg he]

end Refused

theorem Tree.fromPool {t : TableTree ρ A.slots} (h : Tree A m t) : FromPool A m where
  l1 r i hv := by
    have hpoints := h.l1 r i
    obtain ⟨a,ha,he⟩ := hpoints.of_valid hv
    rw [ha] at hpoints
    exact ⟨a,hpoints.2,he⟩
  l2 r i a he j hv := by
    have hpoints := h.l1 r i
    have hone : (1 : Word) ≠ 0 := by decide
    obtain ⟨b,hb,hb'⟩ := hpoints.of_valid (by rwa [he,A.entry_valid])
    have htab : A.table a = A.table b := by rw [← A.entry_mask a,← he,hb',A.entry_mask]
    rw [A.table_inj htab]
    have hpoints' := h.l2 r i b hb j
    rw [A.table_inj htab] at hv
    obtain ⟨c,hc,hc'⟩ := hpoints'.of_valid hv
    rw [hc] at hpoints'
    exact ⟨c,hpoints'.2,hc'⟩

theorem not_fromPool_l1 (hpool : A.pool ≠ 0) (c : PageCall ρ) (r : ρ) (i : Fin 512) (m : Tables) :
    ¬ FromPool A (m.put (A.root r) i (nullEntry c.off)) := by
  intro h
  have hl1 := h.l1 r i
  rw [Tables.put_mem,if_pos ⟨rfl,rfl⟩] at hl1
  obtain ⟨a,_,ha⟩ := hl1 (nullEntry_off c).1
  exact nullEntry_ne hpool a c ha

theorem not_fromPool_l2 (hpool : A.pool ≠ 0) (c : PageCall ρ) {r : ρ} {i j : Fin 512}
    {a : Fin A.slots} (hroot : m.mem (A.root r) i = A.entry a)
    (hentry : m.mem (A.table a) j = nullEntry c.off) : ¬ FromPool A m := by
  intro h
  have hl2 := h.l2 r i a hroot j
  rw [hentry] at hl2
  obtain ⟨b,_,hb⟩ := hl2 (nullEntry_off c).1
  exact nullEntry_ne hpool b c hb

section Counting
variable {off : Word} {p : Word} {i : Fin 512}

theorem ensureTable_ranOut_iff (hr : m.ranOut = false) :
    (ensureTable A off (p + off) i m).ranOut = false ↔
      (m.mem p i &&& 1 = 0 → m.used < A.slots) := by
  unfold ensureTable allocateTable
  rw [Tables.load_add]
  by_cases he : m.mem p i &&& 1 = 0
  · rw [if_pos he]
    by_cases hu : A.slots ≤ m.used
    · rw [if_pos hu]
      exact ⟨fun h => Bool.noConfusion h,fun h => absurd (h he) (Nat.not_lt.mpr hu)⟩
    · rw [if_neg hu]
      exact ⟨fun _ _ => Nat.lt_of_not_le hu,fun _ => hr⟩
  · rw [if_neg he]
    exact ⟨fun _ h => absurd h he,fun _ => hr⟩

theorem ensureTable_fresh {r : ρ} (he : m.mem (A.root r) i &&& 1 = 0) (hu : m.used < A.slots) :
    let m' := ensureTable A off (A.root r + off) i m
    nextTable off (A.root r + off) i m' = A.table ⟨m.used,hu⟩ + off ∧
      (∀ j, m'.mem (A.table ⟨m.used,hu⟩) j = 0) ∧ m'.used = m.used + 1 ∧ m'.ranOut = m.ranOut := by
  intro m'
  have htab : A.pool + BitVec.ofNat 64 (4096 * m.used) = A.table ⟨m.used,hu⟩ := rfl
  have hm' : m' = Tables.put (A.root r) i (A.entry ⟨m.used,hu⟩)
      { m with
        mem := Function.update m.mem (A.table ⟨m.used,hu⟩) fun _ => 0
        used := m.used + 1 } := by
    simp only [m',ensureTable,Tables.load_add,if_pos he,allocateTable,if_neg (Nat.not_le.mpr hu),
      Tables.store_add,BitVec.add_sub_cancel,htab]
    rfl
  refine ⟨?_,fun j => ?_,by rw [hm']; rfl,by rw [hm']; rfl⟩
  · rw [hm',nextTable,Tables.load_add,Tables.put_mem,if_pos ⟨rfl,rfl⟩,A.entry_mask]
  · rw [hm',Tables.put_mem,if_neg fun h => A.root_ne_table r _ h.1.symm]
    dsimp only
    rw [Function.update_self]

/-- The pool holds out for a call that finds enough tables in it, and for no other. -/
theorem enough_iff (h : TablesOk A m) (hr : m.ranOut = false) (c : PageCall ρ) :
    c.Enough A m ↔
      (mapPage A c.off (A.root c.root + c.off) c.va c.pa c.flags m).ranOut = false := by
  obtain ⟨t,ht⟩ := h
  unfold PageCall.Enough PageCall.missing mapPage
  dsimp only
  by_cases he : m.mem (A.root c.root) (l1Idx c.va) &&& 1 = 0
  · rw [if_pos he]
    by_cases hu : m.used < A.slots
    · obtain ⟨hnext,hzero,hused,hr'⟩ := @ensureTable_fresh ρ A m c.off (l1Idx c.va) c.root he hu
      have hiff := @ensureTable_ranOut_iff ρ A _ c.off (A.table ⟨m.used,hu⟩) (l2Idx c.va)
        (hr'.trans hr)
      rw [hzero,hused] at hiff
      rw [hnext]
      refine Iff.trans ?_ hiff.symm
      have hinvalid : (0 : Word) &&& 1 = 0 := by decide
      exact ⟨fun _ _ => by omega,fun h => by have := h hinvalid; omega⟩
    · refine ⟨fun h => by omega,fun h => ?_⟩
      have h1 := ensureTable_ranOut _ _ _ h
      exact absurd ((ensureTable_ranOut_iff hr).mp h1 he) hu
  · rw [if_neg he]
    obtain ⟨a,ha,hentry⟩ := (ht.l1 c.root (l1Idx c.va)).of_valid he
    have hiff := @ensureTable_ranOut_iff ρ A m c.off (A.table a) (l2Idx c.va) hr
    rw [ht.ensureL2_same ha,ht.nextL2 ha,hentry,A.descAddr_entry]
    refine Iff.trans ?_ hiff.symm
    by_cases he2 : m.mem (A.table a) (l2Idx c.va) &&& 1 = 0
    · rw [if_pos he2]
      exact ⟨fun _ _ => by omega,fun h => by have := h he2; omega⟩
    · rw [if_neg he2]
      exact ⟨fun _ h => absurd h he2,fun _ => Nat.zero_le _⟩

end Counting

section Calls
variable [DecidableEq ρ]

/-- A mapper either returns with the page mapped, or leaves an entry that points to no table
of the pool. -/
theorem mapPageTo_cases (hpool : A.pool ≠ 0) (h : TablesOk A m) (hr : m.ranOut = false)
    (c : PageCall ρ) :
    let e := mapPageTo A c.off (A.root c.root + c.off) c.va c.pa c.flags m
    let m' := mapPage A c.off (A.root c.root + c.off) c.va c.pa c.flags m
    m'.ranOut = false ∧ e = .returned m' ∨
      m'.ranOut = true ∧ (∃ m₁, e = .null m₁) ∧ ¬ FromPool A e.tables := by
  obtain ⟨t,ht⟩ := h
  unfold mapPageTo mapPage
  dsimp only
  cases hr₁ : (ensureTable A c.off (A.root c.root + c.off) (l1Idx c.va) m).ranOut with
  | true =>
    have hout : ∀ {q : Word} {i : Fin 512},
        (ensureTable A c.off q i (ensureTable A c.off (A.root c.root + c.off) (l1Idx c.va)
          m)).ranOut = true := fun {q i} => by
      by_contra hf
      exact Bool.false_ne_true
        ((ensureTable_ranOut _ _ _ (Bool.eq_false_iff.mpr hf)).symm.trans hr₁)
    refine Or.inr ⟨hout,?_⟩
    obtain ⟨_,_,hm₁⟩ := ensureTable_refused hr hr₁
    rw [hm₁,if_pos (nextTable_refused c _ _ _)]
    exact ⟨⟨_,rfl⟩,not_fromPool_l1 hpool c _ _ _⟩
  | false =>
    obtain ⟨t₁,a,ht₁,ha,_⟩ := ht.ensureL2 c.root (l1Idx c.va) hr₁
    rw [ht₁.nextL2 ha,if_neg (table_add_ne_zero hpool a c)]
    generalize ensureTable A c.off (A.root c.root + c.off) (l1Idx c.va) m = m₁ at hr₁ ht₁ ⊢
    cases hr₂ : (ensureTable A c.off (A.table a + c.off) (l2Idx c.va) m₁).ranOut with
    | true =>
      refine Or.inr ⟨hr₂,?_⟩
      obtain ⟨_,_,hm₂⟩ := ensureTable_refused hr₁ hr₂
      rw [hm₂,if_pos (nextTable_refused c _ _ _)]
      have hpoints := ht₁.l1 c.root (l1Idx c.va)
      rw [ha] at hpoints
      refine ⟨⟨_,rfl⟩,@not_fromPool_l2 _ _ _ hpool c c.root (l1Idx c.va) (l2Idx c.va) a ?_ ?_⟩
      · rw [MapEnd.tables,Tables.put_mem,if_neg fun h => A.root_ne_table _ _ h.1]
        exact hpoints.1
      · rw [MapEnd.tables,Tables.put_mem,if_pos ⟨rfl,rfl⟩]
    | false =>
      obtain ⟨t₂,b,ht₂,hl2,hb,_⟩ := ht₁.ensureL3 ha (l2Idx c.va) hr₂
      rw [ht₂.nextL3 (hl2 ▸ ha) hb,if_neg (table_add_ne_zero hpool b c)]
      exact Or.inl ⟨hr₂,rfl⟩

theorem mapPage_frame (h : TablesOk A m) (c : PageCall ρ)
    (hr : (mapPage A c.off (A.root c.root + c.off) c.va c.pa c.flags m).ranOut = false) {p : Word}
    (hp : p ≠ A.root c.root) (ha : ∀ a : Fin A.slots, p ≠ A.table a) :
    (mapPage A c.off (A.root c.root + c.off) c.va c.pa c.flags m).mem p = m.mem p := by
  obtain ⟨t,ht⟩ := h
  unfold mapPage at hr ⊢
  dsimp only at hr ⊢
  obtain ⟨t₁,a,ht₁,ha₁,_⟩ := ht.ensureL2 c.root (l1Idx c.va) (ensureTable_ranOut _ _ _ hr)
  rw [ht₁.nextL2 ha₁] at hr ⊢
  obtain ⟨t₂,b,ht₂,hl2,hb,_⟩ := ht₁.ensureL3 ha₁ (l2Idx c.va) hr
  rw [ht₂.nextL3 (hl2 ▸ ha₁) hb,Tables.store_add]
  have hput : ∀ (m : Tables) i val, (m.put (A.table b) i val).mem p = m.mem p :=
    fun _ _ _ => Function.update_of_ne (ha b) _ _
  rw [hput,ensureTable_mem c.off (ha a) ha,ensureTable_mem c.off hp ha]

theorem harmless_iff (hpool : A.pool ≠ 0) (h : TablesOk A m) (hr : m.ranOut = false)
    (c : PageCall ρ) : Harmless A m c (pageCall A m c) ↔ c.Enough A m := by
  rw [enough_iff h hr c]
  unfold pageCall
  rcases mapPageTo_cases hpool h hr c with ⟨hr',he⟩ | ⟨hr',_,hbad⟩
  · refine ⟨fun _ => hr',fun _ => ?_⟩
    obtain ⟨⟨t,ht⟩,hwalk⟩ := mapPage_walk h hr'
    rw [he]
    refine ⟨Or.inl fun r va => ?_,ht.fromPool,fun p => mapPage_frame h c hr'⟩
    rw [MapEnd.tables,hwalk,leafOf_page]
    rfl
  · exact ⟨fun hh => absurd hh.entries hbad,fun hf => Bool.noConfusion (hf.symm.trans hr')⟩

theorem pageCall_ok (hpool : A.pool ≠ 0) (h : TablesOk A m) (hr : m.ranOut = false)
    (c : PageCall ρ) (hc : c.Enough A m) :
    TablesOk A (pageCall A m c) ∧ (pageCall A m c).ranOut = false := by
  have hr' := (enough_iff h hr c).mp hc
  unfold pageCall
  rcases mapPageTo_cases hpool h hr c with ⟨_,he⟩ | ⟨hbad,_⟩
  · rw [he]
    exact ⟨(mapPage_walk h hr').1,hr'⟩
  · exact Bool.noConfusion (hr'.symm.trans hbad)

omit [DecidableEq ρ] in
theorem seeMapPageTo_eq (h : PoolZero A m) (r : ρ) (va pa flags : Word) :
    seeMapPageTo A (A.root r) va pa flags m = mapPageTo A 0 (A.root r) va pa flags m := by
  have hl2 : PoolZero A (ensureTable A 0 (A.root r) (l1Idx va) m) := by
    have := h.ensureTable (fun a _ => (A.root_ne_table r a).symm) 0 (l1Idx va)
    rwa [root_add_zero] at this
  unfold seeMapPageTo mapPageTo
  rw [seeEnsureTable_eq h]
  dsimp only
  rw [seeEnsureTable_eq hl2]

omit [DecidableEq ρ] in
theorem seePageCall_eq (h : PoolZero A m) (c : PageCall ρ) :
    seePageCall A m c = pageCall A m { c with virtual := false } := by
  have hoff : ({ c with virtual := false } : PageCall ρ).off = 0 := rfl
  rw [seePageCall,seeMapPageTo_eq h,pageCall,hoff,root_add_zero]

theorem along_harmless_iff (hpool : A.pool ≠ 0) (h : TablesOk A m) (hr : m.ranOut = false)
    (cs : List (PageCall ρ)) :
    Along (pageCall A) (fun m c => Harmless A m c (pageCall A m c)) m cs ↔
      Along (pageCall A) (fun m c => c.Enough A m) m cs :=
  along_iff (L := fun _ _ => True) (I := fun m => TablesOk A m ∧ m.ranOut = false)
    (fun _ c hm _ hh => pageCall_ok hpool hm.1 hm.2 c ((harmless_iff hpool hm.1 hm.2 c).mp hh))
    (fun _ c hm _ => harmless_iff hpool hm.1 hm.2 c) ⟨h,hr⟩ (along_true _ _ _)

theorem see_along_harmless_iff (hpool : A.pool ≠ 0) (h : MapperOk A m) (hr : m.ranOut = false)
    (cs : List (PageCall ρ)) :
    Along (seePageCall A) (fun m c => Harmless A m c (seePageCall A m c)) m cs ↔
      Along (seePageCall A) (fun m c => c.Enough A m) m cs := by
  have hharmless : ∀ m c, MapperOk A m ∧ m.ranOut = false → True →
      (Harmless A m c (seePageCall A m c) ↔ c.Enough A m) := by
    intro m c hm _
    rw [seePageCall_eq hm.1.zero]
    -- only `off` depends on which of the mappers is called
    have hiff := harmless_iff hpool (hm.1.ok hm.2) hm.2 { c with virtual := false }
    exact ⟨fun hh => hiff.mp ⟨hh.translations,hh.entries,hh.frame⟩,fun hc =>
      have hh := hiff.mpr hc
      ⟨hh.translations,hh.entries,hh.frame⟩⟩
  refine along_iff (L := fun _ _ => True) (I := fun m => MapperOk A m ∧ m.ranOut = false)
    (fun m c hm hl hh => ?_) hharmless ⟨h,hr⟩ (along_true _ _ _)
  have henough := (hharmless m c hm hl).mp hh
  have hok := hm.1.ok hm.2
  have hr' := (enough_iff hok hm.2 { c with virtual := false }).mp henough
  rw [seePageCall_eq hm.1.zero]
  rcases mapPageTo_cases hpool hok hm.2 { c with virtual := false } with ⟨_,he⟩ | ⟨hbad,_⟩
  · rw [pageCall,he]
    exact ⟨hm.1.mapPage _ _ _ _ _,hr'⟩
  · exact Bool.noConfusion (hr'.symm.trans hbad)

theorem mapPagesTo_returned (hpool : A.pool ≠ 0) (h : TablesOk A m) (hr : m.ranOut = false) {r : ρ}
    {va pa flags : Word} {n : Nat} {m' : Tables}
    (hm' : mapPagesTo A kernelVirtBase (A.root r + kernelVirtBase) va pa flags m n =
      .returned m') :
    TablesOk A m' ∧ m'.ranOut = false ∧ m' = (List.range n).foldl (fun m n =>
      mapPage A kernelVirtBase (A.root r + kernelVirtBase) (va + BitVec.ofNat 64 (4096 * n))
        (pa + BitVec.ofNat 64 (4096 * n)) flags m) m := by
  induction n generalizing m' with
  | zero =>
    obtain rfl := MapEnd.returned.inj hm'
    exact ⟨h,hr,rfl⟩
  | succ n ih =>
    rw [List.range_succ,List.foldl_append,List.foldl_cons,List.foldl_nil]
    unfold mapPagesTo at hm'
    cases hm₁ : mapPagesTo A kernelVirtBase (A.root r + kernelVirtBase) va pa flags m n with
    | null m₁ =>
      rw [hm₁] at hm'
      exact MapEnd.noConfusion hm'
    | returned m₁ =>
      rw [hm₁] at hm'
      obtain ⟨hok,hr₁,hfold⟩ := ih hm₁
      rw [← hfold]
      rcases mapPageTo_cases hpool hok hr₁ ⟨true,r,va + BitVec.ofNat 64 (4096 * n),
        pa + BitVec.ofNat 64 (4096 * n),flags⟩ with ⟨hr₂,he⟩ | ⟨_,⟨m₂,hnull⟩,_⟩
      · obtain rfl := MapEnd.returned.inj (hm'.symm.trans he)
        exact ⟨(mapPage_walk hok hr₂).1,hr₂,rfl⟩
      · exact MapEnd.noConfusion (hm'.symm.trans hnull)

theorem mapPagesTo_foldl (hpool : A.pool ≠ 0) (h : TablesOk A m) (hr : m.ranOut = false) {r : ρ}
    {va pa flags : Word} {n : Nat} :
    let m' := (List.range n).foldl (fun m n =>
      mapPage A kernelVirtBase (A.root r + kernelVirtBase) (va + BitVec.ofNat 64 (4096 * n))
        (pa + BitVec.ofNat 64 (4096 * n)) flags m) m
    m'.ranOut = false →
      mapPagesTo A kernelVirtBase (A.root r + kernelVirtBase) va pa flags m n = .returned m' := by
  induction n with
  | zero => exact fun _ => rfl
  | succ n ih =>
    intro m' hend
    simp only [m',List.range_succ,List.foldl_append,List.foldl_cons,List.foldl_nil] at hend ⊢
    have hbefore := ih (mapPage_ranOut hend)
    obtain ⟨hok,hr',_⟩ := mapPagesTo_returned hpool h hr hbefore
    rw [mapPagesTo,hbefore]
    rcases mapPageTo_cases hpool hok hr' ⟨true,r,va + BitVec.ofNat 64 (4096 * n),
      pa + BitVec.ofNat 64 (4096 * n),flags⟩ with ⟨_,he⟩ | ⟨hbad,_⟩
    · exact he
    · exact Bool.noConfusion (hend.symm.trans hbad)

end Calls

section Missing

def L2Missing (A : TableArea ρ) (m : Tables) (r : ρ) (i : Fin 512) : Prop :=
  m.mem (A.root r) i &&& 1 = 0

def L3Missing (A : TableArea ρ) (m : Tables) (r : ρ) (p : Fin 512 × Fin 512) : Prop :=
  L2Missing A m r p.1 ∨ m.mem (descAddr (m.mem (A.root r) p.1)) p.2 &&& 1 = 0

instance (A : TableArea ρ) (m : Tables) (r : ρ) : DecidablePred (L2Missing A m r) := fun _ =>
  inferInstanceAs (Decidable (_ = _))

instance (A : TableArea ρ) (m : Tables) (r : ρ) : DecidablePred (L3Missing A m r) := fun _ =>
  inferInstanceAs (Decidable (_ ∨ _))

/-- The indices by which the walks of `n` pages from `va` on use their tables. -/
def l2Tables (va : Word) (n : Nat) : Finset (Fin 512) :=
  (Finset.range n).image fun k => l1Idx (va + BitVec.ofNat 64 (4096 * k))

def l3Tables (va : Word) (n : Nat) : Finset (Fin 512 × Fin 512) :=
  (Finset.range n).image fun k =>
    (l1Idx (va + BitVec.ofNat 64 (4096 * k)),l2Idx (va + BitVec.ofNat 64 (4096 * k)))

/-- The tables that are missing for `n` pages from `va` on, each of them counted once. -/
def missingTables (A : TableArea ρ) (m : Tables) (r : ρ) (va : Word) (n : Nat) : Nat :=
  ((l2Tables va n).filter (L2Missing A m r)).card + ((l3Tables va n).filter (L3Missing A m r)).card

theorem card_filter_insert {α : Type} [DecidableEq α] (P : α → Prop) [DecidablePred P]
    (s : Finset α) (a : α) : ((insert a s).filter P).card =
      (s.filter P).card + if a ∉ s ∧ P a then 1 else 0 := by
  rw [Finset.filter_insert]
  by_cases ha : P a
  · rw [if_pos ha]
    by_cases hs : a ∈ s
    · rw [if_neg fun h => h.1 hs,Finset.insert_eq_of_mem (Finset.mem_filter.mpr ⟨hs,ha⟩)]
      rfl
    · rw [if_pos ⟨hs,ha⟩,Finset.card_insert_of_notMem fun h => hs (Finset.mem_filter.mp h).1]
  · rw [if_neg ha,if_neg fun h => ha h.2]
    rfl

variable {t : TableTree ρ A.slots} {r : ρ} {i j : Fin 512}

theorem Points.missing_iff {used : Nat} {e : Word} {o : Option (Fin A.slots)}
    (h : Points A used e o) : e &&& 1 = 0 ↔ o = none := by
  refine ⟨h.of_and,fun hn => ?_⟩
  rw [hn] at h
  exact h

theorem Tree.l2Missing_iff (h : Tree A m t) : L2Missing A m r i ↔ t.l2 r i = none :=
  (h.l1 r i).missing_iff

theorem Tree.l3Missing_iff (h : Tree A m t) : L3Missing A m r (i,j) ↔ t.l3 r i j = none := by
  unfold L3Missing
  rw [h.l2Missing_iff]
  cases ha : t.l2 r i with
  | none => exact iff_of_true (Or.inl rfl) (h.top r i j ha)
  | some a =>
    have hroot := h.l1 r i
    rw [ha] at hroot
    dsimp only
    rw [hroot.1,A.descAddr_entry,(h.l2 r i a ha j).missing_iff]
    exact or_iff_right (Option.some_ne_none a)

theorem ensureTable_used {off p : Word}
    (hr : (ensureTable A off (p + off) i m).ranOut = false) :
    (ensureTable A off (p + off) i m).used =
      m.used + if m.mem p i &&& 1 = 0 then 1 else 0 := by
  unfold ensureTable allocateTable at hr ⊢
  rw [Tables.load_add] at hr ⊢
  by_cases he : m.mem p i &&& 1 = 0
  · rw [if_pos he] at hr ⊢
    by_cases hu : A.slots ≤ m.used
    · rw [if_pos hu] at hr
      exact Bool.noConfusion hr
    · rw [if_neg hu,if_pos he]
      rfl
  · rw [if_neg he,if_neg he]
    rfl

/-- A page takes the tables that are missing for it, after which no others are missing. -/
theorem mapPage_missing [DecidableEq ρ] (h : TablesOk A m) {off va pa flags : Word}
    (hr : (mapPage A off (A.root r + off) va pa flags m).ranOut = false) :
    let m' := mapPage A off (A.root r + off) va pa flags m
    m'.used = m.used + (if L2Missing A m r (l1Idx va) then 1 else 0) +
        (if L3Missing A m r (l1Idx va,l2Idx va) then 1 else 0) ∧
      (∀ i, L2Missing A m' r i ↔ i ≠ l1Idx va ∧ L2Missing A m r i) ∧
      ∀ p, L3Missing A m' r p ↔ p ≠ (l1Idx va,l2Idx va) ∧ L3Missing A m r p := by
  obtain ⟨t,ht⟩ := h
  unfold mapPage at hr ⊢
  dsimp only at hr ⊢
  have hr₁ := ensureTable_ranOut _ _ _ hr
  have hused₁ := ensureTable_used hr₁
  obtain ⟨t₁,a,ht₁,ha,_,hl3₁,hl2₁⟩ := ht.ensureL2 r (l1Idx va) hr₁
  rw [ht₁.nextL2 ha] at hr ⊢
  have hused₂ := ensureTable_used hr
  obtain ⟨t₂,b,ht₂,hl2₂,hb,_,hl3₂⟩ := ht₁.ensureL3 ha (l2Idx va) hr
  rw [ht₂.nextL3 (hl2₂ ▸ ha) hb,Tables.store_add]
  obtain ⟨ht₃,_⟩ := ht₂.putLeaf hb (l3Idx va) (pa &&& ~~~0xFFF ||| flags ||| pteTypePage)
  have hentry := (ht₁.l2 r (l1Idx va) a ha (l2Idx va)).missing_iff
  rw [hl3₁,← ht.l3Missing_iff] at hentry
  refine ⟨?_,fun i => ?_,fun p => ?_⟩
  · refine hused₂.trans ?_
    rw [hused₁,if_congr hentry rfl rfl]
    rfl
  · rw [ht₃.l2Missing_iff,hl2₂,ht.l2Missing_iff]
    by_cases hi : i = l1Idx va
    · rw [hi,ha]
      exact iff_of_false (Option.some_ne_none a) fun h => h.1 rfl
    · rw [hl2₁ i hi]
      exact (and_iff_right hi).symm
  · rw [ht₃.l3Missing_iff,ht.l3Missing_iff]
    by_cases hp : p = (l1Idx va,l2Idx va)
    · rw [hp,hb]
      exact iff_of_false (Option.some_ne_none b) fun h => h.1 rfl
    · rw [hl3₂ p.1 p.2 hp,hl3₁]
      exact (and_iff_right hp).symm

theorem PageCall.missing_eq (c : PageCall ρ) : c.missing A m =
    (if L2Missing A m c.root (l1Idx c.va) then 1 else 0) +
      (if L3Missing A m c.root (l1Idx c.va,l2Idx c.va) then 1 else 0) := by
  by_cases he : L2Missing A m c.root (l1Idx c.va)
  · have hl3 : L3Missing A m c.root (l1Idx c.va,l2Idx c.va) := Or.inl he
    rw [if_pos he,if_pos hl3]
    exact if_pos he
  · rw [if_neg he,Nat.zero_add]
    exact (if_neg he).trans (if_congr (or_iff_right he).symm rfl rfl)

theorem l2Tables_succ (va : Word) (n : Nat) : l2Tables va (n + 1) =
    insert (l1Idx (va + BitVec.ofNat 64 (4096 * n))) (l2Tables va n) := by
  rw [l2Tables,Finset.range_add_one,Finset.image_insert]
  rfl

theorem l3Tables_succ (va : Word) (n : Nat) :
    let page := va + BitVec.ofNat 64 (4096 * n)
    l3Tables va (n + 1) = insert (l1Idx page,l2Idx page) (l3Tables va n) := by
  intro page
  rw [l3Tables,Finset.range_add_one,Finset.image_insert]
  rfl

theorem missingTables_succ (A : TableArea ρ) (m : Tables) (r : ρ) (va : Word) (n : Nat) :
    let page := va + BitVec.ofNat 64 (4096 * n)
    missingTables A m r va (n + 1) = missingTables A m r va n +
      (if l1Idx page ∉ l2Tables va n ∧ L2Missing A m r (l1Idx page) then 1 else 0) +
      (if (l1Idx page,l2Idx page) ∉ l3Tables va n ∧ L3Missing A m r (l1Idx page,l2Idx page)
        then 1 else 0) := by
  intro page
  rw [missingTables,l2Tables_succ,l3Tables_succ,card_filter_insert,card_filter_insert]
  exact (Nat.add_add_add_comm _ _ _ _).trans (Nat.add_assoc _ _ _).symm

theorem mapPages_missing [DecidableEq ρ] (h : TablesOk A m) (hr : m.ranOut = false) (r : ρ)
    (va pa flags : Word) (n : Nat) :
    let m' := (List.range n).foldl (fun m n =>
      mapPage A kernelVirtBase (A.root r + kernelVirtBase) (va + BitVec.ofNat 64 (4096 * n))
        (pa + BitVec.ofNat 64 (4096 * n)) flags m) m
    (m'.ranOut = false ↔ missingTables A m r va n ≤ A.slots - m.used) ∧
      (m'.ranOut = false → TablesOk A m' ∧ m'.used = m.used + missingTables A m r va n ∧
        (∀ i, L2Missing A m' r i ↔ i ∉ l2Tables va n ∧ L2Missing A m r i) ∧
        ∀ p, L3Missing A m' r p ↔ p ∉ l3Tables va n ∧ L3Missing A m r p) := by
  induction n with
  | zero =>
    have hnone : missingTables A m r va 0 = 0 := rfl
    refine ⟨iff_of_true hr (hnone ▸ Nat.zero_le _),fun _ => ⟨h,rfl,fun i => ?_,fun p => ?_⟩⟩
    · exact (and_iff_right (Finset.notMem_empty i)).symm
    · exact (and_iff_right (Finset.notMem_empty p)).symm
  | succ n ih =>
    intro m'
    obtain ⟨hiff,hleft⟩ := ih
    simp only [m',List.range_succ,List.foldl_append,List.foldl_cons,List.foldl_nil]
    generalize (List.range n).foldl _ m = m₁ at hiff hleft ⊢
    have hsucc := missingTables_succ A m r va n
    dsimp only at hsucc
    set page := va + BitVec.ofNat 64 (4096 * n)
    by_cases hr₁ : m₁.ranOut = false
    · obtain ⟨hok,hused,hl2,hl3⟩ := hleft hr₁
      have hroom := hiff.mp hr₁
      have henough := enough_iff hok hr₁ ⟨true,r,page,pa + BitVec.ofNat 64 (4096 * n),flags⟩
      rw [PageCall.Enough,PageCall.missing_eq] at henough
      simp only [hl2,hl3] at henough
      refine ⟨henough.symm.trans (by omega),fun hr₂ => ?_⟩
      obtain ⟨hused₂,hl2₂,hl3₂⟩ := mapPage_missing hok hr₂
      simp only [hl2,hl3] at hused₂ hl2₂ hl3₂
      refine ⟨(mapPage_walk hok hr₂).1,by omega,fun i => ?_,fun p => ?_⟩
      · rw [hl2₂,l2Tables_succ,Finset.mem_insert,not_or,and_assoc]
      · rw [hl3₂,l3Tables_succ,Finset.mem_insert,not_or,and_assoc]
    · refine ⟨iff_of_false (fun hr₂ => hr₁ (mapPage_ranOut hr₂)) fun hroom => ?_,fun hr₂ => ?_⟩
      · exact hr₁ (hiff.mpr (by omega))
      · exact absurd (mapPage_ranOut hr₂) hr₁

end Missing

theorem mmAllocatePagesTo_mapped {img : KernelImage} (hpool : img.tables.pool ≠ 0) {s : Mm}
    (h : TablesOk img.tables s.tables) (hr : s.tables.ranOut = false) {numPages : BitVec 32}
    (hn : numPages.toNat ≤ maxPages) {ptr : Word} {s' : Mm}
    (hs : mmAllocatePagesTo img numPages s = some (ptr,s')) (hptr : ptr ≠ 0) {k : Nat}
    (hk : k < numPages.toNat) :
    (img.kernelWalk s' (ptr + BitVec.ofNat 64 (4096 * k))).map descAddr =
      some (vaToPa (ptr + BitVec.ofNat 64 (4096 * k))) := by
  have h0 : numPages ≠ 0 := by
    rintro rfl
    exact absurd hk (Nat.not_lt_zero k)
  rw [mmAllocatePagesTo,if_neg h0] at hs
  rcases findPages_cases hn s with ⟨i,hi,hfree,_⟩ | ⟨hnone,_⟩
  · have hb := hfree.1
    have hptr' : img.heapBegin + BitVec.ofNat 64 (i * 4096) = img.heapVa i := by
      rw [Nat.mul_comm]
      rfl
    simp only [hi,hptr'] at hs
    generalize hend : mapPagesTo img.tables kernelVirtBase (img.rootPtr .kernelL1)
      (img.heapVa i &&& ~~~0xFFF) (vaToPa (img.heapVa i) &&& ~~~0xFFF) heapFlags s.tables
      (pageTurns ((numPages * pageSize32).setWidth 64)) = e at hs
    cases e with
    | null m =>
      dsimp only at hs
      cases hs
    | returned m' =>
      obtain ⟨rfl,rfl⟩ := Prod.mk.inj (Option.some.inj hs)
      obtain ⟨_,hr',hfold⟩ := mapPagesTo_returned hpool h hr hend
      have hregion : mapRegion img.tables kernelVirtBase (img.rootPtr .kernelL1) (img.heapVa i)
          (vaToPa (img.heapVa i)) ((numPages * pageSize32).setWidth 64) heapFlags s.tables = m' :=
        hfold.symm
      obtain ⟨_,hwalk⟩ := @mapRegion_heap img _ h i numPages (by omega) hb
        (by rw [hregion]; exact hr')
      have hnum := pageNumber_heapVa img (i := i + k) (by omega)
      rw [heapVa_add,KernelImage.kernelWalk,← hregion,hwalk,hnum,if_pos ⟨rfl,by omega,by omega⟩,
        Option.map_some]
      have hik : img.heapNumber + (i + k) - img.heapNumber = i + k := by omega
      rw [hik,(heapDesc_spec img (i := i + k) (by omega)).1]
  · simp only [hnone] at hs
    exact absurd (Prod.mk.inj (Option.some.inj hs)).1.symm hptr

/-- A call is harmless when the pool has the tables that are missing on its walk, and only
then; and where mm_allocate_pages returns pages, they are mapped. -/
theorem tables_run_out_iff (img : KernelImage) (see : TableArea Unit)
    (hpool : img.tables.pool ≠ 0) (hsee : see.pool ≠ 0) :
    (∀ m, TablesOk img.tables m → m.ranOut = false → ∀ cs : List (PageCall KernelRoot),
      (Along (pageCall img.tables)
          (fun m c => Harmless img.tables m c (pageCall img.tables m c)) m cs ↔
        Along (pageCall img.tables) (fun m c => c.Enough img.tables m) m cs)) ∧
    (∀ m, MapperOk see m → m.ranOut = false → ∀ cs : List (PageCall Unit),
      (Along (seePageCall see) (fun m c => Harmless see m c (seePageCall see m c)) m cs ↔
        Along (seePageCall see) (fun m c => c.Enough see m) m cs)) ∧
    ∀ s : Mm, TablesOk img.tables s.tables → s.tables.ranOut = false →
      ∀ numPages : BitVec 32, numPages.toNat ≤ maxPages → ∀ ptr s',
        mmAllocatePagesTo img numPages s = some (ptr,s') → ptr ≠ 0 →
          ∀ k < numPages.toNat,
            (img.kernelWalk s' (ptr + BitVec.ofNat 64 (4096 * k))).map descAddr =
              some (vaToPa (ptr + BitVec.ofNat 64 (4096 * k))) :=
  ⟨fun _ h hr cs => along_harmless_iff hpool h hr cs,
    fun _ h hr cs => see_along_harmless_iff hsee h hr cs,
    fun _ h hr _ hn _ _ hs hptr _ hk => mmAllocatePagesTo_mapped hpool h hr hn hs hptr hk⟩

/-- map_page_virtual on the heap, in one 2 MB block after the other. -/
def blockCall (k : Nat) : PageCall KernelRoot where
  virtual := true
  root := .kernelL1
  va := kernelVirtBase + 0x40600000 + BitVec.ofNat 64 (0x200000 * k)
  pa := 0x40600000 + BitVec.ofNat 64 (0x200000 * k)
  flags := heapFlags

theorem tables_run_out_iff_block :
    let A := testKernelImage.tables
    Harmless A Tables.bss (blockCall 0) (pageCall A Tables.bss (blockCall 0)) ∧
      ∀ c : PageCall Unit, Harmless testBootImage.see Tables.bss c
        (seePageCall testBootImage.see Tables.bss c) ∧
      ∀ ptr s', mmAllocatePagesTo testKernelImage 2 zeroMm = some (ptr,s') → ptr ≠ 0 →
        (testKernelImage.kernelWalk s' (ptr + BitVec.ofNat 64 (4096 * 1))).map descAddr =
          some (vaToPa (ptr + BitVec.ofNat 64 (4096 * 1))) := by
  intro A
  obtain ⟨hkernel,hsee,hmm⟩ :=
    tables_run_out_iff testKernelImage testBootImage.see (by decide) (by decide)
  have hok : TablesOk testKernelImage.tables Tables.bss := tablesOk_of_zero fun _ _ => rfl
  refine ⟨?_,fun c => ⟨?_,fun ptr s' hs hptr => ?_⟩⟩
  · exact ((hkernel Tables.bss hok rfl [blockCall 0]).mpr ⟨by decide,trivial⟩).1
  · refine ((hsee Tables.bss (bss_mapperOk _) rfl [c]).mpr ⟨?_,trivial⟩).1
    have hmissing : c.missing testBootImage.see Tables.bss = 2 := if_pos BitVec.zero_and
    change c.missing testBootImage.see Tables.bss ≤ 64
    rw [hmissing]
    decide
  · have hzero : TablesOk testKernelImage.tables zeroMm.tables := tablesOk_of_zero fun _ _ => rfl
    exact hmm zeroMm hzero rfl 2 (by decide) ptr s' hs hptr 1 (by decide)

def fullTables : Tables :=
  exec (pageCall testKernelImage.tables) Tables.bss ((List.range 31).map blockCall)

theorem fullTables_facts :
    (pageCall testKernelImage.tables fullTables (blockCall 31)).mem
        (testKernelImage.tables.root .kernelL1) (l1Idx (blockCall 31).va) =
          testKernelImage.tables.entry ⟨0,by decide⟩ ∧
      (pageCall testKernelImage.tables fullTables (blockCall 31)).mem
        (testKernelImage.tables.table ⟨0,by decide⟩) (l2Idx (blockCall 31).va) =
          nullEntry (blockCall 31).off ∧
      fullTables.used = 32 ∧
      walk fullTables.mem (testKernelImage.tables.root .kernelL1) (blockCall 30).va =
        some (blockCall 30).desc := by
  decide +kernel

theorem fullTables_ok :
    TablesOk testKernelImage.tables fullTables ∧ fullTables.ranOut = false := by
  have henough : Along (pageCall testKernelImage.tables)
      (fun m c => c.Enough testKernelImage.tables m) Tables.bss
      ((List.range 31).map blockCall) := by decide +kernel
  have hzero : TablesOk testKernelImage.tables Tables.bss := tablesOk_of_zero fun _ _ => rfl
  unfold fullTables
  generalize (List.range 31).map blockCall = cs at henough ⊢
  exact exec_invariant
    (I := fun m => TablesOk testKernelImage.tables m ∧ m.ranOut = false)
    (fun _ c hm hc => pageCall_ok (by decide) hm.1 hm.2 c hc) ⟨hzero,rfl⟩ henough

/-- After 31 blocks the pool is used up. The next call leaves a level 2 entry that points
to physical address 2^32. -/
theorem thirtySecond_block :
    fullTables.used = 32 ∧ nullEntry (blockCall 31).off = 0x0000000100000003 ∧
      walk fullTables.mem (testKernelImage.tables.root .kernelL1) (blockCall 30).va =
        some (blockCall 30).desc ∧
      ¬ Harmless testKernelImage.tables fullTables (blockCall 31)
        (pageCall testKernelImage.tables fullTables (blockCall 31)) := by
  obtain ⟨hroot,hentry,hused,hwalk⟩ := fullTables_facts
  have hbad := not_fromPool_l2 (by decide) (blockCall 31) hroot hentry
  exact ⟨hused,by decide,hwalk,fun h => hbad h.entries⟩

end Arm64

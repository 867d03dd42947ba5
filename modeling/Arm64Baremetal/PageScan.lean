import Arm64Baremetal.KernelMm

/-!
The scan of mm_allocate_pages by its tests and accesses. `i` and `j` are ints and num_pages is
unsigned, so the bound MAX_PAGES - num_pages and the comparisons are made modulo 2^32.
-/

set_option autoImplicit false

namespace Arm64
open Runs FirstFit

/-- What comes next: the test of the outer loop, of the inner one, or of the loop that marks
the block; or the scan is over. -/
inductive ScanPc where
  | outer (i : BitVec 32)
  | inner (i j : BitVec 32)
  | mark (i j : BitVec 32)
  | found (i : BitVec 32)
  | failed

structure Scan where
  pc : ScanPc
  mm : Mm

/-- The index of pages[] that the next turn accesses. -/
def Scan.access (numPages : BitVec 32) (c : Scan) : Option Nat :=
  match c.pc with
  | .inner i j | .mark i j => if j < numPages then some (i + j).toNat else none
  | _ => none

/-- Beyond MAX_PAGES `pages` is whatever lies behind the array. The ints wrap. -/
def scanStep (numPages : BitVec 32) (c : Scan) : Scan :=
  match c.pc with
  | .outer i =>
    if i ≤ BitVec.ofNat 32 maxPages - numPages then { c with pc := .inner i 0 }
    else { c with pc := .failed }
  | .inner i j =>
    if j < numPages then
      if c.mm.pages (i + j).toNat ≠ 0 then { c with pc := .outer (i + 1) }
      else { c with pc := .inner i (j + 1) }
    else { c with pc := .mark i 0 }
  | .mark i j =>
    if j < numPages then
      { pc := .mark i (j + 1)
        mm := { c.mm with pages := Function.update c.mm.pages (i + j).toNat 1 } }
    else { c with pc := .found i }
  | .found _ | .failed => c

def scanStart (s : Mm) : Scan := ⟨.outer 0,s⟩

def Scan.result (img : KernelImage) (numPages : BitVec 32) (c : Scan) : Option (Word × Mm) :=
  match c.pc with
  | .found i =>
    let ptr := img.heapBegin + (i * pageSize32).signExtend 64
    let size := (numPages * pageSize32).setWidth 64
    some (ptr,{ c.mm with
      tables := mapRegion img.tables kernelVirtBase (img.rootPtr .kernelL1) ptr (vaToPa ptr) size
        heapFlags c.mm.tables })
  | .failed =>
    some (0,c.mm.emit (.printf "[MM] ERROR: No contiguous block of %d pages found!\n" numPages))
  | _ => none

/-- mm_allocate_pages, if `n` turns are enough for it. -/
def mmAllocatePagesIn (img : KernelImage) (numPages : BitVec 32) (s : Mm) (n : Nat) :
    Option (Word × Mm) :=
  if numPages = 0 then some (0,s)
  else ((scanStep numPages)^[n] (scanStart s)).result img numPages

/-- The accesses stay inside pages[], the scan ends, and it ends with 0 and no change of pages[]
or of a table when there is no run of free pages. -/
structure ScanSafe (img : KernelImage) (numPages : BitVec 32) (s : Mm) : Prop where
  bounds : numPages ≠ 0 → ∀ n k,
    ((scanStep numPages)^[n] (scanStart s)).access numPages = some k → k < maxPages
  ends : ∃ n, (mmAllocatePagesIn img numPages s n).isSome
  refuses : (∀ i, ¬ FreeRun s numPages.toNat i) → ∀ n ptr s',
    mmAllocatePagesIn img numPages s n = some (ptr,s') →
      ptr = 0 ∧ s'.pages = s.pages ∧ s'.tables = s.tables

variable {img : KernelImage} {numPages : BitVec 32} {s : Mm} {i j : Nat}

section Turns

theorem ofNat_lt_iff (hj : j < 2 ^ 32) : BitVec.ofNat 32 j < numPages ↔ j < numPages.toNat := by
  rw [BitVec.lt_def,BitVec.toNat_ofNat,Nat.mod_eq_of_lt hj]

theorem ofNat_sum (hij : i + j < 2 ^ 32) :
    (BitVec.ofNat 32 i + BitVec.ofNat 32 j).toNat = i + j := by
  rw [← BitVec.ofNat_add,BitVec.toNat_ofNat,Nat.mod_eq_of_lt hij]

theorem inner_turn (hj : j < numPages.toNat) (hij : i + j < 2 ^ 32) :
    scanStep numPages ⟨.inner (BitVec.ofNat 32 i) (BitVec.ofNat 32 j),s⟩ =
      if s.pages (i + j) = 0 then ⟨.inner (BitVec.ofNat 32 i) (BitVec.ofNat 32 (j + 1)),s⟩
      else ⟨.outer (BitVec.ofNat 32 (i + 1)),s⟩ := by
  have hj' : BitVec.ofNat 32 j < numPages := (ofNat_lt_iff (by omega)).mpr hj
  simp only [scanStep,if_pos hj',ofNat_sum hij,BitVec.ofNat_add]
  by_cases h0 : s.pages (i + j) = 0
  · rw [if_neg (not_not.mpr h0),if_pos h0]
    rfl
  · rw [if_pos h0,if_neg h0]
    rfl

theorem inner_end (h : numPages.toNat = j) (i : BitVec 32) :
    scanStep numPages ⟨.inner i (BitVec.ofNat 32 j),s⟩ = ⟨.mark i 0,s⟩ := by
  have hj : ¬ BitVec.ofNat 32 j < numPages := by
    rw [ofNat_lt_iff (h ▸ numPages.isLt)]
    omega
  simp only [scanStep,if_neg hj]

theorem inner_leads {m : Nat} (hm : j + m = numPages.toNat) (hi : i + numPages.toNat ≤ 2 ^ 32) :
    Leads (scanStep numPages) ⟨.inner (BitVec.ofNat 32 i) (BitVec.ofNat 32 j),s⟩
      (if isFree (fun p => s.pages p = 0) (i + j) m then ⟨.mark (BitVec.ofNat 32 i) 0,s⟩
        else ⟨.outer (BitVec.ofNat 32 (i + 1)),s⟩) := by
  induction m generalizing j with
  | zero => exact ⟨1,inner_end (by omega) _⟩
  | succ m ih =>
    have hturn := @inner_turn numPages s i j (by omega) (by omega)
    unfold isFree
    by_cases h0 : s.pages (i + j) = 0
    · rw [if_pos h0] at hturn
      rw [if_pos (decide_eq_true h0),Nat.add_assoc]
      exact .head hturn (ih (by omega))
    · rw [if_neg h0] at hturn
      rw [if_neg (fun h => h0 (of_decide_eq_true h)),if_neg Bool.false_ne_true]
      exact ⟨1,hturn⟩

theorem mark_leads {m : Nat} (hm : j + m = numPages.toNat) (hi : i + numPages.toNat ≤ 2 ^ 32) :
    Leads (scanStep numPages) ⟨.mark (BitVec.ofNat 32 i) (BitVec.ofNat 32 j),s⟩
      ⟨.found (BitVec.ofNat 32 i),{ s with pages := setRun 1 s.pages (i + j) m }⟩ := by
  induction m generalizing j s with
  | zero =>
    have hj : ¬ BitVec.ofNat 32 j < numPages := by
      rw [ofNat_lt_iff (by have := numPages.isLt; omega)]
      omega
    exact ⟨1,by simp only [Function.iterate_one,scanStep,if_neg hj,setRun]⟩
  | succ m ih =>
    have hj : BitVec.ofNat 32 j < numPages := (ofNat_lt_iff (by omega)).mpr (by omega)
    have hturn : scanStep numPages ⟨.mark (BitVec.ofNat 32 i) (BitVec.ofNat 32 j),s⟩ =
        ⟨.mark (BitVec.ofNat 32 i) (BitVec.ofNat 32 (j + 1)),
          { s with pages := Function.update s.pages (i + j) 1 }⟩ := by
      simp only [scanStep,if_pos hj,ofNat_sum (show i + j < 2 ^ 32 by omega),BitVec.ofNat_add]
      rfl
    exact .head hturn (ih (by omega))

end Turns

section Within

theorem outer_turn (i : BitVec 32) : scanStep numPages ⟨.outer i,s⟩ =
    if i.toNat ≤ lastStart numPages then ⟨.inner i 0,s⟩ else ⟨.failed,s⟩ := by
  unfold scanStep lastStart
  rfl

theorem outer_leads (hn : numPages.toNat ≤ maxPages) {m : Nat}
    (hm : i + m = lastStart numPages + 1) : Leads (scanStep numPages) ⟨.outer (BitVec.ofNat 32 i),s⟩
      (match search (fun p => s.pages p = 0) numPages.toNat i m with
        | some k => ⟨.found (BitVec.ofNat 32 k),
            { s with pages := setRun 1 s.pages k numPages.toNat }⟩
        | none => ⟨.failed,s⟩) := by
  have hlast := lastStart_eq hn
  have hn' : numPages.toNat ≤ 131072 := hn
  have hlast' : lastStart numPages = 131072 - numPages.toNat := hlast
  induction m generalizing i with
  | zero =>
    refine ⟨1,(outer_turn _).trans (if_neg ?_)⟩
    rw [BitVec.toNat_ofNat]
    omega
  | succ m ih =>
    have hturn := @outer_turn numPages s (BitVec.ofNat 32 i)
    rw [BitVec.toNat_ofNat,Nat.mod_eq_of_lt (by omega),if_pos (by omega)] at hturn
    have hinner := @inner_leads numPages s i 0 _ (Nat.zero_add _) (by omega)
    unfold search
    cases hfree : isFree (fun p => s.pages p = 0) i numPages.toNat with
    | true =>
      rw [Nat.add_zero,hfree,if_pos rfl] at hinner
      rw [if_pos rfl]
      exact (Leads.head hturn hinner).trans (mark_leads (j := 0) (Nat.zero_add _) (by omega))
    | false =>
      rw [Nat.add_zero,hfree,if_neg Bool.false_ne_true] at hinner
      rw [if_neg Bool.false_ne_true]
      exact (Leads.head hturn hinner).trans (ih (by omega))

/-- The scan is the search of the byte map. -/
theorem scan_leads (hn : numPages.toNat ≤ maxPages) (s : Mm) :
    Leads (scanStep numPages) (scanStart s) (match findPages numPages s with
      | some k => ⟨.found (BitVec.ofNat 32 k),{ s with pages := setRun 1 s.pages k numPages.toNat }⟩
      | none => ⟨.failed,s⟩) := by
  have hleads := @outer_leads numPages s 0 hn _ (Nat.zero_add _)
  rw [findPages]
  exact hleads

def Scan.Inside (numPages : BitVec 32) (c : Scan) : Prop :=
  match c.pc with
  | .inner i j | .mark i j => i.toNat + numPages.toNat ≤ maxPages ∧ j.toNat ≤ numPages.toNat
  | _ => True

theorem toNat_succ {j : BitVec 32} (hj : j < numPages) : (j + 1).toNat = j.toNat + 1 := by
  have hlt : j.toNat < numPages.toNat := hj
  have hone : (1 : BitVec 32).toNat = 1 := rfl
  rw [BitVec.toNat_add,hone]
  omega

theorem inside_step (hn : numPages.toNat ≤ maxPages) (c : Scan) (hc : c.Inside numPages) :
    (scanStep numPages c).Inside numPages := by
  obtain ⟨pc,s⟩ := c
  have hlast := lastStart_eq hn
  cases pc with
  | outer i =>
    rw [outer_turn]
    by_cases hi : i.toNat ≤ lastStart numPages
    · rw [if_pos hi]
      exact ⟨by omega,Nat.zero_le _⟩
    · rw [if_neg hi]
      trivial
  | inner i j =>
    obtain ⟨hi,_⟩ := hc
    unfold scanStep
    dsimp only
    by_cases hj : j < numPages
    · rw [if_pos hj]
      by_cases h0 : s.pages (i + j).toNat = 0
      · rw [if_neg (not_not.mpr h0)]
        exact ⟨hi,by rw [toNat_succ hj]; exact hj⟩
      · rw [if_pos h0]
        trivial
    · rw [if_neg hj]
      exact ⟨hi,Nat.zero_le _⟩
  | mark i j =>
    obtain ⟨hi,_⟩ := hc
    unfold scanStep
    dsimp only
    by_cases hj : j < numPages
    · rw [if_pos hj]
      exact ⟨hi,by rw [toNat_succ hj]; exact hj⟩
    · rw [if_neg hj]
      trivial
  | found i => trivial
  | failed => trivial

theorem access_lt {c : Scan} (hc : c.Inside numPages) {k : Nat} (hk : c.access numPages = some k) :
    k < maxPages := by
  have hsum : ∀ i j : BitVec 32, i.toNat + numPages.toNat ≤ maxPages → j < numPages →
      (i + j).toNat < maxPages := by
    intro i j hi hj
    have hj : j.toNat < numPages.toNat := hj
    rw [BitVec.toNat_add]
    exact Nat.lt_of_le_of_lt (Nat.mod_le _ _) (by omega)
  obtain ⟨pc,s⟩ := c
  cases pc with
  | inner i j =>
    obtain ⟨hj,hk⟩ := Option.ite_none_right_eq_some.mp hk
    exact Option.some.inj hk ▸ hsum i j hc.1 hj
  | mark i j =>
    obtain ⟨hj,hk⟩ := Option.ite_none_right_eq_some.mp hk
    exact Option.some.inj hk ▸ hsum i j hc.1 hj
  | outer i => cases hk
  | found i => cases hk
  | failed => cases hk

end Within

section Beyond

/-- The bound wraps around when more pages are asked for than there are. -/
theorem lastStart_wraps (hn : maxPages < numPages.toNat) : maxPages < lastStart numPages := by
  have hn : 131072 < numPages.toNat := hn
  have hmax : (BitVec.ofNat 32 maxPages).toNat = 131072 := rfl
  change 131072 < (BitVec.ofNat 32 maxPages - numPages).toNat
  rw [BitVec.toNat_sub,hmax]
  omega

def Overruns (numPages : BitVec 32) (c : Scan) : Prop :=
  ∃ c' k, Leads (scanStep numPages) c c' ∧ c'.access numPages = some k ∧ maxPages ≤ k

theorem Overruns.of_leads {c c' : Scan} (h : Leads (scanStep numPages) c c')
    (ho : Overruns numPages c') : Overruns numPages c := by
  obtain ⟨c'',k,hc,hk⟩ := ho
  exact ⟨c'',k,h.trans hc,hk⟩

theorem inner_overruns (hn : maxPages < numPages.toNat) (hij : i + j = maxPages) :
    Overruns numPages ⟨.inner (BitVec.ofNat 32 i) (BitVec.ofNat 32 j),s⟩ := by
  have hij' : i + j = 131072 := hij
  have hj : BitVec.ofNat 32 j < numPages := (ofNat_lt_iff (by omega)).mpr (by omega)
  exact ⟨_,_,.refl _ _,if_pos hj,Nat.le_of_eq (hij.symm.trans (ofNat_sum (by omega)).symm)⟩

theorem inner_over (hn : maxPages < numPages.toNat) {m : Nat} (hm : i + j + m = maxPages) :
    Overruns numPages ⟨.inner (BitVec.ofNat 32 i) (BitVec.ofNat 32 j),s⟩ ∨
      Leads (scanStep numPages) ⟨.inner (BitVec.ofNat 32 i) (BitVec.ofNat 32 j),s⟩
        ⟨.outer (BitVec.ofNat 32 (i + 1)),s⟩ := by
  induction m generalizing j with
  | zero => exact .inl (inner_overruns hn hm)
  | succ m ih =>
    have hm' : i + j + (m + 1) = 131072 := hm
    have hturn := @inner_turn numPages s i j (by omega) (by omega)
    by_cases h0 : s.pages (i + j) = 0
    · rw [if_pos h0] at hturn
      exact (ih (by omega)).imp (.of_leads ⟨1,hturn⟩) (.head hturn)
    · rw [if_neg h0] at hturn
      exact .inr ⟨1,hturn⟩

theorem outer_overruns (hn : maxPages < numPages.toNat) {m : Nat} (hm : i + m = maxPages) :
    Overruns numPages ⟨.outer (BitVec.ofNat 32 i),s⟩ := by
  have hwraps := lastStart_wraps hn
  induction m generalizing i with
  | zero =>
    have hturn := @outer_turn numPages s (BitVec.ofNat 32 i)
    rw [BitVec.toNat_ofNat,if_pos (Nat.le_trans (Nat.mod_le _ _) (by omega))] at hturn
    exact .of_leads ⟨1,hturn⟩ (inner_overruns hn hm)
  | succ m ih =>
    have hturn := @outer_turn numPages s (BitVec.ofNat 32 i)
    rw [BitVec.toNat_ofNat,if_pos (Nat.le_trans (Nat.mod_le _ _) (by omega))] at hturn
    refine .of_leads ⟨1,hturn⟩ ?_
    rcases @inner_over numPages s i 0 hn (m + 1) hm with hover | hnext
    · exact hover
    · exact .of_leads hnext (ih (by omega))

end Beyond

theorem result_fixed (img : KernelImage) {c : Scan} (hc : (c.result img numPages).isSome) :
    scanStep numPages c = c := by
  obtain ⟨pc,s⟩ := c
  cases pc with
  | found i => rfl
  | failed => rfl
  | outer i => cases hc
  | inner i j => cases hc
  | mark i j => cases hc

theorem mmAllocatePagesIn_iff (img : KernelImage) (hn : numPages.toNat ≤ maxPages) (s : Mm)
    (r : Word × Mm) :
    (∃ n, mmAllocatePagesIn img numPages s n = some r) ↔ r = mmAllocatePages img numPages s := by
  by_cases h0 : numPages = 0
  · simp only [mmAllocatePagesIn,mmAllocatePages,if_pos h0,exists_const,Option.some.injEq]
    exact eq_comm
  have hleads := scan_leads hn s
  have hresult : ∃ c, Leads (scanStep numPages) (scanStart s) c ∧
      c.result img numPages = some (mmAllocatePages img numPages s) := by
    refine ⟨_,hleads,?_⟩
    rw [mmAllocatePages,if_neg h0]
    cases hs : findPages numPages s with
    | none => rfl
    | some k =>
      -- the int product i * PAGE_SIZE does not wrap
      obtain ⟨a,ha,hfree,_⟩ | ⟨hnone,_⟩ := findPages_cases hn s
      · obtain rfl := Option.some.inj (hs.symm.trans ha)
        have hb : k + numPages.toNat ≤ 131072 := hfree.1
        have hsize : pageSize32.toNat = 4096 := rfl
        have hoff : (BitVec.ofNat 32 k * pageSize32).signExtend 64 =
            BitVec.ofNat 64 (k * 4096) := by
          have hval : (BitVec.ofNat 32 k * pageSize32).toNat = k * 4096 := by
            rw [BitVec.toNat_mul,BitVec.toNat_ofNat,hsize]
            omega
          have hsign : (BitVec.ofNat 32 k * pageSize32).msb = false := by
            rw [BitVec.msb_eq_decide,hval]
            exact decide_eq_false (by omega)
          apply BitVec.eq_of_toNat_eq
          rw [BitVec.signExtend_eq_setWidth_of_msb_false hsign,BitVec.toNat_setWidth,hval,
            BitVec.toNat_ofNat]
        simp only [Scan.result,hoff]
        rfl
      · exact absurd (hs.symm.trans hnone) (Option.some_ne_none k)
  obtain ⟨c,hc,hres⟩ := hresult
  constructor
  · rintro ⟨n,hr⟩
    rw [mmAllocatePagesIn,if_neg h0] at hr
    have hsame := Leads.halt_unique (⟨n,rfl⟩ : Leads (scanStep numPages) (scanStart s) _) hc
      (result_fixed img (by rw [hr]; rfl)) (result_fixed img (by rw [hres]; rfl))
    rw [hsame,hres] at hr
    exact (Option.some.inj hr).symm
  · rintro rfl
    obtain ⟨n,rfl⟩ := hc
    exact ⟨n,by rw [mmAllocatePagesIn,if_neg h0,hres]⟩

theorem scan_safe (hn : numPages.toNat ≤ maxPages) (s : Mm) : ScanSafe img numPages s where
  bounds _ n k hk :=
    access_lt (Leads.invariant (I := Scan.Inside numPages) (inside_step hn) ⟨n,rfl⟩
      (show Scan.Inside numPages (scanStart s) from trivial)) hk
  ends := by
    obtain ⟨n,hr⟩ := (mmAllocatePagesIn_iff img hn s _).mpr rfl
    exact ⟨n,by rw [hr]; rfl⟩
  refuses hfree n ptr s' hr := by
    have hres := (mmAllocatePagesIn_iff img hn s _).mp ⟨n,hr⟩
    by_cases h0 : numPages = 0
    · exact absurd ⟨Nat.zero_add _ ▸ hn,by simp [h0,mem_run]⟩ (hfree 0)
    · obtain ⟨a,_,hrun,_⟩ | ⟨hs,_⟩ := findPages_cases hn s
      · exact absurd hrun (hfree a)
      · obtain ⟨hptr,hpages,htables⟩ := mmAllocatePages_none img h0 hs
        rw [← hres] at hptr hpages htables
        exact ⟨hptr,hpages,htables⟩

theorem not_scanSafe (hn : maxPages < numPages.toNat) (s : Mm) : ¬ ScanSafe img numPages s := by
  intro h
  have h0 : numPages ≠ 0 := by
    rintro rfl
    exact absurd hn (by decide)
  obtain ⟨c,k,⟨n,rfl⟩,hk,hout⟩ := @outer_overruns numPages s 0 hn maxPages (Nat.zero_add _)
  exact absurd (h.bounds h0 n k hk) (Nat.not_lt.mpr hout)

/-- The scan is safe for every content of pages[] exactly when it is asked for no more pages
than there are. -/
theorem scan_safe_iff (img : KernelImage) (numPages : BitVec 32) (s : Mm) :
    ScanSafe img numPages s ↔ numPages.toNat ≤ maxPages :=
  ⟨fun h => Nat.le_of_not_lt fun hn => not_scanSafe hn s h,fun hn => scan_safe hn s⟩

/-- With one page more than there are, the scan of free pages reads pages[MAX_PAGES]. -/
theorem scan_overruns : (131073 : BitVec 32).toNat = maxPages + 1 ∧
    (∃ c k, Leads (scanStep 131073) (scanStart zeroMm) c ∧ c.access 131073 = some k ∧
      maxPages ≤ k) ∧ ¬ ScanSafe testKernelImage 131073 zeroMm :=
  ⟨rfl,outer_overruns (i := 0) (by decide) (Nat.zero_add _),not_scanSafe (by decide) zeroMm⟩

end Arm64

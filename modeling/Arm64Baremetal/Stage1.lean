import Mathlib.Algebra.Ring.Nat
import Mathlib.Data.Option.Basic

/-!
Stage 1 translation of AArch64 with 4 KB granules: the registers of the EL1&0 regime, the
walk they start, and what the memory attribute register adds to what the walk finds.
-/

set_option autoImplicit false

namespace Stage1

abbrev Word := BitVec 64

/-- Tables of 512 descriptors by their address. -/
abbrev Memory := Word → Fin 512 → Word

structure Regime where
  sctlr : Word
  tcr : Word
  ttbr0 : Word
  ttbr1 : Word
  mair : Word

/-- A descriptor that ends a walk, `below` levels above the pages. -/
structure Entry where
  desc : Word
  below : Nat

structure Translation where
  pa : Word
  perms : Word
  memType : BitVec 8
  deriving DecidableEq

def addrMask : Word := 0x0000FFFFFFFFF000

theorem and_511_lt (w : Word) : (w &&& 0x1FF).toNat < 512 := by
  rw [BitVec.toNat_and]
  exact Nat.lt_of_le_of_lt Nat.and_le_right (by decide)

def index (below : Nat) (va : Word) : Fin 512 :=
  ⟨(va >>> (12 + 9 * below) &&& 0x1FF).toNat,and_511_lt _⟩

/-- The walk from a table. A page stands at the last level only, and a block at the two
levels above it. -/
def lookup (mem : Memory) (va : Word) : Nat → Word → Option Entry
  | 0,table =>
    let d := mem table (index 0 va)
    if d &&& 3 = 3 then some ⟨d,0⟩ else none
  | n + 1,table =>
    let d := mem table (index (n + 1) va)
    if d &&& 3 = 3 then lookup mem va n (d &&& addrMask)
    else if d &&& 3 = 1 ∧ n < 2 then some ⟨d,n + 1⟩ else none

namespace Entry

def attrIndx (e : Entry) : Nat := (e.desc >>> 2 &&& 7).toNat

theorem attrIndx_lt (e : Entry) : e.attrIndx < 8 := by
  rw [attrIndx,BitVec.toNat_and]
  exact Nat.lt_of_le_of_lt Nat.and_le_right (by decide)

/-- Without the access flag the access faults. -/
def accessed (e : Entry) : Bool := e.desc.getLsbD 10

def shift (e : Entry) : Nat := 12 + 9 * e.below

/-- AP[1]: the access is open to EL0. -/
def el0 (e : Entry) : Bool := e.desc.getLsbD 6

end Entry

def attr (mair : Word) (i : Nat) : BitVec 8 := (mair >>> (8 * i)).setWidth 8

def resolve (mair va : Word) (e : Entry) : Translation where
  pa := (e.desc &&& addrMask) >>> e.shift <<< e.shift ||| va &&& (1 <<< e.shift - 1)
  perms := e.desc &&& ~~~(addrMask ||| 0x1F)
  memType := attr mair e.attrIndx

/-- The tables below the first one, for a region of `64 - tsz` address bits. -/
def levelsBelow (tsz : Nat) : Nat :=
  if tsz < 25 then 3 else if tsz < 34 then 2 else if tsz < 43 then 1 else 0

/-- The addresses of a region: the bits above its size are all clear, or all set. -/
def InRegion (tsz : Nat) (high : Bool) (va : Word) : Prop :=
  if high then 2 ^ 64 ≤ va.toNat + 2 ^ (64 - tsz) else va.toNat < 2 ^ (64 - tsz)

instance (tsz : Nat) (high : Bool) (va : Word) : Decidable (InRegion tsz high va) :=
  inferInstanceAs (Decidable (if high then _ else _))

namespace Regime

def mmuOn (r : Regime) : Bool := r.sctlr.getLsbD 0

/-- Bit 55 of an address selects the half; T0SZ and T1SZ below 16 act as 16. -/
def tsz (r : Regime) (high : Bool) : Nat :=
  max 16 ((if high then r.tcr >>> 16 else r.tcr) &&& 0x3F).toNat

def base (r : Regime) (high : Bool) : Word := (if high then r.ttbr1 else r.ttbr0) &&& addrMask

def entry (r : Regime) (mem : Memory) (va : Word) : Option Entry :=
  let high := va.getLsbD 55
  let tsz := r.tsz high
  if InRegion tsz high va then
    (lookup mem (BitVec.ofNat 64 (va.toNat % 2 ^ (64 - tsz))) (levelsBelow tsz)
      (r.base high)).filter Entry.accessed
  else none

/-- With the MMU off an address is itself, and its memory is Device-nGnRnE. -/
def translate (r : Regime) (mem : Memory) (va : Word) : Option Translation :=
  if r.mmuOn then (r.entry mem va).map (resolve r.mair va) else some ⟨va,0,0⟩

/-- The location that a load of EL1 or EL0 reads. Without PAN no entry denies it to EL1. -/
def read (r : Regime) (mem : Memory) (el0 : Bool) (va : Word) : Option Word :=
  if r.mmuOn then
    ((r.entry mem va).filter fun e => !el0 || e.el0).map fun e => (resolve r.mair va e).pa
  else some va

def El0Readable (r : Regime) (mem : Memory) (pa : Word) : Prop := ∃ va, r.read mem true va = some pa

structure SameWalk (r r' : Regime) : Prop where
  on : r.mmuOn = true
  on' : r'.mmuOn = true
  tcr : r'.tcr = r.tcr
  ttbr0 : r'.ttbr0 = r.ttbr0
  ttbr1 : r'.ttbr1 = r.ttbr1

variable {r r' : Regime}

theorem SameWalk.entry_eq (h : SameWalk r r') (mem : Memory) (va : Word) :
    r'.entry mem va = r.entry mem va := by
  have htsz : r'.tsz = r.tsz := by
    funext high
    rw [tsz,tsz,h.tcr]
  have hbase : r'.base = r.base := by
    funext high
    rw [base,base,h.ttbr0,h.ttbr1]
  simp only [entry,htsz,hbase]

/-- Only the memory type can differ between such regimes. -/
theorem SameWalk.frame (h : SameWalk r r') (mem : Memory) (va : Word) :
    (r'.translate mem va).map (fun t => (t.pa,t.perms)) =
      (r.translate mem va).map (fun t => (t.pa,t.perms)) := by
  rw [translate,translate,if_pos h.on,if_pos h.on',h.entry_eq,Option.map_map,Option.map_map]
  rfl

theorem SameWalk.translate_eq_iff (h : SameWalk r r') (mem : Memory) (va : Word) :
    r'.translate mem va = r.translate mem va ↔
      ∀ e, r.entry mem va = some e → attr r'.mair e.attrIndx = attr r.mair e.attrIndx := by
  rw [translate,translate,if_pos h.on,if_pos h.on',h.entry_eq]
  cases he : r.entry mem va with
  | none => simp
  | some e => simp [resolve]

theorem entry_of_region {high : Bool} {tsz : Nat} (mem : Memory) {va : Word}
    (hhigh : va.getLsbD 55 = high) (htsz : r.tsz high = tsz) (hva : InRegion tsz high va) :
    r.entry mem va = (lookup mem (BitVec.ofNat 64 (va.toNat % 2 ^ (64 - tsz)))
      (levelsBelow tsz) (r.base high)).filter Entry.accessed := by
  subst hhigh htsz
  rw [entry,if_pos hva]

end Regime

theorem lookup_below {mem : Memory} {va table : Word} {n : Nat} {e : Entry}
    (h : lookup mem va n table = some e) (he : e.desc &&& 3 = 3) : e.below = 0 := by
  induction n generalizing table with
  | zero =>
    unfold lookup at h
    obtain ⟨_,he⟩ := Option.ite_none_right_eq_some.mp h
    rw [← Option.some.inj he]
  | succ n ih =>
    unfold lookup at h
    by_cases h3 : mem table (index (n + 1) va) &&& 3 = 3
    · exact ih ((if_pos h3).symm.trans h)
    · obtain ⟨_,hblock⟩ := Option.ite_none_right_eq_some.mp ((if_neg h3).symm.trans h)
      rw [← Option.some.inj hblock] at he
      exact absurd he h3

theorem Regime.entry_below {r : Regime} {mem : Memory} {va : Word} {e : Entry}
    (h : r.entry mem va = some e) (he : e.desc &&& 3 = 3) : e.below = 0 := by
  unfold Regime.entry at h
  obtain ⟨_,hlookup⟩ := Option.ite_none_right_eq_some.mp h
  exact lookup_below (Option.filter_eq_some_iff.mp hlookup).1 he

section Pages
variable {va va' : Word} {mem : Memory}

theorem index_page (h : va >>> 12 = va' >>> 12) (n : Nat) : index n va = index n va' := by
  refine Fin.ext ?_
  simp only [index,BitVec.shiftRight_add,h]

theorem lookup_page (h : va >>> 12 = va' >>> 12) (n : Nat) (table : Word) :
    lookup mem va n table = lookup mem va' n table := by
  induction n generalizing table with
  | zero => simp only [lookup,index_page h]
  | succ n ih => simp only [lookup,index_page h,ih]

theorem page_toNat (w : Word) : (w >>> 12).toNat = w.toNat / 4096 := by
  rw [BitVec.toNat_ushiftRight,Nat.shiftRight_eq_div_pow]

theorem inRegion_page {tsz : Nat} (htsz : tsz ≤ 52) (h : va >>> 12 = va' >>> 12) (high : Bool) :
    (InRegion tsz high va ↔ InRegion tsz high va') ∧
      BitVec.ofNat 64 (va.toNat % 2 ^ (64 - tsz)) >>> 12 =
        (BitVec.ofNat 64 (va'.toNat % 2 ^ (64 - tsz)) >>> 12 : Word) := by
  have hdiv : va.toNat / 4096 = va'.toNat / 4096 := by rw [← page_toNat,h,page_toNat]
  have hpow : 2 ^ (64 - tsz) = 4096 * 2 ^ (52 - tsz) := by
    rw [show 64 - tsz = 12 + (52 - tsz) by omega,Nat.pow_add]
  have hmod : ∀ w : Word,
      (BitVec.ofNat 64 (w.toNat % 2 ^ (64 - tsz)) >>> 12).toNat =
        w.toNat / 4096 % 2 ^ (52 - tsz) := by
    intro w
    have hlt := Nat.lt_of_le_of_lt (Nat.mod_le w.toNat (2 ^ (64 - tsz))) w.isLt
    rw [page_toNat,BitVec.toNat_ofNat,Nat.mod_eq_of_lt hlt,hpow,Nat.mod_mul_right_div_self]
  refine ⟨?_,BitVec.eq_of_toNat_eq ?_⟩
  · unfold InRegion
    rw [hpow]
    split <;> omega
  · rw [hmod,hmod,hdiv]

namespace Regime
variable {r : Regime}

theorem entry_page (htsz : ∀ high, r.tsz high ≤ 52) (h : va >>> 12 = va' >>> 12) :
    r.entry mem va = r.entry mem va' := by
  have hbit : va.getLsbD 55 = va'.getLsbD 55 := by
    have := congrArg (·.getLsbD 43) h
    simpa only [BitVec.getLsbD_ushiftRight] using this
  obtain ⟨hin,hoff⟩ := inRegion_page (htsz (va'.getLsbD 55)) h (va'.getLsbD 55)
  simp only [entry,hbit,lookup_page hoff,hin]

end Regime

theorem low_getLsbD (n : Nat) {i : Nat} (hi : i < 64) :
    ((1 <<< n : Nat) - 1 : Word).getLsbD i = decide (i < n) := by
  have hcast : ((1 <<< n : Nat) : Word) = BitVec.ofNat 64 (2 ^ n) := by
    rw [Nat.one_shiftLeft]
    rfl
  rw [hcast]
  by_cases hn : n < 64
  · have hpow : 2 ^ n < 2 ^ 64 := Nat.pow_lt_pow_right (by decide) hn
    have hpos := Nat.two_pow_pos n
    have hones : (BitVec.ofNat 64 (2 ^ n) - 1 : Word).toNat = 2 ^ n - 1 := by
      have hone : (1 : Word).toNat = 1 := rfl
      rw [BitVec.toNat_sub,BitVec.toNat_ofNat,hone]
      omega
    rw [BitVec.getLsbD,hones,Nat.testBit_two_pow_sub_one]
  · have hdvd : 2 ^ 64 ∣ 2 ^ n := Nat.pow_dvd_pow 2 (Nat.le_of_not_lt hn)
    have hzero : BitVec.ofNat 64 (2 ^ n) = (0 : Word) := by
      apply BitVec.eq_of_toNat_eq
      rw [BitVec.toNat_ofNat]
      exact Nat.mod_eq_zero_of_dvd hdvd
    have hones : (0 - 1 : Word) = BitVec.allOnes 64 := by decide
    rw [hzero,hones,BitVec.getLsbD_allOnes,decide_eq_true hi,decide_eq_true (by omega)]

theorem resolve_getLsbD (mair va : Word) (e : Entry) {i : Nat} (hi : i < 64) :
    (resolve mair va e).pa.getLsbD i =
      if i < e.shift then va.getLsbD i else (e.desc &&& addrMask).getLsbD i := by
  simp only [resolve,BitVec.getLsbD_or,BitVec.getLsbD_and,BitVec.getLsbD_shiftLeft,
    BitVec.getLsbD_ushiftRight,low_getLsbD _ hi]
  by_cases h : i < e.shift
  · simp [h]
  · simp [h,hi,Nat.add_sub_cancel' (Nat.le_of_not_lt h)]

theorem resolve_page (h : va >>> 12 = va' >>> 12) (mair : Word) (e : Entry) :
    (resolve mair va e).pa >>> 12 = (resolve mair va' e).pa >>> 12 := by
  apply BitVec.eq_of_getLsbD_eq
  intro i hi
  have hbit := congrArg (·.getLsbD i) h
  simp only [BitVec.getLsbD_ushiftRight] at hbit ⊢
  by_cases h64 : 12 + i < 64
  · rw [resolve_getLsbD mair va e h64,resolve_getLsbD mair va' e h64,hbit]
  · rw [BitVec.getLsbD_of_ge _ _ (Nat.le_of_not_lt h64),
      BitVec.getLsbD_of_ge _ _ (Nat.le_of_not_lt h64)]

theorem resolve_offset {mair va : Word} (e : Entry) {i : Nat} (hi : i < 12) :
    (resolve mair va e).pa.getLsbD i = va.getLsbD i := by
  have hshift : i < e.shift := Nat.lt_of_lt_of_le hi (Nat.le_add_right 12 _)
  rw [resolve_getLsbD mair va e (by omega),if_pos hshift]

def inPage (va offset : Word) : Word := va >>> 12 <<< 12 ||| offset &&& 0xFFF

theorem inPage_getLsbD (va offset : Word) {i : Nat} (hi : i < 64) :
    (inPage va offset).getLsbD i = if i < 12 then offset.getLsbD i else va.getLsbD i := by
  have hmask : (0xFFF : Word) = (BitVec.allOnes 12).setWidth 64 := by decide
  simp only [inPage,hmask,BitVec.getLsbD_or,BitVec.getLsbD_and,BitVec.getLsbD_shiftLeft,
    BitVec.getLsbD_ushiftRight,BitVec.getLsbD_setWidth,BitVec.getLsbD_allOnes]
  by_cases h : i < 12
  · simp [h,hi]
  · simp [h,hi,Nat.add_sub_cancel' (Nat.le_of_not_lt h)]

theorem inPage_page (va offset : Word) : inPage va offset >>> 12 = va >>> 12 := by
  apply BitVec.eq_of_getLsbD_eq
  intro i hi
  simp only [BitVec.getLsbD_ushiftRight]
  by_cases h64 : 12 + i < 64
  · rw [inPage_getLsbD va offset h64,if_neg (by omega)]
  · rw [BitVec.getLsbD_of_ge _ _ (Nat.le_of_not_lt h64),
      BitVec.getLsbD_of_ge _ _ (Nat.le_of_not_lt h64)]

namespace Regime
variable {r : Regime} {el0 : Bool} {pa pa' : Word}

theorem read_page (htsz : ∀ high, r.tsz high ≤ 52) (h : va >>> 12 = va' >>> 12)
    (hpa : r.read mem el0 va = some pa) :
    ∃ pa', r.read mem el0 va' = some pa' ∧ pa' >>> 12 = pa >>> 12 ∧
      ∀ i < 12, pa'.getLsbD i = va'.getLsbD i := by
  unfold read at hpa ⊢
  by_cases hon : r.mmuOn = true
  · rw [if_pos hon] at hpa ⊢
    rw [entry_page htsz h] at hpa
    obtain ⟨e,he,rfl⟩ := Option.map_eq_some_iff.mp hpa
    exact ⟨_,by rw [he,Option.map_some],resolve_page h.symm r.mair e,
      fun i hi => resolve_offset e hi⟩
  · rw [if_neg hon] at hpa ⊢
    obtain rfl := Option.some.inj hpa
    exact ⟨va',rfl,h.symm,fun _ _ => rfl⟩

theorem El0Readable.page (htsz : ∀ high, r.tsz high ≤ 52) (h : r.El0Readable mem pa)
    (hpage : pa' >>> 12 = pa >>> 12) : r.El0Readable mem pa' := by
  obtain ⟨va,hva⟩ := h
  obtain ⟨q,hq,hqpage,hqlow⟩ := read_page htsz (inPage_page va pa').symm hva
  refine ⟨inPage va pa',hq.trans (congrArg some ?_)⟩
  apply BitVec.eq_of_getLsbD_eq
  intro i hi
  by_cases hlow : i < 12
  · rw [hqlow i hlow,inPage_getLsbD va pa' hi,if_pos hlow]
  · have hbit := congrArg (·.getLsbD (i - 12)) (hqpage.trans hpage.symm)
    simpa only [BitVec.getLsbD_ushiftRight,Nat.add_sub_cancel' (Nat.le_of_not_lt hlow)] using hbit

end Regime

end Pages

section Rights

inductive Access where
  | load | store | fetch
  deriving DecidableEq

/-- What AP, PXN and UXN in a descriptor allow, without PAN. What EL0 can write EL1 does not
execute, and with WXN nothing is executed that can be written. -/
def allows (wxn el0 : Bool) (d : Word) : Access → Bool
  | .load => !el0 || d.getLsbD 6
  | .store => (!el0 || d.getLsbD 6) && !d.getLsbD 7
  | .fetch =>
    if el0 then !d.getLsbD 54 && !(wxn && d.getLsbD 6 && !d.getLsbD 7)
    else !d.getLsbD 53 && !(d.getLsbD 6 && !d.getLsbD 7) && !(wxn && !d.getLsbD 7)

namespace Regime

def wxn (r : Regime) : Bool := r.sctlr.getLsbD 19

/-- The location that EL1 or EL0 loads, stores to or executes. -/
def access (r : Regime) (mem : Memory) (el0 : Bool) (a : Access) (va : Word) : Option Word :=
  if r.mmuOn then
    ((r.entry mem va).filter fun e => allows r.wxn el0 e.desc a).map fun e =>
      (resolve r.mair va e).pa
  else some va

end Regime

end Rights

end Stage1

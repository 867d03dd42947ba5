import Arm64Baremetal.El3Mmu
import Arm64Baremetal.PageTree

/-!
What map_block_range of el3_mmu.c maps. EL3 translates 32-bit addresses from level 1; a block
is a level 2 descriptor of 2 MB.
-/

set_option autoImplicit false

namespace Arm64

/-- What EL3 translates `va` to. The access flag is one of the flags. -/
def el3Translate (A : TableArea Unit) (mair : Word) (m : Tables) (va : Word) :
    Option Stage1.Translation :=
  if va.toNat < 2 ^ 32 then (Stage1.lookup m.mem va 2 (A.root ())).map (Stage1.resolve mair va)
  else none

/-- `addr` in turn `i` of map_block_range: the product of the two ints wraps. -/
def blockAddr (start : Word) (i : Nat) : Word :=
  start + (BitVec.ofNat 32 i * 0x200000).signExtend 64

def blockDesc (start flags : Word) (i : Nat) : Word := blockAddr start i ||| flags ||| pteTypeBlock

def blockIndex (start : Word) (i : Nat) : Fin 512 := tlbL2Index (blockAddr start i)

/-- From `start` rounded down to 2 MB up to the end of the last block. -/
def InBlocks (start size va : Word) : Prop :=
  start.toNat / 2 ^ 21 ≤ va.toNat / 2 ^ 21 ∧ va.toNat / 2 ^ 21 < start.toNat / 2 ^ 21 + size.toNat

/-- A block descriptor, whose bits below 2 MB are those of the flags. -/
def IsBlock (flags d : Word) : Prop :=
  d &&& 3 = pteTypeBlock ∧ d &&& 0x1FFFFF = (flags ||| pteTypeBlock) &&& 0x1FFFFF

/-- The call maps the range to itself with the flags given, and does nothing else. -/
structure IdentityMapped (A : TableArea Unit) (start size flags : Word) (m : Tables) : Prop where
  inside : ∀ mair va, InBlocks start size va →
    el3Translate A mair (mapBlockRange A start size flags m) va =
      some ⟨va,flags &&& ~~~(Stage1.addrMask ||| 0x1F),Stage1.attr mair (flags >>> 2 &&& 7).toNat⟩
  outside : ∀ mair va, ¬ InBlocks start size va →
    el3Translate A mair (mapBlockRange A start size flags m) va = el3Translate A mair m va
  blocks : ∀ i < size.toNat, IsBlock flags (blockDesc start flags i)

def blockMask : Word := 0x0000FFFFFFE00000

/-- The range is in one entry of level 1, and what is or-ed to a block's address is in it. -/
structure BlocksFit (start size flags : Word) : Prop where
  aligned : (start ||| flags ||| pteTypeBlock) &&& 0x1FFFFF = (flags ||| pteTypeBlock) &&& 0x1FFFFF
  block : flags &&& 2 = 0
  oneEntry : start.toNat / 2 ^ 30 = (start.toNat / 2 ^ 21 + size.toNat - 1) / 512
  address : ∀ i < size.toNat,
    flags &&& blockMask &&& ~~~(start + BitVec.ofNat 64 (i * 0x200000)) = 0

/-- The tables of EL3: level 1 points to tables of the pool, each of which holds blocks. -/
structure El3Tables (A : TableArea Unit) (m : Tables) : Prop where
  root : ∀ i, m.mem (A.root ()) i &&& 1 = 0 ∨
    ∃ a : Fin A.slots, a.val < m.used ∧ m.mem (A.root ()) i = A.entry a
  inj : ∀ i j, m.mem (A.root ()) i &&& 1 ≠ 0 → m.mem (A.root ()) i = m.mem (A.root ()) j → i = j
  blocks : ∀ a : Fin A.slots, a.val < m.used → ∀ j, m.mem (A.table a) j &&& 3 ≠ 3

def OnlyIdentity (A : TableArea Unit) (m : Tables) : Prop :=
  ∀ mair va t, el3Translate A mair m va = some t → t.pa = va

section Numbers
variable {start flags va : Word} {i : Nat}

theorem tlbL1Index_val (x : Word) : (tlbL1Index x).val = x.toNat / 2 ^ 30 % 512 := by
  simp only [tlbL1Index,BitVec.toNat_and,BitVec.toNat_ushiftRight,Nat.shiftRight_eq_div_pow]
  exact Nat.and_two_pow_sub_one_eq_mod _ 9

theorem tlbL2Index_val (x : Word) : (tlbL2Index x).val = x.toNat / 2 ^ 21 % 512 := by
  simp only [tlbL2Index,BitVec.toNat_and,BitVec.toNat_ushiftRight,Nat.shiftRight_eq_div_pow]
  exact Nat.and_two_pow_sub_one_eq_mod _ 9

theorem and_block_toNat (x : Word) : (x &&& 0x1FFFFF).toNat = x.toNat % 2 ^ 21 := by
  rw [BitVec.toNat_and]
  exact Nat.and_two_pow_sub_one_eq_mod _ 21

theorem blockMask_getLsbD :
    ∀ i < 64, blockMask.getLsbD i = (decide (21 ≤ i) && decide (i < 48)) := by
  decide

theorem blockMask_toNat (x : Word) :
    (x &&& blockMask).toNat = x.toNat % 2 ^ 48 / 2 ^ 21 * 2 ^ 21 := by
  have hsplit : x &&& blockMask = (x.setWidth 48).setWidth 64 >>> 21 <<< 21 := by
    apply BitVec.eq_of_getLsbD_eq
    intro i hi
    simp only [BitVec.getLsbD_and,blockMask_getLsbD i hi,BitVec.getLsbD_shiftLeft,
      BitVec.getLsbD_ushiftRight,BitVec.getLsbD_setWidth]
    grind
  rw [hsplit,BitVec.toNat_shiftLeft,BitVec.toNat_ushiftRight,BitVec.toNat_setWidth,
    BitVec.toNat_setWidth,Nat.shiftLeft_eq,Nat.shiftRight_eq_div_pow]
  omega

theorem blockAddr_toNat (hi : start.toNat / 2 ^ 21 + i < 2048) :
    (blockAddr start i).toNat =
      if i < 1024 then start.toNat + i * 2 ^ 21
      else 2 ^ 64 - 2 ^ 32 + start.toNat + i * 2 ^ 21 := by
  have hsize : (0x200000 : BitVec 32).toNat = 2 ^ 21 := rfl
  have hprod : (BitVec.ofNat 32 i * 0x200000).toNat = i * 2 ^ 21 := by
    rw [BitVec.toNat_mul,BitVec.toNat_ofNat,hsize]
    omega
  have hmsb : (BitVec.ofNat 32 i * 0x200000).msb = decide (1024 ≤ i) := by
    rw [BitVec.msb_eq_decide,hprod]
    exact decide_eq_decide.mpr (by omega)
  rw [blockAddr,BitVec.toNat_add,BitVec.toNat_signExtend,hmsb,BitVec.toNat_setWidth,hprod]
  by_cases h : i < 1024
  · rw [if_pos h,if_neg (by simpa using h)]
    omega
  · rw [if_neg h,if_pos (by simpa using h)]
    omega

theorem blockIndex_val (hi : start.toNat / 2 ^ 21 + i < 2048) :
    (blockIndex start i).val = (start.toNat / 2 ^ 21 + i) % 512 := by
  rw [blockIndex,tlbL2Index_val,blockAddr_toNat hi]
  split <;> omega

/-- In the first gigabyte of a range the product does not wrap. -/
theorem blockAddr_eq (hi : start.toNat / 2 ^ 21 + i < 2048) (h : i < 1024) :
    blockAddr start i = start + BitVec.ofNat 64 (i * 0x200000) := by
  apply BitVec.eq_of_toNat_eq
  rw [blockAddr_toNat hi,if_pos h,BitVec.toNat_add,BitVec.toNat_ofNat]
  omega

theorem blockAddr_low (hi : start.toNat / 2 ^ 21 + i < 2048) :
    blockAddr start i &&& 0x1FFFFF = start &&& 0x1FFFFF := by
  apply BitVec.eq_of_toNat_eq
  rw [and_block_toNat,and_block_toNat,blockAddr_toNat hi]
  split <;> omega

theorem low_block_getLsbD : ∀ i < 64, (0x1FFFFF : Word).getLsbD i = decide (i < 21) := by decide

theorem getLsbD_of_lt {w : Word} {n j : Nat} (hw : w.toNat < 2 ^ n) (hj : n ≤ j) :
    w.getLsbD j = false :=
  Nat.testBit_lt_two_pow (Nat.lt_of_lt_of_le hw (Nat.pow_le_pow_right (by decide) hj))

theorem resolve_block_iff (mair d : Word) (hva : va.toNat < 2 ^ 48) :
    (Stage1.resolve mair va ⟨d,1⟩).pa = va ↔ d &&& blockMask = va &&& blockMask := by
  have haddr : ∀ i < 64, Stage1.addrMask.getLsbD i = (decide (12 ≤ i) && decide (i < 48)) := by
    decide
  have hshift : Stage1.Entry.shift ⟨d,1⟩ = 21 := rfl
  constructor
  · intro h
    apply BitVec.eq_of_getLsbD_eq
    intro i hi
    have hbit := congrArg (·.getLsbD i) h
    simp only [Stage1.resolve_getLsbD mair va _ hi,hshift,BitVec.getLsbD_and,haddr i hi] at hbit
    simp only [BitVec.getLsbD_and,blockMask_getLsbD i hi]
    grind
  · intro h
    apply BitVec.eq_of_getLsbD_eq
    intro i hi
    have hbit := congrArg (·.getLsbD i) h
    have hhigh := @getLsbD_of_lt va 48 i hva
    simp only [BitVec.getLsbD_and,blockMask_getLsbD i hi] at hbit
    simp only [Stage1.resolve_getLsbD mair va _ hi,hshift,BitVec.getLsbD_and,haddr i hi]
    grind

theorem resolve_flags {d : Word} (mair : Word)
    (hlow : d &&& 0x1FFFFF = (flags ||| pteTypeBlock) &&& 0x1FFFFF)
    (hhigh : ∀ i, 48 ≤ i → d.getLsbD i = flags.getLsbD i) :
    (Stage1.resolve mair va ⟨d,1⟩).perms = flags &&& ~~~(Stage1.addrMask ||| 0x1F) ∧
      (Stage1.resolve mair va ⟨d,1⟩).memType = Stage1.attr mair (flags >>> 2 &&& 7).toNat := by
  have hmask : ∀ i < 64, (~~~(Stage1.addrMask ||| 0x1F) : Word).getLsbD i =
      (decide (5 ≤ i) && (decide (i < 12) || decide (48 ≤ i))) := by decide
  have htype : ∀ i < 64, pteTypeBlock.getLsbD i = decide (i = 0) := by decide
  have hbit : ∀ i < 21, d.getLsbD i = (flags.getLsbD i || decide (i = 0)) := by
    intro i hi
    have := congrArg (·.getLsbD i) hlow
    simpa only [BitVec.getLsbD_and,BitVec.getLsbD_or,low_block_getLsbD i (by omega),
      htype i (by omega),decide_eq_true hi,Bool.and_true] using this
  constructor
  · apply BitVec.eq_of_getLsbD_eq
    intro i hi
    simp only [Stage1.resolve,BitVec.getLsbD_and,hmask i hi]
    grind
  · have hindex : d >>> 2 &&& (7 : Word) = flags >>> 2 &&& (7 : Word) := by
      have hseven : ∀ i < 64, (7 : Word).getLsbD i = decide (i < 3) := by decide
      apply BitVec.eq_of_getLsbD_eq
      intro i hi
      simp only [BitVec.getLsbD_and,BitVec.getLsbD_ushiftRight,hseven i hi]
      grind
    simp only [Stage1.resolve,Stage1.Entry.attrIndx,hindex]

theorem zero_getLsbD (i : Nat) : (0 : Word).getLsbD i = false := BitVec.getLsbD_zero

theorem isBlock_iff (hi : start.toNat / 2 ^ 21 + i < 2048) :
    IsBlock flags (blockDesc start flags i) ↔
      (start ||| flags ||| pteTypeBlock) &&& 0x1FFFFF = (flags ||| pteTypeBlock) &&& 0x1FFFFF ∧
        flags &&& 2 = 0 := by
  have hlow : blockDesc start flags i &&& 0x1FFFFF =
      (start ||| flags ||| pteTypeBlock) &&& 0x1FFFFF := by
    simp only [blockDesc,BitVec.and_or_distrib_right,blockAddr_low hi]
  have htype : (flags ||| pteTypeBlock) &&& 3 = pteTypeBlock ↔ flags &&& 2 = 0 := by
    have hthree : ∀ i < 64, (3 : Word).getLsbD i = decide (i < 2) := by decide
    have htwo : ∀ i < 64, (2 : Word).getLsbD i = decide (i = 1) := by decide
    have hone : ∀ i < 64, pteTypeBlock.getLsbD i = decide (i = 0) := by decide
    constructor
    · intro h
      have hbit := congrArg (·.getLsbD 1) h
      apply BitVec.eq_of_getLsbD_eq
      intro i hi
      simp only [BitVec.getLsbD_and,htwo i hi,zero_getLsbD]
      simp only [BitVec.getLsbD_and,BitVec.getLsbD_or,hthree 1 (by omega),hone 1 (by omega)] at hbit
      grind
    · intro h
      have hbit := congrArg (·.getLsbD 1) h
      apply BitVec.eq_of_getLsbD_eq
      intro i hi
      simp only [BitVec.getLsbD_and,htwo 1 (by omega),zero_getLsbD] at hbit
      simp only [BitVec.getLsbD_and,BitVec.getLsbD_or,hthree i hi,hone i hi]
      grind
  have hthree : ∀ w : Word, w &&& 0x1FFFFF &&& 3 = w &&& 3 := fun w => BitVec.and_assoc w _ _
  rw [IsBlock,hlow,← htype]
  constructor
  · rintro ⟨h3,hl⟩
    rw [← hlow] at hl
    rw [← hthree,hl,hthree] at h3
    exact ⟨hlow ▸ hl,h3⟩
  · rintro ⟨hl,h3⟩
    refine ⟨?_,hl⟩
    rw [← hthree,hlow,hl,hthree,h3]

theorem blockDesc_mask_iff :
    blockDesc start flags i &&& blockMask = blockAddr start i &&& blockMask ↔
    flags &&& blockMask &&& ~~~blockAddr start i = 0 := by
  have hone : ∀ i < 64, pteTypeBlock.getLsbD i = decide (i = 0) := by decide
  constructor
  · intro h
    apply BitVec.eq_of_getLsbD_eq
    intro j hj
    have hbit := congrArg (·.getLsbD j) h
    simp only [blockDesc,BitVec.getLsbD_and,BitVec.getLsbD_or] at hbit
    simp only [BitVec.getLsbD_and,BitVec.getLsbD_not,zero_getLsbD]
    grind
  · intro h
    apply BitVec.eq_of_getLsbD_eq
    intro j hj
    have hbit := congrArg (·.getLsbD j) h
    simp only [BitVec.getLsbD_and,BitVec.getLsbD_not,zero_getLsbD,
      blockMask_getLsbD j hj,decide_eq_true hj] at hbit
    simp only [blockDesc,BitVec.getLsbD_and,BitVec.getLsbD_or,hone j hj,blockMask_getLsbD j hj]
    grind

theorem blockAddr_mask (hi : start.toNat / 2 ^ 21 + i < 2048) (h : i < 1024)
    (hva : va.toNat / 2 ^ 21 = start.toNat / 2 ^ 21 + i) :
    blockAddr start i &&& blockMask = va &&& blockMask := by
  apply BitVec.eq_of_toNat_eq
  rw [blockMask_toNat,blockMask_toNat,blockAddr_toNat hi,if_pos h]
  omega

end Numbers

section Walk
variable {A : TableArea Unit} {m : Tables} {va : Word} {k : Fin 512} {a : Fin A.slots}

theorem El3Tables.lookup_none (he : m.mem (A.root ()) (tlbL1Index va) &&& 1 = 0) :
    Stage1.lookup m.mem va 2 (A.root ()) = none := by
  obtain ⟨h3,h1⟩ := type_of_invalid he
  have hindex : Stage1.index 2 va = tlbL1Index va := rfl
  rw [Stage1.lookup,hindex,if_neg h3,if_neg fun h => h1 h.1]

theorem El3Tables.lookup_table (he : m.mem (A.root ()) (tlbL1Index va) = A.entry a)
    (hd : m.mem (A.table a) (tlbL2Index va) &&& 3 ≠ 3) :
    Stage1.lookup m.mem va 2 (A.root ()) =
      if m.mem (A.table a) (tlbL2Index va) &&& 3 = 1 then
        some ⟨m.mem (A.table a) (tlbL2Index va),1⟩
      else none := by
  have hroot : Stage1.index 2 va = tlbL1Index va := rfl
  have hblock : Stage1.index 1 va = tlbL2Index va := rfl
  have haddr : A.entry a &&& Stage1.addrMask = A.table a := A.descAddr_entry a
  rw [Stage1.lookup,hroot,he,if_pos (A.entry_type a),haddr,Stage1.lookup,hblock,
    if_neg hd]
  exact if_congr (and_iff_left (by decide)) rfl rfl

theorem el3Translate_congr {m' : Tables} (h : Stage1.lookup m'.mem va 2 (A.root ()) =
    Stage1.lookup m.mem va 2 (A.root ())) (mair : Word) :
    el3Translate A mair m' va = el3Translate A mair m va := by
  rw [el3Translate,el3Translate,h]

theorem ensureTable_new (he : m.mem (A.root ()) k &&& 1 = 0) (hu : m.used < A.slots) :
    let m' := ensureTable A 0 (A.root ()) k m
    m'.used = m.used + 1 ∧
      (∀ i, m'.mem (A.root ()) i = if i = k then A.entry ⟨m.used,hu⟩ else m.mem (A.root ()) i) ∧
      ∀ a, m'.mem (A.table a) = if a = ⟨m.used,hu⟩ then fun _ => 0 else m.mem (A.table a) := by
  intro m'
  have hm' : m' = Tables.put (A.root ()) k (A.entry ⟨m.used,hu⟩)
      { m with mem := Function.update m.mem (A.table ⟨m.used,hu⟩) fun _ => 0,
               used := m.used + 1 } := by
    have hadd : ∀ w : Word, w + 0 = w := BitVec.add_zero
    have hsub : ∀ w : Word, w - 0 = w := BitVec.sub_zero
    simp only [m',ensureTable,Tables.load_zero,if_pos he,allocateTable,if_neg (Nat.not_le.mpr hu),
      hadd,hsub,Tables.store_zero]
    rfl
  rw [hm']
  refine ⟨rfl,fun i => ?_,fun a => funext fun j => ?_⟩
  · rw [Tables.put_mem]
    simp only [true_and,Function.update_of_ne (A.root_ne_table () _)]
  · rw [Tables.put_mem,if_neg fun h => A.root_ne_table () a h.1.symm]
    by_cases ha : a = ⟨m.used,hu⟩
    · rw [ha,if_pos rfl]
      simp only [Function.update_self]
    · rw [if_neg ha]
      simp only [Function.update_of_ne fun h => ha (A.table_inj h)]

theorem El3Tables.ensure_new (h : El3Tables A m) (he : m.mem (A.root ()) k &&& 1 = 0)
    (hu : m.used < A.slots) : El3Tables A (ensureTable A 0 (A.root ()) k m) := by
  obtain ⟨hused,hroot,htable⟩ := ensureTable_new he hu
  refine ⟨fun i => ?_,fun i j hi hij => ?_,fun a ha j => ?_⟩
  · rw [hroot,hused]
    by_cases hi : i = k
    · exact .inr ⟨⟨m.used,hu⟩,Nat.lt_succ_self _,if_pos hi⟩
    · rw [if_neg hi]
      obtain h0 | ⟨a,ha,hea⟩ := h.root i
      · exact .inl h0
      · exact .inr ⟨a,Nat.lt_succ_of_lt ha,hea⟩
  · -- the new entry differs from those of the tables in use
    have hnew : ∀ l, m.mem (A.root ()) l ≠ A.entry ⟨m.used,hu⟩ := by
      intro l hl
      obtain h0 | ⟨a,ha,hea⟩ := h.root l
      · rw [hl,A.entry_valid] at h0
        exact absurd h0 (by decide)
      · rw [hl] at hea
        have hval := congrArg (· &&& ~~~0xFFF) hea
        simp only [A.entry_mask] at hval
        exact absurd (congrArg Fin.val (A.table_inj hval)) (Nat.ne_of_gt ha)
    rw [hroot] at hi
    rw [hroot,hroot] at hij
    by_cases hik : i = k
    · by_cases hjk : j = k
      · exact hik.trans hjk.symm
      · rw [if_pos hik,if_neg hjk] at hij
        exact absurd hij.symm (hnew j)
    · rw [if_neg hik] at hi hij
      by_cases hjk : j = k
      · rw [if_pos hjk] at hij
        exact absurd hij (hnew i)
      · rw [if_neg hjk] at hij
        exact h.inj i j hi hij
  · rw [htable]
    by_cases hau : a = ⟨m.used,hu⟩
    · rw [if_pos hau]
      decide
    · rw [if_neg hau]
      rw [hused] at ha
      have hne : a.val ≠ m.used := fun hv => hau (Fin.ext hv)
      exact h.blocks a (by omega) j

theorem El3Tables.ensure (h : El3Tables A m)
    (havail : m.mem (A.root ()) k &&& 1 ≠ 0 ∨ m.used < A.slots) :
    let m' := ensureTable A 0 (A.root ()) k m
    El3Tables A m' ∧ (∃ a : Fin A.slots, a.val < m'.used ∧ m'.mem (A.root ()) k = A.entry a) ∧
      ∀ mair va, el3Translate A mair m' va = el3Translate A mair m va := by
  intro m'
  by_cases he : m.mem (A.root ()) k &&& 1 = 0
  · have hu := havail.resolve_left (not_not.mpr he)
    have hok : El3Tables A m' := h.ensure_new he hu
    obtain ⟨hused,hroot,htable⟩ := ensureTable_new he hu
    have hlt : m.used < m'.used := by rw [hused]; exact Nat.lt_succ_self _
    have hk : m'.mem (A.root ()) k = A.entry ⟨m.used,hu⟩ := (hroot k).trans (if_pos rfl)
    refine ⟨hok,⟨_,hlt,hk⟩,fun mair va => el3Translate_congr ?_ mair⟩
    by_cases hva : tlbL1Index va = k
    · -- the new table is empty
      rw [← hva] at he hk
      rw [El3Tables.lookup_none he,El3Tables.lookup_table hk (hok.blocks _ hlt _),htable,if_pos rfl]
      rfl
    · have hsame := (hroot (tlbL1Index va)).trans (if_neg hva)
      obtain h0 | ⟨a,ha,hea⟩ := h.root (tlbL1Index va)
      · rw [El3Tables.lookup_none h0,El3Tables.lookup_none (hsame.symm ▸ h0)]
      · have hne : a ≠ ⟨m.used,hu⟩ := fun hau => absurd (congrArg Fin.val hau) (Nat.ne_of_lt ha)
        have htab := (htable a).trans (if_neg hne)
        rw [El3Tables.lookup_table (hsame.trans hea) (htab ▸ h.blocks a ha _),
          El3Tables.lookup_table hea (h.blocks a ha _),htab]
  · have hm' : m' = m := by
      simp only [m',ensureTable,Tables.load_zero,if_neg he]
    rw [hm']
    exact ⟨h,(h.root k).resolve_left he,fun _ _ => rfl⟩

theorem foldl_put_mem (p : Word) (idx : Nat → Fin 512) (val : Nat → Word) (n : Nat) (m : Tables) :
    let m' := (List.range n).foldl (fun m i => m.put p (idx i) (val i)) m
    m'.used = m.used ∧ (∀ q, q ≠ p → m'.mem q = m.mem q) ∧
      (∀ j, (∀ i < n, idx i ≠ j) → m'.mem p j = m.mem p j) ∧
      ∀ i < n, (∀ l, i < l → l < n → idx l ≠ idx i) → m'.mem p (idx i) = val i := by
  induction n with
  | zero => exact ⟨rfl,fun _ _ => rfl,fun _ _ => rfl,fun _ hi => absurd hi (Nat.not_lt_zero _)⟩
  | succ n ih =>
    obtain ⟨hused,hother,hkept,hlast⟩ := ih
    simp only [List.range_succ,List.foldl_append,List.foldl_cons,List.foldl_nil]
    refine ⟨hused,fun q hq => ?_,fun j hj => ?_,fun i hi hl => ?_⟩
    · exact (Function.update_of_ne hq _ _).trans (hother q hq)
    · rw [Tables.put_mem,if_neg fun h => hj n (Nat.lt_succ_self n) h.2.symm]
      exact hkept j fun i hi => hj i (Nat.lt_succ_of_lt hi)
    · rw [Tables.put_mem]
      obtain hlt | rfl := Nat.lt_succ_iff_lt_or_eq.mp hi
      · rw [if_neg fun h => hl n hlt (Nat.lt_succ_self n) h.2.symm]
        exact hlast i hlt fun l hil hln => hl l hil (Nat.lt_succ_of_lt hln)
      · exact if_pos ⟨rfl,rfl⟩

end Walk

section Range
variable {A : TableArea Unit} {m : Tables} {start size flags va : Word} {i : Nat}

/-- What a call leaves of level 1, and of one table of level 2. -/
theorem mapBlockRange_stores (h : El3Tables A m)
    (havail : m.mem (A.root ()) (tlbL1Index start) &&& 1 ≠ 0 ∨ m.used < A.slots) :
    ∃ a m₁, El3Tables A m₁ ∧ a.val < m₁.used ∧
      m₁.mem (A.root ()) (tlbL1Index start) = A.entry a ∧
      (∀ mair va, el3Translate A mair m₁ va = el3Translate A mair m va) ∧
      mapBlockRange A start size flags m = (List.range size.toNat).foldl
        (fun m i => m.put (A.table a) (blockIndex start i) (blockDesc start flags i)) m₁ := by
  obtain ⟨hok,⟨a,ha,hea⟩,hsame⟩ := h.ensure havail
  refine ⟨a,_,hok,ha,hea,hsame,?_⟩
  have hnext : nextTable 0 (A.root ()) (tlbL1Index start)
      (ensureTable A 0 (A.root ()) (tlbL1Index start) m) = A.table a := by
    rw [nextTable,Tables.load_zero,hea,A.entry_mask]
    exact BitVec.add_zero _
  simp only [mapBlockRange,hnext,Tables.store_zero]
  rfl

theorem mapBlockRange_other (h : El3Tables A m)
    (havail : m.mem (A.root ()) (tlbL1Index start) &&& 1 ≠ 0 ∨ m.used < A.slots)
    (hva : tlbL1Index va = tlbL1Index start →
      ∀ i < size.toNat, blockIndex start i ≠ tlbL2Index va) (mair : Word) :
    el3Translate A mair (mapBlockRange A start size flags m) va = el3Translate A mair m va := by
  obtain ⟨a,m₁,hok,ha,hea,hsame,heq⟩ := @mapBlockRange_stores A m start size flags h havail
  obtain ⟨_,hother,hkept,_⟩ := foldl_put_mem (A.table a) (blockIndex start)
    (blockDesc start flags) size.toNat m₁
  rw [← heq] at hother hkept
  rw [← hsame]
  refine el3Translate_congr ?_ mair
  have hroot := congrFun (hother _ (A.root_ne_table () a)) (tlbL1Index va)
  obtain h0 | ⟨b,hb,heb⟩ := hok.root (tlbL1Index va)
  · rw [El3Tables.lookup_none h0,El3Tables.lookup_none (hroot.symm ▸ h0)]
  · have htab : (mapBlockRange A start size flags m).mem (A.table b) (tlbL2Index va) =
        m₁.mem (A.table b) (tlbL2Index va) := by
      by_cases hba : b = a
      · subst hba
        have hvalid : m₁.mem (A.root ()) (tlbL1Index va) &&& 1 ≠ 0 := by
          rw [heb,A.entry_valid]
          decide
        exact hkept _ (hva (hok.inj _ _ hvalid (heb.trans hea.symm)))
      · exact congrFun (hother _ fun ht => hba (A.table_inj ht)) _
    have hd := hok.blocks b hb (tlbL2Index va)
    rw [El3Tables.lookup_table (hroot.trans heb) (htab ▸ hd),El3Tables.lookup_table heb hd,htab]

theorem mapBlockRange_block (h : El3Tables A m)
    (havail : m.mem (A.root ()) (tlbL1Index start) &&& 1 ≠ 0 ∨ m.used < A.slots)
    (hva : va.toNat < 2 ^ 32) (hk : tlbL1Index va = tlbL1Index start) (hi : i < size.toNat)
    (hidx : blockIndex start i = tlbL2Index va)
    (hlast : ∀ l, i < l → l < size.toNat → blockIndex start l ≠ blockIndex start i)
    (hblock : blockDesc start flags i &&& 3 = 1) (mair : Word) :
    el3Translate A mair (mapBlockRange A start size flags m) va =
      some (Stage1.resolve mair va ⟨blockDesc start flags i,1⟩) := by
  obtain ⟨a,m₁,_,_,hea,_,heq⟩ := @mapBlockRange_stores A m start size flags h havail
  obtain ⟨_,hother,_,hstored⟩ := foldl_put_mem (A.table a) (blockIndex start)
    (blockDesc start flags) size.toNat m₁
  rw [← heq] at hother hstored
  have hroot := (congrFun (hother _ (A.root_ne_table () a)) (tlbL1Index start)).trans hea
  have hd := hstored i hi hlast
  rw [← hk] at hroot
  rw [hidx] at hd
  have h3 : blockDesc start flags i &&& 3 ≠ 3 := by
    rw [hblock]
    decide
  rw [el3Translate,if_pos hva,El3Tables.lookup_table hroot (hd.symm ▸ h3),hd,if_pos hblock,
    Option.map_some]

theorem InBlocks.lt (h : InBlocks start size va)
    (hbelow : start.toNat / 2 ^ 21 + size.toNat ≤ 2048) : va.toNat < 2 ^ 32 := by
  have := h.2
  omega

theorem block_own (hbelow : start.toNat / 2 ^ 21 + size.toNat ≤ 2048)
    (hone : start.toNat / 2 ^ 30 = (start.toNat / 2 ^ 21 + size.toNat - 1) / 512)
    (hi : i < size.toNat) (hva : va.toNat / 2 ^ 21 = start.toNat / 2 ^ 21 + i) :
    tlbL1Index va = tlbL1Index start ∧ blockIndex start i = tlbL2Index va ∧
      (∀ l, i < l → l < size.toNat → blockIndex start l ≠ blockIndex start i) ∧
      blockAddr start i &&& blockMask = va &&& blockMask := by
  refine ⟨Fin.ext ?_,Fin.ext ?_,fun l hil hl he => ?_,blockAddr_mask (by omega) (by omega) hva⟩
  · rw [tlbL1Index_val,tlbL1Index_val]
    omega
  · rw [blockIndex_val (by omega),tlbL2Index_val,hva]
  · have hval := congrArg Fin.val he
    rw [blockIndex_val (by omega),blockIndex_val (by omega)] at hval
    omega

theorem BlocksFit.identity (h : El3Tables A m) (hfit : BlocksFit start size flags)
    (hbelow : start.toNat / 2 ^ 21 + size.toNat ≤ 2048)
    (havail : m.mem (A.root ()) (tlbL1Index start) &&& 1 ≠ 0 ∨ m.used < A.slots) :
    IdentityMapped A start size flags m := by
  have hone := hfit.oneEntry
  have hblocks : ∀ i < size.toNat, IsBlock flags (blockDesc start flags i) := fun i hi =>
    (isBlock_iff (by omega)).mpr ⟨hfit.aligned,hfit.block⟩
  refine ⟨fun mair va hva => ?_,fun mair va hva => ?_,hblocks⟩
  · have hva32 := hva.lt hbelow
    obtain ⟨hfrom,hto⟩ := hva
    obtain ⟨i,hi⟩ := Nat.exists_eq_add_of_le hfrom
    have hin : i < size.toNat := by omega
    obtain ⟨hk,hidx,hlast,hmask⟩ := block_own hbelow hone hin hi
    have hblock := hblocks i hin
    rw [mapBlockRange_block h havail hva32 hk hin hidx hlast hblock.1]
    have haddr : blockDesc start flags i &&& blockMask = va &&& blockMask := by
      rw [← hmask]
      refine blockDesc_mask_iff.mpr ?_
      rw [blockAddr_eq (by omega) (by omega)]
      exact hfit.address i hin
    have hpa := (resolve_block_iff mair (blockDesc start flags i) (by omega)).mpr haddr
    have hhigh : ∀ j, 48 ≤ j → (blockDesc start flags i).getLsbD j = flags.getLsbD j := by
      intro j hj
      have hlow : (blockAddr start i).toNat < 2 ^ 48 := by
        rw [blockAddr_toNat (by omega),if_pos (by omega)]
        omega
      have htype : pteTypeBlock.toNat < 2 ^ 48 := by decide
      simp only [blockDesc,BitVec.getLsbD_or,getLsbD_of_lt hlow hj,getLsbD_of_lt htype hj,
        Bool.false_or,Bool.or_false]
    obtain ⟨hperms,hmem⟩ := @resolve_flags flags va _ mair hblock.2 hhigh
    rw [← hperms,← hmem]
    exact congrArg some (Stage1.Translation.mk.injEq .. |>.mpr ⟨hpa,rfl,rfl⟩)
  · by_cases hva32 : va.toNat < 2 ^ 32
    · refine mapBlockRange_other h havail (fun hk i hi hidx => hva ?_) mair
      have hk := congrArg Fin.val hk
      have hidx := congrArg Fin.val hidx
      rw [tlbL1Index_val,tlbL1Index_val] at hk
      rw [blockIndex_val (by omega),tlbL2Index_val] at hidx
      exact ⟨by omega,by omega⟩
    · rw [el3Translate,el3Translate,if_neg hva32,if_neg hva32]

/-- In a range that crosses a gigabyte, the last block whose index is 0 is not the block that
level 1 leads to. -/
theorem crossing_block (hbelow : start.toNat / 2 ^ 21 + size.toNat ≤ 2048) (hn : 0 < size.toNat)
    (hcross : start.toNat / 2 ^ 30 ≠ (start.toNat / 2 ^ 21 + size.toNat - 1) / 512) :
    ∃ i < size.toNat, (blockIndex start i).val = 0 ∧
      (∀ l, i < l → l < size.toNat → blockIndex start l ≠ blockIndex start i) ∧
      start.toNat / 2 ^ 30 * 2 ^ 30 < (blockDesc start flags i &&& blockMask).toNat := by
  let i := (start.toNat / 2 ^ 21 + size.toNat - 1) / 512 * 512 - start.toNat / 2 ^ 21
  have hi : i < size.toNat := by omega
  have hsum : start.toNat / 2 ^ 21 + i = (start.toNat / 2 ^ 21 + size.toNat - 1) / 512 * 512 := by
    omega
  have hidx : (blockIndex start i).val = 0 := by
    rw [blockIndex_val (by omega)]
    omega
  refine ⟨i,hi,hidx,fun l hil hl he => ?_,?_⟩
  · have hval := congrArg Fin.val he
    rw [hidx,blockIndex_val (by omega)] at hval
    omega
  · have haddr : start.toNat / 2 ^ 30 * 2 ^ 30 < (blockAddr start i &&& blockMask).toNat := by
      rw [blockMask_toNat,blockAddr_toNat (by omega)]
      split <;> omega
    refine Nat.lt_of_lt_of_le haddr ?_
    have hor : blockDesc start flags i &&& blockMask =
        (blockAddr start i &&& blockMask) ||| ((flags ||| pteTypeBlock) &&& blockMask) := by
      rw [blockDesc,BitVec.or_assoc,BitVec.and_or_distrib_right]
    rw [hor,BitVec.toNat_or]
    exact Nat.left_le_or

/-- Among tables that hold identities only, nothing but such a range is mapped to itself. -/
theorem IdentityMapped.fits (h : El3Tables A m) (hid : OnlyIdentity A m) (hn : 0 < size.toNat)
    (hbelow : start.toNat / 2 ^ 21 + size.toNat ≤ 2048)
    (havail : m.mem (A.root ()) (tlbL1Index start) &&& 1 ≠ 0 ∨ m.used < A.slots)
    (hm : IdentityMapped A start size flags m) : BlocksFit start size flags := by
  obtain ⟨haligned,hblock⟩ := (isBlock_iff (by omega)).mp (hm.blocks 0 hn)
  have hone : start.toNat / 2 ^ 30 = (start.toNat / 2 ^ 21 + size.toNat - 1) / 512 := by
    by_contra hcross
    obtain ⟨i,hi,hidx,hlast,hlarge⟩ := @crossing_block start size flags hbelow hn hcross
    -- the address of entry 0 of the level 2 table
    have hstart : start.toNat / 2 ^ 30 * 2 ^ 30 < 2 ^ 64 := by omega
    obtain ⟨w,hw⟩ : ∃ w : Word, w.toNat = start.toNat / 2 ^ 30 * 2 ^ 30 :=
      ⟨BitVec.ofNat 64 _,by rw [BitVec.toNat_ofNat,Nat.mod_eq_of_lt hstart]⟩
    have hk : tlbL1Index w = tlbL1Index start := by
      refine Fin.ext ?_
      rw [tlbL1Index_val,tlbL1Index_val]
      omega
    have hzero : blockIndex start i = tlbL2Index w := by
      refine Fin.ext (hidx.trans ?_)
      rw [tlbL2Index_val]
      omega
    have hblock := hm.blocks _ hi
    have htrans := fun mair =>
      mapBlockRange_block h havail (by omega) hk hi hzero hlast hblock.1 mair
    have hpa : (Stage1.resolve 0 w ⟨blockDesc start flags i,1⟩).pa = w := by
      by_cases hin : InBlocks start size w
      · have := (htrans 0).symm.trans (hm.inside 0 w hin)
        exact congrArg Stage1.Translation.pa (Option.some.inj this)
      · exact hid 0 w _ ((hm.outside 0 w hin).symm.trans (htrans 0))
    have hmask := (resolve_block_iff 0 _ (by omega)).mp hpa
    rw [hmask,blockMask_toNat] at hlarge
    omega
  refine ⟨haligned,hblock,hone,fun i hi => ?_⟩
  rw [← blockAddr_eq (by omega) (by omega)]
  refine blockDesc_mask_iff.mp ?_
  -- the first address of the block that starts in turn i
  have hstart : start.toNat + i * 2 ^ 21 < 2 ^ 64 := by omega
  obtain ⟨va,hva⟩ : ∃ va : Word, va.toNat = start.toNat + i * 2 ^ 21 :=
    ⟨BitVec.ofNat 64 _,by rw [BitVec.toNat_ofNat,Nat.mod_eq_of_lt hstart]⟩
  have hnumber : va.toNat / 2 ^ 21 = start.toNat / 2 ^ 21 + i := by omega
  obtain ⟨hk,hidx,hlast,haddr⟩ := block_own hbelow hone hi hnumber
  have htrans := mapBlockRange_block h havail (by omega) hk hi hidx hlast (hm.blocks i hi).1 0
  have hpa := congrArg Stage1.Translation.pa
    (Option.some.inj (htrans.symm.trans (hm.inside 0 va ⟨by omega,by omega⟩)))
  rw [(resolve_block_iff 0 _ (by omega)).mp hpa,haddr]

end Range

section Kept
variable {A : TableArea Unit} {m : Tables} {start size flags : Word}

theorem el3Tables_of_clear (hroot : ∀ i, m.mem (A.root ()) i = 0) (hused : m.used = 0) :
    El3Tables A m ∧ OnlyIdentity A m := by
  have hinvalid : ∀ i, m.mem (A.root ()) i &&& 1 = 0 := by
    intro i
    rw [hroot]
    decide
  refine ⟨⟨fun i => .inl (hinvalid i),fun i j hi => absurd (hinvalid i) hi,fun a ha => ?_⟩,
    fun mair va t ht => ?_⟩
  · rw [hused] at ha
    exact absurd ha (Nat.not_lt_zero _)
  · rw [el3Translate,El3Tables.lookup_none (hinvalid _),Option.map_none,ite_self] at ht
    exact nomatch ht

theorem BlocksFit.kept (h : El3Tables A m) (hid : OnlyIdentity A m)
    (hfit : BlocksFit start size flags) (hbelow : start.toNat / 2 ^ 21 + size.toNat ≤ 2048)
    (havail : m.mem (A.root ()) (tlbL1Index start) &&& 1 ≠ 0 ∨ m.used < A.slots) :
    El3Tables A (mapBlockRange A start size flags m) ∧
      OnlyIdentity A (mapBlockRange A start size flags m) := by
  have hm := hfit.identity h hbelow havail
  constructor
  · obtain ⟨a,m₁,hok,_,_,_,heq⟩ := @mapBlockRange_stores A m start size flags h havail
    obtain ⟨hused,hother,hkept,hstored⟩ := foldl_put_mem (A.table a) (blockIndex start)
      (blockDesc start flags) size.toNat m₁
    rw [← heq] at hused hother hkept hstored
    have hroot := hother _ (A.root_ne_table () a)
    refine ⟨fun i => ?_,fun i j => ?_,fun b hb j => ?_⟩
    · rw [hroot,hused]
      exact hok.root i
    · rw [hroot]
      exact hok.inj i j
    · rw [hused] at hb
      by_cases hba : b = a
      · subst hba
        by_cases hj : ∃ i < size.toNat, blockIndex start i = j
        · obtain ⟨i,hi,rfl⟩ := hj
          have hbase : start.toNat + i * 2 ^ 21 < 2 ^ 64 := by omega
          have hva : (BitVec.ofNat 64 (start.toNat + i * 2 ^ 21)).toNat / 2 ^ 21 =
              start.toNat / 2 ^ 21 + i := by
            rw [BitVec.toNat_ofNat]
            omega
          obtain ⟨_,_,hlast,_⟩ := block_own hbelow hfit.oneEntry hi hva
          rw [hstored i hi hlast,(hm.blocks i hi).1]
          decide
        · rw [hkept j fun i hi he => hj ⟨i,hi,he⟩]
          exact hok.blocks b hb j
      · rw [hother _ fun ht => hba (A.table_inj ht)]
        exact hok.blocks b hb j
  · intro mair va t ht
    by_cases hin : InBlocks start size va
    · rw [hm.inside mair va hin] at ht
      exact congrArg Stage1.Translation.pa (Option.some.inj ht).symm
    · rw [hm.outside mair va hin] at ht
      exact hid mair va t ht

end Kept

/-- map_block_range is an identity map of the range exactly when the range is in one gigabyte,
and the address of each block and the flags do not meet in a descriptor. -/
theorem mapBlockRange_identity_iff (A : TableArea Unit) (start size flags : Word) (m : Tables)
    (h : El3Tables A m) (hbelow : start.toNat / 2 ^ 21 + size.toNat ≤ 2048)
    (havail : m.mem (A.root ()) (tlbL1Index start) &&& 1 ≠ 0 ∨ m.used < A.slots) :
    (size = 0 ∨ BlocksFit start size flags → IdentityMapped A start size flags m) ∧
      (OnlyIdentity A m → IdentityMapped A start size flags m →
        size = 0 ∨ BlocksFit start size flags) := by
  constructor
  · rintro (hzero | hfit)
    · have hno : ∀ i, ¬ i < size.toNat := by
        rw [hzero]
        exact Nat.not_lt_zero
      refine ⟨fun mair va hva => ?_,fun mair va _ => ?_,fun i hi => absurd hi (hno i)⟩
      · have := hno (va.toNat / 2 ^ 21 - start.toNat / 2 ^ 21)
        obtain ⟨hfrom,hto⟩ := hva
        omega
      · exact mapBlockRange_other h havail (fun _ i hi => absurd hi (hno i)) mair
    · exact hfit.identity h hbelow havail
  · intro hid hm
    by_cases hn : size.toNat = 0
    · exact .inl (BitVec.eq_of_toNat_eq hn)
    · exact .inr (hm.fits h hid (Nat.pos_of_ne_zero hn) hbelow havail)

def testEl3Area : TableArea Unit where
  root _ := 0x40020000
  pool := 0x40021000
  slots := 12
  poolPage := by decide
  poolLow := by decide
  rootApart := by rintro ⟨⟩; decide
  rootInj _ _ _ := rfl

def clearTables : Tables := ⟨fun _ _ => 0,0,false⟩

/-- The first call of setup_mmu. -/
theorem mapBlockRange_identity_ram :
    let flags := protNormalMem ||| apEl0NoElxRw
    IdentityMapped testEl3Area ramBase 6 flags clearTables ∧ BlocksFit ramBase 6 flags := by
  intro flags
  have hfit : BlocksFit ramBase 6 flags := ⟨by decide,by decide,by decide,by decide⟩
  have hclear := @el3Tables_of_clear testEl3Area clearTables (fun _ => rfl) rfl
  obtain ⟨himp,hconv⟩ := mapBlockRange_identity_iff testEl3Area ramBase 6 flags clearTables hclear.1
    (by decide) (.inr (by decide))
  have hm := himp (.inr hfit)
  exact ⟨hm,(hconv hclear.2 hm).resolve_left (by decide)⟩

/-- The call of setup_mmu for GICR_BASE leaves bits of the address in the descriptor, and a range
across a gigabyte maps address 0 to its second half. -/
theorem mapBlockRange_not_identity :
    let flags := protDevice ||| apEl0NoElxRw ||| pteUxn
    blockDesc gicrBase flags 0 &&& 0x1FF000 = 0xA0000 ∧ flags &&& 0x1FF000 = 0 ∧
      ¬ IdentityMapped testEl3Area gicrBase 1 flags clearTables ∧
      (el3Translate testEl3Area 0 (mapBlockRange testEl3Area 0x3FE00000 2 flags clearTables) 0).map
        (·.pa) = some 0x40000000 := by
  intro flags
  refine ⟨by decide,by decide,fun h => ?_,by decide +kernel⟩
  exact absurd (h.blocks 0 (by decide)).2 (by decide)

end Arm64
